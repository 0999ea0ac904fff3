import Pancake.LabelConservation

/-!
# The swap plan

Before it hands any label on, `update_distribution` has taken the labels of
the replicas that disappear and listed the replicas that appear. When
`replica_to_label_` names exactly the live replicas, both lists say what they
should, and they are equally long: what the real keys gain or lose in all,
the dummy key makes up for.
-/

namespace Pancake

namespace Proxy

/-- `update_distribution` up to the end of its dummy step. -/
def planSwaps (st : Proxy) (newDistribution : Distribution) : Except Fault Swapping := do
  let n := newDistribution.items.length
  let s ← newDistribution.pairs.foldlM updateReplica { swapping := { proxy := st } }
  assert (s.newNumRealReplicas < 2 * n)
  let st := s.swapping.proxy
  let rOld := st.dummyKeys
  let st := { st with dummyKeys := 2 * n - s.newNumRealReplicas }
  prepareForSwapping { s.swapping with proxy := st } st.dummyKey st.dummyKeys rOld

/-- The rest of the call. -/
theorem updateDistribution_eq_planSwaps (st : Proxy) (d : Distribution) :
    st.updateDistribution d = (do
      let s ← st.planSwaps d
      let st ← s.proxy.recomputeFakeDistribution d
      let st := { st with realDistribution := d }
      let st := { st with keyToFrequency := st.newKeyToFrequency }
      assert (s.needsLabels.length = s.unassignedLabels.length)
      st.performSwapping s.unassignedLabels s.needsLabels) := by
  simp only [updateDistribution, planSwaps]
  cases d.pairs.foldlM updateReplica { swapping := { proxy := st } } with
  | error e => rfl
  | ok s =>
      simp only [ok_bind]
      cases assert (s.newNumRealReplicas < 2 * d.items.length) with
      | error e => rfl
      | ok u => rfl

/-- The replicas `a, …, b - 1` of `key`. -/
def replicasBetween (key : Str) (a b : Nat) : List (Str × Nat) :=
  (List.range' a (b - a)).map fun i => (key, i)

/-- The live replicas: those of the real keys, and the dummies. -/
def liveReplicas (st : Proxy) (keys : List Str) : List (Str × Nat) :=
  (keys.flatMap fun key => replicasBetween key 0 (st.replicas key)) ++
    replicasBetween st.dummyKey 0 st.dummyKeys

/-- `replica_to_label_` has the names of the live replicas, which are all
different, and no others; there are `2n` of them. -/
structure ExactlyNamed (st : Proxy) (keys : List Str) : Prop where
  distinctNames : (st.liveNames keys).Nodup
  domain : ∀ name, name ∈ st.replicaToLabel ↔ name ∈ st.liveNames keys
  total : (st.liveNames keys).length = 2 * keys.length

/-- What the two lists and the map hold at the end of the dummy step. -/
structure BalancedPlan (st : Proxy) (keys : List Str) (d : Distribution) (s : Swapping) :
    Prop where
  counts : ∀ item ∈ d.pairs, s.proxy.replicas item.1 = replicaCount st.alpha item.2 ∧
    0 < s.proxy.replicas item.1
  fewer : (d.pairs.map fun item => s.proxy.replicas item.1).sum < 2 * keys.length
  present : ∀ r ∈ st.liveReplicas keys, r ∉ s.proxy.liveReplicas keys →
    replicaName r.1 r.2 ∈ st.replicaToLabel
  needsOnce : s.needsLabels.Nodup
  needs : ∀ r, r ∈ s.needsLabels ↔ r ∈ s.proxy.liveReplicas keys ∧ r ∉ st.liveReplicas keys
  erased : ∀ name, name ∈ st.replicaToLabel ∧ name ∉ s.proxy.replicaToLabel ↔
    ∃ r ∈ st.liveReplicas keys, r ∉ s.proxy.liveReplicas keys ∧ replicaName r.1 r.2 = name
  kept : ∀ name ∈ s.proxy.replicaToLabel,
    s.proxy.replicaToLabel.lookup name = st.replicaToLabel.lookup name
  balanced : s.needsLabels.length = s.unassignedLabels.length

/-! ## The replicas between two numbers -/

theorem mem_replicasBetween {key : Str} {a b : Nat} {r : Str × Nat} :
    r ∈ replicasBetween key a b ↔ r.1 = key ∧ a ≤ r.2 ∧ r.2 < b := by
  rw [replicasBetween, List.mem_map]
  constructor
  · intro h
    obtain ⟨i, hi, rfl⟩ := h
    rw [List.mem_range'_1] at hi
    exact ⟨rfl, by omega, by omega⟩
  · intro h
    refine ⟨r.2, List.mem_range'_1.mpr (by omega), ?_⟩
    rw [← h.1]

theorem nodup_replicasBetween (key : Str) (a b : Nat) : (replicasBetween key a b).Nodup :=
  List.Nodup.map (fun _ _ h => (Prod.mk.inj h).2) List.nodup_range'

@[simp] theorem length_replicasBetween (key : Str) (a b : Nat) :
    (replicasBetween key a b).length = b - a := by
  simp [replicasBetween]

theorem namesBetween_eq (key : Str) (a b : Nat) :
    namesBetween key a b = (replicasBetween key a b).map fun r => replicaName r.1 r.2 := by
  rw [replicasBetween, List.map_map]
  rfl

/-- Replicas of different keys, the dummy key last. -/
theorem nodup_replicas {items : List (Str × ℚ)} {dummyKey : Str}
    (hnd : (items.map Prod.fst).Nodup) (hdummy : dummyKey ∉ items.map Prod.fst)
    (lo hi : Str × ℚ → Nat) (a b : Nat) :
    ((items.flatMap fun item => replicasBetween item.1 (lo item) (hi item)) ++
      replicasBetween dummyKey a b).Nodup := by
  rw [List.nodup_append]
  refine ⟨?_, nodup_replicasBetween dummyKey a b, ?_⟩
  · rw [List.nodup_flatMap]
    refine ⟨fun item _ => nodup_replicasBetween _ _ _, ?_⟩
    rw [List.Nodup, List.pairwise_map] at hnd
    apply hnd.imp
    intro x y hne r hx hy
    exact hne ((mem_replicasBetween.mp hx).1.symm.trans (mem_replicasBetween.mp hy).1)
  · intro r hr r' hr' heq
    subst heq
    obtain ⟨item, hitem, hr⟩ := List.mem_flatMap.mp hr
    apply hdummy
    rw [← (mem_replicasBetween.mp hr').1, (mem_replicasBetween.mp hr).1]
    exact List.mem_map_of_mem hitem

section Plan

variable {st : Proxy} {keys : List Str} {d : Distribution}

theorem liveNames_eq_map : st.liveNames keys
    = (st.liveReplicas keys).map fun r => replicaName r.1 r.2 := by
  simp only [liveNames, liveReplicas, replicasBetween, replicaNames, List.map_append,
    List.map_flatMap, List.map_map, Nat.sub_zero, List.range_eq_range']
  rfl

/-- How many live replicas a key has, the dummy key included. -/
def liveCount (st : Proxy) (key : Str) : Nat :=
  if key = st.dummyKey then st.dummyKeys else st.replicas key

theorem mem_liveReplicas (hdummy : st.dummyKey ∉ keys) {r : Str × Nat} :
    r ∈ st.liveReplicas keys ↔ r.1 ∈ keys ++ [st.dummyKey] ∧ r.2 < st.liveCount r.1 := by
  rw [liveReplicas, List.mem_append, List.mem_flatMap, mem_replicasBetween, liveCount,
    List.mem_append, List.mem_singleton]
  by_cases hkey : r.1 = st.dummyKey
  · rw [if_pos hkey]
    constructor
    · intro h
      rcases h with ⟨key, hmem, hr⟩ | hr
      · exact absurd ((mem_replicasBetween.mp hr).1 ▸ hmem) (hkey ▸ hdummy)
      · exact ⟨.inr hkey, hr.2.2⟩
    · intro h
      exact .inr ⟨hkey, Nat.zero_le _, h.2⟩
  · rw [if_neg hkey]
    constructor
    · intro h
      rcases h with ⟨key, hmem, hr⟩ | hr
      · obtain ⟨rfl, -, hlt⟩ := mem_replicasBetween.mp hr
        exact ⟨.inl hmem, hlt⟩
      · exact absurd hr.1 hkey
    · intro h
      exact .inl ⟨r.1, h.1.resolve_right hkey, mem_replicasBetween.mpr ⟨rfl, Nat.zero_le _, h.2⟩⟩

/-- The live replicas have different names. -/
theorem ExactlyNamed.name_inj (h : st.ExactlyNamed keys) {r r' : Str × Nat}
    (hr : r ∈ st.liveReplicas keys) (hr' : r' ∈ st.liveReplicas keys)
    (heq : replicaName r.1 r.2 = replicaName r'.1 r'.2) : r = r' := by
  have hnd := h.distinctNames
  rw [liveNames_eq_map] at hnd
  exact List.inj_on_of_nodup_map hnd hr hr' heq

theorem ExactlyNamed.mem (h : st.ExactlyNamed keys) {name : Str} : name ∈ st.replicaToLabel ↔
    ∃ r ∈ st.liveReplicas keys, replicaName r.1 r.2 = name := by
  rw [h.domain, liveNames_eq_map, List.mem_map]

theorem ExactlyNamed.sum_replicas (h : st.ExactlyNamed keys) :
    (keys.map st.replicas).sum + st.dummyKeys = 2 * keys.length := by
  rw [← h.total, liveNames_eq_map, List.length_map, liveReplicas, List.length_append,
    List.length_flatMap]
  simp

theorem Bijective.exactlyNamed (h : st.Bijective keys) : st.ExactlyNamed keys where
  distinctNames := h.distinctNames
  domain := h.domain
  total := by
    rw [← h.total, liveNames_eq_map, List.length_map, liveReplicas, List.length_append,
      List.length_flatMap]
    simp

/-! ## The two lists -/

/-- The replicas that lose their label, as `released` names them. -/
def releasedReplicas (st : Proxy) (d : Distribution) : List (Str × Nat) :=
  (d.pairs.flatMap fun item =>
    replicasBetween item.1 (replicaCount st.alpha item.2) (st.replicas item.1)) ++
    replicasBetween st.dummyKey (st.newDummyKeys d) st.dummyKeys

theorem released_eq_map : st.released d
    = (st.releasedReplicas d).map fun r => replicaName r.1 r.2 := by
  simp only [released, releasedBy, releasedReplicas, List.map_append, List.map_flatMap,
    ← namesBetween_eq]

theorem needed_eq : st.needed d = (d.pairs.flatMap fun item =>
      replicasBetween item.1 (st.replicas item.1) (replicaCount st.alpha item.2)) ++
    replicasBetween st.dummyKey st.dummyKeys (st.newDummyKeys d) := rfl

/-- What is taken away one way is taken away the other. -/
theorem sum_sub_add_sum {α : Type} (f g : α → Nat) (l : List α) :
    (l.map fun x => f x - g x).sum + (l.map g).sum
      = (l.map fun x => g x - f x).sum + (l.map f).sum := by
  induction l with
  | nil => rfl
  | cons x l ih =>
      simp only [List.map_cons, List.sum_cons]
      omega

/-- **The lists are equally long**, because both counts total `2n`. -/
theorem length_needed (htotal : (keys.map st.replicas).sum + st.dummyKeys = 2 * keys.length)
    (hd : DistributionOver keys d) (hfewer : st.newRealReplicas d < 2 * d.items.length) :
    (st.needed d).length = (st.released d).length := by
  have hboth := sum_sub_add_sum (fun item : Str × ℚ => replicaCount st.alpha item.2)
    (fun item => st.replicas item.1) d.pairs
  rw [hd.sum_keys st.replicas] at hboth
  have hnew : (d.pairs.map fun item => replicaCount st.alpha item.2).sum
      = st.newRealReplicas d := rfl
  rw [needed_eq, released_eq_map, List.length_map, releasedReplicas, List.length_append,
    List.length_append, List.length_flatMap, List.length_flatMap]
  simp only [length_replicasBetween]
  rw [newDummyKeys]
  rw [hd.length_eq] at hfewer ⊢
  omega

/-- The members of either list, by the counts before and after. -/
theorem mem_replicas (hd : DistributionOver keys d) (dummyKey : Str) (lo hi : Str × ℚ → Nat)
    {L H : Str → Nat} (hlo : ∀ item ∈ d.pairs, lo item = L item.1)
    (hhi : ∀ item ∈ d.pairs, hi item = H item.1) {r : Str × Nat} :
    r ∈ (d.pairs.flatMap fun item => replicasBetween item.1 (lo item) (hi item)) ++
        replicasBetween dummyKey (L dummyKey) (H dummyKey) ↔
      r.1 ∈ keys ++ [dummyKey] ∧ L r.1 ≤ r.2 ∧ r.2 < H r.1 := by
  rw [List.mem_append, List.mem_flatMap, mem_replicasBetween, List.mem_append, List.mem_singleton]
  constructor
  · intro h
    rcases h with ⟨item, hitem, hr⟩ | ⟨hkey, hle, hlt⟩
    · obtain ⟨hkey, hle, hlt⟩ := mem_replicasBetween.mp hr
      rw [hlo item hitem] at hle
      rw [hhi item hitem] at hlt
      rw [hkey]
      exact ⟨.inl (hd.mem_keys hitem), hle, hlt⟩
    · rw [hkey]
      exact ⟨.inr rfl, hle, hlt⟩
  · intro h
    obtain ⟨hkey | hkey, hle, hlt⟩ := h
    · obtain ⟨item, hitem, heq⟩ := hd.exists_item hkey
      refine .inl ⟨item, hitem, mem_replicasBetween.mpr ⟨heq.symm, ?_, ?_⟩⟩
      · rw [hlo item hitem, heq]
        exact hle
      · rw [hhi item hitem, heq]
        exact hlt
    · rw [hkey] at hle hlt
      exact .inr ⟨hkey, hle, hlt⟩

/-! ## The plan -/

/-- What the loop and the dummy step have done. -/
structure Planned (st : Proxy) (d : Distribution) (s : Swapping) : Prop where
  prepared : Prepared { proxy := st } s (st.released d) (st.needed d)
  counts : ∀ item ∈ d.pairs, s.proxy.replicas item.1 = replicaCount st.alpha item.2
  others : ∀ k, k ∉ d.pairs.map Prod.fst → s.proxy.replicas k = st.replicas k
  dummyKeys : s.proxy.dummyKeys = st.newDummyKeys d
  fewer : st.newRealReplicas d < 2 * d.items.length
  kept : KeptFields st s.proxy

theorem Planned.needsLabels_eq {s : Swapping} (h : Planned st d s) :
    s.needsLabels = st.needed d := h.prepared.needs

/-- One label for each replica released. -/
theorem Planned.length_unassignedLabels {s : Swapping} (h : Planned st d s) :
    s.unassignedLabels.length = (st.released d).length := by
  obtain ⟨labels, hlength, hunassigned, -⟩ := h.prepared.labels
  rw [hunassigned, List.nil_append, List.length_map, hlength]

theorem planSwaps_spec (hnd : (d.pairs.map Prod.fst).Nodup) {s : Swapping}
    (h : st.planSwaps d = .ok s) : Planned st d s := by
  simp only [planSwaps, bind_eq_ok, assert_eq_ok] at h
  obtain ⟨s₁, hloop, -, hless, hdummy⟩ := h
  have hl := updateReplicas_spec hnd hloop
  obtain ⟨-, hf, -⟩ := prepareForSwapping_spec hdummy
  have hreplicas : s.proxy.replicas = s₁.swapping.proxy.replicas := by
    rw [hf]
    rfl
  rw [hl.newNumRealReplicas] at hless
  refine ⟨hl.prepared_dummies hdummy, ?_, ?_, ?_, hless, ?_⟩
  · rw [hreplicas]
    exact hl.counts
  · rw [hreplicas]
    exact hl.others
  · rw [hf, hl.newNumRealReplicas]
    rfl
  · refine hl.kept.trans ⟨?_, ?_, ?_, ?_, ?_, ?_, ?_, ?_, ?_⟩ <;> rw [hf]

/-- **The loop and the dummy step return** when what they release is there,
each name once. -/
theorem planSwaps_total (hnd : (d.pairs.map Prod.fst).Nodup)
    (hpos : ∀ item ∈ d.pairs, 0 < replicaCount st.alpha item.2)
    (hfewer : st.newRealReplicas d < 2 * d.items.length) (hdistinct : (st.released d).Nodup)
    (hpresent : ∀ x ∈ st.released d, x ∈ st.replicaToLabel) : ∃ s, st.planSwaps d = .ok s := by
  obtain ⟨hreal, -, hdisjoint⟩ := List.nodup_append.mp hdistinct
  obtain ⟨s₁, hloop⟩ := updateReplicas_total hnd (s := { swapping := { proxy := st } }) hpos hreal
    fun x hx => hpresent x (List.mem_append_left _ hx)
  have hl := updateReplicas_spec hnd hloop
  obtain ⟨s, hdummy⟩ := prepareForSwapping_total { s₁.swapping with
      proxy := { s₁.swapping.proxy with dummyKeys := 2 * d.items.length - s₁.newNumRealReplicas } }
    s₁.swapping.proxy.dummyKey (2 * d.items.length - s₁.newNumRealReplicas)
    s₁.swapping.proxy.dummyKeys fun x hx => by
      rw [hl.newNumRealReplicas, hl.kept.dummyKey, hl.dummyKeys] at hx
      have hnot : x ∉ st.releasedBy d.pairs := fun hc => hdisjoint x hc x hx rfl
      show x ∈ s₁.swapping.proxy.replicaToLabel
      rw [Finmap.mem_iff, hl.prepared.lookup, if_neg hnot]
      exact Finmap.mem_iff.mp (hpresent x (List.mem_append_right _ hx))
  rw [← hl.newNumRealReplicas] at hfewer
  refine ⟨s, ?_⟩
  simp only [planSwaps, hloop, ok_bind, assert, if_pos hfewer]
  exact hdummy

section Over

variable (hnd : keys.Nodup) (hdummy : st.dummyKey ∉ keys) (hd : DistributionOver keys d)
include hnd hdummy hd

theorem nodup_releasedReplicas : (st.releasedReplicas d).Nodup := by
  apply nodup_replicas (hd.pairs_nodup hnd)
  rw [hd.mem_pairs_map_fst]
  exact hdummy

theorem nodup_needed : (st.needed d).Nodup := by
  rw [needed_eq]
  apply nodup_replicas (hd.pairs_nodup hnd)
  rw [hd.mem_pairs_map_fst]
  exact hdummy

omit hnd hdummy in
/-- Only live replicas are released. -/
theorem live_of_released {r : Str × Nat} (hr : r ∈ st.releasedReplicas d) :
    r ∈ st.liveReplicas keys := by
  rw [releasedReplicas, List.mem_append, List.mem_flatMap] at hr
  rw [liveReplicas, List.mem_append, List.mem_flatMap]
  rcases hr with ⟨item, hitem, hr⟩ | hr
  · obtain ⟨hkey, -, hlt⟩ := mem_replicasBetween.mp hr
    exact .inl ⟨item.1, hd.mem_keys hitem, mem_replicasBetween.mpr ⟨hkey, Nat.zero_le _, hlt⟩⟩
  · obtain ⟨hkey, -, hlt⟩ := mem_replicasBetween.mp hr
    exact .inr (mem_replicasBetween.mpr ⟨hkey, Nat.zero_le _, hlt⟩)

/-- So the plan can be made. -/
theorem ExactlyNamed.planSwaps (h : st.ExactlyNamed keys) (halpha : st.alpha = 1 / keys.length) :
    ∃ s, st.planSwaps d = .ok s := by
  apply planSwaps_total (hd.pairs_nodup hnd)
  · intro item hitem
    exact (hd.callerArguments hnd halpha).one_le_replicaCount (List.of_mem_zip hitem).2
  · exact hd.sum_replicaCount hnd halpha
  · rw [released_eq_map]
    apply (nodup_releasedReplicas hnd hdummy hd).map_on
    intro r hr r' hr' heq
    exact h.name_inj (live_of_released hd hr) (live_of_released hd hr') heq
  · intro x hx
    rw [released_eq_map] at hx
    obtain ⟨r, hr, rfl⟩ := List.mem_map.mp hx
    exact h.mem.mpr ⟨r, live_of_released hd hr, rfl⟩

section Made

variable {s : Swapping} (hp : Planned st d s)
include hp

omit hnd in
theorem Planned.liveCount_item {item : Str × ℚ} (hitem : item ∈ d.pairs) :
    replicaCount st.alpha item.2 = s.proxy.liveCount item.1 ∧
      st.replicas item.1 = st.liveCount item.1 := by
  have hne : item.1 ≠ st.dummyKey := by
    intro hc
    exact hdummy (hc ▸ hd.mem_keys hitem)
  rw [Proxy.liveCount, Proxy.liveCount, hp.kept.dummyKey, if_neg hne, if_neg hne,
    hp.counts item hitem]
  exact ⟨rfl, rfl⟩

omit hnd hdummy hd in
theorem Planned.liveCount_dummyKey : s.proxy.liveCount st.dummyKey = st.newDummyKeys d := by
  rw [Proxy.liveCount, hp.kept.dummyKey, if_pos rfl, hp.dummyKeys]

omit hnd in
/-- What needs a label is new and not old. -/
theorem Planned.mem_needed {r : Str × Nat} : r ∈ st.needed d ↔
    r ∈ s.proxy.liveReplicas keys ∧ r ∉ st.liveReplicas keys := by
  have hdummy' : s.proxy.dummyKey ∉ keys := hp.kept.dummyKey ▸ hdummy
  have hmem := mem_replicas hd st.dummyKey
    (fun item => st.replicas item.1) (fun item => replicaCount st.alpha item.2) (r := r)
    (L := st.liveCount) (H := s.proxy.liveCount)
    (fun item hitem => (hp.liveCount_item hdummy hd hitem).2)
    (fun item hitem => (hp.liveCount_item hdummy hd hitem).1)
  rw [hp.liveCount_dummyKey, Proxy.liveCount, if_pos rfl] at hmem
  rw [needed_eq, hmem, mem_liveReplicas hdummy, mem_liveReplicas hdummy', hp.kept.dummyKey]
  constructor
  · intro h
    exact ⟨⟨h.1, h.2.2⟩, fun hc => by omega⟩
  · intro h
    refine ⟨h.1.1, ?_, h.1.2⟩
    by_contra hlt
    exact h.2 ⟨h.1.1, by omega⟩

omit hnd in
/-- What is released is old and not new. -/
theorem Planned.mem_releasedReplicas {r : Str × Nat} : r ∈ st.releasedReplicas d ↔
    r ∈ st.liveReplicas keys ∧ r ∉ s.proxy.liveReplicas keys := by
  have hdummy' : s.proxy.dummyKey ∉ keys := hp.kept.dummyKey ▸ hdummy
  have hmem := mem_replicas hd st.dummyKey
    (fun item => replicaCount st.alpha item.2) (fun item => st.replicas item.1) (r := r)
    (L := s.proxy.liveCount) (H := st.liveCount)
    (fun item hitem => (hp.liveCount_item hdummy hd hitem).1)
    (fun item hitem => (hp.liveCount_item hdummy hd hitem).2)
  rw [hp.liveCount_dummyKey, Proxy.liveCount, if_pos rfl] at hmem
  rw [releasedReplicas, hmem, mem_liveReplicas hdummy, mem_liveReplicas hdummy',
    hp.kept.dummyKey]
  constructor
  · intro h
    exact ⟨⟨h.1, h.2.2⟩, fun hc => by omega⟩
  · intro h
    refine ⟨h.1.1, ?_, h.1.2⟩
    by_contra hlt
    exact h.2 ⟨h.1.1, by omega⟩

end Made

/-- **The swap plan is balanced.** With exactly the live replicas named and
`alpha_` the inverse of the number of keys, the loop and the dummy step
return for every new distribution over the keys: what is erased are the
replicas that disappear, what needs a label are those that appear, and there
are as many of one as of the other. -/
theorem planSwaps_balanced (halpha : st.alpha = 1 / keys.length) (h : st.ExactlyNamed keys) :
    ∃ s, st.planSwaps d = .ok s ∧ st.BalancedPlan keys d s := by
  obtain ⟨s, hs⟩ := h.planSwaps hnd hdummy hd halpha
  have hp := planSwaps_spec (hd.pairs_nodup hnd) hs
  have hreleased : ∀ x, x ∈ st.released d ↔ ∃ r ∈ st.liveReplicas keys,
      r ∉ s.proxy.liveReplicas keys ∧ replicaName r.1 r.2 = x := by
    intro x
    rw [released_eq_map, List.mem_map]
    simp only [hp.mem_releasedReplicas hdummy hd, and_assoc]
  refine ⟨s, hs, ?_⟩
  exact
    { counts := by
        intro item hitem
        rw [hp.counts item hitem]
        exact ⟨rfl, (hd.callerArguments hnd halpha).one_le_replicaCount (List.of_mem_zip hitem).2⟩
      fewer := by
        rw [List.map_congr_left hp.counts, ← hd.length_eq]
        exact hp.fewer
      present := by
        intro r hr _
        exact h.mem.mpr ⟨r, hr, rfl⟩
      needsOnce := by
        rw [hp.needsLabels_eq]
        exact nodup_needed hnd hdummy hd
      needs := by
        intro r
        rw [hp.needsLabels_eq]
        exact hp.mem_needed hdummy hd
      erased := by
        intro name
        rw [← hreleased, Finmap.mem_iff, Finmap.mem_iff, hp.prepared.lookup]
        by_cases hname : name ∈ st.released d
        · have hthere : ∃ l, st.replicaToLabel.lookup name = some l := by
            obtain ⟨r, hr, -, rfl⟩ := (hreleased name).mp hname
            exact Finmap.mem_iff.mp (h.mem.mpr ⟨r, hr, rfl⟩)
          simp [hname, hthere]
        · simp [hname]
      kept := by
        intro name hname
        rw [Finmap.mem_iff, hp.prepared.lookup] at hname
        rw [hp.prepared.lookup]
        split
        · rename_i hc
          rw [if_pos hc] at hname
          simp at hname
        · rfl
      balanced := by
        rw [hp.needsLabels_eq, hp.length_unassignedLabels]
        exact length_needed h.sum_replicas hd hp.fewer }

end Over

end Plan

/-- Two equally likely keys, one of which becomes three times as likely as
the other. -/
theorem planSwaps_balanced_unevenKeys :
    ∃ s, twoKeys.planSwaps unevenKeys = .ok s ∧
      twoKeys.BalancedPlan evenKeys.items unevenKeys s :=
  planSwaps_balanced (by decide) (by decide +kernel) unevenKeys_over (by decide +kernel)
    twoKeys_bijective.exactlyNamed

end Proxy

end Pancake
