import Mathlib.Data.Set.Function
import Mathlib.Data.Finset.Card
import Pancake.UpdateDistribution
import Pancake.FrequencySmoothing

/-!
# Labels across distribution changes

A distribution change is meant to move labels between replicas and to keep
the labelling a bijection. A released label is turned into a character, and
what `stoi` reads back from that is never the label itself, nor any larger
one: the largest label a call releases is lost. A call conserves the labels
exactly when it releases none.
-/

namespace Pancake

namespace Proxy

/-- The names of the live replicas: those of the real keys, and the dummies. -/
def liveNames (st : Proxy) (keys : List Str) : List Str :=
  (keys.flatMap fun key => replicaNames key (st.replicas key)) ++
    replicaNames st.dummyKey st.dummyKeys

/-- `replica_to_label_` is a bijection from the live replicas, which have
distinct names, onto the labels below `2n`. -/
structure Bijective (st : Proxy) (keys : List Str) : Prop where
  distinctNames : (st.liveNames keys).Nodup
  domain : ∀ name, name ∈ st.replicaToLabel ↔ name ∈ st.liveNames keys
  bijection : Set.BijOn (UnorderedMap.at_ st.replicaToLabel) {name | name ∈ st.liveNames keys}
    (Set.Iio (2 * keys.length))

/-- A distribution over the keys `keys`, with positive probabilities. -/
structure DistributionOver (keys : List Str) (d : Distribution) : Prop where
  items : d.items.Perm keys
  lengths : d.items.length = d.probabilities.length
  positive : ∀ p ∈ d.probabilities, 0 < p
  normalised : d.probabilities.sum = 1

/-- Each call of a sequence completes and leaves a bijection. -/
def Conserved (keys : List Str) : Proxy → List Distribution → Prop
  | _, [] => True
  | st, d :: ds => ∃ st', st.updateDistribution d = .ok st' ∧ st'.Bijective keys ∧
      Conserved keys st' ds

/-- The change moves no replica: every key keeps its replica count, and each
entry of missing replicas already has one bit per replica. -/
structure MovesNothing (st : Proxy) (d : Distribution) : Prop where
  counts : ∀ item ∈ d.pairs, replicaCount st.alpha item.2 = st.replicas item.1
  sizes : ∀ key entry, st.missingNewReplicas.lookup key = some entry →
    entry.2.length = st.replicas key

/-! ## Counting the live replicas -/

theorem Bijective.lookup_inj {st : Proxy} {keys : List Str} (h : st.Bijective keys)
    {x y : Str} {l : Nat} (hx : st.replicaToLabel.lookup x = some l)
    (hy : st.replicaToLabel.lookup y = some l) : x = y := by
  have hlive : ∀ {z}, st.replicaToLabel.lookup z = some l → z ∈ st.liveNames keys := fun hz =>
    (h.domain _).mp (Finmap.mem_iff.mpr ⟨l, hz⟩)
  refine h.bijection.injOn (hlive hx) (hlive hy) ?_
  rw [UnorderedMap.at_, UnorderedMap.at_, hx, hy]

/-- Every label below `2n` belongs to some replica. -/
theorem Bijective.onto {st : Proxy} {keys : List Str} (h : st.Bijective keys) {l : Nat}
    (hl : l < 2 * keys.length) : ∃ x, st.replicaToLabel.lookup x = some l := by
  obtain ⟨x, hx, hxl⟩ := h.bijection.surjOn hl
  obtain ⟨l', hl'⟩ := Finmap.mem_iff.mp ((h.domain x).mpr hx)
  refine ⟨x, ?_⟩
  rw [← hxl, UnorderedMap.at_, hl']
  rfl

/-- And every label is below `2n`. -/
theorem Bijective.label_lt {st : Proxy} {keys : List Str} (h : st.Bijective keys) {x : Str}
    {l : Nat} (hx : st.replicaToLabel.lookup x = some l) : l < 2 * keys.length := by
  have hlive : x ∈ st.liveNames keys := (h.domain _).mp (Finmap.mem_iff.mpr ⟨l, hx⟩)
  have := h.bijection.mapsTo hlive
  rw [UnorderedMap.at_, hx] at this
  exact this

/-- There are `2n` live replicas. -/
theorem Bijective.total {st : Proxy} {keys : List Str} (h : st.Bijective keys) :
    (keys.map st.replicas).sum + st.dummyKeys = 2 * keys.length := by
  have hcard : (st.liveNames keys).toFinset.card = (Finset.range (2 * keys.length)).card := by
    refine Set.BijOn.finsetCard_eq (UnorderedMap.at_ st.replicaToLabel) ?_
    convert h.bijection using 1
    · ext x
      simp
    · ext l
      simp
  rw [List.toFinset_card_of_nodup h.distinctNames, Finset.card_range] at hcard
  rw [← hcard, liveNames, List.length_append, List.length_flatMap]
  simp

namespace DistributionOver

variable {keys : List Str} {d : Distribution}

theorem length_eq (h : DistributionOver keys d) : d.items.length = keys.length := h.items.length_eq

theorem mem_pairs_map_fst (h : DistributionOver keys d) {key : Str} :
    key ∈ d.pairs.map Prod.fst ↔ key ∈ keys := by
  rw [pairs_map_fst h.lengths, h.items.mem_iff]

theorem mem_keys (h : DistributionOver keys d) {item : Str × ℚ} (hitem : item ∈ d.pairs) :
    item.1 ∈ keys :=
  h.mem_pairs_map_fst.mp (List.mem_map_of_mem hitem)

theorem exists_item (h : DistributionOver keys d) {key : Str} (hkey : key ∈ keys) :
    ∃ item ∈ d.pairs, item.1 = key :=
  List.mem_map.mp (h.mem_pairs_map_fst.mpr hkey)

theorem pairs_nodup (h : DistributionOver keys d) (hnd : keys.Nodup) :
    (d.pairs.map Prod.fst).Nodup := by
  rw [pairs_map_fst h.lengths]
  exact h.items.nodup_iff.mpr hnd

theorem callerArguments (h : DistributionOver keys d) (hnd : keys.Nodup) {alpha : ℚ}
    (halpha : alpha = 1 / keys.length) :
    CallerArguments d alpha (1 / (2 * d.items.length * alpha)) :=
  ⟨h.lengths, h.items.nodup_iff.mpr hnd, h.positive, h.normalised,
    by rw [halpha, h.length_eq], rfl⟩

/-- Sums over the new distribution and over the keys. -/
theorem sum_keys (h : DistributionOver keys d) (f : Str → Nat) :
    (d.pairs.map fun item => f item.1).sum = (keys.map f).sum := by
  have hmap : d.pairs.map (fun item => f item.1) = d.items.map f := by
    rw [← pairs_map_fst h.lengths, List.map_map]
    rfl
  rw [hmap]
  exact (h.items.map f).sum_eq

theorem sum_replicaCount (h : DistributionOver keys d) (hnd : keys.Nodup) {st : Proxy}
    (halpha : st.alpha = 1 / keys.length) :
    st.newRealReplicas d < 2 * d.items.length := by
  have hlt := (h.callerArguments hnd halpha).sum_replicaCount.2
  have hmap : d.pairs.map (fun item => replicaCount st.alpha item.2)
      = d.probabilities.map (replicaCount st.alpha) := by
    rw [← List.map_snd_zip h.lengths.ge, List.map_map]
    rfl
  rw [newRealReplicas, hmap]
  exact hlt

end DistributionOver

/-! ## One call -/

/-- Nothing is released only when no key shrinks, and then none grows. -/
theorem counts_of_released_nil {st : Proxy} {keys : List Str} {d : Distribution}
    (htotal : (keys.map st.replicas).sum + st.dummyKeys = 2 * keys.length)
    (hd : DistributionOver keys d) (hfewer : st.newRealReplicas d < 2 * d.items.length)
    (hnil : st.released d = []) :
    ∀ item ∈ d.pairs, replicaCount st.alpha item.2 = st.replicas item.1 := by
  rw [released, List.append_eq_nil_iff, releasedBy, List.flatMap_eq_nil_iff] at hnil
  have hle : ∀ item ∈ d.pairs, st.replicas item.1 ≤ replicaCount st.alpha item.2 := by
    intro item hitem
    have := congrArg List.length (hnil.1 item hitem)
    rw [length_namesBetween, List.length_nil] at this
    omega
  have hdummy : st.dummyKeys ≤ st.newDummyKeys d := by
    have := congrArg List.length hnil.2
    rw [length_namesBetween, List.length_nil] at this
    omega
  -- the new counts sum to no more than the old ones
  have hsum : st.newRealReplicas d ≤ (d.pairs.map fun item => st.replicas item.1).sum := by
    rw [hd.sum_keys]
    rw [newDummyKeys, hd.length_eq] at hdummy
    rw [hd.length_eq] at hfewer
    omega
  intro item hitem
  by_contra hne
  have hlt : st.replicas item.1 < replicaCount st.alpha item.2 := by
    have := hle item hitem
    omega
  exact absurd (List.sum_lt_sum _ _ hle ⟨item, hitem, hlt⟩) (not_lt.mpr hsum)

/-- What `stoi` reads back from a label is smaller than the label. -/
theorem stoi_assignInt_lt {l : Nat} {z : Int} (h : stoi (assignInt l) = .ok z) : z.toNat < l := by
  rw [stoi_assignInt] at h
  split at h
  · rename_i hc
    cases h
    have := Nat.mod_le l 256
    omega
  · cases h

/-- **The largest released label is lost**: a call that has every label still
in use has released nothing. -/
theorem released_nil {st st' : Proxy} {keys : List Str} {d : Distribution}
    (h : st.Bijective keys) (hu : Updated st d st')
    (hused : ∀ x l, st.replicaToLabel.lookup x = some l →
      ∃ y, st'.replicaToLabel.lookup y = some l) :
    st.released d = [] := by
  by_contra hne
  obtain ⟨labels, hlen, hfrom, hto⟩ := hu.labels
  have hlabels : labels ≠ [] := by
    rintro rfl
    exact hne (List.length_eq_zero_iff.mp hlen.symm)
  obtain ⟨top, htop, hmax⟩ : ∃ top ∈ labels, ∀ l ∈ labels, l ≤ top :=
    ⟨labels.max hlabels, List.max_mem hlabels, fun l hl => List.le_max_of_mem hl⟩
  obtain ⟨y, hy, hytop⟩ := hfrom top htop
  obtain ⟨x, hx⟩ := hused y top hytop
  rcases hto x with hkept | ⟨-, l, hl, z, hz, hxz⟩
  · -- a kept label belongs to a replica that was not released
    rw [hx] at hkept
    split at hkept
    · cases hkept
    · rename_i hnot
      exact hnot (h.lookup_inj hytop hkept.symm ▸ hy)
  · -- a label handed out is smaller than the one released for it
    rw [hx, Option.some.injEq] at hxz
    have := stoi_assignInt_lt hz
    have := hmax l hl
    omega

/-- A call that returned and kept every count has moved nothing. -/
theorem Updated.movesNothing {st st' : Proxy} {d : Distribution} (hu : Updated st d st')
    (hcounts : ∀ item ∈ d.pairs, replicaCount st.alpha item.2 = st.replicas item.1) :
    st.MovesNothing d ∧ (∀ key, st'.replicas key = st.replicas key) ∧
      st'.missingNewReplicas = st.missingNewReplicas := by
  have hmissing := hu.missing fun item hitem => (hcounts item hitem).le
  have hreplicas : ∀ key, st'.replicas key = st.replicas key := by
    intro key
    by_cases hk : key ∈ d.pairs.map Prod.fst
    · obtain ⟨item, hitem, rfl⟩ := List.mem_map.mp hk
      rw [hu.counts item hitem, hcounts item hitem]
    · exact hu.others key hk
  refine ⟨⟨hcounts, fun key entry he => ?_⟩, hreplicas, hmissing⟩
  rw [← hmissing] at he
  rw [hu.sizes key entry he, hreplicas]

/-- A call that moves nothing completes and changes neither a label nor a
replica count. -/
theorem MovesNothing.updateDistribution {st : Proxy} {keys : List Str} {d : Distribution}
    (h : st.MovesNothing d) (htotal : (keys.map st.replicas).sum + st.dummyKeys = 2 * keys.length)
    (hnd : keys.Nodup) (halpha : st.alpha = 1 / keys.length) (hd : DistributionOver keys d) :
    ∃ st', st.updateDistribution d = .ok st' ∧ st'.replicaToLabel = st.replicaToLabel ∧
      (∀ key, st'.replicas key = st.replicas key) ∧ st'.dummyKeys = st.dummyKeys ∧
      st'.missingNewReplicas = st.missingNewReplicas ∧ KeptFields st st' := by
  have hpairs := hd.pairs_nodup hnd
  have hfewer := hd.sum_replicaCount hnd halpha
  have hsum : st.newRealReplicas d = (keys.map st.replicas).sum := by
    rw [← hd.sum_keys, newRealReplicas]
    exact congrArg List.sum (List.map_congr_left h.counts)
  have hdummy : st.newDummyKeys d = st.dummyKeys := by
    rw [newDummyKeys, hd.length_eq, hsum]
    omega
  have hpositive : ∀ item ∈ d.pairs, 0 < replicaCount st.alpha item.2 := fun item hitem =>
    (hd.callerArguments hnd halpha).one_le_replicaCount (List.of_mem_zip hitem).2
  obtain ⟨st', hst'⟩ := updateDistribution_total hpairs
    (fun item hitem => ⟨hpositive item hitem, h.counts item hitem⟩) hfewer hdummy h.sizes
  have hu := updateDistribution_spec hpairs hst'
  obtain ⟨hrel, hneed⟩ := releasedBy_unchanged h.counts
  have hreleased : st.released d = [] := by
    simp [released, hrel, hdummy, namesBetween]
  have hneeded : st.needed d = [] := by
    simp [needed, hneed, hdummy]
  obtain ⟨-, hreplicas, hmissing⟩ := hu.movesNothing h.counts
  refine ⟨st', hst', ?_, hreplicas, hu.dummyKeys.trans hdummy, hmissing, hu.kept⟩
  obtain ⟨labels, -, -, hto⟩ := hu.labels
  apply Finmap.ext_lookup
  intro x
  rcases hto x with hx | ⟨⟨need, hmem, -⟩, -⟩
  · rw [hx, hreleased]
    simp
  · rw [hneeded] at hmem
    cases hmem

/-- A proxy with the same labels, names and counts is as bijective. -/
theorem Bijective.congr {st st' : Proxy} {keys : List Str} (h : st.Bijective keys)
    (hlabels : st'.replicaToLabel = st.replicaToLabel)
    (hcounts : ∀ key, st'.replicas key = st.replicas key) (hdummy : st'.dummyKeys = st.dummyKeys)
    (hkey : st'.dummyKey = st.dummyKey) : st'.Bijective keys := by
  have hlive : st'.liveNames keys = st.liveNames keys := by
    simp only [liveNames, hdummy, hkey, hcounts]
  exact ⟨by rw [hlive]; exact h.distinctNames, by rw [hlive, hlabels]; exact h.domain,
    by rw [hlive, hlabels]; exact h.bijection⟩

/-! ## After `create_replicas` -/

/-- Distinct names numbered from zero on: each has its position. -/
theorem lookup_numbered {names : List Str} (hnd : names.Nodup) {j : Nat} {name : Str}
    (h : names[j]? = some name) : (insertNames ∅ 0 names).lookup name = some j := by
  have hmem : name ∈ insertNames ∅ 0 names := mem_insertNames (.inr (List.mem_of_getElem? h))
  obtain ⟨n, hn⟩ := Finmap.mem_iff.mp hmem
  rcases lookup_insertNames hn with hold | ⟨i, rfl, hi⟩
  · simp at hold
  · have hlt : i < names.length := by
      by_contra hc
      rw [List.getElem?_eq_none (by omega)] at hi
      cases hi
    have : i = j := (List.getElem?_inj hlt hnd).mp (hi.trans h.symm)
    rw [hn, this, Nat.zero_add]

/-- The names numbered are the names there are. -/
theorem mem_numbered {names : List Str} {name : Str} :
    name ∈ insertNames ∅ 0 names ↔ name ∈ names := by
  constructor
  · intro h
    obtain ⟨n, hn⟩ := Finmap.mem_iff.mp h
    rcases lookup_insertNames hn with hold | ⟨j, -, hj⟩
    · simp at hold
    · exact List.mem_of_getElem? hj
  · intro h
    exact mem_insertNames (.inr h)

/-- Live replicas numbered in order are labelled bijectively. -/
theorem bijective_of_numbered {st : Proxy} {keys : List Str}
    (h : st.replicaToLabel = insertNames ∅ 0 (st.liveNames keys)) (hnd : (st.liveNames keys).Nodup)
    (hlen : (st.liveNames keys).length = 2 * keys.length) : st.Bijective keys := by
  have hat : ∀ j name, (st.liveNames keys)[j]? = some name →
      UnorderedMap.at_ st.replicaToLabel name = j := by
    intro j name hj
    rw [h, UnorderedMap.at_, lookup_numbered hnd hj]
    rfl
  refine ⟨hnd, fun name => ?_, fun name hm => ?_, ?_, fun l hl => ?_⟩
  · rw [h]
    exact mem_numbered
  · obtain ⟨j, hj⟩ := List.mem_iff_getElem?.mp hm
    obtain ⟨hlt, -⟩ := List.getElem?_eq_some_iff.mp hj
    rw [hat j name hj, Set.mem_Iio]
    omega
  · intro x hx y hy hxy
    obtain ⟨i, hi⟩ := List.mem_iff_getElem?.mp hx
    obtain ⟨j, hj⟩ := List.mem_iff_getElem?.mp hy
    rw [hat i x hi, hat j y hj] at hxy
    rw [hxy, hj] at hi
    exact (Option.some.inj hi).symm
  · rw [Set.mem_Iio, ← hlen] at hl
    have hl' := List.getElem?_eq_getElem hl
    exact ⟨_, List.mem_of_getElem? hl', hat l _ hl'⟩

theorem blockNames_keyBlocks (alpha : ℚ) (values : Nat → Str) (items : List (Str × ℚ))
    (index : Nat) : blockNames (keyBlocks alpha values index items)
      = items.flatMap fun item => replicaNames item.1 (replicaCount alpha item.2) := by
  induction items generalizing index with
  | nil => rfl
  | cons item items ih =>
      rw [List.flatMap_cons, ← ih (index + 1)]
      rfl

section Created

variable {st₁ st : Proxy} {values : Nat → Str} {delta : ℚ} (hc : Created st₁ values st)
  (h : CallerArguments st₁.realDistribution st₁.alpha delta)
  (hdummy : st₁.dummyKey ∉ st₁.realDistribution.items)
include hc h hdummy

/-- The live replicas of the real keys. -/
theorem Created.realNames : (st₁.realDistribution.items.flatMap fun key =>
      replicaNames key (st.replicas key))
    = st₁.realDistribution.pairs.flatMap fun item =>
        replicaNames item.1 (replicaCount st₁.alpha item.2) := by
  conv_lhs => rw [← pairs_map_fst h.lengths]
  rw [List.flatMap_map]
  refine List.flatMap_congr fun item hitem => ?_
  have hne : item.1 ≠ st₁.dummyKey := by
    intro heq
    exact hdummy (heq ▸ (List.of_mem_zip hitem).1)
  rw [(hc.counts_eq h).1 item.1 item.2 hitem hne]

/-- **`create_replicas`** numbers the live replicas in order. -/
theorem Created.replicaToLabel_eq (hfresh : st₁.Fresh) :
    st.replicaToLabel = insertNames ∅ 0 (st.liveNames st₁.realDistribution.items) := by
  obtain ⟨-, hd1, -⟩ := dummyCount_eq h values
  have hdk : st.dummyKey = st₁.dummyKey := by rw [hc.rest]
  have hdks : st.dummyKeys = st₁.dummyCount values := by rw [hc.rest]
  have hlive : st.liveNames st₁.realDistribution.items = blockNames (st₁.allBlocks values) := by
    rw [liveNames, hdk, hdks, hc.realNames h hdummy, allBlocks, blockNames_append,
      blockNames_keyBlocks, dummyBlocks, if_neg (by omega)]
    simp only [blockNames, List.flatMap_cons, List.flatMap_nil, List.append_nil]
  obtain ⟨cs, -, hlay⟩ := hc.layout
  rw [hlive, hlay.replicaToLabel]
  exact congrArg₂ (insertNames · · _) hfresh.labels hfresh.labelCount

/-- When their names differ, the labelling it leaves is a bijection. -/
theorem Created.bijective (hfresh : st₁.Fresh)
    (hnd : (st.liveNames st₁.realDistribution.items).Nodup) :
    st.Bijective st₁.realDistribution.items := by
  obtain ⟨htotal, -, -⟩ := dummyCount_eq h values
  have hdks : st.dummyKeys = st₁.dummyCount values := by rw [hc.rest]
  have hreal := hc.realNames h hdummy
  apply bijective_of_numbered (hc.replicaToLabel_eq h hdummy hfresh) hnd
  · have hsnd : st₁.realDistribution.pairs.map Prod.snd = st₁.realDistribution.probabilities :=
      List.map_snd_zip h.lengths.ge
    rw [liveNames, List.length_append, hreal, List.length_flatMap, replicaNames_length, hdks,
      ← htotal, ← hsnd, List.map_map]
    congr 2
    exact List.map_congr_left fun item _ => replicaNames_length ..

end Created

/-- The labelling `init` leaves is a bijection. -/
theorem init_bijective {st₀ st : Proxy} {dist : Distribution} {alpha delta : ℚ}
    {values : Nat → Str} (hfresh : st₀.Fresh) (h : CallerArguments dist alpha delta)
    (hdummy : st₀.dummyKey ∉ dist.items)
    (henc : ∀ i, ∃ c, st₀.encryptionEngine.encrypt (values i) = .ok c)
    (hinit : st₀.init dist alpha delta values = .ok st) (hnd : (st.liveNames dist.items).Nodup) :
    st.Bijective dist.items := by
  have hc := created_of_init henc hinit
  exact hc.bijective h hdummy (hfresh.takeArguments _ _ _) hnd

/-! ## A sequence of calls -/

/-- **Label conservation**: from a bijection, every call of a sequence
completes and leaves a bijection exactly when no call of it moves a replica. -/
theorem conserved_iff {st : Proxy} {keys : List Str} (hnd : keys.Nodup) (h : st.Bijective keys)
    (halpha : st.alpha = 1 / keys.length) (ds : List Distribution)
    (hds : ∀ d ∈ ds, DistributionOver keys d) :
    Conserved keys st ds ↔ ∀ d ∈ ds, st.MovesNothing d := by
  induction ds generalizing st with
  | nil => simp [Conserved]
  | cons d ds ih =>
      have hd := hds d (by simp)
      have hrest : ∀ d ∈ ds, DistributionOver keys d := fun x hx => hds x (by simp [hx])
      have htotal := h.total
      -- after a call that moves nothing, the other calls are judged as before it
      have hafter : ∀ st', st'.Bijective keys →
          (∀ key, st'.replicas key = st.replicas key) →
          st'.missingNewReplicas = st.missingNewReplicas → KeptFields st st' →
          (Conserved keys st' ds ↔ ∀ d ∈ ds, st.MovesNothing d) := by
        intro st' hst' hcounts hmissing hkept
        rw [ih hst' (hkept.alpha.trans halpha) hrest]
        have hsame : ∀ d, st'.MovesNothing d ↔ st.MovesNothing d := by
          intro d
          constructor
          · rintro ⟨hc, hs⟩
            exact ⟨by simpa only [hkept.alpha, hcounts] using hc,
              by simpa only [hmissing, hcounts] using hs⟩
          · rintro ⟨hc, hs⟩
            exact ⟨by simpa only [hkept.alpha, hcounts] using hc,
              by simpa only [hmissing, hcounts] using hs⟩
        simp only [hsame]
      constructor
      · rintro ⟨st', hst', hbij, hcons⟩
        have hu := updateDistribution_spec (hd.pairs_nodup hnd) hst'
        have hnil : st.released d = [] :=
          released_nil h hu fun x l hx => hbij.onto (h.label_lt hx)
        obtain ⟨hmoves, hreplicas, hmissing⟩ :=
          hu.movesNothing (counts_of_released_nil htotal hd hu.fewer hnil)
        have hds' := (hafter st' hbij hreplicas hmissing hu.kept).mp hcons
        intro x hx
        rcases List.mem_cons.mp hx with rfl | hx
        · exact hmoves
        · exact hds' x hx
      · intro hall
        obtain ⟨st', hst', hlabels, hcounts, hdummy, hmissing, hkept⟩ :=
          (hall d (by simp)).updateDistribution htotal hnd halpha hd
        have hbij := h.congr hlabels hcounts hdummy hkept.dummyKey
        exact ⟨st', hst', hbij, (hafter st' hbij hcounts hmissing hkept).mpr
          fun x hx => hall x (by simp [hx])⟩

/-- Two keys, equally likely. -/
def evenKeys : Distribution := { items := [['j'], ['k']], probabilities := [1 / 2, 1 / 2] }

/-- The same keys, one three times as likely as the other. -/
def unevenKeys : Distribution := { items := [['j'], ['k']], probabilities := [3 / 4, 1 / 4] }

/-- What `init` makes of two equally likely keys: one replica each, and two
dummies. -/
def twoKeys : Proxy :=
  match blank.init evenKeys (1 / 2) (1 / 2) firstStrings with
  | .ok st => st
  | .error _ => blank

theorem evenKeys_over : DistributionOver evenKeys.items evenKeys where
  items := .refl _
  lengths := rfl
  positive := by simp [evenKeys]
  normalised := by norm_num [evenKeys]

theorem unevenKeys_over : DistributionOver evenKeys.items unevenKeys where
  items := .refl _
  lengths := rfl
  positive := by simp [unevenKeys]
  normalised := by norm_num [unevenKeys]

theorem evenKeys_arguments : CallerArguments evenKeys (1 / 2) (1 / 2) where
  lengths := rfl
  keys := by decide
  positive := evenKeys_over.positive
  normalised := evenKeys_over.normalised
  alphaBound := by norm_num [evenKeys]
  deltaEq := by norm_num [evenKeys]

theorem twoKeys_bijective : twoKeys.Bijective evenKeys.items := by
  have henc : ∀ i, ∃ c, blank.encryptionEngine.encrypt (firstStrings i) = .ok c := fun i =>
    (firstStrings_roundTrips i).encrypts
  obtain ⟨st, hst, -⟩ := init_created evenKeys (1 / 2) (1 / 2) henc
  have htwo : twoKeys = st := by rw [twoKeys, hst]
  have hnd : (twoKeys.liveNames evenKeys.items).Nodup := by decide +kernel
  rw [htwo] at hnd ⊢
  exact init_bijective ⟨rfl, rfl, rfl, rfl⟩ evenKeys_arguments (by decide)
    (fun i => (firstStrings_roundTrips i).encrypts) hst hnd

/-- **The failing call**: the second dummy's label is 3, and `stoi` does not
read the character with that number. -/
theorem labels_not_conserved :
    twoKeys.Bijective evenKeys.items ∧ twoKeys.alpha = 1 / (evenKeys.items.length : ℚ) ∧
      DistributionOver evenKeys.items unevenKeys ∧
      twoKeys.updateDistribution unevenKeys = .error .invalidArgument ∧
      ¬ Conserved evenKeys.items twoKeys [unevenKeys] := by
  have hfails : twoKeys.updateDistribution unevenKeys = .error .invalidArgument :=
    eq_error_of_map (by decide +kernel)
  refine ⟨twoKeys_bijective, by decide +kernel, unevenKeys_over, hfails, ?_⟩
  rintro ⟨st', hst', -⟩
  rw [hfails] at hst'
  cases hst'

/-- Setting the same distribution again conserves the labels. -/
theorem conserved_iff_evenKeys :
    Conserved evenKeys.items twoKeys [evenKeys, evenKeys] ∧
      ∀ d ∈ [evenKeys, evenKeys], twoKeys.MovesNothing d := by
  have hmoves : ∀ d ∈ [evenKeys, evenKeys], twoKeys.MovesNothing d := by
    have hcounts : ∀ item ∈ evenKeys.pairs,
        replicaCount twoKeys.alpha item.2 = twoKeys.replicas item.1 := by decide +kernel
    have hmissing : twoKeys.missingNewReplicas = ∅ := by decide +kernel
    intro d hd
    have : d = evenKeys := by simpa using hd
    subst this
    exact ⟨hcounts, fun key entry he => by simp [hmissing] at he⟩
  exact ⟨(conserved_iff (by decide) twoKeys_bijective (by decide +kernel) [evenKeys, evenKeys]
    (by simpa using evenKeys_over)).mpr hmoves, hmoves⟩

end Proxy

end Pancake
