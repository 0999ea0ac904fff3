import Pancake.Proxy

/-!
# Changing the distribution

`update_distribution` gives the keys new replica counts. A key that shrinks
releases the labels of the replicas it loses, one that grows needs a label
for each new replica, the dummy key makes up for the difference, and
`perform_swapping` hands the released labels to the replicas that need one.
In between a label is a string of `unassigned_labels`: it is assigned to it
as a number and read back by `stoi`.

`Updated` is all that later proofs know of a call that returns.
-/

namespace Pancake

namespace Proxy

/-- `new_key_to_frequency_[key]`, as read. -/
def newFrequency (st : Proxy) (key : Str) : Int := UnorderedMap.at_ st.newKeyToFrequency key

/-! ## The functions -/

/-- The proxy with the two locals of `update_distribution` that swapping
passes around. -/
structure Swapping where
  proxy : Proxy
  unassignedLabels : List Str := []
  needsLabels : List (Str × Nat) := []

/-- One iteration of the releasing loop of `prepare_for_swapping`. The
label is an `int` assigned to a string. -/
def releaseReplica (key : Str) (s : Swapping) (i : Nat) : Except Fault Swapping := do
  let replica := replicaName key i
  assert (replica ∈ s.proxy.replicaToLabel)
  let label := assignInt (UnorderedMap.at_ s.proxy.replicaToLabel replica)
  .ok { s with
        proxy := { s.proxy with replicaToLabel := s.proxy.replicaToLabel.erase replica }
        unassignedLabels := s.unassignedLabels ++ [label] }

/-- `prepare_for_swapping` -/
def prepareForSwapping (s : Swapping) (key : Str) (rNew rOld : Nat) : Except Fault Swapping :=
  if rOld < rNew then
    let st := s.proxy
    .ok { s with
          needsLabels := s.needsLabels ++ (List.range' rOld (rNew - rOld)).map fun i => (key, i)
          proxy := if key ≠ st.dummyKey then
              { st with missingNewReplicas := st.missingNewReplicas.editBitVectorSize key rNew }
            else st }
  else if rNew < rOld then (List.range' rNew (rOld - rNew)).foldlM (releaseReplica key) s
  else .ok s

/-- One iteration of `perform_swapping`. A released label is one character
long, so `stoi` never makes it negative. -/
def assignLabel (st : Proxy) (pair : (Str × Nat) × Str) : Except Fault Proxy := do
  let label ← stoi pair.2
  .ok { st with replicaToLabel :=
    st.replicaToLabel.insert (replicaName pair.1.1 pair.1.2) label.toNat }

/-- `perform_swapping`, on as many labels as replicas. -/
def performSwapping (st : Proxy) (unassignedLabels : List Str) (needsLabels : List (Str × Nat)) :
    Except Fault Proxy :=
  (needsLabels.zip unassignedLabels).foldlM assignLabel st

/-- One entry of the locked table in `recompute_fake_distribution`, with the
`curr_max_real` so far. Both maps are read with `operator[]`. -/
def scanMissing (s : Except Fault (Proxy × ℚ)) (key : Str) (entry : Str × List Bool) :
    Except Fault (Proxy × ℚ) := do
  let (st, currMaxReal) ← s
  assert (entry.2.length = st.replicas key)
  let prob : ℚ := st.newFrequency key
  .ok ({ st with
         keyToNumberOfReplicas := UnorderedMap.touch st.keyToNumberOfReplicas key
         newKeyToFrequency := UnorderedMap.touch st.newKeyToFrequency key },
    max currMaxReal prob)

/-- The order the locked table is walked in does not matter. -/
theorem scanMissing_comm (s : Except Fault (Proxy × ℚ)) (k k' : Str) (e e' : Str × List Bool) :
    scanMissing (scanMissing s k e) k' e' = scanMissing (scanMissing s k' e') k e := by
  cases s with
  | error f => rfl
  | ok s =>
      obtain ⟨st, m⟩ := s
      by_cases h : e.2.length = st.replicas k <;> by_cases h' : e'.2.length = st.replicas k' <;>
        simp only [replicas] at h h' <;>
        simp [scanMissing, assert, replicas, newFrequency, h, h',
          UnorderedMap.touch_comm _ k k', max_right_comm]

/-- `recompute_fake_distribution` -/
def recomputeFakeDistribution (st : Proxy) (newDistribution : Distribution) :
    Except Fault Proxy := do
  let newKeys := newDistribution.items
  let n := newKeys.length
  let (st, currMaxReal) ← st.missingNewReplicas.foldl scanMissing
    (fun s _ _ _ _ => scanMissing_comm s _ _ _ _) (.ok (st, 1 / (n : ℚ)))
  let st := { st with pMax := currMaxReal }
  let fakeProbabilities := newDistribution.pairs.map fun item =>
    (st.replicas item.1 : ℚ) * st.pMax - item.2
  .ok { st with fakeDistribution :=
    { items := newKeys ++ [st.dummyKey]
      probabilities := fakeProbabilities ++ [st.dummyKeys * st.pMax] } }

/-- The locals of the loop of `update_distribution`. -/
structure UpdateLoop where
  swapping : Swapping
  newNumRealReplicas : Nat := 0

/-- One iteration of the loop of `update_distribution`. -/
def updateReplica (s : UpdateLoop) (item : Str × ℚ) : Except Fault UpdateLoop := do
  let (newKey, pi) := item
  let st := s.swapping.proxy
  let st := { st with newKeyToFrequency := st.newKeyToFrequency.insert newKey (truncate pi) }
  let rOld := st.replicas newKey
  let rNew := replicaCount st.alpha pi
  let st := { st with keyToNumberOfReplicas := st.keyToNumberOfReplicas.insert newKey rNew }
  assert (0 < rNew)
  let swapping ← prepareForSwapping { s.swapping with proxy := st } newKey rNew rOld
  .ok { swapping, newNumRealReplicas := s.newNumRealReplicas + rNew }

/-- `update_distribution` -/
def updateDistribution (st : Proxy) (newDistribution : Distribution) : Except Fault Proxy := do
  let n := newDistribution.items.length
  let s ← newDistribution.pairs.foldlM updateReplica { swapping := { proxy := st } }
  assert (s.newNumRealReplicas < 2 * n)
  let st := s.swapping.proxy
  let rOld := st.dummyKeys
  let st := { st with dummyKeys := 2 * n - s.newNumRealReplicas }
  let s ← prepareForSwapping { s.swapping with proxy := st } st.dummyKey st.dummyKeys rOld
  let st ← s.proxy.recomputeFakeDistribution newDistribution
  let st := { st with realDistribution := newDistribution }
  let st := { st with keyToFrequency := st.newKeyToFrequency }
  assert (s.needsLabels.length = s.unassignedLabels.length)
  st.performSwapping s.unassignedLabels s.needsLabels

/-! ## What swapping does to the labels -/

/-- The names of the replicas `a, …, b - 1` of `key`. -/
def namesBetween (key : Str) (a b : Nat) : List Str := (List.range' a (b - a)).map (replicaName key)

theorem mem_namesBetween {key name : Str} {a b : Nat} :
    name ∈ namesBetween key a b ↔ ∃ i, a ≤ i ∧ i < b ∧ replicaName key i = name := by
  simp only [namesBetween, List.mem_map, List.mem_range'_1]
  constructor
  · rintro ⟨i, hi, rfl⟩
    exact ⟨i, by omega, by omega, rfl⟩
  · rintro ⟨i, ha, hb, rfl⟩
    exact ⟨i, by omega, rfl⟩

@[simp] theorem length_namesBetween (key : Str) (a b : Nat) :
    (namesBetween key a b).length = b - a := by
  simp [namesBetween]

/-- The fields no part of `update_distribution` writes. -/
structure KeptFields (st st' : Proxy) : Prop where
  securityBatchSize : st'.securityBatchSize = st.securityBatchSize
  storageBatchSize : st'.storageBatchSize = st.storageBatchSize
  storage : st'.storage = st.storage
  updateCache : st'.updateCache = st.updateCache
  labelCount : st'.labelCount = st.labelCount
  alpha : st'.alpha = st.alpha
  delta : st'.delta = st.delta
  dummyKey : st'.dummyKey = st.dummyKey
  encryptionEngine : st'.encryptionEngine = st.encryptionEngine

theorem KeptFields.refl (st : Proxy) : KeptFields st st := ⟨rfl, rfl, rfl, rfl, rfl, rfl, rfl, rfl, rfl⟩

theorem KeptFields.trans {st st' st'' : Proxy} (h : KeptFields st st') (h' : KeptFields st' st'') : KeptFields st st'' where
  securityBatchSize := h'.securityBatchSize.trans h.securityBatchSize
  storageBatchSize := h'.storageBatchSize.trans h.storageBatchSize
  storage := h'.storage.trans h.storage
  updateCache := h'.updateCache.trans h.updateCache
  labelCount := h'.labelCount.trans h.labelCount
  alpha := h'.alpha.trans h.alpha
  delta := h'.delta.trans h.delta
  dummyKey := h'.dummyKey.trans h.dummyKey
  encryptionEngine := h'.encryptionEngine.trans h.encryptionEngine

/-- From `s` to `s'` the labels of `released` were taken away and put on the
list as characters, and `needed` was put on the other list. -/
structure Prepared (s s' : Swapping) (released : List Str) (needed : List (Str × Nat)) : Prop where
  lookup : ∀ x, s'.proxy.replicaToLabel.lookup x =
    if x ∈ released then none else s.proxy.replicaToLabel.lookup x
  labels : ∃ labels : List Nat, labels.length = released.length ∧
    s'.unassignedLabels = s.unassignedLabels ++ labels.map assignInt ∧
    ∀ l ∈ labels, ∃ x ∈ released, s.proxy.replicaToLabel.lookup x = some l
  needs : s'.needsLabels = s.needsLabels ++ needed

theorem Prepared.refl (s : Swapping) : Prepared s s [] [] :=
  ⟨fun x => by simp, ⟨[], rfl, by simp, by simp⟩, by simp⟩

theorem Prepared.trans {s s' s'' : Swapping} {r r' : List Str} {m m' : List (Str × Nat)}
    (h : Prepared s s' r m) (h' : Prepared s' s'' r' m') :
    Prepared s s'' (r ++ r') (m ++ m') := by
  refine ⟨fun x => ?_, ?_, by rw [h'.needs, h.needs, List.append_assoc]⟩
  · rw [h'.lookup, h.lookup]
    by_cases hr : x ∈ r <;> by_cases hr' : x ∈ r' <;> simp [hr, hr']
  · obtain ⟨ls, hlen, hun, hls⟩ := h.labels
    obtain ⟨ls', hlen', hun', hls'⟩ := h'.labels
    refine ⟨ls ++ ls', by simp [hlen, hlen'], by rw [hun', hun, List.map_append,
      List.append_assoc], fun l hl => ?_⟩
    rcases List.mem_append.mp hl with hl | hl
    · obtain ⟨x, hx, hxl⟩ := hls l hl
      exact ⟨x, by simp [hx], hxl⟩
    · -- a label released later was there from the start
      obtain ⟨x, hx, hxl⟩ := hls' l hl
      rw [h.lookup] at hxl
      split at hxl
      · cases hxl
      · exact ⟨x, by simp [hx], hxl⟩

/-- One released replica. -/
theorem releaseReplica_spec {key : Str} {s s' : Swapping} {i : Nat}
    (h : releaseReplica key s i = .ok s') :
    Prepared s s' [replicaName key i] [] ∧
      s'.proxy = { s.proxy with replicaToLabel := s'.proxy.replicaToLabel } := by
  simp only [releaseReplica, bind_eq_ok, assert_eq_ok] at h
  obtain ⟨-, hmem, h⟩ := h
  cases h
  obtain ⟨l, hl⟩ := Finmap.mem_iff.mp hmem
  refine ⟨⟨fun x => ?_, ⟨[l], rfl, ?_, ?_⟩, by simp⟩, rfl⟩
  · by_cases hx : x = replicaName key i
    · subst hx
      simp
    · simp [hx]
  · simp [UnorderedMap.at_, hl]
  · simp [hl]

theorem releaseReplicas_spec {key : Str} {is : List Nat} {s s' : Swapping}
    (h : is.foldlM (releaseReplica key) s = .ok s') :
    Prepared s s' (is.map (replicaName key)) [] ∧
      s'.proxy = { s.proxy with replicaToLabel := s'.proxy.replicaToLabel } := by
  induction is generalizing s with
  | nil =>
      cases h
      exact ⟨.refl _, rfl⟩
  | cons i is ih =>
      rw [List.foldlM_cons, bind_eq_ok] at h
      obtain ⟨s₁, h₁, h⟩ := h
      obtain ⟨hp₁, hf₁⟩ := releaseReplica_spec h₁
      obtain ⟨hp, hf⟩ := ih h
      exact ⟨hp₁.trans hp, by rw [hf, hf₁]⟩

/-- **`prepare_for_swapping`**: a key that shrinks releases its last
replicas, one that grows asks for new ones; only that touches the missing
replicas. -/
theorem prepareForSwapping_spec {s s' : Swapping} {key : Str} {rNew rOld : Nat}
    (h : prepareForSwapping s key rNew rOld = .ok s') :
    Prepared s s' (namesBetween key rNew rOld)
        ((List.range' rOld (rNew - rOld)).map fun i => (key, i)) ∧
      s'.proxy = { s.proxy with
        replicaToLabel := s'.proxy.replicaToLabel
        missingNewReplicas := s'.proxy.missingNewReplicas } ∧
      (rNew ≤ rOld ∨ key = s.proxy.dummyKey →
        s'.proxy.missingNewReplicas = s.proxy.missingNewReplicas) := by
  unfold prepareForSwapping at h
  split at h
  · rename_i hlt
    cases h
    have hnone : namesBetween key rNew rOld = [] := by
      simp [namesBetween, Nat.sub_eq_zero_of_le hlt.le]
    rw [hnone]
    refine ⟨⟨fun x => ?_, ⟨[], rfl, by simp, by simp⟩, rfl⟩, ?_, ?_⟩
    · dsimp only
      split <;> simp
    · dsimp only
      split <;> rfl
    · rintro (hle | rfl)
      · omega
      · simp
  · rename_i hge
    have hneed : List.range' rOld (rNew - rOld) = [] := by
      simp [Nat.sub_eq_zero_of_le (not_lt.mp hge)]
    rw [hneed, List.map_nil]
    split at h
    · obtain ⟨hp, hf⟩ := releaseReplicas_spec h
      have hm : s'.proxy.missingNewReplicas = s.proxy.missingNewReplicas := by rw [hf]
      exact ⟨hp, by rw [hm]; exact hf, fun _ => hm⟩
    · cases h
      have hnone : namesBetween key rNew rOld = [] := by
        simp [namesBetween, Nat.sub_eq_zero_of_le (show rOld ≤ rNew by omega)]
      rw [hnone]
      exact ⟨.refl s, rfl, fun _ => rfl⟩

/-- A key that grows, the dummy key excepted, gets its new number of bits. -/
theorem prepareForSwapping_missing {s s' : Swapping} {key : Str} {rNew rOld : Nat}
    (h : prepareForSwapping s key rNew rOld = .ok s') :
    s'.proxy.missingNewReplicas = if rOld < rNew ∧ key ≠ s.proxy.dummyKey then
      s.proxy.missingNewReplicas.editBitVectorSize key rNew else s.proxy.missingNewReplicas := by
  by_cases hlt : rOld < rNew
  · rw [prepareForSwapping, if_pos hlt] at h
    cases h
    by_cases hkey : key = s.proxy.dummyKey
    · simp [hkey]
    · simp [hlt, hkey]
  · rw [if_neg fun hc => hlt hc.1]
    exact (prepareForSwapping_spec h).2.2 (.inl (not_lt.mp hlt))

/-- **`perform_swapping`** writes only the replicas that need a label, each
with what `stoi` makes of a released one. -/
theorem performSwapping_spec {st st' : Proxy} {unassigned : List Str} {needs : List (Str × Nat)}
    (h : st.performSwapping unassigned needs = .ok st') :
    st' = { st with replicaToLabel := st'.replicaToLabel } ∧
      ∀ x, st'.replicaToLabel.lookup x = st.replicaToLabel.lookup x ∨
        (∃ need ∈ needs, replicaName need.1 need.2 = x) ∧
          ∃ u ∈ unassigned, ∃ z, stoi u = .ok z ∧
            st'.replicaToLabel.lookup x = some z.toNat := by
  unfold performSwapping at h
  induction needs generalizing st unassigned with
  | nil =>
      cases h
      exact ⟨rfl, fun x => .inl rfl⟩
  | cons need needs ih =>
      cases unassigned with
      | nil =>
          cases h
          exact ⟨rfl, fun x => .inl rfl⟩
      | cons u unassigned =>
          rw [List.zip_cons_cons, List.foldlM_cons, bind_eq_ok] at h
          obtain ⟨st₁, h₁, h⟩ := h
          simp only [assignLabel, bind_eq_ok] at h₁
          obtain ⟨z, hz, h₁⟩ := h₁
          cases h₁
          obtain ⟨hf, hl⟩ := ih h
          refine ⟨hf, fun x => ?_⟩
          rcases hl x with hx | ⟨⟨need', hmem, hn⟩, u', hu', hrest⟩
          · by_cases hname : x = replicaName need.1 need.2
            · subst hname
              rw [Finmap.lookup_insert] at hx
              exact .inr ⟨⟨need, by simp, rfl⟩, u, by simp, z, hz, hx⟩
            · rw [Finmap.lookup_insert_of_ne _ hname] at hx
              exact .inl hx
          · exact .inr ⟨⟨need', by simp [hmem], hn⟩, u', by simp [hu'], hrest⟩

/-- With a label for each, all of them are written. -/
theorem mem_performSwapping {st st' : Proxy} {unassigned : List Str} {needs : List (Str × Nat)}
    (hlen : needs.length = unassigned.length) (h : st.performSwapping unassigned needs = .ok st')
    (x : Str) : x ∈ st'.replicaToLabel ↔
      x ∈ st.replicaToLabel ∨ ∃ need ∈ needs, replicaName need.1 need.2 = x := by
  unfold performSwapping at h
  induction needs generalizing st unassigned with
  | nil =>
      cases h
      simp
  | cons need needs ih =>
      cases unassigned with
      | nil => simp at hlen
      | cons u unassigned =>
          rw [List.zip_cons_cons, List.foldlM_cons, bind_eq_ok] at h
          obtain ⟨st₁, h₁, h⟩ := h
          simp only [assignLabel, bind_eq_ok] at h₁
          obtain ⟨z, -, h₁⟩ := h₁
          cases h₁
          rw [ih (by simpa using hlen) h, Finmap.mem_insert]
          constructor
          · rintro ((rfl | hx) | ⟨need', hmem, hx⟩)
            · exact .inr ⟨need, by simp, rfl⟩
            · exact .inl hx
            · exact .inr ⟨need', by simp [hmem], hx⟩
          · rintro (hx | ⟨need', hmem, hx⟩)
            · exact .inl (.inr hx)
            · rcases List.mem_cons.mp hmem with rfl | hmem
              · exact .inl (.inl hx.symm)
              · exact .inr ⟨need', hmem, hx⟩

/-! ## The loop over the keys -/

/-- The replicas the keys of `items` lose. -/
def releasedBy (st : Proxy) (items : List (Str × ℚ)) : List Str :=
  items.flatMap fun item =>
    namesBetween item.1 (replicaCount st.alpha item.2) (st.replicas item.1)

/-- The replicas they gain. -/
def neededBy (st : Proxy) (items : List (Str × ℚ)) : List (Str × Nat) :=
  items.flatMap fun item =>
    (List.range' (st.replicas item.1) (replicaCount st.alpha item.2 - st.replicas item.1)).map
      fun i => (item.1, i)

/-- What the loop over `items` does to the proxy and the swapping lists. -/
structure Looped (s s' : UpdateLoop) (items : List (Str × ℚ)) : Prop where
  prepared : Prepared s.swapping s'.swapping (releasedBy s.swapping.proxy items)
    (neededBy s.swapping.proxy items)
  total : s'.newNumRealReplicas = s.newNumRealReplicas +
    (items.map fun item => replicaCount s.swapping.proxy.alpha item.2).sum
  counts : ∀ item ∈ items,
    s'.swapping.proxy.replicas item.1 = replicaCount s.swapping.proxy.alpha item.2
  others : ∀ k, k ∉ items.map Prod.fst →
    s'.swapping.proxy.replicas k = s.swapping.proxy.replicas k
  missing : (∀ item ∈ items,
      replicaCount s.swapping.proxy.alpha item.2 ≤ s.swapping.proxy.replicas item.1) →
    s'.swapping.proxy.missingNewReplicas = s.swapping.proxy.missingNewReplicas
  dummyKeys : s'.swapping.proxy.dummyKeys = s.swapping.proxy.dummyKeys
  kept : KeptFields s.swapping.proxy s'.swapping.proxy

theorem updateReplica_spec {s s' : UpdateLoop} {item : Str × ℚ}
    (h : updateReplica s item = .ok s') : Looped s s' [item] := by
  obtain ⟨key, p⟩ := item
  simp only [updateReplica, bind_eq_ok, assert_eq_ok] at h
  obtain ⟨-, -, swapping, hprep, h⟩ := h
  cases h
  obtain ⟨hp, hf, hm⟩ := prepareForSwapping_spec hprep
  have hcounts : swapping.proxy.keyToNumberOfReplicas =
      s.swapping.proxy.keyToNumberOfReplicas.insert key
        (replicaCount s.swapping.proxy.alpha p) := by
    rw [hf]
  refine ⟨?_, by simp, ?_, fun k hk => ?_, fun hle => hm (.inl (hle (key, p) (by simp))),
    by rw [hf], ⟨?_, ?_, ?_, ?_, ?_, ?_, ?_, ?_, ?_⟩⟩
  · simpa [releasedBy, neededBy, replicas] using ⟨hp.lookup, hp.labels, hp.needs⟩
  · intro item hitem
    rw [List.mem_singleton] at hitem
    subst hitem
    simp [replicas, hcounts]
  · simp only [List.map_cons, List.map_nil, List.mem_singleton] at hk
    simp [replicas, hcounts, UnorderedMap.at_insert_of_ne _ _ hk]
  all_goals rw [hf]

theorem Looped.trans {s s' s'' : UpdateLoop} {item : Str × ℚ} {items : List (Str × ℚ)}
    (h : Looped s s' [item]) (h' : Looped s' s'' items) (hnd : item.1 ∉ items.map Prod.fst) :
    Looped s s'' (item :: items) := by
  have hne : ∀ x ∈ items, x.1 ∉ [item].map Prod.fst := by
    intro x hx hc
    simp only [List.map_cons, List.map_nil, List.mem_singleton] at hc
    exact hnd (hc ▸ List.mem_map_of_mem hx)
  have halpha := h.kept.alpha
  have hreleased : releasedBy s'.swapping.proxy items = releasedBy s.swapping.proxy items := by
    refine List.flatMap_congr fun x hx => ?_
    rw [halpha, h.others _ (hne x hx)]
  have hneeded : neededBy s'.swapping.proxy items = neededBy s.swapping.proxy items := by
    refine List.flatMap_congr fun x hx => ?_
    rw [halpha, h.others _ (hne x hx)]
  refine ⟨?_, ?_, fun x hx => ?_, fun k hk => ?_, fun hle => ?_, h'.dummyKeys.trans h.dummyKeys,
    h.kept.trans h'.kept⟩
  · have hp := h.prepared.trans h'.prepared
    rw [hreleased, hneeded] at hp
    simpa [releasedBy, neededBy] using hp
  · rw [h'.total, h.total, halpha]
    simp [Nat.add_assoc]
  · rcases List.mem_cons.mp hx with rfl | hx
    · rw [h'.others _ hnd, h.counts _ (by simp)]
    · rw [h'.counts _ hx, halpha]
  · simp only [List.map_cons, List.mem_cons, not_or] at hk
    rw [h'.others k hk.2, h.others k (by simpa using hk.1)]
  · rw [h'.missing fun x hx => ?_, h.missing fun x hx => hle x (by simp_all)]
    rw [halpha, h.others _ (hne x hx)]
    exact hle x (by simp [hx])

/-- **The loop**, over pairwise distinct keys. -/
theorem updateReplicas_spec {items : List (Str × ℚ)} (hnd : (items.map Prod.fst).Nodup)
    {s s' : UpdateLoop} (h : items.foldlM updateReplica s = .ok s') : Looped s s' items := by
  induction items generalizing s with
  | nil =>
      cases h
      exact ⟨.refl _, by simp, by simp, fun _ _ => rfl, fun _ => rfl, rfl, .refl _⟩
  | cons item items ih =>
      rw [List.foldlM_cons, bind_eq_ok] at h
      obtain ⟨s₁, h₁, h⟩ := h
      rw [List.map_cons, List.nodup_cons] at hnd
      exact (updateReplica_spec h₁).trans (ih hnd.2 h) hnd.1

/-- The missing replicas after the loop: each key of `items` that grew, the
dummy key excepted, has its new number of bits. -/
theorem updateReplicas_missing {items : List (Str × ℚ)} (hnd : (items.map Prod.fst).Nodup)
    {s s' : UpdateLoop} (h : items.foldlM updateReplica s = .ok s') :
    (∀ item ∈ items, s'.swapping.proxy.missingNewReplicas.lookup item.1
      = if s.swapping.proxy.replicas item.1 < replicaCount s.swapping.proxy.alpha item.2 ∧
          item.1 ≠ s.swapping.proxy.dummyKey then
        (s.swapping.proxy.missingNewReplicas.editBitVectorSize item.1
          (replicaCount s.swapping.proxy.alpha item.2)).lookup item.1
      else s.swapping.proxy.missingNewReplicas.lookup item.1) ∧
    ∀ k, k ∉ items.map Prod.fst → s'.swapping.proxy.missingNewReplicas.lookup k
      = s.swapping.proxy.missingNewReplicas.lookup k := by
  induction items generalizing s with
  | nil =>
      cases h
      exact ⟨by simp, fun _ _ => rfl⟩
  | cons item items ih =>
      rw [List.foldlM_cons, bind_eq_ok] at h
      obtain ⟨s₁, h₁, h⟩ := h
      rw [List.map_cons, List.nodup_cons] at hnd
      have hl := updateReplica_spec h₁
      obtain ⟨hin, hout⟩ := ih hnd.2 h
      -- what the first iteration does
      have hfirst : s₁.swapping.proxy.missingNewReplicas
          = if s.swapping.proxy.replicas item.1 < replicaCount s.swapping.proxy.alpha item.2 ∧
              item.1 ≠ s.swapping.proxy.dummyKey then
            s.swapping.proxy.missingNewReplicas.editBitVectorSize item.1
              (replicaCount s.swapping.proxy.alpha item.2)
          else s.swapping.proxy.missingNewReplicas := by
        simp only [updateReplica, bind_eq_ok, assert_eq_ok] at h₁
        obtain ⟨-, -, swapping, hprep, h₁⟩ := h₁
        cases h₁
        have hmissing := prepareForSwapping_missing hprep
        exact hmissing
      have hother : ∀ k, k ≠ item.1 → s₁.swapping.proxy.missingNewReplicas.lookup k
          = s.swapping.proxy.missingNewReplicas.lookup k := by
        intro k hk
        rw [hfirst]
        split
        · exact UpdateCache.lookup_editBitVectorSize_of_ne _ _ hk
        · rfl
      constructor
      · intro x hx
        rcases List.mem_cons.mp hx with rfl | hx
        · rw [hout x.1 hnd.1, hfirst]
          split <;> rfl
        · have hne : x.1 ≠ item.1 := by
            intro hc
            exact hnd.1 (hc ▸ List.mem_map_of_mem hx)
          have hreplicas := hl.others x.1 (by simpa using hne)
          rw [hin x hx, hreplicas, hl.kept.alpha, hl.kept.dummyKey, hother x.1 hne]
          split
          · rw [UpdateCache.lookup_editBitVectorSize, UpdateCache.lookup_editBitVectorSize,
              hother x.1 hne]
          · rfl
      · intro k hk
        rw [List.map_cons, List.mem_cons, not_or] at hk
        rw [hout k hk.2, hother k hk.1]

/-- Replicas that are there can be released, each once. -/
theorem releaseReplicas_total {key : Str} {is : List Nat} (hnd : is.Nodup) {s : Swapping}
    (h : ∀ i ∈ is, replicaName key i ∈ s.proxy.replicaToLabel) :
    ∃ s', is.foldlM (releaseReplica key) s = .ok s' := by
  induction is generalizing s with
  | nil => exact ⟨s, rfl⟩
  | cons i is ih =>
      rw [List.nodup_cons] at hnd
      have hi := h i (by simp)
      obtain ⟨s₁, h₁⟩ : ∃ s₁, releaseReplica key s i = .ok s₁ := by
        simp only [releaseReplica, assert, if_pos hi]
        exact ⟨_, rfl⟩
      obtain ⟨s', hs'⟩ := ih hnd.2 (s := s₁) fun j hj => by
        have hne : replicaName key j ≠ replicaName key i := by
          intro hc
          exact hnd.1 (replicaName_inj_right.mp hc ▸ hj)
        rw [Finmap.mem_iff, (releaseReplica_spec h₁).1.lookup]
        simp only [List.mem_singleton, hne, if_false]
        exact Finmap.mem_iff.mp (h j (by simp [hj]))
      exact ⟨s', by rw [List.foldlM_cons, h₁]; exact hs'⟩

theorem prepareForSwapping_total (s : Swapping) (key : Str) (rNew rOld : Nat)
    (h : ∀ x ∈ namesBetween key rNew rOld, x ∈ s.proxy.replicaToLabel) :
    ∃ s', prepareForSwapping s key rNew rOld = .ok s' := by
  unfold prepareForSwapping
  split
  · exact ⟨_, rfl⟩
  · split
    · apply releaseReplicas_total List.nodup_range'
      intro i hi
      exact h _ (List.mem_map_of_mem hi)
    · exact ⟨s, rfl⟩

/-- **The loop returns** when every name it releases is there and distinct
from the others. -/
theorem updateReplicas_total {items : List (Str × ℚ)} (hnd : (items.map Prod.fst).Nodup)
    {s : UpdateLoop}
    (hpos : ∀ item ∈ items, 0 < replicaCount s.swapping.proxy.alpha item.2)
    (hdistinct : (s.swapping.proxy.releasedBy items).Nodup)
    (hpresent : ∀ x ∈ s.swapping.proxy.releasedBy items, x ∈ s.swapping.proxy.replicaToLabel) :
    ∃ s', items.foldlM updateReplica s = .ok s' := by
  induction items generalizing s with
  | nil => exact ⟨s, rfl⟩
  | cons item items ih =>
      rw [List.map_cons, List.nodup_cons] at hnd
      rw [releasedBy, List.flatMap_cons] at hdistinct hpresent
      obtain ⟨-, hrest, hdisjoint⟩ := List.nodup_append.mp hdistinct
      have hpos₁ := hpos item (by simp)
      obtain ⟨s₁, h₁⟩ : ∃ s₁, updateReplica s item = .ok s₁ := by
        obtain ⟨swapping, hprep⟩ := prepareForSwapping_total
          { s.swapping with proxy := { s.swapping.proxy with
            newKeyToFrequency := s.swapping.proxy.newKeyToFrequency.insert item.1 (truncate item.2)
            keyToNumberOfReplicas := s.swapping.proxy.keyToNumberOfReplicas.insert item.1
              (replicaCount s.swapping.proxy.alpha item.2) } }
          item.1 (replicaCount s.swapping.proxy.alpha item.2)
          (s.swapping.proxy.replicas item.1) fun x hx => hpresent x (by simp [hx])
        simp only [updateReplica, assert, if_pos hpos₁, ok_bind, replicas] at hprep ⊢
        rw [hprep]
        exact ⟨_, rfl⟩
      have hl := updateReplica_spec h₁
      -- what the rest releases is as before the first iteration
      have hsame : s₁.swapping.proxy.releasedBy items = s.swapping.proxy.releasedBy items := by
        refine List.flatMap_congr fun x hx => ?_
        have hne : x.1 ∉ [item].map Prod.fst := by
          simp only [List.map_cons, List.map_nil, List.mem_singleton]
          intro hc
          exact hnd.1 (hc ▸ List.mem_map_of_mem hx)
        rw [hl.kept.alpha, hl.others x.1 hne]
      obtain ⟨s', hs'⟩ := ih hnd.2 (s := s₁)
        (fun x hx => by rw [hl.kept.alpha]; exact hpos x (by simp [hx]))
        (by rw [hsame]; exact hrest) fun x hx => by
          rw [hsame] at hx
          have hnot : x ∉ s.swapping.proxy.releasedBy [item] := by
            rw [releasedBy, List.flatMap_singleton]
            intro hc
            exact hdisjoint x hc x hx rfl
          rw [Finmap.mem_iff, hl.prepared.lookup, if_neg hnot]
          exact Finmap.mem_iff.mp (hpresent x (List.mem_append_right _ hx))
      exact ⟨s', by rw [List.foldlM_cons, h₁]; exact hs'⟩

/-! ## The fake distribution -/

/-- Walking the table is walking some list of its entries. -/
theorem exists_walk (missing : UpdateCache) :
    ∃ entries : List (Str × (Str × List Bool)),
      (∀ key entry, missing.lookup key = some entry ↔ (key, entry) ∈ entries) ∧
      ∀ s, missing.foldl scanMissing (fun s _ _ _ _ => scanMissing_comm s _ _ _ _) s =
        entries.foldl (fun s e => scanMissing s e.1 e.2) s := by
  induction missing using Finmap.induction_on with
  | H a =>
      refine ⟨a.entries.map fun e => (e.1, e.2), fun key entry => ?_, fun s => ?_⟩
      · rw [Finmap.lookup_eq_some_iff]
        show _ ∈ a.entries ↔ _
        simp
      · rw [List.foldl_map]
        rfl

/-- One entry: its size is right, and the reads change no replica count. -/
theorem scanMissing_spec {s : Except Fault (Proxy × ℚ)} {st' : Proxy} {q' : ℚ} {key : Str}
    {entry : Str × List Bool} (h : scanMissing s key entry = .ok (st', q')) :
    ∃ st q, s = .ok (st, q) ∧ entry.2.length = st.replicas key ∧
      (∀ k, st'.replicas k = st.replicas k) ∧
      st' = { st with
        keyToNumberOfReplicas := st'.keyToNumberOfReplicas
        newKeyToFrequency := st'.newKeyToFrequency } := by
  simp only [scanMissing, bind_eq_ok, assert_eq_ok] at h
  obtain ⟨⟨st, q⟩, hs, -, hlen, h⟩ := h
  cases h
  exact ⟨st, q, hs, hlen, fun k => by simp [replicas], rfl⟩

theorem scan_spec {entries : List (Str × (Str × List Bool))} {st st' : Proxy} {q q' : ℚ}
    (h : entries.foldl (fun s e => scanMissing s e.1 e.2) (.ok (st, q)) = .ok (st', q')) :
    (∀ e ∈ entries, e.2.2.length = st.replicas e.1) ∧
    (∀ key, st'.replicas key = st.replicas key) ∧
    st' = { st with
      keyToNumberOfReplicas := st'.keyToNumberOfReplicas
      newKeyToFrequency := st'.newKeyToFrequency } := by
  induction entries using List.reverseRecOn generalizing st' q' with
  | nil =>
      cases h
      exact ⟨by simp, fun _ => rfl, rfl⟩
  | append_singleton entries e ih =>
      rw [List.foldl_append, List.foldl_cons, List.foldl_nil] at h
      obtain ⟨st₁, q₁, h₁, hlen, hcounts, hframe⟩ := scanMissing_spec h
      obtain ⟨hsizes₁, hcounts₁, hframe₁⟩ := ih h₁
      refine ⟨fun x hx => ?_, fun key => (hcounts key).trans (hcounts₁ key), ?_⟩
      · rcases List.mem_append.mp hx with hx | hx
        · exact hsizes₁ x hx
        · rw [List.mem_singleton] at hx
          rw [hx, hlen, hcounts₁]
      · rw [hframe, hframe₁]

theorem scan_total {entries : List (Str × (Str × List Bool))} {st : Proxy}
    (h : ∀ e ∈ entries, e.2.2.length = st.replicas e.1) (q : ℚ) :
    ∃ r, entries.foldl (fun s e => scanMissing s e.1 e.2) (.ok (st, q)) = .ok r := by
  induction entries using List.reverseRecOn with
  | nil => exact ⟨_, rfl⟩
  | append_singleton entries e ih =>
      obtain ⟨⟨st₁, q₁⟩, h₁⟩ := ih fun x hx => h x (by simp [hx])
      have hlen : e.2.2.length = st₁.replicas e.1 := by
        rw [(scan_spec h₁).2.1, h e (by simp)]
      rw [List.foldl_append, h₁, List.foldl_cons, List.foldl_nil]
      simp [scanMissing, assert, hlen]

/-- **`recompute_fake_distribution`** returns only when every key with
missing replicas has one bit per replica, and changes no replica count. -/
theorem recomputeFakeDistribution_spec {st st' : Proxy} {d : Distribution}
    (h : st.recomputeFakeDistribution d = .ok st') :
    (∀ key entry, st.missingNewReplicas.lookup key = some entry →
      entry.2.length = st.replicas key) ∧
    (∀ key, st'.replicas key = st.replicas key) ∧
    st' = { st with
      keyToNumberOfReplicas := st'.keyToNumberOfReplicas
      newKeyToFrequency := st'.newKeyToFrequency
      pMax := st'.pMax
      fakeDistribution := st'.fakeDistribution } := by
  simp only [recomputeFakeDistribution, bind_eq_ok] at h
  obtain ⟨⟨st₁, m⟩, hscan, h⟩ := h
  cases h
  obtain ⟨entries, hmem, hwalk⟩ := exists_walk st.missingNewReplicas
  obtain ⟨hsizes, hcounts, hframe⟩ := scan_spec ((hwalk _).symm.trans hscan)
  refine ⟨fun key entry he => hsizes (key, entry) ((hmem key entry).mp he), hcounts, ?_⟩
  dsimp only
  rw [hframe]

theorem recomputeFakeDistribution_total {st : Proxy} (d : Distribution)
    (h : ∀ key entry, st.missingNewReplicas.lookup key = some entry →
      entry.2.length = st.replicas key) : ∃ st', st.recomputeFakeDistribution d = .ok st' := by
  obtain ⟨entries, hmem, hwalk⟩ := exists_walk st.missingNewReplicas
  have hlens : ∀ e ∈ entries, e.2.2.length = st.replicas e.1 := fun e he =>
    h e.1 e.2 ((hmem e.1 e.2).mpr he)
  obtain ⟨r, hr⟩ := scan_total hlens (1 / (d.items.length : ℚ))
  simp only [recomputeFakeDistribution, hwalk, hr]
  exact ⟨_, rfl⟩

/-! ## The whole call -/

/-- The replicas of the real keys under the new distribution. -/
def newRealReplicas (st : Proxy) (d : Distribution) : Nat :=
  (d.pairs.map fun item => replicaCount st.alpha item.2).sum

/-- The dummy replicas under the new distribution. -/
def newDummyKeys (st : Proxy) (d : Distribution) : Nat :=
  2 * d.items.length - st.newRealReplicas d

/-- The names that lose their label in a call. -/
def released (st : Proxy) (d : Distribution) : List Str :=
  st.releasedBy d.pairs ++ namesBetween st.dummyKey (st.newDummyKeys d) st.dummyKeys

/-- The replicas that get a label in a call. -/
def needed (st : Proxy) (d : Distribution) : List (Str × Nat) :=
  st.neededBy d.pairs ++
    (List.range' st.dummyKeys (st.newDummyKeys d - st.dummyKeys)).map fun i => (st.dummyKey, i)

/-- What an `update_distribution` call that returned has done. -/
structure Updated (st : Proxy) (d : Distribution) (st' : Proxy) : Prop where
  counts : ∀ item ∈ d.pairs, st'.replicas item.1 = replicaCount st.alpha item.2
  others : ∀ k, k ∉ d.pairs.map Prod.fst → st'.replicas k = st.replicas k
  dummyKeys : st'.dummyKeys = st.newDummyKeys d
  fewer : st.newRealReplicas d < 2 * d.items.length
  labels : ∃ labels : List Nat, labels.length = (st.released d).length ∧
    (∀ l ∈ labels, ∃ x ∈ st.released d, st.replicaToLabel.lookup x = some l) ∧
    ∀ x, st'.replicaToLabel.lookup x
        = (if x ∈ st.released d then none else st.replicaToLabel.lookup x) ∨
      (∃ need ∈ st.needed d, replicaName need.1 need.2 = x) ∧
        ∃ l ∈ labels, ∃ z, stoi (assignInt l) = .ok z ∧
          st'.replicaToLabel.lookup x = some z.toNat
  sizes : ∀ key entry, st'.missingNewReplicas.lookup key = some entry →
    entry.2.length = st'.replicas key
  missing : (∀ item ∈ d.pairs, replicaCount st.alpha item.2 ≤ st.replicas item.1) →
    st'.missingNewReplicas = st.missingNewReplicas
  kept : KeptFields st st'

theorem Looped.newNumRealReplicas {st : Proxy} {d : Distribution} {s : UpdateLoop}
    (hl : Looped { swapping := { proxy := st } } s d.pairs) :
    s.newNumRealReplicas = st.newRealReplicas d := by
  rw [hl.total]
  exact Nat.zero_add _

/-- Both rounds of releasing together: that of the keys, and that of the
dummy key. -/
theorem Looped.prepared_dummies {st : Proxy} {d : Distribution} {s₁ : UpdateLoop} {s₂ : Swapping}
    (hl : Looped { swapping := { proxy := st } } s₁ d.pairs)
    (hdummy : prepareForSwapping
      { s₁.swapping with proxy := { s₁.swapping.proxy with
          dummyKeys := 2 * d.items.length - s₁.newNumRealReplicas } }
      s₁.swapping.proxy.dummyKey (2 * d.items.length - s₁.newNumRealReplicas)
      s₁.swapping.proxy.dummyKeys = .ok s₂) :
    Prepared { proxy := st } s₂ (st.released d) (st.needed d) := by
  have hp := (prepareForSwapping_spec hdummy).1
  have hp' : Prepared s₁.swapping s₂ _ _ := ⟨hp.lookup, hp.labels, hp.needs⟩
  have hkey : s₁.swapping.proxy.dummyKey = st.dummyKey := hl.kept.dummyKey
  have hold : s₁.swapping.proxy.dummyKeys = st.dummyKeys := hl.dummyKeys
  have hboth := hl.prepared.trans hp'
  rw [hl.newNumRealReplicas, hkey, hold] at hboth
  exact hboth

/-- **`update_distribution`**: everything a call that returns has done. -/
theorem updateDistribution_spec {st st' : Proxy} {d : Distribution}
    (hnd : (d.pairs.map Prod.fst).Nodup) (h : st.updateDistribution d = .ok st') :
    Updated st d st' := by
  simp only [updateDistribution, bind_eq_ok, assert_eq_ok] at h
  obtain ⟨s₁, hloop, -, hless, s₂, hdummy, st₃, hrec, -, -, hswap⟩ := h
  have hl := updateReplicas_spec hnd hloop
  obtain ⟨-, hf, hm⟩ := prepareForSwapping_spec hdummy
  obtain ⟨hsizes, hcounts, hframe⟩ := recomputeFakeDistribution_spec hrec
  obtain ⟨hlast, hlookup⟩ := performSwapping_spec hswap
  have hboth := hl.prepared_dummies hdummy
  rw [hl.newNumRealReplicas] at hless
  -- the replica counts are those of the loop
  have hreplicas : ∀ k, st'.replicas k = s₁.swapping.proxy.replicas k := by
    intro k
    have h₂ : s₂.proxy.replicas k = s₁.swapping.proxy.replicas k := by
      rw [hf]
      rfl
    rw [← h₂, ← hcounts k, hlast]
    rfl
  have hmissing : st'.missingNewReplicas = s₂.proxy.missingNewReplicas := by
    rw [hlast, hframe]
  refine ⟨fun item hitem => ?_, fun k hk => ?_, ?_, hless, ?_, fun key entry he => ?_,
    fun hle => ?_, ?_⟩
  · rw [hreplicas, hl.counts item hitem]
  · rw [hreplicas, hl.others k hk]
  · rw [hlast, hframe, hf]
    rw [hl.newNumRealReplicas]
    rfl
  · obtain ⟨labels, hlen, hun, hfrom⟩ := hboth.labels
    refine ⟨labels, hlen, hfrom, fun x => ?_⟩
    have hmid : st₃.replicaToLabel.lookup x
        = if x ∈ st.released d then none else st.replicaToLabel.lookup x := by
      rw [hframe]
      exact hboth.lookup x
    rcases hlookup x with hx | ⟨⟨need, hneed, hn⟩, u, hu, z, hz, hx⟩
    · exact .inl (hx.trans hmid)
    · rw [hun] at hu
      obtain ⟨l, hlmem, rfl⟩ := List.mem_map.mp (by simpa using hu)
      rw [hboth.needs] at hneed
      exact .inr ⟨⟨need, by simpa using hneed, hn⟩, l, hlmem, z, hz, hx⟩
  · rw [hmissing] at he
    rw [hsizes key entry he, hreplicas, hf]
    rfl
  · rw [hmissing, hm (.inr ?_)]
    · exact hl.missing hle
    · rfl
  · refine hl.kept.trans ⟨?_, ?_, ?_, ?_, ?_, ?_, ?_, ?_, ?_⟩ <;> rw [hlast, hframe, hf]

/-- **The names after a call** that returned: those not released, and those
that needed a label. -/
theorem mem_updateDistribution {st st' : Proxy} {d : Distribution}
    (hnd : (d.pairs.map Prod.fst).Nodup) (h : st.updateDistribution d = .ok st') (x : Str) :
    x ∈ st'.replicaToLabel ↔ (x ∈ st.replicaToLabel ∧ x ∉ st.released d) ∨
      ∃ need ∈ st.needed d, replicaName need.1 need.2 = x := by
  simp only [updateDistribution, bind_eq_ok, assert_eq_ok] at h
  obtain ⟨s₁, hloop, -, -, s₂, hdummy, st₃, hrec, -, hlen, hswap⟩ := h
  have hboth := (updateReplicas_spec hnd hloop).prepared_dummies hdummy
  obtain ⟨-, -, hframe⟩ := recomputeFakeDistribution_spec hrec
  have hneeds : s₂.needsLabels = st.needed d := by simpa using hboth.needs
  rw [mem_performSwapping hlen hswap, hneeds]
  refine or_congr_left ?_
  show x ∈ st₃.replicaToLabel ↔ _
  have hlookup : st₃.replicaToLabel.lookup x
      = if x ∈ st.released d then none else st.replicaToLabel.lookup x := by
    rw [hframe]
    exact hboth.lookup x
  rw [Finmap.mem_iff, Finmap.mem_iff, hlookup]
  by_cases hx : x ∈ st.released d <;> simp [hx]

theorem releasedBy_unchanged {st : Proxy} {items : List (Str × ℚ)}
    (h : ∀ item ∈ items, replicaCount st.alpha item.2 = st.replicas item.1) :
    st.releasedBy items = [] ∧ st.neededBy items = [] := by
  simp only [releasedBy, neededBy, List.flatMap_eq_nil_iff]
  constructor
  · intro item hitem
    simp [namesBetween, h item hitem]
  · intro item hitem
    simp [h item hitem]

/-- A call that changes no replica count, with one bit per replica in every
entry of missing replicas, returns. -/
theorem updateDistribution_total {st : Proxy} {d : Distribution}
    (hnd : (d.pairs.map Prod.fst).Nodup)
    (hcounts : ∀ item ∈ d.pairs, 0 < replicaCount st.alpha item.2 ∧
      replicaCount st.alpha item.2 = st.replicas item.1)
    (hfewer : st.newRealReplicas d < 2 * d.items.length)
    (hdummy : st.newDummyKeys d = st.dummyKeys)
    (hsizes : ∀ key entry, st.missingNewReplicas.lookup key = some entry →
      entry.2.length = st.replicas key) :
    ∃ st', st.updateDistribution d = .ok st' := by
  obtain ⟨hrel, hneed⟩ := releasedBy_unchanged fun item hitem => (hcounts item hitem).2
  obtain ⟨s₁, hs₁⟩ := updateReplicas_total hnd (s := { swapping := { proxy := st } })
    (fun item hitem => (hcounts item hitem).1) (hrel ▸ List.nodup_nil) (by simp [hrel])
  have hl := updateReplicas_spec hnd hs₁
  have hp : Prepared { proxy := st } s₁.swapping (st.releasedBy d.pairs) (st.neededBy d.pairs) :=
    hl.prepared
  rw [hrel, hneed] at hp
  have hneeds : s₁.swapping.needsLabels = [] := hp.needs
  have hunassigned : s₁.swapping.unassignedLabels = [] := by
    obtain ⟨labels, hlen, hun, -⟩ := hp.labels
    rw [List.length_nil, List.length_eq_zero_iff] at hlen
    rw [hun, hlen]
    rfl
  have htotal : s₁.newNumRealReplicas = st.newRealReplicas d := by
    rw [hl.total]
    exact Nat.zero_add _
  have hdummy' : 2 * d.items.length - st.newRealReplicas d = s₁.swapping.proxy.dummyKeys :=
    hdummy.trans hl.dummyKeys.symm
  -- every replica count is as before
  have hreplicas : ∀ k, s₁.swapping.proxy.replicas k = st.replicas k := by
    intro k
    by_cases hk : k ∈ d.pairs.map Prod.fst
    · obtain ⟨item, hitem, rfl⟩ := List.mem_map.mp hk
      rw [hl.counts item hitem]
      exact (hcounts item hitem).2
    · exact hl.others k hk
  have hmissing : s₁.swapping.proxy.missingNewReplicas = st.missingNewReplicas :=
    hl.missing fun item hitem => ((hcounts item hitem).2).le
  have hsizes' : ∀ key entry, s₁.swapping.proxy.missingNewReplicas.lookup key = some entry →
      entry.2.length = s₁.swapping.proxy.replicas key := by
    intro key entry he
    rw [hmissing] at he
    rw [hsizes key entry he, hreplicas]
  obtain ⟨st₃, hst₃⟩ := recomputeFakeDistribution_total d hsizes'
  refine ⟨{ st₃ with realDistribution := d, keyToFrequency := st₃.newKeyToFrequency }, ?_⟩
  simp only [updateDistribution, hs₁, ok_bind, htotal, assert, if_pos hfewer, prepareForSwapping,
    hdummy', lt_irrefl, if_false, hst₃, hneeds, hunassigned, List.length_nil, if_true,
    performSwapping, List.zip_nil_left, List.foldlM_nil, pure_eq_ok]

end Proxy

end Pancake
