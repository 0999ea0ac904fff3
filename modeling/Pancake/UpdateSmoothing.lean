import Pancake.LabelConservation
import Pancake.Lib.Runs
import Pancake.SecurityBatch

/-!
# Frequency smoothing across distribution changes

`update_distribution` weighs fake accesses by `p_max_`: a key with `r`
replicas and probability `p` gets `r * p_max_ - p`. With the coin
`is_true_distribution` tosses, every one of the `2n` replicas is then hit
with probability `1/(2n)`, whatever `p_max_` is, as long as it is at least
`1/n`. The coin divides by the size of `key_to_frequency_`, which every
change sets to the keys it has seen and those it finds in
`missing_new_replicas_`.
-/

namespace Pancake

namespace Proxy

/-- `update_distribution` up to the swapping: the new replica counts, the
fake distribution, and what is assigned after it. -/
def redistribute (st : Proxy) (newDistribution : Distribution) : Except Fault Swapping := do
  let n := newDistribution.items.length
  let s ← newDistribution.pairs.foldlM updateReplica { swapping := { proxy := st } }
  assert (s.newNumRealReplicas < 2 * n)
  let st := s.swapping.proxy
  let rOld := st.dummyKeys
  let st := { st with dummyKeys := 2 * n - s.newNumRealReplicas }
  let s ← prepareForSwapping { s.swapping with proxy := st } st.dummyKey st.dummyKeys rOld
  let st ← s.proxy.recomputeFakeDistribution newDistribution
  let st := { st with realDistribution := newDistribution }
  let st := { st with keyToFrequency := st.newKeyToFrequency }
  .ok { s with proxy := st }

/-- The rest of the call hands the labels on. -/
theorem updateDistribution_eq (st : Proxy) (d : Distribution) :
    st.updateDistribution d = (do
      let s ← st.redistribute d
      assert (s.needsLabels.length = s.unassignedLabels.length)
      s.proxy.performSwapping s.unassignedLabels s.needsLabels) := by
  simp only [updateDistribution, redistribute]
  cases d.pairs.foldlM updateReplica { swapping := { proxy := st } } with
  | error e => rfl
  | ok s₁ =>
      simp only [ok_bind]
      cases assert (s₁.newNumRealReplicas < 2 * d.items.length) with
      | error e => rfl
      | ok u =>
          simp only [ok_bind]
          generalize prepareForSwapping _ _ _ _ = s₂
          cases s₂ with
          | error e => rfl
          | ok s₂ =>
              simp only [ok_bind]
              cases s₂.proxy.recomputeFakeDistribution d with
              | error e => rfl
              | ok st₃ => rfl

/-- One change of a proxy over `keys`: accesses and earlier changes have left
`missing` in `missing_new_replicas_`, and the swapping may end anyhow. -/
structure Redistributes (keys : List Str) (st : Proxy) (d : Distribution) (st' : Proxy) : Prop where
  distribution : DistributionOver keys d
  taken : ∃ (missing : UpdateCache) (s : Swapping) (labels : UnorderedMap Nat),
    (∀ key ∈ missing, key ∈ keys) ∧
    { st with missingNewReplicas := missing }.redistribute d = .ok s ∧
    st' = { s.proxy with replicaToLabel := labels }

/-- The replicas are smooth for the distribution and the fake weights that
`recompute_fake_distribution` set. -/
structure Resmoothed (d : Distribution) (st : Proxy) : Prop where
  real : st.realDistribution = d
  counts : ∀ item ∈ d.pairs, st.replicas item.1 = replicaCount st.alpha item.2 ∧
    1 ≤ st.replicas item.1
  fake : st.fakeDistribution =
    { items := d.items ++ [st.dummyKey]
      probabilities := (d.pairs.map fun item => (st.replicas item.1 : ℚ) * st.pMax - item.2)
        ++ [st.dummyKeys * st.pMax] }
  nonneg : ∀ w ∈ st.fakeDistribution.probabilities, 0 ≤ w
  total : st.fakeDistribution.probabilities.sum = 2 * d.items.length * st.pMax - 1 ∧
    0 < 2 * d.items.length * st.pMax - 1
  coin : st.isTrueDistribution = .coin (1 / (2 * st.pMax * d.items.length)) .done
  flat : ∀ item ∈ d.pairs,
    1 / (2 * st.pMax * d.items.length) * item.2 / st.replicas item.1 +
      (1 - 1 / (2 * st.pMax * d.items.length)) * (st.replicas item.1 * st.pMax - item.2) /
        (st.fakeDistribution.probabilities.sum * st.replicas item.1) = 1 / (2 * d.items.length)
  flatDummy : (1 - 1 / (2 * st.pMax * d.items.length)) * (st.dummyKeys * st.pMax) /
    (st.fakeDistribution.probabilities.sum * st.dummyKeys) = 1 / (2 * d.items.length)

/-! ## The frequencies -/

/-- The loop enters every key in `new_key_to_frequency_`. -/
theorem updateReplicas_frequencies {items : List (Str × ℚ)} {s s' : UpdateLoop}
    (h : items.foldlM updateReplica s = .ok s') (key : Str) :
    key ∈ s'.swapping.proxy.newKeyToFrequency ↔
      key ∈ items.map Prod.fst ∨ key ∈ s.swapping.proxy.newKeyToFrequency := by
  induction items generalizing s with
  | nil =>
      cases h
      simp
  | cons item items ih =>
      rw [List.foldlM_cons, bind_eq_ok] at h
      obtain ⟨s₁, h₁, h⟩ := h
      obtain ⟨newKey, p⟩ := item
      simp only [updateReplica, bind_eq_ok, assert_eq_ok] at h₁
      obtain ⟨-, -, swapping, hprep, h₁⟩ := h₁
      cases h₁
      obtain ⟨-, hframe, -⟩ := prepareForSwapping_spec hprep
      have hfrequencies : swapping.proxy.newKeyToFrequency
          = s.swapping.proxy.newKeyToFrequency.insert newKey (truncate p) := by
        rw [hframe]
      rw [ih h, hfrequencies, Finmap.mem_insert, List.map_cons, List.mem_cons]
      tauto

/-- The scan of the missing replicas enters their keys, and takes the maximum
of their frequencies. -/
theorem scan_frequencies {entries : List (Str × (Str × List Bool))} {st st' : Proxy} {q q' : ℚ}
    (h : entries.foldl (fun s e => scanMissing s e.1 e.2) (.ok (st, q)) = .ok (st', q')) :
    q ≤ q' ∧ (∀ key, key ∈ st'.newKeyToFrequency ↔
      key ∈ entries.map Prod.fst ∨ key ∈ st.newKeyToFrequency) ∧
    (∀ key, st'.newFrequency key = st.newFrequency key) ∧
    ∀ e ∈ entries, (st.newFrequency e.1 : ℚ) ≤ q' := by
  induction entries using List.reverseRecOn generalizing st' q' with
  | nil =>
      cases h
      exact ⟨le_rfl, by simp, fun _ => rfl, by simp⟩
  | append_singleton entries e ih =>
      rw [List.foldl_append, List.foldl_cons, List.foldl_nil] at h
      simp only [scanMissing, bind_eq_ok, assert_eq_ok] at h
      obtain ⟨⟨st₁, q₁⟩, h₁, -, -, h⟩ := h
      cases h
      obtain ⟨hle, hkeys, hsame, hbound⟩ := ih h₁
      refine ⟨hle.trans (le_max_left _ _), ?_, ?_, ?_⟩
      · intro key
        rw [UnorderedMap.mem_touch, hkeys key, List.map_append, List.mem_append,
          List.map_singleton, List.mem_singleton]
        tauto
      · intro key
        rw [← hsame key]
        exact UnorderedMap.at_touch _ _ _
      · intro x hx
        rcases List.mem_append.mp hx with hx | hx
        · exact (hbound x hx).trans (le_max_left _ _)
        · rw [List.mem_singleton.mp hx, ← hsame e.1]
          exact le_max_right _ _

/-- **`recompute_fake_distribution`**: `p_max_` is at least `1/n`, and the
weights are relative to it. -/
theorem recomputeFakeDistribution_weights {st st' : Proxy} {d : Distribution}
    (h : st.recomputeFakeDistribution d = .ok st') :
    1 / (d.items.length : ℚ) ≤ st'.pMax ∧
    st'.fakeDistribution =
      { items := d.items ++ [st.dummyKey]
        probabilities := (d.pairs.map fun item => (st'.replicas item.1 : ℚ) * st'.pMax - item.2)
          ++ [st.dummyKeys * st'.pMax] } ∧
    (∀ key, key ∈ st'.newKeyToFrequency ↔
      key ∈ st.missingNewReplicas ∨ key ∈ st.newKeyToFrequency) ∧
    ∀ key ∈ st'.missingNewReplicas, (st'.newFrequency key : ℚ) ≤ st'.pMax := by
  simp only [recomputeFakeDistribution, bind_eq_ok] at h
  obtain ⟨⟨st₁, m⟩, hscan, h⟩ := h
  cases h
  obtain ⟨entries, hmem, hwalk⟩ := exists_walk st.missingNewReplicas
  obtain ⟨hle, hkeys, hsame, hbound⟩ := scan_frequencies ((hwalk _).symm.trans hscan)
  obtain ⟨-, -, hframe⟩ := scan_spec ((hwalk _).symm.trans hscan)
  refine ⟨hle, ?_, ?_, ?_⟩
  · have hdummy : st₁.dummyKey = st.dummyKey := by rw [hframe]
    have hdummies : st₁.dummyKeys = st.dummyKeys := by rw [hframe]
    simp only [hdummy, hdummies]
    rfl
  · intro key
    refine (hkeys key).trans (or_congr_left ?_)
    rw [Finmap.mem_iff, List.mem_map]
    constructor
    · rintro ⟨e, he, rfl⟩
      exact ⟨e.2, (hmem e.1 e.2).mpr he⟩
    · rintro ⟨entry, he⟩
      exact ⟨(key, entry), (hmem key entry).mp he, rfl⟩
  · intro key hkey
    have hmissing : st₁.missingNewReplicas = st.missingNewReplicas := by rw [hframe]
    obtain ⟨entry, he⟩ := Finmap.mem_iff.mp (hmissing ▸ hkey)
    show (st₁.newFrequency key : ℚ) ≤ m
    rw [hsame key]
    exact hbound (key, entry) ((hmem key entry).mp he)

/-! ## One change -/

/-- The missing replicas after a change are those of before and of the new
keys. -/
theorem missing_of_redistribute {s s' : UpdateLoop} {items : List (Str × ℚ)} {t : Swapping}
    {rNew rOld : Nat} (hnd : (items.map Prod.fst).Nodup)
    (hloop : items.foldlM updateReplica s = .ok s')
    (hdummy : prepareForSwapping { s'.swapping with
      proxy := { s'.swapping.proxy with dummyKeys := rNew } } s'.swapping.proxy.dummyKey rNew rOld
        = .ok t) {key : Str} (h : key ∈ t.proxy.missingNewReplicas) :
    key ∈ items.map Prod.fst ∨ key ∈ s.swapping.proxy.missingNewReplicas := by
  have hmissing := prepareForSwapping_missing hdummy
  rw [if_neg fun hc => hc.2 rfl] at hmissing
  rw [hmissing, Finmap.mem_iff] at h
  by_cases hk : key ∈ items.map Prod.fst
  · exact .inl hk
  · rw [(updateReplicas_missing hnd hloop).2 key hk] at h
    exact .inr (Finmap.mem_iff.mpr h)

/-- What a change has done, as far as smoothing depends on it. -/
structure Redistributed (st : Proxy) (d : Distribution) (st' : Proxy) : Prop where
  alpha : st'.alpha = st.alpha
  real : st'.realDistribution = d
  dummyKeys : st'.dummyKeys = st.newDummyKeys d
  counts : ∀ item ∈ d.pairs, st'.replicas item.1 = replicaCount st.alpha item.2
  pMax : 1 / (d.items.length : ℚ) ≤ st'.pMax
  fake : st'.fakeDistribution =
    { items := d.items ++ [st'.dummyKey]
      probabilities := (d.pairs.map fun item => (st'.replicas item.1 : ℚ) * st'.pMax - item.2)
        ++ [st'.dummyKeys * st'.pMax] }
  frequencies : st'.keyToFrequency = st'.newKeyToFrequency
  entered : ∀ key ∈ d.pairs.map Prod.fst, key ∈ st'.newKeyToFrequency
  known : ∀ key ∈ st'.newKeyToFrequency, key ∈ d.pairs.map Prod.fst ∨
    key ∈ st.missingNewReplicas ∨ key ∈ st.newKeyToFrequency
  bounded : ∀ key ∈ st'.missingNewReplicas, (st'.newFrequency key : ℚ) ≤ st'.pMax

/-- **`redistribute`**: everything smoothing depends on. -/
theorem redistribute_spec {st : Proxy} {d : Distribution} {s : Swapping}
    (hnd : (d.pairs.map Prod.fst).Nodup) (h : st.redistribute d = .ok s) :
    Redistributed st d s.proxy := by
  simp only [redistribute, bind_eq_ok, assert_eq_ok] at h
  obtain ⟨s₁, hloop, -, hless, s₂, hdummy, st₃, hrec, h⟩ := h
  cases h
  have hl := updateReplicas_spec hnd hloop
  have hfrequencies := updateReplicas_frequencies hloop
  obtain ⟨-, hf, -⟩ := prepareForSwapping_spec hdummy
  obtain ⟨-, hcounts, hframe⟩ := recomputeFakeDistribution_spec hrec
  obtain ⟨hle, hfake, hkeys, hbound⟩ := recomputeFakeDistribution_weights hrec
  have htotal : s₁.newNumRealReplicas = st.newRealReplicas d := by
    rw [hl.total]
    exact Nat.zero_add _
  have halpha : st₃.alpha = st.alpha := by
    rw [hframe, hf]
    exact hl.kept.alpha
  have hdummies : st₃.dummyKeys = s₂.proxy.dummyKeys := by rw [hframe]
  have hdummyKey : st₃.dummyKey = s₂.proxy.dummyKey := by rw [hframe]
  have hnew : s₂.proxy.newKeyToFrequency = s₁.swapping.proxy.newKeyToFrequency := by rw [hf]
  refine ⟨halpha, rfl, ?_, ?_, hle, ?_, rfl, ?_, ?_, hbound⟩
  · show st₃.dummyKeys = _
    rw [hframe, hf, htotal]
    rfl
  · intro item hitem
    have h₂ : s₂.proxy.replicas item.1 = s₁.swapping.proxy.replicas item.1 := by
      rw [hf]
      rfl
    exact (hcounts item.1).trans (h₂.trans (hl.counts item hitem))
  · show st₃.fakeDistribution = _
    rw [hfake]
    simp only [hdummies, hdummyKey]
    rfl
  · intro key hkey
    apply (hkeys key).mpr
    right
    rw [hnew]
    exact (hfrequencies key).mpr (.inl hkey)
  · intro key hkey
    rcases (hkeys key).mp hkey with hm | hm
    · rcases missing_of_redistribute hnd hloop hdummy hm with hm | hm
      · exact .inl hm
      · exact .inr (.inl hm)
    · rw [hnew] at hm
      rcases (hfrequencies key).mp hm with hm | hm
      · exact .inl hm
      · exact .inr (.inr hm)

/-- What the changes keep: `alpha_` is `1/n`, and the frequencies are those
of the keys. -/
structure OverKeys (keys : List Str) (st : Proxy) : Prop where
  alpha : st.alpha = 1 / keys.length
  frequencies : ∀ key ∈ st.newKeyToFrequency, key ∈ keys

theorem OverKeys.init {st₀ st : Proxy} {dist : Distribution} {delta : ℚ} {values : Nat → Str}
    (hnew : st₀.newKeyToFrequency = ∅)
    (h : st₀.init dist (1 / dist.items.length) delta values = .ok st) :
    OverKeys dist.items st where
  alpha := by rw [createReplicas_rest h]
  frequencies := by
    rw [createReplicas_rest h]
    intro key hkey
    exact absurd (hnew ▸ hkey) Finmap.notMem_empty

/-- A call that returns has done as much. -/
theorem redistributed_of_updateDistribution {st st' : Proxy} {d : Distribution}
    (hnd : (d.pairs.map Prod.fst).Nodup) (h : st.updateDistribution d = .ok st') :
    Redistributed st d st' := by
  rw [updateDistribution_eq] at h
  obtain ⟨s, hredist, h⟩ := bind_eq_ok.mp h
  obtain ⟨-, -, hswap⟩ := bind_eq_ok.mp h
  have hr := redistribute_spec hnd hredist
  rw [(performSwapping_spec hswap).1]
  exact ⟨hr.alpha, hr.real, hr.dummyKeys, hr.counts, hr.pMax, hr.fake, hr.frequencies, hr.entered,
    hr.known, hr.bounded⟩

section Change

variable {keys : List Str} {st st' : Proxy} {d : Distribution}

theorem Redistributes.redistributed (hnd : keys.Nodup) (hs : Redistributes keys st d st') :
    ∃ missing : UpdateCache, (∀ key ∈ missing, key ∈ keys) ∧
      Redistributed { st with missingNewReplicas := missing } d st' := by
  obtain ⟨hd, missing, s, labels, hmissing, hredist, rfl⟩ := hs
  have hr := redistribute_spec (hd.pairs_nodup hnd) hredist
  exact ⟨missing, hmissing, hr.alpha, hr.real, hr.dummyKeys, hr.counts, hr.pMax, hr.fake,
    hr.frequencies, hr.entered, hr.known, hr.bounded⟩

/-- **A change** keeps the keys. -/
theorem OverKeys.redistributes (hnd : keys.Nodup) (h : OverKeys keys st)
    (hs : Redistributes keys st d st') : OverKeys keys st' := by
  obtain ⟨missing, hmissing, hr⟩ := hs.redistributed hnd
  refine ⟨hr.alpha.trans h.alpha, ?_⟩
  intro key hkey
  rcases hr.known key hkey with hk | hk | hk
  · exact hs.distribution.mem_pairs_map_fst.mp hk
  · exact hmissing key hk
  · exact h.frequencies key hk

namespace Redistributed

variable (hr : Redistributed st d st') (hd : DistributionOver keys d) (hnd : keys.Nodup)
  (halpha : st.alpha = 1 / keys.length)
include hr hd hnd halpha

/-- Every key has a replica. -/
theorem one_le_replicas : ∀ item ∈ d.pairs, 1 ≤ st'.replicas item.1 := by
  intro item hitem
  rw [hr.counts item hitem]
  exact (hd.callerArguments hnd halpha).one_le_replicaCount (List.of_mem_zip hitem).2

theorem one_le_mul : 1 ≤ (d.items.length : ℚ) * st'.pMax := by
  have hn : (0 : ℚ) < d.items.length := by
    exact_mod_cast (hd.callerArguments hnd halpha).keys_pos
  have hM := hr.pMax
  rwa [div_le_iff₀' hn] at hM

theorem pMax_pos : 0 < st'.pMax := by
  have hn : (0 : ℚ) < d.items.length := by
    exact_mod_cast (hd.callerArguments hnd halpha).keys_pos
  exact lt_of_lt_of_le (one_div_pos.mpr hn) hr.pMax

/-- There are `2n` replicas. -/
theorem replicas_total : (d.pairs.map fun item => (st'.replicas item.1 : ℚ)).sum + st'.dummyKeys
    = 2 * d.items.length := by
  have hfewer := hd.sum_replicaCount hnd halpha
  have hsum : (d.pairs.map fun item => st'.replicas item.1).sum = st.newRealReplicas d :=
    congrArg List.sum (List.map_congr_left hr.counts)
  have hnat : (d.pairs.map fun item => st'.replicas item.1).sum + st'.dummyKeys
      = 2 * d.items.length := by
    rw [hsum, hr.dummyKeys, newDummyKeys]
    omega
  have hcast := congrArg (Nat.cast (R := ℚ)) hnat
  push_cast [Nat.cast_list_sum, List.map_map] at hcast
  exact hcast

/-- **No weight is negative**: a key has enough replicas for its probability. -/
theorem weights_nonneg : ∀ w ∈ st'.fakeDistribution.probabilities, 0 ≤ w := by
  intro w hw
  rw [hr.fake] at hw
  have hpos := hr.pMax_pos hd hnd halpha
  rcases List.mem_append.mp hw with hw | hw
  · obtain ⟨item, hitem, rfl⟩ := List.mem_map.mp hw
    apply sub_nonneg.mpr
    have hp : 0 < item.2 := hd.positive _ (List.of_mem_zip hitem).2
    have hceil : item.2 * d.items.length ≤ st'.replicas item.1 := by
      rw [hr.counts item hitem]
      have hle : item.2 / st.alpha ≤ replicaCount st.alpha item.2 := Nat.le_ceil _
      have hdiv : item.2 / st.alpha = item.2 * d.items.length := by
        rw [halpha, ← hd.length_eq, div_div_eq_mul_div, div_one]
      rwa [hdiv] at hle
    calc item.2 ≤ item.2 * (d.items.length * st'.pMax) :=
          le_mul_of_one_le_right hp.le (hr.one_le_mul hd hnd halpha)
      _ = item.2 * d.items.length * st'.pMax := by ring
      _ ≤ st'.replicas item.1 * st'.pMax := mul_le_mul_of_nonneg_right hceil hpos.le
  · rw [List.mem_singleton.mp hw]
    positivity

/-- **The total**: what the real accesses leave of all replicas. -/
theorem weights_sum : st'.fakeDistribution.probabilities.sum
    = 2 * d.items.length * st'.pMax - 1 := by
  have hprobabilities : d.pairs.map Prod.snd = d.probabilities := List.map_snd_zip hd.lengths.ge
  have hsum := Smoothing.sum_excess (M := st'.pMax)
    (d.pairs.map fun item => ((st'.replicas item.1 : ℚ), item.2))
  simp only [List.map_map, Function.comp_def, Smoothing.excess] at hsum
  rw [hr.fake, List.sum_append, List.sum_singleton, hsum, hprobabilities, hd.normalised,
    ← hr.replicas_total hd hnd halpha]
  ring

/-- The coin is tossed with the number of keys. -/
theorem coin (hknown : ∀ key ∈ st'.newKeyToFrequency, key ∈ keys) :
    st'.isTrueDistribution = .coin (1 / (2 * st'.pMax * d.items.length)) .done := by
  have hset : st'.keyToFrequency.keys = keys.toFinset := by
    ext key
    rw [Finmap.mem_keys, List.mem_toFinset, hr.frequencies]
    constructor
    · exact hknown key
    · intro hkey
      exact hr.entered key (hd.mem_pairs_map_fst.mpr hkey)
  have hcard : st'.keyToFrequency.keys.card = d.items.length := by
    rw [hset, List.toFinset_card_of_nodup hnd, hd.length_eq]
  have hne : 2 * st'.pMax * (d.items.length : ℚ) ≠ 0 := by
    have := hr.one_le_mul hd hnd halpha
    nlinarith
  rw [isTrueDistribution, hcard, divide, if_pos hne]
  rfl

/-- **Smoothing**: after a change every replica is hit equally often. -/
theorem resmoothed (hknown : ∀ key ∈ st'.newKeyToFrequency, key ∈ keys) : Resmoothed d st' := by
  have hn : (0 : ℚ) < d.items.length := by
    exact_mod_cast (hd.callerArguments hnd halpha).keys_pos
  have hM : 1 < 2 * (d.items.length : ℚ) * st'.pMax := by
    have := hr.one_le_mul hd hnd halpha
    linarith
  have hsum := hr.weights_sum hd hnd halpha
  have hc : 2 * st'.pMax * (d.items.length : ℚ) = 2 * d.items.length * st'.pMax := by ring
  have hdummies : (st'.dummyKeys : ℚ) ≠ 0 := by
    have hfewer := hd.sum_replicaCount hnd halpha
    have hpos : st'.dummyKeys ≠ 0 := by
      rw [hr.dummyKeys, newDummyKeys]
      omega
    exact_mod_cast hpos
  exact
    { real := hr.real
      counts := by
        intro item hitem
        rw [hr.alpha]
        exact ⟨hr.counts item hitem, hr.one_le_replicas hd hnd halpha item hitem⟩
      fake := hr.fake
      nonneg := hr.weights_nonneg hd hnd halpha
      total := ⟨hsum, by linarith⟩
      coin := hr.coin hd hnd halpha hknown
      flat := by
        intro item hitem
        have hr1 : (st'.replicas item.1 : ℚ) ≠ 0 := by
          have := hr.one_le_replicas hd hnd halpha item hitem
          exact_mod_cast (by omega : st'.replicas item.1 ≠ 0)
        rw [hsum, hc]
        exact Smoothing.mix_excess (by linarith) hM hr1 item.2
      flatDummy := by
        rw [hsum, hc]
        have := Smoothing.mix_excess (by linarith) hM hdummies 0
        rw [Smoothing.excess, mul_zero, zero_div, zero_add, sub_zero] at this
        exact this }

end Redistributed

/-- A call that returns is such a change. -/
theorem Redistributes.of_updateDistribution (hd : DistributionOver keys d)
    (hmissing : ∀ key ∈ st.missingNewReplicas, key ∈ keys) (h : st.updateDistribution d = .ok st') :
    Redistributes keys st d st' := by
  rw [updateDistribution_eq] at h
  obtain ⟨s, hredist, h⟩ := bind_eq_ok.mp h
  obtain ⟨-, -, hswap⟩ := bind_eq_ok.mp h
  exact ⟨hd, st.missingNewReplicas, s, st'.replicaToLabel, hmissing, hredist,
    (performSwapping_spec hswap).1⟩

end Change

/-- **Any number of changes**: after each of them, however the swapping of
those before ended, the replicas are smooth. -/
theorem redistributes_resmoothed {st₀ st : Proxy} {dist : Distribution} {delta : ℚ}
    {values : Nat → Str} (hnd : dist.items.Nodup) (hnew : st₀.newKeyToFrequency = ∅)
    (hinit : st₀.init dist (1 / dist.items.length) delta values = .ok st)
    {earlier : List Distribution} {st₁ : Proxy}
    (hearlier : Run (Redistributes dist.items) st earlier st₁)
    {d : Distribution} {st' : Proxy} (h : Redistributes dist.items st₁ d st') :
    Resmoothed d st' := by
  have h₁ : OverKeys dist.items st₁ :=
    hearlier.invariant (I := fun _ st => OverKeys dist.items st) (.init hnew hinit)
      fun _ hi hs => hi.redistributes hnd hs
  obtain ⟨missing, -, hr⟩ := h.redistributed hnd
  exact hr.resmoothed h.distribution hnd h₁.alpha (h₁.redistributes hnd h).frequencies

/-- An entry for `k`, as accesses may leave it. -/
def missingK : UpdateCache := (∅ : UpdateCache).insert ['k'] ([], [false])

theorem missingK_known : ∀ key ∈ missingK, key ∈ evenKeys.items := by
  intro key hkey
  rcases Finmap.mem_insert.mp hkey with rfl | hkey
  · simp [evenKeys]
  · exact absurd hkey Finmap.notMem_empty

/-- The same distribution again, and then one that lets `j` grow. -/
theorem redistributes_resmoothed_twoKeys :
    ∃ st st₁ st', blank.init evenKeys (1 / evenKeys.items.length) (1 / 2) firstStrings = .ok st ∧
      Run (Redistributes evenKeys.items) st [evenKeys] st₁ ∧
      Redistributes evenKeys.items st₁ unevenKeys st' ∧ Resmoothed unevenKeys st' := by
  have hruns : ((do
      let st ← blank.init evenKeys (1 / evenKeys.items.length) (1 / 2) firstStrings
      let s ← { st with missingNewReplicas := ∅ }.redistribute evenKeys
      { s.proxy with missingNewReplicas := missingK }.redistribute unevenKeys) :
        Except Fault Swapping).map (fun _ => decide True) = .ok true := by decide +kernel
  obtain ⟨s', hs', -⟩ := exists_ok_of_decide hruns
  simp only [bind_eq_ok] at hs'
  obtain ⟨st, hinit, s, hs, hs'⟩ := hs'
  have hfirst : Redistributes evenKeys.items st evenKeys s.proxy :=
    ⟨evenKeys_over, ∅, s, s.proxy.replicaToLabel,
      fun _ hkey => absurd hkey Finmap.notMem_empty, hs, rfl⟩
  have hsecond : Redistributes evenKeys.items s.proxy unevenKeys s'.proxy :=
    ⟨unevenKeys_over, missingK, s', s'.proxy.replicaToLabel, missingK_known, hs', rfl⟩
  exact ⟨st, s.proxy, s'.proxy, hinit, .single hfirst, hsecond,
    redistributes_resmoothed (by decide) rfl hinit (.single hfirst) hsecond⟩

/-- **The failing content**: an entry for the dummy key passes the assertion
and enters `new_key_to_frequency_`. The coin counts three keys, and the
replica of `j` is hit with probability 1/6. -/
theorem coin_counts_dummy :
    ∃ st s, blank.init evenKeys (1 / evenKeys.items.length) (1 / 2) firstStrings = .ok st ∧
      { st with missingNewReplicas :=
        (∅ : UpdateCache).insert ['d'] ([], [false, false]) }.redistribute evenKeys = .ok s ∧
      s.proxy.dummyKey = ['d'] ∧ s.proxy.pMax = 1 / 2 ∧
      s.proxy.isTrueDistribution = .coin (1 / 3) .done ∧
      1 / 3 * (1 / 2) / (s.proxy.replicas ['j'] : ℚ) +
        (1 - 1 / 3) * (s.proxy.replicas ['j'] * s.proxy.pMax - 1 / 2) /
          (s.proxy.fakeDistribution.probabilities.sum * s.proxy.replicas ['j']) = 1 / 6 ∧
      ¬ Resmoothed evenKeys s.proxy := by
  have hruns : ((do
      let st ← blank.init evenKeys (1 / evenKeys.items.length) (1 / 2) firstStrings
      { st with missingNewReplicas :=
        (∅ : UpdateCache).insert ['d'] ([], [false, false]) }.redistribute evenKeys) :
        Except Fault Swapping).map (fun s => decide (s.proxy.dummyKey = ['d'] ∧
          s.proxy.pMax = 1 / 2 ∧ s.proxy.keyToFrequency.keys.card = 3 ∧
          s.proxy.replicas ['j'] = 1 ∧ s.proxy.fakeDistribution.probabilities.sum = 1))
      = .ok true := by decide +kernel
  obtain ⟨s, hs, hkey, hp, hcard, hone, hsum⟩ := exists_ok_of_decide hruns
  obtain ⟨st, hinit, hs⟩ := bind_eq_ok.mp hs
  have hcoin : s.proxy.isTrueDistribution = .coin (1 / 3) .done := by
    rw [isTrueDistribution, hcard, hp, divide, if_pos (by norm_num)]
    norm_num [prob]
  refine ⟨st, s, hinit, hs, hkey, hp, hcoin, by rw [hone, hp, hsum]; norm_num, ?_⟩
  intro h
  have hc := h.coin
  rw [hcoin, hp] at hc
  obtain ⟨hc, -⟩ := Sampler.coin.inj hc
  norm_num [evenKeys] at hc

end Proxy

end Pancake
