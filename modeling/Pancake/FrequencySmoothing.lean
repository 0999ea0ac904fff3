import Pancake.Consistent
import Pancake.Lib.Smoothing

/-!
# Frequency smoothing at initialisation

With the callers' arguments — positive probabilities summing to one,
`alpha ≥ 1/n` and `delta = 1/(2*n*alpha)` — `create_replicas` makes `2n`
replicas and a fake distribution such that real and fake accesses mixed with
weight `delta` hit each replica with probability `1/(2n)`.
-/

namespace Pancake

/-- What the callers of `init` pass, for keys `dist.items`. -/
structure CallerArguments (dist : Distribution) (alpha delta : ℚ) : Prop where
  lengths : dist.items.length = dist.probabilities.length
  keys : dist.items.Nodup
  positive : ∀ p ∈ dist.probabilities, 0 < p
  normalised : dist.probabilities.sum = 1
  alphaBound : 1 / (dist.items.length : ℚ) ≤ alpha
  deltaEq : delta = 1 / (2 * dist.items.length * alpha)

namespace CallerArguments

variable {dist : Distribution} {alpha delta : ℚ}

theorem keys_pos (h : CallerArguments dist alpha delta) : 0 < dist.items.length := by
  rw [h.lengths, List.length_pos_iff]
  intro hc
  have := h.normalised
  simp [hc] at this

theorem alpha_pos (h : CallerArguments dist alpha delta) : 0 < alpha :=
  lt_of_lt_of_le (one_div_pos.mpr (by exact_mod_cast h.keys_pos)) h.alphaBound

theorem one_le_mul (h : CallerArguments dist alpha delta) :
    1 ≤ (dist.items.length : ℚ) * alpha := by
  have hn : (0 : ℚ) < dist.items.length := by exact_mod_cast h.keys_pos
  have := h.alphaBound
  rwa [div_le_iff₀' hn] at this

theorem delta_pos (h : CallerArguments dist alpha delta) : 0 < delta := by
  rw [h.deltaEq, one_div_pos]
  linarith [h.one_le_mul]

theorem delta_lt_one (h : CallerArguments dist alpha delta) : delta < 1 := by
  have := h.one_le_mul
  rw [h.deltaEq, div_lt_one (by linarith)]
  linarith

/-- The share of one replica. -/
theorem delta_mul_alpha (h : CallerArguments dist alpha delta) :
    delta * alpha = 1 / (2 * dist.items.length) := by
  have hα : alpha ≠ 0 := h.alpha_pos.ne'
  have hn : (dist.items.length : ℚ) ≠ 0 := by exact_mod_cast h.keys_pos.ne'
  rw [h.deltaEq]
  field_simp

/-- Every key has a replica. -/
theorem one_le_replicaCount (h : CallerArguments dist alpha delta) {p : ℚ}
    (hp : p ∈ dist.probabilities) : 1 ≤ Proxy.replicaCount alpha p :=
  Nat.one_le_ceil_iff.mpr (div_pos (h.positive p hp) h.alpha_pos)

theorem sum_div (h : CallerArguments dist alpha delta) :
    (dist.probabilities.map (· / alpha)).sum = 1 / alpha := by
  simp only [div_eq_mul_inv]
  rw [List.sum_map_mul_right, List.map_id', h.normalised]

/-- **Between `n` and `2n`**: how many replicas the keys get. -/
theorem sum_replicaCount (h : CallerArguments dist alpha delta) :
    dist.items.length ≤ (dist.probabilities.map (Proxy.replicaCount alpha)).sum ∧
      (dist.probabilities.map (Proxy.replicaCount alpha)).sum < 2 * dist.items.length := by
  have hmap : (dist.probabilities.map (Proxy.replicaCount alpha))
      = (dist.probabilities.map (· / alpha)).map Nat.ceil := by
    rw [List.map_map]
    rfl
  have hpos : ∀ x ∈ dist.probabilities.map (· / alpha), 0 < x := by
    intro x hx
    obtain ⟨p, hp, rfl⟩ := List.mem_map.mp hx
    exact div_pos (h.positive p hp) h.alpha_pos
  rw [hmap]
  constructor
  · have := Smoothing.length_le_sum_ceil hpos
    rwa [List.length_map, ← h.lengths] at this
  · have hne : dist.probabilities.map (· / alpha) ≠ [] := by
      rw [← List.length_pos_iff, List.length_map, ← h.lengths]
      exact h.keys_pos
    have hlt := Smoothing.sum_ceil_lt hne fun x hx => (hpos x hx).le
    have hle : 1 / alpha ≤ dist.items.length := by
      rw [div_le_iff₀ h.alpha_pos]
      exact h.one_le_mul
    rw [h.sum_div, List.length_map, ← h.lengths] at hlt
    have : ((((dist.probabilities.map (· / alpha)).map Nat.ceil).sum : ℕ) : ℚ)
        < ((2 * dist.items.length : ℕ) : ℚ) := by
      rw [Nat.cast_mul, Nat.cast_ofNat]
      linarith
    exact Nat.cast_lt.mp this

end CallerArguments

namespace Proxy

/-- The replicas of a proxy are smooth for the distribution: how many there
are, and that mixing real and fake accesses with weight `delta` is flat. -/
structure Smooth (dist : Distribution) (alpha delta : ℚ) (st : Proxy) : Prop where
  counts : ∀ key p, (key, p) ∈ dist.pairs →
    1 ≤ ⌈p / alpha⌉₊ ∧ (key ≠ st.dummyKey → st.replicas key = ⌈p / alpha⌉₊)
  dummies : 1 ≤ st.dummyKeys ∧ st.dummyKeys ≤ dist.items.length ∧
    st.replicas st.dummyKey = st.dummyKeys
  total : (dist.probabilities.map fun p => ⌈p / alpha⌉₊).sum + st.dummyKeys
    = 2 * dist.items.length
  fakeItems : st.fakeDistribution.items = dist.items ++ [st.dummyKey] ∧
    st.fakeDistribution.probabilities.length = dist.items.length + 1
  fakeWeights : (∀ w ∈ st.fakeDistribution.probabilities, 0 ≤ w) ∧
    st.fakeDistribution.probabilities.sum = 1
  flat : ∀ (j : Nat) (key : Str) (p : ℚ), dist.pairs[j]? = some (key, p) →
    ∃ w, st.fakeDistribution.pairs[j]? = some (key, w) ∧
      delta * p / ⌈p / alpha⌉₊ + (1 - delta) * w / ⌈p / alpha⌉₊ = 1 / (2 * dist.items.length)
  flatDummy : ∃ w, st.fakeDistribution.pairs[dist.items.length]? = some (st.dummyKey, w) ∧
    (1 - delta) * w / st.dummyKeys = 1 / (2 * dist.items.length)

theorem map_count_keyBlocks (alpha : ℚ) (values : Nat → Str) (items : List (Str × ℚ)) (index : Nat) :
    (keyBlocks alpha values index items).map Block.count
      = (items.map Prod.snd).map (replicaCount alpha) := by
  induction items generalizing index with
  | nil => rfl
  | cons item items ih => simp [keyBlocks, ih]

/-- The blocks of the keys have the replicas of the probabilities. -/
theorem sum_count_keyBlocks {dist : Distribution}
    (h : dist.items.length = dist.probabilities.length) (alpha : ℚ) (values : Nat → Str) :
    ((keyBlocks alpha values 0 dist.pairs).map Block.count).sum
      = (dist.probabilities.map (replicaCount alpha)).sum := by
  rw [map_count_keyBlocks, Distribution.pairs, List.map_snd_zip h.ge]

/-- The dummy count is the difference, unwrapped. -/
theorem dummyCount_eq {st : Proxy} {delta : ℚ}
    (h : CallerArguments st.realDistribution st.alpha delta) (values : Nat → Str) :
    (st.realDistribution.probabilities.map (replicaCount st.alpha)).sum + st.dummyCount values
        = 2 * st.realDistribution.items.length ∧
      1 ≤ st.dummyCount values ∧ st.dummyCount values ≤ st.realDistribution.items.length := by
  obtain ⟨hlo, hhi⟩ := h.sum_replicaCount
  rw [dummyCount, sum_count_keyBlocks h.lengths, sizeSub, if_pos hhi.le]
  omega

theorem fakeWeight_eq {alpha : ℚ} (delta : ℚ) {p : ℚ} (h : 1 ≤ replicaCount alpha p) :
    fakeWeight alpha delta p = Smoothing.fake alpha delta (replicaCount alpha p) p := by
  have hr : (replicaCount alpha p : ℚ) ≠ 0 := by exact_mod_cast (by omega : replicaCount alpha p ≠ 0)
  rw [fakeWeight, Smoothing.fake, mul_sub, mul_div_cancel₀ _ hr]

theorem exists_keyBlock (alpha : ℚ) (values : Nat → Str) {items : List (Str × ℚ)} {key : Str}
    {p : ℚ} (h : (key, p) ∈ items) : ∀ index : Nat,
    ∃ b ∈ keyBlocks alpha values index items, b.key = key ∧ b.count = replicaCount alpha p := by
  induction items with
  | nil => simp at h
  | cons item items ih =>
      intro index
      rcases List.mem_cons.mp h with rfl | h
      · exact ⟨_, List.mem_cons_self .., rfl, rfl⟩
      · obtain ⟨b, hb, hk⟩ := ih h (index + 1)
        exact ⟨b, List.mem_cons_of_mem _ hb, hk⟩

/-- The replica counts `create_replicas` records. -/
theorem Created.counts_eq {st st' : Proxy} {values : Nat → Str} {delta : ℚ}
    (hc : Created st values st') (h : CallerArguments st.realDistribution st.alpha delta) :
    (∀ key p, (key, p) ∈ st.realDistribution.pairs → key ≠ st.dummyKey →
      st'.replicas key = replicaCount st.alpha p) ∧
    st'.replicas st.dummyKey = st.dummyCount values := by
  have hd : st.dummyCount values ≠ 0 := by
    have := (dummyCount_eq h values).2.1
    omega
  have hblocks : st.allBlocks values = keyBlocks st.alpha values 0 st.realDistribution.pairs
      ++ [⟨st.dummyKey, st.dummyCount values, values st.realDistribution.pairs.length⟩] := by
    rw [allBlocks, dummyBlocks, if_neg hd]
  have hcounts := hc.counts
  rw [hblocks, insertCounts_append] at hcounts
  constructor
  · intro key p hm hne
    obtain ⟨b, hb, rfl, hcount⟩ := exists_keyBlock st.alpha values hm 0
    have hnd : ((keyBlocks st.alpha values 0 st.realDistribution.pairs).map Block.key).Nodup := by
      rw [keyBlocks_map_key, pairs_map_fst h.lengths]
      exact h.keys
    rw [Proxy.replicas, hcounts, UnorderedMap.at_,
      lookup_insertCounts_of_notMem (by simpa using hne), lookup_insertCounts hnd hb, ← hcount]
    rfl
  · rw [Proxy.replicas, hcounts]
    exact UnorderedMap.at_insert _ _ _

/-- The fake weights are those of the scheme. -/
theorem fakeWeights_eq {st : Proxy} (h : CallerArguments st.realDistribution st.alpha st.delta)
    (values : Nat → Str) :
    st.fakeWeights values = (st.realDistribution.probabilities.map fun p =>
        Smoothing.fake st.alpha st.delta (replicaCount st.alpha p) p)
      ++ [Smoothing.dummyFake st.alpha st.delta (st.dummyCount values)] := by
  have hd : st.dummyCount values ≠ 0 := by
    have := (dummyCount_eq h values).2.1
    omega
  rw [fakeWeights, if_neg hd]
  congr 1
  have hsnd : st.realDistribution.pairs.map Prod.snd = st.realDistribution.probabilities :=
    List.map_snd_zip h.lengths.ge
  rw [← hsnd, List.map_map]
  refine List.map_congr_left fun item hitem => ?_
  have hp : item.2 ∈ st.realDistribution.probabilities := by
    rw [← hsnd]
    exact List.mem_map_of_mem hitem
  exact fakeWeight_eq st.delta (h.one_le_replicaCount hp)

/-- The fake weights are a distribution. -/
theorem fakeWeights_sum {st : Proxy} (h : CallerArguments st.realDistribution st.alpha st.delta)
    (values : Nat → Str) :
    (∀ w ∈ st.fakeWeights values, 0 ≤ w) ∧ (st.fakeWeights values).sum = 1 := by
  have h0 := h.delta_pos
  have h1 := h.delta_lt_one
  obtain ⟨htotal, -, -⟩ := dummyCount_eq h values
  rw [fakeWeights_eq h]
  constructor
  · intro w hw
    rcases List.mem_append.mp hw with hw | hw
    · obtain ⟨p, hp, rfl⟩ := List.mem_map.mp hw
      refine Smoothing.fake_nonneg h0 h1 ?_
      rw [← div_le_iff₀ h.alpha_pos]
      exact Nat.le_ceil _
    · rw [List.mem_singleton.mp hw, Smoothing.dummyFake_eq]
      exact Smoothing.fake_nonneg h0 h1 (mul_nonneg (Nat.cast_nonneg _) h.alpha_pos.le)
  · have hsum := Smoothing.sum_fake (α := st.alpha) h0 h1
      (st.realDistribution.probabilities.map fun p => ((replicaCount st.alpha p : ℚ), p))
      (st.dummyCount values : ℚ)
    simp only [List.map_map, Function.comp_def, List.map_id'] at hsum
    rw [List.sum_append, List.sum_singleton]
    refine hsum h.normalised ?_
    have hcast : (st.realDistribution.probabilities.map fun p => (replicaCount st.alpha p : ℚ)).sum
        = (((st.realDistribution.probabilities.map (replicaCount st.alpha)).sum : ℕ) : ℚ) := by
      rw [Nat.cast_list_sum, List.map_map]
      rfl
    have hn : (st.realDistribution.items.length : ℚ) ≠ 0 := by exact_mod_cast h.keys_pos.ne'
    rw [hcast, ← Nat.cast_add, htotal, h.delta_mul_alpha]
    push_cast
    field_simp

/-- **Smoothing**: `init` with the callers' arguments returns a smooth proxy. -/
theorem init_smooth {st₀ : Proxy} {dist : Distribution} {alpha delta : ℚ} {values : Nat → Str}
    (h : CallerArguments dist alpha delta)
    (henc : ∀ i, ∃ c, st₀.encryptionEngine.encrypt (values i) = .ok c) :
    ∃ st, st₀.init dist alpha delta values = .ok st ∧ Smooth dist alpha delta st := by
  obtain ⟨st, hinit, hc⟩ := init_created dist alpha delta henc
  set st₁ := st₀.takeArguments dist alpha delta with hst₁
  have h₁ : CallerArguments st₁.realDistribution st₁.alpha st₁.delta := h
  obtain ⟨htotal, hd1, hdn⟩ := dummyCount_eq h₁ values
  obtain ⟨hkeys, hdummy⟩ := hc.counts_eq h₁
  have hdk : st.dummyKey = st₀.dummyKey := by rw [hc.rest]
  have hdks : st.dummyKeys = st₁.dummyCount values := by rw [hc.rest]
  have hfake : st.fakeDistribution
      = { items := dist.items ++ [st₀.dummyKey], probabilities := st₁.fakeWeights values } := by
    rw [hc.rest]
  have hlen : (st₁.fakeWeights values).length = dist.items.length + 1 := by
    rw [fakeWeights_eq h₁]
    simp [hst₁, h.lengths]
  refine ⟨st, hinit, ?_⟩
  exact
    { counts := fun key p hm => by
        have hp : p ∈ dist.probabilities := (List.of_mem_zip hm).2
        exact ⟨h.one_le_replicaCount hp, fun hne => hkeys key p hm (by rwa [hdk] at hne)⟩
      dummies := by
        rw [hdk, hdks]
        exact ⟨hd1, hdn, hdummy⟩
      total := by
        rw [hdks]
        exact htotal
      fakeItems := by rw [hfake, hdk]; exact ⟨rfl, hlen⟩
      fakeWeights := by rw [hfake]; exact fakeWeights_sum h₁ values
      flat := by
        intro j key p hj
        obtain ⟨hji, hjp⟩ := List.getElem?_zip_eq_some.mp hj
        have hp : p ∈ dist.probabilities := List.mem_of_getElem? hjp
        have hr : (replicaCount alpha p : ℚ) ≠ 0 := by
          have := h.one_le_replicaCount hp
          exact_mod_cast (by omega : replicaCount alpha p ≠ 0)
        refine ⟨Smoothing.fake alpha delta (replicaCount alpha p) p, ?_, ?_⟩
        · have hlt : j < dist.probabilities.length := (List.getElem?_eq_some_iff.mp hjp).1
          rw [hfake, Distribution.pairs, List.getElem?_zip_eq_some, fakeWeights_eq h₁]
          refine ⟨?_, ?_⟩
          · rw [List.getElem?_append_left (by rw [h.lengths]; exact hlt), hji]
          · rw [List.getElem?_append_left (by simpa [hst₁] using hlt)]
            simp [hst₁, hjp]
        · rw [← h.delta_mul_alpha]
          exact Smoothing.mix_fake h.delta_pos h.delta_lt_one hr p
      flatDummy := by
        refine ⟨Smoothing.dummyFake alpha delta (st₁.dummyCount values), ?_, ?_⟩
        · rw [hfake, Distribution.pairs, List.getElem?_zip_eq_some, fakeWeights_eq h₁, hdk]
          refine ⟨by simp, ?_⟩
          rw [List.getElem?_append_right (by simp [hst₁, h.lengths])]
          simp [hst₁, h.lengths]
        · rw [hdks, ← h.delta_mul_alpha]
          refine Smoothing.mix_dummy h.delta_pos h.delta_lt_one ?_
          exact_mod_cast (by omega : st₁.dummyCount values ≠ 0) }

/-- Two keys, one four times as likely as the other, at `alpha = 1/2`. -/
theorem init_smooth_twoKeys :
    ∃ st, blank.init { items := [['j'], ['k']], probabilities := [1 / 5, 4 / 5] } (1 / 2) (1 / 2)
        firstStrings = .ok st ∧
      Smooth { items := [['j'], ['k']], probabilities := [1 / 5, 4 / 5] } (1 / 2) (1 / 2) st :=
  init_smooth
    { lengths := rfl
      keys := by decide
      positive := by simp
      normalised := by norm_num
      alphaBound := by norm_num
      deltaEq := by norm_num }
    fun i => (firstStrings_roundTrips i).encrypts

end Proxy

end Pancake
