import Pancake.Redistribution

/-!
# Accesses while replicas are missing

A key with missing replicas has its real accesses confined to the others, and
`p_initialized` is there to make up for it with the fake ones. It is computed
from the key's frequency, which `key_to_frequency_` holds as an `int`: a
probability arrives there as zero, and the fake accesses come out uniform.
-/

namespace Pancake

/-! ## The law of a draw -/

/-- `rand() % n` -/
theorem prob_randMod {n : Nat} (hn : 0 < n) (i : Nat) :
    (randMod n).prob (· = .ok i) = if i < n then 1 / (n : ℚ) else 0 := by
  rw [randMod, if_neg (by omega), Sampler.prob, Sampler.expect]
  simp only [Sampler.expect_done, Except.ok.injEq]
  rw [Finset.sum_ite_eq']
  by_cases hi : i < n
  · rw [if_pos (Finset.mem_range.mpr hi), if_pos hi]
  · rw [if_neg (fun hc => hi (Finset.mem_range.mp hc)), if_neg hi, zero_div]

/-- `base + rand() % n` -/
theorem prob_map_randMod {n : Nat} (hn : 0 < n) (base i : Nat) :
    ((randMod n).map (Except.map (base + ·))).prob (· = .ok i) =
      if base ≤ i ∧ i < base + n then 1 / (n : ℚ) else 0 := by
  rw [Sampler.prob, Sampler.expect_map]
  by_cases hi : base ≤ i
  · have hshift : ∀ r : Except Fault Nat, (if r.map (base + ·) = .ok i then (1 : ℚ) else 0) =
        if r = .ok (i - base) then 1 else 0 := by
      intro r
      cases r with
      | error e => simp [Except.map]
      | ok j =>
          have hj : base + j = i ↔ j = i - base := by omega
          simp [Except.map, hj]
    simp only [hshift]
    rw [← Sampler.prob, prob_randMod hn]
    by_cases hlt : i < base + n
    · rw [if_pos (by omega), if_pos ⟨hi, hlt⟩]
    · rw [if_neg (by omega), if_neg fun hc => hlt hc.2]
  · have hnever : ∀ r : Except Fault Nat,
        (if r.map (base + ·) = .ok i then (1 : ℚ) else 0) = 0 := by
      intro r
      cases r with
      | error e => simp [Except.map]
      | ok j => simp [Except.map, show base + j ≠ i by omega]
    simp only [hnever]
    rw [randMod, if_neg (by omega), Sampler.expect]
    simp [hi]

/-- Whatever the coin, if both sides are the same. -/
theorem expect_prob_const (q : Quotient) (c : ℚ) : (prob q).expect (fun _ => c) = c := by
  have hboth : ∀ p : ℚ, Sampler.clamp p * c + (1 - Sampler.clamp p) * c = c := fun p => by ring
  cases q <;> exact hboth _

/-- A probability truncates to zero. -/
theorem truncate_of_lt_one {f : ℚ} (h0 : 0 < f) (h1 : f < 1) : truncate f = 0 := by
  rw [truncate, if_pos h0.le]
  exact Int.floor_eq_zero_iff.mpr ⟨h0.le, h1⟩

namespace Proxy

/-- The probability that `sample_a_replica`, called as `execute_batch` calls
it, returns `i`. -/
def accessProb (st : Proxy) (key : Str) (real : Bool) (i : Nat) : ℚ :=
  (st.missingNewReplicas.sampleAReplica key (st.replicas key) real (st.frequency key)
    st.pMax).prob (· = .ok i)

/-- Some replicas of the key are missing: those from `a` on. Its probability
`f` has been assigned to its entry of `key_to_frequency_`. -/
structure MissingFrom (st : Proxy) (key : Str) (a : Nat) (f : ℚ) : Prop where
  entry : ∃ value bitVec, st.missingNewReplicas.lookup key = some (value, bitVec) ∧
    UpdateCache.numLeadingZeros bitVec = a
  initialized : 1 ≤ a
  missing : a < st.replicas key
  probability : 0 < f ∧ f < 1
  frequency : st.frequency key = truncate f

/-- Real and fake accesses are drawn from the key's replicas, real ones from
those that are not missing, and together they go to every replica equally
often. -/
structure SmoothWhileMissing (st : Proxy) (key : Str) (a : Nat) (f : ℚ) : Prop where
  law : ∀ real, (∀ i, 0 ≤ st.accessProb key real i) ∧
    ∑ i ∈ Finset.range (st.replicas key), st.accessProb key real i = 1
  confined : ∀ i, a ≤ i → st.accessProb key true i = 0
  smooth : ∀ i < st.replicas key,
    f * st.accessProb key true i +
      (st.replicas key * st.pMax - f) * st.accessProb key false i = st.pMax

section MissingFrom

variable {st : Proxy} {key : Str} {a : Nat} {f : ℚ}

/-- A real access goes to any replica that is not missing. -/
theorem MissingFrom.accessProb_real (h : st.MissingFrom key a f) (i : Nat) :
    st.accessProb key true i = if i < a then 1 / (a : ℚ) else 0 := by
  obtain ⟨value, bitVec, hl, rfl⟩ := h.entry
  have hle := h.missing
  simp only [accessProb, UpdateCache.sampleAReplica, hl]
  rw [if_neg (by omega), Sampler.prob, Sampler.expect_bind]
  simp only [Bool.or_true, if_true]
  rw [expect_prob_const, ← Sampler.prob, prob_randMod h.initialized]

/-- The frequency being zero, a fake access goes to any replica at all. -/
theorem MissingFrom.accessProb_fake (h : st.MissingFrom key a f) (hp : 0 < st.pMax) (i : Nat) :
    st.accessProb key false i = if i < st.replicas key then 1 / (st.replicas key : ℚ) else 0 := by
  obtain ⟨value, bitVec, hl, ha⟩ := h.entry
  have hlt := h.missing
  have hinit := h.initialized
  have hfrequency : st.frequency key = 0 := by
    rw [h.frequency, truncate_of_lt_one h.probability.1 h.probability.2]
  set r := st.replicas key with hr
  have ha0 : (0 : ℚ) < a := by exact_mod_cast hinit
  have hr0 : (0 : ℚ) < r := by exact_mod_cast (by omega : 0 < r)
  have har : (a : ℚ) < r := by exact_mod_cast hlt
  -- `p_initialized` is the share of the replicas that are not missing
  have hquotient : divide (a * st.pMax - ((0 : Int) : ℚ)) (r * st.pMax - ((0 : Int) : ℚ)) =
      .finite (a / r) := by
    rw [Int.cast_zero, sub_zero, sub_zero, divide, if_pos (by positivity),
      mul_div_mul_right _ _ hp.ne']
  have hclamp : Sampler.clamp (a / r : ℚ) = a / r :=
    Sampler.clamp_of_mem (by positivity) ((div_le_one hr0).mpr har.le)
  have hsub : ((r - a : Nat) : ℚ) = r - a := by push_cast [Nat.cast_sub hlt.le]; ring
  simp only [accessProb, UpdateCache.sampleAReplica, hl, ha, ← hr, hfrequency, hquotient]
  rw [if_neg (by omega), Sampler.prob, Sampler.expect_bind, prob, Sampler.expect, hclamp,
    Sampler.expect_done, Sampler.expect_done]
  simp only [Bool.or_false, if_true, Bool.false_eq_true, if_false]
  rw [← Sampler.prob, ← Sampler.prob, prob_randMod hinit,
    prob_map_randMod (by omega : 0 < r - a), hsub, Nat.add_sub_cancel' hlt.le]
  have hne : (r : ℚ) - a ≠ 0 := by linarith
  by_cases hi : i < a
  · rw [if_pos hi, if_neg (by omega), if_pos (by omega)]
    field_simp
    ring
  · rw [if_neg hi]
    by_cases hir : i < r
    · rw [if_pos ⟨by omega, hir⟩, if_pos hir]
      field_simp
      ring
    · rw [if_neg fun hc => hir hc.2, if_neg hir]
      ring

/-- **Never smooth**: with replicas missing, those that are not are accessed
too often, and the missing ones too rarely. -/
theorem not_smoothWhileMissing (h : st.MissingFrom key a f) (hp : 0 < st.pMax) :
    ¬ st.SmoothWhileMissing key a f := by
  intro hs
  have hinit := h.initialized
  have hmissing := h.missing
  have hsmooth := hs.smooth 0 (by omega)
  rw [h.accessProb_real, h.accessProb_fake hp, if_pos (by omega), if_pos (by omega)] at hsmooth
  have ha0 : (0 : ℚ) < a := by exact_mod_cast hinit
  have har : (a : ℚ) < st.replicas key := by exact_mod_cast hmissing
  have hr0 : (0 : ℚ) < st.replicas key := ha0.trans har
  -- the excess is `f * (1 / a - 1 / r)`
  have hexcess : f * (1 / a) + (st.replicas key * st.pMax - f) * (1 / st.replicas key) =
      st.pMax + f * (1 / a - 1 / st.replicas key) := by
    field_simp
    ring
  have hpos : 0 < f * (1 / a - 1 / st.replicas key) :=
    mul_pos h.probability.1 (sub_pos.mpr (one_div_lt_one_div_of_lt ha0 har))
  rw [hexcess] at hsmooth
  linarith

end MissingFrom

/-! ## Two instances -/

/-- The first key is three times as likely as the others were. -/
def steepLetters : Distribution where
  items := letters
  probabilities := 3 / 25 :: List.replicate 24 (11 / 300)

/-- The first key grows twice before it is accessed: two of its three replicas
count as initialised. -/
theorem not_smoothWhileMissing_grownTwice :
    ∃ st₀ st₁ st₂, blank.init evenLetters (1 / 25) (1 / 2) firstStrings = .ok st₀ ∧
      st₀.updateDistribution tiltedLetters = .ok st₁ ∧
      st₁.updateDistribution steepLetters = .ok st₂ ∧
      st₂.MissingFrom ['A'] 2 (3 / 25) ∧ ¬ st₂.SmoothWhileMissing ['A'] 2 (3 / 25) := by
  obtain ⟨r, hrun, hl, hcount, hfrequency, hpMax⟩ :
      ∃ r, (do let st₀ ← blank.init evenLetters (1 / 25) (1 / 2) firstStrings
               let st₁ ← st₀.updateDistribution tiltedLetters
               let st₂ ← st₁.updateDistribution steepLetters
               Except.ok (st₀, st₁, st₂)) = .ok r ∧
        r.2.2.missingNewReplicas.lookup ['A'] = some ([], [false, false, true]) ∧
        r.2.2.replicas ['A'] = 3 ∧ r.2.2.frequency ['A'] = truncate (3 / 25) ∧
        0 < r.2.2.pMax :=
    exists_ok_of_decide (by decide +kernel)
  simp only [bind_eq_ok] at hrun
  obtain ⟨st₀, hinit, st₁, hfirst, st₂, hsecond, hr⟩ := hrun
  cases hr
  have hmissing : st₂.MissingFrom ['A'] 2 (3 / 25) :=
    { entry := ⟨_, _, hl, rfl⟩
      initialized := by norm_num
      missing := by rw [hcount]; norm_num
      probability := by norm_num
      frequency := hfrequency }
  exact ⟨st₀, st₁, st₂, hinit, hfirst, hsecond, hmissing, not_smoothWhileMissing hmissing hpMax⟩

/-- A key of probability 1/4, one of its two replicas missing, where the
largest probability is 1/2. -/
def halfMissing : Proxy :=
  { blank with
    missingNewReplicas := (∅ : UpdateCache).insert ['k'] ([], [false, true])
    keyToNumberOfReplicas := (∅ : UnorderedMap Nat).insert ['k'] 2
    keyToFrequency := (∅ : UnorderedMap Int).insert ['k'] (truncate (1 / 4))
    pMax := 1 / 2 }

/-- **The failing state**: the replica that is there is accessed with
probability 5/8, where 1/2 would be smooth. -/
theorem halfMissing_not_smooth :
    halfMissing.MissingFrom ['k'] 1 (1 / 4) ∧ 1 / 4 ≤ halfMissing.pMax ∧
      1 / 4 * halfMissing.accessProb ['k'] true 0 +
        (2 * halfMissing.pMax - 1 / 4) * halfMissing.accessProb ['k'] false 0 = 5 / 8 ∧
      ¬ halfMissing.SmoothWhileMissing ['k'] 1 (1 / 4) := by
  have hcount : halfMissing.replicas ['k'] = 2 := by decide +kernel
  have hpMax : halfMissing.pMax = 1 / 2 := rfl
  have hmissing : halfMissing.MissingFrom ['k'] 1 (1 / 4) :=
    { entry := ⟨[], [false, true], Finmap.lookup_insert _, rfl⟩
      initialized := by norm_num
      missing := by rw [hcount]; norm_num
      probability := by norm_num
      frequency := by decide +kernel }
  have htotal : 1 / 4 * halfMissing.accessProb ['k'] true 0 +
      (2 * halfMissing.pMax - 1 / 4) * halfMissing.accessProb ['k'] false 0 = 5 / 8 := by
    rw [hmissing.accessProb_real, hmissing.accessProb_fake (by rw [hpMax]; norm_num), hcount,
      hpMax]
    norm_num
  refine ⟨hmissing, by rw [hpMax]; norm_num, htotal, ?_⟩
  intro hs
  have hsmooth := hs.smooth 0 (by rw [hcount]; norm_num)
  rw [hcount, Nat.cast_ofNat, htotal, hpMax] at hsmooth
  norm_num at hsmooth

end Proxy

end Pancake
