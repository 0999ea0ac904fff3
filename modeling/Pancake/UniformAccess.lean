import Pancake.SecurityBatch

/-!
# The coin of the running proxy

The initial fake distribution is made for real accesses with weight `delta`,
but the coin that mixes them reads `p_max_`, which only a distribution update
assigns. Until then the coin never shows a fake access, and the dummy
replicas are never hit: fewer than `2n` labels share all the accesses.
-/

namespace Pancake

namespace Proxy

/-! ## Fewer than `2n` labels -/

/-- One key's count replaced by the dummy's leaves the sum below the total. -/
theorem sum_counts_lt {pairs : List (Str × ℚ)} {dummyKey : Str} {f : Str → Nat} {g : ℚ → Nat}
    (hnd : (pairs.map Prod.fst).Nodup) (hf : ∀ key p, (key, p) ∈ pairs → key ≠ dummyKey → f key = g p)
    (hg : ∀ key p, (key, p) ∈ pairs → 1 ≤ g p) (hd : 1 ≤ f dummyKey) :
    ((pairs.map Prod.fst).map f).sum < ((pairs.map Prod.snd).map g).sum + f dummyKey := by
  induction pairs with
  | nil =>
      simp only [List.map_nil, List.sum_nil]
      omega
  | cons pair pairs ih =>
      obtain ⟨key, p⟩ := pair
      simp only [List.map_cons, List.nodup_cons] at hnd
      have hrest := ih hnd.2 (fun k q hq => hf k q (by simp [hq])) fun k q hq => hg k q (by simp [hq])
      have hp := hg key p (by simp)
      simp only [List.map_cons, List.sum_cons]
      by_cases hk : key = dummyKey
      · -- the other keys are not the dummy, so their counts are their own
        have hsame : (pairs.map Prod.fst).map f = (pairs.map Prod.snd).map g := by
          rw [List.map_map, List.map_map]
          refine List.map_congr_left fun q hq => hf q.1 q.2 (by simp [hq]) fun hc => hnd.1 ?_
          rw [hk, ← hc]
          exact List.mem_map_of_mem hq
        rw [hsame, hk]
        omega
      · rw [hf key p (by simp) hk]
        omega

/-- The real keys' replicas do not cover the `2n` labels. -/
theorem Created.sum_replicas_lt {st st' : Proxy} {values : Nat → Str} {delta : ℚ}
    (hc : Created st values st') (h : CallerArguments st.realDistribution st.alpha delta) :
    (st.realDistribution.items.map st'.replicas).sum < 2 * st.realDistribution.items.length := by
  obtain ⟨htotal, hd, -⟩ := dummyCount_eq h values
  obtain ⟨hkeys, hdummy⟩ := hc.counts_eq h
  have hfst := pairs_map_fst h.lengths
  have hsnd : st.realDistribution.pairs.map Prod.snd = st.realDistribution.probabilities :=
    List.map_snd_zip h.lengths.ge
  have hone : ∀ key p, (key, p) ∈ st.realDistribution.pairs → 1 ≤ replicaCount st.alpha p :=
    fun key p hp => h.one_le_replicaCount (List.of_mem_zip hp).2
  have hlt := sum_counts_lt (by rw [hfst]; exact h.keys) hkeys hone (by rw [hdummy]; exact hd)
  rwa [hfst, hsnd, hdummy, htotal] at hlt

/-- Fewer replicas than numbers: some number is the label of none. -/
theorem exists_label_not_hit {keys : List Str} {r : Str → Nat} {n : Nat}
    (lab : Str → Nat → Str) (h : (keys.map r).sum < n) : ∃ l < n, ∀ key ∈ keys, ∀ i < r key, lab key i ≠ toString l := by
  set hit := keys.flatMap fun key => (List.range (r key)).map (lab key) with hhit
  have hcard : hit.toFinset.card < ((Finset.range n).image toString).card := by
    rw [Finset.card_image_of_injective _ toString_injective, Finset.card_range]
    refine lt_of_le_of_lt hit.toFinset_card_le ?_
    rw [hhit, List.length_flatMap]
    simpa using h
  obtain ⟨label, hmem, hnot⟩ := Finset.exists_mem_notMem_of_card_lt_card hcard
  obtain ⟨l, hl, rfl⟩ := Finset.mem_image.mp hmem
  refine ⟨l, Finset.mem_range.mp hl, fun key hkey i hi he => hnot ?_⟩
  rw [List.mem_toFinset, hhit, ← he]
  exact List.mem_flatMap.mpr ⟨key, hkey, List.mem_map_of_mem (List.mem_range.mpr hi)⟩

/-! ## The law of a slot -/

theorem nonnegWeights_prob (q : Quotient) : (prob q).NonnegWeights := by
  cases q <;> exact fun _ => trivial

theorem nonnegWeights_sample {d : Distribution} (h : ∀ w ∈ d.probabilities, 0 ≤ w) :
    d.sample.NonnegWeights := ⟨h, fun _ => trivial⟩

theorem nonnegWeights_randMod (n : Nat) : (randMod n).NonnegWeights := by
  unfold randMod
  split
  · trivial
  · exact fun _ => trivial

/-- The choices of a slot have a law: no weight is negative. -/
theorem nonnegWeights_slotLabel {st : Proxy} (hm : ∀ key, st.missingNewReplicas.lookup key = none)
    (hreal : ∀ w ∈ st.realDistribution.probabilities, 0 ≤ w)
    (hfake : ∀ w ∈ st.fakeDistribution.probabilities, 0 ≤ w) (waiting : List (Str × Promise)) :
    (st.slotLabel waiting).NonnegWeights := by
  have hqueue : ∀ waiting, (clientQueue st.realDistribution waiting).NonnegWeights := by
    intro waiting
    induction waiting with
    | nil => trivial
    | cons w waiting ih => exact (nonnegWeights_sample hreal).bind fun key => ih.map _
  refine (hqueue waiting).bind fun pending => Sampler.NonnegWeights.bind ?_ fun s => ?_
  · refine Sampler.NonnegWeights.bind (nonnegWeights_prob _) fun isTrue => ?_
    split
    · split
      · exact (nonnegWeights_sample hreal).map _
      · trivial
    · exact (nonnegWeights_sample hfake).map _
  · rw [labelOfSlot, UpdateCache.sampleAReplica_of_none (hm _)]
    exact (nonnegWeights_randMod _).map _

/-- What a run of batches from `init` leaves of the initial parameters. -/
structure Untouched (st₀ : Proxy) (dist : Distribution) (alpha delta : ℚ) (st : Proxy) : Prop where
  pMax : st.pMax = st₀.pMax
  delta : st.delta = delta
  real : st.realDistribution = dist
  fakes : ∀ w ∈ st.fakeDistribution.probabilities, 0 ≤ w
  noMissing : ∀ key, st.missingNewReplicas.lookup key = none
  few : (dist.items.map st.replicas).sum < 2 * dist.items.length

theorem untouched_of_init {st₀ st : Proxy} {dist : Distribution} {alpha delta : ℚ}
    {values : Nat → Str} (hfresh : st₀.Fresh) (h : CallerArguments dist alpha delta)
    (henc : ∀ i, ∃ c, st₀.encryptionEngine.encrypt (values i) = .ok c)
    (hinit : st₀.init dist alpha delta values = .ok st) : Untouched st₀ dist alpha delta st := by
  have hc := created_of_init henc hinit
  set st₁ := st₀.takeArguments dist alpha delta
  have h₁ : CallerArguments st₁.realDistribution st₁.alpha st₁.delta := h
  exact
    { pMax := by rw [hc.rest]
      delta := by rw [hc.rest]
      real := by rw [hc.rest]
      fakes := by
        have hf : st.fakeDistribution.probabilities = st₁.fakeWeights values := by rw [hc.rest]
        rw [hf]
        exact (fakeWeights_sum h₁ values).1
      noMissing := fun key => by
        have hm : st.missingNewReplicas = ∅ := by rw [hc.rest]; exact hfresh.missing
        rw [hm]
        exact Finmap.lookup_empty key
      few := hc.sum_replicas_lt h₁ }

/-- **The step**: a batch changes none of it. -/
theorem Untouched.executes {st₀ st st' : Proxy} {dist : Distribution} {alpha delta : ℚ} {c : Call}
    (h : Untouched st₀ dist alpha delta st) (hc : st.Executes c st') :
    Untouched st₀ dist alpha delta st' := by
  have hf := frame_executeBatchWith hc.returns
  have hm := (sameTables_executeBatchWith hc.returns).2
  exact
    { pMax := by rw [hf.rest]; exact h.pMax
      delta := by rw [hf.rest]; exact h.delta
      real := by rw [hf.rest]; exact h.real
      fakes := by rw [hf.rest]; exact h.fakes
      noMissing := fun key => by rw [hm h.noMissing]; exact h.noMissing key
      few := by rw [hf.replicas]; exact h.few }

/-- While `p_max_` is zero, some label is never hit. -/
theorem Untouched.exists_prob_zero {st₀ st : Proxy} {dist : Distribution} {alpha delta : ℚ}
    (h : Untouched st₀ dist alpha delta st) (hp : st₀.pMax = 0)
    (ha : CallerArguments dist alpha delta) :
    ∃ l < 2 * dist.items.length, ∀ waiting,
      (st.slotLabel waiting).prob (· = .ok (toString l)) = 0 := by
  obtain ⟨l, hl, hnot⟩ := exists_label_not_hit st.labelOf h.few
  refine ⟨l, hl, fun waiting => Sampler.prob_eq_zero ?_ ?_⟩
  · refine nonnegWeights_slotLabel h.noMissing ?_ h.fakes waiting
    rw [h.real]
    exact fun w hw => (ha.positive w hw).le
  · rintro r hr rfl
    obtain ⟨key, hkey, i, hi, he⟩ := possible_slotLabel (h.pMax.trans hp) h.noMissing
      (by rw [h.real]; exact ha.lengths) hr
    rw [h.real] at hkey
    exact hnot key hkey i hi he

/-- **The coin is always true.** After any number of batches the coin shows a
real access with probability one where the fake weights were made for
`delta = 1/2`, and access to the `2n` labels is not uniform. -/
theorem access_never_uniform {st₀ st st' : Proxy} {dist : Distribution} {values : Nat → Str}
    {calls : List Call} (hfresh : st₀.Fresh) (hp : st₀.pMax = 0)
    (h : CallerArguments dist (1 / dist.items.length) (1 / 2))
    (henc : ∀ i, ∃ c, st₀.encryptionEngine.encrypt (values i) = .ok c)
    (hinit : st₀.init dist (1 / dist.items.length) (1 / 2) values = .ok st)
    (hrun : Run Executes st calls st') :
    st'.isTrueDistribution.prob (· = true) = 1 ∧ st'.delta = 1 / 2 ∧
      ¬ st'.UniformAccess dist.items.length := by
  have hu : Untouched st₀ dist (1 / dist.items.length) (1 / 2) st' :=
    hrun.invariant (I := fun _ st => Untouched st₀ dist (1 / dist.items.length) (1 / 2) st)
      (untouched_of_init hfresh h henc hinit) fun _ h hc => h.executes hc
  refine ⟨?_, hu.delta, fun huniform => ?_⟩
  · rw [isTrueDistribution_of_pMax_zero (hu.pMax.trans hp), Sampler.prob]
    norm_num [Sampler.expect, Sampler.clamp]
  · obtain ⟨l, hl, hzero⟩ := hu.exists_prob_zero hp h
    have := huniform [] l hl
    rw [hzero []] at this
    have hn : (0 : ℚ) < 2 * dist.items.length := by exact_mod_cast Nat.mul_pos two_pos h.keys_pos
    exact (one_div_pos.mpr hn).ne this

/-! ## One key

With a single key there are two labels: `0` of the key and `1` of the dummy. -/

theorem singleKey_arguments : CallerArguments singleKey (1 / singleKey.items.length) (1 / 2) where
  lengths := rfl
  keys := by decide
  positive := by simp [singleKey]
  normalised := by norm_num [singleKey]
  alphaBound := le_rfl
  deltaEq := by norm_num [singleKey]

theorem singleKey_alpha : (1 / (singleKey.items.length : ℚ)) = 1 := by norm_num [singleKey]

theorem singleKey_arguments_one : CallerArguments singleKey 1 (1 / 2) := by
  have h := singleKey_arguments
  rwa [singleKey_alpha] at h

/-- Label `1` is never hit. -/
theorem dummy_label_never_hit :
    ∃ st, blank.init singleKey (1 / singleKey.items.length) (1 / 2) firstStrings = .ok st ∧
      st.isTrueDistribution.prob (· = true) ≠ st.delta ∧
      (∀ waiting, (st.slotLabel waiting).prob (· = .ok ['1']) = 0) ∧
      ¬ st.UniformAccess singleKey.items.length := by
  obtain ⟨st, hinit, -⟩ := init_created singleKey (1 / singleKey.items.length) (1 / 2)
    fun i => (firstStrings_roundTrips i).encrypts
  have hu := untouched_of_init ⟨rfl, rfl, rfl, rfl⟩ singleKey_arguments
    (fun i => (firstStrings_roundTrips i).encrypts) hinit
  have hcoin : st.isTrueDistribution = .coin 1 .done := isTrueDistribution_of_pMax_zero hu.pMax
  have hk : (blank.init singleKey (1 / singleKey.items.length) (1 / 2) firstStrings).map
      (fun st => (st.replicas ['k'], st.labelOf ['k'] 0)) = .ok (1, ['0']) := by decide +kernel
  rw [hinit] at hk
  obtain ⟨hr, hl⟩ := Prod.mk.inj (Except.ok.inj hk)
  have hzero : ∀ waiting, (st.slotLabel waiting).prob (· = .ok ['1']) = 0 := by
    intro waiting
    refine Sampler.prob_eq_zero (nonnegWeights_slotLabel hu.noMissing ?_ hu.fakes waiting) ?_
    · rw [hu.real]
      exact fun w hw => (singleKey_arguments.positive w hw).le
    · rintro r hr' rfl
      obtain ⟨key, hkey, i, hi, he⟩ := possible_slotLabel hu.pMax hu.noMissing
        (by rw [hu.real]; rfl) hr'
      rw [hu.real, singleKey, List.mem_singleton] at hkey
      subst hkey
      obtain rfl : i = 0 := by omega
      rw [hl] at he
      exact absurd he (by decide)
  refine ⟨st, hinit, ?_, hzero, fun huniform => ?_⟩
  · rw [hcoin, hu.delta, Sampler.prob]
    norm_num [Sampler.expect, Sampler.clamp]
  · have hone := huniform [] 1 (by decide)
    rw [show toString 1 = ['1'] by decide, hzero []] at hone
    norm_num [singleKey] at hone

/-- The proxy of the run of a put and a get. -/
theorem access_never_uniform_singleKey : ∃ st st',
    blank.init singleKey (1 / singleKey.items.length) (1 / 2) firstStrings = .ok st ∧
      Run Executes st [⟨putCall, [0], [(0, ['v'])]⟩, ⟨getCall, [0], [(1, ['v'])]⟩] st' ∧
      st'.isTrueDistribution.prob (· = true) = 1 ∧ st'.delta = 1 / 2 ∧
      ¬ st'.UniformAccess singleKey.items.length := by
  obtain ⟨st, hinit, -⟩ := init_created singleKey 1 (1 / 2)
    fun i => (firstStrings_roundTrips i).encrypts
  obtain ⟨st', hrun⟩ := putCall_getCall_run hinit
  have hrun : Run Executes st _ st' := hrun.mono fun h => h.toExecutes
  have hinit : blank.init singleKey (1 / singleKey.items.length) (1 / 2) firstStrings = .ok st := by
    rw [singleKey_alpha]
    exact hinit
  exact ⟨st, st', hinit, hrun, access_never_uniform ⟨rfl, rfl, rfl, rfl⟩ rfl singleKey_arguments
    (fun i => (firstStrings_roundTrips i).encrypts) hinit hrun⟩

end Proxy

end Pancake
