import Pancake.NewReplicas
import Pancake.ReplicaPresence
import Pancake.SwapPlan

/-!
# The sizes of the missing entries

An entry of `missing_new_replicas_` has one bit for each replica of its key,
and `recompute_fake_distribution` asserts that. A key that grows has its entry
resized, one that shrinks has not: the assertion fails on the first change
that shrinks a key whose entry no access has removed yet, and only then.
Meanwhile every draw from an entry divides by something.
-/

namespace Pancake

namespace UpdateCache

/-! ## Entries that can be drawn from -/

/-- Bits set behind the others leave the leading zeros. -/
theorem numLeadingZeros_append_true (bits : List Bool) (m : Nat) :
    numLeadingZeros (bits ++ List.replicate m true) = numLeadingZeros bits := by
  induction bits with
  | nil =>
      cases m with
      | zero => rfl
      | succ m => rfl
  | cons b bits ih =>
      cases b with
      | true => rfl
      | false =>
          rw [List.cons_append, numLeadingZeros, ih, numLeadingZeros]

theorem not_possible_randMod_error {n : Nat} (hn : 0 < n) (e : Fault) :
    ¬ (randMod n).Possible (.error e) := by
  rw [randMod, if_neg (by omega)]
  intro h
  obtain ⟨i, -, hi⟩ := h
  cases hi

/-- **Drawing never fails** from an entry with one bit per replica, the first
of them clear. With all bits clear the replica exists for certain, so the
second modulus is not zero when it is reached. -/
theorem not_possible_sampleAReplica_error {missing : UpdateCache} {key : Str} {n : Nat} {f : Int}
    {p : ℚ} (hn : 0 < n) (h : ∀ entry ∈ missing.lookup key, entry.2.length = n ∧
      1 ≤ numLeadingZeros entry.2 ∧ (f : ℚ) < n * p) (real : Bool) (e : Fault) :
    ¬ (missing.sampleAReplica key n real f p).Possible (.error e) := by
  cases hl : missing.lookup key with
  | none =>
      rw [sampleAReplica_of_none hl]
      exact not_possible_randMod_error hn e
  | some entry =>
      obtain ⟨value, bitVec⟩ := entry
      obtain ⟨hlen, hzeros, hf⟩ := h _ hl
      have hle : numLeadingZeros bitVec ≤ n := hlen ▸ numLeadingZeros_le bitVec
      simp only [sampleAReplica, hl, if_neg (not_lt.mpr hle)]
      rw [Sampler.possible_bind]
      intro hc
      obtain ⟨repExists, hcoin, hdraw⟩ := hc
      by_cases hreal : (repExists || real) = true
      · rw [if_pos hreal] at hdraw
        exact not_possible_randMod_error hzeros e hdraw
      · rw [if_neg hreal, Sampler.possible_map] at hdraw
        obtain ⟨r, hr, he⟩ := hdraw
        cases r with
        | ok i => cases he
        | error e' =>
            by_cases hall : numLeadingZeros bitVec = n
            · -- the coin is certain
              rw [hall, divide, if_pos (by linarith), div_self (by linarith)] at hcoin
              cases repExists with
              | true => simp at hreal
              | false =>
                  rcases hcoin with ⟨-, hc⟩ | ⟨hc, -⟩
                  · cases hc
                  · exact lt_irrefl _ hc
            · exact not_possible_randMod_error (by omega) e' hr

end UpdateCache

namespace Proxy

open UpdateCache

/-! ## What the table should satisfy -/

/-- Every entry has a bit for each replica of its key, the first of them
clear, and no draw fails. -/
structure MissingFollows (st : Proxy) : Prop where
  sizes : ∀ key entry, st.missingNewReplicas.lookup key = some entry →
    entry.2.length = st.replicas key ∧ 1 ≤ numLeadingZeros entry.2 ∧
      numLeadingZeros entry.2 ≤ st.replicas key
  draws : ∀ key, 0 < st.replicas key → ∀ real e,
    ¬ (st.missingNewReplicas.sampleAReplica key (st.replicas key) real (st.frequency key)
      st.pMax).Possible (.error e)

/-- The new distribution gives a key that has an entry fewer replicas. -/
def ShrinksMissing (st : Proxy) (d : Distribution) : Prop :=
  ∃ item ∈ d.pairs, item.1 ∈ st.missingNewReplicas ∧
    replicaCount st.alpha item.2 < st.replicas item.1

/-- The invariant. A key has an entry only after it has grown, so an entry has
at least two bits, and the bits an access can go to come first. -/
structure Following (st : Proxy) (keys : List Str) : Prop where
  alpha : 0 < st.alpha
  positive : ∀ key ∈ keys, 0 < st.replicas key
  dummyKey : st.dummyKey ∉ st.missingNewReplicas
  entries : ∀ key entry, st.missingNewReplicas.lookup key = some entry →
    entry.2.length = st.replicas key ∧ 2 ≤ entry.2.length ∧ 1 ≤ numLeadingZeros entry.2
  bounded : ∀ key ∈ st.missingNewReplicas, (st.frequency key : ℚ) ≤ st.pMax ∧ 0 < st.pMax

section Following

variable {st st' : Proxy} {keys : List Str} {d : Distribution}

theorem Following.missingFollows (h : st.Following keys) : st.MissingFollows where
  sizes := by
    intro key entry hl
    obtain ⟨hlen, -, hzeros⟩ := h.entries key entry hl
    exact ⟨hlen, hzeros, hlen ▸ numLeadingZeros_le entry.2⟩
  draws := by
    intro key hpos real e
    apply not_possible_sampleAReplica_error hpos
    intro entry hl
    obtain ⟨hlen, htwo, hzeros⟩ := h.entries key entry hl
    obtain ⟨hf, hp⟩ := h.bounded key (Finmap.mem_iff.mpr ⟨entry, hl⟩)
    refine ⟨hlen, hzeros, ?_⟩
    have hcount : (2 : ℚ) ≤ st.replicas key := by exact_mod_cast hlen ▸ htwo
    nlinarith

/-! ## A batch -/

/-- **A batch** removes entries, and changes none. -/
theorem Following.executes (h : st.Following keys) {c : Call} (hx : st.Executes c st') :
    st'.Following keys := by
  have hframe := frame_executeBatchWith hx.returns
  have halpha : st'.alpha = st.alpha := by rw [hframe.rest]
  have hkey : st'.dummyKey = st.dummyKey := by rw [hframe.rest]
  have hpMax : st'.pMax = st.pMax := by rw [hframe.rest]
  have hmem : ∀ key, key ∈ st'.missingNewReplicas → key ∈ st.missingNewReplicas := by
    intro key hk
    obtain ⟨entry, hl⟩ := Finmap.mem_iff.mp hk
    exact Finmap.mem_iff.mpr ⟨entry, missing_of_executeBatchWith hx.returns hl⟩
  exact
    { alpha := by rw [halpha]; exact h.alpha
      positive := by rw [hframe.replicas]; exact h.positive
      dummyKey := by
        rw [hkey]
        exact fun hc => h.dummyKey (hmem _ hc)
      entries := by
        intro key entry hl
        rw [hframe.replicas]
        exact h.entries key entry (missing_of_executeBatchWith hx.returns hl)
      bounded := by
        intro key hk
        rw [hframe.frequency, hpMax]
        exact h.bounded key (hmem key hk) }

/-! ## A change -/

/-- The entries at the end of the dummy step: those of keys that grew are
resized, or new. -/
theorem planSwaps_missing (hnd : (d.pairs.map Prod.fst).Nodup) {s : Swapping}
    (h : st.planSwaps d = .ok s) :
    (∀ item ∈ d.pairs, s.proxy.missingNewReplicas.lookup item.1
      = if st.replicas item.1 < replicaCount st.alpha item.2 ∧ item.1 ≠ st.dummyKey then
        (st.missingNewReplicas.editBitVectorSize item.1
          (replicaCount st.alpha item.2)).lookup item.1
      else st.missingNewReplicas.lookup item.1) ∧
    ∀ k, k ∉ d.pairs.map Prod.fst →
      s.proxy.missingNewReplicas.lookup k = st.missingNewReplicas.lookup k := by
  simp only [planSwaps, bind_eq_ok, assert_eq_ok] at h
  obtain ⟨s₁, hloop, -, -, hdummy⟩ := h
  have hmissing := prepareForSwapping_missing hdummy
  rw [if_neg fun hc => hc.2 rfl] at hmissing
  rw [hmissing]
  exact updateReplicas_missing hnd hloop

/-- The entry of a key that grew. -/
theorem Following.edited (h : st.Following keys) {key : Str} (hkey : key ∈ keys) {n : Nat}
    (hlt : st.replicas key < n) {entry : Str × List Bool}
    (hl : (st.missingNewReplicas.editBitVectorSize key n).lookup key = some entry) :
    entry.2.length = n ∧ 2 ≤ entry.2.length ∧ 1 ≤ numLeadingZeros entry.2 := by
  have hpos := h.positive key hkey
  rw [lookup_editBitVectorSize] at hl
  cases ho : st.missingNewReplicas.lookup key with
  | none =>
      simp only [ho, Option.some.injEq] at hl
      subst hl
      rw [numLeadingZeros_replicate, List.length_replicate]
      omega
  | some old =>
      obtain ⟨value, bitVec⟩ := old
      obtain ⟨hlen, -, hzeros⟩ := h.entries key _ ho
      simp only [ho, Option.some.injEq] at hl
      subst hl
      dsimp only at hlen hzeros ⊢
      rw [numLeadingZeros_append_true, List.take_of_length_le (by omega), List.length_append,
        List.length_replicate]
      omega

/-- The entries at the end of the dummy step have at least two bits, the
first of them clear. -/
theorem Following.planned_entries (h : st.Following keys) (hnd : keys.Nodup)
    (hd : DistributionOver keys d) {s : Swapping} (hs : st.planSwaps d = .ok s) {key : Str}
    {entry : Str × List Bool} (hl : s.proxy.missingNewReplicas.lookup key = some entry) :
    2 ≤ entry.2.length ∧ 1 ≤ numLeadingZeros entry.2 := by
  obtain ⟨hin, hout⟩ := planSwaps_missing (hd.pairs_nodup hnd) hs
  by_cases hk : key ∈ d.pairs.map Prod.fst
  · obtain ⟨item, hitem, rfl⟩ := List.mem_map.mp hk
    rw [hin item hitem] at hl
    split at hl
    · rename_i hgrew
      exact (h.edited (hd.mem_keys hitem) hgrew.1 hl).2
    · exact (h.entries _ _ hl).2
  · rw [hout key hk] at hl
    exact (h.entries _ _ hl).2

/-- **The assertion of `recompute_fake_distribution`** holds exactly when no
key with an entry shrinks. -/
theorem Following.recompute_iff (h : st.Following keys) (hnd : keys.Nodup)
    (hd : DistributionOver keys d) {s : Swapping} (hs : st.planSwaps d = .ok s) :
    (∃ st', s.proxy.recomputeFakeDistribution d = .ok st') ↔ ¬ st.ShrinksMissing d := by
  have hp := planSwaps_spec (hd.pairs_nodup hnd) hs
  obtain ⟨hin, hout⟩ := planSwaps_missing (hd.pairs_nodup hnd) hs
  constructor
  · intro hrec hshrinks
    obtain ⟨st', hrec⟩ := hrec
    obtain ⟨item, hitem, hmem, hlt⟩ := hshrinks
    obtain ⟨entry, hl⟩ := Finmap.mem_iff.mp hmem
    -- its entry is as it was, its count is not
    have hsame : s.proxy.missingNewReplicas.lookup item.1 = some entry := by
      rw [hin item hitem, if_neg (by omega), hl]
    have hsize := (recomputeFakeDistribution_spec hrec).1 item.1 entry hsame
    have hold := (h.entries item.1 entry hl).1
    rw [hp.counts item hitem] at hsize
    omega
  · intro hshrinks
    apply recomputeFakeDistribution_total
    intro key entry hl
    by_cases hk : key ∈ d.pairs.map Prod.fst
    · obtain ⟨item, hitem, rfl⟩ := List.mem_map.mp hk
      rw [hin item hitem] at hl
      rw [hp.counts item hitem]
      split at hl
      · rename_i hgrew
        exact (h.edited (hd.mem_keys hitem) hgrew.1 hl).1
      · rename_i hnot
        have hmem : item.1 ∈ st.missingNewReplicas := Finmap.mem_iff.mpr ⟨entry, hl⟩
        have hge : ¬ replicaCount st.alpha item.2 < st.replicas item.1 := fun hlt =>
          hshrinks ⟨item, hitem, hmem, hlt⟩
        have hle : ¬ st.replicas item.1 < replicaCount st.alpha item.2 := by
          intro hlt
          apply hnot
          refine ⟨hlt, ?_⟩
          intro hc
          exact h.dummyKey (hc ▸ hmem)
        rw [(h.entries item.1 entry hl).1]
        omega
    · rw [hout key hk] at hl
      rw [hp.others key hk]
      exact (h.entries key entry hl).1

/-- **A change** that returns resized what it had to. -/
theorem Following.updates (h : st.Following keys) (hnd : keys.Nodup)
    (hd : DistributionOver keys d) (hupdate : st.updateDistribution d = .ok st') :
    st'.Following keys := by
  have hpairs := hd.pairs_nodup hnd
  have hu := updateDistribution_spec hpairs hupdate
  have hr := redistributed_of_updateDistribution hpairs hupdate
  have hn : (0 : ℚ) < d.items.length := by
    exact_mod_cast (hd.callerArguments hnd rfl).keys_pos
  have hpMax : 0 < st'.pMax := lt_of_lt_of_le (one_div_pos.mpr hn) hr.pMax
  -- the entries are those of the plan
  obtain ⟨s, hs, hmissing⟩ : ∃ s, st.planSwaps d = .ok s ∧
      st'.missingNewReplicas = s.proxy.missingNewReplicas := by
    rw [updateDistribution_eq_planSwaps] at hupdate
    obtain ⟨s, hs, hupdate⟩ := bind_eq_ok.mp hupdate
    obtain ⟨st₃, hrec, hupdate⟩ := bind_eq_ok.mp hupdate
    obtain ⟨-, -, hswap⟩ := bind_eq_ok.mp hupdate
    refine ⟨s, hs, ?_⟩
    rw [(performSwapping_spec hswap).1, (recomputeFakeDistribution_spec hrec).2.2]
  exact
    { alpha := by rw [hr.alpha]; exact h.alpha
      positive := by
        intro key hk
        obtain ⟨item, hitem, rfl⟩ := hd.exists_item hk
        rw [hu.counts item hitem]
        exact Nat.ceil_pos.mpr (div_pos (hd.positive _ (List.of_mem_zip hitem).2) h.alpha)
      dummyKey := by
        rw [hu.kept.dummyKey, hmissing]
        intro hc
        obtain ⟨entry, hl⟩ := Finmap.mem_iff.mp hc
        apply h.dummyKey
        obtain ⟨hin, hout⟩ := planSwaps_missing hpairs hs
        by_cases hk : st.dummyKey ∈ d.pairs.map Prod.fst
        · obtain ⟨item, hitem, heq⟩ := List.mem_map.mp hk
          rw [← heq, hin item hitem, if_neg fun hc => hc.2 heq, heq] at hl
          exact Finmap.mem_iff.mpr ⟨entry, hl⟩
        · rw [hout _ hk] at hl
          exact Finmap.mem_iff.mpr ⟨entry, hl⟩
      entries := by
        intro key entry hl
        refine ⟨hu.sizes key entry hl, ?_⟩
        rw [hmissing] at hl
        exact h.planned_entries hnd hd hs hl
      bounded := by
        intro key hk
        have hfrequency : st'.frequency key = st'.newFrequency key := by
          rw [frequency, hr.frequencies, newFrequency]
        rw [hfrequency]
        exact ⟨hr.bounded key hk, hpMax⟩ }

theorem Following.step {e : Event} (h : st.Following keys) (hnd : keys.Nodup)
    (hs : Advances keys st e st') : st'.Following keys := by
  cases hs with
  | call hx => exact h.executes hx
  | update hd hupdate => exact h.updates hnd hd hupdate

end Following

/-! ## Runs -/

/-- **Initially** no entry is there. -/
theorem Created.following {st₁ st : Proxy} {values : Nat → Str} {delta : ℚ}
    (hc : Created st₁ values st) (h : CallerArguments st₁.realDistribution st₁.alpha delta)
    (hfresh : st₁.Fresh) : st.Following st₁.realDistribution.items := by
  have hnone : st.missingNewReplicas = ∅ := by
    rw [show st.missingNewReplicas = st₁.missingNewReplicas by rw [hc.rest]]
    exact hfresh.missing
  exact
    { alpha := by
        rw [show st.alpha = st₁.alpha by rw [hc.rest]]
        exact h.alpha_pos
      positive := by
        intro key hk
        exact hc.replicas_pos hfresh h (List.mem_append_left _ hk)
      dummyKey := by
        rw [hnone]
        exact Finmap.notMem_empty
      entries := by
        intro key entry hl
        rw [hnone] at hl
        simp at hl
      bounded := by
        intro key hk
        rw [hnone] at hk
        exact absurd hk Finmap.notMem_empty }

/-- **The missing entries follow the counts** in every state of every run;
and the next change passes the assertion of `recompute_fake_distribution`
exactly when it shrinks no key that has an entry. -/
theorem missingFollows_of_run {st₀ st st' : Proxy} {dist : Distribution} {alpha delta : ℚ}
    {values : Nat → Str} (hfresh : st₀.Fresh) (h : CallerArguments dist alpha delta)
    (hinit : st₀.init dist alpha delta values = .ok st) {events : List Event}
    (hrun : Run (Advances dist.items) st events st') :
    st'.MissingFollows ∧ ∀ d s, DistributionOver dist.items d → st'.planSwaps d = .ok s →
      ((∃ st'', s.proxy.recomputeFakeDistribution d = .ok st'') ↔ ¬ st'.ShrinksMissing d) := by
  obtain ⟨values', hc⟩ := exists_created_of_init h.lengths h.keys_pos hinit
  have hstart : st.Following dist.items := hc.following h (hfresh.takeArguments _ _ _)
  have hend : st'.Following dist.items :=
    hrun.invariant (I := fun _ st => st.Following dist.items) hstart
      fun _ hi hs => hi.step h.keys hs
  refine ⟨hend.missingFollows, ?_⟩
  intro d s hd hs
  exact hend.recompute_iff h.keys hd hs

theorem evenLetters_over : DistributionOver letters evenLetters where
  items := .refl _
  lengths := evenLetters_arguments.lengths
  positive := evenLetters_arguments.positive
  normalised := evenLetters_arguments.normalised

/-- The first letter grows; a get removes its entry, and it may shrink. -/
theorem missingFollows_of_run_letters :
    ∃ st st' s, blank.init evenLetters (1 / 25) (1 / 2) firstStrings = .ok st ∧
      Run (Advances letters) st [.update tiltedLetters, .call ⟨getFirst, [0], [(0, ['a'])]⟩] st' ∧
      st'.MissingFollows ∧ st'.planSwaps evenLetters = .ok s ∧
      ∃ st'', s.proxy.recomputeFakeDistribution evenLetters = .ok st'' := by
  obtain ⟨r, hrun, hmissing, hcount, hnone, hanswer⟩ :
      ∃ r, (do let st₀ ← blank.init evenLetters (1 / 25) (1 / 2) firstStrings
               let st₁ ← st₀.updateDistribution tiltedLetters
               let first ← st₁.executeBatchWith getFirst [0]
               let s ← first.1.planSwaps evenLetters
               Except.ok (st₁, first, s)) = .ok r ∧
        r.1.missingNewReplicas.lookup ['A'] = some ([], [false, false]) ∧
        r.1.replicas ['A'] = 2 ∧ r.2.1.1.missingNewReplicas = ∅ ∧ r.2.1.2 = [(0, ['a'])] :=
    exists_ok_of_decide (by decide +kernel)
  simp only [bind_eq_ok] at hrun
  obtain ⟨st₀, hinit, st₁, hupdate, ⟨st₂, first⟩, hfirst, s, hplan, hr⟩ := hrun
  cases hr
  cases hanswer
  have hcall : st₁.Executes ⟨getFirst, [0], [(0, ['a'])]⟩ st₂ := by
    refine ⟨possible_chooseReplicas_single ?_, hfirst⟩
    exact (UpdateCache.possible_sampleAReplica_real hmissing).mpr
      ⟨by rw [hcount]; decide, by decide⟩
  have hsteps : Run (Advances letters) st₀
      [.update tiltedLetters, .call ⟨getFirst, [0], [(0, ['a'])]⟩] st₂ :=
    Run.snoc (Run.single (.update tiltedLetters_over hupdate)) (.call hcall)
  obtain ⟨hfollows, hnext⟩ := missingFollows_of_run ⟨rfl, rfl, rfl, rfl⟩ evenLetters_arguments
    hinit hsteps
  refine ⟨st₀, st₂, s, hinit, hsteps, hfollows, hplan,
    (hnext evenLetters s evenLetters_over hplan).mpr ?_⟩
  intro hshrinks
  obtain ⟨item, -, hmem, -⟩ := hshrinks
  rw [hnone] at hmem
  exact Finmap.notMem_empty hmem

/-- **The failing run**: the first letter grows to two replicas and, before
any access to it, shrinks to one. Its entry still has two bits. -/
theorem shrunk_entry_fails :
    ∃ st st' s, blank.init evenLetters (1 / 25) (1 / 2) firstStrings = .ok st ∧
      Run (Advances letters) st [.update tiltedLetters] st' ∧
      st'.planSwaps evenLetters = .ok s ∧ s.proxy.replicas ['A'] = 1 ∧
      s.proxy.missingNewReplicas.lookup ['A'] = some ([], [false, false]) ∧
      s.proxy.recomputeFakeDistribution evenLetters = .error .assertionFailed ∧
      st'.updateDistribution evenLetters = .error .assertionFailed ∧
      ¬ ∀ d s, DistributionOver letters d → st'.planSwaps d = .ok s →
        ∃ st'', s.proxy.recomputeFakeDistribution d = .ok st'' := by
  obtain ⟨r, hrun, hcount, hmissing, hrecompute, hfails⟩ :
      ∃ r, (do let st₀ ← blank.init evenLetters (1 / 25) (1 / 2) firstStrings
               let st₁ ← st₀.updateDistribution tiltedLetters
               let s ← st₁.planSwaps evenLetters
               Except.ok (st₀, st₁, s)) = .ok r ∧
        r.2.2.proxy.replicas ['A'] = 1 ∧
        r.2.2.proxy.missingNewReplicas.lookup ['A'] = some ([], [false, false]) ∧
        (r.2.2.proxy.recomputeFakeDistribution evenLetters).map (fun _ => ())
          = .error .assertionFailed ∧
        (r.2.1.updateDistribution evenLetters).map (fun _ => ()) = .error .assertionFailed :=
    exists_ok_of_decide (by decide +kernel)
  simp only [bind_eq_ok] at hrun
  obtain ⟨st₀, hinit, st₁, hupdate, s, hplan, hr⟩ := hrun
  cases hr
  have herror := eq_error_of_map hrecompute
  refine ⟨st₀, st₁, s, hinit, Run.single (.update tiltedLetters_over hupdate), hplan, hcount,
    hmissing, herror, eq_error_of_map hfails, ?_⟩
  intro hall
  obtain ⟨st'', hok⟩ := hall evenLetters s evenLetters_over hplan
  rw [herror] at hok
  cases hok

end Proxy

end Pancake
