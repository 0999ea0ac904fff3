import Pancake.Redistribution
import Pancake.ReplicaNames
import Pancake.UpdateSmoothing

/-!
# Every sampled replica has a label

`execute_batch` takes the number of replicas of a key from
`key_to_number_of_replicas_`, draws one, and looks its label up with
`operator[]`. For the dummy key the number is kept in `dummy_keys_` as well,
and a distribution change updates only that. As long as no change moves the
number of dummies, nor releases a name that another key's replica has too,
the replicas counted are those that have a label.
-/

namespace Pancake

namespace Proxy

/-- `sample_a_replica`, called as `execute_batch` calls it, can return `id`. -/
def Samples (st : Proxy) (key : Str) (real : Bool) (id : Nat) : Prop :=
  (st.missingNewReplicas.sampleAReplica key (st.replicas key) real (st.frequency key)
    st.pMax).Possible (.ok id)

/-- Every replica an access can go to has a label, and every label can be
gone to. -/
structure SampledPresent (st : Proxy) (keys : List Str) : Prop where
  drawn : ∀ key, st.realDistribution.sample.Possible key ∨ st.fakeDistribution.sample.Possible key →
    1 ≤ st.replicas key
  counted : ∀ name, name ∈ st.replicaToLabel ↔
    ∃ r, st.Live keys r ∧ replicaName r.1 r.2 = name
  returned : ∀ key ∈ keys ++ [st.dummyKey], ∀ real id, st.Samples key real id →
    replicaName key id ∈ st.replicaToLabel
  chosen : ∀ r, st.Live keys r → ∃ real, st.Samples r.1 real r.2

/-- A batch, or a new distribution over the same keys, that returns. -/
inductive Advances (keys : List Str) (st : Proxy) : Event → Proxy → Prop
  | call {c : Call} {st' : Proxy} : st.Executes c st' → Advances keys st (.call c) st'
  | update {d : Distribution} {st' : Proxy} : DistributionOver keys d →
      st.updateDistribution d = .ok st' → Advances keys st (.update d) st'

/-- A change leaves the number of dummies as `key_to_number_of_replicas_` has
it, and releases no name that is also that of a replica some key keeps. -/
structure KeepsNames (st : Proxy) (d : Distribution) : Prop where
  dummies : st.newDummyKeys d = st.replicas st.dummyKey
  kept : ∀ item ∈ d.pairs, ∀ i < st.replicas item.1, i < replicaCount st.alpha item.2 →
    replicaName item.1 i ∉ st.released d
  keptDummy : ∀ i < st.replicas st.dummyKey, replicaName st.dummyKey i ∉ st.released d

/-- The steps whose changes keep the names. -/
structure KeepingSteps (keys : List Str) (st : Proxy) (e : Event) (st' : Proxy) : Prop where
  taken : Advances keys st e st'
  keeps : ∀ d, e = .update d → st.KeepsNames d

/-- The invariant. Each clause is kept by a batch because the replicas it
draws are there, and by a change because it keeps the names. -/
structure Present (st : Proxy) (keys : List Str) : Prop where
  alpha : 0 < st.alpha
  dummyKey : st.dummyKey ∉ keys
  positive : ∀ key ∈ keys ++ [st.dummyKey], 0 < st.replicas key
  known : ∀ key, 0 < st.replicas key → key ∈ keys ++ [st.dummyKey]
  dummies : st.replicas st.dummyKey = st.dummyKeys
  counted : ∀ name, name ∈ st.replicaToLabel ↔
    ∃ r, st.Live keys r ∧ replicaName r.1 r.2 = name
  missing : ∀ key value bitVec, st.missingNewReplicas.lookup key = some (value, bitVec) →
    bitVec.length = st.replicas key ∧ (st.frequency key : ℚ) ≤ st.pMax ∧ 0 < st.pMax
  real : st.realDistribution.items.length = st.realDistribution.probabilities.length ∧
    ∀ key ∈ st.realDistribution.items, key ∈ keys ++ [st.dummyKey]
  fake : st.fakeDistribution.items.length = st.fakeDistribution.probabilities.length ∧
    ∀ key ∈ st.fakeDistribution.items, key ∈ keys ++ [st.dummyKey]

/-! ## What the invariant gives -/

section Present

variable {st st' : Proxy} {keys : List Str}

/-- Any access that returns a replica returns one that is there, whatever its
key. -/
theorem Present.mem_of_samples (h : st.Present keys) {key : Str} {real : Bool} {id : Nat}
    (hs : st.Samples key real id) : replicaName key id ∈ st.replicaToLabel := by
  have hid : id < st.replicas key := UpdateCache.lt_of_possible_sampleAReplica hs
  exact (h.counted _).mpr ⟨(key, id), ⟨h.known key (by omega), hid⟩, rfl⟩

theorem Present.sampledPresent (h : st.Present keys) : st.SampledPresent keys where
  drawn := by
    intro key hkey
    rcases hkey with hkey | hkey
    · exact h.positive key (h.real.2 key (possible_sample h.real.1 hkey))
    · exact h.positive key (h.fake.2 key (possible_sample h.fake.1 hkey))
  counted := h.counted
  returned := by
    intro key _ real id hs
    exact h.mem_of_samples hs
  chosen := by
    intro r hr
    exact UpdateCache.exists_possible_sampleAReplica (h.missing r.1) hr.2

/-! ## A batch -/

/-- The ids drawn are possible ones. -/
theorem samples_of_chooseReplicas {ops : List Operation} {isTrues : List Bool} {ids : List Nat}
    (h : (st.chooseReplicas ops isTrues).Possible (.ok ids)) :
    List.Forall₂ (fun op id => ∃ real, st.Samples op.key real id) ops ids := by
  induction ops generalizing isTrues ids with
  | nil =>
      rw [chooseReplicas, Sampler.possible_done] at h
      cases h
      exact .nil
  | cons op ops ih =>
      cases isTrues with
      | nil =>
          rw [chooseReplicas, Sampler.possible_done] at h
          cases h
      | cons t isTrues =>
          rw [chooseReplicas, Sampler.possible_bind] at h
          obtain ⟨r, hr, hrest⟩ := h
          cases r with
          | error e => cases hrest
          | ok id =>
              obtain ⟨r', hr', he⟩ := Sampler.possible_map.mp hrest
              cases r' with
              | error e => cases he
              | ok ids' =>
                  cases he
                  exact .cons ⟨t, hr⟩ (ih hr')

/-- The replica ids a batch draws are those of live replicas. -/
theorem live_of_chooseReplicas {ops : List Operation} {isTrues : List Bool} {ids : List Nat}
    (h : (st.chooseReplicas ops isTrues).Possible (.ok ids)) :
    List.Forall₂ (fun op id => id < st.replicas op.key) ops ids := by
  apply (samples_of_chooseReplicas h).imp
  intro op id hs
  obtain ⟨real, hs⟩ := hs
  exact UpdateCache.lt_of_possible_sampleAReplica hs

/-- Look-ups of replicas that are there insert none. -/
theorem resolve_replicaToLabel {ops : List Operation} {ids : List Nat}
    (h : List.Forall₂ (fun op id => replicaName op.key id ∈ st.replicaToLabel) ops ids) :
    (st.resolve ops ids).1.replicaToLabel = st.replicaToLabel := by
  induction ops generalizing st ids with
  | nil => rfl
  | cons op ops ih =>
      cases h with
      | cons hop hops =>
          have hsame : (st.lookUp op.key _).replicaToLabel = st.replicaToLabel :=
            UnorderedMap.touch_of_mem hop
          show ((st.lookUp op.key _).resolve ops _).1.replicaToLabel = _
          rw [ih (by rw [hsame]; exact hops), hsame]

/-- **A batch** draws replicas that are there, and keeps the invariant. -/
theorem Present.executes (h : st.Present keys) {c : Call} (hx : st.Executes c st') :
    st'.Present keys := by
  have hframe := frame_executeBatchWith hx.returns
  have hdrawn : List.Forall₂ (fun op id => replicaName op.key id ∈ st.replicaToLabel)
      c.batch.operations c.replicaIds := by
    apply (samples_of_chooseReplicas hx.drawn).imp
    intro op id hs
    obtain ⟨real, hs⟩ := hs
    exact h.mem_of_samples hs
  have hlabels : st'.replicaToLabel = st.replicaToLabel := by
    rw [(sameTables_executeBatchWith hx.returns).1]
    exact resolve_replicaToLabel hdrawn
  have halpha : st'.alpha = st.alpha := by rw [hframe.rest]
  have hkey : st'.dummyKey = st.dummyKey := by rw [hframe.rest]
  have hdummies : st'.dummyKeys = st.dummyKeys := by rw [hframe.rest]
  have hpMax : st'.pMax = st.pMax := by rw [hframe.rest]
  have hreal : st'.realDistribution = st.realDistribution := by rw [hframe.rest]
  have hfake : st'.fakeDistribution = st.fakeDistribution := by rw [hframe.rest]
  exact
    { alpha := by rw [halpha]; exact h.alpha
      dummyKey := by rw [hkey]; exact h.dummyKey
      positive := by rw [hkey, hframe.replicas]; exact h.positive
      known := by rw [hkey, hframe.replicas]; exact h.known
      dummies := by rw [hkey, hframe.replicas, hdummies]; exact h.dummies
      counted := by
        simp only [Live, hkey, hframe.replicas, hlabels]
        exact h.counted
      missing := by
        intro key value bitVec hl
        rw [hframe.replicas, hframe.frequency, hpMax]
        exact h.missing key value bitVec (missing_of_executeBatchWith hx.returns hl)
      real := by rw [hkey, hreal]; exact h.real
      fake := by rw [hkey, hfake]; exact h.fake }

/-! ## A change -/

section Change

variable {d : Distribution}

/-- The dummy key keeps its count in the map. -/
theorem Present.replicas_dummyKey (h : st.Present keys) (hd : DistributionOver keys d)
    (hu : Updated st d st') : st'.replicas st.dummyKey = st.replicas st.dummyKey := by
  apply hu.others
  rw [hd.mem_pairs_map_fst]
  exact h.dummyKey

theorem Present.needed_dummies (h : st.Present keys) (hkeeps : st.KeepsNames d) :
    (List.range' st.dummyKeys (st.newDummyKeys d - st.dummyKeys)).map (fun i => (st.dummyKey, i))
      = [] := by
  have hsame : st.newDummyKeys d = st.dummyKeys := hkeeps.dummies.trans h.dummies
  simp [hsame]

/-- **The names after a change** that keeps them are those of the new counts. -/
theorem Present.counted_change (h : st.Present keys) (hd : DistributionOver keys d)
    (hkeeps : st.KeepsNames d) (hu : Updated st d st')
    (hmem : ∀ name, name ∈ st'.replicaToLabel ↔
      (name ∈ st.replicaToLabel ∧ name ∉ st.released d) ∨
        ∃ need ∈ st.needed d, replicaName need.1 need.2 = name) (name : Str) :
    name ∈ st'.replicaToLabel ↔ ∃ r, st'.Live keys r ∧ replicaName r.1 r.2 = name := by
  have hkey : st'.dummyKey = st.dummyKey := hu.kept.dummyKey
  have hmemKeys : ∀ item ∈ d.pairs, item.1 ∈ keys ++ [st.dummyKey] := by
    intro item hi
    exact List.mem_append_left _ (hd.mem_keys hi)
  rw [hmem]
  simp only [Live, hkey]
  constructor
  · rintro (⟨hold, hnot⟩ | ⟨need, hneed, hname⟩)
    · -- an old name that was not released
      obtain ⟨r, ⟨hr, hlt⟩, rfl⟩ := (h.counted name).mp hold
      refine ⟨r, ⟨hr, ?_⟩, rfl⟩
      rcases List.mem_append.mp hr with hr | hr
      · obtain ⟨item, hi, hkeyi⟩ := hd.exists_item hr
        rw [← hkeyi, hu.counts item hi]
        by_contra hge
        apply hnot
        apply List.mem_append_left
        refine List.mem_flatMap.mpr ⟨item, hi, mem_namesBetween.mpr ⟨r.2, by omega, ?_, ?_⟩⟩
        · rwa [hkeyi]
        · rw [hkeyi]
      · rw [List.mem_singleton] at hr
        rw [hr] at hlt ⊢
        rwa [h.replicas_dummyKey hd hu]
    · -- a name that needed a label
      rw [needed, h.needed_dummies hkeeps, List.append_nil] at hneed
      obtain ⟨item, hi, hneed⟩ := List.mem_flatMap.mp hneed
      obtain ⟨i, hrange, rfl⟩ := List.mem_map.mp hneed
      refine ⟨(item.1, i), ⟨hmemKeys item hi, ?_⟩, hname⟩
      rw [hu.counts item hi]
      have := List.mem_range'_1.mp hrange
      show i < replicaCount st.alpha item.2
      omega
  · rintro ⟨r, ⟨hr, hlt⟩, rfl⟩
    rcases List.mem_append.mp hr with hk | hk
    · obtain ⟨item, hi, hkeyi⟩ := hd.exists_item hk
      rw [← hkeyi, hu.counts item hi] at hlt
      rw [← hkeyi]
      by_cases hold : r.2 < st.replicas item.1
      · left
        exact ⟨(h.counted _).mpr ⟨(item.1, r.2), ⟨hmemKeys item hi, hold⟩, rfl⟩,
          hkeeps.kept item hi r.2 hold hlt⟩
      · right
        refine ⟨(item.1, r.2), List.mem_append_left _ (List.mem_flatMap.mpr ⟨item, hi, ?_⟩), rfl⟩
        exact List.mem_map_of_mem (List.mem_range'_1.mpr ⟨by omega, by omega⟩)
    · rw [List.mem_singleton] at hk
      rw [hk, h.replicas_dummyKey hd hu] at hlt
      rw [hk]
      left
      exact ⟨(h.counted _).mpr ⟨(st.dummyKey, r.2), ⟨by simp, hlt⟩, rfl⟩,
        hkeeps.keptDummy r.2 hlt⟩

end Change

/-- **A change** that keeps the names keeps the invariant. -/
theorem Present.updates {d : Distribution} (h : st.Present keys) (hnd : keys.Nodup)
    (hd : DistributionOver keys d) (hkeeps : st.KeepsNames d)
    (hupdate : st.updateDistribution d = .ok st') : st'.Present keys := by
  have hpairs := hd.pairs_nodup hnd
  have hu := updateDistribution_spec hpairs hupdate
  have hr := redistributed_of_updateDistribution hpairs hupdate
  have hkey : st'.dummyKey = st.dummyKey := hu.kept.dummyKey
  have hdummy := h.replicas_dummyKey hd hu
  have hargs : CallerArguments d (1 / keys.length) _ := hd.callerArguments hnd rfl
  have hn : (0 : ℚ) < d.items.length := by exact_mod_cast hargs.keys_pos
  have hpMax : 0 < st'.pMax := lt_of_lt_of_le (one_div_pos.mpr hn) hr.pMax
  have hmemItems : ∀ key ∈ d.items, key ∈ keys ++ [st.dummyKey] := by
    intro key hk
    exact List.mem_append_left _ (hd.items.mem_iff.mp hk)
  exact
    { alpha := by rw [hr.alpha]; exact h.alpha
      dummyKey := by rw [hkey]; exact h.dummyKey
      positive := by
        rw [hkey]
        intro key hk
        rcases List.mem_append.mp hk with hk | hk
        · obtain ⟨item, hi, rfl⟩ := hd.exists_item hk
          rw [hu.counts item hi]
          exact Nat.ceil_pos.mpr (div_pos (hd.positive _ (List.of_mem_zip hi).2) h.alpha)
        · rw [List.mem_singleton.mp hk, hdummy]
          exact h.positive _ (by simp)
      known := by
        rw [hkey]
        intro key hk
        by_cases hm : key ∈ d.pairs.map Prod.fst
        · exact List.mem_append_left _ (hd.mem_pairs_map_fst.mp hm)
        · rw [hu.others key hm] at hk
          exact h.known key hk
      dummies := by rw [hkey, hdummy, hu.dummyKeys, hkeeps.dummies]
      counted := h.counted_change hd hkeeps hu (mem_updateDistribution hpairs hupdate)
      missing := by
        intro key value bitVec hl
        have hfrequency : st'.frequency key = st'.newFrequency key := by
          rw [frequency, hr.frequencies, newFrequency]
        rw [hfrequency]
        exact ⟨hu.sizes key _ hl, hr.bounded key (Finmap.mem_iff.mpr ⟨_, hl⟩), hpMax⟩
      real := by
        rw [hkey, hr.real]
        exact ⟨hd.lengths, hmemItems⟩
      fake := by
        rw [hkey, hr.fake, hkey]
        refine ⟨by simp [Distribution.pairs, hd.lengths], ?_⟩
        intro key hk
        rcases List.mem_append.mp hk with hk | hk
        · exact hmemItems key hk
        · exact List.mem_append_right _ hk }

theorem Present.step {e : Event} (h : st.Present keys) (hnd : keys.Nodup)
    (hs : KeepingSteps keys st e st') : st'.Present keys := by
  obtain ⟨htaken, hkeeps⟩ := hs
  cases htaken with
  | call hx => exact h.executes hx
  | update hd hu => exact h.updates hnd hd (hkeeps _ rfl) hu

end Present

/-! ## After `create_replicas` -/

/-- **Initially**: `create_replicas` counts the replicas it has labelled. -/
theorem Created.present {st₁ st : Proxy} {values : Nat → Str} {delta : ℚ}
    (hc : Created st₁ values st) (h : CallerArguments st₁.realDistribution st₁.alpha delta)
    (hdummy : st₁.dummyKey ∉ st₁.realDistribution.items) (hfresh : st₁.Fresh) :
    st.Present st₁.realDistribution.items := by
  have hdk : st.dummyKey = st₁.dummyKey := by rw [hc.rest]
  have hdks : st.dummyKeys = st₁.dummyCount values := by rw [hc.rest]
  have hdummies : st.replicas st.dummyKey = st.dummyKeys := by
    rw [hdk, (hc.counts_eq h).2, hdks]
  have hreal : st.realDistribution = st₁.realDistribution := by rw [hc.rest]
  have hfake : st.fakeDistribution = { items := st₁.realDistribution.items ++ [st₁.dummyKey]
                                       probabilities := st₁.fakeWeights values } := by rw [hc.rest]
  exact
    { alpha := by
        rw [show st.alpha = st₁.alpha by rw [hc.rest]]
        exact h.alpha_pos
      dummyKey := by rw [hdk]; exact hdummy
      positive := by
        rw [hdk]
        intro key hk
        exact hc.replicas_pos hfresh h hk
      known := by
        rw [hdk]
        intro key hk
        obtain ⟨b, hb, rfl, -⟩ := hc.block_of_live hfresh hk
        exact (allBlocks_keys_sublist values h.lengths).subset (List.mem_map_of_mem hb)
      dummies := hdummies
      counted := by
        intro name
        rw [hc.replicaToLabel_eq h hdummy hfresh, mem_numbered, mem_liveNames hdummies]
      missing := by
        intro key value bitVec hl
        rw [show st.missingNewReplicas = ∅ by rw [hc.rest]; exact hfresh.missing] at hl
        simp at hl
      real := by
        rw [hreal]
        exact ⟨h.lengths, fun key hk => List.mem_append_left _ hk⟩
      fake := by
        rw [hfake, hdk]
        have hd := (dummyCount_eq h values).2.1
        refine ⟨?_, fun key hk => hk⟩
        rw [fakeWeights, if_neg (by omega)]
        simp [Distribution.pairs, h.lengths] }

/-- **Every sampled replica has a label** in every state of a run whose
changes keep the names. -/
theorem sampledPresent_of_keeping {st₀ st st' : Proxy} {dist : Distribution} {alpha delta : ℚ}
    {values : Nat → Str} (hfresh : st₀.Fresh) (h : CallerArguments dist alpha delta)
    (hdummy : st₀.dummyKey ∉ dist.items) (hinit : st₀.init dist alpha delta values = .ok st)
    {events : List Event} (hrun : Run (KeepingSteps dist.items) st events st') :
    st'.SampledPresent dist.items := by
  obtain ⟨values', hc⟩ := exists_created_of_init h.lengths h.keys_pos hinit
  have hstart : st.Present dist.items := hc.present h hdummy (hfresh.takeArguments _ _ _)
  have hend : st'.Present dist.items :=
    hrun.invariant (I := fun _ st => st.Present dist.items) hstart
      fun _ hi hs => hi.step h.keys hs
  exact hend.sampledPresent

/-- A get from the third replica of the last key, which then goes to another
key: the number of dummies stays. -/
def shiftingRun : Except Fault (Proxy × Proxy × Proxy × List (Promise × Str)) := do
  let st₀ ← blank.init (hotLast (1 / 250) (1 / 250)) (1 / 25) (1 / 2) firstStrings
  let (st₁, fulfilled) ← st₀.executeBatchWith (getOnly ['Y']) [2]
  let st₂ ← st₁.updateDistribution (hotLast (1 / 250) (101 / 2500))
  .ok (st₀, st₁, st₂, fulfilled)

theorem shiftingRun_returns : ∃ r, shiftingRun = .ok r ∧
    r.1.missingNewReplicas.lookup ['Y'] = none ∧ r.1.replicas ['Y'] = 3 ∧
    r.2.2.2 = [(0, ['b'])] ∧ [['X'], ['Y']].map r.2.2.1.replicas = [2, 2] ∧
    r.2.1.KeepsNames (hotLast (1 / 250) (101 / 2500)) := by
  obtain ⟨r, hrun, hmiss, hcount, hanswer, hcounts, hdummies, hkept, hkeptDummy⟩ :
      ∃ r, shiftingRun = .ok r ∧ r.1.missingNewReplicas.lookup ['Y'] = none ∧
        r.1.replicas ['Y'] = 3 ∧ r.2.2.2 = [(0, ['b'])] ∧
        [['X'], ['Y']].map r.2.2.1.replicas = [2, 2] ∧
        r.2.1.newDummyKeys (hotLast (1 / 250) (101 / 2500))
          = r.2.1.replicas r.2.1.dummyKey ∧
        (∀ item ∈ (hotLast (1 / 250) (101 / 2500)).pairs, ∀ i < r.2.1.replicas item.1,
          i < replicaCount r.2.1.alpha item.2 →
            replicaName item.1 i ∉ r.2.1.released (hotLast (1 / 250) (101 / 2500))) ∧
        ∀ i < r.2.1.replicas r.2.1.dummyKey,
          replicaName r.2.1.dummyKey i ∉ r.2.1.released (hotLast (1 / 250) (101 / 2500)) :=
    exists_ok_of_decide (by decide +kernel)
  exact ⟨r, hrun, hmiss, hcount, hanswer, hcounts, hdummies, hkept, hkeptDummy⟩

theorem sampledPresent_of_keeping_hotLast :
    ∃ st st', blank.init (hotLast (1 / 250) (1 / 250)) (1 / 25) (1 / 2) firstStrings = .ok st ∧
      Run (KeepingSteps letters) st
        [.call ⟨getOnly ['Y'], [2], [(0, ['b'])]⟩, .update (hotLast (1 / 250) (101 / 2500))] st' ∧
      st'.replicas ['X'] = 2 ∧ st'.replicas ['Y'] = 2 ∧ st'.SampledPresent letters := by
  obtain ⟨r, hrun, hmiss, hcount, hanswer, hcounts, hkeeps⟩ := shiftingRun_returns
  simp only [shiftingRun, bind_eq_ok] at hrun
  obtain ⟨st₀, hinit, ⟨st₁, fulfilled⟩, hget, st₂, hupdate, hr⟩ := hrun
  cases hr
  cases hanswer
  simp only [List.map_cons, List.map_nil, List.cons.injEq, and_true] at hcounts
  have hcall : st₀.Executes ⟨getOnly ['Y'], [2], [(0, ['b'])]⟩ st₁ := by
    refine ⟨possible_chooseReplicas_single ?_, hget⟩
    exact (UpdateCache.possible_sampleAReplica_of_none hmiss).mpr
      (show 2 < st₀.replicas ['Y'] by rw [hcount]; decide)
  have hsteps : Run (KeepingSteps letters) st₀
      [.call ⟨getOnly ['Y'], [2], [(0, ['b'])]⟩, .update (hotLast (1 / 250) (101 / 2500))] st₂ := by
    apply Run.snoc (Run.single ⟨.call hcall, fun d hd => by cases hd⟩)
    refine ⟨.update (hotLast_over (by norm_num) (by norm_num) (by norm_num)) hupdate, ?_⟩
    intro d hd
    cases hd
    exact hkeeps
  exact ⟨st₀, st₂, hinit, hsteps, hcounts.1, hcounts.2,
    sampledPresent_of_keeping ⟨rfl, rfl, rfl, rfl⟩ hotLast_arguments (by decide) hinit hsteps⟩

/-- **The failing run**: the change takes the last of the twenty-five dummies
away. `execute_batch` still counts twenty-five, so that a fake access can
draw it, and the look-up of its name inserts the label 0. -/
theorem dummy_sampled_absent :
    CallerArguments evenLetters (1 / 25) (1 / 2) ∧
    ∃ st st', blank.init evenLetters (1 / 25) (1 / 2) firstStrings = .ok st ∧
      Run (Advances letters) st [.update tiltedLetters] st' ∧
      st'.replicas st'.dummyKey = 25 ∧ st'.dummyKeys = 24 ∧
      st'.Samples st'.dummyKey false 24 ∧ replicaName st'.dummyKey 24 ∉ st'.replicaToLabel ∧
      st'.labelOf st'.dummyKey 24 = ['0'] ∧
      ¬ st'.SampledPresent letters := by
  refine ⟨evenLetters_arguments, ?_⟩
  obtain ⟨r, hrun, hcount, hdummies, hmiss, habsent, hlabel⟩ :
      ∃ r, (do let st₀ ← blank.init evenLetters (1 / 25) (1 / 2) firstStrings
               let st₁ ← st₀.updateDistribution tiltedLetters
               Except.ok (st₀, st₁)) = .ok r ∧
        r.2.replicas r.2.dummyKey = 25 ∧ r.2.dummyKeys = 24 ∧
        r.2.missingNewReplicas.lookup r.2.dummyKey = none ∧
        replicaName r.2.dummyKey 24 ∉ r.2.replicaToLabel ∧
        r.2.labelOf r.2.dummyKey 24 = ['0'] :=
    exists_ok_of_decide (by decide +kernel)
  simp only [bind_eq_ok] at hrun
  obtain ⟨st₀, hinit, st₁, hupdate, hr⟩ := hrun
  cases hr
  have hsamples : st₁.Samples st₁.dummyKey false 24 :=
    (UpdateCache.possible_sampleAReplica_of_none hmiss).mpr (by rw [hcount]; norm_num)
  refine ⟨st₀, st₁, hinit, Run.single (.update tiltedLetters_over hupdate), hcount, hdummies,
    hsamples, habsent, hlabel, ?_⟩
  intro h
  exact habsent (h.returned _ (by simp) false 24 hsamples)

end Proxy

end Pancake
