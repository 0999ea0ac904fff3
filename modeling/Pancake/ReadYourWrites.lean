import Pancake.FrequencySmoothing
import Pancake.Lib.Runs

/-!
# Read your writes

Runs of one consumer under a static distribution: any number of
`execute_batch` calls from the state `init` leaves, the labels of each call
pairwise distinct. Every get is answered with the latest put of its key, and
the invariant behind it (`Consistent`) holds in every state reached.
-/

namespace Pancake

open LazyReplicas

/-- One `execute_batch` call: its arguments, the replica ids drawn, and what
it fulfils. -/
structure Call where
  batch : Batch
  replicaIds : List Nat
  fulfilled : List (Promise × Str)

namespace Proxy

/-- `execute_batch` takes `st` to `st'`, with one outcome of its draws. -/
structure Executes (st : Proxy) (c : Call) (st' : Proxy) : Prop where
  drawn : (st.chooseReplicas c.batch.operations c.batch.isTrues).Possible (.ok c.replicaIds)
  returns : st.executeBatchWith c.batch c.replicaIds = .ok (st', c.fulfilled)

/-- The outcomes of `execute_batch` that return are its `Executes` steps. -/
theorem possible_executeBatch {st st' : Proxy} {b : Batch} {fulfilled : List (Promise × Str)} :
    (st.executeBatch b).Possible (.ok (st', fulfilled)) ↔
      ∃ ids, st.Executes ⟨b, ids, fulfilled⟩ st' := by
  rw [executeBatch, Sampler.possible_map]
  constructor
  · rintro ⟨r, hr, he⟩
    cases r with
    | error e => simp at he
    | ok ids => exact ⟨ids, hr, he⟩
  · rintro ⟨ids, hd, hr⟩
    exact ⟨.ok ids, hd, hr⟩

/-- A call of a well-formed batch whose labels are pairwise distinct. -/
structure DistinctCall (st : Proxy) (c : Call) (st' : Proxy) : Prop extends
    st.Executes c st' where
  wellFormed : c.batch.WellFormed st.encryptionEngine
  distinctLabels : (st.batchLabels c.batch c.replicaIds).Nodup

/-! ## What a get should see -/

/-- The value of the latest put of `key` among `earlier`, or the initial one. -/
def latestPut (initial : Str → Str) (earlier : List Operation) (key : Str) : Str :=
  match (earlier.filter fun op => op.key = key && op.value ≠ []).getLast? with
  | some op => op.value
  | none => initial key

/-- What the real operations of a list are answered with, after `earlier`: a
put with its own value, a get with the latest put of its key. -/
def expected (initial : Str → Str) : List Operation → List Operation → List Bool → List Str
  | earlier, op :: ops, t :: isTrues =>
      let rest := expected initial (earlier ++ [op]) ops isTrues
      if t then (if op.value = [] then latestPut initial earlier op.key else op.value) :: rest
      else rest
  | _, _, _ => []

/-- The operations of a list of calls, in run order. -/
def operationsOf (calls : List Call) : List Operation :=
  calls.flatMap fun c => c.batch.operations

theorem operationsOf_append (cs ds : List Call) :
    operationsOf (cs ++ ds) = operationsOf cs ++ operationsOf ds := List.flatMap_append

/-- An operation moves the latest puts as its access moves the current values. -/
theorem latestPut_append (initial : Str → Str) (earlier : List Operation) (op : Operation)
    (lab : Str → Nat → Str) (t : Bool) (id : Nat) :
    latestPut initial (earlier ++ [op])
      = current (latestPut initial earlier) (accessOf lab op t id) := by
  funext key
  by_cases hv : op.value = []
  · simp [latestPut, current, accessOf, hv, List.filter_append]
  · by_cases hk : op.key = key
    · subst hk
      simp [latestPut, current, accessOf, hv, List.filter_append]
    · simp [latestPut, current, accessOf, hv, hk, List.filter_append, Ne.symm hk]

/-- The current values along a batch, answered, are the expected answers. -/
theorem answers_currents (initial : Str → Str) (lab : Str → Nat → Str) (ops : List Operation) :
    ∀ (earlier : List Operation) (isTrues : List Bool) (ids : List Nat),
    isTrues.length = ops.length → ids.length = ops.length →
    answers (accesses lab ops isTrues ids)
        (currents (latestPut initial earlier) (accesses lab ops isTrues ids))
      = expected initial earlier ops isTrues ∧
    (accesses lab ops isTrues ids).foldl current (latestPut initial earlier)
      = latestPut initial (earlier ++ ops) := by
  induction ops with
  | nil =>
      intro earlier isTrues ids _ _
      simp [accesses, answers, expected]
  | cons op ops ih =>
      intro earlier isTrues ids ht hi
      cases isTrues with
      | nil => simp at ht
      | cons t isTrues =>
      cases ids with
      | nil => simp at hi
      | cons id ids =>
      simp only [List.length_cons, Nat.add_right_cancel_iff] at ht hi
      obtain ⟨hans, hfold⟩ := ih (earlier ++ [op]) isTrues ids ht hi
      rw [latestPut_append initial earlier op lab t id] at hans hfold
      have hown : current (latestPut initial earlier) (accessOf lab op t id) op.key
          = if op.value = [] then latestPut initial earlier op.key else op.value := by
        by_cases hv : op.value = [] <;> simp [current, accessOf, hv]
      constructor
      · rw [accesses, currents, show (accessOf lab op t id).key = op.key from rfl, hown, answers,
          hans, expected, show (accessOf lab op t id).answered = t from rfl]
      · rw [accesses, List.foldl_cons, hfold, List.append_assoc, List.singleton_append]

/-! ## Runs -/

/-- A call from a state consistent with the latest puts. -/
theorem Consistent.distinctCall {st st' : Proxy} {initial : Str → Str} {earlier : List Operation}
    {c : Call} (h : st.Consistent (latestPut initial earlier)) (hc : st.DistinctCall c st') :
    c.fulfilled = c.batch.promises.zip (expected initial earlier c.batch.operations c.batch.isTrues) ∧
      st'.Consistent (latestPut initial (earlier ++ c.batch.operations)) ∧ Frame st st' := by
  have hids := (possible_chooseReplicas h.noMissing hc.wellFormed.truesLength).mp hc.drawn
  obtain ⟨st'', hrun, hcons, hframe⟩ := h.executeBatchWith hc.wellFormed hids hc.distinctLabels
  obtain ⟨hans, hfold⟩ := answers_currents initial st.labelOf c.batch.operations earlier
    c.batch.isTrues c.replicaIds hc.wellFormed.truesLength hids.length_eq.symm
  rw [hc.returns] at hrun
  obtain ⟨rfl, hf⟩ := Prod.mk.inj (Except.ok.inj hrun)
  refine ⟨?_, ?_, hframe⟩
  · rw [hf, ← hans]
    rfl
  · rw [← hfold]
    exact hcons

/-- **The run**: the answers of every call, and consistency at the end. -/
theorem Consistent.run {st st' : Proxy} {initial : Str → Str} {calls : List Call}
    (h : st.Consistent initial) (hr : Run DistinctCall st calls st') :
    (∀ pre c post, calls = pre ++ c :: post → c.fulfilled = c.batch.promises.zip
      (expected initial (operationsOf pre) c.batch.operations c.batch.isTrues)) ∧
    st'.Consistent (latestPut initial (operationsOf calls)) ∧ Frame st st' := by
  refine hr.invariant (I := fun calls st' =>
    (∀ pre c post, calls = pre ++ c :: post → c.fulfilled = c.batch.promises.zip
      (expected initial (operationsOf pre) c.batch.operations c.batch.isTrues)) ∧
    st'.Consistent (latestPut initial (operationsOf calls)) ∧ Frame st st') ?_ ?_
  · exact ⟨fun pre c post he => by simp at he, h, .refl st⟩
  · intro calls st₁ c st₂ _ ⟨hans, hcons, hframe⟩ hstep
    obtain ⟨hf, hcons', hframe'⟩ := hcons.distinctCall hstep
    refine ⟨fun pre d post he => ?_, ?_, hframe.trans hframe'⟩
    · rcases List.eq_nil_or_concat post with rfl | ⟨post, e, rfl⟩
      · obtain ⟨rfl, hd⟩ := List.append_inj' he rfl
        cases hd
        exact hf
      · rw [List.concat_eq_append, ← List.cons_append, ← List.append_assoc] at he
        obtain ⟨hpre, -⟩ := List.append_inj' he rfl
        exact hans pre d post hpre
    · rw [operationsOf_append]
      simpa [operationsOf] using hcons'

/-- What `create_replicas` can work with: a weight for each key, and no more than
`2n` replicas for all of them, as `alpha_ ≥ 1/n` makes sure. With more the number
of dummies wraps and `init` throws. -/
structure ReplicasFit (dist : Distribution) (alpha : ℚ) : Prop where
  lengths : dist.items.length = dist.probabilities.length
  fits : (dist.probabilities.map (replicaCount alpha)).sum ≤ 2 * dist.items.length

theorem ReplicasFit.of_callerArguments {dist : Distribution} {alpha delta : ℚ}
    (h : CallerArguments dist alpha delta) : ReplicasFit dist alpha :=
  ⟨h.lengths, h.sum_replicaCount.2.le⟩

/-- **Read your writes.** `init` returns, and in every run of calls with
distinct labels from there every get is answered with the latest preceding
put of its key, or its initial value; in every state reached every live
replica has its key's current value pending or stored; and there every
further such call returns. -/
theorem readYourWrites {st₀ : Proxy} {dist : Distribution} {alpha delta : ℚ} {values : Nat → Str}
    (hfresh : st₀.Fresh) (hfit : ReplicasFit dist alpha)
    (hkeys : (dist.items ++ [st₀.dummyKey]).Nodup)
    (hv : ∀ i, st₀.encryptionEngine.RoundTrips (values i)) :
    ∃ st, st₀.init dist alpha delta values = .ok st ∧
      (st.DistinctNames → ∀ calls st', Run DistinctCall st calls st' →
        (∀ pre c post, calls = pre ++ c :: post → c.fulfilled = c.batch.promises.zip
          (expected (initialValue dist.items st₀.dummyKey values) (operationsOf pre)
            c.batch.operations c.batch.isTrues)) ∧
        (∀ key i, i < st'.replicas key → st'.ReplicaHolds key i
          (latestPut (initialValue dist.items st₀.dummyKey values) (operationsOf calls) key)) ∧
        (∀ b : Batch, b.WellFormed st'.encryptionEngine →
          (∀ op ∈ b.operations, 0 < st'.replicas op.key) →
          ∀ drawn, (st'.chooseReplicas b.operations b.isTrues).Possible drawn →
            ∃ ids, drawn = .ok ids ∧ ((st'.batchLabels b ids).Nodup →
              ∃ st'' fulfilled, st'.DistinctCall ⟨b, ids, fulfilled⟩ st''))) := by
  obtain ⟨st, hinit, hcreated⟩ := init_created dist alpha delta
    fun i => (hv i).encrypts
  refine ⟨st, hinit, fun hnames calls st' hr => ?_⟩
  have hcons := hcreated.consistent (hfresh.takeArguments _ _ _) hv hfit.lengths hkeys hnames
  obtain ⟨hans, hcons', -⟩ := hcons.run hr
  refine ⟨hans, fun key i hi => hcons'.replicaHolds hi, fun b hb hlive drawn hd => ?_⟩
  obtain ⟨ids, rfl⟩ := chooseReplicas_ok hcons'.noMissing hb.truesLength hlive hd
  refine ⟨ids, rfl, fun hnd => ?_⟩
  have hids := (possible_chooseReplicas hcons'.noMissing hb.truesLength).mp hd
  obtain ⟨st'', hrun, -⟩ := hcons'.executeBatchWith hb hids hnd
  exact ⟨st'', _, ⟨hd, hrun⟩, hb, hnd⟩

/-! ## A run

One key and the dummy key, with one replica each: put `v`, then get. -/

/-- A single key, drawn always. -/
def singleKey : Distribution := { items := [['k']], probabilities := [1] }

/-- One replica each has distinct names. -/
theorem singleKey_distinctNames {st : Proxy} (hcounts : st.keyToNumberOfReplicas
    = ((∅ : UnorderedMap Nat).insert ['k'] 1).insert ['d'] 1) : st.DistinctNames := by
  have hlive : ∀ k i, i < st.replicas k → (k = ['d'] ∨ k = ['k']) ∧ i = 0 := by
    intro k i hi
    rw [Proxy.replicas, hcounts, UnorderedMap.at_] at hi
    by_cases hd : k = ['d']
    · subst hd
      simp at hi
      exact ⟨.inl rfl, hi⟩
    · by_cases hk : k = ['k']
      · subst hk
        simp [Finmap.lookup_insert_of_ne] at hi
        exact ⟨.inr rfl, hi⟩
      · simp [Finmap.lookup_insert_of_ne, hd, hk] at hi
  intro k i k' i' hi hi' he
  obtain ⟨hk, rfl⟩ := hlive k i hi
  obtain ⟨hk', rfl⟩ := hlive k' i' hi'
  rcases hk with rfl | rfl <;> rcases hk' with rfl | rfl
  · rfl
  · exact absurd he (by decide)
  · exact absurd he (by decide)
  · rfl

theorem singleKey_consistent {st₀ st : Proxy} (hfresh : st₀.Fresh) (hdummy : st₀.dummyKey = ['d'])
    (hengine : st₀.encryptionEngine = blank.encryptionEngine)
    (hinit : st₀.init singleKey 1 (1 / 2) firstStrings = .ok st)
    (hcounts : st.keyToNumberOfReplicas
      = ((∅ : UnorderedMap Nat).insert ['k'] 1).insert ['d'] 1) :
    st.Consistent (initialValue singleKey.items ['d'] firstStrings) ∧
      st.encryptionEngine = blank.encryptionEngine ∧ st.replicas ['k'] = 1 := by
  have hv : ∀ i, st₀.encryptionEngine.RoundTrips (firstStrings i) := by
    rw [hengine]
    exact firstStrings_roundTrips
  have hc := created_of_init (fun i => (hv i).encrypts) hinit
  refine ⟨?_, hc.engine.trans hengine, ?_⟩
  · rw [← hdummy]
    refine hc.consistent (hfresh.takeArguments _ _ _) hv rfl ?_ (singleKey_distinctNames hcounts)
    rw [hdummy]
    show (singleKey.items ++ [['d']]).Nodup
    decide
  · rw [Proxy.replicas, hcounts]
    simp [UnorderedMap.at_, Finmap.lookup_insert_of_ne]

theorem blank_counts {st : Proxy} (h : blank.init singleKey 1 (1 / 2) firstStrings = .ok st) :
    st.keyToNumberOfReplicas = ((∅ : UnorderedMap Nat).insert ['k'] 1).insert ['d'] 1 := by
  have hm : (blank.init singleKey 1 (1 / 2) firstStrings).map keyToNumberOfReplicas
      = .ok (((∅ : UnorderedMap Nat).insert ['k'] 1).insert ['d'] 1) := by decide +kernel
  rw [h] at hm
  exact Except.ok.inj hm

theorem blank_distinctNames {st : Proxy}
    (h : blank.init singleKey 1 (1 / 2) firstStrings = .ok st) : st.DistinctNames :=
  singleKey_distinctNames (blank_counts h)

/-- The put and the get, as two calls. -/
def putCall : Batch := { operations := [⟨['k'], ['v']⟩], isTrues := [true], promises := [0] }
def getCall : Batch := { operations := [⟨['k'], []⟩], isTrues := [true], promises := [1] }

theorem blank_consistent {st : Proxy}
    (h : blank.init singleKey 1 (1 / 2) firstStrings = .ok st) :
    st.Consistent (initialValue singleKey.items blank.dummyKey firstStrings) ∧
      st.encryptionEngine = blank.encryptionEngine ∧ st.replicas ['k'] = 1 :=
  singleKey_consistent ⟨rfl, rfl, rfl, rfl⟩ rfl rfl h (blank_counts h)

/-- The put and then the get run, and the get is answered with the put's value. -/
theorem putCall_getCall_run {st : Proxy}
    (hinit : blank.init singleKey 1 (1 / 2) firstStrings = .ok st) : ∃ st', Run DistinctCall st
      [⟨putCall, [0], [(0, ['v'])]⟩, ⟨getCall, [0], [(1, ['v'])]⟩] st' := by
  obtain ⟨hcons, hengine, hk⟩ := blank_consistent hinit
  have hput : putCall.WellFormed st.encryptionEngine := by
    rw [hengine]
    refine ⟨rfl, by decide, fun op hop _ => ?_⟩
    simp only [putCall, List.mem_singleton] at hop
    subst hop
    exact ⟨Evp.padding.encrypt [] [] ['v'], by decide +kernel, by decide +kernel⟩
  have hids : ∀ v, List.Forall₂ (fun (op : Operation) id => id < st.replicas op.key)
      [⟨['k'], v⟩] [0] := fun v => by simp [hk]
  obtain ⟨st₁, hrun₁, hcons₁, hfr₁⟩ := hcons.executeBatchWith hput (hids _) (by
    simp [batchLabels, putCall, resolve])
  have hcall₁ : st.DistinctCall ⟨putCall, [0], [(0, ['v'])]⟩ st₁ :=
    ⟨⟨(possible_chooseReplicas hcons.noMissing rfl).mpr (hids _), hrun₁⟩, hput, by
      simp [batchLabels, putCall, resolve]⟩
  have hget : getCall.WellFormed st₁.encryptionEngine :=
    ⟨rfl, by decide, fun op hop hne => by
      simp only [getCall, List.mem_singleton] at hop
      subst hop
      exact absurd rfl hne⟩
  have hids₁ : List.Forall₂ (fun (op : Operation) id => id < st₁.replicas op.key)
      getCall.operations [0] := by rw [hfr₁.replicas]; exact hids _
  obtain ⟨st₂, hrun₂, -⟩ := hcons₁.executeBatchWith hget hids₁ (by
    simp [batchLabels, getCall, resolve])
  have hcall₂ : st₁.DistinctCall ⟨getCall, [0], [(1, ['v'])]⟩ st₂ :=
    ⟨⟨(possible_chooseReplicas hcons₁.noMissing rfl).mpr hids₁, hrun₂⟩, hget, by
      simp [batchLabels, getCall, resolve]⟩
  exact ⟨st₂, (Run.single hcall₁).snoc hcall₂⟩

/-- What `readYourWrites` says after that run. -/
theorem readYourWrites_blank : ∃ st st', blank.init singleKey 1 (1 / 2) firstStrings = .ok st ∧
    Run DistinctCall st
      [⟨putCall, [0], [(0, ['v'])]⟩, ⟨getCall, [0], [(1, ['v'])]⟩] st' ∧
    (∀ key i, i < st'.replicas key → st'.ReplicaHolds key i
      (latestPut (initialValue singleKey.items blank.dummyKey firstStrings)
        [⟨['k'], ['v']⟩, ⟨['k'], []⟩] key)) := by
  have hkeys : (singleKey.items ++ [blank.dummyKey]).Nodup := by decide
  obtain ⟨st, hinit, h⟩ := @readYourWrites blank singleKey 1 (1 / 2) firstStrings
    ⟨rfl, rfl, rfl, rfl⟩ ⟨rfl, by decide +kernel⟩ hkeys firstStrings_roundTrips
  obtain ⟨st', hrun⟩ := putCall_getCall_run hinit
  exact ⟨st, st', hinit, hrun, (h (blank_distinctNames hinit) _ _ hrun).2.1⟩

end Proxy

end Pancake
