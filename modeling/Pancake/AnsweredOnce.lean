import Pancake.Lib.FlaggedLists
import Pancake.Lib.Runs
import Pancake.Redistribution
import Pancake.SecurityBatch

/-!
# Which value answers which operation

A storage batch is three vectors filled side by side over any number of
`create_security_batch` calls, and `execute_batch` walks the promises with a
counter of its own. The invariant of the filling is that the flagged
operations, paired with the promises, are what was popped from the queue;
then the counter cannot slip.
-/

namespace Pancake

/-! ## The queue -/

namespace OpQueue

/-- All that has been in the queue by its `n`-th look. -/
def seen (q : OpQueue) (n : Nat) : List Queued :=
  q.pending ++ (List.range n).flatMap q.arrivals

/-- `popped` is what has been taken out of `q`, oldest first, when `q'` is
left: with what is still in it, it is all that was seen. -/
def Popped (q : OpQueue) (popped : List Queued) (q' : OpQueue) : Prop :=
  ∃ n, q'.arrivals = (fun i => q.arrivals (n + i)) ∧ q.seen n = popped ++ q'.pending

theorem Popped.refl (q : OpQueue) : q.Popped [] q := by
  refine ⟨0, ?_, by simp [seen]⟩
  funext i
  rw [Nat.zero_add]

theorem Popped.trans {q q₁ q₂ : OpQueue} {xs ys : List Queued} (h : q.Popped xs q₁)
    (h' : q₁.Popped ys q₂) : q.Popped (xs ++ ys) q₂ := by
  obtain ⟨n, harrivals, hseen⟩ := h
  obtain ⟨m, harrivals', hseen'⟩ := h'
  refine ⟨n + m, ?_, ?_⟩
  · rw [harrivals', harrivals]
    funext i
    rw [Nat.add_assoc]
  · calc q.seen (n + m)
        = q.seen n ++ (List.range m).flatMap (fun i => q.arrivals (n + i)) := by
          rw [seen, seen, List.range_add, List.flatMap_append, List.flatMap_map, List.append_assoc]
      _ = xs ++ q₁.seen m := by rw [hseen, seen, harrivals, List.append_assoc]
      _ = xs ++ ys ++ q₂.pending := by rw [hseen', List.append_assoc]

/-- Looking takes nothing out. -/
theorem Popped.look (q : OpQueue) : q.Popped [] q.look := by
  refine ⟨1, ?_, by simp [seen, OpQueue.look]⟩
  funext i
  rw [Nat.add_comm 1 i]
  rfl

theorem Popped.head {q : OpQueue} {p : Queued} {rest : List Queued} (h : q.pending = p :: rest) :
    q.Popped [p] { q with pending := rest } := by
  refine ⟨0, ?_, by simp [seen, h]⟩
  funext i
  rw [Nat.zero_add]

/-- What was popped was seen. -/
theorem Popped.seen {q q' : OpQueue} {popped : List Queued} (h : q.Popped popped q') :
    ∃ n, ∀ p ∈ popped, p ∈ q.seen n := by
  obtain ⟨n, -, hseen⟩ := h
  refine ⟨n, ?_⟩
  intro p hp
  rw [hseen]
  exact List.mem_append_left _ hp

theorem mem_seen_of_le {q : OpQueue} {m n : Nat} (h : m ≤ n) {p : Queued} (hp : p ∈ q.seen m) :
    p ∈ q.seen n := by
  rcases List.mem_append.mp hp with hp | hp
  · exact List.mem_append_left _ hp
  · apply List.mem_append_right
    obtain ⟨i, hi, hp⟩ := List.mem_flatMap.mp hp
    rw [List.mem_range] at hi
    exact List.mem_flatMap.mpr ⟨i, List.mem_range.mpr (by omega), hp⟩

/-- Every operation that is ever seen has a promise of its own. -/
def Distinct (q : OpQueue) : Prop := ∀ n, ((q.seen n).map Prod.snd).Nodup

/-- So a promise has one operation. -/
theorem Distinct.operation_eq {q : OpQueue} (h : q.Distinct) {m n : Nat} {op op' : Operation}
    {p : Promise} (hp : (op, p) ∈ q.seen m) (hp' : (op', p) ∈ q.seen n) : op = op' := by
  have hmem := mem_seen_of_le (le_max_left m n) hp
  have hmem' := mem_seen_of_le (le_max_right m n) hp'
  have heq := List.inj_on_of_nodup_map (h (max m n)) hmem hmem' rfl
  exact (Prod.mk.inj heq).1

end OpQueue

/-! ## Filling a batch -/

/-- The operations of the batch that answer a client, with their promises. -/
def Batch.popped (b : Batch) : List Queued := (selected b.isTrues b.operations).zip b.promises

/-- A batch of `n` slots filled from `q`, of which `q'` is left. -/
structure Batch.FilledFrom (b : Batch) (q q' : OpQueue) (n : Nat) : Prop where
  operations : b.operations.length = n
  isTrues : b.isTrues.length = n
  promises : b.promises.length = b.isTrues.count true
  popped : q.Popped b.popped q'
  fakes : ∀ slot ∈ b.operations.zip b.isTrues, slot.2 = false → slot.1.value = []

/-- What a slot has popped. -/
def Slot.popped (s : Slot) : List Queued := s.promise.toList.map fun p => (s.operation, p)

namespace Proxy

variable {st : Proxy} {q q' : OpQueue} {b b' : Batch} {n : Nat}

/-- A slot takes the head of the queue or none of it; without a promise it is
a get. -/
theorem possible_securitySlot {s : Slot} (h : (st.securitySlot q).Possible (q', s)) :
    q.Popped s.popped q' ∧ (s.promise = none → s.operation.value = []) := by
  obtain ⟨isTrue, -, h⟩ := Sampler.possible_bind.mp h
  cases isTrue with
  | false =>
      rw [if_neg (by decide)] at h
      obtain ⟨key, -, he⟩ := Sampler.possible_map.mp h
      cases he
      exact ⟨.refl q, fun _ => rfl⟩
  | true =>
      rw [if_pos rfl] at h
      cases hq : q.look.pending with
      | nil =>
          rw [hq] at h
          obtain ⟨key, -, he⟩ := Sampler.possible_map.mp h
          cases he
          exact ⟨.look q, fun _ => rfl⟩
      | cons p rest =>
          rw [hq] at h
          cases h
          refine ⟨(OpQueue.Popped.look q).trans (.head hq), ?_⟩
          intro hc
          cases hc

theorem filledFrom_push {q₀ : OpQueue} (h : b.FilledFrom q₀ q n) {s : Slot}
    (hs : (st.securitySlot q).Possible (q', s)) : (b.push s).FilledFrom q₀ q' (n + 1) := by
  obtain ⟨hpopped, hget⟩ := possible_securitySlot hs
  have hlength : b.isTrues.length = b.operations.length := h.isTrues.trans h.operations.symm
  have hselected : (selected b.isTrues b.operations).length = b.promises.length := by
    rw [length_selected hlength, h.promises]
  exact
    { operations := by rw [Batch.push, List.length_append, h.operations]; rfl
      isTrues := by rw [Batch.push, List.length_append, h.isTrues]; rfl
      promises := by
        cases hp : s.promise with
        | none => simp [Batch.push, hp, h.promises]
        | some p => simp [Batch.push, hp, h.promises]
      popped := by
        have hboth : (b.push s).popped = b.popped ++ s.popped := by
          rw [Batch.popped, Batch.push, selected_append hlength, List.zip_append hselected]
          cases hp : s.promise with
          | none => simp [Slot.popped, hp, selected, Batch.popped]
          | some p => simp [Slot.popped, hp, selected, Batch.popped]
        rw [hboth]
        exact h.popped.trans hpopped
      fakes := by
        intro slot hslot hfalse
        rw [Batch.push, List.zip_append hlength.symm, List.zip_cons_cons, List.zip_nil_left,
          List.mem_append, List.mem_singleton] at hslot
        rcases hslot with hslot | rfl
        · exact h.fakes slot hslot hfalse
        · apply hget
          exact Option.isSome_eq_false_iff.mp hfalse |> Option.isNone_iff_eq_none.mp }

theorem filledFrom_securitySlots {q₀ : OpQueue} {m : Nat} (h : b.FilledFrom q₀ q n)
    (hs : (st.securitySlots m q b).Possible (q', b')) : b'.FilledFrom q₀ q' (n + m) := by
  induction m generalizing q b n with
  | zero =>
      cases hs
      exact h
  | succ m ih =>
      obtain ⟨⟨q₁, s⟩, hslot, hs⟩ := Sampler.possible_bind.mp hs
      rw [← Nat.add_assoc, Nat.add_right_comm]
      exact ih (filledFrom_push h hslot) hs

/-- A call of `create_security_batch` on a batch being filled. -/
def SecurityStep (s : OpQueue × Batch) (st : Proxy) (s' : OpQueue × Batch) : Prop :=
  (st.createSecurityBatch s.1 s.2).Possible s'

theorem filledFrom_empty (q : OpQueue) : Batch.FilledFrom ⟨[], [], []⟩ q q 0 where
  operations := rfl
  isTrues := rfl
  promises := rfl
  popped := .refl q
  fakes := by
    intro slot hslot
    cases hslot

/-- **Filling**: after any calls, with any coins. -/
theorem filledFrom_run {calls : List Proxy}
    (h : Run SecurityStep (q, ⟨[], [], []⟩) calls (q', b)) :
    b.FilledFrom q q' (calls.map (·.securityBatchSize)).sum := by
  apply h.invariant (I := fun calls s =>
    s.2.FilledFrom q s.1 (calls.map (·.securityBatchSize)).sum)
  · exact filledFrom_empty q
  · intro calls s st s' _ hi hs
    rw [List.map_append, List.sum_append, List.map_singleton, List.sum_singleton]
    exact filledFrom_securitySlots hi hs

/-! ## Executing it -/

/-- The second loop of `execute_batch` without its promises: the plaintext
computed at each index, and the ciphertexts to write back. -/
def computeAll : Proxy → List Operation → List Nat → List Str →
    Except Fault (Proxy × List Str × List Str)
  | st, [], _, _ => .ok (st, [], [])
  | st, op :: ops, id :: ids, cipher :: ciphers => do
      let (st, plaintext) ← st.serve op id cipher
      let storageValue ← st.encryptionEngine.encrypt plaintext
      let (st, plaintexts, storageValues) ← st.computeAll ops ids ciphers
      .ok (st, plaintext :: plaintexts, storageValue :: storageValues)
  | _, _ :: _, _, _ => .error .indexOutOfBounds

/-- `execute_batch` without its promises. -/
def computeBatch (st : Proxy) (operations : List Operation) (replicaIds : List Nat) :
    Except Fault (Proxy × List Str) := do
  let (st, storageKeys) := st.resolve operations replicaIds
  let (responses, storage) ← st.storage.getBatch storageKeys
  let (st, plaintexts, storageValues) ←
    { st with storage := storage }.computeAll operations replicaIds responses
  .ok ({ st with storage := st.storage.putBatch storageKeys storageValues }, plaintexts)

/-- The counter of the promises keeps up with the flags: nothing else decides
whether the loop returns, and each promise gets the plaintext of its own
operation. -/
theorem serveAll_eq {ops : List Operation} {isTrues : List Bool} {ids : List Nat}
    {ciphers : List Str} {promises : List Promise} (htrues : isTrues.length = ops.length)
    (hpromises : promises.length = isTrues.count true) :
    st.serveAll ops isTrues ids ciphers promises =
      (st.computeAll ops ids ciphers).map fun r =>
        (r.1, r.2.2, promises.zip (selected isTrues r.2.1)) := by
  induction ops generalizing st isTrues ids ciphers promises with
  | nil =>
      rw [serveAll, computeAll]
      simp [Except.map]
  | cons op ops ih =>
      cases isTrues with
      | nil => cases htrues
      | cons t isTrues =>
          cases ids with
          | nil => rfl
          | cons id ids =>
              cases ciphers with
              | nil => rfl
              | cons cipher ciphers =>
                  have htail := Nat.succ.inj htrues
                  rw [serveAll, computeAll]
                  cases hserve : st.serve op id cipher with
                  | error e => rfl
                  | ok r =>
                      obtain ⟨st₁, plaintext⟩ := r
                      have hcount : (if t then isTrues.count true + 1 else isTrues.count true)
                          = promises.length := by
                        rw [hpromises, List.count_cons]
                        cases t <;> rfl
                      obtain ⟨done, rest, hfulfil, hlength, hzip⟩ :=
                        fulfil_spec t promises plaintext hcount.le
                      have hrest : rest.length = isTrues.count true := by
                        rw [hlength] at hcount
                        cases t <;> simp at hcount <;> omega
                      simp only [ok_bind, hfulfil]
                      cases hencrypt : st₁.encryptionEngine.encrypt plaintext with
                      | error e => rfl
                      | ok storageValue =>
                          simp only [ok_bind, ih htail hrest]
                          cases st₁.computeAll ops ids ciphers with
                          | error e => rfl
                          | ok r =>
                              have hselected : selected (t :: isTrues) (plaintext :: r.2.1)
                                  = if t then plaintext :: selected isTrues r.2.1
                                    else selected isTrues r.2.1 := by cases t <;> rfl
                              simp only [Except.map, ok_bind, hselected, hzip]

/-- A batch whose computation succeeds is executed, and every promise is set
to the plaintext at its operation's index. -/
theorem executeBatchWith_eq {ids : List Nat} {plaintexts : List Str} {st' : Proxy}
    (hb : b.FilledFrom q q' n) (h : st.computeBatch b.operations ids = .ok (st', plaintexts)) :
    st.executeBatchWith b ids = .ok (st', b.promises.zip (selected b.isTrues plaintexts)) := by
  simp only [computeBatch, bind_eq_ok] at h
  obtain ⟨⟨responses, storage⟩, hread, ⟨st₁, plaintexts, storageValues⟩, hall, hr⟩ := h
  cases hr
  simp only [executeBatchWith, hread, ok_bind,
    serveAll_eq (hb.isTrues.trans hb.operations.symm) hb.promises, hall, Except.map]

/-- Every operation has a plaintext. -/
theorem computeAll_length {ops : List Operation} {ids : List Nat} {ciphers : List Str}
    {r : Proxy × List Str × List Str} (h : st.computeAll ops ids ciphers = .ok r) :
    r.2.1.length = ops.length := by
  induction ops generalizing st ids ciphers r with
  | nil =>
      cases h
      rfl
  | cons op ops ih =>
      cases ids with
      | nil => cases h
      | cons id ids =>
          cases ciphers with
          | nil => cases h
          | cons cipher ciphers =>
              simp only [computeAll, bind_eq_ok] at h
              obtain ⟨⟨st₁, plaintext⟩, -, storageValue, -, rest, hrest, hr⟩ := h
              cases hr
              exact congrArg Nat.succ (ih hrest)

theorem computeBatch_length {ops : List Operation} {ids : List Nat} {plaintexts : List Str}
    {st' : Proxy} (h : st.computeBatch ops ids = .ok (st', plaintexts)) :
    plaintexts.length = ops.length := by
  simp only [computeBatch, bind_eq_ok] at h
  obtain ⟨_, -, r, hall, hr⟩ := h
  cases hr
  exact computeAll_length hall

end Proxy

/-! ## Round after round -/

/-- One turn of the outer loop of `consumer_thread`: the proxy at each call of
`create_security_batch`, the batch they fill, the proxy that executes it and
the replicas drawn, and what it computes. -/
structure Round where
  calls : List Proxy
  batch : Batch
  proxy : Proxy
  replicaIds : List Nat
  plaintexts : List Str
  after : Proxy

/-- The promises set by the round. -/
def Round.fulfilled (r : Round) : List (Promise × Str) :=
  r.batch.promises.zip (selected r.batch.isTrues r.plaintexts)

/-- A round on the queue in which storage and the engine do not fail. -/
structure Round.Serves (q : OpQueue) (r : Round) (q' : OpQueue) : Prop where
  filled : Run Proxy.SecurityStep (q, ⟨[], [], []⟩) r.calls (q', r.batch)
  computed : r.proxy.computeBatch r.batch.operations r.replicaIds = .ok (r.after, r.plaintexts)

/-- The batch of the round is well paired and is answered. -/
structure Round.Answered (r : Round) : Prop where
  operations : r.batch.operations.length = (r.calls.map (·.securityBatchSize)).sum
  isTrues : r.batch.isTrues.length = (r.calls.map (·.securityBatchSize)).sum
  promises : r.batch.promises.length = r.batch.isTrues.count true
  fakes : ∀ slot ∈ r.batch.operations.zip r.batch.isTrues, slot.2 = false → slot.1.value = []
  executed : r.proxy.executeBatchWith r.batch r.replicaIds = .ok (r.after, r.fulfilled)
  once : r.fulfilled.map Prod.fst = r.batch.promises

/-- `get_batch` has queued gets of `keys` with these promises, and reads the
futures in order; none while one is not set. -/
def getBatch (keys : List Str) (promises : List Promise) : List Queued :=
  (keys.map fun key => ⟨key, []⟩).zip promises

def getBatchReturns (fulfilled : List (Promise × Str)) (promises : List Promise) :
    Option (List Str) :=
  promises.mapM fun p => fulfilled.lookup p

namespace Round

variable {q q' : OpQueue} {r : Round}

theorem Serves.answered (h : r.Serves q q') : r.Answered := by
  have hf := Proxy.filledFrom_run h.filled
  refine ⟨hf.operations, hf.isTrues, hf.promises, hf.fakes, ?_, ?_⟩
  · exact Proxy.executeBatchWith_eq hf h.computed
  · have hlength : r.batch.isTrues.length = r.plaintexts.length := by
      rw [Proxy.computeBatch_length h.computed, hf.isTrues, hf.operations]
    rw [fulfilled, List.map_fst_zip]
    rw [length_selected hlength, hf.promises]

/-- What a promise of the round is set to is the plaintext at an index where
its own operation stands. -/
theorem Serves.exists_index (h : r.Serves q q') {p : Promise} {value : Str}
    (hp : (p, value) ∈ r.fulfilled) :
    ∃ op, (op, p) ∈ r.batch.popped ∧ ∃ i : Nat, r.batch.operations[i]? = some op ∧
      r.batch.isTrues[i]? = some true ∧ r.plaintexts[i]? = some value := by
  have hf := Proxy.filledFrom_run h.filled
  have hlength : r.batch.isTrues.length = r.batch.operations.length :=
    hf.isTrues.trans hf.operations.symm
  obtain ⟨j, hj⟩ := List.mem_iff_getElem?.mp hp
  obtain ⟨hpromise, hvalue⟩ := List.getElem?_zip_eq_some.mp hj
  -- the operation that was pushed with the promise
  have hlt : j < (selected r.batch.isTrues r.batch.operations).length := by
    rw [length_selected hlength, ← hf.promises]
    exact (List.getElem?_eq_some_iff.mp hpromise).1
  have hop := List.getElem?_eq_getElem hlt
  refine ⟨(selected r.batch.isTrues r.batch.operations)[j], ?_, ?_⟩
  · exact List.mem_iff_getElem?.mpr ⟨j, List.getElem?_zip_eq_some.mpr ⟨hop, hpromise⟩⟩
  -- stands where its plaintext was computed
  have hboth : ((selected r.batch.isTrues r.batch.operations)[j], value) ∈
      (selected r.batch.isTrues r.batch.operations).zip
        (selected r.batch.isTrues r.plaintexts) :=
    List.mem_iff_getElem?.mpr ⟨j, List.getElem?_zip_eq_some.mpr ⟨hop, hvalue⟩⟩
  rw [zip_selected] at hboth
  obtain ⟨i, htrue, hi⟩ := mem_selected.mp hboth
  obtain ⟨hoperation, hplaintext⟩ := List.getElem?_zip_eq_some.mp hi
  exact ⟨i, hoperation, htrue, hplaintext⟩

variable {rounds : List Round}

/-- **All rounds**: what they pop is the queue, in order. -/
theorem popped_of_run (h : Run Round.Serves q rounds q') :
    q.Popped (rounds.flatMap (·.batch.popped)) q' ∧
      ∀ r ∈ rounds, ∃ q₁ q₂, r.Serves q₁ q₂ := by
  apply h.invariant (I := fun rounds q' => q.Popped (rounds.flatMap (·.batch.popped)) q' ∧
    ∀ r ∈ rounds, ∃ q₁ q₂, r.Serves q₁ q₂)
  · exact ⟨.refl q, by simp⟩
  · intro rounds q₁ r q₂ _ hi hs
    rw [List.flatMap_append, List.flatMap_singleton]
    refine ⟨hi.1.trans (Proxy.filledFrom_run hs.filled).popped, ?_⟩
    intro r' hr'
    rcases List.mem_append.mp hr' with hr' | hr'
    · exact hi.2 r' hr'
    · rw [List.mem_singleton.mp hr']
      exact ⟨q₁, q₂, hs⟩

end Round

/-- The promises set are those popped, one after the other. -/
theorem fulfilled_map_fst {rounds : List Round} (h : ∀ r ∈ rounds, r.Answered) :
    (rounds.flatMap (·.fulfilled)).map Prod.fst =
      (rounds.flatMap (·.batch.popped)).map Prod.snd := by
  rw [List.map_flatMap, List.map_flatMap]
  apply List.flatMap_congr
  intro r hr
  have hlength : r.batch.isTrues.length = r.batch.operations.length :=
    (h r hr).isTrues.trans (h r hr).operations.symm
  rw [(h r hr).once, Batch.popped, List.map_snd_zip]
  rw [length_selected hlength, (h r hr).promises]

/-- **Every popped operation is answered once, with its own result.** In any
rounds, over any `create_security_batch` calls with any coins, each batch is
well paired and every promise popped is set once, in the order of the queue.
What `get_batch` returns for a key was computed at an index where the get of
that key stands. -/
theorem answered_once {q q' : OpQueue} {rounds : List Round} (hq : q.Distinct)
    (hrun : Run Round.Serves q rounds q') :
    (∀ r ∈ rounds, r.Answered) ∧
    q.Popped (rounds.flatMap (·.batch.popped)) q' ∧
    (rounds.flatMap (·.fulfilled)).map Prod.fst =
      (rounds.flatMap (·.batch.popped)).map Prod.snd ∧
    ((rounds.flatMap (·.fulfilled)).map Prod.fst).Nodup ∧
    ∀ keys promises results n, keys.length = promises.length →
      (∀ p ∈ getBatch keys promises, p ∈ q.seen n) →
      getBatchReturns (rounds.flatMap (·.fulfilled)) promises = some results →
      results.length = keys.length ∧
      ∀ (i : Nat) key value, keys[i]? = some key → results[i]? = some value →
        ∃ r ∈ rounds, ∃ j : Nat, r.batch.operations[j]? = some ⟨key, []⟩ ∧
          r.batch.isTrues[j]? = some true ∧ r.plaintexts[j]? = some value := by
  obtain ⟨hpopped, hserves⟩ := Round.popped_of_run hrun
  have hanswered : ∀ r ∈ rounds, r.Answered := by
    intro r hr
    obtain ⟨q₁, q₂, hs⟩ := hserves r hr
    exact hs.answered
  have hpromises := fulfilled_map_fst hanswered
  refine ⟨hanswered, hpopped, hpromises, ?_, ?_⟩
  · rw [hpromises]
    obtain ⟨n, -, hseen⟩ := hpopped
    have hdistinct := hq n
    rw [hseen, List.map_append] at hdistinct
    exact hdistinct.of_append_left
  · intro keys promises results n hlength hqueued hreturns
    have hresults := mapM_eq_some.mp hreturns
    have hlengths := congrArg List.length hresults
    rw [List.length_map, List.length_map] at hlengths
    refine ⟨by rw [← hlengths, hlength], ?_⟩
    intro i key value hkey hvalue
    have hlt : i < promises.length := by
      rw [← hlength]
      exact (List.getElem?_eq_some_iff.mp hkey).1
    have hpromise := List.getElem?_eq_getElem hlt
    -- the future read for the key is that of a promise some round has set
    have hlookup : (rounds.flatMap (·.fulfilled)).lookup promises[i] = some value := by
      have hat := congrArg (·[i]?) hresults
      simpa [hpromise, hvalue] using hat
    obtain ⟨l, l', hl, -⟩ := List.lookup_eq_some_iff.mp hlookup
    have hmem : (promises[i], value) ∈ rounds.flatMap (·.fulfilled) := by
      rw [hl]
      simp
    obtain ⟨r, hr, hset⟩ := List.mem_flatMap.mp hmem
    obtain ⟨q₁, q₂, hs⟩ := hserves r hr
    obtain ⟨op, hop, j, hoperation, htrue, hplaintext⟩ := hs.exists_index hset
    -- and no other operation has that promise
    obtain ⟨m, hseen⟩ := hpopped.seen
    have hgot : (⟨key, []⟩, promises[i]) ∈ getBatch keys promises := by
      apply List.mem_iff_getElem?.mpr
      refine ⟨i, List.getElem?_zip_eq_some.mpr ⟨?_, hpromise⟩⟩
      rw [List.getElem?_map, hkey]
      rfl
    have hsame := hq.operation_eq (hseen _ (List.mem_flatMap.mpr ⟨r, hr, hop⟩)) (hqueued _ hgot)
    subst hsame
    exact ⟨r, hr, j, hoperation, htrue, hplaintext⟩

/-! ## A batch of gets -/

namespace Proxy

/-- The coin of a fresh proxy always takes a waiting operation. -/
theorem possible_securitySlot_pop {st : Proxy} (h : st.pMax = 0) {q : OpQueue}
    {op : Operation} {p : Promise} {rest : List Queued} (hq : q.look.pending = (op, p) :: rest) :
    (st.securitySlot q).Possible ({ q.look with pending := rest }, ⟨op, some p⟩) := by
  rw [securitySlot, isTrueDistribution_of_pMax_zero h, Sampler.possible_bind]
  refine ⟨true, .inl ⟨one_pos, rfl⟩, ?_⟩
  rw [if_pos rfl, hq]
  rfl

/-- The keys of one call of `get_batch`, and the batch of its gets. -/
def jkj : List Str := [['j'], ['k'], ['j']]

def jkjBatch : Batch :=
  ⟨[⟨['j'], []⟩, ⟨['k'], []⟩, ⟨['j'], []⟩], [true, true, true], [0, 1, 2]⟩

theorem answered_once_jkj :
    ∃ st r q', blank.init evenKeys (1 / 2) (1 / 2) firstStrings = .ok st ∧
      Run Round.Serves { pending := getBatch jkj [0, 1, 2] } [r] q' ∧
      getBatchReturns r.fulfilled [0, 1, 2] = some [['a'], ['b'], ['a']] ∧
      r.fulfilled.map Prod.fst = [0, 1, 2] ∧
      ∃ j : Nat, r.batch.operations[j]? = some ⟨['k'], []⟩ ∧ r.plaintexts[j]? = some ['b'] := by
  obtain ⟨x, hx, hpMax, hsize, hplain⟩ :
      ∃ x, (do let st ← blank.init evenKeys (1 / 2) (1 / 2) firstStrings
               let (st', plaintexts) ← st.computeBatch jkjBatch.operations [0, 0, 0]
               Except.ok (st, st', plaintexts)) = .ok x ∧
        x.1.pMax = 0 ∧ x.1.securityBatchSize = 3 ∧ x.2.2 = [['a'], ['b'], ['a']] :=
    exists_ok_of_decide (by decide +kernel)
  simp only [bind_eq_ok] at hx
  obtain ⟨st, hinit, ⟨st', plaintexts⟩, hcomputed, hx⟩ := hx
  cases hx
  cases hplain
  have hfilled : (st.createSecurityBatch { pending := getBatch jkj [0, 1, 2] }
      ⟨[], [], []⟩).Possible ({ pending := [] }, jkjBatch) := by
    rw [createSecurityBatch, hsize]
    apply Sampler.possible_bind.mpr
    refine ⟨_, possible_securitySlot_pop hpMax rfl, Sampler.possible_bind.mpr ?_⟩
    refine ⟨_, possible_securitySlot_pop hpMax rfl, Sampler.possible_bind.mpr ?_⟩
    exact ⟨_, possible_securitySlot_pop hpMax rfl, rfl⟩
  set r : Round := ⟨[st], jkjBatch, st, [0, 0, 0], [['a'], ['b'], ['a']], st'⟩ with hr
  have hrun : Run Round.Serves { pending := getBatch jkj [0, 1, 2] } [r] { pending := [] } :=
    Run.single ⟨Run.single hfilled, hcomputed⟩
  have hdistinct : OpQueue.Distinct { pending := getBatch jkj [0, 1, 2] } := by
    intro n
    have hnone : (List.range n).flatMap (fun _ => ([] : List Queued)) = [] :=
      List.flatMap_eq_nil_iff.mpr fun _ _ => rfl
    simp [OpQueue.seen, getBatch, jkj, hnone]
  obtain ⟨hanswered, -, -, -, hreturned⟩ := answered_once hdistinct hrun
  have hreturns : getBatchReturns ([r].flatMap (·.fulfilled)) [0, 1, 2]
      = some [['a'], ['b'], ['a']] := rfl
  obtain ⟨-, hindex⟩ := hreturned jkj [0, 1, 2] _ 0 rfl (by simp [OpQueue.seen]) hreturns
  obtain ⟨r', hr', j, hop, -, hvalue⟩ := hindex 1 ['k'] ['b'] rfl rfl
  rw [List.mem_singleton.mp hr'] at hop hvalue
  exact ⟨st, r, _, hinit, hrun, rfl, (hanswered r (by simp)).once, j, hop, hvalue⟩

end Proxy

end Pancake
