import Mathlib.Data.List.TakeWhile
import Pancake.Lib.Runs
import Pancake.Proxy

/-!
# The asynchronous interface

A request thread handles asynchronous calls one after another, consumers
fulfil the promises of the operations it submits whenever they like, and the
responder thread takes one element of `respond_queue_` and one of
`sequence_queue_` for each response. What the request thread pushes depends
on the calls alone, so the two queues can be compared before anything runs:
`entriesOf` and `sequencesOf` are their whole contents. Only
`async_get_batch` feeds both.

The sequence number in `respond_queue_` is a reference the responder
overwrites before it looks at it, and is left out.
-/

namespace Pancake

/-! ## Calls -/

/-- `sequence_id` -/
structure SequenceId where
  clientId : Int
  clientSeqNo : Int
  serverSeqNo : Int
  deriving DecidableEq

/-- `GET`, `PUT`, `GET_BATCH`, `PUT_BATCH` -/
inductive OpCode where
  | get
  | put
  | getBatch
  | putBatch
  deriving DecidableEq

/-- A call of the asynchronous interface. -/
inductive AsyncCall where
  | get (seqId : SequenceId) (key : Str)
  | put (seqId : SequenceId) (key value : Str)
  | getBatch (seqId : SequenceId) (keys : List Str)
  | putBatch (seqId : SequenceId) (keys values : List Str)
  deriving DecidableEq

namespace AsyncCall

/-- The sequence number of the request. -/
def seqId : AsyncCall → SequenceId
  | get seqId _ => seqId
  | put seqId _ _ => seqId
  | getBatch seqId _ => seqId
  | putBatch seqId _ _ => seqId

/-- The operation the request asks for. -/
def opCode : AsyncCall → OpCode
  | get .. => .get
  | put .. => .put
  | getBatch .. => .getBatch
  | putBatch .. => .putBatch

/-- The operations the request stands for, in order. -/
def operations : AsyncCall → List Operation
  | get _ key => [⟨key, []⟩]
  | put _ key value => [⟨key, value⟩]
  | getBatch _ keys => keys.map fun key => ⟨key, []⟩
  | putBatch _ keys values => (keys.zip values).map fun pair => ⟨pair.1, pair.2⟩

end AsyncCall

/-- What the request thread does, as far as other threads or a later `get()`
can tell: enter a call with no waiters, `get_future` or `put_future`, wait
for all waiters, push on `respond_queue_`, push on `sequence_queue_`, or read
past the end of `values`. -/
inductive Action where
  | enter
  | submit (op : Operation)
  | awaitAll
  | respond (call : AsyncCall) (opCode : OpCode)
  | sequence (seqId : SequenceId)
  | fault

/-- The bodies of `async_get`, `async_put`, `async_get_batch` and
`async_put_batch`. A call for a key that does not exist ends where it throws. -/
def AsyncCall.program (keyToFrequency : UnorderedMap Int) : AsyncCall → List Action
  | .get seqId key =>
      .enter :: if key ∈ keyToFrequency then
        [.submit ⟨key, []⟩, .respond (.get seqId key) .get] else []
  | .put seqId key value =>
      [.enter, .submit ⟨key, value⟩, .respond (.put seqId key value) .get]
  | .getBatch seqId keys =>
      .enter :: (keys.takeWhile (· ∈ keyToFrequency)).map (fun key => .submit ⟨key, []⟩) ++
        if ∀ key ∈ keys, key ∈ keyToFrequency then
          [.respond (.getBatch seqId keys) .getBatch, .sequence seqId] else []
  | .putBatch seqId keys values =>
      .enter :: (keys.zip values).map (fun pair => .submit ⟨pair.1, pair.2⟩) ++
        if keys.length ≤ values.length then
          [.awaitAll, .respond (.putBatch seqId keys values) .putBatch] else [.fault]

/-- The calls one after another. -/
def scriptOf (keyToFrequency : UnorderedMap Int) (calls : List AsyncCall) : List Action :=
  calls.flatMap (·.program keyToFrequency)

/-! ## The threads -/

/-- `waiters`, a future that has been read being `none`, and the operations
and promises they stand for. -/
structure Waiters where
  issued : List (Operation × Promise) := []
  futures : List (Option Promise) := []

/-- An element of `respond_queue_`, with the request it was pushed for. -/
structure Entry where
  call : AsyncCall
  opCode : OpCode
  waiters : Waiters

/-- What `async_respond_client` is called with. -/
structure Response where
  seqId : SequenceId
  opCode : OpCode
  results : List Str
  deriving DecidableEq

/-- Where `responder_thread` is in its loop. -/
inductive Responder where
  | waiting
  | holding (e : Entry)
  | ordered (e : Entry) (seqId : SequenceId)
  | crashed (e : Entry) (seqId : SequenceId)

/-- The state of the threads: what the request thread has left to do, its
`waiters`, the operations submitted so far (the `p`-th has promise `p`), the
values promises were fulfilled with, the two queues, the responder, and the
responses and accepted requests so far. -/
structure Async where
  script : List Action
  waiters : Waiters := {}
  operations : List Operation := []
  values : Promise → Option Str := fun _ => none
  respondQueue : List Entry := []
  sequenceQueue : List SequenceId := []
  responder : Responder := .waiting
  responses : List Response := []
  accepted : List Entry := []

namespace Waiters

/-- `waiters.push_back(get_future(...))` -/
def submit (w : Waiters) (op : Operation) (p : Promise) : Waiters where
  issued := w.issued ++ [(op, p)]
  futures := w.futures ++ [some p]

/-- `get()` on every future. -/
def awaitAll (w : Waiters) : Waiters := { w with futures := w.futures.map fun _ => none }

end Waiters

/-- A step of one of the threads. -/
inductive AsyncMove where
  | request
  | fulfil (p : Promise) (value : Str)
  | responder

namespace Async

/-- The state before the first of `calls`. -/
def start (keyToFrequency : UnorderedMap Int) (calls : List AsyncCall) : Async :=
  { script := scriptOf keyToFrequency calls }

/-- The next action of the request thread; none while it has to wait. -/
def requestStep (s : Async) : Option Async :=
  match s.script with
  | [] => none
  | .enter :: script => some { s with script, waiters := {} }
  | .submit op :: script =>
      some { s with
        script
        waiters := s.waiters.submit op s.operations.length
        operations := s.operations ++ [op] }
  | .awaitAll :: script =>
      if ∀ f ∈ s.waiters.futures, (f.bind s.values).isSome then
        some { s with script, waiters := s.waiters.awaitAll } else none
  | .respond call opCode :: script =>
      some { s with
        script
        respondQueue := s.respondQueue ++ [⟨call, opCode, s.waiters⟩]
        accepted := s.accepted ++ [⟨call, opCode, s.waiters⟩] }
  | .sequence seqId :: script =>
      some { s with script, sequenceQueue := s.sequenceQueue ++ [seqId] }
  | .fault :: _ => none

/-- The next action of `responder_thread`; none while it has to wait. A
future that was read already has no state, and reading it again throws. -/
def responderStep (s : Async) : Option Async :=
  match s.responder with
  | .waiting =>
      match s.respondQueue with
      | [] => none
      | e :: respondQueue => some { s with respondQueue, responder := .holding e }
  | .holding e =>
      match s.sequenceQueue with
      | [] => none
      | seqId :: sequenceQueue => some { s with sequenceQueue, responder := .ordered e seqId }
  | .ordered e seqId =>
      if none ∈ e.waiters.futures then some { s with responder := .crashed e seqId }
      else match e.waiters.futures.mapM (·.bind s.values) with
        | none => none
        | some results =>
            some { s with
              responder := .waiting
              responses := s.responses ++ [⟨seqId, e.opCode, results⟩] }
  | .crashed _ _ => none

/-- The step: a consumer may fulfil any promise submitted and not fulfilled. -/
def step (s : Async) : AsyncMove → Option Async
  | .request => s.requestStep
  | .fulfil p value =>
      if p < s.operations.length ∧ s.values p = none then
        some { s with values := Function.update s.values p (some value) } else none
  | .responder => s.responderStep

/-- The steps as a transition system. -/
def Steps (s : Async) (m : AsyncMove) (s' : Async) : Prop := s.step m = some s'

end Async

/-! ## What should happen -/

/-- The response is the one for the request: its sequence number, its
operation code, and the values of its operations' promises in order. -/
structure Entry.AnsweredBy (e : Entry) (values : Promise → Option Str) (r : Response) : Prop where
  seqId : r.seqId = e.call.seqId
  opCode : r.opCode = e.call.opCode
  operations : e.waiters.issued.map Prod.fst = e.call.operations
  results : e.waiters.issued.map (fun x => values x.2) = r.results.map some

/-- The `j`-th response is the one for the `j`-th accepted request. -/
def Async.ResponsesRight (s : Async) : Prop :=
  ∀ (j : Nat) r, s.responses[j]? = some r →
    ∃ e, s.accepted[j]? = some e ∧ e.AnsweredBy s.values r

namespace AsyncCall

/-- A batch of puts without a value for every key. -/
def faulty : AsyncCall → Bool
  | putBatch _ keys values => values.length < keys.length
  | _ => false

/-- The call does not throw. -/
def accepted (keyToFrequency : UnorderedMap Int) : AsyncCall → Bool
  | get _ key => key ∈ keyToFrequency
  | getBatch _ keys => ∀ key ∈ keys, key ∈ keyToFrequency
  | _ => true

def isGetBatch (c : AsyncCall) : Bool := c.opCode = .getBatch

/-- A batch of puts with at least one operation: its futures are read before
they are handed on. -/
def ReadsFutures (c : AsyncCall) : Prop := c.opCode = .putBatch ∧ c.operations ≠ []

instance : DecidablePred ReadsFutures := fun _ => inferInstanceAs (Decidable (_ ∧ _))

end AsyncCall

/-- The calls of a sequence that are accepted. -/
def acceptedCalls (keyToFrequency : UnorderedMap Int) (calls : List AsyncCall) : List AsyncCall :=
  (calls.takeWhile fun c => !c.faulty).filter (·.accepted keyToFrequency)

/-- As far as responses can be sent at all — as many get batches were
accepted, and no batch of puts stands before — the accepted requests and the
accepted get batches agree in their sequence numbers, and no request is a
put. -/
def Aligned (accepted : List AsyncCall) : Prop :=
  ∀ (j : Nat) c b, accepted[j]? = some c → (accepted.filter (·.isGetBatch))[j]? = some b →
    (∀ i ≤ j, ∀ d, accepted[i]? = some d → ¬ d.ReadsFutures) →
    c.opCode ≠ .put ∧ c.seqId = b.seqId

/-! ## What the request thread pushes -/

/-- What a script pushes on `respond_queue_`, after `n` operations. -/
def entriesOf : Nat → Waiters → List Action → List Entry
  | _, _, [] => []
  | n, _, .enter :: script => entriesOf n {} script
  | n, w, .submit op :: script => entriesOf (n + 1) (w.submit op n) script
  | n, w, .awaitAll :: script => entriesOf n w.awaitAll script
  | n, w, .respond call opCode :: script => ⟨call, opCode, w⟩ :: entriesOf n w script
  | n, w, .sequence _ :: script => entriesOf n w script
  | _, _, .fault :: _ => []

/-- What a script pushes on `sequence_queue_`. -/
def sequencesOf : List Action → List SequenceId
  | [] => []
  | .sequence seqId :: script => seqId :: sequencesOf script
  | .fault :: _ => []
  | _ :: script => sequencesOf script

/-- The waiters of a call that submitted `ops` as operations `n`, `n + 1`, …. -/
def Waiters.ofOperations (n : Nat) (ops : List Operation) : Waiters where
  issued := ops.zipIdx n
  futures := (ops.zipIdx n).map fun x => some x.2

/-- The entry of an accepted request: a put is pushed as a get, and a batch
of puts with its futures already read. -/
def AsyncCall.entry (c : AsyncCall) (n : Nat) : Entry where
  call := c
  opCode := if c.opCode = .put then .get else c.opCode
  waiters :=
    let w := Waiters.ofOperations n c.operations
    if c.opCode = .putBatch then w.awaitAll else w

theorem entriesOf_submits (ops : List Operation) (script : List Action) (n : Nat) (w : Waiters) :
    entriesOf n w (ops.map .submit ++ script) = entriesOf (n + ops.length)
      { issued := w.issued ++ ops.zipIdx n
        futures := w.futures ++ (ops.zipIdx n).map fun x => some x.2 } script := by
  induction ops generalizing n w with
  | nil => simp
  | cons op ops ih =>
      rw [List.map_cons, List.cons_append, entriesOf, ih]
      simp [Waiters.submit, Nat.add_assoc, Nat.add_comm 1]

/-- A call starts with no waiters. -/
theorem entriesOf_call (ops : List Operation) (script : List Action) (n : Nat) (w : Waiters) :
    entriesOf n w (.enter :: (ops.map .submit ++ script))
      = entriesOf (n + ops.length) (Waiters.ofOperations n ops) script := by
  rw [entriesOf, entriesOf_submits]
  simp [Waiters.ofOperations]

theorem sequencesOf_submits (ops : List Operation) (script : List Action) :
    sequencesOf (ops.map .submit ++ script) = sequencesOf script := by
  induction ops with
  | nil => rfl
  | cons op ops ih => exact ih

/-- Every program enters, submits, and ends. -/
theorem AsyncCall.program_eq (keyToFrequency : UnorderedMap Int) (c : AsyncCall) :
    ∃ ops ending, c.program keyToFrequency = .enter :: (ops.map .submit ++ ending) ∧
      (c.faulty → ending = [.fault]) ∧
      (¬ c.faulty → ¬ c.accepted keyToFrequency → ending = []) ∧
      (¬ c.faulty → c.accepted keyToFrequency → ops = c.operations ∧ ending =
        (if c.opCode = .putBatch then [.awaitAll] else []) ++
          .respond c (if c.opCode = .put then .get else c.opCode) ::
            if c.isGetBatch then [.sequence c.seqId] else []) := by
  cases c with
  | get seqId key =>
      by_cases hk : key ∈ keyToFrequency
      · exact ⟨[⟨key, []⟩], [.respond (.get seqId key) .get], by simp [program, hk],
          by simp [faulty], by simp [accepted, hk], by simp [operations, opCode, isGetBatch]⟩
      · exact ⟨[], [], by simp [program, hk], by simp [faulty], by simp, by simp [accepted, hk]⟩
  | put seqId key value =>
      exact ⟨[⟨key, value⟩], [.respond (.put seqId key value) .get], by simp [program],
        by simp [faulty], by simp [accepted], by simp [operations, opCode, isGetBatch]⟩
  | getBatch seqId keys =>
      by_cases hk : ∀ key ∈ keys, key ∈ keyToFrequency
      · refine ⟨keys.map fun key => ⟨key, []⟩, [.respond (.getBatch seqId keys) .getBatch,
          .sequence seqId], ?_, by simp [faulty],
          fun _ h => absurd (by simpa [accepted] using hk) h,
          by simp [operations, opCode, isGetBatch, AsyncCall.seqId]⟩
        have htake : keys.takeWhile (fun key => decide (key ∈ keyToFrequency)) = keys :=
          List.takeWhile_eq_self_iff.mpr fun key h => by simpa using hk key h
        rw [program, htake, if_pos hk]
        simp [Function.comp_def]
      · refine ⟨(keys.takeWhile (· ∈ keyToFrequency)).map fun key => ⟨key, []⟩, [], ?_,
          by simp [faulty], by simp, fun _ h => absurd (by simpa [accepted] using h) hk⟩
        rw [program, if_neg hk]
        simp [Function.comp_def]
  | putBatch seqId keys values =>
      by_cases hlen : keys.length ≤ values.length
      · refine ⟨(keys.zip values).map fun pair => ⟨pair.1, pair.2⟩,
          [.awaitAll, .respond (.putBatch seqId keys values) .putBatch], ?_, ?_,
          by simp [accepted], by simp [operations, opCode, isGetBatch]⟩
        · rw [program, if_pos hlen]
          simp [Function.comp_def]
        · simp [faulty, Nat.not_lt.mpr hlen]
      · refine ⟨(keys.zip values).map fun pair => ⟨pair.1, pair.2⟩, [.fault], ?_, by simp, ?_, ?_⟩
        · rw [program, if_neg hlen]
          simp [Function.comp_def]
        · simp [faulty, Nat.not_le.mp hlen]
        · simp [faulty, Nat.not_le.mp hlen]

section Script

variable (keyToFrequency : UnorderedMap Int)

/-- What one more call in front adds: an entry and, for a get batch, a
sequence number, unless it is not accepted. -/
theorem pushes_cons (c : AsyncCall) (script : List Action) (n : Nat) (w : Waiters) :
    (c.faulty → entriesOf n w (c.program keyToFrequency ++ script) = [] ∧
      sequencesOf (c.program keyToFrequency ++ script) = []) ∧
    (¬ c.faulty → ∃ m w', entriesOf n w (c.program keyToFrequency ++ script)
        = (if c.accepted keyToFrequency then [c.entry n] else []) ++ entriesOf m w' script ∧
      sequencesOf (c.program keyToFrequency ++ script)
        = (if c.accepted keyToFrequency ∧ c.isGetBatch then [c.seqId] else [])
          ++ sequencesOf script) := by
  obtain ⟨ops, ending, hprogram, hfaulty, hrejected, haccepted⟩ := c.program_eq keyToFrequency
  rw [hprogram, List.cons_append, List.append_assoc, entriesOf_call]
  simp only [sequencesOf, sequencesOf_submits]
  constructor
  · intro hf
    rw [hfaulty hf]
    exact ⟨rfl, rfl⟩
  · intro hf
    by_cases ha : c.accepted keyToFrequency
    · obtain ⟨rfl, rfl⟩ := haccepted hf ha
      refine ⟨n + c.operations.length, (c.entry n).waiters, ?_⟩
      by_cases hp : c.opCode = .putBatch <;> by_cases hg : c.isGetBatch <;>
        simp [hp, hg, ha, entriesOf, sequencesOf, AsyncCall.entry]
    · rw [hrejected hf ha]
      exact ⟨n + ops.length, Waiters.ofOperations n ops, by simp [ha], by simp [ha]⟩

/-- **The two queues in full**: an entry for every accepted call, but a
sequence number for the accepted get batches only. -/
theorem pushes_scriptOf (calls : List AsyncCall) (n : Nat) (w : Waiters) :
    (entriesOf n w (scriptOf keyToFrequency calls)).map Entry.call
        = acceptedCalls keyToFrequency calls ∧
      (∀ e ∈ entriesOf n w (scriptOf keyToFrequency calls), ∃ m, e = e.call.entry m) ∧
      sequencesOf (scriptOf keyToFrequency calls)
        = ((acceptedCalls keyToFrequency calls).filter (·.isGetBatch)).map AsyncCall.seqId := by
  induction calls generalizing n w with
  | nil => simp [scriptOf, entriesOf, sequencesOf, acceptedCalls]
  | cons c calls ih =>
      rw [show scriptOf keyToFrequency (c :: calls)
        = c.program keyToFrequency ++ scriptOf keyToFrequency calls from List.flatMap_cons]
      obtain ⟨hfaulty, hrest⟩ := pushes_cons keyToFrequency c (scriptOf keyToFrequency calls) n w
      by_cases hf : c.faulty
      · obtain ⟨he, hs⟩ := hfaulty hf
        rw [he, hs]
        simp [acceptedCalls, hf]
      · obtain ⟨m, w', he, hs⟩ := hrest hf
        obtain ⟨hcalls, hentries, hseqs⟩ := ih m w'
        rw [he, hs, hseqs, List.map_append, hcalls]
        by_cases ha : c.accepted keyToFrequency
        · refine ⟨by simp [acceptedCalls, hf, ha, AsyncCall.entry], ?_, ?_⟩
          · intro e hmem
            rw [if_pos ha, List.singleton_append, List.mem_cons] at hmem
            rcases hmem with rfl | hmem
            · exact ⟨n, rfl⟩
            · exact hentries e hmem
          · by_cases hg : c.isGetBatch <;> simp [acceptedCalls, hf, ha, hg]
        · refine ⟨by simp [acceptedCalls, hf, ha], ?_, by simp [acceptedCalls, hf, ha]⟩
          simpa [ha] using hentries

end Script

/-! ## The invariant -/

/-- The response was sent for the entry. -/
structure Entry.Sent (values : Promise → Option Str) (e : Entry) (r : Response) : Prop where
  opCode : r.opCode = e.opCode
  unread : none ∉ e.waiters.futures
  results : e.waiters.futures.map (·.bind values) = r.results.map some

/-- A value a promise was fulfilled with stays. -/
theorem Entry.Sent.mono {values values' : Promise → Option Str} {e : Entry} {r : Response}
    (h : e.Sent values r) (hle : ∀ p v, values p = some v → values' p = some v) :
    e.Sent values' r := by
  refine ⟨h.opCode, h.unread, ?_⟩
  rw [← h.results]
  refine List.map_congr_left fun f hf => ?_
  have hmem : f.bind values ∈ r.results.map some := h.results ▸ List.mem_map_of_mem hf
  obtain ⟨v, -, hv⟩ := List.mem_map.mp hmem
  obtain ⟨p, hp, hpv⟩ := Option.bind_eq_some_iff.mp hv.symm
  rw [← hv, hp]
  exact hle p v hpv

namespace Responder

/-- The entry the responder has popped. -/
def entries : Responder → List Entry
  | waiting => []
  | holding e => [e]
  | ordered e _ => [e]
  | crashed e _ => [e]

/-- The sequence number it has popped. -/
def seqIds : Responder → List SequenceId
  | waiting => []
  | holding _ => []
  | ordered _ seqId => [seqId]
  | crashed _ seqId => [seqId]

end Responder

/-- The sequence numbers pushed so far, in order. -/
def Async.sequenced (s : Async) : List SequenceId :=
  s.responses.map Response.seqId ++ s.responder.seqIds ++ s.sequenceQueue

/-- The responder has sent what it popped, in order. -/
def Async.Queued (s : Async) : Prop :=
  ∃ answered, List.Forall₂ (Entry.Sent s.values) answered s.responses ∧
    s.accepted = answered ++ s.responder.entries ++ s.respondQueue

/-- **The responder** moves elements from the queues to the responses, and
nothing else. -/
theorem Async.responderStep_spec {s s' : Async} (hs : s.responderStep = some s') :
    s'.script = s.script ∧ s'.waiters = s.waiters ∧ s'.operations = s.operations ∧
      s'.accepted = s.accepted ∧ s'.sequenced = s.sequenced ∧ (s.Queued → s'.Queued) := by
  unfold Async.responderStep at hs
  cases hr : s.responder with
  | waiting =>
      rw [hr] at hs
      cases hq : s.respondQueue with
      | nil => simp [hq] at hs
      | cons e q =>
          rw [hq] at hs
          cases hs
          refine ⟨rfl, rfl, rfl, rfl, by simp [sequenced, hr, Responder.seqIds], ?_⟩
          intro h
          obtain ⟨answered, hsent, hqueued⟩ := h
          exact ⟨answered, hsent, by simpa [hr, hq, Responder.entries] using hqueued⟩
  | holding e =>
      rw [hr] at hs
      cases hq : s.sequenceQueue with
      | nil => simp [hq] at hs
      | cons seqId q =>
          rw [hq] at hs
          cases hs
          refine ⟨rfl, rfl, rfl, rfl, by simp [sequenced, hr, hq, Responder.seqIds], ?_⟩
          intro h
          obtain ⟨answered, hsent, hqueued⟩ := h
          exact ⟨answered, hsent, by simpa [hr, Responder.entries] using hqueued⟩
  | ordered e seqId =>
      rw [hr] at hs
      dsimp only at hs
      split at hs
      · cases hs
        refine ⟨rfl, rfl, rfl, rfl, by simp [sequenced, hr, Responder.seqIds], ?_⟩
        intro h
        obtain ⟨answered, hsent, hqueued⟩ := h
        exact ⟨answered, hsent, by simpa [hr, Responder.entries] using hqueued⟩
      · rename_i hunread
        split at hs
        · cases hs
        · rename_i results hresults
          cases hs
          refine ⟨rfl, rfl, rfl, rfl, by simp [sequenced, hr, Responder.seqIds], ?_⟩
          intro h
          obtain ⟨answered, hsent, hqueued⟩ := h
          refine ⟨answered ++ [e], ?_, by simpa [hr, Responder.entries] using hqueued⟩
          exact List.rel_append hsent (.cons ⟨rfl, hunread, mapM_eq_some.mp hresults⟩ .nil)
  | crashed e seqId => simp [hr] at hs

/-- A consumer that fulfils a promise changes no response. -/
theorem Async.Queued.fulfil {s s' : Async} {p : Promise} {value : Str} (h : s.Queued)
    (hs : s.step (.fulfil p value) = some s') : s'.Queued := by
  simp only [Async.step] at hs
  split at hs
  · rename_i hp
    cases hs
    obtain ⟨answered, hsent, hqueued⟩ := h
    refine ⟨answered, hsent.imp fun e r hr => hr.mono ?_, hqueued⟩
    intro q v hq
    have hne : q ≠ p := by
      rintro rfl
      rw [hp.2] at hq
      cases hq
    exact (Function.update_of_ne hne _ _).trans hq
  · cases hs

/-- What was pushed and what the script is still going to push make up the
whole contents of the queues, and the responder has sent what it popped, in
order. -/
structure Traced (script : List Action) (s : Async) : Prop where
  entries : s.accepted ++ entriesOf s.operations.length s.waiters s.script = entriesOf 0 {} script
  sequences : s.responses.map Response.seqId ++ s.responder.seqIds ++ s.sequenceQueue
    ++ sequencesOf s.script = sequencesOf script
  queued : ∃ answered, List.Forall₂ (Entry.Sent s.values) answered s.responses ∧
    s.accepted = answered ++ s.responder.entries ++ s.respondQueue

theorem Traced.start (script : List Action) : Traced script { script } :=
  ⟨rfl, rfl, [], .nil, rfl⟩

/-- **The request thread** moves pushes from the script to the queues. -/
theorem Traced.requestStep {script : List Action} {s s' : Async} (h : Traced script s)
    (hs : s.requestStep = some s') : Traced script s' := by
  obtain ⟨hentries, hsequences, answered, hsent, hqueued⟩ := h
  unfold Async.requestStep at hs
  cases hscript : s.script with
  | nil => simp [hscript] at hs
  | cons action rest =>
      rw [hscript] at hs hentries hsequences
      cases action with
      | enter =>
          cases hs
          exact ⟨hentries, hsequences, answered, hsent, hqueued⟩
      | submit op =>
          cases hs
          exact ⟨by simpa [entriesOf] using hentries, hsequences, answered, hsent, hqueued⟩
      | awaitAll =>
          dsimp only at hs
          split at hs
          · cases hs
            exact ⟨hentries, hsequences, answered, hsent, hqueued⟩
          · cases hs
      | respond call opCode =>
          cases hs
          exact ⟨by simpa [entriesOf] using hentries, hsequences, answered, hsent,
            by simp [hqueued]⟩
      | sequence seqId =>
          cases hs
          exact ⟨hentries, by simpa [sequencesOf] using hsequences, answered, hsent, hqueued⟩
      | fault => cases hs

theorem Traced.responderStep {script : List Action} {s s' : Async} (h : Traced script s)
    (hs : s.responderStep = some s') : Traced script s' := by
  obtain ⟨hscript, hwaiters, hops, haccepted, hsequenced, hqueued⟩ := Async.responderStep_spec hs
  refine ⟨?_, ?_, hqueued h.queued⟩
  · rw [haccepted, hops, hwaiters, hscript]
    exact h.entries
  · change s'.sequenced ++ sequencesOf s'.script = sequencesOf script
    rw [hsequenced, hscript]
    exact h.sequences

/-- **The step** of any thread keeps the invariant. -/
theorem Traced.step {script : List Action} {s s' : Async} {m : AsyncMove} (h : Traced script s)
    (hs : s.Steps m s') : Traced script s' := by
  cases m with
  | request => exact h.requestStep hs
  | responder => exact h.responderStep hs
  | fulfil p value =>
      have hqueued : s'.Queued := Async.Queued.fulfil h.queued hs
      simp only [Async.Steps, Async.step] at hs
      split at hs
      · cases hs
        exact ⟨h.entries, h.sequences, hqueued⟩
      · cases hs

theorem Traced.run {keyToFrequency : UnorderedMap Int} {calls : List AsyncCall}
    {moves : List AsyncMove} {s : Async}
    (h : Run Async.Steps (.start keyToFrequency calls) moves s) :
    Traced (scriptOf keyToFrequency calls) s :=
  h.invariant (I := fun _ s => Traced (scriptOf keyToFrequency calls) s) (.start _)
    fun _ hi hs => hi.step hs

/-! ## Aligned requests are answered rightly -/

/-- The entry of a batch of puts has all its futures read. -/
theorem AsyncCall.not_readsFutures {c : AsyncCall} {n : Nat}
    (h : none ∉ (c.entry n).waiters.futures) : ¬ c.ReadsFutures := by
  rintro ⟨hcode, hne⟩
  obtain ⟨op, ops, hops⟩ := List.exists_cons_of_ne_nil hne
  simp [entry, hcode, hops, Waiters.ofOperations, Waiters.awaitAll] at h

theorem AsyncCall.unread_of_not_readsFutures {c : AsyncCall} {n : Nat} (h : ¬ c.ReadsFutures) :
    none ∉ (c.entry n).waiters.futures := by
  by_cases hp : c.opCode = .putBatch
  · have hnil : c.operations = [] := by
      by_contra hne
      exact h ⟨hp, hne⟩
    simp [entry, hp, hnil, Waiters.ofOperations, Waiters.awaitAll]
  · simp [entry, hp, Waiters.ofOperations]

/-- What an entry was answered with, if its futures were not read before. -/
theorem AsyncCall.answeredBy {c : AsyncCall} {n : Nat} {values : Promise → Option Str}
    {r : Response} (h : (c.entry n).Sent values r) (hput : c.opCode ≠ .put)
    (hseq : r.seqId = c.seqId) : (c.entry n).AnsweredBy values r where
  seqId := hseq
  opCode := by
    rw [h.opCode, entry, if_neg hput]
  operations := by
    by_cases hp : c.opCode = .putBatch <;>
      simp [entry, hp, Waiters.ofOperations, Waiters.awaitAll, List.zipIdx_map_fst]
  results := by
    have hresults := h.results
    by_cases hp : c.opCode = .putBatch
    · -- no operations: nothing was awaited
      have hnil : c.operations = [] := by
        by_contra hne
        exact not_readsFutures h.unread ⟨hp, hne⟩
      simpa [entry, hp, hnil, Waiters.ofOperations, Waiters.awaitAll] using hresults
    · simpa [entry, hp, Waiters.ofOperations, Function.comp_def] using hresults

/-- **Safety**: when the accepted calls are aligned, every response is the
one for its request. -/
theorem Traced.responsesRight {keyToFrequency : UnorderedMap Int} {calls : List AsyncCall}
    {s : Async} (h : Traced (scriptOf keyToFrequency calls) s)
    (hal : Aligned (acceptedCalls keyToFrequency calls)) : s.ResponsesRight := by
  intro j r hr
  obtain ⟨hcalls, hentries, hseqs⟩ := pushes_scriptOf keyToFrequency calls 0 {}
  obtain ⟨answered, hsent, hqueued⟩ := h.queued
  have hlen := hsent.length_eq
  -- an answered entry is an accepted call whose futures were not read
  have hanswered : ∀ i ≤ j, ∃ e r n, answered[i]? = some e ∧ s.responses[i]? = some r ∧
      e.Sent s.values r ∧ e = e.call.entry n ∧
      (acceptedCalls keyToFrequency calls)[i]? = some e.call := by
    intro i hi
    have hj : j < s.responses.length := (List.getElem?_eq_some_iff.mp hr).1
    have hi' : i < answered.length := by omega
    have hr' : i < s.responses.length := by omega
    have hmem : (entriesOf 0 {} (scriptOf keyToFrequency calls))[i]? = some answered[i] := by
      rw [← h.entries, hqueued, List.append_assoc, List.append_assoc,
        List.getElem?_append_left hi', List.getElem?_eq_getElem hi']
    obtain ⟨n, hn⟩ := hentries _ (List.mem_of_getElem? hmem)
    refine ⟨answered[i], s.responses[i], n, List.getElem?_eq_getElem hi',
      List.getElem?_eq_getElem hr', hsent.get hi' hr', hn, ?_⟩
    rw [← hcalls, List.getElem?_map, hmem]
    rfl
  obtain ⟨e, r', n, he, hr', hs, hen, hacc⟩ := hanswered j le_rfl
  rw [hr] at hr'
  cases hr'
  -- the sequence number is that of the `j`-th get batch
  have hseq : (sequencesOf (scriptOf keyToFrequency calls))[j]? = some r.seqId := by
    rw [← h.sequences, List.append_assoc, List.append_assoc, List.getElem?_append_left (by
      rw [List.length_map]; exact (List.getElem?_eq_some_iff.mp hr).1), List.getElem?_map, hr]
    rfl
  rw [hseqs, List.getElem?_map] at hseq
  obtain ⟨b, hb, hbseq⟩ := Option.map_eq_some_iff.mp hseq
  obtain ⟨hput, hsame⟩ := hal j e.call b hacc hb (by
    intro i hi d hd
    obtain ⟨e', r', m, -, -, hs', hen', hacc'⟩ := hanswered i hi
    rw [hacc'] at hd
    cases hd
    rw [hen'] at hs'
    exact AsyncCall.not_readsFutures hs'.unread)
  refine ⟨e, ?_, ?_⟩
  · rw [hqueued, List.append_assoc, List.getElem?_append_left
      (List.getElem?_eq_some_iff.mp he).1, he]
  · rw [hen] at hs ⊢
    exact AsyncCall.answeredBy hs hput (hbseq.symm.trans hsame.symm)

/-! ## Runs that answer as much as can be answered -/

/-- Nothing was popped yet, and every future that can be waited for has a
value. -/
structure Async.Idle (s : Async) : Prop where
  responder : s.responder = .waiting
  responses : s.responses = []
  waiters : ∀ p, some p ∈ s.waiters.futures → (s.values p).isSome
  queued : ∀ e ∈ s.respondQueue, ∀ p, some p ∈ e.waiters.futures → (s.values p).isSome

namespace Async

theorem Idle.start (script : List Action) : Idle { script } :=
  ⟨rfl, rfl, by simp, by simp⟩

/-- A promise is fulfilled as soon as it is submitted. -/
theorem Idle.submit {s : Async} {op : Operation} {script : List Action} (h : s.Idle)
    (hs : s.script = .submit op :: script) (hunread : none ∉ s.waiters.futures) :
    ∃ moves s', Run Steps s moves s' ∧ s'.Idle ∧ s'.script = script ∧
      none ∉ s'.waiters.futures := by
  set s₁ : Async := { s with
    script
    waiters := s.waiters.submit op s.operations.length
    operations := s.operations ++ [op] } with hs₁
  have hstep : Steps s .request s₁ := by
    simp [Steps, step, requestStep, hs, hs₁]
  have hunread₁ : none ∉ s₁.waiters.futures := by
    simpa [hs₁, Waiters.submit] using hunread
  cases hv : s.values s.operations.length with
  | some v =>
      refine ⟨_, s₁, .single hstep, ⟨h.responder, h.responses, fun p hp => ?_, h.queued⟩, rfl,
        hunread₁⟩
      simp only [hs₁, Waiters.submit, List.mem_append, List.mem_singleton, Option.some.injEq] at hp
      rcases hp with hp | rfl
      · exact h.waiters p hp
      · exact Option.isSome_iff_exists.mpr ⟨v, hv⟩
  | none =>
      set s₂ : Async :=
        { s₁ with values := Function.update s.values s.operations.length (some []) } with hs₂
      have hstep₂ : Steps s₁ (.fulfil s.operations.length []) s₂ := by
        have hp : s.operations.length < s₁.operations.length ∧ s₁.values s.operations.length = none :=
          ⟨by simp [hs₁], hv⟩
        simp only [Steps, step, if_pos hp]
        rfl
      have hmono : ∀ p, (s.values p).isSome → (s₂.values p).isSome := by
        intro p hp
        have hne : p ≠ s.operations.length := by
          rintro rfl
          simp [hv] at hp
        exact (congrArg Option.isSome (Function.update_of_ne hne _ _)).trans hp
      refine ⟨_, s₂, (Run.single hstep).snoc hstep₂, ⟨h.responder, h.responses, fun p hp => ?_,
        fun e he p hp => hmono p (h.queued e he p hp)⟩, rfl, hunread₁⟩
      simp only [hs₂, hs₁, Waiters.submit, List.mem_append, List.mem_singleton,
        Option.some.injEq] at hp
      rcases hp with hp | rfl
      · exact hmono p (h.waiters p hp)
      · simp [hs₂]

theorem Idle.submits {ops : List Operation} {script : List Action} {s : Async} (h : s.Idle)
    (hs : s.script = ops.map .submit ++ script) (hunread : none ∉ s.waiters.futures) :
    ∃ moves s', Run Steps s moves s' ∧ s'.Idle ∧ s'.script = script ∧
      none ∉ s'.waiters.futures := by
  induction ops generalizing s with
  | nil => exact ⟨[], s, .nil, h, hs, hunread⟩
  | cons op ops ih =>
      obtain ⟨m, s₁, hr, h₁, hs₁, hu₁⟩ := h.submit hs hunread
      obtain ⟨m', s', hr', h', hs', hu'⟩ := ih h₁ hs₁ hu₁
      exact ⟨m ++ m', s', hr.append hr', h', hs', hu'⟩

/-- Waiting for futures that all have a value. -/
theorem Idle.awaitAll {s : Async} {script : List Action} (h : s.Idle)
    (hs : s.script = .awaitAll :: script) (hunread : none ∉ s.waiters.futures) :
    ∃ s', Steps s .request s' ∧ s'.Idle ∧ s'.script = script := by
  have hall : ∀ f ∈ s.waiters.futures, (f.bind s.values).isSome := by
    intro f hf
    cases f with
    | none => exact absurd hf hunread
    | some p => exact h.waiters p hf
  refine ⟨{ s with script, waiters := s.waiters.awaitAll }, ?_,
    ⟨h.responder, h.responses, by simp [Waiters.awaitAll], h.queued⟩, rfl⟩
  simp only [Steps, step, requestStep, hs, if_pos hall]

theorem Idle.respond {s : Async} {call : AsyncCall} {opCode : OpCode} {script : List Action}
    (h : s.Idle) (hs : s.script = .respond call opCode :: script) :
    ∃ s', Steps s .request s' ∧ s'.Idle ∧ s'.script = script := by
  refine ⟨{ s with
      script
      respondQueue := s.respondQueue ++ [⟨call, opCode, s.waiters⟩]
      accepted := s.accepted ++ [⟨call, opCode, s.waiters⟩] },
    by simp only [Steps, step, requestStep, hs],
    ⟨h.responder, h.responses, h.waiters, fun e he => ?_⟩, rfl⟩
  rcases List.mem_append.mp he with he | he
  · exact h.queued e he
  · rw [List.mem_singleton] at he
    subst he
    exact h.waiters

theorem Idle.sequence {s : Async} {seqId : SequenceId} {script : List Action} (h : s.Idle)
    (hs : s.script = .sequence seqId :: script) :
    ∃ s', Steps s .request s' ∧ s'.Idle ∧ s'.script = script :=
  ⟨{ s with script, sequenceQueue := s.sequenceQueue ++ [seqId] },
    by simp only [Steps, step, requestStep, hs],
    ⟨h.responder, h.responses, h.waiters, h.queued⟩, rfl⟩

/-- **One call** can be handled to its end, or to its fault. -/
theorem Idle.call {keyToFrequency : UnorderedMap Int} {c : AsyncCall} {script : List Action}
    {s : Async} (h : s.Idle) (hs : s.script = c.program keyToFrequency ++ script) :
    ∃ moves s', Run Steps s moves s' ∧ s'.Idle ∧
      (s'.script = script ∨ ∃ rest, s'.script = .fault :: rest) := by
  obtain ⟨ops, ending, hprogram, hfaulty, hrejected, haccepted⟩ := c.program_eq keyToFrequency
  rw [hprogram, List.cons_append, List.append_assoc] at hs
  set s₀ : Async := { s with
    script := ops.map .submit ++ (ending ++ script)
    waiters := {} } with hs₀
  have henter : Steps s .request s₀ := by
    simp only [Steps, step, requestStep, hs, hs₀]
  have h₀ : s₀.Idle := ⟨h.responder, h.responses, by simp [hs₀], h.queued⟩
  obtain ⟨m, s₁, hr, h₁, hs₁, hu₁⟩ := h₀.submits rfl (by simp [hs₀])
  have hrun := (Run.single henter).append hr
  by_cases hf : c.faulty
  · exact ⟨_, s₁, hrun, h₁, .inr ⟨script, by rw [hs₁, hfaulty hf]; rfl⟩⟩
  · by_cases ha : c.accepted keyToFrequency
    · obtain ⟨rfl, rfl⟩ := haccepted hf ha
      -- a batch of puts waits first
      obtain ⟨m₂, s₂, hr₂, h₂, hs₂⟩ : ∃ moves s₂, Run Steps s₁ moves s₂ ∧ s₂.Idle ∧
          s₂.script = .respond c (if c.opCode = .put then .get else c.opCode) ::
            ((if c.isGetBatch then [.sequence c.seqId] else []) ++ script) := by
        by_cases hp : c.opCode = .putBatch
        · obtain ⟨s₂, hstep, h₂, hs₂⟩ := h₁.awaitAll (by rw [hs₁, if_pos hp]; rfl) hu₁
          exact ⟨_, s₂, .single hstep, h₂, by rw [hs₂]; rfl⟩
        · exact ⟨[], s₁, .nil, h₁, by rw [hs₁, if_neg hp]; rfl⟩
      obtain ⟨s₃, hstep₃, h₃, hs₃⟩ := h₂.respond hs₂
      by_cases hg : c.isGetBatch
      · obtain ⟨s₄, hstep₄, h₄, hs₄⟩ := h₃.sequence (by rw [hs₃, if_pos hg]; rfl)
        exact ⟨_, s₄, ((hrun.append hr₂).snoc hstep₃).snoc hstep₄, h₄, .inl hs₄⟩
      · exact ⟨_, s₃, (hrun.append hr₂).snoc hstep₃, h₃, .inl (by rw [hs₃, if_neg hg]; rfl)⟩
    · exact ⟨_, s₁, hrun, h₁, .inl (by rw [hs₁, hrejected hf ha]; rfl)⟩

/-- **All calls** can be handled before the responder starts. -/
theorem Idle.calls {keyToFrequency : UnorderedMap Int} {calls : List AsyncCall} {s : Async}
    (h : s.Idle) (hs : s.script = scriptOf keyToFrequency calls) :
    ∃ moves s', Run Steps s moves s' ∧ s'.Idle ∧
      (s'.script = [] ∨ ∃ rest, s'.script = .fault :: rest) := by
  induction calls generalizing s with
  | nil => exact ⟨[], s, .nil, h, .inl hs⟩
  | cons c calls ih =>
      obtain ⟨m, s₁, hr, h₁, hs₁⟩ := h.call (hs.trans List.flatMap_cons)
      rcases hs₁ with hs₁ | hfault
      · obtain ⟨m', s', hr', h', hs'⟩ := ih h₁ hs₁
        exact ⟨m ++ m', s', hr.append hr', h', hs'⟩
      · exact ⟨m, s₁, hr, h₁, .inr hfault⟩

/-- The responder answers the first element of its queues, if no future of it
was read. -/
theorem answer_first {s : Async} {e : Entry} {seqId : SequenceId} {q : List Entry}
    {qs : List SequenceId} (hr : s.responder = .waiting) (hq : s.respondQueue = e :: q)
    (hqs : s.sequenceQueue = seqId :: qs) (hunread : none ∉ e.waiters.futures)
    (hvalues : ∀ p, some p ∈ e.waiters.futures → (s.values p).isSome) :
    ∃ moves results, Run Steps s moves { s with
      respondQueue := q
      sequenceQueue := qs
      responses := s.responses ++ [⟨seqId, e.opCode, results⟩] } := by
  obtain ⟨results, hresults⟩ : ∃ results,
      e.waiters.futures.mapM (·.bind s.values) = some results := by
    refine ⟨e.waiters.futures.map fun f => (f.bind s.values).getD [], mapM_eq_some.mpr ?_⟩
    rw [List.map_map]
    refine List.map_congr_left fun f hf => ?_
    cases f with
    | none => exact absurd hf hunread
    | some p =>
        obtain ⟨v, hv⟩ := Option.isSome_iff_exists.mp (hvalues p hf)
        simp [hv]
  have hpop : Steps s .responder { s with respondQueue := q, responder := .holding e } := by
    simp only [Steps, step, responderStep, hr, hq]
  have horder : Steps { s with respondQueue := q, responder := .holding e } .responder
      { s with respondQueue := q, sequenceQueue := qs, responder := .ordered e seqId } := by
    simp only [Steps, step, responderStep, hqs]
  have hsend : Steps { s with
        respondQueue := q, sequenceQueue := qs, responder := .ordered e seqId } .responder
      { s with
        respondQueue := q
        sequenceQueue := qs
        responses := s.responses ++ [⟨seqId, e.opCode, results⟩] } := by
    simp only [Steps, step, responderStep, if_neg hunread, hresults, hr]
  exact ⟨_, results, ((Run.single hpop).snoc horder).snoc hsend⟩

/-- **The responder** gets as far as there are sequence numbers and no future
was read. -/
theorem answer_all {j : Nat} {s : Async} {e : Entry} {seqId : SequenceId}
    (hr : s.responder = .waiting) (he : s.respondQueue[j]? = some e)
    (hseq : s.sequenceQueue[j]? = some seqId)
    (hunread : ∀ i ≤ j, ∀ d, s.respondQueue[i]? = some d → none ∉ d.waiters.futures)
    (hvalues : ∀ d ∈ s.respondQueue, ∀ p, some p ∈ d.waiters.futures → (s.values p).isSome) :
    ∃ moves s' r, Run Steps s moves s' ∧ s'.accepted = s.accepted ∧
      s'.responses[s.responses.length + j]? = some r ∧ r.seqId = seqId ∧ r.opCode = e.opCode := by
  induction j generalizing s with
  | zero =>
      obtain ⟨d, q, hq⟩ := List.exists_cons_of_ne_nil (List.ne_nil_of_mem (List.mem_of_getElem? he))
      obtain ⟨x, qs, hqs⟩ :=
        List.exists_cons_of_ne_nil (List.ne_nil_of_mem (List.mem_of_getElem? hseq))
      obtain rfl : d = e := by simpa [hq] using he
      obtain rfl : x = seqId := by simpa [hqs] using hseq
      obtain ⟨m, results, hrun⟩ := answer_first hr hq hqs
        (hunread 0 le_rfl d (by simp [hq])) (hvalues d (by simp [hq]))
      exact ⟨m, _, ⟨x, d.opCode, results⟩, hrun, rfl, by simp, rfl, rfl⟩
  | succ j ih =>
      obtain ⟨d, q, hq⟩ := List.exists_cons_of_ne_nil (List.ne_nil_of_mem (List.mem_of_getElem? he))
      obtain ⟨x, qs, hqs⟩ :=
        List.exists_cons_of_ne_nil (List.ne_nil_of_mem (List.mem_of_getElem? hseq))
      obtain ⟨m, results, hrun⟩ := answer_first hr hq hqs
        (hunread 0 (Nat.zero_le _) d (by simp [hq])) (hvalues d (by simp [hq]))
      obtain ⟨m', s', r, hrun', hacc, hr', hseq', hcode⟩ := ih (s := { s with
          respondQueue := q
          sequenceQueue := qs
          responses := s.responses ++ [⟨x, d.opCode, results⟩] }) hr
        (by simpa [hq] using he) (by simpa [hqs] using hseq)
        (fun i hi d' hd' => hunread (i + 1) (by omega) d' (by simpa [hq] using hd'))
        (fun d' hd' => hvalues d' (by simp [hq, hd']))
      refine ⟨m ++ m', s', r, hrun.append hrun', hacc, ?_, hseq', hcode⟩
      rw [← hr']
      congr 1
      simp only [List.length_append, List.length_singleton]
      omega

end Async

/-- **Aligned requests only**: every response of every run is the one for its
request exactly when the accepted calls are aligned. -/
theorem responsesRight_iff (keyToFrequency : UnorderedMap Int) (calls : List AsyncCall) :
    (∀ moves s, Run Async.Steps (.start keyToFrequency calls) moves s → s.ResponsesRight) ↔
      Aligned (acceptedCalls keyToFrequency calls) := by
  constructor
  · intro h j c b hc hb hnone
    -- handle all calls, then let the responder answer up to the `j`-th
    obtain ⟨m, s, hrun, hidle, hend⟩ := (Async.Idle.start (scriptOf keyToFrequency calls)).calls rfl
    have htr : Traced (scriptOf keyToFrequency calls) s := Traced.run hrun
    obtain ⟨hcalls, hentries, hseqs⟩ := pushes_scriptOf keyToFrequency calls 0 {}
    have hdone : entriesOf s.operations.length s.waiters s.script = [] ∧
        sequencesOf s.script = [] := by
      rcases hend with hs | ⟨rest, hs⟩ <;> simp [hs, entriesOf, sequencesOf]
    have haccepted : s.accepted = entriesOf 0 {} (scriptOf keyToFrequency calls) := by
      rw [← htr.entries, hdone.1, List.append_nil]
    have hqueue : s.respondQueue = s.accepted := by
      obtain ⟨answered, hsent, hqueued⟩ := htr.queued
      rw [hidle.responses, List.forall₂_nil_right_iff] at hsent
      rw [hqueued, hsent, hidle.responder]
      rfl
    have hsequences : s.sequenceQueue
        = ((acceptedCalls keyToFrequency calls).filter (·.isGetBatch)).map AsyncCall.seqId := by
      rw [← hseqs, ← htr.sequences, hdone.2, hidle.responses, hidle.responder]
      simp [Responder.seqIds]
    have hcall : ∀ (i : Nat) (d : Entry), s.respondQueue[i]? = some d →
        (acceptedCalls keyToFrequency calls)[i]? = some d.call ∧ ∃ n, d = d.call.entry n := by
      intro i d hd
      rw [hqueue, haccepted] at hd
      refine ⟨?_, hentries d (List.mem_of_getElem? hd)⟩
      rw [← hcalls, List.getElem?_map, hd]
      rfl
    obtain ⟨e, he, hec⟩ : ∃ e, s.respondQueue[j]? = some e ∧ e.call = c := by
      rw [← hcalls, List.getElem?_map, ← haccepted, ← hqueue] at hc
      exact Option.map_eq_some_iff.mp hc
    have hbseq : s.sequenceQueue[j]? = some b.seqId := by
      rw [hsequences, List.getElem?_map, hb]
      rfl
    obtain ⟨m', s', r, hrun', hacc, hr, hrseq, hrcode⟩ := Async.answer_all hidle.responder he hbseq
      (fun i hi d hd => by
        obtain ⟨hd', n, hn⟩ := hcall i d hd
        rw [hn]
        exact AsyncCall.unread_of_not_readsFutures (hnone i hi _ hd'))
      hidle.queued
    rw [hidle.responses, List.length_nil, Nat.zero_add] at hr
    obtain ⟨e', he', hans⟩ := h _ s' (hrun.append hrun') j r hr
    rw [hacc, ← hqueue, he] at he'
    cases he'
    obtain ⟨n, hn⟩ := (hcall j e he).2
    refine ⟨fun hput => ?_, ?_⟩
    · have hcode := hrcode.symm.trans hans.opCode
      rw [hn] at hcode
      simp only [AsyncCall.entry, hec, hput, if_true] at hcode
      cases hcode
    · rw [← hec, ← hans.seqId, hrseq]
  · intro h moves s hrun
    exact (Traced.run hrun).responsesRight h

/-! ## A put before a get batch -/

/-- A put of `v`, and a get of it in a batch. -/
def putThenGetBatch : List AsyncCall :=
  [.put ⟨1, 0, 0⟩ ['k'] ['v'], .getBatch ⟨1, 1, 0⟩ [['k']]]

/-- **The failing run**: the first response is for the put, but carries the
sequence number of the get batch and the operation code of a get. -/
theorem put_answered_wrongly :
    ∃ moves s, Run Async.Steps
        (.start ((∅ : UnorderedMap Int).insert ['k'] 0) putThenGetBatch) moves s ∧
      s.responses = [⟨⟨1, 1, 0⟩, .get, [['v']]⟩] ∧ s.accepted.map Entry.call = putThenGetBatch ∧
      ¬ s.ResponsesRight := by
  have hrun : (([.request, .request, .request, .request, .request, .request, .request,
        .fulfil 0 ['v'], .responder, .responder, .responder] : List AsyncMove).foldlM Async.step
      (.start ((∅ : UnorderedMap Int).insert ['k'] 0) putThenGetBatch)).map
        (fun s => (s.responses, s.accepted.map Entry.call))
      = some ([⟨⟨1, 1, 0⟩, .get, [['v']]⟩], putThenGetBatch) := by decide +kernel
  obtain ⟨s, hs, hend⟩ := Option.map_eq_some_iff.mp hrun
  obtain ⟨hresponses, haccepted⟩ := Prod.mk.inj hend
  refine ⟨_, s, Run.of_foldlM id hs, hresponses, haccepted, fun h => ?_⟩
  obtain ⟨e, he, hans⟩ := h 0 _ (by rw [hresponses]; rfl)
  have hcall : (s.accepted.map Entry.call)[0]? = some e.call := by
    rw [List.getElem?_map, he]
    rfl
  rw [haccepted] at hcall
  have hseq := hans.seqId
  rw [← Option.some.inj hcall] at hseq
  exact absurd hseq (by decide)

end Pancake
