import Pancake.AsyncResponses

/-!
# Several handler threads

The server runs its handlers on a pool of threads. Here each of any number of
threads handles get batches of its own, one after another, and all of them
push on the same queues. `async_get_batch` publishes a request by two pushes,
first on `respond_queue_` and then on `sequence_queue_`, and the responder
pairs the two queues by position alone.
-/

namespace Pancake

/-- The arguments of one `async_get_batch`. -/
structure GetBatchCall where
  seqId : SequenceId
  keys : List Str

def GetBatchCall.call (c : GetBatchCall) : AsyncCall := .getBatch c.seqId c.keys

/-- A handler thread: what it has left to do, and its `waiters`. -/
structure Handler where
  script : List Action
  waiters : Waiters := {}

/-- The handler threads and what they share. The script and the waiters of
`shared` are those of the thread that moved last; nothing reads them. -/
structure Handlers where
  threads : Nat → Handler
  shared : Async := { script := [] }

/-- A step of one of the threads. -/
inductive HandlerMove where
  | request (t : Nat)
  | fulfil (p : Promise) (value : Str)
  | responder

namespace Handlers

/-- The state before the threads start, thread `t` with the calls `calls t`. -/
def start (keyToFrequency : UnorderedMap Int) (calls : Nat → List GetBatchCall) : Handlers :=
  { threads := fun t => { script := scriptOf keyToFrequency ((calls t).map GetBatchCall.call) } }

/-- The state as thread `t` sees it. -/
def view (s : Handlers) (t : Nat) : Async :=
  { s.shared with script := (s.threads t).script, waiters := (s.threads t).waiters }

/-- The step: a handler takes its next action, a consumer fulfils a promise,
or the responder moves. -/
def step (s : Handlers) : HandlerMove → Option Handlers
  | .request t => (s.view t).requestStep.map fun shared =>
      { threads := Function.update s.threads t ⟨shared.script, shared.waiters⟩, shared }
  | .fulfil p value => (s.shared.step (.fulfil p value)).map fun shared => { s with shared }
  | .responder => (s.shared.step .responder).map fun shared => { s with shared }

/-- The steps as a transition system. -/
def Steps (s : Handlers) (m : HandlerMove) (s' : Handlers) : Prop := s.step m = some s'

/-- The sequence number a thread is about to push. -/
def nextSeqId (s : Handlers) (t : Nat) : Option SequenceId :=
  match (s.threads t).script with
  | .sequence seqId :: _ => some seqId
  | _ => none

/-- A thread pushes its sequence number only when the earliest element of
`respond_queue_` whose sequence number has not been pushed is of a request
with that number. -/
def InOrder (s : Handlers) : HandlerMove → Prop
  | .request t => ∀ seqId ∈ s.nextSeqId t,
      (s.shared.accepted[s.shared.sequenced.length]?).map (·.call.seqId) = some seqId
  | _ => True

instance (s : Handlers) : DecidablePred s.InOrder
  | .request _ => inferInstanceAs (Decidable (∀ _ ∈ _, _))
  | .fulfil .. => isTrue trivial
  | .responder => isTrue trivial

/-- The steps that push in order. -/
structure OrderedSteps (s : Handlers) (m : HandlerMove) (s' : Handlers) : Prop where
  taken : s.Steps m s'
  inOrder : s.InOrder m

end Handlers

/-! ## What a handler pushes -/

/-- The script pushes requests with their own operations: `ops` are those
submitted since the call was entered. -/
def Submits : List Operation → List Action → Prop
  | _, [] => True
  | _, .enter :: script => Submits [] script
  | ops, .submit op :: script => Submits (ops ++ [op]) script
  | ops, .respond call opCode :: script =>
      opCode = call.opCode ∧ ops = call.operations ∧ Submits ops script
  | ops, .sequence _ :: script => Submits ops script
  | _, .awaitAll :: _ => False
  | _, .fault :: _ => False

theorem submits_append (ops ops' : List Operation) (script : List Action) :
    Submits ops (ops'.map .submit ++ script) ↔ Submits (ops ++ ops') script := by
  induction ops' generalizing ops with
  | nil => simp
  | cons op ops' ih =>
      rw [List.map_cons, List.cons_append, Submits, ih]
      simp

/-- Get batches push their own operations. -/
theorem submits_scriptOf (keyToFrequency : UnorderedMap Int) (calls : List GetBatchCall)
    (ops : List Operation) :
    Submits ops (scriptOf keyToFrequency (calls.map GetBatchCall.call)) := by
  induction calls generalizing ops with
  | nil => trivial
  | cons c calls ih =>
      obtain ⟨submitted, ending, hprogram, -, hrejected, haccepted⟩ :=
        c.call.program_eq keyToFrequency
      have hfaulty : ¬ c.call.faulty := by simp [GetBatchCall.call, AsyncCall.faulty]
      rw [List.map_cons, scriptOf, List.flatMap_cons, hprogram, List.cons_append, List.append_assoc,
        Submits, submits_append, List.nil_append]
      by_cases ha : c.call.accepted keyToFrequency
      · obtain ⟨rfl, rfl⟩ := haccepted hfaulty ha
        exact ⟨rfl, rfl, ih _⟩
      · rw [hrejected hfaulty ha]
        exact ih submitted

/-- The futures are those of the promises issued, none read. -/
def Waiters.Unread (w : Waiters) : Prop := w.futures = w.issued.map fun x => some x.2

theorem Waiters.Unread.submit {w : Waiters} (h : w.Unread) (op : Operation) (p : Promise) :
    (w.submit op p).Unread := by
  rw [Unread] at h ⊢
  simp [Waiters.submit, h]

/-- The entry was pushed with the operations of its own request. -/
structure Entry.Own (e : Entry) : Prop where
  opCode : e.opCode = e.call.opCode
  operations : e.waiters.issued.map Prod.fst = e.call.operations
  unread : e.waiters.Unread

/-- What the thread is going to push is its own. -/
structure Handler.Handling (h : Handler) : Prop where
  submits : Submits (h.waiters.issued.map Prod.fst) h.script
  unread : h.waiters.Unread

/-- An entry that was sent under its own sequence number was answered. -/
theorem Entry.Own.answeredBy {e : Entry} {values : Promise → Option Str} {r : Response}
    (h : e.Own) (hsent : e.Sent values r) (hseq : r.seqId = e.call.seqId) :
    e.AnsweredBy values r where
  seqId := hseq
  opCode := hsent.opCode.trans h.opCode
  operations := h.operations
  results := by
    rw [← hsent.results, h.unread, List.map_map]
    rfl

/-! ## The invariant -/

namespace Handlers

/-- What every thread is going to push is its own, what was pushed was its
own, the responder has sent what it popped, and the sequence numbers pushed
so far are those of the first requests of `respond_queue_`. -/
structure Paired (s : Handlers) : Prop where
  handling : ∀ t, (s.threads t).Handling
  own : ∀ e ∈ s.shared.accepted, e.Own
  queued : s.shared.Queued
  sequenced : s.shared.sequenced <+: s.shared.accepted.map fun e => e.call.seqId

theorem Paired.start (keyToFrequency : UnorderedMap Int) (calls : Nat → List GetBatchCall) :
    Paired (start keyToFrequency calls) where
  handling := by
    intro t
    exact ⟨submits_scriptOf keyToFrequency (calls t) [], rfl⟩
  own := by simp [Handlers.start]
  queued := ⟨[], .nil, rfl⟩
  sequenced := List.nil_prefix

/-- **A handler** pushes its own request, and its number in order. -/
theorem Paired.request {s : Handlers} {t : Nat} {shared : Async} (h : s.Paired)
    (hin : s.InOrder (.request t)) (hs : (s.view t).requestStep = some shared) :
    Paired { threads := Function.update s.threads t ⟨shared.script, shared.waiters⟩, shared } := by
  obtain ⟨hsubmits, hunread⟩ := h.handling t
  -- what is left to show, about the thread that moved and the shared state
  suffices hnew : Handler.Handling ⟨shared.script, shared.waiters⟩ ∧
      (∀ e ∈ shared.accepted, e.Own) ∧ shared.Queued ∧
      shared.sequenced <+: shared.accepted.map fun e => e.call.seqId by
    obtain ⟨hhandling, hown, hqueued, hsequenced⟩ := hnew
    refine ⟨?_, hown, hqueued, hsequenced⟩
    intro u
    show (Function.update s.threads t ⟨shared.script, shared.waiters⟩ u).Handling
    by_cases hu : u = t
    · subst hu
      rwa [Function.update_self]
    · rw [Function.update_of_ne hu]
      exact h.handling u
  unfold Async.requestStep at hs
  simp only [view] at hs
  cases hscript : (s.threads t).script with
  | nil => simp [hscript] at hs
  | cons action rest =>
      rw [hscript] at hs hsubmits
      cases action with
      | enter =>
          cases hs
          exact ⟨⟨hsubmits, rfl⟩, h.own, h.queued, h.sequenced⟩
      | submit op =>
          cases hs
          refine ⟨⟨?_, hunread.submit op _⟩, h.own, h.queued, h.sequenced⟩
          simpa [Waiters.submit, Submits] using hsubmits
      | awaitAll => exact absurd hsubmits id
      | respond call opCode =>
          cases hs
          obtain ⟨hcode, hops, hrest⟩ := hsubmits
          refine ⟨⟨hrest, hunread⟩, ?_, ?_, ?_⟩
          · intro e he
            rcases List.mem_append.mp he with he | he
            · exact h.own e he
            · rw [List.mem_singleton.mp he]
              exact ⟨hcode, hops, hunread⟩
          · obtain ⟨answered, hsent, hqueued⟩ := h.queued
            exact ⟨answered, hsent, by simp [hqueued]⟩
          · rw [List.map_append]
            exact h.sequenced.trans (List.prefix_append _ _)
      | sequence seqId =>
          cases hs
          refine ⟨⟨hsubmits, hunread⟩, h.own, h.queued, ?_⟩
          -- the next number of `respond_queue_` is the one pushed
          have hget : (s.shared.accepted.map fun e => e.call.seqId)[s.shared.sequenced.length]?
              = some seqId := by
            rw [List.getElem?_map]
            exact hin seqId (by simp [nextSeqId, hscript])
          obtain ⟨later, hlater⟩ := h.sequenced
          rw [← hlater, List.getElem?_append_right le_rfl, Nat.sub_self] at hget
          cases later with
          | nil => cases hget
          | cons x later =>
              cases hget
              refine ⟨later, ?_⟩
              rw [← hlater]
              simp [Async.sequenced]
      | fault => exact absurd hsubmits id

/-- **The step** of any thread keeps the queues paired. -/
theorem Paired.step {s s' : Handlers} {m : HandlerMove} (h : s.Paired)
    (hs : s.OrderedSteps m s') : s'.Paired := by
  obtain ⟨htaken, hin⟩ := hs
  cases m with
  | request t =>
      obtain ⟨shared, hshared, rfl⟩ := Option.map_eq_some_iff.mp htaken
      exact h.request hin hshared
  | fulfil p value =>
      obtain ⟨shared, hshared, rfl⟩ := Option.map_eq_some_iff.mp htaken
      have hqueued : shared.Queued := h.queued.fulfil hshared
      simp only [Async.step] at hshared
      split at hshared
      · cases hshared
        exact ⟨h.handling, h.own, hqueued, h.sequenced⟩
      · cases hshared
  | responder =>
      obtain ⟨shared, hshared, rfl⟩ := Option.map_eq_some_iff.mp htaken
      obtain ⟨-, -, -, haccepted, hsequenced, hqueued⟩ := Async.responderStep_spec hshared
      refine ⟨h.handling, ?_, hqueued h.queued, ?_⟩
      · rw [haccepted]
        exact h.own
      · rw [haccepted, hsequenced]
        exact h.sequenced

/-- **Safety**: paired queues, right responses. -/
theorem Paired.responsesRight {s : Handlers} (h : s.Paired) : s.shared.ResponsesRight := by
  intro j r hr
  obtain ⟨answered, hsent, hqueued⟩ := h.queued
  have hj : j < s.shared.responses.length := (List.getElem?_eq_some_iff.mp hr).1
  have hj' : j < answered.length := hsent.length_eq ▸ hj
  have he : s.shared.accepted[j]? = some answered[j] := by
    rw [hqueued, List.append_assoc, List.getElem?_append_left hj', List.getElem?_eq_getElem hj']
  obtain rfl : s.shared.responses[j] = r := by
    rw [List.getElem?_eq_getElem hj] at hr
    exact Option.some.inj hr
  refine ⟨answered[j], he, (h.own _ (List.mem_of_getElem? he)).answeredBy (hsent.get hj' hj) ?_⟩
  -- its number is the `j`-th pushed, so that of the `j`-th request
  have hseq : s.shared.sequenced[j]? = some s.shared.responses[j].seqId := by
    rw [Async.sequenced, List.append_assoc, List.getElem?_append_left (by simpa using hj),
      List.getElem?_map, List.getElem?_eq_getElem hj]
    rfl
  obtain ⟨later, hlater⟩ := h.sequenced
  have hget : (s.shared.sequenced ++ later)[j]? = some s.shared.responses[j].seqId := by
    rw [List.getElem?_append_left (List.getElem?_eq_some_iff.mp hseq).1, hseq]
  rw [hlater, List.getElem?_map, he] at hget
  exact (Option.some.inj hget).symm

/-! ## Two clients -/

/-- Client 1 asks for `j` on one thread, client 2 for `k` on another. -/
def twoClients : Nat → List GetBatchCall
  | 0 => [⟨⟨1, 0, 0⟩, [['j']]⟩]
  | 1 => [⟨⟨2, 0, 0⟩, [['k']]⟩]
  | _ => []

/-- The keys `j` and `k`. -/
def jAndK : UnorderedMap Int := ((∅ : UnorderedMap Int).insert ['j'] 0).insert ['k'] 0

/-- **Pushes in order**: in every run in which each thread pushes its sequence
number in its turn, every response is the one for its request. -/
theorem responsesRight_of_inOrder (keyToFrequency : UnorderedMap Int)
    (calls : Nat → List GetBatchCall) {moves : List HandlerMove} {s : Handlers}
    (h : Run OrderedSteps (start keyToFrequency calls) moves s) : s.shared.ResponsesRight :=
  (h.invariant (I := fun _ s => Paired s) (.start keyToFrequency calls)
    fun _ hi hs => hi.step hs).responsesRight

/-- Both threads are inside their calls at once, and the second is served
first. -/
theorem responsesRight_of_inOrder_twoClients :
    ∃ moves s, Run OrderedSteps (start jAndK twoClients) moves s ∧
      s.shared.responses = [⟨⟨2, 0, 0⟩, .getBatch, [['w']]⟩, ⟨⟨1, 0, 0⟩, .getBatch, [['v']]⟩] ∧
      s.shared.ResponsesRight := by
  have hrun : (([.request 0, .request 1, .request 0, .request 1, .request 1, .request 1,
        .request 0, .fulfil 1 ['w'], .responder, .request 0, .fulfil 0 ['v'], .responder,
        .responder, .responder, .responder, .responder] : List HandlerMove).foldlM
          (fun (s : Handlers) m => if s.InOrder m then s.step m else none)
            (start jAndK twoClients)).any (fun s =>
        s.shared.responses
          = [⟨⟨2, 0, 0⟩, .getBatch, [['w']]⟩, ⟨⟨1, 0, 0⟩, .getBatch, [['v']]⟩]) = true := by
    decide +kernel
  obtain ⟨s, hs, hend⟩ := (Option.any_eq_true _ _).mp hrun
  have hordered : ∀ {s : Handlers} {m : HandlerMove} {s' : Handlers},
      (if s.InOrder m then s.step m else none) = some s' → OrderedSteps s m s' := by
    intro s m s' hm
    rw [Option.ite_none_right_eq_some] at hm
    exact ⟨hm.2, hm.1⟩
  have h := Run.of_foldlM hordered hs
  exact ⟨_, s, h, of_decide_eq_true hend, responsesRight_of_inOrder jAndK twoClients h⟩

/-- **The failing run**: thread 1 pushes both halves of its request between
the two pushes of thread 0, and client 2 is sent what client 1 asked for. -/
theorem answered_under_wrong_seqId :
    ∃ moves s, Run Steps (start jAndK twoClients) moves s ∧
      s.shared.responses = [⟨⟨2, 0, 0⟩, .getBatch, [['v']]⟩] ∧
      s.shared.accepted.map (fun e => (e.call, e.waiters.issued))
        = [(.getBatch ⟨1, 0, 0⟩ [['j']], [(⟨['j'], []⟩, 0)]),
          (.getBatch ⟨2, 0, 0⟩ [['k']], [(⟨['k'], []⟩, 1)])] ∧
      s.shared.values 0 = some ['v'] ∧ s.shared.values 1 = none ∧ ¬ s.shared.ResponsesRight := by
  have hrun : (([.request 0, .request 0, .request 0, .request 1, .request 1, .request 1,
        .request 1, .request 0, .fulfil 0 ['v'], .responder, .responder, .responder] :
          List HandlerMove).foldlM step (start jAndK twoClients)).any (fun s =>
        s.shared.responses = [⟨⟨2, 0, 0⟩, .getBatch, [['v']]⟩] ∧
          s.shared.accepted.map (fun e => (e.call, e.waiters.issued))
            = [(.getBatch ⟨1, 0, 0⟩ [['j']], [(⟨['j'], []⟩, 0)]),
              (.getBatch ⟨2, 0, 0⟩ [['k']], [(⟨['k'], []⟩, 1)])] ∧
          s.shared.values 0 = some ['v'] ∧ s.shared.values 1 = none) = true := by
    decide +kernel
  obtain ⟨s, hs, hend⟩ := (Option.any_eq_true _ _).mp hrun
  obtain ⟨hresponses, haccepted, hv, hnone⟩ := of_decide_eq_true hend
  refine ⟨_, s, Run.of_foldlM id hs, hresponses, haccepted, hv, hnone, ?_⟩
  intro h
  obtain ⟨e, he, hans⟩ := h 0 _ (by rw [hresponses]; rfl)
  have hcall := congrArg (fun l => (l[0]?).map fun x => x.1.seqId) haccepted
  simp only [List.getElem?_map, he, Option.map_some] at hcall
  have hseq := hans.seqId
  rw [Option.some.inj hcall] at hseq
  exact absurd hseq (by decide)

end Handlers

end Pancake
