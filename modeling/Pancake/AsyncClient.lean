import Pancake.Queue
import Pancake.AsyncResponses

/-!
# The asynchronous client

`async_proxy_client` sends a request and pushes its kind on `requests_`; its
thread `read_responses` pops a kind, then waits for a response. The calls wait
while `requests_` holds `in_flight_limit_` kinds, which is not the number of
requests without a response: the kind that was popped is missing from it while
its response is awaited.

One thread calls and one reads. A step is one access to what they share, and
`finish`, after which nothing is read, is left out.
-/

namespace Pancake

/-- `int` constants are copied as they are. -/
instance : Transfer OpCode where
  copy c := c
  move c := c
  assign _ c := c

instance : FaithfulCopies OpCode where
  copy_eq _ := rfl
  move_eq _ := rfl

/-- A call of the client. -/
inductive ClientCall where
  | get (key : Str)
  | put (key value : Str)
  | getBatch (keys : List Str)
  | putBatch (keys values : List Str)
  deriving DecidableEq

namespace ClientCall

/-- The request `client_` is made to send. -/
def request (seqId : SequenceId) : ClientCall → AsyncCall
  | get key => .get seqId key
  | put key value => .put seqId key value
  | getBatch keys => .getBatch seqId keys
  | putBatch keys values => .putBatch seqId keys values

/-- What is pushed on `requests_`. -/
def opCode : ClientCall → OpCode
  | get _ => .get
  | put _ _ => .put
  | getBatch _ => .getBatch
  | putBatch _ _ => .putBatch

end ClientCall

/-- Where the calling thread is: between two calls, at the test of the `while`
of a call, in `m_cond_->wait`, before the request is sent, before its kind is
pushed, or at the second `while` of `get_batch`. -/
inductive Caller where
  | idle
  | testing (call : ClientCall)
  | waiting (call : ClientCall)
  | sending (call : ClientCall)
  | pushing (call : ClientCall)
  | draining

namespace Caller

/-- The requests sent whose kind has yet to be pushed. -/
def unpushed : Caller → Nat
  | pushing _ => 1
  | _ => 0

/-- The test of the `while` has let the call through. -/
def Admitted : Caller → Prop
  | sending _ | pushing _ => True
  | _ => False

end Caller

/-- Where `read_responses` is: at its `pop`, its `notify_one` or its
`recv_response`. -/
inductive Reader where
  | popping
  | notifying
  | receiving
  deriving DecidableEq

/-- `async_proxy_client`, and the requests it has sent that have no response
yet. -/
structure AsyncClient where
  clientId : Int
  sequenceNum : CInt := 0
  requests : Queue OpCode := {}
  total : CInt := 0
  unanswered : List AsyncCall := []
  caller : Caller := .idle
  reader : Reader := .popping

/-- A step of the calling thread, or of the reading one: `receive` is the
response to `request`. -/
inductive ClientEvent where
  | call (c : ClientCall)
  | test
  | wake
  | send
  | push
  | drain
  | pop
  | notify
  | receive (request : AsyncCall) (results : List Str)
  deriving DecidableEq

namespace AsyncClient

/-- `in_flight_limit_` -/
def inFlightLimit : Nat := 16

/-- `seq_id_` of the next request. -/
def seqId (s : AsyncClient) : SequenceId where
  clientId := s.clientId
  clientSeqNo := s.sequenceNum.toInt
  serverSeqNo := 0

/-- One step, if it is the next of its thread. -/
def step (s : AsyncClient) : ClientEvent → Option AsyncClient
  | .call c => match s.caller with
    | .idle => some { s with caller := .testing c }
    | _ => none
  | .test => match s.caller with
    | .testing c => some { s with caller :=
        if (inFlightLimit : Int) ≤ s.requests.size.toInt then .waiting c else .sending c }
    | _ => none
  | .wake => match s.caller with
    | .waiting c => some { s with caller := .testing c }
    | _ => none
  | .send => match s.caller with
    | .sending c => some { s with unanswered := s.unanswered ++ [c.request s.seqId]
                                  sequenceNum := s.sequenceNum + 1
                                  caller := .pushing c }
    | _ => none
  | .push => match s.caller with
    | .pushing c => some { s with requests := s.requests.pushMove c.opCode
                                  caller := if c.opCode = .getBatch then .draining else .idle }
    | _ => none
  | .drain => match s.caller with
    | .draining => some { s with caller := if 63 < s.requests.size.toInt then .draining else .idle }
    | _ => none
  | .pop => match s.reader with
    | .popping => s.requests.pop.map fun r => { s with requests := r.2, reader := .notifying }
    | _ => none
  | .notify => match s.reader with
    | .notifying => some { s with reader := .receiving }
    | _ => none
  | .receive request results => match s.reader with
    | .receiving =>
        if request ∈ s.unanswered then
          some { s with unanswered := s.unanswered.erase request
                        total := s.total + BitVec.ofNat 32 results.length
                        reader := .popping }
        else none
    | _ => none

/-- The steps as a transition system. -/
def Steps (s : AsyncClient) (e : ClientEvent) (s' : AsyncClient) : Prop := s.step e = some s'

/-- The steps, one by one. -/
inductive Takes (s : AsyncClient) : ClientEvent → AsyncClient → Prop
  | call (c : ClientCall) (h : s.caller = .idle) :
      Takes s (.call c) { s with caller := .testing c }
  | test {c : ClientCall} (h : s.caller = .testing c) : Takes s .test
      { s with caller :=
        if (inFlightLimit : Int) ≤ s.requests.size.toInt then .waiting c else .sending c }
  | wake {c : ClientCall} (h : s.caller = .waiting c) :
      Takes s .wake { s with caller := .testing c }
  | send {c : ClientCall} (h : s.caller = .sending c) : Takes s .send
      { s with unanswered := s.unanswered ++ [c.request s.seqId]
               sequenceNum := s.sequenceNum + 1
               caller := .pushing c }
  | push {c : ClientCall} (h : s.caller = .pushing c) : Takes s .push
      { s with requests := s.requests.pushMove c.opCode
               caller := if c.opCode = .getBatch then .draining else .idle }
  | drain (h : s.caller = .draining) : Takes s .drain
      { s with caller := if 63 < s.requests.size.toInt then .draining else .idle }
  | pop {code : OpCode} {q : Queue OpCode} (h : s.reader = .popping)
      (hpop : s.requests.pop = some (code, q)) :
      Takes s .pop { s with requests := q, reader := .notifying }
  | notify (h : s.reader = .notifying) : Takes s .notify { s with reader := .receiving }
  | receive {request : AsyncCall} (results : List Str) (h : s.reader = .receiving)
      (hmem : request ∈ s.unanswered) : Takes s (.receive request results)
        { s with unanswered := s.unanswered.erase request
                 total := s.total + BitVec.ofNat 32 results.length
                 reader := .popping }

theorem Steps.takes {s s' : AsyncClient} {e : ClientEvent} (hs : s.Steps e s') : s.Takes e s' := by
  cases e with
  | pop =>
      simp only [Steps, step] at hs
      split at hs
      · rename_i hr
        obtain ⟨⟨code, q⟩, hpop, rfl⟩ := Option.map_eq_some_iff.mp hs
        exact .pop hr hpop
      · cases hs
  | receive request results =>
      simp only [Steps, step] at hs
      split at hs
      · rename_i hr
        split at hs
        · rename_i hmem
          cases hs
          exact .receive results hr hmem
        · cases hs
      · cases hs
  | call _ | test | wake | send | push | drain | notify =>
      simp only [Steps, step] at hs
      split at hs
      · rename_i h
        cases hs
        constructor
        exact h
      · cases hs

/-- The kinds popped whose response is awaited. -/
def awaited (s : AsyncClient) : Nat := if s.reader = .popping then 0 else 1

theorem awaited_of_popping {s : AsyncClient} (h : s.reader = .popping) : s.awaited = 0 := if_pos h

theorem awaited_of_ne {s : AsyncClient} (h : s.reader ≠ .popping) : s.awaited = 1 := if_neg h

/-- A request is sent only while the kinds in `requests_` and the one whose
response is awaited are together fewer than the limit. -/
def Spaced (s : AsyncClient) : ClientEvent → Prop
  | .send => s.requests.items.length + s.awaited < inFlightLimit
  | _ => True

/-! ## What is in flight -/

/-- The requests without a response are those whose kinds are in `requests_`,
the one whose response is awaited, and the one being sent; and a call that was
let through finds room in `requests_`. -/
structure Accounted (s : AsyncClient) : Prop where
  count : s.unanswered.length = s.requests.items.length + s.awaited + s.caller.unpushed
  filled : s.requests.items.length ≤ inFlightLimit
  room : s.caller.Admitted → s.requests.items.length < inFlightLimit

theorem accounted_start (id : Int) : Accounted { clientId := id } :=
  ⟨rfl, Nat.zero_le _, fun h => h.elim⟩

namespace Accounted

variable {s s' : AsyncClient}

/-- Moving the calling thread on, with nothing sent or pushed. -/
theorem move (h : s.Accounted) {caller : Caller} (hu : caller.unpushed = s.caller.unpushed)
    (hroom : caller.Admitted → s.requests.items.length < inFlightLimit) :
    Accounted { s with caller := caller } :=
  ⟨h.count.trans (by rw [hu]; rfl), h.filled, hroom⟩

/-- While it is within the limit, `size()` is the number of kinds waiting. -/
theorem toInt_size (h : s.Accounted) : s.requests.size.toInt = s.requests.items.length :=
  s.requests.toInt_size.mpr (Nat.lt_of_le_of_lt h.filled (by decide))

/-- **A step** of either thread. -/
theorem step {e : ClientEvent} (h : s.Accounted) (hs : s.Steps e s') : s'.Accounted := by
  have hcount := h.count
  have hfilled := h.filled
  cases hs.takes with
  | call c hc => exact h.move (by rw [hc]; rfl) fun hadmitted => hadmitted.elim
  | wake hc => exact h.move (by rw [hc]; rfl) fun hadmitted => hadmitted.elim
  | test hc =>
      split
      · exact h.move (by rw [hc]; rfl) fun hadmitted => hadmitted.elim
      · rename_i hlt
        rw [h.toInt_size] at hlt
        exact h.move (by rw [hc]; rfl) fun _ => by omega
  | drain hc =>
      split
      · exact h.move (by rw [hc]) fun hadmitted => hadmitted.elim
      · exact h.move (by rw [hc]; rfl) fun hadmitted => hadmitted.elim
  | send hc =>
      refine ⟨?_, hfilled, fun _ => h.room (by rw [hc]; trivial)⟩
      simp only [hc, Caller.unpushed] at hcount
      show (s.unanswered ++ [_]).length = s.requests.items.length + s.awaited + 1
      rw [List.length_append, List.length_singleton, hcount]
  | @push c hc =>
      have hroom := h.room (by rw [hc]; trivial)
      simp only [hc, Caller.unpushed] at hcount
      have hlen : (s.requests.pushMove c.opCode).items.length = s.requests.items.length + 1 := by
        simp
      refine ⟨?_, ?_, ?_⟩
      · show s.unanswered.length = (s.requests.pushMove c.opCode).items.length + s.awaited + _
        rw [hlen, hcount]
        split <;> simp only [Caller.unpushed] <;> omega
      · show (s.requests.pushMove c.opCode).items.length ≤ inFlightLimit
        omega
      · intro hadmitted
        simp only at hadmitted
        split at hadmitted <;> exact hadmitted.elim
  | @pop code q hr hpop =>
      have hlen := congrArg List.length (Queue.pop_eq_some.mp hpop)
      rw [List.length_cons] at hlen
      rw [awaited_of_popping hr] at hcount
      refine ⟨?_, ?_, fun hadmitted => ?_⟩
      · show s.unanswered.length = q.items.length + 1 + s.caller.unpushed
        omega
      · show q.items.length ≤ inFlightLimit
        omega
      · have hroom := h.room hadmitted
        show q.items.length < inFlightLimit
        omega
  | notify hr =>
      refine ⟨?_, hfilled, h.room⟩
      rw [awaited_of_ne (by rw [hr]; decide)] at hcount
      exact hcount
  | @receive request _ hr hmem =>
      refine ⟨?_, hfilled, h.room⟩
      rw [awaited_of_ne (by rw [hr]; decide)] at hcount
      show (s.unanswered.erase request).length = s.requests.items.length + 0 + s.caller.unpushed
      rw [List.length_erase_of_mem hmem]
      omega

/-- **The limit after a step** that found it respected: only a `send` can
break it, and does so exactly if it comes while another response is awaited
and `requests_` lacks one kind of being full. -/
theorem within_iff {e : ClientEvent} (h : s.Accounted) (hs : s.Steps e s')
    (hw : s.unanswered.length ≤ inFlightLimit) :
    s'.unanswered.length ≤ inFlightLimit ↔ s.Spaced e := by
  cases hs.takes with
  | send hc =>
      have hcount := h.count
      simp only [hc, Caller.unpushed] at hcount
      rw [Spaced, List.length_append, List.length_singleton, hcount]
      omega
  | receive _ _ _ => exact iff_of_true ((List.length_erase_le).trans hw) trivial
  | call _ _ | test _ | wake _ | push _ | drain _ | pop _ _ | notify _ =>
      exact iff_of_true hw trivial

end Accounted

/-- **Every run** keeps the account. -/
theorem accounted_of_run {id : Int} {events : List ClientEvent} {s : AsyncClient}
    (h : Run Steps { clientId := id } events s) : s.Accounted :=
  h.invariant (I := fun _ s => s.Accounted) (accounted_start id) fun _ ha hs => ha.step hs

/-- One request more than the limit is the most that is ever in flight. -/
theorem unanswered_le {id : Int} {events : List ClientEvent} {s : AsyncClient}
    (h : Run Steps { clientId := id } events s) : s.unanswered.length ≤ inFlightLimit + 1 := by
  obtain ⟨hcount, hfilled, hroom⟩ := accounted_of_run h
  have hawaited : s.awaited ≤ 1 := by
    rw [awaited]
    split <;> omega
  cases hc : s.caller with
  | pushing c =>
      have hlt := hroom (by rw [hc]; trivial)
      simp only [hc, Caller.unpushed] at hcount
      omega
  | idle | testing _ | waiting _ | sending _ | draining =>
      simp only [hc, Caller.unpushed] at hcount
      omega

/-- **The limit is respected** in every state of a run exactly if no request
is sent while another response is awaited and `requests_` lacks only one kind
of being full. -/
theorem withinLimit_iff (id : Int) (events : List ClientEvent) :
    (∀ done s, done <+: events → Run Steps { clientId := id } done s →
      s.unanswered.length ≤ inFlightLimit) ↔
    ∀ done e s s', done ++ [e] <+: events → Run Steps { clientId := id } done s →
      s.Steps e s' → s.Spaced e := by
  constructor
  · intro h done e s s' hpre hrun hs
    have hw := h done s ((List.prefix_append _ _).trans hpre) hrun
    exact ((accounted_of_run hrun).within_iff hs hw).mp (h _ s' hpre (hrun.snoc hs))
  · intro h done s hpre hrun
    refine hrun.invariant
      (I := fun done s => done <+: events → s.unanswered.length ≤ inFlightLimit) ?_ ?_ hpre
    · intro _
      exact Nat.zero_le _
    · intro done s e s' hrun ih hs hpre
      have hw := ih ((List.prefix_append _ _).trans hpre)
      exact ((accounted_of_run hrun).within_iff hs hw).mpr (h done e s s' hpre hrun hs)

/-- Sixteen gets, the first one's kind popped, and a seventeenth get. -/
def seventeenGets : List ClientEvent :=
  (List.replicate 16 [.call (.get ['k']), .test, .send, .push]).flatten ++
    [.pop, .notify, .call (.get ['k']), .test, .send]

/-- **The failing run**: with no response yet, seventeen requests are sent. -/
theorem seventeen_inFlight :
    (∃ s, Run Steps { clientId := 0 } seventeenGets s ∧ s.unanswered.length = 17) ∧
    ¬ ∀ done s, done <+: seventeenGets → Run Steps { clientId := 0 } done s →
      s.unanswered.length ≤ inFlightLimit := by
  have hstep : (seventeenGets.foldlM step { clientId := 0 }).map (·.unanswered.length)
      = some 17 := by
    decide +kernel
  obtain ⟨s, hs, hlen⟩ := Option.map_eq_some_iff.mp hstep
  have hrun : Run Steps { clientId := 0 } seventeenGets s := .of_foldlM (fun h => h) hs
  refine ⟨⟨s, hrun, hlen⟩, fun h => ?_⟩
  have hle := h _ s List.prefix_rfl hrun
  rw [hlen] at hle
  exact absurd hle (by decide)

end AsyncClient

end Pancake
