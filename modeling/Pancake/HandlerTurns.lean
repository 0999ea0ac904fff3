import Mathlib.Algebra.BigOperators.Group.Finset.Basic
import Mathlib.Algebra.Order.BigOperators.Group.Finset
import Mathlib.Data.Int.CardIntervalMod
import Mathlib.Order.Bounds.Defs
import Pancake.CompletedPuts
import Pancake.Queue
import Pancake.Requests

/-!
# The handlers' turns

Every connection has a `thrift_handler` of its own, which passes the number of
requests it has served on as the queue id. So the requests of a connection go
round the operation queues, all connections from the first queue on, and the
first queues get more than the last ones. A batch pushes key by key, and
between two of its pushes other handlers push and consumers pop.
-/

namespace Pancake

/-! ## A request, push by push -/

/-- A future a request makes: `get_future(queue_id, key)`, or
`put_future(queue_id, key, values[i])` with `values[i]` if it is there. -/
inductive FutureCall where
  | get (key : Str)
  | put (key : Str) (value : Option Str)

namespace FutureCall

/-- The operation it queues. -/
def operation : FutureCall → Operation
  | get key => ⟨key, []⟩
  | put key value => ⟨key, value.getD []⟩

/-- One call of `get_future` or `put_future`. -/
def make (n : Nat) (queueId : Int) (s : Consumers) : FutureCall → Except Fault Promise × Consumers
  | get key => s.getFuture n queueId key
  | put key (some value) => s.putFuture n queueId key value
  | put _ none => (.error .indexOutOfBounds, s)

/-- The loop over the keys: it ends where a call throws. -/
def makeAll (n : Nat) (queueId : Int) : Consumers → List FutureCall →
    Except Fault (List Promise) × Consumers
  | s, [] => (.ok [], s)
  | s, f :: fs =>
      match f.make n queueId s with
      | (.error e, s) => (.error e, s)
      | (.ok p, s) =>
          let (waiters, s) := makeAll n queueId s fs
          (waiters.map (p :: ·), s)

/-- The calls of `put_batch`. -/
def puts : List Str → List Str → List FutureCall
  | [], _ => []
  | key :: keys, values => put key values.head? :: puts keys values.tail

end FutureCall

/-- The futures a request makes, in order. -/
def ClientRequest.futures : ClientRequest → List FutureCall
  | get key => [.get key]
  | put key value => [.put key (some value)]
  | getBatch keys => keys.map .get
  | putBatch keys values => FutureCall.puts keys values
  | async (.get _ key) => [.get key]
  | async (.put _ key value) => [.put key (some value)]
  | async (.getBatch _ keys) => keys.map .get
  | async (.putBatch _ keys values) => FutureCall.puts keys values

section Calls

variable {n : Nat} {queueId : Int} {s : Consumers}

theorem FutureCall.makeAll_gets (keys : List Str) :
    makeAll n queueId s (keys.map .get) = s.getFutures n queueId keys := by
  induction keys generalizing s with
  | nil => rfl
  | cons key keys ih =>
      rw [List.map_cons, makeAll, Consumers.getFutures, make]
      rcases s.getFuture n queueId key with ⟨e | p, s₁⟩
      · rfl
      · exact congrArg (fun made => (made.1.map (p :: ·), made.2)) ih

theorem FutureCall.makeAll_puts (keys values : List Str) :
    makeAll n queueId s (puts keys values) = s.putFutures n queueId keys values := by
  induction keys generalizing s values with
  | nil => rfl
  | cons key keys ih =>
      cases values with
      | nil => rfl
      | cons value values =>
          rw [puts, makeAll, Consumers.putFutures, List.head?_cons, List.tail_cons, make]
          rcases s.putFuture n queueId key value with ⟨e | p, s₁⟩
          · rfl
          · exact congrArg (fun made => (made.1.map (p :: ·), made.2)) (ih values)

/-- **An undisturbed request** makes its futures one after another. -/
theorem request_eq_makeAll (n : Nat) (queueId : Int) (s : Consumers) (r : ClientRequest) :
    ∃ actions, s.request n queueId r
      = Consumers.thenAll (FutureCall.makeAll n queueId s r.futures) actions := by
  have hgets : ∀ keys actions, Consumers.thenAll (s.getFutures n queueId keys) actions
      = Consumers.thenAll (FutureCall.makeAll n queueId s (keys.map .get)) actions := by
    intro keys actions
    rw [FutureCall.makeAll_gets]
  have hputs : ∀ keys values actions,
      Consumers.thenAll (s.putFutures n queueId keys values) actions
        = Consumers.thenAll (FutureCall.makeAll n queueId s (FutureCall.puts keys values))
          actions := by
    intro keys values actions
    rw [FutureCall.makeAll_puts]
  cases r with
  | get key => exact ⟨_, (Consumers.thenOne_getFuture key _).trans (hgets [key] _)⟩
  | put key value =>
      exact ⟨_, (Consumers.thenOne_putFuture key value _).trans (hputs [key] [value] _)⟩
  | getBatch keys => exact ⟨_, hgets keys _⟩
  | putBatch keys values => exact ⟨_, hputs keys values _⟩
  | async call =>
      cases call with
      | get seqId key => exact ⟨_, (Consumers.thenOne_getFuture key _).trans (hgets [key] _)⟩
      | put seqId key value =>
          exact ⟨_, (Consumers.thenOne_putFuture key value _).trans (hputs [key] [value] _)⟩
      | getBatch seqId keys => exact ⟨_, hgets keys _⟩
      | putBatch seqId keys values => exact ⟨_, hputs keys values _⟩

/-- A call queues its operation, or throws and changes nothing. -/
theorem FutureCall.make_cases (n : Nat) (queueId : Int) (s : Consumers) (f : FutureCall) :
    (∃ p, f.make n queueId s
      = (.ok p, s.enqueue (Consumers.queueIndex n queueId) f.operation)) ∨
    ∃ e, f.make n queueId s = (.error e, s) := by
  have hpush : ∀ op, (∃ p, s.push n queueId op
      = (.ok p, s.enqueue (Consumers.queueIndex n queueId) op)) ∨
        ∃ e, s.push n queueId op = (.error e, s) := by
    intro op
    by_cases hn : n = 0
    · exact .inr ⟨_, if_pos hn⟩
    · exact .inl ⟨_, if_neg hn⟩
  cases f with
  | get key =>
      rw [make, Consumers.getFuture]
      by_cases hkey : key ∈ s.proxy.keyToFrequency
      · rw [if_neg (not_not.mpr hkey)]
        exact hpush _
      · rw [if_pos hkey]
        exact .inr ⟨_, rfl⟩
  | put key value =>
      cases value with
      | none => exact .inr ⟨_, rfl⟩
      | some value => exact hpush _

end Calls

/-! ## The handlers -/

/-- The request a handler is in: the queue id it passed on, and the futures
still to make. -/
structure RequestUnderWay where
  queueId : Int
  todo : List FutureCall

/-- The proxy, and of every connection's handler `operation_count_` and the
request it is in. -/
structure ThriftHandlers where
  proxy : Consumers
  operationCount : Nat → CInt := fun _ => 0
  underWay : Nat → Option RequestUnderWay := fun _ => none

/-- The handler of a connection takes a request, passing `queueId` on; makes
the next future of it, and queues `op`, or throws; or returns. Or a consumer
takes a step. -/
inductive ServingEvent where
  | call (connection : Nat) (queueId : Int) (r : ClientRequest)
  | push (connection : Nat) (queueId : Int) (op : Operation)
  | fail (connection : Nat) (e : Fault)
  | finish (connection : Nat)
  | consumer (e : ConsumerEvent)

namespace ServingEvent

/-- The connection whose request is taken. -/
def connection : ServingEvent → Option Nat
  | call c _ _ => some c
  | _ => none

/-- The queue the request goes to. -/
def queue (n : Nat) : ServingEvent → Option Nat
  | call _ queueId _ => some (Consumers.queueIndex n queueId)
  | _ => none

/-- What is seen of it below the handlers: an arrival, under no promise yet, or
the consumer's step. -/
def below (n : Nat) : ServingEvent → Option ConsumerEvent
  | push _ queueId op => some (.enqueue (Consumers.queueIndex n queueId) op 0)
  | consumer e => some e
  | _ => none

end ServingEvent

/-- The step without the promise of an arrival. -/
def ConsumerEvent.unpromised : ConsumerEvent → ConsumerEvent
  | enqueue c op _ => enqueue c op 0
  | e => e

namespace ThriftHandlers

/-- A method of `thrift_handler` is entered: the proxy's is called at
`operation_count_++`. -/
def call (s : ThriftHandlers) (c : Nat) (r : ClientRequest) : ThriftHandlers :=
  { s with
    operationCount := Function.update s.operationCount c (s.operationCount c + 1)
    underWay := Function.update s.underWay c (some ⟨(s.operationCount c).toInt, r.futures⟩) }

/-- A handler goes on to `request`, or is out of its request. -/
def goOn (s : ThriftHandlers) (c : Nat) (request : Option RequestUnderWay) : ThriftHandlers :=
  { s with underWay := Function.update s.underWay c request }

section Members

variable (s : ThriftHandlers) (c : Nat) (r : ClientRequest) (request : Option RequestUnderWay)

@[simp] theorem call_operationCount : (s.call c r).operationCount
    = Function.update s.operationCount c (s.operationCount c + 1) := rfl

@[simp] theorem call_underWay : (s.call c r).underWay
    = Function.update s.underWay c (some ⟨(s.operationCount c).toInt, r.futures⟩) := rfl

@[simp] theorem goOn_operationCount : (s.goOn c request).operationCount = s.operationCount := rfl

@[simp] theorem goOn_underWay :
    (s.goOn c request).underWay = Function.update s.underWay c request := rfl

end Members

/-- The steps: a handler is in one request at a time, and operations are queued
by the handlers only. How long a request stays after its last future, whether
it waits for them or not, is left open. -/
inductive Steps (n : Nat) (s : ThriftHandlers) : ServingEvent → ThriftHandlers → Prop
  | call {c : Nat} {r : ClientRequest} :
      s.underWay c = none → Steps n s (.call c (s.operationCount c).toInt r) (s.call c r)
  | push {c : Nat} {queueId : Int} {f : FutureCall} {todo : List FutureCall} {p : Promise}
      {proxy : Consumers} :
      s.underWay c = some ⟨queueId, f :: todo⟩ → f.make n queueId s.proxy = (.ok p, proxy) →
      Steps n s (.push c queueId f.operation)
        ({ s with proxy := proxy }.goOn c (some ⟨queueId, todo⟩))
  | fail {c : Nat} {queueId : Int} {f : FutureCall} {todo : List FutureCall} {e : Fault}
      {proxy : Consumers} :
      s.underWay c = some ⟨queueId, f :: todo⟩ → f.make n queueId s.proxy = (.error e, proxy) →
      Steps n s (.fail c e) ({ s with proxy := proxy }.goOn c none)
  | finish {c : Nat} {queueId : Int} :
      s.underWay c = some ⟨queueId, []⟩ → Steps n s (.finish c) (s.goOn c none)
  | consumer {e : ConsumerEvent} {proxy : Consumers} :
      Interleaves s.proxy e proxy → (∀ c op p, e ≠ .enqueue c op p) →
      Steps n s (.consumer e) { s with proxy := proxy }

/-- How many requests of a connection have been taken. -/
def requests (c : Nat) (es : List ServingEvent) : Nat :=
  es.countP fun e => e.connection = some c

/-- How many requests go to queue `q`. -/
def load (n q : Nat) (es : List ServingEvent) : Nat := es.countP fun e => e.queue n = some q

/-- How many of them are from one connection. -/
def loadFrom (n q c : Nat) (es : List ServingEvent) : Nat :=
  es.countP fun e => e.connection = some c ∧ e.queue n = some q

/-! ## One connection -/

section Connection

variable {n q c : Nat} {proxy : Consumers} {s s' : ThriftHandlers} {es : List ServingEvent}

theorem requests_snoc (c : Nat) (es : List ServingEvent) (e : ServingEvent) :
    requests c (es ++ [e]) = requests c es + if e.connection = some c then 1 else 0 := by
  simp [requests, List.countP_append, List.countP_singleton]

theorem loadFrom_snoc (n q c : Nat) (es : List ServingEvent) (e : ServingEvent) :
    loadFrom n q c (es ++ [e])
      = loadFrom n q c es + if e.connection = some c ∧ e.queue n = some q then 1 else 0 := by
  simp [loadFrom, List.countP_append, List.countP_singleton]

/-- `operation_count_` changes where a request is taken. -/
theorem Steps.operationCount {e : ServingEvent} (h : Steps n s e s') (c : Nat) :
    s'.operationCount c = s.operationCount c + if e.connection = some c then 1 else 0 := by
  cases h with
  | @call c' r hidle =>
      by_cases hc : c' = c
      · subst hc
        simp [ServingEvent.connection]
      · simp [ServingEvent.connection, hc, Function.update_of_ne (Ne.symm hc)]
  | push _ _ | fail _ _ | finish _ | consumer _ _ => simp [ServingEvent.connection]

/-- `operation_count_` counts the connection's requests. -/
theorem operationCount_of_run (h : Run (Steps n) { proxy := proxy } es s) (c : Nat) :
    s.operationCount c = BitVec.ofNat 32 (requests c es) := by
  refine h.invariant (I := fun es s => s.operationCount c = BitVec.ofNat 32 (requests c es)) rfl ?_
  intro es s e s' _ hcount hs
  rw [requests_snoc, hs.operationCount, hcount, BitVec.ofNat_add]
  congr 1
  split_ifs <;> rfl

/-- `queue_id % operation_queues_.size()`, before `operation_count_` overflows. -/
theorem queueIndex_counter {k : Nat} (hk : k < 2 ^ 31) :
    Consumers.queueIndex n (BitVec.ofNat 32 k : CInt).toInt = k % n := by
  rw [Consumers.queueIndex, toInt_counter.mpr hk]
  have hsize : ((k : Int) % 2 ^ 64).toNat = k := by omega
  rw [hsize]

/-- A request is in the queue of the number of requests before it. -/
def InTurn (c : Nat) (es : List ServingEvent) (s : ThriftHandlers) : Prop :=
  ∀ request, s.underWay c = some request →
    0 < requests c es ∧ request.queueId = (BitVec.ofNat 32 (requests c es - 1) : CInt).toInt

/-- **The step**: the queue id of a request stays with it. -/
theorem InTurn.step {e : ServingEvent} (h : InTurn c es s)
    (hcount : s.operationCount c = BitVec.ofNat 32 (requests c es)) (hs : Steps n s e s') :
    InTurn c (es ++ [e]) s' := by
  -- a step within the request, or one of another connection, or of a consumer
  have hwithin : e.connection ≠ some c →
      (∀ request, s'.underWay c = some request →
        ∃ request', s.underWay c = some request' ∧ request.queueId = request'.queueId) →
      InTurn c (es ++ [e]) s' := by
    intro hother hsame request hrequest
    obtain ⟨request', hrequest', hqueueId⟩ := hsame request hrequest
    rw [requests_snoc, if_neg hother, Nat.add_zero, hqueueId]
    exact h request' hrequest'
  have hgoOn : ∀ (proxy : Consumers) (c' : Nat) (left : Option RequestUnderWay),
      (c' = c → ∀ request ∈ left, ∃ request', s.underWay c = some request' ∧
        request.queueId = request'.queueId) →
      ∀ request, ({ s with proxy := proxy }.goOn c' left).underWay c = some request →
        ∃ request', s.underWay c = some request' ∧ request.queueId = request'.queueId := by
    intro proxy c' left hleft request hrequest
    by_cases hc : c' = c
    · subst hc
      rw [goOn_underWay, Function.update_self] at hrequest
      exact hleft rfl request hrequest
    · rw [goOn_underWay, Function.update_of_ne (Ne.symm hc)] at hrequest
      exact ⟨request, hrequest, rfl⟩
  cases hs with
  | @call c' r hidle =>
      by_cases hc : c' = c
      · subst hc
        intro request hrequest
        rw [call_underWay, Function.update_self] at hrequest
        cases hrequest
        have hone : requests c' (es ++ [.call c' (s.operationCount c').toInt r])
            = requests c' es + 1 := by
          rw [requests_snoc]
          simp [ServingEvent.connection]
        rw [hone, Nat.add_sub_cancel, ← hcount]
        exact ⟨Nat.succ_pos _, rfl⟩
      · refine hwithin (by simpa [ServingEvent.connection] using hc) ?_
        intro request hrequest
        rw [call_underWay, Function.update_of_ne (Ne.symm hc)] at hrequest
        exact ⟨request, hrequest, rfl⟩
  | @push c' queueId f todo p proxy hrequest hmake =>
      refine hwithin (by simp [ServingEvent.connection]) (hgoOn proxy c' _ ?_)
      intro hc left hleft
      cases hleft
      subst hc
      exact ⟨_, hrequest, rfl⟩
  | @fail c' queueId f todo fault proxy hrequest hmake =>
      refine hwithin (by simp [ServingEvent.connection]) (hgoOn proxy c' none ?_)
      intro hc left hleft
      cases hleft
  | @finish c' queueId hrequest =>
      refine hwithin (by simp [ServingEvent.connection]) (hgoOn s.proxy c' none ?_)
      intro hc left hleft
      cases hleft
  | consumer _ _ =>
      exact hwithin (by simp [ServingEvent.connection]) fun request hrequest =>
        ⟨request, hrequest, rfl⟩

theorem inTurn_of_run (h : Run (Steps n) { proxy := proxy } es s) (c : Nat) : InTurn c es s := by
  refine h.invariant (I := fun es s => InTurn c es s) ?_ ?_
  · intro request hrequest
    cases hrequest
  · intro es s e s' hrun hturn hs
    exact hturn.step (operationCount_of_run hrun c) hs

/-- A push queues the operation. -/
theorem Steps.push_proxy {queueId : Int} {op : Operation} (h : Steps n s (.push c queueId op) s') :
    s'.proxy = s.proxy.enqueue (Consumers.queueIndex n queueId) op ∧
      ∃ request, s.underWay c = some request ∧ request.queueId = queueId := by
  cases h with
  | @push _ _ f todo p proxy hrequest hmake =>
      refine ⟨?_, _, hrequest, rfl⟩
      show proxy = _
      rcases f.make_cases n queueId s.proxy with ⟨p', hok⟩ | ⟨e, herror⟩
      · rw [hok] at hmake
        exact (Prod.mk.inj hmake).2.symm
      · rw [herror] at hmake
        cases (Prod.mk.inj hmake).1

/-- **Served in turn**: every push of a connection goes to the queue whose turn
it is, that of the number of requests before the one it belongs to. -/
theorem served_in_turn (h : Run (Steps n) { proxy := proxy } es s)
    (hrequests : requests c es ≤ 2 ^ 31) {queueId : Int} {op : Operation}
    (hs : Steps n s (.push c queueId op) s') :
    0 < requests c es ∧ s'.proxy = s.proxy.enqueue ((requests c es - 1) % n) op := by
  obtain ⟨hproxy, request, hrequest, rfl⟩ := hs.push_proxy
  obtain ⟨hpos, hqueueId⟩ := inTurn_of_run h c request hrequest
  refine ⟨hpos, ?_⟩
  rw [hproxy, hqueueId, queueIndex_counter (by omega)]

/-- After a put, a batch of two puts: its second push, with a request of another
connection in between, goes to the second queue like its first. -/
theorem served_in_turn_putBatch : ∃ es s s',
    Run (Steps 2) { proxy := { proxy := Proxy.blank } } es s ∧
      es = [.call 0 0 (.put ['k'] ['u']), .push 0 0 ⟨['k'], ['u']⟩, .finish 0,
        .call 0 1 (.putBatch [['j'], ['k']] [['v'], ['w']]), .push 0 1 ⟨['j'], ['v']⟩,
        .call 1 0 (.put ['j'] ['x']), .push 1 0 ⟨['j'], ['x']⟩] ∧
      Steps 2 s (.push 0 1 ⟨['k'], ['w']⟩) s' ∧
      s'.proxy = s.proxy.enqueue 1 ⟨['k'], ['w']⟩ := by
  have hrun : Run (Steps 2) { proxy := { proxy := Proxy.blank } }
      [.call 0 0 (.put ['k'] ['u']), .push 0 0 ⟨['k'], ['u']⟩, .finish 0,
        .call 0 1 (.putBatch [['j'], ['k']] [['v'], ['w']]), .push 0 1 ⟨['j'], ['v']⟩,
        .call 1 0 (.put ['j'] ['x']), .push 1 0 ⟨['j'], ['x']⟩] _ :=
    ((((((Run.single (.call rfl)).snoc
      (.push (f := .put ['k'] (some ['u'])) rfl rfl)).snoc (.finish rfl)).snoc
      (.call rfl)).snoc (.push (f := .put ['j'] (some ['v'])) rfl rfl)).snoc (.call rfl)).snoc
      (.push (f := .put ['j'] (some ['x'])) rfl rfl)
  refine ⟨_, _, _, hrun, rfl, .push (f := .put ['k'] (some ['w'])) rfl rfl, ?_⟩
  exact (served_in_turn hrun (by decide) (.push (f := .put ['k'] (some ['w'])) rfl rfl)).2

/-- What one connection puts on a queue. -/
theorem loadFrom_of_run (h : Run (Steps n) { proxy := proxy } es s)
    (hrequests : requests c es ≤ 2 ^ 31) :
    loadFrom n q c es = Nat.count (fun k => k % n = q) (requests c es) := by
  refine h.invariant (I := fun es _ => requests c es ≤ 2 ^ 31 →
    loadFrom n q c es = Nat.count (fun k => k % n = q) (requests c es)) (fun _ => rfl) ?_ hrequests
  intro es s e s' hrun ih hs hrequests
  rw [requests_snoc] at hrequests
  rw [loadFrom_snoc, requests_snoc]
  cases hs with
  | push _ _ | fail _ _ | finish _ | consumer _ _ =>
      simpa [ServingEvent.connection] using ih (by omega)
  | @call c' r hidle =>
      by_cases hc : c' = c
      · subst hc
        simp only [ServingEvent.connection, ServingEvent.queue, if_true, true_and,
          Option.some.injEq] at hrequests ⊢
        rw [operationCount_of_run hrun, queueIndex_counter (by omega), Nat.count_succ,
          ih (by omega)]
      · simpa [ServingEvent.connection, hc] using ih (by omega)

end Connection

/-! ## The consumers below -/

/-- A step is one of the consumers, or an arrival, or does not concern them. -/
theorem Steps.below {n : Nat} {s s' : ThriftHandlers} {e : ServingEvent} (h : Steps n s e s') :
    (e.below n = none ∧ s'.proxy = s.proxy) ∨
    ∃ e', Interleaves s.proxy e' s'.proxy ∧ e.below n = some e'.unpromised := by
  cases h with
  | call _ | finish _ => exact .inl ⟨rfl, rfl⟩
  | @push c queueId f todo p proxy hrequest hmake =>
      have hproxy := (Steps.push hrequest hmake).push_proxy.1
      rw [hproxy]
      exact .inr ⟨_, .enqueue, rfl⟩
  | @fail c queueId f todo fault proxy hrequest hmake =>
      refine .inl ⟨rfl, ?_⟩
      show proxy = s.proxy
      rcases f.make_cases n queueId s.proxy with ⟨p, hok⟩ | ⟨e, herror⟩
      · rw [hok] at hmake
        cases (Prod.mk.inj hmake).1
      · rw [herror] at hmake
        exact (Prod.mk.inj hmake).2.symm
  | @consumer e proxy hstep hown =>
      refine .inr ⟨e, hstep, ?_⟩
      cases e with
      | enqueue c op p => exact absurd rfl (hown c op p)
      | _ => rfl

/-- **Every run** of the handlers and the consumers is one of the consumers, who
take the same steps, with an arrival where a handler pushes. -/
theorem interleaves_of_run {n : Nat} {proxy : Consumers} {s : ThriftHandlers}
    {es : List ServingEvent} (h : Run (Steps n) { proxy := proxy } es s) :
    ∃ es', Run Interleaves proxy es' s.proxy ∧
      es'.map ConsumerEvent.unpromised = es.filterMap fun e => e.below n := by
  refine h.invariant (I := fun es s => ∃ es', Run Interleaves proxy es' s.proxy ∧
    es'.map ConsumerEvent.unpromised = es.filterMap fun e => e.below n) ⟨[], .nil, rfl⟩ ?_
  intro es s e s' _ ih hs
  obtain ⟨es', hrun, hsame⟩ := ih
  rcases hs.below with ⟨hnone, hproxy⟩ | ⟨e', hstep, hsome⟩
  · refine ⟨es', hproxy ▸ hrun, ?_⟩
    simp [hsame, hnone]
  · refine ⟨es' ++ [e'], hrun.snoc hstep, ?_⟩
    simp [hsame, hsome]

open Proxy in
/-- A consumer reads and serves the first put of a batch before the second one
is pushed. -/
theorem interleaves_of_run_putBatch : ∃ st slot x s es',
    solo.init singleKey 1 (1 / 2) firstStrings = .ok st ∧
    Run (Steps 2) { proxy := { proxy := st } }
      [.call 0 0 (.putBatch [['k'], ['k']] [['v'], ['w']]), .push 0 0 putV,
        .consumer (.read 0 [slot]), .consumer (.serve 0 slot x), .push 0 0 ⟨['k'], ['w']⟩] s ∧
    Run Interleaves { proxy := st } es' s.proxy ∧
    es'.map ConsumerEvent.unpromised = [.enqueue 0 putV 0, .read 0 [slot], .serve 0 slot x,
      .enqueue 0 ⟨['k'], ['w']⟩ 0] := by
  have hfresh : solo.Fresh := ⟨rfl, rfl, rfl, rfl⟩
  have henc : ∀ i, ∃ c, solo.encryptionEngine.encrypt (firstStrings i) = .ok c := fun i =>
    (firstStrings_roundTrips i).encrypts
  obtain ⟨st, hinit, -⟩ := init_created singleKey 1 (1 / 2) henc
  obtain ⟨hcons, hengine, hk⟩ := singleKey_consistent hfresh rfl rfl hinit (solo_counts hinit)
  have hv : st.encryptionEngine.RoundTrips putV.value := by
    rw [hengine]
    exact ⟨Evp.padding.encrypt [] [] ['v'], by decide +kernel, by decide +kernel⟩
  have hrunning : Running (Consumers.enqueue { proxy := st } 0 putV) :=
    hcons.toSound.running.enqueue fun _ => hv
  have hlive : 0 < (Consumers.enqueue { proxy := st } 0 putV).proxy.replicas putV.key := by
    show 0 < st.replicas ['k']
    omega
  have hqueue : (Consumers.enqueue { proxy := st } 0 putV).queues 0 = [(putV, 0)] := rfl
  obtain ⟨x, s₂, s₃, hvisit⟩ := hrunning.visit rfl hqueue hlive
  set s₀ : ThriftHandlers := { proxy := { proxy := st } }
  have hcall : Steps 2 s₀ (.call 0 0 (.putBatch [['k'], ['k']] [['v'], ['w']])) _ := .call rfl
  set s₁ : ThriftHandlers :=
    { s₀.call 0 (.putBatch [['k'], ['k']] [['v'], ['w']]) with
      proxy := Consumers.enqueue { proxy := st } 0 putV }.goOn 0
        (some ⟨0, [.put ['k'] (some ['w'])]⟩) with hs₁
  have hpush : Steps 2 _ (.push 0 0 putV) s₁ := .push (f := .put ['k'] (some ['v'])) rfl rfl
  have hread : Steps 2 s₁ (.consumer _) { s₁ with proxy := s₂ } :=
    .consumer hvisit.read (by simp)
  have hserve : Steps 2 { s₁ with proxy := s₂ } (.consumer _) { s₁ with proxy := s₃ } :=
    .consumer hvisit.serve (by simp)
  have hlast : Steps 2 { s₁ with proxy := s₃ } (.push 0 0 ⟨['k'], ['w']⟩) _ :=
    .push (f := .put ['k'] (some ['w'])) rfl rfl
  have hrun := ((((Run.single hcall).snoc hpush).snoc hread).snoc hserve).snoc hlast
  obtain ⟨es', hbelow, hsame⟩ := interleaves_of_run hrun
  exact ⟨st, _, x, _, es', hinit, hrun, hbelow, hsame⟩

/-! ## All connections -/

section Connections

variable {n q q' : Nat} {es : List ServingEvent}

/-- The requests on a queue are those of the connections. -/
theorem load_eq_sum {connections : Nat}
    (hfrom : ∀ e ∈ es, ∀ c, e.connection = some c → c < connections) :
    load n q es = ∑ c ∈ Finset.range connections, loadFrom n q c es := by
  induction es with
  | nil => simp [load, loadFrom]
  | cons e es ih =>
      obtain ⟨he, hes⟩ := List.forall_mem_cons.mp hfrom
      have hone : (if e.queue n = some q then 1 else 0)
          = ∑ c ∈ Finset.range connections,
            if e.connection = some c ∧ e.queue n = some q then 1 else 0 := by
        cases e with
        | push _ _ _ | fail _ _ | finish _ | consumer _ => simp [ServingEvent.queue]
        | call c queueId r =>
            have hc : c < connections := he c rfl
            by_cases hq : Consumers.queueIndex n queueId = q
            · simp [ServingEvent.queue, ServingEvent.connection, hq, hc]
            · simp [ServingEvent.queue, hq]
      have hload : load n q (e :: es) = load n q es + if e.queue n = some q then 1 else 0 := by
        simp [load, List.countP_cons]
      have hloadFrom : ∀ c, loadFrom n q c (e :: es)
          = loadFrom n q c es + if e.connection = some c ∧ e.queue n = some q then 1 else 0 := by
        simp [loadFrom, List.countP_cons]
      simp only [hload, hloadFrom, Finset.sum_add_distrib, hone, ih hes]

/-- How often it is a queue's turn among so many requests. -/
theorem count_turns (hq : q < n) (m : Nat) :
    Nat.count (fun k => k % n = q) m = m / n + if q < m % n then 1 else 0 := by
  have hcount := Nat.count_modEq_card (r := n) m (by omega) q
  simpa only [Nat.ModEq, Nat.mod_eq_of_lt hq] using hcount

/-- How many requests more are on queue `q` than on `q'`, over the runs of so
many connections that `operation_count_` never overflows in. -/
def imbalances (n : Nat) (proxy : Consumers) (connections q q' : Nat) : Set Int :=
  {d | ∃ es s, Run (Steps n) { proxy := proxy } es s ∧
    (∀ e ∈ es, ∀ c, e.connection = some c → c < connections) ∧
    (∀ c < connections, requests c es ≤ 2 ^ 31) ∧ d = load n q es - load n q' es}

/-- No handler is in a request. -/
def Idle (s : ThriftHandlers) : Prop := ∀ c, s.underWay c = none

/-- A put that nobody waits for. -/
def loosePut : ClientRequest := .async (.put ⟨0, 0, 0⟩ [] [])

/-- The put is taken and pushed, and the handler returns. -/
theorem exists_looseRequest (hn : n ≠ 0) {s : ThriftHandlers} (hidle : s.Idle) (c : Nat) :
    ∃ es s', Run (Steps n) s es s' ∧ s'.Idle ∧
      es.map ServingEvent.connection = [some c, none, none] := by
  have hunderWay : (s.call c loosePut).underWay c
      = some ⟨(s.operationCount c).toInt, [.put [] (some [])]⟩ := by
    rw [call_underWay, Function.update_self]
    rfl
  have hcall : Steps n s (.call c (s.operationCount c).toInt loosePut) (s.call c loosePut) :=
    .call (hidle c)
  have hpush := Steps.push (n := n) hunderWay (if_neg hn)
  have hfinish := Steps.finish (n := n) (c := c) (s := ThriftHandlers.goOn
    { s.call c loosePut with
      proxy := (s.call c loosePut).proxy.enqueue
        (Consumers.queueIndex n (s.operationCount c).toInt) ⟨[], []⟩ } c
    (some ⟨(s.operationCount c).toInt, []⟩)) (Function.update_self ..)
  refine ⟨_, _, ((Run.single hcall).snoc hpush).snoc hfinish, ?_, rfl⟩
  intro c'
  by_cases hc : c' = c
  · subst hc
    rw [goOn_underWay, Function.update_self]
  · simp only [goOn_underWay, call_underWay, Function.update_of_ne hc]
    exact hidle c'

/-- A connection can make any number of requests. -/
theorem exists_requests (hn : n ≠ 0) {s : ThriftHandlers} (hidle : s.Idle) (c m : Nat) :
    ∃ es s', Run (Steps n) s es s' ∧ s'.Idle ∧ requests c es = m ∧
      ∀ e ∈ es, ∀ c', e.connection = some c' → c' = c := by
  induction m with
  | zero => exact ⟨[], s, .nil, hidle, rfl, List.forall_mem_nil _⟩
  | succ m ih =>
      obtain ⟨es, t, hrun, hidle', hrequests, hfrom⟩ := ih
      obtain ⟨es', t', hrun', hidle'', hconnections⟩ := exists_looseRequest hn hidle' c
      have hone : requests c es' = 1 := by
        have hcount : requests c es'
            = (es'.map ServingEvent.connection).countP (fun x => x = some c) := by
          rw [List.countP_map]
          rfl
        rw [hcount, hconnections]
        simp
      refine ⟨es ++ es', t', hrun.append hrun', hidle'', ?_, ?_⟩
      · have happend : requests c (es ++ es') = requests c es + requests c es' :=
          List.countP_append
        rw [happend, hrequests, hone]
      · intro e he c' hc'
        rcases List.mem_append.mp he with he | he
        · exact hfrom e he c' hc'
        · have hmem : some c' ∈ es'.map ServingEvent.connection := hc' ▸ List.mem_map_of_mem he
          rw [hconnections] at hmem
          simpa using hmem

/-- So can any number of them. -/
theorem exists_allRequests (hn : n ≠ 0) {s : ThriftHandlers} (hidle : s.Idle)
    (m connections : Nat) : ∃ es s', Run (Steps n) s es s' ∧ s'.Idle ∧
      (∀ c < connections, requests c es = m) ∧
      ∀ e ∈ es, ∀ c, e.connection = some c → c < connections := by
  induction connections with
  | zero =>
      exact ⟨[], s, .nil, hidle, fun _ hc => absurd hc (Nat.not_lt_zero _), List.forall_mem_nil _⟩
  | succ connections ih =>
      obtain ⟨es, t, hrun, hidle', hrequests, hfrom⟩ := ih
      obtain ⟨es', u, hrun', hidle'', hrequests', hfrom'⟩ := exists_requests hn hidle' connections m
      have hnone : requests connections es = 0 := by
        refine List.countP_eq_zero.mpr fun e he hc => ?_
        exact absurd (hfrom e he connections (by simpa using hc)) (lt_irrefl _)
      refine ⟨es ++ es', u, hrun.append hrun', hidle'', ?_, ?_⟩
      · intro c hc
        have happend : requests c (es ++ es') = requests c es + requests c es' :=
          List.countP_append
        rcases Nat.lt_succ_iff_lt_or_eq.mp hc with hc | rfl
        · have hother : requests c es' = 0 := by
            refine List.countP_eq_zero.mpr fun e he hc' => ?_
            exact absurd (hfrom' e he c (by simpa using hc')) hc.ne
          rw [happend, hrequests c hc, hother, Nat.add_zero]
        · rw [happend, hnone, hrequests', Nat.zero_add]
      · intro e he c hc
        rcases List.mem_append.mp he with he | he
        · exact Nat.lt_succ_of_lt (hfrom e he c hc)
        · rw [hfrom' e he c hc]
          exact Nat.lt_succ_self _

section Bounds

variable {proxy : Consumers} {s : ThriftHandlers} {connections : Nat}
  (hrun : Run (Steps n) { proxy := proxy } es s)
  (hfrom : ∀ e ∈ es, ∀ c, e.connection = some c → c < connections)
  (hrequests : ∀ c < connections, requests c es ≤ 2 ^ 31)
include hrun hfrom hrequests

/-- What all connections put on a queue. -/
theorem load_of_run (hq : q < n) : load n q es = ∑ c ∈ Finset.range connections,
    (requests c es / n + if q < requests c es % n then 1 else 0) := by
  rw [load_eq_sum hfrom]
  refine Finset.sum_congr rfl fun c hc => ?_
  rw [loadFrom_of_run hrun (hrequests c (Finset.mem_range.mp hc)), count_turns hq]

theorem load_le_earlier (hq : q < q') (hq' : q' < n) : load n q' es ≤ load n q es := by
  rw [load_of_run hrun hfrom hrequests hq', load_of_run hrun hfrom hrequests (hq.trans hq')]
  refine Finset.sum_le_sum fun c _ => Nat.add_le_add_left ?_ _
  by_cases hturn : q' < requests c es % n
  · rw [if_pos hturn, if_pos (hq.trans hturn)]
  · rw [if_neg hturn]
    exact Nat.zero_le _

theorem load_le_later (hq : q < q') (hq' : q' < n) :
    load n q es ≤ load n q' es + connections := by
  rw [load_of_run hrun hfrom hrequests hq', load_of_run hrun hfrom hrequests (hq.trans hq')]
  calc ∑ c ∈ Finset.range connections, (requests c es / n +
        if q < requests c es % n then 1 else 0)
      ≤ ∑ c ∈ Finset.range connections, (requests c es / n +
        (if q' < requests c es % n then 1 else 0) + 1) := by
        refine Finset.sum_le_sum fun c _ => ?_
        split <;> omega
    _ = _ := by
        rw [Finset.sum_add_distrib]
        simp

end Bounds

/-- `q + 1` requests of every connection: each has one for queue `q`, and none
for a later one. -/
theorem exists_imbalance (proxy : Consumers) (connections : Nat) (hq : q < q') (hq' : q' < n)
    (hn : n ≤ 2 ^ 31) : (connections : Int) ∈ imbalances n proxy connections q q' := by
  have hidle : Idle { proxy := proxy } := fun _ => rfl
  obtain ⟨es, s, hrun, -, hrequests, hfrom⟩ :=
    exists_allRequests (by omega : n ≠ 0) hidle (q + 1) connections
  have hfew : ∀ c < connections, requests c es ≤ 2 ^ 31 := by
    intro c hc
    rw [hrequests c hc]
    omega
  refine ⟨es, s, hrun, hfrom, hfew, ?_⟩
  have hturns : ∀ i < n, load n i es
      = ∑ _c ∈ Finset.range connections, if i < q + 1 then 1 else 0 := by
    intro i hi
    rw [load_of_run hrun hfrom hfew hi]
    refine Finset.sum_congr rfl fun c hc => ?_
    rw [hrequests c (Finset.mem_range.mp hc), Nat.div_eq_of_lt (by omega),
      Nat.mod_eq_of_lt (by omega), Nat.zero_add]
  rw [hturns q (hq.trans hq'), hturns q' hq', if_pos (by omega), if_neg (by omega)]
  simp

/-- **The imbalance**: of two queues the earlier one never has fewer requests,
and at most one more for every connection, which it can have. -/
theorem imbalance_bounds {proxy : Consumers} {connections : Nat} (hq : q < q') (hq' : q' < n)
    (hn : n ≤ 2 ^ 31) : IsLeast (imbalances n proxy connections q q') 0 ∧
      IsGreatest (imbalances n proxy connections q q') connections := by
  refine ⟨⟨?_, ?_⟩, exists_imbalance proxy connections hq hq' hn, ?_⟩
  · exact ⟨[], _, .nil, List.forall_mem_nil _, fun _ _ => Nat.zero_le _, rfl⟩
  · rintro d ⟨es, s, hrun, hfrom, hrequests, rfl⟩
    have hle := load_le_earlier hrun hfrom hrequests hq hq'
    omega
  · rintro d ⟨es, s, hrun, hfrom, hrequests, rfl⟩
    have hle := load_le_later hrun hfrom hrequests hq hq'
    omega

/-- Three connections, two queues: up to three requests more on the first. -/
theorem imbalance_bounds_twoQueues :
    IsLeast (imbalances 2 { proxy := Proxy.blank } 3 0 1) 0 ∧
      IsGreatest (imbalances 2 { proxy := Proxy.blank } 3 0 1) (3 : Nat) :=
  imbalance_bounds (by decide) (by decide) (by decide)

end Connections

end ThriftHandlers

end Pancake
