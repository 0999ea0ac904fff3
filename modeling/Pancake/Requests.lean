import Pancake.AsyncResponses
import Pancake.Interleaving
import Pancake.ReplicaPresence
import Pancake.Steady

/-!
# The entry points

What a client's call does before it waits: `get_future` and `put_future`
queue one operation each, and the batches call them key by key. Only
`get_future` looks at `key_to_frequency_`, the keys the proxy knows.

`n` is `operation_queues_.size()`. The overloads without a queue id draw one
and are these calls at the id drawn. What a call does once its operations are
queued is the rest of its `Action`s.
-/

namespace Pancake

/-- A call of the proxy's interface. -/
inductive ClientRequest where
  | get (key : Str)
  | put (key value : Str)
  | getBatch (keys : List Str)
  | putBatch (keys values : List Str)
  | async (call : AsyncCall)

namespace ClientRequest

/-- The keys the request names, in order. -/
def named : ClientRequest → List Str
  | get key => [key]
  | put key _ => [key]
  | getBatch keys => keys
  | putBatch keys _ => keys
  | async (.get _ key) => [key]
  | async (.put _ key _) => [key]
  | async (.getBatch _ keys) => keys
  | async (.putBatch _ keys _) => keys

/-- The requests that go through `get_future`. -/
def isGet : ClientRequest → Bool
  | get _ => true
  | getBatch _ => true
  | async (.get ..) => true
  | async (.getBatch ..) => true
  | _ => false

end ClientRequest

namespace Consumers

/-! ## `get_future` and `put_future` -/

/-- `queue_id % operation_queues_.size()`, the `int` converted to `size_t`. -/
def queueIndex (n : Nat) (queueId : Int) : Nat := (queueId % 2 ^ 64).toNat % n

/-- `operation_queues_[...]->push(std::make_pair(operat, prom))` -/
def push (n : Nat) (queueId : Int) (s : Consumers) (op : Operation) :
    Except Fault Promise × Consumers :=
  if n = 0 then (.error .divisionByZero, s)
  else (.ok s.enqueued, s.enqueue (queueIndex n queueId) op)

/-- `get_future` -/
def getFuture (n : Nat) (queueId : Int) (s : Consumers) (key : Str) :
    Except Fault Promise × Consumers :=
  if key ∉ s.proxy.keyToFrequency then (.error .keyDoesNotExist, s)
  else s.push n queueId ⟨key, []⟩

/-- `put_future` -/
def putFuture (n : Nat) (queueId : Int) (s : Consumers) (key value : Str) :
    Except Fault Promise × Consumers :=
  s.push n queueId ⟨key, value⟩

/-- The loop of `get_batch` over the keys: the waiters. -/
def getFutures (n : Nat) (queueId : Int) : Consumers → List Str →
    Except Fault (List Promise) × Consumers
  | s, [] => (.ok [], s)
  | s, key :: keys =>
      match s.getFuture n queueId key with
      | (.error e, s) => (.error e, s)
      | (.ok p, s) =>
          let (waiters, s) := getFutures n queueId s keys
          (waiters.map (p :: ·), s)

/-- The loop of `put_batch` over the keys, which reads `values[i]`. -/
def putFutures (n : Nat) (queueId : Int) : Consumers → List Str → List Str →
    Except Fault (List Promise) × Consumers
  | s, [], _ => (.ok [], s)
  | s, _ :: _, [] => (.error .indexOutOfBounds, s)
  | s, key :: keys, value :: values =>
      match s.putFuture n queueId key value with
      | (.error e, s) => (.error e, s)
      | (.ok p, s) =>
          let (waiters, s) := putFutures n queueId s keys values
          (waiters.map (p :: ·), s)

/-! ## The calls -/

/-- How a call goes on once its operations are queued: its waiters, and the
actions left. -/
abbrev Queueing := Except Fault (List Promise × List Action) × Consumers

/-- Queueing one operation, then `actions`. -/
def thenOne (r : Except Fault Promise × Consumers) (actions : List Action) : Queueing :=
  (r.1.map fun p => ([p], actions), r.2)

/-- Queueing a batch, then `actions`. -/
def thenAll (r : Except Fault (List Promise) × Consumers) (actions : List Action) : Queueing :=
  (r.1.map fun waiters => (waiters, actions), r.2)

section Calls

variable (n : Nat) (queueId : Int) (s : Consumers)

/-- `get` -/
def get (key : Str) : Queueing := thenOne (s.getFuture n queueId key) [.awaitAll]

/-- `async_get` -/
def asyncGet (seqId : SequenceId) (key : Str) : Queueing :=
  thenOne (s.getFuture n queueId key) [.respond (.get seqId key) .get]

/-- `put` -/
def put (key value : Str) : Queueing := thenOne (s.putFuture n queueId key value) [.awaitAll]

/-- `async_put` -/
def asyncPut (seqId : SequenceId) (key value : Str) : Queueing :=
  thenOne (s.putFuture n queueId key value) [.respond (.put seqId key value) .get]

/-- `get_batch` -/
def getBatch (keys : List Str) : Queueing := thenAll (s.getFutures n queueId keys) [.awaitAll]

/-- `async_get_batch` -/
def asyncGetBatch (seqId : SequenceId) (keys : List Str) : Queueing :=
  thenAll (s.getFutures n queueId keys)
    [.respond (.getBatch seqId keys) .getBatch, .sequence seqId]

/-- `put_batch` -/
def putBatch (keys values : List Str) : Queueing :=
  thenAll (s.putFutures n queueId keys values) [.awaitAll]

/-- `async_put_batch` -/
def asyncPutBatch (seqId : SequenceId) (keys values : List Str) : Queueing :=
  thenAll (s.putFutures n queueId keys values)
    [.awaitAll, .respond (.putBatch seqId keys values) .putBatch]

/-- The entry point of a request. -/
def request : ClientRequest → Queueing
  | .get key => s.get n queueId key
  | .put key value => s.put n queueId key value
  | .getBatch keys => s.getBatch n queueId keys
  | .putBatch keys values => s.putBatch n queueId keys values
  | .async (.get seqId key) => s.asyncGet n queueId seqId key
  | .async (.put seqId key value) => s.asyncPut n queueId seqId key value
  | .async (.getBatch seqId keys) => s.asyncGetBatch n queueId seqId keys
  | .async (.putBatch seqId keys values) => s.asyncPutBatch n queueId seqId keys values

/-! ## Rejection -/

/-- A request that names an unknown key throws, and queues nothing. -/
def RejectsUnknown (r : ClientRequest) : Prop :=
  (∃ key ∈ r.named, key ∉ s.proxy.keyToFrequency) →
    (s.request n queueId r).1 = .error .keyDoesNotExist ∧
    (s.request n queueId r).2.queues = s.queues

/-- The request names known keys only, or is a get whose first key is
unknown. -/
def Foreseen (r : ClientRequest) : Prop :=
  (∀ key ∈ r.named, key ∈ s.proxy.keyToFrequency) ∨
    (r.isGet ∧ ∃ key ∈ r.named.head?, key ∉ s.proxy.keyToFrequency)

end Calls

/-- Every key the entry points accept has a replica, and every operation
queued is for such a key. -/
structure QueuesKnown (s : Consumers) : Prop where
  known : ∀ key ∈ s.proxy.keyToFrequency, 0 < s.proxy.replicas key
  queued : ∀ c, ∀ x ∈ s.queues c, x.1.key ∈ s.proxy.keyToFrequency

/-- A step of the service: a client's call, or a step of a consumer. -/
inductive ServiceEvent where
  | request (queueId : Int) (r : ClientRequest)
  | consumer (e : ConsumerEvent)

/-- The steps, the requests being `Foreseen` ones. Operations are queued by
requests only. -/
inductive Serves (n : Nat) (s : Consumers) : ServiceEvent → Consumers → Prop
  | request {queueId : Int} {r : ClientRequest} :
      s.Foreseen r → Serves n s (.request queueId r) (s.request n queueId r).2
  | consumer {e : ConsumerEvent} {s' : Consumers} :
      Interleaves s e s' → (∀ c op p, e ≠ .enqueue c op p) → Serves n s (.consumer e) s'

/-! ## What the loops queue -/

/-- Operations queued one after another. -/
def enqueueAll (s : Consumers) (c : Nat) (ops : List Operation) : Consumers :=
  ops.foldl (fun s op => s.enqueue c op) s

section Enqueue

variable {n : Nat} {queueId : Int} {s : Consumers} {c : Nat}

theorem enqueueAll_cons (op : Operation) (ops : List Operation) :
    s.enqueueAll c (op :: ops) = (s.enqueue c op).enqueueAll c ops := rfl

@[simp] theorem enqueueAll_proxy (ops : List Operation) :
    (s.enqueueAll c ops).proxy = s.proxy := by
  induction ops generalizing s with
  | nil => rfl
  | cons op ops ih =>
      rw [enqueueAll_cons, ih]
      rfl

theorem length_enqueueAll (ops : List Operation) :
    ((s.enqueueAll c ops).queues c).length = (s.queues c).length + ops.length := by
  induction ops generalizing s with
  | nil => rfl
  | cons op ops ih =>
      have hone : ((s.enqueue c op).queues c).length = (s.queues c).length + 1 := by
        simp [enqueue]
      rw [enqueueAll_cons, ih, hone, List.length_cons]
      omega

/-- What is queued was queued before, or is one of the operations. -/
theorem mem_enqueueAll {ops : List Operation} {c' : Nat} {x : Operation × Promise}
    (h : x ∈ (s.enqueueAll c ops).queues c') : x ∈ s.queues c' ∨ x.1 ∈ ops := by
  induction ops generalizing s with
  | nil => exact .inl h
  | cons op ops ih =>
      rcases ih h with hold | hnew
      · by_cases hc : c' = c
        · subst hc
          simp only [enqueue, Function.update_self, List.mem_append, List.mem_singleton] at hold
          rcases hold with hold | rfl
          · exact .inl hold
          · exact .inr (by simp)
        · simp only [enqueue, Function.update_of_ne hc] at hold
          exact .inl hold
      · exact .inr (List.mem_cons_of_mem _ hnew)

/-- Nothing is queued only if there was nothing to queue. -/
theorem queues_enqueueAll_eq {ops : List Operation} :
    (s.enqueueAll c ops).queues = s.queues ↔ ops = [] := by
  constructor
  · intro h
    have hlen := length_enqueueAll (s := s) (c := c) ops
    rw [h] at hlen
    exact List.eq_nil_of_length_eq_zero (by omega)
  · intro h
    rw [h]
    rfl

/-- Gets of the keys. -/
def gets (keys : List Str) : List Operation := keys.map fun key => ⟨key, []⟩

/-- Puts of the values. -/
def puts (keys values : List Str) : List Operation :=
  (keys.zip values).map fun pair => ⟨pair.1, pair.2⟩

theorem push_of_pos (hn : n ≠ 0) (op : Operation) :
    s.push n queueId op = (.ok s.enqueued, s.enqueue (queueIndex n queueId) op) := if_neg hn

/-- **The loop of gets** queues them up to the first unknown key. -/
theorem getFutures_spec (hn : n ≠ 0) (keys : List Str) : s.getFutures n queueId keys
    = (if ∀ key ∈ keys, key ∈ s.proxy.keyToFrequency then
        .ok (List.range' s.enqueued keys.length) else .error .keyDoesNotExist,
      s.enqueueAll (queueIndex n queueId)
        (gets (keys.takeWhile (· ∈ s.proxy.keyToFrequency)))) := by
  induction keys generalizing s with
  | nil => simp [getFutures, gets, enqueueAll]
  | cons key keys ih =>
      rw [getFutures, getFuture]
      by_cases hk : key ∈ s.proxy.keyToFrequency
      · rw [if_neg (not_not.mpr hk), push_of_pos hn, List.takeWhile_cons_of_pos (by simpa using hk)]
        dsimp only
        rw [ih]
        simp only [List.forall_mem_cons, hk, true_and]
        show (Except.map _ (if ∀ k ∈ keys, k ∈ s.proxy.keyToFrequency then _ else _), _) = _
        by_cases hall : ∀ k ∈ keys, k ∈ s.proxy.keyToFrequency
        · rw [if_pos hall, if_pos hall]
          rfl
        · rw [if_neg hall, if_neg hall]
          rfl
      · rw [if_pos hk, List.takeWhile_cons_of_neg (by simpa using hk), if_neg (by simp [hk])]
        rfl

/-- **The loop of puts** queues one for every key that has a value. -/
theorem putFutures_spec (hn : n ≠ 0) (keys values : List Str) :
    s.putFutures n queueId keys values
      = (if keys.length ≤ values.length then
          .ok (List.range' s.enqueued keys.length) else .error .indexOutOfBounds,
        s.enqueueAll (queueIndex n queueId) (puts keys values)) := by
  induction keys generalizing s values with
  | nil => simp [putFutures, puts, enqueueAll]
  | cons key keys ih =>
      cases values with
      | nil => simp [putFutures, puts, enqueueAll]
      | cons value values =>
          rw [putFutures, putFuture, push_of_pos hn]
          dsimp only
          rw [ih, List.length_cons, List.length_cons]
          by_cases hlen : keys.length ≤ values.length
          · rw [if_pos hlen, if_pos (by omega)]
            rfl
          · rw [if_neg hlen, if_neg (by omega)]
            rfl

/-- Without queues, the first get fails where it would be queued. -/
theorem getFutures_zero (key : Str) (keys : List Str) : s.getFutures 0 queueId (key :: keys)
    = (.error (if key ∈ s.proxy.keyToFrequency then .divisionByZero else .keyDoesNotExist), s) := by
  rw [getFutures, getFuture]
  by_cases hk : key ∈ s.proxy.keyToFrequency
  · rw [if_neg (not_not.mpr hk), if_pos hk]
    rfl
  · rw [if_pos hk, if_neg hk]

/-- So does the first put. -/
theorem putFutures_zero (key : Str) (keys values : List Str) :
    s.putFutures 0 queueId (key :: keys) values
      = (.error (if values = [] then .indexOutOfBounds else .divisionByZero), s) := by
  cases values with
  | nil => rfl
  | cons value values => rfl

end Enqueue

/-! ## Requests -/

section Requests

variable {n : Nat} {queueId : Int} {s s' : Consumers} {r : ClientRequest}

@[simp] theorem thenAll_eq_error {x : Except Fault (List Promise) × Consumers}
    {actions : List Action} {e : Fault} : (thenAll x actions).1 = .error e ↔ x.1 = .error e := by
  obtain ⟨outcome, s⟩ := x
  cases outcome with
  | error e' => simp [thenAll, Except.map]
  | ok waiters => simp [thenAll, Except.map]

/-- A get is a batch of one. -/
theorem thenOne_getFuture (key : Str) (actions : List Action) :
    thenOne (s.getFuture n queueId key) actions
      = thenAll (s.getFutures n queueId [key]) actions := by
  rw [getFutures]
  generalize s.getFuture n queueId key = x
  obtain ⟨outcome, s₁⟩ := x
  cases outcome with
  | error e => rfl
  | ok p => rfl

/-- A put is a batch of one. -/
theorem thenOne_putFuture (key value : Str) (actions : List Action) :
    thenOne (s.putFuture n queueId key value) actions
      = thenAll (s.putFutures n queueId [key] [value]) actions := by
  rw [putFutures]
  generalize s.putFuture n queueId key value = x
  obtain ⟨outcome, s₁⟩ := x
  cases outcome with
  | error e => rfl
  | ok p => rfl

/-- Eight entry points, two loops. -/
theorem request_cases (n : Nat) (queueId : Int) (s : Consumers) (r : ClientRequest) :
    (r.isGet = true ∧ ∃ actions,
      s.request n queueId r = thenAll (s.getFutures n queueId r.named) actions) ∨
    (r.isGet = false ∧ ∃ values actions,
      s.request n queueId r = thenAll (s.putFutures n queueId r.named values) actions) := by
  cases r with
  | get key => exact .inl ⟨rfl, _, thenOne_getFuture key _⟩
  | put key value => exact .inr ⟨rfl, [value], _, thenOne_putFuture key value _⟩
  | getBatch keys => exact .inl ⟨rfl, _, rfl⟩
  | putBatch keys values => exact .inr ⟨rfl, values, _, rfl⟩
  | async call =>
      cases call with
      | get seqId key => exact .inl ⟨rfl, _, thenOne_getFuture key _⟩
      | put seqId key value => exact .inr ⟨rfl, [value], _, thenOne_putFuture key value _⟩
      | getBatch seqId keys => exact .inl ⟨rfl, _, rfl⟩
      | putBatch seqId keys values => exact .inr ⟨rfl, values, _, rfl⟩

/-- A put never throws for its key. -/
theorem putFutures_ne (keys values : List Str) :
    (s.putFutures n queueId keys values).1 ≠ .error .keyDoesNotExist := by
  by_cases hn : n = 0
  · subst hn
    cases keys with
    | nil => simp [putFutures]
    | cons key keys =>
        rw [putFutures_zero]
        split <;> simp
  · rw [putFutures_spec hn]
    dsimp only
    split <;> simp

/-- A get with an unknown key throws and queues nothing exactly when the
first key is unknown. -/
theorem getFutures_rejects_iff (n : Nat) (queueId : Int) (key : Str) (keys : List Str)
    (h : ∃ k ∈ key :: keys, k ∉ s.proxy.keyToFrequency) :
    ((s.getFutures n queueId (key :: keys)).1 = .error .keyDoesNotExist ∧
      (s.getFutures n queueId (key :: keys)).2.queues = s.queues) ↔
      key ∉ s.proxy.keyToFrequency := by
  by_cases hn : n = 0
  · subst hn
    rw [getFutures_zero]
    by_cases hk : key ∈ s.proxy.keyToFrequency
    · simp [hk]
    · simp [hk]
  · have hunknown : ¬ ∀ k ∈ key :: keys, k ∈ s.proxy.keyToFrequency := by
      intro hall
      obtain ⟨k, hk, hnot⟩ := h
      exact hnot (hall k hk)
    rw [getFutures_spec hn, if_neg hunknown]
    dsimp only
    rw [queues_enqueueAll_eq, gets, List.map_eq_nil_iff]
    by_cases hk : key ∈ s.proxy.keyToFrequency
    · rw [List.takeWhile_cons_of_pos (by simpa using hk)]
      simp [hk]
    · rw [List.takeWhile_cons_of_neg (by simpa using hk)]
      simp [hk]

/-- **One request**, in any state. -/
theorem rejectsUnknown_iff_foreseen : s.RejectsUnknown n queueId r ↔ s.Foreseen r := by
  by_cases hall : ∀ key ∈ r.named, key ∈ s.proxy.keyToFrequency
  · constructor
    · intro _
      exact .inl hall
    · intro _ h
      obtain ⟨key, hkey, hnot⟩ := h
      exact absurd (hall key hkey) hnot
  · have hex : ∃ key ∈ r.named, key ∉ s.proxy.keyToFrequency := by
      simpa using hall
    rw [RejectsUnknown, Foreseen, or_iff_right hall]
    rcases request_cases n queueId s r with ⟨hget, actions, hr⟩ | ⟨hget, values, actions, hr⟩
    · obtain ⟨key, keys, hnamed⟩ := List.exists_cons_of_ne_nil (l := r.named) (by
        obtain ⟨key, hkey, -⟩ := hex
        exact List.ne_nil_of_mem hkey)
      rw [hr, hget, thenAll_eq_error, hnamed]
      rw [hnamed] at hex
      have hiff := getFutures_rejects_iff n queueId key keys hex
      constructor
      · intro h
        exact ⟨rfl, key, rfl, hiff.mp (h hex)⟩
      · intro h _
        obtain ⟨-, key', hhead, hnot⟩ := h
        cases hhead
        exact hiff.mpr hnot
    · rw [hr, hget, thenAll_eq_error]
      constructor
      · intro h
        exact absurd (h hex).1 (putFutures_ne _ _)
      · intro h
        exact absurd h.1 Bool.false_ne_true

/-- A call goes on as it was told to. -/
theorem actions_of_thenAll {x : Except Fault (List Promise) × Consumers}
    {actions actions' : List Action} {waiters : List Promise}
    (h : (thenAll x actions).1 = .ok (waiters, actions')) : actions' = actions := by
  obtain ⟨outcome, s₁⟩ := x
  cases outcome with
  | error e => cases h
  | ok waiters' =>
      cases h
      rfl

/-- The asynchronous calls queue what their programs submit, and go on as
these do. -/
theorem request_async (hn : n ≠ 0) (call : AsyncCall) : ∃ ops ending,
    call.program s.proxy.keyToFrequency = .enter :: (ops.map .submit ++ ending) ∧
    (s.request n queueId (.async call)).2 = s.enqueueAll (queueIndex n queueId) ops ∧
    ∀ waiters actions, (s.request n queueId (.async call)).1 = .ok (waiters, actions) →
      actions = ending := by
  cases call with
  | get seqId key =>
      have hrequest : s.request n queueId (.async (.get seqId key))
          = thenAll (s.getFutures n queueId [key]) [.respond (.get seqId key) .get] :=
        thenOne_getFuture key _
      rw [hrequest, getFutures_spec hn]
      by_cases hk : key ∈ s.proxy.keyToFrequency
      · refine ⟨gets [key], [.respond (.get seqId key) .get], ?_, ?_, ?_⟩
        · simp [AsyncCall.program, gets, hk]
        · simp [thenAll, hk]
        · intro waiters actions h
          exact actions_of_thenAll h
      · refine ⟨[], [], ?_, ?_, ?_⟩
        · simp [AsyncCall.program, hk]
        · simp [thenAll, gets, hk]
        · intro waiters actions h
          rw [if_neg (by simpa using hk)] at h
          cases h
  | put seqId key value =>
      have hrequest : s.request n queueId (.async (.put seqId key value))
          = thenAll (s.putFutures n queueId [key] [value]) [.respond (.put seqId key value) .get] :=
        thenOne_putFuture key value _
      rw [hrequest, putFutures_spec hn]
      refine ⟨puts [key] [value], [.respond (.put seqId key value) .get], rfl, rfl, ?_⟩
      intro waiters actions h
      exact actions_of_thenAll h
  | getBatch seqId keys =>
      refine ⟨gets (keys.takeWhile (· ∈ s.proxy.keyToFrequency)),
        if ∀ key ∈ keys, key ∈ s.proxy.keyToFrequency then
          [.respond (.getBatch seqId keys) .getBatch, .sequence seqId] else [], ?_, ?_, ?_⟩
      · rw [AsyncCall.program, gets, List.map_map]
        rfl
      · rw [request, asyncGetBatch, getFutures_spec hn]
        rfl
      · intro waiters actions h
        rw [request, asyncGetBatch, getFutures_spec hn] at h
        by_cases hall : ∀ key ∈ keys, key ∈ s.proxy.keyToFrequency
        · rw [if_pos hall]
          exact actions_of_thenAll h
        · rw [if_neg hall] at h
          cases h
  | putBatch seqId keys values =>
      refine ⟨puts keys values, if keys.length ≤ values.length then
        [.awaitAll, .respond (.putBatch seqId keys values) .putBatch] else [.fault], ?_, ?_, ?_⟩
      · rw [AsyncCall.program, puts, List.map_map]
        rfl
      · rw [request, asyncPutBatch, putFutures_spec hn]
        rfl
      · intro waiters actions h
        rw [request, asyncPutBatch, putFutures_spec hn] at h
        by_cases hlen : keys.length ≤ values.length
        · rw [if_pos hlen]
          exact actions_of_thenAll h
        · rw [if_neg hlen] at h
          cases h

/-! ## What is queued -/

/-- **A call** keeps known what is queued. -/
theorem QueuesKnown.request (h : s.QueuesKnown) (hr : s.Foreseen r) :
    (s.request n queueId r).2.QueuesKnown := by
  have hqueue : ∀ ops : List Operation, (∀ op ∈ ops, op.key ∈ s.proxy.keyToFrequency) →
      (s.enqueueAll (queueIndex n queueId) ops).QueuesKnown := by
    intro ops hops
    refine ⟨?_, ?_⟩
    · rw [enqueueAll_proxy]
      exact h.known
    · intro c x hx
      rw [enqueueAll_proxy]
      rcases mem_enqueueAll hx with hold | hnew
      · exact h.queued c x hold
      · exact hops _ hnew
  by_cases hn : n = 0
  · subst hn
    rcases request_cases 0 queueId s r with ⟨-, actions, hreq⟩ | ⟨-, values, actions, hreq⟩
    · rw [hreq]
      cases r.named with
      | nil => exact h
      | cons key keys =>
          rw [getFutures_zero]
          exact h
    · rw [hreq]
      cases r.named with
      | nil => exact h
      | cons key keys =>
          rw [putFutures_zero]
          exact h
  · rcases request_cases n queueId s r with ⟨-, actions, hreq⟩ | ⟨hput, values, actions, hreq⟩
    · rw [hreq, getFutures_spec hn]
      apply hqueue
      intro op hop
      obtain ⟨key, hkey, rfl⟩ := List.mem_map.mp hop
      simpa using List.mem_takeWhile_imp hkey
    · rw [hreq, putFutures_spec hn]
      apply hqueue
      intro op hop
      obtain ⟨pair, hpair, rfl⟩ := List.mem_map.mp hop
      rcases hr with hall | hget
      · exact hall _ (List.of_mem_zip hpair).1
      · rw [hput] at hget
        exact absurd hget.1 Bool.false_ne_true

/-- Looking up live replicas makes no key known that has no replica. -/
theorem known_resolve {st : Proxy} {ops : List Operation} {ids : List Nat}
    (hids : List.Forall₂ (fun op id => id < st.replicas op.key) ops ids)
    (h : ∀ key ∈ st.keyToFrequency, 0 < st.replicas key) :
    (∀ key ∈ (st.resolve ops ids).1.keyToFrequency, 0 < st.replicas key) ∧
      ∀ key ∈ st.keyToFrequency, key ∈ (st.resolve ops ids).1.keyToFrequency := by
  induction ops generalizing st ids with
  | nil => exact ⟨h, fun _ hkey => hkey⟩
  | cons op ops ih =>
      cases hids with
      | cons hid hids =>
          rename_i id ids
          have hsame := (Proxy.frame_lookUp st op.key id).replicas
          obtain ⟨hknown, hkept⟩ := @ih (st.lookUp op.key id) ids (by rwa [hsame]) (by
            rw [hsame]
            intro key hkey
            rcases UnorderedMap.mem_touch.mp hkey with rfl | hkey
            · omega
            · exact h key hkey)
          rw [hsame] at hknown
          refine ⟨hknown, ?_⟩
          intro key hkey
          exact hkept key (UnorderedMap.mem_touch.mpr (.inr hkey))

/-- **A consumer's step** keeps known what is queued. -/
theorem QueuesKnown.consumer (h : s.QueuesKnown) {e : ConsumerEvent} (hs : Interleaves s e s')
    (hne : ∀ c op p, e ≠ .enqueue c op p) : s'.QueuesKnown := by
  cases hs with
  | enqueue => exact absurd rfl (hne _ _ _)
  | read hidle hqueue hfake hdrawn hresolve hget =>
      rename_i c slots rest st ciphers server
      obtain ⟨hknown, hkept⟩ := known_resolve (Proxy.live_of_chooseReplicas hdrawn) h.known
      have hframe := (Proxy.frame_resolve (slots.map BatchSlot.operation) s.proxy
        (slots.map BatchSlot.replicaId)).1
      rw [hresolve] at hknown hkept hframe
      refine ⟨?_, ?_⟩
      · intro key hkey
        show 0 < st.replicas key
        rw [hframe.replicas]
        exact hknown key hkey
      · intro c' x hx
        change x ∈ Function.update s.queues c rest c' at hx
        apply hkept
        by_cases hc : c' = c
        · subst hc
          rw [Function.update_self] at hx
          apply h.queued c'
          rw [hqueue]
          exact List.mem_append_right _ hx
        · rw [Function.update_of_ne hc] at hx
          exact h.queued c' x hx
  | serve hflight htodo hserve hout =>
      rename_i c f slot cipher value out rest st
      have htables := (Proxy.frame_serve hserve).1
      have hfrequency : st.keyToFrequency = s.proxy.keyToFrequency := by rw [htables]
      refine ⟨?_, ?_⟩
      · intro key hkey
        show 0 < st.replicas key
        rw [htables.frame.replicas]
        exact h.known key (hfrequency ▸ hkey)
      · intro c' x hx
        show x.1.key ∈ st.keyToFrequency
        rw [hfrequency]
        exact h.queued c' x hx
  | write hflight htodo => exact ⟨h.known, h.queued⟩

/-- **The run.** -/
theorem QueuesKnown.run (h : s.QueuesKnown) {events : List ServiceEvent}
    (hr : Run (Serves n) s events s') : s'.QueuesKnown := by
  refine hr.invariant (I := fun _ s' => s'.QueuesKnown) h ?_
  intro _ t e u _ ht hstep
  cases hstep with
  | request hforeseen => exact ht.request hforeseen
  | consumer hs hne => exact ht.consumer hs hne

end Requests

end Consumers

namespace Proxy

/-- The keys of a distribution are those of its items. -/
theorem mem_frequencies {items : List (Str × ℚ)} {m : UnorderedMap Int} {key : Str}
    (h : key ∈ items.foldl (fun m item => m.insert item.1 (truncate item.2)) m) :
    key ∈ m ∨ key ∈ items.map Prod.fst := by
  induction items generalizing m with
  | nil => exact .inl h
  | cons item items ih =>
      rw [List.map_cons, List.mem_cons]
      rcases ih h with hm | hrest
      · rw [Finmap.mem_insert] at hm
        rcases hm with rfl | hm
        · exact .inr (.inl rfl)
        · exact .inl hm
      · exact .inr (.inr hrest)

/-- **Initially**, the keys known are those of the distribution. -/
theorem Created.queuesKnown {st st' : Proxy} {values : Nat → Str} {delta : ℚ}
    (h : Created st values st') (hfresh : st.Fresh) (hfrequency : st.keyToFrequency = ∅)
    (ha : CallerArguments st.realDistribution st.alpha delta) :
    Consumers.QueuesKnown { proxy := st' } where
  known key hkey := by
    change key ∈ st'.keyToFrequency at hkey
    rw [h.frequencies, hfrequency] at hkey
    apply h.replicas_pos hfresh ha
    rcases mem_frequencies hkey with hc | hkey
    · exact absurd hc (Finmap.notMem_empty)
    · rw [pairs_map_fst ha.lengths] at hkey
      exact List.mem_append_left _ hkey
  queued c x hx := by cases hx

end Proxy

namespace Consumers

/-- **Unknown keys are rejected** in any state exactly when the request is a
foreseen one; and as long as only such requests are made, every operation a
consumer finds queued is for a key that has a replica. -/
theorem rejectsUnknown_iff (n : Nat) :
    (∀ s queueId r, RejectsUnknown n queueId s r ↔ s.Foreseen r) ∧
    ∀ {st₀ st : Proxy} {dist : Distribution} {alpha delta : ℚ} {values : Nat → Str},
      st₀.Fresh → st₀.keyToFrequency = ∅ → CallerArguments dist alpha delta →
      st₀.init dist alpha delta values = .ok st →
      ∀ events s, Run (Serves n) { proxy := st } events s →
        ∀ c, ∀ x ∈ s.queues c, 0 < s.proxy.replicas x.1.key := by
  constructor
  · intro s queueId r
    exact rejectsUnknown_iff_foreseen
  · intro st₀ st dist alpha delta values hfresh hfrequency ha hinit events s hr c x hx
    obtain ⟨values', hcreated⟩ := Proxy.exists_created_of_init ha.lengths ha.keys_pos hinit
    have hstart := hcreated.queuesKnown (hfresh.takeArguments dist alpha delta) hfrequency ha
    have hknown := hstart.run hr
    exact hknown.known _ (hknown.queued c x hx)

/-- A proxy of one key, `k`. -/
theorem exists_oneKey : ∃ st, Proxy.blank.init Proxy.singleKey 1 (1 / 2) Proxy.firstStrings = .ok st ∧
    st.keyToFrequency = (∅ : UnorderedMap Int).insert ['k'] 1 ∧ st.replicas ['u'] = 0 ∧
    st.missingNewReplicas = ∅ :=
  exists_ok_of_decide (by decide +kernel)

/-- A put of the key, and a get batch that starts with an unknown one. -/
theorem rejectsUnknown_iff_oneKey : ∃ st s,
    Proxy.blank.init Proxy.singleKey 1 (1 / 2) Proxy.firstStrings = .ok st ∧
    Run (Serves 2) { proxy := st } [.request 0 (.put ['k'] ['v']),
      .request 1 (.getBatch [['u'], ['k']])] s ∧
    RejectsUnknown 2 1 { proxy := st } (.getBatch [['u'], ['k']]) ∧
    ∀ c, ∀ x ∈ s.queues c, 0 < s.proxy.replicas x.1.key := by
  obtain ⟨st, hinit, hkeys, -, -⟩ := exists_oneKey
  have hput : ({ proxy := st } : Consumers).Foreseen (.put ['k'] ['v']) := by
    left
    intro key hkey
    obtain rfl := List.mem_singleton.mp hkey
    show ['k'] ∈ st.keyToFrequency
    rw [hkeys, Finmap.mem_insert]
    exact .inl rfl
  have hget : (({ proxy := st } : Consumers).request 2 0 (.put ['k'] ['v'])).2.Foreseen
      (.getBatch [['u'], ['k']]) := by
    right
    refine ⟨rfl, ['u'], rfl, ?_⟩
    show ['u'] ∉ st.keyToFrequency
    rw [hkeys]
    decide
  obtain ⟨hone, hrun⟩ := rejectsUnknown_iff 2
  have hr := (Run.single (@Serves.request 2 _ 0 _ hput)).snoc
    (@Serves.request 2 _ 1 _ hget)
  refine ⟨st, _, hinit, hr, ?_, ?_⟩
  · refine (hone _ _ _).mpr (.inr ⟨rfl, ['u'], rfl, ?_⟩)
    show ['u'] ∉ st.keyToFrequency
    rw [hkeys]
    decide
  · exact hrun ⟨rfl, rfl, rfl, rfl⟩ rfl Proxy.singleKey_arguments_one hinit _ _ hr

/-- **The failing requests**: a put for an unknown key is queued, and the
consumer that takes it divides by zero; a get batch throws after it has
queued the keys before the unknown one. -/
theorem unknown_queued : ∃ st,
    Proxy.blank.init Proxy.singleKey 1 (1 / 2) Proxy.firstStrings = .ok st ∧
    ['u'] ∉ st.keyToFrequency ∧
    (({ proxy := st } : Consumers).request 1 0 (.put ['u'] ['v'])).1 = .ok ([0], [.awaitAll]) ∧
    (({ proxy := st } : Consumers).request 1 0 (.put ['u'] ['v'])).2.queues 0
      = [(⟨['u'], ['v']⟩, 0)] ∧
    (∀ r, (st.chooseReplicas [⟨['u'], ['v']⟩] [true]).Possible r → r = .error .divisionByZero) ∧
    (({ proxy := st } : Consumers).request 1 0 (.getBatch [['k'], ['u']])).1
      = .error .keyDoesNotExist ∧
    (({ proxy := st } : Consumers).request 1 0 (.getBatch [['k'], ['u']])).2.queues 0
      = [(⟨['k'], []⟩, 0)] ∧
    ¬ RejectsUnknown 1 0 { proxy := st } (.put ['u'] ['v']) ∧
    ¬ RejectsUnknown 1 0 { proxy := st } (.getBatch [['k'], ['u']]) := by
  obtain ⟨st, hinit, hkeys, hreplicas, hmissing⟩ := exists_oneKey
  have hk : ['k'] ∈ st.keyToFrequency := by
    rw [hkeys, Finmap.mem_insert]
    exact .inl rfl
  have hu : ['u'] ∉ st.keyToFrequency := by
    rw [hkeys]
    decide
  refine ⟨st, hinit, hu, rfl, rfl, ?_, ?_, ?_, ?_, ?_⟩
  · intro r hr
    rw [Proxy.chooseReplicas, UpdateCache.sampleAReplica_of_none (by rw [hmissing]; rfl),
      hreplicas] at hr
    simpa [randMod, eq_comm] using hr
  · simp [request, getBatch, thenAll, getFutures, getFuture, push, enqueue, hk, hu, Except.map]
  · simp [request, getBatch, thenAll, getFutures, getFuture, push, enqueue, queueIndex, hk, hu]
  · intro h
    cases (h ⟨['u'], by simp [ClientRequest.named], hu⟩).1
  · intro h
    have hqueues := (h ⟨['u'], by simp [ClientRequest.named], hu⟩).2
    have hzero := congrFun hqueues 0
    simp [request, getBatch, thenAll, getFutures, getFuture, push, enqueue, queueIndex, hk, hu]
      at hzero

end Consumers

end Pancake
