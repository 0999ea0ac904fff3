import Pancake.CompletedPuts
import Pancake.Lib.Linearization

/-!
# Linearizability

With several consumers, and handler threads that wait on futures for as long
as they like, what clients see is what one key-value store would have told
them, executing an operation at a time: the order is the one in which the
consumers serve them. This holds of the runs whose steps are admitted.
-/

namespace Pancake

/-! ## What clients see -/

/-- A key-value store with one client. A get has no value, and a put returns
its own. -/
def keyValueStore : SeqObject (Str → Str) Operation Str where
  next cur op := if op.value = [] then cur else Function.update cur op.key op.value
  result cur op := if op.value = [] then cur op.key else op.value

/-- The consumers, and the values that wait in futures. -/
structure Futures where
  consumers : Consumers
  ready : List (Promise × Str) := []

/-- A step of the consumers, or a client that gets `x` from its future. -/
inductive FutureEvent where
  | step (e : ConsumerEvent)
  | get (p : Promise) (x : Str)

/-- `set_value` -/
def fulfils : ConsumerEvent → List (Promise × Str)
  | .serve _ slot x => slot.promise.toList.map fun p => (p, x)
  | _ => []

/-- The steps: a value is got from a future once. -/
inductive FutureStep (s : Futures) : FutureEvent → Futures → Prop
  | step {e : ConsumerEvent} {s' : Consumers} : AdmittedStep s.consumers e s' →
      FutureStep s (.step e) ⟨s', s.ready ++ fulfils e⟩
  | get {p : Promise} {x : Str} : (p, x) ∈ s.ready →
      FutureStep s (.get p x) { s with ready := s.ready.erase (p, x) }

/-- An operation is called when it is enqueued, and returns when its value is
got. -/
def FutureEvent.seen : FutureEvent → Option (CallEvent Promise Operation Str)
  | .step (.enqueue _ op p) => some (.call p op)
  | .step _ => none
  | .get p x => some (.ret p x)

/-- It takes effect when it is served. -/
def FutureEvent.effect : FutureEvent → Option (Effect Promise Operation Str)
  | .step (.serve _ slot x) => slot.promise.map fun p => ⟨p, slot.operation, x⟩
  | _ => none

/-- What the clients see of a run. -/
def clientHistory (es : List FutureEvent) : List (CallEvent Promise Operation Str) :=
  es.filterMap FutureEvent.seen

/-- The clients' operations in the order of service. -/
def serviceOrder (es : List FutureEvent) : List (Effect Promise Operation Str) :=
  es.filterMap FutureEvent.effect

/-- The steps of the consumers. -/
def consumerEvents (es : List FutureEvent) : List ConsumerEvent :=
  es.filterMap fun
    | .step e => some e
    | .get _ _ => none

section Snoc

variable (es : List FutureEvent)

theorem clientHistory_snoc (e : FutureEvent) :
    clientHistory (es ++ [e]) = clientHistory es ++ e.seen.toList := by
  rw [clientHistory, List.filterMap_append, List.filterMap_cons]
  cases e.seen <;> rfl

theorem serviceOrder_snoc (e : FutureEvent) :
    serviceOrder (es ++ [e]) = serviceOrder es ++ e.effect.toList := by
  rw [serviceOrder, List.filterMap_append, List.filterMap_cons]
  cases e.effect <;> rfl

theorem consumerEvents_step (e : ConsumerEvent) :
    consumerEvents (es ++ [.step e]) = consumerEvents es ++ [e] := by
  rw [consumerEvents, List.filterMap_append]
  rfl

theorem consumerEvents_get (p : Promise) (x : Str) :
    consumerEvents (es ++ [.get p x]) = consumerEvents es := by
  rw [consumerEvents, List.filterMap_append]
  exact List.append_nil _

variable {es}

/-- The calls seen are the operations enqueued. -/
theorem call_mem_clientHistory {p : Promise} {op : Operation} :
    .call p op ∈ clientHistory es ↔ ∃ i, EnqueuedAt (consumerEvents es) i op p := by
  constructor
  · intro h
    obtain ⟨e, he, hseen⟩ := List.mem_filterMap.mp h
    obtain ⟨c, rfl⟩ : ∃ c, e = .step (.enqueue c op p) := by
      cases e with
      | step e =>
          cases e with
          | enqueue c op' p' =>
              cases hseen
              exact ⟨c, rfl⟩
          | _ => cases hseen
      | get p' x => cases hseen
    obtain ⟨i, hi⟩ := List.mem_iff_getElem?.mp (List.mem_filterMap.mpr ⟨_, he, rfl⟩ :
      ConsumerEvent.enqueue c op p ∈ consumerEvents es)
    exact ⟨i, c, hi⟩
  · rintro ⟨i, c, hi⟩
    obtain ⟨e, he, hstep⟩ := List.mem_filterMap.mp (List.mem_of_getElem? hi)
    cases e with
    | step e =>
        cases hstep
        exact List.mem_filterMap.mpr ⟨_, he, rfl⟩
    | get p' x => cases hstep

/-- An operation has taken effect if its promise is fulfilled. -/
theorem FulfilledAt.of_mem_serviceOrder {f : Effect Promise Operation Str}
    (h : f ∈ serviceOrder es) : ∃ j, FulfilledAt (consumerEvents es) j f.ticket f.result := by
  obtain ⟨e, he, heffect⟩ := List.mem_filterMap.mp h
  cases e with
  | step e =>
      cases e with
      | serve c slot x =>
          obtain ⟨p, hp, rfl⟩ := Option.map_eq_some_iff.mp heffect
          obtain ⟨j, hj⟩ := List.mem_iff_getElem?.mp (List.mem_filterMap.mpr ⟨_, he, rfl⟩ :
            ConsumerEvent.serve c slot x ∈ consumerEvents es)
          exact ⟨j, c, slot, hj, hp⟩
      | _ => cases heffect
  | get p x => cases heffect

end Snoc

/-! ## The order of service -/

/-- Where the proxy serves the latest puts, the store would hold them. -/
theorem latestPut_snoc (initial : Str → Str) (earlier : List Operation) (op : Operation) :
    Proxy.latestPut initial (earlier ++ [op])
      = keyValueStore.next (Proxy.latestPut initial earlier) op := by
  rw [Proxy.latestPut_append initial earlier op (fun _ _ => []) true 0]
  by_cases hv : op.value = []
  · simp [LazyReplicas.current, Proxy.accessOf, keyValueStore, hv]
  · simp [LazyReplicas.current, Proxy.accessOf, keyValueStore, hv]

/-- What is then told of the key is the operation's result. -/
theorem next_key (cur : Str → Str) (op : Operation) :
    keyValueStore.next cur op op.key = keyValueStore.result cur op := by
  by_cases hv : op.value = []
  · simp [keyValueStore, hv]
  · simp [keyValueStore, hv]

/-- The state after the events: the order of service is one the clients'
history allows, it leaves the values the proxy serves, and what waits in a
future is the result of an operation in it. -/
structure InServiceOrder (initial : Str → Str) (es : List FutureEvent) (s : Futures) : Prop where
  tracked : Tracked initial (consumerEvents es) s.consumers
  linearizes : Linearizes keyValueStore initial (clientHistory es) (serviceOrder es)
  after : keyValueStore.after initial (serviceOrder es)
    = Proxy.latestPut initial (servedOperations (consumerEvents es))
  ready : ∀ q ∈ s.ready, ∃ f ∈ serviceOrder es, f.ticket = q.1 ∧ f.result = q.2

section Steps

variable {initial : Str → Str} {es : List FutureEvent} {s : Futures} {s' : Consumers}

/-- **Enqueueing** is a call with a new ticket. -/
theorem InServiceOrder.enqueue (h : InServiceOrder initial es s) {c : Nat} {op : Operation}
    {p : Promise} (hs : AdmittedStep s.consumers (.enqueue c op p) s') :
    InServiceOrder initial (es ++ [.step (.enqueue c op p)]) ⟨s', s.ready ++ []⟩ := by
  have horder : serviceOrder (es ++ [.step (.enqueue c op p)]) = serviceOrder es := by
    rw [serviceOrder_snoc]
    exact List.append_nil _
  refine ⟨?_, ?_, ?_, ?_⟩
  · rw [consumerEvents_step]
    exact h.tracked.step hs.admitted hs.taken
  · rw [clientHistory_snoc, horder]
    refine h.linearizes.call fun op' hcall => ?_
    obtain ⟨i, hi⟩ := call_mem_clientHistory.mp hcall
    have hlt := h.tracked.ledger.fresh i op' p hi
    cases hs.taken
    exact absurd hlt (lt_irrefl _)
  · rw [horder, h.after, consumerEvents_step, servedOperations_snoc, List.append_nil]
  · rw [horder, List.append_nil]
    exact h.ready

/-- **Serving** an operation of a client lets it take effect. -/
theorem InServiceOrder.serve (h : InServiceOrder initial es s) {c : Nat} {slot : BatchSlot}
    {x : Str} (hs : AdmittedStep s.consumers (.serve c slot x) s') :
    InServiceOrder initial (es ++ [.step (.serve c slot x)])
      ⟨s', s.ready ++ slot.promise.toList.map fun p => (p, x)⟩ := by
  have htracked := h.tracked.step hs.admitted hs.taken
  have hlast : (consumerEvents es ++ [.serve c slot x])[(consumerEvents es).length]?
      = some (.serve c slot x) := getElem?_snoc.mpr (.inr ⟨rfl, rfl⟩)
  have hserved : servedOperations (consumerEvents es ++ [.serve c slot x])
      = servedOperations (consumerEvents es) ++ [slot.operation] := servedOperations_snoc _ _
  have hhistory : clientHistory (es ++ [.step (.serve c slot x)]) = clientHistory es := by
    rw [clientHistory_snoc]
    exact List.append_nil _
  cases hp : slot.promise with
  | none =>
      -- a fake operation reads
      have hfake := htracked.ledger.servedFakes _ c slot x hlast hp
      have horder : serviceOrder (es ++ [.step (.serve c slot x)]) = serviceOrder es := by
        rw [serviceOrder_snoc, FutureEvent.effect, hp]
        exact List.append_nil _
      refine ⟨?_, ?_, ?_, ?_⟩
      · rw [consumerEvents_step]
        exact htracked
      · rw [hhistory, horder]
        exact h.linearizes
      · rw [horder, h.after, consumerEvents_step, hserved, latestPut_snoc]
        exact (if_pos hfake).symm
      · rw [horder]
        simpa using h.ready
  | some p =>
      have horder : serviceOrder (es ++ [.step (.serve c slot x)])
          = serviceOrder es ++ [⟨p, slot.operation, x⟩] := by
        rw [serviceOrder_snoc, FutureEvent.effect, hp]
        rfl
      refine ⟨?_, ?_, ?_, ?_⟩
      · rw [consumerEvents_step]
        exact htracked
      · rw [hhistory, horder]
        refine h.linearizes.effect ?_ (fun hmem => ?_) ?_
        · obtain ⟨i, -, hi⟩ := htracked.ledger.served _ c slot x p hlast hp
          exact call_mem_clientHistory.mpr ⟨i, enqueuedAt_serve.mp hi⟩
        · -- the promise would be fulfilled twice
          obtain ⟨f, hf, rfl⟩ := List.mem_map.mp hmem
          obtain ⟨j, hj⟩ := FulfilledAt.of_mem_serviceOrder hf
          have := htracked.ledger.fulfilledOnce _ _ _ _ _ (fulfilledAt_serve.mpr (.inl hj))
            ⟨c, slot, hlast, hp⟩
          exact absurd hj.lt (by omega)
        · have hseen := htracked.seen _ c slot x hlast
          rw [List.take_of_length_le (by simp), hserved, latestPut_snoc, next_key] at hseen
          rw [h.after]
          exact hseen
      · rw [horder, SeqObject.after_snoc, h.after, consumerEvents_step, hserved, latestPut_snoc]
      · intro q hq
        rw [horder]
        rcases List.mem_append.mp hq with hq | hq
        · obtain ⟨f, hf, heq⟩ := h.ready q hq
          exact ⟨f, List.mem_append_left _ hf, heq⟩
        · simp only [Option.toList_some, List.map_singleton, List.mem_singleton] at hq
          rw [hq]
          exact ⟨_, List.mem_append_right _ List.mem_cons_self, rfl, rfl⟩

/-- **Reading and writing back** are not seen. -/
theorem InServiceOrder.quiet (h : InServiceOrder initial es s) {e : ConsumerEvent}
    (hs : AdmittedStep s.consumers e s') (hseen : FutureEvent.seen (.step e) = none)
    (heffect : FutureEvent.effect (.step e) = none)
    (hserved : servedOperations (consumerEvents es ++ [e])
      = servedOperations (consumerEvents es)) :
    InServiceOrder initial (es ++ [.step e]) ⟨s', s.ready ++ []⟩ := by
  have horder : serviceOrder (es ++ [.step e]) = serviceOrder es := by
    rw [serviceOrder_snoc, heffect]
    exact List.append_nil _
  refine ⟨?_, ?_, ?_, ?_⟩
  · rw [consumerEvents_step]
    exact h.tracked.step hs.admitted hs.taken
  · rw [clientHistory_snoc, hseen, horder]
    simpa using h.linearizes
  · rw [horder, h.after, consumerEvents_step, hserved]
  · rw [horder, List.append_nil]
    exact h.ready

/-- **Getting** a value returns the result of an operation in the order. -/
theorem InServiceOrder.get (h : InServiceOrder initial es s) {p : Promise} {x : Str}
    (hready : (p, x) ∈ s.ready) :
    InServiceOrder initial (es ++ [.get p x]) { s with ready := s.ready.erase (p, x) } := by
  have horder : serviceOrder (es ++ [.get p x]) = serviceOrder es := by
    rw [serviceOrder_snoc]
    exact List.append_nil _
  refine ⟨?_, ?_, ?_, ?_⟩
  · rw [consumerEvents_get]
    exact h.tracked
  · obtain ⟨f, hf, rfl, rfl⟩ := h.ready _ hready
    rw [clientHistory_snoc, horder]
    exact h.linearizes.ret hf
  · rw [horder, h.after, consumerEvents_get]
  · rw [horder]
    exact fun q hq => h.ready q (List.mem_of_mem_erase hq)

/-- **The step.** -/
theorem InServiceOrder.step (h : InServiceOrder initial es s) {e : FutureEvent} {s' : Futures}
    (hs : FutureStep s e s') : InServiceOrder initial (es ++ [e]) s' := by
  cases hs with
  | @step e s' hs =>
      cases e with
      | enqueue c op p => exact h.enqueue hs
      | read c slots => exact h.quiet hs rfl rfl (by rw [servedOperations_snoc, List.append_nil])
      | serve c slot x => exact h.serve hs
      | write c => exact h.quiet hs rfl rfl (by rw [servedOperations_snoc, List.append_nil])
  | get hready => exact h.get hready

end Steps

namespace Proxy

end Proxy

end Pancake
