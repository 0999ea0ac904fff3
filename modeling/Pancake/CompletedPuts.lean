import Pancake.Interleaving
import Pancake.ReadYourWrites

/-!
# Completed puts with several consumers

What clients may conclude from a fulfilled promise. Once a put has been
answered, a get enqueued later should return its value or that of a put that
was not completed before it began. The order that decides is the order in
which operations are served, and the invariant is `Tracked`: the current
values are the latest puts in that order, every open request was enqueued
once, and every promise is fulfilled at most once.

The property does not hold in every run: a consumer can read a label before
another has written back the update it was handed.
-/

namespace Pancake

open LazyReplicas

/-! ## What clients see of a run -/

/-- The `i`-th event enqueues `op` with promise `p`. -/
def EnqueuedAt (es : List ConsumerEvent) (i : Nat) (op : Operation) (p : Promise) : Prop :=
  ∃ c, es[i]? = some (.enqueue c op p)

/-- The `j`-th event fulfils promise `p` with `x`. -/
def FulfilledAt (es : List ConsumerEvent) (j : Nat) (p : Promise) (x : Str) : Prop :=
  ∃ c slot, es[j]? = some (.serve c slot x) ∧ slot.promise = some p

/-- `y` is the value of the put `op`, which began with event `i`, or of a put
of the same key begun before event `m` and not completed before event `i`. -/
def PutOrLater (es : List ConsumerEvent) (i m : Nat) (op : Operation) (y : Str) : Prop :=
  y = op.value ∨ ∃ i' < m, ∃ p, y ≠ [] ∧ EnqueuedAt es i' ⟨op.key, y⟩ p ∧
    ¬ ∃ n < i, ∃ x, FulfilledAt es n p x

/-- Once a put is fulfilled, a get of its key enqueued afterwards returns its
value or one that was not completed before it began. -/
def CompletedPutsVisible (es : List ConsumerEvent) : Prop :=
  ∀ i j l m op p p' x y, EnqueuedAt es i op p → op.value ≠ [] → FulfilledAt es j p x →
    EnqueuedAt es l ⟨op.key, []⟩ p' → j < l → FulfilledAt es m p' y → PutOrLater es i m op y

/-- The pending bit of a replica. -/
def Proxy.PendingBit (st : Proxy) (key : Str) (i : Nat) : Prop :=
  ∃ value bitVec, st.updateCache.lookup key = some (value, bitVec) ∧ bitVec[i]? = some true

/-- Writing a batch back next leaves no value older than a completed put's in
a replica without a pending bit. -/
def WritesBackCurrent (es : List ConsumerEvent) (s : Consumers) : Prop :=
  ∀ c f s', s.flights c = some f → Interleaves s (.write c) s' →
    ∀ i j op p x, EnqueuedAt es i op p → op.value ≠ [] → FulfilledAt es j p x →
    ∀ id < s.proxy.replicas op.key, s.proxy.labelOf op.key id ∈ f.labels →
      ¬ s.proxy.PendingBit op.key id →
      ∃ cipher y, s'.proxy.storage.contents.lookup (s.proxy.labelOf op.key id) = some cipher ∧
        s'.proxy.encryptionEngine.decrypt cipher = .ok y ∧ PutOrLater es i es.length op y

/-- The operations served, in order. -/
def servedOperations (es : List ConsumerEvent) : List Operation :=
  es.filterMap fun
    | .serve _ slot _ => some slot.operation
    | _ => none

/-- The requests of a consumer that are not yet answered: those of its batch
under way, then those in its queue. -/
def Consumers.openRequests (s : Consumers) (c : Nat) : List (Operation × Promise) :=
  realOperations (((s.flights c).elim [] BatchInFlight.todo).map Prod.fst) ++ s.queues c

/-! ## Events of an extended run -/

/-- An event of a run extended by one. -/
theorem getElem?_snoc {A : Type} {es : List A} {e e' : A} {i : Nat} :
    (es ++ [e])[i]? = some e' ↔ es[i]? = some e' ∨ (i = es.length ∧ e' = e) := by
  by_cases hi : i < es.length
  · rw [List.getElem?_append_left hi]
    constructor
    · exact Or.inl
    · intro h
      rcases h with h | ⟨rfl, -⟩
      · exact h
      · omega
  · rw [List.getElem?_append_right (by omega), List.getElem?_eq_none (by omega : es.length ≤ i)]
    by_cases he : i = es.length
    · subst he
      simp [eq_comm]
    · rw [List.getElem?_eq_none (by simp; omega)]
      simp [he]

theorem EnqueuedAt.lt {es : List ConsumerEvent} {i : Nat} {op : Operation} {p : Promise}
    (h : EnqueuedAt es i op p) : i < es.length := by
  obtain ⟨c, h⟩ := h
  exact (List.getElem?_eq_some_iff.mp h).1

theorem FulfilledAt.lt {es : List ConsumerEvent} {j : Nat} {p : Promise} {x : Str}
    (h : FulfilledAt es j p x) : j < es.length := by
  obtain ⟨c, slot, h, -⟩ := h
  exact (List.getElem?_eq_some_iff.mp h).1

theorem enqueuedAt_snoc {es : List ConsumerEvent} {e : ConsumerEvent} {i : Nat} {op : Operation}
    {p : Promise} : EnqueuedAt (es ++ [e]) i op p ↔
      EnqueuedAt es i op p ∨ (i = es.length ∧ ∃ c, e = .enqueue c op p) := by
  simp only [EnqueuedAt, getElem?_snoc]
  constructor
  · rintro ⟨c, h | ⟨hi, he⟩⟩
    · exact .inl ⟨c, h⟩
    · exact .inr ⟨hi, c, he.symm⟩
  · rintro (⟨c, h⟩ | ⟨hi, c, he⟩)
    · exact ⟨c, .inl h⟩
    · exact ⟨c, .inr ⟨hi, he.symm⟩⟩

theorem fulfilledAt_snoc {es : List ConsumerEvent} {e : ConsumerEvent} {j : Nat} {p : Promise}
    {x : Str} : FulfilledAt (es ++ [e]) j p x ↔ FulfilledAt es j p x ∨
      (j = es.length ∧ ∃ c slot, e = .serve c slot x ∧ slot.promise = some p) := by
  simp only [FulfilledAt, getElem?_snoc]
  constructor
  · rintro ⟨c, slot, h | ⟨hj, he⟩, hp⟩
    · exact .inl ⟨c, slot, h, hp⟩
    · exact .inr ⟨hj, c, slot, he.symm, hp⟩
  · rintro (⟨c, slot, h, hp⟩ | ⟨hj, c, slot, he, hp⟩)
    · exact ⟨c, slot, .inl h, hp⟩
    · exact ⟨c, slot, .inr ⟨hj, he.symm⟩, hp⟩

theorem enqueuedAt_enqueue {es : List ConsumerEvent} {c i : Nat} {op op' : Operation}
    {p p' : Promise} :
    EnqueuedAt (es ++ [.enqueue c op p]) i op' p' ↔
      EnqueuedAt es i op' p' ∨ (i = es.length ∧ op' = op ∧ p' = p) := by
  rw [enqueuedAt_snoc]
  refine or_congr_right (and_congr_right fun _ => ?_)
  constructor
  · rintro ⟨c', he⟩
    cases he
    exact ⟨rfl, rfl⟩
  · rintro ⟨rfl, rfl⟩
    exact ⟨c, rfl⟩

theorem fulfilledAt_enqueue {es : List ConsumerEvent} {c j : Nat} {op : Operation} {p p' : Promise}
    {x : Str} : FulfilledAt (es ++ [.enqueue c op p]) j p' x ↔ FulfilledAt es j p' x := by
  simp [fulfilledAt_snoc]

theorem enqueuedAt_serve {es : List ConsumerEvent} {c i : Nat} {slot : BatchSlot} {y : Str}
    {op : Operation} {p : Promise} :
    EnqueuedAt (es ++ [.serve c slot y]) i op p ↔ EnqueuedAt es i op p := by
  simp [enqueuedAt_snoc]

theorem fulfilledAt_serve {es : List ConsumerEvent} {c j : Nat} {slot : BatchSlot} {x y : Str}
    {p : Promise} : FulfilledAt (es ++ [.serve c slot y]) j p x ↔ FulfilledAt es j p x ∨
      (j = es.length ∧ slot.promise = some p ∧ x = y) := by
  rw [fulfilledAt_snoc]
  refine or_congr_right (and_congr_right fun _ => ?_)
  constructor
  · rintro ⟨c', slot', he, hp⟩
    cases he
    exact ⟨hp, rfl⟩
  · rintro ⟨hp, rfl⟩
    exact ⟨c, slot, rfl, hp⟩

/-! ## Requests and promises -/

/-- Every request not yet answered was enqueued with its promise, which is
unanswered and open nowhere else; every promise was enqueued once and
fulfilled at most once, with its own operation; fake operations put nothing. -/
structure Ledger (es : List ConsumerEvent) (s : Consumers) : Prop where
  fresh : ∀ i op p, EnqueuedAt es i op p → p < s.enqueued
  enqueuedOnce : ∀ i i' op op' p, EnqueuedAt es i op p → EnqueuedAt es i' op' p → i = i'
  requested : ∀ c, ∀ x ∈ s.openRequests c, ∃ i, EnqueuedAt es i x.1 x.2
  unanswered : ∀ c, ∀ x ∈ s.openRequests c, ∀ j y, ¬ FulfilledAt es j x.2 y
  openOnce : ∀ c, ((s.openRequests c).map Prod.snd).Nodup
  apart : ∀ c c', c ≠ c' → ∀ x ∈ s.openRequests c, ∀ x' ∈ s.openRequests c', x.2 ≠ x'.2
  fakes : ∀ c f, s.flights c = some f → ∀ x ∈ f.todo, x.1.promise = none →
    x.1.operation.value = []
  served : ∀ (j c : Nat) slot y p, es[j]? = some (.serve c slot y) → slot.promise = some p →
    ∃ i < j, EnqueuedAt es i slot.operation p
  servedFakes : ∀ (j c : Nat) slot y, es[j]? = some (.serve c slot y) → slot.promise = none →
    slot.operation.value = []
  fulfilledOnce : ∀ j j' p y y', FulfilledAt es j p y → FulfilledAt es j' p y' → j = j'

theorem Ledger.init (st : Proxy) : Ledger [] { proxy := st } where
  fresh i op p h := by
    obtain ⟨c, h⟩ := h
    simp at h
  enqueuedOnce i i' op op' p h := by
    obtain ⟨c, h⟩ := h
    simp at h
  requested c x hx := by cases hx
  unanswered c x hx := by cases hx
  openOnce c := List.nodup_nil
  apart c c' _ x hx := by cases hx
  fakes c f hf := by cases hf
  served j c slot y p h := by simp at h
  servedFakes j c slot y h := by simp at h
  fulfilledOnce j j' p y y' h := by
    obtain ⟨c, slot, h, -⟩ := h
    simp at h

section Ledger

variable {es : List ConsumerEvent} {s s' : Consumers}

/-- A request enqueued is open, at the end of its consumer's requests. -/
theorem openRequests_enqueue (s : Consumers) (c c' : Nat) (op : Operation) :
    (s.enqueue c op).openRequests c'
      = if c' = c then s.openRequests c' ++ [(op, s.enqueued)] else s.openRequests c' := by
  by_cases hc : c' = c
  · subst hc
    simp [Consumers.openRequests, Consumers.enqueue, List.append_assoc]
  · simp [Consumers.openRequests, Consumers.enqueue, hc]

theorem mem_openRequests_enqueue {c c' : Nat} {op : Operation} {x : Operation × Promise}
    (hx : x ∈ (s.enqueue c op).openRequests c') :
    x ∈ s.openRequests c' ∨ (c' = c ∧ x = (op, s.enqueued)) := by
  rw [openRequests_enqueue] at hx
  split at hx
  · rename_i hc
    rw [List.mem_append, List.mem_singleton] at hx
    exact hx.imp id fun hx => ⟨hc, hx⟩
  · exact .inl hx

/-- Moving requests from the queue into a batch leaves them open. -/
theorem openRequests_read {c : Nat} {slots : List BatchSlot} {rest : List (Operation × Promise)}
    {st : Proxy} {reads : BatchSlot → Str} (hidle : s.flights c = none)
    (hqueue : s.queues c = realOperations slots ++ rest) (c' : Nat) :
    Consumers.openRequests { s with
      proxy := st
      queues := Function.update s.queues c rest
      flights := Function.update s.flights c
        (some { todo := slots.map fun slot => (slot, reads slot) }) } c' = s.openRequests c' := by
  by_cases hc : c' = c
  · subst hc
    simp [Consumers.openRequests, hidle, hqueue, Function.comp_def, realOperations]
  · simp [Consumers.openRequests, hc]

/-- Serving an operation answers its request, and no other. -/
theorem openRequests_serve {c : Nat} {f : BatchInFlight} {slot : BatchSlot} {cipher out : Str}
    {rest : List (BatchSlot × Str)} {st : Proxy} (hf : s.flights c = some f)
    (htodo : f.todo = (slot, cipher) :: rest) (c' : Nat) :
    s.openRequests c' = (if c' = c then realOperations [slot] else []) ++
      Consumers.openRequests { s with
        proxy := st
        flights := Function.update s.flights c (some (s.serveFirst f slot out rest)) } c' := by
  by_cases hc : c' = c
  · subst hc
    simp only [Consumers.openRequests, hf, Option.elim_some, htodo, List.map_cons, if_true,
      Function.update_self, Consumers.serveFirst, realOperations, ← List.append_assoc]
    rw [← List.filterMap_append, List.singleton_append]
  · simp [Consumers.openRequests, hc]

/-- A batch written back has no open request. -/
theorem openRequests_write {c : Nat} {f : BatchInFlight} {st : Proxy} (hf : s.flights c = some f)
    (htodo : f.todo = []) (c' : Nat) :
    Consumers.openRequests { s with
      proxy := st
      flights := Function.update s.flights c none } c' = s.openRequests c' := by
  by_cases hc : c' = c
  · subst hc
    simp [Consumers.openRequests, hf, htodo]
  · simp [Consumers.openRequests, hc]

/-- Open requests have older promises than the next one. -/
theorem Ledger.older (h : Ledger es s) {c : Nat} {x : Operation × Promise}
    (hx : x ∈ s.openRequests c) : x.2 < s.enqueued := by
  obtain ⟨i, hi⟩ := h.requested c x hx
  exact h.fresh i _ _ hi

/-- The next promise has not been fulfilled. -/
theorem Ledger.not_fulfilled (h : Ledger es s) (j : Nat) (y : Str) :
    ¬ FulfilledAt es j s.enqueued y := by
  rintro ⟨c, slot, hj, hp⟩
  obtain ⟨i, -, hi⟩ := h.served j c slot y s.enqueued hj hp
  exact absurd (h.fresh i _ _ hi) (lt_irrefl _)

/-- **Enqueueing** uses a promise no one has. -/
theorem Ledger.enqueue (h : Ledger es s) (c : Nat) (op : Operation) :
    Ledger (es ++ [.enqueue c op s.enqueued]) (s.enqueue c op) := by
  refine
    { fresh := fun i op' p hi => ?_
      enqueuedOnce := fun i i' op₁ op₂ p hi hi' => ?_
      requested := fun c' x hx => ?_
      unanswered := fun c' x hx j y hj => ?_
      openOnce := fun c' => ?_
      apart := fun c₁ c₂ hc x hx x' hx' => ?_
      fakes := h.fakes
      served := fun j c' slot y p hj hp => ?_
      servedFakes := fun j c' slot y hj hp => ?_
      fulfilledOnce := fun j j' p y y' hj hj' => ?_ }
  · show p < s.enqueued + 1
    rcases enqueuedAt_enqueue.mp hi with hi | ⟨-, -, rfl⟩
    · exact Nat.lt_succ_of_lt (h.fresh i op' p hi)
    · exact Nat.lt_succ_self _
  · rcases enqueuedAt_enqueue.mp hi with hi | ⟨rfl, -, rfl⟩
    · rcases enqueuedAt_enqueue.mp hi' with hi' | ⟨-, -, rfl⟩
      · exact h.enqueuedOnce _ _ _ _ _ hi hi'
      · exact absurd (h.fresh _ _ _ hi) (lt_irrefl _)
    · rcases enqueuedAt_enqueue.mp hi' with hi' | ⟨rfl, -, -⟩
      · exact absurd (h.fresh _ _ _ hi') (lt_irrefl _)
      · rfl
  · rcases mem_openRequests_enqueue hx with hx | ⟨-, rfl⟩
    · obtain ⟨i, hi⟩ := h.requested c' x hx
      exact ⟨i, enqueuedAt_enqueue.mpr (.inl hi)⟩
    · exact ⟨es.length, enqueuedAt_enqueue.mpr (.inr ⟨rfl, rfl, rfl⟩)⟩
  · rw [fulfilledAt_enqueue] at hj
    rcases mem_openRequests_enqueue hx with hx | ⟨-, rfl⟩
    · exact h.unanswered c' x hx j y hj
    · exact h.not_fulfilled j y hj
  · rw [openRequests_enqueue]
    split
    · rw [List.map_append, List.nodup_append]
      refine ⟨h.openOnce c', by simp, ?_⟩
      intro p hp p' hp'
      obtain ⟨x, hx, rfl⟩ := List.mem_map.mp hp
      rw [List.map_singleton, List.mem_singleton] at hp'
      rw [hp']
      exact (h.older hx).ne
    · exact h.openOnce c'
  · rcases mem_openRequests_enqueue hx with hx | ⟨hc₁, rfl⟩
    · rcases mem_openRequests_enqueue hx' with hx' | ⟨-, rfl⟩
      · exact h.apart c₁ c₂ hc x hx x' hx'
      · exact (h.older hx).ne
    · rcases mem_openRequests_enqueue hx' with hx' | ⟨hc₂, -⟩
      · exact (h.older hx').ne'
      · exact absurd (hc₁.trans hc₂.symm) hc
  · rcases getElem?_snoc.mp hj with hj | ⟨-, he⟩
    · obtain ⟨i, hi, he⟩ := h.served j c' slot y p hj hp
      exact ⟨i, hi, enqueuedAt_enqueue.mpr (.inl he)⟩
    · cases he
  · rcases getElem?_snoc.mp hj with hj | ⟨-, he⟩
    · exact h.servedFakes j c' slot y hj hp
    · cases he
  · exact h.fulfilledOnce j j' p y y' (fulfilledAt_enqueue.mp hj) (fulfilledAt_enqueue.mp hj')

/-- **Reading and writing back** answer nothing. -/
theorem Ledger.quiet (h : Ledger es s) {e : ConsumerEvent}
    (he : (∃ c slots, e = .read c slots) ∨ ∃ c, e = .write c) (hs : s'.enqueued = s.enqueued)
    (hopen : ∀ c, s'.openRequests c = s.openRequests c)
    (hfakes : ∀ c f, s'.flights c = some f → ∀ x ∈ f.todo, x.1.promise = none →
      x.1.operation.value = []) : Ledger (es ++ [e]) s' := by
  have henq : ∀ i op p, EnqueuedAt (es ++ [e]) i op p ↔ EnqueuedAt es i op p := by
    intro i op p
    rcases he with ⟨c, slots, rfl⟩ | ⟨c, rfl⟩ <;> simp [enqueuedAt_snoc]
  have hserve : ∀ (j c : Nat) slot y, (es ++ [e])[j]? = some (.serve c slot y) ↔
      es[j]? = some (.serve c slot y) := by
    intro j c slot y
    rcases he with ⟨c, slots, rfl⟩ | ⟨c, rfl⟩ <;> simp [getElem?_snoc]
  exact
    { fresh := fun i op p hi => by rw [hs]; exact h.fresh i op p ((henq _ _ _).mp hi)
      enqueuedOnce := by simpa only [henq] using h.enqueuedOnce
      requested := by simpa only [henq, hopen] using h.requested
      unanswered := by simpa only [FulfilledAt, hserve, hopen] using h.unanswered
      openOnce := by simpa only [hopen] using h.openOnce
      apart := by simpa only [hopen] using h.apart
      fakes := hfakes
      served := by simpa only [henq, hserve] using h.served
      servedFakes := by simpa only [hserve] using h.servedFakes
      fulfilledOnce := by simpa only [FulfilledAt, hserve] using h.fulfilledOnce }

/-- **Serving** answers the first open request of its consumer, if the
operation is real. -/
theorem Ledger.serve (h : Ledger es s) {c : Nat} {slot : BatchSlot} {y : Str}
    (hs : s'.enqueued = s.enqueued)
    (hopen : ∀ c', s.openRequests c'
      = (if c' = c then realOperations [slot] else []) ++ s'.openRequests c')
    (hslot : slot.promise = none → slot.operation.value = [])
    (hfakes : ∀ c f, s'.flights c = some f → ∀ x ∈ f.todo, x.1.promise = none →
      x.1.operation.value = []) : Ledger (es ++ [.serve c slot y]) s' := by
  have hmem : ∀ c', ∀ x ∈ s'.openRequests c', x ∈ s.openRequests c' := by
    intro c' x hx
    rw [hopen]
    exact List.mem_append_right _ hx
  -- the promise was open here
  have hhead : ∀ p, slot.promise = some p →
      s.openRequests c = (slot.operation, p) :: s'.openRequests c := by
    intro p hp
    rw [hopen, if_pos rfl]
    simp [realOperations, hp]
  have hunanswered : ∀ p, slot.promise = some p → ∀ j x, ¬ FulfilledAt es j p x := by
    intro p hp j x
    exact h.unanswered c (slot.operation, p) (by rw [hhead p hp]; exact List.mem_cons_self ..) j x
  refine
    { fresh := fun i op p hi => by rw [hs]; exact h.fresh i op p (enqueuedAt_serve.mp hi)
      enqueuedOnce := by simpa only [enqueuedAt_serve] using h.enqueuedOnce
      requested := fun c' x hx => ?_
      unanswered := fun c' x hx j z hj => ?_
      openOnce := fun c' => ?_
      apart := fun c₁ c₂ hc x hx x' hx' =>
        h.apart c₁ c₂ hc x (hmem c₁ x hx) x' (hmem c₂ x' hx')
      fakes := hfakes
      served := fun j c' slot' z p hj hp => ?_
      servedFakes := fun j c' slot' z hj hp => ?_
      fulfilledOnce := fun j j' p z z' hj hj' => ?_ }
  · obtain ⟨i, hi⟩ := h.requested c' x (hmem c' x hx)
    exact ⟨i, enqueuedAt_serve.mpr hi⟩
  · rcases fulfilledAt_serve.mp hj with hj | ⟨-, hp, -⟩
    · exact h.unanswered c' x (hmem c' x hx) j z hj
    · -- it was open once only
      by_cases hc : c' = c
      · subst hc
        have hnd := h.openOnce c'
        rw [hhead _ hp, List.map_cons, List.nodup_cons] at hnd
        exact hnd.1 (List.mem_map.mpr ⟨x, hx, rfl⟩)
      · exact h.apart c' c hc x (hmem c' x hx) (slot.operation, x.2)
          (by rw [hhead _ hp]; exact List.mem_cons_self ..) rfl
  · have hnd := h.openOnce c'
    rw [hopen, List.map_append] at hnd
    exact (List.nodup_append.mp hnd).2.1
  · rcases getElem?_snoc.mp hj with hj | ⟨rfl, he⟩
    · obtain ⟨i, hi, he⟩ := h.served j c' slot' z p hj hp
      exact ⟨i, hi, enqueuedAt_serve.mpr he⟩
    · cases he
      obtain ⟨i, hi⟩ := h.requested c (slot.operation, p)
        (by rw [hhead p hp]; exact List.mem_cons_self ..)
      exact ⟨i, hi.lt, enqueuedAt_serve.mpr hi⟩
  · rcases getElem?_snoc.mp hj with hj | ⟨-, he⟩
    · exact h.servedFakes j c' slot' z hj hp
    · cases he
      exact hslot hp
  · rcases fulfilledAt_serve.mp hj with hj | ⟨rfl, hp, -⟩
    · rcases fulfilledAt_serve.mp hj' with hj' | ⟨-, hp, -⟩
      · exact h.fulfilledOnce j j' p z z' hj hj'
      · exact absurd hj (hunanswered p hp j z)
    · rcases fulfilledAt_serve.mp hj' with hj' | ⟨rfl, -, -⟩
      · exact absurd hj' (hunanswered p hp j' z')
      · rfl

/-- **The step**: every step keeps the ledger. -/
theorem Ledger.step (h : Ledger es s) (hrun : Running s) {e : ConsumerEvent}
    (hs : Interleaves s e s') : Ledger (es ++ [e]) s' := by
  cases e with
  | enqueue c op p =>
      cases hs
      exact h.enqueue c op
  | read c slots =>
      obtain ⟨rest, st, hidle, hqueue, hfake, -, rfl⟩ := hrun.read_cases hs
      refine h.quiet (.inl ⟨c, slots, rfl⟩) rfl (openRequests_read hidle hqueue)
        fun c' f hf x hx hp => ?_
      rcases flights_update hf with ⟨-, rfl⟩ | ⟨-, hold⟩
      · obtain ⟨slot, hslot, rfl⟩ := List.mem_map.mp hx
        exact hfake slot hslot hp
      · exact h.fakes c' f hold x hx hp
  | serve c slot y =>
      obtain ⟨f, cipher, rest, cache, out, hf, htodo, -, rfl⟩ := hrun.serve_cases hs
      refine h.serve rfl (openRequests_serve hf htodo) (fun hp => ?_) fun c' g hg x hx hp => ?_
      · exact h.fakes c f hf (slot, cipher) (by rw [htodo]; exact List.mem_cons_self ..) hp
      · rcases flights_update hg with ⟨-, rfl⟩ | ⟨-, hold⟩
        · exact h.fakes c f hf x (by rw [htodo]; exact List.mem_cons_of_mem _ hx) hp
        · exact h.fakes c' g hold x hx hp
  | write c =>
      obtain ⟨f, server, hf, htodo, -, -, rfl⟩ := hrun.write_cases hs
      refine h.quiet (.inr ⟨c, rfl⟩) rfl (openRequests_write hf htodo) fun c' g hg x hx hp => ?_
      exact h.fakes c' g (flights_update_none hg).2 x hx hp

end Ledger

/-! ## The order of service -/

theorem servedOperations_snoc (es : List ConsumerEvent) (e : ConsumerEvent) :
    servedOperations (es ++ [e]) = servedOperations es ++
      (match e with
        | .serve _ slot _ => [slot.operation]
        | _ => []) := by
  rw [servedOperations, List.filterMap_append]
  cases e <;> rfl

/-- Once a put has been served, the latest put of its key is one served then
or later. -/
theorem latestPut_of_served (initial : Str → Str) {es : List ConsumerEvent} {j c : Nat}
    {slot : BatchSlot} {x : Str} (hj : es[j]? = some (.serve c slot x))
    (hput : slot.operation.value ≠ []) :
    ∃ j' c' slot' x', j ≤ j' ∧ es[j']? = some (.serve c' slot' x') ∧
      slot'.operation = ⟨slot.operation.key,
        Proxy.latestPut initial (servedOperations es) slot.operation.key⟩ ∧
      slot'.operation.value ≠ [] := by
  induction es using List.reverseRecOn with
  | nil => simp at hj
  | append_singleton es e ih =>
      rw [servedOperations_snoc]
      cases e with
      | serve c' slot' x' =>
          by_cases hlast : slot'.operation.key = slot.operation.key ∧ slot'.operation.value ≠ []
          · refine ⟨es.length, c', slot', x', ?_, getElem?_snoc.mpr (.inr ⟨rfl, rfl⟩), ?_, hlast.2⟩
            · have := (List.getElem?_eq_some_iff.mp hj).1
              simp only [List.length_append, List.length_singleton] at this
              omega
            · rw [Proxy.latestPut_append initial _ slot'.operation (fun _ _ => []) true 0]
              simp [current, Proxy.accessOf, hlast.2, ← hlast.1]
          · rcases getElem?_snoc.mp hj with hj | ⟨-, he⟩
            · obtain ⟨j', c'', slot'', x'', hle, hj', hop, hne⟩ := ih hj
              refine ⟨j', c'', slot'', x'', hle, getElem?_snoc.mpr (.inl hj'), ?_, hne⟩
              rw [hop, Proxy.latestPut_append initial _ slot'.operation (fun _ _ => []) true 0]
              by_cases hv : slot'.operation.value = []
              · simp [current, Proxy.accessOf, hv]
              · have hk : slot.operation.key ≠ slot'.operation.key := fun hc => hlast ⟨hc.symm, hv⟩
                simp [current, Proxy.accessOf, hv, hk]
            · cases he
              exact absurd ⟨rfl, hput⟩ hlast
      | _ =>
          rcases getElem?_snoc.mp hj with hj | ⟨-, he⟩
          · obtain ⟨j', c'', slot'', x'', hle, hj', hop, hne⟩ := ih hj
            rw [List.append_nil]
            exact ⟨j', c'', slot'', x'', hle, getElem?_snoc.mpr (.inl hj'), hop, hne⟩
          · cases he

/-- The state after the events: its current values are the latest puts in
the order of service, and every operation served saw its key's. -/
structure Tracked (initial : Str → Str) (es : List ConsumerEvent) (s : Consumers) : Prop where
  ledger : Ledger es s
  serving : Serving s (Proxy.latestPut initial (servedOperations es))
  seen : ∀ (m c : Nat) slot x, es[m]? = some (.serve c slot x) →
    x = Proxy.latestPut initial (servedOperations (es.take (m + 1))) slot.operation.key

section Tracked

variable {initial : Str → Str} {es : List ConsumerEvent} {s s' : Consumers}

/-- **The step**: every step the state admits keeps track. -/
theorem Tracked.step (h : Tracked initial es s) {e : ConsumerEvent} (hadm : s.Admits e)
    (hs : Interleaves s e s') : Tracked initial (es ++ [e]) s' := by
  have hledger := h.ledger.step h.serving.toRunning hs
  -- what was seen before is still what was seen
  have hold : ∀ (m c : Nat) slot x, es[m]? = some (.serve c slot x) →
      x = Proxy.latestPut initial (servedOperations ((es ++ [e]).take (m + 1))) slot.operation.key := by
    intro m c slot x hm
    have hlt := (List.getElem?_eq_some_iff.mp hm).1
    rw [List.take_append_of_le_length (by omega)]
    exact h.seen m c slot x hm
  cases e with
  | serve c slot x =>
      obtain ⟨hval, hserving⟩ := h.serving.serve hadm hs
      rw [BatchSlot.access, ← Proxy.latestPut_append] at hval hserving
      refine ⟨hledger, ?_, fun m c' slot' x' hm => ?_⟩
      · rw [servedOperations_snoc]
        exact hserving
      · rcases getElem?_snoc.mp hm with hm | ⟨rfl, he⟩
        · exact hold m c' slot' x' hm
        · cases he
          rw [List.take_of_length_le (by simp), servedOperations_snoc]
          exact hval
  | _ =>
      refine ⟨hledger, ?_, fun m c' slot' x' hm => ?_⟩
      · rw [servedOperations_snoc, List.append_nil]
        first
          | (cases hs; exact h.serving.enqueue hadm)
          | exact h.serving.read hadm hs
          | exact (h.serving.write hs).2
      · rcases getElem?_snoc.mp hm with hm | ⟨-, he⟩
        · exact hold m c' slot' x' hm
        · cases he

theorem PutOrLater.mono {i m m' : Nat} {op : Operation} {y : Str} (h : PutOrLater es i m op y)
    (hm : m ≤ m') : PutOrLater es i m' op y := by
  rcases h with h | ⟨i', hi, p, h⟩
  · exact .inl h
  · exact .inr ⟨i', by omega, p, h⟩

/-- The operation whose promise is fulfilled is the one enqueued with it. -/
theorem Ledger.fulfilled (h : Ledger es s) {i j : Nat} {op : Operation} {p : Promise} {x : Str}
    (hi : EnqueuedAt es i op p) (hj : FulfilledAt es j p x) :
    i < j ∧ ∃ c slot, es[j]? = some (.serve c slot x) ∧ slot.operation = op := by
  obtain ⟨c, slot, hj, hp⟩ := hj
  obtain ⟨i', hlt, hi'⟩ := h.served j c slot x p hj hp
  obtain rfl := h.enqueuedOnce i i' op slot.operation p hi hi'
  refine ⟨hlt, c, slot, hj, ?_⟩
  obtain ⟨c₁, he₁⟩ := hi
  obtain ⟨c₂, he₂⟩ := hi'
  rw [he₁] at he₂
  cases he₂
  rfl

/-- After a put has been fulfilled, the latest put served is it or one that
was not completed before it began. -/
theorem Ledger.putOrLater (h : Ledger es s) (initial : Str → Str) {i j m : Nat} {op : Operation}
    {p : Promise} {x : Str} (hi : EnqueuedAt es i op p) (hne : op.value ≠ [])
    (hj : FulfilledAt es j p x) (hjm : j ≤ m) :
    PutOrLater es i m op
      (Proxy.latestPut initial (servedOperations (es.take (m + 1))) op.key) := by
  obtain ⟨hij, c, slot, hserve, rfl⟩ := h.fulfilled hi hj
  have htake : (es.take (m + 1))[j]? = some (.serve c slot x) := by
    rw [List.getElem?_take_of_lt (by omega)]
    exact hserve
  obtain ⟨j', c', slot', x', hle, hj', hop, hput⟩ := latestPut_of_served initial htake hne
  have hlt : j' < m + 1 := by
    have := (List.getElem?_eq_some_iff.mp hj').1
    rw [List.length_take] at this
    omega
  rw [List.getElem?_take_of_lt hlt] at hj'
  by_cases hjj : j' = j
  · -- it is the latest put itself
    subst hjj
    rw [hserve] at hj'
    cases hj'
    exact .inl (congrArg Operation.value hop).symm
  · -- a put served after this one was fulfilled was not fulfilled before
    cases hq : slot'.promise with
    | none => exact absurd (h.servedFakes j' c' slot' x' hj' hq) hput
    | some q =>
        obtain ⟨i', hi', henq⟩ := h.served j' c' slot' x' q hj' hq
        rw [hop] at henq hput
        refine .inr ⟨i', by omega, q, hput, henq, ?_⟩
        rintro ⟨n, hn, z, hz⟩
        have := h.fulfilledOnce n j' q z x' hz ⟨c', slot', hj', hq⟩
        omega

/-- So every get sees the puts completed before it was enqueued. -/
theorem Tracked.visible (h : Tracked initial es s) : CompletedPutsVisible es := by
  intro i j l m op p p' x y hi hne hj hl hjl hm
  obtain ⟨hlm, c, slot, hserve, hslot⟩ := h.ledger.fulfilled hl hm
  have hval := h.seen m c slot y hserve
  rw [hslot] at hval
  rw [hval]
  exact h.ledger.putOrLater initial hi hne hj (by omega)

/-- And so does every replica a batch is written back to. -/
theorem Tracked.writesBackCurrent (h : Tracked initial es s) : WritesBackCurrent es s := by
  intro c f s' hf hs i j op p x hi hne hj id hid hmem hbit
  have hwait : s.proxy.updateCache.waiting op.key id = none := by
    cases hw : s.proxy.updateCache.waiting op.key id with
    | none => rfl
    | some v =>
        obtain ⟨-, bits, hl, hb⟩ := UpdateCache.waiting_eq_some.mp hw
        exact absurd ⟨v, bits, hl, hb⟩ hbit
  obtain ⟨hwritten, hserving⟩ := h.serving.write hs
  have hplain := hwritten f hf op.key id hid hwait hmem
  obtain ⟨f', server, -, -, -, -, he⟩ := h.serving.write_cases hs
  have hlab : s'.proxy.labelOf = s.proxy.labelOf := by rw [he]; rfl
  have hrep : s'.proxy.replicas = s.proxy.replicas := by rw [he]; rfl
  obtain ⟨cipher, y, hc, hd, -⟩ := hserving.sound.readable op.key id (by rwa [hrep])
  rw [hlab] at hc
  refine ⟨cipher, y, hc, hd, ?_⟩
  have hy : y = Proxy.latestPut initial (servedOperations es) op.key := by
    rw [← hplain, Proxy.plain, plainText, hc]
    simp [hd]
  have hput := h.ledger.putOrLater initial hi hne hj (m := es.length) hj.lt.le
  rw [List.take_of_length_le (by omega), ← hy] at hput
  exact hput

end Tracked

namespace Proxy

/-- **Completed puts stay visible.** In every interleaving of the consumers'
steps from the state `init` leaves, as long as no label is read whose update
is on its way back and no update is handed over for a label that has been
read, a get returns the value of every put completed before it was enqueued,
or of one not completed before that put began; and so does every replica a
batch is written back to, unless an update is pending for it. No batch gets
stuck under way. -/
theorem completedPuts_visible {st₀ : Proxy} {dist : Distribution} {alpha delta : ℚ}
    {values : Nat → Str} (hfresh : st₀.Fresh)
    (hlen : dist.items.length = dist.probabilities.length)
    (hkeys : (dist.items ++ [st₀.dummyKey]).Nodup)
    (hv : ∀ i, st₀.encryptionEngine.RoundTrips (values i)) :
    ∃ st, st₀.init dist alpha delta values = .ok st ∧ (st.DistinctNames →
      ∀ es s, Run AdmittedStep { proxy := st } es s →
        CompletedPutsVisible es ∧ WritesBackCurrent es s ∧
        ∀ c f, s.flights c = some f → ∃ e s', Interleaves s e s' ∧
          (e = .write c ∨ ∃ slot value, e = .serve c slot value)) := by
  obtain ⟨st, hinit, hcreated⟩ := init_created dist alpha delta
    fun i => (hv i).encrypts
  refine ⟨st, hinit, fun hnames es s hr => ?_⟩
  have hcons := hcreated.consistent (hfresh.takeArguments _ _ _) hv hlen hkeys hnames
  have htracked : Tracked (initialValue dist.items st₀.dummyKey values) es s := by
    refine hr.invariant (I := Tracked (initialValue dist.items st₀.dummyKey values)) ?_ ?_
    · exact ⟨.init st, hcons.serving, fun m c slot x hm => by simp at hm⟩
    · intro es t e u _ h hstep
      exact h.step hstep.admitted hstep.taken
  exact ⟨htracked.visible, htracked.writesBackCurrent, fun c f => htracked.serving.exists_step⟩

end Proxy

/-! ## Batches of one operation -/

/-- What reading a batch of one operation and serving it does: `s₁` is the
state in between, and `x` the operation's value. -/
structure Visit (s : Consumers) (c : Nat) (slot : BatchSlot) (rest : List (Operation × Promise))
    (x : Str) (s₁ s₂ : Consumers) : Prop where
  read : Interleaves s (.read c [slot]) s₁
  serve : Interleaves s₁ (.serve c slot x) s₂
  running : Running s₂
  value : x = value s.proxy.replicas s.proxy.updateCache.waiting (slot.access s.proxy.labelOf)
    (s.proxy.plain slot.label)
  waiting : s₂.proxy.updateCache.waiting
    = s.proxy.updateCache.waiting.after s.proxy.replicas (slot.access s.proxy.labelOf)
  plain : s₂.proxy.plain = s.proxy.plain
  frame : Proxy.Frame s.proxy s₂.proxy
  queues : s₂.queues = Function.update s.queues c rest
  enqueued : s₂.enqueued = s.enqueued
  reading : ∃ cipher, s₁.flights = Function.update s.flights c (some { todo := [(slot, cipher)] })
  served : ∃ f : BatchInFlight, f.todo = [] ∧ s₂.flights = Function.update s.flights c (some f)

/-- The first operation in an idle consumer's queue can be served. -/
theorem Running.visit {s : Consumers} (h : Running s) {c : Nat} (hidle : s.flights c = none)
    {op : Operation} {p : Promise} {rest : List (Operation × Promise)} {id : Nat}
    (hqueue : s.queues c = (op, p) :: rest) (hlive : id < s.proxy.replicas op.key) :
    ∃ x s₁ s₂, Visit s c ⟨op, some p, id, s.proxy.labelOf op.key id⟩ rest x s₁ s₂ := by
  set slot : BatchSlot := ⟨op, some p, id, s.proxy.labelOf op.key id⟩ with hslot
  have hreal : s.queues c = realOperations [slot] ++ rest := by rw [hqueue]; rfl
  obtain ⟨s₁, hread⟩ := h.exists_read hidle hreal (by simp [hslot]) (by simpa [hslot])
    (by simp [hslot])
  have h₁ := h.read hread
  obtain ⟨rest', st, -, hq, -, hslots, hs₁⟩ := h.read_cases hread
  obtain rfl : rest = rest' := List.append_cancel_left (hreal.symm.trans hq)
  set f : BatchInFlight :=
    { todo := [(slot, UnorderedMap.at_ s.proxy.storage.contents slot.label)] } with hf
  have hflights : s₁.flights = Function.update s.flights c (some f) := by rw [hs₁]; rfl
  have hf₁ : s₁.flights c = some f := by rw [hflights, Function.update_self]
  have hproxy : s₁.proxy = st := by rw [hs₁]
  have hfr : Proxy.Frame s.proxy s₁.proxy := by rw [hproxy]; exact hslots.frame
  obtain ⟨cache, x, out, hx⟩ := h₁.slotServed hf₁ rfl
  have hserve := Interleaves.serve hf₁ rfl hx.returns hx.encrypted
  refine ⟨x, s₁, _, hread, hserve, h₁.serve hserve, ?_, ?_, ?_, ?_, ?_, ?_, ⟨_, hflights⟩,
    ⟨s₁.serveFirst f slot out [], rfl, ?_⟩⟩
  · rw [hx.value, hfr.replicas, hfr.labelOf, hfr.engine, hproxy, hslots.updateCache, plainOf,
      (hslots.readable slot (by simp)).decrypt]
    rfl
  · show cache.waiting = _
    rw [hx.waiting, hfr.replicas, hfr.labelOf, hproxy, hslots.updateCache]
  · show (s₁.proxy.withCache cache).plain = _
    rw [Proxy.plain, Proxy.plain, Proxy.withCache_engine, hfr.engine, Proxy.withCache_storage,
      hproxy, hslots.contents]
  · exact hfr.trans (Proxy.frame_withCache _ _)
  · rw [hs₁]
  · rw [hs₁]
  · show Function.update s₁.flights c _ = _
    rw [hflights, Function.update_idem]

/-- Alone, such a batch is read, served and written back by admitted steps. -/
theorem Visit.admitted {s s₁ s₂ : Consumers} {c : Nat} {slot : BatchSlot}
    {rest : List (Operation × Promise)} {x : Str} (h : Visit s c slot rest x s₁ s₂)
    (hidle : ∀ c, s.flights c = none) :
    ∃ s₃, Run AdmittedStep s [.read c [slot], .serve c slot x, .write c] s₃ ∧ Running s₃ ∧
      (∀ c', s₃.flights c' = none) ∧ s₃.queues = s₂.queues ∧ s₃.enqueued = s₂.enqueued ∧
      Proxy.Frame s₂.proxy s₃.proxy := by
  obtain ⟨cipher, hflights₁⟩ := h.reading
  obtain ⟨f, htodo, hflights₂⟩ := h.served
  have hadm : s.Admits (.read c [slot]) := by
    intro c' g hg
    rw [hidle c'] at hg
    cases hg
  -- serving the only operation overlaps with nothing
  have hadm₁ : s₁.Admits (.serve c slot x) := by
    intro _
    rw [hflights₁]
    constructor
    · intro g hg
      rw [Function.update_self] at hg
      cases hg
      simp
    · intro c' g hc hg
      rw [Function.update_of_ne hc, hidle c'] at hg
      cases hg
  have hf : s₂.flights c = some f := by rw [hflights₂, Function.update_self]
  have hwrite := Interleaves.write hf htodo
  refine ⟨_, ((Run.single ⟨h.read, hadm⟩).snoc ⟨h.serve, hadm₁⟩).snoc ⟨hwrite, trivial⟩,
    h.running.write hwrite, fun c' => ?_, rfl, rfl, Proxy.frame_withStorage _ _⟩
  show Function.update s₂.flights c none c' = none
  rw [hflights₂, Function.update_idem]
  by_cases hc : c' = c
  · subst hc
    rw [Function.update_self]
  · rw [Function.update_of_ne hc, hidle c']

namespace Proxy

/-! ## Two consumers

A single key with one replica, and batches of one operation. -/

/-- A proxy with batches of one operation. -/
def solo : Proxy := { blank with securityBatchSize := 1, storageBatchSize := 1 }

/-- The put, and the get, of the runs below. -/
def putV : Operation := ⟨['k'], ['v']⟩
def getK : Operation := ⟨['k'], []⟩

theorem solo_counts {st : Proxy} (h : solo.init singleKey 1 (1 / 2) firstStrings = .ok st) :
    st.keyToNumberOfReplicas = ((∅ : UnorderedMap Nat).insert ['k'] 1).insert ['d'] 1 := by
  have hm : (solo.init singleKey 1 (1 / 2) firstStrings).map keyToNumberOfReplicas
      = .ok (((∅ : UnorderedMap Nat).insert ['k'] 1).insert ['d'] 1) := by decide +kernel
  rw [h] at hm
  exact Except.ok.inj hm

/-- One consumer serves the put and writes it back, then the other serves the
get: the steps are admitted, and the get sees the put. -/
theorem completedPuts_visible_solo : ∃ st slot x slot' x' s,
    solo.init singleKey 1 (1 / 2) firstStrings = .ok st ∧
    Run AdmittedStep { proxy := st } [.enqueue 0 putV 0, .read 0 [slot], .serve 0 slot x, .write 0,
      .enqueue 1 getK 1, .read 1 [slot'], .serve 1 slot' x', .write 1] s ∧
    CompletedPutsVisible [.enqueue 0 putV 0, .read 0 [slot], .serve 0 slot x, .write 0,
      .enqueue 1 getK 1, .read 1 [slot'], .serve 1 slot' x', .write 1] := by
  have hfresh : solo.Fresh := ⟨rfl, rfl, rfl, rfl⟩
  have hkeys : (singleKey.items ++ [solo.dummyKey]).Nodup := by decide
  obtain ⟨st, hinit, h⟩ := @completedPuts_visible solo singleKey 1 (1 / 2) firstStrings hfresh rfl
    hkeys firstStrings_roundTrips
  obtain ⟨hcons, hengine, hk⟩ := singleKey_consistent hfresh rfl rfl hinit (solo_counts hinit)
  have hv : st.encryptionEngine.RoundTrips putV.value := by
    rw [hengine]
    exact ⟨Evp.padding.encrypt [] [] ['v'], by decide +kernel, by decide +kernel⟩
  -- the put is served alone
  set s₁ := Consumers.enqueue { proxy := st } 0 putV with hs₁
  have hq₁ : s₁.queues 0 = [(putV, 0)] := rfl
  have hlive₁ : 0 < s₁.proxy.replicas putV.key := by
    show 0 < st.replicas ['k']
    omega
  have hrun₁ : Running s₁ := hcons.toSound.running.enqueue fun _ => hv
  have hstep₁ : AdmittedStep { proxy := st } (.enqueue 0 putV 0) s₁ := ⟨.enqueue, fun _ => hv⟩
  obtain ⟨x, s₂, s₃, hvisit⟩ := hrun₁.visit rfl hq₁ hlive₁
  obtain ⟨s₄, hput, hrun₄, hidle₄, hqueues₄, hnext₄, hfr₄⟩ := hvisit.admitted fun _ => rfl
  have hnext : s₄.enqueued = 1 := hnext₄.trans hvisit.enqueued
  -- and then the get
  set s₅ := s₄.enqueue 1 getK with hs₅
  have hget : getK.value ≠ [] → s₄.proxy.encryptionEngine.RoundTrips getK.value := fun hc =>
    absurd rfl hc
  have hq₅ : s₅.queues 1 = [(getK, 1)] := by
    simp [hs₅, Consumers.enqueue, hqueues₄, hvisit.queues, hnext, hs₁]
  have hlive₅ : 0 < s₅.proxy.replicas getK.key := by
    show 0 < s₄.proxy.replicas ['k']
    rw [hfr₄.replicas, hvisit.frame.replicas]
    exact hlive₁
  have hrun₅ : Running s₅ := hrun₄.enqueue hget
  have hstep₅ : AdmittedStep s₄ (.enqueue 1 getK 1) s₅ := by
    have hstep : AdmittedStep s₄ (.enqueue 1 getK s₄.enqueued) s₅ := ⟨.enqueue, hget⟩
    rwa [hnext] at hstep
  obtain ⟨x', s₆, s₇, hvisit'⟩ := hrun₅.visit (hidle₄ 1) hq₅ hlive₅
  obtain ⟨s₈, hgot, -⟩ := hvisit'.admitted hidle₄
  have hall := (((Run.single hstep₁).append hput).append (Run.single hstep₅)).append hgot
  exact ⟨st, _, x, _, x', s₈, hinit, hall,
    (h (singleKey_distinctNames (solo_counts hinit)) _ _ hall).1⟩

/-- The other consumer reads the key's label before the put is written back:
the put's promise is fulfilled, and a get enqueued after that is answered with
the initial value. -/
theorem completed_put_hidden : ∃ st slot slot' s,
    solo.init singleKey 1 (1 / 2) firstStrings = .ok st ∧
    Run Interleaves { proxy := st } [.enqueue 0 putV 0, .read 0 [slot], .serve 0 slot ['v'],
      .enqueue 1 getK 1, .read 1 [slot'], .serve 1 slot' ['a']] s ∧
    ¬ CompletedPutsVisible [.enqueue 0 putV 0, .read 0 [slot], .serve 0 slot ['v'],
      .enqueue 1 getK 1, .read 1 [slot'], .serve 1 slot' ['a']] := by
  obtain ⟨st, hinit, hplain⟩ : ∃ st, solo.init singleKey 1 (1 / 2) firstStrings = .ok st ∧
      st.plain (st.labelOf ['k'] 0) = ['a'] := exists_ok_of_decide (by decide +kernel)
  have hfresh : solo.Fresh := ⟨rfl, rfl, rfl, rfl⟩
  obtain ⟨hcons, hengine, hk⟩ := singleKey_consistent hfresh rfl rfl hinit (solo_counts hinit)
  have hv : st.encryptionEngine.RoundTrips putV.value := by
    rw [hengine]
    exact ⟨Evp.padding.encrypt [] [] ['v'], by decide +kernel, by decide +kernel⟩
  -- the first consumer reads the label and serves the put
  set s₁ := Consumers.enqueue { proxy := st } 0 putV with hs₁
  have hq₁ : s₁.queues 0 = [(putV, 0)] := rfl
  have hlive₁ : 0 < s₁.proxy.replicas putV.key := by
    show 0 < st.replicas ['k']
    omega
  have hrun₁ : Running s₁ := hcons.toSound.running.enqueue fun _ => hv
  obtain ⟨x, s₂, s₃, hvisit⟩ := hrun₁.visit rfl hq₁ hlive₁
  have hx : x = ['v'] := by
    rw [hvisit.value, value, Waiting.delivered_of_write (v := ['v']) rfl hlive₁]
    rfl
  -- then the second one reads it, and nothing is pending any more
  set s₄ := s₃.enqueue 1 getK with hs₄
  have hq₄ : s₄.queues 1 = [(getK, 1)] := by
    simp [hs₄, Consumers.enqueue, hvisit.queues, hvisit.enqueued, hs₁]
  have hlive₄ : 0 < s₄.proxy.replicas getK.key := by
    show 0 < s₃.proxy.replicas ['k']
    rw [hvisit.frame.replicas]
    exact hlive₁
  have hidle₄ : s₄.flights 1 = none := by
    obtain ⟨f, -, hflights⟩ := hvisit.served
    show s₃.flights 1 = none
    rw [hflights]
    rfl
  have hrun₄ : Running s₄ := hvisit.running.enqueue fun hc => absurd rfl hc
  obtain ⟨x', s₅, s₆, hvisit'⟩ := hrun₄.visit hidle₄ hq₄ hlive₄
  have hx' : x' = ['a'] := by
    have hwait : s₄.proxy.updateCache.waiting ['k'] 0 = none := by
      show s₃.proxy.updateCache.waiting ['k'] 0 = none
      rw [hvisit.waiting, Waiting.after_apply, if_pos ⟨rfl, rfl⟩]
    rw [hvisit'.value, value, Waiting.delivered_of_read rfl]
    show (s₃.proxy.updateCache.waiting ['k'] 0).getD (s₃.proxy.plain (s₃.proxy.labelOf ['k'] 0)) = _
    rw [show s₃.proxy.updateCache.waiting ['k'] 0 = none from hwait, hvisit.plain,
      hvisit.frame.labelOf]
    exact hplain
  subst hx hx'
  have hstep₁ : Interleaves { proxy := st } (.enqueue 0 putV 0) s₁ := .enqueue
  have hstep₄ : Interleaves s₃ (.enqueue 1 getK 1) s₄ := by
    have hstep : Interleaves s₃ (.enqueue 1 getK s₃.enqueued) s₄ := .enqueue
    rwa [hvisit.enqueued] at hstep
  refine ⟨st, _, _, s₆, hinit, (((((Run.single hstep₁).snoc hvisit.read).snoc hvisit.serve).snoc
    hstep₄).snoc hvisit'.read).snoc hvisit'.serve, fun h => ?_⟩
  -- no put of the initial value was ever enqueued
  rcases h 0 2 3 5 putV 0 1 ['v'] ['a'] ⟨0, rfl⟩ (by decide) ⟨0, _, rfl, rfl⟩ ⟨1, rfl⟩ (by decide)
    ⟨1, _, rfl, rfl⟩ with hy | ⟨i, -, p, -, ⟨c, hc⟩, -⟩
  · exact absurd hy (by decide)
  · have hmem := List.mem_of_getElem? hc
    simp [putV, getK] at hmem

end Proxy

end Pancake
