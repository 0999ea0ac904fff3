import Pancake.Accounting

/-!
# The consumer, pass by pass

`consumerPass` makes a whole pass of `consumer_thread` one computation, with
counters that are integers and a queue that knows what will have arrived at
each look. A pass that the thread makes step by step, with the `push`es of
other threads in between, is a possible outcome of that computation: for the
arrivals that the `push`es between its looks amount to, and for counters of
which the thread's are the remainders modulo `2 ^ 32`.
-/

namespace Pancake

/-! ## Looks and arrivals -/

/-- What had yet to arrive before an event, look by look, if `later` had after
it. -/
def ThreadEvent.before (later : Nat → List Queued) : ThreadEvent → Nat → List Queued
  | .arrive p => fun
    | 0 => p :: later 0
    | i + 1 => later (i + 1)
  | .read | .look => fun
    | 0 => []
    | i + 1 => later i
  | _ => later

/-- `q` is the queue of the thread `s`, when `later` has yet to arrive: the
last operations that wait may not have been looked at. -/
structure OpQueue.Shows (q : OpQueue) (s : ConsumerThread) (later : Nat → List Queued) : Prop where
  waiting : ∃ unseen, s.queue.items = q.pending ++ unseen ∧ q.arrivals 0 = unseen ++ later 0
  later : ∀ i, q.arrivals (i + 1) = later (i + 1)
  popping : ∀ k, s.place = .popping k → q.pending ≠ []

namespace OpQueue.Shows

variable {q : OpQueue} {s s' : ConsumerThread} {later : Nat → List Queued}

/-- The thread moves on, but not to a `pop`. -/
theorem move (h : q.Shows s later) (hq : s'.queue = s.queue) (hp : ∀ k, s'.place ≠ .popping k) :
    q.Shows s' later where
  waiting := by
    rw [hq]
    exact h.waiting
  later := h.later
  popping k hk := absurd hk (hp k)

theorem arrive {p : Queued} (h : q.Shows s ((ThreadEvent.arrive p).before later)) :
    q.Shows { s with queue := s.queue.pushMove p } later where
  waiting := by
    obtain ⟨unseen, hitems, harrivals⟩ := h.waiting
    refine ⟨unseen ++ [p], ?_, ?_⟩
    · rw [Queue.items_pushMove, hitems, List.append_assoc]
    · rw [harrivals, List.append_assoc]
      rfl
  later := h.later
  popping := h.popping

/-- The next look sees all that waits. -/
theorem pending_look (h : q.Shows s (ThreadEvent.look.before later)) :
    q.look.pending = s.queue.items := by
  obtain ⟨unseen, hitems, harrivals⟩ := h.waiting
  rw [hitems, OpQueue.look, harrivals]
  exact congrArg (q.pending ++ ·) (List.append_nil unseen)

theorem look (h : q.Shows s (ThreadEvent.look.before later)) (hq : s'.queue = s.queue)
    (hp : ∀ k, s'.place = .popping k → s.queue.items ≠ []) : q.look.Shows s' later where
  waiting := ⟨[], by rw [hq, h.pending_look, List.append_nil], h.later 0⟩
  later i := h.later (i + 1)
  popping k hk := by
    rw [h.pending_look]
    exact hp k hk

/-- A `pop` takes what is looked at first. -/
theorem pop (h : q.Shows s later) {k : Nat} (hk : s.place = .popping k) {p : Queued}
    {rest : Queue Queued} (hpop : s.queue.pop = some (p, rest)) :
    ∃ pending, q.pending = p :: pending ∧
      ∀ s' : ConsumerThread, s'.queue = rest → (∀ k, s'.place ≠ .popping k) →
        ({ q with pending := pending } : OpQueue).Shows s' later := by
  obtain ⟨unseen, hitems, harrivals⟩ := h.waiting
  obtain ⟨x, pending, hx⟩ := List.exists_cons_of_ne_nil (h.popping k hk)
  rw [Queue.pop_eq_some.mp hpop, hx, List.cons_append] at hitems
  obtain ⟨rfl, hrest⟩ := List.cons.inj hitems
  refine ⟨pending, hx, fun s' hq hp => ⟨⟨unseen, ?_, harrivals⟩, h.later, ?_⟩⟩
  · rw [hq, hrest]
  · exact fun k hk => absurd hk (hp k)

end OpQueue.Shows

/-! ## Counters -/

/-- The consumer `c` is the thread `s`, when `later` has yet to arrive. -/
structure Consumer.Shows (c : Consumer) (s : ConsumerThread) (later : Nat → List Queued) :
    Prop where
  queue : c.queue.Shows s later
  serviced : BitVec.ofInt 32 c.operationsServiced = s.operationsServiced
  previous : BitVec.ofInt 32 c.previousTotalOperations = s.previousTotalOperations
  equal : c.operationsServiced = c.previousTotalOperations
  storageBatch : c.storageBatch = s.storageBatch

/-- The counters after a pass that found `n` more operations. -/
theorem Consumer.Shows.account {c : Consumer} {s t : ConsumerThread}
    {before later : Nat → List Queued} (h : c.Shows s before) {q : OpQueue} (hq : q.Shows t later) (n : Nat)
    (hserviced : t.operationsServiced = BitVec.ofNat 32 n + s.operationsServiced)
    (hequal : t.operationsServiced = t.previousTotalOperations) :
    (if n ≠ 0 then
        { c with queue := q
                 storageBatch := t.storageBatch
                 operationsServiced := c.operationsServiced + n
                 previousTotalOperations := n + c.operationsServiced }
      else { c with queue := q, storageBatch := t.storageBatch } : Consumer).Shows t later := by
  have hcounter : BitVec.ofInt 32 (c.operationsServiced + n) = t.operationsServiced := by
    rw [hserviced, BitVec.ofInt_add, h.serviced, BitVec.ofInt_natCast, BitVec.add_comm]
  split
  · refine ⟨hq, hcounter, ?_, Int.add_comm _ _, rfl⟩
    show BitVec.ofInt 32 (n + c.operationsServiced) = _
    rw [Int.add_comm, hcounter, hequal]
  · rename_i hn
    obtain rfl : n = 0 := not_not.mp hn
    rw [Nat.cast_zero, Int.add_zero] at hcounter
    refine ⟨hq, hcounter, ?_, h.equal, rfl⟩
    show BitVec.ofInt 32 c.previousTotalOperations = _
    rw [← h.equal, hcounter, hequal]

/-- A thread between two passes is a consumer. -/
theorem Consumer.exists_shows {s : ConsumerThread}
    (heq : s.operationsServiced = s.previousTotalOperations) (hp : ∀ k, s.place ≠ .popping k)
    (later : Nat → List Queued) : ∃ c : Consumer, c.Shows s later := by
  have hcounter : BitVec.ofInt 32 s.operationsServiced.toInt = s.operationsServiced :=
    BitVec.ofInt_toInt
  exact ⟨{ queue := { pending := s.queue.items, arrivals := later }
           operationsServiced := s.operationsServiced.toInt
           previousTotalOperations := s.operationsServiced.toInt
           storageBatch := s.storageBatch },
    ⟨⟨[], (List.append_nil _).symm, rfl⟩, fun _ => rfl, fun k hk => absurd hk (hp k)⟩,
    hcounter, hcounter.trans heq, rfl, rfl⟩

namespace Proxy

/-! ## Steps with possible choices -/

/-- What `drawing real` draws from. -/
def drawnFrom (st : Proxy) (real : Bool) : Distribution :=
  if real then st.realDistribution else st.fakeDistribution

/-- The coin and the draws fall as they can, and `size()` has not come round
to 0 when the queue is looked at. -/
def Chooses (st : Proxy) (s : ConsumerThread) : ThreadEvent → Prop
  | .coin side => st.isTrueDistribution.Possible side
  | .draw key => ∀ real k, s.place = .drawing real k → (st.drawnFrom real).sample.Possible key
  | .look => s.queue.items.length < 2 ^ 32
  | _ => True

/-- The steps of a consumer thread of the proxy. -/
def ThreadSteps (st : Proxy) (s : ConsumerThread) (e : ThreadEvent) (s' : ConsumerThread) : Prop :=
  s.Steps st.securityBatchSize st.storageBatchSize e s' ∧ st.Chooses s e

/-! ## What is left of a pass -/

/-- A slot for which `drawing real` draws. -/
def drawnSlot (st : Proxy) (real : Bool) (q : OpQueue) : Sampler (OpQueue × Slot) :=
  (st.drawnFrom real).sample.map fun key => (q, ⟨⟨key, []⟩, none⟩)

/-- A slot after the queue was looked at. -/
def seenSlot (st : Proxy) (q : OpQueue) : Sampler (OpQueue × Slot) :=
  match q.pending with
  | [] => st.drawnSlot true q
  | (operation, promise) :: rest => .done ({ q with pending := rest }, ⟨operation, some promise⟩)

theorem securitySlot_eq (st : Proxy) (q : OpQueue) : st.securitySlot q =
    st.isTrueDistribution.bind fun side =>
      if side then st.seenSlot q.look else st.drawnSlot false q :=
  rfl

/-- `k` more slots and `n` more security batches. -/
def slotsAndBatches (st : Proxy) (n k : Nat) (q : OpQueue) (b : Batch) :
    Sampler (OpQueue × Batch) :=
  (st.securitySlots k q b).bind fun s => st.securityBatches n s.1 s.2

/-- What is left of a pass from a place in it, with `n` more calls. -/
def restOfPass (st : Proxy) (n : Nat) (q : OpQueue) (b : Batch) : Place → Sampler (OpQueue × Batch)
  | .slot k => st.slotsAndBatches n k q b
  | .looking k => (st.seenSlot q.look).bind fun r => st.slotsAndBatches n k r.1 (b.push r.2)
  | .drawing real k => (st.drawnSlot real q).bind fun r => st.slotsAndBatches n k r.1 (b.push r.2)
  | .popping k => (st.seenSlot q).bind fun r => st.slotsAndBatches n k r.1 (b.push r.2)
  | _ => st.securityBatches n q b

variable {st : Proxy} {s s' : ConsumerThread} {q : OpQueue} {b : Batch} {n k : Nat}
  {r : OpQueue × Batch}

theorem possible_slot {side : Bool} (hside : st.isTrueDistribution.Possible side)
    (h : (st.restOfPass n q b (if side then .looking k else .drawing false k)).Possible r) :
    (st.restOfPass n q b (.slot (k + 1))).Possible r := by
  obtain ⟨x, hx, hr⟩ : ∃ x, (if side then st.seenSlot q.look else st.drawnSlot false q).Possible x ∧
      (st.slotsAndBatches n k x.1 (b.push x.2)).Possible r := by
    cases side <;> exact Sampler.possible_bind.mp h
  have hslot : (st.securitySlot q).Possible x := by
    rw [securitySlot_eq]
    exact Sampler.possible_bind.mpr ⟨side, hside, hx⟩
  obtain ⟨y, hy, hr⟩ := Sampler.possible_bind.mp hr
  exact Sampler.possible_bind.mpr ⟨y, Sampler.possible_bind.mpr ⟨x, hslot, hy⟩, hr⟩

/-- From a queue that shows `s` before `before` arrives there is one that shows
`s'` before `later` does; and what can come out of the rest of the pass from
`s'` can come out from `s`, with `m` more calls. -/
def Leads (st : Proxy) (m : Nat) (s : ConsumerThread) (before : Nat → List Queued)
    (s' : ConsumerThread) (later : Nat → List Queued) : Prop :=
  ∀ q : OpQueue, q.Shows s before → ∃ q' : OpQueue, q'.Shows s' later ∧
    ∀ n r, (st.restOfPass n q' s'.storageBatch s'.place).Possible r →
      (st.restOfPass (m + n) q s.storageBatch s.place).Possible r

theorem Leads.refl (st : Proxy) (s : ConsumerThread) (later : Nat → List Queued) :
    st.Leads 0 s later s later := by
  intro q hq
  refine ⟨q, hq, fun n r hr => ?_⟩
  rw [Nat.zero_add]
  exact hr

theorem Leads.trans {m m' : Nat} {s'' : ConsumerThread} {before later after : Nat → List Queued}
    (h : st.Leads m s before s' later) (h' : st.Leads m' s' later s'' after) :
    st.Leads (m + m') s before s'' after := by
  intro q hq
  obtain ⟨q', hq', hr'⟩ := h q hq
  obtain ⟨q'', hq'', hr''⟩ := h' q' hq'
  refine ⟨q'', hq'', fun n r hr => ?_⟩
  rw [Nat.add_assoc]
  exact hr' _ _ (hr'' _ _ hr)

/-- **A step** of a pass that does not end it. -/
theorem leads_step {e : ThreadEvent} (hs : st.ThreadSteps s e s') (hin : s.place.InPass)
    (he : e ≠ .leave) (later : Nat → List Queued) :
    st.Leads ([e].count .call) s (e.before later) s' later := by
  obtain ⟨hs, hchoice⟩ := hs
  have hquiet : ∀ {e : ThreadEvent} {n : Nat}, e ≠ .call → [e].count .call + n = n := by
    intro e n hne
    rw [List.count_eq_zero.mpr (by simpa using hne.symm), Nat.zero_add]
  intro q hq
  cases hs.takes with
  | arrive p => exact ⟨q, hq.arrive, fun n r hr => by simpa using hr⟩
  | call hp _ =>
      refine ⟨q, hq.move rfl (by simp), fun n r hr => ?_⟩
      rw [hp, List.count_singleton_self, Nat.add_comm]
      exact hr
  | coin side hp =>
      refine ⟨q, hq.move rfl (by cases side <;> simp), fun n r hr => ?_⟩
      rw [hp]
      exact possible_slot hchoice (by simpa using hr)
  | look hp =>
      have hsize : s.queue.size = 0 ↔ s.queue.items = [] := s.queue.size_eq_zero hchoice
      refine ⟨q.look, hq.look rfl fun k hk hitems => ?_, fun n r hr => ?_⟩
      · simp [hsize.mpr hitems] at hk
      · rw [hp]
        by_cases hzero : s.queue.size = 0
        · have hpending : q.look.pending = [] := hq.pending_look.trans (hsize.mp hzero)
          have hseen : st.seenSlot q.look = st.drawnSlot true q.look := by
            rw [seenSlot, hpending]
          simp only [hzero, if_true] at hr
          rw [hquiet (by simp), restOfPass, hseen]
          exact hr
        · simp only [hzero, if_false] at hr
          rw [hquiet (by simp)]
          exact hr
  | draw key hp =>
      refine ⟨q, hq.move rfl (by simp), fun n r hr => ?_⟩
      rw [hp, hquiet (by simp)]
      refine Sampler.possible_bind.mpr ⟨(q, ⟨⟨key, []⟩, none⟩), ?_, hr⟩
      exact Sampler.possible_map.mpr ⟨key, hchoice _ _ hp, rfl⟩
  | pop hp hpop =>
      obtain ⟨pending, hpending, hshows⟩ := hq.pop hp hpop
      refine ⟨_, hshows _ rfl (by simp), fun n r hr => ?_⟩
      rw [hp, hquiet (by simp), restOfPass, seenSlot, hpending]
      exact hr
  | back hp =>
      refine ⟨q, hq.move rfl (by simp), fun n r hr => ?_⟩
      rw [hp, hquiet (by simp)]
      exact hr
  | leave _ _ => exact absurd rfl he
  | enter _ hp | test _ hp | read hp | execute hp =>
      rw [hp] at hin
      exact hin.elim

/-- **The steps of a pass** that do not end it. -/
theorem leads_run {m : Nat} {size : CInt} {start : ConsumerThread} {during : List ThreadEvent}
    (hpass : ConsumerThread.InPass st.securityBatchSize size start m s)
    (h : Run st.ThreadSteps s during s') (hleave : .leave ∉ during) (later : Nat → List Queued) :
    ∃ before, st.Leads (during.count .call) s before s' later := by
  refine h.invariant (I := fun during s' => .leave ∉ during → ∀ later, ∃ before,
    st.Leads (during.count .call) s before s' later) ?_ ?_ hleave later
  · intro _ later
    exact ⟨later, .refl st s later⟩
  · intro during s' e s'' hrun ih hs hleave later
    rw [List.mem_append, List.mem_singleton, not_or] at hleave
    have hin := (hpass.run (hrun.mono And.left) hleave.1).place
    obtain ⟨before, hbefore⟩ := ih hleave.1 (e.before later)
    rw [List.count_append]
    exact ⟨before, hbefore.trans (leads_step hs hin (Ne.symm hleave.2) later)⟩

/-! ## Whole passes -/

/-- **A pass of the thread** is a possible one of the consumer: whatever has
yet to arrive after it, something had before it such that every consumer that
is the thread before the pass can become one that is the thread after it. -/
theorem consumerPass_of_run {s t : ConsumerThread} {during : List ThreadEvent}
    (heq : s.operationsServiced = s.previousTotalOperations)
    (h : Run st.ThreadSteps s (.read :: during ++ [.leave]) t) (hleave : .leave ∉ during)
    (hlt : s.queue.items.length < 2 ^ 31) (later : Nat → List Queued) :
    ∃ before, ∀ c : Consumer, c.Shows s before →
      ∃ c', (st.consumerPass c).Possible c' ∧ c'.Shows t later := by
  obtain ⟨u, hu, hlast⟩ := Run.snoc_iff.mp h
  obtain ⟨v, hread, hduring⟩ := Run.cons_iff.mp hu
  have hstart := ConsumerThread.inPass_read hread.1 heq
  have hpass := hstart.run (hduring.mono And.left) hleave
  obtain ⟨before, hleads⟩ := leads_run hstart hduring hleave later
  cases hlast.1.takes with
  | leave hp hge =>
  cases hread.1.takes with
  | read _ =>
  have hcalls := (hpass.calls_eq hp hge).1
  rw [s.queue.toInt_size.mpr hlt] at hcalls
  have hcount : during.count .call = s.queue.items.length := by omega
  obtain ⟨hequal, hserviced⟩ := hpass.account hp hge
  refine ⟨ThreadEvent.look.before before, fun c hc => ?_⟩
  obtain ⟨q, hq, hrest⟩ := hleads c.queue.look (hc.queue.look rfl (by simp))
  have hbatches : (st.securityBatches s.queue.items.length c.queue.look c.storageBatch).Possible
      (q, u.account.storageBatch) := by
    have := hrest 0 (q, u.account.storageBatch) (by rw [hp, u.storageBatch_account]; rfl)
    rw [hcount] at this
    rw [hc.storageBatch]
    exact this
  have hgained : ((c.queue.look.pending.length : Int) + c.operationsServiced
      - c.previousTotalOperations).toNat = s.queue.items.length := by
    rw [hc.queue.pending_look, hc.equal]
    omega
  have hshows := hc.account (q := q) (t := { u.account with place := .filling })
    (hq.move u.queue_account (by simp)) s.queue.items.length ?_ hequal
  · refine ⟨_, ?_, hshows⟩
    rw [consumerPass, hgained]
    refine Sampler.possible_map.mpr ⟨_, hbatches, ?_⟩
    rw [hc.queue.pending_look]
  · rw [← s.queue.counted]
    exact hserviced (by rw [s.queue.toInt_size.mpr hlt]; exact Int.natCast_nonneg _)

end Proxy

end Pancake
