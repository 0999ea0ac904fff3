import Pancake.Queue
import Pancake.Consumer

/-!
# What a consumer's counters count

`consumer_thread` makes a security batch for each operation it finds its queue
to have gained, and tells that from three counters: the length of the queue,
`operations_serviced` and `previous_total_operations`. The second counts
security batches, and a security batch takes any number of operations off the
queue. Here the thread goes one step at a time, with `push`es of other threads
between any two of them and its `int`s wrapping around.

`b` is `security_batch_size_` and `c` is `storage_batch_size_`.
-/

namespace Pancake

/-- Where `consumer_thread` is. In `create_security_batch`, `k` is the number
of turns its loop has left, after the one it is in if it is in one. -/
inductive Place where
  /-- at the outer `while` -/
  | top
  /-- at the inner `while` -/
  | filling
  /-- at `total_operations = ...` -/
  | pass
  /-- at the `for` -/
  | creating
  /-- at the `for` of `create_security_batch` -/
  | slot (k : Nat)
  /-- at `op_queue->size() == 0` -/
  | looking (k : Nat)
  /-- at `real_distribution_.sample()` or at `fake_distribution_.sample()` -/
  | drawing (real : Bool) (k : Nat)
  /-- at `op_queue->pop()` -/
  | popping (k : Nat)
  /-- at `execute_batch` -/
  | executing
  | returned
  deriving DecidableEq

namespace Place

/-- The slots that the current call of `create_security_batch` has yet to add. -/
def slotsLeft : Place → Nat
  | slot k => k
  | looking k | drawing _ k | popping k => k + 1
  | _ => 0

/-- The calls of `create_security_batch` that have yet to return. -/
def openCalls : Place → Nat
  | slot _ | looking _ | drawing _ _ | popping _ => 1
  | _ => 0

/-- The places between the reading of the queue's length and the `if`. -/
def InPass : Place → Prop
  | creating | slot _ | looking _ | drawing _ _ | popping _ => True
  | _ => False

end Place

/-- The locals of `consumer_thread`, and the queue it shares. -/
structure ConsumerThread where
  queue : Queue Queued := {}
  operationsServiced : CInt := 0
  previousTotalOperations : CInt := 0
  totalOperations : CInt := 0
  i : CInt := 0
  storageBatch : Batch := ⟨[], [], []⟩
  place : Place := .top

/-- A step: another thread's `push`, or the consumer's next one, with what it
reads of `finished_`, the side of the coin or the key drawn. -/
inductive ThreadEvent where
  | arrive (p : Queued)
  | enter (finished : Bool)
  | test (finished : Bool)
  | read
  | call
  | coin (side : Bool)
  | look
  | draw (key : Str)
  | pop
  | back
  | leave
  | execute
  deriving DecidableEq

namespace ConsumerThread

/-- The operations the queue has gained. -/
def gained (s : ConsumerThread) : CInt := s.totalOperations - s.previousTotalOperations

/-- `if (i != 0)` and what follows. -/
def account (s : ConsumerThread) : ConsumerThread :=
  if s.i ≠ 0 then
    { s with operationsServiced := s.operationsServiced + s.i
             previousTotalOperations := s.totalOperations }
  else s

/-- One step, if it is the thread's next. -/
def step (b c : Nat) (s : ConsumerThread) : ThreadEvent → Option ConsumerThread
  | .arrive p => some { s with queue := s.queue.pushMove p }
  | .enter finished => match s.place with
    | .top => some { s with storageBatch := ⟨[], [], []⟩
                            place := if finished then .returned else .filling }
    | _ => none
  | .test finished => match s.place with
    | .filling => some { s with place :=
        if s.storageBatch.operations.length < c ∧ finished = false then .pass else .executing }
    | _ => none
  | .read => match s.place with
    | .pass => some { s with totalOperations := s.queue.size + s.operationsServiced
                             i := 0
                             place := .creating }
    | _ => none
  | .call => match s.place with
    | .creating => if s.i.slt s.gained then some { s with place := .slot b } else none
    | _ => none
  | .coin side => match s.place with
    | .slot (k + 1) => some { s with place := if side then .looking k else .drawing false k }
    | _ => none
  | .look => match s.place with
    | .looking k => some { s with place :=
        if s.queue.size = 0 then .drawing true k else .popping k }
    | _ => none
  | .draw key => match s.place with
    | .drawing _ k => some { s with storageBatch := s.storageBatch.push ⟨⟨key, []⟩, none⟩
                                    place := .slot k }
    | _ => none
  | .pop => match s.place with
    | .popping k => s.queue.pop.map fun r =>
        { s with queue := r.2
                 storageBatch := s.storageBatch.push ⟨r.1.1, some r.1.2⟩
                 place := .slot k }
    | _ => none
  | .back => match s.place with
    | .slot 0 => some { s with i := s.i + 1, place := .creating }
    | _ => none
  | .leave => match s.place with
    | .creating => if s.i.slt s.gained then none else some { s.account with place := .filling }
    | _ => none
  | .execute => match s.place with
    | .executing => some { s with place := .top }
    | _ => none

/-- The steps of the thread, and of those that push on its queue. -/
def Steps (b c : Nat) (s : ConsumerThread) (e : ThreadEvent) (s' : ConsumerThread) : Prop :=
  s.step b c e = some s'

/-- The steps, one by one. -/
inductive Takes (b c : Nat) (s : ConsumerThread) : ThreadEvent → ConsumerThread → Prop
  | arrive (p : Queued) : Takes b c s (.arrive p) { s with queue := s.queue.pushMove p }
  | enter (finished : Bool) (h : s.place = .top) : Takes b c s (.enter finished)
      { s with storageBatch := ⟨[], [], []⟩
               place := if finished then .returned else .filling }
  | test (finished : Bool) (h : s.place = .filling) : Takes b c s (.test finished)
      { s with place :=
        if s.storageBatch.operations.length < c ∧ finished = false then .pass else .executing }
  | read (h : s.place = .pass) : Takes b c s .read
      { s with totalOperations := s.queue.size + s.operationsServiced
               i := 0
               place := .creating }
  | call (h : s.place = .creating) (hlt : s.i.slt s.gained) :
      Takes b c s .call { s with place := .slot b }
  | coin (side : Bool) {k : Nat} (h : s.place = .slot (k + 1)) : Takes b c s (.coin side)
      { s with place := if side then .looking k else .drawing false k }
  | look {k : Nat} (h : s.place = .looking k) : Takes b c s .look
      { s with place := if s.queue.size = 0 then .drawing true k else .popping k }
  | draw (key : Str) {real : Bool} {k : Nat} (h : s.place = .drawing real k) :
      Takes b c s (.draw key)
        { s with storageBatch := s.storageBatch.push ⟨⟨key, []⟩, none⟩
                 place := .slot k }
  | pop {k : Nat} {p : Queued} {q : Queue Queued} (h : s.place = .popping k)
      (hpop : s.queue.pop = some (p, q)) : Takes b c s .pop
        { s with queue := q
                 storageBatch := s.storageBatch.push ⟨p.1, some p.2⟩
                 place := .slot k }
  | back (h : s.place = .slot 0) : Takes b c s .back { s with i := s.i + 1, place := .creating }
  | leave (h : s.place = .creating) (hge : ¬ s.i.slt s.gained) :
      Takes b c s .leave { s.account with place := .filling }
  | execute (h : s.place = .executing) : Takes b c s .execute { s with place := .top }

theorem Steps.takes {b c : Nat} {s s' : ConsumerThread} {e : ThreadEvent} (hs : s.Steps b c e s') :
    s.Takes b c e s' := by
  cases e with
  | arrive p =>
      cases hs
      exact .arrive p
  | call =>
      simp only [Steps, step] at hs
      split at hs
      · rename_i hp
        split at hs
        · rename_i hlt
          cases hs
          exact .call hp hlt
        · cases hs
      · cases hs
  | leave =>
      simp only [Steps, step] at hs
      split at hs
      · rename_i hp
        split at hs
        · cases hs
        · rename_i hge
          cases hs
          exact .leave hp hge
      · cases hs
  | pop =>
      simp only [Steps, step] at hs
      split at hs
      · rename_i hp
        obtain ⟨⟨p, q⟩, hpop, rfl⟩ := Option.map_eq_some_iff.mp hs
        exact .pop hp hpop
      · cases hs
  | enter _ | test _ | read | coin _ | look | draw _ | back | execute =>
      simp only [Steps, step] at hs
      split at hs
      · rename_i hp
        cases hs
        constructor
        exact hp
      · cases hs

/-! ## Within a pass -/

/-- A pass that started at `start`, read the length `n` and has made `calls`
calls of `create_security_batch`. -/
structure InPass (b : Nat) (n : CInt) (start : ConsumerThread) (calls : Nat) (s : ConsumerThread) :
    Prop where
  place : s.place.InPass
  equal : s.operationsServiced = s.previousTotalOperations
  serviced : s.operationsServiced = start.operationsServiced
  total : s.totalOperations = n + s.operationsServiced
  index : ∃ returned, calls = returned + s.place.openCalls ∧ s.i = BitVec.ofNat 32 returned
  bound : (calls : Int) ≤ max 0 n.toInt
  length : s.storageBatch.operations.length + s.place.slotsLeft
    = start.storageBatch.operations.length + b * calls
  untouched : calls = 0 → s.storageBatch = start.storageBatch

theorem length_push (batch : Batch) (x : Slot) :
    (batch.push x).operations.length = batch.operations.length + 1 := by
  simp [Batch.push]

namespace InPass

variable {b c calls : Nat} {n : CInt} {start s s' : ConsumerThread}

theorem gained (h : InPass b n start calls s) : s.gained = n := by
  rw [ConsumerThread.gained, h.total, ← h.equal]
  exact BitVec.add_sub_cancel _ _

/-- Moving on within a call. -/
theorem move (h : InPass b n start calls s) {place : Place} (hin : place.InPass)
    (hopen : place.openCalls = s.place.openCalls) (hleft : place.slotsLeft = s.place.slotsLeft) :
    InPass b n start calls { s with place := place } where
  place := hin
  equal := h.equal
  serviced := h.serviced
  total := h.total
  index := by
    obtain ⟨returned, hcalls, hindex⟩ := h.index
    exact ⟨returned, hcalls.trans (by rw [hopen]), hindex⟩
  bound := h.bound
  length := by
    rw [hleft]
    exact h.length
  untouched := h.untouched

/-- Adding the slot of a turn. -/
theorem push (h : InPass b n start calls s) {k : Nat} (hopen : s.place.openCalls = 1)
    (hleft : s.place.slotsLeft = k + 1) (x : Slot) (q : Queue Queued) :
    InPass b n start calls
      { s with queue := q, storageBatch := s.storageBatch.push x, place := .slot k } where
  place := trivial
  equal := h.equal
  serviced := h.serviced
  total := h.total
  index := by
    obtain ⟨returned, hcalls, hindex⟩ := h.index
    exact ⟨returned, hcalls.trans (by rw [hopen]; rfl), hindex⟩
  bound := h.bound
  length := by
    have hlength := h.length
    rw [hleft] at hlength
    rw [length_push, ← hlength, Place.slotsLeft]
    omega
  untouched hzero := by
    obtain ⟨returned, hcalls, -⟩ := h.index
    omega

/-- Calling `create_security_batch` once more. -/
theorem call (h : InPass b n start calls s) (hp : s.place = .creating) (hlt : s.i.slt s.gained) :
    InPass b n start (calls + 1) { s with place := .slot b } := by
  obtain ⟨returned, hcalls, hindex⟩ := h.index
  have hbound := h.bound
  have hlength := h.length
  rw [hp] at hcalls hlength
  obtain rfl : calls = returned := hcalls
  have hn : n.toInt < 2 ^ 31 := BitVec.toInt_lt
  rw [h.gained, hindex, BitVec.slt_iff_toInt_lt, toInt_counter.mpr (by omega)] at hlt
  exact
    { place := trivial
      equal := h.equal
      serviced := h.serviced
      total := h.total
      index := ⟨calls, rfl, hindex⟩
      bound := by
        push_cast
        omega
      length := by
        show s.storageBatch.operations.length + b = _
        rw [Nat.mul_add, ← Nat.add_assoc, ← hlength]
        simp [Place.slotsLeft]
      untouched := fun hzero => by omega }

/-- Returning from it. -/
theorem back (h : InPass b n start calls s) (hp : s.place = .slot 0) :
    InPass b n start calls { s with i := s.i + 1, place := .creating } where
  place := trivial
  equal := h.equal
  serviced := h.serviced
  total := h.total
  index := by
    obtain ⟨returned, hcalls, hindex⟩ := h.index
    rw [hp] at hcalls
    refine ⟨returned + 1, hcalls, ?_⟩
    rw [hindex, BitVec.ofNat_add]
    rfl
  bound := h.bound
  length := by
    have hlength := h.length
    rw [hp] at hlength
    exact hlength
  untouched := h.untouched

/-- **A step of a pass** that does not end it. -/
theorem step (h : InPass b n start calls s) {e : ThreadEvent} (hs : s.Steps b c e s')
    (he : e ≠ .leave) : InPass b n start (calls + [e].count .call) s' := by
  have hplace := h.place
  cases hs.takes with
  | arrive p =>
      exact ⟨h.place, h.equal, h.serviced, h.total, h.index, h.bound, h.length, h.untouched⟩
  | call hp hlt => exact h.call hp hlt
  | coin side hp =>
      cases side <;> exact h.move trivial (by rw [hp]; rfl) (by rw [hp]; rfl)
  | look hp =>
      split <;> exact h.move trivial (by rw [hp]; rfl) (by rw [hp]; rfl)
  | draw key hp => exact h.push (by rw [hp]; rfl) (by rw [hp]; rfl) _ s.queue
  | pop hp _ => exact h.push (by rw [hp]; rfl) (by rw [hp]; rfl) _ _
  | back hp => exact h.back hp
  | leave _ _ => exact absurd rfl he
  | enter _ hp | test _ hp | read hp | execute hp =>
      -- places outside the pass
      rw [hp] at hplace
      exact hplace.elim

/-- **The pass**, as far as it got. -/
theorem run (h : InPass b n start calls s) {during : List ThreadEvent}
    (hr : Run (Steps b c) s during s') (hleave : .leave ∉ during) :
    InPass b n start (calls + during.count .call) s' := by
  refine hr.invariant (I := fun during s' => .leave ∉ during →
    InPass b n start (calls + during.count .call) s') (fun _ => h) ?_ hleave
  intro during s' e s'' _ ih hs hleave
  rw [List.mem_append, List.mem_singleton, not_or] at hleave
  rw [List.count_append, ← Nat.add_assoc]
  exact (ih hleave.1).step hs (Ne.symm hleave.2)

/-- When the `for` ends, as many calls have been made as the length read says. -/
theorem calls_eq (h : InPass b n start calls s) (hp : s.place = .creating)
    (hge : ¬ s.i.slt s.gained) : (calls : Int) = max 0 n.toInt ∧ s.i.toInt = calls := by
  obtain ⟨returned, hcalls, hindex⟩ := h.index
  have hbound := h.bound
  rw [hp] at hcalls
  obtain rfl : calls = returned := hcalls
  have hn : n.toInt < 2 ^ 31 := BitVec.toInt_lt
  have hi : s.i.toInt = calls := by
    rw [hindex]
    exact toInt_counter.mpr (by omega)
  rw [h.gained, BitVec.slt_iff_toInt_lt, hi] at hge
  exact ⟨by omega, hi⟩

/-- **The accounts** after the `for`: both counters have grown by the length
read, or not at all if that was negative. -/
theorem account (h : InPass b n start calls s) (hp : s.place = .creating)
    (hge : ¬ s.i.slt s.gained) :
    s.account.operationsServiced = s.account.previousTotalOperations ∧
      (0 ≤ n.toInt → s.account.operationsServiced = n + start.operationsServiced) := by
  obtain ⟨hcount, hi⟩ := h.calls_eq hp hge
  rw [ConsumerThread.account]
  split
  · rename_i hne
    -- a counter that is not zero is the length read, which `total` adds
    have hzero : s.i.toInt ≠ 0 := fun hc => hne (BitVec.eq_of_toInt_eq hc)
    have hin : s.i = n := BitVec.eq_of_toInt_eq (by omega)
    have hserviced : s.operationsServiced + s.i = n + s.operationsServiced := by
      rw [hin, BitVec.add_comm]
    exact ⟨hserviced.trans h.total.symm, fun _ => by rw [← h.serviced]; exact hserviced⟩
  · rename_i heq
    rw [not_not] at heq
    refine ⟨h.equal, fun hn => ?_⟩
    have hzero : s.i.toInt = 0 := by
      rw [heq]
      rfl
    have hin : n = 0 := BitVec.eq_of_toInt_eq (show n.toInt = 0 by omega)
    rw [hin, h.serviced]
    exact (BitVec.zero_add _).symm

end InPass

theorem storageBatch_account (s : ConsumerThread) : s.account.storageBatch = s.storageBatch := by
  rw [account]
  split <;> rfl

theorem queue_account (s : ConsumerThread) : s.account.queue = s.queue := by
  rw [account]
  split <;> rfl

/-- Reading the queue's length starts a pass. -/
theorem inPass_read {b c : Nat} {s s' : ConsumerThread} (hs : s.Steps b c .read s')
    (h : s.operationsServiced = s.previousTotalOperations) :
    InPass b s.queue.size s 0 s' := by
  cases hs.takes
  exact ⟨trivial, h, rfl, rfl, ⟨0, rfl, rfl⟩, le_max_left _ _, by simp [Place.slotsLeft],
    fun _ => rfl⟩

/-- A whole pass: how the `for` was found to end. -/
theorem pass_of_run {b c : Nat} {s t : ConsumerThread} {during : List ThreadEvent}
    (h : s.operationsServiced = s.previousTotalOperations)
    (hr : Run (Steps b c) s (.read :: during ++ [.leave]) t) (hleave : .leave ∉ during) :
    ∃ u, InPass b s.queue.size s (during.count .call) u ∧ u.place = .creating ∧
      ¬ u.i.slt u.gained ∧ t = { u.account with place := .filling } := by
  obtain ⟨u, hu, hlast⟩ := Run.snoc_iff.mp hr
  obtain ⟨v, hread, hduring⟩ := Run.cons_iff.mp hu
  have hpass := (inPass_read hread h).run hduring hleave
  rw [Nat.zero_add] at hpass
  cases Steps.takes hlast with
  | leave hp hge => exact ⟨u, hpass, hp, hge, rfl⟩

/-! ## The whole run -/

/-- What holds in every state: the counters agree, a pass is well under way,
and a `pop` has something to pop. -/
structure Balanced (b : Nat) (s : ConsumerThread) : Prop where
  equal : s.operationsServiced = s.previousTotalOperations
  inPass : s.place.InPass → ∃ n start calls, InPass b n start calls s
  popping : ∀ k, s.place = .popping k → s.queue.items ≠ []

/-- Only the sight of an item leads to a `pop`, and nobody else pops. -/
theorem popping_step {b c : Nat} {s s' : ConsumerThread} {e : ThreadEvent} (hs : s.Steps b c e s')
    (h : ∀ k, s.place = .popping k → s.queue.items ≠ []) :
    ∀ k, s'.place = .popping k → s'.queue.items ≠ [] := by
  intro k hk
  cases hs.takes with
  | arrive p =>
      have := h k hk
      simp [this]
  | look _ =>
      by_cases hsize : s.queue.size = 0
      · simp [hsize] at hk
      · intro hitems
        exact hsize (by rw [s.queue.counted, show s.queue.items = [] from hitems]; rfl)
  | enter _ _ | test _ _ | coin _ _ =>
      simp only at hk
      split at hk <;> cases hk
  | read _ | call _ _ | draw _ _ | pop _ _ | back _ | leave _ _ | execute _ => cases hk

/-- **A step** of the thread, or of those that push on its queue. -/
theorem Balanced.step {b c : Nat} {s s' : ConsumerThread} {e : ThreadEvent} (h : s.Balanced b)
    (hs : s.Steps b c e s') : s'.Balanced b := by
  have hpopping := popping_step hs h.popping
  by_cases hin : s.place.InPass
  · obtain ⟨n, start, calls, hpass⟩ := h.inPass hin
    by_cases he : e = .leave
    · subst he
      cases hs.takes with
      | leave hp hge => exact ⟨(hpass.account hp hge).1, fun hin' => hin'.elim, hpopping⟩
    · have hpass' := hpass.step hs he
      exact ⟨hpass'.equal, fun _ => ⟨n, start, _, hpass'⟩, hpopping⟩
  · cases hs.takes with
    | arrive p => exact ⟨h.equal, fun hin' => absurd hin' hin, hpopping⟩
    | read _ =>
        have hpass := inPass_read hs h.equal
        exact ⟨hpass.equal, fun _ => ⟨_, _, _, hpass⟩, hpopping⟩
    | enter _ _ | test _ _ =>
        refine ⟨h.equal, fun hin' => ?_, hpopping⟩
        simp only at hin'
        split at hin' <;> exact hin'.elim
    | execute _ => exact ⟨h.equal, fun hin' => hin'.elim, hpopping⟩
    | call hp _ | coin _ hp | look hp | draw _ hp | pop hp _ | back hp | leave hp _ =>
        rw [hp] at hin
        exact absurd trivial hin

/-- **Every run** of a thread that starts with any queue. -/
theorem balanced_of_run {b c : Nat} {q : Queue Queued} {events : List ThreadEvent}
    {s : ConsumerThread} (h : Run (Steps b c) { queue := q } events s) : s.Balanced b :=
  h.invariant (I := fun _ s => s.Balanced b) ⟨rfl, fun hin => hin.elim, fun _ hp => by cases hp⟩
    fun _ hb hs => hb.step hs

/-- **One security batch per waiting operation**: at the start of any pass the
counters agree; the pass makes as many calls of `create_security_batch` as it
reads operations in the queue, and its batch grows by that many security
batches; it leaves the batch alone if it reads none; and no `pop` waits. -/
theorem accounting {b c : Nat} {q : Queue Queued} {events : List ThreadEvent} {s : ConsumerThread}
    (h : Run (Steps b c) { queue := q } events s) :
    (s.place = .pass → s.operationsServiced = s.previousTotalOperations ∧
      ∀ during t, Run (Steps b c) s (.read :: during ++ [.leave]) t → .leave ∉ during →
        t.operationsServiced = t.previousTotalOperations ∧
        (s.queue.items.length < 2 ^ 31 →
          during.count .call = s.queue.items.length ∧
          t.storageBatch.operations.length =
            s.storageBatch.operations.length + b * s.queue.items.length ∧
          (s.queue.items = [] → t.storageBatch = s.storageBatch))) ∧
    ∀ k, s.place = .popping k → s.queue.pop ≠ none := by
  have hb := balanced_of_run h
  refine ⟨fun _ => ⟨hb.equal, ?_⟩, ?_⟩
  · intro during t hr hleave
    obtain ⟨u, hpass, hp, hge, rfl⟩ := pass_of_run hb.equal hr hleave
    have hsame := u.storageBatch_account
    have hlength := hpass.length
    rw [hp] at hlength
    refine ⟨(hpass.account hp hge).1, fun hlt => ?_⟩
    have hcalls := (hpass.calls_eq hp hge).1
    rw [s.queue.toInt_size.mpr hlt] at hcalls
    have hcount : during.count .call = s.queue.items.length := by omega
    rw [hcount] at hlength
    refine ⟨hcount, by rw [← hlength, ← hsame]; rfl, fun hempty => ?_⟩
    exact hsame.trans (hpass.untouched (by rw [hcount, hempty]; rfl))
  · intro k hk hpop
    exact hb.popping k hk (Queue.pop_eq_none.mp hpop)

/-- A pass that finds one operation, which its only slot takes while another
operation arrives. -/
theorem accounting_onePass : ∃ s t : ConsumerThread,
    Run (Steps 1 1) { queue := {} } [.enter false, .arrive (⟨['k'], []⟩, 0), .test false] s ∧
    Run (Steps 1 1) s (.read :: [.call, .coin true, .look, .arrive (⟨['j'], []⟩, 1), .pop, .back]
      ++ [.leave]) t ∧
    s.operationsServiced = s.previousTotalOperations ∧
    t.operationsServiced = t.previousTotalOperations ∧ s.queue.items.length = 1 ∧
    t.storageBatch.operations.length = s.storageBatch.operations.length + 1 * 1 := by
  let s : ConsumerThread :=
    { queue := ({} : Queue Queued).pushMove (⟨['k'], []⟩, 0), place := .pass }
  let t : ConsumerThread :=
    { queue := { items := [(⟨['j'], []⟩, 1)], size := 1 }
      operationsServiced := 1
      previousTotalOperations := 1
      totalOperations := 1
      i := 1
      storageBatch := ⟨[⟨['k'], []⟩], [true], [0]⟩
      place := .filling }
  have hs : Run (Steps 1 1) { queue := {} }
      [.enter false, .arrive (⟨['k'], []⟩, 0), .test false] s := .of_foldlM (fun h => h) rfl
  have ht : Run (Steps 1 1) s
      (.read :: [.call, .coin true, .look, .arrive (⟨['j'], []⟩, 1), .pop, .back] ++ [.leave]) t := by
    apply Run.of_foldlM (fun h => h)
    simp only [List.cons_append, List.nil_append, List.foldlM_cons, List.foldlM_nil, step, s, t]
    rfl
  obtain ⟨hstart, hpass⟩ := (accounting hs).1 rfl
  obtain ⟨hend, hcount⟩ := hpass _ t ht (by decide)
  exact ⟨s, t, hs, ht, hstart, hend, rfl, (hcount (by decide)).2.1⟩

end ConsumerThread

end Pancake
