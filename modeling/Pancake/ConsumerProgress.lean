import Pancake.Accounting
import Pancake.AnsweredOnce

/-!
# What becomes of a queued operation

A consumer thread takes operations off its queue in the order they came in and
answers them a batch at a time. Nothing is lost on the way, but an operation
that has been taken off is answered only when the storage batch is full. Where
one security batch does not fill it and nobody else calls, that is never.

As in the accounts, `b` is `security_batch_size_` and `c` is
`storage_batch_size_`.
-/

namespace Pancake

namespace ConsumerThread

/-! ## In order -/

/-- The operations taken off the queue and not answered yet. `storage_batch`
is gone outside the outer loop's body. -/
def waiting (s : ConsumerThread) : List Queued :=
  match s.place with
  | .top | .returned => []
  | _ => s.storageBatch.popped

/-- What a step answers: the operations of the batch that is executed. -/
def answers (s : ConsumerThread) : ThreadEvent → List Queued
  | .execute => s.storageBatch.popped
  | _ => []

/-- A thread, and what it has answered so far. -/
structure Served where
  thread : ConsumerThread := {}
  answered : List Queued := []

/-- The three vectors of a batch fit together. -/
structure Whole (b : Batch) : Prop where
  isTrues : b.isTrues.length = b.operations.length
  promises : b.promises.length = (selected b.isTrues b.operations).length

theorem Whole.nil : Whole ⟨[], [], []⟩ := ⟨rfl, rfl⟩

theorem selected_push {b : Batch} (h : Whole b) (x : Slot) :
    selected (b.push x).isTrues (b.push x).operations
      = selected b.isTrues b.operations ++ x.popped.map Prod.fst := by
  rw [Batch.push, selected_append h.isTrues]
  cases hp : x.promise with
  | none => simp [Slot.popped, hp, selected]
  | some p => simp [Slot.popped, hp, selected]

theorem Whole.push {b : Batch} (h : Whole b) (x : Slot) : Whole (b.push x) where
  isTrues := by simp [Batch.push, h.isTrues]
  promises := by
    rw [selected_push h, List.length_append, ← h.promises, Batch.push, List.length_append,
      List.length_map, Slot.popped, List.length_map]

/-- A slot's operation comes last. -/
theorem popped_push {b : Batch} (h : Whole b) (x : Slot) :
    (b.push x).popped = b.popped ++ x.popped := by
  rw [Batch.popped, selected_push h, Batch.push, List.zip_append h.promises.symm]
  congr 1
  cases hp : x.promise with
  | none => simp [Slot.popped, hp]
  | some p => simp [Slot.popped, hp]

/-- In the body of the outer loop. -/
theorem waiting_eq {s : ConsumerThread} (htop : s.place ≠ .top) (hreturned : s.place ≠ .returned) :
    s.waiting = s.storageBatch.popped := by
  cases hp : s.place with
  | top => exact absurd hp htop
  | returned => exact absurd hp hreturned
  | _ => simp only [waiting, hp]

/-- What a slot has popped goes behind what waits. -/
theorem waiting_push {s : ConsumerThread} (h : Whole s.storageBatch) (x : Slot) (q : Queue Queued)
    (k : Nat) :
    waiting { s with queue := q, storageBatch := s.storageBatch.push x, place := .slot k }
      = s.storageBatch.popped ++ x.popped :=
  popped_push h x

/-- The steps of the thread itself, with `finished_` as given. -/
def own (finished : Bool) : ThreadEvent → Bool
  | .arrive _ => false
  | .enter f | .test f => f == finished
  | _ => true

/-- The security batches that the pass has yet to make, the one it is making
included. -/
def turns (s : ConsumerThread) : Nat := (s.gained.toInt - s.i.toInt).toNat

/-- How many steps the thread takes at most until it returns, if it sees
`finished_` from now on. -/
def work (b : Nat) (s : ConsumerThread) : Nat :=
  match s.place with
  | .returned => 0
  | .top => 1
  | .executing => 2
  | .filling => 3
  | .creating => 4 + s.turns * (3 * b + 2)
  | .slot k => 4 + (s.turns - 1) * (3 * b + 2) + (3 * k + 1)
  | .looking k => 4 + (s.turns - 1) * (3 * b + 2) + (3 * k + 3)
  | .drawing _ k | .popping k => 4 + (s.turns - 1) * (3 * b + 2) + (3 * k + 2)
  | .pass => 5 + s.queue.size.toInt.toNat * (3 * b + 2)

section Work

variable {b c : Nat} {s s' : ConsumerThread} {e : ThreadEvent}

theorem turns_call (hlt : s.i.slt s.gained) : 1 ≤ s.turns := by
  rw [BitVec.slt_iff_toInt_lt] at hlt
  rw [turns]
  omega

/-- Returning from a call takes a turn off. -/
theorem turns_back (h : s.Balanced b) (hp : s.place = .slot 0) :
    turns { s with i := s.i + 1, place := .creating } = s.turns - 1 := by
  obtain ⟨n, start, calls, hpass⟩ := h.inPass (by rw [hp]; trivial)
  obtain ⟨returned, hcalls, hindex⟩ := hpass.index
  have hbound := hpass.bound
  have hn : n.toInt < 2 ^ 31 := BitVec.toInt_lt
  rw [hp] at hcalls
  have hcalls : calls = returned + 1 := hcalls
  have hi : s.i.toInt = returned := by
    rw [hindex]
    exact toInt_counter.mpr (by omega)
  have hi' : (s.i + 1).toInt = returned + 1 := by
    rw [hindex, show (BitVec.ofNat 32 returned + 1 : CInt) = BitVec.ofNat 32 (returned + 1) by
      rw [BitVec.ofNat_add]; rfl]
    exact_mod_cast toInt_counter.mpr (by omega)
  show (s.gained.toInt - (s.i + 1).toInt).toNat = (s.gained.toInt - s.i.toInt).toNat - 1
  rw [hi, hi']
  omega

/-- **A step** that neither starts a batch nor goes on filling it is one less
to take. -/
theorem work_step (h : s.Balanced b) (hs : s.Steps b c e s') {finished : Bool}
    (hown : own finished e = true) (henter : e ≠ .enter false) (hpass : s'.place ≠ .pass) :
    s'.work b < s.work b := by
  cases hs.takes with
  | arrive p => cases hown
  | enter f hp =>
      cases f with
      | false => exact absurd rfl henter
      | true =>
          show 0 < s.work b
          simp [work, hp]
  | test f hp =>
      by_cases hshort : s.storageBatch.operations.length < c ∧ f = false
      · rw [if_pos hshort] at hpass
        exact absurd rfl hpass
      · simp only [work, hp, if_neg hshort]
        omega
  | read hp =>
      have hturns : turns { s with totalOperations := s.queue.size + s.operationsServiced
                                   i := 0
                                   place := .creating } = s.queue.size.toInt.toNat := by
        rw [turns, gained, ← h.equal, BitVec.add_sub_cancel]
        simp
      simp only [work, hp, hturns]
      omega
  | call hp hlt =>
      have hturns := turns_call hlt
      have hsplit : s.turns * (3 * b + 2) = (s.turns - 1) * (3 * b + 2) + (3 * b + 2) := by
        rw [← Nat.succ_mul]
        congr 1
        omega
      have hsame : turns { s with place := .slot b } = s.turns := rfl
      simp only [work, hp, hsame]
      omega
  | coin side hp =>
      have hsame : ∀ place, turns { s with place := place } = s.turns := fun _ => rfl
      cases side <;> simp only [work, hp, hsame, if_true, Bool.false_eq_true, if_false] <;> omega
  | look hp =>
      have hsame : ∀ place, turns { s with place := place } = s.turns := fun _ => rfl
      by_cases hsize : s.queue.size = 0
      · simp only [work, hp, hsame, if_pos hsize]
        omega
      · simp only [work, hp, hsame, if_neg hsize]
        omega
  | draw key hp =>
      have hsame : ∀ batch place, turns { s with storageBatch := batch, place := place }
          = s.turns := fun _ _ => rfl
      simp only [work, hp, hsame]
      omega
  | pop hp _ =>
      have hsame : ∀ q batch place,
          turns { s with queue := q, storageBatch := batch, place := place } = s.turns :=
        fun _ _ _ => rfl
      simp only [work, hp, hsame]
      omega
  | back hp =>
      simp only [work, hp, turns_back h hp]
      omega
  | leave hp _ =>
      simp only [work, hp]
      omega
  | execute hp =>
      simp only [work, hp]
      omega

/-- **The thread never waits**: until it returns it has a step to take. -/
theorem exists_step (h : s.Balanced b) (hreturned : s.place ≠ .returned) (c : Nat)
    (finished : Bool) : ∃ e s', own finished e = true ∧ s.Steps b c e s' := by
  suffices hstep : ∃ e, own finished e = true ∧ (s.step b c e).isSome by
    obtain ⟨e, hown, hsome⟩ := hstep
    obtain ⟨s', hs'⟩ := Option.isSome_iff_exists.mp hsome
    exact ⟨e, s', hown, hs'⟩
  cases hp : s.place with
  | returned => exact absurd hp hreturned
  | top => exact ⟨.enter finished, by simp [own], by simp [step, hp]⟩
  | filling => exact ⟨.test finished, by simp [own], by simp [step, hp]⟩
  | pass => exact ⟨.read, rfl, by simp [step, hp]⟩
  | creating =>
      by_cases hlt : s.i.slt s.gained
      · exact ⟨.call, rfl, by simp [step, hp, hlt]⟩
      · exact ⟨.leave, rfl, by simp [step, hp, hlt]⟩
  | slot k =>
      cases k with
      | zero => exact ⟨.back, rfl, by simp [step, hp]⟩
      | succ k => exact ⟨.coin true, rfl, by simp [step, hp]⟩
  | looking k => exact ⟨.look, rfl, by simp [step, hp]⟩
  | drawing real k => exact ⟨.draw [], rfl, by simp [step, hp]⟩
  | popping k =>
      cases hpop : s.queue.pop with
      | none => exact absurd (Queue.pop_eq_none.mp hpop) (h.popping k hp)
      | some r => exact ⟨.pop, rfl, by simp [step, hp, hpop]⟩
  | executing => exact ⟨.execute, rfl, by simp [step, hp]⟩

end Work

/-! ## Where one security batch fills the storage batch -/

/-- The batch between the calls of `create_security_batch`, and in one. -/
structure Packed (b c : Nat) (s : ConsumerThread) : Prop where
  fits : Whole s.storageBatch
  slots : s.place.slotsLeft ≤ b
  inCall : s.place.openCalls = 1 → b ≤ s.storageBatch.operations.length + s.place.slotsLeft
  between : s.place = .filling ∨ s.place = .pass ∨ s.place = .creating →
    s.storageBatch.operations.length = 0 ∨ b ≤ s.storageBatch.operations.length
  short : s.place = .pass → s.storageBatch.operations.length < c
  none : b = 0 → s.storageBatch.operations.length = 0

section Packed

variable {b c : Nat} {s s' : ConsumerThread} {e : ThreadEvent}

/-- Where the batch stays as it is. -/
theorem Packed.move (h : s.Packed b c) {place : Place} (hslots : place.slotsLeft ≤ b)
    (hcall : place.openCalls = 1 → b ≤ s.storageBatch.operations.length + place.slotsLeft)
    (hbetween : place = .filling ∨ place = .pass ∨ place = .creating →
      s.storageBatch.operations.length = 0 ∨ b ≤ s.storageBatch.operations.length)
    (hshort : place = .pass → s.storageBatch.operations.length < c) :
    Packed b c { s with place := place } :=
  ⟨h.fits, hslots, hcall, hbetween, hshort, h.none⟩

/-- A slot more. -/
theorem Packed.push (h : s.Packed b c) {k : Nat} (hleft : s.place.slotsLeft = k + 1)
    (hopen : s.place.openCalls = 1) (x : Slot) (q : Queue Queued) :
    Packed b c { s with queue := q, storageBatch := s.storageBatch.push x, place := .slot k } := by
  have hslots := h.slots
  have hcall := h.inCall hopen
  rw [hleft] at hslots hcall
  refine ⟨h.fits.push x, ?_, fun _ => ?_, by simp, by simp, fun hb => by omega⟩
  · show k ≤ b
    omega
  · show b ≤ (s.storageBatch.push x).operations.length + k
    rw [length_push]
    omega

theorem Packed.step (h : s.Packed b c) (hs : s.Steps b c e s') : s'.Packed b c := by
  cases hs.takes with
  | arrive p => exact ⟨h.fits, h.slots, h.inCall, h.between, h.short, h.none⟩
  | enter f hp =>
      refine ⟨.nil, ?_, ?_, fun _ => .inl rfl, ?_, fun _ => rfl⟩
      · cases f <;> exact Nat.zero_le _
      · cases f <;> intro hopen <;> cases hopen
      · cases f <;> intro hpass <;> cases hpass
  | test f hp =>
      have hbetween := h.between (.inl hp)
      split
      · rename_i hshort
        exact h.move (Nat.zero_le _) (fun hopen => by cases hopen) (fun _ => hbetween)
          fun _ => hshort.1
      · exact h.move (Nat.zero_le _) (fun hopen => by cases hopen) (fun _ => hbetween)
          fun hpass => by cases hpass
  | read hp =>
      have hbetween := h.between (.inr (.inl hp))
      exact ⟨h.fits, Nat.zero_le _, fun hopen => (by cases hopen), fun _ => hbetween,
        fun hpass => (by cases hpass), h.none⟩
  | call hp _ =>
      exact h.move le_rfl (fun _ => Nat.le_add_left _ _) (by simp) (by simp)
  | coin side hp =>
      have hslots := h.slots
      have hcall := h.inCall (by rw [hp]; rfl)
      rw [hp] at hslots hcall
      cases side <;> exact h.move hslots (fun _ => hcall) (by simp) (by simp)
  | look hp =>
      have hslots := h.slots
      have hcall := h.inCall (by rw [hp]; rfl)
      rw [hp] at hslots hcall
      split <;> exact h.move hslots (fun _ => hcall) (by simp) (by simp)
  | draw key hp => exact h.push (by rw [hp]; rfl) (by rw [hp]; rfl) _ s.queue
  | pop hp _ => exact h.push (by rw [hp]; rfl) (by rw [hp]; rfl) _ _
  | back hp =>
      have hcall := h.inCall (by rw [hp]; rfl)
      rw [hp] at hcall
      exact ⟨h.fits, Nat.zero_le _, fun hopen => (by cases hopen), fun _ => .inr hcall,
        fun hpass => (by cases hpass), h.none⟩
  | leave hp _ =>
      have hbetween := h.between (.inr (.inr hp))
      have hbatch := s.storageBatch_account
      refine ⟨?_, Nat.zero_le _, fun hopen => (by cases hopen), fun _ => ?_,
        fun hpass => (by cases hpass), fun hb => ?_⟩
      · show Whole s.account.storageBatch
        rw [hbatch]
        exact h.fits
      · show s.account.storageBatch.operations.length = 0 ∨ _
        rw [hbatch]
        exact hbetween
      · show s.account.storageBatch.operations.length = 0
        rw [hbatch]
        exact h.none hb
  | execute hp =>
      exact h.move (Nat.zero_le _) (fun hopen => by cases hopen) (by simp) (by simp)

theorem packed_of_run {q : Queue Queued} {es : List ThreadEvent}
    (hr : Run (Steps b c) { queue := q } es s) : s.Packed b c :=
  hr.invariant (I := fun _ s => s.Packed b c)
    ⟨.nil, Nat.zero_le _, fun hopen => (by cases hopen), by simp, by simp, fun _ => rfl⟩
    fun _ h hs => h.step hs

/-- What waits is in the batch. -/
theorem length_pos_of_waiting (h : s.waiting ≠ []) : 0 < s.storageBatch.operations.length := by
  by_contra hzero
  have hnil : s.storageBatch.operations = [] := List.length_eq_zero_iff.mp (by omega)
  have hpopped : s.storageBatch.popped = [] := by
    rw [Batch.popped, hnil, selected_nil, List.zip_nil_left]
  refine h ?_
  rw [waiting]
  split
  · rfl
  · rfl
  · exact hpopped

/-- It waits until the batch is executed. -/
theorem waiting_step (hp : s.Packed b c) (hs : s.Steps b c e s') (he : e ≠ .execute)
    (h : s.waiting ≠ []) : s'.waiting ≠ [] := by
  have htop : s.place ≠ .top := fun hc => h (by simp only [waiting, hc])
  have hreturned : s.place ≠ .returned := fun hc => h (by simp only [waiting, hc])
  have hpopped : s.storageBatch.popped ≠ [] := by rwa [← waiting_eq htop hreturned]
  cases hs.takes with
  | arrive p => exact h
  | enter f hp => exact absurd hp htop
  | execute hp => exact absurd rfl he
  | read _ | call _ _ | back _ =>
      rw [waiting_eq (by simp) (by simp)]
      exact hpopped
  | test _ _ | coin _ _ | look _ =>
      rw [waiting_eq (by simp only; split <;> simp) (by simp only; split <;> simp)]
      exact hpopped
  | draw key _ =>
      rw [waiting_push hp.fits]
      exact List.append_ne_nil_of_left_ne_nil hpopped _
  | pop _ _ =>
      rw [waiting_push hp.fits]
      exact List.append_ne_nil_of_left_ne_nil hpopped _
  | leave _ _ =>
      show s.account.storageBatch.popped ≠ []
      rwa [s.storageBatch_account]

/-- **Soon answered**: where one security batch fills the storage batch, what
waits is answered within `work` steps of the thread, and these it can take. -/
theorem answered_soon (hbc : c ≤ b) (hb : s.Balanced b) (hp : s.Packed b c) (hw : s.waiting ≠ [])
    {es : List ThreadEvent} (hr : Run (Steps b c) s es s')
    (hown : ∀ e ∈ es, own false e = true) (hexecute : .execute ∉ es) :
    es.length ≤ s.work b ∧ ∃ e s'', own false e = true ∧ s'.Steps b c e s'' := by
  have hall := hr.invariant (I := fun es s' => (∀ e ∈ es, own false e = true) → .execute ∉ es →
      es.length + s'.work b ≤ s.work b ∧ s'.Balanced b ∧ s'.Packed b c ∧ s'.waiting ≠ [])
    (fun _ _ => ⟨(Nat.zero_add _).le, hb, hp, hw⟩) (fun {as t e u} _ ih hs hown hexecute => by
      obtain ⟨hle, hb, hp, hw⟩ := ih (fun e he => hown e (List.mem_append_left _ he))
        fun he => hexecute (List.mem_append_left _ he)
      have hlast := hown e (by simp)
      have hne : e ≠ .execute := fun he => hexecute (by simp [he])
      have hw' := waiting_step hp hs hne hw
      have hp' := hp.step hs
      -- a batch that is still to be filled is empty
      have hpass : u.place ≠ .pass := by
        intro hc
        have hpos := length_pos_of_waiting hw'
        have hshort := hp'.short hc
        have := hp'.between (.inr (.inl hc))
        omega
      have henter : e ≠ .enter false := by
        rintro rfl
        cases hs.takes with
        | enter _ htop => exact hw (by simp only [waiting, htop])
      have hlt := work_step hb hs hlast henter hpass
      refine ⟨?_, hb.step hs, hp', hw'⟩
      rw [List.length_append, List.length_singleton]
      omega)
  obtain ⟨hle, hb', -, hw'⟩ := hall hown hexecute
  refine ⟨by omega, exists_step hb' ?_ c false⟩
  intro hc
  exact hw' (by simp only [waiting, hc])

end Packed

/-! ## Where it does not -/

/-- The thread goes round the inner loop with part of a batch, and its queue
is empty. -/
structure Stranded (c : Nat) (s : ConsumerThread) : Prop where
  place : s.place = .filling ∨ s.place = .pass ∨ s.place = .creating
  empty : s.queue.items = []
  short : s.storageBatch.operations.length < c
  equal : s.operationsServiced = s.previousTotalOperations
  idle : s.place = .creating → s.i = 0 ∧ s.gained = 0

/-- It keeps going round. -/
theorem Stranded.step {b c : Nat} {s s' : ConsumerThread} {e : ThreadEvent} (h : s.Stranded c)
    (hs : s.Steps b c e s') (hown : own false e = true) : s'.Stranded c ∧ e ≠ .execute := by
  have hplace := h.place
  cases hs.takes with
  | arrive p => cases hown
  | test f hp =>
      obtain rfl : f = false := by simpa [own] using hown
      rw [if_pos ⟨h.short, rfl⟩]
      exact ⟨⟨.inr (.inl rfl), h.empty, h.short, h.equal, fun hc => (by cases hc)⟩, by simp⟩
  | read hp =>
      refine ⟨⟨.inr (.inr rfl), h.empty, h.short, h.equal, fun _ => ⟨rfl, ?_⟩⟩, by simp⟩
      have hsize : s.queue.size = 0 := by
        rw [Queue.size_eq_zero _ (by rw [h.empty]; exact Nat.two_pow_pos 32)]
        exact h.empty
      show s.queue.size + s.operationsServiced - s.previousTotalOperations = 0
      rw [hsize, ← h.equal, BitVec.add_sub_cancel]
  | call hp hlt =>
      obtain ⟨hi, hgained⟩ := h.idle hp
      rw [hi, hgained] at hlt
      cases hlt
  | leave hp _ =>
      obtain ⟨hi, -⟩ := h.idle hp
      have haccount : s.account = s := by rw [account, if_neg (not_not.mpr hi)]
      rw [haccount]
      exact ⟨⟨.inl rfl, h.empty, h.short, h.equal, fun hc => (by cases hc)⟩, by simp⟩
  | enter _ hp | coin _ hp | look hp | draw _ hp | pop hp _ | back hp | execute hp =>
      rw [hp] at hplace
      simp at hplace

/-- Slots whose coins all show a fake access. -/
theorem fakes_run {b c k : Nat} : ∀ {s : ConsumerThread}, s.place = .slot k →
    Whole s.storageBatch → ∃ es s', Run (Steps b c) s es s' ∧
      s' = { s with storageBatch := s'.storageBatch, place := .slot 0 } ∧
      s'.storageBatch.operations.length = s.storageBatch.operations.length + k ∧
      s'.storageBatch.popped = s.storageBatch.popped := by
  induction k with
  | zero =>
      intro s hp _
      exact ⟨[], s, .nil, by rw [← hp], rfl, rfl⟩
  | succ k ih =>
      intro s hp hwhole
      let u : ConsumerThread :=
        { s with storageBatch := s.storageBatch.push ⟨⟨[], []⟩, none⟩, place := .slot k }
      have hcoin : s.Steps b c (.coin false) { s with place := .drawing false k } := by
        simp [Steps, step, hp]
      have hdraw : Steps b c { s with place := .drawing false k } (.draw []) u := rfl
      obtain ⟨es, s', hr, hs', hlength, hpopped⟩ := ih (s := u) rfl (hwhole.push _)
      refine ⟨[.coin false] ++ [.draw []] ++ es, s',
        ((Run.single hcoin).append (.single hdraw)).append hr, hs', ?_, ?_⟩
      · rw [hlength, length_push]
        omega
      · rw [hpopped, popped_push hwhole]
        exact List.append_nil _

/-- **A call on its own**, taken off the queue, is stranded where a security
batch does not fill the storage batch. -/
theorem exists_stranded {b c : Nat} (hb : 0 < b) (hbc : b < c) :
    ∃ es s, Run (Steps b c) {} es s ∧ s.Stranded c ∧ s.waiting ≠ [] := by
  obtain ⟨k, rfl⟩ : ∃ k, b = k + 1 := ⟨b - 1, by omega⟩
  let p : Queued := (⟨['k'], []⟩, 0)
  let s : ConsumerThread :=
    { totalOperations := 1, storageBatch := ⟨[p.1], [true], [p.2]⟩, place := .slot k }
  let t : ConsumerThread := { queue := ({} : Queue Queued).pushMove p, place := .filling }
  have harrive : Run (Steps (k + 1) c) {} [.enter false, .arrive p] t := .of_foldlM (fun h => h) rfl
  have htest : t.Steps (k + 1) c (.test false) { t with place := .pass } := by
    have hc : t.storageBatch.operations.length < c ∧ false = false := ⟨by simp [t]; omega, rfl⟩
    show some { t with place := if _ then _ else _ } = _
    rw [if_pos hc]
  let v : ConsumerThread := { t with totalOperations := 1, place := .creating }
  have hread : Steps (k + 1) c { t with place := .pass } .read v := rfl
  have hcall : v.Steps (k + 1) c .call { v with place := .slot (k + 1) } :=
    if_pos (show v.i.slt v.gained = true by decide)
  have hcoin : Steps (k + 1) c { v with place := .slot (k + 1) } (.coin true)
      { v with place := .looking k } := rfl
  have hlook : Steps (k + 1) c { v with place := .looking k } .look
      { v with place := .popping k } := by
    show some { v with place := if _ then _ else _ } = _
    rw [if_neg (show ¬ v.queue.size = 0 by decide)]
  have hpop : Steps (k + 1) c { v with place := .popping k } .pop s := by
    have hfront : v.queue.pop = some (p, {}) := Queue.pop_eq_some.mpr rfl
    simp only [Steps, step, hfront]
    rfl
  obtain ⟨es, u, hrest, hu, hlength, hpopped⟩ :=
    fakes_run (b := k + 1) (c := c) (s := s) rfl ⟨rfl, rfl⟩
  let w : ConsumerThread := { u with i := 1, place := .creating }
  have hback : u.Steps (k + 1) c .back w := by
    simp only [w]
    rw [hu]
    rfl
  have hleave : w.Steps (k + 1) c .leave
      { w with operationsServiced := 1, previousTotalOperations := 1, place := .filling } := by
    have hend : ¬ w.i.slt w.gained = true := by
      simp only [w, gained]
      rw [hu]
      show ¬ (1 : CInt).slt (1 - 0) = true
      decide
    have haccount : w.account
        = { w with operationsServiced := 1, previousTotalOperations := 1 } := by
      simp only [w, account]
      rw [hu]
      rfl
    show (if _ then _ else _) = _
    rw [if_neg hend, haccount]
  refine ⟨_, _, ((((((((harrive.append (.single htest)).append (.single hread)).append
    (.single hcall)).append (.single hcoin)).append (.single hlook)).append (.single hpop)).append
    hrest).append (.single hback)).append (.single hleave), ?_, ?_⟩
  · refine ⟨.inl rfl, by simp only [w]; rw [hu], ?_, rfl, fun hc => by cases hc⟩
    show u.storageBatch.operations.length < c
    rw [hlength]
    show 1 + k < c
    omega
  · show u.storageBatch.popped ≠ []
    rw [hpopped]
    exact List.cons_ne_nil _ _

/-- **When a call needs no company.** An operation taken off the queue is
answered after some steps of the thread alone, in every run and whatever the
coins show, exactly if one security batch fills the storage batch (or security
batches are empty and nothing is taken off). Else it may wait for ever. -/
theorem answered_alone_iff {b c : Nat} :
    (∀ q es s, Run (Steps b c) { queue := q } es s → s.waiting ≠ [] →
      ∃ n, ∀ es' s', Run (Steps b c) s es' s' → (∀ e ∈ es', own false e = true) →
        .execute ∉ es' → es'.length ≤ n ∧ ∃ e s'', own false e = true ∧ s'.Steps b c e s'') ↔
    b = 0 ∨ c ≤ b := by
  constructor
  · intro h
    by_contra hneither
    obtain ⟨es, s, hr, hstranded, hw⟩ := exists_stranded (b := b) (c := c) (by omega) (by omega)
    obtain ⟨n, hn⟩ := h _ es s hr hw
    -- it goes on for any number of steps
    have hlong : ∀ m, ∃ es' s', Run (Steps b c) s es' s' ∧ (∀ e ∈ es', own false e = true) ∧
        .execute ∉ es' ∧ es'.length = m ∧ s'.Stranded c := by
      intro m
      induction m with
      | zero => exact ⟨[], s, .nil, by simp, by simp, rfl, hstranded⟩
      | succ m ih =>
          obtain ⟨es', s', hr', hown, hexecute, rfl, hs'⟩ := ih
          obtain ⟨-, e, s'', he, hstep⟩ := hn es' s' hr' hown hexecute
          obtain ⟨hs'', hne⟩ := hs'.step hstep he
          refine ⟨es' ++ [e], s'', .snoc hr' hstep, ?_, ?_, by simp, hs''⟩
          · intro x hx
            rcases List.mem_append.mp hx with hx | hx
            · exact hown x hx
            · rwa [List.mem_singleton.mp hx]
          · simp [hexecute, hne.symm]
    obtain ⟨es', s', hr', hown, hexecute, hlength, -⟩ := hlong (n + 1)
    have := (hn es' s' hr' hown hexecute).1
    omega
  · intro h q es s hr hw
    have hp := packed_of_run hr
    have hbc : c ≤ b := by
      rcases h with hb | hbc
      · have hpos := length_pos_of_waiting hw
        have hzero := hp.none hb
        omega
      · exact hbc
    exact ⟨s.work b, fun es' s' hr' hown hexecute =>
      answered_soon hbc (balanced_of_run hr) hp hw hr' hown hexecute⟩

/-! ## When the proxy is closed -/

end ConsumerThread

end Pancake
