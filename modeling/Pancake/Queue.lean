import Pancake.SecurityBatch
import Pancake.Lib.Runs

/-!
# The queue

`queue<T>` of `queue.h`: a `std::queue`, and beside it the number of its items
as an atomic `int`, which wraps around. Both overloads of `push` and both of
`pop` hold the mutex throughout, so each is one step. What differs is how the
item travels: it is copied or moved in, moved out, or assigned to the caller's
argument, and `operation` is no ordinary type in that respect.
-/

namespace Pancake

/-- `int`, wrapping around. -/
abbrev CInt := BitVec 32

/-- The counter of `n` things shows `n` as long as `n` is an `int`. -/
theorem toInt_counter {n : Nat} : (BitVec.ofNat 32 n : CInt).toInt = n ↔ n < 2 ^ 31 := by
  rw [BitVec.toInt_eq_toNat_cond, BitVec.toNat_ofNat]
  split <;> omega

/-! ## How items travel -/

/-- What a new object holds that is copied or moved from another one, and what
an existing one holds once another is assigned to it. -/
class Transfer (T : Type) where
  copy : T → T
  move : T → T
  assign : T → T → T

/-- Copies and moves hold what they were made from. -/
class FaithfulCopies (T : Type) [Transfer T] : Prop where
  copy_eq : ∀ item : T, Transfer.copy item = item
  move_eq : ∀ item : T, Transfer.move item = item

/-- `operation` is copied member by member. It declares no move constructor, so
a move copies, and its `operator=` returns `*this` and assigns nothing. -/
instance : Transfer Operation where
  copy op := ⟨op.key, op.value⟩
  move op := ⟨op.key, op.value⟩
  assign target _ := target

/-- `std::shared_ptr<std::promise<std::string>>` -/
instance : Transfer Promise where
  copy p := p
  move p := p
  assign _ p := p

/-- `std::pair`, member by member. -/
instance {A B : Type} [Transfer A] [Transfer B] : Transfer (A × B) where
  copy p := (Transfer.copy p.1, Transfer.copy p.2)
  move p := (Transfer.move p.1, Transfer.move p.2)
  assign target p := (Transfer.assign target.1 p.1, Transfer.assign target.2 p.2)

instance : FaithfulCopies Queued where
  copy_eq _ := rfl
  move_eq _ := rfl

/-- Assigning a queued operation moves the promise and leaves key and value. -/
theorem assign_queued (target source : Queued) :
    Transfer.assign target source = (target.1, source.2) := rfl

/-! ## The operations -/

/-- `queue<T>`: `m_queue_`, and `size_`, which counts it. -/
structure Queue (T : Type) where
  items : List T := []
  size : CInt := 0
  counted : size = BitVec.ofNat 32 items.length := by rfl

namespace Queue

section Operations

variable {T : Type} [Transfer T]

/-- `push(const T &item)` -/
def push (q : Queue T) (item : T) : Queue T where
  items := q.items ++ [Transfer.copy item]
  size := q.size + 1
  counted := by simp [q.counted, BitVec.ofNat_add]

/-- `push(T &&item)` -/
def pushMove (q : Queue T) (item : T) : Queue T where
  items := q.items ++ [Transfer.move item]
  size := q.size + 1
  counted := by simp [q.counted, BitVec.ofNat_add]

/-- `size_--` and `m_queue_.pop()` -/
def dropFront (q : Queue T) (h : q.items ≠ []) : Queue T where
  items := q.items.tail
  size := q.size - 1
  counted := by
    obtain ⟨front, rest, hq⟩ := List.exists_cons_of_ne_nil h
    rw [q.counted, hq, List.tail_cons, List.length_cons, BitVec.ofNat_add]
    exact BitVec.add_sub_cancel _ _

/-- `T pop()`, which waits while the queue is empty. -/
def pop (q : Queue T) : Option (T × Queue T) :=
  if h : q.items = [] then none
  else some (Transfer.move (q.items.head h), q.dropFront h)

/-- `void pop(T &item)`: what is in `item` afterwards. -/
def popInto (q : Queue T) (item : T) : Option (T × Queue T) :=
  if h : q.items = [] then none
  else some (Transfer.assign item (q.items.head h), q.dropFront h)

end Operations

/-! ## What each operation does -/

variable {T : Type}

/-- A queue is given by its items. -/
@[ext] theorem ext {q q' : Queue T} (h : q.items = q'.items) : q = q' := by
  obtain ⟨items, size, hc⟩ := q
  obtain ⟨items', size', hc'⟩ := q'
  obtain rfl : items = items' := h
  obtain rfl : size = size' := hc.trans hc'.symm
  rfl

/-- `size()` is the number of items as long as that is an `int`. -/
theorem toInt_size (q : Queue T) : q.size.toInt = q.items.length ↔ q.items.length < 2 ^ 31 := by
  rw [q.counted]
  exact toInt_counter

/-- `size()` is 0 for the empty queue, and for one whose size has come round. -/
theorem size_eq_zero (q : Queue T) (h : q.items.length < 2 ^ 32) : q.size = 0 ↔ q.items = [] := by
  rw [q.counted, ← List.length_eq_zero_iff]
  constructor
  · intro hzero
    have := congrArg BitVec.toNat hzero
    rw [BitVec.toNat_ofNat] at this
    exact (Nat.mod_eq_of_lt h).symm.trans this
  · intro hzero
    rw [hzero]
    rfl

variable [Transfer T]

@[simp] theorem items_push [FaithfulCopies T] (q : Queue T) (item : T) :
    (q.push item).items = q.items ++ [item] := by
  show q.items ++ [Transfer.copy item] = _
  rw [FaithfulCopies.copy_eq]

@[simp] theorem items_pushMove [FaithfulCopies T] (q : Queue T) (item : T) :
    (q.pushMove item).items = q.items ++ [item] := by
  show q.items ++ [Transfer.move item] = _
  rw [FaithfulCopies.move_eq]

omit [Transfer T] in
theorem cons_dropFront (q : Queue T) (h : q.items ≠ []) :
    q.items.head h :: (q.dropFront h).items = q.items := List.cons_head_tail h

/-- `pop(item)` takes the first item off and assigns it to `item`. -/
theorem popInto_eq_some {q q' : Queue T} {target item : T} :
    q.popInto target = some (item, q') ↔
      ∃ front, q.items = front :: q'.items ∧ item = Transfer.assign target front := by
  rw [popInto]
  split
  · rename_i h
    simp [h]
  · rename_i h
    have hq := q.cons_dropFront h
    constructor
    · intro he
      obtain ⟨rfl, rfl⟩ := Prod.mk.inj (Option.some.inj he)
      exact ⟨_, hq.symm, rfl⟩
    · rintro ⟨front, he, rfl⟩
      obtain ⟨rfl, hrest⟩ := List.cons.inj (hq.trans he)
      rw [ext hrest]

/-- `pop` gives the first item, and the queue keeps the others. -/
theorem pop_eq_some [FaithfulCopies T] {q q' : Queue T} {item : T} :
    q.pop = some (item, q') ↔ q.items = item :: q'.items := by
  rw [pop]
  split
  · rename_i h
    simp [h]
  · rename_i h
    have hq := q.cons_dropFront h
    rw [FaithfulCopies.move_eq]
    constructor
    · intro he
      obtain ⟨rfl, rfl⟩ := Prod.mk.inj (Option.some.inj he)
      exact hq.symm
    · intro he
      obtain ⟨rfl, hrest⟩ := List.cons.inj (hq.trans he)
      rw [ext hrest]

/-- `pop` waits exactly at an empty queue. -/
theorem pop_eq_none {q : Queue T} : q.pop = none ↔ q.items = [] := by
  rw [pop]
  split <;> simp [*]

end Queue

/-! ## Runs of calls -/

/-- A call of the queue. -/
inductive QueueCall (T : Type) where
  | push (item : T)
  | pushMove (item : T)
  | pop
  | popInto (target : T)

/-- A queue with what was pushed on it and what its pops handed out. -/
structure QueueHistory (T : Type) where
  queue : Queue T := {}
  pushed : List T := []
  handed : List T := []

namespace QueueHistory

variable {T : Type}

/-- First in, first out: the items handed out are those pushed first, and
`size()` is the number of pushes minus the number of pops. -/
structure InOrder (s : QueueHistory T) : Prop where
  handed : s.handed <+: s.pushed
  size : s.queue.size.toInt = (s.pushed.length : Int) - s.handed.length

/-- Whatever becomes of the items handed out, as many are, and what waits is
what was pushed after them. -/
structure Conserved (s : QueueHistory T) : Prop where
  handed : s.handed.length ≤ s.pushed.length
  waiting : s.queue.items = s.pushed.drop s.handed.length

/-- What the order says of a history that conserves what is pushed. -/
theorem Conserved.inOrder_iff {s : QueueHistory T} (h : s.Conserved) :
    s.InOrder ↔ s.handed <+: s.pushed ∧ s.queue.items.length < 2 ^ 31 := by
  have hlen : (s.queue.items.length : Int) = s.pushed.length - s.handed.length := by
    have := h.handed
    rw [h.waiting, List.length_drop]
    omega
  constructor
  · rintro ⟨hhanded, hsize⟩
    exact ⟨hhanded, s.queue.toInt_size.mp (hsize.trans hlen.symm)⟩
  · rintro ⟨hhanded, hsize⟩
    exact ⟨hhanded, (s.queue.toInt_size.mpr hsize).trans hlen⟩

variable [Transfer T]

/-- One call, under the mutex. The pop of an empty queue waits and is no step. -/
def call (s : QueueHistory T) : QueueCall T → Option (QueueHistory T)
  | .push item => some { s with queue := s.queue.push item, pushed := s.pushed ++ [item] }
  | .pushMove item => some { s with queue := s.queue.pushMove item, pushed := s.pushed ++ [item] }
  | .pop => s.queue.pop.map fun r => { s with queue := r.2, handed := s.handed ++ [r.1] }
  | .popInto target =>
      (s.queue.popInto target).map fun r => { s with queue := r.2, handed := s.handed ++ [r.1] }

/-- `s` makes the call `c` and is `s'` then. -/
def Makes (s : QueueHistory T) (c : QueueCall T) (s' : QueueHistory T) : Prop := s.call c = some s'

/-- What a call must find for the order to hold after it: room in `size_`, and
an argument that assigning the first item to makes equal to it. -/
def Safe (s : QueueHistory T) : QueueCall T → Prop
  | .push _ => s.queue.items.length + 1 < 2 ^ 31
  | .pushMove _ => s.queue.items.length + 1 < 2 ^ 31
  | .pop => True
  | .popInto target => ∀ front ∈ s.queue.items.head?, Transfer.assign target front = front

/-- **What a call does**: it adds an item at the end, or takes the first one
off and hands it out, as itself if the call is safe and only then. -/
theorem Makes.cases [FaithfulCopies T] {s s' : QueueHistory T} {c : QueueCall T}
    (h : s.Makes c s') :
    (∃ item, s'.pushed = s.pushed ++ [item] ∧ s'.handed = s.handed ∧
      s'.queue.items = s.queue.items ++ [item] ∧ (s.Safe c ↔ s'.queue.items.length < 2 ^ 31)) ∨
    ∃ front item, s'.pushed = s.pushed ∧ s'.handed = s.handed ++ [item] ∧
      s.queue.items = front :: s'.queue.items ∧ (s.Safe c ↔ item = front) := by
  cases c with
  | push item =>
      cases h
      exact .inl ⟨item, rfl, rfl, by simp, by simp [Safe]⟩
  | pushMove item =>
      cases h
      exact .inl ⟨item, rfl, rfl, by simp, by simp [Safe]⟩
  | pop =>
      obtain ⟨⟨item, q⟩, hpop, rfl⟩ := Option.map_eq_some_iff.mp h
      exact .inr ⟨item, item, rfl, rfl, Queue.pop_eq_some.mp hpop, by simp [Safe]⟩
  | popInto target =>
      obtain ⟨⟨item, q⟩, hpop, rfl⟩ := Option.map_eq_some_iff.mp h
      obtain ⟨front, hfront, rfl⟩ := Queue.popInto_eq_some.mp hpop
      exact .inr ⟨front, _, rfl, rfl, hfront, by simp [Safe, hfront]⟩

theorem Conserved.makes [FaithfulCopies T] {s s' : QueueHistory T} {c : QueueCall T}
    (h : s.Conserved) (hs : s.Makes c s') : s'.Conserved := by
  rcases hs.cases with ⟨item, hpushed, hhanded, hitems, -⟩ | ⟨front, item, hpushed, hhanded, hitems, -⟩
  · refine ⟨?_, ?_⟩
    · rw [hpushed, hhanded, List.length_append]
      have := h.handed
      omega
    · rw [hitems, hpushed, hhanded, h.waiting, List.drop_append_of_le_length h.handed]
  · have hlen := congrArg List.length (h.waiting.symm.trans hitems)
    rw [List.length_drop, List.length_cons] at hlen
    refine ⟨?_, ?_⟩
    · rw [hpushed, hhanded, List.length_append, List.length_singleton]
      omega
    · rw [hpushed, hhanded, List.length_append, List.length_singleton, ← List.drop_drop,
        ← h.waiting, hitems, List.drop_one, List.tail_cons]

/-- **Every run** conserves what is pushed. -/
theorem conserved_of_run [FaithfulCopies T] {calls : List (QueueCall T)} {s : QueueHistory T}
    (h : Run Makes {} calls s) : s.Conserved :=
  h.invariant (I := fun _ s => s.Conserved) ⟨le_rfl, rfl⟩ fun _ hs hstep => hs.makes hstep

/-- **One call**: the order outlives it exactly if it is safe. -/
theorem Conserved.inOrder_makes [FaithfulCopies T] {s s' : QueueHistory T} {c : QueueCall T}
    (h : s.Conserved) (ho : s.InOrder) (hs : s.Makes c s') : s'.InOrder ↔ s.Safe c := by
  obtain ⟨hhanded, hsize⟩ := h.inOrder_iff.mp ho
  rw [(h.makes hs).inOrder_iff]
  rcases hs.cases with ⟨item, hp, hh, hitems, hsafe⟩ | ⟨front, item, hp, hh, hitems, hsafe⟩
  · rw [hsafe, hp, hh]
    exact and_iff_right (hhanded.trans (List.prefix_append _ _))
  · have hlen := congrArg List.length hitems
    rw [List.length_cons] at hlen
    rw [hsafe, hp, hh, and_iff_left (by omega)]
    obtain ⟨rest, hrest⟩ := hhanded
    have hwaiting : rest = front :: s'.queue.items := by
      rw [← hitems, h.waiting, ← hrest, List.drop_left]
    rw [← hrest, List.prefix_append_right_inj, hwaiting, List.cons_prefix_cons]
    simp

/-- A call that waits is safe. -/
theorem safe_of_waits {s : QueueHistory T} {c : QueueCall T} (h : s.call c = none) : s.Safe c := by
  cases c with
  | push item => cases h
  | pushMove item => cases h
  | pop => trivial
  | popInto target =>
      have hpop := Option.map_eq_none_iff.mp h
      rw [Queue.popInto] at hpop
      split at hpop
      · rename_i hq
        simp [Safe, hq]
      · cases hpop

/-- **The run**: the order holds in every state reached exactly if every call
made is safe in the state it finds. -/
theorem inOrder_run_iff [FaithfulCopies T] (calls : List (QueueCall T)) :
    (∀ done s, done <+: calls → Run Makes {} done s → s.InOrder) ↔
      ∀ done c s, done ++ [c] <+: calls → Run Makes {} done s → s.Safe c := by
  constructor
  · intro h done c s hpre hrun
    cases hcall : s.call c with
    | none => exact safe_of_waits hcall
    | some s' =>
        have ho := h done s ((List.prefix_append _ _).trans hpre) hrun
        have ho' := h _ s' hpre (hrun.snoc hcall)
        exact ((conserved_of_run hrun).inOrder_makes ho hcall).mp ho'
  · intro h done s hpre hrun
    refine hrun.invariant (I := fun done s => done <+: calls → s.InOrder) ?_ ?_ hpre
    · intro _
      exact ⟨List.prefix_rfl, rfl⟩
    · intro done s c s' hrun ih hstep hpre
      have ho := ih ((List.prefix_append _ _).trans hpre)
      exact ((conserved_of_run hrun).inOrder_makes ho hstep).mpr (h done c s hpre hrun)

/-! ## The queue of operations -/

/-- The calls that hand out the operation pushed: a `pop` that returns its
item, or one whose argument holds the first item's key and value already. -/
def Spares (s : QueueHistory Queued) : QueueCall Queued → Prop
  | .push _ => s.queue.items.length + 1 < 2 ^ 31
  | .pushMove _ => s.queue.items.length + 1 < 2 ^ 31
  | .pop => True
  | .popInto target =>
      ∀ front ∈ s.queue.items.head?, target.1.key = front.1.key ∧ target.1.value = front.1.value

theorem safe_iff_spares {s : QueueHistory Queued} {c : QueueCall Queued} :
    s.Safe c ↔ s.Spares c := by
  cases c with
  | push item => rfl
  | pushMove item => rfl
  | pop => rfl
  | popInto target =>
      have hassign : ∀ front : Queued, Transfer.assign target front = front ↔
          target.1.key = front.1.key ∧ target.1.value = front.1.value := by
        rintro ⟨⟨key, value⟩, promise⟩
        obtain ⟨⟨key', value'⟩, promise'⟩ := target
        simp [assign_queued]
      exact forall₂_congr fun front _ => hassign front

/-- **First in, first out**, in every state of a run of pushes and pops of
operations, exactly if every `pop(item)` finds in `item` the key and value it
is to put there, and `size_` never reaches the end of `int`. -/
theorem fifo_iff (calls : List (QueueCall Queued)) :
    (∀ done s, done <+: calls → Run Makes {} done s → s.InOrder) ↔
      ∀ done c s, done ++ [c] <+: calls → Run Makes {} done s → s.Spares c := by
  rw [inOrder_run_iff]
  simp only [safe_iff_spares]

/-- A get of `k` pushed, and popped into a new pair. -/
def popIntoFresh : List (QueueCall Queued) := [.push (⟨['k'], []⟩, 7), .popInto (⟨[], []⟩, 0)]

/-- **The failing run**: a new pair takes the promise off the queue, but not
the key. -/
theorem operation_lost :
    (∃ s, Run Makes {} popIntoFresh s ∧ s.pushed = [(⟨['k'], []⟩, 7)] ∧
      s.handed = [(⟨[], []⟩, 7)] ∧ s.queue.items = []) ∧
    ¬ ∀ done s, done <+: popIntoFresh → Run Makes {} done s → s.InOrder := by
  have hrun : Run Makes {} popIntoFresh
      { pushed := [(⟨['k'], []⟩, 7)], handed := [(⟨[], []⟩, 7)] } := .of_foldlM (fun h => h) rfl
  refine ⟨⟨_, hrun, rfl, rfl, rfl⟩, fun h => ?_⟩
  have ho := (h _ _ List.prefix_rfl hrun).handed
  simp at ho

end QueueHistory

end Pancake
