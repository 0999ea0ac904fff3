import Pancake.Lib.Linearization
import Pancake.Queue

/-!
# The queue, statement by statement

`queue<T>` with any number of threads in it. A step is a statement of `push`
or `pop`, the mutex is held by one thread at a time, and a thread in
`m_cond_.wait` is woken by one `notify_one`, or by nothing at all. What is
seen from outside is the queue of single steps: `Ordered` says that the pushes
and pops take effect in the order of their accesses to `m_queue_`, and that
order is one the callers can agree on.
-/

namespace Pancake

/-! ## The threads -/

namespace QueueCall

variable {T : Type} [Transfer T]

/-- What `push` puts into `m_queue_`; the pops put nothing. -/
def placed : QueueCall T → Option T
  | .push item => some (Transfer.copy item)
  | .pushMove item => some (Transfer.move item)
  | .pop | .popInto _ => none

/-- What a pop has in hand that takes `front` off. -/
def taken : QueueCall T → T → T
  | .popInto target, front => Transfer.assign target front
  | _, front => Transfer.move front

end QueueCall

/-- Where a thread is: outside; before the mutex is its own, on its way in or
out of `wait`; holding it, before `m_queue_.push` or at the `while`; in `wait`;
behind the `while`, and behind `size_--`; with the item it took; behind
`m_queue_.push`, behind `size_++`, and before `notify_one`; before it returns.
A call has a ticket. -/
inductive Pc (T : Type) where
  | idle
  | locking (id : Nat) (c : QueueCall T)
  | holding (id : Nat) (c : QueueCall T)
  | waiting (id : Nat) (c : QueueCall T)
  | found (id : Nat) (c : QueueCall T)
  | discounted (id : Nat) (c : QueueCall T)
  | popped (id : Nat) (item : T)
  | pushed (id : Nat)
  | counted (id : Nat)
  | unlocked (id : Nat)
  | finishing (id : Nat) (result : Option T)

/-- `queue<T>` and the threads in it. -/
structure QueueMonitor (Th T : Type) where
  items : List T := []
  size : CInt := 0
  owner : Option Th := none
  pc : Th → Pc T := fun _ => .idle
  issued : Nat := 0

/-- A statement of a thread: `remove` takes the item off, `notify` wakes a
thread, if one waits, and `wake` is a thread that wakes up for no reason. -/
inductive MonitorEvent (Th T : Type) where
  | call (t : Th) (id : Nat) (c : QueueCall T)
  | lock (t : Th)
  | insert (t : Th) (id : Nat) (c : QueueCall T)
  | count (t : Th)
  | unlock (t : Th)
  | notify (t : Th) (woken : Option Th)
  | wait (t : Th)
  | wake (t : Th)
  | leave (t : Th)
  | discount (t : Th)
  | remove (t : Th) (id : Nat) (c : QueueCall T) (item : T)
  | ret (t : Th) (id : Nat) (result : Option T)
  | size (t : Th) (n : CInt)

namespace QueueMonitor

variable {Th T : Type} [DecidableEq Th]

/-- Thread `t` goes on. -/
def goto (s : QueueMonitor Th T) (t : Th) (p : Pc T) : Th → Pc T := Function.update s.pc t p

end QueueMonitor

open QueueMonitor

/-- The steps. -/
inductive MonitorStep {Th T : Type} [DecidableEq Th] [Transfer T] (s : QueueMonitor Th T) :
    MonitorEvent Th T → QueueMonitor Th T → Prop
  | call {t : Th} {c : QueueCall T} : s.pc t = .idle →
      MonitorStep s (.call t s.issued c)
        { s with pc := s.goto t (.locking s.issued c), issued := s.issued + 1 }
  | lock {t : Th} {id : Nat} {c : QueueCall T} : s.pc t = .locking id c → s.owner = none →
      MonitorStep s (.lock t) { s with pc := s.goto t (.holding id c), owner := some t }
  | insert {t : Th} {id : Nat} {c : QueueCall T} {item : T} : s.pc t = .holding id c →
      c.placed = some item →
      MonitorStep s (.insert t id c)
        { s with pc := s.goto t (.pushed id), items := s.items ++ [item] }
  | count {t : Th} {id : Nat} : s.pc t = .pushed id →
      MonitorStep s (.count t) { s with pc := s.goto t (.counted id), size := s.size + 1 }
  | unlockPush {t : Th} {id : Nat} : s.pc t = .counted id →
      MonitorStep s (.unlock t) { s with pc := s.goto t (.unlocked id), owner := none }
  | notifyNone {t : Th} {id : Nat} : s.pc t = .unlocked id →
      (∀ w id' c, s.pc w ≠ .waiting id' c) →
      MonitorStep s (.notify t none) { s with pc := s.goto t (.finishing id none) }
  | notifyOne {t w : Th} {id id' : Nat} {c : QueueCall T} : s.pc t = .unlocked id →
      s.pc w = .waiting id' c →
      MonitorStep s (.notify t (some w)) { s with
        pc := Function.update (s.goto t (.finishing id none)) w (.locking id' c) }
  | wait {t : Th} {id : Nat} {c : QueueCall T} : s.pc t = .holding id c → c.placed = none →
      s.items = [] →
      MonitorStep s (.wait t) { s with pc := s.goto t (.waiting id c), owner := none }
  | wake {t : Th} {id : Nat} {c : QueueCall T} : s.pc t = .waiting id c →
      MonitorStep s (.wake t) { s with pc := s.goto t (.locking id c) }
  | leave {t : Th} {id : Nat} {c : QueueCall T} : s.pc t = .holding id c → c.placed = none →
      s.items ≠ [] →
      MonitorStep s (.leave t) { s with pc := s.goto t (.found id c) }
  | discount {t : Th} {id : Nat} {c : QueueCall T} : s.pc t = .found id c →
      MonitorStep s (.discount t) { s with pc := s.goto t (.discounted id c), size := s.size - 1 }
  | remove {t : Th} {id : Nat} {c : QueueCall T} {front : T} {rest : List T} :
      s.pc t = .discounted id c → s.items = front :: rest →
      MonitorStep s (.remove t id c (c.taken front))
        { s with pc := s.goto t (.popped id (c.taken front)), items := rest }
  | unlockPop {t : Th} {id : Nat} {item : T} : s.pc t = .popped id item →
      MonitorStep s (.unlock t) { s with pc := s.goto t (.finishing id (some item)), owner := none }
  | ret {t : Th} {id : Nat} {result : Option T} : s.pc t = .finishing id result →
      MonitorStep s (.ret t id result) { s with pc := s.goto t .idle }
  | size {t : Th} : s.pc t = .idle → MonitorStep s (.size t s.size) s

/-! ## One thread at a time -/

namespace Pc

variable {T : Type}

/-- The thread holds the mutex. -/
def holds : Pc T → Bool
  | holding _ _ | found _ _ | discounted _ _ | popped _ _ | pushed _ | counted _ => true
  | _ => false

/-- The thread has found an item, or put one. -/
def seesItem : Pc T → Bool
  | found _ _ | discounted _ _ | pushed _ => true
  | _ => false

/-- What `size_` is behind `m_queue_` while the thread is here. -/
def lag : Pc T → CInt
  | discounted _ _ | pushed _ => 1
  | _ => 0

theorem holds_of_seesItem {p : Pc T} (h : p.seesItem = true) : p.holds = true := by
  cases p <;> first | rfl | cases h

end Pc

namespace QueueMonitor

variable {Th T : Type} [DecidableEq Th]

theorem goto_self (s : QueueMonitor Th T) (t : Th) (p : Pc T) : s.goto t p t = p := by
  rw [goto, Function.update_self]

theorem goto_of_ne (s : QueueMonitor Th T) {t t' : Th} (p : Pc T) (h : t' ≠ t) :
    s.goto t p t' = s.pc t' := by
  rw [goto, Function.update_of_ne h]

/-- What `size_` is behind. -/
def lag (s : QueueMonitor Th T) : CInt := s.owner.elim 0 fun t => (s.pc t).lag

/-- The owner of the mutex is the thread that holds it, an item a thread has
found or put is still there, and `size_` counts the items, but for what its
owner has yet to do. -/
structure Exclusive (s : QueueMonitor Th T) : Prop where
  owner : ∀ t, (s.pc t).holds = true ↔ s.owner = some t
  nonempty : ∀ t, (s.pc t).seesItem = true → s.items ≠ []
  size : s.size + s.lag = BitVec.ofNat 32 s.items.length

omit [DecidableEq Th] in
theorem Exclusive.init : Exclusive ({} : QueueMonitor Th T) where
  owner t := by simp [Pc.holds]
  nonempty t h := by cases h
  size := rfl

section Moves

variable {s : QueueMonitor Th T} {t : Th} {p : Pc T}

/-- A thread without the mutex that goes on without it. -/
theorem Exclusive.aside (h : s.Exclusive) (ht : (s.pc t).holds = false) (hp : p.holds = false)
    (issued : Nat) : Exclusive { s with pc := s.goto t p, issued := issued } where
  owner t' := by
    show (s.goto t p t').holds = true ↔ _
    by_cases he : t' = t
    · rw [he, goto_self, ← h.owner t, ht, hp]
    · rw [goto_of_ne s p he]
      exact h.owner t'
  nonempty t' ht' := by
    by_cases he : t' = t
    · rw [he] at ht'
      change (s.goto t p t).seesItem = true at ht'
      rw [goto_self] at ht'
      exact absurd (Pc.holds_of_seesItem ht') (by rw [hp]; decide)
    · change (s.goto t p t').seesItem = true at ht'
      rw [goto_of_ne s p he] at ht'
      exact h.nonempty t' ht'
  size := by
    rw [← h.size]
    show s.size + s.owner.elim 0 (fun t' => (s.goto t p t').lag) = s.size + s.lag
    rw [lag]
    cases ho : s.owner with
    | none => rfl
    | some t' =>
        have hne : t' ≠ t := by
          rintro rfl
          rw [(h.owner t').mpr ho] at ht
          cases ht
        rw [Option.elim_some, Option.elim_some, goto_of_ne s p hne]

/-- A thread that takes the mutex. -/
theorem Exclusive.acquire (h : s.Exclusive) (hfree : s.owner = none) (hp : p.holds = true)
    (htest : p.seesItem = false) (hlag : p.lag = 0) :
    Exclusive { s with pc := s.goto t p, owner := some t } where
  owner t' := by
    show (s.goto t p t').holds = true ↔ some t = some t'
    by_cases he : t' = t
    · rw [he, goto_self]
      exact iff_of_true hp rfl
    · rw [goto_of_ne s p he, h.owner t', hfree]
      exact iff_of_false (by simp) fun hc => he (Option.some.inj hc).symm
  nonempty t' ht' := by
    change (s.goto t p t').seesItem = true at ht'
    by_cases he : t' = t
    · rw [he, goto_self, htest] at ht'
      cases ht'
    · rw [goto_of_ne s p he] at ht'
      exact h.nonempty t' ht'
  size := by
    have hsize := h.size
    rw [lag, hfree] at hsize
    rw [← hsize]
    show s.size + (s.goto t p t).lag = _
    rw [goto_self, hlag]
    rfl

/-- The thread with the mutex works on the queue. -/
theorem Exclusive.work (h : s.Exclusive) (ht : (s.pc t).holds = true) (hp : p.holds = true)
    {items : List T} {size : CInt} (htest : p.seesItem = true → items ≠ [])
    (hsize : size + p.lag = BitVec.ofNat 32 items.length) :
    Exclusive { s with pc := s.goto t p, items := items, size := size } where
  owner t' := by
    show (s.goto t p t').holds = true ↔ _
    by_cases he : t' = t
    · rw [he, goto_self, ← h.owner t, ht, hp]
    · rw [goto_of_ne s p he]
      exact h.owner t'
  nonempty t' ht' := by
    change (s.goto t p t').seesItem = true at ht'
    by_cases he : t' = t
    · rw [he, goto_self] at ht'
      exact htest ht'
    · -- nobody else holds the mutex
      rw [goto_of_ne s p he] at ht'
      have howner := (h.owner t').mp (Pc.holds_of_seesItem ht')
      rw [(h.owner t).mp ht] at howner
      exact absurd (Option.some.inj howner).symm he
  size := by
    rw [← hsize]
    show size + s.owner.elim 0 (fun t' => (s.goto t p t').lag) = _
    rw [(h.owner t).mp ht, Option.elim_some, goto_self]

/-- A thread that gives the mutex back. -/
theorem Exclusive.release (h : s.Exclusive) (ht : (s.pc t).holds = true)
    (hlag : (s.pc t).lag = 0) (hp : p.holds = false) :
    Exclusive { s with pc := s.goto t p, owner := none } where
  owner t' := by
    show (s.goto t p t').holds = true ↔ none = some t'
    refine iff_of_false (fun hc => ?_) (by simp)
    by_cases he : t' = t
    · rw [he, goto_self, hp] at hc
      cases hc
    · rw [goto_of_ne s p he, h.owner t', (h.owner t).mp ht] at hc
      exact he (Option.some.inj hc).symm
  nonempty t' ht' := by
    change (s.goto t p t').seesItem = true at ht'
    by_cases he : t' = t
    · rw [he, goto_self] at ht'
      exact absurd (Pc.holds_of_seesItem ht') (by rw [hp]; decide)
    · rw [goto_of_ne s p he] at ht'
      exact h.nonempty t' ht'
  size := by
    have hsize := h.size
    rw [lag, (h.owner t).mp ht, Option.elim_some, hlag] at hsize
    exact hsize

end Moves

variable [Transfer T] {s s' : QueueMonitor Th T}

/-- **The step**: the mutex excludes. -/
theorem Exclusive.step (h : s.Exclusive) {e : MonitorEvent Th T} (hs : MonitorStep s e s') :
    s'.Exclusive := by
  cases hs with
  | call ht => exact h.aside (by rw [ht]; rfl) rfl _
  | lock ht hfree => exact h.acquire hfree rfl rfl rfl
  | insert ht hplaced =>
      refine h.work (by rw [ht]; rfl) rfl
        (fun _ => List.append_ne_nil_of_right_ne_nil _ (by simp)) ?_
      have howner := (h.owner _).mp (show (s.pc _).holds = true by rw [ht]; rfl)
      have hsize := h.size
      rw [lag, howner, Option.elim_some, ht] at hsize
      rw [List.length_append, List.length_singleton, BitVec.ofNat_add, ← hsize]
      exact congrArg (· + 1) (BitVec.add_zero _).symm
  | count ht =>
      refine h.work (by rw [ht]; rfl) rfl (fun hc => by cases hc) ?_
      have howner := (h.owner _).mp (show (s.pc _).holds = true by rw [ht]; rfl)
      have hsize := h.size
      rw [lag, howner, Option.elim_some, ht] at hsize
      rw [← hsize]
      exact BitVec.add_zero _
  | unlockPush ht => exact h.release (by rw [ht]; rfl) (by rw [ht]; rfl) rfl
  | notifyNone ht _ => exact h.aside (by rw [ht]; rfl) rfl _
  | @notifyOne t w id id' c ht hw =>
      have h₁ := h.aside (t := t) (p := .finishing id none) (by rw [ht]; rfl) rfl s.issued
      refine h₁.aside (t := w) (p := .locking id' c) ?_ rfl _
      show (s.goto t _ w).holds = false
      by_cases he : w = t
      · rw [he, goto_self]
        rfl
      · rw [goto_of_ne s _ he, hw]
        rfl
  | wait ht hplaced hempty => exact h.release (by rw [ht]; rfl) (by rw [ht]; rfl) rfl
  | wake ht => exact h.aside (by rw [ht]; rfl) rfl _
  | leave ht hplaced hne =>
      refine h.work (by rw [ht]; rfl) rfl (fun _ => hne) ?_
      have howner := (h.owner _).mp (show (s.pc _).holds = true by rw [ht]; rfl)
      have hsize := h.size
      rw [lag, howner, Option.elim_some, ht] at hsize
      exact hsize
  | @discount t id c ht =>
      have hholds : (s.pc t).holds = true := by rw [ht]; rfl
      refine h.work hholds rfl (fun _ => h.nonempty t (by rw [ht]; rfl)) ?_
      have hsize := h.size
      rw [lag, (h.owner t).mp hholds, Option.elim_some, ht] at hsize
      rw [← hsize]
      exact (BitVec.sub_add_cancel _ _).trans (BitVec.add_zero _).symm
  | @remove t id c front rest ht hitems =>
      have hholds : (s.pc t).holds = true := by rw [ht]; rfl
      refine h.work hholds rfl (fun hc => by cases hc) ?_
      have hsize := h.size
      rw [lag, (h.owner t).mp hholds, Option.elim_some, ht, hitems, List.length_cons,
        BitVec.ofNat_add] at hsize
      exact (BitVec.add_zero _).trans ((BitVec.add_left_inj 1).mp hsize)
  | unlockPop ht => exact h.release (by rw [ht]; rfl) (by rw [ht]; rfl) rfl
  | ret ht => exact h.aside (by rw [ht]; rfl) rfl _
  | size _ => exact h

/-! ## The order of the accesses -/

end QueueMonitor

/-- The queue of single steps, as an object: what a call leaves, and what it
returns. -/
def queueObject (T : Type) [Transfer T] : SeqObject (Queue T) (QueueCall T) (Option T) where
  next q
    | .push item => q.push item
    | .pushMove item => q.pushMove item
    | .pop => (q.pop.map Prod.snd).getD q
    | .popInto target => ((q.popInto target).map Prod.snd).getD q
  result q
    | .push _ | .pushMove _ => none
    | .pop => q.pop.map Prod.fst
    | .popInto target => (q.popInto target).map Prod.fst

namespace queueObject

variable {T : Type} [Transfer T] {q : Queue T} {c : QueueCall T}

theorem next_placed {item : T} (h : c.placed = some item) :
    ((queueObject T).next q c).items = q.items ++ [item] ∧ (queueObject T).result q c = none := by
  cases c with
  | push item' =>
      cases h
      exact ⟨rfl, rfl⟩
  | pushMove item' =>
      cases h
      exact ⟨rfl, rfl⟩
  | pop => cases h
  | popInto target => cases h

theorem next_taken {front : T} {rest : List T} (h : c.placed = none)
    (hq : q.items = front :: rest) :
    ((queueObject T).next q c).items = rest ∧
      (queueObject T).result q c = some (c.taken front) := by
  have hne : q.items ≠ [] := by rw [hq]; exact List.cons_ne_nil _ _
  have htail : (q.dropFront hne).items = rest := by
    show q.items.tail = rest
    rw [hq, List.tail_cons]
  have hhead : q.items.head hne = front := by simp [hq]
  cases c with
  | push item => cases h
  | pushMove item => cases h
  | pop =>
      have hpop : q.pop = some (Transfer.move front, q.dropFront hne) := by
        rw [Queue.pop, dif_neg hne, hhead]
      simp only [queueObject, hpop, Option.map_some, Option.getD_some, htail]
      exact ⟨trivial, rfl⟩
  | popInto target =>
      have hpop : q.popInto target = some (Transfer.assign target front, q.dropFront hne) := by
        rw [Queue.popInto, dif_neg hne, hhead]
      simp only [queueObject, hpop, Option.map_some, Option.getD_some, htail]
      exact ⟨trivial, rfl⟩

end queueObject

namespace Pc

variable {T : Type}

/-- The call a thread is in that has not taken effect. -/
def inCall : Pc T → Option (Nat × QueueCall T)
  | locking id c | holding id c | waiting id c | found id c | discounted id c => some (id, c)
  | _ => none

/-- Only a pop waits or takes an item. -/
def TakesOnly [Transfer T] : Pc T → Prop
  | waiting _ c | found _ c | discounted _ c => c.placed = none
  | _ => True

/-- What a call that has taken effect returns. -/
def outcome : Pc T → Option (Nat × Option T)
  | popped id item => some (id, some item)
  | pushed id | counted id | unlocked id => some (id, none)
  | finishing id result => some (id, result)
  | _ => none

end Pc

namespace MonitorEvent

variable {Th T : Type} [Transfer T]

def seen : MonitorEvent Th T → Option (CallEvent Nat (QueueCall T) (Option T))
  | call _ id c => some (.call id c)
  | ret _ id result => some (.ret id result)
  | _ => none

/-- A push takes effect at `m_queue_.push`, a pop where it takes its item. -/
def effect : MonitorEvent Th T → Option (Effect Nat (QueueCall T) (Option T))
  | insert _ id c => some ⟨id, c, none⟩
  | remove _ id c item => some ⟨id, c, some item⟩
  | _ => none

end MonitorEvent

/-- What the callers see. -/
def monitorHistory {Th T : Type} (es : List (MonitorEvent Th T)) :
    List (CallEvent Nat (QueueCall T) (Option T)) := es.filterMap MonitorEvent.seen

/-- The calls in the order of their accesses to `m_queue_`. -/
def accessOrder {Th T : Type} (es : List (MonitorEvent Th T)) :
    List (Effect Nat (QueueCall T) (Option T)) := es.filterMap MonitorEvent.effect

theorem monitorHistory_snoc {Th T : Type} (es : List (MonitorEvent Th T)) (e : MonitorEvent Th T) :
    monitorHistory (es ++ [e]) = monitorHistory es ++ e.seen.toList := by
  rw [monitorHistory, List.filterMap_append, List.filterMap_cons]
  cases e.seen <;> rfl

theorem accessOrder_snoc {Th T : Type} (es : List (MonitorEvent Th T)) (e : MonitorEvent Th T) :
    accessOrder (es ++ [e]) = accessOrder es ++ e.effect.toList := by
  rw [accessOrder, List.filterMap_append, List.filterMap_cons]
  cases e.effect <;> rfl

namespace QueueMonitor

variable {Th T : Type} [DecidableEq Th] [Transfer T]

/-- The state after the events: the order of the accesses is one the callers
can agree on and leaves the items of `m_queue_`; a call under way has been
made, once, and has not taken effect; and what a thread is to return is the
result of its call in the order. -/
structure Ordered (es : List (MonitorEvent Th T)) (s : QueueMonitor Th T) : Prop where
  linearizes : Linearizes (queueObject T) {} (monitorHistory es) (accessOrder es)
  items : ((queueObject T).after {} (accessOrder es)).items = s.items
  issued : ∀ id c, .call id c ∈ monitorHistory es → id < s.issued
  called : ∀ t id c, (s.pc t).inCall = some (id, c) →
    .call id c ∈ monitorHistory es ∧ id ∉ (accessOrder es).map Effect.ticket
  apart : ∀ t t' p p', t ≠ t' → (s.pc t).inCall = some p → (s.pc t').inCall = some p' → p.1 ≠ p'.1
  outcome : ∀ t id r, (s.pc t).outcome = some (id, r) →
    ∃ f ∈ accessOrder es, f.ticket = id ∧ f.result = r

omit [DecidableEq Th] in
theorem Ordered.init : Ordered [] ({} : QueueMonitor Th T) where
  linearizes := .nil
  items := rfl
  issued id c h := by cases h
  called t id c h := by cases h
  apart t t' p p' _ h := by cases h
  outcome t id r h := by cases h

section Moves

variable {es : List (MonitorEvent Th T)} {s : QueueMonitor Th T} {t : Th} {p : Pc T}

omit [Transfer T] in
/-- What is asked of every thread is asked of the one that goes on. -/
theorem goto_eq {B : Type} {f : Pc T → B} (hp : f p = f (s.pc t)) (t' : Th) :
    f (s.goto t p t') = f (s.pc t') := by
  by_cases he : t' = t
  · rw [he, goto_self, hp]
  · rw [goto_of_ne s p he]

omit [DecidableEq Th] in
/-- **A step between the accesses**: every thread stays in its call. -/
theorem Ordered.inside (h : Ordered es s) {e : MonitorEvent Th T} (hseen : e.seen = none)
    (heffect : e.effect = none) {pc : Th → Pc T} (hcalls : ∀ t, (pc t).inCall = (s.pc t).inCall)
    (houtcomes : ∀ t, (pc t).outcome = (s.pc t).outcome) (size : CInt) (owner : Option Th) :
    Ordered (es ++ [e]) { s with pc := pc, size := size, owner := owner } := by
  have hhistory : monitorHistory (es ++ [e]) = monitorHistory es := by
    rw [monitorHistory_snoc, hseen]
    exact List.append_nil _
  have horder : accessOrder (es ++ [e]) = accessOrder es := by
    rw [accessOrder_snoc, heffect]
    exact List.append_nil _
  refine ⟨?_, ?_, ?_, fun t' id c ht => ?_, fun t₁ t₂ p₁ p₂ hne h₁ h₂ => ?_, fun t' id r ht => ?_⟩
  · rw [hhistory, horder]
    exact h.linearizes
  · rw [horder]
    exact h.items
  · rw [hhistory]
    exact h.issued
  · rw [hhistory, horder]
    exact h.called t' id c ((hcalls t').symm.trans ht)
  · exact h.apart t₁ t₂ p₁ p₂ hne ((hcalls t₁).symm.trans h₁) ((hcalls t₂).symm.trans h₂)
  · rw [horder]
    exact h.outcome t' id r ((houtcomes t').symm.trans ht)

/-- **A call** gets a new ticket. -/
theorem Ordered.call (h : Ordered es s) {c : QueueCall T} :
    Ordered (es ++ [.call t s.issued c])
      { s with pc := s.goto t (.locking s.issued c), issued := s.issued + 1 } := by
  have hhistory : monitorHistory (es ++ [.call t s.issued c])
      = monitorHistory es ++ [.call s.issued c] := monitorHistory_snoc _ _
  have horder : accessOrder (es ++ [.call t s.issued c]) = accessOrder es := by
    rw [accessOrder_snoc]
    exact List.append_nil _
  have hnew : ∀ c', .call s.issued c' ∉ monitorHistory es :=
    fun c' hc => absurd (h.issued _ c' hc) (lt_irrefl _)
  have hfresh : ∀ t' q, (s.pc t').inCall = some q → q.1 ≠ s.issued := by
    rintro t' ⟨id, c'⟩ ht rfl
    exact hnew c' (h.called t' _ c' ht).1
  refine ⟨?_, ?_, fun id c' hc => ?_, fun t' id c' ht => ?_, fun t₁ t₂ p₁ p₂ hne h₁ h₂ => ?_,
    fun t' id r ht => ?_⟩
  · rw [hhistory, horder]
    exact h.linearizes.call hnew
  · rw [horder]
    exact h.items
  · rw [hhistory] at hc
    rcases List.mem_append.mp hc with hc | hc
    · exact Nat.lt_succ_of_lt (h.issued id c' hc)
    · cases List.mem_singleton.mp hc
      exact Nat.lt_succ_self _
  · change (s.goto t _ t').inCall = _ at ht
    rw [hhistory, horder]
    by_cases he : t' = t
    · rw [he, goto_self] at ht
      cases ht
      refine ⟨List.mem_append_right _ List.mem_cons_self, fun hmem => ?_⟩
      obtain ⟨f, hf, hticket⟩ := List.mem_map.mp hmem
      exact hnew f.op (hticket ▸ h.linearizes.called f hf)
    · rw [goto_of_ne s _ he] at ht
      obtain ⟨hcalled, hopen⟩ := h.called t' id c' ht
      exact ⟨List.mem_append_left _ hcalled, hopen⟩
  · change (s.goto t _ t₁).inCall = _ at h₁
    change (s.goto t _ t₂).inCall = _ at h₂
    by_cases he₁ : t₁ = t
    · have he₂ : t₂ ≠ t := fun hc => hne (he₁.trans hc.symm)
      rw [he₁, goto_self] at h₁
      cases h₁
      rw [goto_of_ne s _ he₂] at h₂
      exact (hfresh t₂ p₂ h₂).symm
    · rw [goto_of_ne s _ he₁] at h₁
      by_cases he₂ : t₂ = t
      · rw [he₂, goto_self] at h₂
        cases h₂
        exact hfresh t₁ p₁ h₁
      · rw [goto_of_ne s _ he₂] at h₂
        exact h.apart t₁ t₂ p₁ p₂ hne h₁ h₂
  · change (s.goto t _ t').outcome = _ at ht
    rw [horder]
    by_cases he : t' = t
    · rw [he, goto_self] at ht
      cases ht
    · rw [goto_of_ne s _ he] at ht
      exact h.outcome t' id r ht

/-- **An access** lets the call take effect. -/
theorem Ordered.access (h : Ordered es s) {e : MonitorEvent Th T} {id : Nat} {c : QueueCall T}
    {r : Option T} {items : List T} (hseen : e.seen = none) (heffect : e.effect = some ⟨id, c, r⟩)
    (ht : (s.pc t).inCall = some (id, c)) (hcall : p.inCall = none)
    (houtcome : p.outcome = some (id, r))
    (hnext : ((queueObject T).next ((queueObject T).after {} (accessOrder es)) c).items = items)
    (hresult : (queueObject T).result ((queueObject T).after {} (accessOrder es)) c = r) :
    Ordered (es ++ [e]) { s with pc := s.goto t p, items := items } := by
  have hhistory : monitorHistory (es ++ [e]) = monitorHistory es := by
    rw [monitorHistory_snoc, hseen]
    exact List.append_nil _
  have horder : accessOrder (es ++ [e]) = accessOrder es ++ [⟨id, c, r⟩] := by
    rw [accessOrder_snoc, heffect]
    rfl
  obtain ⟨hcalled, hopen⟩ := h.called t id c ht
  refine ⟨?_, ?_, ?_, fun t' id' c' ht' => ?_, fun t₁ t₂ p₁ p₂ hne h₁ h₂ => ?_,
    fun t' id' r' ht' => ?_⟩
  · rw [hhistory, horder]
    exact h.linearizes.effect hcalled hopen hresult.symm
  · rw [horder, SeqObject.after_snoc]
    exact hnext
  · rw [hhistory]
    exact h.issued
  · change (s.goto t p t').inCall = _ at ht'
    rw [hhistory, horder]
    by_cases he : t' = t
    · rw [he, goto_self, hcall] at ht'
      cases ht'
    · rw [goto_of_ne s p he] at ht'
      obtain ⟨hcalled', hopen'⟩ := h.called t' id' c' ht'
      refine ⟨hcalled', fun hmem => ?_⟩
      rw [List.map_append, List.mem_append] at hmem
      rcases hmem with hmem | hmem
      · exact hopen' hmem
      · exact h.apart t' t _ _ he ht' ht (List.mem_singleton.mp hmem)
  · change (s.goto t p t₁).inCall = _ at h₁
    change (s.goto t p t₂).inCall = _ at h₂
    by_cases he₁ : t₁ = t
    · rw [he₁, goto_self, hcall] at h₁
      cases h₁
    · by_cases he₂ : t₂ = t
      · rw [he₂, goto_self, hcall] at h₂
        cases h₂
      · rw [goto_of_ne s p he₁] at h₁
        rw [goto_of_ne s p he₂] at h₂
        exact h.apart t₁ t₂ p₁ p₂ hne h₁ h₂
  · change (s.goto t p t').outcome = _ at ht'
    rw [horder]
    by_cases he : t' = t
    · rw [he, goto_self, houtcome] at ht'
      cases ht'
      exact ⟨_, List.mem_append_right _ List.mem_cons_self, rfl, rfl⟩
    · rw [goto_of_ne s p he] at ht'
      obtain ⟨f, hf, heq⟩ := h.outcome t' id' r' ht'
      exact ⟨f, List.mem_append_left _ hf, heq⟩

/-- **Returning** what the call resulted in. -/
theorem Ordered.ret (h : Ordered es s) {id : Nat} {r : Option T}
    (ht : (s.pc t).outcome = some (id, r)) :
    Ordered (es ++ [.ret t id r]) { s with pc := s.goto t .idle } := by
  have hhistory : monitorHistory (es ++ [.ret t id r]) = monitorHistory es ++ [.ret id r] :=
    monitorHistory_snoc _ _
  have horder : accessOrder (es ++ [.ret t id r]) = accessOrder es := by
    rw [accessOrder_snoc]
    exact List.append_nil _
  have hcalls : ∀ t' q, (s.goto t .idle t').inCall = some q → (s.pc t').inCall = some q := by
    intro t' q hq
    by_cases he : t' = t
    · rw [he, goto_self] at hq
      cases hq
    · rwa [goto_of_ne s _ he] at hq
  refine ⟨?_, ?_, fun id' c hc => ?_, fun t' id' c ht' => ?_, fun t₁ t₂ p₁ p₂ hne h₁ h₂ => ?_,
    fun t' id' r' ht' => ?_⟩
  · obtain ⟨f, hf, rfl, rfl⟩ := h.outcome t id r ht
    rw [hhistory, horder]
    exact h.linearizes.ret hf
  · rw [horder]
    exact h.items
  · rw [hhistory] at hc
    rcases List.mem_append.mp hc with hc | hc
    · exact h.issued id' c hc
    · cases List.mem_singleton.mp hc
  · rw [hhistory, horder]
    obtain ⟨hcalled, hopen⟩ := h.called t' id' c (hcalls t' _ ht')
    exact ⟨List.mem_append_left _ hcalled, hopen⟩
  · exact h.apart t₁ t₂ p₁ p₂ hne (hcalls t₁ p₁ h₁) (hcalls t₂ p₂ h₂)
  · change (s.goto t .idle t').outcome = _ at ht'
    rw [horder]
    by_cases he : t' = t
    · rw [he, goto_self] at ht'
      cases ht'
    · rw [goto_of_ne s _ he] at ht'
      exact h.outcome t' id' r' ht'

end Moves

/-- Only a pop gets to the `while`. -/
def PopsOnly (s : QueueMonitor Th T) : Prop := ∀ t, (s.pc t).TakesOnly

omit [Transfer T] in
theorem forall_goto {s : QueueMonitor Th T} {t : Th} {p : Pc T} {P : Pc T → Prop}
    (h : ∀ t, P (s.pc t)) (hp : P p) (t' : Th) : P (s.goto t p t') := by
  by_cases he : t' = t
  · rwa [he, goto_self]
  · rw [goto_of_ne s p he]
    exact h t'

theorem PopsOnly.step {s s' : QueueMonitor Th T} (h : s.PopsOnly) {e : MonitorEvent Th T}
    (hs : MonitorStep s e s') : s'.PopsOnly := by
  cases hs with
  | call _ | lock _ _ | insert _ _ | count _ | unlockPush _ | notifyNone _ _ | wake _
    | remove _ _ | unlockPop _ | ret _ => exact forall_goto h trivial
  | @notifyOne t w id id' c _ _ =>
      intro t'
      show Pc.TakesOnly (Function.update (s.goto t (.finishing id none)) w (.locking id' c) t')
      by_cases he : t' = w
      · rw [he, Function.update_self]
        trivial
      · rw [Function.update_of_ne he]
        exact forall_goto h (p := .finishing id none) trivial t'
  | wait _ hplaced _ => exact forall_goto h hplaced
  | leave _ hplaced _ => exact forall_goto h hplaced
  | @discount t id c ht =>
      have hc := h t
      rw [ht] at hc
      exact forall_goto h (p := .discounted id c) hc
  | size _ => exact h

/-- **The step**: the order of the accesses goes on. -/
theorem Ordered.step {es : List (MonitorEvent Th T)} {s s' : QueueMonitor Th T} (h : Ordered es s)
    (hpops : s.PopsOnly) {e : MonitorEvent Th T} (hs : MonitorStep s e s') :
    Ordered (es ++ [e]) s' := by
  cases hs with
  | call ht => exact h.call
  | lock ht _ =>
      exact h.inside rfl rfl (goto_eq (by rw [ht]; rfl)) (goto_eq (by rw [ht]; rfl)) _ _
  | insert ht hplaced =>
      obtain ⟨hnext, hresult⟩ := queueObject.next_placed
        (q := (queueObject T).after {} (accessOrder es)) hplaced
      exact h.access rfl rfl (by rw [ht]; rfl) rfl rfl (by rw [hnext, h.items]) hresult
  | count ht =>
      exact h.inside rfl rfl (goto_eq (by rw [ht]; rfl)) (goto_eq (by rw [ht]; rfl)) _ _
  | unlockPush ht =>
      exact h.inside rfl rfl (goto_eq (by rw [ht]; rfl)) (goto_eq (by rw [ht]; rfl)) _ _
  | notifyNone ht _ =>
      exact h.inside rfl rfl (goto_eq (by rw [ht]; rfl)) (goto_eq (by rw [ht]; rfl)) _ _
  | @notifyOne t w id id' c ht hw =>
      have hne : w ≠ t := by
        rintro rfl
        rw [ht] at hw
        cases hw
      have hpc : (s.goto t (.finishing id none)) w = .waiting id' c :=
        (goto_of_ne s _ hne).trans hw
      refine h.inside rfl rfl (fun t' => ?_) (fun t' => ?_) _ _
      · rw [← goto_eq (f := Pc.inCall) (s := s) (t := t) (p := .finishing id none)
          (by rw [ht]; rfl) t']
        by_cases he : t' = w
        · rw [he, Function.update_self, hpc]
          rfl
        · rw [Function.update_of_ne he]
      · rw [← goto_eq (f := Pc.outcome) (s := s) (t := t) (p := .finishing id none)
          (by rw [ht]; rfl) t']
        by_cases he : t' = w
        · rw [he, Function.update_self, hpc]
          rfl
        · rw [Function.update_of_ne he]
  | wait ht _ _ =>
      exact h.inside rfl rfl (goto_eq (by rw [ht]; rfl)) (goto_eq (by rw [ht]; rfl)) _ _
  | wake ht =>
      exact h.inside rfl rfl (goto_eq (by rw [ht]; rfl)) (goto_eq (by rw [ht]; rfl)) _ _
  | leave ht _ _ =>
      exact h.inside rfl rfl (goto_eq (by rw [ht]; rfl)) (goto_eq (by rw [ht]; rfl)) _ _
  | discount ht =>
      exact h.inside rfl rfl (goto_eq (by rw [ht]; rfl)) (goto_eq (by rw [ht]; rfl)) _ _
  | @remove t id c front rest ht hitems =>
      have hplaced := hpops t
      rw [ht] at hplaced
      obtain ⟨hnext, hresult⟩ := queueObject.next_taken hplaced (h.items.trans hitems)
      exact h.access rfl rfl (by rw [ht]; rfl) rfl rfl hnext hresult
  | unlockPop ht =>
      exact h.inside rfl rfl (goto_eq (by rw [ht]; rfl)) (goto_eq (by rw [ht]; rfl)) _ _
  | ret ht => exact h.ret (by rw [ht]; rfl)
  | size ht => exact h.inside rfl rfl (fun _ => rfl) (fun _ => rfl) _ _

/-- **The queue of single steps.** In every run of any number of threads, the
calls take effect in the order of their accesses to `m_queue_`; in that order
they return what the calls of `Queue` do, and leave its items; and while the
mutex is free `size_` is their number. -/
theorem refines_queue {es : List (MonitorEvent Th T)} {s : QueueMonitor Th T}
    (hrun : Run MonitorStep {} es s) :
    Linearizes (queueObject T) {} (monitorHistory es) (accessOrder es) ∧
      ((queueObject T).after {} (accessOrder es)).items = s.items ∧
      (s.owner = none → s.size = BitVec.ofNat 32 s.items.length) := by
  obtain ⟨hexclusive, hordered, -⟩ := hrun.invariant
    (I := fun es s => s.Exclusive ∧ Ordered es s ∧ s.PopsOnly)
    ⟨.init, .init, fun _ => trivial⟩
    fun _ ⟨he, ho, hp⟩ hs => ⟨he.step hs, ho.step hp hs, hp.step hs⟩
  refine ⟨hordered.linearizes, hordered.items, fun hfree => ?_⟩
  have hsize := hexclusive.size
  rw [lag, hfree] at hsize
  exact (BitVec.add_zero _).symm.trans hsize

/-- A pop waits for a push. -/
def popThenPush : List (MonitorEvent Bool Promise) :=
  [.call false 0 .pop, .lock false, .wait false, .call true 1 (.push 7), .lock true,
    .insert true 1 (.push 7), .count true, .unlock true, .notify true (some false),
    .ret true 1 none, .lock false, .leave false, .discount false, .remove false 0 .pop 7,
    .unlock false, .ret false 0 (some 7)]

theorem popThenPush_run : ∃ s, Run MonitorStep {} popThenPush s ∧ s.items = [] := by
  have hinit : Run MonitorStep ({} : QueueMonitor Bool Promise) [] {} := .nil
  have hwaiting := ((hinit.snoc (.call (t := false) (c := .pop) rfl)).snoc
    (.lock (t := false) rfl rfl)).snoc (.wait (t := false) rfl rfl rfl)
  have hpushed := ((((((hwaiting.snoc (.call (t := true) (c := .push 7) rfl)).snoc
    (.lock (t := true) rfl rfl)).snoc (.insert (t := true) rfl rfl)).snoc
    (.count (t := true) rfl)).snoc (.unlockPush (t := true) rfl)).snoc
    (.notifyOne (t := true) (w := false) rfl rfl)).snoc (.ret (t := true) rfl)
  have hpopped := (((((hpushed.snoc (.lock (t := false) rfl rfl)).snoc
    (.leave (t := false) rfl rfl (by decide))).snoc (.discount (t := false) rfl)).snoc
    (.remove (t := false) rfl rfl)).snoc (.unlockPop (t := false) rfl)).snoc
    (.ret (t := false) rfl)
  exact ⟨_, hpopped, rfl⟩

/-- The push takes effect first. -/
theorem refines_queue_popThenPush : ∃ s, Run MonitorStep {} popThenPush s ∧
    Linearizes (queueObject Promise) {}
      [.call 0 .pop, .call 1 (.push 7), .ret 1 none, .ret 0 (some 7)]
      [⟨1, .push 7, none⟩, ⟨0, .pop, some 7⟩] := by
  obtain ⟨s, hrun, -⟩ := popThenPush_run
  exact ⟨s, hrun, (refines_queue hrun).1⟩

end QueueMonitor

end Pancake
