import Mathlib.Algebra.BigOperators.Group.Finset.Basic
import Mathlib.Algebra.Group.Action.Defs
import Mathlib.Algebra.Order.BigOperators.Group.Finset
import Mathlib.Data.Fintype.BigOperators
import Mathlib.Tactic.Ring
import Pancake.QueueMonitor

/-!
# Waiting at the queue

A thread that waits in `pop` is woken by `notify_one`, which wakes only one,
or by nothing at all. No wake-up is lost: `Attended` counts, as long as
somebody waits, no more items than threads on their way to take one or to
notify. And a thread that alone pops never waits where it has read a `size()`
that is not 0, though it read it without the mutex.
-/

namespace Pancake

/-! ## Waking up -/

namespace Pc

variable {T : Type}

def waits : Pc T → Bool
  | waiting _ _ => true
  | _ => false

variable [Transfer T]

/-- The thread is on its way to take an item, or has put one and not notified
anybody yet. -/
def attends : Pc T → Nat
  | locking _ c | holding _ c => if c.placed.isNone then 1 else 0
  | found _ _ | discounted _ _ | pushed _ | counted _ | unlocked _ => 1
  | _ => 0

/-- A bound for the steps of the thread until it returns or waits, and of the
thread it wakes. -/
def work : Pc T → Nat
  | idle | waiting _ _ => 0
  | finishing _ _ => 1
  | popped _ _ => 2
  | discounted _ _ => 3
  | found _ _ => 4
  | holding _ c => if c.placed.isNone then 5 else 11
  | locking _ c => if c.placed.isNone then 6 else 12
  | unlocked _ => 8
  | counted _ => 9
  | pushed _ => 10

end Pc

/-- The steps of threads in their calls, but for waking up without reason. -/
def MonitorEvent.internal {Th T : Type} : MonitorEvent Th T → Bool
  | call _ _ _ | wake _ | size _ _ => false
  | _ => true

namespace QueueMonitor

variable {Th T : Type} [DecidableEq Th] [Fintype Th]

theorem sum_update (w : Pc T → Nat) (pc : Th → Pc T) (t : Th) (p : Pc T) :
    ∑ t', w (Function.update pc t p t') + w (pc t) = ∑ t', w (pc t') + w p := by
  have hothers : ∑ t' ∈ Finset.univ.erase t, w (Function.update pc t p t')
      = ∑ t' ∈ Finset.univ.erase t, w (pc t') := by
    refine Finset.sum_congr rfl fun t' ht' => ?_
    rw [Function.update_of_ne (Finset.ne_of_mem_erase ht')]
  rw [← Finset.add_sum_erase _ _ (Finset.mem_univ t), Function.update_self, hothers,
    ← Finset.add_sum_erase _ (fun t' => w (pc t')) (Finset.mem_univ t)]
  ring

variable [Transfer T]

/-- If somebody waits, there are no more items than threads that attend to
them. -/
def Attended (s : QueueMonitor Th T) : Prop :=
  (∃ t, (s.pc t).waits = true) → s.items.length ≤ ∑ t, (s.pc t).attends

omit [Fintype Th] [Transfer T] in
/-- Whoever waits waited before. -/
theorem waits_of_goto {s : QueueMonitor Th T} {t : Th} {p : Pc T} (hp : p.waits = false)
    (h : ∃ t', (s.goto t p t').waits = true) : ∃ t', (s.pc t').waits = true := by
  obtain ⟨t', ht'⟩ := h
  by_cases he : t' = t
  · rw [he, goto_self, hp] at ht'
    cases ht'
  · rw [goto_of_ne s p he] at ht'
    exact ⟨t', ht'⟩

/-- A thread goes on that does not wait then: it attends as before, if there
are no more items. -/
theorem Attended.goto {s : QueueMonitor Th T} (h : s.Attended) {t : Th} {p : Pc T}
    (hp : p.waits = false) {items : List T}
    (hitems : items.length + (s.pc t).attends ≤ s.items.length + p.attends) (size : CInt)
    (owner : Option Th) (issued : Nat) :
    Attended { s with pc := s.goto t p, items := items, size := size, owner := owner
                      issued := issued } := by
  intro hwaits
  have hle := h (waits_of_goto hp hwaits)
  have hsum := sum_update Pc.attends s.pc t p
  show items.length ≤ ∑ t', (Function.update s.pc t p t').attends
  omega

/-- **The step**: no wake-up is lost. -/
theorem Attended.step {s s' : QueueMonitor Th T} (h : s.Attended) (hpops : s.PopsOnly)
    {e : MonitorEvent Th T} (hs : MonitorStep s e s') : s'.Attended := by
  cases hs with
  | call ht => exact h.goto rfl (by rw [ht]; exact Nat.le_add_right _ _) _ _ _
  | lock ht _ => exact h.goto rfl (by rw [ht]; exact le_rfl) _ _ _
  | insert ht hplaced =>
      refine h.goto rfl ?_ _ _ _
      rw [ht]
      simp [Pc.attends, hplaced]
  | count ht => exact h.goto rfl (by rw [ht]; exact le_rfl) _ _ _
  | unlockPush ht => exact h.goto rfl (by rw [ht]; exact le_rfl) _ _ _
  | notifyNone ht hnobody =>
      intro hwaits
      obtain ⟨t', ht'⟩ := waits_of_goto rfl hwaits
      cases hpc : s.pc t' with
      | waiting id c => exact absurd hpc (hnobody t' id c)
      | _ =>
          rw [hpc] at ht'
          cases ht'
  | @notifyOne t w id id' c ht hw =>
      intro hwaits
      have hne : w ≠ t := by
        rintro rfl
        rw [ht] at hw
        cases hw
      have hplaced : c.placed = none := by
        have hc := hpops w
        rwa [hw] at hc
      have hle := h ⟨w, by rw [hw]; rfl⟩
      -- the notifying thread's attention passes to the one it wakes
      have hsum₁ := sum_update Pc.attends s.pc t (.finishing id none)
      have hsum₂ := sum_update Pc.attends (s.goto t (.finishing id none)) w (.locking id' c)
      rw [goto_of_ne s _ hne, hw] at hsum₂
      rw [ht] at hsum₁
      have hwoken : (Pc.locking id' c).attends = 1 := by simp [Pc.attends, hplaced]
      have hunlocked : (Pc.unlocked id : Pc T).attends = 1 := rfl
      have hfinishing : (Pc.finishing id none : Pc T).attends = 0 := rfl
      have hwaiting : (Pc.waiting id' c).attends = 0 := rfl
      rw [hwoken, hwaiting] at hsum₂
      rw [hunlocked, hfinishing] at hsum₁
      show s.items.length ≤ ∑ t', (Function.update (s.goto t _) w (.locking id' c) t').attends
      simp only [QueueMonitor.goto] at hsum₂ ⊢
      omega
  | wait _ _ hempty =>
      intro _
      rw [hempty]
      exact Nat.zero_le _
  | wake ht => exact h.goto rfl (by rw [ht]; exact Nat.le_add_right _ _) _ _ _
  | leave ht hplaced _ =>
      refine h.goto rfl ?_ _ _ _
      rw [ht]
      simp [Pc.attends, hplaced]
  | discount ht => exact h.goto rfl (by rw [ht]; exact le_rfl) _ _ _
  | remove ht hitems =>
      refine h.goto rfl ?_ _ _ _
      rw [ht, hitems]
      exact le_rfl
  | unlockPop ht => exact h.goto rfl (by rw [ht]; exact le_rfl) _ _ _
  | ret ht => exact h.goto rfl (by rw [ht]; exact le_rfl) _ _ _
  | size _ => exact h

/-- What the threads have to do before all return or wait. -/
def work (s : QueueMonitor Th T) : Nat := ∑ t, (s.pc t).work

/-- A thread in a call that does not wait has a statement to execute, unless
it is to lock a mutex that is not free. -/
theorem Exclusive.exists_step {s : QueueMonitor Th T} (h : s.Exclusive) {t : Th}
    (hbusy : s.pc t ≠ .idle) (hawake : (s.pc t).waits = false)
    (hmutex : ∀ id c, s.pc t = .locking id c → s.owner = none) :
    ∃ e s', e.internal = true ∧ MonitorStep s e s' := by
  cases hpc : s.pc t with
  | idle => exact absurd hpc hbusy
  | locking id c => exact ⟨_, _, rfl, .lock hpc (hmutex id c hpc)⟩
  | holding id c =>
      cases hplaced : c.placed with
      | some item => exact ⟨_, _, rfl, .insert hpc hplaced⟩
      | none =>
          by_cases hempty : s.items = []
          · exact ⟨_, _, rfl, .wait hpc hplaced hempty⟩
          · exact ⟨_, _, rfl, .leave hpc hplaced hempty⟩
  | waiting id c =>
      rw [hpc] at hawake
      cases hawake
  | found id c => exact ⟨_, _, rfl, .discount hpc⟩
  | discounted id c =>
      obtain ⟨front, rest, hitems⟩ := List.exists_cons_of_ne_nil
        (h.nonempty t (by rw [hpc]; rfl))
      exact ⟨_, _, rfl, .remove hpc hitems⟩
  | popped id item => exact ⟨_, _, rfl, .unlockPop hpc⟩
  | pushed id => exact ⟨_, _, rfl, .count hpc⟩
  | counted id => exact ⟨_, _, rfl, .unlockPush hpc⟩
  | unlocked id =>
      by_cases hwaits : ∃ w id' c, s.pc w = .waiting id' c
      · obtain ⟨w, id', c, hw⟩ := hwaits
        exact ⟨_, _, rfl, .notifyOne hpc hw⟩
      · exact ⟨_, _, rfl, .notifyNone hpc fun w id' c hw => hwaits ⟨w, id', c, hw⟩⟩
  | finishing id result => exact ⟨_, _, rfl, .ret hpc⟩

end QueueMonitor

/-! ## Reading the size first -/

namespace QueueMonitor

variable {Th T : Type} [DecidableEq Th] [Transfer T]

omit [DecidableEq Th] [Transfer T] in
/-- A size that is not 0 is that of a queue that is not empty, whatever its
owner is doing. -/
theorem Exclusive.ne_nil_of_size {s : QueueMonitor Th T} (h : s.Exclusive) (hsize : s.size ≠ 0) :
    s.items ≠ [] := by
  intro hempty
  have hlag : s.lag = 0 := by
    rw [lag]
    cases ho : s.owner with
    | none => rfl
    | some t =>
        show (s.pc t).lag = 0
        cases hpc : s.pc t with
        | discounted id c => exact absurd hempty (h.nonempty t (by rw [hpc]; rfl))
        | pushed id => exact absurd hempty (h.nonempty t (by rw [hpc]; rfl))
        | _ => rfl
  have hcount := h.size
  rw [hlag, hempty] at hcount
  exact hsize ((BitVec.add_zero _).symm.trans hcount)

/-- A thread is in the call it was in, or in a new one. -/
theorem inCall_step {s s' : QueueMonitor Th T} {e : MonitorEvent Th T} (hs : MonitorStep s e s')
    {t : Th} {id : Nat} {c : QueueCall T} (h : (s'.pc t).inCall = some (id, c)) :
    (s.pc t).inCall = some (id, c) ∨ e = .call t id c := by
  have hgoto : ∀ {t' : Th} {p : Pc T}, (∀ q, p.inCall = some q → (s.pc t').inCall = some q) →
      (s.goto t' p t).inCall = some (id, c) → (s.pc t).inCall = some (id, c) := by
    intro t' p hp hgo
    by_cases he : t = t'
    · rw [he, goto_self] at hgo
      rw [he]
      exact hp _ hgo
    · rwa [goto_of_ne s p he] at hgo
  cases hs with
  | @call t' c' ht =>
      change (s.goto t' _ t).inCall = _ at h
      by_cases he : t = t'
      · rw [he, goto_self] at h
        cases h
        exact .inr (by rw [he])
      · rw [goto_of_ne s _ he] at h
        exact .inl h
  | @notifyOne t' w id₁ id₂ c' ht hw =>
      refine .inl ?_
      change (Function.update (s.goto t' _) w _ t).inCall = _ at h
      by_cases he : t = w
      · rw [he, Function.update_self] at h
        rw [he, hw]
        exact h
      · rw [Function.update_of_ne he] at h
        exact hgoto (fun q hq => by cases hq) h
  | lock ht _ | wait ht _ _ | wake ht | leave ht _ _ | discount ht =>
      exact .inl (hgoto (fun q hq => by rw [ht]; exact hq) h)
  | insert _ _ | count _ | unlockPush _ | notifyNone _ _ | remove _ _ | unlockPop _ | ret _ =>
      exact .inl (hgoto (fun q hq => by cases hq) h)
  | size _ => exact .inl h

/-- Only a thread that takes an item can leave the queue empty. -/
theorem ne_nil_step {s s' : QueueMonitor Th T} {e : MonitorEvent Th T} (hs : MonitorStep s e s')
    (hne : s.items ≠ []) (hkeeps : ∀ t id c item, e ≠ .remove t id c item) : s'.items ≠ [] := by
  cases hs with
  | insert ht hplaced => exact List.append_ne_nil_of_left_ne_nil hne _
  | remove ht hitems => exact absurd rfl (hkeeps _ _ _ _)
  | _ => exact hne

/-- **The only thread that pops**, once it has read a size that is not 0, does
not wait before it has its next item; nor does anybody else. -/
theorem sole_popper_never_waits {es₁ es₂ : List (MonitorEvent Th T)} {s : QueueMonitor Th T}
    {t : Th} {n : CInt} (hrun : Run MonitorStep {} (es₁ ++ .size t n :: es₂) s) (hn : n ≠ 0)
    (hsole : ∀ t' id c, .call t' id c ∈ es₁ ++ .size t n :: es₂ → c.placed = none → t' = t)
    (hnext : ∀ id c item, .remove t id c item ∉ es₂) (t' : Th) : .wait t' ∉ es₂ := by
  obtain ⟨s₁, hrun₁, hrest⟩ := Run.append_iff.mp hrun
  obtain ⟨s₂, hread, hrun₂⟩ := Run.cons_iff.mp hrest
  obtain ⟨hexclusive, hpops, halone⟩ := hrun₁.invariant
    (I := fun es s => s.Exclusive ∧ s.PopsOnly ∧ (es <+: es₁ →
      ∀ t' id c, (s.pc t').inCall = some (id, c) → c.placed = none → t' = t))
    ⟨.init, fun _ => trivial, fun _ t' id c hc => by cases hc⟩
    (fun {as u a v} _ ⟨he, hp, ih⟩ hs => ⟨he.step hs, hp.step hs, fun hpre t' id c hc hplaced => by
      rcases inCall_step hs hc with hc | rfl
      · exact ih ((List.prefix_append _ _).trans hpre) t' id c hc hplaced
      · exact hsole t' id c (List.mem_append_left _
          (hpre.subset (List.mem_append_right _ List.mem_cons_self))) hplaced⟩)
  have hs₂ : s₂ = s₁ ∧ n = s₁.size := by
    cases hread
    exact ⟨rfl, rfl⟩
  obtain ⟨rfl, rfl⟩ := hs₂
  -- from the reading on there is an item, as only the thread itself could take it
  have hafter := hrun₂.invariant
    (I := fun es s => es <+: es₂ → s.PopsOnly ∧ s.items ≠ [] ∧ (∀ t', .wait t' ∉ es) ∧
      ∀ t' id c, (s.pc t').inCall = some (id, c) → c.placed = none → t' = t)
    (fun _ => ⟨hpops, hexclusive.ne_nil_of_size hn, fun _ => List.not_mem_nil,
      halone List.prefix_rfl⟩)
    (fun {as u a v} _ ih hs hpre => by
      obtain ⟨hp, hne, hwaits, ih⟩ := ih ((List.prefix_append _ _).trans hpre)
      have ha : a ∈ es₂ := hpre.subset (List.mem_append_right _ List.mem_cons_self)
      refine ⟨hp.step hs, ne_nil_step hs hne ?_, fun t' hmem => ?_, fun t' id c hc hplaced => ?_⟩
      · rintro t' id c item rfl
        have hpc : u.pc t' = .discounted id c := by
          cases hs
          assumption
        have hplaced := hp t'
        rw [hpc] at hplaced
        rw [ih t' id c (by rw [hpc]; rfl) hplaced] at ha
        exact hnext id c item ha
      · rcases List.mem_append.mp hmem with hmem | hmem
        · exact hwaits t' hmem
        · cases List.mem_singleton.mp hmem
          cases hs
          exact absurd ‹u.items = []› hne
      · rcases inCall_step hs hc with hc | rfl
        · exact ih t' id c hc hplaced
        · exact hsole t' id c (List.mem_append_right _ (List.mem_cons_of_mem _ ha)) hplaced)
  exact (hafter List.prefix_rfl).2.2.1 t'

/-- A push, and a pop that has read the size. -/
theorem sole_popper_never_waits_push : ∃ s : QueueMonitor Bool Promise,
    Run MonitorStep {} ([.call true 0 (.push 7), .lock true, .insert true 0 (.push 7),
      .count true, .unlock true, .notify true none, .ret true 0 none] ++ .size false 1 ::
      [.call false 1 .pop, .lock false, .leave false, .discount false]) s ∧
    ∀ t, .wait t ∉ ([.call false 1 .pop, .lock false, .leave false, .discount false] :
      List (MonitorEvent Bool Promise)) := by
  obtain ⟨s, hpushed, hitems, hsize, howner, hissued, hidle⟩ :
      ∃ s : QueueMonitor Bool Promise, Run MonitorStep {} [.call true 0 (.push 7), .lock true,
        .insert true 0 (.push 7), .count true, .unlock true, .notify true none,
        .ret true 0 none] s ∧ s.items = [7] ∧ s.size = 1 ∧ s.owner = none ∧ s.issued = 1 ∧
        s.pc false = .idle := by
    have hinit : Run MonitorStep ({} : QueueMonitor Bool Promise) [] {} := .nil
    have hinserted := ((hinit.snoc (.call (t := true) (c := .push 7) rfl)).snoc
      (.lock (t := true) rfl rfl)).snoc (.insert (t := true) rfl rfl)
    have hunlocked := (hinserted.snoc (.count (t := true) rfl)).snoc (.unlockPush (t := true) rfl)
    have hnotified := hunlocked.snoc
      (.notifyNone (t := true) rfl (by intro w; cases w <;> intro _ _ hc <;> cases hc))
    exact ⟨_, hnotified.snoc (.ret (t := true) rfl), rfl, rfl, rfl, rfl, rfl⟩
  have hread := hpushed.snoc (.size (t := false) hidle)
  have hcalled := hread.snoc (.call (t := false) (c := .pop) hidle)
  rw [hsize, hissued] at hcalled
  have hlocked := hcalled.snoc (.lock (t := false) (c := .pop) rfl howner)
  have hleft := hlocked.snoc (.leave (t := false) (c := .pop) rfl rfl (by simp [hitems]))
  have hpopped := hleft.snoc (.discount (t := false) (c := .pop) rfl)
  have hwhole : Run MonitorStep {} ([.call true 0 (.push 7), .lock true, .insert true 0 (.push 7),
      .count true, .unlock true, .notify true none, .ret true 0 none] ++ .size false 1 ::
      [.call false 1 .pop, .lock false, .leave false, .discount false]) _ := hpopped
  refine ⟨_, hwhole, sole_popper_never_waits hwhole (by decide) ?_ ?_⟩
  · intro t' id c hmem hplaced
    simp only [List.cons_append, List.nil_append, List.mem_cons, List.not_mem_nil, or_false,
      MonitorEvent.call.injEq, reduceCtorEq, false_or] at hmem
    rcases hmem with ⟨rfl, rfl, rfl⟩ | ⟨rfl, rfl, rfl⟩
    · cases hplaced
    · rfl
  · simp

end QueueMonitor

end Pancake
