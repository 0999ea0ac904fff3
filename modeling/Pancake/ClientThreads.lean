import Pancake.AsyncClient

/-!
# The two threads of the asynchronous client

The steps of `async_proxy_client` in full: the calling thread that goes to
sleep on `m_cond_`, the reading thread with its loop and the time-outs of its
socket, and `finish`. `read_responses` notifies without `m_mtx_`, so a call may
go to sleep after the wake-up meant for it.
-/

namespace Pancake

namespace ClientThreads

/-- Where the calling thread is: in a call, as in `Caller`, with the sleep on
`m_cond_` apart from the way to it; in `finish`, with so many pushes to make;
or past it. -/
inductive CallPlace where
  | idle
  | testing (call : ClientCall)
  | blocking (call : ClientCall)
  | asleep (call : ClientCall)
  | sending (call : ClientCall)
  | pushing (call : ClientCall)
  | draining
  | finishing (pushes : Nat)
  | finished
  deriving DecidableEq

/-- Where `read_responses` is: at the test of `done_`, at its `pop`, its
`notify_one` or its `recv_response`, or past its loop. -/
inductive ReadPlace where
  | looping
  | popping
  | notifying
  | receiving
  | returned
  deriving DecidableEq

/-- `notify_one` -/
def CallPlace.notified : CallPlace → CallPlace
  | asleep c => testing c
  | p => p

end ClientThreads

open ClientThreads

/-- `async_proxy_client`, and the requests it has sent that have no response
yet. -/
structure ClientThreads where
  clientId : Int
  sequenceNum : CInt := 0
  requests : Queue OpCode := {}
  done : Bool := false
  total : CInt := 0
  unanswered : List AsyncCall := []
  caller : CallPlace := .idle
  reader : ReadPlace := .looping

/-- A step of the calling thread, or of the reading one: `receive` is the
response to `request`. -/
inductive ThreadsEvent where
  | call (c : ClientCall)
  | test
  | sleep
  | wakeSpuriously
  | send
  | push
  | drain
  | finish
  | pushLast
  | join
  | loop
  | pop
  | notify
  | receive (request : AsyncCall) (results : List Str)
  | timeOut
  deriving DecidableEq

namespace ClientThreads

/-- `seq_id_` of the next request. -/
def seqId (s : ClientThreads) : SequenceId where
  clientId := s.clientId
  clientSeqNo := s.sequenceNum.toInt
  serverSeqNo := 0

/-- One step, if it is the next of its thread. -/
def step (s : ClientThreads) : ThreadsEvent → Option ClientThreads
  | .call c => match s.caller with
    | .idle => some { s with caller := .testing c }
    | _ => none
  | .test => match s.caller with
    | .testing c => some { s with
        caller := if (AsyncClient.inFlightLimit : Int) ≤ s.requests.size.toInt then .blocking c
          else .sending c }
    | _ => none
  | .sleep => match s.caller with
    | .blocking c => some { s with caller := .asleep c }
    | _ => none
  | .wakeSpuriously => match s.caller with
    | .asleep c => some { s with caller := .testing c }
    | _ => none
  | .send => match s.caller with
    | .sending c => some { s with unanswered := s.unanswered ++ [c.request s.seqId]
                                  sequenceNum := s.sequenceNum + 1
                                  caller := .pushing c }
    | _ => none
  | .push => match s.caller with
    | .pushing c => some { s with requests := s.requests.pushMove c.opCode
                                  caller := if c.opCode = .getBatch then .draining else .idle }
    | _ => none
  | .drain => match s.caller with
    | .draining => some { s with caller := if 63 < s.requests.size.toInt then .draining else .idle }
    | _ => none
  | .finish => match s.caller with
    | .idle => some { s with done := true, caller := .finishing 5 }
    | _ => none
  | .pushLast => match s.caller with
    | .finishing (pushes + 1) => some { s with requests := s.requests.pushMove .getBatch
                                               caller := .finishing pushes }
    | _ => none
  | .join => match s.caller, s.reader with
    | .finishing 0, .returned => some { s with caller := .finished }
    | _, _ => none
  | .loop => match s.reader with
    | .looping => some { s with reader := if s.done then .returned else .popping }
    | _ => none
  | .pop => match s.reader with
    | .popping => s.requests.pop.map fun r => { s with requests := r.2, reader := .notifying }
    | _ => none
  | .notify => match s.reader with
    | .notifying => some { s with caller := s.caller.notified, reader := .receiving }
    | _ => none
  | .receive request results => match s.reader with
    | .receiving =>
        if request ∈ s.unanswered then
          some { s with unanswered := s.unanswered.erase request
                        total := s.total + BitVec.ofNat 32 results.length
                        reader := .looping }
        else none
    | _ => none
  | .timeOut => match s.reader with
    | .receiving => some { s with reader := .looping }
    | _ => none

/-- The steps as a transition system. -/
def Steps (s : ClientThreads) (e : ThreadsEvent) (s' : ClientThreads) : Prop := s.step e = some s'

/-- The steps, one by one. -/
inductive Takes (s : ClientThreads) : ThreadsEvent → ClientThreads → Prop
  | call (c : ClientCall) (h : s.caller = .idle) :
      Takes s (.call c) { s with caller := .testing c }
  | test {c : ClientCall} (h : s.caller = .testing c) : Takes s .test
      { s with
        caller := if (AsyncClient.inFlightLimit : Int) ≤ s.requests.size.toInt then .blocking c
          else .sending c }
  | sleep {c : ClientCall} (h : s.caller = .blocking c) :
      Takes s .sleep { s with caller := .asleep c }
  | wakeSpuriously {c : ClientCall} (h : s.caller = .asleep c) :
      Takes s .wakeSpuriously { s with caller := .testing c }
  | send {c : ClientCall} (h : s.caller = .sending c) : Takes s .send
      { s with unanswered := s.unanswered ++ [c.request s.seqId]
               sequenceNum := s.sequenceNum + 1
               caller := .pushing c }
  | push {c : ClientCall} (h : s.caller = .pushing c) : Takes s .push
      { s with requests := s.requests.pushMove c.opCode
               caller := if c.opCode = .getBatch then .draining else .idle }
  | drain (h : s.caller = .draining) : Takes s .drain
      { s with caller := if 63 < s.requests.size.toInt then .draining else .idle }
  | finish (h : s.caller = .idle) : Takes s .finish { s with done := true, caller := .finishing 5 }
  | pushLast {pushes : Nat} (h : s.caller = .finishing (pushes + 1)) : Takes s .pushLast
      { s with requests := s.requests.pushMove .getBatch, caller := .finishing pushes }
  | join (h : s.caller = .finishing 0) (hr : s.reader = .returned) :
      Takes s .join { s with caller := .finished }
  | loop (h : s.reader = .looping) :
      Takes s .loop { s with reader := if s.done then .returned else .popping }
  | pop {code : OpCode} {q : Queue OpCode} (h : s.reader = .popping)
      (hpop : s.requests.pop = some (code, q)) :
      Takes s .pop { s with requests := q, reader := .notifying }
  | notify (h : s.reader = .notifying) :
      Takes s .notify { s with caller := s.caller.notified, reader := .receiving }
  | receive {request : AsyncCall} (results : List Str) (h : s.reader = .receiving)
      (hmem : request ∈ s.unanswered) : Takes s (.receive request results)
        { s with unanswered := s.unanswered.erase request
                 total := s.total + BitVec.ofNat 32 results.length
                 reader := .looping }
  | timeOut (h : s.reader = .receiving) : Takes s .timeOut { s with reader := .looping }

theorem Steps.takes {s s' : ClientThreads} {e : ThreadsEvent} (hs : s.Steps e s') :
    s.Takes e s' := by
  cases e with
  | pop =>
      simp only [Steps, step] at hs
      split at hs
      · rename_i hr
        obtain ⟨⟨code, q⟩, hpop, rfl⟩ := Option.map_eq_some_iff.mp hs
        exact .pop hr hpop
      · cases hs
  | receive request results =>
      simp only [Steps, step] at hs
      split at hs
      · rename_i hr
        split at hs
        · rename_i hmem
          cases hs
          exact .receive results hr hmem
        · cases hs
      · cases hs
  | join =>
      simp only [Steps, step] at hs
      split at hs
      · rename_i hc hr
        cases hs
        exact .join hc hr
      · cases hs
  | call _ | test | sleep | wakeSpuriously | send | push | drain | finish | pushLast | loop | notify
  | timeOut =>
      simp only [Steps, step] at hs
      split at hs
      · rename_i h
        cases hs
        constructor
        exact h
      · cases hs

/-! ## Waking up -/

/-- The steps in which the calling thread stays asleep. -/
def AsleepSteps (s : ClientThreads) (e : ThreadsEvent) (s' : ClientThreads) : Prop :=
  s.Steps e s' ∧ ∃ c, s'.caller = .asleep c

/-- `read_responses` has yet to notify somebody: it is about to, or finds a
kind to pop. -/
def Attended (s : ClientThreads) : Prop := s.requests.items ≠ [] ∨ s.reader = .notifying

/-- `done_` is set in `finish` only, and the reading thread returns only then. -/
structure Orderly (s : ClientThreads) : Prop where
  done : s.done = true → (∃ k, s.caller = .finishing k) ∨ s.caller = .finished
  returned : s.reader = .returned → s.done = true

section Steps

variable {s s' : ClientThreads} {e : ThreadsEvent} {c : ClientCall}

theorem Orderly.running (h : s.Orderly) (hfinishing : ∀ k, s.caller ≠ .finishing k)
    (hfinished : s.caller ≠ .finished) : s.done = false := by
  by_contra hdone
  rcases h.done (by simpa using hdone) with ⟨k, hk⟩ | hk
  · exact hfinishing k hk
  · exact hfinished hk

theorem Orderly.not_returned (h : s.Orderly) (hdone : s.done = false) : s.reader ≠ .returned := by
  intro hr
  have := h.returned hr
  rw [hdone] at this
  cases this

theorem Orderly.step (h : s.Orderly) (hs : s.Steps e s') : s'.Orderly := by
  cases hs.takes with
  | call _ hc | test hc | sleep hc | wakeSpuriously hc | send hc | push hc | drain hc =>
      have hdone := h.running (by simp [hc]) (by simp [hc])
      exact ⟨fun hd => absurd hd (by simp [hdone]), fun hr => absurd hr (h.not_returned hdone)⟩
  | finish _ => exact ⟨fun _ => .inl ⟨5, rfl⟩, fun _ => rfl⟩
  | pushLast _ => exact ⟨fun _ => .inl ⟨_, rfl⟩, h.returned⟩
  | join _ hr => exact ⟨fun _ => .inr rfl, h.returned⟩
  | loop hr =>
      refine ⟨h.done, ?_⟩
      intro hreturned
      cases hdone : s.done with
      | true => rfl
      | false => simp [hdone] at hreturned
  | pop _ _ | receive _ _ _ | timeOut _ => exact ⟨h.done, fun hr => by cases hr⟩
  | notify _ =>
      refine ⟨?_, fun hr => by cases hr⟩
      intro hdone
      rcases h.done hdone with ⟨k, hk⟩ | hk
      · exact .inl ⟨k, by simp [hk, CallPlace.notified]⟩
      · exact .inr (by simp [hk, CallPlace.notified])

theorem orderly_of_run {id : Int} {es : List ThreadsEvent}
    (h : Run Steps { clientId := id } es s) : s.Orderly :=
  h.invariant (I := fun _ s => s.Orderly) ⟨fun hdone => (by cases hdone), fun hr => (by cases hr)⟩
    fun _ ho hs => ho.step hs

/-- How far the reading thread is from its `notify_one`. -/
def ReadPlace.toNotify : ReadPlace → Nat
  | receiving => 3
  | looping => 2
  | popping => 1
  | notifying | returned => 0

/-- While the calling thread sleeps, nobody else puts kinds in `requests_`, and
each step brings the reading thread closer to its `notify_one`. -/
theorem Attended.step (h : s.Attended) (hc : s.caller = .asleep c) (hdone : s.done = false)
    (hs : s.AsleepSteps e s') : s'.Attended ∧ s'.reader.toNotify < s.reader.toNotify ∧
      s'.done = false := by
  obtain ⟨hs, c', hc'⟩ := hs
  cases hs.takes with
  | call _ hp | test hp | sleep hp | send hp | push hp | drain hp | finish hp | pushLast hp
  | join hp _ =>
      rw [hc] at hp
      cases hp
  | wakeSpuriously _ => cases hc'
  | notify hr =>
      rw [show (s.caller.notified : CallPlace) = .testing c by rw [hc]; rfl] at hc'
      cases hc'
  | loop hr =>
      have hitems : s.requests.items ≠ [] := h.resolve_right (by rw [hr]; decide)
      refine ⟨.inl hitems, ?_, hdone⟩
      rw [hr, hdone]
      show 1 < 2
      decide
  | pop hr hpop =>
      refine ⟨.inr rfl, ?_, hdone⟩
      rw [hr]
      show 0 < 1
      decide
  | receive _ hr _ | timeOut hr =>
      have hitems : s.requests.items ≠ [] := h.resolve_right (by rw [hr]; decide)
      refine ⟨.inl hitems, ?_, hdone⟩
      rw [hr]
      show 2 < 3
      decide

/-- Until then the reading thread has a step to take. -/
theorem Attended.exists_step (h : s.Attended) (hreturned : s.reader ≠ .returned) :
    ∃ e t, e ≠ .wakeSpuriously ∧ s.Steps e t := by
  cases hr : s.reader with
  | returned => exact absurd hr hreturned
  | looping =>
      refine ⟨.loop, { s with reader := if s.done then .returned else .popping }, by decide, ?_⟩
      simp [Steps, ClientThreads.step, hr]
  | popping =>
      have hitems : s.requests.items ≠ [] := h.resolve_right (by rw [hr]; decide)
      cases hpop : s.requests.pop with
      | none => exact absurd (Queue.pop_eq_none.mp hpop) hitems
      | some r =>
          refine ⟨.pop, { s with requests := r.2, reader := .notifying }, by decide, ?_⟩
          simp [Steps, ClientThreads.step, hr, hpop]
  | notifying =>
      refine ⟨.notify, { s with caller := s.caller.notified, reader := .receiving }, by decide, ?_⟩
      simp [Steps, ClientThreads.step, hr]
  | receiving =>
      refine ⟨.timeOut, { s with reader := .looping }, by decide, ?_⟩
      simp [Steps, ClientThreads.step, hr]

/-- With nobody to notify it the calling thread sleeps on, while the reading
one goes to wait for a kind. -/
theorem exists_stranded (hc : s.caller = .asleep c) (hdone : s.done = false)
    (hreturned : s.reader ≠ .returned) (hnot : ¬ s.Attended) :
    ∃ es t, Run AsleepSteps s es t ∧ ∀ e u, t.Steps e u → e = .wakeSpuriously := by
  have hempty : s.requests.items = [] := by
    by_contra hne
    exact hnot (.inl hne)
  have hstuck : ∀ e u, Steps { s with reader := .popping } e u → e = .wakeSpuriously := by
    intro e u hs
    cases hs.takes with
    | wakeSpuriously _ => rfl
    | call _ hp | test hp | sleep hp | send hp | push hp | drain hp | finish hp | pushLast hp
    | join hp _ =>
        rw [show ({ s with reader := .popping } : ClientThreads).caller = .asleep c from hc] at hp
        cases hp
    | pop _ hpop =>
        have hitems := Queue.pop_eq_some.mp hpop
        rw [show ({ s with reader := .popping } : ClientThreads).requests.items = [] from hempty]
          at hitems
        cases hitems
    | loop hr | notify hr | receive _ hr _ | timeOut hr => cases hr
  have hloop : AsleepSteps { s with reader := .looping } .loop { s with reader := .popping } := by
    refine ⟨?_, c, hc⟩
    simp [Steps, step, hdone]
  cases hr : s.reader with
  | returned => exact absurd hr hreturned
  | notifying => exact absurd (.inr hr) hnot
  | popping => exact ⟨[], s, .nil, by rwa [← hr] at hstuck⟩
  | looping =>
      rw [← hr] at hloop
      exact ⟨[.loop], _, .single hloop, hstuck⟩
  | receiving =>
      have htime : AsleepSteps s .timeOut { s with reader := .looping } := by
        refine ⟨?_, c, hc⟩
        simp [Steps, step, hr]
      exact ⟨[.timeOut] ++ [.loop], _, (Run.single htime).append (.single hloop), hstuck⟩

/-- Without a spurious wake-up it sleeps on, whatever the reading thread does. -/
theorem asleep_step (hc : s.caller = .asleep c) (hdone : s.done = false) (hnot : ¬ s.Attended)
    (hs : s.Steps e s') (he : e ≠ .wakeSpuriously) :
    s'.caller = .asleep c ∧ s'.done = false ∧ ¬ s'.Attended := by
  rw [Attended, not_or, not_not] at hnot
  obtain ⟨hempty, hreader⟩ := hnot
  have hunattended : ∀ p, p ≠ .notifying → ¬ Attended { s with reader := p } := by
    rintro p hp (hitems | hnotifying)
    · exact hitems hempty
    · exact hp hnotifying
  cases hs.takes with
  | call _ hp | test hp | sleep hp | send hp | push hp | drain hp | finish hp | pushLast hp
  | join hp _ =>
      rw [hc] at hp
      cases hp
  | wakeSpuriously _ => exact absurd rfl he
  | notify hr => exact absurd hr hreader
  | pop _ hpop =>
      rw [Queue.pop_eq_none.mpr hempty] at hpop
      cases hpop
  | loop _ =>
      refine ⟨hc, hdone, hunattended _ ?_⟩
      rw [hdone]
      decide
  | receive _ _ _ => exact ⟨hc, hdone, hunattended _ (by decide)⟩
  | timeOut _ => exact ⟨hc, hdone, hunattended _ (by decide)⟩

end Steps

/-- **When a sleeping call is woken**: within four steps of the reading thread,
all of which it can take, exactly if a kind is left in `requests_` or the
thread is about to notify. Otherwise only a spurious wake-up helps: without one
it is asleep after every run. -/
theorem woken_iff {id : Int} {es : List ThreadsEvent} {s : ClientThreads} {c : ClientCall}
    (h : Run Steps { clientId := id } es s) (hc : s.caller = .asleep c) :
    ((∀ es' s', Run AsleepSteps s es' s' →
      es'.length ≤ 3 ∧ ∃ e t, e ≠ .wakeSpuriously ∧ s'.Steps e t) ↔
    s.requests.items ≠ [] ∨ s.reader = .notifying) ∧
    (¬ (s.requests.items ≠ [] ∨ s.reader = .notifying) →
      ∀ es' s', Run Steps s es' s' → .wakeSpuriously ∉ es' → s'.caller = .asleep c) := by
  have horderly := orderly_of_run h
  have hdone : s.done = false := horderly.running (by simp [hc]) (by simp [hc])
  have hreturned : s.reader ≠ .returned := horderly.not_returned hdone
  refine ⟨⟨?_, ?_⟩, fun hnot es' s' hrun hnone => ?_⟩
  · intro hwoken
    by_contra hnot
    obtain ⟨es', t, hrun, hstuck⟩ := exists_stranded hc hdone hreturned hnot
    obtain ⟨-, e, u, hne, hs⟩ := hwoken es' t hrun
    exact hne (hstuck e u hs)
  · intro hattended es' s' hrun
    have hall := hrun.invariant (I := fun es' s' => es'.length + s'.reader.toNotify ≤ 3 ∧
        s'.Attended ∧ s'.done = false ∧ ∃ c, s'.caller = .asleep c)
      ⟨?_, hattended, hdone, c, hc⟩ fun _ hinv hs => by
        obtain ⟨hle, hatt, hdone, c, hc⟩ := hinv
        obtain ⟨hatt', hlt, hdone'⟩ := hatt.step hc hdone hs
        refine ⟨?_, hatt', hdone', hs.2⟩
        rw [List.length_append, List.length_singleton]
        omega
    · obtain ⟨hle, hatt, hdone', -⟩ := hall
      have horderly' : s'.Orderly := hrun.invariant (I := fun _ s => s.Orderly) horderly
        fun _ ho hs => ho.step hs.1
      exact ⟨by omega, hatt.exists_step (horderly'.not_returned hdone')⟩
    · show 0 + s.reader.toNotify ≤ 3
      cases s.reader <;> decide
  · have hall := hrun.invariant (I := fun es' s' => .wakeSpuriously ∉ es' →
        s'.caller = .asleep c ∧ s'.done = false ∧ ¬ s'.Attended)
      (fun _ => ⟨hc, hdone, hnot⟩) fun _ ih hs hnone => by
        rw [List.mem_append, List.mem_singleton, not_or] at hnone
        obtain ⟨hc', hdone', hnot'⟩ := ih hnone.1
        exact asleep_step hc' hdone' hnot' hs (Ne.symm hnone.2)
    exact (hall hnone).1

/-- A get of `k`, as far as its kind's push. -/
def oneGet : List ThreadsEvent := [.call (.get ['k']), .test, .send, .push]

/-- The response to the `i`-th of those. -/
def oneResponse (i : Nat) : List ThreadsEvent :=
  [.loop, .pop, .notify, .receive (.get ⟨0, i, 0⟩ ['k']) [['v']]]

/-- Sixteen gets, and a seventeenth that goes to sleep when all of them have
been answered. -/
def lostWakeUp : List ThreadsEvent :=
  (List.replicate 16 oneGet).flatten ++ [.call (.get ['k']), .test] ++
    (List.range 16).flatMap oneResponse ++ [.sleep]

/-- **The lost wake-up**: nothing is left to be answered, and nobody will wake
the seventeenth get. -/
theorem woken_iff_lostWakeUp : ∃ s, Run Steps { clientId := 0 } lostWakeUp s ∧
    s.caller = .asleep (.get ['k']) ∧ s.unanswered = [] ∧
    (¬ ∀ es' s', Run AsleepSteps s es' s' →
      es'.length ≤ 3 ∧ ∃ e t, e ≠ .wakeSpuriously ∧ s'.Steps e t) ∧
    ∀ es' s', Run Steps s es' s' → .wakeSpuriously ∉ es' → s'.caller = .asleep (.get ['k']) := by
  have hsteps : (lostWakeUp.foldlM step { clientId := 0 }).map
      (fun s => (s.caller, s.unanswered, s.requests.items, s.reader))
      = some (.asleep (.get ['k']), [], [], .looping) := by
    decide +kernel
  obtain ⟨s, hs, hleft⟩ := Option.map_eq_some_iff.mp hsteps
  simp only [Prod.mk.injEq] at hleft
  obtain ⟨hcaller, hunanswered, hrequests, hreader⟩ := hleft
  have hrun : Run Steps { clientId := 0 } lostWakeUp s := .of_foldlM (fun h => h) hs
  obtain ⟨hwoken, hsleeps⟩ := woken_iff hrun hcaller
  rw [hrequests, hreader] at hwoken hsleeps
  refine ⟨s, hrun, hcaller, hunanswered, ?_, hsleeps (by simp)⟩
  rw [hwoken]
  simp

/-! ## Against the client without `finish` -/

/-- `Caller`, where a call that goes to sleep waits already. -/
def CallPlace.coarse : CallPlace → Caller
  | testing c => .testing c
  | blocking c | asleep c => .waiting c
  | sending c => .sending c
  | pushing c => .pushing c
  | draining => .draining
  | idle | finishing _ | finished => .idle

/-- `Reader`, where the loop starts at the `pop`. -/
def ReadPlace.coarse : ReadPlace → Reader
  | notifying => .notifying
  | receiving => .receiving
  | looping | popping | returned => .popping

/-- What `AsyncClient` shows of the state. -/
def coarse (s : ClientThreads) : AsyncClient where
  clientId := s.clientId
  sequenceNum := s.sequenceNum
  requests := s.requests
  total := s.total
  unanswered := s.unanswered
  caller := s.caller.coarse
  reader := s.reader.coarse

/-- The steps that `AsyncClient` knows. -/
def known : ThreadsEvent → Bool
  | .finish | .pushLast | .join | .timeOut => false
  | _ => true

/-- A step without time-out before `finish` is some steps of `AsyncClient`. -/
theorem Steps.coarse {s s' : ClientThreads} {e : ThreadsEvent} (hs : s.Steps e s')
    (hknown : known e = true) (hdone : s.done = false) :
    s'.done = false ∧ ∃ es, Run AsyncClient.Steps s.coarse es s'.coarse := by
  -- where the calling or the reading thread is, for `AsyncClient`
  have hcaller : ∀ {p}, s.caller = p → s.coarse.caller = p.coarse := fun h => by rw [← h]; rfl
  have hreader : ∀ {p}, s.reader = p → s.coarse.reader = p.coarse := fun h => by rw [← h]; rfl
  cases hs.takes with
  | finish _ | pushLast _ | join _ _ | timeOut _ => cases hknown
  | call c hc =>
      refine ⟨hdone, [.call c], .single ?_⟩
      simp only [AsyncClient.Steps, AsyncClient.step, hcaller hc, CallPlace.coarse]
      rfl
  | @test c hc =>
      refine ⟨hdone, [.test], .single ?_⟩
      simp only [AsyncClient.Steps, AsyncClient.step, hcaller hc, CallPlace.coarse]
      by_cases hfull : (AsyncClient.inFlightLimit : Int) ≤ s.requests.size.toInt
      · rw [if_pos (show (AsyncClient.inFlightLimit : Int) ≤ s.coarse.requests.size.toInt
          from hfull), if_pos hfull]
        rfl
      · rw [if_neg (show ¬ (AsyncClient.inFlightLimit : Int) ≤ s.coarse.requests.size.toInt
          from hfull), if_neg hfull]
        rfl
  | @sleep c hc =>
      refine ⟨hdone, [], ?_⟩
      have hsame : ClientThreads.coarse { s with caller := .asleep c } = s.coarse := by
        simp only [ClientThreads.coarse, hc, CallPlace.coarse]
      rw [hsame]
      exact .nil
  | wakeSpuriously hc =>
      refine ⟨hdone, [.wake], .single ?_⟩
      simp only [AsyncClient.Steps, AsyncClient.step, hcaller hc, CallPlace.coarse]
      rfl
  | send hc =>
      refine ⟨hdone, [.send], .single ?_⟩
      simp only [AsyncClient.Steps, AsyncClient.step, hcaller hc, CallPlace.coarse]
      rfl
  | @push c hc =>
      refine ⟨hdone, [.push], .single ?_⟩
      simp only [AsyncClient.Steps, AsyncClient.step, hcaller hc, CallPlace.coarse]
      by_cases hbatch : c.opCode = .getBatch
      · rw [if_pos hbatch, if_pos hbatch]
        rfl
      · rw [if_neg hbatch, if_neg hbatch]
        rfl
  | drain hc =>
      refine ⟨hdone, [.drain], .single ?_⟩
      simp only [AsyncClient.Steps, AsyncClient.step, hcaller hc, CallPlace.coarse]
      by_cases hmany : 63 < s.requests.size.toInt
      · rw [if_pos (show 63 < s.coarse.requests.size.toInt from hmany), if_pos hmany]
        rfl
      · rw [if_neg (show ¬ 63 < s.coarse.requests.size.toInt from hmany), if_neg hmany]
        rfl
  | loop hr =>
      refine ⟨hdone, [], ?_⟩
      have hsame : ClientThreads.coarse { s with
          reader := if s.done then .returned else .popping } = s.coarse := by
        simp [ClientThreads.coarse, hr, hdone, ReadPlace.coarse]
      rw [hsame]
      exact .nil
  | pop hr hpop =>
      refine ⟨hdone, [.pop], .single ?_⟩
      simp only [AsyncClient.Steps, AsyncClient.step, hreader hr, ReadPlace.coarse]
      rw [show s.coarse.requests.pop = _ from hpop]
      rfl
  | notify hr =>
      have hnotify : s.coarse.Steps .notify { s.coarse with reader := .receiving } := by
        simp only [AsyncClient.Steps, AsyncClient.step, hreader hr, ReadPlace.coarse]
      cases hc : s.caller with
      | asleep c =>
          -- the woken call is back at its test
          refine ⟨hdone, [.notify] ++ [.wake], (Run.single hnotify).append (.single ?_)⟩
          simp only [AsyncClient.Steps, AsyncClient.step, hcaller hc, CallPlace.coarse]
          rfl
      | _ =>
          refine ⟨hdone, [.notify], ?_⟩
          have hsame : ClientThreads.coarse
              { s with caller := s.caller.notified, reader := .receiving }
                = { s.coarse with reader := .receiving } := by
            simp only [ClientThreads.coarse, hc, CallPlace.notified, ReadPlace.coarse]
          rw [← hc, hsame]
          exact .single hnotify
  | @receive request results hr hmem =>
      refine ⟨hdone, [.receive request results], .single ?_⟩
      simp only [AsyncClient.Steps, AsyncClient.step, hreader hr, ReadPlace.coarse]
      rw [if_pos (show request ∈ s.coarse.unanswered from hmem)]
      rfl

end ClientThreads

end Pancake
