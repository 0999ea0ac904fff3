import Mathlib.Order.Bounds.Defs
import Pancake.ClientThreads

/-!
# What the asynchronous client has in flight

A time-out of the socket leaves a request without a response that no kind in
`requests_` stands for, so with every time-out one request more can be in
flight. And `finish` makes the reading thread return, with whatever is in
flight then.
-/

namespace Pancake

namespace ClientThreads

/-! ## The account -/

/-- The kinds popped whose response is awaited. -/
def ReadPlace.awaited : ReadPlace → Nat
  | notifying | receiving => 1
  | _ => 0

namespace CallPlace

/-- The requests sent whose kind has yet to be pushed. -/
def unpushed : CallPlace → Nat
  | pushing _ => 1
  | _ => 0

/-- The kinds pushed by `finish`, which no request stands for. -/
def spare : CallPlace → Nat
  | finishing k => 5 - k
  | finished => 5
  | _ => 0

/-- The test of the `while` has let the call through. -/
def Admitted : CallPlace → Prop
  | sending _ | pushing _ => True
  | _ => False

theorem spare_le (p : CallPlace) : p.spare ≤ 5 := by
  cases p <;> simp only [spare] <;> omega

theorem notified_unpushed (p : CallPlace) : p.notified.unpushed = p.unpushed := by
  cases p <;> rfl

theorem notified_spare (p : CallPlace) : p.notified.spare = p.spare := by
  cases p <;> rfl

end CallPlace

/-- What an event adds to the time-outs. -/
def ticks : ThreadsEvent → Nat
  | .timeOut => 1
  | _ => 0

/-- After so many time-outs, the requests without a response: those whose kinds
are in `requests_`, the one awaited, the one being sent, and one for every
time-out. -/
structure Accounted (timeOuts : Nat) (s : ClientThreads) : Prop where
  count : s.unanswered.length + s.caller.spare
    = s.requests.items.length + s.reader.awaited + s.caller.unpushed + timeOuts
  filled : s.requests.items.length ≤ AsyncClient.inFlightLimit + s.caller.spare
  room : s.caller.Admitted → s.requests.items.length < AsyncClient.inFlightLimit
  pushes : ∀ k, s.caller = .finishing k → k ≤ 5

namespace Accounted

variable {n : Nat} {s s' : ClientThreads}

theorem toInt_size (h : s.Accounted n) : s.requests.size.toInt = s.requests.items.length := by
  apply s.requests.toInt_size.mpr
  have hfilled := h.filled
  have hspare := s.caller.spare_le
  have hlimit : AsyncClient.inFlightLimit = 16 := rfl
  omega

/-- Moving the calling thread on, with nothing sent or pushed. -/
theorem move (h : s.Accounted n) {caller : CallPlace}
    (hunpushed : caller.unpushed = s.caller.unpushed) (hspare : caller.spare = s.caller.spare)
    (hroom : caller.Admitted → s.requests.items.length < AsyncClient.inFlightLimit)
    (hpushes : ∀ k, caller = .finishing k → k ≤ 5) : Accounted n { s with caller := caller } := by
  refine ⟨?_, ?_, hroom, hpushes⟩
  · show s.unanswered.length + caller.spare = _ + _ + caller.unpushed + n
    rw [hunpushed, hspare]
    exact h.count
  · show _ ≤ _ + caller.spare
    rw [hspare]
    exact h.filled

/-- The test lets a call through when fewer kinds than the limit are left. -/
theorem test (h : s.Accounted n) {c : ClientCall} (hc : s.caller = .testing c) :
    Accounted n { s with
      caller := if (AsyncClient.inFlightLimit : Int) ≤ s.requests.size.toInt then .blocking c
        else .sending c } := by
  by_cases hfull : (AsyncClient.inFlightLimit : Int) ≤ s.requests.size.toInt
  · rw [if_pos hfull]
    exact h.move (by rw [hc]; rfl) (by rw [hc]; rfl) (fun ha => ha.elim) (by simp)
  · rw [if_neg hfull]
    rw [h.toInt_size] at hfull
    exact h.move (by rw [hc]; rfl) (by rw [hc]; rfl) (fun _ => by omega) (by simp)

theorem drain (h : s.Accounted n) (hc : s.caller = .draining) :
    Accounted n { s with caller := if 63 < s.requests.size.toInt then .draining else .idle } := by
  by_cases hmany : 63 < s.requests.size.toInt
  · rw [if_pos hmany]
    exact h.move (by rw [hc]) (by rw [hc]) (fun ha => ha.elim) (by simp)
  · rw [if_neg hmany]
    exact h.move (by rw [hc]; rfl) (by rw [hc]; rfl) (fun ha => ha.elim) (by simp)

/-- A request sent waits for its kind to be pushed. -/
theorem send (h : s.Accounted n) {c : ClientCall} (hc : s.caller = .sending c) :
    Accounted n { s with
      unanswered := s.unanswered ++ [c.request s.seqId]
      sequenceNum := s.sequenceNum + 1
      caller := .pushing c } := by
  have hcount := h.count
  have hfilled := h.filled
  rw [hc] at hcount hfilled
  refine ⟨?_, hfilled, fun _ => h.room (by rw [hc]; trivial), by simp⟩
  show (s.unanswered ++ [_]).length + 0 = s.requests.items.length + s.reader.awaited + 1 + n
  rw [List.length_append, List.length_singleton]
  simp only [CallPlace.spare, CallPlace.unpushed] at hcount
  omega

/-- A kind pushed stands for the request sent. -/
theorem push (h : s.Accounted n) {c : ClientCall} (hc : s.caller = .pushing c) {place : CallPlace}
    (hspare : place.spare = 0) (hunpushed : place.unpushed = 0) (hadmitted : ¬ place.Admitted)
    (hfinishing : ∀ k, place ≠ .finishing k) :
    Accounted n { s with requests := s.requests.pushMove c.opCode, caller := place } := by
  have hcount := h.count
  have hroom := h.room (by rw [hc]; trivial)
  rw [hc] at hcount
  simp only [CallPlace.spare, CallPlace.unpushed] at hcount
  have hlen : (s.requests.pushMove c.opCode).items.length = s.requests.items.length + 1 := by
    simp
  refine ⟨?_, ?_, fun ha => absurd ha hadmitted, fun k hk => absurd hk (hfinishing k)⟩
  · show s.unanswered.length + place.spare
      = (s.requests.pushMove c.opCode).items.length + s.reader.awaited + place.unpushed + n
    omega
  · show (s.requests.pushMove c.opCode).items.length ≤ _ + place.spare
    omega

/-- A kind that `finish` pushes stands for none. -/
theorem pushLast (h : s.Accounted n) {k : Nat} (hc : s.caller = .finishing (k + 1)) :
    Accounted n { s with
      requests := s.requests.pushMove .getBatch
      caller := .finishing k } := by
  have hcount := h.count
  have hfilled := h.filled
  have hk := h.pushes _ hc
  rw [hc] at hcount hfilled
  simp only [CallPlace.spare, CallPlace.unpushed] at hcount hfilled
  have hlen : (s.requests.pushMove OpCode.getBatch).items.length
      = s.requests.items.length + 1 := by simp
  refine ⟨?_, ?_, fun ha => ha.elim, fun k' hk' => ?_⟩
  · show s.unanswered.length + (5 - k)
      = (s.requests.pushMove OpCode.getBatch).items.length + s.reader.awaited + 0 + n
    omega
  · show (s.requests.pushMove OpCode.getBatch).items.length ≤ _ + (5 - k)
    omega
  · cases hk'
    omega

/-- A kind popped is one whose response is awaited. -/
theorem pop (h : s.Accounted n) (hr : s.reader = .popping) {code : OpCode} {q : Queue OpCode}
    (hpop : s.requests.pop = some (code, q)) :
    Accounted n { s with requests := q, reader := .notifying } := by
  have hcount := h.count
  have hfilled := h.filled
  have hlen := congrArg List.length (Queue.pop_eq_some.mp hpop)
  rw [List.length_cons] at hlen
  rw [hr] at hcount
  simp only [ReadPlace.awaited] at hcount
  refine ⟨?_, ?_, fun ha => ?_, h.pushes⟩
  · show s.unanswered.length + s.caller.spare = q.items.length + 1 + s.caller.unpushed + n
    omega
  · show q.items.length ≤ AsyncClient.inFlightLimit + s.caller.spare
    omega
  · have hroom := h.room ha
    show q.items.length < _
    omega

theorem notify (h : s.Accounted n) (hr : s.reader = .notifying) :
    Accounted n { s with caller := s.caller.notified, reader := .receiving } := by
  have hcount := h.count
  have hfilled := h.filled
  rw [hr] at hcount
  refine ⟨?_, ?_, fun ha => ?_, fun k hk => ?_⟩
  · show _ + s.caller.notified.spare = _ + 1 + s.caller.notified.unpushed + n
    rw [CallPlace.notified_spare, CallPlace.notified_unpushed]
    exact hcount
  · show _ ≤ _ + s.caller.notified.spare
    rw [CallPlace.notified_spare]
    exact hfilled
  · apply h.room
    cases hc : s.caller <;> simp_all [CallPlace.notified, CallPlace.Admitted]
  · apply h.pushes
    cases hc : s.caller <;> simp_all [CallPlace.notified]

/-- A response answers one request. -/
theorem receive (h : s.Accounted n) (hr : s.reader = .receiving) {request : AsyncCall}
    (hmem : request ∈ s.unanswered) (total : CInt) :
    Accounted n { s with
      unanswered := s.unanswered.erase request
      total := total
      reader := .looping } := by
  have hcount := h.count
  have hpos := List.length_pos_of_mem hmem
  rw [hr] at hcount
  simp only [ReadPlace.awaited] at hcount
  refine ⟨?_, h.filled, h.room, h.pushes⟩
  show (s.unanswered.erase request).length + s.caller.spare
    = s.requests.items.length + 0 + s.caller.unpushed + n
  rw [List.length_erase_of_mem hmem]
  omega

/-- A time-out leaves a request that no kind stands for. -/
theorem timeOut (h : s.Accounted n) (hr : s.reader = .receiving) :
    Accounted (n + 1) { s with reader := .looping } := by
  have hcount := h.count
  rw [hr] at hcount
  simp only [ReadPlace.awaited] at hcount
  refine ⟨?_, h.filled, h.room, h.pushes⟩
  show s.unanswered.length + s.caller.spare
    = s.requests.items.length + 0 + s.caller.unpushed + (n + 1)
  omega

/-- **A step** of either thread. -/
theorem step {e : ThreadsEvent} (h : s.Accounted n) (hs : s.Steps e s') :
    s'.Accounted (n + ticks e) := by
  have hcount := h.count
  have hfilled := h.filled
  cases hs.takes with
  | call c hc | sleep hc | wakeSpuriously hc =>
      exact h.move (by rw [hc]; rfl) (by rw [hc]; rfl) (fun ha => ha.elim) (by simp)
  | test hc => exact h.test hc
  | drain hc => exact h.drain hc
  | send hc => exact h.send hc
  | @push c hc =>
      by_cases hbatch : c.opCode = .getBatch
      · rw [if_pos hbatch]
        exact h.push hc rfl rfl id (by simp)
      · rw [if_neg hbatch]
        exact h.push hc rfl rfl id (by simp)
  | finish hc =>
      rw [hc] at hcount hfilled
      exact ⟨hcount, hfilled, fun ha => ha.elim, fun k hk => by cases hk; exact le_rfl⟩
  | pushLast hc => exact h.pushLast hc
  | join hc hr =>
      rw [hc] at hcount hfilled
      exact ⟨hcount, hfilled, fun ha => ha.elim, by simp⟩
  | loop hr =>
      refine ⟨?_, hfilled, h.room, h.pushes⟩
      rw [hr] at hcount
      cases hdone : s.done <;> exact hcount
  | pop hr hpop => exact h.pop hr hpop
  | notify hr => exact h.notify hr
  | receive _ hr hmem => exact h.receive hr hmem _
  | timeOut hr => exact h.timeOut hr

end Accounted

/-- The time-outs of a run. -/
def timeOuts (es : List ThreadsEvent) : Nat := (es.map ticks).sum

theorem timeOuts_append (es fs : List ThreadsEvent) :
    timeOuts (es ++ fs) = timeOuts es + timeOuts fs := by
  rw [timeOuts, List.map_append, List.sum_append]
  rfl

/-- **Every run** keeps the account. -/
theorem accounted_of_run {id : Int} {es : List ThreadsEvent} {s : ClientThreads}
    (h : Run Steps { clientId := id } es s) : s.Accounted (timeOuts es) := by
  refine h.invariant (I := fun es s => s.Accounted (timeOuts es))
    ⟨rfl, Nat.zero_le _, fun ha => ha.elim, by simp⟩ ?_
  intro es s e s' _ ha hs
  have hone : timeOuts [e] = ticks e := by simp [timeOuts]
  rw [timeOuts_append, hone]
  exact ha.step hs

/-- The calling thread is between two calls: where the reading one is, how many
kinds are in `requests_`, and how many requests have no response. -/
structure Between (s : ClientThreads) (reader : ReadPlace) (kinds inFlight : Nat) : Prop where
  idle : s.caller = .idle
  reader : s.reader = reader
  running : s.done = false
  kinds : s.requests.items.length = kinds
  inFlight : s.unanswered.length = inFlight

namespace Between

variable {s : ClientThreads} {reader : ReadPlace} {k n : Nat}

/-- A get finds room. -/
theorem oneGet (h : s.Between reader k n) (hk : k < AsyncClient.inFlightLimit) :
    ∃ s', Run Steps s oneGet s' ∧ s'.Between reader (k + 1) (n + 1) := by
  have hlimit : AsyncClient.inFlightLimit = 16 := rfl
  have hsize : s.requests.size.toInt = k := by
    rw [s.requests.toInt_size.mpr (by rw [h.kinds]; omega), h.kinds]
  have hroom : ¬ (AsyncClient.inFlightLimit : Int) ≤ k := by omega
  let s' : ClientThreads :=
    { s with
      caller := .idle
      requests := s.requests.pushMove .get
      unanswered := s.unanswered ++ [.get s.seqId ['k']]
      sequenceNum := s.sequenceNum + 1 }
  refine ⟨s', .of_foldlM (fun h => h) ?_, rfl, h.reader, h.running, ?_, ?_⟩
  · simp [ClientThreads.oneGet, ClientThreads.step, h.idle, hsize, hroom, ClientCall.opCode,
      ClientCall.request, seqId, s']
  · show (s.requests.pushMove OpCode.get).items.length = k + 1
    rw [Queue.items_pushMove, List.length_append, List.length_singleton, h.kinds]
  · show (s.unanswered ++ [_]).length = n + 1
    rw [List.length_append, List.length_singleton, h.inFlight]

/-- The reading thread goes to wait for the next response. -/
theorem nextKind (h : s.Between .looping (k + 1) n) :
    ∃ s', Run Steps s [.loop, .pop, .notify] s' ∧ s'.Between .receiving k n := by
  cases hpop : s.requests.pop with
  | none =>
      have hkinds := h.kinds
      rw [Queue.pop_eq_none.mp hpop] at hkinds
      cases hkinds
  | some r =>
      have hlen := congrArg List.length (Queue.pop_eq_some.mp hpop)
      rw [h.kinds, List.length_cons] at hlen
      let s' : ClientThreads := { s with requests := r.2, reader := .receiving }
      refine ⟨s', .of_foldlM (fun h => h) ?_, h.idle, rfl, h.running, ?_, h.inFlight⟩
      · simp [ClientThreads.step, h.idle, h.reader, h.running, hpop, CallPlace.notified, s']
      · show r.2.items.length = k
        omega

theorem timeOut (h : s.Between .receiving k n) :
    ∃ s', Run Steps s [.timeOut] s' ∧ s'.Between .looping k n := by
  refine ⟨{ s with reader := .looping }, .single ?_, h.idle, rfl, h.running, h.kinds, h.inFlight⟩
  simp [Steps, ClientThreads.step, h.reader]

end Between

/-- Sixteen gets, the first one's kind popped, and a seventeenth get. -/
theorem between_fillUp (id : Int) : ∃ es s, Run Steps { clientId := id } es s ∧ timeOuts es = 0 ∧
    s.Between .receiving 16 17 := by
  have hgets : ∀ k ≤ 16, ∃ es s, Run Steps { clientId := id } es s ∧ timeOuts es = 0 ∧
      s.Between .looping k k := by
    intro k
    induction k with
    | zero => exact fun _ => ⟨[], _, .nil, rfl, rfl, rfl, rfl, rfl, rfl⟩
    | succ k ih =>
        intro hk
        obtain ⟨es, s, hrun, htimeOuts, hs⟩ := ih (by omega)
        have hlimit : AsyncClient.inFlightLimit = 16 := rfl
        obtain ⟨s', hget, hs'⟩ := hs.oneGet (by omega)
        refine ⟨es ++ oneGet, s', hrun.append hget, ?_, hs'⟩
        rw [timeOuts_append, htimeOuts]
        rfl
  obtain ⟨es, s, hrun, htimeOuts, hs⟩ := hgets 16 le_rfl
  obtain ⟨s₁, hkind, hs₁⟩ := hs.nextKind
  obtain ⟨s₂, hget, hs₂⟩ := hs₁.oneGet (by decide)
  refine ⟨_, s₂, (hrun.append hkind).append hget, ?_, hs₂⟩
  rw [timeOuts_append, timeOuts_append, htimeOuts]
  rfl

/-- **How many requests are in flight**: over all runs with `t` time-outs, at
most `t` more than one above the limit, and as many as that. -/
theorem inFlight_isGreatest (id : Int) (t : Nat) :
    IsGreatest {n | ∃ es s, Run Steps { clientId := id } es s ∧ timeOuts es = t ∧
      s.unanswered.length = n} (AsyncClient.inFlightLimit + 1 + t) := by
  constructor
  · suffices hmost : ∃ es s, Run Steps { clientId := id } es s ∧ timeOuts es = t ∧
        s.Between .receiving 16 (17 + t) by
      obtain ⟨es, s, hrun, htimeOuts, hs⟩ := hmost
      exact ⟨es, s, hrun, htimeOuts, hs.inFlight⟩
    induction t with
    | zero => exact between_fillUp id
    | succ t ih =>
        obtain ⟨es, s, hrun, htimeOuts, hs⟩ := ih
        -- a time-out, the next kind, and another get
        obtain ⟨s₁, hout, hs₁⟩ := hs.timeOut
        obtain ⟨s₂, hkind, hs₂⟩ := hs₁.nextKind
        obtain ⟨s₃, hget, hs₃⟩ := hs₂.oneGet (by decide)
        refine ⟨_, s₃, ((hrun.append hout).append hkind).append hget, ?_, hs₃⟩
        rw [timeOuts_append, timeOuts_append, timeOuts_append, htimeOuts]
        rfl
  · rintro n ⟨es, s, hrun, rfl, rfl⟩
    obtain ⟨hcount, hfilled, hroom, -⟩ := accounted_of_run hrun
    have hawaited : s.reader.awaited ≤ 1 := by
      cases s.reader <;> decide
    cases hc : s.caller with
    | pushing c =>
        have hlt := hroom (by rw [hc]; trivial)
        rw [hc] at hcount
        simp only [CallPlace.spare, CallPlace.unpushed] at hcount
        omega
    | _ =>
        rw [hc] at hcount hfilled
        simp only [CallPlace.spare, CallPlace.unpushed] at hcount hfilled
        omega

/-! ## `finish` -/

/-- The steps that `finish` has yet to take. -/
def CallPlace.left : CallPlace → Nat
  | finishing k => k + 1
  | _ => 0

/-- The steps that `read_responses` has yet to take once `done_` is set. -/
def ReadPlace.left : ReadPlace → Nat
  | returned => 0
  | looping => 1
  | receiving => 2
  | notifying => 3
  | popping => 4

/-- The responses that it still reads. -/
def ReadPlace.responses : ReadPlace → Nat
  | popping | notifying | receiving => 1
  | _ => 0

/-- In `finish`, or past it: a reading thread that is at its `pop` finds, or
will find, a kind. -/
structure Closing (s : ClientThreads) : Prop where
  done : s.done = true
  place : (∃ k, s.caller = .finishing k) ∨ s.caller = .finished ∧ s.reader = .returned
  kinds : s.reader = .popping → 5 ≤ s.requests.items.length + (s.caller.left - 1)

namespace Closing

variable {s s' : ClientThreads} {e : ThreadsEvent}

theorem finishing (h : s.Closing) (hreturned : s.reader ≠ .returned) :
    ∃ k, s.caller = .finishing k :=
  h.place.resolve_right fun hf => hreturned hf.2

/-- **A step** is one less to take. -/
theorem step (h : s.Closing) (hs : s.Steps e s') : s'.Closing ∧
    s'.caller.left + s'.reader.left < s.caller.left + s.reader.left ∧
    s.unanswered.length + s'.reader.responses ≤ s'.unanswered.length + s.reader.responses := by
  cases hs.takes with
  | call _ hc | test hc | sleep hc | wakeSpuriously hc | send hc | push hc | drain hc | finish hc =>
      rcases h.place with ⟨k, hk⟩ | ⟨hk, -⟩
      · rw [hc] at hk
        cases hk
      · rw [hc] at hk
        cases hk
  | @pushLast k hc =>
      refine ⟨⟨h.done, .inl ⟨k, rfl⟩, fun hr => ?_⟩, ?_, le_rfl⟩
      · have hkinds := h.kinds hr
        rw [hc] at hkinds
        simp only [CallPlace.left] at hkinds ⊢
        rw [Queue.items_pushMove, List.length_append, List.length_singleton]
        omega
      · simp only [hc, CallPlace.left]
        omega
  | join hc hr =>
      refine ⟨⟨h.done, .inr ⟨rfl, hr⟩, fun hr' => ?_⟩, ?_, le_rfl⟩
      · rw [show ({ s with caller := .finished } : ClientThreads).reader = .returned from hr] at hr'
        cases hr'
      · simp only [hc, CallPlace.left]
        omega
  | loop hr =>
      have hplace := h.place
      rw [hr, h.done] at *
      refine ⟨⟨rfl, hplace.imp_right fun hf => (by cases hf.2), fun hr => by cases hr⟩, ?_, ?_⟩
      · simp [ReadPlace.left]
      · simp [ReadPlace.responses]
  | pop hr hpop =>
      have hplace := h.finishing (by simp [hr])
      refine ⟨⟨h.done, .inl hplace, fun hr => by cases hr⟩, ?_, ?_⟩
      · simp [hr, ReadPlace.left]
      · simp [hr, ReadPlace.responses]
  | notify hr =>
      obtain ⟨k, hk⟩ := h.finishing (by simp [hr])
      refine ⟨⟨h.done, .inl ⟨k, by simp [hk, CallPlace.notified]⟩, fun hr => by cases hr⟩, ?_, ?_⟩
      · simp [hr, hk, ReadPlace.left, CallPlace.notified]
      · simp [hr, ReadPlace.responses]
  | receive _ hr hmem =>
      have hplace := h.finishing (by simp [hr])
      refine ⟨⟨h.done, .inl hplace, fun hr => by cases hr⟩, ?_, ?_⟩
      · simp [hr, ReadPlace.left]
      · have hpos := List.length_pos_of_mem hmem
        simp only [hr, ReadPlace.responses, List.length_erase_of_mem hmem]
        omega
  | timeOut hr =>
      have hplace := h.finishing (by simp [hr])
      refine ⟨⟨h.done, .inl hplace, fun hr => by cases hr⟩, ?_, ?_⟩
      · simp [hr, ReadPlace.left]
      · simp [hr, ReadPlace.responses]

/-- **It does not hang**: unless `finish` has returned there is a step to take. -/
theorem exists_step (h : s.Closing) (hfinished : s.caller ≠ .finished) : ∃ e t, s.Steps e t := by
  suffices hstep : ∃ e, (s.step e).isSome by
    obtain ⟨e, hsome⟩ := hstep
    obtain ⟨t, ht⟩ := Option.isSome_iff_exists.mp hsome
    exact ⟨e, t, ht⟩
  obtain ⟨k, hk⟩ := h.place.resolve_right fun hf => hfinished hf.1
  cases k with
  | succ k => exact ⟨.pushLast, by simp [ClientThreads.step, hk]⟩
  | zero =>
      cases hr : s.reader with
      | returned => exact ⟨.join, by simp [ClientThreads.step, hk, hr]⟩
      | looping => exact ⟨.loop, by simp [ClientThreads.step, hr]⟩
      | notifying => exact ⟨.notify, by simp [ClientThreads.step, hr]⟩
      | receiving => exact ⟨.timeOut, by simp [ClientThreads.step, hr]⟩
      | popping =>
          have hkinds := h.kinds hr
          rw [hk] at hkinds
          cases hpop : s.requests.pop with
          | some r => exact ⟨.pop, by simp [ClientThreads.step, hr, hpop]⟩
          | none =>
              rw [Queue.pop_eq_none.mp hpop] at hkinds
              simp [CallPlace.left] at hkinds

end Closing

/-- **`finish` returns**, within ten steps of the two threads, wherever the
reading one is and whatever kinds are left; and at most one of the requests
that have no response when it is called still gets one. -/
theorem finish_returns {s s₁ s' : ClientThreads} {es : List ThreadsEvent}
    (hfinish : s.Steps .finish s₁) (hrun : Run Steps s₁ es s') :
    es.length ≤ 10 ∧ s.unanswered.length ≤ s'.unanswered.length + 1 ∧
      ((∀ e t, ¬ s'.Steps e t) → s'.caller = .finished) := by
  have hleft : ∀ r : ReadPlace, r.left ≤ 4 ∧ r.responses ≤ 1 := by
    intro r
    cases r <;> decide
  cases hfinish.takes with
  | finish _ =>
      have hall := hrun.invariant (I := fun es s' => s'.Closing ∧
          es.length + (s'.caller.left + s'.reader.left) ≤ 6 + s.reader.left ∧
          s.unanswered.length + s'.reader.responses
            ≤ s'.unanswered.length + s.reader.responses)
        ⟨⟨rfl, .inl ⟨5, rfl⟩, fun _ => Nat.le_add_left _ _⟩, (Nat.zero_add _).le, le_rfl⟩
        fun _ hinv hs => by
          obtain ⟨hclosing, hle, hanswered⟩ := hinv
          obtain ⟨hclosing', hlt, hanswered'⟩ := hclosing.step hs
          refine ⟨hclosing', ?_, by omega⟩
          rw [List.length_append, List.length_singleton]
          omega
      obtain ⟨hclosing, hle, hanswered⟩ := hall
      have hreader := hleft s.reader
      refine ⟨by omega, by omega, ?_⟩
      intro hstuck
      by_contra hfinished
      obtain ⟨e, t, hs⟩ := hclosing.exists_step hfinished
      exact hstuck e t hs

/-- Three gets, and the first one's kind popped. -/
def threeGets : List ThreadsEvent := (List.replicate 3 oneGet).flatten ++ [.loop, .pop, .notify]

/-- The response to the first, and the end of `finish`. -/
def closing : List ThreadsEvent :=
  [.receive (.get ⟨0, 0, 0⟩ ['k']) [['v']], .loop] ++ List.replicate 5 .pushLast ++ [.join]

/-- Two of the three gets are never answered. -/
theorem finish_returns_threeGets : ∃ s s₁ s' : ClientThreads,
    Run Steps { clientId := 0 } threeGets s ∧ s.Steps .finish s₁ ∧ Run Steps s₁ closing s' ∧
      s.unanswered.length = 3 ∧ s'.unanswered.length = 2 ∧ s'.caller = .finished := by
  have hsteps : ((threeGets.foldlM step { clientId := 0 }).bind fun s =>
      (s.step .finish).bind fun s₁ => (closing.foldlM step s₁).map fun s' =>
        (s.unanswered.length, s'.unanswered.length, s'.caller, s'.reader))
      = some (3, 2, .finished, .returned) := by
    decide +kernel
  obtain ⟨s, hs, hsteps⟩ := Option.bind_eq_some_iff.mp hsteps
  obtain ⟨s₁, hfinish, hsteps⟩ := Option.bind_eq_some_iff.mp hsteps
  obtain ⟨s', hs', hleft⟩ := Option.map_eq_some_iff.mp hsteps
  simp only [Prod.mk.injEq] at hleft
  obtain ⟨hthree, htwo, hcaller, hreader⟩ := hleft
  have hrun : Run Steps s₁ closing s' := .of_foldlM (fun h => h) hs'
  obtain ⟨-, -, hreturns⟩ := finish_returns hfinish hrun
  refine ⟨s, s₁, s', .of_foldlM (fun h => h) hs, hfinish, hrun, hthree, htwo, hreturns ?_⟩
  intro e t hs
  cases hs.takes with
  | call _ hc | test hc | sleep hc | wakeSpuriously hc | send hc | push hc | drain hc | finish hc
  | pushLast hc | join hc _ =>
      rw [hcaller] at hc
      cases hc
  | loop hr | pop hr _ | notify hr | receive _ hr _ | timeOut hr =>
      rw [hreader] at hr
      cases hr

end ClientThreads

end Pancake
