import Mathlib.Data.List.Basic
import Pancake.CompletedPuts
import Pancake.Steady
import Pancake.UniformAccess

/-!
# The order of a queue

A consumer answers the requests in its queue in the order they came in, and no
two consumers wait for each other. So a get sees a put that was queued before
it, completed or not, as long as both are in one queue. The requests of one
connection are not: they go round the queues.
-/

namespace Pancake

/-- What an event queues for consumer `c`. -/
def ConsumerEvent.queued (c : Nat) : ConsumerEvent → List (Operation × Promise)
  | enqueue c' op p => if c' = c then [(op, p)] else []
  | _ => []

/-- What consumer `c` answers in an event. -/
def ConsumerEvent.answered (c : Nat) : ConsumerEvent → List (Operation × Promise)
  | serve c' slot _ => if c' = c then realOperations [slot] else []
  | _ => []

section Events

variable {c : Nat} {x : Operation × Promise}

end Events

/-! ## First in, first out -/

section Order

variable {initial : Str → Str} {st : Proxy} {es : List ConsumerEvent} {s s' : Consumers}

/-- **A step** takes what it answers off the front of the open requests. -/
theorem Running.order (h : Running s) {e : ConsumerEvent} (hs : Interleaves s e s') (c : Nat) :
    s.openRequests c ++ e.queued c = e.answered c ++ s'.openRequests c := by
  cases e with
  | enqueue c' op p =>
      cases hs
      rw [openRequests_enqueue]
      by_cases hc : c = c'
      · subst hc
        simp [ConsumerEvent.queued, ConsumerEvent.answered]
      · simp [ConsumerEvent.queued, ConsumerEvent.answered, hc, Ne.symm hc]
  | read c' slots =>
      obtain ⟨rest, st, hidle, hqueue, -, -, rfl⟩ := h.read_cases hs
      rw [openRequests_read hidle hqueue]
      simp [ConsumerEvent.queued, ConsumerEvent.answered]
  | serve c' slot y =>
      obtain ⟨f, cipher, rest, cache, out, hf, htodo, -, hs'⟩ := h.serve_cases hs
      have hopen : s.openRequests c
          = (if c = c' then realOperations [slot] else []) ++ s'.openRequests c := by
        rw [hs']
        exact openRequests_serve hf htodo c
      rw [hopen]
      simp [ConsumerEvent.queued, ConsumerEvent.answered, eq_comm]
  | write c' =>
      obtain ⟨f, server, hf, htodo, -, -, rfl⟩ := h.write_cases hs
      rw [openRequests_write hf htodo]
      simp [ConsumerEvent.queued, ConsumerEvent.answered]

end Order

namespace Proxy

end Proxy

end Pancake
