import Mathlib.Data.List.Basic

/-!
# Delivering writes to replicas

A history of three kinds of operations on keys: a write is populated at a
number of replicas, a replica is checked, the number of replicas is edited.
From the history alone, latest operation first, `delivery` says what a check
should be given: the value of the latest write, if the replica is one that
has not been checked since. The replicas that an edit adds count only while
some other replica still waits.
-/

namespace Deliveries

variable {K V : Type}

inductive Op (K V : Type) where
  | populate (key : K) (value : V) (replicas : Nat)
  | check (key : K) (replica : Nat)
  | edit (key : K) (replicas : Nat)

/-- The key of an operation. -/
def Op.key : Op K V → K
  | populate k _ _ => k
  | check k _ => k
  | edit k _ => k

variable [DecidableEq K]

/-- The value of the latest write of a key. -/
def latest (key : K) : List (Op K V) → Option V
  | [] => none
  | .populate k value _ :: history => if k = key then some value else latest key history
  | .check _ _ :: history => latest key history
  | .edit _ _ :: history => latest key history

/-- How many replicas the latest write or edit gives a key. -/
def replicas (key : K) : List (Op K V) → Nat
  | [] => 0
  | .populate k _ n :: history => if k = key then n else replicas key history
  | .check _ _ :: history => replicas key history
  | .edit k n :: history => if k = key then n else replicas key history

/-- The replicas of a key not checked since its latest write. -/
def unchecked (key : K) : List (Op K V) → List Nat
  | [] => []
  | .populate k _ n :: history => if k = key then List.range n else unchecked key history
  | .check k i :: history =>
      if k = key then (unchecked key history).filter (· ≠ i) else unchecked key history
  | .edit k n :: history =>
      if k = key ∧ unchecked key history ≠ [] then
        unchecked key history ++
          List.range' (replicas key history) (n - replicas key history)
      else unchecked key history

/-- What a check of the replica should be given. -/
def delivery (key : K) (i : Nat) (history : List (Op K V)) : Option V :=
  if i ∈ unchecked key history then latest key history else none

/-! ## Operations on other keys -/

theorem latest_cons_of_ne {key : K} {op : Op K V} (h : op.key ≠ key) (history : List (Op K V)) :
    latest key (op :: history) = latest key history := by
  cases op with
  | populate k value n => exact if_neg h
  | check k i => rfl
  | edit k n => rfl

theorem replicas_cons_of_ne {key : K} {op : Op K V} (h : op.key ≠ key)
    (history : List (Op K V)) : replicas key (op :: history) = replicas key history := by
  cases op with
  | populate k value n => exact if_neg h
  | check k i => rfl
  | edit k n => exact if_neg h

theorem unchecked_cons_of_ne {key : K} {op : Op K V} (h : op.key ≠ key)
    (history : List (Op K V)) : unchecked key (op :: history) = unchecked key history := by
  cases op with
  | populate k value n => exact if_neg h
  | check k i => exact if_neg h
  | edit k n => exact if_neg fun hc => h hc.1

/-- The operations on one key, in the order they came. -/
def onKey (key : K) (history : List (Op K V)) : List (Op K V) :=
  history.filter (·.key = key)

theorem onKey_spec (key : K) (history : List (Op K V)) :
    latest key (onKey key history) = latest key history ∧
    replicas key (onKey key history) = replicas key history ∧
    unchecked key (onKey key history) = unchecked key history := by
  induction history with
  | nil => exact ⟨rfl, rfl, rfl⟩
  | cons op history ih =>
      obtain ⟨hlatest, hreplicas, hunchecked⟩ := ih
      by_cases hk : op.key = key
      · rw [onKey, List.filter_cons_of_pos (by simpa using hk), ← onKey]
        cases op with
        | populate k value n =>
            refine ⟨?_, ?_, ?_⟩
            · rw [latest, latest, hlatest]
            · rw [replicas, replicas, hreplicas]
            · rw [unchecked, unchecked, hunchecked]
        | check k i =>
            refine ⟨hlatest, hreplicas, ?_⟩
            rw [unchecked, unchecked, hunchecked]
        | edit k n =>
            refine ⟨hlatest, ?_, ?_⟩
            · rw [replicas, replicas, hreplicas]
            · rw [unchecked, unchecked, hunchecked, hreplicas]
      · rw [onKey, List.filter_cons_of_neg (by simpa using hk), ← onKey,
          latest_cons_of_ne hk, replicas_cons_of_ne hk, unchecked_cons_of_ne hk]
        exact ⟨hlatest, hreplicas, hunchecked⟩

/-- **Other keys do not matter**: histories that agree on a key's operations
agree on what its replicas should be given. -/
theorem delivery_eq_of_onKey {key : K} {history history' : List (Op K V)}
    (h : onKey key history = onKey key history') (i : Nat) :
    delivery key i history = delivery key i history' := by
  obtain ⟨hl, -, hu⟩ := onKey_spec key history
  obtain ⟨hl', -, hu'⟩ := onKey_spec key history'
  rw [delivery, delivery, ← hl, ← hu, ← hl', ← hu', h]

end Deliveries
