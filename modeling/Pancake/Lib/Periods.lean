import Mathlib.Data.Int.GCD
import Mathlib.Data.Nat.ModEq
import Mathlib.Data.Nat.Periodic
import Mathlib.Logic.Function.Iterate

/-!
# Periods of sequences, and walks that turn back

A sequence that has a period has every eventual period of its tails, and with
two periods their greatest common divisor. The places of a walk that goes up
one by one until it turns back for the first time are eventually periodic, so
whether reading a periodic sequence along such a walk gives the sequence
itself is a matter of one period.
-/

open Function

namespace Periods

variable {A : Type} {f : ℕ → A} {n p : ℕ}

/-- From `N` on, the sequence repeats every `p` places. -/
def PeriodicFrom (f : ℕ → A) (p N : ℕ) : Prop := ∀ k, N ≤ k → f (k + p) = f k

/-- The eventual period of a periodic sequence is a period. -/
theorem PeriodicFrom.periodic {N : ℕ} (h : PeriodicFrom f p N) (hf : Periodic f n) (hn : 0 < n) :
    Periodic f p := by
  intro k
  have hshift : Periodic f (N * n) := hf.nat_mul N
  calc f (k + p) = f (k + p + N * n) := (hshift _).symm
    _ = f (k + N * n + p) := by rw [Nat.add_right_comm]
    _ = f (k + N * n) := h _ (le_trans (Nat.le_mul_of_pos_right N hn) (Nat.le_add_left _ _))
    _ = f k := hshift k

/-- Two periods have their greatest common divisor as a period. -/
theorem periodic_gcd (hn : Periodic f n) (hp : Periodic f p) (hpos : 0 < p) :
    Periodic f (n.gcd p) := by
  rcases (Nat.gcd_le_right n hpos).lt_or_eq with hlt | heq
  · -- a multiple of `n` lies the divisor above a multiple of `p`
    obtain ⟨m, -, hm⟩ := Nat.exists_mul_mod_eq_gcd hlt
    have hmul : n * m = n.gcd p + p * (n * m / p) := by rw [← hm, Nat.mod_add_div]
    intro k
    calc f (k + n.gcd p) = f (k + n.gcd p + n * m / p * p) := (hp.nat_mul _ _).symm
      _ = f (k + m * n) := by rw [Nat.add_assoc, Nat.mul_comm _ p, ← hmul, Nat.mul_comm n m]
      _ = f k := hn.nat_mul m k
  · rw [heq]
    exact hp

/-! ## Walks -/

/-- Where the walk from zero is after `k` steps. -/
def walk (next : ℕ → ℕ) (k : ℕ) : ℕ := next^[k] 0

theorem walk_succ (next : ℕ → ℕ) (k : ℕ) : walk next (k + 1) = next (walk next k) :=
  iterate_succ_apply' next k 0

/-- The walk goes up one by one as far as `last`, and from there to `back`. -/
structure TurnsBack (next : ℕ → ℕ) (last back : ℕ) : Prop where
  up : ∀ j < last, next j = j + 1
  turn : next last = back
  le : back ≤ last

/-- A walk that goes up one by one below `m` is at `k` after `k ≤ m` steps. -/
theorem walk_of_up {next : ℕ → ℕ} {m k : ℕ} (h : ∀ j < m, next j = j + 1) (hk : k ≤ m) :
    walk next k = k := by
  induction k with
  | zero => rfl
  | succ k ih => rw [walk_succ, ih (by omega), h k (by omega)]

namespace TurnsBack

variable {next : ℕ → ℕ} {last back : ℕ} (h : TurnsBack next last back)

include h

/-- The walk never passes `last`. -/
theorem walk_le (k : ℕ) : walk next k ≤ last := by
  induction k with
  | zero => exact Nat.zero_le _
  | succ k ih =>
      rw [walk_succ]
      rcases ih.lt_or_eq with hlt | heq
      · rw [h.up _ hlt]
        exact hlt
      · rw [heq, h.turn]
        exact h.le

/-- From `back` on, it goes round and round. -/
theorem periodicFrom_walk : PeriodicFrom (walk next) (last + 1 - back) back := by
  intro k hk
  induction k, hk using Nat.le_induction with
  | base =>
      have hback := walk_of_up h.up h.le
      have hle := h.le
      rw [show back + (last + 1 - back) = last + 1 by omega, walk_succ, walk_of_up h.up le_rfl,
        h.turn, hback]
  | succ k _ ih =>
      rw [Nat.add_right_comm, walk_succ, ih, walk_succ]

/-- To a divisor of the length of the round, the walk just goes up. -/
theorem walk_modEq {g : ℕ} (hg : g ∣ last + 1 - back) (k : ℕ) : walk next k ≡ k [MOD g] := by
  induction k with
  | zero => rfl
  | succ k ih =>
      rw [walk_succ]
      rcases (h.walk_le k).lt_or_eq with hlt | heq
      · rw [h.up _ hlt]
        exact ih.add_right 1
      · rw [heq] at ih
        rw [heq, h.turn]
        have hle := h.le
        exact ((Nat.modEq_iff_dvd' (by omega)).mpr hg).trans (ih.add_right 1)

/-- **Reading along the walk** gives the first `n` values over and over exactly
if they repeat every greatest common divisor of `n` and the round. -/
theorem reads_iff (hlast : last < n) (t : ℕ → A) :
    (∀ k, t (walk next k) = t (k % n)) ↔ ∀ j < n, t j = t (j % n.gcd (last + 1 - back)) := by
  have hle := h.le
  have hpos : 0 < last + 1 - back := by omega
  have hcyclic : Periodic (fun k => t (k % n)) n := fun k => by simp
  constructor
  · intro hreads
    have hfrom : PeriodicFrom (fun k => t (k % n)) (last + 1 - back) back := by
      intro k hk
      show t ((k + (last + 1 - back)) % n) = t (k % n)
      rw [← hreads, ← hreads, h.periodicFrom_walk k hk]
    have hgcd := periodic_gcd hcyclic (hfrom.periodic hcyclic (by omega)) hpos
    intro j hj
    have hlt : j % n.gcd (last + 1 - back) < n :=
      lt_of_le_of_lt (Nat.mod_le _ _) hj
    have := hgcd.map_mod_nat j
    simp only [Nat.mod_eq_of_lt hj, Nat.mod_eq_of_lt hlt] at this
    exact this.symm
  · intro hrepeats k
    have hwalk := h.walk_modEq (Nat.gcd_dvd_right n (last + 1 - back)) k
    calc t (walk next k) = t (walk next k % n.gcd (last + 1 - back)) :=
          hrepeats _ (lt_of_le_of_lt (h.walk_le k) hlast)
      _ = t (k % n.gcd (last + 1 - back)) := by rw [hwalk]
      _ = t (k % n % n.gcd (last + 1 - back)) := by
          rw [Nat.mod_mod_of_dvd _ (Nat.gcd_dvd_left n _)]
      _ = t (k % n) := (hrepeats _ (Nat.mod_lt _ (by omega))).symm

end TurnsBack

end Periods
