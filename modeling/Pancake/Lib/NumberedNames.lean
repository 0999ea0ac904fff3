import Mathlib.Data.List.Basic
import Mathlib.Tactic.Ring

/-!
# Numbered names without a separator

A name and a number written one after the other can be read in two ways when
one name is another followed by digits. How far the numbers may run before
that happens has a simple answer: in base `b`, the name `x` followed by the
numeral `q` clashes with `x` from the number `b * q` on.
-/

namespace NumberedNames

variable {b : Nat}

/-- **A numeral in front of a numeral** is a numeral, and at most a `b`-th of
the whole. -/
theorem exists_of_toDigits_eq_append (hb : 1 < b) {w : List Char} (hw : w ≠ []) {m n : Nat}
    (h : Nat.toDigits b n = w ++ Nat.toDigits b m) :
    ∃ q, 0 < q ∧ w = Nat.toDigits b q ∧ b * q ≤ n := by
  -- the last digit goes from both sides, until one is left on the right
  induction m using Nat.strongRecOn generalizing n with
  | ind m ih =>
      have hlong : b ≤ n := by
        by_contra hn
        rw [Nat.toDigits_of_lt_base (by omega)] at h
        have hlen := congrArg List.length h
        have hwpos := List.length_pos_iff.mpr hw
        have hmpos := Nat.length_toDigits_pos (b := b) (n := m)
        simp only [List.length_singleton, List.length_append] at hlen
        omega
      have hdiv : b * (n / b) ≤ n := Nat.mul_div_le n b
      rw [Nat.toDigits_of_base_le hb hlong] at h
      by_cases hm : m < b
      · rw [Nat.toDigits_of_lt_base hm] at h
        obtain ⟨hfront, -⟩ := List.append_inj' h rfl
        exact ⟨n / b, Nat.div_pos hlong (by omega), hfront.symm, hdiv⟩
      · rw [Nat.toDigits_of_base_le (n := m) hb (not_lt.mp hm), ← List.append_assoc] at h
        obtain ⟨hfront, -⟩ := List.append_inj' h rfl
        obtain ⟨q, hq, hwq, hle⟩ := ih (m / b) (Nat.div_lt_self (by omega) hb) hfront
        exact ⟨q, hq, hwq, hle.trans (Nat.div_le_self n b)⟩

/-- Ten times a number is the number and a zero. -/
theorem toDigits_mul (hb : 1 < b) {q : Nat} (hq : 0 < q) :
    Nat.toDigits b (b * q) = Nat.toDigits b q ++ Nat.toDigits b 0 := by
  rw [Nat.toDigits_append_toDigits hb hq (by omega), Nat.add_zero]

/-- No name is another followed by a numeral `q`, unless the numbers of the
other stay below `b * q`. Each name comes with how many numbers it has. -/
def Apart (b : Nat) (xs : List (List Char × Nat)) : Prop :=
  ∀ x ∈ xs, ∀ y ∈ xs, ∀ q, 0 < q → y.1 = x.1 ++ Nat.toDigits b q → x.2 ≤ b * q

/-- One half of `apart_iff`: the shorter name is on the left. -/
theorem Apart.eq_of_append {xs : List (List Char × Nat)} (hb : 1 < b) (h : Apart b xs)
    {x y : List Char × Nat} (hx : x ∈ xs) (hy : y ∈ xs) {i j : Nat} (hi : i < x.2)
    {w : List Char} (hw : y.1 = x.1 ++ w) (hij : Nat.toDigits b i = w ++ Nat.toDigits b j) :
    x.1 = y.1 := by
  by_cases hnil : w = []
  · rw [hw, hnil, List.append_nil]
  · obtain ⟨q, hq, hwq, hle⟩ := exists_of_toDigits_eq_append hb hnil hij
    have hcount := h x hx y hy q hq (hw.trans (congrArg (x.1 ++ ·) hwq))
    omega

/-- **Numbered names are unambiguous** exactly when the names are apart. -/
theorem apart_iff {xs : List (List Char × Nat)} (hb : 1 < b) (hpos : ∀ x ∈ xs, 0 < x.2) :
    Apart b xs ↔ ∀ x ∈ xs, ∀ y ∈ xs, ∀ i < x.2, ∀ j < y.2,
      x.1 ++ Nat.toDigits b i = y.1 ++ Nat.toDigits b j → x.1 = y.1 := by
  constructor
  · intro h x hx y hy i hi j hj hij
    rcases List.append_eq_append_iff.mp hij with ⟨w, hw, hrest⟩ | ⟨w, hw, hrest⟩
    · exact h.eq_of_append hb hx hy hi hw hrest
    · exact (h.eq_of_append hb hy hx hj hw hrest).symm
  · intro h x hx y hy q hq hname
    by_contra hlt
    -- the number `b * q` of `x` is the number `0` of `y`
    have heq : x.1 ++ Nat.toDigits b (b * q) = y.1 ++ Nat.toDigits b 0 := by
      rw [toDigits_mul hb hq, hname, List.append_assoc]
    have hsame := h x hx y hy (b * q) (by omega) 0 (hpos y hy) heq
    have hempty : Nat.toDigits b q = [] := List.self_eq_append_right.mp (hsame.trans hname)
    exact Nat.toDigits_ne_nil hempty

end NumberedNames
