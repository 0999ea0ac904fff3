import Mathlib.Algebra.Order.BigOperators.Group.List
import Mathlib.Algebra.Order.Floor.Semiring
import Mathlib.Tactic.FieldSimp
import Mathlib.Tactic.Linarith
import Mathlib.Tactic.Positivity
import Mathlib.Tactic.Ring

/-!
# Flattening a distribution with replicas and fake accesses

Items have probabilities `p`; an item gets `⌈p / α⌉` replicas, a dummy item
makes up the total, and with probability `1 - δ` an access is a fake one. The
fake weights below are those that make every replica equally likely. This is
the arithmetic of the scheme over any linearly ordered field:

* `length_le_sum_ceil`, `sum_ceil_lt` — how many replicas there are;
* `fake_nonneg`, `sum_fake` — the fake weights are a distribution;
* `mix_fake`, `mix_dummy` — real and fake accesses mixed are flat;
* `sum_excess`, `mix_excess` — the same for weights that need not add up to one.
-/

namespace Smoothing

variable {F : Type} [Field F] [LinearOrder F] [IsStrictOrderedRing F]

/-! ## Counting replicas -/

section Ceil

variable [FloorSemiring F]

omit [IsStrictOrderedRing F] in
/-- Positive items have a replica each. -/
theorem length_le_sum_ceil {xs : List F} (h : ∀ x ∈ xs, 0 < x) :
    xs.length ≤ (xs.map Nat.ceil).sum := by
  induction xs with
  | nil => simp
  | cons x xs ih =>
      have hx : 1 ≤ ⌈x⌉₊ := Nat.one_le_ceil_iff.mpr (h x (by simp))
      have hxs := ih fun y hy => h y (by simp [hy])
      simp only [List.length_cons, List.map_cons, List.sum_cons]
      omega

/-- Rounding up costs less than one replica per item. -/
theorem sum_ceil_lt {xs : List F} (hne : xs ≠ []) (h : ∀ x ∈ xs, 0 ≤ x) :
    (((xs.map Nat.ceil).sum : ℕ) : F) < xs.sum + xs.length := by
  induction xs with
  | nil => exact absurd rfl hne
  | cons x xs ih =>
      have hx : ((⌈x⌉₊ : ℕ) : F) < x + 1 := Nat.ceil_lt_add_one (h x (by simp))
      simp only [List.map_cons, List.sum_cons, List.length_cons, Nat.cast_add, Nat.cast_one]
      by_cases hxs : xs = []
      · subst hxs
        simpa using hx
      · have hrest := ih hxs fun y hy => h y (by simp [hy])
        linarith

end Ceil

/-! ## The fake weights -/

/-- The fake weight of an item with probability `p` and `r` replicas. -/
def fake (α δ r p : F) : F := (r * α - p) / (1 / δ - 1)

/-- The fake weight of `d` dummy replicas. -/
def dummyFake (α δ d : F) : F := α / (1 / δ - 1) * d

omit [LinearOrder F] [IsStrictOrderedRing F] in
theorem dummyFake_eq (α δ d : F) : dummyFake α δ d = fake α δ d 0 := by
  rw [dummyFake, fake]
  ring

section Weights

variable {α δ : F} (h0 : 0 < δ) (h1 : δ < 1)
include h0 h1

theorem odds_pos : 0 < 1 / δ - 1 := by
  rw [sub_pos, lt_div_iff₀ h0]
  linarith

theorem fake_nonneg {r p : F} (h : p ≤ r * α) : 0 ≤ fake α δ r p :=
  div_nonneg (by linarith) (odds_pos h0 h1).le

/-- **An item is flat**: each of its replicas is hit with probability `δ α`. -/
theorem mix_fake {r : F} (hr : r ≠ 0) (p : F) :
    δ * p / r + (1 - δ) * fake α δ r p / r = δ * α := by
  have hδ : δ ≠ 0 := h0.ne'
  have hδ' : 1 - δ ≠ 0 := by linarith
  have hodds : 1 / δ - 1 = (1 - δ) / δ := by field_simp
  rw [fake, hodds]
  field_simp
  ring

/-- **The dummy is flat** in the same way. -/
theorem mix_dummy {d : F} (hd : d ≠ 0) : (1 - δ) * dummyFake α δ d / d = δ * α := by
  have := mix_fake (α := α) h0 h1 hd 0
  rw [dummyFake_eq]
  simpa using this

/-- **The weights are normalised** when the replicas, all counted, number
`1 / (δ α)`. -/
theorem sum_fake (items : List (F × F)) (d : F) (hp : (items.map Prod.snd).sum = 1)
    (htotal : δ * α * ((items.map Prod.fst).sum + d) = 1) :
    (items.map fun i => fake α δ i.1 i.2).sum + dummyFake α δ d = 1 := by
  have hsum : ∀ items : List (F × F), (items.map fun i => fake α δ i.1 i.2).sum
      = ((items.map Prod.fst).sum * α - (items.map Prod.snd).sum) / (1 / δ - 1) := by
    intro items
    induction items with
    | nil => simp
    | cons i items ih =>
        rw [List.map_cons, List.sum_cons, ih, fake]
        simp only [List.map_cons, List.sum_cons]
        ring
  have hne : 1 / δ - 1 ≠ 0 := (odds_pos h0 h1).ne'
  have hδ : δ ≠ 0 := h0.ne'
  have hα : α * ((items.map Prod.fst).sum + d) = 1 / δ := by
    rw [eq_div_iff hδ]
    linarith
  rw [hsum, hp, dummyFake, div_mul_eq_mul_div, ← add_div, div_eq_one_iff_eq hne]
  linarith

end Weights

/-! ## Weights relative to a maximum -/

section Excess

variable {M : F}

/-- What the real accesses of an item leave of `M` for each of its replicas. -/
def excess (M r p : F) : F := r * M - p

omit [LinearOrder F] [IsStrictOrderedRing F] in
/-- **The total**: what all items leave. -/
theorem sum_excess (items : List (F × F)) : (items.map fun i => excess M i.1 i.2).sum
    = (items.map Prod.fst).sum * M - (items.map Prod.snd).sum := by
  induction items with
  | nil => simp
  | cons i items ih =>
      rw [List.map_cons, List.sum_cons, ih, excess]
      simp only [List.map_cons, List.sum_cons]
      ring

/-- **An item is flat**: with `N` replicas in all and real accesses drawn with
weight `1 / (N M)`, each of its replicas is hit with probability `1 / N`. -/
theorem mix_excess {N r : F} (hN : 0 < N) (hM : 1 < N * M) (hr : r ≠ 0) (p : F) :
    1 / (N * M) * p / r + (1 - 1 / (N * M)) * excess M r p / ((N * M - 1) * r) = 1 / N := by
  have hNM : N * M ≠ 0 := by linarith
  have hN' : N ≠ 0 := hN.ne'
  have hM' : M ≠ 0 := right_ne_zero_of_mul hNM
  have hrest : N * M - 1 ≠ 0 := by linarith
  have hc : 1 - 1 / (N * M) = (N * M - 1) / (N * M) := by field_simp
  rw [hc, excess]
  field_simp
  ring

end Excess

end Smoothing
