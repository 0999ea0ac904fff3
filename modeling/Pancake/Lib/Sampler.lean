import Mathlib.Algebra.BigOperators.Group.Finset.Basic
import Mathlib.Algebra.BigOperators.Ring.Finset
import Mathlib.Algebra.Order.BigOperators.Group.Finset
import Mathlib.Algebra.Order.Field.Rat
import Mathlib.Data.Rat.Defs
import Mathlib.Tactic.Ring
import Mathlib.Tactic.Linarith
import Mathlib.Tactic.FieldSimp
import Mathlib.Tactic.Positivity

/-!
# Samplers

A randomised computation as the tree of the random choices it makes: a
biased coin, an index below a bound, an index with weights. One tree has
three readings, and a development picks the one its statement needs:

* `Possible` — the values some outcome of the choices can give,
* `expect` / `prob` — the exact rational law,
* `run` — the value on one recorded tape of draws.

The laws of `bind` for each reading are proved once here; a program is
written once and all three follow it.
-/

/-- A randomised computation: the choices made, in order, then a value. -/
inductive Sampler (α : Type) where
  | done (a : α)
  /-- `true` with probability `p`, clamped to `[0, 1]`. -/
  | coin (p : ℚ) (next : Bool → Sampler α)
  /-- An index below `n`, all equally likely. -/
  | uniform (n : Nat) (next : Nat → Sampler α)
  /-- An index of `ws`, with probability proportional to its weight. -/
  | weighted (ws : List ℚ) (next : Nat → Sampler α)

namespace Sampler

variable {α β γ : Type}

/-- Run one computation, then the one its value selects. -/
def bind : Sampler α → (α → Sampler β) → Sampler β
  | done a, f => f a
  | coin p next, f => coin p fun b => (next b).bind f
  | uniform n next, f => uniform n fun i => (next i).bind f
  | weighted ws next, f => weighted ws fun i => (next i).bind f

/-- Apply a function to the value. -/
def map (f : α → β) (s : Sampler α) : Sampler β := s.bind fun a => done (f a)

instance : Monad Sampler where
  pure := done
  bind := bind

@[simp] theorem pure_eq (a : α) : (pure a : Sampler α) = done a := rfl

@[simp] theorem bind_eq (s : Sampler α) (f : α → Sampler β) : (s >>= f) = s.bind f := rfl

@[simp] theorem done_bind (a : α) (f : α → Sampler β) : (done a).bind f = f a := rfl

@[simp] theorem map_done (f : α → β) (a : α) : (done a).map f = done (f a) := rfl

/-- The clamp that makes any rational a probability. -/
def clamp (p : ℚ) : ℚ := max 0 (min 1 p)

theorem clamp_of_mem {p : ℚ} (h0 : 0 ≤ p) (h1 : p ≤ 1) : clamp p = p := by
  rw [clamp, min_eq_right h1, max_eq_right h0]

/-! ## What can come out -/

/-- `a` is the value on some outcome of the choices, each of which has a
positive probability. -/
def Possible : Sampler α → α → Prop
  | done b, a => b = a
  | coin p next, a => (0 < p ∧ (next true).Possible a) ∨ (p < 1 ∧ (next false).Possible a)
  | uniform n next, a => ∃ i, i < n ∧ (next i).Possible a
  | weighted ws next, a => ∃ i, 0 < ws.getD i 0 ∧ (next i).Possible a

@[simp] theorem possible_done {a b : α} : (done b).Possible a ↔ b = a := Iff.rfl

theorem possible_bind {s : Sampler α} {f : α → Sampler β} {b : β} :
    (s.bind f).Possible b ↔ ∃ a, s.Possible a ∧ (f a).Possible b := by
  induction s with
  | done a => simp
  | coin p next ih =>
      simp only [bind, Possible, ih]
      constructor
      · rintro (⟨hp, a, ha, hb⟩ | ⟨hp, a, ha, hb⟩)
        · exact ⟨a, .inl ⟨hp, ha⟩, hb⟩
        · exact ⟨a, .inr ⟨hp, ha⟩, hb⟩
      · rintro ⟨a, ⟨hp, ha⟩ | ⟨hp, ha⟩, hb⟩
        · exact .inl ⟨hp, a, ha, hb⟩
        · exact .inr ⟨hp, a, ha, hb⟩
  | uniform n next ih =>
      simp only [bind, Possible, ih]
      constructor
      · rintro ⟨i, hi, a, ha, hb⟩
        exact ⟨a, ⟨i, hi, ha⟩, hb⟩
      · rintro ⟨a, ⟨i, hi, ha⟩, hb⟩
        exact ⟨i, hi, a, ha, hb⟩
  | weighted ws next ih =>
      simp only [bind, Possible, ih]
      constructor
      · rintro ⟨i, hi, a, ha, hb⟩
        exact ⟨a, ⟨i, hi, ha⟩, hb⟩
      · rintro ⟨a, ⟨i, hi, ha⟩, hb⟩
        exact ⟨i, hi, a, ha, hb⟩

theorem possible_map {s : Sampler α} {f : α → β} {b : β} :
    (s.map f).Possible b ↔ ∃ a, s.Possible a ∧ f a = b := by
  simp [map, possible_bind]

/-! ## The exact law -/

/-- The expectation of `f` under the law of the computation. -/
def expect (f : α → ℚ) : Sampler α → ℚ
  | done a => f a
  | coin p next => clamp p * (next true).expect f + (1 - clamp p) * (next false).expect f
  | uniform n next => (∑ i ∈ Finset.range n, (next i).expect f) / n
  | weighted ws next =>
      (∑ i ∈ Finset.range ws.length, ws.getD i 0 * (next i).expect f) / ws.sum

/-- The probability that the value satisfies `E`. -/
def prob (s : Sampler α) (E : α → Prop) [DecidablePred E] : ℚ :=
  s.expect fun a => if E a then 1 else 0

@[simp] theorem expect_done (f : α → ℚ) (a : α) : (done a).expect f = f a := rfl

theorem expect_bind (f : β → ℚ) (s : Sampler α) (g : α → Sampler β) :
    (s.bind g).expect f = s.expect fun a => (g a).expect f := by
  induction s with
  | done a => rfl
  | coin p next ih => simp only [bind, expect, ih]
  | uniform n next ih => simp only [bind, expect, ih]
  | weighted ws next ih => simp only [bind, expect, ih]

theorem expect_map (f : β → ℚ) (s : Sampler α) (g : α → β) :
    (s.map g).expect f = s.expect fun a => f (g a) :=
  expect_bind f s _

/-- Every weight list of the tree is non-negative: what a weighted choice needs
to have a law. -/
def NonnegWeights : Sampler α → Prop
  | done _ => True
  | coin _ next => ∀ b, (next b).NonnegWeights
  | uniform _ next => ∀ i, (next i).NonnegWeights
  | weighted ws next => (∀ w ∈ ws, 0 ≤ w) ∧ ∀ i, (next i).NonnegWeights

/-- A function that vanishes on every possible value has expectation zero. -/
theorem expect_eq_zero {f : α → ℚ} {s : Sampler α} (hw : s.NonnegWeights)
    (h : ∀ a, s.Possible a → f a = 0) : s.expect f = 0 := by
  induction s with
  | done a => exact h a rfl
  | coin p next ih =>
      have ht : clamp p * (next true).expect f = 0 := by
        by_cases hp : 0 < p
        · rw [ih true (hw true) fun a ha => h a (.inl ⟨hp, ha⟩), mul_zero]
        · rw [show clamp p = 0 from max_eq_left (le_trans (min_le_right _ _) (not_lt.mp hp)),
            zero_mul]
      have hf : (1 - clamp p) * (next false).expect f = 0 := by
        by_cases hp : p < 1
        · rw [ih false (hw false) fun a ha => h a (.inr ⟨hp, ha⟩), mul_zero]
        · rw [show clamp p = 1 from by rw [clamp, min_eq_left (not_lt.mp hp)]; norm_num]
          ring
      simp only [expect, ht, hf, add_zero]
  | uniform n next ih =>
      have hz : ∀ i ∈ Finset.range n, (next i).expect f = 0 := fun i hi =>
        ih i (hw i) fun a ha => h a ⟨i, Finset.mem_range.mp hi, ha⟩
      simp only [expect, Finset.sum_eq_zero hz, zero_div]
  | weighted ws next ih =>
      have hz : ∀ i ∈ Finset.range ws.length, ws.getD i 0 * (next i).expect f = 0 := by
        intro i hi
        have hlt : i < ws.length := Finset.mem_range.mp hi
        have hmem : ws.getD i 0 ∈ ws := by
          rw [List.getD_eq_getElem?_getD, List.getElem?_eq_getElem hlt]
          exact List.getElem_mem hlt
        rcases (hw.1 _ hmem).eq_or_lt with h0 | hpos
        · rw [← h0, zero_mul]
        · rw [ih i (hw.2 i) fun a ha => h a ⟨i, hpos, ha⟩, mul_zero]
      simp only [expect, Finset.sum_eq_zero hz, zero_div]

theorem prob_eq_zero {s : Sampler α} {E : α → Prop} [DecidablePred E] (hw : s.NonnegWeights)
    (h : ∀ a, s.Possible a → ¬ E a) : s.prob E = 0 :=
  expect_eq_zero hw fun a ha => if_neg (h a ha)

theorem NonnegWeights.bind {s : Sampler α} {f : α → Sampler β} (hs : s.NonnegWeights)
    (hf : ∀ a, (f a).NonnegWeights) : (s.bind f).NonnegWeights := by
  induction s with
  | done a => exact hf a
  | coin p next ih => exact fun b => ih b (hs b)
  | uniform n next ih => exact fun i => ih i (hs i)
  | weighted ws next ih => exact ⟨hs.1, fun i => ih i (hs.2 i)⟩

theorem NonnegWeights.map {s : Sampler α} (f : α → β) (hs : s.NonnegWeights) : (s.map f).NonnegWeights :=
  hs.bind fun _ => trivial

/-! ## One recorded run -/

/-- The recorded draws of one run: the unit-interval draws of the coins, the
raw numbers reduced to indices, the unit-interval draws of the weighted picks. -/
structure Tape where
  coins : ℕ → ℚ
  indices : ℕ → ℕ
  picks : ℕ → ℚ

/-- The unit-interval draws of a tape lie in `[0, 1)`. -/
structure Tape.Valid (t : Tape) : Prop where
  coin : ∀ i, 0 ≤ t.coins i ∧ t.coins i < 1
  pick : ∀ i, 0 ≤ t.picks i ∧ t.picks i < 1

def Tape.dropCoin (t : Tape) : Tape := { t with coins := fun i => t.coins (i + 1) }
def Tape.dropIndex (t : Tape) : Tape := { t with indices := fun i => t.indices (i + 1) }
def Tape.dropPick (t : Tape) : Tape := { t with picks := fun i => t.picks (i + 1) }

theorem Tape.Valid.dropCoin {t : Tape} (h : t.Valid) : t.dropCoin.Valid :=
  ⟨fun i => h.coin (i + 1), h.pick⟩

theorem Tape.Valid.dropIndex {t : Tape} (h : t.Valid) : t.dropIndex.Valid := ⟨h.coin, h.pick⟩

theorem Tape.Valid.dropPick {t : Tape} (h : t.Valid) : t.dropPick.Valid :=
  ⟨h.coin, fun i => h.pick (i + 1)⟩

/-- The index the cumulative weights assign to the offset `x`. -/
def pickIndex : List ℚ → ℚ → Nat
  | [], _ => 0
  | w :: ws, x => if x < w then 0 else pickIndex ws (x - w) + 1

theorem pickIndex_pos {ws : List ℚ} {x : ℚ} (h0 : 0 ≤ x) (h : x < ws.sum) :
    0 < ws.getD (pickIndex ws x) 0 := by
  induction ws generalizing x with
  | nil => simp at h; linarith
  | cons w ws ih =>
      simp only [pickIndex]
      split
      · rename_i hlt
        exact lt_of_le_of_lt h0 hlt
      · rename_i hge
        simp only [List.sum_cons] at h
        simpa using ih (x := x - w) (by linarith) (by linarith)

/-- The value on one tape, with what is left of the tape. -/
def run : Sampler α → Tape → α × Tape
  | done a, t => (a, t)
  | coin p next, t => (next (decide (t.coins 0 < p))).run t.dropCoin
  | uniform n next, t => (next (t.indices 0 % n)).run t.dropIndex
  | weighted ws next, t => (next (pickIndex ws (t.picks 0 * ws.sum))).run t.dropPick

@[simp] theorem run_done (a : α) (t : Tape) : (done a).run t = (a, t) := rfl

theorem run_bind (s : Sampler α) (f : α → Sampler β) (t : Tape) :
    (s.bind f).run t = (f (s.run t).1).run (s.run t).2 := by
  induction s generalizing t with
  | done a => rfl
  | coin p next ih => simp only [bind, run, ih]
  | uniform n next ih => simp only [bind, run, ih]
  | weighted ws next ih => simp only [bind, run, ih]

/-- Every choice can be made: bounds are positive, weights have a positive sum. -/
def Proper : Sampler α → Prop
  | done _ => True
  | coin _ next => ∀ b, (next b).Proper
  | uniform n next => 0 < n ∧ ∀ i, (next i).Proper
  | weighted ws next => 0 < ws.sum ∧ ∀ i, 0 < ws.getD i 0 → (next i).Proper

/-- What a valid tape gives is possible. -/
theorem run_possible {s : Sampler α} {t : Tape} (hs : s.Proper) (ht : t.Valid) :
    s.Possible (s.run t).1 := by
  induction s generalizing t with
  | done a => rfl
  | coin p next ih =>
      by_cases h : t.coins 0 < p
      · refine .inl ⟨lt_of_le_of_lt (ht.coin 0).1 h, ?_⟩
        simpa [run, h] using ih true (hs true) ht.dropCoin
      · refine .inr ⟨lt_of_le_of_lt (not_lt.mp h) (ht.coin 0).2, ?_⟩
        simpa [run, h] using ih false (hs false) ht.dropCoin
  | uniform n next ih =>
      exact ⟨t.indices 0 % n, Nat.mod_lt _ hs.1, ih _ (hs.2 _) ht.dropIndex⟩
  | weighted ws next ih =>
      have hpos : 0 < ws.getD (pickIndex ws (t.picks 0 * ws.sum)) 0 := by
        obtain ⟨h0, h1⟩ := ht.pick 0
        refine pickIndex_pos (mul_nonneg h0 hs.1.le) ?_
        calc t.picks 0 * ws.sum < 1 * ws.sum := mul_lt_mul_of_pos_right h1 hs.1
          _ = ws.sum := one_mul _
      exact ⟨_, hpos, ih _ (hs.2 _ hpos) ht.dropPick⟩

/-! ## Two computations that choose alike -/

/-- The two computations make the same choices — each of them can be made —
and end in values related by `R`. -/
inductive Coupled {α β : Type} (R : α → β → Prop) : Sampler α → Sampler β → Prop
  | done {a : α} {b : β} (h : R a b) : Coupled R (done a) (done b)
  | coin {p : ℚ} {next : Bool → Sampler α} {next' : Bool → Sampler β}
      (h : ∀ b, Coupled R (next b) (next' b)) : Coupled R (coin p next) (coin p next')
  | uniform {n : Nat} {next : Nat → Sampler α} {next' : Nat → Sampler β} (hn : 0 < n)
      (h : ∀ i < n, Coupled R (next i) (next' i)) : Coupled R (uniform n next) (uniform n next')
  | weighted {ws : List ℚ} {next : Nat → Sampler α} {next' : Nat → Sampler β} (hw : 0 < ws.sum)
      (h : ∀ i, 0 < ws.getD i 0 → Coupled R (next i) (next' i)) :
      Coupled R (weighted ws next) (weighted ws next')

/-- **The coupling rule**: coupled computations continued alike are coupled. -/
theorem Coupled.bind {δ : Type} {R : α → β → Prop} {Q : γ → δ → Prop} {s : Sampler α}
    {s' : Sampler β} {f : α → Sampler γ} {g : β → Sampler δ} (h : Coupled R s s')
    (hfg : ∀ a b, R a b → Coupled Q (f a) (g b)) : Coupled Q (s.bind f) (s'.bind g) := by
  induction h with
  | done h => exact hfg _ _ h
  | coin _ ih => exact .coin ih
  | uniform hn _ ih => exact .uniform hn ih
  | weighted hw _ ih => exact .weighted hw ih

theorem Coupled.map {δ : Type} {R : α → β → Prop} {Q : γ → δ → Prop} {s : Sampler α}
    {s' : Sampler β} {f : α → γ} {g : β → δ} (h : Coupled R s s')
    (hfg : ∀ a b, R a b → Q (f a) (g b)) : Coupled Q (s.map f) (s'.map g) :=
  h.bind fun a b hab => .done (hfg a b hab)

/-- On one valid tape coupled computations read the same draws and give
related values. -/
theorem Coupled.run {R : α → β → Prop} {s : Sampler α} {s' : Sampler β} (h : Coupled R s s')
    {t : Tape} (ht : t.Valid) : R (s.run t).1 (s'.run t).1 ∧ (s.run t).2 = (s'.run t).2 := by
  induction h generalizing t with
  | done h => exact ⟨h, rfl⟩
  | coin _ ih => exact ih _ ht.dropCoin
  | uniform hn _ ih => exact ih _ (Nat.mod_lt _ hn) ht.dropIndex
  | weighted hw _ ih =>
      refine ih _ (pickIndex_pos (mul_nonneg (ht.pick 0).1 hw.le) ?_) ht.dropPick
      calc t.picks 0 * _ < 1 * _ := mul_lt_mul_of_pos_right (ht.pick 0).2 hw
        _ = _ := one_mul _

end Sampler
