import Mathlib.Data.List.Basic

/-!
# Lists with flags beside them

A list whose elements are marked by a parallel list of flags, as programs
keep them in two vectors filled side by side: the marked elements, in order.
-/

variable {α β : Type}

/-- The elements whose flag is set. -/
def selected : List Bool → List α → List α
  | true :: flags, x :: xs => x :: selected flags xs
  | false :: flags, _ :: xs => selected flags xs
  | _, _ => []

@[simp] theorem selected_nil (flags : List Bool) : selected flags ([] : List α) = [] := by
  cases flags with
  | nil => rfl
  | cons t flags => cases t <;> rfl

theorem selected_append {flags : List Bool} {xs : List α} (h : flags.length = xs.length)
    (flags' : List Bool) (xs' : List α) :
    selected (flags ++ flags') (xs ++ xs') = selected flags xs ++ selected flags' xs' := by
  induction xs generalizing flags with
  | nil =>
      rw [List.eq_nil_of_length_eq_zero h]
      rfl
  | cons x xs ih =>
      cases flags with
      | nil => cases h
      | cons t flags =>
          have hrest := ih (Nat.succ.inj h)
          cases t with
          | true => exact congrArg (x :: ·) hrest
          | false => exact hrest

/-- One is selected for each flag that is set. -/
theorem length_selected {flags : List Bool} {xs : List α} (h : flags.length = xs.length) :
    (selected flags xs).length = flags.count true := by
  induction xs generalizing flags with
  | nil =>
      rw [List.eq_nil_of_length_eq_zero h]
      rfl
  | cons x xs ih =>
      cases flags with
      | nil => cases h
      | cons t flags =>
          have hrest := ih (Nat.succ.inj h)
          cases t with
          | true => rw [selected, List.length_cons, hrest, List.count_cons_self]
          | false => rw [selected, hrest, List.count_cons_of_ne (by decide)]

/-- Two lists under the same flags are selected at the same places. -/
theorem zip_selected (flags : List Bool) (xs : List α) (ys : List β) :
    (selected flags xs).zip (selected flags ys) = selected flags (xs.zip ys) := by
  induction xs generalizing flags ys with
  | nil => simp
  | cons x xs ih =>
      cases ys with
      | nil => simp
      | cons y ys =>
          cases flags with
          | nil => rfl
          | cons t flags =>
              cases t with
              | true => exact congrArg ((x, y) :: ·) (ih flags ys)
              | false => exact ih flags ys

theorem mem_selected {flags : List Bool} {xs : List α} {x : α} :
    x ∈ selected flags xs ↔ ∃ i : Nat, flags[i]? = some true ∧ xs[i]? = some x := by
  induction xs generalizing flags with
  | nil => simp
  | cons y xs ih =>
      cases flags with
      | nil => simp [selected]
      | cons t flags =>
          have hsplit : (∃ i : Nat, (t :: flags)[i]? = some true ∧ (y :: xs)[i]? = some x) ↔
              (t = true ∧ y = x) ∨ x ∈ selected flags xs := by
            rw [ih]
            constructor
            · intro h
              obtain ⟨i, hf, hx⟩ := h
              cases i with
              | zero => exact .inl ⟨Option.some.inj hf, Option.some.inj hx⟩
              | succ i => exact .inr ⟨i, hf, hx⟩
            · intro h
              rcases h with ⟨rfl, rfl⟩ | ⟨i, hf, hx⟩
              · exact ⟨0, rfl, rfl⟩
              · exact ⟨i + 1, hf, hx⟩
          rw [hsplit]
          cases t with
          | true => simp [selected, eq_comm]
          | false => simp [selected]
