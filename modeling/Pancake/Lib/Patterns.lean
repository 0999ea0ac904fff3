import Mathlib.Data.List.Basic
import Mathlib.Data.List.Induction

/-!
# Which elements of a list are equal

Two lists have the same pattern if the same places of both hold equal elements.
Then new elements come at the same places too (`firsts`). So where the lists
are of known build, their patterns give the build away: a list of blocks its
lengths (`starts`), for one.
-/

namespace Patterns

variable {α β γ : Type}

/-- The same positions hold equal elements in both lists. -/
def SamePattern (xs : List α) (ys : List β) : Prop :=
  xs.length = ys.length ∧
    ∀ i < xs.length, ∀ j < xs.length, (xs[i]? = xs[j]? ↔ ys[i]? = ys[j]?)

instance [DecidableEq α] [DecidableEq β] (xs : List α) (ys : List β) :
    Decidable (SamePattern xs ys) := inferInstanceAs (Decidable (_ ∧ _))

namespace SamePattern

variable {xs : List α} {ys : List β} {zs : List γ}

theorem refl (xs : List α) : SamePattern xs xs := ⟨rfl, fun _ _ _ _ => Iff.rfl⟩

theorem symm (h : SamePattern xs ys) : SamePattern ys xs :=
  ⟨h.1.symm, fun i hi j hj => (h.2 i (h.1 ▸ hi) j (h.1 ▸ hj)).symm⟩

theorem trans (h : SamePattern xs ys) (h' : SamePattern ys zs) : SamePattern xs zs :=
  ⟨h.1.trans h'.1, fun i hi j hj => (h.2 i hi j hj).trans (h'.2 i (h.1 ▸ hi) j (h.1 ▸ hj))⟩

/-- Without the last elements; and these are new together. -/
theorem of_concat {x : α} {y : β} (h : SamePattern (xs ++ [x]) (ys ++ [y])) :
    SamePattern xs ys ∧ (x ∈ xs ↔ y ∈ ys) := by
  obtain ⟨hlength, hequal⟩ := h
  have hlen : xs.length = ys.length := by simpa using hlength
  have hat : ∀ i < xs.length, (xs ++ [x])[i]? = xs[i]? ∧ (ys ++ [y])[i]? = ys[i]? := fun i hi =>
    ⟨List.getElem?_append_left hi, List.getElem?_append_left (hlen ▸ hi)⟩
  refine ⟨⟨hlen, ?_⟩, ?_⟩
  · intro i hi j hj
    have hij := hequal i (by simp; omega) j (by simp; omega)
    rwa [(hat i hi).1, (hat i hi).2, (hat j hj).1, (hat j hj).2] at hij
  · rw [List.mem_iff_getElem?, List.mem_iff_getElem?]
    have hlast : ∀ i < xs.length, (xs[i]? = some x ↔ ys[i]? = some y) := by
      intro i hi
      have hi' := hequal i (by simp; omega) xs.length (by simp)
      rw [(hat i hi).1, (hat i hi).2, List.getElem?_concat_length, hlen,
        List.getElem?_concat_length] at hi'
      exact hi'
    constructor
    · rintro ⟨i, hi⟩
      exact ⟨i, (hlast i (List.getElem?_eq_some_iff.mp hi).1).mp hi⟩
    · rintro ⟨i, hi⟩
      exact ⟨i, (hlast i (hlen ▸ (List.getElem?_eq_some_iff.mp hi).1)).mpr hi⟩

end SamePattern

/-! ## New elements -/

section Firsts

variable [DecidableEq α] [DecidableEq β]

/-- Which elements are new, not among those seen and not earlier in the list. -/
def firsts : List α → List α → List Bool
  | _, [] => []
  | seen, x :: xs => decide (x ∉ seen) :: firsts (seen ++ [x]) xs

@[simp] theorem firsts_nil (seen : List α) : firsts seen [] = [] := rfl

theorem firsts_cons (seen : List α) (x : α) (xs : List α) :
    firsts seen (x :: xs) = decide (x ∉ seen) :: firsts (seen ++ [x]) xs := rfl

@[simp] theorem length_firsts (xs : List α) : ∀ seen : List α,
    (firsts seen xs).length = xs.length := by
  induction xs with
  | nil => intro seen; rfl
  | cons x xs ih => intro seen; rw [firsts_cons, List.length_cons, ih, List.length_cons]

theorem firsts_append (xs ys : List α) : ∀ seen : List α,
    firsts seen (xs ++ ys) = firsts seen xs ++ firsts (seen ++ xs) ys := by
  induction xs with
  | nil => intro seen; simp
  | cons x xs ih =>
      intro seen
      rw [List.cons_append, firsts_cons, ih, firsts_cons, List.append_assoc,
        List.singleton_append, List.cons_append]

/-- Nothing is new among what has been seen. -/
theorem firsts_of_forall_mem {xs : List α} : ∀ {seen : List α}, (∀ x ∈ xs, x ∈ seen) →
    firsts seen xs = List.replicate xs.length false := by
  induction xs with
  | nil => intro seen _; rfl
  | cons x xs ih =>
      intro seen h
      obtain ⟨hx, hxs⟩ := List.forall_mem_cons.mp h
      rw [firsts_cons, ih fun y hy => List.mem_append_left _ (hxs y hy), List.length_cons,
        List.replicate_succ]
      simp [hx]

/-- **The same pattern**, the same places of new elements. -/
theorem SamePattern.firsts_eq {xs : List α} : ∀ {ys : List β}, SamePattern xs ys →
    firsts [] xs = firsts [] ys := by
  induction xs using List.reverseRecOn with
  | nil =>
      intro ys h
      have hys : ys = [] := List.length_eq_zero_iff.mp h.1.symm
      rw [hys]
      rfl
  | append_singleton xs x ih =>
      intro ys h
      rcases List.eq_nil_or_concat ys with rfl | ⟨ys, y, rfl⟩
      · exact absurd h.1 (by simp)
      · rw [List.concat_eq_append] at h ⊢
        obtain ⟨hinit, hlast⟩ := h.of_concat
        rw [firsts_append, firsts_append, ih hinit, firsts_cons, firsts_cons]
        simp [hlast]

end Firsts

/-! ## Blocks -/

/-- Where a block of so many equal elements has its new one. -/
def starts : Nat → List Bool
  | 0 => []
  | n + 1 => true :: List.replicate n false

theorem firsts_replicate [DecidableEq α] {x : α} {seen : List α} (h : x ∉ seen) (n : Nat) :
    firsts seen (List.replicate n x) = starts n := by
  cases n with
  | zero => rfl
  | succ n =>
      have hrest : ∀ y ∈ List.replicate n x, y ∈ seen ++ [x] := by
        intro y hy
        rw [List.eq_of_mem_replicate hy]
        exact List.mem_append_right _ List.mem_cons_self
      rw [List.replicate_succ, firsts_cons, firsts_of_forall_mem hrest, List.length_replicate,
        starts]
      simp [h]

/-- What follows a block starts one. -/
theorem head?_flatMap_starts {ns : List Nat} (h : ∀ n ∈ ns, 0 < n) :
    (ns.flatMap starts).head? ≠ some false := by
  cases ns with
  | nil => simp
  | cons n ns =>
      obtain ⟨hn, -⟩ := List.forall_mem_cons.mp h
      obtain ⟨m, rfl⟩ := Nat.exists_eq_succ_of_ne_zero (Nat.ne_of_gt hn)
      simp [starts]

theorem replicate_false_append_inj {a : Nat} : ∀ {b : Nat} {xs ys : List Bool},
    xs.head? ≠ some false → ys.head? ≠ some false →
    List.replicate a false ++ xs = List.replicate b false ++ ys → a = b ∧ xs = ys := by
  induction a with
  | zero =>
      intro b xs ys hx _ h
      cases b with
      | zero => exact ⟨rfl, by simpa using h⟩
      | succ b =>
          rw [List.replicate_zero, List.nil_append, List.replicate_succ, List.cons_append] at h
          exact absurd (congrArg List.head? h) hx
  | succ a ih =>
      intro b xs ys hx hy h
      cases b with
      | zero =>
          rw [List.replicate_zero, List.nil_append, List.replicate_succ, List.cons_append] at h
          exact absurd (congrArg List.head? h.symm) hy
      | succ b =>
          rw [List.replicate_succ, List.replicate_succ, List.cons_append, List.cons_append] at h
          obtain ⟨hab, hxy⟩ := ih hx hy (List.cons.inj h).2
          exact ⟨congrArg Nat.succ hab, hxy⟩

/-- **The lengths of the blocks** can be read off. -/
theorem starts_injective {ns : List Nat} : ∀ {ms : List Nat}, (∀ n ∈ ns, 0 < n) →
    (∀ m ∈ ms, 0 < m) → ns.flatMap starts = ms.flatMap starts → ns = ms := by
  induction ns with
  | nil =>
      intro ms _ hms h
      cases ms with
      | nil => rfl
      | cons m ms =>
          obtain ⟨k, rfl⟩ := Nat.exists_eq_succ_of_ne_zero
            (Nat.ne_of_gt (hms m List.mem_cons_self))
          exact absurd h (by simp [starts])
  | cons n ns ih =>
      intro ms hns hms h
      obtain ⟨hn, hns'⟩ := List.forall_mem_cons.mp hns
      obtain ⟨a, rfl⟩ := Nat.exists_eq_succ_of_ne_zero (Nat.ne_of_gt hn)
      cases ms with
      | nil => exact absurd h (by simp [starts])
      | cons m ms =>
          obtain ⟨hm, hms'⟩ := List.forall_mem_cons.mp hms
          obtain ⟨b, rfl⟩ := Nat.exists_eq_succ_of_ne_zero (Nat.ne_of_gt hm)
          rw [List.flatMap_cons, List.flatMap_cons, starts, starts, List.cons_append,
            List.cons_append] at h
          obtain ⟨hab, hrest⟩ := replicate_false_append_inj (head?_flatMap_starts hns')
            (head?_flatMap_starts hms') (List.cons.inj h).2
          rw [hab, ih hns' hms' hrest]

end Patterns
