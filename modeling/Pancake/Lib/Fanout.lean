import Mathlib.Algebra.Order.BigOperators.Group.List
import Mathlib.Algebra.Order.Ring.Nat
import Mathlib.Data.Finmap
import Mathlib.Data.List.Dedup

/-!
# Fanning a list out and collecting the replies

A batch is fanned out by grouping its elements by destination, in a map from
destinations to lists, and the replies are collected from a queue, one for
each destination, in the order in which the map is walked. `popped` is the
part of that queue that a loop reads when its bound is the size of the queue
it pops: only the first half.
-/

namespace Fanout

variable {α β ι : Type} [DecidableEq ι]

/-! ## Grouping -/

/-- Append each element to the list of its destination. -/
def gather (f : α → ι) (xs : List α) : Finmap fun _ : ι => List α :=
  xs.foldl (fun groups x => groups.insert (f x) ((groups.lookup (f x)).getD [] ++ [x])) ∅

/-- The group of a destination, in the order of the list. -/
theorem getD_lookup_gather (f : α → ι) (xs : List α) (i : ι) :
    ((gather f xs).lookup i).getD [] = xs.filter fun x => f x = i := by
  unfold gather
  induction xs using List.reverseRecOn with
  | nil => simp
  | append_singleton xs x ih =>
      rw [List.foldl_append, List.foldl_cons, List.foldl_nil, List.filter_append]
      by_cases hx : f x = i
      · subst hx
        rw [Finmap.lookup_insert, Option.getD_some, ih]
        simp
      · rw [Finmap.lookup_insert_of_ne _ (Ne.symm hx), ih]
        simp [hx]

/-- An order in which a map is walked that got its keys in some order: each
key once. -/
structure WalkOrder (ι : Type) where
  walk : List ι → List ι
  nodup : ∀ inserted, (walk inserted).Nodup
  mem : ∀ inserted i, i ∈ walk inserted ↔ i ∈ inserted

/-- Keys in the order of their last insertion. -/
def WalkOrder.latest : WalkOrder ι where
  walk := List.dedup
  nodup := List.nodup_dedup
  mem _ _ := List.mem_dedup

theorem sum_indicator (i : ι) (is : List ι) :
    (is.map fun j => if i = j then 1 else 0).sum = is.count i := by
  induction is with
  | nil => rfl
  | cons j is ih =>
      rw [List.map_cons, List.sum_cons, ih, List.count_cons, Nat.add_comm]
      simp only [beq_iff_eq, @eq_comm _ j i]

/-- The groups, walked, have all the elements. -/
theorem sum_length_groups (f : α → ι) (xs : List α) {is : List ι} (hnd : is.Nodup)
    (hmem : ∀ x ∈ xs, f x ∈ is) :
    (is.map fun i => (xs.filter fun x => f x = i).length).sum = xs.length := by
  induction xs with
  | nil => simp
  | cons x xs ih =>
      have hrest := ih fun y hy => hmem y (by simp [hy])
      -- the first element is in one group
      have hone : (is.map fun i => if f x = i then 1 else 0).sum = 1 := by
        rw [sum_indicator, List.count_eq_one_of_mem hnd (hmem x (by simp))]
      rw [List.length_cons, ← hrest, ← hone, Nat.add_comm, ← List.sum_map_add]
      congr 1
      apply List.map_congr_left
      intro i _
      by_cases hx : f x = i
      · simp [hx, Nat.add_comm]
      · simp [hx]

/-- Some of the groups have fewer, when one is left out. -/
theorem sum_length_groups_lt (f : α → ι) (xs : List α) {is js : List ι}
    (hnd : (is ++ js).Nodup) (hmem : ∀ x ∈ xs, f x ∈ is ++ js) {x : α} (hx : x ∈ xs)
    (hj : f x ∈ js) : (is.map fun i => (xs.filter fun x => f x = i).length).sum < xs.length := by
  have htotal := sum_length_groups f xs hnd hmem
  rw [List.map_append, List.sum_append] at htotal
  have hpos : 0 < (xs.filter fun y => f y = f x).length :=
    List.length_pos_of_mem (List.mem_filter.mpr ⟨hx, by simp⟩)
  have hle : (xs.filter fun y => f y = f x).length
      ≤ (js.map fun i => (xs.filter fun x => f x = i).length).sum :=
    List.single_le_sum (by simp) _
      (List.mem_map_of_mem (f := fun i => (xs.filter fun x => f x = i).length) hj)
  omega

/-! ## Collecting -/

/-- What a loop reads that pops a queue while its counter is below the size
of the queue. -/
def popped : Nat → List β → List β
  | _, [] => []
  | i, x :: xs => if i < xs.length + 1 then x :: popped (i + 1) xs else []

/-- **The first half**, rounded up. -/
theorem popped_eq_take (i : Nat) (xs : List β) :
    popped i xs = xs.take ((xs.length - i + 1) / 2) := by
  induction xs generalizing i with
  | nil => simp [popped]
  | cons x xs ih =>
      rw [popped, List.length_cons]
      by_cases hi : i < xs.length + 1
      · have hhalf : (xs.length + 1 - i + 1) / 2 = (xs.length - (i + 1) + 1) / 2 + 1 := by
          omega
        rw [if_pos hi, ih, hhalf, List.take_succ_cons]
      · have hzero : (xs.length + 1 - i + 1) / 2 = 0 := by
          omega
        rw [if_neg hi, hzero, List.take_zero]

theorem popped_map {γ : Type} (g : β → γ) (i : Nat) (xs : List β) :
    popped i (xs.map g) = (popped i xs).map g := by
  rw [popped_eq_take, popped_eq_take, List.length_map, List.map_take]

/-- The queue is read to its end only if it has one element at most. -/
theorem popped_eq_self_iff (xs : List β) : popped 0 xs = xs ↔ xs.length ≤ 1 := by
  rw [popped_eq_take, List.take_eq_self_iff]
  omega

end Fanout
