import Mathlib.Data.List.Dedup
import Mathlib.Algebra.BigOperators.Group.List.Lemmas
import Mathlib.Algebra.Ring.Nat

/-!
# Chunks

Items that are gathered in a buffer, which is put aside whenever it holds `b`
of them and once more at the end, come out in chunks of `b` in their order.
`Filling` is what holds while items are gathered, and `Chunked` is what has
been put aside in the end.
-/

variable {A : Type} {b : ℕ} {xs : List A} {chunks : List (List A)} {buffer : List A}

/-- The chunks of `xs`: in order, of `b` items each, the last one of at most
`b` and at least one. -/
structure Chunked (b : ℕ) (xs : List A) (chunks : List (List A)) : Prop where
  flatten : chunks.flatten = xs
  size : ∀ chunk ∈ chunks, 1 ≤ chunk.length ∧ chunk.length ≤ b
  full : ∀ chunk ∈ chunks.dropLast, chunk.length = b

/-- The items so far, in full chunks and a buffer that is not full. -/
structure Filling (b : ℕ) (xs : List A) (chunks : List (List A)) (buffer : List A) : Prop where
  flatten : chunks.flatten ++ buffer = xs
  full : ∀ chunk ∈ chunks, chunk.length = b
  short : buffer.length < b

namespace Filling

theorem nil (hb : 0 < b) : Filling b ([] : List A) [] [] := ⟨rfl, by simp, hb⟩

/-- One more item that does not fill the buffer. -/
theorem push (h : Filling b xs chunks buffer) (x : A) (hlt : buffer.length + 1 ≠ b) :
    Filling b (xs ++ [x]) chunks (buffer ++ [x]) where
  flatten := by rw [← List.append_assoc, h.flatten]
  full := h.full
  short := by
    have := h.short
    rw [List.length_append, List.length_singleton]
    omega

/-- The item that fills it. -/
theorem flush (h : Filling b xs chunks buffer) (x : A) (heq : buffer.length + 1 = b) :
    Filling b (xs ++ [x]) (chunks ++ [buffer ++ [x]]) [] where
  flatten := by
    rw [List.flatten_append, List.append_nil, List.flatten_singleton, ← List.append_assoc,
      h.flatten]
  full chunk hc := by
    rcases List.mem_append.mp hc with hc | hc
    · exact h.full chunk hc
    · rw [List.mem_singleton.mp hc, List.length_append, List.length_singleton, heq]
  short := by
    rw [List.length_nil]
    omega

/-- **At the end**, the buffer is the last chunk, unless it is empty. -/
theorem chunked (h : Filling b xs chunks buffer) :
    Chunked b xs (if buffer = [] then chunks else chunks ++ [buffer]) := by
  have hb : 0 < b := Nat.zero_lt_of_lt h.short
  split
  · rename_i hempty
    refine ⟨?_, fun chunk hc => ?_, fun chunk hc => h.full chunk (List.dropLast_subset _ hc)⟩
    · rw [← h.flatten, hempty, List.append_nil]
    · rw [h.full chunk hc]
      exact ⟨hb, Nat.le_refl _⟩
  · rename_i hne
    refine ⟨?_, fun chunk hc => ?_, fun chunk hc => ?_⟩
    · rw [List.flatten_append, List.flatten_singleton, h.flatten]
    · rcases List.mem_append.mp hc with hc | hc
      · rw [h.full chunk hc]
        exact ⟨hb, Nat.le_refl _⟩
      · rw [List.mem_singleton.mp hc]
        exact ⟨List.length_pos_iff.mpr hne, Nat.le_of_lt h.short⟩
    · rw [List.dropLast_concat] at hc
      exact h.full chunk hc

end Filling

/-- Distinct values, each with the number of times it occurs in a list that
has no others: the numbers add up to the length. -/
theorem sum_count_of_nodup [BEq A] [LawfulBEq A] {values : List A} (hnd : values.Nodup)
    (hmem : ∀ x, x ∈ values ↔ x ∈ xs) : (values.map fun x => xs.count x).sum = xs.length := by
  have : DecidableEq A := instDecidableEqOfLawfulBEq
  have hperm : values.Perm xs.dedup :=
    (List.perm_ext_iff_of_nodup hnd xs.nodup_dedup).mpr fun x => by rw [hmem, List.mem_dedup]
  rw [(hperm.map _).sum_eq, ← List.sum_map_count_dedup_eq_length xs]
  congr!
