import Mathlib.Data.List.Flatten

/-!
# Readers

A reader takes what it needs from the front of its input and leaves the rest,
or throws. `Reads r bytes a` says that `r` takes exactly `bytes` and makes `a`
of them, whatever comes after: readers of the parts of a format then compose
to a reader of the whole, with no mention of what follows. `Throws r bytes e`
says that `r` throws `e` having seen `bytes`.
-/

namespace Wire

/-- A reader of `A` from an input of `B`s that can throw an `E`. -/
abbrev StreamReader (E B A : Type) := StateT (List B) (Except E) A

variable {E B A C : Type}

/-- `r` takes exactly `bytes`, and returns `a`. -/
def Reads (r : StreamReader E B A) (bytes : List B) (a : A) : Prop :=
  ∀ rest, r (bytes ++ rest) = .ok (a, rest)

/-- `r` throws `e` at an input that starts with `bytes`. -/
def Throws (r : StreamReader E B A) (bytes : List B) (e : E) : Prop :=
  ∀ rest, r (bytes ++ rest) = .error e

theorem bind_apply (r : StreamReader E B A) (f : A → StreamReader E B C) (input : List B) :
    (r >>= f) input = (r input).bind fun x => f x.1 x.2 := rfl

theorem Reads.pure (a : A) : Reads (pure a : StreamReader E B A) [] a := fun _ => rfl

theorem Throws.throw (e : E) : Throws (throw e : StreamReader E B A) [] e := fun _ => rfl

/-- **One reader after another** takes what the first takes, then what the
second takes. -/
theorem Reads.bind {r : StreamReader E B A} {f : A → StreamReader E B C} {bytes bytes' : List B}
    {a : A} {c : C} (h : Reads r bytes a) (h' : Reads (f a) bytes' c) :
    Reads (r >>= f) (bytes ++ bytes') c := by
  intro rest
  rw [bind_apply, List.append_assoc, h]
  exact h' rest

theorem Reads.bind_throws {r : StreamReader E B A} {f : A → StreamReader E B C}
    {bytes bytes' : List B} {a : A} {e : E} (h : Reads r bytes a) (h' : Throws (f a) bytes' e) :
    Throws (r >>= f) (bytes ++ bytes') e := by
  intro rest
  rw [bind_apply, List.append_assoc, h]
  exact h' rest

/-- A reader whose first part takes nothing. -/
theorem Reads.bind_nil {r : StreamReader E B A} {f : A → StreamReader E B C} {bytes : List B}
    {a : A} {c : C} (h : Reads r bytes a) (h' : Reads (f a) [] c) : Reads (r >>= f) bytes c := by
  have hb := h.bind h'
  rwa [List.append_nil] at hb

theorem Reads.bind_throws_nil {r : StreamReader E B A} {f : A → StreamReader E B C}
    {bytes : List B} {a : A} {e : E} (h : Reads r bytes a) (h' : Throws (f a) [] e) :
    Throws (r >>= f) bytes e := by
  have hb := h.bind_throws h'
  rwa [List.append_nil] at hb

theorem Reads.map {r : StreamReader E B A} {bytes : List B} {a : A} (h : Reads r bytes a)
    (f : A → C) : Reads (f <$> r) bytes (f a) := by
  intro rest
  show (r (bytes ++ rest)).map _ = _
  rw [h]
  rfl

/-- What a reader makes of an input is determined by it. -/
theorem Reads.unique {r : StreamReader E B A} {bytes : List B} {a a' : A} (h : Reads r bytes a)
    (h' : Reads r bytes a') : a = a' := by
  have he := (h []).symm.trans (h' [])
  cases he
  rfl

theorem Reads.not_throws {r : StreamReader E B A} {bytes : List B} {a : A} {e : E}
    (h : Reads r bytes a) : ¬ Throws r bytes e := fun h' => by
  have he := (h []).symm.trans (h' [])
  cases he

/-! ## One after another -/

/-- `n` things, one after another. -/
def readMany (r : StreamReader E B A) : Nat → StreamReader E B (List A)
  | 0 => pure []
  | n + 1 => do
      let a ← r
      let as ← readMany r n
      return a :: as

/-- **The loop** reads everything that was written one by one: of what was
written for `a` it makes `value a`. -/
theorem Reads.many {r : StreamReader E B C} {write : A → List B} {value : A → C} {as : List A}
    (h : ∀ a ∈ as, Reads r (write a) (value a)) :
    Reads (readMany r as.length) (as.flatMap write) (as.map value) := by
  induction as with
  | nil => exact .pure []
  | cons a as ih =>
      have hrest := ih fun b hb => h b (List.mem_cons_of_mem a hb)
      rw [List.flatMap_cons, List.map_cons]
      exact (h a List.mem_cons_self).bind (hrest.bind_nil (.pure _))

end Wire
