import Mathlib.Algebra.Order.Group.Int
import Mathlib.Algebra.Ring.Nat
import Mathlib.Tactic.Set
import Pancake.Lib.Readers

/-!
# Thrift

The calls that generated code makes of a protocol, what it relies on, and
what the generated `read` and `write` of a struct have in common.

A protocol is a parameter: how a number or a string looks on the wire is its
business. `Lawful` is what every protocol promises: each read undoes the write
of the same kind. Names of structs and fields are written and never looked at.

A generated `write` puts its fields one after another; the `read` is a loop
that looks at the id of each field it meets and either reads its value or
skips it. So a struct is read alike in whatever order its fields come, and
whatever else comes with them.
-/

namespace Wire

/-- `TType` -/
inductive TType where
  | stop
  | void
  | bool
  | byte
  | double
  | i16
  | i32
  | u64
  | i64
  | string
  | struct
  | map
  | set
  | list
  | utf8
  | utf16
  deriving DecidableEq

/-- `TMessageType` -/
inductive TMessageType where
  | call
  | reply
  | exception
  | oneway
  deriving DecidableEq

/-- `int16_t`, `int32_t` and `int64_t`. -/
def IsInt (bits : Nat) (v : Int) : Prop := -2 ^ (bits - 1) ≤ v ∧ v < 2 ^ (bits - 1)

instance (bits : Nat) (v : Int) : Decidable (IsInt bits v) := inferInstanceAs (Decidable (_ ∧ _))

/-- The lengths a protocol can write. -/
def Short {A : Type} (l : List A) : Prop := l.length < 2 ^ 31

instance {A : Type} (l : List A) : Decidable (Short l) := inferInstanceAs (Decidable (_ < _))

/-- `TProtocol`: what it puts on the wire, and what it makes of what it finds
there. It throws an `E`; `invalidData` is the exception generated code throws
itself, and `endOfFile` the one at the end of the input. -/
structure TProtocol (E B : Type) where
  writeMessageBegin : List Char → TMessageType → Int → List B
  writeMessageEnd : List B
  writeStructBegin : List Char → List B
  writeStructEnd : List B
  writeFieldBegin : List Char → TType → Int → List B
  writeFieldEnd : List B
  writeFieldStop : List B
  writeI32 : Int → List B
  writeI64 : Int → List B
  writeString : List Char → List B
  writeListBegin : TType → Nat → List B
  writeListEnd : List B
  readMessageBegin : StreamReader E B (List Char × TMessageType × Int)
  readMessageEnd : StreamReader E B Unit
  readStructBegin : StreamReader E B Unit
  readStructEnd : StreamReader E B Unit
  readFieldBegin : StreamReader E B (TType × Int)
  readFieldEnd : StreamReader E B Unit
  readI32 : StreamReader E B Int
  readI64 : StreamReader E B Int
  readString : StreamReader E B (List Char)
  readListBegin : StreamReader E B (TType × Nat)
  readListEnd : StreamReader E B Unit
  skip : TType → StreamReader E B Unit
  invalidData : E
  endOfFile : E

variable {E B A S : Type}

/-- A field as some writer put it: `bytes` are its value. -/
structure WireField (B : Type) where
  name : List Char
  ttype : TType
  id : Int
  bytes : List B

/-- `writeFieldBegin`, the value, `writeFieldEnd` -/
def WireField.write (P : TProtocol E B) (f : WireField B) : List B :=
  P.writeFieldBegin f.name f.ttype f.id ++ (f.bytes ++ P.writeFieldEnd)

namespace TProtocol

variable (P : TProtocol E B)

/-- `writeStructBegin`, the fields, `writeFieldStop`, `writeStructEnd` -/
def writeStruct (name : List Char) (fields : List (WireField B)) : List B :=
  P.writeStructBegin name ++
    (fields.flatMap (·.write P) ++ (P.writeFieldStop ++ P.writeStructEnd))

/-- `writeListBegin`, the strings, `writeListEnd` -/
def writeStrings (strings : List (List Char)) : List B :=
  P.writeListBegin .string strings.length ++ (strings.flatMap P.writeString ++ P.writeListEnd)

/-- A field that any reader can pass over. -/
structure Passable (f : WireField B) : Prop where
  id : IsInt 16 f.id
  ttype : f.ttype ≠ .stop
  skip : Reads (P.skip f.ttype) f.bytes ()

/-- **What a protocol promises.** -/
structure Lawful : Prop where
  message {name : List Char} {type : TMessageType} {seqid : Int} : Short name → IsInt 32 seqid →
    Reads P.readMessageBegin (P.writeMessageBegin name type seqid) (name, type, seqid)
  messageEnd : Reads P.readMessageEnd P.writeMessageEnd ()
  struct (name : List Char) : Reads P.readStructBegin (P.writeStructBegin name) ()
  structEnd : Reads P.readStructEnd P.writeStructEnd ()
  field {name : List Char} {ttype : TType} {id : Int} : ttype ≠ .stop → IsInt 16 id →
    Reads P.readFieldBegin (P.writeFieldBegin name ttype id) (ttype, id)
  fieldEnd : Reads P.readFieldEnd P.writeFieldEnd ()
  fieldStop : ∃ id, Reads P.readFieldBegin P.writeFieldStop (.stop, id)
  i32 {v : Int} : IsInt 32 v → Reads P.readI32 (P.writeI32 v) v
  i64 {v : Int} : IsInt 64 v → Reads P.readI64 (P.writeI64 v) v
  string {s : List Char} : Short s → Reads P.readString (P.writeString s) s
  list {ttype : TType} {size : Nat} : size < 2 ^ 31 →
    Reads P.readListBegin (P.writeListBegin ttype size) (ttype, size)
  listEnd : Reads P.readListEnd P.writeListEnd ()
  field_ne_nil (name : List Char) (ttype : TType) (id : Int) : P.writeFieldBegin name ttype id ≠ []

/-! ## Reading a struct -/

/-- The loop of a generated `read`: `field` is its `switch`, given the id and
the type that were read. It goes round at most once for each byte there is. -/
def readFields (field : S → Int → TType → StreamReader E B S) : Nat → S → StreamReader E B S
  | 0, _ => throw P.endOfFile
  | n + 1, s => do
      let (ttype, id) ← P.readFieldBegin
      if ttype = .stop then return s
      else do
        let s ← field s id ttype
        P.readFieldEnd
        readFields field n s

/-- A generated `read`, into `s`. -/
def readStruct (field : S → Int → TType → StreamReader E B S) (s : S) : StreamReader E B S := do
  P.readStructBegin
  let input ← get
  let s ← P.readFields field (input.length + 1) s
  P.readStructEnd
  return s

/-- A case of the `switch`: a value of the type expected is read into `s`, and
one of another type is skipped. -/
def expect (ttype expected : TType) (read : StreamReader E B A) (store : A → S) (s : S) :
    StreamReader E B S :=
  if ttype = expected then store <$> read
  else do
    P.skip ttype
    return s

/-- The `default` of the `switch`. -/
def ignore (ttype : TType) (s : S) : StreamReader E B S := do
  P.skip ttype
  return s

/-- Reading a `list<string>`, whatever its element type is said to be. -/
def readStrings : StreamReader E B (List (List Char)) := do
  let (_, size) ← P.readListBegin
  let strings ← readMany P.readString size
  P.readListEnd
  return strings

namespace Lawful

variable {P} (h : P.Lawful)
include h

theorem strings {l : List (List Char)} (hl : Short l) (hs : ∀ s ∈ l, Short s) :
    Reads P.readStrings (P.writeStrings l) l := by
  have hmany : Reads (readMany P.readString l.length) (l.flatMap P.writeString) (l.map id) :=
    Reads.many fun s hmem => h.string (hs s hmem)
  rw [List.map_id] at hmany
  exact (h.list hl).bind (hmany.bind (h.listEnd.bind_nil (.pure l)))

omit h in
theorem ignored {f : WireField B} (hf : P.Passable f) (s : S) :
    Reads (P.ignore f.ttype s) f.bytes s := hf.skip.bind_nil (.pure s)

omit h in
/-- A value of a type that is not expected leaves `s` as it is. -/
theorem unexpected {f : WireField B} (hf : P.Passable f) {expected : TType}
    (hne : f.ttype ≠ expected) (read : StreamReader E B A) (store : A → S) (s : S) :
    Reads (P.expect f.ttype expected read store s) f.bytes s := by
  rw [expect, if_neg hne]
  exact ignored hf s

omit h in
theorem expected {expected : TType} {read : StreamReader E B A} {bytes : List B} {a : A}
    (hr : Reads read bytes a) (store : A → S) (s : S) :
    Reads (P.expect expected expected read store s) bytes (store a) := by
  rw [expect, if_pos rfl]
  exact hr.map store

section Loop

variable {A : Type*} {wire : A → WireField B} {next : S → A → S}
  {field : S → Int → TType → StreamReader E B S} {items : List A}

/-- The loop over the fields of `items`, if the `switch` makes of each what
`next` says. -/
theorem fields
    (hitems : ∀ a ∈ items, (wire a).ttype ≠ .stop ∧ IsInt 16 (wire a).id ∧
      ∀ s, Reads (field s (wire a).id (wire a).ttype) (wire a).bytes (next s a))
    {n : Nat} (hn : items.length < n) (s : S) :
    Reads (P.readFields field n s)
      ((items.map wire).flatMap (·.write P) ++ P.writeFieldStop) (items.foldl next s) := by
  induction items generalizing s n with
  | nil =>
      obtain ⟨n, rfl⟩ := Nat.exists_eq_succ_of_ne_zero (Nat.ne_of_gt hn)
      obtain ⟨id, hstop⟩ := h.fieldStop
      exact hstop.bind_nil (.pure s)
  | cons a items ih =>
      obtain ⟨n, rfl⟩ := Nat.exists_eq_succ_of_ne_zero (Nat.ne_of_gt (Nat.zero_lt_of_lt hn))
      obtain ⟨hstop, hid, hread⟩ := hitems a List.mem_cons_self
      have hrest := ih (fun b hb => hitems b (List.mem_cons_of_mem a hb))
        (Nat.lt_of_succ_lt_succ hn) (next s a)
      simp only [List.map_cons, List.flatMap_cons, WireField.write, List.append_assoc]
      refine (h.field hstop hid).bind ?_
      simp only [hstop, if_false]
      refine (hread s).bind ?_
      exact h.fieldEnd.bind hrest

theorem length_le_write (fields : List (WireField B)) :
    fields.length ≤ (fields.flatMap (·.write P)).length := by
  induction fields with
  | nil => exact Nat.zero_le _
  | cons f fields ih =>
      have hpos := List.length_pos_iff.mpr (h.field_ne_nil f.name f.ttype f.id)
      rw [List.flatMap_cons, List.length_append, List.length_cons, WireField.write,
        List.length_append]
      omega

/-- **A struct is read** item by item, as the `switch` says. -/
theorem readStruct
    (hitems : ∀ a ∈ items, (wire a).ttype ≠ .stop ∧ IsInt 16 (wire a).id ∧
      ∀ s, Reads (field s (wire a).id (wire a).ttype) (wire a).bytes (next s a))
    (name : List Char) (s : S) :
    Reads (P.readStruct field s) (P.writeStruct name (items.map wire)) (items.foldl next s) := by
  rw [TProtocol.writeStruct, ← List.append_assoc (List.flatMap _ _)]
  refine (h.struct name).bind fun rest => ?_
  set body := (items.map wire).flatMap (·.write P) ++ P.writeFieldStop with hbody
  -- the loop cannot run out of rounds: every field takes a byte
  have hlen : items.length < (body ++ P.writeStructEnd ++ rest).length + 1 := by
    have := h.length_le_write (items.map wire)
    simp only [hbody, List.length_append, List.length_map] at this ⊢
    omega
  have hloop : Reads (P.readFields field _ s) body (items.foldl next s) := h.fields hitems hlen s
  have hend : Reads (do
      P.readStructEnd
      return items.foldl next s) P.writeStructEnd (items.foldl next s) :=
    h.structEnd.bind_nil (.pure _)
  exact hloop.bind (f := fun s => do
    P.readStructEnd
    return s) hend rest

end Loop

end Lawful

end TProtocol

end Wire
