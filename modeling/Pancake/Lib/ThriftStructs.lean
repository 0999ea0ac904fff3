import Pancake.Lib.Thrift

/-!
# Generated structs

What the compiler generates for a struct is given by its fields: the id and
the type of each, where its value is kept, and how a value is read and
written. The `switch` of the `read` looks the id up among them.

On the wire a struct may hold its fields in any order, more than once, and
between fields the reader does not know, or knows with another type. `WireItem`
is a field of either kind, and `apply` what reading it does: `reads_items` says
that a struct is read one item at a time. If it holds every field, with the
values of `a`, it is read as `a`.
-/

namespace Wire

variable {E B S : Type}

/-- A field of a generated struct `S`. -/
structure TField (E B S : Type) where
  Value : Type
  name : List Char
  ttype : TType
  id : Int
  get : S → Value
  set : Value → S → S
  readValue : StreamReader E B Value
  writeValue : Value → List B

namespace TField

variable (P : TProtocol E B) (name : List Char) (id : Int)

def i32 (get : S → Int) (set : Int → S → S) : TField E B S where
  Value := Int
  name := name
  ttype := .i32
  id := id
  get := get
  set := set
  readValue := P.readI32
  writeValue := P.writeI32

def i64 (get : S → Int) (set : Int → S → S) : TField E B S where
  Value := Int
  name := name
  ttype := .i64
  id := id
  get := get
  set := set
  readValue := P.readI64
  writeValue := P.writeI64

def string (get : S → List Char) (set : List Char → S → S) : TField E B S where
  Value := List Char
  name := name
  ttype := .string
  id := id
  get := get
  set := set
  readValue := P.readString
  writeValue := P.writeString

/-- `list<string>` -/
def strings (get : S → List (List Char)) (set : List (List Char) → S → S) : TField E B S where
  Value := List (List Char)
  name := name
  ttype := .list
  id := id
  get := get
  set := set
  readValue := P.readStrings
  writeValue := P.writeStrings

/-- A struct inside a struct. -/
def struct {V : Type} (read : StreamReader E B V) (write : V → List B) (get : S → V)
    (set : V → S → S) : TField E B S where
  Value := V
  name := name
  ttype := .struct
  id := id
  get := get
  set := set
  readValue := read
  writeValue := write

/-- A field with a flag for whether it has been set: its value is `none` until
then. -/
def flagged {V : Type} (ttype : TType) (read : StreamReader E B V) (write : V → List B)
    (initial : V) (get : S → Option V) (set : Option V → S → S) : TField E B S where
  Value := Option V
  name := name
  ttype := ttype
  id := id
  get := get
  set := set
  readValue := some <$> read
  writeValue v := write (v.getD initial)

/-- The id can be written, and what is stored is kept. -/
structure Sound (f : TField E B S) : Prop where
  id : IsInt 16 f.id
  ttype : f.ttype ≠ .stop
  get_set : ∀ v s, f.get (f.set v s) = v

/-- The ids differ, and neither field is stored in the other's place. -/
structure Apart (f g : TField E B S) : Prop where
  id : f.id ≠ g.id
  left : ∀ v s, g.get (f.set v s) = g.get s
  right : ∀ v s, f.get (g.set v s) = f.get s

section Sound

variable {P name id}

theorem sound_i32 {get : S → Int} {set : Int → S → S} (hid : IsInt 16 id)
    (h : ∀ v s, get (set v s) = v) : (TField.i32 P name id get set).Sound :=
  ⟨hid, TType.noConfusion, h⟩

theorem sound_i64 {get : S → Int} {set : Int → S → S} (hid : IsInt 16 id)
    (h : ∀ v s, get (set v s) = v) : (TField.i64 P name id get set).Sound :=
  ⟨hid, TType.noConfusion, h⟩

theorem sound_string {get : S → List Char} {set : List Char → S → S} (hid : IsInt 16 id)
    (h : ∀ v s, get (set v s) = v) : (TField.string P name id get set).Sound :=
  ⟨hid, TType.noConfusion, h⟩

theorem sound_strings {get : S → List (List Char)} {set : List (List Char) → S → S}
    (hid : IsInt 16 id) (h : ∀ v s, get (set v s) = v) :
    (TField.strings P name id get set).Sound :=
  ⟨hid, TType.noConfusion, h⟩

theorem sound_struct {V : Type} {read : StreamReader E B V} {write : V → List B} {get : S → V}
    {set : V → S → S} (hid : IsInt 16 id) (h : ∀ v s, get (set v s) = v) :
    (TField.struct name id read write get set).Sound :=
  ⟨hid, TType.noConfusion, h⟩

theorem sound_flagged {V : Type} {ttype : TType} {read : StreamReader E B V} {write : V → List B}
    {initial : V} {get : S → Option V} {set : Option V → S → S} (hid : IsInt 16 id)
    (hstop : ttype ≠ .stop) (h : ∀ v s, get (set v s) = v) :
    (TField.flagged name id ttype read write initial get set).Sound :=
  ⟨hid, hstop, h⟩

end Sound

end TField

/-- What may stand in a struct: a value for a field, under any name, or a
field of some other writer. -/
inductive WireItem (E B S : Type) where
  | own (f : TField E B S) (name : List Char) (v : f.Value)
  | foreign (w : WireField B)

namespace WireItem

def field : WireItem E B S → WireField B
  | own f name v => ⟨name, f.ttype, f.id, f.writeValue v⟩
  | foreign w => w

/-- What reading the item does to the struct read into. -/
def apply (s : S) : WireItem E B S → S
  | own f _ v => f.set v s
  | foreign _ => s

end WireItem

/-- A generated struct: its name, its fields, and what its constructor sets
them to. -/
structure TStruct (E B S : Type) where
  name : List Char
  fields : List (TField E B S)
  initial : S

namespace TStruct

variable (P : TProtocol E B) (T : TStruct E B S)

/-- The `switch` over the ids. -/
def switch (s : S) (id : Int) (ttype : TType) : StreamReader E B S :=
  match T.fields.find? (·.id = id) with
  | some f => P.expect ttype f.ttype f.readValue (fun v => f.set v s) s
  | none => P.ignore ttype s

/-- The generated `read` of a new struct. -/
def read : StreamReader E B S := P.readStruct (T.switch P) T.initial

/-- The items of the generated `write`. -/
def items (a : S) : List (WireItem E B S) := T.fields.map fun f => .own f f.name (f.get a)

/-- The generated `write`. -/
def write (a : S) : List B := P.writeStruct T.name ((T.items a).map WireItem.field)

/-- Every field is sound, the fields are kept apart from each other, and they
are all there is. -/
structure WellFormed : Prop where
  sound : ∀ f ∈ T.fields, f.Sound
  apart : T.fields.Pairwise TField.Apart
  ext : ∀ s a, (∀ f ∈ T.fields, f.get s = f.get a) → s = a

/-- The values of `a` can be written. -/
def Writable (a : S) : Prop :=
  ∀ f ∈ T.fields, Reads f.readValue (f.writeValue (f.get a)) (f.get a)

/-- What a reader of these fields can come across: a value it can read, or a
field it has no use for. -/
def Admissible : WireItem E B S → Prop
  | .own f _ v => f ∈ T.fields ∧ Reads f.readValue (f.writeValue v) v
  | .foreign w => P.Passable w ∧ ∀ f ∈ T.fields, f.id = w.id → w.ttype ≠ f.ttype

/-- An item that can stand in a struct holding `a`. -/
def Holds (a : S) : WireItem E B S → Prop
  | .own f _ v => v = f.get a
  | .foreign _ => True

variable {P} {T}

theorem eq_or_apart (h : T.WellFormed) {f g : TField E B S} (hf : f ∈ T.fields)
    (hg : g ∈ T.fields) : f = g ∨ f.Apart g :=
  List.Pairwise.forall_of_forall_of_flip (R := fun f g => f = g ∨ f.Apart g)
    (fun _ _ => .inl rfl) (h.apart.imp .inr)
    (h.apart.imp fun hfg => .inr ⟨hfg.id.symm, hfg.right, hfg.left⟩) hf hg

theorem find_eq (h : T.WellFormed) {f : TField E B S} (hf : f ∈ T.fields) :
    T.fields.find? (fun g => g.id = f.id) = some f := by
  obtain ⟨name, fields, initial⟩ := T
  have hapart : fields.Pairwise TField.Apart := h.apart
  clear h
  simp only at hf ⊢
  induction fields with
  | nil => cases hf
  | cons g fields ih =>
      obtain ⟨hne, hapart⟩ := List.pairwise_cons.mp hapart
      rcases List.mem_cons.mp hf with rfl | hf
      · simp
      · rw [List.find?_cons_of_neg (by simpa using (hne f hf).id)]
        exact ih hf hapart

/-- **One item**: an own value is stored, and the rest is skipped. -/
theorem reads_switch (h : T.WellFormed) {item : WireItem E B S} (hitem : T.Admissible P item)
    (s : S) :
    Reads (T.switch P s item.field.id item.field.ttype) item.field.bytes (item.apply s) := by
  cases item with
  | own f name v =>
      obtain ⟨hf, hread⟩ := hitem
      show Reads (T.switch P s f.id f.ttype) (f.writeValue v) (f.set v s)
      rw [switch, find_eq h hf]
      exact TProtocol.Lawful.expected hread _ s
  | foreign w =>
      obtain ⟨hskip, hne⟩ := hitem
      show Reads (T.switch P s w.id w.ttype) w.bytes s
      rw [switch]
      split
      · rename_i f hf
        have hid : f.id = w.id := by
          have := List.find?_some hf
          exact of_decide_eq_true this
        exact TProtocol.Lawful.unexpected hskip
          (hne f (List.mem_of_find?_eq_some hf) hid) _ _ s
      · exact TProtocol.Lawful.ignored hskip s

theorem field_ok (h : T.WellFormed) {item : WireItem E B S} (hitem : T.Admissible P item) :
    item.field.ttype ≠ .stop ∧ IsInt 16 item.field.id := by
  cases item with
  | own f name v => exact ⟨(h.sound f hitem.1).ttype, (h.sound f hitem.1).id⟩
  | foreign w => exact ⟨hitem.1.ttype, hitem.1.id⟩

/-- **A struct is read item by item.** -/
theorem reads_items (hP : P.Lawful) (h : T.WellFormed) {items : List (WireItem E B S)}
    (hitems : ∀ item ∈ items, T.Admissible P item) (name : List Char) :
    Reads (T.read P) (P.writeStruct name (items.map WireItem.field))
      (items.foldl WireItem.apply T.initial) := by
  refine hP.readStruct (fun item hitem => ?_) name T.initial
  obtain ⟨hstop, hid⟩ := field_ok h (hitems item hitem)
  exact ⟨hstop, hid, reads_switch h (hitems item hitem)⟩

/-- A field that has its value of `a`, or still gets it, has it in the end. -/
theorem get_foldl (h : T.WellFormed) {a : S} {items : List (WireItem E B S)}
    (hitems : ∀ item ∈ items, T.Admissible P item ∧ Holds a item)
    {f : TField E B S} (hf : f ∈ T.fields) {s : S}
    (hget : f.get s = f.get a ∨ ∃ name v, WireItem.own f name v ∈ items) :
    f.get (items.foldl WireItem.apply s) = f.get a := by
  induction items generalizing s with
  | nil => simpa using hget
  | cons item items ih =>
      obtain ⟨hadm, hholds⟩ := hitems item List.mem_cons_self
      refine ih (fun i hi => hitems i (List.mem_cons_of_mem item hi)) ?_
      cases item with
      | own g name v =>
          obtain rfl : v = g.get a := hholds
          rcases eq_or_apart h hadm.1 hf with rfl | hapart
          · exact .inl ((h.sound g hf).get_set _ s)
          · rcases hget with hget | ⟨name', v', hmem⟩
            · exact .inl ((hapart.left _ s).trans hget)
            · rcases List.mem_cons.mp hmem with he | hmem
              · injection he with hfg
                exact absurd (congrArg TField.id hfg).symm hapart.id
              · exact .inr ⟨name', v', hmem⟩
      | foreign w =>
          rcases hget with hget | ⟨name', v', hmem⟩
          · exact .inl hget
          · rcases List.mem_cons.mp hmem with he | hmem
            · cases he
            · exact .inr ⟨name', v', hmem⟩

/-- **In any order**, and whatever else comes with them, the fields of `a` are
read as `a`. -/
theorem reads_of_holds (hP : P.Lawful) (h : T.WellFormed) {a : S} {items : List (WireItem E B S)}
    (hitems : ∀ item ∈ items, T.Admissible P item ∧ Holds a item)
    (hall : ∀ f ∈ T.fields, ∃ name v, WireItem.own f name v ∈ items) (name : List Char) :
    Reads (T.read P) (P.writeStruct name (items.map WireItem.field)) a := by
  have hread := reads_items hP h (fun item hitem => (hitems item hitem).1) name
  rwa [h.ext _ a fun f hf => get_foldl h hitems hf (.inr (hall f hf))] at hread

/-- **The round trip.** -/
theorem reads_write (hP : P.Lawful) (h : T.WellFormed) {a : S} (ha : T.Writable a) :
    Reads (T.read P) (T.write P a) a := by
  refine reads_of_holds hP h (fun item hitem => ?_) (fun f hf => ?_) T.name
  · obtain ⟨f, hf, rfl⟩ := List.mem_map.mp hitem
    exact ⟨⟨hf, ha f hf⟩, rfl⟩
  · exact ⟨f.name, f.get a, List.mem_map.mpr ⟨f, hf, rfl⟩⟩

/-! ### Structs of up to three fields -/

section Small

variable {f g k : TField E B S} {a : S}

theorem wellFormed_one (hT : T.fields = [f]) (hf : f.Sound)
    (hext : ∀ s a, f.get s = f.get a → s = a) : T.WellFormed where
  sound := by simpa [hT] using hf
  apart := by simp [hT]
  ext s a h := hext s a (h f (by simp [hT]))

theorem wellFormed_two (hT : T.fields = [f, g]) (hf : f.Sound) (hg : g.Sound) (hfg : f.Apart g)
    (hext : ∀ s a, f.get s = f.get a → g.get s = g.get a → s = a) : T.WellFormed where
  sound := by simpa [hT] using ⟨hf, hg⟩
  apart := by simpa [hT] using hfg
  ext s a h := hext s a (h f (by simp [hT])) (h g (by simp [hT]))

theorem wellFormed_three (hT : T.fields = [f, g, k]) (hf : f.Sound) (hg : g.Sound) (hk : k.Sound)
    (hfg : f.Apart g) (hfk : f.Apart k) (hgk : g.Apart k)
    (hext : ∀ s a, f.get s = f.get a → g.get s = g.get a → k.get s = k.get a → s = a) :
    T.WellFormed where
  sound := by simpa [hT] using ⟨hf, hg, hk⟩
  apart := by simpa [hT] using ⟨⟨hfg, hfk⟩, hgk⟩
  ext s a h := hext s a (h f (by simp [hT])) (h g (by simp [hT])) (h k (by simp [hT]))

theorem writable_one (hT : T.fields = [f])
    (hf : Reads f.readValue (f.writeValue (f.get a)) (f.get a)) : T.Writable a := by
  simpa [Writable, hT] using hf

theorem writable_two (hT : T.fields = [f, g])
    (hf : Reads f.readValue (f.writeValue (f.get a)) (f.get a))
    (hg : Reads g.readValue (g.writeValue (g.get a)) (g.get a)) : T.Writable a := by
  simpa [Writable, hT] using ⟨hf, hg⟩

theorem writable_three (hT : T.fields = [f, g, k])
    (hf : Reads f.readValue (f.writeValue (f.get a)) (f.get a))
    (hg : Reads g.readValue (g.writeValue (g.get a)) (g.get a))
    (hk : Reads k.readValue (k.writeValue (k.get a)) (k.get a)) : T.Writable a := by
  simpa [Writable, hT] using ⟨hf, hg, hk⟩

end Small

end TStruct

/-! ## The exception a server sends -/

/-- `TApplicationException`: its `write` and its `read`. -/
structure TApplicationExceptions (E B : Type) where
  write : Int → List Char → List B
  read : StreamReader E B (Int × List Char)

/-- What is written is read back. -/
def TApplicationExceptions.Lawful (X : TApplicationExceptions E B) : Prop :=
  ∀ {type : Int} {message : List Char}, IsInt 32 type → Short message →
    Reads X.read (X.write type message) (type, message)

/-- The struct it is sent as: type and message. -/
def applicationException (P : TProtocol E B) : TStruct E B (Int × List Char) where
  name := "TApplicationException".toList
  fields := [.string P "message".toList 1 Prod.snd fun v s => (s.1, v),
    .i32 P "type".toList 2 Prod.fst fun v s => (v, s.2)]
  initial := (0, [])

/-- The exceptions as a protocol's structs. -/
def TProtocol.applicationExceptions (P : TProtocol E B) : TApplicationExceptions E B where
  write type message := (applicationException P).write P (type, message)
  read := (applicationException P).read P

theorem TProtocol.Lawful.applicationExceptions {P : TProtocol E B} (h : P.Lawful) :
    P.applicationExceptions.Lawful := by
  intro type message htype hmessage
  have hwf : (applicationException P).WellFormed :=
    TStruct.wellFormed_two rfl (TField.sound_string (by decide) fun _ _ => rfl)
      (TField.sound_i32 (by decide) fun _ _ => rfl)
      ⟨show (1 : Int) ≠ 2 by decide, fun _ _ => rfl, fun _ _ => rfl⟩
      fun s a hmessage htype => Prod.ext htype hmessage
  exact TStruct.reads_write h hwf (TStruct.writable_two rfl (h.string hmessage) (h.i32 htype))

end Wire
