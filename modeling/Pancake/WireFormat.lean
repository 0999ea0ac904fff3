import Pancake.AsyncResponses
import Pancake.Lib.BinaryProtocol
import Pancake.Lib.ThriftStructs

/-!
# The wire format

The structs generated from `proxy.thrift`: `sequence_id`, the arguments and
the results of the methods of `pancake_thrift`, and the arguments of
`async_response`. Whether an argument was sent is recorded where something
looks at it: in `sequence_id`, in the results, and in the arguments of
`async_response`.

The protocol is a parameter.
-/

namespace Pancake

open Wire

variable {E B : Type} (P : TProtocol E B)

/-! ## `sequence_id` -/

/-- The members of `sequence_id` while it is read, each with its `isset`. -/
structure SequenceIdMembers where
  clientId : Option Int := none
  clientSeqNo : Option Int := none
  serverSeqNo : Option Int := none

namespace SequenceIdMembers

def clientIdField : TField E B SequenceIdMembers :=
  .flagged "client_id".toList 1 .i64 P.readI64 P.writeI64 0 clientId
    fun v s => { s with clientId := v }

def clientSeqNoField : TField E B SequenceIdMembers :=
  .flagged "client_seq_no".toList 2 .i64 P.readI64 P.writeI64 0 clientSeqNo
    fun v s => { s with clientSeqNo := v }

def serverSeqNoField : TField E B SequenceIdMembers :=
  .flagged "server_seq_no".toList 3 .i64 P.readI64 P.writeI64 0 serverSeqNo
    fun v s => { s with serverSeqNo := v }

def struct : TStruct E B SequenceIdMembers where
  name := "sequence_id".toList
  fields := [clientIdField P, clientSeqNoField P, serverSeqNoField P]
  initial := {}

/-- The required fields are tested for when all have been read. -/
def complete (m : SequenceIdMembers) : Option SequenceId := do
  return ⟨← m.clientId, ← m.clientSeqNo, ← m.serverSeqNo⟩

end SequenceIdMembers

namespace SequenceId

/-- `sequence_id::read` -/
def read : StreamReader E B SequenceId := do
  let m ← (SequenceIdMembers.struct P).read P
  match m.complete with
  | some seqId => return seqId
  | none => throw P.invalidData

/-- `sequence_id::write` -/
def write (seqId : SequenceId) : List B :=
  (SequenceIdMembers.struct P).write P
    ⟨some seqId.clientId, some seqId.clientSeqNo, some seqId.serverSeqNo⟩

/-- The numbers are `int64_t`s. -/
structure Fits (seqId : SequenceId) : Prop where
  clientId : IsInt 64 seqId.clientId
  clientSeqNo : IsInt 64 seqId.clientSeqNo
  serverSeqNo : IsInt 64 seqId.serverSeqNo

end SequenceId

section

variable {P}

theorem SequenceIdMembers.mem_fields {f : TField E B SequenceIdMembers} :
    f ∈ (struct P).fields ↔
      f = clientIdField P ∨ f = clientSeqNoField P ∨ f = serverSeqNoField P := by
  show f ∈ [_, _, _] ↔ _
  simp only [List.mem_cons, List.not_mem_nil, or_false]

theorem SequenceIdMembers.wellFormed : (struct P).WellFormed :=
  TStruct.wellFormed_three rfl
    (TField.sound_flagged (by decide) (by decide) fun _ _ => rfl)
    (TField.sound_flagged (by decide) (by decide) fun _ _ => rfl)
    (TField.sound_flagged (by decide) (by decide) fun _ _ => rfl)
    ⟨show (1 : Int) ≠ 2 by decide, fun _ _ => rfl, fun _ _ => rfl⟩
    ⟨show (1 : Int) ≠ 3 by decide, fun _ _ => rfl, fun _ _ => rfl⟩
    ⟨show (2 : Int) ≠ 3 by decide, fun _ _ => rfl, fun _ _ => rfl⟩
    fun s a h₁ h₂ h₃ => by
      obtain ⟨c, n, m⟩ := s
      obtain rfl : c = a.clientId := h₁
      obtain rfl : n = a.clientSeqNo := h₂
      obtain rfl : m = a.serverSeqNo := h₃
      rfl

end

/-! ### What the reader accepts -/

/-- What may stand in a `sequence_id` on the wire: a number under one of the
three ids, or anything else. -/
inductive SequenceIdItem (B : Type) where
  | number (id : Int) (name : Str) (v : Int)
  | foreign (w : WireField B)

namespace SequenceIdItem

/-- The field on the wire. -/
def field : SequenceIdItem B → WireField B
  | number id name v => ⟨name, .i64, id, P.writeI64 v⟩
  | foreign w => w

/-- The number is an `int64_t` and under one of the ids, and anything else is
not. -/
def Fits : SequenceIdItem B → Prop
  | number id _ v => (id = 1 ∨ id = 2 ∨ id = 3) ∧ IsInt 64 v
  | foreign w => P.Passable w ∧ (w.ttype = .i64 → w.id ≠ 1 ∧ w.id ≠ 2 ∧ w.id ≠ 3)

/-- The number the item gives under an id. -/
def given (id : Int) : SequenceIdItem B → Option Int
  | number id' _ v => if id' = id then some v else none
  | foreign _ => none

/-- The last number given under an id. -/
def last (items : List (SequenceIdItem B)) (id : Int) : Option Int :=
  items.reverse.findSome? (given id)

theorem last_cons (item : SequenceIdItem B) (items : List (SequenceIdItem B)) (id : Int) :
    last (item :: items) id = (last items id).or (given id item) := by
  rw [last, last, List.reverse_cons, List.findSome?_append, List.findSome?_singleton]

/-- The item, as one of the struct's. -/
def item : SequenceIdItem B → WireItem E B SequenceIdMembers
  | number id name v =>
      if id = 1 then .own (SequenceIdMembers.clientIdField P) name (some v)
      else if id = 2 then .own (SequenceIdMembers.clientSeqNoField P) name (some v)
      else .own (SequenceIdMembers.serverSeqNoField P) name (some v)
  | foreign w => .foreign w

variable {P}

theorem Fits.admissible (hP : P.Lawful) {i : SequenceIdItem B} (h : i.Fits P) :
    (SequenceIdMembers.struct P).Admissible P (i.item P) ∧ (i.item P).field = i.field P := by
  cases i with
  | number id name v =>
      obtain ⟨rfl | rfl | rfl, hv⟩ := h
      · exact ⟨⟨SequenceIdMembers.mem_fields.mpr (.inl rfl), (hP.i64 hv).map some⟩, rfl⟩
      · exact ⟨⟨SequenceIdMembers.mem_fields.mpr (.inr (.inl rfl)), (hP.i64 hv).map some⟩, rfl⟩
      · exact ⟨⟨SequenceIdMembers.mem_fields.mpr (.inr (.inr rfl)), (hP.i64 hv).map some⟩, rfl⟩
  | foreign w =>
      refine ⟨⟨h.1, fun f hf hid htype => ?_⟩, rfl⟩
      rcases SequenceIdMembers.mem_fields.mp hf with rfl | rfl | rfl
      · exact (h.2 htype).1 hid.symm
      · exact (h.2 htype).2.1 hid.symm
      · exact (h.2 htype).2.2 hid.symm

/-- **What the loop collects**: under each id the last number given. -/
theorem foldl_item {items : List (SequenceIdItem B)} (h : ∀ i ∈ items, i.Fits P)
    (s : SequenceIdMembers) :
    (items.map (item P)).foldl WireItem.apply s =
      ⟨(last items 1).or s.clientId, (last items 2).or s.clientSeqNo,
        (last items 3).or s.serverSeqNo⟩ := by
  induction items generalizing s with
  | nil => rfl
  | cons i items ih =>
      have hi := h i List.mem_cons_self
      rw [List.map_cons, List.foldl_cons, ih fun j hj => h j (List.mem_cons_of_mem i hj)]
      simp only [last_cons, Option.or_assoc]
      cases i with
      | number id name v =>
          obtain ⟨rfl | rfl | rfl, -⟩ := hi
          · rfl
          · rfl
          · rfl
      | foreign w => rfl

end SequenceIdItem

theorem SequenceIdMembers.complete_eq_some {m : SequenceIdMembers} {seqId : SequenceId} :
    m.complete = some seqId ↔ m.clientId = some seqId.clientId ∧
      m.clientSeqNo = some seqId.clientSeqNo ∧ m.serverSeqNo = some seqId.serverSeqNo := by
  obtain ⟨c, n, k⟩ := m
  obtain ⟨c', n', k'⟩ := seqId
  cases c <;> cases n <;> cases k <;> simp [complete]

theorem SequenceIdMembers.complete_eq_none {m : SequenceIdMembers} :
    m.complete = none ↔ m.clientId = none ∨ m.clientSeqNo = none ∨ m.serverSeqNo = none := by
  obtain ⟨c, n, k⟩ := m
  cases c <;> cases n <;> cases k <;> simp [complete]

/-- Once the members are read, the required ones decide. -/
theorem SequenceId.read_of_members {P : TProtocol E B} {bytes : List B} {m : SequenceIdMembers}
    (h : Reads ((SequenceIdMembers.struct P).read P) bytes m) :
    (∀ seqId, Reads (SequenceId.read P) bytes seqId ↔ m.complete = some seqId) ∧
      (Throws (SequenceId.read P) bytes P.invalidData ↔ m.complete = none) := by
  cases hm : m.complete with
  | some seqId =>
      have hread : Reads (SequenceId.read P) bytes seqId := by
        refine h.bind_nil ?_
        rw [hm]
        exact .pure seqId
      refine ⟨fun seqId' => ⟨fun h' => congrArg some (hread.unique h'), fun he => ?_⟩, ?_⟩
      · obtain rfl := Option.some.inj he
        exact hread
      · exact iff_of_false hread.not_throws (by simp)
  | none =>
      have hthrows : Throws (SequenceId.read P) bytes P.invalidData := by
        refine h.bind_throws_nil ?_
        rw [hm]
        exact .throw _
      exact ⟨fun seqId => iff_of_false (fun h' => h'.not_throws hthrows) (by simp),
        iff_of_true hthrows rfl⟩

/-- **`sequence_id::read`**: whatever order the fields come in, how often they
come, and what comes between them, it takes the last number under each of the
three ids, and throws if there is none under one of them. -/
theorem SequenceId.read_iff {P : TProtocol E B} (hP : P.Lawful) {items : List (SequenceIdItem B)}
    (h : ∀ i ∈ items, i.Fits P) (name : Str) :
    (∀ seqId : SequenceId, Reads (SequenceId.read P)
        (P.writeStruct name (items.map (SequenceIdItem.field P))) seqId ↔
      SequenceIdItem.last items 1 = some seqId.clientId ∧
      SequenceIdItem.last items 2 = some seqId.clientSeqNo ∧
      SequenceIdItem.last items 3 = some seqId.serverSeqNo) ∧
    (Throws (SequenceId.read P) (P.writeStruct name (items.map (SequenceIdItem.field P)))
        P.invalidData ↔
      ∃ id ∈ [1, 2, 3], SequenceIdItem.last items id = none) := by
  have hfields : items.map (SequenceIdItem.field P)
      = (items.map (SequenceIdItem.item P)).map WireItem.field := by
    rw [List.map_map]
    exact List.map_congr_left fun i hi => ((h i hi).admissible hP).2.symm
  have hadm : ∀ i ∈ items.map (SequenceIdItem.item P),
      (SequenceIdMembers.struct P).Admissible P i := by
    intro i hi
    obtain ⟨j, hj, rfl⟩ := List.mem_map.mp hi
    exact ((h j hj).admissible hP).1
  have hread := TStruct.reads_items hP SequenceIdMembers.wellFormed hadm name
  have hinitial : (SequenceIdMembers.struct P).initial = {} := rfl
  rw [SequenceIdItem.foldl_item h, ← hfields, hinitial] at hread
  simp only [Option.or_none] at hread
  obtain ⟨hreads, hthrows⟩ := SequenceId.read_of_members hread
  refine ⟨fun seqId => (hreads seqId).trans ?_, hthrows.trans ?_⟩
  · rw [SequenceIdMembers.complete_eq_some]
  · rw [SequenceIdMembers.complete_eq_none]
    simp

/-- Fields in the wrong order, one of them twice, and one that is not of the
struct; and without a required one. -/
theorem SequenceId.read_iff_reordered :
    Reads (SequenceId.read binaryProtocol)
        (binaryProtocol.writeStruct [] ([SequenceIdItem.number 3 [] 7,
          .foreign ⟨[], .i32, 1, Binary.writeInt 4 0⟩, .number 1 [] 5, .number 2 [] 4,
          .number 1 [] 6].map (SequenceIdItem.field binaryProtocol))) ⟨6, 4, 7⟩ ∧
      Throws (SequenceId.read binaryProtocol)
        (binaryProtocol.writeStruct [] ([SequenceIdItem.number 3 [] 7, .number 1 [] 5].map
          (SequenceIdItem.field binaryProtocol))) .invalidData := by
  have hskip : binaryProtocol.Passable ⟨[], .i32, 1, Binary.writeInt 4 0⟩ :=
    ⟨by decide, by decide, (Binary.reads_take (Binary.writeInt 4 0)).map fun _ => ()⟩
  constructor
  · refine ((SequenceId.read_iff binaryProtocol_lawful ?_ []).1 _).mpr (by decide)
    simp [SequenceIdItem.Fits, IsInt, hskip]
  · refine (SequenceId.read_iff binaryProtocol_lawful ?_ []).2.mpr (by decide)
    simp [SequenceIdItem.Fits, IsInt]

/-- `write`, then `read`. -/
theorem SequenceId.reads_write {P : TProtocol E B} (hP : P.Lawful) {seqId : SequenceId}
    (h : seqId.Fits) : Reads (SequenceId.read P) (SequenceId.write P seqId) seqId := by
  refine ((SequenceId.read_of_members (TStruct.reads_write hP SequenceIdMembers.wellFormed ?_)).1
    seqId).mpr rfl
  intro f hf
  rcases SequenceIdMembers.mem_fields.mp hf with rfl | rfl | rfl
  · exact (hP.i64 h.clientId).map some
  · exact (hP.i64 h.clientSeqNo).map some
  · exact (hP.i64 h.serverSeqNo).map some

/-! ## The arguments of the methods

The client writes `pargs` and the server reads `args`: the same fields under
another name. -/

/-- `pancake_thrift_get_client_id_args` -/
structure GetClientIdArgs where
  deriving DecidableEq

def GetClientIdArgs.struct (name : Str) : TStruct E B GetClientIdArgs where
  name := name
  fields := []
  initial := {}

/-- `pancake_thrift_register_client_id_args` -/
structure RegisterClientIdArgs where
  blockId : Int := 0
  clientId : Int := 0
  deriving DecidableEq

def RegisterClientIdArgs.struct (name : Str) : TStruct E B RegisterClientIdArgs where
  name := name
  fields := [
    .i32 P "block_id".toList 1 blockId fun v s => { s with blockId := v },
    .i64 P "client_id".toList 2 clientId fun v s => { s with clientId := v }]
  initial := {}

/-- `pancake_thrift_get_args` -/
structure GetArgs where
  key : Str := []
  deriving DecidableEq

def GetArgs.struct (name : Str) : TStruct E B GetArgs where
  name := name
  fields := [.string P "key".toList 1 key fun v s => { s with key := v }]
  initial := {}

/-- `pancake_thrift_put_args` -/
structure PutArgs where
  key : Str := []
  value : Str := []
  deriving DecidableEq

def PutArgs.struct (name : Str) : TStruct E B PutArgs where
  name := name
  fields := [
    .string P "key".toList 1 key fun v s => { s with key := v },
    .string P "value".toList 2 value fun v s => { s with value := v }]
  initial := {}

/-- `pancake_thrift_get_batch_args` -/
structure GetBatchArgs where
  keys : List Str := []
  deriving DecidableEq

def GetBatchArgs.struct (name : Str) : TStruct E B GetBatchArgs where
  name := name
  fields := [.strings P "keys".toList 1 keys fun v s => { s with keys := v }]
  initial := {}

/-- `pancake_thrift_put_batch_args` -/
structure PutBatchArgs where
  keys : List Str := []
  values : List Str := []
  deriving DecidableEq

def PutBatchArgs.struct (name : Str) : TStruct E B PutBatchArgs where
  name := name
  fields := [
    .strings P "keys".toList 1 keys fun v s => { s with keys := v },
    .strings P "values".toList 2 values fun v s => { s with values := v }]
  initial := {}

/-- `sequence_id()` -/
def SequenceId.initial : SequenceId := ⟨0, 0, 0⟩

/-- The field every asynchronous call starts with. -/
def seqIdField {S : Type} (get : S → SequenceId) (set : SequenceId → S → S) : TField E B S :=
  .struct "seq_id".toList 1 (SequenceId.read P) (SequenceId.write P) get set

/-- `pancake_thrift_async_get_args` -/
structure AsyncGetArgs where
  seqId : SequenceId := .initial
  key : Str := []
  deriving DecidableEq

def AsyncGetArgs.struct (name : Str) : TStruct E B AsyncGetArgs where
  name := name
  fields := [
    seqIdField P seqId fun v s => { s with seqId := v },
    .string P "key".toList 2 key fun v s => { s with key := v }]
  initial := {}

/-- `pancake_thrift_async_put_args` -/
structure AsyncPutArgs where
  seqId : SequenceId := .initial
  key : Str := []
  value : Str := []
  deriving DecidableEq

def AsyncPutArgs.struct (name : Str) : TStruct E B AsyncPutArgs where
  name := name
  fields := [
    seqIdField P seqId fun v s => { s with seqId := v },
    .string P "key".toList 2 key fun v s => { s with key := v },
    .string P "value".toList 3 value fun v s => { s with value := v }]
  initial := {}

/-- `pancake_thrift_async_get_batch_args` -/
structure AsyncGetBatchArgs where
  seqId : SequenceId := .initial
  keys : List Str := []
  deriving DecidableEq

def AsyncGetBatchArgs.struct (name : Str) : TStruct E B AsyncGetBatchArgs where
  name := name
  fields := [
    seqIdField P seqId fun v s => { s with seqId := v },
    .strings P "keys".toList 2 keys fun v s => { s with keys := v }]
  initial := {}

/-- `pancake_thrift_async_put_batch_args` -/
structure AsyncPutBatchArgs where
  seqId : SequenceId := .initial
  keys : List Str := []
  values : List Str := []
  deriving DecidableEq

def AsyncPutBatchArgs.struct (name : Str) : TStruct E B AsyncPutBatchArgs where
  name := name
  fields := [
    seqIdField P seqId fun v s => { s with seqId := v },
    .strings P "keys".toList 2 keys fun v s => { s with keys := v },
    .strings P "values".toList 3 values fun v s => { s with values := v }]
  initial := {}

/-- A list of strings that can be written. -/
def ShortAll (l : List Str) : Prop := Short l ∧ ∀ s ∈ l, Short s

instance (l : List Str) : Decidable (ShortAll l) := inferInstanceAs (Decidable (_ ∧ _))

end Pancake
