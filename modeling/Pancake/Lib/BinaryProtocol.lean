import Mathlib.Data.Char
import Mathlib.Tactic.Ring
import Pancake.Lib.Thrift

/-!
# The binary protocol

The protocol that puts numbers big-endian on the wire, each in the width of
its type, strings and lists after their length, fields after their type and
id, and nothing at all at the ends of things. A message starts with a version
and its type in one number, or, as older writers put it, with the length of
its name.

A character stands for a byte, and is below 256.
-/

namespace Wire

/-- What the protocol throws. -/
inductive BinaryFault where
  | endOfFile
  | invalidData
  | negativeSize
  | badVersion
  | depthLimit
  deriving DecidableEq

/-- A reader of bytes. -/
abbrev ByteReader (A : Type) := StreamReader BinaryFault Char A

namespace Binary

/-! ## Numbers -/

/-- The `k` low bytes of `n`, the highest first. -/
def bigEndian : Nat → Nat → List Char
  | 0, _ => []
  | k + 1, n => bigEndian k (n / 256) ++ [Char.ofNat (n % 256)]

/-- The number some bytes stand for. -/
def ofBigEndian (bytes : List Char) : Nat := bytes.foldl (fun n c => n * 256 + c.toNat) 0

@[simp] theorem length_bigEndian (k n : Nat) : (bigEndian k n).length = k := by
  induction k generalizing n with
  | zero => rfl
  | succ k ih => simp [bigEndian, ih]

theorem toNat_ofNat {n : Nat} (h : n < 256) : (Char.ofNat n).toNat = n := by
  have hvalid : n.isValidChar := Or.inl (by omega)
  rw [Char.ofNat, dif_pos hvalid]
  rfl

theorem ofBigEndian_bigEndian {k n : Nat} (h : n < 256 ^ k) : ofBigEndian (bigEndian k n) = n := by
  induction k generalizing n with
  | zero =>
      obtain rfl : n = 0 := by simpa using h
      rfl
  | succ k ih =>
      have hdiv : n / 256 < 256 ^ k := by
        rw [Nat.div_lt_iff_lt_mul (by decide)]
        exact h
      have hrest := ih hdiv
      rw [ofBigEndian] at hrest ⊢
      rw [bigEndian, List.foldl_append, hrest, List.foldl_cons, List.foldl_nil,
        toNat_ofNat (Nat.mod_lt _ (by decide)), Nat.mul_comm]
      exact Nat.div_add_mod n 256

/-- `n` bytes. -/
def take (n : Nat) : ByteReader (List Char) := fun input =>
  if input.length < n then .error .endOfFile else .ok (input.take n, input.drop n)

theorem reads_take (bytes : List Char) : Reads (take bytes.length) bytes bytes := by
  intro rest
  have hlen : ¬ (bytes ++ rest).length < bytes.length := by simp
  rw [take, if_neg hlen, List.take_left, List.drop_left]

/-- An integer of `k` bytes. -/
def writeInt (k : Nat) (v : Int) : List Char := bigEndian k (v % 256 ^ k).toNat

def readInt (k : Nat) : ByteReader Int := do
  let bytes ← take k
  let n := ofBigEndian bytes
  return if n < 256 ^ k / 2 then n else n - 256 ^ k

theorem reads_int {k : Nat} {v : Int} (hk : k ≠ 0) (h : IsInt (8 * k) v) :
    Reads (readInt k) (writeInt k v) v := by
  obtain ⟨hlo, hhi⟩ := h
  have hpow : (256 : Nat) ^ k = 2 * 2 ^ (8 * k - 1) := by
    rw [← Nat.pow_succ', Nat.succ_eq_add_one, Nat.sub_add_cancel (by omega), Nat.pow_mul]
  have hpowi : (256 : Int) ^ k = 2 * 2 ^ (8 * k - 1) := by exact_mod_cast hpow
  have hhalf : 256 ^ k / 2 = 2 ^ (8 * k - 1) := by omega
  have hcasth : ((2 ^ (8 * k - 1) : Nat) : Int) = 2 ^ (8 * k - 1) := by push_cast; rfl
  have hpos : (0 : Int) < 256 ^ k := Int.pow_pos (by decide)
  have hmod := Int.emod_nonneg v hpos.ne'
  have hlt : (v % 256 ^ k).toNat < 256 ^ k := by
    have := Int.emod_lt_of_pos v hpos
    have hcast : ((256 ^ k : Nat) : Int) = 256 ^ k := by push_cast; rfl
    omega
  have hbytes : Reads (take k) (writeInt k v) (writeInt k v) := by
    have := reads_take (writeInt k v)
    rwa [writeInt, length_bigEndian] at this
  refine hbytes.bind_nil ?_
  have hn : ofBigEndian (writeInt k v) = (v % 256 ^ k).toNat := ofBigEndian_bigEndian hlt
  have hv : (if ofBigEndian (writeInt k v) < 256 ^ k / 2 then (ofBigEndian (writeInt k v) : Int)
      else ofBigEndian (writeInt k v) - 256 ^ k) = v := by
    rw [hn, Int.toNat_of_nonneg hmod, hhalf]
    rcases Int.lt_or_le v 0 with hneg | hnonneg
    · have he : v % 256 ^ k = v + 256 ^ k := by
        rw [← Int.add_mul_emod_self_left v (256 ^ k) 1, Int.mul_one]
        exact Int.emod_eq_of_lt (by omega) (by omega)
      rw [if_neg (by omega), he]
      omega
    · have he : v % 256 ^ k = v := Int.emod_eq_of_lt hnonneg (by omega)
      rw [if_pos (by omega), he]
  simp only [hv]
  exact .pure v

/-! ## Strings, lists, fields and messages -/

def writeString (s : List Char) : List Char := writeInt 4 s.length ++ s

/-- A length, which is not negative. -/
def readSize : ByteReader Nat := do
  let size ← readInt 4
  if size < 0 then throw .negativeSize else return size.toNat

def readString : ByteReader (List Char) := do take (← readSize)

theorem reads_size {n : Nat} (h : n < 2 ^ 31) : Reads readSize (writeInt 4 n) n := by
  have hint : IsInt (8 * 4) (n : Int) := ⟨by omega, by omega⟩
  refine (reads_int (by decide) hint).bind_nil ?_
  rw [if_neg (by omega), Int.toNat_natCast]
  exact .pure n

theorem reads_string {s : List Char} (h : Short s) : Reads readString (writeString s) s :=
  (reads_size h).bind (reads_take s)

/-- The codes of `TType`. -/
def code : TType → Nat
  | .stop => 0
  | .void => 1
  | .bool => 2
  | .byte => 3
  | .double => 4
  | .i16 => 6
  | .i32 => 8
  | .u64 => 9
  | .i64 => 10
  | .string => 11
  | .struct => 12
  | .map => 13
  | .set => 14
  | .list => 15
  | .utf8 => 16
  | .utf16 => 17

def types : List TType := [.stop, .void, .bool, .byte, .double, .i16, .i32, .u64, .i64, .string,
  .struct, .map, .set, .list, .utf8, .utf16]

def writeType (ttype : TType) : List Char := [Char.ofNat (code ttype)]

def readType : ByteReader TType := do
  let bytes ← take 1
  match types.find? fun ttype => code ttype = ofBigEndian bytes with
  | some ttype => return ttype
  | none => throw .invalidData

theorem reads_type (ttype : TType) : Reads readType (writeType ttype) ttype := by
  have hfind : types.find? (fun t => code t = ofBigEndian (writeType ttype)) = some ttype := by
    cases ttype <;> decide
  refine (reads_take (writeType ttype)).bind_nil ?_
  rw [hfind]
  exact .pure ttype

def writeFieldBegin (_ : List Char) (ttype : TType) (id : Int) : List Char :=
  writeType ttype ++ writeInt 2 id

/-- The type, and the id unless it is the end of the fields. -/
def readFieldBegin : ByteReader (TType × Int) := do
  let ttype ← readType
  if ttype = .stop then return (ttype, 0)
  else return (ttype, ← readInt 2)

theorem reads_fieldBegin {name : List Char} {ttype : TType} {id : Int} (hstop : ttype ≠ .stop)
    (hid : IsInt 16 id) : Reads readFieldBegin (writeFieldBegin name ttype id) (ttype, id) := by
  refine (reads_type ttype).bind ?_
  rw [if_neg hstop]
  exact (reads_int (k := 2) (by decide) hid).bind_nil (.pure _)

theorem reads_fieldStop : Reads readFieldBegin (writeType .stop) (.stop, 0) :=
  (reads_type .stop).bind_nil (.pure _)

def writeListBegin (ttype : TType) (size : Nat) : List Char := writeType ttype ++ writeInt 4 size

def readListBegin : ByteReader (TType × Nat) := do
  let ttype ← readType
  return (ttype, ← readSize)

theorem reads_listBegin {ttype : TType} {size : Nat} (h : size < 2 ^ 31) :
    Reads readListBegin (writeListBegin ttype size) (ttype, size) :=
  (reads_type ttype).bind ((reads_size h).bind_nil (.pure _))

/-- The codes of `TMessageType`. -/
def messageCode : TMessageType → Int
  | .call => 1
  | .reply => 2
  | .exception => 3
  | .oneway => 4

/-- The message type of a code. -/
def messageType (code : Int) : ByteReader TMessageType :=
  match [TMessageType.call, .reply, .exception, .oneway].find? fun t => messageCode t = code with
  | some type => return type
  | none => throw .invalidData

/-- `VERSION_1`, as an `int32_t`. -/
def version : Int := -2 ^ 31 + 2 ^ 16

def writeMessageBegin (name : List Char) (type : TMessageType) (seqid : Int) : List Char :=
  writeInt 4 (version + messageCode type) ++ (writeString name ++ writeInt 4 seqid)

/-- A negative number is a version and a type; any other is the length of the
name. -/
def readMessageBegin : ByteReader (List Char × TMessageType × Int) := do
  let size ← readInt 4
  if size < 0 then
    if size / 2 ^ 16 = version / 2 ^ 16 then do
      let name ← readString
      let seqid ← readInt 4
      let type ← messageType (size % 2 ^ 8)
      return (name, type, seqid)
    else throw .badVersion
  else do
    let name ← take size.toNat
    let type ← readInt 1
    let seqid ← readInt 4
    let type ← messageType type
    return (name, type, seqid)

theorem reads_messageType (type : TMessageType) :
    Reads (messageType (messageCode type)) [] type := by
  cases type <;> exact .pure _

theorem reads_messageBegin {name : List Char} {type : TMessageType} {seqid : Int}
    (hname : Short name) (hseqid : IsInt 32 seqid) :
    Reads readMessageBegin (writeMessageBegin name type seqid) (name, type, seqid) := by
  have hint : IsInt (8 * 4) (version + messageCode type) := by cases type <;> decide
  have hneg : version + messageCode type < 0 := by cases type <;> decide
  have hversion : (version + messageCode type) / 2 ^ 16 = version / 2 ^ 16 := by
    cases type <;> decide
  have hcode : (version + messageCode type) % 2 ^ 8 = messageCode type := by
    cases type <;> decide
  refine (reads_int (by decide) hint).bind ?_
  rw [if_pos hneg, if_pos hversion, hcode]
  refine (reads_string hname).bind ((reads_int (k := 4) (by decide) hseqid).bind_nil ?_)
  exact (reads_messageType type).bind_nil (.pure _)

/-! ## Skipping -/

/-- The fields of a struct up to the stop, `skip` passing over their values. -/
def skipFields (skip : TType → ByteReader Unit) : Nat → ByteReader Unit
  | 0 => throw .endOfFile
  | n + 1 => do
      let (ttype, _) ← readFieldBegin
      if ttype = .stop then return ()
      else do
        skip ttype
        skipFields skip n

/-- A value of the type, nested no deeper than the limit. -/
def skip : Nat → TType → ByteReader Unit
  | 0, _ => throw .depthLimit
  | depth + 1, ttype =>
      match ttype with
      | .bool | .byte => do discard (take 1)
      | .i16 => do discard (take 2)
      | .i32 => do discard (take 4)
      | .i64 | .double => do discard (take 8)
      | .string => do discard readString
      | .struct => do
          let input ← get
          skipFields (skip depth) (input.length + 1)
      | .map => do
          let key ← readType
          let value ← readType
          let size ← readSize
          discard (readMany (do
            skip depth key
            skip depth value) size)
      | .set | .list => do
          let (ttype, size) ← readListBegin
          discard (readMany (skip depth ttype) size)
      | _ => throw .invalidData

end Binary

/-- `TBinaryProtocol` -/
def binaryProtocol : TProtocol BinaryFault Char where
  writeMessageBegin := Binary.writeMessageBegin
  writeMessageEnd := []
  writeStructBegin _ := []
  writeStructEnd := []
  writeFieldBegin := Binary.writeFieldBegin
  writeFieldEnd := []
  writeFieldStop := Binary.writeType .stop
  writeI32 := Binary.writeInt 4
  writeI64 := Binary.writeInt 8
  writeString := Binary.writeString
  writeListBegin := Binary.writeListBegin
  writeListEnd := []
  readMessageBegin := Binary.readMessageBegin
  readMessageEnd := pure ()
  readStructBegin := pure ()
  readStructEnd := pure ()
  readFieldBegin := Binary.readFieldBegin
  readFieldEnd := pure ()
  readI32 := Binary.readInt 4
  readI64 := Binary.readInt 8
  readString := Binary.readString
  readListBegin := Binary.readListBegin
  readListEnd := pure ()
  skip := Binary.skip 64
  invalidData := .invalidData
  endOfFile := .endOfFile

/-- **It is a protocol.** -/
theorem binaryProtocol_lawful : binaryProtocol.Lawful where
  message := Binary.reads_messageBegin
  messageEnd := .pure ()
  struct _ := .pure ()
  structEnd := .pure ()
  field {name _ _} hstop hid := @Binary.reads_fieldBegin name _ _ hstop hid
  fieldEnd := .pure ()
  fieldStop := ⟨0, Binary.reads_fieldStop⟩
  i32 h := Binary.reads_int (k := 4) (by decide) h
  i64 h := Binary.reads_int (k := 8) (by decide) h
  string := Binary.reads_string
  list := Binary.reads_listBegin
  listEnd := .pure ()
  field_ne_nil _ _ _ := by simp [binaryProtocol, Binary.writeFieldBegin, Binary.writeType]

end Wire
