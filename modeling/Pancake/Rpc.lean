import Pancake.WireFormat

/-!
# Remote calls

`pancake_thriftClient` and `pancake_thriftProcessor`: what a client puts on the
wire for a call, what the server makes of what it reads, and what the client
makes of the answer. The handler behind the server is a parameter: it returns a
result or throws, and what it throws a client is told, unless it waits for no
answer.

The server's library reads the head of a message and hands the rest to
`dispatchCall`: its `process` is a parameter, of which calls and oneway
messages only need that much. Transports are left out, one message following
another.
-/

namespace Pancake

open Wire

/-! ## The methods -/

/-- The methods of `pancake_thrift`. -/
inductive Method where
  | getClientId
  | registerClientId
  | asyncGet
  | asyncPut
  | asyncGetBatch
  | asyncPutBatch
  | get
  | put
  | getBatch
  | putBatch
  deriving DecidableEq

namespace Method

def name : Method → Str
  | getClientId => "get_client_id".toList
  | registerClientId => "register_client_id".toList
  | asyncGet => "async_get".toList
  | asyncPut => "async_put".toList
  | asyncGetBatch => "async_get_batch".toList
  | asyncPutBatch => "async_put_batch".toList
  | get => "get".toList
  | put => "put".toList
  | getBatch => "get_batch".toList
  | putBatch => "put_batch".toList

/-- The methods the processor knows. -/
def processMap : List Method := [getClientId, registerClientId, asyncGet, asyncPut, asyncGetBatch,
  asyncPutBatch, get, put, getBatch, putBatch]

/-- `processMap_.find(fname)` -/
def find (fname : Str) : Option Method := processMap.find? (·.name = fname)

/-- The methods without an answer. -/
def oneway : Method → Bool
  | asyncGet | asyncPut | asyncGetBatch | asyncPutBatch => true
  | _ => false

def Args : Method → Type
  | getClientId => GetClientIdArgs
  | registerClientId => RegisterClientIdArgs
  | asyncGet => AsyncGetArgs
  | asyncPut => AsyncPutArgs
  | asyncGetBatch => AsyncGetBatchArgs
  | asyncPutBatch => AsyncPutBatchArgs
  | get => GetArgs
  | put => PutArgs
  | getBatch => GetBatchArgs
  | putBatch => PutBatchArgs

def Result : Method → Type
  | getClientId => Int
  | get => Str
  | getBatch => List Str
  | _ => Unit

variable {E B : Type} (P : TProtocol E B)

/-- The struct of the arguments, under a name. -/
def struct : (m : Method) → Str → TStruct E B m.Args
  | getClientId => GetClientIdArgs.struct
  | registerClientId => RegisterClientIdArgs.struct P
  | asyncGet => AsyncGetArgs.struct P
  | asyncPut => AsyncPutArgs.struct P
  | asyncGetBatch => AsyncGetBatchArgs.struct P
  | asyncPutBatch => AsyncPutBatchArgs.struct P
  | get => GetArgs.struct P
  | put => PutArgs.struct P
  | getBatch => GetBatchArgs.struct P
  | putBatch => PutBatchArgs.struct P

/-- `pancake_thrift_…_args` -/
def args (m : Method) : TStruct E B m.Args :=
  m.struct P ("pancake_thrift_".toList ++ m.name ++ "_args".toList)

/-- `pancake_thrift_…_pargs` -/
def pargs (m : Method) : TStruct E B m.Args :=
  m.struct P ("pancake_thrift_".toList ++ m.name ++ "_pargs".toList)

/-- A result struct with a value: field 0, if it was set. -/
def success {V : Type} (name : Str) (ttype : TType) (read : StreamReader E B V) (write : V → List B)
    (initial : V) : TStruct E B (Option V) where
  name := name
  fields := [.flagged "success".toList 0 ttype read write initial id fun v _ => v]
  initial := none

/-- A result struct without a value. -/
def noSuccess (name : Str) : TStruct E B Unit where
  name := name
  fields := []
  initial := ()

/-- `pancake_thrift_…_result::write`, the result being set. -/
def writeResult (m : Method) : m.Result → List B :=
  let name := "pancake_thrift_".toList ++ m.name ++ "_result".toList
  match m with
  | getClientId => fun v => (success name .i64 P.readI64 P.writeI64 0).write P (some v)
  | get => fun v => (success name .string P.readString P.writeString []).write P (some v)
  | getBatch => fun v => (success name .list P.readStrings P.writeStrings []).write P (some v)
  | registerClientId | asyncGet | asyncPut | asyncGetBatch | asyncPutBatch | put | putBatch =>
      fun v => (noSuccess name).write P v

/-- `pancake_thrift_…_presult::read`, and whether there is a result. -/
def readResult (m : Method) : StreamReader E B (Option m.Result) :=
  let name := "pancake_thrift_".toList ++ m.name ++ "_presult".toList
  match m with
  | getClientId => (success name .i64 P.readI64 P.writeI64 0).read P
  | get => (success name .string P.readString P.writeString []).read P
  | getBatch => (success name .list P.readStrings P.writeStrings []).read P
  | registerClientId | asyncGet | asyncPut | asyncGetBatch | asyncPutBatch | put | putBatch =>
      some <$> (noSuccess name).read P

end Method

/-! ## The client -/

section Client

variable {E B : Type} (P : TProtocol E B) (X : TApplicationExceptions E B)

/-- A message: its head, what it carries, and its end. -/
def message (name : Str) (type : TMessageType) (seqid : Int) (body : List B) : List B :=
  P.writeMessageBegin name type seqid ++ (body ++ P.writeMessageEnd)

/-- `send_…` -/
def send (m : Method) (args : m.Args) : List B :=
  message P m.name (if m.oneway then .oneway else .call) 0 ((m.pargs P).write P args)

/-- What a call throws: type and message of a `TApplicationException`. -/
abbrev AppException := Int × Str

/-- A message that was not expected is passed over. -/
def passMessage : StreamReader E B Unit := do
  P.skip .struct
  P.readMessageEnd

/-- The message a missing result is reported with. -/
def missingResult (m : Method) : AppException := (5, m.name ++ " failed: unknown result".toList)

/-- `recv_…` -/
def recv (m : Method) : StreamReader E B (Except AppException m.Result) := do
  let (fname, mtype, _) ← P.readMessageBegin
  if mtype = .exception then do
    let x ← X.read
    P.readMessageEnd
    return .error x
  else do
    if mtype ≠ .reply then passMessage P else pure ()
    if fname ≠ m.name then passMessage P else pure ()
    let result ← m.readResult P
    P.readMessageEnd
    match result with
    | some r => return .ok r
    | none => return .error (missingResult m)

/-- A call and how it ended. -/
abbrev Outcome := (m : Method) × Except AppException m.Result

/-- The answers to calls made one after another. -/
def recvAll : List Method → StreamReader E B (List Outcome)
  | [] => pure []
  | m :: ms => do
      let r ← recv P X m
      let rest ← recvAll ms
      return ⟨m, r⟩ :: rest

end Client

/-! ## The server -/

/-- A handler: what a method returns or throws, and the handler's new state. -/
abbrev Service (St : Type) := (m : Method) → m.Args → St → Except Str m.Result × St

section Server

variable {E B St : Type} (P : TProtocol E B) (X : TApplicationExceptions E B)
  (handler : Service St)

/-- A message with an exception. -/
def exceptionMessage (fname : Str) (seqid : Int) (x : AppException) : List B :=
  message P fname .exception seqid (X.write x.1 x.2)

/-- `process_…`: what goes back, and the handler's state. -/
def process (m : Method) (seqid : Int) (s : St) : StreamReader E B (List B × St) := do
  let args ← (m.args P).read P
  P.readMessageEnd
  match handler m args s with
  | (.ok result, s) =>
      return (if m.oneway then [] else message P m.name .reply seqid (m.writeResult P result), s)
  | (.error what, s) =>
      return (if m.oneway then [] else exceptionMessage P X m.name seqid (0, what), s)

/-- What is thrown for a name the processor does not know. -/
def unknownMethod (fname : Str) : AppException :=
  (1, "Invalid method name: '".toList ++ fname ++ "'".toList)

/-- `dispatchCall` -/
def dispatchCall (fname : Str) (seqid : Int) (s : St) : StreamReader E B (List B × St) :=
  match Method.find fname with
  | none => do
      P.skip .struct
      P.readMessageEnd
      return (exceptionMessage P X fname seqid (unknownMethod fname), s)
  | some m => process P X handler m seqid s

/-- `TDispatchProcessor::process` of the library, with the `dispatchCall` it
calls: what goes back and the handler's state, or nothing where it returns
false and the connection is closed. -/
abbrev TDispatchProcessor (E B St : Type) :=
  (Str → Int → St → StreamReader E B (List B × St)) → St → StreamReader E B (Option (List B × St))

variable (library : TDispatchProcessor E B St)

/-- Messages one after another, until the library returns false. -/
def serve : Nat → St → StreamReader E B (List B × St)
  | 0, s => pure ([], s)
  | n + 1, s => do
      match ← library (dispatchCall P X handler) s with
      | none => return ([], s)
      | some (out, s) => do
          let (rest, s) ← serve n s
          return (out ++ rest, s)

variable {P} {library}

/-- What the library does with the head of a call or of a oneway message: it
reads it, and calls `dispatchCall`. -/
def TDispatchProcessor.Dispatches (P : TProtocol E B) (library : TDispatchProcessor E B St) :
    Prop :=
  ∀ (dispatch : Str → Int → St → StreamReader E B (List B × St)) (s : St) (name : Str)
    (type : TMessageType) (seqid : Int) (rest : List B) (r : List B × St),
    type = .call ∨ type = .oneway → Short name → IsInt 32 seqid →
    Reads (dispatch name seqid s) rest r →
    Reads (library dispatch s) (P.writeMessageBegin name type seqid ++ rest) (some r)

variable (P) in
/-- A `process` that does both. -/
def refusingProcess : TDispatchProcessor E B St := fun dispatch s => do
  let (name, type, seqid) ← P.readMessageBegin
  if type = .call ∨ type = .oneway then some <$> dispatch name seqid s else return none

theorem refusingProcess_dispatches (hP : P.Lawful) :
    (refusingProcess P : TDispatchProcessor E B St).Dispatches P := by
  intro dispatch s name type seqid rest r htype hname hseqid h
  refine (hP.message hname hseqid).bind ?_
  simp only [if_pos htype]
  exact h.map some

end Server

/-! ## What can be sent -/

namespace Method

/-- Numbers of the type declared, and strings and lists that can be written. -/
def Fits : (m : Method) → m.Args → Prop
  | getClientId => fun _ => True
  | registerClientId => fun (a : RegisterClientIdArgs) => IsInt 32 a.blockId ∧ IsInt 64 a.clientId
  | asyncGet => fun (a : AsyncGetArgs) => a.seqId.Fits ∧ Short a.key
  | asyncPut => fun (a : AsyncPutArgs) => a.seqId.Fits ∧ Short a.key ∧ Short a.value
  | asyncGetBatch => fun (a : AsyncGetBatchArgs) => a.seqId.Fits ∧ ShortAll a.keys
  | asyncPutBatch => fun (a : AsyncPutBatchArgs) =>
      a.seqId.Fits ∧ ShortAll a.keys ∧ ShortAll a.values
  | get => fun (a : GetArgs) => Short a.key
  | put => fun (a : PutArgs) => Short a.key ∧ Short a.value
  | getBatch => fun (a : GetBatchArgs) => ShortAll a.keys
  | putBatch => fun (a : PutBatchArgs) => ShortAll a.keys ∧ ShortAll a.values

def ResultFits : (m : Method) → m.Result → Prop
  | getClientId => fun (v : Int) => IsInt 64 v
  | get => fun (v : Str) => Short v
  | getBatch => fun (v : List Str) => ShortAll v
  | registerClientId | asyncGet | asyncPut | asyncGetBatch | asyncPutBatch | put | putBatch =>
      fun _ => True

variable {E B : Type} {P : TProtocol E B}

theorem wellFormed (m : Method) (name : Str) : (m.struct P name).WellFormed := by
  cases m with
  | getClientId => exact ⟨List.forall_mem_nil _, .nil, fun _ _ _ => rfl⟩
  | registerClientId =>
      exact TStruct.wellFormed_two rfl (TField.sound_i32 (by decide) fun _ _ => rfl)
        (TField.sound_i64 (by decide) fun _ _ => rfl)
        ⟨show (1 : Int) ≠ 2 by decide, fun _ _ => rfl, fun _ _ => rfl⟩
        (by rintro ⟨b, c⟩ ⟨b', c'⟩ rfl rfl; rfl)
  | asyncGet =>
      exact TStruct.wellFormed_two rfl (TField.sound_struct (by decide) fun _ _ => rfl)
        (TField.sound_string (by decide) fun _ _ => rfl)
        ⟨show (1 : Int) ≠ 2 by decide, fun _ _ => rfl, fun _ _ => rfl⟩
        (by rintro ⟨q, k⟩ ⟨q', k'⟩ rfl rfl; rfl)
  | asyncPut =>
      exact TStruct.wellFormed_three rfl (TField.sound_struct (by decide) fun _ _ => rfl)
        (TField.sound_string (by decide) fun _ _ => rfl)
        (TField.sound_string (by decide) fun _ _ => rfl)
        ⟨show (1 : Int) ≠ 2 by decide, fun _ _ => rfl, fun _ _ => rfl⟩
        ⟨show (1 : Int) ≠ 3 by decide, fun _ _ => rfl, fun _ _ => rfl⟩
        ⟨show (2 : Int) ≠ 3 by decide, fun _ _ => rfl, fun _ _ => rfl⟩
        (by rintro ⟨q, k, v⟩ ⟨q', k', v'⟩ rfl rfl rfl; rfl)
  | asyncGetBatch =>
      exact TStruct.wellFormed_two rfl (TField.sound_struct (by decide) fun _ _ => rfl)
        (TField.sound_strings (by decide) fun _ _ => rfl)
        ⟨show (1 : Int) ≠ 2 by decide, fun _ _ => rfl, fun _ _ => rfl⟩
        (by rintro ⟨q, k⟩ ⟨q', k'⟩ rfl rfl; rfl)
  | asyncPutBatch =>
      exact TStruct.wellFormed_three rfl (TField.sound_struct (by decide) fun _ _ => rfl)
        (TField.sound_strings (by decide) fun _ _ => rfl)
        (TField.sound_strings (by decide) fun _ _ => rfl)
        ⟨show (1 : Int) ≠ 2 by decide, fun _ _ => rfl, fun _ _ => rfl⟩
        ⟨show (1 : Int) ≠ 3 by decide, fun _ _ => rfl, fun _ _ => rfl⟩
        ⟨show (2 : Int) ≠ 3 by decide, fun _ _ => rfl, fun _ _ => rfl⟩
        (by rintro ⟨q, k, v⟩ ⟨q', k', v'⟩ rfl rfl rfl; rfl)
  | get =>
      exact TStruct.wellFormed_one rfl (TField.sound_string (by decide) fun _ _ => rfl)
        (by rintro ⟨k⟩ ⟨k'⟩ rfl; rfl)
  | put =>
      exact TStruct.wellFormed_two rfl (TField.sound_string (by decide) fun _ _ => rfl)
        (TField.sound_string (by decide) fun _ _ => rfl)
        ⟨show (1 : Int) ≠ 2 by decide, fun _ _ => rfl, fun _ _ => rfl⟩
        (by rintro ⟨k, v⟩ ⟨k', v'⟩ rfl rfl; rfl)
  | getBatch =>
      exact TStruct.wellFormed_one rfl (TField.sound_strings (by decide) fun _ _ => rfl)
        (by rintro ⟨k⟩ ⟨k'⟩ rfl; rfl)
  | putBatch =>
      exact TStruct.wellFormed_two rfl (TField.sound_strings (by decide) fun _ _ => rfl)
        (TField.sound_strings (by decide) fun _ _ => rfl)
        ⟨show (1 : Int) ≠ 2 by decide, fun _ _ => rfl, fun _ _ => rfl⟩
        (by rintro ⟨k, v⟩ ⟨k', v'⟩ rfl rfl; rfl)

theorem writable (hP : P.Lawful) {m : Method} {a : m.Args} (h : m.Fits a) (name : Str) :
    (m.struct P name).Writable a := by
  cases m with
  | getClientId => exact List.forall_mem_nil _
  | registerClientId => exact TStruct.writable_two rfl (hP.i32 h.1) (hP.i64 h.2)
  | asyncGet => exact TStruct.writable_two rfl (SequenceId.reads_write hP h.1) (hP.string h.2)
  | asyncPut =>
      exact TStruct.writable_three rfl (SequenceId.reads_write hP h.1) (hP.string h.2.1)
        (hP.string h.2.2)
  | asyncGetBatch =>
      exact TStruct.writable_two rfl (SequenceId.reads_write hP h.1) (hP.strings h.2.1 h.2.2)
  | asyncPutBatch =>
      exact TStruct.writable_three rfl (SequenceId.reads_write hP h.1)
        (hP.strings h.2.1.1 h.2.1.2) (hP.strings h.2.2.1 h.2.2.2)
  | get => exact TStruct.writable_one rfl (hP.string h)
  | put => exact TStruct.writable_two rfl (hP.string h.1) (hP.string h.2)
  | getBatch => exact TStruct.writable_one rfl (hP.strings h.1 h.2)
  | putBatch => exact TStruct.writable_two rfl (hP.strings h.1.1 h.1.2) (hP.strings h.2.1 h.2.2)

/-- The name of a struct is not looked at. -/
theorem read_struct (m : Method) (name name' : Str) :
    (m.struct P name).read P = (m.struct P name').read P := by
  cases m <;> rfl

/-- **The arguments**: what the client writes the server reads. -/
theorem reads_args (hP : P.Lawful) {m : Method} {a : m.Args} (h : m.Fits a) :
    Reads ((m.args P).read P) ((m.pargs P).write P a) a := by
  rw [args, read_struct]
  exact TStruct.reads_write hP (wellFormed m _) (writable hP h _)

theorem reads_success (hP : P.Lawful) {V : Type} {ttype : TType} {read : StreamReader E B V}
    {write : V → List B} (initial : V) (hstop : ttype ≠ .stop) {v : V}
    (h : Reads read (write v) v) (name name' : Str) :
    Reads ((success name ttype read write initial).read P)
      ((success name' ttype read write initial).write P (some v)) (some v) := by
  have hwf : (success name' ttype read write initial).WellFormed :=
    TStruct.wellFormed_one rfl (TField.sound_flagged (by decide) hstop fun _ _ => rfl)
      fun _ _ hget => hget
  exact TStruct.reads_write hP hwf (TStruct.writable_one rfl (h.map some))

theorem reads_noSuccess (hP : P.Lawful) (name name' : Str) :
    Reads (some <$> (noSuccess name).read P) ((noSuccess name').write P ()) (some ()) := by
  have hwf : (noSuccess name' : TStruct E B Unit).WellFormed :=
    ⟨List.forall_mem_nil _, .nil, fun _ _ _ => rfl⟩
  exact (TStruct.reads_write hP hwf (List.forall_mem_nil _)).map some

/-- **The result**: what the server writes the client reads. -/
theorem reads_result (hP : P.Lawful) {m : Method} {r : m.Result} (h : m.ResultFits r) :
    Reads (m.readResult P) (m.writeResult P r) (some r) := by
  cases m with
  | getClientId => exact reads_success hP 0 (by decide) (hP.i64 h) _ _
  | get => exact reads_success hP [] (by decide) (hP.string h) _ _
  | getBatch => exact reads_success hP [] (by decide) (hP.strings h.1 h.2) _ _
  | registerClientId | asyncGet | asyncPut | asyncGetBatch | asyncPutBatch | put | putBatch =>
      exact reads_noSuccess hP _ _

theorem find_name (m : Method) : find m.name = some m := by
  cases m <;> decide

theorem short_name (m : Method) : Short m.name := by
  cases m <;> decide

end Method

/-! ## What the server makes of a stream -/

/-- What clients send: a call, or a call under a name that no method has. -/
inductive Sent (B : Type) where
  | call (m : Method) (args : m.Args)
  | unknown (fname : Str) (type : TMessageType) (seqid : Int) (struct : List B)

/-- What goes back to a client. -/
inductive Answer where
  | returned (m : Method) (result : m.Result)
  | threw (m : Method) (what : Str)
  | unknownMethod (fname : Str) (seqid : Int)

section Stream

variable {E B St : Type} (P : TProtocol E B) (X : TApplicationExceptions E B)
  (handler : Service St)

namespace Sent

/-- On the wire. -/
def bytes : Sent B → List B
  | call m args => send P m args
  | unknown fname type seqid struct => message P fname type seqid struct

/-- A call's arguments can be sent; and the struct of a call under an unknown
name, oneway or not, can be passed over, and its name sent back. -/
def Fits : Sent B → Prop
  | call m args => m.Fits args
  | unknown fname type seqid struct =>
      (type = .call ∨ type = .oneway) ∧ Method.find fname = none ∧
        Short (Pancake.unknownMethod fname).2 ∧ IsInt 32 seqid ∧
        Reads (P.skip .struct) struct ()

end Sent

namespace Answer

/-- On the wire. The server answers a call under the sequence number 0 it was
sent with. -/
def bytes : Answer → List B
  | returned m result => message P m.name .reply 0 (m.writeResult P result)
  | threw m what => exceptionMessage P X m.name 0 (0, what)
  | unknownMethod fname seqid => exceptionMessage P X fname seqid (Pancake.unknownMethod fname)

/-- The answer can be sent. -/
def Fits : Answer → Prop
  | returned m result => m.ResultFits result
  | threw _ what => Short what
  | unknownMethod fname seqid => Short (Pancake.unknownMethod fname).2 ∧ IsInt 32 seqid

end Answer

/-- What a handler makes of a call, as an answer. -/
def Answer.of (m : Method) : Except Str m.Result → Answer
  | .ok result => .returned m result
  | .error what => .threw m what

/-- What the server does, put without a wire: the handler is given the calls,
one after another, and what it makes of those with an answer goes back. -/
def answers : List (Sent B) → St → List Answer × St
  | [], s => ([], s)
  | .call m args :: rest, s =>
      let r := handler m args s
      let rest := answers rest r.2
      (if m.oneway then rest.1 else .of m r.1 :: rest.1, rest.2)
  | .unknown fname _ seqid _ :: rest, s =>
      let rest := answers rest s
      (.unknownMethod fname seqid :: rest.1, rest.2)

variable {P} {X} {handler} {library : TDispatchProcessor E B St}

theorem reads_message (hP : P.Lawful) {name : Str} {type : TMessageType} {seqid : Int}
    (hname : Short name) (hseqid : IsInt 32 seqid) {A : Type} {body : List B} {a : A}
    {rest : Str × TMessageType × Int → StreamReader E B A}
    (h : Reads (rest (name, type, seqid)) (body ++ P.writeMessageEnd) a) :
    Reads (P.readMessageBegin >>= rest) (message P name type seqid body) a :=
  (hP.message hname hseqid).bind h

theorem short_of_unknownMethod {fname : Str} (h : Short (unknownMethod fname).2) :
    Short fname := by
  simp only [Short, unknownMethod, List.length_append] at h ⊢
  omega

variable (X handler) in
/-- **One message.** -/
theorem Sent.reads (hP : P.Lawful) (hL : library.Dispatches P) {item : Sent B} (h : item.Fits P)
    (s : St) :
    Reads (library (dispatchCall P X handler) s) (item.bytes P)
      (some ((answers handler [item] s).1.flatMap (Answer.bytes P X),
        (answers handler [item] s).2)) := by
  cases item with
  | call m args =>
      have htype : (if m.oneway then TMessageType.oneway else .call) = .call ∨
          (if m.oneway then TMessageType.oneway else .call) = .oneway := by
        cases m.oneway <;> simp
      refine hL _ s m.name _ 0 _ _ htype m.short_name (by decide) ?_
      rw [dispatchCall, m.find_name]
      refine (Method.reads_args hP h).bind (hP.messageEnd.bind_nil ?_)
      rcases hr : handler m args s with ⟨r, s'⟩
      cases r with
      | ok result =>
          cases ho : m.oneway <;> simp [answers, hr, ho, Answer.of, Answer.bytes, Reads.pure]
      | error what =>
          cases ho : m.oneway <;> simp [answers, hr, ho, Answer.of, Answer.bytes, Reads.pure]
  | unknown fname type seqid struct =>
      obtain ⟨htype, hfind, hshort, hseqid, hskip⟩ := h
      refine hL _ s fname type seqid _ _ htype (short_of_unknownMethod hshort) hseqid ?_
      rw [dispatchCall, hfind]
      refine hskip.bind (hP.messageEnd.bind_nil ?_)
      simp [answers, Answer.bytes, Reads.pure]

theorem answers_cons (item : Sent B) (items : List (Sent B)) (s : St) :
    answers handler (item :: items) s =
      ((answers handler [item] s).1 ++ (answers handler items (answers handler [item] s).2).1,
        (answers handler items (answers handler [item] s).2).2) := by
  cases item with
  | call m args =>
      simp only [answers]
      split <;> rfl
  | unknown fname type seqid struct => rfl

variable (X handler) in
/-- The messages, and what the server makes of the rest of its stream. -/
theorem reads_serve (hP : P.Lawful) (hL : library.Dispatches P) {items : List (Sent B)}
    (h : ∀ item ∈ items, item.Fits P) {k : Nat} {more : List B} {r : List B × St} : ∀ {s : St},
    Reads (serve P X handler library k (answers handler items s).2) more r →
    Reads (serve P X handler library (items.length + k) s)
      (items.flatMap (Sent.bytes P) ++ more)
      ((answers handler items s).1.flatMap (Answer.bytes P X) ++ r.1, r.2) := by
  induction items with
  | nil =>
      intro s hrest
      rw [List.length_nil, Nat.zero_add]
      exact hrest
  | cons item items ih =>
      intro s hrest
      have hitem := Sent.reads X handler hP hL (h item List.mem_cons_self) s
      rw [answers_cons] at hrest
      have hothers := ih (fun i hi => h i (List.mem_cons_of_mem item hi)) hrest
      rw [List.length_cons, Nat.add_right_comm, List.flatMap_cons, answers_cons,
        List.flatMap_append, List.append_assoc, List.append_assoc]
      exact hitem.bind (hothers.bind_nil (.pure _))

/-- A handler that counts calls, returns the key it was asked for, and refuses
puts. -/
def echo : Service Nat
  | .getClientId, _, n => (.ok (n : Int), n + 1)
  | .get, args, n => (.ok (GetArgs.key args), n + 1)
  | .getBatch, args, n => (.ok (GetBatchArgs.keys args), n + 1)
  | .put, _, n => (.error "read only".toList, n + 1)
  | .registerClientId, _, n | .asyncGet, _, n | .asyncPut, _, n | .asyncGetBatch, _, n
  | .asyncPutBatch, _, n | .putBatch, _, n => (.ok (), n + 1)

/-- What a client is told. -/
def Answer.outcome (m : Method) : Except Str m.Result → Except AppException m.Result
  | .ok result => .ok result
  | .error what => .error (0, what)

/-- **One answer.** -/
theorem Answer.reads (hP : P.Lawful) (hX : X.Lawful) {m : Method} {r : Except Str m.Result}
    (h : (Answer.of m r).Fits) :
    Reads (recv P X m) ((Answer.of m r).bytes P X) (Answer.outcome m r) := by
  cases r with
  | ok result =>
      refine reads_message hP m.short_name (by decide) ?_
      simp only [if_neg (show TMessageType.reply ≠ .exception by decide), ne_eq, not_true,
        if_false]
      exact (Method.reads_result hP h).bind (hP.messageEnd.bind_nil (.pure _))
  | error what =>
      refine reads_message hP m.short_name (by decide) ?_
      simp only [if_true]
      exact (hX (by decide) h).bind (hP.messageEnd.bind_nil (.pure _))

end Stream

/-! ## Calls over the wire -/

/-- A method and its arguments. -/
abbrev MethodCall := (m : Method) × m.Args

/-- An outcome that can be sent. -/
def Outcome.Fits : Outcome → Prop
  | ⟨m, .ok result⟩ => m.ResultFits result
  | ⟨_, .error x⟩ => Short x.2

section Transparent

variable {E B St : Type} {P : TProtocol E B} {X : TApplicationExceptions E B}
  {handler : Service St} {library : TDispatchProcessor E B St}

/-- Calling the handler directly: the outcomes of the calls that have one. -/
def outcomes (handler : Service St) : List MethodCall → St → List Outcome × St
  | [], s => ([], s)
  | ⟨m, args⟩ :: rest, s =>
      let r := handler m args s
      let rest := outcomes handler rest r.2
      (if m.oneway then rest.1 else ⟨m, Answer.outcome m r.1⟩ :: rest.1, rest.2)

/-- The methods a client reads the answers of. -/
def awaited (calls : List MethodCall) : List Method :=
  (calls.map Sigma.fst).filter fun m => !m.oneway

theorem Answer.fits_of_outcome {m : Method} {r : Except Str m.Result}
    (h : Outcome.Fits ⟨m, Answer.outcome m r⟩) : (Answer.of m r).Fits := by
  cases r <;> exact h

/-- The answers are those of the outcomes, and read as these. -/
theorem answers_outcomes (hP : P.Lawful) (hX : X.Lawful) {calls : List MethodCall} {s : St}
    (h : ∀ o ∈ (outcomes handler calls s).1, Outcome.Fits o) :
    (answers handler (calls.map fun c => (.call c.1 c.2 : Sent B)) s).2
        = (outcomes handler calls s).2 ∧
      Reads (recvAll P X (awaited calls))
        ((answers handler (calls.map fun c => (.call c.1 c.2 : Sent B)) s).1.flatMap
          (Answer.bytes P X)) (outcomes handler calls s).1 := by
  induction calls generalizing s with
  | nil => exact ⟨rfl, .pure _⟩
  | cons c calls ih =>
      obtain ⟨m, args⟩ := c
      simp only [List.map_cons, answers, outcomes, awaited, List.filter_cons] at h ih ⊢
      cases ho : m.oneway with
      | true =>
          simp only [ho, if_true, Bool.not_true, Bool.false_eq_true, if_false] at h ⊢
          exact ih h
      | false =>
          simp only [ho, Bool.not_false, Bool.false_eq_true, if_true, if_false,
            List.forall_mem_cons] at h ⊢
          obtain ⟨hstate, hrest⟩ := ih h.2
          refine ⟨hstate, ?_⟩
          rw [List.flatMap_cons]
          exact (Answer.reads hP hX (Answer.fits_of_outcome h.1)).bind
            (hrest.bind_nil (.pure _))

/-- **A call over the wire is a call of the handler.** A client sends calls one
after another; the server answers them and leaves the handler as direct calls
would; and the client, reading the answers to those calls that have one, gets
what the handler returned or, as an exception, what it threw. -/
theorem rpc_transparent (hP : P.Lawful) (hX : X.Lawful) (hL : library.Dispatches P)
    {calls : List MethodCall} {s : St} (hcalls : ∀ c ∈ calls, c.1.Fits c.2)
    (houtcomes : ∀ o ∈ (outcomes handler calls s).1, Outcome.Fits o) :
    ∃ out, Reads (serve P X handler library calls.length s)
        (calls.flatMap fun c => send P c.1 c.2) (out, (outcomes handler calls s).2) ∧
      Reads (recvAll P X (awaited calls)) out (outcomes handler calls s).1 := by
  have hfits : ∀ item ∈ calls.map fun c => (.call c.1 c.2 : Sent B), item.Fits P := by
    intro item hitem
    obtain ⟨c, hc, rfl⟩ := List.mem_map.mp hitem
    exact hcalls c hc
  have hserve := reads_serve X handler (k := 0) hP hL hfits (s := s)
    (.pure ([], _))
  obtain ⟨hstate, hrecv⟩ := answers_outcomes (P := P) hP hX houtcomes
  rw [List.append_nil, List.append_nil, List.length_map, List.flatMap_map, hstate] at hserve
  exact ⟨_, hserve, hrecv⟩

/-- A put without an answer, a get, and a put that is refused. -/
def echoCalls : List MethodCall :=
  [⟨.asyncPut, ⟨⟨1, 0, 0⟩, ['k'], ['v']⟩⟩, ⟨.get, ⟨['k']⟩⟩, ⟨.put, ⟨['k'], ['v']⟩⟩]

theorem rpc_transparent_echo : ∃ out,
    Reads (serve binaryProtocol binaryProtocol.applicationExceptions echo
        (refusingProcess binaryProtocol) 3 0)
      (echoCalls.flatMap fun c => send binaryProtocol c.1 c.2) (out, 3) ∧
    Reads (recvAll binaryProtocol binaryProtocol.applicationExceptions [.get, .put]) out
      [⟨.get, .ok ['k']⟩, ⟨.put, .error (0, "read only".toList)⟩] := by
  have hcalls : ∀ c ∈ echoCalls, c.1.Fits c.2 := by
    simp only [echoCalls, List.forall_mem_cons]
    refine ⟨⟨⟨by decide, by decide, by decide⟩, by decide, by decide⟩, ?_, ?_,
      List.forall_mem_nil _⟩
    · show Short _
      decide
    · show Short _ ∧ Short _
      decide
  have houtcomes : ∀ o ∈ (outcomes echo echoCalls 0).1, Outcome.Fits o := by
    show ∀ o ∈ [_, _], _
    simp only [List.forall_mem_cons]
    refine ⟨?_, ?_, List.forall_mem_nil _⟩
    · show Short _
      decide
    · show Short _
      decide
  obtain ⟨out, hserve, hrecv⟩ := rpc_transparent binaryProtocol_lawful
    binaryProtocol_lawful.applicationExceptions
    (refusingProcess_dispatches binaryProtocol_lawful) hcalls houtcomes
  exact ⟨out, hserve, hrecv⟩

end Transparent

end Pancake
