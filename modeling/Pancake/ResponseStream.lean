import Pancake.ClientConnections
import Pancake.Rpc

/-!
# The responses on the wire

`pancake_thrift_responseClient` writes a response on the connection of the
client it is for, and the client's `command_response_reader` reads it. The
reader asks for no method name, and takes a response only if it came with a
sequence id and a result: it has no return for one that did not.
-/

namespace Pancake

open Wire

variable {E B : Type} (P : TProtocol E B) (X : TApplicationExceptions E B)

/-- `GET`, `PUT`, `GET_BATCH` and `PUT_BATCH`, as they are defined. -/
def OpCode.code : OpCode → Int
  | .get => 0
  | .put => 1
  | .getBatch => 2
  | .putBatch => 3

/-- `pancake_thrift_response_async_response_args`, each member with its
`isset`. -/
structure AsyncResponseArgs where
  seqId : Option SequenceId := none
  opCode : Option Int := none
  result : Option (List Str) := none

def AsyncResponseArgs.struct (name : Str) : TStruct E B AsyncResponseArgs where
  name := name
  fields := [
    .flagged "seq_id".toList 1 .struct (SequenceId.read P) (SequenceId.write P) .initial seqId
      fun v s => { s with seqId := v },
    .flagged "op_code".toList 2 .i32 P.readI32 P.writeI32 0 opCode
      fun v s => { s with opCode := v },
    .flagged "result".toList 3 .list P.readStrings P.writeStrings [] result
      fun v s => { s with result := v }]
  initial := {}

/-- `send_async_response` -/
def sendAsyncResponse (r : Response) : List B :=
  message P "async_response".toList .oneway 0
    ((AsyncResponseArgs.struct P "pancake_thrift_response_async_response_pargs".toList).write P
      ⟨some r.seqId, some r.opCode.code, some r.results⟩)

/-- `recv_response`: the sequence number and the result, `none` where the
function ends without a return, or the exception that was sent. -/
def recvResponse : StreamReader E B (Except AppException (Option (Int × List Str))) := do
  let (_, mtype, _) ← P.readMessageBegin
  if mtype = .exception then do
    let x ← X.read
    P.readMessageEnd
    return .error x
  else do
    let args ←
      (AsyncResponseArgs.struct P "pancake_thrift_response_async_response_args".toList).read P
    P.readMessageEnd
    match args.seqId, args.result with
    | some seqId, some result => return .ok (some (seqId.clientSeqNo, result))
    | _, _ => return .ok none

/-- A response that can be sent. -/
def Response.Fits (r : Response) : Prop := r.seqId.Fits ∧ ShortAll r.results

/-- What the reader makes of a response. -/
def Response.received (r : Response) : Except AppException (Option (Int × List Str)) :=
  .ok (some (r.seqId.clientSeqNo, r.results))

variable {P} {X}

theorem AsyncResponseArgs.wellFormed (name : Str) : (struct P name).WellFormed :=
  TStruct.wellFormed_three rfl (TField.sound_flagged (by decide) (by decide) fun _ _ => rfl)
    (TField.sound_flagged (by decide) (by decide) fun _ _ => rfl)
    (TField.sound_flagged (by decide) (by decide) fun _ _ => rfl)
    ⟨show (1 : Int) ≠ 2 by decide, fun _ _ => rfl, fun _ _ => rfl⟩
    ⟨show (1 : Int) ≠ 3 by decide, fun _ _ => rfl, fun _ _ => rfl⟩
    ⟨show (2 : Int) ≠ 3 by decide, fun _ _ => rfl, fun _ _ => rfl⟩
    (by rintro ⟨q, o, l⟩ ⟨q', o', l'⟩ rfl rfl rfl; rfl)

/-- The arguments are read under any name. -/
theorem AsyncResponseArgs.reads_write (hP : P.Lawful) {r : Response} (h : r.Fits)
    (name name' : Str) :
    Reads ((struct P name).read P)
      ((struct P name').write P ⟨some r.seqId, some r.opCode.code, some r.results⟩)
      ⟨some r.seqId, some r.opCode.code, some r.results⟩ := by
  have hcode : IsInt 32 r.opCode.code := by
    cases r.opCode <;> decide
  have hwritable : (struct P name').Writable
      ⟨some r.seqId, some r.opCode.code, some r.results⟩ :=
    TStruct.writable_three rfl ((SequenceId.reads_write hP h.1).map some)
      ((hP.i32 hcode).map some) ((hP.strings h.2.1 h.2.2).map some)
  exact TStruct.reads_write hP (wellFormed name') hwritable

/-- **One response.** -/
theorem Response.reads (hP : P.Lawful) {r : Response} (h : r.Fits) :
    Reads (recvResponse P X) (sendAsyncResponse P r) r.received := by
  have hargs := AsyncResponseArgs.reads_write hP h
  rw [recvResponse, sendAsyncResponse]
  generalize "pancake_thrift_response_async_response_pargs".toList = pargs at *
  generalize "pancake_thrift_response_async_response_args".toList = args at *
  refine reads_message hP (by decide) (by decide) ?_
  simp only [reduceCtorEq, if_false]
  exact (hargs args pargs).bind (hP.messageEnd.bind_nil (.pure _))

/-- **The client reads what is for it**, and nothing else: it gets the answers
to the requests under the ids it registered, in the order the responder gave
them in, each with the sequence number of its request. -/
theorem ownResponses_read (hP : P.Lawful) {gen : BitVec 64} {es : List ConnectionEvent}
    {s : Connections} (hrun : Run Connections.Steps (.start gen) es s)
    (hhonest : Connections.Honest es) (hcount : (Connections.drawn es).length ≤ 2 ^ 64)
    (hfits : ∀ r, .respond r ∈ es → r.Fits) (c : Nat) :
    Reads (readMany (recvResponse P X) (s.inboxes c).length)
      ((s.inboxes c).flatMap (sendAsyncResponse P))
      ((Connections.responsesWhere (Connections.Belongs · c ·) [] es).map Response.received) := by
  rw [Connections.inboxes_of_honest hrun hhonest hcount]
  exact Reads.many fun r hr =>
    Response.reads hP (hfits r (Connections.mem_of_mem_responsesWhere hr))

/-- Two clients read one response each. -/
theorem ownResponses_read_two : ∃ s, Run Connections.Steps (.start 5) Connections.twoConnections s ∧
    Reads (readMany (recvResponse binaryProtocol binaryProtocol.applicationExceptions) 1)
      ((s.inboxes 0).flatMap (sendAsyncResponse binaryProtocol)) [.ok (some (0, [['a']]))] ∧
    Reads (readMany (recvResponse binaryProtocol binaryProtocol.applicationExceptions) 1)
      ((s.inboxes 1).flatMap (sendAsyncResponse binaryProtocol)) [.ok (some (0, [['b']]))] := by
  obtain ⟨s, hrun, h₀, h₁⟩ := Connections.inboxes_of_honest_two
  have hfits : ∀ r, .respond r ∈ Connections.twoConnections → r.Fits := by
    intro r hr
    simp only [Connections.twoConnections, List.mem_cons, List.not_mem_nil, or_false,
      ConnectionEvent.respond.injEq, reduceCtorEq, false_or] at hr
    rcases hr with rfl | rfl | rfl <;> exact ⟨⟨by decide, by decide, by decide⟩, by decide⟩
  have h := ownResponses_read (X := binaryProtocol.applicationExceptions) binaryProtocol_lawful
    hrun (by decide) (by decide) hfits
  refine ⟨s, hrun, ?_, ?_⟩
  · have := h 0
    rw [h₀] at this ⊢
    exact this
  · have := h 1
    rw [h₁] at this ⊢
    exact this

end Pancake
