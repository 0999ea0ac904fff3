import Pancake.AsyncResponses
import Pancake.Lib.Runs

/-!
# Client connections

Every connection has a handler of its own. A client draws an id from the
generator all handlers share, and registers an id, its own or not, for its
connection; a response goes to the connection registered for the client id in
it. `thrift_response_client_map` keeps the first connection registered for an
id and forgets none: `remove_client` is called nowhere, and what is written on a
connection that is gone is lost in the exception that says so.

Nothing initialises the generator. Connections are numbered as they are
accepted.
-/

namespace Pancake

/-- What happens at the server: a connection is accepted or released, its
handler serves `get_client_id`, which returns `id`, or `register_client_id`, or
the responder thread answers a request. -/
inductive ConnectionEvent where
  | connect (c : Nat)
  | disconnect (c : Nat)
  | getClientId (c : Nat) (id : Int)
  | register (c : Nat) (blockId id : Int)
  | respond (r : Response)
  deriving DecidableEq

/-- The connection whose handler acts. -/
def ConnectionEvent.handler : ConnectionEvent → Option Nat
  | .disconnect c => some c
  | .getClientId c _ => some c
  | .register c _ _ => some c
  | _ => none

/-- The generator of client ids, the map from ids to connections, which
connections there have been and are, and what was written on each. -/
structure Connections where
  clientIdGen : BitVec 64
  clients : Int → Option Nat := fun _ => none
  accepted : Nat := 0
  live : Nat → Bool := fun _ => false
  inboxes : Nat → List Response := fun _ => []

namespace Connections

/-- `add_client`, which leaves an entry that is there as it is. -/
def addClient (s : Connections) (id : Int) (c : Nat) : Connections :=
  { s with clients := Function.update s.clients id ((s.clients id).or (some c)) }

/-- `client->async_response`, on a connection that may be gone. -/
def asyncResponse (s : Connections) (c : Nat) (r : Response) : Connections :=
  if s.live c then { s with inboxes := Function.update s.inboxes c (s.inboxes c ++ [r]) } else s

/-- `async_respond_client` -/
def asyncRespondClient (s : Connections) (r : Response) : Connections :=
  if r.seqId.clientId = -1 then s
  else match s.clients r.seqId.clientId with
    | some c => s.asyncResponse c r
    | none => s

def step (s : Connections) : ConnectionEvent → Option Connections
  | .connect c =>
      if c = s.accepted then
        some { s with accepted := s.accepted + 1, live := Function.update s.live c true }
      else none
  | .disconnect c =>
      if s.live c then some { s with live := Function.update s.live c false } else none
  | .getClientId c id =>
      if s.live c ∧ id = s.clientIdGen.toInt then
        some { s with clientIdGen := s.clientIdGen + 1 }
      else none
  | .register c _ id => if s.live c then some (s.addClient id c) else none
  | .respond r => some (s.asyncRespondClient r)

/-- The steps as a transition system. -/
def Steps (s : Connections) (e : ConnectionEvent) (s' : Connections) : Prop := s.step e = some s'

/-- The server before its first connection. -/
def start (gen : BitVec 64) : Connections := { clientIdGen := gen }

/-! ## What the events say -/

/-- The connection an id was first registered for. -/
def firstRegistrant (id : Int) (es : List ConnectionEvent) : Option Nat :=
  es.findSome? fun
    | .register c _ id' => if id' = id then some c else none
    | _ => none

/-- The ids drawn, with the connections they were drawn for. -/
def drawn (es : List ConnectionEvent) : List (Nat × Int) :=
  es.filterMap fun
    | .getClientId c id => some (c, id)
    | _ => none

/-- A response after `before` reaches connection `c`. -/
structure Reaches (before : List ConnectionEvent) (c : Nat) (r : Response) : Prop where
  id : r.seqId.clientId ≠ -1
  registered : firstRegistrant r.seqId.clientId before = some c
  connected : .connect c ∈ before
  live : .disconnect c ∉ before

/-- A response after `before` is to a client of connection `c`. -/
structure Belongs (before : List ConnectionEvent) (c : Nat) (r : Response) : Prop where
  id : r.seqId.clientId ≠ -1
  registered : ∃ blockId, .register c blockId r.seqId.clientId ∈ before
  live : .disconnect c ∉ before

/-- The responses among the events after `before` that satisfy `Q` where they
are sent. -/
def responsesWhere (Q : List ConnectionEvent → Response → Prop)
    [∀ before r, Decidable (Q before r)] :
    List ConnectionEvent → List ConnectionEvent → List Response
  | _, [] => []
  | before, .respond r :: es =>
      if Q before r then r :: responsesWhere Q (before ++ [.respond r]) es
      else responsesWhere Q (before ++ [.respond r]) es
  | before, e :: es => responsesWhere Q (before ++ [e]) es

/-- Clients register ids they have drawn. -/
def Honest (es : List ConnectionEvent) : Prop :=
  ∀ before c blockId id, before ++ [.register c blockId id] <+: es → .getClientId c id ∈ before

theorem Honest.of_prefix {es during : List ConnectionEvent} (h : Honest es) (hp : during <+: es) :
    Honest during :=
  fun _ _ _ _ hcut => h _ _ _ _ (hcut.trans hp)

/-- What a client has registered it has drawn. -/
theorem Honest.drew {es : List ConnectionEvent} (h : Honest es) {c : Nat} {blockId id : Int}
    (hmem : .register c blockId id ∈ es) : .getClientId c id ∈ es := by
  obtain ⟨before, after, rfl⟩ := List.append_of_mem hmem
  exact List.mem_append_left _ (h before c blockId id ⟨after, by simp⟩)

section Decidable

variable (before : List ConnectionEvent) (c : Nat) (r : Response)

instance : Decidable (Reaches before c r) :=
  decidable_of_iff (r.seqId.clientId ≠ -1 ∧ firstRegistrant r.seqId.clientId before = some c ∧
      .connect c ∈ before ∧ .disconnect c ∉ before)
    ⟨fun ⟨h₁, h₂, h₃, h₄⟩ => ⟨h₁, h₂, h₃, h₄⟩, fun h => ⟨h.1, h.2, h.3, h.4⟩⟩

/-- The event registers the id for the connection. -/
def registers (id : Int) : ConnectionEvent → Bool
  | .register c' _ id' => c' = c ∧ id' = id
  | _ => false

theorem exists_register_iff {id : Int} :
    (∃ blockId, .register c blockId id ∈ before) ↔ before.any (registers c id) := by
  rw [List.any_eq_true]
  constructor
  · rintro ⟨blockId, hmem⟩
    exact ⟨_, hmem, by simp [registers]⟩
  · rintro ⟨e, hmem, he⟩
    cases e with
    | register c' blockId id' =>
        obtain ⟨rfl, rfl⟩ : c' = c ∧ id' = id := by simpa [registers] using he
        exact ⟨blockId, hmem⟩
    | _ => simp [registers] at he

instance : Decidable (Belongs before c r) :=
  decidable_of_iff (r.seqId.clientId ≠ -1 ∧ before.any (registers c r.seqId.clientId) ∧
      .disconnect c ∉ before)
    ⟨fun ⟨h₁, h₂, h₃⟩ => ⟨h₁, (exists_register_iff before c).mpr h₂, h₃⟩,
      fun h => ⟨h.1, (exists_register_iff before c).mp h.2, h.3⟩⟩

/-- The `k`-th event is no registration, or one of an id drawn before. -/
def honestAt (es : List ConnectionEvent) (k : Nat) : Bool :=
  match es[k]? with
  | some (.register c _ id) => .getClientId c id ∈ es.take k
  | _ => true

theorem honest_iff {es : List ConnectionEvent} : Honest es ↔ ∀ k < es.length, honestAt es k := by
  constructor
  · intro h k hk
    rw [honestAt, List.getElem?_eq_getElem hk]
    split
    · rename_i c blockId id he
      refine decide_eq_true (h (es.take k) c blockId id ?_)
      rw [← Option.some.inj he, List.take_append_getElem hk]
      exact List.take_prefix _ _
    · rfl
  · rintro h before c blockId id ⟨after, rfl⟩
    have hk := h before.length (by simp)
    simpa [honestAt] using hk

instance : DecidablePred Honest := fun _ => decidable_of_iff _ honest_iff.symm

end Decidable

theorem responsesWhere_append {Q : List ConnectionEvent → Response → Prop}
    [∀ before r, Decidable (Q before r)] (es es' before : List ConnectionEvent) :
    responsesWhere Q before (es ++ es') =
      responsesWhere Q before es ++ responsesWhere Q (before ++ es) es' := by
  induction es generalizing before with
  | nil => simp [responsesWhere]
  | cons e es ih =>
      have hshift : before ++ e :: es = before ++ [e] ++ es := by simp
      rw [hshift]
      cases e with
      | respond r =>
          simp only [List.cons_append, responsesWhere]
          split
          · rw [ih, List.cons_append]
          · rw [ih]
      | _ =>
          simp only [List.cons_append, responsesWhere]
          rw [ih]

theorem mem_of_mem_responsesWhere {Q : List ConnectionEvent → Response → Prop}
    [∀ before r, Decidable (Q before r)] {es before : List ConnectionEvent} {r : Response}
    (h : r ∈ responsesWhere Q before es) : .respond r ∈ es := by
  induction es generalizing before with
  | nil => cases h
  | cons e es ih =>
      cases e with
      | respond r' =>
          simp only [responsesWhere] at h
          split at h
          · rcases List.mem_cons.mp h with rfl | h
            · exact List.mem_cons_self
            · exact List.mem_cons_of_mem _ (ih h)
          · exact List.mem_cons_of_mem _ (ih h)
      | _ => exact List.mem_cons_of_mem _ (ih h)

/-- Conditions that agree on every prefix pick the same responses. -/
theorem responsesWhere_congr {Q Q' : List ConnectionEvent → Response → Prop}
    [∀ before r, Decidable (Q before r)] [∀ before r, Decidable (Q' before r)]
    {es before : List ConnectionEvent}
    (h : ∀ during r, during ++ [.respond r] <+: es →
      (Q (before ++ during) r ↔ Q' (before ++ during) r)) :
    responsesWhere Q before es = responsesWhere Q' before es := by
  induction es generalizing before with
  | nil => rfl
  | cons e es ih =>
      have hrest : responsesWhere Q (before ++ [e]) es = responsesWhere Q' (before ++ [e]) es := by
        refine ih fun during r hpre => ?_
        have := h (e :: during) r (by
          rw [List.cons_append]
          exact List.cons_prefix_cons.mpr ⟨rfl, hpre⟩)
        simpa using this
      cases e with
      | respond r =>
          have hhead : Q before r ↔ Q' before r := by
            have := h [] r (by simp)
            simpa using this
          simp only [responsesWhere, hrest]
          exact if_congr hhead rfl rfl
      | _ => exact hrest

/-! ## What the server has recorded -/

theorem firstRegistrant_snoc (id : Int) (es : List ConnectionEvent) (e : ConnectionEvent) :
    firstRegistrant id (es ++ [e]) = (firstRegistrant id es).or (firstRegistrant id [e]) := by
  rw [firstRegistrant, List.findSome?_append]
  rfl

/-- The state is what the events make of the generator's first value. -/
structure Recorded (gen : BitVec 64) (es : List ConnectionEvent) (s : Connections) : Prop where
  clients : ∀ id, s.clients id = firstRegistrant id es
  accepted : ∀ c, .connect c ∈ es ↔ c < s.accepted
  acts : ∀ e ∈ es, ∀ c, e.handler = some c → c < s.accepted
  live : ∀ c, s.live c = true ↔ .connect c ∈ es ∧ .disconnect c ∉ es
  generator : s.clientIdGen = gen + BitVec.ofNat 64 (drawn es).length
  drawn : ∀ k x, (drawn es)[k]? = some x → x.2 = (gen + BitVec.ofNat 64 k).toInt
  inboxes : ∀ c, s.inboxes c = responsesWhere (Reaches · c ·) [] es

theorem recorded_start (gen : BitVec 64) : Recorded gen [] (start gen) where
  clients _ := rfl
  accepted c := by simp [start]
  acts e he := by simp at he
  live c := by simp [start]
  generator := by simp [start, Connections.drawn]
  drawn k x h := by simp [Connections.drawn] at h
  inboxes _ := rfl

variable {gen : BitVec 64} {es : List ConnectionEvent} {s s' : Connections} {e : ConnectionEvent}

theorem drawn_snoc (es : List ConnectionEvent) (e : ConnectionEvent) :
    drawn (es ++ [e]) = drawn es ++ drawn [e] := by
  rw [drawn, List.filterMap_append]
  rfl

theorem length_drawn_le (e : ConnectionEvent) : (drawn [e]).length ≤ 1 := by
  cases e <;> simp [drawn]

/-- What is left to show of an event. -/
theorem Recorded.snoc (h : Recorded gen es s)
    (hclients : ∀ id, s'.clients id = (s.clients id).or (firstRegistrant id [e]))
    (haccepted : ∀ c, c < s'.accepted ↔ c < s.accepted ∨ e = .connect c)
    (hacts : ∀ c, e.handler = some c → s.live c = true)
    (hlive : ∀ c, s'.live c = true ↔
      (s.live c = true ∨ e = .connect c) ∧ e ≠ .disconnect c)
    (hnew : ∀ c, e = .connect c → s.accepted ≤ c)
    (hgen : s'.clientIdGen = s.clientIdGen + BitVec.ofNat 64 (Connections.drawn [e]).length)
    (hdrawn : ∀ x ∈ Connections.drawn [e], x.2 = s.clientIdGen.toInt)
    (hinboxes : ∀ c, s'.inboxes c = s.inboxes c ++ responsesWhere (Reaches · c ·) es [e]) :
    Recorded gen (es ++ [e]) s' where
  clients id := by rw [hclients, h.clients, firstRegistrant_snoc]
  accepted c := by
    rw [haccepted, ← h.accepted, List.mem_append, List.mem_singleton]
    exact or_congr_right eq_comm
  acts e' he' c hc := by
    rw [haccepted]
    rcases List.mem_append.mp he' with he' | he'
    · exact .inl (h.acts e' he' c hc)
    · obtain rfl := List.mem_singleton.mp he'
      exact .inl ((h.accepted c).mp ((h.live c).mp (hacts c hc)).1)
  live c := by
    rw [hlive, h.live]
    simp only [List.mem_append, List.mem_singleton, not_or]
    constructor
    · rintro ⟨⟨hc, hd⟩ | rfl, hne⟩
      · exact ⟨.inl hc, hd, fun he => hne he.symm⟩
      · exact ⟨.inr rfl, fun hd => absurd (h.acts _ hd c rfl) (not_lt.mpr (hnew c rfl)),
          fun he => hne he.symm⟩
    · rintro ⟨hc, hd, hne⟩
      exact ⟨hc.imp (⟨·, hd⟩) Eq.symm, fun he => hne he.symm⟩
  generator := by
    rw [hgen, h.generator, drawn_snoc, List.length_append, BitVec.ofNat_add, BitVec.add_assoc]
  drawn k x hx := by
    rw [drawn_snoc] at hx
    rcases Nat.lt_or_ge k (Connections.drawn es).length with hk | hk
    · rw [List.getElem?_append_left hk] at hx
      exact h.drawn k x hx
    · rw [List.getElem?_append_right hk] at hx
      -- an event draws at most one id
      have hlast := (List.getElem?_eq_some_iff.mp hx).1
      have hone : k = (Connections.drawn es).length := by
        have := length_drawn_le e
        omega
      rw [hdrawn x (List.mem_of_getElem? hx), h.generator, hone]
  inboxes c := by rw [hinboxes, h.inboxes, responsesWhere_append, List.nil_append]

/-- **What a response does**: it is written on the connection registered for its
client id, if that is still there. -/
theorem asyncRespondClient_eq (s : Connections) (r : Response) :
    s.asyncRespondClient r = { s with inboxes := fun c => s.inboxes c ++
      if r.seqId.clientId ≠ -1 ∧ s.clients r.seqId.clientId = some c ∧ s.live c = true then [r]
      else [] } := by
  rw [asyncRespondClient]
  by_cases hid : r.seqId.clientId = -1
  · simp [hid]
  · rw [if_neg hid]
    cases hc : s.clients r.seqId.clientId with
    | none => simp
    | some c =>
        simp only [asyncResponse]
        by_cases hl : s.live c = true
        · rw [if_pos hl]
          congr 1
          funext c'
          by_cases hc' : c' = c
          · simp [hc', hl, hid]
          · simp [Function.update_of_ne hc', Ne.symm hc']
        · have hsame : (fun c' => s.inboxes c' ++
              if r.seqId.clientId ≠ -1 ∧ some c = some c' ∧ s.live c' = true then [r] else [])
              = s.inboxes := by
            funext c'
            have hne : ¬ (r.seqId.clientId ≠ -1 ∧ some c = some c' ∧ s.live c' = true) := by
              rintro ⟨-, he, hl'⟩
              cases he
              exact hl hl'
            rw [if_neg hne, List.append_nil]
          rw [if_neg hl, hsame]

theorem Recorded.step (h : Recorded gen es s) (hs : s.Steps e s') :
    Recorded gen (es ++ [e]) s' := by
  cases e with
  | connect c =>
      simp only [Steps, Connections.step, Option.ite_none_right_eq_some, Option.some.injEq] at hs
      obtain ⟨rfl, rfl⟩ := hs
      refine h.snoc (fun id => by simp [firstRegistrant]) (fun c => ?_)
        (by simp [ConnectionEvent.handler]) (fun c => ?_) (by simp) (by simp [Connections.drawn])
        (by simp [Connections.drawn])
        (fun c => by simp [responsesWhere])
      · simp only [ConnectionEvent.connect.injEq]
        omega
      · by_cases hc : c = s.accepted
        · simp [hc]
        · simp [Function.update_of_ne hc, Ne.symm hc]
  | disconnect c =>
      simp only [Steps, Connections.step, Option.ite_none_right_eq_some, Option.some.injEq] at hs
      obtain ⟨hlive, rfl⟩ := hs
      refine h.snoc (fun id => by simp [firstRegistrant]) (by simp) ?_ (fun c' => ?_) (by simp)
        (by simp [Connections.drawn]) (by simp [Connections.drawn])
        (fun c => by simp [responsesWhere])
      · rintro c' hc
        cases hc
        exact hlive
      · by_cases hc : c' = c
        · simp [hc]
        · simp [Function.update_of_ne hc, Ne.symm hc]
  | getClientId c id =>
      simp only [Steps, Connections.step, Option.ite_none_right_eq_some, Option.some.injEq] at hs
      obtain ⟨⟨hlive, hid⟩, rfl⟩ := hs
      exact h.snoc (fun id => by simp [firstRegistrant]) (by simp)
        (by simpa [ConnectionEvent.handler] using hlive) (by simp) (by simp)
        (by simp [Connections.drawn]) (by simp [Connections.drawn, hid])
        (fun c => by simp [responsesWhere])
  | register c blockId id =>
      simp only [Steps, Connections.step, Option.ite_none_right_eq_some, Option.some.injEq] at hs
      obtain ⟨hlive, rfl⟩ := hs
      refine h.snoc (fun id' => ?_) (by simp [addClient])
        (by simpa [ConnectionEvent.handler] using hlive) (by simp [addClient]) (by simp)
        (by simp [addClient, Connections.drawn]) (by simp [Connections.drawn])
        (fun c => by simp [addClient, responsesWhere])
      by_cases hid : id' = id
      · simp [addClient, firstRegistrant, hid]
      · simp [addClient, firstRegistrant, Function.update_of_ne hid, Ne.symm hid]
  | respond r =>
      obtain rfl : s.asyncRespondClient r = s' := Option.some.inj hs
      rw [asyncRespondClient_eq]
      refine h.snoc (fun id => by simp [firstRegistrant]) (by simp)
        (by simp [ConnectionEvent.handler]) (by simp) (by simp) (by simp [Connections.drawn])
        (by simp [Connections.drawn]) (fun c => ?_)
      have hreaches : Reaches es c r ↔
          r.seqId.clientId ≠ -1 ∧ s.clients r.seqId.clientId = some c ∧ s.live c = true := by
        rw [h.clients, h.live]
        exact ⟨fun hr => ⟨hr.id, hr.registered, hr.connected, hr.live⟩,
          fun ⟨hid, hreg, hcon, hlive⟩ => ⟨hid, hreg, hcon, hlive⟩⟩
      simp only [responsesWhere]
      congr 1
      exact if_congr hreaches.symm rfl rfl

/-- **Every run** is recorded. -/
theorem recorded_of_run (h : Run Steps (start gen) es s) : Recorded gen es s :=
  h.invariant (I := Recorded gen) (recorded_start gen) fun _ ih hs => ih.step hs

/-! ## Whose responses they are -/

/-- Fewer than 2^64 draws give each id once. -/
theorem Recorded.owner_unique (h : Recorded gen es s)
    (hcount : (Connections.drawn es).length ≤ 2 ^ 64) {c c' : Nat} {id : Int}
    (hc : .getClientId c id ∈ es) (hc' : .getClientId c' id ∈ es) : c = c' := by
  have hmem : ∀ c, .getClientId c id ∈ es →
      ∃ k : Nat, (Connections.drawn es)[k]? = some (c, id) := by
    intro c hc
    exact List.mem_iff_getElem?.mp (List.mem_filterMap.mpr ⟨_, hc, rfl⟩)
  obtain ⟨k, hk⟩ := hmem c hc
  obtain ⟨k', hk'⟩ := hmem c' hc'
  have hid : (gen + BitVec.ofNat 64 k).toInt = (gen + BitVec.ofNat 64 k').toInt :=
    (h.drawn k (c, id) hk).symm.trans (h.drawn k' (c', id) hk')
  have hlt := (List.getElem?_eq_some_iff.mp hk).1
  have hlt' := (List.getElem?_eq_some_iff.mp hk').1
  obtain rfl : k = k' := by
    have hbits := congrArg BitVec.toNat ((BitVec.add_right_inj gen).mp (BitVec.toInt_inj.mp hid))
    rw [BitVec.toNat_ofNat, BitVec.toNat_ofNat, Nat.mod_eq_of_lt (by omega),
      Nat.mod_eq_of_lt (by omega)] at hbits
    exact hbits
  rw [hk] at hk'
  cases hk'
  rfl

/-- Somebody's registration is the first. -/
theorem firstRegistrant_isSome {id : Int} {c : Nat} {blockId : Int}
    (h : .register c blockId id ∈ es) : ∃ c', firstRegistrant id es = some c' := by
  refine Option.isSome_iff_exists.mp (Option.isSome_iff_ne_none.mpr fun hnone => ?_)
  have := List.findSome?_eq_none_iff.mp hnone _ h
  simp at this

theorem mem_of_firstRegistrant {id : Int} {c : Nat} (h : firstRegistrant id es = some c) :
    ∃ blockId, .register c blockId id ∈ es := by
  obtain ⟨e, hmem, he⟩ := List.exists_of_findSome?_eq_some h
  cases e with
  | register c' blockId id' =>
      simp only at he
      split at he
      · rename_i hid
        cases he
        exact ⟨blockId, hid ▸ hmem⟩
      · cases he
  | _ => cases he

/-- **Responses stay apart.** If clients register ids they have drawn, and no
more than 2^64 ids have been drawn, then in every run each connection has been
written the responses to the ids registered for it, in order, from when they
were registered until it was released, and nothing else; but not under the id
-1, should the generator come to it. -/
theorem inboxes_of_honest {gen : BitVec 64} {es : List ConnectionEvent} {s : Connections}
    (hrun : Run Steps (start gen) es s) (hhonest : Honest es)
    (hcount : (drawn es).length ≤ 2 ^ 64) (c : Nat) :
    s.inboxes c = responsesWhere (Belongs · c ·) [] es := by
  have hrec := recorded_of_run hrun
  rw [hrec.inboxes]
  refine responsesWhere_congr fun during r hpre => ?_
  rw [List.nil_append]
  have hduring : during <+: es := (List.prefix_append _ _).trans hpre
  have hdrew : ∀ c' blockId, .register c' blockId r.seqId.clientId ∈ during →
      .getClientId c' r.seqId.clientId ∈ es := fun c' blockId hmem =>
    hduring.subset ((hhonest.of_prefix hduring).drew hmem)
  constructor
  · intro hr
    exact ⟨hr.id, mem_of_firstRegistrant hr.registered, hr.live⟩
  · rintro ⟨hid, ⟨blockId, hmem⟩, hlive⟩
    obtain ⟨c', hc'⟩ := firstRegistrant_isSome hmem
    obtain ⟨blockId', hmem'⟩ := mem_of_firstRegistrant hc'
    obtain rfl := hrec.owner_unique hcount (hdrew c blockId hmem) (hdrew c' blockId' hmem')
    obtain ⟨after, rfl⟩ := hduring
    obtain ⟨t, ht, -⟩ := Run.append_iff.mp hrun
    have hrect := recorded_of_run ht
    exact ⟨hid, hc', (hrect.accepted c).mpr (hrect.acts _ hmem c rfl), hlive⟩

/-- Two clients that register the ids they drew in the other order, and a
response to each, and one more once the first client is gone. -/
def twoConnections : List ConnectionEvent :=
  [.connect 0, .connect 1, .getClientId 0 5, .getClientId 1 6, .register 1 1 6, .register 0 1 5,
    .respond ⟨⟨5, 0, 0⟩, .get, [['a']]⟩, .respond ⟨⟨6, 0, 0⟩, .get, [['b']]⟩, .disconnect 0,
    .respond ⟨⟨5, 1, 0⟩, .get, [['c']]⟩]

theorem inboxes_of_honest_two : ∃ s, Run Steps (start 5) twoConnections s ∧
    s.inboxes 0 = [⟨⟨5, 0, 0⟩, .get, [['a']]⟩] ∧ s.inboxes 1 = [⟨⟨6, 0, 0⟩, .get, [['b']]⟩] := by
  have hsome : (twoConnections.foldlM step (start 5)).isSome := by decide
  obtain ⟨s, hs⟩ := Option.isSome_iff_exists.mp hsome
  have hrun : Run Steps (start 5) twoConnections s := Run.of_foldlM id hs
  have hhonest : Honest twoConnections := by decide
  refine ⟨s, hrun, (inboxes_of_honest hrun hhonest (by decide) 0).trans ?_,
    (inboxes_of_honest hrun hhonest (by decide) 1).trans ?_⟩
  · decide
  · decide

/-! ## The asynchronous client's id -/

/-- The client id in the requests of an `async_proxy_client`: `client_id_` is an
`int`, and it registers the id it drew as it drew it. -/
def asyncClientId (id : Int) : Int := (BitVec.ofInt 32 id).toInt

theorem asyncClientId_eq_iff {id : Int} : asyncClientId id = id ↔ -2 ^ 31 ≤ id ∧ id < 2 ^ 31 := by
  rw [asyncClientId, BitVec.toInt_ofInt]
  constructor
  · intro h
    rw [← h]
    exact ⟨Int.le_bmod (by decide), Int.bmod_lt (by decide)⟩
  · rintro ⟨hlo, hhi⟩
    exact Int.bmod_eq_of_le (by simpa using hlo) (by simpa using hhi)

/-- **An asynchronous client is answered** exactly if the id it drew is an `int`
other than -1: in any run, once it has registered, and as long as it is
connected, a response under the id in its requests is written on its
connection in that case and in no other. -/
theorem asyncClient_answered_iff {gen : BitVec 64} {es : List ConnectionEvent}
    {s s' : Connections} (hrun : Run Steps (start gen) es s) (hhonest : Honest es)
    (hcount : (drawn es).length ≤ 2 ^ 64) {c : Nat} {blockId id : Int}
    (hregistered : .register c blockId id ∈ es)
    (honly : ∀ id', .getClientId c id' ∈ es → id' = id) (hlive : s.live c = true) {r : Response}
    (hr : r.seqId.clientId = asyncClientId id) (hs : s.Steps (.respond r) s') :
    s'.inboxes c = s.inboxes c ++ [r] ↔ (-2 ^ 31 ≤ id ∧ id < 2 ^ 31) ∧ id ≠ -1 := by
  have hrec := recorded_of_run hrun
  obtain rfl : s.asyncRespondClient r = s' := Option.some.inj hs
  rw [asyncRespondClient_eq, ← asyncClientId_eq_iff]
  have hwritten : ∀ p : Prop, ∀ _ : Decidable p,
      (s.inboxes c ++ if p then [r] else []) = s.inboxes c ++ [r] ↔ p := by
    intro p _
    by_cases hp : p <;> simp [hp]
  refine (hwritten _ _).trans ?_
  rw [hr, hrec.clients]
  constructor
  · rintro ⟨hne, hfirst, -⟩
    obtain ⟨blockId', hmem⟩ := mem_of_firstRegistrant hfirst
    have hid := honly _ (hhonest.drew hmem)
    exact ⟨hid, hid ▸ hne⟩
  · rintro ⟨hid, hne⟩
    rw [hid]
    obtain ⟨c', hc'⟩ := firstRegistrant_isSome hregistered
    obtain ⟨blockId', hmem⟩ := mem_of_firstRegistrant hc'
    obtain rfl := hrec.owner_unique hcount (hhonest.drew hregistered) (hhonest.drew hmem)
    exact ⟨hne, hc', hlive⟩

/-- A client that drew and registered the id `id`, the first the generator gave. -/
def oneConnection (id : Int) : List ConnectionEvent :=
  [.connect 0, .getClientId 0 id, .register 0 1 id]

/-- Its requests are answered if the generator started at 7, and not if it
started at 2^31. -/
theorem asyncClient_answered_iff_one :
    (∃ s s', Run Steps (start 7) (oneConnection 7) s ∧
      s.Steps (.respond ⟨⟨asyncClientId 7, 0, 0⟩, .get, [['a']]⟩) s' ∧
      s'.inboxes 0 = s.inboxes 0 ++ [⟨⟨asyncClientId 7, 0, 0⟩, .get, [['a']]⟩]) ∧
    ∃ s s', Run Steps (start 2147483648) (oneConnection 2147483648) s ∧
      s.Steps (.respond ⟨⟨asyncClientId 2147483648, 0, 0⟩, .get, [['a']]⟩) s' ∧
      s'.inboxes 0 ≠ s.inboxes 0 ++ [⟨⟨asyncClientId 2147483648, 0, 0⟩, .get, [['a']]⟩] := by
  have hrun : ∀ gen : BitVec 64, ∀ id : Int,
      ((oneConnection id).foldlM step (start gen)).map (·.live 0) = some true →
      ∃ s, Run Steps (start gen) (oneConnection id) s ∧ s.live 0 = true := by
    intro gen id h
    obtain ⟨s, hs, hlive⟩ := Option.map_eq_some_iff.mp h
    exact ⟨s, Run.of_foldlM (fun h => h) hs, hlive⟩
  have honly : ∀ id id', .getClientId 0 id' ∈ oneConnection id → id' = id := by
    simp [oneConnection]
  constructor
  · obtain ⟨s, hs, hlive⟩ := hrun 7 7 (by decide)
    have hregistered : .register 0 1 7 ∈ oneConnection 7 := by decide
    exact ⟨s, _, hs, rfl, (asyncClient_answered_iff hs (by decide) (by decide) hregistered (honly 7)
      hlive rfl rfl).mpr (by decide)⟩
  · obtain ⟨s, hs, hlive⟩ := hrun 2147483648 2147483648 (by decide)
    have hregistered : .register 0 1 2147483648 ∈ oneConnection 2147483648 := by decide
    refine ⟨s, _, hs, rfl, fun h => ?_⟩
    have hid := (asyncClient_answered_iff hs (by decide) (by decide) hregistered (honly _) hlive
      rfl rfl).mp h
    exact absurd hid (by decide)

end Connections

end Pancake
