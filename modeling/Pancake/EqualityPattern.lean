import Pancake.Consumer
import Pancake.InitialStorage
import Pancake.Lib.ReplicaHistory

/-!
# Which ciphertexts are equal

The encryption engine has one key and one IV, so equal plaintexts have equal
ciphertexts, and `insert_replicas` writes one ciphertext under all labels of
a key. Over a whole run the server can compare. What it sees equal is told
from the inputs of the run: each ciphertext is that of one string drawn or of
one value put, its `Source`, which the replica counts and the operations with
their replica ids determine (`Valid.encrypts`).
-/

namespace Pancake

open LazyReplicas Patterns

/-! ## Deterministic encryption -/

/-- Deterministic encryption that can be undone keeps the pattern. -/
theorem samePattern_of_encrypts {e : EncryptionEngine} {xs cs : List Str} (h : Encrypts e xs cs)
    (hx : ∀ x ∈ xs, e.RoundTrips x) : SamePattern xs cs := by
  obtain ⟨hlen, hget⟩ := List.forall₂_iff_get.mp h
  refine ⟨hlen, fun i hi j hj => ?_⟩
  rw [List.getElem?_eq_getElem hi, List.getElem?_eq_getElem hj,
    List.getElem?_eq_getElem (hlen ▸ hi), List.getElem?_eq_getElem (hlen ▸ hj), Option.some.injEq,
    Option.some.injEq]
  have hci := hget i hi (hlen ▸ hi)
  have hcj := hget j hj (hlen ▸ hj)
  simp only [List.get_eq_getElem] at hci hcj
  constructor
  · intro he
    rw [he, hcj] at hci
    exact (Except.ok.inj hci).symm
  · intro he
    rw [he] at hci
    exact EncryptionEngine.encrypt_injective_of_roundTrips (hx _ (List.getElem_mem hi))
      (hx _ (List.getElem_mem hj)) hci hcj

/-! ## The stored ciphertexts -/

/-- The entry is the engine's encryption of the value it decrypts to. -/
def EncryptedAt (e : EncryptionEngine) (m : UnorderedMap Str) (label : Str) : Prop :=
  ∃ c, m.lookup label = some c ∧ e.encrypt (plainText e m label) = .ok c

theorem EncryptedAt.insert {e : EncryptionEngine} {m : UnorderedMap Str} {l x c : Str}
    (hx : e.RoundTrips x) (hc : e.encrypt x = .ok c) {l' : Str}
    (h : l' = l ∨ EncryptedAt e m l') : EncryptedAt e (m.insert l c) l' := by
  rw [EncryptedAt, plainText_insert m hx hc]
  by_cases hl : l' = l
  · subst hl
    exact ⟨c, Finmap.lookup_insert _, by rw [Function.update_self]; exact hc⟩
  · obtain ⟨c', hc', he⟩ := h.resolve_left hl
    exact ⟨c', by rw [Finmap.lookup_insert_of_ne _ hl, hc'], by
      rw [Function.update_of_ne hl]; exact he⟩

theorem EncryptedAt.insertAll {e : EncryptionEngine} {ls xs cs : List Str}
    (hx : ∀ x ∈ xs, e.RoundTrips x) (hc : Encrypts e xs cs) {m : UnorderedMap Str} {l : Str}
    (h : EncryptedAt e m l) : EncryptedAt e (Server.insertAll m ls cs) l := by
  induction ls generalizing m xs cs with
  | nil => exact h
  | cons k ks ih =>
      cases hc with
      | nil => exact h
      | cons hhd hc =>
          exact ih (fun x hm => hx x (by simp [hm])) hc
            (EncryptedAt.insert (hx _ (by simp)) hhd (.inr h))

namespace Proxy

/-- Every live label stores an encryption of its value. -/
def AllEncrypted (st : Proxy) : Prop :=
  ∀ key i, i < st.replicas key →
    EncryptedAt st.encryptionEngine st.storage.contents (st.labelOf key i)

/-- All ciphertexts the server has seen, read or written, in order. -/
def ciphertexts (st : Proxy) : List Str := st.storage.requests.flatMap Request.ciphers

/-- The accesses of a call, for the labels of `st`. -/
def accessesOf (st : Proxy) (c : Call) : List (Access Str Str Str) :=
  st.batchAccesses c.batch c.replicaIds

/-- **One call** shows encryptions of the values it reads and writes back. -/
theorem Steady.call_shows {st st' : Proxy} (hs : st.Steady) (he : st.AllEncrypted) {c : Call}
    (hc : st.WellFormedCall c st') :
    st'.Steady ∧ st'.AllEncrypted ∧ Executed st c.batch c.replicaIds st' c.fulfilled ∧
    (∀ a ∈ st.accessesOf c, Placed st.replicas st.labelOf a) ∧
    ∃ cs, st'.ciphertexts = st.ciphertexts ++ cs ∧
      Encrypts st.encryptionEngine ((st.accessesOf c).map (fun a => st.plain a.label)
        ++ st.batchValues c.batch c.replicaIds) cs ∧
      ∀ x ∈ (st.accessesOf c).map (fun a => st.plain a.label)
        ++ st.batchValues c.batch c.replicaIds, st.encryptionEngine.RoundTrips x := by
  have hids := (possible_chooseReplicas hs.noMissing hc.wellFormed.truesLength).mp hc.drawn
  obtain ⟨st'', f, hrun, hx, hs'⟩ := hs.executeBatchWith hc.wellFormed hids
  obtain ⟨rfl, rfl⟩ := Prod.mk.inj (Except.ok.inj (hc.returns.symm.trans hrun))
  obtain ⟨cs, henc, hcont, hreq⟩ := hx.written
  have hplaced : ∀ a ∈ st.accessesOf c, Placed st.replicas st.labelOf a := placed_accesses hids
  refine ⟨hs', ?_, hx, hplaced,
    (st.accessesOf c).map (fun a => UnorderedMap.at_ st.storage.contents a.label) ++ cs, ?_, ?_, ?_⟩
  · intro key i hi
    rw [hx.frame.replicas] at hi
    rw [hx.frame.engine, hx.frame.labelOf, hcont]
    exact (he key i hi).insertAll hx.roundTrips henc
  · rw [ciphertexts, hreq, List.flatMap_append]
    simp only [List.flatMap_cons, List.flatMap_nil, List.append_nil, Request.ciphers]
    rfl
  · refine Encrypts.append ?_ henc
    rw [Encrypts, List.forall₂_map_left_iff, List.forall₂_map_right_iff, List.forall₂_same]
    intro a ha
    rw [(hplaced a ha).label]
    obtain ⟨c, hl, hc⟩ := he _ _ (hplaced a ha).live
    rw [UnorderedMap.at_, hl]
    exact hc
  · intro x hx'
    rcases List.mem_append.mp hx' with hx' | hx'
    · obtain ⟨a, ha, rfl⟩ := List.mem_map.mp hx'
      rw [(hplaced a ha).label]
      exact (hs.readable _ _ (hplaced a ha).live).roundTrips
    · exact hx.roundTrips x hx'

/-- **A run** shows encryptions of the values the scheme exchanges. -/
theorem Steady.run_shows (calls : List Call) : ∀ {st st' : Proxy}, st.Steady → st.AllEncrypted →
    Run WellFormedCall st calls st' →
    (∀ as ∈ calls.map st.accessesOf, ∀ a ∈ as, Placed st.replicas st.labelOf a) ∧
    ∃ cs, st'.ciphertexts = st.ciphertexts ++ cs ∧
      Encrypts st.encryptionEngine
        (exchanged st.replicas st.updateCache.waiting st.plain (calls.map st.accessesOf)) cs ∧
      ∀ x ∈ exchanged st.replicas st.updateCache.waiting st.plain (calls.map st.accessesOf),
        st.encryptionEngine.RoundTrips x := by
  induction calls with
  | nil =>
      intro st st' _ _ hr
      obtain rfl := Run.nil_iff.mp hr
      exact ⟨by simp, [], by simp, .nil, by simp [exchanged]⟩
  | cons c calls ih =>
      intro st st' hs he hr
      obtain ⟨st₁, hc, hr⟩ := Run.cons_iff.mp hr
      obtain ⟨hs₁, he₁, hx, hplaced, cs, hcs, henc, hrt⟩ := hs.call_shows he hc
      obtain ⟨hplaced', ds, hds, henc', hrt'⟩ := ih hs₁ he₁ hr
      have hacc : calls.map st₁.accessesOf = calls.map st.accessesOf := by
        refine List.map_congr_left fun d _ => ?_
        rw [accessesOf, accessesOf, batchAccesses, batchAccesses, hx.frame.labelOf]
      rw [hacc, hx.frame.engine, hx.frame.replicas, hx.waiting, hx.plain] at henc' hrt'
      rw [hacc, hx.frame.replicas, hx.frame.labelOf] at hplaced'
      refine ⟨?_, cs ++ ds, by rw [hds, hcs, List.append_assoc], Encrypts.append henc henc', ?_⟩
      · rw [List.map_cons]
        exact List.forall_mem_cons.mpr ⟨hplaced, hplaced'⟩
      intro x hmem
      rcases List.mem_append.mp hmem with hmem | hmem
      · exact hrt x hmem
      · exact hrt' x hmem

/-- Initially every live label stores an encryption of its value. -/
theorem Created.allEncrypted {st st' : Proxy} {values : Nat → Str} (h : Created st values st')
    (hfresh : st.Fresh) (hv : ∀ i, st.encryptionEngine.RoundTrips (values i)) :
    st'.AllEncrypted := by
  intro key i hi
  obtain ⟨n, c, x, -, hx, hlab, hc, henc⟩ := h.stored hfresh hi
  obtain ⟨j, rfl⟩ := mem_blockValues (List.mem_of_getElem? hx)
  obtain ⟨c', hc', hd⟩ := hv j
  obtain rfl := Except.ok.inj (henc.symm.trans hc')
  rw [h.engine, hlab]
  refine ⟨c, hc, ?_⟩
  simp only [plainText, hc, hd]
  exact henc

end Proxy

/-! ## Two runs -/

/-- A run: a proxy before `init`, the arguments of `init`, the strings drawn,
the batches executed with their replica ids, and the proxy then. -/
structure Execution where
  start : Proxy
  dist : Distribution
  alpha : ℚ
  delta : ℚ
  values : Nat → Str
  calls : List Call
  final : Proxy

namespace Execution

/-- The run is one the proxy can make, on values that round-trip. -/
structure Valid (x : Execution) : Prop where
  fresh : x.start.Fresh
  nothingSeen : x.start.storage.requests = []
  arguments : CallerArguments x.dist x.alpha x.delta
  roundTrips : ∀ i, x.start.encryptionEngine.RoundTrips (x.values i)
  runs : ∃ st, x.start.init x.dist x.alpha x.delta x.values = .ok st ∧
    Run Proxy.WellFormedCall st x.calls x.final

/-- The labels the server sees, in order. -/
def labels (x : Execution) : List Str := x.final.storage.requests.flatMap Request.labels

/-- The ciphertexts the server sees, in order. -/
def ciphertexts (x : Execution) : List Str := x.final.ciphertexts

/-! ### Where the plaintexts come from -/

/-- The input a plaintext is: the string drawn for a block of labels, or the
value of an operation of a call. -/
inductive Source
  | drawn (block : Nat)
  | put (call slot : Nat)
  deriving DecidableEq

variable (x : Execution)

/-- The keys with their replica counts, the dummy key last. -/
def replicaCounts : List (Str × Nat) :=
  let counts := x.dist.pairs.map fun item => (item.1, Proxy.replicaCount x.alpha item.2)
  counts ++ [(x.start.dummyKey, 2 * x.dist.items.length - (counts.map Prod.snd).sum)]

/-- The label of a replica: its name's number, counted through the blocks. -/
def labelNumber (key : Str) (i : Nat) : Nat :=
  UnorderedMap.at_ (insertNames ∅ 0 (x.replicaCounts.flatMap fun r =>
    Proxy.replicaNames r.1 r.2)) (replicaName key i)

/-- The labels of the blocks from the `j`-th on have the strings drawn in turn. -/
def blockSources : Nat → List Nat → List Source
  | _, [] => []
  | j, n :: counts => List.replicate n (.drawn j) ++ blockSources (j + 1) counts

/-- The strings the labels have after `init`. -/
def initialSources : List Source := blockSources 0 (x.replicaCounts.map Prod.snd)

/-- The accesses of a call from a slot on, each put carrying its place. -/
def callAccesses (call : Nat) : Nat → List Operation → List Bool → List Nat →
    List (Access Str Source Nat)
  | slot, op :: ops, t :: isTrues, id :: ids =>
      { key := op.key
        replica := id
        label := x.labelNumber op.key id
        write := if op.value = [] then none else some (.put call slot)
        answered := t } :: callAccesses call (slot + 1) ops isTrues ids
  | _, _, _, _ => []

/-- The accesses of all calls. -/
def accesses : List (List (Access Str Source Nat)) :=
  x.calls.zipIdx.map fun c =>
    x.callAccesses c.2 0 c.1.batch.operations c.1.batch.isTrues c.1.replicaIds

/-- The source of each ciphertext the server sees: of the initial entries in
the order of their labels, then of what each batch reads and writes back. It
is read off the replica counts, the keys and kinds of the operations and their
replica ids. -/
def sources : List Source :=
  x.initialSources ++ shown (fun l => x.initialSources.getD l (.drawn 0)) [] x.accesses

/-- The input at a source. -/
def text : Source → Str
  | .drawn block => x.values block
  | .put call slot =>
      ((x.calls[call]?.bind fun c => c.batch.operations[slot]?).map Operation.value).getD []

/-! ### The scheme moves the inputs -/

theorem blockSources_map (alpha : ℚ) (items : List (Str × ℚ)) : ∀ j,
    (blockSources j (items.map fun item => Proxy.replicaCount alpha item.2)).map x.text
      = Proxy.blockValues (Proxy.keyBlocks alpha x.values j items) := by
  induction items with
  | nil => intro j; rfl
  | cons item items ih =>
      intro j
      rw [List.map_cons, blockSources, List.map_append, ih, List.map_replicate, Proxy.keyBlocks]
      rfl

theorem blockSources_append (counts counts' : List Nat) : ∀ j,
    blockSources j (counts ++ counts')
      = blockSources j counts ++ blockSources (j + counts.length) counts' := by
  induction counts with
  | nil => intro j; rfl
  | cons n counts ih =>
      intro j
      rw [List.cons_append, blockSources, ih, blockSources, List.append_assoc, List.length_cons,
        Nat.add_assoc, Nat.add_comm 1]

/-- The blocks that `create_replicas` makes. -/
abbrev blocks : List Proxy.Block :=
  Proxy.initialBlocks x.dist x.alpha x.start.dummyKey x.values

theorem keyBlocks_counts (alpha : ℚ) (values : Nat → Str) (items : List (Str × ℚ)) : ∀ j,
    (Proxy.keyBlocks alpha values j items).map (fun b => (b.key, b.count))
      = items.map fun item => (item.1, Proxy.replicaCount alpha item.2) := by
  induction items with
  | nil => intro j; rfl
  | cons item items ih => intro j; rw [Proxy.keyBlocks, List.map_cons, ih, List.map_cons]

theorem blocks_counts : x.blocks.map (fun b => (b.key, b.count)) = x.replicaCounts := by
  have hkeys := keyBlocks_counts x.alpha x.values x.dist.pairs 0
  have hcounts := congrArg (List.map Prod.snd) hkeys
  rw [List.map_map] at hcounts
  rw [blocks, Proxy.initialBlocks, List.map_append, hkeys, replicaCounts, ← hcounts]
  rfl

theorem blockNames_eq : Proxy.blockNames x.blocks
    = x.replicaCounts.flatMap fun r => Proxy.replicaNames r.1 r.2 := by
  rw [← x.blocks_counts, List.flatMap_map]
  rfl

theorem initialSources_map (hlengths : x.dist.items.length = x.dist.probabilities.length) :
    x.initialSources.map x.text = Proxy.blockValues x.blocks := by
  have hpairs : x.dist.pairs.length = x.dist.items.length := by
    rw [Distribution.pairs, List.length_zip, ← hlengths, min_self]
  have hcounts := congrArg (List.map Prod.snd) (keyBlocks_counts x.alpha x.values x.dist.pairs 0)
  rw [List.map_map, List.map_map] at hcounts
  rw [initialSources, replicaCounts, List.map_append, blockSources_append, List.map_append,
    List.map_map, blocks, Proxy.initialBlocks, Proxy.blockValues_append]
  congr 1
  · exact x.blockSources_map x.alpha x.dist.pairs 0
  · simp only [List.map_cons, List.map_nil, blockSources, List.length_map, hpairs, Nat.zero_add,
      List.append_nil, List.map_replicate, text, Proxy.blockValues, List.flatMap_cons,
      List.flatMap_nil]
    rw [← hcounts]
    rfl

theorem callAccesses_map {st : Proxy}
    (hlabel : ∀ key i, st.labelOf key i = toString (x.labelNumber key i)) {call : Nat}
    (ops : List Operation) : ∀ {slot : Nat} {isTrues : List Bool} {ids : List Nat},
    (∀ i op, ops[i]? = some op → x.text (.put call (slot + i)) = op.value) →
    (x.callAccesses call slot ops isTrues ids).map (Access.map x.text toString)
      = Proxy.accesses st.labelOf ops isTrues ids := by
  induction ops with
  | nil => intro slot isTrues ids _; rfl
  | cons op ops ih =>
      intro slot isTrues ids htext
      cases isTrues with
      | nil => rfl
      | cons t isTrues =>
      cases ids with
      | nil => rfl
      | cons id ids =>
          rw [callAccesses, List.map_cons, Proxy.accesses]
          congr 1
          · rw [Access.map, Proxy.accessOf, hlabel]
            by_cases hv : op.value = []
            · simp [hv]
            · simpa [hv] using htext 0 op rfl
          · refine ih fun i op' hi => ?_
            rw [Nat.add_assoc, Nat.add_comm 1 i]
            exact htext (i + 1) op' hi

/-- The accesses of the scheme are these, with the inputs filled in. -/
theorem accesses_map {st : Proxy}
    (hlabel : ∀ key i, st.labelOf key i = toString (x.labelNumber key i)) :
    x.accesses.map (List.map (Access.map x.text toString)) = x.calls.map st.accessesOf := by
  have hcalls : x.calls.map st.accessesOf = x.calls.zipIdx.map fun c => st.accessesOf c.1 := by
    conv_lhs => rw [← List.zipIdx_map_fst 0 x.calls]
    rw [List.map_map]
    rfl
  rw [hcalls, accesses, List.map_map]
  refine List.map_congr_left fun c hc => ?_
  have hcall := List.mem_zipIdx_iff_getElem?.mp hc
  refine x.callAccesses_map hlabel _ fun i op hi => ?_
  rw [text, hcall, Option.bind_some, Nat.zero_add, hi]
  rfl

/-- What is known of the accesses of the scheme, of those told from the inputs. -/
theorem placed {st : Proxy}
    (hlabel : ∀ key i, st.labelOf key i = toString (x.labelNumber key i))
    (hplaced : ∀ as ∈ x.calls.map st.accessesOf, ∀ a ∈ as, Placed st.replicas st.labelOf a) :
    ∀ as ∈ x.accesses, ∀ a ∈ as, a.replica < st.replicas a.key ∧
      a.label = x.labelNumber a.key a.replica := by
  intro as has a ha
  have hp : Placed st.replicas st.labelOf (a.map x.text toString) := by
    refine hplaced (as.map (Access.map x.text toString)) ?_ _ (List.mem_map_of_mem ha)
    rw [← x.accesses_map hlabel]
    exact List.mem_map_of_mem has
  have heq := hp.label
  rw [hlabel, Access.map] at heq
  exact ⟨hp.live, toString_inj.mp heq⟩

/-- The plaintexts: the inputs at the sources. -/
def plaintexts : List Str := x.sources.map x.text

theorem allBlocks_blocks {x : Execution} (ha : CallerArguments x.dist x.alpha x.delta) :
    (x.start.takeArguments x.dist x.alpha x.delta).allBlocks x.values = x.blocks :=
  have h : CallerArguments (x.start.takeArguments x.dist x.alpha x.delta).realDistribution
      (x.start.takeArguments x.dist x.alpha x.delta).alpha x.delta := ha
  (Proxy.allBlocks_eq h x.values).1

section Created

variable {x} {st : Proxy}
  (hc : Proxy.Created (x.start.takeArguments x.dist x.alpha x.delta) x.values st)
  (hfresh : x.start.Fresh) (ha : CallerArguments x.dist x.alpha x.delta)
include hc hfresh ha

theorem labelOf_eq (key : Str) (i : Nat) :
    st.labelOf key i = toString (x.labelNumber key i) := by
  obtain ⟨cs, -, hlay⟩ := hc.layout
  have hnames : st.replicaToLabel = insertNames ∅ 0 (Proxy.blockNames x.blocks) := by
    rw [hlay.replicaToLabel, allBlocks_blocks ha]
    exact congrArg₂ (insertNames · · _) hfresh.labels hfresh.labelCount
  rw [Proxy.labelOf, hnames, blockNames_eq, labelNumber]

/-- Each live label starts with the string of its block. -/
theorem plain_eq (hv : ∀ i, x.start.encryptionEngine.RoundTrips (x.values i)) {key : Str} {i : Nat}
    (hi : i < st.replicas key) : st.plain (st.labelOf key i)
      = x.text (x.initialSources.getD (x.labelNumber key i) (.drawn 0)) := by
  obtain ⟨n, c, p, -, hp, hlabel, hstored, hencrypt⟩ :=
    hc.stored (hfresh.takeArguments x.dist x.alpha x.delta) hi
  obtain ⟨j, rfl⟩ := Proxy.mem_blockValues (List.mem_of_getElem? hp)
  obtain ⟨c', hc', hd⟩ := hv j
  obtain rfl := Except.ok.inj (hencrypt.symm.trans hc')
  have hnumber : x.labelNumber key i = n := by
    rw [labelOf_eq hc hfresh ha, toString_inj] at hlabel
    exact hlabel
  have hsource : (x.initialSources.map x.text)[n]? = some (x.values j) := by
    rw [x.initialSources_map ha.lengths, ← hp, allBlocks_blocks ha]
  rw [List.getElem?_map, Option.map_eq_some_iff] at hsource
  obtain ⟨s, hs, htext⟩ := hsource
  have hengine : st.encryptionEngine = x.start.encryptionEngine := by rw [hc.rest]
  rw [hlabel, hnumber, List.getD_eq_getElem?_getD, hs, Option.getD_some, htext, Proxy.plain,
    plainText, hstored, hengine]
  simp only [hd]

/-- **The scheme moves the inputs** from their sources. -/
theorem exchanged_eq (hv : ∀ i, x.start.encryptionEngine.RoundTrips (x.values i))
    (hplaced : ∀ as ∈ x.calls.map st.accessesOf, ∀ a ∈ as, Placed st.replicas st.labelOf a) :
    Proxy.blockValues x.blocks
      ++ exchanged st.replicas st.updateCache.waiting st.plain (x.calls.map st.accessesOf)
      = x.plaintexts := by
  have hlabel := labelOf_eq hc hfresh ha
  have hfresh₁ := hfresh.takeArguments x.dist x.alpha x.delta
  rw [plaintexts, sources, List.map_append, x.initialSources_map ha.lengths]
  congr 1
  have hmoved : exchanged st.replicas st.updateCache.waiting st.plain (x.calls.map st.accessesOf)
      = shown st.plain [] (x.calls.map st.accessesOf) :=
    exchanged_eq_shown _ [] (fun k i _ => hc.waiting hfresh₁ k i) (fun _ => rfl)
      fun as has a ha => (hplaced as has a ha).live
  rw [hmoved, ← x.accesses_map hlabel]
  have hlike : List.Forall₂ (List.Forall₂ (Access.Like Eq x.text toString)) x.accesses
      (x.accesses.map (List.map (Access.map x.text toString))) := by
    simp [List.forall₂_map_right_iff, List.forall₂_same, Access.like_map]
  have hkeys : Relator.BiUnique (Eq : Str → Str → Prop) :=
    ⟨fun _ _ _ h h' => h.trans h'.symm, fun _ _ _ h h' => h.symm.trans h'⟩
  refine shown_like hkeys toString_injective hlike .nil fun as has a hmem => ?_
  obtain ⟨hlive, hnumber⟩ := x.placed hlabel hplaced as has a hmem
  rw [hnumber, ← hlabel]
  exact plain_eq hc hfresh ha hv hlive

end Created

/-- The server sees encryptions of the plaintexts. -/
theorem Valid.encrypts {x : Execution} (h : x.Valid) :
    Encrypts x.start.encryptionEngine x.plaintexts x.ciphertexts ∧
      ∀ p ∈ x.plaintexts, x.start.encryptionEngine.RoundTrips p := by
  obtain ⟨st, hinit, hrun⟩ := h.runs
  have hc := Proxy.created_of_init (fun i => (h.roundTrips i).encrypts) hinit
  have hfresh := h.fresh.takeArguments x.dist x.alpha x.delta
  obtain ⟨cs, hcs, hlay⟩ := hc.layout
  rw [allBlocks_blocks h.arguments] at hcs
  obtain ⟨puts, hreq, -, hciph, -⟩ := hlay.requests
  obtain ⟨hplaced, ds, hds, henc, hrt⟩ := (hc.steady hfresh h.arguments h.roundTrips).run_shows
    x.calls (hc.allEncrypted hfresh h.roundTrips) hrun
  have hengine : st.encryptionEngine = x.start.encryptionEngine := by rw [hc.rest]
  have hfirst : st.ciphertexts = cs := by
    rw [Proxy.ciphertexts, hreq, h.nothingSeen, List.nil_append, hciph]
  rw [hengine] at henc hrt
  rw [← exchanged_eq hc h.fresh h.arguments h.roundTrips hplaced, ciphertexts, hds, hfirst]
  refine ⟨Proxy.Encrypts.append hcs henc, fun p hp => ?_⟩
  rcases List.mem_append.mp hp with hp | hp
  · rw [← allBlocks_blocks h.arguments] at hp
    obtain ⟨j, rfl⟩ := Proxy.mem_blockValues hp
    exact h.roundTrips j
  · exact hrt p hp

end Execution

end Pancake
