import Pancake.Consistent
import Pancake.Lib.Runs
import Pancake.Lib.SharedReplicas

/-!
# Several consumers

The consumer threads share the update cache and the storage server. Each
takes a batch from its queue and has its labels read; then it serves the
operations one by one, fulfilling promises as it goes; then it has the values
written back. Between these steps the other consumers take theirs, and
clients enqueue operations.

`Running` says that no thread can get stuck, and every step of every
interleaving keeps it. `Serving` says moreover that the proxy and its batches
under way are a `Current` state of the shared scheme; the steps the state
`Admits` keep that.
-/

namespace Pancake

open LazyReplicas

/-! ## The threads -/

/-- An operation of a batch, with the promise of its client, if it has one,
and the replica and label chosen for it. -/
structure BatchSlot where
  operation : Operation
  promise : Option Promise
  replicaId : Nat
  label : Str
  deriving DecidableEq

/-- A batch between `get_batch` and `put_batch`: the operations not yet
served, with the ciphertexts read for them; those served, with the
ciphertexts to write back; and the labels of those that were handed a
pending update. -/
structure BatchInFlight where
  todo : List (BatchSlot × Str)
  done : List (BatchSlot × Str) := []
  handed : List Str := []

/-- The labels a batch has read. -/
def BatchInFlight.labels (f : BatchInFlight) : List Str :=
  (f.todo ++ f.done).map fun p => p.1.label

/-- The proxy with the operation queues and batches of its consumers. A
promise is the number of operations enqueued before its own. -/
structure Consumers where
  proxy : Proxy
  queues : Nat → List (Operation × Promise) := fun _ => []
  flights : Nat → Option BatchInFlight := fun _ => none
  enqueued : Nat := 0

/-- A step: a client enqueues an operation at consumer `c`; consumer `c` has
the labels of a batch read, serves the next operation, which gets `value`, or
has its batch written back. -/
inductive ConsumerEvent where
  | enqueue (c : Nat) (op : Operation) (p : Promise)
  | read (c : Nat) (slots : List BatchSlot)
  | serve (c : Nat) (slot : BatchSlot) (value : Str)
  | write (c : Nat)

/-- The operations of a batch that clients wait for. -/
def realOperations (slots : List BatchSlot) : List (Operation × Promise) :=
  slots.filterMap fun slot => slot.promise.map fun p => (slot.operation, p)

namespace Consumers

/-- The operation is handed an update: its own, or the one pending for its
replica. -/
def HandsUpdate (s : Consumers) (slot : BatchSlot) : Prop :=
  slot.operation.value ≠ [] ∨
    (s.proxy.updateCache.waiting slot.operation.key slot.replicaId).isSome

instance (s : Consumers) (slot : BatchSlot) : Decidable (s.HandsUpdate slot) :=
  inferInstanceAs (Decidable (_ ∨ _))

/-- `get_future` and `put_future`: the operation is queued with its promise. -/
def enqueue (s : Consumers) (c : Nat) (op : Operation) : Consumers :=
  { s with
    queues := Function.update s.queues c (s.queues c ++ [(op, s.enqueued)])
    enqueued := s.enqueued + 1 }

/-- The batch once its first operation is served. -/
def serveFirst (s : Consumers) (f : BatchInFlight) (slot : BatchSlot) (cipher : Str)
    (rest : List (BatchSlot × Str)) : BatchInFlight where
  todo := rest
  done := f.done ++ [(slot, cipher)]
  handed := if s.HandsUpdate slot then f.handed ++ [slot.label] else f.handed

end Consumers

/-- The steps. A batch takes real operations from the front of its consumer's
queue, and fake ones, which put nothing; `sample_a_replica` draws their
replicas. -/
inductive Interleaves (s : Consumers) : ConsumerEvent → Consumers → Prop
  | enqueue {c : Nat} {op : Operation} : Interleaves s (.enqueue c op s.enqueued) (s.enqueue c op)
  | read {c : Nat} {slots : List BatchSlot} {rest : List (Operation × Promise)} {st : Proxy}
      {ciphers : List Str} {server : Server} :
      s.flights c = none → s.queues c = realOperations slots ++ rest →
      (∀ slot ∈ slots, slot.promise = none → slot.operation.value = []) →
      (s.proxy.chooseReplicas (slots.map BatchSlot.operation)
        (slots.map (·.promise.isSome))).Possible (.ok (slots.map BatchSlot.replicaId)) →
      s.proxy.resolve (slots.map BatchSlot.operation) (slots.map BatchSlot.replicaId)
        = (st, slots.map BatchSlot.label) →
      st.storage.getBatch (slots.map BatchSlot.label) = .ok (ciphers, server) →
      Interleaves s (.read c slots) { s with
        proxy := st.withStorage server
        queues := Function.update s.queues c rest
        flights := Function.update s.flights c (some { todo := slots.zip ciphers }) }
  | serve {c : Nat} {f : BatchInFlight} {slot : BatchSlot} {cipher value out : Str}
      {rest : List (BatchSlot × Str)} {st : Proxy} :
      s.flights c = some f → f.todo = (slot, cipher) :: rest →
      s.proxy.serve slot.operation slot.replicaId cipher = .ok (st, value) →
      st.encryptionEngine.encrypt value = .ok out →
      Interleaves s (.serve c slot value) { s with
        proxy := st
        flights := Function.update s.flights c (some (s.serveFirst f slot out rest)) }
  | write {c : Nat} {f : BatchInFlight} :
      s.flights c = some f → f.todo = [] →
      Interleaves s (.write c) { s with
        proxy := s.proxy.withStorage (s.proxy.storage.putBatch
          (f.done.map fun p => p.1.label) (f.done.map Prod.snd))
        flights := Function.update s.flights c none }

/-- The steps that leave the batches under way undisturbed: no label is read
whose update another batch was handed and has not written back; and no
operation is handed an update while its label has been read for a later
operation of the same batch, or by another batch. What is put must survive
encryption. -/
def Consumers.Admits (s : Consumers) : ConsumerEvent → Prop
  | .enqueue _ op _ => op.value ≠ [] → s.proxy.encryptionEngine.RoundTrips op.value
  | .read _ slots => ∀ c f, s.flights c = some f → ∀ slot ∈ slots, slot.label ∉ f.handed
  | .serve c slot _ => s.HandsUpdate slot →
      (∀ f, s.flights c = some f → slot.label ∉ f.todo.tail.map fun p => p.1.label) ∧
      ∀ c' f, c' ≠ c → s.flights c' = some f → slot.label ∉ f.labels
  | .write _ => True

/-- A step that is taken and that the state admits. -/
structure AdmittedStep (s : Consumers) (e : ConsumerEvent) (s' : Consumers) : Prop where
  taken : Interleaves s e s'
  admitted : s.Admits e

/-! ## The scheme behind it -/

/-- The decryption of a ciphertext. -/
def plainOf (e : EncryptionEngine) (cipher : Str) : Str :=
  match e.decrypt cipher with
  | .ok x => x
  | .error _ => []

theorem plainOf_encrypt {e : EncryptionEngine} {x c : Str} (hx : e.RoundTrips x)
    (hc : e.encrypt x = .ok c) : plainOf e c = x := by
  obtain ⟨c', hc', hd⟩ := hx
  rw [hc] at hc'
  cases hc'
  rw [plainOf, hd]

/-- The abstract access of an operation of a batch. -/
def BatchSlot.access (labelOf : Str → Nat → Str) (slot : BatchSlot) : Access Str Str Str :=
  Proxy.accessOf labelOf slot.operation slot.promise.isSome slot.replicaId

/-- The abstract batch under way. -/
def BatchInFlight.flight (st : Proxy) (f : BatchInFlight) : Flight Str Str Str where
  todo := f.todo.map fun p => (p.1.access st.labelOf, plainOf st.encryptionEngine p.2)
  done := f.done.map fun p => (p.1.access st.labelOf, plainOf st.encryptionEngine p.2)
  handed := f.handed

/-- No thread can get stuck: the proxy is sound, what clients put can be
encrypted, every operation of a batch goes to a live replica under its label,
what was read for it can be decrypted, and what is to be written back decrypts
again. -/
structure Running (s : Consumers) : Prop where
  sound : s.proxy.Sound
  queued : ∀ c, ∀ x ∈ s.queues c, x.1.value ≠ [] → s.proxy.encryptionEngine.RoundTrips x.1.value
  live : ∀ c f, s.flights c = some f → ∀ p ∈ f.todo ++ f.done,
    p.1.replicaId < s.proxy.replicas p.1.operation.key
  label : ∀ c f, s.flights c = some f → ∀ p ∈ f.todo ++ f.done,
    p.1.label = s.proxy.labelOf p.1.operation.key p.1.replicaId
  todo : ∀ c f, s.flights c = some f → ∀ p ∈ f.todo,
    (∃ x, s.proxy.encryptionEngine.decrypt p.2 = .ok x ∧ s.proxy.encryptionEngine.RoundTrips x) ∧
    (p.1.operation.value ≠ [] → s.proxy.encryptionEngine.RoundTrips p.1.operation.value)
  done : ∀ c f, s.flights c = some f → ∀ p ∈ f.done, ∃ x,
    s.proxy.encryptionEngine.RoundTrips x ∧ s.proxy.encryptionEngine.encrypt x = .ok p.2

/-- The state moreover serves `cur`, the current value of every key. -/
structure Serving (s : Consumers) (cur : Str → Str) : Prop extends Running s where
  distinct : DistinctLabels s.proxy.replicas s.proxy.labelOf
  current : Current s.proxy.replicas s.proxy.labelOf cur s.proxy.updateCache.waiting s.proxy.plain
    (fun c => (s.flights c).map (·.flight s.proxy))

/-- **Initially**: a sound proxy with nothing under way. -/
theorem Proxy.Sound.running {st : Proxy} (h : st.Sound) : Running { proxy := st } where
  sound := h
  queued _ _ hx := by cases hx
  live _ _ hf := by cases hf
  label _ _ hf := by cases hf
  todo _ _ hf := by cases hf
  done _ _ hf := by cases hf

/-- **Initially**: a consistent proxy with nothing under way. -/
theorem Proxy.Consistent.serving {st : Proxy} {cur : Str → Str} (h : st.Consistent cur) :
    Serving { proxy := st } cur where
  toRunning := h.toSound.running
  distinct := h.distinct
  current := Current.of_coherent h.coherent

/-! ## Slots and accesses -/

theorem accesses_slots (lab : Str → Nat → Str) (slots : List BatchSlot) :
    Proxy.accesses lab (slots.map BatchSlot.operation) (slots.map (·.promise.isSome))
      (slots.map BatchSlot.replicaId) = slots.map (·.access lab) := by
  induction slots with
  | nil => rfl
  | cons slot slots ih => simp [Proxy.accesses, ih, BatchSlot.access]

/-- The labels of a list of slots are those of its accesses. -/
theorem map_label_access {st : Proxy} {ps : List (BatchSlot × Str)}
    (h : ∀ p ∈ ps, p.1.label = st.labelOf p.1.operation.key p.1.replicaId) :
    (ps.map fun p => (p.1.access st.labelOf, plainOf st.encryptionEngine p.2)).map
      (fun p => p.1.label) = ps.map fun p => p.1.label := by
  rw [List.map_map]
  exact List.map_inj_left.mpr fun p hp => (h p hp).symm

/-- Nothing a flight stands for depends on more than the labels and the key. -/
theorem BatchInFlight.flight_frame {st st' : Proxy} (h : Proxy.Frame st st') (f : BatchInFlight) :
    f.flight st' = f.flight st := by
  rw [flight, flight, h.labelOf, h.engine]

/-- The flights after one consumer's changes. -/
theorem map_update_flight (flights : Nat → Option BatchInFlight) (st : Proxy) (c : Nat)
    (f : Option BatchInFlight) :
    (fun c' => (Function.update flights c f c').map (·.flight st))
      = Function.update (fun c' => (flights c').map (·.flight st)) c (f.map (·.flight st)) :=
  Function.comp_update (Option.map (BatchInFlight.flight st)) flights c f

theorem Proxy.Sound.of_frame {st st' : Proxy} (h : st.Sound) (hf : Proxy.Frame st st')
    (hcache : st'.updateCache = st.updateCache)
    (hmissing : st'.missingNewReplicas = st.missingNewReplicas)
    (hreadable : ∀ l, Readable st.encryptionEngine st.storage.contents l →
      Readable st.encryptionEngine st'.storage.contents l) : st'.Sound where
  fits := by rw [hcache, hf.replicas]; exact h.fits
  noMissing key := by rw [hmissing]; exact h.noMissing key
  readable k i hi := by
    rw [hf.replicas] at hi
    rw [hf.engine, hf.labelOf]
    exact hreadable _ (h.readable k i hi)
  values :=
    { waiting := by rw [hcache, hf.engine]; exact h.values.waiting
      put := by simp }

/-! ## What each step does -/

/-- What reading the labels of `slots` has done. -/
structure Proxy.SlotsRead (st : Proxy) (slots : List BatchSlot) (st' : Proxy) : Prop where
  frame : Frame st st'
  updateCache : st'.updateCache = st.updateCache
  missing : st'.missingNewReplicas = st.missingNewReplicas
  contents : st'.storage.contents = st.storage.contents
  live : ∀ slot ∈ slots, slot.replicaId < st.replicas slot.operation.key
  label : ∀ slot ∈ slots, slot.label = st.labelOf slot.operation.key slot.replicaId
  readable : ∀ slot ∈ slots, Readable st.encryptionEngine st.storage.contents slot.label

/-- The look-ups leave defaults behind, and the server a request; what is
read is what is stored. -/
theorem Proxy.Sound.slotsRead {st st₁ : Proxy} (h : st.Sound) {slots : List BatchSlot}
    {ciphers : List Str} {server : Server}
    (hdrawn : (st.chooseReplicas (slots.map BatchSlot.operation)
      (slots.map (·.promise.isSome))).Possible (.ok (slots.map BatchSlot.replicaId)))
    (hresolve : st.resolve (slots.map BatchSlot.operation) (slots.map BatchSlot.replicaId)
      = (st₁, slots.map BatchSlot.label))
    (hget : st₁.storage.getBatch (slots.map BatchSlot.label) = .ok (ciphers, server)) :
    st.SlotsRead slots (st₁.withStorage server) ∧
      ciphers = slots.map fun slot => UnorderedMap.at_ st.storage.contents slot.label := by
  obtain ⟨hfr, hsame⟩ := frame_resolve (slots.map BatchSlot.operation) st
    (slots.map BatchSlot.replicaId)
  have hlabels := resolve_labels (slots.map BatchSlot.operation) st
    (slots.map (·.promise.isSome)) (slots.map BatchSlot.replicaId) (by simp) (by simp)
  simp only [hresolve, accesses_slots, List.map_map] at hfr hsame hlabels
  have hlab : ∀ slot ∈ slots, slot.label = st.labelOf slot.operation.key slot.replicaId :=
    List.map_inj_left.mp hlabels
  have hlive : ∀ slot ∈ slots, slot.replicaId < st.replicas slot.operation.key := by
    have hids := (possible_chooseReplicas h.noMissing (by simp)).mp hdrawn
    rw [List.forall₂_map_left_iff, List.forall₂_map_right_iff, List.forall₂_same] at hids
    exact hids
  have hreadable : ∀ slot ∈ slots,
      Readable st.encryptionEngine st.storage.contents slot.label := by
    intro slot hslot
    rw [hlab slot hslot]
    exact h.readable _ _ (hlive slot hslot)
  obtain ⟨values, hvalues, hrest⟩ := bind_eq_ok.mp hget
  obtain ⟨rfl, rfl⟩ := Prod.mk.inj (Except.ok.inj hrest)
  rw [hsame.storage, Server.readAll_eq_ok] at hvalues
  · constructor
    · exact
        { frame := hfr.trans (frame_withStorage st₁ _)
          updateCache := hsame.updateCache
          missing := hsame.missing
          contents := show st₁.storage.contents = _ by rw [hsame.storage]
          live := hlive
          label := hlab
          readable := hreadable }
    · rw [← Except.ok.inj hvalues, List.map_map]
      rfl
  · intro l hl
    obtain ⟨slot, hslot, rfl⟩ := List.mem_map.mp hl
    obtain ⟨cipher, -, hc, -⟩ := hreadable slot hslot
    exact ⟨cipher, hc⟩

/-- What serving an operation has done: `x` is its value and `out` its
encryption. -/
structure Proxy.SlotServed (st : Proxy) (slot : BatchSlot) (cipher : Str) (cache : UpdateCache)
    (x out : Str) : Prop where
  returns : st.serve slot.operation slot.replicaId cipher = .ok (st.withCache cache, x)
  encrypted : st.encryptionEngine.encrypt x = .ok out
  value : x = LazyReplicas.value st.replicas st.updateCache.waiting (slot.access st.labelOf)
    (plainOf st.encryptionEngine cipher)
  roundTrips : st.encryptionEngine.RoundTrips x
  waiting : cache.waiting = st.updateCache.waiting.after st.replicas (slot.access st.labelOf)
  sound : (st.withCache cache).Sound

section Steps

variable {s s' : Consumers}

/-- The next operation of a batch can be served. -/
theorem Running.slotServed (h : Running s) {c : Nat} {f : BatchInFlight}
    (hf : s.flights c = some f) {slot : BatchSlot} {cipher : Str} {rest : List (BatchSlot × Str)}
    (htodo : f.todo = (slot, cipher) :: rest) :
    ∃ cache x out, s.proxy.SlotServed slot cipher cache x out := by
  obtain ⟨⟨old, hd, hold⟩, hput⟩ := h.todo c f hf (slot, cipher) (by simp [htodo])
  have hlive : slot.replicaId < s.proxy.replicas slot.operation.key :=
    h.live c f hf (slot, cipher) (by simp [htodo])
  have hvalues : s.proxy.ValuesRoundTrip [slot.operation] := by
    refine ⟨h.sound.values.waiting, fun op hop hne => ?_⟩
    rw [List.mem_singleton] at hop
    subst hop
    exact hput hne
  obtain ⟨hrun, hwait, hfits⟩ := Proxy.serve_spec ⟨hlive, h.sound.fits, h.sound.noMissing _⟩ hd
    slot.promise.isSome
  have hx := hvalues.value hold slot.promise.isSome slot.replicaId
  obtain ⟨out, hout, -⟩ := (show s.proxy.encryptionEngine.RoundTrips _ from hx)
  refine ⟨_, _, out, hrun, hout, ?_, hx, hwait, ?_⟩
  · rw [plainOf, hd]
    rfl
  · exact
      { fits := hfits
        noMissing := h.sound.noMissing
        readable := h.sound.readable
        values := hvalues.tail hwait }

/-- What a step that serves does. -/
theorem Running.serve_cases (h : Running s) {c : Nat} {slot : BatchSlot} {x : Str}
    (hs : Interleaves s (.serve c slot x) s') :
    ∃ f cipher rest cache out, s.flights c = some f ∧ f.todo = (slot, cipher) :: rest ∧
      s.proxy.SlotServed slot cipher cache x out ∧
      s' = { s with
        proxy := s.proxy.withCache cache
        flights := Function.update s.flights c (some (s.serveFirst f slot out rest)) } := by
  cases hs with
  | @serve _ f _ cipher _ out rest st hf htodo hserve henc =>
      obtain ⟨cache, x', out', hx⟩ := h.slotServed hf htodo
      obtain ⟨rfl, rfl⟩ := Prod.mk.inj (Except.ok.inj (hserve.symm.trans hx.returns))
      obtain rfl := Except.ok.inj (henc.symm.trans hx.encrypted)
      exact ⟨f, cipher, rest, cache, out, hf, htodo, hx, rfl⟩

/-- What a step that reads does. -/
theorem Running.read_cases (h : Running s) {c : Nat} {slots : List BatchSlot}
    (hs : Interleaves s (.read c slots) s') :
    ∃ rest st, s.flights c = none ∧ s.queues c = realOperations slots ++ rest ∧
      (∀ slot ∈ slots, slot.promise = none → slot.operation.value = []) ∧
      s.proxy.SlotsRead slots st ∧
      s' = { s with
        proxy := st
        queues := Function.update s.queues c rest
        flights := Function.update s.flights c (some { todo := slots.map fun slot =>
          (slot, UnorderedMap.at_ s.proxy.storage.contents slot.label) }) } := by
  cases hs with
  | @read _ _ rest st ciphers server hidle hqueue hfake hdrawn hresolve hget =>
      obtain ⟨hread, rfl⟩ := h.sound.slotsRead hdrawn hresolve hget
      refine ⟨rest, _, hidle, hqueue, hfake, hread, ?_⟩
      rw [List.map_prod_left_eq_zip]

/-- What a step that writes back does. -/
theorem Running.write_cases (h : Running s) {c : Nat} (hs : Interleaves s (.write c) s') :
    ∃ f server, s.flights c = some f ∧ f.todo = [] ∧
      (s.proxy.withStorage server).plain = writeDone s.proxy.plain (f.flight s.proxy).done ∧
      (∀ l, Readable s.proxy.encryptionEngine s.proxy.storage.contents l →
        Readable s.proxy.encryptionEngine server.contents l) ∧
      s' = { s with
        proxy := s.proxy.withStorage server
        flights := Function.update s.flights c none } := by
  cases hs with
  | @write _ f hf htodo =>
  set xs := f.done.map fun p => plainOf s.proxy.encryptionEngine p.2 with hxs
  have hround : ∀ x ∈ xs, s.proxy.encryptionEngine.RoundTrips x := by
    intro y hy
    obtain ⟨p, hp, rfl⟩ := List.mem_map.mp hy
    obtain ⟨x, hx, henc⟩ := h.done c f hf p hp
    rwa [plainOf_encrypt hx henc]
  have henc : Encrypts s.proxy.encryptionEngine xs (f.done.map Prod.snd) := by
    rw [Encrypts, hxs, List.forall₂_map_left_iff, List.forall₂_map_right_iff, List.forall₂_same]
    intro p hp
    obtain ⟨x, hx, henc⟩ := h.done c f hf p hp
    rwa [plainOf_encrypt hx henc]
  refine ⟨f, _, hf, htodo, ?_, fun l hl => hl.insertAll hround henc, rfl⟩
  have hlabels : f.done.map (fun p => p.1.label)
      = (f.done.map fun p => p.1.access s.proxy.labelOf).map Access.label := by
    rw [List.map_map]
    exact List.map_inj_left.mpr fun p hp => h.label c f hf p (by simp [hp])
  rw [writeDone_eq_writeBack, BatchInFlight.flight, List.map_map, List.map_map, Proxy.plain,
    (Proxy.frame_withStorage _ _).engine, Proxy.withStorage_storage, Server.putBatch_contents,
    hlabels, plainText_insertAll hround henc]
  rfl

/-! ## No thread gets stuck -/

/-- **Enqueueing** leaves the proxy alone. -/
theorem Running.enqueue (h : Running s) {c : Nat} {op : Operation}
    (hop : op.value ≠ [] → s.proxy.encryptionEngine.RoundTrips op.value) :
    Running (s.enqueue c op) where
  sound := h.sound
  queued c' x hx := by
    by_cases hc : c' = c
    · subst hc
      simp only [Consumers.enqueue, Function.update_self, List.mem_append,
        List.mem_singleton] at hx
      rcases hx with hx | rfl
      · exact h.queued c' x hx
      · exact hop
    · simp only [Consumers.enqueue, Function.update_of_ne hc] at hx
      exact h.queued c' x hx
  live := h.live
  label := h.label
  todo := h.todo
  done := h.done

/-- **Reading** a batch. -/
theorem Running.read (h : Running s) {c : Nat} {slots : List BatchSlot}
    (hs : Interleaves s (.read c slots) s') : Running s' := by
  obtain ⟨rest, st, hidle, hqueue, hfake, hread, rfl⟩ := h.read_cases hs
  have hfr := hread.frame
  exact
    { sound := h.sound.of_frame hfr hread.updateCache hread.missing fun l hl => by
        rwa [hread.contents]
      queued := fun c' x hx => by
        rw [hfr.engine]
        dsimp only at hx
        by_cases hc : c' = c
        · subst hc
          rw [Function.update_self] at hx
          exact h.queued c' x (by rw [hqueue]; exact List.mem_append_right _ hx)
        · rw [Function.update_of_ne hc] at hx
          exact h.queued c' x hx
      live := fun c' g hg p hp => by
        rw [hfr.replicas]
        rcases flights_update hg with ⟨-, rfl⟩ | ⟨-, hold⟩
        · rw [List.append_nil] at hp
          obtain ⟨slot, hslot, rfl⟩ := List.mem_map.mp hp
          exact hread.live slot hslot
        · exact h.live c' g hold p hp
      label := fun c' g hg p hp => by
        rw [hfr.labelOf]
        rcases flights_update hg with ⟨-, rfl⟩ | ⟨-, hold⟩
        · rw [List.append_nil] at hp
          obtain ⟨slot, hslot, rfl⟩ := List.mem_map.mp hp
          exact hread.label slot hslot
        · exact h.label c' g hold p hp
      todo := fun c' g hg p hp => by
        rw [hfr.engine]
        rcases flights_update hg with ⟨-, rfl⟩ | ⟨-, hold⟩
        · obtain ⟨slot, hslot, rfl⟩ := List.mem_map.mp hp
          have hr := hread.readable slot hslot
          refine ⟨⟨_, hr.decrypt, hr.roundTrips⟩, fun hne => ?_⟩
          -- only a real operation puts, and it was queued
          cases hpr : slot.promise with
          | none => exact absurd (hfake slot hslot hpr) hne
          | some pr =>
              refine h.queued c (slot.operation, pr) ?_ hne
              rw [hqueue]
              exact List.mem_append_left _ (List.mem_filterMap.mpr ⟨slot, hslot, by simp [hpr]⟩)
        · exact h.todo c' g hold p hp
      done := fun c' g hg p hp => by
        rw [hfr.engine]
        rcases flights_update hg with ⟨-, rfl⟩ | ⟨-, hold⟩
        · cases hp
        · exact h.done c' g hold p hp }

/-- **Serving** an operation. -/
theorem Running.serve (h : Running s) {c : Nat} {slot : BatchSlot} {x : Str}
    (hs : Interleaves s (.serve c slot x) s') : Running s' := by
  obtain ⟨f, cipher, rest, cache, out, hf, htodo, hx, rfl⟩ := h.serve_cases hs
  have hmem : ∀ p ∈ (s.serveFirst f slot out rest).todo ++ (s.serveFirst f slot out rest).done,
      ∃ q ∈ f.todo ++ f.done, p.1 = q.1 := by
    intro p hp
    simp only [Consumers.serveFirst, List.mem_append, List.mem_singleton] at hp
    rcases hp with hp | hp | rfl
    · exact ⟨p, by simp [htodo, hp], rfl⟩
    · exact ⟨p, by simp [hp], rfl⟩
    · exact ⟨(slot, cipher), by simp [htodo], rfl⟩
  exact
    { sound := hx.sound
      queued := h.queued
      live := fun c' g hg p hp => by
        rcases flights_update hg with ⟨-, rfl⟩ | ⟨-, hold⟩
        · obtain ⟨q, hq, he⟩ := hmem p hp
          rw [he]
          exact h.live c f hf q hq
        · exact h.live c' g hold p hp
      label := fun c' g hg p hp => by
        rcases flights_update hg with ⟨-, rfl⟩ | ⟨-, hold⟩
        · obtain ⟨q, hq, he⟩ := hmem p hp
          rw [he]
          exact h.label c f hf q hq
        · exact h.label c' g hold p hp
      todo := fun c' g hg p hp => by
        rcases flights_update hg with ⟨-, rfl⟩ | ⟨-, hold⟩
        · exact h.todo c f hf p (by rw [htodo]; exact List.mem_cons_of_mem _ hp)
        · exact h.todo c' g hold p hp
      done := fun c' g hg p hp => by
        rcases flights_update hg with ⟨-, rfl⟩ | ⟨-, hold⟩
        · simp only [Consumers.serveFirst, List.mem_append, List.mem_singleton] at hp
          rcases hp with hp | rfl
          · exact h.done c f hf p hp
          · exact ⟨x, hx.roundTrips, hx.encrypted⟩
        · exact h.done c' g hold p hp }

/-- **Writing back** a batch. -/
theorem Running.write (h : Running s) {c : Nat} (hs : Interleaves s (.write c) s') :
    Running s' := by
  obtain ⟨f, server, -, -, -, hreadable, rfl⟩ := h.write_cases hs
  have hothers : ∀ c' g, Function.update s.flights c none c' = some g → s.flights c' = some g :=
    fun c' g hg => (flights_update_none hg).2
  exact
    { sound := h.sound.of_frame (Proxy.frame_withStorage _ _) rfl rfl hreadable
      queued := h.queued
      live := fun c' g hg => h.live c' g (hothers c' g hg)
      label := fun c' g hg => h.label c' g (hothers c' g hg)
      todo := fun c' g hg => h.todo c' g (hothers c' g hg)
      done := fun c' g hg => h.done c' g (hothers c' g hg) }

/-- **The step**: whatever the interleaving, no thread gets stuck. -/
theorem Interleaves.running {e : ConsumerEvent} (hs : Interleaves s e s') (h : Running s)
    (he : ∀ c op p, e = .enqueue c op p → op.value ≠ [] →
      s.proxy.encryptionEngine.RoundTrips op.value) : Running s' := by
  cases e with
  | enqueue c op p =>
      cases hs
      exact h.enqueue (he c op _ rfl)
  | read c slots => exact h.read hs
  | serve c slot value => exact h.serve hs
  | write c => exact h.write hs

/-- A batch under way always has a next step. -/
theorem Running.exists_step (h : Running s) {c : Nat} {f : BatchInFlight}
    (hf : s.flights c = some f) : ∃ e s', Interleaves s e s' ∧
      (e = .write c ∨ ∃ slot value, e = .serve c slot value) := by
  cases htodo : f.todo with
  | nil => exact ⟨.write c, _, .write hf htodo, .inl rfl⟩
  | cons p rest =>
      obtain ⟨cache, x, out, hx⟩ := h.slotServed hf htodo
      exact ⟨.serve c p.1 x, _, .serve hf htodo hx.returns hx.encrypted, .inr ⟨_, _, rfl⟩⟩

/-- An idle consumer can read any batch of live replicas. -/
theorem Running.exists_read (h : Running s) {c : Nat} (hidle : s.flights c = none)
    {slots : List BatchSlot} {rest : List (Operation × Promise)}
    (hqueue : s.queues c = realOperations slots ++ rest)
    (hfake : ∀ slot ∈ slots, slot.promise = none → slot.operation.value = [])
    (hlive : ∀ slot ∈ slots, slot.replicaId < s.proxy.replicas slot.operation.key)
    (hlabel : ∀ slot ∈ slots, slot.label = s.proxy.labelOf slot.operation.key slot.replicaId) :
    ∃ s', Interleaves s (.read c slots) s' := by
  obtain ⟨-, hsame⟩ := Proxy.frame_resolve (slots.map BatchSlot.operation) s.proxy
    (slots.map BatchSlot.replicaId)
  have hlabels := Proxy.resolve_labels (slots.map BatchSlot.operation) s.proxy
    (slots.map (·.promise.isSome)) (slots.map BatchSlot.replicaId) (by simp) (by simp)
  have hmap : slots.map BatchSlot.label
      = slots.map (Access.label ∘ fun slot => slot.access s.proxy.labelOf) :=
    List.map_inj_left.mpr hlabel
  rw [accesses_slots, List.map_map, ← hmap] at hlabels
  have hread : ∀ l ∈ slots.map BatchSlot.label, ∃ cipher,
      s.proxy.storage.contents.lookup l = some cipher := by
    intro l hl
    obtain ⟨slot, hslot, rfl⟩ := List.mem_map.mp hl
    rw [hlabel slot hslot]
    obtain ⟨cipher, -, hc, -⟩ := h.sound.readable _ _ (hlive slot hslot)
    exact ⟨cipher, hc⟩
  have hdrawn : (s.proxy.chooseReplicas (slots.map BatchSlot.operation)
      (slots.map (·.promise.isSome))).Possible (.ok (slots.map BatchSlot.replicaId)) := by
    rw [Proxy.possible_chooseReplicas h.sound.noMissing (by simp), List.forall₂_map_left_iff,
      List.forall₂_map_right_iff, List.forall₂_same]
    exact hlive
  obtain ⟨ciphers, server, hget⟩ : ∃ ciphers server,
      (s.proxy.resolve (slots.map BatchSlot.operation)
        (slots.map BatchSlot.replicaId)).1.storage.getBatch (slots.map BatchSlot.label)
        = .ok (ciphers, server) := by
    rw [hsame.storage, Server.getBatch, Server.readAll_eq_ok hread]
    exact ⟨_, _, rfl⟩
  exact ⟨_, .read hidle hqueue hfake hdrawn (Prod.ext rfl hlabels) hget⟩

/-! ## What the operations see -/

/-- The labels a batch has read are those of the flight it stands for. -/
theorem Running.flight_labels (h : Running s) {c : Nat} {f : BatchInFlight}
    (hf : s.flights c = some f) : (f.flight s.proxy).labels = f.labels := by
  rw [Flight.labels, BatchInFlight.flight, ← List.map_append]
  exact map_label_access (h.label c f hf)

/-- An update is handed over in the scheme when it is by the proxy. -/
theorem handsUpdate_iff {slot : BatchSlot}
    (hlive : slot.replicaId < s.proxy.replicas slot.operation.key) :
    (s.proxy.updateCache.waiting.delivered s.proxy.replicas
      (slot.access s.proxy.labelOf)).isSome ↔ s.HandsUpdate slot := by
  by_cases hv : slot.operation.value = []
  · rw [Waiting.delivered_of_read (by simp [BatchSlot.access, Proxy.accessOf, hv])]
    simp [Consumers.HandsUpdate, hv, BatchSlot.access, Proxy.accessOf]
  · rw [Waiting.delivered_of_write (v := slot.operation.value)
      (by simp [BatchSlot.access, Proxy.accessOf, hv]) hlive]
    simp [Consumers.HandsUpdate, hv]

variable {cur : Str → Str}

theorem Serving.enqueue (h : Serving s cur) {c : Nat} {op : Operation}
    (hop : op.value ≠ [] → s.proxy.encryptionEngine.RoundTrips op.value) :
    Serving (s.enqueue c op) cur where
  toRunning := h.toRunning.enqueue hop
  distinct := h.distinct
  current := h.current

/-- **Reading** a batch whose labels have no update on its way back. -/
theorem Serving.read (h : Serving s cur) {c : Nat} {slots : List BatchSlot}
    (hadm : s.Admits (.read c slots)) (hs : Interleaves s (.read c slots) s') :
    Serving s' cur := by
  have hrunning := h.toRunning.read hs
  obtain ⟨rest, st, hidle, -, -, hread, rfl⟩ := h.read_cases hs
  have hfr := hread.frame
  have hplain : st.plain = s.proxy.plain := by
    rw [Proxy.plain, Proxy.plain, hfr.engine, hread.contents]
  refine { hrunning with distinct := ?_, current := ?_ }
  · rw [hfr.replicas, hfr.labelOf]
    exact h.distinct
  · have hflight : BatchInFlight.flight s.proxy { todo := slots.map fun slot =>
          (slot, UnorderedMap.at_ s.proxy.storage.contents slot.label) } =
        ⟨(slots.map (·.access s.proxy.labelOf)).map (fun a => (a, s.proxy.plain a.label)),
          [], []⟩ := by
      rw [BatchInFlight.flight, List.map_map, List.map_map]
      congr 1
      refine List.map_inj_left.mpr fun slot hslot => ?_
      simp only [Function.comp_apply, plainOf, (hread.readable slot hslot).decrypt]
      rw [hread.label slot hslot]
      rfl
    simp only [hfr.replicas, hfr.labelOf, hread.updateCache, hplain,
      BatchInFlight.flight_frame hfr, map_update_flight, Option.map_some, hflight]
    refine h.current.read (by simp [hidle]) (fun a ha => ?_) fun c' g hg a ha => ?_
    · obtain ⟨slot, hslot, rfl⟩ := List.mem_map.mp ha
      exact ⟨hread.live slot hslot, rfl⟩
    · obtain ⟨slot, hslot, rfl⟩ := List.mem_map.mp ha
      obtain ⟨g', hg', rfl⟩ := Option.map_eq_some_iff.mp hg
      have hfree := hadm c' g' hg' slot hslot
      rwa [hread.label slot hslot] at hfree

/-- **Serving** an operation gives it its key's current value, its own put
included. -/
theorem Serving.serve (h : Serving s cur) {c : Nat} {slot : BatchSlot} {x : Str}
    (hadm : s.Admits (.serve c slot x)) (hs : Interleaves s (.serve c slot x) s') :
    x = LazyReplicas.current cur (slot.access s.proxy.labelOf) slot.operation.key ∧
      Serving s' (LazyReplicas.current cur (slot.access s.proxy.labelOf)) := by
  have hrunning := h.toRunning.serve hs
  obtain ⟨f, cipher, rest, cache, out, hf, htodo, hx, rfl⟩ := h.serve_cases hs
  have hflight : (s.flights c).map (·.flight s.proxy) = some (f.flight s.proxy) := by rw [hf]; rfl
  have htodo' : (f.flight s.proxy).todo
      = (slot.access s.proxy.labelOf, plainOf s.proxy.encryptionEngine cipher) ::
        rest.map fun p => (p.1.access s.proxy.labelOf, plainOf s.proxy.encryptionEngine p.2) := by
    simp [BatchInFlight.flight, htodo]
  have hmem : (slot, cipher) ∈ f.todo ++ f.done := by simp [htodo]
  have hlive : slot.replicaId < s.proxy.replicas slot.operation.key := h.live c f hf _ hmem
  have hlab : slot.label = (slot.access s.proxy.labelOf).label := h.label c f hf _ hmem
  have hfr : Proxy.Frame s.proxy (s.proxy.withCache cache) := Proxy.frame_withCache s.proxy cache
  -- the batch once served is the flight once served
  have hserved : (s.serveFirst f slot out rest).flight s.proxy
      = (f.flight s.proxy).served s.proxy.replicas s.proxy.updateCache.waiting
          (slot.access s.proxy.labelOf) (plainOf s.proxy.encryptionEngine cipher)
          (rest.map fun p => (p.1.access s.proxy.labelOf, plainOf s.proxy.encryptionEngine p.2)) := by
    simp only [BatchInFlight.flight, Consumers.serveFirst, Flight.served, List.map_append,
      List.map_cons, List.map_nil, plainOf_encrypt hx.roundTrips hx.encrypted, ← hx.value]
    congr 1
    by_cases hh : s.HandsUpdate slot
    · rw [if_pos hh, if_pos ((handsUpdate_iff hlive).mpr hh), hlab]
    · rw [if_neg hh, if_neg fun hc => hh ((handsUpdate_iff hlive).mp hc)]
  refine ⟨hx.value.trans (h.current.value_eq hflight htodo'),
    { hrunning with distinct := h.distinct, current := ?_ }⟩
  simp only [BatchInFlight.flight_frame hfr, map_update_flight, Option.map_some, hserved,
    Proxy.withCache_updateCache, hx.waiting]
  refine h.current.serve hflight htodo' h.distinct fun hd => ?_
  obtain ⟨hrest, hothers⟩ := hadm ((handsUpdate_iff hlive).mp hd)
  rw [← hlab]
  constructor
  · rw [map_label_access fun p hp => h.label c f hf p (by simp [htodo, hp])]
    simpa [htodo] using hrest f hf
  · intro c' g hne hg
    obtain ⟨g', hg', rfl⟩ := Option.map_eq_some_iff.mp hg
    rw [h.flight_labels hg']
    exact hothers c' g' hne hg'

/-- **Writing back** a batch: where no update is pending the values written
are current. -/
theorem Serving.write (h : Serving s cur) {c : Nat} (hs : Interleaves s (.write c) s') :
    (∀ f, s.flights c = some f → ∀ key i, i < s.proxy.replicas key →
      s.proxy.updateCache.waiting key i = none → s.proxy.labelOf key i ∈ f.labels →
      s'.proxy.plain (s.proxy.labelOf key i) = cur key) ∧
    Serving s' cur := by
  have hrunning := h.toRunning.write hs
  obtain ⟨f, server, hf, htodo, hplain, -, rfl⟩ := h.write_cases hs
  have hfr : Proxy.Frame s.proxy (s.proxy.withStorage server) := Proxy.frame_withStorage _ _
  have hflight : (s.flights c).map (·.flight s.proxy) = some (f.flight s.proxy) := by rw [hf]; rfl
  have htodo' : (f.flight s.proxy).todo = [] := by rw [BatchInFlight.flight, htodo]; rfl
  obtain ⟨hwritten, hcur⟩ := h.current.write hflight htodo'
  refine ⟨fun g hg key i hi hn hmem => ?_, { hrunning with distinct := h.distinct, current := ?_ }⟩
  · obtain rfl := Option.some.inj (hf.symm.trans hg)
    rw [hplain]
    exact hwritten key i hi hn (by rwa [h.flight_labels hf])
  · simp only [BatchInFlight.flight_frame hfr, map_update_flight, Option.map_none, hplain]
    exact hcur

end Steps

end Pancake
