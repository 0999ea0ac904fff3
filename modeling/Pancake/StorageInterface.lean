import Pancake.LabelSequences
import Pancake.Redis

/-!
# The storage behind the interface

`execute_batch` reads and writes through `storage_interface`. The model of the
proxy keeps one map there; the program has a cluster of servers. Here the call
is made over any interface. `Backs` is what an interface has to keep for the
runs over it to be those over the map.
-/

namespace Pancake

/-- `storage_interface`, as `execute_batch` uses it. -/
structure StorageInterface (S : Type) where
  getBatch : S → List Str → Except StorageFault (List Str)
  putBatch : S → List Str → List Str → Except StorageFault S

/-- How a call over an interface can fail to return. -/
inductive CallFault where
  | fault (f : Fault)
  | storage (f : StorageFault)
  deriving DecidableEq

/-- A proxy, and the storage behind its interface. Its own map is not used. -/
structure Deployed (S : Type) where
  proxy : Proxy
  storage : S

namespace Deployed

variable {S : Type}

/-- `execute_batch`, with the replica ids given, over an interface. -/
def executeBatchWith (I : StorageInterface S) (d : Deployed S) (b : Batch) (replicaIds : List Nat) :
    Except CallFault (Deployed S × List (Promise × Str)) := do
  let (st, storageKeys) := d.proxy.resolve b.operations replicaIds
  let responses ← (I.getBatch d.storage storageKeys).mapError .storage
  let (st, storageValues, fulfilled) ←
    (st.serveAll b.operations b.isTrues replicaIds responses b.promises).mapError .fault
  let storage ← (I.putBatch d.storage storageKeys storageValues).mapError .storage
  .ok (⟨st, storage⟩, fulfilled)

/-- `execute_batch` takes `d` to `d'`, with one outcome of its draws. -/
structure Executes (I : StorageInterface S) (d : Deployed S) (c : Call) (d' : Deployed S) :
    Prop where
  drawn : (d.proxy.chooseReplicas c.batch.operations c.batch.isTrues).Possible (.ok c.replicaIds)
  returns : d.executeBatchWith I c.batch c.replicaIds = .ok (d', c.fulfilled)

end Deployed

/-! ## The call does not touch the map -/

namespace Proxy

theorem chooseReplicas_withStorage (st : Proxy) (storage : Server) (ops : List Operation) :
    ∀ isTrues : List Bool,
      (st.withStorage storage).chooseReplicas ops isTrues = st.chooseReplicas ops isTrues := by
  induction ops with
  | nil => intro isTrues; rfl
  | cons op ops ih =>
      intro isTrues
      cases isTrues with
      | nil => rfl
      | cons t isTrues =>
          rw [chooseReplicas, chooseReplicas]
          simp only [ih]
          rfl

theorem resolve_withStorage (storage : Server) (ops : List Operation) :
    ∀ (st : Proxy) (ids : List Nat), (st.withStorage storage).resolve ops ids
      = ((st.resolve ops ids).1.withStorage storage, (st.resolve ops ids).2) := by
  induction ops with
  | nil => intro st ids; cases ids <;> rfl
  | cons op ops ih =>
      intro st ids
      cases ids with
      | nil => rfl
      | cons id ids =>
          have hrest := ih (st.lookUp op.key id) ids
          show (_, _ :: (((st.lookUp op.key id).withStorage storage).resolve ops ids).2) = _
          rw [show ((st.withStorage storage).lookUp op.key id) =
            (st.lookUp op.key id).withStorage storage from rfl, hrest]
          rfl

theorem serve_withStorage (st : Proxy) (storage : Server) (op : Operation) (id : Nat)
    (cipher : Str) : (st.withStorage storage).serve op id cipher
      = (st.serve op id cipher).map fun r => (r.1.withStorage storage, r.2) := by
  unfold serve
  show (st.encryptionEngine.decrypt cipher >>= _) = _
  cases st.encryptionEngine.decrypt cipher with
  | error e => rfl
  | ok plaintext =>
      simp only [ok_bind]
      show ((if op.value ≠ [] then
          st.updateCache.populateReplicaUpdates op.key op.value (st.replicas op.key)
        else st.updateCache).checkForUpdate op.key id >>= _) = _
      cases (if op.value ≠ [] then
          st.updateCache.populateReplicaUpdates op.key op.value (st.replicas op.key)
        else st.updateCache).checkForUpdate op.key id with
      | error e => rfl
      | ok r =>
          simp only [ok_bind]
          show (st.missingNewReplicas.checkIfMissing op.key _ r.2 >>= _) = _
          cases st.missingNewReplicas.checkIfMissing op.key _ r.2 with
          | error e => rfl
          | ok r => rfl

theorem serveAll_withStorage (storage : Server) (ops : List Operation) :
    ∀ (st : Proxy) (isTrues : List Bool) (ids : List Nat) (ciphers : List Str)
      (promises : List Promise),
      (st.withStorage storage).serveAll ops isTrues ids ciphers promises
        = (st.serveAll ops isTrues ids ciphers promises).map
          fun r => (r.1.withStorage storage, r.2) := by
  induction ops with
  | nil => intro st isTrues ids ciphers promises; rfl
  | cons op ops ih =>
      intro st isTrues ids ciphers promises
      cases isTrues with
      | nil => rfl
      | cons t isTrues =>
      cases ids with
      | nil => rfl
      | cons id ids =>
      cases ciphers with
      | nil => rfl
      | cons cipher ciphers =>
          rw [serveAll, serveAll, serve_withStorage]
          cases st.serve op id cipher with
          | error e => rfl
          | ok r =>
              show (fulfil t promises r.2 >>= _) = _
              simp only [ok_bind]
              cases fulfil t promises r.2 with
              | error e => rfl
              | ok f =>
                  simp only [ok_bind]
                  show (r.1.encryptionEngine.encrypt r.2 >>= _) = _
                  cases r.1.encryptionEngine.encrypt r.2 with
                  | error e => rfl
                  | ok value =>
                      simp only [ok_bind, ih]
                      cases r.1.serveAll ops isTrues ids ciphers f.2 with
                      | error e => rfl
                      | ok r => rfl

/-- What a pass that returns was given, and what it writes back. -/
theorem length_of_serveAll (ops : List Operation) : ∀ {st st' : Proxy} {isTrues : List Bool}
    {ids : List Nat} {ciphers values : List Str} {promises : List Promise}
    {fulfilled : List (Promise × Str)},
    st.serveAll ops isTrues ids ciphers promises = .ok (st', values, fulfilled) →
      ops.length ≤ ids.length ∧ ops.length ≤ ciphers.length ∧ values.length = ops.length := by
  induction ops with
  | nil =>
      intro st st' isTrues ids ciphers values promises fulfilled h
      obtain ⟨-, hvalues, -⟩ : st = st' ∧ [] = values ∧ [] = fulfilled := by
        simpa [serveAll] using h
      exact ⟨Nat.zero_le _, Nat.zero_le _, by simp [← hvalues]⟩
  | cons op ops ih =>
      intro st st' isTrues ids ciphers values promises fulfilled h
      cases isTrues with
      | nil => cases h
      | cons t isTrues =>
      cases ids with
      | nil => cases h
      | cons id ids =>
      cases ciphers with
      | nil => cases h
      | cons cipher ciphers =>
          obtain ⟨⟨st₁, x⟩, -, h⟩ := bind_eq_ok.mp h
          obtain ⟨⟨done, promises'⟩, -, h⟩ := bind_eq_ok.mp h
          obtain ⟨c, -, h⟩ := bind_eq_ok.mp h
          obtain ⟨⟨st₂, values', rest⟩, hrest, h⟩ := bind_eq_ok.mp h
          obtain ⟨hids, hciphers, hvalues⟩ := ih hrest
          obtain ⟨-, hout⟩ := Prod.mk.inj (Except.ok.inj h)
          obtain ⟨rfl, -⟩ := Prod.mk.inj hout
          simp only [List.length_cons]
          omega

theorem length_batchLabels (st : Proxy) (b : Batch) (ids : List Nat) :
    (st.batchLabels b ids).length = min b.operations.length ids.length := by
  rw [batchLabels, resolve_eq_zipWith, List.length_zipWith]

/-- What the call over the map comes to. -/
theorem executeBatchWith_eq_ok {st st' : Proxy} {b : Batch} {ids : List Nat}
    {fulfilled : List (Promise × Str)} : st.executeBatchWith b ids = .ok (st', fulfilled) ↔
      ∃ responses st₁ values,
        Server.readAll st.storage.contents (st.batchLabels b ids) = .ok responses ∧
        (st.resolve b.operations ids).1.serveAll b.operations b.isTrues ids responses b.promises
          = .ok (st₁, values, fulfilled) ∧
        st' = st₁.withStorage
          { contents := Server.insertAll st.storage.contents (st.batchLabels b ids) values
            requests := st.storage.requests ++ [.getBatch (st.batchLabels b ids) responses] ++
              [.putBatch (st.batchLabels b ids) values] } := by
  have hstore := (frame_resolve b.operations st ids).2.storage
  constructor
  · intro h
    obtain ⟨⟨responses, server⟩, hget, h⟩ := bind_eq_ok.mp h
    rw [hstore] at hget
    obtain ⟨values, hread, hserver⟩ := bind_eq_ok.mp hget
    obtain ⟨rfl, rfl⟩ := Prod.mk.inj (Except.ok.inj hserver)
    obtain ⟨⟨st₂, written, done⟩, hserve, h⟩ := bind_eq_ok.mp h
    obtain ⟨rfl, rfl⟩ := Prod.mk.inj (Except.ok.inj h)
    have hserve := (serveAll_withStorage _ _ _ _ _ _ _).symm.trans hserve
    cases hall : (st.resolve b.operations ids).1.serveAll b.operations b.isTrues ids values
        b.promises with
    | error e =>
        rw [hall] at hserve
        cases hserve
    | ok r =>
        rw [hall] at hserve
        obtain ⟨rfl, hout⟩ := Prod.mk.inj (Except.ok.inj hserve)
        obtain ⟨rfl, rfl⟩ := Prod.mk.inj hout
        exact ⟨values, r.1, r.2.1, hread, hall, rfl⟩
  · intro h
    obtain ⟨responses, st₁, values, hread, hserve, rfl⟩ := h
    refine bind_eq_ok.mpr ⟨(responses, { st.storage with
      requests := st.storage.requests ++ [.getBatch (st.batchLabels b ids) responses] }), ?_, ?_⟩
    · rw [hstore]
      exact bind_eq_ok.mpr ⟨responses, hread, rfl⟩
    · have hall := serveAll_withStorage { st.storage with
        requests := st.storage.requests ++ [.getBatch (st.batchLabels b ids) responses] }
        b.operations (st.resolve b.operations ids).1 b.isTrues ids responses b.promises
      rw [hserve] at hall
      exact bind_eq_ok.mpr ⟨_, hall, rfl⟩

end Proxy

/-! ## What an interface has to keep -/

theorem Server.length_of_readAll {m : UnorderedMap Str} {keys values : List Str}
    (h : readAll m keys = .ok values) : values.length = keys.length := by
  induction keys generalizing values with
  | nil =>
      cases h
      rfl
  | cons key keys ih =>
      rw [readAll] at h
      cases hkey : m.lookup key with
      | none =>
          rw [hkey] at h
          cases h
      | some value =>
          rw [hkey] at h
          obtain ⟨rest, hrest, h⟩ := bind_eq_ok.mp h
          cases h
          rw [List.length_cons, List.length_cons, ih hrest]

theorem Server.mem_of_readAll {m : UnorderedMap Str} {keys values : List Str}
    (h : readAll m keys = .ok values) : ∀ key ∈ keys, ∃ value, m.lookup key = some value := by
  induction keys generalizing values with
  | nil => intro key hkey; cases hkey
  | cons key keys ih =>
      rw [readAll] at h
      cases hvalue : m.lookup key with
      | none =>
          rw [hvalue] at h
          cases h
      | some value =>
          rw [hvalue] at h
          obtain ⟨rest, hrest, -⟩ := bind_eq_ok.mp h
          intro k hk
          rcases List.mem_cons.mp hk with rfl | hk
          · exact ⟨value, hvalue⟩
          · exact ih hrest k hk

/-- Behind the interface is what `Holds` says: batches that `Serves` allows
are read and written as in the map, and others do not come through whole. -/
structure StorageInterface.Backs {S : Type} (I : StorageInterface S) (Serves : List Str → Prop)
    (Holds : S → UnorderedMap Str → Prop) : Prop where
  reads {s m keys values} : Holds s m → I.getBatch s keys = .ok values →
    keys.length ≤ values.length → Server.readAll m keys = .ok values
  writes {s s' m keys responses values} : Holds s m → I.getBatch s keys = .ok responses →
    keys.length ≤ responses.length → values.length = keys.length →
      I.putBatch s keys values = .ok s' → Serves keys ∧ Holds s' (Server.insertAll m keys values)
  answers {s m keys values} : Holds s m → Serves keys → Server.readAll m keys = .ok values →
    I.getBatch s keys = .ok values
  accepts {s m keys values} : Holds s m → Serves keys → values.length = keys.length →
    ∃ s', I.putBatch s keys values = .ok s'

namespace Deployed

variable {S : Type} {I : StorageInterface S} {Serves : List Str → Prop}
  {Holds : S → UnorderedMap Str → Prop}

/-- A proxy over a cluster, and the proxy over the map the cluster holds. -/
structure Represents (Holds : S → UnorderedMap Str → Prop) (st : Proxy) (d : Deployed S) :
    Prop where
  proxy : d.proxy = st.withStorage d.proxy.storage
  holds : Holds d.storage st.storage.contents

theorem bindOver_eq_ok {α β : Type} {x : Except CallFault α} {f : α → Except CallFault β}
    {b : β} : (x >>= f) = .ok b ↔ ∃ a, x = .ok a ∧ f a = .ok b := by
  cases x with
  | ok a => simp [Bind.bind, Except.bind]
  | error e => simp [Bind.bind, Except.bind]

theorem mapError_eq_ok {α ε : Type} {x : Except ε α} {f : ε → CallFault} {a : α} :
    x.mapError f = .ok a ↔ x = .ok a := by
  cases x with
  | ok b => simp [Except.mapError]
  | error e => simp [Except.mapError]

/-- What the call over an interface comes to. -/
theorem executeBatchWith_eq_ok {d d' : Deployed S} {b : Batch} {ids : List Nat}
    {fulfilled : List (Promise × Str)} : d.executeBatchWith I b ids = .ok (d', fulfilled) ↔
      ∃ responses st₁ values s',
        I.getBatch d.storage (d.proxy.batchLabels b ids) = .ok responses ∧
        (d.proxy.resolve b.operations ids).1.serveAll b.operations b.isTrues ids responses
          b.promises = .ok (st₁, values, fulfilled) ∧
        I.putBatch d.storage (d.proxy.batchLabels b ids) values = .ok s' ∧ d' = ⟨st₁, s'⟩ := by
  constructor
  · intro h
    obtain ⟨responses, hget, h⟩ := bindOver_eq_ok.mp h
    obtain ⟨⟨st₁, values, done⟩, hserve, h⟩ := bindOver_eq_ok.mp h
    obtain ⟨s', hput, h⟩ := bindOver_eq_ok.mp h
    obtain ⟨rfl, rfl⟩ := Prod.mk.inj (Except.ok.inj h)
    exact ⟨responses, st₁, values, s', mapError_eq_ok.mp hget, mapError_eq_ok.mp hserve,
      mapError_eq_ok.mp hput, rfl⟩
  · intro h
    obtain ⟨responses, st₁, values, s', hget, hserve, hput, rfl⟩ := h
    refine bindOver_eq_ok.mpr ⟨responses, mapError_eq_ok.mpr hget, ?_⟩
    refine bindOver_eq_ok.mpr ⟨(st₁, values, fulfilled), mapError_eq_ok.mpr hserve, ?_⟩
    exact bindOver_eq_ok.mpr ⟨s', mapError_eq_ok.mpr hput, rfl⟩

section Steps

variable {st st' : Proxy} {d d' : Deployed S} {c : Call}

theorem Represents.batchLabels (h : Represents Holds st d) (b : Batch) (ids : List Nat) :
    d.proxy.batchLabels b ids = st.batchLabels b ids := by
  rw [h.proxy, Proxy.batchLabels, Proxy.resolve_withStorage]
  rfl

theorem Represents.drawn (h : Represents Holds st d) (ops : List Operation) (isTrues : List Bool) :
    d.proxy.chooseReplicas ops isTrues = st.chooseReplicas ops isTrues := by
  rw [h.proxy, Proxy.chooseReplicas_withStorage]

/-- **A call over the cluster** is one over the map. -/
theorem Represents.executes (hI : I.Backs Serves Holds) (h : Represents Holds st d)
    (hx : d.Executes I c d') : ∃ st', (st.Executes c st' ∧
      Serves (st.batchLabels c.batch c.replicaIds)) ∧ Represents Holds st' d' := by
  obtain ⟨responses, st₁, values, s', hget, hserve, hput, rfl⟩ :=
    executeBatchWith_eq_ok.mp hx.returns
  rw [h.batchLabels] at hget hput
  rw [h.proxy, Proxy.resolve_withStorage, Proxy.serveAll_withStorage] at hserve
  cases hall : (st.resolve c.batch.operations c.replicaIds).1.serveAll c.batch.operations
      c.batch.isTrues c.replicaIds responses c.batch.promises with
  | error e =>
      rw [hall] at hserve
      cases hserve
  | ok r =>
      obtain ⟨st₂, written, done⟩ := r
      rw [hall] at hserve
      obtain ⟨rfl, hout⟩ := Prod.mk.inj (Except.ok.inj hserve)
      obtain ⟨rfl, rfl⟩ := Prod.mk.inj hout
      -- the pass has looked at a response for every label, and has a value for each
      obtain ⟨hids, hresponses, hvalues⟩ := Proxy.length_of_serveAll _ hall
      have hlabels := Proxy.length_batchLabels st c.batch c.replicaIds
      have hlength : (st.batchLabels c.batch c.replicaIds).length ≤ responses.length := by omega
      obtain ⟨hserves, hholds⟩ := hI.writes h.holds hget hlength (by omega) hput
      refine ⟨_, ⟨⟨h.drawn _ _ ▸ hx.drawn, Proxy.executeBatchWith_eq_ok.mpr
        ⟨responses, st₂, written, hI.reads h.holds hget hlength, hall, rfl⟩⟩, hserves⟩, rfl, hholds⟩

/-- **A call over the map** that the cluster serves is one over the cluster. -/
theorem Represents.executed (hI : I.Backs Serves Holds) (h : Represents Holds st d)
    (hx : st.Executes c st') (hserves : Serves (st.batchLabels c.batch c.replicaIds)) :
    ∃ d', d.Executes I c d' ∧ Represents Holds st' d' := by
  obtain ⟨responses, st₁, values, hread, hserve, rfl⟩ :=
    Proxy.executeBatchWith_eq_ok.mp hx.returns
  have hget := hI.answers h.holds hserves hread
  have hlength := (Server.length_of_readAll hread).ge
  obtain ⟨hids, -, hvalues⟩ := Proxy.length_of_serveAll _ hserve
  have hlabels := Proxy.length_batchLabels st c.batch c.replicaIds
  have hwritten : values.length = (st.batchLabels c.batch c.replicaIds).length := by omega
  obtain ⟨s', hput⟩ := hI.accepts h.holds hserves hwritten
  obtain ⟨-, hholds⟩ := hI.writes h.holds hget hlength hwritten hput
  refine ⟨⟨st₁.withStorage d.proxy.storage, s'⟩, ⟨(h.drawn _ _).symm ▸ hx.drawn,
    executeBatchWith_eq_ok.mpr ⟨responses, _, values, s', ?_, ?_, ?_, rfl⟩⟩, rfl, hholds⟩
  · rwa [h.batchLabels]
  · rw [h.proxy, Proxy.resolve_withStorage, Proxy.serveAll_withStorage, hserve]
    rfl
  · rwa [h.batchLabels]

end Steps

/-- A call over the map whose labels the cluster serves. -/
structure Served (Serves : List Str → Prop) (st : Proxy) (c : Call) (st' : Proxy) : Prop where
  executes : st.Executes c st'
  serves : Serves (st.batchLabels c.batch c.replicaIds)

/-- **Whole runs**: those over the cluster are those over the map all of whose
batches the cluster serves, with the same answers. -/
theorem Represents.runs (hI : I.Backs Serves Holds) {st : Proxy} {d : Deployed S}
    (h : Represents Holds st d) (calls : List Call) :
    (∀ d', Run (Executes I) d calls d' →
      ∃ st', Run (Served Serves) st calls st' ∧ Represents Holds st' d') ∧
    (∀ st', Run (Served Serves) st calls st' →
      ∃ d', Run (Executes I) d calls d' ∧ Represents Holds st' d') := by
  constructor
  · intro d' hrun
    refine hrun.simulated (R := fun d st => Represents Holds st d) h ?_
    intro d c d' st h hx
    obtain ⟨st', ⟨hx', hserves⟩, h'⟩ := h.executes hI hx
    exact ⟨st', ⟨hx', hserves⟩, h'⟩
  · intro st' hrun
    refine hrun.simulated h ?_
    intro st c st' d h hx
    exact h.executed hI hx.executes hx.serves

end Deployed

theorem Server.insertAll_eq_foldl (keys : List Str) : ∀ (values : List Str) (m : UnorderedMap Str),
    insertAll m keys values
      = (keys.zip values).foldl (fun m pair => m.insert pair.1 pair.2) m := by
  induction keys with
  | nil => intro values m; rfl
  | cons key keys ih =>
      intro values m
      cases values with
      | nil => rfl
      | cons value values => exact ih values (m.insert key value)

end Pancake
