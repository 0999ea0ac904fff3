import Pancake.Proxy

/-!
# `execute_batch`

A batch is three parallel vectors, as in the source: the operations, which
of them answer a client, and the promises of those, in order. The first loop
of `execute_batch` chooses a replica for every operation and looks its label
up; then one `get_batch`, one pass over the operations, one `put_batch`.

`executeBatchWith` is the call for given replica ids, `executeBatch` draws
them. The draws of the first loop read nothing that its own default
insertions change, so they can all be made before the look-ups.
-/

namespace Pancake

/-- The arguments of one `execute_batch` call. -/
structure Batch where
  operations : List Operation
  isTrues : List Bool
  promises : List Promise

namespace Proxy

/-! ## The first loop -/

/-- What looking an operation's replica up leaves behind in the tables. -/
def lookUp (st : Proxy) (key : Str) (replicaId : Nat) : Proxy :=
  { st with
    keyToNumberOfReplicas := UnorderedMap.touch st.keyToNumberOfReplicas key
    keyToFrequency := UnorderedMap.touch st.keyToFrequency key
    replicaToLabel := UnorderedMap.touch st.replicaToLabel (replicaName key replicaId) }

/-- The labels of the chosen replicas. -/
def resolve : Proxy → List Operation → List Nat → Proxy × List Str
  | st, op :: ops, id :: ids =>
      let label := st.labelOf op.key id
      let (st, labels) := (st.lookUp op.key id).resolve ops ids
      (st, label :: labels)
  | st, _, _ => (st, [])

/-- The replica ids the first loop draws. -/
def chooseReplicas (st : Proxy) : List Operation → List Bool → Sampler (Except Fault (List Nat))
  | [], _ => .done (.ok [])
  | _ :: _, [] => .done (.error .indexOutOfBounds)
  | op :: ops, t :: isTrues =>
      (st.missingNewReplicas.sampleAReplica op.key (st.replicas op.key) t
        (st.frequency op.key) st.pMax).bind fun
      | .error e => .done (.error e)
      | .ok id => (st.chooseReplicas ops isTrues).map (Except.map (id :: ·))

/-! ## The second loop -/

/-- One operation: decrypt what was read, leave a put pending, take the
update pending for the replica, and pass the value on to missing replicas. -/
def serve (st : Proxy) (op : Operation) (replicaId : Nat) (cipher : Str) :
    Except Fault (Proxy × Str) := do
  let plaintext ← st.encryptionEngine.decrypt cipher
  let cache := if op.value ≠ [] then
      st.updateCache.populateReplicaUpdates op.key op.value (st.replicas op.key)
    else st.updateCache
  let (plaintextUpdate, cache) ← cache.checkForUpdate op.key replicaId
  let plaintext := if plaintextUpdate = [] then plaintext else plaintextUpdate
  let (missing, cache) ← st.missingNewReplicas.checkIfMissing op.key plaintext cache
  .ok ({ st with updateCache := cache, missingNewReplicas := missing }, plaintext)

/-- `promises[j]->set_value(plaintext); j++` for a real operation: what is
fulfilled, and the promises left. -/
def fulfil : Bool → List Promise → Str → Except Fault (List (Promise × Str) × List Promise)
  | false, promises, _ => .ok ([], promises)
  | true, p :: promises, plaintext => .ok ([(p, plaintext)], promises)
  | true, [], _ => .error .indexOutOfBounds

/-- The pass over the operations: the ciphertexts to write back, and the
promises fulfilled with their values. -/
def serveAll : Proxy → List Operation → List Bool → List Nat → List Str → List Promise →
    Except Fault (Proxy × List Str × List (Promise × Str))
  | st, [], _, _, _, _ => .ok (st, [], [])
  | st, op :: ops, t :: isTrues, id :: ids, cipher :: ciphers, promises => do
      let (st, plaintext) ← st.serve op id cipher
      let (fulfilled, promises) ← fulfil t promises plaintext
      let storageValue ← st.encryptionEngine.encrypt plaintext
      let (st, storageValues, rest) ← st.serveAll ops isTrues ids ciphers promises
      .ok (st, storageValue :: storageValues, fulfilled ++ rest)
  | _, _ :: _, _, _, _, _ => .error .indexOutOfBounds

/-- A real operation takes one promise, a fake one none. -/
theorem fulfil_spec (t : Bool) (promises : List Promise) (x : Str) {n : Nat}
    (h : (if t then n + 1 else n) ≤ promises.length) :
    ∃ done rest, fulfil t promises x = .ok (done, rest) ∧
      promises.length = rest.length + (if t then 1 else 0) ∧
      ∀ xs : List Str, promises.zip (if t then x :: xs else xs) = done ++ rest.zip xs := by
  cases t with
  | false => exact ⟨[], promises, rfl, rfl, fun _ => rfl⟩
  | true =>
      cases promises with
      | nil => simp at h
      | cons p ps => exact ⟨[(p, x)], ps, rfl, rfl, fun _ => rfl⟩

/-! ## The call -/

/-- `execute_batch` with the replica ids given. -/
def executeBatchWith (st : Proxy) (b : Batch) (replicaIds : List Nat) :
    Except Fault (Proxy × List (Promise × Str)) := do
  let (st, storageKeys) := st.resolve b.operations replicaIds
  let (responses, storage) ← st.storage.getBatch storageKeys
  let (st, storageValues, fulfilled) ←
    { st with storage := storage }.serveAll b.operations b.isTrues replicaIds responses b.promises
  .ok ({ st with storage := st.storage.putBatch storageKeys storageValues }, fulfilled)

/-- `execute_batch` -/
def executeBatch (st : Proxy) (b : Batch) : Sampler (Except Fault (Proxy × List (Promise × Str))) :=
  (st.chooseReplicas b.operations b.isTrues).map fun ids => ids >>= st.executeBatchWith b

end Proxy

end Pancake
