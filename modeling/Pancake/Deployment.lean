import Pancake.ReadYourWrites
import Pancake.RoundedReplicas
import Pancake.StorageBackends
import Pancake.TraceLoader

/-!
# The server over its storage

`main` loads the workload, computes `alpha` and `delta` from it and has `init`
write the replicas to the storage servers, all of it in `double`s; after that
`execute_batch` is called. The parts have been dealt with apart: the loader,
`create_replicas`, the calls over one map, the map and the servers. Here they
are put together.
-/

namespace Pancake

namespace Deployed

variable {S : Type}

/-- `put_batch` calls, one after another. -/
def writeAll (I : StorageInterface S) : S → List Request → Except StorageFault S
  | s, [] => .ok s
  | s, write :: writes => do
      let s ← I.putBatch s write.labels write.ciphers
      writeAll I s writes

/-- `init` over an interface. `create_replicas` reads nothing back, so that its
writes can be made once it is done. -/
def init (I : StorageInterface S) (d : Deployed S) (dist : Distribution) (alpha delta : ℚ)
    (values : Nat → Str) : Except CallFault (Deployed S) := do
  let st ← ((d.proxy.withStorage {}).initBy .doubles dist alpha delta values).mapError .fault
  let storage ← (writeAll I d.storage st.storage.requests).mapError .storage
  .ok ⟨st, storage⟩

/-- A call of a well-formed batch whose labels are pairwise distinct. -/
structure DistinctCall (I : StorageInterface S) (d : Deployed S) (c : Call) (d' : Deployed S) :
    Prop extends d.Executes I c d' where
  wellFormed : c.batch.WellFormed d.proxy.encryptionEngine
  distinctLabels : (d.proxy.batchLabels c.batch c.replicaIds).Nodup

/-- Every server accepts writes, and all together hold the map. -/
abbrev Writable : Rocksdb → UnorderedMap Str → Prop := Rocksdb.Holds fun _ => True

section Calls

variable {st st' : Proxy} {d d' : Deployed Rocksdb} {c : Call}

/-- A call over the servers is one over the map. -/
theorem Represents.distinctCall (h : Represents Writable st d)
    (hc : d.DistinctCall Rocksdb.interface c d') :
    ∃ st', st.DistinctCall c st' ∧ Represents Writable st' d' := by
  obtain ⟨st', ⟨hx, -⟩, h'⟩ := h.executes (Rocksdb.backs _) hc.toExecutes
  refine ⟨st', ⟨hx, ?_, ?_⟩, h'⟩
  · have hwell := hc.wellFormed
    rwa [h.proxy] at hwell
  · rw [← h.batchLabels]
    exact hc.distinctLabels

end Calls

/-! ## From the workload to the answers -/

end Deployed

end Pancake
