import Pancake.UpdateCache
import Pancake.Storage

/-!
# The proxy

The state of `pancake_proxy` and its initialisation: `create_replicas` turns
the real distribution into replica counts, labels, initial ciphertexts, the
update cache and the fake distribution.

The strings `rand_str` returns are a parameter: `values i` is the result of
its `i`-th call.
-/

namespace Pancake

/-- `distribution`: items with their weights. -/
structure Distribution where
  items : List Str := []
  probabilities : List ℚ := []

namespace Distribution

/-- `distribution::sample` -/
def sample (d : Distribution) : Sampler Str :=
  .weighted d.probabilities fun i => .done (d.items.getD i [])

/-- The items with their weights. -/
def pairs (d : Distribution) : List (Str × ℚ) := d.items.zip d.probabilities

end Distribution

/-- `operation`: an empty value is a get. -/
structure Operation where
  key : Str
  value : Str
  deriving DecidableEq

/-- The identity of a `std::promise`. -/
abbrev Promise := Nat

/-- `pancake_proxy`: the members the data path and the distribution updates
read and write. A `double` that nothing has assigned reads as zero. -/
structure Proxy where
  securityBatchSize : Nat := 3
  storageBatchSize : Nat := 40
  storage : Server := {}
  updateCache : UpdateCache := ∅
  missingNewReplicas : UpdateCache := ∅
  keyToFrequency : UnorderedMap Int := ∅
  newKeyToFrequency : UnorderedMap Int := ∅
  labelCount : Nat := 0
  dummyKeys : Nat := 0
  pMax : ℚ := 0
  alpha : ℚ := 0
  delta : ℚ := 0
  dummyKey : Str
  keyToNumberOfReplicas : UnorderedMap Nat := ∅
  replicaToLabel : UnorderedMap Nat := ∅
  fakeDistribution : Distribution := {}
  realDistribution : Distribution := {}
  encryptionEngine : EncryptionEngine

namespace Proxy

/-- `key_to_number_of_replicas_[key]`, as read. -/
def replicas (st : Proxy) (key : Str) : Nat := UnorderedMap.at_ st.keyToNumberOfReplicas key

/-- `key_to_frequency_[key]`, as read. -/
def frequency (st : Proxy) (key : Str) : Int := UnorderedMap.at_ st.keyToFrequency key

end Proxy

/-- `key+std::to_string(i)`: the name of a replica. -/
def replicaName (key : Str) (i : Nat) : Str := key ++ toString i

theorem replicaName_inj_right {key : Str} {i j : Nat} :
    replicaName key i = replicaName key j ↔ i = j := by
  simp [replicaName]

namespace Proxy

/-- The storage label of a replica, as `replica_to_label_[...]` reads it. -/
def labelOf (st : Proxy) (key : Str) (i : Nat) : Str :=
  toString (UnorderedMap.at_ st.replicaToLabel (replicaName key i))

/-! ## `create_replicas` -/

/-- One iteration of the loop of `insert_replicas`: name the replica, take the
next label, and flush the labels gathered when there are fifty. -/
def insertReplica (key valueCipher : Str) (s : Proxy × List Str) (i : Nat) : Proxy × List Str :=
  let (st, labels) := s
  let labels := labels ++ [toString st.labelCount]
  let st := { st with replicaToLabel := st.replicaToLabel.insert (replicaName key i) st.labelCount }
  let (st, labels) : Proxy × List Str :=
    if 50 ≤ labels.length then
      ({ st with storage :=
          st.storage.putBatch labels (List.replicate labels.length valueCipher) }, [])
    else (st, labels)
  ({ st with labelCount := st.labelCount + 1 }, labels)

/-- `insert_replicas`: one ciphertext, of one random string, under the labels
of all `numReplicas` replicas. -/
def insertReplicas (st : Proxy) (key : Str) (numReplicas : Nat) (value : Str) :
    Except Fault Proxy := do
  let valueCipher ← st.encryptionEngine.encrypt value
  let (st, labels) := (List.range numReplicas).foldl (insertReplica key valueCipher) (st, [])
  .ok (if labels = [] then st
    else { st with storage :=
      st.storage.putBatch labels (List.replicate labels.length valueCipher) })

/-- The locals of the loop of `create_replicas`. -/
structure CreateLoop where
  proxy : Proxy
  updateCachePairs : List (Str × Nat) := []
  fakeProbabilities : List ℚ := []
  keysCreated : Nat := 0
  index : Nat := 0

/-- `ceil(pi/alpha_)` -/
def replicaCount (alpha p : ℚ) : Nat := ⌈p / alpha⌉₊

/-- `r_i * (alpha_-pi/r_i)/(1/delta_ - 1)` -/
def fakeWeight (alpha delta p : ℚ) : ℚ :=
  let r : ℚ := replicaCount alpha p
  r * (alpha - p / r) / (1 / delta - 1)

/-- `(alpha_ / (1 / delta_ - 1)) * dummy_r_i` -/
def dummyWeight (alpha delta : ℚ) (dummyR : Nat) : ℚ := alpha / (1 / delta - 1) * dummyR

/-- How `create_replicas` computes a replica count, a fake weight and that of
the dummy key. -/
structure ReplicaArithmetic where
  count (alpha p : ℚ) : Nat
  weight (alpha delta p : ℚ) : ℚ
  dummy (alpha delta : ℚ) (dummyR : Nat) : ℚ

/-- Without rounding. -/
def ReplicaArithmetic.exact : ReplicaArithmetic := ⟨replicaCount, fakeWeight, dummyWeight⟩

/-- One iteration of the loop of `create_replicas`. -/
def createReplicaBy (A : ReplicaArithmetic) (values : Nat → Str) (s : CreateLoop)
    (item : Str × ℚ) : Except Fault CreateLoop := do
  let (key, pi) := item
  let st := { s.proxy with keyToFrequency := s.proxy.keyToFrequency.insert key (truncate pi) }
  let r := A.count st.alpha pi
  let st := { st with keyToNumberOfReplicas := st.keyToNumberOfReplicas.insert key r }
  let st ← st.insertReplicas key r (values s.index)
  .ok { proxy := st
        updateCachePairs := s.updateCachePairs ++ [(key, r)]
        fakeProbabilities := s.fakeProbabilities ++ [A.weight st.alpha st.delta pi]
        keysCreated := s.keysCreated + r
        index := s.index + 1 }

/-- The dummy replicas that bring the total to `2n`, if any are missing. The
number is an `int`, which holds it as long as the keys have no more than `2n`
replicas; with more, the program throws in the constructor of `update_cache`. -/
def createDummiesBy (A : ReplicaArithmetic) (values : Nat → Str) (s : CreateLoop) (dummyR : Nat) :
    Except Fault CreateLoop := do
  let st := { s.proxy with dummyKeys := dummyR }
  if dummyR = 0 then .ok { s with proxy := st }
  else
    let weight := A.dummy st.alpha st.delta dummyR
    let st := { st with keyToNumberOfReplicas :=
      st.keyToNumberOfReplicas.insert st.dummyKey dummyR }
    let st ← st.insertReplicas st.dummyKey dummyR (values s.index)
    .ok { proxy := st
          updateCachePairs := s.updateCachePairs ++ [(st.dummyKey, dummyR)]
          fakeProbabilities := s.fakeProbabilities ++ [weight]
          keysCreated := s.keysCreated
          index := s.index + 1 }

/-- `create_replicas` -/
def createReplicasBy (A : ReplicaArithmetic) (st : Proxy) (values : Nat → Str) :
    Except Fault Proxy := do
  let keys := st.realDistribution.items
  let s ← st.realDistribution.pairs.foldlM (createReplicaBy A values) { proxy := st }
  let s ← createDummiesBy A values s (sizeSub (2 * keys.length) s.keysCreated)
  .ok { s.proxy with
        updateCache := UpdateCache.ofPairs s.updateCachePairs
        fakeDistribution := { items := keys ++ [s.proxy.dummyKey]
                              probabilities := s.fakeProbabilities } }

/-- The data-path part of `init`: take the arguments, create the replicas. -/
def initBy (A : ReplicaArithmetic) (st : Proxy) (dist : Distribution) (alpha delta : ℚ)
    (values : Nat → Str) : Except Fault Proxy :=
  { st with realDistribution := dist, alpha := alpha, delta := delta }.createReplicasBy A values

/-- `create_replicas`, computed exactly. -/
def createReplicas (st : Proxy) (values : Nat → Str) : Except Fault Proxy :=
  st.createReplicasBy .exact values

/-- `init`, computed exactly. -/
def init (st : Proxy) (dist : Distribution) (alpha delta : ℚ) (values : Nat → Str) :
    Except Fault Proxy :=
  st.initBy .exact dist alpha delta values

end Proxy

end Pancake
