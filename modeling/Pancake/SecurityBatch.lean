import Pancake.ReadYourWrites
import Pancake.FrequencySmoothing

/-!
# Security batches

`create_security_batch` adds `security_batch_size_` slots to a batch; a coin
decides for each whether it serves the client's queue — or, when that is
empty, a draw of the real distribution — or draws a fake access. The coin is
computed from `p_max_`, the fake distribution from `alpha_` and `delta_`.
-/

namespace Pancake

/-- An operation in a queue, with the promise that answers it. -/
abbrev Queued := Operation × Promise

/-- An operation queue as its consumer sees it: what is in it, and what will
have arrived before each later look at it. -/
structure OpQueue where
  pending : List Queued := []
  arrivals : Nat → List Queued := fun _ => []

/-- `size()` of the queue: the arrivals since the last look are in it now. -/
def OpQueue.look (q : OpQueue) : OpQueue where
  pending := q.pending ++ q.arrivals 0
  arrivals := fun i => q.arrivals (i + 1)

/-- One slot of a security batch: an operation, with a promise if it answers
a client. -/
structure Slot where
  operation : Operation
  promise : Option Promise

/-- `push_back` of a slot on the three vectors of a batch. -/
def Batch.push (b : Batch) (s : Slot) : Batch where
  operations := b.operations ++ [s.operation]
  isTrues := b.isTrues ++ [s.promise.isSome]
  promises := b.promises ++ s.promise.toList

namespace Proxy

/-- `is_true_distribution` -/
def isTrueDistribution (st : Proxy) : Sampler Bool :=
  prob (divide 1 (2 * st.pMax * st.keyToFrequency.keys.card))

/-- One iteration of the loop of `create_security_batch`. -/
def securitySlot (st : Proxy) (q : OpQueue) : Sampler (OpQueue × Slot) :=
  st.isTrueDistribution.bind fun isTrue =>
    if isTrue then
      match q.look.pending with
      | [] => st.realDistribution.sample.map fun key => (q.look, ⟨⟨key, []⟩, none⟩)
      | (operation, promise) :: rest =>
          .done ({ q.look with pending := rest }, ⟨operation, some promise⟩)
    else st.fakeDistribution.sample.map fun key => (q, ⟨⟨key, []⟩, none⟩)

/-- The loop of `create_security_batch`, for `n` slots. -/
def securitySlots (st : Proxy) : Nat → OpQueue → Batch → Sampler (OpQueue × Batch)
  | 0, q, b => .done (q, b)
  | n + 1, q, b => (st.securitySlot q).bind fun s => st.securitySlots n s.1 (b.push s.2)

/-- `create_security_batch` -/
def createSecurityBatch (st : Proxy) (q : OpQueue) (b : Batch) : Sampler (OpQueue × Batch) :=
  st.securitySlots st.securityBatchSize q b

/-! ## The label a slot hits -/

/-- Clients that draw their keys from `d` and wait with these values and
promises. -/
def clientQueue (d : Distribution) : List (Str × Promise) → Sampler (List Queued)
  | [] => .done []
  | (value, promise) :: rest =>
      d.sample.bind fun key => (clientQueue d rest).map ((⟨key, value⟩, promise) :: ·)

/-- The label a slot's access goes to: `sample_a_replica`, then the look-up. -/
def labelOfSlot (st : Proxy) (s : Slot) : Sampler (Except Fault Str) :=
  (st.missingNewReplicas.sampleAReplica s.operation.key (st.replicas s.operation.key)
    s.promise.isSome (st.frequency s.operation.key) st.pMax).map
      (Except.map (st.labelOf s.operation.key))

/-- The label of the next slot, the clients' keys drawn from the real
distribution. -/
def slotLabel (st : Proxy) (waiting : List (Str × Promise)) : Sampler (Except Fault Str) :=
  (clientQueue st.realDistribution waiting).bind fun pending =>
    (st.securitySlot { pending := pending }).bind fun s => st.labelOfSlot s.2

/-- Every one of `2n` labels is equally likely, whoever waits. -/
def UniformAccess (st : Proxy) (n : Nat) : Prop :=
  ∀ waiting, ∀ l < 2 * n, (st.slotLabel waiting).prob (· = .ok (toString l)) = 1 / (2 * n)

/-- A weighted draw gives one of the items. -/
theorem possible_sample {d : Distribution} (h : d.items.length = d.probabilities.length)
    {key : Str} (hk : d.sample.Possible key) : key ∈ d.items := by
  obtain ⟨i, hi, he⟩ := hk
  rw [Sampler.possible_done] at he
  have hlt : i < d.items.length := by
    by_contra hc
    rw [h] at hc
    rw [List.getD_eq_getElem?_getD, List.getElem?_eq_none (not_lt.mp hc)] at hi
    exact lt_irrefl _ hi
  rw [← he, List.getD_eq_getElem?_getD, List.getElem?_eq_getElem hlt]
  exact List.getElem_mem hlt

/-- The first of the clients' operations has a key of the distribution. -/
theorem possible_clientQueue {d : Distribution} (h : d.items.length = d.probabilities.length)
    {waiting : List (Str × Promise)} {pending : List Queued}
    (hp : (clientQueue d waiting).Possible pending) : ∀ p ∈ pending, p.1.key ∈ d.items := by
  induction waiting generalizing pending with
  | nil =>
      rw [clientQueue, Sampler.possible_done] at hp
      subst hp
      simp
  | cons w waiting ih =>
      obtain ⟨key, hkey, hp⟩ := Sampler.possible_bind.mp hp
      obtain ⟨rest, hrest, rfl⟩ := Sampler.possible_map.mp hp
      intro p hp
      rcases List.mem_cons.mp hp with rfl | hp
      · exact possible_sample h hkey
      · exact ih hrest p hp

/-! ## The coin -/

/-- While nothing has assigned `p_max_`, the coin divides one by zero. -/
theorem isTrueDistribution_of_pMax_zero {st : Proxy} (h : st.pMax = 0) :
    st.isTrueDistribution = .coin 1 .done := by
  simp [isTrueDistribution, h, divide, prob]

/-- Then a slot only ever hits a real key's replicas. -/
theorem possible_slotLabel {st : Proxy} (hp : st.pMax = 0)
    (hm : ∀ key, st.missingNewReplicas.lookup key = none)
    (hlen : st.realDistribution.items.length = st.realDistribution.probabilities.length)
    {waiting : List (Str × Promise)} {label : Str}
    (h : (st.slotLabel waiting).Possible (.ok label)) :
    ∃ key ∈ st.realDistribution.items, ∃ i < st.replicas key, st.labelOf key i = label := by
  obtain ⟨pending, hpending, h⟩ := Sampler.possible_bind.mp h
  obtain ⟨⟨q, s⟩, hs, h⟩ := Sampler.possible_bind.mp h
  have hkey : s.operation.key ∈ st.realDistribution.items := by
    rw [securitySlot, isTrueDistribution_of_pMax_zero hp] at hs
    obtain ⟨isTrue, hcoin, hs⟩ := Sampler.possible_bind.mp hs
    rcases hcoin with ⟨-, rfl⟩ | ⟨hlt, -⟩
    · rw [if_pos rfl] at hs
      cases hq : pending with
      | nil =>
          simp only [OpQueue.look, hq, List.append_nil] at hs
          obtain ⟨key, hk, he⟩ := Sampler.possible_map.mp hs
          obtain ⟨-, rfl⟩ := Prod.mk.inj he
          exact possible_sample hlen hk
      | cons p rest =>
          simp only [OpQueue.look, hq, List.append_nil] at hs
          obtain ⟨-, rfl⟩ := Prod.mk.inj hs
          exact possible_clientQueue hlen hpending p (by simp [hq])
    · exact absurd hlt (lt_irrefl _)
  rw [labelOfSlot, UpdateCache.sampleAReplica_of_none (hm _)] at h
  obtain ⟨r, hr, he⟩ := Sampler.possible_map.mp h
  cases r with
  | error e => simp [Except.map] at he
  | ok i =>
      simp only [Except.map, Except.ok.injEq] at he
      exact ⟨_, hkey, i, possible_randMod.mp hr, he⟩

end Proxy

end Pancake
