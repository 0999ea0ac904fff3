import Pancake.Lib.Expectations
import Pancake.ReplicaNames
import Pancake.SecurityBatch

/-!
# Sequences of labels

Where the fake weights are made for the coin the proxy tosses, one slot hits
every label equally often. So do any number of slots in a row: every sequence
of labels is equally likely, although the slots take their keys from a queue
that some clients wait in and others arrive at, and which the slots empty.
The clients' keys are drawn first, from the real distribution; a key that a
slot takes off is a fresh one, whatever was taken before.
-/

namespace Pancake

namespace Proxy

/-! ## The labels of some slots -/

/-- Clients that will have arrived before each later look at the queue. -/
def arrivingClients (d : Distribution) : List (List (Str × Promise)) → Sampler (List (List Queued))
  | [] => .done []
  | clients :: later =>
      (clientQueue d clients).bind fun q => (arrivingClients d later).map (q :: ·)

/-- A queue of clients that draw their keys from `d`. -/
def drawnQueue (d : Distribution) (waiting : List (Str × Promise))
    (arriving : List (List (Str × Promise))) : Sampler OpQueue :=
  (clientQueue d waiting).bind fun pending => (arrivingClients d arriving).map fun arrivals =>
    { pending := pending, arrivals := fun i => arrivals.getD i [] }

/-- The labels the first loop of `execute_batch` looks up. -/
def labelsOf (st : Proxy) (b : Batch) : Sampler (Except Fault (List Str)) :=
  (st.chooseReplicas b.operations b.isTrues).map
    (Except.map fun ids => (st.resolve b.operations ids).2)

/-- The labels of `n` slots. -/
def slotLabels (st : Proxy) (n : Nat) (q : OpQueue) : Sampler (Except Fault (List Str)) :=
  (st.securitySlots n q ⟨[], [], []⟩).bind fun s => st.labelsOf s.2

/-! ## What the replicas hit -/

/-- How likely an access to the key hits the label. -/
def hits (st : Proxy) (key label : Str) : ℚ :=
  (randMod (st.replicas key)).expect fun r => if r.map (st.labelOf key) = .ok label then 1 else 0

/-- How likely accesses to the keys of some operations hit the labels. -/
def hitsAll (st : Proxy) : List Operation → List Str → ℚ
  | [], [] => 1
  | op :: ops, l :: ls => st.hits op.key l * hitsAll st ops ls
  | _, _ => 0

/-- How likely the slots taken from a queue hit the labels. -/
def sequenceHits (st : Proxy) : List Str → OpQueue → ℚ
  | [], _ => 1
  | l :: ls, q =>
      (st.securitySlot q).expect fun s => st.hits s.2.operation.key l * sequenceHits st ls s.1

theorem hitsAll_snoc {st : Proxy} {op : Operation} {l : Str} (ops : List Operation) :
    ∀ {ls : List Str}, ls.length = ops.length →
      st.hitsAll (ops ++ [op]) (ls ++ [l]) = st.hitsAll ops ls * st.hits op.key l := by
  induction ops with
  | nil =>
      intro ls hlen
      rw [List.length_eq_zero_iff.mp hlen]
      simp [hitsAll]
  | cons op' ops ih =>
      intro ls hlen
      cases ls with
      | nil => simp at hlen
      | cons l' ls =>
          rw [List.cons_append, List.cons_append, hitsAll, hitsAll, ih (by simpa using hlen),
            mul_assoc]

theorem resolve_eq_zipWith (ops : List Operation) : ∀ (st : Proxy) (ids : List Nat),
    (st.resolve ops ids).2 = List.zipWith (fun op id => st.labelOf op.key id) ops ids := by
  induction ops with
  | nil =>
      intro st ids
      cases ids <;> rfl
  | cons op ops ih =>
      intro st ids
      cases ids with
      | nil => rfl
      | cons id ids =>
          show st.labelOf op.key id :: ((st.lookUp op.key id).resolve ops ids).2 = _
          rw [ih, (frame_lookUp st op.key id).labelOf]
          rfl

/-- **The replicas are drawn independently.** -/
theorem prob_labels {st : Proxy} (hm : ∀ key, st.missingNewReplicas.lookup key = none)
    (ops : List Operation) : ∀ (isTrues : List Bool) (ls : List Str),
    isTrues.length = ops.length →
    ((st.chooseReplicas ops isTrues).map
      (Except.map fun ids => List.zipWith (fun op id => st.labelOf op.key id) ops ids)).prob
        (· = .ok ls) = st.hitsAll ops ls := by
  induction ops with
  | nil =>
      intro isTrues ls _
      cases ls with
      | nil => rfl
      | cons l ls => rfl
  | cons op ops ih =>
      intro isTrues ls hlen
      cases isTrues with
      | nil => simp at hlen
      | cons t isTrues =>
          have hrest := ih isTrues
          rw [Sampler.prob, Sampler.expect_map, chooseReplicas,
            UpdateCache.sampleAReplica_of_none (hm op.key), Sampler.expect_bind]
          cases ls with
          | nil =>
              refine (Sampler.expect_zero (fun r => ?_) _).trans rfl
              cases r with
              | error e => simp [Except.map]
              | ok id =>
                  show Sampler.expect _ ((st.chooseReplicas ops isTrues).map _) = 0
                  rw [Sampler.expect_map]
                  refine Sampler.expect_zero (fun r' => ?_) _
                  cases r' <;> simp [Except.map]
          | cons l ls =>
              rw [hitsAll, ← hrest ls (by simpa using hlen), hits, ← Sampler.expect_mul_const]
              congr 1
              funext r
              cases r with
              | error e => simp [Except.map]
              | ok id =>
                  show Sampler.expect _ ((st.chooseReplicas ops isTrues).map _) = _
                  rw [Sampler.expect_map, Sampler.prob, Sampler.expect_map,
                    ← Sampler.expect_const_mul]
                  congr 1
                  funext r'
                  cases r' with
                  | error e => simp [Except.map]
                  | ok ids =>
                      by_cases hl : st.labelOf op.key id = l
                      · simp [Except.map, hl]
                      · simp [Except.map, hl]

/-- The labels of a batch are those of its replicas. -/
theorem prob_labelsOf {st : Proxy} (hm : ∀ key, st.missingNewReplicas.lookup key = none)
    {b : Batch} {ls : List Str} (hlen : b.isTrues.length = b.operations.length) :
    (st.labelsOf b).prob (· = .ok ls) = st.hitsAll b.operations ls := by
  rw [← prob_labels hm b.operations b.isTrues ls hlen, labelsOf]
  congr 2
  funext r
  cases r with
  | error e => rfl
  | ok ids => exact congrArg Except.ok (resolve_eq_zipWith b.operations st ids)

/-- The slots of a batch, one after another. -/
theorem expect_securitySlots {st : Proxy} (hm : ∀ key, st.missingNewReplicas.lookup key = none)
    (ls : List Str) : ∀ (q : OpQueue) (b : Batch) (done : List Str),
    b.isTrues.length = b.operations.length → done.length = b.operations.length →
    (st.securitySlots ls.length q b).expect
        (fun s => (st.labelsOf s.2).prob (· = .ok (done ++ ls)))
      = st.hitsAll b.operations done * st.sequenceHits ls q := by
  induction ls with
  | nil =>
      intro q b done htrues _
      rw [List.append_nil, sequenceHits, mul_one]
      exact prob_labelsOf hm htrues
  | cons l ls ih =>
      intro q b done htrues hlen
      rw [List.length_cons, securitySlots, Sampler.expect_bind, sequenceHits,
        ← Sampler.expect_const_mul]
      congr 1
      funext s
      rw [List.append_cons, ih s.1 (b.push s.2) (done ++ [l]) (by simp [Batch.push, htrues])
        (by simp [Batch.push, hlen])]
      rw [Batch.push, hitsAll_snoc b.operations hlen, mul_assoc]

/-! ## The queue the slots empty -/

/-- Some keys drawn, and then some more. -/
theorem expect_clientQueue_append (d : Distribution) (clients more : List (Str × Promise)) :
    ∀ f : List Queued → ℚ, (clientQueue d (clients ++ more)).expect f
      = (clientQueue d clients).expect fun q =>
          (clientQueue d more).expect fun q' => f (q ++ q') := by
  induction clients with
  | nil =>
      intro f
      rfl
  | cons client clients ih =>
      intro f
      simp only [List.cons_append, clientQueue, Sampler.expect_bind, Sampler.expect_map, ih]

theorem expect_drawnQueue (d : Distribution) (waiting : List (Str × Promise))
    (arriving : List (List (Str × Promise))) (f : OpQueue → ℚ) :
    (drawnQueue d waiting arriving).expect f = (clientQueue d waiting).expect fun pending =>
      (arrivingClients d arriving).expect fun arrivals =>
        f { pending := pending, arrivals := fun i => arrivals.getD i [] } := by
  simp only [drawnQueue, Sampler.expect_bind, Sampler.expect_map]

/-- **A look**: those that have arrived wait. -/
theorem expect_look (d : Distribution) (waiting : List (Str × Promise))
    (arriving : List (List (Str × Promise))) (f : OpQueue → ℚ) :
    (drawnQueue d waiting arriving).expect (fun q => f q.look)
      = (drawnQueue d (waiting ++ arriving.headD []) arriving.tail).expect f := by
  rw [expect_drawnQueue, expect_drawnQueue, expect_clientQueue_append]
  congr 1
  funext pending
  cases arriving with
  | nil =>
      show f _ = f _
      simp [OpQueue.look]
  | cons clients later =>
      simp only [arrivingClients, Sampler.expect_bind, Sampler.expect_map, List.headD_cons,
        List.tail_cons]
      rfl

/-- **The first client**: its key is drawn, and then the others'. -/
theorem expect_drawnQueue_cons (d : Distribution) (value : Str) (promise : Promise)
    (waiting : List (Str × Promise)) (arriving : List (List (Str × Promise))) (f : OpQueue → ℚ) :
    (drawnQueue d ((value, promise) :: waiting) arriving).expect f = d.sample.expect fun key =>
      (drawnQueue d waiting arriving).expect fun q =>
        f { q with pending := (⟨key, value⟩, promise) :: q.pending } := by
  simp only [expect_drawnQueue, clientQueue, Sampler.expect_bind, Sampler.expect_map]

theorem expect_one_sample {d : Distribution} (h : d.probabilities.sum = 1) {f : Str → ℚ}
    (hf : ∀ key, f key = 1) : d.sample.expect f = 1 := by
  simp only [Distribution.sample, Sampler.expect, hf, mul_one, h, div_one]
  rw [Sampler.sum_getD, h]

theorem expect_one_clientQueue {d : Distribution} (h : d.probabilities.sum = 1)
    (clients : List (Str × Promise)) : ∀ {f : List Queued → ℚ}, (∀ q, f q = 1) →
    (clientQueue d clients).expect f = 1 := by
  induction clients with
  | nil => exact fun hf => hf []
  | cons client clients ih =>
      intro f hf
      simp only [clientQueue, Sampler.expect_bind, Sampler.expect_map]
      exact expect_one_sample h fun key => ih fun q => hf _

theorem expect_one_arrivingClients {d : Distribution} (h : d.probabilities.sum = 1)
    (arriving : List (List (Str × Promise))) : ∀ {f : List (List Queued) → ℚ}, (∀ q, f q = 1) →
    (arrivingClients d arriving).expect f = 1 := by
  induction arriving with
  | nil => exact fun hf => hf []
  | cons clients later ih =>
      intro f hf
      simp only [arrivingClients, Sampler.expect_bind, Sampler.expect_map]
      exact expect_one_clientQueue h clients fun q => ih fun arrivals => hf _

/-! ## Every sequence is equally likely -/

/-- How likely a draw of the distribution hits the label. -/
def drawHits (st : Proxy) (d : Distribution) (label : Str) : ℚ :=
  d.sample.expect fun key => st.hits key label

/-- **The run of slots**: if one slot hits every label with probability `u`,
some slots hit a sequence with the power of `u`. -/
theorem expect_sequenceHits {st : Proxy} {c u : ℚ}
    (hcoin : st.isTrueDistribution = .coin c .done)
    (hnorm : st.realDistribution.probabilities.sum = 1)
    (ls : List Str) : ∀ (waiting : List (Str × Promise)) (arriving : List (List (Str × Promise))),
    (∀ l ∈ ls, Sampler.clamp c * st.drawHits st.realDistribution l +
      (1 - Sampler.clamp c) * st.drawHits st.fakeDistribution l = u) →
    (drawnQueue st.realDistribution waiting arriving).expect (st.sequenceHits ls)
      = u ^ ls.length := by
  induction ls with
  | nil =>
      intro waiting arriving _
      rw [expect_drawnQueue, List.length_nil, pow_zero]
      exact expect_one_clientQueue hnorm waiting fun _ =>
        expect_one_arrivingClients hnorm arriving fun _ => rfl
  | cons l ls ih =>
      intro waiting arriving hu
      have ih := fun waiting arriving =>
        ih waiting arriving fun l' hl' => hu l' (List.mem_cons_of_mem l hl')
      -- a real access, by what the queue shows
      let real : OpQueue → ℚ := fun q => q.pending.head?.elim
        (st.drawHits st.realDistribution l * st.sequenceHits ls q) fun p =>
          st.hits p.1.key l * st.sequenceHits ls { q with pending := q.pending.tail }
      have hslot : ∀ q, st.sequenceHits (l :: ls) q = Sampler.clamp c * real q.look +
          (1 - Sampler.clamp c) * st.drawHits st.fakeDistribution l * st.sequenceHits ls q := by
        intro q
        rw [sequenceHits, securitySlot, hcoin, Sampler.expect_bind]
        simp only [Sampler.expect, if_true, Bool.false_eq_true, if_false, Sampler.expect_map]
        congr 1
        · congr 1
          simp only [real]
          cases hq : q.look.pending with
          | nil =>
              show _ = st.drawHits st.realDistribution l * _
              rw [Sampler.expect_map, drawHits, ← Sampler.expect_mul_const]
          | cons head rest => rfl
        · rw [drawHits, mul_assoc, ← Sampler.expect_mul_const]
      have hreal : (drawnQueue st.realDistribution waiting arriving).expect (fun q => real q.look)
          = st.drawHits st.realDistribution l * u ^ ls.length := by
        rw [expect_look]
        cases waiting ++ arriving.headD [] with
        | nil =>
            rw [← ih [] arriving.tail, ← Sampler.expect_const_mul, expect_drawnQueue,
              expect_drawnQueue]
            rfl
        | cons client rest =>
            obtain ⟨value, promise⟩ := client
            rw [expect_drawnQueue_cons, drawHits, ← Sampler.expect_mul_const]
            congr 1
            funext key
            rw [← ih rest arriving.tail, ← Sampler.expect_const_mul]
            rfl
      calc (drawnQueue st.realDistribution waiting arriving).expect (st.sequenceHits (l :: ls))
          = Sampler.clamp c * (st.drawHits st.realDistribution l * u ^ ls.length) +
            (1 - Sampler.clamp c) * st.drawHits st.fakeDistribution l * u ^ ls.length := by
            simp only [funext hslot]
            rw [Sampler.expect_add, Sampler.expect_const_mul, Sampler.expect_const_mul, hreal, ih]
        _ = (Sampler.clamp c * st.drawHits st.realDistribution l +
            (1 - Sampler.clamp c) * st.drawHits st.fakeDistribution l) * u ^ ls.length := by ring
        _ = u ^ (l :: ls).length := by
            rw [hu l List.mem_cons_self, List.length_cons, pow_succ']

/-- **The labels of some slots**, if each is hit by one slot with probability `u`. -/
theorem prob_slotLabels {st : Proxy} {c u : ℚ}
    (hm : ∀ key, st.missingNewReplicas.lookup key = none)
    (hcoin : st.isTrueDistribution = .coin c .done)
    (hnorm : st.realDistribution.probabilities.sum = 1)
    {ls : List Str} (hu : ∀ l ∈ ls, Sampler.clamp c * st.drawHits st.realDistribution l +
      (1 - Sampler.clamp c) * st.drawHits st.fakeDistribution l = u)
    (waiting : List (Str × Promise)) (arriving : List (List (Str × Promise))) :
    ((drawnQueue st.realDistribution waiting arriving).bind (st.slotLabels ls.length)).prob
        (· = .ok ls) = u ^ ls.length := by
  rw [← expect_sequenceHits hcoin hnorm ls waiting arriving hu, Sampler.prob, Sampler.expect_bind]
  congr 1
  funext q
  have hslots := expect_securitySlots hm ls q ⟨[], [], []⟩ [] rfl rfl
  rw [hitsAll, one_mul] at hslots
  rw [slotLabels, Sampler.expect_bind]
  exact hslots

/-! ## What one access hits -/

/-- The replica with the label is hit as often as any of its key, and no other. -/
theorem hits_eq {st : Proxy} {keys : List Str} (h : st.UniquelyLabelled keys) {r : Str × Nat}
    (hr : st.Live keys r) {key : Str} (hkey : key ∈ keys ++ [st.dummyKey]) :
    st.hits key (st.labelOf r.1 r.2) = if key = r.1 then 1 / (st.replicas r.1 : ℚ) else 0 := by
  have hhit : ∀ i < st.replicas key,
      st.labelOf key i = st.labelOf r.1 r.2 ↔ key = r.1 ∧ i = r.2 := by
    intro i hi
    constructor
    · intro he
      have := h.injective (key, i) r ⟨hkey, hi⟩ hr he
      exact ⟨congrArg Prod.fst this, congrArg Prod.snd this⟩
    · rintro ⟨rfl, rfl⟩
      rfl
  rw [hits, randMod]
  split
  · rename_i hzero
    rw [if_neg fun he => ?_]
    · simp [Except.map]
    · have hlt : r.2 < st.replicas r.1 := hr.2
      rw [← he, hzero] at hlt
      omega
  · rw [Sampler.expect]
    by_cases he : key = r.1
    · rw [if_pos he, ← he]
      congr 1
      rw [Finset.sum_eq_single_of_mem r.2 (Finset.mem_range.mpr (he ▸ hr.2))]
      · simp [Except.map, he]
      · intro i hi hne
        have : ¬ st.labelOf key i = st.labelOf key r.2 := fun hl =>
          hne ((hhit i (Finset.mem_range.mp hi)).mp (by rw [hl, he])).2
        simp [Except.map, this]
    · rw [if_neg he, Finset.sum_eq_zero, zero_div]
      intro i hi
      have : ¬ st.labelOf key i = st.labelOf r.1 r.2 := fun hl =>
        he ((hhit i (Finset.mem_range.mp hi)).mp hl).1
      simp [Except.map, this]

/-- A draw hits a label of one of its keys with the key's share. -/
theorem drawHits_eq {st : Proxy} {d : Distribution} {label key : Str} {a : ℚ} {j : Nat}
    (hlen : d.items.length = d.probabilities.length) (hnd : d.items.Nodup)
    (hj : d.items[j]? = some key)
    (hhits : ∀ k ∈ d.items, st.hits k label = if k = key then a else 0) :
    st.drawHits d label = d.probabilities.getD j 0 * a / d.probabilities.sum := by
  have hlt : j < d.items.length := (List.getElem?_eq_some_iff.mp hj).1
  have hget : ∀ i < d.items.length, d.items.getD i [] = d.items[i]?.getD [] := fun i _ =>
    List.getD_eq_getElem?_getD
  rw [drawHits, Distribution.sample, Sampler.expect_weighted_single (hlen ▸ hlt)]
  · rw [Sampler.expect_done, hget j hlt, hj, Option.getD_some,
      hhits key (List.mem_of_getElem? hj), if_pos rfl]
  · intro i hi hne
    have hi' : i < d.items.length := hlen ▸ hi
    rw [Sampler.expect_done, hget i hi', List.getElem?_eq_getElem hi', Option.getD_some,
      hhits _ (List.getElem_mem hi'), if_neg]
    intro he
    refine hne ((List.getElem?_inj hi' hnd).mp ?_)
    rw [List.getElem?_eq_getElem hi', he, hj]

theorem drawHits_eq_zero {st : Proxy} {d : Distribution} {label : Str}
    (hlen : d.items.length = d.probabilities.length)
    (hhits : ∀ k ∈ d.items, st.hits k label = 0) : st.drawHits d label = 0 := by
  rw [drawHits, Distribution.sample, Sampler.expect_weighted_none]
  intro i hi
  have hi' : i < d.items.length := hlen ▸ hi
  rw [Sampler.expect_done, List.getD_eq_getElem?_getD, List.getElem?_eq_getElem hi',
    Option.getD_some, hhits _ (List.getElem_mem hi')]

end Proxy

end Pancake
