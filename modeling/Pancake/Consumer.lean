import Pancake.Steady

/-!
# The consumer

`consumer_thread` turns what arrives in its queue into security batches until
there is a storage batch, and executes it. What the storage server sees of it
— which labels are read and written, in which order — depends on the keys
queued and on the draws, never on which operations are puts or on any value:
two runs that differ in those are coupled step by step (`Alike`).
-/

namespace Pancake

open LazyReplicas

/-- What `consumer_thread` keeps between two looks at its queue. -/
structure Consumer where
  queue : OpQueue
  operationsServiced : Int := 0
  previousTotalOperations : Int := 0
  storageBatch : Batch := ⟨[], [], []⟩
  fulfilled : List (Promise × Str) := []

namespace Proxy

/-- `n` security batches in a row. -/
def securityBatches (st : Proxy) : Nat → OpQueue → Batch → Sampler (OpQueue × Batch)
  | 0, q, b => .done (q, b)
  | n + 1, q, b => (st.createSecurityBatch q b).bind fun s => st.securityBatches n s.1 s.2

/-- The body of the inner loop of `consumer_thread`: one security batch for
each operation the queue has gained. -/
def consumerPass (st : Proxy) (c : Consumer) : Sampler Consumer :=
  let queue := c.queue.look
  let totalOperations : Int := queue.pending.length + c.operationsServiced
  let i := (totalOperations - c.previousTotalOperations).toNat
  (st.securityBatches i queue c.storageBatch).map fun s =>
    if i ≠ 0 then
      { c with queue := s.1
               storageBatch := s.2
               operationsServiced := c.operationsServiced + i
               previousTotalOperations := totalOperations }
    else { c with queue := s.1, storageBatch := s.2 }

/-- One turn of `consumer_thread`, with the value its inner loop reads of
`finished_`: another pass while the batch is short, else the batch's turn. -/
def consumerStep (st : Proxy) (c : Consumer) (finished : Bool) :
    Sampler (Except Fault (Proxy × Consumer)) :=
  if c.storageBatch.operations.length < st.storageBatchSize ∧ finished = false then
    (st.consumerPass c).map fun c => .ok (st, c)
  else
    (st.executeBatch c.storageBatch).map (Except.map fun s =>
      (s.1, { c with storageBatch := ⟨[], [], []⟩, fulfilled := c.fulfilled ++ s.2 }))

/-- `consumer_thread`, for the values of `finished_` it reads. -/
def consumerThread (st : Proxy) (c : Consumer) :
    List Bool → Sampler (Except Fault (Proxy × Consumer))
  | [] => .done (.ok (st, c))
  | finished :: flags =>
      (st.consumerStep c finished).bind fun
        | .error e => .done (.error e)
        | .ok (st, c) => if finished then .done (.ok (st, c)) else st.consumerThread c flags

end Proxy

/-! ## What the server sees -/

/-- A request without its ciphertexts: whether it writes, and the labels. -/
def Request.view : Request → Bool × List Str
  | .getBatch labels _ => (false, labels)
  | .putBatch labels _ => (true, labels)

/-- Every `get_batch` is followed by a `put_batch` of the same labels. -/
inductive ReadThenWrite : List Request → Prop
  | nil : ReadThenWrite []
  | snoc {rs : List Request} (h : ReadThenWrite rs) (labels ciphers storageValues : List Str) :
      ReadThenWrite (rs ++ [.getBatch labels ciphers, .putBatch labels storageValues])

theorem ReadThenWrite.append {rs rs' : List Request} (h : ReadThenWrite rs)
    (h' : ReadThenWrite rs') : ReadThenWrite (rs ++ rs') := by
  induction h' with
  | nil => simpa using h
  | snoc _ labels ciphers values ih =>
      rw [← List.append_assoc]
      exact .snoc ih labels ciphers values

/-- The number of labels read. -/
def labelsRead (rs : List Request) : Nat :=
  (rs.map fun
    | .getBatch labels _ => labels.length
    | .putBatch _ _ => 0).sum

theorem labelsRead_append (rs rs' : List Request) :
    labelsRead (rs ++ rs') = labelsRead rs + labelsRead rs' := by
  simp [labelsRead]

/-! ## Queues and batches that differ in kinds and values only -/

/-- Same key, same promise. -/
def Queued.Same (p p' : Queued) : Prop := p.1.key = p'.1.key ∧ p.2 = p'.2

/-- The same keys and promises, now and in every later arrival. -/
structure OpQueue.Same (q q' : OpQueue) : Prop where
  pending : List.Forall₂ Queued.Same q.pending q'.pending
  arrivals : ∀ i, List.Forall₂ Queued.Same (q.arrivals i) (q'.arrivals i)

/-- The same keys, flags and promises. -/
structure Batch.Same (b b' : Batch) : Prop where
  keys : b.operations.map Operation.key = b'.operations.map Operation.key
  isTrues : b.isTrues = b'.isTrues
  promises : b.promises = b'.promises

/-- Everything a consumer keeps but kinds and values. -/
structure Consumer.Same (c c' : Consumer) : Prop where
  queue : c.queue.Same c'.queue
  operationsServiced : c.operationsServiced = c'.operationsServiced
  previousTotalOperations : c.previousTotalOperations = c'.previousTotalOperations
  storageBatch : c.storageBatch.Same c'.storageBatch

theorem OpQueue.Same.look {q q' : OpQueue} (h : q.Same q') : q.look.Same q'.look where
  pending := List.rel_append h.pending (h.arrivals 0)
  arrivals i := h.arrivals (i + 1)

namespace Proxy

/-- An operation whose key has a replica and whose value, if any, round-trips. -/
def Legal (st : Proxy) (op : Operation) : Prop :=
  0 < st.replicas op.key ∧ (op.value ≠ [] → st.encryptionEngine.RoundTrips op.value)

/-- All operations of a queue are legal, now and when they arrive. -/
structure LegalQueue (st : Proxy) (q : OpQueue) : Prop where
  pending : ∀ p ∈ q.pending, st.Legal p.1
  arrivals : ∀ i, ∀ p ∈ q.arrivals i, st.Legal p.1

/-- A batch in the making: parallel vectors of legal operations. -/
structure LegalBatch (st : Proxy) (b : Batch) : Prop where
  truesLength : b.isTrues.length = b.operations.length
  promisesLength : b.isTrues.count true = b.promises.length
  legal : ∀ op ∈ b.operations, st.Legal op

theorem LegalBatch.wellFormed {st : Proxy} {b : Batch} (h : st.LegalBatch b) :
    b.WellFormed st.encryptionEngine :=
  ⟨h.truesLength, h.promisesLength.le, fun op hop => (h.legal op hop).2⟩

theorem Legal.frame {st st' : Proxy} {op : Operation} (h : st.Legal op) (hf : Frame st st') :
    st'.Legal op := by
  rw [Legal, hf.replicas, hf.engine]
  exact h

theorem LegalQueue.look {st : Proxy} {q : OpQueue} (h : st.LegalQueue q) :
    st.LegalQueue q.look where
  pending p hp := (List.mem_append.mp hp).elim (h.pending p) (h.arrivals 0 p)
  arrivals i := h.arrivals (i + 1)

theorem LegalBatch.push {st : Proxy} {b : Batch} (h : st.LegalBatch b) {s : Slot}
    (hs : st.Legal s.operation) : st.LegalBatch (b.push s) where
  truesLength := by simp [Batch.push, h.truesLength]
  promisesLength := by
    cases hp : s.promise <;> simp [Batch.push, hp, h.promisesLength]
  legal op hop := by
    rcases List.mem_append.mp hop with hop | hop
    · exact h.legal op hop
    · rw [List.mem_singleton.mp hop]
      exact hs

theorem legal_of_draw {st : Proxy} {d : Distribution} (h : st.Draws d) {i : Nat}
    (hi : 0 < d.probabilities.getD i 0) : st.Legal ⟨d.items.getD i [], []⟩ :=
  ⟨h.live i hi, fun hc => absurd rfl hc⟩

/-! ## One turn of each run -/

/-- Two proxies that differ in stored and pending values only. -/
structure Alike (st st' : Proxy) : Prop where
  steady : st.Steady
  steady' : st'.Steady
  tables : SameTables st st'
  view : st.storage.requests.map Request.view = st'.storage.requests.map Request.view

/-- A queue and a batch of each run: alike, and legal. -/
structure Made (st st' : Proxy) (s s' : OpQueue × Batch) : Prop where
  queue : s.1.Same s'.1
  batch : s.2.Same s'.2
  legalQueue : st.LegalQueue s.1
  legalQueue' : st'.LegalQueue s'.1
  legalBatch : st.LegalBatch s.2
  legalBatch' : st'.LegalBatch s'.2

theorem coupled_prob (q : Quotient) : Sampler.Coupled Eq (prob q) (prob q) := by
  cases q <;> exact .coin fun b => .done rfl

/-- A draw of a distribution is the same legal get in both runs. -/
theorem coupled_draw {st st' : Proxy} {d : Distribution} (h : st.Draws d) (h' : st'.Draws d) :
    Sampler.Coupled (fun k k' => k = k' ∧ st.Legal ⟨k, []⟩ ∧ st'.Legal ⟨k, []⟩) d.sample d.sample :=
  .weighted h.total fun _ hi => .done ⟨rfl, legal_of_draw h hi, legal_of_draw h' hi⟩

theorem Batch.Same.push {b b' : Batch} (h : b.Same b') {op op' : Operation} (hk : op.key = op'.key)
    (p : Option Promise) : (b.push ⟨op, p⟩).Same (b'.push ⟨op', p⟩) where
  keys := by simp [Batch.push, h.keys, hk]
  isTrues := by simp [Batch.push, h.isTrues]
  promises := by simp [Batch.push, h.promises]

section Coupled

variable {st st' : Proxy} (h : Alike st st')
include h

theorem coupled_coin : Sampler.Coupled Eq st.isTrueDistribution st'.isTrueDistribution := by
  have ht := h.tables
  rw [SameTables] at ht
  rw [isTrueDistribution, isTrueDistribution, ht]
  exact coupled_prob _

/-- **A slot** takes the same key from the same place in both runs. -/
theorem coupled_slot {q q' : OpQueue} {b b' : Batch} (hm : Made st st' (q, b) (q', b')) :
    Sampler.Coupled (fun s s' => Made st st' (s.1, b.push s.2) (s'.1, b'.push s'.2))
      (st.securitySlot q) (st'.securitySlot q') := by
  have hreal : st'.realDistribution = st.realDistribution := by rw [h.tables]
  have hfake : st'.fakeDistribution = st.fakeDistribution := by rw [h.tables]
  have hdraw : ∀ {d : Distribution} {q₁ q₁' : OpQueue}, st.Draws d → st'.Draws d →
      q₁.Same q₁' → st.LegalQueue q₁ → st'.LegalQueue q₁' →
      Sampler.Coupled (fun s s' => Made st st' (s.1, b.push s.2) (s'.1, b'.push s'.2))
        (d.sample.map fun key => (q₁, (⟨⟨key, []⟩, none⟩ : Slot)))
        (d.sample.map fun key => (q₁', (⟨⟨key, []⟩, none⟩ : Slot))) := by
    intro d q₁ q₁' hd hd' hsame hl hl'
    refine (coupled_draw hd hd').map ?_
    rintro k _ ⟨rfl, hk, hk'⟩
    exact ⟨hsame, Batch.Same.push hm.batch rfl none, hl, hl', hm.legalBatch.push hk,
      hm.legalBatch'.push hk'⟩
  refine (coupled_coin h).bind ?_
  rintro isTrue _ rfl
  cases isTrue with
  | false =>
      simp only [Bool.false_eq_true, if_false, hfake]
      exact hdraw h.steady.fake (hfake ▸ h.steady'.fake) hm.queue hm.legalQueue hm.legalQueue'
  | true =>
      have hlook := hm.queue.look
      have hl := hm.legalQueue.look
      have hl' := hm.legalQueue'.look
      simp only [if_true, hreal]
      cases hp : q.look.pending with
      | nil =>
          have hp' : q'.look.pending = [] := by
            have := hlook.pending
            rw [hp] at this
            simpa using this
          simp only [hp']
          exact hdraw h.steady.real (hreal ▸ h.steady'.real) hlook hl hl'
      | cons p rest =>
          have hpend := hlook.pending
          rw [hp] at hpend
          obtain ⟨p', rest', ⟨hkey, hpromise⟩, hrest, hp'⟩ := List.forall₂_cons_left_iff.mp hpend
          simp only [hp']
          have hpl : st.Legal p.1 := hl.pending p (by simp [hp])
          have hpl' : st'.Legal p'.1 := hl'.pending p' (by simp [hp'])
          refine .done
            { queue := ⟨hrest, hlook.arrivals⟩
              batch := ?_
              legalQueue := ⟨fun x hx => hl.pending x (by simp [hp, hx]), hl.arrivals⟩
              legalQueue' := ⟨fun x hx => hl'.pending x (by simp [hp', hx]), hl'.arrivals⟩
              legalBatch := hm.legalBatch.push hpl
              legalBatch' := hm.legalBatch'.push hpl' }
          rw [hpromise]
          exact Batch.Same.push hm.batch hkey _

/-- **The slots** of a security batch: as many labels as there are slots. -/
theorem coupled_slots (n : Nat) {q q' : OpQueue} {b b' : Batch}
    (hm : Made st st' (q, b) (q', b')) :
    Sampler.Coupled (fun s s' => Made st st' s s' ∧
        s.2.operations.length = b.operations.length + n)
      (st.securitySlots n q b) (st'.securitySlots n q' b') := by
  induction n generalizing q q' b b' with
  | zero => exact .done ⟨hm, rfl⟩
  | succ n ih =>
      refine (coupled_slot h hm).bind fun s s' hs => ?_
      have hlen : (b.push s.2).operations.length = b.operations.length + 1 := by simp [Batch.push]
      have := ih hs
      rw [hlen] at this
      rwa [show b.operations.length + (n + 1) = b.operations.length + 1 + n by omega]

theorem coupled_securityBatches (n : Nat) {q q' : OpQueue} {b b' : Batch}
    (hm : Made st st' (q, b) (q', b')) :
    Sampler.Coupled (fun s s' => Made st st' s s' ∧
        s.2.operations.length = b.operations.length + n * st.securityBatchSize)
      (st.securityBatches n q b) (st'.securityBatches n q' b') := by
  have hsize : st'.securityBatchSize = st.securityBatchSize := by rw [h.tables]
  induction n generalizing q q' b b' with
  | zero => exact .done ⟨hm, by simp⟩
  | succ n ih =>
      rw [securityBatches, securityBatches, createSecurityBatch, createSecurityBatch, hsize]
      refine (coupled_slots h _ hm).bind fun s s' hs => ?_
      have := ih hs.1
      rw [hs.2] at this
      rwa [show b.operations.length + (n + 1) * st.securityBatchSize
        = b.operations.length + st.securityBatchSize + n * st.securityBatchSize by ring]

/-- **The draws** of `execute_batch` give the same replica ids. -/
theorem coupled_chooseReplicas {ops ops' : List Operation} {isTrues : List Bool}
    (hkeys : ops.map Operation.key = ops'.map Operation.key)
    (hlen : isTrues.length = ops.length) (hlive : ∀ op ∈ ops, 0 < st.replicas op.key) :
    Sampler.Coupled (fun r r' => r = r' ∧ ∃ ids, r = .ok ids ∧
        List.Forall₂ (fun op id => id < st.replicas op.key) ops ids)
      (st.chooseReplicas ops isTrues) (st'.chooseReplicas ops' isTrues) := by
  induction ops generalizing ops' isTrues with
  | nil =>
      obtain rfl : ops' = [] := by simpa using hkeys.symm
      exact .done ⟨rfl, [], rfl, .nil⟩
  | cons op ops ih =>
      cases ops' with
      | nil => simp at hkeys
      | cons op' ops' =>
      cases isTrues with
      | nil => simp at hlen
      | cons t isTrues =>
      simp only [List.map_cons, List.cons.injEq] at hkeys
      simp only [List.length_cons, Nat.add_right_cancel_iff] at hlen
      have hr : st'.replicas op'.key = st.replicas op.key := by
        rw [h.tables.frame.replicas, hkeys.1]
      have hpos := hlive op (by simp)
      rw [chooseReplicas, chooseReplicas,
        UpdateCache.sampleAReplica_of_none (h.steady.noMissing _),
        UpdateCache.sampleAReplica_of_none (h.steady'.noMissing _), hr, randMod, if_neg hpos.ne']
      refine .uniform hpos fun i hi => ?_
      refine (ih hkeys.2 hlen fun o ho => hlive o (by simp [ho])).map ?_
      rintro r _ ⟨rfl, ids, rfl, hids⟩
      exact ⟨rfl, i :: ids, rfl, .cons hi hids⟩

end Coupled

/-- What a stretch of a consumer's run has sent: reads each followed by the
write of the same labels, `security_batch_size_` labels for every security
batch, but for those still in the batch. -/
def Sent (s s' : Proxy × Consumer) : Prop :=
  ∃ sent, s'.1.storage.requests = s.1.storage.requests ++ sent ∧ ReadThenWrite sent ∧
    (labelsRead sent + s'.2.storageBatch.operations.length : Int)
      = s.2.storageBatch.operations.length
        + s.1.securityBatchSize * (s'.2.operationsServiced - s.2.operationsServiced)

theorem Sent.refl (s : Proxy × Consumer) : Sent s s := ⟨[], by simp, .nil, by simp [labelsRead]⟩

theorem Sent.trans {s₁ s₂ s₃ : Proxy × Consumer} (h : Sent s₁ s₂) (h' : Sent s₂ s₃)
    (hsize : s₂.1.securityBatchSize = s₁.1.securityBatchSize) : Sent s₁ s₃ := by
  obtain ⟨a, ha, hra, hla⟩ := h
  obtain ⟨b, hb, hrb, hlb⟩ := h'
  refine ⟨a ++ b, by rw [hb, ha, List.append_assoc], hra.append hrb, ?_⟩
  rw [hsize] at hlb
  rw [labelsRead_append]
  push_cast
  linarith

/-- The states of the two runs after some turns: alike, and having sent. -/
structure Kept (s₀ s₀' s s' : Proxy × Consumer) : Prop where
  alike : Alike s.1 s'.1
  same : s.2.Same s'.2
  legal : s.1.LegalQueue s.2.queue ∧ s.1.LegalBatch s.2.storageBatch
  legal' : s'.1.LegalQueue s'.2.queue ∧ s'.1.LegalBatch s'.2.storageBatch
  size : s.1.securityBatchSize = s₀.1.securityBatchSize
  size' : s'.1.securityBatchSize = s₀'.1.securityBatchSize
  sent : Sent s₀ s
  sent' : Sent s₀' s'

/-- Both runs return, in kept states. -/
def BothKept (s₀ s₀' : Proxy × Consumer) (r r' : Except Fault (Proxy × Consumer)) : Prop :=
  ∃ s s', r = .ok s ∧ r' = .ok s' ∧ Kept s₀ s₀' s s'

/-- One `execute_batch` of a steady proxy sends a read and a write. -/
theorem sent_of_executed {st t : Proxy} {c : Consumer} {ids : List Nat}
    {fulfilled : List (Promise × Str)} (hx : Executed st c.storageBatch ids t fulfilled)
    (hids : ids.length = c.storageBatch.operations.length)
    (ht : c.storageBatch.isTrues.length = c.storageBatch.operations.length) :
    Sent (st, c) (t, { c with storageBatch := ⟨[], [], []⟩
                              fulfilled := c.fulfilled ++ fulfilled }) := by
  obtain ⟨cs, -, -, hreq⟩ := hx.written
  refine ⟨_, hreq, ?_, ?_⟩
  · exact ReadThenWrite.snoc .nil _ _ _
  · simp [labelsRead, batchAccesses, accesses_length _ _ _ _ ht hids]

section Turns

variable {s₀ s₀' s s' : Proxy × Consumer} (h : Kept s₀ s₀' s s')
include h

theorem Kept.trans {t t' : Proxy × Consumer} (h' : Kept s s' t t') : Kept s₀ s₀' t t' :=
  { h' with
    size := h'.size.trans h.size
    size' := h'.size'.trans h.size'
    sent := h.sent.trans h'.sent h.size
    sent' := h.sent'.trans h'.sent' h.size' }

/-- **A pass** adds the same number of security batches to both. -/
theorem Kept.pass : Sampler.Coupled (fun c c' => Kept s s' (s.1, c) (s'.1, c'))
    (s.1.consumerPass s.2) (s'.1.consumerPass s'.2) := by
  have hlook := h.same.queue.look
  have htotal : (s'.2.queue.look.pending.length : Int) + s'.2.operationsServiced
      = s.2.queue.look.pending.length + s.2.operationsServiced := by
    rw [hlook.pending.length_eq, h.same.operationsServiced]
  have hsize : s'.1.securityBatchSize = s.1.securityBatchSize := by rw [h.alike.tables]
  have hlen : s'.2.storageBatch.operations.length = s.2.storageBatch.operations.length := by
    have := congrArg List.length h.same.storageBatch.keys
    simpa using this.symm
  have hmade : Made s.1 s'.1 (s.2.queue.look, s.2.storageBatch)
      (s'.2.queue.look, s'.2.storageBatch) :=
    { queue := hlook
      batch := h.same.storageBatch
      legalQueue := h.legal.1.look
      legalQueue' := h.legal'.1.look
      legalBatch := h.legal.2
      legalBatch' := h.legal'.2 }
  unfold consumerPass
  simp only [htotal, h.same.previousTotalOperations]
  set i := ((s.2.queue.look.pending.length : Int) + s.2.operationsServiced
    - s'.2.previousTotalOperations).toNat with hi
  refine (coupled_securityBatches h.alike i hmade).map ?_
  rintro ⟨q, b⟩ ⟨q', b'⟩ ⟨hm, hb⟩
  have hb' : b'.operations.length = b.operations.length := by
    have := congrArg List.length hm.batch.keys
    simpa using this.symm
  simp only at hb
  by_cases hzero : i = 0
  · rw [if_neg (not_not.mpr hzero), if_neg (not_not.mpr hzero)]
    rw [hzero, Nat.zero_mul, Nat.add_zero] at hb
    exact
      { alike := h.alike
        same := ⟨hm.queue, h.same.operationsServiced, rfl, hm.batch⟩
        legal := ⟨hm.legalQueue, hm.legalBatch⟩
        legal' := ⟨hm.legalQueue', hm.legalBatch'⟩
        size := rfl
        size' := rfl
        sent := ⟨[], by simp, .nil, by simp [labelsRead, hb]⟩
        sent' := ⟨[], by simp, .nil, by simp [labelsRead, hb', hb, hlen]⟩ }
  · rw [if_pos hzero, if_pos hzero]
    exact
      { alike := h.alike
        same := ⟨hm.queue, by simp only [h.same.operationsServiced], rfl, hm.batch⟩
        legal := ⟨hm.legalQueue, hm.legalBatch⟩
        legal' := ⟨hm.legalQueue', hm.legalBatch'⟩
        size := rfl
        size' := rfl
        sent := ⟨[], by simp, .nil, by
          simp only [labelsRead, List.map_nil, List.sum_nil, hb]
          push_cast
          ring⟩
        sent' := ⟨[], by simp, .nil, by
          simp only [labelsRead, List.map_nil, List.sum_nil, hb', hb, hlen, hsize]
          push_cast
          ring⟩ }

/-- **A batch's turn**: both runs return, the same labels sent. -/
theorem Kept.execute : Sampler.Coupled (BothKept s s')
    ((s.1.executeBatch s.2.storageBatch).map (Except.map fun r =>
      (r.1, { s.2 with storageBatch := ⟨[], [], []⟩, fulfilled := s.2.fulfilled ++ r.2 })))
    ((s'.1.executeBatch s'.2.storageBatch).map (Except.map fun r =>
      (r.1, { s'.2 with storageBatch := ⟨[], [], []⟩, fulfilled := s'.2.fulfilled ++ r.2 }))) := by
  have hb := h.same.storageBatch
  rw [executeBatch, executeBatch, ← hb.isTrues]
  refine ((coupled_chooseReplicas h.alike hb.keys h.legal.2.truesLength
    fun op hop => (h.legal.2.legal op hop).1).map (Q := fun r r' => ∃ t f t' f', r = .ok (t, f) ∧
      r' = .ok (t', f') ∧ Kept s s'
        (t, { s.2 with storageBatch := ⟨[], [], []⟩, fulfilled := s.2.fulfilled ++ f })
        (t', { s'.2 with storageBatch := ⟨[], [], []⟩, fulfilled := s'.2.fulfilled ++ f' })) ?_).map ?_
  · rintro r _ ⟨rfl, ids, rfl, hids⟩
    have hids' : List.Forall₂ (fun op id => id < s'.1.replicas op.key)
        s'.2.storageBatch.operations ids := by
      rw [h.alike.tables.frame.replicas]
      have hmap : List.Forall₂ (fun key id => id < s.1.replicas key)
          (s.2.storageBatch.operations.map Operation.key) ids := List.forall₂_map_left_iff.mpr hids
      rw [hb.keys] at hmap
      exact List.forall₂_map_left_iff.mp hmap
    obtain ⟨t, f, hrun, hx, hsteady⟩ :=
      h.alike.steady.executeBatchWith h.legal.2.wellFormed hids
    obtain ⟨t', f', hrun', hx', hsteady'⟩ :=
      h.alike.steady'.executeBatchWith h.legal'.2.wellFormed hids'
    obtain ⟨htables, hlabels⟩ := h.alike.tables.resolve hb.keys ids
    have hview : t.storage.requests.map Request.view = t'.storage.requests.map Request.view := by
      obtain ⟨cs, -, -, hreq⟩ := hx.written
      obtain ⟨cs', -, -, hreq'⟩ := hx'.written
      have hl := resolve_labels s.2.storageBatch.operations s.1 s.2.storageBatch.isTrues ids
        h.legal.2.truesLength hids.length_eq.symm
      have hl' := resolve_labels s'.2.storageBatch.operations s'.1 s'.2.storageBatch.isTrues ids
        h.legal'.2.truesLength hids'.length_eq.symm
      rw [hreq, hreq', List.map_append, List.map_append, h.alike.view]
      simp only [List.map_cons, List.map_nil, Request.view, batchAccesses, ← hl, ← hl', hlabels]
    refine ⟨t, f, t', f', hrun, hrun', ?_⟩
    exact
      { alike := ⟨hsteady, hsteady', ((sameTables_executeBatchWith hrun).1.symm.trans htables).trans
          (sameTables_executeBatchWith hrun').1, hview⟩
        same := ⟨h.same.queue, h.same.operationsServiced, h.same.previousTotalOperations,
          ⟨rfl, rfl, rfl⟩⟩
        legal := ⟨⟨fun p hp => (h.legal.1.pending p hp).frame hx.frame,
          fun i p hp => (h.legal.1.arrivals i p hp).frame hx.frame⟩, ⟨rfl, rfl, by simp⟩⟩
        legal' := ⟨⟨fun p hp => (h.legal'.1.pending p hp).frame hx'.frame,
          fun i p hp => (h.legal'.1.arrivals i p hp).frame hx'.frame⟩, ⟨rfl, rfl, by simp⟩⟩
        size := by rw [hx.frame.rest]
        size' := by rw [hx'.frame.rest]
        sent := sent_of_executed hx hids.length_eq.symm h.legal.2.truesLength
        sent' := sent_of_executed hx' hids'.length_eq.symm h.legal'.2.truesLength }
  · rintro _ _ ⟨t, f, t', f', rfl, rfl, hk⟩
    exact ⟨_, _, rfl, rfl, hk⟩

/-- **A turn** of the consumer. -/
theorem Kept.step (finished : Bool) : Sampler.Coupled (BothKept s s')
    (s.1.consumerStep s.2 finished) (s'.1.consumerStep s'.2 finished) := by
  have hstorage : s'.1.storageBatchSize = s.1.storageBatchSize := by rw [h.alike.tables]
  have hlen : s'.2.storageBatch.operations.length = s.2.storageBatch.operations.length := by
    have := congrArg List.length h.same.storageBatch.keys
    simpa using this.symm
  unfold consumerStep
  rw [hstorage, hlen]
  split
  · exact h.pass.map fun c c' hk => ⟨_, _, rfl, rfl, hk⟩
  · exact h.execute

end Turns

/-- **The thread**: whatever `finished_` reads, both runs return, alike. -/
theorem Kept.thread (flags : List Bool) : ∀ {s₀ s₀' s s' : Proxy × Consumer},
    Kept s₀ s₀' s s' → Sampler.Coupled (BothKept s₀ s₀')
      (s.1.consumerThread s.2 flags) (s'.1.consumerThread s'.2 flags) := by
  induction flags with
  | nil => intro s₀ s₀' s s' h; exact .done ⟨s, s', rfl, rfl, h⟩
  | cons finished flags ih =>
      intro s₀ s₀' s s' h
      refine (h.step finished).bind ?_
      rintro _ _ ⟨t, t', rfl, rfl, hk⟩
      cases finished with
      | true => exact .done ⟨t, t', rfl, rfl, h.trans hk⟩
      | false => exact ih (h.trans hk)

/-! ## From `init` on -/

/-- A call of a well-formed batch. -/
structure WellFormedCall (st : Proxy) (c : Call) (st' : Proxy) : Prop extends
    st.Executes c st' where
  wellFormed : c.batch.WellFormed st.encryptionEngine

/-- `st` is reached from `init`, with some initial strings, by batches. -/
def Reached (st₀ : Proxy) (dist : Distribution) (alpha delta : ℚ) (st : Proxy) : Prop :=
  ∃ values st₁ calls, (∀ i, st₀.encryptionEngine.RoundTrips (values i)) ∧
    st₀.init dist alpha delta values = .ok st₁ ∧ Run WellFormedCall st₁ calls st

/-- A reached state is steady, and every key of the distribution has a replica. -/
theorem Reached.steady {st₀ st : Proxy} {dist : Distribution} {alpha delta : ℚ}
    (h : Reached st₀ dist alpha delta st) (hfresh : st₀.Fresh)
    (ha : CallerArguments dist alpha delta) :
    st.Steady ∧ (∀ key ∈ dist.items, 0 < st.replicas key) ∧
      st.encryptionEngine = st₀.encryptionEngine := by
  obtain ⟨values, st₁, calls, hv, hinit, hrun⟩ := h
  have hc := created_of_init (fun i => (hv i).encrypts) hinit
  have hfresh₁ := hfresh.takeArguments dist alpha delta
  refine hrun.invariant (I := fun _ st => st.Steady ∧ (∀ key ∈ dist.items, 0 < st.replicas key) ∧
    st.encryptionEngine = st₀.encryptionEngine) ?_ ?_
  · exact ⟨hc.steady hfresh₁ ha hv, fun key hk =>
      hc.replicas_pos hfresh₁ ha (List.mem_append_left _ hk), by rw [hc.rest]⟩
  · intro calls t c u _ hI hstep
    obtain ⟨hs, hk, he⟩ := hI
    have hids := (possible_chooseReplicas hs.noMissing hstep.wellFormed.truesLength).mp hstep.drawn
    obtain ⟨u', f, hrun', hx, hs'⟩ := hs.executeBatchWith hstep.wellFormed hids
    obtain ⟨rfl, -⟩ := Prod.mk.inj (Except.ok.inj (hstep.returns.symm.trans hrun'))
    exact ⟨hs', fun key hkey => by rw [hx.frame.replicas]; exact hk key hkey,
      by rw [hx.frame.engine, he]⟩

/-- Whatever the queue holds and the draws are, a security batch adds
`security_batch_size_` operations. -/
theorem createSecurityBatch_length (st : Proxy) (q : OpQueue) (b : Batch) (t : Sampler.Tape) :
    ((st.createSecurityBatch q b).run t).1.2.operations.length
      = b.operations.length + st.securityBatchSize := by
  have hslots : ∀ (n : Nat) (q : OpQueue) (b : Batch) (t : Sampler.Tape),
      ((st.securitySlots n q b).run t).1.2.operations.length = b.operations.length + n := by
    intro n
    induction n with
    | zero => intro q b t; rfl
    | succ n ih =>
        intro q b t
        rw [securitySlots, Sampler.run_bind, ih]
        simp only [Batch.push, List.length_append, List.length_singleton]
        omega
  exact hslots _ q b t

/-- The keys queued are keys of the distribution, and the values put round-trip. -/
structure QueuedFrom (dist : Distribution) (e : EncryptionEngine) (q : OpQueue) : Prop where
  pending : ∀ p ∈ q.pending, p.1.key ∈ dist.items ∧ (p.1.value ≠ [] → e.RoundTrips p.1.value)
  arrivals : ∀ i, ∀ p ∈ q.arrivals i,
    p.1.key ∈ dist.items ∧ (p.1.value ≠ [] → e.RoundTrips p.1.value)

/-- **The server cannot tell gets from puts.** Two consumers with the same
keys arriving, on proxies that differ in stored and pending values only, make
the server see the same labels read and written on the same draws: every read
followed by the write of the same labels, `security_batch_size_` labels for
every security batch. -/
theorem labels_independent {st₀ st st' : Proxy} {dist : Distribution} {alpha delta : ℚ}
    {q q' : OpQueue} (hfresh : st₀.Fresh) (ha : CallerArguments dist alpha delta)
    (hr : Reached st₀ dist alpha delta st) (hr' : Reached st₀ dist alpha delta st')
    (htables : SameTables st st')
    (hview : st.storage.requests.map Request.view = st'.storage.requests.map Request.view)
    (hsame : q.Same q') (hq : QueuedFrom dist st₀.encryptionEngine q)
    (hq' : QueuedFrom dist st₀.encryptionEngine q') (flags : List Bool) {t : Sampler.Tape}
    (ht : t.Valid) :
    (∃ s s', ((st.consumerThread { queue := q } flags).run t).1 = .ok s ∧
      ((st'.consumerThread { queue := q' } flags).run t).1 = .ok s' ∧
      s.1.storage.requests.map Request.view = s'.1.storage.requests.map Request.view ∧
      Sent (st, { queue := q }) s ∧ Sent (st', { queue := q' }) s') ∧
    (∀ q b, ((st.createSecurityBatch q b).run t).1.2.operations.length
      = b.operations.length + st.securityBatchSize) := by
  obtain ⟨hs, hk, he⟩ := hr.steady hfresh ha
  obtain ⟨hs', hk', he'⟩ := hr'.steady hfresh ha
  have hempty : ∀ st : Proxy, st.LegalBatch ⟨[], [], []⟩ := fun st => ⟨rfl, rfl, by simp⟩
  have hkept : Kept (st, { queue := q }) (st', { queue := q' }) (st, { queue := q })
      (st', { queue := q' }) :=
    { alike := ⟨hs, hs', htables, hview⟩
      same := ⟨hsame, rfl, rfl, rfl, rfl, rfl⟩
      legal := ⟨⟨fun p hp => ⟨hk _ (hq.pending p hp).1, he ▸ (hq.pending p hp).2⟩,
        fun i p hp => ⟨hk _ (hq.arrivals i p hp).1, he ▸ (hq.arrivals i p hp).2⟩⟩, hempty st⟩
      legal' := ⟨⟨fun p hp => ⟨hk' _ (hq'.pending p hp).1, he' ▸ (hq'.pending p hp).2⟩,
        fun i p hp => ⟨hk' _ (hq'.arrivals i p hp).1, he' ▸ (hq'.arrivals i p hp).2⟩⟩, hempty st'⟩
      size := rfl
      size' := rfl
      sent := .refl _
      sent' := .refl _ }
  obtain ⟨⟨s, s', h1, h2, hk⟩, -⟩ := (hkept.thread flags).run ht
  exact ⟨⟨s, s', h1, h2, hk.alike.view, hk.sent, hk.sent'⟩,
    fun q b => createSecurityBatch_length st q b t⟩

/-- One run with a put queued and one with a get, all draws zero: a pass, then
the batch executed as the thread finishes. -/
theorem labels_independent_singleKey : ∃ st s s',
    blank.init singleKey (1 / singleKey.items.length) (1 / 2) firstStrings = .ok st ∧
    ((st.consumerThread { queue := { pending := [(⟨['k'], ['v']⟩, 0)] } } [false, true]).run
      ⟨fun _ => 0, fun _ => 0, fun _ => 0⟩).1 = .ok s ∧
    ((st.consumerThread { queue := { pending := [(⟨['k'], []⟩, 0)] } } [false, true]).run
      ⟨fun _ => 0, fun _ => 0, fun _ => 0⟩).1 = .ok s' ∧
    s.1.storage.requests.map Request.view = s'.1.storage.requests.map Request.view := by
  obtain ⟨st, hinit, -⟩ := init_created singleKey (1 / singleKey.items.length) (1 / 2)
    fun i => (firstStrings_roundTrips i).encrypts
  have hreached : Reached blank singleKey (1 / singleKey.items.length) (1 / 2) st :=
    ⟨firstStrings, st, [], firstStrings_roundTrips, hinit, .nil⟩
  have hsame : OpQueue.Same { pending := [(⟨['k'], ['v']⟩, 0)] }
      { pending := [(⟨['k'], []⟩, 0)] } := ⟨by simp [Queued.Same], fun i => .nil⟩
  have hq : ∀ v, (v ≠ [] → blank.encryptionEngine.RoundTrips v) → QueuedFrom singleKey
      blank.encryptionEngine { pending := [(⟨['k'], v⟩, 0)] } := fun v hv =>
    ⟨by simpa [singleKey] using hv, by simp⟩
  obtain ⟨⟨s, s', h1, h2, hview, -⟩, -⟩ := labels_independent (t := ⟨fun _ => 0, fun _ => 0, fun _ => 0⟩)
    ⟨rfl, rfl, rfl, rfl⟩ singleKey_arguments hreached hreached (.refl st) rfl hsame
    (hq ['v'] fun _ => ⟨Evp.padding.encrypt [] [] ['v'], by decide +kernel, by decide +kernel⟩)
    (hq [] fun hc => absurd rfl hc) [false, true] ⟨by simp, by simp⟩
  exact ⟨st, s, s', hinit, h1, h2, hview⟩

end Proxy

end Pancake
