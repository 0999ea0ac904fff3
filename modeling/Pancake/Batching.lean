import Pancake.Refinement

/-!
# Batching

Serving a whole batch with one `execute_batch` against serving its
operations one at a time, each as a one-element batch with the same replica.
The whole batch reads every label before it writes any, so an operation can
read a label from which an earlier operation of the same batch has already
taken the pending update: `NoStaleRead` is exactly the absence of that.
-/

namespace Pancake

open LazyReplicas

namespace Proxy

/-- The operations of a batch as one-element `execute_batch` calls, in order. -/
def executeEach : Proxy → List Operation → List Bool → List Nat → List Promise →
    Except Fault (Proxy × List (Promise × Str))
  | st, [], _, _, _ => .ok (st, [])
  | st, op :: ops, t :: isTrues, id :: ids, promises => do
      let mine := if t then 1 else 0
      let (st, fulfilled) ← st.executeBatchWith
        { operations := [op], isTrues := [t], promises := promises.take mine } [id]
      let (st, rest) ← st.executeEach ops isTrues ids (promises.drop mine)
      .ok (st, fulfilled ++ rest)
  | _, _ :: _, _, _, _ => .error .indexOutOfBounds

/-- One call on the whole batch and one call per operation: the same promise
values, the same update cache, the same decrypted storage. -/
def BatchingTransparent (st : Proxy) (b : Batch) (ids : List Nat) : Prop :=
  ∃ st₁ st₂ fulfilled₁ fulfilled₂,
    st.executeBatchWith b ids = .ok (st₁, fulfilled₁) ∧
    st.executeEach b.operations b.isTrues ids b.promises = .ok (st₂, fulfilled₂) ∧
    fulfilled₁ = fulfilled₂ ∧ st₁.updateCache = st₂.updateCache ∧ st₁.plain = st₂.plain

/-- The first operation of an admissible batch is an admissible batch. -/
theorem Admissible.head {st : Proxy} {op : Operation} {ops : List Operation} {t : Bool}
    {isTrues : List Bool} {id : Nat} {ids : List Nat} {promises : List Promise}
    (h : st.Admissible ⟨op :: ops, t :: isTrues, promises⟩ (id :: ids)) :
    st.Admissible ⟨[op], [t], promises.take (if t then 1 else 0)⟩ [id] where
  truesLength := rfl
  idsLength := rfl
  promisesLength := by
    have := h.promisesLength
    cases t with
    | false => simp
    | true =>
        cases promises with
        | nil => simp at this
        | cons p ps => simp
  live a ha := h.live a (by
    simp only [accesses, List.mem_singleton] at ha
    simp only [accesses, List.mem_cons]; exact .inl ha)
  readable a ha := h.readable a (by
    simp only [accesses, List.mem_singleton] at ha
    simp only [accesses, List.mem_cons]; exact .inl ha)
  fits := h.fits
  noMissing o ho := h.noMissing o (by simp only [List.mem_singleton] at ho; simp [ho])
  values := ⟨h.values.waiting, fun o ho => h.values.put o (by
    simp only [List.mem_singleton] at ho; simp [ho])⟩

/-- After its first operation the rest of the batch is still admissible. -/
theorem Admissible.tail {st st' : Proxy} {op : Operation} {ops : List Operation} {t : Bool}
    {isTrues : List Bool} {id : Nat} {ids : List Nat} {promises mine : List Promise}
    {fulfilled : List (Promise × Str)}
    (h : st.Admissible ⟨op :: ops, t :: isTrues, promises⟩ (id :: ids))
    (hx : Executed st ⟨[op], [t], mine⟩ [id] st' fulfilled) :
    st'.Admissible ⟨ops, isTrues, promises.drop (if t then 1 else 0)⟩ ids where
  truesLength := by simpa using h.truesLength
  idsLength := by simpa using h.idsLength
  promisesLength := by
    have := h.promisesLength
    cases t with
    | false => simpa using this
    | true =>
        cases promises with
        | nil => simp at this
        | cons p ps => simpa using this
  live a ha := by
    rw [hx.frame.labelOf] at ha
    rw [hx.frame.replicas]
    exact h.live a (by simp only [accesses, List.mem_cons]; exact .inr ha)
  readable a ha := by
    rw [hx.frame.labelOf] at ha
    exact hx.readable _ (h.readable a (by simp only [accesses, List.mem_cons]; exact .inr ha))
  fits := hx.fits
  noMissing o ho := by rw [hx.missing]; exact h.noMissing o (by simp [ho])
  values := ⟨hx.values.waiting, fun o ho hne => by
    rw [hx.frame.engine]; exact h.values.put o (by simp [ho]) hne⟩

/-- **One at a time** is `serveEach` on the abstract scheme. -/
theorem executeEach_spec (ops : List Operation) : ∀ {st : Proxy} {isTrues : List Bool}
    {ids : List Nat} {promises : List Promise}, st.Admissible ⟨ops, isTrues, promises⟩ ids →
    let as := accesses st.labelOf ops isTrues ids
    let xs := serveEach st.replicas st.updateCache.waiting st.plain as
    ∃ st', st.executeEach ops isTrues ids promises = .ok (st', promises.zip (answers as xs)) ∧
      st'.updateCache = cacheAfter st.replicas st.updateCache ops ids ∧
      st'.plain = writeBack st.plain as xs := by
  induction ops with
  | nil =>
      intro st isTrues ids promises h
      refine ⟨st, ?_, rfl, rfl⟩
      simp [executeEach, accesses, answers]
  | cons op ops ih =>
      intro st isTrues ids promises h
      cases isTrues with
      | nil => simpa using h.truesLength
      | cons t isTrues =>
      cases ids with
      | nil => simpa using h.idsLength
      | cons id ids =>
      obtain ⟨st', fulfilled, hrun, hx⟩ := executeBatchWith_spec h.head
      obtain ⟨st'', hrest, hcache, hplain⟩ := ih (h.tail hx)
      set a := accessOf st.labelOf op t id with ha
      set x := value st.replicas st.updateCache.waiting a (st.plain a.label) with hxval
      -- the one-element call serves the access `a`
      have hbatch : st.batchAccesses ⟨[op], [t], promises.take (if t then 1 else 0)⟩ [id] = [a] :=
        rfl
      have hvals : st.batchValues ⟨[op], [t], promises.take (if t then 1 else 0)⟩ [id] = [x] := rfl
      have hp : st'.plain = Function.update st.plain a.label x := by
        rw [hx.plain, hbatch, hvals]; rfl
      have hw : st'.updateCache.waiting = st.updateCache.waiting.after st.replicas a := by
        rw [hx.waiting, hbatch]; rfl
      rw [hx.frame.replicas, hx.updateCache] at hcache
      simp only [hx.frame.labelOf, hx.frame.replicas, hp, hw] at hrest hplain
      refine ⟨st'', ?_, hcache, hplain⟩
      simp only [executeEach, hrun, hrest, ok_bind]
      rw [hx.fulfilled, hbatch, hvals]
      have hzip : ∀ ys : List Str, (promises.take (if t then 1 else 0)).zip (answers [a] [x])
          ++ (promises.drop (if t then 1 else 0)).zip ys
          = promises.zip (if t then x :: ys else ys) := by
        intro ys
        cases t with
        | false => simp
        | true =>
            cases promises with
            | nil => simp
            | cons p ps => simp [answers, ha, accessOf]
      rw [hzip]
      cases t <;> rfl

theorem answers_length (as : List (Access Str Str Str)) (xs : List Str)
    (h : xs.length = as.length) :
    (answers as xs).length = (as.map Access.answered).count true := by
  induction as generalizing xs with
  | nil => rfl
  | cons a as ih =>
      cases xs with
      | nil => simp at h
      | cons x xs =>
          simp only [List.length_cons, Nat.add_right_cancel_iff] at h
          cases hw : a.answered <;> simp [answers, hw, ih xs h]

theorem accesses_answered (labelOf : Str → Nat → Str) (ops : List Operation) :
    ∀ (isTrues : List Bool) (ids : List Nat), isTrues.length = ops.length →
    ids.length = ops.length → (accesses labelOf ops isTrues ids).map Access.answered = isTrues := by
  induction ops with
  | nil => intro isTrues ids ht _; rw [List.length_eq_zero_iff.mp ht]; rfl
  | cons op ops ih =>
      intro isTrues ids ht hi
      cases isTrues with
      | nil => simp at ht
      | cons t isTrues =>
      cases ids with
      | nil => simp at hi
      | cons id ids =>
      simp only [List.length_cons, Nat.add_right_cancel_iff] at ht hi
      simp only [accesses, List.map_cons, ih isTrues ids ht hi]
      rfl

/-- The promises determine the values they are paired with. -/
theorem zip_answers_inj {st : Proxy} {b : Batch} {ids : List Nat} (h : st.Admissible b ids)
    {xs ys : List Str} (hx : xs.length = (st.batchAccesses b ids).length)
    (hy : ys.length = (st.batchAccesses b ids).length) :
    b.promises.zip (answers (st.batchAccesses b ids) xs)
      = b.promises.zip (answers (st.batchAccesses b ids) ys) ↔
    answers (st.batchAccesses b ids) xs = answers (st.batchAccesses b ids) ys := by
  refine ⟨fun he => ?_, fun he => by rw [he]⟩
  have hlen : ∀ zs : List Str, zs.length = (st.batchAccesses b ids).length →
      (answers (st.batchAccesses b ids) zs).length ≤ b.promises.length := by
    intro zs hz
    rw [answers_length _ _ hz, batchAccesses,
      accesses_answered _ _ _ _ h.truesLength h.idsLength]
    exact h.promisesLength
  have := congrArg (List.map Prod.snd) he
  rwa [List.map_snd_zip (hlen xs hx), List.map_snd_zip (hlen ys hy)] at this

/-- **Batching is transparent exactly when the batch has no stale read**: no
operation that is real, or is the last of the batch on its label, goes
without a pending update after an earlier operation of the batch on that
label was handed one that differs from what was stored. -/
theorem batchingTransparent_iff {st : Proxy} {b : Batch} {ids : List Nat}
    (h : st.Admissible b ids) :
    st.BatchingTransparent b ids ↔
      NoStaleRead st.replicas st.plain st.updateCache.waiting (fun _ => none)
        (st.batchAccesses b ids) := by
  obtain ⟨st₁, f₁, hrun₁, hx⟩ := executeBatchWith_spec h
  obtain ⟨st₂, hrun₂, hcache₂, hplain₂⟩ := executeEach_spec b.operations h
  rw [← serveBatch_agrees_iff]
  have hans : f₁ = b.promises.zip (answers (st.batchAccesses b ids)
      (serveEach st.replicas st.updateCache.waiting st.plain (st.batchAccesses b ids))) ↔
      answers (st.batchAccesses b ids) (st.batchValues b ids)
        = answers (st.batchAccesses b ids)
          (serveEach st.replicas st.updateCache.waiting st.plain (st.batchAccesses b ids)) := by
    rw [hx.fulfilled]
    exact zip_answers_inj h (serveBatch_length ..) (serveEach_length ..)
  constructor
  · rintro ⟨st₁', st₂', f₁', f₂', h₁, h₂, hf, -, hp⟩
    rw [hrun₁] at h₁
    rw [hrun₂] at h₂
    cases h₁
    cases h₂
    exact ⟨hans.mp hf, hx.plain.symm.trans (hp.trans hplain₂)⟩
  · rintro ⟨ha, hp⟩
    refine ⟨st₁, st₂, f₁, _, hrun₁, hrun₂, hans.mpr ha, ?_, ?_⟩
    · rw [hx.updateCache, hcache₂]
    · rw [hx.plain, hplain₂]
      exact hp

/-! ## A stale read

One key with one replica, nothing pending; a put and then a get of it in one
batch. The put takes the pending bit with it, and the get is left with what
was read before the put. -/

/-- One key, one replica, the value `o` stored. -/
def oneReplica : Proxy :=
  { dummyKey := ['d']
    encryptionEngine := ⟨Evp.padding, [], []⟩
    keyToNumberOfReplicas := (∅ : UnorderedMap Nat).insert ['k'] 1
    keyToFrequency := (∅ : UnorderedMap Int).insert ['k'] 1
    replicaToLabel := (∅ : UnorderedMap Nat).insert ['k', '0'] 0
    storage :=
      { contents := (∅ : UnorderedMap Str).insert ['0'] (Evp.padding.encrypt [] [] ['o']) } }

/-- Put `v`, then get, with promises `0` and `1`. -/
def putThenGet : Batch :=
  { operations := [⟨['k'], ['v']⟩, ⟨['k'], []⟩], isTrues := [true, true], promises := [0, 1] }

theorem oneReplica_admissible : oneReplica.Admissible putThenGet [0, 0] where
  truesLength := rfl
  idsLength := rfl
  promisesLength := by decide
  live := by decide +kernel
  readable := by
    have hlab : ∀ a ∈ accesses oneReplica.labelOf putThenGet.operations putThenGet.isTrues [0, 0],
        a.label = ['0'] := by decide +kernel
    intro a ha
    rw [hlab a ha]
    exact ⟨Evp.padding.encrypt [] [] ['o'], ['o'], by decide +kernel, by decide +kernel,
      Evp.padding.encrypt [] [] ['o'], by decide +kernel, by decide +kernel⟩
  fits key v bits h := by simp [oneReplica] at h
  noMissing op _ := rfl
  values :=
    { waiting := fun key i v h => by simp [oneReplica, UpdateCache.waiting] at h
      put := fun op hop hne => by
        have hv : op.value = ['v'] := by
          simp only [putThenGet, List.mem_cons, List.not_mem_nil, or_false] at hop
          rcases hop with rfl | rfl
          · rfl
          · exact absurd rfl hne
        rw [hv]
        exact ⟨Evp.padding.encrypt [] [] ['v'], by decide +kernel, by decide +kernel⟩ }

/-- The batch answers the get with `o`, the two calls with `v`. -/
theorem batching_not_transparent :
    oneReplica.Admissible putThenGet [0, 0] ∧
      (oneReplica.executeBatchWith putThenGet [0, 0]).map Prod.snd
        = .ok [(0, ['v']), (1, ['o'])] ∧
      (oneReplica.executeEach putThenGet.operations putThenGet.isTrues [0, 0]
        putThenGet.promises).map Prod.snd = .ok [(0, ['v']), (1, ['v'])] ∧
      ¬ oneReplica.BatchingTransparent putThenGet [0, 0] := by
  have h₁ : (oneReplica.executeBatchWith putThenGet [0, 0]).map Prod.snd
      = .ok [(0, ['v']), (1, ['o'])] := by decide +kernel
  have h₂ : (oneReplica.executeEach putThenGet.operations putThenGet.isTrues [0, 0]
      putThenGet.promises).map Prod.snd = .ok [(0, ['v']), (1, ['v'])] := by decide +kernel
  refine ⟨oneReplica_admissible, h₁, h₂, ?_⟩
  rintro ⟨st₁, st₂, f₁, f₂, hr₁, hr₂, hf, -⟩
  rw [hr₁] at h₁
  rw [hr₂] at h₂
  cases h₁
  cases h₂
  simp at hf

/-- The characterisation at the batch above. -/
theorem batchingTransparent_iff_oneReplica :
    oneReplica.BatchingTransparent putThenGet [0, 0] ↔
      NoStaleRead oneReplica.replicas oneReplica.plain oneReplica.updateCache.waiting
        (fun _ => none) (oneReplica.batchAccesses putThenGet [0, 0]) :=
  batchingTransparent_iff oneReplica_admissible

end Proxy

end Pancake
