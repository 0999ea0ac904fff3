import Pancake.ExecuteBatch

/-!
# What one batch does

`execute_batch` on the proxy is `serveBatch` on the abstract scheme: the
abstract store is the decrypted storage, the abstract waiting table is the
one the update cache stands for, and the accesses are the operations with
their chosen replicas. `executeBatchWith_spec` is the one lemma the results
about runs use; nothing above it unfolds the two loops again.
-/

namespace Pancake

open LazyReplicas

/-! ## The decrypted storage -/

/-- The decryption of a storage entry. -/
def plainText (e : EncryptionEngine) (m : UnorderedMap Str) (label : Str) : Str :=
  match m.lookup label with
  | some c => match e.decrypt c with
    | .ok x => x
    | .error _ => []
  | none => []

/-- The entry is there and decrypts to a value that round-trips. -/
def Readable (e : EncryptionEngine) (m : UnorderedMap Str) (label : Str) : Prop :=
  ∃ c x, m.lookup label = some c ∧ e.decrypt c = .ok x ∧ e.RoundTrips x

theorem Readable.decrypt {e : EncryptionEngine} {m : UnorderedMap Str} {label : Str}
    (h : Readable e m label) :
    e.decrypt (UnorderedMap.at_ m label) = .ok (plainText e m label) := by
  obtain ⟨c, x, hc, hx, _⟩ := h
  simp [UnorderedMap.at_, plainText, hc, hx]

theorem Readable.roundTrips {e : EncryptionEngine} {m : UnorderedMap Str} {label : Str}
    (h : Readable e m label) : e.RoundTrips (plainText e m label) := by
  obtain ⟨c, x, hc, hx, hr⟩ := h
  simpa [plainText, hc, hx] using hr

/-- Writing an encryption of `x` stores `x`. -/
theorem plainText_insert {e : EncryptionEngine} (m : UnorderedMap Str) {l x c : Str}
    (hx : e.RoundTrips x) (hc : e.encrypt x = .ok c) :
    plainText e (m.insert l c) = Function.update (plainText e m) l x := by
  obtain ⟨c', h, hd⟩ := hx
  rw [hc] at h
  cases h
  funext l'
  by_cases hl : l' = l
  · subst hl; simp [plainText, hd]
  · simp [plainText, Finmap.lookup_insert_of_ne _ hl, hl]

theorem Readable.insert {e : EncryptionEngine} {m : UnorderedMap Str} {l x c : Str}
    (hx : e.RoundTrips x) (hc : e.encrypt x = .ok c) {l' : Str}
    (h : l' = l ∨ Readable e m l') : Readable e (m.insert l c) l' := by
  obtain ⟨c', hc', hd⟩ := hx
  rw [hc] at hc'
  cases hc'
  by_cases hl : l' = l
  · subst hl
    exact ⟨c, x, Finmap.lookup_insert _, hd, c, hc, hd⟩
  · obtain ⟨c₀, x₀, h1, h2, h3⟩ := h.resolve_left hl
    exact ⟨c₀, x₀, by rw [Finmap.lookup_insert_of_ne _ hl, h1], h2, h3⟩

/-- The ciphertexts of a list of values. -/
def Encrypts (e : EncryptionEngine) (xs cs : List Str) : Prop :=
  List.Forall₂ (fun x c => e.encrypt x = .ok c) xs cs

/-- Writing ciphertexts back is writing their values back. -/
theorem plainText_insertAll {e : EncryptionEngine} {as : List (Access Str Str Str)}
    {xs cs : List Str} (hx : ∀ x ∈ xs, e.RoundTrips x) (hc : Encrypts e xs cs)
    (m : UnorderedMap Str) :
    plainText e (Server.insertAll m (as.map Access.label) cs)
      = writeBack (plainText e m) as xs := by
  induction as generalizing m xs cs with
  | nil => rfl
  | cons a as ih =>
      cases hc with
      | nil => rfl
      | cons h hc =>
          simp only [List.map_cons, Server.insertAll, writeBack]
          rw [ih (fun x hm => hx x (by simp [hm])) hc, plainText_insert _ (hx _ (by simp)) h]

theorem Readable.insertAll {e : EncryptionEngine} {ls xs cs : List Str}
    (hx : ∀ x ∈ xs, e.RoundTrips x) (hc : Encrypts e xs cs) {m : UnorderedMap Str} {l : Str}
    (h : Readable e m l) : Readable e (Server.insertAll m ls cs) l := by
  induction ls generalizing m xs cs with
  | nil => exact h
  | cons k ks ih =>
      cases hc with
      | nil => exact h
      | cons hhd hc =>
          exact ih (fun x hm => hx x (by simp [hm])) hc
            (Readable.insert (hx _ (by simp)) hhd (.inr h))

namespace Proxy

/-! ## Accesses and frames -/

/-- The abstract access of an operation sent to a replica. -/
def accessOf (labelOf : Str → Nat → Str) (op : Operation) (isTrue : Bool) (id : Nat) :
    Access Str Str Str where
  key := op.key
  replica := id
  label := labelOf op.key id
  write := if op.value = [] then none else some op.value
  answered := isTrue

/-- The abstract accesses of a batch. -/
def accesses (labelOf : Str → Nat → Str) :
    List Operation → List Bool → List Nat → List (Access Str Str Str)
  | op :: ops, t :: isTrues, id :: ids => accessOf labelOf op t id :: accesses labelOf ops isTrues ids
  | _, _, _ => []

theorem accesses_length (labelOf : Str → Nat → Str) (ops : List Operation) :
    ∀ (isTrues : List Bool) (ids : List Nat), isTrues.length = ops.length →
    ids.length = ops.length → (accesses labelOf ops isTrues ids).length = ops.length := by
  induction ops with
  | nil => intro isTrues ids _ _; simp [accesses]
  | cons op ops ih =>
      intro isTrues ids ht hi
      cases isTrues with
      | nil => simp at ht
      | cons t isTrues =>
      cases ids with
      | nil => simp at hi
      | cons id ids => simpa [accesses] using ih isTrues ids (by simpa using ht) (by simpa using hi)

/-- The state with another update cache. -/
def withCache (st : Proxy) (cache : UpdateCache) : Proxy := { st with updateCache := cache }

@[simp] theorem withCache_updateCache (st : Proxy) (c : UpdateCache) :
    (st.withCache c).updateCache = c := rfl

@[simp] theorem withCache_missing (st : Proxy) (c : UpdateCache) :
    (st.withCache c).missingNewReplicas = st.missingNewReplicas := rfl

@[simp] theorem withCache_replicas (st : Proxy) (c : UpdateCache) :
    (st.withCache c).replicas = st.replicas := rfl

@[simp] theorem withCache_labelOf (st : Proxy) (c : UpdateCache) :
    (st.withCache c).labelOf = st.labelOf := rfl

@[simp] theorem withCache_engine (st : Proxy) (c : UpdateCache) :
    (st.withCache c).encryptionEngine = st.encryptionEngine := rfl

@[simp] theorem withCache_storage (st : Proxy) (c : UpdateCache) :
    (st.withCache c).storage = st.storage := rfl

/-- The state with another storage. -/
def withStorage (st : Proxy) (s : Server) : Proxy := { st with storage := s }

@[simp] theorem withStorage_storage (st : Proxy) (s : Server) : (st.withStorage s).storage = s := rfl

@[simp] theorem withStorage_updateCache (st : Proxy) (s : Server) :
    (st.withStorage s).updateCache = st.updateCache := rfl

@[simp] theorem withStorage_missing (st : Proxy) (s : Server) :
    (st.withStorage s).missingNewReplicas = st.missingNewReplicas := rfl

/-- The proxy's decrypted storage. -/
def plain (st : Proxy) : Str → Str := plainText st.encryptionEngine st.storage.contents

/-- Only the two caches, the storage, and defaults of the three tables may
differ: what a batch leaves alone. -/
structure Frame (st st' : Proxy) : Prop where
  rest : st' = { st with
    keyToNumberOfReplicas := st'.keyToNumberOfReplicas
    keyToFrequency := st'.keyToFrequency
    replicaToLabel := st'.replicaToLabel
    updateCache := st'.updateCache
    missingNewReplicas := st'.missingNewReplicas
    storage := st'.storage }
  replicas : st'.replicas = st.replicas
  frequency : st'.frequency = st.frequency
  labelOf : st'.labelOf = st.labelOf

theorem Frame.refl (st : Proxy) : Frame st st := ⟨rfl, rfl, rfl, rfl⟩

theorem Frame.engine {st st' : Proxy} (h : Frame st st') :
    st'.encryptionEngine = st.encryptionEngine := by rw [h.rest]

theorem Frame.trans {st st' st'' : Proxy} (h : Frame st st') (h' : Frame st' st'') :
    Frame st st'' where
  rest := by
    have h1 := h'.rest
    rw [h.rest] at h1
    exact h1
  replicas := by rw [h'.replicas, h.replicas]
  frequency := by rw [h'.frequency, h.frequency]
  labelOf := by rw [h'.labelOf, h.labelOf]

/-- Looking up a replica reads the tables and inserts defaults. -/
theorem frame_lookUp (st : Proxy) (key : Str) (id : Nat) : Frame st (st.lookUp key id) where
  rest := rfl
  replicas := by funext k; simp [Proxy.replicas, lookUp]
  frequency := by funext k; simp [Proxy.frequency, lookUp]
  labelOf := by funext k i; simp [Proxy.labelOf, lookUp]

theorem frame_withStorage (st : Proxy) (s : Server) : Frame st (st.withStorage s) :=
  ⟨rfl, rfl, rfl, rfl⟩

theorem frame_withCache (st : Proxy) (c : UpdateCache) : Frame st (st.withCache c) :=
  ⟨rfl, rfl, rfl, rfl⟩

/-- The caches and the storage a look-up leaves alone. -/
structure SameStore (st st' : Proxy) : Prop where
  updateCache : st'.updateCache = st.updateCache
  missing : st'.missingNewReplicas = st.missingNewReplicas
  storage : st'.storage = st.storage

/-- The first loop does nothing but default insertions. -/
theorem frame_resolve (ops : List Operation) : ∀ (st : Proxy) (ids : List Nat),
    Frame st (st.resolve ops ids).1 ∧ SameStore st (st.resolve ops ids).1 := by
  induction ops with
  | nil => intro st ids; exact ⟨.refl st, rfl, rfl, rfl⟩
  | cons op ops ih =>
      intro st ids
      cases ids with
      | nil => exact ⟨.refl st, rfl, rfl, rfl⟩
      | cons id ids =>
          obtain ⟨hfr, hs⟩ := ih (st.lookUp op.key id) ids
          exact ⟨(frame_lookUp st op.key id).trans hfr, hs.updateCache, hs.missing, hs.storage⟩

/-- The labels of the first loop are those of the accesses. -/
theorem resolve_labels (ops : List Operation) : ∀ (st : Proxy) (isTrues : List Bool)
    (ids : List Nat), isTrues.length = ops.length → ids.length = ops.length →
    (st.resolve ops ids).2 = (accesses st.labelOf ops isTrues ids).map Access.label := by
  induction ops with
  | nil =>
      intro st isTrues ids ht hi
      rw [List.length_eq_zero_iff.mp ht, List.length_eq_zero_iff.mp hi]
      rfl
  | cons op ops ih =>
      intro st isTrues ids ht hi
      cases isTrues with
      | nil => simp at ht
      | cons t isTrues =>
          cases ids with
          | nil => simp at hi
          | cons id ids =>
              simp only [List.length_cons, Nat.add_right_cancel_iff] at ht hi
              have hl := ih (st.lookUp op.key id) isTrues ids ht hi
              simp only [resolve, accesses, List.map_cons, hl, (frame_lookUp st op.key id).labelOf]
              rfl

/-! ## What every call leaves alone -/

/-- Everything but the two caches and the storage is the same. -/
def SameTables (st st' : Proxy) : Prop :=
  st' = { st with
    updateCache := st'.updateCache
    missingNewReplicas := st'.missingNewReplicas
    storage := st'.storage }

theorem SameTables.refl (st : Proxy) : SameTables st st := rfl

theorem SameTables.trans {st st' st'' : Proxy} (h : SameTables st st') (h' : SameTables st' st'') :
    SameTables st st'' := by
  unfold SameTables at h'
  rw [h] at h'
  exact h'

theorem sameTables_withStorage (st : Proxy) (s : Server) : SameTables st (st.withStorage s) := rfl

theorem SameTables.symm {st st' : Proxy} (h : SameTables st st') : SameTables st' st := by
  unfold SameTables
  rw [h]

theorem SameTables.frame {st st' : Proxy} (h : SameTables st st') : Frame st st' where
  rest := by rw [h]
  replicas := by rw [h]; rfl
  frequency := by rw [h]; rfl
  labelOf := by rw [h]; rfl

/-- The look-ups read and touch the tables only. -/
theorem SameTables.resolve {st st' : Proxy} (h : SameTables st st') {ops ops' : List Operation}
    (hkeys : ops.map Operation.key = ops'.map Operation.key) (ids : List Nat) :
    SameTables (st.resolve ops ids).1 (st'.resolve ops' ids).1 ∧
      (st.resolve ops ids).2 = (st'.resolve ops' ids).2 := by
  induction ops generalizing st st' ops' ids with
  | nil =>
      obtain rfl : ops' = [] := by simpa using hkeys.symm
      exact ⟨h, rfl⟩
  | cons op ops ih =>
      cases ops' with
      | nil => simp at hkeys
      | cons op' ops' =>
          simp only [List.map_cons, List.cons.injEq] at hkeys
          cases ids with
          | nil => exact ⟨h, rfl⟩
          | cons id ids =>
              have hl : SameTables (st.lookUp op.key id) (st'.lookUp op'.key id) := by
                rw [SameTables, ← hkeys.1, h]
                rfl
              obtain ⟨ht, hlabels⟩ := ih hl hkeys.2 ids
              refine ⟨ht, ?_⟩
              simp only [Proxy.resolve, hlabels, ← hkeys.1, h.frame.labelOf]

theorem frame_serve {st st' : Proxy} {op : Operation} {id : Nat} {cipher x : Str}
    (h : st.serve op id cipher = .ok (st', x)) :
    SameTables st st' ∧ (st.missingNewReplicas.lookup op.key = none →
      st'.missingNewReplicas = st.missingNewReplicas) ∧ st'.storage = st.storage := by
  obtain ⟨plaintext, -, h⟩ := bind_eq_ok.mp h
  obtain ⟨⟨update, cache⟩, -, h⟩ := bind_eq_ok.mp h
  obtain ⟨⟨missing, cache'⟩, hm, h⟩ := bind_eq_ok.mp h
  obtain ⟨rfl, -⟩ := Prod.mk.inj (Except.ok.inj h)
  refine ⟨rfl, fun hnone => ?_, rfl⟩
  rw [UpdateCache.checkIfMissing_of_none hnone] at hm
  exact (Prod.mk.inj (Except.ok.inj hm)).1.symm

/-- An operation adds no missing replica. -/
theorem missing_of_serve {st st' : Proxy} {op : Operation} {id : Nat} {cipher x : Str}
    (h : st.serve op id cipher = .ok (st', x)) {key : Str} {entry : Str × List Bool}
    (he : st'.missingNewReplicas.lookup key = some entry) :
    st.missingNewReplicas.lookup key = some entry := by
  obtain ⟨plaintext, -, h⟩ := bind_eq_ok.mp h
  obtain ⟨⟨update, cache⟩, -, h⟩ := bind_eq_ok.mp h
  obtain ⟨⟨missing, cache'⟩, hm, h⟩ := bind_eq_ok.mp h
  obtain ⟨rfl, -⟩ := Prod.mk.inj (Except.ok.inj h)
  cases hl : st.missingNewReplicas.lookup op.key with
  | none =>
      rw [UpdateCache.checkIfMissing_of_none hl] at hm
      cases hm
      exact he
  | some e =>
      simp only [UpdateCache.checkIfMissing, hl, bind_eq_ok] at hm
      obtain ⟨c, -, hm⟩ := hm
      cases hm
      by_cases hk : key = op.key
      · subst hk
        rw [Finmap.lookup_erase] at he
        cases he
      · rwa [Finmap.lookup_erase_ne hk] at he

/-- **The loop rule**: what every operation served keeps, the pass over the
operations keeps. -/
theorem serveAll_invariant {I : Proxy → Prop} (hstep : ∀ {st st' : Proxy} {op : Operation}
      {id : Nat} {cipher x : Str}, I st → st.serve op id cipher = .ok (st', x) → I st')
    (ops : List Operation) : ∀ {st st' : Proxy} {isTrues : List Bool} {ids : List Nat}
    {ciphers : List Str} {promises : List Promise} {out : List Str × _}, I st →
    st.serveAll ops isTrues ids ciphers promises = .ok (st', out) → I st' := by
  induction ops with
  | nil =>
      intro st st' isTrues ids ciphers promises out hI h
      obtain ⟨rfl, -⟩ := Prod.mk.inj (Except.ok.inj h)
      exact hI
  | cons op ops ih =>
      intro st st' isTrues ids ciphers promises out hI h
      match isTrues, ids, ciphers, h with
      | t :: isTrues, id :: ids, cipher :: ciphers, h =>
          obtain ⟨⟨st₁, x⟩, h₁, h⟩ := bind_eq_ok.mp h
          obtain ⟨⟨done, promises'⟩, -, h⟩ := bind_eq_ok.mp h
          obtain ⟨c, -, h⟩ := bind_eq_ok.mp h
          obtain ⟨⟨st₂, out'⟩, h₂, h⟩ := bind_eq_ok.mp h
          obtain ⟨rfl, -⟩ := Prod.mk.inj (Except.ok.inj h)
          exact ih (hstep hI h₁) h₂

section ServeAll

variable {st st' : Proxy} {ops : List Operation} {isTrues : List Bool} {ids : List Nat}
  {ciphers : List Str} {promises : List Promise} {out : List Str × List (Promise × Str)}
  (h : st.serveAll ops isTrues ids ciphers promises = .ok (st', out))
include h

theorem frame_serveAll : SameTables st st' := by
  apply serveAll_invariant (I := SameTables st) _ ops (.refl st) h
  intro st₁ st₂ op id cipher x hI hserve
  exact hI.trans (frame_serve hserve).1

/-- With no replica missing, none is missing after it. -/
theorem noMissing_serveAll (hnone : ∀ key, st.missingNewReplicas.lookup key = none) :
    st'.missingNewReplicas = st.missingNewReplicas := by
  apply serveAll_invariant (I := fun st' => st'.missingNewReplicas = st.missingNewReplicas) _ ops
    rfl h
  intro st₁ st₂ op id cipher x hI hserve
  rw [(frame_serve hserve).2.1 (by rw [hI]; exact hnone op.key), hI]

theorem missing_of_serveAll {key : Str} {entry : Str × List Bool}
    (he : st'.missingNewReplicas.lookup key = some entry) :
    st.missingNewReplicas.lookup key = some entry := by
  revert he
  apply serveAll_invariant (I := fun st' => st'.missingNewReplicas.lookup key = some entry →
    st.missingNewReplicas.lookup key = some entry) _ ops id h
  intro st₁ st₂ op id cipher x hI hserve he
  exact hI (missing_of_serve hserve he)

end ServeAll

/-- A call that returns changes the tables by its look-ups only, and misses
no replica it did not miss before. -/
theorem sameTables_executeBatchWith {st st' : Proxy} {b : Batch} {ids : List Nat}
    {fulfilled : List (Promise × Str)} (h : st.executeBatchWith b ids = .ok (st', fulfilled)) :
    SameTables (st.resolve b.operations ids).1 st' ∧
      ((∀ key, st.missingNewReplicas.lookup key = none) →
        st'.missingNewReplicas = st.missingNewReplicas) := by
  obtain ⟨-, hsame⟩ := frame_resolve b.operations st ids
  obtain ⟨⟨responses, storage⟩, -, h⟩ := bind_eq_ok.mp h
  obtain ⟨⟨st₁, out⟩, h₁, h⟩ := bind_eq_ok.mp h
  obtain ⟨rfl, -⟩ := Prod.mk.inj (Except.ok.inj h)
  have ht₁ := frame_serveAll h₁
  refine ⟨((sameTables_withStorage _ storage).trans ht₁).trans (sameTables_withStorage st₁ _), ?_⟩
  intro hnone
  refine (noMissing_serveAll h₁ ?_).trans hsame.missing
  intro key
  show (st.resolve b.operations ids).1.missingNewReplicas.lookup key = none
  rw [hsame.missing]
  exact hnone key

theorem missing_of_executeBatchWith {st st' : Proxy} {b : Batch} {ids : List Nat}
    {fulfilled : List (Promise × Str)} (h : st.executeBatchWith b ids = .ok (st', fulfilled))
    {key : Str} {entry : Str × List Bool} (he : st'.missingNewReplicas.lookup key = some entry) :
    st.missingNewReplicas.lookup key = some entry := by
  obtain ⟨⟨responses, storage⟩, -, h⟩ := bind_eq_ok.mp h
  obtain ⟨⟨st₁, out⟩, h₁, h⟩ := bind_eq_ok.mp h
  obtain ⟨rfl, -⟩ := Prod.mk.inj (Except.ok.inj h)
  have hm := missing_of_serveAll h₁ he
  exact (congrArg (Finmap.lookup key) (frame_resolve b.operations st ids).2.missing).symm.trans hm

/-- So it leaves the tables as read, the distributions and the parameters. -/
theorem frame_executeBatchWith {st st' : Proxy} {b : Batch} {ids : List Nat}
    {fulfilled : List (Promise × Str)} (h : st.executeBatchWith b ids = .ok (st', fulfilled)) :
    Frame st st' :=
  (frame_resolve b.operations st ids).1.trans (sameTables_executeBatchWith h).1.frame

/-! ## One operation -/

/-- What the state must give an operation for it to be served: a live
replica, a bit for it in the cache, no missing replicas. -/
structure Servable (st : Proxy) (op : Operation) (id : Nat) : Prop where
  live : id < st.replicas op.key
  fits : st.updateCache.Fits st.replicas
  noMissing : st.missingNewReplicas.lookup op.key = none

/-- The update cache after an operation: it does not depend on what was read. -/
def nextCache (r : Str → Nat) (cache : UpdateCache) (op : Operation) (id : Nat) : UpdateCache :=
  let cache := if op.value ≠ [] then cache.populateReplicaUpdates op.key op.value (r op.key)
    else cache
  match cache.checkForUpdate op.key id with
  | .ok (_, cache) => cache
  | .error _ => cache

/-- The update cache after a list of operations. -/
def cacheAfter (r : Str → Nat) : UpdateCache → List Operation → List Nat → UpdateCache
  | cache, op :: ops, id :: ids => cacheAfter r (nextCache r cache op id) ops ids
  | cache, _, _ => cache

/-- **The step**: one operation is one abstract access. -/
theorem serve_spec {st : Proxy} {op : Operation} {id : Nat} (h : st.Servable op id)
    {cipher old : Str} (hd : st.encryptionEngine.decrypt cipher = .ok old) (t : Bool) :
    let a := accessOf st.labelOf op t id
    let cache := nextCache st.replicas st.updateCache op id
    st.serve op id cipher
        = .ok (st.withCache cache, value st.replicas st.updateCache.waiting a old) ∧
      cache.waiting = st.updateCache.waiting.after st.replicas a ∧ cache.Fits st.replicas := by
  intro a cache'
  set cache₀ := if op.value ≠ [] then
      st.updateCache.populateReplicaUpdates op.key op.value (st.replicas op.key)
    else st.updateCache with hcache₀
  -- a put first leaves its value waiting everywhere
  have hw : cache₀.waiting = st.updateCache.waiting.written st.replicas a := by
    by_cases hv : op.value = []
    · rw [hcache₀, if_neg (not_not.mpr hv), Waiting.written_of_read (by simp [a, accessOf, hv])]
    · rw [hcache₀, if_pos hv, Waiting.written_of_write (v := op.value)
        (by simp [a, accessOf, hv]), UpdateCache.waiting_populate _ _ hv]
      rfl
  have hfit : cache₀.Fits st.replicas := by
    rw [hcache₀]
    split
    · exact h.fits.populate _ _
    · exact h.fits
  obtain ⟨cache, hcheck, hclear, hfits⟩ := UpdateCache.checkForUpdate_spec hfit h.live
  have hnext : cache' = cache := by simp only [cache', nextCache, ← hcache₀, hcheck]
  rw [hnext]
  refine ⟨?_, by rw [hclear, hw]; rfl, hfits⟩
  have hval : (if (cache₀.waiting op.key id).getD [] = [] then old
      else (cache₀.waiting op.key id).getD []) = value st.replicas st.updateCache.waiting a old := by
    rw [value, Waiting.delivered, ← hw, show a.key = op.key from rfl, show a.replica = id from rfl]
    cases hd : cache₀.waiting op.key id with
    | none => simp
    | some v =>
        have hne : v ≠ [] := (UpdateCache.waiting_eq_some.mp hd).1
        simp [hne]
  simp only [serve, hd, ok_bind, ← hcache₀, hcheck, hval,
    UpdateCache.checkIfMissing_of_none h.noMissing]
  rfl

/-! ## The second loop -/

/-- Every value waiting, or about to be written, round-trips. -/
structure ValuesRoundTrip (st : Proxy) (ops : List Operation) : Prop where
  waiting : ∀ key i v, st.updateCache.waiting key i = some v → st.encryptionEngine.RoundTrips v
  put : ∀ op ∈ ops, op.value ≠ [] → st.encryptionEngine.RoundTrips op.value

/-- What waits once an operation's write is left waiting round-trips. -/
theorem ValuesRoundTrip.written {st : Proxy} {op : Operation} {ops : List Operation}
    (h : st.ValuesRoundTrip (op :: ops)) (t : Bool) (id : Nat) {key : Str} {i : Nat} {v : Str}
    (hw : st.updateCache.waiting.written st.replicas (accessOf st.labelOf op t id) key i = some v) :
    st.encryptionEngine.RoundTrips v := by
  by_cases hv : op.value = []
  · rw [Waiting.written_of_read (by simp [accessOf, hv])] at hw
    exact h.waiting _ _ _ hw
  · rw [Waiting.written_of_write (v := op.value) (by simp [accessOf, hv]), Waiting.put_apply] at hw
    split at hw
    · split at hw
      · cases hw; exact h.put op (by simp) hv
      · cases hw
    · exact h.waiting _ _ _ hw

theorem ValuesRoundTrip.value {st : Proxy} {op : Operation} {ops : List Operation}
    (h : st.ValuesRoundTrip (op :: ops)) {old : Str}
    (hold : st.encryptionEngine.RoundTrips old) (t : Bool) (id : Nat) :
    st.encryptionEngine.RoundTrips
      (LazyReplicas.value st.replicas st.updateCache.waiting (accessOf st.labelOf op t id) old) := by
  rw [LazyReplicas.value, Waiting.delivered]
  cases hw : st.updateCache.waiting.written st.replicas (accessOf st.labelOf op t id)
      (accessOf st.labelOf op t id).key (accessOf st.labelOf op t id).replica with
  | none => exact hold
  | some v => exact h.written t id hw

theorem ValuesRoundTrip.tail {st : Proxy} {op : Operation} {ops : List Operation}
    (h : st.ValuesRoundTrip (op :: ops)) {cache : UpdateCache} {t : Bool} {id : Nat}
    (hc : cache.waiting = st.updateCache.waiting.after st.replicas (accessOf st.labelOf op t id)) :
    (st.withCache cache).ValuesRoundTrip ops where
  waiting key i v hw := by
    rw [withCache_updateCache, hc, Waiting.after_apply] at hw
    split at hw
    · cases hw
    · exact h.written t id hw
  put o ho := h.put o (by simp [ho])

/-- What a list of accesses needs to be served: the promises to answer them,
live replicas, readable labels, and a cache with a bit for every replica. -/
structure Serviceable (st : Proxy) (ops : List Operation) (isTrues : List Bool) (ids : List Nat)
    (promises : List Promise) (read store : Str → Str) : Prop where
  truesLength : isTrues.length = ops.length
  idsLength : ids.length = ops.length
  promisesLength : isTrues.count true ≤ promises.length
  live : ∀ a ∈ accesses st.labelOf ops isTrues ids, a.replica < st.replicas a.key
  reads : ∀ a ∈ accesses st.labelOf ops isTrues ids,
    st.encryptionEngine.decrypt (read a.label) = .ok (store a.label) ∧
      st.encryptionEngine.RoundTrips (store a.label)
  fits : st.updateCache.Fits st.replicas
  noMissing : ∀ op ∈ ops, st.missingNewReplicas.lookup op.key = none
  values : st.ValuesRoundTrip ops

/-- **The loop**: the pass over the operations is `serveBatch`. -/
theorem serveAll_spec (ops : List Operation) : ∀ {st : Proxy} {isTrues : List Bool}
    {ids : List Nat} {promises : List Promise} {read store : Str → Str},
    st.Serviceable ops isTrues ids promises read store →
    let as := accesses st.labelOf ops isTrues ids
    let xs := serveBatch st.replicas store st.updateCache.waiting as
    let cache := cacheAfter st.replicas st.updateCache ops ids
    ∃ cs, st.serveAll ops isTrues ids (as.map fun a => read a.label) promises
        = .ok (st.withCache cache, cs, promises.zip (answers as xs)) ∧
      cache.waiting = afterAll st.replicas st.updateCache.waiting as ∧
      cache.Fits st.replicas ∧ Encrypts st.encryptionEngine xs cs ∧
      (∀ x ∈ xs, st.encryptionEngine.RoundTrips x) ∧
      (st.withCache cache).ValuesRoundTrip [] := by
  induction ops with
  | nil =>
      intro st isTrues ids promises read store h
      rw [List.length_eq_zero_iff.mp h.truesLength, List.length_eq_zero_iff.mp h.idsLength]
      refine ⟨[], ?_, rfl, h.fits, .nil, by simp [accesses, serveBatch], h.values⟩
      simp [serveAll, accesses, answers, cacheAfter, withCache]
  | cons op ops ih =>
      intro st isTrues ids promises read store h
      obtain ⟨ht, hi, hp, hlive, hread, hf, hm, hv⟩ := h
      cases isTrues with
      | nil => simp at ht
      | cons t isTrues =>
      cases ids with
      | nil => simp at hi
      | cons id ids =>
      simp only [List.length_cons, Nat.add_right_cancel_iff] at ht hi
      obtain ⟨hdec, hold⟩ := hread (accessOf st.labelOf op t id) (by simp [accesses])
      have hserv : st.Servable op id :=
        ⟨hlive (accessOf st.labelOf op t id) (by simp [accesses]), hf, hm op (by simp)⟩
      obtain ⟨hs, hw, hfit⟩ := serve_spec hserv hdec t
      set cache := nextCache st.replicas st.updateCache op id with hcache
      have hx := hv.value hold t id
      set a := accessOf st.labelOf op t id with ha
      set x := LazyReplicas.value st.replicas st.updateCache.waiting a (store a.label) with hxdef
      obtain ⟨c, hc, -⟩ := (show st.encryptionEngine.RoundTrips x from hx)
      obtain ⟨done, ps, hful, hps, hzip⟩ := fulfil_spec t promises x
        (n := isTrues.count true) (by cases t <;> simpa using hp)
      -- the operations after this one start from the new cache
      have hnext : (st.withCache cache).Serviceable ops isTrues ids ps read store :=
        { truesLength := ht, idsLength := hi
          promisesLength := by
            rw [List.count_cons, hps] at hp
            cases t <;> simp at hp <;> omega
          live := fun b hb => hlive b (by simp only [accesses, List.mem_cons]; exact .inr hb)
          reads := fun b hb => hread b (by simp only [accesses, List.mem_cons]; exact .inr hb)
          fits := hfit
          noMissing := fun o ho => hm o (by simp [ho])
          values := hv.tail hw }
      obtain ⟨cs, hrest, hw', hfit', henc, hrt, hv'⟩ := ih hnext
      simp only [withCache_updateCache, withCache_replicas, withCache_labelOf, withCache_engine,
        hw] at hrest hw' henc hrt
      have hcons : serveBatch st.replicas store st.updateCache.waiting
          (accesses st.labelOf (op :: ops) (t :: isTrues) (id :: ids))
          = x :: serveBatch st.replicas store (st.updateCache.waiting.after st.replicas a)
              (accesses st.labelOf ops isTrues ids) := rfl
      refine ⟨c :: cs, ?_, ?_, hfit', ?_, ?_, hv'⟩
      · simp only [accesses, List.map_cons, serveAll, ← ha, hs, ok_bind, hful, withCache_engine, hc,
          hrest]
        rw [show withCache (withCache st cache) (cacheAfter st.replicas cache ops ids)
          = withCache st (cacheAfter st.replicas st.updateCache (op :: ops) (id :: ids)) from rfl,
          ← hzip]
        cases t <;> rfl
      · rw [show cacheAfter st.replicas st.updateCache (op :: ops) (id :: ids)
          = cacheAfter st.replicas cache ops ids from rfl, hw']
        rfl
      · rw [hcons]; exact .cons hc henc
      · rw [hcons]
        intro y hy
        rcases List.mem_cons.mp hy with rfl | hy
        · exact hx
        · exact hrt y hy

/-! ## The call -/

/-- What a state and a choice of replicas must give a batch for it to be
served. -/
structure Admissible (st : Proxy) (b : Batch) (ids : List Nat) : Prop where
  truesLength : b.isTrues.length = b.operations.length
  idsLength : ids.length = b.operations.length
  promisesLength : b.isTrues.count true ≤ b.promises.length
  live : ∀ a ∈ accesses st.labelOf b.operations b.isTrues ids, a.replica < st.replicas a.key
  readable : ∀ a ∈ accesses st.labelOf b.operations b.isTrues ids,
    Readable st.encryptionEngine st.storage.contents a.label
  fits : st.updateCache.Fits st.replicas
  noMissing : ∀ op ∈ b.operations, st.missingNewReplicas.lookup op.key = none
  values : st.ValuesRoundTrip b.operations

/-- The accesses of a batch. -/
def batchAccesses (st : Proxy) (b : Batch) (ids : List Nat) : List (Access Str Str Str) :=
  accesses st.labelOf b.operations b.isTrues ids

/-- The values of a batch, by the abstract scheme. -/
def batchValues (st : Proxy) (b : Batch) (ids : List Nat) : List Str :=
  serveBatch st.replicas st.plain st.updateCache.waiting (st.batchAccesses b ids)

/-- What one call has done to the state, in the terms of the scheme. -/
structure Executed (st : Proxy) (b : Batch) (ids : List Nat) (st' : Proxy)
    (fulfilled : List (Promise × Str)) : Prop where
  frame : Frame st st'
  missing : st'.missingNewReplicas = st.missingNewReplicas
  updateCache : st'.updateCache = cacheAfter st.replicas st.updateCache b.operations ids
  waiting : st'.updateCache.waiting
    = afterAll st.replicas st.updateCache.waiting (st.batchAccesses b ids)
  fits : st'.updateCache.Fits st'.replicas
  plain : st'.plain = writeBack st.plain (st.batchAccesses b ids) (st.batchValues b ids)
  fulfilled : fulfilled
    = b.promises.zip (answers (st.batchAccesses b ids) (st.batchValues b ids))
  written : ∃ cs, Encrypts st.encryptionEngine (st.batchValues b ids) cs ∧
    st'.storage.contents = Server.insertAll st.storage.contents
      ((st.batchAccesses b ids).map Access.label) cs ∧
    st'.storage.requests = st.storage.requests ++
      [.getBatch ((st.batchAccesses b ids).map Access.label)
        ((st.batchAccesses b ids).map fun a => UnorderedMap.at_ st.storage.contents a.label),
       .putBatch ((st.batchAccesses b ids).map Access.label) cs]
  roundTrips : ∀ x ∈ st.batchValues b ids, st.encryptionEngine.RoundTrips x
  readable : ∀ l, Readable st.encryptionEngine st.storage.contents l →
    Readable st'.encryptionEngine st'.storage.contents l
  values : st'.ValuesRoundTrip []

/-- **The call**: an admissible batch returns, and is one `serveBatch`. -/
theorem executeBatchWith_spec {st : Proxy} {b : Batch} {ids : List Nat}
    (h : st.Admissible b ids) :
    ∃ st' fulfilled, st.executeBatchWith b ids = .ok (st', fulfilled) ∧
      Executed st b ids st' fulfilled := by
  have hlab := resolve_labels b.operations st b.isTrues ids h.truesLength h.idsLength
  obtain ⟨hfr, hsame⟩ := frame_resolve b.operations st ids
  set st₁ := (st.resolve b.operations ids).1 with hst₁
  set as := st.batchAccesses b ids with has
  rw [show accesses st.labelOf b.operations b.isTrues ids = as from rfl] at hlab
  set responses := as.map fun a => UnorderedMap.at_ st.storage.contents a.label with hresp
  -- the server after the read
  set server : Server := { contents := st.storage.contents, requests := st.storage.requests ++
    [.getBatch (as.map Access.label) responses] } with hserver
  have hget : st₁.storage.getBatch (as.map Access.label) = .ok (responses, server) := by
    rw [hsame.storage, Server.getBatch, Server.readAll_eq_ok]
    · simp only [ok_bind, List.map_map, hserver, hresp, Function.comp_def]
    · intro l hl
      obtain ⟨a, ha, rfl⟩ := List.mem_map.mp hl
      obtain ⟨c, -, hc, -⟩ := h.readable a ha
      exact ⟨c, hc⟩
  set st₂ : Proxy := st₁.withStorage server with hst₂
  have hfr₂ : Frame st st₂ := hfr.trans (frame_withStorage st₁ _)
  have hcache : st₂.updateCache = st.updateCache := hsame.updateCache
  have hserv : st₂.Serviceable b.operations b.isTrues ids b.promises
      (UnorderedMap.at_ st.storage.contents) st.plain := by
    refine ⟨h.truesLength, h.idsLength, h.promisesLength, ?_, ?_, ?_, ?_, ?_⟩
    · rw [hfr₂.labelOf, hfr₂.replicas]; exact h.live
    · rw [hfr₂.labelOf, hfr₂.engine]
      exact fun a ha => ⟨(h.readable a ha).decrypt, (h.readable a ha).roundTrips⟩
    · rw [hfr₂.replicas, hcache]; exact h.fits
    · intro op hop
      rw [show st₂.missingNewReplicas = st.missingNewReplicas from hsame.missing]
      exact h.noMissing op hop
    · exact ⟨by rw [hcache, hfr₂.engine]; exact h.values.waiting,
        by rw [hfr₂.engine]; exact h.values.put⟩
  obtain ⟨cs, hall, hw, hf, henc, hrt, hv⟩ := serveAll_spec b.operations hserv
  simp only [hfr₂.labelOf, hfr₂.replicas, hfr₂.engine, hcache] at hall hw hf henc hrt
  rw [show accesses st.labelOf b.operations b.isTrues ids = as from rfl] at hall hw henc hrt
  set cache := cacheAfter st.replicas st.updateCache b.operations ids with hcache'
  set st₃ := (st₂.withCache cache).withStorage (server.putBatch (as.map Access.label) cs) with hst₃
  have hfr₃ : Frame st st₃ :=
    (hfr₂.trans (frame_withCache st₂ cache)).trans (frame_withStorage _ _)
  refine ⟨st₃, b.promises.zip (answers as (st.batchValues b ids)), ?_, ?_⟩
  · rw [executeBatchWith]
    simp only [hlab, ← hst₁, hget, ok_bind]
    rw [show ({ st₁ with storage := server } : Proxy) = st₂ from rfl, hall]
    rfl
  · exact
      { frame := hfr₃
        missing := hsame.missing
        updateCache := rfl
        waiting := hw
        fits := by rw [hfr₃.replicas]; exact hf
        plain := by
          rw [Proxy.plain, hfr₃.engine]
          exact plainText_insertAll hrt henc st.storage.contents
        fulfilled := rfl
        written := ⟨cs, henc, rfl, by simp [hst₃, hserver, hresp, ← has]⟩
        roundTrips := hrt
        readable := fun l hl => by
          rw [hfr₃.engine]; exact hl.insertAll hrt henc
        values := ⟨by
          rw [hfr₂.replicas, hcache] at hv
          rw [hfr₃.engine, ← hfr₂.engine]
          exact hv.waiting, by simp⟩ }

end Proxy

end Pancake
