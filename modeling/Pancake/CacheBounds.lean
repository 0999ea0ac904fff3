import Pancake.ReplicaPresence

/-!
# Indexing the update cache

`check_for_update` and `mirror_update_cache` index the bits of a cache entry
without a check. An entry gets its bits when it is made, one for each replica
its key has then, and `update_distribution` never gives it more. As long as
no change lets a key outgrow its entry, every access stays within the bits;
the run at the end shows one that does not.
-/

namespace Pancake

/-! ## Calls that index within bounds -/

/-- The call does not index past the end of a vector, and `P` holds of what
it returns, if it returns. -/
def WithinBounds {α : Type} (x : Except Fault α) (P : α → Prop) : Prop :=
  match x with
  | .ok a => P a
  | .error e => e ≠ .indexOutOfBounds

namespace WithinBounds

variable {α β : Type} {x : Except Fault α} {P : α → Prop} {Q : β → Prop}

theorem bind {f : α → Except Fault β} (h : WithinBounds x P)
    (hf : ∀ a, P a → WithinBounds (f a) Q) : WithinBounds (x >>= f) Q := by
  cases x with
  | error e => exact h
  | ok a => exact hf a h

theorem ne_error (h : WithinBounds x P) : x ≠ .error .indexOutOfBounds := by
  intro hx
  subst hx
  exact h rfl

theorem of_eq_ok (h : WithinBounds x P) {a : α} (hx : x = .ok a) : P a := by
  subst hx
  exact h

theorem mono {P' : α → Prop} (h : WithinBounds x P) (hP : ∀ a, P a → P' a) :
    WithinBounds x P' := by
  cases x with
  | error e => exact h
  | ok a => exact hP a h

end WithinBounds

theorem EncryptionEngine.encrypt_withinBounds (e : EncryptionEngine) (x : Str) :
    WithinBounds (e.encrypt x) fun _ => True := by
  unfold EncryptionEngine.encrypt
  dsimp only
  split
  · exact Fault.noConfusion
  · split
    · exact Fault.noConfusion
    · trivial

theorem EncryptionEngine.decrypt_withinBounds (e : EncryptionEngine) (c : Str) :
    WithinBounds (e.decrypt c) fun _ => True := by
  unfold EncryptionEngine.decrypt
  split
  · exact Fault.noConfusion
  · split
    · exact Fault.noConfusion
    · split
      · exact Fault.noConfusion
      · trivial

theorem Server.readAll_withinBounds (m : UnorderedMap Str) (ks : List Str) :
    WithinBounds (Server.readAll m ks) fun values => values.length = ks.length := by
  induction ks with
  | nil => rfl
  | cons k ks ih =>
      unfold Server.readAll
      cases m.lookup k with
      | none => exact Fault.noConfusion
      | some v =>
          apply ih.bind
          intro values hvalues
          show (v :: values).length = (k :: ks).length
          rw [List.length_cons, List.length_cons, hvalues]

theorem Server.getBatch_withinBounds (s : Server) (ks : List Str) :
    WithinBounds (s.getBatch ks) fun r => r.1.length = ks.length := by
  apply (Server.readAll_withinBounds s.contents ks).bind
  intro values hvalues
  exact hvalues

/-! ## The cache's own accesses -/

namespace UpdateCache

variable {map : UpdateCache} {r : Str → Nat} {key : Str}

/-- Bits below the length are set in place. -/
theorem setBits_length {i size : Nat} {entry : List Bool} (h : size ≤ entry.length) :
    ∃ entry', setBits i size entry = .ok entry' ∧ entry'.length = entry.length := by
  have hlt : ∀ j ∈ List.range' i (size - i), j < entry.length := by
    intro j hj
    rw [List.mem_range'_1] at hj
    omega
  unfold setBits
  generalize List.range' i (size - i) = js at hlt
  induction js generalizing entry with
  | nil => exact ⟨entry, rfl, rfl⟩
  | cons j js ih =>
      have hj : j < entry.length := hlt j (by simp)
      obtain ⟨entry', hrun, hlen⟩ := ih (show size ≤ (entry.set j true).length by
        rw [List.length_set]
        exact h) (by
        intro j' hj'
        rw [List.length_set]
        exact hlt j' (by simp [hj']))
      refine ⟨entry', ?_, by rw [hlen, List.length_set]⟩
      rw [List.foldlM_cons, if_pos hj]
      exact hrun

/-- **`mirror_update_cache`** stays within an entry that fits, and leaves one
that does. -/
theorem mirrorUpdateCache_fits (h : map.Fits r) {bitVec : List Bool}
    (hbits : bitVec.length = r key) (value : Str) :
    ∃ map', mirrorUpdateCache map key value bitVec = .ok map' ∧ map'.Fits r := by
  have hinsert : ∀ (pending : Str) (bits : List Bool), r key ≤ bits.length →
      Fits (map.insert key (pending, bits)) r := by
    intro pending bits hle k v bs hl
    by_cases hk : k = key
    · subst hk
      rw [Finmap.lookup_insert] at hl
      cases hl
      exact hle
    · rw [Finmap.lookup_insert_of_ne _ hk] at hl
      exact h k v bs hl
  unfold mirrorUpdateCache
  cases hl : map.lookup key with
  | none => exact ⟨_, rfl, hinsert value bitVec (by omega)⟩
  | some entry =>
      obtain ⟨pending, bits⟩ := entry
      have hle : r key ≤ bits.length := h key pending bits hl
      obtain ⟨bits', hset, hlen⟩ := setBits_length (i := numLeadingZeros bitVec)
        (show bitVec.length ≤ bits.length by omega)
      exact ⟨map.insert key (pending, bits'), by simp only [hset, ok_bind],
        hinsert pending bits' (by omega)⟩

theorem checkIfMissing_fits {missing : UpdateCache} (h : map.Fits r)
    (hm : ∀ entry ∈ missing.lookup key, entry.2.length = r key) (value : Str) :
    ∃ missing' map', missing.checkIfMissing key value map = .ok (missing', map') ∧
      map'.Fits r := by
  unfold checkIfMissing
  cases hl : missing.lookup key with
  | none => exact ⟨missing, map, rfl, h⟩
  | some entry =>
      obtain ⟨v, bitVec⟩ := entry
      obtain ⟨map', hmirror, hfits⟩ := mirrorUpdateCache_fits h (hm _ hl) value
      exact ⟨missing.erase key, map', by simp only [hmirror, ok_bind], hfits⟩

end UpdateCache

/-- A batch as the proxy's threads make it: a flag for each operation, and a
promise for each real one. -/
structure Batch.Shaped (b : Batch) : Prop where
  truesLength : b.isTrues.length = b.operations.length
  promisesLength : b.isTrues.count true ≤ b.promises.length

namespace Proxy

/-! ## Accesses within the bit vectors -/

/-- Every cache entry has a bit for each replica of its key, and no batch
indexes past the end of a vector. -/
structure CacheInBounds (st : Proxy) : Prop where
  fits : st.updateCache.Fits st.replicas
  batches : ∀ b : Batch, b.Shaped → ∀ ids,
    (st.chooseReplicas b.operations b.isTrues).Possible (.ok ids) →
    st.executeBatchWith b ids ≠ .error .indexOutOfBounds

/-- The new distribution gives no key that has a cache entry more replicas
than the entry has bits. -/
def Outgrows (st : Proxy) (d : Distribution) : Prop :=
  ∃ item ∈ d.pairs, ∃ entry ∈ st.updateCache.lookup item.1,
    entry.2.length < replicaCount st.alpha item.2

/-- The steps whose changes let no key outgrow its entry. -/
structure FittingSteps (keys : List Str) (st : Proxy) (e : Event) (st' : Proxy) : Prop where
  taken : Advances keys st e st'
  fitting : ∀ d, e = .update d → ¬ st.Outgrows d

/-- The invariant: the cache fits, and a key with missing replicas has one
bit for each replica. -/
structure Sized (st : Proxy) : Prop where
  cache : st.updateCache.Fits st.replicas
  missing : ∀ key entry, st.missingNewReplicas.lookup key = some entry →
    entry.2.length = st.replicas key

/-! ## A batch -/

section Batch

variable {st st' : Proxy}

/-- **One operation**, at a replica its key has. -/
theorem Sized.serve (h : st.Sized) {op : Operation} {id : Nat} (hid : id < st.replicas op.key)
    (cipher : Str) : WithinBounds (st.serve op id cipher) fun r => r.1.Sized ∧
      r.1.replicas = st.replicas := by
  cases hd : st.encryptionEngine.decrypt cipher with
  | error e =>
      have hbound := st.encryptionEngine.decrypt_withinBounds cipher
      rw [hd] at hbound
      simp only [Proxy.serve, hd, error_bind]
      exact hbound
  | ok plaintext =>
      -- the cache the operation is checked against
      obtain ⟨cache, hcache, hfits⟩ : ∃ cache, cache = (if op.value ≠ [] then
          st.updateCache.populateReplicaUpdates op.key op.value (st.replicas op.key)
        else st.updateCache) ∧ cache.Fits st.replicas := by
        refine ⟨_, rfl, ?_⟩
        split
        · exact h.cache.populate op.key op.value
        · exact h.cache
      obtain ⟨cache', hcheck, -, hfits'⟩ := UpdateCache.checkForUpdate_spec hfits hid
      obtain ⟨missing, cache'', hmiss, hfits''⟩ := UpdateCache.checkIfMissing_fits hfits'
        (h.missing op.key) (if (cache.waiting op.key id).getD [] = [] then plaintext
          else (cache.waiting op.key id).getD [])
      have hserve : st.serve op id cipher = .ok ({ st with
            updateCache := cache'', missingNewReplicas := missing },
          if (cache.waiting op.key id).getD [] = [] then plaintext
            else (cache.waiting op.key id).getD []) := by
        simp only [Proxy.serve, hd, ok_bind, ← hcache, hcheck, hmiss]
      rw [hserve]
      refine ⟨⟨hfits'', ?_⟩, rfl⟩
      intro key entry he
      exact h.missing key entry (missing_of_serve hserve he)

/-- Operations that are served leave the cache as fitting. -/
theorem Sized.serveAll (ops : List Operation) : ∀ {st st' : Proxy} {isTrues : List Bool}
    {ids : List Nat} {ciphers : List Str} {promises : List Promise} {out : List Str × _},
    st.Sized → List.Forall₂ (fun op id => id < st.replicas op.key) ops ids →
    st.serveAll ops isTrues ids ciphers promises = .ok (st', out) → st'.Sized := by
  induction ops with
  | nil =>
      intro st st' isTrues ids ciphers promises out hsized _ h
      cases h
      exact hsized
  | cons op ops ih =>
      intro st st' isTrues ids ciphers promises out hsized hids h
      match isTrues, ids, ciphers, hids, h with
      | t :: isTrues, id :: ids, cipher :: ciphers, .cons hid hids, h =>
          obtain ⟨⟨st₁, x⟩, h₁, h⟩ := bind_eq_ok.mp h
          obtain ⟨⟨done, promises'⟩, -, h⟩ := bind_eq_ok.mp h
          obtain ⟨c, -, h⟩ := bind_eq_ok.mp h
          obtain ⟨⟨st₂, out'⟩, h₂, h⟩ := bind_eq_ok.mp h
          cases h
          obtain ⟨hsized₁, hreplicas⟩ := (hsized.serve hid cipher).of_eq_ok h₁
          dsimp only at hsized₁ hreplicas
          apply ih hsized₁ _ h₂
          rw [hreplicas]
          exact hids

/-- And each of them stays within its vectors. -/
theorem Sized.serveAll_withinBounds (ops : List Operation) : ∀ {st : Proxy} {isTrues : List Bool}
    {ids : List Nat} {ciphers : List Str} {promises : List Promise}, st.Sized →
    List.Forall₂ (fun op id => id < st.replicas op.key) ops ids →
    isTrues.length = ops.length → ciphers.length = ops.length →
    isTrues.count true ≤ promises.length →
    WithinBounds (st.serveAll ops isTrues ids ciphers promises) fun _ => True := by
  induction ops with
  | nil =>
      intro st isTrues ids ciphers promises _ _ _ _ _
      trivial
  | cons op ops ih =>
      intro st isTrues ids ciphers promises h hids htrues hciphers hpromises
      match isTrues, ids, ciphers, hids with
      | t :: isTrues, id :: ids, cipher :: ciphers, .cons hid hids =>
          rw [List.length_cons, List.length_cons, Nat.add_right_cancel_iff] at htrues hciphers
          unfold Proxy.serveAll
          apply (h.serve hid cipher).bind
          intro served hserved
          obtain ⟨hsized, hreplicas⟩ := hserved
          obtain ⟨done, rest, hfulfil, hlength, -⟩ := fulfil_spec t promises served.2
            (n := isTrues.count true) (by cases t <;> simpa using hpromises)
          dsimp only
          rw [hfulfil, ok_bind]
          apply (EncryptionEngine.encrypt_withinBounds _ served.2).bind
          intro storageValue _
          have hrest : isTrues.count true ≤ rest.length := by
            cases t <;> simp at hpromises hlength <;> omega
          apply (ih hsized (by rw [hreplicas]; exact hids) htrues hciphers hrest).bind
          intro _ _
          trivial

theorem Sized.resolve (h : st.Sized) (ops : List Operation) (ids : List Nat) :
    (st.resolve ops ids).1.Sized := by
  obtain ⟨hframe, hsame⟩ := frame_resolve ops st ids
  constructor
  · rw [hsame.updateCache, hframe.replicas]
    exact h.cache
  · rw [hsame.missing, hframe.replicas]
    exact h.missing

/-- **A batch** that returns. -/
theorem Sized.executes (h : st.Sized) {c : Call} (hx : st.Executes c st') : st'.Sized := by
  have hlive := live_of_chooseReplicas hx.drawn
  have hreplicas := (frame_resolve c.batch.operations st c.replicaIds).1.replicas
  have hresolved := h.resolve c.batch.operations c.replicaIds
  obtain ⟨⟨responses, storage⟩, -, hrun⟩ := bind_eq_ok.mp hx.returns
  obtain ⟨⟨st₁, out⟩, h₁, hrun⟩ := bind_eq_ok.mp hrun
  obtain ⟨rfl, -⟩ := Prod.mk.inj (Except.ok.inj hrun)
  have hserved : st₁.Sized := by
    apply Sized.serveAll c.batch.operations _ _ h₁
    · exact ⟨hresolved.cache, hresolved.missing⟩
    · show List.Forall₂ (fun (op : Operation) id =>
        id < (st.resolve c.batch.operations c.replicaIds).1.replicas op.key) _ _
      rw [hreplicas]
      exact hlive
  exact ⟨hserved.cache, hserved.missing⟩

/-- **A batch** as the proxy makes them, whatever becomes of it. -/
theorem Sized.executeBatchWith (h : st.Sized) {b : Batch} (hb : b.Shaped) {ids : List Nat}
    (hids : (st.chooseReplicas b.operations b.isTrues).Possible (.ok ids)) :
    st.executeBatchWith b ids ≠ .error .indexOutOfBounds := by
  have hlive := live_of_chooseReplicas hids
  have hreplicas := (frame_resolve b.operations st ids).1.replicas
  have hresolved := h.resolve b.operations ids
  have hlength : (st.resolve b.operations ids).2.length = b.operations.length := by
    rw [resolve_labels b.operations st b.isTrues ids hb.truesLength hlive.length_eq.symm,
      List.length_map]
    exact accesses_length _ _ _ _ hb.truesLength hlive.length_eq.symm
  have hbatch : WithinBounds (st.executeBatchWith b ids) fun _ => True := by
    unfold Proxy.executeBatchWith
    apply (Server.getBatch_withinBounds _ _).bind
    intro r hr
    have hstored : ((st.resolve b.operations ids).1.withStorage r.2).Sized :=
      ⟨hresolved.cache, hresolved.missing⟩
    have hserved : WithinBounds (((st.resolve b.operations ids).1.withStorage r.2).serveAll
        b.operations b.isTrues ids r.1 b.promises) fun _ => True := by
      apply hstored.serveAll_withinBounds b.operations _ hb.truesLength (hr.trans hlength)
        hb.promisesLength
      show List.Forall₂ (fun (op : Operation) id =>
        id < (st.resolve b.operations ids).1.replicas op.key) _ _
      rw [hreplicas]
      exact hlive
    apply hserved.bind
    intro _ _
    trivial
  exact hbatch.ne_error

end Batch

/-! ## A change -/

section Change

variable {st st' : Proxy} {keys : List Str} {d : Distribution}

/-- **A change** keeps the cache fitting exactly when no key outgrows its
entry. -/
theorem Sized.fits_iff (h : st.Sized) (hnd : keys.Nodup) (hd : DistributionOver keys d)
    (hupdate : st.updateDistribution d = .ok st') :
    st'.updateCache.Fits st'.replicas ↔ ¬ st.Outgrows d := by
  have hu := updateDistribution_spec (hd.pairs_nodup hnd) hupdate
  constructor
  · intro hfits hout
    obtain ⟨item, hitem, entry, hentry, hlt⟩ := hout
    rw [← hu.kept.updateCache] at hentry
    have hle := hfits item.1 entry.1 entry.2 hentry
    rw [hu.counts item hitem] at hle
    omega
  · intro hout key value bitVec hl
    rw [hu.kept.updateCache] at hl
    by_cases hk : key ∈ d.pairs.map Prod.fst
    · obtain ⟨item, hitem, rfl⟩ := List.mem_map.mp hk
      rw [hu.counts item hitem]
      by_contra hgt
      exact hout ⟨item, hitem, (value, bitVec), hl, by simpa using hgt⟩
    · rw [hu.others key hk]
      exact h.cache key value bitVec hl

theorem Sized.updates (h : st.Sized) (hnd : keys.Nodup) (hd : DistributionOver keys d)
    (hupdate : st.updateDistribution d = .ok st') (hout : ¬ st.Outgrows d) : st'.Sized where
  cache := (h.fits_iff hnd hd hupdate).mpr hout
  missing := (updateDistribution_spec (hd.pairs_nodup hnd) hupdate).sizes

theorem Sized.step {e : Event} (h : st.Sized) (hnd : keys.Nodup)
    (hs : FittingSteps keys st e st') : st'.Sized := by
  obtain ⟨htaken, hfitting⟩ := hs
  cases htaken with
  | call hx => exact h.executes hx
  | update hd hupdate => exact h.updates hnd hd hupdate (hfitting _ rfl)

end Change

theorem Sized.cacheInBounds {st : Proxy} (h : st.Sized) : st.CacheInBounds where
  fits := h.cache
  batches := by
    intro b hb ids hids
    exact h.executeBatchWith hb hids

/-! ## Runs -/

theorem Created.sized {st st' : Proxy} {values : Nat → Str} (hc : Created st values st')
    (hfresh : st.Fresh) : st'.Sized where
  cache := by
    intro key value bitVec hl
    exact (hc.updateCache_empty hfresh hl).2.le
  missing := by
    intro key entry hl
    rw [show st'.missingNewReplicas = ∅ by rw [hc.rest]; exact hfresh.missing] at hl
    simp at hl

/-- **The cache is indexed within bounds** in every state of a run whose
changes let no key outgrow its entry; and the first change that does leaves a
state where it is not. -/
theorem cacheInBounds_of_fitting {st₀ st st' : Proxy} {dist : Distribution} {alpha delta : ℚ}
    {values : Nat → Str} (hfresh : st₀.Fresh) (h : CallerArguments dist alpha delta)
    (hinit : st₀.init dist alpha delta values = .ok st) {events : List Event}
    (hrun : Run (FittingSteps dist.items) st events st') :
    st'.CacheInBounds ∧ ∀ d st'', DistributionOver dist.items d →
      st'.updateDistribution d = .ok st'' → (st''.CacheInBounds ↔ ¬ st'.Outgrows d) := by
  obtain ⟨values', hc⟩ := exists_created_of_init h.lengths h.keys_pos hinit
  have hstart : st.Sized := hc.sized (hfresh.takeArguments _ _ _)
  have hend : st'.Sized :=
    hrun.invariant (I := fun _ st => st.Sized) hstart fun _ hi hs => hi.step h.keys hs
  refine ⟨hend.cacheInBounds, ?_⟩
  intro d st'' hd hupdate
  constructor
  · intro hbounds
    exact (hend.fits_iff h.keys hd hupdate).mp hbounds.fits
  · intro hout
    exact (hend.updates h.keys hd hupdate hout).cacheInBounds

/-- A get uses the first letter's entry up, and the letter may grow. -/
theorem cacheInBounds_of_fitting_letters :
    ∃ st st', blank.init evenLetters (1 / 25) (1 / 2) firstStrings = .ok st ∧
      Run (FittingSteps letters) st [.call ⟨getFirst, [0], [(0, ['a'])]⟩, .update tiltedLetters]
        st' ∧ st'.CacheInBounds := by
  obtain ⟨r, hrun, hmiss, hcount, hfits, hanswer⟩ :
      ∃ r, (do let st₀ ← blank.init evenLetters (1 / 25) (1 / 2) firstStrings
               let first ← st₀.executeBatchWith getFirst [0]
               let st₂ ← first.1.updateDistribution tiltedLetters
               Except.ok (st₀, first, st₂)) = .ok r ∧
        r.1.missingNewReplicas.lookup ['A'] = none ∧ r.1.replicas ['A'] = 1 ∧
        (∀ item ∈ tiltedLetters.pairs, ∀ entry ∈ r.2.1.1.updateCache.lookup item.1,
          replicaCount r.2.1.1.alpha item.2 ≤ entry.2.length) ∧
        r.2.1.2 = [(0, ['a'])] :=
    exists_ok_of_decide (by decide +kernel)
  simp only [bind_eq_ok] at hrun
  obtain ⟨st₀, hinit, ⟨st₁, first⟩, hfirst, st₂, hupdate, hr⟩ := hrun
  cases hr
  cases hanswer
  have hcall : st₀.Executes ⟨getFirst, [0], [(0, ['a'])]⟩ st₁ := by
    refine ⟨possible_chooseReplicas_single ?_, hfirst⟩
    exact (UpdateCache.possible_sampleAReplica_of_none hmiss).mpr (by rw [hcount]; decide)
  have hsteps : Run (FittingSteps letters) st₀
      [.call ⟨getFirst, [0], [(0, ['a'])]⟩, .update tiltedLetters] st₂ := by
    apply Run.snoc (Run.single ⟨.call hcall, fun d hd => by cases hd⟩)
    refine ⟨.update tiltedLetters_over hupdate, ?_⟩
    intro d hd hout
    cases hd
    obtain ⟨item, hitem, entry, hentry, hlt⟩ := hout
    exact absurd (hfits item hitem entry hentry) (not_le.mpr hlt)
  exact ⟨st₀, st₂, hinit, hsteps,
    (cacheInBounds_of_fitting ⟨rfl, rfl, rfl, rfl⟩ evenLetters_arguments hinit hsteps).1⟩

/-- **The failing run**: the first letter's initial entry has one bit; the
letter grows to two replicas before it is accessed, and a get that draws the
second one indexes past the end. -/
theorem cache_outgrown :
    CallerArguments evenLetters (1 / 25) (1 / 2) ∧
    ∃ st st', blank.init evenLetters (1 / 25) (1 / 2) firstStrings = .ok st ∧
      Run (Advances letters) st [.update tiltedLetters] st' ∧
      st'.replicas ['A'] = 2 ∧ st'.updateCache.lookup ['A'] = some ([], [false]) ∧
      (st'.chooseReplicas getFirst.operations getFirst.isTrues).Possible (.ok [1]) ∧
      st'.executeBatchWith getFirst [1] = .error .indexOutOfBounds ∧ ¬ st'.CacheInBounds := by
  refine ⟨evenLetters_arguments, ?_⟩
  obtain ⟨r, hrun, hcount, hentry, hmissing, hfails⟩ :
      ∃ r, (do let st₀ ← blank.init evenLetters (1 / 25) (1 / 2) firstStrings
               let st₁ ← st₀.updateDistribution tiltedLetters
               Except.ok (st₀, st₁)) = .ok r ∧
        r.2.replicas ['A'] = 2 ∧ r.2.updateCache.lookup ['A'] = some ([], [false]) ∧
        r.2.missingNewReplicas.lookup ['A'] = some ([], [false, false]) ∧
        (r.2.executeBatchWith getFirst [1]).map (fun _ => ()) = .error .indexOutOfBounds :=
    exists_ok_of_decide (by decide +kernel)
  simp only [bind_eq_ok] at hrun
  obtain ⟨st₀, hinit, st₁, hupdate, hr⟩ := hrun
  cases hr
  have hdrawn : (st₁.chooseReplicas getFirst.operations getFirst.isTrues).Possible (.ok [1]) := by
    apply possible_chooseReplicas_single
    exact (UpdateCache.possible_sampleAReplica_real hmissing).mpr
      ⟨by rw [hcount]; decide, by decide⟩
  have herror : st₁.executeBatchWith getFirst [1] = .error .indexOutOfBounds :=
    eq_error_of_map hfails
  refine ⟨st₀, st₁, hinit, Run.single (.update tiltedLetters_over hupdate), hcount, hentry, hdrawn,
    herror, ?_⟩
  intro h
  exact h.batches getFirst ⟨rfl, by decide⟩ [1] hdrawn herror

end Proxy

end Pancake
