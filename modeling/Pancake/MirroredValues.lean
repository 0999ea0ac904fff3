import Pancake.NewReplicas
import Pancake.ReplicaPresence
import Pancake.UpdateDeliveries

/-!
# The value passed on to missing replicas

The first access to a key with missing replicas makes them pending, with the
update that waits for some other replica, or else with the plaintext that the
access came by. A fake access may come by the recycled contents of a missing
replica; then these are passed on as the key's value.
-/

namespace Pancake

namespace UpdateCache

variable {map map' missing missing' cache : UpdateCache} {key toSend stored : Str} {id : Nat}

/-- A key with missing replicas keeps the value of its entry, or gets one with
the value of the access. -/
theorem lookup_checkIfMissing {entry : Str × List Bool} (hm : missing.lookup key = some entry)
    {value : Str} (h : missing.checkIfMissing key value cache = .ok (missing', map')) :
    ∃ bitVec, map'.lookup key = some (((cache.lookup key).map Prod.fst).getD value, bitVec) := by
  obtain ⟨w, missingBits⟩ := entry
  simp only [checkIfMissing, hm, bind_eq_ok] at h
  obtain ⟨map₁, hmirror, h⟩ := h
  cases h
  unfold mirrorUpdateCache at hmirror
  cases hl : cache.lookup key with
  | none =>
      simp only [hl] at hmirror
      cases hmirror
      exact ⟨missingBits, Finmap.lookup_insert _⟩
  | some e =>
      obtain ⟨pending, bits⟩ := e
      simp only [hl, bind_eq_ok] at hmirror
      obtain ⟨bits', -, hmirror⟩ := hmirror
      cases hmirror
      exact ⟨bits', Finmap.lookup_insert _⟩

/-- A check returns only for a replica that the entry has a bit for. -/
theorem lt_of_checkForUpdate {value : Str} {bitVec : List Bool}
    (hl : map.lookup key = some (value, bitVec))
    (h : map.checkForUpdate key id = .ok (toSend, map')) : id < bitVec.length := by
  by_contra hge
  rw [checkForUpdate, hl] at h
  simp only [List.getElem?_eq_none (not_lt.mp hge)] at h
  cases h

theorem pendingAt_iff {value : Str} {bitVec : List Bool}
    (hl : map.lookup key = some (value, bitVec)) (i : Nat) :
    map.PendingAt key i ↔ bitVec[i]? = some true := by
  rw [PendingAt, hl]
  simp

/-- An update that waits for some replica is that of the entry. -/
theorem undelivered_of_pendingAt {value : Str} {bitVec : List Bool}
    (hl : map.lookup key = some (value, bitVec)) {i : Nat} (h : map.PendingAt key i) :
    map.undelivered key = some value := by
  have hmem : true ∈ bitVec := List.mem_of_getElem? ((pendingAt_iff hl i).mp h)
  rw [undelivered, hl, Option.bind_some, if_pos hmem]

/-- A check leaves no bit set exactly when nothing waits for another replica. -/
theorem hammingWeight_set_eq_zero {value : Str} {bitVec : List Bool}
    (hl : map.lookup key = some (value, bitVec)) (hid : id < bitVec.length) :
    hammingWeight (bitVec.set id false) = 0 ↔ ∀ j ≠ id, ¬ map.PendingAt key j := by
  rw [hammingWeight_eq_zero]
  constructor
  · intro h j hj
    rw [pendingAt_iff hl, ← List.getElem?_set_ne (Ne.symm hj)]
    exact h j
  · intro h j
    by_cases hj : j = id
    · rw [hj, List.getElem?_set_self hid]
      simp
    · rw [List.getElem?_set_ne (Ne.symm hj)]
      intro hbit
      exact h j hj ((pendingAt_iff hl j).mpr hbit)

/-- **One access** with replicas missing: an update that waits for another
replica is kept; otherwise the access's own value is passed on, an update for
its replica or what storage has. -/
theorem passes_on {entry : Str × List Bool} (hm : missing.lookup key = some entry)
    (hcheck : map.checkForUpdate key id = .ok (toSend, cache))
    (hmirror : missing.checkIfMissing key (if toSend = [] then stored else toSend) cache
      = .ok (missing', map')) :
    ∃ value bitVec, map'.lookup key = some (value, bitVec) ∧
      ((∃ j ≠ id, map.PendingAt key j) → map.undelivered key = some value) ∧
      ((∀ j ≠ id, ¬ map.PendingAt key j) → value = (map.waiting key id).getD stored) := by
  obtain ⟨bits, hbits⟩ := lookup_checkIfMissing hm hmirror
  refine ⟨_, bits, hbits, ?_⟩
  cases hl : map.lookup key with
  | none =>
      rw [checkForUpdate, hl] at hcheck
      cases hcheck
      constructor
      · intro hother
        obtain ⟨j, -, e, he, -⟩ := hother
        rw [hl] at he
        cases he
      · intro _
        rw [hl, waiting_of_none hl]
        rfl
  | some e =>
      obtain ⟨value, bitVec⟩ := e
      have hid := lt_of_checkForUpdate hl hcheck
      obtain ⟨rfl, hafter⟩ := lookup_checkForUpdate hl hid hcheck
      have hweight := hammingWeight_set_eq_zero hl hid
      constructor
      · intro hother
        obtain ⟨j, hj, hpending⟩ := hother
        rw [hafter, if_neg fun hc => hweight.mp hc j hj hpending,
          undelivered_of_pendingAt hl hpending]
        rfl
      · intro hnone
        rw [hafter, if_pos (hweight.mpr hnone), waiting_of_some hl,
          List.getElem?_eq_getElem hid]
        by_cases hv : value = []
        · simp [hv]
        · cases hb : bitVec[id] <;> simp [hv]

/-- A put with replicas missing: its own value is pending everywhere. -/
theorem passes_on_put {entry : Str × List Bool} {val : Str} {n : Nat} (hval : val ≠ [])
    (hm : missing.lookup key = some entry)
    (hcheck : (map.populateReplicaUpdates key val n).checkForUpdate key id = .ok (toSend, cache))
    (hmirror : missing.checkIfMissing key (if toSend = [] then stored else toSend) cache
      = .ok (missing', map')) :
    ∃ bitVec, map'.lookup key = some (val, bitVec) := by
  have hentry : (map.populateReplicaUpdates key val n).lookup key
      = some (val, List.replicate n true) := Finmap.lookup_insert _
  have hid := lt_of_checkForUpdate hentry hcheck
  rw [List.length_replicate] at hid
  obtain ⟨v, bits, hl, hother, hnone⟩ := passes_on hm hcheck hmirror
  refine ⟨bits, ?_⟩
  rw [hl]
  by_cases hj : ∃ j ≠ id, (map.populateReplicaUpdates key val n).PendingAt key j
  · obtain ⟨j, hne, hpending⟩ := hj
    have hv := (hother ⟨j, hne, hpending⟩).symm.trans (undelivered_of_pendingAt hentry hpending)
    rw [Option.some.inj hv]
  · rw [hnone (by simpa using hj), waiting_of_some hentry, if_pos ⟨hval, by simp [hid]⟩]
    rfl

end UpdateCache

namespace Proxy

open UpdateCache

/-- What an access to the replica comes by is `v`: the update pending for it,
or else what is stored under its label. -/
def ComesBy (st : Proxy) (key : Str) (i : Nat) (v : Str) : Prop :=
  st.updateCache.waiting key i = some v ∨ (st.updateCache.waiting key i = none ∧
    ∃ c, st.storage.contents.lookup (st.labelOf key i) = some c ∧
      st.encryptionEngine.decrypt c = .ok v)

/-- The key misses its replicas from `a` on; those before hold its current
value, or have it pending. -/
structure MissesFrom (st : Proxy) (key : Str) (a : Nat) (current : Str) : Prop where
  entry : ∃ value bitVec, st.missingNewReplicas.lookup key = some (value, bitVec) ∧
    numLeadingZeros bitVec = a
  initialized : 1 ≤ a
  below : ∀ i < a, st.ComesBy key i current

/-- The current value of its key once the operation is taken up. -/
def currentAfter (op : Operation) (current : Str) : Str :=
  if op.value ≠ [] then op.value else current

/-- The access is a put, or the update that waits for another replica of the
key is its current value, or none does and the access is to a replica that is
not missing, or to one whose contents happen to be the current value. -/
def PassesCurrent (st : Proxy) (op : Operation) (id a : Nat) (current : Str) : Prop :=
  op.value ≠ [] ∨
    ((∃ j ≠ id, st.updateCache.PendingAt op.key j) ∧
      st.updateCache.undelivered op.key = some current) ∨
    ((∀ j ≠ id, ¬ st.updateCache.PendingAt op.key j) ∧
      (id < a ∨ st.ComesBy op.key id current))

section Serve

variable {st st' : Proxy} {op : Operation} {id a : Nat} {cipher plaintext current : Str}

/-- What the access comes by, when the ciphertext is that of its replica. -/
theorem comesBy_iff {stored : Str}
    (hread : st.storage.contents.lookup (st.labelOf op.key id) = some cipher)
    (hdecrypt : st.encryptionEngine.decrypt cipher = .ok stored) (v : Str) :
    st.ComesBy op.key id v ↔ (st.updateCache.waiting op.key id).getD stored = v := by
  rw [ComesBy, hread]
  cases st.updateCache.waiting op.key id with
  | none => simp [hdecrypt]
  | some w => simp

variable (op) in
/-- **The value passed on** to the missing replicas of a key is its current
value exactly when the access is not one to recycled contents. -/
theorem passesOn_current_iff (h : st.MissesFrom op.key a current)
    (hread : st.storage.contents.lookup (st.labelOf op.key id) = some cipher)
    (hserve : st.serve op id cipher = .ok (st', plaintext)) :
    (∃ bitVec, st'.updateCache.lookup op.key = some (currentAfter op current, bitVec)) ↔
      st.PassesCurrent op id a current := by
  obtain ⟨value, missingBits, hm, -⟩ := h.entry
  simp only [serve, bind_eq_ok] at hserve
  obtain ⟨stored, hdecrypt, ⟨toSend, cache⟩, hcheck, ⟨missing', cache'⟩, hmirror, hr⟩ := hserve
  cases hr
  show (∃ bitVec, cache'.lookup op.key = some (currentAfter op current, bitVec)) ↔ _
  by_cases hput : op.value ≠ []
  · rw [if_pos hput] at hcheck
    rw [currentAfter, if_pos hput]
    exact iff_of_true (passes_on_put hput hm hcheck hmirror) (.inl hput)
  · rw [if_neg hput] at hcheck
    rw [currentAfter, if_neg hput, PassesCurrent]
    obtain ⟨v, bits, hl, hother, hnone⟩ := passes_on hm hcheck hmirror
    have hvalue : (∃ bitVec, cache'.lookup op.key = some (current, bitVec)) ↔ v = current := by
      rw [hl]
      simp
    rw [hvalue]
    by_cases hj : ∃ j ≠ id, st.updateCache.PendingAt op.key j
    · rw [hother hj, Option.some_inj]
      constructor
      · intro hv
        exact .inr (.inl ⟨hj, hv⟩)
      · intro hc
        rcases hc with hc | hc | hc
        · exact absurd hc hput
        · exact hc.2
        · obtain ⟨j, hne, hpending⟩ := hj
          exact absurd hpending (hc.1 j hne)
    · have hnowhere : ∀ j ≠ id, ¬ st.updateCache.PendingAt op.key j := by simpa using hj
      rw [hnone hnowhere, ← comesBy_iff hread hdecrypt current]
      constructor
      · intro hv
        exact .inr (.inr ⟨hnowhere, .inr hv⟩)
      · intro hc
        rcases hc with hc | hc | hc
        · exact absurd hc hput
        · exact absurd hc.1 hj
        · rcases hc.2 with hlt | hv
          · exact h.below id hlt
          · exact hv

/-- A real access passes the current value on, unless something else is
pending for the key. -/
theorem passesCurrent_of_real (h : st.MissesFrom op.key a current)
    (hpending : ∀ v, st.updateCache.undelivered op.key = some v → v = current)
    (hs : st.Samples op.key true id) : st.PassesCurrent op id a current := by
  obtain ⟨value, missingBits, hm, rfl⟩ := h.entry
  obtain ⟨-, hid⟩ := (possible_sampleAReplica_real hm).mp hs
  by_cases hj : ∃ j ≠ id, st.updateCache.PendingAt op.key j
  · obtain ⟨j, hne, entry, hentry, hbit⟩ := hj
    have hwaits : st.updateCache.PendingAt op.key j := ⟨entry, hentry, hbit⟩
    have hundelivered := undelivered_of_pendingAt hentry hwaits
    refine .inr (.inl ⟨⟨j, hne, hwaits⟩, ?_⟩)
    rw [hundelivered, hpending _ hundelivered]
  · exact .inr (.inr ⟨by simpa using hj, .inl hid⟩)

end Serve

/-! ## A fake access to a recycled label

The second letter grows twice before it is accessed. Its first new replica
gets its own label, 1, again; its second one the first letter's, 0. -/

def secondTilted : Distribution where
  items := letters
  probabilities := 23 / 600 :: 2 / 25 :: List.replicate 23 (23 / 600)

def secondSteep : Distribution where
  items := letters
  probabilities := 11 / 300 :: 3 / 25 :: List.replicate 23 (11 / 300)

/-- A fake access to the second letter. -/
def fakeB : Batch := { operations := [⟨['B'], []⟩], isTrues := [false], promises := [] }

/-- With nothing pending for the key, an access comes by what is stored. -/
theorem comesBy_of_plain {st : Proxy} {key v : Str} {i : Nat}
    (hcache : st.updateCache.lookup key = none) (hv : v ≠ [])
    (h : st.plain (st.labelOf key i) = v) : st.ComesBy key i v := by
  rw [plain, plainText] at h
  cases hc : st.storage.contents.lookup (st.labelOf key i) with
  | none =>
      rw [hc] at h
      exact absurd h.symm hv
  | some c =>
      refine .inr ⟨waiting_of_none hcache i, c, hc, ?_⟩
      rw [hc] at h
      cases hd : st.encryptionEngine.decrypt c with
      | error e =>
          simp only [hd] at h
          exact absurd h.symm hv
      | ok w =>
          simp only [hd] at h
          rw [h]

/-- A key of three replicas, the third missing. -/
theorem missesFrom_two {st : Proxy} {key v : Str}
    (hmissing : st.missingNewReplicas.lookup key = some ([], [false, false, true]))
    (hcache : st.updateCache.lookup key = none) (hv : v ≠ [])
    (hzero : st.plain (st.labelOf key 0) = v) (hone : st.plain (st.labelOf key 1) = v) :
    st.MissesFrom key 2 v where
  entry := ⟨_, _, hmissing, rfl⟩
  initialized := by norm_num
  below := by
    intro i hi
    match i, hi with
    | 0, _ => exact comesBy_of_plain hcache hv hzero
    | 1, _ => exact comesBy_of_plain hcache hv hone

/-- A fake access that uses up the key's first entry, and the key's growth to
two replicas and then three: the states in between. -/
def secondGrowth : Except Fault (Proxy × Proxy × Proxy × Proxy × List (Promise × Str)) := do
  let st₀ ← blank.init evenLetters (1 / 25) (1 / 2) firstStrings
  let (st₁, fulfilled) ← st₀.executeBatchWith fakeB [0]
  let st₂ ← st₁.updateDistribution secondTilted
  let st₃ ← st₂.updateDistribution secondSteep
  .ok (st₀, st₁, st₂, st₃, fulfilled)

/-- The fake access to the first replica passes the letter's own value on. -/
theorem passesOn_current_b :
    ∃ (st st' : Proxy) (cipher plaintext : Str), st.MissesFrom ['B'] 2 ['b'] ∧
      st.storage.contents.lookup (st.labelOf ['B'] 0) = some cipher ∧
      st.serve ⟨['B'], []⟩ 0 cipher = .ok (st', plaintext) ∧
      ∃ bitVec, st'.updateCache.lookup ['B'] = some (['b'], bitVec) := by
  obtain ⟨r, hrun, hmissing, hcache, hzero, hone, hread⟩ :
      ∃ r, (do let (_, _, _, st, _) ← secondGrowth
               let cipher := UnorderedMap.at_ st.storage.contents (st.labelOf ['B'] 0)
               let served ← st.serve ⟨['B'], []⟩ 0 cipher
               Except.ok (st, cipher, served)) = .ok r ∧
        r.1.missingNewReplicas.lookup ['B'] = some ([], [false, false, true]) ∧
        r.1.updateCache.lookup ['B'] = none ∧ r.1.plain (r.1.labelOf ['B'] 0) = ['b'] ∧
        r.1.plain (r.1.labelOf ['B'] 1) = ['b'] ∧
        r.1.storage.contents.lookup (r.1.labelOf ['B'] 0) = some r.2.1 :=
    exists_ok_of_decide (by decide +kernel)
  simp only [bind_eq_ok] at hrun
  obtain ⟨⟨_, _, _, st, _⟩, -, ⟨st', plaintext⟩, hserve, hr⟩ := hrun
  cases hr
  have hmisses : st.MissesFrom ['B'] 2 ['b'] :=
    missesFrom_two hmissing hcache (by decide) hzero hone
  have hpasses : st.PassesCurrent ⟨['B'], []⟩ 0 2 ['b'] := by
    refine .inr (.inr ⟨?_, .inl (by norm_num)⟩)
    intro j _ hpending
    obtain ⟨entry, hentry, -⟩ := hpending
    rw [hcache] at hentry
    cases hentry
  have hiff : (∃ bitVec, st'.updateCache.lookup ['B']
      = some (currentAfter ⟨['B'], []⟩ ['b'], bitVec)) ↔ st.PassesCurrent ⟨['B'], []⟩ 0 2 ['b'] :=
    passesOn_current_iff ⟨['B'], []⟩ hmisses hread hserve
  rw [currentAfter, if_neg (by simp)] at hiff
  exact ⟨st, st', UnorderedMap.at_ st.storage.contents (st.labelOf ['B'] 0), plaintext, hmisses,
    hread, hserve, hiff.mpr hpasses⟩

/-- **The failing access**: the fake access to the third replica, whose label
was the first letter's, makes that letter's value pending for the second. -/
theorem recycled_contents_passed_on :
    ∃ st₀ st₁ st₂ st₃ st₄ first second,
      blank.init evenLetters (1 / 25) (1 / 2) firstStrings = .ok st₀ ∧
      st₀.Executes ⟨fakeB, [0], first⟩ st₁ ∧
      st₁.updateDistribution secondTilted = .ok st₂ ∧
      st₂.updateDistribution secondSteep = .ok st₃ ∧
      st₃.MissesFrom ['B'] 2 ['b'] ∧ st₃.Executes ⟨fakeB, [2], second⟩ st₄ ∧
      st₄.updateCache.lookup ['B'] = some (['a'], [false, false, true]) ∧
      ¬ ∃ bitVec, st₄.updateCache.lookup ['B']
        = some (currentAfter ⟨['B'], []⟩ ['b'], bitVec) := by
  obtain ⟨r, hrun, hcount₀, hmiss₀, hcount, hfrequency, hpMax, hmissing, hcache, hzero, hone,
    hafter⟩ :
      ∃ r, (do let (st₀, st₁, st₂, st₃, first) ← secondGrowth
               let (st₄, second) ← st₃.executeBatchWith fakeB [2]
               Except.ok (st₀, st₁, st₂, st₃, st₄, first, second)) = .ok r ∧
        r.1.replicas ['B'] = 1 ∧ r.1.missingNewReplicas.lookup ['B'] = none ∧
        r.2.2.2.1.replicas ['B'] = 3 ∧ r.2.2.2.1.frequency ['B'] = 0 ∧
        r.2.2.2.1.pMax = 1 / 25 ∧
        r.2.2.2.1.missingNewReplicas.lookup ['B'] = some ([], [false, false, true]) ∧
        r.2.2.2.1.updateCache.lookup ['B'] = none ∧
        r.2.2.2.1.plain (r.2.2.2.1.labelOf ['B'] 0) = ['b'] ∧
        r.2.2.2.1.plain (r.2.2.2.1.labelOf ['B'] 1) = ['b'] ∧
        r.2.2.2.2.1.updateCache.lookup ['B'] = some (['a'], [false, false, true]) :=
    exists_ok_of_decide (by decide +kernel)
  simp only [secondGrowth, bind_eq_ok] at hrun
  obtain ⟨⟨st₀, _, st₂, st₃, _⟩, ⟨_, hinit, ⟨st₁, first⟩, hfirst, _, htilted, _, hsteep, hgrown⟩,
    ⟨st₄, second⟩, hsecond, hr⟩ := hrun
  cases hgrown
  cases hr
  refine ⟨st₀, st₁, st₂, st₃, st₄, first, second, hinit,
    ⟨possible_chooseReplicas_single ?_, hfirst⟩, htilted, hsteep,
    missesFrom_two hmissing hcache (by decide) hzero hone,
    ⟨possible_chooseReplicas_single ?_, hsecond⟩, hafter, ?_⟩
  · exact (possible_sampleAReplica_of_none hmiss₀).mpr (by rw [hcount₀]; norm_num)
  · apply (possible_sampleAReplica hmissing).mpr
    refine ⟨by rw [hcount]; decide, false, ?_, by rw [hcount]; decide⟩
    rw [hcount, hfrequency, hpMax]
    exact possible_prob_false (by norm_num [numLeadingZeros]) (by norm_num)
  · simp [hafter, currentAfter]

end Proxy

end Pancake
