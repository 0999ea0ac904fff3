import Pancake.Basic
import Pancake.Lib.LazyReplicas

/-!
# The update cache

`update_cache` maps a key to a pending value and one bit per replica; a set
bit says the replica still has to get the value. The proxy keeps two of
them: the pending updates themselves, and the replicas that a distribution
change created but nothing has filled yet (there the bits say *missing*).

`waiting` forgets the representation: it is the table of `LazyReplicas` the
cache stands for, and each operation below has one lemma saying what it does
to that table.
-/

namespace Pancake

open LazyReplicas

/-- `update_cache`: key to pending value and one bit per replica. -/
abbrev UpdateCache := UnorderedMap (Str × List Bool)

namespace UpdateCache

/-! ## The operations -/

/-- The constructor: no value pending, one clear bit per replica. -/
def ofPairs (keysReplicasPairs : List (Str × Nat)) : UpdateCache :=
  keysReplicasPairs.foldl
    (fun map pair => map.insert pair.1 ([], List.replicate pair.2 false)) ∅

def hammingWeight (bitVec : List Bool) : Nat := bitVec.count true

/-- The index of the first set bit, or the size. -/
def numLeadingZeros : List Bool → Nat
  | [] => 0
  | true :: _ => 0
  | false :: rest => numLeadingZeros rest + 1

/-- Hand replica `replicaId` its pending value, if its bit is set; the entry
goes with its last bit. -/
def checkForUpdate (map : UpdateCache) (key : Str) (replicaId : Nat) :
    Except Fault (Str × UpdateCache) :=
  match map.lookup key with
  | none => .ok ([], map)
  | some (value, bitVec) =>
      match bitVec[replicaId]? with
      | none => .error .indexOutOfBounds
      | some bit =>
          let toSend := if bit then value else []
          let bitVec := if bit then bitVec.set replicaId false else bitVec
          .ok (toSend,
            if hammingWeight bitVec = 0 then map.erase key else map.insert key (value, bitVec))

/-- Give an entry `size` bits: new ones are set, but the bits of a new entry
are clear. -/
def editBitVectorSize (map : UpdateCache) (key : Str) (size : Nat) : UpdateCache :=
  match map.lookup key with
  | some (value, bitVec) =>
      map.insert key (value, bitVec.take size ++ List.replicate (size - bitVec.length) true)
  | none => map.insert key ([], List.replicate size false)

/-- A put: the value is pending at every replica. -/
def populateReplicaUpdates (map : UpdateCache) (key val : Str) (numReplicas : Nat) : UpdateCache :=
  map.insert key (val, List.replicate numReplicas true)

/-- Set the bits from `i` up to the size of `bitVec` in a cache entry, whose
own vector may be shorter. -/
def setBits (i size : Nat) (entry : List Bool) : Except Fault (List Bool) :=
  (List.range' i (size - i)).foldlM
    (fun bits j => if j < bits.length then .ok (bits.set j true) else .error .indexOutOfBounds)
    entry

/-- Make the replicas `bitVec` counts as missing pending in this cache. -/
def mirrorUpdateCache (map : UpdateCache) (key value : Str) (bitVec : List Bool) :
    Except Fault UpdateCache :=
  match map.lookup key with
  | some (pending, entry) => do
      let entry ← setBits (numLeadingZeros bitVec) bitVec.length entry
      .ok (map.insert key (pending, entry))
  | none => .ok (map.insert key (value, bitVec))

/-- On this table of missing replicas: the first access of a key moves its
entry to the pending updates. -/
def checkIfMissing (missing : UpdateCache) (key value : Str) (cache : UpdateCache) :
    Except Fault (UpdateCache × UpdateCache) :=
  match missing.lookup key with
  | none => .ok (missing, cache)
  | some (_, bitVec) => do
      let cache ← mirrorUpdateCache cache key value bitVec
      .ok (missing.erase key, cache)

/-- Choose the replica an access goes to. -/
def sampleAReplica (missing : UpdateCache) (key : Str) (numReplicas : Nat) (accessIsReal : Bool)
    (frequency : Int) (pMax : ℚ) : Sampler (Except Fault Nat) :=
  match missing.lookup key with
  | none => randMod numReplicas
  | some (_, bitVec) =>
      let rInitialized := numLeadingZeros bitVec
      if numReplicas < rInitialized then .done (.error .assertionFailed)
      else
        let pInitialized :=
          divide (rInitialized * pMax - frequency) (numReplicas * pMax - frequency)
        (prob pInitialized).bind fun repExists =>
          if repExists || accessIsReal then randMod rInitialized
          else (randMod (numReplicas - rInitialized)).map (Except.map (rInitialized + ·))

/-! ## The table a cache stands for -/

/-- What waits at each replica: the entry's value where its bit is set. The
empty string is the cache's "no update", so an entry holding it hands
nothing over. -/
def waiting (map : UpdateCache) : Waiting Str Str := fun key i =>
  match map.lookup key with
  | some (value, bitVec) => if value ≠ [] ∧ bitVec[i]? = some true then some value else none
  | none => none

/-- Every entry has a bit for each of the `r` replicas of its key. -/
def Fits (map : UpdateCache) (r : Str → Nat) : Prop :=
  ∀ key value bitVec, map.lookup key = some (value, bitVec) → r key ≤ bitVec.length

theorem waiting_of_none {map : UpdateCache} {key : Str} (h : map.lookup key = none) (i : Nat) :
    map.waiting key i = none := by
  simp [waiting, h]

theorem waiting_of_some {map : UpdateCache} {key value : Str} {bitVec : List Bool}
    (h : map.lookup key = some (value, bitVec)) (i : Nat) :
    map.waiting key i = if value ≠ [] ∧ bitVec[i]? = some true then some value else none := by
  simp [waiting, h]

theorem waiting_eq_some {map : UpdateCache} {key value : Str} {i : Nat} :
    map.waiting key i = some value ↔
      value ≠ [] ∧ ∃ bitVec, map.lookup key = some (value, bitVec) ∧ bitVec[i]? = some true := by
  unfold waiting
  cases h : map.lookup key with
  | none => simp
  | some entry =>
      obtain ⟨v, bits⟩ := entry
      simp only [Option.some.injEq, Prod.mk.injEq]
      constructor
      · intro hs
        split at hs
        · rename_i hc
          cases hs
          exact ⟨hc.1, bits, ⟨rfl, rfl⟩, hc.2⟩
        · cases hs
      · rintro ⟨hv, b, ⟨rfl, rfl⟩, hb⟩
        rw [if_pos ⟨hv, hb⟩]

/-- The weight is zero exactly when no bit is set. -/
theorem hammingWeight_eq_zero {bitVec : List Bool} :
    hammingWeight bitVec = 0 ↔ ∀ i : Nat, bitVec[i]? ≠ some true := by
  rw [hammingWeight, List.count_eq_zero, List.mem_iff_getElem?]
  simp

/-! ## What each operation does to the table -/

/-- A put leaves its value waiting at every replica. -/
theorem waiting_populate (map : UpdateCache) {key val : Str} (n : Nat) (hval : val ≠ []) :
    (map.populateReplicaUpdates key val n).waiting = map.waiting.put key n val := by
  funext k i
  rw [Waiting.put_apply]
  by_cases hk : k = key
  · subst hk
    rw [populateReplicaUpdates, waiting_of_some (Finmap.lookup_insert _), if_pos rfl]
    by_cases hi : i < n <;> simp [hval, hi]
  · rw [if_neg hk, waiting, populateReplicaUpdates, Finmap.lookup_insert_of_ne _ hk, waiting]

theorem Fits.populate {map : UpdateCache} {r : Str → Nat} (h : map.Fits r) (key val : Str) :
    (map.populateReplicaUpdates key val (r key)).Fits r := by
  intro k v bits hl
  by_cases hk : k = key
  · subst hk
    rw [populateReplicaUpdates, Finmap.lookup_insert] at hl
    cases hl
    simp
  · rw [populateReplicaUpdates, Finmap.lookup_insert_of_ne _ hk] at hl
    exact h k v bits hl

/-- Everything `check_for_update` does: the value handed over, and an entry
that changed only in its bit — or is gone with its last one. -/
theorem checkForUpdate_cases {map : UpdateCache} {key : Str} {id : Nat} {value : Str}
    {bitVec : List Bool} (hl : map.lookup key = some (value, bitVec)) (hid : id < bitVec.length) :
    checkForUpdate map key id = .ok (if bitVec[id] then value else [],
      if hammingWeight (bitVec.set id false) = 0 then map.erase key
      else map.insert key (value, bitVec.set id false)) := by
  have hset : bitVec[id] = false → bitVec.set id false = bitVec := fun h => by
    rw [← h]; exact List.set_getElem_self _
  simp only [checkForUpdate, hl, List.getElem?_eq_getElem hid]
  cases hb : bitVec[id] with
  | true => simp
  | false => simp [hset hb]

/-- What `check_for_update` leaves of the entry. -/
theorem lookup_checkForUpdate {map map' : UpdateCache} {key : Str} {id : Nat}
    {toSend value : Str} {bitVec : List Bool}
    (hl : map.lookup key = some (value, bitVec)) (hid : id < bitVec.length)
    (h : map.checkForUpdate key id = .ok (toSend, map')) :
    toSend = (if bitVec[id] then value else []) ∧
    map'.lookup key = if hammingWeight (bitVec.set id false) = 0 then none
      else some (value, bitVec.set id false) := by
  rw [checkForUpdate_cases hl hid] at h
  cases h
  refine ⟨rfl, ?_⟩
  split
  · exact Finmap.lookup_erase ..
  · exact Finmap.lookup_insert ..

/-- It leaves the entries of other keys. -/
theorem lookup_checkForUpdate_of_ne {map map' : UpdateCache} {key k : Str} {id : Nat}
    {toSend : Str} (h : map.checkForUpdate key id = .ok (toSend, map')) (hk : k ≠ key) :
    map'.lookup k = map.lookup k := by
  simp only [checkForUpdate] at h
  split at h
  · cases h
    rfl
  · split at h
    · cases h
    · cases h
      rw [apply_ite (Finmap.lookup k), Finmap.lookup_erase_ne hk,
        Finmap.lookup_insert_of_ne _ hk, ite_self]

/-- **`check_for_update`** hands over what waits at the replica, and clears
it. -/
theorem checkForUpdate_spec {map : UpdateCache} {r : Str → Nat} (hf : map.Fits r) {key : Str}
    {id : Nat} (hid : id < r key) :
    ∃ map', checkForUpdate map key id = .ok ((map.waiting key id).getD [], map') ∧
      map'.waiting = map.waiting.clear key id ∧ map'.Fits r := by
  cases hl : map.lookup key with
  | none =>
      refine ⟨map, by simp [checkForUpdate, hl, waiting_of_none hl], ?_, hf⟩
      funext k i
      rw [Waiting.clear_apply]
      split
      · rename_i h
        rw [h.1, waiting_of_none hl]
      · rfl
  | some entry =>
      obtain ⟨value, bitVec⟩ := entry
      have hlen : id < bitVec.length := lt_of_lt_of_le hid (hf _ _ _ hl)
      obtain ⟨toSend, map', hcheck⟩ : ∃ toSend map', map.checkForUpdate key id = .ok (toSend, map') :=
        ⟨_, _, checkForUpdate_cases hl hlen⟩
      obtain ⟨rfl, hkey⟩ := lookup_checkForUpdate hl hlen hcheck
      have hsend : (if bitVec[id] then value else []) = (map.waiting key id).getD [] := by
        rw [waiting_of_some hl, List.getElem?_eq_getElem hlen]
        by_cases hv : value = [] <;> cases hb : bitVec[id] <;> simp [hv]
      refine ⟨map', by rw [hcheck, hsend], ?_, ?_⟩
      · funext k i
        rw [Waiting.clear_apply]
        by_cases hk : k = key
        · subst hk
          -- the entry with its bit cleared, kept or erased
          have hbits : map'.waiting k i
              = if value ≠ [] ∧ (bitVec.set id false)[i]? = some true then some value else none := by
            by_cases hw : hammingWeight (bitVec.set id false) = 0
            · rw [if_pos hw] at hkey
              rw [waiting_of_none hkey, if_neg fun hc => hammingWeight_eq_zero.mp hw i hc.2]
            · rw [if_neg hw] at hkey
              exact waiting_of_some hkey i
          rw [hbits]
          by_cases hi : i = id
          · subst hi
            simp [hlen]
          · simp [hi, waiting_of_some hl, List.getElem?_set_ne (Ne.symm hi)]
        · rw [if_neg (show ¬ (k = key ∧ i = id) from fun hc => hk hc.1), waiting,
            lookup_checkForUpdate_of_ne hcheck hk, waiting]
      · intro k v bits hk
        by_cases hkk : k = key
        · subst hkk
          rw [hkey] at hk
          split at hk
          · cases hk
          · cases hk
            rw [List.length_set]
            exact hf _ _ _ hl
        · rw [lookup_checkForUpdate_of_ne hcheck hkk] at hk
          exact hf k v bits hk

/-- What `edit_bit_vector_size` leaves of the entry. -/
theorem lookup_editBitVectorSize (map : UpdateCache) (key : Str) (size : Nat) :
    (map.editBitVectorSize key size).lookup key = some (match map.lookup key with
      | some (value, bitVec) =>
          (value, bitVec.take size ++ List.replicate (size - bitVec.length) true)
      | none => ([], List.replicate size false)) := by
  unfold editBitVectorSize
  cases map.lookup key <;> simp

theorem lookup_editBitVectorSize_of_ne (map : UpdateCache) {key k : Str} (size : Nat)
    (hk : k ≠ key) : (map.editBitVectorSize key size).lookup k = map.lookup k := by
  unfold editBitVectorSize
  cases map.lookup key <;> simp [hk]

/-- A key that misses no replica is left alone. -/
theorem checkIfMissing_of_none {missing : UpdateCache} {key : Str} (h : missing.lookup key = none)
    (value : Str) (cache : UpdateCache) :
    checkIfMissing missing key value cache = .ok (missing, cache) := by
  simp [checkIfMissing, h]

theorem sampleAReplica_of_none {missing : UpdateCache} {key : Str}
    (h : missing.lookup key = none) (n : Nat) (real : Bool) (f : Int) (p : ℚ) :
    sampleAReplica missing key n real f p = randMod n := by
  simp [sampleAReplica, h]

theorem possible_sampleAReplica_of_none {missing : UpdateCache} {key : Str}
    (h : missing.lookup key = none) {n : Nat} {real : Bool} {f : Int} {p : ℚ} {id : Nat} :
    (sampleAReplica missing key n real f p).Possible (.ok id) ↔ id < n := by
  rw [sampleAReplica_of_none h]
  exact possible_randMod

theorem numLeadingZeros_le (bitVec : List Bool) : numLeadingZeros bitVec ≤ bitVec.length := by
  induction bitVec with
  | nil => exact Nat.le_refl 0
  | cons b bitVec ih =>
      cases b with
      | true => exact Nat.zero_le _
      | false => exact Nat.succ_le_succ ih

/-- The replicas an access of a key with missing replicas can go to: real ones
only to those before the first set bit. -/
theorem possible_sampleAReplica {missing : UpdateCache} {key value : Str} {bitVec : List Bool}
    (hl : missing.lookup key = some (value, bitVec)) {n : Nat} {real : Bool} {f : Int} {p : ℚ}
    {id : Nat} : (sampleAReplica missing key n real f p).Possible (.ok id) ↔
      numLeadingZeros bitVec ≤ n ∧ ∃ repExists,
        (prob (divide (numLeadingZeros bitVec * p - f) (n * p - f))).Possible repExists ∧
        if repExists || real then id < numLeadingZeros bitVec
        else numLeadingZeros bitVec ≤ id ∧ id < n := by
  simp only [sampleAReplica, hl]
  by_cases hn : n < numLeadingZeros bitVec
  · simp [hn]
  · have hle : numLeadingZeros bitVec ≤ n := not_lt.mp hn
    rw [if_neg hn, Sampler.possible_bind]
    simp only [hle, true_and]
    refine exists_congr fun repExists => and_congr_right fun _ => ?_
    by_cases hr : (repExists || real) = true
    · rw [if_pos hr, if_pos hr]
      exact possible_randMod
    · rw [if_neg hr, if_neg hr, Sampler.possible_map]
      constructor
      · rintro ⟨r, hr, he⟩
        cases r with
        | error e => cases he
        | ok i =>
            have hi := possible_randMod.mp hr
            have hid : numLeadingZeros bitVec + i = id := Except.ok.inj he
            omega
      · rintro ⟨hlo, hhi⟩
        refine ⟨.ok (id - numLeadingZeros bitVec), possible_randMod.mpr (by omega), ?_⟩
        show Except.ok (numLeadingZeros bitVec + (id - numLeadingZeros bitVec)) = _
        rw [Nat.add_sub_cancel' hlo]

/-- A real access can go to each of those before the first set bit. -/
theorem possible_sampleAReplica_real {missing : UpdateCache} {key value : Str} {bitVec : List Bool}
    (hl : missing.lookup key = some (value, bitVec)) {n : Nat} {f : Int} {p : ℚ} {id : Nat} :
    (sampleAReplica missing key n true f p).Possible (.ok id) ↔
      numLeadingZeros bitVec ≤ n ∧ id < numLeadingZeros bitVec := by
  rw [possible_sampleAReplica hl]
  simp only [Bool.or_true, if_true]
  constructor
  · intro h
    obtain ⟨hn, _, -, hid⟩ := h
    exact ⟨hn, hid⟩
  · intro h
    obtain ⟨repExists, hcoin⟩ := exists_possible_prob
      (divide (numLeadingZeros bitVec * p - f) (n * p - f))
    exact ⟨h.1, repExists, hcoin, h.2⟩

/-- An access never goes past the last replica. -/
theorem lt_of_possible_sampleAReplica {missing : UpdateCache} {key : Str} {n : Nat} {real : Bool}
    {f : Int} {p : ℚ} {id : Nat}
    (h : (sampleAReplica missing key n real f p).Possible (.ok id)) : id < n := by
  cases hl : missing.lookup key with
  | none => exact (possible_sampleAReplica_of_none hl).mp h
  | some entry =>
      obtain ⟨value, bitVec⟩ := entry
      obtain ⟨hle, repExists, -, hid⟩ := (possible_sampleAReplica hl).mp h
      split at hid <;> omega

/-- Every replica can be chosen, by a real access or by a fake one. -/
theorem exists_possible_sampleAReplica {missing : UpdateCache} {key : Str} {n : Nat} {f : Int}
    {p : ℚ} (hsize : ∀ value bitVec, missing.lookup key = some (value, bitVec) →
      bitVec.length = n ∧ (f : ℚ) ≤ p ∧ 0 < p) {id : Nat} (hid : id < n) :
    ∃ real, (sampleAReplica missing key n real f p).Possible (.ok id) := by
  cases hl : missing.lookup key with
  | none => exact ⟨true, (possible_sampleAReplica_of_none hl).mpr hid⟩
  | some entry =>
      obtain ⟨value, bitVec⟩ := entry
      obtain ⟨hlen, hf, hp⟩ := hsize value bitVec hl
      have hle : numLeadingZeros bitVec ≤ n := hlen ▸ numLeadingZeros_le bitVec
      by_cases hinit : id < numLeadingZeros bitVec
      · -- a real access, whatever the coin
        exact ⟨true, (possible_sampleAReplica_real hl).mpr ⟨hle, hinit⟩⟩
      · -- a fake one whose coin fails
        refine ⟨false, (possible_sampleAReplica hl).mpr ⟨hle, false, ?_, by
          simpa using ⟨not_lt.mp hinit, hid⟩⟩⟩
        have hlt : (numLeadingZeros bitVec : ℚ) < n := by
          exact_mod_cast (by omega : numLeadingZeros bitVec < n)
        have hone : (1 : ℚ) ≤ n := by exact_mod_cast (by omega : 1 ≤ n)
        apply possible_prob_false
        · have := mul_lt_mul_of_pos_right hlt hp
          linarith
        · have := mul_le_mul_of_nonneg_right hone hp.le
          linarith

/-- The cache the constructor builds has nothing waiting. -/
theorem lookup_ofPairs {pairs : List (Str × Nat)} {key value : Str} {bitVec : List Bool}
    (h : (ofPairs pairs).lookup key = some (value, bitVec)) :
    value = [] ∧ ∃ n, (key, n) ∈ pairs ∧ bitVec = List.replicate n false := by
  unfold ofPairs at h
  induction pairs using List.reverseRecOn with
  | nil => simp at h
  | append_singleton pairs p ih =>
      rw [List.foldl_append, List.foldl_cons, List.foldl_nil] at h
      by_cases hk : key = p.1
      · subst hk
        rw [Finmap.lookup_insert] at h
        cases h
        exact ⟨rfl, p.2, by simp, rfl⟩
      · rw [Finmap.lookup_insert_of_ne _ hk] at h
        obtain ⟨hv, n, hn, hb⟩ := ih h
        exact ⟨hv, n, by simp [hn], hb⟩

end UpdateCache

end Pancake
