import Pancake.Redistribution

/-!
# Newly created replicas

`prepare_for_swapping` enters the replicas a key gains in
`missing_new_replicas_`, where a set bit should mean *missing*. A key that
has no entry yet gets one whose bits are all clear: none of its replicas
counts as missing, so they are read before anything is written to them, and
`check_if_missing` passes nothing on.
-/

namespace Pancake

namespace UpdateCache

/-- The replica has an update pending. -/
def PendingAt (map : UpdateCache) (key : Str) (i : Nat) : Prop :=
  ∃ entry ∈ map.lookup key, entry.2[i]? = some true

/-- The value that some replica of the key still has to get. -/
def undelivered (map : UpdateCache) (key : Str) : Option Str :=
  (map.lookup key).bind fun entry => if true ∈ entry.2 then some entry.1 else none

/-- Real accesses keep to the `rOld` replicas that are not new. -/
def Confined (missing : UpdateCache) (key : Str) (rNew rOld : Nat) (frequency : Int) (pMax : ℚ) :
    Prop :=
  ∀ id, (missing.sampleAReplica key rNew true frequency pMax).Possible (.ok id) → id < rOld

/-- The first access to the key makes its new replicas pending, with the
update that waits for the others, or else with the value it is given. -/
def Fills (missing : UpdateCache) (key : Str) (rNew rOld : Nat) : Prop :=
  ∀ value cache, (∀ entry ∈ cache.lookup key, entry.2.length = rNew) →
    ∃ missing' cache', missing.checkIfMissing key value cache = .ok (missing', cache') ∧
      (∀ i, rOld ≤ i → i < rNew → cache'.PendingAt key i) ∧
      (∀ i < rOld, cache'.PendingAt key i ↔ cache.PendingAt key i) ∧
      (∃ bitVec, cache'.lookup key = some ((cache.undelivered key).getD value, bitVec)) ∧
      missing'.lookup key = none

theorem numLeadingZeros_replicate (n : Nat) : numLeadingZeros (List.replicate n false) = n := by
  induction n with
  | zero => rfl
  | succ n ih =>
      rw [List.replicate_succ, numLeadingZeros, ih]

section Clear

variable {missing : UpdateCache} {key : Str} {rNew rOld : Nat}

/-- With no entry, or one whose bits are clear, a real access goes to any
replica. -/
theorem possible_of_clear (h : ∀ entry ∈ missing.lookup key, entry.2 = List.replicate rNew false)
    {id : Nat} (hid : id < rNew) (frequency : Int) (pMax : ℚ) :
    (missing.sampleAReplica key rNew true frequency pMax).Possible (.ok id) := by
  cases hl : missing.lookup key with
  | none => exact (possible_sampleAReplica_of_none hl).mpr hid
  | some entry =>
      obtain ⟨value, bitVec⟩ := entry
      obtain rfl : bitVec = List.replicate rNew false := h _ hl
      rw [possible_sampleAReplica_real hl, numLeadingZeros_replicate]
      exact ⟨le_rfl, hid⟩

/-- And nothing becomes pending for a key that has nothing pending. -/
theorem not_pendingAt_of_clear
    (h : ∀ entry ∈ missing.lookup key, entry.2 = List.replicate rNew false) {value : Str}
    {missing' cache' : UpdateCache}
    (hcheck : missing.checkIfMissing key value ∅ = .ok (missing', cache')) (i : Nat) :
    ¬ cache'.PendingAt key i := by
  intro hp
  obtain ⟨entry, hentry, hbit⟩ := hp
  cases hl : missing.lookup key with
  | none =>
      rw [checkIfMissing_of_none hl] at hcheck
      cases hcheck
      cases hentry
  | some e =>
      obtain ⟨w, bitVec⟩ := e
      obtain rfl : bitVec = List.replicate rNew false := h _ hl
      have hempty : (∅ : UpdateCache).lookup key = none := Finmap.lookup_empty key
      simp only [checkIfMissing, hl, mirrorUpdateCache, hempty, ok_bind] at hcheck
      cases hcheck
      rw [Finmap.lookup_insert, Option.mem_some_iff] at hentry
      rw [← hentry, List.getElem?_replicate] at hbit
      simp at hbit

end Clear

end UpdateCache

namespace Proxy

open UpdateCache

/-- The entry `prepare_for_swapping` makes for a key that has none; the dummy
key gets no entry at all. -/
theorem lookup_prepareForSwapping {s s' : Swapping} {key : Str} {rNew rOld : Nat}
    (hlt : rOld < rNew) (hnone : s.proxy.missingNewReplicas.lookup key = none)
    (h : prepareForSwapping s key rNew rOld = .ok s') :
    ∀ entry ∈ s'.proxy.missingNewReplicas.lookup key, entry = ([], List.replicate rNew false) := by
  intro entry hentry
  rw [prepareForSwapping_missing h] at hentry
  by_cases hkey : key = s.proxy.dummyKey
  · rw [if_neg fun hc => hc.2 hkey, hnone] at hentry
    cases hentry
  · rw [if_pos ⟨hlt, hkey⟩, lookup_editBitVectorSize, hnone, Option.mem_some_iff] at hentry
    exact hentry.symm

/-- **New replicas are never tracked**: whatever the key and the numbers, after
`prepare_for_swapping` a real access can go to a new replica, and the first
access leaves new replicas that nothing is pending for. -/
theorem newReplicas_untracked (s : Swapping) {key : Str} {rNew rOld : Nat} (hlt : rOld < rNew)
    (hnone : s.proxy.missingNewReplicas.lookup key = none) (frequency : Int) (pMax : ℚ) :
    ∃ s', prepareForSwapping s key rNew rOld = .ok s' ∧
      ¬ s'.proxy.missingNewReplicas.Confined key rNew rOld frequency pMax ∧
      ¬ s'.proxy.missingNewReplicas.Fills key rNew rOld := by
  obtain ⟨s', hprep⟩ : ∃ s', prepareForSwapping s key rNew rOld = .ok s' := ⟨_, if_pos hlt⟩
  have hclear : ∀ entry ∈ s'.proxy.missingNewReplicas.lookup key,
      entry.2 = List.replicate rNew false := by
    intro entry hentry
    rw [lookup_prepareForSwapping hlt hnone hprep entry hentry]
  refine ⟨s', hprep, ?_, ?_⟩
  · intro hconfined
    have hid := hconfined rOld (possible_of_clear hclear hlt frequency pMax)
    omega
  · intro hfills
    obtain ⟨missing', cache', hcheck, hnew, -⟩ := hfills [] ∅ (by simp)
    exact not_pendingAt_of_clear hclear hcheck rOld (hnew rOld le_rfl hlt)

/-- The first letter, from one replica to two. -/
theorem newReplicas_untracked_letters :
    ∃ st s', blank.init evenLetters (1 / 25) (1 / 2) firstStrings = .ok st ∧
      prepareForSwapping { proxy := st } ['A'] 2 1 = .ok s' ∧
      ¬ s'.proxy.missingNewReplicas.Confined ['A'] 2 1 0 (1 / 25) ∧
      ¬ s'.proxy.missingNewReplicas.Fills ['A'] 2 1 := by
  obtain ⟨st, hinit, hnone⟩ := exists_ok_of_decide
    (x := blank.init evenLetters (1 / 25) (1 / 2) firstStrings)
    (P := fun st => st.missingNewReplicas.lookup ['A'] = none) (by decide +kernel)
  obtain ⟨s', hprep, hnot⟩ := newReplicas_untracked { proxy := st } (by norm_num : 1 < 2) hnone 0
    (1 / 25)
  exact ⟨st, s', hinit, hprep, hnot⟩

/-- **The failing call**: after the change that lets the first letter grow to
two replicas, a get may go to the new one, and the first access, of the value
`a`, makes no replica pending. -/
theorem new_replica_read :
    ∃ st s', blank.init evenLetters (1 / 25) (1 / 2) firstStrings = .ok st ∧
      st.replicas ['A'] = 1 ∧ st.missingNewReplicas.lookup ['A'] = none ∧
      prepareForSwapping { proxy := st } ['A'] 2 1 = .ok s' ∧
      (s'.proxy.missingNewReplicas.sampleAReplica ['A'] 2 true 0 (1 / 25)).Possible (.ok 1) ∧
      (∃ missing' cache', s'.proxy.missingNewReplicas.checkIfMissing ['A'] ['a'] ∅
        = .ok (missing', cache') ∧ cache'.lookup ['A'] = some (['a'], [false, false])) ∧
      ¬ (s'.proxy.missingNewReplicas.Confined ['A'] 2 1 0 (1 / 25) ∧
        s'.proxy.missingNewReplicas.Fills ['A'] 2 1) := by
  obtain ⟨r, hrun, hcount, hnone, hl, hcache⟩ :
      ∃ r, (do let st ← blank.init evenLetters (1 / 25) (1 / 2) firstStrings
               let s' ← prepareForSwapping { proxy := st } ['A'] 2 1
               let filled ← s'.proxy.missingNewReplicas.checkIfMissing ['A'] ['a'] ∅
               Except.ok (st, s'.proxy, filled)) = .ok r ∧
        r.1.replicas ['A'] = 1 ∧ r.1.missingNewReplicas.lookup ['A'] = none ∧
        r.2.1.missingNewReplicas.lookup ['A'] = some ([], [false, false]) ∧
        r.2.2.2.lookup ['A'] = some (['a'], [false, false]) :=
    exists_ok_of_decide (by decide +kernel)
  simp only [bind_eq_ok] at hrun
  obtain ⟨st, hinit, s', hprep, ⟨missing', cache'⟩, hcheck, hr⟩ := hrun
  cases hr
  have hpossible : (s'.proxy.missingNewReplicas.sampleAReplica ['A'] 2 true 0 (1 / 25)).Possible
      (.ok 1) := possible_of_clear (by
    intro entry hentry
    rw [hl, Option.mem_some_iff] at hentry
    rw [← hentry]
    rfl) (by norm_num) 0 (1 / 25)
  refine ⟨st, s', hinit, hcount, hnone, hprep, hpossible, ⟨missing', cache', hcheck, hcache⟩, ?_⟩
  intro h
  have hid := h.1 1 hpossible
  omega

end Proxy

end Pancake
