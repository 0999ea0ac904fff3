import Pancake.Lib.Deliveries
import Pancake.Lib.Runs
import Pancake.UpdateCache

/-!
# Runs of the update cache

Writes, checks and edits of an update cache, in any order and over any keys.
What a check returns is what the history of these operations says that the
replica should be given, and the entry of a write goes with its last
delivery.
-/

namespace Pancake

open Deliveries

/-- A call of `populate_replica_updates`, `check_for_update` or
`edit_bit_vector_size`. -/
abbrev CacheOp := Deliveries.Op Str Str

namespace UpdateCache

/-- The call, with what it returns to send. -/
def call (map : UpdateCache) : CacheOp → Except Fault (Str × UpdateCache)
  | .populate key val numReplicas => .ok ([], map.populateReplicaUpdates key val numReplicas)
  | .check key replicaId => map.checkForUpdate key replicaId
  | .edit key size => .ok ([], map.editBitVectorSize key size)

/-- The arguments the proxy calls with: values are not empty, and no call
names a replica past the entry's bits or takes bits away. -/
def Accepts (map : UpdateCache) : CacheOp → Prop
  | .populate _ val numReplicas => val ≠ [] ∧ 1 ≤ numReplicas
  | .check key replicaId => ∀ entry ∈ map.lookup key, replicaId < entry.2.length
  | .edit key size => ∀ entry ∈ map.lookup key, entry.2.length ≤ size

instance (map : UpdateCache) : DecidablePred map.Accepts
  | .populate _ val numReplicas => inferInstanceAs (Decidable (val ≠ [] ∧ 1 ≤ numReplicas))
  | .check key replicaId =>
      inferInstanceAs (Decidable (∀ entry ∈ map.lookup key, replicaId < entry.2.length))
  | .edit key size =>
      inferInstanceAs (Decidable (∀ entry ∈ map.lookup key, entry.2.length ≤ size))

/-- An accepted call that returns. -/
structure Takes (map : UpdateCache) (op : CacheOp) (map' : UpdateCache) : Prop where
  accepted : map.Accepts op
  returns : ∃ toSend, map.call op = .ok (toSend, map')

/-! ## What an entry says about the history -/

/-- The entry of a key, against the key's history: a populated value is the
latest write and its set bits are the unchecked replicas, of which there are
some; without one every replica has been checked. -/
inductive EntryTracks (key : Str) (history : List CacheOp) : Option (Str × List Bool) → Prop
  | populated {value : Str} {bitVec : List Bool} (hvalue : value ≠ [])
      (hlatest : latest key history = some value)
      (hreplicas : replicas key history = bitVec.length)
      (hunchecked : ∀ i, i ∈ unchecked key history ↔ bitVec[i]? = some true)
      (hsome : unchecked key history ≠ []) : EntryTracks key history (some (value, bitVec))
  | blank {bitVec : List Bool} (hnone : unchecked key history = []) :
      EntryTracks key history (some ([], bitVec))
  | absent (hnone : unchecked key history = []) : EntryTracks key history none

/-- The invariant of the cache. -/
def Tracks (map : UpdateCache) (history : List CacheOp) : Prop :=
  ∀ key, EntryTracks key history (map.lookup key)

theorem Tracks.start (pairs : List (Str × Nat)) : Tracks (ofPairs pairs) [] := by
  intro key
  cases hl : (ofPairs pairs).lookup key with
  | none => exact .absent rfl
  | some entry =>
      obtain ⟨value, bitVec⟩ := entry
      obtain ⟨rfl, -⟩ := lookup_ofPairs hl
      exact .blank rfl

section Step

variable {map map' : UpdateCache} {history : List CacheOp} {key : Str}

/-- A call leaves the entries of other keys. -/
theorem lookup_of_call {op : CacheOp} {toSend : Str} (h : map.call op = .ok (toSend, map'))
    (hk : op.key ≠ key) : map'.lookup key = map.lookup key := by
  cases op with
  | populate k val n =>
      cases h
      exact Finmap.lookup_insert_of_ne _ (Ne.symm hk)
  | edit k size =>
      cases h
      exact lookup_editBitVectorSize_of_ne map size (Ne.symm hk)
  | check k i => exact lookup_checkForUpdate_of_ne h (Ne.symm hk)

theorem EntryTracks.other {op : CacheOp} {entry : Option (Str × List Bool)}
    (h : EntryTracks key history entry) (hk : op.key ≠ key) :
    EntryTracks key (op :: history) entry := by
  cases h with
  | populated hvalue hlatest hreplicas hunchecked hsome =>
      refine .populated hvalue ?_ ?_ ?_ ?_
      · rw [latest_cons_of_ne hk, hlatest]
      · rw [replicas_cons_of_ne hk, hreplicas]
      · rw [unchecked_cons_of_ne hk]
        exact hunchecked
      · rwa [unchecked_cons_of_ne hk]
  | blank hnone => exact .blank (by rwa [unchecked_cons_of_ne hk])
  | absent hnone => exact .absent (by rwa [unchecked_cons_of_ne hk])

/-- A write starts over: every replica is unchecked. -/
theorem EntryTracks.populate {val : Str} {n : Nat} (hval : val ≠ []) (hn : 1 ≤ n) :
    EntryTracks key (.populate key val n :: history) (some (val, List.replicate n true)) := by
  apply EntryTracks.populated hval
  · exact if_pos rfl
  · rw [replicas, if_pos rfl, List.length_replicate]
  · intro i
    rw [unchecked, if_pos rfl, List.mem_range, List.getElem?_replicate]
    simp
  · rw [unchecked, if_pos rfl]
    intro hc
    have := congrArg List.length hc
    rw [List.length_range, List.length_nil] at this
    omega

/-- More bits: the new replicas wait too, if any replica does. -/
theorem EntryTracks.edit {size : Nat} (h : EntryTracks key history (map.lookup key))
    (hsize : ∀ entry ∈ map.lookup key, entry.2.length ≤ size) :
    EntryTracks key (.edit key size :: history) ((map.editBitVectorSize key size).lookup key) := by
  rw [lookup_editBitVectorSize]
  have hstill : unchecked key history = [] → unchecked key (.edit key size :: history) = [] := by
    intro hnone
    rw [unchecked, if_neg fun hc => hc.2 hnone, hnone]
  generalize map.lookup key = entry at h hsize
  cases h with
  | absent hnone => exact .blank (hstill hnone)
  | blank hnone => exact .blank (hstill hnone)
  | @populated value bitVec hvalue hlatest hreplicas hunchecked hsome =>
      have hle : bitVec.length ≤ size := hsize _ rfl
      have hnow : unchecked key (.edit key size :: history) = unchecked key history ++
          List.range' bitVec.length (size - bitVec.length) := by
        rw [unchecked, if_pos ⟨rfl, hsome⟩, hreplicas]
      refine .populated hvalue hlatest ?_ ?_ ?_
      · rw [replicas, if_pos rfl, List.take_of_length_le hle, List.length_append,
          List.length_replicate]
        omega
      · intro i
        rw [hnow, List.mem_append, hunchecked, List.mem_range'_1, List.take_of_length_le hle]
        by_cases hi : i < bitVec.length
        · rw [List.getElem?_append_left hi]
          constructor
          · intro hc
            rcases hc with hc | hc
            · exact hc
            · omega
          · exact .inl
        · rw [List.getElem?_append_right (by omega), List.getElem?_eq_none (by omega),
            List.getElem?_replicate]
          simp
          omega
      · rw [hnow]
        intro hc
        exact hsome (List.append_eq_nil_iff.mp hc).1

/-- The bits set after a check are those of the replicas still unchecked. -/
theorem unchecked_check {bitVec : List Bool}
    (hunchecked : ∀ i, i ∈ unchecked key history ↔ bitVec[i]? = some true) (id i : Nat) :
    i ∈ unchecked key (.check key id :: history) ↔ (bitVec.set id false)[i]? = some true := by
  rw [unchecked, if_pos rfl, List.mem_filter, hunchecked, List.getElem?_set]
  by_cases hi : i = id
  · rw [hi]
    by_cases hlt : id < bitVec.length <;> simp [hlt]
  · simp [hi, Ne.symm hi]

/-- No bit is set exactly when no replica is unchecked. -/
theorem hammingWeight_eq_zero_iff {bitVec : List Bool}
    (hunchecked : ∀ i, i ∈ unchecked key history ↔ bitVec[i]? = some true) :
    hammingWeight bitVec = 0 ↔ unchecked key history = [] := by
  rw [hammingWeight_eq_zero, List.eq_nil_iff_forall_not_mem]
  simp only [hunchecked, ne_eq]

/-- A check that removes the last outstanding replica removes the entry. -/
theorem EntryTracks.check {id : Nat} {toSend : Str}
    (h : EntryTracks key history (map.lookup key))
    (hid : ∀ entry ∈ map.lookup key, id < entry.2.length)
    (hcheck : map.checkForUpdate key id = .ok (toSend, map')) :
    EntryTracks key (.check key id :: history) (map'.lookup key) := by
  have hstill : unchecked key history = [] → unchecked key (.check key id :: history) = [] := by
    intro hnone
    rw [unchecked, if_pos rfl, hnone, List.filter_nil]
  generalize he : map.lookup key = entry at h
  cases h with
  | absent hnone =>
      rw [checkForUpdate, he] at hcheck
      cases hcheck
      rw [he]
      exact .absent (hstill hnone)
  | blank hnone =>
      rw [(lookup_checkForUpdate he (hid _ he) hcheck).2]
      split
      · exact .absent (hstill hnone)
      · exact .blank (hstill hnone)
  | populated hvalue hlatest hreplicas hunchecked hsome =>
      rw [(lookup_checkForUpdate he (hid _ he) hcheck).2]
      have hset := unchecked_check hunchecked id
      have hzero := hammingWeight_eq_zero_iff hset
      split
      · rename_i hw
        exact .absent (hzero.mp hw)
      · rename_i hw
        refine .populated hvalue hlatest ?_ hset fun hc => hw (hzero.mpr hc)
        rw [List.length_set]
        exact hreplicas

/-- **Every call** keeps the cache in step with the history. -/
theorem Tracks.step {op : CacheOp} (h : Tracks map history) (hs : Takes map op map') :
    Tracks map' (op :: history) := by
  obtain ⟨haccepted, toSend, hcall⟩ := hs
  intro key
  by_cases hk : op.key = key
  · cases op with
    | populate k val n =>
        obtain rfl : k = key := hk
        cases hcall
        rw [populateReplicaUpdates, Finmap.lookup_insert]
        exact .populate haccepted.1 haccepted.2
    | check k id =>
        obtain rfl : k = key := hk
        exact (h k).check haccepted hcall
    | edit k size =>
        obtain rfl : k = key := hk
        cases hcall
        exact (h k).edit haccepted
  · rw [lookup_of_call hcall hk]
    exact (h key).other hk

end Step

theorem Tracks.run {pairs : List (Str × Nat)} {ops : List CacheOp} {map : UpdateCache}
    (h : Run Takes (ofPairs pairs) ops map) : Tracks map ops.reverse := by
  apply h.invariant (I := fun ops map => Tracks map ops.reverse)
  · exact Tracks.start pairs
  · intro ops map op map' _ hi hs
    rw [List.reverse_append]
    exact hi.step hs

/-! ## What a check returns -/

section Check

variable {map : UpdateCache} {history : List CacheOp} {key : Str}

/-- A value is held exactly while some replica has not been checked. -/
theorem EntryTracks.held (h : EntryTracks key history (map.lookup key)) :
    (∃ value bitVec, map.lookup key = some (value, bitVec) ∧ value ≠ []) ↔
      unchecked key history ≠ [] := by
  generalize map.lookup key = entry at h
  cases h with
  | absent hnone => simp [hnone]
  | blank hnone => simp [hnone]
  | populated hvalue _ _ _ hsome => simp [hvalue, hsome]

/-- **One check**: it returns, with what the history says, and the entry of a
value goes with the last unchecked replica. -/
theorem EntryTracks.delivers (h : EntryTracks key history (map.lookup key)) {id : Nat}
    (hid : map.Accepts (.check key id)) :
    ∃ toSend map', map.checkForUpdate key id = .ok (toSend, map') ∧
      toSend = (delivery key id history).getD [] ∧
      (∀ value bitVec, map.lookup key = some (value, bitVec) → value ≠ [] →
        (map'.lookup key = none ↔ ∀ i, i ∈ unchecked key history ↔ i = id)) := by
  have hnothing : unchecked key history = [] → delivery key id history = none := by
    intro hnone
    rw [delivery, hnone, if_neg List.not_mem_nil]
  generalize he : map.lookup key = entry at h
  cases h with
  | absent hnone =>
      refine ⟨[], map, ?_, ?_, ?_⟩
      · rw [checkForUpdate, he]
      · rw [hnothing hnone, Option.getD_none]
      · intro value bitVec hl
        cases hl
  | @blank bitVec hnone =>
      have hlt : id < bitVec.length := hid _ he
      refine ⟨_, _, checkForUpdate_cases he hlt, ?_, ?_⟩
      · rw [hnothing hnone, ite_self, Option.getD_none]
      · intro value bitVec hl hvalue
        cases hl
        exact absurd rfl hvalue
  | @populated value bitVec hvalue hlatest hreplicas hunchecked hsome =>
      have hlt : id < bitVec.length := hid _ he
      refine ⟨_, _, checkForUpdate_cases he hlt, ?_, ?_⟩
      · have hbit : id ∈ unchecked key history ↔ bitVec[id] = true := by
          rw [hunchecked, List.getElem?_eq_getElem hlt, Option.some_inj]
        by_cases hb : bitVec[id] = true
        · rw [if_pos hb, delivery, if_pos (hbit.mpr hb), hlatest, Option.getD_some]
        · rw [if_neg hb, delivery, if_neg fun hc => hb (hbit.mp hc), Option.getD_none]
      · intro value' bitVec' _ _
        rw [(lookup_checkForUpdate he hlt (checkForUpdate_cases he hlt)).2]
        have hzero := hammingWeight_eq_zero_iff (unchecked_check hunchecked id)
        rw [unchecked, if_pos rfl, List.filter_eq_nil_iff] at hzero
        simp only [ite_eq_left_iff, reduceCtorEq, imp_false, not_not, hzero, ne_eq,
          decide_not, Bool.not_eq_true', decide_eq_false_iff_not]
        constructor
        · intro hall i
          refine ⟨hall i, ?_⟩
          rintro rfl
          obtain ⟨j, hj⟩ := List.exists_mem_of_ne_nil _ hsome
          rwa [← hall j hj]
        · intro hall i hi
          exact (hall i).mp hi

end Check

/-- **Each write is delivered to each replica once.** After any accepted
calls, over any keys, a check returns the latest write of its key if the
replica has not been checked since, and nothing otherwise. An entry holds a
value exactly while some replica is unchecked, and goes with the check of the
last one. No other key's calls, nor the initial pairs, play a part. -/
theorem checkForUpdate_delivers {pairs : List (Str × Nat)} {ops : List CacheOp} {map : UpdateCache}
    (hrun : Run Takes (ofPairs pairs) ops map) {key : Str} {id : Nat}
    (hid : map.Accepts (.check key id)) :
    ∃ toSend map', map.checkForUpdate key id = .ok (toSend, map') ∧
      toSend = (delivery key id ops.reverse).getD [] ∧
      ((∃ value bitVec, map.lookup key = some (value, bitVec) ∧ value ≠ []) ↔
        unchecked key ops.reverse ≠ []) ∧
      (∀ value bitVec, map.lookup key = some (value, bitVec) → value ≠ [] →
        (map'.lookup key = none ↔ ∀ i, i ∈ unchecked key ops.reverse ↔ i = id)) ∧
      ∀ {pairs₂ ops₂ map₂}, Run Takes (ofPairs pairs₂) ops₂ map₂ →
        onKey key ops₂ = onKey key ops → map₂.Accepts (.check key id) →
        ∃ map₂', map₂.checkForUpdate key id = .ok (toSend, map₂') := by
  have htracks := Tracks.run hrun key
  obtain ⟨toSend, map', hcheck, hsend, hremoved⟩ := htracks.delivers hid
  refine ⟨toSend, map', hcheck, hsend, htracks.held, hremoved, ?_⟩
  intro pairs₂ ops₂ map₂ hrun₂ hsame hid₂
  obtain ⟨toSend₂, map₂', hcheck₂, hsend₂, -⟩ := (Tracks.run hrun₂ key).delivers hid₂
  have hhistory : onKey key ops₂.reverse = onKey key ops.reverse := by
    rw [onKey, List.filter_reverse, ← onKey, hsame, onKey, ← List.filter_reverse, ← onKey]
  rw [delivery_eq_of_onKey hhistory, ← hsend] at hsend₂
  exact ⟨map₂', hsend₂ ▸ hcheck₂⟩

/-- A write to two replicas, of which one is checked; then a third replica,
which the write still has to reach. -/
theorem checkForUpdate_delivers_grown :
    ∃ map map', Run Takes (ofPairs [(['k'], 2)])
        [.populate ['k'] ['v'] 2, .check ['k'] 0, .edit ['k'] 3] map ∧
      map.checkForUpdate ['k'] 2 = .ok (['v'], map') ∧ map'.lookup ['k'] ≠ none := by
  obtain ⟨r, hrun, hpopulate, hcheck, hedit, hid, hvalue⟩ :
      ∃ r, (do let r₁ ← (ofPairs [(['k'], 2)]).call (.populate ['k'] ['v'] 2)
               let r₂ ← r₁.2.call (.check ['k'] 0)
               let r₃ ← r₂.2.call (.edit ['k'] 3)
               Except.ok (r₁.2, r₂.2, r₃.2)) = .ok r ∧
        (ofPairs [(['k'], 2)]).Accepts (.populate ['k'] ['v'] 2) ∧
        r.1.Accepts (.check ['k'] 0) ∧ r.2.1.Accepts (.edit ['k'] 3) ∧
        r.2.2.Accepts (.check ['k'] 2) ∧
        r.2.2.lookup ['k'] = some (['v'], [false, true, true]) :=
    exists_ok_of_decide (by decide +kernel)
  simp only [bind_eq_ok] at hrun
  obtain ⟨⟨_, map₁⟩, h₁, ⟨_, map₂⟩, h₂, ⟨_, map₃⟩, h₃, hr⟩ := hrun
  cases hr
  have hruns : Run Takes (ofPairs [(['k'], 2)])
      [.populate ['k'] ['v'] 2, .check ['k'] 0, .edit ['k'] 3] map₃ :=
    ((Run.single ⟨hpopulate, _, h₁⟩).snoc ⟨hcheck, _, h₂⟩).snoc ⟨hedit, _, h₃⟩
  obtain ⟨toSend, map', hreturns, hsend, -, hremoved, -⟩ := checkForUpdate_delivers hruns hid
  have hdelivery : delivery ['k'] 2 ([.populate ['k'] ['v'] 2, .check ['k'] 0,
      .edit ['k'] 3] : List CacheOp).reverse = some ['v'] := by decide
  rw [hdelivery, Option.getD_some] at hsend
  subst hsend
  refine ⟨map₃, map', hruns, hreturns, ?_⟩
  rw [Ne, hremoved _ _ hvalue (by decide)]
  intro hall
  exact absurd ((hall 1).mp (by decide)) (by decide)

end UpdateCache

end Pancake
