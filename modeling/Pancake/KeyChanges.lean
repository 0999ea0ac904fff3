import Pancake.ReplicaPresence
import Pancake.SwapPlan

/-!
# Distributions over other keys

`update_distribution` takes a key it has not seen before as one without
replicas, so that a new distribution may bring new keys. The keys it drops,
however, it never looks at: their replicas stay named, and nothing is
released for the replicas that the new keys need.
-/

namespace Pancake

namespace Proxy

/-- Labelled bijectively, with the counts of the keys and of no others. -/
structure ConsistentOn (st : Proxy) (keys : List Str) : Prop where
  bijective : st.Bijective keys
  positive : ∀ key ∈ keys, 0 < st.replicas key
  known : ∀ key, 0 < st.replicas key → key ∈ keys ++ [st.dummyKey]

/-- The change completes: as many labels are released as needed, every key has
its number of labels, and every label there was belongs to a live replica. -/
structure Relabels (st : Proxy) (newKeys : List Str) (d : Distribution) (st' : Proxy) : Prop where
  returns : st.updateDistribution d = .ok st'
  balanced : ∃ s, st.planSwaps d = .ok s ∧ s.unassignedLabels.length = s.needsLabels.length
  counts : ∀ item ∈ d.pairs, st'.replicas item.1 = replicaCount st.alpha item.2
  labelled : ∀ key ∈ newKeys, ∀ i < st'.replicas key, replicaName key i ∈ st'.replicaToLabel
  distinct : ∀ key ∈ newKeys, ∀ i < st'.replicas key, ∀ j < st'.replicas key,
    st'.labelOf key i = st'.labelOf key j → i = j
  reused : ∀ name l, st.replicaToLabel.lookup name = some l →
    ∃ r ∈ st'.liveReplicas newKeys, st'.replicaToLabel.lookup (replicaName r.1 r.2) = some l

section Change

variable {st : Proxy} {keys newKeys : List Str} {d : Distribution}

/-- Nothing released and nothing needed: every key is an old one and keeps its
count. -/
theorem ConsistentOn.kept_of_nil (h : st.ConsistentOn keys) (hdummy : st.dummyKey ∉ newKeys)
    (hd : DistributionOver newKeys d)
    (hpos : ∀ item ∈ d.pairs, 0 < replicaCount st.alpha item.2)
    (hreleased : st.released d = []) (hneeded : st.needed d = []) :
    (∀ item ∈ d.pairs, replicaCount st.alpha item.2 = st.replicas item.1) ∧
      ∀ key ∈ newKeys, key ∈ keys := by
  rw [released, List.append_eq_nil_iff, releasedBy, List.flatMap_eq_nil_iff] at hreleased
  rw [needed_eq, List.append_eq_nil_iff, List.flatMap_eq_nil_iff] at hneeded
  have hcounts : ∀ item ∈ d.pairs, replicaCount st.alpha item.2 = st.replicas item.1 := by
    intro item hitem
    have hdown := congrArg List.length (hreleased.1 item hitem)
    have hup := congrArg List.length (hneeded.1 item hitem)
    rw [length_namesBetween, List.length_nil] at hdown
    rw [length_replicasBetween, List.length_nil] at hup
    omega
  refine ⟨hcounts, ?_⟩
  intro key hkey
  obtain ⟨item, hitem, rfl⟩ := hd.exists_item hkey
  have hcount := hpos item hitem
  rw [hcounts item hitem] at hcount
  rcases List.mem_append.mp (h.known item.1 hcount) with hold | hold
  · exact hold
  · rw [List.mem_singleton] at hold
    exact absurd (hold ▸ hkey) hdummy

/-- A change that relabels as it should releases nothing and needs nothing. -/
theorem ConsistentOn.kept_of_relabels (h : st.ConsistentOn keys)
    (halpha : st.alpha = 1 / newKeys.length) (hnew : newKeys.Nodup)
    (hdummy : st.dummyKey ∉ newKeys) (hd : DistributionOver newKeys d) {st' : Proxy}
    (hr : st.Relabels newKeys d st') : (∀ key ∈ newKeys, key ∈ keys) ∧ st.MovesNothing d := by
  have hpairs := hd.pairs_nodup hnew
  have hu := updateDistribution_spec hpairs hr.returns
  have hreleased : st.released d = [] := by
    apply released_nil h.bijective hu
    intro x l hx
    obtain ⟨r, -, hl⟩ := hr.reused x l hx
    exact ⟨_, hl⟩
  have hneeded : st.needed d = [] := by
    obtain ⟨s, hs, hbalanced⟩ := hr.balanced
    have hp := planSwaps_spec hpairs hs
    rw [hp.length_unassignedLabels, hp.needsLabels_eq, hreleased] at hbalanced
    exact List.length_eq_zero_iff.mp hbalanced.symm
  have hpos : ∀ item ∈ d.pairs, 0 < replicaCount st.alpha item.2 := fun item hitem =>
    (hd.callerArguments hnew halpha).one_le_replicaCount (List.of_mem_zip hitem).2
  obtain ⟨hcounts, hold⟩ := h.kept_of_nil hdummy hd hpos hreleased hneeded
  exact ⟨hold, (hu.movesNothing hcounts).1⟩

/-- A change over the same keys that moves nothing relabels as it should. -/
theorem ConsistentOn.relabels (h : st.ConsistentOn keys) (hnd : keys.Nodup)
    (halpha : st.alpha = 1 / keys.length) (hdummy : st.dummyKey ∉ keys)
    (hd : DistributionOver keys d) (hmoves : st.MovesNothing d) (hperm : newKeys.Perm keys) :
    ∃ st', st.Relabels newKeys d st' := by
  obtain ⟨st', hst', hlabels, hcounts, hdummies, -, hkept⟩ :=
    hmoves.updateDistribution h.bijective.total hnd halpha hd
  obtain ⟨s, hs⟩ := h.bijective.exactlyNamed.planSwaps hnd hdummy hd halpha
  have hdummy' : st'.dummyKey ∉ newKeys := by
    rw [hkept.dummyKey, hperm.mem_iff]
    exact hdummy
  -- the live replicas are the same before and after
  have hlive : ∀ r, r ∈ st'.liveReplicas newKeys ↔ r ∈ st.liveReplicas keys := by
    intro r
    rw [mem_liveReplicas hdummy, mem_liveReplicas hdummy', hkept.dummyKey,
      List.mem_append, List.mem_append, hperm.mem_iff, liveCount, liveCount, hkept.dummyKey,
      hdummies, hcounts]
  have hnamed : ∀ key ∈ newKeys, ∀ i < st'.replicas key,
      replicaName key i ∈ st.replicaToLabel := by
    intro key hkey i hi
    have hne : key ≠ st'.dummyKey := fun hc => hdummy' (hc ▸ hkey)
    refine h.bijective.exactlyNamed.mem.mpr ⟨(key, i), (hlive _).mp ?_, rfl⟩
    apply (mem_liveReplicas hdummy').mpr
    refine ⟨List.mem_append_left _ hkey, ?_⟩
    rw [liveCount, if_neg hne]
    exact hi
  refine ⟨st', hst', ⟨s, hs, ?_⟩, ?_, ?_, ?_, ?_⟩
  · have hp := planSwaps_spec (hd.pairs_nodup hnd) hs
    rw [hp.length_unassignedLabels, hp.needsLabels_eq]
    exact (length_needed h.bijective.total hd (hd.sum_replicaCount hnd halpha)).symm
  · intro item hitem
    rw [hcounts, hmoves.counts item hitem]
  · intro key hkey i hi
    rw [hlabels]
    exact hnamed key hkey i hi
  · intro key hkey i hi j hj heq
    obtain ⟨l, hl⟩ := Finmap.mem_iff.mp (hnamed key hkey i hi)
    obtain ⟨m, hm⟩ := Finmap.mem_iff.mp (hnamed key hkey j hj)
    simp only [labelOf, UnorderedMap.at_, hlabels, hl, hm, Option.getD_some, toString_inj] at heq
    subst heq
    exact replicaName_inj_right.mp (h.bijective.lookup_inj hl hm)
  · intro name l hname
    obtain ⟨r, hr, rfl⟩ := h.bijective.exactlyNamed.mem.mp (Finmap.mem_iff.mpr ⟨l, hname⟩)
    refine ⟨r, (hlive r).mpr hr, ?_⟩
    rw [hlabels]
    exact hname

/-- **New keys are never accommodated**: a change over as many keys relabels
as it should exactly when they are the old keys and none of them moves. -/
theorem relabels_iff (h : st.ConsistentOn keys) (hnd : keys.Nodup)
    (halpha : st.alpha = 1 / keys.length) (hnew : newKeys.Nodup)
    (hlen : newKeys.length = keys.length) (hdummy : st.dummyKey ∉ newKeys)
    (hd : DistributionOver newKeys d) :
    (∃ st', st.Relabels newKeys d st') ↔
      (∀ key ∈ newKeys, key ∈ keys) ∧ st.MovesNothing d := by
  constructor
  · intro hrelabels
    obtain ⟨st', hr⟩ := hrelabels
    exact h.kept_of_relabels (by rw [hlen, halpha]) hnew hdummy hd hr
  · intro hkept
    obtain ⟨hold, hmoves⟩ := hkept
    have hperm : newKeys.Perm keys :=
      (List.subperm_of_subset hnew hold).perm_of_length_le hlen.ge
    have hover : DistributionOver keys d := ⟨hd.items.trans hperm, hd.lengths, hd.positive,
      hd.normalised⟩
    exact h.relabels hnd halpha (fun hc => hdummy (hperm.mem_iff.mpr hc)) hover hmoves hperm

end Change

/-- After `create_replicas` with distinct names. -/
theorem Created.consistentOn {st₁ st : Proxy} {values : Nat → Str} {delta : ℚ}
    (hc : Created st₁ values st) (h : CallerArguments st₁.realDistribution st₁.alpha delta)
    (hdummy : st₁.dummyKey ∉ st₁.realDistribution.items) (hfresh : st₁.Fresh)
    (hnd : (st.liveNames st₁.realDistribution.items).Nodup) :
    st.ConsistentOn st₁.realDistribution.items where
  bijective := hc.bijective h hdummy hfresh hnd
  positive := by
    intro key hkey
    exact hc.replicas_pos hfresh h (List.mem_append_left _ hkey)
  known := (hc.present h hdummy hfresh).known

theorem twoKeys_consistentOn : twoKeys.ConsistentOn evenKeys.items := by
  obtain ⟨st, hinit, -⟩ := init_created evenKeys (1 / 2) (1 / 2) fun i =>
    (firstStrings_roundTrips i).encrypts
  have htwo : twoKeys = st := by rw [twoKeys, hinit]
  have hnd : (twoKeys.liveNames evenKeys.items).Nodup := by decide +kernel
  obtain ⟨values', hc⟩ := exists_created_of_init evenKeys_arguments.lengths
    evenKeys_arguments.keys_pos hinit
  rw [htwo] at hnd ⊢
  exact hc.consistentOn evenKeys_arguments (by decide) ⟨rfl, rfl, rfl, rfl⟩ hnd

/-- The same keys, equally likely again. -/
theorem relabels_iff_evenKeys : ∃ st', twoKeys.Relabels evenKeys.items evenKeys st' := by
  have hmissing : twoKeys.missingNewReplicas = ∅ := by decide +kernel
  apply (relabels_iff twoKeys_consistentOn (by decide) (by decide +kernel) (by decide) rfl
    (by decide +kernel) evenKeys_over).mpr
  refine ⟨fun key hkey => hkey, by decide +kernel, ?_⟩
  intro key entry hl
  rw [hmissing] at hl
  simp at hl

/-- A key that stays, and a new one instead of the other. -/
def otherKeys : Distribution := { items := [['k'], ['l']], probabilities := [1 / 2, 1 / 2] }

theorem otherKeys_over : DistributionOver otherKeys.items otherKeys where
  items := .refl _
  lengths := rfl
  positive := by simp [otherKeys]
  normalised := by norm_num [otherKeys]

/-- **The failing change**: the new key needs a label and none is released. -/
theorem new_key_unlabelled :
    twoKeys.ConsistentOn evenKeys.items ∧ DistributionOver otherKeys.items otherKeys ∧
    (∃ s, twoKeys.planSwaps otherKeys = .ok s ∧ s.needsLabels = [(['l'], 0)] ∧
      s.unassignedLabels = []) ∧
    twoKeys.updateDistribution otherKeys = .error .assertionFailed ∧
    ¬ ∃ st', twoKeys.Relabels otherKeys.items otherKeys st' := by
  have hfails : twoKeys.updateDistribution otherKeys = .error .assertionFailed :=
    eq_error_of_map (by decide +kernel)
  refine ⟨twoKeys_consistentOn, otherKeys_over, exists_ok_of_decide (by decide +kernel), hfails, ?_⟩
  intro h
  obtain ⟨st', hr⟩ := h
  have hreturns := hr.returns
  rw [hfails] at hreturns
  cases hreturns

end Proxy

end Pancake
