import Pancake.LabelConservation
import Pancake.Lib.NumberedNames
import Pancake.Steady

/-!
# The names of the replicas

A replica is looked up under its key followed by its number, with nothing
between the two. The lookups tell all replicas apart exactly when no key is
another one followed by a number small enough: the key `x` followed by `q`
takes over the replica `10 * q` of `x`.
-/

namespace Pancake

/-- How many replicas `create_replicas` gives each key at `alpha = 1/n`, the
dummy key last. -/
def Distribution.replicaCounts (dist : Distribution) (dummyKey : Str) : List (Str × Nat) :=
  let counts := dist.pairs.map fun item =>
    (item.1, Proxy.replicaCount (1 / dist.items.length) item.2)
  counts ++ [(dummyKey, 2 * dist.items.length - (counts.map Prod.snd).sum)]

namespace Proxy

/-- The replica `i` of `key` exists. -/
def Live (st : Proxy) (keys : List Str) (r : Str × Nat) : Prop :=
  r.1 ∈ keys ++ [st.dummyKey] ∧ r.2 < st.replicas r.1

/-- Different replicas have different labels, and each of the `2n` labels is
that of exactly one replica. -/
structure UniquelyLabelled (st : Proxy) (keys : List Str) : Prop where
  injective : ∀ r r', st.Live keys r → st.Live keys r' →
    st.labelOf r.1 r.2 = st.labelOf r'.1 r'.2 → r = r'
  onto : ∀ l < 2 * keys.length, ∃! r, st.Live keys r ∧ st.labelOf r.1 r.2 = toString l

/-! ## Live replicas and their names -/

section Names

variable {st : Proxy} {keys : List Str} (hdummies : st.replicas st.dummyKey = st.dummyKeys)
include hdummies

theorem liveNames_eq : st.liveNames keys
    = (keys ++ [st.dummyKey]).flatMap fun key => replicaNames key (st.replicas key) := by
  rw [liveNames, List.flatMap_append, List.flatMap_singleton, hdummies]

theorem mem_liveNames {name : Str} : name ∈ st.liveNames keys ↔
    ∃ r, st.Live keys r ∧ replicaName r.1 r.2 = name := by
  rw [liveNames_eq hdummies, List.mem_flatMap]
  constructor
  · intro h
    obtain ⟨key, hkey, h⟩ := h
    obtain ⟨i, hi, rfl⟩ := List.mem_map.mp h
    exact ⟨(key, i), ⟨hkey, List.mem_range.mp hi⟩, rfl⟩
  · intro h
    obtain ⟨r, ⟨hkey, hi⟩, rfl⟩ := h
    exact ⟨r.1, hkey, List.mem_map_of_mem (List.mem_range.mpr hi)⟩

/-- Names that tell the keys apart are all different. -/
theorem liveNames_nodup (hkeys : (keys ++ [st.dummyKey]).Nodup)
    (hapart : ∀ r r', st.Live keys r → st.Live keys r' →
      replicaName r.1 r.2 = replicaName r'.1 r'.2 → r.1 = r'.1) : (st.liveNames keys).Nodup := by
  rw [liveNames_eq hdummies, List.nodup_flatMap]
  constructor
  · intro key _
    apply List.Nodup.map _ List.nodup_range
    intro i j hij
    exact replicaName_inj_right.mp hij
  · apply hkeys.imp_of_mem
    intro key key' hkey hkey' hne name hname hname'
    obtain ⟨i, hi, rfl⟩ := List.mem_map.mp hname
    obtain ⟨j, hj, heq⟩ := List.mem_map.mp hname'
    exact hne (hapart (key, i) (key', j) ⟨hkey, List.mem_range.mp hi⟩
      ⟨hkey', List.mem_range.mp hj⟩ heq.symm)

/-- A bijection from the names onto the labels labels every replica uniquely. -/
theorem Bijective.uniquelyLabelled (h : st.Bijective keys)
    (hapart : ∀ r r', st.Live keys r → st.Live keys r' →
      replicaName r.1 r.2 = replicaName r'.1 r'.2 → r.1 = r'.1) : st.UniquelyLabelled keys := by
  have hinj : ∀ r r', st.Live keys r → st.Live keys r' →
      st.labelOf r.1 r.2 = st.labelOf r'.1 r'.2 → r = r' := by
    intro r r' hr hr' heq
    have hname : replicaName r.1 r.2 = replicaName r'.1 r'.2 :=
      h.bijection.injOn ((mem_liveNames hdummies).mpr ⟨r, hr, rfl⟩)
        ((mem_liveNames hdummies).mpr ⟨r', hr', rfl⟩) (toString_inj.mp heq)
    have hkey := hapart r r' hr hr' hname
    rw [hkey, replicaName_inj_right] at hname
    exact Prod.ext hkey hname
  refine ⟨hinj, ?_⟩
  intro l hl
  obtain ⟨name, hname, hlabel⟩ := h.bijection.surjOn hl
  obtain ⟨r, hr, rfl⟩ := (mem_liveNames hdummies).mp hname
  have hlabelOf : st.labelOf r.1 r.2 = toString l := congrArg toString hlabel
  refine ⟨r, ⟨hr, hlabelOf⟩, ?_⟩
  intro r' hr'
  exact hinj r' r hr'.1 hr (hr'.2.trans hlabelOf.symm)

end Names

/-! ## After `create_replicas` -/

section Created

variable {st₁ st : Proxy} {values : Nat → Str} {delta : ℚ} (hc : Created st₁ values st)
  (h : CallerArguments st₁.realDistribution st₁.alpha delta)
  (halpha : st₁.alpha = 1 / st₁.realDistribution.items.length)
  (hdummy : st₁.dummyKey ∉ st₁.realDistribution.items)
include hc h halpha hdummy

/-- The counts are those recorded. -/
theorem Created.replicaCounts : st₁.realDistribution.replicaCounts st₁.dummyKey
    = (st₁.realDistribution.items ++ [st.dummyKey]).map fun key => (key, st.replicas key) := by
  obtain ⟨hkeys, hdummies⟩ := hc.counts_eq h
  obtain ⟨htotal, -, -⟩ := dummyCount_eq h values
  have hdk : st.dummyKey = st₁.dummyKey := by rw [hc.rest]
  have hreal : (st₁.realDistribution.pairs.map fun item =>
        (item.1, replicaCount (1 / st₁.realDistribution.items.length) item.2))
      = st₁.realDistribution.items.map fun key => (key, st.replicas key) := by
    rw [← halpha]
    conv_rhs => rw [← pairs_map_fst h.lengths]
    rw [List.map_map]
    refine List.map_congr_left fun item hitem => ?_
    have hne : item.1 ≠ st₁.dummyKey := by
      intro heq
      exact hdummy (heq ▸ (List.of_mem_zip hitem).1)
    exact Prod.ext rfl (hkeys item.1 item.2 hitem hne).symm
  have hsum : (st₁.realDistribution.pairs.map fun item => replicaCount st₁.alpha item.2).sum
      = (st₁.realDistribution.probabilities.map (replicaCount st₁.alpha)).sum := by
    rw [← List.map_snd_zip h.lengths.ge, List.map_map]
    rfl
  rw [List.map_append, ← hreal, Distribution.replicaCounts, List.map_singleton, hdk, hdummies]
  congr 3
  rw [List.map_map]
  show 2 * _ - (st₁.realDistribution.pairs.map fun item =>
    replicaCount (1 / st₁.realDistribution.items.length) item.2).sum = _
  rw [← halpha, hsum]
  omega

/-- Every key has a replica. -/
theorem Created.replicaCounts_pos (hfresh : st₁.Fresh) :
    ∀ x ∈ st₁.realDistribution.replicaCounts st₁.dummyKey, 0 < x.2 := by
  intro x hx
  rw [hc.replicaCounts h halpha hdummy, show st.dummyKey = st₁.dummyKey by rw [hc.rest]] at hx
  obtain ⟨key, hkey, rfl⟩ := List.mem_map.mp hx
  exact hc.replicas_pos hfresh h hkey

/-- **Unique labels** exactly when the keys are apart. -/
theorem Created.uniquelyLabelled_iff (hfresh : st₁.Fresh) :
    st.UniquelyLabelled st₁.realDistribution.items ↔
      NumberedNames.Apart 10 (st₁.realDistribution.replicaCounts st₁.dummyKey) := by
  have hcounts := hc.replicaCounts h halpha hdummy
  have hdk : st.dummyKey = st₁.dummyKey := by rw [hc.rest]
  have hlive : ∀ x i, x ∈ st₁.realDistribution.replicaCounts st₁.dummyKey → i < x.2 →
      st.Live st₁.realDistribution.items (x.1, i) := by
    intro x i hx hi
    rw [hcounts] at hx
    obtain ⟨key, hkey, rfl⟩ := List.mem_map.mp hx
    exact ⟨hkey, hi⟩
  rw [NumberedNames.apart_iff (by norm_num) (hc.replicaCounts_pos h halpha hdummy hfresh)]
  constructor
  · intro hu x hx y hy i hi j hj hname
    have hlabel : st.labelOf x.1 i = st.labelOf y.1 j :=
      congrArg (fun name => toString (UnorderedMap.at_ st.replicaToLabel name)) hname
    have heq := hu.injective (x.1, i) (y.1, j) (hlive x i hx hi) (hlive y j hy hj) hlabel
    exact (Prod.mk.inj heq).1
  · intro hnames
    have hdummies : st.replicas st.dummyKey = st.dummyKeys := by
      rw [hdk, (hc.counts_eq h).2, hc.rest]
    have hapart : ∀ r r', st.Live st₁.realDistribution.items r →
        st.Live st₁.realDistribution.items r' →
        replicaName r.1 r.2 = replicaName r'.1 r'.2 → r.1 = r'.1 := by
      intro r r' hr hr' hname
      have hmem : ∀ r, st.Live st₁.realDistribution.items r →
          (r.1, st.replicas r.1) ∈ st₁.realDistribution.replicaCounts st₁.dummyKey := by
        intro r hr
        rw [hcounts]
        exact List.mem_map_of_mem hr.1
      exact hnames (r.1, st.replicas r.1) (hmem r hr) (r'.1, st.replicas r'.1) (hmem r' hr')
        r.2 hr.2 r'.2 hr'.2 hname
    have hkeys : (st₁.realDistribution.items ++ [st.dummyKey]).Nodup := by
      rw [hdk, List.nodup_append_comm]
      exact List.nodup_cons.mpr ⟨hdummy, h.keys⟩
    exact (hc.bijective h hdummy hfresh (liveNames_nodup hdummies hkeys hapart)).uniquelyLabelled
      hdummies hapart

end Created

/-- **Replica naming**: after `create_replicas` every replica has a label of
its own, and every label a replica of its own, exactly when no key is another
one followed by a number `q` with more than `10 * q` replicas before it. -/
theorem init_uniquelyLabelled_iff {st₀ st : Proxy} {dist : Distribution} {delta : ℚ}
    {values : Nat → Str} (hfresh : st₀.Fresh) (hnd : dist.items.Nodup)
    (hdist : DistributionOver dist.items dist) (hdummy : st₀.dummyKey ∉ dist.items)
    (hinit : st₀.init dist (1 / dist.items.length) delta values = .ok st) :
    st.UniquelyLabelled dist.items ↔
      NumberedNames.Apart 10 (dist.replicaCounts st₀.dummyKey) := by
  have hargs : CallerArguments dist _ _ := hdist.callerArguments hnd rfl
  obtain ⟨values', hc⟩ := exists_created_of_init hdist.lengths hargs.keys_pos hinit
  exact hc.uniquelyLabelled_iff hargs rfl hdummy (hfresh.takeArguments _ _ _)

/-- Two keys, one replica each. -/
theorem init_uniquelyLabelled_evenKeys :
    ∃ st, blank.init evenKeys (1 / evenKeys.items.length) (1 / 2) firstStrings = .ok st ∧
      (st.UniquelyLabelled evenKeys.items ↔
        NumberedNames.Apart 10 (evenKeys.replicaCounts ['d'])) ∧
      NumberedNames.Apart 10 (evenKeys.replicaCounts ['d']) := by
  obtain ⟨st, hinit, -⟩ := exists_ok_of_decide
    (x := blank.init evenKeys (1 / evenKeys.items.length) (1 / 2) firstStrings)
    (P := fun _ => True) (by decide +kernel)
  refine ⟨st, hinit, init_uniquelyLabelled_iff ⟨rfl, rfl, rfl, rfl⟩ (by decide) evenKeys_over
    (by decide) hinit, ?_⟩
  -- no key has ten replicas
  have hfew : ∀ x ∈ evenKeys.replicaCounts ['d'], x.2 ≤ 10 := by decide +kernel
  intro x hx y hy q hq hname
  have := hfew x hx
  omega

/-- Twelve keys, among them `a` and `a1`; `a` gets eleven replicas. -/
def hotKey : Distribution where
  items := [['a'], ['a', '1'], ['b'], ['c'], ['d'], ['e'], ['f'], ['g'], ['h'], ['i'], ['j'], ['k']]
  probabilities := (11 / 12) :: List.replicate 11 (1 / 132)

theorem hotKey_over : DistributionOver hotKey.items hotKey where
  items := .refl _
  lengths := rfl
  positive := by
    intro p hp
    rcases List.mem_cons.mp hp with rfl | hp
    · norm_num
    · rw [(List.mem_replicate.mp hp).2]
      norm_num
  normalised := by norm_num [hotKey]

/-- **The failing names**: replica 10 of `a` and replica 0 of `a1` are both
looked up as `a10`. -/
theorem replicas_share_label :
    ∃ st, ({ blank with dummyKey := ['z'] } : Proxy).init hotKey (1 / hotKey.items.length) (1 / 2)
        firstStrings = .ok st ∧
      DistributionOver hotKey.items hotKey ∧ hotKey.items.Nodup ∧ ['z'] ∉ hotKey.items ∧
      st.replicas ['a'] = 11 ∧ st.replicas ['a', '1'] = 1 ∧
      st.labelOf ['a'] 10 = ['1', '1'] ∧ st.labelOf ['a', '1'] 0 = ['1', '1'] ∧
      ¬ st.UniquelyLabelled hotKey.items := by
  obtain ⟨st, hinit, ha, ha1, hla, hla1⟩ := exists_ok_of_decide
    (x := ({ blank with dummyKey := ['z'] } : Proxy).init hotKey (1 / hotKey.items.length) (1 / 2)
      firstStrings)
    (P := fun st => st.replicas ['a'] = 11 ∧ st.replicas ['a', '1'] = 1 ∧
      st.labelOf ['a'] 10 = ['1', '1'] ∧ st.labelOf ['a', '1'] 0 = ['1', '1']) (by decide +kernel)
  refine ⟨st, hinit, hotKey_over, by decide, by decide, ha, ha1, hla, hla1, ?_⟩
  intro h
  have heq := h.injective (['a'], 10) (['a', '1'], 0) ⟨by simp [hotKey], by simp [ha]⟩
    ⟨by simp [hotKey], by simp [ha1]⟩ (hla.trans hla1.symm)
  exact absurd heq (by decide)

end Proxy

end Pancake
