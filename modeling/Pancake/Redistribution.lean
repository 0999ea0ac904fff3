import Pancake.LabelConservation
import Pancake.ReadYourWrites

/-!
# Read your writes across distribution changes

Runs in which calls of `execute_batch` alternate with calls of
`update_distribution` over the same keys. A change that gives no key more
replicas only takes replicas away: the labels it hands on, whatever `stoi`
made of them, go to dummy replicas that nothing reads, and the invariant of
the static case carries over. A change that lets a key grow may give it
another key's label and mark nothing as missing; the run at the end shows
the other key's value delivered.
-/

namespace Pancake

/-- A step of such a run. -/
inductive Event where
  | call (c : Call)
  | update (d : Distribution)

/-- The batches of a run. -/
def callsOf (events : List Event) : List Call :=
  events.filterMap fun
    | .call c => some c
    | .update _ => none

theorem callsOf_append (es fs : List Event) : callsOf (es ++ fs) = callsOf es ++ callsOf fs :=
  List.filterMap_append ..

namespace Proxy

/-- `st` takes a step to `st'`: a batch with distinct labels, or a new
distribution over `keys`, that returns. -/
inductive Evolves (keys : List Str) (st : Proxy) : Event → Proxy → Prop
  | call {c : Call} {st' : Proxy} : st.DistinctCall c st' → Evolves keys st (.call c) st'
  | update {d : Distribution} {st' : Proxy} : DistributionOver keys d →
      st.updateDistribution d = .ok st' → Evolves keys st (.update d) st'

/-- The step gives no key more replicas than it has. -/
def NoGrowth (st : Proxy) : Event → Prop
  | .call _ => True
  | .update d => ∀ item ∈ d.pairs, replicaCount st.alpha item.2 ≤ st.replicas item.1

/-- How many replicas each key can have in a run that lets no key grow: as
many as at first, and the dummy key what the others leave. -/
def mostReplicas (dist : Distribution) (alpha : ℚ) (dummyKey : Str) : List (Str × Nat) :=
  dist.pairs.map (fun item => (item.1, replicaCount alpha item.2))
    ++ [(dummyKey, dist.items.length)]

/-- Replicas of different keys never share a name, with so many replicas. -/
def NamesApart (counts : List (Str × Nat)) : Prop :=
  ∀ x ∈ counts, ∀ y ∈ counts, ∀ i < x.2, ∀ j < y.2, replicaName x.1 i = replicaName y.1 j → x.1 = y.1

/-- The invariant: consistent, with `2n` replicas in all, and none of a key
beyond its bound. The counts of the dummy key are kept twice; only
`dummy_keys_` is updated. -/
structure Balanced (st : Proxy) (keys : List Str) (counts : List (Str × Nat)) (cur : Str → Str) :
    Prop extends st.Consistent cur where
  alpha : 0 < st.alpha
  total : (keys.map st.replicas).sum + st.dummyKeys = 2 * keys.length
  dummies : st.replicas st.dummyKey ≤ st.dummyKeys
  dummyBound : (st.dummyKey, keys.length) ∈ counts
  bounded : ∀ k, 0 < st.replicas k → ∃ x ∈ counts, x.1 = k ∧ st.replicas k ≤ x.2

/-! ## One change -/

/-- Fewer replicas under the labels they had are as consistent. -/
theorem Consistent.shrink {st st' : Proxy} {cur : Str → Str} (h : st.Consistent cur)
    (hkept : KeptFields st st') (hmissing : st'.missingNewReplicas = st.missingNewReplicas)
    (hle : ∀ k, st'.replicas k ≤ st.replicas k)
    (hlabels : ∀ k i, i < st'.replicas k → st'.labelOf k i = st.labelOf k i) :
    st'.Consistent cur where
  fits key value bitVec hl := by
    rw [hkept.updateCache] at hl
    exact (hle key).trans (h.fits key value bitVec hl)
  noMissing key := by
    rw [hmissing]
    exact h.noMissing key
  readable key i hi := by
    rw [hlabels key i hi, hkept.storage, hkept.encryptionEngine]
    exact h.readable key i (hi.trans_le (hle key))
  values := by
    refine ⟨fun k i v hw => ?_, fun op hop => by simp at hop⟩
    rw [hkept.updateCache] at hw
    rw [hkept.encryptionEngine]
    exact h.values.waiting k i v hw
  distinct k i k' i' hi hi' he := by
    rw [hlabels k i hi, hlabels k' i' hi'] at he
    exact h.distinct k i k' i' (hi.trans_le (hle k)) (hi'.trans_le (hle k')) he
  coherent k i hi := by
    rw [hlabels k i hi, hkept.updateCache, Proxy.plain, hkept.storage, hkept.encryptionEngine]
    exact h.coherent k i (hi.trans_le (hle k))

section Change

variable {st st' : Proxy} {keys : List Str} {counts : List (Str × Nat)} {cur : Str → Str}
  {d : Distribution}

theorem Balanced.lt_bound (h : st.Balanced keys counts cur) {k : Str} {i : Nat}
    (hi : i < st.replicas k) : ∃ x ∈ counts, x.1 = k ∧ i < x.2 := by
  obtain ⟨x, hx, hk, hle⟩ := h.bounded k (by omega)
  exact ⟨x, hx, hk, by omega⟩

/-- Every key keeps a replica, which bounds the dummies. -/
theorem Balanced.newDummyKeys_le (h : st.Balanced keys counts cur) (hd : DistributionOver keys d) :
    st.newDummyKeys d ≤ keys.length := by
  have hpairs : d.pairs.length = keys.length := by
    rw [Distribution.pairs, List.length_zip, ← hd.lengths, min_self, hd.length_eq]
  have hone : d.pairs.length ≤ st.newRealReplicas d := by
    rw [newRealReplicas, ← List.length_map]
    refine List.length_le_sum_of_one_le _ fun n hn => ?_
    obtain ⟨item, hitem, rfl⟩ := List.mem_map.mp hn
    exact Nat.one_le_ceil_iff.mpr (div_pos (hd.positive _ (List.of_mem_zip hitem).2) h.alpha)
  rw [newDummyKeys, hd.length_eq]
  omega

/-- When no key grows, the dummies do not shrink. -/
theorem Balanced.dummyKeys_le (h : st.Balanced keys counts cur) (hd : DistributionOver keys d)
    (hgrow : st.NoGrowth (.update d)) : st.dummyKeys ≤ st.newDummyKeys d := by
  have hsum : st.newRealReplicas d ≤ (keys.map st.replicas).sum := by
    rw [← hd.sum_keys]
    exact List.sum_le_sum hgrow
  have htotal := h.total
  rw [newDummyKeys, hd.length_eq]
  omega

/-- The counts after a change that lets no key grow. -/
theorem replicas_le_of_noGrowth (hu : Updated st d st') (hgrow : st.NoGrowth (.update d))
    (k : Str) : st'.replicas k ≤ st.replicas k := by
  by_cases hk : k ∈ d.pairs.map Prod.fst
  · obtain ⟨item, hitem, rfl⟩ := List.mem_map.mp hk
    rw [hu.counts item hitem]
    exact hgrow item hitem
  · exact (hu.others k hk).le

/-- Such a change touches no label of a live replica. -/
theorem Balanced.labelOf_eq (h : st.Balanced keys counts cur) (hnames : NamesApart counts)
    (hd : DistributionOver keys d) (hgrow : st.NoGrowth (.update d)) (hu : Updated st d st')
    {k : Str} {i : Nat} (hi : i < st'.replicas k) : st'.labelOf k i = st.labelOf k i := by
  have hold : i < st.replicas k := hi.trans_le (replicas_le_of_noGrowth hu hgrow k)
  obtain ⟨x, hx, rfl, hxi⟩ := h.lt_bound hold
  have hdummies := h.dummyKeys_le hd hgrow
  have hmost := h.newDummyKeys_le hd
  -- the name is not released: its key would keep fewer replicas than `i`
  have hreleased : replicaName x.1 i ∉ st.released d := by
    intro hc
    rcases List.mem_append.mp hc with hc | hc
    · obtain ⟨item, hitem, hm⟩ := List.mem_flatMap.mp hc
      obtain ⟨j, hlo, hhi, hname⟩ := mem_namesBetween.mp hm
      obtain ⟨y, hy, hkey, hyj⟩ := h.lt_bound hhi
      have hsame : item.1 = x.1 :=
        hkey.symm.trans (hnames y hy x hx j hyj i hxi (by rw [hkey]; exact hname))
      rw [hsame] at hname
      obtain rfl := replicaName_inj_right.mp hname
      rw [← hsame, hu.counts item hitem] at hi
      omega
    · obtain ⟨j, hlo, hhi, -⟩ := mem_namesBetween.mp hc
      omega
  -- nor does it get a new label: those go to new dummies
  have hneeded : ∀ need ∈ st.needed d, replicaName need.1 need.2 ≠ replicaName x.1 i := by
    intro need hmem hname
    rcases List.mem_append.mp hmem with hmem | hmem
    · obtain ⟨item, hitem, hm⟩ := List.mem_flatMap.mp hmem
      rw [Nat.sub_eq_zero_of_le (hgrow item hitem)] at hm
      simp at hm
    · obtain ⟨j, hj, rfl⟩ := List.mem_map.mp hmem
      rw [List.mem_range'_1] at hj
      have hsame : st.dummyKey = x.1 :=
        hnames _ h.dummyBound x hx j (show j < keys.length by omega) i hxi hname
      rw [hsame] at hname
      obtain rfl := replicaName_inj_right.mp hname
      have := h.dummies
      rw [hsame] at this
      omega
  obtain ⟨labels, -, -, hto⟩ := hu.labels
  have hlookup : st'.replicaToLabel.lookup (replicaName x.1 i)
      = st.replicaToLabel.lookup (replicaName x.1 i) := by
    rcases hto (replicaName x.1 i) with hx | ⟨⟨need, hmem, hname⟩, -⟩
    · rw [hx, if_neg hreleased]
    · exact absurd hname (hneeded need hmem)
  rw [labelOf, labelOf, UnorderedMap.at_, UnorderedMap.at_, hlookup]

/-- **The step**: a change that lets no key grow keeps the invariant. -/
theorem Balanced.updateDistribution (h : st.Balanced keys counts cur) (hnd : keys.Nodup)
    (hdummy : st.dummyKey ∉ keys) (hnames : NamesApart counts)
    (hd : DistributionOver keys d) (hgrow : st.NoGrowth (.update d))
    (hrun : st.updateDistribution d = .ok st') : st'.Balanced keys counts cur ∧ KeptFields st st' := by
  have hu := updateDistribution_spec (hd.pairs_nodup hnd) hrun
  have hle := replicas_le_of_noGrowth hu hgrow
  have hdummies := h.dummyKeys_le hd hgrow
  have hcons := h.toConsistent.shrink hu.kept (hu.missing hgrow) hle fun k i hi =>
    h.labelOf_eq hnames hd hgrow hu hi
  refine ⟨{ hcons with
    alpha := ?_, total := ?_, dummies := ?_, dummyBound := ?_, bounded := fun k hk => ?_ }, hu.kept⟩
  · rw [hu.kept.alpha]
    exact h.alpha
  · have hsum : (keys.map st'.replicas).sum = st.newRealReplicas d := by
      rw [← hd.sum_keys]
      exact congrArg List.sum (List.map_congr_left hu.counts)
    have := hu.fewer
    rw [hsum, hu.dummyKeys, newDummyKeys, ← hd.length_eq]
    omega
  · have hnot : st.dummyKey ∉ d.pairs.map Prod.fst := fun hc =>
      hdummy (hd.mem_pairs_map_fst.mp hc)
    rw [hu.kept.dummyKey, hu.others _ hnot, hu.dummyKeys]
    exact h.dummies.trans hdummies
  · rw [hu.kept.dummyKey]
    exact h.dummyBound
  · obtain ⟨x, hx, hkey, hx'⟩ := h.bounded k (hk.trans_le (hle k))
    exact ⟨x, hx, hkey, (hle k).trans hx'⟩

end Change

/-! ## Runs -/

/-- A batch with distinct labels keeps the invariant too. -/
theorem Balanced.distinctCall {st st' : Proxy} {keys : List Str} {counts : List (Str × Nat)}
    {initial : Str → Str} {earlier : List Operation} {c : Call}
    (h : st.Balanced keys counts (latestPut initial earlier)) (hc : st.DistinctCall c st') :
    c.fulfilled = c.batch.promises.zip (expected initial earlier c.batch.operations c.batch.isTrues) ∧
      st'.Balanced keys counts (latestPut initial (earlier ++ c.batch.operations)) ∧
      st'.dummyKey = st.dummyKey := by
  obtain ⟨hf, hcons, hframe⟩ := h.toConsistent.distinctCall hc
  have hkey : st'.dummyKey = st.dummyKey := by rw [hframe.rest]
  have hkeys : st'.dummyKeys = st.dummyKeys := by rw [hframe.rest]
  refine ⟨hf, { hcons with alpha := ?_, total := ?_, dummies := ?_, dummyBound := ?_,
                           bounded := ?_ }, hkey⟩
  · rw [show st'.alpha = st.alpha by rw [hframe.rest]]
    exact h.alpha
  · rw [hframe.replicas, hkeys]
    exact h.total
  · rw [hframe.replicas, hkey, hkeys]
    exact h.dummies
  · rw [hkey]
    exact h.dummyBound
  · rw [hframe.replicas]
    exact h.bounded

/-- **The run**: batches and changes that let no key grow. -/
theorem Balanced.run {st st' : Proxy} {keys : List Str} {counts : List (Str × Nat)}
    {initial : Str → Str} {events : List Event} (h : st.Balanced keys counts initial)
    (hnd : keys.Nodup) (hdummy : st.dummyKey ∉ keys) (hnames : NamesApart counts)
    (hr : Run (fun st e st' => Evolves keys st e st' ∧ st.NoGrowth e) st events st') :
    (∀ pre c post, events = pre ++ .call c :: post → c.fulfilled = c.batch.promises.zip
      (expected initial (operationsOf (callsOf pre)) c.batch.operations c.batch.isTrues)) ∧
    st'.Balanced keys counts (latestPut initial (operationsOf (callsOf events))) := by
  have hrun := hr.invariant (I := fun events st' =>
    (∀ pre c post, events = pre ++ .call c :: post → c.fulfilled = c.batch.promises.zip
      (expected initial (operationsOf (callsOf pre)) c.batch.operations c.batch.isTrues)) ∧
    st'.Balanced keys counts (latestPut initial (operationsOf (callsOf events))) ∧
    st'.dummyKey = st.dummyKey) ?_ ?_
  · exact ⟨hrun.1, hrun.2.1⟩
  · exact ⟨fun pre c post he => by simp at he, h, rfl⟩
  · intro events st₁ e st₂ _ ⟨hans, hbal, hkey⟩ ⟨hstep, hgrow⟩
    -- what came before the last step was answered before it
    have hearlier : ∀ pre c post, events ++ [e] = pre ++ .call c :: post → post ≠ [] →
        c.fulfilled = c.batch.promises.zip (expected initial (operationsOf (callsOf pre))
          c.batch.operations c.batch.isTrues) := by
      intro pre c post he hne
      obtain ⟨post, e', rfl⟩ := (List.eq_nil_or_concat post).resolve_left hne
      rw [List.concat_eq_append, ← List.cons_append, ← List.append_assoc] at he
      exact hans pre c post (List.append_inj' he rfl).1
    cases hstep with
    | call hc =>
        rename_i c
        obtain ⟨hf, hbal', hkey'⟩ := hbal.distinctCall hc
        refine ⟨fun pre c' post he => ?_, ?_, hkey'.trans hkey⟩
        · by_cases hpost : post = []
          · subst hpost
            obtain ⟨rfl, hlast⟩ := List.append_inj' he rfl
            cases hlast
            exact hf
          · exact hearlier pre c' post he hpost
        · rw [callsOf_append, operationsOf_append]
          simpa [callsOf, operationsOf] using hbal'
    | update hd hrun =>
        rename_i d
        obtain ⟨hbal', hkept⟩ := hbal.updateDistribution hnd (hkey ▸ hdummy) hnames hd hgrow hrun
        refine ⟨fun pre c' post he => ?_, ?_, hkept.dummyKey.trans hkey⟩
        · refine hearlier pre c' post he fun hpost => ?_
          subst hpost
          cases (List.append_inj' he rfl).2
        · rw [callsOf_append]
          simpa [callsOf] using hbal'

/-- **Initially** the invariant holds for the initial values. -/
theorem Created.balanced {st st' : Proxy} {values : Nat → Str} {delta : ℚ}
    (hc : Created st values st') (h : CallerArguments st.realDistribution st.alpha delta)
    (hfresh : st.Fresh) (hkeys : (st.realDistribution.items ++ [st.dummyKey]).Nodup)
    (hnames : NamesApart (mostReplicas st.realDistribution st.alpha st.dummyKey))
    (hv : ∀ i, st.encryptionEngine.RoundTrips (values i)) :
    st'.Balanced st.realDistribution.items
      (mostReplicas st.realDistribution st.alpha st.dummyKey)
      (initialValue st.realDistribution.items st.dummyKey values) := by
  obtain ⟨htotal, hd1, hdn⟩ := dummyCount_eq h values
  obtain ⟨hcounts, hdummies⟩ := hc.counts_eq h
  have hkey : st'.dummyKey = st.dummyKey := by rw [hc.rest]
  have hdks : st'.dummyKeys = st.dummyCount values := by rw [hc.rest]
  have hnot : st.dummyKey ∉ st.realDistribution.items := fun hm =>
    (List.nodup_append.mp hkeys).2.2 _ hm _ (by simp) rfl
  have hreal : ∀ item ∈ st.realDistribution.pairs,
      st'.replicas item.1 = replicaCount st.alpha item.2 := fun item hitem =>
    hcounts item.1 item.2 hitem fun he => hnot (he ▸ (List.of_mem_zip hitem).1)
  have hbounded : ∀ k, 0 < st'.replicas k →
      ∃ x ∈ mostReplicas st.realDistribution st.alpha st.dummyKey,
        x.1 = k ∧ st'.replicas k ≤ x.2 := by
    intro k hk
    obtain ⟨b, hb, rfl, -⟩ := hc.block_of_live hfresh hk
    have hknown : b.key ∈ st.realDistribution.items ++ [st.dummyKey] :=
      (allBlocks_keys_sublist values h.lengths).subset (List.mem_map_of_mem hb)
    rcases List.mem_append.mp hknown with hmem | hmem
    · rw [← pairs_map_fst h.lengths] at hmem
      obtain ⟨item, hitem, hfst⟩ := List.mem_map.mp hmem
      refine ⟨_, List.mem_append_left _ (List.mem_map_of_mem hitem), hfst, ?_⟩
      rw [← hfst, hreal item hitem]
    · rw [List.mem_singleton.mp hmem, hdummies]
      exact ⟨_, List.mem_append_right _ (List.mem_singleton_self _), rfl, hdn⟩
  have hsum : (st.realDistribution.items.map st'.replicas).sum + st.dummyCount values
      = 2 * st.realDistribution.items.length := by
    rw [← htotal]
    congr 2
    rw [← pairs_map_fst h.lengths, ← List.map_snd_zip h.lengths.ge, List.map_map, List.map_map]
    exact List.map_congr_left hreal
  have hcons : st'.Consistent (initialValue st.realDistribution.items st.dummyKey values) := by
    refine hc.consistent hfresh hv h.lengths hkeys fun k i k' i' hi hi' he => ?_
    obtain ⟨x, hx, rfl, hle⟩ := hbounded k (by omega)
    obtain ⟨y, hy, rfl, hle'⟩ := hbounded k' (by omega)
    exact hnames x hx y hy i (by omega) i' (by omega) he
  exact { hcons with
    alpha := by
      rw [show st'.alpha = st.alpha by rw [hc.rest]]
      exact h.alpha_pos
    total := by rw [hdks]; exact hsum
    dummies := by rw [hkey, hdks, hdummies]
    dummyBound := by
      rw [hkey]
      exact List.mem_append_right _ (List.mem_singleton_self _)
    bounded := hbounded }

/-- One get, fulfilling promise 0. -/
def getOnly (key : Str) : Batch := { operations := [⟨key, []⟩], isTrues := [true], promises := [0] }

/-- Drawing for a single operation. -/
theorem possible_chooseReplicas_single {st : Proxy} {op : Operation} {t : Bool} {id : Nat}
    (h : (st.missingNewReplicas.sampleAReplica op.key (st.replicas op.key) t
      (st.frequency op.key) st.pMax).Possible (.ok id)) :
    (st.chooseReplicas [op] [t]).Possible (.ok [id]) := by
  rw [chooseReplicas, Sampler.possible_bind]
  exact ⟨.ok id, h, Sampler.possible_map.mpr ⟨.ok [], rfl, rfl⟩⟩

/-- The keys `A` to `Y`. -/
def letters : List Str := (List.range 25).map fun i => [Char.ofNat (65 + i)]

/-- The first twenty-two keys have two replicas each, the next two one each;
the last one has the weight left over. -/
def hotLast (w x : ℚ) : Distribution where
  items := letters
  probabilities := List.replicate 22 (101 / 2500) ++ [w, x, 278 / 2500 - w - x]

theorem hotLast_over {w x : ℚ} (hw : 0 < w) (hx : 0 < x) (hsum : w + x < 278 / 2500) :
    DistributionOver letters (hotLast w x) where
  items := .refl _
  lengths := rfl
  positive := by
    intro p hp
    simp only [hotLast, List.mem_append, List.mem_replicate, List.mem_cons, List.not_mem_nil,
      or_false] at hp
    rcases hp with ⟨-, rfl⟩ | rfl | rfl | rfl
    · norm_num
    · exact hw
    · exact hx
    · linarith
  normalised := by
    simp only [hotLast, List.sum_append, List.sum_replicate, List.sum_cons, List.sum_nil, nsmul_eq_mul]
    ring

theorem hotLast_arguments : CallerArguments (hotLast (1 / 250) (1 / 250)) (1 / 25) (1 / 2) where
  lengths := rfl
  keys := by decide
  positive := (hotLast_over (by norm_num) (by norm_num) (by norm_num)).positive
  normalised := (hotLast_over (by norm_num) (by norm_num) (by norm_num)).normalised
  alphaBound := by norm_num [hotLast, letters]
  deltaEq := by norm_num [hotLast, letters]

def evenLetters : Distribution :=
  { items := letters, probabilities := List.replicate 25 (1 / 25) }

def tiltedLetters : Distribution :=
  { items := letters, probabilities := 2 / 25 :: List.replicate 24 (23 / 600) }

/-- A get of the first key. -/
def getFirst : Batch := getOnly ['A']

theorem evenLetters_arguments : CallerArguments evenLetters (1 / 25) (1 / 2) where
  lengths := by decide
  keys := by decide
  positive := by simp [evenLetters]
  normalised := by
    rw [evenLetters, List.sum_replicate]
    norm_num
  alphaBound := by norm_num [evenLetters, letters]
  deltaEq := by norm_num [evenLetters, letters]

theorem tiltedLetters_over : DistributionOver letters tiltedLetters where
  items := .refl _
  lengths := by decide
  positive := by
    intro p hp
    rw [tiltedLetters, List.mem_cons] at hp
    rcases hp with rfl | hp
    · norm_num
    · rw [List.eq_of_mem_replicate hp]
      norm_num
  normalised := by
    rw [tiltedLetters, List.sum_cons, List.sum_replicate]
    norm_num

end Proxy

end Pancake
