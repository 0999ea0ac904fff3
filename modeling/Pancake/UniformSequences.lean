import Pancake.LabelSequences
import Pancake.ReplicaPresence
import Pancake.UpdateSmoothing

/-!
# Uniform sequences

While no change moves a replica, a change sets the fake weights for the coin
that is tossed right after it, and every sequence of labels is equally likely.
The coin counts the entries of `key_to_frequency_`, though, and `execute_batch`
makes an entry for every key it looks up. The first fake access to the dummy
key adds one, and from then on the dummies' labels are hit too often.
-/

namespace Pancake

namespace Proxy

/-! ## While nothing moves -/

/-- The steps whose changes move no replica. -/
structure StillSteps (keys : List Str) (st : Proxy) (e : Event) (st' : Proxy) : Prop where
  taken : Advances keys st e st'
  still : ∀ d, e = .update d → st.MovesNothing d

/-- What such steps keep: the replicas and their labels, and which keys a
change enters. -/
structure Settled (keys : List Str) (st : Proxy) : Prop where
  alpha : st.alpha = 1 / keys.length
  distinct : (keys ++ [st.dummyKey]).Nodup
  labelled : st.UniquelyLabelled keys
  inRange : ∀ r, st.Live keys r → ∃ l < 2 * keys.length, st.labelOf r.1 r.2 = toString l
  total : (keys.map st.replicas).sum + st.dummyKeys = 2 * keys.length
  dummies : st.replicas st.dummyKey = st.dummyKeys
  counted : ∀ key, 0 < st.replicas key → key ∈ keys ++ [st.dummyKey]
  noMissing : ∀ key, st.missingNewReplicas.lookup key = none
  entered : ∀ key ∈ st.newKeyToFrequency, key ∈ keys

section Steps

variable {keys : List Str} {st st' : Proxy}

/-- Only the replicas and their labels matter. -/
theorem Settled.congr (h : st.Settled keys) (halpha : st'.alpha = st.alpha)
    (hkey : st'.dummyKey = st.dummyKey) (hdummies : st'.dummyKeys = st.dummyKeys)
    (hreplicas : st'.replicas = st.replicas) (hlabels : st'.labelOf = st.labelOf)
    (hmissing : st'.missingNewReplicas = st.missingNewReplicas)
    (hentered : ∀ key ∈ st'.newKeyToFrequency, key ∈ keys) : st'.Settled keys := by
  have hlive : ∀ {r}, st'.Live keys r ↔ st.Live keys r := by
    intro r
    rw [Live, Live, hkey, hreplicas]
  exact
    { alpha := halpha.trans h.alpha
      distinct := by rw [hkey]; exact h.distinct
      labelled :=
        { injective := by
            intro r r' hr hr' he
            rw [hlabels] at he
            exact h.labelled.injective r r' (hlive.mp hr) (hlive.mp hr') he
          onto := by
            intro l hl
            simp only [hlive, hlabels]
            exact h.labelled.onto l hl }
      inRange := by
        intro r hr
        rw [hlabels]
        exact h.inRange r (hlive.mp hr)
      total := by rw [hreplicas, hdummies]; exact h.total
      dummies := by rw [hreplicas, hkey, hdummies]; exact h.dummies
      counted := by rw [hreplicas, hkey]; exact h.counted
      noMissing := by rw [hmissing]; exact h.noMissing
      entered := hentered }

/-- **A batch** moves nothing. -/
theorem Settled.executes {c : Call} (h : st.Settled keys) (hc : st.Executes c st') :
    st'.Settled keys := by
  have hf := frame_executeBatchWith hc.returns
  have hm := (sameTables_executeBatchWith hc.returns).2 h.noMissing
  refine h.congr ?_ ?_ ?_ hf.replicas hf.labelOf hm ?_
  · rw [hf.rest]
  · rw [hf.rest]
  · rw [hf.rest]
  · rw [hf.rest]
    exact h.entered

/-- **A change** that moves nothing. -/
theorem Settled.updates {d : Distribution} (h : st.Settled keys) (hd : DistributionOver keys d)
    (hmoves : st.MovesNothing d) (hupdate : st.updateDistribution d = .ok st') :
    st'.Settled keys := by
  have hnd : keys.Nodup := h.distinct.of_append_left
  obtain ⟨st₁, hst₁, hlabels, hreplicas, hdummies, hmissing, hkept⟩ :=
    hmoves.updateDistribution h.total hnd h.alpha hd
  obtain rfl : st₁ = st' := Except.ok.inj (hst₁.symm.trans hupdate)
  have hr := redistributed_of_updateDistribution (hd.pairs_nodup hnd) hupdate
  refine h.congr hkept.alpha hkept.dummyKey hdummies (funext hreplicas) ?_ hmissing ?_
  · funext key i
    rw [labelOf, labelOf, hlabels]
  · intro key hkey
    rcases hr.known key hkey with hk | hk | hk
    · exact hd.mem_pairs_map_fst.mp hk
    · obtain ⟨entry, he⟩ := Finmap.mem_iff.mp hk
      rw [h.noMissing key] at he
      cases he
    · exact h.entered key hk

theorem Settled.step {e : Event} (h : st.Settled keys) (hs : StillSteps keys st e st') :
    st'.Settled keys := by
  obtain ⟨htaken, hstill⟩ := hs
  cases htaken with
  | call hc => exact h.executes hc
  | update hd hu => exact h.updates hd (hstill _ rfl) hu

end Steps

/-- After `init`, if the replicas' names are apart. -/
theorem settled_of_init {st₀ st : Proxy} {dist : Distribution} {delta : ℚ} {values : Nat → Str}
    (hfresh : st₀.Fresh) (hnew : st₀.newKeyToFrequency = ∅) (hnd : dist.items.Nodup)
    (hdist : DistributionOver dist.items dist) (hdummy : st₀.dummyKey ∉ dist.items)
    (hinit : st₀.init dist (1 / dist.items.length) delta values = .ok st)
    (hapart : NumberedNames.Apart 10 (dist.replicaCounts st₀.dummyKey)) :
    st.Settled dist.items := by
  have hargs : CallerArguments dist _ _ := hdist.callerArguments hnd rfl
  obtain ⟨values', hc⟩ := exists_created_of_init hdist.lengths hargs.keys_pos hinit
  have hlabelled : st.UniquelyLabelled dist.items :=
    (hc.uniquelyLabelled_iff hargs rfl hdummy (hfresh.takeArguments _ _ _)).mpr hapart
  have hpresent := hc.present hargs hdummy (hfresh.takeArguments _ _ _)
  have hdistinct : (dist.items ++ [st.dummyKey]).Nodup := by
    rw [List.nodup_append_comm]
    exact List.nodup_cons.mpr ⟨hpresent.dummyKey, hnd⟩
  have hnames : (st.liveNames dist.items).Nodup := by
    refine liveNames_nodup hpresent.dummies hdistinct ?_
    intro r r' hr hr' hname
    have hlabel : st.labelOf r.1 r.2 = st.labelOf r'.1 r'.2 :=
      congrArg (fun name => toString (UnorderedMap.at_ st.replicaToLabel name)) hname
    rw [hlabelled.injective r r' hr hr' hlabel]
  have hbij : st.Bijective dist.items :=
    hc.bijective hargs hdummy (hfresh.takeArguments _ _ _) hnames
  exact
    { alpha := by rw [hc.rest]
      distinct := hdistinct
      labelled := hlabelled
      inRange := by
        intro r hr
        have hlive := (mem_liveNames hpresent.dummies).mpr ⟨r, hr, rfl⟩
        exact ⟨_, hbij.bijection.mapsTo hlive, rfl⟩
      total := hbij.total
      dummies := hpresent.dummies
      counted := hpresent.known
      noMissing := fun key => by
        have hm : st.missingNewReplicas = ∅ := by rw [hc.rest]; exact hfresh.missing
        rw [hm]
        exact Finmap.lookup_empty key
      entered := (OverKeys.init hnew hinit).frequencies }

/-! ## The entries a batch makes -/

theorem mem_keyToFrequency_resolve {key : Str} (ops : List Operation) : ∀ (st : Proxy)
    (ids : List Nat), ops.length = ids.length →
    (key ∈ (st.resolve ops ids).1.keyToFrequency ↔
      key ∈ st.keyToFrequency ∨ ∃ op ∈ ops, op.key = key) := by
  induction ops with
  | nil =>
      intro st ids _
      simp [resolve]
  | cons op ops ih =>
      intro st ids hlen
      cases ids with
      | nil => simp at hlen
      | cons id ids =>
          have hrest := ih (st.lookUp op.key id) ids (by simpa using hlen)
          have htouch : key ∈ (st.lookUp op.key id).keyToFrequency ↔
              key = op.key ∨ key ∈ st.keyToFrequency := UnorderedMap.mem_touch
          show key ∈ ((st.lookUp op.key id).resolve ops ids).1.keyToFrequency ↔ _
          rw [hrest, htouch]
          simp only [List.mem_cons, exists_eq_or_imp]
          tauto

/-- **A batch** makes an entry for every key it looks up. -/
theorem mem_keyToFrequency_executes {st st' : Proxy} {c : Call} {key : Str}
    (hc : st.Executes c st') : key ∈ st'.keyToFrequency ↔
      key ∈ st.keyToFrequency ∨ ∃ op ∈ c.batch.operations, op.key = key := by
  have hlen := (samples_of_chooseReplicas hc.drawn).length_eq
  have htables := (sameTables_executeBatchWith hc.returns).1
  rw [← mem_keyToFrequency_resolve c.batch.operations st c.replicaIds hlen, htables]

/-- Some batches. -/
theorem mem_keyToFrequency_run {st st' : Proxy} {calls : List Call} {key : Str}
    (hrun : Run Executes st calls st') : key ∈ st'.keyToFrequency ↔
      key ∈ st.keyToFrequency ∨ ∃ c ∈ calls, ∃ op ∈ c.batch.operations, op.key = key := by
  induction hrun with
  | nil => simp
  | snoc _ hc ih =>
      rw [mem_keyToFrequency_executes hc, ih]
      simp only [List.mem_append, List.mem_singleton]
      constructor
      · rintro ((hold | ⟨c, hc, hop⟩) | hop)
        · exact .inl hold
        · exact .inr ⟨c, .inl hc, hop⟩
        · exact .inr ⟨_, .inr rfl, hop⟩
      · rintro (hold | ⟨c, hc | rfl, hop⟩)
        · exact .inl (.inl hold)
        · exact .inl (.inr ⟨c, hc, hop⟩)
        · exact .inr hop

/-- A key looked up has a replica. -/
theorem replicas_pos_of_run {st st' : Proxy} {calls : List Call}
    (hrun : Run Executes st calls st') : ∀ c ∈ calls, ∀ op ∈ c.batch.operations, 0 < st'.replicas op.key := by
  induction hrun with
  | nil => simp
  | snoc _ hc ih =>
      rw [(frame_executeBatchWith hc.returns).replicas]
      intro c' hc' op hop
      rcases List.mem_append.mp hc' with hc' | hc'
      · exact ih c' hc' op hop
      · obtain rfl := List.mem_singleton.mp hc'
        obtain ⟨real, id, hs⟩ : ∃ real id, Samples _ op.key real id := by
          obtain ⟨i, hi, rfl⟩ := List.mem_iff_getElem.mp hop
          have hsamples := samples_of_chooseReplicas hc.drawn
          obtain ⟨real, hs⟩ := hsamples.get hi (hsamples.length_eq ▸ hi)
          exact ⟨real, _, hs⟩
        exact Nat.zero_lt_of_lt (UpdateCache.lt_of_possible_sampleAReplica hs)

theorem frame_run {st st' : Proxy} {calls : List Call} (hrun : Run Executes st calls st') :
    Frame st st' :=
  hrun.invariant (I := fun _ st' => Frame st st') (.refl st) fun _ hf hc =>
    hf.trans (frame_executeBatchWith hc.returns)

/-- The entries are still the keys as long as no batch has made one for the
dummy key. -/
theorem card_entries_iff {keys : List Str} {st st' : Proxy} {calls : List Call}
    (h' : st'.Settled keys) (hcalls : Run Executes st calls st')
    (hkeys : ∀ key, key ∈ st.keyToFrequency ↔ key ∈ keys) :
    st'.keyToFrequency.keys.card = keys.length ↔
      ∀ c ∈ calls, ∀ op ∈ c.batch.operations, op.key ≠ st'.dummyKey := by
  have hcount : keys.toFinset.card = keys.length :=
    List.toFinset_card_of_nodup h'.distinct.of_append_left
  have hentries : ∀ key ∈ keys, key ∈ st'.keyToFrequency := fun key hkey =>
    (mem_keyToFrequency_run hcalls).mpr (.inl ((hkeys key).mpr hkey))
  constructor
  · intro hcard c hc op hop hkey
    have hsubset : keys.toFinset ⊆ st'.keyToFrequency.keys := fun key hk =>
      Finmap.mem_keys.mpr (hentries key (List.mem_toFinset.mp hk))
    have heq := Finset.eq_of_subset_of_card_le hsubset (by rw [hcard, hcount])
    have hentry := (mem_keyToFrequency_run hcalls).mpr (.inr ⟨c, hc, op, hop, hkey⟩)
    rw [← Finmap.mem_keys, ← heq, List.mem_toFinset] at hentry
    exact (List.nodup_append.mp h'.distinct).2.2 _ hentry _ (List.mem_singleton_self _) rfl
  · intro hnone
    rw [← hcount]
    congr 1
    ext key
    rw [Finmap.mem_keys, List.mem_toFinset]
    refine ⟨fun hentry => ?_, hentries key⟩
    rcases (mem_keyToFrequency_run hcalls).mp hentry with hold | ⟨c, hc, op, hop, rfl⟩
    · exact (hkeys key).mp hold
    · have hpos := replicas_pos_of_run hcalls c hc op hop
      rcases List.mem_append.mp (h'.counted _ hpos) with hk | hk
      · exact hk
      · exact absurd (List.mem_singleton.mp hk) (hnone c hc op hop)

/-! ## A slot after a change and some batches -/

/-- A coin tossed for `m` keys where there are `n`. -/
theorem lt_mix_of_lt {n m M k : ℚ} (hn : 0 ≤ n) (hpos : 0 < 2 * n * M - 1) (hlt : n < m)
    (hk : k ≠ 0) : 1 / (2 * n) < (1 - 1 / (2 * M * m)) * (k * M / ((2 * n * M - 1) * k)) := by
  have hn' : 0 < n := by
    rcases hn.lt_or_eq with h | h
    · exact h
    · rw [← h] at hpos
      linarith
  have hM : 0 < M := by
    by_contra hneg
    nlinarith
  have hm : 0 < m := hn'.trans hlt
  have hS : 2 * n * M - 1 ≠ 0 := hpos.ne'
  have hmix : (1 - 1 / (2 * M * m)) * (k * M / ((2 * n * M - 1) * k))
      = (2 * M * m - 1) / (2 * m * (2 * n * M - 1)) := by
    field_simp
  rw [hmix, div_lt_div_iff₀ (by positivity) (by positivity)]
  linarith

section After

variable {keys : List Str} {d : Distribution} {st st' : Proxy} (hd : DistributionOver keys d)
  (hr : Resmoothed d st) (hf : Frame st st') (h : st'.Settled keys)
include hd hr hf h

omit hd h in
theorem real_after : st'.realDistribution = d := by
  rw [hf.rest]
  exact hr.real

omit hd h in
theorem fake_after : st'.fakeDistribution =
    { items := d.items ++ [st'.dummyKey]
      probabilities := (d.pairs.map fun item => (st'.replicas item.1 : ℚ) * st'.pMax - item.2)
        ++ [st'.dummyKeys * st'.pMax] } := by
  rw [hf.replicas, show st'.fakeDistribution = st.fakeDistribution by rw [hf.rest], hr.fake,
    show st'.dummyKey = st.dummyKey by rw [hf.rest], show st'.pMax = st.pMax by rw [hf.rest],
    show st'.dummyKeys = st.dummyKeys by rw [hf.rest]]

omit hd h in
theorem total_after : st'.fakeDistribution.probabilities.sum = 2 * d.items.length * st'.pMax - 1 ∧
    0 < 2 * d.items.length * st'.pMax - 1 := by
  rw [show st'.fakeDistribution = st.fakeDistribution by rw [hf.rest],
    show st'.pMax = st.pMax by rw [hf.rest]]
  exact hr.total

omit hr hf in
/-- A key of either distribution hits the label of its own replicas only. -/
theorem hits_known {r : Str × Nat} (hlive : st'.Live keys r) {k : Str}
    (hk : k ∈ d.items ++ [st'.dummyKey]) : st'.hits k (st'.labelOf r.1 r.2)
      = if k = r.1 then 1 / (st'.replicas r.1 : ℚ) else 0 :=
  hits_eq h.labelled hlive ((hd.items.append_right [st'.dummyKey]).mem_iff.mp hk)

/-- **A replica of a key**: what a real and a fake access hit it with. -/
theorem drawHits_key {r : Str × Nat} (hlive : st'.Live keys r) (hkey : r.1 ∈ keys) :
    ∃ p, (r.1, p) ∈ d.pairs ∧
      st'.drawHits st'.realDistribution (st'.labelOf r.1 r.2) = p / st'.replicas r.1 ∧
      st'.drawHits st'.fakeDistribution (st'.labelOf r.1 r.2)
        = (st'.replicas r.1 * st'.pMax - p) /
          (st'.fakeDistribution.probabilities.sum * st'.replicas r.1) := by
  have hnd : (d.items ++ [st'.dummyKey]).Nodup :=
    (hd.items.append_right [st'.dummyKey]).nodup_iff.mpr h.distinct
  have hhits := fun k hk => hits_known hd h hlive (k := k) hk
  obtain ⟨j, hj⟩ := List.mem_iff_getElem?.mp (hd.items.mem_iff.mpr hkey)
  have hlt : j < d.items.length := (List.getElem?_eq_some_iff.mp hj).1
  have hpair : d.pairs[j]? = some (r.1, d.probabilities.getD j 0) := by
    rw [Distribution.pairs, List.getElem?_zip_eq_some]
    refine ⟨hj, ?_⟩
    rw [List.getD_eq_getElem?_getD, List.getElem?_eq_getElem (hd.lengths ▸ hlt), Option.getD_some]
  refine ⟨_, List.mem_of_getElem? hpair, ?_, ?_⟩
  · rw [real_after hr hf, drawHits_eq hd.lengths hnd.of_append_left hj
      fun k hk => hhits k (List.mem_append_left _ hk), hd.normalised]
    ring
  · have hfake := fake_after hr hf
    have hitems : st'.fakeDistribution.items = d.items ++ [st'.dummyKey] := by rw [hfake]
    have hlengths : st'.fakeDistribution.items.length
        = st'.fakeDistribution.probabilities.length := by
      rw [hfake]
      simp [Distribution.pairs, hd.lengths]
    have hweight : st'.fakeDistribution.probabilities.getD j 0
        = st'.replicas r.1 * st'.pMax - d.probabilities.getD j 0 := by
      have hlt' : j < (d.pairs.map fun item =>
          (st'.replicas item.1 : ℚ) * st'.pMax - item.2).length := by
        rw [List.length_map]
        exact (List.getElem?_eq_some_iff.mp hpair).1
      rw [hfake, List.getD_eq_getElem?_getD, List.getElem?_append_left hlt', List.getElem?_map,
        hpair]
      rfl
    rw [drawHits_eq hlengths (by rw [hitems]; exact hnd)
      (by rw [hitems, List.getElem?_append_left hlt]; exact hj) (by rw [hitems]; exact hhits),
      hweight]
    rw [mul_one_div, div_div, mul_comm (st'.replicas r.1 : ℚ) (List.sum _)]

/-- **A dummy**: only fake accesses hit it. -/
theorem drawHits_dummy {i : Nat} (hlive : st'.Live keys (st'.dummyKey, i)) :
    st'.drawHits st'.realDistribution (st'.labelOf st'.dummyKey i) = 0 ∧
      st'.drawHits st'.fakeDistribution (st'.labelOf st'.dummyKey i)
        = st'.dummyKeys * st'.pMax /
          (st'.fakeDistribution.probabilities.sum * st'.dummyKeys) := by
  have hnd : (d.items ++ [st'.dummyKey]).Nodup :=
    (hd.items.append_right [st'.dummyKey]).nodup_iff.mpr h.distinct
  have hhits := fun k hk => hits_known hd h hlive (k := k) hk
  constructor
  · rw [real_after hr hf]
    refine drawHits_eq_zero hd.lengths fun k hk => ?_
    rw [hhits k (List.mem_append_left _ hk), if_neg]
    intro he
    exact (List.nodup_append.mp hnd).2.2 k hk st'.dummyKey (List.mem_singleton_self _) he
  · have hfake := fake_after hr hf
    have hitems : st'.fakeDistribution.items = d.items ++ [st'.dummyKey] := by rw [hfake]
    have hlen : (d.pairs.map fun item => (st'.replicas item.1 : ℚ) * st'.pMax - item.2).length
        = d.items.length := by
      simp [Distribution.pairs, hd.lengths]
    have hlengths : st'.fakeDistribution.items.length
        = st'.fakeDistribution.probabilities.length := by
      rw [hfake]
      simp [hlen]
    have hweight : st'.fakeDistribution.probabilities.getD d.items.length 0
        = st'.dummyKeys * st'.pMax := by
      rw [hfake, List.getD_eq_getElem?_getD,
        List.getElem?_append_right (by rw [hlen]), hlen, Nat.sub_self]
      rfl
    have hj : st'.fakeDistribution.items[d.items.length]? = some st'.dummyKey := by
      rw [hitems, List.getElem?_append_right le_rfl, Nat.sub_self]
      rfl
    rw [drawHits_eq hlengths (by rw [hitems]; exact hnd) hj (by rw [hitems]; exact hhits),
      hweight, h.dummies]
    rw [mul_one_div, div_div, mul_comm (st'.dummyKeys : ℚ) (List.sum _)]

/-- The coin's weight, by the entries there are. -/
theorem coin_after (hentries : ∀ key ∈ keys, key ∈ st'.keyToFrequency) :
    st'.isTrueDistribution
        = .coin (1 / (2 * st'.pMax * st'.keyToFrequency.keys.card)) .done ∧
      (keys.length : ℚ) ≤ st'.keyToFrequency.keys.card ∧
      Sampler.clamp (1 / (2 * st'.pMax * st'.keyToFrequency.keys.card))
        = 1 / (2 * st'.pMax * st'.keyToFrequency.keys.card) := by
  have hcard : keys.length ≤ st'.keyToFrequency.keys.card := by
    rw [← List.toFinset_card_of_nodup h.distinct.of_append_left]
    refine Finset.card_le_card fun key hkey => ?_
    exact Finmap.mem_keys.mpr (hentries key (List.mem_toFinset.mp hkey))
  have hle : (keys.length : ℚ) ≤ st'.keyToFrequency.keys.card := by exact_mod_cast hcard
  obtain ⟨-, hpos⟩ := total_after hr hf
  rw [hd.length_eq] at hpos
  have hpMax : 0 < st'.pMax := by
    by_contra hneg
    have hn : (0 : ℚ) ≤ keys.length := Nat.cast_nonneg _
    nlinarith
  have hbig : 1 ≤ 2 * st'.pMax * st'.keyToFrequency.keys.card := by nlinarith
  refine ⟨?_, hle, ?_⟩
  · rw [isTrueDistribution, divide, if_pos (by linarith)]
    rfl
  · apply Sampler.clamp_of_mem
    · exact div_nonneg zero_le_one (by linarith)
    · rw [div_le_one (by linarith)]
      exact hbig

/-- **The right coin**: one slot hits every label with probability `1/(2n)`. -/
theorem slot_even (hcard : st'.keyToFrequency.keys.card = keys.length) {l : Nat}
    (hl : l < 2 * keys.length) :
    1 / (2 * st'.pMax * st'.keyToFrequency.keys.card) *
        st'.drawHits st'.realDistribution (toString l) +
      (1 - 1 / (2 * st'.pMax * st'.keyToFrequency.keys.card)) *
        st'.drawHits st'.fakeDistribution (toString l) = 1 / (2 * keys.length) := by
  obtain ⟨r, ⟨hlive, hlabel⟩, -⟩ := h.labelled.onto l hl
  have hpMax : st'.pMax = st.pMax := by rw [hf.rest]
  have hfake : st'.fakeDistribution = st.fakeDistribution := by rw [hf.rest]
  have hdummies : st'.dummyKeys = st.dummyKeys := by rw [hf.rest]
  rw [hcard, ← hlabel, ← hd.length_eq]
  rcases List.mem_append.mp hlive.1 with hkey | hdummy
  · obtain ⟨p, hp, hreal, hfakes⟩ := drawHits_key hd hr hf h hlive hkey
    have hflat := hr.flat _ hp
    rw [hreal, hfakes, ← hflat, hf.replicas, hpMax, hfake]
    ring
  · obtain ⟨key, i⟩ := r
    obtain rfl : key = st'.dummyKey := List.mem_singleton.mp hdummy
    obtain ⟨hreal, hfakes⟩ := drawHits_dummy hd hr hf h hlive
    rw [hreal, hfakes, ← hr.flatDummy, hpMax, hfake, hdummies]
    ring

/-- **A coin for more entries**: the dummies are hit too often. -/
theorem slot_uneven (hentries : ∀ key ∈ keys, key ∈ st'.keyToFrequency)
    (hcard : st'.keyToFrequency.keys.card ≠ keys.length) {i : Nat}
    (hlive : st'.Live keys (st'.dummyKey, i)) :
    1 / (2 * keys.length) < 1 / (2 * st'.pMax * st'.keyToFrequency.keys.card) *
        st'.drawHits st'.realDistribution (st'.labelOf st'.dummyKey i) +
      (1 - 1 / (2 * st'.pMax * st'.keyToFrequency.keys.card)) *
        st'.drawHits st'.fakeDistribution (st'.labelOf st'.dummyKey i) := by
  obtain ⟨-, hle, -⟩ := coin_after hd hr hf h hentries
  obtain ⟨hreal, hfakes⟩ := drawHits_dummy hd hr hf h hlive
  obtain ⟨hsum, hpos⟩ := total_after hr hf
  rw [hd.length_eq] at hsum hpos
  have hdummies : (st'.dummyKeys : ℚ) ≠ 0 := by
    have hi : i < st'.dummyKeys := by
      rw [← h.dummies]
      exact hlive.2
    exact_mod_cast (by omega : st'.dummyKeys ≠ 0)
  have hlt : (keys.length : ℚ) < st'.keyToFrequency.keys.card :=
    lt_of_le_of_ne hle fun he => hcard (by exact_mod_cast he.symm)
  rw [hreal, hfakes, hsum, mul_zero, zero_add]
  exact lt_mix_of_lt (Nat.cast_nonneg _) hpos hlt hdummies

end After

/-- All sequences of labels are equally likely, whatever clients wait and
arrive. -/
def UniformSequences (st : Proxy) (d : Distribution) (n : Nat) : Prop :=
  ∀ (waiting : List (Str × Promise)) (arriving : List (List (Str × Promise))) (labels : List Nat),
    (∀ l ∈ labels, l < 2 * n) →
    ((drawnQueue d waiting arriving).bind (st.slotLabels labels.length)).prob
      (· = .ok (labels.map toString)) = (1 / (2 * n : ℚ)) ^ labels.length

/-- **When the labels are uniform**: after any run in which no change moves a
replica, a change that moves none, and some batches, all sequences of labels
are equally likely exactly when none of those batches has accessed the dummy
key. -/
theorem uniformSequences_iff {st₀ st st₁ st₂ st' : Proxy} {dist d : Distribution} {delta : ℚ}
    {values : Nat → Str} {events : List Event} {calls : List Call} (hfresh : st₀.Fresh)
    (hnew : st₀.newKeyToFrequency = ∅) (hnd : dist.items.Nodup)
    (hdist : DistributionOver dist.items dist) (hdummy : st₀.dummyKey ∉ dist.items)
    (hinit : st₀.init dist (1 / dist.items.length) delta values = .ok st)
    (hapart : NumberedNames.Apart 10 (dist.replicaCounts st₀.dummyKey))
    (hrun : Run (StillSteps dist.items) st events st₁)
    (hchange : StillSteps dist.items st₁ (.update d) st₂) (hcalls : Run Executes st₂ calls st') :
    st'.UniformSequences d dist.items.length ↔
      ∀ c ∈ calls, ∀ op ∈ c.batch.operations, op.key ≠ st'.dummyKey := by
  have hstart := settled_of_init hfresh hnew hnd hdist hdummy hinit hapart
  have h₁ : st₁.Settled dist.items :=
    hrun.invariant (I := fun _ st => st.Settled dist.items) hstart fun _ h hs => h.step hs
  have h₂ := h₁.step hchange
  have h' : st'.Settled dist.items :=
    hcalls.invariant (I := fun _ st => st.Settled dist.items) h₂ fun _ h hc => h.executes hc
  have hf := frame_run hcalls
  -- the change has set the weights, and entered the keys
  obtain ⟨htaken, -⟩ := hchange
  obtain ⟨hd, hupdate⟩ : DistributionOver dist.items d ∧ st₁.updateDistribution d = .ok st₂ := by
    cases htaken with
    | update hd hu => exact ⟨hd, hu⟩
  have hredistributed := redistributed_of_updateDistribution (hd.pairs_nodup hnd) hupdate
  have hr := hredistributed.resmoothed hd hnd h₁.alpha h₂.entered
  have hkeys : ∀ key, key ∈ st₂.keyToFrequency ↔ key ∈ dist.items := by
    intro key
    rw [hredistributed.frequencies]
    constructor
    · exact h₂.entered key
    · intro hkey
      exact hredistributed.entered key (hd.mem_pairs_map_fst.mpr hkey)
  have hentries : ∀ key ∈ dist.items, key ∈ st'.keyToFrequency := fun key hkey =>
    (mem_keyToFrequency_run hcalls).mpr (.inl ((hkeys key).mpr hkey))
  have hcard := card_entries_iff h' hcalls hkeys
  rw [← hcard]
  obtain ⟨hcoin, -, hclamp⟩ := coin_after hd hr hf h' hentries
  have hreal := real_after hr hf
  constructor
  · intro huniform
    by_contra hne
    have hlive : st'.Live dist.items (st'.dummyKey, 0) := by
      have hfewer := hd.sum_replicaCount hnd h₁.alpha
      have hdummies : st'.dummyKeys = st₁.newDummyKeys d := by
        rw [show st'.dummyKeys = st₂.dummyKeys by rw [hf.rest], hredistributed.dummyKeys]
      refine ⟨List.mem_append_right _ (List.mem_singleton_self _), ?_⟩
      show 0 < st'.replicas st'.dummyKey
      rw [h'.dummies, hdummies, newDummyKeys]
      omega
    obtain ⟨l, hl, hlabel⟩ := h'.inRange _ hlive
    have huneven := slot_uneven hd hr hf h' hentries hne hlive
    have hprob := huniform [] [] [l] (by simpa using hl)
    have hslot := prob_slotLabels h'.noMissing hcoin (by rw [hreal]; exact hd.normalised)
      (fun l' (hl' : l' ∈ [toString l]) => by rw [List.mem_singleton.mp hl']) [] []
    rw [hreal, hclamp] at hslot
    rw [hlabel, hreal] at huneven
    have hpow := hslot.symm.trans hprob
    rw [List.length_singleton, List.length_singleton, pow_one, pow_one] at hpow
    linarith
  · intro hcard waiting arriving labels hlabels
    have hslots : ((drawnQueue st'.realDistribution waiting arriving).bind
        (st'.slotLabels (labels.map toString).length)).prob (· = .ok (labels.map toString))
          = (1 / (2 * dist.items.length : ℚ)) ^ (labels.map toString).length := by
      refine prob_slotLabels h'.noMissing hcoin (by rw [hreal]; exact hd.normalised) ?_ _ _
      intro label hlabel
      obtain ⟨l, hl, rfl⟩ := List.mem_map.mp hlabel
      rw [hclamp]
      exact slot_even hd hr hf h' hcard (hlabels l hl)
    rw [hreal, List.length_map] at hslots
    exact hslots

/-- A fake access to the dummy key. -/
def dummyAccess : Batch := ⟨[⟨['d'], []⟩], [false], []⟩

/-- The same distribution again, a get, and a fake access to the dummy key. -/
def dummyRun : Except Fault (Proxy × Proxy × (Proxy × List (Promise × Str)) ×
    (Proxy × List (Promise × Str))) := do
  let st ← blank.init evenKeys (1 / evenKeys.items.length) (1 / 2) firstStrings
  let st₂ ← st.updateDistribution evenKeys
  let s ← st₂.executeBatchWith (getOnly ['j']) [0]
  let s' ← s.1.executeBatchWith dummyAccess [0]
  .ok (st, st₂, s, s')

/-- In that run the labels are uniform before the fake access and not after it. -/
theorem uniformSequences_iff_evenKeys :
    ∃ st st₂ s s', blank.init evenKeys (1 / evenKeys.items.length) (1 / 2) firstStrings = .ok st ∧
      StillSteps evenKeys.items st (.update evenKeys) st₂ ∧
      Run Executes st₂ [⟨getOnly ['j'], [0], [(0, ['a'])]⟩] s ∧
      s.Executes ⟨dummyAccess, [0], []⟩ s' ∧
      s.UniformSequences evenKeys evenKeys.items.length ∧
      ¬ s'.UniformSequences evenKeys evenKeys.items.length := by
  obtain ⟨r, hruns, hcounts, hmissing, ⟨hnone, hnone'⟩, ⟨hj, hd⟩, ⟨hkey, hkey'⟩, hanswers⟩ :
      ∃ r, dummyRun = .ok r ∧
      (∀ item ∈ evenKeys.pairs, replicaCount r.1.alpha item.2 = r.1.replicas item.1) ∧
      r.1.missingNewReplicas = ∅ ∧
      (r.2.1.missingNewReplicas.lookup ['j'] = none ∧
        r.2.2.1.1.missingNewReplicas.lookup ['d'] = none) ∧
      (r.2.1.replicas ['j'] = 1 ∧ r.2.2.1.1.replicas ['d'] = 2) ∧
      (r.2.2.1.1.dummyKey = ['d'] ∧ r.2.2.2.1.dummyKey = ['d']) ∧
      (r.2.2.1.2, r.2.2.2.2) = ([(0, ['a'])], []) := exists_ok_of_decide (by decide +kernel)
  simp only [dummyRun, bind_eq_ok] at hruns
  obtain ⟨st, hinit, st₂, hupdate, ⟨s, fulfilled⟩, hget, ⟨s', fulfilled'⟩, hfake, hr⟩ := hruns
  cases hr
  cases hanswers
  have hchange : StillSteps evenKeys.items st (.update evenKeys) st₂ := by
    refine ⟨.update evenKeys_over hupdate, ?_⟩
    intro d hd
    cases hd
    refine ⟨hcounts, fun key entry he => ?_⟩
    rw [show st.missingNewReplicas = ∅ from hmissing, Finmap.lookup_empty] at he
    cases he
  have hcall : st₂.Executes ⟨getOnly ['j'], [0], [(0, ['a'])]⟩ s := by
    refine ⟨possible_chooseReplicas_single ?_, hget⟩
    exact (UpdateCache.possible_sampleAReplica_of_none hnone).mpr (by rw [hj]; decide)
  have hcall' : s.Executes ⟨dummyAccess, [0], []⟩ s' := by
    refine ⟨possible_chooseReplicas_single ?_, hfake⟩
    exact (UpdateCache.possible_sampleAReplica_of_none hnone').mpr (by rw [hd]; decide)
  have hapart : NumberedNames.Apart 10 (evenKeys.replicaCounts ['d']) := by
    -- no key has ten replicas
    have hfew : ∀ x ∈ evenKeys.replicaCounts ['d'], x.2 ≤ 10 := by decide +kernel
    intro x hx y hy q hq hname
    have := hfew x hx
    omega
  have hiff := fun {calls s} (hcalls : Run Executes st₂ calls s) =>
    uniformSequences_iff ⟨rfl, rfl, rfl, rfl⟩ rfl (by decide) evenKeys_over (by decide) hinit
      hapart .nil hchange hcalls
  refine ⟨st, st₂, s, s', hinit, hchange, .single hcall, hcall', (hiff (.single hcall)).mpr ?_,
    fun huniform => ?_⟩
  · intro c hc op hop
    obtain rfl := List.mem_singleton.mp hc
    obtain rfl := List.mem_singleton.mp hop
    rw [hkey]
    decide
  · have hnone := (hiff (.snoc (.single hcall) hcall')).mp huniform
    exact hnone ⟨dummyAccess, [0], []⟩ (by simp) ⟨['d'], []⟩ (by simp [dummyAccess]) hkey'.symm

end Proxy

end Pancake
