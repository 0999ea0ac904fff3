import Pancake.CreateReplicas

/-!
# The invariant of a static distribution

`Sound`: a call returns. `Consistent st cur`: moreover, every live replica of every key either has the key's
current value pending or stores it, under a label of its own. The state
`create_replicas` leaves is consistent for the initial values, and a batch
whose labels are pairwise distinct keeps it so for the values it puts.
-/

namespace Pancake

open LazyReplicas

namespace Proxy

/-- All a call needs of the state in order to return: a bit for every
replica, none missing, every live replica readable, every pending value fit
to be encrypted. -/
structure Sound (st : Proxy) : Prop where
  fits : st.updateCache.Fits st.replicas
  noMissing : ∀ key, st.missingNewReplicas.lookup key = none
  readable : ∀ key i, i < st.replicas key →
    Readable st.encryptionEngine st.storage.contents (st.labelOf key i)
  values : st.ValuesRoundTrip []

/-- The state is consistent with `cur`, the current value of every key. -/
structure Consistent (st : Proxy) (cur : Str → Str) : Prop extends Sound st where
  distinct : DistinctLabels st.replicas st.labelOf
  coherent : Coherent st.replicas st.labelOf cur st.updateCache.waiting st.plain

/-- Replica `i` of `key` has `v` pending, or `v` stored under its label. -/
def ReplicaHolds (st : Proxy) (key : Str) (i : Nat) (v : Str) : Prop :=
  (∃ bitVec, st.updateCache.lookup key = some (v, bitVec) ∧ bitVec[i]? = some true) ∨
  ∃ c, st.storage.contents.lookup (st.labelOf key i) = some c ∧
    st.encryptionEngine.decrypt c = .ok v

theorem Consistent.replicaHolds {st : Proxy} {cur : Str → Str} (h : st.Consistent cur) {key : Str}
    {i : Nat} (hi : i < st.replicas key) : st.ReplicaHolds key i (cur key) := by
  rcases h.coherent key i hi with hw | ⟨-, hs⟩
  · obtain ⟨-, bitVec, hl, hb⟩ := UpdateCache.waiting_eq_some.mp hw
    exact .inl ⟨bitVec, hl, hb⟩
  · obtain ⟨c, x, hc, hx, -⟩ := h.readable key i hi
    refine .inr ⟨c, hc, ?_⟩
    rw [hx, ← hs, Proxy.plain, plainText, hc]
    simp [hx]

/-! ## After `create_replicas` -/

/-- Nothing has been created yet. -/
structure Fresh (st : Proxy) : Prop where
  labelCount : st.labelCount = 0
  counts : st.keyToNumberOfReplicas = ∅
  labels : st.replicaToLabel = ∅
  missing : st.missingNewReplicas = ∅

theorem Fresh.takeArguments {st : Proxy} (h : st.Fresh) (dist : Distribution) (alpha delta : ℚ) :
    (st.takeArguments dist alpha delta).Fresh :=
  ⟨h.labelCount, h.counts, h.labels, h.missing⟩

/-- Live replicas of different keys have different names. -/
def DistinctNames (st : Proxy) : Prop :=
  ∀ k i k' i', i < st.replicas k → i' < st.replicas k' →
    replicaName k i = replicaName k' i' → k = k'

/-- The random string a key's replicas start with. -/
def initialValue (items : List Str) (dummyKey : Str) (values : Nat → Str) (key : Str) : Str :=
  values ((items ++ [dummyKey]).idxOf key)

theorem keyBlocks_map_key (alpha : ℚ) (values : Nat → Str) (items : List (Str × ℚ)) (index : Nat) :
    (keyBlocks alpha values index items).map Block.key = items.map Prod.fst := by
  induction items generalizing index with
  | nil => rfl
  | cons item items ih => simp [keyBlocks, ih]

/-- The block of the `j`-th key has the `j`-th random string. -/
theorem value_of_mem_keyBlocks {alpha : ℚ} {values : Nat → Str} {items : List (Str × ℚ)}
    {index : Nat} {b : Block} (hnd : (items.map Prod.fst).Nodup)
    (hb : b ∈ keyBlocks alpha values index items) :
    b.value = values (index + (items.map Prod.fst).idxOf b.key) := by
  induction items generalizing index with
  | nil => simp [keyBlocks] at hb
  | cons item items ih =>
      rw [List.map_cons, List.nodup_cons] at hnd
      rw [keyBlocks, List.mem_cons] at hb
      rcases hb with rfl | hb
      · simp
      · have hmem : b.key ∈ items.map Prod.fst := by
          rw [← keyBlocks_map_key alpha values items (index + 1)]
          exact List.mem_map_of_mem hb
        have hne : item.1 ≠ b.key := fun hc => hnd.1 (hc ▸ hmem)
        rw [ih hnd.2 hb, List.map_cons, List.idxOf_cons_ne _ hne]
        congr 1
        omega

/-- The keys of the distribution, in order. -/
theorem pairs_map_fst {d : Distribution} (h : d.items.length = d.probabilities.length) :
    d.pairs.map Prod.fst = d.items :=
  List.map_fst_zip h.le

theorem allBlocks_keys_sublist {st : Proxy} (values : Nat → Str)
    (hlen : st.realDistribution.items.length = st.realDistribution.probabilities.length) :
    ((st.allBlocks values).map Block.key).Sublist
      (st.realDistribution.items ++ [st.dummyKey]) := by
  rw [allBlocks, List.map_append, keyBlocks_map_key, pairs_map_fst hlen, dummyBlocks]
  refine List.Sublist.append (List.Sublist.refl _) ?_
  split
  · simp
  · simp

/-- Every block starts with its key's initial value. -/
theorem value_of_mem_allBlocks {st : Proxy} {values : Nat → Str}
    (hlen : st.realDistribution.items.length = st.realDistribution.probabilities.length)
    (hkeys : (st.realDistribution.items ++ [st.dummyKey]).Nodup) {b : Block}
    (hb : b ∈ st.allBlocks values) :
    b.value = initialValue st.realDistribution.items st.dummyKey values b.key := by
  have hnd := (List.nodup_append.mp hkeys).1
  rw [allBlocks, List.mem_append] at hb
  rcases hb with hb | hb
  · have hmem : b.key ∈ st.realDistribution.items := by
      rw [← pairs_map_fst hlen, ← keyBlocks_map_key st.alpha values _ 0]
      exact List.mem_map_of_mem hb
    rw [value_of_mem_keyBlocks (by rwa [pairs_map_fst hlen]) hb, pairs_map_fst hlen, initialValue,
      List.idxOf_append_of_mem hmem, Nat.zero_add]
  · rw [dummyBlocks] at hb
    split at hb
    · simp at hb
    · rw [List.mem_singleton] at hb
      subst hb
      have hnot : st.dummyKey ∉ st.realDistribution.items := fun hc =>
        (List.nodup_append.mp hkeys).2.2 _ hc _ (by simp) rfl
      rw [initialValue, List.idxOf_append_of_notMem hnot]
      simp [Distribution.pairs, hlen]

theorem lookup_insertCounts_of_notMem {m : UnorderedMap Nat} {blocks : List Block} {k : Str}
    (h : k ∉ blocks.map Block.key) : (insertCounts m blocks).lookup k = m.lookup k := by
  induction blocks generalizing m with
  | nil => rfl
  | cons b blocks ih =>
      simp only [List.map_cons, List.mem_cons, not_or] at h
      rw [show insertCounts m (b :: blocks) = insertCounts (m.insert b.key b.count) blocks from rfl,
        ih h.2, Finmap.lookup_insert_of_ne _ h.1]

/-- Blocks of distinct keys record their counts. -/
theorem lookup_insertCounts {m : UnorderedMap Nat} {blocks : List Block}
    (hnd : (blocks.map Block.key).Nodup) {b : Block} (hb : b ∈ blocks) :
    (insertCounts m blocks).lookup b.key = some b.count := by
  induction blocks generalizing m with
  | nil => simp at hb
  | cons b' blocks ih =>
      rw [List.map_cons, List.nodup_cons] at hnd
      rw [show insertCounts m (b' :: blocks)
        = insertCounts (m.insert b'.key b'.count) blocks from rfl]
      rcases List.mem_cons.mp hb with rfl | hb
      · rw [lookup_insertCounts_of_notMem hnd.1, Finmap.lookup_insert]
      · exact ih hnd.2 hb

/-- A count is an old one or that of a block. -/
theorem lookup_insertCounts_cases {m : UnorderedMap Nat} {blocks : List Block} {k : Str} {n : Nat}
    (h : (insertCounts m blocks).lookup k = some n) :
    m.lookup k = some n ∨ ∃ b ∈ blocks, b.key = k ∧ b.count = n := by
  induction blocks generalizing m with
  | nil => exact .inl h
  | cons b blocks ih =>
      rcases ih (m := m.insert b.key b.count) h with hm | ⟨c, hc, hk⟩
      · by_cases hk : k = b.key
        · subst hk
          rw [Finmap.lookup_insert] at hm
          exact .inr ⟨b, by simp, rfl, Option.some.inj hm⟩
        · rw [Finmap.lookup_insert_of_ne _ hk] at hm
          exact .inl hm
      · exact .inr ⟨c, by simp [hc], hk⟩

theorem mem_insertCounts {m : UnorderedMap Nat} {blocks : List Block} {k : Str}
    (h : k ∈ m ∨ k ∈ blocks.map Block.key) : k ∈ insertCounts m blocks := by
  induction blocks generalizing m with
  | nil => simpa [insertCounts] using h
  | cons b blocks ih =>
      refine ih (m := m.insert b.key b.count) ?_
      rw [List.map_cons, List.mem_cons] at h
      rw [Finmap.mem_insert]
      rcases h with h | h | h
      · exact .inl (.inr h)
      · exact .inl (.inl h)
      · exact .inr h

/-- The initial cache has one clear bit for every replica recorded. -/
theorem lookup_ofPairs_blocks (blocks : List Block) (k : Str) :
    (UpdateCache.ofPairs (blocks.map fun b => (b.key, b.count))).lookup k
      = ((insertCounts ∅ blocks).lookup k).map fun n => ([], List.replicate n false) := by
  induction blocks using List.reverseRecOn with
  | nil => simp [UpdateCache.ofPairs, insertCounts]
  | append_singleton blocks b ih =>
      rw [insertCounts_append, UpdateCache.ofPairs, List.map_append, List.foldl_append]
      by_cases hk : k = b.key
      · subst hk
        simp [insertCounts]
      · simp only [List.map_cons, List.map_nil, List.foldl_cons, List.foldl_nil, insertCounts,
          Finmap.lookup_insert_of_ne _ hk]
        exact ih

/-- The name and the plaintext at one position are those of a block's replica. -/
theorem getElem?_blockNames {blocks : List Block} {j : Nat} {name : Str}
    (h : (blockNames blocks)[j]? = some name) : ∃ b ∈ blocks, ∃ i < b.count,
      name = replicaName b.key i ∧ (blockValues blocks)[j]? = some b.value := by
  induction blocks generalizing j with
  | nil => simp [blockNames] at h
  | cons b blocks ih =>
      have hn : blockNames (b :: blocks) = replicaNames b.key b.count ++ blockNames blocks := by
        simp [blockNames]
      have hv : blockValues (b :: blocks)
          = List.replicate b.count b.value ++ blockValues blocks := by simp [blockValues]
      rw [hv]
      rw [hn] at h
      by_cases hj : j < b.count
      · rw [List.getElem?_append_left (by simpa using hj)] at h
        rw [List.getElem?_append_left (by simpa using hj)]
        refine ⟨b, by simp, j, hj, ?_, by simp [hj]⟩
        simpa [replicaNames, hj, eq_comm] using h
      · rw [List.getElem?_append_right (by simpa using hj), replicaNames_length] at h
        rw [List.getElem?_append_right (by simpa using hj), List.length_replicate]
        obtain ⟨c, hc, i, hi, hname, hval⟩ := ih h
        exact ⟨c, by simp [hc], i, hi, hname, hval⟩

/-- Every block starts with one of the strings drawn. -/
theorem drawn_of_mem_allBlocks {st : Proxy} {values : Nat → Str} {b : Block}
    (hb : b ∈ st.allBlocks values) : ∃ j, b.value = values j := by
  have hkey : ∀ (items : List (Str × ℚ)) (index : Nat), ∀ b ∈ keyBlocks st.alpha values index items,
      ∃ j, b.value = values j := by
    intro items
    induction items with
    | nil => intro index b hb; simp [keyBlocks] at hb
    | cons item items ih =>
        intro index b hb
        rw [keyBlocks, List.mem_cons] at hb
        rcases hb with rfl | hb
        · exact ⟨index, rfl⟩
        · exact ih _ b hb
  rw [allBlocks, List.mem_append] at hb
  rcases hb with hb | hb
  · exact hkey _ _ b hb
  · rw [dummyBlocks] at hb
    split at hb
    · simp at hb
    · exact ⟨_, by rw [List.mem_singleton.mp hb]⟩

/-- Every string stored initially is one of those drawn. -/
theorem mem_blockValues {st : Proxy} {values : Nat → Str} {x : Str}
    (h : x ∈ blockValues (st.allBlocks values)) : ∃ j, x = values j := by
  obtain ⟨b, hb, hx⟩ := List.mem_flatMap.mp h
  rw [(List.mem_replicate.mp hx).2]
  exact drawn_of_mem_allBlocks hb

section Created

variable {st st' : Proxy} {values : Nat → Str} (h : Created st values st')
include h

theorem Created.engine : st'.encryptionEngine = st.encryptionEngine := by rw [h.rest]

theorem Created.replicas_eq (hnd : ((st.allBlocks values).map Block.key).Nodup) {b : Block}
    (hb : b ∈ st.allBlocks values) : st'.replicas b.key = b.count := by
  rw [Proxy.replicas, h.counts, UnorderedMap.at_, lookup_insertCounts hnd hb]
  rfl

variable (hfresh : st.Fresh)
include hfresh

/-- A live replica belongs to a block. -/
theorem Created.block_of_live {k : Str} {i : Nat} (hi : i < st'.replicas k) :
    ∃ b ∈ st.allBlocks values, b.key = k ∧ i < b.count := by
  rw [Proxy.replicas, h.counts, hfresh.counts, UnorderedMap.at_] at hi
  cases hl : (insertCounts ∅ (st.allBlocks values)).lookup k with
  | none => rw [hl] at hi; exact absurd hi (Nat.not_lt_zero i)
  | some n =>
      rw [hl] at hi
      rcases lookup_insertCounts_cases hl with hc | ⟨b, hb, hk, hn⟩
      · simp at hc
      · exact ⟨b, hb, hk, hn ▸ hi⟩

/-- The label of a live replica: the position of its name, with the
ciphertext of the plaintext at that position stored under it. -/
theorem Created.stored {k : Str} {i : Nat} (hi : i < st'.replicas k) :
    ∃ n c x, (blockNames (st.allBlocks values))[n]? = some (replicaName k i) ∧
      (blockValues (st.allBlocks values))[n]? = some x ∧ st'.labelOf k i = toString n ∧
      st'.storage.contents.lookup (toString n) = some c ∧
      st.encryptionEngine.encrypt x = .ok c := by
  obtain ⟨b, hb, rfl, hbi⟩ := h.block_of_live hfresh hi
  obtain ⟨cs, hcs, hlay⟩ := h.layout
  have hmem : replicaName b.key i ∈ st'.replicaToLabel := by
    rw [hlay.replicaToLabel]
    exact mem_insertNames (.inr (List.mem_flatMap.mpr
      ⟨b, hb, List.mem_map_of_mem (List.mem_range.mpr hbi)⟩))
  obtain ⟨n, hn⟩ := Finmap.mem_iff.mp hmem
  have hlab : st'.labelOf b.key i = toString n := by
    rw [labelOf, UnorderedMap.at_, hn]
    rfl
  rw [hlay.replicaToLabel, hfresh.labels, hfresh.labelCount] at hn
  rcases lookup_insertNames hn with hc | ⟨j, rfl, hj⟩
  · simp at hc
  · rw [Nat.zero_add] at hlab
    obtain ⟨b', -, -, -, -, hval⟩ := getElem?_blockNames hj
    have hlt : j < (blockNames (st.allBlocks values)).length :=
      (List.getElem?_eq_some_iff.mp hj).1
    have hltv : j < (blockValues (st.allBlocks values)).length := by rwa [blockValues_length]
    have hltc : j < cs.length := by rwa [hlay.sameLength]
    refine ⟨j, cs[j], _, hj, hval, hlab, ?_, ?_⟩
    · rw [hlay.contents, hfresh.labelCount]
      exact lookup_insertAll (labelsFrom_nodup _ _) (by simp [labelsFrom, hlt])
        (List.getElem?_eq_getElem hltc)
    · rw [List.getElem?_eq_getElem hltv] at hval
      rw [← Option.some.inj hval]
      exact (List.forall₂_iff_get.mp hcs).2 j hltv hltc

/-- The initial cache holds no value, and a bit for every replica. -/
theorem Created.updateCache_empty {k v : Str} {bits : List Bool}
    (hl : st'.updateCache.lookup k = some (v, bits)) : v = [] ∧ st'.replicas k = bits.length := by
  have hcache : st'.updateCache
      = UpdateCache.ofPairs ((st.allBlocks values).map fun b => (b.key, b.count)) := by rw [h.rest]
  rw [hcache, lookup_ofPairs_blocks, Option.map_eq_some_iff] at hl
  obtain ⟨n, hn, he⟩ := hl
  obtain ⟨rfl, rfl⟩ := Prod.mk.inj he
  refine ⟨rfl, ?_⟩
  rw [Proxy.replicas, h.counts, hfresh.counts, UnorderedMap.at_, hn]
  simp

/-- Nothing is pending initially. -/
theorem Created.waiting (k : Str) (i : Nat) : st'.updateCache.waiting k i = none := by
  cases hw : st'.updateCache.waiting k i with
  | none => rfl
  | some v =>
      obtain ⟨hne, bits, hl, -⟩ := UpdateCache.waiting_eq_some.mp hw
      exact absurd (h.updateCache_empty hfresh hl).1 hne

variable (hv : ∀ i, st.encryptionEngine.RoundTrips (values i))
include hv

/-- **Initially**: `create_replicas` leaves a sound state. -/
theorem Created.sound : st'.Sound where
  fits k v bits hl := (h.updateCache_empty hfresh hl).2.le
  noMissing key := by
    rw [show st'.missingNewReplicas = st.missingNewReplicas by rw [h.rest], hfresh.missing]
    exact Finmap.lookup_empty key
  readable k i hi := by
    obtain ⟨n, c, x, -, hx, hlab, hc, henc⟩ := h.stored hfresh hi
    obtain ⟨j, rfl⟩ := mem_blockValues (List.mem_of_getElem? hx)
    obtain ⟨c', hc', hd⟩ := hv j
    obtain rfl := Except.ok.inj (henc.symm.trans hc')
    rw [h.engine, hlab]
    exact ⟨c, values j, hc, hd, hv j⟩
  values :=
    { waiting := fun k i v hw => by
        rw [h.waiting hfresh] at hw
        cases hw
      put := by simp }

/-- **Initially**: with distinct names it is consistent with the initial
values. -/
theorem Created.consistent
    (hlen : st.realDistribution.items.length = st.realDistribution.probabilities.length)
    (hkeys : (st.realDistribution.items ++ [st.dummyKey]).Nodup) (hnames : st'.DistinctNames) :
    st'.Consistent (initialValue st.realDistribution.items st.dummyKey values) := by
  have hbk : ((st.allBlocks values).map Block.key).Nodup :=
    (allBlocks_keys_sublist values hlen).nodup hkeys
  refine { h.sound hfresh hv with distinct := ?_, coherent := ?_ }
  · intro k i k' i' hi hi' he
    obtain ⟨n, -, -, hname, -, hlab, -⟩ := h.stored hfresh hi
    obtain ⟨n', -, -, hname', -, hlab', -⟩ := h.stored hfresh hi'
    rw [hlab, hlab', toString_inj] at he
    subst he
    have hsame : replicaName k i = replicaName k' i' := Option.some.inj (hname.symm.trans hname')
    obtain rfl := hnames _ _ _ _ hi hi' hsame
    exact ⟨rfl, replicaName_inj_right.mp hsame⟩
  · intro k i hi
    refine .inr ⟨h.waiting hfresh k i, ?_⟩
    obtain ⟨n, c, x, hname, hx, hlab, hc, henc⟩ := h.stored hfresh hi
    -- the position belongs to a block of the same key
    obtain ⟨b, hb, i', hi', hsame, hval⟩ := getElem?_blockNames hname
    obtain rfl : b.key = k :=
      (hnames _ _ _ _ hi (by rw [h.replicas_eq hbk hb]; exact hi') hsame).symm
    obtain rfl : b.value = x := Option.some.inj (hval.symm.trans hx)
    rw [value_of_mem_allBlocks hlen hkeys hb] at henc
    obtain ⟨c', hc', hd⟩ := hv ((st.realDistribution.items ++ [st.dummyKey]).idxOf b.key)
    obtain rfl := Except.ok.inj (henc.symm.trans hc')
    rw [Proxy.plain, plainText, hlab, hc, h.engine]
    simp [hd, initialValue]

end Created

/-! ## Choosing replicas -/

/-- With no replica missing, the draws give each operation one of its key's
replicas, and any of them. -/
theorem possible_chooseReplicas {st : Proxy} {ops : List Operation} {ids : List Nat}
    (hm : ∀ key, st.missingNewReplicas.lookup key = none) : ∀ {isTrues : List Bool},
    isTrues.length = ops.length →
    ((st.chooseReplicas ops isTrues).Possible (.ok ids) ↔
      List.Forall₂ (fun op id => id < st.replicas op.key) ops ids) := by
  induction ops generalizing ids with
  | nil => intro isTrues _; simp [chooseReplicas, eq_comm]
  | cons op ops ih =>
      intro isTrues ht
      cases isTrues with
      | nil => simp at ht
      | cons t isTrues =>
          simp only [List.length_cons, Nat.add_right_cancel_iff] at ht
          rw [chooseReplicas, Sampler.possible_bind,
            UpdateCache.sampleAReplica_of_none (hm op.key)]
          constructor
          · rintro ⟨r, hr, hrest⟩
            cases r with
            | error e => simp at hrest
            | ok id =>
                obtain ⟨r', hr', he⟩ := Sampler.possible_map.mp hrest
                cases r' with
                | error e => simp [Except.map] at he
                | ok ids' =>
                    simp only [Except.map, Except.ok.injEq] at he
                    subst he
                    exact .cons (possible_randMod.mp hr) ((ih ht).mp hr')
          · intro hall
            cases hall with
            | cons hid hrest =>
                exact ⟨.ok _, possible_randMod.mpr hid,
                  Sampler.possible_map.mpr ⟨.ok _, (ih ht).mpr hrest, rfl⟩⟩

/-- Keys that have a replica never make the draws fail. -/
theorem chooseReplicas_ok {st : Proxy} {ops : List Operation}
    (hm : ∀ key, st.missingNewReplicas.lookup key = none) : ∀ {isTrues : List Bool},
    isTrues.length = ops.length → (∀ op ∈ ops, 0 < st.replicas op.key) →
    ∀ {r}, (st.chooseReplicas ops isTrues).Possible r → ∃ ids, r = .ok ids := by
  induction ops with
  | nil => intro isTrues _ _ r hr; exact ⟨[], by simpa [chooseReplicas, eq_comm] using hr⟩
  | cons op ops ih =>
      intro isTrues ht hlive r hr
      cases isTrues with
      | nil => simp at ht
      | cons t isTrues =>
          simp only [List.length_cons, Nat.add_right_cancel_iff] at ht
          rw [chooseReplicas, Sampler.possible_bind,
            UpdateCache.sampleAReplica_of_none (hm op.key), randMod,
            if_neg (hlive op (by simp)).ne'] at hr
          obtain ⟨x, ⟨i, -, hx⟩, hrest⟩ := hr
          rw [Sampler.possible_done] at hx
          subst hx
          obtain ⟨r', hr', rfl⟩ := Sampler.possible_map.mp hrest
          obtain ⟨ids, rfl⟩ := ih ht (fun o ho => hlive o (by simp [ho])) hr'
          exact ⟨i :: ids, rfl⟩

/-- The accesses of live choices go to live replicas, under their labels. -/
theorem placed_accesses {st : Proxy} {ops : List Operation} {ids : List Nat}
    (h : List.Forall₂ (fun op id => id < st.replicas op.key) ops ids) : ∀ {isTrues : List Bool},
    ∀ a ∈ accesses st.labelOf ops isTrues ids, Placed st.replicas st.labelOf a := by
  induction h with
  | nil => intro isTrues a ha; simp [accesses] at ha
  | cons hid _ ih =>
      intro isTrues a ha
      cases isTrues with
      | nil => simp [accesses] at ha
      | cons t isTrues =>
          rw [accesses, List.mem_cons] at ha
          rcases ha with rfl | ha
          · exact ⟨hid, rfl⟩
          · exact ih a ha

/-! ## One call -/

end Proxy

/-- What the callers of `execute_batch` pass: a flag for every operation, a
promise for every true flag, and values that encryption round-trips. -/
structure Batch.WellFormed (b : Batch) (e : EncryptionEngine) : Prop where
  truesLength : b.isTrues.length = b.operations.length
  promisesLength : b.isTrues.count true ≤ b.promises.length
  puts : ∀ op ∈ b.operations, op.value ≠ [] → e.RoundTrips op.value

namespace Proxy

/-- The labels a call with these replica ids sends to the storage. -/
def batchLabels (st : Proxy) (b : Batch) (ids : List Nat) : List Str :=
  (st.resolve b.operations ids).2

theorem Sound.admissible {st : Proxy} (h : st.Sound) {b : Batch}
    (hb : b.WellFormed st.encryptionEngine) {ids : List Nat}
    (hids : List.Forall₂ (fun op id => id < st.replicas op.key) b.operations ids) :
    st.Admissible b ids where
  truesLength := hb.truesLength
  idsLength := hids.length_eq.symm
  promisesLength := hb.promisesLength
  live a ha := (placed_accesses hids a ha).live
  readable a ha := by
    have hp := placed_accesses hids a ha
    rw [hp.label]
    exact h.readable _ _ hp.live
  fits := h.fits
  noMissing op _ := h.noMissing op.key
  values := ⟨h.values.waiting, hb.puts⟩

/-- **The step**: from a sound state a call returns in a sound state. -/
theorem Sound.executeBatchWith {st : Proxy} (h : st.Sound) {b : Batch}
    (hb : b.WellFormed st.encryptionEngine) {ids : List Nat}
    (hids : List.Forall₂ (fun op id => id < st.replicas op.key) b.operations ids) :
    ∃ st' fulfilled, st.executeBatchWith b ids = .ok (st', fulfilled) ∧
      Executed st b ids st' fulfilled ∧ st'.Sound := by
  obtain ⟨st', fulfilled, hrun, hx⟩ := executeBatchWith_spec (h.admissible hb hids)
  refine ⟨st', fulfilled, hrun, hx, ?_⟩
  exact
    { fits := hx.fits
      noMissing := fun key => by rw [hx.missing]; exact h.noMissing key
      readable := fun key i hi => by
        rw [hx.frame.replicas] at hi
        rw [hx.frame.labelOf]
        exact hx.readable _ (h.readable key i hi)
      values := hx.values }

/-- **The step**: a call with distinct labels returns, answers every real
operation with its key's current value, and keeps the state consistent. -/
theorem Consistent.executeBatchWith {st : Proxy} {cur : Str → Str} (h : st.Consistent cur)
    {b : Batch} (hb : b.WellFormed st.encryptionEngine) {ids : List Nat}
    (hids : List.Forall₂ (fun op id => id < st.replicas op.key) b.operations ids)
    (hnd : (st.batchLabels b ids).Nodup) :
    ∃ st', st.executeBatchWith b ids = .ok (st', b.promises.zip
        (answers (st.batchAccesses b ids) (currents cur (st.batchAccesses b ids)))) ∧
      st'.Consistent ((st.batchAccesses b ids).foldl current cur) ∧ Frame st st' := by
  obtain ⟨st', fulfilled, hrun, hx, hsound⟩ := h.toSound.executeBatchWith hb hids
  have hlab : st.batchLabels b ids = (st.batchAccesses b ids).map Access.label :=
    resolve_labels b.operations st b.isTrues ids hb.truesLength hids.length_eq.symm
  rw [hlab] at hnd
  have hplaced : ∀ a ∈ st.batchAccesses b ids, Placed st.replicas st.labelOf a :=
    placed_accesses hids
  obtain ⟨hvals, hcoh⟩ := h.coherent.serveBatch h.distinct hplaced hnd
  refine ⟨st', ?_, { hsound with distinct := ?_, coherent := ?_ }, hx.frame⟩
  · rw [hrun, hx.fulfilled, batchValues, hvals]
  · rw [hx.frame.replicas, hx.frame.labelOf]
    exact h.distinct
  · rw [hx.frame.replicas, hx.frame.labelOf, hx.waiting, hx.plain]
    exact hcoh

end Proxy

end Pancake
