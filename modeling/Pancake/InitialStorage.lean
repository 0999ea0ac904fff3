import Pancake.Steady
import Pancake.StoredValues

/-!
# The initial storage

`create_replicas` writes one block of labels for each item, in item order,
and one for the dummy key. All labels of a block get one ciphertext, that of
a random string: the values `init` is called with are not read.
-/

namespace Pancake

open LazyReplicas

namespace Proxy

/-! ## Blocks -/

/-- The blocks: the replicas of each item, and the dummy's, which are what is
left of two for each key. -/
def initialBlocks (dist : Distribution) (alpha : ℚ) (dummyKey : Str) (drawn : Nat → Str) :
    List Block :=
  let keys := keyBlocks alpha drawn 0 dist.pairs
  keys ++ [⟨dummyKey, 2 * dist.items.length - (keys.map Block.count).sum,
    drawn dist.items.length⟩]

/-- The label the `i`-th block starts at. -/
def firstLabel (blocks : List Block) (i : Nat) : Nat := ((blocks.take i).map Block.count).sum

/-- The string under a replica's name: that of the last block that has a
replica so named. -/
def lastValue (blocks : List Block) (name : Str) : Option Str :=
  (blocks.reverse.find? fun b => name ∈ replicaNames b.key b.count).map Block.value

theorem allBlocks_eq {st : Proxy} {delta : ℚ}
    (ha : CallerArguments st.realDistribution st.alpha delta) (drawn : Nat → Str) :
    st.allBlocks drawn = initialBlocks st.realDistribution st.alpha st.dummyKey drawn ∧
      ((st.allBlocks drawn).map Block.count).sum = 2 * st.realDistribution.items.length := by
  obtain ⟨htotal, hpos, -⟩ := dummyCount_eq ha drawn
  have hkeys := sum_count_keyBlocks ha.lengths st.alpha drawn
  have hpairs : st.realDistribution.pairs.length = st.realDistribution.items.length := by
    rw [Distribution.pairs, List.length_zip, ← ha.lengths, min_self]
  have hcount : st.dummyCount drawn = 2 * st.realDistribution.items.length
      - ((keyBlocks st.alpha drawn 0 st.realDistribution.pairs).map Block.count).sum := by
    omega
  have hblocks : st.allBlocks drawn = keyBlocks st.alpha drawn 0 st.realDistribution.pairs
      ++ [⟨st.dummyKey, st.dummyCount drawn, drawn st.realDistribution.items.length⟩] := by
    rw [allBlocks, dummyBlocks, if_neg (by omega), hpairs]
  constructor
  · rw [hblocks, hcount]
    rfl
  · rw [hblocks, List.map_append, List.sum_append, hkeys]
    exact htotal

/-- The blocks' labels follow one another. -/
theorem getElem?_blockValues {blocks : List Block} {i j : Nat} {b : Block}
    (hb : blocks[i]? = some b) (hj : j < b.count) :
    (blockValues blocks)[firstLabel blocks i + j]? = some b.value := by
  induction blocks generalizing i with
  | nil => cases hb
  | cons b' blocks ih =>
      have hv : blockValues (b' :: blocks)
          = List.replicate b'.count b'.value ++ blockValues blocks := by simp [blockValues]
      rw [hv]
      cases i with
      | zero =>
          cases hb
          rw [List.getElem?_append_left (by simpa [firstLabel] using hj)]
          simp [firstLabel, hj]
      | succ i =>
          have hfirst : firstLabel (b' :: blocks) (i + 1) = b'.count + firstLabel blocks i := by
            simp [firstLabel]
          rw [hfirst, List.getElem?_append_right (by rw [List.length_replicate]; omega),
            List.length_replicate, show b'.count + firstLabel blocks i + j - b'.count
              = firstLabel blocks i + j by omega]
          exact ih hb

theorem length_blockNames (blocks : List Block) :
    (blockNames blocks).length = (blocks.map Block.count).sum := by
  simp [blockNames, List.length_flatMap]

/-- The name table keeps the last number of a name, and its block's string is
stored there. -/
theorem lookup_blockNames {blocks : List Block} {name : Str} {n : Nat}
    (h : (insertNames ∅ 0 (blockNames blocks)).lookup name = some n) :
    (blockValues blocks)[n]? = lastValue blocks name ∧ n < (blockValues blocks).length := by
  induction blocks using List.reverseRecOn with
  | nil => cases h
  | append_singleton blocks b ih =>
      have hnames : blockNames (blocks ++ [b])
          = blockNames blocks ++ replicaNames b.key b.count := by simp [blockNames]
      have hvalues : blockValues (blocks ++ [b])
          = blockValues blocks ++ List.replicate b.count b.value := by simp [blockValues]
      have hlen := blockValues_length blocks
      rw [hnames, insertNames_append] at h
      rw [hvalues, lastValue, List.reverse_append, List.reverse_singleton, List.singleton_append,
        List.length_append, List.length_replicate]
      by_cases hmem : name ∈ replicaNames b.key b.count
      · obtain ⟨j, hlookup, hj⟩ := lookup_insertNames_of_mem
          (m := insertNames ∅ 0 (blockNames blocks)) (l := 0 + (blockNames blocks).length) hmem
        rw [h, Option.some.injEq] at hlookup
        obtain ⟨hlt, -⟩ := List.getElem?_eq_some_iff.mp hj
        rw [replicaNames_length] at hlt
        rw [List.find?_cons_of_pos (by simpa using hmem),
          List.getElem?_append_right (by omega), List.getElem?_replicate, if_pos (by omega)]
        exact ⟨rfl, by omega⟩
      · rw [lookup_insertNames_of_notMem hmem] at h
        obtain ⟨hvalue, hlt⟩ := ih h
        rw [List.find?_cons_of_neg (by simpa using hmem), List.getElem?_append_left hlt]
        exact ⟨hvalue, by omega⟩

/-! ## The layout -/

/-- `st` is `before` with the blocks laid out from label 0 on: the labels are
written in order, each once and in batches of at most fifty, nothing else is
written, every block has one ciphertext of its string under all of its
labels, and the replicas are numbered in that order. -/
structure LaidOut (before : Proxy) (blocks : List Block) (n : Nat) (st : Proxy) : Prop where
  total : (blocks.map Block.count).sum = n
  labelCount : st.labelCount = n
  writes : ∃ puts, st.storage.requests = before.storage.requests ++ puts ∧
    puts.flatMap Request.labels = (List.range n).map toString ∧ ∀ r ∈ puts, IsChunk r
  elsewhere : ∀ label ∉ (List.range n).map toString,
    st.storage.contents.lookup label = before.storage.contents.lookup label
  contents : ∀ i b, blocks[i]? = some b → ∃ c, st.encryptionEngine.decrypt c = .ok b.value ∧
    ∀ j < b.count, st.storage.contents.lookup (toString (firstLabel blocks i + j)) = some c
  names : st.replicaToLabel = insertNames ∅ 0 (blockNames blocks)

theorem labelsFrom_zero (n : Nat) : labelsFrom 0 n = (List.range n).map toString := by
  rw [labelsFrom, List.range_eq_range']

section Created

variable {st st' : Proxy} {drawn : Nat → Str} (h : Created st drawn st') (hfresh : st.Fresh)
  (hv : ∀ i, st.encryptionEngine.RoundTrips (drawn i))
include h hfresh hv

/-- What `create_replicas` wrote, block by block. -/
theorem Created.laidOut : LaidOut st (st.allBlocks drawn)
    ((st.allBlocks drawn).map Block.count).sum st' := by
  obtain ⟨cs, hcs, hlay⟩ := h.layout
  have hlabels : labelsFrom st.labelCount (blockNames (st.allBlocks drawn)).length
      = (List.range ((st.allBlocks drawn).map Block.count).sum).map toString := by
    rw [hfresh.labelCount, length_blockNames, labelsFrom_zero]
  obtain ⟨puts, hrequests, hwritten, -, hchunks⟩ := hlay.requests
  exact
    { total := rfl
      labelCount := by rw [hlay.labelCount, hfresh.labelCount, length_blockNames, Nat.zero_add]
      writes := ⟨puts, hrequests, hwritten.trans hlabels, hchunks⟩
      elsewhere := by
        intro label hlabel
        rw [hlay.contents, hlabels, Server.lookup_insertAll_of_notMem hlabel]
      contents := by
        intro i b hb
        obtain ⟨k, hk⟩ := drawn_of_mem_allBlocks (List.mem_of_getElem? hb)
        obtain ⟨c, henc, hdec⟩ := hv k
        refine ⟨c, by rw [h.engine, hk]; exact hdec, ?_⟩
        intro j hj
        -- the ciphertext at the label's position is that of the block's string
        obtain ⟨hlt, hvalue⟩ := List.getElem?_eq_some_iff.mp (getElem?_blockValues hb hj)
        have hltc : firstLabel (st.allBlocks drawn) i + j < cs.length := by
          rw [← hcs.length_eq]
          exact hlt
        have hcipher := (List.forall₂_iff_get.mp hcs).2 _ hlt hltc
        rw [List.get_eq_getElem, hvalue, hk, henc, Except.ok.injEq] at hcipher
        rw [hlay.contents, hcipher]
        apply lookup_insertAll (labelsFrom_nodup _ _) _ (List.getElem?_eq_getElem hltc)
        rw [hlabels, List.getElem?_map, List.getElem?_range, Option.map_some]
        rw [← length_blockNames, ← blockValues_length]
        exact hlt
      names := by rw [hlay.replicaToLabel, hfresh.labels, hfresh.labelCount] }

/-- The string stored for a live replica. -/
theorem Created.holds {key : Str} {j : Nat} (hj : j < st'.replicas key) :
    ∃ c x, st'.storage.contents.lookup (st'.labelOf key j) = some c ∧
      st'.encryptionEngine.decrypt c = .ok x ∧
      lastValue (st.allBlocks drawn) (replicaName key j) = some x := by
  obtain ⟨n, c, x, hname, hx, hlabel, hstored, henc⟩ := h.stored hfresh hj
  have hnames := (h.laidOut hfresh hv).names
  have hmem : replicaName key j ∈ st'.replicaToLabel := by
    rw [hnames]
    exact mem_insertNames (.inr (List.mem_of_getElem? hname))
  obtain ⟨m, hm⟩ := Finmap.mem_iff.mp hmem
  obtain rfl : n = m := by
    rw [labelOf, UnorderedMap.at_, hm, toString_inj] at hlabel
    exact hlabel.symm
  rw [hnames] at hm
  obtain ⟨k, rfl⟩ := mem_blockValues (List.mem_of_getElem? hx)
  obtain ⟨c', henc', hdec⟩ := hv k
  rw [henc, Except.ok.injEq] at henc'
  refine ⟨c, drawn k, ?_, ?_, ?_⟩
  · rw [hlabel]
    exact hstored
  · rw [h.engine, henc']
    exact hdec
  · rw [← (lookup_blockNames hm).1]
    exact hx

end Created

/-- **The initial storage layout.** For any number of keys and any
probabilities, `init` with `alpha` the inverse of the number of keys returns,
and has laid out two labels for each key: a block for each item, in order,
and the dummy's. -/
theorem init_laidOut {st₀ : Proxy} {dist : Distribution} {delta : ℚ} {drawn : Nat → Str}
    (hlengths : dist.items.length = dist.probabilities.length) (hkeys : dist.items.Nodup)
    (hpos : ∀ p ∈ dist.probabilities, 0 < p) (hsum : dist.probabilities.sum = 1)
    (hfresh : st₀.Fresh) (hdrawn : ∀ i, st₀.encryptionEngine.RoundTrips (drawn i)) :
    ∃ st, st₀.init dist (1 / dist.items.length) delta drawn = .ok st ∧
      LaidOut st₀ (initialBlocks dist (1 / dist.items.length) st₀.dummyKey drawn)
        (2 * dist.items.length) st := by
  have ha : CallerArguments dist (1 / dist.items.length)
      (1 / (2 * dist.items.length * (1 / dist.items.length))) :=
    ⟨hlengths, hkeys, hpos, hsum, le_rfl, rfl⟩
  obtain ⟨st, hinit, hcreated⟩ := init_created dist (1 / dist.items.length) delta
    fun i => (hdrawn i).encrypts
  obtain ⟨hblocks, htotal⟩ := @allBlocks_eq
    (st₀.takeArguments dist (1 / dist.items.length) delta) _ ha drawn
  have hlaid := hcreated.laidOut (hfresh.takeArguments _ _ _) hdrawn
  rw [htotal, hblocks] at hlaid
  exact ⟨st, hinit, hlaid.total, hlaid.labelCount, hlaid.writes, hlaid.elsewhere, hlaid.contents,
    hlaid.names⟩

/-- Sixty keys, the first with fifty-five of the labels. -/
def sixtyKeys : Distribution where
  items := (List.range 60).map toString
  probabilities := 541 / 600 :: List.replicate 59 (1 / 600)

theorem init_laidOut_sixtyKeys : ∃ st,
    blank.init sixtyKeys (1 / sixtyKeys.items.length) (1 / 2) firstStrings = .ok st ∧
    LaidOut blank (initialBlocks sixtyKeys (1 / sixtyKeys.items.length) blank.dummyKey firstStrings)
      (2 * sixtyKeys.items.length) st ∧
    (initialBlocks sixtyKeys (1 / sixtyKeys.items.length) blank.dummyKey firstStrings).map
      Block.count = 55 :: List.replicate 59 1 ++ [6] := by
  have hpos : ∀ p ∈ sixtyKeys.probabilities, 0 < p := by
    intro p hp
    rcases List.mem_cons.mp hp with rfl | hp
    · norm_num
    · rw [List.eq_of_mem_replicate hp]
      norm_num
  have hsum : sixtyKeys.probabilities.sum = 1 := by
    rw [sixtyKeys, List.sum_cons, List.sum_replicate]
    norm_num
  obtain ⟨st, hinit, hlaid⟩ := @init_laidOut blank sixtyKeys (1 / 2) firstStrings (by decide)
    (List.nodup_range.map toString_injective) hpos hsum ⟨rfl, rfl, rfl, rfl⟩ firstStrings_roundTrips
  exact ⟨st, hinit, hlaid, by decide +kernel⟩

/-! ## The values of `init` -/

/-- `init`, with all its arguments: the keys and the values are not read. -/
def initialise (st : Proxy) (_keys _values : List Str) (dist : Distribution) (alpha delta : ℚ)
    (drawn : Nat → Str) : Except Fault Proxy :=
  st.init dist alpha delta drawn

/-- Every replica of the key stores the value, and the first get returns it
whichever replica is drawn. -/
structure StartsWith (st : Proxy) (key value : Str) : Prop where
  stored : ∀ j < st.replicas key, ∃ c,
    st.storage.contents.lookup (st.labelOf key j) = some c ∧
      st.encryptionEngine.decrypt c = .ok value
  firstGet : ∀ r, (st.executeBatch (.one key [])).Possible r →
    ∃ st', r = .ok (st', [(0, value)])

/-- `key_to_number_of_replicas_[key]` once the blocks are created. -/
def replicasIn (blocks : List Block) (key : Str) : Nat :=
  UnorderedMap.at_ (insertCounts ∅ blocks) key

/-- For every replica of the key, the string drawn for the last block with a
replica of its name is the value. -/
def DrewValue (blocks : List Block) (key value : Str) : Prop :=
  ∀ j < replicasIn blocks key, lastValue blocks (replicaName key j) = some value

instance (blocks : List Block) (key value : Str) : Decidable (DrewValue blocks key value) :=
  inferInstanceAs (Decidable (∀ j < replicasIn blocks key, _))

section Created

variable {st st' : Proxy} {drawn : Nat → Str} (h : Created st drawn st') (hfresh : st.Fresh)
include h hfresh

theorem Created.replicasIn_eq (key : Str) :
    st'.replicas key = replicasIn (st.allBlocks drawn) key := by
  rw [Proxy.replicas, h.counts, hfresh.counts, replicasIn]

variable (hv : ∀ i, st.encryptionEngine.RoundTrips (drawn i))
include hv

/-- **One key.** -/
theorem Created.startsWith_iff_drewValue {key value : Str} (hk : 0 < st'.replicas key) :
    st'.StartsWith key value ↔ DrewValue (st.allBlocks drawn) key value := by
  rw [DrewValue, ← h.replicasIn_eq hfresh]
  constructor
  · intro hs j hj
    obtain ⟨c, x, hc, hx, hlast⟩ := h.holds hfresh hv hj
    obtain ⟨c', hc', hx'⟩ := hs.stored j hj
    rw [hc, Option.some.injEq] at hc'
    rw [← hc', hx, Except.ok.injEq] at hx'
    rw [hlast, hx']
  · intro hd
    have hstored : ∀ j < st'.replicas key, ∃ c,
        st'.storage.contents.lookup (st'.labelOf key j) = some c ∧
          st'.encryptionEngine.decrypt c = .ok value := by
      intro j hj
      obtain ⟨c, x, hc, hx, hlast⟩ := h.holds hfresh hv hj
      rw [hd j hj, Option.some.injEq] at hlast
      exact ⟨c, hc, hlast ▸ hx⟩
    refine ⟨hstored, ?_⟩
    intro r hr
    obtain ⟨id, st₁, done, rfl, hid, hx, -⟩ :=
      (h.sound hfresh hv).one hk (fun hc => absurd rfl hc) hr
    obtain ⟨c, hc, hdec⟩ := hstored id hid
    have hplain : st'.plain (st'.labelOf key id) = value := by
      rw [Proxy.plain, plainText, hc]
      dsimp only
      rw [hdec]
    refine ⟨st₁, ?_⟩
    rw [hx.get, h.waiting hfresh, Option.getD_none, hplain]

end Created

/-- **The initial values are stored** exactly when the random strings drawn
are these values. -/
theorem startsWith_iff {st₀ st : Proxy} {dist : Distribution} {alpha delta : ℚ}
    {drawn : Nat → Str} {values : List Str} (ha : CallerArguments dist alpha delta)
    (hfresh : st₀.Fresh) (hdrawn : ∀ i, st₀.encryptionEngine.RoundTrips (drawn i))
    (hinit : st₀.initialise dist.items values dist alpha delta drawn = .ok st) :
    (∀ x ∈ dist.items.zip values, st.StartsWith x.1 x.2) ↔
      ∀ x ∈ dist.items.zip values,
        DrewValue (initialBlocks dist alpha st₀.dummyKey drawn) x.1 x.2 := by
  have hcreated := created_of_init (fun i => (hdrawn i).encrypts) hinit
  have hfresh' := hfresh.takeArguments dist alpha delta
  have hblocks := (@allBlocks_eq (st₀.takeArguments dist alpha delta) _ ha drawn).1
  have hone : ∀ x ∈ dist.items.zip values, (st.StartsWith x.1 x.2 ↔
      DrewValue (initialBlocks dist alpha st₀.dummyKey drawn) x.1 x.2) := by
    intro x hx
    have hk := hcreated.replicas_pos hfresh' ha
      (List.mem_append_left _ (List.of_mem_zip hx).1)
    rw [hcreated.startsWith_iff_drewValue hfresh' hdrawn hk, hblocks]
  constructor
  · intro h x hx
    exact (hone x hx).mp (h x hx)
  · intro h x hx
    exact (hone x hx).mpr (h x hx)

/-- With distinct names, the last block with a replica of a key's is its own. -/
theorem Created.lastValue_eq {st st' : Proxy} {drawn : Nat → Str} (h : Created st drawn st')
    (hfresh : st.Fresh)
    (hlen : st.realDistribution.items.length = st.realDistribution.probabilities.length)
    (hkeys : (st.realDistribution.items ++ [st.dummyKey]).Nodup) (hnames : st'.DistinctNames)
    {key : Str} {j : Nat} (hj : j < st'.replicas key) :
    lastValue (st.allBlocks drawn) (replicaName key j)
      = some (initialValue st.realDistribution.items st.dummyKey drawn key) := by
  have hnd := (allBlocks_keys_sublist drawn hlen).nodup hkeys
  have hmem : ∀ b ∈ st.allBlocks drawn, replicaName key j ∈ replicaNames b.key b.count →
      b.key = key := by
    intro b hb hname
    obtain ⟨j', hj', hsame⟩ := List.mem_map.mp hname
    apply hnames b.key j' key j _ hj hsame
    rw [h.replicas_eq hnd hb]
    exact List.mem_range.mp hj'
  obtain ⟨b, hb, hbkey, hbj⟩ := h.block_of_live hfresh hj
  cases hfind : (st.allBlocks drawn).reverse.find? fun b =>
      replicaName key j ∈ replicaNames b.key b.count with
  | none =>
      have hnone := List.find?_eq_none.mp hfind b (List.mem_reverse.mpr hb)
      refine absurd ?_ hnone
      rw [decide_eq_true_iff, hbkey]
      exact List.mem_map_of_mem (List.mem_range.mpr hbj)
  | some b' =>
      have hb' := List.mem_reverse.mp (List.mem_of_find?_eq_some hfind)
      have hkey := hmem b' hb' (by simpa using List.find?_some hfind)
      rw [lastValue, hfind, Option.map_some, value_of_mem_allBlocks hlen hkeys hb', hkey]

/-- With distinct names: each key's own string has to be its value. -/
theorem Created.drewValue_iff {st st' : Proxy} {drawn : Nat → Str} {delta : ℚ}
    (h : Created st drawn st') (hfresh : st.Fresh)
    (ha : CallerArguments st.realDistribution st.alpha delta)
    (hkeys : (st.realDistribution.items ++ [st.dummyKey]).Nodup) (hnames : st'.DistinctNames)
    {key value : Str} (hk : key ∈ st.realDistribution.items) :
    DrewValue (st.allBlocks drawn) key value ↔
      initialValue st.realDistribution.items st.dummyKey drawn key = value := by
  have hlast := fun j (hj : j < st'.replicas key) =>
    h.lastValue_eq hfresh ha.lengths hkeys hnames hj
  rw [DrewValue, ← h.replicasIn_eq hfresh]
  constructor
  · intro hd
    have hpos := h.replicas_pos hfresh ha (List.mem_append_left _ hk)
    have hzero := hd 0 hpos
    rw [hlast 0 hpos, Option.some.injEq] at hzero
    exact hzero
  · intro hvalue j hj
    rw [hlast j hj, hvalue]

/-- The string drawn for the key happens to be its value. -/
theorem startsWith_iff_singleKey : ∃ st,
    blank.initialise singleKey.items [['a']] singleKey 1 (1 / 2) firstStrings = .ok st ∧
    st.StartsWith ['k'] ['a'] := by
  obtain ⟨st, hinit, -⟩ := @init_created blank singleKey 1 (1 / 2) firstStrings
    fun i => (firstStrings_roundTrips i).encrypts
  have hiff := @startsWith_iff blank st singleKey 1 (1 / 2) firstStrings [['a']]
    singleKey_arguments_one ⟨rfl, rfl, rfl, rfl⟩ firstStrings_roundTrips hinit
  exact ⟨st, hinit, hiff.mpr (by decide +kernel) (['k'], ['a']) (by simp [singleKey])⟩

/-- **The failing values**: `init` is given `v` for the key, and the first
get returns the string drawn. -/
theorem initial_value_ignored : ∃ st,
    blank.initialise singleKey.items [['v']] singleKey 1 (1 / 2) firstStrings = .ok st ∧
    (st.executeBatchWith (.one ['k'] []) [0]).map Prod.snd = .ok [(0, ['a'])] ∧
    ¬ ∀ x ∈ singleKey.items.zip [['v']], st.StartsWith x.1 x.2 := by
  obtain ⟨⟨st, r⟩, hrun, hdone⟩ := exists_ok_of_decide (x := do
    let st ← blank.initialise singleKey.items [['v']] singleKey 1 (1 / 2) firstStrings
    let r ← st.executeBatchWith (.one ['k'] []) [0]
    .ok (st, r)) (P := fun r => r.2.2 = [(0, ['a'])]) (by decide +kernel)
  simp only [bind_eq_ok] at hrun
  obtain ⟨st, hinit, r, hget, h⟩ := hrun
  cases h
  refine ⟨st, hinit, ?_, ?_⟩
  · rw [hget]
    exact congrArg Except.ok hdone
  · intro h
    have hiff := @startsWith_iff blank st singleKey 1 (1 / 2) firstStrings [['v']]
      singleKey_arguments_one ⟨rfl, rfl, rfl, rfl⟩ firstStrings_roundTrips hinit
    exact absurd (hiff.mp h) (by decide +kernel)

end Proxy

end Pancake
