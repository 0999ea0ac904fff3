import Pancake.Refinement

/-!
# What `create_replicas` leaves

`insert_replicas` gathers labels in a buffer and flushes it at fifty and at
the end; `Layout` forgets the chunks and says what they add up to: a list of
replica names numbered from the label counter on, and the ciphertexts written
under those numbers. `createReplicas_spec` composes the layouts of all keys
and of the dummy key.
-/

namespace Pancake

/-! ## Lists of names and labels -/

/-- Number names from `l` on. -/
def insertNames (m : UnorderedMap Nat) : Nat → List Str → UnorderedMap Nat
  | _, [] => m
  | l, name :: names => insertNames (m.insert name l) (l + 1) names

/-- The labels `l`, ..., `l + n - 1`, as strings. -/
def labelsFrom (l n : Nat) : List Str := (List.range' l n).map toString

@[simp] theorem labelsFrom_length (l n : Nat) : (labelsFrom l n).length = n := by
  simp [labelsFrom]

theorem labelsFrom_append (l m n : Nat) :
    labelsFrom l (m + n) = labelsFrom l m ++ labelsFrom (l + m) n := by
  rw [labelsFrom, labelsFrom, labelsFrom, ← List.map_append]
  congr 1
  simp

theorem labelsFrom_nodup (l n : Nat) : (labelsFrom l n).Nodup :=
  (List.nodup_range').map toString_injective

theorem insertNames_append (m : UnorderedMap Nat) (l : Nat) (a b : List Str) :
    insertNames m l (a ++ b) = insertNames (insertNames m l a) (l + a.length) b := by
  induction a generalizing m l with
  | nil => rfl
  | cons x a ih =>
      rw [List.cons_append, insertNames, ih, insertNames, List.length_cons]
      congr 1
      omega

theorem mem_insertNames {m : UnorderedMap Nat} {l : Nat} {names : List Str} {name : Str}
    (h : name ∈ m ∨ name ∈ names) : name ∈ insertNames m l names := by
  induction names generalizing m l with
  | nil => simpa [insertNames] using h
  | cons x names ih =>
      refine ih (m := m.insert x l) ?_
      rw [List.mem_cons] at h
      rw [Finmap.mem_insert]
      rcases h with h | h | h
      · exact .inl (.inr h)
      · exact .inl (.inl h)
      · exact .inr h

theorem lookup_insertNames_of_notMem {m : UnorderedMap Nat} {l : Nat} {names : List Str}
    {name : Str} (h : name ∉ names) : (insertNames m l names).lookup name = m.lookup name := by
  induction names generalizing m l with
  | nil => rfl
  | cons x names ih =>
      rw [List.mem_cons, not_or] at h
      rw [insertNames, ih h.2, Finmap.lookup_insert_of_ne _ h.1]

/-- The number of a name in the list tells where in the list it stands. -/
theorem lookup_insertNames_of_mem {m : UnorderedMap Nat} {l : Nat} {names : List Str}
    {name : Str} (h : name ∈ names) : ∃ j, (insertNames m l names).lookup name = some (l + j) ∧
      names[j]? = some name := by
  induction names generalizing m l with
  | nil => cases h
  | cons x names ih =>
      rw [insertNames]
      by_cases hrest : name ∈ names
      · obtain ⟨j, hlookup, hj⟩ := ih (m := m.insert x l) (l := l + 1) hrest
        refine ⟨j + 1, ?_, hj⟩
        rw [hlookup]
        congr 1
        omega
      · obtain rfl : name = x := (List.mem_cons.mp h).resolve_right hrest
        refine ⟨0, ?_, rfl⟩
        rw [lookup_insertNames_of_notMem hrest, Finmap.lookup_insert]
        rfl

/-- The number of a name is an old one, or tells where in the list it stands. -/
theorem lookup_insertNames {m : UnorderedMap Nat} {l : Nat} {names : List Str} {name : Str}
    {n : Nat} (h : (insertNames m l names).lookup name = some n) :
    m.lookup name = some n ∨ ∃ j, n = l + j ∧ names[j]? = some name := by
  by_cases hmem : name ∈ names
  · obtain ⟨j, hlookup, hj⟩ := lookup_insertNames_of_mem (m := m) (l := l) hmem
    rw [h] at hlookup
    exact .inr ⟨j, Option.some.inj hlookup, hj⟩
  · rw [lookup_insertNames_of_notMem hmem] at h
    exact .inl h

theorem insertAll_append (m : UnorderedMap Str) (a b c d : List Str) (h : c.length = a.length) :
    Server.insertAll m (a ++ b) (c ++ d) = Server.insertAll (Server.insertAll m a c) b d := by
  induction a generalizing m c with
  | nil => rw [List.length_eq_zero_iff.mp h]; rfl
  | cons x a ih =>
      cases c with
      | nil => simp at h
      | cons y c => exact ih _ _ (by simpa using h)

/-- Distinct labels hold their own ciphertexts. -/
theorem lookup_insertAll {m : UnorderedMap Str} {ks vs : List Str} (hnd : ks.Nodup) {j : Nat}
    {k v : Str} (hk : ks[j]? = some k) (hv : vs[j]? = some v) :
    (Server.insertAll m ks vs).lookup k = some v := by
  induction ks generalizing m vs j with
  | nil => simp at hk
  | cons x ks ih =>
      cases vs with
      | nil => simp at hv
      | cons y vs =>
          rw [List.nodup_cons] at hnd
          cases j with
          | zero =>
              simp only [List.getElem?_cons_zero, Option.some.injEq] at hk hv
              subst hk
              subst hv
              rw [Server.insertAll, Server.lookup_insertAll_of_notMem hnd.1, Finmap.lookup_insert]
          | succ j => exact ih hnd.2 (by simpa using hk) (by simpa using hv)

namespace Proxy

/-! ## `insert_replicas` -/

/-- A `put_batch` of between one and fifty labels. -/
def IsChunk : Request → Prop
  | .putBatch labels ciphers =>
      0 < labels.length ∧ labels.length ≤ 50 ∧ ciphers.length = labels.length
  | .getBatch _ _ => False

/-- From `st` to `st'`, exactly `names` were numbered from the label counter
on, and `ciphers` written under those numbers. -/
structure Layout (st st' : Proxy) (names ciphers : List Str) : Prop where
  sameLength : ciphers.length = names.length
  labelCount : st'.labelCount = st.labelCount + names.length
  replicaToLabel : st'.replicaToLabel = insertNames st.replicaToLabel st.labelCount names
  contents : st'.storage.contents
    = Server.insertAll st.storage.contents (labelsFrom st.labelCount names.length) ciphers
  requests : ∃ puts, st'.storage.requests = st.storage.requests ++ puts ∧
    puts.flatMap Request.labels = labelsFrom st.labelCount names.length ∧
    puts.flatMap Request.ciphers = ciphers ∧ ∀ r ∈ puts, IsChunk r

theorem Layout.refl (st : Proxy) : Layout st st [] [] :=
  ⟨rfl, rfl, rfl, rfl, [], by simp, rfl, rfl, by simp⟩

theorem Layout.trans {st st' st'' : Proxy} {n₁ n₂ c₁ c₂ : List Str} (h₁ : Layout st st' n₁ c₁)
    (h₂ : Layout st' st'' n₂ c₂) : Layout st st'' (n₁ ++ n₂) (c₁ ++ c₂) where
  sameLength := by simp [h₁.sameLength, h₂.sameLength]
  labelCount := by
    rw [h₂.labelCount, h₁.labelCount, List.length_append, Nat.add_assoc]
  replicaToLabel := by
    rw [h₂.replicaToLabel, h₁.replicaToLabel, h₁.labelCount, insertNames_append]
  contents := by
    rw [h₂.contents, h₁.contents, h₁.labelCount, List.length_append, labelsFrom_append,
      insertAll_append _ _ _ _ _ (by simpa using h₁.sameLength)]
  requests := by
    obtain ⟨p₁, hr₁, hl₁, hc₁, hk₁⟩ := h₁.requests
    obtain ⟨p₂, hr₂, hl₂, hc₂, hk₂⟩ := h₂.requests
    refine ⟨p₁ ++ p₂, by rw [hr₂, hr₁, List.append_assoc], ?_, ?_, ?_⟩
    · rw [List.flatMap_append, hl₁, hl₂, h₁.labelCount, List.length_append, labelsFrom_append]
    · rw [List.flatMap_append, hc₁, hc₂]
    · intro r hr
      rcases List.mem_append.mp hr with h | h
      · exact hk₁ r h
      · exact hk₂ r h

/-- The names of the first `n` replicas of a key. -/
def replicaNames (key : Str) (n : Nat) : List Str := (List.range n).map (replicaName key)

@[simp] theorem replicaNames_length (key : Str) (n : Nat) : (replicaNames key n).length = n := by
  simp [replicaNames]

theorem replicaNames_succ (key : Str) (n : Nat) :
    replicaNames key (n + 1) = replicaNames key n ++ [replicaName key n] := by
  simp [replicaNames, List.range_succ]

/-- The loop of `insert_replicas` after `i` iterations: `flushed` labels are
in the storage, the rest is in the buffer, which is short of fifty. -/
structure Filling (st : Proxy) (key c : Str) (i : Nat) (s : Proxy × List Str) : Prop where
  rest : s.1 = { st with
    replicaToLabel := s.1.replicaToLabel, labelCount := st.labelCount + i, storage := s.1.storage }
  replicaToLabel : s.1.replicaToLabel
    = insertNames st.replicaToLabel st.labelCount (replicaNames key i)
  flushed : ∃ puts, s.1.storage.requests = st.storage.requests ++ puts ∧
    puts.flatMap Request.labels ++ s.2 = labelsFrom st.labelCount i ∧
    puts.flatMap Request.ciphers = List.replicate (puts.flatMap Request.labels).length c ∧
    s.1.storage.contents = Server.insertAll st.storage.contents (puts.flatMap Request.labels)
      (List.replicate (puts.flatMap Request.labels).length c) ∧
    ∀ r ∈ puts, IsChunk r
  short : s.2.length < 50

/-- Flushing the buffer. -/
theorem flush_labels {m : UnorderedMap Str} {ls buf : List Str} {c : Str} :
    Server.insertAll (Server.insertAll m ls (List.replicate ls.length c)) buf
        (List.replicate buf.length c)
      = Server.insertAll m (ls ++ buf) (List.replicate (ls ++ buf).length c) := by
  rw [List.length_append, List.replicate_add, insertAll_append _ _ _ _ _ (by simp)]

theorem Filling.step {st : Proxy} {key c : Str} {i : Nat} {s : Proxy × List Str}
    (h : Filling st key c i s) : Filling st key c (i + 1) (insertReplica key c s i) := by
  obtain ⟨puts, hreq, hlab, hciph, hcont, hchunk⟩ := h.flushed
  have hcount : s.1.labelCount = st.labelCount + i := by rw [h.rest]
  have hname : s.1.replicaToLabel.insert (replicaName key i) s.1.labelCount
      = insertNames st.replicaToLabel st.labelCount (replicaNames key (i + 1)) := by
    rw [replicaNames_succ, insertNames_append, ← h.replicaToLabel, replicaNames_length, hcount]
    rfl
  have hlabels : puts.flatMap Request.labels ++ (s.2 ++ [toString s.1.labelCount])
      = labelsFrom st.labelCount (i + 1) := by
    rw [← List.append_assoc, hlab, labelsFrom_append, hcount]
    rfl
  unfold insertReplica
  by_cases hfull : 50 ≤ (s.2 ++ [toString s.1.labelCount]).length
  · simp only [if_pos hfull]
    refine ⟨?_, hname, ⟨puts ++ [.putBatch (s.2 ++ [toString s.1.labelCount])
      (List.replicate (s.2 ++ [toString s.1.labelCount]).length c)], ?_, ?_, ?_, ?_, ?_⟩, by simp⟩
    · rw [h.rest]; simp [Nat.add_assoc]
    · simp [hreq]
    · simpa [Request.labels] using hlabels
    · simp [Request.labels, Request.ciphers, hciph, List.replicate_add]
    · simp only [Server.putBatch_contents, hcont, flush_labels, List.flatMap_append,
        List.flatMap_cons, List.flatMap_nil, List.append_nil, Request.labels]
    · intro r hr
      rcases List.mem_append.mp hr with hr | hr
      · exact hchunk r hr
      · rw [List.mem_singleton] at hr
        subst hr
        have := h.short
        refine ⟨by simp, ?_, by simp⟩
        simp only [List.length_append, List.length_singleton]
        omega
  · simp only [if_neg hfull]
    refine ⟨?_, hname, ⟨puts, hreq, hlabels, hciph, hcont, hchunk⟩, not_le.mp hfull⟩
    rw [h.rest]; simp [Nat.add_assoc]

/-- **`insert_replicas`**: one ciphertext under the next `n` labels. -/
theorem insertReplicas_spec {st : Proxy} {value c : Str}
    (hc : st.encryptionEngine.encrypt value = .ok c) (key : Str) (n : Nat) :
    ∃ st', st.insertReplicas key n value = .ok st' ∧
      st' = { st with replicaToLabel := st'.replicaToLabel
                      labelCount := st'.labelCount
                      storage := st'.storage } ∧
      Layout st st' (replicaNames key n) (List.replicate n c) := by
  have hloop : Filling st key c n
      ((List.range n).foldl (insertReplica key c) (st, [])) := by
    induction n with
    | zero =>
        exact ⟨rfl, rfl, ⟨[], by simp, rfl, rfl, rfl, by simp⟩, by simp⟩
    | succ n ih =>
        rw [List.range_succ, List.foldl_append]
        exact ih.step
  simp only [insertReplicas, hc, ok_bind]
  set s := (List.range n).foldl (insertReplica key c) (st, []) with hs
  obtain ⟨puts, hreq, hlab, hciph, hcont, hchunk⟩ := hloop.flushed
  have hcount : s.1.labelCount = st.labelCount + n := by rw [hloop.rest]
  by_cases hbuf : s.2 = []
  · rw [if_pos hbuf]
    rw [hbuf, List.append_nil] at hlab
    refine ⟨s.1, rfl, by rw [hloop.rest], by simp, by simpa using hcount, hloop.replicaToLabel,
      ?_, puts, hreq, by simpa using hlab, ?_, hchunk⟩
    · rw [hcont, hlab]; simp
    · rw [hciph, hlab]; simp
  · rw [if_neg hbuf]
    refine ⟨_, rfl, by rw [hloop.rest], by simp, by simpa using hcount, hloop.replicaToLabel, ?_,
      puts ++ [.putBatch s.2 (List.replicate s.2.length c)], ?_, ?_, ?_, ?_⟩
    · simp only [Server.putBatch_contents, hcont, flush_labels, hlab]
      simp
    · simp [hreq]
    · simpa [Request.labels] using hlab
    · have hlen := congrArg List.length hlab
      simp only [List.length_append, labelsFrom_length] at hlen
      simp only [List.flatMap_append, hciph, List.flatMap_cons, List.flatMap_nil, List.append_nil,
        Request.ciphers, ← hlen, List.replicate_add]
    · intro r hr
      rcases List.mem_append.mp hr with hr | hr
      · exact hchunk r hr
      · rw [List.mem_singleton] at hr
        subst hr
        exact ⟨List.length_pos_iff.mpr hbuf, hloop.short.le, by simp⟩

/-! ## The whole layout -/

/-- The replicas of one key: how many, and the plaintext they start with. -/
structure Block where
  key : Str
  count : Nat
  value : Str

/-- The names of the replicas of a list of blocks, in order. -/
def blockNames (blocks : List Block) : List Str :=
  blocks.flatMap fun b => replicaNames b.key b.count

/-- The plaintexts under those names. -/
def blockValues (blocks : List Block) : List Str :=
  blocks.flatMap fun b => List.replicate b.count b.value

theorem blockValues_length (blocks : List Block) :
    (blockValues blocks).length = (blockNames blocks).length := by
  simp [blockValues, blockNames, List.length_flatMap]

theorem encrypts_replicate {e : EncryptionEngine} {x c : Str} (h : e.encrypt x = .ok c) (n : Nat) :
    Encrypts e (List.replicate n x) (List.replicate n c) := by
  induction n with
  | zero => exact .nil
  | succ n ih => exact .cons h ih

theorem Encrypts.append {e : EncryptionEngine} {xs ys cs ds : List Str} (h : Encrypts e xs cs)
    (h' : Encrypts e ys ds) : Encrypts e (xs ++ ys) (cs ++ ds) :=
  List.rel_append h h'

/-- Everything but the tables and the storage is as in `st`. -/
def SameRest (st st' : Proxy) : Prop :=
  st' = { st with
    keyToFrequency := st'.keyToFrequency
    keyToNumberOfReplicas := st'.keyToNumberOfReplicas
    replicaToLabel := st'.replicaToLabel
    labelCount := st'.labelCount
    storage := st'.storage }

/-- The blocks of the keys, with the random string of the key's turn. -/
def keyBlocks (alpha : ℚ) (values : Nat → Str) : Nat → List (Str × ℚ) → List Block
  | _, [] => []
  | index, (key, p) :: items =>
      ⟨key, replicaCount alpha p, values index⟩ :: keyBlocks alpha values (index + 1) items

/-- Record the replica counts of a list of blocks. -/
def insertCounts (m : UnorderedMap Nat) (blocks : List Block) : UnorderedMap Nat :=
  blocks.foldl (fun m b => m.insert b.key b.count) m

theorem insertCounts_append (m : UnorderedMap Nat) (a b : List Block) :
    insertCounts m (a ++ b) = insertCounts (insertCounts m a) b := by
  simp [insertCounts, List.foldl_append]

theorem blockNames_append (a b : List Block) : blockNames (a ++ b) = blockNames a ++ blockNames b := by
  simp [blockNames]

theorem blockValues_append (a b : List Block) :
    blockValues (a ++ b) = blockValues a ++ blockValues b := by
  simp [blockValues]

/-- What the loop of `create_replicas` adds for the items from `s` on. -/
structure LoopResult (values : Nat → Str) (s : CreateLoop) (items : List (Str × ℚ))
    (s' : CreateLoop) : Prop where
  rest : SameRest s.proxy s'.proxy
  counts : s'.proxy.keyToNumberOfReplicas
    = insertCounts s.proxy.keyToNumberOfReplicas (keyBlocks s.proxy.alpha values s.index items)
  frequencies : s'.proxy.keyToFrequency
    = items.foldl (fun m item => m.insert item.1 (truncate item.2)) s.proxy.keyToFrequency
  pairs : s'.updateCachePairs = s.updateCachePairs
    ++ (keyBlocks s.proxy.alpha values s.index items).map fun b => (b.key, b.count)
  fakes : s'.fakeProbabilities = s.fakeProbabilities
    ++ items.map fun item => fakeWeight s.proxy.alpha s.proxy.delta item.2
  created : s'.keysCreated = s.keysCreated
    + ((keyBlocks s.proxy.alpha values s.index items).map Block.count).sum
  index : s'.index = s.index + items.length
  layout : ∃ cs, Encrypts s.proxy.encryptionEngine
      (blockValues (keyBlocks s.proxy.alpha values s.index items)) cs ∧
    Layout s.proxy s'.proxy (blockNames (keyBlocks s.proxy.alpha values s.index items)) cs

/-- A layout does not see the replica counts or the frequencies. -/
theorem Layout.of_tables {st st₁ st' : Proxy} {names cs : List Str} (h : Layout st₁ st' names cs)
    (h1 : st₁.labelCount = st.labelCount) (h2 : st₁.replicaToLabel = st.replicaToLabel)
    (h3 : st₁.storage = st.storage) : Layout st st' names cs :=
  ⟨h.sameLength, by rw [h.labelCount, h1], by rw [h.replicaToLabel, h1, h2],
    by rw [h.contents, h1, h3], by simpa only [h1, h3] using h.requests⟩

/-- **One key**: its count, its frequency and its replicas. -/
theorem createReplica_spec {values : Nat → Str} {s : CreateLoop} {c : Str}
    (hc : s.proxy.encryptionEngine.encrypt (values s.index) = .ok c) (item : Str × ℚ) :
    ∃ s', createReplicaBy .exact values s item = .ok s' ∧ LoopResult values s [item] s' := by
  obtain ⟨key, p⟩ := item
  set n := replicaCount s.proxy.alpha p
  set st : Proxy := { s.proxy with
    keyToFrequency := s.proxy.keyToFrequency.insert key (truncate p)
    keyToNumberOfReplicas := s.proxy.keyToNumberOfReplicas.insert key n } with hst
  have hc' : st.encryptionEngine.encrypt (values s.index) = .ok c := hc
  obtain ⟨st', hins, hrest, hlay⟩ := insertReplicas_spec hc' key n
  have hcounts : st'.keyToNumberOfReplicas = st.keyToNumberOfReplicas := by rw [hrest]
  have hfrequencies : st'.keyToFrequency = st.keyToFrequency := by rw [hrest]
  have hblock : keyBlocks s.proxy.alpha values s.index [(key, p)]
      = [⟨key, n, values s.index⟩] := rfl
  refine ⟨{ proxy := st'
            updateCachePairs := s.updateCachePairs ++ [(key, n)]
            fakeProbabilities := s.fakeProbabilities ++ [fakeWeight s.proxy.alpha s.proxy.delta p]
            keysCreated := s.keysCreated + n
            index := s.index + 1 }, ?_, ?_⟩
  · simp only [createReplicaBy, ReplicaArithmetic.exact]
    rw [← hst, hins, ok_bind, hrest]
  · exact
      { rest := by
          rw [SameRest]
          dsimp only
          rw [hcounts, hfrequencies]
          exact hrest
        counts := hcounts
        frequencies := hfrequencies
        pairs := rfl
        fakes := rfl
        created := by simp [hblock]
        index := rfl
        layout := by
          refine ⟨List.replicate n c, ?_, ?_⟩
          · simpa [hblock, blockValues] using encrypts_replicate hc n
          · have hnames : blockNames (keyBlocks s.proxy.alpha values s.index [(key, p)])
                = replicaNames key n := by simp [hblock, blockNames]
            rw [hnames]
            exact hlay.of_tables rfl rfl rfl }

/-- One key, and then the others. -/
theorem LoopResult.cons {values : Nat → Str} {s s₁ s' : CreateLoop} {item : Str × ℚ}
    {items : List (Str × ℚ)} (h : LoopResult values s [item] s₁)
    (h' : LoopResult values s₁ items s') : LoopResult values s (item :: items) s' := by
  have hrest : SameRest s.proxy s₁.proxy := h.rest
  have hα : s₁.proxy.alpha = s.proxy.alpha := by rw [hrest]
  have hδ : s₁.proxy.delta = s.proxy.delta := by rw [hrest]
  have hengine : s₁.proxy.encryptionEngine = s.proxy.encryptionEngine := by rw [hrest]
  have hindex : s₁.index = s.index + 1 := h.index
  have hblocks : keyBlocks s.proxy.alpha values s.index (item :: items)
      = keyBlocks s.proxy.alpha values s.index [item]
        ++ keyBlocks s₁.proxy.alpha values s₁.index items := by
    rw [hα, hindex]
    rfl
  obtain ⟨cs, hcs, hlay⟩ := h.layout
  obtain ⟨cs', hcs', hlay'⟩ := h'.layout
  rw [hengine] at hcs'
  exact
    { rest := by
        have hrest' := h'.rest
        rw [SameRest, hrest] at hrest'
        exact hrest'
      counts := by rw [h'.counts, h.counts, hblocks, insertCounts_append]
      frequencies := by
        rw [h'.frequencies, h.frequencies]
        rfl
      pairs := by rw [h'.pairs, h.pairs, hblocks, List.map_append, List.append_assoc]
      fakes := by
        rw [h'.fakes, h.fakes, hα, hδ, List.append_assoc]
        rfl
      created := by
        rw [h'.created, h.created, hblocks, List.map_append, List.sum_append, Nat.add_assoc]
      index := by
        rw [h'.index, hindex, List.length_cons]
        omega
      layout := by
        rw [hblocks, blockValues_append, blockNames_append]
        exact ⟨cs ++ cs', Encrypts.append hcs hcs', hlay.trans hlay'⟩ }

/-- The loop of `create_replicas`. -/
theorem createLoop_spec (values : Nat → Str) (items : List (Str × ℚ)) : ∀ s : CreateLoop,
    (∀ i, ∃ c, s.proxy.encryptionEngine.encrypt (values i) = .ok c) →
    ∃ s', items.foldlM (createReplicaBy .exact values) s = .ok s' ∧ LoopResult values s items s' := by
  induction items with
  | nil =>
      intro s _
      exact ⟨s, rfl, rfl, rfl, rfl, by simp [keyBlocks], by simp, by simp [keyBlocks], rfl,
        [], .nil, .refl _⟩
  | cons item items ih =>
      intro s henc
      obtain ⟨c, hc⟩ := henc s.index
      obtain ⟨s₁, hstep, hone⟩ := createReplica_spec hc item
      have hrest : SameRest s.proxy s₁.proxy := hone.rest
      have hengine : s₁.proxy.encryptionEngine = s.proxy.encryptionEngine := by rw [hrest]
      obtain ⟨s', hrun, hres⟩ := ih s₁ (by rw [hengine]; exact henc)
      exact ⟨s', by rw [List.foldlM_cons, hstep, ok_bind, hrun], hone.cons hres⟩

/-- The dummy block, if any dummy replicas are needed. -/
def dummyBlocks (dummyKey : Str) (dummyR : Nat) (value : Str) : List Block :=
  if dummyR = 0 then [] else [⟨dummyKey, dummyR, value⟩]

/-- The dummy count of `create_replicas`. -/
def dummyCount (st : Proxy) (values : Nat → Str) : Nat :=
  sizeSub (2 * st.realDistribution.items.length)
    ((keyBlocks st.alpha values 0 st.realDistribution.pairs).map Block.count).sum

/-- All blocks of `create_replicas`: the keys' in item order, then the dummy. -/
def allBlocks (st : Proxy) (values : Nat → Str) : List Block :=
  keyBlocks st.alpha values 0 st.realDistribution.pairs
    ++ dummyBlocks st.dummyKey (st.dummyCount values) (values st.realDistribution.pairs.length)

/-- The weights of the fake distribution. -/
def fakeWeights (st : Proxy) (values : Nat → Str) : List ℚ :=
  (st.realDistribution.pairs.map fun item => fakeWeight st.alpha st.delta item.2)
    ++ if st.dummyCount values = 0 then []
      else [st.alpha / (1 / st.delta - 1) * (st.dummyCount values : ℚ)]

/-- What `create_replicas` makes of the state. -/
structure Created (st : Proxy) (values : Nat → Str) (st' : Proxy) : Prop where
  rest : st' = { st with
    keyToFrequency := st'.keyToFrequency
    keyToNumberOfReplicas := st'.keyToNumberOfReplicas
    replicaToLabel := st'.replicaToLabel
    labelCount := st'.labelCount
    storage := st'.storage
    dummyKeys := st.dummyCount values
    updateCache := UpdateCache.ofPairs ((st.allBlocks values).map fun b => (b.key, b.count))
    fakeDistribution :=
      { items := st.realDistribution.items ++ [st.dummyKey]
        probabilities := st.fakeWeights values } }
  counts : st'.keyToNumberOfReplicas
    = insertCounts st.keyToNumberOfReplicas (st.allBlocks values)
  frequencies : st'.keyToFrequency = st.realDistribution.pairs.foldl
    (fun m item => m.insert item.1 (truncate item.2)) st.keyToFrequency
  layout : ∃ cs, Encrypts st.encryptionEngine (blockValues (st.allBlocks values)) cs ∧
    Layout st st' (blockNames (st.allBlocks values)) cs

/-- **The dummy's replicas**: one ciphertext under the labels that are left. -/
theorem createDummies_spec {values : Nat → Str} {s : CreateLoop} {n : Nat} (hn : n ≠ 0) {c : Str}
    (hc : s.proxy.encryptionEngine.encrypt (values s.index) = .ok c) :
    ∃ st', createDummiesBy .exact values s n = .ok
        { proxy := st'
          updateCachePairs := s.updateCachePairs ++ [(st'.dummyKey, n)]
          fakeProbabilities := s.fakeProbabilities
            ++ [s.proxy.alpha / (1 / s.proxy.delta - 1) * (n : ℚ)]
          keysCreated := s.keysCreated
          index := s.index + 1 } ∧
      st' = { s.proxy with
        dummyKeys := n
        keyToNumberOfReplicas := s.proxy.keyToNumberOfReplicas.insert s.proxy.dummyKey n
        replicaToLabel := st'.replicaToLabel
        labelCount := st'.labelCount
        storage := st'.storage } ∧
      Layout s.proxy st' (replicaNames s.proxy.dummyKey n) (List.replicate n c) := by
  set st : Proxy := { s.proxy with
    dummyKeys := n
    keyToNumberOfReplicas := s.proxy.keyToNumberOfReplicas.insert s.proxy.dummyKey n }
  have hc' : st.encryptionEngine.encrypt (values s.index) = .ok c := hc
  obtain ⟨st', hins, hrest, hlay⟩ := insertReplicas_spec hc' s.proxy.dummyKey n
  refine ⟨st', ?_, hrest, hlay.of_tables rfl rfl rfl⟩
  rw [createDummiesBy, if_neg hn]
  exact bind_eq_ok.mpr ⟨st', hins, rfl⟩

/-- **`create_replicas`** returns once the random strings can be encrypted,
with one block of labels per key in item order and one for the dummy. -/
theorem createReplicas_spec (st : Proxy) (values : Nat → Str)
    (henc : ∀ i, ∃ c, st.encryptionEngine.encrypt (values i) = .ok c) :
    ∃ st', st.createReplicas values = .ok st' ∧ Created st values st' := by
  obtain ⟨s, hloop, hres⟩ := createLoop_spec values st.realDistribution.pairs { proxy := st } henc
  have hrest : SameRest st s.proxy := hres.rest
  have hα : s.proxy.alpha = st.alpha := by rw [hrest]
  have hδ : s.proxy.delta = st.delta := by rw [hrest]
  have hdk : s.proxy.dummyKey = st.dummyKey := by rw [hrest]
  have hengine : s.proxy.encryptionEngine = st.encryptionEngine := by rw [hrest]
  have hcreated : sizeSub (2 * st.realDistribution.items.length) s.keysCreated
      = st.dummyCount values := by
    rw [hres.created]; simp [dummyCount]
  have hindex : s.index = st.realDistribution.pairs.length := by rw [hres.index]; simp
  obtain ⟨cs, hcs, hlay⟩ := hres.layout
  have hrun : st.createReplicas values = createDummiesBy .exact values s (st.dummyCount values) >>= fun s =>
      .ok { s.proxy with
            updateCache := UpdateCache.ofPairs s.updateCachePairs
            fakeDistribution := { items := st.realDistribution.items ++ [s.proxy.dummyKey]
                                  probabilities := s.fakeProbabilities } } := by
    rw [createReplicas, createReplicasBy, hloop, ok_bind, hcreated]
  rw [hrun]
  by_cases hd : st.dummyCount values = 0
  · rw [createDummiesBy, if_pos hd, ok_bind]
    have hblocks : st.allBlocks values = keyBlocks st.alpha values 0 st.realDistribution.pairs := by
      simp [allBlocks, dummyBlocks, hd]
    refine ⟨_, rfl, ?_, ?_, ?_, cs, ?_, ?_⟩
    · rw [hblocks, fakeWeights, if_pos hd, hrest, hres.pairs, hres.fakes]
      simp
    · rw [hblocks, ← hres.counts]
    · exact hres.frequencies
    · rw [hblocks]; exact hcs
    · rw [hblocks]
      exact ⟨hlay.sameLength, hlay.labelCount, hlay.replicaToLabel, hlay.contents, hlay.requests⟩
  · obtain ⟨c, hc⟩ := henc s.index
    have hblocks : st.allBlocks values = keyBlocks st.alpha values 0 st.realDistribution.pairs
        ++ [⟨st.dummyKey, st.dummyCount values, values s.index⟩] := by
      simp [allBlocks, dummyBlocks, hd, hindex]
    obtain ⟨st₂, hdum, hrest₂, hlay₂⟩ := createDummies_spec hd (hengine ▸ hc)
    have hall := hlay.trans hlay₂
    rw [hdk] at hall
    rw [hdum, ok_bind]
    refine ⟨_, rfl, ?_, ?_, ?_, cs ++ List.replicate (st.dummyCount values) c, ?_, ?_⟩
    · rw [hblocks, fakeWeights, if_neg hd, hrest₂, hrest, hres.pairs, hres.fakes]
      simp
    · rw [hblocks, insertCounts_append, ← hres.counts, hrest₂, ← hdk]
      rfl
    · rw [hrest₂]; exact hres.frequencies
    · rw [hblocks, blockValues_append]
      exact Encrypts.append hcs (by simpa [blockValues] using encrypts_replicate hc _)
    · rw [hblocks, blockNames_append]
      have hone : blockNames [⟨st.dummyKey, st.dummyCount values, values s.index⟩]
          = replicaNames st.dummyKey (st.dummyCount values) := by simp [blockNames]
      rw [hone]
      exact ⟨hall.sameLength, hall.labelCount, hall.replicaToLabel, hall.contents, hall.requests⟩

/-! ## Calls that return -/

theorem insertReplicas_rest {st st' : Proxy} {key value : Str} {n : Nat}
    (h : st.insertReplicas key n value = .ok st') : SameRest st st' := by
  obtain ⟨c, hc, -⟩ := bind_eq_ok.mp h
  obtain ⟨st₁, h₁, hrest, -⟩ := insertReplicas_spec hc key n
  rw [h] at h₁
  cases h₁
  rw [SameRest, hrest]

theorem createLoop_rest {values : Nat → Str} {items : List (Str × ℚ)} {s s' : CreateLoop}
    (h : items.foldlM (createReplicaBy .exact values) s = .ok s') : SameRest s.proxy s'.proxy := by
  induction items generalizing s with
  | nil =>
      cases h
      rfl
  | cons item items ih =>
      rw [List.foldlM_cons, bind_eq_ok] at h
      obtain ⟨s₁, h₁, h⟩ := h
      obtain ⟨st, hst, h₁⟩ := bind_eq_ok.mp h₁
      cases h₁
      have hfirst := insertReplicas_rest hst
      have hrest := ih h
      rw [SameRest] at hfirst hrest ⊢
      rw [hrest, hfirst]

/-- The members `create_replicas` does not write. -/
theorem createReplicas_rest {st st' : Proxy} {values : Nat → Str}
    (h : st.createReplicas values = .ok st') : st' = { st with
      keyToFrequency := st'.keyToFrequency
      keyToNumberOfReplicas := st'.keyToNumberOfReplicas
      replicaToLabel := st'.replicaToLabel
      labelCount := st'.labelCount
      storage := st'.storage
      dummyKeys := st'.dummyKeys
      updateCache := st'.updateCache
      fakeDistribution := st'.fakeDistribution } := by
  simp only [createReplicas, createReplicasBy, bind_eq_ok] at h
  obtain ⟨s, hloop, s', hdummies, h⟩ := h
  cases h
  have hrest := createLoop_rest hloop
  rw [SameRest] at hrest
  rw [createDummiesBy] at hdummies
  split at hdummies
  · cases hdummies
    dsimp only
    rw [hrest]
  · obtain ⟨st₁, hst₁, hdummies⟩ := bind_eq_ok.mp hdummies
    cases hdummies
    have hlast := insertReplicas_rest hst₁
    rw [SameRest] at hlast
    dsimp only
    rw [hlast, hrest]

/-- A loop that returned has encrypted every string it used: it returns the
same with any strings that agree on those that can be encrypted. -/
theorem createLoop_congr {values values' : Nat → Str} {items : List (Str × ℚ)} {s s' : CreateLoop}
    (hsame : ∀ i c, s.proxy.encryptionEngine.encrypt (values i) = .ok c → values' i = values i)
    (h : items.foldlM (createReplicaBy .exact values) s = .ok s') :
    items.foldlM (createReplicaBy .exact values') s = .ok s' := by
  induction items generalizing s with
  | nil => exact h
  | cons item items ih =>
      rw [List.foldlM_cons, bind_eq_ok] at h
      obtain ⟨s₁, h₁, h⟩ := h
      have hengine : s₁.proxy.encryptionEngine = s.proxy.encryptionEngine := by
        have hone : [item].foldlM (createReplicaBy .exact values) s = .ok s₁ := by
          rw [List.foldlM_cons, h₁]
          rfl
        have hrest : SameRest s.proxy s₁.proxy := createLoop_rest hone
        rw [hrest]
      have hvalue : values' s.index = values s.index := by
        obtain ⟨st, hst, -⟩ := bind_eq_ok.mp h₁
        obtain ⟨c, hc, -⟩ := bind_eq_ok.mp hst
        exact hsame s.index c hc
      have h₁' : createReplicaBy .exact values' s item = .ok s₁ := by
        rw [← h₁]
        simp only [createReplicaBy, hvalue]
      rw [List.foldlM_cons, h₁', ok_bind]
      exact ih (hengine ▸ hsame) h

theorem createReplicas_congr {st st' : Proxy} {values values' : Nat → Str}
    (hsame : ∀ i c, st.encryptionEngine.encrypt (values i) = .ok c → values' i = values i)
    (h : st.createReplicas values = .ok st') : st.createReplicas values' = .ok st' := by
  simp only [createReplicas, createReplicasBy, bind_eq_ok] at h ⊢
  obtain ⟨s, hloop, s', hdummies, h⟩ := h
  refine ⟨s, createLoop_congr hsame hloop, s', ?_, h⟩
  rw [createDummiesBy] at hdummies ⊢
  split at hdummies
  · rename_i hd
    rw [if_pos hd]
    exact hdummies
  · rename_i hd
    rw [if_neg hd]
    have hengine : s.proxy.encryptionEngine = st.encryptionEngine := by
      have hrest : SameRest st s.proxy := createLoop_rest hloop
      rw [hrest]
    have hvalue : values' s.index = values s.index := by
      obtain ⟨st₁, hst₁, -⟩ := bind_eq_ok.mp hdummies
      obtain ⟨c, hc, -⟩ := bind_eq_ok.mp hst₁
      exact hsame s.index c (hengine ▸ hc)
    rw [hvalue]
    exact hdummies

/-- **A call that returned** on some key has done all of `Created`, whatever
the strings it did not need. -/
theorem createReplicas_created {st st' : Proxy} {values : Nat → Str}
    (hne : st.realDistribution.pairs ≠ []) (h : st.createReplicas values = .ok st') :
    ∃ values', Created st values' st' := by
  -- the first string was encrypted, and can stand for those that were not
  obtain ⟨c₀, hc₀⟩ : ∃ c, st.encryptionEngine.encrypt (values 0) = .ok c := by
    obtain ⟨item, items, hitems⟩ := List.exists_cons_of_ne_nil hne
    obtain ⟨s, hloop, -⟩ := bind_eq_ok.mp h
    rw [hitems, List.foldlM_cons, bind_eq_ok] at hloop
    obtain ⟨s₁, h₁, -⟩ := hloop
    obtain ⟨st₁, hst₁, -⟩ := bind_eq_ok.mp h₁
    obtain ⟨c, hc, -⟩ := bind_eq_ok.mp hst₁
    exact ⟨c, hc⟩
  set values' : Nat → Str := fun i =>
    if (st.encryptionEngine.encrypt (values i)).toOption.isSome then values i
    else values 0 with hvalues'
  have hsame : ∀ i c, st.encryptionEngine.encrypt (values i) = .ok c → values' i = values i := by
    intro i c hc
    simp [hvalues', hc, Except.toOption]
  have henc : ∀ i, ∃ c, st.encryptionEngine.encrypt (values' i) = .ok c := by
    intro i
    cases hc : st.encryptionEngine.encrypt (values i) with
    | ok c => exact ⟨c, by rw [hsame i c hc, hc]⟩
    | error e => exact ⟨c₀, by simp [hvalues', hc, hc₀, Except.toOption]⟩
  obtain ⟨st₁, h₁, hcreated⟩ := createReplicas_spec st values' henc
  rw [createReplicas_congr hsame h] at h₁
  cases h₁
  exact ⟨values', hcreated⟩

/-! ## `init` -/

/-- The proxy that `init` has when it calls `create_replicas`. -/
abbrev takeArguments (st : Proxy) (dist : Distribution) (alpha delta : ℚ) : Proxy :=
  { st with realDistribution := dist, alpha := alpha, delta := delta }

section Init

variable {st₀ : Proxy} {dist : Distribution} {alpha delta : ℚ} {values : Nat → Str}

variable (dist alpha delta) in
/-- `init` returns once the random strings can be encrypted. -/
theorem init_created (henc : ∀ i, ∃ c, st₀.encryptionEngine.encrypt (values i) = .ok c) :
    ∃ st, st₀.init dist alpha delta values = .ok st ∧
      Created (st₀.takeArguments dist alpha delta) values st :=
  createReplicas_spec (st₀.takeArguments dist alpha delta) values henc

theorem created_of_init {st : Proxy}
    (henc : ∀ i, ∃ c, st₀.encryptionEngine.encrypt (values i) = .ok c)
    (h : st₀.init dist alpha delta values = .ok st) :
    Created (st₀.takeArguments dist alpha delta) values st := by
  obtain ⟨st', h', hc⟩ := init_created dist alpha delta henc
  rw [h] at h'
  cases h'
  exact hc

/-- The same of an `init` that returned, whatever the strings it did not
need. -/
theorem exists_created_of_init {st : Proxy}
    (hlengths : dist.items.length = dist.probabilities.length) (hpos : 0 < dist.items.length)
    (h : st₀.init dist alpha delta values = .ok st) :
    ∃ values', Created (st₀.takeArguments dist alpha delta) values' st := by
  apply createReplicas_created _ h
  intro hnil
  have hpairs : dist.pairs.length = dist.items.length := by
    rw [Distribution.pairs, List.length_zip, ← hlengths, min_self]
  rw [show dist.pairs = [] from hnil, List.length_nil] at hpairs
  omega

end Init

/-- A proxy before `init`, with an engine that only pads. -/
def blank : Proxy := { dummyKey := ['d'], encryptionEngine := ⟨Evp.padding, [], []⟩ }

/-- The string `a` first, then `b`. -/
def firstStrings (i : Nat) : Str := if i = 0 then ['a'] else ['b']

theorem firstStrings_roundTrips (i : Nat) : blank.encryptionEngine.RoundTrips (firstStrings i) := by
  unfold firstStrings
  split
  · exact ⟨Evp.padding.encrypt [] [] ['a'], by decide +kernel, by decide +kernel⟩
  · exact ⟨Evp.padding.encrypt [] [] ['b'], by decide +kernel, by decide +kernel⟩

end Proxy

end Pancake
