import Pancake.EqualityPattern

/-!
# What the pattern tells of the inputs

Two runs look alike to the server exactly when the inputs at their sources are
equal at the same places (`FilledAlike`). Where all inputs differ this comes
down to less. A ciphertext is new where a key's labels start and where a put
is written back, and only there. So the pattern gives away how many replicas
each key has and which accesses are puts; and, the labels being known anyway,
it gives away no more, since these two determine the sources.
-/

namespace Pancake

open LazyReplicas Patterns

namespace Execution

variable (x : Execution)

/-! ## Equal inputs -/

/-- The inputs at two places are equal. -/
def SameText (i j : Nat) : Prop := x.sources[i]?.map x.text = x.sources[j]?.map x.text

/-- As many places in both runs, and equal inputs at the same ones. -/
structure FilledAlike (x y : Execution) : Prop where
  length : x.sources.length = y.sources.length
  same : ∀ i < x.sources.length, ∀ j < x.sources.length, x.SameText i j ↔ y.SameText i j

/-- Different strings drawn and values put are different. -/
def DistinctTexts : Prop := ∀ s ∈ x.sources, ∀ s' ∈ x.sources, x.text s = x.text s' → s = s'

theorem filledAlike_iff {x y : Execution} :
    FilledAlike x y ↔ SamePattern (x.sources.map x.text) (y.sources.map y.text) := by
  simp only [SamePattern, List.length_map, List.getElem?_map]
  exact ⟨fun h => ⟨h.length, h.same⟩, fun h => ⟨h.1, h.2⟩⟩

/-- Distinct inputs are as equal as their sources. -/
theorem samePattern_sources {x : Execution} (h : x.DistinctTexts) :
    SamePattern (x.sources.map x.text) x.sources := by
  refine ⟨List.length_map _, fun i hi j hj => ?_⟩
  rw [List.length_map] at hi hj
  rw [List.getElem?_map, List.getElem?_map, List.getElem?_eq_getElem hi,
    List.getElem?_eq_getElem hj, Option.map_some, Option.map_some, Option.some_inj, Option.some_inj]
  exact ⟨h _ (List.getElem_mem hi) _ (List.getElem_mem hj), congrArg x.text⟩

/-! ## The shape of the inputs -/

/-- How many replicas each key has, in the order of the labels. -/
def counts : List Nat := x.replicaCounts.map Prod.snd

/-- The labels accessed, call by call. -/
def accessedLabels : List (List Nat) := x.accesses.map (List.map Access.label)

/-- Which accesses are puts, call by call. -/
def puts : List (List Bool) := x.accesses.map (List.map fun a => a.write.isSome)

/-- No replica's name is also that of another. -/
def NamesDistinct : Prop :=
  (x.replicaCounts.flatMap fun r => Proxy.replicaNames r.1 r.2).Nodup

instance : Decidable x.NamesDistinct := inferInstanceAs (Decidable (List.Nodup _))

/-- As many labels for each key, and the same accesses puts. -/
structure SameShape (x y : Execution) : Prop where
  counts : x.counts = y.counts
  puts : x.puts = y.puts

/-! ### What is written -/

theorem callAccesses_write {call : Nat} {a : Access Str Source Nat} (ops : List Operation) :
    ∀ {slot s : Nat} {isTrues : List Bool} {ids : List Nat},
    (x.callAccesses call slot ops isTrues ids)[s]? = some a →
    ∀ v, a.write = some v → v = .put call (slot + s) := by
  induction ops with
  | nil => intro slot s isTrues ids h; cases h
  | cons op ops ih =>
      intro slot s isTrues ids h v hv
      cases isTrues with
      | nil => cases h
      | cons t isTrues =>
      cases ids with
      | nil => cases h
      | cons id ids =>
          rw [callAccesses] at h
          cases s with
          | zero =>
              obtain rfl := Option.some.inj h
              have hop : (if op.value = [] then none else some (Source.put call slot))
                  = some v := hv
              split_ifs at hop
              exact (Option.some.inj hop).symm
          | succ s =>
              rw [ih h v hv, Nat.add_assoc, Nat.add_comm 1 s]

/-- A put is the source it has its place as. -/
theorem accesses_write {call s : Nat} {as : List (Access Str Source Nat)}
    {a : Access Str Source Nat} (has : x.accesses[call]? = some as) (ha : as[s]? = some a)
    {v : Source} (hv : a.write = some v) : v = .put call s := by
  rw [accesses, List.getElem?_map, Option.map_eq_some_iff] at has
  obtain ⟨⟨c, n⟩, hc, rfl⟩ := has
  rw [List.getElem?_zipIdx, Option.map_eq_some_iff] at hc
  obtain ⟨c', -, hpair⟩ := hc
  obtain ⟨rfl, rfl⟩ := Prod.mk.inj hpair
  have hwrite := x.callAccesses_write c'.batch.operations ha v hv
  rwa [Nat.zero_add, Nat.zero_add] at hwrite

theorem writes_callAccesses (call : Nat) (ops : List Operation) :
    ∀ (slot : Nat) (isTrues : List Bool) (ids : List Nat),
    (writes (x.callAccesses call slot ops isTrues ids)).Nodup ∧
      ∀ v ∈ writes (x.callAccesses call slot ops isTrues ids), ∃ s, slot ≤ s ∧ v = .put call s := by
  induction ops with
  | nil => intro slot isTrues ids; simp [callAccesses, writes]
  | cons op ops ih =>
      intro slot isTrues ids
      cases isTrues with
      | nil => simp [callAccesses, writes]
      | cons t isTrues =>
      cases ids with
      | nil => simp [callAccesses, writes]
      | cons id ids =>
          obtain ⟨hnodup, hput⟩ := ih (slot + 1) isTrues ids
          have hlater : ∀ v ∈ writes (x.callAccesses call (slot + 1) ops isTrues ids),
              ∃ s, slot ≤ s ∧ v = .put call s := by
            intro v hv
            obtain ⟨s, hs, rfl⟩ := hput v hv
            exact ⟨s, by omega, rfl⟩
          by_cases hop : op.value = []
          · rw [callAccesses, writes, List.filterMap_cons_none (by simp [hop])]
            exact ⟨hnodup, hlater⟩
          · rw [callAccesses, writes,
              List.filterMap_cons_some (b := Source.put call slot) (by simp [hop])]
            refine ⟨List.nodup_cons.mpr ⟨?_, hnodup⟩, List.forall_mem_cons.mpr
              ⟨⟨slot, le_rfl, rfl⟩, hlater⟩⟩
            intro hmem
            obtain ⟨s, hs, he⟩ := hput _ hmem
            obtain ⟨-, rfl⟩ := Source.put.inj he
            omega

/-- Every put of the run is another source. -/
theorem writes_accesses : (writes x.accesses.flatten).Nodup ∧
    ∀ v ∈ writes x.accesses.flatten, ∃ call s, v = .put call s := by
  have hall : ∀ (calls : List Call) (n : Nat), (writes ((calls.zipIdx n).map fun c =>
      x.callAccesses c.2 0 c.1.batch.operations c.1.batch.isTrues c.1.replicaIds).flatten).Nodup ∧
      ∀ v ∈ writes ((calls.zipIdx n).map fun c =>
        x.callAccesses c.2 0 c.1.batch.operations c.1.batch.isTrues c.1.replicaIds).flatten,
        ∃ call s, n ≤ call ∧ v = .put call s := by
    intro calls
    induction calls with
    | nil => intro n; simp [writes]
    | cons c calls ih =>
        intro n
        obtain ⟨hnodup, hput⟩ := ih (n + 1)
        obtain ⟨hfirst, hputFirst⟩ := x.writes_callAccesses n c.batch.operations 0
          c.batch.isTrues c.replicaIds
        rw [List.zipIdx_cons, List.map_cons, List.flatten_cons, writes, List.filterMap_append]
        refine ⟨List.nodup_append.mpr ⟨hfirst, hnodup, ?_⟩, ?_⟩
        · intro v hv w hw he
          obtain ⟨s, -, rfl⟩ := hputFirst v hv
          obtain ⟨call, s', hcall, rfl⟩ := hput w hw
          obtain ⟨rfl, -⟩ := Source.put.inj he
          omega
        · intro v hv
          rcases List.mem_append.mp hv with hv | hv
          · obtain ⟨s, -, rfl⟩ := hputFirst v hv
            exact ⟨n, s, le_rfl, rfl⟩
          · obtain ⟨call, s, hcall, rfl⟩ := hput v hv
            exact ⟨call, s, by omega, rfl⟩
  refine ⟨(hall x.calls 0).1, fun v hv => ?_⟩
  obtain ⟨call, s, -, rfl⟩ := (hall x.calls 0).2 v hv
  exact ⟨call, s, rfl⟩

/-! ### The pattern gives the shape away -/

theorem firsts_blockSources (counts : List Nat) : ∀ (j : Nat) (seen : List Source),
    (∀ i, j ≤ i → Source.drawn i ∉ seen) →
    firsts seen (blockSources j counts) = counts.flatMap starts := by
  induction counts with
  | nil => intro j seen _; rfl
  | cons n counts ih =>
      intro j seen hseen
      rw [blockSources, firsts_append, firsts_replicate (hseen j le_rfl), List.flatMap_cons,
        ih (j + 1) _ ?_]
      intro i hi hmem
      rcases List.mem_append.mp hmem with hmem | hmem
      · exact hseen i (by omega) hmem
      · have he := List.eq_of_mem_replicate hmem
        obtain rfl := Source.drawn.inj he
        omega

theorem mem_blockSources {counts : List Nat} : ∀ {j : Nat} {s : Source},
    s ∈ blockSources j counts → ∃ i, s = .drawn i := by
  induction counts with
  | nil => intro j s h; cases h
  | cons n counts ih =>
      intro j s h
      rcases List.mem_append.mp h with h | h
      · exact ⟨j, List.eq_of_mem_replicate h⟩
      · exact ih h

theorem mem_zip_iff_getElem? {α β : Type} {as : List α} {bs : List β} {a : α} {b : β} :
    (a, b) ∈ as.zip bs ↔ ∃ i : Nat, as[i]? = some a ∧ bs[i]? = some b := by
  rw [List.mem_iff_getElem?]
  exact exists_congr fun i => List.getElem?_zip_eq_some

section Valid

variable {x} {y : Execution}

theorem counts_eq (hlengths : x.dist.items.length = x.dist.probabilities.length) :
    x.counts = x.dist.probabilities.map (Proxy.replicaCount x.alpha)
      ++ [2 * x.dist.items.length
        - (x.dist.probabilities.map (Proxy.replicaCount x.alpha)).sum] := by
  have hkeys : (x.dist.pairs.map fun item => (item.1, Proxy.replicaCount x.alpha item.2)).map
      Prod.snd = x.dist.probabilities.map (Proxy.replicaCount x.alpha) := by
    rw [← List.map_snd_zip hlengths.ge, List.map_map, List.map_map]
    rfl
  rw [← hkeys, counts, replicaCounts, List.map_append]
  rfl

/-- Every key has a label, and so has the dummy key. -/
theorem counts_pos (ha : CallerArguments x.dist x.alpha x.delta) : ∀ n ∈ x.counts, 0 < n := by
  have hlt := ha.sum_replicaCount.2
  intro n hn
  rw [counts_eq ha.lengths, List.mem_append, List.mem_singleton] at hn
  rcases hn with hn | rfl
  · obtain ⟨p, hp, rfl⟩ := List.mem_map.mp hn
    exact ha.one_le_replicaCount hp
  · omega

/-- New sources: the starts of the blocks, and the puts. -/
theorem firsts_sources (ha : CallerArguments x.dist x.alpha x.delta) :
    firsts [] x.sources = x.counts.flatMap starts ++ x.accesses.flatMap newPlaces := by
  have hfirst : .drawn 0 ∈ x.initialSources := by
    have hpos := counts_pos ha
    have hne : x.counts ≠ [] := by
      rw [counts_eq ha.lengths]
      exact List.append_ne_nil_of_right_ne_nil _ (List.cons_ne_nil _ _)
    obtain ⟨n, ns, hcounts⟩ := List.exists_cons_of_ne_nil hne
    rw [hcounts] at hpos
    show _ ∈ blockSources 0 x.counts
    rw [hcounts, blockSources]
    exact List.mem_append_left _ (List.mem_replicate.mpr ⟨(hpos n List.mem_cons_self).ne', rfl⟩)
  obtain ⟨hnodup, hputs⟩ := x.writes_accesses
  have hinitial : firsts [] x.initialSources = x.counts.flatMap starts :=
    firsts_blockSources _ _ _ fun _ _ h => absurd h List.not_mem_nil
  rw [sources, firsts_append, List.nil_append, hinitial]
  congr 1
  refine firsts_shown x.accesses [] _ ⟨?_, by simp [writes], hnodup, ?_⟩
  · intro l
    rw [found, List.getD_eq_getElem?_getD]
    cases hl : x.initialSources[l]? with
    | none => exact hfirst
    | some s => exact List.mem_of_getElem? hl
  · intro v hv hmem
    obtain ⟨call, s, rfl⟩ := hputs v hv
    obtain ⟨i, he⟩ := mem_blockSources hmem
    cases he

/-- **The shape shows**: in the pattern of the sources, with calls of the same
sizes. -/
theorem SameShape.of_samePattern (hx : CallerArguments x.dist x.alpha x.delta)
    (hy : CallerArguments y.dist y.alpha y.delta) (hlabels : x.accessedLabels = y.accessedLabels)
    (h : SamePattern x.sources y.sources) : SameShape x y := by
  have hsizes : x.accesses.map List.length = y.accesses.map List.length := by
    have hmap := congrArg (List.map List.length) hlabels
    simpa [accessedLabels, List.map_map, Function.comp_def] using hmap
  have hfirsts := h.firsts_eq
  rw [firsts_sources hx, firsts_sources hy] at hfirsts
  obtain ⟨hstarts, hnew⟩ := List.append_inj' hfirsts (length_flatMap_newPlaces hsizes)
  exact ⟨starts_injective (counts_pos hx) (counts_pos hy) hstarts, newPlaces_injective hsizes hnew⟩

/-! ### The shape gives the sources -/

variable (x) in
/-- The replicas in the order of their labels. -/
def replicas : List (Str × Nat) :=
  x.replicaCounts.flatMap fun r => (List.range r.2).map (Prod.mk r.1)

theorem replicas_names : x.replicas.map (fun r => replicaName r.1 r.2)
    = x.replicaCounts.flatMap fun r => Proxy.replicaNames r.1 r.2 := by
  rw [replicas, List.map_flatMap]
  simp only [List.map_map]
  rfl

/-- A replica is where its label says. -/
theorem replicas_labelNumber (hn : x.NamesDistinct) {r : Str × Nat} (hr : r ∈ x.replicas) :
    x.replicas[x.labelNumber r.1 r.2]? = some r := by
  obtain ⟨n, hget⟩ := List.mem_iff_getElem?.mp hr
  have hname : (x.replicaCounts.flatMap fun r => Proxy.replicaNames r.1 r.2)[n]?
      = some (replicaName r.1 r.2) := by
    rw [← replicas_names, List.getElem?_map, hget]
    rfl
  obtain ⟨j, hlookup, hj⟩ := lookup_insertNames_of_mem (m := ∅) (l := 0)
    (List.mem_of_getElem? hname)
  obtain rfl : n = j := (List.getElem?_inj (List.getElem?_eq_some_iff.mp hname).1 hn).mp
    (hname.trans hj.symm)
  rw [labelNumber, UnorderedMap.at_, hlookup, Option.getD_some, Nat.zero_add]
  exact hget

theorem keys_nodup (hn : x.NamesDistinct) (hpos : ∀ n ∈ x.counts, 0 < n) :
    (x.replicaCounts.map Prod.fst).Nodup := by
  have hdisjoint := (List.nodup_flatMap.mp hn).2
  refine List.pairwise_map.mpr (hdisjoint.imp_of_mem fun {r r'} hr hr' h he => ?_)
  have hfirst : ∀ r ∈ x.replicaCounts, replicaName r.1 0 ∈ Proxy.replicaNames r.1 r.2 := by
    intro r hr
    exact List.mem_map_of_mem (List.mem_range.mpr (hpos r.2 (List.mem_map_of_mem hr)))
  exact h (hfirst r hr) (by rw [he]; exact hfirst r' hr')

/-- Every access has the replica that its label is of. -/
theorem Valid.accessed (h : x.Valid) (hn : x.NamesDistinct) :
    ∀ as ∈ x.accesses, ∀ a ∈ as, x.replicas[a.label]? = some (a.key, a.replica) := by
  obtain ⟨st, hinit, hrun⟩ := h.runs
  have hc := Proxy.created_of_init (fun i => (h.roundTrips i).encrypts) hinit
  have hfresh := h.fresh.takeArguments x.dist x.alpha x.delta
  obtain ⟨hplaced, -⟩ := (hc.steady hfresh h.arguments h.roundTrips).run_shows
    x.calls (hc.allEncrypted hfresh h.roundTrips) hrun
  intro as has a ha
  obtain ⟨hlive, hlabel⟩ := x.placed (labelOf_eq hc h.fresh h.arguments) hplaced as has a ha
  obtain ⟨b, hb, hkey, hi⟩ := hc.block_of_live hfresh hlive
  rw [allBlocks_blocks h.arguments] at hb
  rw [hlabel]
  refine replicas_labelNumber hn (r := (a.key, a.replica))
    (List.mem_flatMap.mpr ⟨(b.key, b.count), ?_, ?_⟩)
  · rw [← x.blocks_counts]
    exact List.mem_map_of_mem hb
  · rw [hkey]
    exact List.mem_map_of_mem (List.mem_range.mpr hi)

/-- The keys that come at the same place in both runs. -/
def SamePlace (x y : Execution) (key key' : Str) : Prop :=
  (key, key') ∈ (x.replicaCounts.map Prod.fst).zip (y.replicaCounts.map Prod.fst)

theorem samePlace_biUnique (hx : (x.replicaCounts.map Prod.fst).Nodup)
    (hy : (y.replicaCounts.map Prod.fst).Nodup) : Relator.BiUnique (SamePlace x y) := by
  have hplace : ∀ {k k'}, SamePlace x y k k' → ∃ i, (x.replicaCounts.map Prod.fst)[i]? = some k ∧
      (y.replicaCounts.map Prod.fst)[i]? = some k' := fun h => mem_zip_iff_getElem?.mp h
  constructor
  · intro k j k' h h'
    obtain ⟨n, hk, hk'⟩ := hplace h
    obtain ⟨m, hj, hj'⟩ := hplace h'
    obtain rfl : n = m := (List.getElem?_inj (List.getElem?_eq_some_iff.mp hk').1 hy).mp
      (hk'.trans hj'.symm)
    exact Option.some.inj (hk.symm.trans hj)
  · intro k k' j' h h'
    obtain ⟨n, hk, hk'⟩ := hplace h
    obtain ⟨m, hj, hj'⟩ := hplace h'
    obtain rfl : n = m := (List.getElem?_inj (List.getElem?_eq_some_iff.mp hk).1 hx).mp
      (hk.trans hj.symm)
    exact Option.some.inj (hk'.symm.trans hj')

/-- With the same counts, the same label is the same replica of the key at the
same place. -/
theorem samePlace_of_replicas (hcounts : x.counts = y.counts) {l i i' : Nat} {key key' : Str}
    (h : x.replicas[l]? = some (key, i)) (h' : y.replicas[l]? = some (key', i')) :
    SamePlace x y key key' ∧ i = i' := by
  have hrows : List.Forall₂ (fun r r' => SamePlace x y r.1 r'.1 ∧ r.2 = r'.2) x.replicaCounts
      y.replicaCounts := by
    refine List.forall₂_iff_zip.mpr ⟨?_, ?_⟩
    · simpa [counts] using congrArg List.length hcounts
    · intro r r' hmem
      obtain ⟨n, hr, hr'⟩ := mem_zip_iff_getElem?.mp hmem
      refine ⟨mem_zip_iff_getElem?.mpr ⟨n, ?_, ?_⟩, ?_⟩
      · rw [List.getElem?_map, hr]
        rfl
      · rw [List.getElem?_map, hr']
        rfl
      · have hat := congrArg (fun ns : List Nat => ns[n]?) hcounts
        simp only [counts, List.getElem?_map, hr, hr', Option.map_some] at hat
        exact Option.some.inj hat
  have hreplicas : List.Forall₂ (fun r r' => SamePlace x y r.1 r'.1 ∧ r.2 = r'.2) x.replicas
      y.replicas := by
    refine List.rel_flatMap hrows fun r r' hr => ?_
    rw [hr.2, List.forall₂_map_left_iff, List.forall₂_map_right_iff, List.forall₂_same]
    exact fun i _ => ⟨hr.1, rfl⟩
  exact (List.forall₂_iff_zip.mp hreplicas).2 (mem_zip_iff_getElem?.mpr ⟨l, h, h'⟩)

/-- **The sources** are the same, if the shape is and the labels accessed are. -/
theorem SameShape.sources_eq (h : SameShape x y) (hx : x.Valid) (hy : y.Valid)
    (hnx : x.NamesDistinct) (hny : y.NamesDistinct)
    (hlabels : x.accessedLabels = y.accessedLabels) : x.sources = y.sources := by
  have hinitial : x.initialSources = y.initialSources := congrArg (blockSources 0) h.counts
  have hkeys := samePlace_biUnique (keys_nodup hnx (counts_pos hx.arguments))
    (keys_nodup hny (counts_pos hy.arguments))
  have hlike : List.Forall₂ (List.Forall₂ (Access.Like (SamePlace x y) id id)) x.accesses
      y.accesses := by
    refine List.forall₂_iff_zip.mpr ⟨?_, ?_⟩
    · simpa [accessedLabels] using congrArg List.length hlabels
    intro as bs hcall
    obtain ⟨call, has, hbs⟩ := mem_zip_iff_getElem?.mp hcall
    have hlabel := congrArg (fun ls : List (List Nat) => ls[call]?) hlabels
    have hput := congrArg (fun ps : List (List Bool) => ps[call]?) h.puts
    simp only [accessedLabels, Execution.puts, List.getElem?_map, has, hbs, Option.map_some,
      Option.some_inj] at hlabel hput
    refine List.forall₂_iff_zip.mpr ⟨by simpa using congrArg List.length hlabel, ?_⟩
    intro a b hslot
    obtain ⟨s, ha, hb⟩ := mem_zip_iff_getElem?.mp hslot
    have hlabel' := congrArg (fun ls : List Nat => ls[s]?) hlabel
    have hput' := congrArg (fun ps : List Bool => ps[s]?) hput
    simp only [List.getElem?_map, ha, hb, Option.map_some, Option.some_inj] at hlabel' hput'
    have hreplica := hx.accessed hnx as (List.mem_of_getElem? has) a (List.mem_of_getElem? ha)
    have hreplica' := hy.accessed hny bs (List.mem_of_getElem? hbs) b (List.mem_of_getElem? hb)
    rw [← hlabel'] at hreplica'
    obtain ⟨hplace, he⟩ := samePlace_of_replicas h.counts hreplica hreplica'
    refine ⟨hplace, he.symm, hlabel'.symm, ?_⟩
    rw [Option.map_id_apply]
    cases hw : a.write with
    | none =>
        rw [hw, Option.isSome_none] at hput'
        exact Option.isSome_eq_false_iff.mp hput'.symm |> Option.isNone_iff_eq_none.mp
    | some v =>
        rw [hw, Option.isSome_some] at hput'
        obtain ⟨w, hw'⟩ := Option.isSome_iff_exists.mp hput'.symm
        rw [hw', x.accesses_write has ha hw, y.accesses_write hbs hb hw']
  rw [sources, sources, ← hinitial, shown_like hkeys Function.injective_id hlike .nil
    fun _ _ _ _ => rfl, List.map_id]

end Valid

/-! ## The pattern -/

/-- **The pattern.** Two runs show the server the same equalities among
ciphertexts exactly when equal inputs are at the sources of the same places.
Where all inputs differ, names too, and the same labels are accessed, that is
when the keys have the same replica counts and the same accesses are puts. -/
theorem pattern_iff {x y : Execution} (hx : x.Valid) (hy : y.Valid) :
    (SamePattern x.ciphertexts y.ciphertexts ↔ FilledAlike x y) ∧
    (x.DistinctTexts → y.DistinctTexts →
      (SamePattern x.ciphertexts y.ciphertexts ↔ SamePattern x.sources y.sources) ∧
      (x.NamesDistinct → y.NamesDistinct → x.accessedLabels = y.accessedLabels →
        (SamePattern x.ciphertexts y.ciphertexts ↔ SameShape x y))) := by
  have hpx := samePattern_of_encrypts hx.encrypts.1 hx.encrypts.2
  have hpy := samePattern_of_encrypts hy.encrypts.1 hy.encrypts.2
  have hfilled : SamePattern x.ciphertexts y.ciphertexts ↔ FilledAlike x y := by
    rw [filledAlike_iff]
    exact ⟨fun h => (hpx.trans h).trans hpy.symm, fun h => (hpx.symm.trans h).trans hpy⟩
  refine ⟨hfilled, fun hdx hdy => ?_⟩
  have hsources : SamePattern x.ciphertexts y.ciphertexts ↔ SamePattern x.sources y.sources := by
    have hsx := samePattern_sources hdx
    have hsy := samePattern_sources hdy
    rw [hfilled, filledAlike_iff]
    exact ⟨fun h => (hsx.symm.trans h).trans hsy, fun h => (hsx.trans h).trans hsy.symm⟩
  refine ⟨hsources, fun hnx hny hlabels => ⟨fun h => ?_, fun h => ?_⟩⟩
  · exact .of_samePattern hx.arguments hy.arguments hlabels (hsources.mp h)
  · rw [hsources, h.sources_eq hx hy hnx hny hlabels]
    exact .refl _

/-- All values of a run, drawn or put, have length `n`. -/
def OfLength (x : Execution) (n : Nat) : Prop :=
  (∀ i, (x.values i).length = n) ∧
    ∀ c ∈ x.calls, ∀ op ∈ c.batch.operations, op.value ≠ [] → op.value.length = n

/-- The strings `a`, `b`, then `c`. -/
def letters : Nat → Str
  | 0 => ['a']
  | 1 => ['b']
  | _ => ['c']

theorem letters_roundTrips : ∀ i, Proxy.blank.encryptionEngine.RoundTrips (letters i)
  | 0 => ⟨Evp.padding.encrypt [] [] ['a'], by decide +kernel, by decide +kernel⟩
  | 1 => ⟨Evp.padding.encrypt [] [] ['b'], by decide +kernel, by decide +kernel⟩
  | _ + 2 =>
      show Proxy.blank.encryptionEngine.RoundTrips ['c'] from
        ⟨Evp.padding.encrypt [] [] ['c'], by decide +kernel, by decide +kernel⟩

/-- Two keys, with probabilities `p` and `1 - p`. -/
def twoKeys (p : ℚ) : Distribution := { items := [['j'], ['k']], probabilities := [p, 1 - p] }

theorem twoKeys_arguments {p : ℚ} (h0 : 0 < p) (h1 : p < 1) :
    CallerArguments (twoKeys p) (1 / 2) (1 / 2) where
  lengths := rfl
  keys := by simp [twoKeys]
  positive := by
    intro q hq
    simp only [twoKeys, List.mem_cons, List.not_mem_nil, or_false] at hq
    rcases hq with rfl | rfl
    · exact h0
    · linarith
  normalised := by simp [twoKeys]
  alphaBound := by norm_num [twoKeys]
  deltaEq := by norm_num [twoKeys]

/-- The run that only initialises, on two keys. -/
def created (p : ℚ) (st : Proxy) : Execution :=
  { start := Proxy.blank, dist := twoKeys p, alpha := 1 / 2, delta := 1 / 2, values := letters
    calls := [], final := st }

theorem exists_created {p : ℚ} (h0 : 0 < p) (h1 : p < 1) : ∃ st,
    Proxy.blank.init (twoKeys p) (1 / 2) (1 / 2) letters = .ok st ∧ (created p st).Valid := by
  obtain ⟨st, hinit, -⟩ := Proxy.init_created (twoKeys p) (1 / 2) (1 / 2)
    fun i => (letters_roundTrips i).encrypts
  exact ⟨st, hinit, ⟨rfl, rfl, rfl, rfl⟩, rfl, twoKeys_arguments h0 h1, letters_roundTrips, st,
    hinit, .nil⟩

/-- The run of one access of the single key: a get, or a put. -/
def accessed (value : Str) (fulfilled : List (Promise × Str)) (st : Proxy) : Execution :=
  { start := Proxy.blank, dist := Proxy.singleKey, alpha := 1, delta := 1 / 2
    values := Proxy.firstStrings
    calls := [⟨⟨[⟨['k'], value⟩], [true], [0]⟩, [0], fulfilled⟩], final := st }

theorem exists_accessed (value : Str)
    (hv : value ≠ [] → Proxy.blank.encryptionEngine.RoundTrips value) : ∃ st fulfilled,
    (Proxy.blank.init Proxy.singleKey 1 (1 / 2) Proxy.firstStrings >>= fun st =>
      st.executeBatchWith ⟨[⟨['k'], value⟩], [true], [0]⟩ [0]) = .ok (st, fulfilled) ∧
    (accessed value fulfilled st).Valid := by
  obtain ⟨st, hinit, -⟩ := Proxy.init_created Proxy.singleKey 1 (1 / 2)
    fun i => (Proxy.firstStrings_roundTrips i).encrypts
  obtain ⟨hcons, hengine, hk⟩ := Proxy.blank_consistent hinit
  have hb : Batch.WellFormed ⟨[⟨['k'], value⟩], [true], [0]⟩ st.encryptionEngine := by
    refine ⟨rfl, le_rfl, fun op hop hne => ?_⟩
    obtain rfl := List.mem_singleton.mp hop
    rw [hengine]
    exact hv hne
  have hids : List.Forall₂ (fun (op : Operation) id => id < st.replicas op.key)
      [⟨['k'], value⟩] [0] := by simp [hk]
  obtain ⟨st', f, hrun, -⟩ := hcons.toSound.executeBatchWith hb hids
  refine ⟨st', f, by rw [hinit]; exact hrun, ⟨rfl, rfl, rfl, rfl⟩, rfl, ?_,
    Proxy.firstStrings_roundTrips, st, hinit, Run.single ⟨⟨?_, hrun⟩, hb⟩⟩
  · exact Proxy.singleKey_arguments_one
  · exact (Proxy.possible_chooseReplicas hcons.noMissing rfl).mpr hids

theorem v_roundTrips : Proxy.blank.encryptionEngine.RoundTrips ['v'] :=
  ⟨Evp.padding.encrypt [] [] ['v'], by decide +kernel, by decide +kernel⟩

theorem w_roundTrips : Proxy.blank.encryptionEngine.RoundTrips ['w'] :=
  ⟨Evp.padding.encrypt [] [] ['w'], by decide +kernel, by decide +kernel⟩

/-- The server tells two replicas of a key from replicas of two keys, and a
put from a get: runs on the same labels, all values of length one, whose
ciphertexts have different patterns. -/
theorem ciphertexts_reveal :
    (∃ st st', (created (1 / 2) st).Valid ∧ (created (3 / 4) st').Valid ∧
      (created (1 / 2) st).OfLength 1 ∧ (created (3 / 4) st').OfLength 1 ∧
      (created (1 / 2) st).labels = (created (3 / 4) st').labels ∧
      ¬ SamePattern (created (1 / 2) st).ciphertexts (created (3 / 4) st').ciphertexts) ∧
    (∃ st f st' f', (accessed [] f st).Valid ∧ (accessed ['v'] f' st').Valid ∧
      (accessed [] f st).OfLength 1 ∧ (accessed ['v'] f' st').OfLength 1 ∧
      (accessed [] f st).labels = (accessed ['v'] f' st').labels ∧
      ¬ SamePattern (accessed [] f st).ciphertexts (accessed ['v'] f' st').ciphertexts) := by
  have hletters : ∀ i, (letters i).length = 1 := by
    intro i
    match i with
    | 0 => rfl
    | 1 => rfl
    | _ + 2 => rfl
  have hfirst : ∀ i, (Proxy.firstStrings i).length = 1 := by
    intro i
    unfold Proxy.firstStrings
    split <;> rfl
  refine ⟨?_, ?_⟩
  · obtain ⟨st, hinit, hvalid⟩ := exists_created (p := 1 / 2) (by norm_num) (by norm_num)
    obtain ⟨st', hinit', hvalid'⟩ := exists_created (p := 3 / 4) (by norm_num) (by norm_num)
    have hshow : ((Proxy.blank.init (twoKeys (1 / 2)) (1 / 2) (1 / 2) letters).bind fun st =>
        (Proxy.blank.init (twoKeys (3 / 4)) (1 / 2) (1 / 2) letters).map fun st' =>
          decide (st.storage.requests.flatMap Request.labels
              = st'.storage.requests.flatMap Request.labels ∧
            ¬ SamePattern st.ciphertexts st'.ciphertexts)) = .ok true := by decide +kernel
    rw [hinit, hinit'] at hshow
    obtain ⟨hl, hp⟩ := of_decide_eq_true (Except.ok.inj hshow)
    exact ⟨st, st', hvalid, hvalid', ⟨hletters, by simp [created]⟩, ⟨hletters, by simp [created]⟩,
      hl, hp⟩
  · obtain ⟨st, f, hrun, hvalid⟩ := exists_accessed [] (fun hc => absurd rfl hc)
    obtain ⟨st', f', hrun', hvalid'⟩ := exists_accessed ['v'] (fun _ => v_roundTrips)
    have hshow : ((Proxy.blank.init Proxy.singleKey 1 (1 / 2) Proxy.firstStrings >>= fun st =>
        st.executeBatchWith ⟨[⟨['k'], []⟩], [true], [0]⟩ [0]).bind fun r =>
        (Proxy.blank.init Proxy.singleKey 1 (1 / 2) Proxy.firstStrings >>= fun st =>
          st.executeBatchWith ⟨[⟨['k'], ['v']⟩], [true], [0]⟩ [0]).map fun r' =>
          decide (r.1.storage.requests.flatMap Request.labels
              = r'.1.storage.requests.flatMap Request.labels ∧
            ¬ SamePattern r.1.ciphertexts r'.1.ciphertexts)) = .ok true := by decide +kernel
    rw [hrun, hrun'] at hshow
    obtain ⟨hl, hp⟩ := of_decide_eq_true (Except.ok.inj hshow)
    exact ⟨st, f, st', f', hvalid, hvalid', ⟨hfirst, by simp [accessed]⟩,
      ⟨hfirst, by simp [accessed]⟩, hl, hp⟩

/-- A get and a put look different; two puts look alike, whatever they put. -/
theorem pattern_iff_accessed : ∃ st₁ f₁ st₂ f₂ st₃ f₃, (accessed [] f₁ st₁).Valid ∧
    (accessed ['v'] f₂ st₂).Valid ∧ (accessed ['w'] f₃ st₃).Valid ∧
    ¬ SamePattern (accessed [] f₁ st₁).ciphertexts (accessed ['v'] f₂ st₂).ciphertexts ∧
    SamePattern (accessed ['v'] f₂ st₂).ciphertexts (accessed ['w'] f₃ st₃).ciphertexts := by
  obtain ⟨st₁, f₁, -, h₁⟩ := exists_accessed [] fun hc => absurd rfl hc
  obtain ⟨st₂, f₂, -, h₂⟩ := exists_accessed ['v'] fun _ => v_roundTrips
  obtain ⟨st₃, f₃, -, h₃⟩ := exists_accessed ['w'] fun _ => w_roundTrips
  -- all of this is read off the inputs, not off what the run has left
  have hdistinct : ∀ value f st, (accessed value f st).sources = [.drawn 0, .drawn 1, .drawn 0,
      if value = [] then .drawn 0 else .put 0 0] → value ≠ ['a'] → value ≠ ['b'] →
      (accessed value f st).DistinctTexts := by
    intro value f st hsources ha hb
    rw [DistinctTexts, hsources]
    by_cases hv : value = []
    · simp [hv, text, accessed, Proxy.firstStrings]
    · simp [hv, text, accessed, Proxy.firstStrings, ha, hb, ha.symm, hb.symm]
  have hd₁ : (accessed [] f₁ st₁).DistinctTexts := hdistinct _ _ _
    (show (accessed [] [] Proxy.blank).sources = _ by decide +kernel) (by decide) (by decide)
  have hd₂ : (accessed ['v'] f₂ st₂).DistinctTexts := hdistinct _ _ _
    (show (accessed ['v'] [] Proxy.blank).sources = _ by decide +kernel) (by decide) (by decide)
  have hd₃ : (accessed ['w'] f₃ st₃).DistinctTexts := hdistinct _ _ _
    (show (accessed ['w'] [] Proxy.blank).sources = _ by decide +kernel) (by decide) (by decide)
  have hnames : ∀ value f st, (accessed value f st).NamesDistinct := fun value f st =>
    show (accessed [] [] Proxy.blank).NamesDistinct by decide +kernel
  have hlabels : ∀ value f st, (accessed value f st).accessedLabels = [[0]] := fun value f st =>
    show [[(accessed [] [] Proxy.blank).labelNumber ['k'] 0]] = [[0]] by decide +kernel
  have hget := ((pattern_iff h₁ h₂).2 hd₁ hd₂).2 (hnames _ _ _) (hnames _ _ _)
    ((hlabels _ _ _).trans (hlabels _ _ _).symm)
  have hputs := ((pattern_iff h₂ h₃).2 hd₂ hd₃).2 (hnames _ _ _) (hnames _ _ _)
    ((hlabels _ _ _).trans (hlabels _ _ _).symm)
  refine ⟨st₁, f₁, st₂, f₂, st₃, f₃, h₁, h₂, h₃, fun h => ?_, hputs.mpr ⟨rfl, rfl⟩⟩
  have hshape : [[false]] = [[true]] := (hget.mp h).puts
  exact absurd hshape (by decide)

end Execution

end Pancake
