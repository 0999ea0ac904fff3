import Pancake.Lib.LazyReplicas

/-!
# Lazily refreshed replicas, shared

Several workers `C` serve batches over one waiting table and one store, in
three kinds of steps: read the labels of a batch, serve the accesses read one
by one, write the served values back. The steps of different workers
interleave; a worker with a batch under way is a `Flight`.

`Current` is the invariant that makes every access see its key's current
value. Reading keeps it unless some flight was handed an update for one of
the labels and has not written it back; serving keeps it unless an update is
handed over for a label that some other access has already read.
-/

namespace LazyReplicas

open Waiting

/-- A batch under way: the accesses read and still to be served, with the
values read; those served, with the values to write back; and the labels
whose waiting update was handed over. -/
structure Flight (K V L : Type) where
  todo : List (Access K V L × V)
  done : List (Access K V L × V) := []
  handed : List L := []

namespace Flight

variable {K V L : Type}

/-- The labels a batch has read. -/
def labels (f : Flight K V L) : List L := (f.todo ++ f.done).map fun p => p.1.label

end Flight

/-- After worker `c` starts or changes a flight, a flight is that one or an
old one of another worker. -/
theorem flights_update {C F : Type} [DecidableEq C] {flights : C → Option F} {c c' : C} {f g : F}
    (h : Function.update flights c (some g) c' = some f) :
    (c' = c ∧ f = g) ∨ (c' ≠ c ∧ flights c' = some f) := by
  by_cases hc : c' = c
  · subst hc
    rw [Function.update_self] at h
    exact .inl ⟨rfl, (Option.some.inj h).symm⟩
  · rw [Function.update_of_ne hc] at h
    exact .inr ⟨hc, h⟩

/-- After worker `c` has finished, a flight is one of another worker. -/
theorem flights_update_none {C F : Type} [DecidableEq C] {flights : C → Option F} {c c' : C} {f : F}
    (h : Function.update flights c none c' = some f) : c' ≠ c ∧ flights c' = some f := by
  by_cases hc : c' = c
  · subst hc
    simp at h
  · rw [Function.update_of_ne hc] at h
    exact ⟨hc, h⟩

variable {K V L C : Type} [DecidableEq K] [DecidableEq L] [DecidableEq C]

/-! ## Writing back -/

/-- Write served values back in order. -/
def writeDone (store : L → V) (done : List (Access K V L × V)) : L → V :=
  done.foldl (fun s p => Function.update s p.1.label p.2) store

omit [DecidableEq K] in
theorem writeDone_eq_writeBack (store : L → V) (done : List (Access K V L × V)) :
    writeDone store done = writeBack store (done.map Prod.fst) (done.map Prod.snd) := by
  induction done generalizing store with
  | nil => rfl
  | cons p done ih => exact ih _

omit [DecidableEq K] in
theorem writeDone_snoc (store : L → V) (done : List (Access K V L × V)) (p : Access K V L × V) :
    writeDone store (done ++ [p]) = Function.update (writeDone store done) p.1.label p.2 := by
  simp [writeDone]

omit [DecidableEq K] in
theorem writeDone_of_notMem {store : L → V} {done : List (Access K V L × V)} {l : L}
    (h : l ∉ done.map fun p => p.1.label) : writeDone store done l = store l := by
  rw [writeDone_eq_writeBack]
  refine writeBack_of_notMem ?_
  rwa [List.map_map]

/-! ## The invariant -/

variable (r : K → Nat) (lab : K → Nat → L)

/-- What is waiting is current; and where nothing waits, so is every value
read and not yet served, every value about to be written back, and the
stored value — unless a flight that was handed the update is about to write
it. -/
structure Current (cur : K → V) (w : Waiting K V) (store : L → V)
    (flights : C → Option (Flight K V L)) : Prop where
  pending : ∀ k i v, i < r k → w k i = some v → v = cur k
  placed : ∀ c f, flights c = some f → ∀ p ∈ f.todo ++ f.done, Placed r lab p.1
  reads : ∀ c f, flights c = some f → ∀ p ∈ f.todo, w p.1.key p.1.replica = none →
    p.2 = cur p.1.key
  writes : ∀ c f, flights c = some f → ∀ k i, i < r k → w k i = none →
    lab k i ∈ (f.done.map fun p => p.1.label) → ∀ s, writeDone s f.done (lab k i) = cur k
  stored : ∀ k i, i < r k → w k i = none →
    store (lab k i) = cur k ∨ ∃ c f, flights c = some f ∧ lab k i ∈ f.handed
  handed : ∀ c f, flights c = some f → ∀ l ∈ f.handed, l ∈ f.done.map fun p => p.1.label

variable {r lab} {cur : K → V} {w : Waiting K V} {store : L → V}
  {flights : C → Option (Flight K V L)}

omit [DecidableEq C] [DecidableEq K] in
/-- With no batch under way, coherence is enough. -/
theorem Current.of_coherent (h : Coherent r lab cur w store) :
    Current r lab cur w store (fun _ : C => none) where
  pending k i v hi hv := by
    rcases h k i hi with hp | ⟨hn, -⟩
    · exact Option.some.inj (hv.symm.trans hp)
    · rw [hn] at hv
      cases hv
  placed _ _ hf := by cases hf
  reads _ _ hf := by cases hf
  writes _ _ hf := by cases hf
  stored k i hi hn := by
    rcases h k i hi with hp | ⟨-, hs⟩
    · rw [hn] at hp
      cases hp
    · exact .inl hs
  handed _ _ hf := by cases hf

omit [DecidableEq K] in
/-- **Reading** labels for which no flight was handed an update. -/
theorem Current.read (h : Current r lab cur w store flights) {c : C} (hc : flights c = none)
    {as : List (Access K V L)} (hp : ∀ a ∈ as, Placed r lab a)
    (hfree : ∀ c' f, flights c' = some f → ∀ a ∈ as, a.label ∉ f.handed) :
    Current r lab cur w store
      (Function.update flights c (some { todo := as.map fun a => (a, store a.label) })) := by
  refine ⟨h.pending, fun c' f hf p hmem => ?_, fun c' f hf p hmem hn => ?_,
    fun c' f hf k i hi hn hl => ?_, fun k i hi hn => ?_, fun c' f hf l hl => ?_⟩
  · rcases flights_update hf with ⟨-, rfl⟩ | ⟨-, hold⟩
    · simp only [List.append_nil, List.mem_map] at hmem
      obtain ⟨a, ha, rfl⟩ := hmem
      exact hp a ha
    · exact h.placed c' f hold p hmem
  · rcases flights_update hf with ⟨-, rfl⟩ | ⟨-, hold⟩
    · obtain ⟨a, ha, rfl⟩ := List.mem_map.mp hmem
      -- nothing waits, and no flight is about to write the label
      have hpl := hp a ha
      rcases h.stored a.key a.replica hpl.live hn with hs | ⟨c'', f, hf', hh⟩
      · rw [← hs, ← hpl.label]
      · exact absurd (hpl.label ▸ hh) (hfree c'' f hf' a ha)
    · exact h.reads c' f hold p hmem hn
  · rcases flights_update hf with ⟨-, rfl⟩ | ⟨-, hold⟩
    · simp at hl
    · exact h.writes c' f hold k i hi hn hl
  · rcases h.stored k i hi hn with hs | ⟨c', f, hf, hh⟩
    · exact .inl hs
    · have hne : c' ≠ c := fun hcc => by
        rw [hcc, hc] at hf
        cases hf
      exact .inr ⟨c', f, by rw [Function.update_of_ne hne, hf], hh⟩
  · rcases flights_update hf with ⟨-, rfl⟩ | ⟨-, hold⟩
    · simp at hl
    · exact h.handed c' f hold l hl

/-- A flight once its first access to be served is served. -/
def Flight.served (r : K → Nat) (w : Waiting K V) (f : Flight K V L) (a : Access K V L) (old : V)
    (rest : List (Access K V L × V)) : Flight K V L where
  todo := rest
  done := f.done ++ [(a, value r w a old)]
  handed := if (w.delivered r a).isSome then f.handed ++ [a.label] else f.handed

omit [DecidableEq C] in
/-- The access served next sees its key's current value. -/
theorem Current.value_eq (h : Current r lab cur w store flights) {c : C} {f : Flight K V L}
    (hf : flights c = some f) {a : Access K V L} {old : V} {rest : List (Access K V L × V)}
    (htodo : f.todo = (a, old) :: rest) : value r w a old = current cur a a.key := by
  have hpl : Placed r lab a := h.placed c f hf (a, old) (by simp [htodo])
  cases hw : a.write with
  | some v => simp [value, delivered_of_write hw hpl.live, current, hw]
  | none =>
      rw [value, delivered_of_read hw]
      cases hwk : w a.key a.replica with
      | some v => simp [current, hw, h.pending _ _ _ hpl.live hwk]
      | none =>
          have hold : old = cur a.key := h.reads c f hf (a, old) (by simp [htodo]) hwk
          simp [current, hw, hold]

omit [DecidableEq L] in
/-- Where nothing waits after an access, nothing waited before it, unless
it is where the access was handed an update; and the current value stays. -/
theorem after_none {a : Access K V L} (ha : a.replica < r a.key) {k : K} {i : Nat} (hi : i < r k)
    (hn : w.after r a k i = none) :
    (k = a.key ∧ i = a.replica ∧ (w.delivered r a).isSome) ∨
      (w k i = none ∧ current cur a k = cur k) := by
  rw [after_apply] at hn
  cases hw : a.write with
  | some v =>
      by_cases hk : k = a.key
      · subst hk
        by_cases hia : i = a.replica
        · exact .inl ⟨rfl, hia, by rw [delivered_of_write hw ha]; rfl⟩
        · simp [hia, written_of_write hw, put_apply, hi] at hn
      · rw [if_neg (fun hc => hk hc.1), written_of_write hw, put_apply, if_neg hk] at hn
        exact .inr ⟨hn, by simp [current, hw, hk]⟩
  | none =>
      have hcur : current cur a k = cur k := by simp [current, hw]
      by_cases hki : k = a.key ∧ i = a.replica
      · obtain ⟨rfl, rfl⟩ := hki
        cases hwk : w a.key a.replica with
        | some v => exact .inl ⟨rfl, rfl, by rw [delivered_of_read hw, hwk]; rfl⟩
        | none => exact .inr ⟨rfl, hcur⟩
      · rw [if_neg hki, written_of_read hw] at hn
        exact .inr ⟨hn, hcur⟩

omit [DecidableEq L] in
/-- A value read and not yet served stays current, unless the access was handed
an update for its label. -/
theorem current_after {a : Access K V L} (ha : Placed r lab a) {p : Access K V L × V}
    (hp : Placed r lab p.1) (hlab : (w.delivered r a).isSome → p.1.label ≠ a.label)
    (hread : w p.1.key p.1.replica = none → p.2 = cur p.1.key)
    (hn : w.after r a p.1.key p.1.replica = none) : p.2 = current cur a p.1.key := by
  rcases after_none ha.live hp.live hn with ⟨hk, hi, hd⟩ | ⟨hw, hcur⟩
  · refine absurd ?_ (hlab hd)
    rw [hp.label, hk, hi, ha.label]
  · rw [hcur]
    exact hread hw

omit [DecidableEq L] in
theorem mem_handed_served {f : Flight K V L} {a : Access K V L} {old : V}
    {rest : List (Access K V L × V)} {l : L} : l ∈ (f.served r w a old rest).handed ↔
      l ∈ f.handed ∨ (w.delivered r a).isSome ∧ l = a.label := by
  rw [Flight.served]
  dsimp only
  split
  · rename_i hd
    simp [hd]
  · rename_i hd
    simp [hd]

section Serve

variable {c : C} {f : Flight K V L} {a : Access K V L} {old : V} {rest : List (Access K V L × V)}
  (h : Current r lab cur w store flights)

include h

omit [DecidableEq C] in
/-- What waits after the access is its write, or waited before. -/
theorem Current.pending_after {k : K} {i : Nat} {v : V} (hi : i < r k)
    (hv : w.after r a k i = some v) : v = current cur a k := by
  rw [after_apply] at hv
  split at hv
  · cases hv
  · cases hw : a.write with
    | none =>
        rw [written_of_read hw] at hv
        simpa [current, hw] using h.pending k i v hi hv
    | some x =>
        rw [written_of_write hw, put_apply] at hv
        by_cases hk : k = a.key
        · subst hk
          simp only [if_true, hi, Option.some.injEq] at hv
          simp [current, hw, hv]
        · rw [if_neg hk] at hv
          simpa [current, hw, hk] using h.pending k i v hi hv

variable (hc : flights c = some f) (htodo : f.todo = (a, old) :: rest)

include hc htodo

omit [DecidableEq C] in
/-- The value just served is the last one written on its label. -/
theorem Current.writes_served (hl : DistinctLabels r lab) {k : K} {i : Nat} (hi : i < r k)
    (hn : w.after r a k i = none)
    (hmem : lab k i ∈ (f.served r w a old rest).done.map fun p => p.1.label) (s : L → V) :
    writeDone s (f.served r w a old rest).done (lab k i) = current cur a k := by
  have hpl : Placed r lab a := h.placed c f hc (a, old) (by simp [htodo])
  simp only [Flight.served, List.map_append, List.mem_append, List.map_cons, List.map_nil,
    List.mem_singleton] at hmem
  rw [Flight.served, writeDone_snoc]
  by_cases he : lab k i = a.label
  · -- labels of other replicas are other labels
    obtain ⟨rfl, rfl⟩ := hl k i _ _ hi hpl.live (he.trans hpl.label)
    rw [he, Function.update_self, h.value_eq hc htodo]
  · rw [Function.update_of_ne he]
    rcases after_none hpl.live hi hn with ⟨hk, hia, -⟩ | ⟨hw, hcur⟩
    · exact absurd (by rw [hk, hia, hpl.label]) he
    · rw [hcur]
      exact h.writes c f hc k i hi hw (hmem.resolve_right he) s

/-- The stored value stays current, or the update handed over is about to be
written. -/
theorem Current.stored_served {k : K} {i : Nat} (hi : i < r k) (hn : w.after r a k i = none) :
    store (lab k i) = current cur a k ∨ ∃ c' g,
      Function.update flights c (some (f.served r w a old rest)) c' = some g ∧
        lab k i ∈ g.handed := by
  have hpl : Placed r lab a := h.placed c f hc (a, old) (by simp [htodo])
  rcases after_none hpl.live hi hn with ⟨hk, hia, hd⟩ | ⟨hw, hcur⟩
  · refine .inr ⟨c, _, Function.update_self .., mem_handed_served.mpr (.inr ⟨hd, ?_⟩)⟩
    rw [hk, hia, hpl.label]
  · rw [hcur]
    rcases h.stored k i hi hw with hs | ⟨c', g, hg, hh⟩
    · exact .inl hs
    · by_cases hcc : c' = c
      · subst hcc
        rw [hc] at hg
        cases hg
        exact .inr ⟨c', _, Function.update_self .., mem_handed_served.mpr (.inl hh)⟩
      · exact .inr ⟨c', g, by rw [Function.update_of_ne hcc, hg], hh⟩

/-- **Serving** an access: it sees its key's current value, its own write
included, and the invariant stays if an update is only handed over for a
label that no other flight has read and no later access of this one. -/
theorem Current.serve (hl : DistinctLabels r lab)
    (halone : (w.delivered r a).isSome → a.label ∉ (rest.map fun p => p.1.label) ∧
      ∀ c' g, c' ≠ c → flights c' = some g → a.label ∉ g.labels) :
    Current r lab (current cur a) (w.after r a) store
      (Function.update flights c (some (f.served r w a old rest))) := by
  have hpl : Placed r lab a := h.placed c f hc (a, old) (by simp [htodo])
  refine
    { pending := fun k i v hi hv => h.pending_after hi hv
      placed := fun c' g hg p hp => ?_
      reads := fun c' g hg p hp hn => ?_
      writes := fun c' g hg k i hi hn hmem s => ?_
      stored := fun k i hi hn => h.stored_served hc htodo hi hn
      handed := fun c' g hg l hmem => ?_ }
  · rcases flights_update hg with ⟨-, rfl⟩ | ⟨-, hold⟩
    · simp only [Flight.served, List.mem_append, List.mem_singleton] at hp
      rcases hp with hp | hp | rfl
      · exact h.placed c f hc p (by simp [htodo, hp])
      · exact h.placed c f hc p (by simp [hp])
      · exact hpl
    · exact h.placed c' g hold p hp
  · -- an access read before and served later is not to the replica just served
    rcases flights_update hg with ⟨-, rfl⟩ | ⟨hne, hold⟩
    · have hin : p ∈ f.todo := by
        rw [htodo]
        exact List.mem_cons_of_mem _ hp
      refine current_after hpl (h.placed c f hc p (List.mem_append_left _ hin)) (fun hd he => ?_)
        (h.reads c f hc p hin) hn
      exact (halone hd).1 (List.mem_map.mpr ⟨p, hp, he⟩)
    · refine current_after hpl (h.placed c' g hold p (List.mem_append_left _ hp)) (fun hd he => ?_)
        (h.reads c' g hold p hp) hn
      exact (halone hd).2 c' g hne hold (List.mem_map.mpr ⟨p, by simp [hp], he⟩)
  · rcases flights_update hg with ⟨-, rfl⟩ | ⟨hne, hold⟩
    · exact h.writes_served hc htodo hl hi hn hmem s
    · rcases after_none hpl.live hi hn with ⟨hk, hia, hd⟩ | ⟨hw, hcur⟩
      · refine absurd ?_ ((halone hd).2 c' g hne hold)
        rw [hpl.label, ← hk, ← hia, Flight.labels, List.map_append]
        exact List.mem_append_right _ hmem
      · rw [hcur]
        exact h.writes c' g hold k i hi hw hmem s
  · rcases flights_update hg with ⟨-, rfl⟩ | ⟨-, hold⟩
    · rw [Flight.served, List.map_append, List.mem_append]
      rcases mem_handed_served.mp hmem with hl | ⟨-, rfl⟩
      · exact .inl (h.handed c f hc l hl)
      · exact .inr (by simp)
    · exact h.handed c' g hold l hmem

end Serve

omit [DecidableEq K] in
/-- **Writing back** a batch that is served: where nothing waits the values
written are current, and the invariant stays. -/
theorem Current.write (h : Current r lab cur w store flights) {c : C} {f : Flight K V L}
    (hc : flights c = some f) (htodo : f.todo = []) :
    (∀ k i, i < r k → w k i = none → lab k i ∈ f.labels →
      writeDone store f.done (lab k i) = cur k) ∧
    Current r lab cur w (writeDone store f.done) (Function.update flights c none) := by
  constructor
  · intro k i hi hn hmem
    rw [Flight.labels, htodo, List.nil_append] at hmem
    exact h.writes c f hc k i hi hn hmem store
  · refine ⟨h.pending, fun c' g hg => h.placed c' g (flights_update_none hg).2,
      fun c' g hg => h.reads c' g (flights_update_none hg).2,
      fun c' g hg => h.writes c' g (flights_update_none hg).2, fun k i hi hn => ?_,
      fun c' g hg => h.handed c' g (flights_update_none hg).2⟩
    by_cases hmem : lab k i ∈ f.done.map fun p => p.1.label
    · exact .inl (h.writes c f hc k i hi hn hmem store)
    · rw [writeDone_of_notMem hmem]
      rcases h.stored k i hi hn with hs | ⟨c', g, hg, hh⟩
      · exact .inl hs
      · have hne : c' ≠ c := by
          rintro rfl
          rw [hc] at hg
          cases hg
          exact hmem (h.handed c' f hc _ hh)
        exact .inr ⟨c', g, by rw [Function.update_of_ne hne, hg], hh⟩

end LazyReplicas
