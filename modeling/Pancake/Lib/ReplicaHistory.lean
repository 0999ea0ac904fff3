import Mathlib.Data.List.Forall2
import Pancake.Lib.LazyReplicas
import Pancake.Lib.Patterns

/-!
# What an access finds, told from the past

The waiting table and the store are memory. What they say about one access
can be told without them, from the accesses before it: the update handed over
is the last write of the key since its replica was accessed (`handed`), and
what a label stores is what the last access that was handed something left
there (`found`). Pasts are listed newest first, as accesses or as batches of
accesses.

So the values a run moves are the values it is given, in places that do not
depend on them: runs that are alike but for what keys, values and labels are
called show the like (`shown_like`). And a value is new in what is shown where
it is written, and there only (`firsts_shown`).
-/

namespace LazyReplicas

variable {K K' V W L M : Type} [DecidableEq K] [DecidableEq L]

/-! ## From the past alone -/

/-- The update that waits for replica `i` of `k`: the last write of the key,
if the replica has not been accessed since. -/
def waits (k : K) (i : Nat) : List (Access K V L) → Option V
  | [] => none
  | a :: past =>
      if a.key = k then
        if a.replica = i then none else a.write.or (waits k i past)
      else waits k i past

/-- The update the access is handed after the past: its own, or the one that
waits. -/
def handed (a : Access K V L) (past : List (Access K V L)) : Option V :=
  a.write.or (waits a.key a.replica past)

/-- What the last access of the batch to the label was handed. -/
def handedAt (l : L) : List (Access K V L) → List (Access K V L) → Option V
  | [], _ => none
  | a :: batch, past => if a.label = l then handed a (batch ++ past) else handedAt l batch past

/-- What the label stores after the batches, if it stored `first l`. -/
def found (first : L → V) (l : L) : List (List (Access K V L)) → V
  | [] => first l
  | batch :: past => (handedAt l batch past.flatten).getD (found first l past)

/-- What the accesses leave, if every label was read as `old` up front. -/
def left (old : L → V) : List (Access K V L) → List (Access K V L) → List V
  | _, [] => []
  | past, a :: as => (handed a past).getD (old a.label) :: left old (a :: past) as

/-- What goes to and from the store over a run of batches. -/
def shown (first : L → V) : List (List (Access K V L)) → List (List (Access K V L)) → List V
  | _, [] => []
  | past, as :: rest =>
      (as.map fun a => found first a.label past)
        ++ left (fun l => found first l past) past.flatten as
        ++ shown first (as.reverse :: past) rest

/-! ## The memory says the same -/

/-- The table has what waits after the past, for live replicas. -/
def Remembers (r : K → Nat) (past : List (Access K V L)) (w : Waiting K V) : Prop :=
  ∀ k i, i < r k → w k i = waits k i past

section Remembers

variable {r : K → Nat} {past : List (Access K V L)} {w : Waiting K V}

omit [DecidableEq L] in
theorem Remembers.handed (h : Remembers r past w) {a : Access K V L} (ha : a.replica < r a.key) :
    w.delivered r a = handed a past := by
  cases hw : a.write with
  | some v => rw [Waiting.delivered_of_write hw ha, LazyReplicas.handed, hw, Option.some_or]
  | none =>
      rw [Waiting.delivered_of_read hw, h _ _ ha, LazyReplicas.handed, hw, Option.none_or]

omit [DecidableEq L] in
/-- **The step**: one access more. -/
theorem Remembers.after (h : Remembers r past w) (a : Access K V L) :
    Remembers r (a :: past) (w.after r a) := by
  intro k i hi
  rw [Waiting.after_apply, waits]
  by_cases hk : a.key = k
  · subst hk
    by_cases hi' : a.replica = i
    · rw [if_pos ⟨rfl, hi'.symm⟩, if_pos rfl, if_pos hi']
    · rw [if_neg fun hc => hi' hc.2.symm, if_pos rfl, if_neg hi']
      cases hw : a.write with
      | some v =>
          rw [Waiting.written_of_write hw, Waiting.put_apply, if_pos rfl, if_pos hi,
            Option.some_or]
      | none => rw [Waiting.written_of_read hw, h _ _ hi, Option.none_or]
  · rw [if_neg fun hc => hk hc.1.symm, if_neg hk]
    cases hw : a.write with
    | some v => rw [Waiting.written_of_write hw, Waiting.put_apply, if_neg (Ne.symm hk), h _ _ hi]
    | none => rw [Waiting.written_of_read hw, h _ _ hi]

omit [DecidableEq L] in
/-- **A batch**: its values, and the table after it. -/
theorem Remembers.batch (store : L → V) (as : List (Access K V L)) :
    ∀ {past : List (Access K V L)} {w : Waiting K V}, Remembers r past w →
    (∀ a ∈ as, a.replica < r a.key) →
    serveBatch r store w as = left store past as ∧
      Remembers r (as.reverse ++ past) (afterAll r w as) := by
  induction as with
  | nil => intro past w h _; exact ⟨rfl, h⟩
  | cons a as ih =>
      intro past w h hlive
      obtain ⟨hleft, hafter⟩ := ih (h.after a) fun b hb => hlive b (List.mem_cons_of_mem _ hb)
      constructor
      · rw [serveBatch, left, value, h.handed (hlive a List.mem_cons_self), hleft]
      · rw [List.reverse_cons, List.append_assoc]
        exact hafter

end Remembers

/-- What is written back last stays. -/
theorem writeBack_left (store : L → V) (past : List (Access K V L)) (as : List (Access K V L))
    (l : L) : ∀ (done : List (Access K V L)) {s : L → V},
    s l = (handedAt l done past).getD (store l) →
    writeBack s as (left store (done ++ past) as) l
      = (handedAt l (as.reverse ++ done) past).getD (store l) := by
  induction as with
  | nil => intro done s h; exact h
  | cons a as ih =>
      intro done s h
      rw [left, writeBack, List.reverse_cons, List.append_assoc]
      refine ih (a :: done) ?_
      by_cases hl : a.label = l
      · subst hl
        rw [Function.update_self, handedAt, if_pos rfl]
      · rw [Function.update_of_ne (Ne.symm hl), handedAt, if_neg hl, h]

/-- **A run** moves what the past of each access tells. -/
theorem exchanged_eq_shown {r : K → Nat} {first : L → V} (batches : List (List (Access K V L))) :
    ∀ (past : List (List (Access K V L))) {w : Waiting K V} {store : L → V},
    Remembers r past.flatten w → (∀ l, store l = found first l past) →
    (∀ as ∈ batches, ∀ a ∈ as, a.replica < r a.key) →
    exchanged r w store batches = shown first past batches := by
  induction batches with
  | nil => intro past w store _ _ _; rfl
  | cons as rest ih =>
      intro past w store hw hstore hlive
      obtain ⟨hvalues, hafter⟩ := hw.batch store as (hlive as List.mem_cons_self)
      obtain rfl : store = fun l => found first l past := funext hstore
      rw [exchanged, shown, hvalues]
      congr 1
      refine ih (as.reverse :: past) ?_ ?_ fun bs hbs =>
        hlive bs (List.mem_cons_of_mem _ hbs)
      · rw [List.flatten_cons]
        exact hafter
      · intro l
        have hback := writeBack_left (fun l => found first l past) past.flatten as l []
          (s := fun l => found first l past) rfl
        rw [List.append_nil] at hback
        exact hback

/-! ## Runs that are alike -/

/-- Accesses that differ in what keys, values and labels are called. -/
structure Access.Like (ρ : K → K' → Prop) (f : V → W) (g : L → M) (a : Access K V L)
    (b : Access K' W M) : Prop where
  key : ρ a.key b.key
  replica : b.replica = a.replica
  label : b.label = g a.label
  write : b.write = a.write.map f

/-- The access with its value and its label replaced. -/
def Access.map (f : V → W) (g : L → M) (a : Access K V L) : Access K W M where
  key := a.key
  replica := a.replica
  label := g a.label
  write := a.write.map f
  answered := a.answered

omit [DecidableEq K] [DecidableEq L] in
theorem Access.like_map (f : V → W) (g : L → M) (a : Access K V L) :
    a.Like Eq f g (a.map f g) :=
  ⟨rfl, rfl, rfl, rfl⟩

section Like

variable {ρ : K → K' → Prop} {f : V → W} {g : L → M}

omit [DecidableEq K] [DecidableEq L] in
theorem reads_like (old : L → V) (old' : M → W) {as : List (Access K V L)}
    {bs : List (Access K' W M)} (has : List.Forall₂ (Access.Like ρ f g) as bs)
    (hold : ∀ a ∈ as, old' (g a.label) = f (old a.label)) :
    (bs.map fun b => old' b.label) = (as.map fun a => old a.label).map f := by
  induction has with
  | nil => rfl
  | @cons a b as bs ha _ ih =>
      rw [List.map_cons, List.map_cons, List.map_cons, ha.label, hold a List.mem_cons_self,
        ih fun c hc => hold c (List.mem_cons_of_mem _ hc)]

variable [DecidableEq K'] (hρ : Relator.BiUnique ρ)
include hρ

omit [DecidableEq L] in
theorem waits_like {k : K} {k' : K'} (hk : ρ k k') (i : Nat) {past : List (Access K V L)}
    {past' : List (Access K' W M)} (h : List.Forall₂ (Access.Like ρ f g) past past') :
    waits k' i past' = (waits k i past).map f := by
  induction h with
  | nil => rfl
  | @cons a b past past' ha _ ih =>
      have hkey : b.key = k' ↔ a.key = k := by
        constructor
        · intro he
          exact hρ.1 ha.key (he ▸ hk)
        · intro he
          exact hρ.2 ha.key (he ▸ hk)
      rw [waits, waits, ih, ha.replica, ha.write]
      by_cases he : a.key = k
      · rw [if_pos (hkey.mpr he), if_pos he]
        by_cases hi : a.replica = i
        · rw [if_pos hi, if_pos hi, Option.map_none]
        · rw [if_neg hi, if_neg hi, Option.map_or]
      · rw [if_neg fun hc => he (hkey.mp hc), if_neg he]

omit [DecidableEq L] in
theorem handed_like {a : Access K V L} {b : Access K' W M} (ha : a.Like ρ f g b)
    {past : List (Access K V L)} {past' : List (Access K' W M)}
    (h : List.Forall₂ (Access.Like ρ f g) past past') :
    handed b past' = (handed a past).map f := by
  rw [handed, handed, Option.map_or, ha.write, ha.replica, waits_like hρ ha.key _ h]

omit [DecidableEq L] in
theorem left_like (old : L → V) (old' : M → W) {as : List (Access K V L)}
    {bs : List (Access K' W M)} (has : List.Forall₂ (Access.Like ρ f g) as bs) :
    ∀ {past : List (Access K V L)} {past' : List (Access K' W M)},
    List.Forall₂ (Access.Like ρ f g) past past' →
    (∀ a ∈ as, old' (g a.label) = f (old a.label)) →
    left old' past' bs = (left old past as).map f := by
  induction has with
  | nil => intro past past' _ _; rfl
  | @cons a b as bs ha _ ih =>
      intro past past' h hold
      rw [left, left, List.map_cons, handed_like hρ ha h, ha.label, hold a List.mem_cons_self,
        ih (.cons ha h) fun c hc => hold c (List.mem_cons_of_mem _ hc)]
      congr 1
      cases handed a past <;> rfl

variable [DecidableEq M] (hg : Function.Injective g)
include hg

theorem handedAt_like (l : L) {batch past : List (Access K V L)}
    {batch' past' : List (Access K' W M)}
    (hbatch : List.Forall₂ (Access.Like ρ f g) batch batch')
    (h : List.Forall₂ (Access.Like ρ f g) past past') :
    handedAt (g l) batch' past' = (handedAt l batch past).map f := by
  induction hbatch with
  | nil => rfl
  | @cons a b batch batch' ha hbatch ih =>
      rw [handedAt, handedAt, ih, handed_like hρ ha (List.rel_append hbatch h), ha.label]
      by_cases hl : a.label = l
      · rw [if_pos (congrArg g hl), if_pos hl]
      · rw [if_neg fun hc => hl (hg hc), if_neg hl]

theorem found_like {first : L → V} {first' : M → W} {l : L} (hfirst : first' (g l) = f (first l))
    {past : List (List (Access K V L))} {past' : List (List (Access K' W M))}
    (h : List.Forall₂ (List.Forall₂ (Access.Like ρ f g)) past past') :
    found first' (g l) past' = f (found first l past) := by
  induction h with
  | nil => exact hfirst
  | @cons batch batch' past past' hbatch h ih =>
      rw [found, found, ih, handedAt_like hρ hg l hbatch (List.rel_flatten h)]
      cases handedAt l batch past.flatten <;> rfl

/-- **Alike runs show the like**: the values of the one in the places of those
of the other. -/
theorem shown_like {first : L → V} {first' : M → W} {batches : List (List (Access K V L))}
    {batches' : List (List (Access K' W M))}
    (hbatches : List.Forall₂ (List.Forall₂ (Access.Like ρ f g)) batches batches') :
    ∀ {past : List (List (Access K V L))} {past' : List (List (Access K' W M))},
    List.Forall₂ (List.Forall₂ (Access.Like ρ f g)) past past' →
    (∀ as ∈ batches, ∀ a ∈ as, first' (g a.label) = f (first a.label)) →
    shown first' past' batches' = (shown first past batches).map f := by
  induction hbatches with
  | nil => intro past past' _ _; rfl
  | @cons as bs rest rest' has _ ih =>
      intro past past' h hfirst
      have hfound : ∀ a ∈ as, found first' (g a.label) past' = f (found first a.label past) :=
        fun a ha => found_like hρ hg (hfirst as List.mem_cons_self a ha) h
      rw [shown, shown, List.map_append, List.map_append,
        reads_like (fun l => found first l past) (fun l => found first' l past') has hfound,
        left_like hρ (fun l => found first l past) (fun l => found first' l past') has
          (List.rel_flatten h) hfound,
        ih (.cons (List.forall₂_reverse_iff.mpr has) h) fun cs hcs =>
          hfirst cs (List.mem_cons_of_mem _ hcs)]

end Like

/-! ## What is new in a run -/

/-- The values written. -/
def writes (as : List (Access K V L)) : List V := as.filterMap Access.write

section Writes

variable {past : List (Access K V L)} {v : V}

omit [DecidableEq K] [DecidableEq L] in
theorem mem_writes_cons {a : Access K V L} {as : List (Access K V L)} :
    v ∈ writes (a :: as) ↔ a.write = some v ∨ v ∈ writes as := by
  simp [writes]

omit [DecidableEq L] in
theorem mem_writes_of_waits {k : K} {i : Nat} (h : waits k i past = some v) :
    v ∈ writes past := by
  induction past with
  | nil => cases h
  | cons a past ih =>
      rw [mem_writes_cons]
      rw [waits] at h
      split_ifs at h with hk hi
      · cases hw : a.write with
        | some w =>
            rw [hw, Option.some_or] at h
            exact .inl h
        | none =>
            rw [hw, Option.none_or] at h
            exact .inr (ih h)
      · exact .inr (ih h)

omit [DecidableEq L] in
theorem mem_writes_of_handed {a : Access K V L} (h : handed a past = some v) :
    v ∈ writes (a :: past) := by
  rw [mem_writes_cons]
  cases hw : a.write with
  | some w =>
      rw [handed, hw, Option.some_or] at h
      exact .inl h
  | none =>
      rw [handed, hw, Option.none_or] at h
      exact .inr (mem_writes_of_waits h)

theorem mem_writes_of_handedAt {l : L} {batch : List (Access K V L)}
    (h : handedAt l batch past = some v) : v ∈ writes (batch ++ past) := by
  induction batch with
  | nil => cases h
  | cons a batch ih =>
      rw [handedAt] at h
      split_ifs at h with hl
      · exact mem_writes_of_handed h
      · exact mem_writes_cons.mpr (.inr (ih h))

end Writes

/-- Where a batch shows something new, if all it writes is: not in what it
reads, and of what it leaves in the writes. -/
def newPlaces (as : List (Access K V L)) : List Bool :=
  List.replicate as.length false ++ as.map fun a => a.write.isSome

section NewPlaces

variable {batches batches' : List (List (Access K V L))}

omit [DecidableEq K] [DecidableEq L] in
theorem length_flatMap_newPlaces (h : batches.map List.length = batches'.map List.length) :
    (batches.flatMap newPlaces).length = (batches'.flatMap newPlaces).length := by
  have hlength : ∀ batches : List (List (Access K V L)), (batches.flatMap newPlaces).length
      = ((batches.map List.length).map (2 * ·)).sum := by
    intro batches
    simp only [List.length_flatMap, newPlaces, List.length_append, List.length_replicate,
      List.length_map, List.map_map]
    congr 2
    funext as
    exact (Nat.two_mul _).symm
  rw [hlength, hlength, h]

omit [DecidableEq K] [DecidableEq L] in
/-- The places tell the writes, in batches of the same sizes. -/
theorem newPlaces_injective (h : batches.map List.length = batches'.map List.length)
    (hnew : batches.flatMap newPlaces = batches'.flatMap newPlaces) :
    batches.map (List.map fun a => a.write.isSome)
      = batches'.map (List.map fun a => a.write.isSome) := by
  induction batches generalizing batches' with
  | nil =>
      rw [List.map_nil, eq_comm, List.map_eq_nil_iff] at h
      rw [h]
  | cons as batches ih =>
      cases batches' with
      | nil => cases h
      | cons bs batches' =>
          rw [List.map_cons, List.map_cons] at h
          obtain ⟨hlength, h⟩ := List.cons.inj h
          rw [List.flatMap_cons, List.flatMap_cons, newPlaces, newPlaces, hlength,
            List.append_assoc, List.append_assoc] at hnew
          obtain ⟨hwrites, hnew⟩ := List.append_inj (List.append_cancel_left hnew)
            (by rw [List.length_map, List.length_map, hlength])
          rw [List.map_cons, List.map_cons, hwrites, ih h hnew]

end NewPlaces

section Firsts

variable [DecidableEq V]

open Patterns

/-- What the accesses to come find stored, or are handed from the past, has
been seen; what they write has not, and is all different. -/
structure Seen (old : L → V) (past later : List (Access K V L)) (seen : List V) : Prop where
  stored : ∀ l, old l ∈ seen
  written : ∀ v ∈ writes past, v ∈ seen
  nodup : (writes later).Nodup
  new : ∀ v ∈ writes later, v ∉ seen

namespace Seen

variable {old : L → V} {past later : List (Access K V L)} {seen : List V} {a : Access K V L}

omit [DecidableEq K] [DecidableEq L] [DecidableEq V] in
/-- Nothing changes where what has been seen is shown again. -/
theorem again (h : Seen old past later seen) {vs : List V} (hvs : ∀ v ∈ vs, v ∈ seen) :
    Seen old past later (seen ++ vs) where
  stored l := List.mem_append_left _ (h.stored l)
  written v hv := List.mem_append_left _ (h.written v hv)
  nodup := h.nodup
  new v hv hc := h.new v hv ((List.mem_append.mp hc).elim id (hvs v))

omit [DecidableEq L] [DecidableEq V] in
/-- A read leaves what was stored, or what was written before. -/
theorem left_mem (h : Seen old past (a :: later) seen) (hw : a.write = none) :
    (handed a past).getD (old a.label) ∈ seen := by
  cases hh : handed a past with
  | none => exact h.stored a.label
  | some v =>
      rcases mem_writes_cons.mp (mem_writes_of_handed hh) with he | hmem
      · rw [hw] at he
        cases he
      · exact h.written v hmem

omit [DecidableEq K] [DecidableEq L] [DecidableEq V] in
/-- **The step**: a read. -/
theorem read (h : Seen old past (a :: later) seen) (hw : a.write = none) {v : V}
    (hv : v ∈ seen) : Seen old (a :: past) later (seen ++ [v]) := by
  have hlater : writes (a :: later) = writes later := List.filterMap_cons_none hw
  have hpast : writes (a :: past) = writes past := List.filterMap_cons_none hw
  have hagain := h.again (List.forall_mem_singleton.mpr hv)
  refine ⟨hagain.stored, ?_, ?_, ?_⟩
  · rw [hpast]
    exact hagain.written
  · rw [← hlater]
    exact hagain.nodup
  · rw [← hlater]
    exact hagain.new

omit [DecidableEq K] [DecidableEq L] [DecidableEq V] in
/-- **The step**: a write. -/
theorem write (h : Seen old past (a :: later) seen) {v : V} (hw : a.write = some v) :
    v ∉ seen ∧ Seen old (a :: past) later (seen ++ [v]) := by
  have hlater : writes (a :: later) = v :: writes later := List.filterMap_cons_some hw
  have hpast : writes (a :: past) = v :: writes past := List.filterMap_cons_some hw
  have hnodup := h.nodup
  have hnew := h.new
  rw [hlater] at hnodup hnew
  obtain ⟨hv, hnodup⟩ := List.nodup_cons.mp hnodup
  obtain ⟨hvnew, hnew⟩ := List.forall_mem_cons.mp hnew
  refine ⟨hvnew, fun l => List.mem_append_left _ (h.stored l), ?_, hnodup, ?_⟩
  · rw [hpast]
    refine List.forall_mem_cons.mpr ⟨List.mem_append_right _ List.mem_cons_self, ?_⟩
    exact fun w hmem => List.mem_append_left _ (h.written w hmem)
  · intro w hmem hc
    rcases List.mem_append.mp hc with hc | hc
    · exact hnew w hmem hc
    · rw [List.mem_singleton.mp hc] at hmem
      exact hv hmem

omit [DecidableEq L] in
/-- **A batch** leaves new values where it writes. -/
theorem batch (as : List (Access K V L)) : ∀ {past : List (Access K V L)} {seen : List V},
    Seen old past (as ++ later) seen →
    firsts seen (left old past as) = as.map (fun a => a.write.isSome) ∧
      Seen old (as.reverse ++ past) later (seen ++ left old past as) := by
  induction as with
  | nil =>
      intro past seen h
      exact ⟨rfl, by rw [left, List.append_nil]; exact h⟩
  | cons a as ih =>
      intro past seen h
      -- what the access leaves, and whether it is new
      obtain ⟨hfirst, hnext⟩ : decide ((handed a past).getD (old a.label) ∉ seen)
            = a.write.isSome ∧
          Seen old (a :: past) (as ++ later) (seen ++ [(handed a past).getD (old a.label)]) := by
        cases hw : a.write with
        | none => exact ⟨by simp [h.left_mem hw], h.read hw (h.left_mem hw)⟩
        | some v =>
            obtain ⟨hv, hnext⟩ := h.write hw
            rw [handed, hw, Option.some_or, Option.getD_some]
            exact ⟨by simp [hv], hnext⟩
      obtain ⟨hrest, hend⟩ := ih hnext
      rw [List.reverse_cons, List.append_assoc, left, firsts_cons, List.map_cons, hfirst, hrest,
        List.append_cons]
      exact ⟨rfl, hend⟩

end Seen

/-- **What is new**: if everything written is different, and different from what
was stored at first, just the places where it is written. -/
theorem firsts_shown {first : L → V} (batches : List (List (Access K V L))) :
    ∀ (past : List (List (Access K V L))) (seen : List V),
    Seen (fun l => found first l past) past.flatten batches.flatten seen →
    firsts seen (shown first past batches) = batches.flatMap newPlaces := by
  induction batches with
  | nil => intro past seen _; rfl
  | cons as rest ih =>
      intro past seen h
      have hreads : ∀ v ∈ as.map fun a => found first a.label past, v ∈ seen := by
        intro v hv
        obtain ⟨a, -, rfl⟩ := List.mem_map.mp hv
        exact h.stored a.label
      obtain ⟨hleft, hnext⟩ := (h.again hreads).batch as
      rw [shown, List.append_assoc, firsts_append, firsts_append, firsts_of_forall_mem hreads,
        List.length_map, hleft, List.flatMap_cons, newPlaces,
        List.append_assoc (List.replicate as.length false)]
      congr 2
      refine ih (as.reverse :: past) _ ⟨?_, ?_, hnext.nodup, hnext.new⟩
      · intro l
        rw [found]
        cases hh : handedAt l as.reverse past.flatten with
        | none => exact hnext.stored l
        | some v => exact hnext.written v (mem_writes_of_handedAt hh)
      · rw [List.flatten_cons]
        exact hnext.written

end Firsts

end LazyReplicas
