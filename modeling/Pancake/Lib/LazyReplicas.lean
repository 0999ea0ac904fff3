import Mathlib.Data.List.Basic
import Mathlib.Logic.Function.Basic

/-!
# Lazily refreshed replicas

A key's value is kept under several labels of a store. A write does not go
to all of them: it is left *waiting* at every replica, and each later access
to one replica hands the waiting update over and writes it back. This file
is the mathematics of that scheme over arbitrary keys, values and labels:

* `Waiting` — the table of updates not yet handed over, with what one access
  does to it (`delivered`, `after`);
* two ways of serving a list of accesses: `serveBatch` reads every label up
  front and writes at the end, `serveEach` serves them one at a time;
  `NoStaleRead` is exactly when the two agree (`serveBatch_agrees_iff`);
* `Coherent` — every replica either waits for the current value or stores
  it — with its step and list rules.
-/

namespace LazyReplicas

variable {K V L : Type} [DecidableEq K]

/-- The update waiting for each replica of each key. -/
abbrev Waiting (K V : Type) := K → Nat → Option V

/-- One access to a replica: a write carries the new value, and `answered`
says that a caller waits for the access's value. -/
structure Access (K V L : Type) where
  key : K
  replica : Nat
  label : L
  write : Option V
  answered : Bool

/-! ## The waiting table -/

namespace Waiting

/-- A write of `v`: it waits at each of the `n` replicas of `k`. -/
def put (w : Waiting K V) (k : K) (n : Nat) (v : V) : Waiting K V :=
  Function.update w k fun i => if i < n then some v else none

/-- Nothing waits at replica `i` of `k` any more. -/
def clear (w : Waiting K V) (k : K) (i : Nat) : Waiting K V :=
  Function.update w k (Function.update (w k) i none)

/-- The table once the access has left its own write waiting. -/
def written (r : K → Nat) (w : Waiting K V) (a : Access K V L) : Waiting K V :=
  match a.write with
  | some v => w.put a.key (r a.key) v
  | none => w

/-- The update the access is handed. -/
def delivered (r : K → Nat) (w : Waiting K V) (a : Access K V L) : Option V :=
  w.written r a a.key a.replica

/-- The table after the access. -/
def after (r : K → Nat) (w : Waiting K V) (a : Access K V L) : Waiting K V :=
  (w.written r a).clear a.key a.replica

theorem put_apply (w : Waiting K V) (k k' : K) (n i : Nat) (v : V) :
    w.put k n v k' i = if k' = k then (if i < n then some v else none) else w k' i := by
  by_cases h : k' = k
  · subst h; simp [put]
  · simp [put, h]

theorem clear_apply (w : Waiting K V) (k k' : K) (i j : Nat) :
    w.clear k i k' j = if k' = k ∧ j = i then none else w k' j := by
  by_cases h : k' = k
  · subst h
    by_cases hj : j = i
    · simp [clear, hj]
    · simp [clear, hj]
  · simp [clear, h]

theorem written_of_write {r : K → Nat} {w : Waiting K V} {a : Access K V L} {v : V}
    (h : a.write = some v) : w.written r a = w.put a.key (r a.key) v := by
  simp [written, h]

theorem written_of_read {r : K → Nat} {w : Waiting K V} {a : Access K V L}
    (h : a.write = none) : w.written r a = w := by
  simp [written, h]

/-- A write is handed to the replica it goes to. -/
theorem delivered_of_write {r : K → Nat} {w : Waiting K V} {a : Access K V L} {v : V}
    (h : a.write = some v) (hr : a.replica < r a.key) : w.delivered r a = some v := by
  simp [delivered, written_of_write h, put_apply, hr]

theorem delivered_of_read {r : K → Nat} {w : Waiting K V} {a : Access K V L}
    (h : a.write = none) : w.delivered r a = w a.key a.replica := by
  simp [delivered, written_of_read h]

theorem after_apply (r : K → Nat) (w : Waiting K V) (a : Access K V L) (k : K) (i : Nat) :
    w.after r a k i = if k = a.key ∧ i = a.replica then none else w.written r a k i :=
  clear_apply _ _ _ _ _

end Waiting

open Waiting

/-! ## Serving a list of accesses -/

/-- The value of an access whose label was read as `old`. -/
def value (r : K → Nat) (w : Waiting K V) (a : Access K V L) (old : V) : V :=
  (w.delivered r a).getD old

/-- The values when every label is read from `store` up front. -/
def serveBatch (r : K → Nat) (store : L → V) : Waiting K V → List (Access K V L) → List V
  | _, [] => []
  | w, a :: as => value r w a (store a.label) :: serveBatch r store (w.after r a) as

variable [DecidableEq L]

/-- The values when each access is written back before the next is read. -/
def serveEach (r : K → Nat) : Waiting K V → (L → V) → List (Access K V L) → List V
  | _, _, [] => []
  | w, store, a :: as =>
      let x := value r w a (store a.label)
      x :: serveEach r (w.after r a) (Function.update store a.label x) as

/-- The waiting table after a list of accesses. -/
def afterAll (r : K → Nat) (w : Waiting K V) (as : List (Access K V L)) : Waiting K V :=
  as.foldl (Waiting.after r) w

/-- Write values back in order; a label that occurs twice keeps the last. -/
def writeBack (store : L → V) : List (Access K V L) → List V → L → V
  | a :: as, x :: xs => writeBack (Function.update store a.label x) as xs
  | _, _ => store

/-- The values the callers get. -/
def answers : List (Access K V L) → List V → List V
  | a :: as, x :: xs => if a.answered then x :: answers as xs else answers as xs
  | _, _ => []

omit [DecidableEq L] in
@[simp] theorem serveBatch_length (r : K → Nat) (store : L → V) (w : Waiting K V)
    (as : List (Access K V L)) : (serveBatch r store w as).length = as.length := by
  induction as generalizing w with
  | nil => rfl
  | cons a as ih => simp [serveBatch, ih]

@[simp] theorem serveEach_length (r : K → Nat) (w : Waiting K V) (store : L → V)
    (as : List (Access K V L)) : (serveEach r w store as).length = as.length := by
  induction as generalizing w store with
  | nil => rfl
  | cons a as ih => simp [serveEach, ih]

omit [DecidableEq K] in
theorem writeBack_of_notMem {store : L → V} {as : List (Access K V L)} {xs : List V} {l : L}
    (h : l ∉ as.map Access.label) : writeBack store as xs l = store l := by
  induction as generalizing store xs with
  | nil => rfl
  | cons a as ih =>
      simp only [List.map_cons, List.mem_cons, not_or] at h
      cases xs with
      | nil => rfl
      | cons x xs => rw [writeBack, ih h.2, Function.update_of_ne h.1]

omit [DecidableEq K] in
/-- On a written label the store written into does not matter. -/
theorem writeBack_of_mem {s s' : L → V} {as : List (Access K V L)} {xs : List V} {l : L}
    (hlen : xs.length = as.length) (h : l ∈ as.map Access.label) :
    writeBack s as xs l = writeBack s' as xs l := by
  induction as generalizing s s' xs with
  | nil => simp at h
  | cons a as ih =>
      cases xs with
      | nil => simp at hlen
      | cons x xs =>
          simp only [List.length_cons, Nat.add_right_cancel_iff] at hlen
          simp only [writeBack]
          by_cases hm : l ∈ as.map Access.label
          · exact ih hlen hm
          · rw [writeBack_of_notMem hm, writeBack_of_notMem hm]
            have hl : l = a.label := by simpa [hm] using h
            subst hl
            simp

/-- What goes to and from the store over a run of batches: the values each
reads, then those it writes back. -/
def exchanged (r : K → Nat) : Waiting K V → (L → V) → List (List (Access K V L)) → List V
  | _, _, [] => []
  | w, store, as :: rest =>
      let xs := serveBatch r store w as
      (as.map fun a => store a.label) ++ xs
        ++ exchanged r (afterAll r w as) (writeBack store as xs) rest

/-! ## When reading up front is harmless -/

/-- No access that is answered, or is the last one on its label, goes
without an update after another access of the list on that label was handed
one that differs from what was stored. `seen l` is the last update handed
to an access on label `l` so far. -/
def NoStaleRead (r : K → Nat) (store : L → V) :
    Waiting K V → (L → Option V) → List (Access K V L) → Prop
  | _, _, [] => True
  | w, seen, a :: as =>
      (w.delivered r a = none → (a.answered = true ∨ a.label ∉ as.map Access.label) →
        ∀ v ∈ seen a.label, v = store a.label) ∧
      NoStaleRead r store (w.after r a)
        (match w.delivered r a with
          | some v => Function.update seen a.label (some v)
          | none => seen) as

omit [DecidableEq L] in
/-- The two values of one access agree exactly when it is handed an update or
the last one seen on its label is what was stored. -/
theorem value_agrees_iff {r : K → Nat} {w : Waiting K V} {a : Access K V L}
    {store s : L → V} {seen : L → Option V} (hs : ∀ l, s l = (seen l).getD (store l)) :
    value r w a (store a.label) = value r w a (s a.label) ↔
      (w.delivered r a = none → ∀ v ∈ seen a.label, v = store a.label) := by
  cases hd : w.delivered r a with
  | some v => simp [value, hd]
  | none =>
      cases hv : seen a.label with
      | none => simp [value, hd, hs, hv]
      | some v => simp [value, hd, hs, hv, eq_comm]

/-- The store of the one-at-a-time run is the stored one overlaid with the
updates seen. -/
theorem overlay_update {r : K → Nat} {w : Waiting K V} {a : Access K V L}
    {store s : L → V} {seen : L → Option V} (hs : ∀ l, s l = (seen l).getD (store l)) (l : L) :
    Function.update s a.label (value r w a (s a.label)) l
      = ((match w.delivered r a with
          | some v => Function.update seen a.label (some v)
          | none => seen) l).getD (store l) := by
  by_cases hl : l = a.label
  · subst hl
    cases hd : w.delivered r a with
    | some v => simp [value, hd]
    | none => simp [value, hd, hs]
  · cases hd : w.delivered r a with
    | some v => simp [hl, hs]
    | none => simp [hl, hs]

omit [DecidableEq K] in
/-- Two write-backs agree on the labels of a list if they do on those of its
tail, and on the head's own label when no later access has it. -/
theorem writeBack_cons_agrees {store s : L → V} {a : Access K V L} {as : List (Access K V L)}
    {x y : V} {xs ys : List V} (hlen : xs.length = as.length) :
    (∀ l ∈ (a :: as).map Access.label,
        writeBack store (a :: as) (x :: xs) l = writeBack s (a :: as) (y :: ys) l) ↔
      (a.label ∉ as.map Access.label → x = y) ∧
      ∀ l ∈ as.map Access.label,
        writeBack store as xs l = writeBack (Function.update s a.label y) as ys l := by
  constructor
  · intro h
    refine ⟨fun hn => ?_, fun l hl => ?_⟩
    · have := h a.label (by simp)
      simpa [writeBack, writeBack_of_notMem hn] using this
    · have := h l (by simp only [List.map_cons, List.mem_cons]; exact .inr hl)
      simp only [writeBack] at this
      rw [← this]
      exact writeBack_of_mem hlen hl
  · rintro ⟨h1, h2⟩ l hl
    simp only [writeBack]
    by_cases hm : l ∈ as.map Access.label
    · rw [← h2 l hm]
      exact writeBack_of_mem hlen hm
    · have hla : l = a.label := by simpa [hm] using hl
      subst hla
      rw [writeBack_of_notMem hm, writeBack_of_notMem hm]
      simpa using h1 hm

/-- The agreement of the two runs from any point on, with the updates seen
so far as the invariant between their stores. -/
theorem serveBatch_agrees_from {r : K → Nat} {store : L → V} (as : List (Access K V L)) :
    ∀ {w : Waiting K V} {s : L → V} {seen : L → Option V},
    (∀ l, s l = (seen l).getD (store l)) →
    ((answers as (serveBatch r store w as) = answers as (serveEach r w s as) ∧
        ∀ l ∈ as.map Access.label, writeBack store as (serveBatch r store w as) l
          = writeBack s as (serveEach r w s as) l) ↔
      NoStaleRead r store w seen as) := by
  induction as with
  | nil => intro w s seen _; simp [NoStaleRead, serveBatch, serveEach, answers]
  | cons a as ih =>
      intro w s seen hs
      have hval := value_agrees_iff (r := r) (w := w) (a := a) hs
      have hrest := ih (w := w.after r a)
        (s := Function.update s a.label (value r w a (s a.label)))
        (overlay_update (r := r) (w := w) (a := a) hs)
      rw [NoStaleRead, ← hrest]
      set xb := value r w a (store a.label) with hxb
      set xe := value r w a (s a.label) with hxe
      set bs := serveBatch r store (w.after r a) as with hbs
      set es := serveEach r (w.after r a) (Function.update s a.label xe) as with hes
      have hb : serveBatch r store w (a :: as) = xb :: bs := rfl
      have he : serveEach r w s (a :: as) = xe :: es := rfl
      -- the head's answer
      have hans : answers (a :: as) (xb :: bs) = answers (a :: as) (xe :: es) ↔
          (a.answered = true → xb = xe) ∧ answers as bs = answers as es := by
        by_cases hw : a.answered = true <;> simp [answers, hw]
      have hlen : bs.length = as.length := serveBatch_length ..
      rw [hb, he, hans, writeBack_cons_agrees hlen]
      constructor
      · rintro ⟨⟨ha, hA⟩, hn, hL⟩
        refine ⟨fun hd hor => ?_, hA, hL⟩
        rcases hor with h | h
        · exact hval.mp (ha h) hd
        · exact hval.mp (hn h) hd
      · rintro ⟨h, hA, hL⟩
        exact ⟨⟨fun ha => hval.mpr fun hd => h hd (.inl ha), hA⟩,
          fun hn => hval.mpr fun hd => h hd (.inr hn), hL⟩

/-- **Batched and one-at-a-time service agree** — same answers, same final
store — exactly when no access of the list is a stale read. -/
theorem serveBatch_agrees_iff {r : K → Nat} {store : L → V} {w : Waiting K V}
    {as : List (Access K V L)} :
    (answers as (serveBatch r store w as) = answers as (serveEach r w store as) ∧
      writeBack store as (serveBatch r store w as) = writeBack store as (serveEach r w store as)) ↔
    NoStaleRead r store w (fun _ => none) as := by
  rw [← serveBatch_agrees_from as (s := store) (fun l => rfl)]
  refine and_congr_right fun _ => ⟨fun h l _ => congrFun h l, fun h => funext fun l => ?_⟩
  by_cases hl : l ∈ as.map Access.label
  · exact h l hl
  · rw [writeBack_of_notMem hl, writeBack_of_notMem hl]

/-- With distinct labels the values themselves agree, answered or not. -/
theorem serveBatch_eq_serveEach {r : K → Nat} {store : L → V} {as : List (Access K V L)} :
    ∀ {w : Waiting K V} {s : L → V}, (as.map Access.label).Nodup →
    (∀ a ∈ as, s a.label = store a.label) → serveBatch r store w as = serveEach r w s as := by
  induction as with
  | nil => intro w s _ _; rfl
  | cons a as ih =>
      intro w s hnd hs
      simp only [List.map_cons, List.nodup_cons] at hnd
      rw [serveBatch, serveEach, hs a (by simp)]
      refine congrArg _ (ih hnd.2 fun b hb => ?_)
      have hne : b.label ≠ a.label := fun hc => hnd.1 (hc ▸ List.mem_map_of_mem hb)
      rw [Function.update_of_ne hne, hs b (by simp [hb])]

/-! ## Coherence -/

/-- The value of every key after an access: only a write changes it. -/
def current (cur : K → V) (a : Access K V L) : K → V :=
  match a.write with
  | some v => Function.update cur a.key v
  | none => cur

/-- What each access should see: its key's value at that point, its own
write included. -/
def currents (cur : K → V) : List (Access K V L) → List V
  | [] => []
  | a :: as => current cur a a.key :: currents (current cur a) as

/-- Every replica waits for its key's value or stores it. -/
def Coherent (r : K → Nat) (lab : K → Nat → L) (cur : K → V) (w : Waiting K V)
    (store : L → V) : Prop :=
  ∀ k i, i < r k → w k i = some (cur k) ∨ (w k i = none ∧ store (lab k i) = cur k)

/-- Different live replicas have different labels. -/
def DistinctLabels (r : K → Nat) (lab : K → Nat → L) : Prop :=
  ∀ k i k' i', i < r k → i' < r k' → lab k i = lab k' i' → k = k' ∧ i = i'

/-- The access goes to a live replica, under that replica's label. -/
structure Placed (r : K → Nat) (lab : K → Nat → L) (a : Access K V L) : Prop where
  live : a.replica < r a.key
  label : a.label = lab a.key a.replica

section Coherence

variable {r : K → Nat} {lab : K → Nat → L} {cur : K → V} {w : Waiting K V} {store : L → V}

omit [DecidableEq L] in
/-- A coherent replica hands an access its key's current value. -/
theorem Coherent.value_eq (h : Coherent r lab cur w store) {a : Access K V L}
    (ha : Placed r lab a) : value r w a (store a.label) = current cur a a.key := by
  cases hw : a.write with
  | some v => simp [value, delivered_of_write hw ha.live, current, hw]
  | none =>
      rw [value, delivered_of_read hw, ha.label]
      rcases h a.key a.replica ha.live with hp | ⟨hn, hst⟩
      · simp [hp, current, hw]
      · simp [hn, hst, current, hw]

omit [DecidableEq L] in
/-- Every replica the access does not go to is coherent for the new values. -/
theorem Coherent.written (h : Coherent r lab cur w store) (a : Access K V L) :
    Coherent r lab (current cur a) (w.written r a) store := by
  intro k i hi
  cases hw : a.write with
  | none => simpa [written_of_read hw, current, hw] using h k i hi
  | some v =>
      rw [written_of_write hw, put_apply]
      by_cases hk : k = a.key
      · subst hk
        simp [current, hw, hi]
      · simpa [hk, current, hw] using h k i hi

/-- **The step rule**: an access served in turn keeps coherence. -/
theorem Coherent.serve (h : Coherent r lab cur w store) (hl : DistinctLabels r lab)
    {a : Access K V L} (ha : Placed r lab a) :
    Coherent r lab (current cur a) (w.after r a)
      (Function.update store a.label (value r w a (store a.label))) := by
  intro k i hi
  by_cases hki : k = a.key ∧ i = a.replica
  · obtain ⟨rfl, rfl⟩ := hki
    right
    rw [h.value_eq ha, ha.label]
    simp [after_apply]
  · have hne : lab k i ≠ a.label := by
      intro hc
      rw [ha.label] at hc
      exact hki (hl k i _ _ hi ha.live hc)
    rw [after_apply, if_neg hki, Function.update_of_ne hne]
    exact h.written a k i hi

/-- **The list rule**: served one at a time, every access sees its key's
current value, and coherence holds at the end. -/
theorem Coherent.serveEach (hl : DistinctLabels r lab) (as : List (Access K V L)) :
    ∀ {cur : K → V} {w : Waiting K V} {store : L → V}, Coherent r lab cur w store →
    (∀ a ∈ as, Placed r lab a) →
    LazyReplicas.serveEach r w store as = currents cur as ∧
      Coherent r lab (as.foldl current cur) (afterAll r w as)
        (writeBack store as (LazyReplicas.serveEach r w store as)) := by
  induction as with
  | nil => intro cur w store h _; exact ⟨rfl, h⟩
  | cons a as ih =>
      intro cur w store h hp
      have ha := hp a (by simp)
      obtain ⟨hv, hc⟩ := ih (h.serve hl ha) fun b hb => hp b (by simp [hb])
      refine ⟨?_, hc⟩
      rw [LazyReplicas.serveEach, currents, hv, h.value_eq ha]

/-- **The batch rule**: with distinct labels the same holds of a batch that
reads every label up front. -/
theorem Coherent.serveBatch (hl : DistinctLabels r lab) {as : List (Access K V L)}
    (h : Coherent r lab cur w store) (hp : ∀ a ∈ as, Placed r lab a)
    (hnd : (as.map Access.label).Nodup) :
    LazyReplicas.serveBatch r store w as = currents cur as ∧
      Coherent r lab (as.foldl current cur) (afterAll r w as)
        (writeBack store as (LazyReplicas.serveBatch r store w as)) := by
  rw [serveBatch_eq_serveEach hnd fun _ _ => rfl]
  exact Coherent.serveEach hl as h hp

end Coherence

end LazyReplicas
