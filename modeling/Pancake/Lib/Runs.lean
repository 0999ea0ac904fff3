import Mathlib.Data.List.Induction

/-!
# Labelled runs

A transition system is a relation `step s a s'`: from `s`, the event `a`
leads to `s'`. `Run` lists the events of a finite run, latest last, so that
a property of a run can speak of what came before an event. The induction is
packaged once, as `Run.invariant`, with an invariant that may depend on the
events so far.
-/

/-- From `s`, the events `as` lead to `t`. -/
inductive Run {S A : Type} (step : S → A → S → Prop) (s : S) : List A → S → Prop
  | nil : Run step s [] s
  | snoc {as : List A} {t : S} {a : A} {u : S} :
      Run step s as t → step t a u → Run step s (as ++ [a]) u

namespace Run

variable {S A : Type} {step : S → A → S → Prop} {s t : S} {as : List A}

theorem single {a : A} (h : step s a t) : Run step s [a] t := .snoc .nil h

/-- **The run rule**: what holds initially and is kept by every step holds
after every run. -/
theorem invariant {I : List A → S → Prop} (h : Run step s as t) (hinit : I [] s)
    (hstep : ∀ {as t a u}, Run step s as t → I as t → step t a u → I (as ++ [a]) u) :
    I as t := by
  induction h with
  | nil => exact hinit
  | snoc hr hs ih => exact hstep hr ih hs

/-- Runs compose. -/
theorem append {bs : List A} {u : S} (h : Run step s as t) (h' : Run step t bs u) :
    Run step s (as ++ bs) u := by
  induction h' with
  | nil => simpa using h
  | snoc _ hs ih => rw [← List.append_assoc]; exact .snoc ih hs

/-- A list of events that a step function takes one after another is a run. -/
theorem of_foldlM {f : S → A → Option S} (hf : ∀ {s a t}, f s a = some t → step s a t)
    (h : as.foldlM f s = some t) : Run step s as t := by
  induction as using List.reverseRecOn generalizing t with
  | nil =>
      cases h
      exact .nil
  | append_singleton as a ih =>
      rw [List.foldlM_append] at h
      obtain ⟨u, hu, ha⟩ := Option.bind_eq_some_iff.mp h
      exact .snoc (ih hu) (hf (by simpa using ha))

/-- The empty run goes nowhere. -/
theorem nil_iff : Run step s [] t ↔ t = s := by
  refine ⟨fun h => ?_, fun h => h ▸ .nil⟩
  generalize hl : ([] : List A) = l at h
  cases h with
  | nil => rfl
  | snoc _ _ => simp at hl

/-- The last step of a run. -/
theorem snoc_iff {a : A} {u : S} :
    Run step s (as ++ [a]) u ↔ ∃ t, Run step s as t ∧ step t a u := by
  refine ⟨fun h => ?_, fun ⟨t, h, hs⟩ => .snoc h hs⟩
  generalize hl : as ++ [a] = l at h
  cases h with
  | nil => simp at hl
  | snoc hr hs =>
      obtain ⟨rfl, hlast⟩ := List.append_inj' hl rfl
      cases hlast
      exact ⟨_, hr, hs⟩

/-- A run can be cut anywhere. -/
theorem append_iff {bs : List A} {u : S} :
    Run step s (as ++ bs) u ↔ ∃ t, Run step s as t ∧ Run step t bs u := by
  refine ⟨fun h => ?_, fun ⟨t, h, h'⟩ => h.append h'⟩
  induction bs using List.reverseRecOn generalizing u with
  | nil => exact ⟨u, by simpa using h, .nil⟩
  | append_singleton bs b ih =>
      rw [← List.append_assoc, snoc_iff] at h
      obtain ⟨v, hv, hs⟩ := h
      obtain ⟨t, ht, hr⟩ := ih hv
      exact ⟨t, ht, .snoc hr hs⟩

/-- The first step of a run. -/
theorem cons_iff {a : A} {u : S} :
    Run step s (a :: as) u ↔ ∃ t, step s a t ∧ Run step t as u := by
  rw [← List.singleton_append, append_iff]
  refine ⟨fun ⟨t, h, h'⟩ => ⟨t, ?_, h'⟩, fun ⟨t, h, h'⟩ => ⟨t, single h, h'⟩⟩
  obtain ⟨v, hv, hs⟩ := (@snoc_iff _ _ _ _ []).mp h
  rw [nil_iff] at hv
  exact hv ▸ hs

/-- A run is a run of any system whose steps include those taken. -/
theorem mono {step' : S → A → S → Prop} (h : Run step s as t)
    (hle : ∀ {s a t}, step s a t → step' s a t) : Run step' s as t := by
  induction h with
  | nil => exact .nil
  | snoc _ hs ih => exact .snoc ih (hle hs)

/-- **The simulation rule**: where every step can be followed from a related
state to a related state, so can every run. -/
theorem simulated {T : Type} {step' : T → A → T → Prop} {R : S → T → Prop} {s' : T}
    (h : Run step s as t) (hR : R s s')
    (hstep : ∀ {s a t s'}, R s s' → step s a t → ∃ t', step' s' a t' ∧ R t t') :
    ∃ t', Run step' s' as t' ∧ R t t' := by
  induction h with
  | nil => exact ⟨s', .nil, hR⟩
  | snoc _ hs ih =>
      obtain ⟨t', hrun, hR⟩ := ih
      obtain ⟨u', hs', hR'⟩ := hstep hR hs
      exact ⟨u', .snoc hrun hs', hR'⟩

end Run
