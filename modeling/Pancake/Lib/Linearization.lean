import Mathlib.Data.List.Basic
import Mathlib.Data.List.Nodup

/-!
# Linearizations

Clients call operations of a shared object, each call with a ticket of its
own, and are told results later. A linearization of what they see is an order
in which the operations could have been executed one at a time: it gives every
call that returned its result, and whoever returned before another called
comes before it.

An order is extended as an execution goes on: `Linearizes.call` for a new
call, `Linearizes.effect` where an operation takes effect, and `Linearizes.ret`
where a client is told.
-/

open scoped List

/-- What is seen of a shared object. -/
inductive CallEvent (I O R : Type) where
  | call (ticket : I) (op : O)
  | ret (ticket : I) (result : R)
  deriving DecidableEq

/-- An operation executed, for the call with the ticket. -/
structure Effect (I O R : Type) where
  ticket : I
  op : O
  result : R
  deriving DecidableEq

/-- An object used by one client at a time. -/
structure SeqObject (S O R : Type) where
  next : S → O → S
  result : S → O → R

namespace SeqObject

variable {I S O R : Type} (A : SeqObject S O R)

/-- The state after some operations. -/
def after (s : S) (lin : List (Effect I O R)) : S := lin.foldl (fun s f => A.next s f.op) s

/-- Every operation has the result it has when they are executed in order. -/
def Legal (s : S) : List (Effect I O R) → Prop
  | [] => True
  | f :: lin => f.result = A.result s f.op ∧ Legal (A.next s f.op) lin

variable {A} {s : S} {lin : List (Effect I O R)}

theorem after_snoc {f : Effect I O R} :
    A.after s (lin ++ [f]) = A.next (A.after s lin) f.op := by
  simp [after]

theorem legal_snoc {f : Effect I O R} :
    A.Legal s (lin ++ [f]) ↔ A.Legal s lin ∧ f.result = A.result (A.after s lin) f.op := by
  induction lin generalizing s with
  | nil => simp [Legal, after]
  | cons g lin ih =>
      rw [List.cons_append, Legal, Legal, ih, and_assoc]
      rfl

end SeqObject

variable {I S O R : Type}

/-- `lin` is an order for the calls seen in `h`, from the state `s` of the object. -/
structure Linearizes (A : SeqObject S O R) (s : S) (h : List (CallEvent I O R))
    (lin : List (Effect I O R)) : Prop where
  once : (lin.map Effect.ticket).Nodup
  called : ∀ f ∈ lin, .call f.ticket f.op ∈ h
  returned : ∀ id r, .ret id r ∈ h → ∃ f ∈ lin, f.ticket = id ∧ f.result = r
  legal : A.Legal s lin
  realTime : ∀ h₁ h₂, h = h₁ ++ h₂ → ∀ id r id' op, .ret id r ∈ h₁ → .call id' op ∈ h₂ →
    id' ∈ lin.map Effect.ticket → [id, id'] <+ lin.map Effect.ticket

namespace Linearizes

variable {A : SeqObject S O R} {s : S} {h : List (CallEvent I O R)} {lin : List (Effect I O R)}

theorem nil : Linearizes A s ([] : List (CallEvent I O R)) [] where
  once := List.nodup_nil
  called f hf := by cases hf
  returned id r hr := by cases hr
  legal := trivial
  realTime h₁ h₂ he id r id' op hr hc hlin := by cases hlin

/-- What was seen before the last event is a part of what was seen before. -/
theorem cut_snoc {e : CallEvent I O R} {h₁ h₂ : List (CallEvent I O R)}
    (he : h ++ [e] = h₁ ++ h₂) :
    (h₂ = [] ∧ h₁ = h ++ [e]) ∨ ∃ h₂', h = h₁ ++ h₂' ∧ h₂ = h₂' ++ [e] := by
  rcases h₂.eq_nil_or_concat with rfl | ⟨h₂', e', rfl⟩
  · rw [List.append_nil] at he
    exact .inl ⟨rfl, he.symm⟩
  · rw [List.concat_eq_append, ← List.append_assoc] at he
    obtain ⟨rfl, hlast⟩ := List.append_inj' he rfl
    cases hlast
    exact .inr ⟨h₂', rfl, List.concat_eq_append⟩

/-- **A new call**, under a ticket not used before, stays open. -/
theorem call (hl : Linearizes A s h lin) {id : I} {op : O}
    (hnew : ∀ op', .call id op' ∉ h) : Linearizes A s (h ++ [.call id op]) lin where
  once := hl.once
  called f hf := List.mem_append_left _ (hl.called f hf)
  returned id' r hr := by
    rcases List.mem_append.mp hr with hr | hr
    · exact hl.returned id' r hr
    · simp at hr
  legal := hl.legal
  realTime h₁ h₂ he id₁ r id' op' hr hc hlin := by
    rcases cut_snoc he with ⟨rfl, -⟩ | ⟨h₂', rfl, rfl⟩
    · cases hc
    · rcases List.mem_append.mp hc with hc | hc
      · exact hl.realTime h₁ h₂' rfl id₁ r id' op' hr hc hlin
      · -- no operation took effect under the new ticket
        simp only [List.mem_singleton, CallEvent.call.injEq] at hc
        obtain ⟨f, hf, hticket⟩ := List.mem_map.mp hlin
        have hcalled := hl.called f hf
        rw [hticket, hc.1] at hcalled
        exact absurd hcalled (hnew f.op)

/-- **Taking effect**: the operation of an open call comes last. -/
theorem effect (hl : Linearizes A s h lin) {f : Effect I O R} (hcalled : .call f.ticket f.op ∈ h)
    (hopen : f.ticket ∉ lin.map Effect.ticket)
    (hresult : f.result = A.result (A.after s lin) f.op) :
    Linearizes A s h (lin ++ [f]) where
  once := by
    rw [List.map_append, List.map_singleton, List.nodup_append]
    refine ⟨hl.once, List.nodup_singleton _, fun a ha b hb => ?_⟩
    rw [List.mem_singleton.mp hb]
    exact fun hab => hopen (hab ▸ ha)
  called g hg := by
    rcases List.mem_append.mp hg with hg | hg
    · exact hl.called g hg
    · rwa [List.mem_singleton.mp hg]
  returned id r hr := by
    obtain ⟨g, hg, heq⟩ := hl.returned id r hr
    exact ⟨g, List.mem_append_left _ hg, heq⟩
  legal := SeqObject.legal_snoc.mpr ⟨hl.legal, hresult⟩
  realTime h₁ h₂ he id r id' op hr hc hlin := by
    rw [List.map_append, List.map_singleton] at hlin ⊢
    rcases List.mem_append.mp hlin with hlin | hlin
    · exact (hl.realTime h₁ h₂ he id r id' op hr hc hlin).trans (List.sublist_append_left _ _)
    · -- whoever has returned has taken effect
      obtain ⟨g, hg, rfl, -⟩ := hl.returned id r (by rw [he]; exact List.mem_append_left _ hr)
      rw [List.mem_singleton.mp hlin]
      exact (List.singleton_sublist.mpr (List.mem_map_of_mem hg)).append_right [f.ticket]

/-- **Being told** the result of an operation that took effect. -/
theorem ret (hl : Linearizes A s h lin) {f : Effect I O R} (hf : f ∈ lin) :
    Linearizes A s (h ++ [.ret f.ticket f.result]) lin where
  once := hl.once
  called g hg := List.mem_append_left _ (hl.called g hg)
  returned id r hr := by
    rcases List.mem_append.mp hr with hr | hr
    · exact hl.returned id r hr
    · simp only [List.mem_singleton, CallEvent.ret.injEq] at hr
      exact ⟨f, hf, hr.1.symm, hr.2.symm⟩
  legal := hl.legal
  realTime h₁ h₂ he id r id' op hr hc hlin := by
    rcases cut_snoc he with ⟨rfl, -⟩ | ⟨h₂', rfl, rfl⟩
    · cases hc
    · rcases List.mem_append.mp hc with hc | hc
      · exact hl.realTime h₁ h₂' rfl id r id' op hr hc hlin
      · simp at hc

end Linearizes
