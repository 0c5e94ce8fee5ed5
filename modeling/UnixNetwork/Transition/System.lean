import Mathlib.Logic.Relation
import Mathlib.Order.Basic

/-!
# Transition systems and their invariants

A program that reacts to its environment is a set of initial states and a
labelled step relation, the label being what the environment did.  `Reachable` is
what any run from an initial state can arrive at, whatever the environment does,
and `Reachable.invariant` is the only induction on runs a safety proof needs:
hold initially, survive each step.

`restrict` cuts the runs of a system down to those whose steps all meet a condition.
`Steps` is what can happen between two states, and `Steps.follow` finds what a list of
labels leads to when the steps are computed.
-/

namespace UnixNetwork

/-- Initial states and a step relation, labelled by what the environment did. -/
structure TransitionSystem (S : Type*) (L : Type*) where
  /-- The states a run may start in. -/
  init : S → Prop
  /-- One step under one label. -/
  step : S → L → S → Prop

namespace TransitionSystem

variable {S L : Type*} {T : TransitionSystem S L}

/-- The states some run arrives at. -/
inductive Reachable (T : TransitionSystem S L) : S → Prop
  | init {s : S} : T.init s → Reachable T s
  | step {s s' : S} {l : L} : Reachable T s → T.step s l s' → Reachable T s'

/-- **The invariant rule.** -/
theorem Reachable.invariant {P : S → Prop} (hinit : ∀ s, T.init s → P s)
    (hstep : ∀ s l s', P s → T.step s l s' → P s') {s : S} (h : T.Reachable s) : P s := by
  induction h with
  | init h0 => exact hinit _ h0
  | step _ hs ih => exact hstep _ _ _ ih hs

/-- The same system, as long as every step meets a condition. -/
def restrict (T : TransitionSystem S L) (P : S → L → S → Prop) : TransitionSystem S L where
  init := T.init
  step := fun s l s' => T.step s l s' ∧ P s l s'

theorem Reachable.of_restrict {P : S → L → S → Prop} {s : S} (h : (T.restrict P).Reachable s) :
    T.Reachable s := by
  induction h with
  | init h0 => exact .init h0
  | step _ hs ih => exact .step ih hs.1

/-- What some run passes after a state. -/
def Steps (T : TransitionSystem S L) : S → S → Prop :=
  Relation.ReflTransGen fun s s' => ∃ l, T.step s l s'

theorem Reachable.steps {s s' : S} (h : T.Reachable s) (hsteps : T.Steps s s') :
    T.Reachable s' := by
  induction hsteps with
  | refl => exact h
  | tail _ hstep ih =>
    obtain ⟨l, hl⟩ := hstep
    exact .step ih hl

/-- What holds at one moment and survives each step holds from then on. -/
theorem Steps.invariant {P : S → Prop} {s s' : S} (h : T.Steps s s') (hs : P s)
    (hstep : ∀ t l t', T.Steps s t → P t → T.step t l t' → P t') : P s' := by
  induction h with
  | refl => exact hs
  | tail hsteps hnext ih =>
    obtain ⟨l, hl⟩ := hnext
    exact hstep _ l _ hsteps ih hl

/-- A run given by its labels. -/
theorem Steps.follow {f : S → L → Option S} (hf : ∀ s l s', f s l = some s' → T.step s l s')
    {s s' : S} {labels : List L} (hrun : labels.foldlM f s = some s') : T.Steps s s' := by
  induction labels generalizing s with
  | nil =>
    cases hrun
    exact Relation.ReflTransGen.refl
  | cons l labels ih =>
    rw [List.foldlM_cons] at hrun
    obtain ⟨t, ht, hrest⟩ := Option.bind_eq_some_iff.mp hrun
    exact Relation.ReflTransGen.head ⟨l, hf s l t ht⟩ (ih hrest)

theorem Reachable.follow {f : S → L → Option S} (hf : ∀ s l s', f s l = some s' → T.step s l s')
    {s s' : S} {labels : List L} (h : T.Reachable s) (hrun : labels.foldlM f s = some s') :
    T.Reachable s' :=
  h.steps (Steps.follow hf hrun)

end TransitionSystem

end UnixNetwork
