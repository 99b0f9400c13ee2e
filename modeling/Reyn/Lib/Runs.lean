import Mathlib

/-! # Runs of a labelled transition system

A system is a partial step function. A run takes steps whose action the given
guard allows in the state it is taken from; an invariant is shown once per step.
-/
namespace Transition
variable {State Action : Type} (step : State → Action → Option State) (guard : State → Action → Prop)

inductive Runs : State → State → Prop
  | refl (s : State) : Runs s s
  | step {s t u : State} {a : Action} : Runs s t → guard t a → step t a = some u → Runs s u

variable {step guard}

/-- What holds first and is preserved by every allowed step holds after every run. -/
theorem Runs.invariant {I : State → Prop} {s t : State} (hr : Runs step guard s t) (hs : I s)
    (hstep : ∀ s a t, I s → guard s a → step s a = some t → I t) : I t := by
  induction hr with
  | refl => exact hs
  | step _ hg ht ih => exact hstep _ _ _ ih hg ht

theorem Runs.trans {s t u : State} (h : Runs step guard s t) (h' : Runs step guard t u) : Runs step guard s u := by
  induction h' with
  | refl => exact h
  | step _ hg ht ih => exact .step ih hg ht

theorem Runs.single {s t : State} {a : Action} (hg : guard s a) (h : step s a = some t) : Runs step guard s t :=
  .step (.refl s) hg h

theorem Runs.mono {guard' : State → Action → Prop} {s t : State} (hr : Runs step guard s t)
    (h : ∀ s a, guard s a → guard' s a) : Runs step guard' s t := by
  induction hr with
  | refl => exact .refl _
  | step _ hg ht ih => exact .step ih (h _ _ hg) ht

/-- The state a list of actions leads to. -/
def runAll (step : State → Action → Option State) : State → List Action → Option State
  | s, [] => some s
  | s, a :: rest => (step s a).bind fun t => runAll step t rest

/-- A computed sequence of steps is a run when the guard allows its actions everywhere. -/
theorem Runs.of_runAll {s t u : State} {actions : List Action} (hr : Runs step guard s t)
    (hg : ∀ a ∈ actions, ∀ s, guard s a) (h : runAll step t actions = some u) : Runs step guard s u := by
  induction actions generalizing t with
  | nil => cases h; exact hr
  | cons a rest ih =>
    obtain ⟨v,hv,hrest⟩ := Option.bind_eq_some_iff.mp h
    exact ih (.step hr (hg a List.mem_cons_self t) hv) (fun b hb => hg b (List.mem_cons_of_mem _ hb)) hrest

/-- The same with the guard tested at each step. -/
def runChecked (step : State → Action → Option State) (ok : State → Action → Bool) : State → List Action → Option State
  | s, [] => some s
  | s, a :: rest => if ok s a then (step s a).bind fun t => runChecked step ok t rest else none

theorem Runs.of_runChecked {ok : State → Action → Bool} {s t u : State} {actions : List Action}
    (hr : Runs step guard s t) (hok : ∀ s a, ok s a = true → guard s a) (h : runChecked step ok t actions = some u) :
    Runs step guard s u := by
  induction actions generalizing t with
  | nil => cases h; exact hr
  | cons a rest ih =>
    obtain ⟨ha,h⟩ := Option.ite_none_right_eq_some.mp h
    obtain ⟨v,hv,hrest⟩ := Option.bind_eq_some_iff.mp h
    exact ih (.step hr (hok t a ha) hv) hrest

/-- Where a run computed once ends, with what is seen there. -/
def Computed (run : Option State) (seen : State → Bool) : Type := {s : State // run = some s ∧ seen s = true}

def Computed.of : (run : Option State) → (seen : State → Bool) → run.any seen = true → Computed run seen
  | some s, _, h => ⟨s,rfl,h⟩

end Transition
