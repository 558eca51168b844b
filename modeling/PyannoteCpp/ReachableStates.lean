import Mathlib.Logic.Basic

set_option autoImplicit false

/-!
# Reachable states of a machine with inputs

A machine is an initial predicate and a transition relation labelled by the
input of the step. Nothing is fixed about the order or the number of inputs,
so an invariant proved here holds after every history.
-/
namespace PyannoteCpp.ReachableStates

variable {State Input : Type*}

inductive Reachable (start : State → Prop) (step : State → Input → State → Prop) : State → Prop where
  | start {s : State} (h : start s) : Reachable start step s
  | step {s u : State} {i : Input} (tail : Reachable start step s) (h : step s i u) :
      Reachable start step u

variable {start : State → Prop} {step : State → Input → State → Prop}

theorem Reachable.invariant (I : State → Prop) (h0 : ∀ s, start s → I s)
    (hs : ∀ s i u, I s → step s i u → I u) {s : State} (h : Reachable start step s) : I s := by
  induction h with
  | start h => exact h0 _ h
  | step _ h ih => exact hs _ _ _ ih h

/-- The same machine restricted to steps whose source state and input are admitted. -/
def Admitted (ok : State → Input → Prop) (step : State → Input → State → Prop) :
    State → Input → State → Prop :=
  fun s i u => ok s i ∧ step s i u

theorem Reachable.of_admitted {ok : State → Input → Prop} {s : State}
    (h : Reachable start (Admitted ok step) s) : Reachable start step s := by
  induction h with
  | start h => exact .start h
  | step _ h ih => exact .step ih h.2

/-- A list of inputs that a step function takes leads to a reachable state. -/
theorem Reachable.foldlM {next : State → Input → Option State} (hnext : ∀ s i u, next s i = some u → step s i u) {s u : State}
    (h : Reachable start step s) {inputs : List Input} (hrun : inputs.foldlM next s = some u) : Reachable start step u := by
  induction inputs generalizing s with
  | nil => exact Option.some.inj hrun ▸ h
  | cons i inputs ih =>
    rw [List.foldlM_cons] at hrun
    obtain ⟨v, hv, hrest⟩ := Option.bind_eq_some_iff.mp hrun
    exact ih (h.step (hnext s i v hv)) hrest

end PyannoteCpp.ReachableStates
