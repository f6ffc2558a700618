import Mathlib

namespace Trinux

/-!
# Runs of a machine

A machine is a function that takes a state and an event to the next state.  What is said of the
steps of a run is said of each event together with the state that it meets.
-/

namespace Machine

variable {σ ε : Type*}

def after (step : σ → ε → σ) (s : σ) (events : List ε) : σ := events.foldl step s

def Always (step : σ → ε → σ) (P : σ → ε → Prop) : σ → List ε → Prop
  | _, [] => True
  | s, event :: rest => P s event ∧ Always step P (step s event) rest

variable {step : σ → ε → σ}

/-- An invariant that every event keeps holds after every run. -/
theorem after_invariant {I : σ → Prop} (keeps : ∀ s event, I s → I (step s event))
    {s : σ} (holds : I s) (events : List ε) : I (after step s events) := by
  induction events generalizing s with
  | nil => exact holds
  | cons event rest known => exact known (keeps s event holds)

/-- If the steps that meet a condition keep an invariant, and the invariant and the condition give
what is said of a step, then it is said of every step of a run whose steps meet the condition. -/
theorem Always.of_invariant {I : σ → Prop} {C P : σ → ε → Prop}
    (keeps : ∀ s event, I s → C s event → I (step s event))
    (gives : ∀ s event, I s → C s event → P s event)
    {s : σ} (holds : I s) {events : List ε} (meets : Always step C s events) :
    Always step P s events := by
  induction events generalizing s with
  | nil => trivial
  | cons event rest known =>
      exact ⟨gives s event holds meets.1, known (keeps s event holds meets.1) meets.2⟩

/-- The invariant of such steps holds after a run of them. -/
theorem Always.after {I : σ → Prop} {C : σ → ε → Prop}
    (keeps : ∀ s event, I s → C s event → I (step s event))
    {s : σ} (holds : I s) {events : List ε} (meets : Always step C s events) :
    I (after step s events) := by
  induction events generalizing s with
  | nil => exact holds
  | cons event rest known => exact known (keeps s event holds meets.1) meets.2

end Machine

end Trinux
