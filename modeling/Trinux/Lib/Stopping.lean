import Mathlib.Data.Set.Finite.Basic
import Mathlib.Logic.Relation
import Mathlib.Order.Preorder.Finite

namespace Trinux

/-!
# Runs that stop

A machine without inputs goes from each state to one next state, or stops.  Among finitely many
states it stops exactly if it does not come back to a state that it has left.
-/

namespace Stopping

variable {σ : Type*}

def afterSteps (step : σ → Option σ) : Nat → σ → Option σ
  | 0, s => some s
  | count + 1, s => (step s).bind (afterSteps step count)

def Follows (step : σ → Option σ) (s s' : σ) : Prop := step s = some s'

def ComesBack (step : σ → Option σ) (s : σ) : Prop :=
  ∃ again, Relation.ReflTransGen (Follows step) s again ∧
    Relation.TransGen (Follows step) again again

variable {step : σ → Option σ} {s : σ}

theorem ComesBack.next (back : ComesBack step s) : ∃ s', Follows step s s' ∧ ComesBack step s' := by
  rcases back with ⟨again, reach, cycle⟩
  rcases Relation.ReflTransGen.cases_head reach with rfl | ⟨s', follows, rest⟩
  · rcases Relation.TransGen.head'_iff.mp cycle with ⟨s', follows, rest⟩
    exact ⟨s', follows, s, rest, cycle⟩
  · exact ⟨s', follows, again, rest, cycle⟩

theorem ComesBack.goes_on (count : Nat) (back : ComesBack step s) :
    afterSteps step count s ≠ none := by
  induction count generalizing s with
  | zero => exact Option.some_ne_none s
  | succ count known =>
      rcases back.next with ⟨s', follows, back'⟩
      rw [afterSteps, follows, Option.bind_some]
      exact known back'

theorem afterSteps_succ (count : Nat) (s : σ) :
    afterSteps step (count + 1) s = (afterSteps step count s).bind step := by
  induction count generalizing s with
  | zero =>
      rw [afterSteps, afterSteps, Option.bind_some]
      cases step s <;> rfl
  | succ count known =>
      rw [afterSteps]
      cases follows : step s with
      | none =>
          rw [afterSteps, follows]
          rfl
      | some s' =>
          rw [Option.bind_some, known, afterSteps, follows, Option.bind_some]

/-- A machine whose states are among finitely many stops exactly if it does not come back. -/
theorem stops_iff {states : Set σ} (few : states.Finite) (within : s ∈ states)
    (stays : ∀ s ∈ states, ∀ s', step s = some s' → s' ∈ states) :
    (∃ count, afterSteps step count s = none) ↔ ¬ComesBack step s := by
  constructor
  · rintro ⟨count, stopped⟩ back
    exact back.goes_on count stopped
  · intro never
    by_contra endless
    rw [not_exists] at endless
    choose run ran using fun count => Option.ne_none_iff_exists'.mp (endless count)
    have start : run 0 = s := (Option.some.inj (ran 0)).symm
    have next : ∀ count, Follows step (run count) (run (count + 1)) := by
      intro count
      have both := ran (count + 1)
      rw [afterSteps_succ, ran count, Option.bind_some] at both
      exact both
    have inside : ∀ count, run count ∈ states := by
      intro count
      induction count with
      | zero => exact start ▸ within
      | succ count known => exact stays _ known _ (next count)
    have reach : ∀ count more, Relation.ReflTransGen (Follows step) (run count)
        (run (count + more)) := by
      intro count more
      induction more with
      | zero => exact .refl
      | succ more known => exact known.tail (next (count + more))
    rcases Set.Finite.exists_lt_map_eq_of_forall_mem inside few with ⟨first, last, before, same⟩
    rcases Nat.exists_eq_add_of_lt before with ⟨more, rfl⟩
    have first' := reach 0 first
    rw [start, Nat.zero_add] at first'
    refine never ⟨run first, first', ?_⟩
    have later := Relation.TransGen.tail' (reach first more) (next (first + more))
    rw [← same] at later
    exact later

end Stopping

end Trinux
