import Trinux.Lib.Machine

namespace Trinux

/-!
# A cursor over a list that loses elements

A cursor keeps the number of the element that comes next.  Between two steps of the cursor elements
that it has returned may be removed from the list, and those behind them move up.
-/

/-- The list, the number of the next element, the elements returned, and whether the end was
reported. -/
structure Cursor (α : Type*) where
  entries : List α
  index : Nat
  returned : List α
  ended : Bool

namespace Cursor

inductive Event (α : Type*) where
  | next
  | remove (entry : α)

variable {α : Type*}

def start (entries : List α) : Cursor α := ⟨entries, 0, [], false⟩

def ahead (c : Cursor α) : List α := c.entries.drop c.index

def step [DecidableEq α] (c : Cursor α) : Event α → Cursor α
  | .next =>
      match c.entries[c.index]? with
      | none => { c with ended := true }
      | some entry => { c with index := c.index + 1, returned := c.returned ++ [entry] }
  | .remove entry =>
      if entry ∈ c.returned then { c with entries := c.entries.erase entry } else c

def Waits (c : Cursor α) : Event α → Prop
  | .next => True
  | .remove entry => entry ∈ c.returned → entry ∈ c.entries → c.ahead = []

structure Complete (all : List α) (c : Cursor α) : Prop where
  parts : c.returned ++ c.ahead = all
  distinct : c.entries.Nodup

def EndSeen (c : Cursor α) : Prop := c.ended = true → c.ahead = []

def Missed (entry : α) (c : Cursor α) : Prop := entry ∉ c.returned ∧ entry ∉ c.ahead

section Steps

variable {all : List α} {c : Cursor α}

theorem ahead_of_some {entry : α} (found : c.entries[c.index]? = some entry) :
    c.ahead = entry :: c.entries.drop (c.index + 1) := by
  rcases List.getElem?_eq_some_iff.mp found with ⟨inside, same⟩
  unfold ahead
  rw [List.drop_eq_getElem_cons inside, same]

theorem ahead_of_none (missing : c.entries[c.index]? = none) : c.ahead = [] :=
  List.drop_eq_nil_of_le (List.getElem?_eq_none_iff.mp missing)

theorem start_complete {entries : List α} (distinct : entries.Nodup) :
    (start entries).Complete entries := ⟨rfl, distinct⟩

variable [DecidableEq α]

/-- Removing an element of a list leaves no new element behind a position. -/
theorem drop_erase_subset (entries : List α) (entry : α) (index : Nat) :
    (entries.erase entry).drop index ⊆ entries.drop index := by
  induction entries generalizing index with
  | nil => exact List.Subset.refl _
  | cons first rest known =>
      cases index with
      | zero =>
          rw [List.drop_zero, List.drop_zero]
          exact List.erase_subset
      | succ index =>
          rw [List.erase_cons]
          split_ifs
          · rw [List.drop_succ_cons]
            exact List.drop_subset_drop_left rest (Nat.le_succ index)
          · rw [List.drop_succ_cons, List.drop_succ_cons]
            exact known index

theorem step_remove_ahead (c : Cursor α) (entry : α) :
    (c.step (.remove entry)).ahead ⊆ c.ahead := by
  unfold step
  dsimp only
  split_ifs
  · exact drop_erase_subset c.entries entry c.index
  · exact List.Subset.refl _

theorem step_remove_returned (c : Cursor α) (entry : α) :
    (c.step (.remove entry)).returned = c.returned := by
  unfold step
  dsimp only
  split_ifs <;> rfl

theorem step_remove_ended (c : Cursor α) (entry : α) :
    (c.step (.remove entry)).ended = c.ended := by
  unfold step
  dsimp only
  split_ifs <;> rfl

theorem EndSeen.step (seen : c.EndSeen) (event : Event α) : (c.step event).EndSeen := by
  cases event with
  | next =>
      unfold Cursor.step
      dsimp only
      split
      · rename_i missing
        exact fun _ => ahead_of_none missing
      · rename_i entry found
        intro ended
        have nothing := seen ended
        rw [ahead_of_some found] at nothing
        cases nothing
  | remove entry =>
      intro ended
      rw [step_remove_ended] at ended
      have nothing := step_remove_ahead c entry
      rw [seen ended] at nothing
      exact List.subset_nil.mp nothing

theorem Missed.step {entry : α} (missed : c.Missed entry) (event : Event α) :
    (c.step event).Missed entry := by
  cases event with
  | next =>
      unfold Cursor.step
      dsimp only
      split
      · exact missed
      · rename_i next found
        have behind := missed.2
        rw [ahead_of_some found, List.mem_cons, not_or] at behind
        refine ⟨?_, behind.2⟩
        dsimp only
        rw [List.mem_append, List.mem_singleton, not_or]
        exact ⟨missed.1, behind.1⟩
  | remove other =>
      refine ⟨?_, fun held => missed.2 (step_remove_ahead c other held)⟩
      rw [step_remove_returned]
      exact missed.1

theorem Complete.step (complete : c.Complete all) {event : Event α} (waits : c.Waits event) :
    (c.step event).Complete all := by
  cases event with
  | next =>
      unfold Cursor.step
      dsimp only
      split
      · exact ⟨complete.parts, complete.distinct⟩
      · rename_i entry found
        have parts := complete.parts
        rw [ahead_of_some found] at parts
        refine ⟨?_, complete.distinct⟩
        show (c.returned ++ [entry]) ++ c.entries.drop (c.index + 1) = all
        rw [List.append_assoc, List.singleton_append, parts]
  | remove entry =>
      unfold Cursor.step
      dsimp only
      split_ifs with returned
      · by_cases listed : entry ∈ c.entries
        · have nothing := waits returned listed
          have less := drop_erase_subset c.entries entry c.index
          unfold ahead at nothing
          rw [nothing] at less
          refine ⟨?_, complete.distinct.erase entry⟩
          have parts := complete.parts
          unfold ahead at parts ⊢
          rw [nothing] at parts
          dsimp only
          rw [List.subset_nil.mp less]
          exact parts
        · rw [List.erase_of_not_mem listed]
          exact complete
      · exact complete

/-- Removing a returned element too early makes the cursor skip the next one. -/
theorem Complete.misses (complete : c.Complete all) (distinct : all.Nodup) {event : Event α}
    (early : ¬c.Waits event) : ∃ entry ∈ all, (c.step event).Missed entry := by
  cases event with
  | next => exact absurd trivial early
  | remove entry =>
      unfold Waits at early
      push Not at early
      rcases early with ⟨returned, listed, more⟩
      rcases List.exists_cons_of_ne_nil more with ⟨next, rest, isAhead⟩
      have parts := complete.parts
      rw [← parts] at distinct
      have apart := List.disjoint_of_nodup_append distinct
      have behind : entry ∉ c.ahead := fun held => apart returned held
      have before : entry ∈ c.entries.take c.index := by
        have either := listed
        rw [← List.take_append_drop c.index c.entries, List.mem_append] at either
        exact either.resolve_right behind
      have inside : c.index ≤ c.entries.length := by
        by_contra beyond
        exact more (List.drop_eq_nil_of_le (by omega))
      have erased : (c.entries.erase entry).drop c.index = rest := by
        have split' : c.entries.erase entry = (c.entries.take c.index).erase entry ++ c.ahead := by
          have whole := List.take_append_drop c.index c.entries
          calc c.entries.erase entry
              = (c.entries.take c.index ++ c.entries.drop c.index).erase entry := by rw [whole]
            _ = (c.entries.take c.index).erase entry ++ c.ahead :=
                List.erase_append_left _ before
        have length : ((c.entries.take c.index).erase entry).length = c.index - 1 := by
          rw [List.length_erase_of_mem before, List.length_take, Nat.min_eq_left inside]
        have positive : 0 < c.index := by
          have some' := List.length_pos_of_mem before
          rw [List.length_take] at some'
          omega
        rw [split', List.drop_append, length, List.drop_eq_nil_of_le (by omega), isAhead,
          List.nil_append]
        have one : c.index - (c.index - 1) = 1 := by omega
        rw [one]
        rfl
      refine ⟨next, ?_, ?_, ?_⟩
      · rw [← parts, isAhead]
        exact List.mem_append_right _ List.mem_cons_self
      · rw [step_remove_returned]
        intro twice
        exact apart twice (by rw [isAhead]; exact List.mem_cons_self)
      · unfold Cursor.step
        dsimp only
        rw [if_pos returned]
        unfold ahead
        dsimp only
        rw [erased]
        have once := (List.nodup_append.mp distinct).2.1
        rw [isAhead] at once
        exact (List.nodup_cons.mp once).1

end Steps

variable [DecidableEq α] {all : List α}

/-- A cursor over distinct elements has returned each of them once when it reports the end, exactly
if elements were removed only when it had none before it. -/
theorem returned_once_iff (distinct : all.Nodup) (events : List (Event α))
    (ended : (Machine.after step (start all) events).ended = true) :
    (∀ entry ∈ all, (Machine.after step (start all) events).returned.count entry = 1) ↔
      Machine.Always step Waits (start all) events := by
  have seen : (Machine.after step (start all) events).EndSeen :=
    Machine.after_invariant (fun _ event known => known.step event)
      (fun impossible => absurd impossible Bool.false_ne_true) events
  have nothing := seen ended
  constructor
  · intro once
    by_contra early
    have missed : ∃ entry ∈ all, (Machine.after step (start all) events).Missed entry := by
      have complete := start_complete distinct
      clear once seen nothing ended
      generalize start all = c at early complete ⊢
      induction events generalizing c with
      | nil => exact absurd trivial early
      | cons event rest known =>
          by_cases waits : c.Waits event
          · exact known _ (fun later => early ⟨waits, later⟩) (complete.step waits)
          · rcases complete.misses distinct waits with ⟨entry, listed, missed⟩
            refine ⟨entry, listed, ?_⟩
            exact @Machine.after_invariant _ _ step (Missed entry)
              (fun _ event held => held.step event) _ missed rest
    rcases missed with ⟨entry, listed, missed, _⟩
    have one := once entry listed
    rw [List.count_eq_zero_of_not_mem missed] at one
    cases one
  · intro waits entry listed
    have complete := @Machine.Always.after _ _ step (Complete all) Waits
      (fun _ _ known holds => known.step holds) _ (start_complete distinct) _ waits
    have parts := complete.parts
    rw [nothing, List.append_nil] at parts
    rw [parts]
    exact List.count_eq_one_of_mem distinct listed

end Cursor

end Trinux
