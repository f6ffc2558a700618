import Mathlib.Data.List.Basic
import Mathlib.Tactic.Common

namespace Trinux

/-!
# Fields written into a memory

Fields of some bytes are written over a memory one after the other.  Where they do not share a
position, each of them can be read afterwards, and what lies in none of them is as before.
-/

namespace Patches

variable {β : Type}

def overlay (mem : Nat → β) (field : Nat × List β) : Nat → β := fun i =>
  if field.1 ≤ i then (field.2[i - field.1]?).getD (mem i) else mem i

def overlays (mem : Nat → β) (fields : List (Nat × List β)) : Nat → β := fields.foldl overlay mem

def Apart (f g : Nat × List β) : Prop := f.1 + f.2.length ≤ g.1 ∨ g.1 + g.2.length ≤ f.1

theorem overlay_outside (mem : Nat → β) {field : Nat × List β} {i : Nat}
    (outside : i < field.1 ∨ field.1 + field.2.length ≤ i) : overlay mem field i = mem i := by
  unfold overlay
  by_cases before : field.1 ≤ i
  · rw [if_pos before, List.getElem?_eq_none (by omega)]
    rfl
  · rw [if_neg before]

theorem overlay_inside (mem : Nat → β) (field : Nat × List β) {k : Nat}
    (inside : k < field.2.length) : overlay mem field (field.1 + k) = field.2[k] := by
  unfold overlay
  rw [if_pos (Nat.le_add_right _ _), Nat.add_sub_cancel_left, List.getElem?_eq_getElem inside]
  rfl

theorem overlays_outside (fields : List (Nat × List β)) {i : Nat} : ∀ mem : Nat → β,
    (∀ field ∈ fields, i < field.1 ∨ field.1 + field.2.length ≤ i) →
      overlays mem fields i = mem i := by
  induction fields with
  | nil => intro mem _; rfl
  | cons field rest rest_ih =>
      intro mem outside
      have others := rest_ih (overlay mem field) fun other listed =>
        outside other (List.mem_cons_of_mem _ listed)
      exact others.trans (overlay_outside mem (outside field List.mem_cons_self))

/-- What is read at a position depends on the memory at that position only. -/
theorem overlays_congr (fields : List (Nat × List β)) {i : Nat} : ∀ {mem other : Nat → β},
    mem i = other i → overlays mem fields i = overlays other fields i := by
  induction fields with
  | nil => intro mem other same; exact same
  | cons field rest rest_ih =>
      intro mem other same
      apply rest_ih
      unfold overlay
      rw [same]

/-- A field that shares no position with the others can be read afterwards. -/
theorem overlays_inside {fields : List (Nat × List β)} (apart : fields.Pairwise Apart) :
    ∀ (mem : Nat → β), ∀ field ∈ fields, ∀ (k : Nat) (inside : k < field.2.length),
      overlays mem fields (field.1 + k) = field.2[k] := by
  induction fields with
  | nil => intro mem field listed; cases listed
  | cons first rest rest_ih =>
      have apart := List.pairwise_cons.mp apart
      intro mem field listed k inside
      rcases List.mem_cons.mp listed with rfl | behind
      · have others : overlays (overlay mem field) rest (field.1 + k) =
            overlay mem field (field.1 + k) := by
          apply overlays_outside
          intro other listed'
          have separate := apart.1 other listed'
          unfold Apart at separate
          omega
        exact others.trans (overlay_inside mem field inside)
      · exact rest_ih apart.2 (overlay mem first) field behind k inside

end Patches

end Trinux
