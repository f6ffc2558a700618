import Mathlib

namespace Trinux

/-!
# Ring buffers

A sequence lies in an array of a fixed size from a first position on and goes on at the beginning
of the array when it comes to the end.
-/

namespace Ring

variable {α : Type*}

structure Holds (size : Nat) (buf : Nat → α) (head : Nat) (items : List α) : Prop where
  start : head < size
  fits : items.length ≤ size
  stored : ∀ i x, items[i]? = some x → buf ((head + i) % size) = x

variable {size head : Nat} {buf : Nat → α} {items : List α}

theorem Holds.nil (start : head < size) : Holds size buf head [] :=
  ⟨start, Nat.zero_le size, fun _ _ held => absurd held (by simp)⟩

theorem position_injective {i j : Nat} (first : i < size) (second : j < size)
    (same : (head + i) % size = (head + j) % size) : i = j :=
  Nat.ModEq.eq_of_lt_of_lt (Nat.ModEq.add_left_cancel' head same) first second

theorem Holds.push (holds : Holds size buf head items) (room : items.length < size) (x : α) :
    Holds size (Function.update buf ((head + items.length) % size) x) head (items ++ [x]) := by
  refine ⟨holds.start, ?_, ?_⟩
  · rw [List.length_append, List.length_singleton]
    exact room
  · intro i y held
    rcases Nat.lt_trichotomy i items.length with before | last | behind
    · have apart : (head + i) % size ≠ (head + items.length) % size := fun same =>
        Nat.ne_of_lt before (position_injective (before.trans room) room same)
      rw [Function.update_of_ne apart]
      rw [List.getElem?_append_left before] at held
      exact holds.stored i y held
    · subst last
      rw [List.getElem?_append_right (Nat.le_refl _), Nat.sub_self] at held
      rw [Function.update_self]
      exact Option.some_inj.mp held
    · rw [List.getElem?_eq_none (by rw [List.length_append, List.length_singleton]; omega)] at held
      cases held

/-- The first item stands at `head`, and the others follow. -/
theorem Holds.pop {x : α} (holds : Holds size buf head (x :: items)) :
    buf head = x ∧ Holds size buf ((head + 1) % size) items := by
  have positive : 0 < size := Nat.zero_lt_of_lt holds.start
  constructor
  · have first := holds.stored 0 x rfl
    rw [Nat.add_zero, Nat.mod_eq_of_lt holds.start] at first
    exact first
  · refine ⟨Nat.mod_lt _ positive, (Nat.le_succ _).trans holds.fits, ?_⟩
    intro i y held
    have next := holds.stored (i + 1) y held
    rw [Nat.mod_add_mod, Nat.add_assoc, Nat.add_comm 1 i]
    exact next

end Ring

end Trinux
