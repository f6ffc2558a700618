import Mathlib.Logic.Function.Basic
import Mathlib.Data.List.Basic

namespace Trinux.ArrayShift

/-!
# Shifting parts of arrays

An array is a map from indices.  Loops move a part of it by one place, element by element and in
the order in which no element is lost.
-/

variable {α : Type}

def shiftUp (low : Nat) : (count : Nat) → (Nat → α) → Nat → α
  | 0, a => a
  | count + 1, a => shiftUp low count (Function.update a (low + count + 1) (a (low + count)))

def shiftDown : (low count : Nat) → (Nat → α) → Nat → α
  | _, 0, a => a
  | low, count + 1, a => shiftDown (low + 1) count (Function.update a low (a (low + 1)))

theorem shiftUp_apply (low count : Nat) (a : Nat → α) (i : Nat) :
    shiftUp low count a i = if low < i ∧ i ≤ low + count then a (i - 1) else a i := by
  induction count generalizing a with
  | zero =>
      rw [shiftUp, if_neg (by omega)]
  | succ count known =>
      rw [shiftUp, known]
      by_cases last : i = low + count + 1
      · rw [last, if_neg (by omega), if_pos (by omega), Function.update_self]
        rfl
      · by_cases inside : low < i ∧ i ≤ low + count
        · rw [if_pos inside, if_pos (by omega), Function.update_of_ne (by omega)]
        · rw [if_neg inside, if_neg (by omega), Function.update_of_ne last]

theorem shiftDown_apply (low count : Nat) (a : Nat → α) (i : Nat) :
    shiftDown low count a i = if low ≤ i ∧ i < low + count then a (i + 1) else a i := by
  induction count generalizing low a with
  | zero =>
      rw [shiftDown, if_neg (by omega)]
  | succ count known =>
      rw [shiftDown, known]
      by_cases first : i = low
      · rw [first, if_neg (by omega), if_pos (by omega), Function.update_self]
      · by_cases inside : low + 1 ≤ i ∧ i < low + 1 + count
        · rw [if_pos inside, if_pos (by omega), Function.update_of_ne (by omega)]
        · rw [if_neg inside, if_neg (by omega), Function.update_of_ne first]

def front (a : Nat → α) (count : Nat) : List α := (List.range count).map a

@[simp] theorem front_length (a : Nat → α) (count : Nat) : (front a count).length = count := by
  rw [front, List.length_map, List.length_range]

@[simp] theorem front_getElem (a : Nat → α) (count i : Nat) (inside : i < (front a count).length) :
    (front a count)[i] = a i := by
  simp only [front, List.getElem_map, List.getElem_range]

theorem front_getElem? (a : Nat → α) (count i : Nat) :
    (front a count)[i]? = if i < count then some (a i) else none := by
  by_cases inside : i < count
  · rw [if_pos inside, List.getElem?_eq_getElem (by rwa [front_length]), front_getElem]
  · rw [if_neg inside, List.getElem?_eq_none (by rw [front_length]; omega)]

theorem front_congr {a b : Nat → α} {count : Nat} (same : ∀ i < count, a i = b i) :
    front a count = front b count :=
  List.map_congr_left fun i inside => same i (List.mem_range.mp inside)

theorem front_add (a : Nat → α) (first second : Nat) :
    front a (first + second) = front a first ++ front (fun i => a (first + i)) second := by
  rw [front, List.range_add, List.map_append, List.map_map]
  rfl

theorem front_take {first count : Nat} (inside : first ≤ count) (a : Nat → α) :
    (front a count).take first = front a first := by
  obtain ⟨rest, rfl⟩ := Nat.exists_eq_add_of_le inside
  rw [front_add, List.take_left' (front_length a first)]

theorem front_drop {first count : Nat} (inside : first ≤ count) (a : Nat → α) :
    (front a count).drop first = front (fun i => a (first + i)) (count - first) := by
  obtain ⟨rest, rfl⟩ := Nat.exists_eq_add_of_le inside
  rw [front_add, List.drop_left' (front_length a first), Nat.add_sub_cancel_left]

theorem front_succ (a : Nat → α) (count : Nat) : front a (count + 1) = front a count ++ [a count] :=
  front_add a count 1

end Trinux.ArrayShift
