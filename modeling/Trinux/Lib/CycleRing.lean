import Mathlib.Data.Nat.ModEq
import Mathlib.Data.List.Basic
import Mathlib.Logic.Function.Basic
import Mathlib.Tactic.Common

namespace Trinux

/-!
# Rings with a cycle bit

A producer writes its items into the slots of a ring, round after round, each with a bit that it
inverts from one round to the next.  A consumer that inverts the bit it expects in the same way
tells by it alone whether a slot holds the item it is waiting for.
-/

namespace CycleRing

variable {α : Type*}

def lapBit (lap : Nat) : Bool := lap % 2 == 0

@[simp] theorem lapBit_zero : lapBit 0 = true := rfl

theorem lapBit_succ (lap : Nat) : lapBit (lap + 1) = !lapBit lap := by
  unfold lapBit
  rcases Nat.mod_two_eq_zero_or_one lap with even | odd
  · have next : (lap + 1) % 2 = 1 := by omega
    rw [even, next]
    rfl
  · have next : (lap + 1) % 2 = 0 := by omega
    rw [odd, next]
    rfl

theorem lapBit_succ_ne (lap : Nat) : lapBit lap ≠ lapBit (lap + 1) := by
  rw [lapBit_succ]
  exact Bool.self_ne_not _

/-- The slots hold the last round of the items sent; those that no item has reached have a clear
bit. -/
structure Laps (N : Nat) (slot : Nat → Bool × α) (sent : List α) : Prop where
  kept : ∀ k x, sent[k]? = some x → sent.length ≤ k + N → slot (k % N) = (lapBit (k / N), x)
  fresh : ∀ i < N, sent.length ≤ i → (slot i).1 = false

variable {N : Nat} {slot : Nat → Bool × α} {sent : List α}

theorem Laps.nil (clear : ∀ i < N, (slot i).1 = false) : Laps N slot [] where
  kept := fun _ _ held => absurd held (by simp)
  fresh := fun i inside _ => clear i inside

theorem Laps.congr {slot' : Nat → Bool × α} (laps : Laps N slot sent) (positive : 0 < N)
    (same : ∀ i < N, slot' i = slot i) : Laps N slot' sent where
  kept := by
    intro k x held recent
    rw [same _ (Nat.mod_lt k positive)]
    exact laps.kept k x held recent
  fresh := by
    intro i inside unreached
    rw [same i inside]
    exact laps.fresh i inside unreached

theorem slots_apart {k n : Nat} (before : k < n) (recent : n < k + N) : k % N ≠ n % N := by
  intro same
  have divides : N ∣ n - k := (Nat.modEq_iff_dvd' before.le).mp same
  exact absurd (Nat.le_of_dvd (Nat.sub_pos_of_lt before) divides) (by omega)

/-- The next item goes into its slot with the bit of its round. -/
theorem Laps.push (laps : Laps N slot sent) (x : α) :
    Laps N (Function.update slot (sent.length % N) (lapBit (sent.length / N), x))
      (sent ++ [x]) where
  kept := by
    intro k y held recent
    rw [List.length_append, List.length_singleton] at recent
    rcases Nat.lt_trichotomy k sent.length with before | last | behind
    · rw [Function.update_of_ne (slots_apart before (by omega))]
      rw [List.getElem?_append_left before] at held
      exact laps.kept k y held (by omega)
    · subst last
      rw [List.getElem?_concat_length] at held
      rw [Function.update_self, Option.some_inj.mp held]
    · rw [List.getElem?_eq_none (by rw [List.length_append, List.length_singleton]; omega)] at held
      cases held
  fresh := by
    intro i inside unreached
    rw [List.length_append, List.length_singleton] at unreached
    have slots : sent.length % N = sent.length := Nat.mod_eq_of_lt (by omega)
    rw [Function.update_of_ne (by omega)]
    exact laps.fresh i inside (by omega)

/-- An item that no later one has overwritten is found in its slot. -/
theorem Laps.owned (laps : Laps N slot sent) {m : Nat} (waiting : m < sent.length)
    (recent : sent.length ≤ m + N) : slot (m % N) = (lapBit (m / N), sent[m]) :=
  laps.kept m sent[m] (List.getElem?_eq_getElem waiting) recent

/-- The slot of the next item does not have the bit of its round yet. -/
theorem Laps.empty (laps : Laps N slot sent) (positive : 0 < N) :
    (slot (sent.length % N)).1 ≠ lapBit (sent.length / N) := by
  by_cases first : sent.length < N
  · rw [Nat.mod_eq_of_lt first, Nat.div_eq_of_lt first,
      laps.fresh sent.length first (Nat.le_refl _)]
    exact Bool.false_ne_true
  · have reached : N ≤ sent.length := Nat.le_of_not_lt first
    have held := laps.owned (Nat.sub_lt_of_pos_le positive reached)
      (Nat.le_of_eq (Nat.sub_add_cancel reached).symm)
    rw [Nat.mod_eq_sub_mod reached, held]
    have rounds : sent.length / N = (sent.length - N) / N + 1 :=
      Nat.div_eq_sub_div positive reached
    rw [rounds]
    exact lapBit_succ_ne _

/-! ## one step further on the ring -/

theorem next_inside {n : Nat} (inside : n % N + 1 < N) :
    (n + 1) % N = n % N + 1 ∧ (n + 1) / N = n / N := by
  have positive : 0 < N := Nat.zero_lt_of_lt inside
  have split := Nat.div_add_mod n N
  have parts : n + 1 = n % N + 1 + N * (n / N) := by omega
  constructor
  · rw [parts, Nat.add_mul_mod_self_left, Nat.mod_eq_of_lt inside]
  · rw [parts, Nat.add_mul_div_left _ _ positive, Nat.div_eq_of_lt inside, Nat.zero_add]

theorem next_around {n : Nat} (last : n % N + 1 = N) :
    (n + 1) % N = 0 ∧ (n + 1) / N = n / N + 1 := by
  have positive : 0 < N := by omega
  have split := Nat.div_add_mod n N
  have parts : n + 1 = N * (n / N + 1) := by
    rw [Nat.mul_add, Nat.mul_one]
    omega
  constructor
  · rw [parts, Nat.mul_mod_right]
  · rw [parts, Nat.mul_div_cancel_left _ positive]

theorem next_slot (N n : Nat) (positive : 0 < N) :
    (n + 1) % N = if n % N + 1 = N then 0 else n % N + 1 := by
  by_cases last : n % N + 1 = N
  · rw [if_pos last, (next_around last).1]
  · rw [if_neg last, (next_inside (Nat.lt_of_le_of_ne (Nat.mod_lt n positive) last)).1]

theorem next_bit (N n : Nat) (positive : 0 < N) :
    lapBit ((n + 1) / N) = if n % N + 1 = N then !lapBit (n / N) else lapBit (n / N) := by
  by_cases last : n % N + 1 = N
  · rw [if_pos last, (next_around last).2, lapBit_succ]
  · rw [if_neg last, (next_inside (Nat.lt_of_le_of_ne (Nat.mod_lt n positive) last)).2]

end CycleRing

end Trinux
