import Mathlib.Data.Nat.ModEq
import Mathlib.Tactic.Ring

namespace Trinux

/-!
# The checksum of the Internet

Words of 16 bits are added, and what does not fit into 16 bits is added at the low end.  The sum of
a text that holds the complement of the sum of its other words has all bits set, whichever byte of
a word is taken for the low one.
-/

namespace InternetChecksum

/-! ## Sums -/

/-- The sum of the words of a text, the first byte of each the low one; a last byte alone stands
for a word with a zero. -/
def sumLow : List UInt8 → Nat
  | [] => 0
  | [a] => a.toNat
  | a :: b :: rest => a.toNat + 256 * b.toNat + sumLow rest

def sumHigh : List UInt8 → Nat
  | [] => 0
  | [a] => 256 * a.toNat
  | a :: b :: rest => 256 * a.toNat + b.toNat + sumHigh rest

theorem sumLow_append (before after : List UInt8) (even : before.length % 2 = 0) :
    sumLow (before ++ after) = sumLow before + sumLow after := by
  induction before using sumLow.induct with
  | case1 => exact (Nat.zero_add _).symm
  | case2 a => exact absurd even Nat.one_ne_zero
  | case3 a b rest known =>
      have fewer : rest.length % 2 = 0 := by
        rw [List.length_cons, List.length_cons] at even
        omega
      rw [List.cons_append, List.cons_append, sumLow, sumLow, known fewer]
      omega

theorem sumLow_le (bytes : List UInt8) : sumLow bytes ≤ 65535 * bytes.length := by
  induction bytes using sumLow.induct with
  | case1 => exact Nat.zero_le _
  | case2 a =>
      have small : a.toNat < 256 := a.toNat_lt
      rw [sumLow, List.length_singleton]
      omega
  | case3 a b rest known =>
      have small : a.toNat < 256 := a.toNat_lt
      have small' : b.toNat < 256 := b.toNat_lt
      rw [sumLow, List.length_cons, List.length_cons]
      omega

theorem sumHigh_modEq (bytes : List UInt8) :
    sumHigh bytes ≡ 256 * sumLow bytes [MOD 65535] := by
  induction bytes using sumLow.induct with
  | case1 => rfl
  | case2 a => rfl
  | case3 a b rest known =>
      rw [sumHigh, sumLow, Nat.mul_add, Nat.mul_add]
      apply Nat.ModEq.add _ known
      apply Nat.ModEq.add_left
      unfold Nat.ModEq
      omega

theorem sumHigh_pos {bytes : List UInt8} (pos : 0 < sumLow bytes) : 0 < sumHigh bytes := by
  induction bytes using sumLow.induct with
  | case1 => exact pos
  | case2 a =>
      rw [sumLow] at pos
      rw [sumHigh]
      omega
  | case3 a b rest known =>
      rw [sumLow] at pos
      rw [sumHigh]
      by_cases more : 0 < sumLow rest
      · exact Nat.lt_of_lt_of_le (known more) (Nat.le_add_left _ _)
      · omega

/-! ## Carries -/

def fold (n : Nat) : Nat := if n < 65536 then n else fold (n % 65536 + n / 65536)
termination_by n
decreasing_by omega

/-- Folding takes the remainder, with `0xFFFF` for the zero of a sum that is not zero. -/
theorem fold_eq (n : Nat) : fold n = if n = 0 then 0 else (n - 1) % 65535 + 1 := by
  induction n using fold.induct with
  | case1 n small =>
      rw [fold, if_pos small]
      split_ifs with zero
      · exact zero
      · omega
  | case2 n large known =>
      rw [fold, if_neg large, known]
      rw [if_neg (by omega), if_neg (by omega)]
      omega

/-- A sum has all bits set if it is a multiple of `0xFFFF` and not zero. -/
theorem fold_full {n : Nat} : fold n = 65535 ↔ 0 < n ∧ n % 65535 = 0 := by
  rw [fold_eq]
  split_ifs with zero
  · exact iff_of_false (by decide) fun both => absurd both.1 (by omega)
  · omega

/-- The words of a text, checksum and all, add up to a word with all bits set. -/
def Verifies (bytes : List UInt8) : Prop := fold (sumHigh bytes) = 65535

theorem verifies_of_sumLow {bytes : List UInt8} (full : fold (sumLow bytes) = 65535) :
    Verifies bytes := by
  rcases fold_full.mp full with ⟨pos, divides⟩
  refine fold_full.mpr ⟨sumHigh_pos pos, ?_⟩
  have same : sumHigh bytes % 65535 = 256 * sumLow bytes % 65535 := sumHigh_modEq bytes
  rw [same, Nat.mul_mod, divides]

/-! ## The complement -/

def wordBytes (word : Nat) : List UInt8 := [UInt8.ofNat word, UInt8.ofNat (word / 256)]

theorem sumLow_wordBytes {word : Nat} (small : word < 65536) : sumLow (wordBytes word) = word := by
  rw [wordBytes, sumLow, sumLow, UInt8.toNat_ofNat', UInt8.toNat_ofNat']
  omega

/-- The complement of the sum of the other words makes a text verify. -/
theorem verifies_complement {before after : List UInt8} (even : before.length % 2 = 0) :
    Verifies (before ++
      (wordBytes (65535 - fold (sumLow (before ++ ([0, 0] ++ after)))) ++ after)) := by
  apply verifies_of_sumLow
  have sum : sumLow (before ++ ([0, 0] ++ after)) = sumLow before + sumLow after := by
    rw [sumLow_append _ _ even, sumLow_append _ _ rfl]
    exact congrArg (sumLow before + ·) (Nat.zero_add _)
  have two (word : Nat) : (wordBytes word).length % 2 = 0 := by simp [wordBytes]
  rw [sum, sumLow_append _ _ even, sumLow_append _ _ (two _), sumLow_wordBytes (by omega),
    fold_full]
  have folded := fold_eq (sumLow before + sumLow after)
  split_ifs at folded with zero <;> omega

end InternetChecksum

end Trinux
