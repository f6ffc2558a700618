import Mathlib.Algebra.Group.Nat.Defs
import Mathlib.Logic.Function.Basic
import Mathlib.Tactic.Common

namespace Trinux.Words

/-!
# Bytes and words

A memory of bytes, at addresses that are numbers, in which words of four bytes are read and written,
the lowest byte first.
-/

abbrev Bytes := Nat → UInt8

def word (m : Bytes) (a : Nat) : Nat :=
  (m a).toNat + 256 * (m (a + 1)).toNat + 65536 * (m (a + 2)).toNat + 16777216 * (m (a + 3)).toNat

def setWord (m : Bytes) (a v : Nat) : Bytes := fun x =>
  if a ≤ x ∧ x < a + 4 then UInt8.ofNat (v / 256 ^ (x - a)) else m x

def fill (m : Bytes) (a n : Nat) (bytes : Nat → UInt8) : Bytes := fun x =>
  if a ≤ x ∧ x < a + n then bytes x else m x

def memcpy (m : Bytes) (dest src : Nat) : Nat → Bytes
  | 0 => m
  | n + 1 =>
      Function.update (memcpy m dest src n) (dest + n) (memcpy m dest src n (src + n))

theorem word_lt (m : Bytes) (a : Nat) : word m a < 2 ^ 32 := by
  have first := (m a).toNat_lt
  have second := (m (a + 1)).toNat_lt
  have third := (m (a + 2)).toNat_lt
  have fourth := (m (a + 3)).toNat_lt
  rw [word]
  omega

theorem word_congr {m m' : Bytes} {a : Nat} (same : ∀ x, a ≤ x → x < a + 4 → m' x = m x) :
    word m' a = word m a := by
  rw [word, word, same a (by omega) (by omega), same (a + 1) (by omega) (by omega),
    same (a + 2) (by omega) (by omega), same (a + 3) (by omega) (by omega)]

theorem setWord_outside (m : Bytes) (a v : Nat) {x : Nat} (outside : x < a ∨ a + 4 ≤ x) :
    setWord m a v x = m x := by
  rw [setWord, if_neg (by omega)]

theorem word_setWord (m : Bytes) (a : Nat) {v : Nat} (small : v < 2 ^ 32) :
    word (setWord m a v) a = v := by
  have byte : ∀ k < 4, setWord m a v (a + k) = UInt8.ofNat (v / 256 ^ k) := by
    intro k inside
    rw [setWord, if_pos (by omega), Nat.add_sub_cancel_left]
  have first := byte 0 (by omega)
  rw [Nat.add_zero, Nat.pow_zero, Nat.div_one] at first
  rw [word, first, byte 1 (by omega), byte 2 (by omega), byte 3 (by omega), UInt8.toNat_ofNat',
    UInt8.toNat_ofNat', UInt8.toNat_ofNat', UInt8.toNat_ofNat']
  omega

theorem word_setWord_other (m : Bytes) {a b : Nat} (v : Nat) (apart : b + 4 ≤ a ∨ a + 4 ≤ b) :
    word (setWord m a v) b = word m b :=
  word_congr fun x _ _ => setWord_outside m a v (by omega)

theorem fill_outside (m : Bytes) (a n : Nat) (bytes : Nat → UInt8) {x : Nat}
    (outside : x < a ∨ a + n ≤ x) : fill m a n bytes x = m x := by
  rw [fill, if_neg (by omega)]

theorem memcpy_outside (m : Bytes) (dest src n : Nat) {x : Nat}
    (outside : x < dest ∨ dest + n ≤ x) : memcpy m dest src n x = m x := by
  induction n with
  | zero => rfl
  | succ n known =>
      rw [memcpy, Function.update_of_ne (by omega)]
      exact known (by omega)

theorem memcpy_copied (m : Bytes) (dest src : Nat) {n k : Nat} (inside : k < n)
    (apart : src + k < dest ∨ dest ≤ src) : memcpy m dest src n (dest + k) = m (src + k) := by
  induction n with
  | zero => exact absurd inside (Nat.not_lt_zero _)
  | succ n known =>
      rw [memcpy]
      rcases Nat.lt_succ_iff_lt_or_eq.mp inside with earlier | rfl
      · rw [Function.update_of_ne (by omega)]
        exact known earlier
      · rw [Function.update_self]
        exact memcpy_outside m dest src k (by omega)

end Trinux.Words
