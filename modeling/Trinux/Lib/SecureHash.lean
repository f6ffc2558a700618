import Mathlib

namespace Trinux

/-!
# The secure hash standard

SHA-256 as the standard states it, for texts of bits.  The constants are fractional parts of roots
of prime numbers, the text is padded to full blocks with its length at the end, and each block
gives sixteen words from which the others of the message schedule follow.
-/

namespace SecureHash

abbrev Word := BitVec 32

/-! ## Bits -/

def number (bits : List Bool) : Nat := bits.foldl (fun n bit => 2 * n + bit.toNat) 0

def bitsOf (count n : Nat) : List Bool :=
  (List.range count).map fun i => n.testBit (count - 1 - i)

def bitsOfBytes (bytes : List UInt8) : List Bool := bytes.flatMap fun b => bitsOf 8 b.toNat

/-! ## Constants -/

noncomputable def fraction (x : ℝ) : Word := BitVec.ofNat 32 ⌊x * 2 ^ 32⌋₊

noncomputable def constant (t : Nat) : Word :=
  fraction ((Nat.nth Nat.Prime t : ℝ) ^ ((1 : ℝ) / 3))

/-- The words of the initial hash value: square roots of the first prime numbers. -/
noncomputable def initialWord (i : Nat) : Word := fraction (√(Nat.nth Nat.Prime i : ℝ))

/-! ## Functions -/

def ch (x y z : Word) : Word := (x &&& y) ^^^ (~~~x &&& z)

def maj (x y z : Word) : Word := (x &&& y) ^^^ (x &&& z) ^^^ (y &&& z)

def bigSigma0 (x : Word) : Word := x.rotateRight 2 ^^^ x.rotateRight 13 ^^^ x.rotateRight 22

def bigSigma1 (x : Word) : Word := x.rotateRight 6 ^^^ x.rotateRight 11 ^^^ x.rotateRight 25

def sigma0 (x : Word) : Word := x.rotateRight 7 ^^^ x.rotateRight 18 ^^^ x >>> 3

def sigma1 (x : Word) : Word := x.rotateRight 17 ^^^ x.rotateRight 19 ^^^ x >>> 10

/-! ## Padding -/

def zeros (length : Nat) : Nat := (448 + 512 - (length + 1) % 512) % 512

def pad (text : List Bool) : List Bool :=
  text ++ [true] ++ List.replicate (zeros text.length) false ++ bitsOf 64 text.length

def wordAt (bits : List Bool) (block t : Nat) : Word :=
  BitVec.ofNat 32 (number ((bits.drop (512 * block + 32 * t)).take 32))

/-! ## The hash -/

structure Words where
  a : Word
  b : Word
  c : Word
  d : Word
  e : Word
  f : Word
  g : Word
  h : Word

def Words.add (first second : Words) : Words :=
  ⟨first.a + second.a, first.b + second.b, first.c + second.c, first.d + second.d,
    first.e + second.e, first.f + second.f, first.g + second.g, first.h + second.h⟩

noncomputable def initial : Words :=
  ⟨initialWord 0, initialWord 1, initialWord 2, initialWord 3, initialWord 4, initialWord 5,
    initialWord 6, initialWord 7⟩

def schedule (block : Nat → Word) (t : Nat) : Word :=
  if t < 16 then block t
  else sigma1 (schedule block (t - 2)) + schedule block (t - 7) +
    sigma0 (schedule block (t - 15)) + schedule block (t - 16)
termination_by t

def round (constant word : Word) (v : Words) : Words :=
  let t1 := v.h + bigSigma1 v.e + ch v.e v.f v.g + constant + word
  let t2 := bigSigma0 v.a + maj v.a v.b v.c
  ⟨t1 + t2, v.a, v.b, v.c, v.d + t1, v.e, v.f, v.g⟩

noncomputable def rounds (block : Nat → Word) : Nat → Words → Words
  | 0, v => v
  | t + 1, v => round (constant t) (schedule block t) (rounds block t v)

noncomputable def compress (value : Words) (block : Nat → Word) : Words :=
  value.add (rounds block 64 value)

noncomputable def hashValue (bits : List Bool) : Nat → Words
  | 0 => initial
  | i + 1 => compress (hashValue bits i) (wordAt bits i)

def Words.bits (v : Words) : List Bool :=
  bitsOf 32 v.a.toNat ++ bitsOf 32 v.b.toNat ++ bitsOf 32 v.c.toNat ++ bitsOf 32 v.d.toNat ++
    bitsOf 32 v.e.toNat ++ bitsOf 32 v.f.toNat ++ bitsOf 32 v.g.toNat ++ bitsOf 32 v.h.toNat

noncomputable def digest (text : List Bool) : List Bool :=
  (hashValue (pad text) ((pad text).length / 512)).bits

def hexDigit (n : Nat) : UInt8 := UInt8.ofNat (if n < 10 then 48 + n else 87 + n)

def hexDigits (bits : List Bool) : List UInt8 :=
  (List.range (bits.length / 4)).map fun i => hexDigit (number ((bits.drop (4 * i)).take 4))

/-! ## Lemmas about bits -/

@[simp] theorem bitsOf_length (count n : Nat) : (bitsOf count n).length = count := by
  simp [bitsOf]

theorem foldl_number (bits : List Bool) (n : Nat) :
    bits.foldl (fun n bit => 2 * n + bit.toNat) n = n * 2 ^ bits.length + number bits := by
  induction bits generalizing n with
  | nil => simp [number]
  | cons bit rest known =>
      rw [number, List.foldl_cons, List.foldl_cons, known, known (2 * 0 + bit.toNat),
        List.length_cons, pow_succ]
      ring

theorem number_append (first second : List Bool) :
    number (first ++ second) = number first * 2 ^ second.length + number second := by
  rw [number, List.foldl_append, foldl_number]
  rfl

theorem bitsOf_succ (count n : Nat) : bitsOf (count + 1) n = n.testBit count :: bitsOf count n := by
  unfold bitsOf
  rw [List.range_succ_eq_map, List.map_cons, List.map_map]
  congr 1
  apply List.map_congr_left
  intro i _
  have place : count + 1 - 1 - (i + 1) = count - 1 - i := by omega
  show n.testBit (count + 1 - 1 - (i + 1)) = n.testBit (count - 1 - i)
  rw [place]

theorem number_bitsOf (count n : Nat) : number (bitsOf count n) = n % 2 ^ count := by
  induction count with
  | zero => simp [bitsOf, number, Nat.mod_one]
  | succ count known =>
      rw [bitsOf_succ, ← List.singleton_append, number_append, known, bitsOf_length,
        Nat.mod_pow_succ, Nat.testBit_eq_decide_div_mod_eq]
      have bit : number [decide (n / 2 ^ count % 2 = 1)] = n / 2 ^ count % 2 := by
        rcases Nat.mod_two_eq_zero_or_one (n / 2 ^ count) with zero | one
        · rw [zero]
          rfl
        · rw [one]
          rfl
      rw [bit]
      ring

theorem bitsOf_add (first second n : Nat) :
    bitsOf (first + second) n = bitsOf first (n / 2 ^ second) ++ bitsOf second n := by
  induction first with
  | zero => rw [Nat.zero_add]; rfl
  | succ first known =>
      rw [Nat.succ_add, bitsOf_succ, bitsOf_succ, known, List.cons_append,
        ← Nat.testBit_div_two_pow]

theorem bitsOf_mod (count n : Nat) : bitsOf count (n % 2 ^ count) = bitsOf count n := by
  apply List.map_congr_left
  intro i inside
  rw [List.mem_range] at inside
  rw [Nat.testBit_mod_two_pow, decide_eq_true (show count - 1 - i < count by omega),
    Bool.true_and]

theorem bitsOfBytes_append (first second : List UInt8) :
    bitsOfBytes (first ++ second) = bitsOfBytes first ++ bitsOfBytes second :=
  List.flatMap_append

@[simp] theorem bitsOfBytes_length (bytes : List UInt8) :
    (bitsOfBytes bytes).length = 8 * bytes.length := by
  induction bytes with
  | nil => rfl
  | cons b rest known =>
      rw [bitsOfBytes, List.flatMap_cons, List.length_append, bitsOf_length, List.length_cons]
      rw [bitsOfBytes] at known
      omega

theorem bitsOfBytes_drop (bytes : List UInt8) (n : Nat) :
    (bitsOfBytes bytes).drop (8 * n) = bitsOfBytes (bytes.drop n) := by
  by_cases inside : n ≤ bytes.length
  · conv_lhs => rw [← List.take_append_drop n bytes, bitsOfBytes_append]
    rw [List.drop_left']
    rw [bitsOfBytes_length, List.length_take, Nat.min_eq_left inside]
  · have behind : (bitsOfBytes bytes).length ≤ 8 * n := by
      rw [bitsOfBytes_length]
      omega
    rw [List.drop_eq_nil_of_le behind, List.drop_eq_nil_of_le (by omega)]
    rfl

theorem bitsOfBytes_take (bytes : List UInt8) (n : Nat) :
    (bitsOfBytes bytes).take (8 * n) = bitsOfBytes (bytes.take n) := by
  by_cases inside : n ≤ bytes.length
  · conv_lhs => rw [← List.take_append_drop n bytes, bitsOfBytes_append]
    rw [List.take_left']
    rw [bitsOfBytes_length, List.length_take, Nat.min_eq_left inside]
  · have behind : (bitsOfBytes bytes).length ≤ 8 * n := by
      rw [bitsOfBytes_length]
      omega
    rw [List.take_of_length_le behind, List.take_of_length_le (by omega)]

theorem bitsOfBytes_zeros (n : Nat) :
    bitsOfBytes (List.replicate n 0) = List.replicate (8 * n) false := by
  induction n with
  | zero => rfl
  | succ n known =>
      rw [List.replicate_succ, ← List.singleton_append, bitsOfBytes_append, known, Nat.mul_succ,
        Nat.add_comm, List.replicate_add]
      rfl

theorem hexDigits_append {first second : List Bool} {n : Nat} (length : first.length = 4 * n) :
    hexDigits (first ++ second) = hexDigits first ++ hexDigits second := by
  have count : (first ++ second).length / 4 = n + second.length / 4 := by
    rw [List.length_append]
    omega
  have front : first.length / 4 = n := by omega
  unfold hexDigits
  rw [count, front, List.range_add, List.map_append, List.map_map]
  congr 1
  · apply List.map_congr_left
    intro i inside
    rw [List.mem_range] at inside
    have room : 4 ≤ (first.drop (4 * i)).length := by
      rw [List.length_drop]
      omega
    rw [List.drop_append_of_le_length (by omega), List.take_append_of_le_length room]
  · apply List.map_congr_left
    intro i _
    have place : (first ++ second).drop (4 * (n + i)) = second.drop (4 * i) := by
      rw [Nat.mul_add, ← List.drop_drop, List.drop_left' length]
    show hexDigit (number (((first ++ second).drop (4 * (n + i))).take 4)) = _
    rw [place]

/-! ## Lemmas about blocks -/

theorem schedule_block (block : Nat → Word) {t : Nat} (inside : t < 16) :
    schedule block t = block t := by
  rw [schedule, if_pos inside]

theorem schedule_next (block : Nat → Word) {t : Nat} (behind : 16 ≤ t) :
    schedule block t = sigma1 (schedule block (t - 2)) + schedule block (t - 7) +
      sigma0 (schedule block (t - 15)) + schedule block (t - 16) := by
  rw [schedule, if_neg (Nat.not_lt.mpr behind)]

theorem schedule_congr {first second : Nat → Word} (same : ∀ t < 16, first t = second t) (t : Nat) :
    schedule first t = schedule second t := by
  induction t using Nat.strong_induction_on with
  | h t known =>
      by_cases inside : t < 16
      · rw [schedule_block _ inside, schedule_block _ inside, same t inside]
      · have behind := Nat.le_of_not_lt inside
        rw [schedule_next _ behind, schedule_next _ behind, known (t - 2) (by omega),
          known (t - 7) (by omega), known (t - 15) (by omega), known (t - 16) (by omega)]

theorem compress_congr {first second : Nat → Word} (same : ∀ t < 16, first t = second t)
    (value : Words) : compress value first = compress value second := by
  have part : ∀ n, rounds first n value = rounds second n value := by
    intro n
    induction n with
    | zero => rfl
    | succ n known => rw [rounds, rounds, known, schedule_congr same]
  rw [compress, compress, part]

/-! ## Lemmas about constants -/

/-- The bits of a fractional part from bounds of the number. -/
theorem fraction_eq {x : ℝ} {m : Nat} (low : (m : ℝ) ≤ x * 2 ^ 32) (high : x * 2 ^ 32 < m + 1) :
    fraction x = BitVec.ofNat 32 m := by
  have whole : ⌊x * 2 ^ 32⌋₊ = m :=
    (Nat.floor_eq_iff ((Nat.cast_nonneg m).trans low)).mpr ⟨low, high⟩
  rw [fraction, whole]

theorem fraction_sqrt {p m : Nat} (low : m ^ 2 ≤ p * 2 ^ 64) (high : p * 2 ^ 64 < (m + 1) ^ 2) :
    fraction (√(p : ℝ)) = BitVec.ofNat 32 m := by
  have square : (√(p : ℝ) * 2 ^ 32) ^ 2 = p * 2 ^ 64 := by
    rw [mul_pow, Real.sq_sqrt (Nat.cast_nonneg p)]
    norm_num
  have positive : 0 ≤ √(p : ℝ) * 2 ^ 32 := by positivity
  apply fraction_eq
  · apply le_of_pow_le_pow_left₀ two_ne_zero positive
    rw [square]
    exact_mod_cast low
  · apply lt_of_pow_lt_pow_left₀ 2 (by positivity)
    rw [square]
    exact_mod_cast high

theorem fraction_cbrt {p m : Nat} (low : m ^ 3 ≤ p * 2 ^ 96) (high : p * 2 ^ 96 < (m + 1) ^ 3) :
    fraction ((p : ℝ) ^ ((1 : ℝ) / 3)) = BitVec.ofNat 32 m := by
  have cube : ((p : ℝ) ^ ((1 : ℝ) / 3) * 2 ^ 32) ^ 3 = p * 2 ^ 96 := by
    rw [mul_pow, ← Real.rpow_natCast ((p : ℝ) ^ ((1 : ℝ) / 3)) 3,
      ← Real.rpow_mul (Nat.cast_nonneg p)]
    norm_num
  have positive : 0 ≤ (p : ℝ) ^ ((1 : ℝ) / 3) * 2 ^ 32 := by positivity
  apply fraction_eq
  · apply le_of_pow_le_pow_left₀ three_ne_zero positive
    rw [cube]
    exact_mod_cast low
  · apply lt_of_pow_lt_pow_left₀ 3 (by positivity)
    rw [cube]
    exact_mod_cast high

end SecureHash

end Trinux
