import Trinux.Auth.Sha256
import Trinux.Lib.SecureHash

namespace Trinux

/-!
# The digest is that of the standard

The tables of `sha256` hold the fractional parts of roots of prime numbers, its loops run through
the blocks of the padded text, and each block changes the state as the standard says.
-/

def Sha256.State.words (s : Sha256.State) : SecureHash.Words :=
  ⟨s.a.toBitVec, s.b.toBitVec, s.c.toBitVec, s.d.toBitVec, s.e.toBitVec, s.f.toBitVec,
    s.g.toBitVec, s.h.toBitVec⟩

namespace Sha256

/-! ## Tables -/

def primes : List Nat :=
  [2, 3, 5, 7, 11, 13, 17, 19, 23, 29, 31, 37, 41, 43, 47, 53, 59, 61, 67, 71, 73, 79, 83, 89, 97,
    101, 103, 107, 109, 113, 127, 131, 137, 139, 149, 151, 157, 163, 167, 173, 179, 181, 191, 193,
    197, 199, 211, 223, 227, 229, 233, 239, 241, 251, 257, 263, 269, 271, 277, 281, 283, 293, 307,
    311]

def Undivided (n : Nat) : Prop := 2 ≤ n ∧ ∀ m < n, 2 ≤ m → n % m ≠ 0

instance (n : Nat) : Decidable (Undivided n) := inferInstanceAs (Decidable (_ ∧ _))

theorem prime_eq_undivided : Nat.Prime = Undivided := by
  funext n
  apply propext
  rw [Nat.prime_def_lt', Undivided]
  apply and_congr_right
  intro _
  constructor
  · intro all m less two divides
    exact all m two less (Nat.dvd_of_mod_eq_zero divides)
  · intro all m two less divides
    exact all m less two (Nat.mod_eq_zero_of_dvd divides)

def tried (n : Nat) : Bool :=
  2 ≤ n && (List.range 18).all fun m => decide (m < 2) || decide (n ≤ m) || n % m != 0

/-- A number below the square of eighteen has a divisor below eighteen if it has one. -/
theorem undivided_iff_tried {n : Nat} (small : n < 324) : Undivided n ↔ tried n = true := by
  simp only [Undivided, tried, Bool.and_eq_true, List.all_eq_true, List.mem_range, Bool.or_eq_true,
    decide_eq_true_eq, bne_iff_ne, ne_eq]
  apply and_congr_right
  intro two
  constructor
  · intro all m _
    by_cases inside : m < n ∧ 2 ≤ m
    · exact Or.inr (all m inside.1 inside.2)
    · exact Or.inl (by omega)
  · intro all m less twoLe zero
    have product : m * (n / m) = n := Nat.mul_div_cancel' (Nat.dvd_of_mod_eq_zero zero)
    by_cases low : m < 18
    · rcases all m low with (h | h) | h
      · omega
      · omega
      · exact h zero
    · have quotient : n / m < 18 := Nat.div_lt_of_lt_mul (by omega)
      have more : 2 ≤ n / m := by
        by_contra one
        have : m * (n / m) ≤ m * 1 := Nat.mul_le_mul_left m (by omega)
        omega
      have less' : n / m < n := Nat.div_lt_self (by omega) (by omega)
      rcases all (n / m) quotient with (h | h) | h
      · omega
      · omega
      · exact h (Nat.mod_eq_zero_of_dvd (Dvd.intro_left m product))

/-- From one prime of the list to the next there is only the first of them. -/
theorem count_prime (t : Nat) (inside : t < 64) :
    Nat.count Undivided (primes.getD t 0) = t := by
  induction t with
  | zero => decide
  | succ t known =>
      have next : ∀ t < 63, primes.getD t 0 ≤ primes.getD (t + 1) 0 ∧
          primes.getD (t + 1) 0 < 324 ∧
          Nat.count (fun i => tried (primes.getD t 0 + i) = true)
            (primes.getD (t + 1) 0 - primes.getD t 0) = 1 := by
        decide +kernel
      obtain ⟨later, small, one⟩ := next t (by omega)
      have same : ∀ i < primes.getD (t + 1) 0 - primes.getD t 0,
          (Undivided (primes.getD t 0 + i) ↔ tried (primes.getD t 0 + i) = true) :=
        fun i less => undivided_iff_tried (by omega)
      have counted : Nat.count (fun i => Undivided (primes.getD t 0 + i))
          (primes.getD (t + 1) 0 - primes.getD t 0) = 1 :=
        (le_antisymm (Nat.count_mono_left fun i less => (same i less).mp)
          (Nat.count_mono_left fun i less => (same i less).mpr)).trans one
      rw [← Nat.add_sub_of_le later, Nat.count_add, known (by omega), counted]

theorem nth_prime (t : Nat) (inside : t < 64) : Nat.nth Nat.Prime t = primes.getD t 0 := by
  have prime : ∀ t < 64, primes.getD t 0 < 324 ∧ tried (primes.getD t 0) = true := by
    decide +kernel
  have place := Nat.nth_count ((undivided_iff_tried (prime t inside).1).mpr (prime t inside).2)
  rw [count_prime t inside] at place
  rw [prime_eq_undivided, place]
def cubeRoot (p : Nat) : Nat :=
  if p < 8 then 1 else if p < 27 then 2 else if p < 64 then 3 else if p < 125 then 4
  else if p < 216 then 5 else 6

theorem ofNat_fraction (whole : Nat) (x : UInt32) :
    BitVec.ofNat 32 (whole * 2 ^ 32 + x.toNat) = x.toBitVec := by
  apply BitVec.eq_of_toNat_eq
  have small : x.toNat < 2 ^ 32 := x.toNat_lt
  rw [BitVec.toNat_ofNat, UInt32.toNat_toBitVec]
  omega

theorem constant_eq (t : Nat) (inside : t < 64) :
    SecureHash.constant t = (k.getD t 0).toBitVec := by
  have bounds : ∀ t < 64, (cubeRoot (primes.getD t 0) * 2 ^ 32 + (k.getD t 0).toNat) ^ 3 ≤
      primes.getD t 0 * 2 ^ 96 ∧ primes.getD t 0 * 2 ^ 96 <
        (cubeRoot (primes.getD t 0) * 2 ^ 32 + (k.getD t 0).toNat + 1) ^ 3 := by
    decide +kernel
  rw [SecureHash.constant, nth_prime t inside,
    SecureHash.fraction_cbrt (bounds t inside).1 (bounds t inside).2, ofNat_fraction]

theorem initial_eq : SecureHash.initial = h0.words := by
  have root : ∀ (t : Nat) (whole : Nat) (x : UInt32), t < 64 →
      (whole * 2 ^ 32 + x.toNat) ^ 2 ≤ primes.getD t 0 * 2 ^ 64 →
      primes.getD t 0 * 2 ^ 64 < (whole * 2 ^ 32 + x.toNat + 1) ^ 2 →
      SecureHash.initialWord t = x.toBitVec := by
    intro t whole x inside low high
    rw [SecureHash.initialWord, nth_prime t inside, SecureHash.fraction_sqrt low high,
      ofNat_fraction]
  unfold SecureHash.initial State.words
  rw [root 0 1 h0.a (by decide) (by decide) (by decide),
    root 1 1 h0.b (by decide) (by decide) (by decide),
    root 2 2 h0.c (by decide) (by decide) (by decide),
    root 3 2 h0.d (by decide) (by decide) (by decide),
    root 4 3 h0.e (by decide) (by decide) (by decide),
    root 5 3 h0.f (by decide) (by decide) (by decide),
    root 6 4 h0.g (by decide) (by decide) (by decide),
    root 7 4 h0.h (by decide) (by decide) (by decide)]

/-! ## A block -/

section Block

variable {block : List UInt8}

def blockWords (block : List UInt8) (t : Nat) : SecureHash.Word := (be32 block (4 * t)).toBitVec

theorem schedule_grows {first : List UInt32} (length : first.length = 16)
    (words : ∀ t < 16, (first.getD t 0).toBitVec = blockWords block t) (n : Nat) :
    ((List.range n).foldl (fun w i => w ++ [nextWord w (16 + i)]) first).length = 16 + n ∧
      ∀ t < 16 + n, (((List.range n).foldl (fun w i => w ++ [nextWord w (16 + i)]) first).getD
        t 0).toBitVec = SecureHash.schedule (blockWords block) t := by
  induction n with
  | zero =>
      constructor
      · exact length
      · intro t inside
        rw [SecureHash.schedule_block _ inside]
        exact words t inside
  | succ n known =>
      rw [List.range_succ, List.foldl_append, List.foldl_cons, List.foldl_nil]
      generalize (List.range n).foldl (fun w i => w ++ [nextWord w (16 + i)]) first = w at known ⊢
      rcases known with ⟨length, words⟩
      constructor
      · rw [List.length_append, length, List.length_singleton]
        rfl
      · intro t inside
        by_cases before : t < 16 + n
        · rw [List.getD_append _ _ _ _ (by omega), words t before]
        · have last : t = 16 + n := by omega
          rw [last, List.getD_append_right _ _ _ _ (by omega), length, Nat.sub_self,
            SecureHash.schedule_next _ (by omega), ← words _ (by omega), ← words _ (by omega),
            ← words _ (by omega), ← words _ (by omega)]
          rfl

theorem schedule_spec (block : List UInt8) : (schedule block).length = 64 ∧
    ∀ t < 64, ((schedule block).getD t 0).toBitVec = SecureHash.schedule (blockWords block) t := by
  have length : ((List.range 16).map fun i => be32 block (4 * i)).length = 16 := by
    rw [List.length_map, List.length_range]
  refine schedule_grows length ?_ 48
  intro t inside
  rw [List.getD_eq_getElem _ _ (inside.trans_eq length.symm), List.getElem_map, List.getElem_range]
  rfl

theorem rounds_spec (block : List UInt8) (s : State) :
    ((k.zip (schedule block)).foldl round s).words =
      SecureHash.rounds (blockWords block) 64 s.words := by
  rcases schedule_spec block with ⟨length, words⟩
  have full : (k.zip (schedule block)).length = 64 := by
    rw [List.length_zip, length]
    rfl
  have part : ∀ n ≤ 64, (((k.zip (schedule block)).take n).foldl round s).words =
      SecureHash.rounds (blockWords block) n s.words := by
    intro n
    induction n with
    | zero => exact fun _ => rfl
    | succ n known =>
        intro small
        have item : (k.zip (schedule block))[n]? =
            some (k.getD n 0, (schedule block).getD n 0) := by
          rw [List.getElem?_zip_eq_some]
          constructor
          · rw [List.getD_eq_getElem _ _ (show n < k.length from small)]
            exact List.getElem?_eq_getElem _
          · rw [List.getD_eq_getElem _ _ (show n < (schedule block).length by omega)]
            exact List.getElem?_eq_getElem _
        rw [List.take_add_one, item, Option.toList_some, List.foldl_append, List.foldl_cons,
          List.foldl_nil, SecureHash.rounds, ← known (by omega), constant_eq n (by omega),
          ← words n (by omega)]
        rfl
  have whole := part 64 (Nat.le_refl 64)
  rw [List.take_of_length_le full.le] at whole
  exact whole

theorem sha256Block_words (s : State) (block : List UInt8) :
    (sha256Block s block).words = SecureHash.compress s.words (blockWords block) := by
  rw [SecureHash.compress, ← rounds_spec]
  unfold sha256Block
  generalize (k.zip (schedule block)).foldl round s = r
  rfl

end Block

/-! ## The padded text -/

section Text

variable {data : List UInt8}

def zeroBytes (length : Nat) : Nat := (119 - length % 64) % 64

def padded (data : List UInt8) : List UInt8 :=
  data ++ [0x80] ++ List.replicate (zeroBytes data.length) 0 ++
    putBe64 (UInt64.ofNat data.length * 8)

theorem padded_length (data : List UInt8) :
    (padded data).length = data.length + 1 + zeroBytes data.length + 8 := by
  unfold padded
  rw [List.length_append, List.length_append, List.length_append, List.length_replicate]
  rfl

theorem putBe32_bits (v : UInt32) :
    SecureHash.bitsOfBytes (putBe32 v) = SecureHash.bitsOf 32 v.toNat := by
  have byte : ∀ b : UInt8, ∀ n : Nat, b.toNat = n % 2 ^ 8 →
      SecureHash.bitsOf 8 b.toNat = SecureHash.bitsOf 8 n := by
    intro b n same
    rw [same, SecureHash.bitsOf_mod]
  have first : (v >>> 24).toUInt8.toNat = v.toNat / 2 ^ 24 % 2 ^ 8 := by
    rw [UInt32.toNat_toUInt8, UInt32.toNat_shiftRight, Nat.shiftRight_eq_div_pow]
    rfl
  have second : (v >>> 16).toUInt8.toNat = v.toNat / 2 ^ 16 % 2 ^ 8 := by
    rw [UInt32.toNat_toUInt8, UInt32.toNat_shiftRight, Nat.shiftRight_eq_div_pow]
    rfl
  have third : (v >>> 8).toUInt8.toNat = v.toNat / 2 ^ 8 % 2 ^ 8 := by
    rw [UInt32.toNat_toUInt8, UInt32.toNat_shiftRight, Nat.shiftRight_eq_div_pow]
    rfl
  have fourth : v.toUInt8.toNat = v.toNat % 2 ^ 8 := UInt32.toNat_toUInt8 v
  rw [SecureHash.bitsOf_add 8 24, SecureHash.bitsOf_add 8 16, SecureHash.bitsOf_add 8 8,
    ← byte _ _ first, ← byte _ _ second, ← byte _ _ third, ← byte _ _ fourth]
  unfold SecureHash.bitsOfBytes putBe32
  rw [List.flatMap_cons, List.flatMap_cons, List.flatMap_cons, List.flatMap_cons,
    List.flatMap_nil, List.append_nil]

theorem putBe64_bits (v : UInt64) :
    SecureHash.bitsOfBytes (putBe64 v) = SecureHash.bitsOf 64 v.toNat := by
  have high : (v >>> 32).toUInt32.toNat = v.toNat / 2 ^ 32 := by
    rw [UInt64.toNat_toUInt32, UInt64.toNat_shiftRight, Nat.shiftRight_eq_div_pow]
    have bound := v.toNat_lt
    change v.toNat / 2 ^ 32 % 2 ^ 32 = _
    omega
  have low : v.toUInt32.toNat = v.toNat % 2 ^ 32 := UInt64.toNat_toUInt32 v
  rw [putBe64, SecureHash.bitsOfBytes_append, putBe32_bits, putBe32_bits, high, low,
    SecureHash.bitsOf_mod, ← SecureHash.bitsOf_add]

theorem padded_bits (short : data.length < 2 ^ 32) :
    SecureHash.bitsOfBytes (padded data) = SecureHash.pad (SecureHash.bitsOfBytes data) := by
  have one : SecureHash.bitsOfBytes [0x80] = [true] ++ List.replicate 7 false := by decide
  have count : SecureHash.zeros (8 * data.length) = 7 + 8 * zeroBytes data.length := by
    unfold SecureHash.zeros zeroBytes
    omega
  have length : (UInt64.ofNat data.length * 8).toNat = 8 * data.length := by
    rw [UInt64.toNat_mul, UInt64.toNat_ofNat', Nat.mod_eq_of_lt (show data.length < 2 ^ 64 by omega)]
    change data.length * 8 % 2 ^ 64 = _
    omega
  unfold padded SecureHash.pad
  rw [SecureHash.bitsOfBytes_append, SecureHash.bitsOfBytes_append, SecureHash.bitsOfBytes_append,
    SecureHash.bitsOfBytes_zeros, putBe64_bits, length, one, SecureHash.bitsOfBytes_length, count,
    List.replicate_add]
  simp only [List.append_assoc]

/-! ## The loops -/

def blocksState (bytes : List UInt8) : Nat → State
  | 0 => h0
  | n + 1 => sha256Block (blocksState bytes n) ((bytes.drop (64 * n)).take 64)

theorem foldl_blocks (bytes : List UInt8) (n : Nat) :
    (List.range n).foldl (fun s i => sha256Block s ((bytes.drop (64 * i)).take 64)) h0 =
      blocksState bytes n := by
  induction n with
  | zero => rw [List.range_zero, List.foldl_nil, blocksState]
  | succ n known =>
      rw [List.range_succ, List.foldl_append, List.foldl_cons, List.foldl_nil, known, blocksState]

/-- Full blocks of a text do not depend on what follows it. -/
theorem blocksState_append (behind : List UInt8) {n : Nat} (full : 64 * n ≤ data.length) :
    blocksState (data ++ behind) n = blocksState data n := by
  induction n with
  | zero => rw [blocksState, blocksState]
  | succ n known =>
      have room : 64 ≤ (data.drop (64 * n)).length := by
        rw [List.length_drop]
        omega
      rw [blocksState, blocksState, known (by omega),
        List.drop_append_of_le_length (by omega), List.take_append_of_le_length room]

theorem sha256_blocks (data : List UInt8) :
    sha256 data = (blocksState (padded data) ((padded data).length / 64)).bytes := by
  have split : padded data = data ++ ([0x80] ++ List.replicate (zeroBytes data.length) 0 ++
      putBe64 (UInt64.ofNat data.length * 8)) := by
    simp only [padded, List.append_assoc]
  have start : blocksState (padded data) (data.length / 64) = blocksState data (data.length / 64) := by
    rw [split]
    exact blocksState_append _ (by omega)
  have total := padded_length data
  have rest : (data.drop (64 * (data.length / 64))).length = data.length % 64 := by
    rw [List.length_drop]
    omega
  have tail : (padded data).drop (64 * (data.length / 64)) =
      data.drop (64 * (data.length / 64)) ++ [0x80] ++
        List.replicate (zeroBytes data.length) 0 ++ putBe64 (UInt64.ofNat data.length * 8) := by
    rw [split, List.drop_append_of_le_length (by omega)]
    simp only [List.append_assoc]
  have eight : (putBe64 (UInt64.ofNat data.length * 8)).length = 8 := rfl
  unfold sha256
  dsimp only
  generalize putBe64 (UInt64.ofNat data.length * 8) = len at *
  rw [List.length_append, rest, List.length_singleton, Nat.add_sub_cancel]
  rw [foldl_blocks]
  by_cases one : data.length % 64 < 56
  · have zeros : zeroBytes data.length = 56 - (data.length % 64 + 1) := by
      unfold zeroBytes
      omega
    have count : (padded data).length / 64 = data.length / 64 + 1 := by omega
    rw [if_pos one, count, blocksState, start, tail, zeros]
    congr 2
    rw [List.take_of_length_le]
    simp only [List.length_append, List.length_replicate, List.length_singleton]
    omega
  · have zeros : zeroBytes data.length = 64 - (data.length % 64 + 1) + 56 := by
      unfold zeroBytes
      omega
    have count : (padded data).length / 64 = data.length / 64 + 1 + 1 := by omega
    have last : (padded data).drop (64 * (data.length / 64 + 1)) =
        ((padded data).drop (64 * (data.length / 64))).drop 64 := by
      rw [List.drop_drop, Nat.mul_add]
    have front : (data.drop (64 * (data.length / 64)) ++ [0x80] ++
        List.replicate (64 - (data.length % 64 + 1)) 0).length = 64 := by
      simp only [List.length_append, List.length_replicate, List.length_singleton, rest]
      omega
    rw [if_neg one, count, blocksState, blocksState, start, last, tail, zeros,
      List.replicate_add, ← List.append_assoc, List.append_assoc _ (List.replicate 56 0),
      List.take_left' front, List.drop_left' front]
    congr 2
    rw [List.take_of_length_le]
    rw [List.length_append, List.length_replicate]
    omega

/-! ## Words and bytes -/

theorem be32_toNat (b c d e : UInt8) :
    ((b.toUInt32 <<< 24) ||| (c.toUInt32 <<< 16) ||| (d.toUInt32 <<< 8) ||| e.toUInt32).toNat =
      ((b.toNat * 2 ^ 8 + c.toNat) * 2 ^ 8 + d.toNat) * 2 ^ 8 + e.toNat := by
  have first := b.toNat_lt
  have second := c.toNat_lt
  have third := d.toNat_lt
  have fourth := e.toNat_lt
  have high : (b.toUInt32 <<< 24).toNat = 2 ^ 24 * b.toNat := by
    rw [UInt32.toNat_shiftLeft, UInt8.toNat_toUInt32, Nat.shiftLeft_eq]
    change b.toNat * 2 ^ 24 % 2 ^ 32 = _
    omega
  have middle : (c.toUInt32 <<< 16).toNat = 2 ^ 16 * c.toNat := by
    rw [UInt32.toNat_shiftLeft, UInt8.toNat_toUInt32, Nat.shiftLeft_eq]
    change c.toNat * 2 ^ 16 % 2 ^ 32 = _
    omega
  have low : (d.toUInt32 <<< 8).toNat = 2 ^ 8 * d.toNat := by
    rw [UInt32.toNat_shiftLeft, UInt8.toNat_toUInt32, Nat.shiftLeft_eq]
    change d.toNat * 2 ^ 8 % 2 ^ 32 = _
    omega
  rw [UInt32.toNat_or, UInt32.toNat_or, UInt32.toNat_or, high, middle, low, UInt8.toNat_toUInt32,
    ← Nat.two_pow_add_eq_or_of_lt (show 2 ^ 16 * c.toNat < 2 ^ 24 by omega)]
  have next : 2 ^ 24 * b.toNat + 2 ^ 16 * c.toNat = 2 ^ 16 * (2 ^ 8 * b.toNat + c.toNat) := by
    ring
  rw [next, ← Nat.two_pow_add_eq_or_of_lt (show 2 ^ 8 * d.toNat < 2 ^ 16 by omega)]
  have last : 2 ^ 16 * (2 ^ 8 * b.toNat + c.toNat) + 2 ^ 8 * d.toNat =
      2 ^ 8 * (2 ^ 8 * (2 ^ 8 * b.toNat + c.toNat) + d.toNat) := by
    ring
  rw [last, ← Nat.two_pow_add_eq_or_of_lt (show e.toNat < 2 ^ 8 from fourth)]
  ring

theorem number_be32 {block : List UInt8} {j : Nat} (inside : j + 4 ≤ block.length) :
    BitVec.ofNat 32 (SecureHash.number (SecureHash.bitsOfBytes ((block.drop j).take 4))) =
      (be32 block j).toBitVec := by
  have part : (block.drop j).take 4 = [block.getD j 0, block.getD (j + 1) 0, block.getD (j + 2) 0,
      block.getD (j + 3) 0] := by
    rw [List.getD_eq_getElem _ _ (show j < block.length by omega),
      List.getD_eq_getElem _ _ (show j + 1 < block.length by omega),
      List.getD_eq_getElem _ _ (show j + 2 < block.length by omega),
      List.getD_eq_getElem _ _ (show j + 3 < block.length by omega),
      List.drop_eq_getElem_cons (show j < block.length by omega),
      List.drop_eq_getElem_cons (show j + 1 < block.length by omega),
      List.drop_eq_getElem_cons (show j + 1 + 1 < block.length by omega),
      List.drop_eq_getElem_cons (show j + 1 + 1 + 1 < block.length by omega)]
    rfl
  have one : ∀ b : UInt8, SecureHash.number (SecureHash.bitsOf 8 b.toNat) = b.toNat := by
    intro b
    rw [SecureHash.number_bitsOf, Nat.mod_eq_of_lt b.toNat_lt]
  apply BitVec.eq_of_toNat_eq
  rw [part, BitVec.toNat_ofNat]
  unfold SecureHash.bitsOfBytes be32
  rw [List.flatMap_cons, List.flatMap_cons, List.flatMap_cons, List.flatMap_cons,
    List.flatMap_nil, List.append_nil, ← List.append_assoc, ← List.append_assoc,
    SecureHash.number_append, SecureHash.number_append, SecureHash.number_append, one, one, one,
    one, SecureHash.bitsOf_length, SecureHash.bitsOf_length, SecureHash.bitsOf_length]
  refine Eq.trans ?_ (be32_toNat _ _ _ _).symm
  rw [Nat.mod_eq_of_lt]
  rw [← be32_toNat]
  exact UInt32.toNat_lt _

theorem wordAt_bytes {bytes : List UInt8} {i t : Nat} (inside : 64 * i + 64 ≤ bytes.length)
    (first : t < 16) : SecureHash.wordAt (SecureHash.bitsOfBytes bytes) i t =
      blockWords ((bytes.drop (64 * i)).take 64) t := by
  have length : ((bytes.drop (64 * i)).take 64).length = 64 := by
    rw [List.length_take, List.length_drop]
    omega
  have part : (((bytes.drop (64 * i)).take 64).drop (4 * t)).take 4 =
      (bytes.drop (64 * i + 4 * t)).take 4 := by
    rw [List.drop_take, List.take_take, List.drop_drop]
    congr 1
    omega
  have place : 512 * i + 32 * t = 8 * (64 * i + 4 * t) := by omega
  rw [SecureHash.wordAt, place, SecureHash.bitsOfBytes_drop,
    SecureHash.bitsOfBytes_take _ 4, blockWords, ← number_be32 (by omega), part]

/-- The loops run through the blocks of the padded text as the standard does. -/
theorem blocksState_words (bytes : List UInt8) {n : Nat} (full : 64 * n ≤ bytes.length) :
    (blocksState bytes n).words = SecureHash.hashValue (SecureHash.bitsOfBytes bytes) n := by
  induction n with
  | zero => rw [blocksState, SecureHash.hashValue, initial_eq]
  | succ n known =>
      rw [blocksState, sha256Block_words, known (by omega), SecureHash.hashValue]
      apply SecureHash.compress_congr
      intro t first
      rw [wordAt_bytes (by omega) first]

theorem bytes_bits (s : State) : SecureHash.bitsOfBytes s.bytes = s.words.bits := by
  unfold State.bytes
  simp only [SecureHash.bitsOfBytes_append, putBe32_bits]
  rfl

theorem hexDigits_bytes (bytes : List UInt8) :
    SecureHash.hexDigits (SecureHash.bitsOfBytes bytes) =
      bytes.flatMap fun b : UInt8 => [nibble (b >>> 4), nibble (b &&& 0xF)] := by
  have one : ∀ b : UInt8, SecureHash.hexDigits (SecureHash.bitsOf 8 b.toNat) =
      [nibble (b >>> 4), nibble (b &&& 0xF)] := by
    have all : ∀ n < 256, SecureHash.hexDigits (SecureHash.bitsOf 8 n) =
        [nibble (UInt8.ofNat n >>> 4), nibble (UInt8.ofNat n &&& 0xF)] := by
      decide +kernel
    intro b
    have known := all b.toNat b.toNat_lt
    rw [UInt8.ofNat_toNat] at known
    exact known
  induction bytes with
  | nil => rfl
  | cons b rest known =>
      rw [List.flatMap_cons, ← known, ← one b,
        ← SecureHash.hexDigits_append (show (SecureHash.bitsOf 8 b.toNat).length = 4 * 2 from
          SecureHash.bitsOf_length _ _)]
      rfl

end Text

end Sha256

theorem sha256_standard (data : List UInt8) (short : data.length < 2 ^ 32 - 64) :
    SecureHash.bitsOfBytes (sha256 data) = SecureHash.digest (SecureHash.bitsOfBytes data) ∧
      sha256Hex data = SecureHash.hexDigits (SecureHash.digest (SecureHash.bitsOfBytes data)) := by
  have bits : SecureHash.bitsOfBytes (sha256 data) =
      SecureHash.digest (SecureHash.bitsOfBytes data) := by
    have count : 8 * (Sha256.padded data).length / 512 = (Sha256.padded data).length / 64 := by
      omega
    rw [SecureHash.digest, ← Sha256.padded_bits (by omega), SecureHash.bitsOfBytes_length, count,
      ← Sha256.blocksState_words _ (Nat.mul_div_le _ _), ← Sha256.bytes_bits,
      Sha256.sha256_blocks]
  refine ⟨bits, ?_⟩
  rw [← bits, Sha256.hexDigits_bytes]
  rfl

theorem sha256_standard_abc :
    SecureHash.bitsOfBytes (sha256 (literal "abc")) =
      SecureHash.digest (SecureHash.bitsOfBytes (literal "abc")) ∧
      sha256Hex (literal "abc") =
        SecureHash.hexDigits (SecureHash.digest (SecureHash.bitsOfBytes (literal "abc"))) :=
  sha256_standard (literal "abc") (by decide)

end Trinux
