import Trinux.Shell.ElfImage

namespace Trinux

/-!
# The stack that a program finds

The strings are pushed from the end of the stack downwards, the pointers to them follow below, and
the stack pointer is below both.  At most 32 strings are pushed, and nothing compares their length
with the size of the stack.
-/

def stringBytes (argv : List (List UInt8)) : Nat := (argv.map fun s => s.length + 1).sum

/-- The arguments fit: there are at most 32, and the strings, the pointers to them and the 32 bytes
around them fit the stack. -/
def FitsStack (argv : List (List UInt8)) : Prop :=
  argv.length ≤ 32 ∧ (stringBytes argv + 3) / 4 * 4 + 4 * argv.length + 32 ≤ userStackSize.toNat

instance (argv : List (List UInt8)) : Decidable (FitsStack argv) :=
  inferInstanceAs (Decidable (_ ∧ _))

/-- The stack is as a program expects it: what was written lies between the base and the top of the
stack; `argc` and the pointer to the pointers are above the stack pointer; and each pointer leads to
its string, the last one being followed by zero. -/
structure StackRight (m : Memory) (esp top : UInt32) (argv : List (List UInt8)) : Prop where
  inside : ∀ a ∈ ExecCall.stackWritten top argv,
    top.toNat ≤ a.toNat + userStackSize.toNat ∧ a.toNat < top.toNat
  count : (m.readU32 (esp + 4)).toNat = argv.length
  strings : ∀ i (given : i < argv.length),
    m.Holds (m.readU32 (m.readU32 (esp + 8) + 4 * UInt32.ofNat i)) (argv[i] ++ [0])
  ends : argv ≠ [] → m.readU32 (m.readU32 (esp + 8) + 4 * UInt32.ofNat argv.length) = 0
  below : argv ≠ [] → esp < m.readU32 (esp + 8)
  belowStrings : ∀ i < argv.length,
    esp < m.readU32 (m.readU32 (esp + 8) + 4 * UInt32.ofNat i)

/-! ## Words in memory -/

theorem and_high_toNat (x mask : UInt32) {k : Nat} (small : k ≤ 32)
    (high : mask.toNat = (2 ^ (32 - k) - 1) <<< k) :
    (x &&& mask).toNat = x.toNat / 2 ^ k * 2 ^ k := by
  have bound : x.toNat < 2 ^ 32 := x.toNat_lt
  rw [UInt32.toNat_and, high, ← Nat.shiftRight_eq_div_pow, ← Nat.shiftLeft_eq]
  apply Nat.eq_of_testBit_eq
  intro i
  rw [Nat.testBit_and, Nat.testBit_shiftLeft, Nat.testBit_shiftLeft, Nat.testBit_two_pow_sub_one,
    Nat.testBit_shiftRight]
  by_cases above : k ≤ i
  · have place : k + (i - k) = i := by omega
    rw [decide_eq_true above, Bool.true_and, Bool.true_and, place]
    by_cases inside : i < 32
    · have short : i - k < 32 - k := by omega
      rw [decide_eq_true short, Bool.and_true]
    · have zero : x.toNat.testBit i = false :=
        Nat.testBit_lt_two_pow (bound.trans_le (Nat.pow_le_pow_right (by decide) (by omega)))
      rw [zero, Bool.false_and]
  · rw [decide_eq_false above, Bool.false_and, Bool.false_and, Bool.and_false]

namespace Memory

open Bytes

variable {m : Memory}

theorem storeU32_eq (m : Memory) (a value : UInt32) :
    m.storeU32 a value = m.store a (le32 value) := by
  have bytes : [value.toUInt8, (value >>> 8).toUInt8, (value >>> 16).toUInt8,
      (value >>> 24).toUInt8] = le32 value := by
    unfold le32
    rw [List.cons_eq_cons, List.cons_eq_cons, List.cons_eq_cons, List.cons_eq_cons]
    refine ⟨?_, ?_, ?_, ?_, rfl⟩ <;> apply UInt8.toNat_inj.mp <;>
      simp [Nat.shiftRight_eq_div_pow]
  rw [storeU32, bytes]

theorem storeU32_holds (m : Memory) (a value : UInt32) :
    (m.storeU32 a value).Holds a (le32 value) := by
  rw [storeU32_eq]
  exact store_holds _ m a (by show 4 ≤ 2 ^ 32; decide)

/-- Where a word is read from is not written by what starts behind it. -/
theorem word_apart {a b : UInt32} {n : Nat} (fits : 4 + n ≤ 2 ^ 32)
    (member : b ∈ addressesFrom a 4) : b ∉ addressesFrom (a + 4) n := by
  intro behind
  rcases mem_addressesFrom.mp member with ⟨i, inside, rfl⟩
  rcases mem_addressesFrom.mp behind with ⟨k, short, same⟩
  rw [add_assoc] at same
  have numbers := congrArg UInt32.toNat (add_left_cancel same)
  rw [UInt32.toNat_add, UInt32.toNat_ofNat', UInt32.toNat_ofNat'] at numbers
  change i % 2 ^ 32 = (4 + k % 2 ^ 32) % 2 ^ 32 at numbers
  omega

theorem readU32_congr {m' : Memory} {a : UInt32}
    (same : ∀ b ∈ addressesFrom a 4, m' b = m b) : m'.readU32 a = m.readU32 a := by
  have byte : ∀ k < 4, m' (a + UInt32.ofNat k) = m (a + UInt32.ofNat k) := fun k small =>
    same _ (mem_addressesFrom.mpr ⟨k, small, rfl⟩)
  have first : m' a = m a := by
    have zero := byte 0 (by decide)
    change m' (a + 0) = m (a + 0) at zero
    rw [add_zero] at zero
    exact zero
  have second : m' (a + 1) = m (a + 1) := byte 1 (by decide)
  have third : m' (a + 2) = m (a + 2) := byte 2 (by decide)
  have fourth : m' (a + 3) = m (a + 3) := byte 3 (by decide)
  unfold Memory.readU32
  rw [first, second, third, fourth]

theorem storePointers_read (ptrs : List UInt32) : ∀ (m : Memory) (a : UInt32) {i : Nat}
    {ptr : UInt32}, ptrs[i]? = some ptr → 4 * ptrs.length ≤ 2 ^ 32 →
      (storePointers m a ptrs).readU32 (a + 4 * UInt32.ofNat i) = ptr := by
  induction ptrs with
  | nil => intro m a i ptr found; cases found
  | cons first rest known =>
      intro m a i ptr found fits
      rw [List.length_cons] at fits
      rw [storePointers]
      cases i with
      | zero =>
          rw [← Option.some.inj found]
          have held : (storePointers (m.storeU32 a first) (a + 4) rest).Holds a (le32 first) := by
            apply (storeU32_holds m a first).of_same
            intro b member
            exact storePointers_outside rest _ _ (word_apart (by omega) member)
          have zero : a + 4 * UInt32.ofNat 0 = a := by
            show a + 4 * 0 = a
            rw [mul_zero, add_zero]
          rw [zero]
          exact held.readU32
      | succ i =>
          have place : a + 4 * UInt32.ofNat (i + 1) = a + 4 + 4 * UInt32.ofNat i := by
            have one : UInt32.ofNat 1 = 1 := rfl
            rw [UInt32.ofNat_add, mul_add, one, mul_one, add_comm (4 * UInt32.ofNat i) 4, add_assoc]
          rw [place]
          exact known (m.storeU32 a first) (a + 4) found (by omega)

end Memory

/-! ## Pushing the strings -/

theorem stringBytes_cons (s : List UInt8) (rest : List (List UInt8)) :
    stringBytes (s :: rest) = s.length + 1 + stringBytes rest := by
  unfold stringBytes
  rw [List.map_cons, List.sum_cons]

theorem pushed_toNat {bottom strTop : UInt32} {size below : Nat}
    (value : bottom.toNat = strTop.toNat - below) (room : size + below ≤ strTop.toNat) :
    (bottom - UInt32.ofNat size).toNat = strTop.toNat - (size + below) := by
  have bound := strTop.toNat_lt
  have same : (UInt32.ofNat size).toNat = size := by
    rw [UInt32.toNat_ofNat']
    exact Nat.mod_eq_of_lt (by omega)
  rw [UInt32.toNat_sub_of_le _ _ (UInt32.le_iff_toNat_le.mpr (by omega)), same, value]
  omega

/-- The strings are where their pointers lead, one below the other. -/
theorem pushStrings_holds (argv : List (List UInt8)) (m : Memory) (strTop : UInt32)
    (room : stringBytes argv ≤ strTop.toNat) :
    (pushStrings m strTop argv).2.1.toNat = strTop.toNat - stringBytes argv ∧
      List.Forall₂ (fun p s => (pushStrings m strTop argv).1.Holds p (s ++ [0]) ∧
        strTop.toNat - stringBytes argv ≤ p.toNat ∧ p.toNat + s.length + 1 ≤ strTop.toNat)
        (pushStrings m strTop argv).2.2 argv := by
  induction argv with
  | nil => exact ⟨rfl, .nil⟩
  | cons s rest known =>
      rw [stringBytes_cons] at room ⊢
      rcases known (by omega) with ⟨bottom, held⟩
      have bound := strTop.toNat_lt
      rw [pushStrings]
      dsimp only
      have top : ((pushStrings m strTop rest).2.1 - UInt32.ofNat (s.length + 1)).toNat =
          strTop.toNat - (s.length + 1 + stringBytes rest) := pushed_toNat bottom room
      have length : (s ++ [0]).length = s.length + 1 := by
        rw [List.length_append, List.length_singleton]
      refine ⟨top, .cons ⟨?_, ?_, ?_⟩ ?_⟩
      · apply Memory.store_holds
        omega
      · exact top.ge
      · rw [top]
        omega
      · apply held.imp
        rintro p other ⟨holds, low, high⟩
        refine ⟨?_, by omega, high⟩
        apply holds.of_same
        intro b member
        apply ExecState.store_outside
        intro written
        have bounds := bounds_of_mem_addressesFrom (by
          rw [List.length_append, List.length_singleton]; omega) member
        have new := bounds_of_mem_addressesFrom (by rw [top, length]; omega) written
        rw [top, length] at new
        omega

/-- The addresses that pushing writes to lie between the last place and the first. -/
theorem pushWritten_bounds (argv : List (List UInt8)) (strTop : UInt32)
    (room : stringBytes argv ≤ strTop.toNat) :
    (ExecCall.pushWritten strTop argv).2.toNat = strTop.toNat - stringBytes argv ∧
      ∀ a ∈ (ExecCall.pushWritten strTop argv).1,
        strTop.toNat - stringBytes argv ≤ a.toNat ∧ a.toNat < strTop.toNat := by
  induction argv with
  | nil =>
      refine ⟨rfl, fun a impossible => ?_⟩
      cases impossible
  | cons s rest known =>
      rw [stringBytes_cons] at room ⊢
      rcases known (by omega) with ⟨bottom, written⟩
      have bound := strTop.toNat_lt
      rw [ExecCall.pushWritten]
      dsimp only
      have top : ((ExecCall.pushWritten strTop rest).2 - UInt32.ofNat (s.length + 1)).toNat =
          strTop.toNat - (s.length + 1 + stringBytes rest) := pushed_toNat bottom room
      refine ⟨top, fun a member => ?_⟩
      rcases List.mem_append.mp member with new | old
      · have bounds := bounds_of_mem_addressesFrom (by omega) new
        omega
      · have bounds := written a old
        omega

theorem mem_pushWritten {argv : List (List UInt8)} {s : List UInt8} (given : s ∈ argv)
    (strTop : UInt32) : ∃ start, ∀ a ∈ addressesFrom start (s.length + 1),
      a ∈ (ExecCall.pushWritten strTop argv).1 := by
  induction argv with
  | nil => cases given
  | cons first rest known =>
      rw [ExecCall.pushWritten]
      dsimp only
      rcases List.mem_cons.mp given with rfl | later
      · exact ⟨_, fun a member => List.mem_append_left _ member⟩
      · rcases known later with ⟨start, written⟩
        exact ⟨start, fun a member => List.mem_append_right _ (written a member)⟩

theorem stringBytes_le {argv : List (List UInt8)} {most : Nat}
    (short : ∀ s ∈ argv, s.length + 1 ≤ most) : stringBytes argv ≤ argv.length * most := by
  induction argv with
  | nil => exact Nat.zero_le _
  | cons s rest known =>
      rw [stringBytes_cons, List.length_cons, Nat.succ_mul]
      have first := short s List.mem_cons_self
      have others := known fun t later => short t (List.mem_cons_of_mem _ later)
      omega

/-! ## The words below the strings -/

section Layout

variable {top : UInt32}

def pointersAt (top : UInt32) (args : List (List UInt8)) : UInt32 :=
  ((ExecCall.pushWritten (top - 16) args).2 &&& ~~~0x3) - 4 * UInt32.ofNat (args.length + 1)

def emptyStack (m : Memory) (top : UInt32) : Memory :=
  storePointers (m.memset (top - userStackSize) 0 userStackSize.toNat) (top - 16 - 12) [0, 0, 0]

theorem userStack_empty (m : Memory) (top : UInt32) :
    userStack m top [] = (emptyStack m top, top - 16 - 12) := rfl

theorem userStack_some (m : Memory) (top : UInt32) {argv : List (List UInt8)} (some' : argv ≠ []) :
    userStack m top argv =
      (storePointers
        (storePointers (pushStrings (emptyStack m top) (top - 16) (argv.take 32)).1
          (pointersAt top (argv.take 32))
          ((pushStrings (emptyStack m top) (top - 16) (argv.take 32)).2.2 ++ [0]))
        (pointersAt top (argv.take 32) - 12)
        [0, UInt32.ofNat (argv.take 32).length, pointersAt top (argv.take 32)],
        pointersAt top (argv.take 32) - 12) := by
  have place := (pushStrings_spec (argv.take 32) (emptyStack m top) (top - 16)).1
  unfold userStack pointersAt
  dsimp only
  rw [if_neg some', ← place]
  rfl

theorem userStack_words (m : Memory) (top : UInt32) {argv : List (List UInt8)} (some' : argv ≠ []) :
    (userStack m top argv).1.readU32 ((userStack m top argv).2 + 4) =
        UInt32.ofNat (argv.take 32).length ∧
      (userStack m top argv).1.readU32 ((userStack m top argv).2 + 8) =
        pointersAt top (argv.take 32) := by
  rw [userStack_some m top some']
  dsimp only
  have words := fun i ptr found => @Memory.storePointers_read
    [0, UInt32.ofNat (argv.take 32).length, pointersAt top (argv.take 32)]
    (storePointers (pushStrings (emptyStack m top) (top - 16) (argv.take 32)).1
      (pointersAt top (argv.take 32))
      ((pushStrings (emptyStack m top) (top - 16) (argv.take 32)).2.2 ++ [0]))
    (pointersAt top (argv.take 32) - 12) i ptr found (by show 4 * 3 ≤ 2 ^ 32; decide)
  exact ⟨words 1 _ rfl, words 2 _ rfl⟩

variable (large : 2 ^ 22 ≤ top.toNat)

include large

theorem top_sub : (top - 16).toNat = top.toNat - 16 := by
  rw [UInt32.toNat_sub_of_le _ _ (UInt32.le_iff_toNat_le.mpr (by show 16 ≤ _; omega))]
  rfl

theorem pointersAt_toNat {args : List (List UInt8)} (few : args.length ≤ 32)
    (short : stringBytes args ≤ 2 ^ 21) :
    (pointersAt top args).toNat =
        (top.toNat - 16 - stringBytes args) / 4 * 4 - 4 * (args.length + 1) ∧
      (pointersAt top args - 12).toNat =
        (top.toNat - 16 - stringBytes args) / 4 * 4 - 4 * (args.length + 1) - 12 := by
  have below := top_sub large
  have bottom := (pushWritten_bounds args (top - 16) (by rw [below]; omega)).1
  rw [below] at bottom
  have cleared := and_high_toNat (ExecCall.pushWritten (top - 16) args).2 (~~~0x3)
    (show 2 ≤ 32 by decide) (by decide)
  rw [bottom, show 2 ^ 2 = 4 from rfl] at cleared
  have size : (4 * UInt32.ofNat (args.length + 1)).toNat = 4 * (args.length + 1) := by
    rw [UInt32.toNat_mul, UInt32.toNat_ofNat']
    show 4 * _ % 2 ^ 32 = _
    omega
  have first : (pointersAt top args).toNat =
      (top.toNat - 16 - stringBytes args) / 4 * 4 - 4 * (args.length + 1) := by
    unfold pointersAt
    rw [UInt32.toNat_sub_of_le _ _ (UInt32.le_iff_toNat_le.mpr (by rw [size, cleared]; omega)),
      size, cleared]
  refine ⟨first, ?_⟩
  rw [UInt32.toNat_sub_of_le _ _ (UInt32.le_iff_toNat_le.mpr (by
    rw [first]; show 12 ≤ _; omega)), first]
  rfl

variable (aligned : top.toNat % 4 = 0)

include aligned

theorem stackWritten_inside {argv : List (List UInt8)} (fits : FitsStack argv) :
    ∀ a ∈ ExecCall.stackWritten top argv,
      top.toNat ≤ a.toNat + userStackSize.toNat ∧ a.toNat < top.toNat := by
  rcases fits with ⟨few, room⟩
  have size : userStackSize.toNat = 65536 := rfl
  rw [size] at room ⊢
  have limit := top.toNat_lt
  have all : argv.take 32 = argv := List.take_of_length_le few
  have below := top_sub large
  have place := pointersAt_toNat large few (by omega)
  have base : (top - userStackSize).toNat = top.toNat - 65536 := by
    rw [UInt32.toNat_sub_of_le _ _ (UInt32.le_iff_toNat_le.mpr (by rw [size]; omega)), size]
  have esp : (top - 16 - 12).toNat = top.toNat - 28 := by
    rw [UInt32.toNat_sub_of_le _ _ (UInt32.le_iff_toNat_le.mpr (by
      rw [below]; show 12 ≤ _; omega)), below]
    show top.toNat - 16 - 12 = _
    omega
  intro a member
  unfold ExecCall.stackWritten at member
  dsimp only at member
  rw [all, List.mem_append, List.mem_append] at member
  rcases member with (cleared | empty) | args
  · have bounds := bounds_of_mem_addressesFrom (by rw [base, size]; omega) cleared
    rw [base, size] at bounds
    omega
  · have bounds := bounds_of_mem_addressesFrom (by rw [esp]; omega) empty
    omega
  · split_ifs at args
    · cases args
    · rw [List.mem_append, List.mem_append] at args
      rcases args with (strings | pointers) | words
      · have bounds := (pushWritten_bounds argv (top - 16) (by omega)).2 a strings
        omega
      · change a ∈ addressesFrom (pointersAt top argv) (4 * (argv.length + 1)) at pointers
        have bounds := bounds_of_mem_addressesFrom (by omega) pointers
        omega
      · change a ∈ addressesFrom (pointersAt top argv - 12) 12 at words
        have bounds := bounds_of_mem_addressesFrom (by omega) words
        omega

theorem stackRight_of_fits (m : Memory) {argv : List (List UInt8)} (fits : FitsStack argv) :
    StackRight (userStack m top argv).1 (userStack m top argv).2 top argv := by
  have inside := stackWritten_inside large aligned fits
  rcases fits with ⟨few, room⟩
  have size : userStackSize.toNat = 65536 := rfl
  rw [size] at room
  have limit := top.toNat_lt
  have all : argv.take 32 = argv := List.take_of_length_le few
  have below := top_sub large
  by_cases noArgs : argv = []
  · rw [noArgs] at inside ⊢
    refine ⟨inside, ?_, fun i impossible => ?_, fun some' => absurd rfl some',
      fun some' => absurd rfl some', fun i impossible => ?_⟩
    · rw [userStack_empty]
      have zero := @Memory.storePointers_read [0, 0, 0]
        (m.memset (top - userStackSize) 0 userStackSize.toNat) (top - 16 - 12) 1 0 rfl
        (by decide)
      exact congrArg UInt32.toNat zero
    · cases impossible
    · cases impossible
  · have place := pointersAt_toNat large few (by omega)
    have words := userStack_words m top noArgs
    rw [all] at words
    have pushed := pushStrings_holds argv (emptyStack m top) (top - 16) (by omega)
    have made := userStack_some m top noArgs
    rw [all] at made
    have held := List.forall₂_iff_get.mp pushed.2
    have count : ((pushStrings (emptyStack m top) (top - 16) argv).2.2 ++ [0]).length =
        argv.length + 1 := by
      rw [List.length_append, held.1, List.length_singleton]
    have pointer : ∀ {i : Nat} {ptr : UInt32},
        ((pushStrings (emptyStack m top) (top - 16) argv).2.2 ++ [0])[i]? = some ptr →
        (userStack m top argv).1.readU32 (pointersAt top argv + 4 * UInt32.ofNat i) = ptr := by
      intro i ptr found
      have given : i < argv.length + 1 := by
        rw [← count]
        exact (List.getElem?_eq_some_iff.mp found).1
      rw [made]
      dsimp only
      have below' : (storePointers (pushStrings (emptyStack m top) (top - 16) argv).1
          (pointersAt top argv)
          ((pushStrings (emptyStack m top) (top - 16) argv).2.2 ++ [0])).readU32
          (pointersAt top argv + 4 * UInt32.ofNat i) = ptr :=
        Memory.storePointers_read _ _ _ found (by omega)
      rw [← below']
      apply Memory.readU32_congr
      intro b member
      apply storePointers_outside
      intro written
      have offset : (4 * UInt32.ofNat i).toNat = 4 * i := by
        rw [UInt32.toNat_mul, UInt32.toNat_ofNat']
        show 4 * _ % 2 ^ 32 = _
        omega
      have start : (pointersAt top argv + 4 * UInt32.ofNat i).toNat =
          (pointersAt top argv).toNat + 4 * i := by
        rw [UInt32.toNat_add, offset]
        omega
      have bounds := bounds_of_mem_addressesFrom (by omega) member
      have new := bounds_of_mem_addressesFrom (by
        show (pointersAt top argv - 12).toNat + 4 * 3 ≤ _; omega) written
      change _ ∧ b.toNat < _ + 4 * 3 at new
      omega
    have string : ∀ i (given : i < argv.length), ∃ ptr : UInt32,
        (userStack m top argv).1.readU32 (pointersAt top argv + 4 * UInt32.ofNat i) = ptr ∧
          (userStack m top argv).1.Holds ptr (argv[i] ++ [0]) ∧
            top.toNat - 16 - stringBytes argv ≤ ptr.toNat := by
      intro i given
      have known := held.2 i (by omega) given
      rw [below] at known
      refine ⟨_, @pointer i _ ?_, ?_, known.2.1⟩
      · rw [List.getElem?_append_left (by omega)]
        exact List.getElem?_eq_getElem (by omega)
      · apply known.1.of_same
        intro b member
        have bounds := bounds_of_mem_addressesFrom (by
          rw [List.length_append, List.length_singleton]
          change _ + (argv[i].length + 1) ≤ _
          change _ ∧ _ ∧ _ + argv[i].length + 1 ≤ _ at known
          omega) member
        rw [made]
        dsimp only
        rw [storePointers_outside, storePointers_outside]
        · rw [count]
          intro written
          have new := bounds_of_mem_addressesFrom (by omega) written
          omega
        · intro written
          have new := bounds_of_mem_addressesFrom (by
            show (pointersAt top argv - 12).toNat + 4 * 3 ≤ _; omega) written
          change _ ∧ b.toNat < _ + 4 * 3 at new
          omega
    have esp : (userStack m top argv).2 = pointersAt top argv - 12 := by rw [made]
    refine ⟨inside, ?_, fun i given => ?_, fun _ => ?_, fun _ => ?_, fun i given => ?_⟩
    · rw [words.1, UInt32.toNat_ofNat']
      exact Nat.mod_eq_of_lt (by omega)
    · rcases string i given with ⟨ptr, isPtr, holds, _⟩
      rw [words.2, isPtr]
      exact holds
    · rw [words.2]
      apply pointer
      rw [List.getElem?_append_right (by omega), held.1, Nat.sub_self]
      rfl
    · rw [words.2, esp]
      apply UInt32.lt_iff_toNat_lt.mpr
      omega
    · rcases string i given with ⟨ptr, isPtr, _, low⟩
      rw [words.2, isPtr, esp]
      apply UInt32.lt_iff_toNat_lt.mpr
      omega

omit large in
/-- A string that is written between the base and the top of the stack is not longer than it. -/
theorem string_short (low : top.toNat ≤ 2 ^ 31) {start : UInt32} {n : Nat}
    (inside : ∀ a ∈ addressesFrom start n,
      top.toNat ≤ a.toNat + userStackSize.toNat ∧ a.toNat < top.toNat) : n ≤ 65536 := by
  by_contra long
  have size : userStackSize.toNat = 65536 := rfl
  have first := inside _ (mem_addressesFrom.mpr ⟨0, by omega, rfl⟩)
  have last := inside _ (mem_addressesFrom.mpr ⟨65536, by omega, rfl⟩)
  have zero : start + UInt32.ofNat 0 = start := add_zero start
  rw [zero] at first
  have moved : (start + UInt32.ofNat 65536).toNat = start.toNat + 65536 :=
    toNat_add_ofNat (by omega)
  rw [moved] at last
  omega

theorem fits_of_stackRight (low : top.toNat ≤ 2 ^ 31) (m : Memory) {argv : List (List UInt8)}
    (right : StackRight (userStack m top argv).1 (userStack m top argv).2 top argv) :
    FitsStack argv := by
  by_cases noArgs : argv = []
  · rw [noArgs]
    decide
  · have size : userStackSize.toNat = 65536 := rfl
    have count := right.count
    rw [(userStack_words m top noArgs).1, UInt32.toNat_ofNat', List.length_take,
      Nat.mod_eq_of_lt (by omega)] at count
    have few : argv.length ≤ 32 := by omega
    have all : argv.take 32 = argv := List.take_of_length_le few
    have written : ∀ a, (a ∈ (ExecCall.pushWritten (top - 16) argv).1 ∨
        a ∈ addressesFrom (pointersAt top argv - 12) 12) → a ∈ ExecCall.stackWritten top argv := by
      intro a either
      unfold ExecCall.stackWritten
      dsimp only
      rw [all, if_neg noArgs]
      apply List.mem_append_right
      rcases either with string | words
      · exact List.mem_append_left _ (List.mem_append_left _ string)
      · exact List.mem_append_right _ words
    have short : ∀ s ∈ argv, s.length + 1 ≤ 65536 := by
      intro s given
      rcases mem_pushWritten given (top - 16) with ⟨start, isWritten⟩
      exact string_short aligned low fun a member =>
        right.inside a (written a (Or.inl (isWritten a member)))
    have total := stringBytes_le short
    have place := pointersAt_toNat large few (by omega)
    have last := right.inside _ (written (pointersAt top argv - 12)
      (Or.inr (mem_addressesFrom.mpr ⟨0, by decide, (add_zero _).symm⟩)))
    refine ⟨few, ?_⟩
    rw [size] at last ⊢
    omega

end Layout

theorem userStackTop_facts (nest : Nat) : 2 ^ 22 ≤ (userStackTop nest).toNat ∧
    (userStackTop nest).toNat % 4 = 0 ∧ (userStackTop nest).toNat ≤ 2 ^ 31 := by
  unfold userStackTop
  split <;> decide

theorem stackRight_iff (m : Memory) (nest : Nat) (argv : List (List UInt8)) :
    StackRight (userStack m (userStackTop nest) argv).1 (userStack m (userStackTop nest) argv).2
      (userStackTop nest) argv ↔ FitsStack argv := by
  rcases userStackTop_facts nest with ⟨large, aligned, low⟩
  exact ⟨fits_of_stackRight large aligned low m, stackRight_of_fits large aligned m⟩

/-! ## The two loaders -/

/-- The strings that the loader reads are those of the caller: it is the kernel, or they were
copied, or there are none. -/
def ExecCall.ArgumentsKept (c : ExecCall) : Prop := c.nest = 0 ∨ c.argBlock ≠ none ∨ c.argv = []

def ExecCall.stackPointer (c : ExecCall) (m : Memory) : UInt32 :=
  (userStack (c.load m).2.memory (userStackTop (c.nest + 1)) c.argv).2

/-- The memory and the registers behind a call of `elf_execve` that succeeds. -/
theorem elfExecve_stack {s : ExecState} {call : ExecveCall} {entry esp : UInt32}
    (succeeds : (s.elfExecve call).1.2 = some (entry, esp)) :
    ∃ m, (s.elfExecve call).2.memory = (userStack m (userStackTop call.nest) call.argv).1 ∧
      esp = (userStack m (userStackTop call.nest) call.argv).2 := by
  rcases elfExecve_cases s call with ⟨_, _, refused, _⟩ |
    ⟨m', buf, s', first, argCopy, _, _, _, done⟩
  · rw [refused] at succeeds
    cases succeeds
  · rw [done] at succeeds ⊢
    refine ⟨(s'.memory.unloaded.execveSegments buf call.pageDir).memory, rfl, ?_⟩
    exact (congrArg Prod.snd (Option.some.inj succeeds)).symm

/-- Both loaders give a program that they start the right stack exactly when its arguments fit. -/
theorem initial_stack_iff (c : ExecCall) (m : Memory) (s : ExecState) (call : ExecveCall) :
    (c.Started m → c.ArgumentsKept →
      (StackRight (c.afterStack m) (c.stackPointer m) (userStackTop (c.nest + 1)) c.argv ↔
        FitsStack c.argv)) ∧
    ∀ entry esp, (s.elfExecve call).1.2 = some (entry, esp) →
      (StackRight (s.elfExecve call).2.memory esp (userStackTop call.nest) call.argv ↔
        FitsStack call.argv) := by
  refine ⟨fun _ _ => stackRight_iff _ _ _, fun entry esp succeeds => ?_⟩
  rcases elfExecve_stack succeeds with ⟨loaded, memory, pointer⟩
  rw [memory, pointer]
  exact stackRight_iff loaded call.nest call.argv

def shellStarts (argv : List (List UInt8)) : ExecCall where
  nest := 0
  backup := none
  argBlock := none
  fileBlock := some 0x03800000
  created := true
  pageDir := 0
  file := some ExecCall.emptyProgram
  argv := argv
  stores := []

theorem shellStarts_started (argv : List (List UInt8)) : (shellStarts argv).Started fun _ => 0 := by
  refine ⟨rfl, ?_⟩
  show (elfExecArgvInner (some ExecCall.emptyProgram) (some 0x03800000) 0 fun _ => 0).1 = none
  have loads : (elfExecArgvInner (some ExecCall.emptyProgram) (some 0x03800000) 0
      fun _ => 0).1.isNone = true := by decide +kernel
  exact Option.isNone_iff_eq_none.mp loads

theorem initial_stack_iff_two :
    StackRight ((shellStarts [[0x6C, 0x73], [0x2F]]).afterStack fun _ => 0)
      ((shellStarts [[0x6C, 0x73], [0x2F]]).stackPointer fun _ => 0) 0x0F000000
      [[0x6C, 0x73], [0x2F]] :=
  ((initial_stack_iff (shellStarts [[0x6C, 0x73], [0x2F]]) (fun _ => 0)
    (.start (fun _ => 0) 0 0 []) ⟨false, 0, 1, none, [], [], none, none⟩).1
    (shellStarts_started _) (Or.inl rfl)).mpr (by decide)

theorem argument_dropped :
    ¬StackRight ((shellStarts (List.replicate 33 [0x61])).afterStack fun _ => 0)
      ((shellStarts (List.replicate 33 [0x61])).stackPointer fun _ => 0) 0x0F000000
      (List.replicate 33 [0x61]) := by
  intro right
  exact absurd ((stackRight_iff _ 1 _).mp right) (by decide)

end Trinux
