import Trinux.Auth.RoundTrip
import Trinux.Kernel.Printf
import Trinux.Shell.Tasm

namespace Trinux

/-!
# Numbers that are read back

What `%d`, `%u` and `%x` print is read by `atoi` and by `parse_hex`, which gets words without
blanks around them.  Fill before a number is read over, zeros as digits, but zeros before a minus
sign are a number of their own.
-/

inductive NumberConversion where
  | d
  | u
  | x
  deriving DecidableEq

namespace NumberConversion

def letter : NumberConversion → UInt8
  | d => 100
  | u => 117
  | x => 120

def text : NumberConversion → UInt32 → List UInt8
  | d => fun v => itoa v 10
  | u => printUnsigned
  | x => fun v => itoaHex v false

def read : NumberConversion → List UInt8 → UInt32
  | d => atoi
  | u => atoi
  | x => fun text => Tasm.parseHex (text.dropWhile isspace)

end NumberConversion

/-- The format string of a number: a percent sign, flags, a width and a letter. -/
def numberFormat (flags : List UInt8) (width : Nat) (letter : UInt8) : List UInt8 :=
  37 :: (flags ++ printDigits 10 width [letter])

/-- The text of a number is read back as the number, it is as wide as asked, and there is no sign
behind its front. -/
structure NumberReadsBack (c : NumberConversion) (v : UInt32) (width : Nat) (text : List UInt8) :
    Prop where
  value : c.read text = v
  wide : width ≤ text.length
  sign : 45 ∉ (text.dropWhile isspace).drop 1

/-! ## Digits -/

theorem printDigits_zero (fuel : Nat) (digits : List UInt8) :
    printDigits fuel 0 digits = digits := by
  cases fuel with
  | zero => rfl
  | succ fuel => rw [printDigits, if_pos rfl]

theorem printDigits_eq (fuel v : Nat) (digits : List UInt8) :
    printDigits fuel v digits = (digitsUp itoaDigit 10 fuel v).reverse ++ digits := by
  induction fuel generalizing v digits with
  | zero => rfl
  | succ fuel known =>
      rw [printDigits, digitsUp]
      by_cases zero : v = 0
      · rw [if_pos zero, if_pos zero]
        rfl
      · have digit : itoaDigit (v % 10) = UInt8.ofNat (48 + v % 10) :=
          if_pos (Nat.mod_lt v (by decide))
        rw [if_neg zero, if_neg zero, known, List.reverse_cons, List.append_assoc, digit]
        rfl

theorem printDigits_head (fuel : Nat) {v : Nat} (digits : List UInt8) (positive : v ≠ 0)
    (small : v < 10 ^ fuel) : ∃ c rest, printDigits fuel v digits = c :: rest ∧
      isdigit c = true ∧ c ≠ 48 := by
  induction fuel generalizing v digits with
  | zero =>
      rw [pow_zero] at small
      omega
  | succ fuel known =>
      rw [printDigits, if_neg positive]
      by_cases last : v / 10 = 0
      · have digit : ∀ d < 10, d ≠ 0 → isdigit (UInt8.ofNat (48 + d)) = true ∧
            UInt8.ofNat (48 + d) ≠ 48 := by decide
        rw [last, printDigits_zero]
        exact ⟨_, _, rfl, digit (v % 10) (Nat.mod_lt v (by decide)) (by omega)⟩
      · exact known _ last (Nat.div_lt_of_lt_mul (by rw [← pow_succ']; exact small))

structure Numeral (isDigit : UInt8 → Bool) (loop : UInt32 → List UInt8 → UInt32)
    (ds : List UInt8) (v : UInt32) : Prop where
  nonempty : ds ≠ []
  digits : ∀ c ∈ ds, isDigit c = true
  value : ∀ blanks : Nat, loop 0 (ds ++ List.replicate blanks 32) = v

def isHexDigit (c : UInt8) : Bool := (Tasm.hexDigit c).isSome

theorem atoiDigits_blanks (v : UInt32) (blanks : Nat) :
    atoiDigits v (List.replicate blanks 32) = v := by
  cases blanks with
  | zero => rfl
  | succ blanks => rfl

theorem parseHexFrom_blanks (v : UInt32) (blanks : Nat) :
    Tasm.parseHexFrom v (List.replicate blanks 32) = v := by
  cases blanks with
  | zero => rfl
  | succ blanks => rfl

theorem printDigits_append (fuel v : Nat) (digits : List UInt8) :
    printDigits fuel v [] ++ digits = printDigits fuel v digits := by
  rw [printDigits_eq, printDigits_eq, List.append_nil]

theorem printDigits_numeral (fuel : Nat) {v : Nat} (positive : v ≠ 0) (small : v < 10 ^ fuel) :
    Numeral isdigit atoiDigits (printDigits fuel v []) (UInt32.ofNat v) := by
  constructor
  case nonempty =>
    rcases printDigits_head fuel [] positive small with ⟨c, rest, printed, _⟩
    rw [printed]
    exact List.cons_ne_nil c rest
  case digits => exact printDigits_digits _ _ fun c impossible => absurd impossible List.not_mem_nil
  case value =>
    intro blanks
    rw [printDigits_append, atoiDigits_printDigits fuel v _ small, atoiDigits_blanks]

theorem zero_numeral : Numeral isdigit atoiDigits [48] 0 := by
  constructor
  case nonempty => exact List.cons_ne_nil _ _
  case digits =>
    intro c member
    rw [List.mem_singleton.mp member]
    rfl
  case value => exact atoiDigits_blanks 0

theorem printUnsigned_numeral (v : UInt32) : Numeral isdigit atoiDigits (printUnsigned v) v := by
  rw [printUnsigned]
  by_cases zero : v = 0
  · rw [if_pos zero, zero]
    exact zero_numeral
  · have positive : v.toNat ≠ 0 := fun same => zero (UInt32.toNat_inj.mp same)
    have numeral := printDigits_numeral 10 positive (v.toNat_lt.trans (by decide))
    rw [UInt32.ofNat_toNat] at numeral
    rw [if_neg zero]
    exact numeral

/-- `itoa` writes the digits, and a minus sign before those of a negative number. -/
theorem itoa_numeral (v : UInt32) :
    (¬Negative v ∧ Numeral isdigit atoiDigits (itoa v 10) v) ∨
      Negative v ∧ ∃ ds, itoa v 10 = 45 :: ds ∧ Numeral isdigit atoiDigits ds (0 - v) := by
  unfold itoa
  by_cases zero : v = 0
  · left
    rw [if_pos zero, zero]
    exact ⟨by decide, zero_numeral⟩
  · rw [if_neg zero]
    by_cases negative : Negative v
    · right
      have positive : (0 - v).toNat ≠ 0 := by
        intro none
        have same : 0 - v = 0 := UInt32.toNat_inj.mp none
        exact zero (sub_eq_zero.mp same).symm
      have numeral := printDigits_numeral 32 positive ((0 - v).toNat_lt.trans (by decide))
      rw [UInt32.ofNat_toNat, printDigits_eq, List.append_nil] at numeral
      rw [if_pos ⟨rfl, negative⟩, List.reverse_append]
      exact ⟨negative, _, rfl, numeral⟩
    · left
      have positive : v.toNat ≠ 0 := fun same => zero (UInt32.toNat_inj.mp same)
      have numeral := printDigits_numeral 32 positive (v.toNat_lt.trans (by decide))
      rw [UInt32.ofNat_toNat, printDigits_eq, List.append_nil] at numeral
      rw [if_neg fun both => negative both.2]
      exact ⟨negative, numeral⟩

theorem parseHexFrom_digitsUp (fuel v : Nat) (rest : List UInt8) (small : v < 16 ^ fuel) :
    Tasm.parseHexFrom 0 ((digitsUp (fun rem => (literal "0123456789abcdef").getD rem 0) 16 fuel
      v).reverse ++ rest) = Tasm.parseHexFrom (UInt32.ofNat v) rest := by
  induction fuel generalizing v rest with
  | zero =>
      rw [pow_zero, Nat.lt_one_iff] at small
      rw [small]
      rfl
  | succ fuel known =>
      rw [digitsUp]
      by_cases zero : v = 0
      · rw [if_pos zero, zero]
        rfl
      · have digit : ∀ d < 16, Tasm.hexDigit ((literal "0123456789abcdef").getD d 0) =
            some (UInt32.ofNat d) := by decide +kernel
        rw [if_neg zero, List.reverse_cons, List.append_assoc,
          known (v / 16) _ (Nat.div_lt_of_lt_mul (by rw [← pow_succ']; exact small)),
          List.singleton_append, Tasm.parseHexFrom, digit _ (Nat.mod_lt v (by decide))]
        dsimp only
        congr 1
        have parts := Nat.div_add_mod v 16
        calc UInt32.ofNat (v / 16) * 16 + UInt32.ofNat (v % 16)
            = UInt32.ofNat (v / 16 * 16 + v % 16) := by rw [UInt32.ofNat_add, UInt32.ofNat_mul]; rfl
          _ = UInt32.ofNat v := by rw [Nat.mul_comm, parts]

theorem digitsUp_mem {digit : Nat → UInt8} {base : Nat} (positive : 0 < base) (fuel v : Nat)
    {c : UInt8} (member : c ∈ digitsUp digit base fuel v) : ∃ d < base, c = digit d := by
  induction fuel generalizing v with
  | zero => exact absurd member List.not_mem_nil
  | succ fuel known =>
      rw [digitsUp] at member
      by_cases zero : v = 0
      · rw [if_pos zero] at member
        exact absurd member List.not_mem_nil
      · rw [if_neg zero] at member
        rcases List.mem_cons.mp member with rfl | behind
        · exact ⟨v % base, Nat.mod_lt v positive, rfl⟩
        · exact known _ behind

theorem itoaHex_numeral (v : UInt32) :
    Numeral isHexDigit Tasm.parseHexFrom (itoaHex v false) v := by
  unfold itoaHex
  dsimp only
  rw [if_neg Bool.false_ne_true]
  by_cases zero : v = 0
  · rw [if_pos zero, zero]
    constructor
    case nonempty => exact List.cons_ne_nil _ _
    case digits =>
      intro c member
      rw [List.mem_singleton.mp member]
      rfl
    case value => exact parseHexFrom_blanks 0
  · have positive : v.toNat ≠ 0 := fun same => zero (UInt32.toNat_inj.mp same)
    rw [if_neg zero]
    constructor
    case nonempty =>
      rw [digitsUp, if_neg positive, List.reverse_cons]
      exact List.append_ne_nil_of_right_ne_nil _ (List.cons_ne_nil _ _)
    case digits =>
      have digit : ∀ d < 16, isHexDigit ((literal "0123456789abcdef").getD d 0) = true := by
        decide +kernel
      intro c member
      rcases digitsUp_mem (by decide) 32 v.toNat (List.mem_reverse.mp member) with ⟨d, small, rfl⟩
      exact digit d small
    case value =>
      intro blanks
      rw [parseHexFrom_digitsUp 32 v.toNat _ (v.toNat_lt.trans (by decide)), UInt32.ofNat_toNat,
        parseHexFrom_blanks]

/-! ## Fill -/

theorem isspace_blanks (before : Nat) :
    ∀ c ∈ List.replicate before (32 : UInt8), isspace c = true := by
  intro c member
  rw [List.eq_of_mem_replicate member]
  rfl

namespace Numeral

variable {isDigit : UInt8 → Bool} {loop : UInt32 → List UInt8 → UInt32} {ds : List UInt8}
  {v : UInt32}

theorem zeros (numeral : Numeral isDigit loop ds v) (zero : isDigit 48 = true)
    (skips : ∀ rest, loop 0 (48 :: rest) = loop 0 rest) (fill : Nat) :
    Numeral isDigit loop (List.replicate fill 48 ++ ds) v := by
  constructor
  case nonempty => exact List.append_ne_nil_of_right_ne_nil _ numeral.nonempty
  case digits =>
    intro c member
    rcases List.mem_append.mp member with front | behind
    · rw [List.eq_of_mem_replicate front]
      exact zero
    · exact numeral.digits c behind
  case value =>
    intro blanks
    induction fill with
    | zero => exact numeral.value blanks
    | succ fill known => exact (skips _).trans known

theorem front (numeral : Numeral isDigit loop ds v)
    (apart : ∀ c, isDigit c = true → isspace c = false) (before : Nat) (rest : List UInt8) :
    (List.replicate before 32 ++ (ds ++ rest)).dropWhile isspace = ds ++ rest := by
  rw [List.dropWhile_append_of_pos (isspace_blanks before)]
  cases ds with
  | nil => exact absurd rfl numeral.nonempty
  | cons c ds =>
      have digit := apart c (numeral.digits c List.mem_cons_self)
      exact List.dropWhile_cons_of_neg (ne_true_of_eq_false digit)

/-- There is no sign in the digits and the blanks behind them. -/
theorem unsigned (numeral : Numeral isDigit loop ds v) (apart : isDigit 45 = false) (behind : Nat) :
    45 ∉ ds ++ List.replicate behind 32 := by
  intro member
  rcases List.mem_append.mp member with digit | blank
  · exact absurd (numeral.digits 45 digit) (ne_true_of_eq_false apart)
  · exact absurd (List.eq_of_mem_replicate blank) (by decide)

theorem atoi_eq (numeral : Numeral isdigit atoiDigits ds v) (before behind : Nat) :
    atoi (List.replicate before 32 ++ (ds ++ List.replicate behind 32)) = v := by
  have apart : ∀ c, isdigit c = true → isspace c = false ∧ c ≠ 45 ∧ c ≠ 43 := by
    decide +kernel
  have value := numeral.value behind
  rw [atoi, numeral.front (fun c digit => (apart c digit).1)]
  cases ds with
  | nil => exact absurd rfl numeral.nonempty
  | cons c ds =>
      have digit := apart c (numeral.digits c List.mem_cons_self)
      rw [List.cons_append] at value ⊢
      dsimp only
      rw [if_neg digit.2.1, if_neg digit.2.2, value]

end Numeral

theorem atoi_minus {ds : List UInt8} {v : UInt32} (numeral : Numeral isdigit atoiDigits ds v)
    (before behind : Nat) :
    atoi (List.replicate before 32 ++ (45 :: ds ++ List.replicate behind 32)) = 0 - v := by
  have front : (45 :: ds ++ List.replicate behind 32).dropWhile isspace =
      45 :: (ds ++ List.replicate behind 32) := List.dropWhile_cons_of_neg (by decide)
  rw [atoi, List.dropWhile_append_of_pos (isspace_blanks before), front]
  dsimp only
  rw [if_pos rfl, numeral.value]

theorem atoi_zeros (fill : Nat) (rest : List UInt8) :
    atoi (List.replicate (fill + 1) 48 ++ 45 :: rest) = 0 := by
  have front : (List.replicate (fill + 1) 48 ++ 45 :: rest).dropWhile isspace =
      48 :: (List.replicate fill 48 ++ 45 :: rest) := List.dropWhile_cons_of_neg (by decide)
  have zeros : atoiDigits 0 (List.replicate fill 48 ++ 45 :: rest) = 0 := by
    induction fill with
    | zero => rfl
    | succ fill known => exact known (List.dropWhile_cons_of_neg (by decide))
  rw [atoi, front]
  dsimp only
  rw [if_neg (by decide), if_neg (by decide)]
  exact zeros

/-- The fill of a padded text: blanks before it, zeros, and blanks behind it. -/
theorem paddedText_parts (str : List UInt8) (width : Int) (left zero : Bool) :
    ∃ before behind, paddedText str width left (if zero then 48 else 32) =
      List.replicate before 32 ++
        ((List.replicate (if zero ∧ ¬left then Sink.padFill width str.length else 0) 48 ++ str) ++
          List.replicate behind 32) := by
  unfold paddedText
  cases left with
  | true =>
      refine ⟨0, Sink.padFill width str.length, ?_⟩
      simp only [not_true_eq_false, and_false, if_false, if_true, List.replicate_zero,
        List.nil_append]
  | false =>
      cases zero with
      | true =>
          refine ⟨0, 0, ?_⟩
          simp only [Bool.false_eq_true, not_false_eq_true, and_true, if_false, if_true,
            List.replicate_zero, List.nil_append, List.append_nil]
      | false =>
          refine ⟨Sink.padFill width str.length, 0, ?_⟩
          simp only [Bool.false_eq_true, false_and, if_false, List.replicate_zero,
            List.nil_append, List.append_nil]

/-! ## Directives -/

theorem printDigits_dropWhile (fuel v : Nat) (digits : List UInt8) :
    (printDigits fuel v digits).dropWhile isdigit = digits.dropWhile isdigit := by
  have all : ∀ c ∈ printDigits fuel v [], isdigit c = true :=
    printDigits_digits _ _ fun c impossible => absurd impossible List.not_mem_nil
  rw [← printDigits_append, List.dropWhile_append_of_pos all]

/-- A width and what follows it do not begin with a flag. -/
theorem width_head {width : Nat} {letter : UInt8} (small : width < 10 ^ 10)
    (plain : letter ≠ 45 ∧ letter ≠ 48) :
    ∃ c rest, printDigits 10 width [letter] = c :: rest ∧ (c == 45 || c == 48) = false := by
  by_cases none : width = 0
  · rw [none, printDigits_zero]
    refine ⟨letter, [], rfl, ?_⟩
    rw [beq_false_of_ne plain.1, beq_false_of_ne plain.2]
    rfl
  · rcases printDigits_head 10 [letter] none small with ⟨c, rest, printed, digit, positive⟩
    have unsigned : c ≠ 45 := by
      rintro rfl
      exact absurd digit (by decide)
    refine ⟨c, rest, printed, ?_⟩
    rw [beq_false_of_ne unsigned, beq_false_of_ne positive]
    rfl

/-- The flags and the width of a number are read as they are written. -/
theorem scanDirective_number {flags : List UInt8} {width : Nat} {letter : UInt8}
    (allowed : ∀ c ∈ flags, c = 45 ∨ c = 48) (small : width < 2 ^ 31)
    (plain : isdigit letter = false) (unsigned : letter ≠ 45) :
    scanDirective (flags ++ printDigits 10 width [letter]) =
      (⟨flags.contains 45, if flags.contains 48 then 48 else 32, width⟩, [letter]) := by
  have digits : width < 10 ^ 10 := small.trans (by decide)
  have flag : ∀ c ∈ flags, (c == 45 || c == 48) = true := by
    intro c member
    rcases allowed c member with rfl | rfl <;> rfl
  have positive : letter ≠ 48 := by
    rintro rfl
    exact absurd plain (by decide)
  rcases width_head digits ⟨unsigned, positive⟩ with ⟨c, rest, printed, other⟩
  have front : (flags ++ printDigits 10 width [letter]).takeWhile (fun c => c == 45 || c == 48) =
      flags := by
    rw [List.takeWhile_append_of_pos flag, printed, List.takeWhile_cons, other,
      if_neg Bool.false_ne_true, List.append_nil]
  have behind : (flags ++ printDigits 10 width [letter]).dropWhile (fun c => c == 45 || c == 48) =
      printDigits 10 width [letter] := by
    rw [List.dropWhile_append_of_pos flag, printed, List.dropWhile_cons, other,
      if_neg Bool.false_ne_true]
  have number : (UInt32.ofNat width).toBitVec.toNat = width := by
    have remainder : (UInt32.ofNat width).toBitVec.toNat = width % 2 ^ 32 := UInt32.toNat_ofNat'
    rw [remainder, Nat.mod_eq_of_lt (small.trans (by decide))]
  have read : (atoiDigits 0 (printDigits 10 width [letter])).toBitVec.toInt = width := by
    rw [atoiDigits_printDigits 10 width _ digits, atoiDigits, if_neg (ne_true_of_eq_false plain),
      BitVec.toInt_eq_toNat_cond, number, if_pos (by omega)]
  unfold scanDirective
  rw [front, behind]
  dsimp only
  rw [read, printDigits_dropWhile,
    List.dropWhile_cons_of_neg (ne_true_of_eq_false plain)]

theorem rendering_number (c : NumberConversion) (v : UInt32) {flags : List UInt8} {width : Nat}
    (allowed : ∀ c ∈ flags, c = 45 ∨ c = 48) (small : width < 2 ^ 31) :
    rendering (numberFormat flags width c.letter) [.word v] =
      some (paddedText (c.text v) width (flags.contains 45)
        (if flags.contains 48 then 48 else 32)) := by
  have plain : ∀ c : NumberConversion, isdigit c.letter = false ∧ c.letter ≠ 45 := by
    intro c
    cases c <;> decide
  have scanned := scanDirective_number allowed small (plain c).1 (plain c).2
  rw [rendering_some]
  intro s
  rw [numberFormat, Sink.format_directive s _ scanned]
  have word : ∀ d : Directive, s.convert d c.letter [.word v] = s.word d c.text [.word v] := by
    intro d
    cases c <;> rfl
  rw [word, Sink.word, Option.bind_some]
  dsimp only
  rw [Sink.format, Sink.emitPadded_puts]

/-- A number with fill is read back, if there are no zeros before its sign. -/
theorem numberReadsBack_padded (c : NumberConversion) (v : UInt32) (width before zeros behind : Nat)
    (apart : c = .d → Negative v → zeros = 0)
    (wide : width ≤ (List.replicate before 32 ++
      ((List.replicate zeros 48 ++ c.text v) ++ List.replicate behind 32)).length) :
    NumberReadsBack c v width (List.replicate before 32 ++
      ((List.replicate zeros 48 ++ c.text v) ++ List.replicate behind 32)) := by
  have digit : ∀ c, isdigit c = true → isspace c = false := by decide +kernel
  have hexDigit : ∀ c, isHexDigit c = true → isspace c = false := by decide +kernel
  have decimal : ∀ {ds : List UInt8}, Numeral isdigit atoiDigits ds v →
      atoi (List.replicate before 32 ++
        ((List.replicate zeros 48 ++ ds) ++ List.replicate behind 32)) = v ∧
      45 ∉ ((List.replicate before 32 ++ ((List.replicate zeros 48 ++ ds) ++
        List.replicate behind 32)).dropWhile isspace).drop 1 := by
    intro ds numeral
    have filled := numeral.zeros (by decide) (fun _ => rfl) zeros
    rw [filled.front digit]
    exact ⟨filled.atoi_eq before behind,
      fun member => filled.unsigned (by decide) behind (List.mem_of_mem_drop member)⟩
  suffices both : c.read (List.replicate before 32 ++
        ((List.replicate zeros 48 ++ c.text v) ++ List.replicate behind 32)) = v ∧
      45 ∉ ((List.replicate before 32 ++ ((List.replicate zeros 48 ++ c.text v) ++
        List.replicate behind 32)).dropWhile isspace).drop 1 from ⟨both.1, wide, both.2⟩
  cases c with
  | d =>
      rcases itoa_numeral v with ⟨_, numeral⟩ | ⟨negative, ds, text, numeral⟩
      · exact decimal numeral
      · have minus : (45 :: ds ++ List.replicate behind 32).dropWhile isspace =
            45 :: (ds ++ List.replicate behind 32) := List.dropWhile_cons_of_neg (by decide)
        rw [apart rfl negative, List.replicate_zero, List.nil_append]
        change atoi (_ ++ (itoa v 10 ++ _)) = v ∧ 45 ∉ ((_ ++ (itoa v 10 ++ _)).dropWhile _).drop 1
        rw [text, atoi_minus numeral, List.dropWhile_append_of_pos (isspace_blanks before), minus]
        exact ⟨sub_sub_cancel 0 v, numeral.unsigned (by decide) behind⟩
  | u => exact decimal (printUnsigned_numeral v)
  | x =>
      have filled := (itoaHex_numeral v).zeros (by decide) (fun _ => rfl) zeros
      change Tasm.parseHex ((_ ++ ((_ ++ itoaHex v false) ++ _)).dropWhile isspace) = v ∧
        45 ∉ ((_ ++ ((_ ++ itoaHex v false) ++ _)).dropWhile isspace).drop 1
      rw [filled.front hexDigit]
      exact ⟨filled.value behind,
        fun member => filled.unsigned (by decide) behind (List.mem_of_mem_drop member)⟩

theorem digitsUp_length (digit : Nat → UInt8) (base fuel uv : Nat) :
    (digitsUp digit base fuel uv).length ≤ fuel := by
  induction fuel generalizing uv with
  | zero => exact Nat.le_refl _
  | succ fuel known =>
      rw [digitsUp]
      split
      · exact Nat.zero_le _
      · exact Nat.succ_le_succ (known _)

theorem itoa_length (v : UInt32) : (itoa v 10).length ≤ 33 := by
  have digits := digitsUp_length itoaDigit 10 32
  unfold itoa
  split
  · exact Nat.le_add_left 1 32
  · split
    · rw [List.length_reverse, List.length_append, List.length_singleton]
      exact Nat.succ_le_succ (digits _)
    · rw [List.length_reverse]
      exact (digits _).trans (Nat.le_succ 32)

/-- A number is read back, it is as wide as asked and its sign is at its front, unless it is a
negative one behind zeros. -/
theorem numberFormat_readsBack (c : NumberConversion) (v : UInt32) (flags : List UInt8)
    (width : Nat) (allowed : ∀ c ∈ flags, c = 45 ∨ c = 48) (small : width < 2 ^ 31) :
    ∃ text, rendering (numberFormat flags width c.letter) [.word v] = some text ∧
      (NumberReadsBack c v width text ↔
        ¬(c = .d ∧ Negative v ∧ 48 ∈ flags ∧ 45 ∉ flags ∧ (itoa v 10).length < width)) := by
  refine ⟨_, rendering_number c v allowed small, ?_⟩
  constructor
  · rintro reads ⟨rfl, negative, zero, right, short⟩
    have value := reads.value
    rcases itoa_numeral v with ⟨positive, _⟩ | ⟨_, ds, text, _⟩
    · exact positive negative
    · have fill : Sink.padFill width (itoa v 10).length = width - (itoa v 10).length - 1 + 1 := by
        rw [padFill_eq (by omega) (by omega)]
        omega
      have padded : paddedText (itoa v 10) width (flags.contains 45)
          (if flags.contains 48 then 48 else 32) =
          List.replicate (width - (itoa v 10).length - 1 + 1) 48 ++ 45 :: ds := by
        rw [paddedText, fill, List.contains_iff_mem.mpr zero, if_pos rfl, if_neg
          (fun left => right (List.contains_iff_mem.mp left)), text]
      change atoi (paddedText (itoa v 10) _ _ _) = v at value
      rw [padded, atoi_zeros] at value
      rw [← value] at negative
      exact absurd negative (by decide)
  · intro apart
    have wide : width ≤ (paddedText (c.text v) width (flags.contains 45)
        (if flags.contains 48 then 48 else 32)).length :=
      Int.ofNat_le.mp (le_paddedText_length _ (by omega) _ _)
    rcases paddedText_parts (c.text v) width (flags.contains 45) (flags.contains 48) with
      ⟨before, behind, parts⟩
    rw [parts] at wide ⊢
    refine numberReadsBack_padded c v width before _ behind ?_ wide
    rintro rfl negative
    by_cases zeros : flags.contains 48 = true ∧ ¬flags.contains 45 = true
    · have long : width ≤ (itoa v 10).length := by
        by_contra short
        exact apart ⟨rfl, negative, List.contains_iff_mem.mp zeros.1,
          fun left => zeros.2 (List.contains_iff_mem.mpr left), by omega⟩
      rw [if_pos zeros]
      have few := itoa_length v
      change Sink.padFill width (itoa v 10).length = 0
      rw [padFill_eq (by omega) (by omega)]
      omega
    · exact if_neg zeros

theorem numberFormat_minusFive :
    ¬∃ text, rendering (numberFormat [48] 5 NumberConversion.d.letter) [.word 4294967291] =
      some text ∧ NumberReadsBack .d 4294967291 5 text := by
  rintro ⟨text, written, reads⟩
  have allowed : ∀ c ∈ [(48 : UInt8)], c = 45 ∨ c = 48 :=
    fun c member => Or.inr (List.mem_singleton.mp member)
  rw [rendering_number .d 4294967291 allowed (by norm_num)] at written
  have value := reads.value
  rw [← Option.some_inj.mp written] at value
  exact absurd value (by decide +kernel)

theorem numberFormat_readsBack_blanks :
    ∃ text, rendering (numberFormat [] 5 NumberConversion.d.letter) [.word 4294967291] =
      some text ∧ (NumberReadsBack .d 4294967291 5 text ↔
        ¬(NumberConversion.d = .d ∧ Negative 4294967291 ∧ 48 ∈ ([] : List UInt8) ∧
          45 ∉ ([] : List UInt8) ∧ (itoa 4294967291 10).length < 5)) :=
  numberFormat_readsBack .d 4294967291 [] 5 (fun _ none => absurd none List.not_mem_nil)
    (by norm_num)

end Trinux
