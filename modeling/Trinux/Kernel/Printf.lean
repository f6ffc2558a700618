import Trinux.Auth.UserFiles

namespace Trinux

/-!
# Formatted output

`format` writes the characters of a format string and of its arguments one by one to a sink.  The
sink is the console, or a buffer that takes no character from its last place on, while the count
goes on.  What comes to the console is the whole text.

Arithmetic of `int` is that of 32-bit words where it overflows.
-/

/-! ## Numbers as texts -/

/-- The loops of `itoa` and `itoa_hex`: the digits of a number from the last one on. -/
def digitsUp (digit : Nat → UInt8) (base : Nat) : Nat → Nat → List UInt8
  | 0, _ => []
  | fuel + 1, uv => if uv = 0 then [] else digit (uv % base) :: digitsUp digit base fuel (uv / base)

def itoaDigit (rem : Nat) : UInt8 :=
  if rem < 10 then UInt8.ofNat (48 + rem) else UInt8.ofNat (97 + rem - 10)

def Negative (value : UInt32) : Prop := 0x80000000 ≤ value

instance (value : UInt32) : Decidable (Negative value) := inferInstanceAs (Decidable (_ ≤ _))

def itoa (value : UInt32) (base : Nat) : List UInt8 :=
  if value = 0 then [48]
  else if base = 10 ∧ Negative value then
    (digitsUp itoaDigit base 32 (0 - value).toNat ++ [45]).reverse
  else (digitsUp itoaDigit base 32 value.toNat).reverse

def itoaHex (value : UInt32) (upper : Bool) : List UInt8 :=
  let digits := if upper then literal "0123456789ABCDEF" else literal "0123456789abcdef"
  if value = 0 then [48]
  else (digitsUp (fun rem => digits.getD rem 0) 16 32 value.toNat).reverse

/-! ## The sink -/

structure Sink where
  buf : Option (Nat → UInt8)
  console : List UInt8
  size : UInt32
  count : UInt32

namespace Sink

def putc (s : Sink) (c : UInt8) : Sink :=
  match s.buf with
  | some buf =>
      { s with
        buf := some (if s.count + 1 < s.size then Function.update buf s.count.toNat c else buf)
        count := s.count + 1 }
  | none => { s with console := s.console ++ [c], count := s.count + 1 }

def puts (s : Sink) (str : List UInt8) : Sink := str.foldl putc s

/-- The fill of `emit_padded`: the difference of two numbers of the type `int`, or zero. -/
def padFill (width : Int) (length : Nat) : Nat := ((width - length).bmod (2 ^ 32)).toNat

def emitPadded (s : Sink) (str : List UInt8) (width : Int) (left : Bool) (pad : UInt8) : Sink :=
  let fill := padFill width str.length
  let s := if left then s else s.puts (List.replicate fill pad)
  let s := s.puts str
  if left then s.puts (List.replicate fill 32) else s

end Sink

/-! ## The format -/

inductive FormatArg where
  | word (v : UInt32)
  | str (s : Option CString)

structure Directive where
  left : Bool
  pad : UInt8
  width : Int
  deriving DecidableEq

def scanDirective (fmt : List UInt8) : Directive × List UInt8 :=
  let flags := fmt.takeWhile fun c => c == 45 || c == 48
  let behind := fmt.dropWhile fun c => c == 45 || c == 48
  (⟨flags.contains 45, if flags.contains 48 then 48 else 32, (atoiDigits 0 behind).toBitVec.toInt⟩,
    behind.dropWhile isdigit)

namespace Sink

def word (s : Sink) (d : Directive) (text : UInt32 → List UInt8) :
    List FormatArg → Option (Sink × List FormatArg)
  | .word v :: args => some (s.emitPadded (text v) d.width d.left d.pad, args)
  | _ => none

def char (s : Sink) (d : Directive) : List FormatArg → Option (Sink × List FormatArg)
  | .word v :: args =>
      let one := if v.toUInt8 = 0 then [] else [v.toUInt8]
      some (s.emitPadded one d.width d.left 32, args)
  | _ => none

def string (s : Sink) (d : Directive) : List FormatArg → Option (Sink × List FormatArg)
  | .str none :: args => some (s.emitPadded (literal "(null)") d.width d.left 32, args)
  | .str (some str) :: args => some (s.emitPadded str.1 d.width d.left 32, args)
  | _ => none

def convert (s : Sink) (d : Directive) (conversion : UInt8) (args : List FormatArg) :
    Option (Sink × List FormatArg) :=
  if conversion = 100 ∨ conversion = 105 then s.word d (fun v => itoa v 10) args
  else if conversion = 117 then s.word d printUnsigned args
  else if conversion = 120 then s.word d (fun v => itoaHex v false) args
  else if conversion = 88 then s.word d (fun v => itoaHex v true) args
  else if conversion = 112 then s.word d (fun v => literal "0x" ++ itoaHex v false) args
  else if conversion = 99 then s.char d args
  else if conversion = 115 then s.string d args
  else if conversion = 37 then some (s.putc 37, args)
  else some ((s.putc 37).putc conversion, args)

theorem scanDirective_length (fmt : List UInt8) : (scanDirective fmt).2.length ≤ fmt.length :=
  (List.length_dropWhile_le _ _).trans (List.length_dropWhile_le _ _)

def format (s : Sink) (fmt : List UInt8) (args : List FormatArg) : Option Sink :=
  match fmt with
  | [] => some s
  | c :: rest =>
      if c ≠ 37 then (s.putc c).format rest args
      else
        match _behind : scanDirective rest with
        | (_, []) => some s
        | (d, conversion :: rest') =>
            (s.convert d conversion args).bind fun (s, args) => s.format rest' args
termination_by fmt.length
decreasing_by
  · exact Nat.lt_succ_self _
  · have shorter := scanDirective_length rest
    rw [_behind] at shorter
    exact Nat.lt_succ_of_lt shorter

end Sink

def rendering (fmt : List UInt8) (args : List FormatArg) : Option (List UInt8) :=
  (Sink.format ⟨none, [], 0, 0⟩ fmt args).map Sink.console

def vsnprintf (buf : Nat → UInt8) (size : UInt32) (fmt : List UInt8) (args : List FormatArg) :
    Option ((Nat → UInt8) × Int) :=
  (Sink.format ⟨some buf, [], size, 0⟩ fmt args).map fun s =>
    let buf := s.buf.getD buf
    (if 0 < size then
      Function.update buf (if s.count < size then s.count else size - 1).toNat 0 else buf,
      s.count.toBitVec.toInt)

/-! ## All output is characters one by one -/

def paddedText (str : List UInt8) (width : Int) (left : Bool) (pad : UInt8) : List UInt8 :=
  let fill := Sink.padFill width str.length
  if left then str ++ List.replicate fill 32 else List.replicate fill pad ++ str

namespace Sink

theorem putc_buffer (buf : Nat → UInt8) (console : List UInt8) (size count : UInt32) (c : UInt8) :
    (⟨some buf, console, size, count⟩ : Sink).putc c =
      ⟨some (if count + 1 < size then Function.update buf count.toNat c else buf), console, size,
        count + 1⟩ := rfl

theorem puts_append (s : Sink) (first second : List UInt8) :
    s.puts (first ++ second) = (s.puts first).puts second := List.foldl_append

theorem emitPadded_puts (s : Sink) (str : List UInt8) (width : Int) (left : Bool) (pad : UInt8) :
    s.emitPadded str width left pad = s.puts (paddedText str width left pad) := by
  unfold emitPadded paddedText
  cases left with
  | true =>
      dsimp only
      rw [if_pos rfl, if_pos rfl, if_pos rfl, puts_append]
  | false =>
      dsimp only
      rw [if_neg Bool.false_ne_true, if_neg Bool.false_ne_true, if_neg Bool.false_ne_true,
        puts_append]

/-- A directive writes a text that does not depend on the sink. -/
theorem convert_puts (d : Directive) (conversion : UInt8) (args : List FormatArg) :
    ∃ result : Option (List UInt8 × List FormatArg), ∀ s : Sink,
      s.convert d conversion args = result.map fun (text, rest) => (s.puts text, rest) := by
  have words : ∀ text : UInt32 → List UInt8, ∃ result : Option (List UInt8 × List FormatArg),
      ∀ s : Sink, s.word d text args = result.map fun (text, rest) => (s.puts text, rest) := by
    intro text
    rcases args with _ | ⟨_ | _, args⟩
    · exact ⟨none, fun s => rfl⟩
    · exact ⟨some (_, args), fun s => congrArg (fun t => some (t, args)) (s.emitPadded_puts _ _ _ _)⟩
    · exact ⟨none, fun s => rfl⟩
  unfold convert
  by_cases signed : conversion = 100 ∨ conversion = 105
  · simp only [if_pos signed]
    exact words _
  by_cases unsigned : conversion = 117
  · simp only [if_neg signed, if_pos unsigned]
    exact words _
  by_cases lower : conversion = 120
  · simp only [if_neg signed, if_neg unsigned, if_pos lower]
    exact words _
  by_cases upper : conversion = 88
  · simp only [if_neg signed, if_neg unsigned, if_neg lower, if_pos upper]
    exact words _
  by_cases pointer : conversion = 112
  · simp only [if_neg signed, if_neg unsigned, if_neg lower, if_neg upper, if_pos pointer]
    exact words _
  simp only [if_neg signed, if_neg unsigned, if_neg lower, if_neg upper, if_neg pointer]
  by_cases char : conversion = 99
  · simp only [if_pos char]
    rcases args with _ | ⟨_ | _, args⟩
    · exact ⟨none, fun s => rfl⟩
    · exact ⟨some (_, args), fun s => congrArg (fun t => some (t, args)) (s.emitPadded_puts _ _ _ _)⟩
    · exact ⟨none, fun s => rfl⟩
  by_cases string : conversion = 115
  · simp only [if_neg char, if_pos string]
    rcases args with _ | ⟨_ | _ | _, args⟩
    · exact ⟨none, fun s => rfl⟩
    · exact ⟨none, fun s => rfl⟩
    · exact ⟨some (_, args), fun s => congrArg (fun t => some (t, args)) (s.emitPadded_puts _ _ _ _)⟩
    · exact ⟨some (_, args), fun s => congrArg (fun t => some (t, args)) (s.emitPadded_puts _ _ _ _)⟩
  by_cases percent : conversion = 37
  · simp only [if_neg char, if_neg string, if_pos percent]
    exact ⟨some ([37], args), fun s => rfl⟩
  · simp only [if_neg char, if_neg string, if_neg percent]
    exact ⟨some ([37, conversion], args), fun s => rfl⟩

theorem format_plain (s : Sink) {c : UInt8} (rest : List UInt8) (args : List FormatArg)
    (plain : c ≠ 37) : s.format (c :: rest) args = (s.putc c).format rest args := by
  rw [format, if_pos plain]

theorem format_open (s : Sink) {rest : List UInt8} (args : List FormatArg) {d : Directive}
    (scanned : scanDirective rest = (d, [])) : s.format (37 :: rest) args = some s := by
  rw [format, if_neg (not_not.mpr rfl)]
  split
  · rfl
  · rename_i other
    rw [scanned] at other
    cases other

theorem format_directive (s : Sink) {rest behind : List UInt8} (args : List FormatArg)
    {d : Directive} {conversion : UInt8} (scanned : scanDirective rest = (d, conversion :: behind)) :
    s.format (37 :: rest) args =
      (s.convert d conversion args).bind fun (s, args) => s.format behind args := by
  rw [format, if_neg (not_not.mpr rfl)]
  split
  · rename_i other
    rw [scanned] at other
    cases other
  · rename_i other
    rw [scanned] at other
    cases other
    rfl

theorem format_puts (fmt : List UInt8) (args : List FormatArg) :
    ∃ result : Option (List UInt8), ∀ s : Sink, s.format fmt args = result.map s.puts := by
  induction length : fmt.length using Nat.strong_induction_on generalizing fmt args with
  | h n known =>
      cases fmt with
      | nil =>
          refine ⟨some [], fun s => ?_⟩
          rw [format]
          rfl
      | cons c rest =>
          have shorter := scanDirective_length rest
          rw [List.length_cons] at length
          by_cases plain : c ≠ 37
          · rcases known rest.length (by omega) rest args rfl with ⟨result, written⟩
            refine ⟨result.map (c :: ·), fun s => ?_⟩
            rw [format_plain s rest args plain, written, Option.map_map]
            rfl
          · rw [not_not.mp plain]
            rcases scanned : scanDirective rest with ⟨d, _ | ⟨conversion, behind⟩⟩
            · exact ⟨some [], fun s => format_open s args scanned⟩
            · rw [scanned] at shorter
              have less : behind.length < n := by
                rw [List.length_cons] at shorter
                omega
              rcases convert_puts d conversion args with ⟨_ | ⟨text, args'⟩, converted⟩
              · refine ⟨none, fun s => ?_⟩
                rw [format_directive s args scanned, converted]
                rfl
              · rcases known behind.length less behind args' rfl with ⟨result, written⟩
                refine ⟨result.map (text ++ ·), fun s => ?_⟩
                rw [format_directive s args scanned, converted, Option.map_some, Option.bind_some]
                dsimp only
                rw [written, Option.map_map]
                congr 1
                funext behind
                exact (s.puts_append text behind).symm

theorem puts_console (console : List UInt8) (size count : UInt32) (text : List UInt8) :
    ((⟨none, console, size, count⟩ : Sink).puts text).console = console ++ text := by
  induction text generalizing console count with
  | nil => exact (List.append_nil console).symm
  | cons c rest known =>
      have later := known (console ++ [c]) (count + 1)
      rw [List.append_assoc, List.singleton_append] at later
      exact later

/-- What a buffer holds behind a text: the characters whose places are not the last one or behind
it. -/
theorem puts_buffer (buf : Nat → UInt8) (console : List UInt8) (size : UInt32) {count : UInt32}
    {text : List UInt8} (short : count.toNat + text.length < 2 ^ 32) :
    ∃ buf' : Nat → UInt8, (⟨some buf, console, size, count⟩ : Sink).puts text =
        ⟨some buf', console, size, count + UInt32.ofNat text.length⟩ ∧
      (∀ k (inside : k < text.length), count.toNat + k + 1 < size.toNat →
        buf' (count.toNat + k) = text.get ⟨k, inside⟩) ∧
      ∀ i, i < count.toNat ∨ count.toNat + text.length ≤ i ∨ size.toNat ≤ i + 1 →
        buf' i = buf i := by
  induction text generalizing buf count with
  | nil =>
      refine ⟨buf, ?_, fun k impossible => absurd impossible (Nat.not_lt_zero k), fun _ _ => rfl⟩
      exact congrArg (Sink.mk (some buf) console size) (UInt32.add_zero count).symm
  | cons c rest known =>
      rw [List.length_cons] at short
      have next : (count + 1).toNat = count.toNat + 1 := by
        rw [UInt32.toNat_add]
        exact Nat.mod_eq_of_lt (by change count.toNat + 1 < 2 ^ 32; omega)
      rcases known (if count + 1 < size then Function.update buf count.toNat c else buf)
        (show (count + 1).toNat + rest.length < 2 ^ 32 by omega) with ⟨buf', written, taken, kept⟩
      refine ⟨buf', ?_, ?_, ?_⟩
      · have total : count + UInt32.ofNat (rest.length + 1) =
            count + 1 + UInt32.ofNat rest.length := by
          rw [UInt32.ofNat_add, UInt32.add_assoc, UInt32.add_comm (UInt32.ofNat rest.length)]
          rfl
        rw [List.length_cons, total, ← written]
        rfl
      · intro k inside room
        cases k with
        | zero =>
            have fits : count + 1 < size := by
              rw [UInt32.lt_iff_toNat_lt, next]
              exact room
            rw [Nat.add_zero, kept _ (Or.inl (by omega)), if_pos fits, Function.update_self]
            rfl
        | succ k =>
            have behind := taken k (Nat.lt_of_succ_lt_succ inside) (by omega)
            rw [next] at behind
            have place : count.toNat + (k + 1) = count.toNat + 1 + k := by omega
            rw [place, behind]
            rfl
      · intro i outside
        rw [List.length_cons] at outside
        by_cases fits : count + 1 < size
        · have room := UInt32.lt_iff_toNat_lt.mp fits
          rw [next] at room
          have other : i ≠ count.toNat := by omega
          rw [kept i (by omega), if_pos fits, Function.update_of_ne other]
        · rw [kept i (by omega), if_neg fits]

theorem puts_count (s : Sink) (text : List UInt8) :
    (s.puts text).count = s.count + UInt32.ofNat text.length := by
  induction text generalizing s with
  | nil => exact (UInt32.add_zero s.count).symm
  | cons c rest known =>
      have one : (s.putc c).count = s.count + 1 := by
        unfold putc
        split <;> rfl
      have total : s.count + UInt32.ofNat (rest.length + 1) =
          s.count + 1 + UInt32.ofNat rest.length := by
        rw [UInt32.ofNat_add, UInt32.add_assoc, UInt32.add_comm (UInt32.ofNat rest.length)]
        rfl
      rw [List.length_cons, total, ← one]
      exact known (s.putc c)

end Sink

/-- A format that has its arguments writes the same text to every sink. -/
theorem rendering_some {fmt : List UInt8} {args : List FormatArg} {text : List UInt8} :
    rendering fmt args = some text ↔ ∀ s : Sink, s.format fmt args = some (s.puts text) := by
  rcases Sink.format_puts fmt args with ⟨result, written⟩
  constructor
  · intro rendered s
    rw [rendering, written] at rendered
    cases result with
    | none => cases rendered
    | some text' =>
        have same : text' = text := by
          rw [Option.map_some, Option.map_some, Sink.puts_console] at rendered
          exact Option.some_inj.mp rendered
        rw [written, same]
        rfl
  · intro all
    rw [rendering, all, Option.map_some, Sink.puts_console]
    rfl

/-! ## Buffers -/

/-- The buffer holds the beginning of a text and its end, and nothing outside it is written. -/
structure Truncates (buf buf' : Nat → UInt8) (size : UInt32) (text : List UInt8) : Prop where
  outside : ∀ i, size.toNat ≤ i → buf' i = buf i
  front : ∀ k (inside : k < text.length), k < size.toNat - 1 → buf' k = text.get ⟨k, inside⟩
  ended : 0 < size → buf' (min (size.toNat - 1) text.length) = 0

/-- `vsnprintf` truncates a text of fewer than 2^32 characters, and what it returns is the number
of characters if that is an `int`. -/
theorem vsnprintf_truncates (buf : Nat → UInt8) (size : UInt32) (fmt : List UInt8)
    (args : List FormatArg) (text : List UInt8) (rendered : rendering fmt args = some text) :
    ∃ buf' returned, vsnprintf buf size fmt args = some (buf', returned) ∧
      (text.length < 2 ^ 32 → Truncates buf buf' size text) ∧
      (returned = text.length ↔ text.length < 2 ^ 31) := by
  have written := rendering_some.mp rendered ⟨some buf, [], size, 0⟩
  have count := Sink.puts_count ⟨some buf, [], size, 0⟩ text
  rw [UInt32.zero_add] at count
  unfold vsnprintf
  rw [written, Option.map_some]
  refine ⟨_, _, rfl, ?_, ?_⟩
  · intro short
    have zero : (0 : UInt32).toNat = 0 := rfl
    rcases Sink.puts_buffer buf [] size (show (0 : UInt32).toNat + text.length < 2 ^ 32 by omega)
      with ⟨buf', state, taken, kept⟩
    rw [count, state]
    dsimp only
    rw [Option.getD_some]
    have number : (UInt32.ofNat text.length).toNat = text.length := by
      rw [UInt32.toNat_ofNat', Nat.mod_eq_of_lt short]
    by_cases some' : 0 < size
    · have positive := UInt32.lt_iff_toNat_lt.mp some'
      have last : (if UInt32.ofNat text.length < size then UInt32.ofNat text.length
          else size - 1).toNat = min (size.toNat - 1) text.length := by
        have one : (size - 1).toNat = size.toNat - 1 :=
          UInt32.toNat_sub_of_le size 1 (UInt32.le_iff_toNat_le.mpr positive)
        by_cases fits : UInt32.ofNat text.length < size
        · have less := UInt32.lt_iff_toNat_lt.mp fits
          rw [if_pos fits, number]
          omega
        · have more := UInt32.le_iff_toNat_le.mp (UInt32.not_lt.mp fits)
          rw [if_neg fits, one]
          omega
      rw [if_pos some', last]
      rw [zero] at positive taken kept
      constructor
      case outside =>
        intro i outside
        rw [Function.update_of_ne (by omega), kept i (by omega)]
      case front =>
        intro k inside room
        rw [Function.update_of_ne (by omega)]
        have char := taken k inside (by omega)
        rw [Nat.zero_add] at char
        exact char
      case ended =>
        intro _
        rw [Function.update_self]
    · have empty : size.toNat = 0 := by
        have small := UInt32.le_iff_toNat_le.mp (UInt32.not_lt.mp some')
        exact Nat.le_zero.mp small
      rw [if_neg some']
      constructor
      case outside =>
        intro i outside
        exact kept i (Or.inr (Or.inr (by omega)))
      case front =>
        intro k _ room
        omega
      case ended =>
        intro positive
        exact absurd positive some'
  · rw [count]
    have number : (UInt32.ofNat text.length).toBitVec.toNat = text.length % 2 ^ 32 :=
      UInt32.toNat_ofNat'
    rw [BitVec.toInt_eq_toNat_cond, number]
    split <;> omega

theorem rendering_nil (args : List FormatArg) : rendering [] args = some [] := by
  rw [rendering, Sink.format]
  rfl

theorem rendering_directive (v : UInt32) {rest behind : List UInt8} {args : List FormatArg}
    {d : Directive} {text : List UInt8} (scanned : scanDirective rest = (d, 100 :: behind))
    (rendered : rendering behind args = some text) :
    rendering (37 :: rest) (.word v :: args) =
      some (paddedText (itoa v 10) d.width d.left d.pad ++ text) := by
  rw [rendering_some] at rendered ⊢
  intro s
  rw [Sink.format_directive s _ scanned]
  change (s.emitPadded (itoa v 10) d.width d.left d.pad).format behind args = _
  rw [rendered, Sink.emitPadded_puts, Sink.puts_append]

theorem padFill_eq {width : Int} {length : Nat} (low : -(2 ^ 31) ≤ width - length)
    (high : width < 2 ^ 31) : Sink.padFill width length = (width - length).toNat := by
  rw [Sink.padFill, Int.bmod_eq_of_le (by omega) (by omega)]

theorem le_paddedText_length (str : List UInt8) {width : Int} (high : width < 2 ^ 31) (left : Bool)
    (pad : UInt8) : width ≤ (paddedText str width left pad).length := by
  have long : (paddedText str width left pad).length =
      str.length + Sink.padFill width str.length := by
    unfold paddedText
    cases left with
    | true =>
        dsimp only
        rw [if_pos rfl, List.length_append, List.length_replicate]
    | false =>
        dsimp only
        rw [if_neg Bool.false_ne_true, List.length_append, List.length_replicate, Nat.add_comm]
  rw [long]
  by_cases short : width ≤ str.length
  · omega
  · rw [padFill_eq (by omega) high]
    omega

def wideZero (width : Int) : List UInt8 := paddedText (itoa 0 10) width false 32

theorem wideZero_length {width : Int} (low : 0 ≤ width) (high : width < 2 ^ 31) :
    (wideZero width).length = max 1 width.toNat := by
  have one : (itoa 0 10).length = 1 := rfl
  rw [wideZero, paddedText, if_neg Bool.false_ne_true, List.length_append, List.length_replicate, one,
    padFill_eq (by omega) high]
  omega

theorem rendering_zero : rendering (literal "%d") [.word 0] = some (wideZero 0) := by
  have scanned : scanDirective (literal "d") = (⟨false, 32, 0⟩, [100]) := by decide +kernel
  have rendered := rendering_directive 0 scanned (rendering_nil [])
  rw [List.append_nil] at rendered
  exact rendered

theorem rendering_wide {fmt text : List UInt8} {args : List FormatArg}
    (rendered : rendering fmt args = some text) :
    rendering (literal "%2147483647d" ++ fmt) (.word 0 :: args) =
      some (wideZero 2147483647 ++ text) := by
  have scanned : scanDirective (literal "2147483647d" ++ fmt) =
      (⟨false, 32, 2147483647⟩, 100 :: fmt) := rfl
  exact rendering_directive 0 scanned rendered

/-- A text of 2^31 characters has a length that is not returned, and one of 2^32 characters has a
character that is written far behind the buffer. -/
theorem vsnprintf_overflows :
    (∃ text, rendering (literal "%2147483647d%d") [.word 0, .word 0] = some text ∧
      ¬∃ buf' returned, vsnprintf (fun _ => 0) 0 (literal "%2147483647d%d") [.word 0, .word 0] =
        some (buf', returned) ∧ returned = text.length) ∧
    ∃ text, rendering (literal "%2147483647d%2147483647d%d%d")
        [.word 0, .word 0, .word 0, .word 0] = some text ∧
      ¬∃ buf' returned, vsnprintf (fun _ => 0) 2 (literal "%2147483647d%2147483647d%d%d")
        [.word 0, .word 0, .word 0, .word 0] = some (buf', returned) ∧
          Truncates (fun _ => 0) buf' 2 text := by
  have long : (wideZero 2147483647).length = 2147483647 := wideZero_length (by decide) (by decide)
  have one : (wideZero 0).length = 1 := wideZero_length (by decide) (by decide)
  constructor
  · refine ⟨_, rendering_wide rendering_zero, ?_⟩
    rintro ⟨buf', returned, result, same⟩
    have written := rendering_some.mp (rendering_wide rendering_zero) ⟨some fun _ => 0, [], 0, 0⟩
    have count := Sink.puts_count ⟨some fun _ => 0, [], 0, 0⟩ (wideZero 2147483647 ++ wideZero 0)
    rw [List.length_append, long, one] at count same
    unfold vsnprintf at result
    change (Sink.format _ (literal "%2147483647d" ++ literal "%d") _).map _ = _ at result
    rw [written, Option.map_some, count] at result
    have minus := congrArg Prod.snd (Option.some_inj.mp result)
    dsimp only at minus
    rw [same] at minus
    exact absurd minus (by decide)
  · have last : rendering (literal "%d%d") [.word 0, .word 0] = some (wideZero 0 ++ wideZero 0) := by
      have scanned : scanDirective (literal "d%d") = (⟨false, 32, 0⟩, 100 :: literal "%d") := by
        decide +kernel
      exact rendering_directive 0 scanned rendering_zero
    have rendered := rendering_wide (rendering_wide last)
    refine ⟨_, rendered, ?_⟩
    rintro ⟨buf', returned, result, truncates⟩
    have written := rendering_some.mp rendered ⟨some fun _ => 0, [], 2, 0⟩
    have split : wideZero 2147483647 ++ (wideZero 2147483647 ++ (wideZero 0 ++ wideZero 0)) =
        wideZero 2147483647 ++ wideZero 2147483647 ++ wideZero 0 ++ [48] := by
      rw [List.append_assoc, List.append_assoc]
      rfl
    have front : (wideZero 2147483647 ++ wideZero 2147483647 ++ wideZero 0).length =
        4294967295 := by
      rw [List.length_append, List.length_append, long, one]
    have short : (0 : UInt32).toNat +
        (wideZero 2147483647 ++ wideZero 2147483647 ++ wideZero 0).length < 2 ^ 32 := by
      rw [front]
      decide
    rcases Sink.puts_buffer (fun _ => 0) [] 2 short with ⟨before, state, _, _⟩
    rw [front] at state
    have behind : (⟨some before, [], 2, 0 + UInt32.ofNat 4294967295⟩ : Sink).puts [48] =
        ⟨some (Function.update before 4294967295 48), [], 2, 0⟩ := by
      have wraps : (0 : UInt32) + UInt32.ofNat 4294967295 + 1 = 0 := by decide
      have place : ((0 : UInt32) + UInt32.ofNat 4294967295).toNat = 4294967295 := by decide
      rw [Sink.puts, List.foldl_cons, List.foldl_nil, Sink.putc_buffer, wraps, place, if_pos (by decide)]
    unfold vsnprintf at result
    change (Sink.format _ (literal "%2147483647d" ++ (literal "%2147483647d" ++ literal "%d%d"))
      _).map _ = _ at result
    rw [written, split, Sink.puts_append, state, behind, Option.map_some] at result
    have memory := congrArg Prod.fst (Option.some_inj.mp result)
    dsimp only at memory
    rw [if_pos (by decide), if_pos (by decide), Option.getD_some] at memory
    have outside := truncates.outside 4294967295 (by decide)
    rw [← memory] at outside
    rw [Function.update_of_ne (by decide), Function.update_self] at outside
    exact absurd outside (by decide)

theorem vsnprintf_truncates_percent : ∃ buf' returned,
    vsnprintf (fun _ => 1) 3 (literal "a%%b") [] = some (buf', returned) ∧
      ((literal "a%b").length < 2 ^ 32 → Truncates (fun _ => 1) buf' 3 (literal "a%b")) ∧
      (returned = (literal "a%b").length ↔ (literal "a%b").length < 2 ^ 31) := by
  have scanned : scanDirective (literal "%b") = (⟨false, 32, 0⟩, 37 :: literal "b") := by
    decide +kernel
  have rendered : rendering (literal "a%%b") [] = some (literal "a%b") := by
    rw [rendering_some]
    intro s
    change s.format (97 :: 37 :: literal "%b") [] = _
    rw [Sink.format_plain _ _ _ (by decide), Sink.format_directive _ _ scanned]
    change ((s.putc 97).putc 37).format [98] [] = _
    rw [Sink.format_plain _ _ _ (by decide), Sink.format]
    rfl
  exact vsnprintf_truncates (fun _ => 1) 3 (literal "a%%b") [] (literal "a%b") rendered

end Trinux
