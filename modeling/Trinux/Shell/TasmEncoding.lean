import Trinux.Shell.Tasm
import Mathlib.Tactic.SplitIfs

namespace Trinux

/-!
# What the assembler's lines mean

The meaning of a line is given without the encoder: a mnemonic takes a number of operands, each a
register, a number or a name, and a number has a value that the field of the instruction holds.
The bytes of an accepted line decode to that instruction exactly when the line is one of these, no
negative number is hexadecimal, and the code buffer and the table of references have room.
-/

namespace Tasm

open Bytes Ia32

/-! ## Meaning -/

def digitsValue (base : Nat) (value : UInt8 → Nat) (digits : List UInt8) : Nat :=
  digits.foldl (fun total c => total * base + value c) 0

def decimalDigit (c : UInt8) : Nat := c.toNat - 0x30

def hexValue (c : UInt8) : Nat := ((hexDigit c).getD 0).toNat

def unsignedValue (s : List UInt8) : Option Nat :=
  if s.take 2 = literal "0x" then
    if s.drop 2 ≠ [] ∧ (s.drop 2).all (fun c => (hexDigit c).isSome) then
      some (digitsValue 16 hexValue (s.drop 2))
    else none
  else if s ≠ [] ∧ s.all isDigit then some (digitsValue 10 decimalDigit s)
  else none

def numberValue (s : List UInt8) : Option Int :=
  if s.take 1 = literal "-" then (unsignedValue (s.drop 1)).map fun n : Nat => -(n : Int)
  else (unsignedValue s).map fun n : Nat => (n : Int)

def NegativeHex (s : List UInt8) : Prop := s.take 3 = literal "-0x"

instance (s : List UInt8) : Decidable (NegativeHex s) := by
  unfold NegativeHex
  infer_instance

inductive Word where
  | reg (r : Reg)
  | number (value : Int)
  | name (text : List UInt8)
  | other
  deriving DecidableEq

def isName (s : List UInt8) : Bool :=
  match s with
  | [] => false
  | c :: _ => !isDigit c && c != 0x2D && c != 0x22

def readWord (s : List UInt8) : Word :=
  match parseReg s with
  | some r => .reg r
  | none =>
      match numberValue s with
      | some value => .number value
      | none => if isName s then .name s else .other

def Fits (value : Int) : Prop := -2147483648 ≤ value ∧ value < 4294967296

instance (value : Int) : Decidable (Fits value) := by
  unfold Fits
  infer_instance

def wordOf (value : Int) : UInt32 := UInt32.ofNat (value % 4294967296).toNat

inductive Mnemonic where
  | nop | ret | hlt | int | push | pop | inc | dec | mov
  | alu (op : Alu)
  | jmp | call | je | jne
  deriving DecidableEq

def mnemonic (op : List UInt8) : Option Mnemonic :=
  if op = literal "nop" then some .nop else if op = literal "ret" then some .ret
  else if op = literal "hlt" then some .hlt else if op = literal "int" then some .int
  else if op = literal "push" then some .push else if op = literal "pop" then some .pop
  else if op = literal "inc" then some .inc else if op = literal "dec" then some .dec
  else if op = literal "mov" then some .mov else if op = literal "jmp" then some .jmp
  else if op = literal "call" then some .call
  else if op = literal "je" ∨ op = literal "jz" then some .je
  else if op = literal "jne" ∨ op = literal "jnz" then some .jne
  else (alus.find? fun entry => entry.1 == op).map fun entry => .alu entry.2

/-- The instruction of a mnemonic and its operands, with the name whose address its last operand
is; the field is zero until the name is resolved. -/
def meant (m : Mnemonic) (words : List Word) : Option (Instr × Option (List UInt8)) :=
  match words with
  | [] =>
      match m with
      | .nop => some (.nop, none)
      | .ret => some (.ret, none)
      | .hlt => some (.hlt, none)
      | _ => none
  | [.reg r] =>
      match m with
      | .push => some (.push (.reg r), none)
      | .pop => some (.pop r, none)
      | .inc => some (.inc (.reg r), none)
      | .dec => some (.dec (.reg r), none)
      | _ => none
  | [.number value] =>
      match m with
      | .int => if 0 ≤ value ∧ value < 256 then some (.int (wordOf value).toUInt8, none) else none
      | .push => if Fits value then some (.push (.imm (wordOf value)), none) else none
      | _ => none
  | [.name text] =>
      match m with
      | .jmp => some (.jmp 0, some text)
      | .call => some (.call 0, some text)
      | .je => some (.jcc 4 0, some text)
      | .jne => some (.jcc 5 0, some text)
      | _ => none
  | [.reg dst, .reg src] =>
      match m with
      | .mov => some (.mov .full (.reg dst) (.reg src), none)
      | .alu op => some (.alu op .full (.reg dst) (.reg src), none)
      | _ => none
  | [.reg dst, .number value] =>
      match m with
      | .mov => if Fits value then some (.mov .full (.reg dst) (.imm (wordOf value)), none) else none
      | .alu op =>
          if Fits value then some (.alu op .full (.reg dst) (.imm (wordOf value)), none) else none
      | _ => none
  | [.reg dst, .name text] =>
      match m with
      | .mov => some (.mov .full (.reg dst) (.imm 0), some text)
      | _ => none
  | _ => none

/-! ## Numbers -/

theorem uint32_ofNat_step (total base digit : Nat) :
    UInt32.ofNat total * UInt32.ofNat base + UInt32.ofNat digit =
      UInt32.ofNat (total * base + digit) := by
  rw [UInt32.ofNat_add, UInt32.ofNat_mul]

theorem atoiFrom_digits (digits : List UInt8) (every : digits.all isDigit) :
    ∀ total : Nat, atoiFrom (UInt32.ofNat total) digits =
      UInt32.ofNat (digits.foldl (fun total c => total * 10 + decimalDigit c) total) := by
  induction digits with
  | nil => intro total; rfl
  | cons c rest rest_ih =>
      intro total
      rw [List.all_cons, Bool.and_eq_true] at every
      rw [atoiFrom, if_pos every.1, List.foldl_cons, ← rest_ih every.2]
      congr 1
      exact uint32_ofNat_step total 10 _

theorem parseHexFrom_digits (digits : List UInt8)
    (every : digits.all fun c => (hexDigit c).isSome) :
    ∀ total : Nat, parseHexFrom (UInt32.ofNat total) digits =
      UInt32.ofNat (digits.foldl (fun total c => total * 16 + hexValue c) total) := by
  induction digits with
  | nil => intro total; rfl
  | cons c rest rest_ih =>
      intro total
      rw [List.all_cons, Bool.and_eq_true, Option.isSome_iff_exists] at every
      cases every with
      | intro first others =>
          cases first with
          | intro digit found =>
              rw [parseHexFrom, found, List.foldl_cons, ← rest_ih others]
              rw [← uint32_ofNat_step, hexValue, found, Option.getD_some, UInt32.ofNat_toNat]
              rfl

theorem not_space_of_digit {c : UInt8} (digit : isDigit c) : isSpace c = false := by
  simp only [isDigit, decide_eq_true_eq] at digit
  simp only [isSpace, decide_eq_false_iff_not]
  have low := UInt8.le_iff_toNat_le.mp digit.1
  rintro (rfl | rfl | rfl | rfl | rfl | rfl) <;> revert low <;> decide

theorem atoi_digits {s : List UInt8} (some' : s ≠ []) (every : s.all isDigit) :
    atoi s = UInt32.ofNat (digitsValue 10 decimalDigit s) := by
  cases s with
  | nil => exact absurd rfl some'
  | cons c rest =>
      have digit : isDigit c := by
        rw [List.all_cons, Bool.and_eq_true] at every
        exact every.1
      have minus : c ≠ 0x2D := by
        rintro rfl
        exact absurd digit (by decide)
      have plus : c ≠ 0x2B := by
        rintro rfl
        exact absurd digit (by decide)
      rw [atoi, List.dropWhile_cons_of_neg (by simp [not_space_of_digit digit])]
      dsimp only
      rw [if_neg minus, if_neg plus]
      exact atoiFrom_digits (c :: rest) every 0

theorem parseImm_unsigned {s : List UInt8} {n : Nat} (value : unsignedValue s = some n) :
    parseImm s = UInt32.ofNat n := by
  unfold unsignedValue at value
  unfold parseImm
  split_ifs at value ⊢ with hex shape shape
  · cases value
    exact parseHexFrom_digits _ shape.2 0
  · cases value
    exact atoi_digits shape.1 shape.2

theorem wordOf_natCast (n : Nat) : wordOf (n : Int) = UInt32.ofNat n := by
  rw [wordOf]
  apply UInt32.toNat_inj.mp
  rw [UInt32.toNat_ofNat', UInt32.toNat_ofNat']
  omega

theorem wordOf_neg (n : Nat) : wordOf (-(n : Int)) = 0 - UInt32.ofNat n := by
  rw [wordOf]
  apply UInt32.toNat_inj.mp
  rw [UInt32.toNat_ofNat', UInt32.toNat_sub, UInt32.toNat_ofNat']
  simp only [UInt32.toNat_zero]
  omega

/-- The assembler reads a number as its value unless it is negative and hexadecimal: there it
reads zero. -/
theorem parseImm_number {s : List UInt8} {value : Int} (number : numberValue s = some value) :
    parseImm s = if NegativeHex s then 0 else wordOf value := by
  unfold numberValue at number
  split_ifs at number with minus
  · cases s with
    | nil => exact absurd minus (by decide)
    | cons c rest =>
        obtain rfl : c = 0x2D := by simpa [literal] using minus
        rw [List.drop_one, List.tail_cons, Option.map_eq_some_iff] at number
        cases number with
        | intro n found =>
            have signed : parseImm (0x2D :: rest) = 0 - atoiFrom 0 rest := rfl
            have negative : NegativeHex (0x2D :: rest) ↔ rest.take 2 = literal "0x" := by
              rw [NegativeHex, List.take_succ_cons]
              constructor
              · intro same
                exact (List.cons.inj same).2
              · intro same
                rw [same]
                rfl
            rw [signed, ← found.2]
            have unsigned := found.1
            unfold unsignedValue at unsigned
            split_ifs at unsigned with hex shape shape
            · rw [if_pos (negative.mpr hex)]
              match rest, hex with
              | a :: b :: more, hex =>
                  obtain ⟨rfl, rfl⟩ : a = 0x30 ∧ b = 0x78 := by simpa [literal] using hex
                  rw [atoiFrom, if_pos (by decide), atoiFrom, if_neg (by decide)]
                  rfl
            · cases unsigned
              rw [if_neg fun hex' => hex (negative.mp hex'), wordOf_neg]
              exact congrArg (0 - ·) (atoiFrom_digits rest shape.2 0)
  · rw [Option.map_eq_some_iff] at number
    cases number with
    | intro n found =>
        have positive : ¬ NegativeHex s := by
          intro hex
          apply minus
          have short := congrArg (List.take 1) hex
          rw [List.take_take] at short
          exact short
        rw [if_neg positive, ← found.2, wordOf_natCast]
        exact parseImm_unsigned found.1

theorem wordOf_eq_zero {value : Int} (fits : Fits value) (zero : wordOf value = 0) : value = 0 := by
  have same := congrArg UInt32.toNat zero
  rw [wordOf, UInt32.toNat_ofNat'] at same
  simp only [Fits] at fits
  simp only [UInt32.toNat_zero] at same
  omega

/-- A number is read right unless it is a negative hexadecimal one that is not zero. -/
theorem parseImm_right {s : List UInt8} {value : Int} (number : numberValue s = some value)
    (fits : Fits value) : parseImm s = wordOf value ↔ NegativeHex s → value = 0 := by
  rw [parseImm_number number]
  by_cases hex : NegativeHex s
  · rw [if_pos hex]
    constructor
    · intro zero _
      exact wordOf_eq_zero fits zero.symm
    · intro zero
      rw [zero hex]
      rfl
  · rw [if_neg hex]
    exact iff_of_true rfl fun hex' => absurd hex' hex

/-! ## What the encoder can do -/

/-- The bytes of a line, case by case; a reference has the offset of its word, its name and whether
it is relative. -/
inductive Encodes : Mnemonic → List (List UInt8) → List UInt8 →
    Option (Nat × List UInt8 × Bool) → Prop where
  | nop (args) : Encodes .nop args [0x90] none
  | ret (args) : Encodes .ret args [0xC3] none
  | hlt (args) : Encodes .hlt args [0xF4] none
  | int (w more) : Encodes .int (w :: more) [0xCD, (parseImm w).toUInt8] none
  | pushReg (w more) (r : Reg) (reg : parseReg w = some r) :
      Encodes .push (w :: more) [UInt8.ofNat (0x50 + r.code)] none
  | pushImm (w more) (noReg : parseReg w = none) (number : isNumber w) :
      Encodes .push (w :: more) (0x68 :: le32 (parseImm w)) none
  | pop (w more) (r : Reg) (reg : parseReg w = some r) :
      Encodes .pop (w :: more) [UInt8.ofNat (0x58 + r.code)] none
  | inc (w more) (r : Reg) (reg : parseReg w = some r) :
      Encodes .inc (w :: more) [UInt8.ofNat (0x40 + r.code)] none
  | dec (w more) (r : Reg) (reg : parseReg w = some r) :
      Encodes .dec (w :: more) [UInt8.ofNat (0x48 + r.code)] none
  | movReg (w v more) (dst src : Reg) (first : parseReg w = some dst)
      (second : parseReg v = some src) :
      Encodes .mov (w :: v :: more) [0x89, UInt8.ofNat (0xC0 + 8 * src.code + dst.code)] none
  | movImm (w v more) (dst : Reg) (first : parseReg w = some dst) (noReg : parseReg v = none)
      (number : isNumber v) :
      Encodes .mov (w :: v :: more) (UInt8.ofNat (0xB8 + dst.code) :: le32 (parseImm v)) none
  | movName (w v more) (dst : Reg) (first : parseReg w = some dst) (noReg : parseReg v = none)
      (noNumber : isNumber v = false) :
      Encodes .mov (w :: v :: more) (UInt8.ofNat (0xB8 + dst.code) :: le32 0) (some (1, v, false))
  | aluReg (op w v more) (dst src : Reg) (first : parseReg w = some dst)
      (second : parseReg v = some src) :
      Encodes (.alu op) (w :: v :: more)
        [UInt8.ofNat (0x01 + 8 * op.code), UInt8.ofNat (0xC0 + 8 * src.code + dst.code)] none
  | aluEax (op w v more) (first : parseReg w = some .eax) (noReg : parseReg v = none)
      (number : isNumber v) :
      Encodes (.alu op) (w :: v :: more)
        (UInt8.ofNat (0x05 + 8 * op.code) :: le32 (parseImm v)) none
  | aluImm (op w v more) (dst : Reg) (first : parseReg w = some dst) (other : dst ≠ .eax)
      (noReg : parseReg v = none) (number : isNumber v) :
      Encodes (.alu op) (w :: v :: more)
        (0x81 :: UInt8.ofNat (0xC0 + 8 * op.code + dst.code) :: le32 (parseImm v)) none
  | jmp (w more) : Encodes .jmp (w :: more) (0xE9 :: le32 0) (some (1, w, true))
  | call (w more) : Encodes .call (w :: more) (0xE8 :: le32 0) (some (1, w, true))
  | je (w more) : Encodes .je (w :: more) (0x0F :: 0x84 :: le32 0) (some (2, w, true))
  | jne (w more) : Encodes .jne (w :: more) (0x0F :: 0x85 :: le32 0) (some (2, w, true))

theorem operand_of_length {args : List (List UInt8)} (some_ : 1 ≤ args.length) :
    ∃ w more, args = w :: more :=
  List.exists_cons_of_length_pos some_

/-- The instructions that take a register for their first operand. -/
theorem operand_register {args : List (List UInt8)} {α β : Type} {read : List UInt8 → Option α}
    {code : α → β} {result : β} (some_ : 1 ≤ args.length)
    (taken : (read (args.headD [])).map code = some result) :
    ∃ w more r, args = w :: more ∧ read w = some r ∧ code r = result := by
  rcases operand_of_length some_ with ⟨w, more, rfl⟩
  rcases Option.map_eq_some_iff.mp taken with ⟨r, isReg, same⟩
  exact ⟨w, more, r, rfl, isReg, same⟩

/-- Every line that is taken and is not `db` is one of the cases. -/
theorem encodes_of_encodeParts {op : List UInt8} {args : List (List UInt8)} {bytes : List UInt8}
    {ref : Option (Nat × List UInt8 × Bool)} (notData : op ≠ literal "db")
    (taken : encodeParts op args = some (bytes, ref)) :
    ∃ m, mnemonic op = some m ∧ Encodes m args bytes ref := by
  unfold encodeParts at taken
  dsimp only at taken
  rw [if_neg notData] at taken
  by_cases isNop : op = literal "nop"
  · rw [if_pos isNop] at taken
    cases taken
    rw [isNop]
    exact ⟨.nop, rfl, .nop args⟩
  rw [if_neg isNop] at taken
  by_cases isRet : op = literal "ret"
  · rw [if_pos isRet] at taken
    cases taken
    rw [isRet]
    exact ⟨.ret, rfl, .ret args⟩
  rw [if_neg isRet] at taken
  by_cases isHlt : op = literal "hlt"
  · rw [if_pos isHlt] at taken
    cases taken
    rw [isHlt]
    exact ⟨.hlt, rfl, .hlt args⟩
  rw [if_neg isHlt] at taken
  by_cases isInt : op = literal "int" ∧ 1 ≤ args.length
  · rw [if_pos isInt] at taken
    rw [isInt.1]
    cases taken
    rcases operand_of_length isInt.2 with ⟨w, more, rfl⟩
    exact ⟨.int, rfl, .int w more⟩
  rw [if_neg isInt] at taken
  by_cases isPush : op = literal "push" ∧ 1 ≤ args.length ∧ (parseReg (args.headD [])).isSome
  · rw [if_pos isPush] at taken
    rcases operand_register isPush.2.1 taken with ⟨w, more, r, rfl, isReg, same⟩
    cases same
    rw [isPush.1]
    exact ⟨.push, rfl, .pushReg w more r isReg⟩
  rw [if_neg isPush] at taken
  by_cases isPushImm : op = literal "push" ∧ 1 ≤ args.length ∧ isNumber (args.headD [])
  · rw [if_pos isPushImm] at taken
    have noReg : parseReg (args.headD []) = none := by
      apply Option.not_isSome_iff_eq_none.mp
      intro reg
      exact isPush ⟨isPushImm.1, isPushImm.2.1, reg⟩
    rw [isPushImm.1]
    cases taken
    rcases operand_of_length isPushImm.2.1 with ⟨w, more, rfl⟩
    exact ⟨.push, rfl, .pushImm w more noReg isPushImm.2.2⟩
  rw [if_neg isPushImm] at taken
  by_cases isPop : op = literal "pop" ∧ 1 ≤ args.length ∧ (parseReg (args.headD [])).isSome
  · rw [if_pos isPop] at taken
    rcases operand_register isPop.2.1 taken with ⟨w, more, r, rfl, isReg, same⟩
    cases same
    rw [isPop.1]
    exact ⟨.pop, rfl, .pop w more r isReg⟩
  rw [if_neg isPop] at taken
  by_cases isInc : op = literal "inc" ∧ 1 ≤ args.length ∧ (parseReg (args.headD [])).isSome
  · rw [if_pos isInc] at taken
    rcases operand_register isInc.2.1 taken with ⟨w, more, r, rfl, isReg, same⟩
    cases same
    rw [isInc.1]
    exact ⟨.inc, rfl, .inc w more r isReg⟩
  rw [if_neg isInc] at taken
  by_cases isDec : op = literal "dec" ∧ 1 ≤ args.length ∧ (parseReg (args.headD [])).isSome
  · rw [if_pos isDec] at taken
    rcases operand_register isDec.2.1 taken with ⟨w, more, r, rfl, isReg, same⟩
    cases same
    rw [isDec.1]
    exact ⟨.dec, rfl, .dec w more r isReg⟩
  rw [if_neg isDec] at taken
  by_cases isMov : op = literal "mov" ∧ 2 ≤ args.length ∧ (parseReg (args.headD [])).isSome
  · rw [if_pos isMov, Option.map_eq_some_iff] at taken
    rw [isMov.1]
    match args, isMov.2.1 with
    | w :: v :: more, _ =>
        cases taken with
        | intro dst found =>
            refine ⟨.mov, rfl, ?_⟩
            have second := found.2
            split at second
            · rename_i src isReg
              cases second
              exact .movReg w v more dst src found.1 isReg
            · rename_i noReg
              split at second
              · rename_i number
                cases second
                exact .movImm w v more dst found.1 noReg number
              · rename_i noNumber
                cases second
                exact .movName w v more dst found.1 noReg (by simpa using noNumber)
  rw [if_neg isMov] at taken
  split at taken
  · rename_i name alu entry
    split at entry
    · rename_i two
      have isOp := List.find?_some entry
      have listed := List.mem_of_find?_eq_some entry
      have meaning : mnemonic op = some (.alu alu) := by
        obtain rfl := eq_of_beq isOp
        simp only [alus, List.mem_cons, List.not_mem_nil, or_false, Prod.mk.injEq] at listed
        rcases listed with h | h | h | h | h | h <;> rw [h.1, h.2] <;> rfl
      refine ⟨_, meaning, ?_⟩
      match args, two with
      | w :: v :: more, _ =>
          split at taken
          · rename_i dst src first second
            cases taken
            exact .aluReg alu w v more dst src first second
          · rename_i dst first second
            split_ifs at taken with number isEax
            · cases taken
              rw [isEax] at first
              exact .aluEax alu w v more first second number
            · cases taken
              exact .aluImm alu w v more dst first isEax second number
          · cases taken
    · cases entry
  · clear isNop isRet isHlt isInt isPush isPushImm isPop isInc isDec isMov
    split_ifs at taken with isJmp isCall isJe isJne
    · rw [isJmp.1]
      cases taken
      rcases operand_of_length isJmp.2 with ⟨w, more, rfl⟩
      exact ⟨.jmp, rfl, .jmp w more⟩
    · rw [isCall.1]
      cases taken
      rcases operand_of_length isCall.2 with ⟨w, more, rfl⟩
      exact ⟨.call, rfl, .call w more⟩
    · have meaning : mnemonic op = some .je := by
        rcases isJe.1 with same | same <;> rw [same] <;> rfl
      cases taken
      rcases operand_of_length isJe.2 with ⟨w, more, rfl⟩
      exact ⟨.je, meaning, .je w more⟩
    · have meaning : mnemonic op = some .jne := by
        rcases isJne.1 with same | same <;> rw [same] <;> rfl
      cases taken
      rcases operand_of_length isJne.2 with ⟨w, more, rfl⟩
      exact ⟨.jne, meaning, .jne w more⟩

/-! ## Which operands a mnemonic takes -/

def arity : Mnemonic → Nat
  | .nop | .ret | .hlt => 0
  | .mov | .alu _ => 2
  | _ => 1

def Mnemonic.jumps : Mnemonic → Bool
  | .jmp | .call | .je | .jne => true
  | _ => false

/-- An operand that a mnemonic takes: a number is in range and not both hexadecimal and negative,
a jump goes to a name, an interrupt has a number, and a name stands only in `mov` and the jumps. -/
def Suits (m : Mnemonic) (w : List UInt8) : Prop :=
  match readWord w with
  | .reg _ => m ≠ .int ∧ m.jumps = false
  | .number value =>
      m.jumps = false ∧ Fits value ∧ (m = .int → 0 ≤ value ∧ value < 256) ∧
        (NegativeHex w → value = 0)
  | .name _ => m = .mov ∨ m.jumps
  | .other => False

def size (m : Mnemonic) (words : List Word) : Nat :=
  match m, words with
  | .nop, _ | .ret, _ | .hlt, _ | .pop, _ | .inc, _ | .dec, _ => 1
  | .int, _ => 2
  | .push, .reg _ :: _ => 1
  | .push, _ => 5
  | .mov, _ :: .reg _ :: _ | .alu _, _ :: .reg _ :: _ => 2
  | .mov, _ => 5
  | .alu _, .reg .eax :: _ => 5
  | .alu _, _ => 6
  | .jmp, _ | .call, _ => 5
  | .je, _ | .jne, _ => 6

theorem meant_count {m : Mnemonic} {words : List Word} {result : Instr × Option (List UInt8)}
    (meaning : meant m words = some result) : words.length = arity m := by
  unfold meant at meaning
  split at meaning <;> cases m <;> first | rfl | cases meaning

theorem readWord_reg {w : List UInt8} {r : Reg} (reg : parseReg w = some r) :
    readWord w = .reg r := by
  rw [readWord, reg]

theorem isNumber_of_unsigned {s : List UInt8} {n : Nat} (value : unsignedValue s = some n) :
    (if s.take 2 = literal "0x" then true else s.all isDigit) = true := by
  unfold unsignedValue at value
  split_ifs at value ⊢ with hex shape shape
  · rfl
  · exact shape.2

theorem isNumber_of_value {w : List UInt8} {value : Int} (number : numberValue w = some value) :
    isNumber w := by
  unfold numberValue at number
  cases w with
  | nil => cases number
  | cons c rest =>
      unfold isNumber
      dsimp only
      by_cases minus : c = 0x2D
      · rw [if_pos minus]
        rw [if_pos (by rw [minus]; rfl), Option.map_eq_some_iff] at number
        cases number with
        | intro n found => exact isNumber_of_unsigned found.1
      · rw [if_neg minus]
        rw [if_neg (by simpa [literal] using minus), Option.map_eq_some_iff] at number
        cases number with
        | intro n found => exact isNumber_of_unsigned found.1

theorem not_name_of_isNumber {w : List UInt8} (number : isNumber w) : isName w = false := by
  cases w with
  | nil => rfl
  | cons c rest =>
      by_cases minus : c = 0x2D
      · rw [minus]
        rfl
      · have digit : isDigit c := by
          unfold isNumber at number
          dsimp only at number
          rw [if_neg minus] at number
          split_ifs at number with hex
          · have same : c = 0x30 := by
              have := congrArg (List.take 1) hex
              simpa [literal] using this
            rw [same]
            rfl
          · rw [List.all_cons, Bool.and_eq_true] at number
            exact number.1
        simp [isName, digit]

/-- A word that the assembler takes for a number is one, or nothing. -/
theorem readWord_number {w : List UInt8} (noReg : parseReg w = none) (number : isNumber w) :
    (∃ value, numberValue w = some value ∧ readWord w = .number value) ∨ readWord w = .other := by
  rw [readWord, noReg]
  cases found : numberValue w with
  | some value => exact Or.inl ⟨value, rfl, rfl⟩
  | none =>
      right
      simp [not_name_of_isNumber number]

/-- A word that the assembler takes for a name is one, or nothing. -/
theorem readWord_name {w : List UInt8} (noReg : parseReg w = none) (noNumber : isNumber w = false) :
    readWord w = .name w ∨ readWord w = .other := by
  have none' : numberValue w = none := by
    apply Option.eq_none_iff_forall_not_mem.mpr
    intro value found
    exact absurd (isNumber_of_value found) (by simp [noNumber])
  rw [readWord, noReg, none']
  dsimp only
  split_ifs
  · exact Or.inl rfl
  · exact Or.inr rfl

theorem negative_of_negativeHex {w : List UInt8} {value : Int} (hex : NegativeHex w)
    (number : numberValue w = some value) : value ≤ 0 := by
  have minus : w.take 1 = literal "-" := by
    have := congrArg (List.take 1) hex
    rw [List.take_take] at this
    exact this
  rw [numberValue, if_pos minus, Option.map_eq_some_iff] at number
  cases number with
  | intro n found => rw [← found.2]; omega

/-- An instruction with a word of 32 bits is the one that is meant when the number is read right. -/
theorem imm_iff {w : List UInt8} {value : Int} (number : numberValue w = some value)
    {instr : UInt32 → Instr} (injective : ∀ u v, instr u = instr v → u = v)
    (name : Option (List UInt8)) :
    (if Fits value then some (instr (wordOf value), (none : Option (List UInt8))) else none) =
        some (instr (parseImm w), name) ↔
      (Fits value ∧ (NegativeHex w → value = 0)) ∧ name = none := by
  by_cases fits : Fits value
  · rw [if_pos fits, ← parseImm_right number fits, Option.some.injEq, Prod.mk.injEq]
    constructor
    · intro same
      exact ⟨⟨fits, (injective _ _ same.1).symm⟩, same.2.symm⟩
    · intro right
      exact ⟨congrArg instr right.1.2.symm, right.2.symm⟩
  · rw [if_neg fits]
    constructor
    · intro same
      cases same
    · intro right
      exact absurd right.1.1 fits

/-- What a case of the encoder gives is one instruction; with the right number of operands it is
the one that is meant exactly when the operands suit. -/
structure Encoded (m : Mnemonic) (args : List (List UInt8)) (bytes : List UInt8)
    (ref : Option (Nat × List UInt8 × Bool)) (instr : Instr) : Prop where
  whole : Whole bytes instr
  bytesSize : args.length = arity m → size m (args.map readWord) = bytes.length
  meaning : args.length = arity m → ∀ name,
    meant m (args.map readWord) = some (instr, name) ↔
      (∀ w ∈ args, Suits m w) ∧ name = ref.map fun r => r.2.1

theorem nil_of_length {w : List UInt8} {more : List (List UInt8)} (one : (w :: more).length = 1) :
    more = [] := List.eq_nil_of_length_eq_zero (by simpa using one)

theorem nil_of_length_two {w v : List UInt8} {more : List (List UInt8)}
    (two : (w :: v :: more).length = 2) : more = [] :=
  List.eq_nil_of_length_eq_zero (by simpa using two)

theorem encoded_plain {m : Mnemonic} (none' : arity m = 0) {args : List (List UInt8)}
    {bytes : List UInt8} {instr : Instr} (whole : Whole bytes instr)
    (takes : size m [] = bytes.length) (meaning : meant m [] = some (instr, none)) :
    Encoded m args bytes none instr := by
  constructor
  · exact whole
  · intro count
    obtain rfl := List.eq_nil_of_length_eq_zero (count.trans none')
    exact takes
  · intro count name
    obtain rfl := List.eq_nil_of_length_eq_zero (count.trans none')
    rw [List.map_nil, meaning]
    simp [eq_comm]

theorem encoded_register {m : Mnemonic} (one : arity m = 1) (noInt : m ≠ .int)
    (noJump : m.jumps = false) {w : List UInt8} {more : List (List UInt8)} {r : Reg}
    (reg : parseReg w = some r) {bytes : List UInt8} {instr : Instr} (whole : Whole bytes instr)
    (takes : size m [.reg r] = bytes.length) (meaning : meant m [.reg r] = some (instr, none)) :
    Encoded m (w :: more) bytes none instr := by
  constructor
  · exact whole
  · intro count
    obtain rfl := nil_of_length (count.trans one)
    rw [List.map_singleton, readWord_reg reg]
    exact takes
  · intro count name
    obtain rfl := nil_of_length (count.trans one)
    rw [List.map_singleton, readWord_reg reg, meaning]
    simp [Suits, readWord_reg reg, noInt, noJump, eq_comm]

theorem encoded_jump {m : Mnemonic} (one : arity m = 1) (jumps : m.jumps = true) {w : List UInt8}
    {more : List (List UInt8)} {bytes : List UInt8} {instr : Instr} (whole : Whole bytes instr)
    (takes : ∀ word, size m [word] = bytes.length)
    (meaning : ∀ text, meant m [.name text] = some (instr, some text))
    (noReg : ∀ r, meant m [.reg r] = none) (noNumber : ∀ value, meant m [.number value] = none)
    (noOther : meant m [.other] = none) (off : Nat) :
    Encoded m (w :: more) bytes (some (off, w, true)) instr := by
  constructor
  · exact whole
  · intro count
    obtain rfl := nil_of_length (count.trans one)
    exact takes _
  · intro count name
    obtain rfl := nil_of_length (count.trans one)
    rw [List.map_singleton]
    cases read : readWord w with
    | reg r => simp [Suits, read, noReg, jumps]
    | number value => simp [Suits, read, noNumber, jumps]
    | other => simp [Suits, read, noOther]
    | name text =>
        have same : text = w := by
          unfold readWord at read
          split at read
          · cases read
          · split at read
            · cases read
            · split_ifs at read
              cases read
              rfl
        simp [Suits, read, meaning, jumps, same, eq_comm]

theorem encoded_pushImm {w : List UInt8} (more : List (List UInt8)) (noReg : parseReg w = none)
    (number : isNumber w) :
    Encoded .push (w :: more) (0x68 :: le32 (parseImm w)) none (.push (.imm (parseImm w))) := by
  have read := readWord_number noReg number
  constructor
  · exact whole_pushImm _
  · intro count
    obtain rfl := nil_of_length count
    rw [List.map_singleton]
    rcases read with ⟨value, _, read⟩ | read <;> rw [read] <;> rfl
  · intro count name
    obtain rfl := nil_of_length count
    rw [List.map_singleton]
    rcases read with ⟨value, found, read⟩ | read
    · have injective (u v : UInt32) (same : Instr.push (.imm u) = .push (.imm v)) : u = v := by
        simpa using same
      have right := imm_iff found injective name
      rw [read]
      change (if Fits value then _ else _) = _ ↔ _
      rw [right]
      simp [Suits, read, Mnemonic.jumps]
    · rw [read]
      simp [meant, Suits, read]

theorem suits_pair (m : Mnemonic) (w v : List UInt8) :
    (∀ x ∈ [w, v], Suits m x) ↔ Suits m w ∧ Suits m v := by simp

theorem encoded_regReg {m : Mnemonic} (two : arity m = 2) (noInt : m ≠ .int)
    (noJump : m.jumps = false) {w v : List UInt8} {more : List (List UInt8)} {dst src : Reg}
    (first : parseReg w = some dst) (second : parseReg v = some src) {bytes : List UInt8}
    {instr : Instr} (whole : Whole bytes instr)
    (takes : size m [.reg dst, .reg src] = bytes.length)
    (meaning : meant m [.reg dst, .reg src] = some (instr, none)) :
    Encoded m (w :: v :: more) bytes none instr := by
  constructor
  · exact whole
  · intro count
    obtain rfl := nil_of_length_two (count.trans two)
    rw [List.map_cons, List.map_singleton, readWord_reg first, readWord_reg second]
    exact takes
  · intro count name
    obtain rfl := nil_of_length_two (count.trans two)
    rw [List.map_cons, List.map_singleton, readWord_reg first, readWord_reg second, meaning,
      suits_pair]
    simp [Suits, readWord_reg first, readWord_reg second, noInt, noJump, eq_comm]

theorem encoded_regImm {m : Mnemonic} (two : arity m = 2) (noInt : m ≠ .int)
    (noJump : m.jumps = false) {w v : List UInt8} {more : List (List UInt8)} {dst : Reg}
    (first : parseReg w = some dst) (noReg : parseReg v = none) (number : isNumber v)
    {bytes : List UInt8} (instr : UInt32 → Instr) (injective : ∀ u u', instr u = instr u' → u = u')
    (whole : Whole bytes (instr (parseImm v)))
    (takes : ∀ value, size m [.reg dst, .number value] = bytes.length)
    (takesOther : size m [.reg dst, .other] = bytes.length)
    (meaning : ∀ value, meant m [.reg dst, .number value] =
      if Fits value then some (instr (wordOf value), none) else none)
    (noOther : meant m [.reg dst, .other] = none) :
    Encoded m (w :: v :: more) bytes none (instr (parseImm v)) := by
  have read := readWord_number noReg number
  constructor
  · exact whole
  · intro count
    obtain rfl := nil_of_length_two (count.trans two)
    rw [List.map_cons, List.map_singleton, readWord_reg first]
    rcases read with ⟨value, _, read⟩ | read <;> rw [read]
    · exact takes value
    · exact takesOther
  · intro count name
    obtain rfl := nil_of_length_two (count.trans two)
    rw [List.map_cons, List.map_singleton, readWord_reg first, suits_pair]
    rcases read with ⟨value, found, read⟩ | read
    · have right := imm_iff found injective name
      rw [read, meaning]
      simpa [Suits, readWord_reg first, read, noInt, noJump] using right
    · rw [read, noOther]
      simp [Suits, readWord_reg first, read, noInt, noJump]

theorem encoded_movName {w v : List UInt8} (more : List (List UInt8)) {dst : Reg}
    (first : parseReg w = some dst) (noReg : parseReg v = none) (noNumber : isNumber v = false) :
    Encoded .mov (w :: v :: more) (UInt8.ofNat (0xB8 + dst.code) :: le32 0) (some (1, v, false))
      (.mov .full (.reg dst) (.imm 0)) := by
  have read := readWord_name noReg noNumber
  constructor
  · exact whole_movImm dst 0
  · intro count
    obtain rfl := nil_of_length_two count
    rw [List.map_cons, List.map_singleton, readWord_reg first]
    rcases read with read | read <;> rw [read] <;> rfl
  · intro count name
    obtain rfl := nil_of_length_two count
    rw [List.map_cons, List.map_singleton, readWord_reg first, suits_pair]
    rcases read with read | read <;> rw [read]
    · simp [meant, Suits, readWord_reg first, read, Mnemonic.jumps, eq_comm]
    · simp [meant, Suits, readWord_reg first, read, Mnemonic.jumps]

theorem encoded_int (w : List UInt8) (more : List (List UInt8)) :
    Encoded .int (w :: more) [0xCD, (parseImm w).toUInt8] none (.int (parseImm w).toUInt8) := by
  constructor
  · exact whole_int _
  · intro count
    rfl
  · intro count name
    obtain rfl := nil_of_length count
    rw [List.map_singleton]
    cases read : readWord w with
    | reg r => simp [meant, Suits, read]
    | name text => simp [meant, Suits, read, Mnemonic.jumps]
    | other => simp [meant, Suits, read]
    | number value =>
        have found : numberValue w = some value := by
          unfold readWord at read
          split at read
          · cases read
          · split at read
            · rename_i found
              cases read
              exact found
            · split_ifs at read
        simp only [meant, Suits, read, Mnemonic.jumps, List.mem_singleton, forall_eq]
        by_cases range : 0 ≤ value ∧ value < 256
        · have fits : Fits value := by
            unfold Fits
            omega
          have zero (hex : NegativeHex w) : value = 0 := by
            have := negative_of_negativeHex hex found
            omega
          have same := (parseImm_right found fits).mpr zero
          rw [if_pos range, same]
          constructor
          · intro equal
            exact ⟨⟨trivial, fits, fun _ => range, zero⟩, (Prod.mk.inj (Option.some.inj equal)).2.symm⟩
          · intro right
            rw [right.2]
            rfl
        · rw [if_neg range]
          constructor
          · intro same
            cases same
          · intro right
            exact absurd (right.1.2.2.1 trivial) range

theorem encoded_of_encodes {m : Mnemonic} {args : List (List UInt8)} {bytes : List UInt8}
    {ref : Option (Nat × List UInt8 × Bool)} (enc : Encodes m args bytes ref) :
    ∃ instr, Encoded m args bytes ref instr := by
  cases enc with
  | nop => exact ⟨_, encoded_plain rfl (whole_of_one (by decide)) rfl rfl⟩
  | ret => exact ⟨_, encoded_plain rfl (whole_of_one (by decide)) rfl rfl⟩
  | hlt => exact ⟨_, encoded_plain rfl (whole_of_one (by decide)) rfl rfl⟩
  | int w more => exact ⟨_, encoded_int w more⟩
  | pushReg w more r reg =>
      exact ⟨_, encoded_register rfl (by decide) rfl reg (whole_register r).1 rfl rfl⟩
  | pushImm w more noReg number => exact ⟨_, encoded_pushImm more noReg number⟩
  | pop w more r reg =>
      exact ⟨_, encoded_register rfl (by decide) rfl reg (whole_register r).2.1 rfl rfl⟩
  | inc w more r reg =>
      exact ⟨_, encoded_register rfl (by decide) rfl reg (whole_register r).2.2.1 rfl rfl⟩
  | dec w more r reg =>
      exact ⟨_, encoded_register rfl (by decide) rfl reg (whole_register r).2.2.2 rfl rfl⟩
  | movReg w v more dst src first second =>
      exact ⟨_, encoded_regReg rfl (by decide) rfl first second (whole_movReg dst src) rfl rfl⟩
  | movImm w v more dst first noReg number =>
      exact ⟨_, encoded_regImm rfl (by decide) rfl first noReg number
        (fun u => .mov .full (.reg dst) (.imm u)) (by simp) (whole_movImm dst _)
        (fun _ => rfl) rfl (fun _ => rfl) rfl⟩
  | movName w v more dst first noReg noNumber =>
      exact ⟨_, encoded_movName more first noReg noNumber⟩
  | aluReg op w v more dst src first second =>
      exact ⟨_, encoded_regReg rfl (by simp) rfl first second (whole_aluReg op dst src) rfl rfl⟩
  | aluEax op w v more first noReg number =>
      exact ⟨_, encoded_regImm rfl (by simp) rfl first noReg number
        (fun u => .alu op .full (.reg .eax) (.imm u)) (by simp) (whole_aluEax op _)
        (fun _ => rfl) rfl (fun _ => rfl) rfl⟩
  | aluImm op w v more dst first other noReg number =>
      exact ⟨_, encoded_regImm rfl (by simp) rfl first noReg number
        (fun u => .alu op .full (.reg dst) (.imm u)) (by simp) (whole_aluImm op dst _)
        (fun _ => by cases dst <;> first | rfl | exact absurd rfl other)
        (by cases dst <;> first | rfl | exact absurd rfl other) (fun _ => rfl) rfl⟩
  | jmp w more =>
      exact ⟨_, encoded_jump rfl rfl (whole_jmp 0) (fun _ => rfl) (fun _ => rfl) (fun _ => rfl)
        (fun _ => rfl) rfl 1⟩
  | call w more =>
      exact ⟨_, encoded_jump rfl rfl (whole_call 0) (fun _ => rfl) (fun _ => rfl) (fun _ => rfl)
        (fun _ => rfl) rfl 1⟩
  | je w more =>
      exact ⟨_, encoded_jump rfl rfl (whole_jcc 4 (by decide) 0) (fun _ => rfl) (fun _ => rfl)
        (fun _ => rfl) (fun _ => rfl) rfl 2⟩
  | jne w more =>
      exact ⟨_, encoded_jump rfl rfl (whole_jcc 5 (by decide) 0) (fun _ => rfl) (fun _ => rfl)
        (fun _ => rfl) (fun _ => rfl) rfl 2⟩

/-! ## Lines in the two passes -/

/-- The mnemonic and the operands of a line that is not blank, a label or `db`. -/
def instructionLine (line : List UInt8) : Option (List UInt8 × List (List UInt8)) :=
  let line := strip line
  if line = [] ∨ (1 < line.length ∧ line.getLast? = some 0x3A) then none
  else
    match splitLine 8 line with
    | [] => none
    | op :: args => if op = literal "db" then none else some (op, args)

def emitted (line : List UInt8) (pass : Nat) (a : Asm) : List UInt8 :=
  (asmLine line pass a).2.code.drop a.code.length

theorem emit8_code (a : Asm) (b : UInt8) :
    (a.emit8 b).code = a.code ++ [b].take (maxCode - a.code.length) := by
  unfold Asm.emit8
  split_ifs with room
  · rw [List.take_of_length_le (by simp; omega)]
  · rw [show maxCode - a.code.length = 0 by omega, List.take_zero, List.append_nil]

theorem emit_code (bytes : List UInt8) : ∀ a : Asm,
    (a.emit bytes).code = a.code ++ bytes.take (maxCode - a.code.length) := by
  induction bytes with
  | nil =>
      intro a
      rw [List.take_nil, List.append_nil]
      rfl
  | cons b rest rest_ih =>
      intro a
      have step : a.emit (b :: rest) = (a.emit8 b).emit rest := rfl
      rw [step, rest_ih, emit8_code, List.append_assoc, List.append_cancel_left_eq]
      by_cases room : a.code.length < maxCode
      · obtain ⟨left, same⟩ : ∃ left, maxCode - a.code.length = left + 1 :=
          ⟨maxCode - a.code.length - 1, by omega⟩
        rw [same, List.take_succ_cons, List.take_succ_cons, List.take_nil, List.length_append,
          List.length_singleton, ← Nat.sub_sub, same, Nat.add_sub_cancel, List.singleton_append]
      · rw [show maxCode - a.code.length = 0 by omega, List.take_zero, List.take_zero,
          List.nil_append, List.append_nil, show maxCode - a.code.length = 0 by omega,
          List.take_zero]

theorem emit_fixups (bytes : List UInt8) : ∀ a : Asm, (a.emit bytes).fixups = a.fixups := by
  induction bytes with
  | nil => intro a; rfl
  | cons b rest rest_ih =>
      intro a
      have step : a.emit (b :: rest) = (a.emit8 b).emit rest := rfl
      rw [step, rest_ih, Asm.emit8]
      split_ifs <;> rfl

theorem addFixup_code (a : Asm) (off : Nat) (name : List UInt8) (rel : Bool) :
    (a.addFixup off name rel).code = a.code := by
  unfold Asm.addFixup
  split_ifs <;> rfl

theorem instructionLine_parts {line op : List UInt8} {args : List (List UInt8)}
    (parts : instructionLine line = some (op, args)) :
    strip line ≠ [] ∧ ¬ (1 < (strip line).length ∧ (strip line).getLast? = some 0x3A) ∧
      splitLine 8 (strip line) = op :: args ∧ op ≠ literal "db" := by
  unfold instructionLine at parts
  dsimp only at parts
  by_cases special : strip line = [] ∨
      (1 < (strip line).length ∧ (strip line).getLast? = some 0x3A)
  · rw [if_pos special] at parts
    cases parts
  · rw [if_neg special] at parts
    cases found : splitLine 8 (strip line) with
    | nil =>
        rw [found] at parts
        cases parts
    | cons first rest =>
        rw [found] at parts
        dsimp only at parts
        by_cases data : first = literal "db"
        · rw [if_pos data] at parts
          cases parts
        · rw [if_neg data] at parts
          cases parts
          exact ⟨fun blank => special (Or.inl blank), fun label => special (Or.inr label), rfl,
            data⟩

theorem asmLine_unknown {line op : List UInt8} {args : List (List UInt8)}
    (parts : instructionLine line = some (op, args)) (taken : encodeParts op args = none)
    (pass : Nat) (a : Asm) : asmLine line pass a = (-1, a) := by
  have shape := instructionLine_parts parts
  unfold asmLine
  dsimp only
  rw [if_neg shape.1, if_neg shape.2.1, shape.2.2.1]
  dsimp only
  rw [taken]

theorem asmLine_plain {line op : List UInt8} {args : List (List UInt8)}
    (parts : instructionLine line = some (op, args)) {bytes : List UInt8}
    (taken : encodeParts op args = some (bytes, none)) (pass : Nat) (a : Asm) :
    asmLine line pass a = (0, a.emit bytes) := by
  have shape := instructionLine_parts parts
  unfold asmLine
  dsimp only
  rw [if_neg shape.1, if_neg shape.2.1, shape.2.2.1]
  dsimp only
  rw [taken]

theorem asmLine_reference {line op : List UInt8} {args : List (List UInt8)}
    (parts : instructionLine line = some (op, args)) {bytes : List UInt8} {off : Nat}
    {name : List UInt8} {rel : Bool}
    (taken : encodeParts op args = some (bytes, some (off, name, rel))) (pass : Nat) (a : Asm) :
    asmLine line pass a =
      (0, (if pass = 2 then (a.emit (bytes.take off)).addFixup
        (a.emit (bytes.take off)).code.length name rel else a.emit (bytes.take off)).emit
          (bytes.drop off)) := by
  have shape := instructionLine_parts parts
  unfold asmLine
  dsimp only
  rw [if_neg shape.1, if_neg shape.2.1, shape.2.2.1]
  dsimp only
  rw [taken]

/-- Bytes emitted in two parts, with a reference between. -/
theorem emit_parts_code (a : Asm) (bytes : List UInt8) (pass off : Nat) (name : List UInt8)
    (rel : Bool) :
    ((if pass = 2 then (a.emit (bytes.take off)).addFixup (a.emit (bytes.take off)).code.length
        name rel else a.emit (bytes.take off)).emit (bytes.drop off)).code =
      a.code ++ bytes.take (maxCode - a.code.length) := by
  have middle : (if pass = 2 then (a.emit (bytes.take off)).addFixup
      (a.emit (bytes.take off)).code.length name rel else a.emit (bytes.take off)).code =
      (a.emit (bytes.take off)).code := by
    split_ifs
    · exact addFixup_code _ _ _ _
    · rfl
  have whole : (a.emit (bytes.take off)).emit (bytes.drop off) = a.emit bytes := by
    unfold Asm.emit
    rw [← List.foldl_append, List.take_append_drop]
  rw [emit_code, middle, ← emit_code, whole, emit_code]

theorem asmLine_code {line op : List UInt8} {args : List (List UInt8)}
    (parts : instructionLine line = some (op, args)) {bytes : List UInt8}
    {ref : Option (Nat × List UInt8 × Bool)} (taken : encodeParts op args = some (bytes, ref))
    (pass : Nat) (a : Asm) :
    (asmLine line pass a).2.code = a.code ++ bytes.take (maxCode - a.code.length) := by
  cases ref with
  | none =>
      rw [asmLine_plain parts taken]
      exact emit_code bytes a
  | some ref =>
      rw [asmLine_reference parts taken]
      exact emit_parts_code a bytes pass ref.1 ref.2.1 ref.2.2

theorem emitted_eq {line op : List UInt8} {args : List (List UInt8)}
    (parts : instructionLine line = some (op, args)) {bytes : List UInt8}
    {ref : Option (Nat × List UInt8 × Bool)} (taken : encodeParts op args = some (bytes, ref))
    (pass : Nat) (a : Asm) : emitted line pass a = bytes.take (maxCode - a.code.length) := by
  rw [emitted, asmLine_code parts taken, List.drop_left]

/-- The reference to a name that an instruction needs: the last four bytes hold the address. -/
def reference (m : Mnemonic) (codePos : Nat) (name : List UInt8) : Fixup :=
  ⟨codePos - 4, name, m.jumps⟩

/-- A line is assembled as it is meant: both passes emit the same number of bytes for it, in each
pass they decode to exactly the instruction that is meant, and the second pass records the
reference to a name. -/
def Assembled (labels : List (List UInt8 × UInt32)) (before : List (List UInt8))
    (line op : List UInt8) (args : List (List UInt8)) : Prop :=
  let first := runPass 1 [] before
  let second := runPass 2 labels before
  (emitted line 1 first).length = (emitted line 2 second).length ∧
    ∃ m instr name, mnemonic op = some m ∧ meant m (args.map readWord) = some (instr, name) ∧
      decode (ofList (emitted line 1 first)) = some (instr, (emitted line 1 first).length) ∧
      decode (ofList (emitted line 2 second)) = some (instr, (emitted line 2 second).length) ∧
      (asmLine line 2 second).2.fixups = second.fixups ++
        (name.map (reference m (asmLine line 2 second).2.code.length)).toList

/-- A line as it should be written, behind others: as many operands as its mnemonic takes, each
of which suits it, and room in the code buffer and for the name. -/
structure WellWritten (labels : List (List UInt8 × UInt32)) (before : List (List UInt8))
    (m : Mnemonic) (args : List (List UInt8)) : Prop where
  count : args.length = arity m
  suits : ∀ w ∈ args, Suits m w
  room : (runPass 2 labels before).code.length + size m (args.map readWord) ≤ maxCode
  name : ∀ text, .name text ∈ args.map readWord →
    text.length ≤ 31 ∧ (runPass 2 labels before).fixups.length < maxLabels

/-- How far a line moves the position does not depend on the pass. -/
theorem asmLine_length (line : List UInt8) {a b : Asm} (same : a.code.length = b.code.length) :
    (asmLine line 1 a).2.code.length = (asmLine line 2 b).2.code.length := by
  unfold asmLine
  dsimp only
  by_cases blank : strip line = []
  · rw [if_pos blank, if_pos blank]
    exact same
  rw [if_neg blank, if_neg blank]
  by_cases label : 1 < (strip line).length ∧ (strip line).getLast? = some 0x3A
  · rw [if_pos label, if_pos label]
    dsimp only
    rw [if_pos rfl, if_neg (by decide), Asm.addLabel]
    split_ifs <;> exact same
  rw [if_neg label, if_neg label]
  split
  · exact same
  · split
    · exact same
    · rw [emit_code, emit_code, List.length_append, List.length_append, same]
    · dsimp only
      rw [emit_parts_code, emit_parts_code, List.length_append, List.length_append, same]

theorem runPass_length (labels : List (List UInt8 × UInt32)) (lines : List (List UInt8)) :
    (runPass 1 [] lines).code.length = (runPass 2 labels lines).code.length := by
  induction lines using List.reverseRecOn with
  | nil => rfl
  | append_singleton front line front_ih =>
      unfold runPass at front_ih ⊢
      rw [List.foldl_append, List.foldl_append]
      exact asmLine_length line front_ih

/-- A beginning of the bytes of one instruction decodes as long as it is only when it is whole. -/
theorem Encoded.cut {m : Mnemonic} {args : List (List UInt8)} {bytes : List UInt8}
    {ref : Option (Nat × List UInt8 × Bool)} {instr : Instr} (enc : Encoded m args bytes ref instr)
    {room : Nat} {other : Instr}
    (reads : decode (ofList (bytes.take room)) = some (other, (bytes.take room).length)) :
    bytes.length ≤ room ∧ other = instr := by
  by_cases short : room < bytes.length
  · rw [List.length_take_of_le (by omega)] at reads
    exact absurd reads (enc.whole.least room short other)
  · rw [List.take_of_length_le (by omega), enc.whole.reads] at reads
    cases reads
    exact ⟨by omega, rfl⟩

def fixupsAfter (a : Asm) (bytes : List UInt8) : Option (Nat × List UInt8 × Bool) → List Fixup
  | none => a.fixups
  | some (off, name, rel) =>
      if a.fixups.length < maxLabels then
        a.fixups ++ [⟨a.code.length + min (maxCode - a.code.length) (bytes.take off).length,
          name.take 31, rel⟩]
      else a.fixups

theorem asmLine_fixups {line op : List UInt8} {args : List (List UInt8)}
    (parts : instructionLine line = some (op, args)) {bytes : List UInt8}
    {ref : Option (Nat × List UInt8 × Bool)} (taken : encodeParts op args = some (bytes, ref))
    (a : Asm) : (asmLine line 2 a).2.fixups = fixupsAfter a bytes ref := by
  cases ref with
  | none =>
      rw [asmLine_plain parts taken]
      exact emit_fixups bytes a
  | some ref =>
      rw [asmLine_reference parts taken]
      dsimp only [fixupsAfter]
      rw [if_pos rfl, emit_fixups, Asm.addFixup, emit_fixups, emit_code, List.length_append,
        List.length_take]
      split_ifs
      · rfl
      · exact emit_fixups _ a

/-- A reference is to the last four bytes, and relative in jumps. -/
theorem encodes_ref {m : Mnemonic} {args : List (List UInt8)} {bytes : List UInt8} {off : Nat}
    {name : List UInt8} {rel : Bool} (enc : Encodes m args bytes (some (off, name, rel))) :
    bytes.length = off + 4 ∧ rel = m.jumps := by
  cases enc <;> exact ⟨rfl, rfl⟩

/-- The name whose address is needed is the one among the operands. -/
theorem meant_name {m : Mnemonic} {words : List Word} {instr : Instr}
    {name : Option (List UInt8)} (meaning : meant m words = some (instr, name))
    (text : List UInt8) : .name text ∈ words ↔ name = some text := by
  unfold meant at meaning
  split at meaning <;> cases m <;> simp at meaning ⊢
  all_goals simp [← meaning.2, eq_comm]

section Line

variable {labels : List (List UInt8 × UInt32)} {before : List (List UInt8)}
  {line op : List UInt8} {args : List (List UInt8)} {bytes : List UInt8}
  {ref : Option (Nat × List UInt8 × Bool)} {m : Mnemonic}

theorem wellWritten_of_assembled (parts : instructionLine line = some (op, args))
    (taken : encodeParts op args = some (bytes, ref)) (known : mnemonic op = some m)
    (enc : Encodes m args bytes ref) (right : Assembled labels before line op args) :
    WellWritten labels before m args := by
  obtain ⟨_, m', instr', name, known', meaning, _, reads, fixups⟩ := right
  obtain rfl := Option.some.inj (known.symm.trans known')
  obtain ⟨instr, encoded⟩ := encoded_of_encodes enc
  have count : args.length = arity m := by
    rw [← meant_count meaning, List.length_map]
  rw [emitted_eq parts taken] at reads
  obtain ⟨room, rfl⟩ := encoded.cut reads
  have suits := (encoded.meaning count name).mp meaning
  have some' : bytes ≠ [] := by
    intro none'
    have reads := encoded.whole.reads
    rw [none'] at reads
    exact decode_nothing _ reads
  constructor
  · exact count
  · exact suits.1
  · rw [encoded.bytesSize count]
    have := List.length_pos_of_ne_nil some'
    omega
  · intro text listed
    have named := (meant_name meaning text).mp listed
    rw [asmLine_fixups parts taken, named] at fixups
    cases ref with
    | none =>
        have none' := suits.2
        rw [named] at none'
        cases none'
    | some ref =>
        have same : text = ref.2.1 := by
          have same := suits.2
          rw [named] at same
          exact Option.some.inj same
        dsimp only [fixupsAfter] at fixups
        split_ifs at fixups with table
        · have entry := List.append_cancel_left fixups
          have whole : ref.2.1.take 31 = text := congrArg Fixup.name (List.cons.inj entry).1
          rw [← same] at whole
          refine ⟨?_, table⟩
          rw [← whole, List.length_take]
          omega
        · have longer := congrArg List.length fixups
          simp at longer

theorem assembled_of_wellWritten (parts : instructionLine line = some (op, args))
    (taken : encodeParts op args = some (bytes, ref)) (known : mnemonic op = some m)
    (enc : Encodes m args bytes ref) (written : WellWritten labels before m args) :
    Assembled labels before line op args := by
  obtain ⟨instr, encoded⟩ := encoded_of_encodes enc
  have meaning := (encoded.meaning written.count _).mpr ⟨written.suits, rfl⟩
  have room := written.room
  rw [encoded.bytesSize written.count] at room
  have same := runPass_length labels before
  have first : emitted line 1 (runPass 1 [] before) = bytes := by
    rw [emitted_eq parts taken, List.take_of_length_le (by omega)]
  have second : emitted line 2 (runPass 2 labels before) = bytes := by
    rw [emitted_eq parts taken, List.take_of_length_le (by omega)]
  refine ⟨by rw [first, second], m, instr, _, known, meaning, ?_, ?_, ?_⟩
  · rw [first]
    exact encoded.whole.reads
  · rw [second]
    exact encoded.whole.reads
  · rw [asmLine_fixups parts taken]
    cases ref with
    | none => simp [fixupsAfter]
    | some ref =>
        have listed := (meant_name meaning ref.2.1).mpr rfl
        have fits := written.name _ listed
        have word := encodes_ref enc
        have whole : bytes.take (maxCode - (runPass 2 labels before).code.length) = bytes :=
          List.take_of_length_le (by omega)
        have offset : (runPass 2 labels before).code.length + bytes.length - 4 =
            (runPass 2 labels before).code.length +
              min (maxCode - (runPass 2 labels before).code.length)
                (bytes.take ref.1).length := by
          rw [List.length_take]
          omega
        dsimp only [fixupsAfter, Option.map_some, Option.toList_some]
        rw [if_pos fits.2, List.take_of_length_le fits.1, reference, word.2,
          asmLine_code parts taken, List.length_append, whole, offset]

end Line

/-- An accepted line behind others is assembled as it is meant exactly when it is well written. -/
theorem assembled_iff (labels : List (List UInt8 × UInt32)) (before : List (List UInt8))
    {line op : List UInt8} {args : List (List UInt8)}
    (parts : instructionLine line = some (op, args))
    (accepted : (asmLine line 1 (runPass 1 [] before)).1 = 0) :
    Assembled labels before line op args ↔
      ∃ m, mnemonic op = some m ∧ WellWritten labels before m args := by
  have notData := (instructionLine_parts parts).2.2.2
  cases taken : encodeParts op args with
  | none =>
      rw [asmLine_unknown parts taken] at accepted
      cases accepted
  | some found =>
      cases found with
      | mk bytes ref =>
          clear accepted
          cases encodes_of_encodeParts notData taken with
          | intro m found =>
              constructor
              · intro right
                exact ⟨m, found.1, wellWritten_of_assembled parts taken found.1 found.2 right⟩
              · rintro ⟨m', known, written⟩
                obtain rfl := Option.some.inj (found.1.symm.trans known)
                exact assembled_of_wellWritten parts taken found.1 found.2 written

theorem assembled_iff_mov :
    Assembled [] [] (literal "mov eax, 5") (literal "mov") [literal "eax", literal "5"] ↔
      ∃ m, mnemonic (literal "mov") = some m ∧
        WellWritten [] [] m [literal "eax", literal "5"] :=
  assembled_iff [] [] (by decide) (by decide)

theorem mov_negative_hex :
    instructionLine (literal "mov eax, -0x10") =
        some (literal "mov", [literal "eax", literal "-0x10"]) ∧
      (asmLine (literal "mov eax, -0x10") 1 (runPass 1 [] [])).1 = 0 ∧
      meant .mov [.reg .eax, .number (-16)] =
        some (.mov .full (.reg .eax) (.imm 0xFFFFFFF0), none) ∧
      emitted (literal "mov eax, -0x10") 2 (runPass 2 [] []) = [0xB8, 0, 0, 0, 0] ∧
      ¬ Assembled [] [] (literal "mov eax, -0x10") (literal "mov")
        [literal "eax", literal "-0x10"] := by
  have bytes : emitted (literal "mov eax, -0x10") 2 (runPass 2 [] []) = [0xB8, 0, 0, 0, 0] := by
    decide
  refine ⟨by decide, by decide, by decide, bytes, ?_⟩
  rintro ⟨_, m, instr, name, known, meaning, _, reads, _⟩
  have isMov : mnemonic (literal "mov") = some .mov := by decide
  obtain rfl := Option.some.inj (isMov.symm.trans known)
  have words : [literal "eax", literal "-0x10"].map readWord = [.reg .eax, .number (-16)] := by
    decide
  rw [words] at meaning
  rw [bytes] at reads
  have decoded : decode (ofList [0xB8, 0, 0, 0, 0]) =
      some (.mov .full (.reg .eax) (.imm 0), 5) := by decide
  have right : meant .mov [.reg .eax, .number (-16)] =
      some (.mov .full (.reg .eax) (.imm 0xFFFFFFF0), none) := by decide
  rw [decoded] at reads
  rw [right] at meaning
  cases reads
  cases meaning

end Tasm

end Trinux
