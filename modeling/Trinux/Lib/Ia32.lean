import Trinux.Lib.Bytes
import Trinux.Lib.Words

namespace Trinux.Ia32

open Words

/-!
# Instructions of a 32-bit processor

The instructions that small compilers and assemblers emit, with their encodings: the general
registers, operands given by a ModRM byte with its scaled index and displacement, immediates, and
relative jumps.  Prefixes are accepted where they change nothing or the width.
-/

inductive Reg where
  | eax | ecx | edx | ebx | esp | ebp | esi | edi
  deriving DecidableEq, Repr

def Reg.code : Reg → Nat
  | eax => 0 | ecx => 1 | edx => 2 | ebx => 3 | esp => 4 | ebp => 5 | esi => 6 | edi => 7

def Reg.ofCode (n : Nat) : Reg :=
  match n % 8 with
  | 0 => eax | 1 => ecx | 2 => edx | 3 => ebx | 4 => esp | 5 => ebp | 6 => esi | _ => edi

@[simp] theorem Reg.ofCode_code (r : Reg) : Reg.ofCode r.code = r := by cases r <;> rfl

theorem Reg.code_lt (r : Reg) : r.code < 8 := by cases r <;> decide

inductive Width where
  | byte | half | full
  deriving DecidableEq, Repr

/-- What an instruction works on.  A register of one byte is named by its number. -/
inductive Operand where
  | reg (r : Reg)
  | mem (base : Option Reg) (index : Option (Reg × Nat)) (disp : UInt32)
  | imm (value : UInt32)
  deriving DecidableEq, Repr

inductive Alu where
  | add | or | adc | sbb | and | sub | xor | cmp
  deriving DecidableEq, Repr

def Alu.code : Alu → Nat
  | add => 0 | or => 1 | adc => 2 | sbb => 3 | and => 4 | sub => 5 | xor => 6 | cmp => 7

def Alu.ofCode (n : Nat) : Alu :=
  match n % 8 with
  | 0 => add | 1 => or | 2 => adc | 3 => sbb | 4 => and | 5 => sub | 6 => xor | _ => cmp

inductive Shift where
  | rol | ror | rcl | rcr | shl | shr | sal | sar
  deriving DecidableEq, Repr

def Shift.ofCode (n : Nat) : Shift :=
  match n % 8 with
  | 0 => rol | 1 => ror | 2 => rcl | 3 => rcr | 4 => shl | 5 => shr | 6 => sal | _ => sar

inductive Unary where
  | not | neg | mul | imul | div | idiv
  deriving DecidableEq, Repr

/-- An instruction.  The target of a jump is relative to the instruction behind it. -/
inductive Instr where
  | alu (op : Alu) (w : Width) (dst src : Operand)
  | test (w : Width) (dst src : Operand)
  | mov (w : Width) (dst src : Operand)
  | movzx (dst : Reg) (src : Operand)
  | lea (dst : Reg) (src : Operand)
  | push (src : Operand)
  | pop (dst : Reg)
  | inc (dst : Operand)
  | dec (dst : Operand)
  | unary (op : Unary) (w : Width) (dst : Operand)
  | imul (dst : Reg) (src : Operand)
  | imulImm (dst : Reg) (src : Operand) (value : UInt32)
  | shift (op : Shift) (w : Width) (dst : Operand) (count : UInt8)
  | setcc (cond : Nat) (dst : Operand)
  | cdq
  | jcc (cond : Nat) (rel : UInt32)
  | jecxz (rel : UInt32)
  | jmp (rel : UInt32)
  | call (rel : UInt32)
  | ret
  | int (n : UInt8)
  | nop
  | hlt
  | sti
  deriving DecidableEq, Repr

/-! ## Decoding -/

def signExtend (b : UInt8) : UInt32 :=
  if b.toNat < 128 then UInt32.ofNat b.toNat else UInt32.ofNat (b.toNat + 4294967040)

def dword (b : Bytes) (off : Nat) : UInt32 := UInt32.ofNat (word b off)

def regField (b : Bytes) (off : Nat) : Nat := (b off).toNat / 8 % 8

/-- The operand that a ModRM byte at an offset describes, and the number of bytes it takes. -/
def modRm (b : Bytes) (off : Nat) : Operand × Nat :=
  let mode := (b off).toNat / 64
  let rm := (b off).toNat % 8
  if mode = 3 then (.reg (.ofCode rm), 1)
  else
    let sib := (b (off + 1)).toNat
    let index := if sib / 8 % 8 = 4 then none else some (Reg.ofCode (sib / 8), 2 ^ (sib / 64))
    let size := if rm = 4 then 2 else 1
    let base := if rm = 4 then sib % 8 else rm
    let index := if rm = 4 then index else none
    if mode = 0 then
      if base = 5 then (.mem none index (dword b (off + size)), size + 4)
      else (.mem (some (.ofCode base)) index 0, size)
    else if mode = 1 then
      (.mem (some (.ofCode base)) index (signExtend (b (off + size))), size + 1)
    else (.mem (some (.ofCode base)) index (dword b (off + size)), size + 4)

def decodeTwo (b : Bytes) : Option (Instr × Nat) :=
  let op := (b 1).toNat
  let rm := modRm b 2
  if op / 16 = 8 then some (.jcc (op % 16) (dword b 2), 6)
  else if op / 16 = 9 then some (.setcc (op % 16) rm.1, 2 + rm.2)
  else if op = 0xAF then some (.imul (.ofCode (regField b 2)) rm.1, 2 + rm.2)
  else if op = 0xB6 then some (.movzx (.ofCode (regField b 2)) rm.1, 2 + rm.2)
  else none

def decodeRm (b : Bytes) (w : Width) : Option (Instr × Nat) :=
  let op := (b 0).toNat
  let rm := modRm b 1
  let reg := Operand.reg (.ofCode (regField b 1))
  let width := if op % 2 = 0 then .byte else w
  let last := 1 + rm.2
  if op < 64 ∧ op % 8 < 2 then some (.alu (.ofCode (op / 8)) width rm.1 reg, last)
  else if op < 64 ∧ op % 8 < 4 then some (.alu (.ofCode (op / 8)) width reg rm.1, last)
  else if op = 0x69 then
    some (.imulImm (.ofCode (regField b 1)) rm.1 (dword b last), last + 4)
  else if op = 0x6B then
    some (.imulImm (.ofCode (regField b 1)) rm.1 (signExtend (b last)), last + 1)
  else if op = 0x80 then
    some (.alu (.ofCode (regField b 1)) .byte rm.1 (.imm (signExtend (b last))), last + 1)
  else if op = 0x81 then
    some (.alu (.ofCode (regField b 1)) w rm.1 (.imm (dword b last)), last + 4)
  else if op = 0x83 then
    some (.alu (.ofCode (regField b 1)) w rm.1 (.imm (signExtend (b last))), last + 1)
  else if op / 2 = 0x42 then some (.test width rm.1 reg, last)
  else if op / 2 = 0x44 then some (.mov width rm.1 reg, last)
  else if op / 2 = 0x45 then some (.mov width reg rm.1, last)
  else if op = 0x8D then some (.lea (.ofCode (regField b 1)) rm.1, last)
  else if op / 2 = 0x60 then
    some (.shift (.ofCode (regField b 1)) width rm.1 (b last), last + 1)
  else if op / 2 = 0x68 then some (.shift (.ofCode (regField b 1)) width rm.1 1, last)
  else if op = 0xC6 ∧ regField b 1 = 0 then
    some (.mov .byte rm.1 (.imm (signExtend (b last))), last + 1)
  else if op = 0xC7 ∧ regField b 1 = 0 then
    some (.mov w rm.1 (.imm (dword b last)), last + 4)
  else if op / 2 = 0x7B then
    match regField b 1 with
    | 2 => some (.unary .not width rm.1, last)
    | 3 => some (.unary .neg width rm.1, last)
    | 4 => some (.unary .mul width rm.1, last)
    | 5 => some (.unary .imul width rm.1, last)
    | 6 => some (.unary .div width rm.1, last)
    | 7 => some (.unary .idiv width rm.1, last)
    | _ => none
  else if op = 0xFF then
    match regField b 1 with
    | 0 => some (.inc rm.1, last)
    | 1 => some (.dec rm.1, last)
    | 6 => some (.push rm.1, last)
    | _ => none
  else none

def decodePlain (b : Bytes) : Option (Instr × Nat) :=
  let op := (b 0).toNat
  let reg := Reg.ofCode op
  if op < 64 ∧ op % 8 = 4 then
    some (.alu (.ofCode (op / 8)) .byte (.reg .eax) (.imm (signExtend (b 1))), 2)
  else if op < 64 ∧ op % 8 = 5 then
    some (.alu (.ofCode (op / 8)) .full (.reg .eax) (.imm (dword b 1)), 5)
  else if op / 8 = 8 then some (.inc (.reg reg), 1)
  else if op / 8 = 9 then some (.dec (.reg reg), 1)
  else if op / 8 = 10 then some (.push (.reg reg), 1)
  else if op / 8 = 11 then some (.pop reg, 1)
  else if op = 0x68 then some (.push (.imm (dword b 1)), 5)
  else if op = 0x6A then some (.push (.imm (signExtend (b 1))), 2)
  else if op / 16 = 7 then some (.jcc (op % 16) (signExtend (b 1)), 2)
  else if op = 0x90 then some (.nop, 1)
  else if op = 0x99 then some (.cdq, 1)
  else if op = 0xA1 then some (.mov .full (.reg .eax) (.mem none none (dword b 1)), 5)
  else if op = 0xA3 then some (.mov .full (.mem none none (dword b 1)) (.reg .eax), 5)
  else if op / 8 = 0x16 then some (.mov .byte (.reg reg) (.imm (signExtend (b 1))), 2)
  else if op / 8 = 0x17 then some (.mov .full (.reg reg) (.imm (dword b 1)), 5)
  else if op = 0xC3 then some (.ret, 1)
  else if op = 0xCD then some (.int (b 1), 2)
  else if op = 0xE3 then some (.jecxz (signExtend (b 1)), 2)
  else if op = 0xE8 then some (.call (dword b 1), 5)
  else if op = 0xE9 then some (.jmp (dword b 1), 5)
  else if op = 0xEB then some (.jmp (signExtend (b 1)), 2)
  else if op = 0xF4 then some (.hlt, 1)
  else if op = 0xFB then some (.sti, 1)
  else none

def decode (b : Bytes) : Option (Instr × Nat) :=
  if b 0 = 0x0F then decodeTwo b
  else if b 0 = 0x66 then
    (decodeRm (fun i => b (i + 1)) .half).map fun found => (found.1, found.2 + 1)
  else if b 0 = 0xF3 then
    ((decodePlain fun i => b (i + 1)) <|> decodeRm (fun i => b (i + 1)) .full).map
      fun found => (found.1, found.2 + 1)
  else decodePlain b <|> decodeRm b .full

def ofList (bytes : List UInt8) : Bytes := fun i => bytes.getD i 0

example : decode (ofList [0x88, 0x04, 0x0F]) =
    some (.mov .byte (.mem (some .edi) (some (.ecx, 1)) 0) (.reg .eax), 3) := by decide

theorem dword_of_le32 {b : Bytes} {off : Nat} {value : UInt32}
    (written : ∀ i < 4, b (off + i) = (Bytes.le32 value).getD i 0) : dword b off = value := by
  have bound := value.toNat_lt
  have zero := written 0 (by omega)
  rw [Nat.add_zero] at zero
  apply UInt32.toNat_inj.mp
  rw [dword, word, zero, written 1 (by omega), written 2 (by omega), written 3 (by omega)]
  simp only [Bytes.le32, List.getD_cons_zero, List.getD_cons_succ, UInt8.toNat_ofNat',
    UInt32.toNat_ofNat']
  omega

/-! ## Bytes that are one instruction -/

structure Whole (bytes : List UInt8) (instr : Instr) : Prop where
  reads : decode (ofList bytes) = some (instr, bytes.length)
  least : ∀ k < bytes.length, ∀ other, decode (ofList (bytes.take k)) ≠ some (other, k)

theorem ofList_zero_take {c : UInt8} {rest : List UInt8} {k : Nat} (some' : 0 < k) :
    ofList ((c :: rest).take k) 0 = c := by
  cases k with
  | zero => exact absurd some' (by omega)
  | succ k => rfl

theorem ofList_one_take (c d : UInt8) (rest : List UInt8) (k : Nat) :
    ofList ((c :: d :: rest).take k) 1 = d ∨ ofList ((c :: d :: rest).take k) 1 = 0 := by
  match k with
  | 0 => exact Or.inr rfl
  | 1 => exact Or.inr rfl
  | k + 2 => exact Or.inl rfl

theorem decode_nothing (other : Instr) : decode (ofList []) ≠ some (other, 0) := by
  have two : (decode (ofList [])).map Prod.snd = some 2 := by decide
  intro found
  rw [found] at two
  cases two

theorem whole_of_one {c : UInt8} {instr : Instr} (reads : decode (ofList [c]) = some (instr, 1)) :
    Whole [c] instr := by
  constructor
  · exact reads
  · intro k short other
    obtain rfl : k = 0 := Nat.lt_one_iff.mp short
    exact decode_nothing other

/-- Bytes whose first two already fix how many there are. -/
theorem whole_of_two {c d : UInt8} {rest : List UInt8} {instr : Instr}
    (reads : decode (ofList (c :: d :: rest)) = some (instr, rest.length + 2))
    (size : ∀ b : Bytes, b 0 = c → b 1 = d ∨ b 1 = 0 → ∀ other n, decode b = some (other, n) →
      n = rest.length + 2) : Whole (c :: d :: rest) instr := by
  constructor
  · exact reads
  · intro k short other found
    by_cases some' : 0 < k
    · have same := size _ (ofList_zero_take some') (ofList_one_take c d rest k) other k found
      rw [same] at short
      exact absurd short (by simp)
    · obtain rfl : k = 0 := by omega
      exact decode_nothing other found

theorem dword_one (c : UInt8) (value : UInt32) : dword (ofList (c :: Bytes.le32 value)) 1 = value := by
  apply dword_of_le32
  intro i small
  rw [Nat.add_comm]
  rfl

theorem dword_two (c d : UInt8) (value : UInt32) :
    dword (ofList (c :: d :: Bytes.le32 value)) 2 = value := by
  apply dword_of_le32
  intro i small
  rw [Nat.add_comm]
  rfl

theorem modRm_reg {b : Bytes} {off : Nat} {n : Nat} {r : Reg} (small : n < 8)
    (written : b off = UInt8.ofNat (0xC0 + 8 * n + r.code)) :
    modRm b off = (.reg r, 1) ∧ regField b off = n := by
  have value : (b off).toNat = 0xC0 + 8 * n + r.code := by
    have := r.code_lt
    rw [written, UInt8.toNat_ofNat']
    omega
  have mode : (b off).toNat / 64 = 3 := by
    have := r.code_lt
    omega
  have rm : (b off).toNat % 8 = r.code := by
    have := r.code_lt
    omega
  constructor
  · rw [modRm]
    dsimp only
    rw [if_pos mode, rm, Reg.ofCode_code]
  · rw [regField, value]
    have := r.code_lt
    omega

@[simp] theorem Alu.ofCode_code (op : Alu) : Alu.ofCode op.code = op := by cases op <;> rfl

theorem Alu.code_lt (op : Alu) : op.code < 8 := by cases op <;> decide

theorem whole_register (r : Reg) :
    Whole [UInt8.ofNat (0x50 + r.code)] (.push (.reg r)) ∧
      Whole [UInt8.ofNat (0x58 + r.code)] (.pop r) ∧
      Whole [UInt8.ofNat (0x40 + r.code)] (.inc (.reg r)) ∧
      Whole [UInt8.ofNat (0x48 + r.code)] (.dec (.reg r)) := by
  refine ⟨whole_of_one ?_, whole_of_one ?_, whole_of_one ?_, whole_of_one ?_⟩ <;>
    cases r <;> rfl

theorem whole_movReg (dst src : Reg) :
    Whole [0x89, UInt8.ofNat (0xC0 + 8 * src.code + dst.code)] (.mov .full (.reg dst) (.reg src)) := by
  apply whole_of_two
  · cases dst <;> cases src <;> rfl
  · intro b first second other n
    rcases second with second | second
    · have operand := modRm_reg src.code_lt second
      simp [decode, decodePlain, decodeRm, first, operand]
      omega
    · simp [decode, decodePlain, decodeRm, modRm, first, second]
      omega

theorem whole_aluReg (op : Alu) (dst src : Reg) :
    Whole [UInt8.ofNat (0x01 + 8 * op.code), UInt8.ofNat (0xC0 + 8 * src.code + dst.code)]
      (.alu op .full (.reg dst) (.reg src)) := by
  apply whole_of_two
  · cases op <;> cases dst <;> cases src <;> rfl
  · intro b first second other n
    have reads : decode b = decodeRm b .full := by
      cases op <;> simp [decode, decodePlain, first, Alu.code]
    rcases second with second | second
    · have operand := modRm_reg src.code_lt second
      rw [reads]
      cases op <;> simp [decodeRm, first, operand, Alu.code] <;> omega
    · rw [reads]
      cases op <;> simp [decodeRm, modRm, first, second, Alu.code] <;> omega

theorem whole_word {c : UInt8} (instr : UInt32 → Instr)
    (reads : ∀ b : Bytes, b 0 = c → decode b = some (instr (dword b 1), 5)) (value : UInt32) :
    Whole (c :: Bytes.le32 value) (instr value) := by
  apply whole_of_two
  · change decode (ofList (c :: Bytes.le32 value)) = some (instr value, 5)
    rw [reads _ rfl, dword_one]
  · intro b first _ other n found
    rw [reads b first] at found
    cases found
    rfl

theorem whole_pushImm : ∀ value : UInt32, Whole (0x68 :: Bytes.le32 value) (.push (.imm value)) := by
  apply whole_word fun value => .push (.imm value)
  intro b first
  simp [decode, decodePlain, first]

theorem whole_movImm (dst : Reg) : ∀ value : UInt32,
    Whole (UInt8.ofNat (0xB8 + dst.code) :: Bytes.le32 value)
      (.mov .full (.reg dst) (.imm value)) := by
  apply whole_word fun value => .mov .full (.reg dst) (.imm value)
  intro b first
  cases dst <;> simp [decode, decodePlain, first, Reg.code, Reg.ofCode]

theorem whole_aluEax (op : Alu) : ∀ value : UInt32,
    Whole (UInt8.ofNat (0x05 + 8 * op.code) :: Bytes.le32 value)
      (.alu op .full (.reg .eax) (.imm value)) := by
  apply whole_word fun value => .alu op .full (.reg .eax) (.imm value)
  intro b first
  cases op <;> simp [decode, decodePlain, first, Alu.code, Alu.ofCode]

theorem whole_call : ∀ value : UInt32, Whole (0xE8 :: Bytes.le32 value) (.call value) := by
  apply whole_word fun value => .call value
  intro b first
  simp [decode, decodePlain, first]

theorem whole_jmp : ∀ value : UInt32, Whole (0xE9 :: Bytes.le32 value) (.jmp value) := by
  apply whole_word fun value => .jmp value
  intro b first
  simp [decode, decodePlain, first]

theorem whole_aluImm (op : Alu) (dst : Reg) (value : UInt32) :
    Whole (0x81 :: UInt8.ofNat (0xC0 + 8 * op.code + dst.code) :: Bytes.le32 value)
      (.alu op .full (.reg dst) (.imm value)) := by
  have reads (b : Bytes) (first : b 0 = 0x81) : decode b = decodeRm b .full := by
    simp [decode, decodePlain, first]
  have group (b : Bytes) (first : b 0 = 0x81)
      (second : b 1 = UInt8.ofNat (0xC0 + 8 * op.code + dst.code)) :
      decode b = some (.alu op .full (.reg dst) (.imm (dword b 2)), 6) := by
    have operand := modRm_reg op.code_lt second
    rw [reads b first]
    simp [decodeRm, first, operand]
  apply whole_of_two
  · change decode (ofList (0x81 :: _ :: Bytes.le32 value)) = some (_, 6)
    rw [group _ rfl rfl, dword_two]
  · intro b first second other n
    rcases second with second | second
    · rw [group b first second]
      intro found
      cases found
      rfl
    · rw [reads b first]
      simp [decodeRm, modRm, first, second]
      omega

theorem whole_jcc (cond : Nat) (small : cond < 16) (value : UInt32) :
    Whole (0x0F :: UInt8.ofNat (0x80 + cond) :: Bytes.le32 value) (.jcc cond value) := by
  have field : (UInt8.ofNat (0x80 + cond)).toNat = 0x80 + cond := by
    rw [UInt8.toNat_ofNat']
    omega
  have reads (b : Bytes) (first : b 0 = 0x0F) (second : b 1 = UInt8.ofNat (0x80 + cond)) :
      decode b = some (.jcc cond (dword b 2), 6) := by
    have high : (0x80 + cond) / 16 = 8 := by omega
    have low : (0x80 + cond) % 16 = cond := by omega
    rw [decode, if_pos first, decodeTwo, second]
    rw [field, if_pos high, low]
  apply whole_of_two
  · change decode (ofList (0x0F :: _ :: Bytes.le32 value)) = some (_, 6)
    rw [reads _ rfl rfl, dword_two]
  · intro b first second other n found
    rcases second with second | second
    · rw [reads b first second] at found
      cases found
      rfl
    · rw [decode, if_pos first] at found
      simp [decodeTwo, second] at found

theorem whole_int (n : UInt8) : Whole [0xCD, n] (.int n) := by
  have reads (b : Bytes) (first : b 0 = 0xCD) : decode b = some (.int (b 1), 2) := by
    simp [decode, decodePlain, first]
  apply whole_of_two
  · exact reads _ rfl
  · intro b first _ other n found
    rw [reads b first] at found
    cases found
    rfl

end Trinux.Ia32
