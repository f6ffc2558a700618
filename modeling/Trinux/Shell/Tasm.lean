import Trinux.Fs.Node
import Trinux.Lib.Ia32

namespace Trinux

/-!
# The assembler

A line is stripped, split into a mnemonic and its operands, and encoded.  The same function runs in
both passes: the first collects the labels, the second the references to them.
-/

namespace Tasm

open Bytes

def maxLabels : Nat := 128

def maxCode : Nat := 8192

structure Fixup where
  codeOffset : Nat
  name : List UInt8
  rel : Bool
  deriving DecidableEq

structure Asm where
  labels : List (List UInt8 × UInt32)
  fixups : List Fixup
  code : List UInt8
  deriving DecidableEq

def Asm.emit8 (a : Asm) (b : UInt8) : Asm :=
  if a.code.length < maxCode then { a with code := a.code ++ [b] } else a

def Asm.emit (a : Asm) (bytes : List UInt8) : Asm := bytes.foldl Asm.emit8 a

def Asm.addLabel (a : Asm) (name : List UInt8) (off : UInt32) : Asm :=
  if a.labels.length < maxLabels then { a with labels := a.labels ++ [(name.take 31, off)] } else a

def Asm.addFixup (a : Asm) (off : Nat) (name : List UInt8) (rel : Bool) : Asm :=
  if a.fixups.length < maxLabels then
    { a with fixups := a.fixups ++ [⟨off, name.take 31, rel⟩] }
  else a

/-! ## Operands -/

def parseReg (s : List UInt8) : Option Ia32.Reg :=
  if s = literal "eax" then some .eax else if s = literal "ecx" then some .ecx
  else if s = literal "edx" then some .edx else if s = literal "ebx" then some .ebx
  else if s = literal "esp" then some .esp else if s = literal "ebp" then some .ebp
  else if s = literal "esi" then some .esi else if s = literal "edi" then some .edi
  else none

def isDigit (c : UInt8) : Bool := 0x30 ≤ c ∧ c ≤ 0x39

def isNumber (s : List UInt8) : Bool :=
  match s with
  | [] => false
  | c :: rest =>
      let s := if c = 0x2D then rest else s
      if s.take 2 = literal "0x" then true else s.all isDigit

def hexDigit (c : UInt8) : Option UInt32 :=
  if isDigit c then some (UInt32.ofNat (c.toNat - 0x30))
  else if 0x61 ≤ c ∧ c ≤ 0x66 then some (UInt32.ofNat (c.toNat - 0x61 + 10))
  else if 0x41 ≤ c ∧ c ≤ 0x46 then some (UInt32.ofNat (c.toNat - 0x41 + 10))
  else none

def parseHexFrom (v : UInt32) : List UInt8 → UInt32
  | [] => v
  | c :: rest =>
      match hexDigit c with
      | some digit => parseHexFrom (v * 16 + digit) rest
      | none => v

def parseHex (s : List UInt8) : UInt32 := parseHexFrom 0 s

def isSpace (c : UInt8) : Bool :=
  c = 0x20 ∨ c = 0x09 ∨ c = 0x0A ∨ c = 0x0B ∨ c = 0x0C ∨ c = 0x0D

def atoiFrom (result : UInt32) : List UInt8 → UInt32
  | [] => result
  | c :: rest =>
      if isDigit c then atoiFrom (result * 10 + UInt32.ofNat (c.toNat - 0x30)) rest else result

def atoi (s : List UInt8) : UInt32 :=
  match s.dropWhile isSpace with
  | [] => 0
  | c :: rest =>
      if c = 0x2D then 0 - atoiFrom 0 rest
      else if c = 0x2B then atoiFrom 0 rest
      else atoiFrom 0 (c :: rest)

def parseImm (s : List UInt8) : UInt32 :=
  if s.take 2 = literal "0x" then parseHex (s.drop 2) else atoi s

/-! ## Lines -/

def isBlank (c : UInt8) : Bool := c = 0x20 ∨ c = 0x09

def strip (s : List UInt8) : List UInt8 :=
  let cut := (s.dropWhile isBlank).takeWhile (· ≠ 0x3B)
  (cut.reverse.dropWhile fun c => c = 0x20 ∨ c = 0x09 ∨ c = 0x0D ∨ c = 0x0A).reverse

def isSep (c : UInt8) : Bool := c = 0x20 ∨ c = 0x09 ∨ c = 0x2C

/-- The first part of a text that does not begin with a separator, and what is behind it. -/
def firstPart (s : List UInt8) : List UInt8 × List UInt8 :=
  match s with
  | 0x22 :: rest =>
      let inner := rest.takeWhile (· ≠ 0x22)
      let after := rest.dropWhile (· ≠ 0x22)
      (0x22 :: inner ++ after.take 1, after.drop 1)
  | _ => (s.takeWhile fun c => !isSep c, s.dropWhile fun c => !isSep c)

def splitLine : (max : Nat) → List UInt8 → List (List UInt8)
  | 0, _ => []
  | max + 1, s =>
      match s.dropWhile isSep with
      | [] => []
      | c :: rest =>
          let part := firstPart (c :: rest)
          part.1 :: splitLine max (part.2.drop 1)

/-! ## Encoding -/

def dbString : List UInt8 → List UInt8
  | [] => []
  | 0x5C :: 0x6E :: rest => 0x0A :: dbString rest
  | c :: rest => c :: dbString rest

def dbPart (part : List UInt8) : List UInt8 :=
  match part with
  | 0x22 :: rest => dbString (if rest.getLast? = some 0x22 then rest.dropLast else rest)
  | _ => [(parseImm part).toUInt8]

def alus : List (List UInt8 × Ia32.Alu) :=
  [(literal "add", .add), (literal "or", .or), (literal "and", .and), (literal "sub", .sub),
    (literal "xor", .xor), (literal "cmp", .cmp)]

/-- What a line without a label emits: bytes, and a label to refer to with the offset of the word
in the bytes and whether it is relative; `none` where no branch takes the line. -/
def encodeParts (op : List UInt8) (args : List (List UInt8)) :
    Option (List UInt8 × Option (Nat × List UInt8 × Bool)) :=
  let first := args.headD []
  let second := (args.drop 1).headD []
  let rd := parseReg first
  let rs := parseReg second
  let some' := 1 ≤ args.length
  let two := 2 ≤ args.length
  let label (opcode : List UInt8) : Option (List UInt8 × Option (Nat × List UInt8 × Bool)) :=
    some (opcode ++ le32 0, some (opcode.length, first, true))
  if op = literal "db" then some (args.flatMap dbPart, none)
  else if op = literal "nop" then some ([0x90], none)
  else if op = literal "ret" then some ([0xC3], none)
  else if op = literal "hlt" then some ([0xF4], none)
  else if op = literal "int" ∧ some' then some ([0xCD, (parseImm first).toUInt8], none)
  else if op = literal "push" ∧ some' ∧ rd.isSome then
    rd.map fun r => ([UInt8.ofNat (0x50 + r.code)], none)
  else if op = literal "push" ∧ some' ∧ isNumber first then
    some (0x68 :: le32 (parseImm first), none)
  else if op = literal "pop" ∧ some' ∧ rd.isSome then
    rd.map fun r => ([UInt8.ofNat (0x58 + r.code)], none)
  else if op = literal "inc" ∧ some' ∧ rd.isSome then
    rd.map fun r => ([UInt8.ofNat (0x40 + r.code)], none)
  else if op = literal "dec" ∧ some' ∧ rd.isSome then
    rd.map fun r => ([UInt8.ofNat (0x48 + r.code)], none)
  else if op = literal "mov" ∧ two ∧ rd.isSome then
    rd.map fun r =>
      match rs with
      | some s => ([0x89, UInt8.ofNat (0xC0 + 8 * s.code + r.code)], none)
      | none =>
          if isNumber second then
            (UInt8.ofNat (0xB8 + r.code) :: le32 (parseImm second), none)
          else (UInt8.ofNat (0xB8 + r.code) :: le32 0, some (1, second, false))
  else
    match if two then alus.find? fun entry => entry.1 == op else none with
    | some (_, alu) =>
        match rd, rs with
        | some r, some s =>
            some ([UInt8.ofNat (0x01 + 8 * alu.code), UInt8.ofNat (0xC0 + 8 * s.code + r.code)], none)
        | some r, none =>
            if isNumber second then
              if r = .eax then
                some (UInt8.ofNat (0x05 + 8 * alu.code) :: le32 (parseImm second), none)
              else
                some (0x81 :: UInt8.ofNat (0xC0 + 8 * alu.code + r.code) :: le32 (parseImm second),
                  none)
            else none
        | none, _ => none
    | none =>
        if op = literal "jmp" ∧ some' then label [0xE9]
        else if op = literal "call" ∧ some' then label [0xE8]
        else if (op = literal "je" ∨ op = literal "jz") ∧ some' then label [0x0F, 0x84]
        else if (op = literal "jne" ∨ op = literal "jnz") ∧ some' then label [0x0F, 0x85]
        else none

def asmLine (line : List UInt8) (pass : Nat) (a : Asm) : Int × Asm :=
  let line := strip line
  if line = [] then (0, a)
  else if 1 < line.length ∧ line.getLast? = some 0x3A then
    (0, if pass = 1 then a.addLabel line.dropLast (UInt32.ofNat a.code.length) else a)
  else
    match splitLine 8 line with
    | [] => (0, a)
    | op :: args =>
        match encodeParts op args with
        | none => (-1, a)
        | some (bytes, none) => (0, a.emit bytes)
        | some (bytes, some (off, name, rel)) =>
            let opcode := a.emit (bytes.take off)
            let opcode := if pass = 2 then opcode.addFixup opcode.code.length name rel else opcode
            (0, opcode.emit (bytes.drop off))

/-! ## Programs -/

def baseAddr : UInt32 := 0x08048000

def hdrSize : Nat := 52 + 32

def linesFrom (line : List UInt8) : List UInt8 → List (List UInt8)
  | [] => if line = [] then [] else [line]
  | c :: rest =>
      if c = 0 then if line = [] then [] else [line]
      else if c = 0x0A then line :: linesFrom [] rest
      else if line.length = 255 then line :: linesFrom [c] rest
      else linesFrom (line ++ [c]) rest

/-- A pass over the lines of a text from its beginning; `tasm_assemble` makes the first with empty
tables and the second with the labels of the first. -/
def runPass (pass : Nat) (labels : List (List UInt8 × UInt32)) (lines : List (List UInt8)) : Asm :=
  lines.foldl (fun a line => (asmLine line pass a).2) ⟨labels, [], []⟩

def refusedLines (pass : Nat) : List (List UInt8) → Asm → Nat
  | [], _ => 0
  | line :: rest, a =>
      let result := asmLine line pass a
      (if result.1 < 0 then 1 else 0) + refusedLines pass rest result.2

/-- A word at a position of the code; what lies behind the code is not in the image. -/
def patchWord (code : List UInt8) (off : Nat) (value : UInt32) : List UInt8 :=
  (List.range code.length).map fun i =>
    if off ≤ i ∧ i < off + 4 then (le32 value).getD (i - off) 0 else code.getD i 0

def Asm.findLabel (a : Asm) (name : List UInt8) : Option (List UInt8 × UInt32) :=
  a.labels.find? fun label => label.1 == name

def resolve (s : Nat × Asm) (fixup : Fixup) : Nat × Asm :=
  match s.2.findLabel fixup.name with
  | none => (s.1 + 1, s.2)
  | some label =>
      let here := baseAddr + UInt32.ofNat (hdrSize + fixup.codeOffset + 4)
      let value := if fixup.rel then label.2 - here else label.2
      (s.1, { s.2 with code := patchWord s.2.code fixup.codeOffset value })

def elfHeaders (total : UInt32) : List UInt8 :=
  [0x7F, 0x45, 0x4C, 0x46, 1, 1, 1] ++ List.replicate 9 0 ++ le16 2 ++ le16 3 ++ le32 1 ++
    le32 (baseAddr + UInt32.ofNat hdrSize) ++ le32 52 ++ List.replicate 8 0 ++ le16 52 ++
    le16 32 ++ le16 1 ++ List.replicate 6 0 ++
    le32 1 ++ le32 0 ++ le32 baseAddr ++ le32 baseAddr ++ le32 total ++ le32 total ++ le32 7 ++
    le32 0x1000

def buildElf (code : List UInt8) : List UInt8 :=
  elfHeaders (UInt32.ofNat (hdrSize + code.length)) ++ code

/-- The state behind the second pass and the fixups, and the errors of the fixups. -/
def assembled (text : List UInt8) : Nat × Asm :=
  let lines := linesFrom [] text
  let first := runPass 1 [] lines
  let labels := first.labels.map fun label => (label.1, label.2 + (baseAddr + UInt32.ofNat hdrSize))
  let second := runPass 2 labels lines
  second.fixups.foldl resolve (0, second)

/-- `tasm_assemble` on the text of a file: the result, and the bytes of the output file if it is
written. -/
def tasmAssemble (text : List UInt8) : Int × Option (List UInt8) :=
  if 0 < refusedLines 1 (linesFrom [] text) ⟨[], [], []⟩ then (-1, none)
  else if 0 < (assembled text).1 then (-1, none)
  else (0, some (buildElf (assembled text).2.code))

end Tasm

end Trinux
