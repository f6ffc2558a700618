import Trinux.Fs.Node
import Trinux.Lib.Bytes

namespace Trinux

/-!
# The built-in functions of the compiler

The bytes that `emit_builtin` emits.  Distances that the source computes from positions are
computed here from the lengths of the parts.
-/

namespace Tcc

open Bytes

def rel32 (target behind : Nat) : List UInt8 := le32 (UInt32.ofNat target - UInt32.ofNat behind)

def rel8 (target behind : Nat) : UInt8 := UInt8.ofNat target - UInt8.ofNat behind

def push0 : List UInt8 := [0x6A, 0x00]

def writeTop : List UInt8 :=
  [0xB8] ++ le32 2 ++ [0xBB] ++ le32 1 ++ [0x89, 0xE1] ++ [0xBA] ++ le32 1 ++ [0xCD, 0x80]

def printCode : List UInt8 :=
  [0x59, 0x51, 0x89, 0xCE, 0x31, 0xD2, 0x80, 0x3E, 0x00, 0x74, 0x04, 0x46, 0x42, 0xEB, 0xF7, 0x59,
    0xB8] ++ le32 2 ++ [0xBB] ++ le32 1 ++ [0xCD, 0x80] ++ push0

def printNumNegative : List UInt8 :=
  [0x50, 0x68] ++ le32 0x2D ++ writeTop ++ [0x83, 0xC4, 0x04, 0x58, 0xF7, 0xD8]

def printNumZero : List UInt8 := [0x68] ++ le32 0x30 ++ [0x41]

def printNumDigits : List UInt8 :=
  [0x31, 0xD2, 0xF7, 0xF3, 0x83, 0xC2, 0x30, 0x52, 0x41, 0x85, 0xC0, 0x75]

/-- The body of the loop of `print_num` that prints, up to the distance of its jump. -/
def printNumBody : List UInt8 := writeTop ++ [0x83, 0xC4, 0x04, 0x4E, 0xEB]

def printNumCode : List UInt8 :=
  [0x58, 0x85, 0xC0, 0x79, UInt8.ofNat printNumNegative.length] ++ printNumNegative ++
    [0x31, 0xC9, 0xBB] ++ le32 10 ++ [0x85, 0xC0, 0x75, UInt8.ofNat (printNumZero.length + 2)] ++
    printNumZero ++ [0xEB, UInt8.ofNat (printNumDigits.length + 1)] ++
    printNumDigits ++ [rel8 0 (printNumDigits.length + 1)] ++ [0x89, 0xCE] ++
    [0x85, 0xF6, 0x74, UInt8.ofNat (printNumBody.length + 1)] ++
    printNumBody ++ [rel8 0 (4 + printNumBody.length + 1)] ++ push0

def printCharCode : List UInt8 := [0x58, 0x50] ++ writeTop ++ [0x83, 0xC4, 0x04] ++ push0

def getcharCode : List UInt8 := [0xFB, 0xB8] ++ le32 6 ++ [0xCD, 0x80, 0x50]

def getlineHead : List UInt8 := [0x5A, 0x5F, 0x31, 0xC9]

/-- The loop of `getline` up to the distance to `.done`, which is behind them. -/
def getlineRead : List UInt8 := [0xFB, 0xB8] ++ le32 6 ++ [0xCD, 0x80, 0x3C, 0x0A, 0x0F, 0x84]

def getlineTest : List UInt8 := [0x3C, 0x08, 0x0F, 0x84]

def getlineStore : List UInt8 :=
  [0x88, 0x04, 0x0F, 0x41, 0x4A, 0x0F, 0xB6, 0xF0, 0x51, 0x52, 0x57, 0x56] ++ writeTop ++
    [0x83, 0xC4, 0x04, 0x5F, 0x5A, 0x59, 0x85, 0xD2, 0x0F, 0x84]

def getlineErase : List UInt8 :=
  [0x49, 0x42, 0x51, 0x52, 0x57, 0x68] ++ le32 8 ++ writeTop ++ [0xC7, 0x04, 0x24] ++ le32 0x20 ++
    writeTop ++ [0xC7, 0x04, 0x24] ++ le32 8 ++ writeTop ++ [0x83, 0xC4, 0x04, 0x5F, 0x5A, 0x59]

def getlineDone : List UInt8 :=
  [0x68] ++ le32 0x0A ++ writeTop ++ [0x83, 0xC4, 0x04, 0xC6, 0x04, 0x0F, 0x00, 0x51]

def getlineLoop : Nat := getlineHead.length

def getlineDoneField : Nat := getlineLoop + getlineRead.length

def getlineBsField : Nat := getlineDoneField + 4 + getlineTest.length

def getlineFullField : Nat := getlineBsField + 4 + getlineStore.length

def getlineBs : Nat := getlineFullField + 4 + 5

def getlineEnd : Nat := getlineBs + 2 + 6 + getlineErase.length + 5

/-- `getline`.  The second jump to `.done` goes to the field of the first one. -/
def getlineCode : List UInt8 :=
  getlineHead ++ getlineRead ++ rel32 getlineEnd (getlineDoneField + 4) ++
    getlineTest ++ rel32 getlineBs (getlineBsField + 4) ++
    getlineStore ++ rel32 getlineDoneField (getlineFullField + 4) ++
    [0xE9] ++ rel32 getlineLoop (getlineFullField + 9) ++
    [0x85, 0xC9, 0x0F, 0x84] ++ rel32 getlineLoop (getlineBs + 8) ++
    getlineErase ++ [0xE9] ++ rel32 getlineLoop getlineEnd ++ getlineDone

def sleepCode : List UInt8 := [0x5B, 0xB8] ++ le32 5 ++ [0xCD, 0x80] ++ push0

def uptimeCode : List UInt8 := [0xB8] ++ le32 7 ++ [0xCD, 0x80, 0x50]

def getpidCode : List UInt8 := [0xB8] ++ le32 3 ++ [0xCD, 0x80, 0x50]

def exitCode : List UInt8 := [0x58, 0x89, 0xEC, 0x5D, 0xC3]

def strlenCode : List UInt8 :=
  [0x5E, 0x31, 0xC0, 0x80, 0x3C, 0x06, 0x00, 0x74, 0x03, 0x40, 0xEB, 0xF7, 0x50]

def strcmpCode : List UInt8 :=
  [0x5E, 0x5F, 0x8A, 0x07, 0x3A, 0x06, 0x75, 0x0A, 0x84, 0xC0, 0x74, 0x0E, 0x47, 0x46, 0xEB, 0xF0,
    0x0F, 0xB6, 0xC0, 0x0F, 0xB6, 0x0E, 0x29, 0xC8, 0xEB, 0x02, 0x31, 0xC0, 0x50]

def strncmpCode : List UInt8 :=
  [0x59, 0x5E, 0x5F, 0xE3, 0x12, 0x8A, 0x07, 0x3A, 0x06, 0x75, 0x0C, 0x84, 0xC0, 0x74, 0x10, 0x47,
    0x46, 0x49, 0xEB, 0xEA, 0x0F, 0xB6, 0xC0, 0x0F, 0xB6, 0x0E, 0x29, 0xC8, 0xEB, 0x02, 0x31, 0xC0,
    0x50]

def strcpyCode : List UInt8 :=
  [0x5E, 0x5F, 0x89, 0xF9, 0x8A, 0x06, 0x88, 0x07, 0x46, 0x47, 0x84, 0xC0, 0x75, 0xF4, 0x51]

def itoaCode : List UInt8 :=
  [0x5F, 0x58, 0x89, 0xFB, 0x85, 0xC0, 0x79, 0x06, 0xC6, 0x07, 0x2D, 0x47, 0xF7, 0xD8, 0x31, 0xC9,
    0xBE] ++ le32 10 ++ [0x31, 0xD2, 0xF7, 0xF6, 0x83, 0xC2, 0x30, 0x52, 0x41, 0x85, 0xC0, 0x75,
    0xF3, 0x85, 0xC9, 0x74, 0x06, 0x58, 0x88, 0x07, 0x47, 0x49, 0xEB, 0xF4, 0xC6, 0x07, 0x00, 0x53]

def vgaClearCode : List UInt8 :=
  [0x58, 0x88, 0xC4, 0xB0, 0x20, 0xB9] ++ le32 0xB8000 ++ [0xBA] ++ le32 2000 ++
    [0x66, 0x89, 0x01, 0x83, 0xC1, 0x02, 0x4A, 0x75, 0xF7] ++ push0

def vgaPutcharCode : List UInt8 :=
  [0x58, 0x5B, 0x59, 0x5A, 0x6B, 0xC9, 80, 0x01, 0xD1, 0xD1, 0xE1, 0x88, 0x99] ++ le32 0xB8000 ++
    [0x88, 0x81] ++ le32 0xB8001 ++ push0

def readFileCode : List UInt8 := [0x5A, 0x59, 0x5B, 0xB8] ++ le32 8 ++ [0xCD, 0x80, 0x50]

def writeFileCode : List UInt8 := [0x5A, 0x59, 0x5B, 0xB8] ++ le32 9 ++ [0xCD, 0x80, 0x50]

def readLineCode : List UInt8 := [0x59, 0x5B, 0xB8] ++ le32 10 ++ [0xCD, 0x80, 0x50]

def vgaPrintCode : List UInt8 :=
  [0x58, 0x5E, 0x59, 0x5A, 0x6B, 0xC9, 80, 0x01, 0xD1, 0xD1, 0xE1, 0x81, 0xC1] ++ le32 0xB8000 ++
    [0x8A, 0x1E, 0x84, 0xDB, 0x74, 0x0B, 0x88, 0x19, 0x88, 0x41, 0x01, 0x46, 0x83, 0xC1, 0x02, 0xEB,
      0xEF] ++ push0

/-- A built-in function: its name, the number of its arguments when that is tested, its bytes, and
the offset of the last byte that is patched in them when some are. -/
structure Builtin where
  name : List UInt8
  argc : Option Nat
  code : List UInt8
  patched : Option Nat
  deriving DecidableEq

def builtins : List Builtin :=
  [⟨literal "print", some 1, printCode, none⟩,
    ⟨literal "print_num", some 1, printNumCode, some (printNumCode.length - printNumBody.length - 4)⟩,
    ⟨literal "print_char", some 1, printCharCode, none⟩,
    ⟨literal "getchar", none, getcharCode, none⟩,
    ⟨literal "getline", some 2, getlineCode, some (getlineBsField + 3)⟩,
    ⟨literal "sleep", some 1, sleepCode, none⟩,
    ⟨literal "uptime", none, uptimeCode, none⟩,
    ⟨literal "getpid", none, getpidCode, none⟩,
    ⟨literal "exit", some 1, exitCode, none⟩,
    ⟨literal "strlen", some 1, strlenCode, none⟩,
    ⟨literal "strcmp", some 2, strcmpCode, none⟩,
    ⟨literal "strncmp", some 3, strncmpCode, none⟩,
    ⟨literal "strcpy", some 2, strcpyCode, none⟩,
    ⟨literal "itoa", some 2, itoaCode, none⟩,
    ⟨literal "vga_clear", some 1, vgaClearCode, none⟩,
    ⟨literal "vga_putchar", some 4, vgaPutcharCode, none⟩,
    ⟨literal "read_file", some 3, readFileCode, none⟩,
    ⟨literal "write_file", some 3, writeFileCode, none⟩,
    ⟨literal "read_line", some 2, readLineCode, none⟩,
    ⟨literal "vga_print", some 4, vgaPrintCode, none⟩]

def findBuiltin (name : List UInt8) (argc : Nat) : Option Builtin :=
  builtins.find? fun b => b.name == name && (b.argc == none || b.argc == some argc)

example : (findBuiltin (literal "strlen") 1).map Builtin.code = some strlenCode := by decide

end Tcc

end Trinux
