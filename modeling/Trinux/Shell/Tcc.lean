import Trinux.Lib.Program
import Trinux.Shell.TccLexer
import Trinux.Shell.TccBuiltins

namespace Trinux

/-!
# The state of the compiler

The lexer state, the buffers and the tables of the compiler, and the operations that its parser
performs on them.  Tables are static in the source and only their counters are reset, so what an
earlier compilation or function left in a slot is part of the state.  Two marks record what the
source does not notice: an access outside of a table, and an entry that is dropped.
-/

namespace Tcc

open Bytes

/-! ## Tables -/

def maxCode : Nat := 32768

def maxData : Nat := 8192

def maxVars : Nat := 128

def maxGlobals : Nat := 128

def maxFuncs : Nat := 32

def maxStrings : Nat := 64

def maxBreaks : Nat := 64

def maxLoopDepth : Nat := 8

def maxCallFixups : Nat := 128

def maxGlobFixups : Nat := 512

def baseAddr : UInt32 := 0x08048000

/-- The width of an element of a variable, and whether the variable is an array itself. -/
structure Shape where
  elemSize : UInt32
  isArray : Bool
  deriving DecidableEq

structure Local where
  name : List UInt8
  offset : UInt32
  shape : Option Shape
  deriving DecidableEq

structure Global where
  name : List UInt8
  bssOff : UInt32
  size : UInt32
  shape : Shape
  declared : Nat
  deriving DecidableEq

structure LoopCtx where
  breaks : List Nat
  continues : List Nat
  deriving DecidableEq

/-- What `parse_statement` keeps for the increment of a loop: where the increment begins, where
the body begins, and the text and the token behind the body. -/
structure Increment where
  start : List UInt8
  body : List UInt8
  behind : List UInt8
  tok : Tok
  deriving DecidableEq

/-- The state of the compiler.  `code` holds what was written, `cp` is the position in it; the
positions of `loopStack` begin with the innermost loop.  The positions that the parser keeps in variables
until it patches them are in `fields`, and what it keeps for loops in `increments`.

The rest is history that the compiler does not keep.  `slots` has the shapes that stand in the slots of
`locals`; `called`, `defined` and `strings` have calls, functions and strings in full, and `strUses` and
`globUses` the fields for strings and global variables.  `outside` says that something was written outside
of a table, `behind` that the text was read behind its end, `dropped` that something was left out because a
table was full, `unknown` that a character was taken for the end of the text, and `lost` that a part of an
increment was not parsed. -/
structure St where
  text : List UInt8
  curToken : Tok
  tokNum : UInt32
  tokStr : List UInt8
  tokIdent : List UInt8
  errCount : Nat
  code : Nat → UInt8
  cp : Nat
  data : List UInt8
  locals : List Local
  slots : Nat → Shape
  stackOffset : UInt32
  globals : List Global
  bssSize : UInt32
  globFixups : List (Nat × UInt32)
  funcs : List (List UInt8 × Nat)
  callFixups : List (Nat × List UInt8)
  strFixups : List (Nat × Nat)
  loopStack : List LoopCtx
  fields : List Nat
  increments : List Increment
  called : List (Nat × List UInt8)
  defined : List (List UInt8 × Nat)
  strings : List (Nat × List UInt8)
  strUses : List (Nat × Nat)
  globUses : List (Nat × UInt32)
  outside : Bool
  behind : Bool
  dropped : Bool
  unknown : Bool
  lost : Bool
  numKnown : Bool
  strKnown : Bool
  identKnown : Bool

namespace St

def nextToken (s : St) : St :=
  let found := lex s.text
  { s with
    text := found.rest
    curToken := found.tok
    tokNum := found.num.getD s.tokNum
    tokStr := found.str.getD s.tokStr
    tokIdent := found.ident.getD s.tokIdent
    outside := s.outside || decide (63 < (found.ident.getD []).length)
    behind := s.behind || found.behind
    unknown := s.unknown || found.unknown
    numKnown := s.numKnown || found.num.isSome
    strKnown := s.strKnown || found.str.isSome
    identKnown := s.identKnown || found.ident.isSome }

def e8 (s : St) (b : UInt8) : St :=
  if s.cp < maxCode then
    { s with code := fun i => if i = s.cp then b else s.code i, cp := s.cp + 1 }
  else { s with dropped := true }

def emit (s : St) (bytes : List UInt8) : St := bytes.foldl e8 s

def patch32 (s : St) (off : Nat) (value : UInt32) : St :=
  { s with
    code := fun i => if off ≤ i ∧ i < off + 4 then (le32 value).getD (i - off) 0 else s.code i
    outside := s.outside || decide (maxCode < off + 4) }

def storeString (s : St) : St :=
  let bytes := s.tokStr.takeWhile (· ≠ 0) ++ [0]
  { s with
    data := s.data ++ bytes.take (maxData - s.data.length)
    strings := s.strings ++ [(s.data.length, s.tokStr.takeWhile (· ≠ 0))]
    dropped := s.dropped || decide (maxData < s.data.length + bytes.length) }

def e32 (s : St) (value : UInt32) : St := s.emit (le32 value)

def strField (s : St) (dataOff : Nat) : St :=
  let s := { s with strUses := s.strUses ++ [(s.cp, dataOff)] }
  let s :=
    if s.strFixups.length < maxStrings then
      { s with strFixups := s.strFixups ++ [(s.cp, dataOff)] }
    else { s with dropped := true }
  s.e32 0

def globField (s : St) (bssOff : UInt32) : St :=
  let s := { s with globUses := s.globUses ++ [(s.cp, bssOff)] }
  let s :=
    if s.globFixups.length < maxGlobFixups then
      { s with globFixups := s.globFixups ++ [(s.cp, bssOff)] }
    else { s with dropped := true }
  s.e32 0

def callField (s : St) (name : List UInt8) : St :=
  let s := { s with called := s.called ++ [(s.cp, name)] }
  let s :=
    if s.callFixups.length < maxCallFixups then
      { s with callFixups := s.callFixups ++ [(s.cp, name.take 31)] }
    else { s with dropped := true }
  s.e32 0

def findLocalIdx (s : St) (name : List UInt8) : Option Nat :=
  (List.range s.locals.length).reverse.find? fun i => (s.locals[i]?).any fun l => l.name == name

def findLocal (s : St) (name : List UInt8) : Option UInt32 :=
  (s.findLocalIdx name).bind fun i => (s.locals[i]?).map Local.offset

def findGlobal (s : St) (name : List UInt8) : Option Global :=
  s.globals.find? fun g => g.name == name

def localShape (s : St) (name : List UInt8) : Shape :=
  match s.findLocalIdx name with
  | some i => ((s.locals[i]?).bind Local.shape).getD (s.slots i)
  | none => ⟨4, false⟩

def pushLocal (s : St) (name : List UInt8) (offset : UInt32) (shape : Shape) : St :=
  if s.locals.length < maxVars then
    { s with
      locals := s.locals ++ [⟨name.take 31, offset, some shape⟩]
      slots := fun i => if i = s.locals.length then shape else s.slots i }
  else { s with dropped := true }

def addLocal (s : St) (name : List UInt8) : St :=
  let s := { s with stackOffset := s.stackOffset - 4 }
  s.pushLocal name s.stackOffset ⟨4, false⟩

def addArray (s : St) (name : List UInt8) (bytes elem : UInt32) : St :=
  let s := { s with stackOffset := s.stackOffset - bytes }
  s.pushLocal name s.stackOffset ⟨elem, true⟩

def addParam (s : St) (name : List UInt8) : St :=
  { s with
    locals := s.locals ++ [⟨name.take 31, UInt32.ofNat (8 + s.locals.length * 4), none⟩]
    outside := s.outside || decide (maxVars ≤ s.locals.length) }

def addFunc (s : St) (name : List UInt8) : St :=
  { s with
    funcs := s.funcs ++ [(name.take 31, s.cp)]
    defined := s.defined ++ [(name, s.cp)]
    outside := s.outside || decide (maxFuncs ≤ s.funcs.length) }

def resetLocals (s : St) : St := { s with locals := [], stackOffset := 0 }

def addGlobal (s : St) (name : List UInt8) (count width : UInt32) (shape : Shape) : St :=
  let size := count * width
  if s.globals.length < maxGlobals then
    { s with
      globals := s.globals ++
        [⟨name.take 31, s.bssSize, size, shape, count.toNat * width.toNat⟩]
      bssSize := UInt32.ofNat ((s.bssSize + size + 3).toNat / 4 * 4) }
  else { s with dropped := true }

/-! ## Loops -/

def loopEnter (s : St) : St :=
  { s with
    loopStack := ⟨[], []⟩ :: s.loopStack
    dropped := s.dropped || decide (maxLoopDepth ≤ s.loopStack.length) }

def patchAll (s : St) (positions : List Nat) (target : Nat) : St :=
  positions.foldl
    (fun s off => s.patch32 off (UInt32.ofNat target - UInt32.ofNat off - 4)) s

def loopExit (s : St) : St :=
  match s.loopStack with
  | [] => s
  | ctx :: outer =>
      let s := { s with
        loopStack := outer
        outside := s.outside || decide (maxLoopDepth ≤ outer.length) }
      s.patchAll ctx.breaks s.cp

def loopPatchContinues (s : St) (target : Nat) : St :=
  match s.loopStack with
  | [] => s
  | ctx :: outer =>
      let s := { s with outside := s.outside || decide (maxLoopDepth ≤ outer.length) }
      s.patchAll ctx.continues target

/-- A jump whose position is recorded for the innermost loop; where it is recorded is given. -/
def jumpInLoop (s : St) (positions : LoopCtx → List Nat) (record : LoopCtx → Nat → LoopCtx) :
    St :=
  match s.loopStack with
  | [] => { s with errCount := s.errCount + 1 }
  | ctx :: outer =>
      if maxLoopDepth ≤ outer.length then { s with errCount := s.errCount + 1 }
      else
        let s := s.e8 0xE9
        let s :=
          if (positions ctx).length < maxBreaks then
            { s with loopStack := record ctx s.cp :: outer }
          else { s with dropped := true }
        s.e32 0

def emitBreak (s : St) : St :=
  s.jumpInLoop LoopCtx.breaks fun ctx off => { ctx with breaks := ctx.breaks ++ [off] }

def emitContinue (s : St) : St :=
  s.jumpInLoop LoopCtx.continues fun ctx off => { ctx with continues := ctx.continues ++ [off] }

/-- The code of a built-in function.  Some bytes are patched where they would stand;
the position does not move beyond the buffer. -/
def emitBuiltin (s : St) (b : Builtin) : St :=
  let s' := s.emit b.code
  { s' with outside := s'.outside || (b.patched.any fun last => decide (maxCode ≤ s.cp + last)) }

def jumpField (s : St) : St :=
  { s with fields := s.fields ++ [s.cp] }.e32 0

def patchHere (s : St) (field : Nat) : St :=
  match s.fields[field]? with
  | some off => s.patch32 off (UInt32.ofNat s.cp - UInt32.ofNat off - 4)
  | none => s

def skipTo : (depth : Nat) → List UInt8 → List UInt8
  | _, [] => []
  | depth, c :: rest =>
      if c = 0 then c :: rest
      else if c = 0x29 ∧ depth = 0 then rest
      else
        skipTo (if c = 0x28 then depth + 1 else if c = 0x29 then depth - 1 else depth) rest

def markIncrement (s : St) : St :=
  { s with increments := ⟨s.text, [], [], .eof⟩ :: s.increments }

def withBody (body : List UInt8) : List Increment → List Increment
  | [] => []
  | inc :: outer => { inc with body := body } :: outer

def skipIncrement (s : St) : St :=
  let body := skipTo 0 s.text
  { s with text := body, increments := withBody body s.increments }

/-- The lexer goes back to the increment, and what is behind the body is kept. -/
def toIncrement (s : St) : St :=
  match s.increments with
  | [] => s
  | inc :: outer =>
      { s with
        text := inc.start
        increments := { inc with behind := s.text, tok := s.curToken } :: outer }

def toBehind (s : St) : St :=
  match s.increments with
  | [] => s
  | inc :: outer =>
      { s with
        text := inc.behind
        curToken := inc.tok
        increments := outer
        lost := s.lost || !(s.curToken == .rparen && s.text == inc.body) }

def rewind (s : St) (text : List UInt8) : St := { s with text := text, curToken := .ident }

/-! ## The loops and the fields by cases -/

theorem loopExit_nil {s : St} (stack : s.loopStack = []) : s.loopExit = s := by
  unfold loopExit
  rw [stack]

theorem loopExit_cons {s : St} {ctx : LoopCtx} {outer : List LoopCtx}
    (stack : s.loopStack = ctx :: outer) :
    s.loopExit = patchAll { s with
      loopStack := outer
      outside := s.outside || decide (maxLoopDepth ≤ outer.length) } ctx.breaks s.cp := by
  unfold loopExit
  rw [stack]

theorem loopPatchContinues_nil {s : St} (stack : s.loopStack = []) (target : Nat) :
    s.loopPatchContinues target = s := by
  unfold loopPatchContinues
  rw [stack]

theorem loopPatchContinues_cons {s : St} {ctx : LoopCtx} {outer : List LoopCtx}
    (stack : s.loopStack = ctx :: outer) (target : Nat) :
    s.loopPatchContinues target = patchAll { s with
      outside := s.outside || decide (maxLoopDepth ≤ outer.length) } ctx.continues target := by
  unfold loopPatchContinues
  rw [stack]

theorem jumpInLoop_nil {s : St} (stack : s.loopStack = []) (positions : LoopCtx → List Nat)
    (record : LoopCtx → Nat → LoopCtx) :
    s.jumpInLoop positions record = { s with errCount := s.errCount + 1 } := by
  unfold jumpInLoop
  rw [stack]

theorem jumpInLoop_deep {s : St} {ctx : LoopCtx} {outer : List LoopCtx}
    (stack : s.loopStack = ctx :: outer) (deep : maxLoopDepth ≤ outer.length)
    (positions : LoopCtx → List Nat) (record : LoopCtx → Nat → LoopCtx) :
    s.jumpInLoop positions record = { s with errCount := s.errCount + 1 } := by
  unfold jumpInLoop
  rw [stack]
  exact if_pos deep

theorem jumpInLoop_cons {s : St} {ctx : LoopCtx} {outer : List LoopCtx}
    (stack : s.loopStack = ctx :: outer) (deep : ¬ maxLoopDepth ≤ outer.length)
    (positions : LoopCtx → List Nat) (record : LoopCtx → Nat → LoopCtx) :
    s.jumpInLoop positions record =
      e32 (if (positions ctx).length < maxBreaks then
        { s.e8 0xE9 with loopStack := record ctx (s.e8 0xE9).cp :: outer }
      else { s.e8 0xE9 with dropped := true }) 0 := by
  unfold jumpInLoop
  rw [stack]
  exact if_neg deep

theorem patchHere_none {s : St} {field : Nat} (found : s.fields[field]? = none) :
    s.patchHere field = s := by
  unfold patchHere
  rw [found]

theorem patchHere_some {s : St} {field off : Nat} (found : s.fields[field]? = some off) :
    s.patchHere field = s.patch32 off (UInt32.ofNat s.cp - UInt32.ofNat off - 4) := by
  unfold patchHere
  rw [found]

theorem toIncrement_nil {s : St} (kept : s.increments = []) : s.toIncrement = s := by
  unfold toIncrement
  rw [kept]

theorem toIncrement_cons {s : St} {inc : Increment} {outer : List Increment}
    (kept : s.increments = inc :: outer) :
    s.toIncrement = { s with
      text := inc.start
      increments := { inc with behind := s.text, tok := s.curToken } :: outer } := by
  unfold toIncrement
  rw [kept]

theorem toBehind_nil {s : St} (kept : s.increments = []) : s.toBehind = s := by
  unfold toBehind
  rw [kept]

theorem toBehind_cons {s : St} {inc : Increment} {outer : List Increment}
    (kept : s.increments = inc :: outer) :
    s.toBehind = { s with
      text := inc.behind
      curToken := inc.tok
      increments := outer
      lost := s.lost || !(s.curToken == .rparen && s.text == inc.body) } := by
  unfold toBehind
  rw [kept]

end St

/-! ## Operations -/

inductive Op where
  | nextToken
  | error
  | token
  | number
  | name
  | position
  | text
  | emit (bytes : List UInt8)
  | patchHere (field : Nat)
  | storeString
  | strField (dataOff : Nat)
  | globField (bssOff : UInt32)
  | callField (name : List UInt8)
  | jumpField
  | findLocal (name : List UInt8)
  | findGlobal (name : List UInt8)
  | localShape (name : List UInt8)
  | addLocal (name : List UInt8)
  | addArray (name : List UInt8) (bytes elem : UInt32)
  | addParam
  | addFunc (name : List UInt8)
  | resetLocals
  | addGlobal (name : List UInt8) (count width : UInt32) (shape : Shape)
  | loopEnter
  | loopExit
  | loopPatchContinues (target : Nat)
  | emitBreak
  | emitContinue
  | emitBuiltin (name : List UInt8) (argc : Nat)
  | markIncrement
  | skipIncrement
  | toIncrement
  | toBehind
  | rewind (text : List UInt8)

def Op.Result : Op → Type
  | .token => Tok
  | .number => UInt32
  | .name => List UInt8
  | .position => Nat
  | .jumpField => Nat
  | .text => List UInt8
  | .storeString => Nat
  | .findLocal _ => Option UInt32
  | .findGlobal _ => Option Global
  | .localShape _ => Shape
  | .addLocal _ => UInt32
  | .addArray _ _ _ => UInt32
  | .emitBuiltin _ _ => Bool
  | _ => Unit

def exec : (op : Op) → St → op.Result × St
  | .nextToken, s => ((), s.nextToken)
  | .error, s => ((), { s with errCount := s.errCount + 1 })
  | .token, s => (s.curToken, s)
  | .number, s => (s.tokNum, s)
  | .name, s => (s.tokIdent.take 63, s)
  | .position, s => (s.cp, s)
  | .text, s => (s.text, s)
  | .emit bytes, s => ((), s.emit bytes)
  | .patchHere field, s => ((), s.patchHere field)
  | .storeString, s => (s.data.length, if s.curToken = .str then s.storeString else s)
  | .strField dataOff, s => ((), s.strField dataOff)
  | .globField bssOff, s => ((), s.globField bssOff)
  | .callField name, s => ((), s.callField name)
  | .jumpField, s => (s.fields.length, s.jumpField)
  | .findLocal name, s => (s.findLocal name, s)
  | .findGlobal name, s => (s.findGlobal name, s)
  | .localShape name, s => (s.localShape name, s)
  | .addLocal name, s => (s.stackOffset - 4, s.addLocal name)
  | .addArray name bytes elem, s => (s.stackOffset - bytes, s.addArray name bytes elem)
  | .addParam, s => ((), s.addParam (s.tokIdent.take 63))
  | .addFunc name, s => ((), s.addFunc name)
  | .resetLocals, s => ((), s.resetLocals)
  | .addGlobal name count width shape, s => ((), s.addGlobal name count width shape)
  | .loopEnter, s => ((), s.loopEnter)
  | .loopExit, s => ((), s.loopExit)
  | .loopPatchContinues target, s => ((), s.loopPatchContinues target)
  | .emitBreak, s => ((), s.emitBreak)
  | .emitContinue, s => ((), s.emitContinue)
  | .emitBuiltin name argc, s =>
      match findBuiltin name argc with
      | some b => (true, s.emitBuiltin b)
      | none => (false, s)
  | .markIncrement, s => ((), s.markIncrement)
  | .skipIncrement, s => ((), s.skipIncrement)
  | .toIncrement, s => ((), s.toIncrement)
  | .toBehind, s => ((), s.toBehind)
  | .rewind text, s => ((), s.rewind text)

abbrev M (α : Type) := Program Op Op.Result α

def perform (op : Op) : M op.Result := .perform op .done

def token : M Tok := perform .token

def number : M UInt32 := perform .number

def nextToken : M Unit := perform .nextToken

def error : M Unit := perform .error

def emit (bytes : List UInt8) : M Unit := perform (.emit bytes)

def position : M Nat := perform .position

def patchHere (field : Nat) : M Unit := perform (.patchHere field)

def expect (tok : Tok) : M Unit := do
  if (← token) ≠ tok then
    error
    error
  nextToken

def tokenIn (toks : List Tok) : M Bool := do return (← token) ∈ toks

end Tcc

end Trinux
