import Trinux.Shell.Tcc

namespace Trinux

/-!
# The parser of the compiler

One pass of recursive descent that emits code as it goes; the result of an expression is left on
the stack of the running program.  Each function of the source is a program over the operations.
What is recursive is given as an argument, and the recursion is closed in `parseExpr` and
`parseStatement` with a bound on its depth and on the length of loops.
-/

namespace Tcc

open Bytes

/-! ## Expressions -/

/-- Where a variable is: at an offset from `ebp`, or in the area of the global variables. -/
inductive Place where
  | local (off : UInt32)
  | global (g : Global)

def findVariable (name : List UInt8) : M (Option Place) := do
  match ← perform (.findLocal name) with
  | some off => return some (.local off)
  | none =>
      match ← perform (.findGlobal name) with
      | some g => return some (.global g)
      | none => return none

/-- An instruction whose operand is a local variable or the address of a global one. -/
def emitPlace (place : Place) (opLocal opGlobal : List UInt8) : M Unit := do
  match place with
  | .local off => emit (opLocal ++ le32 off)
  | .global g =>
      emit opGlobal
      perform (.globField g.bssOff)

def undefined : M Unit := do
  error
  emit (0x68 :: le32 0)

def parseArgs (expr : M Unit) : Nat → (argc : Nat) → M Nat
  | 0, _ => .stop
  | bound + 1, argc => do
      if (← token) = .comma then
        nextToken
        expr
        parseArgs expr bound (argc + 1)
      else return argc

def parseCall (bound : Nat) (expr : M Unit) (name : List UInt8) : M Unit := do
  nextToken
  let argc ← if (← token) = .rparen then pure 0
    else do
      expr
      parseArgs expr bound 1
  expect .rparen
  if !(← perform (.emitBuiltin name argc)) then
    emit [0xE8]
    perform (.callField name)
    if 0 < argc then emit [0x83, 0xC4, UInt8.ofNat (argc * 4)]
    emit [0x50]

def placeOrNew (name : List UInt8) : M Place := do
  match ← findVariable name with
  | some place => return place
  | none =>
      let off ← perform (.addLocal name)
      return Place.local off

def parseAssign (expr : M Unit) (name : List UInt8) : M Unit := do
  nextToken
  expr
  let place ← placeOrNew name
  emit [0x58]
  emitPlace place [0x89, 0x85] [0xA3]
  emit [0x50]

def compoundCode (op : Tok) : List UInt8 :=
  if op = .plusEq then [0x01, 0xD8]
  else if op = .minusEq then [0x29, 0xD8]
  else if op = .starEq then [0x0F, 0xAF, 0xC3]
  else if op = .slashEq then [0x99, 0xF7, 0xFB]
  else [0x99, 0xF7, 0xFB, 0x89, 0xD0]

def parseCompound (expr : M Unit) (name : List UInt8) (op : Tok) : M Unit := do
  nextToken
  match ← findVariable name with
  | none =>
      error
      expr
      emit [0x83, 0xC4, 4]
      emit (0x68 :: le32 0)
  | some place =>
      emitPlace place [0x8B, 0x85] [0xA1]
      emit [0x50]
      expr
      emit [0x5B, 0x58]
      emit (compoundCode op)
      emitPlace place [0x89, 0x85] [0xA3]
      emit [0x50]

def parsePostfix (name : List UInt8) (op : Tok) : M Unit := do
  nextToken
  match ← findVariable name with
  | none => undefined
  | some place =>
      emitPlace place [0x8B, 0x85] [0xA1]
      emit [0x50]
      if op = .plusPlus then emitPlace place [0xFF, 0x85] [0xFF, 0x05]
      else emitPlace place [0xFF, 0x8D] [0xFF, 0x0D]

def parseIndex (expr : M Unit) (name : List UInt8) (place : Place) : M Unit := do
  let shape ← match place with
    | .local _ => perform (.localShape name)
    | .global g => pure g.shape
  nextToken
  expr
  expect .rbrack
  emit [0x58]
  if shape.elemSize = 4 then emit [0xC1, 0xE0, 2]
  if shape.isArray then
    match place with
    | .local off => emit ([0x89, 0xEA, 0x81, 0xC2] ++ le32 off)
    | .global _ => emitPlace place [] [0xBA]
  else emitPlace place [0x8B, 0x95] [0x8B, 0x15]
  emit [0x01, 0xC2]
  if (← token) = .assign then
    emit [0x52]
    nextToken
    expr
    emit [0x58, 0x5A]
    emit (if shape.elemSize = 1 then [0x88, 0x02] else [0x89, 0x02])
    emit [0x50]
  else
    emit (if shape.elemSize = 1 then [0x31, 0xC0, 0x8A, 0x02] else [0x8B, 0x02])
    emit [0x50]

def parseVariable (expr : M Unit) (name : List UInt8) : M Unit := do
  match ← findVariable name with
  | none => undefined
  | some place =>
      if (← token) = .lbrack then parseIndex expr name place
      else
        emitPlace place [0x8B, 0x85] [0xA1]
        emit [0x50]

def parsePrimary (bound : Nat) (expr : M Unit) : M Unit := do
  match ← token with
  | .num =>
      emit (0x68 :: le32 (← number))
      nextToken
  | .str =>
      let soff ← perform .storeString
      emit [0x68]
      perform (.strField soff)
      nextToken
  | .ident =>
      let name ← perform .name
      nextToken
      match ← token with
      | .lparen => parseCall bound expr name
      | .assign => parseAssign expr name
      | .plusEq => parseCompound expr name .plusEq
      | .minusEq => parseCompound expr name .minusEq
      | .starEq => parseCompound expr name .starEq
      | .slashEq => parseCompound expr name .slashEq
      | .percentEq => parseCompound expr name .percentEq
      | .plusPlus => parsePostfix name .plusPlus
      | .minusMinus => parsePostfix name .minusMinus
      | _ => parseVariable expr name
  | .lparen =>
      nextToken
      expr
      expect .rparen
  | _ =>
      error
      nextToken
      emit (0x68 :: le32 0)

def parseAddress (bound : Nat) (expr : M Unit) : M Unit := do
  nextToken
  if (← token) = .ident then
    let name ← perform .name
    nextToken
    match ← findVariable name with
    | none => undefined
    | some place =>
        emitPlace place [0x8D, 0x85] [0xB8]
        emit [0x50]
  else
    error
    parsePrimary bound expr

def parsePrefix (bound : Nat) (expr : M Unit) (opcode : List UInt8) : M Unit := do
  nextToken
  if (← token) = .ident then
    let name ← perform .name
    nextToken
    match ← perform (.findLocal name) with
    | none => undefined
    | some off =>
        emit (opcode ++ le32 off)
        emit ([0x8B, 0x85] ++ le32 off)
        emit [0x50]
  else parsePrimary bound expr

def parseUnary (bound : Nat) (expr : M Unit) : Nat → M Unit
  | 0 => .stop
  | depth + 1 => do
      match ← token with
      | .minus =>
          nextToken
          parseUnary bound expr depth
          emit [0x58, 0xF7, 0xD8, 0x50]
      | .not =>
          nextToken
          parseUnary bound expr depth
          emit [0x58, 0x85, 0xC0, 0x0F, 0x94, 0xC0, 0x0F, 0xB6, 0xC0, 0x50]
      | .amp => parseAddress bound expr
      | .star =>
          nextToken
          parseUnary bound expr depth
          emit [0x58, 0x8B, 0x00, 0x50]
      | .plusPlus => parsePrefix bound expr [0xFF, 0x85]
      | .minusMinus => parsePrefix bound expr [0xFF, 0x8D]
      | _ => parsePrimary bound expr

def binaryCode (op : Tok) : List UInt8 :=
  match op with
  | .star => [0x0F, 0xAF, 0xC3]
  | .slash => [0x99, 0xF7, 0xFB]
  | .percent => [0x99, 0xF7, 0xFB, 0x89, 0xD0]
  | .plus => [0x01, 0xD8]
  | .minus => [0x29, 0xD8]
  | .eq => [0x39, 0xD8, 0x0F, 0x94, 0xC0, 0x0F, 0xB6, 0xC0]
  | .neq => [0x39, 0xD8, 0x0F, 0x95, 0xC0, 0x0F, 0xB6, 0xC0]
  | .lt => [0x39, 0xD8, 0x0F, 0x9C, 0xC0, 0x0F, 0xB6, 0xC0]
  | .gt => [0x39, 0xD8, 0x0F, 0x9F, 0xC0, 0x0F, 0xB6, 0xC0]
  | .lte => [0x39, 0xD8, 0x0F, 0x9E, 0xC0, 0x0F, 0xB6, 0xC0]
  | .gte => [0x39, 0xD8, 0x0F, 0x9D, 0xC0, 0x0F, 0xB6, 0xC0]
  | .and =>
      [0x85, 0xC0, 0x0F, 0x95, 0xC0, 0x85, 0xDB, 0x0F, 0x95, 0xC3, 0x20, 0xD8, 0x0F, 0xB6, 0xC0]
  | _ => [0x09, 0xD8, 0x85, 0xC0, 0x0F, 0x95, 0xC0, 0x0F, 0xB6, 0xC0]

def parseLevel (bound : Nat) (ops : List Tok) (below : M Unit) : M Unit := do
  below
  Program.loop (tokenIn ops)
    (do
      let op ← token
      nextToken
      below
      emit ([0x5B, 0x58] ++ binaryCode op ++ [0x50]))
    bound

def parseMul (bound : Nat) (expr : M Unit) : M Unit :=
  parseLevel bound [.star, .slash, .percent] (parseUnary bound expr bound)

def parseAdd (bound : Nat) (expr : M Unit) : M Unit :=
  parseLevel bound [.plus, .minus] (parseMul bound expr)

def parseCompare (bound : Nat) (expr : M Unit) : M Unit :=
  parseLevel bound [.eq, .neq, .lt, .gt, .lte, .gte] (parseAdd bound expr)

def parseExpr : Nat → M Unit
  | 0 => .stop
  | bound + 1 => parseLevel bound [.and, .or] (parseCompare bound (parseExpr bound))

/-! ## Statements -/

def optionalSemi : M Unit := do
  if (← token) = .semi then nextToken

def emitJump (opcode : List UInt8) : M Nat := do
  emit opcode
  perform .jumpField

def emitBack (opcode : List UInt8) (target : Nat) : M Unit := do
  emit opcode
  let field ← position
  emit (le32 (UInt32.ofNat target - UInt32.ofNat field - 4))

def emitTest : M Nat := do
  emit [0x58, 0x85, 0xC0]
  emitJump [0x0F, 0x84]

def parseIf (expr statement : M Unit) : M Unit := do
  nextToken
  expect .lparen
  expr
  expect .rparen
  let jz ← emitTest
  statement
  if (← token) = .else' then
    nextToken
    let jmp ← emitJump [0xE9]
    patchHere jz
    statement
    patchHere jmp
  else patchHere jz

def parseWhile (expr statement : M Unit) : M Unit := do
  nextToken
  perform .loopEnter
  let top ← position
  expect .lparen
  expr
  expect .rparen
  let jz ← emitTest
  statement
  perform (.loopPatchContinues top)
  emitBack [0xE9] top
  patchHere jz
  perform .loopExit

def parseDo (expr statement : M Unit) : M Unit := do
  nextToken
  perform .loopEnter
  let top ← position
  statement
  expect .while'
  expect .lparen
  let condition ← position
  expr
  expect .rparen
  perform (.loopPatchContinues condition)
  emit [0x58, 0x85, 0xC0]
  emitBack [0x0F, 0x85] top
  optionalSemi
  perform .loopExit

/-- `for`: the increment is skipped, and parsed behind the body from where it was. -/
def parseFor (expr statement : M Unit) : M Unit := do
  nextToken
  expect .lparen
  perform .loopEnter
  if (← token) ≠ .semi then
    expr
    emit [0x83, 0xC4, 4]
  expect .semi
  let top ← position
  if (← token) ≠ .semi then expr else emit (0x68 :: le32 1)
  perform .markIncrement
  expect .semi
  perform .skipIncrement
  nextToken
  let jz ← emitTest
  statement
  let land ← position
  perform .toIncrement
  nextToken
  if (← token) ≠ .rparen then
    expr
    emit [0x83, 0xC4, 4]
  perform .toBehind
  perform (.loopPatchContinues land)
  emitBack [0xE9] top
  patchHere jz
  perform .loopExit

def parseReturn (expr : M Unit) : M Unit := do
  nextToken
  if !(← tokenIn [.semi, .rbrace]) then
    expr
    emit [0x58]
  emit [0x89, 0xEC, 0x5D, 0xC3]
  optionalSemi

def parseDeclarator (expr : M Unit) (elem : UInt32) : M Unit := do
  let name ← perform .name
  nextToken
  match ← token with
  | .lbrack =>
      nextToken
      let size ← number
      nextToken
      expect .rbrack
      let bytes := UInt32.ofNat ((size * elem + 3).toNat / 4 * 4)
      if (← perform (.findLocal name)).isNone then
        let _ ← perform (.addArray name bytes elem)
      emit [0x83, 0xEC, bytes.toUInt8]
  | .assign =>
      nextToken
      expr
      let off ← perform (.addLocal name)
      emit ([0x58, 0x89, 0x85] ++ le32 off ++ [0x83, 0xEC, 4])
  | _ =>
      let _ ← perform (.addLocal name)
      emit [0x83, 0xEC, 4]

def parseDeclarators (expr : M Unit) (elem : UInt32) : Nat → M Unit
  | 0 => .stop
  | bound + 1 => do
      parseDeclarator expr elem
      if (← token) = .comma then
        nextToken
        parseDeclarators expr elem bound

def parseStatement : Nat → M Unit
  | 0 => .stop
  | bound + 1 => do
      let expr := parseExpr bound
      let statement := parseStatement bound
      match ← token with
      | .lbrace =>
          nextToken
          Program.loop (do return !(← tokenIn [.rbrace, .eof])) statement bound
          expect .rbrace
      | .break' =>
          nextToken
          perform .emitBreak
          optionalSemi
      | .continue' =>
          nextToken
          perform .emitContinue
          optionalSemi
      | .if' => parseIf expr statement
      | .while' => parseWhile expr statement
      | .do' => parseDo expr statement
      | .for' => parseFor expr statement
      | .return' => parseReturn expr
      | .int =>
          nextToken
          parseDeclarators expr 4 bound
          optionalSemi
      | .char =>
          nextToken
          parseDeclarators expr 1 bound
          optionalSemi
      | _ =>
          expr
          emit [0x83, 0xC4, 4]
          optionalSemi

/-! ## Functions and files -/

def parseParam : M Unit := do
  if ← tokenIn [.int, .char, .void] then nextToken
  perform .addParam
  nextToken
  if (← token) = .comma then nextToken

def parseHead : M Unit := do
  let name ← perform .name
  nextToken
  perform (.addFunc name)
  expect .lparen

def parseBody (bound : Nat) : M Unit := do
  Program.loop (do return !(← tokenIn [.rparen, .eof])) parseParam bound
  expect .rparen
  emit [0x55, 0x89, 0xE5]
  expect .lbrace
  Program.loop (do return !(← tokenIn [.rbrace, .eof])) (parseStatement bound) bound
  expect .rbrace
  emit [0x31, 0xC0, 0x89, 0xEC, 0x5D, 0xC3]

def parseFunction (bound : Nat) : M Unit := do
  parseHead
  perform .resetLocals
  parseBody bound

def declareGlobal (name : List UInt8) (count width : UInt32) (shape : Shape) : M Unit := do
  if (← perform (.findGlobal name)).isNone then perform (.addGlobal name count width shape)

/-- The global variables behind a type, the name of the first one being read. -/
def parseGlobals (elem : UInt32) : Nat → (name : List UInt8) → M Unit
  | 0, _ => .stop
  | bound + 1, name => do
      if (← token) = .lbrack then
        nextToken
        let n ← number
        nextToken
        expect .rbrack
        let n := if n = 0 ∨ 2147483648 ≤ n.toNat then 1 else n
        declareGlobal name n elem ⟨elem, true⟩
      else declareGlobal name 1 4 ⟨4, false⟩
      if (← token) = .comma then
        nextToken
        if (← token) ≠ .ident then error
        else
          let name ← perform .name
          nextToken
          parseGlobals elem bound name

def skipToken : M Unit := do
  error
  nextToken

def parseTyped (bound : Nat) (type : Tok) : M Unit := do
  nextToken
  if (← token) ≠ .ident then skipToken
  else
    let name ← perform .name
    let behind ← perform .text
    nextToken
    if (← token) = .lparen then
      perform (.rewind behind)
      parseFunction bound
    else
      parseGlobals (if type = .char then 1 else 4) bound name
      optionalSemi

def parseTop (bound : Nat) : M Unit := do
  let type ← token
  if type ∈ [Tok.int, Tok.char, Tok.void] then parseTyped bound type else skipToken

def startCode : List UInt8 :=
  [0xE8] ++ le32 0 ++ [0x89, 0xC3] ++ [0xB8] ++ le32 1 ++ [0xCD, 0x80] ++ [0xC3]

def parseFile (bound : Nat) : M Unit := do
  emit startCode
  nextToken
  Program.loop (do return (← token) ≠ .eof) (parseTop bound) bound

def parseTops (bound : Nat) : M Unit :=
  Program.loop (do return (← token) ≠ .eof) (parseTop bound) bound

theorem parseFile_eq (bound : Nat) :
    parseFile bound =
      .perform (.emit startCode) fun _ => .perform .nextToken fun _ => parseTops bound := rfl

theorem parseFile_run (bound : Nat) (s : St) :
    (parseFile bound).run exec s = (parseTops bound).run exec (s.emit startCode).nextToken := by
  rw [parseFile_eq]
  generalize startCode = bytes
  rfl

/-! ## `tcc_compile` -/

/-- What earlier compilations left: the variables and the entries that are not reset, and what
happens where memory outside of the tables or behind the text is used. -/
structure History where
  curToken : Tok
  tokNum : UInt32
  tokStr : List UInt8
  tokIdent : List UInt8
  slots : Nat → Shape
  undefined : List UInt8 → Int × Option (List UInt8)

def St.start (history : History) (text : List UInt8) : St where
  text := text
  curToken := history.curToken
  tokNum := history.tokNum
  tokStr := history.tokStr
  tokIdent := history.tokIdent
  errCount := 0
  code := fun _ => 0
  cp := 0
  data := []
  locals := []
  slots := history.slots
  stackOffset := 0
  globals := []
  bssSize := 0
  globFixups := []
  funcs := []
  callFixups := []
  strFixups := []
  loopStack := []
  fields := []
  increments := []
  called := []
  defined := []
  strings := []
  strUses := []
  globUses := []
  outside := false
  behind := false
  dropped := false
  unknown := false
  lost := false
  numKnown := false
  strKnown := false
  identKnown := false

def parsed (bound : Nat) (history : History) (text : List UInt8) : St :=
  ((parseFile bound).run exec (St.start history text)).2

def History.none : History := ⟨.eof, 0, [], [], fun _ => ⟨0, false⟩, fun _ => (-1, .none)⟩

def History.after (bound : Nat) (history : History) (text : List UInt8) : History :=
  let s := parsed bound history text
  ⟨s.curToken, s.tokNum, s.tokStr, s.tokIdent, s.slots, history.undefined⟩

def St.findFunc (s : St) (name : List UInt8) : Option (List UInt8 × Nat) :=
  s.funcs.find? fun f => f.1 == name

def hdrSize : Nat := 84

def St.dataBase (s : St) : UInt32 := baseAddr + UInt32.ofNat (hdrSize + s.cp)

def St.bssBase (s : St) : UInt32 := s.dataBase + UInt32.ofNat s.data.length

/-- The distance of a call to a function is put at its position; a function that is not defined
leaves the position as it is. -/
def St.linkCall (s : St) (fixup : Nat × List UInt8) : St :=
  match s.findFunc fixup.2 with
  | some f => s.patch32 fixup.1 (UInt32.ofNat f.2 - UInt32.ofNat fixup.1 - 4)
  | none => s

theorem St.linkCall_none {s : St} {fixup : Nat × List UInt8}
    (found : s.findFunc fixup.2 = none) : s.linkCall fixup = s := by
  unfold linkCall
  rw [found]

theorem St.linkCall_some {s : St} {fixup : Nat × List UInt8} {f : List UInt8 × Nat}
    (found : s.findFunc fixup.2 = some f) :
    s.linkCall fixup =
      s.patch32 fixup.1 (UInt32.ofNat f.2 - UInt32.ofNat fixup.1 - 4) := by
  unfold linkCall
  rw [found]

def St.link (s : St) (main : Nat) : St :=
  let s := s.patch32 1 (UInt32.ofNat main - 1 - 4)
  let s := s.callFixups.foldl St.linkCall s
  let s := s.strFixups.foldl
    (fun s fixup => s.patch32 fixup.1 (s.dataBase + UInt32.ofNat fixup.2)) s
  s.globFixups.foldl (fun s fixup => s.patch32 fixup.1 (s.bssBase + fixup.2)) s

def elfHeaders (total memsz : UInt32) : List UInt8 :=
  [0x7F, 0x45, 0x4C, 0x46, 1, 1, 1] ++ List.replicate 9 0 ++ le16 2 ++ le16 3 ++ le32 1 ++
    le32 (baseAddr + UInt32.ofNat hdrSize) ++ le32 52 ++ le32 0 ++ le32 0 ++ le16 52 ++ le16 32 ++
    le16 1 ++ List.replicate 6 0 ++
    le32 1 ++ le32 0 ++ le32 baseAddr ++ le32 baseAddr ++ le32 total ++ le32 memsz ++ le32 7 ++
    le32 0x1000

def St.image (s : St) : List UInt8 :=
  let total := UInt32.ofNat (hdrSize + s.cp + s.data.length)
  elfHeaders total (total + s.bssSize) ++ (List.range s.cp).map s.code ++ s.data

/-- `tcc_compile` behind the parser: the result, and the bytes of the output file if it is
written. -/
def finish (s : St) : Int × Option (List UInt8) :=
  if 0 < s.errCount then (-1, none)
  else
    match s.findFunc (literal "main") with
    | none => (-1, none)
    | some f => (0, some (s.link f.2).image)

/-- `tcc_compile` on a text, with a bound on its recursion and its loops; `none` where the bound
is too small. -/
def compile (bound : Nat) (history : History) (text : List UInt8) :
    Option (Int × Option (List UInt8)) :=
  let parsed := (parseFile bound).run exec (St.start history text)
  parsed.1.map fun _ =>
    if parsed.2.outside || parsed.2.behind then history.undefined text else finish parsed.2

end Tcc

end Trinux
