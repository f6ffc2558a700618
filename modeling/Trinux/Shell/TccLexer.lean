import Trinux.Fs.Node

namespace Trinux

/-!
# The lexer of the compiler

A token is read from what is left of the text.  The text is a C string: the end is where it is
empty or a zero byte stands.  What is read behind the end is of no interest; that it happens is
recorded.
-/

namespace Tcc

inductive Tok where
  | eof | num | str | ident
  | lparen | rparen | lbrace | rbrace | lbrack | rbrack
  | semi | comma | assign
  | plus | minus | star | slash | percent
  | eq | neq | lt | gt | lte | gte
  | and | or | not | amp | pipe | caret
  | if' | else' | while' | for' | do'
  | return' | break' | continue'
  | int | char | void
  | plusPlus | minusMinus
  | plusEq | minusEq | starEq | slashEq | percentEq
  deriving DecidableEq, Repr

/-- What one call of `next_token` finds: the token, what is left of the text, and what it puts
into `tok_num`, `tok_str` and `tok_ident` when it writes them.  `unknown` says that an unknown character is
taken for the end of the text, `behind` that a position behind the end is read. -/
structure Lexed where
  tok : Tok
  rest : List UInt8
  num : Option UInt32
  str : Option (List UInt8)
  ident : Option (List UInt8)
  unknown : Bool
  behind : Bool
  deriving DecidableEq

def Lexed.plain (tok : Tok) (rest : List UInt8) : Lexed := ⟨tok, rest, none, none, none, false, false⟩

def peek (text : List UInt8) : UInt8 := text.headD 0

def dropLine (text : List UInt8) : List UInt8 := text.dropWhile fun c => c ≠ 0 ∧ c ≠ 0x0A

def dropComment : List UInt8 → List UInt8
  | [] => []
  | c :: rest =>
      if c = 0 then c :: rest
      else if c = 0x2A ∧ peek rest = 0x2F then rest.drop 1
      else dropComment rest

def isWs (c : UInt8) : Bool := c = 0x20 ∨ c = 0x09 ∨ c = 0x0D ∨ c = 0x0A

def skipWsFrom : Nat → List UInt8 → List UInt8
  | 0, text => text
  | bound + 1, text =>
      match text with
      | [] => []
      | c :: rest =>
          if isWs c then skipWsFrom bound rest
          else if c = 0x2F ∧ peek rest = 0x2F then skipWsFrom bound (dropLine (c :: rest))
          else if c = 0x2F ∧ peek rest = 0x2A then skipWsFrom bound (dropComment (rest.drop 1))
          else c :: rest

def skipWs (text : List UInt8) : List UInt8 := skipWsFrom text.length text

def isDigit (c : UInt8) : Bool := 0x30 ≤ c ∧ c ≤ 0x39

def isHex (c : UInt8) : Bool :=
  isDigit c ∨ (0x61 ≤ c ∧ c ≤ 0x66) ∨ (0x41 ≤ c ∧ c ≤ 0x46)

def hexDigit (c : UInt8) : Nat :=
  if isDigit c then c.toNat - 0x30 else if 0x61 ≤ c then c.toNat - 0x61 + 10 else c.toNat - 0x41 + 10

def isLetter (c : UInt8) : Bool :=
  (0x61 ≤ c ∧ c ≤ 0x7A) ∨ (0x41 ≤ c ∧ c ≤ 0x5A) ∨ c = 0x5F

def charValue (c : UInt8) : UInt32 :=
  if c.toNat < 128 then UInt32.ofNat c.toNat else UInt32.ofNat (c.toNat + 4294967040)

def lexNumber (text : List UInt8) : Lexed :=
  if text.take 2 = literal "0x" then
    let digits := (text.drop 2).takeWhile isHex
    ⟨.num, (text.drop 2).dropWhile isHex,
      some (digits.foldl (fun n c => n * 16 + UInt32.ofNat (hexDigit c)) 0), none, none, false, false⟩
  else
    ⟨.num, text.dropWhile isDigit,
      some ((text.takeWhile isDigit).foldl (fun n c => n * 10 + UInt32.ofNat (hexDigit c)) 0),
      none, none, false, false⟩

def escape (c : UInt8) : UInt8 :=
  if c = 0x6E then 0x0A else if c = 0x74 then 0x09 else if c = 0x30 then 0 else c

/-- The loop over a string: at most so many bytes, the bytes, what is left, and whether the end was
passed behind a backslash. -/
def lexStringFrom : Nat → List UInt8 → List UInt8 × List UInt8 × Bool
  | 0, text => ([], text, false)
  | bound + 1, text =>
      match text with
      | [] => ([], [], false)
      | c :: rest =>
          if c = 0 ∨ c = 0x22 then ([], c :: rest, false)
          else if c = 0x5C then
            let more := lexStringFrom bound (rest.drop 1)
            (escape (peek rest) :: more.1, more.2.1, more.2.2 || peek rest == 0)
          else
            let more := lexStringFrom bound rest
            (c :: more.1, more.2)

def lexString (text : List UInt8) : Lexed :=
  let found := lexStringFrom 255 text
  let rest := if peek found.2.1 = 0x22 then found.2.1.drop 1 else found.2.1
  ⟨.str, rest, none, some found.1, none, false, found.2.2⟩

def lexChar (text : List UInt8) : Lexed :=
  let escaped := peek text = 0x5C
  let text := if escaped then text.drop 1 else text
  let c := peek text
  let value :=
    if escaped ∧ c = 0x6E then 0x0A else if escaped ∧ c = 0x74 then 0x09
    else if escaped ∧ c = 0x30 then 0 else charValue c
  let rest := text.drop 1
  let rest := if peek rest = 0x27 then rest.drop 1 else rest
  ⟨.num, rest, some value, none, none, false, c == 0⟩

def keywords : List (List UInt8 × Tok) :=
  [(literal "if", .if'), (literal "else", .else'), (literal "while", .while'),
    (literal "for", .for'), (literal "do", .do'), (literal "return", .return'),
    (literal "break", .break'), (literal "continue", .continue'), (literal "int", .int),
    (literal "char", .char), (literal "void", .void)]

def lexIdent (text : List UInt8) : Lexed :=
  let name := text.takeWhile fun c => isLetter c || isDigit c
  let tok := ((keywords.find? fun entry => entry.1 == name).map Prod.snd).getD .ident
  ⟨tok, text.dropWhile fun c => isLetter c || isDigit c, none, none, some name, false, false⟩

def doubles : List ((UInt8 × UInt8) × Tok) :=
  [((0x25, 0x3D), .percentEq), ((0x21, 0x3D), .neq), ((0x3D, 0x3D), .eq), ((0x3C, 0x3D), .lte),
    ((0x3E, 0x3D), .gte), ((0x26, 0x26), .and), ((0x7C, 0x7C), .or), ((0x2B, 0x2B), .plusPlus),
    ((0x2B, 0x3D), .plusEq), ((0x2D, 0x2D), .minusMinus), ((0x2D, 0x3D), .minusEq),
    ((0x2A, 0x3D), .starEq), ((0x2F, 0x3D), .slashEq)]

def singles : List (UInt8 × Tok) :=
  [(0x28, .lparen), (0x29, .rparen), (0x7B, .lbrace), (0x7D, .rbrace), (0x5B, .lbrack),
    (0x5D, .rbrack), (0x3B, .semi), (0x2C, .comma), (0x25, .percent), (0x5E, .caret),
    (0x7E, .minus), (0x21, .not), (0x3D, .assign), (0x3C, .lt), (0x3E, .gt), (0x26, .amp),
    (0x7C, .pipe), (0x2B, .plus), (0x2D, .minus), (0x2A, .star), (0x2F, .slash)]

def lexOperator (c : UInt8) (rest : List UInt8) : Lexed :=
  match doubles.find? fun entry => entry.1 == (c, peek rest) with
  | some entry => .plain entry.2 (rest.drop 1)
  | none =>
      match singles.find? fun entry => entry.1 == c with
      | some entry => .plain entry.2 rest
      | none => { Lexed.plain .eof rest with unknown := true }

def lex (text : List UInt8) : Lexed :=
  let text := skipWs text
  let c := peek text
  if c = 0 then .plain .eof text
  else if isDigit c then lexNumber text
  else if c = 0x22 then lexString (text.drop 1)
  else if c = 0x27 then lexChar (text.drop 1)
  else if isLetter c then lexIdent text
  else lexOperator c (text.drop 1)

example : (lex (literal " x1 += 2")).ident = some (literal "x1") := by decide

end Tcc

end Trinux
