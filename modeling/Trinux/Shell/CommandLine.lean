import Mathlib.Data.List.Basic

namespace Trinux

/-!
# Words and operators of a command line

Both shells cut a line into words and operators with the same loops, in an array of fixed size and
for a fixed number of arguments.  The later passes see only the texts.
-/

namespace CommandLine

/-! ## The loops -/

structure Token where
  text : List UInt8
  op : Bool
deriving DecidableEq

def isBlank (c : UInt8) : Bool := c == 32 || c == 9

/-- The characters that are tokens of their own: `>` and `<`, and `|` in the shell of the users. -/
def isOperator (pipes : Bool) (c : UInt8) : Bool := c == 62 || c == 60 || (pipes && c == 124)

/-- The loop for a word, in an array with some room: the text and what is left of the line. -/
def wordLoop (pipes : Bool) : (q : Bool) → (room : Nat) → List UInt8 → List UInt8 × List UInt8
  | _, _, [] => ([], [])
  | q, room, c :: src =>
      if room = 0 then ([], c :: src)
      else if c = 34 then wordLoop pipes (!q) room src
      else if q = false ∧ (isBlank c = true ∨ isOperator pipes c = true) then ([], c :: src)
      else (c :: (wordLoop pipes q (room - 1) src).1, (wordLoop pipes q (room - 1) src).2)

def tokenize (pipes : Bool) : (slots room : Nat) → List UInt8 → List Token
  | 0, _, _ => []
  | slots + 1, room, line =>
      if line = [] ∨ room = 0 then []
      else
        match line.dropWhile isBlank with
        | [] => []
        | c :: src =>
            if isOperator pipes c = true then
              if c = 62 ∧ src.head? = some 62 ∧ 1 < room then
                ⟨[62, 62], true⟩ :: tokenize pipes slots (room - 3) src.tail
              else ⟨[c], true⟩ :: tokenize pipes slots (room - 2) src
            else
              let word := wordLoop pipes false room (c :: src)
              ⟨word.1, false⟩ :: tokenize pipes slots (room - (word.1.length + 1)) word.2

/-! ## The tokens of a line -/

/-- What has been read of the next token: nothing, one `>`, or a part of a word. -/
inductive Begun where
  | nothing
  | greater
  | word (text : List UInt8)

def Begun.tokens : Begun → List Token
  | .nothing => []
  | .greater => [⟨[62], true⟩]
  | .word text => [⟨text, false⟩]

def Begun.text : Begun → List UInt8
  | .word text => text
  | _ => []

def Begun.closed : Begun → List Token
  | .greater => [⟨[62], true⟩]
  | _ => []

def operatorFrom (c : UInt8) : List Token × Begun :=
  if c = 62 then ([], .greater) else ([⟨[c], true⟩], .nothing)

/-- The tokens that end with the character of an operator, and what begins with it. -/
def Begun.operator : Begun → UInt8 → List Token × Begun
  | .nothing, c => operatorFrom c
  | .word text, c => (⟨text, false⟩ :: (operatorFrom c).1, (operatorFrom c).2)
  | .greater, c =>
      if c = 62 then ([⟨[62, 62], true⟩], .nothing)
      else (⟨[62], true⟩ :: (operatorFrom c).1, (operatorFrom c).2)

/-- The words and operators of a line: whatever stands between two quotes belongs to the word. -/
def lexFrom (pipes : Bool) : (begun : Begun) → (quoted : Bool) → List UInt8 → List Token
  | begun, _, [] => begun.tokens
  | begun, quoted, c :: src =>
      if c = 34 then begun.closed ++ lexFrom pipes (.word begun.text) (!quoted) src
      else if quoted = false ∧ isBlank c = true then
        begun.tokens ++ lexFrom pipes .nothing false src
      else if quoted = false ∧ isOperator pipes c = true then
        (begun.operator c).1 ++ lexFrom pipes (begun.operator c).2 false src
      else begun.closed ++ lexFrom pipes (.word (begun.text ++ [c])) quoted src

def lex (pipes : Bool) (line : List UInt8) : List Token := lexFrom pipes .nothing false line

/-- An array has room for tokens, each with a zero behind it; the last zero is there already. -/
def RoomFor : (room : Nat) → List Token → Prop
  | _, [] => True
  | room, token :: tokens =>
      0 < room ∧ token.text.length ≤ room ∧ RoomFor (room - (token.text.length + 1)) tokens

instance decidableRoomFor (room : Nat) (tokens : List Token) : Decidable (RoomFor room tokens) := by
  induction tokens generalizing room with
  | nil => exact .isTrue trivial
  | cons token tokens known =>
      exact @instDecidableAnd _ _ _ (@instDecidableAnd _ _ _ (known _))

/-! ## The loops find the tokens -/

def lexWord (pipes : Bool) : (quoted : Bool) → List UInt8 → List UInt8 × List UInt8
  | _, [] => ([], [])
  | quoted, c :: src =>
      if c = 34 then lexWord pipes (!quoted) src
      else if quoted = false ∧ (isBlank c = true ∨ isOperator pipes c = true) then ([], c :: src)
      else (c :: (lexWord pipes quoted src).1, (lexWord pipes quoted src).2)

theorem isOperator_quote (pipes : Bool) : isOperator pipes 34 = false := by
  cases pipes <;> rfl

theorem lexFrom_word (pipes : Bool) (text : List UInt8) (quoted : Bool) (src : List UInt8) :
    lexFrom pipes (.word text) quoted src =
      ⟨text ++ (lexWord pipes quoted src).1, false⟩ ::
        lexFrom pipes .nothing false (lexWord pipes quoted src).2 := by
  induction src generalizing text quoted with
  | nil => simp [lexFrom, lexWord, Begun.tokens]
  | cons c src known =>
      rw [lexFrom, lexWord]
      by_cases quote : c = 34
      · rw [if_pos quote, if_pos quote]
        exact known text (!quoted)
      rw [if_neg quote, if_neg quote]
      by_cases blank : quoted = false ∧ isBlank c = true
      · rw [if_pos blank, if_pos (And.intro blank.1 (Or.inl blank.2)), List.append_nil, lexFrom,
          if_neg quote, if_pos (And.intro rfl blank.2)]
        rfl
      rw [if_neg blank]
      by_cases operator : quoted = false ∧ isOperator pipes c = true
      · rw [if_pos operator, if_pos (And.intro operator.1 (Or.inr operator.2)), List.append_nil,
          lexFrom, if_neg quote, if_neg (fun blank' => blank ⟨operator.1, blank'.2⟩),
          if_pos (And.intro rfl operator.2)]
        rfl
      · have inside : ¬(quoted = false ∧ (isBlank c = true ∨ isOperator pipes c = true)) :=
          fun ⟨outside, either⟩ => either.elim (fun b => blank ⟨outside, b⟩)
            fun o => operator ⟨outside, o⟩
        rw [if_neg operator, if_neg inside]
        have rest := known (text ++ [c]) quoted
        rw [List.append_assoc] at rest
        exact rest

/-- The loop for a word reads it whole if the array has room for it. -/
theorem wordLoop_eq (pipes quoted : Bool) (room : Nat) (src : List UInt8)
    (fits : (lexWord pipes quoted src).1.length ≤ room) :
    (wordLoop pipes quoted room src).1 = (lexWord pipes quoted src).1 ∧
      ((lexWord pipes quoted src).1.length < room →
        (wordLoop pipes quoted room src).2 = (lexWord pipes quoted src).2) := by
  induction src generalizing quoted room with
  | nil => exact ⟨rfl, fun _ => rfl⟩
  | cons c src known =>
      by_cases full : room = 0
      · have none_ : (lexWord pipes quoted (c :: src)).1 = [] :=
          List.eq_nil_of_length_eq_zero (by omega)
        refine ⟨?_, fun more => absurd more (by omega)⟩
        rw [wordLoop, if_pos full, none_]
      rw [wordLoop, if_neg full]
      rw [lexWord] at fits ⊢
      by_cases quote : c = 34
      · rw [if_pos quote] at fits ⊢
        rw [if_pos quote]
        exact known (!quoted) room fits
      rw [if_neg quote] at fits ⊢
      rw [if_neg quote]
      by_cases ends : quoted = false ∧ (isBlank c = true ∨ isOperator pipes c = true)
      · rw [if_pos ends, if_pos ends]
        exact ⟨rfl, fun _ => rfl⟩
      · rw [if_neg ends] at fits ⊢
        rw [if_neg ends]
        rw [List.length_cons] at fits ⊢
        obtain ⟨text, rest⟩ := known quoted (room - 1) (by omega)
        exact ⟨congrArg (c :: ·) text, fun more => rest (by omega)⟩

theorem lexFrom_dropWhile (pipes : Bool) (line : List UInt8) :
    lexFrom pipes .nothing false (line.dropWhile isBlank) = lexFrom pipes .nothing false line := by
  induction line with
  | nil => rfl
  | cons c src known =>
      by_cases blank : isBlank c = true
      · have quote : c ≠ 34 := by
          rintro rfl
          cases blank
        rw [List.dropWhile_cons_of_pos blank, known, lexFrom, if_neg quote,
          if_pos (And.intro rfl blank)]
        rfl
      · rw [List.dropWhile_cons_of_neg blank]

/-- One `>` that has been read is an operator by itself if no other follows. -/
theorem lexFrom_greater (pipes : Bool) (src : List UInt8) (alone : src.head? ≠ some 62) :
    lexFrom pipes .greater false src = ⟨[62], true⟩ :: lexFrom pipes .nothing false src := by
  cases src with
  | nil => rfl
  | cons c src =>
      have other : c ≠ 62 := fun same => alone (congrArg some same)
      rw [lexFrom, lexFrom]
      by_cases quote : c = 34
      · rw [if_pos quote, if_pos quote]
        rfl
      rw [if_neg quote, if_neg quote]
      by_cases blank : false = false ∧ isBlank c = true
      · rw [if_pos blank, if_pos blank]
        rfl
      rw [if_neg blank, if_neg blank]
      by_cases operator : false = false ∧ isOperator pipes c = true
      · have split_ : Begun.greater.operator c =
            (⟨[62], true⟩ :: (operatorFrom c).1, (operatorFrom c).2) := if_neg other
        rw [if_pos operator, if_pos operator, split_]
        rfl
      · rw [if_neg operator, if_neg operator]
        rfl

theorem lexFrom_begin {pipes : Bool} {c : UInt8} {src : List UInt8}
    (blank : ¬(false = false ∧ isBlank c = true)) (operator : ¬isOperator pipes c = true) :
    lexFrom pipes .nothing false (c :: src) =
      ⟨(lexWord pipes false (c :: src)).1, false⟩ ::
        lexFrom pipes .nothing false (lexWord pipes false (c :: src)).2 := by
  refine Eq.trans ?_ (lexFrom_word pipes [] false (c :: src))
  rw [lexFrom, lexFrom]
  by_cases quote : c = 34
  · rw [if_pos quote, if_pos quote]
    rfl
  · rw [if_neg quote, if_neg quote, if_neg blank, if_neg blank,
      if_neg fun both => operator both.2, if_neg fun both => operator both.2]
    rfl

theorem RoomFor.of_full {tokens : List Token} (fits : RoomFor 0 tokens) : tokens = [] := by
  cases tokens with
  | nil => rfl
  | cons token tokens => exact absurd fits.1 (Nat.lt_irrefl 0)

/-- The loops find the tokens of a line, if there are few and the array has room for them. -/
theorem tokenize_eq_lex (pipes : Bool) (slots room : Nat) (line : List UInt8)
    (few : (lex pipes line).length ≤ slots) (fits : RoomFor room (lex pipes line)) :
    tokenize pipes slots room line = lex pipes line := by
  induction slots generalizing room line with
  | zero => exact (List.eq_nil_of_length_eq_zero (Nat.le_zero.mp few)).symm
  | succ slots known =>
      rw [tokenize]
      by_cases nothing : line = []
      · rw [if_pos (Or.inl nothing), nothing]
        rfl
      by_cases full : room = 0
      · subst full
        rw [if_pos (Or.inr rfl)]
        exact fits.of_full.symm
      rw [if_neg (not_or.mpr ⟨nothing, full⟩)]
      rw [lex, ← lexFrom_dropWhile] at few fits ⊢
      have blank_ := line.head?_dropWhile_not isBlank
      generalize line.dropWhile isBlank = rest at few fits blank_ ⊢
      cases rest with
      | nil => rfl
      | cons c src =>
          have blank : ¬(false = false ∧ isBlank c = true) := by simpa using blank_
          dsimp only
          by_cases operator : isOperator pipes c = true
          · have quote : c ≠ 34 := by
              rintro rfl
              rw [isOperator_quote] at operator
              cases operator
            have tokens : lexFrom pipes .nothing false (c :: src) =
                (operatorFrom c).1 ++ lexFrom pipes (operatorFrom c).2 false src := by
              rw [lexFrom, if_neg quote, if_neg blank, if_pos (And.intro rfl operator)]
              rfl
            rw [tokens, operatorFrom] at few fits ⊢
            rw [if_pos operator]
            by_cases greater : c = 62
            · rw [if_pos greater] at few fits ⊢
              by_cases double : src.head? = some 62
              · obtain ⟨src, rfl⟩ := List.head?_eq_some_iff.mp double
                have first : lexFrom pipes .greater false (62 :: src) =
                    ⟨[62, 62], true⟩ :: lexFrom pipes .nothing false src := by
                  cases pipes <;> rfl
                rw [List.nil_append, first] at few fits ⊢
                rw [if_pos ⟨greater, rfl, fits.2.1⟩]
                exact congrArg (_ :: ·) (known _ src (Nat.le_of_succ_le_succ few) fits.2.2)
              · rw [List.nil_append, lexFrom_greater pipes src double] at few fits ⊢
                rw [if_neg fun all => double all.2.1, greater]
                exact congrArg (_ :: ·) (known _ src (Nat.le_of_succ_le_succ few) fits.2.2)
            · rw [if_neg greater] at few fits ⊢
              rw [if_neg fun all => greater all.1]
              exact congrArg (_ :: ·) (known _ src (Nat.le_of_succ_le_succ few) fits.2.2)
          · rw [if_neg operator]
            rw [lexFrom_begin blank operator] at few fits ⊢
            obtain ⟨text, behind⟩ := wordLoop_eq pipes false room (c :: src) fits.2.1
            rw [text]
            refine congrArg (_ :: ·) ?_
            by_cases last : (lexWord pipes false (c :: src)).1.length = room
            · have none_ : room - ((lexWord pipes false (c :: src)).1.length + 1) = 0 := by omega
              have fits' := fits.2.2
              rw [none_] at fits' ⊢
              rw [fits'.of_full]
              cases slots with
              | zero => rfl
              | succ slots => rw [tokenize, if_pos (Or.inr rfl)]
            · rw [behind (Nat.lt_of_le_of_ne fits.2.1 last)]
              exact known _ _ (Nat.le_of_succ_le_succ few) fits.2.2

end CommandLine

end Trinux
