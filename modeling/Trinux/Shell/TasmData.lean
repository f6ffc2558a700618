import Trinux.Shell.TasmLimits
import Mathlib.Data.List.DropRight

namespace Trinux

/-!
# What the data of a line denotes

The operands behind `db` are words and strings.  A reader takes them from the text character by
character and knows, unlike the passes of the assembler, whether it is inside of a string.  A word
denotes the byte that is its value; in a string `\n` is the only escape.  The assembler emits just
the bytes that are denoted unless it cuts a string at a semicolon, drops what is behind the seventh
operand, reads a negative hexadecimal number, finds no room, or the operands cannot be read.
-/

namespace Tasm

open Bytes

/-! ## Meaning -/

inductive Datum where
  | word (text : List UInt8)
  | string (text : List UInt8)
  deriving DecidableEq

def isTrailing (c : UInt8) : Bool := c = 0x20 ∨ c = 0x09 ∨ c = 0x0D ∨ c = 0x0A

def isRest (s : List UInt8) : Bool := (s.takeWhile (· ≠ 0x3B)).all isTrailing

/-- Where the reader is: between operands, in a word, in a string, or right behind a string. -/
inductive Reader where
  | gap
  | word (text : List UInt8)
  | string (text : List UInt8)
  | closed

/-- The operands of a text; `none` where a string does not end or touches what is behind it. -/
def readItems : Reader → List UInt8 → Option (List Datum)
  | .gap, [] => some []
  | .word text, [] => some [.word text]
  | .string _, [] => none
  | .closed, [] => some []
  | .gap, c :: rest =>
      if isRest (c :: rest) then some []
      else if isSep c then readItems .gap rest
      else if c = 0x22 then readItems (.string []) rest
      else readItems (.word [c]) rest
  | .word text, c :: rest =>
      if isRest (c :: rest) then some [.word text]
      else if isSep c then (readItems .gap rest).map (.word text :: ·)
      else readItems (.word (text ++ [c])) rest
  | .string text, c :: rest =>
      if c = 0x22 then (readItems .closed rest).map (.string text :: ·)
      else readItems (.string (text ++ [c])) rest
  | .closed, c :: rest =>
      if isRest (c :: rest) then some []
      else if isSep c then readItems .gap rest
      else none

def stringBytes : List UInt8 → Option (List UInt8)
  | [] => some []
  | c :: rest =>
      if c = 0x5C then
        match rest with
        | 0x6E :: more => (stringBytes more).map (0x0A :: ·)
        | _ => none
      else (stringBytes rest).map (c :: ·)

def ByteFits (value : Int) : Prop := -128 ≤ value ∧ value < 256

instance (value : Int) : Decidable (ByteFits value) := by
  unfold ByteFits
  infer_instance

def Datum.bytes : Datum → Option (List UInt8)
  | .word text =>
      match numberValue text with
      | some value => if ByteFits value then some [(wordOf value).toUInt8] else none
      | none => none
  | .string text => stringBytes text

def denoted (items : List Datum) : List UInt8 := items.flatMap fun item => item.bytes.getD []

def dataText (line : List UInt8) : Option (List UInt8) :=
  match line.dropWhile isBlank with
  | 0x64 :: 0x62 :: [] => some []
  | 0x64 :: 0x62 :: c :: rest => if isRest (c :: rest) ∨ isSep c then some (c :: rest) else none
  | _ => none

def readData (text : List UInt8) : Option (List Datum) := readItems .closed text

/-- The bytes that the text behind `db` denotes; `none` where an operand cannot be read. -/
def dataMeaning (text : List UInt8) : Option (List UInt8) :=
  match readData text with
  | some items => if ∀ item ∈ items, item.bytes.isSome then some (denoted items) else none
  | none => none

def LiteralRight (s : List UInt8) : Prop :=
  ∃ value, numberValue s = some value ∧ Fits value ∧ parseImm s = wordOf value

/-- A line of data is assembled right: exactly the bytes that it denotes are emitted, and the line
is refused when an operand cannot be read. -/
def DataRight (line text : List UInt8) (pass : Nat) (a : Asm) : Prop :=
  match dataMeaning text with
  | some bytes => asmLine line pass a = (0, { a with code := a.code ++ bytes })
  | none => (asmLine line pass a).1 < 0

/-- A literal that is a number of 32 bits, and if it is negative and hexadecimal, zero. -/
def PlainLiteral (s : List UInt8) : Prop :=
  ∃ value, numberValue s = some value ∧ Fits value ∧ (NegativeHex s → value = 0)

/-- Operands that the assembler can read: each denotes bytes, what is behind the seventh is empty,
no string has a semicolon, a negative hexadecimal number is zero, and there is room. -/
structure PlainData (items : List Datum) (a : Asm) : Prop where
  readable : ∀ item ∈ items, item.bytes.isSome
  few : ∀ item ∈ items.drop 7, item = .string []
  uncut : ∀ text, .string text ∈ items → 0x3B ∉ text
  decimal : ∀ text, .word text ∈ items → NegativeHex text → numberValue text = some 0
  room : (denoted items).length ≤ maxCode - a.code.length

/-! ## Readable operands -/

def isNumberChar (c : UInt8) : Bool := (hexDigit c).isSome || c == 0x2D || c == 0x78

theorem hexDigit_isSome {c : UInt8} (digit : isDigit c) : (hexDigit c).isSome := by
  rw [hexDigit, if_pos digit]
  rfl

theorem unsignedValue_chars {s : List UInt8} (number : (unsignedValue s).isSome) :
    s ≠ [] ∧ ∀ c ∈ s, isNumberChar c := by
  unfold unsignedValue at number
  split_ifs at number with hex shape shape
  · have whole : s = literal "0x" ++ s.drop 2 := by
      rw [← hex, List.take_append_drop]
    rw [whole]
    constructor
    · simp [literal]
    · intro c listed
      rw [List.mem_append] at listed
      cases listed with
      | inl head =>
          obtain rfl | rfl : c = 0x30 ∨ c = 0x78 := by simpa [literal] using head
          · rfl
          · rfl
      | inr digit =>
          have hexadecimal := List.all_eq_true.mp shape.2 c digit
          rw [isNumberChar, hexadecimal]
          rfl
  · cases number
  · constructor
    · exact shape.1
    · intro c listed
      rw [isNumberChar, hexDigit_isSome (List.all_eq_true.mp shape.2 c listed)]
      rfl
  · cases number

theorem numberValue_chars {s : List UInt8} (number : (numberValue s).isSome) :
    s ≠ [] ∧ ∀ c ∈ s, isNumberChar c := by
  unfold numberValue at number
  split_ifs at number with minus
  · rw [Option.isSome_map] at number
    have digits := unsignedValue_chars number
    cases s with
    | nil => exact absurd rfl digits.1
    | cons c rest =>
        obtain rfl : c = 0x2D := by simpa [literal] using minus
        constructor
        · exact List.cons_ne_nil _ _
        · intro d listed
          rw [List.mem_cons] at listed
          cases listed with
          | inl same =>
              rw [same]
              rfl
          | inr later => exact digits.2 d later
  · rw [Option.isSome_map] at number
    exact unsignedValue_chars number

theorem isNumberChar_plain {c : UInt8} (number : isNumberChar c) :
    isSep c = false ∧ isTrailing c = false ∧ c ≠ 0x3B ∧ c ≠ 0x22 ∧ c ≠ 0x3A := by
  have not : ∀ d : UInt8, isNumberChar d = false → c ≠ d := by
    rintro d wrong rfl
    rw [wrong] at number
    cases number
  have space := not 0x20 (by decide)
  have tab := not 0x09 (by decide)
  have comma := not 0x2C (by decide)
  have feed := not 0x0A (by decide)
  have carriage := not 0x0D (by decide)
  refine ⟨?_, ?_, not 0x3B (by decide), not 0x22 (by decide), not 0x3A (by decide)⟩
  · simp [isSep, space, tab, comma]
  · simp [isTrailing, space, tab, feed, carriage]

theorem word_value {text : List UInt8} (readable : (Datum.word text).bytes.isSome) :
    ∃ value, numberValue text = some value ∧ ByteFits value ∧
      (Datum.word text).bytes = some [(wordOf value).toUInt8] := by
  unfold Datum.bytes at readable ⊢
  dsimp only at readable ⊢
  cases found : numberValue text with
  | none =>
      rw [found] at readable
      cases readable
  | some value =>
      rw [found] at readable
      dsimp only at readable ⊢
      split_ifs at readable ⊢ with fits
      · exact ⟨value, rfl, fits, rfl⟩
      · cases readable

theorem word_chars {text : List UInt8} (readable : (Datum.word text).bytes.isSome) :
    text ≠ [] ∧ ∀ c ∈ text, isNumberChar c := by
  obtain ⟨value, found, _⟩ := word_value readable
  apply numberValue_chars
  rw [found]
  rfl

theorem dbString_cons {c : UInt8} (plain : c ≠ 0x5C) (rest : List UInt8) :
    dbString (c :: rest) = c :: dbString rest := by
  rw [dbString]
  rintro more rfl
  exact absurd rfl plain

/-- A string that can be read is emitted as it should be. -/
theorem dbString_readable (text : List UInt8) :
    ∀ bytes, stringBytes text = some bytes → dbString text = bytes := by
  fun_induction stringBytes text with
  | case1 =>
      intro bytes read
      cases read
      rfl
  | case2 more more_ih =>
      intro bytes read
      rw [Option.map_eq_some_iff] at read
      cases read with
      | intro inner found =>
          rw [← found.2, dbString, more_ih inner found.1]
  | case3 =>
      intro bytes read
      cases read
  | case4 c rest plain rest_ih =>
      intro bytes read
      rw [Option.map_eq_some_iff] at read
      cases read with
      | intro inner found =>
          rw [← found.2, dbString_cons plain, rest_ih inner found.1]

theorem dbString_prefix (front back : List UInt8) :
    (dbString front).length ≤ (dbString (front ++ back)).length := by
  fun_induction dbString front with
  | case1 => exact Nat.zero_le _
  | case2 rest rest_ih =>
      rw [List.cons_append, List.cons_append, dbString]
      exact Nat.succ_le_succ rest_ih
  | case3 c rest escape rest_ih =>
      rw [List.cons_append]
      by_cases newline : c = 0x5C ∧ ∃ more, rest ++ back = 0x6E :: more
      · obtain ⟨rfl, more, split⟩ := newline
        cases rest with
        | nil =>
            rw [split, dbString]
            simp [dbString]
        | cons d others =>
            obtain rfl : d = 0x6E := (List.cons.inj split).1
            exact absurd rfl (escape others rfl)
      · rw [dbString]
        · exact Nat.succ_le_succ rest_ih
        · intro more isSlash split
          exact newline ⟨isSlash, more, split⟩

/-- A string is longer than what is in front of a semicolon. -/
theorem dbString_semicolon (front back : List UInt8) :
    (dbString front).length < (dbString (front ++ 0x3B :: back)).length := by
  fun_induction dbString front with
  | case1 =>
      rw [List.nil_append, dbString_cons (by decide)]
      exact Nat.succ_pos _
  | case2 rest rest_ih =>
      rw [List.cons_append, List.cons_append, dbString]
      exact Nat.succ_lt_succ rest_ih
  | case3 c rest escape rest_ih =>
      rw [List.cons_append, dbString]
      · exact Nat.succ_lt_succ rest_ih
      · intro more isSlash split
        cases rest with
        | nil => exact absurd (List.cons.inj split).1 (by decide)
        | cons d others =>
            obtain rfl : d = 0x6E := (List.cons.inj split).1
            exact absurd rfl (escape others isSlash)

def Datum.source : Datum → List UInt8
  | .word text => text
  | .string text => 0x22 :: (text ++ [0x22])

theorem dbPart_word {text : List UInt8} (readable : (Datum.word text).bytes.isSome) :
    dbPart text = [(parseImm text).toUInt8] := by
  have chars := word_chars readable
  unfold dbPart
  split
  · exact absurd rfl (isNumberChar_plain (chars.2 _ List.mem_cons_self)).2.2.2.1
  · rfl

theorem dbPart_string (text : List UInt8) : dbPart (Datum.string text).source = dbString text := by
  simp [Datum.source, dbPart]

/-- The assembler emits as many bytes for an operand as it denotes. -/
theorem dbPart_length {item : Datum} (readable : item.bytes.isSome) :
    (dbPart item.source).length = (item.bytes.getD []).length := by
  cases item with
  | word text =>
      obtain ⟨value, _, _, bytes⟩ := word_value readable
      rw [Datum.source, dbPart_word readable, bytes]
      rfl
  | string text =>
      rw [Option.isSome_iff_exists] at readable
      cases readable with
      | intro bytes read => rw [dbPart_string, dbString_readable text bytes read, read,
          Option.getD_some]

/-! ## The shape of a text of operands -/

def Follows (s : List UInt8) : Prop := isRest s ∨ ∃ c rest, s = c :: rest ∧ isSep c

inductive Fields : List UInt8 → List Datum → Prop where
  | rest (s) (blank : isRest s) : Fields s []
  | skip (c s items) (sep : isSep c) (fields : Fields s items) : Fields (c :: s) items
  | word (text s items) (follows : Follows s) (fields : Fields s items) :
      Fields (text ++ s) (.word text :: items)
  | string (text s items) (quotes : 0x22 ∉ text) (follows : Follows s) (fields : Fields s items) :
      Fields (0x22 :: (text ++ 0x22 :: s)) (.string text :: items)

def ReaderShape (s : List UInt8) (items : List Datum) : Reader → Prop
  | .gap => Fields s items
  | .word text => ∃ more s' items', s = more ++ s' ∧ items = .word (text ++ more) :: items' ∧
      Follows s' ∧ Fields s' items'
  | .string text => ∃ more s' items', s = more ++ 0x22 :: s' ∧
      items = .string (text ++ more) :: items' ∧ 0x22 ∉ more ∧ Follows s' ∧ Fields s' items'
  | .closed => Follows s ∧ Fields s items

theorem readItems_shape (s : List UInt8) :
    ∀ reader items, readItems reader s = some items → ReaderShape s items reader := by
  induction s with
  | nil =>
      intro reader items read
      have blank : isRest [] := rfl
      cases reader with
      | gap =>
          cases read
          exact .rest [] blank
      | word text =>
          cases read
          exact ⟨[], [], [], rfl, by rw [List.append_nil], Or.inl blank, .rest [] blank⟩
      | string text => cases read
      | closed =>
          cases read
          exact ⟨Or.inl blank, .rest [] blank⟩
  | cons c rest rest_ih =>
      intro reader items read
      cases reader with
      | gap =>
          rw [readItems] at read
          split_ifs at read with blank sep quote
          · cases read
            exact .rest _ blank
          · exact .skip c rest items sep (rest_ih .gap items read)
          · obtain ⟨more, s', items', rfl, rfl, quotes, follows, fields⟩ :=
              rest_ih (.string []) items read
            rw [quote]
            exact .string more s' items' quotes follows fields
          · obtain ⟨more, s', items', rfl, rfl, follows, fields⟩ := rest_ih (.word [c]) items read
            exact .word (c :: more) s' items' follows fields
      | word text =>
          rw [readItems] at read
          split_ifs at read with blank sep
          · cases read
            exact ⟨[], c :: rest, [], rfl, by rw [List.append_nil], Or.inl blank, .rest _ blank⟩
          · rw [Option.map_eq_some_iff] at read
            obtain ⟨items', read', rfl⟩ := read
            exact ⟨[], c :: rest, items', rfl, by rw [List.append_nil], Or.inr ⟨c, rest, rfl, sep⟩,
              .skip c rest items' sep (rest_ih .gap items' read')⟩
          · obtain ⟨more, s', items', rfl, rfl, follows, fields⟩ :=
              rest_ih (.word (text ++ [c])) items read
            exact ⟨c :: more, s', items', rfl, by rw [List.append_assoc, List.singleton_append],
              follows, fields⟩
      | string text =>
          rw [readItems] at read
          split_ifs at read with quote
          · rw [Option.map_eq_some_iff] at read
            obtain ⟨items', read', rfl⟩ := read
            have closed := rest_ih .closed items' read'
            exact ⟨[], rest, items', by rw [quote]; rfl, by rw [List.append_nil],
              List.not_mem_nil, closed.1, closed.2⟩
          · obtain ⟨more, s', items', rfl, rfl, quotes, follows, fields⟩ :=
              rest_ih (.string (text ++ [c])) items read
            refine ⟨c :: more, s', items', rfl, ?_, ?_, follows, fields⟩
            · rw [List.append_assoc, List.singleton_append]
            · rw [List.mem_cons, not_or]
              exact ⟨fun same => quote same.symm, quotes⟩
      | closed =>
          rw [readItems] at read
          split_ifs at read with blank sep
          · cases read
            exact ⟨Or.inl blank, .rest _ blank⟩
          · exact ⟨Or.inr ⟨c, rest, rfl, sep⟩, .skip c rest items sep (rest_ih .gap items read)⟩

/-! ## What the assembler sees -/

def cut (s : List UInt8) : List UInt8 := (s.takeWhile (· ≠ 0x3B)).rdropWhile isTrailing

theorem strip_eq (line : List UInt8) : strip line = cut (line.dropWhile isBlank) := rfl

theorem cut_rest {s : List UInt8} (blank : isRest s) : cut s = [] := by
  rw [cut, List.rdropWhile_eq_nil_iff]
  exact List.all_eq_true.mp blank

theorem cut_append {front : List UInt8} {c : UInt8} (clean : 0x3B ∉ front) (semicolon : c ≠ 0x3B)
    (last : isTrailing c = false) (s : List UInt8) :
    cut (front ++ c :: s) = front ++ c :: cut s := by
  have keeps : ∀ d ∈ front ++ [c], decide (d ≠ 0x3B) = true := by
    intro d listed
    rw [decide_eq_true_eq]
    rintro rfl
    rw [List.mem_append, List.mem_singleton] at listed
    cases listed with
    | inl head => exact clean head
    | inr same => exact semicolon same.symm
  have split : front ++ c :: s = front ++ [c] ++ s := by
    rw [List.append_assoc, List.singleton_append]
  rw [cut, split, List.takeWhile_append_of_pos keeps, cut]
  unfold List.rdropWhile
  rw [List.reverse_append, List.dropWhile_append]
  split_ifs with blank
  · rw [List.isEmpty_iff] at blank
    rw [List.reverse_append, List.reverse_singleton, List.singleton_append,
      List.dropWhile_cons_of_neg (by simp [last]), blank]
    simp
  · simp

theorem cut_cons {c : UInt8} (semicolon : c ≠ 0x3B) (s : List UInt8) :
    cut (c :: s) = c :: cut s ∨ cut (c :: s) = [] ∧ cut s = [] := by
  rw [cut, List.takeWhile_cons_of_pos (by simpa using semicolon), cut]
  unfold List.rdropWhile
  rw [List.reverse_cons, List.dropWhile_append]
  split_ifs with blank
  · rw [List.isEmpty_iff] at blank
    rw [blank]
    by_cases trailing : isTrailing c
    · right
      simp [trailing]
    · left
      simp [trailing]
  · left
    simp

theorem sep_plain {c : UInt8} (sep : isSep c) : c ≠ 0x3B ∧ c ≠ 0x3A ∧ c ≠ 0x22 := by
  have not : ∀ d : UInt8, isSep d = false → c ≠ d := by
    rintro d wrong rfl
    rw [wrong] at sep
    cases sep
  exact ⟨not 0x3B rfl, not 0x3A rfl, not 0x22 rfl⟩

theorem splitLine_nil (max : Nat) : splitLine max [] = [] := by
  cases max <;> rfl

theorem splitLine_sep {c : UInt8} (sep : isSep c) (max : Nat) (s : List UInt8) :
    splitLine max (c :: s) = splitLine max s := by
  cases max with
  | zero => rfl
  | succ max => rw [splitLine, splitLine, List.dropWhile_cons_of_pos sep]

theorem splitLine_cut_sep {c : UInt8} (sep : isSep c) (max : Nat) (s : List UInt8) :
    splitLine max (cut (c :: s)) = splitLine max (cut s) := by
  cases cut_cons (sep_plain sep).1 s with
  | inl longer => rw [longer, splitLine_sep sep]
  | inr nothing => rw [nothing.1, nothing.2]

def Ends (s : List UInt8) : Prop := s = [] ∨ ∃ c rest, s = c :: rest ∧ isSep c

theorem ends_of_follows {s : List UInt8} (follows : Follows s) : Ends (cut s) := by
  cases follows with
  | inl blank => exact Or.inl (cut_rest blank)
  | inr next =>
      obtain ⟨c, rest, rfl, sep⟩ := next
      cases cut_cons (sep_plain sep).1 rest with
      | inl longer => exact Or.inr ⟨c, cut rest, longer, sep⟩
      | inr nothing => exact Or.inl nothing.1

theorem splitLine_drop {s : List UInt8} (ends : Ends s) (max : Nat) :
    splitLine max (s.drop 1) = splitLine max s := by
  cases ends with
  | inl nothing => rw [nothing, List.drop_nil]
  | inr next =>
      obtain ⟨c, rest, rfl, sep⟩ := next
      rw [List.drop_one, List.tail_cons, splitLine_sep sep]

theorem splitLine_word {c : UInt8} {text s : List UInt8} (quote : c ≠ 0x22)
    (chars : ∀ d ∈ c :: text, isSep d = false) (ends : Ends s) (max : Nat) :
    splitLine (max + 1) (c :: text ++ s) = (c :: text) :: splitLine max s := by
  have first : firstPart (c :: text ++ s) = (c :: text, s) := by
    have keeps : ∀ d ∈ c :: text, (!isSep d) = true := by
      intro d listed
      rw [chars d listed]
      rfl
    rw [List.cons_append, firstPart]
    · rw [← List.cons_append, List.takeWhile_append_of_pos keeps,
        List.dropWhile_append_of_pos keeps]
      cases ends with
      | inl nothing =>
          rw [nothing]
          simp
      | inr next =>
          obtain ⟨d, rest, rfl, sep⟩ := next
          simp [sep]
    · intro rest same
      exact absurd (List.cons.inj same).1 quote
  have head : isSep c = false := chars c List.mem_cons_self
  rw [splitLine, List.cons_append, List.dropWhile_cons_of_neg (by simp [head])]
  dsimp only
  rw [← List.cons_append, first]
  dsimp only
  rw [splitLine_drop ends]

theorem splitLine_string {text s : List UInt8} (quotes : 0x22 ∉ text) (ends : Ends s)
    (max : Nat) :
    splitLine (max + 1) (0x22 :: (text ++ 0x22 :: s)) =
      (Datum.string text).source :: splitLine max s := by
  have keeps : ∀ d ∈ text, decide (d ≠ 0x22) = true := by
    intro d listed
    rw [decide_eq_true_eq]
    rintro rfl
    exact quotes listed
  have first : firstPart (0x22 :: (text ++ 0x22 :: s)) = ((Datum.string text).source, s) := by
    rw [firstPart, List.takeWhile_append_of_pos keeps, List.dropWhile_append_of_pos keeps]
    simp [Datum.source]
  rw [splitLine, List.dropWhile_cons_of_neg (by decide)]
  dsimp only
  rw [first]
  dsimp only
  rw [splitLine_drop ends]

theorem splitLine_open {text : List UInt8} (quotes : 0x22 ∉ text) (max : Nat) :
    splitLine (max + 1) (0x22 :: text) = [0x22 :: text] := by
  have keeps : ∀ d ∈ text, decide (d ≠ 0x22) = true := by
    intro d listed
    rw [decide_eq_true_eq]
    rintro rfl
    exact quotes listed
  have whole : text.takeWhile (· ≠ 0x22) = text := List.takeWhile_eq_self_iff.mpr keeps
  have nothing : text.dropWhile (· ≠ 0x22) = [] := List.dropWhile_eq_nil_iff.mpr keeps
  rw [splitLine, List.dropWhile_cons_of_neg (by decide)]
  dsimp only
  rw [firstPart, whole, nothing]
  simp [splitLine_nil]

/-! ## The operands that the assembler sees -/

def HasCut (items : List Datum) : Prop := ∃ text, .string text ∈ items ∧ 0x3B ∈ text

theorem readable_later {first : Datum} {items : List Datum}
    (readable : ∀ item ∈ first :: items, item.bytes.isSome) : ∀ item ∈ items, item.bytes.isSome :=
  fun item listed => readable item (List.mem_cons_of_mem _ listed)

theorem uncut_later {first : Datum} {items : List Datum} (uncut : ¬ HasCut (first :: items)) :
    ¬ HasCut items := fun found =>
  uncut (found.imp fun _ inside => ⟨List.mem_cons_of_mem _ inside.1, inside.2⟩)

theorem cut_word {text : List UInt8} (some' : text ≠ []) (chars : ∀ c ∈ text, isNumberChar c)
    (s : List UInt8) : cut (text ++ s) = text ++ cut s := by
  have last := isNumberChar_plain (chars _ (List.getLast_mem some'))
  have clean : 0x3B ∉ text.dropLast := by
    intro listed
    exact (isNumberChar_plain (chars _ (List.dropLast_subset _ listed))).2.2.1 rfl
  have split : text = text.dropLast ++ [text.getLast some'] :=
    (List.dropLast_append_getLast some').symm
  have longer := cut_append clean last.2.2.1 last.2.1 s
  rw [split, List.append_assoc, List.singleton_append, longer, List.append_assoc,
    List.singleton_append]

theorem cut_string {text : List UInt8} (clean : 0x3B ∉ text) (s : List UInt8) :
    cut (0x22 :: (text ++ 0x22 :: s)) = 0x22 :: (text ++ 0x22 :: cut s) := by
  have clean' : (0x3B : UInt8) ∉ 0x22 :: text := by
    rw [List.mem_cons, not_or]
    exact ⟨by decide, clean⟩
  exact cut_append clean' (by decide) rfl s

/-- A string with a semicolon is cut there, or before what trails. -/
theorem cut_inside {text : List UInt8} (semicolon : 0x3B ∈ text) (s : List UInt8) :
    ∃ kept back, text = kept ++ back ∧ 0x3B ∈ back ∧ cut (0x22 :: (text ++ s)) = 0x22 :: kept ∧
      (dbString kept).length < (dbString text).length := by
  obtain ⟨front, back, rfl, clean⟩ := List.eq_append_cons_of_mem semicolon
  have keeps : ∀ d ∈ 0x22 :: front, decide (d ≠ (0x3B : UInt8)) = true := by
    intro d listed
    rw [decide_eq_true_eq]
    rintro rfl
    rw [List.mem_cons] at listed
    cases listed with
    | inl same => exact absurd same (by decide)
    | inr later => exact clean later
  have split : 0x22 :: (front ++ 0x3B :: back ++ s) = (0x22 :: front) ++ 0x3B :: (back ++ s) := by
    simp
  have before : (0x22 :: (front ++ 0x3B :: back ++ s)).takeWhile (· ≠ 0x3B) = 0x22 :: front := by
    rw [split, List.takeWhile_append_of_pos keeps, List.takeWhile_cons_of_neg (by decide),
      List.append_nil]
  have kept : cut (0x22 :: (front ++ 0x3B :: back ++ s)) = 0x22 :: cut front := by
    rw [cut, before]
    have whole : front.takeWhile (· ≠ 0x3B) = front :=
      List.takeWhile_eq_self_iff.mpr fun d listed => keeps d (List.mem_cons_of_mem _ listed)
    have same : cut ([] ++ 0x22 :: front) = [] ++ 0x22 :: cut front :=
      cut_append List.not_mem_nil (by decide) rfl front
    rw [List.nil_append, List.nil_append, cut, List.takeWhile_cons_of_pos (by decide), whole]
      at same
    exact same
  have inner : cut front <+: front := by
    rw [cut]
    exact (List.rdropWhile_prefix _ _).trans (List.takeWhile_prefix _)
  obtain ⟨trail, whole⟩ := inner
  refine ⟨cut front, trail ++ 0x3B :: back, ?_, ?_, kept, ?_⟩
  · rw [← List.append_assoc, whole]
  · exact List.mem_append_right _ List.mem_cons_self
  · have shorter := dbString_prefix (cut front) trail
    rw [whole] at shorter
    have semicolon := dbString_semicolon front back
    omega

/-- Without a semicolon in a string the assembler sees the operands, as many as it takes. -/
theorem splitLine_whole {s : List UInt8} {items : List Datum} (fields : Fields s items)
    (readable : ∀ item ∈ items, item.bytes.isSome) (uncut : ¬ HasCut items) :
    ∀ max, splitLine max (cut s) = (items.map Datum.source).take max := by
  induction fields with
  | rest s blank =>
      intro max
      rw [cut_rest blank, splitLine_nil, List.map_nil, List.take_nil]
  | skip c s items sep fields fields_ih =>
      intro max
      rw [splitLine_cut_sep sep, fields_ih readable uncut]
  | word text s items follows fields fields_ih =>
      intro max
      have chars := word_chars (readable _ List.mem_cons_self)
      have rest := fields_ih (readable_later readable) (uncut_later uncut)
      rw [cut_word chars.1 chars.2]
      cases max with
      | zero => rfl
      | succ max =>
          cases text with
          | nil => exact absurd rfl chars.1
          | cons c text =>
              rw [splitLine_word (isNumberChar_plain (chars.2 c List.mem_cons_self)).2.2.2.1
                (fun d listed => (isNumberChar_plain (chars.2 d listed)).1)
                (ends_of_follows follows), rest]
              rfl
  | string text s items quotes follows fields fields_ih =>
      intro max
      have clean : 0x3B ∉ text := fun inside => uncut ⟨text, List.mem_cons_self, inside⟩
      have rest := fields_ih (readable_later readable) (uncut_later uncut)
      rw [cut_string clean]
      cases max with
      | zero => rfl
      | succ max =>
          rw [splitLine_string quotes (ends_of_follows follows), rest]
          rfl

theorem denoted_cons (item : Datum) (items : List Datum) :
    denoted (item :: items) = item.bytes.getD [] ++ denoted items := List.flatMap_cons

/-- With a semicolon in a string fewer bytes are emitted than denoted. -/
theorem splitLine_short {s : List UInt8} {items : List Datum} (fields : Fields s items)
    (readable : ∀ item ∈ items, item.bytes.isSome) (hasCut : HasCut items) :
    ∀ max, ((splitLine max (cut s)).flatMap dbPart).length < (denoted items).length := by
  induction fields with
  | rest s blank => exact absurd hasCut.choose_spec.1 List.not_mem_nil
  | skip c s items sep fields fields_ih =>
      intro max
      rw [splitLine_cut_sep sep]
      exact fields_ih readable hasCut max
  | word text s items follows fields fields_ih =>
      intro max
      have chars := word_chars (readable _ List.mem_cons_self)
      have later : HasCut items := hasCut.imp fun _ inside => by
        rw [List.mem_cons] at inside
        cases inside.1 with
        | inl same => cases same
        | inr listed => exact ⟨listed, inside.2⟩
      have rest := fields_ih (readable_later readable) later
      have length := dbPart_length (readable _ List.mem_cons_self)
      rw [cut_word chars.1 chars.2, denoted_cons, List.length_append, ← length]
      cases max with
      | zero =>
          have some' := rest 0
          exact Nat.lt_of_lt_of_le some' (Nat.le_add_left _ _)
      | succ max =>
          cases text with
          | nil => exact absurd rfl chars.1
          | cons c text =>
              rw [splitLine_word (isNumberChar_plain (chars.2 c List.mem_cons_self)).2.2.2.1
                (fun d listed => (isNumberChar_plain (chars.2 d listed)).1)
                (ends_of_follows follows), List.flatMap_cons, List.length_append]
              exact Nat.add_lt_add_left (rest max) _
  | string text s items quotes follows fields fields_ih =>
      intro max
      have length := dbPart_length (readable _ List.mem_cons_self)
      rw [dbPart_string] at length
      rw [denoted_cons, List.length_append, ← length]
      by_cases semicolon : 0x3B ∈ text
      · obtain ⟨kept, back, whole, _, seen, shorter⟩ := cut_inside semicolon (0x22 :: s)
        rw [seen]
        cases max with
        | zero =>
            rw [splitLine, List.flatMap_nil, List.length_nil]
            omega
        | succ max =>
            have inner : 0x22 ∉ kept := by
              intro inside
              rw [whole] at quotes
              exact quotes (List.mem_append_left _ inside)
            have last : kept.getLast? ≠ some 0x22 := fun last =>
              inner (List.mem_of_getLast? last)
            rw [splitLine_open inner, List.flatMap_cons, List.flatMap_nil, List.append_nil, dbPart,
              if_neg last]
            omega
      · have later : HasCut items := hasCut.imp fun other inside => by
          rw [List.mem_cons] at inside
          cases inside.1 with
          | inl same =>
              cases same
              exact absurd inside.2 semicolon
          | inr listed => exact ⟨listed, inside.2⟩
        have rest := fields_ih (readable_later readable) later
        rw [cut_string semicolon]
        cases max with
        | zero => exact Nat.lt_of_lt_of_le (rest 0) (Nat.le_add_left _ _)
        | succ max =>
            rw [splitLine_string quotes (ends_of_follows follows), List.flatMap_cons,
              List.length_append, dbPart_string]
            exact Nat.add_lt_add_left (rest max) _

theorem cut_colon {s : List UInt8} {items : List Datum} (fields : Fields s items)
    (readable : ∀ item ∈ items, item.bytes.isSome) (uncut : ¬ HasCut items) :
    (cut s).getLast? ≠ some 0x3A := by
  induction fields with
  | rest s blank =>
      rw [cut_rest blank]
      simp
  | skip c s items sep fields fields_ih =>
      have rest := fields_ih readable uncut
      have plain := sep_plain sep
      cases cut_cons plain.1 s with
      | inl longer =>
          rw [longer, List.getLast?_cons]
          intro last
          cases found : (cut s).getLast? with
          | none =>
              rw [found] at last
              exact plain.2.1 (Option.some.inj last)
          | some d =>
              rw [found] at last rest
              exact rest last
      | inr nothing =>
          rw [nothing.1]
          simp
  | word text s items follows fields fields_ih =>
      have chars := word_chars (readable _ List.mem_cons_self)
      have rest := fields_ih (readable_later readable) (uncut_later uncut)
      rw [cut_word chars.1 chars.2, List.getLast?_append]
      intro last
      cases found : (cut s).getLast? with
      | none =>
          rw [found, Option.none_or] at last
          exact (isNumberChar_plain (chars.2 _ (List.mem_of_getLast? last))).2.2.2.2 rfl
      | some d =>
          rw [found] at last rest
          exact rest last
  | string text s items quotes follows fields fields_ih =>
      have clean : 0x3B ∉ text := fun inside => uncut ⟨text, List.mem_cons_self, inside⟩
      have rest := fields_ih (readable_later readable) (uncut_later uncut)
      have split : 0x22 :: (text ++ 0x22 :: cut s) = 0x22 :: text ++ [0x22] ++ cut s := by simp
      rw [cut_string clean, split, List.getLast?_append]
      intro last
      cases found : (cut s).getLast? with
      | none =>
          rw [found, Option.none_or, List.getLast?_append, List.getLast?_singleton,
            Option.some_or] at last
          exact absurd (Option.some.inj last) (by decide)
      | some d =>
          rw [found] at last rest
          exact rest last

/-! ## Lines of data -/

theorem dataText_line {line text : List UInt8} (data : dataText line = some text) :
    line.dropWhile isBlank = literal "db" ++ text ∧ Follows text := by
  unfold dataText at data
  split at data
  · next same =>
      cases data
      exact ⟨same, Or.inl rfl⟩
  · next c rest same =>
      split_ifs at data with next
      cases data
      refine ⟨same, ?_⟩
      cases next with
      | inl blank => exact Or.inl blank
      | inr sep => exact Or.inr ⟨c, rest, rfl, sep⟩
  · cases data

theorem strip_data {line text : List UInt8} (data : dataText line = some text) :
    strip line = literal "db" ++ cut text := by
  rw [strip_eq, (dataText_line data).1]
  have clean : (0x3B : UInt8) ∉ [(0x64 : UInt8)] := by decide
  exact cut_append clean (by decide) rfl text

/-- What a line of data does to the state: nothing but emit what the split has found, unless it
passes for a label. -/
theorem asmLine_data {line text : List UInt8} (data : dataText line = some text) (pass : Nat)
    (a : Asm) :
    asmLine line pass a =
      if (cut text).getLast? = some 0x3A then
        (0, if pass = 1 then a.addLabel (strip line).dropLast (UInt32.ofNat a.code.length) else a)
      else (0, a.emit ((splitLine 7 (cut text)).flatMap dbPart)) := by
  have stripped := strip_data data
  have some' : strip line ≠ [] := by
    rw [stripped]
    simp [literal]
  have long : 1 < (strip line).length := by
    rw [stripped, List.length_append]
    simp [literal]
    omega
  have last : (strip line).getLast? = some 0x3A ↔ (cut text).getLast? = some 0x3A := by
    rw [stripped, List.getLast?_append]
    cases found : (cut text).getLast? with
    | none => exact iff_of_false (by decide) (by simp)
    | some d => rw [Option.some_or]
  have parts : splitLine 8 (strip line) = literal "db" :: splitLine 7 (cut text) := by
    rw [stripped]
    have letters : ∀ d ∈ [(0x64 : UInt8), 0x62], isSep d = false := by simp [isSep]
    exact splitLine_word (by decide) letters (ends_of_follows (dataText_line data).2) 7
  unfold asmLine
  dsimp only
  rw [if_neg some']
  by_cases label : (cut text).getLast? = some 0x3A
  · rw [if_pos label, if_pos ⟨long, last.mpr label⟩]
  · rw [if_neg label, if_neg fun both => label (last.mp both.2), parts]
    dsimp only
    rw [encodeParts]
    dsimp only
    rw [if_pos rfl]

theorem asmLine_data_result {line text : List UInt8} (data : dataText line = some text)
    (pass : Nat) (a : Asm) : (asmLine line pass a).1 = 0 := by
  rw [asmLine_data data]
  split_ifs <;> rfl

theorem emit_eq (a : Asm) (bytes : List UInt8) :
    a.emit bytes = { a with code := a.code ++ bytes.take (maxCode - a.code.length) } := by
  have code := emit_code bytes a
  have fixups := emit_fixups bytes a
  have labels := emit_labels bytes a
  cases found : a.emit bytes with
  | mk labels' fixups' code' =>
      rw [found] at code fixups labels
      dsimp only at code fixups labels
      rw [code, fixups, labels]

/-- The operand that the assembler reads as it should: all but a negative hexadecimal number. -/
theorem dbPart_right {item : Datum} (readable : item.bytes.isSome) :
    dbPart item.source = item.bytes.getD [] ↔
      ∀ text, item = .word text → NegativeHex text → numberValue text = some 0 := by
  cases item with
  | string text =>
      rw [Option.isSome_iff_exists] at readable
      cases readable with
      | intro bytes read =>
          rw [dbPart_string, dbString_readable text bytes read, read, Option.getD_some]
          exact iff_of_true rfl fun other same => nomatch same
  | word text =>
      obtain ⟨value, found, fits, bytes⟩ := word_value readable
      rw [Datum.source, dbPart_word readable, bytes, Option.getD_some, List.singleton_inj,
        parseImm_number found]
      constructor
      · rintro same other ⟨⟩ hex
        rw [if_pos hex] at same
        have low := congrArg UInt8.toNat same
        rw [wordOf] at low
        simp only [ByteFits] at fits
        have zero : value = 0 := by
          simp at low
          omega
        rw [found, zero]
      · intro decimal
        by_cases hex : NegativeHex text
        · have zero := decimal text rfl hex
          rw [found] at zero
          rw [if_pos hex, Option.some.inj zero]
          rfl
        · rw [if_neg hex]

/-- Pieces of equal length, put together, are equal only one by one. -/
theorem flatMap_eq {f g : Datum → List UInt8} {items : List Datum}
    (lengths : ∀ item ∈ items, (f item).length = (g item).length)
    (same : items.flatMap f = items.flatMap g) : ∀ item ∈ items, f item = g item := by
  induction items with
  | nil =>
      intro item listed
      cases listed
  | cons first rest rest_ih =>
      rw [List.flatMap_cons, List.flatMap_cons] at same
      have both := List.append_inj same (lengths first List.mem_cons_self)
      intro item listed
      rw [List.mem_cons] at listed
      cases listed with
      | inl head =>
          rw [head]
          exact both.1
      | inr later =>
          exact rest_ih (fun item listed => lengths item (List.mem_cons_of_mem _ listed)) both.2
            item later

theorem flatMap_length {items : List Datum} (readable : ∀ item ∈ items, item.bytes.isSome) :
    ((items.map Datum.source).flatMap dbPart).length = (denoted items).length := by
  induction items with
  | nil => rfl
  | cons first rest rest_ih =>
      rw [List.map_cons, List.flatMap_cons, denoted_cons, List.length_append, List.length_append,
        dbPart_length (readable first List.mem_cons_self),
        rest_ih (readable_later readable)]

theorem empty_of_bytes {item : Datum} (readable : item.bytes.isSome)
    (nothing : item.bytes.getD [] = []) : item = .string [] := by
  cases item with
  | word text =>
      obtain ⟨value, _, _, bytes⟩ := word_value readable
      rw [bytes] at nothing
      cases nothing
  | string text =>
      cases text with
      | nil => rfl
      | cons c rest =>
          exfalso
          rw [Option.isSome_iff_exists] at readable
          cases readable with
          | intro bytes read =>
              rw [read, Option.getD_some] at nothing
              have emitted := dbString_readable (c :: rest) bytes read
              have longer := dbString_prefix [c] rest
              rw [List.singleton_append, emitted, nothing] at longer
              have one : (dbString [c]).length = 1 := by
                rw [dbString]
                · rfl
                · intro more _ split
                  cases split
              rw [one] at longer
              cases longer

/-! ## Main results -/

theorem dataMeaning_eq {text bytes : List UInt8} (meaning : dataMeaning text = some bytes) :
    ∃ items, readData text = some items ∧ (∀ item ∈ items, item.bytes.isSome) ∧
      bytes = denoted items := by
  unfold dataMeaning at meaning
  cases read : readData text with
  | none =>
      rw [read] at meaning
      cases meaning
  | some items =>
      rw [read] at meaning
      dsimp only at meaning
      split_ifs at meaning with readable
      cases meaning
      exact ⟨items, rfl, readable, rfl⟩

section Line

variable {line text : List UInt8} {items : List Datum} {pass : Nat} {a : Asm}

/-- A line of data that emits what it denotes has no semicolon in a string. -/
theorem uncut_of_right (data : dataText line = some text) (fields : Fields text items)
    (readable : ∀ item ∈ items, item.bytes.isSome)
    (right : asmLine line pass a = (0, { a with code := a.code ++ denoted items })) :
    ¬ HasCut items := by
  intro hasCut
  have short := splitLine_short fields readable hasCut 7
  have length := congrArg (fun result => result.2.code.length) right
  dsimp only at length
  rw [asmLine_data data, List.length_append] at length
  split_ifs at length
  · dsimp only at length
    rw [addLabel_code] at length
    omega
  · dsimp only at length
    omega
  · dsimp only at length
    rw [emit_code, List.length_append, List.length_take] at length
    omega

/-- Without a semicolon in a string, the line emits its first seven operands. -/
theorem asmLine_uncut (data : dataText line = some text) (fields : Fields text items)
    (readable : ∀ item ∈ items, item.bytes.isSome) (uncut : ¬ HasCut items) :
    asmLine line pass a =
      (0, { a with
        code := a.code ++ (((items.take 7).map Datum.source).flatMap dbPart).take
          (maxCode - a.code.length) }) := by
  rw [asmLine_data data, if_neg (cut_colon fields readable uncut),
    splitLine_whole fields readable uncut, emit_eq, List.map_take]

theorem plainData_of_right (data : dataText line = some text) (fields : Fields text items)
    (readable : ∀ item ∈ items, item.bytes.isSome)
    (right : asmLine line pass a = (0, { a with code := a.code ++ denoted items })) :
    PlainData items a := by
  have uncut := uncut_of_right data fields readable right
  have front : ∀ item ∈ items.take 7, item.bytes.isSome :=
    fun item listed => readable item (List.mem_of_mem_take listed)
  have back : ∀ item ∈ items.drop 7, item.bytes.isSome :=
    fun item listed => readable item (List.mem_of_mem_drop listed)
  have split : denoted items = denoted (items.take 7) ++ denoted (items.drop 7) := by
    rw [denoted, denoted, denoted, ← List.flatMap_append, List.take_append_drop]
  have size := flatMap_length front
  rw [asmLine_uncut data fields readable uncut] at right
  have code := List.append_cancel_left (congrArg (fun result => result.2.code) right)
  have length := congrArg List.length code
  rw [List.length_take, size, split, List.length_append] at length
  have few : denoted (items.drop 7) = [] := List.eq_nil_of_length_eq_zero (by omega)
  rw [List.take_of_length_le (by omega), split, few, List.append_nil] at code
  have behind : ∀ item ∈ items.drop 7, item = .string [] := by
    intro item listed
    apply empty_of_bytes (back item listed)
    rw [denoted, List.flatMap_eq_nil_iff] at few
    exact few item listed
  have each : ∀ item ∈ items.take 7, dbPart item.source = item.bytes.getD [] := by
    apply flatMap_eq fun item listed => dbPart_length (front item listed)
    rw [List.flatMap_map] at code
    exact code
  constructor
  · exact readable
  · exact behind
  · intro text listed semicolon
    exact uncut ⟨text, listed, semicolon⟩
  · intro text listed hex
    rw [← List.take_append_drop 7 items, List.mem_append] at listed
    cases listed with
    | inl head =>
        exact (dbPart_right (front _ head)).mp (each _ head) text rfl hex
    | inr tail => cases behind _ tail
  · rw [split, few, List.append_nil]
    omega

theorem right_of_plainData (data : dataText line = some text) (fields : Fields text items)
    (plain : PlainData items a) :
    asmLine line pass a = (0, { a with code := a.code ++ denoted items }) := by
  have uncut : ¬ HasCut items := fun found =>
    plain.uncut found.choose found.choose_spec.1 found.choose_spec.2
  have few : denoted (items.drop 7) = [] := by
    rw [denoted, List.flatMap_eq_nil_iff]
    intro item listed
    rw [plain.few item listed]
    rfl
  have whole : ((items.take 7).map Datum.source).flatMap dbPart = denoted items := by
    rw [← List.take_append_drop 7 items, denoted, List.flatMap_append, ← denoted, ← denoted, few,
      List.append_nil, List.take_append_drop, denoted, List.flatMap_map]
    apply List.flatMap_congr
    intro item listed
    have listed' := List.mem_of_mem_take listed
    rw [dbPart_right (plain.readable item listed')]
    rintro text rfl
    exact plain.decimal text listed'
  rw [asmLine_uncut data fields plain.readable uncut, whole,
    List.take_of_length_le plain.room]

/-- A literal, accepted by `is_number` or not, is read right exactly when it is a number of 32 bits
that is not negative and hexadecimal at once, unless it is zero; a line of data is assembled right
exactly when its operands are plain ones for which there is room. -/
theorem data_iff (word line text : List UInt8) (pass : Nat) (a : Asm)
    (data : dataText line = some text) :
    (LiteralRight word ↔ PlainLiteral word) ∧
      (DataRight line text pass a ↔ ∃ items, readData text = some items ∧ PlainData items a) := by
  constructor
  · unfold LiteralRight PlainLiteral
    refine exists_congr fun value => and_congr_right fun found => and_congr_right fun fits => ?_
    exact parseImm_right found fits
  · unfold DataRight
    cases meaning : dataMeaning text with
    | none =>
        dsimp only
        rw [asmLine_data_result data]
        refine iff_of_false (by decide) ?_
        rintro ⟨items, read, plain⟩
        unfold dataMeaning at meaning
        rw [read] at meaning
        dsimp only at meaning
        rw [if_pos plain.readable] at meaning
        cases meaning
    | some bytes =>
        obtain ⟨items, read, readable, rfl⟩ := dataMeaning_eq meaning
        have fields := (readItems_shape text .closed items read).2
        dsimp only
        constructor
        · intro right
          exact ⟨items, read, plainData_of_right data fields readable right⟩
        · rintro ⟨items', read', plain⟩
          obtain rfl := Option.some.inj (read.symm.trans read')
          exact right_of_plainData data fields plain

end Line

theorem data_iff_hello :
    (LiteralRight (literal "0x10") ↔ PlainLiteral (literal "0x10")) ∧
      (DataRight (literal "db \"ab\\n\", 0") (literal " \"ab\\n\", 0") 2 ⟨[], [], []⟩ ↔
        ∃ items, readData (literal " \"ab\\n\", 0") = some items ∧
          PlainData items ⟨[], [], []⟩) :=
  data_iff (literal "0x10") (literal "db \"ab\\n\", 0") (literal " \"ab\\n\", 0") 2 ⟨[], [], []⟩
    (by decide)

theorem data_semicolon :
    dataText (literal "db \"a;b\"") = some (literal " \"a;b\"") ∧
      dataMeaning (literal " \"a;b\"") = some (literal "a;b") ∧
      asmLine (literal "db \"a;b\"") 2 ⟨[], [], []⟩ = (0, ⟨[], [], literal "a"⟩) ∧
      ¬ DataRight (literal "db \"a;b\"") (literal " \"a;b\"") 2 ⟨[], [], []⟩ := by
  have meaning : dataMeaning (literal " \"a;b\"") = some (literal "a;b") := by decide
  have result : asmLine (literal "db \"a;b\"") 2 ⟨[], [], []⟩ = (0, ⟨[], [], literal "a"⟩) := by
    decide
  refine ⟨by decide, meaning, result, ?_⟩
  intro right
  unfold DataRight at right
  rw [meaning, result] at right
  revert right
  decide

end Tasm

end Trinux
