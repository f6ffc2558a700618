import Trinux.Auth.UserFiles
import Trinux.Shell.Editor

namespace Trinux

open ArrayShift

/-!
# Reading a line in the shell

`shell_read_line` edits a line in a buffer of any size, with a cursor, the history of the shell and
completion of words.  It keeps the unfinished line, what is behind the cursor and the word to be
completed in arrays of 256 bytes, and cuts a line of the history that the buffer is too short for.
-/

/-! ## The history -/

def shellLineMax : Nat := 256

def shellHistory : Nat := 50

structure History where
  slots : Nat → List UInt8
  count : Nat
  head : Nat

namespace History

def empty : History := ⟨fun _ => [], 0, 0⟩

def add (h : History) (line : List UInt8) : History :=
  if line = [] then h
  else if 0 < h.count ∧ h.slots ((h.head + shellHistory - 1) % shellHistory) = line then h
  else
    { slots := Function.update h.slots h.head (line.take (shellLineMax - 1))
      count := if h.count < shellHistory then h.count + 1 else h.count
      head := (h.head + 1) % shellHistory }

def get (h : History) (index : Nat) : Option (List UInt8) :=
  if h.count ≤ index then none
  else
    let start := (h.head + shellHistory * 2 - h.count) % shellHistory
    some (h.slots ((start + index) % shellHistory))

end History

/-! ## The line -/

structure LineState where
  buf : Nat → UInt8
  len : Nat
  cursor : Nat
  histPos : Nat
  saved : Nat → UInt8

structure ComplMatch where
  name : CString
  isDir : Bool

abbrev Listing := (dirPart : List UInt8) → List ComplMatch

/-- The keys that it knows, the files at the time of a completion, and every other code. -/
inductive LineKey where
  | backspace | left | right | up | down | home | end_
  | tab (listing : Listing)
  | char (c : UInt8)

def inArray {α : Type} (size top : Nat) (written : α) : Option α :=
  if top ≤ size then some written else none

def strncpyCells (dst src : Nat → UInt8) (n : Nat) : Nat → UInt8 :=
  fun i => if i < n then (if (List.range i).all (src · ≠ 0) then src i else 0) else dst i

def cells (text : List UInt8) : Nat → UInt8 := fun i => text.getD i 0

def cellsString (size : Nat) (a : Nat → UInt8) : List UInt8 := (front a size).takeWhile (· ≠ 0)

def dirLength (word : List UInt8) : Nat := word.length - (word.reverse.takeWhile (· ≠ 47)).length

def collectCommandMatches (table : List CString) (word : List UInt8) : List ComplMatch :=
  ((table.filter fun name => word.isPrefixOf name.1).take 64).map fun name => ⟨name, false⟩

def collectPathMatches (listing : Listing) (word : List UInt8) : List ComplMatch :=
  ((listing (word.take (min (dirLength word) (pathMax - 1)))).filter fun entry =>
    (word.drop (dirLength word)).isPrefixOf entry.name.1).take 64

def commonPrefix : List UInt8 → List UInt8 → List UInt8
  | c :: rest, c' :: rest' => if c = c' then c :: commonPrefix rest rest' else []
  | _, _ => []

def commonPrefixOut : List ComplMatch → List UInt8
  | [] => []
  | first :: others =>
      others.foldl (fun common other => commonPrefix common other.name.1)
        (first.name.1.take (pathMax - 1))

def completionOf (table : List CString) (listing : Listing) (isCommand : Bool)
    (word : List UInt8) : Option (Nat × List UInt8 × List UInt8) :=
  if isCommand then
    match collectCommandMatches table word with
    | [only] => some (0, only.name.1, [32])
    | _ => none
  else
    match collectPathMatches listing word with
    | [] => none
    | [only] => some (dirLength word, only.name.1, [if only.isDir then 47 else 32])
    | several =>
        if word.length - dirLength word < (commonPrefixOut several).length then
          some (dirLength word, commonPrefixOut several, [])
        else none

namespace LineState

def applyCompletion (max wordStart : Nat) (replacement trailing : List UInt8) (s : LineState) :
    Option LineState :=
  let tailLen := s.len - s.cursor
  let newLen := wordStart + replacement.length + trailing.length + tailLen
  if max ≤ newLen then some s
  else
    (inArray shellLineMax tailLen fun i => s.buf (s.cursor + i)).bind fun tail =>
      let buf := copyCells s.buf wordStart (cells replacement) 0 replacement.length
      let buf := copyCells buf (wordStart + replacement.length) (cells trailing) 0 trailing.length
      let place := wordStart + replacement.length + trailing.length
      let buf := copyCells buf place tail 0 tailLen
      (inArray max (newLen + 1) (Function.update buf newLen 0)).map fun buf =>
        { s with buf := buf, len := newLen, cursor := place }

def wordStart (buf : Nat → UInt8) : Nat → Nat
  | 0 => 0
  | i + 1 => if buf i = 32 then i + 1 else wordStart buf i

def handleTabCompletion (table : List CString) (listing : Listing) (max : Nat) (s : LineState) :
    Option LineState :=
  let start := wordStart s.buf s.cursor
  let isCommand := (List.range start).all (s.buf · = 32)
  let plen := s.cursor - start
  (inArray shellLineMax (plen + 1) (front (fun i => s.buf (start + i)) plen)).bind fun word =>
    match completionOf table listing isCommand word with
    | none => some s
    | some (dir, replacement, trailing) => s.applyCompletion max (start + dir) replacement trailing

def replaceLine (max : Nat) (src : Nat → UInt8) (s : LineState) : Option LineState :=
  (inArray max max (Function.update (strncpyCells s.buf src (max - 1)) (max - 1) 0)).map fun buf =>
    { s with
      buf := buf, len := (cellsString max buf).length, cursor := (cellsString max buf).length }

def key (table : List CString) (h : History) (max : Nat) (s : LineState) :
    LineKey → Option LineState
  | .backspace =>
      if 0 < s.cursor then
        (inArray max (s.len - 1) (shiftDown (s.cursor - 1) (s.len - s.cursor) s.buf)).map
          fun buf => { s with buf := buf, len := s.len - 1, cursor := s.cursor - 1 }
      else some s
  | .left => some (if 0 < s.cursor then { s with cursor := s.cursor - 1 } else s)
  | .right => some (if s.cursor < s.len then { s with cursor := s.cursor + 1 } else s)
  | .up =>
      if 0 < s.histPos then
        (if s.histPos = h.count then
          (inArray shellLineMax (s.len + 1) (Function.update
            (strncpyCells s.saved s.buf (shellLineMax - 1)) s.len 0)).map fun saved =>
              { s with saved := saved }
        else some s).bind fun s =>
          match h.get (s.histPos - 1) with
          | none => some { s with histPos := s.histPos - 1 }
          | some line => { s with histPos := s.histPos - 1 }.replaceLine max (cells line)
      else some s
  | .down =>
      if s.histPos < h.count then
        { s with histPos := s.histPos + 1 }.replaceLine max
          (if s.histPos + 1 = h.count then s.saved
          else cells ((h.get (s.histPos + 1)).getD []))
      else some s
  | .home => some { s with cursor := 0 }
  | .end_ => some { s with cursor := s.len }
  | .tab listing => s.handleTabCompletion table listing max
  | .char c =>
      if 32 ≤ c ∧ c < 127 ∧ s.len < max - 1 then
        (inArray max (s.len + 1)
          (Function.update (shiftUp s.cursor (s.len - s.cursor) s.buf) s.cursor c)).map fun buf =>
            { s with buf := buf, len := s.len + 1, cursor := s.cursor + 1 }
      else some s

def start (h : History) (max : Nat) (buf saved : Nat → UInt8) : Option LineState :=
  (inArray max 1 (Function.update buf 0 0)).map fun buf =>
    ⟨buf, 0, 0, h.count, Function.update saved 0 0⟩

def finish (max : Nat) (s : LineState) : Option (List UInt8 × Nat) :=
  (inArray max (s.len + 1) (Function.update s.buf s.len 0)).map fun buf =>
    (cellsString max buf, s.len)

end LineState

/-! ## The abstract editor -/

/-- A line with a cursor, a place in the history and the line below the newest one. -/
structure LineText where
  text : List UInt8
  cursor : Nat
  pos : Nat
  unfinished : List UInt8

/-- A history remembers a line, unless it is empty or the newest one again, and forgets the oldest
if it is full. -/
def remember (lines : List (List UInt8)) (line : List UInt8) : List (List UInt8) :=
  if line = [] ∨ lines.getLast? = some line then lines
  else (if lines.length < shellHistory then lines else lines.drop 1) ++
    [line.take (shellLineMax - 1)]

namespace LineText

def word (t : LineText) : List UInt8 :=
  ((t.text.take t.cursor).reverse.takeWhile (· ≠ 32)).reverse

def wordStart (t : LineText) : Nat := t.cursor - t.word.length

def recalled (t : LineText) (pos : Nat) (line : List UInt8) : LineText :=
  { t with text := line, cursor := line.length, pos := pos }

def key (shown : List UInt8 → List UInt8) (table : List CString) (lines : List (List UInt8))
    (max : Nat) (t : LineText) : LineKey → LineText
  | .backspace =>
      if 0 < t.cursor then
        { t with text := t.text.take (t.cursor - 1) ++ t.text.drop t.cursor
                 cursor := t.cursor - 1 }
      else t
  | .left => { t with cursor := t.cursor - 1 }
  | .right => { t with cursor := min (t.cursor + 1) t.text.length }
  | .up =>
      if 0 < t.pos then
        ({ t with
          unfinished := if t.pos = lines.length then t.text else t.unfinished }).recalled
            (t.pos - 1) (shown (lines.getD (t.pos - 1) []))
      else t
  | .down =>
      if t.pos < lines.length then
        t.recalled (t.pos + 1) (shown (if t.pos + 1 = lines.length then t.unfinished
          else lines.getD (t.pos + 1) []))
      else t
  | .home => { t with cursor := 0 }
  | .end_ => { t with cursor := t.text.length }
  | .tab listing =>
      match completionOf table listing ((t.text.take t.wordStart).all (· = 32)) t.word with
      | none => t
      | some (dir, replacement, trailing) =>
          let front := t.text.take (t.wordStart + dir) ++ replacement ++ trailing
          if (front ++ t.text.drop t.cursor).length < max then
            { t with text := front ++ t.text.drop t.cursor, cursor := front.length }
          else t
  | .char c =>
      if 32 ≤ c ∧ c < 127 ∧ t.text.length + 1 < max then
        { t with text := t.text.take t.cursor ++ c :: t.text.drop t.cursor
                 cursor := t.cursor + 1 }
      else t

end LineText

/-! ## The ring holds the history -/

structure History.Keeps (h : History) (lines : List (List UInt8)) : Prop where
  length : lines.length = h.count
  few : h.count ≤ shellHistory
  inside : h.head < shellHistory
  slots : ∀ i < h.count,
    h.slots ((h.head + shellHistory * 2 - h.count + i) % shellHistory) = lines.getD i []
  plain : ∀ line ∈ lines, 0 ∉ line

namespace History.Keeps

variable {h : History} {lines : List (List UInt8)}

theorem empty : History.empty.Keeps [] :=
  ⟨rfl, Nat.zero_le _, by decide, fun _ inside => absurd inside (Nat.not_lt_zero _),
    fun _ inside => absurd inside List.not_mem_nil⟩

theorem get (keeps : h.Keeps lines) {i : Nat} (inside : i < h.count) :
    h.get i = some (lines.getD i []) := by
  have few := keeps.few
  have slots := keeps.slots i inside
  rw [shellHistory] at few slots
  rw [History.get, if_neg (Nat.not_le.mpr inside), shellHistory]
  dsimp only
  rw [← slots, Nat.mod_add_mod]

theorem newest (keeps : h.Keeps lines) (line : List UInt8) :
    (0 < h.count ∧ h.slots ((h.head + shellHistory - 1) % shellHistory) = line) ↔
      lines.getLast? = some line := by
  have few := keeps.few
  have length := keeps.length
  by_cases some_ : 0 < h.count
  · have slot := keeps.slots (h.count - 1) (by omega)
    have place : (h.head + shellHistory * 2 - h.count + (h.count - 1)) % shellHistory =
        (h.head + shellHistory - 1) % shellHistory := by
      rw [shellHistory] at few ⊢
      omega
    rw [place] at slot
    rw [slot, List.getLast?_eq_getElem?, List.getD_eq_getElem?_getD, length,
      List.getElem?_eq_getElem (by omega)]
    simp [some_]
  · have none_ : lines = [] := List.eq_nil_of_length_eq_zero (by omega)
    simp [some_, none_]

theorem add (keeps : h.Keeps lines) {line : List UInt8} (plain : 0 ∉ line) :
    (h.add line).Keeps (remember lines line) := by
  rw [History.add, remember]
  by_cases empty : line = []
  · rw [if_pos empty, if_pos (Or.inl empty)]
    exact keeps
  rw [if_neg empty]
  by_cases again : lines.getLast? = some line
  · rw [if_pos ((keeps.newest line).mpr again), if_pos (Or.inr again)]
    exact keeps
  rw [if_neg (mt (keeps.newest line).mp again), if_neg (not_or.mpr ⟨empty, again⟩)]
  have length := keeps.length
  have few := keeps.few
  have inside := keeps.inside
  have slots := keeps.slots
  have cut : 0 ∉ line.take (shellLineMax - 1) := fun there => plain (List.mem_of_mem_take there)
  rw [shellHistory] at few inside slots
  by_cases room : h.count < shellHistory
  · have room' : lines.length < shellHistory := length ▸ room
    rw [if_pos room']
    simp only [if_pos room]
    rw [shellHistory] at room
    refine ⟨by simp [length], room, Nat.mod_lt _ (by decide), fun i below => ?_, ?_⟩
    · dsimp only at below ⊢
      rw [shellHistory]
      by_cases last : i = h.count
      · have place : ((h.head + 1) % 50 + 50 * 2 - (h.count + 1) + i) % 50 = h.head := by omega
        rw [place, Function.update_self, last, ← length]
        simp
      · have place : ((h.head + 1) % 50 + 50 * 2 - (h.count + 1) + i) % 50 =
            (h.head + 50 * 2 - h.count + i) % 50 := by omega
        have other : (h.head + 50 * 2 - h.count + i) % 50 ≠ h.head := by omega
        rw [place, Function.update_of_ne other, slots i (by omega),
          List.getD_append _ _ _ _ (by omega)]
    · intro other there
      rcases List.mem_append.mp there with old | new
      · exact keeps.plain other old
      · exact List.mem_singleton.mp new ▸ cut
  · have room' : ¬lines.length < shellHistory := length ▸ room
    rw [if_neg room']
    simp only [if_neg room]
    rw [shellHistory] at room
    have full : h.count = 50 := by omega
    refine ⟨?_, keeps.few, Nat.mod_lt _ (by decide), fun i below => ?_, ?_⟩
    · simp [length, full]
    · dsimp only at below ⊢
      rw [shellHistory]
      rw [full] at below slots ⊢
      have dropped : (lines.drop 1).length = 49 := by
        rw [List.length_drop, length, full]
      by_cases last : i = 49
      · have place : ((h.head + 1) % 50 + 50 * 2 - 50 + i) % 50 = h.head := by omega
        rw [place, Function.update_self, last, ← dropped]
        simp
      · have place : ((h.head + 1) % 50 + 50 * 2 - 50 + i) % 50 =
            (h.head + 50 * 2 - 50 + (i + 1)) % 50 := by omega
        have other : (h.head + 50 * 2 - 50 + (i + 1)) % 50 ≠ h.head := by omega
        rw [place, Function.update_of_ne other, slots (i + 1) (by omega),
          List.getD_append _ _ _ _ (by omega), List.getD_eq_getElem?_getD,
          List.getD_eq_getElem?_getD, List.getElem?_drop, Nat.add_comm 1 i]
    · intro other there
      rcases List.mem_append.mp there with old | new
      · exact keeps.plain other (List.mem_of_mem_drop old)
      · exact List.mem_singleton.mp new ▸ cut

theorem add_all (entered : List CString) :
    (entered.foldl (fun h line => h.add line.1) History.empty).Keeps
      (entered.foldl (fun lines line => remember lines line.1) []) := by
  induction entered using List.reverseRecOn with
  | nil => exact empty
  | append_singleton entered line known =>
      rw [List.foldl_append, List.foldl_append]
      exact known.add line.2

end History.Keeps

/-! ## Strings in arrays -/

structure IsString (a : Nat → UInt8) (text : List UInt8) : Prop where
  shows : front a text.length = text
  ends : a text.length = 0
  plain : 0 ∉ text

namespace IsString

variable {a dst : Nat → UInt8} {text : List UInt8}

theorem cell (isString : IsString a text) {i : Nat} (inside : i < text.length) :
    a i = text.getD i 0 := by
  have same := congrArg (fun list => list[i]?) isString.shows
  rw [front_getElem?, if_pos inside] at same
  rw [List.getD_eq_getElem?_getD, ← same]
  rfl

theorem cell_ne_zero (isString : IsString a text) {i : Nat} (inside : i < text.length) :
    a i ≠ 0 := by
  rw [isString.cell inside, List.getD_eq_getElem _ _ inside]
  exact fun zero => isString.plain (zero ▸ List.getElem_mem inside)

theorem of_cells (plain : 0 ∉ text) : IsString (cells text) text := by
  refine ⟨?_, ?_, plain⟩
  · apply List.ext_getElem?
    intro i
    rw [front_getElem?]
    by_cases inside : i < text.length
    · rw [if_pos inside, cells, List.getD_eq_getElem _ _ inside, List.getElem?_eq_getElem inside]
    · rw [if_neg inside, List.getElem?_eq_none (Nat.not_lt.mp inside)]
  · rw [cells, List.getD_eq_getElem?_getD, List.getElem?_eq_none (Nat.le_refl _)]
    rfl

theorem cellsString_eq (isString : IsString a text) {size : Nat} (fits : text.length < size) :
    cellsString size a = text := by
  obtain ⟨rest, rfl⟩ := Nat.exists_eq_add_of_lt fits
  have parts : front a (text.length + rest + 1) =
      text ++ 0 :: front (fun i => a (text.length + 1 + i)) rest := by
    have sum : text.length + rest + 1 = text.length + 1 + rest := by omega
    rw [sum, front_add, front_succ, isString.shows, isString.ends, List.append_assoc]
    rfl
  rw [cellsString, parts, List.takeWhile_append_of_pos, List.takeWhile_cons_of_neg (by simp),
    List.append_nil]
  intro c inside
  simpa using fun zero : c = 0 => isString.plain (zero ▸ inside)

theorem strncpyCells_eq (isString : IsString a text) {n i : Nat} (inside : i < n) :
    strncpyCells dst a n i = text.getD i 0 := by
  rw [strncpyCells, if_pos inside]
  by_cases before : i < text.length
  · rw [if_pos, isString.cell before]
    rw [List.all_eq_true]
    intro j there
    have zero := isString.cell_ne_zero (Nat.lt_trans (List.mem_range.mp there) before)
    simpa using zero
  · rw [List.getD_eq_getElem?_getD, List.getElem?_eq_none (Nat.not_lt.mp before)]
    by_cases here : i = text.length
    · rw [here, isString.ends]
      split <;> rfl
    · rw [if_neg]
      · rfl
      · intro all
        have zero := List.all_eq_true.mp all text.length (List.mem_range.mpr (by omega))
        rw [isString.ends] at zero
        simp at zero

/-- A string that is copied into an array, with a zero at its end. -/
theorem strncpy (isString : IsString a text) (max : Nat) :
    IsString (Function.update (strncpyCells dst a (max - 1)) (max - 1) 0)
      (text.take (max - 1)) := by
  have cell_ : ∀ i, i ≤ max - 1 →
      Function.update (strncpyCells dst a (max - 1)) (max - 1) 0 i =
        (text.take (max - 1)).getD i 0 := by
    intro i inside
    rw [List.getD_eq_getElem?_getD]
    by_cases last : i = max - 1
    · rw [last, Function.update_self, List.getElem?_eq_none (by rw [List.length_take]; omega)]
      rfl
    · rw [Function.update_of_ne last, isString.strncpyCells_eq (by omega),
        List.getD_eq_getElem?_getD, List.getElem?_take_of_lt (by omega)]
  have short : (text.take (max - 1)).length ≤ max - 1 := by
    rw [List.length_take]
    exact Nat.min_le_left _ _
  have plain : 0 ∉ text.take (max - 1) := fun there => isString.plain (List.mem_of_mem_take there)
  have source := of_cells plain
  refine ⟨(front_congr fun i inside => cell_ i (by omega)).trans source.shows, ?_, source.plain⟩
  exact (cell_ _ short).trans source.ends

/-- A string that is copied from a line in an array, which has no zero behind it. -/
theorem strncpy_line {buf : Nat → UInt8} {size : Nat} (line : front buf text.length = text)
    (plain : 0 ∉ text) (fits : text.length ≤ size) :
    IsString (Function.update (strncpyCells dst buf size) text.length 0) text := by
  have cell_ : ∀ i < text.length, buf i = text.getD i 0 := by
    intro i inside
    have same := congrArg (fun list => list[i]?) line
    rw [front_getElem?, if_pos inside] at same
    rw [List.getD_eq_getElem?_getD, ← same]
    rfl
  refine ⟨?_, Function.update_self _ _ _, plain⟩
  refine Eq.trans (front_congr fun i inside => ?_) line
  rw [Function.update_of_ne (by omega), strncpyCells, if_pos (by omega), if_pos]
  rw [List.all_eq_true]
  intro j there
  have before := Nat.lt_trans (List.mem_range.mp there) inside
  rw [cell_ j before, List.getD_eq_getElem _ _ before]
  simpa using fun zero : text[j] = 0 => plain (zero ▸ List.getElem_mem before)

end IsString

/-! ## The buffer shows the abstract line -/

structure LineState.Shows (max : Nat) (h : History) (s : LineState) (t : LineText) : Prop where
  text : front s.buf s.len = t.text
  cursor : s.cursor = t.cursor
  pos : s.histPos = t.pos
  within : t.cursor ≤ t.text.length
  bottom : t.pos ≤ h.count
  fits : t.text.length < max
  plain : 0 ∉ t.text
  saved : t.pos < h.count → IsString s.saved t.unfinished

namespace LineState.Shows

variable {table : List CString} {h : History} {lines : List (List UInt8)} {max : Nat}
  {s : LineState} {t : LineText}

theorem len (shows : s.Shows max h t) : s.len = t.text.length := by
  rw [← shows.text, front_length]

theorem replaceLine (positive : 0 < max) {src : Nat → UInt8} {line : List UInt8}
    (isString : IsString src line) (s : LineState) :
    ∃ s', s.replaceLine max src = some s' ∧ front s'.buf s'.len = line.take (max - 1) ∧
      s'.cursor = (line.take (max - 1)).length ∧ s'.histPos = s.histPos ∧ s'.saved = s.saved := by
  have short : (line.take (max - 1)).length < max := by
    rw [List.length_take]
    omega
  have copied := @isString.strncpy _ s.buf _ max
  rw [LineState.replaceLine, inArray, if_pos (Nat.le_refl max)]
  refine ⟨_, rfl, ?_, ?_, rfl, rfl⟩
  · dsimp only
    rw [copied.cellsString_eq short, copied.shows]
  · dsimp only
    rw [copied.cellsString_eq short]

theorem recallLine (positive : 0 < max) {src saved : Nat → UInt8}
    {line : List UInt8} (isString : IsString src line) {pos : Nat} (bottom : pos ≤ h.count)
    {unfinished : List UInt8} (kept : pos < h.count → IsString saved unfinished) :
    ∃ s', LineState.replaceLine max src { s with histPos := pos, saved := saved } = some s' ∧
      s'.Shows max h (({ t with unfinished := unfinished } : LineText).recalled pos
        (line.take (max - 1))) := by
  rcases replaceLine positive isString { s with histPos := pos, saved := saved } with
    ⟨s', replaced, text, cursor, pos', saved'⟩
  refine ⟨s', replaced, text, cursor, pos', Nat.le_refl _, bottom, ?_, ?_, fun above => ?_⟩
  · change (line.take (max - 1)).length < max
    rw [List.length_take]
    omega
  · exact fun there => isString.plain (List.mem_of_mem_take there)
  · rw [saved']
    exact kept above

theorem backspace (shows : s.Shows max h t) :
    ∃ s', s.key table h max .backspace = some s' ∧
      s'.Shows max h (t.key (List.take (max - 1)) table lines max .backspace) := by
  have length := shows.len
  have within := shows.within
  have fits := shows.fits
  rw [LineState.key, LineText.key, shows.cursor]
  by_cases positive : 0 < t.cursor
  · rw [if_pos positive, if_pos positive, inArray, if_pos (by omega)]
    have text : front (shiftDown (t.cursor - 1) (s.len - t.cursor) s.buf) (s.len - 1) =
        t.text.take (t.cursor - 1) ++ t.text.drop t.cursor := by
      rw [← shows.text, ← front_erase (by omega) positive]
      refine front_congr fun i inside => ?_
      rw [shiftDown_apply, shiftDown_apply]
      by_cases behind : t.cursor - 1 ≤ i
      · rw [if_pos ⟨behind, by omega⟩, if_pos ⟨behind, by omega⟩]
      · rw [if_neg (by omega), if_neg (by omega)]
    refine ⟨_, rfl, text, rfl, shows.pos, ?_, shows.bottom, ?_, ?_, shows.saved⟩
    · simp
      omega
    · simp
      omega
    · intro there
      rcases List.mem_append.mp there with there | there
      · exact shows.plain (List.mem_of_mem_take there)
      · exact shows.plain (List.mem_of_mem_drop there)
  · rw [if_neg positive, if_neg positive]
    exact ⟨s, rfl, shows⟩

theorem char (shows : s.Shows max h t) (c : UInt8) :
    ∃ s', s.key table h max (.char c) = some s' ∧
      s'.Shows max h (t.key (List.take (max - 1)) table lines max (.char c)) := by
  have length := shows.len
  have within := shows.within
  have room : (32 ≤ c ∧ c < 127 ∧ s.len < max - 1) ↔
      32 ≤ c ∧ c < 127 ∧ t.text.length + 1 < max :=
    and_congr_right fun _ => and_congr_right fun _ => by omega
  rw [LineState.key, LineText.key, shows.cursor]
  by_cases inserts : 32 ≤ c ∧ c < 127 ∧ t.text.length + 1 < max
  · rw [if_pos (room.mpr inserts), if_pos inserts, inArray, if_pos (by omega)]
    have text : front (Function.update (shiftUp t.cursor (s.len - t.cursor) s.buf) t.cursor c)
        (s.len + 1) = t.text.take t.cursor ++ c :: t.text.drop t.cursor := by
      rw [← shows.text, ← front_insert (by omega) c]
      exact front_congr fun i inside => (Function.update_of_ne (by omega) _ _).symm
    refine ⟨_, rfl, text, rfl, shows.pos, ?_, shows.bottom, ?_, ?_, shows.saved⟩
    · simp
      omega
    · simp
      omega
    · intro there
      rcases List.mem_append.mp there with there | there
      · exact shows.plain (List.mem_of_mem_take there)
      · rcases List.mem_cons.mp there with zero | there
        · rw [← zero] at inserts
          exact absurd inserts.1 (by decide)
        · exact shows.plain (List.mem_of_mem_drop there)
  · rw [if_neg (mt room.mp inserts), if_neg inserts]
    exact ⟨s, rfl, shows⟩

theorem up (shows : s.Shows max h t) (keeps : h.Keeps lines) (positive : 0 < max)
    (small : max ≤ shellLineMax) :
    ∃ s', s.key table h max .up = some s' ∧
      s'.Shows max h (t.key (List.take (max - 1)) table lines max .up) := by
  have length := shows.len
  have fits := shows.fits
  have bottom := shows.bottom
  rw [LineState.key, LineText.key, shows.pos, keeps.length]
  by_cases above : 0 < t.pos
  · have line := keeps.get (show t.pos - 1 < h.count by omega)
    have plain : 0 ∉ lines.getD (t.pos - 1) [] := by
      rw [List.getD_eq_getElem _ _ (by rw [keeps.length]; omega)]
      exact keeps.plain _ (List.getElem_mem _)
    rw [if_pos above, if_pos above]
    by_cases newest : t.pos = h.count
    · have saved := @IsString.strncpy_line s.saved t.text s.buf (shellLineMax - 1)
        (by rw [← length]; exact shows.text) shows.plain (by omega)
      rw [if_pos newest, if_pos newest, inArray, if_pos (by omega), Option.map_some,
        Option.bind_some]
      dsimp only
      rw [line]
      rw [← length] at saved
      exact recallLine positive (IsString.of_cells plain) (by omega) fun _ => saved
    · rw [if_neg newest, if_neg newest, Option.bind_some]
      rw [shows.pos, line]
      exact recallLine positive (IsString.of_cells plain) (by omega) fun _ =>
        shows.saved (by omega)
  · rw [if_neg above, if_neg above]
    exact ⟨s, rfl, shows⟩

theorem down (shows : s.Shows max h t) (keeps : h.Keeps lines) (positive : 0 < max) :
    ∃ s', s.key table h max .down = some s' ∧
      s'.Shows max h (t.key (List.take (max - 1)) table lines max .down) := by
  have bottom := shows.bottom
  rw [LineState.key, LineText.key, shows.pos, keeps.length]
  by_cases below : t.pos < h.count
  · rw [if_pos below, if_pos below]
    by_cases last : t.pos + 1 = h.count
    · rw [if_pos last, if_pos last]
      exact recallLine positive (shows.saved below) (by omega) fun _ => shows.saved below
    · have plain : 0 ∉ lines.getD (t.pos + 1) [] := by
        rw [List.getD_eq_getElem _ _ (by rw [keeps.length]; omega)]
        exact keeps.plain _ (List.getElem_mem _)
      rw [if_neg last, if_neg last, keeps.get (by omega), Option.getD_some]
      exact recallLine positive (IsString.of_cells plain) (by omega) fun _ => shows.saved below
  · rw [if_neg below, if_neg below]
    exact ⟨s, rfl, shows⟩

/-- A completion that fits is put in the place of the end of the word. -/
theorem applyCompletion (shows : s.Shows max h t) (small : max ≤ shellLineMax) {place : Nat}
    (inside : place ≤ t.cursor) {replacement trailing : List UInt8} (plain : 0 ∉ replacement)
    (plain' : 0 ∉ trailing) :
    ∃ s', s.applyCompletion max place replacement trailing = some s' ∧
      s'.Shows max h
        (if (t.text.take place ++ replacement ++ trailing ++ t.text.drop t.cursor).length < max then
          { t with text := t.text.take place ++ replacement ++ trailing ++ t.text.drop t.cursor
                   cursor := (t.text.take place ++ replacement ++ trailing).length }
        else t) := by
  have length := shows.len
  have within := shows.within
  have front_ : (t.text.take place ++ replacement ++ trailing).length =
      place + replacement.length + trailing.length := by
    simp
    omega
  have whole : (t.text.take place ++ replacement ++ trailing ++ t.text.drop t.cursor).length =
      place + replacement.length + trailing.length + (s.len - t.cursor) := by
    rw [List.length_append, front_, List.length_drop, length]
  rw [LineState.applyCompletion, whole, shows.cursor]
  dsimp only
  by_cases fits : place + replacement.length + trailing.length + (s.len - t.cursor) < max
  · have fits' := shows.fits
    rw [if_neg (Nat.not_le.mpr fits), if_pos fits, inArray, if_pos (by omega), Option.bind_some,
      inArray, if_pos (by omega), Option.map_some]
    refine ⟨_, rfl, ?_, front_.symm, shows.pos, ?_, shows.bottom, ?_, ?_, shows.saved⟩
    · dsimp only
      rw [front_add, front_add, front_add]
      congr 1
      · congr 1
        · congr 1
          · rw [← shows.text, front_take (by omega)]
            refine front_congr fun i before => ?_
            rw [Function.update_of_ne (by omega), copyCells, if_neg (by omega), copyCells,
              if_neg (by omega), copyCells, if_neg (by omega)]
          · refine Eq.trans (front_congr fun i before => ?_) (IsString.of_cells plain).shows
            rw [Function.update_of_ne (by omega), copyCells, if_neg (by omega), copyCells,
              if_neg (by omega), copyCells, if_pos (by omega), Nat.add_sub_cancel_left,
              Nat.zero_add]
        · refine Eq.trans (front_congr fun i before => ?_) (IsString.of_cells plain').shows
          rw [Function.update_of_ne (by omega), copyCells, if_neg (by omega), copyCells,
            if_pos (by omega), Nat.add_sub_cancel_left, Nat.zero_add]
      · rw [← shows.text, front_drop (by omega)]
        refine front_congr fun i before => ?_
        rw [Function.update_of_ne (by omega), copyCells, if_pos (by omega),
          Nat.add_sub_cancel_left, Nat.zero_add]
    · dsimp only
      rw [whole, front_]
      exact Nat.le_add_right _ _
    · dsimp only
      rw [whole]
      exact fits
    · intro there
      rcases List.mem_append.mp there with there | there
      · rcases List.mem_append.mp there with there | there
        · rcases List.mem_append.mp there with there | there
          · exact shows.plain (List.mem_of_mem_take there)
          · exact plain there
        · exact plain' there
      · exact shows.plain (List.mem_of_mem_drop there)
  · rw [if_pos (Nat.not_lt.mp fits), if_neg fits]
    exact ⟨s, rfl, shows⟩

theorem left (shows : s.Shows max h t) :
    ∃ s', s.key table h max .left = some s' ∧
      s'.Shows max h (t.key (List.take (max - 1)) table lines max .left) := by
  have within := shows.within
  refine ⟨_, rfl, ?_⟩
  by_cases positive : 0 < s.cursor
  · rw [if_pos positive]
    exact ⟨shows.text, congrArg (· - 1) shows.cursor, shows.pos,
      Nat.le_trans (Nat.sub_le _ _) within, shows.bottom, shows.fits, shows.plain, shows.saved⟩
  · rw [if_neg positive]
    have zero : s.cursor = t.cursor - 1 := by
      have same := shows.cursor
      omega
    exact ⟨shows.text, zero, shows.pos, Nat.le_trans (Nat.sub_le _ _) within, shows.bottom,
      shows.fits, shows.plain, shows.saved⟩

theorem right (shows : s.Shows max h t) :
    ∃ s', s.key table h max .right = some s' ∧
      s'.Shows max h (t.key (List.take (max - 1)) table lines max .right) := by
  have length := shows.len
  have within := shows.within
  have same := shows.cursor
  refine ⟨_, rfl, ?_⟩
  by_cases inside : s.cursor < s.len
  · rw [if_pos inside]
    have moved : s.cursor + 1 = min (t.cursor + 1) t.text.length := by omega
    exact ⟨shows.text, moved, shows.pos, Nat.min_le_right _ _, shows.bottom, shows.fits,
      shows.plain, shows.saved⟩
  · rw [if_neg inside]
    have stays : s.cursor = min (t.cursor + 1) t.text.length := by omega
    exact ⟨shows.text, stays, shows.pos, Nat.min_le_right _ _, shows.bottom, shows.fits,
      shows.plain, shows.saved⟩

theorem home (shows : s.Shows max h t) :
    ∃ s', s.key table h max .home = some s' ∧
      s'.Shows max h (t.key (List.take (max - 1)) table lines max .home) :=
  ⟨_, rfl, shows.text, rfl, shows.pos, Nat.zero_le _, shows.bottom, shows.fits, shows.plain,
    shows.saved⟩

theorem end_ (shows : s.Shows max h t) :
    ∃ s', s.key table h max .end_ = some s' ∧
      s'.Shows max h (t.key (List.take (max - 1)) table lines max .end_) :=
  ⟨_, rfl, shows.text, shows.len, shows.pos, Nat.le_refl _, shows.bottom, shows.fits, shows.plain,
    shows.saved⟩

end LineState.Shows

/-! ## Completion of a word -/

/-- The word before an index begins where the code finds it. -/
theorem LineState.wordStart_eq (buf : Nat → UInt8) (i : Nat) :
    LineState.wordStart buf i = i - ((front buf i).reverse.takeWhile (· ≠ 32)).length := by
  induction i with
  | zero => rfl
  | succ i known =>
      rw [LineState.wordStart, front_succ, List.reverse_append, List.reverse_singleton,
        List.singleton_append]
      by_cases space : buf i = 32
      · rw [if_pos space, List.takeWhile_cons_of_neg (by simp [space])]
        rfl
      · rw [if_neg space, List.takeWhile_cons_of_pos (by simp [space]), List.length_cons, known,
          Nat.add_sub_add_right]

namespace LineText

variable {t : LineText}

theorem word_length_le (t : LineText) : t.word.length ≤ t.cursor := by
  have whole := ((t.text.take t.cursor).reverse.takeWhile_prefix (· ≠ 32)).length_le
  rw [List.length_reverse, List.length_take] at whole
  rw [word, List.length_reverse]
  exact Nat.le_trans whole (Nat.min_le_left _ _)

theorem word_eq (within : t.cursor ≤ t.text.length) :
    t.word = (t.text.take t.cursor).drop t.wordStart := by
  have part := List.prefix_iff_eq_take.mp
    ((t.text.take t.cursor).reverse.takeWhile_prefix (· ≠ 32))
  have short := t.word_length_le
  rw [wordStart]
  conv_lhs => rw [word, part, ← List.length_reverse, ← word]
  rw [List.reverse_take, List.reverse_reverse, List.length_reverse, List.length_take,
    Nat.min_eq_left within]

theorem dirLength_le (word : List UInt8) : dirLength word ≤ word.length := Nat.sub_le _ _

end LineText

theorem commonPrefix_front (a b : List UInt8) : commonPrefix a b <+: a := by
  induction a generalizing b with
  | nil => exact List.nil_prefix
  | cons c rest known =>
      cases b with
      | nil => exact List.nil_prefix
      | cons c' rest' =>
          rw [commonPrefix]
          by_cases same : c = c'
          · rw [if_pos same]
            exact (List.prefix_cons_inj c).mpr (known rest')
          · rw [if_neg same]
            exact List.nil_prefix

theorem commonPrefixOut_plain (several : List ComplMatch) : 0 ∉ commonPrefixOut several := by
  cases several with
  | nil => exact List.not_mem_nil
  | cons first others =>
      rw [commonPrefixOut]
      have plain : 0 ∉ first.name.1.take (pathMax - 1) := fun there =>
        first.name.2 (List.mem_of_mem_take there)
      induction others using List.reverseRecOn with
      | nil => exact plain
      | append_singleton others other known =>
          rw [List.foldl_append, List.foldl_cons, List.foldl_nil]
          exact fun there => known ((commonPrefix_front _ _).subset there)

/-- A completion leaves bytes of the word, and puts strings behind them. -/
theorem completionOf_plain {table : List CString} {listing : Listing} {isCommand : Bool}
    {word : List UInt8} {dir : Nat} {replacement trailing : List UInt8}
    (found : completionOf table listing isCommand word = some (dir, replacement, trailing)) :
    dir ≤ word.length ∧ 0 ∉ replacement ∧ 0 ∉ trailing := by
  rw [completionOf] at found
  cases isCommand with
  | true =>
      rw [if_pos rfl] at found
      split at found
      case h_1 only _ =>
        simp only [Option.some.injEq, Prod.mk.injEq] at found
        obtain ⟨rfl, rfl, rfl⟩ := found
        exact ⟨Nat.zero_le _, only.name.2, by decide⟩
      case h_2 => cases found
  | false =>
      rw [if_neg (by decide)] at found
      split at found
      case h_1 => cases found
      case h_2 only _ =>
        simp only [Option.some.injEq, Prod.mk.injEq] at found
        obtain ⟨rfl, rfl, rfl⟩ := found
        refine ⟨LineText.dirLength_le _, only.name.2, ?_⟩
        cases only.isDir <;> decide
      case h_3 =>
        by_cases longer : word.length - dirLength word <
            (commonPrefixOut (collectPathMatches listing word)).length
        · rw [if_pos longer] at found
          simp only [Option.some.injEq, Prod.mk.injEq] at found
          obtain ⟨rfl, rfl, rfl⟩ := found
          exact ⟨LineText.dirLength_le _, commonPrefixOut_plain _, by decide⟩
        · rw [if_neg longer] at found
          cases found

namespace LineState.Shows

variable {table : List CString} {h : History} {lines : List (List UInt8)} {max : Nat}
  {s : LineState} {t : LineText}

theorem tab (shows : s.Shows max h t) (small : max ≤ shellLineMax) (listing : Listing) :
    ∃ s', s.key table h max (.tab listing) = some s' ∧
      s'.Shows max h (t.key (List.take (max - 1)) table lines max (.tab listing)) := by
  have length := shows.len
  have within := shows.within
  have fits := shows.fits
  have short := t.word_length_le
  have before : t.text.take t.cursor = front s.buf t.cursor := by
    rw [← shows.text, front_take (by omega)]
  have start : LineState.wordStart s.buf s.cursor = t.wordStart := by
    rw [LineState.wordStart_eq, shows.cursor, LineText.wordStart, LineText.word, before,
      List.length_reverse]
  have first : (List.range t.wordStart).all (s.buf · = 32) =
      (t.text.take t.wordStart).all (· = 32) := by
    rw [← shows.text, front_take (by rw [LineText.wordStart]; omega), front, List.all_map]
    rfl
  have word : front (fun i => s.buf (t.wordStart + i)) (t.cursor - t.wordStart) = t.word := by
    rw [LineText.word_eq within, before, front_drop (by rw [LineText.wordStart]; omega)]
  rw [LineState.key, LineState.handleTabCompletion, LineText.key]
  dsimp only
  rw [start, first, shows.cursor, word, inArray, if_pos (by omega), Option.bind_some]
  cases found : completionOf table listing ((t.text.take t.wordStart).all (· = 32)) t.word with
  | none => exact ⟨s, rfl, shows⟩
  | some completion =>
      obtain ⟨dir, replacement, trailing⟩ := completion
      obtain ⟨inside, plain, plain'⟩ := completionOf_plain found
      exact shows.applyCompletion small (by rw [LineText.wordStart]; omega) plain plain'

theorem key (shows : s.Shows max h t) (keeps : h.Keeps lines) (positive : 0 < max)
    (small : max ≤ shellLineMax) (k : LineKey) :
    ∃ s', s.key table h max k = some s' ∧
      s'.Shows max h (t.key (List.take (max - 1)) table lines max k) := by
  cases k with
  | backspace => exact shows.backspace
  | left => exact shows.left
  | right => exact shows.right
  | up => exact shows.up keeps positive small
  | down => exact shows.down keeps positive
  | home => exact shows.home
  | end_ => exact shows.end_
  | tab listing => exact shows.tab small listing
  | char c => exact shows.char c

theorem keys (shows : s.Shows max h t) (keeps : h.Keeps lines) (positive : 0 < max)
    (small : max ≤ shellLineMax) (keys : List LineKey) :
    ∃ s', keys.foldlM (LineState.key table h max) s = some s' ∧
      s'.Shows max h (keys.foldl (LineText.key (List.take (max - 1)) table lines max) t) := by
  induction keys generalizing s t with
  | nil => exact ⟨s, rfl, shows⟩
  | cons k keys known =>
      obtain ⟨s', pressed, shows'⟩ := @key table h lines max s t shows keeps positive small k
      rw [List.foldlM_cons, pressed, List.foldl_cons]
      exact known shows'

theorem start (keeps : h.Keeps lines) (positive : 0 < max) (buf saved : Nat → UInt8) :
    ∃ s, LineState.start h max buf saved = some s ∧
      s.Shows max h ⟨[], 0, lines.length, []⟩ := by
  rw [LineState.start, inArray, if_pos (Nat.succ_le_of_lt positive)]
  exact ⟨_, rfl, rfl, rfl, keeps.length.symm, Nat.le_refl _, Nat.le_of_eq keeps.length, positive,
    List.not_mem_nil, fun below => absurd (keeps.length ▸ below) (Nat.lt_irrefl _)⟩

theorem finish (shows : s.Shows max h t) : s.finish max = some (t.text, t.text.length) := by
  have length := shows.len
  have fits := shows.fits
  have isString : IsString (Function.update s.buf s.len 0) t.text := by
    refine ⟨?_, ?_, shows.plain⟩
    · rw [← length]
      refine Eq.trans (front_congr fun i inside => ?_) shows.text
      rw [Function.update_of_ne (Nat.ne_of_lt inside)]
    · rw [← length, Function.update_self]
  rw [LineState.finish, inArray, if_pos (by omega), Option.map_some, isString.cellsString_eq fits,
    length]

end LineState.Shows

/-! ## The line that is read -/

def readLine (table : List CString) (h : History) (max : Nat) (buf saved : Nat → UInt8)
    (keys : List LineKey) : Option LineState :=
  (LineState.start h max buf saved).bind fun s => keys.foldlM (LineState.key table h max) s

def editedLine (shown : List UInt8 → List UInt8) (table : List CString) (lines : List (List UInt8))
    (max : Nat) (keys : List LineKey) : LineText :=
  keys.foldl (LineText.key shown table lines max) ⟨[], 0, lines.length, []⟩

/-- After some keys nothing has been written outside of the arrays, the variables are in their
bounds, and Enter returns the line of the abstract editor. -/
def ReadsLine (shown : List UInt8 → List UInt8) (table entered : List CString) (max : Nat)
    (buf saved : Nat → UInt8) (keys : List LineKey) : Prop :=
  let h := entered.foldl (fun h line => h.add line.1) History.empty
  let lines := entered.foldl (fun lines line => remember lines line.1) []
  let t := editedLine shown table lines max keys
  ∃ s, readLine table h max buf saved keys = some s ∧ s.cursor ≤ s.len ∧ s.len < max ∧
    s.cursor = t.cursor ∧ front s.buf s.len = t.text ∧
    s.finish max = some (t.text, t.text.length)

/-- The loop of `shell_read_line` shows the abstract line. -/
theorem readLine_shows (table entered : List CString) {max : Nat} (positive : 0 < max)
    (small : max ≤ shellLineMax) (buf saved : Nat → UInt8) (keys : List LineKey) :
    ∃ s, readLine table (entered.foldl (fun h line => h.add line.1) History.empty) max buf saved
        keys = some s ∧
      s.Shows max (entered.foldl (fun h line => h.add line.1) History.empty)
        (editedLine (List.take (max - 1)) table
          (entered.foldl (fun lines line => remember lines line.1) []) max keys) := by
  have keeps := History.Keeps.add_all entered
  obtain ⟨s, started, shows⟩ := LineState.Shows.start keeps positive buf saved
  rw [readLine, started, Option.bind_some]
  exact shows.keys keeps positive small keys

/-- Whatever the history and the keys are, a line is edited as in the abstract editor, in which a
line of the history is cut if the buffer is too short for it. -/
theorem readLine_refines (table entered : List CString) {max : Nat} (positive : 0 < max)
    (small : max ≤ shellLineMax) (buf saved : Nat → UInt8) (keys : List LineKey) :
    ReadsLine (List.take (max - 1)) table entered max buf saved keys := by
  obtain ⟨s, read, shows⟩ := readLine_shows table entered positive small buf saved keys
  have length := shows.len
  refine ⟨s, read, ?_, ?_, shows.cursor, shows.text, shows.finish⟩
  · rw [shows.cursor, length]
    exact shows.within
  · rw [length]
    exact shows.fits

def lettersA (count : Nat) : CString :=
  ⟨List.replicate count 97, fun there => absurd (List.eq_of_mem_replicate there) (by decide)⟩

theorem readLine_refines_recalled :
    (0 < 64 ∧ 64 ≤ shellLineMax) ∧
    ReadsLine (List.take 63) [] [lettersA 3, lettersA 70] 64 (fun _ => 0) (fun _ => 0)
      [.char 98, .up, .up, .left, .backspace, .down, .down] :=
  ⟨by decide, readLine_refines [] [lettersA 3, lettersA 70] (by decide) (by decide) (fun _ => 0)
    (fun _ => 0) [.char 98, .up, .up, .left, .backspace, .down, .down]⟩

theorem readLine_concat (table : List CString) (h : History) (max : Nat) (buf saved : Nat → UInt8)
    (keys : List LineKey) (k : LineKey) :
    readLine table h max buf saved (keys ++ [k]) =
      (readLine table h max buf saved keys).bind fun s => s.key table h max k := by
  rw [readLine, readLine, Option.bind_assoc]
  congr 1
  funext s
  rw [List.foldlM_append, Option.bind_eq_bind]
  congr 1
  funext s
  rw [List.foldlM_cons]
  cases s.key table h max k <;> rfl

theorem LineState.letters (table : List CString) (h : History) {max count : Nat}
    (fits : count < max) (buf saved : Nat → UInt8) :
    ∃ s, readLine table h max buf saved (List.replicate count (.char 97)) = some s ∧
      s.len = count ∧ s.histPos = h.count := by
  induction count with
  | zero =>
      rw [readLine, LineState.start, inArray, if_pos (by omega)]
      exact ⟨_, rfl, rfl, rfl⟩
  | succ count known =>
      obtain ⟨s, read, length, bottom⟩ := known (by omega)
      have room : (32 : UInt8) ≤ 97 ∧ (97 : UInt8) < 127 ∧ s.len < max - 1 :=
        ⟨by decide, by decide, by omega⟩
      rw [List.replicate_succ', readLine_concat, read, Option.bind_some, LineState.key,
        if_pos room, inArray, if_pos (by omega), Option.map_some]
      exact ⟨_, rfl, congrArg (· + 1) length, bottom⟩

/-- A line of 256 letters is too long for the array that keeps it. -/
theorem LineState.up_refused {table : List CString} {h : History} {max : Nat} {s : LineState}
    (bottom : s.histPos = h.count) (some_ : 0 < h.count) (long : shellLineMax ≤ s.len) :
    s.key table h max .up = none := by
  rw [LineState.key, if_pos (bottom ▸ some_), if_pos bottom, inArray, if_neg (by omega)]
  rfl

/-- A line of the history that is too long for the buffer is cut; and a line of 256 letters is
too long for the array in which the key for older lines keeps it. -/
theorem readLine_cuts :
    ¬ReadsLine id [] [lettersA 64] 64 (fun _ => 0) (fun _ => 0) [.up] ∧
    ¬ReadsLine id [] [lettersA 1] 300 (fun _ => 0) (fun _ => 0)
      (List.replicate 256 (.char 97) ++ [.up]) := by
  constructor
  · rintro ⟨s, read, -, inside, -, text, -⟩
    have length := congrArg List.length text
    rw [front_length] at length
    have whole : (editedLine id [] (remember [] (lettersA 64).1) 64 [.up]).text.length = 64 := by
      decide
    exact absurd (length.trans whole ▸ inside) (Nat.lt_irrefl _)
  · rintro ⟨s, read, -⟩
    obtain ⟨s', read', length, bottom⟩ := LineState.letters []
      (History.empty.add (lettersA 1).1) (show 256 < 300 by decide) (fun _ => 0) (fun _ => 0)
    have refused := @LineState.up_refused [] (History.empty.add (lettersA 1).1) 300 s' bottom
      (by decide) (by rw [length]; decide)
    rw [readLine_concat] at read
    obtain ⟨typed, letters, pressed⟩ := Option.bind_eq_some_iff.mp read
    obtain rfl : typed = s' := Option.some.inj (letters.symm.trans read')
    exact absurd (refused.symm.trans pressed) (by simp)

end Trinux
