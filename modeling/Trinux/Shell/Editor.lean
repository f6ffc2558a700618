import Trinux.Lib.ArrayShift
import Mathlib.Data.List.Basic

namespace Trinux

open ArrayShift

/-!
# The text of the editor

The editor keeps its text in a matrix of 2048 lines of 512 bytes, with the length of every line.
Splitting, joining and cutting lines move whole rows of the matrix.  A line can be filled up to 511
bytes, but two lines are joined only if they have fewer than 511 together.
-/

/-! ## The editor -/

def edMaxLines : Nat := 2048

def edMaxCols : Nat := 512

/-- The variables of the editor, but for the part of the text that is on the screen. -/
structure Editor where
  lines : Nat → Nat → UInt8
  lineLen : Nat → Nat
  numLines : Nat
  cx : Nat
  cy : Nat
  modified : Bool

def copyCells (dst : Nat → UInt8) (dstOff : Nat) (src : Nat → UInt8) (srcOff count : Nat) :
    Nat → UInt8 :=
  fun i => if dstOff ≤ i ∧ i < dstOff + count then src (srcOff + (i - dstOff)) else dst i

namespace Editor

def insertChar (c : UInt8) (e : Editor) : Editor :=
  if edMaxCols - 1 ≤ e.lineLen e.cy then e
  else
    let ln := shiftUp e.cx (e.lineLen e.cy - e.cx) (e.lines e.cy)
    let ln := Function.update ln e.cx c
    let len := e.lineLen e.cy + 1
    { e with
      lines := Function.update e.lines e.cy (Function.update ln len 0)
      lineLen := Function.update e.lineLen e.cy len
      cx := e.cx + 1
      modified := true }

def insertNewline (e : Editor) : Editor :=
  if edMaxLines ≤ e.numLines then e
  else
    let lines := shiftUp (e.cy + 1) (e.numLines - (e.cy + 1)) e.lines
    let lineLen := shiftUp (e.cy + 1) (e.numLines - (e.cy + 1)) e.lineLen
    let tail := lineLen e.cy - e.cx
    let below := copyCells (lines (e.cy + 1)) 0 (lines e.cy) e.cx tail
    let lines := Function.update lines (e.cy + 1) (Function.update below tail 0)
    let lineLen := Function.update lineLen (e.cy + 1) tail
    { e with
      lines := Function.update lines e.cy (Function.update (lines e.cy) e.cx 0)
      lineLen := Function.update lineLen e.cy e.cx
      numLines := e.numLines + 1
      cy := e.cy + 1
      cx := 0
      modified := true }

def deleteBack (e : Editor) : Editor :=
  if 0 < e.cx then
    let len := e.lineLen e.cy
    { e with
      lines := Function.update e.lines e.cy (shiftDown (e.cx - 1) (len - (e.cx - 1)) (e.lines e.cy))
      lineLen := Function.update e.lineLen e.cy (len - 1)
      cx := e.cx - 1
      modified := true }
  else if 0 < e.cy then
    let prev := e.cy - 1
    let plen := e.lineLen prev
    let clen := e.lineLen e.cy
    if plen + clen < edMaxCols - 1 then
      let joined := copyCells (e.lines prev) plen (e.lines e.cy) 0 (clen + 1)
      { e with
        lines := shiftDown e.cy (e.numLines - 1 - e.cy) (Function.update e.lines prev joined)
        lineLen := shiftDown e.cy (e.numLines - 1 - e.cy)
          (Function.update e.lineLen prev (plen + clen))
        numLines := e.numLines - 1
        cy := prev
        cx := plen
        modified := true }
    else e
  else e

def cutLine (e : Editor) : Editor :=
  if e.numLines = 1 then
    { e with
      lineLen := Function.update e.lineLen 0 0
      lines := Function.update e.lines 0 (Function.update (e.lines 0) 0 0)
      cx := 0
      modified := true }
  else
    let lines := shiftDown e.cy (e.numLines - 1 - e.cy) e.lines
    let lineLen := shiftDown e.cy (e.numLines - 1 - e.cy) e.lineLen
    let numLines := e.numLines - 1
    let cy := if numLines ≤ e.cy then numLines - 1 else e.cy
    { lines, lineLen, numLines, cy
      cx := if lineLen cy < e.cx then lineLen cy else e.cx
      modified := true }

end Editor

/-! ## The abstract text -/

inductive EditOp where
  | insertChar (c : UInt8)
  | insertNewline
  | deleteBack
  | cutLine

def Editor.step (e : Editor) : EditOp → Editor
  | .insertChar c => e.insertChar c
  | .insertNewline => e.insertNewline
  | .deleteBack => e.deleteBack
  | .cutLine => e.cutLine

@[ext]
structure EditText where
  lines : List (List UInt8)
  row : Nat
  col : Nat

namespace EditText

def line (t : EditText) : List UInt8 := t.lines.getD t.row []

def above (t : EditText) : List UInt8 := t.lines.getD (t.row - 1) []

/-- An operation on the text; one that would exceed a limit is refused.  A line has one byte less
than a row, for the zero behind it. -/
def step (t : EditText) : EditOp → EditText
  | .insertChar c =>
      if t.line.length + 1 < edMaxCols then
        { t with
          lines := t.lines.set t.row (t.line.take t.col ++ c :: t.line.drop t.col)
          col := t.col + 1 }
      else t
  | .insertNewline =>
      if t.lines.length < edMaxLines then
        ⟨t.lines.take t.row ++ [t.line.take t.col, t.line.drop t.col] ++ t.lines.drop (t.row + 1),
          t.row + 1, 0⟩
      else t
  | .deleteBack =>
      if 0 < t.col then
        { t with
          lines := t.lines.set t.row (t.line.take (t.col - 1) ++ t.line.drop t.col)
          col := t.col - 1 }
      else if 0 < t.row ∧ t.above.length + t.line.length < edMaxCols then
        ⟨t.lines.take (t.row - 1) ++ [t.above ++ t.line] ++ t.lines.drop (t.row + 1),
          t.row - 1, t.above.length⟩
      else t
  | .cutLine =>
      if t.lines.length = 1 then ⟨[[]], 0, 0⟩
      else
        let lines := t.lines.eraseIdx t.row
        let row := min t.row (lines.length - 1)
        ⟨lines, row, min t.col (lines.getD row []).length⟩

end EditText

namespace Editor

def row (e : Editor) (i : Nat) : List UInt8 := front (e.lines i) (e.lineLen i)

def text (e : Editor) : EditText := ⟨front e.row e.numLines, e.cy, e.cx⟩

structure WellPlaced (e : Editor) : Prop where
  line : e.cy < e.numLines
  column : e.cx ≤ e.lineLen e.cy
  fewLines : e.numLines ≤ edMaxLines
  short : ∀ i < e.numLines, e.lineLen i < edMaxCols

def JoinsToFull (e : Editor) (op : EditOp) : Prop :=
  op = .deleteBack ∧ e.cx = 0 ∧ 0 < e.cy ∧
    e.lineLen (e.cy - 1) + e.lineLen e.cy + 1 = edMaxCols

end Editor

/-! ## Rows -/

section Rows

variable {ln : Nat → UInt8} {len cx : Nat}

theorem front_insert (inside : cx ≤ len) (c : UInt8) :
    front (Function.update (Function.update (shiftUp cx (len - cx) ln) cx c) (len + 1) 0)
        (len + 1) =
      (front ln len).take cx ++ c :: (front ln len).drop cx := by
  apply List.ext_getElem?
  intro i
  have length : ((front ln len).take cx).length = cx := by
    rw [List.length_take, front_length, Nat.min_eq_left inside]
  rw [front_getElem?, List.getElem?_append, length]
  rcases Nat.lt_trichotomy i cx with low | rfl | high
  · rw [if_pos (by omega), if_pos low, Function.update_of_ne (by omega),
      Function.update_of_ne (by omega), shiftUp_apply, if_neg (by omega),
      List.getElem?_take_of_lt low, front_getElem?, if_pos (by omega)]
  · rw [if_pos (by omega), if_neg (Nat.lt_irrefl i), Nat.sub_self, List.getElem?_cons_zero,
      Function.update_of_ne (by omega), Function.update_self]
  · have place : i - cx = i - 1 - cx + 1 := by omega
    have behind : cx + (i - 1 - cx) = i - 1 := by omega
    rw [if_neg (Nat.not_lt.mpr (Nat.le_of_lt high)), place, List.getElem?_cons_succ,
      List.getElem?_drop, front_getElem?, behind]
    by_cases before : i < len + 1
    · rw [if_pos before, if_pos (by omega), Function.update_of_ne (by omega),
        Function.update_of_ne (by omega), shiftUp_apply, if_pos (by omega)]
    · rw [if_neg before, if_neg (by omega)]

theorem front_erase (inside : cx ≤ len) (positive : 0 < cx) :
    front (shiftDown (cx - 1) (len - (cx - 1)) ln) (len - 1) =
      (front ln len).take (cx - 1) ++ (front ln len).drop cx := by
  apply List.ext_getElem?
  intro i
  have length : ((front ln len).take (cx - 1)).length = cx - 1 := by
    rw [List.length_take, front_length, Nat.min_eq_left (by omega)]
  rw [front_getElem?, List.getElem?_append, length, shiftDown_apply]
  rcases Nat.lt_or_ge i (cx - 1) with low | high
  · rw [if_pos (by omega), if_pos low, if_neg (by omega), List.getElem?_take_of_lt low,
      front_getElem?, if_pos (by omega)]
  · have behind : cx + (i - (cx - 1)) = i + 1 := by omega
    rw [if_neg (by omega : ¬i < cx - 1), List.getElem?_drop, front_getElem?, behind]
    by_cases before : i < len - 1
    · rw [if_pos before, if_pos (by omega), if_pos (by omega)]
    · rw [if_neg before, if_neg (by omega)]

theorem front_tail (below : Nat → UInt8) :
    front (Function.update (copyCells below 0 ln cx (len - cx)) (len - cx) 0) (len - cx) =
      (front ln len).drop cx := by
  apply List.ext_getElem?
  intro i
  rw [front_getElem?, List.getElem?_drop, front_getElem?]
  by_cases before : i < len - cx
  · rw [if_pos before, if_pos (by omega), Function.update_of_ne (by omega), copyCells,
      if_pos (by omega), Nat.sub_zero]
  · rw [if_neg before, if_neg (by omega)]

theorem front_head (inside : cx ≤ len) :
    front (Function.update ln cx 0) cx = (front ln len).take cx := by
  apply List.ext_getElem?
  intro i
  rw [front_getElem?, List.getElem?_take]
  by_cases before : i < cx
  · rw [if_pos before, if_pos before, Function.update_of_ne (by omega), front_getElem?,
      if_pos (by omega)]
  · rw [if_neg before, if_neg before]

theorem front_join (prev : Nat → UInt8) (plen clen : Nat) :
    front (copyCells prev plen ln 0 (clen + 1)) (plen + clen) =
      front prev plen ++ front ln clen := by
  apply List.ext_getElem?
  intro i
  rw [front_getElem?, List.getElem?_append, front_length, front_getElem?, front_getElem?]
  by_cases before : i < plen
  · rw [if_pos (by omega), if_pos before, if_pos before, copyCells, if_neg (by omega)]
  rw [if_neg before]
  by_cases inside : i < plen + clen
  · rw [if_pos inside, if_pos (by omega), copyCells, if_pos (by omega), Nat.zero_add]
  · rw [if_neg inside, if_neg (by omega)]

end Rows

/-! ## Lines -/

section Lines

variable {rows rows' : Nat → List UInt8} {count at_ : Nat}

theorem front_set (inside : at_ < count) (line : List UInt8)
    (same : ∀ i, rows' i = if i = at_ then line else rows i) :
    front rows' count = (front rows count).set at_ line := by
  apply List.ext_getElem?
  intro i
  rw [front_getElem?, List.getElem?_set, front_length, front_getElem?, same]
  by_cases here : i = at_
  · rw [if_pos here, if_pos here.symm, if_pos (here ▸ inside), if_pos inside]
  · rw [if_neg here, if_neg (Ne.symm here)]

theorem front_split (inside : at_ < count) (first second : List UInt8)
    (same : ∀ i < count + 1, rows' i = if i = at_ then first else if i = at_ + 1 then second
      else if at_ + 1 < i then rows (i - 1) else rows i) :
    front rows' (count + 1) =
      (front rows count).take at_ ++ [first, second] ++ (front rows count).drop (at_ + 1) := by
  rw [front_congr same]
  apply List.ext_getElem?
  intro i
  have length : ((front rows count).take at_).length = at_ := by
    rw [List.length_take, front_length, Nat.min_eq_left (by omega)]
  rw [List.append_assoc, front_getElem?, List.getElem?_append, length]
  rcases Nat.lt_or_ge i at_ with low | high
  · rw [if_pos (by omega), if_pos low, if_neg (by omega), if_neg (by omega), if_neg (by omega),
      List.getElem?_take_of_lt low, front_getElem?, if_pos (by omega)]
  rw [if_neg (by omega : ¬i < at_)]
  rcases Nat.lt_trichotomy i (at_ + 1) with here | rfl | behind
  · have place : i - at_ = 0 := by omega
    rw [if_pos (by omega), if_pos (by omega : i = at_), place]
    rfl
  · have place : at_ + 1 - at_ = 1 := by omega
    rw [if_pos (by omega), if_neg (by omega), if_pos rfl, place]
    rfl
  · have place : i - at_ = i - at_ - 2 + 1 + 1 := by omega
    have back : at_ + 1 + (i - at_ - 2) = i - 1 := by omega
    rw [place]
    change _ = ((front rows count).drop (at_ + 1))[i - at_ - 2]?
    rw [List.getElem?_drop, front_getElem?, back, if_neg (by omega : ¬i = at_),
      if_neg (by omega : ¬i = at_ + 1), if_pos behind]
    by_cases before : i < count + 1
    · rw [if_pos before, if_pos (by omega)]
    · rw [if_neg before, if_neg (by omega)]

theorem front_eraseIdx (inside : at_ < count)
    (same : ∀ i, rows' i = if at_ ≤ i ∧ i < count - 1 then rows (i + 1) else rows i) :
    front rows' (count - 1) = (front rows count).eraseIdx at_ := by
  apply List.ext_getElem?
  intro i
  rw [front_getElem?, List.getElem?_eraseIdx, front_getElem?, front_getElem?, same]
  rcases Nat.lt_or_ge i at_ with low | high
  · rw [if_pos (by omega), if_neg (by omega), if_pos low, if_pos (by omega)]
  · rw [if_neg (by omega : ¬i < at_)]
    by_cases before : i < count - 1
    · rw [if_pos before, if_pos ⟨high, before⟩, if_pos (by omega)]
    · rw [if_neg before, if_neg (by omega)]

theorem front_joined (inside : at_ + 1 < count) (joined : List UInt8)
    (same : ∀ i, rows' i = if i = at_ then joined
      else if at_ + 1 ≤ i ∧ i < count - 1 then rows (i + 1) else rows i) :
    front rows' (count - 1) =
      (front rows count).take at_ ++ [joined] ++ (front rows count).drop (at_ + 2) := by
  apply List.ext_getElem?
  intro i
  have length : ((front rows count).take at_).length = at_ := by
    rw [List.length_take, front_length, Nat.min_eq_left (by omega)]
  rw [List.append_assoc, front_getElem?, List.getElem?_append, length, same]
  rcases Nat.lt_trichotomy i at_ with low | rfl | high
  · rw [if_pos (by omega), if_pos low, if_neg (by omega), if_neg (by omega),
      List.getElem?_take_of_lt low, front_getElem?, if_pos (by omega)]
  · rw [if_pos (by omega), if_pos rfl, if_neg (Nat.lt_irrefl i), Nat.sub_self]
    rfl
  · have place : i - at_ = i - at_ - 1 + 1 := by omega
    have back : at_ + 2 + (i - at_ - 1) = i + 1 := by omega
    rw [if_neg (Nat.not_lt.mpr (Nat.le_of_lt high)), place]
    change _ = ((front rows count).drop (at_ + 2))[i - at_ - 1]?
    rw [List.getElem?_drop, front_getElem?, back, if_neg (Nat.ne_of_gt high)]
    by_cases before : i < count - 1
    · rw [if_pos before, if_pos ⟨high, before⟩, if_pos (by omega)]
    · rw [if_neg before, if_neg (by omega)]

end Lines

/-! ## The operations refine the abstract ones -/

namespace Editor

section Step

variable {e : Editor}

theorem text_lines_length (e : Editor) : e.text.lines.length = e.numLines := front_length _ _

@[simp] theorem text_row (e : Editor) : e.text.row = e.cy := rfl

@[simp] theorem text_col (e : Editor) : e.text.col = e.cx := rfl

theorem text_getD (e : Editor) {i : Nat} (inside : i < e.numLines) :
    e.text.lines.getD i [] = e.row i := by
  rw [List.getD_eq_getElem?_getD, text, front_getElem?, if_pos inside]
  rfl

theorem WellPlaced.text_line (placed : e.WellPlaced) : e.text.line = e.row e.cy :=
  e.text_getD placed.line

theorem WellPlaced.text_above (placed : e.WellPlaced) : e.text.above = e.row (e.cy - 1) :=
  e.text_getD (Nat.lt_of_le_of_lt (Nat.sub_le _ _) placed.line)

theorem row_length (e : Editor) (i : Nat) : (e.row i).length = e.lineLen i := front_length _ _

theorem WellPlaced.insertChar (placed : e.WellPlaced) (c : UInt8) :
    (e.insertChar c).WellPlaced ∧ (e.insertChar c).text = e.text.step (.insertChar c) := by
  have short := placed.short e.cy placed.line
  rw [Editor.insertChar, EditText.step, placed.text_line, row_length]
  by_cases full : edMaxCols - 1 ≤ e.lineLen e.cy
  · rw [if_pos full, if_neg (by omega)]
    exact ⟨placed, rfl⟩
  rw [if_neg full, if_pos (by omega)]
  constructor
  · refine ⟨placed.line, ?_, placed.fewLines, fun i inside => ?_⟩
    · dsimp only
      rw [Function.update_self]
      exact Nat.succ_le_succ placed.column
    · dsimp only
      by_cases here : i = e.cy
      · rw [here, Function.update_self]
        omega
      · rw [Function.update_of_ne here]
        exact placed.short i inside
  · refine EditText.ext (front_set placed.line _ fun i => ?_) rfl rfl
    rw [row]
    dsimp only
    by_cases here : i = e.cy
    · rw [if_pos here, here, Function.update_self, Function.update_self]
      exact front_insert placed.column c
    · rw [if_neg here, Function.update_of_ne here, Function.update_of_ne here]
      rfl

/-- `insert_newline` splits the line at the cursor, or is refused. -/
theorem WellPlaced.insertNewline (placed : e.WellPlaced) :
    e.insertNewline.WellPlaced ∧ e.insertNewline.text = e.text.step .insertNewline := by
  have line := placed.line
  have column := placed.column
  have short := placed.short e.cy placed.line
  rw [Editor.insertNewline, EditText.step, placed.text_line, text_lines_length]
  by_cases full : edMaxLines ≤ e.numLines
  · rw [if_pos full, if_neg (by omega)]
    exact ⟨placed, rfl⟩
  rw [if_neg full, if_pos (by omega)]
  have still : ¬(e.cy + 1 < e.cy ∧ e.cy ≤ e.cy + 1 + (e.numLines - (e.cy + 1))) := by omega
  have lens : ∀ i, shiftUp (e.cy + 1) (e.numLines - (e.cy + 1)) e.lineLen i =
      if e.cy + 1 < i ∧ i ≤ e.numLines then e.lineLen (i - 1) else e.lineLen i := by
    intro i
    rw [shiftUp_apply, Nat.add_sub_cancel' (by omega)]
  constructor
  · refine ⟨Nat.succ_lt_succ line, Nat.zero_le _, by dsimp only; omega, fun i inside => ?_⟩
    dsimp only at inside ⊢
    by_cases here : i = e.cy
    · rw [here, Function.update_self]
      omega
    rw [Function.update_of_ne here]
    by_cases next : i = e.cy + 1
    · rw [next, Function.update_self, shiftUp_apply, if_neg still]
      omega
    rw [Function.update_of_ne next, lens]
    by_cases moved : e.cy + 1 < i ∧ i ≤ e.numLines
    · rw [if_pos moved]
      exact placed.short (i - 1) (by omega)
    · rw [if_neg moved]
      exact placed.short i (by omega)
  · refine EditText.ext ?_ rfl rfl
    have moved : ∀ i, front (shiftUp (e.cy + 1) (e.numLines - (e.cy + 1)) e.lines i)
        (shiftUp (e.cy + 1) (e.numLines - (e.cy + 1)) e.lineLen i) =
          if e.cy + 1 < i ∧ i ≤ e.numLines then e.row (i - 1) else e.row i := by
      intro i
      rw [lens, shiftUp_apply, Nat.add_sub_cancel' (by omega)]
      split
      · rfl
      · rfl
    refine front_split placed.line _ _ fun i inside => ?_
    rw [row]
    dsimp only
    by_cases here : i = e.cy
    · rw [if_pos here, here, Function.update_self, Function.update_self,
        Function.update_of_ne (by omega), shiftUp_apply, if_neg still]
      exact front_head column
    rw [if_neg here, Function.update_of_ne here, Function.update_of_ne here]
    by_cases next : i = e.cy + 1
    · rw [if_pos next, next, Function.update_self, Function.update_self,
        shiftUp_apply _ _ e.lineLen e.cy, shiftUp_apply _ _ e.lines e.cy, if_neg still,
        if_neg still]
      exact front_tail _
    rw [if_neg next, Function.update_of_ne next, Function.update_of_ne next, moved]
    by_cases low : e.cy + 1 < i
    · rw [if_pos ⟨low, by omega⟩, if_pos low]
    · rw [if_neg (fun both => low both.1), if_neg low]

/-- `delete_back` removes the byte before the cursor or joins the line with the one above, if the
joined line leaves two bytes of its row free. -/
theorem WellPlaced.deleteBack (placed : e.WellPlaced) :
    e.deleteBack.WellPlaced ∧
      (e.deleteBack.text = e.text.step .deleteBack ↔ ¬e.JoinsToFull .deleteBack) := by
  have line := placed.line
  have column := placed.column
  have short := placed.short e.cy placed.line
  rw [Editor.deleteBack, EditText.step, placed.text_line, placed.text_above, row_length, row_length,
    text_col, text_row]
  by_cases inside : 0 < e.cx
  · rw [if_pos inside, if_pos inside]
    constructor
    · refine ⟨line, ?_, placed.fewLines, fun i below => ?_⟩
      · dsimp only
        rw [Function.update_self]
        omega
      · dsimp only
        by_cases here : i = e.cy
        · rw [here, Function.update_self]
          omega
        · rw [Function.update_of_ne here]
          exact placed.short i below
    · refine iff_of_true ?_ fun full => by
        have zero := full.2.1
        omega
      refine EditText.ext (front_set line _ fun i => ?_) rfl rfl
      rw [row]
      dsimp only
      by_cases here : i = e.cy
      · rw [if_pos here, here, Function.update_self, Function.update_self]
        exact front_erase column inside
      · rw [if_neg here, Function.update_of_ne here, Function.update_of_ne here]
        rfl
  rw [if_neg inside, if_neg inside]
  by_cases above : 0 < e.cy
  · rw [if_pos above]
    by_cases fits : e.lineLen (e.cy - 1) + e.lineLen e.cy < edMaxCols - 1
    · rw [if_pos fits, if_pos ⟨above, by omega⟩]
      have next : e.cy - 1 + 1 = e.cy := Nat.sub_add_cancel above
      have last : e.cy + (e.numLines - 1 - e.cy) = e.numLines - 1 := by omega
      have lens : ∀ i, shiftDown e.cy (e.numLines - 1 - e.cy) (Function.update e.lineLen (e.cy - 1)
          (e.lineLen (e.cy - 1) + e.lineLen e.cy)) i =
            if i = e.cy - 1 then e.lineLen (e.cy - 1) + e.lineLen e.cy
            else if e.cy ≤ i ∧ i < e.numLines - 1 then e.lineLen (i + 1) else e.lineLen i := by
        intro i
        rw [shiftDown_apply, last]
        by_cases here : i = e.cy - 1
        · rw [if_neg (by omega), if_pos here, here, Function.update_self]
        rw [if_neg here, Function.update_of_ne here]
        by_cases moved : e.cy ≤ i ∧ i < e.numLines - 1
        · rw [if_pos moved, if_pos moved, Function.update_of_ne (by omega)]
        · rw [if_neg moved, if_neg moved]
      constructor
      · refine ⟨by dsimp only; omega, ?_, ?_, fun i below => ?_⟩
        · dsimp only
          rw [lens, if_pos rfl]
          exact Nat.le_add_right _ _
        · exact Nat.le_trans (Nat.sub_le _ _) placed.fewLines
        · dsimp only at below ⊢
          rw [lens]
          split
          · omega
          split
          · exact placed.short (i + 1) (by omega)
          · exact placed.short i (by omega)
      · refine iff_of_true ?_ fun full => by
          have equal := full.2.2.2
          omega
        refine EditText.ext ?_ rfl rfl
        have joined := @front_joined e.row
          (row { e with
            lines := shiftDown e.cy (e.numLines - 1 - e.cy) (Function.update e.lines (e.cy - 1)
              (copyCells (e.lines (e.cy - 1)) (e.lineLen (e.cy - 1)) (e.lines e.cy) 0
                (e.lineLen e.cy + 1)))
            lineLen := shiftDown e.cy (e.numLines - 1 - e.cy) (Function.update e.lineLen (e.cy - 1)
              (e.lineLen (e.cy - 1) + e.lineLen e.cy)) })
          e.numLines (e.cy - 1) (by omega) (e.row (e.cy - 1) ++ e.row e.cy) fun i => ?_
        · have behind : e.cy - 1 + 2 = e.cy + 1 := by omega
          rw [behind] at joined
          exact joined
        rw [row, next]
        dsimp only
        rw [lens, shiftDown_apply, last]
        by_cases here : i = e.cy - 1
        · rw [if_neg (by omega), if_pos here, if_pos here, here, Function.update_self]
          exact front_join _ _ _
        rw [if_neg here, if_neg here, Function.update_of_ne here]
        by_cases moved : e.cy ≤ i ∧ i < e.numLines - 1
        · rw [if_pos moved, if_pos moved, if_pos moved, Function.update_of_ne (by omega)]
          rfl
        · rw [if_neg moved, if_neg moved, if_neg moved]
          rfl
    · rw [if_neg fits]
      refine ⟨placed, ?_⟩
      by_cases full : e.lineLen (e.cy - 1) + e.lineLen e.cy < edMaxCols
      · rw [if_pos ⟨above, full⟩]
        refine iff_of_false (fun same => ?_) fun never => never ⟨rfl, by omega, above, by omega⟩
        have moved := congrArg EditText.row same
        rw [text_row] at moved
        dsimp only at moved
        omega
      · rw [if_neg fun both => full both.2]
        refine iff_of_true rfl fun exact_ => full ?_
        have equal := exact_.2.2.2
        omega
  · rw [if_neg above, if_neg fun both => above both.1]
    exact ⟨placed, iff_of_true rfl fun full => above full.2.2.1⟩

/-- `cut_line` takes the line out, or empties the only line. -/
theorem WellPlaced.cutLine (placed : e.WellPlaced) :
    e.cutLine.WellPlaced ∧ e.cutLine.text = e.text.step .cutLine := by
  have line := placed.line
  rw [Editor.cutLine, EditText.step, text_lines_length, text_col, text_row]
  by_cases only : e.numLines = 1
  · rw [if_pos only, if_pos only]
    have first : e.cy = 0 := by omega
    constructor
    · refine ⟨line, Nat.zero_le _, placed.fewLines, fun i below => ?_⟩
      dsimp only at below ⊢
      have here : i = 0 := by omega
      rw [here, Function.update_self]
      decide
    · refine EditText.ext ?_ first rfl
      rw [text, only]
      dsimp only
      rw [front, List.range_one, List.map_singleton, row]
      dsimp only
      rw [Function.update_self]
      rfl
  rw [if_neg only, if_neg only]
  have last : e.cy + (e.numLines - 1 - e.cy) = e.numLines - 1 := by omega
  have lens : ∀ i, shiftDown e.cy (e.numLines - 1 - e.cy) e.lineLen i =
      if e.cy ≤ i ∧ i < e.numLines - 1 then e.lineLen (i + 1) else e.lineLen i := by
    intro i
    rw [shiftDown_apply, last]
  dsimp only
  generalize cyEq : (if e.numLines - 1 ≤ e.cy then e.numLines - 1 - 1 else e.cy) = cy'
  have place : cy' = min e.cy (e.numLines - 1 - 1) := by
    rw [← cyEq]
    split <;> omega
  have erased : front (fun i => front (shiftDown e.cy (e.numLines - 1 - e.cy) e.lines i)
      (shiftDown e.cy (e.numLines - 1 - e.cy) e.lineLen i)) (e.numLines - 1) =
        e.text.lines.eraseIdx e.cy := by
    refine front_eraseIdx line fun i => ?_
    rw [lens, shiftDown_apply, last]
    split
    · rfl
    · rfl
  have lineThere : ((e.text.lines.eraseIdx e.cy).getD cy' []).length =
      shiftDown e.cy (e.numLines - 1 - e.cy) e.lineLen cy' := by
    rw [← erased, List.getD_eq_getElem?_getD, front_getElem?, if_pos (by omega), Option.getD_some,
      front_length]
  have count : (e.text.lines.eraseIdx e.cy).length = e.numLines - 1 := by
    rw [← erased, front_length]
  constructor
  · refine ⟨by dsimp only; omega, ?_, ?_, fun i below => ?_⟩
    · dsimp only
      split
      · exact Nat.le_refl _
      · omega
    · exact Nat.le_trans (Nat.sub_le _ _) placed.fewLines
    · dsimp only at below ⊢
      rw [lens]
      split
      · exact placed.short (i + 1) (by omega)
      · exact placed.short i (by omega)
  · rw [count, ← place, lineThere]
    refine EditText.ext erased rfl ?_
    change (if _ < e.cx then _ else e.cx) = min e.cx _
    split <;> omega

/-- Every operation keeps the cursor in a text within the limits, and refines the abstract one
unless it would join two lines that fill a row. -/
theorem WellPlaced.step (placed : e.WellPlaced) (op : EditOp) :
    (e.step op).WellPlaced ∧ ((e.step op).text = e.text.step op ↔ ¬e.JoinsToFull op) := by
  cases op with
  | insertChar c =>
      rcases placed.insertChar c with ⟨placed', same⟩
      exact ⟨placed', iff_of_true same fun full => by cases full.1⟩
  | insertNewline =>
      rcases placed.insertNewline with ⟨placed', same⟩
      exact ⟨placed', iff_of_true same fun full => by cases full.1⟩
  | deleteBack => exact placed.deleteBack
  | cutLine =>
      rcases placed.cutLine with ⟨placed', same⟩
      exact ⟨placed', iff_of_true same fun full => by cases full.1⟩

end Step

/-! ## Runs of operations -/

def run (e : Editor) (ops : List EditOp) : Editor := ops.foldl step e

def NeverJoinsToFull (e : Editor) : List EditOp → Prop
  | [] => True
  | op :: rest => ¬e.JoinsToFull op ∧ (e.step op).NeverJoinsToFull rest

end Editor

def EditText.run (t : EditText) (ops : List EditOp) : EditText := ops.foldl step t

namespace Editor

/-- From every text within the limits, all operations keep the cursor in the text, and after every
number of them the text is the abstract one, exactly if none joins two lines that fill a row. -/
theorem run_refines_iff {e : Editor} (placed : e.WellPlaced) (ops : List EditOp) :
    (e.run ops).WellPlaced ∧
      ((∀ count, (e.run (ops.take count)).text = e.text.run (ops.take count)) ↔
        e.NeverJoinsToFull ops) := by
  induction ops generalizing e with
  | nil => exact ⟨placed, iff_of_true (fun count => by rw [List.take_nil]; rfl) trivial⟩
  | cons op rest known =>
      rcases placed.step op with ⟨placed', step⟩
      rcases known placed' with ⟨placed'', later⟩
      refine ⟨placed'', fun same => ?_, fun never count => ?_⟩
      · have first : (e.step op).text = e.text.step op := same 1
        refine ⟨step.mp first, later.mp fun count => ?_⟩
        rw [first]
        exact same (count + 1)
      · have first := step.mpr never.1
        cases count with
        | zero => rfl
        | succ count =>
            have rest_ := later.mpr never.2 count
            rw [first] at rest_
            exact rest_

def fullPair : Editor where
  lines := fun _ _ => 97
  lineLen := fun i => if i = 0 then 256 else 255
  numLines := 2
  cx := 0
  cy := 1
  modified := false

theorem fullPair_placed : fullPair.WellPlaced := by
  refine ⟨by decide, by decide, by decide, fun i _ => ?_⟩
  rw [fullPair]
  dsimp only
  split
  · decide
  · decide

theorem run_refusesFullPair :
    ¬∀ (e : Editor) (ops : List EditOp), e.WellPlaced →
      ∀ count, (e.run (ops.take count)).text = e.text.run (ops.take count) := by
  intro promise
  have one : ∀ e : Editor, e.run ([.deleteBack].take 1) = e.step .deleteBack := fun _ => rfl
  have one' : ∀ t : EditText, t.run ([.deleteBack].take 1) = t.step .deleteBack := fun _ => rfl
  have same := promise fullPair [.deleteBack] fullPair_placed 1
  rw [one, one'] at same
  exact (fullPair_placed.step .deleteBack).2.mp same ⟨rfl, rfl, by decide, by decide⟩

theorem run_refines_fullPair :
    (fullPair.run [.cutLine, .deleteBack]).WellPlaced ∧
      ((∀ count, (fullPair.run ([.cutLine, .deleteBack].take count)).text =
        fullPair.text.run ([.cutLine, .deleteBack].take count)) ↔
          fullPair.NeverJoinsToFull [.cutLine, .deleteBack]) :=
  run_refines_iff fullPair_placed [.cutLine, .deleteBack]

end Editor

end Trinux
