import Trinux.Fs.FileTrees
import Trinux.Fs.WriteRoom
import Trinux.Lib.TextLines
import Trinux.Shell.Editor
import Trinux.Shell.WordCount

namespace Trinux

open ArrayShift Bytes

/-!
# Files in the editor

The editor reads at most 131071 bytes of a file, cuts every line at 511 bytes and stops at the end
of its 2048th line, and does not tell what it left out.  When it saves, it puts at most 131070 bytes
of its text together, empties the file, writes once and reports success whatever the write returned.
-/

/-! ## Loading -/

def Editor.start : Editor := ⟨fun _ _ => 0, fun _ => 0, 0, 0, 0, false⟩

def edBuf : Nat := edMaxLines * 64

namespace Editor

def reset (e : Editor) : Editor :=
  { lines := Function.update e.lines 0 (Function.update (e.lines 0) 0 0)
    lineLen := Function.update e.lineLen 0 0
    numLines := 1
    cx := 0
    cy := 0
    modified := false }

def endLine (li col : Nat) (e : Editor) : Editor :=
  { e with
    lines := Function.update e.lines li (Function.update (e.lines li) col 0)
    lineLen := Function.update e.lineLen li col }

def setByte (li col : Nat) (ch : UInt8) (e : Editor) : Editor :=
  { e with lines := Function.update e.lines li (Function.update (e.lines li) col ch) }

def loadLoop : List UInt8 → (li col : Nat) → Editor → Nat × Nat × Editor
  | [], li, col, e => (li, col, e)
  | ch :: rest, li, col, e =>
      if ch = lineFeed then
        let e := e.endLine li col
        if edMaxLines ≤ li + 1 then (edMaxLines - 1, col, e)
        else loadLoop rest (li + 1) 0 (e.endLine (li + 1) 0)
      else if col < edMaxCols - 1 then loadLoop rest li (col + 1) (e.setByte li col ch)
      else loadLoop rest li col e

def loadBytes (buf : List UInt8) (e : Editor) : Editor :=
  let loaded := loadLoop buf 0 0 { e with lineLen := Function.update e.lineLen 0 0 }
  { loaded.2.2.endLine loaded.1 loaded.2.1 with numLines := loaded.1 + 1 }

def loadFile (platform : Platform) (driver : Nat) (file : Option Nat) (e : Editor)
    (storage : Storage) : Option (Editor × Storage) :=
  match file with
  | none => some (e.reset, storage)
  | some id =>
      match storage.fs.node id with
      | none => none
      | some node =>
          if node.type ≠ vfsFile ∨ node.size = 0 then some (e.reset, storage)
          else (vfsRead platform driver storage id 0 (edBuf - 1)).map fun read =>
            (e.reset.loadBytes read.1, read.2)

/-! ## Saving -/

def putByte (out : List UInt8) (c : UInt8) : List UInt8 :=
  if out.length < edBuf - 2 then out ++ [c] else out

def putLine (e : Editor) (out : List UInt8) (i : Nat) : List UInt8 :=
  let out := (e.row i).foldl putByte out
  if i + 1 < e.numLines then putByte out lineFeed else out

def saveBytes (e : Editor) : List UInt8 := (List.range e.numLines).foldl e.putLine []

def saveFile (stages : Nat → Platform) (driver : Nat) (caller : Caller) (path : List UInt8)
    (e : Editor) (storage : Storage) : Option (Int × Editor × Storage) :=
  (sysCreate stages caller (.of path) storage).bind fun created =>
    match created.1 with
    | none => some (-1, e, created.2)
    | some id => (rewrite driver (stages 1) id e.saveBytes created.2).map fun written =>
        (0, { e with modified := false }, written.2)

def wholeText (e : Editor) : List UInt8 := [lineFeed].intercalate e.text.lines

/-! ## What is saved -/

section Save

variable {e : Editor}

theorem putByte_take (text : List UInt8) (c : UInt8) :
    putByte (text.take (edBuf - 2)) c = (text ++ [c]).take (edBuf - 2) := by
  rw [putByte, List.length_take]
  by_cases room : text.length < edBuf - 2
  · have fits : (text ++ [c]).length ≤ edBuf - 2 := by
      rw [List.length_append, List.length_singleton]
      omega
    rw [if_pos (by omega), List.take_of_length_le (by omega), List.take_of_length_le fits]
  · rw [if_neg (by omega), List.take_append_of_le_length (by omega)]

theorem foldl_putByte (line text : List UInt8) :
    line.foldl putByte (text.take (edBuf - 2)) = (text ++ line).take (edBuf - 2) := by
  induction line generalizing text with
  | nil => rw [List.foldl_nil, List.append_nil]
  | cons c rest known =>
      rw [List.foldl_cons, putByte_take, known, List.append_assoc]
      rfl

def frontText (e : Editor) (count : Nat) : List UInt8 :=
  ((List.range count).map fun i => e.row i ++ [lineFeed]).flatten

theorem frontText_succ (count : Nat) :
    e.frontText (count + 1) = e.frontText count ++ (e.row count ++ [lineFeed]) := by
  rw [frontText, List.range_succ, List.map_append, List.flatten_append]
  simp [frontText]

theorem foldl_putLine (count : Nat) (inside : count < e.numLines) :
    (List.range count).foldl e.putLine [] = (e.frontText count).take (edBuf - 2) := by
  induction count with
  | zero => rfl
  | succ count known =>
      rw [List.range_succ, List.foldl_append, known (by omega), List.foldl_cons, List.foldl_nil,
        putLine, foldl_putByte, if_pos inside, putByte_take, frontText_succ, List.append_assoc]

/-- The lines joined are the first ones with a line feed each, and the last one. -/
theorem intercalate_front (rows : Nat → List UInt8) (count : Nat) :
    [lineFeed].intercalate (front rows (count + 1)) =
      ((List.range count).map fun i => rows i ++ [lineFeed]).flatten ++ rows count := by
  induction count generalizing rows with
  | zero => simp [front]
  | succ count known =>
      have first : front rows (count + 2) =
          rows 0 :: front (fun i => rows (i + 1)) (count + 1) := by
        rw [front, List.range_succ_eq_map, List.map_cons, List.map_map]
        rfl
      have some : front (fun i => rows (i + 1)) (count + 1) ≠ [] := by
        rw [← List.length_pos_iff, front_length]
        omega
      rw [first, List.intercalate_cons_of_ne_nil some, known, List.range_succ_eq_map, List.map_cons,
        List.map_map, List.flatten_cons]
      simp [Function.comp_def]

theorem saveBytes_eq (e : Editor) : e.saveBytes = e.wholeText.take (edBuf - 2) := by
  by_cases empty : e.numLines = 0
  · rw [saveBytes, wholeText, text, empty]
    rfl
  have last : e.numLines = e.numLines - 1 + 1 := by omega
  rw [saveBytes, wholeText, text, last, List.range_succ, List.foldl_append,
    foldl_putLine _ (by omega), List.foldl_cons, List.foldl_nil, putLine, foldl_putByte,
    if_neg (by omega), intercalate_front]
  rfl

theorem saveBytes_length (e : Editor) : e.saveBytes.length ≤ edBuf - 2 := by
  rw [saveBytes_eq, List.length_take]
  exact Nat.min_le_left _ _

end Save

/-! ## What is loaded -/

section Load

variable {e : Editor} {li col : Nat}

theorem endLine_row (e : Editor) (li col i : Nat) :
    (e.endLine li col).row i = if i = li then front (e.lines li) col else e.row i := by
  rw [row, endLine]
  dsimp only
  by_cases here : i = li
  · rw [if_pos here, here, Function.update_self, Function.update_self]
    exact front_congr fun i before => Function.update_of_ne (by omega) _ _
  · rw [if_neg here, Function.update_of_ne here, Function.update_of_ne here]
    rfl

theorem endLine_front (e : Editor) (li col : Nat) :
    front (e.endLine li col).row (li + 1) = front e.row li ++ [front (e.lines li) col] := by
  have before : front (e.endLine li col).row li = front e.row li :=
    front_congr fun i inside => by rw [endLine_row, if_neg (by omega)]
  rw [front, List.range_succ, List.map_append, List.map_singleton, endLine_row, if_pos rfl,
    ← before]
  rfl

theorem endLine_twice (e : Editor) (li col : Nat) :
    ((e.endLine li col).endLine li col).row = (e.endLine li col).row := by
  funext i
  rw [endLine_row, endLine_row]
  by_cases here : i = li
  · rw [if_pos here, if_pos here, endLine]
    dsimp only
    rw [Function.update_self]
    exact front_congr fun j before => Function.update_of_ne (by omega) _ _
  · rw [if_neg here]

theorem setByte_front (e : Editor) (li col : Nat) (ch : UInt8) :
    front (e.setByte li col ch).row li = front e.row li ∧
      front ((e.setByte li col ch).lines li) (col + 1) = front (e.lines li) col ++ [ch] := by
  constructor
  · refine front_congr fun i below => ?_
    have other : i ≠ li := by omega
    rw [row, row, setByte]
    dsimp only
    rw [Function.update_of_ne other]
  · rw [setByte]
    dsimp only
    rw [Function.update_self, front, List.range_succ, List.map_append, List.map_singleton,
      Function.update_self]
    congr 1
    exact front_congr fun i below => Function.update_of_ne (by omega) _ _

def withHead (part : List UInt8) (lines : List (List UInt8)) : List (List UInt8) :=
  lines.modifyHead (part ++ ·)

theorem withHead_nil (lines : List (List UInt8)) : withHead [] lines = lines := by
  cases lines <;> rfl

theorem splitOn_cons (part : List UInt8) (c : UInt8) (rest : List UInt8) :
    withHead part ((c :: rest).splitOn lineFeed) =
      if c = lineFeed then part :: rest.splitOn lineFeed
      else withHead (part ++ [c]) (rest.splitOn lineFeed) := by
  rw [List.splitOn_cons_eq_if_modifyHead, withHead, withHead]
  by_cases ends : c = lineFeed
  · rw [if_pos ends, if_pos (by simp [ends]), List.modifyHead_cons, List.append_nil]
  · rw [if_neg ends, if_neg (by simp [ends]), List.modifyHead_modifyHead]
    congr 1
    funext line
    simp

theorem cut_withHead_full {most width : Nat} {part : List UInt8} (full : part.length = width)
    (c : UInt8) (lines : List (List UInt8)) :
    TextLines.cut most width (withHead (part ++ [c]) lines) =
      TextLines.cut most width (withHead part lines) := by
  cases lines with
  | nil => rfl
  | cons line rest =>
      cases most with
      | zero => rfl
      | succ most =>
          simp only [TextLines.cut, withHead, List.modifyHead_cons, List.take_succ_cons,
            List.map_cons]
          rw [List.append_assoc, List.take_append_of_le_length (by omega),
            List.take_append_of_le_length (by omega)]

theorem endLine_cut (lines : List (List UInt8)) (inside : li < edMaxLines)
    (short : col ≤ edMaxCols - 1) (alone : lines = [] ∨ edMaxLines - li = 1) :
    front (e.endLine li col).row (li + 1) = front e.row li ++
      TextLines.cut (edMaxLines - li) (edMaxCols - 1) (front (e.lines li) col :: lines) := by
  have more : edMaxLines - li = edMaxLines - li - 1 + 1 := by omega
  have behind : lines.take (edMaxLines - li - 1) = [] := by
    rcases alone with rfl | one
    · exact List.take_nil
    · rw [one]
      rfl
  rw [endLine_front, more, TextLines.cut, List.take_succ_cons, behind, List.map_singleton,
    List.take_of_length_le (by rw [front_length]; exact short)]

/-- The loop keeps the first lines, each up to the width. -/
theorem loadLoop_lines (buf : List UInt8) :
    ∀ {e : Editor} {li col : Nat}, li < edMaxLines → col ≤ edMaxCols - 1 →
      front ((loadLoop buf li col e).2.2.endLine (loadLoop buf li col e).1
          (loadLoop buf li col e).2.1).row ((loadLoop buf li col e).1 + 1) =
        front e.row li ++ TextLines.cut (edMaxLines - li) (edMaxCols - 1)
          (withHead (front (e.lines li) col) (buf.splitOn lineFeed)) := by
  induction buf with
  | nil =>
      intro e li col inside short
      rw [List.splitOn_nil, withHead, List.modifyHead_cons, List.append_nil]
      exact endLine_cut [] inside short (Or.inl rfl)
  | cons c rest known =>
      intro e li col inside short
      rw [splitOn_cons, loadLoop]
      dsimp only
      by_cases ends : c = lineFeed
      · rw [if_pos ends, if_pos ends]
        by_cases last : edMaxLines ≤ li + 1
        · rw [if_pos last]
          have here : edMaxLines - 1 = li := by omega
          dsimp only
          rw [here]
          rw [endLine_twice]
          exact endLine_cut _ inside short (Or.inr (by omega))
        · rw [if_neg last, known (by omega) (Nat.zero_le _)]
          have first : front ((e.endLine li col).endLine (li + 1) 0).row (li + 1) =
              front e.row li ++ [front (e.lines li) col] := by
            rw [← endLine_front]
            exact front_congr fun i before => by rw [endLine_row, if_neg (by omega)]
          have more : edMaxLines - li = edMaxLines - (li + 1) + 1 := by omega
          have none_ : ∀ ln : Nat → UInt8, front ln 0 = [] := fun _ => rfl
          have whole : (front (e.lines li) col).take (edMaxCols - 1) = front (e.lines li) col :=
            List.take_of_length_le (by rw [front_length]; exact short)
          rw [first, none_, withHead_nil, more, TextLines.cut, TextLines.cut, List.take_succ_cons,
            List.map_cons, List.append_assoc, whole]
          rfl
      · rw [if_neg ends, if_neg ends]
        by_cases room : col < edMaxCols - 1
        · rcases setByte_front e li col c with ⟨before, grown⟩
          rw [if_pos room, known inside room, before, grown]
        · rw [if_neg room, known inside short,
            cut_withHead_full (by rw [front_length]; omega) c]

theorem loadBytes_lines (buf : List UInt8) (e : Editor) :
    (e.loadBytes buf).text.lines =
      TextLines.cut edMaxLines (edMaxCols - 1) (buf.splitOn lineFeed) := by
  have lines := @loadLoop_lines buf { e with lineLen := Function.update e.lineLen 0 0 } 0 0
    (by decide) (Nat.zero_le _)
  rw [Nat.sub_zero] at lines
  refine lines.trans ?_
  exact congrArg (TextLines.cut edMaxLines (edMaxCols - 1)) (withHead_nil _)

end Load

end Editor

/-! ## When a file survives the editor -/

structure EditorHolds (bytes : List UInt8) : Prop where
  size : bytes.length ≤ edBuf - 2
  few : (bytes.splitOn lineFeed).length ≤ edMaxLines
  short : ∀ line ∈ bytes.splitOn lineFeed, line.length ≤ edMaxCols - 1

def SaveRefused (caller : Caller) (path : List UInt8) (storage : Storage) : Prop :=
  ∀ parent name target,
    ¬MayOpen caller.cred storage.fs (.of path) caller.cwd parent name target

section Session

variable {stages : Nat → Platform} {driver id : Nat} {caller : Caller} {path bytes : List UInt8}
  {storage storage' : Storage} {node : VfsNode} {e saved : Editor} {code : Int}

/-- `vfs_create` on the path of a file opens that file or refuses. -/
theorem sysCreate_named {result : Option Nat} (names : NamesFile caller path storage id node bytes)
    (ran : sysCreate stages caller (.of path) storage = some (result, storage')) :
    storage' = storage ∧ (result = none ∧ SaveRefused caller path storage ∨
      result = some id ∧ ¬SaveRefused caller path storage) := by
  have opensIt : ∀ parent name target,
      vfsParent storage.fs (.of path) caller.cwd = some (some parent, name) →
      (∃ there, storage.fs.node parent = some there ∧ there.type = vfsDirectory) →
      vfsFinddir storage.fs parent name = target → target = some id := by
    rintro parent name target found ⟨there, isThere, directory⟩ entry
    rcases vfsResolve_parent found (Fs.Extends.refl storage.fs) with ⟨-, root, later⟩ | ⟨-, later⟩
    · rw [names.path, root, Option.some_inj, Option.some_inj] at later
      rw [← later, names.found] at isThere
      cases isThere
      exact absurd directory names.file
    · rw [names.path, entry, Option.some_inj] at later
      exact later.symm
  rcases Option.map_eq_some_iff.mp ran with ⟨⟨made, fs'⟩, created, outcome⟩
  cases outcome
  have opened : ∀ parent name target,
      MayOpen caller.cred storage.fs (.of path) caller.cwd parent name target →
      made = some id := by
    intro parent name target may
    have same := may.create.symm.trans created
    rw [Option.some_inj, Prod.mk.injEq] at same
    rw [← same.1]
    exact opensIt parent name _ may.target may.directory may.entry
  rcases vfsCreate_cases created with ⟨rfl, rfl⟩ |
    ⟨parent, name, target, rfl, rfl, found, entry, permitted⟩ | ⟨parent, name, -, -, creates, -⟩
  · refine ⟨rfl, Or.inl ⟨rfl, fun parent name target may => ?_⟩⟩
    cases opened parent name target may
  · have directory : ∃ there, storage.fs.node parent = some there ∧
        there.type = vfsDirectory := by
      rcases Fs.live_of_mem_childrenOf (vfsFinddir_mem entry).1 with ⟨there, isThere, -⟩
      refine ⟨there, isThere, ?_⟩
      rw [vfsFinddir_eq isThere] at entry
      by_contra other
      rw [VfsNode.searched, decide_eq_false (by simp [other])] at entry
      cases entry
    refine ⟨rfl, Or.inr ⟨opensIt parent name _ found directory entry, fun refused => ?_⟩⟩
    exact refused parent name target ⟨found, directory, entry, permitted⟩
  · cases opensIt parent name none creates.target creates.directory creates.absent

/-- What was put together is in the file exactly if there is room for it. -/
theorem rewrite_holds_iff {platform : Platform} {count : Nat} {after : Storage}
    (found : storage.fs.node id = some node)
    (holds : node.HoldsBytes storage.store storage.disk bytes)
    (spare : platform.faults.Spare storage.store) {text : List UInt8}
    (nothing : text = [] → e.saveBytes = [])
    (written : rewrite driver platform id e.saveBytes storage = some (count, after)) :
    after.FileHolds id text ↔
      e.saveBytes = text ∧ storage.HasRoom platform node text.length := by
  have small : e.saveBytes.length + blockSize < 2 ^ 32 := by
    have bound : e.saveBytes.length ≤ edBuf - 2 := e.saveBytes_length
    have limit : edBuf - 2 = 131070 := rfl
    rw [blockSize]
    omega
  have filled := rewrite_filled found holds small spare written
  by_cases room : storage.HasRoom platform node e.saveBytes.length
  · rw [if_pos room] at filled
    constructor
    · rintro ⟨last, isLast, holds⟩
      rcases filled.2 with ⟨last', isLast', holds'⟩
      cases isLast.symm.trans isLast'
      have same := holds'.unique holds
      exact ⟨same, same ▸ room⟩
    · rintro ⟨same, -⟩
      exact same ▸ filled.2
  · rw [if_neg room] at filled
    rcases filled with ⟨some_, -, size⟩
    constructor
    · rintro ⟨last, isLast, holds⟩
      rw [isLast, Option.map_some, Option.some_inj] at size
      have length := holds.size
      rw [size] at length
      exact absurd (nothing (List.eq_nil_of_length_eq_zero length.symm)) some_
    · rintro ⟨same, fits⟩
      exact absurd (same ▸ fits) room

/-- A success leaves a text in the file exactly if what was put together is that text and there is
room for it. -/
theorem saveFile_holds_iff (names : NamesFile caller path storage id node bytes)
    (spare : ∀ stage, (stages stage).faults.Spare storage.store) {text : List UInt8}
    (nothing : text = [] → e.saveBytes = [])
    (ran : e.saveFile stages driver caller path storage = some (code, saved, storage')) :
    (code = 0 → storage'.FileHolds id text) ↔
      SaveRefused caller path storage ∨
        e.saveBytes = text ∧ storage.HasRoom (stages 1) node text.length := by
  rcases Option.bind_eq_some_iff.mp ran with ⟨⟨result, there⟩, created, outcome⟩
  rcases sysCreate_named names created with ⟨rfl, ⟨rfl, refused⟩ | ⟨rfl, open_⟩⟩
  · cases outcome
    constructor
    · exact fun _ => Or.inl refused
    · intro _ success
      cases success
  rcases Option.map_eq_some_iff.mp outcome with ⟨⟨count, after⟩, written, result⟩
  cases result
  have filled := rewrite_holds_iff names.found names.holds (spare 1) nothing written
  constructor
  · exact fun held => Or.inr (filled.mp (held rfl))
  · rintro (refused | fits) -
    · exact absurd refused open_
    · exact filled.mpr fits

/-- A save that creates its file leaves a text in it under the same condition. -/
theorem saveFile_created_iff {target : Nat} {fs' : Fs} (linked : storage.fs.Linked)
    (medium : storage.store.available = true → storage.store.Layout storage.disk)
    (spare : ∀ stage, (stages stage).faults.Spare storage.store) {text : List UInt8}
    (nothing : text = [] → e.saveBytes = [])
    (made : vfsCreate (stages 0) caller.cred caller.umask storage.fs (.of path) caller.cwd =
      some (some target, fs'))
    (fresh : storage.fs.node target = none)
    (ran : e.saveFile stages driver caller path storage = some (code, saved, storage')) :
    ∃ new, fs'.node target = some new ∧
      ((code = 0 → storage'.FileHolds target text) ↔ e.saveBytes = text ∧
        ({ storage with fs := fs' } : Storage).HasRoom (stages 1) new text.length) := by
  rcases vfsCreate_cases made with ⟨impossible, -⟩ | ⟨parent, name, other, same, -, -, entry, -⟩ |
    ⟨parent, name, other, same, creates, below⟩
  · cases impossible
  · cases same
    rcases linked.listed _ _ (vfsFinddir_mem entry).1 with ⟨-, there, isThere, -⟩
    rw [fresh] at isThere
    cases isThere
  · cases same
    rcases creates.directory with ⟨above, isParent, -⟩
    have older := linked.bounded.lt isParent
    rcases below with ⟨granted, now, heap, created, rfl⟩
    have isNew : (heap.modify target (VfsNode.own caller.cred (0o666 &&& ~~~caller.umask))).node
        target = some ((VfsNode.create now (some parent) name vfsFile).own caller.cred
          (0o666 &&& ~~~caller.umask)) := by
      rw [Fs.modify_node_self, ramfsCreateNode_new older created, Option.map_some]
    refine ⟨_, isNew, ?_⟩
    rw [Editor.saveFile, sysCreate, made] at ran
    rcases Option.map_eq_some_iff.mp ran with ⟨⟨count, after⟩, written, result⟩
    cases result
    have holds : ((VfsNode.create now (some parent) name vfsFile).own caller.cred
        (0o666 &&& ~~~caller.umask)).HoldsBytes storage.store storage.disk [] :=
      ⟨rfl, rfl, medium, fun backed => absurd (show false = true from backed) (by decide),
        fun _ => ⟨rfl, Nat.zero_le _⟩, fun position inside => absurd inside (Nat.not_lt_zero position)⟩
    have filled := @rewrite_holds_iff driver target [] { storage with fs := _ } _ e (stages 1) count
      after isNew holds (spare 1) text nothing written
    exact ⟨fun held => filled.mp (held rfl), fun fits _ => filled.mpr fits⟩

theorem loadFile_named (names : NamesFile caller path storage id node bytes)
    (isFile : node.type = vfsFile)
    (spare : ∀ stage, (stages stage).faults.Spare storage.store) :
    ∃ loaded, e.loadFile (stages 0) driver (some id) storage = some (loaded, storage) ∧
      loaded.text.lines = TextLines.cut edMaxLines (edMaxCols - 1)
        ((bytes.take (edBuf - 1)).splitOn lineFeed) := by
  rw [Editor.loadFile, names.found]
  dsimp only
  by_cases empty : node.size = 0
  · rw [if_pos (Or.inr empty)]
    have length := names.holds.size
    rw [empty] at length
    rw [List.eq_nil_of_length_eq_zero length.symm]
    exact ⟨_, rfl, rfl⟩
  · have healthy : (stages 0).faults.SparesReads storage.store node.blockList := by
      cases backed : node.diskBacked with
      | true => exact (spare 0).sparesReads (names.holds.onDisk backed).2.1
      | false =>
          rw [(names.holds.inMemory backed).1]
          exact fun block member => absurd member List.not_mem_nil
    rw [if_neg (not_or.mpr ⟨not_not.mpr isFile, empty⟩),
      vfsRead_healthy names.found names.holds healthy]
    exact ⟨_, rfl, Editor.loadBytes_lines _ _⟩

/-- What is saved without a change is the file, if the editor can hold it. -/
theorem saveBytes_loaded_iff (lines : e.text.lines = TextLines.cut edMaxLines (edMaxCols - 1)
      ((bytes.take (edBuf - 1)).splitOn lineFeed)) :
    e.saveBytes = bytes ↔ EditorHolds bytes := by
  have joined : e.wholeText = [lineFeed].intercalate (TextLines.cut edMaxLines (edMaxCols - 1)
      ((bytes.take (edBuf - 1)).splitOn lineFeed)) := congrArg _ lines
  rw [Editor.saveBytes_eq, joined]
  constructor
  · intro same
    have size : bytes.length ≤ edBuf - 2 := by
      rw [← same, List.length_take]
      exact Nat.min_le_left _ _
    have all : bytes.take (edBuf - 1) = bytes := List.take_of_length_le (by omega)
    rw [all] at same
    have whole : [lineFeed].intercalate (bytes.splitOn lineFeed) = bytes :=
      List.intercalate_splitOn lineFeed
    have some_ : bytes.splitOn lineFeed ≠ [] := List.splitOn_ne_nil lineFeed bytes
    have shorter := @TextLines.intercalate_cut_length_le _ _ edMaxLines (edMaxCols - 1) lineFeed
      (by decide) some_
    rw [whole] at shorter
    rw [List.take_of_length_le (by omega)] at same
    have uncut := same.trans whole.symm
    rcases (TextLines.intercalate_cut_iff (by decide) some_).mp uncut with ⟨few, short⟩
    exact ⟨size, few, short⟩
  · rintro ⟨size, few, short⟩
    have all : bytes.take (edBuf - 1) = bytes := List.take_of_length_le (by omega)
    rw [all, TextLines.cut_eq_self few short, List.intercalate_splitOn,
      List.take_of_length_le size]

end Session

theorem ideal_spare (store : Blockfs) : Platform.ideal.faults.Spare store :=
  ⟨fun _ _ _ _ => rfl, fun _ _ _ _ => rfl⟩

def saveLongWord (storage : Storage) : Option (Option Nat × Option (Nat × Storage)) :=
  (sysCreate (fun _ => .ideal) rootCaller (.of (literal "/tmp/a")) storage).map fun created =>
    (created.1, created.1.bind fun id =>
      rewrite 0 .ideal id (List.replicate 511 97) created.2)

set_option maxRecDepth 20000 in
theorem saveLongWord_saves : (longWordFile.any fun storage => storage.HasLongWord ∧
    (saveLongWord storage).any fun saved => saved.1 = some 17 ∧ saved.2.isSome) = true := by
  rw [longWordFile, rootRun, boot_ideal]
  decide +kernel

theorem saveBytes_longWord {e : Editor}
    (lines : e.text.lines = TextLines.cut edMaxLines (edMaxCols - 1)
      ((longWord.take (edBuf - 1)).splitOn lineFeed)) :
    e.saveBytes = List.replicate 511 97 := by
  have whole : longWord.take (edBuf - 1) = longWord := by
    apply List.take_of_length_le
    rw [longWord_length]
    decide
  have oneLine : longWord.splitOn lineFeed = [longWord] := by
    apply List.splitOn_eq_singleton
    intro member
    exact absurd (List.eq_of_mem_replicate member) (by decide)
  have front : longWord.take (edMaxCols - 1) = List.replicate 511 97 := by
    rw [longWord, List.take_replicate]
    rfl
  have more : edMaxLines = 2047 + 1 := rfl
  rw [Editor.saveBytes_eq, Editor.wholeText, lines, whole, oneLine, TextLines.cut, more,
    List.take_succ_cons, List.take_nil, List.map_singleton, front, List.intercalate_singleton]
  apply List.take_of_length_le
  rw [List.length_replicate]
  decide

end Trinux
