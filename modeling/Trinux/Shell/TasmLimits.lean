import Trinux.Lib.Patches
import Trinux.Shell.TasmEncoding

namespace Trinux

/-!
# The tables of the assembler

A source says a list of statements.  The assembler reads them through a buffer for the text, one for
a line and a table of parts; its tables hold the first labels and references with the first bytes of
their names, and the code buffer holds the first bytes of the code.
-/

namespace Tasm

open Bytes

/-! ## What a source says -/

/-- What a line says: a label, or an instruction with its bytes and its reference, or an instruction
that no branch takes. -/
inductive Statement
  | label (name : List UInt8)
  | code (bytes : List UInt8) (ref : Option (Nat × List UInt8 × Bool))
  | unknown
  deriving DecidableEq

def statementOf (parts : Nat) (line : List UInt8) : Option Statement :=
  let line := strip line
  if line = [] then none
  else if 1 < line.length ∧ line.getLast? = some 0x3A then some (.label line.dropLast)
  else
    match splitLine parts line with
    | [] => none
    | op :: args =>
        match encodeParts op args with
        | none => some .unknown
        | some (bytes, ref) => some (.code bytes ref)

def textLines (line : List UInt8) : List UInt8 → List (List UInt8)
  | [] => if line = [] then [] else [line]
  | c :: rest =>
      if c = 0 then if line = [] then [] else [line]
      else if c = 0x0A then line :: textLines [] rest
      else textLines (line ++ [c]) rest

def statements (source : List UInt8) : List Statement :=
  (textLines [] source).filterMap fun line => statementOf line.length line

def readBuf : Nat := 8192

def textRead (source : List UInt8) : List UInt8 := source.take (readBuf - 1)

def statementsRead (source : List UInt8) : List Statement :=
  (linesFrom [] (textRead source)).filterMap (statementOf 8)

def Statement.bytes : Statement → List UInt8
  | .code bytes _ => bytes
  | .label _ => []
  | .unknown => []

def Statement.definition (pos : Nat) : Statement → List (List UInt8 × Nat)
  | .label name => [(name, pos)]
  | .code _ _ => []
  | .unknown => []

def Statement.reference (pos : Nat) : Statement → List Fixup
  | .code _ (some (off, name, rel)) => [⟨pos + off, name, rel⟩]
  | .code _ none => []
  | .label _ => []
  | .unknown => []

def codeBytes (program : List Statement) : List UInt8 := program.flatMap Statement.bytes

/-- The labels of some statements and their positions, the first statement being at a position. -/
def definitions (pos : Nat) : List Statement → List (List UInt8 × Nat)
  | [] => []
  | s :: rest => s.definition pos ++ definitions (pos + s.bytes.length) rest

/-- The references of some statements, the first statement being at a position. -/
def references (pos : Nat) : List Statement → List Fixup
  | [] => []
  | s :: rest => s.reference pos ++ references (pos + s.bytes.length) rest

def addressOf (pos : Nat) : UInt32 := baseAddr + UInt32.ofNat (hdrSize + pos)

def wordFor (ref : Fixup) (pos : Nat) : UInt32 :=
  if ref.rel then addressOf pos - addressOf (ref.codeOffset + 4) else addressOf pos

/-! ## What is wanted of the assembler -/

/-- Nothing of a source is lost: what is read is what the source says, the tables hold its labels
and its references, the output is its code, and the word of every reference has been patched for the
only definition of its label. -/
structure Complete (source : List UInt8) : Prop where
  read : statementsRead source = statements source
  labels : (assembled (textRead source)).2.labels =
    (definitions 0 (statements source)).map fun label => (label.1, addressOf label.2)
  fixups : (assembled (textRead source)).2.fixups = references 0 (statements source)
  output : (tasmAssemble (textRead source)).2 =
    some (buildElf (assembled (textRead source)).2.code)
  size : (assembled (textRead source)).2.code.length = (codeBytes (statements source)).length
  bytes : ∀ i, (∀ ref ∈ references 0 (statements source),
      i < ref.codeOffset ∨ ref.codeOffset + 4 ≤ i) →
    (assembled (textRead source)).2.code.getD i 0 = (codeBytes (statements source)).getD i 0
  patched : ∀ ref ∈ references 0 (statements source), ∃ pos,
    (definitions 0 (statements source)).filter (fun label => label.1 = ref.name) =
        [(ref.name, pos)] ∧
      ((assembled (textRead source)).2.code.drop ref.codeOffset).take 4 = le32 (wordFor ref pos)

def keptName (name : List UInt8) : List UInt8 := name.take 31

/-- The assembler refuses a source: it reads an instruction that no branch takes, or a reference in
its table has no label in its table. -/
def Refused (source : List UInt8) : Prop :=
  .unknown ∈ statementsRead source ∨
    ∃ ref ∈ (references 0 (statementsRead source)).take maxLabels,
      ∀ label ∈ (definitions 0 (statementsRead source)).take maxLabels,
        keptName label.1 ≠ keptName ref.name

/-- A source stays within the limits: reading so many bytes of it, of its lines and of their parts
leaves what it says, its names, its labels, its references and its code have room, and a label that
is referred to is defined once. -/
structure WithinLimits (source : List UInt8) : Prop where
  read : statementsRead source = statements source
  names : ∀ label ∈ definitions 0 (statements source), label.1.length ≤ 31
  refNames : ∀ ref ∈ references 0 (statements source), ref.name.length ≤ 31
  labels : (definitions 0 (statements source)).length ≤ maxLabels
  fixups : (references 0 (statements source)).length ≤ maxLabels
  code : (codeBytes (statements source)).length ≤ maxCode
  once : ∀ ref ∈ references 0 (statements source),
    ((definitions 0 (statements source)).filter fun label => label.1 = ref.name).length ≤ 1

/-! ## One line -/

def Asm.perform (a : Asm) (pass : Nat) : Statement → Asm
  | .label name => if pass = 1 then a.addLabel name (UInt32.ofNat a.code.length) else a
  | .code bytes none => a.emit bytes
  | .code bytes (some (off, name, rel)) =>
      let opcode := a.emit (bytes.take off)
      let opcode := if pass = 2 then opcode.addFixup opcode.code.length name rel else opcode
      opcode.emit (bytes.drop off)
  | .unknown => a

theorem perform_label (a : Asm) (pass : Nat) (name : List UInt8) :
    a.perform pass (.label name) =
      if pass = 1 then a.addLabel name (UInt32.ofNat a.code.length) else a := rfl

theorem perform_reference (a : Asm) (pass off : Nat) (bytes name : List UInt8) (rel : Bool) :
    a.perform pass (.code bytes (some (off, name, rel))) =
      (if pass = 2 then (a.emit (bytes.take off)).addFixup (a.emit (bytes.take off)).code.length
        name rel else a.emit (bytes.take off)).emit (bytes.drop off) := rfl

def resultOf : Option Statement → Int
  | some .unknown => -1
  | some (.label _) => 0
  | some (.code _ _) => 0
  | none => 0

/-- A line is refused when it says an instruction that no branch takes, and otherwise performed. -/
theorem asmLine_statement (line : List UInt8) (pass : Nat) (a : Asm) :
    (asmLine line pass a).1 = resultOf (statementOf 8 line) ∧
      (asmLine line pass a).2 = (statementOf 8 line).elim a (a.perform pass) := by
  unfold asmLine statementOf
  dsimp only
  by_cases blank : strip line = []
  · rw [if_pos blank, if_pos blank]
    exact ⟨rfl, rfl⟩
  · rw [if_neg blank, if_neg blank]
    by_cases label : 1 < (strip line).length ∧ (strip line).getLast? = some 0x3A
    · rw [if_pos label, if_pos label]
      exact ⟨rfl, rfl⟩
    · rw [if_neg label, if_neg label]
      cases splitLine 8 (strip line) with
      | nil => exact ⟨rfl, rfl⟩
      | cons op args =>
          dsimp only
          cases encodeParts op args with
          | none => exact ⟨rfl, rfl⟩
          | some found =>
              rcases found with ⟨bytes, _ | ⟨off, name, rel⟩⟩
              · exact ⟨rfl, rfl⟩
              · exact ⟨rfl, rfl⟩

theorem runPass_eq (pass : Nat) (lines : List (List UInt8)) : ∀ a : Asm,
    lines.foldl (fun a line => (asmLine line pass a).2) a =
      (lines.filterMap (statementOf 8)).foldl (fun a s => a.perform pass s) a := by
  induction lines with
  | nil => intro a; rfl
  | cons line rest rest_ih =>
      intro a
      rw [List.foldl_cons, rest_ih, (asmLine_statement line pass a).2]
      cases said : statementOf 8 line with
      | none => rw [List.filterMap_cons_none said]; rfl
      | some s => rw [List.filterMap_cons_some said]; rfl

theorem refusedLines_eq_zero (pass : Nat) (lines : List (List UInt8)) : ∀ a : Asm,
    refusedLines pass lines a = 0 ↔ .unknown ∉ lines.filterMap (statementOf 8) := by
  induction lines with
  | nil => intro a; exact iff_of_true rfl (List.not_mem_nil)
  | cons line rest rest_ih =>
      intro a
      have first := (asmLine_statement line pass a).1
      unfold refusedLines
      dsimp only
      rw [first, Nat.add_eq_zero_iff, rest_ih]
      cases said : statementOf 8 line with
      | none =>
          rw [List.filterMap_cons_none said]
          simp [resultOf]
      | some s =>
          rw [List.filterMap_cons_some said, List.mem_cons]
          cases s <;> simp [resultOf]

def Statement.WellFormed : Statement → Prop
  | .code bytes (some (off, _, _)) => bytes.length = off + 4
  | .code _ none => True
  | .label _ => True
  | .unknown => True

theorem encodeParts_reference {op : List UInt8} {args : List (List UInt8)} {bytes : List UInt8}
    {off : Nat} {name : List UInt8} {rel : Bool}
    (taken : encodeParts op args = some (bytes, some (off, name, rel))) :
    bytes.length = off + 4 := by
  by_cases data : op = literal "db"
  · unfold encodeParts at taken
    dsimp only at taken
    rw [if_pos data] at taken
    cases taken
  · rcases encodes_of_encodeParts data taken with ⟨_, _, enc⟩
    exact (encodes_ref enc).1

theorem statementOf_wellFormed {parts : Nat} {line : List UInt8} {s : Statement}
    (said : statementOf parts line = some s) : s.WellFormed := by
  unfold statementOf at said
  dsimp only at said
  by_cases blank : strip line = []
  · rw [if_pos blank] at said
    cases said
  · rw [if_neg blank] at said
    by_cases label : 1 < (strip line).length ∧ (strip line).getLast? = some 0x3A
    · rw [if_pos label] at said
      cases said
      trivial
    · rw [if_neg label] at said
      cases found : splitLine parts (strip line) with
      | nil =>
          rw [found] at said
          cases said
      | cons op args =>
          rw [found] at said
          dsimp only at said
          cases taken : encodeParts op args with
          | none =>
              rw [taken] at said
              cases said
              trivial
          | some found =>
              rw [taken] at said
              rcases found with ⟨bytes, _ | ⟨off, name, rel⟩⟩
              · cases said
                trivial
              · cases said
                exact encodeParts_reference taken

theorem statementsRead_wellFormed (source : List UInt8) :
    ∀ s ∈ statementsRead source, s.WellFormed := by
  intro s listed
  rcases List.mem_filterMap.mp listed with ⟨line, _, said⟩
  exact statementOf_wellFormed said

/-! ## What the tables hold -/

/-- A label as the table keeps it: the position is that of the end of the code. -/
def keptLabel (label : List UInt8 × Nat) : List UInt8 × UInt32 :=
  (keptName label.1, UInt32.ofNat (min maxCode label.2))

def keptRef (ref : Fixup) : Fixup :=
  ⟨min maxCode ref.codeOffset, keptName ref.name, ref.rel⟩

/-- A table that takes what it has room for holds the first of what it was given. -/
theorem push_take {α : Type} (room : Nat) (given : List α) (x : α) :
    (if (given.take room).length < room then given.take room ++ [x] else given.take room) =
      (given ++ [x]).take room := by
  rw [List.take_append]
  by_cases free : given.length < room
  · have some' : [x].take (room - given.length) = [x] :=
      List.take_of_length_le (by rw [List.length_singleton]; omega)
    rw [some', if_pos (by rw [List.length_take]; omega)]
  · have none' : room - given.length = 0 := by omega
    rw [none', List.take_zero, List.append_nil, if_neg (by rw [List.length_take]; omega)]

theorem emit_take {a : Asm} {before : List UInt8} (code : a.code = before.take maxCode)
    (bytes : List UInt8) : (a.emit bytes).code = (before ++ bytes).take maxCode := by
  rw [emit_code, code, List.take_append, List.length_take]
  congr 2
  omega

theorem emit_labels (bytes : List UInt8) : ∀ a : Asm, (a.emit bytes).labels = a.labels := by
  induction bytes with
  | nil => intro a; rfl
  | cons b rest rest_ih =>
      intro a
      have step : a.emit (b :: rest) = (a.emit8 b).emit rest := rfl
      rw [step, rest_ih, Asm.emit8]
      split_ifs <;> rfl

theorem addFixup_labels (a : Asm) (off : Nat) (name : List UInt8) (rel : Bool) :
    (a.addFixup off name rel).labels = a.labels := by
  unfold Asm.addFixup
  split_ifs <;> rfl

theorem addLabel_code (a : Asm) (name : List UInt8) (off : UInt32) :
    (a.addLabel name off).code = a.code := by
  unfold Asm.addLabel
  split_ifs <;> rfl

section Perform

variable {a : Asm} {before : List UInt8} (code : a.code = before.take maxCode)

include code

theorem perform_code (pass : Nat) (s : Statement) :
    (a.perform pass s).code = (before ++ s.bytes).take maxCode := by
  cases s with
  | label name =>
      have same : (a.perform pass (.label name)).code = a.code := by
        rw [perform_label]
        split_ifs
        · exact addLabel_code a name _
        · rfl
      rw [same, code, Statement.bytes, List.append_nil]
  | unknown =>
      rw [Statement.bytes, List.append_nil]
      exact code
  | code bytes ref =>
      rcases ref with _ | ⟨off, name, rel⟩
      · exact emit_take code bytes
      · have parts := emit_parts_code a bytes pass off name rel
        rw [← emit_code] at parts
        exact parts.trans (emit_take code bytes)

theorem perform_labels {known : List (List UInt8 × Nat)}
    (labels : a.labels = (known.map keptLabel).take maxLabels) (s : Statement) :
    (a.perform 1 s).labels =
      ((known ++ s.definition before.length).map keptLabel).take maxLabels := by
  cases s with
  | label name =>
      have here : UInt32.ofNat a.code.length = (keptLabel (name, before.length)).2 := by
        rw [code, List.length_take]
        rfl
      rw [perform_label, if_pos rfl, here, Statement.definition, List.map_append,
        List.map_singleton, ← push_take, ← labels]
      unfold Asm.addLabel
      split_ifs <;> rfl
  | unknown =>
      rw [Statement.definition, List.append_nil]
      exact labels
  | code bytes ref =>
      rw [Statement.definition, List.append_nil, ← labels]
      rcases ref with _ | ⟨off, name, rel⟩
      · exact emit_labels bytes a
      · exact (emit_labels _ _).trans (emit_labels _ a)

theorem perform_fixups {known : List Fixup}
    (fixups : a.fixups = (known.map keptRef).take maxLabels) {s : Statement}
    (formed : s.WellFormed) :
    (a.perform 2 s).fixups =
      ((known ++ s.reference before.length).map keptRef).take maxLabels := by
  cases s with
  | label name =>
      rw [Statement.reference, List.append_nil]
      exact fixups
  | unknown =>
      rw [Statement.reference, List.append_nil]
      exact fixups
  | code bytes ref =>
      rcases ref with _ | ⟨off, name, rel⟩
      · rw [Statement.reference, List.append_nil, ← fixups]
        exact emit_fixups bytes a
      · have inside : (bytes.take off).length = off := by
          rw [List.length_take]
          unfold Statement.WellFormed at formed
          omega
        have here : (a.emit (bytes.take off)).code.length =
            (keptRef ⟨before.length + off, name, rel⟩).codeOffset := by
          rw [emit_take code, List.length_take, List.length_append, inside]
          rfl
        rw [perform_reference, if_pos rfl, emit_fixups, here, Statement.reference,
          List.map_append, List.map_singleton, ← push_take, ← fixups]
        unfold Asm.addFixup
        rw [emit_fixups]
        split_ifs
        · rfl
        · exact emit_fixups _ a

end Perform

theorem perform_labels_second (a : Asm) (s : Statement) : (a.perform 2 s).labels = a.labels := by
  cases s with
  | label name => rfl
  | unknown => rfl
  | code bytes ref =>
      rcases ref with _ | ⟨off, name, rel⟩
      · exact emit_labels bytes a
      · exact ((emit_labels _ _).trans (addFixup_labels _ _ _ _)).trans (emit_labels _ a)

theorem run_code (pass : Nat) (program : List Statement) : ∀ (a : Asm) (before : List UInt8),
    a.code = before.take maxCode →
      (program.foldl (fun a s => a.perform pass s) a).code =
        (before ++ codeBytes program).take maxCode := by
  induction program with
  | nil =>
      intro a before code
      rw [codeBytes, List.flatMap_nil, List.append_nil]
      exact code
  | cons s rest rest_ih =>
      intro a before code
      rw [List.foldl_cons, rest_ih _ _ (perform_code code pass s), List.append_assoc]
      rfl

theorem run_labels (program : List Statement) : ∀ (a : Asm) (before : List UInt8)
    (known : List (List UInt8 × Nat)), a.code = before.take maxCode →
      a.labels = (known.map keptLabel).take maxLabels →
      (program.foldl (fun a s => a.perform 1 s) a).labels =
        ((known ++ definitions before.length program).map keptLabel).take maxLabels := by
  induction program with
  | nil =>
      intro a before known _ labels
      rw [definitions, List.append_nil]
      exact labels
  | cons s rest rest_ih =>
      intro a before known code labels
      rw [List.foldl_cons,
        rest_ih _ _ _ (perform_code code 1 s) (perform_labels code labels s), definitions,
        List.length_append, List.append_assoc]

theorem run_fixups (program : List Statement) : ∀ (a : Asm) (before : List UInt8)
    (known : List Fixup), a.code = before.take maxCode →
      a.fixups = (known.map keptRef).take maxLabels → (∀ s ∈ program, s.WellFormed) →
      (program.foldl (fun a s => a.perform 2 s) a).fixups =
        ((known ++ references before.length program).map keptRef).take maxLabels := by
  induction program with
  | nil =>
      intro a before known _ fixups _
      rw [references, List.append_nil]
      exact fixups
  | cons s rest rest_ih =>
      intro a before known code fixups formed
      rw [List.foldl_cons,
        rest_ih _ _ _ (perform_code code 2 s)
          (perform_fixups code fixups (formed s List.mem_cons_self))
          (fun other listed => formed other (List.mem_cons_of_mem _ listed)),
        references, List.length_append, List.append_assoc]

theorem run_labels_second (program : List Statement) : ∀ a : Asm,
    (program.foldl (fun a s => a.perform 2 s) a).labels = a.labels := by
  induction program with
  | nil => intro a; rfl
  | cons s rest rest_ih =>
      intro a
      rw [List.foldl_cons, rest_ih, perform_labels_second]

/-! ## The references -/

def Asm.valueFor (a : Asm) (fixup : Fixup) : UInt32 :=
  match a.findLabel fixup.name with
  | none => 0
  | some label =>
      if fixup.rel then label.2 - (baseAddr + UInt32.ofNat (hdrSize + fixup.codeOffset + 4))
      else label.2

def Asm.patchOf (a : Asm) (fixup : Fixup) : Nat × List UInt8 :=
  (fixup.codeOffset, le32 (a.valueFor fixup))

theorem findLabel_congr {a b : Asm} (same : a.labels = b.labels) (name : List UInt8) :
    a.findLabel name = b.findLabel name := by
  unfold Asm.findLabel
  rw [same]

theorem patchOf_congr {a b : Asm} (same : a.labels = b.labels) : a.patchOf = b.patchOf := by
  funext fixup
  unfold Asm.patchOf Asm.valueFor
  rw [findLabel_congr same]

theorem patchWord_length (code : List UInt8) (off : Nat) (value : UInt32) :
    (patchWord code off value).length = code.length := by
  unfold patchWord
  rw [List.length_map, List.length_range]

theorem patchWord_getD (code : List UInt8) (off : Nat) (value : UInt32) {i : Nat}
    (inside : i < code.length) :
    (patchWord code off value).getD i 0 =
      Patches.overlay (fun i => code.getD i 0) (off, le32 value) i := by
  have short : i < ((List.range code.length).map fun i =>
      if off ≤ i ∧ i < off + 4 then (le32 value).getD (i - off) 0 else code.getD i 0).length := by
    rw [List.length_map, List.length_range]
    exact inside
  unfold patchWord Patches.overlay
  rw [List.getD_eq_getElem _ _ short, List.getElem_map, List.getElem_range]
  dsimp only
  by_cases behind : off ≤ i
  · by_cases word : i < off + 4
    · have field : i - off < (le32 value).length := by
        rw [le32_length]
        omega
      rw [if_pos ⟨behind, word⟩, if_pos behind, List.getD_eq_getElem _ _ field,
        List.getElem?_eq_getElem field]
      rfl
    · have past : (le32 value).length ≤ i - off := by
        rw [le32_length]
        omega
      rw [if_neg (fun both => word both.2), if_pos behind, List.getElem?_eq_none past]
      rfl
  · rw [if_neg (fun both => behind both.1), if_neg behind]

theorem resolve_step (n : Nat) (a : Asm) (fixup : Fixup) :
    (resolve (n, a) fixup).2.labels = a.labels ∧ (resolve (n, a) fixup).2.fixups = a.fixups ∧
      (resolve (n, a) fixup).2.code.length = a.code.length ∧
      ((resolve (n, a) fixup).1 = 0 ↔ n = 0 ∧ a.findLabel fixup.name ≠ none) ∧
      (a.findLabel fixup.name ≠ none → ∀ i, i < a.code.length →
        (resolve (n, a) fixup).2.code.getD i 0 =
          Patches.overlay (fun i => a.code.getD i 0) (a.patchOf fixup) i) := by
  unfold resolve Asm.patchOf Asm.valueFor
  dsimp only
  cases found : a.findLabel fixup.name with
  | none =>
      refine ⟨rfl, rfl, rfl, ?_, fun some' => absurd rfl some'⟩
      exact iff_of_false (Nat.succ_ne_zero n) fun both => both.2 rfl
  | some label =>
      refine ⟨rfl, rfl, patchWord_length _ _ _, ?_, fun _ i inside => patchWord_getD _ _ _ inside⟩
      exact ⟨fun none' => ⟨none', fun absent => nomatch absent⟩, fun both => both.1⟩

theorem resolve_all (fixups : List Fixup) : ∀ (n : Nat) (a : Asm),
    (fixups.foldl resolve (n, a)).2.labels = a.labels ∧
      (fixups.foldl resolve (n, a)).2.fixups = a.fixups ∧
      (fixups.foldl resolve (n, a)).2.code.length = a.code.length ∧
      ((fixups.foldl resolve (n, a)).1 = 0 ↔
        n = 0 ∧ ∀ fixup ∈ fixups, a.findLabel fixup.name ≠ none) ∧
      ((∀ fixup ∈ fixups, a.findLabel fixup.name ≠ none) → ∀ i, i < a.code.length →
        (fixups.foldl resolve (n, a)).2.code.getD i 0 =
          Patches.overlays (fun i => a.code.getD i 0) (fixups.map a.patchOf) i) := by
  induction fixups with
  | nil =>
      intro n a
      refine ⟨rfl, rfl, rfl, ?_, fun _ _ _ => rfl⟩
      exact ⟨fun none' => ⟨none', fun _ listed => nomatch listed⟩, fun both => both.1⟩
  | cons fixup rest rest_ih =>
      intro n a
      rcases resolve_step n a fixup with ⟨labels, fixups, length, errors, code⟩
      rcases rest_ih (resolve (n, a) fixup).1 (resolve (n, a) fixup).2 with
        ⟨labels', fixups', length', errors', code'⟩
      rw [List.foldl_cons, List.forall_mem_cons, List.map_cons]
      refine ⟨labels'.trans labels, fixups'.trans fixups, length'.trans length, ?_, ?_⟩
      · rw [errors', errors, and_assoc]
        simp only [findLabel_congr labels]
      · rintro ⟨first, others⟩ i inside
        have further := code' (by simpa only [findLabel_congr labels] using others) i
          (by rw [length]; exact inside)
        rw [further, patchOf_congr labels]
        exact Patches.overlays_congr (rest.map a.patchOf) (code first i inside)

/-! ## The whole -/

def shifted (label : List UInt8 × UInt32) : List UInt8 × UInt32 :=
  (label.1, label.2 + (baseAddr + UInt32.ofNat hdrSize))

def labelTable (program : List Statement) : List (List UInt8 × UInt32) :=
  (((definitions 0 program).map keptLabel).take maxLabels).map shifted

def secondPass (source : List UInt8) : Asm :=
  (statementsRead source).foldl (fun a s => a.perform 2 s)
    ⟨labelTable (statementsRead source), [], []⟩

theorem secondPass_labels (source : List UInt8) :
    (secondPass source).labels = labelTable (statementsRead source) :=
  run_labels_second _ _

theorem secondPass_fixups (source : List UInt8) :
    (secondPass source).fixups =
      ((references 0 (statementsRead source)).map keptRef).take maxLabels :=
  run_fixups (statementsRead source) ⟨labelTable (statementsRead source), [], []⟩ [] [] rfl rfl
    (statementsRead_wellFormed source)

theorem secondPass_code (source : List UInt8) :
    (secondPass source).code = (codeBytes (statementsRead source)).take maxCode :=
  run_code 2 (statementsRead source) ⟨labelTable (statementsRead source), [], []⟩ [] rfl

theorem assembled_eq (source : List UInt8) :
    assembled (textRead source) =
      (secondPass source).fixups.foldl resolve (0, secondPass source) := by
  have first : (runPass 1 [] (linesFrom [] (textRead source))).labels =
      ((definitions 0 (statementsRead source)).map keptLabel).take maxLabels := by
    unfold runPass
    rw [runPass_eq]
    exact run_labels (statementsRead source) ⟨[], [], []⟩ [] [] rfl rfl
  have second : runPass 2 (labelTable (statementsRead source)) (linesFrom [] (textRead source)) =
      secondPass source := by
    unfold runPass
    rw [runPass_eq]
    rfl
  unfold assembled
  dsimp only
  rw [first]
  unfold labelTable shifted at second
  rw [second]

theorem assembled_labels (source : List UInt8) :
    (assembled (textRead source)).2.labels = labelTable (statementsRead source) := by
  rw [assembled_eq, (resolve_all _ _ _).1, secondPass_labels]

theorem assembled_fixups (source : List UInt8) :
    (assembled (textRead source)).2.fixups =
      ((references 0 (statementsRead source)).map keptRef).take maxLabels := by
  rw [assembled_eq, (resolve_all _ _ _).2.1, secondPass_fixups]

theorem assembled_length (source : List UInt8) :
    (assembled (textRead source)).2.code.length =
      min maxCode (codeBytes (statementsRead source)).length := by
  rw [assembled_eq, (resolve_all _ _ _).2.2.1, secondPass_code, List.length_take]

/-- A name is found when a label in the table is kept under it. -/
theorem findLabel_ne_none (source : List UInt8) (name : List UInt8) :
    (secondPass source).findLabel name ≠ none ↔
      ∃ label ∈ (definitions 0 (statementsRead source)).take maxLabels,
        keptName label.1 = name := by
  unfold Asm.findLabel
  rw [secondPass_labels, labelTable, ← List.map_take, List.map_map, Ne, List.find?_eq_none]
  constructor
  · intro found
    by_contra absent
    apply found
    intro label held
    rcases List.mem_map.mp held with ⟨known, listed, rfl⟩
    exact fun same => absent ⟨known, listed, eq_of_beq same⟩
  · rintro ⟨known, listed, same⟩ none'
    exact none' _ (List.mem_map.mpr ⟨known, listed, rfl⟩) (beq_iff_eq.mpr same)

/-- The assembler returns 0 exactly when it does not refuse the source. -/
theorem tasmAssemble_eq_zero (source : List UInt8) :
    (tasmAssemble (textRead source)).1 = 0 ↔ ¬ Refused source := by
  have lines := refusedLines_eq_zero 1 (linesFrom [] (textRead source)) ⟨[], [], []⟩
  have refs : (assembled (textRead source)).1 = 0 ↔
      ∀ ref ∈ (references 0 (statementsRead source)).take maxLabels,
        ∃ label ∈ (definitions 0 (statementsRead source)).take maxLabels,
          keptName label.1 = keptName ref.name := by
    rw [assembled_eq, (resolve_all _ _ _).2.2.2.1, secondPass_fixups, ← List.map_take]
    simp only [true_and, List.forall_mem_map, findLabel_ne_none, keptRef]
  unfold tasmAssemble Refused
  rw [not_or]
  by_cases refused : 0 < refusedLines 1 (linesFrom [] (textRead source)) ⟨[], [], []⟩
  · rw [if_pos refused]
    refine iff_of_false (by decide) fun both => ?_
    exact refused.ne' (lines.mpr both.1)
  · rw [if_neg refused]
    have known := lines.mp (Nat.eq_zero_of_not_pos refused)
    by_cases missing : 0 < (assembled (textRead source)).1
    · rw [if_pos missing]
      refine iff_of_false (by decide) fun both => missing.ne' (refs.mpr ?_)
      intro ref listed
      by_contra absent
      exact both.2 ⟨ref, listed, fun label held same => absent ⟨label, held, same⟩⟩
    · rw [if_neg missing]
      refine iff_of_true rfl ⟨known, ?_⟩
      rintro ⟨ref, listed, absent⟩
      rcases refs.mp (Nat.eq_zero_of_not_pos missing) ref listed with ⟨label, held, same⟩
      exact absent label held same

theorem tasmAssemble_output {text : List UInt8} (success : (tasmAssemble text).1 = 0) :
    (tasmAssemble text).2 = some (buildElf (assembled text).2.code) := by
  unfold tasmAssemble at success ⊢
  split_ifs at success ⊢
  · cases success
  · cases success
  · rfl

/-! ## Where labels and references are -/

theorem definitions_le (program : List Statement) : ∀ (pos : Nat),
    ∀ label ∈ definitions pos program, label.2 ≤ pos + (codeBytes program).length := by
  induction program with
  | nil => intro pos label listed; cases listed
  | cons s rest rest_ih =>
      intro pos label listed
      have total : (codeBytes (s :: rest)).length = s.bytes.length + (codeBytes rest).length := by
        unfold codeBytes
        rw [List.flatMap_cons, List.length_append]
      rw [definitions] at listed
      rcases List.mem_append.mp listed with here | behind
      · cases s with
        | label name =>
            rw [Statement.definition, List.mem_singleton] at here
            rw [here]
            exact Nat.le_add_right _ _
        | code bytes ref => cases here
        | unknown => cases here
      · have bound := rest_ih _ label behind
        omega

/-- The word of a reference of a statement is inside of its bytes. -/
theorem reference_inside {s : Statement} (formed : s.WellFormed) {pos : Nat} {ref : Fixup}
    (here : ref ∈ s.reference pos) :
    pos ≤ ref.codeOffset ∧ ref.codeOffset + 4 ≤ pos + s.bytes.length := by
  cases s with
  | label name => cases here
  | unknown => cases here
  | code bytes found =>
      rcases found with _ | ⟨off, name, rel⟩
      · cases here
      · rw [Statement.reference, List.mem_singleton] at here
        unfold Statement.WellFormed at formed
        rw [here, Statement.bytes, formed]
        exact ⟨Nat.le_add_right _ _, (Nat.add_assoc pos off 4).le⟩

theorem references_inside (program : List Statement) : ∀ (pos : Nat),
    (∀ s ∈ program, s.WellFormed) → ∀ ref ∈ references pos program,
      pos ≤ ref.codeOffset ∧ ref.codeOffset + 4 ≤ pos + (codeBytes program).length := by
  induction program with
  | nil => intro pos _ ref listed; cases listed
  | cons s rest rest_ih =>
      intro pos formed ref listed
      have total : (codeBytes (s :: rest)).length = s.bytes.length + (codeBytes rest).length := by
        unfold codeBytes
        rw [List.flatMap_cons, List.length_append]
      rw [references] at listed
      rcases List.mem_append.mp listed with here | behind
      · have bound := reference_inside (formed s List.mem_cons_self) here
        omega
      · have bound := rest_ih _ (fun other held => formed other (List.mem_cons_of_mem _ held))
          ref behind
        omega

theorem references_apart (program : List Statement) : ∀ (pos : Nat),
    (∀ s ∈ program, s.WellFormed) → (references pos program).Pairwise
      fun ref other => ref.codeOffset + 4 ≤ other.codeOffset := by
  induction program with
  | nil => intro pos _; exact List.Pairwise.nil
  | cons s rest rest_ih =>
      intro pos formed
      have others : ∀ other ∈ rest, other.WellFormed := fun other held =>
        formed other (List.mem_cons_of_mem _ held)
      rw [references, List.pairwise_append]
      refine ⟨?_, rest_ih _ others, ?_⟩
      · cases s with
        | label name => exact List.Pairwise.nil
        | unknown => exact List.Pairwise.nil
        | code bytes found =>
            rcases found with _ | ⟨off, name, rel⟩
            · exact List.Pairwise.nil
            · exact List.pairwise_singleton _ _
      · intro ref here other behind
        have first := reference_inside (formed s List.mem_cons_self) here
        have second := references_inside rest _ others other behind
        omega

/-! ## When nothing is lost -/

theorem keptName_eq {name : List UInt8} : keptName name = name ↔ name.length ≤ 31 := by
  unfold keptName
  exact List.take_eq_self_iff name

/-- A source of which nothing is lost stays within the limits. -/
theorem withinLimits_of_complete {source : List UInt8} (complete : Complete source) :
    WithinLimits source := by
  have labels := (assembled_labels source).symm.trans complete.labels
  have fixups := (assembled_fixups source).symm.trans complete.fixups
  have size := (assembled_length source).symm.trans complete.size
  rw [complete.read] at labels fixups size
  have fewLabels : (definitions 0 (statements source)).length ≤ maxLabels := by
    have lengths := congrArg List.length labels
    rw [labelTable, List.length_map, List.length_take, List.length_map, List.length_map]
      at lengths
    omega
  have fewRefs : (references 0 (statements source)).length ≤ maxLabels := by
    have lengths := congrArg List.length fixups
    rw [List.length_take, List.length_map] at lengths
    omega
  rw [labelTable, List.take_of_length_le (by rw [List.length_map]; exact fewLabels),
    List.map_map, List.map_inj_left] at labels
  rw [List.take_of_length_le (by rw [List.length_map]; exact fewRefs)] at fixups
  have sameRefs : (references 0 (statements source)).map keptRef =
      (references 0 (statements source)).map id := by
    rw [List.map_id]
    exact fixups
  rw [List.map_inj_left] at sameRefs
  constructor
  case read => exact complete.read
  case names =>
    intro label listed
    exact keptName_eq.mp (congrArg Prod.fst (labels label listed))
  case refNames =>
    intro ref listed
    exact keptName_eq.mp (congrArg Fixup.name (sameRefs ref listed))
  case labels => exact fewLabels
  case fixups => exact fewRefs
  case code => omega
  case once =>
    intro ref listed
    rcases complete.patched ref listed with ⟨pos, single, _⟩
    rw [single, List.length_singleton]

/-- The word that is written for a reference is the one it stands for. -/
theorem patchOf_found {source : List UInt8} {ref : Fixup} {pos : Nat}
    (found : (secondPass source).findLabel ref.name = some (ref.name, addressOf pos)) :
    (secondPass source).patchOf ref = (ref.codeOffset, le32 (wordFor ref pos)) := by
  unfold Asm.patchOf Asm.valueFor wordFor
  rw [found]
  rfl

section Within

variable {source : List UInt8} (within : WithinLimits source)

include within

theorem shifted_keptLabel {label : List UInt8 × Nat}
    (listed : label ∈ definitions 0 (statements source)) :
    shifted (keptLabel label) = (label.1, addressOf label.2) := by
  have place : min maxCode label.2 = label.2 := by
    have bound := definitions_le (statements source) 0 label listed
    have room := within.code
    omega
  have address : UInt32.ofNat label.2 + (baseAddr + UInt32.ofNat hdrSize) = addressOf label.2 := by
    rw [addressOf, UInt32.ofNat_add, UInt32.add_comm, UInt32.add_assoc]
  unfold shifted keptLabel
  rw [keptName_eq.mpr (within.names label listed), place, address]

theorem labelTable_within :
    labelTable (statementsRead source) =
      (definitions 0 (statements source)).map fun label => (label.1, addressOf label.2) := by
  rw [within.read, labelTable,
    List.take_of_length_le (by rw [List.length_map]; exact within.labels), List.map_map]
  exact List.map_congr_left fun label listed => shifted_keptLabel within listed

theorem fixups_within : (secondPass source).fixups = references 0 (statements source) := by
  have formed := statementsRead_wellFormed source
  rw [secondPass_fixups, within.read,
    List.take_of_length_le (by rw [List.length_map]; exact within.fixups)]
  rw [within.read] at formed
  refine (List.map_congr_left ?_).trans (List.map_id (references 0 (statements source)))
  intro ref listed
  have place : min maxCode ref.codeOffset = ref.codeOffset := by
    have bound := references_inside (statements source) 0 formed ref listed
    have room := within.code
    omega
  unfold keptRef
  rw [place, keptName_eq.mpr (within.refNames ref listed)]
  rfl

theorem code_within : (secondPass source).code = codeBytes (statements source) := by
  rw [secondPass_code, within.read, List.take_of_length_le within.code]

theorem definition_within (accepted : ¬ Refused source) {ref : Fixup}
    (listed : ref ∈ references 0 (statements source)) : ∃ pos,
    (definitions 0 (statements source)).filter (fun label => label.1 = ref.name) =
        [(ref.name, pos)] ∧
      (secondPass source).findLabel ref.name = some (ref.name, addressOf pos) := by
  have found : ∃ label ∈ definitions 0 (statements source), label.1 = ref.name := by
    by_contra absent
    apply accepted
    apply Or.inr
    rw [within.read, List.take_of_length_le within.fixups,
      List.take_of_length_le within.labels]
    refine ⟨ref, listed, fun label held same => absent ⟨label, held, ?_⟩⟩
    rw [keptName_eq.mpr (within.names label held), keptName_eq.mpr (within.refNames ref listed)]
      at same
    exact same
  rcases found with ⟨label, held, named⟩
  have single : (definitions 0 (statements source)).filter (fun label => label.1 = ref.name) =
      [label] := by
    have inside : label ∈ (definitions 0 (statements source)).filter
        fun label => label.1 = ref.name := List.mem_filter.mpr ⟨held, decide_eq_true named⟩
    have one := Nat.le_antisymm (within.once ref listed) (List.length_pos_of_mem inside)
    rcases List.length_eq_one_iff.mp one with ⟨x, only⟩
    rw [only] at inside ⊢
    rw [List.mem_singleton.mp inside]
  refine ⟨label.2, by rw [single, ← named], ?_⟩
  unfold Asm.findLabel
  have first : (definitions 0 (statements source)).find? (fun label => label.1 = ref.name) =
      some label := by
    rw [← List.head?_filter, single]
    rfl
  have test : ((fun label : List UInt8 × UInt32 => label.1 == ref.name) ∘
      fun label : List UInt8 × Nat => (label.1, addressOf label.2)) =
        fun label => decide (label.1 = ref.name) := by
    funext label
    exact beq_eq_decide label.1 ref.name
  rw [secondPass_labels, labelTable_within within, List.find?_map, test, first, Option.map_some,
    named]

/-- The code behind the second pass, read at a position, is the code with the words of the
references written over it. -/
theorem assembled_code (accepted : ¬ Refused source) {i : Nat}
    (inside : i < (codeBytes (statements source)).length) :
    (assembled (textRead source)).2.code.getD i 0 =
      Patches.overlays (fun i => (codeBytes (statements source)).getD i 0)
        ((references 0 (statements source)).map (secondPass source).patchOf) i := by
  have found : ∀ fixup ∈ (secondPass source).fixups,
      (secondPass source).findLabel fixup.name ≠ none := by
    rw [fixups_within within]
    intro fixup listed absent
    rcases definition_within within accepted listed with ⟨pos, _, known⟩
    rw [absent] at known
    cases known
  have code := (resolve_all (secondPass source).fixups 0 (secondPass source)).2.2.2.2 found i
    (by rw [code_within within]; exact inside)
  rw [assembled_eq, code, code_within within, fixups_within within]

/-- Of a source within the limits that is not refused nothing is lost. -/
theorem complete_of_withinLimits (accepted : ¬ Refused source) : Complete source := by
  have formed := statementsRead_wellFormed source
  rw [within.read] at formed
  have size : (assembled (textRead source)).2.code.length =
      (codeBytes (statements source)).length := by
    rw [assembled_length, within.read]
    exact Nat.min_eq_right within.code
  constructor
  case read => exact within.read
  case labels => exact (assembled_labels source).trans (labelTable_within within)
  case fixups =>
    rw [assembled_fixups, ← secondPass_fixups]
    exact fixups_within within
  case output => exact tasmAssemble_output ((tasmAssemble_eq_zero source).mpr accepted)
  case size => exact size
  case bytes =>
    intro i outside
    by_cases inside : i < (codeBytes (statements source)).length
    · rw [assembled_code within accepted inside]
      apply Patches.overlays_outside
      intro field listed
      rcases List.mem_map.mp listed with ⟨ref, held, rfl⟩
      exact outside ref held
    · rw [List.getD_eq_default _ _ (by rw [size]; omega), List.getD_eq_default _ _ (by omega)]
  case patched =>
    intro ref listed
    rcases definition_within within accepted listed with ⟨pos, single, found⟩
    refine ⟨pos, single, ?_⟩
    have bound := references_inside (statements source) 0 formed ref listed
    have field := patchOf_found found
    have apart : ((references 0 (statements source)).map (secondPass source).patchOf).Pairwise
        Patches.Apart := by
      rw [List.pairwise_map]
      exact (references_apart (statements source) 0 formed).imp fun before => Or.inl before
    have word : ((assembled (textRead source)).2.code.drop ref.codeOffset).take 4 =
        ((secondPass source).patchOf ref).2 := by
      apply List.ext_getElem
      · rw [List.length_take, List.length_drop, size, field, le32_length]
        omega
      · intro k short long
        have four : k < 4 := long
        have place : ref.codeOffset + k < (codeBytes (statements source)).length := by omega
        have here := assembled_code within accepted place
        rw [List.getD_eq_getElem _ _ (by rw [size]; exact place)] at here
        rw [List.getElem_take, List.getElem_drop, here]
        exact Patches.overlays_inside apart _ ((secondPass source).patchOf ref)
          (List.mem_map_of_mem listed) k long
    rw [word, field]

end Within

/-- Whenever the assembler returns 0 nothing of the source is lost and every reference is to the
only definition of its label, exactly when the source is refused or stays within the limits. -/
theorem assembly_complete_iff (source : List UInt8) :
    ((tasmAssemble (textRead source)).1 = 0 → Complete source) ↔
      Refused source ∨ WithinLimits source := by
  rw [tasmAssemble_eq_zero]
  constructor
  · intro complete
    by_cases refused : Refused source
    · exact Or.inl refused
    · exact Or.inr (withinLimits_of_complete (complete refused))
  · rintro (refused | within) accepted
    · exact absurd refused accepted
    · exact complete_of_withinLimits within accepted

/-- Two labels that differ behind their first thirty-one bytes, and a jump to the second of them. -/
def longNames : List UInt8 :=
  let stem := List.replicate 31 0x61
  stem ++ literal "b:\nnop\n" ++ stem ++ literal "c:\njmp " ++ stem ++ literal "c\n"

/-- The jump goes to the first label, and the assembler returns 0. -/
theorem longNames_confused :
    tasmAssemble (textRead longNames) =
        (0, some (buildElf ([0x90, 0xE9] ++ le32 (addressOf 0 - addressOf 6)))) ∧
      ¬ Complete longNames := by
  constructor
  · decide +kernel
  · intro complete
    have names := (withinLimits_of_complete complete).names
    have program : definitions 0 (statements longNames) =
        [(List.replicate 31 0x61 ++ [0x62], 0), (List.replicate 31 0x61 ++ [0x63], 1)] := by
      decide +kernel
    rw [program] at names
    have short := names _ List.mem_cons_self
    exact absurd short (by decide)

end Tasm

end Trinux
