import Trinux.Shell.CommandLine

namespace Trinux

/-!
# Pipelines in the shell of the users

The shell cuts a line into tokens, the tokens at `|` into stages, and starts a program for each of
them.  A file takes the output of a stage to the next one.  The stages are put together in an array
for 16 arguments, and the path of the program in one of 128 bytes.
-/

namespace UserShell

open CommandLine

/-! ## The shell -/

def argsMax : Nat := 16

def lineMax : Nat := 256

def pathSize : Nat := 128

structure Redirections where
  input : Option (List UInt8)
  output : Option (List UInt8 × Bool)
deriving DecidableEq

def Redirections.nothing : Redirections := ⟨none, none⟩

def Redirections.add (r : Redirections) (op file : List UInt8) : Option Redirections :=
  if op = [62] then some { r with output := some (file, false) }
  else if op = [62, 62] then some { r with output := some (file, true) }
  else if op = [60] then some { r with input := some file }
  else none

def isRedirection (text : List UInt8) : Bool := text == [62] || text == [62, 62] || text == [60]

/-- What the shell does: it refuses a line, has nothing to start, reads the name of the command
through a null pointer, runs a command of its own, writes behind the array for the path, or starts a
program. -/
inductive Outcome where
  | refused
  | nothing
  | fault
  | builtin (argv : List (List UInt8))
  | overflow
  | spawn (path : List UInt8) (argv : List (List UInt8)) (r : Redirections)
deriving DecidableEq

def scan : Redirections → List (List UInt8) → Option (List (List UInt8) × Redirections)
  | r, [] => some ([], r)
  | r, [text] => if isRedirection text = true then none else some ([text], r)
  | r, text :: file :: rest =>
      match r.add text file with
      | some r => scan r rest
      | none => (scan r (file :: rest)).map fun found => (text :: found.1, found.2)

def commandPath (word : List UInt8) : List UInt8 :=
  if word.head? = some 47 ∨ word.take 2 = [46, 47] then word else [47, 98, 105, 110, 47] ++ word

def startProgram : Option (List (List UInt8) × Redirections) → Outcome
  | none => .refused
  | some ([], _) => .nothing
  | some (word :: words, r) =>
      if (commandPath word).length < pathSize then .spawn (commandPath word) (word :: words) r
      else .overflow

def runOne (argv : List (List UInt8)) : Outcome := startProgram (scan .nothing argv)

/-- The only stage of a line, for which `run_one` changes the arguments of `dispatch`.  Behind it
`dispatch` compares the first one, which is a null pointer if no word is left. -/
def runSingle (argv : List (List UInt8)) : List Outcome :=
  runOne argv :: match scan .nothing argv with
    | some ([], _) => [.fault]
    | _ => []

def tmpn (i : Nat) : List UInt8 := [47, 116, 109, 112, 47, 46, 112, 48 + i.toUInt8]

def builtins : List (List UInt8) :=
  [[101, 120, 105, 116], [99, 100], [104, 101, 108, 112], [104, 105, 115, 116, 111, 114, 121],
    [99, 108, 101, 97, 114]]

instance decidableBuiltin (name : List UInt8) : Decidable (name ∈ builtins) :=
  decidable_of_iff (builtins.contains name = true) List.contains_iff_mem

def splitAt_ {α : Type} (pipe : α → Bool) : List α → List (List α)
  | [] => [[]]
  | x :: rest =>
      if pipe x = true then [] :: splitAt_ pipe rest
      else (x :: (splitAt_ pipe rest).headD []) :: (splitAt_ pipe rest).tail

def stageArgs (stages si : Nat) (texts : List (List UInt8)) : List (List UInt8) :=
  let words := texts.take (argsMax - 3)
  let fed := if 0 < si ∧ words.length < argsMax - 3 then words ++ [tmpn (si - 1)] else words
  if si < stages - 1 ∧ fed.length < argsMax - 3 then fed ++ [[62], tmpn si] else fed

def dispatch (argv : List (List UInt8)) : List Outcome :=
  if argv = [] then [.nothing]
  else if argv.headD [] ∈ builtins then [.builtin argv]
  else
    let stages := splitAt_ (· == [124]) argv
    if stages.length = 1 then runSingle argv
    else if 8 < stages.length then [.refused]
    else stages.mapIdx fun si texts => runOne (stageArgs stages.length si texts)

def runLine (line : List UInt8) : List Outcome :=
  dispatch ((tokenize true (argsMax - 1) (lineMax - 1) line).map Token.text)

/-! ## What a line says -/

def isPipe (token : Token) : Bool := token.op && token.text == [124]

def stagesOf (line : List UInt8) : List (List Token) := splitAt_ isPipe (lex true line)

abbrev Written : Type := List (List UInt8) × Redirections

/-- The words and the redirections that are written on a stage; each operator is followed by the
word for its file. -/
def written : Redirections → List Token → Option Written
  | r, [] => some ([], r)
  | r, [token] => if token.op = true then none else some ([token.text], r)
  | r, token :: file :: rest =>
      if token.op = true then
        if file.op = true then none
        else (r.add token.text file.text).bind fun r => written r rest
      else (written r (file :: rest)).map fun found => (token.text :: found.1, found.2)

/-- The program that should run for a stage: its words, followed by the file of the stage before,
and its redirections, or the file for the next stage. -/
def expected (stages si : Nat) (found : Written) : Outcome :=
  match found with
  | ([], _) => .nothing
  | (word :: words, r) =>
      .spawn (commandPath word)
        (word :: words ++ if 0 < si then [tmpn (si - 1)] else [])
        (if si < stages - 1 then { r with output := some (tmpn si, false) } else r)

/-- A line is refused, or it is a command of the shell itself, or for each stage the program runs
that should: each stage of several has a word, and only the last one has redirected output. -/
def Right (line : List UInt8) : Prop :=
  runLine line = [.refused] ∨
  ((∀ token ∈ lex true line, token.op = false) ∧
    runLine line = [.builtin ((lex true line).map Token.text)]) ∨
  ∃ found : List Written, (stagesOf line).map (written .nothing) = found.map some ∧
    (∀ si stage, found[si]? = some stage → 1 < found.length →
      stage.1 ≠ [] ∧ (si < found.length - 1 → stage.2.output = none)) ∧
    runLine line = found.mapIdx (expected found.length)

/-- A stage fits into the arrays, and none of its words looks like an operator; it has a word, unless
the line has no tokens, and only the last one of several has redirected output. -/
structure StageFits (stages si : Nat) (tokens : List Token)
    (stage : Written) : Prop where
  plain : ∀ word ∈ stage.1, isRedirection word = false
  path : ∀ word ∈ stage.1.head?, (commandPath word).length < pathSize
  words : 1 < stages ∨ tokens ≠ [] → stage.1 ≠ []
  output : 1 < stages → si < stages - 1 → stage.2.output = none
  room : 1 < stages →
    tokens.length + (if 0 < si then 1 else 0) + (if si < stages - 1 then 1 else 0) ≤ argsMax - 3

def EndsInOperator (tokens : List Token) : Prop :=
  ∃ before op stage, tokens = before ++ [op] ∧ op.op = true ∧ isRedirection op.text = true ∧
    written .nothing before = some stage ∧ ∀ word ∈ stage.1, isRedirection word = false

/-- The tokens fit into the arrays of `tokenize` and no word is a quoted `|`; and the line is a
command of the shell without operators, or it has too many stages, or an operator at its end, or
stages that fit. -/
def Proper (line : List UInt8) : Prop :=
  (lex true line).length ≤ argsMax - 1 ∧ RoomFor (lineMax - 1) (lex true line) ∧
  (∀ token ∈ lex true line, token.op = false → token.text ≠ [124]) ∧
  if ((lex true line).map Token.text).headD [] ∈ builtins then
    ∀ token ∈ lex true line, token.op = false
  else
    8 < (stagesOf line).length ∨
    ((stagesOf line).length = 1 ∧ EndsInOperator (lex true line)) ∨
    ∃ found : List Written, (stagesOf line).map (written .nothing) = found.map some ∧
      ∀ si tokens stage, (stagesOf line)[si]? = some tokens → found[si]? = some stage →
        StageFits found.length si tokens stage

/-! ## Stages and arguments -/

theorem Redirections.add_none {r : Redirections} {text : List UInt8}
    (word : isRedirection text = false) (file : List UInt8) : r.add text file = none := by
  simp only [isRedirection, Bool.or_eq_false_iff, beq_eq_false_iff_ne] at word
  rw [Redirections.add, if_neg word.1.1, if_neg word.1.2, if_neg word.2]

theorem scan_cons {text : List UInt8} (word : isRedirection text = false) (r : Redirections)
    (rest : List (List UInt8)) :
    scan r (text :: rest) = (scan r rest).map fun found => (text :: found.1, found.2) := by
  cases rest with
  | nil =>
      have one : scan r [text] = some ([text], r) := by
        rw [scan, if_neg (by simp [word])]
      rw [one]
      rfl
  | cons file rest =>
      rw [scan, Redirections.add_none word]

/-- The shell finds the words and the redirections that are written. -/
theorem scan_of_written (r : Redirections) (tokens : List Token)
    (stage : Written) (found : written r tokens = some stage)
    (plain : ∀ word ∈ stage.1, isRedirection word = false) :
    scan r (tokens.map Token.text) = some stage := by
  induction r, tokens using written.induct generalizing stage with
  | case1 r => exact found
  | case2 r token op =>
      rw [written, if_pos op] at found
      cases found
  | case3 r token op =>
      rw [written, if_neg op] at found
      obtain rfl := Option.some.inj found
      have word := plain token.text (List.mem_singleton.mpr rfl)
      rw [List.map_cons, scan_cons word]
      rfl
  | case4 r token file rest op op' =>
      rw [written, if_pos op, if_pos op'] at found
      cases found
  | case5 r token file rest op op' known =>
      rw [written, if_pos op, if_neg op'] at found
      obtain ⟨r', added, behind⟩ := Option.bind_eq_some_iff.mp found
      rw [List.map_cons, List.map_cons, scan, added]
      exact known r' stage behind plain
  | case6 r token file rest op known =>
      rw [written, if_neg op] at found
      obtain ⟨stage', behind, rfl⟩ := Option.map_eq_some_iff.mp found
      have word := plain token.text (List.mem_cons_self ..)
      have rest_ := known stage' behind fun word there => plain word (List.mem_cons_of_mem _ there)
      rw [List.map_cons, scan_cons word, rest_]
      rfl

/-- What is behind complete arguments is scanned behind them. -/
theorem scan_append (r : Redirections) (argv : List (List UInt8))
    (stage : Written) (found : scan r argv = some stage)
    (behind : List (List UInt8)) :
    scan r (argv ++ behind) =
      (scan stage.2 behind).map fun others => (stage.1 ++ others.1, others.2) := by
  induction r, argv using scan.induct generalizing stage with
  | case1 r =>
      obtain rfl := Option.some.inj found
      rw [List.nil_append]
      cases scan r behind <;> rfl
  | case2 r text op =>
      rw [scan, if_pos op] at found
      cases found
  | case3 r text word =>
      rw [scan, if_neg word] at found
      obtain rfl := Option.some.inj found
      exact scan_cons (by simpa using word) r behind
  | case4 r text file rest r' added known =>
      rw [scan, added] at found
      rw [List.cons_append, List.cons_append, scan, added]
      exact known stage found
  | case5 r text file rest word known =>
      rw [scan, word] at found
      obtain ⟨stage', found', rfl⟩ := Option.map_eq_some_iff.mp found
      rw [List.cons_append, List.cons_append, scan, word]
      have rest_ := known stage' found'
      rw [List.cons_append] at rest_
      rw [rest_]
      cases scan stage'.2 behind <;> rfl

theorem splitAt_map {α β : Type} (text : α → β) (pipe : α → Bool) (pipe' : β → Bool)
    (tokens : List α) (same : ∀ token ∈ tokens, pipe' (text token) = pipe token) :
    splitAt_ pipe' (tokens.map text) = (splitAt_ pipe tokens).map (List.map text) := by
  induction tokens with
  | nil => rfl
  | cons token tokens known =>
      have rest := known fun other there => same other (List.mem_cons_of_mem _ there)
      rw [List.map_cons, splitAt_, splitAt_, same token (List.mem_cons_self ..), rest]
      by_cases here : pipe token = true
      · rw [if_pos here, if_pos here]
        rfl
      · rw [if_neg here, if_neg here]
        cases splitAt_ pipe tokens <;> rfl

theorem splitAt_ne_nil {α : Type} (pipe : α → Bool) (tokens : List α) :
    splitAt_ pipe tokens ≠ [] := by
  cases tokens with
  | nil => exact List.cons_ne_nil _ _
  | cons token tokens =>
      rw [splitAt_]
      split <;> exact List.cons_ne_nil _ _

theorem isRedirection_tmpn (i : Nat) : isRedirection (tmpn i) = false := by
  simp [isRedirection, tmpn]

/-- A program is started with the words and redirections that are found. -/
theorem runOne_eq {argv : List (List UInt8)} {word : List UInt8} {words : List (List UInt8)}
    {r : Redirections} (found : scan .nothing argv = some (word :: words, r))
    (path : (commandPath word).length < pathSize) :
    runOne argv = .spawn (commandPath word) (word :: words) r := by
  rw [runOne, found]
  exact if_pos path

theorem stageArgs_eq {stages si : Nat} {texts : List (List UInt8)}
    (room : texts.length + (if 0 < si then 1 else 0) + (if si < stages - 1 then 1 else 0) ≤
      argsMax - 3) :
    stageArgs stages si texts =
      texts ++ (if 0 < si then [tmpn (si - 1)] else []) ++
        (if si < stages - 1 then [[62], tmpn si] else []) := by
  have whole : texts.take (argsMax - 3) = texts := List.take_of_length_le (by omega)
  have fed : (if 0 < si ∧ texts.length < argsMax - 3 then texts ++ [tmpn (si - 1)] else texts) =
      texts ++ if 0 < si then [tmpn (si - 1)] else [] := by
    by_cases first : 0 < si
    · rw [if_pos first] at room ⊢
      rw [if_pos ⟨first, by omega⟩]
    · rw [if_neg first, if_neg fun both => first both.1, List.append_nil]
  have length : (texts ++ if 0 < si then [tmpn (si - 1)] else []).length =
      texts.length + if 0 < si then 1 else 0 := by
    rw [List.length_append]
    congr 1
    split <;> rfl
  rw [stageArgs, whole, fed]
  by_cases last : si < stages - 1
  · rw [if_pos last] at room ⊢
    rw [if_pos ⟨last, by rw [length]; omega⟩]
  · rw [if_neg last, if_neg fun both => last both.1, List.append_nil]

theorem runOne_stage {stages si : Nat} {tokens : List Token} {stage : Written}
    (found : written .nothing tokens = some stage) (fits : StageFits stages si tokens stage)
    (several : 1 < stages) :
    runOne (stageArgs stages si (tokens.map Token.text)) = expected stages si stage := by
  have scanned := scan_of_written _ _ _ found fits.plain
  obtain ⟨words, r⟩ := stage
  cases words with
  | nil => exact absurd rfl (fits.words (Or.inl several))
  | cons word words =>
      have path := fits.path word rfl
      rw [stageArgs_eq (by rw [List.length_map]; exact fits.room several), List.append_assoc]
      have whole := scan_append _ _ _ scanned ((if 0 < si then [tmpn (si - 1)] else []) ++
        if si < stages - 1 then [[62], tmpn si] else [])
      have behind : scan r ((if 0 < si then [tmpn (si - 1)] else []) ++
          if si < stages - 1 then [[62], tmpn si] else []) =
          some (if 0 < si then [tmpn (si - 1)] else [],
            if si < stages - 1 then { r with output := some (tmpn si, false) } else r) := by
        have last : scan r (if si < stages - 1 then [[62], tmpn si] else []) =
            some ([],
              if si < stages - 1 then { r with output := some (tmpn si, false) } else r) := by
          by_cases more : si < stages - 1
          · rw [if_pos more, if_pos more]
            rfl
          · rw [if_neg more, if_neg more]
            rfl
        by_cases first : 0 < si
        · rw [if_pos first, List.singleton_append, scan_cons (isRedirection_tmpn _), last]
          rfl
        · rw [if_neg first, List.nil_append, last]
      rw [behind] at whole
      exact runOne_eq whole path

theorem runSingle_operator {tokens : List Token} (ends : EndsInOperator tokens) :
    runSingle (tokens.map Token.text) = [.refused] := by
  obtain ⟨before, op, stage, rfl, -, operator, found, plain⟩ := ends
  have scanned := scan_append _ _ _ (scan_of_written _ _ _ found plain) [op.text]
  have last : scan stage.2 [op.text] = none := by
    rw [scan, if_pos operator]
  rw [last, Option.map_none] at scanned
  rw [List.map_append, List.map_singleton, runSingle, runOne, scanned]
  rfl

theorem splitAt_single {α : Type} {pipe : α → Bool} {tokens : List α}
    (one : (splitAt_ pipe tokens).length = 1) : splitAt_ pipe tokens = [tokens] := by
  induction tokens with
  | nil => rfl
  | cons token tokens known =>
      have some_ := List.length_pos_iff.mpr (splitAt_ne_nil pipe tokens)
      rw [splitAt_] at one ⊢
      by_cases here : pipe token = true
      · rw [if_pos here, List.length_cons] at one
        omega
      · rw [if_neg here, List.length_cons, List.length_tail] at one
        rw [if_neg here, known (by omega)]
        rfl

theorem runSingle_eq {tokens : List Token} {stage : Written} (some_ : tokens ≠ [])
    (found : written .nothing tokens = some stage) (fits : StageFits 1 0 tokens stage) :
    runSingle (tokens.map Token.text) = [expected 1 0 stage] := by
  have scanned := scan_of_written _ _ _ found fits.plain
  obtain ⟨words, r⟩ := stage
  cases words with
  | nil => exact absurd rfl (fits.words (Or.inr some_))
  | cons word words =>
      rw [runSingle, runOne_eq scanned (fits.path word rfl), scanned, expected,
        if_neg (Nat.lt_irrefl 0), if_neg (Nat.lt_irrefl 0), List.append_nil]

theorem runOne_several {stages : List (List Token)} {found : List Written}
    (written_ : stages.map (written .nothing) = found.map some) (several : 1 < stages.length)
    (fits : ∀ si tokens stage, stages[si]? = some tokens → found[si]? = some stage →
      StageFits found.length si tokens stage) :
    (stages.map (List.map Token.text)).mapIdx
        (fun si texts => runOne (stageArgs (stages.map (List.map Token.text)).length si texts)) =
      found.mapIdx (expected found.length) := by
  have length : stages.length = found.length := by
    have same := congrArg List.length written_
    rwa [List.length_map, List.length_map] at same
  apply List.ext_getElem?
  intro si
  rw [List.getElem?_mapIdx, List.getElem?_mapIdx, List.getElem?_map, List.length_map]
  have here := congrArg (fun list => list[si]?) written_
  simp only [List.getElem?_map] at here
  cases there : stages[si]? with
  | none =>
      rw [there, Option.map_none] at here
      rw [Option.map_eq_none_iff.mp here.symm]
      rfl
  | some tokens =>
      rw [there, Option.map_some] at here
      obtain ⟨stage, there', same⟩ := Option.map_eq_some_iff.mp here.symm
      rw [there', Option.map_some, Option.map_some, Option.map_some, length]
      exact congrArg some (runOne_stage same.symm (fits si tokens stage there there')
        (length ▸ several))

def listing : List UInt8 := [108, 115, 32, 45, 108, 32, 124, 32, 119, 99, 32, 62, 32, 102]

/-- A first stage of 13 words in front of a second one: `a a a a a a a a a a a a a|b`. -/
def thirteenWords : List UInt8 := (List.replicate 13 [97, 32]).flatten ++ [124, 98]

end UserShell

end Trinux
