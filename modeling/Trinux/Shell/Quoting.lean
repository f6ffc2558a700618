import Trinux.Shell.UserPipeline

namespace Trinux

/-!
# Quoted text on a command line

Both shells look for operators more than once: the shell of the kernel for `|` in the raw line,
and both of them in the texts of the arguments, of which the quotes have been removed.  A quoted
text that looks like an operator is then taken for one.
-/

namespace CommandLine

def argumentsOf (takes : Token → Bool) : List Token → List Token × List Token
  | [] => ([], [])
  | [token] => if takes token = true then ([], []) else ([token], [])
  | token :: file :: rest =>
      if takes token = true then
        ((argumentsOf takes rest).1, file :: (argumentsOf takes rest).2)
      else (token :: (argumentsOf takes (file :: rest)).1, (argumentsOf takes (file :: rest)).2)

/-! ## What is quoted belongs to a word -/

def quotedAfter (quoted : Bool) (before : List UInt8) : Bool :=
  before.foldl (fun quoted c => if c = 34 then !quoted else quoted) quoted

theorem lexFrom_append (pipes : Bool) (begun : Begun) (quoted : Bool) (before src : List UInt8) :
    ∃ tokens begun', lexFrom pipes begun quoted (before ++ src) =
      tokens ++ lexFrom pipes begun' (quotedAfter quoted before) src := by
  induction before generalizing begun quoted with
  | nil => exact ⟨[], begun, rfl⟩
  | cons c before known =>
      have more (tokens : List Token) (begun' : Begun) (quoted' : Bool)
          (same : quotedAfter quoted (c :: before) = quotedAfter quoted' before) :
          ∃ tokens' begun'', tokens ++ lexFrom pipes begun' quoted' (before ++ src) =
            tokens' ++ lexFrom pipes begun'' (quotedAfter quoted (c :: before)) src := by
        obtain ⟨tokens', begun'', rest⟩ := known begun' quoted'
        exact ⟨tokens ++ tokens', begun'', by rw [rest, same, List.append_assoc]⟩
      rw [List.cons_append, lexFrom]
      by_cases quote : c = 34
      · rw [if_pos quote]
        exact more _ _ _ (by simp [quotedAfter, quote])
      have outside : quotedAfter quoted (c :: before) = quotedAfter quoted before := by
        simp [quotedAfter, quote]
      rw [if_neg quote]
      by_cases blank : quoted = false ∧ isBlank c = true
      · rw [if_pos blank]
        exact more _ _ _ (by rw [outside, blank.1])
      rw [if_neg blank]
      by_cases operator : quoted = false ∧ isOperator pipes c = true
      · rw [if_pos operator]
        exact more _ _ _ (by rw [outside, operator.1])
      · rw [if_neg operator]
        exact more _ _ _ outside

theorem lexFrom_quoted (pipes : Bool) (word text src : List UInt8) (plain : 34 ∉ text) :
    lexFrom pipes (.word word) true (text ++ src) =
      lexFrom pipes (.word (word ++ text)) true src := by
  induction text generalizing word with
  | nil => rw [List.nil_append, List.append_nil]
  | cons c text known =>
      have quote : c ≠ 34 := fun same => plain (same ▸ List.mem_cons_self ..)
      rw [List.cons_append, lexFrom, if_neg quote, if_neg (by simp), if_neg (by simp)]
      have rest := known (word ++ [c]) fun there => plain (List.mem_cons_of_mem _ there)
      rw [List.append_assoc] at rest
      exact rest

/-- Whatever stands between two quotes is a part of one word. -/
theorem quoted_mem_lex (pipes : Bool) (before text after : List UInt8)
    (outside : quotedAfter false before = false) (plain : 34 ∉ text) :
    ∃ token ∈ lex pipes (before ++ 34 :: text ++ 34 :: after),
      token.op = false ∧ text <:+: token.text := by
  obtain ⟨tokens, begun, whole⟩ :=
    lexFrom_append pipes .nothing false before (34 :: text ++ 34 :: after)
  have word : lexFrom pipes begun false (34 :: text ++ 34 :: after) =
      begun.closed ++ lexFrom pipes (.word (begun.text ++ text)) false after := by
    rw [List.cons_append, lexFrom, if_pos rfl, Bool.not_false, lexFrom_quoted _ _ _ _ plain,
      lexFrom, if_pos rfl]
    rfl
  rw [lexFrom_word] at word
  rw [lex, List.append_assoc, whole, outside, word]
  refine ⟨_, List.mem_append_right _ (List.mem_append_right _ (List.mem_cons_self ..)), rfl, ?_⟩
  exact ⟨begun.text, _, rfl⟩

end CommandLine

/-! ## The shell of the kernel -/

namespace KernelShell

open CommandLine UserShell

def shellMaxArgs : Nat := 32

def splitPipeline : (more : Nat) → List UInt8 → List (List UInt8)
  | _, [] => [[]]
  | more, c :: src =>
      if c = 124 ∧ 0 < more then [] :: splitPipeline (more - 1) src
      else (c :: (splitPipeline more src).headD []) :: (splitPipeline more src).tail

/-- The loop of `run_pipeline` for `<`: the arguments that are left and the files. -/
def readInput : List (List UInt8) → List (List UInt8) × List (List UInt8)
  | [] => ([], [])
  | [text] => if text = [60] then ([], []) else ([text], [])
  | text :: file :: rest =>
      if text = [60] then ((readInput rest).1, file :: (readInput rest).2)
      else (text :: (readInput (file :: rest)).1, (readInput (file :: rest)).2)

/-- What `run_pipeline` makes of a line: the arguments of each stage and the files for `<`. -/
def runPipeline (line : List UInt8) : List (List (List UInt8) × List (List UInt8)) :=
  (splitPipeline (shellMaxArgs - 1) line).map fun stage =>
    readInput ((tokenize false (shellMaxArgs - 1) (lineMax - 1) (stage.take (lineMax - 1))).map
      Token.text)

def takesInput (token : Token) : Bool := token.op && token.text == [60]

/-- The stages are those that the operators `|` make; the arguments and files are its tokens, and
what looks like an operator to a command is one. -/
def Right (line : List UInt8) : Prop :=
  runPipeline line = (stagesOf line).map (fun tokens =>
    ((argumentsOf takesInput tokens).1.map Token.text,
      (argumentsOf takesInput tokens).2.map Token.text)) ∧
  ∀ tokens ∈ stagesOf line, ∀ token ∈ (argumentsOf takesInput tokens).1,
    isRedirection token.text = true → token.op = true

def PipesOutside : (quoted : Bool) → List UInt8 → Prop
  | _, [] => True
  | quoted, c :: src =>
      (quoted = true → c ≠ 124) ∧ PipesOutside (if c = 34 then !quoted else quoted) src

instance decidablePipesOutside (quoted : Bool) (line : List UInt8) :
    Decidable (PipesOutside quoted line) := by
  induction line generalizing quoted with
  | nil => exact .isTrue trivial
  | cons c src known => exact @instDecidableAnd _ _ _ (known _)

/-- A line in the array of the shell has no quoted `|` and not too many stages, each of which fits
into the arrays of `tokenize`; and no argument that is no operator looks like one. -/
def Proper (line : List UInt8) : Prop :=
  line.length ≤ lineMax - 1 ∧ PipesOutside false line ∧ (stagesOf line).length ≤ shellMaxArgs ∧
  ∀ tokens ∈ stagesOf line, tokens.length ≤ shellMaxArgs - 1 ∧ RoomFor (lineMax - 1) tokens ∧
    ∀ token ∈ (argumentsOf takesInput tokens).1, isRedirection token.text = true → token.op = true

theorem splitPipeline_eq (more : Nat) (line : List UInt8)
    (few : (splitAt_ (· == 124) line).length ≤ more + 1) :
    splitPipeline more line = splitAt_ (· == 124) line := by
  induction line generalizing more with
  | nil => rfl
  | cons c src known =>
      rw [splitAt_] at few ⊢
      rw [splitPipeline]
      have some_ := List.length_pos_iff.mpr (splitAt_ne_nil (· == 124) src)
      by_cases pipe : c = 124
      · rw [if_pos (by simp [pipe]), List.length_cons] at few
        rw [if_pos ⟨pipe, by omega⟩, if_pos (by simp [pipe]), known (more - 1) (by omega)]
      · rw [if_neg (by simp [pipe]), List.length_cons, List.length_tail] at few
        rw [if_neg fun both => pipe both.1, if_neg (by simp [pipe]), known more (by omega)]

theorem splitAt_length_le {α : Type} (pipe : α → Bool) (line stage : List α)
    (there : stage ∈ splitAt_ pipe line) : stage.length ≤ line.length := by
  induction line generalizing stage with
  | nil =>
      obtain rfl := List.mem_singleton.mp there
      exact Nat.zero_le _
  | cons c src known =>
      rw [splitAt_] at there
      by_cases here : pipe c = true
      · rw [if_pos here] at there
        rcases List.mem_cons.mp there with rfl | there
        · exact Nat.zero_le _
        · exact Nat.le_succ_of_le (known stage there)
      · rw [if_neg here] at there
        rcases List.mem_cons.mp there with rfl | there
        · obtain ⟨first, others, stages⟩ := List.exists_cons_of_ne_nil (splitAt_ne_nil pipe src)
          rw [stages]
          exact Nat.succ_le_succ (known first (stages ▸ List.mem_cons_self ..))
        · exact Nat.le_succ_of_le (known stage (List.mem_of_mem_tail there))

theorem splitAt_pipe {α : Type} (pipe : α → Bool) {token : α} (rest : List α)
    (here : pipe token = true) : splitAt_ pipe (token :: rest) = [] :: splitAt_ pipe rest := by
  rw [splitAt_, if_pos here]

theorem splitAt_append {α : Type} (pipe : α → Bool) (before rest : List α)
    (words : ∀ token ∈ before, pipe token = false) :
    splitAt_ pipe (before ++ rest) =
      (before ++ (splitAt_ pipe rest).headD []) :: (splitAt_ pipe rest).tail := by
  induction before with
  | nil =>
      cases stages : splitAt_ pipe rest with
      | nil => exact absurd stages (splitAt_ne_nil pipe rest)
      | cons first others =>
          rw [List.nil_append, stages]
          rfl
  | cons token before known =>
      rw [List.cons_append, splitAt_, if_neg (by simp [words token (List.mem_cons_self ..)]),
        known fun other there => words other (List.mem_cons_of_mem _ there)]
      rfl

theorem tokens_words (begun : Begun) : ∀ token ∈ begun.tokens, isPipe token = false := by
  intro token there
  cases begun with
  | nothing => cases there
  | greater => rw [List.mem_singleton.mp there]; rfl
  | word text => rw [List.mem_singleton.mp there]; rfl

theorem closed_words (begun : Begun) : ∀ token ∈ begun.closed, isPipe token = false := by
  intro token there
  cases begun with
  | nothing => cases there
  | greater => rw [List.mem_singleton.mp there]; rfl
  | word text => cases there

theorem operator_words (begun : Begun) {c : UInt8} (other : c ≠ 124) :
    ∀ token ∈ (begun.operator c).1, isPipe token = false := by
  have single : ∀ token ∈ (operatorFrom c).1, isPipe token = false := by
    intro token there
    rw [operatorFrom] at there
    by_cases greater : c = 62
    · rw [if_pos greater] at there
      cases there
    · rw [if_neg greater] at there
      rw [List.mem_singleton.mp there]
      simp [isPipe, other]
  intro token there
  cases begun with
  | nothing => exact single token there
  | word text =>
      rcases List.mem_cons.mp there with rfl | there
      · rfl
      · exact single token there
  | greater =>
      rw [Begun.operator] at there
      by_cases greater : c = 62
      · rw [if_pos greater] at there
        rw [List.mem_singleton.mp there]
        rfl
      · rw [if_neg greater] at there
        rcases List.mem_cons.mp there with rfl | there
        · rfl
        · exact single token there

theorem operator_pipe (begun : Begun) :
    begun.operator 124 = (begun.tokens ++ [⟨[124], true⟩], .nothing) := by
  cases begun <;> rfl

/-- If no `|` is quoted, the stages of the raw line have the tokens of the stages of the line. -/
theorem splitAt_lexFrom (begun : Begun) (quoted : Bool) (line : List UInt8)
    (outside : PipesOutside quoted line) :
    splitAt_ isPipe (lexFrom true begun quoted line) =
      lexFrom false begun quoted ((splitAt_ (· == 124) line).headD []) ::
        (splitAt_ (· == 124) line).tail.map (lex false) := by
  induction line generalizing begun quoted with
  | nil =>
      have words := splitAt_append isPipe begun.tokens [] (tokens_words begun)
      rw [List.append_nil] at words
      change splitAt_ isPipe begun.tokens = [begun.tokens]
      simpa [splitAt_] using words
  | cons c src known =>
      obtain ⟨here, behind⟩ := outside
      have more {tokens : List Token} (words : ∀ token ∈ tokens, isPipe token = false)
          (begun' : Begun) (quoted' : Bool) (outside : PipesOutside quoted' src) :
          splitAt_ isPipe (tokens ++ lexFrom true begun' quoted' src) =
            (tokens ++ lexFrom false begun' quoted' ((splitAt_ (· == 124) src).headD [])) ::
              (splitAt_ (· == 124) src).tail.map (lex false) := by
        rw [splitAt_append isPipe tokens _ words, known begun' quoted' outside]
        rfl
      by_cases pipe : c = 124
      · subst pipe
        have unquoted : quoted = false := by
          cases quoted with
          | false => rfl
          | true => exact absurd rfl (here rfl)
        subst unquoted
        have stages : lexFrom true begun false (124 :: src) =
            begun.tokens ++ ⟨[124], true⟩ :: lexFrom true .nothing false src := by
          rw [lexFrom, if_neg (by decide), if_neg (by decide), if_pos (by decide), operator_pipe,
            List.append_assoc]
          rfl
        rw [stages, splitAt_append isPipe _ _ (tokens_words begun), splitAt_pipe isPipe _ rfl,
          splitAt_pipe (· == 124) _ rfl, known .nothing false behind]
        obtain ⟨first, others, raw⟩ := List.exists_cons_of_ne_nil (splitAt_ne_nil (· == 124) src)
        rw [raw]
        simp [lexFrom, lex]
      · have raw : splitAt_ (· == 124) (c :: src) =
            (c :: (splitAt_ (· == 124) src).headD []) :: (splitAt_ (· == 124) src).tail := by
          rw [splitAt_, if_neg (by simp [pipe])]
        have same : isOperator true c = isOperator false c := by
          simp [isOperator, pipe]
        rw [raw, List.headD_cons, List.tail_cons, lexFrom, lexFrom, same]
        by_cases quote : c = 34
        · rw [if_pos quote] at behind
          rw [if_pos quote, if_pos quote]
          exact more (closed_words begun) _ _ behind
        rw [if_neg quote] at behind
        rw [if_neg quote, if_neg quote]
        by_cases blank : quoted = false ∧ isBlank c = true
        · rw [if_pos blank, if_pos blank]
          exact more (tokens_words begun) _ _ (blank.1 ▸ behind)
        rw [if_neg blank, if_neg blank]
        by_cases operator : quoted = false ∧ isOperator false c = true
        · rw [if_pos operator, if_pos operator]
          exact more (operator_words begun pipe) _ _ (operator.1 ▸ behind)
        · rw [if_neg operator, if_neg operator]
          exact more (closed_words begun) _ _ behind

theorem stagesOf_eq (line : List UInt8) (outside : PipesOutside false line) :
    stagesOf line = (splitAt_ (· == 124) line).map (lex false) := by
  have stages := splitAt_lexFrom .nothing false line outside
  obtain ⟨first, others, raw⟩ := List.exists_cons_of_ne_nil (splitAt_ne_nil (· == 124) line)
  rw [raw] at stages ⊢
  exact stages

/-- The loop for `<` takes the operators if no argument looks like one. -/
theorem readInput_eq (tokens : List Token)
    (plain : ∀ token ∈ (argumentsOf takesInput tokens).1,
      isRedirection token.text = true → token.op = true) :
    readInput (tokens.map Token.text) =
      ((argumentsOf takesInput tokens).1.map Token.text,
        (argumentsOf takesInput tokens).2.map Token.text) := by
  have word {token : Token} (not_ : ¬takesInput token = true)
      (plain : isRedirection token.text = true → token.op = true) : token.text ≠ [60] := by
    intro less
    have op := plain (by simp [less, isRedirection])
    exact not_ (by simp [takesInput, op, less])
  have less {token : Token} (takes : takesInput token = true) : token.text = [60] := by
    simp only [takesInput, Bool.and_eq_true, beq_iff_eq] at takes
    exact takes.2
  induction tokens using (argumentsOf.induct takesInput) with
  | case1 => rfl
  | case2 token takes =>
      rw [List.map_cons, List.map_nil, readInput, if_pos (less takes), argumentsOf, if_pos takes]
      rfl
  | case3 token not_ =>
      rw [argumentsOf, if_neg not_] at plain ⊢
      rw [List.map_cons, List.map_nil, readInput,
        if_neg (word not_ (plain token (List.mem_cons_self ..)))]
  | case4 token file rest takes known =>
      rw [argumentsOf, if_pos takes] at plain ⊢
      rw [List.map_cons, List.map_cons, readInput, if_pos (less takes), known plain]
      rfl
  | case5 token file rest not_ known =>
      rw [argumentsOf, if_neg not_] at plain ⊢
      have rest_ := known fun other there => plain other (List.mem_cons_of_mem _ there)
      rw [List.map_cons] at rest_
      rw [List.map_cons, List.map_cons, readInput,
        if_neg (word not_ (plain token (List.mem_cons_self ..))), rest_]
      rfl

/-- The shell of the kernel takes no quoted text for an operator in such lines. -/
theorem runPipeline_right (line : List UInt8) (proper : Proper line) : Right line := by
  obtain ⟨short, outside, few, fits⟩ := proper
  have stages := stagesOf_eq line outside
  have split_ : splitPipeline (shellMaxArgs - 1) line = splitAt_ (· == 124) line := by
    refine splitPipeline_eq _ line ?_
    rw [stages, List.length_map] at few
    exact few
  refine ⟨?_, fun tokens there => (fits tokens there).2.2⟩
  rw [runPipeline, split_, stages, List.map_map]
  refine List.map_congr_left fun stage there => ?_
  have length := splitAt_length_le (· == 124) line stage there
  obtain ⟨slots, room, plain⟩ := fits (lex false stage)
    (stages ▸ List.mem_map_of_mem there)
  rw [List.take_of_length_le (Nat.le_trans length short), tokenize_eq_lex _ _ _ _ slots room]
  exact readInput_eq _ plain

end KernelShell

/-! ## The shell of the users -/

namespace UserShell

open CommandLine

def takesFile (token : Token) : Bool := token.op && isRedirection token.text

def scanTokens : Redirections → List Token → Option (List Token × Redirections)
  | r, [] => some ([], r)
  | r, [token] => if takesFile token = true then none else some ([token], r)
  | r, token :: file :: rest =>
      if takesFile token = true then
        (r.add token.text file.text).bind fun r => scanTokens r rest
      else (scanTokens r (file :: rest)).map fun found => (token :: found.1, found.2)

def startTokens : Option (List Token × Redirections) → Outcome
  | none => .refused
  | some ([], _) => .nothing
  | some (word :: words, r) =>
      .spawn (commandPath word.text) (word.text :: words.map Token.text) r

def runTokens (tokens : List Token) : Outcome := startTokens (scanTokens .nothing tokens)

/-- The tokens of a stage, with the file of the stage before and that for the next one. -/
def stageTokens (stages si : Nat) (tokens : List Token) : List Token :=
  tokens ++ (if 0 < si then [⟨tmpn (si - 1), false⟩] else []) ++
    if si < stages - 1 then [⟨[62], true⟩, ⟨tmpn si, false⟩] else []

def stageLists (tokens : List Token) : List (List Token) :=
  if (splitAt_ isPipe tokens).length = 1 then [tokens]
  else (splitAt_ isPipe tokens).mapIdx (stageTokens (splitAt_ isPipe tokens).length)

/-- What a line asks for: only operators cut it into stages, and no array bounds its words. -/
def dispatchTokens (tokens : List Token) : List Outcome :=
  if tokens = [] then [.nothing]
  else if (tokens.map Token.text).headD [] ∈ builtins then [.builtin (tokens.map Token.text)]
  else if 8 < (splitAt_ isPipe tokens).length then [.refused]
  else (stageLists tokens).map runTokens

/-- The shell takes exactly the operators of a line for operators, and exactly its words for
words. -/
def ReadsRight (line : List UInt8) : Prop := runLine line = dispatchTokens (lex true line)

/-- A stage of a line fits into the arrays of the shell: there is room for its tokens and for those of
the files between stages, its program has a path that is not too long, and it has a word if it is the
only stage. -/
structure StageRoom (stages si : Nat) (tokens : List Token) : Prop where
  room : 1 < stages →
    tokens.length + (if 0 < si then 1 else 0) + (if si < stages - 1 then 1 else 0) ≤ argsMax - 3
  path : ∀ word ∈ (argumentsOf takesFile (stageTokens stages si tokens)).1.head?,
    (commandPath word.text).length < pathSize
  words : stages = 1 → tokens ≠ [] → (argumentsOf takesFile tokens).1 ≠ []

/-- The tokens fit into the arrays of the shell; no word is a quoted `|`, and no word of a stage
but a file looks like an operator. -/
def Plain (line : List UInt8) : Prop :=
  (lex true line).length ≤ argsMax - 1 ∧ RoomFor (lineMax - 1) (lex true line) ∧
  (∀ token ∈ lex true line, token.op = false → token.text ≠ [124]) ∧
  (∀ tokens ∈ stageLists (lex true line), ∀ token ∈ (argumentsOf takesFile tokens).1,
    isRedirection token.text = true → token.op = true) ∧
  ∀ si tokens, (stagesOf line)[si]? = some tokens → StageRoom (stagesOf line).length si tokens

theorem Redirections.add_isSome {r : Redirections} {op : List UInt8}
    (operator : isRedirection op = true) (file : List UInt8) :
    ∃ r', r.add op file = some r' := by
  simp only [isRedirection, Bool.or_eq_true, beq_iff_eq] at operator
  rcases operator with (rfl | rfl) | rfl <;> exact ⟨_, rfl⟩

/-- The loop takes the operators if no argument looks like one. -/
theorem scan_eq (r : Redirections) (tokens : List Token)
    (plain : ∀ token ∈ (argumentsOf takesFile tokens).1,
      isRedirection token.text = true → token.op = true) :
    scan r (tokens.map Token.text) =
      (scanTokens r tokens).map fun found => (found.1.map Token.text, found.2) := by
  have word {token : Token} (not_ : ¬takesFile token = true)
      (plain : isRedirection token.text = true → token.op = true) :
      isRedirection token.text = false := by
    cases looks : isRedirection token.text with
    | false => rfl
    | true => exact absurd (by simp [takesFile, plain looks, looks]) not_
  have looks {token : Token} (takes : takesFile token = true) :
      isRedirection token.text = true := by
    simp only [takesFile, Bool.and_eq_true] at takes
    exact takes.2
  induction tokens using (argumentsOf.induct takesFile) generalizing r with
  | case1 => rfl
  | case2 token takes =>
      rw [List.map_cons, List.map_nil, scan, if_pos (looks takes), scanTokens, if_pos takes]
      rfl
  | case3 token not_ =>
      rw [argumentsOf, if_neg not_] at plain
      rw [List.map_cons, List.map_nil, scan,
        if_neg (by simp [word not_ (plain token (List.mem_cons_self ..))]), scanTokens,
        if_neg not_]
      rfl
  | case4 token file rest takes known =>
      rw [argumentsOf, if_pos takes] at plain
      obtain ⟨r', added⟩ := @Redirections.add_isSome r _ (looks takes) file.text
      rw [List.map_cons, List.map_cons, scan, scanTokens, if_pos takes, added]
      exact known r' plain
  | case5 token file rest not_ known =>
      rw [argumentsOf, if_neg not_] at plain
      have rest_ := known r fun other there => plain other (List.mem_cons_of_mem _ there)
      rw [List.map_cons, scan_cons (word not_ (plain token (List.mem_cons_self ..))), rest_,
        scanTokens, if_neg not_]
      cases scanTokens r (file :: rest) <;> rfl

theorem scanTokens_words (r : Redirections) (tokens : List Token) {found : List Token × Redirections}
    (scanned : scanTokens r tokens = some found) : found.1 = (argumentsOf takesFile tokens).1 := by
  induction r, tokens using scanTokens.induct generalizing found with
  | case1 r =>
      cases scanned
      rfl
  | case2 r token takes =>
      rw [scanTokens, if_pos takes] at scanned
      cases scanned
  | case3 r token not_ =>
      rw [scanTokens, if_neg not_] at scanned
      cases scanned
      rw [argumentsOf, if_neg not_]
  | case4 r token file rest takes known =>
      rw [scanTokens, if_pos takes] at scanned
      obtain ⟨r', -, behind⟩ := Option.bind_eq_some_iff.mp scanned
      rw [argumentsOf, if_pos takes]
      exact known r' behind
  | case5 r token file rest not_ known =>
      rw [scanTokens, if_neg not_] at scanned
      obtain ⟨found', behind, rfl⟩ := Option.map_eq_some_iff.mp scanned
      rw [argumentsOf, if_neg not_]
      exact congrArg (token :: ·) (known behind)

/-- There is room for the path of the program, so that it is started as it is asked for. -/
theorem runOne_eq_runTokens {tokens : List Token}
    (plain : ∀ token ∈ (argumentsOf takesFile tokens).1,
      isRedirection token.text = true → token.op = true)
    (path : ∀ word ∈ (argumentsOf takesFile tokens).1.head?,
      (commandPath word.text).length < pathSize) :
    runOne (tokens.map Token.text) = runTokens tokens := by
  rw [runOne, runTokens, scan_eq _ _ plain]
  cases scanned : scanTokens .nothing tokens with
  | none => rfl
  | some found =>
      rw [← scanTokens_words _ _ scanned] at path
      obtain ⟨_ | ⟨word, words⟩, r⟩ := found
      · rfl
      · exact if_pos (path word rfl)

theorem stageTokens_text {stages si : Nat} {tokens : List Token}
    (room : tokens.length + (if 0 < si then 1 else 0) + (if si < stages - 1 then 1 else 0) ≤
      argsMax - 3) :
    stageArgs stages si (tokens.map Token.text) =
      (stageTokens stages si tokens).map Token.text := by
  rw [stageArgs_eq (by rw [List.length_map]; exact room), stageTokens, List.map_append,
    List.map_append]
  congr 1
  · congr 1
    split <;> rfl
  · split <;> rfl

/-- The shell of the users takes no quoted text for an operator in such lines. -/
theorem runLine_readsRight (line : List UInt8) (plain : Plain line) : ReadsRight line := by
  obtain ⟨few, fits, pipes, words, rooms⟩ := plain
  have texts : (tokenize true (argsMax - 1) (lineMax - 1) line).map Token.text =
      (lex true line).map Token.text :=
    congrArg (List.map Token.text) (tokenize_eq_lex true _ _ line few fits)
  have stages : splitAt_ (· == [124]) ((lex true line).map Token.text) =
      (splitAt_ isPipe (lex true line)).map (List.map Token.text) := by
    refine splitAt_map _ _ _ _ fun token there => ?_
    rw [isPipe]
    cases op : token.op with
    | true => rfl
    | false => simpa using pipes token there op
  rw [stagesOf] at rooms
  rw [ReadsRight, runLine, texts, dispatch, dispatchTokens]
  by_cases empty : lex true line = []
  · rw [if_pos (List.map_eq_nil_iff.mpr empty), if_pos empty]
  rw [if_neg (mt List.map_eq_nil_iff.mp empty), if_neg empty]
  by_cases own : ((lex true line).map Token.text).headD [] ∈ builtins
  · rw [if_pos own, if_pos own]
  rw [if_neg own, if_neg own]
  dsimp only
  rw [stages, List.length_map]
  rw [stageLists] at words ⊢
  by_cases one : (splitAt_ isPipe (lex true line)).length = 1
  · have whole := splitAt_single one
    rw [if_pos one] at words ⊢
    have room := rooms 0 (lex true line) (by rw [whole]; rfl)
    rw [one] at room
    have plain := words _ (List.mem_singleton.mpr rfl)
    have path := room.path
    rw [stageTokens, if_neg (Nat.lt_irrefl 0), if_neg (Nat.lt_irrefl 0), List.append_nil,
      List.append_nil] at path
    have word : ∀ r, scan .nothing ((lex true line).map Token.text) ≠ some ([], r) := by
      intro r nothing
      rw [scan_eq _ _ plain] at nothing
      obtain ⟨found, scanned, none_⟩ := Option.map_eq_some_iff.mp nothing
      have empty' := List.map_eq_nil_iff.mp (congrArg Prod.fst none_)
      rw [scanTokens_words _ _ scanned] at empty'
      exact room.words rfl empty empty'
    rw [if_neg (by omega), if_pos one, runSingle, runOne_eq_runTokens plain path]
    split
    · rename_i r nothing
      exact absurd nothing (word r)
    · rfl
  rw [if_neg one] at words ⊢
  rw [if_neg one]
  by_cases many : 8 < (splitAt_ isPipe (lex true line)).length
  · rw [if_pos many, if_pos many]
  rw [if_neg many, if_neg many]
  have some_ := List.length_pos_iff.mpr (splitAt_ne_nil isPipe (lex true line))
  apply List.ext_getElem?
  intro si
  rw [List.getElem?_mapIdx, List.getElem?_map, List.getElem?_map, List.getElem?_mapIdx]
  cases there : (splitAt_ isPipe (lex true line))[si]? with
  | none => rfl
  | some tokens =>
      have listed : stageTokens (splitAt_ isPipe (lex true line)).length si tokens ∈
          (splitAt_ isPipe (lex true line)).mapIdx
            (stageTokens (splitAt_ isPipe (lex true line)).length) := by
        refine List.mem_iff_getElem?.mpr ⟨si, ?_⟩
        rw [List.getElem?_mapIdx, there]
        rfl
      have room := rooms si tokens there
      have run := runOne_eq_runTokens (words _ listed) room.path
      rw [← stageTokens_text (room.room (by omega))] at run
      exact congrArg some run

end UserShell

/-! ## Both shells -/

open CommandLine

def quotedBlank : List UInt8 := [101, 32, 34, 97, 32, 98, 34, 124, 102, 60, 103]

def quotedPipe : List UInt8 := [101, 32, 34, 124, 34, 32, 102]

def quotedLess : List UInt8 := [101, 32, 34, 60, 34, 32, 102]

end Trinux
