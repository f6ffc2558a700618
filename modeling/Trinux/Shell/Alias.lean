import Trinux.Auth.UserFiles
import Trinux.Lib.Stopping
import Mathlib.Data.Set.Finite.List
import Mathlib.Logic.Relation
import Mathlib.Data.Fintype.Pigeonhole

namespace Trinux

/-!
# Aliases

`commands_dispatch` writes the value of an alias to one static buffer, cuts it into words there, and
calls itself with pointers to these words.  The next call compares the first new word with its own
name only after it has written the buffer anew, so its name may have changed by then.
-/

/-! ## The table -/

structure AliasEntry where
  name : List UInt8
  value : List UInt8
  isText : 0 ∉ value
  fits : value.length < 128

/-- `strncat` of one argument to the value; behind a full buffer its bound wraps around. -/
def appendArg (value arg : List UInt8) : Option (List UInt8) :=
  if value.length ≤ 126 then some (value ++ arg.take (126 - value.length))
  else if arg = [] then some value
  else none

def appendSpace (value : List UInt8) : List UInt8 :=
  value ++ [(32 : UInt8)].take (127 - value.length)

/-- The value that `cmd_alias` makes of its arguments, if it stays in its buffer. -/
def aliasValue : List (List UInt8) → List UInt8 → Option (List UInt8)
  | [], value => some value
  | [arg], value => appendArg value arg
  | arg :: rest, value =>
      (appendArg value arg).bind fun value => aliasValue rest (appendSpace value)

def aliasEntry (name : List UInt8) (value : CString) : AliasEntry where
  name := name.take 31
  value := value.1.take 127
  isText := fun zero => value.2 (List.mem_of_mem_take zero)
  fits := by
    rw [List.length_take]
    omega

theorem appendArg_text {value arg value' : List UInt8} (isText : 0 ∉ value) (argText : 0 ∉ arg)
    (appended : appendArg value arg = some value') : 0 ∉ value' := by
  rw [appendArg] at appended
  split at appended
  · cases appended
    intro zero
    rcases List.mem_append.mp zero with old | new
    · exact isText old
    · exact argText (List.mem_of_mem_take new)
  split at appended
  · cases appended
    exact isText
  · cases appended

theorem aliasValue_text {args : List CString} :
    ∀ {value value' : List UInt8}, 0 ∉ value →
      aliasValue (args.map Subtype.val) value = some value' → 0 ∉ value' := by
  induction args with
  | nil =>
      intro value value' isText made
      cases made
      exact isText
  | cons arg rest known =>
      intro value value' isText made
      cases rest with
      | nil => exact appendArg_text isText arg.2 made
      | cons next rest =>
          rcases Option.bind_eq_some_iff.mp made with ⟨middle, appended, later⟩
          refine known (fun zero => ?_) later
          rcases List.mem_append.mp zero with old | space
          · exact appendArg_text isText arg.2 appended old
          · exact absurd (List.mem_of_mem_take space) (by decide)

/-- What `cmd_alias` does with the value: it replaces that of the first entry of the name, or adds
an entry if there is room. -/
def setAlias (name value : CString) (table : List AliasEntry) : List AliasEntry :=
  match table.findIdx? fun entry => entry.name = name.1 with
  | some index => table.modify index fun entry => { aliasEntry name value with name := entry.name }
  | none => if table.length < 16 then table ++ [aliasEntry name value] else table

def cmdAlias (table : List AliasEntry) (args : List CString) : Option (List AliasEntry) :=
  match args with
  | [] | [_] => some table
  | name :: rest =>
      match made : aliasValue (rest.map Subtype.val) [] with
      | none => none
      | some value => some (setAlias name ⟨value, aliasValue_text List.not_mem_nil made⟩ table)

/-! ## The expansion -/

inductive AliasArg where
  | own (text : List UInt8)
  | within (offset : Nat)

def textAt (buf : List UInt8) (offset : Nat) : List UInt8 := (buf.drop offset).takeWhile (· ≠ 0)

def AliasArg.text (buf : List UInt8) : AliasArg → List UInt8
  | own text => text
  | within offset => textAt buf offset

/-- The loop that cuts the value into words, with room for so many: their places, and the value
with a zero behind each of them. -/
def aliasWords : (room : Nat) → (p : Nat) → List UInt8 → List Nat × List UInt8
  | 0, _, value => ([], value)
  | room + 1, p, value =>
      let spaces := value.takeWhile (· = 32)
      match value.dropWhile (· = 32) with
      | [] => ([], value)
      | c :: rest =>
          let word := (c :: rest).takeWhile (· ≠ 32)
          let start := p + spaces.length
          match (c :: rest).dropWhile (· ≠ 32) with
          | [] => ([start], value)
          | _ :: more =>
              let words := aliasWords room (start + word.length + 1) more
              (start :: words.1, spaces ++ word ++ 0 :: words.2)

def aliasRoom : Nat := 31

def writeExpanded (buf value : List UInt8) : List UInt8 :=
  value ++ 0 :: buf.drop (value.length + 1)

def findAlias (table : List AliasEntry) (name : List UInt8) : Option AliasEntry :=
  table.find? fun entry => entry.name = name

/-- The part of `commands_dispatch` that expands aliases: the arguments that a command is looked up
for, and the buffer. -/
def commandsDispatch (table : List AliasEntry) :
    (fuel : Nat) → List AliasArg → (buf : List UInt8) → Option (List AliasArg × List UInt8)
  | 0, _, _ => none
  | _ + 1, [], buf => some ([], buf)
  | fuel + 1, arg :: args, buf =>
      match findAlias table (arg.text buf) with
      | none => some (arg :: args, buf)
      | some entry =>
          let words := aliasWords aliasRoom 0 entry.value
          let expanded := writeExpanded buf words.2
          match (words.1.map AliasArg.within ++ args).take aliasRoom with
          | [] => some (arg :: args, expanded)
          | first :: others =>
              if first.text expanded = arg.text expanded then some (arg :: args, expanded)
              else commandsDispatch table fuel (first :: others) expanded

/-! ## Chains of aliases -/

def AliasEntry.first (entry : AliasEntry) : Option (Nat × List UInt8) :=
  match entry.value.dropWhile (· = 32) with
  | [] => none
  | c :: rest => some ((entry.value.takeWhile (· = 32)).length, (c :: rest).takeWhile (· ≠ 32))

/-- What the name of an alias has become when its value has been written over it: the name came
from the place `offset` of the value before. -/
def AliasEntry.overwritten (entry : AliasEntry) (offset : Nat) (name : List UInt8) : List UInt8 :=
  if offset ≤ entry.value.length then textAt (aliasWords aliasRoom 0 entry.value).2 offset else name

/-- The first word of an alias is the name of another one, whose first word is dispatched in turn:
it differs from what the name of this other alias has become. -/
def AliasFollows (table : List AliasEntry) (entry next : AliasEntry) : Prop :=
  ∃ offset word offset' word', entry.first = some (offset, word) ∧
    findAlias table word = some next ∧ next.first = some (offset', word') ∧
    word' ≠ next.overwritten offset word

def AliasStarts (table : List AliasEntry) (name : List UInt8) (entry : AliasEntry) : Prop :=
  ∃ offset word, findAlias table name = some entry ∧ entry.first = some (offset, word) ∧
    word ≠ name

def AliasCycle (table : List AliasEntry) (name : List UInt8) : Prop :=
  ∃ entry again, AliasStarts table name entry ∧
    Relation.ReflTransGen (AliasFollows table) entry again ∧
    Relation.TransGen (AliasFollows table) again again

/-! ## The buffer -/

theorem takeWhile_text (text rest : List UInt8) :
    (text ++ 0 :: rest).takeWhile (· ≠ 0) = text.takeWhile (· ≠ 0) := by
  induction text with
  | nil => rfl
  | cons c text known =>
      rw [List.cons_append, List.takeWhile_cons, List.takeWhile_cons, known]

theorem textAt_before (text rest : List UInt8) {offset : Nat} (inside : offset ≤ text.length) :
    textAt (text ++ 0 :: rest) offset = textAt text offset := by
  rw [textAt, textAt, List.drop_append_of_le_length inside, takeWhile_text]

theorem textAt_behind (text buf : List UInt8) {offset : Nat} (outside : text.length < offset) :
    textAt (writeExpanded buf text) offset = textAt buf offset := by
  have split : writeExpanded buf text = (text ++ [0]) ++ buf.drop (text.length + 1) := by
    rw [writeExpanded, List.append_assoc]
    rfl
  have length : (text ++ [(0 : UInt8)]).length = text.length + 1 := by simp
  rw [textAt, textAt, split, List.drop_append, List.drop_eq_nil_of_le (by omega), List.nil_append,
    List.drop_drop, length]
  congr 2
  omega

theorem aliasWords_length (room : Nat) :
    ∀ (p : Nat) (value : List UInt8), (aliasWords room p value).2.length = value.length := by
  induction room with
  | zero => exact fun _ _ => rfl
  | succ room known =>
      intro p value
      have whole := congrArg List.length
        (List.takeWhile_append_dropWhile (p := (· = 32)) (l := value))
      rw [aliasWords]
      cases shape : value.dropWhile (· = 32) with
      | nil => rfl
      | cons c rest =>
          have word := congrArg List.length
            (List.takeWhile_append_dropWhile (p := (· ≠ 32)) (l := c :: rest))
          dsimp only
          cases after : (c :: rest).dropWhile (· ≠ 32) with
          | nil => rfl
          | cons space more =>
              rw [after, List.length_append, List.length_cons (a := space)] at word
              rw [shape, List.length_append] at whole
              dsimp only
              rw [List.length_append, List.length_append, List.length_cons, known]
              omega

/-- The pieces of a value that has a word: spaces, the word, and the rest, which is cut. -/
theorem AliasEntry.pieces {entry : AliasEntry} {offset : Nat} {word : List UInt8}
    (first : entry.first = some (offset, word)) (room p : Nat) :
    0 ∉ word ∧ ∃ spaces others cut, spaces.length = offset ∧
      aliasWords (room + 1) p entry.value = ((p + offset) :: others, spaces ++ word ++ cut) ∧
      (cut = [] ∨ ∃ rest, cut = 0 :: rest) := by
  have isText := entry.isText
  rw [AliasEntry.first] at first
  rw [aliasWords]
  cases shape : entry.value.dropWhile (· = 32) with
  | nil =>
      rw [shape] at first
      cases first
  | cons c rest =>
      rw [shape] at first
      cases first
      have whole := List.takeWhile_append_dropWhile (p := (· = 32)) (l := entry.value)
      have word := List.takeWhile_append_dropWhile (p := (· ≠ 32)) (l := c :: rest)
      constructor
      · intro zero
        apply isText
        rw [← whole, shape]
        exact List.mem_append_right _ (List.takeWhile_prefix _ |>.subset zero)
      dsimp only
      cases after : (c :: rest).dropWhile (· ≠ 32) with
      | nil =>
          rw [after, List.append_nil] at word
          refine ⟨_, [], [], rfl, ?_, Or.inl rfl⟩
          rw [word, List.append_nil, ← shape, whole]
      | cons space more => exact ⟨_, _, _, rfl, rfl, Or.inr ⟨_, rfl⟩⟩

/-! ## One expansion -/

/-- An argument stands for an alias: it is the place of its first word, and the buffer has the word
there. -/
structure StandsFor (entry : AliasEntry) (arg : AliasArg) (buf : List UInt8) : Prop where
  place : ∃ offset word, entry.first = some (offset, word) ∧ arg = .within offset ∧
    textAt buf offset = word

/-- The first word of an alias in the buffer to which its value was written. -/
theorem AliasEntry.standsFor {entry : AliasEntry} {offset : Nat} {word : List UInt8}
    (first : entry.first = some (offset, word)) (buf : List UInt8) :
    ∃ others, (aliasWords aliasRoom 0 entry.value).1 = offset :: others ∧
      textAt (writeExpanded buf (aliasWords aliasRoom 0 entry.value).2) offset = word := by
  rcases entry.pieces first 30 0 with ⟨isText, spaces, others, cut, length, made, ends⟩
  have room : aliasRoom = 30 + 1 := rfl
  rw [room, made]
  refine ⟨others, by rw [Nat.zero_add], ?_⟩
  dsimp only
  have inside : offset ≤ (spaces ++ word ++ cut).length := by
    rw [List.length_append, List.length_append]
    omega
  rw [writeExpanded, textAt_before _ _ inside, textAt, ← length, List.append_assoc, List.drop_left]
  have all : word.takeWhile (· ≠ 0) = word := by
    rw [List.takeWhile_eq_self_iff]
    intro c member
    exact decide_eq_true fun zero => isText (zero ▸ member)
  rcases ends with rfl | ⟨rest, rfl⟩
  · rw [List.append_nil, all]
  · rw [takeWhile_text, all]

theorem AliasEntry.overwritten_eq (entry : AliasEntry) (buf : List UInt8) (offset : Nat) :
    textAt (writeExpanded buf (aliasWords aliasRoom 0 entry.value).2) offset =
      entry.overwritten offset (textAt buf offset) := by
  have length := aliasWords_length aliasRoom 0 entry.value
  rw [AliasEntry.overwritten]
  by_cases inside : offset ≤ entry.value.length
  · rw [if_pos inside, writeExpanded, textAt_before _ _ (by omega)]
  · rw [if_neg inside, textAt_behind _ _ (by omega)]

section Dispatch

variable {table : List AliasEntry} {args : List AliasArg} {buf : List UInt8} {fuel : Nat}

/-- A name that is dispatched again becomes that of the first word of its alias. -/
theorem commandsDispatch_again {arg : AliasArg} {entry : AliasEntry} {offset : Nat}
    {word : List UInt8} (found : findAlias table (arg.text buf) = some entry)
    (first : entry.first = some (offset, word))
    (again : word ≠ arg.text (writeExpanded buf (aliasWords aliasRoom 0 entry.value).2)) :
    ∃ arg' args' buf', StandsFor entry arg' buf' ∧
      commandsDispatch table (fuel + 1) (arg :: args) buf =
        commandsDispatch table fuel (arg' :: args') buf' := by
  rcases entry.standsFor first buf with ⟨others, words, text⟩
  refine ⟨.within offset, (others.map AliasArg.within ++ args).take 30, _,
    ⟨offset, word, first, rfl, text⟩, ?_⟩
  have front : (((offset :: others).map AliasArg.within) ++ args).take aliasRoom =
      .within offset :: (others.map AliasArg.within ++ args).take 30 := rfl
  rw [commandsDispatch, found]
  dsimp only
  rw [words, front]
  dsimp only
  rw [show (AliasArg.within offset).text _ = word from text, if_neg again]

theorem commandsDispatch_ends (worded : ∀ entry ∈ table, entry.first ≠ none) {arg : AliasArg}
    (ends : ∀ entry, findAlias table (arg.text buf) = some entry → ∀ offset word,
      entry.first = some (offset, word) →
      word = arg.text (writeExpanded buf (aliasWords aliasRoom 0 entry.value).2)) :
    (commandsDispatch table (fuel + 1) (arg :: args) buf).isSome := by
  rw [commandsDispatch]
  cases found : findAlias table (arg.text buf) with
  | none => rfl
  | some entry =>
      dsimp only
      cases first : entry.first with
      | none => exact absurd first (worded entry (List.mem_of_find?_eq_some found))
      | some place =>
          rcases place with ⟨offset, word⟩
          rcases entry.standsFor first buf with ⟨others, words, text⟩
          have front : (((offset :: others).map AliasArg.within) ++ args).take aliasRoom =
              .within offset :: (others.map AliasArg.within ++ args).take 30 := rfl
          rw [words, front]
          dsimp only
          rw [show (AliasArg.within offset).text _ = word from text,
            if_pos (ends entry found offset word first)]
          rfl

variable (fuel args) in
theorem StandsFor.step (worded : ∀ entry ∈ table, entry.first ≠ none) {entry : AliasEntry}
    {arg : AliasArg} (stands : StandsFor entry arg buf) :
    (commandsDispatch table (fuel + 1) (arg :: args) buf).isSome ∧
        (∀ next, ¬AliasFollows table entry next) ∨
      ∃ next arg' args' buf', AliasFollows table entry next ∧ StandsFor next arg' buf' ∧
        commandsDispatch table (fuel + 1) (arg :: args) buf =
          commandsDispatch table fuel (arg' :: args') buf' := by
  rcases stands.place with ⟨offset, word, first, rfl, text⟩
  by_cases follows : ∃ next, AliasFollows table entry next
  · right
    rcases follows with ⟨next, follow⟩
    rcases follow with ⟨offset', word', offset'', word'', first', found, first'', again⟩
    cases first.symm.trans first'
    have found' : findAlias table ((AliasArg.within offset).text buf) = some next := by
      rw [AliasArg.text, text]
      exact found
    have again' : word'' ≠ (AliasArg.within offset).text
        (writeExpanded buf (aliasWords aliasRoom 0 next.value).2) := by
      rw [AliasArg.text, next.overwritten_eq, text]
      exact again
    rcases @commandsDispatch_again table args buf fuel _ _ _ _ found' first'' again' with
      ⟨arg', args', buf', stands', same⟩
    exact ⟨next, arg', args', buf', ⟨offset, word, offset'', word'', first, found, first'', again⟩,
      stands', same⟩
  · left
    refine ⟨commandsDispatch_ends worded fun next found offset' word' first' => ?_,
      fun next follow => follows ⟨next, follow⟩⟩
    rw [AliasArg.text, text] at found
    rw [AliasArg.text, next.overwritten_eq, text]
    by_contra again
    exact follows ⟨next, offset, word, offset', word', first, found, first', again⟩

theorem AliasFollows.unique {entry next next' : AliasEntry} (first : AliasFollows table entry next)
    (second : AliasFollows table entry next') : next = next' := by
  rcases first with ⟨offset, word, -, -, place, found, -, -⟩
  rcases second with ⟨offset', word', -, -, place', found', -, -⟩
  cases place.symm.trans place'
  exact Option.some.inj (found.symm.trans found')

/-! ## Chains that end -/

def RunsInCircles (table : List AliasEntry) (entry : AliasEntry) : Prop :=
  ∃ again, Relation.ReflTransGen (AliasFollows table) entry again ∧
    Relation.TransGen (AliasFollows table) again again

theorem RunsInCircles.next {entry : AliasEntry} (circles : RunsInCircles table entry) :
    ∃ next, AliasFollows table entry next ∧ RunsInCircles table next := by
  rcases circles with ⟨again, reach, cycle⟩
  rcases Relation.ReflTransGen.cases_head reach with rfl | ⟨next, follow, rest⟩
  · rcases Relation.TransGen.head'_iff.mp cycle with ⟨next, follow, rest⟩
    exact ⟨next, follow, entry, rest, cycle⟩
  · exact ⟨next, follow, again, rest, cycle⟩

theorem RunsInCircles.dispatch (worded : ∀ entry ∈ table, entry.first ≠ none) (fuel : Nat) :
    ∀ {entry : AliasEntry} {arg : AliasArg} {args : List AliasArg} {buf : List UInt8},
      RunsInCircles table entry → StandsFor entry arg buf →
      commandsDispatch table fuel (arg :: args) buf = none := by
  induction fuel with
  | zero => exact fun _ _ => rfl
  | succ fuel known =>
      intro entry arg args buf circles stands
      rcases circles.next with ⟨next, follow, circles'⟩
      rcases stands.step args fuel worded with
        ⟨-, never⟩ | ⟨next', arg', args', buf', follow', stands', same⟩
      · exact absurd follow (never next)
      · cases follow.unique follow'
        rw [same]
        exact known circles' stands'

/-- A dispatch that has not ended has followed a chain of aliases. -/
theorem StandsFor.chain (worded : ∀ entry ∈ table, entry.first ≠ none) (fuel : Nat) :
    ∀ {entry : AliasEntry} {arg : AliasArg} {args : List AliasArg} {buf : List UInt8},
      StandsFor entry arg buf → commandsDispatch table fuel (arg :: args) buf = none →
      ∃ chain : Nat → AliasEntry, chain 0 = entry ∧
        ∀ step < fuel, AliasFollows table (chain step) (chain (step + 1)) := by
  induction fuel with
  | zero =>
      exact fun {entry} _ _ _ _ _ => ⟨fun _ => entry, rfl, fun _ never => absurd never (by omega)⟩
  | succ fuel known =>
      intro entry arg args buf stands unfinished
      rcases stands.step args fuel worded with
        ⟨finished, -⟩ | ⟨next, arg', args', buf', follow, stands', same⟩
      · rw [unfinished] at finished
        cases finished
      · rw [same] at unfinished
        rcases known stands' unfinished with ⟨chain, start, steps⟩
        refine ⟨fun step => step.casesOn entry chain, rfl, fun step before => ?_⟩
        cases step with
        | zero =>
            dsimp only
            rw [start]
            exact follow
        | succ step => exact steps step (by omega)

theorem AliasFollows.mem {entry next : AliasEntry} (follow : AliasFollows table entry next) :
    next ∈ table := by
  rcases follow with ⟨offset, word, offset', word', first, found, first', again⟩
  exact List.mem_of_find?_eq_some found

theorem chain_reaches {chain : Nat → AliasEntry} {last : Nat}
    (steps : ∀ step < last, AliasFollows table (chain step) (chain (step + 1))) {first : Nat}
    (before : first < last) :
    Relation.TransGen (AliasFollows table) (chain first) (chain last) := by
  induction last with
  | zero => omega
  | succ last known =>
      have step := steps last (Nat.lt_succ_self last)
      rcases Nat.lt_or_ge first last with earlier | same
      · exact (known (fun step below => steps step (by omega)) earlier).tail step
      · have here : first = last := by omega
        rw [here]
        exact .single step

/-- A chain that is longer than the table comes to a cycle. -/
theorem runsInCircles_of_chain {chain : Nat → AliasEntry}
    (steps : ∀ step < table.length + 1, AliasFollows table (chain step) (chain (step + 1))) :
    RunsInCircles table (chain 0) := by
  by_contra never
  have apart : ∀ first second, first < second → second ≤ table.length →
      chain (first + 1) ≠ chain (second + 1) := by
    intro first second before inside same
    apply never
    have reach := chain_reaches (fun step below => steps step (by omega)) (Nat.succ_pos first)
    have cycle := @chain_reaches table chain (second + 1) (fun step below => steps step (by omega))
      (first + 1) (Nat.succ_lt_succ before)
    rw [← same] at cycle
    exact ⟨_, reach.to_reflTransGen, cycle⟩
  have distinct : ((List.range (table.length + 1)).map fun step => chain (step + 1)).Nodup := by
    apply List.Nodup.map_on _ List.nodup_range
    intro first inside second inside' same
    rw [List.mem_range] at inside inside'
    rcases Nat.lt_trichotomy first second with before | rfl | behind
    · exact absurd same (apart first second before (by omega))
    · rfl
    · exact absurd same.symm (apart second first behind (by omega))
  have listed : ((List.range (table.length + 1)).map fun step => chain (step + 1)) ⊆ table := by
    intro entry member
    rcases List.mem_map.mp member with ⟨step, inside, rfl⟩
    exact (steps step (List.mem_range.mp inside)).mem
  have few := (distinct.subperm listed).length_le
  rw [List.length_map, List.length_range] at few
  omega

/-- The dispatch of a command of which the name is a string of its own. -/
theorem commandsDispatch_start (worded : ∀ entry ∈ table, entry.first ≠ none)
    {name : List UInt8} :
    (commandsDispatch table (fuel + 1) (.own name :: args) buf).isSome ∧
        (∀ entry, ¬AliasStarts table name entry) ∨
      ∃ entry arg' args' buf', AliasStarts table name entry ∧ StandsFor entry arg' buf' ∧
        commandsDispatch table (fuel + 1) (.own name :: args) buf =
          commandsDispatch table fuel (arg' :: args') buf' := by
  by_cases starts : ∃ entry, AliasStarts table name entry
  · right
    rcases starts with ⟨entry, offset, word, found, first, again⟩
    rcases @commandsDispatch_again table args buf fuel (.own name) entry offset word found first
      again with ⟨arg', args', buf', stands, same⟩
    exact ⟨entry, arg', args', buf', ⟨offset, word, found, first, again⟩, stands, same⟩
  · left
    refine ⟨commandsDispatch_ends worded fun entry found offset word first => ?_,
      fun entry start => starts ⟨entry, start⟩⟩
    by_contra again
    exact starts ⟨entry, offset, word, found, first, again⟩

theorem AliasStarts.unique {name : List UInt8} {entry entry' : AliasEntry}
    (first : AliasStarts table name entry) (second : AliasStarts table name entry') :
    entry = entry' := by
  rcases first with ⟨offset, word, found, -⟩
  rcases second with ⟨offset', word', found', -⟩
  exact Option.some.inj (found.symm.trans found')

/-- If every alias has a word, the dispatch of a command line ends exactly if the aliases that its
first word leads to do not come back to one of them. -/
theorem commandsDispatch_worded (worded : ∀ entry ∈ table, entry.first ≠ none) (name : List UInt8)
    (args : List (List UInt8)) (buf : List UInt8) :
    (∃ fuel, (commandsDispatch table fuel ((name :: args).map .own) buf).isSome) ↔
      ¬AliasCycle table name := by
  constructor
  · rintro ⟨fuel, finished⟩ ⟨entry, again, starts, reach, cycle⟩
    cases fuel with
    | zero => cases finished
    | succ fuel =>
        rcases @commandsDispatch_start table (args.map .own) buf fuel worded name with
          ⟨-, never⟩ | ⟨entry', arg', args', buf', starts', stands, same⟩
        · exact never entry starts
        · cases starts.unique starts'
          rw [List.map_cons, same,
            RunsInCircles.dispatch worded fuel ⟨again, reach, cycle⟩ stands] at finished
          cases finished
  · intro noCycle
    refine ⟨table.length + 2, ?_⟩
    rcases @commandsDispatch_start table (args.map .own) buf (table.length + 1) worded name with
      ⟨finished, -⟩ | ⟨entry, arg', args', buf', starts, stands, same⟩
    · exact finished
    · rw [List.map_cons, same]
      cases unfinished : commandsDispatch table (table.length + 1) (arg' :: args') buf' with
      | some _ => rfl
      | none =>
          rcases stands.chain worded _ unfinished with ⟨chain, rfl, steps⟩
          rcases runsInCircles_of_chain steps with ⟨again, reach, cycle⟩
          exact absurd ⟨chain 0, again, starts, reach, cycle⟩ noCycle

end Dispatch

/-! ## Arguments and buffers -/

/-- The arguments and the buffer with which the dispatcher calls itself, if it does. -/
def expandOnce (table : List AliasEntry) (s : List AliasArg × List UInt8) :
    Option (List AliasArg × List UInt8) :=
  match s.1 with
  | [] => none
  | arg :: args =>
      (findAlias table (arg.text s.2)).bind fun entry =>
        let words := aliasWords aliasRoom 0 entry.value
        let expanded := writeExpanded s.2 words.2
        match (words.1.map AliasArg.within ++ args).take aliasRoom with
        | [] => none
        | first :: others =>
            if first.text expanded = arg.text expanded then none else some (first :: others, expanded)

section Expand

variable {table : List AliasEntry}

/-- The dispatcher goes on as long as there is something to expand. -/
theorem commandsDispatch_none_iff (fuel : Nat) (s : List AliasArg × List UInt8) :
    commandsDispatch table fuel s.1 s.2 = none ↔
      Stopping.afterSteps (expandOnce table) fuel s ≠ none := by
  induction fuel generalizing s with
  | zero => exact iff_of_true rfl (Option.some_ne_none s)
  | succ fuel known =>
      rcases s with ⟨args, buf⟩
      rw [Stopping.afterSteps, expandOnce]
      cases args with
      | nil => exact iff_of_false (Option.some_ne_none _) (not_not_intro rfl)
      | cons arg args =>
          rw [commandsDispatch]
          dsimp only
          cases findAlias table (arg.text buf) with
          | none => exact iff_of_false (Option.some_ne_none _) (not_not_intro rfl)
          | some entry =>
              rw [Option.bind_some]
              dsimp only
              split
              · exact iff_of_false (Option.some_ne_none _) (not_not_intro rfl)
              · rename_i first others _
                by_cases same : first.text (writeExpanded buf (aliasWords aliasRoom 0 entry.value).2) =
                    arg.text (writeExpanded buf (aliasWords aliasRoom 0 entry.value).2)
                · rw [if_pos same, if_pos same]
                  exact iff_of_false (Option.some_ne_none _) (not_not_intro rfl)
                · rw [if_neg same, if_neg same]
                  exact known (_, _)

theorem aliasWords_inside (room : Nat) :
    ∀ (p : Nat) (value : List UInt8), ∀ start ∈ (aliasWords room p value).1,
      start < p + value.length := by
  induction room with
  | zero => exact fun _ _ _ member => absurd member List.not_mem_nil
  | succ room known =>
      intro p value start member
      have whole := congrArg List.length
        (List.takeWhile_append_dropWhile (p := (· = 32)) (l := value))
      rw [aliasWords] at member
      cases shape : value.dropWhile (· = 32) with
      | nil =>
          rw [shape] at member
          exact absurd member List.not_mem_nil
      | cons c rest =>
          have word := congrArg List.length
            (List.takeWhile_append_dropWhile (p := (· ≠ 32)) (l := c :: rest))
          rw [shape] at member whole
          rw [List.length_append, List.length_cons] at whole
          dsimp only at member
          cases after : (c :: rest).dropWhile (· ≠ 32) with
          | nil =>
              rw [after] at member
              rw [List.mem_singleton.mp member]
              omega
          | cons space more =>
              rw [after] at member word
              rw [List.length_append, List.length_cons, List.length_cons] at word
              rcases List.mem_cons.mp member with here | later
              · omega
              · have inside := known _ _ start later
                omega

/-- The arguments that a dispatch can have: those of the line and places in a value. -/
def DispatchArgs (start : List AliasArg) : Set AliasArg :=
  {arg | arg ∈ start} ∪ AliasArg.within '' {offset | offset < 128}

def DispatchStates (start : List AliasArg × List UInt8) : Set (List AliasArg × List UInt8) :=
  {args | args.length ≤ max start.1.length aliasRoom ∧ ∀ arg ∈ args, arg ∈ DispatchArgs start.1} ×ˢ
    {buf | buf.length ≤ max start.2.length 128}

theorem dispatchStates_finite (start : List AliasArg × List UInt8) :
    (DispatchStates start).Finite := by
  have few : (DispatchArgs start.1).Finite :=
    (List.finite_toSet start.1).union ((Set.finite_lt_nat 128).image _)
  have texts : Finite UInt8 := inferInstance
  apply Set.Finite.prod
  · have lists := @List.finite_length_le (DispatchArgs start.1) few.to_subtype
      (max start.1.length aliasRoom)
    refine (lists.image (List.map Subtype.val)).subset fun args known => ?_
    refine ⟨args.attachWith _ known.2, ?_, List.attachWith_map_subtype_val _⟩
    change (args.attachWith _ known.2).length ≤ _
    rw [List.length_attachWith]
    exact known.1
  · exact List.finite_length_le UInt8 _

theorem expandOnce_stays (start s s' : List AliasArg × List UInt8) (within : s ∈ DispatchStates start)
    (expanded : expandOnce table s = some s') : s' ∈ DispatchStates start := by
  rcases s with ⟨args, buf⟩
  rcases within with ⟨⟨-, known⟩, short⟩
  rw [expandOnce] at expanded
  cases args with
  | nil => cases expanded
  | cons arg args =>
      rcases Option.bind_eq_some_iff.mp expanded with ⟨entry, -, rest⟩
      dsimp only at rest
      split at rest
      · cases rest
      rename_i first others made
      split_ifs at rest
      cases rest
      rw [← made]
      refine ⟨⟨?_, fun other member => ?_⟩, ?_⟩
      · rw [List.length_take]
        exact (Nat.min_le_left _ _).trans (Nat.le_max_right _ _)
      · rcases List.mem_append.mp (List.mem_of_mem_take member) with new | old
        · rcases List.mem_map.mp new with ⟨offset, listed, rfl⟩
          have inside := aliasWords_inside _ _ _ offset listed
          have fits := entry.fits
          exact Or.inr ⟨offset, show offset < 128 by omega, rfl⟩
        · exact known other (List.mem_cons_of_mem _ old)
      · have fits := entry.fits
        have length := aliasWords_length aliasRoom 0 entry.value
        change buf.length ≤ _ at short
        change (writeExpanded buf _).length ≤ _
        rw [writeExpanded, List.length_append, List.length_cons, List.length_drop]
        omega

/-- The dispatch of a command line ends exactly if it does not come back to the same arguments with
the same buffer.  If every alias has a word, that is to say that the aliases that the first word of
the line leads to do not come back to one of them. -/
theorem commandsDispatch_ends_iff (name : List UInt8) (args : List (List UInt8))
    (buf : List UInt8) :
    ((∃ fuel, (commandsDispatch table fuel ((name :: args).map .own) buf).isSome) ↔
        ¬Stopping.ComesBack (expandOnce table) ((name :: args).map .own, buf)) ∧
      ((∃ entry ∈ table, entry.first = none) ∨
        ((∃ fuel, (commandsDispatch table fuel ((name :: args).map .own) buf).isSome) ↔
          ¬AliasCycle table name)) := by
  constructor
  · have start : (((name :: args).map AliasArg.own, buf) : List AliasArg × List UInt8) ∈
        DispatchStates ((name :: args).map .own, buf) :=
      ⟨⟨Nat.le_max_left _ _, fun _ member => Or.inl member⟩, Nat.le_max_left _ _⟩
    rw [← Stopping.stops_iff (dispatchStates_finite _) start
      fun s known s' => expandOnce_stays _ s s' known]
    apply exists_congr
    intro fuel
    have goesOn := @commandsDispatch_none_iff table fuel ((name :: args).map .own, buf)
    rw [Option.isSome_iff_ne_none, Ne, goesOn, not_not]
  · by_cases worded : ∀ entry ∈ table, entry.first ≠ none
    · exact Or.inr (commandsDispatch_worded worded name args buf)
    · left
      simpa only [not_forall, not_not, exists_prop] using worded

end Expand

/-! ## Two aliases that call each other -/

def crossedAliases : List AliasEntry :=
  [⟨literal "a", literal "b", by decide, by decide⟩,
    ⟨literal "b", literal " a", by decide, by decide⟩]

theorem crossedAliases_made :
    ([[⟨literal "a", by decide⟩, ⟨literal "b", by decide⟩],
      [⟨literal "b", by decide⟩, ⟨literal " a", by decide⟩]] : List (List CString)).foldlM
        cmdAlias [] = some crossedAliases := by
  rfl

theorem crossedAliases_follow :
    ∃ first second, AliasStarts crossedAliases (literal "a") first ∧
      AliasFollows crossedAliases first second ∧ AliasFollows crossedAliases second first := by
  refine ⟨⟨literal "a", literal "b", by decide, by decide⟩,
    ⟨literal "b", literal " a", by decide, by decide⟩, ?_, ?_, ?_⟩
  · exact ⟨0, literal "b", rfl, rfl, by decide⟩
  · exact ⟨0, literal "b", 1, literal "a", rfl, rfl, rfl, by decide⟩
  · exact ⟨1, literal "a", 0, literal "b", rfl, rfl, rfl, by decide⟩

theorem commandsDispatch_crossed :
    ¬∀ (lines : List (List CString)) (table : List AliasEntry) (name : List UInt8)
        (args : List (List UInt8)) (buf : List UInt8), lines.foldlM cmdAlias [] = some table →
      ∃ fuel, (commandsDispatch table fuel ((name :: args).map .own) buf).isSome := by
  intro promise
  rcases promise _ _ (literal "a") [] [] crossedAliases_made with ⟨fuel, finished⟩
  rcases crossedAliases_follow with ⟨first, second, starts, follow, back⟩
  cases fuel with
  | zero => cases finished
  | succ fuel =>
      have worded : ∀ entry ∈ crossedAliases, entry.first ≠ none := by
        intro entry member
        rcases List.mem_cons.mp member with rfl | member
        · exact Option.some_ne_none _
        · cases List.mem_singleton.mp member
          exact Option.some_ne_none _
      rcases @commandsDispatch_start crossedAliases [] [] fuel worded (literal "a") with
        ⟨-, never⟩ | ⟨entry, arg', args', buf', starts', stands, same⟩
      · exact never first starts
      · cases starts.unique starts'
        rw [List.map_cons, List.map_nil, same,
          RunsInCircles.dispatch worded fuel ⟨first, .refl, (Relation.TransGen.single follow).tail back⟩
            stands] at finished
        cases finished

end Trinux
