import Trinux.Shell.TccParser

namespace Trinux

/-!
# What is left from earlier compilations and functions

Two runs of the parser that differ in the shapes left in the slots of `locals`, and in the last
number, string and name while the lexer has not read one, go on in the same way as long as no
parameter is indexed and no size is taken from a number that was never read.
-/

namespace Tcc

open Bytes

theorem lexNumber_tok (text : List UInt8) : (lexNumber text).tok = .num := by
  unfold lexNumber
  split_ifs <;> rfl

/-- What all operators and the end share is so for every token that is read as an operator. -/
theorem lexOperator_tok {P : Tok → Prop} (two : ∀ entry ∈ doubles, P entry.2)
    (one : ∀ entry ∈ singles, P entry.2) (unknown : P .eof) (c : UInt8) (rest : List UInt8) :
    P (lexOperator c rest).tok := by
  unfold lexOperator
  cases found : doubles.find? fun entry => entry.1 == (c, peek rest) with
  | some entry => exact two entry (List.mem_of_find?_eq_some found)
  | none =>
      dsimp only
      cases found : singles.find? fun entry => entry.1 == c with
      | some entry => exact one entry (List.mem_of_find?_eq_some found)
      | none => exact unknown

theorem lex_str {text : List UInt8} (isString : (lex text).tok = .str) :
    (lex text).str.isSome = true := by
  have identifier (text : List UInt8) : (lexIdent text).tok ≠ .str := by
    intro same
    unfold lexIdent at same
    dsimp only at same
    cases found : keywords.find? fun entry =>
        entry.1 == text.takeWhile fun c => isLetter c || isDigit c with
    | none =>
        rw [found] at same
        cases same
    | some entry =>
        rw [found] at same
        have listed := List.mem_of_find?_eq_some found
        have none' : ∀ entry ∈ keywords, entry.2 ≠ .str := by decide
        exact none' entry listed same
  have operator := @lexOperator_tok (· ≠ .str) (by decide) (by decide) (by decide)
  unfold lex at isString ⊢
  dsimp only at isString ⊢
  split_ifs at isString ⊢
  · cases isString
  · rw [lexNumber_tok] at isString
    cases isString
  · rfl
  · cases isString
  · exact absurd isString (identifier _)
  · exact absurd isString (operator _ _)

/-- What may be left from before, and the marks whether the lexer has read any of it. -/
structure Past where
  slots : Nat → Shape
  num : UInt32
  str : List UInt8
  ident : List UInt8
  numKnown : Bool
  strKnown : Bool
  identKnown : Bool

namespace St

def withPast (s : St) (past : Past) : St :=
  { s with
    slots := past.slots
    tokNum := past.num
    tokStr := past.str
    tokIdent := past.ident
    numKnown := past.numKnown
    strKnown := past.strKnown
    identKnown := past.identKnown }

theorem withPast_withPast (s : St) (past past' : Past) :
    (s.withPast past).withPast past' = s.withPast past' := rfl

theorem withPast_emit (past : Past) (bytes : List UInt8) : ∀ s : St,
    (s.withPast past).emit bytes = (s.emit bytes).withPast past := by
  induction bytes with
  | nil => intro s; rfl
  | cons b rest rest_ih =>
      intro s
      have one : (s.withPast past).e8 b = (s.e8 b).withPast past := by
        unfold St.e8
        by_cases room : s.cp < maxCode
        · rw [if_pos room, if_pos (show (s.withPast past).cp < maxCode from room)]
          rfl
        · rw [if_neg room, if_neg (show ¬ (s.withPast past).cp < maxCode from room)]
          rfl
      have step (u : St) : u.emit (b :: rest) = (u.e8 b).emit rest := rfl
      rw [step, step, one, rest_ih]

theorem withPast_patchAll (past : Past) (positions : List Nat) (target : Nat) : ∀ s : St,
    (s.withPast past).patchAll positions target = (s.patchAll positions target).withPast past := by
  induction positions with
  | nil => intro s; rfl
  | cons off rest rest_ih =>
      intro s
      exact rest_ih (s.patch32 off (UInt32.ofNat target - UInt32.ofNat off - 4))

theorem withPast_loopExit (past : Past) (s : St) :
    (s.withPast past).loopExit = s.loopExit.withPast past := by
  cases stack : s.loopStack with
  | nil =>
      have stack' : (s.withPast past).loopStack = [] := stack
      rw [loopExit_nil stack, loopExit_nil stack']
  | cons ctx outer =>
      have stack' : (s.withPast past).loopStack = ctx :: outer := stack
      rw [loopExit_cons stack, loopExit_cons stack']
      exact withPast_patchAll past ctx.breaks s.cp { s with
        loopStack := outer, outside := s.outside || decide (maxLoopDepth ≤ outer.length) }

theorem withPast_loopPatchContinues (past : Past) (s : St) (target : Nat) :
    (s.withPast past).loopPatchContinues target = (s.loopPatchContinues target).withPast past := by
  cases stack : s.loopStack with
  | nil =>
      have stack' : (s.withPast past).loopStack = [] := stack
      rw [loopPatchContinues_nil stack, loopPatchContinues_nil stack']
  | cons ctx outer =>
      have stack' : (s.withPast past).loopStack = ctx :: outer := stack
      rw [loopPatchContinues_cons stack, loopPatchContinues_cons stack']
      exact withPast_patchAll past ctx.continues target { s with
        outside := s.outside || decide (maxLoopDepth ≤ outer.length) }

theorem withPast_jumpInLoop (past : Past) (s : St) (positions : LoopCtx → List Nat)
    (record : LoopCtx → Nat → LoopCtx) :
    (s.withPast past).jumpInLoop positions record =
      (s.jumpInLoop positions record).withPast past := by
  cases stack : s.loopStack with
  | nil =>
      have stack' : (s.withPast past).loopStack = [] := stack
      rw [jumpInLoop_nil stack, jumpInLoop_nil stack']
      rfl
  | cons ctx outer =>
      have stack' : (s.withPast past).loopStack = ctx :: outer := stack
      by_cases deep : maxLoopDepth ≤ outer.length
      · rw [jumpInLoop_deep stack deep, jumpInLoop_deep stack' deep]
        rfl
      · rw [jumpInLoop_cons stack deep, jumpInLoop_cons stack' deep]
        have one := withPast_emit past [0xE9] s
        change (s.withPast past).e8 0xE9 = (s.e8 0xE9).withPast past at one
        rw [one]
        by_cases room : (positions ctx).length < maxBreaks
        · rw [if_pos room, if_pos room]
          exact withPast_emit past (le32 0) { s.e8 0xE9 with
            loopStack := record ctx (s.e8 0xE9).cp :: outer }
        · rw [if_neg room, if_neg room]
          exact withPast_emit past (le32 0) { s.e8 0xE9 with dropped := true }

theorem withPast_strField (past : Past) (s : St) (dataOff : Nat) :
    (s.withPast past).strField dataOff = (s.strField dataOff).withPast past := by
  unfold St.strField
  change (if s.strFixups.length < maxStrings then _ else _ : St).e32 0 = _
  dsimp only
  by_cases room : s.strFixups.length < maxStrings
  · rw [if_pos room, if_pos room]
    exact withPast_emit past (le32 0) { s with
      strUses := s.strUses ++ [(s.cp, dataOff)]
      strFixups := s.strFixups ++ [(s.cp, dataOff)] }
  · rw [if_neg room, if_neg room]
    exact withPast_emit past (le32 0) { s with
      strUses := s.strUses ++ [(s.cp, dataOff)]
      dropped := true }

theorem withPast_globField (past : Past) (s : St) (bssOff : UInt32) :
    (s.withPast past).globField bssOff = (s.globField bssOff).withPast past := by
  unfold St.globField
  change (if s.globFixups.length < maxGlobFixups then _ else _ : St).e32 0 = _
  dsimp only
  by_cases room : s.globFixups.length < maxGlobFixups
  · rw [if_pos room, if_pos room]
    exact withPast_emit past (le32 0) { s with
      globUses := s.globUses ++ [(s.cp, bssOff)]
      globFixups := s.globFixups ++ [(s.cp, bssOff)] }
  · rw [if_neg room, if_neg room]
    exact withPast_emit past (le32 0) { s with
      globUses := s.globUses ++ [(s.cp, bssOff)]
      dropped := true }

theorem withPast_callField (past : Past) (s : St) (name : List UInt8) :
    (s.withPast past).callField name = (s.callField name).withPast past := by
  unfold St.callField
  change (if s.callFixups.length < maxCallFixups then _ else _ : St).e32 0 = _
  dsimp only
  by_cases room : s.callFixups.length < maxCallFixups
  · rw [if_pos room, if_pos room]
    exact withPast_emit past (le32 0) { s with
      called := s.called ++ [(s.cp, name)]
      callFixups := s.callFixups ++ [(s.cp, name.take 31)] }
  · rw [if_neg room, if_neg room]
    exact withPast_emit past (le32 0) { s with
      called := s.called ++ [(s.cp, name)]
      dropped := true }

theorem withPast_patchHere (past : Past) (s : St) (field : Nat) :
    (s.withPast past).patchHere field = (s.patchHere field).withPast past := by
  cases found : s.fields[field]? with
  | none =>
      have found' : (s.withPast past).fields[field]? = none := found
      rw [patchHere_none found, patchHere_none found']
  | some off =>
      have found' : (s.withPast past).fields[field]? = some off := found
      rw [patchHere_some found, patchHere_some found']
      rfl

theorem withPast_addGlobal (past : Past) (s : St) (name : List UInt8) (count width : UInt32)
    (shape : Shape) :
    (s.withPast past).addGlobal name count width shape =
      (s.addGlobal name count width shape).withPast past := by
  unfold St.addGlobal
  dsimp only
  change (if s.globals.length < maxGlobals then _ else _ : St) = _
  by_cases room : s.globals.length < maxGlobals
  · rw [if_pos room, if_pos room]
    rfl
  · rw [if_neg room, if_neg room]
    rfl

/-- An entry with its own shape writes the slot, whatever was left there. -/
theorem withPast_pushLocal (past : Past) (s : St) (name : List UInt8) (offset : UInt32)
    (shape : Shape) : ∃ slots,
    (s.withPast past).pushLocal name offset shape =
      (s.pushLocal name offset shape).withPast { past with slots := slots } := by
  unfold St.pushLocal
  by_cases room : s.locals.length < maxVars
  · refine ⟨fun i => if i = s.locals.length then shape else past.slots i, ?_⟩
    rw [if_pos room, if_pos (show (s.withPast past).locals.length < maxVars from room)]
    rfl
  · refine ⟨past.slots, ?_⟩
    rw [if_neg room, if_neg (show ¬ (s.withPast past).locals.length < maxVars from room)]
    rfl

end St

/-! ## Two runs -/

/-- An operation does not read what is left from before: a size is taken when the lexer has read a
number, a name when it has read one, and an indexed variable has a shape of its own. -/
def Reads (op : Op) (s : St) : Prop :=
  match op with
  | .number => s.numKnown = true
  | .name | .addParam => s.identKnown = true
  | .localShape name =>
      ∀ i, s.findLocalIdx name = some i → ((s.locals[i]?).bind Local.shape).isSome = true
  | _ => True

structure Same (s t : St) (past : Past) : Prop where
  rest : t = s.withPast past
  num : s.numKnown = true → past.num = s.tokNum
  str : s.strKnown = true → past.str = s.tokStr
  ident : s.identKnown = true → past.ident = s.tokIdent
  current : s.curToken = .str → s.strKnown = true
  behind : ∀ inc ∈ s.increments, inc.tok = .str → s.strKnown = true

structure Quiet (s t : St) : Prop where
  num : t.tokNum = s.tokNum
  str : t.tokStr = s.tokStr
  ident : t.tokIdent = s.tokIdent
  numKnown : t.numKnown = s.numKnown
  strKnown : t.strKnown = s.strKnown
  identKnown : t.identKnown = s.identKnown
  current : t.curToken = s.curToken
  increments : t.increments = s.increments

theorem Quiet.refl (s : St) : Quiet s s := ⟨rfl, rfl, rfl, rfl, rfl, rfl, rfl, rfl⟩

theorem Quiet.trans {s t u : St} (first : Quiet s t) (second : Quiet t u) : Quiet s u where
  num := second.num.trans first.num
  str := second.str.trans first.str
  ident := second.ident.trans first.ident
  numKnown := second.numKnown.trans first.numKnown
  strKnown := second.strKnown.trans first.strKnown
  identKnown := second.identKnown.trans first.identKnown
  current := second.current.trans first.current
  increments := second.increments.trans first.increments

theorem emit_quiet (bytes : List UInt8) : ∀ s : St, Quiet s (s.emit bytes) := by
  induction bytes with
  | nil => intro s; exact Quiet.refl s
  | cons b rest rest_ih =>
      intro s
      have one : Quiet s (s.e8 b) := by
        unfold St.e8
        split_ifs <;> exact ⟨rfl, rfl, rfl, rfl, rfl, rfl, rfl, rfl⟩
      exact one.trans (rest_ih (s.e8 b))

theorem patchAll_quiet (positions : List Nat) (target : Nat) : ∀ s : St,
    Quiet s (s.patchAll positions target) := by
  induction positions with
  | nil => intro s; exact Quiet.refl s
  | cons off rest rest_ih =>
      intro s
      have one : Quiet s (s.patch32 off (UInt32.ofNat target - UInt32.ofNat off - 4)) :=
        ⟨rfl, rfl, rfl, rfl, rfl, rfl, rfl, rfl⟩
      exact one.trans (rest_ih _)

/-- A field behind an entry of a table, or behind a mark that there is none. -/
theorem field_quiet {s : St} (condition : Prop) [Decidable condition] {t : St}
    (recorded : Quiet s t) {u : St} (full : Quiet s u) :
    Quiet s ((if condition then t else u).e32 0) := by
  split_ifs
  · exact recorded.trans (emit_quiet _ t)
  · exact full.trans (emit_quiet _ u)

theorem strField_quiet (s : St) (dataOff : Nat) : Quiet s (s.strField dataOff) := by
  have recorded : Quiet s { s with
      strUses := s.strUses ++ [(s.cp, dataOff)]
      strFixups := s.strFixups ++ [(s.cp, dataOff)] } :=
    ⟨rfl, rfl, rfl, rfl, rfl, rfl, rfl, rfl⟩
  have full : Quiet s { s with strUses := s.strUses ++ [(s.cp, dataOff)], dropped := true } :=
    ⟨rfl, rfl, rfl, rfl, rfl, rfl, rfl, rfl⟩
  exact field_quiet (s.strFixups.length < maxStrings) recorded full

theorem globField_quiet (s : St) (bssOff : UInt32) : Quiet s (s.globField bssOff) := by
  have recorded : Quiet s { s with
      globUses := s.globUses ++ [(s.cp, bssOff)]
      globFixups := s.globFixups ++ [(s.cp, bssOff)] } :=
    ⟨rfl, rfl, rfl, rfl, rfl, rfl, rfl, rfl⟩
  have full : Quiet s { s with globUses := s.globUses ++ [(s.cp, bssOff)], dropped := true } :=
    ⟨rfl, rfl, rfl, rfl, rfl, rfl, rfl, rfl⟩
  exact field_quiet (s.globFixups.length < maxGlobFixups) recorded full

theorem callField_quiet (s : St) (name : List UInt8) : Quiet s (s.callField name) := by
  have recorded : Quiet s { s with
      called := s.called ++ [(s.cp, name)]
      callFixups := s.callFixups ++ [(s.cp, name.take 31)] } :=
    ⟨rfl, rfl, rfl, rfl, rfl, rfl, rfl, rfl⟩
  have full : Quiet s { s with called := s.called ++ [(s.cp, name)], dropped := true } :=
    ⟨rfl, rfl, rfl, rfl, rfl, rfl, rfl, rfl⟩
  exact field_quiet (s.callFixups.length < maxCallFixups) recorded full

theorem loopExit_quiet (s : St) : Quiet s s.loopExit := by
  unfold St.loopExit
  cases s.loopStack with
  | nil => exact Quiet.refl s
  | cons ctx outer =>
      have popped : Quiet s { s with
          loopStack := outer, outside := s.outside || decide (maxLoopDepth ≤ outer.length) } :=
        ⟨rfl, rfl, rfl, rfl, rfl, rfl, rfl, rfl⟩
      exact popped.trans (patchAll_quiet _ _ _)

theorem loopPatchContinues_quiet (s : St) (target : Nat) :
    Quiet s (s.loopPatchContinues target) := by
  unfold St.loopPatchContinues
  cases stack : s.loopStack with
  | nil => exact Quiet.refl s
  | cons ctx outer =>
      have marked : Quiet s { s with
          loopStack := ctx :: outer
          outside := s.outside || decide (maxLoopDepth ≤ outer.length) } :=
        ⟨rfl, rfl, rfl, rfl, rfl, rfl, rfl, rfl⟩
      exact marked.trans (patchAll_quiet ctx.continues target _)

theorem jumpInLoop_quiet (s : St) (positions : LoopCtx → List Nat)
    (record : LoopCtx → Nat → LoopCtx) : Quiet s (s.jumpInLoop positions record) := by
  unfold St.jumpInLoop
  cases s.loopStack with
  | nil => exact ⟨rfl, rfl, rfl, rfl, rfl, rfl, rfl, rfl⟩
  | cons ctx outer =>
      dsimp only
      by_cases deep : maxLoopDepth ≤ outer.length
      · rw [if_pos deep]
        exact ⟨rfl, rfl, rfl, rfl, rfl, rfl, rfl, rfl⟩
      · rw [if_neg deep]
        have opcode : Quiet s (s.e8 0xE9) := emit_quiet [0xE9] s
        apply opcode.trans
        generalize s.e8 0xE9 = u
        have recorded : Quiet u { u with loopStack := record ctx u.cp :: outer } :=
          ⟨rfl, rfl, rfl, rfl, rfl, rfl, rfl, rfl⟩
        have full : Quiet u { u with dropped := true } := ⟨rfl, rfl, rfl, rfl, rfl, rfl, rfl, rfl⟩
        exact field_quiet ((positions ctx).length < maxBreaks) recorded full

theorem emitBreak_quiet (s : St) : Quiet s s.emitBreak := jumpInLoop_quiet s LoopCtx.breaks _

theorem emitContinue_quiet (s : St) : Quiet s s.emitContinue :=
  jumpInLoop_quiet s LoopCtx.continues _

theorem patchHere_quiet (s : St) (field : Nat) : Quiet s (s.patchHere field) := by
  unfold St.patchHere
  cases s.fields[field]? with
  | none => exact Quiet.refl s
  | some off => exact ⟨rfl, rfl, rfl, rfl, rfl, rfl, rfl, rfl⟩

theorem pushLocal_quiet (s : St) (name : List UInt8) (offset : UInt32) (shape : Shape) :
    Quiet s (s.pushLocal name offset shape) := by
  unfold St.pushLocal
  split_ifs <;> exact ⟨rfl, rfl, rfl, rfl, rfl, rfl, rfl, rfl⟩

theorem addGlobal_quiet (s : St) (name : List UInt8) (count width : UInt32) (shape : Shape) :
    Quiet s (s.addGlobal name count width shape) := by
  unfold St.addGlobal
  split_ifs <;> exact ⟨rfl, rfl, rfl, rfl, rfl, rfl, rfl, rfl⟩

theorem Same.move {s t : St} {past : Past} (same : Same s t past) {s' : St} (quiet : Quiet s s') :
    Same s' (s'.withPast past) past where
  rest := rfl
  num := by
    rw [quiet.numKnown, quiet.num]
    exact same.num
  str := by
    rw [quiet.strKnown, quiet.str]
    exact same.str
  ident := by
    rw [quiet.identKnown, quiet.ident]
    exact same.ident
  current := by
    rw [quiet.current, quiet.strKnown]
    exact same.current
  behind := by
    rw [quiet.increments, quiet.strKnown]
    exact same.behind

theorem Same.slots {s t : St} {past : Past} (same : Same s t past) (slots : Nat → Shape) :
    Same s (s.withPast { past with slots := slots }) { past with slots := slots } :=
  ⟨rfl, same.num, same.str, same.ident, same.current, same.behind⟩

theorem Same.nextToken {s t : St} {past : Past} (same : Same s t past) :
    ∃ past', Same s.nextToken t.nextToken past' := by
  have next := same.rest
  subst next
  let found := lex s.text
  refine ⟨⟨past.slots, found.num.getD past.num, found.str.getD past.str,
    found.ident.getD past.ident, past.numKnown || found.num.isSome,
    past.strKnown || found.str.isSome, past.identKnown || found.ident.isSome⟩,
    rfl, ?_, ?_, ?_, ?_, ?_⟩
  · intro known
    change found.num.getD past.num = found.num.getD s.tokNum
    cases given : found.num with
    | some num => rfl
    | none =>
        have before : s.numKnown = true := by
          have known' : (s.numKnown || found.num.isSome) = true := known
          rw [given] at known'
          simpa using known'
        exact same.num before
  · intro known
    change found.str.getD past.str = found.str.getD s.tokStr
    cases given : found.str with
    | some str => rfl
    | none =>
        have before : s.strKnown = true := by
          have known' : (s.strKnown || found.str.isSome) = true := known
          rw [given] at known'
          simpa using known'
        exact same.str before
  · intro known
    change found.ident.getD past.ident = found.ident.getD s.tokIdent
    cases given : found.ident with
    | some ident => rfl
    | none =>
        have before : s.identKnown = true := by
          have known' : (s.identKnown || found.ident.isSome) = true := known
          rw [given] at known'
          simpa using known'
        exact same.ident before
  · intro isString
    have given : found.str.isSome = true := lex_str isString
    change (s.strKnown || found.str.isSome) = true
    rw [given, Bool.or_true]
  · intro inc listed isString
    change (s.strKnown || found.str.isSome) = true
    rw [same.behind inc listed isString, Bool.true_or]

/-- Operations that neither read nor change what is left from before. -/
theorem same_quiet {op : Op} {s : St} {past : Past} {t : St} (same : Same s t past)
    {result : op.Result} {next : St} (here : exec op s = (result, next))
    (there : exec op (s.withPast past) = (result, next.withPast past)) (quiet : Quiet s next) :
    (exec op t).1 = (exec op s).1 ∧ ∃ past', Same (exec op s).2 (exec op t).2 past' := by
  have shown := same.rest
  subst shown
  rw [here, there]
  exact ⟨rfl, past, same.move quiet⟩

theorem same_storeString {s t : St} {past : Past}
    (same : Same s t past) : (exec Op.storeString t).1 = (exec Op.storeString s).1 ∧
      ∃ past', Same (exec Op.storeString s).2 (exec Op.storeString t).2 past' := by
  have there : (if s.curToken = .str then (s.withPast past).storeString
      else s.withPast past) =
      (if s.curToken = .str then s.storeString else s).withPast past := by
    by_cases isString : s.curToken = .str
    · rw [if_pos isString, if_pos isString]
      have text := same.str (same.current isString)
      unfold St.storeString St.withPast
      dsimp only
      rw [text]
    · rw [if_neg isString, if_neg isString]
  have quiet : Quiet s (if s.curToken = .str then s.storeString else s) := by
    split_ifs
    · exact ⟨rfl, rfl, rfl, rfl, rfl, rfl, rfl, rfl⟩
    · exact Quiet.refl s
  exact same_quiet same rfl (congrArg (Prod.mk s.data.length) there) quiet

theorem same_localShape {name : List UInt8} {s t : St} {past : Past} (reads : Reads (Op.localShape name) s)
    (same : Same s t past) : (exec (Op.localShape name) t).1 = (exec (Op.localShape name) s).1 ∧
      ∃ past', Same (exec (Op.localShape name) s).2 (exec (Op.localShape name) t).2 past' := by
  have shown : t = s.withPast past := same.rest
  subst shown
  refine ⟨?_, past, same⟩
  change (s.withPast past).localShape name = s.localShape name
  unfold St.localShape
  have index : (s.withPast past).findLocalIdx name = s.findLocalIdx name := rfl
  rw [index]
  cases found : s.findLocalIdx name with
  | none => rfl
  | some i =>
      have own := reads i found
      change ((s.locals[i]?).bind Local.shape).getD _ = _
      dsimp only
      rw [Option.isSome_iff_exists] at own
      cases own with
      | intro shape own => rw [own, Option.getD_some, Option.getD_some]

theorem same_addLocal {name : List UInt8} {s t : St} {past : Past}
    (same : Same s t past) : (exec (Op.addLocal name) t).1 = (exec (Op.addLocal name) s).1 ∧
      ∃ past', Same (exec (Op.addLocal name) s).2 (exec (Op.addLocal name) t).2 past' := by
  have shown : t = s.withPast past := same.rest
  subst shown
  have pushed := St.withPast_pushLocal past { s with stackOffset := s.stackOffset - 4 } name
    (s.stackOffset - 4) ⟨4, false⟩
  cases pushed with
  | intro slots equal =>
      refine ⟨rfl, { past with slots := slots }, ?_⟩
      have lower : Quiet s { s with stackOffset := s.stackOffset - 4 } :=
        ⟨rfl, rfl, rfl, rfl, rfl, rfl, rfl, rfl⟩
      change Same _ (St.pushLocal (St.withPast { s with
        stackOffset := s.stackOffset - 4 } past) name (s.stackOffset - 4) ⟨4, false⟩) _
      rw [equal]
      exact (same.slots slots).move (lower.trans (pushLocal_quiet _ _ _ _))

theorem same_addArray {name : List UInt8} {bytes elem : UInt32} {s t : St} {past : Past}
    (same : Same s t past) : (exec (Op.addArray name bytes elem) t).1 = (exec (Op.addArray name bytes elem) s).1 ∧
      ∃ past', Same (exec (Op.addArray name bytes elem) s).2 (exec (Op.addArray name bytes elem) t).2 past' := by
  have shown : t = s.withPast past := same.rest
  subst shown
  have pushed := St.withPast_pushLocal past { s with stackOffset := s.stackOffset - bytes } name
    (s.stackOffset - bytes) ⟨elem, true⟩
  cases pushed with
  | intro slots equal =>
      refine ⟨rfl, { past with slots := slots }, ?_⟩
      have lower : Quiet s { s with stackOffset := s.stackOffset - bytes } :=
        ⟨rfl, rfl, rfl, rfl, rfl, rfl, rfl, rfl⟩
      change Same _ (St.pushLocal (St.withPast { s with
        stackOffset := s.stackOffset - bytes } past) name (s.stackOffset - bytes)
          ⟨elem, true⟩) _
      rw [equal]
      exact (same.slots slots).move (lower.trans (pushLocal_quiet _ _ _ _))

theorem same_emitBuiltin {name : List UInt8} {argc : Nat} {s t : St} {past : Past}
    (same : Same s t past) : (exec (Op.emitBuiltin name argc) t).1 = (exec (Op.emitBuiltin name argc) s).1 ∧
      ∃ past', Same (exec (Op.emitBuiltin name argc) s).2 (exec (Op.emitBuiltin name argc) t).2 past' := by
  have shown : t = s.withPast past := same.rest
  subst shown
  unfold exec
  dsimp only
  cases findBuiltin name argc with
  | none => exact ⟨rfl, past, same⟩
  | some b =>
      refine ⟨rfl, past, ?_⟩
      have equal : (s.withPast past).emitBuiltin b = (s.emitBuiltin b).withPast past := by
        unfold St.emitBuiltin
        rw [St.withPast_emit]
        rfl
      have emitted := emit_quiet b.code s
      have quiet : Quiet s (s.emitBuiltin b) :=
        ⟨emitted.num, emitted.str, emitted.ident, emitted.numKnown, emitted.strKnown,
          emitted.identKnown, emitted.current, emitted.increments⟩
      change Same (s.emitBuiltin b) ((s.withPast past).emitBuiltin b) past
      rw [equal]
      exact same.move quiet

theorem same_skipIncrement {s t : St} {past : Past}
    (same : Same s t past) : (exec Op.skipIncrement t).1 = (exec Op.skipIncrement s).1 ∧
      ∃ past', Same (exec Op.skipIncrement s).2 (exec Op.skipIncrement t).2 past' := by
  have shown : t = s.withPast past := same.rest
  subst shown
  refine ⟨rfl, past, rfl, same.num, same.str, same.ident, same.current, ?_⟩
  have behind := same.behind
  change ∀ inc ∈ St.withBody (St.skipTo 0 s.text) s.increments, _
  cases stack : s.increments with
  | nil => intro inc listed; cases listed
  | cons first outer =>
      rw [stack] at behind
      intro inc listed isString
      rcases List.mem_cons.mp listed with rfl | before
      · exact behind first List.mem_cons_self isString
      · exact behind inc (List.mem_cons_of_mem _ before) isString

theorem same_toIncrement {s t : St} {past : Past}
    (same : Same s t past) : (exec Op.toIncrement t).1 = (exec Op.toIncrement s).1 ∧
      ∃ past', Same (exec Op.toIncrement s).2 (exec Op.toIncrement t).2 past' := by
  have shown : t = s.withPast past := same.rest
  subst shown
  refine ⟨rfl, past, ?_⟩
  have behind := same.behind
  change Same s.toIncrement (s.withPast past).toIncrement past
  cases stack : s.increments with
  | nil =>
      have stack' : (s.withPast past).increments = [] := stack
      rw [St.toIncrement_nil stack, St.toIncrement_nil stack']
      refine ⟨rfl, same.num, same.str, same.ident, same.current, ?_⟩
      exact same.behind
  | cons first outer =>
      have stack' : (s.withPast past).increments = first :: outer := stack
      rw [St.toIncrement_cons stack, St.toIncrement_cons stack']
      rw [stack] at behind
      refine ⟨rfl, same.num, same.str, same.ident, same.current, ?_⟩
      intro inc listed isString
      rcases List.mem_cons.mp listed with rfl | before
      · exact same.current isString
      · exact behind inc (List.mem_cons_of_mem _ before) isString

theorem same_toBehind {s t : St} {past : Past}
    (same : Same s t past) : (exec Op.toBehind t).1 = (exec Op.toBehind s).1 ∧
      ∃ past', Same (exec Op.toBehind s).2 (exec Op.toBehind t).2 past' := by
  have shown : t = s.withPast past := same.rest
  subst shown
  refine ⟨rfl, past, ?_⟩
  have behind := same.behind
  change Same s.toBehind (s.withPast past).toBehind past
  cases stack : s.increments with
  | nil =>
      have stack' : (s.withPast past).increments = [] := stack
      rw [St.toBehind_nil stack, St.toBehind_nil stack']
      refine ⟨rfl, same.num, same.str, same.ident, same.current, ?_⟩
      exact same.behind
  | cons first outer =>
      have stack' : (s.withPast past).increments = first :: outer := stack
      rw [St.toBehind_cons stack, St.toBehind_cons stack']
      rw [stack] at behind
      refine ⟨rfl, same.num, same.str, same.ident, ?_, ?_⟩
      · exact fun isString => behind first List.mem_cons_self isString
      · exact fun inc listed isString =>
          behind inc (List.mem_cons_of_mem _ listed) isString

theorem same_step (op : Op) {s t : St} (reads : Reads op s) {past : Past} (same : Same s t past) :
    (exec op t).1 = (exec op s).1 ∧ ∃ past', Same (exec op s).2 (exec op t).2 past' := by
  have shown : t = s.withPast past := same.rest
  cases op with
  | nextToken => exact ⟨rfl, same.nextToken⟩
  | error => exact same_quiet same rfl rfl ⟨rfl, rfl, rfl, rfl, rfl, rfl, rfl, rfl⟩
  | token => exact same_quiet same rfl rfl (Quiet.refl s)
  | number =>
      subst shown
      exact ⟨same.num reads, past, same⟩
  | name =>
      subst shown
      refine ⟨?_, past, same⟩
      change past.ident.take 63 = s.tokIdent.take 63
      rw [same.ident reads]
  | position => exact same_quiet same rfl rfl (Quiet.refl s)
  | text => exact same_quiet same rfl rfl (Quiet.refl s)
  | emit bytes =>
      exact same_quiet same rfl (congrArg (Prod.mk ()) (St.withPast_emit past bytes s))
        (emit_quiet bytes s)
  | patchHere field =>
      exact same_quiet same rfl (congrArg (Prod.mk ()) (St.withPast_patchHere past s field))
        (patchHere_quiet s field)
  | storeString => exact same_storeString same
  | strField dataOff =>
      exact same_quiet same rfl (congrArg (Prod.mk ()) (St.withPast_strField past s dataOff))
        (strField_quiet s dataOff)
  | globField bssOff =>
      exact same_quiet same rfl (congrArg (Prod.mk ()) (St.withPast_globField past s bssOff))
        (globField_quiet s bssOff)
  | callField name =>
      exact same_quiet same rfl (congrArg (Prod.mk ()) (St.withPast_callField past s name))
        (callField_quiet s name)
  | jumpField =>
      have recorded : Quiet s { s with fields := s.fields ++ [s.cp] } :=
        ⟨rfl, rfl, rfl, rfl, rfl, rfl, rfl, rfl⟩
      exact same_quiet same rfl (congrArg (Prod.mk s.fields.length)
        (St.withPast_emit past (le32 0) { s with fields := s.fields ++ [s.cp] }))
        (recorded.trans (emit_quiet _ _))
  | findLocal name => exact same_quiet same rfl rfl (Quiet.refl s)
  | findGlobal name => exact same_quiet same rfl rfl (Quiet.refl s)
  | localShape name => exact same_localShape reads same
  | addLocal name => exact same_addLocal same
  | addArray name bytes elem => exact same_addArray same
  | addParam =>
      have there : (s.withPast past).addParam (past.ident.take 63) =
          (s.addParam (s.tokIdent.take 63)).withPast past := by
        rw [same.ident reads]
        rfl
      exact same_quiet same rfl (congrArg (Prod.mk ()) there)
        ⟨rfl, rfl, rfl, rfl, rfl, rfl, rfl, rfl⟩
  | addFunc name => exact same_quiet same rfl rfl ⟨rfl, rfl, rfl, rfl, rfl, rfl, rfl, rfl⟩
  | resetLocals => exact same_quiet same rfl rfl ⟨rfl, rfl, rfl, rfl, rfl, rfl, rfl, rfl⟩
  | addGlobal name count width shape =>
      exact same_quiet same rfl
        (congrArg (Prod.mk ()) (St.withPast_addGlobal past s name count width shape))
        (addGlobal_quiet s name count width shape)
  | loopEnter => exact same_quiet same rfl rfl ⟨rfl, rfl, rfl, rfl, rfl, rfl, rfl, rfl⟩
  | loopExit =>
      exact same_quiet same rfl (congrArg (Prod.mk ()) (St.withPast_loopExit past s))
        (loopExit_quiet s)
  | loopPatchContinues target =>
      exact same_quiet same rfl
        (congrArg (Prod.mk ()) (St.withPast_loopPatchContinues past s target))
        (loopPatchContinues_quiet s target)
  | emitBreak | emitContinue =>
      exact same_quiet same rfl (congrArg (Prod.mk ()) (St.withPast_jumpInLoop past s _ _))
        (jumpInLoop_quiet s _ _)
  | emitBuiltin name argc => exact same_emitBuiltin same
  | markIncrement =>
      subst shown
      refine ⟨rfl, past, rfl, same.num, same.str, same.ident, same.current, ?_⟩
      intro inc listed isString
      rcases List.mem_cons.mp listed with rfl | before
      · cases isString
      · exact same.behind inc before isString
  | skipIncrement => exact same_skipIncrement same
  | toIncrement => exact same_toIncrement same
  | toBehind => exact same_toBehind same
  | rewind text =>
      subst shown
      refine ⟨rfl, past, rfl, same.num, same.str, same.ident, ?_, same.behind⟩
      intro isString
      cases isString

/-! ## Names are read before they are used -/

/-- An operation does not read a shape or a number that is left from before: a size is taken when
the lexer has read a number, and an indexed variable is not a parameter. -/
def Fresh (op : Op) (s : St) : Prop :=
  match op with
  | .number => s.numKnown = true
  | .localShape name =>
      ∀ i, s.findLocalIdx name = some i → ((s.locals[i]?).bind Local.shape).isSome = true
  | _ => True

theorem reads_of_fresh (op : Op) (s : St) (known : s.identKnown = true) (fresh : Fresh op s) :
    Reads op s := by
  cases op <;> first | exact fresh | exact known

theorem identKnown_step (op : Op) (s : St) (known : s.identKnown = true) :
    (exec op s).2.identKnown = true := by
  have quiet {t : St} (same : Quiet s t) : t.identKnown = true := same.identKnown.trans known
  cases op with
  | nextToken =>
      change (s.identKnown || (lex s.text).ident.isSome) = true
      rw [known, Bool.true_or]
  | emit bytes => exact quiet (emit_quiet bytes s)
  | patchHere field => exact quiet (patchHere_quiet s field)
  | storeString =>
      change (if s.curToken = .str then s.storeString else s).identKnown = true
      split_ifs <;> exact known
  | strField dataOff =>
      unfold exec
      dsimp only
      exact quiet (strField_quiet s dataOff)
  | globField bssOff =>
      unfold exec
      dsimp only
      exact quiet (globField_quiet s bssOff)
  | callField name =>
      unfold exec
      dsimp only
      exact quiet (callField_quiet s name)
  | jumpField =>
      have recorded : Quiet s { s with fields := s.fields ++ [s.cp] } :=
        ⟨rfl, rfl, rfl, rfl, rfl, rfl, rfl, rfl⟩
      exact quiet (recorded.trans (emit_quiet _ _))
  | addLocal name =>
      have lower : Quiet s { s with stackOffset := s.stackOffset - 4 } :=
        ⟨rfl, rfl, rfl, rfl, rfl, rfl, rfl, rfl⟩
      exact quiet (lower.trans (pushLocal_quiet _ _ _ _))
  | addArray name bytes elem =>
      have lower : Quiet s { s with stackOffset := s.stackOffset - bytes } :=
        ⟨rfl, rfl, rfl, rfl, rfl, rfl, rfl, rfl⟩
      exact quiet (lower.trans (pushLocal_quiet _ _ _ _))
  | addGlobal name count width shape => exact quiet (addGlobal_quiet s name count width shape)
  | loopExit => exact quiet (loopExit_quiet s)
  | loopPatchContinues target => exact quiet (loopPatchContinues_quiet s target)
  | emitBreak => exact (emitBreak_quiet s).identKnown.trans known
  | emitContinue => exact (emitContinue_quiet s).identKnown.trans known
  | emitBuiltin name argc =>
      unfold exec
      dsimp only
      cases findBuiltin name argc with
      | none => exact known
      | some b => exact (emit_quiet b.code s).identKnown.trans known
  | toIncrement =>
      change s.toIncrement.identKnown = true
      unfold St.toIncrement
      cases s.increments <;> exact known
  | toBehind =>
      change s.toBehind.identKnown = true
      unfold St.toBehind
      cases s.increments <;> exact known
  | _ => exact known

def typeToks : List Tok := [.int, .char, .void]

theorem lex_type {text : List UInt8} (isType : (lex text).tok ∈ typeToks) :
    (lex text).ident.isSome = true := by
  have operator := @lexOperator_tok (· ∉ typeToks) (by decide) (by decide) (by decide)
  unfold lex at isType ⊢
  dsimp only at isType ⊢
  split_ifs at isType ⊢
  · exact absurd isType (show Tok.eof ∉ typeToks by decide)
  · rw [lexNumber_tok] at isType
    exact absurd isType (show Tok.num ∉ typeToks by decide)
  · exact absurd isType (show Tok.str ∉ typeToks by decide)
  · exact absurd isType (show Tok.num ∉ typeToks by decide)
  · rfl
  · exact absurd isType (operator _ _)

def Typed (s : St) : Prop := s.curToken ∈ typeToks → s.identKnown = true

theorem nextToken_typed (s : St) : Typed s.nextToken := by
  intro isType
  change (s.identKnown || (lex s.text).ident.isSome) = true
  rw [lex_type isType, Bool.or_true]

/-- A declaration reads no name before the lexer has read one. -/
theorem parseTop_reads (bound : Nat) {s : St} (typed : Typed s)
    (fresh : (parseTop bound).Always exec Fresh s) :
    (parseTop bound).Always exec Reads s ∧ Typed ((parseTop bound).run exec s).2 := by
  by_cases isType : s.curToken ∈ typeToks
  · have known := typed isType
    refine ⟨Program.always_of_invariant identKnown_step reads_of_fresh _ known fresh, ?_⟩
    intro _
    exact Program.run_invariant identKnown_step _ known
  · have rest : (if s.curToken ∈ [Tok.int, Tok.char, Tok.void] then parseTyped bound s.curToken
        else skipToken) = skipToken := if_neg isType
    constructor
    · change True ∧ Program.Always exec Reads (if s.curToken ∈ [Tok.int, Tok.char, Tok.void] then
        parseTyped bound s.curToken else skipToken) s
      rw [rest]
      exact ⟨trivial, trivial, trivial, trivial⟩
    · change Typed (Program.run exec (if s.curToken ∈ [Tok.int, Tok.char, Tok.void] then
        parseTyped bound s.curToken else skipToken) s).2
      rw [rest]
      exact nextToken_typed _

/-- The declarations of a file read no name before the lexer has read one. -/
theorem parseTops_reads (depth : Nat) : ∀ (bound : Nat) {s : St}, Typed s →
    (Program.loop (do return (← token) ≠ .eof) (parseTop depth) bound).Always exec Fresh s →
      (Program.loop (do return (← token) ≠ .eof) (parseTop depth) bound).Always exec Reads s := by
  intro bound
  induction bound with
  | zero => intro s _ _; trivial
  | succ bound bound_ih =>
      intro s typed fresh
      change True ∧ Program.Always exec Fresh (if decide (s.curToken ≠ .eof) then
        (parseTop depth).bind fun _ => Program.loop _ (parseTop depth) bound else .done ()) s
        at fresh
      change True ∧ Program.Always exec Reads (if decide (s.curToken ≠ .eof) then
        (parseTop depth).bind fun _ => Program.loop _ (parseTop depth) bound else .done ()) s
      refine ⟨trivial, ?_⟩
      have fresh := fresh.2
      by_cases more : decide (s.curToken ≠ .eof) = true
      · rw [if_pos more] at fresh ⊢
        rw [Program.always_bind] at fresh ⊢
        have first := parseTop_reads depth typed fresh.1
        refine ⟨first.1, ?_⟩
        intro value ends
        exact bound_ih first.2 (fresh.2 value ends)
      · rw [if_neg more]
        trivial

/-! ## Whole compilations -/

/-- Two runs of the parser from states that are the same but for what is left from before. -/
theorem run_same {α : Type} (p : M α) {s t : St} {past : Past} (same : Same s t past)
    (reads : p.Always exec Reads s) :
    (p.run exec t).1 = (p.run exec s).1 ∧
      ∃ past', Same (p.run exec s).2 (p.run exec t).2 past' := by
  have kept (op : Op) (s t : St) (reads : Reads op s) (same : ∃ past, Same s t past) :
      (exec op t).1 = (exec op s).1 ∧ ∃ past', Same (exec op s).2 (exec op t).2 past' := by
    cases same with
    | intro past same => exact same_step op reads same
  exact Program.run_related kept p ⟨past, same⟩ reads

theorem emit_setToken (tok : Tok) (bytes : List UInt8) : ∀ s : St,
    St.emit { s with curToken := tok } bytes = { s.emit bytes with curToken := tok } := by
  induction bytes with
  | nil => intro s; rfl
  | cons b rest rest_ih =>
      intro s
      have one : St.e8 { s with curToken := tok } b = { s.e8 b with curToken := tok } := by
        unfold St.e8
        dsimp only
        split_ifs <;> rfl
      have step (u : St) : u.emit (b :: rest) = (u.e8 b).emit rest := rfl
      rw [step, step, one, rest_ih]

theorem nextToken_forgets (tok : Tok) (bytes : List UInt8) (s : St) :
    (St.emit { s with curToken := tok } bytes).nextToken = (s.emit bytes).nextToken := by
  rw [emit_setToken]
  rfl

theorem Same.first {s t : St} {past : Past} (same : Same s t past) (bytes : List UInt8) :
    ∃ past', Same (s.emit bytes).nextToken (t.emit bytes).nextToken past' := by
  have emitted := same_step (.emit bytes) trivial same
  cases emitted.2 with
  | intro past same => exact Same.nextToken same

/-- Where the first token was read, two compilations of a text are the same but for the past. -/
theorem start_same (history history' : History) (text : List UInt8) (bytes : List UInt8) :
    ∃ past, Same ((St.start history text).emit bytes).nextToken
      ((St.start history' text).emit bytes).nextToken past := by
  have start : Same { St.start history text with curToken := .eof }
      { St.start history' text with curToken := .eof }
      ⟨history'.slots, history'.tokNum, history'.tokStr, history'.tokIdent,
        false, false, false⟩ := by
    refine ⟨rfl, ?_, ?_, ?_, ?_, ?_⟩
    · intro known
      cases known
    · intro known
      cases known
    · intro known
      cases known
    · intro isString
      cases isString
    · intro inc listed
      cases listed
  rw [← nextToken_forgets .eof bytes (St.start history text),
    ← nextToken_forgets .eof bytes (St.start history' text)]
  exact start.first bytes

/-- A compilation that reads nothing left from before: every size comes behind a number, no
parameter is indexed, and nothing outside of the tables or behind the text is used. -/
structure OwnOnly (bound : Nat) (history : History) (text : List UInt8) : Prop where
  fresh : (parseFile bound).Always exec Fresh (St.start history text)
  inside : ((parseFile bound).run exec (St.start history text)).2.outside = false
  within : ((parseFile bound).run exec (St.start history text)).2.behind = false

namespace St

theorem withPast_fold {β : Type} (past : Past) (f : St → β → St)
    (same : ∀ s b, f (s.withPast past) b = (f s b).withPast past) (list : List β) : ∀ s : St,
      list.foldl f (s.withPast past) = (list.foldl f s).withPast past := by
  induction list with
  | nil => intro s; rfl
  | cons b rest rest_ih =>
      intro s
      rw [List.foldl_cons, List.foldl_cons, same, rest_ih]

theorem withPast_linkCall (past : Past) (s : St) (fixup : Nat × List UInt8) :
    (s.withPast past).linkCall fixup = (s.linkCall fixup).withPast past := by
  cases found : s.findFunc fixup.2 with
  | none =>
      have found' : (s.withPast past).findFunc fixup.2 = none := found
      rw [linkCall_none found, linkCall_none found']
  | some f =>
      have found' : (s.withPast past).findFunc fixup.2 = some f := found
      rw [linkCall_some found, linkCall_some found']
      rfl

theorem withPast_link (past : Past) (s : St) (main : Nat) :
    (s.withPast past).link main = (s.link main).withPast past := by
  have patched : (s.withPast past).patch32 1 (UInt32.ofNat main - 1 - 4) =
      (s.patch32 1 (UInt32.ofNat main - 1 - 4)).withPast past := rfl
  unfold link
  dsimp only
  rw [patched]
  generalize s.patch32 1 (UInt32.ofNat main - 1 - 4) = u
  have calls := withPast_fold past linkCall (withPast_linkCall past) u.callFixups u
  have fixups : (u.withPast past).callFixups = u.callFixups := rfl
  rw [fixups, calls]
  generalize u.callFixups.foldl linkCall u = u
  have strs := withPast_fold past
    (fun s fixup => s.patch32 fixup.1 (s.dataBase + UInt32.ofNat fixup.2)) (fun _ _ => rfl)
    u.strFixups u
  have fixups : (u.withPast past).strFixups = u.strFixups := rfl
  rw [fixups, strs]
  generalize u.strFixups.foldl
    (fun s fixup => s.patch32 fixup.1 (s.dataBase + UInt32.ofNat fixup.2)) u = u
  exact withPast_fold past
    (fun s fixup => s.patch32 fixup.1 (s.bssBase + fixup.2)) (fun _ _ => rfl) u.globFixups u

end St

/-- What is written depends on what a state holds of its own. -/
theorem finish_withPast (s : St) (past : Past) : finish (s.withPast past) = finish s := by
  have main : (s.withPast past).findFunc (literal "main") = s.findFunc (literal "main") := rfl
  have errors : (s.withPast past).errCount = s.errCount := rfl
  unfold finish
  rw [main, errors]
  cases s.findFunc (literal "main") with
  | none => rfl
  | some f =>
      dsimp only
      rw [St.withPast_link]
      rfl

theorem parseFile_fresh {bound : Nat} {s : St} (fresh : (parseFile bound).Always exec Fresh s) :
    (parseTops bound).Always exec Reads (s.emit startCode).nextToken := by
  rw [parseFile_eq] at fresh
  generalize startCode = bytes at fresh ⊢
  exact parseTops_reads bound bound (nextToken_typed _) fresh.2.2

theorem compile_same {bound : Nat} {history : History} {text : List UInt8}
    (own : OwnOnly bound history text) (history' : History) :
    compile bound history' text = compile bound history text := by
  cases start_same history history' text startCode with
  | intro past same =>
      have runs := run_same _ same (parseFile_fresh own.fresh)
      have inside := own.inside
      have within := own.within
      unfold compile
      dsimp only
      rw [parseFile_run] at inside within ⊢
      rw [parseFile_run, runs.1]
      cases runs.2 with
      | intro past same =>
          rw [same.rest, finish_withPast]
          have outside (u : St) : (u.withPast past).outside = u.outside := rfl
          have behind (u : St) : (u.withPast past).behind = u.behind := rfl
          rw [outside, behind, inside, within]
          rfl

/-! ## Functions -/

/-- What an earlier function leaves: the variables it declared, the shapes in the slots, and the
number and the string that the lexer read last. -/
structure Left where
  locals : List Local
  stackOffset : UInt32
  slots : Nat → Shape
  num : UInt32
  str : List UInt8
  numKnown : Bool
  strKnown : Bool

namespace St

def withFrame (s : St) (locals : List Local) (stackOffset : UInt32) : St :=
  { s with locals := locals, stackOffset := stackOffset }

def withLeft (s : St) (left : Left) : St :=
  (s.withPast ⟨left.slots, left.num, left.str, s.tokIdent, left.numKnown, left.strKnown,
    s.identKnown⟩).withFrame left.locals left.stackOffset

/-- A state in which nothing is known of the numbers and the strings the lexer read. -/
def unmarked (s : St) : St := { s with numKnown := false, strKnown := false }

/-- The state in which `parse_function` is called: its name was read, and no loop is open. -/
structure AtFunction (s : St) : Prop where
  current : s.curToken = .ident
  known : s.identKnown = true
  noLoop : s.increments = []

end St

def HeadOp : Op → Prop
  | .name | .nextToken | .addFunc _ | .token | .error => True
  | _ => False

theorem head_withFrame {op : Op} (head : HeadOp op) (s : St) (locals : List Local)
    (stackOffset : UInt32) :
    exec op (s.withFrame locals stackOffset) =
      ((exec op s).1, (exec op s).2.withFrame locals stackOffset) := by
  cases op with
  | name => rfl
  | nextToken => rfl
  | addFunc name => rfl
  | token => rfl
  | error => rfl
  | _ => cases head

def SameHead (s t : St) : Prop := ∃ past, Same s (t.withFrame s.locals s.stackOffset) past

theorem sameHead_step (op : Op) (s t : St) (condition : HeadOp op ∧ Reads op s)
    (same : SameHead s t) :
    (exec op t).1 = (exec op s).1 ∧ SameHead (exec op s).2 (exec op t).2 := by
  cases same with
  | intro past same =>
      have step := same_step op condition.2 same
      rw [head_withFrame condition.1] at step
      have kept : (exec op s).2.withFrame s.locals s.stackOffset = (exec op s).2 := by
        have own := head_withFrame condition.1 s s.locals s.stackOffset
        exact (congrArg Prod.snd own).symm
      have locals := congrArg St.locals kept
      have offset := congrArg St.stackOffset kept
      change s.locals = (exec op s).2.locals at locals
      change s.stackOffset = (exec op s).2.stackOffset at offset
      refine ⟨step.1, ?_⟩
      unfold SameHead
      rw [← locals, ← offset]
      exact step.2

/-- The name of a function is read, and nothing else is in front of its variables. -/
theorem parseHead_head {s : St} (known : s.identKnown = true) :
    parseHead.Always exec (fun op s => HeadOp op ∧ Reads op s) s := by
  have rest (t : St) : (expect .lparen).Always exec (fun op s => HeadOp op ∧ Reads op s) t := by
    change (True ∧ True) ∧ Program.Always exec _
      (if t.curToken ≠ .lparen then (do error; error; nextToken) else nextToken) t
    refine ⟨⟨trivial, trivial⟩, ?_⟩
    by_cases wrong : t.curToken ≠ .lparen
    · rw [if_pos wrong]
      exact ⟨⟨trivial, trivial⟩, ⟨trivial, trivial⟩, ⟨trivial, trivial⟩, trivial⟩
    · rw [if_neg wrong]
      exact ⟨⟨trivial, trivial⟩, trivial⟩
  exact ⟨⟨trivial, known⟩, ⟨trivial, trivial⟩, ⟨trivial, trivial⟩, rest _⟩

theorem parseHead_ends (s : St) : (parseHead.run exec s).1 = some () := by
  have rest (t : St) : ((expect .lparen).run exec t).1 = some () := by
    change (Program.run exec (if t.curToken ≠ .lparen then (do error; error; nextToken)
      else nextToken) t).1 = some ()
    split_ifs <;> rfl
  exact rest _

theorem parseFunction_run (bound : Nat) (s : St) :
    (parseFunction bound).run exec s =
      match parseHead.run exec s with
      | (some _, t) => (parseBody bound).run exec t.resetLocals
      | (none, t) => (none, t) := by
  have shape : parseFunction bound =
      parseHead.bind fun _ => .perform .resetLocals fun _ => parseBody bound := rfl
  rw [shape, Program.run_bind]
  cases parseHead.run exec s with
  | mk result t => cases result <;> rfl

theorem parseFunction_fresh {bound : Nat} {s : St}
    (fresh : (parseFunction bound).Always exec Fresh s) {value : Unit}
    (ends : (parseHead.run exec s).1 = some value) :
    (parseBody bound).Always exec Fresh (parseHead.run exec s).2.resetLocals := by
  have shape : parseFunction bound =
      parseHead.bind fun _ => .perform .resetLocals fun _ => parseBody bound := rfl
  rw [shape, Program.always_bind] at fresh
  exact (fresh.2 value ends).2

/-- What a function compiles to does not depend on what is left from other functions, if it reads
nothing left from before: every size in it comes behind a number, and no parameter is indexed. -/
theorem parseFunction_left (bound : Nat) {s : St} (start : s.AtFunction)
    (fresh : (parseFunction bound).Always exec Fresh s.unmarked) (left : Left) :
    ((parseFunction bound).run exec (s.withLeft left)).1 =
        ((parseFunction bound).run exec s.unmarked).1 ∧
      ∃ past, ((parseFunction bound).run exec (s.withLeft left)).2 =
        ((parseFunction bound).run exec s.unmarked).2.withPast past := by
  have same : SameHead s.unmarked (s.withLeft left) := by
    refine ⟨⟨left.slots, left.num, left.str, s.tokIdent, left.numKnown, left.strKnown,
      s.identKnown⟩, rfl, ?_, ?_, ?_, ?_, ?_⟩
    · intro known
      cases known
    · intro known
      cases known
    · intro _
      rfl
    · intro isString
      have other : s.curToken = .str := isString
      rw [start.current] at other
      cases other
    · intro inc listed
      have listed : inc ∈ s.increments := listed
      rw [start.noLoop] at listed
      cases listed
  have known : s.unmarked.identKnown = true := start.known
  generalize s.unmarked = u at fresh same known ⊢
  generalize s.withLeft left = t at same ⊢
  have heads := Program.run_related sameHead_step parseHead same (parseHead_head known)
  have known' := Program.run_invariant identKnown_step parseHead known
  rw [parseFunction_run, parseFunction_run]
  have behind (value : Unit) (ends : (parseHead.run exec u).1 = some value) :=
    parseFunction_fresh fresh ends
  have ended := parseHead_ends u
  generalize parseHead.run exec u = here at heads known' behind ended ⊢
  generalize parseHead.run exec t = there at heads ⊢
  cases here with
  | mk result u =>
  cases there with
  | mk result' t =>
  have results : result' = result := heads.1
  subst results
  cases heads.2 with
  | intro past same =>
  cases result' with
  | none =>
      cases ended
  | some value =>
      have emptied : Same u.resetLocals t.resetLocals past :=
        ⟨congrArg St.resetLocals same.rest, same.num, same.str, same.ident, same.current,
          same.behind⟩
      have reads := Program.always_of_invariant identKnown_step reads_of_fresh _
        (show u.resetLocals.identKnown = true from known') (behind value rfl)
      have bodies := run_same (parseBody bound) emptied reads
      refine ⟨bodies.1, ?_⟩
      cases bodies.2 with
      | intro past same => exact ⟨past, same.rest⟩

/-- Both results of a function from a state, and from one with other entries left, whatever the
lexer has read before. -/
theorem parseFunction_same (bound : Nat) {s : St} (start : s.AtFunction)
    (fresh : (parseFunction bound).Always exec Fresh s.unmarked) (left : Left) :
    ((parseFunction bound).run exec (s.withLeft left)).1 = ((parseFunction bound).run exec s).1 ∧
      ∃ past, ((parseFunction bound).run exec (s.withLeft left)).2 =
        ((parseFunction bound).run exec s).2.withPast past := by
  have other := parseFunction_left bound start fresh left
  have own := parseFunction_left bound start fresh
    ⟨s.locals, s.stackOffset, s.slots, s.tokNum, s.tokStr, s.numKnown, s.strKnown⟩
  have there : s.withLeft ⟨s.locals, s.stackOffset, s.slots, s.tokNum, s.tokStr, s.numKnown,
      s.strKnown⟩ = s := rfl
  rw [there] at own
  refine ⟨other.1.trans own.1.symm, ?_⟩
  cases other.2 with
  | intro past shown =>
      cases own.2 with
      | intro past' shown' =>
          refine ⟨past, ?_⟩
          rw [shown, shown', St.withPast_withPast]

/-! ## Independence -/

instance decidableFresh (op : Op) (s : St) : Decidable (Fresh op s) :=
  match op with
  | .number => inferInstanceAs (Decidable (s.numKnown = true))
  | .localShape name =>
      inferInstanceAs (Decidable (∀ i ∈ s.findLocalIdx name,
        ((s.locals[i]?).bind Local.shape).isSome = true))
  | .nextToken | .error | .token | .name | .position | .text => isTrue trivial
  | .emit _ | .patchHere _ => isTrue trivial
  | .storeString | .strField _ | .globField _ | .callField _ | .jumpField => isTrue trivial
  | .findLocal _ | .findGlobal _ | .addLocal _ | .addArray _ _ _ | .addParam => isTrue trivial
  | .addFunc _ | .resetLocals | .addGlobal _ _ _ _ | .loopEnter | .loopExit => isTrue trivial
  | .loopPatchContinues _ | .emitBreak | .emitContinue | .emitBuiltin _ _ => isTrue trivial
  | .markIncrement | .skipIncrement | .toIncrement | .toBehind | .rewind _ => isTrue trivial

/-- A compilation that reads nothing left from before gives the same result and the same file
after any others, and so does a function after any other functions. -/
theorem history_independent (bound : Nat) :
    (∀ (history : History) (text : List UInt8), OwnOnly bound history text →
      ∀ history', compile bound history' text = compile bound history text) ∧
    (∀ s : St, s.AtFunction → (parseFunction bound).Always exec Fresh s.unmarked →
      ∀ left : Left,
        ((parseFunction bound).run exec (s.withLeft left)).1 =
            ((parseFunction bound).run exec s).1 ∧
          ∃ past, ((parseFunction bound).run exec (s.withLeft left)).2 =
            ((parseFunction bound).run exec s).2.withPast past) :=
  ⟨fun _ _ own history' => compile_same own history',
    fun _ start fresh left => parseFunction_same bound start fresh left⟩

def plain : List UInt8 := literal "int main(){int x;x=1;}"

def indexing : List UInt8 := literal "int main(int a){return a[1];}"

def atPlain : St := { St.start .none (literal "(){int x;x=1;}") with
  curToken := .ident, tokIdent := literal "f", identKnown := true }

theorem history_independent_plain :
    (∀ history, compile 6 history plain = compile 6 .none plain) ∧
      ∀ left : Left, ((parseFunction 6).run exec (atPlain.withLeft left)).1 =
          ((parseFunction 6).run exec atPlain).1 ∧
        ∃ past, ((parseFunction 6).run exec (atPlain.withLeft left)).2 =
          ((parseFunction 6).run exec atPlain).2.withPast past := by
  constructor
  · exact (history_independent 6).1 .none plain
      ⟨by decide +kernel, by decide +kernel, by decide +kernel⟩
  · exact (history_independent 6).2 atPlain ⟨rfl, rfl, rfl⟩ (by decide +kernel)

/-- The first compilation scales the index by the zero that its slot holds, the one behind another
program by four bytes. -/
theorem indexing_differs :
    compile 6 (History.after 6 .none plain) indexing ≠ compile 6 .none indexing := by
  decide +kernel

end Tcc

end Trinux
