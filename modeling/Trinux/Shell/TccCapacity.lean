import Trinux.Shell.TccParser

namespace Trinux

/-!
# The tables of the compiler

Every operation either finds room for what it adds, or marks that it wrote outside of a table or
dropped something.  The positions that are patched later are inside of the code because they were
recorded with their field behind them.
-/

namespace Tcc

open Bytes

/-! ## Room -/

/-- The loop that `break` and `continue` belong to, if there is one that the table holds. -/
def St.innermost (s : St) : Option LoopCtx :=
  match s.loopStack with
  | [] => none
  | ctx :: outer => if maxLoopDepth ≤ outer.length then none else some ctx

def Room (op : Op) (s : St) : Prop :=
  match op with
  | .nextToken => ((lex s.text).ident.getD []).length ≤ 63
  | .emit bytes => s.cp + bytes.length ≤ maxCode
  | .jumpField => s.cp + 4 ≤ maxCode
  | .strField _ => s.cp + 4 ≤ maxCode ∧ s.strFixups.length < maxStrings
  | .globField _ => s.cp + 4 ≤ maxCode ∧ s.globFixups.length < maxGlobFixups
  | .callField _ => s.cp + 4 ≤ maxCode ∧ s.callFixups.length < maxCallFixups
  | .storeString =>
      s.curToken = .str → s.data.length + (s.tokStr.takeWhile (· ≠ 0)).length + 1 ≤ maxData
  | .addLocal _ | .addArray _ _ _ | .addParam => s.locals.length < maxVars
  | .addFunc _ => s.funcs.length < maxFuncs
  | .addGlobal _ _ _ _ => s.globals.length < maxGlobals
  | .loopEnter => s.loopStack.length < maxLoopDepth
  | .emitBreak =>
      ∀ ctx, s.innermost = some ctx → s.cp + 5 ≤ maxCode ∧ ctx.breaks.length < maxBreaks
  | .emitContinue =>
      ∀ ctx, s.innermost = some ctx → s.cp + 5 ≤ maxCode ∧ ctx.continues.length < maxBreaks
  | .emitBuiltin name argc => ∀ b, findBuiltin name argc = some b → s.cp + b.code.length ≤ maxCode
  | _ => True

instance (s : St) (P : LoopCtx → Prop) [DecidablePred P] :
    Decidable (∀ ctx, s.innermost = some ctx → P ctx) :=
  match found : s.innermost with
  | none => isTrue fun ctx same => by cases same
  | some ctx =>
      if holds : P ctx then isTrue fun ctx' same => by cases same; exact holds
      else isFalse fun all => holds (all ctx rfl)

instance (name : List UInt8) (argc : Nat) (P : Builtin → Prop) [DecidablePred P] :
    Decidable (∀ b, findBuiltin name argc = some b → P b) :=
  match found : findBuiltin name argc with
  | none => isTrue fun b same => by cases same
  | some b =>
      if holds : P b then isTrue fun b' same => by cases same; exact holds
      else isFalse fun all => holds (all b rfl)

instance (op : Op) (s : St) : Decidable (Room op s) := by
  cases op <;> unfold Room <;> infer_instance

def Inside (s : St) (off : Nat) : Prop := off + 4 ≤ s.cp

/-- What is in the tables fits, and every recorded position is inside of the code. -/
structure Within (s : St) : Prop where
  code : s.cp ≤ maxCode
  fields : ∀ off ∈ s.fields, Inside s off
  breaks : ∀ ctx ∈ s.loopStack, ∀ off ∈ ctx.breaks, Inside s off
  continues : ∀ ctx ∈ s.loopStack, ∀ off ∈ ctx.continues, Inside s off
  calls : ∀ fixup ∈ s.callFixups, Inside s fixup.1
  strings : ∀ fixup ∈ s.strFixups, Inside s fixup.1
  globals : ∀ fixup ∈ s.globFixups, Inside s fixup.1
  depth : s.loopStack.length ≤ maxLoopDepth
  inside : s.outside = false
  kept : s.dropped = false

/-- A state that keeps the recorded positions of another one, with at least as much code. -/
structure Grows (s t : St) : Prop where
  code : s.cp ≤ t.cp
  most : t.cp ≤ maxCode
  fields : t.fields = s.fields
  loops : t.loopStack = s.loopStack
  calls : t.callFixups = s.callFixups
  strings : t.strFixups = s.strFixups
  globals : t.globFixups = s.globFixups
  outside : t.outside = s.outside
  dropped : t.dropped = s.dropped

theorem Within.grows {s t : St} (within : Within s) (grows : Grows s t) : Within t := by
  have later (off : Nat) (inside : Inside s off) : Inside t off := le_trans inside grows.code
  constructor
  · exact grows.most
  · rw [grows.fields]
    exact fun off listed => later off (within.fields off listed)
  · rw [grows.loops]
    exact fun ctx one off listed => later off (within.breaks ctx one off listed)
  · rw [grows.loops]
    exact fun ctx one off listed => later off (within.continues ctx one off listed)
  · rw [grows.calls]
    exact fun fixup listed => later _ (within.calls fixup listed)
  · rw [grows.strings]
    exact fun fixup listed => later _ (within.strings fixup listed)
  · rw [grows.globals]
    exact fun fixup listed => later _ (within.globals fixup listed)
  · rw [grows.loops]
    exact within.depth
  · rw [grows.outside]
    exact within.inside
  · rw [grows.dropped]
    exact within.kept

/-- Bytes for which there is room only make the code longer. -/
theorem emit_grows (bytes : List UInt8) : ∀ {s : St}, s.cp + bytes.length ≤ maxCode →
    Grows s (s.emit bytes) ∧ (s.emit bytes).cp = s.cp + bytes.length := by
  induction bytes with
  | nil =>
      intro s room
      exact ⟨⟨le_rfl, room, rfl, rfl, rfl, rfl, rfl, rfl, rfl⟩, rfl⟩
  | cons b rest rest_ih =>
      intro s room
      rw [List.length_cons] at room
      have step : s.emit (b :: rest) = (s.e8 b).emit rest := rfl
      have one : (s.e8 b).cp = s.cp + 1 := by
        rw [St.e8, if_pos (by omega)]
      have fits : (s.e8 b).cp + rest.length ≤ maxCode := by omega
      have others := rest_ih fits
      rw [step]
      have first : Grows s (s.e8 b) := by
        constructor
        · omega
        · omega
        all_goals rw [St.e8, if_pos (by omega)]
      constructor
      · constructor
        · exact le_trans first.code others.1.code
        · exact others.1.most
        · rw [others.1.fields, first.fields]
        · rw [others.1.loops, first.loops]
        · rw [others.1.calls, first.calls]
        · rw [others.1.strings, first.strings]
        · rw [others.1.globals, first.globals]
        · rw [others.1.outside, first.outside]
        · rw [others.1.dropped, first.dropped]
      · rw [others.2, one, List.length_cons]
        omega

structure Records (s t : St) : Prop where
  code : t.cp = s.cp
  fields : ∀ off ∈ t.fields, off = s.cp ∨ off ∈ s.fields
  breaks : ∀ ctx ∈ t.loopStack, ∀ off ∈ ctx.breaks,
    off = s.cp ∨ ∃ old ∈ s.loopStack, off ∈ old.breaks
  continues : ∀ ctx ∈ t.loopStack, ∀ off ∈ ctx.continues,
    off = s.cp ∨ ∃ old ∈ s.loopStack, off ∈ old.continues
  calls : ∀ fixup ∈ t.callFixups, fixup.1 = s.cp ∨ fixup ∈ s.callFixups
  strings : ∀ fixup ∈ t.strFixups, fixup.1 = s.cp ∨ fixup ∈ s.strFixups
  globals : ∀ fixup ∈ t.globFixups, fixup.1 = s.cp ∨ fixup ∈ s.globFixups
  depth : t.loopStack.length = s.loopStack.length
  outside : t.outside = s.outside
  dropped : t.dropped = s.dropped

theorem Records.refl (s : St) : Records s s where
  code := rfl
  fields := fun _ listed => Or.inr listed
  breaks := fun ctx one _ listed => Or.inr ⟨ctx, one, listed⟩
  continues := fun ctx one _ listed => Or.inr ⟨ctx, one, listed⟩
  calls := fun _ listed => Or.inr listed
  strings := fun _ listed => Or.inr listed
  globals := fun _ listed => Or.inr listed
  depth := rfl
  outside := rfl
  dropped := rfl

/-- A recorded position is inside of the code when its field is behind it. -/
theorem Within.field {s t : St} (within : Within s) (room : s.cp + 4 ≤ maxCode)
    (records : Records s t) : Within (t.e32 0) := by
  have room' : t.cp + (le32 0).length ≤ maxCode := by
    rw [records.code]
    exact room
  have emitted := emit_grows (le32 0) room'
  have position : (t.e32 0).cp = s.cp + 4 := by
    rw [← records.code]
    exact emitted.2
  have new {off : Nat} (same : off = s.cp) : Inside (t.e32 0) off := by
    rw [Inside, position, same]
  have old {off : Nat} (inside : Inside s off) : Inside (t.e32 0) off := by
    unfold Inside at inside ⊢
    omega
  have loops : (t.e32 0).loopStack = t.loopStack := emitted.1.loops
  constructor
  · omega
  · intro off listed
    have listed' : off ∈ t.fields := by
      rw [← emitted.1.fields]
      exact listed
    exact (records.fields off listed').elim new fun before => old (within.fields off before)
  · rw [loops]
    intro ctx one off listed
    rcases records.breaks ctx one off listed with same | ⟨ctx', one', listed'⟩
    · exact new same
    · exact old (within.breaks ctx' one' off listed')
  · rw [loops]
    intro ctx one off listed
    rcases records.continues ctx one off listed with same | ⟨ctx', one', listed'⟩
    · exact new same
    · exact old (within.continues ctx' one' off listed')
  · intro fixup listed
    have listed' : fixup ∈ t.callFixups := by
      rw [← emitted.1.calls]
      exact listed
    exact (records.calls fixup listed').elim new fun before => old (within.calls fixup before)
  · intro fixup listed
    have listed' : fixup ∈ t.strFixups := by
      rw [← emitted.1.strings]
      exact listed
    exact (records.strings fixup listed').elim new fun before => old (within.strings fixup before)
  · intro fixup listed
    have listed' : fixup ∈ t.globFixups := by
      rw [← emitted.1.globals]
      exact listed
    exact (records.globals fixup listed').elim new fun before => old (within.globals fixup before)
  · rw [loops, records.depth]
    exact within.depth
  · exact (emitted.1.outside.trans records.outside).trans within.inside
  · exact (emitted.1.dropped.trans records.dropped).trans within.kept

theorem patch32_grows {s : St} (small : s.cp ≤ maxCode) {off : Nat} (room : off + 4 ≤ maxCode)
    (value : UInt32) : Grows s (s.patch32 off value) := by
  have fits : decide (maxCode < off + 4) = false := decide_eq_false (not_lt.mpr room)
  refine ⟨le_rfl, small, rfl, rfl, rfl, rfl, rfl, ?_, rfl⟩
  unfold St.patch32
  dsimp only
  rw [fits, Bool.or_false]

theorem Grows.trans {s t u : St} (first : Grows s t) (second : Grows t u) : Grows s u where
  code := le_trans first.code second.code
  most := second.most
  fields := second.fields.trans first.fields
  loops := second.loops.trans first.loops
  calls := second.calls.trans first.calls
  strings := second.strings.trans first.strings
  globals := second.globals.trans first.globals
  outside := second.outside.trans first.outside
  dropped := second.dropped.trans first.dropped

theorem Grows.refl {s : St} (small : s.cp ≤ maxCode) : Grows s s :=
  ⟨le_rfl, small, rfl, rfl, rfl, rfl, rfl, rfl, rfl⟩

theorem patchAll_grows (positions : List Nat) (target : Nat) : ∀ {s : St}, s.cp ≤ maxCode →
    (∀ off ∈ positions, Inside s off) → Grows s (s.patchAll positions target) := by
  induction positions with
  | nil => intro s small _; exact Grows.refl small
  | cons off rest rest_ih =>
      intro s small inside
      have first := patch32_grows small (le_trans (inside off List.mem_cons_self) small)
        (UInt32.ofNat target - UInt32.ofNat off - 4)
      apply first.trans
      apply rest_ih first.most
      intro other listed
      exact inside other (List.mem_cons_of_mem _ listed)

/-! ## Every operation -/

theorem nextToken_grows {s : St} (small : s.cp ≤ maxCode) (room : Room .nextToken s) :
    Grows s s.nextToken := by
  have short : decide (63 < ((lex s.text).ident.getD []).length) = false :=
    decide_eq_false (not_lt.mpr room)
  refine ⟨le_rfl, small, rfl, rfl, rfl, rfl, rfl, ?_, rfl⟩
  unfold St.nextToken
  dsimp only
  rw [short, Bool.or_false]

theorem storeString_grows {s : St} (small : s.cp ≤ maxCode)
    (room : s.data.length + (s.tokStr.takeWhile (· ≠ 0)).length + 1 ≤ maxData) :
    Grows s s.storeString := by
  refine ⟨le_rfl, small, rfl, rfl, rfl, rfl, rfl, rfl, ?_⟩
  unfold St.storeString
  dsimp only
  rw [List.length_append, List.length_singleton, decide_eq_false (by omega), Bool.or_false]

theorem pushLocal_grows {s : St} (small : s.cp ≤ maxCode) (room : s.locals.length < maxVars)
    (name : List UInt8) (offset : UInt32) (shape : Shape) :
    Grows s (s.pushLocal name offset shape) := by
  unfold St.pushLocal
  rw [if_pos room]
  exact ⟨le_rfl, small, rfl, rfl, rfl, rfl, rfl, rfl, rfl⟩

theorem addGlobal_grows {s : St} (small : s.cp ≤ maxCode) (room : s.globals.length < maxGlobals)
    (name : List UInt8) (count width : UInt32) (shape : Shape) :
    Grows s (s.addGlobal name count width shape) := by
  unfold St.addGlobal
  rw [if_pos room]
  exact ⟨le_rfl, small, rfl, rfl, rfl, rfl, rfl, rfl, rfl⟩

theorem addParam_grows {s : St} (small : s.cp ≤ maxCode) (room : s.locals.length < maxVars)
    (name : List UInt8) : Grows s (s.addParam name) := by
  refine ⟨le_rfl, small, rfl, rfl, rfl, rfl, rfl, ?_, rfl⟩
  unfold St.addParam
  dsimp only
  rw [decide_eq_false (not_le.mpr room), Bool.or_false]

theorem addFunc_grows {s : St} (small : s.cp ≤ maxCode) (room : s.funcs.length < maxFuncs)
    (name : List UInt8) : Grows s (s.addFunc name) := by
  refine ⟨le_rfl, small, rfl, rfl, rfl, rfl, rfl, ?_, rfl⟩
  unfold St.addFunc
  dsimp only
  rw [decide_eq_false (not_le.mpr room), Bool.or_false]

/-- The bytes that a built-in function patches are its own. -/
theorem builtins_patched : ∀ b ∈ builtins, ∀ last, b.patched = some last → last < b.code.length := by
  decide +kernel

theorem emitBuiltin_grows {s : St} {b : Builtin} (room : s.cp + b.code.length ≤ maxCode)
    (patched : ∀ last, b.patched = some last → last < b.code.length) :
    Grows s (s.emitBuiltin b) := by
  have emitted := (emit_grows b.code room).1
  have inside : (b.patched.any fun last => decide (maxCode ≤ s.cp + last)) = false := by
    cases found : b.patched with
    | none => rfl
    | some last =>
        have short := patched last found
        exact decide_eq_false (by omega)
  refine ⟨emitted.code, emitted.most, emitted.fields, emitted.loops, emitted.calls,
    emitted.strings, emitted.globals, ?_, emitted.dropped⟩
  unfold St.emitBuiltin
  dsimp only
  rw [inside, Bool.or_false]
  exact emitted.outside

theorem Within.loopEnter {s : St} (within : Within s) (room : s.loopStack.length < maxLoopDepth) :
    Within s.loopEnter := by
  constructor
  · exact within.code
  · exact within.fields
  · intro ctx one off listed
    rcases List.mem_cons.mp one with rfl | outer
    · cases listed
    · exact within.breaks ctx outer off listed
  · intro ctx one off listed
    rcases List.mem_cons.mp one with rfl | outer
    · cases listed
    · exact within.continues ctx outer off listed
  · exact within.calls
  · exact within.strings
  · exact within.globals
  · exact room
  · exact within.inside
  · change (s.dropped || decide (maxLoopDepth ≤ s.loopStack.length)) = false
    rw [decide_eq_false (not_le.mpr room), Bool.or_false]
    exact within.kept

theorem Within.loopExit {s : St} (within : Within s) : Within s.loopExit := by
  unfold St.loopExit
  cases stack : s.loopStack with
  | nil => exact within
  | cons ctx outer =>
      have depth := within.depth
      rw [stack, List.length_cons] at depth
      have shallow : decide (maxLoopDepth ≤ outer.length) = false := decide_eq_false (by omega)
      have keep (one : LoopCtx) (listed : one ∈ outer) : one ∈ s.loopStack := by
        rw [stack]
        exact List.mem_cons_of_mem _ listed
      have popped : Within { s with
          loopStack := outer, outside := s.outside || decide (maxLoopDepth ≤ outer.length) } := by
        constructor
        · exact within.code
        · exact within.fields
        · exact fun one listed => within.breaks one (keep one listed)
        · exact fun one listed => within.continues one (keep one listed)
        · exact within.calls
        · exact within.strings
        · exact within.globals
        · exact Nat.le_of_succ_le depth
        · dsimp only
          rw [shallow, Bool.or_false]
          exact within.inside
        · exact within.kept
      apply popped.grows
      apply patchAll_grows _ _ popped.code
      exact within.breaks ctx (by rw [stack]; exact List.mem_cons_self)

theorem Within.loopPatchContinues {s : St} (within : Within s) (target : Nat) :
    Within (s.loopPatchContinues target) := by
  unfold St.loopPatchContinues
  cases stack : s.loopStack with
  | nil => exact within
  | cons ctx outer =>
      have depth := within.depth
      rw [stack, List.length_cons] at depth
      have shallow : decide (maxLoopDepth ≤ outer.length) = false := decide_eq_false (by omega)
      have same : Grows s { s with
          loopStack := ctx :: outer
          outside := s.outside || decide (maxLoopDepth ≤ outer.length) } := by
        refine ⟨le_rfl, within.code, rfl, stack.symm, rfl, rfl, rfl, ?_, rfl⟩
        dsimp only
        rw [shallow, Bool.or_false]
      apply within.grows
      apply same.trans
      exact patchAll_grows ctx.continues target same.most
        (within.continues ctx (by rw [stack]; exact List.mem_cons_self))

theorem mem_recorded {α : Type} (listed : List α) (new : α) :
    ∀ one ∈ listed ++ [new], one = new ∨ one ∈ listed :=
  fun _ there => (List.mem_append.mp there).symm.imp_left List.mem_singleton.mp

theorem recorded (s : St) {ctx ctx' : LoopCtx} {outer : List LoopCtx}
    (stack : s.loopStack = ctx :: outer)
    (breaks : ∀ off ∈ ctx'.breaks, off = s.cp ∨ off ∈ ctx.breaks)
    (continues : ∀ off ∈ ctx'.continues, off = s.cp ∨ off ∈ ctx.continues) :
    Records s { s with loopStack := ctx' :: outer } := by
  have first : ctx ∈ s.loopStack := by
    rw [stack]
    exact List.mem_cons_self
  have others (one : LoopCtx) (listed : one ∈ outer) : one ∈ s.loopStack := by
    rw [stack]
    exact List.mem_cons_of_mem _ listed
  refine { Records.refl s with breaks := ?_, continues := ?_, depth := ?_ }
  · intro one listed off at'
    rcases List.mem_cons.mp listed with rfl | outside
    · exact (breaks off at').imp_right fun old => ⟨ctx, first, old⟩
    · exact Or.inr ⟨one, others one outside, at'⟩
  · intro one listed off at'
    rcases List.mem_cons.mp listed with rfl | outside
    · exact (continues off at').imp_right fun old => ⟨ctx, first, old⟩
    · exact Or.inr ⟨one, others one outside, at'⟩
  · rw [stack]
    rfl

theorem Within.jumpInLoop {s : St} (within : Within s) (positions : LoopCtx → List Nat)
    (record : LoopCtx → Nat → LoopCtx)
    (room : ∀ ctx, s.innermost = some ctx → s.cp + 5 ≤ maxCode ∧ (positions ctx).length < maxBreaks)
    (breaks : ∀ ctx at_, ∀ off ∈ (record ctx at_).breaks, off = at_ ∨ off ∈ ctx.breaks)
    (continues : ∀ ctx at_, ∀ off ∈ (record ctx at_).continues, off = at_ ∨ off ∈ ctx.continues) :
    Within (s.jumpInLoop positions record) := by
  unfold St.jumpInLoop
  cases stack : s.loopStack with
  | nil => exact within.grows ⟨le_rfl, within.code, rfl, stack.symm, rfl, rfl, rfl, rfl, rfl⟩
  | cons ctx outer =>
      dsimp only
      by_cases deep : maxLoopDepth ≤ outer.length
      · rw [if_pos deep]
        exact within.grows ⟨le_rfl, within.code, rfl, stack.symm, rfl, rfl, rfl, rfl, rfl⟩
      · rw [if_neg deep]
        have found : s.innermost = some ctx := by
          unfold St.innermost
          rw [stack]
          exact if_neg deep
        have room := room ctx found
        have fits : s.cp + [(0xE9 : UInt8)].length ≤ maxCode := by
          rw [List.length_singleton]
          omega
        have opcode : Grows s (s.e8 0xE9) ∧ (s.e8 0xE9).cp = s.cp + 1 := emit_grows [0xE9] fits
        have stack' : (s.e8 0xE9).loopStack = ctx :: outer := opcode.1.loops.trans stack
        rw [if_pos room.2]
        apply (within.grows opcode.1).field
        · rw [opcode.2]
          omega
        · exact recorded _ stack' (breaks ctx _) (continues ctx _)

theorem Within.emitBreak {s : St} (within : Within s) (room : Room .emitBreak s) :
    Within s.emitBreak :=
  within.jumpInLoop _ _ room (fun ctx => mem_recorded ctx.breaks) fun _ _ _ => Or.inr

theorem Within.emitContinue {s : St} (within : Within s) (room : Room .emitContinue s) :
    Within s.emitContinue :=
  within.jumpInLoop _ _ room (fun _ _ _ => Or.inr) fun ctx => mem_recorded ctx.continues

theorem Within.patchHere {s : St} (within : Within s) (field : Nat) :
    Within (s.patchHere field) := by
  unfold St.patchHere
  cases found : s.fields[field]? with
  | none => exact within
  | some off =>
      have inside := within.fields off (List.mem_of_getElem? found)
      exact within.grows (patch32_grows within.code (le_trans inside within.code) _)

/-- An operation that finds room keeps the tables as they should be. -/
theorem within_step (op : Op) (s : St) (room : Room op s) (within : Within s) :
    Within (exec op s).2 := by
  have same {t : St} (grows : Grows s t) : Within t := within.grows grows
  cases op with
  | nextToken => exact same (nextToken_grows within.code room)
  | error => exact same ⟨le_rfl, within.code, rfl, rfl, rfl, rfl, rfl, rfl, rfl⟩
  | token => exact within
  | number => exact within
  | name => exact within
  | position => exact within
  | text => exact within
  | emit bytes => exact same (emit_grows bytes room).1
  | patchHere field => exact within.patchHere field
  | storeString =>
      change Within (if s.curToken = .str then s.storeString else s)
      by_cases isString : s.curToken = .str
      · rw [if_pos isString]
        exact same (storeString_grows within.code (room isString))
      · rw [if_neg isString]
        exact within
  | strField dataOff =>
      unfold exec St.strField
      dsimp only
      rw [if_pos room.2]
      apply within.field room.1
      refine { Records.refl s with strings := ?_ }
      exact fun fixup there => (mem_recorded _ _ fixup there).imp_left (congrArg Prod.fst)
  | globField bssOff =>
      unfold exec St.globField
      dsimp only
      rw [if_pos room.2]
      apply within.field room.1
      refine { Records.refl s with globals := ?_ }
      exact fun fixup there => (mem_recorded _ _ fixup there).imp_left (congrArg Prod.fst)
  | callField name =>
      unfold exec St.callField
      dsimp only
      rw [if_pos room.2]
      apply within.field room.1
      refine { Records.refl s with calls := ?_ }
      exact fun fixup there => (mem_recorded _ _ fixup there).imp_left (congrArg Prod.fst)
  | jumpField =>
      change Within s.jumpField
      unfold St.jumpField
      apply within.field room
      refine { Records.refl s with fields := ?_ }
      exact mem_recorded _ _
  | findLocal name => exact within
  | findGlobal name => exact within
  | localShape name => exact within
  | addLocal name =>
      have lower : Grows s { s with stackOffset := s.stackOffset - 4 } :=
        ⟨le_rfl, within.code, rfl, rfl, rfl, rfl, rfl, rfl, rfl⟩
      exact same (lower.trans (pushLocal_grows lower.most room name _ _))
  | addArray name bytes elem =>
      have lower : Grows s { s with stackOffset := s.stackOffset - bytes } :=
        ⟨le_rfl, within.code, rfl, rfl, rfl, rfl, rfl, rfl, rfl⟩
      exact same (lower.trans (pushLocal_grows lower.most room name _ _))
  | addParam => exact same (addParam_grows within.code room _)
  | addFunc name => exact same (addFunc_grows within.code room name)
  | resetLocals => exact same ⟨le_rfl, within.code, rfl, rfl, rfl, rfl, rfl, rfl, rfl⟩
  | addGlobal name count width shape => exact same (addGlobal_grows within.code room name count width shape)
  | loopEnter => exact within.loopEnter room
  | loopExit => exact within.loopExit
  | loopPatchContinues target => exact within.loopPatchContinues target
  | emitBreak => exact within.emitBreak room
  | emitContinue => exact within.emitContinue room
  | emitBuiltin name argc =>
      unfold exec
      cases found : findBuiltin name argc with
      | none =>
          dsimp only
          rw [found]
          exact within
      | some b =>
          dsimp only
          rw [found]
          exact same (emitBuiltin_grows (room b found)
            (builtins_patched b (List.mem_of_find?_eq_some found)))
  | markIncrement => exact same ⟨le_rfl, within.code, rfl, rfl, rfl, rfl, rfl, rfl, rfl⟩
  | skipIncrement => exact same ⟨le_rfl, within.code, rfl, rfl, rfl, rfl, rfl, rfl, rfl⟩
  | toIncrement =>
      change Within s.toIncrement
      unfold St.toIncrement
      cases s.increments with
      | nil => exact within
      | cons inc outer => exact same ⟨le_rfl, within.code, rfl, rfl, rfl, rfl, rfl, rfl, rfl⟩
  | toBehind =>
      change Within s.toBehind
      unfold St.toBehind
      cases s.increments with
      | nil => exact within
      | cons inc outer => exact same ⟨le_rfl, within.code, rfl, rfl, rfl, rfl, rfl, rfl, rfl⟩
  | rewind text => exact same ⟨le_rfl, within.code, rfl, rfl, rfl, rfl, rfl, rfl, rfl⟩

/-! ## Fixups -/

/-- Fixups at positions inside of the code only change bytes there. -/
theorem patches_grow {α : Type} (fixups : List α) (patch : St → α → St)
    (grows : ∀ (t : St), t.cp ≤ maxCode → ∀ fixup ∈ fixups, Grows t (patch t fixup)) :
    ∀ {s : St}, s.cp ≤ maxCode → Grows s (fixups.foldl patch s) := by
  induction fixups with
  | nil => intro s small; exact Grows.refl small
  | cons fixup rest rest_ih =>
      intro s small
      have first := grows s small fixup List.mem_cons_self
      exact first.trans (rest_ih (fun t fits other listed =>
        grows t fits other (List.mem_cons_of_mem _ listed)) first.most)

theorem linkCall_grows {t : St} (small : t.cp ≤ maxCode) {fixup : Nat × List UInt8}
    (room : fixup.1 + 4 ≤ maxCode) : Grows t (t.linkCall fixup) := by
  unfold St.linkCall
  cases t.findFunc fixup.2 with
  | none => exact Grows.refl small
  | some f => exact patch32_grows small room _

theorem link_grows {s : St} (within : Within s) (main : Nat) : Grows s (s.link main) := by
  have start : Grows s (s.patch32 1 (UInt32.ofNat main - 1 - 4)) :=
    patch32_grows within.code (by decide) _
  have calls := patches_grow s.callFixups St.linkCall (fun t small fixup listed =>
    linkCall_grows small (le_trans (within.calls fixup listed) within.code)) start.most
  have linked := start.trans calls
  have strings := patches_grow s.strFixups
    (fun s fixup => s.patch32 fixup.1 (s.dataBase + UInt32.ofNat fixup.2))
    (fun t small fixup listed =>
      patch32_grows small (le_trans (within.strings fixup listed) within.code) _) linked.most
  have named := linked.trans strings
  have globals := patches_grow s.globFixups
    (fun s fixup => s.patch32 fixup.1 (s.bssBase + fixup.2))
    (fun t small fixup listed =>
      patch32_grows small (le_trans (within.globals fixup listed) within.code) _) named.most
  have all := named.trans globals
  unfold St.link
  dsimp only
  rw [start.calls, linked.strings, named.globals]
  exact all

/-! ## Whole compilations -/

/-- A compilation does not write outside of its tables, in no step of the parser and in no fixup,
and it ends with an error when it dropped something. -/
structure CapacitySafe (bound : Nat) (history : History) (text : List UInt8) : Prop where
  parser : (parseFile bound).Throughout exec (fun s => s.outside = false) (St.start history text)
  fixups : ∀ main, (parsed bound history text).errCount = 0 →
    (parsed bound history text).findFunc (literal "main") = some main →
      ((parsed bound history text).link main.2).outside = false
  full : (parsed bound history text).dropped = true → (finish (parsed bound history text)).1 = -1

theorem within_start (history : History) (text : List UInt8) : Within (St.start history text) := by
  constructor
  · exact Nat.zero_le _
  all_goals first | rfl | (intro x listed; cases listed) | exact Nat.zero_le _

theorem capacity_within (bound : Nat) (history : History) (text : List UInt8)
    (room : (parseFile bound).Always exec Room (St.start history text)) :
    Within (parsed bound history text) :=
  (Program.throughout_of_always within_step (parseFile bound) (within_start history text)
    room).last

theorem capacity_safe (bound : Nat) (history : History) (text : List UInt8)
    (room : (parseFile bound).Always exec Room (St.start history text)) :
    CapacitySafe bound history text := by
  have all := Program.throughout_of_always within_step (parseFile bound)
    (within_start history text) room
  have last := capacity_within bound history text room
  constructor
  · exact Program.Throughout.mono (fun s within => within.inside) all
  · intro main _ _
    rw [(link_grows last main.2).outside]
    exact last.inside
  · intro dropped
    rw [last.kept] at dropped
    cases dropped

theorem capacity_safe_small : CapacitySafe 4 .none (literal "int main(int a){a=1;}") :=
  capacity_safe 4 .none _ (by decide +kernel)

theorem long_name_outside : ¬ CapacitySafe 4 .none (List.replicate 64 0x61) := by
  intro safe
  have last := safe.parser.last
  have written : (parsed 4 .none (List.replicate 64 0x61)).outside = true := by decide +kernel
  exact absurd (written.symm.trans last) (by decide)

end Tcc

end Trinux
