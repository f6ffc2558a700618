import Trinux.Lib.Patches
import Trinux.Shell.TccCapacity

namespace Trinux

/-!
# The fixups of the compiler

Every call, every use of a string and every use of a global variable has a field of its own in the
code, which is recorded when the field is emitted and filled when the image is written.
-/

namespace Tcc

open Bytes Patches

/-! ## What an operation leaves alone -/

/-- A state that differs from another one in its code and in the positions that the parser keeps. -/
structure CodeOnly (s t : St) : Prop where
  grows : s.cp ≤ t.cp
  small : s.cp ≤ maxCode → t.cp ≤ maxCode
  same : ∃ code cp errCount loopStack fields outside dropped,
    t = { s with
      code := code, cp := cp, errCount := errCount, loopStack := loopStack, fields := fields
      outside := outside, dropped := dropped }

theorem CodeOnly.refl (s : St) : CodeOnly s s :=
  ⟨le_rfl, id, s.code, s.cp, s.errCount, s.loopStack, s.fields, s.outside, s.dropped, rfl⟩

theorem CodeOnly.trans {s t u : St} (first : CodeOnly s t) (second : CodeOnly t u) :
    CodeOnly s u := by
  refine ⟨le_trans first.grows second.grows, fun small => second.small (first.small small), ?_⟩
  rcases first.same with ⟨code, cp, errCount, loopStack, fields, outside, dropped, rfl⟩
  exact second.same

theorem emit_codeOnly (bytes : List UInt8) : ∀ s : St, CodeOnly s (s.emit bytes) := by
  induction bytes with
  | nil => intro s; exact CodeOnly.refl s
  | cons b rest rest_ih =>
      intro s
      have one : CodeOnly s (s.e8 b) := by
        unfold St.e8
        split_ifs with room
        · exact ⟨Nat.le_succ _, fun _ => room, _, _, _, _, _, _, _, rfl⟩
        · exact ⟨le_rfl, id, _, _, _, _, _, _, _, rfl⟩
      exact one.trans (rest_ih (s.e8 b))

theorem patch32_codeOnly (s : St) (off : Nat) (value : UInt32) :
    CodeOnly s (s.patch32 off value) :=
  ⟨le_rfl, id, _, s.cp, s.errCount, s.loopStack, s.fields, _, s.dropped, rfl⟩

theorem patchAll_codeOnly (positions : List Nat) (target : Nat) : ∀ s : St,
    CodeOnly s (s.patchAll positions target) := by
  induction positions with
  | nil => intro s; exact CodeOnly.refl s
  | cons off rest rest_ih => intro s; exact (patch32_codeOnly s off _).trans (rest_ih _)

theorem codeOnly_loops (s : St) (errCount : Nat) (loopStack : List LoopCtx) (fields : List Nat)
    (outside dropped : Bool) :
    CodeOnly s { s with
      errCount := errCount, loopStack := loopStack, fields := fields, outside := outside
      dropped := dropped } :=
  ⟨le_rfl, id, s.code, s.cp, errCount, loopStack, fields, outside, dropped, rfl⟩

theorem loopExit_codeOnly (s : St) : CodeOnly s s.loopExit := by
  unfold St.loopExit
  cases s.loopStack with
  | nil => exact CodeOnly.refl s
  | cons ctx outer =>
      exact (codeOnly_loops s s.errCount outer s.fields
        (s.outside || decide (maxLoopDepth ≤ outer.length)) s.dropped).trans
        (patchAll_codeOnly ctx.breaks s.cp _)

theorem loopPatchContinues_codeOnly (s : St) (target : Nat) :
    CodeOnly s (s.loopPatchContinues target) := by
  unfold St.loopPatchContinues
  cases stack : s.loopStack with
  | nil => exact CodeOnly.refl s
  | cons ctx outer =>
      exact (codeOnly_loops s s.errCount (ctx :: outer) s.fields
        (s.outside || decide (maxLoopDepth ≤ outer.length)) s.dropped).trans
        (patchAll_codeOnly ctx.continues target _)

theorem jumpInLoop_codeOnly (s : St) (positions : LoopCtx → List Nat)
    (record : LoopCtx → Nat → LoopCtx) : CodeOnly s (s.jumpInLoop positions record) := by
  unfold St.jumpInLoop
  cases s.loopStack with
  | nil => exact ⟨le_rfl, id, s.code, s.cp, s.errCount + 1, [], s.fields, s.outside, s.dropped, rfl⟩
  | cons ctx outer =>
      dsimp only
      by_cases deep : maxLoopDepth ≤ outer.length
      · rw [if_pos deep]
        exact codeOnly_loops s (s.errCount + 1) (ctx :: outer) s.fields s.outside s.dropped
      · rw [if_neg deep]
        have opcode : CodeOnly s (s.e8 0xE9) := emit_codeOnly [0xE9] s
        apply opcode.trans
        generalize s.e8 0xE9 = u
        by_cases room : (positions ctx).length < maxBreaks
        · rw [if_pos room]
          exact (codeOnly_loops u u.errCount (record ctx u.cp :: outer) u.fields u.outside
            u.dropped).trans (emit_codeOnly (le32 0) _)
        · rw [if_neg room]
          exact (codeOnly_loops u u.errCount u.loopStack u.fields u.outside true).trans
            (emit_codeOnly (le32 0) _)

theorem emitBreak_codeOnly (s : St) : CodeOnly s s.emitBreak :=
  jumpInLoop_codeOnly s LoopCtx.breaks _

theorem emitContinue_codeOnly (s : St) : CodeOnly s s.emitContinue :=
  jumpInLoop_codeOnly s LoopCtx.continues _

theorem patchHere_codeOnly (s : St) (field : Nat) : CodeOnly s (s.patchHere field) := by
  unfold St.patchHere
  cases s.fields[field]? with
  | none => exact CodeOnly.refl s
  | some off => exact patch32_codeOnly s off _

theorem emitBuiltin_codeOnly (s : St) (b : Builtin) : CodeOnly s (s.emitBuiltin b) :=
  (emit_codeOnly b.code s).trans
    (codeOnly_loops (s.emit b.code) (s.emit b.code).errCount (s.emit b.code).loopStack
      (s.emit b.code).fields _ (s.emit b.code).dropped)

theorem jumpField_codeOnly (s : St) : CodeOnly s s.jumpField :=
  (codeOnly_loops s s.errCount s.loopStack (s.fields ++ [s.cp]) s.outside s.dropped).trans
    (emit_codeOnly (le32 0) _)

/-! ## Recorded fields -/

/-- The tables that the fixups are resolved from, beside what they stand for. -/
structure Tables where
  callFixups : List (Nat × List UInt8)
  called : List (Nat × List UInt8)
  strFixups : List (Nat × Nat)
  strUses : List (Nat × Nat)
  globFixups : List (Nat × UInt32)
  globUses : List (Nat × UInt32)
  funcs : List (List UInt8 × Nat)
  defined : List (List UInt8 × Nat)
  strings : List (Nat × List UInt8)
  data : List UInt8

def St.tables (s : St) : Tables where
  callFixups := s.callFixups
  called := s.called
  strFixups := s.strFixups
  strUses := s.strUses
  globFixups := s.globFixups
  globUses := s.globUses
  funcs := s.funcs
  defined := s.defined
  strings := s.strings
  data := s.data

def Tables.positions (t : Tables) : List Nat :=
  t.callFixups.map Prod.fst ++ (t.strFixups.map Prod.fst ++ t.globFixups.map Prod.fst)

def Separate (a b : Nat) : Prop := a + 4 ≤ b ∨ b + 4 ≤ a

theorem Separate.symm {a b : Nat} (separate : Separate a b) : Separate b a :=
  Or.symm separate

/-- The fields are behind the call of `main`, in the code, and do not overlap; the tables hold
every one of them, and the names of functions up to their 31st byte. -/
structure Recorded (t : Tables) (cp : Nat) : Prop where
  start : 5 ≤ cp
  apart : t.positions.Pairwise Separate
  inside : ∀ off ∈ t.positions, 5 ≤ off ∧ off + 4 ≤ cp
  calls : t.callFixups = t.called.map fun call => (call.1, call.2.take 31)
  strs : t.strFixups = t.strUses
  globs : t.globFixups = t.globUses
  funcs : t.funcs = t.defined.map fun f => (f.1.take 31, f.2)
  places : ∀ f ∈ t.defined, f.2 ≤ cp
  literals : ∀ e ∈ t.strings, (t.data.drop e.1).take (e.2.length + 1) = e.2 ++ [0]

theorem Recorded.mono {t : Tables} {cp cp' : Nat} (recorded : Recorded t cp) (more : cp ≤ cp') :
    Recorded t cp' where
  start := le_trans recorded.start more
  apart := recorded.apart
  inside := fun off listed =>
    ⟨(recorded.inside off listed).1, le_trans (recorded.inside off listed).2 more⟩
  calls := recorded.calls
  strs := recorded.strs
  globs := recorded.globs
  funcs := recorded.funcs
  places := fun f listed => le_trans (recorded.places f listed) more
  literals := recorded.literals

theorem Recorded.codeOnly {s t : St} (recorded : Recorded s.tables s.cp) (same : CodeOnly s t) :
    Recorded t.tables t.cp := by
  have more := same.grows
  rcases same.same with ⟨code, cp, errCount, loopStack, fields, outside, dropped, rfl⟩
  exact recorded.mono more

theorem Recorded.newField {t t' : Tables} {cp : Nat} (recorded : Recorded t cp)
    (new : t'.positions.Perm (cp :: t.positions)) :
    t'.positions.Pairwise Separate ∧ ∀ off ∈ t'.positions, 5 ≤ off ∧ off + 4 ≤ cp + 4 := by
  constructor
  · rw [new.pairwise_iff Separate.symm]
    apply List.Pairwise.cons
    · intro off listed
      exact Or.inr (recorded.inside off listed).2
    · exact recorded.apart
  · intro off listed
    rcases List.mem_cons.mp (new.mem_iff.mp listed) with rfl | before
    · exact ⟨recorded.start, le_rfl⟩
    · have inside := recorded.inside off before
      exact ⟨inside.1, by omega⟩

theorem Recorded.field {s t : St} (room : s.cp + 4 ≤ maxCode) (position : t.cp = s.cp)
    (recorded : Recorded t.tables (s.cp + 4)) : Recorded (t.e32 0).tables (t.e32 0).cp := by
  have room' : t.cp + (le32 0).length ≤ maxCode := by
    rw [position]
    exact room
  have emitted : (t.e32 0).cp = t.cp + 4 := (emit_grows (le32 0) room').2
  have same : (t.e32 0).tables = t.tables := by
    rcases (emit_codeOnly (le32 0) t).same with ⟨code, cp, errCount, loopStack, fields, _, _, shown⟩
    change (t.emit (le32 0)).tables = t.tables
    rw [shown]
    rfl
  rw [same, emitted, position]
  exact recorded

theorem perm_new (before behind : List Nat) (cp : Nat) :
    (before ++ [cp] ++ behind).Perm (cp :: (before ++ behind)) := by
  rw [List.append_assoc]
  exact List.perm_middle

theorem Recorded.callField {s : St} (recorded : Recorded s.tables s.cp) (name : List UInt8)
    (room : Room (.callField name) s) :
    Recorded (s.callField name).tables (s.callField name).cp := by
  unfold St.callField
  dsimp only
  rw [if_pos room.2]
  apply Recorded.field room.1
  · rfl
  have new : (St.tables { s with
      called := s.called ++ [(s.cp, name)]
      callFixups := s.callFixups ++ [(s.cp, name.take 31)] }).positions.Perm
      (s.cp :: s.tables.positions) := by
    unfold Tables.positions
    dsimp only [St.tables]
    rw [List.map_append]
    exact perm_new (s.callFixups.map Prod.fst) _ s.cp
  have fields := recorded.newField new
  refine { recorded.mono (Nat.le_add_right s.cp 4) with
    apart := fields.1, inside := fields.2, calls := ?_ }
  have calls := recorded.calls
  dsimp only [St.tables] at calls ⊢
  rw [calls, List.map_append]
  rfl

theorem Recorded.strField {s : St} (recorded : Recorded s.tables s.cp) (dataOff : Nat)
    (room : Room (.strField dataOff) s) :
    Recorded (s.strField dataOff).tables (s.strField dataOff).cp := by
  unfold St.strField
  dsimp only
  rw [if_pos room.2]
  apply Recorded.field room.1
  · rfl
  have new : (St.tables { s with
      strUses := s.strUses ++ [(s.cp, dataOff)]
      strFixups := s.strFixups ++ [(s.cp, dataOff)] }).positions.Perm
      (s.cp :: s.tables.positions) := by
    unfold Tables.positions
    dsimp only [St.tables]
    rw [List.map_append, List.append_assoc, ← List.append_assoc, ← List.append_assoc,
      ← List.append_assoc]
    exact perm_new (s.callFixups.map Prod.fst ++ s.strFixups.map Prod.fst) _ s.cp
  have fields := recorded.newField new
  refine { recorded.mono (Nat.le_add_right s.cp 4) with
    apart := fields.1, inside := fields.2, strs := ?_ }
  have strs := recorded.strs
  dsimp only [St.tables] at strs ⊢
  rw [strs]

theorem Recorded.globField {s : St} (recorded : Recorded s.tables s.cp) (bssOff : UInt32)
    (room : Room (.globField bssOff) s) :
    Recorded (s.globField bssOff).tables (s.globField bssOff).cp := by
  unfold St.globField
  dsimp only
  rw [if_pos room.2]
  apply Recorded.field room.1
  · rfl
  have new : (St.tables { s with
      globUses := s.globUses ++ [(s.cp, bssOff)]
      globFixups := s.globFixups ++ [(s.cp, bssOff)] }).positions.Perm
      (s.cp :: s.tables.positions) := by
    unfold Tables.positions
    dsimp only [St.tables]
    rw [List.map_append, ← List.append_assoc, ← List.append_assoc, ← List.append_assoc]
    have new := perm_new (s.callFixups.map Prod.fst ++ s.strFixups.map Prod.fst ++
      s.globFixups.map Prod.fst) [] s.cp
    rw [List.append_nil, List.append_nil] at new
    exact new
  have fields := recorded.newField new
  refine { recorded.mono (Nat.le_add_right s.cp 4) with
    apart := fields.1, inside := fields.2, globs := ?_ }
  have globs := recorded.globs
  dsimp only [St.tables] at globs ⊢
  rw [globs]

theorem Recorded.addFunc {s : St} (recorded : Recorded s.tables s.cp) (name : List UInt8) :
    Recorded (s.addFunc name).tables (s.addFunc name).cp := by
  refine { recorded with funcs := ?_, places := ?_ }
  · have funcs : s.funcs = s.defined.map fun f => (f.1.take 31, f.2) := recorded.funcs
    change s.funcs ++ [(name.take 31, s.cp)] =
      (s.defined ++ [(name, s.cp)]).map fun f => (f.1.take 31, f.2)
    rw [List.map_append, ← funcs]
    rfl
  · intro f listed
    rcases List.mem_append.mp listed with before | new
    · exact recorded.places f before
    · rw [List.mem_singleton.mp new]
      exact le_rfl

/-- A string for which there is room is found where it was put. -/
theorem Recorded.storeString {s : St} (recorded : Recorded s.tables s.cp)
    (room : s.data.length + (s.tokStr.takeWhile (· ≠ 0)).length + 1 ≤ maxData) :
    Recorded s.storeString.tables s.storeString.cp := by
  refine { recorded with literals := ?_ }
  intro e listed
  change e ∈ s.strings ++ [(s.data.length, s.tokStr.takeWhile (· ≠ 0))] at listed
  have whole : (s.tokStr.takeWhile (· ≠ 0) ++ [0]).take (maxData - s.data.length) =
      s.tokStr.takeWhile (· ≠ 0) ++ [0] := by
    apply List.take_of_length_le
    rw [List.length_append, List.length_singleton]
    omega
  have data : s.storeString.tables.data = s.data ++ (s.tokStr.takeWhile (· ≠ 0) ++ [0]) :=
    congrArg (s.data ++ ·) whole
  rw [data]
  rcases List.mem_append.mp listed with before | new
  · have literal := recorded.literals e before
    have long := congrArg List.length literal
    change ((s.data.drop e.1).take (e.2.length + 1)).length = _ at long
    rw [List.length_take, List.length_drop, List.length_append, List.length_singleton] at long
    rw [List.drop_append_of_le_length (by omega), List.take_append_of_le_length]
    · exact literal
    · rw [List.length_drop]
      omega
  · rw [List.mem_singleton.mp new, List.drop_left]
    apply List.take_of_length_le
    rw [List.length_append, List.length_singleton]

/-! ## The patches of an image -/

def St.callPatch (s : St) (fixup : Nat × List UInt8) : Option (Nat × UInt32) :=
  (s.findFunc fixup.2).map fun f => (fixup.1, UInt32.ofNat f.2 - UInt32.ofNat fixup.1 - 4)

def St.strPatch (s : St) (fixup : Nat × Nat) : Nat × UInt32 :=
  (fixup.1, s.dataBase + UInt32.ofNat fixup.2)

def St.globPatch (s : St) (fixup : Nat × UInt32) : Nat × UInt32 :=
  (fixup.1, s.bssBase + fixup.2)

def St.patches (s : St) (main : Nat) : List (Nat × UInt32) :=
  (1, UInt32.ofNat main - 1 - 4) ::
    (s.callFixups.filterMap s.callPatch ++
      (s.strFixups.map s.strPatch ++ s.globFixups.map s.globPatch))

def St.patchList (s : St) (patches : List (Nat × UInt32)) : St :=
  patches.foldl (fun s p => s.patch32 p.1 p.2) s

def Patched (s t : St) : Prop := ∃ code outside, t = { s with code := code, outside := outside }

theorem patchList_patched (patches : List (Nat × UInt32)) : ∀ s : St,
    Patched s (s.patchList patches) := by
  induction patches with
  | nil => intro s; exact ⟨s.code, s.outside, rfl⟩
  | cons p rest rest_ih =>
      intro s
      rcases rest_ih (s.patch32 p.1 p.2) with ⟨code, outside, shown⟩
      exact ⟨code, outside, shown⟩

theorem Patched.patchList {s t : St} (patched : Patched s t) (patches : List (Nat × UInt32)) :
    Patched s (t.patchList patches) := by
  rcases patched with ⟨code, outside, rfl⟩
  rcases patchList_patched patches { s with code := code, outside := outside } with
    ⟨code', outside', shown⟩
  exact ⟨code', outside', shown⟩

theorem patchList_append (s : St) (first second : List (Nat × UInt32)) :
    s.patchList (first ++ second) = (s.patchList first).patchList second :=
  List.foldl_append

theorem linkCalls_eq (s : St) (fixups : List (Nat × List UInt8)) : ∀ {t : St}, Patched s t →
    fixups.foldl St.linkCall t = t.patchList (fixups.filterMap s.callPatch) := by
  induction fixups with
  | nil => intro t _; rfl
  | cons fixup rest rest_ih =>
      intro t patched
      have same : t.findFunc fixup.2 = s.findFunc fixup.2 := by
        rcases patched with ⟨code, outside, rfl⟩
        rfl
      rw [List.foldl_cons, List.filterMap_cons]
      unfold St.callPatch
      cases found : s.findFunc fixup.2 with
      | none =>
          rw [St.linkCall_none (same.trans found)]
          exact rest_ih patched
      | some f =>
          rw [St.linkCall_some (same.trans found)]
          have next : Patched s
              (t.patch32 fixup.1 (UInt32.ofNat f.2 - UInt32.ofNat fixup.1 - 4)) := by
            rcases patched with ⟨code, outside, rfl⟩
            exact ⟨_, _, rfl⟩
          exact rest_ih next

theorem linkAll_eq {β : Type} (s : St) (value : St → β → UInt32) (position : β → Nat)
    (same : ∀ t, Patched s t → ∀ b, value t b = value s b) (fixups : List β) :
    ∀ {t : St}, Patched s t →
      fixups.foldl (fun t b => t.patch32 (position b) (value t b)) t =
        t.patchList (fixups.map fun b => (position b, value s b)) := by
  induction fixups with
  | nil => intro t _; rfl
  | cons b rest rest_ih =>
      intro t patched
      have next : Patched s (t.patch32 (position b) (value s b)) := by
        rcases patched with ⟨code, outside, rfl⟩
        exact ⟨_, _, rfl⟩
      rw [List.foldl_cons, same t patched]
      exact rest_ih next

def St.linkCalls (s : St) : St := s.callFixups.foldl St.linkCall s

def St.linkStrs (s : St) : St :=
  s.strFixups.foldl (fun s fixup => s.patch32 fixup.1 (s.dataBase + UInt32.ofNat fixup.2)) s

def St.linkGlobs (s : St) : St :=
  s.globFixups.foldl (fun s fixup => s.patch32 fixup.1 (s.bssBase + fixup.2)) s

theorem link_stages (s : St) (main : Nat) :
    s.link main =
      (s.patch32 1 (UInt32.ofNat main - 1 - 4)).linkCalls.linkStrs.linkGlobs := rfl

theorem linkCalls_all {s t : St} (patched : Patched s t) :
    t.linkCalls = t.patchList (s.callFixups.filterMap s.callPatch) := by
  have fixups : t.callFixups = s.callFixups := by
    rcases patched with ⟨code, outside, rfl⟩
    rfl
  unfold St.linkCalls
  rw [fixups, linkCalls_eq s s.callFixups patched]

theorem linkStrs_all {s t : St} (patched : Patched s t) :
    t.linkStrs = t.patchList (s.strFixups.map s.strPatch) := by
  have fixups : t.strFixups = s.strFixups := by
    rcases patched with ⟨code, outside, rfl⟩
    rfl
  unfold St.linkStrs
  rw [fixups]
  apply linkAll_eq s (fun t fixup => t.dataBase + UInt32.ofNat fixup.2) Prod.fst
  · rintro t ⟨code, outside, rfl⟩ fixup
    rfl
  · exact patched

theorem linkGlobs_all {s t : St} (patched : Patched s t) :
    t.linkGlobs = t.patchList (s.globFixups.map s.globPatch) := by
  have fixups : t.globFixups = s.globFixups := by
    rcases patched with ⟨code, outside, rfl⟩
    rfl
  unfold St.linkGlobs
  rw [fixups]
  apply linkAll_eq s (fun t fixup => t.bssBase + fixup.2) Prod.fst
  · rintro t ⟨code, outside, rfl⟩ fixup
    rfl
  · exact patched

theorem link_eq (s : St) (main : Nat) : s.link main = s.patchList (s.patches main) := by
  have first : Patched s (s.patch32 1 (UInt32.ofNat main - 1 - 4)) := ⟨_, _, rfl⟩
  have shown : s.patchList (s.patches main) =
      (((s.patch32 1 (UInt32.ofNat main - 1 - 4)).patchList
        (s.callFixups.filterMap s.callPatch)).patchList (s.strFixups.map s.strPatch)).patchList
          (s.globFixups.map s.globPatch) := by
    rw [← patchList_append, ← patchList_append]
    rfl
  rw [shown, link_stages]
  generalize s.patch32 1 (UInt32.ofNat main - 1 - 4) = t at first ⊢
  rw [linkCalls_all first]
  have second := first.patchList (s.callFixups.filterMap s.callPatch)
  rw [linkStrs_all second]
  have third := second.patchList (s.strFixups.map s.strPatch)
  rw [linkGlobs_all third]

/-! ## Images -/

def fieldAt (image : List UInt8) (off : Nat) : List UInt8 := (image.drop (hdrSize + off)).take 4

/-! ## Successful compilations -/

/-- What holds of an image that is written: the text was parsed to its end, every function that
is called has a definition under exactly its name, every field holds the address of its target,
and every string is where its address says. -/
structure Success (s : St) (image : List UInt8) : Prop where
  whole : s.unknown = false
  parsed : s.lost = false
  calls : ∀ call ∈ s.called, ∃ place, (call.2, place) ∈ s.defined ∧
    fieldAt image call.1 = le32 (UInt32.ofNat place - UInt32.ofNat call.1 - 4)
  strs : ∀ use ∈ s.strUses, fieldAt image use.1 = le32 (s.dataBase + UInt32.ofNat use.2)
  literals : ∀ e ∈ s.strings,
    (image.drop (hdrSize + s.cp + e.1)).take (e.2.length + 1) = e.2 ++ [0]
  globs : ∀ use ∈ s.globUses, fieldAt image use.1 = le32 (s.bssBase + use.2)

/-! ## Whole compilations -/

/-- A compilation finds room for everything and reads no byte behind the text. -/
structure Fits (bound : Nat) (history : History) (text : List UInt8) : Prop where
  room : (parseFile bound).Always exec Room (St.start history text)
  within : (parsed bound history text).behind = false

/-- A compilation uses nothing outside of its tables and reads no byte behind the text. -/
structure Contained (bound : Nat) (history : History) (text : List UInt8) : Prop where
  inside : (parsed bound history text).outside = false
  within : (parsed bound history text).behind = false

theorem compile_contained {bound : Nat} {history : History} {text : List UInt8}
    (contained : Contained bound history text) :
    compile bound history text = ((parseFile bound).run exec (St.start history text)).1.map
      fun _ => finish (parsed bound history text) := by
  have inside := contained.inside
  have within := contained.within
  unfold parsed at inside within
  unfold compile
  dsimp only
  rw [inside, within]
  rfl

theorem Fits.contained {bound : Nat} {history : History} {text : List UInt8}
    (fits : Fits bound history text) : Contained bound history text :=
  ⟨(capacity_within bound history text fits.room).inside, fits.within⟩

theorem finish_cases (s : St) :
    finish s = (-1, none) ∨
      ∃ f, s.findFunc (literal "main") = some f ∧ finish s = (0, some (s.link f.2).image) := by
  unfold finish
  by_cases errors : 0 < s.errCount
  · rw [if_pos errors]
    exact Or.inl rfl
  · rw [if_neg errors]
    cases s.findFunc (literal "main") with
    | none => exact Or.inl rfl
    | some f => exact Or.inr ⟨f, rfl, rfl⟩

/-- A program that calls a function which is nowhere, with a text behind it that is none. -/
def missing : List UInt8 := literal "int main(){h();}@@"

end Tcc

end Trinux
