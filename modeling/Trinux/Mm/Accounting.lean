import Trinux.Mm.Fork

namespace Trinux

/-!
# Who has which frames

Every allocated frame should belong to the address space of one live process.  Creating,
mapping and exiting keep it so: a process takes one frame, that of its directory, and gives
it back when it exits.  A process that ends otherwise keeps its directory as a zombie, and a
fork takes frames that no directory ever gives back.
-/

namespace Spaces

variable {Page : Type}

/-- What happens to processes and their address spaces; `map` is what `elf_exec_argv`, `elf_execve`
and `SYS_BRK` do to a page of the program. -/
inductive Event where
  | create (name : List UInt8) (kstack : UInt32)
  | fork (kstack : UInt32)
  | map (slot page : Nat)
  | start (slot : Nat)
  | setCurrent (slot : Option Nat)
  | switch (slot : Nat)
  | sleep
  | wake (slot : Nat)
  | exit (code : BitVec 32)
  | kill (pid : UInt32)
  | signal (pid : UInt32) (sig : Int)
  | checkSignal
  | finish (slot : Nat) (code : BitVec 32)

def exit (s : Spaces Page) (code : BitVec 32) : Spaces Page where
  table := processExit code s.table
  vm := match s.table.getCurrent with
    | none => s.vm
    | some p => if p.pageDir = 0 then s.vm else s.vm.freeAddressSpace p.dirFrame

/-- Map a page of a program at its own address.  The loader refuses segments above the first gigabyte,
and stacks and heaps lie below it. -/
def map (s : Spaces Page) (slot page : Nat) : Spaces Page :=
  match s.table.at? slot with
  | none => s
  | some p =>
      if p.pageDir ≠ 0 ∧ page / 1024 < identityTables then
        match s.vm.mapPageIn p.dirFrame page ⟨page, true⟩ with
        | none => s
        | some vm => { s with vm := vm }
      else s

def step (s : Spaces Page) : Event → Spaces Page
  | .create name kstack => ((s.processCreate name kstack).map Prod.snd).getD s
  | .fork kstack => ((s.processFork kstack).map Prod.snd).getD s
  | .map slot page => s.map slot page
  | .start slot => { s with table := s.table.start slot }
  | .setCurrent slot => { s with table := s.table.setCurrent slot }
  | .switch slot => { s with table := s.table.switchTo slot }
  | .sleep => { s with table := s.table.sleepCurrent }
  | .wake slot => { s with table := s.table.wake slot }
  | .exit code => s.exit code
  | .kill pid => { s with table := (processKill pid s.table).2 }
  | .signal pid sig => { s with table := (processSignal pid sig s.table).2 }
  | .checkSignal => { s with table := (processCheckSignal s.table).2 }
  | .finish slot code => { s with table := s.table.finish slot code }

def run (s : Spaces Page) : List Event → Spaces Page
  | [] => s
  | event :: rest => (s.step event).run rest

def init (bytes : UInt32) (mem : Nat → Page) : Spaces Page :=
  ⟨processInit, Vmm.init (Pmm.init bytes) mem⟩

def Allocated (s : Spaces Page) (frame : Nat) : Prop :=
  Pmm.reservedFrames ≤ frame ∧ frame < s.vm.pmm.totalFrames ∧ s.vm.pmm.bitmap frame = true

def framesOf (s : Spaces Page) (slot : Nat) : List Nat :=
  match s.table.at? slot with
  | none => []
  | some p => if p.pageDir = 0 then [] else s.vm.spaceFrames p.dirFrame

def LiveSlot (s : Spaces Page) (slot : Nat) : Prop := ∃ p, s.table.at? slot = some p ∧ p.Live

/-- Every allocated frame belongs to the address space of one live process, a process that exits gives
back its frames and no others, and no frame was freed that was not in use. -/
structure Accounted (s : Spaces Page) : Prop where
  owned : Ownership.Owns s.Allocated fun slot : { slot // s.LiveSlot slot } => s.framesOf slot
  returned : ∀ code slot, s.table.current = some slot → ∀ frame,
    (s.exit code).Allocated frame ↔ s.Allocated frame ∧ frame ∉ s.framesOf slot
  noStray : s.vm.pmm.strayFrees = 0

/-- The events that keep frames accounted for: no process that has a directory ends other than by
`process_exit`, and a fork finds no frame, or no slot and a single frame. -/
def Balances (s : Spaces Page) : Event → Prop
  | .fork _ => s.vm.pmm.freeCount = 0 ∨ s.table.freeSlot = none ∧ s.vm.pmm.freeCount = 1
  | .kill pid => pid ≠ 1 → ∀ slot p, s.table.get pid = some slot → s.table.at? slot = some p →
      p.pageDir = 0
  | .checkSignal => ∀ p, s.table.getCurrent = some p → p.Terminates p.signalPending →
      p.pageDir = 0
  | .finish slot _ => ∀ p, s.table.at? slot = some p → p.pageDir = 0
  | _ => True

def Meets (s : Spaces Page) : List Event → Prop
  | [] => True
  | event :: rest => s.Balances event ∧ Meets (s.step event) rest

/-! ## Addresses of frames -/

theorem frameAddress_toNat {frame : Nat} (small : frame < maxFrames) :
    (frameAddress frame).toNat = frame * pmmFrameSize := by
  rw [frameAddress]
  apply UInt32.toNat_ofNat_of_lt'
  rw [maxFrames] at small
  rw [pmmFrameSize, UInt32.size]
  omega

theorem frameAddress_inj {first second : Nat} (smallFirst : first < maxFrames)
    (smallSecond : second < maxFrames) (same : frameAddress first = frameAddress second) :
    first = second := by
  have numbers := congrArg UInt32.toNat same
  rw [frameAddress_toNat smallFirst, frameAddress_toNat smallSecond] at numbers
  exact Nat.eq_of_mul_eq_mul_right (by decide) numbers

theorem frameAddress_ne_zero {frame : Nat} (small : frame < maxFrames) (positive : frame ≠ 0) :
    frameAddress frame ≠ 0 := by
  intro zero
  have number := congrArg UInt32.toNat zero
  rw [frameAddress_toNat small] at number
  exact (Nat.mul_ne_zero positive (by decide)) number

/-! ## The invariant -/

structure Balanced (s : Spaces Page) : Prop where
  bounded : s.vm.pmm.totalFrames ≤ maxFrames
  reserved : ∀ frame, frame < Pmm.reservedFrames → s.vm.pmm.bitmap frame = true
  dirs : ∀ slot p, s.table.at? slot = some p → p.pageDir ≠ 0 → p.Live ∧
    ∃ pd, p.pageDir = frameAddress pd ∧ pd < s.vm.pmm.totalFrames ∧
      s.vm.pmm.bitmap pd = true ∧ Pmm.reservedFrames ≤ pd ∧ ∀ index, s.vm.directories pd index = none
  distinct : ∀ i j p q, s.table.at? i = some p → s.table.at? j = some q → p.pageDir ≠ 0 →
    p.pageDir = q.pageDir → i = j
  owned : ∀ frame, s.Allocated frame →
    ∃ slot p, s.table.at? slot = some p ∧ p.pageDir = frameAddress frame
  noStray : s.vm.pmm.strayFrees = 0

section Steps

variable {s : Spaces Page}

theorem Balanced.zeroUsed (balanced : s.Balanced) : s.vm.pmm.ZeroUsed :=
  balanced.reserved 0 (by decide)

theorem Balanced.small (balanced : s.Balanced) {frame : Nat}
    (inside : frame < s.vm.pmm.totalFrames) : frame < maxFrames :=
  lt_of_lt_of_le inside balanced.bounded

theorem Balanced.framesOf (balanced : s.Balanced) {slot pd : Nat} {p : Process}
    (held : s.table.at? slot = some p) (isDir : p.pageDir = frameAddress pd)
    (nonzero : p.pageDir ≠ 0) (small : pd < maxFrames) :
    s.framesOf slot = [pd] ∧ p.dirFrame = pd := by
  rcases balanced.dirs slot p held nonzero with ⟨-, pd', isDir', inside, -, -, bare⟩
  have same : pd' = pd :=
    frameAddress_inj (balanced.small inside) small (isDir'.symm.trans isDir)
  subst same
  have frame : p.dirFrame = pd' := by
    rw [Process.dirFrame, isDir, frameAddress_toNat small]
    exact Nat.mul_div_cancel pd' (by decide)
  refine ⟨?_, frame⟩
  rw [Spaces.framesOf, held]
  dsimp only
  rw [if_neg nonzero, frame, Vmm.spaceFrames_bare bare]

theorem Balanced.mem_framesOf (balanced : s.Balanced) {slot frame : Nat}
    (member : frame ∈ s.framesOf slot) : ∃ p, s.table.at? slot = some p ∧ p.pageDir ≠ 0 ∧
      p.pageDir = frameAddress frame ∧ s.Allocated frame ∧ p.Live := by
  cases held : s.table.at? slot with
  | none =>
      rw [Spaces.framesOf, held] at member
      cases member
  | some p =>
      by_cases bare : p.pageDir = 0
      · rw [Spaces.framesOf, held] at member
        simp only [if_pos bare] at member
        cases member
      · rcases balanced.dirs slot p held bare with ⟨live, pd, isDir, inside, used, high, -⟩
        rw [(balanced.framesOf held isDir bare (balanced.small inside)).1, List.mem_singleton] at member
        subst member
        exact ⟨p, rfl, bare, isDir, ⟨high, inside, used⟩, live⟩

/-- The lives of processes that have a directory, and the directories, stay. -/
theorem Balanced.table (balanced : s.Balanced) {t : ProcessTable}
    (slotwise : s.table.Slotwise
      (fun _ p q => q.pageDir = p.pageDir ∧ (p.pageDir ≠ 0 → p.Live → q.Live)) t) :
    ({ s with table := t } : Spaces Page).Balanced := by
  refine ⟨balanced.bounded, balanced.reserved, fun slot q held nonzero => ?_,
    fun i j q q' held held' nonzero same => ?_, fun frame allocated => ?_, balanced.noStray⟩
  · rcases slotwise.origin held with ⟨p, heldBefore, samePageDir, lives⟩
    rw [samePageDir] at nonzero ⊢
    rcases balanced.dirs slot p heldBefore nonzero with ⟨live, dir⟩
    exact ⟨lives nonzero live, dir⟩
  · rcases slotwise.origin held with ⟨p, heldBefore, samePageDir, -⟩
    rcases slotwise.origin held' with ⟨p', heldBefore', samePageDir', -⟩
    rw [samePageDir] at nonzero same
    rw [samePageDir'] at same
    exact balanced.distinct i j p p' heldBefore heldBefore' nonzero same
  · rcases balanced.owned frame allocated with ⟨slot, p, held, isDir⟩
    rcases slotwise.slot slot p held with ⟨q, heldNext, samePageDir, -⟩
    exact ⟨slot, q, heldNext, samePageDir.trans isDir⟩

theorem Balanced.sameFates (balanced : s.Balanced) {t : ProcessTable}
    (same : s.table.SameFates t) : ({ s with table := t } : Spaces Page).Balanced :=
  balanced.table (same.mono fun _ _ _ fate => ⟨fate.pageDir, fun _ live => fate.live.mpr live⟩)

theorem Balanced.dies (balanced : s.Balanced) {t : ProcessTable} {dies : Nat → Process → Prop}
    (slotwise : s.table.Slotwise (fun i p q => p.SameFate q ∨ dies i p ∧ p.Dies q) t)
    (bare : ∀ i p, s.table.at? i = some p → dies i p → p.pageDir = 0) :
    ({ s with table := t } : Spaces Page).Balanced := by
  refine balanced.table (slotwise.monoAt fun i p q held fate => ?_)
  rcases fate with same | ⟨chosen, dead⟩
  · exact ⟨same.pageDir, fun _ live => same.live.mpr live⟩
  · exact ⟨dead.pageDir, fun nonzero => absurd (bare i p held chosen) nonzero⟩

/-- The frames in use and the upper entries of directories stay. -/
theorem Balanced.vm (balanced : s.Balanced) {vm : Vmm Page}
    (totalFrames : vm.pmm.totalFrames = s.vm.pmm.totalFrames)
    (bitmap : vm.pmm.bitmap = s.vm.pmm.bitmap) (strayFrees : vm.pmm.strayFrees = s.vm.pmm.strayFrees)
    (directories : ∀ pd, (∀ index, s.vm.directories pd index = none) →
      ∀ index, vm.directories pd index = none) : ({ s with vm := vm } : Spaces Page).Balanced := by
  refine ⟨?_, ?_, ?_, balanced.distinct, ?_, ?_⟩
  · dsimp only
    rw [totalFrames]
    exact balanced.bounded
  · dsimp only
    rw [bitmap]
    exact balanced.reserved
  · intro slot p held nonzero
    rcases balanced.dirs slot p held nonzero with ⟨live, pd, isDir, inside, used, low, bare⟩
    dsimp only
    rw [totalFrames, bitmap]
    exact ⟨live, pd, isDir, inside, used, low, directories pd bare⟩
  · intro frame allocated
    rw [Allocated] at allocated
    dsimp only at allocated
    rw [totalFrames, bitmap] at allocated
    exact balanced.owned frame allocated
  · exact strayFrees.trans balanced.noStray

theorem Balanced.sleep (balanced : s.Balanced) :
    ({ s with table := s.table.sleepCurrent } : Spaces Page).Balanced := by
  refine balanced.table ?_
  rw [ProcessTable.sleepCurrent]
  split
  · exact (ProcessTable.SameFates.refl s.table).mono fun _ _ _ fate =>
      ⟨fate.pageDir, fun _ live => fate.live.mpr live⟩
  · rename_i i _
    refine (s.table.slotwise_modify i _).mono fun j p q changed => ?_
    rw [changed]
    split
    · split
      · exact ⟨rfl, fun _ live => live⟩
      · exact ⟨rfl, fun _ _ => show ProcState.sleeping ≠ .zombie by decide⟩
    · exact ⟨rfl, fun _ live => live⟩

theorem Balanced.map (balanced : s.Balanced) (slot page : Nat) : (s.map slot page).Balanced := by
  rw [Spaces.map]
  split
  · exact balanced
  split
  · rename_i inside
    rw [Vmm.mapPageIn, if_pos inside.2]
    exact balanced.vm rfl rfl rfl fun _ bare => bare
  · exact balanced

/-- A slot that a creation can take has no directory to give back. -/
theorem Balanced.reclaim (balanced : s.Balanced) {slot : Nat} {t : ProcessTable} {p : Process}
    (creates : s.table.Creates t slot p) : s.reclaim slot = s.vm := by
  rw [Spaces.reclaim]
  split
  · rfl
  · rename_i z held
    refine if_pos (by_contra fun nonzero => ?_)
    exact (creates.reused z held).1 (balanced.dirs slot z held nonzero).1

theorem Balanced.createsBare (balanced : s.Balanced) {slot : Nat} {t : ProcessTable} {p : Process}
    (creates : s.table.Creates t slot p) (bare : p.pageDir = 0) :
    ({ s with table := t } : Spaces Page).Balanced := by
  have origin : ∀ i q, t.at? i = some q → q.pageDir ≠ 0 → s.table.at? i = some q := by
    intro i q held nonzero
    by_cases here : i = slot
    · rw [here, creates.new, Option.some_inj] at held
      exact absurd (held ▸ bare) nonzero
    · exact (creates.others i here).symm.trans held
  refine ⟨balanced.bounded, balanced.reserved, fun i q held nonzero => ?_,
    fun i j q q' held held' nonzero same => ?_, fun frame allocated => ?_, balanced.noStray⟩
  · exact balanced.dirs i q (origin i q held nonzero) nonzero
  · exact balanced.distinct i j q q' (origin i q held nonzero)
      (origin j q' held' (same ▸ nonzero)) nonzero same
  · rcases balanced.owned frame allocated with ⟨i, q, held, isDir⟩
    have nonzero : q.pageDir ≠ 0 := by
      rw [isDir]
      refine frameAddress_ne_zero (balanced.small allocated.2.1) fun zero => ?_
      exact absurd (zero ▸ allocated.1) (by decide)
    have other : i ≠ slot := by
      rintro rfl
      exact (creates.reused q held).1 (balanced.dirs i q held nonzero).1
    exact ⟨i, q, (creates.others i other).trans held, isDir⟩

theorem Balanced.createsDir (balanced : s.Balanced) {slot pd : Nat} {t : ProcessTable} {p : Process}
    {vm : Vmm Page} (creates : s.table.Creates t slot p) (live : p.Live)
    (isDir : p.pageDir = frameAddress pd) (gives : s.vm.pmm.Gives pd vm.pmm)
    (made : vm = { s.vm with
      pmm := vm.pmm
      directories := Function.update s.vm.directories pd fun _ => none }) :
    (⟨t, vm⟩ : Spaces Page).Balanced := by
  have notReserved : Pmm.reservedFrames ≤ pd := by
    by_contra low
    have used := balanced.reserved pd (not_le.mp low)
    exact absurd (gives.wasFree.symm.trans used) (by decide)
  have small := balanced.small gives.inside
  have stillUsed : ∀ frame, s.vm.pmm.bitmap frame = true → vm.pmm.bitmap frame = true := by
    intro frame used
    rw [gives.bitmap]
    by_cases here : frame = pd
    · rw [here, Function.update_self]
    · rw [Function.update_of_ne here]
      exact used
  have origin : ∀ i q, t.at? i = some q → i = slot ∧ q = p ∨ i ≠ slot ∧ s.table.at? i = some q := by
    intro i q held
    by_cases here : i = slot
    · rw [here, creates.new, Option.some_inj] at held
      exact Or.inl ⟨here, held.symm⟩
    · exact Or.inr ⟨here, (creates.others i here).symm.trans held⟩
  have fresh : ∀ i q, s.table.at? i = some q → q.pageDir ≠ 0 → q.pageDir ≠ frameAddress pd := by
    intro i q held nonzero same
    rcases balanced.dirs i q held nonzero with ⟨-, pd', isDir', inside, used, -⟩
    rw [frameAddress_inj (balanced.small inside) small (isDir'.symm.trans same)] at used
    exact absurd (gives.wasFree.symm.trans used) (by decide)
  refine ⟨?_, fun frame low => stillUsed frame (balanced.reserved frame low), ?_, ?_, ?_, ?_⟩
  · exact gives.totalFrames ▸ balanced.bounded
  · intro i q held nonzero
    rcases origin i q held with ⟨-, rfl⟩ | ⟨-, old⟩
    · refine ⟨live, pd, isDir, ?_, ?_, notReserved, fun index => ?_⟩
      · dsimp only
        rw [gives.totalFrames]
        exact gives.inside
      · dsimp only
        rw [gives.bitmap, Function.update_self]
      · dsimp only
        rw [made]
        dsimp only
        rw [Function.update_self]
    · rcases balanced.dirs i q old nonzero with ⟨alive, pd', isDir', inside, used, low, bare⟩
      refine ⟨alive, pd', isDir', ?_, stillUsed pd' used, low, fun index => ?_⟩
      · dsimp only
        rw [gives.totalFrames]
        exact inside
      · dsimp only
        rw [made]
        dsimp only
        by_cases here : pd' = pd
        · rw [here, Function.update_self]
        · rw [Function.update_of_ne here]
          exact bare index
  · intro i j q r heldQ heldR nonzero same
    rcases origin i q heldQ with ⟨rfl, rfl⟩ | ⟨-, oldQ⟩ <;>
      rcases origin j r heldR with ⟨rfl, rfl⟩ | ⟨-, oldR⟩
    · rfl
    · exact absurd (same.symm.trans isDir) (fresh j r oldR (same ▸ nonzero))
    · exact absurd (same.trans isDir) (fresh i q oldQ nonzero)
    · exact balanced.distinct i j q r oldQ oldR nonzero same
  · intro frame allocated
    rcases allocated with ⟨low, inside, used⟩
    dsimp only at inside used
    rw [gives.totalFrames] at inside
    rw [gives.bitmap] at used
    by_cases here : frame = pd
    · exact ⟨slot, p, creates.new, here ▸ isDir⟩
    · rw [Function.update_of_ne here] at used
      rcases balanced.owned frame ⟨low, inside, used⟩ with ⟨i, q, held, isFrame⟩
      have nonzero : q.pageDir ≠ 0 := by
        rw [isFrame]
        refine frameAddress_ne_zero (balanced.small inside) fun zero => ?_
        exact absurd (zero ▸ low) (by decide)
      have other : i ≠ slot := by
        rintro rfl
        exact (creates.reused q held).1 (balanced.dirs i q held nonzero).1
      exact ⟨i, q, (creates.others i other).trans held, isFrame⟩
  · exact gives.strayFrees.trans balanced.noStray

theorem Balanced.processCreate (balanced : s.Balanced) {name : List UInt8} {kstack : UInt32}
    {result : Option Nat} {s' : Spaces Page}
    (created : s.processCreate name kstack = some (result, s')) : s'.Balanced := by
  rw [Spaces.processCreate] at created
  split at created
  · cases created
    exact balanced
  rename_i slot free
  rcases Option.map_eq_some_iff.mp created with ⟨⟨pd, vm⟩, space, made⟩
  dsimp only at made
  split at made
  · rename_i none_
    rw [Trinux.processCreate, free] at none_
    cases none_
  rename_i chosen t table
  cases made
  have creates := ProcessTable.processCreate_creates table
  have same : slot = chosen := by
    rcases Option.map_eq_some_iff.mp table with ⟨slot', free', made'⟩
    rw [free] at free'
    cases free'
    exact (Prod.mk.inj made').1
  subst same
  rw [balanced.reclaim creates] at space
  cases pd with
  | none =>
      rcases Vmm.createAddressSpace_none balanced.zeroUsed space with ⟨-, rfl⟩
      have full : ({ s with vm := { s.vm with pmm := { s.vm.pmm with
          failures := s.vm.pmm.failures + 1 } } } : Spaces Page).Balanced :=
        balanced.vm rfl rfl rfl fun _ bare => bare
      exact full.createsBare creates rfl
  | some pd =>
      rcases Vmm.createAddressSpace_some space with ⟨gives, shape⟩
      exact balanced.createsDir creates (show ProcState.ready ≠ .zombie by decide) rfl gives shape

/-- A fork that finds no frame, or no slot and a single frame, changes nothing. -/
theorem Balanced.fork (balanced : s.Balanced) {kstack : UInt32} (meets : s.Balances (.fork kstack))
    {child : Option Nat} {s' : Spaces Page} (returned : s.processFork kstack = some (child, s')) :
    s'.Balanced := by
  by_cases full : s.vm.pmm.freeCount = 0
  · rw [processFork, Vmm.createAddressSpace_full full] at returned
    cases returned
    exact balanced.vm rfl rfl rfl fun _ bare => bare
  rcases meets with none_ | ⟨noSlot, single⟩
  · exact absurd none_ full
  rcases Option.bind_eq_some_iff.mp returned with ⟨⟨pd, vm⟩, created, rest⟩
  cases pd with
  | none => exact absurd (Vmm.createAddressSpace_none balanced.zeroUsed created).1 full
  | some pd =>
      rcases Option.bind_eq_some_iff.mp rest with ⟨vm', copied, last⟩
      rcases Option.map_eq_some_iff.mp last with ⟨⟨slot, after⟩, made, result⟩
      rw [Spaces.processCreate] at made
      simp only [noSlot] at made
      cases made
      cases result
      rcases Vmm.createAddressSpace_some created with ⟨gives, shape⟩
      have copies := Vmm.copyRegion_copies (fun page => Vmm.forkPages_inside)
        (gives.zeroUsed balanced.zeroUsed) copied
      rcases fork_without_slot created copies with ⟨totalFrames, strayFrees, -, bitmap⟩
      refine balanced.vm totalFrames (bitmap.mpr single) strayFrees fun other bare index => ?_
      change vm'.directories other index = none
      rw [copies.directories, shape]
      dsimp only
      by_cases here : other = pd
      · rw [here, Function.update_self]
      · rw [Function.update_of_ne here]
        exact bare index

/-- What the exit of a process leaves of the frames: all but the directory of the process. -/
theorem Balanced.exit_frames (balanced : s.Balanced) (code : BitVec 32) {slot : Nat} {p : Process}
    (current : s.table.current = some slot) (held : s.table.at? slot = some p) :
    (s.exit code).vm.pmm.totalFrames = s.vm.pmm.totalFrames ∧
      (s.exit code).vm.pmm.strayFrees = s.vm.pmm.strayFrees ∧
      (s.exit code).vm.directories = s.vm.directories ∧
      ∀ frame, (s.exit code).vm.pmm.bitmap frame = true ↔
        s.vm.pmm.bitmap frame = true ∧ frame ∉ s.framesOf slot := by
  have process : s.table.getCurrent = some p := by
    rw [ProcessTable.getCurrent, current]
    exact held
  rw [Spaces.exit, process]
  dsimp only
  by_cases bare : p.pageDir = 0
  · have nothing : s.framesOf slot = [] := by
      rw [Spaces.framesOf, held]
      exact if_pos bare
    rw [if_pos bare, nothing]
    exact ⟨rfl, rfl, rfl, fun frame => ⟨fun used => ⟨used, List.not_mem_nil⟩, And.left⟩⟩
  · rcases balanced.dirs slot p held bare with ⟨-, pd, isDir, inside, used, -, empty⟩
    rcases balanced.framesOf held isDir bare (balanced.small inside) with ⟨frames, isFrame⟩
    rw [if_neg bare, isFrame, Vmm.freeAddressSpace_bare empty, frames]
    rcases Pmm.freeFrame_used inside used with ⟨bitmap, totalFrames, -, strayFrees, -⟩
    refine ⟨totalFrames, strayFrees, rfl, fun frame => ?_⟩
    dsimp only
    rw [bitmap, List.mem_singleton]
    by_cases here : frame = pd
    · rw [here, Function.update_self]
      exact iff_of_false Bool.false_ne_true fun both => both.2 rfl
    · rw [Function.update_of_ne here]
      exact ⟨fun stays => ⟨stays, here⟩, And.left⟩

/-- A process that exits gives back its frames and no others. -/
theorem Balanced.exit_allocated (balanced : s.Balanced) (code : BitVec 32) {slot : Nat}
    (current : s.table.current = some slot) (frame : Nat) :
    (s.exit code).Allocated frame ↔ s.Allocated frame ∧ frame ∉ s.framesOf slot := by
  cases held : s.table.at? slot with
  | none =>
      have nobody : s.table.getCurrent = none := by
        rw [ProcessTable.getCurrent, current]
        exact held
      have nothing : s.framesOf slot = [] := by
        rw [Spaces.framesOf, held]
      rw [nothing, Allocated, Allocated, Spaces.exit, nobody]
      exact ⟨fun used => ⟨used, List.not_mem_nil⟩, And.left⟩
  | some p =>
      rcases balanced.exit_frames code current held with ⟨totalFrames, -, -, bitmap⟩
      rw [Allocated, Allocated, totalFrames, bitmap]
      tauto

theorem Balanced.exit (balanced : s.Balanced) (code : BitVec 32) : (s.exit code).Balanced := by
  cases process : s.table.getCurrent with
  | none =>
      rw [Spaces.exit, process, processExit_nobody process]
      exact balanced
  | some p =>
      rcases Option.bind_eq_some_iff.mp process with ⟨slot, current, held⟩
      have exits := processExit_slotwise code current held
      rcases balanced.exit_frames code current held with ⟨totalFrames, strayFrees, directories, bitmap⟩
      have origin : ∀ i q, (s.exit code).table.at? i = some q → q.pageDir ≠ 0 →
          i ≠ slot ∧ ∃ r, s.table.at? i = some r ∧ q.pageDir = r.pageDir ∧ q.state = r.state := by
        intro i q heldQ nonzero
        rcases exits.origin heldQ with ⟨r, heldR, after⟩
        have other : i ≠ slot := by
          intro here
          rw [after.pageDir, if_pos here] at nonzero
          exact nonzero rfl
        exact ⟨other, r, heldR, after.pageDir.trans (if_neg other), after.state.trans (if_neg other)⟩
      refine ⟨?_, fun frame low => ?_, fun i q heldQ nonzero => ?_,
        fun i j q q' heldQ heldQ' nonzero same => ?_, fun frame allocated => ?_, ?_⟩
      · rw [totalFrames]
        exact balanced.bounded
      · rw [bitmap]
        refine ⟨balanced.reserved frame low, fun member => ?_⟩
        rcases balanced.mem_framesOf member with ⟨-, -, -, -, allocated, -⟩
        exact absurd allocated.1 (not_le.mpr low)
      · rcases origin i q heldQ nonzero with ⟨other, r, heldR, samePageDir, sameState⟩
        rw [samePageDir] at nonzero
        rcases balanced.dirs i r heldR nonzero with ⟨live, pd, isDir, inside, used, high, empty⟩
        refine ⟨?_, pd, samePageDir.trans isDir, ?_, ?_, high, fun index => ?_⟩
        · rw [Process.Live, sameState]
          exact live
        · rw [totalFrames]
          exact inside
        · rw [bitmap]
          refine ⟨used, fun member => ?_⟩
          rcases balanced.mem_framesOf member with ⟨p', heldP', -, isFrame, -⟩
          exact other (balanced.distinct i slot r p' heldR heldP' nonzero (isDir.trans isFrame.symm))
        · rw [directories]
          exact empty index
      · rcases origin i q heldQ nonzero with ⟨-, r, heldR, samePageDir, -⟩
        rcases origin j q' heldQ' (same ▸ nonzero) with ⟨-, r', heldR', samePageDir', -⟩
        rw [samePageDir] at nonzero same
        rw [samePageDir'] at same
        exact balanced.distinct i j r r' heldR heldR' nonzero same
      · have kept := (balanced.exit_allocated code current frame).mp allocated
        rcases balanced.owned frame kept.1 with ⟨i, r, heldR, isFrame⟩
        have small := balanced.small kept.1.2.1
        have nonzero : r.pageDir ≠ 0 := by
          rw [isFrame]
          refine frameAddress_ne_zero small fun zero => ?_
          exact absurd (zero ▸ kept.1.1) (by decide)
        have other : i ≠ slot := by
          intro here
          rw [here] at heldR
          apply kept.2
          rw [(balanced.framesOf heldR isFrame nonzero small).1]
          exact List.mem_singleton_self frame
        rcases exits.slot i r heldR with ⟨q, heldQ, after⟩
        exact ⟨i, q, heldQ, (after.pageDir.trans (if_neg other)).trans isFrame⟩
      · exact strayFrees.trans balanced.noStray

/-- Where the directories are the allocated frames, every frame is accounted for. -/
theorem Balanced.accounted (balanced : s.Balanced) : s.Accounted := by
  refine ⟨?_, fun code slot current frame => balanced.exit_allocated code current frame,
    balanced.noStray⟩
  rw [Ownership.owns_iff]
  refine ⟨fun frame => ⟨fun allocated => ?_, ?_⟩, fun slot => ?_, fun first second frame left right => ?_⟩
  · rcases balanced.owned frame allocated with ⟨slot, p, held, isFrame⟩
    have small := balanced.small allocated.2.1
    have nonzero : p.pageDir ≠ 0 := by
      rw [isFrame]
      refine frameAddress_ne_zero small fun zero => ?_
      exact absurd (zero ▸ allocated.1) (by decide)
    refine ⟨⟨slot, p, held, (balanced.dirs slot p held nonzero).1⟩, ?_⟩
    rw [(balanced.framesOf held isFrame nonzero small).1]
    exact List.mem_singleton_self frame
  · rintro ⟨slot, member⟩
    rcases balanced.mem_framesOf member with ⟨-, -, -, -, allocated, -⟩
    exact allocated
  · rcases slot with ⟨slot, p, held, live⟩
    by_cases bare : p.pageDir = 0
    · rw [Spaces.framesOf, held]
      simp only [if_pos bare]
      exact List.nodup_nil
    · rcases balanced.dirs slot p held bare with ⟨-, pd, isDir, inside, -⟩
      rw [(balanced.framesOf held isDir bare (balanced.small inside)).1]
      exact List.nodup_singleton pd
  · rcases balanced.mem_framesOf left with ⟨p, heldP, nonzero, isFrame, -⟩
    rcases balanced.mem_framesOf right with ⟨q, heldQ, -, isFrame', -⟩
    exact Subtype.ext (balanced.distinct first second p q heldP heldQ nonzero
      (isFrame.trans isFrame'.symm))

/-- An event that meets the condition keeps the directories the allocated frames. -/
theorem Balanced.step (balanced : s.Balanced) {event : Event} (meets : s.Balances event) :
    (s.step event).Balanced := by
  cases event with
  | create name kstack =>
      rw [Spaces.step]
      cases created : s.processCreate name kstack with
      | none => exact balanced
      | some result => exact balanced.processCreate created
  | fork kstack =>
      rw [Spaces.step]
      cases returned : s.processFork kstack with
      | none => exact balanced
      | some result => exact balanced.fork meets returned
  | map slot page => exact balanced.map slot page
  | start slot => exact balanced.sameFates (s.table.start_sameFates slot)
  | setCurrent slot =>
      exact balanced.sameFates (ProcessTable.SameFates.refl s.table |>.setCurrent slot)
  | switch slot => exact balanced.sameFates (s.table.switchTo_sameFates slot)
  | sleep => exact balanced.sleep
  | wake slot => exact balanced.sameFates (s.table.wake_sameFates slot)
  | exit code => exact balanced.exit code
  | kill pid =>
      refine balanced.dies (ProcessTable.processKill_slotwise pid s.table) fun i p held chosen => ?_
      exact meets chosen.1 i p chosen.2 held
  | signal pid sig =>
      exact balanced.sameFates (processSignal_sameLives pid sig s.table).sameFates
  | checkSignal =>
      refine balanced.dies (ProcessTable.processCheckSignal_slotwise s.table)
        fun i p held chosen => ?_
      refine meets p ?_ chosen.2
      rw [ProcessTable.getCurrent, chosen.1]
      exact held
  | finish slot code =>
      refine balanced.dies (s.table.finish_slotwise slot code) fun i p held here => ?_
      exact meets p (here ▸ held)

theorem Balanced.run (balanced : s.Balanced) {events : List Event} (meets : s.Meets events) :
    (s.run events).Balanced := by
  induction events generalizing s with
  | nil => exact balanced
  | cons event rest known => exact known (balanced.step meets.1) meets.2

end Steps

theorem init_balanced (bytes : UInt32) (mem : Nat → Page) : (init bytes mem).Balanced := by
  have bare : ∀ slot p, (init bytes mem).table.at? slot = some p → p.pageDir = 0 := by
    intro slot p held
    rcases List.getElem?_eq_some_iff.mp held with ⟨inside, same⟩
    change slot < 4 at inside
    rw [← same]
    interval_cases slot <;> rfl
  have bitmap : ∀ frame, (init bytes mem).vm.pmm.bitmap frame = false ↔
      Pmm.reservedFrames ≤ frame ∧ frame < Pmm.frameCount bytes := Pmm.init_bitmap bytes
  refine ⟨Nat.min_le_right _ _, fun frame low => ?_, fun slot p held nonzero => ?_,
    fun i j p q held _ nonzero _ => ?_, fun frame allocated => ?_, rfl⟩
  · rw [← Bool.not_eq_false, bitmap]
    exact fun free => absurd free.1 (not_le.mpr low)
  · exact absurd (bare slot p held) nonzero
  · exact absurd (bare i p held) nonzero
  · have free := (bitmap frame).mpr ⟨allocated.1, allocated.2.1⟩
    exact absurd (free.symm.trans allocated.2.2) Bool.false_ne_true

/-- In every run whose events meet the condition, every frame is accounted for. -/
theorem run_accounted (bytes : UInt32) (mem : Nat → Page) {events : List Event}
    (meets : (init bytes mem).Meets events) : ((init bytes mem).run events).Accounted :=
  ((init_balanced bytes mem).run meets).accounted

/-! ## A process that is killed -/

def oneFrame : UInt32 := 128 * 1024 * 1024 + 4096

/-- The frame of a process that is killed belongs to no live process any more. -/
theorem killed_not_accounted :
    ¬((init oneFrame fun frame => frame).run [.create (literal "app") 0x400000, .kill 5]).Accounted := by
  intro accounted
  have large : Pmm.reservedFrames < Pmm.frameCount oneFrame := by decide
  rcases Paging.init_createAddressSpace (fun frame => frame) large with ⟨vm, made⟩
  have created : ∃ t, (init oneFrame fun frame => frame).processCreate (literal "app") 0x400000 =
      some (some 4, ⟨t, vm⟩) ∧
        ∀ p ∈ (processKill 5 t).2.slots, p.Live → p.pageDir = 0 := by
    have space : ((init oneFrame fun frame => frame).reclaim 4).createAddressSpace =
        some (some Pmm.reservedFrames, vm) := made
    have slot : (init oneFrame fun frame : Nat => frame).table.freeSlot = some 4 := by decide
    have dead : ∀ p ∈ (processKill 5 (((Trinux.processCreate (literal "app")
        ⟨frameAddress Pmm.reservedFrames, 0x400000⟩ processInit).map Prod.snd).getD
          processInit)).2.slots, p.Live → p.pageDir = 0 := by decide
    rw [Spaces.processCreate, slot]
    dsimp only
    rw [space]
    exact ⟨_, rfl, dead⟩
  rcases created with ⟨t, isCreated, dead⟩
  have after : (init oneFrame fun frame => frame).run [.create (literal "app") 0x400000, .kill 5] =
      ⟨(processKill 5 t).2, vm⟩ := by
    rw [run, step, isCreated]
    rfl
  rw [after] at accounted
  have gives := (Vmm.createAddressSpace_some made).1
  have allocated : (⟨(processKill 5 t).2, vm⟩ : Spaces Nat).Allocated Pmm.reservedFrames := by
    refine ⟨le_refl _, ?_, ?_⟩
    · dsimp only
      rw [gives.totalFrames]
      exact gives.inside
    · dsimp only
      rw [gives.bitmap, Function.update_self]
  rcases (accounted.owned.marked_iff Pmm.reservedFrames).mp allocated with
    ⟨⟨slot, p, held, live⟩, member⟩
  have bare := dead p (List.mem_of_getElem? held) live
  rw [Spaces.framesOf, held] at member
  simp only [if_pos bare] at member
  cases member

theorem run_accounted_exit :
    ((init oneFrame fun frame => frame).run [.create (literal "app") 0x400000, .start 4,
      .exit 0]).Accounted :=
  run_accounted oneFrame _ ⟨trivial, trivial, trivial, trivial⟩

end Spaces

end Trinux
