import Trinux.Mm.Shield
import Trinux.Process.Lifecycle

namespace Trinux

/-!
# Fork

`process_fork` creates a directory, copies the pages of the program into new frames and
maps these into the new directory.  As the directory leads to the static tables there, the
new frames are mapped for the parent and for the kernel as well.  A page for which there is
no frame is skipped.
-/

def frameAddress (frame : Nat) : UInt32 := UInt32.ofNat (frame * pmmFrameSize)

def Process.dirFrame (p : Process) : Nat := p.pageDir.toNat / pmmFrameSize

structure Spaces (Page : Type) where
  table : ProcessTable
  vm : Vmm Page

namespace Spaces

variable {Page : Type}

/-- The part of `process_create` that gives back the directory of a zombie whose slot it takes. -/
def reclaim (s : Spaces Page) (slot : Nat) : Vmm Page :=
  match s.table.at? slot with
  | none => s.vm
  | some z => if z.pageDir = 0 then s.vm else s.vm.freeAddressSpace z.dirFrame

/-- `process_create` with its page directory: the slot of the process; `none` for a panic. -/
def processCreate (name : List UInt8) (kstack : UInt32) (s : Spaces Page) :
    Option (Option Nat × Spaces Page) :=
  match s.table.freeSlot with
  | none => some (none, s)
  | some slot =>
      (s.reclaim slot).createAddressSpace.map fun (pd, vm) =>
        match Trinux.processCreate name ⟨(pd.map frameAddress).getD 0, kstack⟩ s.table with
        | none => (none, { s with vm := vm })
        | some (_, t) => (some slot, ⟨t, vm⟩)

/-- The part of `process_fork` that gives the child its directory and what it inherits. -/
def inherit (slot pd : Nat) (t : ProcessTable) : ProcessTable :=
  t.modify slot fun child =>
    match t.getCurrent with
    | none => { child with pageDir := frameAddress pd }
    | some parent => { child with
        pageDir := frameAddress pd
        cwd := parent.cwd.take 255
        heapStart := parent.heapStart
        heapBrk := parent.heapBrk }

/-- `process_fork`: the slot of the child, whose number is returned, or none for the error; `none`
for a panic.  Switching to the child and back changes nothing. -/
def processFork (kstack : UInt32) (s : Spaces Page) : Option (Option Nat × Spaces Page) :=
  s.vm.createAddressSpace.bind fun (pd, vm) =>
    match pd with
    | none => some (none, { s with vm := vm })
    | some pd =>
        (Vmm.copyRegion pd forkPages vm).bind fun vm =>
          (processCreate (literal "(fork-child)") kstack { s with vm := vm }).map fun (slot, s) =>
            match slot with
            | none => (none, { s with vm := s.vm.freeAddressSpace pd })
            | some slot => (some slot, { s with table := inherit slot pd s.table })

/-- What a fork promises.  If it succeeds, the child maps every copied page to a frame that the parent
and the kernel do not have there and that holds what the parent had; they see what they saw; and
a write by one of the two is not seen by the other.  If a frame could not be allocated, it reports
an error and no other frames are in use than before. -/
structure ForkIsolates (s : Spaces Page) (child : Option Nat) (s' : Spaces Page) : Prop where
  copies : ∀ slot p, child = some slot → s'.table.at? slot = some p → ∀ page ∈ forkPages,
    ∃ m, s'.vm.lookup (some p.dirFrame) page = some m ∧
      (∀ dir, dir = s.vm.current ∨ dir = none → ∀ m', s'.vm.lookup dir page = some m' →
        m'.frame ≠ m.frame) ∧
      some (s'.vm.mem m.frame) = s.vm.view s.vm.current page
  unchanged : child ≠ none → ∀ dir, dir = s.vm.current ∨ dir = none → ∀ page,
    s'.vm.lookup dir page = s.vm.lookup dir page ∧ s'.vm.view dir page = s.vm.view dir page
  separate : ∀ slot p, child = some slot → s'.table.at? slot = some p → ∀ page ∈ forkPages,
    ∀ data vm, (s'.vm.write (some p.dirFrame) page data = some vm →
        vm.view s.vm.current page = s'.vm.view s.vm.current page) ∧
      (s'.vm.write s.vm.current page data = some vm →
        vm.view (some p.dirFrame) page = s'.vm.view (some p.dirFrame) page)
  failure : s'.vm.pmm.failures ≠ s.vm.pmm.failures →
    child = none ∧ s'.vm.pmm.bitmap = s.vm.pmm.bitmap

end Spaces

/-! ## Copying -/

namespace Vmm

variable {Page : Type} {vm vm' : Vmm Page}

theorem forkPages_inside {page : Nat} (member : page ∈ forkPages) :
    page / 1024 < identityTables := by
  rw [forkPages, List.mem_range'_1] at member
  rw [identityTables]
  omega

/-- What copying a number of pages does to the frames: it takes as many as there are, fails for the
rest, and gives none back. -/
structure Copies (vm : Vmm Page) (pages : Nat) (vm' : Vmm Page) : Prop where
  directories : vm'.directories = vm.directories
  totalFrames : vm'.pmm.totalFrames = vm.pmm.totalFrames
  strayFrees : vm'.pmm.strayFrees = vm.pmm.strayFrees
  zeroUsed : vm'.pmm.ZeroUsed
  free : vm'.pmm.freeCount = vm.pmm.freeCount - pages
  failures : vm'.pmm.failures = vm.pmm.failures + (pages - vm.pmm.freeCount)
  grows : ∀ frame, vm.pmm.bitmap frame = true → vm'.pmm.bitmap frame = true
  full : vm.pmm.freeCount = 0 → vm'.pmm.bitmap = vm.pmm.bitmap

theorem copyPage_copies {pd page : Nat} (inside : page / 1024 < identityTables)
    (zeroUsed : vm.pmm.ZeroUsed) (copied : copyPage pd page vm = some vm') : vm.Copies 1 vm' := by
  by_cases full : vm.pmm.freeCount = 0
  · rw [copyPage, Pmm.allocFrame_full full] at copied
    cases copied
    refine ⟨rfl, rfl, rfl, zeroUsed, ?_, ?_, fun _ used => used, fun _ => rfl⟩
    · rw [full]
      exact full
    · rw [full]
  · rcases Pmm.allocFrame_some zeroUsed full with ⟨frame, pmm, allocated⟩
    have gives := Pmm.allocFrame_gives allocated
    rw [copyPage, allocated] at copied
    dsimp only at copied
    split at copied
    · rename_i data target _ _
      rw [mapPageIn, if_pos inside] at copied
      cases copied
      have one := gives.freeCount
      refine ⟨rfl, gives.totalFrames, gives.strayFrees, gives.zeroUsed zeroUsed, ?_, ?_, fun other used => ?_,
        fun none_ => absurd none_ full⟩
      · dsimp only
        rw [one, Nat.add_sub_cancel]
      · dsimp only
        rw [gives.failures, one, Nat.sub_eq_zero_of_le (Nat.le_add_left 1 _), Nat.add_zero]
      · dsimp only
        rw [gives.bitmap]
        by_cases here : other = frame
        · rw [here, Function.update_self]
        · rw [Function.update_of_ne here]
          exact used
    · cases copied

theorem Copies.trans {vm'' : Vmm Page} {first second : Nat} (before : vm.Copies first vm')
    (after : vm'.Copies second vm'') : vm.Copies (first + second) vm'' := by
  refine ⟨after.directories.trans before.directories, after.totalFrames.trans before.totalFrames,
    after.strayFrees.trans before.strayFrees, after.zeroUsed, ?_, ?_, fun frame used => after.grows frame (before.grows frame used),
    fun full => ?_⟩
  · rw [after.free, before.free, Nat.sub_sub]
  · rw [after.failures, before.failures, before.free]
    omega
  · have stillFull : vm'.pmm.freeCount = 0 := by rw [before.free, full, Nat.zero_sub]
    rw [after.full stillFull, before.full full]

theorem copyRegion_copies {pd : Nat} {pages : List Nat}
    (inside : ∀ page ∈ pages, page / 1024 < identityTables) (zeroUsed : vm.pmm.ZeroUsed)
    (copied : copyRegion pd pages vm = some vm') : vm.Copies pages.length vm' := by
  induction pages generalizing vm with
  | nil =>
      cases copied
      refine ⟨rfl, rfl, rfl, zeroUsed, rfl, ?_, fun _ used => used, fun _ => rfl⟩
      rw [List.length_nil, Nat.zero_sub, Nat.add_zero]
  | cons page rest known =>
      rcases Option.bind_eq_some_iff.mp copied with ⟨next, first, others⟩
      have one := copyPage_copies (inside page List.mem_cons_self) zeroUsed first
      have more := known (fun other member => inside other (List.mem_cons_of_mem page member))
        one.zeroUsed others
      rw [List.length_cons, Nat.add_comm]
      exact one.trans more

/-! ## On machines with at most one gigabyte -/

/-- Every frame has a number below one gigabyte, and every page there is mapped. -/
structure Mapped (vm : Vmm Page) : Prop where
  frames : vm.pmm.totalFrames ≤ identityTables * 1024
  pages : ∀ page, page / 1024 < identityTables → vm.pageTables page ≠ none

theorem Mapped.lookup (mapped : vm.Mapped) (dir : Option Nat) {page : Nat}
    (inside : page / 1024 < identityTables) : ∃ m, vm.lookup dir page = some m := by
  rcases Option.ne_none_iff_exists'.mp (mapped.pages page inside) with ⟨m, held⟩
  rw [Vmm.lookup, if_pos inside, held]
  exact ⟨_, rfl⟩

theorem Mapped.inside (mapped : vm.Mapped) {frame : Nat} {pmm : Pmm} (gives : vm.pmm.Gives frame pmm) :
    frame / 1024 < identityTables :=
  Nat.div_lt_of_lt_mul (by rw [Nat.mul_comm]; exact lt_of_lt_of_le gives.inside mapped.frames)

theorem createAddressSpace_returns (mapped : vm.Mapped) (zeroUsed : vm.pmm.ZeroUsed) :
    ∃ pd vm', vm.createAddressSpace = some (pd, vm') ∧ vm'.Mapped ∧ vm'.pmm.ZeroUsed := by
  by_cases full : vm.pmm.freeCount = 0
  · exact ⟨none, _, createAddressSpace_full full, ⟨mapped.frames, mapped.pages⟩, zeroUsed⟩
  · rcases Pmm.allocFrame_some zeroUsed full with ⟨pd, pmm, allocated⟩
    have gives := Pmm.allocFrame_gives allocated
    rcases mapped.lookup vm.current (mapped.inside gives) with ⟨m, held⟩
    have reaches : vm.Reaches pd := by
      rw [Reaches, held]
      rfl
    have created : vm.createAddressSpace = some (some pd, { vm with
        pmm := pmm
        directories := Function.update vm.directories pd fun _ => none }) := by
      rw [createAddressSpace, allocated]
      exact if_pos reaches
    refine ⟨some pd, _, created, ⟨?_, mapped.pages⟩, gives.zeroUsed zeroUsed⟩
    dsimp only
    rw [gives.totalFrames]
    exact mapped.frames

theorem copyPage_returns (mapped : vm.Mapped) (zeroUsed : vm.pmm.ZeroUsed) {pd page : Nat}
    (inside : page / 1024 < identityTables) :
    ∃ vm', copyPage pd page vm = some vm' ∧ vm'.Mapped := by
  by_cases full : vm.pmm.freeCount = 0
  · rw [copyPage, Pmm.allocFrame_full full]
    exact ⟨_, rfl, mapped.frames, mapped.pages⟩
  · rcases Pmm.allocFrame_some zeroUsed full with ⟨frame, pmm, allocated⟩
    have gives := Pmm.allocFrame_gives allocated
    rcases mapped.lookup vm.current (mapped.inside gives) with ⟨target, heldTarget⟩
    rcases mapped.lookup vm.current inside with ⟨source, heldSource⟩
    have data : vm.view vm.current page = some (vm.mem source.frame) := by
      rw [view, heldSource, Option.map_some]
    rw [copyPage, allocated]
    simp only [data, heldTarget]
    refine ⟨_, by rw [mapPageIn, if_pos inside], ?_, fun other below => ?_⟩
    · dsimp only
      rw [gives.totalFrames]
      exact mapped.frames
    · dsimp only
      by_cases here : other = page
      · rw [here, Function.update_self]
        exact Option.some_ne_none _
      · rw [Function.update_of_ne here]
        exact mapped.pages other below

theorem copyRegion_returns {pd : Nat} {pages : List Nat}
    (inside : ∀ page ∈ pages, page / 1024 < identityTables) (mapped : vm.Mapped)
    (zeroUsed : vm.pmm.ZeroUsed) : ∃ vm', copyRegion pd pages vm = some vm' ∧ vm'.Mapped := by
  induction pages generalizing vm with
  | nil => exact ⟨vm, rfl, mapped⟩
  | cons page rest known =>
      have here := inside page List.mem_cons_self
      rcases copyPage_returns mapped zeroUsed here with ⟨next, copied, nextMapped⟩
      have copies := copyPage_copies here zeroUsed copied
      rcases known (fun other member => inside other (List.mem_cons_of_mem page member)) nextMapped
        copies.zeroUsed with ⟨last, others, lastMapped⟩
      refine ⟨last, ?_, lastMapped⟩
      rw [copyRegion, copied]
      exact others

end Vmm

/-! ## When a fork keeps its promise -/

namespace Spaces

variable {Page : Type} {s s' : Spaces Page} {kstack : UInt32}

theorem processCreate_slot {name : List UInt8} {slot : Nat} (free : s.table.freeSlot = some slot)
    {result : Option Nat} (created : s.processCreate name kstack = some (result, s')) :
    result = some slot ∧ ∃ p, s'.table.at? slot = some p := by
  rw [processCreate, free] at created
  rcases Option.map_eq_some_iff.mp created with ⟨⟨pd, vm⟩, -, made⟩
  dsimp only at made
  split at made
  · rename_i none_
    rw [Trinux.processCreate, free] at none_
    cases none_
  · rename_i chosen t created
    have creates := ProcessTable.processCreate_creates created
    have same : slot = chosen := by
      rcases Option.map_eq_some_iff.mp created with ⟨slot', free', made'⟩
      rw [free] at free'
      cases free'
      exact (Prod.mk.inj made').1
    cases made
    subst same
    exact ⟨rfl, _, creates.new⟩

theorem not_isolates_of_child {slot : Nat} {p : Process} (held : s'.table.at? slot = some p) :
    ¬ForkIsolates s (some slot) s' := by
  intro isolates
  have first : 0x8048 ∈ forkPages := by
    rw [forkPages, List.mem_range'_1]
    decide
  rcases isolates.copies slot p rfl held 0x8048 first with ⟨m, mapped, apart, -⟩
  rw [s'.vm.lookup_shared (some p.dirFrame) s.vm.current (Vmm.forkPages_inside first)] at mapped
  exact apart s.vm.current (Or.inl rfl) m mapped rfl

/-- An error is all right unless it follows a failed allocation and leaves frames behind. -/
theorem isolates_error_iff : ForkIsolates s none s' ↔
    (s'.vm.pmm.failures ≠ s.vm.pmm.failures → s'.vm.pmm.bitmap = s.vm.pmm.bitmap) := by
  constructor
  · exact fun isolates failed => (isolates.failure failed).2
  · intro clean
    refine ⟨fun slot p child => ?_, fun child => absurd rfl child, fun slot p child => ?_,
      fun failed => ⟨rfl, clean failed⟩⟩
    · cases child
    · cases child

/-- Where no slot is free, a fork gives back the directory and nothing else. -/
theorem fork_without_slot {pd : Nat} {vm vm' : Vmm Page}
    (created : s.vm.createAddressSpace = some (some pd, vm)) (copies : vm.Copies forkPages.length vm') :
    (vm'.freeAddressSpace pd).pmm.totalFrames = s.vm.pmm.totalFrames ∧
      (vm'.freeAddressSpace pd).pmm.strayFrees = s.vm.pmm.strayFrees ∧
      (vm'.freeAddressSpace pd).pmm.failures =
        s.vm.pmm.failures + (forkPages.length + 1 - s.vm.pmm.freeCount) ∧
      ((vm'.freeAddressSpace pd).pmm.bitmap = s.vm.pmm.bitmap ↔ s.vm.pmm.freeCount = 1) := by
  rcases Vmm.createAddressSpace_some created with ⟨gives, made⟩
  have one := gives.freeCount
  have bare : ∀ index, vm'.directories pd index = none := by
    intro index
    rw [copies.directories, made]
    dsimp only
    rw [Function.update_self]
  have used : vm'.pmm.bitmap pd = true := by
    apply copies.grows
    rw [gives.bitmap, Function.update_self]
  have inside : pd < vm'.pmm.totalFrames := by
    rw [copies.totalFrames, gives.totalFrames]
    exact gives.inside
  rw [Vmm.freeAddressSpace_bare bare]
  rcases Pmm.freeFrame_used inside used with ⟨bitmap, totalFrames, failures, strayFrees, count⟩
  refine ⟨?_, ?_, ?_, fun same => ?_, fun single => ?_⟩
  · exact totalFrames.trans (copies.totalFrames.trans gives.totalFrames)
  · exact strayFrees.trans (copies.strayFrees.trans gives.strayFrees)
  · dsimp only
    rw [failures, copies.failures, gives.failures, one]
    omega
  · dsimp only at same
    have sameCount : (vm'.pmm.freeFrame pd).freeCount = s.vm.pmm.freeCount := by
      rw [Pmm.freeCount, Pmm.freeCount, same, totalFrames, copies.totalFrames, gives.totalFrames]
    rw [count, copies.free, one] at sameCount
    have pages : 0 < forkPages.length := by
      rw [forkPages, List.length_range']
      decide
    omega
  · dsimp only
    rw [single] at one
    rw [bitmap, copies.full (Nat.succ.inj one).symm, gives.bitmap, Function.update_idem,
      ← gives.wasFree, Function.update_eq_self]

/-- Where a slot and a frame are free, a fork succeeds and does not isolate the child. -/
theorem fork_with_slot {chosen : Nat} (slotFree : s.table.freeSlot = some chosen)
    {pd : Nat} {vm : Vmm Page} (created : s.vm.createAddressSpace = some (some pd, vm))
    {child : Option Nat} (returned : s.processFork kstack = some (child, s')) :
    child = some chosen ∧ ¬ForkIsolates s child s' := by
  rw [processFork, created, Option.bind_some] at returned
  rcases Option.bind_eq_some_iff.mp returned with ⟨vm', copied, last⟩
  rcases Option.map_eq_some_iff.mp last with ⟨⟨slot, after⟩, made, result⟩
  have sameSlot : ({ s with vm := vm' } : Spaces Page).table.freeSlot = some chosen := slotFree
  rcases processCreate_slot sameSlot made with ⟨isChosen, p, held⟩
  rw [isChosen] at result
  cases result
  have child := ProcessTable.at?_modify_self after.table chosen fun child =>
    match after.table.getCurrent with
    | none => { child with pageDir := frameAddress pd }
    | some parent => { child with
        pageDir := frameAddress pd
        cwd := parent.cwd.take 255
        heapStart := parent.heapStart
        heapBrk := parent.heapBrk }
  rw [held, Option.map_some] at child
  exact ⟨rfl, not_isolates_of_child child⟩

/-- A fork keeps its promise where it fails cleanly: there is no frame for the directory, or no slot
for the child and either enough frames for all copies or none at all. -/
theorem processFork_isolates_iff (zeroUsed : s.vm.pmm.ZeroUsed) {child : Option Nat}
    (returned : s.processFork kstack = some (child, s')) :
    ForkIsolates s child s' ↔
      s.vm.pmm.freeCount = 0 ∨ s.table.freeSlot = none ∧
        (s.vm.pmm.freeCount = 1 ∨ forkPages.length + 1 ≤ s.vm.pmm.freeCount) := by
  rcases Option.bind_eq_some_iff.mp returned with ⟨⟨pd, vm⟩, created, rest⟩
  cases pd with
  | none =>
      rcases Vmm.createAddressSpace_none zeroUsed created with ⟨full, made⟩
      cases rest
      rw [isolates_error_iff]
      refine iff_of_true (fun _ => ?_) (Or.inl full)
      rw [made]
  | some pd =>
      rcases Option.bind_eq_some_iff.mp rest with ⟨vm', copied, last⟩
      rcases Option.map_eq_some_iff.mp last with ⟨⟨slot, after⟩, made, result⟩
      have gives := (Vmm.createAddressSpace_some created).1
      have notFull : s.vm.pmm.freeCount ≠ 0 := by
        rw [gives.freeCount]
        exact Nat.succ_ne_zero _
      have copies := Vmm.copyRegion_copies (fun page => Vmm.forkPages_inside)
        (gives.zeroUsed zeroUsed) copied
      cases free : s.table.freeSlot with
      | none =>
          rw [processCreate] at made
          simp only [free] at made
          cases made
          cases result
          rcases fork_without_slot created copies with ⟨-, -, failures, bitmap⟩
          rw [isolates_error_iff]
          dsimp only
          rw [failures, bitmap, or_iff_right notFull, and_iff_right rfl]
          omega
      | some chosen =>
          refine iff_of_false (fork_with_slot free created returned).2 ?_
          rintro (full | ⟨none_, -⟩)
          · exact notFull full
          · cases none_

/-- On a machine with at most one gigabyte a fork with a slot and a frame returns. -/
theorem fork_returns (mapped : s.vm.Mapped) (zeroUsed : s.vm.pmm.ZeroUsed) {chosen : Nat}
    (slotFree : s.table.freeSlot = some chosen) (newSlot : s.table.at? chosen = none) :
    ∃ child s', s.processFork kstack = some (child, s') := by
  rcases Vmm.createAddressSpace_returns mapped zeroUsed with ⟨pd, vm, created, vmMapped, vmZero⟩
  rw [processFork, created, Option.bind_some]
  cases pd with
  | none => exact ⟨_, _, rfl⟩
  | some pd =>
      rcases Vmm.copyRegion_returns (fun page => Vmm.forkPages_inside) vmMapped vmZero with
        ⟨vm', copied, copiedMapped⟩
      have copies := Vmm.copyRegion_copies (fun page => Vmm.forkPages_inside) vmZero copied
      rcases Vmm.createAddressSpace_returns copiedMapped copies.zeroUsed with ⟨own, last, made, -⟩
      have reclaimed : (⟨s.table, vm'⟩ : Spaces Page).reclaim chosen = vm' := by
        rw [reclaim]
        dsimp only
        rw [newSlot]
      have child : ∃ result, (⟨s.table, vm'⟩ : Spaces Page).processCreate (literal "(fork-child)")
          kstack = some result := by
        rw [processCreate]
        dsimp only
        rw [slotFree]
        dsimp only
        rw [reclaimed, made]
        exact ⟨_, rfl⟩
      rcases child with ⟨result, isChild⟩
      dsimp only
      rw [copied, Option.bind_some, isChild]
      exact ⟨_, _, rfl⟩

def booted : Spaces Nat := ⟨oneProgram, Vmm.init (Pmm.init (256 * 1024 * 1024)) fun frame => frame⟩

/-- The program forks, and has a child then. -/
theorem booted_forks : booted.vm.pmm.ZeroUsed ∧
    ∃ child s', booted.processFork 0 = some (child, s') ∧ child = some 5 ∧
      ¬ForkIsolates booted child s' := by
  have frames : booted.vm.pmm.totalFrames ≤ identityTables * 1024 := by decide
  have zeroUsed : booted.vm.pmm.ZeroUsed := Pmm.init_zeroUsed _
  have mapped : booted.vm.Mapped := by
    refine ⟨frames, fun page inside => ?_⟩
    have below : page < identityTables * 1024 := (Nat.div_lt_iff_lt_mul (by decide)).mp inside
    change (if page < identityTables * 1024 then _ else none) ≠ none
    rw [if_pos below]
    exact Option.some_ne_none _
  have slotFree : booted.table.freeSlot = some 5 := by decide
  have notFull : booted.vm.pmm.freeCount ≠ 0 := by
    rw [Pmm.freeCount, ne_eq, List.countP_eq_zero]
    intro used
    have free := (Pmm.init_bitmap (256 * 1024 * 1024) Pmm.reservedFrames).mpr ⟨le_refl _, by decide⟩
    apply used Pmm.reservedFrames (List.mem_range.mpr (by decide))
    rw [Bool.not_eq_true']
    exact free
  rcases fork_returns mapped zeroUsed slotFree rfl with ⟨child, s', returned⟩
  rcases Vmm.createAddressSpace_returns mapped zeroUsed with ⟨pd, vm, created, -⟩
  cases pd with
  | none => exact absurd (Vmm.createAddressSpace_none zeroUsed created).1 notFull
  | some pd =>
      rcases fork_with_slot slotFree created returned with ⟨succeeded, shared⟩
      exact ⟨zeroUsed, child, s', returned, succeeded, shared⟩

/-- The child gets frames that the program has as well. -/
theorem fork_not_isolated :
    ∃ child s', booted.processFork 0 = some (child, s') ∧ child = some 5 ∧
      ¬ForkIsolates booted child s' :=
  booted_forks.2

def exhausted : Spaces Nat := ⟨oneProgram, Vmm.init ⟨1, fun _ => true, 1, 0, 0⟩ fun frame => frame⟩

/-- A fork that succeeds, and one for which there is no frame. -/
theorem processFork_isolates_iff_booted :
    (∃ child s', booted.processFork 0 = some (child, s') ∧ child = some 5 ∧
      (ForkIsolates booted child s' ↔
        booted.vm.pmm.freeCount = 0 ∨ booted.table.freeSlot = none ∧
          (booted.vm.pmm.freeCount = 1 ∨
            forkPages.length + 1 ≤ booted.vm.pmm.freeCount))) ∧
      ∃ s', exhausted.processFork 0 = some (none, s') ∧ ForkIsolates exhausted none s' := by
  rcases booted_forks with ⟨zeroUsed, child, s', returned, succeeded, -⟩
  refine ⟨⟨child, s', returned, succeeded, processFork_isolates_iff zeroUsed returned⟩, ?_⟩
  have full : exhausted.vm.pmm.freeCount = 0 := by decide
  have returned : ∃ s', exhausted.processFork 0 = some (none, s') := by
    rw [processFork, Vmm.createAddressSpace_full full]
    exact ⟨_, rfl⟩
  rcases returned with ⟨s', isReturned⟩
  have none_ : exhausted.vm.pmm.ZeroUsed := rfl
  exact ⟨s', isReturned, (processFork_isolates_iff none_ isReturned).mpr (Or.inl full)⟩

end Spaces

end Trinux
