import Trinux.Mm.Vmm

namespace Trinux

/-!
# The frames of the kernel and the addresses of programs

Three modules choose addresses on their own.  The frame allocator hands out the frames from
128 MiB on, the page tables give programs every address from 80 MiB on, and the loader puts
images, heaps and stacks at fixed addresses above 128 MiB.  A frame that is allocated for a
page directory is therefore one that programs can write to.
-/

/-- The pages that `process_fork` copies, from `USER_COPY_START` to `USER_COPY_END`. -/
def forkPages : List Nat := List.range' 0x8048 (0xF100 - 0x8048)

/-- `USER_STACK_TOP_L0` to `USER_STACK_TOP_L3` and `USER_STACK_TOP_FALLBACK`, as pages. -/
def userStackTops : List Nat := [0xF000, 0xEE00, 0xEC00, 0xEA00, 0xE800]

/-- The fixed addresses of programs, as pages: images and heaps below `BRK_MAX_ADDR`, and stacks of
`USER_STACK_SIZE`. -/
def UserRegion (page : Nat) : Prop :=
  0x8048 ≤ page ∧ page < 0xE000 ∨ ∃ top ∈ userStackTops, top - 16 ≤ page ∧ page < top

/-- The static directory and the static tables are part of the kernel image, which ends below
`KERNEL_END_VIRT`. -/
structure StaticTables where
  frames : List Nat
  inKernel : ∀ frame ∈ frames, frame < kernelEndTable * 1024

/-- The page tables with the directories that are in use, and a record of the frames that were ever
allocated. -/
structure Paging (Page : Type) where
  vm : Vmm Page
  spaces : List Nat
  allocated : Nat → Bool

/-- What changes page tables: creating and freeing a directory, mapping a page of a program at its
own address, copying the pages of a program, mapping the registers of a device, and changing the
current directory. -/
inductive PagingEvent where
  | create
  | free (pd : Nat)
  | map (pd page : Nat)
  | copy (pd : Nat)
  | device (page : Nat)
  | switch (dir : Option Nat)

namespace Paging

variable {Page : Type}

def init (bytes : UInt32) (mem : Nat → Page) : Paging Page :=
  ⟨Vmm.init (Pmm.init bytes) mem, [], fun _ => false⟩

def withVm (s : Paging Page) (vm : Vmm Page) : Paging Page :=
  { s with
    vm := vm
    allocated := fun frame =>
      s.allocated frame || (!s.vm.pmm.bitmap frame && vm.pmm.bitmap frame) }

/-- One event.  Only directories in use are mapped into, freed or made the current one.  After a
panic there is no other state. -/
def step (s : Paging Page) : PagingEvent → Paging Page
  | .create =>
      match s.vm.createAddressSpace with
      | none => s
      | some (pd, vm) => { s.withVm vm with spaces := pd.toList ++ s.spaces }
  | .free pd =>
      if pd ∈ s.spaces then
        { s.withVm (s.vm.freeAddressSpace pd) with spaces := s.spaces.erase pd }
      else s
  | .map pd page =>
      if pd ∈ s.spaces then
        match s.vm.mapPageIn pd page ⟨page, true⟩ with
        | none => s
        | some vm => s.withVm vm
      else s
  | .copy pd =>
      if pd ∈ s.spaces then
        match Vmm.copyRegion pd forkPages s.vm with
        | none => s
        | some vm => s.withVm vm
      else s
  | .device page => s.withVm (s.vm.mapPage page ⟨page, false⟩)
  | .switch dir =>
      if ∀ pd ∈ dir, pd ∈ s.spaces then { s with vm := { s.vm with current := dir } } else s

def run (s : Paging Page) (events : List PagingEvent) : Paging Page := events.foldl step s

def HoldsTable (static : StaticTables) (s : Paging Page) (frame : Nat) : Prop :=
  frame ∈ static.frames ∨ frame ∈ s.spaces ∨
    ∃ pd ∈ s.spaces, ∃ index, s.vm.directories pd index = some frame

/-- Programs reach no page directory and no page table, and no allocated frame lies at the fixed
addresses of programs. -/
structure Shielded (static : StaticTables) (s : Paging Page) : Prop where
  tables : ∀ frame, s.HoldsTable static frame → ∀ dir, (∀ pd ∈ dir, pd ∈ s.spaces) →
    ∀ page m, s.vm.lookup dir page = some m → m.user = true → m.frame ≠ frame
  frames : ∀ frame, s.allocated frame = true → ¬UserRegion frame

/-- After boot every page of the first gigabyte leads to the frame with its own number. -/
theorem lookup_reserved {vm : Vmm Page} {pmm : Pmm} {mem : Nat → Page}
    (same : vm.pageTables = (Vmm.init pmm mem).pageTables) (dir : Option Nat) :
    vm.lookup dir Pmm.reservedFrames = some ⟨Pmm.reservedFrames, true⟩ := by
  rw [Vmm.lookup, if_pos (show Pmm.reservedFrames / 1024 < identityTables by decide), same]
  rfl

/-- The first directory takes the first frame above the reserved ones. -/
theorem init_createAddressSpace {bytes : UInt32} (mem : Nat → Page)
    (large : Pmm.reservedFrames < Pmm.frameCount bytes) :
    ∃ vm, (Vmm.init (Pmm.init bytes) mem).createAddressSpace = some (some Pmm.reservedFrames, vm) := by
  have reaches : (Vmm.init (Pmm.init bytes) mem).Reaches Pmm.reservedFrames := by
    rw [Vmm.Reaches, lookup_reserved rfl]
    rfl
  have first := Pmm.init_alloc large
  rw [Vmm.createAddressSpace]
  split
  · rename_i pmm allocated
    rw [show (Vmm.init (Pmm.init bytes) mem).pmm = Pmm.init bytes from rfl] at allocated
    rw [allocated] at first
    cases first
  · rename_i pd pmm allocated
    rw [show (Vmm.init (Pmm.init bytes) mem).pmm = Pmm.init bytes from rfl] at allocated
    rw [allocated] at first
    cases first
    exact ⟨_, if_pos reaches⟩

/-- The first directory is created in a frame that every program reaches. -/
theorem create_not_shielded (static : StaticTables) {bytes : UInt32} (mem : Nat → Page)
    (large : Pmm.reservedFrames < Pmm.frameCount bytes) :
    ¬((init bytes mem).run [.create]).Shielded static := by
  intro shielded
  rcases init_createAddressSpace mem large with ⟨vm, made⟩
  have same : vm.pageTables = (init bytes mem).vm.pageTables := by
    rw [(Vmm.createAddressSpace_some made).2]
    rfl
  have after : (init bytes mem).run [.create] =
      { (init bytes mem).withVm vm with spaces := [Pmm.reservedFrames] } := by
    change (init bytes mem).step .create = _
    rw [step, show (init bytes mem).vm = Vmm.init (Pmm.init bytes) mem from rfl, made]
    rfl
  rw [after] at shielded
  refine shielded.tables Pmm.reservedFrames (Or.inr (Or.inl List.mem_cons_self)) none
    (fun pd none_ => absurd none_ (Option.not_mem_none pd)) Pmm.reservedFrames _
    (lookup_reserved same none) rfl rfl

/-- What holds as long as no frame was ever free: there is no directory but the static one, and every
page leads to the frame with its own number. -/
structure Bare (s : Paging Page) : Prop where
  full : s.vm.pmm.freeCount = 0
  spaces : s.spaces = []
  identity : ∀ page m, s.vm.pageTables page = some m → m.frame = page
  allocated : ∀ frame, s.allocated frame = false

section Steps

variable {s : Paging Page}

/-- Nothing is allocated where the bitmap stays as it is. -/
theorem Bare.withVm (bare : s.Bare) (vm : Vmm Page) (bitmap : vm.pmm.bitmap = s.vm.pmm.bitmap)
    (totalFrames : vm.pmm.totalFrames = s.vm.pmm.totalFrames)
    (identity : ∀ page m, vm.pageTables page = some m → m.frame = page) : (s.withVm vm).Bare := by
  refine ⟨?_, bare.spaces, identity, fun frame => ?_⟩
  · have full := bare.full
    rw [Pmm.freeCount] at full ⊢
    rw [show (s.withVm vm).vm.pmm.totalFrames = _ from totalFrames,
      show (s.withVm vm).vm.pmm.bitmap = _ from bitmap]
    exact full
  · rw [Paging.withVm]
    dsimp only
    rw [bare.allocated frame, bitmap, Bool.false_or, Bool.not_and_self]

theorem Bare.step (bare : s.Bare) (event : PagingEvent) : (s.step event).Bare := by
  have noSpace : ∀ pd, pd ∉ s.spaces := by
    intro pd
    rw [bare.spaces]
    exact List.not_mem_nil
  cases event with
  | create =>
      rw [Paging.step, Vmm.createAddressSpace_full bare.full]
      have next := bare.withVm { s.vm with pmm := { s.vm.pmm with
        failures := s.vm.pmm.failures + 1 } } rfl rfl bare.identity
      exact ⟨next.full, next.spaces, next.identity, next.allocated⟩
  | free pd =>
      rw [Paging.step, if_neg (noSpace pd)]
      exact bare
  | map pd page =>
      rw [Paging.step, if_neg (noSpace pd)]
      exact bare
  | copy pd =>
      rw [Paging.step, if_neg (noSpace pd)]
      exact bare
  | device page =>
      rw [Paging.step, Vmm.mapPage]
      split
      · refine bare.withVm _ rfl rfl fun other m held => ?_
        dsimp only at held
        by_cases here : other = page
        · rw [here, Function.update_self, Option.some_inj] at held
          rw [← held, here]
        · rw [Function.update_of_ne here] at held
          exact bare.identity other m held
      · exact bare.withVm _ rfl rfl bare.identity
  | switch dir =>
      rw [Paging.step]
      split
      · exact ⟨bare.full, bare.spaces, bare.identity, bare.allocated⟩
      · exact bare

theorem Bare.run (bare : s.Bare) (events : List PagingEvent) : (s.run events).Bare := by
  induction events generalizing s with
  | nil => exact bare
  | cons event rest known => exact known (bare.step event)

/-- The tables of the kernel lie below the first page that programs reach. -/
theorem Bare.shielded (bare : s.Bare) (static : StaticTables) : s.Shielded static := by
  refine ⟨fun frame holds dir inUse page m held isUser same => ?_, fun frame wasAllocated => ?_⟩
  · have isStatic : frame < kernelEndTable * 1024 := by
      rcases holds with image | space | ⟨pd, space, -⟩
      · exact static.inKernel frame image
      · rw [bare.spaces] at space
        cases space
      · rw [bare.spaces] at space
        cases space
    have kernelDir : dir = none := by
      cases dir with
      | none => rfl
      | some pd =>
          have space := inUse pd rfl
          rw [bare.spaces] at space
          cases space
    rw [Vmm.lookup] at held
    split at held
    · rcases Option.map_eq_some_iff.mp held with ⟨entry, found, rfl⟩
      rw [Bool.and_eq_true, decide_eq_true_eq] at isUser
      have low : page < kernelEndTable * 1024 := by
        rw [← bare.identity page entry found]
        exact same ▸ isStatic
      exact absurd (Nat.div_lt_of_lt_mul (by rw [Nat.mul_comm]; exact low)) (not_lt.mpr isUser.2)
    · rw [kernelDir] at held
      cases held
  · rw [bare.allocated frame] at wasAllocated
    cases wasAllocated

end Steps

theorem init_bare {bytes : UInt32} (mem : Nat → Page)
    (small : Pmm.frameCount bytes ≤ Pmm.reservedFrames) : (init bytes mem).Bare := by
  refine ⟨Pmm.init_full small, rfl, fun page m held => ?_, fun _ => rfl⟩
  change (if page < identityTables * 1024 then _ else none) = some m at held
  split at held
  · cases held
    rfl
  · cases held

/-- The kernel is out of reach of programs in every state exactly on the machines on which no frame
can be allocated, those with at most 128 MiB. -/
theorem shielded_iff (static : StaticTables) (bytes : UInt32) (mem : Nat → Page) :
    (∀ events, ((init bytes mem).run events).Shielded static) ↔
      Pmm.frameCount bytes ≤ Pmm.reservedFrames := by
  constructor
  · intro shielded
    by_contra large
    exact create_not_shielded static mem (not_le.mp large) (shielded [.create])
  · exact fun small events => ((init_bare mem small).run events).shielded static

/-- On a machine with 256 MiB the first page directory is within reach of every program. -/
theorem directory_reached :
    ¬((init (256 * 1024 * 1024) fun _ => ()).run [.create]).Shielded ⟨[], by simp⟩ :=
  create_not_shielded _ _ (by decide)

end Paging

end Trinux
