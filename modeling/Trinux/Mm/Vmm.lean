import Trinux.Mm.Pmm

namespace Trinux

/-!
# Page tables

The first gigabyte of addresses is covered by static tables, filled with the identity at
boot.  The directory of a process is a frame of its own, but its entries for that gigabyte
are copies of those of the kernel and so lead to the same static tables.  Only the entries
above are private to a directory, and their tables are frames as well.

A directory is known by its frame and a page by its number.  The entries for the first
gigabyte never change, so only the upper ones are part of the state of a directory.  What a
frame holds is left abstract; the kernel reads and writes a frame through the page that has
its number, and panics where no such page is mapped.
-/

def identityTables : Nat := 256

def kernelEndTable : Nat := 20

/-- An entry of a page table that is present: the frame, and whether `PAGE_USER` is set. -/
structure Mapping where
  frame : Nat
  user : Bool
  deriving DecidableEq

/-- The frames, the static page tables, the upper entries of the directories with their tables, the
contents of the frames, and the current directory, which is the static one if it is none. -/
structure Vmm (Page : Type) where
  pmm : Pmm
  pageTables : Nat → Option Mapping
  directories : Nat → Nat → Option Nat
  tables : Nat → Nat → Option Mapping
  mem : Nat → Page
  current : Option Nat

namespace Vmm

variable {Page : Type}

def init (pmm : Pmm) (mem : Nat → Page) : Vmm Page where
  pmm := pmm
  pageTables := fun page =>
    if page < identityTables * 1024 then some ⟨page, kernelEndTable ≤ page / 1024⟩ else none
  directories := fun _ _ => none
  tables := fun _ _ => none
  mem := mem
  current := none

/-- What the processor finds for a page in a directory.  A page of the first gigabyte is accessible
to programs if its entry says so and it lies above the kernel. -/
def lookup (vm : Vmm Page) (dir : Option Nat) (page : Nat) : Option Mapping :=
  if page / 1024 < identityTables then
    (vm.pageTables page).map fun m =>
      { m with user := m.user && decide (kernelEndTable ≤ page / 1024) }
  else dir.bind fun frame =>
    (vm.directories frame (page / 1024)).bind fun table => vm.tables table (page % 1024)

def view (vm : Vmm Page) (dir : Option Nat) (page : Nat) : Option Page :=
  (vm.lookup dir page).map fun m => vm.mem m.frame

def write (vm : Vmm Page) (dir : Option Nat) (page : Nat) (data : Page) : Option (Vmm Page) :=
  (vm.lookup dir page).map fun m => { vm with mem := Function.update vm.mem m.frame data }

def Reaches (vm : Vmm Page) (frame : Nat) : Prop := (vm.lookup vm.current frame).isSome = true

instance (vm : Vmm Page) (frame : Nat) : Decidable (vm.Reaches frame) :=
  inferInstanceAs (Decidable (_ = true))

/-- `vmm_create_address_space`: the frame of the directory, if there is one; `none` for a panic. -/
def createAddressSpace (vm : Vmm Page) : Option (Option Nat × Vmm Page) :=
  match vm.pmm.allocFrame with
  | (none, pmm) => some (none, { vm with pmm := pmm })
  | (some pd, pmm) =>
      if vm.Reaches pd then
        some (some pd, { vm with
          pmm := pmm
          directories := Function.update vm.directories pd fun _ => none })
      else none

def setEntry (vm : Vmm Page) (table index : Nat) (m : Mapping) : Vmm Page :=
  { vm with
    tables := Function.update vm.tables table (Function.update (vm.tables table) index (some m)) }

def mapPageIn (pd page : Nat) (m : Mapping) (vm : Vmm Page) : Option (Vmm Page) :=
  if page / 1024 < identityTables then
    some { vm with pageTables := Function.update vm.pageTables page (some m) }
  else
    match vm.directories pd (page / 1024) with
    | some table => some (vm.setEntry table (page % 1024) m)
    | none =>
        match vm.pmm.allocFrame with
        | (none, pmm) => some { vm with pmm := pmm }
        | (some table, pmm) =>
            if vm.Reaches table then
              let cleared : Vmm Page := { vm with
                pmm := pmm
                tables := Function.update vm.tables table fun _ => none
                directories := Function.update vm.directories pd
                  (Function.update (vm.directories pd) (page / 1024) (some table)) }
              some (cleared.setEntry table (page % 1024) m)
            else none

def mapPage (page : Nat) (m : Mapping) (vm : Vmm Page) : Vmm Page :=
  if page / 1024 < identityTables then
    { vm with pageTables := Function.update vm.pageTables page (some m) }
  else vm

/-- The frames that `vmm_free_address_space` gives back for one entry of a directory, in order. -/
def tableFrames (vm : Vmm Page) (table : Nat) : List Nat :=
  ((List.range 1024).filterMap fun index => (vm.tables table index).map Mapping.frame) ++ [table]

/-- The frames that `vmm_free_address_space` gives back, in order: for every upper entry the pages
and the table, and last the directory. -/
def spaceFrames (vm : Vmm Page) (pd : Nat) : List Nat :=
  ((List.range' identityTables 768).flatMap fun index =>
    match vm.directories pd index with
    | some table => vm.tableFrames table
    | none => []) ++ [pd]

def freeAddressSpace (pd : Nat) (vm : Vmm Page) : Vmm Page :=
  { vm with pmm := (vm.spaceFrames pd).foldl (fun pmm frame => pmm.freeFrame frame) vm.pmm }

def copyPage (pd page : Nat) (vm : Vmm Page) : Option (Vmm Page) :=
  match vm.pmm.allocFrame with
  | (none, pmm) => some { vm with pmm := pmm }
  | (some frame, pmm) =>
      match vm.view vm.current page, vm.lookup vm.current frame with
      | some data, some target =>
          mapPageIn pd page ⟨frame, true⟩
            { vm with pmm := pmm, mem := Function.update vm.mem target.frame data }
      | _, _ => none

def copyRegion (pd : Nat) : List Nat → Vmm Page → Option (Vmm Page)
  | [], vm => some vm
  | page :: rest, vm => (copyPage pd page vm).bind (copyRegion pd rest)

/-! ## The shared gigabyte -/

theorem lookup_shared (vm : Vmm Page) (first second : Option Nat) {page : Nat}
    (inside : page / 1024 < identityTables) : vm.lookup first page = vm.lookup second page := by
  rw [lookup, lookup, if_pos inside, if_pos inside]

section Creation

variable {vm vm' : Vmm Page} {pd : Nat}

theorem createAddressSpace_some (created : vm.createAddressSpace = some (some pd, vm')) :
    vm.pmm.Gives pd vm'.pmm ∧
      vm' = { vm with
        pmm := vm'.pmm
        directories := Function.update vm.directories pd fun _ => none } := by
  rw [createAddressSpace] at created
  split at created
  · cases created
  · rename_i frame pmm allocated
    split at created
    · cases created
      exact ⟨Pmm.allocFrame_gives allocated, rfl⟩
    · cases created

theorem createAddressSpace_full (full : vm.pmm.freeCount = 0) :
    vm.createAddressSpace =
      some (none, { vm with pmm := { vm.pmm with failures := vm.pmm.failures + 1 } }) := by
  rw [createAddressSpace, Pmm.allocFrame_full full]

/-- While a frame is free, a directory is created or the kernel panics. -/
theorem createAddressSpace_none (zeroUsed : vm.pmm.ZeroUsed)
    (created : vm.createAddressSpace = some (none, vm')) :
    vm.pmm.freeCount = 0 ∧
      vm' = { vm with pmm := { vm.pmm with failures := vm.pmm.failures + 1 } } := by
  have full : vm.pmm.freeCount = 0 := by
    by_contra free
    rcases Pmm.allocFrame_some zeroUsed free with ⟨frame, pmm, allocated⟩
    rw [createAddressSpace, allocated] at created
    dsimp only at created
    split at created <;> cases created
  rw [createAddressSpace_full full] at created
  cases created
  exact ⟨full, rfl⟩

/-- An address space without upper entries is its directory. -/
theorem spaceFrames_bare (bare : ∀ index, vm.directories pd index = none) :
    vm.spaceFrames pd = [pd] := by
  rw [spaceFrames]
  simp only [bare, List.flatMap_eq_nil_iff.mpr fun _ _ => rfl, List.nil_append]

theorem freeAddressSpace_bare (bare : ∀ index, vm.directories pd index = none) :
    vm.freeAddressSpace pd = { vm with pmm := vm.pmm.freeFrame pd } := by
  rw [freeAddressSpace, spaceFrames_bare bare]
  rfl

end Creation

end Vmm

end Trinux
