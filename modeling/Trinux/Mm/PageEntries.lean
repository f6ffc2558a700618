import Trinux.Lib.Machine
import Trinux.Mm.Pmm

namespace Trinux

/-!
# Page directories and tables as words

A directory and a table are frames of 1024 words.  The kernel reads and writes them under their
addresses, in the identity map.  Here they are read and written as frames, so the pages of
directories and tables are taken to lead to their frames; `Mm.IdentityMap` has the calls that go
through the pages, which a run may change.  The directory of the kernel, the tables of the first
gigabyte and a pool of eight tables for higher addresses are static arrays; all other directories
and tables are frames of the frame allocator.

What a page translates to is what the processor finds for it: an access needs the rights of both
entries.
-/

def pagePresent : UInt32 := 0x1

def pageRw : UInt32 := 0x2

def pageUser : UInt32 := 0x4

def identityTableCount : Nat := 256

def kernelTableCount : Nat := 20

def extraTableCount : Nat := 8

/-! ## Entries -/

def HasFlag (entry flag : UInt32) : Prop := entry &&& flag ≠ 0

instance (entry flag : UInt32) : Decidable (HasFlag entry flag) :=
  inferInstanceAs (Decidable (_ ≠ _))

def entryAddress (entry : UInt32) : UInt32 := entry &&& ~~~0xFFF

def pageEntry (phys flags : UInt32) : UInt32 :=
  (phys &&& ~~~0xFFF) ||| (flags &&& 0xFFF) ||| pagePresent

def addressOf (frame : Nat) : UInt32 := UInt32.ofNat (frame * 4096)

def tableEntry (table : Nat) (flags : UInt32) : UInt32 := addressOf table ||| flags

theorem or_and_distrib (a b c : UInt32) : (a ||| b) &&& c = (a &&& c) ||| (b &&& c) := by
  apply UInt32.toBitVec_inj.mp
  ext i
  simp [Bool.and_or_distrib_right]

theorem pageEntry_address (phys flags : UInt32) :
    entryAddress (pageEntry phys flags) = entryAddress phys := by
  have high : (~~~0xFFF &&& ~~~0xFFF : UInt32) = ~~~0xFFF := by decide
  have low : (0xFFF &&& ~~~0xFFF : UInt32) = 0 := by decide
  have one : (1 &&& ~~~0xFFF : UInt32) = 0 := by decide
  unfold entryAddress pageEntry pagePresent
  rw [or_and_distrib, or_and_distrib, UInt32.and_assoc, UInt32.and_assoc, high, low, one,
    UInt32.and_zero, UInt32.or_zero, UInt32.or_zero]

theorem pageEntry_present (phys flags : UInt32) : HasFlag (pageEntry phys flags) pagePresent := by
  unfold HasFlag pageEntry pagePresent
  rw [or_and_distrib]
  intro zero
  have one := (UInt32.or_eq_zero_iff.mp zero).2
  exact absurd one (by decide)

theorem pageEntry_flag (phys flags : UInt32) {flag : UInt32} (low : 0xFFF &&& flag = flag)
    (other : 1 &&& flag = 0) : HasFlag (pageEntry phys flags) flag ↔ HasFlag flags flag := by
  have high : (~~~0xFFF &&& flag : UInt32) = 0 := by
    rw [← low, ← UInt32.and_assoc]
    have none' : (~~~0xFFF &&& 0xFFF : UInt32) = 0 := by decide
    rw [none', UInt32.zero_and]
  unfold HasFlag pageEntry pagePresent
  rw [or_and_distrib, or_and_distrib, UInt32.and_assoc, UInt32.and_assoc, high, low, other,
    UInt32.and_zero, UInt32.zero_or, UInt32.or_zero]

theorem addressOf_toNat {frame : Nat} (small : frame < maxFrames) :
    (addressOf frame).toNat = frame * 4096 := by
  apply UInt32.toNat_ofNat_of_lt'
  rw [maxFrames] at small
  show frame * 4096 < 2 ^ 32
  omega

theorem addressOf_low (frame : Nat) : addressOf frame &&& 0xFFF = 0 := by
  apply UInt32.toNat_inj.mp
  have low : (0xFFF : UInt32).toNat = 2 ^ 12 - 1 := rfl
  have none' : (0 : UInt32).toNat = 0 := rfl
  rw [UInt32.toNat_and, low, Nat.and_two_pow_sub_one_eq_mod, none']
  show (UInt32.ofNat (frame * 4096)).toNat % 2 ^ 12 = 0
  rw [UInt32.toNat_ofNat']
  omega

theorem addressOf_high (frame : Nat) : entryAddress (addressOf frame) = addressOf frame := by
  have parts : (addressOf frame &&& ~~~0xFFF) ||| (addressOf frame &&& 0xFFF) =
      addressOf frame := by
    apply UInt32.toBitVec_inj.mp
    ext i
    simp only [UInt32.toBitVec_or, UInt32.toBitVec_and, UInt32.toBitVec_not, BitVec.getElem_or,
      BitVec.getElem_and, BitVec.getElem_not]
    cases (addressOf frame).toBitVec[i] <;> simp
  rw [addressOf_low, UInt32.or_zero] at parts
  exact parts

def entryFrame (entry : UInt32) : Nat := (entryAddress entry).toNat / 4096

/-- What the kernel and the spaces of processes put beside the address of a table. -/
def TableFlags (flags : UInt32) : Prop := flags = pagePresent ||| pageRw ∨
  flags = pagePresent ||| pageRw ||| pageUser

theorem tableEntry_frame {table : Nat} (small : table < maxFrames) {flags : UInt32}
    (known : TableFlags flags) : entryFrame (tableEntry table flags) = table := by
  have low : flags &&& ~~~0xFFF = 0 := by
    rcases known with rfl | rfl <;> decide
  have high := addressOf_high table
  unfold entryAddress at high
  unfold entryFrame entryAddress tableEntry
  rw [or_and_distrib, low, UInt32.or_zero, high, addressOf_toNat small]
  omega

theorem tableEntry_flag (table : Nat) (flags : UInt32) {flag : UInt32}
    (low : 0xFFF &&& flag = flag) : HasFlag (tableEntry table flags) flag ↔ HasFlag flags flag := by
  have none' : addressOf table &&& flag = 0 := by
    rw [← low, ← UInt32.and_assoc, addressOf_low, UInt32.zero_and]
  unfold HasFlag tableEntry
  rw [or_and_distrib, none', UInt32.zero_or]

theorem tableEntry_present (table : Nat) {flags : UInt32} (known : TableFlags flags) :
    HasFlag (tableEntry table flags) pagePresent := by
  rw [tableEntry_flag table flags (by decide)]
  rcases known with rfl | rfl <;> decide

/-! ## Directories -/

structure Statics where
  pageDirectory : Nat
  pageTables : Nat
  extraTables : Nat
  directoryInside : pageDirectory < Pmm.reservedFrames
  tablesInside : pageTables + identityTableCount ≤ Pmm.reservedFrames
  extraInside : extraTables + extraTableCount ≤ Pmm.reservedFrames
  directoryApart : pageDirectory < pageTables ∨ pageTables + identityTableCount ≤ pageDirectory
  extraApart : pageDirectory < extraTables ∨ extraTables + extraTableCount ≤ pageDirectory
  tablesApart : pageTables + identityTableCount ≤ extraTables ∨
    extraTables + extraTableCount ≤ pageTables

/-- The frame allocator, the words of all frames, the number of tables taken from the pool, and the
directories that were created. -/
structure PageTables where
  pmm : Pmm
  mem : Nat → Nat → UInt32
  extraUsed : Nat
  spaces : List Nat

def pageOf (virt : UInt32) : Nat := virt.toNat / 4096

structure Translation where
  address : UInt32
  rw : Bool
  user : Bool
  deriving DecidableEq

def combine (pde pte : UInt32) : Option Translation :=
  if HasFlag pde pagePresent ∧ HasFlag pte pagePresent then
    some ⟨entryAddress pte, decide (HasFlag pde pageRw ∧ HasFlag pte pageRw),
      decide (HasFlag pde pageUser ∧ HasFlag pte pageUser)⟩
  else none

namespace PageTables

def translate (s : PageTables) (dir page : Nat) : Option Translation :=
  combine (s.mem dir (page / 1024)) (s.mem (entryFrame (s.mem dir (page / 1024))) (page % 1024))

def setWord (s : PageTables) (frame index : Nat) (value : UInt32) : PageTables :=
  { s with mem := Function.update s.mem frame (Function.update (s.mem frame) index value) }

def clear (s : PageTables) (frame : Nat) : PageTables :=
  { s with mem := Function.update s.mem frame fun _ => 0 }

end PageTables

/-- The entries for the first gigabyte: the tables of the kernel are for the supervisor. -/
def lowEntry (statics : Statics) (index : Nat) : UInt32 :=
  tableEntry (statics.pageTables + index)
    (if index < kernelTableCount then pagePresent ||| pageRw
      else pagePresent ||| pageRw ||| pageUser)

def vmmInit (statics : Statics) (pmm : Pmm) (mem : Nat → Nat → UInt32) : PageTables where
  pmm := pmm
  mem := fun frame index =>
    if frame = statics.pageDirectory then
      if index < identityTableCount then lowEntry statics index else 0
    else if statics.pageTables ≤ frame ∧ frame < statics.pageTables + identityTableCount then
      let table := frame - statics.pageTables
      addressOf (table * 1024 + index) |||
        if table < kernelTableCount then pagePresent ||| pageRw
        else pagePresent ||| pageRw ||| pageUser
    else mem frame index
  extraUsed := 0
  spaces := []

namespace PageTables

def vmmMapPage (statics : Statics) (s : PageTables) (virt phys flags : UInt32) : PageTables :=
  let dirIdx := pageOf virt / 1024
  let tblIdx := pageOf virt % 1024
  if dirIdx < identityTableCount then
    s.setWord (statics.pageTables + dirIdx) tblIdx (pageEntry phys flags)
  else if ¬HasFlag (s.mem statics.pageDirectory dirIdx) pagePresent then
    if extraTableCount ≤ s.extraUsed then s
    else
      let table := statics.extraTables + s.extraUsed
      let made := (s.clear table).setWord statics.pageDirectory dirIdx
        (tableEntry table (pagePresent ||| pageRw))
      let counted : PageTables := { made with extraUsed := s.extraUsed + 1 }
      counted.setWord (entryFrame (counted.mem statics.pageDirectory dirIdx)) tblIdx
        (pageEntry phys flags)
  else s.setWord (entryFrame (s.mem statics.pageDirectory dirIdx)) tblIdx (pageEntry phys flags)

def vmmUnmapPage (statics : Statics) (s : PageTables) (virt : UInt32) : PageTables :=
  let dirIdx := pageOf virt / 1024
  let tblIdx := pageOf virt % 1024
  if dirIdx < identityTableCount then s.setWord (statics.pageTables + dirIdx) tblIdx 0
  else if HasFlag (s.mem statics.pageDirectory dirIdx) pagePresent then
    s.setWord (entryFrame (s.mem statics.pageDirectory dirIdx)) tblIdx 0
  else s

/-- The words of a new directory: the entries for the first gigabyte, without the flag for programs
in those of the kernel. -/
def newDirectory (statics : Statics) (s : PageTables) (index : Nat) : UInt32 :=
  if index < identityTableCount then
    if index < kernelTableCount then s.mem statics.pageDirectory index &&& ~~~pageUser
    else s.mem statics.pageDirectory index
  else 0

def vmmCreateAddressSpace (statics : Statics) (s : PageTables) : PageTables :=
  match s.pmm.allocFrame with
  | (none, pmm) => { s with pmm := pmm }
  | (some pd, pmm) =>
      { s with
        pmm := pmm
        mem := Function.update s.mem pd (s.newDirectory statics)
        spaces := pd :: s.spaces }

def vmmMapPageIn (s : PageTables) (pd : Nat) (virt phys flags : UInt32) : PageTables :=
  let dirIdx := pageOf virt / 1024
  let tblIdx := pageOf virt % 1024
  if ¬HasFlag (s.mem pd dirIdx) pagePresent then
    match s.pmm.allocFrame with
    | (none, pmm) => { s with pmm := pmm }
    | (some table, pmm) =>
        let allocated : PageTables := { s with pmm := pmm }
        let made := (allocated.clear table).setWord pd dirIdx
          (tableEntry table (pagePresent ||| pageRw ||| pageUser))
        made.setWord (entryFrame (made.mem pd dirIdx)) tblIdx (pageEntry phys flags)
  else s.setWord (entryFrame (s.mem pd dirIdx)) tblIdx (pageEntry phys flags)

inductive Call where
  | mapPage (virt phys flags : UInt32)
  | unmapPage (virt : UInt32)
  | create
  | mapPageIn (pd : Nat) (virt phys flags : UInt32)

def perform (statics : Statics) (s : PageTables) : Call → PageTables
  | .mapPage virt phys flags => s.vmmMapPage statics virt phys flags
  | .unmapPage virt => s.vmmUnmapPage statics virt
  | .create => s.vmmCreateAddressSpace statics
  | .mapPageIn pd virt phys flags =>
      if pd ∈ s.spaces then s.vmmMapPageIn pd virt phys flags else s

end PageTables

end Trinux
