import Trinux.Drivers.Ata
import Trinux.Fs.Node

namespace Trinux

open Bytes

/-!
# The block allocator for disk-backed file contents

`blockfs` divides the medium between the boot reserve and the metadata tail
into 4 KiB blocks and keeps one bitmap bit for each.  The bitmap lives in memory
while the system runs and is written behind the boot reserve by a save.

The in-memory bitmap is a function from block numbers to bits; bytes appear only
where it is read from or written to the medium, as in the source.
-/

def blockSize : Nat := 4096

def sectorsPerBlock : Nat := 8

def diskfsTailSectors : Nat := 64 * 1024 * 1024 / 512

def bootReserveSectors : Nat := 16 * 1024 * 1024 / 512

theorem diskfsTailSectors_eq : diskfsTailSectors = 131072 := rfl

theorem bootReserveSectors_eq : bootReserveSectors = 32768 := rfl

def bitmapLba : Nat := bootReserveSectors

structure Blockfs where
  available : Bool
  bitmap : Nat → Bool
  bitmapBytes : Nat
  bitmapSectors : Nat
  dataStartLba : Nat
  totalBlocks : Nat
  usedBlocks : Nat
  totalFits : totalBlocks < 2 ^ 32

def packedBit (bytes : List UInt8) (index : Nat) : Bool :=
  (byteAt bytes (index / 8)).testBit (index % 8)

def packByte (bitmap : Nat → Bool) (index : Nat) : UInt8 :=
  UInt8.ofNat ((List.range 8).foldr (fun bit value =>
    2 * value + (bitmap (8 * index + bit)).toNat) 0)

namespace Blockfs

def disabled : Blockfs where
  available := false
  bitmap := fun _ => false
  bitmapBytes := 0
  bitmapSectors := 0
  dataStartLba := 0
  totalBlocks := 0
  usedBlocks := 0
  totalFits := by decide

def countUsed (bitmap : Nat → Bool) (count : Nat) : Nat :=
  (List.range count).countP bitmap

theorem blockCount_fits (disk : Disk) (start : Nat) :
    (disk.total.toNat - start - diskfsTailSectors) / sectorsPerBlock < 2 ^ 32 := by
  have small := disk.total.toNat_lt
  rw [sectorsPerBlock]
  omega

def init (faults : Faults) (alloc : Nat → Bool) (disk : Disk) : Blockfs :=
  if !disk.present then disabled
  else if disk.total.toNat ≤ bootReserveSectors + diskfsTailSectors + 64 then disabled
  else
    let availSectors := disk.total.toNat - bootReserveSectors - diskfsTailSectors
    let approxBlocks := availSectors / sectorsPerBlock
    let bitmapBytes := (approxBlocks + 7) / 8
    let bitmapSectors := max ((bitmapBytes + 511) / 512) 1
    let dataStartLba := bitmapLba + bitmapSectors
    let dataSectors := disk.total.toNat - dataStartLba - diskfsTailSectors
    let totalBlocks := dataSectors / sectorsPerBlock
    if totalBlocks = 0 then disabled
    else if !kmalloc (alloc 0) bitmapBytes then disabled
    else if !kmalloc (alloc 1) (bitmapSectors * 512) then disabled
    else
      let bitmap := match ataReadLoop .ide faults disk 255 bitmapSectors bitmapLba
          bitmapSectors with
        | some bytes => fun index => index < 8 * bitmapBytes && packedBit bytes index
        | none => fun _ => false
      { available := true
        bitmap := bitmap
        bitmapBytes := bitmapBytes
        bitmapSectors := bitmapSectors
        dataStartLba := dataStartLba
        totalBlocks := totalBlocks
        usedBlocks := countUsed bitmap totalBlocks
        totalFits := blockCount_fits disk dataStartLba }

def firstFree (bitmap : Nat → Bool) : (left index : Nat) → Option Nat
  | 0, _ => none
  | left + 1, index => if bitmap index then firstFree bitmap left (index + 1) else some index

def allocBlock (store : Blockfs) : Option (Nat × Blockfs) :=
  if !store.available then none
  else
    (firstFree store.bitmap store.totalBlocks 0).map fun block =>
      (block, { store with
        bitmap := fun other => other = block || store.bitmap other
        usedBlocks := store.usedBlocks + 1 })

def freeBlock (store : Blockfs) (block : Nat) : Blockfs :=
  if store.available ∧ block < store.totalBlocks ∧ store.bitmap block then
    { store with
      bitmap := fun other => other ≠ block && store.bitmap other
      usedBlocks := store.usedBlocks - 1 }
  else store

def blockLba (store : Blockfs) (block : Nat) : Nat :=
  store.dataStartLba + block * sectorsPerBlock

def blockSectors (store : Blockfs) (block lba : Nat) : Prop :=
  store.blockLba block ≤ lba ∧ lba < store.blockLba block + sectorsPerBlock

def readBlock (faults : Faults) (disk : Disk) (store : Blockfs) (block : Nat) :
    Option (List UInt8) :=
  if store.available ∧ block < store.totalBlocks then
    ataReadSectors faults disk (store.blockLba block) sectorsPerBlock
  else none

def writeBlock (faults : Faults) (store : Blockfs) (block : Nat) (bytes : List UInt8)
    (disk : Disk) : Bool × Disk :=
  if store.available ∧ block < store.totalBlocks then
    ataWriteSectors faults (store.blockLba block) sectorsPerBlock bytes disk
  else (false, disk)

theorem writeBlock_changedOnly (faults : Faults) (store : Blockfs) (block : Nat)
    (bytes : List UInt8) (disk : Disk) :
    Disk.ChangedOnly (store.blockSectors block) disk
      (store.writeBlock faults block bytes disk).2 := by
  rw [writeBlock]
  split
  · exact ataWriteSectors_changedOnly faults (store.blockLba block) sectorsPerBlock bytes disk
  · exact Disk.ChangedOnly.refl _ disk

def packed (store : Blockfs) : List UInt8 :=
  (List.range store.bitmapBytes).map (packByte store.bitmap) ++
    List.replicate (store.bitmapSectors * 512 - store.bitmapBytes) 0

def flushBitmap (faults : Faults) (granted : Bool) (store : Blockfs) (disk : Disk) : Disk :=
  if !store.available then disk
  else if !kmalloc granted (store.bitmapSectors * 512) then disk
  else (ataWriteLoop faults 32 store.bitmapSectors bitmapLba store.bitmapSectors
    store.packed disk).2

/-! ## The layout of the medium -/

/-- The areas of the medium that `blockfs_init` lays out: the bitmap behind the boot reserve,
the blocks behind it, and the metadata tail behind the blocks. -/
structure Layout (store : Blockfs) (disk : Disk) : Prop where
  present : disk.present = true
  large : bootReserveSectors + diskfsTailSectors + 64 < disk.total.toNat
  dataStart : store.dataStartLba = bitmapLba + store.bitmapSectors
  blocksFit : store.dataStartLba + store.totalBlocks * sectorsPerBlock + diskfsTailSectors ≤
    disk.total.toNat
  bitmapFits : store.bitmapBytes ≤ store.bitmapSectors * 512
  blocksMapped : store.totalBlocks ≤ 8 * store.bitmapBytes

theorem init_layout (faults : Faults) (alloc : Nat → Bool) (disk : Disk)
    (available : (init faults alloc disk).available = true) :
    (init faults alloc disk).Layout disk := by
  unfold init at available ⊢
  split at available
  · cases available
  rename_i present
  split at available
  · cases available
  rename_i large
  simp only at available ⊢
  split at available
  · cases available
  rename_i blocks
  split at available
  · cases available
  rename_i first
  split at available
  · cases available
  rename_i second
  rw [if_neg present, if_neg large, if_neg blocks, if_neg first, if_neg second]
  clear first second available
  simp only [sectorsPerBlock, bitmapLba, bootReserveSectors_eq, diskfsTailSectors_eq] at *
  constructor
  · simpa using present
  · simp only [bootReserveSectors_eq, diskfsTailSectors_eq]
    omega
  · rfl
  · simp only [sectorsPerBlock, diskfsTailSectors_eq]
    omega
  · simp only
    omega
  · simp only
    omega

theorem firstFree_spec {bitmap : Nat → Bool} {left index found : Nat}
    (free : firstFree bitmap left index = some found) :
    index ≤ found ∧ found < index + left ∧ bitmap found = false := by
  induction left generalizing index with
  | zero => cases free
  | succ left known =>
      rw [firstFree] at free
      cases bit : bitmap index with
      | true =>
          rw [bit, if_pos rfl] at free
          have later := known free
          exact ⟨by omega, by omega, later.2.2⟩
      | false =>
          rw [bit, if_neg Bool.false_ne_true] at free
          cases free
          exact ⟨Nat.le_refl _, by omega, bit⟩

/-! ## Allocating and freeing -/

theorem allocBlock_cases {store store' : Blockfs} {block : Nat}
    (allocated : store.allocBlock = some (block, store')) :
    store.available = true ∧ block < store.totalBlocks ∧ store.bitmap block = false ∧
      store' = { store with
        bitmap := fun other => other = block || store.bitmap other
        usedBlocks := store.usedBlocks + 1 } := by
  rw [allocBlock] at allocated
  by_cases available : store.available = true
  · rw [if_neg (by simp [available])] at allocated
    cases free : firstFree store.bitmap store.totalBlocks 0 with
    | none =>
        rw [free] at allocated
        cases allocated
    | some found =>
        rw [free] at allocated
        cases allocated
        have spec := firstFree_spec free
        exact ⟨available, by omega, spec.2.2, rfl⟩
  · rw [if_pos (by simp [available])] at allocated
    cases allocated

structure SameGeometry (first second : Blockfs) : Prop where
  available : second.available = first.available
  dataStart : second.dataStartLba = first.dataStartLba
  total : second.totalBlocks = first.totalBlocks
  bitmapBytes : second.bitmapBytes = first.bitmapBytes
  bitmapSectors : second.bitmapSectors = first.bitmapSectors

theorem SameGeometry.refl (store : Blockfs) : store.SameGeometry store :=
  ⟨rfl, rfl, rfl, rfl, rfl⟩

theorem SameGeometry.trans {first second third : Blockfs}
    (before : first.SameGeometry second) (after : second.SameGeometry third) :
    first.SameGeometry third :=
  ⟨after.available.trans before.available, after.dataStart.trans before.dataStart,
    after.total.trans before.total, after.bitmapBytes.trans before.bitmapBytes,
    after.bitmapSectors.trans before.bitmapSectors⟩

theorem SameGeometry.blockSectors {first second : Blockfs}
    (same : first.SameGeometry second) (block lba : Nat) :
    second.blockSectors block lba ↔ first.blockSectors block lba := by
  rw [Blockfs.blockSectors, Blockfs.blockSectors, blockLba, blockLba, same.dataStart]

theorem allocBlock_geometry {store store' : Blockfs} {block : Nat}
    (allocated : store.allocBlock = some (block, store')) : store.SameGeometry store' := by
  obtain ⟨-, -, -, rfl⟩ := allocBlock_cases allocated
  exact ⟨rfl, rfl, rfl, rfl, rfl⟩

theorem freeBlock_geometry (store : Blockfs) (block : Nat) :
    store.SameGeometry (store.freeBlock block) := by
  rw [freeBlock]
  split
  · exact ⟨rfl, rfl, rfl, rfl, rfl⟩
  · exact SameGeometry.refl store

/-! ## Flushing the bitmap -/

@[simp] theorem flushBitmap_present (faults : Faults) (granted : Bool) (store : Blockfs)
    (disk : Disk) : (store.flushBitmap faults granted disk).present = disk.present := by
  unfold flushBitmap
  split
  · rfl
  split
  · rfl
  by_cases present : disk.present = true
  · rw [ataWriteLoop_eq _ _ _ _ _ _ _ (Nat.le_refl _) (by omega) present,
      ataWriteSectors_present]
  · cases sectors : store.bitmapSectors with
    | zero => rfl
    | succ count =>
        rw [ataWriteLoop, if_neg (by omega)]
        cases chunk : min (count + 1) 32 with
        | zero => omega
        | succ first => rw [ataWriteSectors, if_neg (by simp [present])]

theorem flushBitmap_outside (faults : Faults) (granted : Bool) (store : Blockfs) (disk : Disk)
    (present : disk.present = true) (position : Nat)
    (outside : position < bitmapLba * ataSectorSize ∨
      (bitmapLba + store.bitmapSectors) * ataSectorSize ≤ position) :
    (store.flushBitmap faults granted disk).bytes position = disk.bytes position := by
  unfold flushBitmap
  split
  · rfl
  split
  · rfl
  rw [ataWriteLoop_eq _ _ _ _ _ _ _ (Nat.le_refl _) (by omega) present]
  exact ataWriteSectors_outside _ _ _ _ _ _ outside

@[simp] theorem flushBitmap_total (faults : Faults) (granted : Bool) (store : Blockfs)
    (disk : Disk) (present : disk.present = true) :
    (store.flushBitmap faults granted disk).total = disk.total := by
  unfold flushBitmap
  split
  · rfl
  split
  · rfl
  rw [ataWriteLoop_eq _ _ _ _ _ _ _ (Nat.le_refl _) (by omega) present, ataWriteSectors_total]

end Blockfs
end Trinux
