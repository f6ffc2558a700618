import Trinux.Fs.Fat16

namespace Trinux

open Bytes

/-!
# Entries of the FAT on a medium without faults

An entry of the table is two bytes at an even address.  Setting an entry overwrites these bytes in
the copies of the table that lie on the medium.
-/

namespace Fat

variable (fat : FatVolume)

def address (lba : Nat) : Nat := u32 (fat.partitionLba + lba)

def entryLba (cluster copy : Nat) : Nat :=
  fat.fatStartLba + cluster * 2 / 512 + copy * fat.sectorsPerFat

def entryAddress (cluster copy : Nat) : Nat :=
  address fat (entryLba fat cluster copy) * 512 + cluster * 2 % 512

def Reaches (disk : Disk) (lba : Nat) : Prop :=
  disk.present = true ∧ address fat lba < disk.total.toNat

def word (bytes : Nat → UInt8) (position : Nat) : Nat :=
  (bytes position).toNat + (bytes (position + 1)).toNat * 256

variable {fat} {disk : Disk} {lba : Nat}

/-! ## sectors -/

theorem read_sector (reaches : Reaches fat disk lba) :
    fatReadSector Faults.none fat disk lba = some (disk.sectors (address fat lba) 1) := by
  rw [fatReadSector, ataReadSectors, if_pos]
  · rfl
  · refine ⟨reaches.1, ?_⟩
    intro sector first
    rw [Nat.lt_one_iff.mp first]
    exact ⟨reaches.2, rfl⟩

theorem read_none (beyond : ¬Reaches fat disk lba) :
    fatReadSector Faults.none fat disk lba = none := by
  rw [fatReadSector, ataReadSectors, if_neg]
  intro whole
  exact beyond ⟨whole.1, (whole.2 0 Nat.one_pos).1⟩

theorem write_sector (reaches : Reaches fat disk lba) {bytes : List UInt8}
    (full : bytes.length = 512) :
    fatWriteSector Faults.none fat lba bytes disk =
      (true, disk.setSector (address fat lba) bytes) := by
  have whole : bytes.take ataSectorSize = bytes := List.take_of_length_le (Nat.le_of_eq full)
  have met : disk.present = true ∧ u32 (fat.partitionLba + lba) < disk.total.toNat := reaches
  rw [fatWriteSector, ataWriteSectors, if_pos met]
  change ataWriteSectors Faults.none _ 0 _ _ = _
  rw [ataWriteSectors, whole, Disk.setSector_present, reaches.1]
  rfl

theorem sectors_one (sector : Nat) :
    disk.sectors sector 1 = window disk.bytes (sector * 512) 512 := by
  have size : ataSectorSize = 512 := rfl
  rw [Disk.sectors, size, Nat.one_mul]

theorem overwrite_window (medium : Nat → UInt8) (start count : Nat) :
    overwrite medium start (window medium start count) = medium := by
  funext position
  by_cases inside : start ≤ position ∧ position < start + count
  · rcases Nat.exists_eq_add_of_le inside.1 with ⟨index, rfl⟩
    have below : index < (window medium start count).length := by
      rw [window_length]
      exact Nat.lt_of_add_lt_add_left inside.2
    rw [overwrite_inside _ _ _ _ below, window_getElem]
  · apply overwrite_outside
    rw [window_length]
    omega

/-- Writing a sector back with some bytes replaced changes these bytes only. -/
theorem setSector_splice (sector offset : Nat) (new : List UInt8)
    (inside : offset + new.length ≤ 512) :
    disk.setSector sector (splice (disk.sectors sector 1) offset new) =
      { disk with bytes := overwrite disk.bytes (sector * 512 + offset) new } := by
  have parts : disk.sectors sector 1 = window disk.bytes (sector * 512) offset ++
      (window disk.bytes (sector * 512 + offset) new.length ++
        window disk.bytes (sector * 512 + offset + new.length) (512 - offset - new.length)) := by
    have total : offset + (new.length + (512 - offset - new.length)) = 512 := by omega
    rw [← window_add, ← window_add, sectors_one, total]
  have front : (disk.sectors sector 1).take offset = window disk.bytes (sector * 512) offset := by
    rw [parts, List.take_left' (window_length _ _ _)]
  have back : (disk.sectors sector 1).drop (offset + new.length) =
      window disk.bytes (sector * 512 + offset + new.length) (512 - offset - new.length) := by
    rw [parts, ← List.append_assoc, List.drop_left']
    rw [List.length_append, window_length, window_length]
  have size : ataSectorSize = 512 := rfl
  have first : overwrite disk.bytes (sector * 512)
      (window disk.bytes (sector * 512) offset ++ new) =
      overwrite disk.bytes (sector * 512 + offset) new := by
    rw [← overwrite_append, overwrite_window, window_length]
  have length : (window disk.bytes (sector * 512) offset ++ new).length = offset + new.length := by
    rw [List.length_append, window_length]
  have kept := window_overwrite_of_disjoint disk.bytes (sector * 512 + offset) new
    (sector * 512 + offset + new.length) (512 - offset - new.length) (Or.inr (Nat.le_refl _))
  rw [Disk.setSector, splice, front, back, size, ← overwrite_append, first, length,
    ← Nat.add_assoc, ← kept, overwrite_window]

/-! ## entries -/

theorem entry_inside (cluster : Nat) : cluster * 2 % 512 + 2 ≤ 512 := by omega

theorem byteAt_window (medium : Nat → UInt8) (start : Nat) {count index : Nat}
    (inside : index < count) :
    byteAt (window medium start count) index = (medium (start + index)).toNat := by
  have below : index < (window medium start count).length := by
    rw [window_length]
    exact inside
  rw [byteAt, List.getD_eq_getElem _ _ below, window_getElem]

/-- `fat16_get_fat_entry`: the first copy of the entry, or the end of a chain. -/
theorem getEntry_reached {cluster : Nat} (reaches : Reaches fat disk (entryLba fat cluster 0)) :
    fatGetEntry Faults.none fat disk cluster = word disk.bytes (entryAddress fat cluster 0) := by
  have lba : entryLba fat cluster 0 = fat.fatStartLba + cluster * 2 / 512 := by
    rw [entryLba, Nat.zero_mul, Nat.add_zero]
  have inside := entry_inside cluster
  rw [lba] at reaches
  have low : cluster * 2 % 512 < 512 := by omega
  have high : cluster * 2 % 512 + 1 < 512 := by omega
  rw [fatGetEntry, read_sector reaches, word, entryAddress, lba]
  dsimp only
  rw [readU16, sectors_one, byteAt_window _ _ low, byteAt_window _ _ high, Nat.add_assoc]

theorem getEntry_beyond {cluster : Nat} (beyond : ¬Reaches fat disk (entryLba fat cluster 0)) :
    fatGetEntry Faults.none fat disk cluster = 0xFFFF := by
  have lba : entryLba fat cluster 0 = fat.fatStartLba + cluster * 2 / 512 := by
    rw [entryLba, Nat.zero_mul, Nat.add_zero]
  rw [lba] at beyond
  rw [fatGetEntry, read_none beyond]

def setWord (disk : Disk) (position value : Nat) : Disk :=
  { disk with bytes := overwrite disk.bytes position (le16 value) }

theorem setCopies_reached {cluster value left copy : Nat}
    (reaches : Reaches fat disk (entryLba fat cluster copy)) :
    fatSetCopies Faults.none fat cluster value (left + 1) copy disk =
      fatSetCopies Faults.none fat cluster value left (copy + 1)
        (setWord disk (entryAddress fat cluster copy) value) := by
  have inside : cluster * 2 % 512 + (le16 value).length ≤ 512 := entry_inside cluster
  have full : (splice (disk.sectors (address fat (entryLba fat cluster copy)) 1)
      (cluster * 2 % 512) (le16 value)).length = 512 := by
    have length : (disk.sectors (address fat (entryLba fat cluster copy)) 1).length = 512 :=
      Disk.sectors_length _ _ _
    rw [splice, List.length_append, List.length_append, List.length_take, List.length_drop, length]
    omega
  have lba : fat.fatStartLba + cluster * 2 / 512 + copy * fat.sectorsPerFat =
      entryLba fat cluster copy := rfl
  rw [fatSetCopies, lba, read_sector reaches]
  dsimp only
  rw [write_sector reaches full, setSector_splice _ _ _ inside]
  rfl

theorem setCopies_beyond {cluster value left copy : Nat}
    (beyond : ¬Reaches fat disk (entryLba fat cluster copy)) :
    fatSetCopies Faults.none fat cluster value (left + 1) copy disk = (false, disk) := by
  have lba : fat.fatStartLba + cluster * 2 / 512 + copy * fat.sectorsPerFat =
      entryLba fat cluster copy := rfl
  rw [fatSetCopies, lba, read_none beyond]

end Fat

end Trinux
