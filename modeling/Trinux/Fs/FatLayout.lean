import Trinux.Fs.Vfs

namespace Trinux

open Bytes

/-!
# The layout of a FAT volume

`fat16_init` computes the layout of a volume from fields of its boot sector, of which it tests the
size of a sector only.  The layout is sound exactly for the boot sectors whose fields also meet
the conditions that are collected here.
-/

/-! ## The fields of a boot sector -/

def bootSectorsPerCluster (sector : List UInt8) : Nat := byteAt sector 13

def bootRootEntries (sector : List UInt8) : Nat := readU16 sector 17

/-- The first data sector: the reserved sectors, the copies of the table and the root directory
are in front of it. -/
def bootDataStart (sector : List UInt8) : Nat :=
  readU16 sector 14 + byteAt sector 16 * readU16 sector 22 + (bootRootEntries sector * 32 + 511) / 512

def bootTotalSectors (sector : List UInt8) : Nat :=
  if readU16 sector 19 ≠ 0 then readU16 sector 19 else (readU32 sector 32).toNat

theorem byteAt_lt (bytes : List UInt8) (index : Nat) : byteAt bytes index < 256 :=
  UInt8.toNat_lt _

theorem readU16_lt (bytes : List UInt8) (offset : Nat) : readU16 bytes offset < 65536 := by
  have low := byteAt_lt bytes offset
  have high := byteAt_lt bytes (offset + 1)
  unfold readU16
  omega

theorem bootDataStart_lt (sector : List UInt8) : bootDataStart sector < 2 ^ 25 := by
  have reserved := readU16_lt sector 14
  have copies : byteAt sector 16 * readU16 sector 22 ≤ 255 * 65535 := by
    apply Nat.mul_le_mul
    · exact Nat.le_of_lt_succ (byteAt_lt sector 16)
    · exact Nat.le_of_lt_succ (readU16_lt sector 22)
  have entries := readU16_lt sector 17
  unfold bootDataStart bootRootEntries
  omega

theorem bootTotalSectors_lt (sector : List UInt8) : bootTotalSectors sector < 2 ^ 32 := by
  unfold bootTotalSectors
  split_ifs
  · exact (readU16_lt sector 19).trans (by decide)
  · exact UInt32.toNat_lt _

theorem fatLayout_eq (partitionLba : Nat) {sector : List UInt8}
    (positive : bootSectorsPerCluster sector ≠ 0) :
    ∃ fat, fatLayout partitionLba sector = some fat ∧
      fat.sectorsPerCluster = bootSectorsPerCluster sector ∧
      fat.dataStartLba = bootDataStart sector ∧ fat.rootDirEntries = bootRootEntries sector ∧
      fat.rootDirSectors = (bootRootEntries sector * 32 + 511) / 512 := by
  have positive' : ¬byteAt sector 13 = 0 := positive
  unfold fatLayout
  dsimp only
  rw [if_neg positive']
  exact ⟨_, rfl, rfl, rfl, rfl, rfl⟩

/-! ## What is computed from a layout -/

def FatVolume.readClusterSize (fat : FatVolume) : Nat := fat.sectorsPerCluster * 512

def FatVolume.writeClusterSize (fat : FatVolume) : Nat := fat.sectorsPerCluster * 512 % 2 ^ 16

/-- The cluster numbers that the loops of `fat16_node_read` and `fat16_read_dir` accept. -/
def readAccepts (cluster : Nat) : Prop := 2 ≤ cluster ∧ cluster < 0xFFF8

/-- The cluster numbers that `fat16_node_write` accepts: as the first one of a file, or as the
next one of a chain. -/
def writeAccepts (cluster : Nat) : Prop := (2 ≤ cluster ∧ cluster < 2 ^ 16) ∨ cluster < 0xFFF8

/-- The layout that a boot sector gives is defined and consistent: nothing is divided by zero,
the sizes of a cluster are the same and positive, the data is inside of the volume, the array for
the root directory holds the sectors that are read, and every cluster number that is accepted is
one of sectors of the volume. -/
structure SoundLayout (sector : List UInt8) (fat : FatVolume) : Prop where
  reads : 0 < fat.readClusterSize
  writes : 0 < fat.writeClusterSize
  same : fat.readClusterSize = fat.sectorsPerCluster * 512 ∧
    fat.writeClusterSize = fat.sectorsPerCluster * 512
  data : fat.dataStartLba ≤ bootTotalSectors sector
  root : fat.rootDirSectors * 512 ≤ fat.rootDirEntries * 32
  clusters : ∀ cluster, readAccepts cluster ∨ writeAccepts cluster →
    fatClusterLba fat cluster + fat.sectorsPerCluster ≤ bootTotalSectors sector

/-- The conditions on the fields: at most 127 sectors for a cluster, whole sectors for the root
directory, two clusters in front of the data and one behind them for each of the other numbers. -/
structure SoundFields (sector : List UInt8) : Prop where
  positive : 0 < bootSectorsPerCluster sector
  small : bootSectorsPerCluster sector < 128
  entries : 16 ∣ bootRootEntries sector
  front : 2 * bootSectorsPerCluster sector ≤ bootDataStart sector
  behind : bootDataStart sector + 65534 * bootSectorsPerCluster sector ≤ bootTotalSectors sector

theorem fatClusterLba_data {fat : FatVolume} {cluster : Nat} (data : 2 ≤ cluster)
    (small : fat.dataStartLba + (cluster - 2) * fat.sectorsPerCluster < 2 ^ 32)
    (short : cluster < 2 ^ 16) :
    fatClusterLba fat cluster = fat.dataStartLba + (cluster - 2) * fat.sectorsPerCluster := by
  have number : u32 (cluster + 2 ^ 32 - 2) = cluster - 2 := by
    unfold u32
    omega
  unfold fatClusterLba
  rw [number, u32_of_small small]

/-- The clusters zero and one, where they are in front of the data. -/
theorem fatClusterLba_front {fat : FatVolume} {cluster : Nat} (low : cluster < 2)
    (small : fat.dataStartLba < 2 ^ 32) (room : 2 * fat.sectorsPerCluster ≤ fat.dataStartLba) :
    fatClusterLba fat cluster = fat.dataStartLba - (2 - cluster) * fat.sectorsPerCluster := by
  unfold fatClusterLba u32
  rcases Nat.le_one_iff_eq_zero_or_eq_one.mp (Nat.le_of_lt_succ low) with rfl | rfl <;> omega

/-- The layout of a boot sector is sound exactly if its fields are. -/
theorem fatLayout_sound_iff (partitionLba : Nat) (sector : List UInt8) :
    (∃ fat, fatLayout partitionLba sector = some fat ∧ SoundLayout sector fat) ↔
      SoundFields sector := by
  have early := bootDataStart_lt sector
  have bounded := bootTotalSectors_lt sector
  have byte : bootSectorsPerCluster sector < 256 := byteAt_lt sector 13
  constructor
  · rintro ⟨fat, laid, sound⟩
    have positive : bootSectorsPerCluster sector ≠ 0 := by
      intro zero
      have zero' : byteAt sector 13 = 0 := zero
      unfold fatLayout at laid
      dsimp only at laid
      rw [if_pos zero'] at laid
      cases laid
    rcases fatLayout_eq partitionLba positive with ⟨fat', laid', per, start, entries, rootSectors⟩
    rw [laid] at laid'
    cases laid'
    have sizes := sound.same.2
    have writes := sound.writes
    unfold FatVolume.writeClusterSize at sizes writes
    have root := sound.root
    have last := sound.clusters 65535 (Or.inr (Or.inl (by decide)))
    have zeroth := sound.clusters 0 (Or.inr (Or.inr (by decide)))
    have first := sound.clusters 1 (Or.inr (Or.inr (by decide)))
    rw [per] at sizes writes
    rw [rootSectors, entries] at root
    rw [fatClusterLba_data (by decide) (by rw [start, per]; omega) (by decide), start, per] at last
    unfold fatClusterLba u32 at zeroth first
    rw [start, per] at zeroth first
    constructor
    · omega
    · omega
    · omega
    · omega
    · omega
  · intro sound
    have positive := sound.positive
    have small := sound.small
    have front := sound.front
    have behind := sound.behind
    rcases fatLayout_eq partitionLba (Nat.pos_iff_ne_zero.mp positive) with
      ⟨fat, laid, per, start, entries, rootSectors⟩
    refine ⟨fat, laid, ?_⟩
    constructor
    · unfold FatVolume.readClusterSize
      omega
    · unfold FatVolume.writeClusterSize
      omega
    · unfold FatVolume.readClusterSize FatVolume.writeClusterSize
      omega
    · rw [start]
      omega
    · rw [rootSectors, entries]
      have whole := sound.entries
      omega
    · intro cluster accepted
      have short : cluster < 2 ^ 16 := by
        unfold readAccepts writeAccepts at accepted
        omega
      by_cases data : 2 ≤ cluster
      · have most : (cluster - 2) * bootSectorsPerCluster sector ≤
            65533 * bootSectorsPerCluster sector := Nat.mul_le_mul_right _ (by omega)
        rw [fatClusterLba_data data (by rw [start, per]; omega) short, start, per]
        omega
      · rw [fatClusterLba_front (by omega) (by rw [start]; omega) (by rw [start, per]; exact front),
          start, per]
        have less : (2 - cluster) * bootSectorsPerCluster sector ≥ bootSectorsPerCluster sector :=
          Nat.le_mul_of_pos_left _ (by omega)
        omega

/-- A boot sector that is empty but for the size of a sector, which is all that is tested. -/
def emptyBoot : List UInt8 := List.replicate 11 0 ++ le16 512 ++ List.replicate 499 0

theorem emptyBoot_unsound : readU16 emptyBoot 11 = 512 ∧
    ¬∃ fat, fatLayout 0 emptyBoot = some fat ∧ SoundLayout emptyBoot fat := by
  refine ⟨by decide, ?_⟩
  rintro ⟨fat, laid, -⟩
  have none_ : fatLayout 0 emptyBoot = none := by decide
  rw [none_] at laid
  cases laid

end Trinux
