import Trinux.Lib.Bytes

namespace Trinux

open Bytes

/-!
# The sector interface of the disk driver

Everything above the driver moves whole sectors through `ata_read_sectors` and
`ata_write_sectors`.  The model keeps the interface: a medium of bytes, its
number of sectors, and for each call the sectors that fail.

`ataReadSectors` and `ataWriteSectors` are the commands that `ata.c` gives to an
IDE drive.  Which driver answers is visible above the interface: AHCI moves 64
sectors of a command at most and reports success for the rest.  A `Transport`
says which of them it is; the file systems use IDE, or commands of at most 64
sectors, for which both are the same.

A read command fails if one of its sectors does.  A write command transfers its
sectors in order and stops at the first failure; what the failed sector then
holds is not specified by the driver and is part of the fault.  Sectors outside
the medium always fail.
-/

def ataSectorSize : Nat := 512

structure Disk where
  present : Bool
  total : UInt32
  bytes : Nat → UInt8

structure Faults where
  read : Nat → Bool
  write : Nat → Option (Nat → UInt8)

def Faults.none : Faults where
  read := fun _ => false
  write := fun _ => Option.none

namespace Disk

def setSector (disk : Disk) (lba : Nat) (bytes : List UInt8) : Disk :=
  { disk with bytes := overwrite disk.bytes (lba * ataSectorSize) bytes }

@[simp] theorem setSector_present (disk : Disk) (lba : Nat) (bytes : List UInt8) :
    (disk.setSector lba bytes).present = disk.present := rfl

@[simp] theorem setSector_total (disk : Disk) (lba : Nat) (bytes : List UInt8) :
    (disk.setSector lba bytes).total = disk.total := rfl

/-- A full sector followed by what starts at the next sector. -/
theorem setSector_append (disk : Disk) (lba : Nat) (front back : List UInt8)
    (full : front.length = ataSectorSize) :
    (disk.setSector lba front).setSector (lba + 1) back = disk.setSector lba (front ++ back) := by
  have next : (lba + 1) * ataSectorSize = lba * ataSectorSize + front.length := by
    rw [full, Nat.add_mul, Nat.one_mul]
  rw [setSector, setSector, setSector, next, overwrite_append]

def sectors (disk : Disk) (lba count : Nat) : List UInt8 :=
  window disk.bytes (lba * ataSectorSize) (count * ataSectorSize)

@[simp] theorem sectors_length (disk : Disk) (lba count : Nat) :
    (disk.sectors lba count).length = count * ataSectorSize := by
  rw [sectors, window_length]

theorem sectors_add (disk : Disk) (lba first second : Nat) :
    disk.sectors lba (first + second) =
      disk.sectors lba first ++ disk.sectors (lba + first) second := by
  rw [sectors, sectors, sectors, Nat.add_mul, Nat.add_mul, window_add]

/-- Media that agree on consecutive sectors have the same bytes there. -/
theorem sectors_congr {first second : Disk} {lba count : Nat}
    (agree : ∀ position, lba * ataSectorSize ≤ position →
      position < (lba + count) * ataSectorSize → first.bytes position = second.bytes position) :
    first.sectors lba count = second.sectors lba count := by
  apply window_congr
  intro position low high
  rw [← Nat.add_mul] at high
  exact agree position low high

end Disk

def ataReadSectors (faults : Faults) (disk : Disk) (lba count : Nat) : Option (List UInt8) :=
  if disk.present ∧ ∀ sector < count,
      lba + sector < disk.total.toNat ∧ faults.read (lba + sector) = false then
    some (disk.sectors lba count)
  else none

/-- `ata_write_sectors`: whether the command succeeded, and the medium it leaves. -/
def ataWriteSectors (faults : Faults) (lba : Nat) :
    (count : Nat) → (buffer : List UInt8) → Disk → Bool × Disk
  | 0, _, disk => (disk.present, disk)
  | count + 1, buffer, disk =>
      if disk.present ∧ lba < disk.total.toNat then
        match faults.write lba with
        | none =>
            ataWriteSectors faults (lba + 1) count (buffer.drop ataSectorSize)
              (disk.setSector lba (buffer.take ataSectorSize))
        | some left => (false, disk.setSector lba ((List.range ataSectorSize).map left))
      else (false, disk)

/-- The driver behind `ata_read_sectors`: IDE or AHCI, and what the buffer of an AHCI command from a
sector on holds where nothing is moved to. -/
structure Transport where
  ahci : Bool
  stale : (lba index : Nat) → UInt8

def Transport.ide : Transport := ⟨false, fun _ _ => 0⟩

def ahciSectors : Nat := 64

namespace Transport

def read (transport : Transport) (faults : Faults) (disk : Disk) (lba count : Nat) :
    Option (List UInt8) :=
  if transport.ahci = true ∧ ahciSectors < count then
    (ataReadSectors faults disk lba count).map fun bytes =>
      bytes.take (ahciSectors * ataSectorSize) ++
        (List.range ((count - ahciSectors) * ataSectorSize)).map fun index =>
          transport.stale lba (ahciSectors * ataSectorSize + index)
  else ataReadSectors faults disk lba count

def write (transport : Transport) (faults : Faults) (lba count : Nat) (buffer : List UInt8)
    (disk : Disk) : Bool × Disk :=
  if transport.ahci = true ∧ ahciSectors < count then
    ((ataWriteSectors faults lba count buffer disk).1,
      (ataWriteSectors faults lba ahciSectors buffer disk).2)
  else ataWriteSectors faults lba count buffer disk

variable {transport : Transport} {count : Nat}

theorem read_small (small : transport.ahci = true → count ≤ ahciSectors) (faults : Faults)
    (disk : Disk) (lba : Nat) :
    transport.read faults disk lba count = ataReadSectors faults disk lba count := by
  rw [read, if_neg]
  rintro ⟨isAhci, large⟩
  exact Nat.not_le_of_lt large (small isAhci)

theorem write_small (small : transport.ahci = true → count ≤ ahciSectors) (faults : Faults)
    (lba : Nat) (buffer : List UInt8) (disk : Disk) :
    transport.write faults lba count buffer disk =
      ataWriteSectors faults lba count buffer disk := by
  rw [write, if_neg]
  rintro ⟨isAhci, large⟩
  exact Nat.not_le_of_lt large (small isAhci)

theorem read_none (transport : Transport) {faults : Faults} {disk : Disk} {lba : Nat}
    (failed : ataReadSectors faults disk lba count = none) :
    transport.read faults disk lba count = none := by
  rw [read, failed]
  split <;> rfl

end Transport

/-- The callers' loop around `ata_read_sectors`: commands of at most `limit` sectors until all
are read or one command fails. -/
def ataReadLoop (transport : Transport) (faults : Faults) (disk : Disk) (limit : Nat) :
    (fuel lba sectors : Nat) → Option (List UInt8)
  | 0, _, _ => some []
  | fuel + 1, lba, sectors =>
      if sectors = 0 then some []
      else
        (transport.read faults disk lba (min sectors limit)).bind fun front =>
          (ataReadLoop transport faults disk limit fuel (lba + min sectors limit)
            (sectors - min sectors limit)).map fun back => front ++ back

def ataWriteLoop (faults : Faults) (limit : Nat) :
    (fuel lba sectors : Nat) → (buffer : List UInt8) → Disk → Bool × Disk
  | 0, _, _, _, disk => (true, disk)
  | fuel + 1, lba, sectors, buffer, disk =>
      if sectors = 0 then (true, disk)
      else
        match ataWriteSectors faults lba (min sectors limit) buffer disk with
        | (false, left) => (false, left)
        | (true, written) =>
            ataWriteLoop faults limit fuel (lba + min sectors limit)
              (sectors - min sectors limit)
              (buffer.drop (min sectors limit * ataSectorSize)) written

/-! ## Reading -/

theorem ataReadSectors_eq_some {faults : Faults} {disk : Disk} {lba count : Nat}
    {bytes : List UInt8} (read : ataReadSectors faults disk lba count = some bytes) :
    bytes = disk.sectors lba count := by
  rw [ataReadSectors] at read
  split at read
  · exact (Option.some.inj read).symm
  · cases read

/-- Two adjacent commands read what one command over both reads. -/
theorem ataReadSectors_add (faults : Faults) (disk : Disk) (lba first second : Nat) :
    ataReadSectors faults disk lba (first + second) =
      (ataReadSectors faults disk lba first).bind fun front =>
        (ataReadSectors faults disk (lba + first) second).map fun back => front ++ back := by
  unfold ataReadSectors
  by_cases front : disk.present ∧ ∀ sector < first,
      lba + sector < disk.total.toNat ∧ faults.read (lba + sector) = false
  · by_cases back : disk.present ∧ ∀ sector < second,
        lba + first + sector < disk.total.toNat ∧ faults.read (lba + first + sector) = false
    · rw [if_pos front, if_pos back, if_pos, Option.bind_some, Option.map_some,
        Disk.sectors_add]
      refine ⟨front.1, fun sector inside => ?_⟩
      by_cases low : sector < first
      · exact front.2 sector low
      · have := back.2 (sector - first) (by omega)
        rwa [Nat.add_assoc, Nat.add_sub_cancel' (by omega)] at this
    · rw [if_pos front, if_neg back, if_neg, Option.bind_some, Option.map_none]
      intro whole
      refine back ⟨whole.1, fun sector inside => ?_⟩
      rw [Nat.add_assoc]
      exact whole.2 (first + sector) (by omega)
  · rw [if_neg front, if_neg, Option.bind_none]
    intro whole
    exact front ⟨whole.1, fun sector inside => whole.2 sector (by omega)⟩

/-- Without faults every command inside the medium succeeds. -/
theorem ataReadSectors_of_readable {faults : Faults} {disk : Disk} {lba count : Nat}
    (present : disk.present = true) (inside : lba + count ≤ disk.total.toNat)
    (readable : ∀ sector, faults.read sector = false) :
    ataReadSectors faults disk lba count = some (disk.sectors lba count) := by
  rw [ataReadSectors, if_pos]
  exact ⟨present, fun sector below => ⟨by omega, readable _⟩⟩

/-- Splitting a read into commands does not change what is read. -/
theorem ataReadLoop_eq {transport : Transport} (faults : Faults) (disk : Disk)
    (limit fuel lba sectors : Nat) (enough : sectors ≤ fuel) (positive : 0 < limit)
    (some_ : 0 < sectors) (small : transport.ahci = true → sectors ≤ ahciSectors) :
    ataReadLoop transport faults disk limit fuel lba sectors =
      ataReadSectors faults disk lba sectors := by
  induction fuel generalizing lba sectors with
  | zero => omega
  | succ fuel known =>
      rw [ataReadLoop, if_neg (by omega), Transport.read_small fun isAhci =>
        Nat.le_trans (Nat.min_le_left _ _) (small isAhci)]
      by_cases last : sectors ≤ limit
      · rw [Nat.min_eq_left last, Nat.sub_self]
        cases read : ataReadSectors faults disk lba sectors with
        | none => rfl
        | some bytes => cases fuel <;> simp [ataReadLoop]
      · rw [Nat.min_eq_right (by omega), known _ _ (by omega) (by omega)
            (fun isAhci => Nat.le_trans (Nat.sub_le _ _) (small isAhci)),
          ← ataReadSectors_add, Nat.add_sub_cancel' (by omega)]

/-! ## Writing -/

@[simp] theorem ataWriteSectors_present (faults : Faults) (lba count : Nat)
    (buffer : List UInt8) (disk : Disk) :
    (ataWriteSectors faults lba count buffer disk).2.present = disk.present := by
  induction count generalizing lba buffer disk with
  | zero => rfl
  | succ count inductive_ =>
      rw [ataWriteSectors]
      split
      · split
        · rw [inductive_, Disk.setSector_present]
        · rfl
      · rfl

@[simp] theorem ataWriteSectors_total (faults : Faults) (lba count : Nat)
    (buffer : List UInt8) (disk : Disk) :
    (ataWriteSectors faults lba count buffer disk).2.total = disk.total := by
  induction count generalizing lba buffer disk with
  | zero => rfl
  | succ count inductive_ =>
      rw [ataWriteSectors]
      split
      · split
        · rw [inductive_, Disk.setSector_total]
        · rfl
      · rfl

theorem ataWriteSectors_outside (faults : Faults) (lba count : Nat) (buffer : List UInt8)
    (disk : Disk) (position : Nat)
    (outside : position < lba * ataSectorSize ∨ (lba + count) * ataSectorSize ≤ position) :
    (ataWriteSectors faults lba count buffer disk).2.bytes position = disk.bytes position := by
  induction count generalizing lba buffer disk with
  | zero => rfl
  | succ count inductive_ =>
      have elsewhere : ∀ bytes : List UInt8, bytes.length ≤ ataSectorSize →
          (disk.setSector lba bytes).bytes position = disk.bytes position := by
        intro bytes short
        apply overwrite_outside
        simp only [ataSectorSize] at outside short ⊢
        omega
      rw [ataWriteSectors]
      split
      · split
        · by_cases inSector : position < (lba + 1) * ataSectorSize
          · rw [inductive_ _ _ _ (Or.inl inSector), elsewhere _ (by simp)]
          · rw [inductive_ _ _ _ (Or.inr (by simp only [ataSectorSize] at *; omega)),
              elsewhere _ (by simp)]
        · exact elsewhere _ (by simp)
      · rfl

theorem sector_rest {buffer : List UInt8} {count : Nat}
    (length : buffer.length = (count + 1) * ataSectorSize) :
    (buffer.take ataSectorSize).length = ataSectorSize ∧
      (buffer.drop ataSectorSize).length = count * ataSectorSize := by
  rw [Nat.add_mul, Nat.one_mul] at length
  rw [List.length_take, List.length_drop, length]
  omega

theorem ataWriteSectors_bytes (faults : Faults) (lba count : Nat) (buffer : List UInt8)
    (disk : Disk) (length : buffer.length = count * ataSectorSize)
    (written : (ataWriteSectors faults lba count buffer disk).1 = true) :
    (ataWriteSectors faults lba count buffer disk).2 =
      disk.setSector lba buffer := by
  induction count generalizing lba buffer disk with
  | zero =>
      have empty : buffer = [] := List.eq_nil_of_length_eq_zero (by omega)
      rw [empty, Disk.setSector, overwrite_nil]
      rfl
  | succ count inductive_ =>
      rcases sector_rest length with ⟨sector, rest⟩
      rw [ataWriteSectors] at written ⊢
      split at written <;> rename_i reachable
      · rw [if_pos reachable]
        split at written <;> rename_i writes
        · rw [inductive_ _ _ _ rest written]
          rw [Disk.setSector_append _ _ _ _ sector, List.take_append_drop]
        · cases written
      · cases written

/-- Two adjacent commands, the second issued only after the first succeeded, do what one
command over both does. -/
theorem ataWriteSectors_add (faults : Faults) (lba first second : Nat) (buffer : List UInt8)
    (disk : Disk) :
    ataWriteSectors faults lba (first + second) buffer disk =
      if (ataWriteSectors faults lba first buffer disk).1 then
        ataWriteSectors faults (lba + first) second (buffer.drop (first * ataSectorSize))
          (ataWriteSectors faults lba first buffer disk).2
      else ataWriteSectors faults lba first buffer disk := by
  induction first generalizing lba buffer disk with
  | zero =>
      rw [Nat.zero_add, Nat.zero_mul, List.drop_zero, Nat.add_zero, ataWriteSectors]
      by_cases present : disk.present = true
      · rw [if_pos present]
      · rw [if_neg present]
        cases second with
        | zero => rfl
        | succ second => rw [ataWriteSectors, if_neg (by simp [present]), Bool.eq_false_iff.mpr present]
  | succ first inductive_ =>
      rw [Nat.add_right_comm, ataWriteSectors, ataWriteSectors]
      split
      · split
        · rw [inductive_, List.drop_drop, Nat.add_right_comm lba, Nat.add_assoc lba]
          congr 3
          rw [Nat.add_mul, Nat.one_mul, Nat.add_comm]
        · rfl
      · rfl

/-- Splitting a write into commands does not change what is written. -/
theorem ataWriteLoop_eq (faults : Faults) (limit fuel lba sectors : Nat) (buffer : List UInt8)
    (disk : Disk) (enough : sectors ≤ fuel) (positive : 0 < limit)
    (present : disk.present = true) :
    ataWriteLoop faults limit fuel lba sectors buffer disk =
      ataWriteSectors faults lba sectors buffer disk := by
  induction fuel generalizing lba sectors buffer disk with
  | zero =>
      have empty : sectors = 0 := by omega
      rw [empty, ataWriteLoop, ataWriteSectors, present]
  | succ fuel known =>
      rw [ataWriteLoop]
      by_cases empty : sectors = 0
      · rw [if_pos empty, empty, ataWriteSectors, present]
      · have whole := ataWriteSectors_add faults lba (min sectors limit)
          (sectors - min sectors limit) buffer disk
        rw [Nat.add_sub_cancel' (Nat.min_le_left _ _)] at whole
        rw [if_neg empty, whole]
        have stillPresent := ataWriteSectors_present faults lba (min sectors limit) buffer disk
        cases outcome : ataWriteSectors faults lba (min sectors limit) buffer disk with
        | mk succeeded left =>
            rw [outcome] at stillPresent
            cases succeeded with
            | false => rfl
            | true => exact known _ _ _ _ (by omega) (stillPresent.trans present)

/-- A command that fails stopped at one sector: those before it hold the buffer, and nothing
behind it changed. -/
theorem ataWriteSectors_failed (faults : Faults) (lba count : Nat) (buffer : List UInt8)
    (disk : Disk) (present : disk.present = true) (inside : lba + count ≤ disk.total.toNat)
    (length : buffer.length = count * ataSectorSize)
    (failed : (ataWriteSectors faults lba count buffer disk).1 = false) :
    ∃ done left, done < count ∧ faults.write (lba + done) = some left ∧
      (ataWriteSectors faults lba count buffer disk).2 =
        (disk.setSector lba (buffer.take (done * ataSectorSize))).setSector (lba + done)
          ((List.range ataSectorSize).map left) := by
  induction count generalizing lba buffer disk with
  | zero =>
      rw [ataWriteSectors, present] at failed
      cases failed
  | succ count inductive_ =>
      rcases sector_rest length with ⟨sector, rest⟩
      rw [ataWriteSectors, if_pos ⟨present, by omega⟩] at failed ⊢
      split at failed <;> rename_i writes
      · obtain ⟨done, left, below, fault, found⟩ := inductive_ (lba + 1)
          (buffer.drop ataSectorSize) (disk.setSector lba (buffer.take ataSectorSize)) present
          (by simpa using by omega) rest failed
        refine ⟨done + 1, left, by omega, by rwa [← Nat.add_assoc, Nat.add_right_comm], ?_⟩
        have split : buffer.take ((done + 1) * ataSectorSize) =
            buffer.take ataSectorSize ++
              (buffer.drop ataSectorSize).take (done * ataSectorSize) := by
          rw [Nat.add_mul, Nat.one_mul, Nat.add_comm, List.take_add]
        rw [found, Disk.setSector_append _ _ _ _ sector, split, Nat.add_assoc, Nat.add_comm 1]
      · refine ⟨0, _, by omega, by rwa [Nat.add_zero], ?_⟩
        simp [Disk.setSector]

/-! ## Which sectors change -/

structure Disk.ChangedOnly (sectors : Nat → Prop) (before after : Disk) : Prop where
  present : after.present = before.present
  total : after.total = before.total
  bytes : ∀ position, ¬sectors (position / ataSectorSize) →
    after.bytes position = before.bytes position

namespace Disk

variable {sectors other : Nat → Prop} {first second third : Disk}

theorem ChangedOnly.refl (sectors : Nat → Prop) (disk : Disk) :
    ChangedOnly sectors disk disk :=
  ⟨rfl, rfl, fun _ _ => rfl⟩

theorem ChangedOnly.trans (before : ChangedOnly sectors first second)
    (after : ChangedOnly sectors second third) : ChangedOnly sectors first third :=
  ⟨after.present.trans before.present, after.total.trans before.total,
    fun position outside => (after.bytes position outside).trans (before.bytes position outside)⟩

theorem ChangedOnly.mono (changed : ChangedOnly sectors first second)
    (within : ∀ lba, sectors lba → other lba) : ChangedOnly other first second :=
  ⟨changed.present, changed.total,
    fun position outside => changed.bytes position fun inside => outside (within _ inside)⟩

end Disk

theorem ataWriteSectors_changedOnly (faults : Faults) (lba count : Nat) (buffer : List UInt8)
    (disk : Disk) :
    Disk.ChangedOnly (fun sector => lba ≤ sector ∧ sector < lba + count) disk
      (ataWriteSectors faults lba count buffer disk).2 := by
  refine ⟨ataWriteSectors_present _ _ _ _ _, ataWriteSectors_total _ _ _ _ _,
    fun position outside => ataWriteSectors_outside _ _ _ _ _ _ ?_⟩
  by_contra inside
  rw [not_or, Nat.not_lt, Nat.not_le] at inside
  refine outside ⟨?_, ?_⟩
  · rw [Nat.le_div_iff_mul_le (by decide)]
    exact inside.1
  · rw [Nat.div_lt_iff_lt_mul (by decide)]
    exact inside.2

end Trinux
