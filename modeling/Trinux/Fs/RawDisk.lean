import Trinux.Fs.Devfs
import Trinux.Fs.FatTable
import Mathlib.Tactic.SplitIfs

namespace Trinux

open Bytes

/-!
# The raw disk by bytes

A transfer of `sda_read` or `sda_write` is a run of commands and partial sectors.  As long as its
position stays below 4 GiB it moves adjacent bytes, whichever way the bytes go.  The end of a range
and the size of the disk are computed in 32 bits, which is right for disks of less than 4 GiB and
ranges that end below it; otherwise it depends on where the commands of 255 sectors fall.
-/

namespace RawDisk

/-! ## Statements -/

def diskOf (total : UInt32) (bytes : Nat → UInt8) : Disk := ⟨true, total, bytes⟩

def onDisk (sectors off len : Nat) : Nat := min (off + len) (sectors * 512) - off

/-- On a disk without faults, whatever its bytes are and whatever is left in the buffers of AHCI, a
range is read as the bytes of it that lie on the disk, and written by changing exactly these. -/
def SdaRight (ahci : Bool) (total off len : UInt32) : Prop :=
  ∀ (stale : Nat → Nat → UInt8) (bytes : Nat → UInt8) (buffer : List UInt8),
    buffer.length = len.toNat →
      let moved := onDisk total.toNat off.toNat len.toNat
      sdaRead ⟨ahci, stale⟩ Faults.none (diskOf total bytes) off.toNat len.toNat =
          window bytes off.toNat moved ∧
        sdaWrite ⟨ahci, stale⟩ Faults.none off.toNat buffer (diskOf total bytes) =
          (moved, diskOf total (overwrite bytes off.toNat (buffer.take moved)))

def firstSector (off : Nat) : Nat := (off + 511) / 512

def wrapSector : Nat := 8388608

def reach (off : Nat) : Nat :=
  firstSector off + 255 * ((wrapSector - firstSector off + 254) / 255)

/-- The ranges that are computed right: nothing of them is on the disk; or the disk is smaller than
4 GiB, and the range ends below 4 GiB or the disk ends with a full command; or the disk is larger,
and the range lies in what remains of its size in 32 bits, or begins there, ends at or behind 4 GiB
with a sector of the disk, and the command over the boundary is its last. -/
def SdaPlain (sectors off len : Nat) : Prop :=
  len = 0 ∨ sectors * 512 ≤ off ∨
    (sectors * 512 < 2 ^ 32 ∧ (off + len < 2 ^ 32 ∨ (sectors - firstSector off) % 255 = 0)) ∨
    (2 ^ 32 ≤ sectors * 512 ∧ off < sectors * 512 % 2 ^ 32 ∧
      (off + len ≤ sectors * 512 % 2 ^ 32 ∨
        (2 ^ 32 ≤ off + len ∧ off + len ≤ sectors * 512 ∧ (off + len) % 512 = 0 ∧
          (off + len) / 512 ≤ reach off)))

/-- The whole sectors of a transfer of so many bytes fit into one command of AHCI. -/
def Short (off moved : Nat) : Prop := (off + moved) / 512 ≤ firstSector off + ahciSectors

/-! ## Runs -/

/-- A transfer at a position, with so much left to do, moves so many adjacent bytes: it is done, or
stops at the end of the disk, or makes a command or a part of a sector, and goes on below 4 GiB. -/
inductive Runs (total : Nat) : Nat → Nat → Nat → Prop where
  | done (position) : Runs total position 0 0
  | outside (position left) (some' : 0 < left) (behind : total ≤ position / 512) :
      Runs total position left 0
  | command (position left nsec moved) (aligned : position % 512 = 0) (full : 512 ≤ left)
      (count : nsec = min (left / 512) 255) (inside : position / 512 + nsec ≤ total)
      (next : position + nsec * 512 < 2 ^ 32 ∨ left = nsec * 512)
      (rest : Runs total (position + nsec * 512) (left - nsec * 512) moved) :
      Runs total position left (nsec * 512 + moved)
  | part (position left chunk moved) (split : ¬ (position % 512 = 0 ∧ 512 ≤ left))
      (some' : 0 < left) (count : chunk = min (512 - position % 512) left)
      (inside : position / 512 < total)
      (next : position + chunk < 2 ^ 32 ∨ left = chunk)
      (rest : Runs total (position + chunk) (left - chunk) moved) :
      Runs total position left (chunk + moved)

variable {total : UInt32} {bytes : Nat → UInt8} {transport : Transport}

theorem readSectors_inside {lba count : Nat} (inside : lba + count ≤ total.toNat) :
    ataReadSectors Faults.none (diskOf total bytes) lba count =
      some (window bytes (lba * 512) (count * 512)) :=
  ataReadSectors_of_readable rfl inside fun _ => rfl

theorem readSectors_outside {lba count : Nat} (outside : total.toNat < lba + count)
    (some' : 0 < count) : ataReadSectors Faults.none (diskOf total bytes) lba count = none := by
  rw [ataReadSectors, if_neg]
  intro all
  have last := (all.2 (count - 1) (by omega)).1
  change lba + (count - 1) < total.toNat at last
  omega

theorem one_short : transport.ahci = true → 1 ≤ ahciSectors := fun _ => by decide

theorem readLoop_nothing (fuel position : Nat) :
    sdaReadLoop transport Faults.none (diskOf total bytes) fuel position 0 = [] := by
  cases fuel with
  | zero => rfl
  | succ fuel => rw [sdaReadLoop, if_pos rfl]

theorem readLoop_command {fuel position left : Nat} (aligned : position % 512 = 0)
    (full : 512 ≤ left) (inside : position / 512 + min (left / 512) 255 ≤ total.toNat)
    (short : transport.ahci = true → min (left / 512) 255 ≤ ahciSectors) :
    sdaReadLoop transport Faults.none (diskOf total bytes) (fuel + 1) position left =
      window bytes position (min (left / 512) 255 * 512) ++
        sdaReadLoop transport Faults.none (diskOf total bytes) fuel
          (u32 (position + min (left / 512) 255 * 512)) (left - min (left / 512) 255 * 512) := by
  have start : position / 512 * 512 = position := by omega
  rw [sdaReadLoop, if_neg (by omega), if_pos (by exact ⟨aligned, full⟩)]
  dsimp only [ataSectorSize]
  rw [Transport.read_small short, readSectors_inside inside, start]

theorem readLoop_command_outside {fuel position left : Nat} (aligned : position % 512 = 0)
    (full : 512 ≤ left) (outside : total.toNat < position / 512 + min (left / 512) 255) :
    sdaReadLoop transport Faults.none (diskOf total bytes) (fuel + 1) position left = [] := by
  rw [sdaReadLoop, if_neg (by omega), if_pos (by exact ⟨aligned, full⟩)]
  dsimp only [ataSectorSize]
  rw [transport.read_none (readSectors_outside outside (by omega))]

theorem readLoop_part {fuel position left : Nat} (split : ¬ (position % 512 = 0 ∧ 512 ≤ left))
    (some' : 0 < left) (inside : position / 512 < total.toNat) :
    sdaReadLoop transport Faults.none (diskOf total bytes) (fuel + 1) position left =
      window bytes position (min (512 - position % 512) left) ++
        sdaReadLoop transport Faults.none (diskOf total bytes) fuel
          (u32 (position + min (512 - position % 512) left))
          (left - min (512 - position % 512) left) := by
  have start : position / 512 * 512 + position % 512 = position := by omega
  rw [sdaReadLoop, if_neg (by omega), if_neg (by exact split)]
  dsimp only [ataSectorSize]
  rw [Transport.read_small one_short, readSectors_inside (by omega)]
  dsimp only
  rw [Nat.one_mul, slice_window _ _ (by omega), start]

theorem readLoop_part_outside {fuel position left : Nat}
    (split : ¬ (position % 512 = 0 ∧ 512 ≤ left)) (some' : 0 < left)
    (outside : total.toNat ≤ position / 512) :
    sdaReadLoop transport Faults.none (diskOf total bytes) (fuel + 1) position left = [] := by
  rw [sdaReadLoop, if_neg (by omega), if_neg (by exact split)]
  dsimp only [ataSectorSize]
  rw [transport.read_none (readSectors_outside (by omega) (by omega))]

theorem Short.command {position nsec moved : Nat} (aligned : position % 512 = 0)
    (short : Short position (nsec * 512 + moved)) :
    nsec ≤ ahciSectors ∧ Short (position + nsec * 512) moved := by
  unfold Short firstSector at short ⊢
  omega

theorem Short.part {position chunk moved : Nat} (short : Short position (chunk + moved)) :
    Short (position + chunk) moved := by
  unfold Short firstSector at short ⊢
  omega

theorem Runs.read {position left moved : Nat} (runs : Runs total.toNat position left moved)
    (short : transport.ahci = true → Short position moved) :
    ∀ fuel, left ≤ fuel →
      sdaReadLoop transport Faults.none (diskOf total bytes) fuel position left =
        window bytes position moved := by
  induction runs with
  | done position =>
      intro fuel _
      exact readLoop_nothing fuel position
  | outside position left some' behind =>
      intro fuel enough
      obtain ⟨fuel, rfl⟩ := Nat.exists_eq_add_of_le' (Nat.lt_of_lt_of_le some' enough)
      by_cases whole : position % 512 = 0 ∧ 512 ≤ left
      · exact readLoop_command_outside whole.1 whole.2 (by omega)
      · exact readLoop_part_outside whole some' behind
  | command position left nsec moved aligned full count inside next rest rest_ih =>
      intro fuel enough
      have some' : 0 < left := by omega
      obtain ⟨fuel, rfl⟩ := Nat.exists_eq_add_of_le' (Nat.lt_of_lt_of_le some' enough)
      subst count
      rw [readLoop_command aligned full inside fun isAhci =>
        ((short isAhci).command aligned).1, window_add]
      congr 1
      have rest_ih := rest_ih fun isAhci => ((short isAhci).command aligned).2
      cases next with
      | inl small =>
          rw [u32_of_small small]
          exact rest_ih fuel (by omega)
      | inr last =>
          have nothing : left - min (left / 512) 255 * 512 = 0 := by omega
          have same := rest_ih fuel (by omega)
          rw [nothing, readLoop_nothing] at same ⊢
          exact same
  | part position left chunk moved split some' count inside next rest rest_ih =>
      intro fuel enough
      obtain ⟨fuel, rfl⟩ := Nat.exists_eq_add_of_le' (Nat.lt_of_lt_of_le some' enough)
      subst count
      rw [readLoop_part split some' inside, window_add]
      congr 1
      have rest_ih := rest_ih fun isAhci => (short isAhci).part
      cases next with
      | inl small =>
          rw [u32_of_small small]
          exact rest_ih fuel (by omega)
      | inr last =>
          have nothing : left - min (512 - position % 512) left = 0 := by omega
          have same := rest_ih fuel (by omega)
          rw [nothing, readLoop_nothing] at same ⊢
          exact same

/-! ## Writing -/

theorem diskOf_setSector (lba : Nat) (new : List UInt8) :
    (diskOf total bytes).setSector lba new = diskOf total (overwrite bytes (lba * 512) new) := rfl

theorem writeSectors_inside {count : Nat} :
    ∀ {lba : Nat} {bytes : Nat → UInt8} {buffer : List UInt8}, lba + count ≤ total.toNat →
      count * 512 ≤ buffer.length →
      ataWriteSectors Faults.none lba count buffer (diskOf total bytes) =
        (true, diskOf total (overwrite bytes (lba * 512) (buffer.take (count * 512)))) := by
  induction count with
  | zero =>
      intro lba bytes buffer inside long
      rw [Nat.zero_mul, List.take_zero, overwrite_nil]
      rfl
  | succ count count_ih =>
      intro lba bytes buffer inside long
      have long' : count * 512 ≤ (buffer.drop 512).length := by
        rw [List.length_drop]
        exact Nat.le_sub_of_add_le (by rwa [Nat.add_mul, Nat.one_mul] at long)
      have first : (buffer.take 512).length = 512 := List.length_take_of_le (by omega)
      have address : (lba + 1) * 512 = lba * 512 + (buffer.take 512).length := by
        rw [first, Nat.add_mul, Nat.one_mul]
      have split : buffer.take ((count + 1) * 512) =
          buffer.take 512 ++ (buffer.drop 512).take (count * 512) := by
        rw [Nat.add_mul, Nat.one_mul, Nat.add_comm, List.take_add]
      have met : (diskOf total bytes).present = true ∧ lba < (diskOf total bytes).total.toNat :=
        ⟨rfl, show lba < total.toNat by omega⟩
      rw [ataWriteSectors, if_pos met]
      dsimp only [Faults.none, ataSectorSize]
      rw [diskOf_setSector]
      have rest := @count_ih (lba + 1) (overwrite bytes (lba * 512) (buffer.take 512))
        (buffer.drop 512) (by omega) long'
      dsimp only [Faults.none] at rest
      rw [rest, address, overwrite_append, split]

theorem writeSectors_outside {lba count : Nat} (outside : total.toNat ≤ lba) (some' : 0 < count)
    (buffer : List UInt8) :
    ataWriteSectors Faults.none lba count buffer (diskOf total bytes) =
      (false, diskOf total bytes) := by
  obtain ⟨count, rfl⟩ := Nat.exists_eq_add_of_le' some'
  rw [ataWriteSectors, if_neg]
  intro met
  have below : lba < total.toNat := met.2
  omega

/-- A command behind the end of the disk fails at its first sector, over AHCI as well. -/
theorem transportWrite_outside {lba count : Nat} (outside : total.toNat ≤ lba)
    (some' : 0 < count) (buffer : List UInt8) :
    transport.write Faults.none lba count buffer (diskOf total bytes) =
      (false, diskOf total bytes) := by
  rw [Transport.write]
  split
  · rw [writeSectors_outside outside some', writeSectors_outside outside (by decide)]
  · exact writeSectors_outside outside some' buffer

theorem writeLoop_nothing (fuel position : Nat) (disk : Disk) :
    sdaWriteLoop transport Faults.none fuel position [] disk = (0, disk) := by
  cases fuel with
  | zero => rfl
  | succ fuel => rw [sdaWriteLoop, if_pos List.length_nil]

/-- Adjacent bytes of a buffer, written one part after the other. -/
theorem overwrite_take (address count moved : Nat) (buffer : List UInt8)
    (long : count ≤ buffer.length) :
    overwrite (overwrite bytes address (buffer.take count)) (address + count)
        ((buffer.drop count).take moved) =
      overwrite bytes address (buffer.take (count + moved)) := by
  have length : (buffer.take count).length = count := List.length_take_of_le long
  have appended := overwrite_append bytes address (buffer.take count)
    ((buffer.drop count).take moved)
  rw [length] at appended
  rw [appended, List.take_add]

theorem Runs.write {position left moved : Nat} (runs : Runs total.toNat position left moved)
    (short : transport.ahci = true → Short position moved) :
    ∀ (fuel : Nat) (bytes : Nat → UInt8) (buffer : List UInt8), left ≤ fuel →
      buffer.length = left →
      sdaWriteLoop transport Faults.none fuel position buffer (diskOf total bytes) =
        (moved, diskOf total (overwrite bytes position (buffer.take moved))) := by
  induction runs with
  | done position =>
      intro fuel bytes buffer _ length
      rw [List.eq_nil_of_length_eq_zero length, writeLoop_nothing, List.take_nil, overwrite_nil]
  | outside position left some' behind =>
      intro fuel bytes buffer enough length
      obtain ⟨fuel, rfl⟩ := Nat.exists_eq_add_of_le' (Nat.lt_of_lt_of_le some' enough)
      rw [List.take_zero, overwrite_nil]
      by_cases whole : position % 512 = 0 ∧ 512 ≤ left
      · rw [sdaWriteLoop, length, if_neg (by omega), if_pos (by exact whole)]
        dsimp only [ataSectorSize]
        rw [transportWrite_outside behind (by omega)]
      · rw [sdaWriteLoop, length, if_neg (by omega), if_neg (by exact whole)]
        dsimp only [ataSectorSize]
        rw [transport.read_none (readSectors_outside (by omega) (by omega))]
  | command position left nsec moved aligned full count inside next rest rest_ih =>
      intro fuel bytes buffer enough length
      have some' : 0 < left := by omega
      obtain ⟨fuel, rfl⟩ := Nat.exists_eq_add_of_le' (Nat.lt_of_lt_of_le some' enough)
      have start : position / 512 * 512 = position := by omega
      have long : nsec * 512 ≤ buffer.length := by omega
      have shorter : (buffer.drop (nsec * 512)).length = left - nsec * 512 := by
        rw [List.length_drop, length]
      rw [sdaWriteLoop, length, if_neg (by omega), if_pos (by exact ⟨aligned, full⟩)]
      dsimp only [ataSectorSize]
      rw [← count, Transport.write_small fun isAhci => ((short isAhci).command aligned).1,
        writeSectors_inside inside long, start]
      dsimp only
      have rest_ih := rest_ih fun isAhci => ((short isAhci).command aligned).2
      have same := rest_ih fuel (overwrite bytes position (buffer.take (nsec * 512)))
        (buffer.drop (nsec * 512)) (by omega) shorter
      rw [overwrite_take _ _ _ _ long] at same
      cases next with
      | inl small => rw [u32_of_small small, same]
      | inr last =>
          have nothing : buffer.drop (nsec * 512) = [] :=
            List.eq_nil_of_length_eq_zero (by omega)
          rw [nothing, writeLoop_nothing] at same ⊢
          rw [same]
  | part position left chunk moved split some' count inside next rest rest_ih =>
      intro fuel bytes buffer enough length
      obtain ⟨fuel, rfl⟩ := Nat.exists_eq_add_of_le' (Nat.lt_of_lt_of_le some' enough)
      have start : position / 512 * 512 + position % 512 = position := by omega
      have long : chunk ≤ buffer.length := by omega
      have shorter : (buffer.drop chunk).length = left - chunk := by
        rw [List.length_drop, length]
      have size : (buffer.take chunk).length = chunk := List.length_take_of_le long
      have sector : overwrite bytes (position / 512 * 512)
          (splice (window bytes (position / 512 * 512) (1 * 512)) (position % 512)
            (buffer.take chunk)) = overwrite bytes position (buffer.take chunk) := by
        have spliced := @Fat.setSector_splice (diskOf total bytes) (position / 512)
          (position % 512) (buffer.take chunk) (by omega)
        rw [start, Fat.sectors_one] at spliced
        exact congrArg Disk.bytes spliced
      have whole : (splice (window bytes (position / 512 * 512) (1 * 512)) (position % 512)
          (buffer.take chunk)).length = 1 * 512 := by
        rw [splice_length, window_length]
        rw [window_length]
        omega
      rw [sdaWriteLoop, length, if_neg (by omega), if_neg (by exact split)]
      dsimp only [ataSectorSize]
      rw [Transport.read_small one_short, readSectors_inside (by omega), ← count]
      dsimp only
      have rest_ih := rest_ih fun isAhci => (short isAhci).part
      rw [Transport.write_small one_short, writeSectors_inside (by omega) (Nat.le_of_eq whole.symm),
        List.take_of_length_le (Nat.le_of_eq whole), sector]
      dsimp only
      have same := rest_ih fuel (overwrite bytes position (buffer.take chunk))
        (buffer.drop chunk) (by omega) shorter
      rw [overwrite_take _ _ _ _ long] at same
      cases next with
      | inl small => rw [u32_of_small small, same]
      | inr last =>
          have nothing : buffer.drop chunk = [] := List.eq_nil_of_length_eq_zero (by omega)
          rw [nothing, writeLoop_nothing] at same ⊢
          rw [same]

/-! ## Runs that move what they should -/

/-- A range below 4 GiB and inside of the disk is moved whole. -/
theorem runs_all (total left : Nat) :
    ∀ position, position + left ≤ total * 512 → position + left ≤ 2 ^ 32 →
      Runs total position left left := by
  induction left using Nat.strong_induction_on with
  | h left shorter =>
      intro position inside small
      by_cases nothing : left = 0
      · rw [nothing]
        exact .done position
      by_cases whole : position % 512 = 0 ∧ 512 ≤ left
      · have count : min (left / 512) 255 * 512 ≤ left := by omega
        have run := Runs.command position left _ _ whole.1 whole.2 rfl (by omega) (by omega)
          (shorter (left - min (left / 512) 255 * 512) (by omega)
            (position + min (left / 512) 255 * 512) (by omega) (by omega))
        rwa [Nat.add_sub_cancel' count] at run
      · have count : min (512 - position % 512) left ≤ left := Nat.min_le_right _ _
        have run := Runs.part position left _ _ whole (by omega) rfl (by omega) (by omega)
          (shorter (left - min (512 - position % 512) left) (by omega)
            (position + min (512 - position % 512) left) (by omega) (by omega))
        rwa [Nat.add_sub_cancel' count] at run

set_option maxRecDepth 2000 in
/-- Full commands to the end of the disk are made although more is asked for. -/
theorem runs_end (total : Nat) (small : total < wrapSector) (commands : Nat) :
    ∀ first left, first + 255 * commands = total → 255 * 512 * commands < left →
      Runs total (first * 512) left (255 * 512 * commands) := by
  induction commands with
  | zero =>
      intro first left last more
      exact .outside (first * 512) left (by omega) (by omega)
  | succ commands commands_ih =>
      intro first left last more
      unfold wrapSector at small
      have full : (255 : Nat) = min (left / 512) 255 := by omega
      have next : (first + 255) * 512 = first * 512 + 255 * 512 := Nat.add_mul _ _ _
      have rest := commands_ih (first + 255) (left - 255 * 512) (by omega) (by omega)
      rw [next] at rest
      have run := Runs.command (first * 512) left 255 _ (by omega) (by omega) full (by omega)
        (by omega) rest
      have moved : 255 * 512 + 255 * 512 * commands = 255 * 512 * (commands + 1) := by omega
      rwa [moved] at run

set_option maxRecDepth 2000 in
/-- Whole sectors whose last command begins below 4 GiB are moved. -/
theorem runs_over (total count : Nat) :
    ∀ first, first < wrapSector → first + count ≤ total →
      count ≤ 255 * ((wrapSector - first + 254) / 255) →
      Runs total (first * 512) (count * 512) (count * 512) := by
  induction count using Nat.strong_induction_on with
  | h count shorter =>
      intro first below inside reached
      unfold wrapSector at below reached
      by_cases nothing : count = 0
      · rw [nothing, Nat.zero_mul]
        exact .done _
      by_cases last : count ≤ 255
      · have run := @Runs.command total (first * 512) (count * 512) count 0 (by omega)
          (by omega) (by omega) (by omega) (Or.inr rfl) (by rw [Nat.sub_self]; exact .done _)
        exact run
      · have next : (first + 255) * 512 = first * 512 + 255 * 512 := Nat.add_mul _ _ _
        have back : (count - 255) * 512 = count * 512 - 255 * 512 := Nat.sub_mul _ _ _
        have rest := shorter (count - 255) (by omega) (first + 255) (by unfold wrapSector; omega)
          (by omega) (by unfold wrapSector; omega)
        rw [next, back] at rest
        have run := Runs.command (first * 512) (count * 512) 255 _ (by omega) (by omega) (by omega)
          (by omega) (Or.inl (by omega)) rest
        have moved : 255 * 512 + (count * 512 - 255 * 512) = count * 512 := by omega
        rwa [moved] at run

/-- A run from the first whole sector of a range on, with the part before. -/
theorem runs_first {total off left moved : Nat} (inside : off / 512 < total)
    (long : (off + 511) / 512 * 512 - off ≤ left) (small : (off + 511) / 512 * 512 < 2 ^ 32)
    (rest : Runs total ((off + 511) / 512 * 512) (left - ((off + 511) / 512 * 512 - off)) moved) :
    Runs total off left ((off + 511) / 512 * 512 - off + moved) := by
  by_cases aligned : off % 512 = 0
  · have same : (off + 511) / 512 * 512 = off := by omega
    rw [same, Nat.sub_self] at rest ⊢
    rwa [Nat.zero_add]
  · have next : (off + 511) / 512 * 512 = off + ((off + 511) / 512 * 512 - off) := by omega
    have chunk : (off + 511) / 512 * 512 - off = min (512 - off % 512) left := by omega
    rw [next, Nat.add_sub_cancel_left] at rest
    exact .part off left _ moved (fun both => aligned both.1) (by omega) chunk inside
      (Or.inl (by omega)) rest

/-! ## What a read delivers otherwise -/

theorem ide_short {count : Nat} : Transport.ide.ahci = true → count ≤ ahciSectors :=
  fun isAhci => absurd isAhci Bool.false_ne_true

theorem readLoop_length (fuel : Nat) :
    ∀ position left, (sdaReadLoop .ide Faults.none (diskOf total bytes) fuel position left).length ≤
      left := by
  induction fuel with
  | zero =>
      intro position left
      exact Nat.zero_le _
  | succ fuel fuel_ih =>
      intro position left
      by_cases nothing : left = 0
      · rw [nothing, readLoop_nothing]
        exact Nat.le_refl _
      by_cases whole : position % 512 = 0 ∧ 512 ≤ left
      · by_cases inside : position / 512 + min (left / 512) 255 ≤ total.toNat
        · rw [readLoop_command whole.1 whole.2 inside ide_short, List.length_append, window_length]
          have rest := fuel_ih (u32 (position + min (left / 512) 255 * 512))
            (left - min (left / 512) 255 * 512)
          omega
        · rw [readLoop_command_outside whole.1 whole.2 (by omega)]
          exact Nat.zero_le _
      · by_cases inside : position / 512 < total.toNat
        · rw [readLoop_part whole (by omega) inside, List.length_append, window_length]
          have rest := fuel_ih (u32 (position + min (512 - position % 512) left))
            (left - min (512 - position % 512) left)
          omega
        · rw [readLoop_part_outside whole (by omega) (by omega)]
          exact Nat.zero_le _

/-- A read that is not at the end of the disk delivers the byte at its position. -/
theorem readLoop_head {fuel position left : Nat} (some' : 0 < left) (enough : left ≤ fuel)
    (inside : position / 512 + 255 ≤ total.toNat) :
    (sdaReadLoop .ide Faults.none (diskOf total bytes) fuel position left)[0]? =
      some (bytes position) := by
  have head : ∀ count, 0 < count → ∀ rest, (window bytes position count ++ rest)[0]? =
      some (bytes position) := by
    intro count positive rest
    have below : 0 < (window bytes position count).length := by
      rw [window_length]
      exact positive
    rw [List.getElem?_append_left below, List.getElem?_eq_getElem below, window_getElem,
      Nat.add_zero]
  obtain ⟨fuel, rfl⟩ := Nat.exists_eq_add_of_le' (Nat.lt_of_lt_of_le some' enough)
  by_cases whole : position % 512 = 0 ∧ 512 ≤ left
  · rw [readLoop_command whole.1 whole.2 (by omega) ide_short]
    exact head _ (by omega) _
  · rw [readLoop_part whole some' (by omega)]
    exact head _ (by omega) _

set_option maxRecDepth 2000 in
/-- A read that asks for more than the disk has stops at the command over its end. -/
theorem readLoop_short (small : total.toNat < wrapSector) (ahead : Nat) :
    ∀ first left fuel, first + ahead = total.toNat → (total.toNat + 1) * 512 ≤ first * 512 + left →
      left ≤ fuel →
      sdaReadLoop .ide Faults.none (diskOf total bytes) fuel (first * 512) left =
        window bytes (first * 512) (255 * 512 * (ahead / 255)) := by
  induction ahead using Nat.strong_induction_on with
  | h ahead shorter =>
      intro first left fuel last more enough
      unfold wrapSector at small
      have some' : 0 < left := by omega
      obtain ⟨fuel, rfl⟩ := Nat.exists_eq_add_of_le' (Nat.lt_of_lt_of_le some' enough)
      by_cases full : 255 ≤ ahead
      · have count : min (left / 512) 255 = 255 := by omega
        have next : first * 512 + 255 * 512 = (first + 255) * 512 := (Nat.add_mul _ _ _).symm
        have moved : 255 * 512 * (ahead / 255) = 255 * 512 + 255 * 512 * ((ahead - 255) / 255) := by
          omega
        rw [readLoop_command (by omega) (by omega) (by omega) ide_short, count, moved, window_add,
          u32_of_small (by omega), next,
          shorter (ahead - 255) (by omega) (first + 255) (left - 255 * 512) fuel (by omega)
            (by omega) (by omega)]
      · have nothing : ahead / 255 = 0 := by omega
        rw [readLoop_command_outside (by omega) (by omega) (by omega), nothing]
        rfl

def above (position : Nat) : UInt8 := if position < 2 ^ 32 then 0 else 1

set_option maxRecDepth 2000 in
/-- A read over 4 GiB is right only if the command over the boundary is its last. -/
theorem reached_of_read (gap : Nat) :
    ∀ first left moved fuel, first + gap = wrapSector → 0 < gap → left ≤ fuel →
      2 ^ 32 ≤ first * 512 + left → 2 ^ 32 ≤ first * 512 + moved →
      sdaReadLoop .ide Faults.none (diskOf total above) fuel (first * 512) left =
        window above (first * 512) moved →
      left % 512 = 0 ∧ left / 512 ≤ 255 * ((gap + 254) / 255) ∧ moved = left := by
  induction gap using Nat.strong_induction_on with
  | h gap shorter =>
      intro first left moved fuel boundary positive enough beyond moves same
      unfold wrapSector at boundary
      have some' : 0 < left := by omega
      obtain ⟨fuel, rfl⟩ := Nat.exists_eq_add_of_le' (Nat.lt_of_lt_of_le some' enough)
      by_cases inside : first * 512 / 512 + min (left / 512) 255 ≤ total.toNat
      · rw [readLoop_command (by omega) (by omega) inside ide_short] at same
        have lengths := congrArg List.length same
        rw [List.length_append, window_length, window_length] at lengths
        by_cases before : first + min (left / 512) 255 < 8388608
        · have count : min (left / 512) 255 = 255 := by omega
          have next : first * 512 + 255 * 512 = (first + 255) * 512 := (Nat.add_mul _ _ _).symm
          have split : moved = 255 * 512 + (moved - 255 * 512) := by omega
          rw [count, u32_of_small (by omega), split, window_add] at same
          have back := List.append_cancel_left same
          rw [next] at back
          have rest := shorter (gap - 255) (by omega) (first + 255) (left - 255 * 512)
            (moved - 255 * 512) fuel (by unfold wrapSector; omega) (by omega) (by omega) (by omega)
            (by omega) back
          omega
        · by_cases last : left - min (left / 512) 255 * 512 = 0
          · rw [last, readLoop_nothing, List.length_nil] at lengths
            omega
          · exfalso
            have position : u32 (first * 512 + min (left / 512) 255 * 512) =
                first * 512 + min (left / 512) 255 * 512 - 2 ^ 32 := by
              unfold u32
              omega
            have head := @readLoop_head total above fuel
              (u32 (first * 512 + min (left / 512) 255 * 512))
              (left - min (left / 512) 255 * 512) (by omega) (by omega) (by omega)
            have low : above (u32 (first * 512 + min (left / 512) 255 * 512)) = 0 := by
              rw [above, if_pos (by omega)]
            have entry := congrArg (fun list => list[min (left / 512) 255 * 512]?) same
            rw [List.getElem?_append_right (by rw [window_length]), window_length, Nat.sub_self,
              head, low] at entry
            have below := List.getElem?_eq_some_iff.mp entry.symm
            obtain ⟨_, value⟩ := below
            rw [window_getElem, above, if_neg (by omega)] at value
            cases value
      · rw [readLoop_command_outside (by omega) (by omega) (by omega)] at same
        have lengths := congrArg List.length same
        rw [window_length, List.length_nil] at lengths
        omega

/-! ## Main result -/

def rangeOf (sectors off len : Nat) : Nat :=
  if sectors * 512 % 2 ^ 32 ≤ off then 0
  else if sectors * 512 % 2 ^ 32 < (off + len) % 2 ^ 32 then sectors * 512 % 2 ^ 32 - off
  else len

theorem sdaRead_eq (off len : Nat) :
    sdaRead transport Faults.none (diskOf total bytes) off len =
      sdaReadLoop transport Faults.none (diskOf total bytes) (rangeOf total.toNat off len) off
        (rangeOf total.toNat off len) := rfl

theorem sdaWrite_eq (off : Nat) (buffer : List UInt8) :
    sdaWrite transport Faults.none off buffer (diskOf total bytes) =
      sdaWriteLoop transport Faults.none (rangeOf total.toNat off buffer.length) off
        (buffer.take (rangeOf total.toNat off buffer.length)) (diskOf total bytes) := rfl

section Range

variable {sectors off len : Nat}

theorem rangeOf_nothing (offSmall : off < 2 ^ 32) (nothing : len = 0 ∨ sectors * 512 ≤ off) :
    rangeOf sectors off len = 0 := by
  unfold rangeOf
  split_ifs <;> omega

theorem onDisk_nothing (nothing : len = 0 ∨ sectors * 512 ≤ off) :
    onDisk sectors off len = 0 := by
  unfold onDisk
  omega

theorem rangeOf_small (small : sectors * 512 < 2 ^ 32) (lenSmall : len < 2 ^ 32)
    (inside : off < sectors * 512) :
    rangeOf sectors off len = if off + len < 2 ^ 32 then onDisk sectors off len else len := by
  unfold rangeOf onDisk
  split_ifs <;> omega

theorem rangeOf_large (lenSmall : len < 2 ^ 32) (inside : off < sectors * 512 % 2 ^ 32) :
    rangeOf sectors off len =
      if off + len < 2 ^ 32 then min len (sectors * 512 % 2 ^ 32 - off) else len := by
  unfold rangeOf
  split_ifs <;> omega

theorem Runs.moved_le {total position left moved : Nat} (runs : Runs total position left moved) :
    moved ≤ left := by
  induction runs <;> omega

set_option maxRecDepth 2000 in
/-- A plain range makes one run over its bytes on the disk. -/
theorem runs_of_plain (offSmall : off < 2 ^ 32) (lenSmall : len < 2 ^ 32)
    (plain : SdaPlain sectors off len) :
    rangeOf sectors off len ≤ len ∧
      Runs sectors off (rangeOf sectors off len) (onDisk sectors off len) := by
  by_cases nothing : len = 0 ∨ sectors * 512 ≤ off
  · rw [rangeOf_nothing offSmall nothing, onDisk_nothing nothing]
    exact ⟨Nat.zero_le _, .done off⟩
  rw [not_or] at nothing
  unfold SdaPlain firstSector reach at plain
  obtain empty | behind | ⟨small, plain⟩ | ⟨large, inside, plain⟩ := plain
  · exact absurd empty nothing.1
  · exact absurd behind nothing.2
  · rw [rangeOf_small small lenSmall (by omega)]
    by_cases ends : off + len < 2 ^ 32
    · rw [if_pos ends]
      exact ⟨by unfold onDisk; omega, runs_all _ _ _ (by unfold onDisk; omega)
        (by unfold onDisk; omega)⟩
    · rw [if_neg ends]
      refine ⟨Nat.le_refl _, ?_⟩
      have full := plain.resolve_left ends
      have rest := runs_end sectors (by unfold wrapSector; omega)
        ((sectors - firstSector off) / 255) (firstSector off)
        (len - (firstSector off * 512 - off)) (by unfold firstSector; omega)
        (by unfold firstSector; omega)
      have run := runs_first (by omega) (by omega) (by omega) rest
      have moved : (off + 511) / 512 * 512 - off +
          255 * 512 * ((sectors - firstSector off) / 255) = onDisk sectors off len := by
        unfold firstSector onDisk
        omega
      rwa [moved] at run
  · rw [rangeOf_large lenSmall inside]
    by_cases ends : off + len < 2 ^ 32
    · have whole := plain.resolve_right fun beyond => absurd beyond.1 (by omega)
      have all : onDisk sectors off len = len := by
        unfold onDisk
        omega
      rw [if_pos ends, Nat.min_eq_left (by omega), all]
      exact ⟨Nat.le_refl _, runs_all _ _ _ (by omega) (by omega)⟩
    · have beyond := plain.resolve_left fun whole => by omega
      rw [if_neg ends]
      refine ⟨Nat.le_refl _, ?_⟩
      have rest := runs_over sectors ((off + len) / 512 - firstSector off) (firstSector off)
        (by unfold firstSector wrapSector; omega) (by unfold firstSector; omega)
        (by unfold firstSector at beyond ⊢; omega)
      have left : ((off + len) / 512 - firstSector off) * 512 =
          len - ((off + 511) / 512 * 512 - off) := by
        unfold firstSector
        omega
      rw [left] at rest
      have run := runs_first (by omega) (by omega) (by omega) rest
      have moved : (off + 511) / 512 * 512 - off + (len - ((off + 511) / 512 * 512 - off)) =
          onDisk sectors off len := by
        unfold onDisk
        omega
      rwa [moved] at run

end Range

section Sda

variable {off len : UInt32}

theorem right_of_plain {ahci : Bool} (plain : SdaPlain total.toNat off.toNat len.toNat)
    (fits : ahci = true → Short off.toNat (onDisk total.toNat off.toNat len.toNat)) :
    SdaRight ahci total off len := by
  obtain ⟨short, runs⟩ := runs_of_plain off.toNat_lt len.toNat_lt plain
  intro stale bytes buffer length
  constructor
  · rw [sdaRead_eq]
    exact runs.read fits _ (Nat.le_refl _)
  · have taken : (buffer.take (rangeOf total.toNat off.toNat len.toNat)).length =
        rangeOf total.toNat off.toNat len.toNat := by
      rw [List.length_take_of_le]
      rw [length]
      exact short
    rw [sdaWrite_eq, length, runs.write fits _ bytes _ (Nat.le_refl _) taken, List.take_take,
      Nat.min_eq_left runs.moved_le]

/-- The part before the first whole sector, when more than it is read. -/
theorem readLoop_first {off left moved : Nat} (inside : off / 512 < total.toNat)
    (long : 512 ≤ left) (small : (off + 511) / 512 * 512 < 2 ^ 32)
    (same : sdaReadLoop transport Faults.none (diskOf total bytes) left off left =
      window bytes off moved)
    (reaches : firstSector off * 512 - off ≤ moved) :
    ∃ fuel, left - (firstSector off * 512 - off) ≤ fuel ∧
      sdaReadLoop transport Faults.none (diskOf total bytes) fuel (firstSector off * 512)
          (left - (firstSector off * 512 - off)) =
        window bytes (firstSector off * 512) (moved - (firstSector off * 512 - off)) := by
  unfold firstSector at reaches ⊢
  by_cases aligned : off % 512 = 0
  · have start : (off + 511) / 512 * 512 = off := by omega
    rw [start, Nat.sub_self]
    exact ⟨left, Nat.le_refl _, same⟩
  · obtain ⟨fuel, rfl⟩ := Nat.exists_eq_add_of_le' (Nat.lt_of_lt_of_le (by decide : 0 < 512) long)
    have chunk : min (512 - off % 512) (fuel + 1) = (off + 511) / 512 * 512 - off := by omega
    have next : off + ((off + 511) / 512 * 512 - off) = (off + 511) / 512 * 512 := by omega
    have split : moved = (off + 511) / 512 * 512 - off +
        (moved - ((off + 511) / 512 * 512 - off)) := by omega
    rw [readLoop_part (fun both => aligned both.1) (by omega) inside, chunk, next,
      u32_of_small small, split, window_add, next] at same
    exact ⟨fuel, by omega, List.append_cancel_left same⟩

set_option maxRecDepth 2000 in
theorem plain_of_read (read : ∀ bytes, sdaRead .ide Faults.none (diskOf total bytes) off.toNat
      len.toNat = window bytes off.toNat (onDisk total.toNat off.toNat len.toNat)) :
    SdaPlain total.toNat off.toNat len.toNat := by
  have offSmall := off.toNat_lt
  have lenSmall := len.toNat_lt
  simp only [sdaRead_eq] at read
  generalize off.toNat = off at *
  generalize len.toNat = len at *
  by_cases nothing : len = 0 ∨ total.toNat * 512 ≤ off
  · cases nothing with
    | inl empty => exact Or.inl empty
    | inr behind => exact Or.inr (Or.inl behind)
  rw [not_or] at nothing
  right
  right
  by_cases small : total.toNat * 512 < 2 ^ 32
  · left
    refine ⟨small, ?_⟩
    by_cases ends : off + len < 2 ^ 32
    · exact Or.inl ends
    · right
      have same := read above
      rw [rangeOf_small small lenSmall (by omega), if_neg ends] at same
      have moved : onDisk total.toNat off len = total.toNat * 512 - off := by
        unfold onDisk
        omega
      rw [moved] at same
      obtain ⟨fuel, enough, later⟩ := readLoop_first (by omega) (by omega) (by omega) same
        (by unfold firstSector; omega)
      unfold firstSector at enough later ⊢
      rw [readLoop_short (by unfold wrapSector; omega) (total.toNat - (off + 511) / 512) _ _ _
        (by omega) (by omega) enough] at later
      have lengths := congrArg List.length later
      rw [window_length, window_length] at lengths
      omega
  · right
    have large : 2 ^ 32 ≤ total.toNat * 512 := Nat.le_of_not_lt small
    have inside : off < total.toNat * 512 % 2 ^ 32 := by
      by_contra behind
      have none' : rangeOf total.toNat off len = 0 := by
        unfold rangeOf
        rw [if_pos (Nat.le_of_not_lt behind)]
      have lengths := congrArg List.length (read above)
      rw [none', readLoop_nothing, window_length, List.length_nil] at lengths
      unfold onDisk at lengths
      omega
    refine ⟨large, inside, ?_⟩
    have same := read above
    rw [rangeOf_large lenSmall inside] at same
    by_cases ends : off + len < 2 ^ 32
    · left
      rw [if_pos ends] at same
      have most := @readLoop_length total above (min len (total.toNat * 512 % 2 ^ 32 - off)) off
        (min len (total.toNat * 512 % 2 ^ 32 - off))
      rw [same, window_length] at most
      unfold onDisk at most
      omega
    · right
      rw [if_neg ends] at same
      obtain ⟨fuel, enough, later⟩ := readLoop_first (by omega) (by omega) (by omega) same
        (by unfold firstSector onDisk; omega)
      have reached := reached_of_read (wrapSector - firstSector off) (firstSector off) _ _ fuel
        (by unfold wrapSector firstSector; omega) (by unfold wrapSector firstSector; omega) enough
        (by unfold firstSector; omega) (by unfold firstSector onDisk; omega) later
      unfold reach
      unfold onDisk firstSector at reached
      unfold firstSector
      omega

/-- What is left in the buffer of a command may happen to be what the disk holds. -/
theorem read_lucky (ahci : Bool) (lba count : Nat) :
    Transport.read ⟨ahci, fun lba index => bytes (lba * 512 + index)⟩ Faults.none
        (diskOf total bytes) lba count = ataReadSectors Faults.none (diskOf total bytes) lba count := by
  rw [Transport.read]
  split
  · rename_i large
    by_cases inside : lba + count ≤ total.toNat
    · have split : count * 512 = ahciSectors * ataSectorSize +
          (count - ahciSectors) * ataSectorSize := by
        have above := large.2
        unfold ahciSectors ataSectorSize at *
        omega
      have tail : ((List.range ((count - ahciSectors) * ataSectorSize)).map fun index =>
          bytes (lba * 512 + (ahciSectors * ataSectorSize + index))) =
            window bytes (lba * 512 + ahciSectors * ataSectorSize)
              ((count - ahciSectors) * ataSectorSize) := by
        rw [window]
        exact List.map_congr_left fun index _ => by rw [Nat.add_assoc]
      rw [readSectors_inside inside, Option.map_some, split, window_add,
        List.take_left' (window_length _ _ _)]
      dsimp only
      rw [tail]
    · rw [readSectors_outside (by omega) (by omega)]
      rfl
  · rfl

theorem sdaRead_lucky (ahci : Bool) (off len : Nat) :
    sdaRead ⟨ahci, fun lba index => bytes (lba * 512 + index)⟩ Faults.none (diskOf total bytes) off
        len = sdaRead .ide Faults.none (diskOf total bytes) off len := by
  have loops : ∀ fuel position left,
      sdaReadLoop ⟨ahci, fun lba index => bytes (lba * 512 + index)⟩ Faults.none
          (diskOf total bytes) fuel position left =
        sdaReadLoop .ide Faults.none (diskOf total bytes) fuel position left := by
    intro fuel
    induction fuel with
    | zero => exact fun _ _ => rfl
    | succ fuel fuel_ih =>
        intro position left
        rw [sdaReadLoop, sdaReadLoop]
        simp only [read_lucky, fuel_ih, Transport.read_small ide_short]
  rw [sdaRead_eq, sdaRead_eq, loops]

/-- A range with more whole sectors than a command of AHCI moves gets stale bytes. -/
theorem short_of_read (plain : SdaPlain total.toNat off.toNat len.toNat)
    (read : sdaRead ⟨true, fun _ _ => 1⟩ Faults.none (diskOf total fun _ => 0) off.toNat len.toNat =
      window (fun _ => 0) off.toNat (onDisk total.toNat off.toNat len.toNat)) :
    Short off.toNat (onDisk total.toNat off.toNat len.toNat) := by
  obtain ⟨-, runs⟩ := runs_of_plain off.toNat_lt len.toNat_lt plain
  have most := runs.moved_le
  have offSmall := off.toNat_lt
  have lenSmall := len.toNat_lt
  rw [sdaRead_eq] at read
  have lies : 0 < onDisk total.toNat off.toNat len.toNat →
      off.toNat + onDisk total.toNat off.toNat len.toNat ≤ total.toNat * 512 := by
    unfold onDisk
    omega
  have below : rangeOf total.toNat off.toNat len.toNat ≠ 0 →
      off.toNat < total.toNat * 512 % 2 ^ 32 := by
    unfold rangeOf
    split_ifs <;> omega
  generalize rangeOf total.toNat off.toNat len.toNat = left at *
  generalize onDisk total.toNat off.toNat len.toNat = moved at *
  generalize off.toNat = off at *
  by_contra long
  unfold Short firstSector ahciSectors at long
  obtain ⟨fuel, enough, later⟩ := readLoop_first (by omega) (by omega) (by omega) read
    (by unfold firstSector; omega)
  unfold firstSector at enough later
  obtain ⟨fuel, rfl⟩ := Nat.exists_eq_add_of_le' (show 1 ≤ fuel by omega)
  rw [sdaReadLoop, if_neg (by omega), if_pos (by unfold ataSectorSize; omega)] at later
  dsimp only [ataSectorSize] at later
  generalize size : min ((left - ((off + 511) / 512 * 512 - off)) / 512) 255 = nsec at later
  have large : ahciSectors < nsec := by
    unfold ahciSectors
    omega
  rw [Transport.read, if_pos ⟨rfl, large⟩] at later
  by_cases inside : (off + 511) / 512 * 512 / 512 + nsec ≤ total.toNat
  · rw [readSectors_inside inside, Option.map_some] at later
    have entry := congrArg (fun list : List UInt8 => list[64 * 512]?) later
    dsimp only at entry
    have front : ((window (fun _ => (0 : UInt8)) ((off + 511) / 512 * 512 / 512 * 512)
        (nsec * 512)).take (ahciSectors * ataSectorSize)).length = 64 * 512 := by
      rw [List.length_take_of_le]
      · rfl
      · rw [window_length]
        unfold ahciSectors ataSectorSize at *
        omega
    rw [List.append_assoc, List.getElem?_append_right (by rw [front]), front, Nat.sub_self,
      List.getElem?_append_left (by
        rw [List.length_map, List.length_range]
        unfold ahciSectors ataSectorSize at *
        omega),
      List.getElem?_map, List.getElem?_range (by
        unfold ahciSectors ataSectorSize at *
        omega),
      Option.map_some] at entry
    obtain ⟨_, value⟩ := List.getElem?_eq_some_iff.mp entry.symm
    rw [window_getElem] at value
    cases value
  · rw [readSectors_outside (by omega) (by omega), Option.map_none] at later
    have lengths := congrArg List.length later
    rw [window_length, List.length_nil] at lengths
    omega

theorem plain_of_right {ahci : Bool} (right : SdaRight ahci total off len) :
    SdaPlain total.toNat off.toNat len.toNat ∧
      (ahci = true → Short off.toNat (onDisk total.toNat off.toNat len.toNat)) := by
  have read := fun stale bytes =>
    (right stale bytes (List.replicate len.toNat 0) List.length_replicate).1
  have plain := @plain_of_read total off len fun bytes =>
    (sdaRead_lucky ahci off.toNat len.toNat).symm.trans (read _ bytes)
  refine ⟨plain, ?_⟩
  rintro rfl
  exact short_of_read plain (read _ _)

end Sda

/-- A range is read and written right, on every disk of so many sectors without faults, exactly
when it is plain and, over AHCI, has no more whole sectors than a command moves. -/
theorem sdaRight_iff (ahci : Bool) (total off len : UInt32) :
    SdaRight ahci total off len ↔ SdaPlain total.toNat off.toNat len.toNat ∧
      (ahci = true → Short off.toNat (onDisk total.toNat off.toNat len.toNat)) :=
  ⟨plain_of_right, fun right => right_of_plain right.1 right.2⟩

theorem sdaRead_fourGiB :
    (∀ ahci stale bytes,
      sdaRead ⟨ahci, stale⟩ Faults.none (diskOf 0x800000 bytes) 0 1 = []) ∧
        ¬ SdaRight false 0x800000 0 1 := by
  have range : rangeOf 0x800000 0 1 = 0 := by decide
  have nothing : ∀ ahci stale bytes,
      sdaRead ⟨ahci, stale⟩ Faults.none (diskOf 0x800000 bytes) 0 1 = [] := by
    intro ahci stale bytes
    have read := @sdaRead_eq 0x800000 bytes ⟨ahci, stale⟩ 0 1
    change _ = sdaReadLoop _ _ _ (rangeOf 0x800000 0 1) 0 (rangeOf 0x800000 0 1) at read
    rw [read, range]
    rfl
  refine ⟨nothing, ?_⟩
  intro right
  have read := (right (fun _ _ => 0) (fun _ => 0) [0] rfl).1
  change sdaRead _ _ _ 0 1 = window _ 0 (onDisk 0x800000 0 1) at read
  rw [nothing] at read
  have lengths := congrArg List.length read
  rw [window_length] at lengths
  revert lengths
  decide

end RawDisk

end Trinux
