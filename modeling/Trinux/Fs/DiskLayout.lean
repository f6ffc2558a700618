import Trinux.Fs.DiskfsLoad
import Trinux.Fs.DiskfsSave

namespace Trinux

open Bytes

/-!
# The areas of the medium

The block store and the snapshot compute their areas from the same sector count,
each with its own roundings.  The boot reserve, the bitmap, the data blocks and
the snapshot never overlap, whatever the count.

An operation touches only the sectors of an area if it changes no byte outside and
if neither its result nor what it leaves in the area depends on anything outside,
including whether a sector there fails.
-/

/-! ## Operations confined to an area -/

structure Faults.AgreeOn (area : Set Nat) (first second : Faults) : Prop where
  read : ∀ lba ∈ area, second.read lba = first.read lba
  write : ∀ lba ∈ area, second.write lba = first.write lba

structure Disk.AgreeOn (area : Set Nat) (first second : Disk) : Prop where
  present : second.present = first.present
  total : second.total = first.total
  bytes : ∀ position, position / ataSectorSize ∈ area →
    second.bytes position = first.bytes position

structure TouchesOnly {α : Type} (area : Set Nat) (operation : Faults → Disk → α × Disk)
    (disk : Disk) : Prop where
  changes : ∀ faults, Disk.ChangedOnly (· ∈ area) disk (operation faults disk).2
  depends : ∀ faults faults' disk', faults.AgreeOn area faults' → disk.AgreeOn area disk' →
    (operation faults' disk').1 = (operation faults disk).1 ∧
      (operation faults disk).2.AgreeOn area (operation faults' disk').2

section Agree

variable {area : Set Nat} {faults faults' : Faults} {disk disk' : Disk}

theorem Disk.AgreeOn.sectors_eq (agree : disk.AgreeOn area disk') {lba count : Nat}
    (inside : ∀ index < count, lba + index ∈ area) :
    disk'.sectors lba count = disk.sectors lba count := by
  apply Disk.sectors_congr
  intro position low high
  apply agree.bytes
  have above : lba ≤ position / ataSectorSize := (Nat.le_div_iff_mul_le (by decide)).mpr low
  have below : position / ataSectorSize < lba + count :=
    (Nat.div_lt_iff_lt_mul (by decide)).mpr high
  have member := inside (position / ataSectorSize - lba) (by omega)
  rwa [Nat.add_sub_cancel' above] at member

/-- The same bytes written to the same sector leave media that still agree. -/
theorem Disk.AgreeOn.setSector (agree : disk.AgreeOn area disk') (lba : Nat)
    (bytes : List UInt8) : (disk.setSector lba bytes).AgreeOn area (disk'.setSector lba bytes) := by
  refine ⟨agree.present, agree.total, fun position inside => ?_⟩
  simp only [Disk.setSector, overwrite]
  split
  · rfl
  · exact agree.bytes position inside

theorem ataReadSectors_agree (sound : faults.AgreeOn area faults')
    (agree : disk.AgreeOn area disk') {lba count : Nat}
    (inside : ∀ index < count, lba + index ∈ area) :
    ataReadSectors faults' disk' lba count = ataReadSectors faults disk lba count := by
  have alike : (∀ sector < count, lba + sector < disk'.total.toNat ∧
      faults'.read (lba + sector) = false) ↔
      ∀ sector < count, lba + sector < disk.total.toNat ∧ faults.read (lba + sector) = false := by
    apply forall₂_congr
    intro sector below
    rw [agree.total, sound.read _ (inside sector below)]
  unfold ataReadSectors
  rw [agree.present, agree.sectors_eq inside, if_congr (and_congr_right fun _ => alike) rfl rfl]

theorem ataReadLoop_agree (transport : Transport) (sound : faults.AgreeOn area faults')
    (agree : disk.AgreeOn area disk') {limit fuel lba sectors : Nat}
    (inside : ∀ index < sectors, lba + index ∈ area) :
    ataReadLoop transport faults' disk' limit fuel lba sectors =
      ataReadLoop transport faults disk limit fuel lba sectors := by
  induction fuel generalizing lba sectors with
  | zero => rfl
  | succ fuel known =>
      have here : transport.read faults' disk' lba (min sectors limit) =
          transport.read faults disk lba (min sectors limit) := by
        rw [Transport.read, Transport.read,
          ataReadSectors_agree sound agree fun index below => inside index (by omega)]
      have later : ataReadLoop transport faults' disk' limit fuel (lba + min sectors limit)
          (sectors - min sectors limit) = ataReadLoop transport faults disk limit fuel
            (lba + min sectors limit) (sectors - min sectors limit) := by
        apply known
        intro index below
        rw [Nat.add_assoc]
        exact inside _ (by omega)
      rw [ataReadLoop, ataReadLoop, here, later]

theorem ataWriteSectors_agree (sound : faults.AgreeOn area faults')
    (agree : disk.AgreeOn area disk') {lba count : Nat} (buffer : List UInt8)
    (inside : ∀ index < count, lba + index ∈ area) :
    (ataWriteSectors faults' lba count buffer disk').1 =
        (ataWriteSectors faults lba count buffer disk).1 ∧
      (ataWriteSectors faults lba count buffer disk).2.AgreeOn area
        (ataWriteSectors faults' lba count buffer disk').2 := by
  induction count generalizing lba buffer disk disk' with
  | zero => exact ⟨agree.present, agree⟩
  | succ count known =>
      have first : lba ∈ area := inside 0 (by omega)
      rw [ataWriteSectors, ataWriteSectors, agree.present, agree.total, sound.write lba first]
      split
      · split
        · apply known (agree.setSector _ _)
          intro index below
          rw [Nat.add_assoc]
          exact inside _ (by omega)
        · exact ⟨rfl, agree.setSector _ _⟩
      · exact ⟨rfl, agree⟩

theorem ataWriteLoop_agree (sound : faults.AgreeOn area faults')
    (agree : disk.AgreeOn area disk') {limit fuel lba sectors : Nat} (buffer : List UInt8)
    (inside : ∀ index < sectors, lba + index ∈ area) :
    (ataWriteLoop faults' limit fuel lba sectors buffer disk').1 =
        (ataWriteLoop faults limit fuel lba sectors buffer disk).1 ∧
      (ataWriteLoop faults limit fuel lba sectors buffer disk).2.AgreeOn area
        (ataWriteLoop faults' limit fuel lba sectors buffer disk').2 := by
  induction fuel generalizing lba sectors buffer disk disk' with
  | zero => exact ⟨rfl, agree⟩
  | succ fuel known =>
      have start : ∀ index < min sectors limit, lba + index ∈ area :=
        fun index below => inside index (by omega)
      have here := ataWriteSectors_agree sound agree buffer start
      rw [ataWriteLoop, ataWriteLoop]
      split
      · exact ⟨rfl, agree⟩
      rcases first : ataWriteSectors faults lba (min sectors limit) buffer disk with
        ⟨succeeded, left⟩
      rcases second : ataWriteSectors faults' lba (min sectors limit) buffer disk' with
        ⟨succeeded', left'⟩
      rw [first, second] at here
      rcases here with ⟨rfl, after⟩
      cases succeeded' with
      | false => exact ⟨rfl, after⟩
      | true =>
          apply known after
          intro index below
          rw [Nat.add_assoc]
          exact inside _ (by omega)

theorem ataWriteLoop_changedOnly (faults : Faults) (limit fuel : Nat) {lba sectors : Nat}
    (buffer : List UInt8) (disk : Disk) (inside : ∀ index < sectors, lba + index ∈ area) :
    Disk.ChangedOnly (· ∈ area) disk
      (ataWriteLoop faults limit fuel lba sectors buffer disk).2 := by
  induction fuel generalizing lba sectors buffer disk with
  | zero => exact .refl _ _
  | succ fuel known =>
      rw [ataWriteLoop]
      split
      · exact .refl _ _
      have here : Disk.ChangedOnly (· ∈ area) disk
          (ataWriteSectors faults lba (min sectors limit) buffer disk).2 := by
        apply (ataWriteSectors_changedOnly faults lba _ buffer disk).mono
        intro sector within
        rcases within with ⟨low, high⟩
        have member := inside (sector - lba) (by omega)
        rwa [Nat.add_sub_cancel' low] at member
      rcases outcome : ataWriteSectors faults lba (min sectors limit) buffer disk with
        ⟨succeeded, left⟩
      rw [outcome] at here
      cases succeeded with
      | false => exact here
      | true =>
          apply here.trans
          apply known
          intro index below
          rw [Nat.add_assoc]
          exact inside _ (by omega)

end Agree

/-! ## What is written and read -/

section Touch

variable {area : Set Nat} {faults faults' : Faults} {disk disk' : Disk}

theorem readImage_agree (alloc : Nat → Bool) (sound : faults.AgreeOn area faults')
    (agree : disk.AgreeOn area disk')
    (inside : ∀ index < diskfsTailSectors, diskfsBaseLba disk + index ∈ area) :
    readImage faults' alloc disk' = readImage faults alloc disk := by
  have base : diskfsBaseLba disk' = diskfsBaseLba disk := by
    rw [diskfsBaseLba, diskfsBaseLba, agree.total]
  have first : ataReadSectors faults' disk' (diskfsBaseLba disk) 1 =
      ataReadSectors faults disk (diskfsBaseLba disk) 1 :=
    ataReadSectors_agree sound agree fun index below =>
      inside index (Nat.lt_of_lt_of_le below (by decide))
  unfold readImage readImageOver
  rw [base, first, agree.present]
  split
  · rfl
  cases ataReadSectors faults disk (diskfsBaseLba disk) 1 with
  | none => rfl
  | some sb =>
      simp only [ne_eq]
      by_cases large : (readU32 sb 12).toNat < 16 ∨ diskfsMaxImage < (readU32 sb 12).toNat
      · simp only [if_pos large]
      have fits : sectorsFor (readU32 sb 12).toNat ≤ diskfsTailSectors := by
        rw [sectorsFor, diskfsTailSectors_eq]
        simp only [diskfsMaxImage, ataSectorSize] at large ⊢
        omega
      have image : ataReadLoop .ide faults' disk' 255 (sectorsFor (readU32 sb 12).toNat)
          (diskfsBaseLba disk) (sectorsFor (readU32 sb 12).toNat) =
            ataReadLoop .ide faults disk 255 (sectorsFor (readU32 sb 12).toNat)
              (diskfsBaseLba disk) (sectorsFor (readU32 sb 12).toNat) :=
        ataReadLoop_agree .ide sound agree fun index below => inside index (by omega)
      simp only [image]

theorem flushBitmap_agree (granted : Bool) (store : Blockfs) (sound : faults.AgreeOn area faults')
    (agree : disk.AgreeOn area disk')
    (inside : ∀ index < store.bitmapSectors, bitmapLba + index ∈ area) :
    (store.flushBitmap faults granted disk).AgreeOn area
      (store.flushBitmap faults' granted disk') := by
  unfold Blockfs.flushBitmap
  split
  · exact agree
  split
  · exact agree
  · exact (ataWriteLoop_agree sound agree _ inside).2

theorem flushBitmap_changedOnly (faults : Faults) (granted : Bool) (store : Blockfs)
    (disk : Disk) (inside : ∀ index < store.bitmapSectors, bitmapLba + index ∈ area) :
    Disk.ChangedOnly (· ∈ area) disk (store.flushBitmap faults granted disk) := by
  unfold Blockfs.flushBitmap
  split
  · exact .refl _ _
  split
  · exact .refl _ _
  · exact ataWriteLoop_changedOnly faults _ _ _ disk inside

def Buffer.HoldsSuperblock (buffer : Buffer) : Prop := buffer.oom = true ∨ 16 ≤ buffer.bytes.length

theorem Buffer.HoldsSuperblock.bufPut {buffer : Buffer} (holds : buffer.HoldsSuperblock)
    (alloc : Nat → Bool) (bytes : List UInt8) :
    (Trinux.bufPut alloc buffer bytes).HoldsSuperblock := by
  rw [Trinux.bufPut]
  rcases holds with oom | long
  · have same : bufEnsure alloc bytes.length buffer = buffer := by
      rw [bufEnsure, if_pos oom]
    simp only [same, if_pos oom]
    exact Or.inl oom
  · split
    · rename_i oom
      exact Or.inl oom
    · refine Or.inr ?_
      rw [List.length_append, bufEnsure_bytes]
      omega

theorem Buffer.HoldsSuperblock.bufPuts {buffer : Buffer} (holds : buffer.HoldsSuperblock)
    (alloc : Nat → Bool) (puts : List (List UInt8)) :
    (puts.foldl (Trinux.bufPut alloc) buffer).HoldsSuperblock := by
  induction puts generalizing buffer with
  | nil => exact holds
  | cons first rest known => exact known (holds.bufPut alloc first)

theorem serializeNode_holdsSuperblock (alloc : Nat → Bool) (fs : Fs) (fuel id : Nat)
    (parentIdx : Int) (state : Buffer × List Nat) (holds : state.1.HoldsSuperblock) :
    (serializeNode alloc fs fuel id parentIdx state).1.HoldsSuperblock := by
  induction fuel generalizing id parentIdx state with
  | zero => exact holds
  | succ fuel known =>
      rw [serializeNode]
      cases fs.node id with
      | none => exact holds
      | some node =>
          have record := holds.bufPuts alloc (node.recordPuts parentIdx)
          simp only
          generalize (state.2 ++ [id]) = order
          generalize (node.recordPuts parentIdx).foldl (bufPut alloc) state.1 = buffer at record
          have loop : ∀ (children : List Nat) (state : Buffer × List Nat) (position : Int),
              state.1.HoldsSuperblock →
              (children.foldl (fun state child =>
                if diskfsMaxNodes ≤ state.2.length then state
                else serializeNode alloc fs fuel child position state) state).1.HoldsSuperblock := by
            intro children
            induction children with
            | nil => exact fun _ _ holds => holds
            | cons child rest later =>
                intro state position holds
                rw [List.foldl_cons]
                apply later
                split
                · exact holds
                · exact known child position state holds
          exact loop node.children (buffer, order) _ record

theorem serializeTree_holdsSuperblock (alloc : Nat → Bool) (fs : Fs) (root : Nat) :
    (serializeTree alloc fs root).1.HoldsSuperblock := by
  apply serializeNode_holdsSuperblock
  cases granted : alloc 4096 with
  | false =>
      refine Or.inl ?_
      simp [superblockPuts, bufPut, bufEnsure, growCap, kmalloc, granted]
  | true =>
      refine Or.inr ?_
      simp [superblockPuts, bufPut, bufEnsure, growCap, kmalloc, granted, alignUp, heapPayload]

/-- A built image fits behind the base of the snapshot area. -/
theorem buildImage_fits {alloc : Nat → Bool} {fs : Fs} {disk : Disk} {image : List UInt8}
    (built : buildImage alloc fs disk = .ok image) :
    disk.present = true ∧ image.length / ataSectorSize ≤ diskfsTailSectors ∧
      diskfsBaseLba disk + image.length / ataSectorSize ≤ disk.total.toNat := by
  rw [buildImage] at built
  by_cases present : disk.present = true
  · rw [if_neg (by simp [present])] at built
    cases isRoot : fs.root with
    | none =>
        rw [isRoot] at built
        cases built
    | some root =>
        rw [isRoot] at built
        simp only at built
        by_cases memory : (!kmalloc (alloc 0) (4 * diskfsMaxNodes)) = true
        · rw [if_pos memory] at built
          cases built
        rw [if_neg memory] at built
        have held := serializeTree_holdsSuperblock alloc fs root
        generalize serializeTree alloc fs root = walked at built held
        rw [finishImage] at built
        split_ifs at built with oom large memory sectors inside
        cases built
        rcases held with ranOut | long
        · exact absurd ranOut oom
        have length : (sealImage walked.1.bytes walked.2.length).length =
            sectorsFor walked.1.bytes.length * ataSectorSize := by
          have enough := le_sectorsFor walked.1.bytes.length
          simp only [sealImage, patchU32, List.length_append, List.length_take,
            List.length_drop, le32_length, List.length_replicate]
          omega
        rw [length, Nat.mul_div_cancel _ (by decide)]
        exact ⟨present, by omega, by omega⟩
  · rw [if_pos (by simp [present])] at built
    cases built

end Touch

/-! ## The areas -/

def bootArea : Set Nat := Set.Iio bootReserveSectors

def Blockfs.bitmapArea (store : Blockfs) : Set Nat :=
  Set.Ico bitmapLba (bitmapLba + store.bitmapSectors)

def Blockfs.dataArea (store : Blockfs) : Set Nat :=
  Set.Ico store.dataStartLba (store.dataStartLba + store.totalBlocks * sectorsPerBlock)

def snapshotArea (disk : Disk) : Set Nat :=
  Set.Ico (diskfsBaseLba disk) (diskfsBaseLba disk + diskfsTailSectors)

def diskAreas (store : Blockfs) (disk : Disk) : List (Set Nat) :=
  [bootArea, store.bitmapArea, store.dataArea, snapshotArea disk]

inductive Blockfs.Runs (start : Blockfs) : Blockfs → Prop where
  | start : Runs start start
  | alloc {store store' : Blockfs} {block : Nat} (earlier : Runs start store)
      (allocated : store.allocBlock = some (block, store')) : Runs start store'
  | free {store : Blockfs} (earlier : Runs start store) (block : Nat) :
      Runs start (store.freeBlock block)

theorem Blockfs.Runs.geometry {start store : Blockfs} (runs : start.Runs store) :
    start.SameGeometry store := by
  induction runs with
  | start => exact SameGeometry.refl start
  | alloc _ allocated known => exact known.trans (allocBlock_geometry allocated)
  | free _ block known => exact known.trans (freeBlock_geometry _ block)

theorem Blockfs.Layout.snapshot {store : Blockfs} {disk : Disk} (layout : store.Layout disk) :
    diskfsBaseLba disk + diskfsTailSectors = disk.total.toNat := by
  have large := layout.large
  rw [diskfsBaseLba]
  simp only
  rw [if_pos (by omega)]
  omega

theorem Blockfs.Layout.disjoint {store : Blockfs} {disk : Disk} (layout : store.Layout disk) :
    (diskAreas store disk).Pairwise Disjoint := by
  have start := layout.dataStart
  have fit := layout.blocksFit
  have snapshot := layout.snapshot
  have apart : ∀ first last first' last' : Nat, last ≤ first' →
      Disjoint (Set.Ico first last) (Set.Ico first' last') := by
    intro first last first' last' after
    apply Set.disjoint_left.mpr
    rintro lba ⟨-, below⟩ ⟨above, -⟩
    omega
  have boot : bootArea = Set.Ico 0 bootReserveSectors := by
    ext lba
    simp [bootArea]
  have reserve : bitmapLba = bootReserveSectors := rfl
  simp only [diskAreas, List.pairwise_cons, List.mem_cons, List.not_mem_nil, or_false,
    forall_eq_or_imp, forall_eq, boot]
  refine ⟨⟨apart _ _ _ _ ?_, apart _ _ _ _ ?_, apart _ _ _ _ ?_⟩,
    ⟨apart _ _ _ _ ?_, apart _ _ _ _ ?_⟩, apart _ _ _ _ ?_, ?_, List.Pairwise.nil⟩
  all_goals first | omega | exact fun _ member => member.elim

theorem Blockfs.Layout.inside {store : Blockfs} {disk : Disk} (layout : store.Layout disk) :
    ∀ area ∈ diskAreas store disk, area ⊆ Set.Iio disk.total.toNat := by
  have large := layout.large
  have start := layout.dataStart
  have fit := layout.blocksFit
  have snapshot := layout.snapshot
  intro area member lba inside
  simp only [diskAreas, List.mem_cons, List.not_mem_nil, or_false] at member
  rw [Set.mem_Iio]
  rcases member with rfl | rfl | rfl | rfl
  · rw [bootArea, Set.mem_Iio] at inside
    omega
  · rw [Blockfs.bitmapArea, Set.mem_Ico] at inside
    omega
  · rw [Blockfs.dataArea, Set.mem_Ico] at inside
    omega
  · rw [snapshotArea, Set.mem_Ico] at inside
    omega

theorem diskfsLoad_touchesOnly (alloc : Nat → Bool) (clock : Nat → UInt32) (fs : Fs)
    (disk : Disk) :
    TouchesOnly (snapshotArea disk)
      (fun faults disk => (diskfsLoad faults alloc clock fs disk, disk)) disk := by
  refine ⟨fun faults => .refl _ _, fun faults faults' disk' sound agree => ⟨?_, agree⟩⟩
  simp only [diskfsLoad]
  rw [readImage_agree alloc sound agree]
  intro index below
  rw [snapshotArea, Set.mem_Ico]
  omega

/-- Saving touches the snapshot and the bitmap behind the boot reserve. -/
theorem diskfsSave_touchesOnly (alloc : Nat → Bool) (fs : Fs) (store : Blockfs) (disk : Disk) :
    TouchesOnly (snapshotArea disk ∪ store.bitmapArea)
      (fun faults disk => diskfsSave faults alloc fs store disk) disk := by
  have bitmap : ∀ index < store.bitmapSectors, bitmapLba + index ∈
      snapshotArea disk ∪ store.bitmapArea := by
    intro index below
    refine Or.inr ?_
    rw [Blockfs.bitmapArea, Set.mem_Ico]
    omega
  have snapshot : ∀ image : List UInt8, image.length / ataSectorSize ≤ diskfsTailSectors →
      ∀ index < image.length / ataSectorSize, diskfsBaseLba disk + index ∈
        snapshotArea disk ∪ store.bitmapArea := by
    intro image short index below
    refine Or.inl ?_
    rw [snapshotArea, Set.mem_Ico]
    omega
  refine ⟨fun faults => ?_, fun faults faults' disk' sound agree => ?_⟩
  · rw [diskfsSave]
    cases built : buildImage alloc fs disk with
    | error code => exact .refl _ _
    | ok image =>
        simp only
        have written := ataWriteLoop_changedOnly faults 32 (image.length / ataSectorSize) image
          disk (snapshot image (buildImage_fits built).2.1)
        rw [writeImage]
        rcases outcome : ataWriteLoop faults 32 (image.length / ataSectorSize)
          (diskfsBaseLba disk) (image.length / ataSectorSize) image disk with ⟨succeeded, left⟩
        rw [outcome] at written
        cases succeeded with
        | false => exact written
        | true =>
            simp only
            split
            · exact written.trans (flushBitmap_changedOnly faults _ store left bitmap)
            · exact written
  · have base : diskfsBaseLba disk' = diskfsBaseLba disk := by
      rw [diskfsBaseLba, diskfsBaseLba, agree.total]
    have same : buildImage alloc fs disk' = buildImage alloc fs disk := by
      simp only [buildImage, finishImage, base, agree.present, agree.total]
    simp only [diskfsSave, same]
    cases built : buildImage alloc fs disk with
    | error code => exact ⟨rfl, agree⟩
    | ok image =>
        have written := @ataWriteLoop_agree _ faults faults' disk disk' sound agree 32
          (image.length / ataSectorSize) _ _ image (snapshot image (buildImage_fits built).2.1)
        simp only [writeImage, base]
        rcases first : ataWriteLoop faults 32 (image.length / ataSectorSize)
          (diskfsBaseLba disk) (image.length / ataSectorSize) image disk with ⟨succeeded, left⟩
        rcases second : ataWriteLoop faults' 32 (image.length / ataSectorSize)
          (diskfsBaseLba disk) (image.length / ataSectorSize) image disk' with ⟨succeeded', left'⟩
        rw [first, second] at written
        rcases written with ⟨rfl, after⟩
        cases succeeded' with
        | false => exact ⟨rfl, after⟩
        | true =>
            refine ⟨rfl, ?_⟩
            simp only
            split
            · exact flushBitmap_agree _ store sound after bitmap
            · exact after

/-- Whatever the size of the disk, if the block store is available then its areas, the boot
reserve and the snapshot are apart and inside the disk; allocated blocks lie in the data area;
saving touches the snapshot and the bitmap, and loading the snapshot only. -/
theorem blockfsInit_layout (faults : Faults) (alloc : Nat → Bool) (disk : Disk)
    (available : (Blockfs.init faults alloc disk).available = true) :
    (diskAreas (Blockfs.init faults alloc disk) disk).Pairwise Disjoint ∧
      (∀ area ∈ diskAreas (Blockfs.init faults alloc disk) disk,
        area ⊆ Set.Iio disk.total.toNat) ∧
      ∀ store, (Blockfs.init faults alloc disk).Runs store →
        (∀ block store', store.allocBlock = some (block, store') →
          {lba | store.blockSectors block lba} ⊆ (Blockfs.init faults alloc disk).dataArea) ∧
        ∀ granted fs medium, medium.present = disk.present → medium.total = disk.total →
          TouchesOnly (snapshotArea disk ∪ (Blockfs.init faults alloc disk).bitmapArea)
              (fun sound medium => diskfsSave sound granted fs store medium) medium ∧
            ∀ clock, TouchesOnly (snapshotArea disk)
              (fun sound medium => (diskfsLoad sound granted clock fs medium, medium)) medium := by
  have layout := Blockfs.init_layout faults alloc disk available
  refine ⟨layout.disjoint, layout.inside, fun store runs => ⟨?_, ?_⟩⟩
  · rintro block store' allocated lba ⟨above, below⟩
    rcases Blockfs.allocBlock_cases allocated with ⟨-, inside, -⟩
    have geometry := runs.geometry
    rw [geometry.total] at inside
    rw [Blockfs.blockLba, geometry.dataStart] at above below
    rw [Blockfs.dataArea, Set.mem_Ico]
    simp only [sectorsPerBlock] at *
    omega
  · intro granted fs medium _ total
    have snapshot : snapshotArea medium = snapshotArea disk := by
      rw [snapshotArea, snapshotArea, diskfsBaseLba, diskfsBaseLba, total]
    have bitmap : store.bitmapArea = (Blockfs.init faults alloc disk).bitmapArea := by
      rw [Blockfs.bitmapArea, Blockfs.bitmapArea, runs.geometry.bitmapSectors]
    rw [← snapshot, ← bitmap]
    exact ⟨diskfsSave_touchesOnly granted fs store medium,
      fun clock => diskfsLoad_touchesOnly granted clock fs medium⟩

/-- A disk just large enough for block storage, with one byte set behind the used bytes of its
bitmap sector. -/
def dirtyDisk : Disk where
  present := true
  total := 164000
  bytes := fun position => if position = bitmapLba * ataSectorSize + 100 then 1 else 0

theorem dirtyDisk_available :
    (Blockfs.init .none (fun _ => true) dirtyDisk).available = true := by decide +kernel

theorem blockfsInit_layout_dirtyDisk :
    (diskAreas (Blockfs.init .none (fun _ => true) dirtyDisk) dirtyDisk).Pairwise Disjoint ∧
      TouchesOnly (snapshotArea dirtyDisk) (fun faults medium =>
        (diskfsLoad faults (fun _ => true) (fun _ => 0) sampleTree medium, medium)) dirtyDisk :=
  have layout := blockfsInit_layout .none (fun _ => true) dirtyDisk dirtyDisk_available
  ⟨layout.1, ((layout.2.2 _ .start).2 (fun _ => true) sampleTree dirtyDisk rfl rfl).2 fun _ => 0⟩

/-- A save is not confined to the snapshot: it writes the bitmap. -/
theorem diskfsSave_leaves_snapshot :
    ¬∀ (faults : Faults) (alloc : Nat → Bool) (disk : Disk),
      (Blockfs.init faults alloc disk).available = true →
      ∀ fs, TouchesOnly (snapshotArea disk) (fun sound medium =>
        diskfsSave sound alloc fs (Blockfs.init faults alloc disk) medium) disk := by
  intro confined
  have kept := ((confined .none (fun _ => true) dirtyDisk dirtyDisk_available sampleTree).changes
    .none).bytes (bitmapLba * ataSectorSize + 100) (by
      rw [snapshotArea, Set.mem_Ico]
      decide)
  have cleared : (diskfsSave .none (fun _ => true) sampleTree
      (Blockfs.init .none (fun _ => true) dirtyDisk) dirtyDisk).2.bytes
        (bitmapLba * ataSectorSize + 100) = 0 := by decide +kernel
  rw [cleared] at kept
  exact absurd kept (by decide)

end Trinux
