import Trinux.Fs.RoundTrip

namespace Trinux

open Bytes Listing

/-!
# What a failed save leaves on the medium

`diskfs_save` overwrites the metadata region in place and has no second copy,
journal or checksum.  An error before the first write leaves the medium as it
was.  A write error leaves the new image up to the failing sector and the old
bytes behind it, and since the superblock is written first, a later load cannot
tell this from a complete image.
-/

structure StoppedAt (faults : Faults) (image : List UInt8) (disk disk' : Disk) (done : Nat)
    (left : Nat → UInt8) : Prop where
  inside : done < image.length / ataSectorSize
  fault : faults.write (diskfsBaseLba disk + done) = some left
  medium : disk' = (disk.setSector (diskfsBaseLba disk)
    (image.take (done * ataSectorSize))).setSector (diskfsBaseLba disk + done)
      ((List.range ataSectorSize).map left)

section Failure

variable {faults : Faults} {alloc : Nat → Bool} {fs : Fs} {store : Blockfs} {disk disk' : Disk}
  {tree : OrderedTree Nat} {code : Int}

theorem diskfsSave_failed (holds : fs.Holds tree)
    (saved : diskfsSave faults alloc fs store disk = (code, disk')) (failed : code ≠ 0) :
    (-6 ≤ code ∧ code ≤ -1 ∧ disk' = disk) ∨
      (code = -7 ∧ ∃ done left,
        StoppedAt faults (fs.image (savedEntries tree)) disk disk' done left) := by
  rw [diskfsSave] at saved
  cases built : buildImage alloc fs disk with
  | error code' =>
      rw [built] at saved
      cases saved
      have range := buildImage_error built
      exact Or.inl ⟨range.1, range.2, rfl⟩
  | ok image =>
      obtain ⟨present, rfl, -, -, inside, -⟩ := buildImage_ok holds built
      rw [built] at saved
      simp only at saved
      rw [writeImage_eq _ _ _ _ present] at saved
      have stopped := ataWriteSectors_failed faults (diskfsBaseLba disk)
        ((fs.image (savedEntries tree)).length / ataSectorSize) (fs.image (savedEntries tree))
        disk present inside (fs.image_sectors _)
      cases outcome : ataWriteSectors faults (diskfsBaseLba disk)
          ((fs.image (savedEntries tree)).length / ataSectorSize) (fs.image (savedEntries tree))
          disk with
      | mk succeeded written =>
          rw [outcome] at saved stopped
          cases succeeded with
          | true =>
              cases saved
              exact absurd rfl failed
          | false =>
              cases saved
              obtain ⟨done, left, below, fault, medium⟩ := stopped rfl
              exact Or.inr ⟨rfl, done, left, below, fault, medium⟩

/-- A failing first sector that keeps its bytes leaves the medium as it was. -/
theorem StoppedAt.unchanged {image : List UInt8} {left : Nat → UInt8}
    (stopped : StoppedAt faults image disk disk' 0 left)
    (kept : ∀ index < ataSectorSize,
      left index = disk.bytes (diskfsBaseLba disk * ataSectorSize + index)) :
    disk' = disk := by
  have same : overwrite disk.bytes (diskfsBaseLba disk * ataSectorSize)
      ((List.range ataSectorSize).map left) = disk.bytes := by
    funext position
    by_cases inSector : diskfsBaseLba disk * ataSectorSize ≤ position ∧
        position < diskfsBaseLba disk * ataSectorSize + ataSectorSize
    · obtain ⟨index, rfl⟩ := Nat.exists_eq_add_of_le inSector.1
      rw [overwrite_inside _ _ _ _ (by simpa using inSector.2)]
      simpa using kept index (by omega)
    · exact overwrite_outside _ _ _ _ (by
        rw [List.length_map, List.length_range]
        omega)
  rw [stopped.medium, Nat.zero_mul, List.take_zero, Disk.setSector, Disk.setSector,
    overwrite_nil, Nat.add_zero]
  exact congrArg (fun bytes => ({ disk with bytes := bytes } : Disk)) same

theorem StoppedAt.sectors {image : List UInt8} {left : Nat → UInt8} {done : Nat}
    (stopped : StoppedAt faults image disk disk' done left) :
    disk'.sectors (diskfsBaseLba disk) (done + 1) =
      image.take (done * ataSectorSize) ++ (List.range ataSectorSize).map left := by
  have before : done * ataSectorSize ≤ image.length :=
    (Nat.mul_le_mul_right _ stopped.inside.le).trans (Nat.div_mul_le_self _ _)
  have front : (image.take (done * ataSectorSize)).length = done * ataSectorSize := by
    rw [List.length_take, Nat.min_eq_left before]
  have place : (diskfsBaseLba disk + done) * ataSectorSize =
      diskfsBaseLba disk * ataSectorSize + (image.take (done * ataSectorSize)).length := by
    rw [front, Nat.add_mul]
  have count : (done + 1) * ataSectorSize =
      (image.take (done * ataSectorSize) ++ (List.range ataSectorSize).map left).length := by
    rw [List.length_append, front, List.length_map, List.length_range, Nat.succ_mul]
  rw [stopped.medium, Disk.setSector, Disk.setSector, Disk.sectors]
  dsimp only
  rw [place, overwrite_append, count, window_overwrite]

/-- **What a failed save leaves.**  A save that fails before its first write leaves the medium as
it was, so a later load returns what it would have returned before.  A save that fails with `-7`
stopped at one sector: the sectors before it hold the new image, that sector holds what the device
left, nothing else changed, and a later load is the earlier one if it was the first sector and
kept its bytes. -/
theorem diskfsSave_failure_leaves (holds : fs.Holds tree)
    (saved : diskfsSave faults alloc fs store disk = (code, disk')) (failed : code ≠ 0) :
    (code ≠ -7 → ∀ readFaults loadAlloc clock target,
      diskfsLoad readFaults loadAlloc clock target disk' =
        diskfsLoad readFaults loadAlloc clock target disk) ∧
    (code = -7 → ∃ done left,
      StoppedAt faults (fs.image (savedEntries tree)) disk disk' done left ∧
      (done = 0 → (∀ index < ataSectorSize,
          left index = disk.bytes (diskfsBaseLba disk * ataSectorSize + index)) →
        ∀ readFaults loadAlloc clock target,
          diskfsLoad readFaults loadAlloc clock target disk' =
            diskfsLoad readFaults loadAlloc clock target disk)) := by
  constructor
  · intro notWrite readFaults loadAlloc clock target
    rcases diskfsSave_failed holds saved failed with ⟨-, -, rfl⟩ | ⟨isWrite, -⟩
    · rfl
    · exact absurd isWrite notWrite
  · intro isWrite
    rcases diskfsSave_failed holds saved failed with ⟨low, -, -⟩ | ⟨-, done, left, stopped⟩
    · omega
    · refine ⟨done, left, stopped, ?_⟩
      rintro rfl kept readFaults loadAlloc clock target
      rw [stopped.unchanged kept]

end Failure

/-! ## A mixture that loads -/

theorem Fs.SameTree.symm {first second : Fs} (same : first.SameTree second) :
    second.SameTree first := by
  obtain ⟨left, right, holdsLeft, holdsRight, equal⟩ := same
  exact ⟨right, left, holdsRight, holdsLeft, equal.symm⟩

theorem Fs.Holds.unique {fs : Fs} {first second : OrderedTree Nat} (holds : fs.Holds first)
    (holds' : fs.Holds second) : first = second :=
  presents_unique fs.childrenOf first second
    (Option.some.inj (holds.root.symm.trans holds'.root)) holds.presents holds'.presents

theorem Fs.SameTree.trans {first second third : Fs} (same : first.SameTree second)
    (same' : second.SameTree third) : first.SameTree third := by
  obtain ⟨left, middle, holdsLeft, holdsMiddle, equal⟩ := same
  obtain ⟨middle', right, holdsMiddle', holdsRight, equal'⟩ := same'
  rw [holdsMiddle'.unique holdsMiddle] at equal'
  exact ⟨left, right, holdsLeft, holdsRight, equal.trans equal'⟩

def fileWith (content : List UInt8) : VfsNode :=
  { VfsNode.create 0 (some 0) (literal "a.txt") vfsFile with
    size := UInt32.ofNat content.length, data := some content }

theorem fileWith_wellFormed {content : List UInt8} (small : content.length < 2 ^ 32) :
    (fileWith content).WellFormed := by
  refine ⟨?_, ?_, ?_, fun bytes found => ?_⟩
  · change (nameField (literal "a.txt")).length < vfsNameMax
    decide
  · change (0 : UInt8) ∉ nameField (literal "a.txt")
    decide
  · exact Nat.zero_le _
  cases found
  change (UInt32.ofNat content.length).toNat ≤ content.length
  rw [UInt32.toNat_ofNat', Nat.mod_eq_of_lt small]

/-- Two one-file systems hold the same tree only if their files show the same attributes. -/
theorem oneFileTree_sameTree {first second : VfsNode} (childless : first.children = [])
    (childless' : second.children = []) (wellFormed : first.WellFormed)
    (wellFormed' : second.WellFormed)
    (same : (oneFileTree first).SameTree (oneFileTree second)) : first.view = second.view := by
  obtain ⟨left, right, holdsLeft, holdsRight, equal⟩ := same
  rw [holdsLeft.unique (oneFileTree_mounted childless wellFormed).toHolds,
    holdsRight.unique (oneFileTree_mounted childless' wellFormed').toHolds] at equal
  simp only [OrderedTree.map, OrderedTree.forestMap, OrderedTree.node.injEq, List.cons.injEq,
    and_true] at equal
  exact Option.some.inj equal.2

def oldContent : List UInt8 := List.replicate 600 97

def newContent : List UInt8 := List.replicate 600 98

/-- The contents on the medium when only the first sector of the new image was written. -/
def mixedContent : List UInt8 := List.replicate 426 98 ++ List.replicate 174 97

def oldDisk : Disk :=
  (diskfsSave .none (fun _ => true) (oneFileTree (fileWith oldContent)) .disabled
    (sampleDisk [])).2

def secondSectorFails : Faults where
  read := fun _ => false
  write := fun lba => if lba = 7 then some fun index => if index < 174 then 97 else 0 else none

def mixedDisk : Disk :=
  (diskfsSave secondSectorFails (fun _ => true) (oneFileTree (fileWith newContent)) .disabled
    oldDisk).2

def oneFile : OrderedTree Nat := .node 0 [.node 1 []]

theorem newSave_fails : (diskfsSave secondSectorFails (fun _ => true)
    (oneFileTree (fileWith newContent)) .disabled oldDisk).1 = -7 := by
  decide +kernel

theorem fileWith_mounted {content : List UInt8} (small : content.length < 2 ^ 32) :
    (oneFileTree (fileWith content)).Mounted oneFile :=
  oneFileTree_mounted rfl (fileWith_wellFormed small)

theorem mixedDisk_stopped : StoppedAt secondSectorFails
    ((oneFileTree (fileWith newContent)).image (savedEntries oneFile)) oldDisk mixedDisk 1
      fun index => if index < 174 then 97 else 0 := by
  have base : diskfsBaseLba oldDisk = 6 := by decide +kernel
  rcases diskfsSave_failed (fileWith_mounted (by decide +kernel)).toHolds
    (pair_of_fst newSave_fails) (by decide) with ⟨low, _, _⟩ | ⟨_, done, left, stopped⟩
  · exact absurd low (by decide)
  · have fault := stopped.fault
    rw [base] at fault
    change (if 6 + done = 7 then some _ else none) = some left at fault
    by_cases second : 6 + done = 7
    · rw [if_pos second] at fault
      cases fault
      obtain rfl : done = 1 := by omega
      exact stopped
    · rw [if_neg second] at fault
      cases fault

theorem mixedDisk_holdsImage :
    mixedDisk.HoldsImage (oneFileTree (fileWith mixedContent)) (savedEntries oneFile) := by
  have entries : savedEntries oneFile = [(-1, 0), (0, 1)] := by decide
  have stopped := mixedDisk_stopped
  have same : diskfsBaseLba mixedDisk = diskfsBaseLba oldDisk := by decide +kernel
  rw [entries] at stopped ⊢
  constructor
  case written =>
    have count : ((oneFileTree (fileWith mixedContent)).image [(-1, 0), (0, 1)]).length /
        ataSectorSize = 1 + 1 := by decide +kernel
    rw [same, count, stopped.sectors]
    decide +kernel
  all_goals decide +kernel

theorem oneFile_persistent (content : List UInt8) :
    (oneFileTree (fileWith content)).Persistent (oneFile.listing (-1) 0) := by
  intro entry member node found
  simp only [oneFile, OrderedTree.listing, OrderedTree.forestListing, List.append_nil,
    List.mem_cons, List.not_mem_nil, or_false] at member
  rcases member with rfl | rfl
  · cases found
    exact ⟨fun _ => rfl, fun sized => absurd rfl sized⟩
  · cases found
    exact ⟨fun notFile => absurd rfl notFile, fun _ => Or.inr ⟨rfl, Option.some_ne_none content⟩⟩

/-- A load of the mixture succeeds with a tree that is neither the old nor the new one. -/
theorem mixedDisk_loads :
    ∃ fs', diskfsLoad .none (fun _ => true) (fun _ => 0) sampleTree mixedDisk = .ret 1 fs' ∧
      ¬(oneFileTree (fileWith oldContent)).SameTree fs' ∧
      ¬(oneFileTree (fileWith newContent)).SameTree fs' := by
  have small : mixedContent.length < 2 ^ 32 := by decide +kernel
  have restored := @diskfsLoad_restores .none (fun _ => true) (fun _ => 0)
    (oneFileTree (fileWith mixedContent)) sampleTree mixedDisk oneFile 0
    (fileWith_mounted small) mixedDisk_holdsImage sampleTree_target (fun _ => rfl)
    (fun _ => rfl) (by decide) (oneFile_persistent mixedContent)
  obtain ⟨fs', loads, -, mixed⟩ := restored
  refine ⟨fs', loads, fun old => ?_, fun new => ?_⟩
  · have views := oneFileTree_sameTree rfl rfl (fileWith_wellFormed (by decide +kernel))
      (fileWith_wellFormed small) (old.trans mixed.symm)
    revert views
    decide +kernel
  · have views := oneFileTree_sameTree rfl rfl (fileWith_wellFormed (by decide +kernel))
      (fileWith_wellFormed small) (new.trans mixed.symm)
    revert views
    decide +kernel

/-- After a complete save, a save that stops at its second sector leaves an image that loads as
a tree that was never saved. -/
theorem diskfsSave_not_atomic :
    (diskfsSave .none (fun _ => true) (oneFileTree (fileWith oldContent)) .disabled
      (sampleDisk [])).1 = 0 ∧
    (diskfsSave secondSectorFails (fun _ => true) (oneFileTree (fileWith newContent)) .disabled
      oldDisk).1 = -7 ∧
    ∃ fs', diskfsLoad .none (fun _ => true) (fun _ => 0) sampleTree
        (diskfsSave secondSectorFails (fun _ => true) (oneFileTree (fileWith newContent)) .disabled
          oldDisk).2 = .ret 1 fs' ∧
      ¬(oneFileTree (fileWith oldContent)).SameTree fs' ∧
      ¬(oneFileTree (fileWith newContent)).SameTree fs' :=
  ⟨by decide +kernel, newSave_fails, mixedDisk_loads⟩

theorem diskfsSave_failure_leaves_mixture :
    ((-7 : Int) ≠ -7 → ∀ readFaults loadAlloc clock target,
      diskfsLoad readFaults loadAlloc clock target mixedDisk =
        diskfsLoad readFaults loadAlloc clock target oldDisk) ∧
    ((-7 : Int) = -7 → ∃ done left,
      StoppedAt secondSectorFails ((oneFileTree (fileWith newContent)).image
        (savedEntries oneFile)) oldDisk mixedDisk done left ∧
      (done = 0 → (∀ index < ataSectorSize,
          left index = oldDisk.bytes (diskfsBaseLba oldDisk * ataSectorSize + index)) →
        ∀ readFaults loadAlloc clock target,
          diskfsLoad readFaults loadAlloc clock target mixedDisk =
            diskfsLoad readFaults loadAlloc clock target oldDisk)) :=
  diskfsSave_failure_leaves (fileWith_mounted (by decide +kernel)).toHolds
    (pair_of_fst newSave_fails) (by decide)

end Trinux
