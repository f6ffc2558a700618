import Trinux.Fs.Operations
import Trinux.Fs.FileContents

namespace Trinux

open Bytes

/-!
# Room for the contents of a file

The contents of a file are replaced by setting its size to zero and writing from its beginning.  On
a medium without faults the write is in full if there are blocks or memory for it, and otherwise
nothing is written and the file is empty.
-/

/-! ## Free blocks -/

namespace Blockfs

def freeBlocks (store : Blockfs) : Nat :=
  (List.range store.totalBlocks).countP fun block => !store.bitmap block

/-- Marking one of the elements leaves one less that is unmarked. -/
theorem countP_mark {elements : List Nat} (once : elements.Nodup) {bitmap : Nat → Bool}
    {marked : Nat} (listed : marked ∈ elements) (free : bitmap marked = false) :
    (elements.countP fun other => !(other = marked || bitmap other)) + 1 =
      elements.countP fun other => !bitmap other := by
  induction elements with
  | nil => cases listed
  | cons first rest known =>
      rcases List.nodup_cons.mp once with ⟨absent, once'⟩
      rw [List.countP_cons, List.countP_cons]
      by_cases same : first = marked
      · have others : (rest.countP fun other => !(other = marked || bitmap other)) =
            rest.countP fun other => !bitmap other := by
          apply List.countP_congr
          intro other inside
          have different : other ≠ marked := fun equal => absent (same ▸ equal ▸ inside)
          simp [different]
        rw [others]
        simp [same, free]
      · have known' := known once' (by
          rcases List.mem_cons.mp listed with equal | inside
          · exact absurd equal.symm same
          · exact inside)
        simp only [same, decide_false, Bool.false_or]
        omega

theorem firstFree_eq_none {bitmap : Nat → Bool} {left index : Nat} :
    firstFree bitmap left index = none ↔
      ∀ block, index ≤ block → block < index + left → bitmap block = true := by
  induction left generalizing index with
  | zero =>
      simp only [firstFree, true_iff]
      omega
  | succ left known =>
      rw [firstFree]
      cases bit : bitmap index with
      | true =>
          rw [if_pos rfl, known]
          constructor
          · intro all block low high
            rcases Nat.eq_or_lt_of_le low with same | above
            · rwa [← same]
            · exact all block above (by omega)
          · exact fun all block low high => all block (by omega) (by omega)
      | false =>
          rw [if_neg Bool.false_ne_true]
          constructor
          · intro none_
            cases none_
          · intro all
            rw [all index (Nat.le_refl index) (by omega)] at bit
            cases bit

variable {store store' : Blockfs}

theorem allocBlock_eq_none (available : store.available = true) :
    store.allocBlock = none ↔ store.freeBlocks = 0 := by
  rw [allocBlock, if_neg (by simp [available]), Option.map_eq_none_iff, firstFree_eq_none,
    freeBlocks, List.countP_eq_zero]
  simp

theorem allocBlock_freeBlocks {block : Nat} (allocated : store.allocBlock = some (block, store')) :
    store'.freeBlocks + 1 = store.freeBlocks := by
  rcases allocBlock_cases allocated with ⟨-, inside, free, rfl⟩
  exact countP_mark List.nodup_range (List.mem_range.mpr inside) free

end Blockfs

/-- Blocks are added in full if there are as many free ones. -/
theorem growBlocks_enough_iff {faults : Faults} {missing : Nat} {blocks : List UInt32}
    {store : Blockfs} {disk : Disk} (available : store.available = true) :
    (growBlocks faults missing blocks store disk).1 = true ↔ missing ≤ store.freeBlocks := by
  induction missing generalizing blocks store disk with
  | zero => simp [growBlocks]
  | succ missing known =>
      rw [growBlocks]
      cases allocated : store.allocBlock with
      | none =>
          rw [(Blockfs.allocBlock_eq_none available).mp allocated]
          simp
      | some found =>
          have available' := (Blockfs.allocBlock_geometry allocated).available.trans available
          have fewer := Blockfs.allocBlock_freeBlocks allocated
          dsimp only
          rw [known available', ← fewer]
          omega

/-! ## Replacing the contents -/

section Room

variable (platform : Platform) (storage : Storage) (node : VfsNode)

/-- There are blocks for so many bytes, or memory for their list and enough free ones. -/
def Storage.BlocksFor (size : Nat) : Prop :=
  neededBlocks 0 size ≤ node.blockList.length ∨
    kmalloc (platform.alloc 0) (u32 (neededBlocks 0 size * 4)) = true ∧
      neededBlocks 0 size ≤ node.blockList.length + storage.store.freeBlocks

def Storage.HasRoom (size : Nat) : Prop :=
  if storage.UsesBlocks node then storage.BlocksFor platform node size
  else size ≤ node.capacity ∨ kmalloc (platform.alloc 0) (size + 64) = true

instance (size : Nat) : Decidable (storage.BlocksFor platform node size) :=
  inferInstanceAs (Decidable (_ ∨ _))

instance (size : Nat) : Decidable (storage.HasRoom platform node size) :=
  inferInstanceAs (Decidable (if storage.UsesBlocks node then storage.BlocksFor platform node size
    else size ≤ node.capacity ∨ kmalloc (platform.alloc 0) (size + 64) = true))

end Room

section Rewrite

variable {platform : Platform} {storage storage' : Storage} {id count fuel : Nat}
  {node old : VfsNode} {buffer bytes : List UInt8}

theorem ensureBlocks_enough_iff {nblocks : Nat} (available : storage.store.available = true) :
    (ensureBlocks platform nblocks node.blocks storage.store storage.disk).1 = true ↔
      nblocks ≤ node.blockList.length ∨ kmalloc (platform.alloc 0) (u32 (nblocks * 4)) = true ∧
        nblocks ≤ node.blockList.length + storage.store.freeBlocks := by
  rw [ensureBlocks]
  dsimp only
  change (if nblocks ≤ node.blockList.length then _ else _ : Bool × _).1 = true ↔ _
  by_cases enough : nblocks ≤ node.blockList.length
  · simp [enough]
  rw [if_neg enough]
  by_cases granted : kmalloc (platform.alloc 0) (u32 (nblocks * 4)) = true
  · rw [if_neg (by simp [granted])]
    dsimp only
    rw [growBlocks_enough_iff available]
    change nblocks - node.blockList.length ≤ _ ↔ _
    constructor
    · exact fun free => Or.inr ⟨granted, by omega⟩
    · rintro (listed | ⟨-, free⟩)
      · exact absurd listed enough
      · omega
  · rw [if_pos (by simp [granted])]
    simp [enough, granted]

/-- How many bytes were written: all of them, or none and the size is as it was. -/
def Storage.WroteAllOrNone (node : VfsNode) (id : Nat) (all : Prop) (size count : Nat)
    (storage' : Storage) : Prop :=
  all ∧ count = size ∨
    ¬all ∧ count = 0 ∧ (storage'.fs.node id).map VfsNode.size = some node.size

theorem Storage.setNode_size {old' : VfsNode} (found : storage.fs.node id = some old)
    (store : Blockfs) (disk : Disk) :
    (({ storage.setNode id old' with store := store, disk := disk } : Storage).fs.node id).map
      VfsNode.size = some old'.size := by
  rw [Storage.setNode, Fs.modify_node_self, found]
  rfl

theorem diskfileWrite_count (found : storage.fs.node id = some old)
    (available : storage.store.available = true) (layout : storage.store.Layout storage.disk)
    (lists : storage.store.Lists node.blockList)
    (fits : buffer.length + (blockSize - 1) < 2 ^ 32)
    (spare : platform.faults.Spare storage.store)
    (ran : diskfileWrite platform storage id node 0 buffer = some (count, storage')) :
    Storage.WroteAllOrNone node id (storage.BlocksFor platform node buffer.length) buffer.length
      count storage' := by
  have enoughIff := @ensureBlocks_enough_iff platform storage node
    (neededBlocks 0 buffer.length) available
  have longer := ensureBlocks_lengthened (neededBlocks 0 buffer.length) node.blocks available
    layout spare lists
  rw [diskfileWrite] at ran
  rcases outcome : ensureBlocks platform (neededBlocks 0 buffer.length) node.blocks
    storage.store storage.disk with ⟨enough, blocks, store, disk⟩
  rw [outcome] at ran longer enoughIff
  cases enough with
  | false =>
      cases ran
      refine Or.inr ⟨fun room => ?_, rfl, Storage.setNode_size found _ _⟩
      cases enoughIff.mpr room
  | true =>
      rcases Option.map_eq_some_iff.mp ran with ⟨⟨done, medium⟩, loop, result⟩
      have geometry := longer.geometry
      have place : 0 + buffer.length ≤ (blocks.getD []).length * blockSize :=
        Nat.le_trans (neededBlocks_room (by omega))
          (Nat.mul_le_mul_right _ (ensureBlocks_length outcome))
      rcases diskfileWriteLoop_bytes (geometry.available.trans available) (geometry.spare spare)
        longer.lists longer.layout (Nat.le_refl _) (by omega) place loop with ⟨all, -, -⟩
      cases result
      exact Or.inl ⟨enoughIff.mp rfl, all⟩

/-- `ramfs_write` from the beginning of a file in memory. -/
theorem bufferWrite_count (found : storage.fs.node id = some node)
    (fits : buffer.length + 64 < 2 ^ 32)
    (ran : bufferWrite platform storage id node 0 buffer = some (count, storage')) :
    Storage.WroteAllOrNone node id
      (buffer.length ≤ node.capacity ∨ kmalloc (platform.alloc 0) (buffer.length + 64) = true)
      buffer.length count storage' := by
  rw [bufferWrite, Nat.zero_add, u32_of_small (by omega)] at ran
  dsimp only at ran
  by_cases room : buffer.length ≤ node.capacity
  · rw [if_pos room] at ran
    rcases Option.map_eq_some_iff.mp ran with ⟨copied, -, result⟩
    cases result
    exact Or.inl ⟨Or.inl room, rfl⟩
  rw [if_neg room, u32_of_small fits, if_neg (by omega)] at ran
  by_cases granted : kmalloc (platform.alloc 0) (buffer.length + 64) = true
  · rw [if_neg (by simp [granted])] at ran
    split at ran
    · cases ran
    rcases Option.map_eq_some_iff.mp ran with ⟨copied, -, result⟩
    cases result
    exact Or.inl ⟨Or.inr granted, rfl⟩
  · rw [if_pos (by simp [granted])] at ran
    cases ran
    refine Or.inr ⟨not_or.mpr ⟨room, granted⟩, rfl, ?_⟩
    rw [found]
    rfl

theorem ramfsWrite_count (found : storage.fs.node id = some node)
    (holds : node.HoldsBytes storage.store storage.disk bytes)
    (fits : buffer.length + blockSize < 2 ^ 32) (spare : platform.faults.Spare storage.store)
    (ran : ramfsWrite platform storage id 0 buffer = some (count, storage')) :
    Storage.WroteAllOrNone node id (storage.HasRoom platform node buffer.length) buffer.length
      count storage' := by
  rw [blockSize] at fits
  have small : buffer.length + (blockSize - 1) < 2 ^ 32 := by
    rw [blockSize]
    omega
  rw [ramfsWrite, found] at ran
  dsimp only at ran
  rw [Storage.HasRoom]
  by_cases backed : node.diskBacked = true
  · have uses : storage.UsesBlocks node := Or.inl backed
    rw [if_pos uses]
    rw [if_pos backed] at ran
    rcases holds.onDisk backed with ⟨available, lists, -⟩
    exact diskfileWrite_count found available (holds.medium available) lists small spare ran
  rw [if_neg backed] at ran
  by_cases first : node.capacity = 0 ∧ storage.store.available = true
  · have uses : storage.UsesBlocks node := Or.inr first
    rw [if_pos uses]
    rw [if_pos first] at ran
    exact @diskfileWrite_count platform storage storage' id count
      { node with diskBacked := true } node buffer found first.2 (holds.medium first.2) holds.lists
      small spare ran
  · have uses : ¬storage.UsesBlocks node := not_or.mpr ⟨backed, first⟩
    rw [if_neg uses]
    rw [if_neg first] at ran
    exact bufferWrite_count found (by omega) ran

theorem writeAt_zero_nil (buffer : List UInt8) : writeAt [] 0 buffer = buffer := by
  by_cases empty : buffer = []
  · rw [writeAt, if_pos empty, empty]
  · rw [writeAt, if_neg empty]
    simp [splice]

/-- What becomes of a file whose contents are replaced: it holds the new bytes if there is room for
them, and else it is empty. -/
theorem rewrite_filled (found : storage.fs.node id = some node)
    (holds : node.HoldsBytes storage.store storage.disk bytes)
    (fits : buffer.length + blockSize < 2 ^ 32) (spare : platform.faults.Spare storage.store)
    (ran : rewrite fuel platform id buffer storage = some (count, storage')) :
    if storage.HasRoom platform node buffer.length then
      count = buffer.length ∧ storage'.FileHolds id buffer
    else buffer ≠ [] ∧ count = 0 ∧ (storage'.fs.node id).map VfsNode.size = some 0 := by
  have cut : (storage.truncate id).fs.node id = some node.truncate := by
    rw [Storage.truncate, Fs.modify_node_self, found]
    rfl
  have empty : node.truncate.HoldsBytes storage.store storage.disk [] := by
    rcases Session.FileHolds.truncate ⟨node, found, holds⟩ with ⟨after, isCut, empty⟩
    cases cut.symm.trans isCut
    exact empty
  rw [rewrite, vfsWrite, cut] at ran
  simp only [empty.ordinary] at ran
  have room : (storage.truncate id).HasRoom platform node.truncate buffer.length ↔
      storage.HasRoom platform node buffer.length := Iff.rfl
  rcases ramfsWrite_count cut empty fits spare ran with ⟨all, rfl⟩ | ⟨none_, rfl, size⟩
  · rw [if_pos (room.mp all)]
    refine ⟨rfl, ?_⟩
    have clean : CleanWrite platform (storage.truncate id) node.truncate 0 buffer := by
      refine ⟨?_, spare, fun _ => Nat.zero_le _, fun _ position _ low => absurd low (by omega)⟩
      rw [Storage.SumFits, blockSize] at *
      split
      · omega
      · omega
    have held := ramfsWrite_holds cut empty clean ran
    rwa [writeAt_zero_nil] at held
  · rw [if_neg (mt room.mpr none_)]
    refine ⟨?_, rfl, size⟩
    intro nothing
    apply none_
    rw [nothing, Storage.HasRoom, List.length_nil]
    split
    · exact Or.inl (Nat.zero_le _)
    · exact Or.inl (Nat.zero_le _)

end Rewrite

end Trinux
