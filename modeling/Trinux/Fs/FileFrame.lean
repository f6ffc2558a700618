import Trinux.Fs.Vfs

namespace Trinux

open Bytes

/-!
# What a write can change

A write to a file changes the fields of its own node that describe contents, the
bits of blocks it allocates, and the sectors of the blocks it visits.  Everything
else of the file system layer is as it was.
-/

/-! ## The blocks a write visits -/

def visitedBlocks (blocks : List UInt32) : (fuel position left : Nat) → List UInt32
  | 0, _, _ => []
  | fuel + 1, position, left =>
      if left = 0 then []
      else
        match blocks[position / blockSize]? with
        | none => []
        | some block =>
            let chunk := min (blockSize - position % blockSize) left
            block :: visitedBlocks blocks fuel (u32 (position + chunk)) (left - chunk)

def writtenBlocks (platform : Platform) (storage : Storage) (blocks : Option (List UInt32))
    (off size : Nat) : List UInt32 :=
  let grown := (ensureBlocks platform (neededBlocks off size) blocks storage.store
    storage.disk).2.1.getD []
  grown.drop (blocks.getD []).length ++ visitedBlocks grown size off size

def Blockfs.listSectors (store : Blockfs) (blocks : List UInt32) (lba : Nat) : Prop :=
  ∃ block ∈ blocks, store.blockSectors block.toNat lba

/-! ## Allocating blocks -/

theorem Blockfs.SameGeometry.listSectors {first second : Blockfs}
    (same : first.SameGeometry second) (blocks : List UInt32) (lba : Nat) :
    second.listSectors blocks lba ↔ first.listSectors blocks lba := by
  simp only [Blockfs.listSectors, same.blockSectors]

/-- What adding blocks changes: free blocks are marked and appended to the list, and only their
sectors are written. -/
structure Grown (blocks : List UInt32) (store : Blockfs) (disk : Disk) (added : List UInt32)
    (result : List UInt32 × Blockfs × Disk) : Prop where
  appended : result.1 = blocks ++ added
  geometry : store.SameGeometry result.2.1
  fresh : ∀ block ∈ added, store.bitmap block.toNat = false ∧ block.toNat < store.totalBlocks
  distinct : added.Nodup
  marked : ∀ block, result.2.1.bitmap block = true ↔
    store.bitmap block = true ∨ ∃ new ∈ added, new.toNat = block
  disk : Disk.ChangedOnly (store.listSectors added) disk result.2.2

theorem Grown.none (blocks : List UInt32) (store : Blockfs) (disk : Disk) :
    Grown blocks store disk [] (blocks, store, disk) :=
  ⟨(List.append_nil _).symm, .refl _, by simp, List.nodup_nil, by simp, .refl _ _⟩

theorem growBlocks_grown (faults : Faults) (missing : Nat) (blocks : List UInt32)
    (store : Blockfs) (disk : Disk) :
    ∃ added, Grown blocks store disk added (growBlocks faults missing blocks store disk).2 := by
  induction missing generalizing blocks store disk with
  | zero => exact ⟨[], Grown.none blocks store disk⟩
  | succ missing known =>
      rw [growBlocks]
      cases allocated : store.allocBlock with
      | none => exact ⟨[], Grown.none blocks store disk⟩
      | some pair =>
          rcases pair with ⟨block, store'⟩
          have same := Blockfs.allocBlock_geometry allocated
          rcases Blockfs.allocBlock_cases allocated with ⟨-, below, free, after⟩
          have number : (UInt32.ofNat block).toNat = block := by
            rw [UInt32.toNat_ofNat', Nat.mod_eq_of_lt (Nat.lt_trans below store.totalFits)]
          have marks : ∀ other, store'.bitmap other = true ↔
              other = block ∨ store.bitmap other = true := by
            intro other
            rw [after]
            simp
          rcases known (blocks ++ [UInt32.ofNat block]) store'
            (store'.writeBlock faults block (List.replicate blockSize 0) disk).2 with
            ⟨added, rest⟩
          refine ⟨UInt32.ofNat block :: added, ?_, same.trans rest.geometry, ?_, ?_, ?_, ?_⟩
          · rw [rest.appended, List.append_assoc]
            rfl
          · intro other member
            rcases List.mem_cons.mp member with rfl | later
            · rw [number]
              exact ⟨free, below⟩
            · rcases rest.fresh other later with ⟨unmarked, inside⟩
              rw [same.total] at inside
              refine ⟨Bool.eq_false_iff.mpr fun set => ?_, inside⟩
              rw [Bool.eq_false_iff] at unmarked
              exact unmarked ((marks _).mpr (Or.inr set))
          · apply List.nodup_cons.mpr
            refine ⟨fun again => ?_, rest.distinct⟩
            rcases rest.fresh _ again with ⟨unmarked, -⟩
            rw [number, Bool.eq_false_iff] at unmarked
            exact unmarked ((marks block).mpr (Or.inl rfl))
          · intro other
            rw [rest.marked other, marks other]
            constructor
            · rintro ((rfl | set) | ⟨new, member, rfl⟩)
              · exact Or.inr ⟨_, List.mem_cons_self, number⟩
              · exact Or.inl set
              · exact Or.inr ⟨new, List.mem_cons_of_mem _ member, rfl⟩
            · rintro (set | ⟨new, member, rfl⟩)
              · exact Or.inl (Or.inr set)
              · rcases List.mem_cons.mp member with rfl | later
                · exact Or.inl (Or.inl number)
                · exact Or.inr ⟨new, later, rfl⟩
          · have first : Disk.ChangedOnly (store.listSectors (UInt32.ofNat block :: added)) disk
                (store'.writeBlock faults block (List.replicate blockSize 0) disk).2 := by
              apply (store'.writeBlock_changedOnly faults block _ disk).mono
              intro lba inside
              refine ⟨_, List.mem_cons_self, ?_⟩
              rw [number]
              exact (same.blockSectors block lba).mp inside
            refine first.trans (rest.disk.mono ?_)
            rintro lba ⟨other, member, inside⟩
            exact ⟨other, List.mem_cons_of_mem _ member, (same.blockSectors _ lba).mp inside⟩

theorem ensureBlocks_grown (platform : Platform) (nblocks : Nat) (blocks : Option (List UInt32))
    (store : Blockfs) (disk : Disk) :
    ∃ added, Grown (blocks.getD []) store disk added
      ((ensureBlocks platform nblocks blocks store disk).2.1.getD [],
        (ensureBlocks platform nblocks blocks store disk).2.2) := by
  unfold ensureBlocks
  simp only
  split
  · exact ⟨[], Grown.none _ store disk⟩
  split
  · exact ⟨[], Grown.none _ store disk⟩
  · exact growBlocks_grown platform.faults _ _ store disk

/-! ## Writing blocks -/

/-- The loop of `diskfile_write` changes the sectors of the blocks it visits. -/
theorem diskfileWriteLoop_changedOnly (platform : Platform) (store : Blockfs)
    (blocks : List UInt32) {fuel position : Nat} {buffer : List UInt8} {disk : Disk}
    {count : Nat} {disk' : Disk}
    (written : diskfileWriteLoop platform store blocks fuel position buffer disk =
      some (count, disk')) :
    Disk.ChangedOnly (store.listSectors (visitedBlocks blocks fuel position buffer.length))
      disk disk' := by
  induction fuel generalizing position buffer disk count with
  | zero =>
      cases written
      exact .refl _ _
  | succ fuel known =>
      rw [diskfileWriteLoop] at written
      rw [visitedBlocks]
      by_cases empty : buffer.length = 0
      · rw [if_pos empty] at written
        cases written
        exact .refl _ _
      rw [if_neg empty] at written ⊢
      cases entry : blocks[position / blockSize]? with
      | none =>
          rw [entry] at written
          cases written
      | some block =>
          rw [entry] at written
          simp only at written ⊢
          generalize chunkEq : min (blockSize - position % blockSize) buffer.length = chunk
            at written ⊢
          generalize splice (blockBuffer platform store disk block.toNat chunk)
            (position % blockSize) (buffer.take chunk) = bytes at written
          have here : Disk.ChangedOnly (store.listSectors (block :: visitedBlocks blocks fuel
              (u32 (position + chunk)) (buffer.length - chunk))) disk
              (store.writeBlock platform.faults block.toNat bytes disk).2 :=
            (store.writeBlock_changedOnly platform.faults block.toNat bytes disk).mono
              fun lba inside => ⟨block, List.mem_cons_self, inside⟩
          cases outcome : store.writeBlock platform.faults block.toNat bytes disk with
          | mk succeeded medium =>
              rw [outcome] at written here
              cases succeeded with
              | false =>
                  cases written
                  exact here
              | true =>
                  rcases Option.map_eq_some_iff.mp written with ⟨rest, later, result⟩
                  cases result
                  have after := known later
                  rw [List.length_drop] at after
                  apply here.trans
                  apply after.mono
                  rintro lba ⟨other, member, inside⟩
                  exact ⟨other, List.mem_cons_of_mem _ member, inside⟩

/-! ## Writing files -/

/-- The second node differs from the first in the fields that describe contents at most. -/
def VfsNode.SameButContents (first second : VfsNode) : Prop :=
  second = { first with
    size := second.size
    modified := second.modified
    data := second.data
    blocks := second.blocks
    diskBacked := second.diskBacked }

/-- What a write to an ordinary file changes: the contents fields of its node, the bitmap, and
the given sectors. -/
structure FileWritten (storage : Storage) (id : Nat) (node : VfsNode) (sectors : Nat → Prop)
    (storage' : Storage) : Prop where
  node : ∃ node', node.SameButContents node' ∧ storage'.fs = storage.fs.modify id fun _ => node'
  geometry : storage.store.SameGeometry storage'.store
  disk : Disk.ChangedOnly sectors storage.disk storage'.disk
  fat : storage'.fat = storage.fat
  rand : storage'.randState = storage.randState

def ramfsSectors (platform : Platform) (storage : Storage) (node : VfsNode) (off size : Nat) :
    Nat → Prop :=
  if node.diskBacked = true ∨ node.capacity = 0 ∧ storage.store.available = true then
    storage.store.listSectors (writtenBlocks platform storage node.blocks off size)
  else fun _ => False

section Write

variable {platform : Platform} {storage storage' : Storage} {id off count : Nat}
  {node : VfsNode} {buffer : List UInt8}

theorem diskfileWrite_written {backed : Bool}
    (written : diskfileWrite platform storage id { node with diskBacked := backed } off buffer =
      some (count, storage')) :
    FileWritten storage id node
      (storage.store.listSectors (writtenBlocks platform storage node.blocks off buffer.length))
      storage' := by
  rcases ensureBlocks_grown platform (neededBlocks off buffer.length) node.blocks storage.store
    storage.disk with ⟨added, grown⟩
  have listed : writtenBlocks platform storage node.blocks off buffer.length =
      added ++ visitedBlocks ((ensureBlocks platform (neededBlocks off buffer.length) node.blocks
        storage.store storage.disk).2.1.getD []) buffer.length off buffer.length := by
    have appended : (ensureBlocks platform (neededBlocks off buffer.length) node.blocks
        storage.store storage.disk).2.1.getD [] = node.blocks.getD [] ++ added := grown.appended
    rw [writtenBlocks, appended, List.drop_left]
  have early : Disk.ChangedOnly (storage.store.listSectors (writtenBlocks platform storage
      node.blocks off buffer.length)) storage.disk (ensureBlocks platform
      (neededBlocks off buffer.length) node.blocks storage.store storage.disk).2.2.2 := by
    apply grown.disk.mono
    rintro lba ⟨block, member, inside⟩
    refine ⟨block, ?_, inside⟩
    rw [listed]
    exact List.mem_append_left _ member
  have geometry := grown.geometry
  rw [diskfileWrite] at written
  rcases outcome : ensureBlocks platform (neededBlocks off buffer.length) node.blocks
    storage.store storage.disk with ⟨enough, blocks, store, disk⟩
  rw [outcome] at written early geometry listed
  cases enough with
  | false =>
      cases written
      refine ⟨⟨_, ?_, rfl⟩, geometry, early, rfl, rfl⟩
      rfl
  | true =>
      rcases Option.map_eq_some_iff.mp written with ⟨⟨done, medium⟩, loop, result⟩
      cases result
      refine ⟨⟨_, ?_, rfl⟩, geometry, early.trans ?_, rfl, rfl⟩
      · rfl
      apply (diskfileWriteLoop_changedOnly platform store (blocks.getD []) loop).mono
      rintro lba ⟨block, member, inside⟩
      refine ⟨block, ?_, (geometry.blockSectors _ _).mp inside⟩
      rw [listed]
      exact List.mem_append_right _ member

theorem VfsNode.copyIn_cases {node node' : VfsNode} (copied : node.copyIn off buffer = some node') :
    node' = { node with data := node'.data } ∧
      (buffer.length = 0 ∧ node' = node ∨
        buffer.length ≠ 0 ∧ off + buffer.length ≤ node.capacity ∧
          node'.data = node.data.map fun bytes => splice bytes off buffer) := by
  rw [copyIn] at copied
  by_cases empty : buffer.length = 0
  · rw [if_pos empty] at copied
    cases copied
    exact ⟨rfl, Or.inl ⟨empty, rfl⟩⟩
  · rw [if_neg empty] at copied
    by_cases inside : off + buffer.length ≤ node.capacity
    · rw [if_pos inside] at copied
      cases copied
      exact ⟨rfl, Or.inr ⟨empty, inside, rfl⟩⟩
    · rw [if_neg inside] at copied
      cases copied

theorem Fs.modify_same {fs : Fs} (found : fs.node id = some node) :
    fs.modify id (fun _ => node) = fs := by
  have nodes : (fs.modify id fun _ => node).node = fs.node := by
    funext other
    by_cases same : other = id
    · rw [same, modify_node_self, found, Option.map_some]
    · exact modify_node_of_ne fs _ same
  exact congrArg (fun node => ({ fs with node := node } : Fs)) nodes

/-- A write to a file in RAM changes one node, in its contents at most. -/
theorem bufferWrite_cases (found : storage.fs.node id = some node)
    (written : bufferWrite platform storage id node off buffer = some (count, storage')) :
    ∃ node', storage' = storage.setNode id node' ∧ node.SameButContents node' ∧
      node'.blockList = node.blockList := by
  have finish : ∀ start : VfsNode, start = { node with data := start.data } →
      (start.copyIn off buffer).map (fun node => (buffer.length, storage.setNode id
        (node.extend (u32 (off + buffer.length)) platform.now))) = some (count, storage') →
      ∃ node', storage' = storage.setNode id node' ∧ node.SameButContents node' ∧
        node'.blockList = node.blockList := by
    intro start same copied
    rcases Option.map_eq_some_iff.mp copied with ⟨copy, isCopy, result⟩
    have meta_ := (VfsNode.copyIn_cases isCopy).1
    cases result
    refine ⟨_, rfl, ?_, ?_⟩
    · rw [VfsNode.SameButContents, VfsNode.extend, meta_, same]
    · rw [VfsNode.blockList, VfsNode.blockList, VfsNode.extend, meta_, same]
  rw [bufferWrite] at written
  simp only at written
  by_cases room : u32 (off + buffer.length) ≤ node.capacity
  · rw [if_pos room] at written
    exact finish node rfl written
  rw [if_neg room] at written
  by_cases freed : u32 (u32 (off + buffer.length) + 64) = 0 ∧ node.data.isSome = true
  · rw [if_pos freed] at written
    cases written
  rw [if_neg freed] at written
  by_cases memory : (!kmalloc (platform.alloc 0) (u32 (u32 (off + buffer.length) + 64))) = true
  · rw [if_pos memory] at written
    cases written
    exact ⟨node, congrArg (fun fs => { storage with fs }) (Fs.modify_same found).symm, rfl, rfl⟩
  rw [if_neg memory] at written
  split at written
  · cases written
  · exact finish (node.regrow _ platform) rfl written

theorem bufferWrite_written (found : storage.fs.node id = some node)
    (written : bufferWrite platform storage id node off buffer = some (count, storage')) :
    FileWritten storage id node (fun _ => False) storage' := by
  rcases bufferWrite_cases found written with ⟨node', rfl, same, -⟩
  exact ⟨⟨node', same, rfl⟩, .refl _, .refl _ _, rfl, rfl⟩

theorem ramfsWrite_written
    (written : ramfsWrite platform storage id off buffer = some (count, storage')) :
    ∃ node, storage.fs.node id = some node ∧
      FileWritten storage id node (ramfsSectors platform storage node off buffer.length)
        storage' := by
  rw [ramfsWrite] at written
  cases found : storage.fs.node id with
  | none =>
      rw [found] at written
      cases written
  | some node =>
      rw [found] at written
      simp only at written
      refine ⟨node, rfl, ?_⟩
      rw [ramfsSectors]
      by_cases backed : node.diskBacked = true
      · rw [if_pos backed] at written
        rw [if_pos (Or.inl backed)]
        have same : node = { node with diskBacked := node.diskBacked } := rfl
        rw [same] at written
        exact diskfileWrite_written written
      rw [if_neg backed] at written
      by_cases promoted : node.capacity = 0 ∧ storage.store.available = true
      · rw [if_pos promoted] at written
        rw [if_pos (Or.inr promoted)]
        exact diskfileWrite_written written
      · rw [if_neg promoted] at written
        rw [if_neg (by tauto)]
        exact bufferWrite_written found written

end Write

/-! ## Writing through the callbacks -/

/-- The second node differs from the first in what a write to a file or to a file of a FAT
volume sets. -/
def VfsNode.Rewritten (first second : VfsNode) : Prop :=
  second = { first with
    ownerGid := second.ownerGid
    size := second.size
    modified := second.modified
    data := second.data
    blocks := second.blocks
    diskBacked := second.diskBacked }

theorem VfsNode.SameButContents.rewritten {first second : VfsNode}
    (same : first.SameButContents second) : first.Rewritten second := by
  rw [Rewritten, same]

theorem fatNodeWrite_rewritten {faults : Faults} {fuel off : Nat} {fat : FatVolume}
    {node : VfsNode} {buffer : List UInt8} {disk : Disk} {result : Nat × VfsNode × Disk}
    (written : fatNodeWrite faults fuel fat node off buffer disk = some result) :
    result.2.1 = { node with ownerGid := result.2.1.ownerGid, size := result.2.1.size } := by
  rw [fatNodeWrite] at written
  split at written
  · cases written
    rfl
  simp only at written
  generalize (if node.ownerGid.toNat % 2 ^ 16 < 2 then fatAllocCluster faults fat disk
    else (node.ownerGid.toNat % 2 ^ 16, disk)) = start at written
  split at written
  · cases written
    rfl
  split at written
  · cases written
  rcases outcome : fatAdvance faults fat (off / (fat.sectorsPerCluster * 512 % 2 ^ 16)) start.1
    start.2 with ⟨reached, medium⟩
  rw [outcome] at written
  cases reached with
  | none =>
      cases written
      split <;> rfl
  | some cluster =>
      rcases Option.map_eq_some_iff.mp written with ⟨chain, -, same⟩
      cases same
      split <;> rfl

theorem vfsWrite_rewritten {platform : Platform} {fuel : Nat} {storage storage' : Storage}
    {id off count : Nat} {buffer : List UInt8}
    (written : vfsWrite platform fuel storage id off buffer = some (count, storage')) :
    ∃ node node', storage.fs.node id = some node ∧ node.Rewritten node' ∧
      storage'.fs = storage.fs.modify id fun _ => node' := by
  rw [vfsWrite] at written
  cases found : storage.fs.node id with
  | none =>
      rw [found] at written
      cases written
  | some node =>
      rw [found] at written
      simp only at written
      have untouched : storage.fs = storage.fs.modify id fun _ => node :=
        (Fs.modify_same found).symm
      cases callbacks : node.ops with
      | ramfs =>
          rw [callbacks] at written
          rcases ramfsWrite_written written with ⟨node', found', changes⟩
          rw [found] at found'
          cases found'
          rcases changes.node with ⟨after, same, fs⟩
          exact ⟨node, after, rfl, same.rewritten, fs⟩
      | fatFile =>
          rw [callbacks] at written
          rcases Option.map_eq_some_iff.mp written with ⟨result, fatWritten, same⟩
          cases same
          refine ⟨node, result.2.1, rfl, ?_, rfl⟩
          rw [VfsNode.Rewritten, fatNodeWrite_rewritten fatWritten]
      | devZero | devNull | devRandom | devSda | fatDirectory =>
          rw [callbacks] at written
          cases written
          exact ⟨node, node, rfl, rfl, untouched⟩

theorem vfsRead_state {platform : Platform} {fuel : Nat} {storage storage' : Storage}
    {id off size : Nat} {bytes : List UInt8}
    (read : vfsRead platform fuel storage id off size = some (bytes, storage')) :
    storage' = { storage with randState := storage'.randState } := by
  rw [vfsRead] at read
  cases found : storage.fs.node id with
  | none =>
      rw [found] at read
      cases read
  | some node =>
      rw [found] at read
      simp only at read
      cases callbacks : node.ops with
      | ramfs | fatFile =>
          rw [callbacks] at read
          rcases Option.map_eq_some_iff.mp read with ⟨result, -, same⟩
          cases same
          rfl
      | devZero | devNull | devRandom | devSda | fatDirectory =>
          rw [callbacks] at read
          cases read
          rfl

end Trinux
