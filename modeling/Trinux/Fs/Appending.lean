import Trinux.Fs.FileContents

namespace Trinux

open Bytes

/-!
# Files beside each other

A write to one file leaves the bytes of a file in other blocks.  A file that is written block by
block from its start holds what was written, whatever its blocks held before and whichever
sectors fail, as long as every write reports all its bytes.
-/

/-! ## What a write takes -/

/-- What a write to an ordinary file does: free blocks are appended to its list, only sectors of
its blocks are written, no block is given back, and of the nodes only the contents of its own
change. -/
structure Storage.Written (storage : Storage) (id : Nat) (node node' : VfsNode)
    (added : List UInt32) (storage' : Storage) : Prop where
  fs : storage'.fs = storage.fs.modify id fun _ => node'
  contents : node.SameButContents node'
  blocks : node'.blockList = node.blockList ++ added
  geometry : storage.store.SameGeometry storage'.store
  fresh : ∀ block ∈ added, storage.store.bitmap block.toNat = false
  marked : ∀ block, storage.store.bitmap block = true → storage'.store.bitmap block = true
  disk : Disk.ChangedOnly (storage.store.listSectors node'.blockList) storage.disk storage'.disk

theorem mem_of_mem_visitedBlocks {blocks : List UInt32} {block : UInt32} {fuel : Nat} :
    ∀ {position left : Nat}, block ∈ visitedBlocks blocks fuel position left → block ∈ blocks := by
  induction fuel with
  | zero =>
      intro position left visited
      cases visited
  | succ fuel known =>
      intro position left visited
      rw [visitedBlocks] at visited
      split at visited
      · cases visited
      split at visited
      · cases visited
      · rename_i first listed
        rcases List.mem_cons.mp visited with rfl | later
        · exact List.mem_of_getElem? listed
        · exact known later

theorem Blockfs.listSectors_mono {store : Blockfs} {some more : List UInt32}
    (within : ∀ block ∈ some, block ∈ more) (lba : Nat) (inside : store.listSectors some lba) :
    store.listSectors more lba := by
  rcases inside with ⟨block, member, sector⟩
  exact ⟨block, within block member, sector⟩

section Take

variable {platform : Platform} {storage storage' : Storage} {id off count : Nat}
  {node : VfsNode} {buffer : List UInt8}

theorem diskfileWrite_takes {backed : Bool}
    (written : diskfileWrite platform storage id { node with diskBacked := backed } off buffer =
      some (count, storage')) :
    ∃ node' added, storage.Written id node node' added storage' := by
  rcases ensureBlocks_grown platform (neededBlocks off buffer.length) node.blocks storage.store
    storage.disk with ⟨added, grown⟩
  rw [diskfileWrite] at written
  rcases outcome : ensureBlocks platform (neededBlocks off buffer.length) node.blocks
    storage.store storage.disk with ⟨enough, blocks, store, disk⟩
  rw [outcome] at written grown
  have appended : blocks.getD [] = node.blockList ++ added := grown.appended
  have early : Disk.ChangedOnly (storage.store.listSectors (blocks.getD [])) storage.disk disk := by
    apply grown.disk.mono
    apply Blockfs.listSectors_mono
    intro block member
    rw [appended]
    exact List.mem_append_right _ member
  have marked : ∀ block, storage.store.bitmap block = true → store.bitmap block = true :=
    fun block set => (grown.marked block).mpr (Or.inl set)
  have fresh : ∀ block ∈ added, storage.store.bitmap block.toNat = false :=
    fun block member => (grown.fresh block member).1
  cases enough with
  | false =>
      cases written
      exact ⟨_, added, rfl, rfl, appended, grown.geometry, fresh, marked, early⟩
  | true =>
      rcases Option.map_eq_some_iff.mp written with ⟨⟨done, medium⟩, loop, result⟩
      cases result
      refine ⟨_, added, rfl, rfl, appended, grown.geometry, fresh, marked, early.trans ?_⟩
      apply (diskfileWriteLoop_changedOnly platform store (blocks.getD []) loop).mono
      intro lba inside
      have old := (grown.geometry.listSectors _ lba).mp inside
      exact Blockfs.listSectors_mono (fun block => mem_of_mem_visitedBlocks) lba old

theorem bufferWrite_takes (found : storage.fs.node id = some node)
    (written : bufferWrite platform storage id node off buffer = some (count, storage')) :
    ∃ node', storage.Written id node node' [] storage' := by
  rcases bufferWrite_cases found written with ⟨node', rfl, same, blocks⟩
  exact ⟨node', rfl, same, blocks.trans (List.append_nil _).symm, .refl _,
    fun _ member => absurd member List.not_mem_nil, fun _ set => set, .refl _ _⟩

theorem ramfsWrite_takes (found : storage.fs.node id = some node)
    (written : ramfsWrite platform storage id off buffer = some (count, storage')) :
    ∃ node' added, storage.Written id node node' added storage' := by
  rw [ramfsWrite, found] at written
  dsimp only at written
  by_cases backed : node.diskBacked = true
  · rw [if_pos backed] at written
    have same : node = { node with diskBacked := node.diskBacked } := rfl
    rw [same] at written
    exact diskfileWrite_takes written
  rw [if_neg backed] at written
  by_cases promoted : node.capacity = 0 ∧ storage.store.available = true
  · rw [if_pos promoted] at written
    exact diskfileWrite_takes written
  · rw [if_neg promoted] at written
    rcases bufferWrite_takes found written with ⟨node', taken⟩
    exact ⟨node', [], taken⟩

end Take

/-! ## That a write returns -/

section Return

variable {platform : Platform} {storage : Storage} {id off : Nat} {node : VfsNode}
  {buffer : List UInt8}

theorem diskfileWrite_returns (start : VfsNode)
    (fits : off + buffer.length + (blockSize - 1) < 2 ^ 32) :
    ∃ outcome, diskfileWrite platform storage id start off buffer = some outcome := by
  rw [diskfileWrite]
  rcases ensured : ensureBlocks platform (neededBlocks off buffer.length) start.blocks
    storage.store storage.disk with ⟨_ | _, blocks, store, disk⟩
  · exact ⟨_, rfl⟩
  · have room := (neededBlocks_room fits).trans
      (Nat.mul_le_mul_right blockSize (ensureBlocks_length ensured))
    have loop := (blockAccesses_inBounds_iff platform store (blocks.getD []) buffer.length off
      buffer disk).mp (blockAccesses_inBounds (by omega) room)
    rcases Option.ne_none_iff_exists'.mp loop with ⟨written, ran⟩
    dsimp only
    rw [ran]
    exact ⟨_, rfl⟩

theorem copyIn_returns (room : off + buffer.length ≤ node.capacity) :
    ∃ copied, node.copyIn off buffer = some copied := by
  rw [VfsNode.copyIn, if_pos room]
  split
  · exact ⟨_, rfl⟩
  · exact ⟨_, rfl⟩

theorem bufferWrite_returns (fits : off + buffer.length + (blockSize - 1) < 2 ^ 32) :
    ∃ outcome, bufferWrite platform storage id node off buffer = some outcome := by
  have chunk : blockSize = 4096 := rfl
  rw [bufferWrite, u32_of_small (by omega : off + buffer.length < 2 ^ 32)]
  dsimp only
  rw [u32_of_small (by omega)]
  by_cases room : off + buffer.length ≤ node.capacity
  · rcases copyIn_returns room with ⟨copied, ran⟩
    rw [if_pos room, ran]
    exact ⟨_, rfl⟩
  rw [if_neg room, if_neg (by omega)]
  split
  · exact ⟨_, rfl⟩
  have rounded := le_alignUp (by omega : off + buffer.length + 64 + 7 < 2 ^ 32)
  rw [if_neg (by omega)]
  have longer : off + buffer.length ≤
      (node.regrow (off + buffer.length + 64) platform).capacity := by
    rw [VfsNode.regrow_capacity]
    omega
  rcases copyIn_returns longer with ⟨copied, ran⟩
  rw [ran]
  exact ⟨_, rfl⟩

/-- A write whose sums fit stays inside of what it provides. -/
theorem ramfsWrite_returns (found : storage.fs.node id = some node)
    (fits : off + buffer.length + (blockSize - 1) < 2 ^ 32) :
    ∃ outcome, ramfsWrite platform storage id off buffer = some outcome := by
  rw [ramfsWrite, found]
  dsimp only
  split
  · exact diskfileWrite_returns node fits
  split
  · exact diskfileWrite_returns _ fits
  · exact bufferWrite_returns fits

end Return

/-! ## The file that is not written -/

def BlocksApart (first second : List UInt32) : Prop := ∀ block ∈ first, block ∉ second

section Beside

variable {storage storage' : Storage} {id other : Nat} {node node' before : VfsNode}
  {added : List UInt32} {bytes : List UInt8}

theorem Blockfs.Layout.changed {store : Blockfs} {disk disk' : Disk} {sectors : Nat → Prop}
    (layout : store.Layout disk) (changed : Disk.ChangedOnly sectors disk disk') :
    store.Layout disk' := by
  refine ⟨changed.present.trans layout.present, ?_, layout.dataStart, ?_, layout.bitmapFits,
    layout.blocksMapped⟩
  · rw [changed.total]
    exact layout.large
  · rw [changed.total]
    exact layout.blocksFit

/-- Writing the blocks of one list leaves the bytes of another. -/
theorem blockByte_apart {store : Blockfs} {disk disk' : Disk} {blocks others : List UInt32}
    (changed : Disk.ChangedOnly (store.listSectors others) disk disk')
    (apart : BlocksApart blocks others) (position : Nat) :
    store.blockByte disk' blocks position = store.blockByte disk blocks position := by
  rw [Blockfs.blockByte, Blockfs.blockByte]
  cases entry : blocks[position / blockSize]? with
  | none => rfl
  | some block =>
      apply changed.bytes
      rintro ⟨other, member, inside⟩
      have same : block.toNat = other.toNat := by
        have small := Nat.mod_lt position (by decide : 0 < blockSize)
        simp only [Blockfs.blockSectors, Blockfs.blockLba, sectorsPerBlock, blockSize,
          ataSectorSize] at small inside
        omega
      rw [← UInt32.toNat_inj.mp same] at member
      exact apart block (List.mem_of_getElem? entry) member

theorem Storage.Written.apart (written : storage.Written id node node' added storage')
    {blocks : List UInt32} (lists : storage.store.Lists blocks)
    (apart : BlocksApart blocks node.blockList) : BlocksApart blocks node'.blockList := by
  intro block member listed
  rw [written.blocks] at listed
  rcases List.mem_append.mp listed with old | new
  · exact apart block member old
  · have free := written.fresh block new
    rw [lists.marked block member] at free
    cases free

theorem Storage.Written.beside (written : storage.Written id node node' added storage')
    (holds : before.HoldsBytes storage.store storage.disk bytes)
    (apart : BlocksApart before.blockList node.blockList) :
    before.HoldsBytes storage'.store storage'.disk bytes := by
  have geometry := written.geometry
  refine ⟨holds.ordinary, holds.size, fun available => ?_, fun backed => ?_, holds.inMemory,
    fun position inside => ?_⟩
  · rw [geometry.available] at available
    exact (geometry.layout (holds.medium available)).changed written.disk
  · rcases holds.onDisk backed with ⟨available, lists, room⟩
    refine ⟨geometry.available.trans available, ⟨lists.distinct, fun block member => ?_,
      fun block member => written.marked _ (lists.marked block member)⟩, room⟩
    rw [geometry.total]
    exact lists.inside block member
  · rw [← holds.content position inside, VfsNode.contentByte, VfsNode.contentByte,
      geometry.blockByte, blockByte_apart written.disk (written.apart holds.lists apart)]

end Beside

/-! ## The file that is written -/

section Append

variable {platform : Platform} {storage storage' : Storage} {id : Nat}
  {node old : VfsNode} {buffer bytes : List UInt8}

theorem Blockfs.readBlock_length {faults : Faults} {store : Blockfs} {disk : Disk} {block : Nat}
    (read : store.readBlock faults disk block = some bytes) : bytes.length = blockSize := by
  rw [Blockfs.readBlock] at read
  split at read
  · rw [ataReadSectors] at read
    split at read
    · rw [← Option.some.inj read, Disk.sectors_length]
      rfl
    · cases read
  · cases read

theorem blockBuffer_length (platform : Platform) (store : Blockfs) (disk : Disk)
    (block chunk : Nat) : (blockBuffer platform store disk block chunk).length = blockSize := by
  have memory : (platform.memory blockSize).length = blockSize := by
    rw [Platform.memory, List.length_map, List.length_range]
  rw [blockBuffer]
  split
  · exact memory
  · cases read : store.readBlock platform.faults disk block with
    | none =>
        rw [Option.getD_none]
        exact memory
    | some bytes =>
        rw [Option.getD_some]
        exact Blockfs.readBlock_length read

/-- The loop of `diskfile_write` on bytes within one block, from its start on. -/
theorem diskfileWriteLoop_block {store : Blockfs} {blocks : List UInt32} {fuel position : Nat}
    {block : UInt32} {disk disk' : Disk} (listed : blocks[position / blockSize]? = some block)
    (aligned : position % blockSize = 0) (short : buffer.length ≤ blockSize) (some : buffer ≠ [])
    (ran : diskfileWriteLoop platform store blocks (fuel + 1) position buffer disk =
      Option.some (buffer.length, disk')) :
    ∃ content : List UInt8, content.length = blockSize ∧
      (∀ index < buffer.length, byte content index = byte buffer index) ∧
      disk' = disk.setSector (store.blockLba block.toNat) content := by
  have positive : buffer.length ≠ 0 := fun none_ => some (List.eq_nil_of_length_eq_zero none_)
  have whole : min (blockSize - position % blockSize) buffer.length = buffer.length := by
    rw [aligned, Nat.sub_zero, Nat.min_eq_right short]
  rw [diskfileWriteLoop, if_neg positive, listed] at ran
  dsimp only at ran
  rw [whole, List.take_length, List.drop_length, aligned] at ran
  have length := blockBuffer_length platform store disk block.toNat buffer.length
  have full : (splice (blockBuffer platform store disk block.toNat buffer.length) 0 buffer).length =
      blockSize := by
    rw [splice_length _ (by rw [length, Nat.zero_add]; exact short), length]
  have shown : ∀ index < buffer.length, byte (splice (blockBuffer platform store disk block.toNat
      buffer.length) 0 buffer) index = byte buffer index := by
    intro index below
    rw [byte_splice (Nat.zero_le _), if_pos ⟨Nat.zero_le _, by omega⟩, Nat.sub_zero]
  generalize splice (blockBuffer platform store disk block.toNat buffer.length) 0 buffer = content
    at ran full shown
  refine ⟨content, full, shown, ?_⟩
  cases outcome : store.writeBlock platform.faults block.toNat content disk with
  | mk succeeded medium =>
      rw [outcome] at ran
      cases succeeded with
      | false =>
          have none_ := congrArg Prod.fst (Option.some.inj ran)
          exact absurd none_.symm positive
      | true =>
          have rest : diskfileWriteLoop platform store blocks fuel (u32 (position + buffer.length))
              [] medium = Option.some (0, medium) := by
            cases fuel with
            | zero => rfl
            | succ fuel => rw [diskfileWriteLoop, if_pos List.length_nil]
          dsimp only at ran
          rw [rest] at ran
          cases ran
          rw [Blockfs.writeBlock] at outcome
          split at outcome
          · have done : (ataWriteSectors platform.faults (store.blockLba block.toNat)
                sectorsPerBlock content disk).1 = true := congrArg Prod.fst outcome
            rw [← ataWriteSectors_bytes _ _ _ _ _ full done]
            exact (congrArg Prod.snd outcome).symm
          · cases outcome

/-- The positions of a chunk behind whole blocks, and those before it. -/
theorem block_of_chunk {start length position : Nat} (aligned : start % blockSize = 0)
    (short : length ≤ blockSize) (below : position < start + length) :
    (start ≤ position → position / blockSize = start / blockSize ∧
      position % blockSize = position - start) ∧
      (position < start → position / blockSize ≠ start / blockSize) := by
  simp only [blockSize] at aligned short ⊢
  omega

theorem diskfileWrite_appends (found : storage.fs.node id = some old)
    (holds : node.HoldsBytes storage.store storage.disk bytes) (backed : node.diskBacked = true)
    (aligned : bytes.length % blockSize = 0) (short : buffer.length ≤ blockSize)
    (some : buffer ≠ []) (fits : bytes.length + buffer.length + (blockSize - 1) < 2 ^ 32)
    (ran : diskfileWrite platform storage id node bytes.length buffer =
      Option.some (buffer.length, storage')) :
    storage'.FileHolds id (writeAt bytes bytes.length buffer) := by
  rcases holds.onDisk backed with ⟨available, lists, room⟩
  have layout := holds.medium available
  have positive : 0 < buffer.length := List.length_pos_iff.mpr some
  rcases ensureBlocks_grown platform (neededBlocks bytes.length buffer.length) node.blocks
    storage.store storage.disk with ⟨added, grown⟩
  rw [diskfileWrite] at ran
  rcases outcome : ensureBlocks platform (neededBlocks bytes.length buffer.length) node.blocks
    storage.store storage.disk with ⟨enough, blocks, store, disk⟩
  rw [outcome] at ran grown
  have appended : blocks.getD [] = node.blockList ++ added := grown.appended
  have geometry : storage.store.SameGeometry store := grown.geometry
  cases enough with
  | false =>
      have none_ := congrArg Prod.fst (Option.some.inj ran)
      exact absurd none_ (Nat.ne_of_lt positive)
  | true =>
      rcases Option.map_eq_some_iff.mp ran with ⟨⟨done, medium⟩, loop, result⟩
      have all : done = buffer.length := congrArg Prod.fst result
      subst all
      cases result
      have needed := ensureBlocks_length outcome
      have place : bytes.length + buffer.length ≤ (blocks.getD []).length * blockSize :=
        Nat.le_trans (neededBlocks_room fits) (Nat.mul_le_mul_right _ needed)
      have inside : bytes.length / blockSize < (blocks.getD []).length :=
        Nat.div_lt_of_lt_mul (by rw [Nat.mul_comm]; omega)
      have listed := List.getElem?_eq_getElem inside
      have lists' : store.Lists (blocks.getD []) := by
        have fresh := grown.fresh
        rw [appended]
        refine ⟨List.nodup_append.mpr ⟨lists.distinct, grown.distinct, ?_⟩, ?_, ?_⟩
        · rintro block first other second rfl
          have marked := lists.marked block first
          rw [(fresh block second).1] at marked
          cases marked
        · intro block member
          rw [geometry.total]
          rcases List.mem_append.mp member with first | second
          · exact lists.inside block first
          · exact (fresh block second).2
        · intro block member
          apply (grown.marked _).mpr
          rcases List.mem_append.mp member with first | second
          · exact Or.inl (lists.marked block first)
          · exact Or.inr ⟨block, second, rfl⟩
      have layout' : store.Layout disk := (geometry.layout layout).changed grown.disk
      have apart : BlocksApart node.blockList added := by
        intro block first second
        have marked := lists.marked block first
        rw [(grown.fresh block second).1] at marked
        cases marked
      have kept : ∀ position, store.blockByte disk node.blockList position =
          storage.store.blockByte storage.disk node.blockList position := by
        intro position
        rw [geometry.blockByte, blockByte_apart grown.disk apart]
      rcases Nat.exists_eq_succ_of_ne_zero (Nat.ne_of_gt positive) with ⟨fuel, isFuel⟩
      nth_rewrite 1 [isFuel] at loop
      rcases diskfileWriteLoop_block listed aligned short some loop with
        ⟨content, full, shown, rfl⟩
      have block : blockSize = 4096 := rfl
      have last : u32 (bytes.length + buffer.length) = bytes.length + buffer.length :=
        u32_of_small (by omega)
      have nothing : buffer = [] → bytes.length ≤ bytes.length := fun _ => Nat.le_refl _
      have size := writeAt_length_of nothing
      have zeros : buffer ≠ [] → ∀ position, bytes.length ≤ position → position < bytes.length →
          storage.store.blockByte storage.disk node.blockList position = 0 :=
        fun _ position behind before => absurd before (Nat.not_lt.mpr behind)
      have held : ∀ position < bytes.length,
          storage.store.blockByte storage.disk node.blockList position = byte bytes position := by
        intro position below
        rw [← holds.content position below, VfsNode.contentByte, if_pos backed]
      have written : ∀ position < (writeAt bytes bytes.length buffer).length,
          store.blockByte (disk.setSector (store.blockLba ((blocks.getD [])[bytes.length /
            blockSize]).toNat) content) (blocks.getD []) position =
          if bytes.length ≤ position ∧ position < bytes.length + buffer.length then
            byte buffer (position - bytes.length)
          else storage.store.blockByte storage.disk node.blockList position := by
        intro position below
        rw [size] at below
        have inChunk : position < bytes.length + buffer.length := by omega
        rcases block_of_chunk aligned short inChunk with ⟨here, before⟩
        rw [Blockfs.blockByte_write lists'.distinct listed full]
        by_cases new : bytes.length ≤ position
        · rw [if_pos (here new).1, if_pos ⟨new, inChunk⟩, (here new).2]
          exact shown _ (by omega)
        · have old := Nat.not_le.mp new
          have held : position / blockSize < node.blockList.length :=
            Nat.div_lt_of_lt_mul (by rw [Nat.mul_comm]; omega)
          rw [if_neg (before old), if_neg (fun within => new within.1), ← kept position,
            appended, Blockfs.blockByte, Blockfs.blockByte, List.getElem?_append_left held]
      rw [last]
      refine Storage.FileHolds.set found ⟨holds.ordinary, ?_, fun _ => layout'.setSector _ _,
        fun _ => ⟨geometry.available.trans available, lists', ?_⟩, fun memory => ?_, ?_⟩
      · rw [VfsNode.extend_size_toNat _ (by omega), size]
        exact congrArg (max · _) holds.size
      · rw [size]
        exact Nat.max_le.mpr ⟨Nat.le_trans (Nat.le_add_right _ _) place, place⟩
      · exact absurd (backed.symm.trans memory) (by decide)
      · refine byte_written held nothing zeros fun position below => ?_
        rw [VfsNode.contentByte]
        exact (if_pos backed).trans (written position below)

/-- A write of everything behind whole blocks, to a file in memory or in blocks. -/
theorem ramfsWrite_appends (found : storage.fs.node id = some node)
    (holds : node.HoldsBytes storage.store storage.disk bytes)
    (aligned : bytes.length % blockSize = 0) (short : buffer.length ≤ blockSize)
    (some : buffer ≠ []) (fits : bytes.length + buffer.length + (blockSize - 1) < 2 ^ 32)
    (ran : ramfsWrite platform storage id bytes.length buffer =
      Option.some (buffer.length, storage')) :
    storage'.FileHolds id (writeAt bytes bytes.length buffer) := by
  rw [ramfsWrite, found] at ran
  dsimp only at ran
  by_cases backed : node.diskBacked = true
  · rw [if_pos backed] at ran
    exact diskfileWrite_appends found holds backed aligned short some fits ran
  have memory := Bool.eq_false_iff.mpr backed
  rw [if_neg backed] at ran
  by_cases first : node.capacity = 0 ∧ storage.store.available = true
  · rw [if_pos first] at ran
    exact diskfileWrite_appends found (holds.promoted memory first) rfl aligned short some fits ran
  · rw [if_neg first] at ran
    have chunk : blockSize = 4096 := rfl
    refine bufferWrite_holds found holds memory (by omega) (Or.inr (by omega))
      (fun _ => Nat.le_refl _) (fun _ position behind before => ?_) ran
    exact absurd before (Nat.not_lt.mpr behind)

end Append

end Trinux
