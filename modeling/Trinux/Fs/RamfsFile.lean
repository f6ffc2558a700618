import Trinux.Fs.Ramfs

namespace Trinux

open Bytes

/-!
# File contents

A file keeps its contents either in a heap buffer or in disk blocks.  It turns
to disk blocks at its first write if the block store is available, and it then
stays there.  Blocks are written in place, one at a time, each preceded by a read
unless the whole block is replaced.

Offsets and lengths are 32-bit.  Where a sum wraps around and the C code would
leave a buffer or a block list, the result is `none`: the kernel's memory is then
unspecified.
-/

/-- What an operation of the file system meets: failing sectors, which allocations succeed, the
clock, and the contents of memory that the code uses without having written it. -/
structure Platform where
  faults : Faults
  alloc : Nat → Bool
  now : UInt32
  junk : Nat → UInt8

def Platform.ideal : Platform where
  faults := .none
  alloc := fun _ => true
  now := 0
  junk := fun _ => 0

def Platform.memory (platform : Platform) (size : Nat) : List UInt8 :=
  (List.range size).map platform.junk

/-- The static variables of `fat16.c`; of the boot sector only the fields the driver uses. -/
structure FatVolume where
  partitionLba : Nat
  sectorsPerCluster : Nat
  fatCount : Nat
  rootDirEntries : Nat
  sectorsPerFat : Nat
  fatStartLba : Nat
  rootDirLba : Nat
  dataStartLba : Nat
  rootDirSectors : Nat
  totalClusters : Nat
  mounted : Bool
  deriving DecidableEq, Repr

def FatVolume.unmounted : FatVolume := ⟨0, 0, 0, 0, 0, 0, 0, 0, 0, 0, false⟩

/-- The state of the file system layer: the nodes, the block store, the medium, the FAT driver
and the generator behind the random device. -/
structure Storage where
  fs : Fs
  store : Blockfs
  disk : Disk
  fat : FatVolume
  randState : UInt32

def Storage.setNode (storage : Storage) (id : Nat) (node : VfsNode) : Storage :=
  { storage with fs := storage.fs.modify id fun _ => node }

/-! ## Disk blocks -/

def VfsNode.blockList (node : VfsNode) : List UInt32 := node.blocks.getD []

/-- The loop of `ensure_blocks`: whether all blocks were added, and what was added. -/
def growBlocks (faults : Faults) :
    (missing : Nat) → List UInt32 → Blockfs → Disk → Bool × List UInt32 × Blockfs × Disk
  | 0, blocks, store, disk => (true, blocks, store, disk)
  | missing + 1, blocks, store, disk =>
      match store.allocBlock with
      | none => (false, blocks, store, disk)
      | some (block, store) =>
          growBlocks faults missing (blocks ++ [UInt32.ofNat block]) store
            (store.writeBlock faults block (List.replicate blockSize 0) disk).2

/-- `ensure_blocks` on a block list: whether there are enough, the list, the store, the medium. -/
def ensureBlocks (platform : Platform) (nblocks : Nat) (blocks : Option (List UInt32))
    (store : Blockfs) (disk : Disk) : Bool × Option (List UInt32) × Blockfs × Disk :=
  let old := blocks.getD []
  if nblocks ≤ old.length then (true, blocks, store, disk)
  else if !kmalloc (platform.alloc 0) (u32 (nblocks * 4)) then (false, blocks, store, disk)
  else
    let grown := growBlocks platform.faults (nblocks - old.length) old store disk
    (grown.1, some grown.2.1, grown.2.2)

/-- The loop of `diskfile_read`.  Every round consumes a byte, so the fuel is the length. -/
def diskfileReadLoop (faults : Faults) (store : Blockfs) (disk : Disk) (blocks : List UInt32) :
    (fuel position left : Nat) → List UInt8
  | 0, _, _ => []
  | fuel + 1, position, left =>
      if left = 0 then []
      else
        match blocks[position / blockSize]? with
        | none => []
        | some block =>
            match store.readBlock faults disk block.toNat with
            | none => []
            | some bytes =>
                let chunk := min (blockSize - position % blockSize) left
                slice bytes (position % blockSize) chunk ++
                  diskfileReadLoop faults store disk blocks fuel (position + chunk) (left - chunk)

def diskfileRead (platform : Platform) (storage : Storage) (node : VfsNode) (off size : Nat) :
    List UInt8 :=
  if node.size.toNat ≤ off then []
  else
    let size := min size (node.size.toNat - off)
    diskfileReadLoop platform.faults storage.store storage.disk node.blockList size off size

/-- The block buffer of `diskfile_write` before the new bytes are copied in.  A read that fails
is not noticed and leaves the buffer unspecified. -/
def blockBuffer (platform : Platform) (store : Blockfs) (disk : Disk) (block chunk : Nat) :
    List UInt8 :=
  if chunk = blockSize then platform.memory blockSize
  else (store.readBlock platform.faults disk block).getD (platform.memory blockSize)

def diskfileWriteLoop (platform : Platform) (store : Blockfs) (blocks : List UInt32) :
    (fuel position : Nat) → (buffer : List UInt8) → Disk → Option (Nat × Disk)
  | 0, _, _, disk => some (0, disk)
  | fuel + 1, position, buffer, disk =>
      if buffer.length = 0 then some (0, disk)
      else
        match blocks[position / blockSize]? with
        | none => none
        | some block =>
            let chunk := min (blockSize - position % blockSize) buffer.length
            let bytes := splice (blockBuffer platform store disk block.toNat chunk)
              (position % blockSize) (buffer.take chunk)
            match store.writeBlock platform.faults block.toNat bytes disk with
            | (false, left) => some (0, left)
            | (true, written) =>
                (diskfileWriteLoop platform store blocks fuel (u32 (position + chunk))
                  (buffer.drop chunk) written).map fun rest => (chunk + rest.1, rest.2)

def VfsNode.extend (node : VfsNode) (last : Nat) (now : UInt32) : VfsNode :=
  { node with
    size := if node.size.toNat < last then UInt32.ofNat last else node.size
    modified := now }

/-- The number of blocks that `diskfile_write` asks for; the sums wrap around. -/
def neededBlocks (off size : Nat) : Nat :=
  u32 (u32 (off + size) + blockSize - 1) / blockSize

def diskfileWrite (platform : Platform) (storage : Storage) (id : Nat) (node : VfsNode)
    (off : Nat) (buffer : List UInt8) : Option (Nat × Storage) :=
  match ensureBlocks platform (neededBlocks off buffer.length) node.blocks storage.store
      storage.disk with
  | (false, blocks, store, disk) =>
      some (0, { storage.setNode id { node with blocks := blocks } with
        store := store, disk := disk })
  | (true, blocks, store, disk) =>
      (diskfileWriteLoop platform store (blocks.getD []) buffer.length off buffer disk).map
        fun written =>
          (written.1, { storage.setNode id ({ node with blocks := blocks }.extend
              (u32 (off + written.1)) platform.now) with
            store := store, disk := written.2 })

/-! ## The callbacks of ordinary nodes -/

def ramfsRead (platform : Platform) (storage : Storage) (id off size : Nat) :
    Option (List UInt8) :=
  match storage.fs.node id with
  | none => none
  | some node =>
      if node.diskBacked then some (diskfileRead platform storage node off size)
      else
        match node.data with
        | none => some []
        | some bytes =>
            if node.size.toNat ≤ off then some []
            else
              let size := min size (node.size.toNat - off)
              if off + size ≤ bytes.length then some (slice bytes off size) else none

def VfsNode.capacity (node : VfsNode) : Nat := (node.data.getD []).length

def VfsNode.copyIn (node : VfsNode) (off : Nat) (buffer : List UInt8) : Option VfsNode :=
  if buffer.length = 0 then some node
  else if off + buffer.length ≤ node.capacity then
    some { node with data := node.data.map fun bytes => splice bytes off buffer }
  else none

/-- `krealloc` of the heap buffer: the old bytes, then memory that was not written. -/
def VfsNode.regrow (node : VfsNode) (newcap : Nat) (platform : Platform) : VfsNode :=
  { node with
    data := some ((node.data.getD []).take newcap ++
      (platform.memory newcap).drop (min node.capacity newcap)) }

/-- `ramfs_write` on a node that keeps its contents in memory.  A new capacity that wraps around
to zero frees the buffer but keeps the pointer to it, and one that the allocator rounds up past
the range gets a buffer that is too short. -/
def bufferWrite (platform : Platform) (storage : Storage) (id : Nat) (node : VfsNode) (off : Nat)
    (buffer : List UInt8) : Option (Nat × Storage) :=
  let needed := u32 (off + buffer.length)
  let newcap := u32 (needed + 64)
  let finish := fun node : VfsNode => (node.copyIn off buffer).map fun node =>
    (buffer.length, storage.setNode id (node.extend needed platform.now))
  if needed ≤ node.capacity then finish node
  else if newcap = 0 ∧ node.data.isSome then none
  else if !kmalloc (platform.alloc 0) newcap then some (0, storage)
  else if buffer.length ≠ 0 ∧ alignUp newcap < off + buffer.length then none
  else finish (node.regrow newcap platform)

def ramfsWrite (platform : Platform) (storage : Storage) (id off : Nat) (buffer : List UInt8) :
    Option (Nat × Storage) :=
  match storage.fs.node id with
  | none => none
  | some node =>
      if node.diskBacked then diskfileWrite platform storage id node off buffer
      else if node.capacity = 0 ∧ storage.store.available then
        diskfileWrite platform storage id { node with diskBacked := true } off buffer
      else bufferWrite platform storage id node off buffer

end Trinux
