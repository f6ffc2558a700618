import Trinux.Fs.Ramfs

namespace Trinux

open Bytes

/-!
# Saving the tree to the disk and loading it back

`diskfs_save` walks the tree in preorder into a growable heap buffer and writes
the buffer to the metadata tail of the medium.  `diskfs_load` reads that region
back, discards the current tree below the root and rebuilds it record by record.

The functions below follow `diskfs.c` statement by statement.  Every allocation
is a numbered site whose outcome is given by `alloc`, every sector command asks
`faults`, and each error code is returned with the state it leaves.  Where the C
code would run past a buffer the outcome is `wild`: the kernel's memory is then
unspecified.
-/

def diskfsMagic : UInt32 := 0x53464B4D

def diskfsVersion : UInt32 := 2

def diskfsMaxNodes : Nat := 16384

def diskfsMaxImage : Nat := 64 * 1024 * 1024

def diskfsBaseLba (disk : Disk) : Nat :=
  let total := disk.total.toNat
  if diskfsTailSectors + bootReserveSectors < total then total - diskfsTailSectors
  else
    let base := total - total / 4
    if total ≤ base then (if 1 < total then total - 1 else 0) else base

/-! ## The growable buffer -/

structure Buffer where
  bytes : List UInt8
  cap : Nat
  oom : Bool

/-- `while (newcap < need) newcap *= 2`; a 32-bit capacity doubles at most 32 times. -/
def growCap : (fuel cap need : Nat) → Nat
  | 0, cap, _ => cap
  | fuel + 1, cap, need => if cap < need then growCap fuel (cap * 2) need else cap

/-- `buf_ensure`.  The allocation site is named by the new capacity, which differs from one
growth of the buffer to the next. -/
def bufEnsure (alloc : Nat → Bool) (extra : Nat) (buffer : Buffer) : Buffer :=
  if buffer.oom then buffer
  else if buffer.bytes.length + extra ≤ buffer.cap then buffer
  else
    let newcap := growCap 32 (if buffer.cap = 0 then 4096 else buffer.cap * 2)
      (buffer.bytes.length + extra)
    if kmalloc (alloc newcap) newcap then { buffer with cap := newcap }
    else { buffer with oom := true }

def bufPut (alloc : Nat → Bool) (buffer : Buffer) (bytes : List UInt8) : Buffer :=
  let ensured := bufEnsure alloc bytes.length buffer
  if ensured.oom then ensured else { ensured with bytes := ensured.bytes ++ bytes }

/-! ## Saving -/

def VfsNode.dataSize (node : VfsNode) : UInt32 :=
  if node.type = vfsFile then node.size else 0

def VfsNode.listsBlocks (node : VfsNode) : Bool :=
  node.diskBacked && node.blocks.isSome

def VfsNode.payloadPuts (node : VfsNode) : List (List UInt8) :=
  if node.listsBlocks then
    le32 (UInt32.ofNat (node.blocks.getD []).length) :: (node.blocks.getD []).map le32
  else if node.dataSize ≠ 0 then
    match node.data with
    | some bytes => [bytes.take node.dataSize.toNat]
    | none => []
  else []

def VfsNode.recordPuts (node : VfsNode) (parentIdx : Int) : List (List UInt8) :=
  [le32 (UInt32.ofInt parentIdx), le32 node.type, le32 node.permissions, le32 node.ownerUid,
    le32 node.ownerGid, le32 node.dataSize, le32 (UInt32.ofNat node.name.length),
    le32 (if node.listsBlocks then 1 else 0), node.name] ++ node.payloadPuts

/-- `serialize_node`, with the buffer and the `order` array filled so far.  The fuel bounds the
recursion depth, which never exceeds the number of nodes already counted. -/
def serializeNode (alloc : Nat → Bool) (fs : Fs) :
    (fuel id : Nat) → (parentIdx : Int) → Buffer × List Nat → Buffer × List Nat
  | 0, _, _, state => state
  | fuel + 1, id, parentIdx, (buffer, order) =>
      match fs.node id with
      | none => (buffer, order)
      | some node =>
          node.children.foldl
            (fun state child =>
              if diskfsMaxNodes ≤ state.2.length then state
              else serializeNode alloc fs fuel child order.length state)
            ((node.recordPuts parentIdx).foldl (bufPut alloc) buffer, order ++ [id])

def patchU32 (bytes : List UInt8) (offset : Nat) (word : UInt32) : List UInt8 :=
  bytes.take offset ++ le32 word ++ bytes.drop (offset + 4)

def superblockPuts : List (List UInt8) :=
  [le32 diskfsMagic, le32 diskfsVersion, le32 0, le32 0]

def sectorsFor (length : Nat) : Nat := (length + ataSectorSize - 1) / ataSectorSize

def sealImage (bytes : List UInt8) (nodeCount : Nat) : List UInt8 :=
  patchU32 (patchU32 bytes 8 (UInt32.ofNat nodeCount)) 12 (UInt32.ofNat bytes.length) ++
    List.replicate (sectorsFor bytes.length * ataSectorSize - bytes.length) 0

def serializeTree (alloc : Nat → Bool) (fs : Fs) (root : Nat) : Buffer × List Nat :=
  serializeNode alloc fs diskfsMaxNodes root (-1)
    (superblockPuts.foldl (bufPut alloc) ⟨[], 0, false⟩, [])

/-- The part of `diskfs_save` between the walk and the first write: the padded image, or the
code with which the call returns. -/
def finishImage (alloc : Nat → Bool) (disk : Disk) (buffer : Buffer) (nodeCount : Nat) :
    Except Int (List UInt8) :=
  if buffer.oom then .error (-4)
  else if diskfsMaxImage < buffer.bytes.length then .error (-5)
  else if (bufEnsure alloc (sectorsFor buffer.bytes.length * ataSectorSize -
      buffer.bytes.length) buffer).oom then .error (-4)
  else if diskfsTailSectors < sectorsFor buffer.bytes.length then .error (-5)
  else if disk.total.toNat < diskfsBaseLba disk + sectorsFor buffer.bytes.length then .error (-6)
  else .ok (sealImage buffer.bytes nodeCount)

/-- The part of `diskfs_save` before the first write.  Allocation site 0 is the `order` array. -/
def buildImage (alloc : Nat → Bool) (fs : Fs) (disk : Disk) : Except Int (List UInt8) :=
  if !disk.present then .error (-1)
  else
    match fs.root with
    | none => .error (-2)
    | some root =>
        if !kmalloc (alloc 0) (4 * diskfsMaxNodes) then .error (-3)
        else
          finishImage alloc disk (serializeTree alloc fs root).1
            (serializeTree alloc fs root).2.length

/-- The part of `diskfs_save` from the first write on.  Allocation site 1 is the sector buffer
of the bitmap flush, whose result is ignored. -/
def writeImage (faults : Faults) (alloc : Nat → Bool) (store : Blockfs) (disk : Disk)
    (image : List UInt8) : Int × Disk :=
  match ataWriteLoop faults 32 (image.length / ataSectorSize) (diskfsBaseLba disk)
      (image.length / ataSectorSize) image disk with
  | (false, left) => (-7, left)
  | (true, written) =>
      (0, if store.available then store.flushBitmap faults (alloc 1) written else written)

def diskfsSave (faults : Faults) (alloc : Nat → Bool) (fs : Fs) (store : Blockfs)
    (disk : Disk) : Int × Disk :=
  match buildImage alloc fs disk with
  | .error code => (code, disk)
  | .ok image => writeImage faults alloc store disk image

/-! ## Loading -/

def wipeChildren : (fuel : Nat) → Fs → Nat → Fs
  | 0, fs, _ => fs
  | fuel + 1, fs, id =>
      ((fs.childrenOf id).foldl (fun fs child => (wipeChildren fuel fs child).free child) fs).modify
        id fun node => { node with children := [] }

structure RecordHeader where
  parentIdx : UInt32
  type : UInt32
  permissions : UInt32
  uid : UInt32
  gid : UInt32
  dataSize : UInt32
  nameLen : UInt32
  flags : UInt32
  deriving DecidableEq, Repr

def readHeader (img : List UInt8) (off : Nat) : RecordHeader where
  parentIdx := readU32 img off
  type := readU32 img (off + 4)
  permissions := readU32 img (off + 8)
  uid := readU32 img (off + 12)
  gid := readU32 img (off + 16)
  dataSize := readU32 img (off + 20)
  nameLen := readU32 img (off + 24)
  flags := readU32 img (off + 28)

def readBlocks (img : List UInt8) (off count : Nat) : List UInt32 :=
  (List.range count).map fun index => readU32 img (off + 4 * index)

/-- The variables of the loading loop: the cursor, the heap and the `map` array. -/
structure LoadState where
  off : Nat
  fs : Fs
  map : List Nat

inductive StepOutcome (α : Type) where
  | next (state : α)
  | fail (code : Int) (fs : Fs)
  | wild

def StepOutcome.bind {α β : Type} (outcome : StepOutcome α) (rest : α → StepOutcome β) :
    StepOutcome β :=
  match outcome with
  | .next state => rest state
  | .fail code fs => .fail code fs
  | .wild => .wild

@[simp] theorem StepOutcome.bind_next {α β : Type} (state : α) (rest : α → StepOutcome β) :
    (StepOutcome.next state).bind rest = rest state := rfl

@[simp] theorem StepOutcome.bind_fail {α β : Type} (code : Int) (fs : Fs)
    (rest : α → StepOutcome β) : (StepOutcome.fail code fs).bind rest = .fail code fs := rfl

theorem StepOutcome.bind_eq_next {α β : Type} {outcome : StepOutcome α}
    {rest : α → StepOutcome β} {result : β} (finished : outcome.bind rest = .next result) :
    ∃ state, outcome = .next state ∧ rest state = .next result := by
  cases outcome with
  | next state => exact ⟨state, rfl, finished⟩
  | fail code fs => cases finished
  | wild => cases finished

theorem StepOutcome.bind_eq_fail {α β : Type} {outcome : StepOutcome α}
    {rest : α → StepOutcome β} {code : Int} {fs : Fs}
    (failed : outcome.bind rest = .fail code fs) :
    outcome = .fail code fs ∨ ∃ state, outcome = .next state ∧ rest state = .fail code fs := by
  cases outcome with
  | next state => exact Or.inr ⟨state, rfl, failed⟩
  | fail code' fs' =>
      cases failed
      exact Or.inl rfl
  | wild => cases failed

inductive LoadOutcome where
  | ret (code : Int) (fs : Fs)
  | wild

/-- The node a record describes: the root for a negative parent index, else a new child of an
earlier record's node. -/
def loadNode (alloc : Nat → Bool) (clock : Nat → UInt32) (root i : Nat)
    (header : RecordHeader) (name : List UInt8) (state : LoadState) : StepOutcome (Nat × Fs) :=
  if header.parentIdx.toNat.testBit 31 then
    .next (root, state.fs.modify root fun node =>
      { node with name := nameField (if name = [] then literal "/" else name) })
  else if i ≤ header.parentIdx.toNat then .fail (-7) state.fs
  else
    match ramfsCreateNode (alloc (2 + 2 * i)) (clock i) state.fs
        (state.map.getD header.parentIdx.toNat root) name header.type with
    | none => .fail (-8) state.fs
    | some created => .next created

def RecordHeader.apply (header : RecordHeader) (node : VfsNode) : VfsNode :=
  { node with
    type := header.type
    permissions := header.permissions
    ownerUid := header.uid
    ownerGid := header.gid }

def loadPayload (granted : Bool) (img : List UInt8) (imageBytes : Nat) (header : RecordHeader)
    (id off : Nat) (fs : Fs) : StepOutcome (Nat × Fs) :=
  if header.flags &&& 1 ≠ 0 then
    if imageBytes < u32 (off + 4) then .fail (-7) fs
    else
      let count := (readU32 img off).toNat
      let off := off + 4
      if imageBytes < u32 (off + u32 (count * 4)) then .fail (-7) fs
      else if count ≠ 0 ∧ !kmalloc granted (u32 (count * 4)) then .fail (-9) fs
      else if imageBytes < off + count * 4 then .wild
      else
        .next (off + count * 4, fs.modify id fun node =>
          { node with
            blocks := if count ≠ 0 then some (readBlocks img off count) else node.blocks
            diskBacked := true
            size := header.dataSize })
  else if header.dataSize ≠ 0 then
    if imageBytes < u32 (off + header.dataSize.toNat) then .fail (-7) fs
    else if !kmalloc granted header.dataSize.toNat then .fail (-9) fs
    else if imageBytes < off + header.dataSize.toNat then .wild
    else
      .next (off + header.dataSize.toNat, fs.modify id fun node =>
        { node with
          data := some (slice img off header.dataSize.toNat)
          size := header.dataSize })
  else .next (off, fs)

/-- A record behind its fixed fields, which end at `off`.  Allocation sites `2 + 2 * i` and
`3 + 2 * i` are the node and the payload of record `i`. -/
def loadFields (alloc : Nat → Bool) (clock : Nat → UInt32) (img : List UInt8)
    (imageBytes root i : Nat) (header : RecordHeader) (off : Nat) (state : LoadState) :
    StepOutcome LoadState :=
  if imageBytes < u32 (off + header.nameLen.toNat) ∨ 64 ≤ header.nameLen.toNat then
    .fail (-7) state.fs
  else
    (loadNode alloc clock root i header (cString (slice img off header.nameLen.toNat))
        state).bind fun opened =>
      (loadPayload (alloc (3 + 2 * i)) img imageBytes header opened.1
          (off + header.nameLen.toNat) (opened.2.modify opened.1 header.apply)).bind fun filled =>
        .next ⟨filled.1, filled.2, state.map ++ [opened.1]⟩

def loadRecord (alloc : Nat → Bool) (clock : Nat → UInt32) (img : List UInt8)
    (imageBytes root i : Nat) (state : LoadState) : StepOutcome LoadState :=
  if imageBytes < u32 (state.off + 32) then .fail (-7) state.fs
  else
    loadFields alloc clock img imageBytes root i (readHeader img state.off) (state.off + 32)
      state

def loadRecords (alloc : Nat → Bool) (clock : Nat → UInt32) (img : List UInt8)
    (imageBytes root : Nat) : (remaining i : Nat) → LoadState → LoadOutcome
  | 0, _, state => .ret 1 state.fs
  | remaining + 1, i, state =>
      match loadRecord alloc clock img imageBytes root i state with
      | .fail code fs => .ret code fs
      | .wild => .wild
      | .next state => loadRecords alloc clock img imageBytes root remaining (i + 1) state

/-- What `diskfs_load` knows once the image is in memory and the `map` array is allocated. -/
structure LoadImage where
  nodeCount : Nat
  imageBytes : Nat
  img : List UInt8

/-- The part of `diskfs_load` before `wipe_children`: the image to rebuild from, or the code with
which the call returns.  Allocation sites 0 and 1 are the image buffer and the `map` array. -/
def readImageOver (transport : Transport) (faults : Faults) (alloc : Nat → Bool) (disk : Disk) :
    Except Int LoadImage :=
  if !disk.present then .error (-1)
  else
    match ataReadSectors faults disk (diskfsBaseLba disk) 1 with
    | none => .error (-2)
    | some sb =>
        if readU32 sb 0 ≠ diskfsMagic then .error 0
        else if readU32 sb 4 ≠ diskfsVersion then .error 0
        else
          let nodeCount := (readU32 sb 8).toNat
          let imageBytes := (readU32 sb 12).toNat
          if nodeCount = 0 ∨ diskfsMaxNodes < nodeCount then .error (-3)
          else if imageBytes < 16 ∨ diskfsMaxImage < imageBytes then .error (-3)
          else
            let sectors := sectorsFor imageBytes
            if !kmalloc (alloc 0) (sectors * ataSectorSize) then .error (-4)
            else
              match ataReadLoop transport faults disk 255 sectors (diskfsBaseLba disk) sectors with
              | none => .error (-5)
              | some img =>
                  if !kmalloc (alloc 1) (4 * nodeCount) then .error (-6)
                  else .ok ⟨nodeCount, imageBytes, img⟩

def readImage (faults : Faults) (alloc : Nat → Bool) (disk : Disk) : Except Int LoadImage :=
  readImageOver .ide faults alloc disk

def rebuild (alloc : Nat → Bool) (clock : Nat → UInt32) (fs : Fs) (image : LoadImage) :
    LoadOutcome :=
  match fs.root with
  | none => .wild
  | some root =>
      loadRecords alloc clock image.img image.imageBytes root image.nodeCount 0
        ⟨16, wipeChildren fs.next fs root, []⟩

def diskfsLoad (faults : Faults) (alloc : Nat → Bool) (clock : Nat → UInt32) (fs : Fs)
    (disk : Disk) : LoadOutcome :=
  match readImage faults alloc disk with
  | .error code => .ret code fs
  | .ok image => rebuild alloc clock fs image

/-- `diskfs_load` behind either driver: the commands for the image have up to 255 sectors, of which
AHCI moves 64.  `diskfsLoad` is the call behind IDE. -/
def diskfsLoadOver (transport : Transport) (faults : Faults) (alloc : Nat → Bool)
    (clock : Nat → UInt32) (fs : Fs) (disk : Disk) : LoadOutcome :=
  match readImageOver transport faults alloc disk with
  | .error code => .ret code fs
  | .ok image => rebuild alloc clock fs image

theorem diskfsLoadOver_ide (faults : Faults) (alloc : Nat → Bool) (clock : Nat → UInt32) (fs : Fs)
    (disk : Disk) :
    diskfsLoadOver .ide faults alloc clock fs disk = diskfsLoad faults alloc clock fs disk := rfl

end Trinux
