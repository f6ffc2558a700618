import Trinux.Fs.BlockBytes
import Trinux.Fs.References
import Trinux.Fs.WriteBounds

namespace Trinux

open Bytes

/-!
# Files as arrays of bytes

An ordinary file holds an array of bytes, in its buffer or in its blocks.  Reads deliver the bytes
of the array and writes change it, except that nothing is cleared behind the end of a file: neither
when it is truncated, nor in a buffer that `krealloc` made longer.  A write that starts behind the
end then shows in the gap what is there.
-/

/-! ## Files as byte arrays -/

def VfsNode.contentByte (node : VfsNode) (store : Blockfs) (disk : Disk) (position : Nat) :
    UInt8 :=
  if node.diskBacked then store.blockByte disk node.blockList position
  else byte (node.data.getD []) position

structure VfsNode.HoldsBytes (node : VfsNode) (store : Blockfs) (disk : Disk)
    (bytes : List UInt8) : Prop where
  ordinary : node.ops = .ramfs
  size : node.size.toNat = bytes.length
  medium : store.available = true → store.Layout disk
  onDisk : node.diskBacked = true → store.available = true ∧ store.Lists node.blockList ∧
    bytes.length ≤ node.blockList.length * blockSize
  inMemory : node.diskBacked = false → node.blockList = [] ∧ bytes.length ≤ node.capacity
  content : ∀ position < bytes.length,
    node.contentByte store disk position = byte bytes position

def Storage.FileHolds (storage : Storage) (id : Nat) (bytes : List UInt8) : Prop :=
  ∃ node, storage.fs.node id = some node ∧
    node.HoldsBytes storage.store storage.disk bytes

def Storage.spareByte (platform : Platform) (storage : Storage) (node : VfsNode)
    (position : Nat) : UInt8 :=
  if storage.UsesBlocks node then storage.store.blockByte storage.disk node.blockList position
  else if position < node.capacity then byte (node.data.getD []) position
  else platform.junk position

/-- A write on which a file behaves like an array of bytes: its sum fits, the blocks do not fail,
and what it leaves between the end of the file and its offset is zero; a write of nothing does
not start behind the end. -/
structure CleanWrite (platform : Platform) (storage : Storage) (node : VfsNode) (off : Nat)
    (buffer : List UInt8) : Prop where
  fits : storage.SumFits node off buffer.length
  spare : platform.faults.Spare storage.store
  nothing : buffer = [] → off ≤ node.size.toNat
  zeros : buffer ≠ [] → ∀ position, node.size.toNat ≤ position → position < off →
    storage.spareByte platform node position = 0

theorem VfsNode.extend_size_toNat (node : VfsNode) {last : Nat} (small : last < 2 ^ 32)
    (now : UInt32) : (node.extend last now).size.toNat = max node.size.toNat last := by
  rw [VfsNode.extend]
  simp only
  split
  · rw [UInt32.toNat_ofNat_of_lt' small]
    omega
  · omega

section Holding

variable {store : Blockfs} {disk : Disk} {node : VfsNode} {bytes : List UInt8}

theorem VfsNode.HoldsBytes.lists (holds : node.HoldsBytes store disk bytes) :
    store.Lists node.blockList := by
  cases backed : node.diskBacked with
  | true => exact (holds.onDisk backed).2.1
  | false =>
      rw [(holds.inMemory backed).1]
      exact ⟨List.nodup_nil, fun _ member => absurd member List.not_mem_nil,
        fun _ member => absurd member List.not_mem_nil⟩

/-- A file that is in memory and without a buffer is as well one of no blocks. -/
theorem VfsNode.HoldsBytes.promoted (holds : node.HoldsBytes store disk bytes)
    (memory : node.diskBacked = false) (first : node.capacity = 0 ∧ store.available = true) :
    ({ node with diskBacked := true } : VfsNode).HoldsBytes store disk bytes := by
  have inside := (holds.inMemory memory).2
  refine ⟨holds.ordinary, holds.size, holds.medium, fun _ => ⟨first.2, holds.lists, by omega⟩,
    fun memory => ?_, fun position below => ?_⟩
  · cases memory
  · omega

end Holding

section Write

variable {platform : Platform} {storage storage' : Storage} {id off count : Nat}
  {node old : VfsNode} {buffer bytes : List UInt8}

theorem Storage.FileHolds.set (found : storage.fs.node id = some old) {store : Blockfs}
    {disk : Disk} (holds : node.HoldsBytes store disk bytes) :
    ({ storage.setNode id node with store := store, disk := disk } : Storage).FileHolds id bytes :=
  ⟨node, by rw [Storage.setNode, Fs.modify_node_self, found]; rfl, holds⟩

theorem writeAt_length_of (nothing : buffer = [] → off ≤ bytes.length) :
    (writeAt bytes off buffer).length = max bytes.length (off + buffer.length) := by
  by_cases empty : buffer = []
  · have inside := nothing empty
    rw [writeAt, if_pos empty, empty, List.length_nil]
    omega
  · exact writeAt_length bytes off empty

/-- The new array agrees with what a file shows after the write, if it did before and the gap
is zero. -/
theorem byte_written {before after : Nat → UInt8}
    (content : ∀ position < bytes.length, before position = byte bytes position)
    (nothing : buffer = [] → off ≤ bytes.length)
    (zeros : buffer ≠ [] → ∀ position, bytes.length ≤ position → position < off →
      before position = 0)
    (written : ∀ position < (writeAt bytes off buffer).length, after position =
      if off ≤ position ∧ position < off + buffer.length then byte buffer (position - off)
      else before position) :
    ∀ position < (writeAt bytes off buffer).length,
      after position = byte (writeAt bytes off buffer) position := by
  intro position inside
  rw [written position inside, byte_writeAt]
  by_cases within : off ≤ position ∧ position < off + buffer.length
  · rw [if_pos within, if_pos within]
  rw [if_neg within, if_neg within]
  by_cases old : position < bytes.length
  · exact content position old
  rw [writeAt_length_of nothing] at inside
  have some : buffer ≠ [] := by
    intro empty
    have bound := nothing empty
    rw [empty, List.length_nil] at inside
    omega
  rw [byte_of_length_le (Nat.not_lt.mp old)]
  exact zeros some position (Nat.not_lt.mp old) (by omega)

theorem diskfileWrite_holds (found : storage.fs.node id = some old)
    (holds : node.HoldsBytes storage.store storage.disk bytes) (backed : node.diskBacked = true)
    (fits : off + buffer.length + (blockSize - 1) < 2 ^ 32)
    (spare : platform.faults.Spare storage.store)
    (nothing : buffer = [] → off ≤ bytes.length)
    (zeros : buffer ≠ [] → ∀ position, bytes.length ≤ position → position < off →
      storage.store.blockByte storage.disk node.blockList position = 0)
    (ran : diskfileWrite platform storage id node off buffer = some (buffer.length, storage')) :
    storage'.FileHolds id (writeAt bytes off buffer) := by
  rcases holds.onDisk backed with ⟨available, lists, room⟩
  have layout := holds.medium available
  have content : ∀ position < bytes.length,
      storage.store.blockByte storage.disk node.blockList position = byte bytes position := by
    intro position inside
    rw [← holds.content position inside, VfsNode.contentByte, if_pos backed]
  have longer := ensureBlocks_lengthened (neededBlocks off buffer.length) node.blocks available
    layout spare lists
  rw [diskfileWrite] at ran
  rcases outcome : ensureBlocks platform (neededBlocks off buffer.length) node.blocks
    storage.store storage.disk with ⟨enough, blocks, store, disk⟩
  rw [outcome] at ran longer
  have geometry := longer.geometry
  have total : (node.blocks.getD []).length ≤ (blocks.getD []).length := longer.length
  have available' : store.available = true := geometry.available.trans available
  have spare' : platform.faults.Spare store := geometry.spare spare
  cases enough with
  | false =>
      simp only [Option.some.injEq, Prod.mk.injEq] at ran
      rcases ran with ⟨none_, rfl⟩
      have empty := List.eq_nil_of_length_eq_zero none_.symm
      rw [writeAt, if_pos empty]
      refine Storage.FileHolds.set found ⟨holds.ordinary, holds.size, fun _ => longer.layout,
        fun _ => ⟨available', longer.lists, ?_⟩, fun memory => ?_, fun position inside => ?_⟩
      · exact Nat.le_trans room (Nat.mul_le_mul_right _ total)
      · exact absurd (backed.symm.trans memory) (by decide)
      · rw [VfsNode.contentByte, if_pos backed, ← content position inside]
        exact longer.bytes position
  | true =>
      rcases Option.map_eq_some_iff.mp ran with ⟨⟨done, medium⟩, loop, result⟩
      have needed := ensureBlocks_length outcome
      have fitted := neededBlocks_room fits
      have place : off + buffer.length ≤ (blocks.getD []).length * blockSize :=
        Nat.le_trans fitted (Nat.mul_le_mul_right _ needed)
      rcases diskfileWriteLoop_bytes available' spare' longer.lists longer.layout (Nat.le_refl _)
        (by omega) place loop with ⟨all, layout', written⟩
      simp only [Prod.mk.injEq] at result
      rcases result with ⟨-, rfl⟩
      have last : u32 (off + done) = off + buffer.length := by
        rw [all, u32_of_small (by omega)]
      have size := writeAt_length_of nothing
      rw [last]
      refine Storage.FileHolds.set found ⟨holds.ordinary, ?_, fun _ => layout',
        fun _ => ⟨available', longer.lists, ?_⟩, fun memory => ?_, ?_⟩
      · rw [VfsNode.extend_size_toNat _ (by omega), size]
        exact congrArg (max · _) holds.size
      · rw [size]
        exact Nat.max_le.mpr ⟨Nat.le_trans room (Nat.mul_le_mul_right _ total), place⟩
      · exact absurd (backed.symm.trans memory) (by decide)
      · refine byte_written content nothing zeros fun position _ => ?_
        rw [VfsNode.contentByte]
        refine (if_pos backed).trans ((written position).trans ?_)
        rw [show store.blockByte disk (blocks.getD []) position =
          storage.store.blockByte storage.disk node.blockList position from longer.bytes position]

theorem copyIn_holds (found : storage.fs.node id = some old)
    (holds : node.HoldsBytes storage.store storage.disk bytes) (memory : node.diskBacked = false)
    (fits : off + buffer.length < 2 ^ 32) (room : off + buffer.length ≤ node.capacity)
    (nothing : buffer = [] → off ≤ bytes.length)
    (zeros : buffer ≠ [] → ∀ position, bytes.length ≤ position → position < off →
      byte (node.data.getD []) position = 0)
    (ran : (node.copyIn off buffer).map (fun node => (buffer.length,
      storage.setNode id (node.extend (off + buffer.length) platform.now))) =
        some (buffer.length, storage')) :
    storage'.FileHolds id (writeAt bytes off buffer) := by
  rcases holds.inMemory memory with ⟨unlisted, inside⟩
  rcases Option.map_eq_some_iff.mp ran with ⟨copied, isCopied, outcome⟩
  cases outcome
  have content : ∀ position < bytes.length,
      byte (node.data.getD []) position = byte bytes position := by
    intro position within
    rw [← holds.content position within, VfsNode.contentByte, if_neg (by rw [memory]; decide)]
  have size := writeAt_length_of nothing
  have shape : copied.ops = node.ops ∧ copied.size = node.size ∧
      copied.diskBacked = node.diskBacked ∧ copied.blocks = node.blocks ∧
      copied.capacity = node.capacity ∧ ∀ position, byte (copied.data.getD []) position =
        if off ≤ position ∧ position < off + buffer.length then byte buffer (position - off)
        else byte (node.data.getD []) position := by
    rw [VfsNode.copyIn] at isCopied
    by_cases empty : buffer.length = 0
    · rw [if_pos empty] at isCopied
      cases isCopied
      exact ⟨rfl, rfl, rfl, rfl, rfl, fun position => by rw [if_neg (by omega)]⟩
    rw [if_neg empty, if_pos room] at isCopied
    cases isCopied
    rw [VfsNode.capacity] at room
    cases data : node.data with
    | none =>
        rw [data, Option.getD_none, List.length_nil] at room
        omega
    | some held =>
        rw [data, Option.getD_some] at room
        refine ⟨rfl, rfl, rfl, rfl, ?_, fun position => byte_splice (by omega) position⟩
        rw [VfsNode.capacity, VfsNode.capacity, data]
        exact splice_length held room
  rcases shape with ⟨ops, sized, backed, blocks, capacity, written⟩
  refine ⟨_, by rw [Storage.setNode, Fs.modify_node_self, found]; rfl, ?_⟩
  refine ⟨ops.trans holds.ordinary, ?_, holds.medium, fun disk => ?_, fun _ => ⟨?_, ?_⟩, ?_⟩
  · rw [VfsNode.extend_size_toNat _ fits, size, sized, holds.size]
  · exact absurd ((backed.trans memory).symm.trans disk) (by decide)
  · exact (congrArg (Option.getD · []) blocks).trans unlisted
  · rw [size]
    exact Nat.max_le.mpr ⟨inside.trans capacity.ge, room.trans capacity.ge⟩
  · refine byte_written content nothing zeros fun position _ => ?_
    rw [VfsNode.contentByte]
    exact (if_neg (by
      intro disk
      exact absurd ((backed.trans memory).symm.trans disk) (by decide))).trans (written position)

theorem VfsNode.HoldsBytes.regrow (holds : node.HoldsBytes storage.store storage.disk bytes)
    (memory : node.diskBacked = false) (platform : Platform) {newcap : Nat}
    (longer : node.capacity ≤ newcap) :
    (node.regrow newcap platform).HoldsBytes storage.store storage.disk bytes ∧
      ∀ position < newcap, byte ((node.regrow newcap platform).data.getD []) position =
        if position < node.capacity then byte (node.data.getD []) position
        else platform.junk position := by
  rcases holds.inMemory memory with ⟨unlisted, inside⟩
  have front : ((node.data.getD []).take newcap) = node.data.getD [] :=
    List.take_of_length_le longer
  have bytes_ : ∀ position < newcap, byte ((node.regrow newcap platform).data.getD []) position =
      if position < node.capacity then byte (node.data.getD []) position
      else platform.junk position := by
    intro position below
    rw [VfsNode.regrow, Option.getD_some, front, Nat.min_eq_left longer]
    by_cases old : position < node.capacity
    · rw [if_pos old]
      exact byte_append_left old
    · rw [if_neg old]
      refine (byte_append_right (Nat.not_lt.mp old)).trans ?_
      rw [byte_drop, Platform.memory]
      have sum : node.capacity + (position - (node.data.getD []).length) = position :=
        Nat.add_sub_cancel' (Nat.not_lt.mp old)
      rw [sum, byte, List.getD_eq_getElem?_getD, List.getElem?_map,
        List.getElem?_range below]
      rfl
  refine ⟨⟨holds.ordinary, holds.size, holds.medium, fun disk => ?_, fun _ => ⟨unlisted, ?_⟩,
    fun position within => ?_⟩, bytes_⟩
  · exact absurd (memory.symm.trans disk) (by decide)
  · rw [VfsNode.regrow_capacity]
    exact inside.trans longer
  · have old := holds.content position within
    rw [VfsNode.contentByte, if_neg (by rw [memory]; decide)] at old
    rw [VfsNode.contentByte]
    refine (if_neg (by rw [VfsNode.regrow, memory]; decide)).trans ?_
    rw [bytes_ position (by omega), if_pos (by omega), old]

theorem bufferWrite_holds (found : storage.fs.node id = some node)
    (holds : node.HoldsBytes storage.store storage.disk bytes) (memory : node.diskBacked = false)
    (fits : off + buffer.length < 2 ^ 32)
    (grows : off + buffer.length ≤ node.capacity ∨ off + buffer.length + 64 < 2 ^ 32)
    (nothing : buffer = [] → off ≤ bytes.length)
    (zeros : buffer ≠ [] → ∀ position, bytes.length ≤ position → position < off →
      (if position < node.capacity then byte (node.data.getD []) position
        else platform.junk position) = 0)
    (ran : bufferWrite platform storage id node off buffer = some (buffer.length, storage')) :
    storage'.FileHolds id (writeAt bytes off buffer) := by
  rcases holds.inMemory memory with ⟨unlisted, inside⟩
  rw [bufferWrite, u32_of_small fits] at ran
  simp only at ran
  by_cases room : off + buffer.length ≤ node.capacity
  · rw [if_pos room] at ran
    refine copyIn_holds found holds memory fits room nothing (fun some position behind gap => ?_) ran
    rw [← zeros some position behind gap, if_pos (by omega)]
  have small := grows.resolve_left room
  rw [if_neg room, u32_of_small small] at ran
  have some : buffer ≠ [] := by
    intro empty
    have bound := nothing empty
    rw [empty, List.length_nil] at room
    omega
  by_cases freed : off + buffer.length + 64 = 0 ∧ node.data.isSome
  · omega
  rw [if_neg freed] at ran
  by_cases denied : (!kmalloc (platform.alloc 0) (off + buffer.length + 64)) = true
  · rw [if_pos denied] at ran
    have none_ := congrArg Prod.fst (Option.some.inj ran)
    exact absurd (List.eq_nil_of_length_eq_zero none_.symm) some
  rw [if_neg denied] at ran
  split at ran
  · cases ran
  have longer : node.capacity ≤ off + buffer.length + 64 := by omega
  rcases holds.regrow memory platform longer with ⟨holds', shown⟩
  refine copyIn_holds found holds' memory fits
    (by rw [VfsNode.regrow_capacity]; omega) nothing (fun some position behind gap => ?_) ran
  rw [shown position (by omega)]
  exact zeros some position behind gap

/-- A clean `ramfs_write` of everything is a write to the array. -/
theorem ramfsWrite_holds (found : storage.fs.node id = some node)
    (holds : node.HoldsBytes storage.store storage.disk bytes)
    (clean : CleanWrite platform storage node off buffer)
    (ran : ramfsWrite platform storage id off buffer = some (buffer.length, storage')) :
    storage'.FileHolds id (writeAt bytes off buffer) := by
  rcases clean with ⟨fits, spare, nothing, zeros⟩
  rw [holds.size] at nothing zeros
  rw [Storage.SumFits] at fits
  rw [ramfsWrite, found] at ran
  simp only at ran
  by_cases backed : node.diskBacked = true
  · have uses : storage.UsesBlocks node := Or.inl backed
    rw [if_pos backed] at ran
    rw [if_pos uses] at fits
    simp only [Storage.spareByte, if_pos uses] at zeros
    exact diskfileWrite_holds found holds backed fits spare nothing zeros ran
  have memory := Bool.eq_false_iff.mpr backed
  rw [if_neg backed] at ran
  by_cases first : node.capacity = 0 ∧ storage.store.available = true
  · have uses : storage.UsesBlocks node := Or.inr first
    rw [if_pos first] at ran
    rw [if_pos uses] at fits
    simp only [Storage.spareByte, if_pos uses] at zeros
    exact diskfileWrite_holds found (holds.promoted memory first) rfl fits spare nothing zeros ran
  · have uses : ¬storage.UsesBlocks node := not_or.mpr ⟨backed, first⟩
    rw [if_neg first] at ran
    rw [if_neg uses] at fits
    simp only [Storage.spareByte, if_neg uses] at zeros
    exact bufferWrite_holds found holds memory fits.1 fits.2 nothing zeros ran

end Write

/-! ## Reading -/

/-- A read of blocks that can be read delivers the bytes of the array. -/
theorem ramfsRead_healthy {platform : Platform} {storage : Storage} {id off size : Nat}
    {node : VfsNode} {bytes : List UInt8} (found : storage.fs.node id = some node)
    (holds : node.HoldsBytes storage.store storage.disk bytes)
    (healthy : platform.faults.SparesReads storage.store node.blockList) :
    ramfsRead platform storage id off size = some (slice bytes off size) := by
  rw [ramfsRead, found, slice_clipped]
  simp only
  by_cases backed : node.diskBacked = true
  · rcases holds.onDisk backed with ⟨available, lists, room⟩
    have content : ∀ position < bytes.length,
        storage.store.blockByte storage.disk node.blockList position = byte bytes position := by
      intro position inside
      rw [← holds.content position inside, VfsNode.contentByte, if_pos backed]
    rw [if_pos backed, diskfileRead, holds.size]
    by_cases behind : bytes.length ≤ off
    · rw [if_pos behind, Nat.sub_eq_zero_of_le behind, Nat.min_zero]
      rfl
    rw [if_neg behind]
    simp only
    rw [diskfileReadLoop_healthy available (holds.medium available) healthy lists
      (Nat.le_refl _) (by omega)]
    exact congrArg some (window_congr fun position low high => content position (by omega))
  · have memory := Bool.eq_false_iff.mpr backed
    have content : ∀ position < bytes.length,
        byte (node.data.getD []) position = byte bytes position := by
      intro position inside
      rw [← holds.content position inside, VfsNode.contentByte, if_neg backed]
    have inside := (holds.inMemory memory).2
    rw [VfsNode.capacity] at inside
    rw [if_neg backed]
    cases data : node.data with
    | none =>
        rw [data, Option.getD_none, List.length_nil] at inside
        have none_ : min size (bytes.length - off) = 0 := by omega
        rw [none_]
        rfl
    | some held =>
        rw [data, Option.getD_some] at inside content
        simp only
        rw [holds.size]
        by_cases behind : bytes.length ≤ off
        · rw [if_pos behind, Nat.sub_eq_zero_of_le behind, Nat.min_zero]
          rfl
        rw [if_neg behind, if_pos (by omega), slice_eq_window (by omega)]
        exact congrArg some (window_congr fun position low high => content position (by omega))

theorem ramfsRead_holds {platform : Platform} {storage : Storage} {id off size : Nat}
    {node : VfsNode} {bytes : List UInt8} (found : storage.fs.node id = some node)
    (holds : node.HoldsBytes storage.store storage.disk bytes)
    (spare : platform.faults.Spare storage.store) :
    ramfsRead platform storage id off size = some (slice bytes off size) :=
  ramfsRead_healthy found holds (spare.sparesReads holds.lists)

/-! ## A file behind a descriptor -/

structure ArrayFile where
  bytes : List UInt8
  pos : UInt32

inductive ContentCall where
  | write (buffer : List UInt8)
  | read (want : UInt32)
  | seek (off : UInt32) (whence : Int)
  | truncate (path : PathArg) (flags : UInt32)

def ArrayFile.step (call : ContentCall) (f : ArrayFile) : List UInt8 × ArrayFile :=
  match call with
  | .write buffer =>
      ([], ⟨writeAt f.bytes f.pos.toNat buffer, f.pos + UInt32.ofNat buffer.length⟩)
  | .read want =>
      let delivered := slice f.bytes f.pos.toNat want.toNat
      (delivered, { f with pos := f.pos + UInt32.ofNat delivered.length })
  | .seek off whence =>
      ([], { f with pos :=
        if whence = 0 then off
        else if whence = 1 then f.pos + off
        else if whence = 2 then UInt32.ofNat f.bytes.length + off
        else f.pos })
  | .truncate _ _ => ([], { f with bytes := [] })

def ArrayFile.run : ArrayFile → List ContentCall → List (List UInt8)
  | _, [] => []
  | f, call :: rest => (f.step call).1 :: ArrayFile.run (f.step call).2 rest

namespace Session

def contentStep (context : CallContext) (fd : Int) (call : ContentCall) (s : Session) :
    Option (Int × List UInt8 × Session) :=
  match call with
  | .write buffer => (s.sysFileWrite context fd buffer).map fun done => (done.1, [], done.2)
  | .read want => s.sysFileRead context fd want
  | .seek off whence => (s.sysFileSeek fd off whence).map fun done => (done.1, [], done.2)
  | .truncate path flags => (s.sysFileOpen context path flags).map fun done => (done.1, [], done.2)

def contentRun (fd : Int) : Session → List (CallContext × ContentCall) → Option (List (List UInt8))
  | _, [] => some []
  | s, (context, call) :: rest =>
      (s.contentStep context fd call).bind fun done =>
        (contentRun fd done.2.2 rest).map fun delivered => done.2.1 :: delivered

def InFull (context : CallContext) (fd : Int) (id : Nat) (call : ContentCall) (s : Session) : Prop :=
  match call with
  | .write buffer => ∃ s', s.sysFileWrite context fd buffer = some ((buffer.length : Int), s')
  | .truncate path flags => flags &&& oTrunc ≠ 0 ∧
      vfsResolve s.storage.fs path s.cwd = some (some id) ∧
        ∃ other s', s.sysFileOpen context path flags = some (other, s') ∧ 0 ≤ other
  | _ => True

def Clean (context : CallContext) (fd : Int) (id : Nat) (call : ContentCall) (s : Session) : Prop :=
  match call with
  | .write buffer => ∀ kfd node, s.openKfd fd = some kfd → s.storage.fs.node id = some node →
      CleanWrite (context.stages 0) s.storage node kfd.pos.toNat buffer
  | .read _ => (context.stages 0).faults.Spare s.storage.store
  | _ => True

def Throughout (property : CallContext → Int → Nat → ContentCall → Session → Prop) (fd : Int)
    (id : Nat) : Session → List (CallContext × ContentCall) → Prop
  | _, [] => True
  | s, (context, call) :: rest =>
      property context fd id call s ∧ ∀ done, s.contentStep context fd call = some done →
        Throughout property fd id done.2.2 rest

structure Refines (s : Session) (fd : Int) (id : Nat) (f : ArrayFile) : Prop where
  kfd : ∃ kfd, s.openKfd fd = some kfd ∧ kfd.node = some id ∧ kfd.pos = f.pos
  file : s.storage.FileHolds id f.bytes

section Steps

variable {s s' : Session} {context : CallContext} {fd : Int} {id : Nat} {f : ArrayFile}

theorem openKfd_setPos {kfd : Kfd} (isOpen : s.openKfd fd = some kfd) (storage : Storage)
    (pos : UInt32) :
    ({ s with storage := storage }.setPos fd pos).openKfd fd = some { kfd with pos := pos } := by
  rw [openKfd] at isOpen
  split at isOpen
  · rename_i inside
    cases isOpen
    rw [openKfd, setPos]
    simp only [Function.update_self]
    rw [if_pos inside]
  · cases isOpen

theorem Refines.moved {kfd : Kfd} (isOpen : s.openKfd fd = some kfd) (node : kfd.node = some id)
    {storage : Storage} {bytes : List UInt8} (file : storage.FileHolds id bytes) (pos : UInt32) :
    ({ s with storage := storage }.setPos fd pos).Refines fd id ⟨bytes, pos⟩ :=
  ⟨⟨_, openKfd_setPos isOpen storage pos, node, rfl⟩, file⟩

theorem Refines.write {buffer : List UInt8} (refines : s.Refines fd id f)
    (clean : s.Clean context fd id (.write buffer))
    (ran : s.sysFileWrite context fd buffer = some ((buffer.length : Int), s')) :
    s'.Refines fd id (f.step (.write buffer)).2 := by
  rcases refines with ⟨⟨kfd, isOpen, isNode, pos⟩, node, found, holds⟩
  have cleanWrite := clean kfd node isOpen found
  rw [sysFileWrite, isOpen] at ran
  simp only at ran
  rw [isNode, Option.bind_some] at ran
  rcases Option.map_eq_some_iff.mp ran with ⟨⟨count, storage⟩, written, outcome⟩
  simp only [Prod.mk.injEq, Nat.cast_inj] at outcome
  rcases outcome with ⟨rfl, rfl⟩
  rw [vfsWrite, found] at written
  simp only [holds.ordinary] at written
  have file := ramfsWrite_holds found holds cleanWrite written
  rw [pos] at file ⊢
  exact Refines.moved isOpen isNode file _

theorem slice_want {bytes : List UInt8} {size pos want : UInt32}
    (length : size.toNat = bytes.length) (inside : ¬size ≤ pos) :
    slice bytes pos.toNat (if size < pos + want then size - pos else want).toNat =
      slice bytes pos.toNat want.toNat := by
  have before : pos.toNat < size.toNat := UInt32.lt_iff_toNat_lt.mp (UInt32.not_le.mp inside)
  by_cases clipped : size < pos + want
  · have sum := UInt32.lt_iff_toNat_lt.mp clipped
    rw [UInt32.toNat_add] at sum
    have most := Nat.mod_le (pos.toNat + want.toNat) (2 ^ 32)
    rw [if_pos clipped, slice_clipped, slice_clipped,
      UInt32.toNat_sub_of_le _ _ (UInt32.le_of_lt (UInt32.not_le.mp inside))]
    congr 1
    omega
  · rw [if_neg clipped]

theorem Refines.read {want : UInt32} (refines : s.Refines fd id f)
    (clean : s.Clean context fd id (.read want)) :
    ∃ code s', s.sysFileRead context fd want = some (code, (f.step (.read want)).1, s') ∧
      s'.Refines fd id (f.step (.read want)).2 := by
  rcases refines with ⟨⟨kfd, isOpen, isNode, pos⟩, node, found, holds⟩
  have file : s.storage.FileHolds id f.bytes := ⟨node, found, holds⟩
  rw [sysFileRead, isOpen]
  simp only
  rw [isNode, Option.bind_some, found]
  simp only
  by_cases behind : node.size ≤ kfd.pos
  · have past : f.bytes.length ≤ f.pos.toNat := by
      rw [← holds.size, ← pos]
      exact UInt32.le_iff_toNat_le.mp behind
    have empty : slice f.bytes f.pos.toNat want.toNat = [] := by
      rw [slice, List.drop_eq_nil_of_le past, List.take_nil]
    rw [if_pos behind, ArrayFile.step]
    simp only
    rw [empty]
    refine ⟨0, s, rfl, ⟨⟨kfd, isOpen, isNode, ?_⟩, file⟩⟩
    rw [pos]
    exact (UInt32.add_zero f.pos).symm
  · rw [if_neg behind, vfsRead, found]
    simp only [holds.ordinary]
    rw [ramfsRead_holds found holds clean, Option.map_some, Option.map_some,
      slice_want holds.size behind, pos]
    exact ⟨_, _, rfl, Refines.moved isOpen isNode file _⟩

theorem Refines.seek {off : UInt32} {whence : Int} (refines : s.Refines fd id f) :
    ∃ code s', s.sysFileSeek fd off whence = some (code, s') ∧
      s'.Refines fd id (f.step (.seek off whence)).2 := by
  rcases refines with ⟨⟨kfd, isOpen, isNode, pos⟩, node, found, holds⟩
  have moved : ∀ target : UInt32, (s.setPos fd target).Refines fd id ⟨f.bytes, target⟩ :=
    fun target => Refines.moved isOpen isNode ⟨node, found, holds⟩ target
  rw [sysFileSeek, isOpen, ArrayFile.step]
  simp only
  by_cases set : whence = 0
  · rw [if_pos set, if_pos set]
    exact ⟨_, _, rfl, moved _⟩
  rw [if_neg set, if_neg set]
  by_cases current : whence = 1
  · rw [if_pos current, if_pos current, pos]
    exact ⟨_, _, rfl, moved _⟩
  rw [if_neg current, if_neg current]
  by_cases end_ : whence = 2
  · rw [if_pos end_, if_pos end_, isNode, Option.bind_some, found, Option.bind_some, ← holds.size,
      UInt32.ofNat_toNat]
    exact ⟨_, _, rfl, moved _⟩
  · rw [if_neg end_, if_neg end_, pos]
    exact ⟨_, _, rfl, moved _⟩

theorem FileHolds.truncate {storage : Storage} {bytes : List UInt8}
    (file : storage.FileHolds id bytes) : (storage.truncate id).FileHolds id [] := by
  rcases file with ⟨node, found, holds⟩
  refine ⟨node.truncate, ?_, holds.ordinary, rfl, holds.medium, fun backed => ?_,
    fun memory => ?_, fun position inside => absurd inside (Nat.not_lt_zero position)⟩
  · rw [Storage.truncate, Fs.modify_node_self, found]
    rfl
  · rcases holds.onDisk backed with ⟨available, lists, -⟩
    exact ⟨available, lists, Nat.zero_le _⟩
  · exact ⟨(holds.inMemory memory).1, Nat.zero_le _⟩

theorem Refines.truncate {path : PathArg} {flags : UInt32} {other : Int}
    (refines : s.Refines fd id f) (cut : flags &&& oTrunc ≠ 0)
    (names : vfsResolve s.storage.fs path s.cwd = some (some id))
    (ran : s.sysFileOpen context path flags = some (other, s')) (opened : 0 ≤ other) :
    s'.Refines fd id (f.step (.truncate path flags)).2 := by
  rcases refines with ⟨⟨kfd, isOpen, isNode, pos⟩, node, found, holds⟩
  have target : openTarget context path flags s = some (some id, s.storage) := by
    rw [openTarget, names, Option.bind_some]
  rw [sysFileOpen, target, Option.bind_some] at ran
  simp only at ran
  rw [found] at ran
  simp only at ran
  split at ran
  · cases ran
    exact absurd opened (by decide)
  cases taken : s.descriptors.openFile id (if flags &&& oAppend ≠ 0 then node.size else 0) flags
      context.pid with
  | none =>
      rw [taken] at ran
      cases ran
      exact absurd opened (by decide)
  | some pair =>
      rcases pair with ⟨new, descriptors⟩
      rw [taken] at ran
      simp only at ran
      cases ran
      rcases Option.map_eq_some_iff.mp taken with ⟨free, allocated, outcome⟩
      cases outcome
      have unused := List.find?_some allocated
      have other_ : fd.toNat ≠ new := by
        intro same
        rw [openKfd] at isOpen
        split at isOpen
        · rename_i inside
          rw [same] at inside
          rw [inside.2.2] at unused
          simp at unused
        · cases isOpen
      refine ⟨⟨kfd, ?_, isNode, pos⟩, FileHolds.truncate ⟨node, found, holds⟩⟩
      rw [openKfd] at isOpen ⊢
      simp only
      rw [Function.update_of_ne other_]
      exact isOpen

theorem Refines.step {call : ContentCall} (refines : s.Refines fd id f)
    (inFull : s.InFull context fd id call) (clean : s.Clean context fd id call) :
    ∃ code s', s.contentStep context fd call = some (code, (f.step call).1, s') ∧
      s'.Refines fd id (f.step call).2 := by
  cases call with
  | write buffer =>
      rcases inFull with ⟨s', ran⟩
      exact ⟨buffer.length, s', by rw [contentStep, ran]; rfl, refines.write clean ran⟩
  | read want => exact refines.read clean
  | seek off whence =>
      rcases refines.seek with ⟨code, s', ran, refines'⟩
      exact ⟨code, s', by rw [contentStep, ran]; rfl, refines'⟩
  | truncate path flags =>
      rcases inFull with ⟨cut, names, other, s', ran, opened⟩
      exact ⟨other, s', by rw [contentStep, ran]; rfl, refines.truncate cut names ran opened⟩

/-- Every run delivers what the array delivers, if the writes are clean. -/
theorem contentRun_refines {calls : List (CallContext × ContentCall)}
    (refines : s.Refines fd id f) (inFull : Throughout InFull fd id s calls)
    (clean : Throughout Clean fd id s calls) :
    s.contentRun fd calls = some (f.run (calls.map Prod.snd)) := by
  induction calls generalizing s f with
  | nil => rfl
  | cons first rest known =>
      rcases first with ⟨context, call⟩
      rcases refines.step inFull.1 clean.1 with ⟨code, s', ran, refines'⟩
      rw [contentRun, ran, Option.bind_some,
        known refines' (inFull.2 _ ran) (clean.2 _ ran)]
      rfl

end Steps

end Session

/-! ## A write behind the end of a truncated file -/

namespace Session

def notesPath : PathArg := .of (literal "/tmp/notes")

def newFile : Option Session :=
  (boot .ideal noDisk).bind fun storage =>
    ((start storage).sysFileOpen rootContext notesPath 0x42).map Prod.snd

/-- Three bytes are written, the file is truncated, and the descriptor moves behind the end. -/
def truncatedFile : Option Session :=
  newFile.bind fun s =>
    (s.sysFileWrite rootContext 3 [1, 2, 3]).bind fun written =>
      (written.2.sysFileOpen rootContext notesPath 0x202).bind fun opened =>
        (opened.2.sysFileSeek 3 2 0).map Prod.snd

def IsEmptyFile (s : Session) (pos : UInt32) : Prop :=
  (s.openKfd 3).map (fun kfd => (kfd.node, kfd.pos)) = some (some 17, pos) ∧
    (s.storage.fs.node 17).map (fun node => (node.ops, node.size, node.diskBacked, node.blockList))
      = some (.ramfs, 0, false, []) ∧ s.storage.store.available = false

instance (s : Session) (pos : UInt32) : Decidable (s.IsEmptyFile pos) :=
  inferInstanceAs (Decidable (_ ∧ _ ∧ _))

theorem IsEmptyFile.refines {s : Session} {pos : UInt32} (empty : s.IsEmptyFile pos) :
    s.Refines 3 17 ⟨[], pos⟩ := by
  rcases empty with ⟨descriptor, file, unavailable⟩
  rcases Option.map_eq_some_iff.mp descriptor with ⟨kfd, isOpen, same⟩
  rcases Option.map_eq_some_iff.mp file with ⟨node, found, fields⟩
  simp only [Prod.mk.injEq] at same fields
  rcases fields with ⟨ops, size, backed, blocks⟩
  refine ⟨⟨kfd, isOpen, same.1, same.2⟩, node, found, ops, ?_, fun available => ?_, fun disk => ?_,
    fun _ => ⟨blocks, Nat.zero_le _⟩, fun position inside => absurd inside (Nat.not_lt_zero _)⟩
  · rw [size]
    rfl
  · rw [unavailable] at available
    cases available
  · rw [backed] at disk
    cases disk

def writeThenRead (byte : UInt8) : List (CallContext × ContentCall) :=
  [(rootContext, .write [byte]), (rootContext, .seek 0 0), (rootContext, .read 3)]

theorem writeThenRead_inFull {s : Session} {byte : UInt8}
    (written : (s.sysFileWrite rootContext 3 [byte]).map Prod.fst = some 1) :
    s.Throughout InFull 3 17 (writeThenRead byte) := by
  rcases Option.map_eq_some_iff.mp written with ⟨⟨code, s'⟩, ran, one⟩
  cases one
  exact ⟨⟨s', ran⟩, fun _ _ => ⟨trivial, fun _ _ => ⟨trivial, fun _ _ => trivial⟩⟩⟩

theorem truncatedFile_shows :
    (truncatedFile.map fun s => (decide (s.IsEmptyFile 2),
      (s.sysFileWrite rootContext 3 [9]).map Prod.fst, s.contentRun 3 (writeThenRead 9))) =
      some (true, some 1, some [[], [], [1, 2, 9]]) := by
  rw [truncatedFile, newFile, boot_ideal]
  decide +kernel

theorem contentRun_shows_old_bytes :
    ¬∀ (s : Session) (fd : Int) (id : Nat) (f : ArrayFile)
      (calls : List (CallContext × ContentCall)),
      s.Refines fd id f → s.Throughout InFull fd id calls →
        s.contentRun fd calls = some (f.run (calls.map Prod.snd)) := by
  intro refines
  rcases Option.map_eq_some_iff.mp truncatedFile_shows with ⟨s, -, shown⟩
  simp only [Prod.mk.injEq] at shown
  rcases shown with ⟨empty, written, delivered⟩
  have claimed := refines s 3 17 ⟨[], 2⟩ (writeThenRead 9)
    (IsEmptyFile.refines (of_decide_eq_true empty)) (writeThenRead_inFull written)
  rw [delivered] at claimed
  exact absurd claimed (by decide)

theorem newFile_starts :
    (newFile.map fun s => (decide (s.IsEmptyFile 0),
      (s.sysFileWrite rootContext 3 [9]).map Prod.fst)) = some (true, some 1) := by
  rw [newFile, boot_ideal]
  decide +kernel

theorem contentRun_refines_newFile :
    ∃ s, newFile = some s ∧ s.contentRun 3 (writeThenRead 9) = some [[], [], [9]] := by
  rcases Option.map_eq_some_iff.mp newFile_starts with ⟨s, isNew, starts⟩
  simp only [Prod.mk.injEq] at starts
  rcases starts with ⟨empty, written⟩
  have refines := IsEmptyFile.refines (of_decide_eq_true empty)
  have spare : ∀ store : Blockfs, Faults.none.Spare store :=
    fun store => ⟨fun _ _ _ _ => rfl, fun _ _ _ _ => rfl⟩
  have clean : s.Throughout Clean 3 17 (writeThenRead 9) := by
    refine ⟨fun kfd node isOpen found => ?_, fun _ _ => ⟨trivial, fun done _ => ⟨spare _,
      fun _ _ => trivial⟩⟩⟩
    rcases refines.kfd with ⟨kfd', isOpen', -, pos⟩
    cases isOpen.symm.trans isOpen'
    rw [pos]
    have memory : s.storage.store.available = false := (of_decide_eq_true empty).2.2
    have backed : node.diskBacked = false := by
      have fields := (of_decide_eq_true empty).2.1
      rw [found, Option.map_some, Option.some_inj] at fields
      exact congrArg (fun fields => fields.2.2.1) fields
    have notBlocks : ¬s.storage.UsesBlocks node := by
      rw [Storage.UsesBlocks, backed, memory]
      rintro (disk | first)
      · cases disk
      · cases first.2
    refine ⟨?_, spare _, fun none_ => absurd none_ (List.cons_ne_nil _ _),
      fun _ position _ before => absurd before (Nat.not_lt_zero position)⟩
    rw [Storage.SumFits, if_neg notBlocks]
    exact ⟨by decide, Or.inr (by decide)⟩
  exact ⟨s, isNew, contentRun_refines refines (writeThenRead_inFull written) clean⟩

end Session

end Trinux
