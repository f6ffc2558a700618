import Trinux.Fs.RamfsFile

namespace Trinux

open Bytes

/-!
# The indices that a write touches

`ramfs_write` and `diskfile_write` add the offset and the length in 32 bits, round the sum up and
provide that much room.  They never look whether the sum fits.  The log below lists the bytes of
the buffer and the entries of the block list that the copy then uses, with the size of what the
call provided.
-/

/-! ## The log -/

/-- One access to the contents of a file: to bytes of a heap buffer of a given size, or to an
entry of a block list of a given length. -/
inductive FileAccess where
  | bytes (size off count : Nat)
  | block (count index : Nat)
  deriving DecidableEq, Repr

def FileAccess.InBounds : FileAccess → Prop
  | .bytes size off count => off + count ≤ size
  | .block count index => index < count

def blockAccesses (platform : Platform) (store : Blockfs) (blocks : List UInt32) :
    (fuel position : Nat) → (buffer : List UInt8) → Disk → List FileAccess
  | 0, _, _, _ => []
  | fuel + 1, position, buffer, disk =>
      if buffer.length = 0 then []
      else
        .block blocks.length (position / blockSize) ::
          match blocks[position / blockSize]? with
          | none => []
          | some block =>
              let chunk := min (blockSize - position % blockSize) buffer.length
              let bytes := splice (blockBuffer platform store disk block.toNat chunk)
                (position % blockSize) (buffer.take chunk)
              match store.writeBlock platform.faults block.toNat bytes disk with
              | (false, _) => []
              | (true, written) =>
                  blockAccesses platform store blocks fuel (u32 (position + chunk))
                    (buffer.drop chunk) written

def diskfileWriteAccesses (platform : Platform) (storage : Storage) (node : VfsNode) (off : Nat)
    (buffer : List UInt8) : List FileAccess :=
  match ensureBlocks platform (neededBlocks off buffer.length) node.blocks storage.store
      storage.disk with
  | (false, _, _, _) => []
  | (true, blocks, store, disk) =>
      blockAccesses platform store (blocks.getD []) buffer.length off buffer disk

def copyAccesses (size off : Nat) (buffer : List UInt8) : List FileAccess :=
  if buffer.length = 0 then [] else [.bytes size off buffer.length]

/-- The accesses of `ramfs_write` on a node that keeps its contents in memory.  A buffer that the
call grows has the size that the allocator rounded to. -/
def bufferWriteAccesses (platform : Platform) (node : VfsNode) (off : Nat)
    (buffer : List UInt8) : List FileAccess :=
  let needed := u32 (off + buffer.length)
  let newcap := u32 (needed + 64)
  if needed ≤ node.capacity then copyAccesses node.capacity off buffer
  else if !kmalloc (platform.alloc 0) newcap then []
  else copyAccesses (alignUp newcap) off buffer

def Storage.UsesBlocks (storage : Storage) (node : VfsNode) : Prop :=
  node.diskBacked = true ∨ node.capacity = 0 ∧ storage.store.available = true

instance (storage : Storage) (node : VfsNode) : Decidable (storage.UsesBlocks node) :=
  inferInstanceAs (Decidable (_ ∨ _))

def ramfsWriteAccesses (platform : Platform) (storage : Storage) (node : VfsNode) (off : Nat)
    (buffer : List UInt8) : List FileAccess :=
  if storage.UsesBlocks node then diskfileWriteAccesses platform storage node off buffer
  else bufferWriteAccesses platform node off buffer

/-! ## The log and the outcome -/

theorem blockAccesses_inBounds_iff (platform : Platform) (store : Blockfs)
    (blocks : List UInt32) (fuel position : Nat) (buffer : List UInt8) (disk : Disk) :
    (∀ access ∈ blockAccesses platform store blocks fuel position buffer disk,
      access.InBounds) ↔
      diskfileWriteLoop platform store blocks fuel position buffer disk ≠ none := by
  induction fuel generalizing position buffer disk with
  | zero => simp [blockAccesses, diskfileWriteLoop]
  | succ fuel ih =>
      rw [blockAccesses, diskfileWriteLoop]
      by_cases empty : buffer.length = 0
      · rw [if_pos empty, if_pos empty]
        simp
      rw [if_neg empty, if_neg empty, List.forall_mem_cons]
      cases entry : blocks[position / blockSize]? with
      | none =>
          have outside := List.getElem?_eq_none_iff.mp entry
          simp only [FileAccess.InBounds, ne_eq, not_true_eq_false, iff_false, not_and]
          exact fun inside => absurd inside (Nat.not_lt.mpr outside)
      | some block =>
          have inside : (FileAccess.block blocks.length (position / blockSize)).InBounds :=
            (List.getElem?_eq_some_iff.mp entry).1
          simp only [inside, true_and]
          generalize store.writeBlock platform.faults block.toNat _ disk = outcome
          rcases outcome with ⟨_ | _, written⟩
          · simp
          · simp only
            rw [ih, ne_eq, ne_eq, Option.map_eq_none_iff]

/-! ## Room for the sum -/

theorem growBlocks_length {faults : Faults} {missing : Nat} {blocks added : List UInt32}
    {store store' : Blockfs} {disk disk' : Disk}
    (grown : growBlocks faults missing blocks store disk = (true, added, store', disk')) :
    added.length = blocks.length + missing := by
  induction missing generalizing blocks store disk with
  | zero =>
      cases grown
      rfl
  | succ missing ih =>
      rw [growBlocks] at grown
      cases found : store.allocBlock with
      | none =>
          rw [found] at grown
          cases grown
      | some next =>
          rw [found] at grown
          rw [ih grown, List.length_append, List.length_singleton]
          omega

/-- The block list that `ensure_blocks` leaves when it succeeds. -/
theorem ensureBlocks_length {platform : Platform} {nblocks : Nat}
    {blocks blocks' : Option (List UInt32)} {store store' : Blockfs} {disk disk' : Disk}
    (ensured : ensureBlocks platform nblocks blocks store disk = (true, blocks', store', disk')) :
    nblocks ≤ (blocks'.getD []).length := by
  rw [ensureBlocks] at ensured
  by_cases enough : nblocks ≤ (blocks.getD []).length
  · rw [if_pos enough] at ensured
    cases ensured
    exact enough
  rw [if_neg enough] at ensured
  split at ensured
  · cases ensured
  · rcases grown : growBlocks platform.faults (nblocks - (blocks.getD []).length)
      (blocks.getD []) store disk with ⟨done, added, left⟩
    rw [grown] at ensured
    cases ensured
    have length := growBlocks_length grown
    rw [Option.getD_some, length]
    omega

/-- The loop stays inside a block list that has room for the range, if the range does not wrap
around. -/
theorem blockAccesses_inBounds {platform : Platform} {store : Blockfs} {blocks : List UInt32}
    {fuel position : Nat} {buffer : List UInt8} {disk : Disk}
    (fits : position + buffer.length < 2 ^ 32)
    (room : position + buffer.length ≤ blocks.length * blockSize) :
    ∀ access ∈ blockAccesses platform store blocks fuel position buffer disk,
      access.InBounds := by
  induction fuel generalizing position buffer disk with
  | zero =>
      intro access listed
      cases listed
  | succ fuel ih =>
      rw [blockAccesses]
      by_cases empty : buffer.length = 0
      · rw [if_pos empty]
        intro access listed
        cases listed
      rw [if_neg empty, List.forall_mem_cons]
      have inside : position / blockSize < blocks.length :=
        Nat.div_lt_of_lt_mul (by rw [Nat.mul_comm]; omega)
      refine ⟨inside, ?_⟩
      rw [List.getElem?_eq_getElem inside]
      simp only
      generalize outcome : store.writeBlock platform.faults _ _ disk = written
      rcases written with ⟨_ | _, left⟩
      · intro access listed
        cases listed
      · have small := Nat.min_le_right (blockSize - position % blockSize) buffer.length
        generalize min (blockSize - position % blockSize) buffer.length = chunk at small ⊢
        have next : u32 (position + chunk) + (buffer.drop chunk).length =
            position + buffer.length := by
          rw [u32_of_small (by omega), List.length_drop]
          omega
        exact ih (by rw [next]; exact fits) (by rw [next]; exact room)

theorem blockAccesses_ne_nil {platform : Platform} {store : Blockfs} {blocks : List UInt32}
    {position : Nat} {buffer : List UInt8} {disk : Disk} (some : buffer.length ≠ 0) :
    blockAccesses platform store blocks buffer.length position buffer disk ≠ [] := by
  obtain ⟨fuel, length⟩ := Nat.exists_eq_succ_of_ne_zero some
  rw [length, blockAccesses, if_neg some]
  exact List.cons_ne_nil _ _

theorem neededBlocks_room {off size : Nat} (fits : off + size + (blockSize - 1) < 2 ^ 32) :
    off + size ≤ neededBlocks off size * blockSize := by
  have block : blockSize = 4096 := rfl
  have sum : u32 (off + size) = off + size := u32_of_small (by omega)
  rw [neededBlocks, sum, u32_of_small (by omega), block]
  omega

/-- The size of a file stays only if the write ends inside it. -/
theorem VfsNode.extend_size_iff (node : VfsNode) {last : Nat} (small : last < 2 ^ 32)
    (now : UInt32) : (node.extend last now).size = node.size ↔ last ≤ node.size.toNat := by
  rw [VfsNode.extend]
  simp only
  split
  · rename_i longer
    constructor
    · intro same
      rw [← same, UInt32.toNat_ofNat_of_lt' small]
    · exact fun shorter => absurd longer (Nat.not_lt.mpr shorter)
  · rename_i shorter
    exact ⟨fun _ => Nat.not_lt.mp shorter, fun _ => rfl⟩

/-- The allocator gives what it was asked for, unless rounding up wraps around. -/
theorem le_alignUp {size : Nat} (fits : size + 7 < 2 ^ 32) : size ≤ alignUp size := by
  rw [alignUp, Nat.mod_eq_of_lt fits]
  omega

theorem alignUp_wraps {size : Nat} (small : size < 2 ^ 32) (wraps : 2 ^ 32 ≤ size + 7) :
    alignUp size = 0 := by
  rw [alignUp]
  omega

/-! ## Guarded writes -/

/-- The sum that a write computes fits in 32 bits: offset, length, and what the call adds to
round them up to blocks or to a new capacity. -/
def Storage.SumFits (storage : Storage) (node : VfsNode) (off len : Nat) : Prop :=
  if storage.UsesBlocks node then off + len + (blockSize - 1) < 2 ^ 32
  else off + len < 2 ^ 32 ∧ (off + len ≤ node.capacity ∨ off + len + 64 < 2 ^ 32)

def Refused (outcome : Option (Nat × Storage)) (id : Nat) (size : UInt32) : Prop :=
  ∀ count after, outcome = some (count, after) →
    count = 0 ∧ (after.fs.node id).map VfsNode.size = some size

structure WriteGuarded (platform : Platform) (storage : Storage) (id : Nat) (node : VfsNode)
    (off : Nat) (buffer : List UInt8) : Prop where
  inBounds : ∀ access ∈ ramfsWriteAccesses platform storage node off buffer, access.InBounds
  refuses : ¬storage.SumFits node off buffer.length →
    ramfsWriteAccesses platform storage node off buffer = [] ∧
      Refused (ramfsWrite platform storage id off buffer) id node.size

/-- The inputs on which a write is guarded.  The sum fits, also when the allocator rounds it up
to a multiple of eight; or there is no room for the wrapped sum; or nothing is written at an
offset inside the file. -/
def WriteFits (platform : Platform) (storage : Storage) (node : VfsNode) (off len : Nat) : Prop :=
  if storage.UsesBlocks node then
    off + len + (blockSize - 1) < 2 ^ 32 ∨
      (ensureBlocks platform (neededBlocks off len) node.blocks storage.store
        storage.disk).1 = false ∨
      len = 0 ∧ off ≤ node.size.toNat
  else if u32 (off + len) ≤ node.capacity then off + len < 2 ^ 32
  else
    kmalloc (platform.alloc 0) (u32 (u32 (off + len) + 64)) = false ∨
      off + len + 64 + 7 < 2 ^ 32 ∨
      len = 0 ∧ (off + 64 < 2 ^ 32 ∨ off ≤ node.size.toNat)

section Guarded

variable {platform : Platform} {storage : Storage} {id off : Nat} {node : VfsNode}
  {buffer : List UInt8}

theorem Refused.of_setNode (found : storage.fs.node id = some node) (node' : VfsNode)
    (store : Blockfs) (disk : Disk) (size : UInt32) :
    Refused (some (0, { storage.setNode id node' with store := store, disk := disk })) id size ↔
      node'.size = size := by
  have stored : ((storage.setNode id node').fs.node id).map VfsNode.size = some node'.size := by
    rw [Storage.setNode, Fs.modify_node_self, found]
    rfl
  constructor
  · intro refused
    exact Option.some.inj (stored.symm.trans (refused 0 _ rfl).2)
  · intro same count after outcome
    cases outcome
    exact ⟨rfl, stored.trans (congrArg some same)⟩

/-- A file in disk blocks.  The flag of the node may be set by this write already. -/
theorem diskfileWrite_guarded_iff {start : VfsNode} (found : storage.fs.node id = some node)
    (blocks : start.blocks = node.blocks) (size : start.size = node.size)
    (offset : off < 2 ^ 32) :
    ((∀ access ∈ diskfileWriteAccesses platform storage start off buffer, access.InBounds) ∧
      (¬off + buffer.length + (blockSize - 1) < 2 ^ 32 →
        diskfileWriteAccesses platform storage start off buffer = [] ∧
          Refused (diskfileWrite platform storage id start off buffer) id node.size)) ↔
      off + buffer.length + (blockSize - 1) < 2 ^ 32 ∨
        (ensureBlocks platform (neededBlocks off buffer.length) node.blocks storage.store
          storage.disk).1 = false ∨
        buffer.length = 0 ∧ off ≤ node.size.toNat := by
  rw [diskfileWriteAccesses, diskfileWrite, blocks]
  rcases ensured : ensureBlocks platform (neededBlocks off buffer.length) node.blocks
    storage.store storage.disk with ⟨_ | _, list, store, disk⟩
  · have refused := (Refused.of_setNode found { start with blocks := list } store disk
      node.size).mpr size
    simp only [List.not_mem_nil, false_imp_iff, implies_true, true_and, refused, true_or,
      or_true]
  have enough := ensureBlocks_length ensured
  by_cases fits : off + buffer.length + (blockSize - 1) < 2 ^ 32
  · have room := neededBlocks_room fits
    have inBounds : ∀ access ∈ blockAccesses platform store (list.getD []) buffer.length off
        buffer disk, access.InBounds :=
      blockAccesses_inBounds (by omega) (room.trans (Nat.mul_le_mul_right blockSize enough))
    exact ⟨fun _ => Or.inl fits, fun _ => ⟨inBounds, fun overflow => absurd fits overflow⟩⟩
  by_cases empty : buffer.length = 0
  · have none_ : buffer = [] := List.length_eq_zero_iff.mp empty
    subst none_
    have same : ({ start with blocks := list }.extend (u32 (off + 0)) platform.now).size =
        node.size ↔ off ≤ node.size.toNat := by
      rw [Nat.add_zero, u32_of_small offset, ← size]
      exact VfsNode.extend_size_iff _ offset platform.now
    simp only [List.length_nil, blockAccesses, diskfileWriteLoop, Option.map_some] at fits ⊢
    rw [Refused.of_setNode found _ store disk, same]
    simp only [fits, not_false_eq_true, forall_const, true_and, false_or, reduceCtorEq,
      List.not_mem_nil, false_imp_iff, implies_true]
  · have used : blockAccesses platform store (list.getD []) buffer.length off buffer disk ≠ [] :=
      blockAccesses_ne_nil empty
    constructor
    · exact fun guarded => absurd (guarded.2 fits).1 used
    · rintro (small | failed | ⟨nothing, _⟩)
      · exact absurd small fits
      · cases failed
      · exact absurd nothing empty

theorem bufferWrite_guarded_iff (found : storage.fs.node id = some node)
    (offset : off < 2 ^ 32) :
    ((∀ access ∈ bufferWriteAccesses platform node off buffer, access.InBounds) ∧
      (¬(off + buffer.length < 2 ^ 32 ∧ (off + buffer.length ≤ node.capacity ∨
          off + buffer.length + 64 < 2 ^ 32)) →
        bufferWriteAccesses platform node off buffer = [] ∧
          Refused (bufferWrite platform storage id node off buffer) id node.size)) ↔
      if u32 (off + buffer.length) ≤ node.capacity then off + buffer.length < 2 ^ 32
      else
        kmalloc (platform.alloc 0) (u32 (u32 (off + buffer.length) + 64)) = false ∨
          off + buffer.length + 64 + 7 < 2 ^ 32 ∨
          buffer.length = 0 ∧ (off + 64 < 2 ^ 32 ∨ off ≤ node.size.toNat) := by
  rw [bufferWriteAccesses, bufferWrite]
  simp only
  by_cases room : u32 (off + buffer.length) ≤ node.capacity
  · rw [if_pos room, if_pos room, if_pos room]
    by_cases fits : off + buffer.length < 2 ^ 32
    · rw [u32_of_small fits] at room
      simp only [fits, room, true_or, and_self, not_true_eq_false, false_imp_iff, and_true,
        iff_true, copyAccesses]
      split
      · simp
      · simpa [FileAccess.InBounds] using room
    · have used : copyAccesses node.capacity off buffer ≠ [] := by
        rw [copyAccesses, if_neg (by omega)]
        exact List.cons_ne_nil _ _
      constructor
      · exact fun guarded => absurd (guarded.2 fun both => fits both.1).1 used
      · exact fun small => absurd small fits
  rw [if_neg room, if_neg room, if_neg room]
  cases memory : kmalloc (platform.alloc 0) (u32 (u32 (off + buffer.length) + 64)) with
  | false =>
      have refused : Refused (some (0, storage)) id node.size := by
        intro count after outcome
        cases outcome
        rw [found]
        exact ⟨rfl, rfl⟩
      simp only [Bool.not_false, if_true, List.not_mem_nil, false_imp_iff, implies_true, true_and,
        true_or, iff_true]
      split
      · intro _ count after outcome
        cases outcome
      · exact fun _ => refused
  | true =>
      have positive : ¬(u32 (u32 (off + buffer.length) + 64) = 0 ∧ node.data.isSome = true) :=
        fun freed => absurd freed.1 (kmalloc_positive memory).ne'
      rw [if_neg positive]
      simp only [Bool.not_true, Bool.false_eq_true, if_false, reduceCtorEq, false_or]
      have beyond : off + buffer.length < 2 ^ 32 → node.capacity < off + buffer.length := by
        intro small
        rw [u32_of_small small] at room
        exact Nat.not_le.mp room
      by_cases empty : buffer.length = 0
      · have nothing : buffer = [] := List.length_eq_zero_iff.mp empty
        subst nothing
        rw [copyAccesses, if_pos List.length_nil, if_neg fun short => short.1 List.length_nil,
          VfsNode.copyIn, if_pos List.length_nil, Option.map_some]
        have stays : Refused (some (([] : List UInt8).length, storage.setNode id ((node.regrow
            (u32 (u32 (off + 0) + 64)) platform).extend (u32 (off + 0)) platform.now))) id
            node.size ↔ off ≤ node.size.toNat := by
          refine (Refused.of_setNode found _ storage.store storage.disk node.size).trans ?_
          have last : u32 (off + 0) = off := u32_of_small offset
          rw [last]
          exact VfsNode.extend_size_iff (node.regrow _ platform) offset platform.now
        constructor
        · intro guarded
          refine Or.inr ⟨List.length_nil, or_iff_not_imp_left.mpr fun wraps => ?_⟩
          have overflow := fun both : off + 0 < 2 ^ 32 ∧ (off + 0 ≤ node.capacity ∨
            off + 0 + 64 < 2 ^ 32) => both.2.elim (Nat.not_le.mpr (beyond offset)) wraps
          exact stays.mp (guarded.2 overflow).2
        · intro fits
          refine ⟨List.forall_mem_nil _, fun overflow => ⟨rfl, stays.mpr ?_⟩⟩
          have wraps : ¬off + 64 < 2 ^ 32 := fun sum => overflow ⟨offset, Or.inr sum⟩
          rcases fits with small | ⟨_, small | inside⟩
          · exact absurd (Nat.lt_of_le_of_lt (Nat.le_add_right (off + 64) 7) small) wraps
          · exact absurd small wraps
          · exact inside
      have used : copyAccesses (alignUp (u32 (u32 (off + buffer.length) + 64))) off buffer =
          [.bytes (alignUp (u32 (u32 (off + buffer.length) + 64))) off buffer.length] :=
        if_neg empty
      rw [used]
      constructor
      · intro guarded
        refine Or.inl (Nat.not_le.mp fun wraps => ?_)
        by_cases sum : off + buffer.length + 64 < 2 ^ 32
        · have inside := guarded.1 _ (List.mem_singleton_self _)
          rw [FileAccess.InBounds, u32_of_small (by omega : off + buffer.length < 2 ^ 32),
            u32_of_small sum, alignUp_wraps sum wraps] at inside
          omega
        · have overflow : ¬(off + buffer.length < 2 ^ 32 ∧
              (off + buffer.length ≤ node.capacity ∨ off + buffer.length + 64 < 2 ^ 32)) :=
            fun both => both.2.elim (Nat.not_le.mpr (beyond both.1)) sum
          exact absurd (guarded.2 overflow).1 (List.cons_ne_nil _ _)
      · rintro (fits | nothing)
        · have small : off + buffer.length < 2 ^ 32 := by omega
          have sum : off + buffer.length + 64 < 2 ^ 32 := by omega
          refine ⟨?_, fun overflow => absurd ⟨small, Or.inr sum⟩ overflow⟩
          rw [List.forall_mem_singleton, FileAccess.InBounds, u32_of_small small,
            u32_of_small sum]
          have room := le_alignUp fits
          omega
        · exact absurd nothing.1 empty

/-- `ramfs_write` uses only what it provided, and refuses a sum that does not fit, exactly if the
sum fits with all its roundings, if there is no room for the wrapped sum, or if nothing is written
inside the file. -/
theorem ramfsWrite_guarded_iff (found : storage.fs.node id = some node) (offset : off < 2 ^ 32) :
    WriteGuarded platform storage id node off buffer ↔
      WriteFits platform storage node off buffer.length := by
  have fields : WriteGuarded platform storage id node off buffer ↔
      (∀ access ∈ ramfsWriteAccesses platform storage node off buffer, access.InBounds) ∧
        (¬storage.SumFits node off buffer.length →
          ramfsWriteAccesses platform storage node off buffer = [] ∧
            Refused (ramfsWrite platform storage id off buffer) id node.size) :=
    ⟨fun guarded => ⟨guarded.inBounds, guarded.refuses⟩, fun both => ⟨both.1, both.2⟩⟩
  rw [fields, ramfsWriteAccesses, Storage.SumFits, WriteFits, ramfsWrite, found]
  simp only
  by_cases inBlocks : storage.UsesBlocks node
  · rw [if_pos inBlocks, if_pos inBlocks, if_pos inBlocks]
    by_cases backed : node.diskBacked = true
    · rw [if_pos backed]
      exact diskfileWrite_guarded_iff found rfl rfl offset
    · rw [if_neg backed, if_pos (inBlocks.resolve_left backed)]
      have blocks : ({ node with diskBacked := true } : VfsNode).blocks = node.blocks := rfl
      exact diskfileWrite_guarded_iff found blocks rfl offset
  · rw [if_neg inBlocks, if_neg inBlocks, if_neg inBlocks,
      if_neg fun backed => inBlocks (Or.inl backed),
      if_neg fun promoted => inBlocks (Or.inr promoted)]
    exact bufferWrite_guarded_iff found offset

end Guarded

def emptyFile : VfsNode := .create 0 (some 0) (literal "a") vfsFile

def memoryFiles : Storage where
  fs := .ofList [{ VfsNode.create 0 none (literal "/") vfsDirectory with children := [1] },
    emptyFile]
  store := .disabled
  disk := ⟨false, 0, fun _ => 0⟩
  fat := .unmounted
  randState := 0

theorem memoryFiles_inMemory : ¬memoryFiles.UsesBlocks emptyFile := by decide

/-- One byte written at the last offset leaves the buffer, which stays empty. -/
theorem ramfsWrite_wraps :
    ¬∀ (platform : Platform) (storage : Storage) (id off : Nat) (node : VfsNode)
      (buffer : List UInt8), storage.fs.node id = some node → off < 2 ^ 32 →
        WriteGuarded platform storage id node off buffer := by
  intro guarded
  have inside := (guarded .ideal memoryFiles 1 (2 ^ 32 - 1) emptyFile [65] rfl
    (by decide)).inBounds
  have used : ramfsWriteAccesses .ideal memoryFiles emptyFile (2 ^ 32 - 1) [65] =
      [.bytes 0 (2 ^ 32 - 1) 1] := by decide
  rw [used, List.forall_mem_singleton, FileAccess.InBounds] at inside
  omega

theorem ramfsWrite_guarded_iff_start :
    memoryFiles.fs.node 1 = some emptyFile ∧ 0 < 2 ^ 32 ∧
      WriteGuarded .ideal memoryFiles 1 emptyFile 0 [65] := by
  refine ⟨rfl, by decide, (ramfsWrite_guarded_iff rfl (by decide)).mpr ?_⟩
  rw [WriteFits, if_neg memoryFiles_inMemory, if_neg (by decide)]
  exact Or.inr (Or.inl (by decide))

/-! ## The outcome of a write -/

theorem VfsNode.regrow_capacity (node : VfsNode) (newcap : Nat) (platform : Platform) :
    (node.regrow newcap platform).capacity = newcap := by
  rw [VfsNode.regrow, VfsNode.capacity, Option.getD_some, List.length_append, List.length_take,
    List.length_drop, Platform.memory, List.length_map, List.length_range, VfsNode.capacity]
  omega

end Trinux
