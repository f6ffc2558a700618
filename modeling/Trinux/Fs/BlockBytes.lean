import Trinux.Fs.RamfsFile

namespace Trinux

open Bytes

/-!
# The bytes of a file in disk blocks

The blocks of a file, one behind the other, are an array of bytes.  Reading a range delivers its
bytes, writing one replaces them, and adding blocks adds zeros, as long as no sector of a block
fails and no block stands twice in the list.
-/

/-! ## Bytes in blocks -/

def Blockfs.blockByte (store : Blockfs) (disk : Disk) (blocks : List UInt32) (position : Nat) :
    UInt8 :=
  match blocks[position / blockSize]? with
  | none => 0
  | some block => disk.bytes (store.blockLba block.toNat * ataSectorSize + position % blockSize)

structure Blockfs.Lists (store : Blockfs) (blocks : List UInt32) : Prop where
  distinct : blocks.Nodup
  inside : ∀ block ∈ blocks, block.toNat < store.totalBlocks
  marked : ∀ block ∈ blocks, store.bitmap block.toNat = true

structure Faults.Spare (faults : Faults) (store : Blockfs) : Prop where
  reads : ∀ block lba, block < store.totalBlocks → store.blockSectors block lba →
    faults.read lba = false
  writes : ∀ block lba, block < store.totalBlocks → store.blockSectors block lba →
    faults.write lba = Option.none

theorem ataWriteSectors_healthy {faults : Faults} {lba count : Nat} {buffer : List UInt8}
    {disk : Disk} (present : disk.present = true) (inside : lba + count ≤ disk.total.toNat)
    (healthy : ∀ sector < count, faults.write (lba + sector) = none) :
    (ataWriteSectors faults lba count buffer disk).1 = true := by
  induction count generalizing lba buffer disk with
  | zero => exact present
  | succ count known =>
      have first := healthy 0 (Nat.succ_pos count)
      rw [Nat.add_zero] at first
      rw [ataWriteSectors, if_pos ⟨present, by omega⟩, first]
      refine known present (by rw [Disk.setSector_total]; omega) fun sector below => ?_
      rw [Nat.add_right_comm, Nat.add_assoc]
      exact healthy (sector + 1) (by omega)

namespace Blockfs

variable {store : Blockfs} {disk : Disk} {faults : Faults} {blocks : List UInt32}

/-- Reading a block whose sectors can be read delivers its bytes. -/
theorem readBlock_healthy (available : store.available = true) (layout : store.Layout disk)
    {block : Nat} (inside : block < store.totalBlocks)
    (healthy : ∀ lba, store.blockSectors block lba → faults.read lba = false) :
    store.readBlock faults disk block =
      some (window disk.bytes (store.blockLba block * ataSectorSize) blockSize) := by
  have fits := layout.blocksFit
  rw [readBlock, if_pos ⟨available, inside⟩, ataReadSectors, if_pos]
  · rfl
  refine ⟨layout.present, fun sector below => ⟨?_, ?_⟩⟩
  · simp only [blockLba, sectorsPerBlock] at fits below ⊢
    omega
  · exact healthy _ ⟨Nat.le_add_right _ _, Nat.add_lt_add_left below _⟩

theorem readBlock_eq (available : store.available = true) (layout : store.Layout disk)
    (spare : faults.Spare store) {block : Nat} (inside : block < store.totalBlocks) :
    store.readBlock faults disk block =
      some (window disk.bytes (store.blockLba block * ataSectorSize) blockSize) :=
  readBlock_healthy available layout inside fun lba => spare.reads block lba inside

theorem writeBlock_eq (available : store.available = true) (layout : store.Layout disk)
    (spare : faults.Spare store) {block : Nat} (inside : block < store.totalBlocks)
    {bytes : List UInt8} (full : bytes.length = blockSize) :
    store.writeBlock faults block bytes disk =
      (true, disk.setSector (store.blockLba block) bytes) := by
  have fits := layout.blocksFit
  have written : (ataWriteSectors faults (store.blockLba block) sectorsPerBlock bytes disk).1 =
      true := by
    apply ataWriteSectors_healthy layout.present
    · simp only [blockLba, sectorsPerBlock] at fits ⊢
      omega
    · intro sector below
      exact spare.writes block _ inside ⟨Nat.le_add_right _ _, Nat.add_lt_add_left below _⟩
  rw [writeBlock, if_pos ⟨available, inside⟩]
  exact Prod.ext written (ataWriteSectors_bytes _ _ _ _ _ full written)

theorem Layout.setSector (layout : store.Layout disk) (lba : Nat) (bytes : List UInt8) :
    store.Layout (disk.setSector lba bytes) :=
  ⟨layout.present, layout.large, layout.dataStart, layout.blocksFit, layout.bitmapFits,
    layout.blocksMapped⟩

/-- Writing a block of another list leaves the bytes of this one. -/
theorem blockByte_other {block : Nat} {bytes : List UInt8} (full : bytes.length = blockSize)
    (other : ∀ listed ∈ blocks, listed.toNat ≠ block) (position : Nat) :
    store.blockByte (disk.setSector (store.blockLba block) bytes) blocks position =
      store.blockByte disk blocks position := by
  rw [blockByte, blockByte]
  cases entry : blocks[position / blockSize]? with
  | none => rfl
  | some listed =>
      have different := other listed (List.mem_of_getElem? entry)
      apply overwrite_outside
      have small := Nat.mod_lt position (by decide : 0 < blockSize)
      rw [full]
      simp only [blockLba, sectorsPerBlock, blockSize, ataSectorSize] at small ⊢
      omega

theorem blockByte_write (distinct : blocks.Nodup) {index : Nat} {block : UInt32}
    (listed : blocks[index]? = some block) {bytes : List UInt8}
    (full : bytes.length = blockSize) (position : Nat) :
    store.blockByte (disk.setSector (store.blockLba block.toNat) bytes) blocks position =
      if position / blockSize = index then byte bytes (position % blockSize)
      else store.blockByte disk blocks position := by
  rw [blockByte, blockByte]
  have small := Nat.mod_lt position (by decide : 0 < blockSize)
  by_cases here : position / blockSize = index
  · rw [if_pos here, here, listed]
    simp only
    have below : position % blockSize < bytes.length := by
      rw [full]
      exact small
    refine (overwrite_inside _ _ _ _ below).trans ?_
    rw [byte, List.getD_eq_getElem?_getD, List.getElem?_eq_getElem below, Option.getD_some]
  · rw [if_neg here]
    cases entry : blocks[position / blockSize]? with
    | none => rfl
    | some other =>
        have different : other.toNat ≠ block.toNat := by
          intro same
          have inside := (List.getElem?_eq_some_iff.mp entry).1
          have again : blocks[position / blockSize]? = blocks[index]? := by
            rw [entry, listed, UInt32.toNat_inj.mp same]
          exact here ((List.getElem?_inj inside distinct).mp again)
        apply overwrite_outside
        rw [full]
        simp only [blockLba, sectorsPerBlock, blockSize, ataSectorSize] at small ⊢
        omega

end Blockfs

/-! ## Reading blocks -/

theorem window_blockByte {store : Blockfs} {disk : Disk} {blocks : List UInt32}
    {position chunk : Nat} {block : UInt32}
    (listed : blocks[position / blockSize]? = some block)
    (inside : position % blockSize + chunk ≤ blockSize) :
    window disk.bytes (store.blockLba block.toNat * ataSectorSize + position % blockSize) chunk =
      window (store.blockByte disk blocks) position chunk := by
  apply List.map_congr_left
  intro index member
  have below := List.mem_range.mp member
  have quotient : (position + index) / blockSize = position / blockSize := by
    simp only [blockSize] at inside ⊢
    omega
  have remainder : (position + index) % blockSize = position % blockSize + index := by
    simp only [blockSize] at inside ⊢
    omega
  rw [Blockfs.blockByte, quotient, remainder, listed, Nat.add_assoc]

def Faults.SparesReads (faults : Faults) (store : Blockfs) (blocks : List UInt32) : Prop :=
  ∀ block ∈ blocks, ∀ lba, store.blockSectors block.toNat lba → faults.read lba = false

theorem Faults.Spare.sparesReads {faults : Faults} {store : Blockfs} {blocks : List UInt32}
    (spare : faults.Spare store) (lists : store.Lists blocks) : faults.SparesReads store blocks :=
  fun block member lba => spare.reads block.toNat lba (lists.inside block member)

/-- The loop of `diskfile_read` delivers the bytes of blocks that can be read. -/
theorem diskfileReadLoop_healthy {faults : Faults} {store : Blockfs} {disk : Disk}
    {blocks : List UInt32} (available : store.available = true) (layout : store.Layout disk)
    (healthy : faults.SparesReads store blocks) (lists : store.Lists blocks)
    {fuel position left : Nat} (enough : left ≤ fuel) (room : position + left ≤ blocks.length * blockSize) :
    diskfileReadLoop faults store disk blocks fuel position left =
      window (store.blockByte disk blocks) position left := by
  induction fuel generalizing position left with
  | zero =>
      rw [Nat.le_zero.mp enough]
      rfl
  | succ fuel known =>
      rw [diskfileReadLoop]
      by_cases none_ : left = 0
      · rw [if_pos none_, none_]
        rfl
      have inside : position / blockSize < blocks.length :=
        Nat.div_lt_of_lt_mul (by rw [Nat.mul_comm]; omega)
      have listed := List.getElem?_eq_getElem inside
      have member := List.getElem_mem inside
      rw [if_neg none_, listed]
      simp only
      rw [Blockfs.readBlock_healthy available layout (lists.inside _ member) (healthy _ member)]
      simp only
      have small := Nat.mod_lt position (by decide : 0 < blockSize)
      have fits := Nat.min_le_left (blockSize - position % blockSize) left
      have short := Nat.min_le_right (blockSize - position % blockSize) left
      have positive : 0 < min (blockSize - position % blockSize) left := by omega
      generalize min (blockSize - position % blockSize) left = chunk at fits short positive ⊢
      rw [slice_window _ _ (by omega), window_blockByte listed (by omega),
        known (by omega) (by omega), ← window_add, Nat.add_sub_cancel' short]

/-! ## Writing blocks -/

/-- The block buffer has the size of a block, and holds the old bytes unless all are replaced. -/
theorem blockBuffer_eq {platform : Platform} {store : Blockfs} {disk : Disk}
    (available : store.available = true) (layout : store.Layout disk)
    (spare : platform.faults.Spare store) {block : Nat} (inside : block < store.totalBlocks)
    (chunk : Nat) :
    (blockBuffer platform store disk block chunk).length = blockSize ∧
      (chunk ≠ blockSize → blockBuffer platform store disk block chunk =
        window disk.bytes (store.blockLba block * ataSectorSize) blockSize) := by
  rw [blockBuffer]
  by_cases whole : chunk = blockSize
  · rw [if_pos whole]
    exact ⟨by rw [Platform.memory, List.length_map, List.length_range],
      fun partial_ => absurd whole partial_⟩
  · rw [if_neg whole, Blockfs.readBlock_eq available layout spare inside, Option.getD_some]
    exact ⟨window_length _ _ _, fun _ => rfl⟩

/-- The bytes that one round of the loop of `diskfile_write` leaves. -/
theorem blockByte_round {platform : Platform} {store : Blockfs} {disk : Disk}
    {blocks : List UInt32} (available : store.available = true) (layout : store.Layout disk)
    (spare : platform.faults.Spare store) (lists : store.Lists blocks) {position chunk : Nat}
    {block : UInt32} (listed : blocks[position / blockSize]? = some block)
    (inside : position % blockSize + chunk ≤ blockSize) {new : List UInt8}
    (length : new.length = chunk) (other : Nat) :
    store.blockByte (disk.setSector (store.blockLba block.toNat)
        (splice (blockBuffer platform store disk block.toNat chunk) (position % blockSize) new))
      blocks other =
      if position ≤ other ∧ other < position + chunk then byte new (other - position)
      else store.blockByte disk blocks other := by
  have member := lists.inside block (List.mem_of_getElem? listed)
  rcases blockBuffer_eq available layout spare member chunk with ⟨sized, old⟩
  have full : (splice (blockBuffer platform store disk block.toNat chunk) (position % blockSize)
      new).length = blockSize := by
    rw [splice_length _ (by rw [sized, length]; exact inside), sized]
  have small := Nat.mod_lt other (by decide : 0 < blockSize)
  have split := Nat.div_add_mod other blockSize
  have splitPosition := Nat.div_add_mod position blockSize
  rw [Blockfs.blockByte_write lists.distinct listed full]
  by_cases here : other / blockSize = position / blockSize
  · rw [if_pos here, byte_splice (by rw [sized]; omega), length]
    rw [here] at split
    by_cases within : position ≤ other ∧ other < position + chunk
    · rw [if_pos within, if_pos ⟨by omega, by omega⟩]
      congr 1
      omega
    · rw [if_neg within, if_neg (by omega)]
      have partial_ : chunk ≠ blockSize := by
        intro whole
        exact within ⟨by omega, by omega⟩
      rw [old partial_, Blockfs.blockByte, here, listed]
      simp only
      rw [byte, List.getD_eq_getElem?_getD, List.getElem?_eq_getElem (by
        rw [window_length]
        exact small), Option.getD_some, window_getElem]
  · rw [if_neg here, if_neg]
    rintro ⟨low, high⟩
    apply here
    simp only [blockSize] at inside ⊢
    omega

/-- The loop of `diskfile_write`, when it writes everything. -/
theorem diskfileWriteLoop_bytes {platform : Platform} {store : Blockfs} {blocks : List UInt32}
    (available : store.available = true) (spare : platform.faults.Spare store)
    (lists : store.Lists blocks) {fuel position count : Nat} {buffer : List UInt8}
    {disk disk' : Disk} (layout : store.Layout disk) (enough : buffer.length ≤ fuel)
    (fits : position + buffer.length < 2 ^ 32)
    (room : position + buffer.length ≤ blocks.length * blockSize)
    (written : diskfileWriteLoop platform store blocks fuel position buffer disk =
      some (count, disk')) :
    count = buffer.length ∧ store.Layout disk' ∧ ∀ other,
      store.blockByte disk' blocks other =
        if position ≤ other ∧ other < position + buffer.length then
          byte buffer (other - position)
        else store.blockByte disk blocks other := by
  induction fuel generalizing position buffer disk count with
  | zero =>
      cases written
      have empty := Nat.le_zero.mp enough
      exact ⟨empty.symm, layout, fun other => by rw [if_neg (by omega)]⟩
  | succ fuel known =>
      rw [diskfileWriteLoop] at written
      by_cases empty : buffer.length = 0
      · rw [if_pos empty] at written
        cases written
        exact ⟨empty.symm, layout, fun other => by rw [if_neg (by omega)]⟩
      have inside : position / blockSize < blocks.length :=
        Nat.div_lt_of_lt_mul (by rw [Nat.mul_comm]; omega)
      have listed := List.getElem?_eq_getElem inside
      have member := lists.inside _ (List.getElem_mem inside)
      rw [if_neg empty, listed] at written
      simp only at written
      have small := Nat.mod_lt position (by decide : 0 < blockSize)
      have part := Nat.min_le_left (blockSize - position % blockSize) buffer.length
      have short := Nat.min_le_right (blockSize - position % blockSize) buffer.length
      have positive : 0 < min (blockSize - position % blockSize) buffer.length := by omega
      generalize min (blockSize - position % blockSize) buffer.length = chunk
        at part short positive written
      have length : (buffer.take chunk).length = chunk := by
        rw [List.length_take, Nat.min_eq_left short]
      have sized := (blockBuffer_eq available layout spare member chunk).1
      rw [Blockfs.writeBlock_eq available layout spare member
        (by rw [splice_length _ (by rw [sized, length]; omega), sized])] at written
      simp only at written
      rcases Option.map_eq_some_iff.mp written with ⟨⟨done, left⟩, later, outcome⟩
      cases outcome
      rw [u32_of_small (by omega)] at later
      rcases known (layout.setSector _ _) (by rw [List.length_drop]; omega)
        (by rw [List.length_drop]; omega) (by rw [List.length_drop]; omega) later with
        ⟨all, layout', bytes⟩
      rw [List.length_drop] at all bytes
      refine ⟨by rw [all]; omega, layout', fun other => ?_⟩
      rw [bytes other, blockByte_round available layout spare lists listed (by omega) length]
      by_cases behind : position + chunk ≤ other ∧ other < position + chunk + (buffer.length - chunk)
      · rw [if_pos behind, if_pos ⟨by omega, by omega⟩, byte_drop]
        congr 1
        omega
      rw [if_neg behind]
      by_cases front : position ≤ other ∧ other < position + chunk
      · rw [if_pos front, if_pos ⟨front.1, by omega⟩, byte_take (by omega)]
      · rw [if_neg front, if_neg (by omega)]

/-! ## Adding blocks -/

theorem blockByte_append {store : Blockfs} {disk : Disk} {blocks : List UInt32} {block : UInt32}
    (other : ∀ listed ∈ blocks, listed.toNat ≠ block.toNat) (position : Nat) :
    store.blockByte (disk.setSector (store.blockLba block.toNat) (List.replicate blockSize 0))
      (blocks ++ [block]) position = store.blockByte disk blocks position := by
  have full : (List.replicate blockSize (0 : UInt8)).length = blockSize := List.length_replicate
  have small := Nat.mod_lt position (by decide : 0 < blockSize)
  rcases Nat.lt_trichotomy (position / blockSize) blocks.length with inside | last | behind
  · rw [← Blockfs.blockByte_other full other, Blockfs.blockByte, Blockfs.blockByte,
      List.getElem?_append_left inside]
  · rw [Blockfs.blockByte, Blockfs.blockByte, last, List.getElem?_concat_length,
      List.getElem?_eq_none (Nat.le_refl _)]
    refine (overwrite_inside _ _ _ _ (by rw [full]; exact small)).trans ?_
    exact List.getElem_replicate _
  · rw [Blockfs.blockByte, Blockfs.blockByte, List.getElem?_eq_none (by simpa using behind),
      List.getElem?_eq_none (by omega)]

namespace Blockfs

variable {store store' : Blockfs} {disk : Disk}

theorem SameGeometry.layout (same : store.SameGeometry store') (layout : store.Layout disk) :
    store'.Layout disk := by
  refine ⟨layout.present, layout.large, ?_, ?_, ?_, ?_⟩
  · rw [same.dataStart, same.bitmapSectors, layout.dataStart]
  · rw [same.dataStart, same.total]
    exact layout.blocksFit
  · rw [same.bitmapBytes, same.bitmapSectors]
    exact layout.bitmapFits
  · rw [same.total, same.bitmapBytes]
    exact layout.blocksMapped

theorem SameGeometry.spare {faults : Faults} (same : store.SameGeometry store')
    (spare : faults.Spare store) : faults.Spare store' := by
  refine ⟨fun block lba inside listed => ?_, fun block lba inside listed => ?_⟩
  · rw [same.total] at inside
    exact spare.reads block lba inside ((same.blockSectors block lba).mp listed)
  · rw [same.total] at inside
    exact spare.writes block lba inside ((same.blockSectors block lba).mp listed)

theorem SameGeometry.blockLba (same : store.SameGeometry store') (block : Nat) :
    store'.blockLba block = store.blockLba block := by
  rw [Blockfs.blockLba, Blockfs.blockLba, same.dataStart]

theorem SameGeometry.blockByte (same : store.SameGeometry store') (disk : Disk)
    (blocks : List UInt32) (position : Nat) :
    store'.blockByte disk blocks position = store.blockByte disk blocks position := by
  rw [Blockfs.blockByte, Blockfs.blockByte]
  cases blocks[position / blockSize]? with
  | none => rfl
  | some block =>
      simp only
      rw [same.blockLba]

end Blockfs

/-- What adding blocks leaves: a list that is no shorter, with the same bytes, since the new
blocks are full of zeros. -/
structure Lengthened (blocks : List UInt32) (store : Blockfs) (disk : Disk)
    (result : List UInt32 × Blockfs × Disk) : Prop where
  geometry : store.SameGeometry result.2.1
  length : blocks.length ≤ result.1.length
  lists : result.2.1.Lists result.1
  layout : result.2.1.Layout result.2.2
  bytes : ∀ position,
    result.2.1.blockByte result.2.2 result.1 position = store.blockByte disk blocks position

theorem Lengthened.refl {blocks : List UInt32} {store : Blockfs} {disk : Disk}
    (lists : store.Lists blocks) (layout : store.Layout disk) :
    Lengthened blocks store disk (blocks, store, disk) :=
  ⟨.refl store, Nat.le_refl _, lists, layout, fun _ => rfl⟩

theorem growBlocks_lengthened {faults : Faults} {missing : Nat} {blocks : List UInt32}
    {store : Blockfs} {disk : Disk} (available : store.available = true)
    (layout : store.Layout disk) (spare : faults.Spare store) (lists : store.Lists blocks) :
    Lengthened blocks store disk (growBlocks faults missing blocks store disk).2 := by
  induction missing generalizing blocks store disk with
  | zero => exact .refl lists layout
  | succ missing known =>
      rw [growBlocks]
      cases allocated : store.allocBlock with
      | none => exact .refl lists layout
      | some pair =>
          rcases pair with ⟨block, store'⟩
          have same := Blockfs.allocBlock_geometry allocated
          rcases Blockfs.allocBlock_cases allocated with ⟨-, below, free, after⟩
          have number : (UInt32.ofNat block).toNat = block := by
            rw [UInt32.toNat_ofNat', Nat.mod_eq_of_lt (Nat.lt_trans below store.totalFits)]
          have other : ∀ listed ∈ blocks, listed.toNat ≠ (UInt32.ofNat block).toNat := by
            intro listed member here
            have set := lists.marked listed member
            rw [here, number, free] at set
            cases set
          have lists' : store'.Lists (blocks ++ [UInt32.ofNat block]) := by
            refine ⟨?_, fun listed member => ?_, fun listed member => ?_⟩
            · exact lists.distinct.append (List.nodup_singleton _) fun listed old new =>
                other listed old (congrArg UInt32.toNat (List.mem_singleton.mp new))
            · rw [same.total]
              rcases List.mem_append.mp member with old | new
              · exact lists.inside listed old
              · rw [List.mem_singleton.mp new, number]
                exact below
            · rw [after]
              rcases List.mem_append.mp member with old | new
              · simp [lists.marked listed old]
              · simp [List.mem_singleton.mp new, number]
          have written : store'.writeBlock faults block (List.replicate blockSize 0) disk =
              (true, disk.setSector (store.blockLba (UInt32.ofNat block).toNat)
                (List.replicate blockSize 0)) := by
            rw [number, ← same.blockLba]
            exact Blockfs.writeBlock_eq (same.available.trans available) (same.layout layout)
              (same.spare spare) (by rw [same.total]; exact below) List.length_replicate
          simp only
          rw [written]
          have rest := known (same.available.trans available)
            ((same.layout layout).setSector (store.blockLba (UInt32.ofNat block).toNat)
              (List.replicate blockSize 0)) (same.spare spare) lists'
          have longer := rest.length
          rw [List.length_append] at longer
          refine ⟨same.trans rest.geometry, Nat.le_trans (Nat.le_add_right _ _) longer, rest.lists,
            rest.layout, fun position => ?_⟩
          rw [rest.bytes position, same.blockByte, blockByte_append other]

theorem ensureBlocks_lengthened {platform : Platform} (nblocks : Nat)
    (blocks : Option (List UInt32)) {store : Blockfs} {disk : Disk}
    (available : store.available = true) (layout : store.Layout disk)
    (spare : platform.faults.Spare store) (lists : store.Lists (blocks.getD [])) :
    Lengthened (blocks.getD []) store disk
      ((ensureBlocks platform nblocks blocks store disk).2.1.getD [],
        (ensureBlocks platform nblocks blocks store disk).2.2) := by
  rw [ensureBlocks]
  simp only
  split
  · exact .refl lists layout
  split
  · exact .refl lists layout
  · exact growBlocks_lengthened available layout spare lists

end Trinux
