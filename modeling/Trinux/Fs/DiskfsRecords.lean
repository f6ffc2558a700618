import Trinux.Fs.DiskfsLoad
import Trinux.Fs.DiskfsSave

namespace Trinux

open Bytes Listing

/-!
# Reading one saved record back

A record starts with eight words and the name, and the loader always reads those
back.  The payload follows the header only if the node really had the contents
its header announces.  A FAT file announces its size, but its bytes are not in
the node, so nothing is written behind its name and the loader takes the next
record for the file's contents.
-/

/-! ## Which nodes survive -/

/-- The payload written behind the node's header has the length the header announces. -/
def VfsNode.Aligned (node : VfsNode) : Prop :=
  node.listsBlocks = true ∨ node.dataSize = 0 ∨ node.data ≠ none

/-- Everything the interface shows of the node is in its record: only files have a size, and a
file of positive size either has a block list or keeps its bytes in memory. -/
def VfsNode.Persistent (node : VfsNode) : Prop :=
  (node.type ≠ vfsFile → node.size = 0) ∧
    (node.size ≠ 0 → node.listsBlocks = true ∨ node.diskBacked = false ∧ node.data ≠ none)

instance (node : VfsNode) : Decidable node.Aligned := by
  unfold VfsNode.Aligned
  infer_instance

instance (node : VfsNode) : Decidable node.Persistent := by
  unfold VfsNode.Persistent
  infer_instance

def VfsNode.savedContents (node : VfsNode) : Contents :=
  if node.dataSize = 0 then .empty
  else if node.listsBlocks then .onDisk (node.blocks.getD [])
  else .inMemory ((node.data.getD []).take node.dataSize.toNat)

def VfsNode.savedView (node : VfsNode) : NodeView where
  name := node.name
  type := node.type
  permissions := node.permissions
  ownerUid := node.ownerUid
  ownerGid := node.ownerGid
  size := node.dataSize
  contents := node.savedContents

theorem VfsNode.Persistent.dataSize {node : VfsNode} (persistent : node.Persistent) :
    node.dataSize = node.size := by
  rw [VfsNode.dataSize]
  by_cases file : node.type = vfsFile
  · rw [if_pos file]
  · rw [if_neg file, persistent.1 file]

theorem VfsNode.Persistent.aligned {node : VfsNode} (persistent : node.Persistent) :
    node.Aligned := by
  by_cases empty : node.size = 0
  · exact Or.inr (Or.inl (persistent.dataSize.trans empty))
  · rcases persistent.2 empty with listed | ⟨-, kept⟩
    · exact Or.inl listed
    · exact Or.inr (Or.inr kept)

/-- A persistent node is restored with its own attributes. -/
theorem VfsNode.Persistent.savedView {node : VfsNode} (persistent : node.Persistent) :
    node.savedView = node.view := by
  have contents : node.savedContents = node.contents := by
    rw [savedContents, VfsNode.contents, persistent.dataSize]
    by_cases empty : node.size = 0
    · rw [if_pos empty, if_pos empty]
    rw [if_neg empty, if_neg empty]
    rcases persistent.2 empty with listed | ⟨inMemory, kept⟩
    · have backed : node.diskBacked = true := by
        rw [listsBlocks, Bool.and_eq_true] at listed
        exact listed.1
      rw [if_pos listed, if_pos backed]
    · have unlisted : node.listsBlocks = false := by
        rw [listsBlocks, inMemory, Bool.false_and]
      obtain ⟨bytes, found⟩ := Option.ne_none_iff_exists'.mp kept
      rw [unlisted, inMemory, found]
      rfl
  rw [VfsNode.savedView, VfsNode.view, persistent.dataSize, contents]

theorem VfsNode.Aligned.persistent {node : VfsNode} (aligned : node.Aligned)
    (same : node.savedView = node.view) : node.Persistent := by
  have size : node.dataSize = node.size := congrArg NodeView.size same
  have contents : node.savedContents = node.contents := congrArg NodeView.contents same
  constructor
  · intro notFile
    rw [← size, dataSize, if_neg notFile]
  · intro nonempty
    by_cases listed : node.listsBlocks = true
    · exact Or.inl listed
    have kept : node.data ≠ none := by
      rcases aligned with listed' | empty | kept
      · exact absurd listed' listed
      · exact absurd (size.symm.trans empty) nonempty
      · exact kept
    refine Or.inr ⟨?_, kept⟩
    cases backed : node.diskBacked with
    | false => rfl
    | true =>
        rw [savedContents, VfsNode.contents, size, if_neg nonempty, if_neg nonempty,
          if_neg listed, if_pos backed] at contents
        cases contents

/-! ## The header -/

def VfsNode.header (node : VfsNode) (parentIdx : Int) : RecordHeader where
  parentIdx := UInt32.ofInt parentIdx
  type := node.type
  permissions := node.permissions
  uid := node.ownerUid
  gid := node.ownerGid
  dataSize := node.dataSize
  nameLen := UInt32.ofNat node.name.length
  flags := if node.listsBlocks then 1 else 0

def RecordHeader.words (header : RecordHeader) : List UInt32 :=
  [header.parentIdx, header.type, header.permissions, header.uid, header.gid, header.dataSize,
    header.nameLen, header.flags]

def VfsNode.payload (node : VfsNode) : List UInt8 := node.payloadPuts.flatten

theorem VfsNode.recordPuts_flatten (node : VfsNode) (parentIdx : Int) :
    (node.recordPuts parentIdx).flatten =
      Bytes.words (node.header parentIdx).words ++ (node.name ++ node.payload) := by
  simp [recordPuts, RecordHeader.words, header, payload]

theorem readHeader_words (front : List UInt8) (header : RecordHeader) (rest : List UInt8) :
    readHeader (front ++ (Bytes.words header.words ++ rest)) front.length = header := by
  have word := readU32_words front header.words rest
  obtain ⟨parentIdx, type, permissions, uid, gid, dataSize, nameLen, flags⟩ := header
  unfold readHeader
  congr
  · exact word 0 (by simp [RecordHeader.words])
  · exact word 1 (by simp [RecordHeader.words])
  · exact word 2 (by simp [RecordHeader.words])
  · exact word 3 (by simp [RecordHeader.words])
  · exact word 4 (by simp [RecordHeader.words])
  · exact word 5 (by simp [RecordHeader.words])
  · exact word 6 (by simp [RecordHeader.words])
  · exact word 7 (by simp [RecordHeader.words])

@[simp] theorem header_words_length (header : RecordHeader) :
    (Bytes.words header.words).length = 32 := by
  rw [words_length]
  rfl

@[simp] theorem header_dataSize (node : VfsNode) (parentIdx : Int) :
    (node.header parentIdx).dataSize = node.dataSize := rfl

theorem header_flags (node : VfsNode) (parentIdx : Int) :
    (node.header parentIdx).flags &&& 1 ≠ 0 ↔ node.listsBlocks = true := by
  cases listed : node.listsBlocks <;> simp [VfsNode.header, listed]

/-! ## The payload -/

theorem readBlocks_words (front : List UInt8) (blocks : List UInt32) (rest : List UInt8) :
    readBlocks (front ++ (Bytes.words blocks ++ rest)) front.length blocks.length = blocks := by
  apply List.ext_getElem
  · simp [readBlocks]
  · intro index low high
    simp only [readBlocks, List.getElem_map, List.getElem_range]
    exact readU32_words front blocks rest index high

theorem u32_of_payload {value : Nat} (small : value ≤ heapPayload) : u32 value = value :=
  Nat.mod_eq_of_lt (Nat.lt_of_le_of_lt small (by decide))

theorem payload_listed {node : VfsNode} (listed : node.listsBlocks = true) :
    node.payload = le32 (UInt32.ofNat (node.blocks.getD []).length) ++
      Bytes.words (node.blocks.getD []) := by
  rw [VfsNode.payload, VfsNode.payloadPuts, if_pos listed, List.flatten_cons, Bytes.words,
    List.flatMap_def]

theorem payload_inMemory {node : VfsNode} (unlisted : node.listsBlocks = false)
    (sized : node.dataSize ≠ 0) {bytes : List UInt8} (found : node.data = some bytes) :
    node.payload = bytes.take node.dataSize.toNat := by
  rw [VfsNode.payload, VfsNode.payloadPuts, if_neg (by simp [unlisted]), if_pos sized, found]
  simp

theorem payload_empty {node : VfsNode} (unlisted : node.listsBlocks = false)
    (empty : node.dataSize = 0) : node.payload = [] := by
  rw [VfsNode.payload, VfsNode.payloadPuts, if_neg (by simp [unlisted]), if_neg (by simp [empty])]
  rfl

theorem VfsNode.dataSize_le_size (node : VfsNode) : node.dataSize.toNat ≤ node.size.toNat := by
  rw [dataSize]
  split
  · exact Nat.le_refl _
  · exact Nat.zero_le _

theorem readU32_count (front : List UInt8) (blocks : List UInt32) (rest : List UInt8) :
    readU32 (front ++ (le32 (UInt32.ofNat blocks.length) ++ Bytes.words blocks ++ rest))
      front.length = UInt32.ofNat blocks.length := by
  have := readU32_words front [UInt32.ofNat blocks.length] (Bytes.words blocks ++ rest) 0 (by simp)
  simpa using this

theorem payloadEnd_aligned {node : VfsNode} (aligned : node.Aligned)
    (wellFormed : node.WellFormed) (parentIdx : Int) (front rest : List UInt8)
    (imageBytes : Nat) (inside : front.length + node.payload.length ≤ imageBytes)
    (small : imageBytes ≤ heapPayload - 8) :
    payloadEnd true (front ++ (node.payload ++ rest)) imageBytes (node.header parentIdx)
      front.length = .next (front.length + node.payload.length) := by
  have smallEnough : imageBytes ≤ heapPayload := Nat.le_trans small (Nat.sub_le _ _)
  rw [payloadEnd]
  by_cases listed : node.listsBlocks = true
  · rw [if_pos ((header_flags node parentIdx).mpr listed)]
    rw [payload_listed listed] at inside ⊢
    generalize node.blocks.getD [] = blocks at inside ⊢
    rw [List.length_append, le32_length, words_length] at inside ⊢
    have fits : blocks.length < 2 ^ 32 := by
      have : heapPayload < 2 ^ 32 := by decide
      omega
    have count := readU32_count front blocks rest
    simp only [count, UInt32.toNat_ofNat_of_lt' fits]
    rw [u32_of_payload (by omega), if_neg (by omega), u32_of_payload (show blocks.length * 4 ≤ _ by
      omega), u32_of_payload (by omega), if_neg (by omega)]
    by_cases none : blocks.length = 0
    · rw [if_neg (by simp [none]), if_neg (by omega)]
      congr 1
      omega
    · rw [if_neg, if_neg (by omega)]
      · congr 1
        omega
      · rw [kmalloc_of_fits (by omega) (by omega)]
        simp
  · have unlisted : node.listsBlocks = false := by simpa using listed
    rw [if_neg (mt (header_flags node parentIdx).mp listed)]
    by_cases sized : node.dataSize ≠ 0
    · rw [header_dataSize, if_pos sized]
      obtain ⟨bytes, found⟩ : ∃ bytes, node.data = some bytes := by
        rcases aligned with listed' | empty | kept
        · exact absurd listed' listed
        · exact absurd empty sized
        · exact Option.ne_none_iff_exists'.mp kept
      rw [payload_inMemory unlisted sized found] at inside ⊢
      have enough : node.dataSize.toNat ≤ bytes.length :=
        Nat.le_trans node.dataSize_le_size (wellFormed.dataFits bytes found)
      rw [List.length_take, Nat.min_eq_left enough] at inside ⊢
      have positive : node.dataSize.toNat ≠ 0 := fun zero => sized (UInt32.toNat_inj.mp zero)
      have allocated := kmalloc_of_fits positive (show node.dataSize.toNat ≤ _ by omega)
      rw [u32_of_payload (by omega), if_neg (by omega), allocated, if_neg (by simp),
        if_neg (by omega)]
    · have empty : node.dataSize = 0 := by simpa using sized
      rw [header_dataSize, if_neg sized, payload_empty unlisted empty]
      rfl

structure VfsNode.Fresh (node : VfsNode) : Prop where
  size : node.size = 0
  data : node.data = none
  blocks : node.blocks = none
  diskBacked : node.diskBacked = false

/-- The payload of an aligned record gives a fresh node the saved attributes. -/
theorem restore_aligned {node fresh : VfsNode} (aligned : node.Aligned)
    (wellFormed : node.WellFormed) (isFresh : fresh.Fresh) (named : fresh.name = node.name)
    (parentIdx : Int) (front rest : List UInt8)
    (short : front.length + node.payload.length ≤ heapPayload) :
    ((node.header parentIdx).restore (front ++ (node.payload ++ rest)) front.length
      ((node.header parentIdx).apply fresh)).view = node.savedView ∧
    ∀ bytes, ((node.header parentIdx).restore (front ++ (node.payload ++ rest)) front.length
        ((node.header parentIdx).apply fresh)).data = some bytes →
      ((node.header parentIdx).restore (front ++ (node.payload ++ rest)) front.length
        ((node.header parentIdx).apply fresh)).size.toNat ≤ bytes.length := by
  rw [RecordHeader.restore]
  by_cases listed : node.listsBlocks = true
  · rw [if_pos ((header_flags node parentIdx).mpr listed), payload_listed listed]
    rw [payload_listed listed, List.length_append, le32_length, words_length] at short
    have blocksEq : node.savedContents =
        if node.dataSize = 0 then .empty else .onDisk (node.blocks.getD []) := by
      rw [VfsNode.savedContents, if_pos listed]
    rw [VfsNode.savedView, blocksEq]
    generalize node.blocks.getD [] = blocks at short ⊢
    have fits : blocks.length < 2 ^ 32 := by
      have : heapPayload < 2 ^ 32 := by decide
      omega
    have count := readU32_count front blocks rest
    have list : readBlocks (front ++ (le32 (UInt32.ofNat blocks.length) ++
        Bytes.words blocks ++ rest)) (front.length + 4) blocks.length = blocks := by
      have := readBlocks_words (front ++ le32 (UInt32.ofNat blocks.length)) blocks rest
      simpa using this
    simp only [count, UInt32.toNat_ofNat_of_lt' fits, list]
    have stored : (if blocks.length ≠ 0 then some blocks else
        ((node.header parentIdx).apply fresh).blocks).getD [] = blocks := by
      by_cases none : blocks.length = 0
      · rw [if_neg (by simp [none])]
        change fresh.blocks.getD [] = blocks
        rw [isFresh.blocks, List.eq_nil_of_length_eq_zero none]
        rfl
      · rw [if_pos none]
        rfl
    refine ⟨?_, ?_⟩
    · rw [VfsNode.view, VfsNode.contents]
      simp only [stored, header_dataSize, if_true]
      rw [← named]
      rfl
    · intro bytes found
      change fresh.data = some bytes at found
      rw [isFresh.data] at found
      cases found
  · have unlisted : node.listsBlocks = false := by simpa using listed
    rw [if_neg (mt (header_flags node parentIdx).mp listed), header_dataSize]
    by_cases sized : node.dataSize ≠ 0
    · obtain ⟨bytes, found⟩ : ∃ bytes, node.data = some bytes := by
        rcases aligned with listed' | empty | kept
        · exact absurd listed' listed
        · exact absurd empty sized
        · exact Option.ne_none_iff_exists'.mp kept
      have enough : node.dataSize.toNat ≤ bytes.length :=
        Nat.le_trans node.dataSize_le_size (wellFormed.dataFits bytes found)
      have length : (bytes.take node.dataSize.toNat).length = node.dataSize.toNat := by
        rw [List.length_take, Nat.min_eq_left enough]
      have payload : slice (front ++ (node.payload ++ rest)) front.length node.dataSize.toNat =
          bytes.take node.dataSize.toNat := by
        have skip := slice_append_right front (node.payload ++ rest) 0 node.dataSize.toNat
        rw [Nat.add_zero] at skip
        rw [skip, payload_inMemory unlisted sized found]
        have whole := slice_append_left (bytes.take node.dataSize.toNat) rest
        rwa [length] at whole
      rw [if_pos sized, payload]
      refine ⟨?_, ?_⟩
      · rw [VfsNode.view, VfsNode.savedView, VfsNode.contents, VfsNode.savedContents,
          if_neg sized, unlisted, found]
        simp only [RecordHeader.apply, isFresh.diskBacked]
        rw [if_neg sized, List.take_take, Nat.min_self, ← named]
        rfl
      · intro bytes' found'
        cases found'
        exact Nat.le_of_eq length.symm
    · have empty : node.dataSize = 0 := by simpa using sized
      rw [if_neg sized]
      refine ⟨?_, ?_⟩
      · rw [VfsNode.view, VfsNode.savedView, VfsNode.contents, VfsNode.savedContents,
          if_pos empty, empty, ← named]
        simp only [RecordHeader.apply, isFresh.size]
        rfl
      · intro bytes found
        change fresh.data = some bytes at found
        rw [isFresh.data] at found
        cases found

end Trinux
