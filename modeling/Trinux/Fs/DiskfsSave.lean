import Trinux.Fs.Diskfs

namespace Trinux

open Bytes Listing

/-!
# The image a save writes

The serializer only appends to its buffer, and it stops descending once the node
counter reaches its limit.  On a heap that holds a tree its output is therefore
one append for each entry of the tree's listing, up to the limit.  If no append
ran out of memory, the buffer is the concatenation of the records, and the image
on the medium is the sealed superblock, these records and the padding.
-/

/-! ## The growable buffer -/

structure Buffer.Fits (buffer : Buffer) : Prop where
  room : buffer.bytes.length ≤ buffer.cap
  pages : buffer.cap % 4096 = 0
  heap : buffer.cap ≤ heapPayload

theorem growCap_spec (fuel cap need : Nat) :
    need ≤ growCap fuel cap need ∨ growCap fuel cap need = cap * 2 ^ fuel := by
  induction fuel generalizing cap with
  | zero => exact Or.inr (by simp [growCap])
  | succ fuel known =>
      rw [growCap]
      split
      · rcases known (cap * 2) with enough | doubled
        · exact Or.inl enough
        · exact Or.inr (by rw [doubled, Nat.pow_succ, Nat.mul_assoc, Nat.mul_comm 2])
      · exact Or.inl (by omega)

theorem growCap_pages (fuel cap need : Nat) (pages : cap % 4096 = 0) :
    growCap fuel cap need % 4096 = 0 := by
  induction fuel generalizing cap with
  | zero => exact pages
  | succ fuel known =>
      rw [growCap]
      split
      · exact known (cap * 2) (by omega)
      · exact pages

theorem kmalloc_lt {granted : Bool} {size : Nat} (allocated : kmalloc granted size = true) :
    size < 2 ^ 32 := by
  rw [kmalloc, Bool.and_eq_true, decide_eq_true_eq] at allocated
  exact allocated.2.2.1

@[simp] theorem bufEnsure_bytes (alloc : Nat → Bool) (extra : Nat) (buffer : Buffer) :
    (bufEnsure alloc extra buffer).bytes = buffer.bytes := by
  unfold bufEnsure
  split
  · rfl
  split
  · rfl
  simp only
  generalize (if buffer.cap = 0 then 4096 else buffer.cap * 2) = start
  split <;> rfl

/-- Growing keeps the bytes; if it does not run out of memory there is room for the rest. -/
theorem bufEnsure_fits (alloc : Nat → Bool) (extra : Nat) (buffer : Buffer)
    (fits : buffer.oom = false → buffer.Fits)
    (enough : (bufEnsure alloc extra buffer).oom = false) :
    buffer.oom = false ∧ (bufEnsure alloc extra buffer).Fits ∧
      buffer.bytes.length + extra ≤ (bufEnsure alloc extra buffer).cap := by
  unfold bufEnsure at enough ⊢
  by_cases oom : buffer.oom = true
  · rw [if_pos oom] at enough
    rw [oom] at enough
    cases enough
  have alive : buffer.oom = false := by simpa using oom
  rw [if_neg oom] at enough ⊢
  by_cases room : buffer.bytes.length + extra ≤ buffer.cap
  · rw [if_pos room]
    exact ⟨alive, fits alive, room⟩
  rw [if_neg room] at enough ⊢
  simp only at enough ⊢
  generalize start : (if buffer.cap = 0 then 4096 else buffer.cap * 2) = cap at enough ⊢
  have pages : cap % 4096 = 0 ∧ 4096 ≤ cap := by
    have old := (fits alive).pages
    rw [← start]
    split <;> omega
  split at enough
  · rename_i allocated
    rw [if_pos allocated]
    have newPages := growCap_pages 32 cap (buffer.bytes.length + extra) pages.1
    have newHeap := kmalloc_le allocated (by omega)
    have newSmall := kmalloc_lt allocated
    have newRoom : buffer.bytes.length + extra ≤
        growCap 32 cap (buffer.bytes.length + extra) := by
      rcases growCap_spec 32 cap (buffer.bytes.length + extra) with reached | exhausted
      · exact reached
      · rw [exhausted] at newSmall
        omega
    exact ⟨alive, ⟨by simp only; omega, newPages, newHeap⟩, newRoom⟩
  · cases enough

theorem bufPut_spec (alloc : Nat → Bool) (buffer : Buffer) (bytes : List UInt8)
    (fits : buffer.oom = false → buffer.Fits)
    (enough : (bufPut alloc buffer bytes).oom = false) :
    buffer.oom = false ∧ (bufPut alloc buffer bytes).Fits ∧
      (bufPut alloc buffer bytes).bytes = buffer.bytes ++ bytes := by
  unfold bufPut at enough ⊢
  simp only at enough ⊢
  by_cases oom : (bufEnsure alloc bytes.length buffer).oom = true
  · rw [if_pos oom] at enough
    rw [oom] at enough
    cases enough
  rw [if_neg oom] at enough ⊢
  obtain ⟨alive, grown, room⟩ := bufEnsure_fits alloc bytes.length buffer fits (by simpa using oom)
  refine ⟨alive, ⟨?_, grown.pages, grown.heap⟩, by rw [bufEnsure_bytes]⟩
  rw [bufEnsure_bytes, List.length_append]
  exact room

theorem bufPuts_spec (alloc : Nat → Bool) (puts : List (List UInt8)) (buffer : Buffer)
    (fits : buffer.oom = false → buffer.Fits)
    (enough : (puts.foldl (bufPut alloc) buffer).oom = false) :
    buffer.oom = false ∧ (puts.foldl (bufPut alloc) buffer).Fits ∧
      (puts.foldl (bufPut alloc) buffer).bytes = buffer.bytes ++ puts.flatten := by
  induction puts generalizing buffer with
  | nil => exact ⟨enough, fits enough, by simp⟩
  | cons bytes rest known =>
      rw [List.foldl_cons] at enough ⊢
      have fitsNext : (bufPut alloc buffer bytes).oom = false → (bufPut alloc buffer bytes).Fits :=
        fun alive => (bufPut_spec alloc buffer bytes fits alive).2.1
      obtain ⟨alive, final, bytesEq⟩ := known (bufPut alloc buffer bytes) fitsNext enough
      obtain ⟨before, -, first⟩ := bufPut_spec alloc buffer bytes fits alive
      exact ⟨before, final, by rw [bytesEq, first, List.flatten_cons, List.append_assoc]⟩

/-! ## Serializing a tree -/

def Fs.entryPuts (fs : Fs) (entry : Int × Nat) : List (List UInt8) :=
  match fs.node entry.2 with
  | some node => node.recordPuts entry.1
  | none => []

def serialized (alloc : Nat → Bool) (fs : Fs) (entries : List (Int × Nat))
    (state : Buffer × List Nat) : Buffer × List Nat :=
  ((entries.flatMap fs.entryPuts).foldl (bufPut alloc) state.1,
    state.2 ++ entries.map Prod.snd)

theorem serialized_append (alloc : Nat → Bool) (fs : Fs) (front back : List (Int × Nat))
    (state : Buffer × List Nat) :
    serialized alloc fs (front ++ back) state =
      serialized alloc fs back (serialized alloc fs front state) := by
  simp [serialized]

def Fs.Live (fs : Fs) (entries : List (Int × Nat)) : Prop :=
  ∀ entry ∈ entries, ∃ node, fs.node entry.2 = some node

section Serialize

open Listing.OrderedTree

variable (alloc : Nat → Bool) (fs : Fs)

mutual

/-- Below the node limit the serializer walks the listing of the tree. -/
theorem serializeNode_eq :
    ∀ (tree : OrderedTree Nat) (fuel : Nat) (parent : Int) (start : Nat)
      (state : Buffer × List Nat), tree.Presents fs.childrenOf →
      fs.Live (tree.listing parent start) → state.2.length = start → start < diskfsMaxNodes →
      diskfsMaxNodes ≤ fuel + start →
      serializeNode alloc fs fuel tree.root parent state =
        serialized alloc fs ((tree.listing parent start).take (diskfsMaxNodes - start)) state
  | .node label children, fuel, parent, start, (buffer, order), presents, live, count, below,
      enough => by
      obtain ⟨depth, rfl⟩ : ∃ depth, fuel = depth + 1 := ⟨fuel - 1, by omega⟩
      obtain ⟨node, found⟩ := live (parent, label) (by simp [listing])
      obtain ⟨room, isRoom⟩ : ∃ room, diskfsMaxNodes - start = room + 1 :=
        ⟨diskfsMaxNodes - start - 1, by omega⟩
      rw [Presents, Fs.childrenOf_eq found] at presents
      simp only at count
      have below := serializeForest_eq children depth start (start + 1)
        ((node.recordPuts parent).foldl (bufPut alloc) buffer, order ++ [label]) presents.2
        (fun entry member => live entry (by simp [listing, member]))
        (by simp only [List.length_append, List.length_singleton]; omega) (by omega)
      have rest : diskfsMaxNodes - (start + 1) = room := by omega
      rw [rest] at below
      rw [listing, isRoom, List.take_succ_cons, OrderedTree.root, serializeNode, found]
      simp only [presents.1, count]
      rw [below]
      simp [serialized, Fs.entryPuts, found]

theorem serializeForest_eq :
    ∀ (forest : List (OrderedTree Nat)) (fuel parent start : Nat) (state : Buffer × List Nat),
      ForestPresents fs.childrenOf forest → fs.Live (forestListing parent start forest) →
      state.2.length = min start diskfsMaxNodes → diskfsMaxNodes ≤ fuel + start →
      (forest.map OrderedTree.root).foldl (fun state child =>
          if diskfsMaxNodes ≤ state.2.length then state
          else serializeNode alloc fs fuel child parent state) state =
        serialized alloc fs ((forestListing parent start forest).take (diskfsMaxNodes - start))
          state
  | [], _, _, _, state, _, _, _, _ => by simp [forestListing, serialized]
  | tree :: rest, fuel, parent, start, state, presents, live, count, enough => by
      rw [ForestPresents] at presents
      rw [List.map_cons, List.foldl_cons, forestListing, List.take_append, serialized_append,
        listing_length]
      have liveTree : fs.Live (tree.listing parent start) :=
        fun entry member => live entry (by simp [forestListing, member])
      have liveRest : fs.Live (forestListing parent (start + tree.size) rest) :=
        fun entry member => live entry (by simp [forestListing, member])
      by_cases full : diskfsMaxNodes ≤ state.2.length
      · have none : diskfsMaxNodes - start = 0 := by omega
        rw [if_pos full, none, List.take_zero]
        have later := serializeForest_eq rest fuel parent (start + tree.size) state presents.2
          liveRest (by omega) (by omega)
        rw [later]
        have noneLater : diskfsMaxNodes - (start + tree.size) = 0 := by omega
        rw [noneLater]
        simp [serialized]
      · have here := serializeNode_eq tree fuel parent start state presents.1 liveTree (by omega)
          (by omega) enough
        rw [if_neg full, here]
        have later := serializeForest_eq rest fuel parent (start + tree.size)
          (serialized alloc fs ((tree.listing parent start).take (diskfsMaxNodes - start)) state)
          presents.2 liveRest
          (by
            rw [serialized, List.length_append, List.length_map, List.length_take,
              listing_length]
            omega) (by omega)
        rw [later]
        congr 2
        omega

end

end Serialize

/-! ## The sealed image -/

def Fs.recordBytes (fs : Fs) (entry : Int × Nat) : List UInt8 := (fs.entryPuts entry).flatten

def Fs.body (fs : Fs) (entries : List (Int × Nat)) : List UInt8 := entries.flatMap fs.recordBytes

/-- The image of a listing: superblock, records, and zeros up to a full sector. -/
def Fs.image (fs : Fs) (entries : List (Int × Nat)) : List UInt8 :=
  le32 diskfsMagic ++ le32 diskfsVersion ++ le32 (UInt32.ofNat entries.length) ++
    le32 (UInt32.ofNat (16 + (fs.body entries).length)) ++ fs.body entries ++
    List.replicate
      (sectorsFor (16 + (fs.body entries).length) * ataSectorSize - (16 + (fs.body entries).length))
      0

def savedEntries (tree : OrderedTree Nat) : List (Int × Nat) :=
  (tree.listing (-1) 0).take diskfsMaxNodes

theorem le_sectorsFor (length : Nat) : length ≤ sectorsFor length * ataSectorSize := by
  simp only [sectorsFor, ataSectorSize]
  omega

theorem Fs.image_length (fs : Fs) (entries : List (Int × Nat)) :
    (fs.image entries).length = sectorsFor (16 + (fs.body entries).length) * ataSectorSize := by
  have bound := le_sectorsFor (16 + (fs.body entries).length)
  simp only [image, List.length_append, le32_length, List.length_replicate]
  omega

theorem sealImage_eq (fs : Fs) (entries : List (Int × Nat)) :
    sealImage (superblockPuts.flatten ++ fs.body entries) entries.length = fs.image entries := by
  have length : (superblockPuts.flatten ++ fs.body entries).length =
      16 + (fs.body entries).length := by
    rw [List.length_append]
    rfl
  rw [sealImage, length, Fs.image]
  congr 1

/-- The metadata region lies inside the medium and behind the bitmap of the block store. -/
theorem Blockfs.Layout.base {store : Blockfs} {disk : Disk} (layout : store.Layout disk) :
    bitmapLba + store.bitmapSectors ≤ diskfsBaseLba disk := by
  have large := layout.large
  have start := layout.dataStart
  have fit := layout.blocksFit
  rw [diskfsBaseLba]
  simp only
  rw [if_pos (by omega)]
  omega

/-- The buffer that the walk of a tree leaves, if it did not run out of memory. -/
theorem serializeTree_eq {alloc : Nat → Bool} {fs : Fs} {tree : OrderedTree Nat}
    (holds : fs.Holds tree) :
    serializeTree alloc fs tree.root =
      serialized alloc fs (savedEntries tree)
        (superblockPuts.foldl (bufPut alloc) ⟨[], 0, false⟩, []) := by
  have live : fs.Live (tree.listing (-1) 0) := fun entry member =>
    (holds.live entry member).imp fun _ found => found.1
  exact serializeNode_eq alloc fs tree diskfsMaxNodes (-1) 0 _ holds.presents live rfl
    (by decide) (by omega)

/-- A built image is the image of the saved entries, fits the heap and the metadata region. -/
theorem buildImage_ok {alloc : Nat → Bool} {fs : Fs} {disk : Disk} {tree : OrderedTree Nat}
    {image : List UInt8} (holds : fs.Holds tree)
    (built : buildImage alloc fs disk = .ok image) :
    disk.present = true ∧ image = fs.image (savedEntries tree) ∧ image.length ≤ heapPayload ∧
      image.length ≤ diskfsMaxImage ∧
      diskfsBaseLba disk + image.length / ataSectorSize ≤ disk.total.toNat ∧
      image.length / ataSectorSize ≤ diskfsTailSectors := by
  rw [buildImage] at built
  by_cases absent : (!disk.present) = true
  · rw [if_pos absent] at built
    cases built
  rw [if_neg absent, holds.root] at built
  simp only at built
  by_cases memory : (!kmalloc (alloc 0) (4 * diskfsMaxNodes)) = true
  · rw [if_pos memory] at built
    cases built
  rw [if_neg memory, serializeTree_eq holds, finishImage] at built
  generalize state : serialized alloc fs (savedEntries tree)
    (superblockPuts.foldl (bufPut alloc) ⟨[], 0, false⟩, []) = final at built
  by_cases oom : final.1.oom = true
  · rw [if_pos oom] at built
    cases built
  rw [if_neg oom] at built
  by_cases long : diskfsMaxImage < final.1.bytes.length
  · rw [if_pos long] at built
    cases built
  rw [if_neg long] at built
  by_cases padding : (bufEnsure alloc (sectorsFor final.1.bytes.length * ataSectorSize -
      final.1.bytes.length) final.1).oom = true
  · rw [if_pos padding] at built
    cases built
  rw [if_neg padding] at built
  by_cases tail : diskfsTailSectors < sectorsFor final.1.bytes.length
  · rw [if_pos tail] at built
    cases built
  rw [if_neg tail] at built
  by_cases outside : disk.total.toNat < diskfsBaseLba disk + sectorsFor final.1.bytes.length
  · rw [if_pos outside] at built
    cases built
  rw [if_neg outside] at built
  have puts : final.1 = (superblockPuts ++ (savedEntries tree).flatMap fs.entryPuts).foldl
      (bufPut alloc) ⟨[], 0, false⟩ := by
    rw [← state, serialized, List.foldl_append]
  have start : (⟨[], 0, false⟩ : Buffer).Fits := ⟨Nat.le_refl _, rfl, by decide⟩
  have alive : ((superblockPuts ++ (savedEntries tree).flatMap fs.entryPuts).foldl
      (bufPut alloc) ⟨[], 0, false⟩).oom = false := by
    rw [← puts]
    simpa using oom
  obtain ⟨-, fits, bytes⟩ := bufPuts_spec alloc _ _ (fun _ => start) alive
  rw [← puts] at fits bytes
  have content : final.1.bytes = superblockPuts.flatten ++ fs.body (savedEntries tree) := by
    rw [bytes, List.nil_append, List.flatten_append]
    congr 1
    simp only [Fs.body, List.flatMap_def, List.flatten_flatten, List.map_map]
    rfl
  have count : final.2.length = (savedEntries tree).length := by
    rw [← state, serialized]
    simp
  obtain ⟨-, grown, room⟩ := bufEnsure_fits alloc _ final.1 (fun _ => fits)
    (by simpa using padding)
  have length : final.1.bytes.length = 16 + (fs.body (savedEntries tree)).length := by
    rw [content, List.length_append]
    rfl
  have sealed : image = fs.image (savedEntries tree) := by
    cases built
    rw [content, count, sealImage_eq]
  have heap := grown.heap
  have whole := le_sectorsFor final.1.bytes.length
  have sectors : image.length = sectorsFor final.1.bytes.length * ataSectorSize := by
    rw [sealed, Fs.image_length, length]
  have quotient : image.length / ataSectorSize = sectorsFor final.1.bytes.length := by
    rw [sectors, Nat.mul_div_cancel _ (by decide)]
  refine ⟨by simpa using absent, sealed, by omega, ?_, by omega, by omega⟩
  have short : sectorsFor final.1.bytes.length ≤ 131072 := by
    rw [← diskfsTailSectors_eq]
    omega
  rw [sectors]
  simp only [ataSectorSize, diskfsMaxImage]
  omega

/-- The codes that a save returns before its first write. -/
theorem buildImage_error {alloc : Nat → Bool} {fs : Fs} {disk : Disk} {code : Int}
    (failed : buildImage alloc fs disk = .error code) : -6 ≤ code ∧ code ≤ -1 := by
  rw [buildImage] at failed
  by_cases absent : (!disk.present) = true
  · rw [if_pos absent] at failed
    cases failed
    decide
  rw [if_neg absent] at failed
  cases isRoot : fs.root with
  | none =>
      rw [isRoot] at failed
      cases failed
      decide
  | some root =>
      rw [isRoot] at failed
      simp only at failed
      by_cases memory : (!kmalloc (alloc 0) (4 * diskfsMaxNodes)) = true
      · rw [if_pos memory] at failed
        cases failed
        decide
      rw [if_neg memory, finishImage] at failed
      split_ifs at failed <;> cases failed <;> decide

theorem Fs.image_sectors (fs : Fs) (entries : List (Int × Nat)) :
    (fs.image entries).length = (fs.image entries).length / ataSectorSize * ataSectorSize := by
  rw [image_length, Nat.mul_div_cancel _ (by decide)]

/-- Writing an image succeeds with the image in place, or stops at a failing sector. -/
theorem writeImage_eq (faults : Faults) (alloc : Nat → Bool) (store : Blockfs) (disk : Disk)
    (present : disk.present = true) (image : List UInt8) :
    writeImage faults alloc store disk image =
      match ataWriteSectors faults (diskfsBaseLba disk) (image.length / ataSectorSize) image
        disk with
      | (false, left) => (-7, left)
      | (true, written) =>
          (0, if store.available then store.flushBitmap faults (alloc 1) written
            else written) := by
  rw [writeImage, ataWriteLoop_eq _ _ _ _ _ _ _ (Nat.le_refl _) (by omega) present] <;> rfl

/-- What a save that returns zero does to the medium: the image replaces the start of the
metadata region, and the bitmap is flushed behind the boot reserve. -/
theorem diskfsSave_zero {faults : Faults} {alloc : Nat → Bool} {fs : Fs} {store : Blockfs}
    {disk disk' : Disk} {tree : OrderedTree Nat} (holds : fs.Holds tree)
    (saved : diskfsSave faults alloc fs store disk = (0, disk')) :
    buildImage alloc fs disk = .ok (fs.image (savedEntries tree)) ∧
      disk' = if store.available then
          store.flushBitmap faults (alloc 1)
            (disk.setSector (diskfsBaseLba disk) (fs.image (savedEntries tree)))
        else disk.setSector (diskfsBaseLba disk) (fs.image (savedEntries tree)) := by
  rw [diskfsSave] at saved
  cases built : buildImage alloc fs disk with
  | error code =>
      have negative := buildImage_error built
      rw [built] at saved
      cases saved
      omega
  | ok image =>
      obtain ⟨present, rfl, -⟩ := buildImage_ok holds built
      rw [built] at saved
      simp only at saved
      rw [writeImage_eq _ _ _ _ present] at saved
      refine ⟨rfl, ?_⟩
      have bytes := ataWriteSectors_bytes faults (diskfsBaseLba disk)
        ((fs.image (savedEntries tree)).length / ataSectorSize) (fs.image (savedEntries tree))
        disk (fs.image_sectors _)
      cases outcome : ataWriteSectors faults (diskfsBaseLba disk)
          ((fs.image (savedEntries tree)).length / ataSectorSize) (fs.image (savedEntries tree))
          disk with
      | mk succeeded written =>
          rw [outcome] at saved bytes
          cases succeeded with
          | false => cases saved
          | true =>
              cases saved
              rw [show written = _ from bytes rfl]

/-- After a save that returns zero the metadata region starts with the image. -/
theorem diskfsSave_written {faults : Faults} {alloc : Nat → Bool} {fs : Fs} {store : Blockfs}
    {disk disk' : Disk} {tree : OrderedTree Nat} (holds : fs.Holds tree)
    (layout : store.available = true → store.Layout disk)
    (saved : diskfsSave faults alloc fs store disk = (0, disk')) :
    disk'.present = true ∧ disk'.total = disk.total ∧
      disk'.sectors (diskfsBaseLba disk)
        ((fs.image (savedEntries tree)).length / ataSectorSize) =
          fs.image (savedEntries tree) := by
  obtain ⟨built, after⟩ := diskfsSave_zero holds saved
  obtain ⟨present, -⟩ := buildImage_ok holds built
  have whole := fs.image_sectors (savedEntries tree)
  generalize fs.image (savedEntries tree) = image at *
  have inPlace : (disk.setSector (diskfsBaseLba disk) image).sectors (diskfsBaseLba disk)
      (image.length / ataSectorSize) = image := by
    rw [Disk.sectors, ← whole]
    exact window_overwrite _ _ _
  have stays : (disk.setSector (diskfsBaseLba disk) image).present = true := present
  by_cases available : store.available = true
  · rw [if_pos available] at after
    subst after
    refine ⟨?_, ?_, ?_⟩
    · rw [Blockfs.flushBitmap_present, stays]
    · rw [Blockfs.flushBitmap_total _ _ _ _ stays]
      rfl
    · have behind := (layout available).base
      refine Eq.trans (window_congr fun position low _ => ?_) inPlace
      apply Blockfs.flushBitmap_outside _ _ _ _ stays
      exact Or.inr (Nat.le_trans (Nat.mul_le_mul_right _ behind) low)
  · rw [if_neg available] at after
    subst after
    exact ⟨present, rfl, inPlace⟩

/-- The sectors outside the metadata region and the bitmap keep their bytes. -/
theorem diskfsSave_frame {faults : Faults} {alloc : Nat → Bool} {fs : Fs} {store : Blockfs}
    {disk disk' : Disk} {tree : OrderedTree Nat} (holds : fs.Holds tree)
    (saved : diskfsSave faults alloc fs store disk = (0, disk')) (position : Nat)
    (beforeImage : position < diskfsBaseLba disk * ataSectorSize)
    (outsideBitmap : position < bitmapLba * ataSectorSize ∨
      (bitmapLba + store.bitmapSectors) * ataSectorSize ≤ position) :
    disk'.bytes position = disk.bytes position := by
  obtain ⟨built, after⟩ := diskfsSave_zero holds saved
  obtain ⟨present, -⟩ := buildImage_ok holds built
  have outside : (disk.setSector (diskfsBaseLba disk) (fs.image (savedEntries tree))).bytes
      position = disk.bytes position := overwrite_outside _ _ _ _ (Or.inl beforeImage)
  have stays : (disk.setSector (diskfsBaseLba disk) (fs.image (savedEntries tree))).present =
      true := present
  by_cases available : store.available = true
  · rw [if_pos available] at after
    subst after
    rw [Blockfs.flushBitmap_outside _ _ _ _ stays position outsideBitmap, outside]
  · rw [if_neg available] at after
    subst after
    exact outside

end Trinux
