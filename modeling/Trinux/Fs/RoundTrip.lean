import Trinux.Fs.Restore

namespace Trinux

open Bytes Listing

/-!
# When a save can be loaded back

A save that returns zero leaves an image whose header always reads back.  Its
records rebuild the saved tree exactly when every node survives and the tree has
no more nodes than the image may hold.

The failure cases are visible in the rebuilt heap.  If some record announces
contents that are not in it, the first such node comes back with bytes in memory
that it never had; later records can only add children and rename the root.  If
all records are read back, the heap is known entirely, and a dropped entry or a
lost size distinguishes it from the saved tree.
-/

/-! ## The image on the medium -/

/-- The metadata region of a medium starts with the image of a listing, as a save leaves it. -/
structure Disk.HoldsImage (disk : Disk) (source : Fs) (entries : List (Int × Nat)) : Prop where
  present : disk.present = true
  inside : diskfsBaseLba disk + (source.image entries).length / ataSectorSize ≤
    disk.total.toNat
  heap : (source.image entries).length ≤ heapPayload
  most : (source.image entries).length ≤ diskfsMaxImage
  written : disk.sectors (diskfsBaseLba disk)
    ((source.image entries).length / ataSectorSize) = source.image entries

theorem diskfsSave_holdsImage {faults : Faults} {alloc : Nat → Bool} {fs : Fs} {store : Blockfs}
    {disk disk' : Disk} {tree : OrderedTree Nat} (holds : fs.Holds tree)
    (layout : store.available = true → store.Layout disk)
    (saved : diskfsSave faults alloc fs store disk = (0, disk')) :
    disk'.HoldsImage fs (savedEntries tree) := by
  obtain ⟨built, -⟩ := diskfsSave_zero holds saved
  obtain ⟨-, -, heap, most, inside, -⟩ := buildImage_ok holds built
  obtain ⟨present, total, written⟩ := diskfsSave_written holds layout saved
  have base : diskfsBaseLba disk' = diskfsBaseLba disk := by
    rw [diskfsBaseLba, diskfsBaseLba, total]
  exact ⟨present, by rw [base, total]; exact inside, heap, most, by rw [base]; exact written⟩

/-- One command moves the whole image of a saved tree: always behind IDE, up to 64 sectors behind
AHCI. -/
def Transport.Moves (transport : Transport) (source : Fs) (entries : List (Int × Nat)) : Prop :=
  transport.ahci = true → sectorsFor (16 + (source.body entries).length) ≤ ahciSectors

theorem Transport.ide_moves (source : Fs) (entries : List (Int × Nat)) :
    Transport.ide.Moves source entries :=
  fun isAhci => absurd isAhci Bool.false_ne_true

/-- Reading succeeds on a medium whose metadata region holds an image. -/
theorem readImage_image {faults : Faults} {alloc : Nat → Bool} {disk : Disk} {source : Fs}
    {entries : List (Int × Nat)} (holds : disk.HoldsImage source entries)
    (readable : ∀ lba, faults.read lba = false) (granted : ∀ site, alloc site = true)
    (some_ : 0 < entries.length) (count : entries.length ≤ diskfsMaxNodes)
    {transport : Transport} (moved : transport.Moves source entries) :
    readImageOver transport faults alloc disk =
      .ok ⟨entries.length, 16 + (source.body entries).length, source.image entries⟩ := by
  obtain ⟨present, inside, heap, most, written⟩ := holds
  have length := source.image_length entries
  have atLeast := le_sectorsFor (16 + (source.body entries).length)
  have sectors : (source.image entries).length / ataSectorSize =
      sectorsFor (16 + (source.body entries).length) := by
    rw [length, Nat.mul_div_cancel _ (by decide)]
  have someSectors : 0 < sectorsFor (16 + (source.body entries).length) := by
    simp only [sectorsFor, ataSectorSize]
    omega
  rw [sectors] at inside written
  have first : ataReadSectors faults disk (diskfsBaseLba disk) 1 =
      some ((source.image entries).take ataSectorSize) := by
    rw [ataReadSectors_of_readable present (by omega) readable, ← written, Disk.sectors,
      Disk.sectors, Nat.one_mul]
    rw [window_take]
    exact Nat.le_mul_of_pos_left _ someSectors
  have shape : ∃ rest, source.image entries =
      [] ++ (words [diskfsMagic, diskfsVersion, UInt32.ofNat entries.length,
        UInt32.ofNat (16 + (source.body entries).length)] ++ rest) :=
    ⟨source.body entries ++ List.replicate (sectorsFor (16 + (source.body entries).length) *
        ataSectorSize - (16 + (source.body entries).length)) 0, by
      simp only [Fs.image, words_cons, words_nil, List.append_nil, List.nil_append,
        List.append_assoc]⟩
  obtain ⟨rest, shape⟩ := shape
  have word : ∀ index (bound : index < 4), readU32 ((source.image entries).take ataSectorSize)
      (4 * index) = [diskfsMagic, diskfsVersion, UInt32.ofNat entries.length,
        UInt32.ofNat (16 + (source.body entries).length)][index] := by
    intro index bound
    have read := readU32_words [] [diskfsMagic, diskfsVersion, UInt32.ofNat entries.length,
      UInt32.ofNat (16 + (source.body entries).length)] rest index bound
    rw [← shape, List.length_nil, Nat.zero_add] at read
    rw [readU32_take _ (by simp only [ataSectorSize]; omega), read]
  have magic : readU32 ((source.image entries).take ataSectorSize) 0 = diskfsMagic :=
    word 0 (by omega)
  have version : readU32 ((source.image entries).take ataSectorSize) 4 = diskfsVersion :=
    word 1 (by omega)
  have nodes : readU32 ((source.image entries).take ataSectorSize) 8 =
      UInt32.ofNat entries.length := word 2 (by omega)
  have bytes : readU32 ((source.image entries).take ataSectorSize) 12 =
      UInt32.ofNat (16 + (source.body entries).length) := word 3 (by omega)
  have nodesNat : (UInt32.ofNat entries.length).toNat = entries.length := by
    rw [UInt32.toNat_ofNat', Nat.mod_eq_of_lt]
    exact Nat.lt_of_le_of_lt count (by decide)
  have most' : 16 + (source.body entries).length ≤ diskfsMaxImage := by omega
  have bytesNat : (UInt32.ofNat (16 + (source.body entries).length)).toNat =
      16 + (source.body entries).length := by
    rw [UInt32.toNat_ofNat', Nat.mod_eq_of_lt]
    exact Nat.lt_of_le_of_lt most' (by decide)
  have buffer : kmalloc (alloc 0)
      (sectorsFor (16 + (source.body entries).length) * ataSectorSize) = true := by
    rw [granted, ← length]
    exact kmalloc_of_rounded (by omega) heap (by rw [length]; simp only [ataSectorSize]; omega)
  have map : kmalloc (alloc 1) (4 * entries.length) = true := by
    rw [granted]
    refine kmalloc_of_fits (by omega) (Nat.le_trans (Nat.mul_le_mul_left 4 count) (by decide))
  have loop : ataReadLoop transport faults disk 255 (sectorsFor (16 + (source.body entries).length))
      (diskfsBaseLba disk) (sectorsFor (16 + (source.body entries).length)) =
        some (source.image entries) := by
    rw [ataReadLoop_eq _ _ _ _ _ _ (Nat.le_refl _) (by omega) someSectors moved,
      ataReadSectors_of_readable present inside readable, written]
  rw [readImageOver, if_neg (by simp [present]), first]
  simp only [magic, version, nodes, bytes, nodesNat, bytesNat, buffer, map, loop]
  rw [if_neg (by simp), if_neg (by simp), if_neg (by omega), if_neg (by omega),
    if_neg (by simp), if_neg (by simp)]

/-! ## The loader starts from an empty root -/

structure Fs.Target (fs : Fs) (root : Nat) : Prop extends fs.Rooted root where
  blank : ∃ node, fs.node root = some node ∧ node.Fresh

theorem Fs.Target.older {fs : Fs} {root : Nat} (target : fs.Target root) : root < fs.next := by
  obtain ⟨node, found⟩ := target.live
  exact target.bounded.lt found

theorem wipeChildren_loaded {source fs : Fs} {entries : List (Int × Nat)} {root : Nat}
    (target : fs.Target root) :
    Loaded source entries root fs.next 0 ⟨16, wipeChildren fs.next fs root, []⟩ := by
  obtain ⟨wiped, next, cleared⟩ := wipeChildren_rooted target.toRooted
  obtain ⟨node, found, fresh⟩ := target.blank
  rw [found, Option.map_some] at cleared
  refine ⟨rfl, rfl, ⟨wiped.isRoot, next, fun _ => ⟨node.clear, cleared, ?_, rfl⟩,
    fun index _ none => absurd none (by omega)⟩⟩
  exact ⟨fresh.size, fresh.data, fresh.blocks, fresh.diskBacked⟩

theorem Fs.Mounted.loadable {source : Fs} {tree : OrderedTree Nat}
    (mounted : source.Mounted tree) : Loadable source (savedEntries tree) := by
  have positive := size_pos tree
  have total : (tree.listing (-1) 0).length = tree.size := listing_length _ _ _
  have laid := (presents_iff_laidOut source.childrenOf (-1) 0 (by omega) tree).mp
    mounted.presents
  have taken : ∀ index (inside : index < (savedEntries tree).length)
      (bound : index < (tree.listing (-1) 0).length),
      (savedEntries tree)[index] = (tree.listing (-1) 0)[index] := by
    intro index inside bound
    exact List.getElem_take
  have within : ∀ index, index < (savedEntries tree).length →
      index < (tree.listing (-1) 0).length := by
    intro index inside
    rw [savedEntries, List.length_take] at inside
    omega
  obtain ⟨rest, head⟩ : ∃ rest, tree.listing (-1) 0 = (-1, tree.root) :: rest := by
    cases tree
    exact ⟨_, rfl⟩
  have zero : ∀ inside : 0 < (savedEntries tree).length,
      (savedEntries tree)[0] = (-1, tree.root) := by
    intro inside
    rw [taken 0 inside (within 0 inside)]
    simp only [head, List.getElem_cons_zero]
  refine ⟨?_, ?_, ?_, ?_, ?_, ?_, ?_⟩
  · rw [savedEntries, List.length_take, total, diskfsMaxNodes]
    omega
  · rw [savedEntries, List.length_take]
    omega
  · intro inside
    rw [zero inside]
  · intro index inside later
    rw [taken index inside (within index inside)]
    exact listing_earlier tree index (within index inside) later
  · intro index inside
    have bound := within index inside
    obtain ⟨node, found, wellFormed⟩ := mounted.live _ (List.getElem_mem bound)
    have lists := laid index bound
    rw [Fs.childrenOf_eq found, Nat.cast_zero, zero_add] at lists
    have fewer : (childrenAt (savedEntries tree) (index : Int)).length ≤
        (childrenAt (tree.listing (-1) 0) (index : Int)).length := by
      rw [childrenAt, childrenAt, List.length_map, List.length_map]
      exact ((List.take_sublist _ _).filter _).length_le
    rw [← lists] at fewer
    exact Nat.le_trans fewer wellFormed.childrenFit
  · intro index inside
    rw [taken index inside (within index inside)]
    exact mounted.live _ (List.getElem_mem (within index inside))
  · intro inside node found
    rw [zero inside] at found
    obtain ⟨rootNode, isRoot, named, -⟩ := mounted.rootNode
    rw [isRoot] at found
    cases found
    rw [named]
    decide

/-! ## What later records can change -/

/-- Objects of the first heap keep their attributes, the root's aside, and their children. -/
structure Extends (root : Nat) (fs fs' : Fs) : Prop where
  isRoot : fs'.root = fs.root
  next : fs.next ≤ fs'.next
  cell : ∀ id, id < fs.next → ∀ node, fs.node id = some node → ∃ node',
    fs'.node id = some node' ∧ node.children <+: node'.children ∧
      (id ≠ root → node'.view = node.view)

section Extends

variable {root : Nat} {fs fs' fs'' : Fs}

theorem Extends.refl (root : Nat) (fs : Fs) : Extends root fs fs :=
  ⟨rfl, Nat.le_refl _, fun _ _ node found => ⟨node, found, List.prefix_refl _, fun _ => rfl⟩⟩

theorem Extends.trans (first : Extends root fs fs') (second : Extends root fs' fs'') :
    Extends root fs fs'' := by
  refine ⟨second.isRoot.trans first.isRoot, Nat.le_trans first.next second.next,
    fun id bound node found => ?_⟩
  obtain ⟨middle, isMiddle, grows, same⟩ := first.cell id bound node found
  obtain ⟨last, isLast, growsAgain, sameAgain⟩ :=
    second.cell id (Nat.lt_of_lt_of_le bound first.next) middle isMiddle
  exact ⟨last, isLast, grows.trans growsAgain,
    fun different => (sameAgain different).trans (same different)⟩

theorem Extends.touch (grown : Extends root fs fs') {id : Nat} (own : id = root ∨ fs.next ≤ id)
    {change : VfsNode → VfsNode} (kept : ∀ node, (change node).children = node.children) :
    Extends root fs (fs'.modify id change) := by
  refine ⟨grown.isRoot, grown.next, fun other bound node found => ?_⟩
  obtain ⟨node', isNode, grows, same⟩ := grown.cell other bound node found
  by_cases here : other = id
  · subst here
    refine ⟨change node', by rw [Fs.modify_node_self, isNode, Option.map_some], ?_, ?_⟩
    · rw [kept]
      exact grows
    · intro different
      rcases own with isRoot | new
      · exact absurd isRoot different
      · omega
  · exact ⟨node', by rw [Fs.modify_node_of_ne _ _ here, isNode], grows, same⟩

theorem Extends.create {granted : Bool} {now : UInt32} {parent id : Nat} {name : List UInt8}
    {type : UInt32} (older : parent < fs.next)
    (created : ramfsCreateNode granted now fs parent name type = some (id, fs')) :
    Extends root fs fs' := by
  obtain ⟨-, -, idEq, -⟩ := ramfsCreateNode_cases created
  refine ⟨ramfsCreateNode_root created, by rw [ramfsCreateNode_next created]; omega,
    fun other bound node found => ?_⟩
  by_cases here : other = parent
  · subst here
    refine ⟨node.attach id, ?_, ⟨[id], rfl⟩, fun _ => rfl⟩
    rw [ramfsCreateNode_parent older created, found, Option.map_some]
  · refine ⟨node, ?_, List.prefix_refl _, fun _ => rfl⟩
    rw [ramfsCreateNode_other created (by omega) here, found]

def LoadState.Older (state : LoadState) : Prop := ∀ id ∈ state.map, id < state.fs.next

theorem loadNode_extends {alloc : Nat → Bool} {clock : Nat → UInt32} {i : Nat}
    {header : RecordHeader} {name : List UInt8} {state : LoadState} (older : state.Older)
    (rootOlder : root < state.fs.next) {id : Nat}
    (loaded : loadNode alloc clock root i header name state = .next (id, fs')) :
    Extends root state.fs fs' ∧ (id = root ∨ state.fs.next ≤ id) ∧ id < fs'.next := by
  rcases loadNode_next loaded with ⟨-, rfl, rfl⟩ | ⟨-, created⟩
  · exact ⟨(Extends.refl _ _).touch (Or.inl rfl) fun _ => rfl, Or.inl rfl, rootOlder⟩
  have parentOlder : state.map.getD header.parentIdx.toNat root < state.fs.next := by
    rw [List.getD_eq_getElem?_getD]
    cases entry : state.map[header.parentIdx.toNat]? with
    | none => exact rootOlder
    | some parent => exact older parent (List.mem_of_getElem? entry)
  obtain ⟨-, -, idEq, -⟩ := ramfsCreateNode_cases created
  have next := ramfsCreateNode_next created
  exact ⟨Extends.create parentOlder created, Or.inr (by omega), by omega⟩

theorem loadRecord_extends {alloc : Nat → Bool} {clock : Nat → UInt32} {img : List UInt8}
    {imageBytes i : Nat} {state state' : LoadState} (older : state.Older)
    (rootOlder : root < state.fs.next)
    (loaded : loadRecord alloc clock img imageBytes root i state = .next state') :
    Extends root state.fs state'.fs ∧ state'.Older := by
  obtain ⟨-, id, fs, last, node, rfl⟩ := loadRecord_next loaded
  obtain ⟨grown, own, inside⟩ := loadNode_extends older rootOlder node
  refine ⟨(grown.touch own fun node => RecordHeader.apply_children _ node).touch own
    fun node => RecordHeader.restore_children _ _ _ node, ?_⟩
  intro other member
  rcases List.mem_append.mp member with old | new
  · exact Nat.lt_of_lt_of_le (older other old) grown.next
  · rw [List.mem_singleton.mp new]
    exact inside

theorem loadRecords_extends {alloc : Nat → Bool} {clock : Nat → UInt32} {img : List UInt8}
    {imageBytes remaining i : Nat} {state : LoadState} (older : state.Older)
    (rootOlder : root < state.fs.next)
    (loaded : loadRecords alloc clock img imageBytes root remaining i state = .ret 1 fs') :
    Extends root state.fs fs' := by
  induction remaining generalizing i state with
  | zero =>
      cases loaded
      exact Extends.refl _ _
  | succ remaining known =>
      rw [loadRecords] at loaded
      cases record : loadRecord alloc clock img imageBytes root i state with
      | fail code fs =>
          have negative := (loadRecord_fail record).1
          rw [record] at loaded
          cases loaded
          omega
      | wild =>
          rw [record] at loaded
          cases loaded
      | next state' =>
          rw [record] at loaded
          obtain ⟨grown, olderNext⟩ := loadRecord_extends older rootOlder record
          exact grown.trans (known olderNext (Nat.lt_of_lt_of_le rootOlder grown.next) loaded)

end Extends

/-! ## The first record without its contents -/

section Misaligned

variable {source : Fs} {entries : List (Int × Nat)} {root base : Nat}

/-- A node whose record is misaligned is a file with no block list and no bytes in memory. -/
theorem VfsNode.not_aligned {node : VfsNode} (misaligned : ¬node.Aligned) :
    node.listsBlocks = false ∧ node.dataSize ≠ 0 ∧ node.data = none := by
  rw [VfsNode.Aligned, not_or, not_or, not_not] at misaligned
  exact ⟨by simpa using misaligned.1, misaligned.2.1, misaligned.2.2⟩

theorem VfsNode.contents_of_not_aligned {node : VfsNode} (misaligned : ¬node.Aligned)
    (bytes : List UInt8) : node.contents ≠ .inMemory bytes := by
  obtain ⟨-, -, absent⟩ := VfsNode.not_aligned misaligned
  rw [VfsNode.contents, absent]
  split
  · simp
  split <;> simp

/-- The loader takes the bytes behind its name for the file's contents. -/
theorem restore_misaligned {node fresh : VfsNode} (misaligned : ¬node.Aligned)
    (isFresh : fresh.Fresh) (parentIdx : Int) (img : List UInt8) (off : Nat) :
    ∃ bytes, ((node.header parentIdx).restore img off
      ((node.header parentIdx).apply fresh)).contents = .inMemory bytes := by
  obtain ⟨unlisted, sized, -⟩ := VfsNode.not_aligned misaligned
  refine ⟨(slice img off node.dataSize.toNat).take node.dataSize.toNat, ?_⟩
  rw [RecordHeader.restore, if_neg (by rw [header_flags, unlisted]; simp), header_dataSize,
    if_pos sized, VfsNode.contents]
  simp only [RecordHeader.apply, isFresh.diskBacked]
  rw [if_neg sized]
  rfl

/-- If the load succeeds past the first misaligned record, that node has bytes in memory, and
the entries up to it are still the first children of their parents. -/
theorem misaligned_final (loadable : Loadable source entries) (older : root < base)
    {alloc : Nat → Bool} (granted : ∀ site, alloc site = true) (clock : Nat → UInt32)
    (small : 16 + (source.body entries).length ≤ heapPayload - 8) {p : Nat}
    (inside : p < entries.length) (later : 0 < p)
    (before : ∀ index (bound : index < entries.length) saved, index < p →
      source.node entries[index].2 = some saved → saved.Aligned)
    {saved : VfsNode} (found : source.node entries[p].2 = some saved)
    (misaligned : ¬saved.Aligned) {state : LoadState}
    (start : Loaded source entries root base 0 state) {fs' : Fs}
    (done : loadRecords alloc clock (source.image entries) (16 + (source.body entries).length)
      root entries.length 0 state = .ret 1 fs') :
    fs'.root = some root ∧
      (∃ node bytes, fs'.node (slotId root base p) = some node ∧
        node.contents = .inMemory bytes) ∧
      ∀ index : Nat, index ≤ p →
        childrenAt ((placed root base entries).take (p + 1)) (index : Int) <+:
          fs'.childrenOf (slotId root base index) := by
  obtain ⟨wellFormedNode, isNode, wellFormed⟩ := loadable.live p inside
  rw [found] at isNode
  cases isNode
  obtain ⟨reached, same, loaded⟩ := loadRecords_restores loadable older granted clock small 0 p
    (Nat.zero_le _) (Nat.le_of_lt inside) before start
  have count : entries.length - p = (entries.length - (p + 1)) + 1 := by omega
  rw [Nat.sub_zero] at same
  rw [same, count, loadRecords] at done
  have length := imageFront_length source entries p
  have body := congrArg List.length (show source.body entries = _ from body_split inside)
  have record := recordBytes_eq inside found
  have recordLength := congrArg List.length record
  rw [List.length_append, List.length_append, header_words_length] at recordLength
  rw [List.length_append, List.length_append] at body
  have whole : source.image entries = source.imageFront entries p ++
      (Bytes.words (saved.header entries[p].1).words ++
        (saved.name ++ (saved.payload ++ source.imageRest entries p))) := by
    rw [image_split inside, record]
    simp only [List.append_assoc]
  obtain ⟨fs, opened, loads⟩ := loadRecord_opens loadable older inside found wellFormed loaded
    granted clock (source.imageFront entries p) (saved.payload ++ source.imageRest entries p)
    (length.trans loaded.off.symm) (16 + (source.body entries).length) (by omega) (by omega)
  rw [← whole] at loads
  cases step : loadRecord alloc clock (source.image entries)
      (16 + (source.body entries).length) root p reached with
  | fail code fs =>
      have negative := (loadRecord_fail step).1
      rw [step] at done
      cases done
      omega
  | wild =>
      rw [step] at done
      cases done
  | next state' =>
      rw [step] at done loads
      obtain ⟨⟨off, last⟩, payload, result⟩ := StepOutcome.bind_eq_next loads.symm
      have heap := loadPayload_next payload
      simp only at heap result
      cases result
      rw [Fs.modify_modify] at heap
      have next : last.next = base + p := by
        rw [heap]
        exact opened.next
      have mapOlder : (⟨off, last, reached.map ++ [slotId root base p]⟩ : LoadState).Older := by
        intro id member
        have bound : ∃ slot, slot ≤ p ∧ id = slotId root base slot := by
          rcases List.mem_append.mp member with old | new
          · rw [loaded.mapped] at old
            obtain ⟨slot, low, isSlot⟩ := List.mem_map.mp old
            exact ⟨slot, Nat.le_of_lt (List.mem_range.mp low), isSlot.symm⟩
          · exact ⟨p, Nat.le_refl _, List.mem_singleton.mp new⟩
        obtain ⟨slot, low, rfl⟩ := bound
        change slotId root base slot < last.next
        rw [next]
        unfold slotId
        split <;> omega
      have extended := loadRecords_extends mapOlder
        (show root < last.next by rw [next]; omega) done
      have idBelow : ∀ index, index ≤ p → slotId root base index < last.next := by
        intro index low
        rw [next]
        unfold slotId
        split <;> omega
      obtain ⟨fresh, isFreshNode, isFresh, -, childless⟩ := opened.opened
      have lastNode : last.node (slotId root base p) =
          some ((saved.header entries[p].1).restore (source.image entries)
            ((source.imageFront entries p).length + 32 + saved.name.length)
            ((saved.header entries[p].1).apply fresh)) := by
        rw [heap, Fs.modify_node_self, isFreshNode, Option.map_some]
      refine ⟨?_, ?_, ?_⟩
      · rw [extended.isRoot, heap]
        exact opened.isRoot
      · obtain ⟨node', isNode', -, view⟩ := extended.cell _ (idBelow p (Nat.le_refl _)) _ lastNode
        obtain ⟨bytes, contents⟩ := restore_misaligned misaligned isFresh entries[p].1
          (source.image entries) ((source.imageFront entries p).length + 32 + saved.name.length)
        have notRoot : slotId root base p ≠ root := by
          unfold slotId
          rw [if_neg (by omega)]
          omega
        exact ⟨node', bytes, isNode',
          (congrArg NodeView.contents (view notRoot)).trans contents⟩
      · intro index low
        have cell : ∃ node, last.node (slotId root base index) = some node ∧
            node.children = childrenAt ((placed root base entries).take (p + 1)) (index : Int) := by
          by_cases here : index = p
          · subst here
            refine ⟨_, lastNode, ?_⟩
            have ownParent : ¬entries[index].1 = (index : Int) := by
              have := loadable.earlier index inside later
              omega
            rw [RecordHeader.restore_children, RecordHeader.apply_children, childless,
              childrenAt_placed_succ inside, if_neg ownParent, List.append_nil,
              loadable.childrenAt_later (Nat.le_of_lt inside)]
          · obtain ⟨node, isNode, cell⟩ := opened.cell index (by omega) (by omega)
            refine ⟨node, ?_, cell.lists⟩
            rw [heap, Fs.modify_node_of_ne _ _
              (fun same => here (slotId_injective older same)), isNode]
        obtain ⟨node, isNode, lists⟩ := cell
        obtain ⟨node', isNode', grows, -⟩ := extended.cell _ (idBelow index low) _ isNode
        rw [← lists, Fs.childrenOf_eq isNode']
        exact grows

end Misaligned

/-! ## The exact condition -/

section RoundTrip

variable {faults readFaults : Faults} {alloc loadAlloc : Nat → Bool} {clock : Nat → UInt32}
  {source fs : Fs} {store : Blockfs} {disk disk' : Disk} {tree : OrderedTree Nat} {root : Nat}

/-- On a medium that holds an image, a load whose reads and allocations succeed runs the
rebuilding loop over that image. -/
theorem diskfsLoad_image (held : disk.HoldsImage source (savedEntries tree))
    (isRoot : fs.root = some root) (readable : ∀ lba, readFaults.read lba = false)
    (granted : ∀ site, loadAlloc site = true) {transport : Transport}
    (moved : transport.Moves source (savedEntries tree)) :
    16 + (source.body (savedEntries tree)).length ≤ heapPayload - 8 ∧
      diskfsLoadOver transport readFaults loadAlloc clock fs disk =
        loadRecords loadAlloc clock (source.image (savedEntries tree))
          (16 + (source.body (savedEntries tree)).length) root (savedEntries tree).length 0
          ⟨16, wipeChildren fs.next fs root, []⟩ := by
  have positive := size_pos tree
  have count : (savedEntries tree).length = min diskfsMaxNodes tree.size := by
    rw [savedEntries, List.length_take, listing_length]
  have some_ : 0 < (savedEntries tree).length := by
    rw [count, diskfsMaxNodes]
    omega
  have image := readImage_image held readable granted some_
    (by rw [count]; exact Nat.min_le_left _ _) moved
  have heap := held.heap
  have length := source.image_length (savedEntries tree)
  have atLeast := le_sectorsFor (16 + (source.body (savedEntries tree)).length)
  refine ⟨?_, ?_⟩
  · simp only [heapPayload, ataSectorSize] at heap length atLeast ⊢
    omega
  · rw [diskfsLoadOver, image]
    simp only [rebuild, isRoot]

/-- An image that one command moves is loaded behind AHCI as behind IDE. -/
theorem diskfsLoadOver_eq (held : disk.HoldsImage source (savedEntries tree))
    (isRoot : fs.root = some root) (readable : ∀ lba, readFaults.read lba = false)
    (granted : ∀ site, loadAlloc site = true) {transport : Transport}
    (moved : transport.Moves source (savedEntries tree)) :
    diskfsLoadOver transport readFaults loadAlloc clock fs disk =
      diskfsLoad readFaults loadAlloc clock fs disk := by
  rw [← diskfsLoadOver_ide, (diskfsLoad_image held isRoot readable granted moved).2,
    (diskfsLoad_image held isRoot readable granted (Transport.ide_moves _ _)).2]

/-- If nothing was dropped and every node survives, the load rebuilds the saved tree. -/
theorem diskfsLoad_restores (mounted : source.Mounted tree)
    (held : disk.HoldsImage source (savedEntries tree))
    (target : fs.Target root) (readable : ∀ lba, readFaults.read lba = false)
    (granted : ∀ site, loadAlloc site = true) (small : tree.size ≤ diskfsMaxNodes)
    (persistent : source.Persistent (tree.listing (-1) 0)) :
    ∃ fs', diskfsLoad readFaults loadAlloc clock fs disk = .ret 1 fs' ∧
      Cells source (tree.listing (-1) 0) root fs.next tree.size fs' ∧ source.SameTree fs' := by
  obtain ⟨heap, loads⟩ := diskfsLoad_image held target.isRoot readable granted
    (Transport.ide_moves source (savedEntries tree))
  rw [diskfsLoadOver_ide] at loads
  have loadable := mounted.loadable
  have whole : savedEntries tree = tree.listing (-1) 0 :=
    List.take_of_length_le (by rw [listing_length]; exact small)
  rw [whole] at heap loads loadable
  obtain ⟨state, same, loaded⟩ := loadRecords_restores loadable target.older granted clock heap
    0 (tree.listing (-1) 0).length (Nat.zero_le _) (Nat.le_refl _)
    (fun index bound node _ found => (persistent _ (List.getElem_mem bound) node found).aligned)
    (wipeChildren_loaded target)
  rw [Nat.sub_zero, Nat.sub_self] at same
  have cells := loaded.cells
  rw [listing_length] at cells
  exact ⟨state.fs, loads.trans same, cells,
    cells.sameTree mounted.toHolds persistent loadable⟩

/-- Two listings of one labelled tree agree in parents and attributes. -/
theorem sameTree_listings {right : OrderedTree Nat} {fs' : Fs}
    (same : tree.map source.view = right.map fs'.view) :
    (right.listing (-1) 0).map (fun entry => (entry.1, fs'.view entry.2)) =
      (tree.listing (-1) 0).map fun entry => (entry.1, source.view entry.2) := by
  rw [← listing_map, ← listing_map, same]

/-- If the load rebuilds the saved tree, nothing was dropped and every node survives. -/
theorem persistent_of_restored (mounted : source.Mounted tree)
    (held : disk.HoldsImage source (savedEntries tree))
    (target : fs.Target root) (readable : ∀ lba, readFaults.read lba = false)
    (granted : ∀ site, loadAlloc site = true) {fs' : Fs}
    (loads : diskfsLoad readFaults loadAlloc clock fs disk = .ret 1 fs')
    (same : source.SameTree fs') :
    tree.size ≤ diskfsMaxNodes ∧ source.Persistent (tree.listing (-1) 0) := by
  obtain ⟨left, right, holdsLeft, holdsRight, equal⟩ := same
  have isLeft : left = tree := presents_unique source.childrenOf left tree
    (Option.some.inj (holdsLeft.root.symm.trans mounted.root)) holdsLeft.presents
    mounted.presents
  subst isLeft
  obtain ⟨heap, loop⟩ := diskfsLoad_image held target.isRoot readable granted
    (Transport.ide_moves _ _)
  rw [diskfsLoadOver_ide] at loop
  rw [loop] at loads
  have loadable := mounted.loadable
  have entryEq := sameTree_listings equal
  have sameLength : (right.listing (-1) 0).length = (left.listing (-1) 0).length := by
    simpa using congrArg List.length entryEq
  have column : (right.listing (-1) 0).map Prod.fst = (left.listing (-1) 0).map Prod.fst := by
    have := congrArg (List.map Prod.fst) entryEq
    simpa [Function.comp_def] using this
  have views : ∀ index (inside : index < (right.listing (-1) 0).length)
      (inside' : index < (left.listing (-1) 0).length),
      fs'.view (right.listing (-1) 0)[index].2 = source.view (left.listing (-1) 0)[index].2 := by
    intro index inside inside'
    have := List.getElem_of_eq entryEq (by simpa using inside)
    simp only [List.getElem_map, Prod.mk.injEq] at this
    exact this.2
  have laid := (presents_iff_laidOut fs'.childrenOf (-1) 0 (by omega) right).mp
    holdsRight.presents
  have rightRoot : ∀ some_ : 0 < (right.listing (-1) 0).length,
      (right.listing (-1) 0)[0].2 = right.root := by
    intro some_
    cases right
    rfl
  have savedLength : (savedEntries left).length ≤ (left.listing (-1) 0).length :=
    List.length_take_le' _ _
  have taken : ∀ index (inside : index < (savedEntries left).length)
      (bound : index < (left.listing (-1) 0).length),
      (savedEntries left)[index] = (left.listing (-1) 0)[index] := by
    intro index inside bound
    exact List.getElem_take
  have partColumn : ∀ count, count ≤ (savedEntries left).length →
      ((placed root fs.next (savedEntries left)).take count).map Prod.fst =
        ((right.listing (-1) 0).take count).map Prod.fst := by
    intro count bound
    rw [savedEntries, List.length_take] at bound
    rw [List.map_take, placed_column, savedEntries, List.map_take, List.take_take,
      Nat.min_eq_left (by omega), List.map_take, column]
  by_cases aligned : ∀ index (bound : index < (savedEntries left).length) node,
      source.node (savedEntries left)[index].2 = some node → node.Aligned
  · obtain ⟨state, ran, loaded⟩ := loadRecords_restores loadable target.older granted clock heap
      0 (savedEntries left).length (Nat.zero_le _) (Nat.le_refl _)
      (fun index bound node _ found => aligned index bound node found)
      (wipeChildren_loaded target)
    rw [Nat.sub_zero, Nat.sub_self, loads] at ran
    cases ran
    have cells := loaded.cells
    have laidPart : LaidOut state.fs.childrenOf 0 (placed root fs.next (savedEntries left)) := by
      intro index inside
      have bound : index < (savedEntries left).length := by simpa using inside
      obtain ⟨node, found, cell⟩ := cells.cell index bound bound
      rw [placed_getElem _ _ bound, Fs.childrenOf_eq found, cell.lists,
        List.take_of_length_le (by simp), Nat.cast_zero, zero_add]
    have rootSame : ∀ (some_ : 0 < (right.listing (-1) 0).length)
        (part : 0 < (placed root fs.next (savedEntries left)).length),
        (right.listing (-1) 0)[0].2 = (placed root fs.next (savedEntries left))[0].2 := by
      intro some_ part
      rw [rightRoot some_, placed_getElem _ _ loadable.nonempty]
      exact Option.some.inj (holdsRight.root.symm.trans cells.isRoot)
    have wholeColumn := partColumn (savedEntries left).length (Nat.le_refl _)
    rw [List.take_of_length_le (by simp)] at wholeColumn
    have enough := laidOut_length_le state.fs.childrenOf (right.listing (-1) 0)
      (placed root fs.next (savedEntries left)) laid laidPart (by simpa using wholeColumn)
      (by simpa using loadable.nonempty) (fun index inside => listing_earlier right index inside)
      (fun some_ => rootSame some_ (by simpa using loadable.nonempty))
    rw [placed_length, sameLength] at enough
    have small : left.size ≤ diskfsMaxNodes := by
      rw [savedEntries, List.length_take, listing_length] at enough
      omega
    refine ⟨small, ?_⟩
    intro entry member node found
    obtain ⟨index, bound, rfl⟩ := List.getElem_of_mem member
    have inPart : index < (savedEntries left).length := by omega
    have isEntry := taken index inPart bound
    have place := laidOut_agree state.fs.childrenOf (right.listing (-1) 0)
      (placed root fs.next (savedEntries left)) laid
      (fun index inside => by
        have := laidPart index inside
        rw [Nat.cast_zero, zero_add] at this
        rw [this])
      (by rw [placed_length]; omega) (by simpa using wholeColumn)
      (fun index inside => listing_earlier right index inside)
      (fun part => rootSame (by omega) part) index (by simpa using inPart)
    rw [placed_getElem _ _ inPart] at place
    obtain ⟨cell, isCell, restored⟩ := cells.cell index inPart inPart
    have view := views index (by omega) bound
    rw [place, Fs.view, Fs.view, isCell, found] at view
    have savedView := restored.view node (by rw [isEntry]; exact found)
    exact (aligned index inPart node (by rw [isEntry]; exact found)).persistent
      (savedView.symm.trans (Option.some.inj view))
  · exfalso
    push Not at aligned
    have first := Nat.find_spec aligned
    have minimal := fun index (small : index < Nat.find aligned) => Nat.find_min aligned small
    generalize Nat.find aligned = p at first minimal
    obtain ⟨inPart, node, found, misaligned⟩ := first
    have bound : p < (left.listing (-1) 0).length := Nat.lt_of_lt_of_le inPart savedLength
    have later : 0 < p := by
      rcases Nat.eq_zero_or_pos p with rfl | positive
      · obtain ⟨rootNode, isRoot, -, directory⟩ := mounted.rootNode
        have head : (left.listing (-1) 0)[0].2 = left.root := by
          cases left
          rfl
        rw [taken 0 inPart bound, head, isRoot] at found
        cases found
        refine absurd (Or.inr (Or.inl ?_)) misaligned
        rw [VfsNode.dataSize, directory]
        rfl
      · exact positive
    obtain ⟨isRoot, ⟨final, bytes, isFinal, contents⟩, lists⟩ := misaligned_final loadable
      target.older granted clock heap inPart later
      (fun index inside saved before isSaved => by
        have none := minimal index before
        push Not at none
        exact none inside saved isSaved)
      found misaligned (wipeChildren_loaded target) loads
    have partLength : ((placed root fs.next (savedEntries left)).take (p + 1)).length = p + 1 := by
      rw [List.length_take, placed_length]
      omega
    have place := laidOut_agree fs'.childrenOf (right.listing (-1) 0)
      ((placed root fs.next (savedEntries left)).take (p + 1)) laid
      (fun index inside => by
        rw [List.getElem_take, placed_getElem _ _ (by omega)]
        exact lists index (by omega))
      (by omega) (by rw [partLength]; exact partColumn (p + 1) (by omega))
      (fun index inside => listing_earlier right index inside)
      (fun _ => by
        rw [rightRoot (by omega), List.getElem_take, placed_getElem _ _ loadable.nonempty]
        exact Option.some.inj (holdsRight.root.symm.trans isRoot))
      p (by omega)
    rw [List.getElem_take, placed_getElem _ _ inPart] at place
    have view := views p (by omega) bound
    rw [taken p inPart bound] at found
    rw [place, Fs.view, Fs.view, isFinal, found] at view
    have sameContents : final.contents = node.contents :=
      congrArg NodeView.contents (Option.some.inj view)
    exact VfsNode.contents_of_not_aligned misaligned bytes (sameContents.symm.trans contents)

def Blockfs.blockBytes (store : Blockfs) (disk : Disk) (block : Nat) : List UInt8 :=
  disk.sectors (store.blockLba block) sectorsPerBlock

/-- A save leaves the data blocks alone, so a block list still means the same bytes. -/
theorem diskfsSave_blocks (holds : source.Holds tree)
    (layout : store.available = true → store.Layout disk)
    (saved : diskfsSave faults alloc source store disk = (0, disk'))
    (available : store.available = true) (block : Nat) (inside : block < store.totalBlocks) :
    store.blockBytes disk' block = store.blockBytes disk block := by
  have area := layout available
  have tail : diskfsBaseLba disk = disk.total.toNat - diskfsTailSectors := by
    have large := area.large
    rw [diskfsBaseLba]
    simp only
    rw [if_pos (by omega)]
  have start := area.dataStart
  have fits := area.blocksFit
  have last : store.blockLba block + sectorsPerBlock ≤ diskfsBaseLba disk := by
    simp only [Blockfs.blockLba, sectorsPerBlock] at fits ⊢
    omega
  have first : bitmapLba + store.bitmapSectors ≤ store.blockLba block := by
    rw [Blockfs.blockLba, start]
    exact Nat.le_add_right _ _
  apply Disk.sectors_congr
  intro position low high
  exact diskfsSave_frame holds saved position
    (Nat.lt_of_lt_of_le high (Nat.mul_le_mul_right ataSectorSize last))
    (Or.inr (Nat.le_trans (Nat.mul_le_mul_right ataSectorSize first) low))

/-- **Persistence round trip.**  After a save that returned zero, loading the medium rebuilds the
saved tree with its structure, names, types, permissions, owners, sizes and contents exactly when
the tree has at most `DISKFS_MAX_NODES` nodes and every node's size belongs to a file whose
contents are a block list or bytes in memory.  The data blocks themselves are not touched.  The
drive is an IDE drive, or AHCI moves the whole image with one command. -/
theorem diskfsLoad_restores_iff (mounted : source.Mounted tree)
    (layout : store.available = true → store.Layout disk)
    (saved : diskfsSave faults alloc source store disk = (0, disk'))
    (target : fs.Target root) (readable : ∀ lba, readFaults.read lba = false)
    (granted : ∀ site, loadAlloc site = true) (transport : Transport)
    (moved : transport.Moves source (savedEntries tree)) :
    (∃ fs', diskfsLoadOver transport readFaults loadAlloc clock fs disk' = .ret 1 fs' ∧
      source.SameTree fs' ∧
      ∀ block < store.totalBlocks, store.available = true →
        store.blockBytes disk' block = store.blockBytes disk block) ↔
      tree.size ≤ diskfsMaxNodes ∧ source.Persistent (tree.listing (-1) 0) := by
  have held := diskfsSave_holdsImage mounted.toHolds layout saved
  rw [diskfsLoadOver_eq held target.isRoot readable granted moved]
  constructor
  · rintro ⟨fs', loads, same, -⟩
    exact persistent_of_restored mounted held target readable granted loads same
  · rintro ⟨small, persistent⟩
    obtain ⟨fs', loads, -, same⟩ := diskfsLoad_restores mounted held target readable granted
      small persistent
    exact ⟨fs', loads, same, fun block inside available =>
      diskfsSave_blocks mounted.toHolds layout saved available block inside⟩

end RoundTrip

/-! ## A mounted file without its bytes -/

theorem pair_of_fst {result : Int × Disk} {code : Int} (returns : result.1 = code) :
    result = (code, result.2) := by
  rw [← returns]

theorem sampleTree_target : sampleTree.Target 0 :=
  { sampleTree_rooted with blank := ⟨_, rfl, ⟨rfl, rfl, rfl, rfl⟩⟩ }

def oneFileTree (file : VfsNode) : Fs :=
  .ofList [{ VfsNode.create 0 none (literal "/") vfsDirectory with children := [1] }, file]

/-- A file as `fat16_read_dir` presents it: its size is known and its bytes stay on the volume. -/
def fatFileNode : VfsNode :=
  { VfsNode.create 0 (some 0) (literal "a.txt") vfsFile with size := 5, ops := .fatFile }

def ramFileNode : VfsNode :=
  { VfsNode.create 0 (some 0) (literal "a.txt") vfsFile with
    size := 5, data := some (literal "hello") }

theorem oneFileTree_mounted {file : VfsNode} (childless : file.children = [])
    (wellFormed : file.WellFormed) :
    (oneFileTree file).Mounted (.node 0 [.node 1 []]) where
  root := rfl
  presents := ⟨rfl, ⟨by rw [Fs.childrenOf_eq rfl]; exact childless, trivial⟩, trivial⟩
  live := by
    intro entry member
    simp only [OrderedTree.listing, OrderedTree.forestListing, List.append_nil,
      List.mem_cons, List.not_mem_nil, or_false] at member
    rcases member with rfl | rfl
    · exact ⟨_, rfl, by decide, by decide, by decide, fun bytes none => by cases none⟩
    · exact ⟨file, rfl, wellFormed⟩
  rootNode := ⟨_, rfl, rfl, rfl⟩

theorem ramFileNode_wellFormed : ramFileNode.WellFormed :=
  ⟨by decide, by decide, by decide, fun bytes found => by cases found; decide⟩

theorem fatFileNode_wellFormed : fatFileNode.WellFormed :=
  ⟨by decide, by decide, by decide, fun bytes none => by cases none⟩

/-- Saving the mounted file succeeds, and no load of that image rebuilds the tree. -/
theorem diskfsLoad_fatFile_lost :
    (diskfsSave .none (fun _ => true) (oneFileTree fatFileNode) .disabled (sampleDisk [])).1 = 0 ∧
      ¬∃ fs', diskfsLoad .none (fun _ => true) (fun _ => 0) sampleTree
          (diskfsSave .none (fun _ => true) (oneFileTree fatFileNode) .disabled
            (sampleDisk [])).2 = .ret 1 fs' ∧ (oneFileTree fatFileNode).SameTree fs' := by
  have returns : (diskfsSave .none (fun _ => true) (oneFileTree fatFileNode) .disabled
      (sampleDisk [])).1 = 0 := by decide +kernel
  refine ⟨returns, ?_⟩
  rintro ⟨fs', loads, same⟩
  obtain ⟨-, persistent⟩ := persistent_of_restored
    (oneFileTree_mounted rfl fatFileNode_wellFormed)
    (diskfsSave_holdsImage (oneFileTree_mounted rfl fatFileNode_wellFormed).toHolds
      (fun none => by cases none) (pair_of_fst returns)) sampleTree_target (fun _ => rfl) (fun _ => rfl) loads same
  have node := persistent (0, 1) (by decide) fatFileNode rfl
  exact absurd node (by decide)

/-- A file with its bytes in memory, loaded from an AHCI drive. -/
theorem diskfsLoad_restores_ramFile :
    (∃ fs', diskfsLoadOver ⟨true, fun _ _ => 0⟩ .none (fun _ => true) (fun _ => 0) sampleTree
        (diskfsSave .none (fun _ => true) (oneFileTree ramFileNode) .disabled
          (sampleDisk [])).2 = .ret 1 fs' ∧
      (oneFileTree ramFileNode).SameTree fs' ∧
      ∀ block < Blockfs.disabled.totalBlocks, Blockfs.disabled.available = true →
        Blockfs.disabled.blockBytes (diskfsSave .none (fun _ => true) (oneFileTree ramFileNode)
          .disabled (sampleDisk [])).2 block =
        Blockfs.disabled.blockBytes (sampleDisk []) block) ↔
      (OrderedTree.node 0 [.node 1 []]).size ≤ diskfsMaxNodes ∧
        (oneFileTree ramFileNode).Persistent ((OrderedTree.node 0 [.node 1 []]).listing (-1) 0) :=
  diskfsLoad_restores_iff (oneFileTree_mounted rfl ramFileNode_wellFormed)
    (fun none => by cases none)
    (pair_of_fst (show (diskfsSave .none (fun _ => true) (oneFileTree ramFileNode) .disabled
      (sampleDisk [])).1 = 0 by decide +kernel))
    sampleTree_target (fun _ => rfl) (fun _ => rfl) ⟨true, fun _ _ => 0⟩
    (fun _ => by decide +kernel)

end Trinux
