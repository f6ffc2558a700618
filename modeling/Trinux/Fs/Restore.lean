import Trinux.Fs.DiskfsRecords

namespace Trinux

open Bytes Listing

/-!
# The heap a load rebuilds from a listing

Loading the image of a listing creates one node for every entry behind the
first and attaches it to the node of its parent entry.  After `k` records the
child lists in the heap are those of the first `k` entries, and every node has
the attributes its record saved.  When all entries have been read the child
lists lay out the listing, so the heap presents the listed tree.
-/

/-- What a listing must satisfy for its records to be loadable: the first entry alone has no
parent, every other parent comes earlier and has room for the child, and the entries are
well-formed nodes. -/
structure Loadable (source : Fs) (entries : List (Int × Nat)) : Prop where
  nonempty : 0 < entries.length
  count : entries.length ≤ diskfsMaxNodes
  first : ∀ inside : 0 < entries.length, entries[0].1 = -1
  earlier : ∀ index (inside : index < entries.length), 0 < index →
    0 ≤ entries[index].1 ∧ entries[index].1 < index
  fits : ∀ index : Nat, index < entries.length →
    (childrenAt entries index).length ≤ vfsMaxChildren
  live : ∀ index (inside : index < entries.length),
    ∃ node, source.node entries[index].2 = some node ∧ node.WellFormed
  rootNamed : ∀ (inside : 0 < entries.length) node,
    source.node entries[0].2 = some node → node.name ≠ []

def placed (root base : Nat) (entries : List (Int × Nat)) : List (Int × Nat) :=
  entries.mapIdx fun index entry => (entry.1, slotId root base index)

section Restore

variable {source : Fs} {entries : List (Int × Nat)} {root base : Nat}

@[simp] theorem placed_length (root base : Nat) (entries : List (Int × Nat)) :
    (placed root base entries).length = entries.length := by
  simp [placed]

theorem placed_getElem (index : Nat) (placedInside : index < (placed root base entries).length)
    (inside : index < entries.length) :
    (placed root base entries)[index] = (entries[index].1, slotId root base index) := by
  simp [placed]

theorem placed_column (root base : Nat) (entries : List (Int × Nat)) :
    (placed root base entries).map Prod.fst = entries.map Prod.fst := by
  apply List.ext_getElem <;> simp [placed]

theorem childrenAt_placed_length (index : Nat) (position : Int) :
    (childrenAt ((placed root base entries).take index) position).length =
      (childrenAt (entries.take index) position).length := by
  apply childrenAt_length_congr
  rw [List.map_take, List.map_take, placed_column]

theorem childrenAt_placed_succ {index : Nat} (inside : index < entries.length) (position : Int) :
    childrenAt ((placed root base entries).take (index + 1)) position =
      childrenAt ((placed root base entries).take index) position ++
        if entries[index].1 = position then [slotId root base index] else [] := by
  rw [List.take_add_one, List.getElem?_eq_getElem (by simpa using inside),
    placed_getElem _ _ inside, Option.toList_some, childrenAt_append, childrenAt_cons, childrenAt_nil, List.append_nil]

/-- Entries name earlier positions only, so a position has no children before its own entry. -/
theorem Loadable.childrenAt_later (loadable : Loadable source entries) {index : Nat}
    (inside : index ≤ entries.length) :
    childrenAt ((placed root base entries).take index) (index : Int) = [] := by
  rw [childrenAt, List.map_eq_nil_iff, List.filter_eq_nil_iff]
  intro entry member named
  obtain ⟨position, bound, rfl⟩ := List.getElem_of_mem member
  rw [List.length_take, placed_length] at bound
  rw [List.getElem_take, placed_getElem _ _ (by omega), decide_eq_true_eq] at named
  simp only at named
  rcases Nat.eq_zero_or_pos position with rfl | positive
  · rw [loadable.first (by omega)] at named
    omega
  · have := loadable.earlier position (by omega) positive
    omega

theorem Loadable.room (loadable : Loadable source entries) (index : Nat)
    (inside : index < entries.length) (later : 0 < index) :
    (childrenAt (entries.take index) entries[index].1).length < vfsMaxChildren := by
  obtain ⟨low, high⟩ := loadable.earlier index inside later
  obtain ⟨parent, isParent⟩ := Int.eq_ofNat_of_zero_le low
  have full := loadable.fits parent (by omega)
  rw [← isParent, childrenAt_split entries index inside, List.length_append,
    List.length_cons] at full
  omega

structure Cell (source : Fs) (children : List Nat) (entry : Int × Nat) (node : VfsNode) :
    Prop where
  view : ∀ saved, source.node entry.2 = some saved → node.view = saved.savedView
  lists : node.children = children
  dataFits : ∀ bytes, node.data = some bytes → node.size.toNat ≤ bytes.length

structure Cells (source : Fs) (entries : List (Int × Nat)) (root base k : Nat) (fs : Fs) :
    Prop where
  isRoot : fs.root = some root
  next : fs.next = base + (k - 1)
  blank : k = 0 → ∃ node, fs.node root = some node ∧ node.Fresh ∧ node.children = []
  cell : ∀ index (inside : index < entries.length), index < k →
    ∃ node, fs.node (slotId root base index) = some node ∧
      Cell source (childrenAt ((placed root base entries).take k) (index : Int)) entries[index]
        node

/-- The heap between creating the node of record `k` and reading its contents. -/
structure Opened (source : Fs) (entries : List (Int × Nat)) (root base k : Nat) (fs : Fs)
    (saved : VfsNode) : Prop where
  isRoot : fs.root = some root
  next : fs.next = base + k
  cell : ∀ index (inside : index < entries.length), index < k →
    ∃ node, fs.node (slotId root base index) = some node ∧
      Cell source (childrenAt ((placed root base entries).take (k + 1)) (index : Int))
        entries[index] node
  opened : ∃ node, fs.node (slotId root base k) = some node ∧ node.Fresh ∧
    node.name = saved.name ∧ node.children = []

theorem slotId_lt {root base count slot : Nat} (older : root < base) (inside : slot ≤ count) :
    slotId root base slot < base + count + 1 := by
  unfold slotId
  split <;> omega

theorem ofInt_natCast {value : Nat} (small : value < 2 ^ 32) :
    (UInt32.ofInt (value : Int)).toNat = value := by
  rw [UInt32.ofInt, UInt32.toNat_ofNat', Int.emod_eq_of_lt (by omega) (by exact_mod_cast small),
    Int.toNat_natCast, Nat.mod_eq_of_lt small]

theorem nameField_of_fits {node : VfsNode} (wellFormed : node.WellFormed) :
    nameField node.name = node.name :=
  List.take_of_length_le (Nat.le_pred_of_lt wellFormed.nameFits)

theorem loadNode_root (loadable : Loadable source entries) (inside : 0 < entries.length)
    {saved : VfsNode} (found : source.node entries[0].2 = some saved)
    (wellFormed : saved.WellFormed) {state : LoadState}
    (cells : Cells source entries root base 0 state.fs) (alloc : Nat → Bool)
    (clock : Nat → UInt32) :
    ∃ fs, loadNode alloc clock root 0 (saved.header entries[0].1) saved.name state =
        .next (slotId root base 0, fs) ∧ Opened source entries root base 0 fs saved := by
  obtain ⟨node, isNode, fresh, childless⟩ := cells.blank rfl
  have negative : (saved.header entries[0].1).parentIdx.toNat.testBit 31 = true := by
    rw [loadable.first inside]
    change (UInt32.ofInt (-1)).toNat.testBit 31 = true
    decide
  rw [loadNode, if_pos negative, if_neg (loadable.rootNamed inside saved found),
    nameField_of_fits wellFormed]
  refine ⟨_, rfl, cells.isRoot, cells.next, fun index _ none => absurd none (by omega), ?_⟩
  refine ⟨{ node with name := saved.name }, ?_, ⟨fresh.size, fresh.data, fresh.blocks,
    fresh.diskBacked⟩, rfl, childless⟩
  change (state.fs.modify root _).node root = _
  rw [Fs.modify_node_self, isNode]
  rfl

/-- Every later record creates a node below an earlier one. -/
theorem loadNode_child (loadable : Loadable source entries) (older : root < base) {k : Nat}
    (inside : k < entries.length) (later : 0 < k) {saved : VfsNode}
    (wellFormed : saved.WellFormed) {state : LoadState}
    (mapped : state.map = (List.range k).map (slotId root base))
    (cells : Cells source entries root base k state.fs) {alloc : Nat → Bool}
    (granted : ∀ site, alloc site = true) (clock : Nat → UInt32) :
    ∃ fs, loadNode alloc clock root k (saved.header entries[k].1) saved.name state =
        .next (slotId root base k, fs) ∧ Opened source entries root base k fs saved := by
  obtain ⟨low, high⟩ := loadable.earlier k inside later
  obtain ⟨parent, isParent⟩ := Int.eq_ofNat_of_zero_le low
  have below : parent < k := by omega
  have limit : k ≤ diskfsMaxNodes := Nat.le_trans (Nat.le_of_lt inside) loadable.count
  have small : parent < 2 ^ 14 := Nat.lt_of_lt_of_le below limit
  have index : (saved.header entries[k].1).parentIdx.toNat = parent := by
    change (UInt32.ofInt entries[k].1).toNat = parent
    rw [isParent]
    exact ofInt_natCast (by omega)
  have sign : parent.testBit 31 = false := Nat.testBit_lt_two_pow (by omega)
  have above : state.map.getD parent root = slotId root base parent := by
    rw [mapped, List.getD_eq_getElem _ _ (by simpa using below), List.getElem_map,
      List.getElem_range]
  obtain ⟨node, isNode, cell⟩ := cells.cell parent (by omega) below
  have olderParent : slotId root base parent < state.fs.next := by
    have := slotId_lt older (show parent ≤ k - 1 by omega)
    rw [cells.next]
    unfold slotId at this ⊢
    split <;> omega
  have room : ¬vfsMaxChildren ≤ (state.fs.childrenOf (slotId root base parent)).length := by
    have bound := loadable.room k inside later
    rw [isParent] at bound
    rw [Fs.childrenOf_eq isNode, cell.lists, childrenAt_placed_length]
    exact Nat.not_le_of_lt bound
  have memory : kmalloc (alloc (2 + 2 * k)) sizeofVfsNode = true := by
    rw [granted]
    decide
  have nextSlot : state.fs.next = slotId root base k := by
    rw [cells.next, slotId, if_neg (by omega)]
  rw [loadNode, index, sign, if_neg Bool.false_ne_true, if_neg (by omega), above]
  cases created : ramfsCreateNode (alloc (2 + 2 * k)) (clock k) state.fs
      (slotId root base parent) saved.name (saved.header entries[k].1).type with
  | none =>
      rw [ramfsCreateNode, if_neg room, if_neg (by simp [memory])] at created
      cases created
  | some result =>
      obtain ⟨id, fs⟩ := result
      obtain ⟨-, -, idEq, -⟩ := ramfsCreateNode_cases created
      have idSlot : id = slotId root base k := idEq.trans nextSlot
      refine ⟨fs, by rw [idSlot], (ramfsCreateNode_root created).trans cells.isRoot, ?_, ?_, ?_⟩
      · rw [ramfsCreateNode_next created, cells.next]
        omega
      · intro index' inside' before
        obtain ⟨other, isOther, otherCell⟩ := cells.cell index' inside' before
        rw [childrenAt_placed_succ inside, isParent]
        by_cases here : index' = parent
        · subst here
          refine ⟨other.attach id, ?_, ⟨otherCell.view, ?_, otherCell.dataFits⟩⟩
          · rw [ramfsCreateNode_parent olderParent created, isOther, Option.map_some]
          · rw [if_pos rfl, VfsNode.attach, otherCell.lists, idSlot]
        · refine ⟨other, ?_, ⟨otherCell.view, ?_, otherCell.dataFits⟩⟩
          · rw [ramfsCreateNode_other created, isOther]
            · rw [idSlot]
              exact fun same => absurd (slotId_injective older same) (by omega)
            · exact fun same => here (slotId_injective older same)
          · rw [if_neg (by omega), List.append_nil, otherCell.lists]
      · refine ⟨_, idSlot ▸ ramfsCreateNode_new olderParent created, ⟨rfl, rfl, rfl, rfl⟩,
          nameField_of_fits wellFormed, rfl⟩

/-- The variables of the loading loop after `k` records that began behind `front`. -/
structure Loaded (source : Fs) (entries : List (Int × Nat)) (root base k : Nat)
    (state : LoadState) : Prop where
  off : state.off = 16 + (source.body (entries.take k)).length
  mapped : state.map = (List.range k).map (slotId root base)
  cells : Cells source entries root base k state.fs

theorem loadNode_opens (loadable : Loadable source entries) (older : root < base) {k : Nat}
    (inside : k < entries.length) {saved : VfsNode}
    (found : source.node entries[k].2 = some saved) (wellFormed : saved.WellFormed)
    {state : LoadState} (loaded : Loaded source entries root base k state) {alloc : Nat → Bool}
    (granted : ∀ site, alloc site = true) (clock : Nat → UInt32) :
    ∃ fs, loadNode alloc clock root k (saved.header entries[k].1) saved.name state =
        .next (slotId root base k, fs) ∧ Opened source entries root base k fs saved := by
  rcases Nat.eq_zero_or_pos k with rfl | later
  · exact loadNode_root loadable inside found wellFormed loaded.cells alloc clock
  · exact loadNode_child loadable older inside later wellFormed loaded.mapped loaded.cells
      granted clock

/-- The loader reads the fixed fields and the name of a record whatever follows them. -/
theorem loadRecord_opens (loadable : Loadable source entries) (older : root < base) {k : Nat}
    (inside : k < entries.length) {saved : VfsNode}
    (found : source.node entries[k].2 = some saved) (wellFormed : saved.WellFormed)
    {state : LoadState} (loaded : Loaded source entries root base k state) {alloc : Nat → Bool}
    (granted : ∀ site, alloc site = true) (clock : Nat → UInt32) (front rest : List UInt8)
    (start : front.length = state.off) (imageBytes : Nat)
    (enough : front.length + 32 + saved.name.length ≤ imageBytes)
    (small : imageBytes ≤ heapPayload) :
    ∃ fs, Opened source entries root base k fs saved ∧
      loadRecord alloc clock
          (front ++ (Bytes.words (saved.header entries[k].1).words ++ (saved.name ++ rest)))
          imageBytes root k state =
        (loadPayload (alloc (3 + 2 * k))
            (front ++ (Bytes.words (saved.header entries[k].1).words ++ (saved.name ++ rest)))
            imageBytes (saved.header entries[k].1) (slotId root base k)
            (front.length + 32 + saved.name.length)
            (fs.modify (slotId root base k) (saved.header entries[k].1).apply)).bind
          fun filled => .next ⟨filled.1, filled.2, state.map ++ [slotId root base k]⟩ := by
  obtain ⟨fs, opens, opened⟩ := loadNode_opens loadable older inside found wellFormed loaded
    granted clock
  refine ⟨fs, opened, ?_⟩
  have nameShort := wellFormed.nameFits
  have nameLen : (saved.header entries[k].1).nameLen.toNat = saved.name.length := by
    change (UInt32.ofNat saved.name.length).toNat = _
    rw [UInt32.toNat_ofNat', Nat.mod_eq_of_lt]
    simp only [vfsNameMax] at nameShort
    omega
  have name : cString (slice
      (front ++ (Bytes.words (saved.header entries[k].1).words ++ (saved.name ++ rest)))
      (front.length + 32) saved.name.length) = saved.name := by
    have skip := slice_append_right (front ++ Bytes.words (saved.header entries[k].1).words)
      (saved.name ++ rest) 0 saved.name.length
    rw [List.length_append, header_words_length, Nat.add_zero, List.append_assoc] at skip
    rw [skip, slice_append_left, cString_of_nonzero wellFormed.nameString]
  rw [loadRecord, ← start, u32_of_payload (by omega), if_neg (by omega), readHeader_words,
    loadFields, nameLen, u32_of_payload (by omega), if_neg, name, opens, StepOutcome.bind_next]
  simp only [vfsNameMax] at nameShort
  omega

/-- Filling in the node that was opened completes the heap of one more record. -/
theorem Opened.close (loadable : Loadable source entries) (older : root < base) {k : Nat}
    (inside : k < entries.length) {saved : VfsNode}
    (found : source.node entries[k].2 = some saved) {fs : Fs}
    (opened : Opened source entries root base k fs saved) (change : VfsNode → VfsNode)
    (filled : ∀ node : VfsNode, node.Fresh → node.name = saved.name →
      (change node).view = saved.savedView ∧ (change node).children = node.children ∧
        ∀ bytes, (change node).data = some bytes → (change node).size.toNat ≤ bytes.length) :
    Cells source entries root base (k + 1) (fs.modify (slotId root base k) change) := by
  refine ⟨opened.isRoot, opened.next, fun none => by omega, fun index bound before => ?_⟩
  by_cases last : index = k
  · subst last
    obtain ⟨node, isNode, fresh, named, childless⟩ := opened.opened
    obtain ⟨view, lists, dataFits⟩ := filled node fresh named
    refine ⟨change node, by rw [Fs.modify_node_self, isNode, Option.map_some], ⟨?_, ?_, dataFits⟩⟩
    · intro saved' found'
      rw [found] at found'
      cases found'
      exact view
    · have ownParent : ¬entries[index].1 = (index : Int) := by
        rcases Nat.eq_zero_or_pos index with rfl | positive
        · rw [loadable.first inside]
          omega
        · have := loadable.earlier index inside positive
          omega
      rw [lists, childless, childrenAt_placed_succ inside, if_neg ownParent, List.append_nil,
        loadable.childrenAt_later (Nat.le_of_lt inside)]
  · obtain ⟨node, isNode, cell⟩ := opened.cell index bound (by omega)
    refine ⟨node, ?_, cell⟩
    rw [Fs.modify_node_of_ne _ _ (fun same => last (slotId_injective older same)), isNode]

theorem Fs.modify_modify (fs : Fs) (id : Nat) (first second : VfsNode → VfsNode) :
    (fs.modify id first).modify id second = fs.modify id fun node => second (first node) := by
  have nodes : ((fs.modify id first).modify id second).node =
      (fs.modify id fun node => second (first node)).node := by
    funext other
    by_cases here : other = id
    · subst here
      rw [modify_node_self, modify_node_self, modify_node_self, Option.map_map]
      rfl
    · rw [modify_node_of_ne _ _ here, modify_node_of_ne _ _ here, modify_node_of_ne _ _ here]
  exact congrArg (fun node => ({ fs with node := node } : Fs)) nodes

theorem recordBytes_eq {k : Nat} (inside : k < entries.length) {saved : VfsNode}
    (found : source.node entries[k].2 = some saved) :
    source.recordBytes entries[k] =
      Bytes.words (saved.header entries[k].1).words ++ (saved.name ++ saved.payload) := by
  rw [Fs.recordBytes, Fs.entryPuts, found]
  exact saved.recordPuts_flatten _

theorem loadRecord_restores (loadable : Loadable source entries) (older : root < base) {k : Nat}
    (inside : k < entries.length) {saved : VfsNode}
    (found : source.node entries[k].2 = some saved) (wellFormed : saved.WellFormed)
    (aligned : saved.Aligned) {state : LoadState}
    (loaded : Loaded source entries root base k state) {alloc : Nat → Bool}
    (granted : ∀ site, alloc site = true) (clock : Nat → UInt32) (front rest : List UInt8)
    (start : front.length = state.off) (imageBytes : Nat)
    (enough : front.length + (source.recordBytes entries[k]).length ≤ imageBytes)
    (small : imageBytes ≤ heapPayload - 8) :
    ∃ state', loadRecord alloc clock (front ++ (source.recordBytes entries[k] ++ rest))
        imageBytes root k state = .next state' ∧
      Loaded source entries root base (k + 1) state' := by
  have record := recordBytes_eq inside found
  have length : (source.recordBytes entries[k]).length =
      32 + saved.name.length + saved.payload.length := by
    rw [record, List.length_append, List.length_append, header_words_length]
    omega
  have opens := loadRecord_opens loadable older inside found wellFormed loaded granted clock
    front (saved.payload ++ rest) start imageBytes (by omega) (by omega)
  obtain ⟨fs, opened, loads⟩ := opens
  have payloadStart : front.length + 32 + saved.name.length =
      (front ++ (Bytes.words (saved.header entries[k].1).words ++ saved.name)).length := by
    rw [List.length_append, List.length_append, header_words_length]
    omega
  have regroup : front ++ (Bytes.words (saved.header entries[k].1).words ++
      (saved.name ++ (saved.payload ++ rest))) =
      (front ++ (Bytes.words (saved.header entries[k].1).words ++ saved.name)) ++
        (saved.payload ++ rest) := by
    simp only [List.append_assoc]
  have finish := payloadEnd_aligned aligned wellFormed entries[k].1
    (front ++ (Bytes.words (saved.header entries[k].1).words ++ saved.name)) rest imageBytes
    (by omega) small
  have whole : front ++ (source.recordBytes entries[k] ++ rest) =
      front ++ (Bytes.words (saved.header entries[k].1).words ++
        (saved.name ++ (saved.payload ++ rest))) := by
    rw [record]
    simp only [List.append_assoc]
  rw [whole, loads, payloadStart, regroup, loadPayload_eq, granted, finish]
  refine ⟨_, rfl, ?_, ?_, ?_⟩
  · rw [← payloadStart, List.take_add_one, List.getElem?_eq_getElem inside, Fs.body,
      List.flatMap_append, List.length_append, start, loaded.off]
    simp only [Option.toList_some, List.flatMap_cons, List.flatMap_nil, List.append_nil]
    rw [length, Fs.body]
    omega
  · rw [loaded.mapped, List.range_succ, List.map_append]
    rfl
  · rw [Fs.modify_modify]
    refine opened.close loadable older inside found _ fun node fresh named => ?_
    obtain ⟨view, dataFits⟩ := restore_aligned aligned wellFormed fresh named entries[k].1
      (front ++ (Bytes.words (saved.header entries[k].1).words ++ saved.name)) rest (by omega)
    exact ⟨view, RecordHeader.restore_children _ _ _ _, dataFits⟩

/-! ## The whole loop -/

def Fs.imageFront (source : Fs) (entries : List (Int × Nat)) (k : Nat) : List UInt8 :=
  le32 diskfsMagic ++ le32 diskfsVersion ++ le32 (UInt32.ofNat entries.length) ++
    le32 (UInt32.ofNat (16 + (source.body entries).length)) ++ source.body (entries.take k)

def Fs.imageRest (source : Fs) (entries : List (Int × Nat)) (k : Nat) : List UInt8 :=
  source.body (entries.drop (k + 1)) ++
    List.replicate (sectorsFor (16 + (source.body entries).length) * ataSectorSize -
      (16 + (source.body entries).length)) 0

theorem body_split {k : Nat} (inside : k < entries.length) :
    source.body entries = source.body (entries.take k) ++
      (source.recordBytes entries[k] ++ source.body (entries.drop (k + 1))) := by
  have split : entries.take k ++ entries[k] :: entries.drop (k + 1) = entries := by
    rw [List.getElem_cons_drop, List.take_append_drop]
  have parts := congrArg source.body split
  rw [Fs.body, List.flatMap_append, List.flatMap_cons] at parts
  exact parts.symm

theorem image_split {k : Nat} (inside : k < entries.length) :
    source.image entries = source.imageFront entries k ++
      (source.recordBytes entries[k] ++ source.imageRest entries k) := by
  rw [Fs.image, Fs.imageFront, Fs.imageRest]
  generalize List.replicate (sectorsFor (16 + (source.body entries).length) * ataSectorSize -
    (16 + (source.body entries).length)) (0 : UInt8) = padding
  have body : source.body entries ++ padding = _ := congrArg (· ++ padding) (body_split inside)
  simp only [List.append_assoc] at body ⊢
  rw [body]

theorem imageFront_length (source : Fs) (entries : List (Int × Nat)) (k : Nat) :
    (source.imageFront entries k).length = 16 + (source.body (entries.take k)).length := by
  simp only [Fs.imageFront, List.length_append, le32_length]

/-- As long as records are aligned the loop restores one entry after the other. -/
theorem loadRecords_restores (loadable : Loadable source entries) (older : root < base)
    {alloc : Nat → Bool} (granted : ∀ site, alloc site = true) (clock : Nat → UInt32)
    (small : 16 + (source.body entries).length ≤ heapPayload - 8) (k m : Nat) (ordered : k ≤ m)
    (inside : m ≤ entries.length)
    (aligned : ∀ index (bound : index < entries.length) saved, index < m →
      source.node entries[index].2 = some saved → saved.Aligned)
    {state : LoadState} (loaded : Loaded source entries root base k state) :
    ∃ state', loadRecords alloc clock (source.image entries)
        (16 + (source.body entries).length) root (entries.length - k) k state =
      loadRecords alloc clock (source.image entries)
        (16 + (source.body entries).length) root (entries.length - m) m state' ∧
      Loaded source entries root base m state' := by
  induction m, ordered using Nat.le_induction with
  | base => exact ⟨state, rfl, loaded⟩
  | succ m ordered known =>
      obtain ⟨middle, same, reached⟩ := known (by omega)
        fun index bound saved before => aligned index bound saved (by omega)
      have here : m < entries.length := by omega
      obtain ⟨saved, found, wellFormed⟩ := loadable.live m here
      have body := congrArg List.length (show source.body entries = _ from body_split here)
      rw [List.length_append, List.length_append] at body
      have front := imageFront_length source entries m
      obtain ⟨next, step, after⟩ := loadRecord_restores loadable older here found wellFormed
        (aligned m here saved (by omega) found) reached granted clock
        (source.imageFront entries m) (source.imageRest entries m)
        (front.trans reached.off.symm) (16 + (source.body entries).length)
        (by omega) small
      refine ⟨next, ?_, after⟩
      have count : entries.length - m = entries.length - (m + 1) + 1 := by omega
      rw [same, count, loadRecords, image_split here, step]

end Restore

/-! ## The restored tree -/

/-- A heap in which every entry was restored presents the listed tree. -/
theorem Cells.presents {source fs : Fs} {tree : OrderedTree Nat} {root base : Nat}
    (cells : Cells source (tree.listing (-1) 0) root base tree.size fs) :
    (tree.relabel (slotId root base) 0).Presents fs.childrenOf := by
  rw [presents_iff_laidOut fs.childrenOf (-1) 0 (by omega)]
  have listing : (tree.relabel (slotId root base) 0).listing (-1) 0 =
      placed root base (tree.listing (-1) 0) := by
    rw [listing_relabel, placed]
    simp only [Nat.zero_add]
  rw [listing]
  intro index inside
  have bound : index < (tree.listing (-1) 0).length := by simpa using inside
  obtain ⟨node, found, cell⟩ := cells.cell index bound (by simpa using bound)
  rw [placed_getElem _ _ bound, Fs.childrenOf_eq found, cell.lists,
    List.take_of_length_le (by simp), Nat.cast_zero, zero_add]

def Fs.Persistent (fs : Fs) (entries : List (Int × Nat)) : Prop :=
  ∀ entry ∈ entries, ∀ node, fs.node entry.2 = some node → node.Persistent

/-- If every entry was restored and every node survives, the two heaps hold the same tree. -/
theorem Cells.sameTree {source fs : Fs} {tree : OrderedTree Nat} {root base : Nat}
    (holds : source.Holds tree) (persistent : source.Persistent (tree.listing (-1) 0))
    (loadable : Loadable source (tree.listing (-1) 0))
    (cells : Cells source (tree.listing (-1) 0) root base tree.size fs) :
    source.SameTree fs := by
  have listing : (tree.relabel (slotId root base) 0).listing (-1) 0 =
      placed root base (tree.listing (-1) 0) := by
    rw [listing_relabel, placed]
    simp only [Nat.zero_add]
  refine ⟨tree, tree.relabel (slotId root base) 0, holds, ⟨?_, cells.presents, ?_⟩, ?_⟩
  · rw [cells.isRoot]
    cases tree
    rfl
  · rw [listing]
    intro entry member
    obtain ⟨index, inside, rfl⟩ := List.getElem_of_mem member
    have bound : index < (tree.listing (-1) 0).length := by simpa using inside
    obtain ⟨node, found, cell⟩ := cells.cell index bound (by simpa using bound)
    obtain ⟨saved, isSaved, wellFormed⟩ := loadable.live index bound
    have view := cell.view saved isSaved
    have name : node.name = saved.name := congrArg NodeView.name view
    refine ⟨node, by rw [placed_getElem _ _ bound]; exact found,
      ⟨name ▸ wellFormed.nameFits, name ▸ wellFormed.nameString, ?_, cell.dataFits⟩⟩
    rw [cell.lists, childrenAt_placed_length, List.take_of_length_le (by simp)]
    exact loadable.fits index bound
  · refine (map_relabel source.view fs.view (slotId root base) (-1) 0 tree ?_).symm
    intro index bound
    obtain ⟨node, found, cell⟩ := cells.cell index bound (by simpa using bound)
    obtain ⟨saved, isSaved, -⟩ := loadable.live index bound
    rw [Nat.zero_add, Fs.view, Fs.view, found, isSaved, Option.map_some, Option.map_some,
      cell.view saved isSaved,
      (persistent _ (List.getElem_mem bound) saved isSaved).savedView]

end Trinux
