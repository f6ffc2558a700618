import Trinux.Fs.LoadAtomicity

namespace Trinux

open Bytes

/-!
# The memory that the loader touches

`diskfs_load` takes lengths, counts and parent indices from the disk.  The log
below lists, for each of its steps, the bytes of the image it reads, the buffers
it fills with the size the allocator gave them, the entries of its `map` array,
and the type of the node to which it attaches a child.

The bound checks add 32-bit words, so a block count or a data size close to the
top of the range passes them; the allocator, which rounds up in 32 bits, then
returns a buffer that is too short.  The type of a parent is never looked at.
Both can be decided from the image, by the same walk that decides whether the
load succeeds.
-/

/-! ## The log -/

/-- One access to memory: to bytes of the image buffer, to the start of a buffer of a given size,
to an entry of the `map` array, or to the child array of a node. -/
inductive LoadAccess where
  | read (size off count : Nat)
  | fill (size count : Nat)
  | slot (size index : Nat)
  | attach (type : UInt32)
  deriving DecidableEq, Repr

/-- The access stays inside its buffer, and children are attached to directories. -/
def LoadAccess.InBounds : LoadAccess → Prop
  | .read size off count => off + count ≤ size
  | .fill size count => count ≤ size
  | .slot size index => index < size
  | .attach type => type = vfsDirectory

instance (access : LoadAccess) : Decidable access.InBounds :=
  match access with
  | .read size off count => inferInstanceAs (Decidable (off + count ≤ size))
  | .fill size count => inferInstanceAs (Decidable (count ≤ size))
  | .slot size index => inferInstanceAs (Decidable (index < size))
  | .attach type => inferInstanceAs (Decidable (type = vfsDirectory))

/-- The accesses of `loadPayload`; a buffer has the size that the allocator rounded to. -/
def payloadAccesses (granted : Bool) (img : List UInt8) (imageBytes : Nat)
    (header : RecordHeader) (off : Nat) : List LoadAccess :=
  if header.flags &&& 1 ≠ 0 then
    if imageBytes < u32 (off + 4) then []
    else
      let count := (readU32 img off).toNat
      if imageBytes < u32 (off + 4 + u32 (count * 4)) then [.read img.length off 4]
      else if count = 0 ∨ !kmalloc granted (u32 (count * 4)) then [.read img.length off 4]
      else [.read img.length off 4, .fill (alignUp (u32 (count * 4))) (count * 4),
        .read img.length (off + 4) (count * 4)]
  else if header.dataSize = 0 ∨ imageBytes < u32 (off + header.dataSize.toNat) ∨
      !kmalloc granted header.dataSize.toNat then []
  else [.fill (alignUp header.dataSize.toNat) header.dataSize.toNat,
    .read img.length off header.dataSize.toNat]

def Fs.typeOf (fs : Fs) (id : Nat) : UInt32 :=
  match fs.node id with
  | some node => node.type
  | none => 0

def nodeAccesses (alloc : Nat → Bool) (clock : Nat → UInt32) (root i : Nat)
    (header : RecordHeader) (name : List UInt8) (state : LoadState) : List LoadAccess :=
  if header.parentIdx.toNat.testBit 31 then [.fill vfsNameMax (vfsNameMax - 1)]
  else if i ≤ header.parentIdx.toNat then []
  else
    let parent := state.map.getD header.parentIdx.toNat root
    match ramfsCreateNode (alloc (2 + 2 * i)) (clock i) state.fs parent name header.type with
    | none => [.slot i header.parentIdx.toNat]
    | some _ => [.slot i header.parentIdx.toNat, .attach (state.fs.typeOf parent)]

def fieldAccesses (alloc : Nat → Bool) (clock : Nat → UInt32) (img : List UInt8)
    (imageBytes root i : Nat) (header : RecordHeader) (off : Nat) (state : LoadState) :
    List LoadAccess :=
  if imageBytes < u32 (off + header.nameLen.toNat) ∨ 64 ≤ header.nameLen.toNat then []
  else
    let name := cString (slice img off header.nameLen.toNat)
    [.read img.length off header.nameLen.toNat, .fill 64 (header.nameLen.toNat + 1)] ++
      nodeAccesses alloc clock root i header name state ++
      match loadNode alloc clock root i header name state with
      | .next _ => payloadAccesses (alloc (3 + 2 * i)) img imageBytes header
          (off + header.nameLen.toNat)
      | _ => []

def recordAccesses (alloc : Nat → Bool) (clock : Nat → UInt32) (img : List UInt8)
    (imageBytes root i : Nat) (state : LoadState) : List LoadAccess :=
  if imageBytes < u32 (state.off + 32) then []
  else .read img.length state.off 32 :: fieldAccesses alloc clock img imageBytes root i
    (readHeader img state.off) (state.off + 32) state

def recordsAccesses (alloc : Nat → Bool) (clock : Nat → UInt32) (img : List UInt8)
    (imageBytes root nodeCount : Nat) : (remaining i : Nat) → LoadState → List LoadAccess
  | 0, _, _ => []
  | remaining + 1, i, state =>
      recordAccesses alloc clock img imageBytes root i state ++
        match loadRecord alloc clock img imageBytes root i state with
        | .next state => .fill (alignUp (4 * nodeCount)) (4 * (i + 1)) ::
            recordsAccesses alloc clock img imageBytes root nodeCount remaining (i + 1) state
        | _ => []

/-- The accesses of `readImage`: the sector of the superblock and, once its fields were accepted
and a buffer was allocated, the sectors of the image. -/
def readImageAccesses (faults : Faults) (alloc : Nat → Bool) (disk : Disk) : List LoadAccess :=
  if !disk.present then []
  else
    match ataReadSectors faults disk (diskfsBaseLba disk) 1 with
    | none => [.fill ataSectorSize ataSectorSize]
    | some sb =>
        let imageBytes := (readU32 sb 12).toNat
        let sectors := sectorsFor imageBytes
        [.fill ataSectorSize ataSectorSize, .read ataSectorSize 0 16] ++
          if imageBytes < 16 ∨ diskfsMaxImage < imageBytes ∨
              !kmalloc (alloc 0) (sectors * ataSectorSize) then []
          else [.fill (alignUp (sectors * ataSectorSize)) (sectors * ataSectorSize)]

def diskfsLoadAccesses (faults : Faults) (alloc : Nat → Bool) (clock : Nat → UInt32) (fs : Fs)
    (disk : Disk) : List LoadAccess :=
  readImageAccesses faults alloc disk ++
    match readImage faults alloc disk, fs.root with
    | .ok image, some root =>
        recordsAccesses alloc clock image.img image.imageBytes root image.nodeCount
          image.nodeCount 0 ⟨16, wipeChildren fs.next fs root, []⟩
    | _, _ => []

/-! ## Sound images -/

/-- The count or size of a payload is refused if it is within seven bytes of wrapping around, or
beyond. -/
def payloadSound (granted : Bool) (img : List UInt8) (imageBytes : Nat) (header : RecordHeader)
    (off : Nat) : Bool :=
  if header.flags &&& 1 ≠ 0 then
    let count := (readU32 img off).toNat
    imageBytes < off + 4 ∨ count < 2 ^ 30 - 1 ∨ imageBytes < u32 (off + 4 + u32 (count * 4)) ∨
      !kmalloc granted (u32 (count * 4))
  else
    header.dataSize.toNat < 2 ^ 32 - 7 ∨ imageBytes < u32 (off + header.dataSize.toNat) ∨
      !kmalloc granted header.dataSize.toNat

/-- A record for which a node can be made names the root or a directory as its parent, and its
payload is sound.  The types are those of the slots. -/
def recordSound (alloc : Nat → Bool) (img : List UInt8) (imageBytes i : Nat) (walk : Walk)
    (types : Nat → UInt32) : Bool :=
  let header := readHeader img walk.off
  let off := walk.off + 32 + header.nameLen.toNat
  if imageBytes < off ∨ 64 ≤ header.nameLen.toNat then true
  else
    match walkNode alloc i header walk with
    | .next _ =>
        (header.parentIdx.toNat.testBit 31 ||
          types (walk.slots.getD header.parentIdx.toNat 0) == vfsDirectory) &&
        payloadSound (alloc (3 + 2 * i)) img imageBytes header off
    | _ => true

def recordsSound (alloc : Nat → Bool) (img : List UInt8) (imageBytes : Nat) :
    (remaining i : Nat) → Walk → (types : Nat → UInt32) → Bool
  | 0, _, _, _ => true
  | remaining + 1, i, walk, types =>
      recordSound alloc img imageBytes i walk types &&
        match walkRecord alloc img imageBytes i walk with
        | .next after => recordsSound alloc img imageBytes remaining (i + 1) after
            (Function.update types (after.slots.getD i 0) (readHeader img walk.off).type)
        | _ => true

def LoadImage.Sound (alloc : Nat → Bool) (image : LoadImage) : Prop :=
  recordsSound alloc image.img image.imageBytes image.nodeCount 0 ⟨16, [], []⟩ (fun _ => 0) = true

/-! ## Payloads -/

theorem kmalloc_iff {granted : Bool} {size : Nat} :
    kmalloc granted size = true ↔
      granted = true ∧ size ≠ 0 ∧ size < 2 ^ 32 ∧ alignUp size ≤ heapPayload := by
  rw [kmalloc, Bool.and_eq_true, decide_eq_true_eq]

/-- Rounding up wraps around exactly within seven bytes of the end of the range. -/
theorem alignUp_cases {size : Nat} (word : size < 2 ^ 32) :
    (size < 2 ^ 32 - 7 ∧ size ≤ alignUp size ∧ alignUp size ≤ size + 7) ∨
      (2 ^ 32 - 7 ≤ size ∧ alignUp size = 0) := by
  rw [alignUp]
  omega

/-- The list of a payload fits the buffer and the image unless its length wraps around. -/
theorem listAccesses_inBounds_iff {granted : Bool} {length imageBytes off count : Nat}
    (small : imageBytes ≤ diskfsMaxImage) (held : imageBytes ≤ length)
    (inside : off + 4 ≤ imageBytes) (word : count < 2 ^ 32)
    (bounded : ¬imageBytes < u32 (off + 4 + u32 (count * 4)))
    (memory : kmalloc granted (u32 (count * 4)) = true) :
    (count * 4 ≤ alignUp (u32 (count * 4)) ∧ off + 4 + count * 4 ≤ length) ↔
      count < 2 ^ 30 - 1 := by
  rcases kmalloc_iff.mp memory with ⟨-, -, -, arena⟩
  have rounded := alignUp_cases (Nat.mod_lt (count * 4) (show 0 < 2 ^ 32 by decide))
  rw [u32, u32] at *
  simp only [heapPayload, diskfsMaxImage] at arena small
  omega

theorem dataAccesses_inBounds_iff {granted : Bool} {length imageBytes off size : Nat}
    (small : imageBytes ≤ diskfsMaxImage) (held : imageBytes ≤ length)
    (inside : off ≤ imageBytes) (word : size < 2 ^ 32)
    (bounded : ¬imageBytes < u32 (off + size)) (memory : kmalloc granted size = true) :
    (size ≤ alignUp size ∧ off + size ≤ length) ↔ size < 2 ^ 32 - 7 := by
  rcases kmalloc_iff.mp memory with ⟨-, -, -, arena⟩
  have rounded := alignUp_cases word
  rw [u32] at bounded
  simp only [heapPayload, diskfsMaxImage] at arena small
  omega

theorem payloadAccesses_inBounds_iff (granted : Bool) (img : List UInt8) (imageBytes : Nat)
    (header : RecordHeader) (off : Nat) (small : imageBytes ≤ diskfsMaxImage)
    (held : imageBytes ≤ img.length) (inside : off ≤ imageBytes) :
    (∀ access ∈ payloadAccesses granted img imageBytes header off, access.InBounds) ↔
      payloadSound granted img imageBytes header off = true := by
  have exact4 : u32 (off + 4) = off + 4 :=
    u32_of_small (by simp only [diskfsMaxImage] at small; omega)
  rw [payloadAccesses, payloadSound]
  by_cases listed : header.flags &&& 1 ≠ 0
  · rw [if_pos listed, if_pos listed, exact4]
    by_cases short : imageBytes < off + 4
    · simp [short]
    rw [if_neg short]
    have word := (readU32 img off).toNat_lt
    generalize (readU32 img off).toNat = count at word ⊢
    by_cases beyond : imageBytes < u32 (off + 4 + u32 (count * 4))
    · simp [beyond, LoadAccess.InBounds]
      omega
    simp only [if_neg beyond]
    by_cases refused : count = 0 ∨ (!kmalloc granted (u32 (count * 4))) = true
    · have fine : count < 2 ^ 30 - 1 ∨ (!kmalloc granted (u32 (count * 4))) = true :=
        refused.imp_left fun zero => by omega
      rw [if_pos refused, decide_eq_true (Or.inr (fine.imp_right Or.inr))]
      simp only [List.mem_singleton, forall_eq, LoadAccess.InBounds]
      exact iff_of_true (by omega) trivial
    · rw [if_neg refused]
      rw [not_or, Bool.not_eq_true, Bool.not_eq_false'] at refused
      have exact_ := listAccesses_inBounds_iff small held (by omega) word beyond refused.2
      simp only [List.mem_cons, List.not_mem_nil, or_false, forall_eq_or_imp, forall_eq,
        LoadAccess.InBounds, exact_, short, beyond, refused.2, Bool.not_true, Bool.false_eq_true,
        false_or, decide_eq_true_eq]
      exact and_iff_right (by omega)
  · rw [if_neg listed, if_neg listed]
    have word := header.dataSize.toNat_lt
    by_cases refused : header.dataSize = 0 ∨ imageBytes < u32 (off + header.dataSize.toNat) ∨
        (!kmalloc granted header.dataSize.toNat) = true
    · have fine : header.dataSize.toNat < 2 ^ 32 - 7 ∨
          imageBytes < u32 (off + header.dataSize.toNat) ∨
            (!kmalloc granted header.dataSize.toNat) = true := by
        refine refused.imp_left fun zero => ?_
        rw [zero]
        decide
      rw [if_pos refused, decide_eq_true fine]
      simp
    · rw [if_neg refused]
      rw [not_or, not_or, Bool.not_eq_true, Bool.not_eq_false'] at refused
      have exact_ := dataAccesses_inBounds_iff small held inside word refused.2.1 refused.2.2
      simp only [List.mem_cons, List.not_mem_nil, or_false, forall_eq_or_imp, forall_eq,
        LoadAccess.InBounds, exact_, refused.2.1, refused.2.2, Bool.not_true, Bool.false_eq_true,
        decide_eq_true_eq]

/-- A payload that is read to its end ends inside the image. -/
theorem payloadEnd_inside {granted : Bool} {img : List UInt8} {imageBytes off last : Nat}
    {header : RecordHeader} (inside : off ≤ imageBytes)
    (finished : payloadEnd granted img imageBytes header off = .next last) :
    last ≤ imageBytes := by
  unfold payloadEnd at finished
  split at finished
  · simp only at finished
    split at finished
    · cases finished
    split at finished
    · cases finished
    split at finished
    · cases finished
    split at finished
    · cases finished
    cases finished
    omega
  · split at finished
    · split at finished
      · cases finished
      split at finished
      · cases finished
      split at finished
      · cases finished
      cases finished
      omega
    · cases finished
      exact inside

/-! ## The types of the nodes -/

theorem Fs.typeOf_congr {first second : Fs} {id : Nat} (same : first.node id = second.node id) :
    first.typeOf id = second.typeOf id := by
  rw [typeOf, typeOf, same]

theorem Fs.typeOf_modify (fs : Fs) (id other : Nat) {change : VfsNode → VfsNode}
    (kept : ∀ node, (change node).type = node.type) :
    (fs.modify id change).typeOf other = fs.typeOf other := by
  by_cases here : other = id
  · rw [here, typeOf, typeOf, modify_node_self]
    cases fs.node id with
    | none => rfl
    | some node => exact kept node
  · exact typeOf_congr (modify_node_of_ne fs change here)

theorem RecordHeader.restore_type (header : RecordHeader) (img : List UInt8) (off : Nat)
    (node : VfsNode) : (header.restore img off node).type = node.type := by
  rw [restore]
  split
  · rfl
  split <;> rfl

theorem ramfsCreateNode_typeOf {granted : Bool} {now : UInt32} {fs fs' : Fs} {parent id : Nat}
    {name : List UInt8} {type : UInt32}
    (created : ramfsCreateNode granted now fs parent name type = some (id, fs')) {other : Nat}
    (different : other ≠ id) : fs'.typeOf other = fs.typeOf other := by
  rcases ramfsCreateNode_cases created with ⟨-, -, rfl, rfl⟩
  have attached : ∀ node, (VfsNode.attach fs.next node).type = node.type := fun _ => rfl
  rw [Fs.typeOf_modify _ _ _ attached]
  exact Fs.typeOf_congr (Fs.alloc_node_of_ne fs _ different)

structure Typed (root base : Nat) (walk : Walk) (types : Nat → UInt32) (fs : Fs) : Prop where
  start : walk.slots = [] → walk.parents = []
  known : walk.slots ≠ [] →
    ∀ slot ≤ walk.parents.length, fs.typeOf (slotId root base slot) = types slot

section Track

variable {root base : Nat} {alloc : Nat → Bool} {clock : Nat → UInt32} {img : List UInt8}
  {imageBytes : Nat} {walk walk' : Walk} {state state' : LoadState} {types : Nat → UInt32}

/-- The node of a record is the only one whose type changes. -/
theorem loadNode_typeOf {header : RecordHeader} {name : List UInt8} {id : Nat} {fs' : Fs}
    (older : root < base) (follows : Follows root base walk state)
    (loaded : loadNode alloc clock root walk.slots.length header name state = .next (id, fs'))
    {slot : Nat} (earlier : slot ≤ walk.parents.length) :
    fs'.typeOf (slotId root base slot) = state.fs.typeOf (slotId root base slot) := by
  rcases loadNode_next loaded with ⟨-, rfl, rfl⟩ | ⟨-, created⟩
  · exact Fs.typeOf_modify _ _ _ fun _ => rfl
  · apply ramfsCreateNode_typeOf created
    rcases ramfsCreateNode_cases created with ⟨-, -, same, -⟩
    rw [same, follows.rebuilt.next, slotId]
    split <;> omega

theorem walkNode_first {header : RecordHeader} {opened : Nat × List Nat}
    (walked : walkNode alloc walk.slots.length header walk = .next opened)
    (first : walk.slots = []) : opened = (0, walk.parents) := by
  rw [walkNode] at walked
  by_cases isRoot : header.parentIdx.toNat.testBit 31 = true
  · rw [if_pos isRoot] at walked
    cases walked
    rfl
  · rw [if_neg isRoot, if_pos (by rw [first]; exact Nat.zero_le _)] at walked
    cases walked

/-- A node is opened in an existing slot or in the next one. -/
theorem walkNode_slot {i : Nat} {header : RecordHeader} {slot : Nat} {parents : List Nat}
    (walked : walkNode alloc i header walk = .next (slot, parents)) :
    (slot = 0 ∧ parents = walk.parents) ∨
      (slot = walk.parents.length + 1 ∧ parents.length = walk.parents.length + 1) := by
  rw [walkNode] at walked
  simp only at walked
  split_ifs at walked
  · cases walked
    exact Or.inl ⟨rfl, rfl⟩
  · cases walked
    exact Or.inr ⟨rfl, by rw [List.length_append, List.length_singleton]⟩

/-- Everything a record that is loaded does to the walk and to the heap. -/
theorem loadRecord_cases (older : root < base) (follows : Follows root base walk state)
    (walked : walkRecord alloc img imageBytes walk.slots.length walk = .next walk')
    (loaded : loadRecord alloc clock img imageBytes root walk.slots.length state = .next state') :
    let header := readHeader img walk.off
    let off := walk.off + 32 + header.nameLen.toNat
    ∃ slot parents fs', walkNode alloc walk.slots.length header walk = .next (slot, parents) ∧
      slot ≤ parents.length ∧
      loadNode alloc clock root walk.slots.length header
        (cString (slice img (walk.off + 32) header.nameLen.toNat)) state =
          .next (slotId root base slot, fs') ∧
      payloadEnd (alloc (3 + 2 * walk.slots.length)) img imageBytes header off =
        .next walk'.off ∧
      walk'.slots = walk.slots ++ [slot] ∧ walk'.parents = parents ∧
      state'.fs = (fs'.modify (slotId root base slot) header.apply).modify
        (slotId root base slot) (header.restore img off) := by
  intro header off
  rw [walkRecord] at walked
  rw [loadRecord, follows.off] at loaded
  by_cases short : imageBytes < u32 (walk.off + 32)
  · rw [if_pos short] at walked
    cases walked
  rw [if_neg short, walkFields] at walked
  rw [if_neg short, loadFields] at loaded
  by_cases named : imageBytes < u32 (walk.off + 32 + header.nameLen.toNat) ∨
      64 ≤ header.nameLen.toNat
  · rw [if_pos named] at walked
    cases walked
  rw [if_neg named] at walked loaded
  have node := loadNode_follows alloc clock header
    (cString (slice img (walk.off + 32) header.nameLen.toNat)) older follows
  cases verdict : walkNode alloc walk.slots.length header walk with
  | rejected code =>
      rw [verdict] at walked
      cases walked
  | wild =>
      rw [verdict] at walked
      cases walked
  | next opened =>
      rcases opened with ⟨slot, parents⟩
      rw [verdict] at node walked
      rcases node with ⟨fs', opened, bound, -, -⟩
      rw [opened, StepOutcome.bind_next, loadPayload_eq] at loaded
      rw [Verdict.bind_next] at walked
      cases payload : payloadEnd (alloc (3 + 2 * walk.slots.length)) img imageBytes header off with
      | rejected code =>
          rw [payload] at walked
          cases walked
      | wild =>
          rw [payload] at walked
          cases walked
      | next last =>
          rw [payload] at walked loaded
          cases walked
          cases loaded
          exact ⟨slot, parents, fs', rfl, bound, opened, rfl, rfl, rfl, rfl⟩

theorem loadRecord_typed (older : root < base) (follows : Follows root base walk state)
    (typed : Typed root base walk types state.fs)
    (walked : walkRecord alloc img imageBytes walk.slots.length walk = .next walk')
    (loaded : loadRecord alloc clock img imageBytes root walk.slots.length state = .next state') :
    Typed root base walk'
      (Function.update types (walk'.slots.getD walk.slots.length 0) (readHeader img walk.off).type)
      state'.fs := by
  generalize headerEq : readHeader img walk.off = header
  have live : ∀ slot ≤ walk'.parents.length, ∃ node,
      state'.fs.node (slotId root base slot) = some node := by
    have record := loadRecord_follows alloc clock img imageBytes older follows
    rw [walked] at record
    rcases record with ⟨-, other, same, later⟩
    rw [loaded] at same
    cases same
    exact fun slot inside => (later.rebuilt.children slot inside).imp fun _ found => found.1
  rcases loadRecord_cases older follows walked loaded with
    ⟨slot, parents, fs', opened, bound, node, -, slots, same, after⟩
  rw [headerEq] at opened node after
  generalize walk.off + 32 + header.nameLen.toNat = off at after
  have pushed : walk'.slots.getD walk.slots.length 0 = slot := by
    rw [slots, List.getD_append_right _ _ _ _ (Nat.le_refl _), Nat.sub_self]
    rfl
  have restored : ∀ node, (header.restore img off node).type = node.type :=
    fun node => header.restore_type img off node
  rw [pushed]
  refine ⟨fun first => absurd (slots.symm.trans first) (by simp), fun _ other inside => ?_⟩
  by_cases here : other = slot
  · subst here
    rw [Function.update_self]
    rcases live other inside with ⟨found, present⟩
    rw [after, Fs.modify_node_self, Fs.modify_node_self, Option.map_map,
      Option.map_eq_some_iff] at present
    rcases present with ⟨old, before, -⟩
    rw [after, Fs.typeOf_modify _ _ _ restored, Fs.typeOf, Fs.modify_node_self, before,
      Option.map_some]
    rfl
  · have different : slotId root base other ≠ slotId root base slot :=
      fun same => here (slotId_injective older same)
    have earlier : other ≤ walk.parents.length := by
      rw [same] at inside
      rcases walkNode_slot opened with ⟨rfl, kept⟩ | ⟨rfl, grown⟩
      · rw [kept] at inside
        exact inside
      · omega
    have kept : state'.fs.typeOf (slotId root base other) =
        fs'.typeOf (slotId root base other) := by
      rw [after, Fs.typeOf_modify _ _ _ restored]
      exact Fs.typeOf_congr (Fs.modify_node_of_ne _ _ different)
    rw [Function.update_of_ne here, kept, loadNode_typeOf older follows node earlier]
    apply typed.known _ other earlier
    intro first
    have only := Prod.mk.inj (walkNode_first opened first)
    rw [typed.start first, List.length_nil] at earlier
    omega

/-! ## The log of a run -/

theorem nodeAccesses_inBounds_iff {header : RecordHeader} {name : List UInt8}
    {opened : Nat × List Nat} (follows : Follows root base walk state)
    (typed : Typed root base walk types state.fs)
    (walked : walkNode alloc walk.slots.length header walk = .next opened)
    {result : Nat × Fs}
    (loaded : loadNode alloc clock root walk.slots.length header name state = .next result) :
    (∀ access ∈ nodeAccesses alloc clock root walk.slots.length header name state,
      access.InBounds) ↔
      (header.parentIdx.toNat.testBit 31 ||
        types (walk.slots.getD header.parentIdx.toNat 0) == vfsDirectory) = true := by
  rw [walkNode] at walked
  rw [loadNode] at loaded
  rw [nodeAccesses]
  by_cases isRoot : header.parentIdx.toNat.testBit 31 = true
  · rw [if_pos isRoot, isRoot]
    simp [LoadAccess.InBounds]
  rw [if_neg isRoot] at walked loaded ⊢
  by_cases late : walk.slots.length ≤ header.parentIdx.toNat
  · rw [if_pos late] at walked
    cases walked
  rw [if_neg late] at loaded ⊢
  have inside : header.parentIdx.toNat < walk.slots.length := by omega
  rcases follows.parent inside with ⟨parent, bound⟩
  have type : state.fs.typeOf (slotId root base (walk.slots.getD header.parentIdx.toNat 0)) =
      types (walk.slots.getD header.parentIdx.toNat 0) :=
    typed.known (List.ne_nil_of_length_pos (by omega)) _ bound
  cases created : ramfsCreateNode (alloc (2 + 2 * walk.slots.length)) (clock walk.slots.length)
      state.fs (state.map.getD header.parentIdx.toNat root) name header.type with
  | none =>
      rw [created] at loaded
      cases loaded
  | some made =>
      simp only [created]
      rw [parent, type, Bool.eq_false_iff.mpr isRoot, Bool.false_or, beq_iff_eq]
      simp only [List.mem_cons, List.not_mem_nil, or_false, forall_eq_or_imp, forall_eq,
        LoadAccess.InBounds]
      exact and_iff_right inside

theorem nodeAccesses_inBounds_of_fail {header : RecordHeader} {name : List UInt8} {i : Nat}
    {code : Int} {fs : Fs}
    (failed : loadNode alloc clock root i header name state = .fail code fs) :
    ∀ access ∈ nodeAccesses alloc clock root i header name state, access.InBounds := by
  rw [loadNode] at failed
  rw [nodeAccesses]
  by_cases isRoot : header.parentIdx.toNat.testBit 31 = true
  · rw [if_pos isRoot] at failed
    cases failed
  rw [if_neg isRoot] at failed ⊢
  by_cases late : i ≤ header.parentIdx.toNat
  · rw [if_pos late]
    simp
  rw [if_neg late] at failed ⊢
  cases created : ramfsCreateNode (alloc (2 + 2 * i)) (clock i) state.fs
      (state.map.getD header.parentIdx.toNat root) name header.type with
  | none =>
      simp only [created, List.mem_singleton, forall_eq, LoadAccess.InBounds]
      omega
  | some made =>
      rw [created] at failed
      cases failed

/-- The accesses of one record stay inside their buffers exactly if the record is sound. -/
theorem recordAccesses_inBounds_iff (older : root < base) (follows : Follows root base walk state)
    (typed : Typed root base walk types state.fs) (small : imageBytes ≤ diskfsMaxImage)
    (held : imageBytes ≤ img.length) (inside : walk.off ≤ imageBytes) :
    (∀ access ∈ recordAccesses alloc clock img imageBytes root walk.slots.length state,
      access.InBounds) ↔
      recordSound alloc img imageBytes walk.slots.length walk types = true := by
  have exact32 : u32 (walk.off + 32) = walk.off + 32 :=
    u32_of_small (by simp only [diskfsMaxImage] at small; omega)
  rw [recordAccesses, recordSound, follows.off, exact32]
  generalize readHeader img walk.off = header
  by_cases short : imageBytes < walk.off + 32
  · rw [if_pos short, if_pos (Or.inl (by omega))]
    simp
  rw [if_neg short, fieldAccesses]
  by_cases named : 64 ≤ header.nameLen.toNat
  · rw [if_pos (Or.inr named), if_pos (Or.inr named)]
    simp only [List.mem_singleton, forall_eq, LoadAccess.InBounds]
    exact iff_of_true (by omega) trivial
  have exactName : u32 (walk.off + 32 + header.nameLen.toNat) =
      walk.off + 32 + header.nameLen.toNat :=
    u32_of_small (by simp only [diskfsMaxImage] at small; omega)
  rw [exactName]
  by_cases beyond : imageBytes < walk.off + 32 + header.nameLen.toNat
  · rw [if_pos (Or.inl beyond), if_pos (Or.inl beyond)]
    simp only [List.mem_singleton, forall_eq, LoadAccess.InBounds]
    exact iff_of_true (by omega) trivial
  rw [if_neg (by omega), if_neg (by omega)]
  generalize cString (slice img (walk.off + 32) header.nameLen.toNat) = name
  have node := loadNode_follows alloc clock header name older follows
  have front : LoadAccess.InBounds (.read img.length walk.off 32) ∧
      LoadAccess.InBounds (.read img.length (walk.off + 32) header.nameLen.toNat) ∧
      LoadAccess.InBounds (.fill 64 (header.nameLen.toNat + 1)) := by
    simp only [LoadAccess.InBounds]
    omega
  simp only [List.mem_cons, List.mem_append, List.not_mem_nil, or_false, or_imp, forall_and,
    forall_eq]
  rw [and_iff_right front.1, and_iff_right front.2]
  cases verdict : walkNode alloc walk.slots.length header walk with
  | wild =>
      rw [verdict] at node
      exact node.elim
  | rejected code =>
      rw [verdict] at node
      rw [node]
      simp only [List.not_mem_nil, false_imp_iff, implies_true, and_true, iff_true]
      exact nodeAccesses_inBounds_of_fail node
  | next opened =>
      rw [verdict] at node
      rcases node with ⟨fs', loaded, -⟩
      rw [loaded, nodeAccesses_inBounds_iff follows typed verdict loaded, Bool.and_eq_true]
      exact and_congr_right fun _ =>
        payloadAccesses_inBounds_iff _ img imageBytes header _ small held (by omega)

theorem loadRecord_inside (older : root < base) (follows : Follows root base walk state)
    (small : imageBytes ≤ diskfsMaxImage) (inside : walk.off ≤ imageBytes)
    (walked : walkRecord alloc img imageBytes walk.slots.length walk = .next walk')
    (loaded : loadRecord alloc clock img imageBytes root walk.slots.length state = .next state') :
    walk'.off ≤ imageBytes := by
  rcases loadRecord_cases older follows walked loaded with ⟨-, -, -, -, -, -, payload, -⟩
  refine payloadEnd_inside ?_ payload
  rcases (loadRecord_next loaded).1 with ⟨-, inside', shortName⟩
  rw [follows.off] at inside' shortName
  rwa [u32_of_small (by simp only [diskfsMaxImage] at small; omega)] at inside'

/-- The accesses of the rebuilding loop stay inside their buffers exactly if every record it
comes to is sound. -/
theorem recordsAccesses_inBounds_iff {nodeCount remaining : Nat} (older : root < base)
    (follows : Follows root base walk state) (typed : Typed root base walk types state.fs)
    (small : imageBytes ≤ diskfsMaxImage) (held : imageBytes ≤ img.length)
    (inside : walk.off ≤ imageBytes) (mapped : walk.slots.length + remaining ≤ nodeCount)
    (few : nodeCount ≤ diskfsMaxNodes) :
    (∀ access ∈ recordsAccesses alloc clock img imageBytes root nodeCount remaining
      walk.slots.length state, access.InBounds) ↔
      recordsSound alloc img imageBytes remaining walk.slots.length walk types = true := by
  induction remaining generalizing walk state types with
  | zero => simp [recordsAccesses, recordsSound]
  | succ remaining known =>
      rw [recordsAccesses, recordsSound, List.forall_mem_append, Bool.and_eq_true,
        recordAccesses_inBounds_iff older follows typed small held inside]
      apply and_congr_right
      intro _
      have record := loadRecord_follows alloc clock img imageBytes older follows
      cases verdict : walkRecord alloc img imageBytes walk.slots.length walk with
      | rejected code =>
          rw [verdict] at record
          rcases record with ⟨fs', loaded, -⟩
          rw [loaded]
          simp
      | wild =>
          rw [verdict] at record
          rw [record]
          simp
      | next walk' =>
          rw [verdict] at record
          rcases record with ⟨count, state', loaded, later⟩
          have typed' := loadRecord_typed older follows typed verdict loaded
          have rest := known later typed'
            (loadRecord_inside older follows small inside verdict loaded) (by omega)
          rw [count] at rest
          rw [loaded]
          simp only [List.forall_mem_cons]
          rw [rest]
          apply and_iff_right
          simp only [LoadAccess.InBounds, alignUp, diskfsMaxNodes] at few ⊢
          omega

end Track

/-! ## Whole loads -/

/-- An image that was read has passed the checks of its superblock. -/
theorem readImage_ok {faults : Faults} {alloc : Nat → Bool} {disk : Disk} {image : LoadImage}
    (read : readImage faults alloc disk = .ok image) :
    image.nodeCount ≤ diskfsMaxNodes ∧ 16 ≤ image.imageBytes ∧
      image.imageBytes ≤ diskfsMaxImage ∧ image.imageBytes ≤ image.img.length := by
  unfold readImage readImageOver at read
  split at read
  · cases read
  split at read
  · cases read
  rename_i sb _
  split at read
  · cases read
  split at read
  · cases read
  simp only at read
  split at read
  · cases read
  rename_i nodes
  split at read
  · cases read
  rename_i size
  split at read
  · cases read
  split at read
  · cases read
  rename_i img loop
  split at read
  · cases read
  cases read
  rw [not_or, Nat.not_lt] at nodes size
  have lower : 16 ≤ (readU32 sb 12).toNat := by omega
  refine ⟨nodes.2, lower, Nat.not_lt.mp size.2, ?_⟩
  have positive : 0 < sectorsFor (readU32 sb 12).toNat := by
    simp only [sectorsFor, ataSectorSize]
    omega
  rw [ataReadLoop_eq faults disk 255 _ _ _ (Nat.le_refl _) (by decide) positive
    (fun isAhci => absurd isAhci Bool.false_ne_true)] at loop
  rw [ataReadSectors_eq_some loop, Disk.sectors_length]
  simp only [sectorsFor, ataSectorSize]
  omega

theorem readImageAccesses_inBounds (faults : Faults) (alloc : Nat → Bool) (disk : Disk) :
    ∀ access ∈ readImageAccesses faults alloc disk, access.InBounds := by
  rw [readImageAccesses]
  split
  · simp
  cases ataReadSectors faults disk (diskfsBaseLba disk) 1 with
  | none => simp [LoadAccess.InBounds]
  | some sb =>
      simp only
      split
      · simp [LoadAccess.InBounds, ataSectorSize]
      · rename_i accepted
        rw [not_or, not_or, Nat.not_lt, Nat.not_lt] at accepted
        have rounded : sectorsFor (readU32 sb 12).toNat * ataSectorSize ≤
            alignUp (sectorsFor (readU32 sb 12).toNat * ataSectorSize) := by
          have large := accepted.2.1
          simp only [alignUp, sectorsFor, ataSectorSize, diskfsMaxImage] at large ⊢
          omega
        simpa [LoadAccess.InBounds, ataSectorSize] using rounded

/-- Whatever the disk holds: every access of `diskfs_load` stays inside its buffer, and children
are attached to directories only, exactly if every record that the load comes to is sound. -/
theorem diskfsLoad_inBounds_iff (faults : Faults) (alloc : Nat → Bool) (clock : Nat → UInt32)
    (fs : Fs) (disk : Disk) (root : Nat) (rooted : fs.Rooted root) :
    (∀ access ∈ diskfsLoadAccesses faults alloc clock fs disk, access.InBounds) ↔
      ∀ image, readImage faults alloc disk = .ok image → image.Sound alloc := by
  have older : root < fs.next := by
    rcases rooted.live with ⟨node, found⟩
    exact rooted.bounded.lt found
  rw [diskfsLoadAccesses, List.forall_mem_append,
    and_iff_right (readImageAccesses_inBounds faults alloc disk)]
  cases read : readImage faults alloc disk with
  | error code =>
      refine iff_of_true (by simp) ?_
      intro image found
      cases found
  | ok image =>
      rcases readImage_ok read with ⟨few, large, small, held⟩
      simp only [rooted.isRoot, Except.ok.injEq, forall_eq']
      exact recordsAccesses_inBounds_iff older (wipeChildren_follows rooted)
        ⟨fun _ => rfl, fun first => absurd rfl first⟩ small held large (by simp) few

/-! ## Images with one record -/

/-- An image with a record for the root: its type, its flags and what follows its name. -/
def rootImage (type flags : UInt32) (payload : List UInt8) : List UInt8 :=
  words [diskfsMagic, diskfsVersion, 1, UInt32.ofNat (49 + payload.length),
    0xFFFFFFFF, type, 0o755, 0, 0, 0, 1, flags] ++ literal "/" ++ payload

def wrappedListImage : List UInt8 :=
  rootImage vfsDirectory 1 (words [UInt32.ofNat (2 ^ 30 + 1), 0])

theorem diskfsLoad_inBounds_iff_threeRecords :
    sampleTree.Rooted 0 ∧
      ∀ access ∈ diskfsLoadAccesses .none (fun _ => true) (fun _ => 0) sampleTree
        (sampleDisk threeRecords), access.InBounds := by
  refine ⟨sampleTree_rooted, (diskfsLoad_inBounds_iff .none (fun _ => true) (fun _ => 0)
    sampleTree (sampleDisk threeRecords) 0 sampleTree_rooted).mpr ?_⟩
  have sound : (match readImage .none (fun _ => true)
      (sampleDisk threeRecords) with
    | .ok image => recordsSound (fun _ => true) image.img image.imageBytes image.nodeCount 0
        ⟨16, [], []⟩ fun _ => 0
    | .error _ => false) = true := by decide +kernel
  intro image read
  rw [read] at sound
  exact sound

/-- The loader writes behind the block list it allocated. -/
theorem diskfsLoad_leaves_buffers :
    ¬∀ (faults : Faults) (alloc : Nat → Bool) (clock : Nat → UInt32) (fs : Fs) (disk : Disk)
      (root : Nat), fs.Rooted root →
        ∀ access ∈ diskfsLoadAccesses faults alloc clock fs disk, access.InBounds := by
  intro safe
  have inBounds := safe .none (fun _ => true) (fun _ => 0) sampleTree
    (sampleDisk wrappedListImage) 0 sampleTree_rooted
  have outside : ¬∀ access ∈ diskfsLoadAccesses .none (fun _ => true) (fun _ => 0) sampleTree
      (sampleDisk wrappedListImage), access.InBounds := by decide +kernel
  exact outside inBounds

end Trinux
