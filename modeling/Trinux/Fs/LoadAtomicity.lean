import Trinux.Fs.DiskfsLoad

namespace Trinux

open Bytes

/-!
# When a failed load leaves the tree alone

`diskfs_load` returns a negative code both from the checks it makes before
`wipe_children` and from those it makes while rebuilding.  Only the first kind
leaves the tree as it was: afterwards the old nodes are freed and the root holds
at most new ones.

Whether the rebuilding fails is decided by the image and the allocator alone.
`walkRecords` makes the loop's checks without building anything; it keeps a slot
for each object instead, zero for the root and `n` for the `n`-th created node,
so that it can count the children each parent already has.
-/

/-! ## The checks of the rebuilding loop -/

/-- The cursor, the slot of every record so far, and the slot of every created node's parent. -/
structure Walk where
  off : Nat
  slots : List Nat
  parents : List Nat
  deriving DecidableEq, Repr

/-- The checks of `loadNode`: the slot of the record's node and the parents so far. -/
def walkNode (alloc : Nat → Bool) (i : Nat) (header : RecordHeader) (walk : Walk) :
    Verdict (Nat × List Nat) :=
  if header.parentIdx.toNat.testBit 31 then .next (0, walk.parents)
  else if i ≤ header.parentIdx.toNat then .rejected (-7)
  else
    let above := walk.slots.getD header.parentIdx.toNat 0
    if vfsMaxChildren ≤ walk.parents.count above then .rejected (-8)
    else if !kmalloc (alloc (2 + 2 * i)) sizeofVfsNode then .rejected (-8)
    else .next (walk.parents.length + 1, walk.parents ++ [above])

def walkFields (alloc : Nat → Bool) (img : List UInt8) (imageBytes i : Nat)
    (header : RecordHeader) (off : Nat) (walk : Walk) : Verdict Walk :=
  if imageBytes < u32 (off + header.nameLen.toNat) ∨ 64 ≤ header.nameLen.toNat then
    .rejected (-7)
  else
    (walkNode alloc i header walk).bind fun opened =>
      (payloadEnd (alloc (3 + 2 * i)) img imageBytes header
          (off + header.nameLen.toNat)).bind fun last =>
        .next ⟨last, walk.slots ++ [opened.1], opened.2⟩

def walkRecord (alloc : Nat → Bool) (img : List UInt8) (imageBytes i : Nat) (walk : Walk) :
    Verdict Walk :=
  if imageBytes < u32 (walk.off + 32) then .rejected (-7)
  else walkFields alloc img imageBytes i (readHeader img walk.off) (walk.off + 32) walk

def walkRecords (alloc : Nat → Bool) (img : List UInt8) (imageBytes : Nat) :
    (remaining i : Nat) → Walk → Verdict Walk
  | 0, _, walk => .next walk
  | remaining + 1, i, walk =>
      match walkRecord alloc img imageBytes i walk with
      | .rejected code => .rejected code
      | .wild => .wild
      | .next walk => walkRecords alloc img imageBytes remaining (i + 1) walk

def LoadImage.Accepted (alloc : Nat → Bool) (image : LoadImage) : Prop :=
  ∃ last, walkRecords alloc image.img image.imageBytes image.nodeCount 0 ⟨16, [], []⟩ = .next last

/-- A load keeps the tree if it fails.  A load that runs past a buffer does so behind the wipe and
keeps nothing. -/
def LoadOutcome.KeepsTree (fs : Fs) : LoadOutcome → Prop
  | .ret code fs' => code < 0 → fs' = fs
  | .wild => False

/-! ## The walk follows the loader -/

/-- The heap of a rebuilding in which nodes below the given parents were created. -/
structure Rebuilt (root base : Nat) (parents : List Nat) (fs : Fs) : Prop where
  next : fs.next = base + parents.length
  earlier : ∀ slot ∈ parents, slot ≤ parents.length
  children : ∀ slot ≤ parents.length, ∃ node, fs.node (slotId root base slot) = some node ∧
    node.children.length = parents.count slot
  fresh : ∀ child ∈ fs.childrenOf root, base ≤ child

section Follow

variable {root base : Nat} {parents : List Nat} {fs : Fs}

/-- Restoring a node's fields does not change what was created. -/
theorem Rebuilt.modify (rebuilt : Rebuilt root base parents fs) (id : Nat)
    {change : VfsNode → VfsNode} (kept : ∀ node, (change node).children = node.children) :
    Rebuilt root base parents (fs.modify id change) := by
  have lists : ∀ other, (fs.modify id change).childrenOf other = fs.childrenOf other := by
    intro other
    by_cases here : other = id
    · rw [here, Fs.childrenOf, Fs.childrenOf, Fs.modify_node_self]
      cases fs.node id with
      | none => rfl
      | some node => exact kept node
    · exact Fs.childrenOf_congr (Fs.modify_node_of_ne fs change here)
  refine ⟨rebuilt.next, rebuilt.earlier, fun slot bound => ?_, fun child member => ?_⟩
  · obtain ⟨node, found, count⟩ := rebuilt.children slot bound
    by_cases here : slotId root base slot = id
    · refine ⟨change node, ?_, (congrArg List.length (kept node)).trans count⟩
      rw [here, Fs.modify_node_self, ← here, found, Option.map_some]
    · exact ⟨node, by rw [Fs.modify_node_of_ne fs change here, found], count⟩
  · rw [lists] at member
    exact rebuilt.fresh child member

theorem Rebuilt.create (rebuilt : Rebuilt root base parents fs) (older : root < base)
    {above : Nat} (inside : above ≤ parents.length) {granted : Bool} {now : UInt32}
    {name : List UInt8} {type : UInt32} {id : Nat} {fs' : Fs}
    (created : ramfsCreateNode granted now fs (slotId root base above) name type =
      some (id, fs')) :
    id = slotId root base (parents.length + 1) ∧
      Rebuilt root base (parents ++ [above]) fs' := by
  have olderAbove : slotId root base above < fs.next := by
    rw [rebuilt.next]
    unfold slotId
    split <;> omega
  obtain ⟨-, -, idEq, -⟩ := ramfsCreateNode_cases created
  have idSlot : id = slotId root base (parents.length + 1) := by
    rw [idEq, rebuilt.next, slotId_succ]
  have idAbove : base ≤ id := by
    rw [idEq, rebuilt.next]
    omega
  refine ⟨idSlot, ?_, fun slot member => ?_, fun slot bound => ?_, fun child member => ?_⟩
  · rw [ramfsCreateNode_next created, rebuilt.next, List.length_append]
    rfl
  · rw [List.length_append, List.length_singleton]
    rcases List.mem_append.mp member with old | new
    · exact Nat.le_succ_of_le (rebuilt.earlier slot old)
    · rw [List.mem_singleton.mp new]
      exact Nat.le_succ_of_le inside
  · rw [List.length_append, List.length_singleton] at bound
    rw [List.count_append, List.count_singleton]
    by_cases new : slot = parents.length + 1
    · -- The new node has no children, and no earlier node was created below it.
      refine ⟨_, by rw [new, ← idSlot]; exact ramfsCreateNode_new olderAbove created, ?_⟩
      have absent : parents.count slot = 0 := by
        rw [List.count_eq_zero]
        intro old
        have := rebuilt.earlier slot old
        omega
      rw [absent, if_neg (by simp only [beq_iff_eq]; omega)]
      rfl
    · obtain ⟨node, found, count⟩ := rebuilt.children slot (by omega)
      have notNew : slotId root base slot ≠ id := by
        rw [idSlot]
        exact fun same => new (slotId_injective older same)
      by_cases here : slot = above
      · refine ⟨node.attach id, ?_, ?_⟩
        · rw [here, ramfsCreateNode_parent olderAbove created, ← here, found, Option.map_some]
        · rw [VfsNode.attach, List.length_append, List.length_singleton, count,
            if_pos (by simp [here])]
      · refine ⟨node, ?_, ?_⟩
        · rw [ramfsCreateNode_other created notNew
            (fun same => here (slotId_injective older same)), found]
        · rw [count, if_neg (by simpa using Ne.symm here), Nat.add_zero]
  · by_cases here : above = 0
    · subst here
      rw [Fs.childrenOf, show root = slotId root base 0 from rfl,
        ramfsCreateNode_parent olderAbove created] at member
      obtain ⟨node, found, -⟩ := rebuilt.children 0 (Nat.zero_le _)
      rw [found, Option.map_some] at member
      rcases List.mem_append.mp member with old | new
      · exact rebuilt.fresh child (by
          rw [Fs.childrenOf, show root = slotId root base 0 from rfl, found]; exact old)
      · rw [List.mem_singleton.mp new]
        exact idAbove
    · have rootOther : fs'.node root = fs.node root :=
        ramfsCreateNode_other created (by omega) (by unfold slotId; rw [if_neg here]; omega)
      rw [Fs.childrenOf_congr rootOther] at member
      exact rebuilt.fresh child member

structure Follows (root base : Nat) (walk : Walk) (state : LoadState) : Prop where
  off : state.off = walk.off
  map : state.map = walk.slots.map (slotId root base)
  slots : ∀ slot ∈ walk.slots, slot ≤ walk.parents.length
  rebuilt : Rebuilt root base walk.parents state.fs

/-- The parent of a record is in the slot that the walk knows. -/
theorem Follows.parent {walk : Walk} {state : LoadState} (follows : Follows root base walk state)
    {i : Nat} (inside : i < walk.slots.length) :
    state.map.getD i root = slotId root base (walk.slots.getD i 0) ∧
      walk.slots.getD i 0 ≤ walk.parents.length := by
  rw [follows.map, List.getD_eq_getElem _ _ (by simpa using inside),
    List.getD_eq_getElem _ _ inside, List.getElem_map]
  exact ⟨rfl, follows.slots _ (List.getElem_mem inside)⟩

def Discarded (root base : Nat) (fs : Fs) : Prop :=
  ∀ child ∈ fs.childrenOf root, base ≤ child

theorem loadNode_follows (alloc : Nat → Bool) (clock : Nat → UInt32) (header : RecordHeader)
    (name : List UInt8) {walk : Walk} {state : LoadState} (older : root < base)
    (follows : Follows root base walk state) :
    match walkNode alloc walk.slots.length header walk with
    | .next (slot, parents) => ∃ fs',
        loadNode alloc clock root walk.slots.length header name state =
          .next (slotId root base slot, fs') ∧
        slot ≤ parents.length ∧ walk.parents.length ≤ parents.length ∧
        Rebuilt root base parents fs'
    | .rejected code =>
        loadNode alloc clock root walk.slots.length header name state = .fail code state.fs
    | .wild => False := by
  unfold walkNode loadNode
  by_cases isRoot : header.parentIdx.toNat.testBit 31
  · rw [if_pos isRoot, if_pos isRoot]
    exact ⟨_, rfl, Nat.zero_le _, Nat.le_refl _, follows.rebuilt.modify root fun _ => rfl⟩
  rw [if_neg isRoot, if_neg isRoot]
  by_cases late : walk.slots.length ≤ header.parentIdx.toNat
  · rw [if_pos late, if_pos late]
  rw [if_neg late, if_neg late]
  have inside : header.parentIdx.toNat < walk.slots.length := by omega
  rcases follows.parent inside with ⟨parent, bound⟩
  obtain ⟨node, found, count⟩ := follows.rebuilt.children _ bound
  simp only [parent]
  cases created : ramfsCreateNode (alloc (2 + 2 * walk.slots.length)) (clock walk.slots.length)
      state.fs (slotId root base (walk.slots.getD header.parentIdx.toNat 0)) name header.type with
  | none =>
      unfold ramfsCreateNode at created
      rw [Fs.childrenOf_eq found, count] at created
      split at created <;> rename_i full
      · rw [if_pos full]
      split at created <;> rename_i memory
      · rw [if_neg full, if_pos memory]
      · cases created
  | some result =>
      obtain ⟨id, fs'⟩ := result
      obtain ⟨room, memory, -, -⟩ := ramfsCreateNode_cases created
      rw [Fs.childrenOf_eq found, count] at room
      rw [if_neg (by omega), if_neg (by simp [memory])]
      obtain ⟨idEq, rebuilt⟩ := follows.rebuilt.create older bound created
      rw [idEq]
      exact ⟨fs', rfl, by simp, by simp, rebuilt⟩

theorem loadFields_follows (alloc : Nat → Bool) (clock : Nat → UInt32) (img : List UInt8)
    (imageBytes : Nat) (header : RecordHeader) (off : Nat) {walk : Walk} {state : LoadState}
    (older : root < base) (follows : Follows root base walk state) :
    match walkFields alloc img imageBytes walk.slots.length header off walk with
    | .next walk' => walk'.slots.length = walk.slots.length + 1 ∧ ∃ state',
        loadFields alloc clock img imageBytes root walk.slots.length header off state =
          .next state' ∧ Follows root base walk' state'
    | .rejected code => ∃ fs',
        loadFields alloc clock img imageBytes root walk.slots.length header off state =
          .fail code fs' ∧ Discarded root base fs'
    | .wild =>
        loadFields alloc clock img imageBytes root walk.slots.length header off state =
          .wild := by
  rw [walkFields, loadFields]
  by_cases named : imageBytes < u32 (off + header.nameLen.toNat) ∨ 64 ≤ header.nameLen.toNat
  · rw [if_pos named, if_pos named]
    exact ⟨_, rfl, follows.rebuilt.fresh⟩
  rw [if_neg named, if_neg named]
  have node := loadNode_follows alloc clock header
    (cString (slice img off header.nameLen.toNat)) older follows
  cases verdict : walkNode alloc walk.slots.length header walk with
  | rejected code =>
      rw [verdict] at node
      rw [node, Verdict.bind_rejected, StepOutcome.bind_fail]
      exact ⟨_, rfl, follows.rebuilt.fresh⟩
  | wild =>
      rw [verdict] at node
      exact node.elim
  | next created =>
      obtain ⟨slot, parents⟩ := created
      rw [verdict] at node
      obtain ⟨fs', loaded, bound, grown, rebuilt⟩ := node
      have applied := rebuilt.modify (slotId root base slot) fun node => header.apply_children node
      rw [loaded, Verdict.bind_next, StepOutcome.bind_next, loadPayload_eq]
      cases payload : payloadEnd (alloc (3 + 2 * walk.slots.length)) img imageBytes header
          (off + header.nameLen.toNat) with
      | rejected code => exact ⟨_, rfl, applied.fresh⟩
      | wild => rfl
      | next off =>
          refine ⟨by simp, _, rfl, rfl, ?_, ?_, ?_⟩
          · rw [List.map_append, ← follows.map]
            rfl
          · intro other member
            rcases List.mem_append.mp member with old | new
            · exact Nat.le_trans (follows.slots other old) grown
            · rw [List.mem_singleton.mp new]
              exact bound
          · exact applied.modify _ fun node => header.restore_children _ _ node

theorem loadRecord_follows (alloc : Nat → Bool) (clock : Nat → UInt32) (img : List UInt8)
    (imageBytes : Nat) {walk : Walk} {state : LoadState} (older : root < base)
    (follows : Follows root base walk state) :
    match walkRecord alloc img imageBytes walk.slots.length walk with
    | .next walk' => walk'.slots.length = walk.slots.length + 1 ∧ ∃ state',
        loadRecord alloc clock img imageBytes root walk.slots.length state = .next state' ∧
        Follows root base walk' state'
    | .rejected code => ∃ fs',
        loadRecord alloc clock img imageBytes root walk.slots.length state = .fail code fs' ∧
        Discarded root base fs'
    | .wild => loadRecord alloc clock img imageBytes root walk.slots.length state = .wild := by
  rw [walkRecord, loadRecord, follows.off]
  by_cases short : imageBytes < u32 (walk.off + 32)
  · rw [if_pos short, if_pos short]
    exact ⟨_, rfl, follows.rebuilt.fresh⟩
  · rw [if_neg short, if_neg short]
    exact loadFields_follows alloc clock img imageBytes _ _ older follows

theorem loadRecords_follows (alloc : Nat → Bool) (clock : Nat → UInt32) (img : List UInt8)
    (imageBytes remaining : Nat) {walk : Walk} {state : LoadState} (older : root < base)
    (follows : Follows root base walk state) :
    match walkRecords alloc img imageBytes remaining walk.slots.length walk with
    | .next _ => ∃ fs',
        loadRecords alloc clock img imageBytes root remaining walk.slots.length state =
          .ret 1 fs'
    | .rejected code => ∃ fs',
        loadRecords alloc clock img imageBytes root remaining walk.slots.length state =
          .ret code fs' ∧ Discarded root base fs'
    | .wild =>
        loadRecords alloc clock img imageBytes root remaining walk.slots.length state =
          .wild := by
  induction remaining generalizing walk state with
  | zero => exact ⟨_, rfl⟩
  | succ remaining known =>
      rw [walkRecords, loadRecords]
      have record := loadRecord_follows alloc clock img imageBytes older follows
      cases verdict : walkRecord alloc img imageBytes walk.slots.length walk with
      | rejected code =>
          rw [verdict] at record
          obtain ⟨fs', loaded, discarded⟩ := record
          rw [loaded]
          exact ⟨fs', rfl, discarded⟩
      | wild =>
          rw [verdict] at record
          rw [record]
      | next walk' =>
          rw [verdict] at record
          obtain ⟨count, state', loaded, later⟩ := record
          rw [loaded]
          have rest := known later
          rw [count] at rest
          exact rest

end Follow

/-! ## Failures before and after the wipe -/

theorem walkNode_rejected {alloc : Nat → Bool} {i : Nat} {header : RecordHeader} {walk : Walk}
    {code : Int} (rejected : walkNode alloc i header walk = .rejected code) : code < 0 := by
  unfold walkNode at rejected
  by_cases isRoot : header.parentIdx.toNat.testBit 31
  · rw [if_pos isRoot] at rejected
    cases rejected
  rw [if_neg isRoot] at rejected
  by_cases late : i ≤ header.parentIdx.toNat
  · rw [if_pos late] at rejected
    cases rejected; decide
  rw [if_neg late] at rejected
  generalize walk.slots.getD header.parentIdx.toNat 0 = above at rejected
  by_cases full : vfsMaxChildren ≤ walk.parents.count above
  · rw [if_pos full] at rejected
    cases rejected; decide
  rw [if_neg full] at rejected
  by_cases memory : (!kmalloc (alloc (2 + 2 * i)) sizeofVfsNode) = true
  · rw [if_pos memory] at rejected
    cases rejected; decide
  · rw [if_neg memory] at rejected
    cases rejected

theorem walkFields_rejected {alloc : Nat → Bool} {img : List UInt8} {imageBytes i off : Nat}
    {header : RecordHeader} {walk : Walk} {code : Int}
    (rejected : walkFields alloc img imageBytes i header off walk = .rejected code) :
    code < 0 := by
  rw [walkFields] at rejected
  by_cases named : imageBytes < u32 (off + header.nameLen.toNat) ∨ 64 ≤ header.nameLen.toNat
  · rw [if_pos named] at rejected
    cases rejected; decide
  rw [if_neg named] at rejected
  cases node : walkNode alloc i header walk with
  | rejected code' =>
      rw [node] at rejected
      cases rejected
      exact walkNode_rejected node
  | wild =>
      rw [node] at rejected
      cases rejected
  | next created =>
      rw [node, Verdict.bind_next] at rejected
      cases payload : payloadEnd (alloc (3 + 2 * i)) img imageBytes header
          (off + header.nameLen.toNat) with
      | rejected code' =>
          rw [payload] at rejected
          cases rejected
          exact payloadEnd_rejected payload
      | wild =>
          rw [payload] at rejected
          cases rejected
      | next off' =>
          rw [payload] at rejected
          cases rejected

theorem walkRecord_rejected {alloc : Nat → Bool} {img : List UInt8} {imageBytes i : Nat}
    {walk : Walk} {code : Int}
    (rejected : walkRecord alloc img imageBytes i walk = .rejected code) : code < 0 := by
  rw [walkRecord] at rejected
  by_cases short : imageBytes < u32 (walk.off + 32)
  · rw [if_pos short] at rejected
    cases rejected; decide
  · rw [if_neg short] at rejected
    exact walkFields_rejected rejected

theorem walkRecords_rejected {alloc : Nat → Bool} {img : List UInt8}
    {imageBytes remaining i : Nat} {walk : Walk} {code : Int}
    (rejected : walkRecords alloc img imageBytes remaining i walk = .rejected code) :
    code < 0 := by
  induction remaining generalizing i walk with
  | zero => cases rejected
  | succ remaining known =>
      rw [walkRecords] at rejected
      split at rejected
      · rename_i record
        cases rejected
        exact walkRecord_rejected record
      · cases rejected
      · exact known rejected

/-- The rebuilding starts with the walk's initial variables. -/
theorem wipeChildren_follows {fs : Fs} {root : Nat} (rooted : fs.Rooted root) :
    Follows root fs.next ⟨16, [], []⟩ ⟨16, wipeChildren fs.next fs root, []⟩ := by
  obtain ⟨wiped, next, cleared⟩ := wipeChildren_rooted rooted
  obtain ⟨node, found⟩ := rooted.live
  rw [found, Option.map_some] at cleared
  refine ⟨rfl, rfl, by simp, ⟨next, by simp, fun slot bound => ?_, fun child member => ?_⟩⟩
  · rw [Nat.le_zero.mp bound]
    exact ⟨node.clear, cleared, rfl⟩
  · rw [Fs.childrenOf_eq cleared] at member
    cases member

/-- For a tree with at least one node below its root: a failed `diskfs_load` returns the tree it
was given exactly when the image, if one was read at all, passes the checks made after the old
tree is discarded and lies in its buffers. -/
theorem diskfsLoad_failure_keeps_tree_iff (faults : Faults) (alloc : Nat → Bool)
    (clock : Nat → UInt32) (fs : Fs) (disk : Disk) (root : Nat) (rooted : fs.Rooted root)
    (below : ∃ child ∈ fs.childrenOf root, child < fs.next) :
    (diskfsLoad faults alloc clock fs disk).KeepsTree fs ↔
      ∀ image, readImage faults alloc disk = .ok image → image.Accepted alloc := by
  unfold diskfsLoad
  have older : root < fs.next := by
    obtain ⟨node, found⟩ := rooted.live
    exact rooted.bounded.lt found
  cases read : readImage faults alloc disk with
  | error code =>
      constructor
      · intro _ image found
        cases found
      · intro _ _
        rfl
  | ok image =>
      have walk := loadRecords_follows alloc clock image.img image.imageBytes image.nodeCount
        older (wipeChildren_follows rooted)
      simp only [rebuild, rooted.isRoot]
      rw [List.length_nil] at walk
      cases verdict : walkRecords alloc image.img image.imageBytes image.nodeCount 0
          ⟨16, [], []⟩ with
      | rejected code =>
          rw [verdict] at walk
          obtain ⟨fs', loaded, discarded⟩ := walk
          rw [loaded]
          constructor
          · intro keeps
            have same := keeps (walkRecords_rejected verdict)
            obtain ⟨child, member, known⟩ := below
            have new := discarded child (by rw [same]; exact member)
            omega
          · intro accepted
            obtain ⟨last, passed⟩ := accepted image rfl
            rw [verdict] at passed
            cases passed
      | wild =>
          rw [verdict] at walk
          rw [walk]
          constructor
          · intro keeps
            exact keeps.elim
          · intro accepted
            obtain ⟨last, passed⟩ := accepted image rfl
            rw [verdict] at passed
            cases passed
      | next last =>
          rw [verdict] at walk
          obtain ⟨final, finished⟩ := walk
          rw [finished]
          constructor
          · intro _ image' found
            cases found
            exact ⟨last, verdict⟩
          · intro _ negative
            exact absurd negative (by decide)

/-! ## An image whose only record is missing -/

def truncatedImage : List UInt8 := le32 diskfsMagic ++ le32 diskfsVersion ++ le32 1 ++ le32 16

/-- The load of that image fails and leaves an empty root. -/
theorem diskfsLoad_truncated_loses_tree :
    ∃ fs', diskfsLoad .none (fun _ => true) (fun _ => 0) sampleTree (sampleDisk truncatedImage) =
        .ret (-7) fs' ∧ sampleTree.childrenOf 0 = [1] ∧ fs'.childrenOf 0 = [] := by
  have run : (match diskfsLoad .none (fun _ => true) (fun _ => 0) sampleTree
      (sampleDisk truncatedImage) with
    | .ret code fs' => decide (code = -7 ∧ fs'.childrenOf 0 = [])
    | .wild => false) = true := by decide +kernel
  cases loaded : diskfsLoad .none (fun _ => true) (fun _ => 0) sampleTree
      (sampleDisk truncatedImage) with
  | wild =>
      rw [loaded] at run
      cases run
  | ret code fs' =>
      rw [loaded, decide_eq_true_eq] at run
      exact ⟨fs', by rw [run.1], rfl, run.2⟩

def lastRefused (site : Nat) : Bool := site != 7

/-- The image of three records is accepted, and rejected if no memory is left for the last file. -/
theorem diskfsLoad_failure_keeps_tree_threeRecords :
    (diskfsLoad .none (fun _ => true) (fun _ => 0) sampleTree (sampleDisk threeRecords)).KeepsTree
        sampleTree ∧
      ¬(diskfsLoad .none lastRefused (fun _ => 0) sampleTree (sampleDisk threeRecords)).KeepsTree
        sampleTree := by
  have below : ∃ child ∈ sampleTree.childrenOf 0, child < sampleTree.next :=
    ⟨1, by decide, by decide⟩
  have keeps := fun alloc => diskfsLoad_failure_keeps_tree_iff .none alloc (fun _ => 0) sampleTree
    (sampleDisk threeRecords) 0 sampleTree_rooted below
  rw [keeps, keeps]
  constructor
  · intro image read
    have passes : (match readImage .none (fun _ => true) (sampleDisk threeRecords) with
      | .ok image => decide (walkRecords (fun _ => true) image.img image.imageBytes
          image.nodeCount 0 ⟨16, [], []⟩ = .next ⟨120, [0, 1, 2], [0, 1]⟩)
      | .error _ => false) = true := by decide +kernel
    rw [read, decide_eq_true_eq] at passes
    exact ⟨_, passes⟩
  · intro accepted
    have fails : (match readImage .none lastRefused (sampleDisk threeRecords) with
      | .ok image => decide (walkRecords lastRefused image.img image.imageBytes
          image.nodeCount 0 ⟨16, [], []⟩ = .rejected (-9))
      | .error _ => false) = true := by decide +kernel
    cases read : readImage .none lastRefused (sampleDisk threeRecords) with
    | error code =>
        rw [read] at fails
        cases fails
    | ok image =>
        rw [read, decide_eq_true_eq] at fails
        obtain ⟨last, passed⟩ := accepted image read
        rw [fails] at passed
        cases passed

end Trinux
