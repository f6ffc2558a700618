import Trinux.Fs.Diskfs

namespace Trinux

open Bytes

/-!
# What one step of the loader does

The loader first empties the tree below the root.  The root object itself
survives, because no node lists it as a child, and it keeps all its fields but
the child list.  Each record then consumes bytes of the image and changes the
heap; which bytes it consumes, and whether it fails, does not depend on the heap
except through the number of children its parent already has.
-/

/-! ## Emptying the tree -/

/-- A root object that no node lists as its child, in a heap without stray numbers. -/
structure Fs.Rooted (fs : Fs) (root : Nat) : Prop where
  isRoot : fs.root = some root
  live : ∃ node, fs.node root = some node
  top : ∀ id, root ∉ fs.childrenOf id
  bounded : fs.Bounded

def VfsNode.clear (node : VfsNode) : VfsNode := { node with children := [] }

theorem Fs.childrenOf_modify_clear (fs : Fs) (id : Nat) :
    (fs.modify id VfsNode.clear).childrenOf id = [] := by
  rw [childrenOf, modify_node_self]
  cases fs.node id <;> rfl

structure WipeKeeps (root : Nat) (fs fs' : Fs) : Prop where
  isRoot : fs'.root = fs.root
  next : fs'.next = fs.next
  bounded : fs.Bounded → fs'.Bounded
  top : (∀ id, root ∉ fs.childrenOf id) → ∀ id, root ∉ fs'.childrenOf id

theorem WipeKeeps.refl (root : Nat) (fs : Fs) : WipeKeeps root fs fs :=
  ⟨rfl, rfl, id, id⟩

theorem WipeKeeps.trans {root : Nat} {first second third : Fs}
    (before : WipeKeeps root first second) (after : WipeKeeps root second third) :
    WipeKeeps root first third :=
  ⟨after.isRoot.trans before.isRoot, after.next.trans before.next,
    after.bounded ∘ before.bounded, after.top ∘ before.top⟩

theorem WipeKeeps.free (root : Nat) (fs : Fs) (id : Nat) : WipeKeeps root fs (fs.free id) := by
  refine ⟨rfl, rfl, fun bounded => bounded.free id, fun top other => ?_⟩
  by_cases same : other = id
  · rw [same, Fs.childrenOf, Fs.free_node_self]
    exact List.not_mem_nil
  · rw [Fs.childrenOf_congr (Fs.free_node_of_ne fs same)]
    exact top other

theorem WipeKeeps.clear (root : Nat) (fs : Fs) (id : Nat) :
    WipeKeeps root fs (fs.modify id VfsNode.clear) := by
  refine ⟨rfl, rfl, fun bounded => bounded.modify id _, fun top other => ?_⟩
  by_cases same : other = id
  · rw [same, Fs.childrenOf_modify_clear]
    exact List.not_mem_nil
  · rw [Fs.childrenOf_congr (Fs.modify_node_of_ne fs _ same)]
    exact top other

/-- Wiping below any node keeps an object that no node lists, but for its own child list. -/
theorem wipeChildren_spec (root : Nat) (fuel : Nat) (fs : Fs) (id : Nat)
    (top : ∀ other, root ∉ fs.childrenOf other) :
    WipeKeeps root fs (wipeChildren fuel fs id) ∧
      (id ≠ root → (wipeChildren fuel fs id).node root = fs.node root) ∧
      (id = root → 0 < fuel →
        (wipeChildren fuel fs id).node root = (fs.node root).map VfsNode.clear) := by
  induction fuel generalizing fs id with
  | zero => exact ⟨WipeKeeps.refl root fs, fun _ => rfl, fun _ positive => by omega⟩
  | succ fuel known =>
      have loop : ∀ (children : List Nat) (fs : Fs), root ∉ children →
          (∀ other, root ∉ fs.childrenOf other) →
          WipeKeeps root fs
            (children.foldl (fun fs child => (wipeChildren fuel fs child).free child) fs) ∧
          (children.foldl (fun fs child => (wipeChildren fuel fs child).free child) fs).node root =
            fs.node root := by
        intro children
        induction children with
        | nil => exact fun fs _ _ => ⟨WipeKeeps.refl root fs, rfl⟩
        | cons child rest inner =>
            intro fs absent top
            simp only [List.mem_cons, not_or] at absent
            obtain ⟨keeps, other, -⟩ := known fs child top
            have freed := keeps.trans (WipeKeeps.free root _ child)
            obtain ⟨later, same⟩ := inner _ absent.2 (freed.top top)
            rw [List.foldl_cons]
            refine ⟨freed.trans later, ?_⟩
            rw [same, Fs.free_node_of_ne _ absent.1, other (Ne.symm absent.1)]
      obtain ⟨keeps, same⟩ := loop (fs.childrenOf id) fs (top id) top
      have cleared := WipeKeeps.clear root
        ((fs.childrenOf id).foldl (fun fs child => (wipeChildren fuel fs child).free child) fs) id
      refine ⟨keeps.trans cleared, fun different => ?_, fun here _ => ?_⟩
      · rw [wipeChildren, Fs.modify_node_of_ne _ _ (Ne.symm different), same]
      · subst here
        rw [wipeChildren, Fs.modify_node_self, same]
        rfl

/-- The heap the loader starts to rebuild in: the root without its children. -/
theorem wipeChildren_rooted {fs : Fs} {root : Nat} (rooted : fs.Rooted root) :
    (wipeChildren fs.next fs root).Rooted root ∧
      (wipeChildren fs.next fs root).next = fs.next ∧
      (wipeChildren fs.next fs root).node root = (fs.node root).map VfsNode.clear := by
  obtain ⟨node, found⟩ := rooted.live
  have positive : 0 < fs.next := Nat.zero_lt_of_lt (rooted.bounded.lt found)
  obtain ⟨keeps, -, cleared⟩ := wipeChildren_spec root fs.next fs root rooted.top
  refine ⟨⟨keeps.isRoot.trans rooted.isRoot, ⟨node.clear, ?_⟩, keeps.top rooted.top,
    keeps.bounded rooted.bounded⟩, keeps.next, cleared rfl positive⟩
  rw [cleared rfl positive, found, Option.map_some]

/-! ## The numbers of rebuilt nodes -/

/-- The object in a slot: the root, or one of the nodes numbered from `base` on. -/
def slotId (root base slot : Nat) : Nat := if slot = 0 then root else base + (slot - 1)

theorem slotId_succ (root base slot : Nat) : slotId root base (slot + 1) = base + slot := by
  rw [slotId, if_neg (Nat.succ_ne_zero slot), Nat.add_sub_cancel]

theorem slotId_injective {root base : Nat} (older : root < base) {first second : Nat}
    (same : slotId root base first = slotId root base second) : first = second := by
  unfold slotId at same
  split at same <;> split at same <;> omega

/-! ## The bytes a record consumes -/

inductive Verdict (α : Type) where
  | next (state : α)
  | rejected (code : Int)
  | wild
  deriving DecidableEq, Repr

def Verdict.bind {α β : Type} (verdict : Verdict α) (rest : α → Verdict β) : Verdict β :=
  match verdict with
  | .next state => rest state
  | .rejected code => .rejected code
  | .wild => .wild

@[simp] theorem Verdict.bind_next {α β : Type} (state : α) (rest : α → Verdict β) :
    (Verdict.next state).bind rest = rest state := rfl

@[simp] theorem Verdict.bind_rejected {α β : Type} (code : Int) (rest : α → Verdict β) :
    (Verdict.rejected code).bind rest = .rejected code := rfl

def payloadEnd (granted : Bool) (img : List UInt8) (imageBytes : Nat) (header : RecordHeader)
    (off : Nat) : Verdict Nat :=
  if header.flags &&& 1 ≠ 0 then
    if imageBytes < u32 (off + 4) then .rejected (-7)
    else
      let count := (readU32 img off).toNat
      if imageBytes < u32 (off + 4 + u32 (count * 4)) then .rejected (-7)
      else if count ≠ 0 ∧ !kmalloc granted (u32 (count * 4)) then .rejected (-9)
      else if imageBytes < off + 4 + count * 4 then .wild
      else .next (off + 4 + count * 4)
  else if header.dataSize ≠ 0 then
    if imageBytes < u32 (off + header.dataSize.toNat) then .rejected (-7)
    else if !kmalloc granted header.dataSize.toNat then .rejected (-9)
    else if imageBytes < off + header.dataSize.toNat then .wild
    else .next (off + header.dataSize.toNat)
  else .next off

def RecordHeader.restore (header : RecordHeader) (img : List UInt8) (off : Nat)
    (node : VfsNode) : VfsNode :=
  if header.flags &&& 1 ≠ 0 then
    let count := (readU32 img off).toNat
    { node with
      blocks := if count ≠ 0 then some (readBlocks img (off + 4) count) else node.blocks
      diskBacked := true
      size := header.dataSize }
  else if header.dataSize ≠ 0 then
    { node with
      data := some (slice img off header.dataSize.toNat)
      size := header.dataSize }
  else node

theorem RecordHeader.apply_children (header : RecordHeader) (node : VfsNode) :
    (header.apply node).children = node.children := rfl

theorem RecordHeader.restore_children (header : RecordHeader) (img : List UInt8) (off : Nat)
    (node : VfsNode) : (header.restore img off node).children = node.children := by
  unfold restore
  split
  · rfl
  split <;> rfl

theorem Fs.modify_id (fs : Fs) (id : Nat) {change : VfsNode → VfsNode}
    (same : ∀ node, change node = node) : fs.modify id change = fs := by
  have nodes : (fs.modify id change).node = fs.node := by
    funext other
    by_cases here : other = id
    · rw [here, modify_node_self, funext same]
      exact Option.map_id'
    · exact modify_node_of_ne fs change here
  exact congrArg (fun node => ({ fs with node := node } : Fs)) nodes

/-- Reading a payload checks the image and restores the node. -/
theorem loadPayload_eq (granted : Bool) (img : List UInt8) (imageBytes : Nat)
    (header : RecordHeader) (id off : Nat) (fs : Fs) :
    loadPayload granted img imageBytes header id off fs =
      match payloadEnd granted img imageBytes header off with
      | .next off' => .next (off', fs.modify id (header.restore img off))
      | .rejected code => .fail code fs
      | .wild => .wild := by
  unfold loadPayload payloadEnd
  by_cases listed : header.flags &&& 1 ≠ 0
  · have restore : header.restore img off = fun node =>
        { node with
          blocks := if (readU32 img off).toNat ≠ 0 then
            some (readBlocks img (off + 4) (readU32 img off).toNat) else node.blocks
          diskBacked := true
          size := header.dataSize } := by
      funext node
      rw [RecordHeader.restore, if_pos listed]
    simp only [if_pos listed, restore]
    split
    · rfl
    split
    · rfl
    split
    · rfl
    split <;> rfl
  · simp only [if_neg listed]
    by_cases sized : header.dataSize ≠ 0
    · have restore : header.restore img off = fun node =>
          { node with
            data := some (slice img off header.dataSize.toNat)
            size := header.dataSize } := by
        funext node
        rw [RecordHeader.restore, if_neg listed, if_pos sized]
      simp only [if_pos sized, restore]
      split
      · rfl
      split
      · rfl
      split <;> rfl
    · have restore : ∀ node, header.restore img off node = node := by
        intro node
        rw [RecordHeader.restore, if_neg listed, if_neg sized]
      simp only [if_neg sized, Fs.modify_id fs id restore]

theorem loadPayload_next {granted : Bool} {img : List UInt8} {imageBytes : Nat}
    {header : RecordHeader} {id off off' : Nat} {fs fs' : Fs}
    (loaded : loadPayload granted img imageBytes header id off fs = .next (off', fs')) :
    fs' = fs.modify id (header.restore img off) := by
  rw [loadPayload_eq] at loaded
  cases payload : payloadEnd granted img imageBytes header off with
  | next last =>
      rw [payload] at loaded
      cases loaded
      rfl
  | rejected code =>
      rw [payload] at loaded
      cases loaded
  | wild =>
      rw [payload] at loaded
      cases loaded

/-! ## The codes of the loading loop -/

theorem payloadEnd_rejected {granted : Bool} {img : List UInt8} {imageBytes off : Nat}
    {header : RecordHeader} {code : Int}
    (rejected : payloadEnd granted img imageBytes header off = .rejected code) : code < 0 := by
  unfold payloadEnd at rejected
  split at rejected
  · simp only at rejected
    split at rejected
    · cases rejected; decide
    split at rejected
    · cases rejected; decide
    split at rejected
    · cases rejected; decide
    split at rejected <;> cases rejected
  · split at rejected
    · split at rejected
      · cases rejected; decide
      split at rejected
      · cases rejected; decide
      split at rejected <;> cases rejected
    · cases rejected

section Steps

variable {alloc : Nat → Bool} {clock : Nat → UInt32} {img name : List UInt8}
  {imageBytes root i : Nat} {header : RecordHeader} {state : LoadState} {code : Int} {fs : Fs}

theorem loadPayload_fail {granted : Bool} {id off : Nat} {fs' : Fs}
    (failed : loadPayload granted img imageBytes header id off fs = .fail code fs') :
    code < 0 ∧ fs' = fs := by
  rw [loadPayload_eq] at failed
  cases payload : payloadEnd granted img imageBytes header off with
  | next last =>
      rw [payload] at failed
      cases failed
  | rejected code' =>
      rw [payload] at failed
      cases failed
      exact ⟨payloadEnd_rejected payload, rfl⟩
  | wild =>
      rw [payload] at failed
      cases failed

theorem loadNode_fail (failed : loadNode alloc clock root i header name state = .fail code fs) :
    code < 0 ∧ fs = state.fs := by
  rw [loadNode] at failed
  split at failed
  · cases failed
  split at failed
  · cases failed
    exact ⟨by decide, rfl⟩
  split at failed
  · cases failed
    exact ⟨by decide, rfl⟩
  · cases failed

/-- The node of a record is the root under its new name, or a new one. -/
theorem loadNode_next {id : Nat}
    (loaded : loadNode alloc clock root i header name state = .next (id, fs)) :
    (header.parentIdx.toNat.testBit 31 = true ∧ id = root ∧ fs = state.fs.modify root fun node =>
        { node with name := nameField (if name = [] then literal "/" else name) }) ∨
      (¬header.parentIdx.toNat.testBit 31 = true ∧
        ramfsCreateNode (alloc (2 + 2 * i)) (clock i) state.fs
          (state.map.getD header.parentIdx.toNat root) name header.type = some (id, fs)) := by
  rw [loadNode] at loaded
  split at loaded
  · rename_i isRoot
    cases loaded
    exact Or.inl ⟨isRoot, rfl, rfl⟩
  rename_i isRoot
  split at loaded
  · cases loaded
  split at loaded
  · cases loaded
  · rename_i created
    cases loaded
    exact Or.inr ⟨isRoot, created⟩

def LoadState.Reads (img : List UInt8) (imageBytes : Nat) (state : LoadState) : Prop :=
  u32 (state.off + 32) ≤ imageBytes ∧
    u32 (state.off + 32 + (readHeader img state.off).nameLen.toNat) ≤ imageBytes ∧
    (readHeader img state.off).nameLen.toNat < 64

theorem loadRecord_reads (alloc : Nat → Bool) (clock : Nat → UInt32) (img : List UInt8)
    (imageBytes root i : Nat) (state : LoadState) :
    let header := readHeader img state.off
    let off := state.off + 32 + header.nameLen.toNat
    (loadRecord alloc clock img imageBytes root i state = .fail (-7) state.fs) ∨
      state.Reads img imageBytes ∧ loadRecord alloc clock img imageBytes root i state =
        (loadNode alloc clock root i header
          (cString (slice img (state.off + 32) header.nameLen.toNat)) state).bind fun opened =>
          (loadPayload (alloc (3 + 2 * i)) img imageBytes header opened.1 off
            (opened.2.modify opened.1 header.apply)).bind fun filled =>
            .next ⟨filled.1, filled.2, state.map ++ [opened.1]⟩ := by
  intro header off
  rw [loadRecord, loadFields]
  split
  · exact Or.inl rfl
  rename_i short
  split
  · exact Or.inl rfl
  · rename_i named
    rw [not_or, not_lt, not_le] at named
    exact Or.inr ⟨⟨not_lt.mp short, named⟩, rfl⟩

theorem loadRecord_next {state' : LoadState}
    (loaded : loadRecord alloc clock img imageBytes root i state = .next state') :
    let header := readHeader img state.off
    let off := state.off + 32 + header.nameLen.toNat
    state.Reads img imageBytes ∧ ∃ id opened last,
      loadNode alloc clock root i header
        (cString (slice img (state.off + 32) header.nameLen.toNat)) state = .next (id, opened) ∧
      state' = ⟨last, (opened.modify id header.apply).modify id (header.restore img off),
        state.map ++ [id]⟩ := by
  intro header off
  rcases loadRecord_reads alloc clock img imageBytes root i state with refused | ⟨reads, same⟩
  · rw [refused] at loaded
    cases loaded
  rw [same] at loaded
  rcases StepOutcome.bind_eq_next loaded with ⟨⟨id, opened⟩, isOpened, rest⟩
  rcases StepOutcome.bind_eq_next rest with ⟨⟨last, filled⟩, isFilled, done⟩
  cases done
  refine ⟨reads, id, opened, last, isOpened, ?_⟩
  rw [loadPayload_next isFilled]

/-- A record that is not loaded ends the load with a negative code. -/
theorem loadRecord_fail (failed : loadRecord alloc clock img imageBytes root i state = .fail code fs) :
    let header := readHeader img state.off
    code < 0 ∧ (fs = state.fs ∨ state.Reads img imageBytes ∧ ∃ id opened,
      loadNode alloc clock root i header
        (cString (slice img (state.off + 32) header.nameLen.toNat)) state = .next (id, opened) ∧
      fs = opened.modify id header.apply) := by
  intro header
  rcases loadRecord_reads alloc clock img imageBytes root i state with refused | ⟨reads, same⟩
  · rw [refused] at failed
    cases failed
    exact ⟨by decide, Or.inl rfl⟩
  rw [same] at failed
  rcases StepOutcome.bind_eq_fail failed with node | ⟨⟨id, opened⟩, isOpened, rest⟩
  · exact (loadNode_fail node).imp_right Or.inl
  rcases StepOutcome.bind_eq_fail rest with payload | ⟨filled, -, done⟩
  · exact (loadPayload_fail payload).imp_right fun kept => Or.inr ⟨reads, id, opened, isOpened, kept⟩
  · cases done

end Steps

/-! ## A small system -/

def sampleTree : Fs :=
  .ofList [{ VfsNode.create 0 none (literal "/") vfsDirectory with children := [1] },
    VfsNode.create 0 (some 0) (literal "bin") vfsDirectory]

/-- A disk of eight sectors that starts with the given bytes at its metadata region. -/
def sampleDisk (image : List UInt8) : Disk where
  present := true
  total := 8
  bytes := overwrite (fun _ => 0) (6 * ataSectorSize) image

/-- An image of the root, a directory in it and a file of three bytes in the directory. -/
def threeRecords : List UInt8 :=
  words [diskfsMagic, diskfsVersion, 3, 120] ++
    words [0xFFFFFFFF, vfsDirectory, 0o755, 0, 0, 0, 1, 0] ++ literal "/" ++
    words [0, vfsDirectory, 0o755, 0, 0, 0, 3, 0] ++ literal "etc" ++
    words [1, vfsFile, 0o644, 0, 0, 3, 1, 0] ++ literal "a" ++ [1, 2, 3]

theorem sampleTree_rooted : sampleTree.Rooted 0 := by
  refine ⟨rfl, ⟨_, rfl⟩, fun id => ?_, Fs.ofList_bounded _⟩
  match id with
  | 0 => decide
  | 1 => decide
  | id + 2 => exact List.not_mem_nil

end Trinux
