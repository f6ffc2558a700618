import Trinux.Fs.NodePath

namespace Trinux

open Listing Bytes

/-!
# The bytes that a snapshot uses

`measure_node` adds up what `serialize_node` would write for a tree.
-/

/-! ## Measuring -/

def VfsNode.measured (node : VfsNode) : UInt32 :=
  32 + UInt32.ofNat node.name.length +
    (if node.type = vfsFile then
      if node.listsBlocks then 4 + UInt32.ofNat (node.blocks.getD []).length * 4 else node.size
    else 0)

def measureNode (fs : Fs) : (fuel id : Nat) → UInt32
  | 0, _ => 0
  | fuel + 1, id =>
      match fs.node id with
      | none => 0
      | some node =>
          node.children.foldl (fun bytes child => bytes + measureNode fs fuel child) node.measured

/-! ## The nodes of a tree -/

def Fs.nodesBelow (fs : Fs) : (fuel id : Nat) → List Nat
  | 0, _ => []
  | fuel + 1, id => id :: (fs.childrenOf id).flatMap (fs.nodesBelow fuel)

def Fs.treeBelow (fs : Fs) : (fuel id : Nat) → OrderedTree Nat
  | 0, id => .node id []
  | fuel + 1, id => .node id ((fs.childrenOf id).map (fs.treeBelow fuel))

def VfsNode.measuredBytes (node : VfsNode) : Nat :=
  32 + node.name.length +
    (if node.type = vfsFile then
      if node.listsBlocks then 4 + (node.blocks.getD []).length * 4 else node.size.toNat
    else 0)

/-- The bytes of a file that its memory does not hold: all of them if there is none. -/
def VfsNode.lacking (node : VfsNode) : Nat :=
  if node.type = vfsFile ∧ node.listsBlocks = false then
    node.size.toNat - (node.data.getD []).length
  else 0

def VfsNode.stray (node : VfsNode) : Nat :=
  if node.type ≠ vfsFile ∧ node.listsBlocks = true then 4 + (node.blocks.getD []).length * 4 else 0

def Fs.count (fs : Fs) (bytes : VfsNode → Nat) (id : Nat) : Nat :=
  match fs.node id with
  | none => 0
  | some node => bytes node

/-- The bytes that files lack and the records of the nodes beyond the limit are as many as the
block lists of nodes that are no files, in 32 bits. -/
def Fs.Balanced (fs : Fs) (nodes : List Nat) : Prop :=
  (((nodes.take diskfsMaxNodes).map (fs.count VfsNode.lacking)).sum +
      ((nodes.drop diskfsMaxNodes).map (fs.count VfsNode.measuredBytes)).sum) % 2 ^ 32 =
    ((nodes.take diskfsMaxNodes).map (fs.count VfsNode.stray)).sum % 2 ^ 32

instance (fs : Fs) (nodes : List Nat) : Decidable (fs.Balanced nodes) :=
  inferInstanceAs (Decidable (_ = _))

section Sums

variable {fs : Fs}

theorem VfsNode.measured_eq (node : VfsNode) : node.measured = UInt32.ofNat node.measuredBytes := by
  unfold VfsNode.measured VfsNode.measuredBytes
  split_ifs
  · rw [UInt32.ofNat_add, UInt32.ofNat_add, UInt32.ofNat_add, UInt32.ofNat_mul]
    rfl
  · rw [UInt32.ofNat_add, UInt32.ofNat_add, UInt32.ofNat_toNat]
    rfl
  · rw [UInt32.ofNat_add, UInt32.ofNat_add]
    rfl

theorem foldl_ofNat (nodes : List Nat) (each : Nat → UInt32) (bytes : Nat → Nat) (start : Nat)
    (same : ∀ id ∈ nodes, each id = UInt32.ofNat (bytes id)) :
    nodes.foldl (fun sum id => sum + each id) (UInt32.ofNat start) =
      UInt32.ofNat (start + (nodes.map bytes).sum) := by
  induction nodes generalizing start with
  | nil => rfl
  | cons id rest known =>
      rw [List.foldl_cons, same id List.mem_cons_self, ← UInt32.ofNat_add,
        known _ fun other there => same other (List.mem_cons_of_mem _ there), List.map_cons,
        List.sum_cons, Nat.add_assoc]

theorem measureNode_eq (fuel id : Nat) : measureNode fs fuel id =
    UInt32.ofNat (((fs.nodesBelow fuel id).map (fs.count VfsNode.measuredBytes)).sum) := by
  induction fuel generalizing id with
  | zero => rfl
  | succ fuel known =>
      rw [measureNode, Fs.nodesBelow, List.map_cons, List.sum_cons, Fs.count]
      cases found : fs.node id with
      | none =>
          rw [Fs.childrenOf, found]
          rfl
      | some node =>
          dsimp only
          rw [Fs.childrenOf_eq found, VfsNode.measured_eq,
            foldl_ofNat _ _ _ _ fun child _ => known child, List.map_flatMap,
            List.flatMap_def, List.sum_flatten, List.map_map]
          rfl

end Sums

/-! ## The tree below the root -/

section Tree

open Listing.OrderedTree

variable {fs : Fs}

theorem forestPresents_map {α : Type} (children : α → List α) (build : α → OrderedTree α)
    (labels : List α) (each : ∀ label ∈ labels, (build label).Presents children) :
    ForestPresents children (labels.map build) := by
  induction labels with
  | nil => exact trivial
  | cons label rest known =>
      refine ⟨each label List.mem_cons_self, known fun other there => ?_⟩
      exact each other (List.mem_cons_of_mem _ there)

theorem treeBelow_root (fuel id : Nat) : (fs.treeBelow fuel id).root = id := by
  cases fuel with
  | zero => rfl
  | succ fuel => rfl

/-- The tree is that of the child pointers: children are made after their parents. -/
theorem treeBelow_presents (linked : fs.Linked) (fuel id : Nat) (enough : fs.next ≤ fuel + id) :
    (fs.treeBelow fuel id).Presents fs.childrenOf := by
  induction fuel generalizing id with
  | zero =>
      refine ⟨?_, trivial⟩
      exact Fs.childrenOf_of_bounded linked.bounded (by omega)
  | succ fuel known =>
      refine ⟨?_, forestPresents_map _ _ _ fun child listed => ?_⟩
      · rw [List.map_map]
        exact ((List.map_congr_left fun child _ => treeBelow_root fuel child).trans
          (List.map_id _)).symm
      · have later := (linked.listed id child listed).1
        exact known child (by omega)

/-- The listing has the nodes in the order of `serialize_node`. -/
theorem treeBelow_listing (linked : fs.Linked) (fuel id : Nat) (enough : fs.next ≤ fuel + id)
    (live : id < fs.next) (parent : Int) (start : Nat) :
    ((fs.treeBelow fuel id).listing parent start).map Prod.snd = fs.nodesBelow fuel id := by
  induction fuel generalizing id parent start with
  | zero => omega
  | succ fuel known =>
      have forest (children : List Nat) (place : Int) (start : Nat)
          (each : ∀ child ∈ children, fs.next ≤ fuel + child ∧ child < fs.next) :
          (forestListing place start (children.map (fs.treeBelow fuel))).map Prod.snd =
            children.flatMap (fs.nodesBelow fuel) := by
        induction children generalizing start with
        | nil => rfl
        | cons child rest rest_known =>
            rw [List.map_cons, forestListing, List.map_append, List.flatMap_cons,
              known child (each child List.mem_cons_self).1 (each child List.mem_cons_self).2,
              rest_known _ fun other there => each other (List.mem_cons_of_mem _ there)]
      rw [Fs.treeBelow, listing, List.map_cons, Fs.nodesBelow]
      rw [forest _ _ _ fun child listed => ?_]
      have below := linked.listed id child listed
      rcases below.2 with ⟨node, found, -⟩
      exact ⟨by omega, linked.bounded.lt found⟩

theorem nodesBelow_live (linked : fs.Linked) (fuel : Nat) {id : Nat} {node : VfsNode}
    (found : fs.node id = some node) :
    ∀ other ∈ fs.nodesBelow fuel id, ∃ node, fs.node other = some node := by
  induction fuel generalizing id node with
  | zero =>
      intro other there
      cases there
  | succ fuel known =>
      intro other there
      rcases List.mem_cons.mp there with rfl | below
      · exact ⟨node, found⟩
      · rcases List.mem_flatMap.mp below with ⟨child, listed, there'⟩
        rcases (linked.listed id child listed).2 with ⟨node', found', -⟩
        exact known found' other there'

end Tree

/-! ## What is written -/

section Written

variable {fs : Fs}

/-- What a record lacks of what was counted, and what it has beyond it. -/
theorem recordPuts_length (node : VfsNode) (parentIdx : Int) :
    (node.recordPuts parentIdx).flatten.length + node.lacking =
      node.measuredBytes + node.stray := by
  have words (blocks : List UInt32) : (blocks.map le32).flatten.length = blocks.length * 4 := by
    induction blocks with
    | nil => rfl
    | cons block rest known =>
        rw [List.map_cons, List.flatten_cons, List.length_append, known, le32_length,
          List.length_cons]
        omega
  have header : (node.recordPuts parentIdx).flatten.length =
      32 + node.name.length + node.payloadPuts.flatten.length := by
    unfold VfsNode.recordPuts
    simp only [List.flatten_append, List.flatten_cons, List.flatten_nil, List.length_append,
      le32_length, List.length_nil]
    omega
  rw [header]
  unfold VfsNode.payloadPuts VfsNode.lacking VfsNode.measuredBytes VfsNode.stray VfsNode.dataSize
  cases lists : node.listsBlocks with
  | true =>
      rw [if_pos rfl, List.flatten_cons, List.length_append, words, le32_length]
      by_cases isFile : node.type = vfsFile
      · simp [isFile]
      · simp [isFile]
  | false =>
      by_cases isFile : node.type = vfsFile
      · by_cases empty : node.size = 0
        · simp [isFile, empty]
        · cases node.data with
          | none => simp [isFile, empty]
          | some bytes =>
              simp [isFile, empty]
              omega
      · simp [isFile]

theorem entryPuts_length (entries : List (Int × Nat)) :
    (entries.flatMap fs.entryPuts).flatten.length +
        ((entries.map Prod.snd).map (fs.count VfsNode.lacking)).sum =
      ((entries.map Prod.snd).map (fs.count VfsNode.measuredBytes)).sum +
        ((entries.map Prod.snd).map (fs.count VfsNode.stray)).sum := by
  induction entries with
  | nil => rfl
  | cons entry rest known =>
      have one : (fs.entryPuts entry).flatten.length + fs.count VfsNode.lacking entry.2 =
          fs.count VfsNode.measuredBytes entry.2 + fs.count VfsNode.stray entry.2 := by
        unfold Fs.entryPuts Fs.count
        cases fs.node entry.2 with
        | none => rfl
        | some node => exact recordPuts_length node entry.1
      rw [List.flatMap_cons, List.flatten_append, List.length_append]
      simp only [List.map_cons, List.sum_cons]
      omega

/-- The walk appends the superblock and the records of the nodes below the limit. -/
theorem serializeTree_puts (linked : fs.Linked) {root : Nat} (isRoot : fs.root = some root)
    (alloc : Nat → Bool) : ∃ entries : List (Int × Nat),
      entries.map Prod.snd = (fs.nodesBelow fs.next root).take diskfsMaxNodes ∧
      (serializeTree alloc fs root).1 =
        (superblockPuts ++ entries.flatMap fs.entryPuts).foldl (bufPut alloc) ⟨[], 0, false⟩ := by
  rcases linked.rooted with ⟨top, node, isTop, found, -⟩
  rw [← Option.some.inj (isRoot.symm.trans isTop)] at found
  have labels := treeBelow_listing linked fs.next root (by omega) (linked.bounded.lt found) (-1) 0
  have walked := serializeNode_eq alloc fs (fs.treeBelow fs.next root) diskfsMaxNodes (-1) 0
    (superblockPuts.foldl (bufPut alloc) ⟨[], 0, false⟩, [])
    (treeBelow_presents linked fs.next root (by omega)) (fun entry there => by
      apply nodesBelow_live linked fs.next found
      rw [← labels]
      exact List.mem_map_of_mem there) rfl (by decide) (by omega)
  rw [treeBelow_root] at walked
  refine ⟨savedEntries (fs.treeBelow fs.next root), ?_, ?_⟩
  · rw [savedEntries, List.map_take, labels]
  · rw [serializeTree, walked, List.foldl_append]
    rfl

theorem superblockPuts_length : superblockPuts.flatten.length = 16 := rfl

/-- The length of the buffer, if there was memory for it. -/
theorem serializeTree_length (linked : fs.Linked) {root : Nat} (isRoot : fs.root = some root)
    {alloc : Nat → Bool} (alive : (serializeTree alloc fs root).1.oom = false) :
    (serializeTree alloc fs root).1.bytes.length < 2 ^ 32 ∧
      (serializeTree alloc fs root).1.bytes.length +
          (((fs.nodesBelow fs.next root).take diskfsMaxNodes).map
            (fs.count VfsNode.lacking)).sum =
        16 + (((fs.nodesBelow fs.next root).take diskfsMaxNodes).map
            (fs.count VfsNode.measuredBytes)).sum +
          (((fs.nodesBelow fs.next root).take diskfsMaxNodes).map
            (fs.count VfsNode.stray)).sum := by
  rcases serializeTree_puts linked isRoot alloc with ⟨entries, labels, puts⟩
  rw [puts] at alive ⊢
  have start : (⟨[], 0, false⟩ : Buffer).Fits := ⟨Nat.le_refl _, rfl, by decide⟩
  rcases bufPuts_spec alloc _ ⟨[], 0, false⟩ (fun _ => start) alive with ⟨-, fits, bytes⟩
  have room := fits.room
  have heap := fits.heap
  have sums := @entryPuts_length fs entries
  have header := superblockPuts_length
  rw [labels] at sums
  refine ⟨by simp only [heapPayload] at heap; omega, ?_⟩
  rw [bytes, List.nil_append, List.flatten_append, List.length_append]
  omega

theorem bufPuts_alive {alloc : Nat → Bool} (granted : alloc 4096 = true)
    (puts : List (List UInt8)) (buffer : Buffer) (alive : buffer.oom = false)
    (page : buffer.cap = 0 ∨ buffer.cap = 4096)
    (small : buffer.bytes.length + puts.flatten.length ≤ 4096) :
    (puts.foldl (bufPut alloc) buffer).oom = false := by
  induction puts generalizing buffer with
  | nil => exact alive
  | cons bytes rest known =>
      rw [List.flatten_cons, List.length_append] at small
      have grown : growCap 32 4096 (buffer.bytes.length + bytes.length) = 4096 := by
        rw [growCap, if_neg (by omega)]
      have page' : (bufEnsure alloc bytes.length buffer).oom = false ∧
          ((bufEnsure alloc bytes.length buffer).cap = 0 ∨
            (bufEnsure alloc bytes.length buffer).cap = 4096) := by
        unfold bufEnsure
        rw [if_neg (by rw [alive]; exact Bool.false_ne_true)]
        by_cases room : buffer.bytes.length + bytes.length ≤ buffer.cap
        · rw [if_pos room]
          exact ⟨alive, page⟩
        · have empty : buffer.cap = 0 := by omega
          have memory : kmalloc true 4096 = true := by decide
          rw [if_neg room]
          dsimp only
          rw [if_pos empty, grown, granted, if_pos memory]
          exact ⟨alive, Or.inr rfl⟩
      rw [List.foldl_cons]
      have put : bufPut alloc buffer bytes = { bufEnsure alloc bytes.length buffer with
          bytes := buffer.bytes ++ bytes } := by
        unfold bufPut
        dsimp only
        rw [if_neg (by rw [page'.1]; exact Bool.false_ne_true), bufEnsure_bytes]
      rw [put]
      apply known
      · exact page'.1
      · exact page'.2
      · rw [List.length_append]
        omega

theorem serializeTree_alive (linked : fs.Linked) {root : Nat} (isRoot : fs.root = some root)
    {alloc : Nat → Bool} (granted : alloc 4096 = true)
    (small : (((fs.nodesBelow fs.next root).take diskfsMaxNodes).map
        (fs.count VfsNode.measuredBytes)).sum +
      (((fs.nodesBelow fs.next root).take diskfsMaxNodes).map (fs.count VfsNode.stray)).sum ≤
        4080) : (serializeTree alloc fs root).1.oom = false := by
  rcases serializeTree_puts linked isRoot alloc with ⟨entries, labels, puts⟩
  have sums := @entryPuts_length fs entries
  have header := superblockPuts_length
  rw [labels] at sums
  rw [puts]
  apply bufPuts_alive granted _ _ rfl (Or.inl rfl)
  rw [List.flatten_append, List.length_append]
  change 0 + _ ≤ 4096
  omega

theorem linked_measures_iff (linked : fs.Linked) {root : Nat} (isRoot : fs.root = some root)
    {alloc : Nat → Bool} (alive : (serializeTree alloc fs root).1.oom = false) :
    (16 + measureNode fs fs.next root).toNat = (serializeTree alloc fs root).1.bytes.length ↔
      fs.Balanced (fs.nodesBelow fs.next root) := by
  rcases serializeTree_length linked isRoot alive with ⟨small, lengths⟩
  have all := congrArg (fun nodes => (nodes.map (fs.count VfsNode.measuredBytes)).sum)
    (List.take_append_drop diskfsMaxNodes (fs.nodesBelow fs.next root))
  rw [List.map_append, List.sum_append] at all
  unfold Fs.Balanced
  rw [measureNode_eq, UInt32.toNat_add, UInt32.toNat_ofNat', ← all]
  have sixteen : (16 : UInt32).toNat = 16 := rfl
  rw [sixteen]
  omega

end Written

/-- What is measured is what is written exactly if the tree is balanced. -/
theorem measureNode_iff {storage : Storage} (reached : Reachable storage) {root : Nat}
    (isRoot : storage.fs.root = some root) {alloc : Nat → Bool}
    (alive : (serializeTree alloc storage.fs root).1.oom = false) :
    (16 + measureNode storage.fs storage.fs.next root).toNat =
        (serializeTree alloc storage.fs root).1.bytes.length ↔
      storage.fs.Balanced (storage.fs.nodesBelow storage.fs.next root) :=
  linked_measures_iff reached.linked isRoot alive

def Fs.Small (fs : Fs) : Prop :=
  fs.root = some 0 ∧ (((fs.nodesBelow fs.next 0).take diskfsMaxNodes).map
        (fs.count VfsNode.measuredBytes)).sum +
      (((fs.nodesBelow fs.next 0).take diskfsMaxNodes).map (fs.count VfsNode.stray)).sum ≤ 4080

instance (fs : Fs) : Decidable fs.Small := inferInstanceAs (Decidable (_ ∧ _))

theorem rootRun_small :
    ((rootRun []).map fun storage => decide storage.fs.Small) = some true := by
  rw [rootRun, boot_ideal]
  decide +kernel

theorem measureNode_iff_boot : ∃ storage, rootRun [] = some storage ∧
    ((16 + measureNode storage.fs storage.fs.next 0).toNat =
        (serializeTree (fun _ => true) storage.fs 0).1.bytes.length ↔
      storage.fs.Balanced (storage.fs.nodesBelow storage.fs.next 0)) := by
  rcases Option.map_eq_some_iff.mp rootRun_small with ⟨storage, ran, shown⟩
  rcases of_decide_eq_true shown with ⟨isRoot, small⟩
  have reached := rootRun_reachable ran
  exact ⟨storage, ran, measureNode_iff reached isRoot
    (serializeTree_alive reached.linked isRoot rfl small)⟩

/-- A medium of two sectors with a FAT volume: its root directory has a file of five bytes. -/
def fatDisk : Disk where
  present := true
  total := 2
  bytes := fun i => match i with
    | 12 => 2
    | 13 => 1
    | 14 => 1
    | 17 => 16
    | 512 => 65
    | 523 => 0x20
    | 540 => 5
    | i => if 513 ≤ i ∧ i < 523 then 32 else 0

theorem fatDisk_unbalanced : ((boot .ideal fatDisk).map fun storage =>
    (decide storage.fs.Small,
      decide (storage.fs.Balanced (storage.fs.nodesBelow storage.fs.next 0)))) =
      some (true, false) := by
  rw [boot_ideal]
  decide +kernel

/-- The file of a FAT volume is counted, and its bytes are not written. -/
theorem measureNode_fatFile : ¬∀ (storage : Storage) (root : Nat) (alloc : Nat → Bool),
    Reachable storage → storage.fs.root = some root →
      (serializeTree alloc storage.fs root).1.oom = false →
        (16 + measureNode storage.fs storage.fs.next root).toNat =
          (serializeTree alloc storage.fs root).1.bytes.length := by
  intro promise
  rcases Option.map_eq_some_iff.mp fatDisk_unbalanced with ⟨storage, booted, shown⟩
  rcases Prod.mk.inj shown with ⟨fits, differs⟩
  rcases of_decide_eq_true fits with ⟨isRoot, small⟩
  have reached : Reachable storage := .boot trivial booted
  have alive := @serializeTree_alive storage.fs reached.linked 0 isRoot (fun _ => true) rfl small
  have promised := promise storage 0 (fun _ => true) reached isRoot alive
  exact of_decide_eq_false differs
    ((linked_measures_iff reached.linked isRoot alive).mp promised)

end Trinux
