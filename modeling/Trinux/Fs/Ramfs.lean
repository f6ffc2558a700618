import Trinux.Fs.Blockfs

namespace Trinux

/-!
# Nodes of the file system backing the VFS

`ramfs_create_node` and `ramfs_remove_node` are the only functions that attach
nodes to directories and detach them.  Creating fails when the parent's child
array is full or the heap is exhausted; removing fails on the root and on
non-empty directories, and it returns the blocks of a disk-backed file to the
block allocator.
-/

def sizeofVfsNode : Nat := 1168

def nameField (name : List UInt8) : List UInt8 :=
  name.take (vfsNameMax - 1)

def VfsNode.create (now : UInt32) (parent : Option Nat) (name : List UInt8) (type : UInt32) :
    VfsNode where
  name := nameField name
  type := type
  permissions := if type = vfsDirectory then 0o755 else 0o644
  ownerUid := 0
  ownerGid := 0
  size := 0
  created := now
  modified := now
  ops := .ramfs
  parent := parent
  children := []
  data := none
  blocks := none
  diskBacked := false

def VfsNode.attach (child : Nat) (node : VfsNode) : VfsNode :=
  { node with children := node.children ++ [child] }

def ramfsCreateNode (granted : Bool) (now : UInt32) (fs : Fs) (parent : Nat)
    (name : List UInt8) (type : UInt32) : Option (Nat × Fs) :=
  if vfsMaxChildren ≤ (fs.childrenOf parent).length then none
  else if !kmalloc granted sizeofVfsNode then none
  else some (fs.next, (fs.alloc (VfsNode.create now (some parent) name type)).modify parent
    (VfsNode.attach fs.next))

def ramfsRemoveNode (fs : Fs) (store : Blockfs) (id : Nat) : Int × Fs × Blockfs :=
  match fs.node id with
  | none => (-1, fs, store)
  | some node =>
      match node.parent with
      | none => (-1, fs, store)
      | some parent =>
          if node.type = vfsDirectory ∧ 0 < node.children.length then (-2, fs, store)
          else if id ∉ fs.childrenOf parent then (-1, fs, store)
          else
            let detached := fs.modify parent fun above =>
              { above with children := above.children.erase id }
            let freed :=
              if node.diskBacked then
                (node.blocks.getD []).foldl (fun store block => store.freeBlock block.toNat) store
              else store
            (0, detached.free id, freed)

def ramfsFinddir (fs : Fs) (id : Nat) (name : List UInt8) : Option Nat :=
  match fs.node id with
  | none => none
  | some node =>
      if node.type ≠ vfsDirectory then none
      else node.children.find? fun child => (fs.node child).any fun entry => entry.name == name

def ramfsReaddir (fs : Fs) (id index : Nat) : Option Nat :=
  match fs.node id with
  | none => none
  | some node => if node.type ≠ vfsDirectory then none else node.children[index]?

/-- `vfs_finddir`: nodes of a FAT volume have no such callback, all others have that of ramfs. -/
def vfsFinddir (fs : Fs) (id : Nat) (name : List UInt8) : Option Nat :=
  match (fs.node id).map VfsNode.ops with
  | some .fatFile | some .fatDirectory => none
  | _ => ramfsFinddir fs id name

def VfsNode.detach (child : Nat) (node : VfsNode) : VfsNode :=
  { node with children := node.children.erase child }

def VfsNode.freeBlocks (node : VfsNode) (store : Blockfs) : Blockfs :=
  if node.diskBacked then
    (node.blocks.getD []).foldl (fun store block => store.freeBlock block.toNat) store
  else store

/-- `ramfs_remove_node` fails and changes nothing, or removes a child from its parent. -/
theorem ramfsRemoveNode_cases (fs : Fs) (store : Blockfs) (id : Nat) :
    ((ramfsRemoveNode fs store id).1 < 0 ∧ (ramfsRemoveNode fs store id).2 = (fs, store)) ∨
      ∃ node parent, fs.node id = some node ∧ node.parent = some parent ∧
        ¬(node.type = vfsDirectory ∧ 0 < node.children.length) ∧ id ∈ fs.childrenOf parent ∧
        ramfsRemoveNode fs store id =
          (0, (fs.modify parent (VfsNode.detach id)).free id, node.freeBlocks store) := by
  rw [ramfsRemoveNode]
  cases found : fs.node id with
  | none => exact Or.inl ⟨Int.negSucc_lt_zero _, rfl⟩
  | some node =>
      simp only
      cases above : node.parent with
      | none => exact Or.inl ⟨Int.negSucc_lt_zero _, rfl⟩
      | some parent =>
          simp only
          by_cases full : node.type = vfsDirectory ∧ 0 < node.children.length
          · rw [if_pos full]
            exact Or.inl ⟨Int.negSucc_lt_zero _, rfl⟩
          rw [if_neg full]
          by_cases listed : id ∈ fs.childrenOf parent
          · rw [if_neg (not_not_intro listed)]
            exact Or.inr ⟨node, parent, rfl, above, full, listed, rfl⟩
          · rw [if_pos listed]
            exact Or.inl ⟨Int.negSucc_lt_zero _, rfl⟩

/-! ## What creating a node changes -/

section Create

variable {granted : Bool} {now : UInt32} {fs fs' : Fs} {parent id : Nat} {name : List UInt8}
  {type : UInt32}

/-- Everything `ramfs_create_node` does when it succeeds. -/
theorem ramfsCreateNode_cases (created : ramfsCreateNode granted now fs parent name type =
    some (id, fs')) :
    (fs.childrenOf parent).length < vfsMaxChildren ∧ kmalloc granted sizeofVfsNode = true ∧
      id = fs.next ∧ fs' = (fs.alloc (VfsNode.create now (some parent) name type)).modify parent
        (VfsNode.attach fs.next) := by
  unfold ramfsCreateNode at created
  split at created
  · cases created
  rename_i room
  split at created
  · cases created
  rename_i memory
  cases created
  exact ⟨by omega, by simpa using memory, rfl, rfl⟩

theorem ramfsCreateNode_root (created : ramfsCreateNode granted now fs parent name type =
    some (id, fs')) : fs'.root = fs.root := by
  obtain ⟨-, -, -, rfl⟩ := ramfsCreateNode_cases created
  rfl

theorem ramfsCreateNode_next (created : ramfsCreateNode granted now fs parent name type =
    some (id, fs')) : fs'.next = fs.next + 1 := by
  obtain ⟨-, -, -, rfl⟩ := ramfsCreateNode_cases created
  rfl

theorem ramfsCreateNode_new (older : parent < fs.next)
    (created : ramfsCreateNode granted now fs parent name type = some (id, fs')) :
    fs'.node id = some (VfsNode.create now (some parent) name type) := by
  obtain ⟨-, -, rfl, rfl⟩ := ramfsCreateNode_cases created
  have different : fs.next ≠ parent := by omega
  rw [Fs.modify_node_of_ne _ _ different, Fs.alloc_node_self]

theorem ramfsCreateNode_parent (older : parent < fs.next)
    (created : ramfsCreateNode granted now fs parent name type = some (id, fs')) :
    fs'.node parent = (fs.node parent).map (VfsNode.attach id) := by
  obtain ⟨-, -, rfl, rfl⟩ := ramfsCreateNode_cases created
  have different : parent ≠ fs.next := by omega
  rw [Fs.modify_node_self, Fs.alloc_node_of_ne _ _ different]

theorem ramfsCreateNode_other (created : ramfsCreateNode granted now fs parent name type =
    some (id, fs')) {other : Nat} (notNew : other ≠ id) (notParent : other ≠ parent) :
    fs'.node other = fs.node other := by
  obtain ⟨-, -, rfl, rfl⟩ := ramfsCreateNode_cases created
  rw [Fs.modify_node_of_ne _ _ notParent, Fs.alloc_node_of_ne _ _ notNew]

end Create

end Trinux
