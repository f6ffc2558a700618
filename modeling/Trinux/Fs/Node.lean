import Trinux.Lib.Listing

namespace Trinux

open Listing

/-!
# The node heap of the virtual file system

`vfs_node_t` objects live in the kernel heap and refer to each other through
their parent and child pointers.  The model names them by numbers: a heap is a
partial map from numbers to nodes together with the root pointer and the next
unused number.  Numbers are never reused, so a freed object stays recognisable
as freed and two nodes are the same object exactly when their numbers agree.

A node keeps the fields of the source.  Its callback pointers occur only in a
few fixed combinations, which `NodeOps` names.  A buffer pointer and its
capacity are one optional byte list; the block pointer and its count are one
optional list of block indices.
-/

def vfsFile : UInt32 := 0x01

def vfsDirectory : UInt32 := 0x02

def vfsDevice : UInt32 := 0x04

def vfsNameMax : Nat := 64

def vfsMaxChildren : Nat := 256

/-- Which callbacks a node carries: those of `ramfs_create_node`, the pairs that `make_dev`
installs over them, or those that `fat16_read_dir` sets on files and directories. -/
inductive NodeOps where
  | ramfs
  | devZero
  | devNull
  | devRandom
  | devSda
  | fatFile
  | fatDirectory
  deriving DecidableEq, Repr

structure VfsNode where
  name : List UInt8
  type : UInt32
  permissions : UInt32
  ownerUid : UInt32
  ownerGid : UInt32
  size : UInt32
  created : UInt32
  modified : UInt32
  ops : NodeOps
  parent : Option Nat
  children : List Nat
  data : Option (List UInt8)
  blocks : Option (List UInt32)
  diskBacked : Bool
  deriving DecidableEq, Repr

structure Fs where
  node : Nat → Option VfsNode
  root : Option Nat
  next : Nat

/-! ## Kernel allocations -/

def heapPayload : Nat := 32 * 1024 * 1024 - 20

def alignUp (size : Nat) : Nat :=
  (size + 7) % 2 ^ 32 / 8 * 8

/-- Whether `kmalloc` returns memory for a 32-bit size.  What else the heap holds is not
modelled: `granted` says whether a large enough free block exists, which it cannot beyond the
arena. -/
def kmalloc (granted : Bool) (size : Nat) : Bool :=
  granted && decide (size ≠ 0 ∧ size < 2 ^ 32 ∧ alignUp size ≤ heapPayload)

theorem kmalloc_of_fits {size : Nat} (positive : size ≠ 0) (small : size ≤ heapPayload - 8) :
    kmalloc true size = true := by
  rw [kmalloc, Bool.true_and, decide_eq_true_eq]
  simp only [alignUp, heapPayload] at small ⊢
  omega

theorem kmalloc_of_rounded {size : Nat} (positive : size ≠ 0) (small : size ≤ heapPayload)
    (rounded : size % 8 = 0) : kmalloc true size = true := by
  rw [kmalloc, Bool.true_and, decide_eq_true_eq]
  simp only [alignUp, heapPayload] at small ⊢
  omega

theorem kmalloc_positive {granted : Bool} {size : Nat} (allocated : kmalloc granted size = true) :
    0 < size := by
  rw [kmalloc, Bool.and_eq_true, decide_eq_true_eq] at allocated
  omega

/-- Memory is never returned for a rounded size beyond the arena. -/
theorem kmalloc_le {granted : Bool} {size : Nat} (allocated : kmalloc granted size = true)
    (rounded : size % 8 = 0) : size ≤ heapPayload := by
  rw [kmalloc, Bool.and_eq_true, decide_eq_true_eq] at allocated
  simp only [alignUp, heapPayload] at allocated ⊢
  omega

/-! ## Heap updates -/

namespace Fs

/-- The heap of the listed nodes, numbered from zero, with the first as root. -/
def ofList (nodes : List VfsNode) : Fs where
  node := fun id => nodes[id]?
  root := some 0
  next := nodes.length

def childrenOf (fs : Fs) (id : Nat) : List Nat :=
  match fs.node id with
  | some node => node.children
  | none => []

def modify (fs : Fs) (id : Nat) (change : VfsNode → VfsNode) : Fs :=
  { fs with node := fun other => if other = id then (fs.node id).map change else fs.node other }

def alloc (fs : Fs) (node : VfsNode) : Fs :=
  { fs with
    node := fun other => if other = fs.next then some node else fs.node other
    next := fs.next + 1 }

def free (fs : Fs) (id : Nat) : Fs :=
  { fs with node := fun other => if other = id then none else fs.node other }

@[simp] theorem modify_root (fs : Fs) (id : Nat) (change : VfsNode → VfsNode) :
    (fs.modify id change).root = fs.root := rfl

@[simp] theorem modify_next (fs : Fs) (id : Nat) (change : VfsNode → VfsNode) :
    (fs.modify id change).next = fs.next := rfl

@[simp] theorem alloc_next (fs : Fs) (node : VfsNode) : (fs.alloc node).next = fs.next + 1 := rfl

@[simp] theorem modify_node_self (fs : Fs) (id : Nat) (change : VfsNode → VfsNode) :
    (fs.modify id change).node id = (fs.node id).map change := by
  simp [modify]

theorem modify_node_of_ne (fs : Fs) {id other : Nat} (change : VfsNode → VfsNode)
    (different : other ≠ id) : (fs.modify id change).node other = fs.node other := by
  simp [modify, different]

@[simp] theorem alloc_node_self (fs : Fs) (node : VfsNode) :
    (fs.alloc node).node fs.next = some node := by
  simp [alloc]

theorem alloc_node_of_ne (fs : Fs) {other : Nat} (node : VfsNode)
    (different : other ≠ fs.next) : (fs.alloc node).node other = fs.node other := by
  simp [alloc, different]

@[simp] theorem free_node_self (fs : Fs) (id : Nat) : (fs.free id).node id = none := by
  simp [free]

theorem free_node_of_ne (fs : Fs) {id other : Nat} (different : other ≠ id) :
    (fs.free id).node other = fs.node other := by
  simp [free, different]

theorem childrenOf_eq {fs : Fs} {id : Nat} {node : VfsNode} (found : fs.node id = some node) :
    fs.childrenOf id = node.children := by
  rw [childrenOf, found]

/-- The child lists of two heaps agree where their nodes do. -/
theorem childrenOf_congr {first second : Fs} {id : Nat}
    (same : first.node id = second.node id) : first.childrenOf id = second.childrenOf id := by
  rw [childrenOf, childrenOf, same]

def Bounded (fs : Fs) : Prop :=
  ∀ id, fs.next ≤ id → fs.node id = none

theorem Bounded.lt {fs : Fs} (bounded : fs.Bounded) {id : Nat} {node : VfsNode}
    (found : fs.node id = some node) : id < fs.next := by
  by_contra beyond
  rw [bounded id (Nat.le_of_not_lt beyond)] at found
  cases found

theorem ofList_bounded (nodes : List VfsNode) : (ofList nodes).Bounded := fun _ beyond =>
  List.getElem?_eq_none beyond

theorem Bounded.modify {fs : Fs} (bounded : fs.Bounded) (id : Nat)
    (change : VfsNode → VfsNode) : (fs.modify id change).Bounded := by
  intro other beyond
  by_cases same : other = id
  · rw [same, modify_node_self, bounded id (same ▸ beyond), Option.map_none]
  · rw [modify_node_of_ne fs change same, bounded other beyond]

theorem Bounded.alloc {fs : Fs} (bounded : fs.Bounded) (node : VfsNode) :
    (fs.alloc node).Bounded := by
  intro other beyond
  rw [alloc_next] at beyond
  have different : other ≠ fs.next := by omega
  rw [alloc_node_of_ne fs node different, bounded other (by omega)]

theorem Bounded.free {fs : Fs} (bounded : fs.Bounded) (id : Nat) : (fs.free id).Bounded := by
  intro other beyond
  by_cases same : other = id
  · rw [same, free_node_self]
  · rw [free_node_of_ne fs same, bounded other beyond]

end Fs

/-! ## C strings -/

def cString (bytes : List UInt8) : List UInt8 :=
  bytes.takeWhile fun byte => byte ≠ 0

theorem cString_of_nonzero {bytes : List UInt8} (nonzero : (0 : UInt8) ∉ bytes) :
    cString bytes = bytes := by
  rw [cString, List.takeWhile_eq_self_iff]
  intro byte member
  simp only [decide_eq_true_eq, ne_eq]
  rintro rfl
  exact nonzero member

def literal (text : String) : List UInt8 :=
  text.toList.map fun character => UInt8.ofNat character.toNat

/-! ## Trees in the heap -/

/-- What the interface of the file system shows of one file's contents, as they are stored: no
bytes, a list of disk blocks, bytes in memory, or bytes that only the node's driver can reach. -/
inductive Contents where
  | empty
  | onDisk (blocks : List UInt32)
  | inMemory (bytes : List UInt8)
  | elsewhere
  deriving DecidableEq, Repr

def VfsNode.contents (node : VfsNode) : Contents :=
  if node.size = 0 then .empty
  else if node.diskBacked then .onDisk (node.blocks.getD [])
  else
    match node.data with
    | some bytes => .inMemory (bytes.take node.size.toNat)
    | none => .elsewhere

structure NodeView where
  name : List UInt8
  type : UInt32
  permissions : UInt32
  ownerUid : UInt32
  ownerGid : UInt32
  size : UInt32
  contents : Contents
  deriving DecidableEq, Repr

def VfsNode.view (node : VfsNode) : NodeView where
  name := node.name
  type := node.type
  permissions := node.permissions
  ownerUid := node.ownerUid
  ownerGid := node.ownerGid
  size := node.size
  contents := node.contents

/-- What the kernel's operations keep of every node: its name is a string that fits its field,
it has at most the child pointers of its array, and its buffer holds its size. -/
structure VfsNode.WellFormed (node : VfsNode) : Prop where
  nameFits : node.name.length < vfsNameMax
  nameString : (0 : UInt8) ∉ node.name
  childrenFit : node.children.length ≤ vfsMaxChildren
  dataFits : ∀ bytes, node.data = some bytes → node.size.toNat ≤ bytes.length

namespace Fs

def view (fs : Fs) (id : Nat) : Option NodeView :=
  (fs.node id).map VfsNode.view

/-- The objects below the root pointer form this tree, and each is a well-formed node. -/
structure Holds (fs : Fs) (tree : OrderedTree Nat) : Prop where
  root : fs.root = some tree.root
  presents : tree.Presents fs.childrenOf
  live : ∀ entry ∈ tree.listing (-1) 0, ∃ node, fs.node entry.2 = some node ∧ node.WellFormed

/-- The heap holds a tree whose root is the directory that `ramfs_init` creates. -/
structure Mounted (fs : Fs) (tree : OrderedTree Nat) : Prop extends fs.Holds tree where
  rootNode : ∃ node, fs.node tree.root = some node ∧ node.name = literal "/" ∧
    node.type = vfsDirectory

def SameTree (first second : Fs) : Prop :=
  ∃ left right : OrderedTree Nat, first.Holds left ∧ second.Holds right ∧
    left.map first.view = right.map second.view

end Fs

end Trinux
