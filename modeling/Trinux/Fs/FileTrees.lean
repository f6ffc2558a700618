import Trinux.Fs.FileContents
import Trinux.Fs.Creation

namespace Trinux

open Bytes

/-!
# Trees of files

A node and the nodes below it show a tree of names and contents.  The tree stays while other nodes
are created and other files are written, and it can be written below a path if every path in it
can be.
-/

/-! ## Trees of files -/

inductive FileTree where
  | file (bytes : List UInt8)
  | directory (entries : List (List UInt8 × FileTree))

mutual

/-- The node at a number and those below it are a tree of files.  All their numbers are such as
`keep` says, and the nodes of the files as `good` says. -/
inductive Shows (storage : Storage) (keep : Nat → Prop) (good : VfsNode → Prop) :
    Nat → FileTree → Prop where
  | file {id : Nat} {node : VfsNode} {bytes : List UInt8} (kept : keep id)
      (found : storage.fs.node id = some node) (isFile : node.type ≠ vfsDirectory)
      (fine : good node) (holds : node.HoldsBytes storage.store storage.disk bytes) :
      Shows storage keep good id (.file bytes)
  | directory {id : Nat} {node : VfsNode} {entries : List (List UInt8 × FileTree)} (kept : keep id)
      (found : storage.fs.node id = some node) (isDirectory : node.type = vfsDirectory)
      (below : ShowsEach storage keep good node.children entries) :
      Shows storage keep good id (.directory entries)

inductive ShowsEach (storage : Storage) (keep : Nat → Prop) (good : VfsNode → Prop) :
    List Nat → List (List UInt8 × FileTree) → Prop where
  | nil : ShowsEach storage keep good [] []
  | cons {child : Nat} {node : VfsNode} {tree : FileTree} {children : List Nat}
      {entries : List (List UInt8 × FileTree)} (found : storage.fs.node child = some node)
      (shows : Shows storage keep good child tree)
      (rest : ShowsEach storage keep good children entries) :
      ShowsEach storage keep good (child :: children) ((node.name, tree) :: entries)

end

structure WayFits (way : List (List UInt8)) : Prop where
  few : way.length ≤ 64
  short : (pathBuild way).length < pathMax

mutual

/-- A tree can be written below a path: every path fits, no name is too long, no directory has two
entries of one name, and no file is so long that the sums of a write wrap around. -/
inductive Fits : List (List UInt8) → FileTree → Prop where
  | file {way : List (List UInt8)} {bytes : List UInt8} (room : WayFits way)
      (size : bytes.length + (blockSize - 1) < 2 ^ 32) : Fits way (.file bytes)
  | directory {way : List (List UInt8)} {entries : List (List UInt8 × FileTree)}
      (room : WayFits way) (distinct : (entries.map Prod.fst).Nodup)
      (below : FitsEach way entries) : Fits way (.directory entries)

inductive FitsEach : List (List UInt8) → List (List UInt8 × FileTree) → Prop where
  | nil {way : List (List UInt8)} : FitsEach way []
  | cons {way : List (List UInt8)} {name : List UInt8} {tree : FileTree}
      {entries : List (List UInt8 × FileTree)} (plain : PathName name)
      (short : name.length < vfsNameMax) (fits : Fits (way ++ [name]) tree)
      (rest : FitsEach way entries) : FitsEach way ((name, tree) :: entries)

end

mutual

def FileTree.cost : FileTree → Nat
  | .file bytes => bytes.length + 2
  | .directory entries => 1 + FileTree.costs entries

def FileTree.costs : List (List UInt8 × FileTree) → Nat
  | [] => 1
  | (_, tree) :: rest => 1 + tree.cost + FileTree.costs rest

end

/-! ## What stays -/

section Keep

variable {before after : Storage} {keep keep' : Nat → Prop} {good good' : VfsNode → Prop}

theorem Shows.kept {id : Nat} {tree : FileTree} (shows : Shows before keep good id tree) :
    keep id := by
  cases shows with
  | file kept => exact kept
  | directory kept => exact kept

mutual

/-- A tree of files is the same in a later state in which its nodes and the bytes of all files are
as before. -/
theorem Shows.mono (nodes : ∀ id, keep id → after.fs.node id = before.fs.node id ∧ keep' id)
    (fine : ∀ node, good node → good' node)
    (holds : ∀ node bytes, VfsNode.HoldsBytes node before.store before.disk bytes →
      node.HoldsBytes after.store after.disk bytes) {id : Nat} {tree : FileTree}
    (shows : Shows before keep good id tree) : Shows after keep' good' id tree := by
  cases shows with
  | file kept found isFile fine_ held =>
      exact .file (nodes _ kept).2 ((nodes _ kept).1.trans found) isFile (fine _ fine_)
        (holds _ _ held)
  | directory kept found isDirectory below =>
      exact .directory (nodes _ kept).2 ((nodes _ kept).1.trans found) isDirectory
        (ShowsEach.mono nodes fine holds below)

theorem ShowsEach.mono (nodes : ∀ id, keep id → after.fs.node id = before.fs.node id ∧ keep' id)
    (fine : ∀ node, good node → good' node)
    (holds : ∀ node bytes, VfsNode.HoldsBytes node before.store before.disk bytes →
      node.HoldsBytes after.store after.disk bytes) {children : List Nat}
    {entries : List (List UInt8 × FileTree)} (shows : ShowsEach before keep good children entries) :
    ShowsEach after keep' good' children entries := by
  cases shows with
  | nil => exact .nil
  | cons found shows rest =>
      exact .cons ((nodes _ shows.kept).1.trans found) (Shows.mono nodes fine holds shows)
        (ShowsEach.mono nodes fine holds rest)

end

theorem ShowsEach.append {front back : List Nat} {first second : List (List UInt8 × FileTree)}
    (left : ShowsEach before keep good front first)
    (right : ShowsEach before keep good back second) :
    ShowsEach before keep good (front ++ back) (first ++ second) := by
  induction front generalizing first with
  | nil =>
      cases left
      exact right
  | cons child front known =>
      cases left with
      | cons found shows rest => exact .cons found shows (known rest)

theorem ShowsEach.split {children : List Nat} {entries : List (List UInt8 × FileTree)}
    (shows : ShowsEach before keep good children entries) {index : Nat} :
    (children[index]? = none ∧ entries.length ≤ index) ∨
      ∃ child node tree, children[index]? = some child ∧ before.fs.node child = some node ∧
        Shows before keep good child tree ∧ entries[index]? = some (node.name, tree) := by
  induction index generalizing children entries with
  | zero =>
      cases shows with
      | nil => exact Or.inl ⟨rfl, Nat.le_refl 0⟩
      | cons found shows rest => exact Or.inr ⟨_, _, _, rfl, found, shows, rfl⟩
  | succ index known =>
      cases shows with
      | nil => exact Or.inl ⟨rfl, Nat.zero_le _⟩
      | cons found shows rest =>
          rcases known rest with ⟨none_, length⟩ | ⟨child, node, tree, here, held, shown, entry⟩
          · exact Or.inl ⟨none_, Nat.succ_le_succ length⟩
          · exact Or.inr ⟨child, node, tree, here, held, shown, entry⟩

theorem VfsNode.HoldsBytes.unique {node : VfsNode} {store : Blockfs} {disk : Disk}
    {bytes bytes' : List UInt8} (first : node.HoldsBytes store disk bytes)
    (second : node.HoldsBytes store disk bytes') : bytes = bytes' := by
  have length := first.size.symm.trans second.size
  apply List.ext_getElem length
  intro position inside inside'
  have same := (first.content position inside).symm.trans (second.content position inside')
  rw [byte, byte, List.getD_eq_getElem _ _ inside, List.getD_eq_getElem _ _ inside'] at same
  exact same

mutual

theorem Shows.unique {id : Nat} {tree tree' : FileTree} (first : Shows before keep good id tree)
    (second : Shows before keep' good' id tree') : tree = tree' := by
  cases first with
  | file _ found isFile _ holds =>
      cases second with
      | file _ found' _ _ holds' =>
          cases found.symm.trans found'
          rw [holds.unique holds']
      | directory _ found' isDirectory =>
          cases found.symm.trans found'
          exact absurd isDirectory isFile
  | directory _ found isDirectory below =>
      cases second with
      | file _ found' isFile =>
          cases found.symm.trans found'
          exact absurd isDirectory isFile
      | directory _ found' _ below' =>
          cases found.symm.trans found'
          rw [ShowsEach.unique below below']

theorem ShowsEach.unique {children : List Nat} {entries entries' : List (List UInt8 × FileTree)}
    (first : ShowsEach before keep good children entries)
    (second : ShowsEach before keep' good' children entries') : entries = entries' := by
  cases first with
  | nil =>
      cases second
      rfl
  | cons found shows rest =>
      cases second with
      | cons found' shows' rest' =>
          cases found.symm.trans found'
          rw [Shows.unique shows shows', ShowsEach.unique rest rest']

end

theorem FitsEach.get {way : List (List UInt8)} {entries : List (List UInt8 × FileTree)}
    (fits : FitsEach way entries) {name : List UInt8} {tree : FileTree}
    (member : (name, tree) ∈ entries) :
    PathName name ∧ name.length < vfsNameMax ∧ Fits (way ++ [name]) tree := by
  induction entries with
  | nil => cases member
  | cons entry rest known =>
      cases fits with
      | cons plain short below others =>
          rcases List.mem_cons.mp member with same | later
          · cases same
            exact ⟨plain, short, below⟩
          · exact known others later

theorem Fits.room {way : List (List UInt8)} {tree : FileTree} (fits : Fits way tree) :
    WayFits way := by
  cases fits with
  | file room => exact room
  | directory room => exact room

theorem costs_ge {entries : List (List UInt8 × FileTree)} {name : List UInt8} {tree : FileTree}
    {index : Nat} (entry : entries[index]? = some (name, tree)) :
    1 + tree.cost + FileTree.costs (entries.drop (index + 1)) ≤
      FileTree.costs (entries.drop index) := by
  rcases List.getElem?_eq_some_iff.mp entry with ⟨inside, same⟩
  rw [List.drop_eq_getElem_cons inside, same, FileTree.costs]

mutual

theorem Shows.bounded (linked : before.fs.Linked) {id : Nat} {tree : FileTree}
    (shows : Shows before keep good id tree) :
    Shows before (fun id => id < before.fs.next ∧ keep id) good id tree := by
  cases shows with
  | file kept found isFile fine holds =>
      exact .file ⟨linked.bounded.lt found, kept⟩ found isFile fine holds
  | directory kept found isDirectory below =>
      exact .directory ⟨linked.bounded.lt found, kept⟩ found isDirectory
        (ShowsEach.bounded linked below)

theorem ShowsEach.bounded (linked : before.fs.Linked) {children : List Nat}
    {entries : List (List UInt8 × FileTree)}
    (shows : ShowsEach before keep good children entries) :
    ShowsEach before (fun id => id < before.fs.next ∧ keep id) good children entries := by
  cases shows with
  | nil => exact .nil
  | cons found shows rest =>
      exact .cons found (Shows.bounded linked shows) (ShowsEach.bounded linked rest)

end

theorem ShowsEach.find?_none {children : List Nat} {entries : List (List UInt8 × FileTree)}
    {name : List UInt8} (shows : ShowsEach before keep good children entries)
    (other : name ∉ entries.map Prod.fst) : children.find? (before.fs.named name) = none := by
  induction children generalizing entries with
  | nil => rfl
  | cons child rest known =>
      cases shows with
      | @cons _ node tree _ entries found shown others =>
          have outside : name ≠ node.name ∧ name ∉ entries.map Prod.fst := by simpa using other
          have notHere : before.fs.named name child = false := by
            rw [Fs.named, found, Option.any_some]
            exact beq_eq_false_iff_ne.mpr outside.1.symm
          rw [List.find?_cons_of_neg (by rw [notHere]; decide)]
          exact known others outside.2

theorem FileTree.costs_pos (entries : List (List UInt8 × FileTree)) :
    0 < FileTree.costs entries := by
  cases entries with
  | nil => exact Nat.one_pos
  | cons entry rest =>
      rw [FileTree.costs]
      omega

end Keep

/-! ## What a copy changes -/

/-- A call that creates nodes below one directory: all other nodes stay as they are, and so does
every file with its bytes; the directory gets children behind its own. -/
structure GrowsBelow (before : Storage) (parent : Nat) (after : Storage) : Prop where
  linked : after.fs.Linked
  extends_ : before.fs.Extends after.fs
  geometry : before.store.SameGeometry after.store
  nodes : ∀ id, id < before.fs.next → id ≠ parent → after.fs.node id = before.fs.node id
  holds : ∀ node bytes, VfsNode.HoldsBytes node before.store before.disk bytes →
    node.HoldsBytes after.store after.disk bytes

theorem GrowsBelow.refl {storage : Storage} (linked : storage.fs.Linked) (parent : Nat) :
    GrowsBelow storage parent storage :=
  ⟨linked, .refl _, .refl _, fun _ _ _ => rfl, fun _ _ holds => holds⟩

theorem Fs.Extends.trans {first second third : Fs} (before : first.Extends second)
    (after : second.Extends third) : first.Extends third := by
  refine ⟨after.root.trans before.root, Nat.le_trans before.more after.more,
    fun id node found => ?_, fun id name child entry =>
      after.finds id name child (before.finds id name child entry)⟩
  rcases before.kept id node found with ⟨middle, found', name, parent⟩
  rcases after.kept id middle found' with ⟨last, found'', name', parent'⟩
  exact ⟨last, found'', name'.trans name, parent'.trans parent⟩

theorem GrowsBelow.trans {first second third : Storage} {parent : Nat}
    (before : GrowsBelow first parent second) (after : GrowsBelow second parent third) :
    GrowsBelow first parent third := by
  refine ⟨after.linked, before.extends_.trans after.extends_, before.geometry.trans after.geometry,
    fun id old other => ?_, fun node bytes holds => after.holds node bytes
      (before.holds node bytes holds)⟩
  rw [after.nodes id (Nat.lt_of_lt_of_le old before.extends_.more) other, before.nodes id old other]

/-- What is created below a new directory is created below the one that has it. -/
theorem GrowsBelow.below {first second third : Storage} {parent new : Nat}
    (before : GrowsBelow first parent second) (isNew : first.fs.next ≤ new)
    (after : GrowsBelow second new third) : GrowsBelow first parent third := by
  refine ⟨after.linked, before.extends_.trans after.extends_, before.geometry.trans after.geometry,
    fun id old other => ?_, fun node bytes holds => after.holds node bytes
      (before.holds node bytes holds)⟩
  rw [after.nodes id (Nat.lt_of_lt_of_le old before.extends_.more) (by omega),
    before.nodes id old other]

end Trinux
