import Trinux.Fs.TreeNames
import Trinux.Fs.NodePath

namespace Trinux

/-!
# Created nodes and their paths

A path that creates a node is cut into a directory and a name, the name is stored in a field of
limited length, and later the path is resolved by comparing whole components.  Both agree exactly
where the directory is one that is searched by name and the name is stored whole.
-/

/-! ## Directories that are searched -/

/-- A directory whose entries are found by name; directories of a FAT volume are not. -/
def VfsNode.searched (node : VfsNode) : Bool :=
  node.ops ≠ .fatFile ∧ node.ops ≠ .fatDirectory ∧ node.type = vfsDirectory

def Fs.named (fs : Fs) (name : List UInt8) (id : Nat) : Bool :=
  (fs.node id).any fun entry => entry.name == name

theorem vfsFinddir_eq {fs : Fs} {id : Nat} {node : VfsNode} (found : fs.node id = some node)
    (name : List UInt8) :
    vfsFinddir fs id name = if node.searched then node.children.find? (fs.named name) else none := by
  have named : fs.named name = fun child =>
      (fs.node child).any fun entry => entry.name == name := rfl
  unfold vfsFinddir ramfsFinddir VfsNode.searched
  rw [found, Option.map_some, named]
  by_cases directory : node.type = vfsDirectory
  · cases node.ops <;> simp [directory]
  · cases node.ops <;> simp [directory]

/-! ## Heaps that keep what was found -/

/-- Every object keeps its name and its parent, and every directory finds what it found. -/
structure Fs.Extends (fs fs' : Fs) : Prop where
  root : fs'.root = fs.root
  more : fs.next ≤ fs'.next
  kept : ∀ id node, fs.node id = some node →
    ∃ node', fs'.node id = some node' ∧ node'.name = node.name ∧ node'.parent = node.parent
  finds : ∀ id name child, vfsFinddir fs id name = some child →
    vfsFinddir fs' id name = some child

section Extends

variable {fs fs' : Fs}

theorem Fs.Extends.refl (fs : Fs) : fs.Extends fs where
  root := rfl
  more := Nat.le_refl fs.next
  kept := fun _ node found => ⟨node, found, rfl, rfl⟩
  finds := fun _ _ _ found => found

theorem getPathLoop_extends (extends_ : fs.Extends fs') {path : List UInt8} :
    ∀ (fuel fuel' id : Nat) (rev : List UInt8), fuel ≤ fuel' →
      getPathLoop fs fuel id rev = some path → getPathLoop fs' fuel' id rev = some path := by
  intro fuel
  induction fuel with
  | zero =>
      intro fuel' id rev _ walked
      cases walked
  | succ fuel known =>
      intro fuel' id rev more walked
      cases fuel' with
      | zero => exact absurd more (by omega)
      | succ fuel' =>
          cases found : fs.node id with
          | none =>
              rw [getPathLoop, found] at walked
              cases walked
          | some node =>
              rcases extends_.kept id node found with ⟨node', found', name, parent⟩
              rw [getPathLoop, found] at walked
              rw [getPathLoop, found']
              dsimp only at walked ⊢
              rw [parent, name]
              cases above : node.parent with
              | none =>
                  rw [above] at walked
                  exact walked
              | some parent =>
                  rw [above] at walked
                  dsimp only at walked ⊢
                  by_cases fits : (slash :: node.name ++ rev).length < pathMax
                  · rw [if_pos fits] at walked ⊢
                    exact known fuel' parent _ (by omega) walked
                  · rw [if_neg fits] at walked
                    cases walked

theorem vfsGetPath_extends (extends_ : fs.Extends fs') {id : Nat} {path : List UInt8}
    (named : vfsGetPath fs id = some path) : vfsGetPath fs' id = some path := by
  rcases Option.map_eq_some_iff.mp named with ⟨rev, walked, shown⟩
  unfold vfsGetPath
  rw [getPathLoop_extends extends_ _ _ _ _ extends_.more walked, Option.map_some, shown]

theorem absNormalize_extends (extends_ : fs.Extends fs') {path : PathArg} {cwd : Option Nat}
    {norm : List UInt8} (normalized : absNormalize fs path cwd = some norm) :
    absNormalize fs' path cwd = some norm := by
  unfold absNormalize at normalized ⊢
  rw [extends_.root]
  by_cases absolute : pathIsAbsolute path
  · rw [if_pos absolute] at normalized ⊢
    exact normalized
  · rw [if_neg absolute] at normalized ⊢
    cases start : cwd <|> fs.root with
    | none =>
        rw [start] at normalized
        exact normalized
    | some start' =>
        rw [start] at normalized
        rcases Option.bind_eq_some_iff.mp normalized with ⟨base, named, done⟩
        exact Option.bind_eq_some_iff.mpr ⟨base, vfsGetPath_extends extends_ named, done⟩

theorem vfsWalk_none (names : List (List UInt8)) (fs : Fs) : vfsWalk fs none names = none := by
  induction names with
  | nil => rfl
  | cons _ _ known => exact known

theorem vfsWalk_extends (extends_ : fs.Extends fs') {names : List (List UInt8)} {id : Nat} :
    ∀ {start : Option Nat}, vfsWalk fs start names = some id → vfsWalk fs' start names = some id := by
  induction names with
  | nil => intro start walked; exact walked
  | cons name rest known =>
      intro start walked
      cases start with
      | none =>
          rw [vfsWalk_none] at walked
          cases walked
      | some here =>
          change vfsWalk fs (vfsFinddir fs here name) rest = some id at walked
          change vfsWalk fs' (vfsFinddir fs' here name) rest = some id
          cases entry : vfsFinddir fs here name with
          | none =>
              rw [entry, vfsWalk_none] at walked
              cases walked
          | some next =>
              rw [entry] at walked
              rw [extends_.finds here name next entry]
              exact known walked

theorem vfsResolve_extends (extends_ : fs.Extends fs') {path : PathArg} {cwd : Option Nat} {id : Nat}
    (resolved : vfsResolve fs path cwd = some (some id)) :
    vfsResolve fs' path cwd = some (some id) := by
  rcases Option.map_eq_some_iff.mp resolved with ⟨norm, normalized, walked⟩
  unfold vfsResolve
  rw [absNormalize_extends extends_ normalized, Option.map_some, extends_.root,
    vfsWalk_extends extends_ walked]

end Extends

/-! ## The directory and the name of a path -/

theorem pathDirname_pathBuild {front : List (List UInt8)} {last : List UInt8}
    (name : PathName last) : pathDirname (pathBuild (front ++ [last])) = pathBuild front := by
  have built : pathBuild (front ++ [last]) =
      (front.flatMap fun name => slash :: name) ++ slash :: last := by
    rw [pathBuild, if_neg (by simp), List.flatMap_append, List.flatMap_singleton]
  have kept : ∀ byte ∈ last.reverse, decide (byte ≠ slash) = true := by
    intro byte member
    rw [decide_eq_true_eq]
    rintro rfl
    exact name.plain (List.mem_reverse.mp member)
  have dropped : (((front.flatMap fun name => slash :: name) ++ slash :: last).reverse.dropWhile
      fun byte => byte ≠ slash) = slash :: (front.flatMap fun name => slash :: name).reverse := by
    rw [List.reverse_append, List.reverse_cons, List.append_assoc,
      List.dropWhile_append_of_pos kept, List.singleton_append,
      List.dropWhile_cons_of_neg (by simp)]
  rw [built, pathDirname, if_neg (by simp), dropped, List.drop_one, List.tail_cons,
    List.reverse_reverse, pathBuild]
  cases front with
  | nil => rfl
  | cons first rest => rfl

theorem pathBuild_short {front : List (List UInt8)} {last : List UInt8}
    (short : (pathBuild (front ++ [last])).length < pathMax) :
    (pathBuild front).length < pathMax := by
  cases front with
  | nil => decide
  | cons first rest =>
      rw [pathBuild, if_neg (by simp), List.flatMap_append, List.length_append] at short
      rw [pathBuild, if_neg (List.cons_ne_nil _ _)]
      omega

/-- What `vfs_mkdir` and `vfs_create` take from a path: the root and a slash for the path of the
root, else the directory that the other components lead to and the last component. -/
theorem vfsParent_eq {fs : Fs} {path : PathArg} {cwd : Option Nat} {norm : List UInt8}
    {names : List (List UInt8)} (normalized : absNormalize fs path cwd = some norm)
    (output : PathOutput norm names) :
    (names = [] ∧ vfsParent fs path cwd = some (fs.root, [slash])) ∨
      ∃ front last, names = front ++ [last] ∧ PathName last ∧
        vfsParent fs path cwd = some (vfsWalk fs fs.root front, last) := by
  unfold vfsParent
  rw [normalized, Option.bind_some, output.built, pathBasename_pathBuild output.valid]
  rcases List.eq_nil_or_concat names with rfl | ⟨front, last, rfl⟩
  · left
    refine ⟨rfl, ?_⟩
    have root := @vfsResolve_names [] fs none (by simp) (by simp) (by decide)
    change (vfsResolve fs (.of (pathDirname (pathBuild []))) none).map _ = _
    rw [show pathDirname (pathBuild []) = pathBuild [] by decide, root]
    rfl
  · right
    rw [List.concat_eq_append] at output ⊢
    have name := output.valid last (by simp)
    have valid : ∀ name ∈ front, PathName name := fun other member =>
      output.valid other (List.mem_append_left _ member)
    have few := output.few
    rw [List.length_append] at few
    have short := output.short
    rw [output.built] at short
    refine ⟨front, last, rfl, name, ?_⟩
    rw [pathDirname_pathBuild name, vfsResolve_names fs valid (by omega) (pathBuild_short short),
      Option.map_some, List.getLast?_append, List.getLast?_singleton]
    rfl

/-! ## What creating a node leaves to be found -/

section Created

variable {fs fs' : Fs} {parent id : Nat} {name : List UInt8} {type : UInt32} {cred : Cred}
  {permissions : UInt32}

structure CreatedNodes (fs fs' : Fs) (parent id : Nat) (name : List UInt8) : Prop where
  root : fs'.root = fs.root
  next : fs'.next = fs.next + 1
  new : id = fs.next
  child : ∃ node, fs'.node id = some node ∧ node.name = nameField name
  above : fs'.node parent = (fs.node parent).map (VfsNode.attach id)
  others : ∀ other, other ≠ id → other ≠ parent → fs'.node other = fs.node other

theorem CreatedBelow.nodes (linked : fs.Linked) (live : fs.node parent ≠ none)
    (created : CreatedBelow fs parent name type (VfsNode.own cred permissions) id fs') :
    CreatedNodes fs fs' parent id name := by
  rcases created with ⟨granted, now, made, made_, rfl⟩
  have older : parent < fs.next := by
    cases found : fs.node parent with
    | none => exact absurd found live
    | some node => exact linked.bounded.lt found
  have new := (ramfsCreateNode_cases made_).2.2.1
  have different : parent ≠ id := by omega
  constructor
  · rw [Fs.modify_root, ramfsCreateNode_root made_]
  · rw [Fs.modify_next, ramfsCreateNode_next made_]
  · exact new
  · rw [Fs.modify_node_self, ramfsCreateNode_new older made_]
    exact ⟨_, rfl, rfl⟩
  · rw [Fs.modify_node_of_ne made _ different, ramfsCreateNode_parent older made_]
  · intro other notNew notParent
    rw [Fs.modify_node_of_ne made _ notNew, ramfsCreateNode_other made_ notNew notParent]

theorem CreatedNodes.named (created : CreatedNodes fs fs' parent id name) {other : Nat}
    (old : other ≠ id) (sought : List UInt8) : fs'.named sought other = fs.named sought other := by
  unfold Fs.named
  by_cases isParent : other = parent
  · subst isParent
    rw [created.above]
    cases fs.node other <;> rfl
  · rw [created.others other old isParent]

theorem CreatedNodes.finddir (linked : fs.Linked) (created : CreatedNodes fs fs' parent id name)
    {node : VfsNode} (found : fs.node parent = some node) (sought : List UInt8) :
    vfsFinddir fs' parent sought = if node.searched then
      (node.children.find? (fs.named sought)).or
        (if nameField name == sought then some id else none) else none := by
  have above : fs'.node parent = some (node.attach id) := by
    rw [created.above, found, Option.map_some]
  have old : ∀ child ∈ node.children, fs'.named sought child = fs.named sought child := by
    intro child listed
    have live := (linked.listed parent child (by rw [Fs.childrenOf_eq found]; exact listed)).2
    rcases live with ⟨below, held, -⟩
    apply created.named
    rintro rfl
    have lt := linked.bounded.lt held
    have new := created.new
    omega
  have new : fs'.named sought id = (nameField name == sought) := by
    rcases created.child with ⟨child, held, shown⟩
    rw [Fs.named, held, Option.any_some, shown]
  rw [vfsFinddir_eq above]
  change (if node.searched then (node.children ++ [id]).find? (fs'.named sought) else none) = _
  rw [List.find?_append, List.find?_congr old, List.find?_singleton, new]

theorem CreatedNodes.extends (linked : fs.Linked) (live : fs.node parent ≠ none)
    (created : CreatedNodes fs fs' parent id name) : fs.Extends fs' where
  root := created.root
  more := by
    have next := created.next
    omega
  kept := by
    intro other node found
    by_cases isParent : other = parent
    · subst isParent
      exact ⟨node.attach id, by rw [created.above, found, Option.map_some], rfl, rfl⟩
    · have lt := linked.bounded.lt found
      have new := created.new
      exact ⟨node, by rw [created.others other (by omega) isParent, found], rfl, rfl⟩
  finds := by
    intro other sought child entry
    rcases (vfsFinddir_mem entry) with ⟨listed, -⟩
    rcases Fs.live_of_mem_childrenOf listed with ⟨node, found, -⟩
    rw [vfsFinddir_eq found] at entry
    by_cases isParent : other = parent
    · subst isParent
      rw [created.finddir linked found]
      by_cases searched : node.searched
      · rw [if_pos searched] at entry ⊢
        rw [entry, Option.some_or]
      · rw [if_neg searched] at entry
        cases entry
    · have lt := linked.bounded.lt found
      have new := created.new
      have found' : fs'.node other = some node := by
        rw [created.others other (by omega) isParent, found]
      rw [vfsFinddir_eq found', ← entry]
      congr 1
      apply List.find?_congr
      intro child' listed'
      have held := (linked.listed other child' (by rw [Fs.childrenOf_eq found]; exact listed')).2
      rcases held with ⟨below, held, -⟩
      apply created.named
      have lt' := linked.bounded.lt held
      omega

end Created

/-! ## Where a created node is found -/

/-- `vfs_mkdir` or `vfs_create` of a caller: the node it returns, or none, and the tree. -/
abbrev PathCall := Fs → PathArg → Option Nat → Option (Option Nat × Fs)

/-- A call keeps inside of its buffers, the node that it returns is what its path resolves to
behind it, every path that resolved before resolves to the same node, and the tree is unchanged
when no node is returned. -/
structure ResolvesCreated (call : PathCall) (fs : Fs) (path : PathArg) (cwd : Option Nat) : Prop where
  returns : ∃ result fs', call fs path cwd = some (result, fs')
  found : ∀ id fs', call fs path cwd = some (some id, fs') →
    vfsResolve fs' path cwd = some (some id)
  kept : ∀ result fs', call fs path cwd = some (result, fs') → ∀ other dir id,
    vfsResolve fs other dir = some (some id) → vfsResolve fs' other dir = some (some id)
  unchanged : ∀ fs', call fs path cwd = some (none, fs') → fs' = fs

/-- A caller may create a node of a path: the path's directory has no entry of the name that is
found, may be written and has room, and there is memory for a node. -/
structure MayCreate (platform : Platform) (cred : Cred) (fs : Fs) (path : PathArg)
    (cwd : Option Nat) (parent : Nat) (name : List UInt8) : Prop where
  creates : CreatesIn fs path cwd parent name
  permitted : fs.checkAccess cred parent accWrite = true
  room : (fs.childrenOf parent).length < vfsMaxChildren
  memory : kmalloc (platform.alloc 0) sizeofVfsNode = true

structure MayOpen (cred : Cred) (fs : Fs) (path : PathArg) (cwd : Option Nat) (parent : Nat)
    (name : List UInt8) (id : Nat) : Prop where
  target : vfsParent fs path cwd = some (some parent, name)
  directory : ∃ node, fs.node parent = some node ∧ node.type = vfsDirectory
  entry : vfsFinddir fs parent name = some id
  permitted : fs.checkAccess cred id accWrite = true

/-- An entry of this name is found again: it is no path of the root, it is stored whole, and its
directory is searched by name. -/
structure FoundAgain (fs : Fs) (parent : Nat) (name : List UInt8) : Prop where
  notRoot : name ≠ [slash]
  whole : name.length < vfsNameMax
  searched : ∃ node, fs.node parent = some node ∧ node.searched = true

section Resolution

variable {fs fs' : Fs} {path : PathArg} {cwd : Option Nat} {parent id : Nat} {name : List UInt8}

/-- A directory and a name that were taken from a path, and what the path resolves to later. -/
theorem vfsResolve_parent (target : vfsParent fs path cwd = some (some parent, name))
    (extends_ : fs.Extends fs') :
    (name = [slash] ∧ fs.root = some parent ∧ vfsResolve fs' path cwd = some fs.root) ∨
      (name ≠ [slash] ∧ vfsResolve fs' path cwd = some (vfsFinddir fs' parent name)) := by
  rcases Option.bind_eq_some_iff.mp target with ⟨norm, normalized, -⟩
  rcases absNormalize_output normalized with ⟨names, output⟩
  have later : vfsResolve fs' path cwd = some (vfsWalk fs' fs'.root names) := by
    unfold vfsResolve
    rw [absNormalize_extends extends_ normalized, Option.map_some, output.tokens]
  rcases vfsParent_eq normalized output with ⟨rfl, taken⟩ | ⟨front, last, rfl, valid, taken⟩
  · left
    rw [taken] at target
    have root : fs.root = some parent := congrArg Prod.fst (Option.some.inj target)
    have isRoot : [slash] = name := congrArg Prod.snd (Option.some.inj target)
    refine ⟨isRoot.symm, root, ?_⟩
    rw [later, extends_.root]
    rfl
  · right
    rw [taken] at target
    have walked : vfsWalk fs fs.root front = some parent := congrArg Prod.fst (Option.some.inj target)
    obtain rfl : last = name := congrArg Prod.snd (Option.some.inj target)
    refine ⟨?_, ?_⟩
    · rintro rfl
      exact valid.plain (List.mem_singleton.mpr rfl)
    · rw [later, vfsWalk_append, extends_.root, vfsWalk_extends extends_ walked]
      rfl

theorem nameField_eq_iff (name : List UInt8) : nameField name = name ↔ name.length < vfsNameMax := by
  unfold nameField
  rw [List.take_eq_self_iff]
  have positive : 0 < vfsNameMax := by decide
  omega

/-- The node that was created is what its path resolves to exactly if it is found again. -/
theorem created_found_iff (linked : fs.Linked) (creates : CreatesIn fs path cwd parent name)
    (created : CreatedNodes fs fs' parent id name) :
    vfsResolve fs' path cwd = some (some id) ↔ FoundAgain fs parent name := by
  rcases creates.directory with ⟨node, found, -⟩
  have live : fs.node parent ≠ none := by
    rw [found]
    exact Option.some_ne_none node
  have entry := created.finddir linked found name
  have absent := creates.absent
  rw [vfsFinddir_eq found] at absent
  rcases vfsResolve_parent creates.target (created.extends linked live) with
    ⟨isRoot, root, later⟩ | ⟨notRoot, later⟩
  · rw [later, root]
    constructor
    · intro same
      have same' : parent = id := Option.some.inj (Option.some.inj same)
      have lt := linked.bounded.lt found
      have new := created.new
      omega
    · intro again
      exact absurd isRoot again.notRoot
  · rw [later, entry]
    by_cases searched : node.searched
    · rw [if_pos searched] at absent ⊢
      rw [absent, Option.none_or]
      constructor
      · intro same
        refine ⟨notRoot, (nameField_eq_iff name).mp ?_, node, found, searched⟩
        by_contra cut
        rw [if_neg (by simpa using cut)] at same
        cases same
      · intro again
        rw [(nameField_eq_iff name).mpr again.whole, if_pos (beq_self_eq_true name)]
    · rw [if_neg searched]
      constructor
      · intro same
        cases same
      · intro again
        rcases again.searched with ⟨node', found', searched'⟩
        rw [found] at found'
        cases found'
        exact absurd searched' searched

/-- The node that was opened is what its path resolves to exactly if that is no path of the
root. -/
theorem opened_found_iff (linked : fs.Linked)
    (target : vfsParent fs path cwd = some (some parent, name))
    (entry : vfsFinddir fs parent name = some id) :
    vfsResolve fs path cwd = some (some id) ↔ name ≠ [slash] := by
  rcases vfsResolve_parent target (Fs.Extends.refl fs) with ⟨isRoot, root, later⟩ | ⟨notRoot, later⟩
  · rw [later, root]
    constructor
    · intro same
      have same' : parent = id := Option.some.inj (Option.some.inj same)
      have younger := (linked.listed parent id (vfsFinddir_mem entry).1).1
      omega
    · intro other
      exact absurd isRoot other
  · rw [later, entry]
    exact iff_of_true rfl notRoot

end Resolution

section Calls

variable {platform : Platform} {cred : Cred} {umask : UInt32} {fs : Fs} {path : PathArg}
  {cwd : Option Nat}

theorem vfsParent_of_normalized {norm : List UInt8}
    (normalized : absNormalize fs path cwd = some norm) : (vfsParent fs path cwd).isSome = true := by
  rcases absNormalize_output normalized with ⟨names, output⟩
  rcases vfsParent_eq normalized output with ⟨-, taken⟩ | ⟨front, last, -, -, taken⟩ <;>
    rw [taken] <;> rfl

theorem normalized_of_vfsParent (taken : (vfsParent fs path cwd).isSome = true) :
    ∃ norm, absNormalize fs path cwd = some norm := by
  rcases Option.isSome_iff_exists.mp taken with ⟨target, found⟩
  rcases Option.bind_eq_some_iff.mp found with ⟨norm, normalized, -⟩
  exact ⟨norm, normalized⟩

theorem any_directory {parent : Nat}
    (directory : ∃ node, fs.node parent = some node ∧ node.type = vfsDirectory) :
    ((fs.node parent).any fun node => node.type = vfsDirectory) = true := by
  rcases directory with ⟨node, found, isDirectory⟩
  rw [found, Option.any_some, isDirectory]
  rfl

theorem MayCreate.mkdir {parent : Nat} {name : List UInt8}
    (may : MayCreate platform cred fs path cwd parent name) :
    ∃ fs', vfsMkdir platform cred umask fs path cwd = some (some fs.next, fs') := by
  have directory := any_directory may.creates.directory
  have room : ¬vfsMaxChildren ≤ (fs.childrenOf parent).length := by
    have := may.room
    omega
  unfold vfsMkdir
  rw [may.creates.target, Option.map_some]
  dsimp only
  rw [if_pos directory, may.permitted, may.creates.absent, ramfsCreateNode, if_neg room, may.memory]
  exact ⟨_, rfl⟩

theorem MayCreate.create {parent : Nat} {name : List UInt8}
    (may : MayCreate platform cred fs path cwd parent name) :
    ∃ fs', vfsCreate platform cred umask fs path cwd = some (some fs.next, fs') := by
  have directory := any_directory may.creates.directory
  have room : ¬vfsMaxChildren ≤ (fs.childrenOf parent).length := by
    have := may.room
    omega
  unfold vfsCreate
  rw [may.creates.target, Option.map_some]
  dsimp only
  rw [if_pos directory, may.creates.absent]
  dsimp only
  rw [may.permitted, ramfsCreateNode, if_neg room, may.memory]
  exact ⟨_, rfl⟩

theorem MayOpen.create {parent id : Nat} {name : List UInt8}
    (may : MayOpen cred fs path cwd parent name id) :
    vfsCreate platform cred umask fs path cwd = some (some id, fs) := by
  have directory := any_directory may.directory
  unfold vfsCreate
  rw [may.target, Option.map_some]
  dsimp only
  rw [if_pos directory, may.entry]
  dsimp only
  rw [if_pos may.permitted]

/-- What `vfs_mkdir` created was within what the caller may do. -/
theorem MayCreate.of_mkdir {parent id : Nat} {name : List UInt8} {fs' : Fs}
    (creates : CreatesIn fs path cwd parent name)
    (made : vfsMkdir platform cred umask fs path cwd = some (some id, fs')) :
    MayCreate platform cred fs path cwd parent name := by
  have directory := any_directory creates.directory
  unfold vfsMkdir at made
  rw [creates.target, Option.map_some] at made
  dsimp only at made
  rw [if_pos directory, creates.absent] at made
  cases permitted : fs.checkAccess cred parent accWrite with
  | false =>
      rw [permitted] at made
      cases made
  | true =>
      rw [permitted] at made
      cases created : ramfsCreateNode (platform.alloc 0) platform.now fs parent name
          vfsDirectory with
      | none =>
          rw [created] at made
          cases made
      | some new =>
          have inside := ramfsCreateNode_cases created
          exact ⟨creates, permitted, inside.1, inside.2.1⟩

/-- What `vfs_create` created was within what the caller may do. -/
theorem MayCreate.of_create {parent id : Nat} {name : List UInt8} {fs' : Fs}
    (creates : CreatesIn fs path cwd parent name)
    (made : vfsCreate platform cred umask fs path cwd = some (some id, fs')) :
    MayCreate platform cred fs path cwd parent name := by
  have directory := any_directory creates.directory
  unfold vfsCreate at made
  rw [creates.target, Option.map_some] at made
  dsimp only at made
  rw [if_pos directory, creates.absent] at made
  dsimp only at made
  cases permitted : fs.checkAccess cred parent accWrite with
  | false =>
      rw [permitted] at made
      cases made
  | true =>
      rw [permitted] at made
      cases created : ramfsCreateNode (platform.alloc 0) platform.now fs parent name vfsFile with
      | none =>
          rw [created] at made
          cases made
      | some new =>
          have inside := ramfsCreateNode_cases created
          exact ⟨creates, permitted, inside.1, inside.2.1⟩

/-- A call that creates a node or finds one resolves what it created exactly if both are found
again. -/
theorem resolvesCreated_iff (linked : fs.Linked) (call : PathCall)
    (may : Nat → List UInt8 → Prop) (opens : Nat → List UInt8 → Nat → Prop)
    (reads : (∃ outcome, call fs path cwd = some outcome) ↔ ∃ norm, absNormalize fs path cwd = some norm)
    (cases_ : ∀ result fs', call fs path cwd = some (result, fs') →
      (result = none ∧ fs' = fs) ∨
        (∃ parent name id, result = some id ∧ fs' = fs ∧ opens parent name id) ∨
        ∃ parent name id, result = some id ∧ may parent name ∧ CreatesIn fs path cwd parent name ∧
          CreatedNodes fs fs' parent id name)
    (creates : ∀ parent name, may parent name → CreatesIn fs path cwd parent name ∧
      ∃ id fs', call fs path cwd = some (some id, fs') ∧ CreatedNodes fs fs' parent id name)
    (opened : ∀ parent name id, opens parent name id →
      vfsParent fs path cwd = some (some parent, name) ∧ vfsFinddir fs parent name = some id ∧
        call fs path cwd = some (some id, fs)) :
    ResolvesCreated call fs path cwd ↔
      (∃ norm, absNormalize fs path cwd = some norm) ∧
        (∀ parent name, may parent name → FoundAgain fs parent name) ∧
        ∀ parent name id, opens parent name id → name ≠ [slash] := by
  constructor
  · intro resolves
    refine ⟨reads.mp ?_, ?_, ?_⟩
    · rcases resolves.returns with ⟨result, fs', returned⟩
      exact ⟨_, returned⟩
    · intro parent name allowed
      rcases creates parent name allowed with ⟨creates_, id, fs', returned, nodes⟩
      exact (created_found_iff linked creates_ nodes).mp (resolves.found id fs' returned)
    · intro parent name id open_
      rcases opened parent name id open_ with ⟨target, entry, returned⟩
      exact (opened_found_iff linked target entry).mp (resolves.found id fs returned)
  · rintro ⟨normalized, again, notRoot⟩
    constructor
    · rcases reads.mpr normalized with ⟨outcome, returned⟩
      exact ⟨outcome.1, outcome.2, returned⟩
    · intro id fs' returned
      rcases cases_ _ fs' returned with ⟨none_, -⟩ | ⟨parent, name, id', same, rfl, open_⟩ |
        ⟨parent, name, id', same, allowed, creates_, nodes⟩
      · cases none_
      · cases same
        rcases opened parent name id open_ with ⟨target, entry, -⟩
        exact (opened_found_iff linked target entry).mpr (notRoot parent name id open_)
      · cases same
        exact (created_found_iff linked creates_ nodes).mpr (again parent name allowed)
    · intro result fs' returned other dir id resolved
      rcases cases_ result fs' returned with ⟨-, rfl⟩ | ⟨_, _, _, -, rfl, -⟩ |
        ⟨parent, name, id', -, -, creates_, nodes⟩
      · exact resolved
      · exact resolved
      · rcases creates_.directory with ⟨node, found, -⟩
        have live : fs.node parent ≠ none := by
          rw [found]
          exact Option.some_ne_none node
        exact vfsResolve_extends (nodes.extends linked live) resolved
    · intro fs' returned
      rcases cases_ none fs' returned with ⟨-, same⟩ | ⟨_, _, _, some_, -⟩ | ⟨_, _, _, some_, -⟩
      · exact same
      · cases some_
      · cases some_

theorem vfsParent_iff :
    (vfsParent fs path cwd).isSome = true ↔ ∃ norm, absNormalize fs path cwd = some norm := by
  constructor
  · exact normalized_of_vfsParent
  · rintro ⟨norm, normalized⟩
    exact vfsParent_of_normalized normalized

theorem live_of_creates {parent : Nat} {name : List UInt8}
    (creates : CreatesIn fs path cwd parent name) : fs.node parent ≠ none := by
  rcases creates.directory with ⟨node, found, -⟩
  rw [found]
  exact Option.some_ne_none node

/-- A call that is computed from the directory and the name of its path. -/
theorem returns_iff (step : Option Nat × List UInt8 → Option Nat × Fs) :
    (∃ outcome, (vfsParent fs path cwd).map step = some outcome) ↔
      ∃ norm, absNormalize fs path cwd = some norm := by
  rw [← vfsParent_iff, Option.isSome_iff_exists]
  constructor
  · rintro ⟨outcome, returned⟩
    rcases Option.map_eq_some_iff.mp returned with ⟨target, found, -⟩
    exact ⟨target, found⟩
  · rintro ⟨target, found⟩
    exact ⟨step target, by rw [found, Option.map_some]⟩

theorem vfsMkdir_resolves_iff (linked : fs.Linked) :
    ResolvesCreated (vfsMkdir platform cred umask) fs path cwd ↔
      (∃ norm, absNormalize fs path cwd = some norm) ∧
        ∀ parent name, MayCreate platform cred fs path cwd parent name →
          FoundAgain fs parent name := by
  have iff := resolvesCreated_iff linked (vfsMkdir platform cred umask)
    (MayCreate platform cred fs path cwd) (fun _ _ _ => False) (returns_iff _)
    (by
      intro result fs' made
      rcases vfsMkdir_cases made with failed | ⟨parent, name, id, rfl, creates, below⟩
      · exact Or.inl failed
      · exact Or.inr (Or.inr ⟨parent, name, id, rfl, MayCreate.of_mkdir creates made, creates,
          below.nodes linked (live_of_creates creates)⟩))
    (by
      intro parent name allowed
      rcases allowed.mkdir with ⟨fs', made⟩
      refine ⟨allowed.creates, fs.next, fs', made, ?_⟩
      rcases vfsMkdir_cases made with ⟨none_, -⟩ | ⟨parent', name', id, same, creates, below⟩
      · cases none_
      · have target := creates.target
        rw [allowed.creates.target] at target
        cases target
        cases same
        exact below.nodes linked (live_of_creates creates))
    (fun _ _ _ never => never.elim)
  rw [iff]
  constructor
  · rintro ⟨normalized, again, -⟩
    exact ⟨normalized, again⟩
  · rintro ⟨normalized, again⟩
    exact ⟨normalized, again, fun _ _ _ never => never.elim⟩

theorem vfsCreate_resolves_iff (linked : fs.Linked) :
    ResolvesCreated (vfsCreate platform cred umask) fs path cwd ↔
      (∃ norm, absNormalize fs path cwd = some norm) ∧
        (∀ parent name, MayCreate platform cred fs path cwd parent name →
          FoundAgain fs parent name) ∧
        ∀ parent name id, MayOpen cred fs path cwd parent name id → name ≠ [slash] := by
  apply resolvesCreated_iff linked (vfsCreate platform cred umask)
    (MayCreate platform cred fs path cwd) (MayOpen cred fs path cwd) (returns_iff _)
  · intro result fs' made
    rcases vfsCreate_cases made with failed |
      ⟨parent, name, id, rfl, rfl, target, entry, permitted⟩ | ⟨parent, name, id, rfl, creates, below⟩
    · exact Or.inl failed
    · have isDirectory : ∃ node, fs'.node parent = some node ∧ node.type = vfsDirectory := by
        rcases Fs.live_of_mem_childrenOf (vfsFinddir_mem entry).1 with ⟨node, found, -⟩
        refine ⟨node, found, ?_⟩
        rw [vfsFinddir_eq found] at entry
        by_contra other
        rw [VfsNode.searched, decide_eq_false (by simp [other])] at entry
        cases entry
      exact Or.inr (Or.inl ⟨parent, name, id, rfl, rfl, target, isDirectory, entry, permitted⟩)
    · exact Or.inr (Or.inr ⟨parent, name, id, rfl, MayCreate.of_create creates made, creates,
        below.nodes linked (live_of_creates creates)⟩)
  · intro parent name allowed
    rcases allowed.create with ⟨fs', made⟩
    refine ⟨allowed.creates, fs.next, fs', made, ?_⟩
    rcases vfsCreate_cases made with ⟨none_, -⟩ | ⟨parent', name', id, -, -, target, entry, -⟩ |
      ⟨parent', name', id, same, creates, below⟩
    · cases none_
    · have absent := allowed.creates.absent
      rw [allowed.creates.target] at target
      cases target
      rw [absent] at entry
      cases entry
    · have target := creates.target
      rw [allowed.creates.target] at target
      cases target
      cases same
      exact below.nodes linked (live_of_creates creates)
  · intro parent name id open_
    exact ⟨open_.target, open_.entry, open_.create⟩

/-- `vfs_mkdir` and `vfs_create` return what their path resolves to, keep every other path and
leave the tree alone when they fail, exactly if the path fits its buffer and whatever they may
create or open is found again. -/
theorem creation_resolves_iff (platform : Platform) (cred : Cred) (umask : UInt32)
    (linked : fs.Linked) (path : PathArg) (cwd : Option Nat) :
    (ResolvesCreated (vfsMkdir platform cred umask) fs path cwd ↔
      (∃ norm, absNormalize fs path cwd = some norm) ∧
        ∀ parent name, MayCreate platform cred fs path cwd parent name →
          FoundAgain fs parent name) ∧
      (ResolvesCreated (vfsCreate platform cred umask) fs path cwd ↔
        (∃ norm, absNormalize fs path cwd = some norm) ∧
          (∀ parent name, MayCreate platform cred fs path cwd parent name →
            FoundAgain fs parent name) ∧
          ∀ parent name id, MayOpen cred fs path cwd parent name id → name ≠ [slash]) :=
  ⟨vfsMkdir_resolves_iff linked, vfsCreate_resolves_iff linked⟩

theorem creation_resolves_iff_root :
    (ResolvesCreated (vfsMkdir .ideal ⟨0, 0⟩ 0o22) (bootRoot 0) (.of (literal "/a")) none ↔
      (∃ norm, absNormalize (bootRoot 0) (.of (literal "/a")) none = some norm) ∧
        ∀ parent name, MayCreate .ideal ⟨0, 0⟩ (bootRoot 0) (.of (literal "/a")) none parent name →
          FoundAgain (bootRoot 0) parent name) ∧
      (ResolvesCreated (vfsCreate .ideal ⟨0, 0⟩ 0o22) (bootRoot 0) (.of (literal "/a")) none ↔
        (∃ norm, absNormalize (bootRoot 0) (.of (literal "/a")) none = some norm) ∧
          (∀ parent name, MayCreate .ideal ⟨0, 0⟩ (bootRoot 0) (.of (literal "/a")) none parent name →
            FoundAgain (bootRoot 0) parent name) ∧
          ∀ parent name id, MayOpen ⟨0, 0⟩ (bootRoot 0) (.of (literal "/a")) none parent name id →
            name ≠ [slash]) :=
  creation_resolves_iff .ideal ⟨0, 0⟩ 0o22 (bootRoot_linked 0) (.of (literal "/a")) none

/-- A directory under a name of 64 letters is created and not found. -/
theorem longName_not_found : ¬ResolvesCreated (vfsMkdir .ideal ⟨0, 0⟩ 0o22) (bootRoot 0) longPath none := by
  intro resolves
  have made : ((vfsMkdir .ideal ⟨0, 0⟩ 0o22 (bootRoot 0) longPath none).map Prod.fst) =
      some (some 1) := by decide +kernel
  rcases Option.map_eq_some_iff.mp made with ⟨⟨result, fs'⟩, returned, same⟩
  cases same
  have lost : ((vfsMkdir .ideal ⟨0, 0⟩ 0o22 (bootRoot 0) longPath none).map fun made =>
      vfsResolve made.2 longPath none) = some (some none) := by decide +kernel
  rw [returned, Option.map_some, resolves.found 1 fs' returned] at lost
  cases lost

end Calls

end Trinux
