import Trinux.Fs.FileTrees
import Trinux.Shell.Copy

namespace Trinux

open Bytes

/-!
# Copying trees

`cp -r` walks the children of the source by index and creates each of them below the destination,
whose path it builds anew for every node in a buffer of `PATH_MAX` bytes.  The number of children
is read in every round, so the walk also comes to what it has created if that lies in the source.
-/

/-! ## The command -/

def pathJoin (a b : List UInt8) : List UInt8 :=
  a ++ (if a.getLast? = some slash then [] else [slash]) ++
    (if b.head? = some slash then b.drop 1 else b)

/-- What the platform does while a child is copied.  The first stage is that of the directory
itself. -/
def childStages (stages : Nat → Platform) (index : Nat) : Nat → Platform :=
  fun stage => stages (Nat.pair index stage + 1)

section Command

variable (driver : Nat) (caller : Caller)

def copyDirectory (platform : Platform) (path : List UInt8) (storage : Storage) :
    Option (Option Nat × Storage) :=
  (vfsResolve storage.fs (.of path) none).bind fun old =>
    match old with
    | some _ => some (old, storage)
    | none =>
        (vfsMkdir platform caller.cred caller.umask storage.fs (.of path) none).bind fun made =>
          match made.1 with
          | none => some (none, { storage with fs := made.2 })
          | some _ => (vfsResolve made.2 (.of path) none).map fun new =>
              (new, { storage with fs := made.2 })

mutual

def cpRecursive : (fuel : Nat) → (stages : Nat → Platform) → (src dstParent : Nat) →
    (dstName : List UInt8) → Storage → Option (Bool × Storage)
  | 0, _, _, _, _, _ => none
  | fuel + 1, stages, src, dstParent, dstName, storage =>
      (vfsGetPath storage.fs dstParent).bind fun parentPath =>
        let dstPath := pathJoin parentPath dstName
        if pathMax ≤ dstPath.length then none
        else
          match storage.fs.node src with
          | none => none
          | some node =>
              if node.type = vfsDirectory then
                (copyDirectory caller (stages 0) dstPath storage).bind fun made =>
                  match made.1 with
                  | none => some (false, made.2)
                  | some newDir => cpChildren fuel stages src newDir 0 made.2
              else
                (vfsCreate (stages 0) caller.cred caller.umask storage.fs (.of dstPath) none).bind
                  fun created =>
                    match created.1 with
                    | none => some (false, { storage with fs := created.2 })
                    | some newFile =>
                        copyFileContents (fun stage => stages (stage + 1)) driver fuel src newFile
                          { storage with fs := created.2 }

def cpChildren : (fuel : Nat) → (stages : Nat → Platform) → (src newDir index : Nat) → Storage →
    Option (Bool × Storage)
  | 0, _, _, _, _, _ => none
  | fuel + 1, stages, src, newDir, index, storage =>
      match (storage.fs.childrenOf src)[index]? with
      | none => some (true, storage)
      | some child =>
          match storage.fs.node child with
          | none => none
          | some node =>
              (cpRecursive fuel (childStages stages index) child newDir node.name storage).bind
                fun copied =>
                  if copied.1 then cpChildren fuel stages src newDir (index + 1) copied.2
                  else some copied

end

def cmdCpTree (fuel : Nat) (stages : Nat → Platform) (src dst : List UInt8) (storage : Storage) :
    Option (Int × Storage) :=
  (vfsResolve storage.fs (.of src) caller.cwd).bind fun source =>
    match source with
    | none => some (1, storage)
    | some id =>
        (vfsParent storage.fs (.of dst) caller.cwd).bind fun target =>
          match target.1 with
          | none => some (1, storage)
          | some dstParent =>
              (cpRecursive driver caller fuel stages id dstParent target.2 storage).map
                fun copied => (if copied.1 then 0 else 1, copied.2)

end Command

/-! ## The path of a new node -/

section Paths

variable {fs : Fs} {parent : Nat} {way : List (List UInt8)} {name : List UInt8}

theorem pathBuild_snoc (way : List (List UInt8)) (name : List UInt8) :
    pathBuild (way ++ [name]) = (way.flatMap fun component => slash :: component) ++
      (slash :: name) := by
  rw [pathBuild, if_neg (by simp), List.flatMap_append, List.flatMap_singleton]

theorem pathJoin_pathBuild (valid : ∀ component ∈ way, PathName component)
    (plain : PathName name) : pathJoin (pathBuild way) name = pathBuild (way ++ [name]) := by
  have head : name.head? ≠ some slash := by
    intro starts
    cases name with
    | nil => cases starts
    | cons first rest =>
        cases starts
        exact plain.plain List.mem_cons_self
  rw [pathJoin, if_neg head, pathBuild_snoc]
  rcases List.eq_nil_or_concat way with rfl | ⟨front, last, rfl⟩
  · rfl
  · rw [List.concat_eq_append] at valid ⊢
    have isLast := valid last (by simp)
    have ends : (pathBuild (front ++ [last])).getLast? ≠ some slash := by
      rw [pathBuild_snoc]
      cases shape : last with
      | nil => exact absurd shape isLast.nonempty
      | cons first rest =>
          rw [List.getLast?_append, List.getLast?_cons_cons, ← shape]
          intro same
          cases isEnd : last.getLast? with
          | none => exact absurd (List.getLast?_eq_none_iff.mp isEnd) isLast.nonempty
          | some byte =>
              rw [isEnd] at same
              cases same
              exact isLast.plain (List.mem_of_getLast? isEnd)
    rw [if_neg ends, pathBuild_snoc, List.flatMap_append, List.flatMap_singleton]
    simp

/-- The path that `cp_recursive` builds for a new node leads to its directory and name. -/
structure JoinsTo (fs : Fs) (parent : Nat) (name path : List UInt8) : Prop where
  above : ∃ parentPath, vfsGetPath fs parent = some parentPath ∧ pathJoin parentPath name = path
  short : path.length < pathMax
  parts : vfsParent fs (.of path) none = some (some parent, name)
  resolves : ∀ later : Fs, fs.Extends later →
    vfsResolve later (.of path) none = some (vfsFinddir later parent name)

theorem Fs.NamedPath.joins (named : fs.NamedPath parent way) (linked : fs.Linked)
    (plain : PathName name) (fits : WayFits (way ++ [name])) :
    JoinsTo fs parent name (pathBuild (way ++ [name])) := by
  have valid : ∀ component ∈ way ++ [name], PathName component := by
    intro component member
    rcases List.mem_append.mp member with old | this
    · exact named.valid component old
    · rw [List.mem_singleton.mp this]
      exact plain
  have output : PathOutput (pathBuild (way ++ [name])) (way ++ [name]) :=
    ⟨rfl, valid, fits.few, fits.short⟩
  refine ⟨⟨pathBuild way, vfsGetPath_named linked named (pathBuild_short fits.short),
    pathJoin_pathBuild named.valid plain⟩, fits.short, ?_, fun later extends_ => ?_⟩
  · have normal := absNormalize_pathBuild fs none valid fits.few fits.short
    rcases vfsParent_eq normal output with ⟨empty, -⟩ | ⟨front, last, same, -, taken⟩
    · simp at empty
    · rcases List.append_inj' same rfl with ⟨rfl, isLast⟩
      cases isLast
      rw [taken, named.walk]
  · rw [vfsResolve_names later valid fits.few fits.short, vfsWalk_append, extends_.root,
      vfsWalk_extends extends_ named.walk]
    rfl

theorem Fs.NamedPath.extends {later : Fs} (named : fs.NamedPath parent way)
    (extends_ : fs.Extends later) : later.NamedPath parent way := by
  induction named with
  | root isRoot => exact .root (extends_.root.trans isRoot)
  | child _ found entry plain known =>
      rcases extends_.kept _ _ found with ⟨node', found', same, -⟩
      rw [← same]
      exact .child known found' (by rw [same]; exact extends_.finds _ _ _ entry)
        (by rw [same]; exact plain)

end Paths

/-! ## The first step of the recursion -/

section Step

variable {driver : Nat} {caller : Caller} {stages : Nat → Platform} {fuel src parent : Nat}
  {name path : List UInt8} {storage : Storage} {node : VfsNode}

/-- `cp_recursive` of a file creates or opens a file and copies the contents. -/
theorem cpRecursive_file (joins : JoinsTo storage.fs parent name path)
    (found : storage.fs.node src = some node) (isFile : node.type ≠ vfsDirectory) :
    cpRecursive driver caller (fuel + 1) stages src parent name storage =
      (vfsCreate (stages 0) caller.cred caller.umask storage.fs (.of path) none).bind
        fun created =>
          match created.1 with
          | none => some (false, { storage with fs := created.2 })
          | some newFile =>
              copyFileContents (fun stage => stages (stage + 1)) driver fuel src newFile
                { storage with fs := created.2 } := by
  rcases joins.above with ⟨parentPath, isPath, joined⟩
  rw [cpRecursive, isPath, Option.bind_some]
  dsimp only
  rw [joined, if_neg (Nat.not_le.mpr joins.short), found]
  dsimp only
  rw [if_neg isFile]

/-- `cp_recursive` of a directory finds or makes a directory and goes on with the children. -/
theorem cpRecursive_directory (joins : JoinsTo storage.fs parent name path)
    (found : storage.fs.node src = some node) (isDirectory : node.type = vfsDirectory) :
    cpRecursive driver caller (fuel + 1) stages src parent name storage =
      (copyDirectory caller (stages 0) path storage).bind fun made =>
        match made.1 with
        | none => some (false, made.2)
        | some newDir => cpChildren driver caller fuel stages src newDir 0 made.2 := by
  rcases joins.above with ⟨parentPath, isPath, joined⟩
  rw [cpRecursive, isPath, Option.bind_some]
  dsimp only
  rw [joined, if_neg (Nat.not_le.mpr joins.short), found]
  dsimp only
  rw [if_pos isDirectory]

theorem cpRecursive_existing {target : Nat} (joins : JoinsTo storage.fs parent name path)
    (entry : vfsFinddir storage.fs parent name = some target)
    (found : storage.fs.node src = some node) (isDirectory : node.type = vfsDirectory) :
    cpRecursive driver caller (fuel + 1) stages src parent name storage =
      cpChildren driver caller fuel stages src target 0 storage := by
  have there : copyDirectory caller (stages 0) path storage = some (some target, storage) := by
    rw [copyDirectory, joins.resolves _ (.refl _), entry]
    rfl
  rw [cpRecursive_directory joins found isDirectory, there]
  rfl

/-- `vfs_create` returns for every path that `cp_recursive` can write down. -/
theorem JoinsTo.creates (joins : JoinsTo storage.fs parent name path) (platform : Platform) :
    ∃ outcome, vfsCreate platform caller.cred caller.umask storage.fs (.of path) none =
      some outcome := by
  rw [vfsCreate, joins.parts]
  exact ⟨_, rfl⟩

end Step

/-! ## One new node -/

section New

variable {storage : Storage} {parent new : Nat} {name : List UInt8} {fs' : Fs} {type : UInt32}
  {cred : Cred} {permissions : UInt32}

/-- A directory in which an entry of a name can be found but is not there yet. -/
structure OffersName (fs : Fs) (parent : Nat) (name : List UInt8) : Prop where
  searched : ∃ node, fs.node parent = some node ∧ node.searched = true
  absent : vfsFinddir fs parent name = none
  short : name.length < vfsNameMax

theorem OffersName.older {fs : Fs} (linked : fs.Linked) (offers : OffersName fs parent name) :
    parent < fs.next := by
  rcases offers.searched with ⟨above, isAbove, -⟩
  exact linked.bounded.lt isAbove

structure NewEntry (storage : Storage) (parent : Nat) (name : List UInt8) (type : UInt32)
    (new : Nat) (storage' : Storage) : Prop where
  grows : GrowsBelow storage parent storage'
  isNew : storage.fs.next ≤ new
  inside : new < storage'.fs.next
  entry : vfsFinddir storage'.fs parent name = some new
  parent_ : storage'.fs.node parent = (storage.fs.node parent).map (VfsNode.attach new)
  node : ∃ node, storage'.fs.node new = some node ∧ node.name = name ∧ node.type = type

theorem CreatedBelow.newEntry (linked : storage.fs.Linked)
    (offers : OffersName storage.fs parent name) (linked' : fs'.Linked)
    (created : CreatedBelow storage.fs parent name type (VfsNode.own cred permissions) new fs') :
    NewEntry storage parent name type new { storage with fs := fs' } ∧
      ∃ now, fs'.node new =
        some ((VfsNode.create now (some parent) name type).own cred permissions) := by
  rcases offers.searched with ⟨above, isAbove, searched⟩
  have older := linked.bounded.lt isAbove
  have live : storage.fs.node parent ≠ none := by
    rw [isAbove]
    exact Option.some_ne_none above
  have nodes := created.nodes linked live
  have whole : nameField name = name := (nameField_eq_iff name).mpr offers.short
  have entry : vfsFinddir fs' parent name = some new := by
    have absent := offers.absent
    rw [vfsFinddir_eq isAbove, if_pos searched] at absent
    rw [nodes.finddir linked isAbove, if_pos searched, absent, whole, Option.none_or,
      if_pos (beq_self_eq_true name)]
  have made : ∃ now, fs'.node new =
      some ((VfsNode.create now (some parent) name type).own cred permissions) := by
    rcases created with ⟨granted, now, made, made_, rfl⟩
    exact ⟨now, by rw [Fs.modify_node_self, ramfsCreateNode_new older made_, Option.map_some]⟩
  refine ⟨⟨⟨linked', nodes.extends linked live, .refl _, fun id old other => ?_,
    fun _ _ holds => holds⟩, nodes.new.ge, ?_, entry, nodes.above, ?_⟩, made⟩
  · exact nodes.others id (by have isNew := nodes.new; omega) other
  · have isNew := nodes.new
    have next := nodes.next
    change new < fs'.next
    omega
  · rcases made with ⟨now, found⟩
    exact ⟨_, found, whole, rfl⟩

/-- `cp_recursive` fails to make a directory whose name is offered, or makes it. -/
theorem copyDirectory_cases {caller : Caller} {platform : Platform} {path : List UInt8}
    {result : Option Nat} {storage' : Storage} (linked : storage.fs.Linked)
    (offers : OffersName storage.fs parent name) (joins : JoinsTo storage.fs parent name path)
    (ran : copyDirectory caller platform path storage = some (result, storage')) :
    (result = none ∧ storage' = storage) ∨
      ∃ new, result = some new ∧ NewEntry storage parent name vfsDirectory new storage' ∧
        ∃ node, storage'.fs.node new = some node ∧ node.children = [] ∧ node.searched = true := by
  rw [copyDirectory, joins.resolves _ (.refl _), offers.absent, Option.bind_some] at ran
  dsimp only at ran
  rcases Option.bind_eq_some_iff.mp ran with ⟨⟨made, fs'⟩, isMade, rest⟩
  rcases vfsMkdir_cases isMade with ⟨rfl, rfl⟩ | ⟨parent', name', new, rfl, creates, created⟩
  · cases rest
    exact Or.inl ⟨rfl, rfl⟩
  have target := creates.target
  rw [joins.parts] at target
  cases target
  rcases created.newEntry linked offers (vfsMkdir_linked linked isMade) with ⟨entry, now, found⟩
  have resolved := joins.resolves fs' entry.grows.extends_
  have finds : vfsFinddir fs' parent name = some new := entry.entry
  dsimp only at rest
  rw [resolved, finds] at rest
  cases rest
  exact Or.inr ⟨new, rfl, entry, _, found, rfl, rfl⟩

/-- The same with the directory itself: it is there or is made, if the call returns. -/
theorem copyDirectory_returns {caller : Caller} (platform : Platform) {path : List UInt8}
    (linked : storage.fs.Linked) (offers : OffersName storage.fs parent name)
    (joins : JoinsTo storage.fs parent name path) :
    ∃ outcome, copyDirectory caller platform path storage = some outcome := by
  rw [copyDirectory, joins.resolves _ (.refl _), offers.absent, Option.bind_some]
  dsimp only
  have returns : ∃ outcome, vfsMkdir platform caller.cred caller.umask storage.fs (.of path) none =
      some outcome := by
    rw [vfsMkdir, joins.parts]
    exact ⟨_, rfl⟩
  rcases returns with ⟨⟨made, fs'⟩, isMade⟩
  rw [isMade, Option.bind_some]
  dsimp only
  rcases vfsMkdir_cases isMade with ⟨rfl, rfl⟩ | ⟨parent', name', new, rfl, creates, created⟩
  · exact ⟨_, rfl⟩
  have target := creates.target
  rw [joins.parts] at target
  cases target
  rcases created.newEntry linked offers (vfsMkdir_linked linked isMade) with ⟨entry, -⟩
  dsimp only
  rw [joins.resolves fs' entry.grows.extends_]
  exact ⟨_, rfl⟩

end New

/-! ## One new file -/

section NewFile

variable {source target : Nat} {beside : VfsNode} {bytes : List UInt8}

/-- Every other file keeps its bytes while a file is written by the loop of
`copy_file_contents`. -/
theorem copyLoop_beside {driver fuel : Nat} :
    ∀ {stages : Nat → Platform} {off : Nat} {storage storage' : Storage} {ended : Bool}
      {other : VfsNode}, storage.fs.node target = some other → other.ops = .ramfs →
      copyLoop driver source target fuel stages off storage = some (ended, storage') →
      storage.store.SameGeometry storage'.store ∧
        ∀ node bytes, VfsNode.HoldsBytes node storage.store storage.disk bytes →
          BlocksApart node.blockList other.blockList →
          node.HoldsBytes storage'.store storage'.disk bytes := by
  induction fuel with
  | zero =>
      intro stages off storage storage' ended other _ _ ran
      cases ran
  | succ fuel known =>
      intro stages off storage storage' ended other there ordinary ran
      rw [copyLoop] at ran
      rcases Option.bind_eq_some_iff.mp ran with ⟨⟨read, same⟩, isRead, rest⟩
      have state := vfsRead_state isRead
      dsimp only at rest
      split at rest
      · cases rest
        rw [state]
        exact ⟨.refl _, fun _ _ holds _ => holds⟩
      rcases Option.bind_eq_some_iff.mp rest with ⟨⟨count, middle⟩, written, later⟩
      have there' : same.fs.node target = some other := by rw [state]; exact there
      rw [vfsWrite, there'] at written
      simp only [ordinary] at written
      rcases ramfsWrite_takes there' written with ⟨other', added, takes⟩
      have geometry : storage.store.SameGeometry middle.store := by
        have same := takes.geometry
        rw [state] at same
        exact same
      have keeps : ∀ node bytes, VfsNode.HoldsBytes node storage.store storage.disk bytes →
          BlocksApart node.blockList other.blockList →
          node.HoldsBytes middle.store middle.disk bytes ∧
            BlocksApart node.blockList other'.blockList := by
        intro node bytes holds apart
        have holds' : node.HoldsBytes same.store same.disk bytes := by rw [state]; exact holds
        exact ⟨takes.beside holds' apart, takes.apart holds'.lists apart⟩
      dsimp only at later
      split at later
      · cases later
        exact ⟨geometry, fun node bytes holds apart => (keeps node bytes holds apart).1⟩
      split at later
      · cases later
        exact ⟨geometry, fun node bytes holds apart => (keeps node bytes holds apart).1⟩
      have there'' : middle.fs.node target = some other' := by
        rw [takes.fs, Fs.modify_node_self, there', Option.map_some]
      have ordinary' : other'.ops = .ramfs := by
        rw [takes.contents]
        exact ordinary
      rcases known there'' ordinary' later with ⟨geometry', keeps'⟩
      refine ⟨geometry.trans geometry', fun node bytes holds apart => ?_⟩
      rcases keeps node bytes holds apart with ⟨holds', apart'⟩
      exact keeps' node bytes holds' apart'

/-- The state in which a new file has been created, and a file to copy to it. -/
structure ReadyToCopy (storage : Storage) (source : Nat) (node : VfsNode) (bytes : List UInt8)
    (target : Nat) (ready : Storage) : Prop where
  different : source ≠ target
  found : ready.fs.node source = some node
  holds : node.HoldsBytes ready.store ready.disk bytes
  there : ∃ there, ready.fs.node target = some there ∧ there.ops = .ramfs ∧
    there.HoldsBytes ready.store ready.disk [] ∧ there.blockList = []
  geometry : storage.store.SameGeometry ready.store

theorem apart_of_nil (blocks : List UInt32) : BlocksApart blocks [] :=
  fun _ _ listed => absurd listed List.not_mem_nil

/-- `vfs_create` of an offered name fails, or creates a file to copy to. -/
theorem vfsCreate_ready {storage : Storage} {parent : Nat} {name path : List UInt8}
    {platform : Platform} {cred : Cred} {umask : UInt32} {result : Option Nat} {fs' : Fs}
    {node : VfsNode} (linked : storage.fs.Linked) (offers : OffersName storage.fs parent name)
    (joins : JoinsTo storage.fs parent name path)
    (found : storage.fs.node source = some node) (notParent : source ≠ parent)
    (holds : node.HoldsBytes storage.store storage.disk bytes)
    (made : vfsCreate platform cred umask storage.fs (.of path) none = some (result, fs')) :
    (result = none ∧ fs' = storage.fs) ∨
      ∃ new, result = some new ∧
        NewEntry storage parent name vfsFile new { storage with fs := fs' } ∧
        ReadyToCopy storage source node bytes new { storage with fs := fs' } := by
  rcases vfsCreate_cases made with ⟨rfl, rfl⟩ | ⟨parent', name', new, rfl, rfl, target, entry, -⟩ |
    ⟨parent', name', new, rfl, creates, created⟩
  · exact Or.inl ⟨rfl, rfl⟩
  · rw [joins.parts] at target
    cases target
    cases offers.absent.symm.trans entry
  · have target := creates.target
    rw [joins.parts] at target
    cases target
    rcases created.newEntry linked offers (vfsCreate_linked linked made) with ⟨entry, now, isNew⟩
    have below := linked.bounded.lt found
    have different : source ≠ new := by
      have isNew := entry.isNew
      omega
    have still := (entry.grows.nodes source below notParent).trans found
    have empty := VfsNode.create_holds holds now (some parent) name cred
    exact Or.inr ⟨new, rfl, entry, different, still, holds, ⟨_, isNew, rfl, empty _, rfl⟩, .refl _⟩

/-- The copy to a new file: the entry stays new, and after a success it holds the bytes. -/
theorem ReadyToCopy.copies {storage ready after : Storage} {parent new : Nat} {name : List UInt8}
    {node : VfsNode} {stages : Nat → Platform} {driver fuel : Nat} {ended : Bool}
    (isReady : ReadyToCopy storage source node bytes new ready)
    (entry : NewEntry storage parent name vfsFile new ready)
    (size : bytes.length + (blockSize - 1) < 2 ^ 32)
    (reads : ∀ stage, (stages stage).faults.SparesReads storage.store node.blockList)
    (ran : copyFileContents stages driver fuel source new ready = some (ended, after)) :
    NewEntry storage parent name vfsFile new after ∧
      (ended = true → ∃ there, after.fs.node new = some there ∧
        there.HoldsBytes after.store after.disk bytes) := by
  rcases isReady.there with ⟨there, isThere, ordinary, empty, noBlocks⟩
  have apart : ∀ blocks, BlocksApart blocks there.blockList := by
    intro blocks
    rw [noBlocks]
    exact apart_of_nil blocks
  rcases CopyAt.begin isReady.different isReady.found isReady.holds isThere empty (apart _) with
    ⟨truncated, start⟩
  have reads' : ∀ stage, (stages stage).faults.SparesReads ready.store node.blockList :=
    fun stage block member lba sector => reads stage block member lba
      ((isReady.geometry.blockSectors block.toNat lba).mp sector)
  rcases copyLoop_copies isReady.different size reads' start (Nat.zero_mod _) (Nat.zero_le _) ran
    with ⟨refilled, -, -, ends⟩
  have cut : (ready.truncate new).fs.node new = some there.truncate := by
    rw [Storage.truncate, Fs.modify_node_self, isThere, Option.map_some]
  rcases copyLoop_beside cut ordinary ran with ⟨geometry, beside⟩
  have changed := truncated.trans refilled
  have notParent : parent ≠ new := by
    intro same
    have member := (vfsFinddir_mem entry.entry).1
    have below := (entry.grows.linked.listed parent new member).1
    omega
  refine ⟨⟨⟨changed.linked entry.grows.linked, entry.grows.extends_.trans changed.extends,
    entry.grows.geometry.trans geometry, fun id old other => ?_, fun node bytes holds => ?_⟩,
    entry.isNew, ?_, ?_, ?_, ?_⟩, fun success => ?_⟩
  · have isNew := entry.isNew
    rw [changed.others id (by omega), entry.grows.nodes id old other]
  · exact beside node bytes (entry.grows.holds node bytes holds) (apart _)
  · rw [changed.next]
    exact entry.inside
  · rw [changed.finddir]
    exact entry.entry
  · rw [changed.others parent notParent]
    exact entry.parent_
  · rcases entry.node with ⟨made, isMade, named, typed⟩
    rcases changed.self with ⟨before, last, held, held', same⟩
    cases isMade.symm.trans held
    exact ⟨last, held', by rw [same]; exact named, by rw [same]; exact typed⟩
  · rcases ends success with ⟨last, held, holds, -⟩
    exact ⟨last, held, holds⟩

theorem ReadyToCopy.returns {storage ready : Storage} {new : Nat} {node : VfsNode}
    {stages : Nat → Platform} {driver fuel : Nat}
    (isReady : ReadyToCopy storage source node bytes new ready)
    (size : bytes.length + (blockSize - 1) < 2 ^ 32)
    (reads : ∀ stage, (stages stage).faults.SparesReads storage.store node.blockList)
    (enough : bytes.length < fuel) :
    ∃ outcome, copyFileContents stages driver fuel source new ready = some outcome := by
  rcases isReady.there with ⟨there, isThere, -, empty, noBlocks⟩
  have apart : BlocksApart node.blockList there.blockList := by
    rw [noBlocks]
    exact apart_of_nil _
  have start := (CopyAt.begin isReady.different isReady.found isReady.holds isThere empty apart).2
  have reads' : ∀ stage, (stages stage).faults.SparesReads ready.store node.blockList :=
    fun stage block member lba sector => reads stage block member lba
      ((isReady.geometry.blockSectors block.toNat lba).mp sector)
  have chunk : readBuf = 4096 := rfl
  exact copyLoop_returns isReady.different size reads' start (Nat.zero_mod _) (Nat.zero_le _)
    (by rw [chunk]; omega)

end NewFile

/-! ## The recursion -/

section Recursion

structure NewTree (before : Storage) (parent : Nat) (name : List UInt8) (new : Nat)
    (after : Storage) (tree : FileTree) : Prop where
  isNew : before.fs.next ≤ new
  entry : vfsFinddir after.fs parent name = some new
  parent_ : after.fs.node parent = (before.fs.node parent).map (VfsNode.attach new)
  named : ∃ node, after.fs.node new = some node ∧ node.name = name
  shows : Shows after (fun id => before.fs.next ≤ id ∧ id < after.fs.next) (fun _ => True) new tree

variable (driver : Nat) (caller : Caller) (start : Storage) (platforms : Platform → Prop)

def ReadableNode (node : VfsNode) : Prop :=
  ∀ platform, platforms platform → platform.faults.SparesReads start.store node.blockList

/-- What the walk is given: the state it starts in, and behaviours of the platform. -/
structure WalkState (stages : Nat → Platform) (storage : Storage) : Prop where
  stages : ∀ stage, platforms (stages stage)
  geometry : start.store.SameGeometry storage.store
  linked : storage.fs.Linked

def CopiesTreeAt (fuel : Nat) : Prop :=
  ∀ {stages : Nat → Platform} {src parent : Nat} {name : List UInt8} {before after : Storage}
    {ended : Bool} {tree : FileTree} {way : List (List UInt8)},
    WalkState start platforms stages before →
    Shows before (fun id => id < before.fs.next ∧ id ≠ parent) (ReadableNode start platforms) src
      tree →
    before.fs.NamedPath parent way → OffersName before.fs parent name → PathName name →
    Fits (way ++ [name]) tree →
    cpRecursive driver caller fuel stages src parent name before = some (ended, after) →
    GrowsBelow before parent after ∧
      (ended = true → ∃ new, NewTree before parent name new after tree)

/-- The copies of the first children of a directory, and what the other ones need. -/
structure ChildrenCopied (src dir index : Nat) (way : List (List UInt8))
    (entries : List (List UInt8 × FileTree)) (node dirNode : VfsNode) (storage : Storage) :
    Prop where
  found : storage.fs.node src = some node
  below : src < storage.fs.next
  different : src ≠ dir
  rest : ShowsEach storage (fun id => id < storage.fs.next ∧ id ≠ dir)
    (ReadableNode start platforms) node.children entries
  there : storage.fs.node dir = some dirNode
  searched : dirNode.searched = true
  copied : ShowsEach storage (fun id => dir < id ∧ id < storage.fs.next) (fun _ => True)
    dirNode.children (entries.take index)
  named : storage.fs.NamedPath dir way
  fits : FitsEach way entries
  distinct : (entries.map Prod.fst).Nodup

def CopiesChildrenAt (fuel : Nat) : Prop :=
  ∀ {stages : Nat → Platform} {src dir index : Nat} {before after : Storage} {ended : Bool}
    {way : List (List UInt8)} {entries : List (List UInt8 × FileTree)} {node dirNode : VfsNode},
    WalkState start platforms stages before →
    ChildrenCopied start platforms src dir index way entries node dirNode before →
    cpChildren driver caller fuel stages src dir index before = some (ended, after) →
    GrowsBelow before dir after ∧
      (ended = true → ∃ last, after.fs.node dir = some last ∧ last.type = vfsDirectory ∧
        ShowsEach after (fun id => dir < id ∧ id < after.fs.next) (fun _ => True) last.children
          entries)

variable {driver caller start platforms}

theorem WalkState.child {stages : Nat → Platform} {before after : Storage} {dir : Nat}
    (walk : WalkState start platforms stages before) (grows : GrowsBelow before dir after)
    (stages' : Nat → Platform) (chosen : ∀ stage, platforms (stages' stage)) :
    WalkState start platforms stages' after :=
  ⟨chosen, walk.geometry.trans grows.geometry, grows.linked⟩

theorem WalkState.reads {stages : Nat → Platform} {storage : Storage} {node : VfsNode}
    (walk : WalkState start platforms stages storage) (fine : ReadableNode start platforms node)
    (stage : Nat) : (stages stage).faults.SparesReads storage.store node.blockList :=
  fun block member lba sector => fine _ (walk.stages stage) block member lba
    ((walk.geometry.blockSectors block.toNat lba).mp sector)

theorem VfsNode.type_of_searched {node : VfsNode} (searched : node.searched = true) :
    node.type = vfsDirectory := by
  rw [VfsNode.searched, decide_eq_true_eq] at searched
  exact searched.2.2

theorem ChildrenCopied.offers {src dir index : Nat} {way : List (List UInt8)}
    {entries : List (List UInt8 × FileTree)} {node dirNode : VfsNode} {storage : Storage}
    {name : List UInt8} {tree : FileTree}
    (copied : ChildrenCopied start platforms src dir index way entries node dirNode storage)
    (entry : entries[index]? = some (name, tree)) :
    OffersName storage.fs dir name ∧ PathName name ∧ Fits (way ++ [name]) tree := by
  rcases copied.fits.get (List.mem_of_getElem? entry) with ⟨plain, short, fits⟩
  have notYet : name ∉ (entries.take index).map Prod.fst := by
    intro again
    rcases List.getElem?_eq_some_iff.mp entry with ⟨inside, same⟩
    have parts : entries = entries.take index ++ (name, tree) :: entries.drop (index + 1) := by
      rw [← same, ← List.drop_eq_getElem_cons inside, List.take_append_drop]
    have distinct := copied.distinct
    rw [parts, List.map_append, List.map_cons] at distinct
    exact (List.nodup_append.mp distinct).2.2 _ again _ List.mem_cons_self rfl
  refine ⟨⟨⟨dirNode, copied.there, copied.searched⟩, ?_, short⟩, plain, fits⟩
  rw [vfsFinddir_eq copied.there, if_pos copied.searched]
  exact copied.copied.find?_none notYet

theorem ChildrenCopied.begin {src parent new : Nat} {way : List (List UInt8)}
    {entries : List (List UInt8 × FileTree)} {node newNode : VfsNode} {before middle : Storage}
    {name : List UInt8} (kept : src < before.fs.next ∧ src ≠ parent)
    (found : before.fs.node src = some node)
    (below : ShowsEach before (fun id => id < before.fs.next ∧ id ≠ parent)
      (ReadableNode start platforms) node.children entries)
    (named : before.fs.NamedPath parent way) (plain : PathName name)
    (entry : NewEntry before parent name vfsDirectory new middle)
    (isNew : middle.fs.node new = some newNode) (noChildren : newNode.children = [])
    (searched : newNode.searched = true) (fits : FitsEach (way ++ [name]) entries)
    (distinct : (entries.map Prod.fst).Nodup) :
    newNode.name = name ∧
      ChildrenCopied start platforms src new 0 (way ++ [name]) entries node newNode middle := by
  have nameOfNew : newNode.name = name := by
    rcases entry.node with ⟨made, isMade, sameName, -⟩
    cases isNew.symm.trans isMade
    exact sameName
  have more := entry.grows.extends_.more
  have fresh := entry.isNew
  refine ⟨nameOfNew, (entry.grows.nodes src kept.1 kept.2).trans found,
    Nat.lt_of_lt_of_le kept.1 more, by omega, ?_, isNew, searched, ?_, ?_, fits, distinct⟩
  · apply below.mono _ (fun _ fine => fine) entry.grows.holds
    rintro id ⟨low, other⟩
    exact ⟨entry.grows.nodes id low other, by omega, by omega⟩
  · rw [noChildren, List.take_zero]
    exact .nil
  · rw [← nameOfNew]
    exact .child (named.extends entry.grows.extends_) isNew
      (by rw [nameOfNew]; exact entry.entry) (by rw [nameOfNew]; exact plain)

theorem ChildrenCopied.next {src dir index new : Nat} {way : List (List UInt8)}
    {entries : List (List UInt8 × FileTree)} {node dirNode : VfsNode} {before after : Storage}
    {name : List UInt8} {tree : FileTree}
    (copied : ChildrenCopied start platforms src dir index way entries node dirNode before)
    (linked : before.fs.Linked) (grows : GrowsBelow before dir after)
    (entry : entries[index]? = some (name, tree)) (made : NewTree before dir name new after tree) :
    ChildrenCopied start platforms src dir (index + 1) way entries node (dirNode.attach new)
      after := by
  have more := grows.extends_.more
  have dirBelow := linked.bounded.lt copied.there
  refine ⟨(grows.nodes src copied.below copied.different).trans copied.found,
    Nat.lt_of_lt_of_le copied.below more, copied.different, ?_, ?_, copied.searched, ?_,
    copied.named.extends grows.extends_, copied.fits, copied.distinct⟩
  · apply copied.rest.mono _ (fun _ fine => fine) grows.holds
    rintro id ⟨low, other⟩
    exact ⟨grows.nodes id low other, Nat.lt_of_lt_of_le low more, other⟩
  · rw [made.parent_, copied.there, Option.map_some]
  · have front : ShowsEach after (fun id => dir < id ∧ id < after.fs.next) (fun _ => True)
        dirNode.children (entries.take index) := by
      apply copied.copied.mono _ (fun _ fine => fine) grows.holds
      rintro id ⟨high, low⟩
      exact ⟨grows.nodes id low (Nat.ne_of_gt high), high, Nat.lt_of_lt_of_le low more⟩
    have last : Shows after (fun id => dir < id ∧ id < after.fs.next) (fun _ => True) new tree := by
      apply made.shows.mono _ (fun _ fine => fine) (fun _ _ holds => holds)
      rintro id ⟨high, low⟩
      exact ⟨rfl, Nat.lt_of_lt_of_le dirBelow high, low⟩
    rcases made.named with ⟨newNode, isNew, rfl⟩
    rw [List.take_add_one, entry]
    exact front.append (.cons isNew last .nil)

theorem copiesChildren_succ {fuel : Nat} (tree : CopiesTreeAt driver caller start platforms fuel)
    (children : CopiesChildrenAt driver caller start platforms fuel) :
    CopiesChildrenAt driver caller start platforms (fuel + 1) := by
  intro stages src dir index before after ended way entries node dirNode walk copied ran
  rw [cpChildren, Fs.childrenOf_eq copied.found] at ran
  rcases copied.rest.split with ⟨none_, length⟩ | ⟨child, below, shown, isChild, held, shows,
    entry⟩
  · rw [none_] at ran
    cases ran
    refine ⟨.refl walk.linked dir, fun _ => ⟨dirNode, copied.there,
      VfsNode.type_of_searched copied.searched, ?_⟩⟩
    have all := copied.copied
    rwa [List.take_of_length_le length] at all
  · rw [isChild] at ran
    dsimp only at ran
    rw [held] at ran
    rcases Option.bind_eq_some_iff.mp ran with ⟨⟨first, middle⟩, ranChild, later⟩
    rcases copied.offers entry with ⟨offers, plain, fits⟩
    have chosen : ∀ stage, platforms (childStages stages index stage) :=
      fun stage => walk.stages _
    rcases tree (walk.child (.refl walk.linked dir) _ chosen) shows copied.named offers plain fits
      ranChild with ⟨grows, made⟩
    dsimp only at later
    cases first with
    | false =>
        cases later
        exact ⟨grows, fun never => absurd never (by decide)⟩
    | true =>
        rcases made rfl with ⟨new, made⟩
        rcases children (walk.child grows stages walk.stages)
          (copied.next walk.linked grows entry made) later with ⟨grows', ends⟩
        exact ⟨grows.trans grows', ends⟩

theorem copiesTree_succ {fuel : Nat}
    (children : CopiesChildrenAt driver caller start platforms fuel) :
    CopiesTreeAt driver caller start platforms (fuel + 1) := by
  intro stages src parent name before after ended tree way walk shows named offers plain fits ran
  have joins := named.joins walk.linked plain fits.room
  cases shows with
  | @file _ node bytes kept found isFile fine holds =>
      rw [cpRecursive_file joins found isFile] at ran
      rcases Option.bind_eq_some_iff.mp ran with ⟨⟨result, fs'⟩, made, later⟩
      rcases vfsCreate_ready walk.linked offers joins found kept.2 holds made with
        ⟨rfl, rfl⟩ | ⟨new, rfl, entry, isReady⟩
      · cases later
        exact ⟨.refl walk.linked parent, fun never => absurd never (by decide)⟩
      cases fits with
      | file _ size =>
          rcases isReady.copies entry size (fun stage => walk.reads fine (stage + 1)) later with
            ⟨entry', ends⟩
          refine ⟨entry'.grows, fun success => ⟨new, entry'.isNew, entry'.entry, entry'.parent_,
            ?_, ?_⟩⟩
          · rcases entry'.node with ⟨made, isMade, sameName, -⟩
            exact ⟨made, isMade, sameName⟩
          · rcases ends success with ⟨made, isMade, held⟩
            rcases entry'.node with ⟨made', isMade', -, typed⟩
            cases isMade.symm.trans isMade'
            exact .file ⟨entry'.isNew, entry'.inside⟩ isMade (by rw [typed]; decide) trivial held
  | @directory _ node entries kept found isDirectory below =>
      rw [cpRecursive_directory joins found isDirectory] at ran
      rcases Option.bind_eq_some_iff.mp ran with ⟨⟨result, middle⟩, made, later⟩
      rcases copyDirectory_cases walk.linked offers joins made with ⟨rfl, rfl⟩ | ⟨new, rfl, entry,
        newNode, isNew, noChildren, searched⟩
      · cases later
        exact ⟨.refl walk.linked parent, fun never => absurd never (by decide)⟩
      cases fits with
      | directory _ distinct fitsBelow =>
          rcases ChildrenCopied.begin kept found below named plain entry isNew noChildren searched
            fitsBelow distinct with ⟨nameOfNew, copied⟩
          have fresh := entry.isNew
          rcases children (walk.child entry.grows stages walk.stages) copied later with
            ⟨grows, ends⟩
          refine ⟨entry.grows.below fresh grows, fun success => ?_⟩
          rcases ends success with ⟨last, isLast, lastType, shown⟩
          have older := offers.older walk.linked
          have stillOlder := Nat.lt_of_lt_of_le older entry.grows.extends_.more
          rcases grows.extends_.kept new newNode isNew with ⟨last', isLast', sameName, -⟩
          cases isLast.symm.trans isLast'
          refine ⟨new, fresh, grows.extends_.finds _ _ _ entry.entry, ?_,
            ⟨last, isLast, sameName.trans nameOfNew⟩, ?_⟩
          · rw [grows.nodes parent stillOlder (by omega), entry.parent_]
          · have inside := grows.linked.bounded.lt isLast
            refine .directory ⟨fresh, inside⟩ isLast lastType (shown.mono ?_ (fun _ fine => fine)
              fun _ _ holds => holds)
            rintro id ⟨high, low⟩
            exact ⟨rfl, by omega, low⟩

/-- `cp_recursive` and its loop copy trees, with any fuel. -/
theorem cpRecursive_copies (fuel : Nat) :
    CopiesTreeAt driver caller start platforms fuel ∧
      CopiesChildrenAt driver caller start platforms fuel := by
  induction fuel with
  | zero =>
      constructor
      · intro stages src parent name before after ended tree way _ _ _ _ _ _ ran
        rw [cpRecursive] at ran
        cases ran
      · intro stages src dir index before after ended way entries node dirNode _ _ ran
        rw [cpChildren] at ran
        cases ran
  | succ fuel known =>
      exact ⟨copiesTree_succ known.2, copiesChildren_succ known.1 known.2⟩

/-! ## That it returns -/

/-- With the fuel that a tree costs, `cp_recursive` returns, and so does its loop. -/
theorem cpRecursive_returns (fuel : Nat) :
    (∀ {stages : Nat → Platform} {src parent : Nat} {name : List UInt8} {before : Storage}
      {tree : FileTree} {way : List (List UInt8)}, WalkState start platforms stages before →
      Shows before (fun id => id < before.fs.next ∧ id ≠ parent) (ReadableNode start platforms)
        src tree →
      before.fs.NamedPath parent way → OffersName before.fs parent name → PathName name →
      Fits (way ++ [name]) tree → tree.cost ≤ fuel →
      ∃ outcome, cpRecursive driver caller fuel stages src parent name before = some outcome) ∧
    ∀ {stages : Nat → Platform} {src dir index : Nat} {before : Storage}
      {way : List (List UInt8)} {entries : List (List UInt8 × FileTree)} {node dirNode : VfsNode},
      WalkState start platforms stages before →
      ChildrenCopied start platforms src dir index way entries node dirNode before →
      FileTree.costs (entries.drop index) ≤ fuel →
      ∃ outcome, cpChildren driver caller fuel stages src dir index before = some outcome := by
  induction fuel with
  | zero =>
      constructor
      · intro stages src parent name before tree way _ _ _ _ _ _ enough
        cases tree with
        | file bytes =>
            rw [FileTree.cost] at enough
            omega
        | directory entries =>
            rw [FileTree.cost] at enough
            omega
      · intro stages src dir index before way entries node dirNode _ _ enough
        have positive := FileTree.costs_pos (entries.drop index)
        omega
  | succ fuel known =>
      constructor
      · intro stages src parent name before tree way walk shows named offers plain fits enough
        have joins := named.joins walk.linked plain fits.room
        cases shows with
        | @file _ node bytes kept found isFile fine holds =>
            rw [cpRecursive_file joins found isFile]
            rcases @JoinsTo.creates caller _ _ _ _ joins (stages 0) with ⟨⟨result, fs'⟩, made⟩
            rw [made, Option.bind_some]
            rcases vfsCreate_ready walk.linked offers joins found kept.2 holds made with
              ⟨rfl, rfl⟩ | ⟨new, rfl, entry, isReady⟩
            · exact ⟨_, rfl⟩
            cases fits with
            | file _ size =>
                rw [FileTree.cost] at enough
                exact isReady.returns size (fun stage => walk.reads fine (stage + 1)) (by omega)
        | @directory _ node entries kept found isDirectory below =>
            rw [cpRecursive_directory joins found isDirectory]
            rcases copyDirectory_returns (stages 0) walk.linked offers joins with
              ⟨⟨result, middle⟩, made⟩
            rw [made, Option.bind_some]
            rcases copyDirectory_cases walk.linked offers joins made with ⟨rfl, rfl⟩ | ⟨new, rfl,
              entry, newNode, isNew, noChildren, searched⟩
            · exact ⟨_, rfl⟩
            cases fits with
            | directory _ distinct fitsBelow =>
                rcases ChildrenCopied.begin kept found below named plain entry isNew noChildren
                  searched fitsBelow distinct with ⟨-, copied⟩
                rw [FileTree.cost] at enough
                exact known.2 (walk.child entry.grows stages walk.stages) copied
                  (by rw [List.drop_zero]; omega)
      · intro stages src dir index before way entries node dirNode walk copied enough
        rw [cpChildren, Fs.childrenOf_eq copied.found]
        rcases copied.rest.split with ⟨none_, length⟩ | ⟨child, below, shown, isChild, held, shows,
          entry⟩
        · rw [none_]
          exact ⟨_, rfl⟩
        rw [isChild]
        dsimp only
        rw [held]
        dsimp only
        rcases copied.offers entry with ⟨offers, plain, fits⟩
        have chosen : ∀ stage, platforms (childStages stages index stage) :=
          fun stage => walk.stages _
        have walkChild := walk.child (.refl walk.linked dir) _ chosen
        have costs := costs_ge entry
        rcases known.1 walkChild shows copied.named offers plain fits (by omega) with
          ⟨⟨first, middle⟩, ranChild⟩
        rcases (cpRecursive_copies fuel).1 walkChild shows copied.named offers plain fits ranChild
          with ⟨grows, made⟩
        rw [ranChild, Option.bind_some]
        cases first with
        | false => exact ⟨_, rfl⟩
        | true =>
            rcases made rfl with ⟨new, made⟩
            exact known.2 (walk.child grows stages walk.stages)
              (copied.next walk.linked grows entry made) (by omega)

end Recursion

/-! ## Joined paths -/

section Joined

variable {base a b : List UInt8}

theorem pathJoin_tokens (a : List UInt8) (relative : b.head? ≠ some slash) :
    pathTokens (pathJoin a b) = pathTokens a ++ pathTokens b := by
  rw [pathJoin, if_neg relative, List.append_assoc]
  split
  · rename_i ends
    rcases List.getLast?_eq_some_iff.mp ends with ⟨front, rfl⟩
    rw [List.append_assoc]
    exact (Components.tokens_append_sep front b).trans (congrArg (· ++ _)
      ((Components.tokens_append_sep front []).trans (List.append_nil _)).symm)
  · exact Components.tokens_append_sep a b

theorem pathWork_short (small : base.length < pathMax) (short : b.length < pathMax) :
    pathWork base (.of b) = if b.head? = some slash then b else pathJoin base b := by
  rw [pathMax] at small short
  have isText : (PathArg.of b).text = b := rfl
  rw [pathWork_eq, List.take_of_length_le, pathJoined, pathIsAbsolute, isText, pathJoin]
  · by_cases absolute : b.head? = some slash
    · simp [absolute, PathArg.of]
    · rw [if_neg (by simpa [PathArg.of] using absolute), if_neg absolute, if_neg absolute]
      split_ifs <;> simp_all
  · rw [pathJoined, isText]
    split_ifs
    · omega
    · simp only [List.length_append, List.length_singleton]
      omega
    · rw [List.length_append]
      omega

/-- Joined paths mean what the second one means in the directory that the first one names. -/
theorem pathNormalize_pathJoin {dir : List UInt8}
    (normalized : pathNormalize base (.of a) = some dir) (given : a ≠ [])
    (relative : b.head? ≠ some slash) (small : base.length < pathMax)
    (short : (pathJoin a b).length < pathMax) :
    pathNormalize base (.of (pathJoin a b)) = pathNormalize dir (.of b) := by
  have length : a.length + b.length ≤ (pathJoin a b).length := by
    rw [pathJoin, if_neg relative]
    simp only [List.length_append]
    omega
  have head : (pathJoin a b).head? = a.head? := by
    rw [pathJoin, List.append_assoc, List.head?_append_of_ne_nil _ given]
  have whole : pathTokens (pathWork base (.of (pathJoin a b))) =
      pathTokens (pathWork base (.of a)) ++ pathTokens b := by
    rw [pathWork_short small short, pathWork_short small (by omega), head]
    split
    · exact pathJoin_tokens a relative
    · rename_i other
      rw [pathJoin_tokens base (by rwa [head]), pathJoin_tokens a relative,
        pathJoin_tokens base other, List.append_assoc]
  rw [pathNormalize] at normalized
  generalize stacked : (pathTokens (pathWork base (.of a))).foldl pathPush [] = names at normalized
  have valid : ∀ name ∈ names, PathName name := stacked ▸ foldl_pathPush_names
    (fun _ member => Components.isComponent_of_mem_tokens member) (by simp)
  have few : names.length ≤ 64 := stacked ▸ foldl_pathPush_length _ _ (by simp)
  split at normalized
  · rename_i fits
    cases normalized
    rw [pathNormalize, whole, List.foldl_append, stacked, pathNormalize,
      pathWork_short fits (by omega), if_neg relative, pathJoin_tokens _ relative,
      pathTokens_pathBuild valid, List.foldl_append, foldl_pathPush_names_self valid few]
  · cases normalized

end Joined

theorem getPathLoop_short {fs : Fs} {fuel id : Nat} {rev path : List UInt8}
    (small : rev.length < pathMax) (looped : getPathLoop fs fuel id rev = some path) :
    path.length < pathMax := by
  induction fuel generalizing id rev with
  | zero => cases looped
  | succ fuel known =>
      rw [getPathLoop] at looped
      split at looped
      · cases looped
      split at looped
      · cases looped
        exact small
      · simp only at looped
        split at looped
        · exact known ‹_› looped
        · cases looped

/-- In every run, joined paths lead where the second one leads in the directory of the first. -/
theorem vfsResolve_pathJoin {storage : Storage} (reached : Reachable storage) {a b : List UInt8}
    {cwd : Option Nat} {dir : Nat} (first : vfsResolve storage.fs (.of a) cwd = some (some dir))
    (given : a ≠ []) (relative : b.head? ≠ some slash) (short : (pathJoin a b).length < pathMax) :
    vfsResolve storage.fs (.of (pathJoin a b)) cwd = vfsResolve storage.fs (.of b) (some dir) := by
  rcases vfsResolve_named reached.linked first with ⟨norm, names, normalized, output, named⟩
  have path := vfsGetPath_named reached.linked named (output.built ▸ output.short)
  rw [← output.built] at path
  have second : absNormalize storage.fs (.of b) (some dir) = pathNormalize norm (.of b) := by
    rw [absNormalize, if_neg (by simpa [pathIsAbsolute, PathArg.of] using relative)]
    exact congrArg (Option.bind · _) path
  refine congrArg (Option.map _) ?_
  have head : pathIsAbsolute (.of (pathJoin a b)) = pathIsAbsolute (.of a) := by
    simp only [pathIsAbsolute, PathArg.of]
    rw [pathJoin, List.append_assoc, List.head?_append_of_ne_nil _ given]
  rw [second, absNormalize, head]
  rw [absNormalize] at normalized
  split at normalized
  · rw [if_pos ‹_›]
    exact pathNormalize_pathJoin normalized given relative (by decide) short
  rw [if_neg ‹_›]
  split at normalized
  · exact pathNormalize_pathJoin normalized given relative (by decide) short
  · rcases Option.bind_eq_some_iff.mp normalized with ⟨base, isBase, normalized⟩
    rw [isBase, Option.bind_some]
    refine pathNormalize_pathJoin normalized given relative ?_ short
    rcases Option.map_eq_some_iff.mp isBase with ⟨rev, looped, rfl⟩
    split
    · decide
    · exact getPathLoop_short (by decide) looped

theorem vfsResolve_pathJoin_boot : ∃ storage, rootRun [] = some storage ∧
    vfsResolve storage.fs (.of (pathJoin (literal "etc/..//home/./user") (literal "../x"))) none =
      vfsResolve storage.fs (.of (literal "../x")) (some 9) := by
  rcases Option.map_eq_some_iff.mp rootRun_way with ⟨storage, ran, first⟩
  exact ⟨storage, ran, vfsResolve_pathJoin (rootRun_reachable ran) first (by decide) (by decide)
    (by decide)⟩

/-- The directory and the last component of a normal form, joined, are the normal form. -/
theorem pathJoin_dirname_basename (base : List UInt8) (path : PathArg) :
    (pathNormalize base path).map (fun norm => pathJoin (pathDirname norm) (pathBasename norm)) =
      pathNormalize base path := by
  cases normalized : pathNormalize base path with
  | none => rfl
  | some norm =>
      rcases pathNormalize_output normalized with ⟨names, rfl, valid, -, -⟩
      rw [Option.map_some, pathBasename_pathBuild valid]
      rcases List.eq_nil_or_concat names with rfl | ⟨front, last, rfl⟩
      · decide
      · rw [List.concat_eq_append] at valid ⊢
        have isLast := valid last (by simp)
        rw [pathDirname_pathBuild isLast, List.getLast?_concat, Option.getD_some]
        exact congrArg some (pathJoin_pathBuild (fun other member =>
          valid other (List.mem_append_left _ member)) isLast)

end Trinux
