import Trinux.Shell.CopyTree

namespace Trinux

open Bytes

/-!
# Where a tree can be copied

`cp_recursive` never asks whether a destination is a node of the source or has entries of its own.
The copy is right if the destination is new, or an empty directory or a file outside of the
source, and if all its paths fit their buffers.
-/

/-! ## What the command promises -/

structure NamesTree (caller : Caller) (src : List UInt8) (storage : Storage) (id : Nat)
    (tree : FileTree) : Prop where
  path : vfsResolve storage.fs (.of src) caller.cwd = some (some id)
  shows : Shows storage (fun _ => True) (fun _ => True) id tree

def LeadsToTree (caller : Caller) (dst : List UInt8) (before after : Storage)
    (tree : FileTree) : Prop :=
  ∃ norm new, absNormalize before.fs (.of dst) caller.cwd = some norm ∧
    vfsResolve after.fs (.of norm) none = some (some new) ∧
    Shows after (fun _ => True) (fun _ => True) new tree

/-- `cp -r` returns, and after a success the destination is a tree with the structure and the
contents that the source had. -/
structure CpTreeCopies (stages : Nat → Platform) (driver : Nat) (caller : Caller)
    (src dst : List UInt8) (storage : Storage) : Prop where
  returns : ∀ id tree, NamesTree caller src storage id tree → ∃ enough, ∀ fuel, enough ≤ fuel →
    ∃ outcome, cmdCpTree driver caller fuel stages src dst storage = some outcome
  copies : ∀ fuel after, cmdCpTree driver caller fuel stages src dst storage = some (0, after) →
    ∃ id, vfsResolve storage.fs (.of src) caller.cwd = some (some id) ∧
      ∀ tree, NamesTree caller src storage id tree → LeadsToTree caller dst storage after tree

/-- A place for the copy of a tree: nothing is there, and a new node is found there; or an empty
directory is there, or a file for the bytes of a file.  What the copy changes is no part of the
tree, and the files of the tree can be read. -/
inductive CopyPlace (stages : Nat → Platform) (storage : Storage) (id : Nat) (parent : Nat)
    (name : List UInt8) : FileTree → Option Nat → Prop where
  | absent {tree : FileTree} (short : name.length < vfsNameMax)
      (searched : ∃ node, storage.fs.node parent = some node ∧ node.searched = true)
      (outside : Shows storage (fun id => id ≠ parent)
        (ReadableNode storage (· ∈ Set.range stages)) id tree) :
      CopyPlace stages storage id parent name tree none
  | directory {entries : List (List UInt8 × FileTree)} {target : Nat} {there : VfsNode}
      (isThere : storage.fs.node target = some there) (searched : there.searched = true)
      (empty : there.children = [])
      (outside : Shows storage (fun id => id ≠ target)
        (ReadableNode storage (· ∈ Set.range stages)) id (.directory entries)) :
      CopyPlace stages storage id parent name (.directory entries) (some target)
  | file {bytes old : List UInt8} {target : Nat} {there : VfsNode}
      (isThere : storage.fs.node target = some there) (isFile : there.type ≠ vfsDirectory)
      (held : there.HoldsBytes storage.store storage.disk old)
      (outside : Shows storage (fun id => id ≠ target) (fun node =>
        ReadableNode storage (· ∈ Set.range stages) node ∧
          BlocksApart node.blockList there.blockList) id (.file bytes)) :
      CopyPlace stages storage id parent name (.file bytes) (some target)

/-- A destination to which a tree can be copied: its path is not that of the root and is a place
for the copy, if the directory exists, and the paths below it can be written down. -/
structure TreeClear (stages : Nat → Platform) (caller : Caller) (dst : List UInt8)
    (storage : Storage) (id : Nat) (tree : FileTree) : Prop where
  path : ∃ norm, absNormalize storage.fs (.of dst) caller.cwd = some norm ∧ pathTokens norm ≠ []
  place : ∀ parent name target, vfsParent storage.fs (.of dst) caller.cwd =
      some (some parent, name) → vfsResolve storage.fs (.of dst) caller.cwd = some target →
    CopyPlace stages storage id parent name tree target
  fits : ∀ norm, absNormalize storage.fs (.of dst) caller.cwd = some norm →
    Fits (pathTokens norm) tree

/-- The first step of a copy is refused: nothing can be made at the place, and what is there, for a
file, can not be opened for writing. -/
def TreeRefused (stages : Nat → Platform) (caller : Caller) (dst : List UInt8) (storage : Storage)
    (tree : FileTree) : Prop :=
  ∃ parent name front, vfsParent storage.fs (.of dst) caller.cwd = some (some parent, name) ∧
    vfsGetPath storage.fs parent = some front ∧ (pathJoin front name).length < pathMax ∧
    (∃ norm, absNormalize storage.fs (.of (pathJoin front name)) none = some norm) ∧
    match tree with
    | .directory _ => vfsResolve storage.fs (.of (pathJoin front name)) none = some none ∧
        ∀ above last, ¬MayCreate (stages 0) caller.cred storage.fs (.of (pathJoin front name)) none
          above last
    | .file _ => ¬Offered (stages 0) caller.cred storage.fs (.of (pathJoin front name)) none

section Promise

variable {stages : Nat → Platform} {driver : Nat} {caller : Caller} {src dst : List UInt8}
  {storage : Storage}

/-- Where the copy goes: the names of the destination's directory, and the name in it. -/
structure TreeTarget (caller : Caller) (dst : List UInt8) (storage : Storage) (parent : Nat)
    (name norm : List UInt8) (way : List (List UInt8)) : Prop where
  normalized : absNormalize storage.fs (.of dst) caller.cwd = some norm
  built : norm = pathBuild (way ++ [name])
  named : storage.fs.NamedPath parent way
  plain : PathName name
  entry : vfsResolve storage.fs (.of dst) caller.cwd = some (vfsFinddir storage.fs parent name)

theorem TreeTarget.tokens {parent : Nat} {name norm : List UInt8} {way : List (List UInt8)}
    (target : TreeTarget caller dst storage parent name norm way) :
    pathTokens norm = way ++ [name] := by
  rw [target.built]
  apply pathTokens_pathBuild
  intro component member
  rcases List.mem_append.mp member with above | last
  · exact target.named.valid component above
  · rw [List.mem_singleton.mp last]
    exact target.plain

/-- The directory of a clear destination is missing, or the destination is an entry of it. -/
theorem TreeClear.target {id : Nat} {tree : FileTree} (linked : storage.fs.Linked)
    (clear : TreeClear stages caller dst storage id tree) :
    (∃ name, vfsParent storage.fs (.of dst) caller.cwd = some (none, name)) ∨
      ∃ parent name norm way, vfsParent storage.fs (.of dst) caller.cwd = some (some parent, name) ∧
        TreeTarget caller dst storage parent name norm way := by
  rcases clear.path with ⟨norm, normalized, notRoot⟩
  rcases absNormalize_output normalized with ⟨names, output⟩
  rcases linked.rooted with ⟨root, -, isRoot, -, -⟩
  rcases vfsParent_eq normalized output with ⟨rfl, -⟩ | ⟨front, last, rfl, plain, target⟩
  · exact absurd output.tokens notRoot
  rw [isRoot] at target
  cases reached : vfsWalk storage.fs (some root) front with
  | none =>
      rw [reached] at target
      exact Or.inl ⟨last, target⟩
  | some parent =>
      rw [reached] at target
      have named := (Fs.NamedPath.root isRoot).of_walk
        (fun name member => output.valid name (List.mem_append_left _ member)) reached
      refine Or.inr ⟨parent, last, norm, front, target, normalized, output.built, named, plain, ?_⟩
      rw [vfsResolve, normalized, Option.map_some, output.tokens, vfsWalk_append, isRoot, reached]
      rfl

end Promise

/-! ## The copy at its place -/

section Place

variable {stages : Nat → Platform} {driver : Nat} {caller : Caller} {storage after : Storage}
  {id parent fuel : Nat} {name : List UInt8} {way : List (List UInt8)} {tree : FileTree}

/-- The whole copy of a tree succeeded: its paths stay, and the name leads to the tree. -/
structure TreePlaced (before : Storage) (parent : Nat) (name : List UInt8) (tree : FileTree)
    (after : Storage) : Prop where
  extends_ : before.fs.Extends after.fs
  shows : ∃ new, vfsFinddir after.fs parent name = some new ∧
    Shows after (fun _ => True) (fun _ => True) new tree

theorem walkState_start (linked : storage.fs.Linked) :
    WalkState storage (· ∈ Set.range stages) stages storage :=
  ⟨fun stage => Set.mem_range_self stage, .refl _, linked⟩

theorem ChildrenCopied.ofEmpty {entries : List (List UInt8 × FileTree)} {node there : VfsNode}
    {target : Nat} (linked : storage.fs.Linked) (named : storage.fs.NamedPath parent way)
    (plain : PathName name) (entry : vfsFinddir storage.fs parent name = some target)
    (isThere : storage.fs.node target = some there) (searched : there.searched = true)
    (empty : there.children = []) (different : id ≠ target)
    (found : storage.fs.node id = some node)
    (below : ShowsEach storage (fun id => id ≠ target)
      (ReadableNode storage (· ∈ Set.range stages)) node.children entries)
    (distinct : (entries.map Prod.fst).Nodup) (fits : FitsEach (way ++ [name]) entries) :
    ChildrenCopied storage (· ∈ Set.range stages) id target 0 (way ++ [name]) entries node there
      storage := by
  refine ⟨found, linked.bounded.lt found, different, below.bounded linked, isThere, searched, ?_,
    ?_, fits, distinct⟩
  · rw [empty, List.take_zero]
    exact .nil
  · rcases (vfsFinddir_mem entry).2 with ⟨node', found', sameName⟩
    rw [← sameName] at entry plain ⊢
    exact .child named found' entry plain

/-- A file for the bytes of a file is ready for the loop. -/
theorem copyFileContents_placed {bytes old : List UInt8} {target : Nat} {node there : VfsNode}
    (found : storage.fs.node id = some node) (different : id ≠ target)
    (holds : node.HoldsBytes storage.store storage.disk bytes)
    (isThere : storage.fs.node target = some there)
    (held : there.HoldsBytes storage.store storage.disk old)
    (isFile : there.type ≠ vfsDirectory)
    (apart : BlocksApart node.blockList there.blockList)
    (size : bytes.length + (blockSize - 1) < 2 ^ 32)
    (reads : ∀ stage, (stages stage).faults.SparesReads storage.store node.blockList) :
    (∀ {ended : Bool}, copyFileContents stages driver fuel id target storage =
        some (ended, after) → storage.fs.Extends after.fs ∧ (ended = true →
          Shows after (fun _ => True) (fun _ => True) target (.file bytes))) ∧
      (bytes.length < fuel → ∃ outcome,
        copyFileContents stages driver fuel id target storage = some outcome) := by
  rcases CopyAt.begin different found holds isThere held apart with ⟨truncated, start⟩
  constructor
  · intro ended ran
    rcases copyLoop_copies different size reads start (Nat.zero_mod _) (Nat.zero_le _) ran with
      ⟨refilled, -, -, ends⟩
    have changed := truncated.trans refilled
    refine ⟨changed.extends, fun success => ?_⟩
    rcases ends success with ⟨last, isLast, bytesHeld, -⟩
    rcases changed.self with ⟨first, last', isFirst, isLast', same⟩
    cases isThere.symm.trans isFirst
    cases isLast.symm.trans isLast'
    exact .file trivial isLast (by rw [same]; exact isFile) trivial bytesHeld
  · intro enough
    have chunk : readBuf = 4096 := rfl
    exact copyLoop_returns different size reads start (Nat.zero_mod _) (Nat.zero_le _)
      (by rw [chunk]; omega)

/-- `vfs_create` of an entry that exists fails or finds it. -/
theorem vfsCreate_existing {platform : Platform} {cred : Cred} {umask : UInt32} {target : Nat}
    {path : List UInt8} {result : Option Nat} {fs' : Fs}
    (parts : vfsParent storage.fs (.of path) none = some (some parent, name))
    (entry : vfsFinddir storage.fs parent name = some target)
    (made : vfsCreate platform cred umask storage.fs (.of path) none = some (result, fs')) :
    fs' = storage.fs ∧ (result = none ∨ result = some target) := by
  rcases vfsCreate_cases made with ⟨rfl, rfl⟩ | ⟨parent', name', other, rfl, rfl, found, isOther,
    -⟩ | ⟨parent', name', other, rfl, creates, -⟩
  · exact ⟨rfl, Or.inl rfl⟩
  · cases parts.symm.trans found
    exact ⟨rfl, Or.inr (isOther.symm.trans entry)⟩
  · cases parts.symm.trans creates.target
    cases creates.absent.symm.trans entry

structure Places (stages : Nat → Platform) (driver : Nat) (caller : Caller) (id parent : Nat)
    (name : List UInt8) (tree : FileTree) (storage : Storage) (fuel : Nat) : Prop where
  placed : ∀ after, cpRecursive driver caller fuel stages id parent name storage =
    some (true, after) → TreePlaced storage parent name tree after
  returns : tree.cost ≤ fuel → ∃ outcome,
    cpRecursive driver caller fuel stages id parent name storage = some outcome

theorem places_zero : Places stages driver caller id parent name tree storage 0 := by
  refine ⟨fun after ran => ?_, fun enough => ?_⟩
  · rw [cpRecursive] at ran
    cases ran
  · cases tree with
    | file bytes =>
        rw [FileTree.cost] at enough
        omega
    | directory entries =>
        rw [FileTree.cost] at enough
        omega

theorem places_directory {entries : List (List UInt8 × FileTree)} {node there : VfsNode}
    {target : Nat} {path : List UInt8} (linked : storage.fs.Linked)
    (joins : JoinsTo storage.fs parent name path)
    (entry : vfsFinddir storage.fs parent name = some target)
    (found : storage.fs.node id = some node) (isDirectory : node.type = vfsDirectory)
    (ready : ChildrenCopied storage (· ∈ Set.range stages) id target 0 (way ++ [name]) entries node
      there storage) :
    Places stages driver caller id parent name (.directory entries) storage (fuel + 1) := by
  have walk := @walkState_start stages storage linked
  refine ⟨fun after ran => ?_, fun enough => ?_⟩
  · rw [cpRecursive_existing joins entry found isDirectory] at ran
    rcases (cpRecursive_copies fuel).2 walk ready ran with ⟨grows, ends⟩
    rcases ends rfl with ⟨last, isLast, lastType, shows⟩
    refine ⟨grows.extends_, target, grows.extends_.finds _ _ _ entry, ?_⟩
    exact .directory trivial isLast lastType (shows.mono (fun _ _ => ⟨rfl, trivial⟩)
      (fun _ fine => fine) (fun _ _ holds => holds))
  · rw [cpRecursive_existing joins entry found isDirectory]
    rw [FileTree.cost] at enough
    exact (cpRecursive_returns fuel).2 walk ready (by rw [List.drop_zero]; omega)

theorem places_file {bytes old : List UInt8} {node there : VfsNode} {target : Nat}
    {path : List UInt8} (joins : JoinsTo storage.fs parent name path)
    (entry : vfsFinddir storage.fs parent name = some target)
    (found : storage.fs.node id = some node) (isFile : node.type ≠ vfsDirectory)
    (different : id ≠ target) (holds : node.HoldsBytes storage.store storage.disk bytes)
    (isThere : storage.fs.node target = some there) (thereFile : there.type ≠ vfsDirectory)
    (held : there.HoldsBytes storage.store storage.disk old)
    (apart : BlocksApart node.blockList there.blockList)
    (size : bytes.length + (blockSize - 1) < 2 ^ 32)
    (reads : ∀ stage, (stages stage).faults.SparesReads storage.store node.blockList) :
    Places stages driver caller id parent name (.file bytes) storage (fuel + 1) := by
  have contents : ∀ after, _ := fun after =>
    @copyFileContents_placed (fun stage => stages (stage + 1)) driver storage after id fuel bytes
      old target node there found different holds isThere held thereFile apart size
      fun stage => reads (stage + 1)
  rcases @JoinsTo.creates caller _ _ _ _ joins (stages 0) with ⟨⟨result, fs'⟩, made⟩
  have step := @cpRecursive_file driver caller stages fuel id parent name path storage node joins
    found isFile
  rw [made, Option.bind_some] at step
  rcases vfsCreate_existing joins.parts entry made with ⟨rfl, rfl | rfl⟩
  · exact ⟨fun after ran => (by rw [step] at ran; cases ran), fun _ => ⟨_, step⟩⟩
  · refine ⟨fun after ran => ?_, fun enough => ?_⟩
    · rw [step] at ran
      rcases (contents after).1 ran with ⟨extends_, ends⟩
      exact ⟨extends_, target, extends_.finds _ _ _ entry, ends rfl⟩
    · rw [step]
      rw [FileTree.cost] at enough
      exact (contents storage).2 (by omega)

/-- `cp_recursive` puts a tree at its place, and returns. -/
theorem CopyPlace.places (linked : storage.fs.Linked)
    (place : CopyPlace stages storage id parent name tree (vfsFinddir storage.fs parent name))
    (named : storage.fs.NamedPath parent way) (plain : PathName name)
    (fits : Fits (way ++ [name]) tree) :
    Places stages driver caller id parent name tree storage fuel := by
  cases fuel with
  | zero => exact places_zero
  | succ fuel =>
      generalize isEntry : vfsFinddir storage.fs parent name = entry at place
      have joins := named.joins linked plain fits.room
      have walk := @walkState_start stages storage linked
      cases place with
      | absent short searched outside =>
          have offers : OffersName storage.fs parent name := ⟨searched, isEntry, short⟩
          have inside := outside.bounded linked
          refine ⟨fun after ran => ?_,
            (cpRecursive_returns (fuel + 1)).1 walk inside named offers plain fits⟩
          rcases (cpRecursive_copies (fuel + 1)).1 walk inside named offers plain fits ran with
            ⟨grows, ends⟩
          rcases ends rfl with ⟨new, made⟩
          exact ⟨grows.extends_, new, made.entry, made.shows.mono (fun _ _ => ⟨rfl, trivial⟩)
            (fun _ fine => fine) (fun _ _ holds => holds)⟩
      | @directory entries target there isThere searched empty outside =>
          cases fits with
          | directory room distinct fitsBelow =>
              cases outside with
              | @directory _ node _ different found isDirectory below =>
                  exact places_directory linked joins isEntry found isDirectory
                    (.ofEmpty linked named plain isEntry isThere searched empty different found
                      below distinct fitsBelow)
      | @file bytes old target there isThere isFile held outside =>
          cases fits with
          | file room size =>
              cases outside with
              | @file _ node _ different found notDirectory fine holds =>
                  exact places_file joins isEntry found notDirectory different holds isThere isFile
                    held fine.2 size fun stage => walk.reads fine.1 stage

end Place

section Promise

variable {stages : Nat → Platform} {driver : Nat} {caller : Caller} {src dst : List UInt8}
  {storage : Storage}

/-- A copy whose first step is refused fails and changes nothing. -/
theorem cmdCpTree_refused {id : Nat} {tree : FileTree} (names : NamesTree caller src storage id tree)
    (refused : TreeRefused stages caller dst storage tree) (fuel : Nat) :
    cmdCpTree driver caller (fuel + 1) stages src dst storage = some (1, storage) := by
  rcases refused with ⟨parent, name, front, target, path, short, normalized, refuses⟩
  have copied : cpRecursive driver caller (fuel + 1) stages id parent name storage =
      some (false, storage) := by
    rw [cpRecursive, path, Option.bind_some]
    dsimp only
    rw [if_neg (not_le.mpr short)]
    cases names.shows with
    | directory _ found isDirectory _ =>
        rw [found]
        dsimp only
        rw [if_pos isDirectory, copyDirectory, refuses.1, Option.bind_some]
        dsimp only
        rcases (returns_iff _).mpr normalized with ⟨⟨result, fs'⟩, made⟩
        have made : vfsMkdir (stages 0) caller.cred caller.umask storage.fs
          (.of (pathJoin front name)) none = some (result, fs') := made
        rcases vfsMkdir_cases made with ⟨rfl, rfl⟩ | ⟨above, last, other, rfl, creates, -⟩
        · rw [made]
          rfl
        · exact absurd (MayCreate.of_mkdir creates made) (refuses.2 above last)
    | file _ found isFile _ _ =>
        rw [found]
        dsimp only
        rw [if_neg isFile]
        rcases (returns_iff _).mpr normalized with ⟨⟨result, fs'⟩, made⟩
        have made : vfsCreate (stages 0) caller.cred caller.umask storage.fs
          (.of (pathJoin front name)) none = some (result, fs') := made
        cases result with
        | some other => exact absurd (offered_of_create made) refuses
        | none =>
            rcases vfsCreate_cases made with ⟨-, rfl⟩ | ⟨_, _, _, some_, -⟩ | ⟨_, _, _, some_, -⟩
            · rw [made]
              rfl
            · cases some_
            · cases some_
  rw [cmdCpTree, names.path, Option.bind_some]
  dsimp only
  rw [target, Option.bind_some]
  dsimp only
  rw [copied]
  rfl

end Promise

/-! ## A directory copied onto itself -/

def tmpTree : FileTree := .directory [(literal "a", .file [1, 2, 3])]

def Storage.HasTmpTree (storage : Storage) : Prop :=
  vfsResolve storage.fs (.of (literal "/tmp")) none = some (some 4) ∧
    ((storage.fs.node 4).any fun node => node.type = vfsDirectory ∧ node.children = [17]) = true ∧
    ((storage.fs.node 17).any fun node => node.name = literal "a") = true

instance (storage : Storage) : Decidable storage.HasTmpTree :=
  inferInstanceAs (Decidable (_ ∧ _ ∧ _))

theorem Storage.HasTmpTree.shows {storage : Storage} {keep : Nat → Prop} {good : VfsNode → Prop}
    (has : storage.HasThreeBytes) (hasTree : storage.HasTmpTree) (kept : keep 4 ∧ keep 17)
    (fine : ∀ node : VfsNode, node.blockList = [] → good node) :
    Shows storage keep good 4 tmpTree := by
  rcases hasTree with ⟨-, top, named⟩
  rcases (Option.any_eq_true _ _).mp top with ⟨above, foundAbove, fields⟩
  rcases (Option.any_eq_true _ _).mp named with ⟨file, found, isNamed⟩
  simp only [decide_eq_true_eq] at fields isNamed
  rcases has.names with ⟨node, names, noBlocks, -⟩
  cases names.found.symm.trans found
  refine .directory kept.1 foundAbove fields.1 ?_
  rw [fields.2, ← isNamed]
  exact .cons found (.file kept.2 found names.file (fine _ noBlocks) names.holds) .nil

def Storage.EmptiesTmp (storage : Storage) : Prop :=
  (cmdCpTree 100 rootCaller 100 (fun _ => .ideal) (literal "/tmp") (literal "/tmp") storage).map
      (fun done => (done.1, vfsResolve done.2.fs (.of (literal "/tmp")) none,
        (done.2.fs.node 4).map VfsNode.children, (done.2.fs.node 17).map VfsNode.size)) =
      some (0, some (some 4), some [17], some 0) ∧
    absNormalize storage.fs (.of (literal "/tmp")) none = some (literal "/tmp")

instance (storage : Storage) : Decidable storage.EmptiesTmp :=
  inferInstanceAs (Decidable (_ ∧ _))

theorem threeBytes_emptied :
    (threeBytes.any fun storage => storage.HasThreeBytes ∧ storage.HasTmpTree ∧
      storage.EmptiesTmp) = true := by
  rw [threeBytes, rootRun, boot_ideal]
  decide +kernel

def Storage.OffersTopB (storage : Storage) : Prop :=
  vfsResolve storage.fs (.of (literal "/b")) none = some none ∧
    vfsParent storage.fs (.of (literal "/b")) none = some (some 0, literal "b") ∧
    ((storage.fs.node 0).any fun node => node.searched) = true ∧
    absNormalize storage.fs (.of (literal "/b")) none = some (literal "/b")

instance (storage : Storage) : Decidable storage.OffersTopB :=
  inferInstanceAs (Decidable (_ ∧ _ ∧ _ ∧ _))

theorem threeBytes_offersTopB :
    (threeBytes.any fun storage => storage.HasThreeBytes ∧ storage.HasTmpTree ∧
      storage.OffersTopB) = true := by
  rw [threeBytes, rootRun, boot_ideal]
  decide +kernel

theorem tmpTree_fits : Fits (pathTokens (literal "/b")) tmpTree := by
  have way : pathTokens (literal "/b") = [literal "b"] := by decide
  have name : PathName (literal "a") := ⟨⟨by decide, by decide⟩, by decide, by decide⟩
  rw [way]
  refine .directory ⟨by decide, by decide⟩ (by decide) (.cons name (by decide) ?_ .nil)
  exact .file ⟨by decide, by decide⟩ (by decide)

end Trinux
