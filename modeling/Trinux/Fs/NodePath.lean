import Trinux.Fs.Linked
import Trinux.Fs.PathLimits

namespace Trinux

/-!
# The path of a node

`vfs_get_path` walks from a node up to the root and writes down the names on the
way; `vfs_resolve` walks down along the names of a path.  The second undoes the
first exactly for the nodes that their directories find under their own names,
within the limits of `path_normalize`.
-/

/-! ## Nodes that can be listed -/

def readdirEntry (fs : Fs) (id index : Nat) : Option Nat :=
  match (fs.node id).map VfsNode.ops with
  | some .fatFile => none
  | some .fatDirectory => (fs.childrenOf id)[index]?
  | _ => ramfsReaddir fs id index

theorem vfsReaddir_entry {platform : Platform} {fuel id index : Nat} {storage storage' : Storage}
    {entry : Option Nat}
    (listed : vfsReaddir platform fuel storage id index = some (entry, storage')) :
    entry = readdirEntry storage.fs id index := by
  rw [vfsReaddir] at listed
  rw [readdirEntry]
  cases found : storage.fs.node id with
  | none =>
      rw [found] at listed
      cases listed
  | some node =>
      rw [found] at listed
      simp only [Option.map_some] at listed ⊢
      cases callbacks : node.ops with
      | fatFile =>
          rw [callbacks] at listed
          cases listed
          rfl
      | fatDirectory =>
          rw [callbacks] at listed
          simp only [fatReaddir] at listed ⊢
          split at listed
          · rename_i missing
            cases listed
            exact missing.symm
          · rename_i child present
            split at listed
            · cases listed
            split at listed
            · rcases Option.map_eq_some_iff.mp listed with ⟨read, -, same⟩
              cases same
              exact present.symm
            · cases listed
              exact present.symm
      | ramfs | devZero | devNull | devRandom | devSda =>
          rw [callbacks] at listed
          cases listed
          rfl

inductive Fs.Listed (fs : Fs) : Nat → Prop where
  | root {id : Nat} (isRoot : fs.root = some id) : Listed fs id
  | entry {dir index id : Nat} (above : Listed fs dir)
      (listed : readdirEntry fs dir index = some id) : Listed fs id

/-! ## Paths of nodes -/

/-- The path of a node fits the buffer and leads to the node from every directory. -/
def Fs.PathFindsNode (fs : Fs) (id : Nat) : Prop :=
  ∃ path, vfsGetPath fs id = some path ∧ path.length < pathMax ∧
    ∀ cwd, vfsResolve fs (.of path) cwd = some (some id)

/-- Each directory on the way to a node finds the next one under its own name, and the names are
such as a path can have. -/
inductive Fs.NamedPath (fs : Fs) : Nat → List (List UInt8) → Prop where
  | root {id : Nat} (isRoot : fs.root = some id) : NamedPath fs id []
  | child {parent id : Nat} {names : List (List UInt8)} {node : VfsNode}
      (above : NamedPath fs parent names) (found : fs.node id = some node)
      (entry : vfsFinddir fs parent node.name = some id) (name : PathName node.name) :
      NamedPath fs id (names ++ [node.name])

section Paths

variable {fs : Fs} {id : Nat} {names : List (List UInt8)}

theorem Fs.NamedPath.valid (named : fs.NamedPath id names) : ∀ name ∈ names, PathName name := by
  induction named with
  | root => exact fun _ member => by cases member
  | child _ _ _ name known =>
      intro other member
      rcases List.mem_append.mp member with old | this
      · exact known other old
      · rw [List.mem_singleton.mp this]
        exact name

theorem Fs.NamedPath.depth (linked : fs.Linked) (named : fs.NamedPath id names) :
    names.length ≤ id := by
  induction named with
  | root => exact Nat.zero_le _
  | child _ _ entry _ known =>
      have later := (linked.listed _ _ (vfsFinddir_mem entry).1).1
      rw [List.length_append, List.length_singleton]
      omega

theorem Fs.NamedPath.live (linked : fs.Linked) (named : fs.NamedPath id names) :
    ∃ node, fs.node id = some node := by
  cases named with
  | root isRoot => exact linked.live (.root isRoot)
  | child _ found _ _ => exact ⟨_, found⟩

/-- The walk up from a node writes down the names of its path. -/
theorem getPathLoop_named (linked : fs.Linked) (named : fs.NamedPath id names) {fuel : Nat}
    {rev : List UInt8} (enough : names.length < fuel)
    (short : (names.flatMap fun name => slash :: name).length + rev.length < pathMax) :
    getPathLoop fs fuel id rev = some ((names.flatMap fun name => slash :: name) ++ rev) := by
  induction named generalizing fuel rev with
  | root isRoot =>
      rcases linked.rooted with ⟨root, node, isRoot', live, top⟩
      rw [isRoot] at isRoot'
      cases isRoot'
      cases fuel with
      | zero => cases enough
      | succ fuel =>
          rw [getPathLoop, live]
          simp only [top]
          rfl
  | @child parent id names node above found entry name known =>
      have points := linked.parent_of (vfsFinddir_mem entry).1 found
      rw [List.flatMap_append, List.length_append, List.flatMap_singleton] at short
      rw [List.length_append, List.length_singleton] at enough
      cases fuel with
      | zero => cases enough
      | succ fuel =>
          rw [getPathLoop, found]
          simp only [points]
          have longer : (slash :: node.name ++ rev).length =
              (slash :: node.name).length + rev.length := List.length_append
          rw [if_pos (by omega), known (by omega) (by omega), List.flatMap_append,
            List.flatMap_singleton, List.append_assoc]

theorem pathBuild_eq (names : List (List UInt8)) :
    pathBuild names = if (names.flatMap fun name => slash :: name) = [] then [slash]
      else names.flatMap fun name => slash :: name := by
  cases names with
  | nil => rfl
  | cons name rest =>
      rw [pathBuild, if_neg (List.cons_ne_nil _ _), if_neg]
      rw [List.flatMap_cons]
      exact List.cons_ne_nil _ _

theorem vfsGetPath_named (linked : fs.Linked) (named : fs.NamedPath id names)
    (short : (pathBuild names).length < pathMax) : vfsGetPath fs id = some (pathBuild names) := by
  rcases named.live linked with ⟨node, found⟩
  have depth := named.depth linked
  have below := linked.bounded.lt found
  have fits : (names.flatMap fun name => slash :: name).length + ([] : List UInt8).length <
      pathMax := by
    rw [pathBuild_eq] at short
    split at short
    · rename_i empty
      rw [empty]
      decide
    · exact short
  rw [vfsGetPath, getPathLoop_named linked named (by omega) fits, Option.map_some,
    List.append_nil, pathBuild_eq]

theorem vfsWalk_append (fs : Fs) (start : Option Nat) (front back : List (List UInt8)) :
    vfsWalk fs start (front ++ back) = vfsWalk fs (vfsWalk fs start front) back := by
  induction front generalizing start with
  | nil => rfl
  | cons token rest known => exact known _

theorem Fs.NamedPath.walk (named : fs.NamedPath id names) :
    vfsWalk fs fs.root names = some id := by
  induction named with
  | root isRoot => exact isRoot
  | child _ _ entry _ known =>
      rw [vfsWalk_append, known]
      exact entry

theorem Fs.NamedPath.of_walk {start : Nat} {front : List (List UInt8)}
    (above : fs.NamedPath start front) (valid : ∀ name ∈ names, PathName name)
    (walked : vfsWalk fs (some start) names = some id) : fs.NamedPath id (front ++ names) := by
  induction names generalizing start front with
  | nil =>
      cases walked
      rwa [List.append_nil]
  | cons name rest known =>
      rw [vfsWalk, Option.bind_some] at walked
      cases entry : vfsFinddir fs start name with
      | none =>
          rw [entry] at walked
          have stuck : ∀ components, vfsWalk fs none components = none := by
            intro components
            induction components with
            | nil => rfl
            | cons _ _ known => exact known
          rw [stuck] at walked
          cases walked
      | some next =>
          rw [entry] at walked
          rcases vfsFinddir_mem entry with ⟨-, node, found, rfl⟩
          have reached := above.child found entry (valid _ List.mem_cons_self)
          have rest_ := known reached (fun other member => valid other (List.mem_cons_of_mem _ member))
            walked
          rwa [List.append_assoc, List.singleton_append] at rest_

/-! ## Normalised paths -/

theorem foldl_pathPush_length (components stack : List (List UInt8)) (room : stack.length ≤ 64) :
    (components.foldl pathPush stack).length ≤ 64 := by
  induction components generalizing stack with
  | nil => exact room
  | cons component rest known =>
      apply known
      rw [pathPush]
      split
      · exact room
      split
      · rw [List.length_dropLast]
        omega
      split
      · rw [List.length_append, List.length_singleton]
        omega
      · exact room

theorem foldl_pathPush_names {components stack : List (List UInt8)}
    (valid : ∀ component ∈ components, Components.IsComponent slash component)
    (names : ∀ name ∈ stack, PathName name) :
    ∀ name ∈ components.foldl pathPush stack, PathName name := by
  induction components generalizing stack with
  | nil => exact names
  | cons component rest known =>
      apply known fun other member => valid other (List.mem_cons_of_mem _ member)
      rw [pathPush]
      split
      · exact names
      split
      · exact fun name member => names name (List.mem_of_mem_dropLast member)
      split
      · intro name member
        rcases List.mem_append.mp member with old | new
        · exact names name old
        · rw [List.mem_singleton.mp new]
          exact ⟨valid component List.mem_cons_self, ‹_›, ‹_›⟩
      · exact names

structure PathOutput (path : List UInt8) (names : List (List UInt8)) : Prop where
  built : path = pathBuild names
  valid : ∀ name ∈ names, PathName name
  few : names.length ≤ 64
  short : path.length < pathMax

theorem pathNormalize_output {base norm : List UInt8} {path : PathArg}
    (normalized : pathNormalize base path = some norm) : ∃ names, PathOutput norm names := by
  rw [pathNormalize] at normalized
  split at normalized
  · rename_i short
    cases normalized
    exact ⟨_, rfl, foldl_pathPush_names (fun _ member =>
        Components.isComponent_of_mem_tokens member) (by simp),
      foldl_pathPush_length _ _ (by simp), short⟩
  · cases normalized

/-- A normal form is its own normal form, in any directory, also where components were dropped. -/
theorem pathNormalize_idempotent (base other : List UInt8) (path : PathArg) :
    ((pathNormalize base path).bind fun norm => pathNormalize other (.of norm)) =
      pathNormalize base path := by
  cases normalized : pathNormalize base path with
  | none => rfl
  | some norm =>
      rcases pathNormalize_output normalized with ⟨names, rfl, valid, few, short⟩
      exact pathNormalize_pathBuild other valid few short

theorem absNormalize_output {norm : List UInt8} {path : PathArg} {cwd : Option Nat}
    (normalized : absNormalize fs path cwd = some norm) : ∃ names, PathOutput norm names := by
  rw [absNormalize] at normalized
  split at normalized
  · exact pathNormalize_output normalized
  split at normalized
  · exact pathNormalize_output normalized
  · rcases Option.bind_eq_some_iff.mp normalized with ⟨base, -, done⟩
    exact pathNormalize_output done

theorem PathOutput.tokens {path : List UInt8} (output : PathOutput path names) :
    pathTokens path = names := by
  rw [output.built]
  exact pathTokens_pathBuild output.valid

/-- A resolved path has led along the names of its normal form. -/
theorem vfsResolve_named {path : PathArg} {cwd : Option Nat} (linked : fs.Linked)
    (resolved : vfsResolve fs path cwd = some (some id)) :
    ∃ norm names, absNormalize fs path cwd = some norm ∧ PathOutput norm names ∧
      fs.NamedPath id names := by
  rcases Option.map_eq_some_iff.mp resolved with ⟨norm, normalized, walked⟩
  rcases absNormalize_output normalized with ⟨names, output⟩
  rw [output.tokens] at walked
  rcases linked.rooted with ⟨root, -, isRoot, -, -⟩
  rw [isRoot] at walked
  exact ⟨norm, names, normalized, output, (Fs.NamedPath.root isRoot).of_walk output.valid walked⟩

theorem absNormalize_pathBuild (fs : Fs) (cwd : Option Nat)
    (valid : ∀ name ∈ names, PathName name) (few : names.length ≤ 64)
    (short : (pathBuild names).length < pathMax) :
    absNormalize fs (.of (pathBuild names)) cwd = some (pathBuild names) := by
  rw [absNormalize, if_pos (pathBuild_absolute names),
    pathNormalize_pathBuild [slash] valid few short]

/-- The names of a canonical path lead where a walk along them leads. -/
theorem vfsResolve_names (fs : Fs) {cwd : Option Nat} (valid : ∀ name ∈ names, PathName name)
    (few : names.length ≤ 64) (short : (pathBuild names).length < pathMax) :
    vfsResolve fs (.of (pathBuild names)) cwd = some (vfsWalk fs fs.root names) := by
  rw [vfsResolve, absNormalize_pathBuild fs cwd valid few short, Option.map_some,
    pathTokens_pathBuild valid]

theorem vfsResolve_pathBuild (named : fs.NamedPath id names) (few : names.length ≤ 64)
    (short : (pathBuild names).length < pathMax) (cwd : Option Nat) :
    vfsResolve fs (.of (pathBuild names)) cwd = some (some id) := by
  rw [vfsResolve_names fs named.valid few short, named.walk]

end Paths

/-- In every run, the path of a node, listed or not, leads back to the node exactly if each
directory on its way finds the next node under its own name, there are at most 64 names, and
together they fit the buffer. -/
theorem vfsGetPath_resolves_iff {storage : Storage} (reached : Reachable storage) (id : Nat) :
    storage.fs.PathFindsNode id ↔
      ∃ names, storage.fs.NamedPath id names ∧ names.length ≤ 64 ∧
        (pathBuild names).length < pathMax := by
  have linked := reached.linked
  constructor
  · rintro ⟨path, -, -, resolves⟩
    rcases vfsResolve_named linked (resolves none) with ⟨norm, names, -, output, named⟩
    refine ⟨names, named, output.few, ?_⟩
    rw [← output.built]
    exact output.short
  · rintro ⟨names, named, few, short⟩
    exact ⟨pathBuild names, vfsGetPath_named linked named short, short,
      vfsResolve_pathBuild named few short⟩

/-- In every run, the path of a node that a path leads to is the normal form of that path, and it
leads back to the node from any directory. -/
theorem vfsGetPath_resolved {storage : Storage} (reached : Reachable storage) {path : PathArg}
    {cwd : Option Nat} {id : Nat} (resolved : vfsResolve storage.fs path cwd = some (some id))
    (other : Option Nat) : vfsGetPath storage.fs id = absNormalize storage.fs path cwd ∧
      (vfsGetPath storage.fs id).bind (fun norm => vfsResolve storage.fs (.of norm) other) =
        some (some id) := by
  have linked := reached.linked
  rcases vfsResolve_named linked resolved with ⟨_, names, normalized, ⟨rfl, -, few, short⟩, named⟩
  rw [vfsGetPath_named linked named short, normalized]
  exact ⟨rfl, vfsResolve_pathBuild named few short other⟩

/-! ## Two directories of one name -/

def BootPlatform.ideal : BootPlatform := ⟨.ideal, .ideal, .ideal, .ideal, .ideal⟩

def motd : List Char :=
  ['W', 'e', 'l', 'c', 'o', 'm', 'e', ' ', 't', 'o', ' ', 'T', 'r', 'i', 'n', 'u', 'x', '!', '\n',
   'A', ' ', 't', 'i', 'n', 'y', ' ', 'U', 'n', 'i', 'x', '-', 'l', 'i', 'k', 'e', ' ', 'k', 'e',
   'r', 'n', 'e', 'l', ' ', 'w', 'r', 'i', 't', 't', 'e', 'n', ' ', 'i', 'n', ' ', 'C', ' ', 'a',
   'n', 'd', ' ', 'a', 's', 's', 'e', 'm', 'b', 'l', 'y', '.', '\n', 'T', 'y', 'p', 'e', ' ', '\'',
   'h', 'e', 'l', 'p', '\'', ' ', 't', 'o', ' ', 'g', 'e', 't', ' ', 's', 't', 'a', 'r', 't', 'e',
   'd', '.', '\n']

def readme : List Char :=
  ['H', 'e', 'l', 'l', 'o', ' ', 'f', 'r', 'o', 'm', ' ', 'T', 'r', 'i', 'n', 'u', 'x', '.', '\n',
   'T', 'h', 'i', 's', ' ', 'f', 'i', 'l', 'e', ' ', 'l', 'i', 'v', 'e', 's', ' ', 'i', 'n', ' ',
   'a', ' ', 'R', 'A', 'M', ' ', 'f', 'i', 'l', 'e', 's', 'y', 's', 't', 'e', 'm', '.', '\n', 'T',
   'r', 'y', ':', ' ', 'c', 'a', 't', ' ', 'r', 'e', 'a', 'd', 'm', 'e', '.', 't', 'x', 't', ',',
   ' ', 'w', 'c', ' ', 'r', 'e', 'a', 'd', 'm', 'e', '.', 't', 'x', 't', ',', ' ', 'h', 'e', 'x',
   'd', 'u', 'm', 'p', ' ', 'r', 'e', 'a', 'd', 'm', 'e', '.', 't', 'x', 't', '\n']

def charBytes (chars : List Char) : List UInt8 :=
  chars.map fun character => UInt8.ofNat character.toNat

theorem literal_ofList (chars : List Char) : literal (String.ofList chars) = charBytes chars := by
  rw [literal, String.toList_ofList, charBytes]

/-- The default tree with its two long texts character by character, which is faster to
evaluate. -/
def bootTable : List BootNode :=
  bootNodes.take 11 ++
    [⟨2, literal "motd", vfsFile, id, charBytes motd⟩,
      ⟨9, literal "readme.txt", vfsFile,
        fun node => { node with ownerUid := 1000, ownerGid := 1000 }, charBytes readme⟩]

theorem bootNodes_eq : bootNodes = bootTable := by
  rw [bootTable, ← literal_ofList, ← literal_ofList]
  rfl

/-- The boot sequence on a platform on which nothing fails, for some default tree. -/
def bootedFrom (nodes : List BootNode) (disk : Disk) : Option Storage :=
  (nodes.foldlM (ramfsInitNode .ideal)
    { fs := bootRoot Platform.ideal.now
      store := .disabled
      disk := disk
      fat := .unmounted
      randState := 0xCAFEBABE }).bind fun storage =>
    (bootDisk .ideal storage).bind fun storage =>
      fat16Init .ideal { storage with fs := devfsInit .ideal storage.fs storage.disk }

theorem boot_ideal (disk : Disk) : boot .ideal disk = bootedFrom bootTable disk := by
  rw [← bootNodes_eq]
  rfl

def noDisk : Disk where
  present := false
  total := 0
  bytes := fun _ => 0

/-- A call of the root user in the root directory, on a platform on which nothing fails. -/
def rootCall (op : FsOp) : FsCall := ⟨fun _ => .ideal, 100, ⟨⟨0, 0⟩, 0o22, none⟩, op⟩

def rootRun (calls : List FsOp) : Option Storage :=
  (boot .ideal noDisk).bind fun start =>
    calls.foldlM (fun storage op => (rootCall op).run storage) start

theorem rootRun_reachable {calls : List FsOp} {storage : Storage}
    (ran : rootRun calls = some storage) : Reachable storage := by
  rcases Option.bind_eq_some_iff.mp ran with ⟨start, booted, steps⟩
  have first : Reachable start := .boot trivial booted
  clear booted ran
  induction calls generalizing start with
  | nil =>
      cases steps
      exact first
  | cons op rest known =>
      rw [List.foldlM_cons] at steps
      rcases Option.bind_eq_some_iff.mp steps with ⟨middle, ran, later⟩
      exact known middle later (.call first trivial ran)

theorem rootRun_boots : (rootRun []).isSome = true := by
  rw [rootRun, boot_ideal]
  decide +kernel

/-- The criterion for the directory `/home/user` after booting. -/
theorem vfsGetPath_resolves_iff_boot : ∃ storage, rootRun [] = some storage ∧
    (storage.fs.PathFindsNode 9 ↔ ∃ names, storage.fs.NamedPath 9 names ∧ names.length ≤ 64 ∧
      (pathBuild names).length < pathMax) := by
  rcases Option.isSome_iff_exists.mp rootRun_boots with ⟨storage, ran⟩
  exact ⟨storage, ran, vfsGetPath_resolves_iff (rootRun_reachable ran) 9⟩

theorem rootRun_way : (rootRun []).map (fun storage =>
    vfsResolve storage.fs (.of (literal "etc/..//home/./user")) none) = some (some (some 9)) := by
  rw [rootRun, boot_ideal]
  decide +kernel

theorem vfsGetPath_resolved_boot : ∃ storage, rootRun [] = some storage ∧
    vfsGetPath storage.fs 9 = absNormalize storage.fs (.of (literal "etc/..//home/./user")) none ∧
      (vfsGetPath storage.fs 9).bind (fun norm => vfsResolve storage.fs (.of norm) (some 2)) =
        some (some 9) := by
  rcases Option.map_eq_some_iff.mp rootRun_way with ⟨storage, ran, resolved⟩
  exact ⟨storage, ran, vfsGetPath_resolved (rootRun_reachable ran) resolved (some 2)⟩

def longPath : PathArg := .of (slash :: List.replicate 64 97)

/-- The second of two directories with one name of 64 letters. -/
theorem longTwins_paths :
    (rootRun [.mkdir longPath, .mkdir longPath]).map (fun storage =>
      (storage.fs.root, readdirEntry storage.fs 0 9, (vfsGetPath storage.fs 18).bind fun path =>
        vfsResolve storage.fs (.of path) none)) = some (some 0, some 18, some (some 17)) := by
  rw [rootRun, boot_ideal]
  decide +kernel

theorem vfsGetPath_names_other_node :
    ¬∀ storage, Reachable storage → ∀ id, storage.fs.Listed id → storage.fs.PathFindsNode id := by
  intro always
  rcases Option.map_eq_some_iff.mp longTwins_paths with ⟨storage, ran, facts⟩
  rcases Prod.mk.inj facts with ⟨isRoot, rest⟩
  rcases Prod.mk.inj rest with ⟨entry, resolved⟩
  rcases always storage (rootRun_reachable ran) 18 (.entry (.root isRoot) entry) with
    ⟨path, isPath, -, resolves⟩
  rw [isPath, Option.bind_some, resolves none] at resolved
  cases resolved

end Trinux
