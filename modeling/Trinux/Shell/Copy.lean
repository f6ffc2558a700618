import Trinux.Fs.Appending
import Trinux.Fs.Creation

namespace Trinux

open Bytes

/-!
# Copying and moving files

`cp` opens its destination as `vfs_create` does, sets its size to zero and then copies the source in
chunks of 4096 bytes.  It never asks whether the two are one file or whether the destination is a
directory, and it takes a short read for the end of the source.  `mv` is `cp` and then `rm`, whose
result it does not use.
-/

/-! ## The commands -/

def readBuf : Nat := 4096

section Commands

variable (stages : Nat → Platform) (driver fuel : Nat) (caller : Caller)

/-- The loop of `copy_file_contents` behind the truncation: whether all writes were in full. -/
def copyLoop (driver source target : Nat) :
    (fuel : Nat) → (stages : Nat → Platform) → (off : Nat) → Storage → Option (Bool × Storage)
  | 0, _, _, _ => none
  | fuel + 1, stages, off, storage =>
      (vfsRead (stages 0) driver storage source off readBuf).bind fun read =>
        if read.1.length = 0 then some (true, read.2)
        else
          (vfsWrite (stages 1) driver read.2 target off read.1).bind fun written =>
            if written.1 ≠ read.1.length then some (false, written.2)
            else if read.1.length < readBuf then some (true, written.2)
            else copyLoop driver source target fuel (fun stage => stages (stage + 2))
              (u32 (off + read.1.length)) written.2

def copyFileContents (source target : Nat) (storage : Storage) : Option (Bool × Storage) :=
  copyLoop driver source target fuel stages 0 (storage.truncate target)

/-- `cmd_cp` with two arguments.  If the first is the option, the destination is missing. -/
def cmdCp (src dst : List UInt8) (storage : Storage) : Option (Int × Storage) :=
  if src = literal "-r" ∨ src = literal "-R" then some (1, storage)
  else
    (vfsResolve storage.fs (.of src) caller.cwd).bind fun source =>
      match source with
      | none => some (1, storage)
      | some id =>
          match storage.fs.node id with
          | none => none
          | some node =>
              if node.type = vfsDirectory then some (1, storage)
              else
                (sysCreate stages caller (.of dst) storage).bind fun created =>
                  match created.1 with
                  | none => some (1, created.2)
                  | some target =>
                      (copyFileContents (fun stage => stages (stage + 1)) driver fuel id target
                        created.2).map fun copied => (if copied.1 then 0 else 1, copied.2)

def isOptions (arg : List UInt8) : Bool := arg.head? = some 45 ∧ 1 < arg.length

/-- `cmd_rm` with one argument.  Behind options, known or not, no path is left. -/
def cmdRm (arg : List UInt8) (storage : Storage) : Option (Int × Storage) :=
  if isOptions arg then some (1, storage)
  else
    (vfsResolve storage.fs (.of arg) caller.cwd).bind fun target =>
      match target with
      | none => some (1, storage)
      | some id =>
          match storage.fs.node id with
          | none => none
          | some node =>
              if node.type = vfsDirectory then some (1, storage)
              else
                (vfsDelete caller.cred storage.fs storage.store (.of arg) caller.cwd).map
                  fun deleted => (if deleted.1 = 0 then 0 else 1,
                    { storage with fs := deleted.2.1, store := deleted.2.2 })

def cmdMv (src dst : List UInt8) (storage : Storage) : Option (Int × Storage) :=
  (cmdCp stages driver fuel caller src dst storage).bind fun copied =>
    if copied.1 = 0 then (cmdRm caller src copied.2).map fun removed => (0, removed.2)
    else some copied

end Commands

/-! ## What the commands promise -/

/-- The absolute path of a destination leads to a node, a file and no directory, that holds an
array of bytes. -/
structure HoldsCopy (before : Storage) (caller : Caller) (dst : List UInt8) (after : Storage)
    (target : Nat) (bytes : List UInt8) : Prop where
  path : ∃ norm, absNormalize before.fs (.of dst) caller.cwd = some norm ∧
    vfsResolve after.fs (.of norm) none = some (some target)
  file : ∃ node, after.fs.node target = some node ∧ node.type ≠ vfsDirectory
  holds : after.FileHolds target bytes

structure KeepsFile (caller : Caller) (src : List UInt8) (after : Storage) (id : Nat)
    (bytes : List UInt8) : Prop where
  path : vfsResolve after.fs (.of src) caller.cwd = some (some id)
  holds : after.FileHolds id bytes

structure NamesFile (caller : Caller) (src : List UInt8) (before : Storage) (id : Nat)
    (node : VfsNode) (bytes : List UInt8) : Prop where
  path : vfsResolve before.fs (.of src) caller.cwd = some (some id)
  found : before.fs.node id = some node
  file : node.type ≠ vfsDirectory
  holds : node.HoldsBytes before.store before.disk bytes

/-- What `cp` promises: after a success the destination holds the bytes of the source, and the
source is as it was in any case. -/
structure CpCopies (caller : Caller) (src dst : List UInt8) (before : Storage) (code : Int)
    (after : Storage) : Prop where
  copied : code = 0 → ∃ id, vfsResolve before.fs (.of src) caller.cwd = some (some id) ∧
    ∀ node bytes, NamesFile caller src before id node bytes →
      ∃ target, HoldsCopy before caller dst after target bytes
  kept : ∀ id node bytes, NamesFile caller src before id node bytes →
    KeepsFile caller src after id bytes

/-- What `mv` promises: after a success the destination holds the bytes of the source, and the
source is gone unless it is the destination; after an error the source is as it was. -/
structure MvMoves (caller : Caller) (src dst : List UInt8) (before : Storage) (code : Int)
    (after : Storage) : Prop where
  moved : code = 0 → ∃ id, vfsResolve before.fs (.of src) caller.cwd = some (some id) ∧
    ∀ node bytes, NamesFile caller src before id node bytes →
      ∃ target, HoldsCopy before caller dst after target bytes ∧
        (target ≠ id → after.fs.node id = none)
  kept : code ≠ 0 → ∀ id node bytes, NamesFile caller src before id node bytes →
    KeepsFile caller src after id bytes

/-! ## When they keep it -/

def Offered (platform : Platform) (cred : Cred) (fs : Fs) (path : PathArg) (cwd : Option Nat) :
    Prop :=
  (∃ parent name, MayCreate platform cred fs path cwd parent name) ∨
    ∃ parent name target, MayOpen cred fs path cwd parent name target

/-- A destination for a copy: what `vfs_create` creates is found again, what it opens is another
file, no directory, that shares no block with the source, and the source is not so long that the
sums of a write wrap around and can be read. -/
structure CopyClear (stages : Nat → Platform) (caller : Caller) (dst : List UInt8)
    (storage : Storage) (id : Nat) (node : VfsNode) (bytes : List UInt8) : Prop where
  created : ∀ parent name, MayCreate (stages 0) caller.cred storage.fs (.of dst) caller.cwd
    parent name → FoundAgain storage.fs parent name
  opened : ∀ parent name target, MayOpen caller.cred storage.fs (.of dst) caller.cwd parent name
    target → name ≠ [slash] ∧ target ≠ id ∧ ∃ there old, storage.fs.node target = some there ∧
      there.type ≠ vfsDirectory ∧ there.HoldsBytes storage.store storage.disk old ∧
      BlocksApart node.blockList there.blockList
  size : bytes.length + (blockSize - 1) < 2 ^ 32
  reads : ∀ stage, (stages stage).faults.SparesReads storage.store node.blockList

/-- A source that `rm` removes: it is not taken for options, and the caller may delete it. -/
structure MoveClear (caller : Caller) (src : List UInt8) (storage : Storage) (node : VfsNode) :
    Prop where
  operand : isOptions src = false
  deletes : ∃ parent above, node.parent = some parent ∧ storage.fs.node parent = some above ∧
    checkAccess caller.cred above accWrite = true ∧ stickyForbids caller.cred above node = false

/-! ## The loop -/

def Storage.HoldsApart (storage : Storage) (target : Nat) (bytes : List UInt8)
    (node : VfsNode) : Prop :=
  ∃ other, storage.fs.node target = some other ∧
    other.HoldsBytes storage.store storage.disk bytes ∧
    BlocksApart node.blockList other.blockList

structure CopyAt (source target off : Nat) (node : VfsNode) (bytes : List UInt8)
    (start storage : Storage) : Prop where
  geometry : start.store.SameGeometry storage.store
  found : storage.fs.node source = some node
  holds : node.HoldsBytes storage.store storage.disk bytes
  there : storage.HoldsApart target (bytes.take off) node

structure Fs.Refilled (fs : Fs) (id : Nat) (fs' : Fs) : Prop where
  root : fs'.root = fs.root
  next : fs'.next = fs.next
  others : ∀ other, other ≠ id → fs'.node other = fs.node other
  self : ∃ node node', fs.node id = some node ∧ fs'.node id = some node' ∧
    node.SameButContents node'

theorem VfsNode.SameButContents.trans {first second third : VfsNode}
    (before : first.SameButContents second) (after : second.SameButContents third) :
    first.SameButContents third := by
  rw [VfsNode.SameButContents] at before after ⊢
  rw [after, before]

theorem Fs.Refilled.refl {fs : Fs} {id : Nat} {node : VfsNode} (found : fs.node id = some node) :
    fs.Refilled id fs :=
  ⟨rfl, rfl, fun _ _ => rfl, node, node, found, found, rfl⟩

theorem Fs.Refilled.trans {first second third : Fs} {id : Nat} (before : first.Refilled id second)
    (after : second.Refilled id third) : first.Refilled id third := by
  rcases before.self with ⟨node, middle, found, found', same⟩
  rcases after.self with ⟨node', last, again, found'', same'⟩
  cases found'.symm.trans again
  exact ⟨after.root.trans before.root, after.next.trans before.next, fun other different =>
    (after.others other different).trans (before.others other different), node, last, found,
    found'', same.trans same'⟩

theorem Fs.Refilled.modify {fs : Fs} {id : Nat} {node node' : VfsNode}
    (found : fs.node id = some node) (same : node.SameButContents node') :
    fs.Refilled id (fs.modify id fun _ => node') :=
  ⟨rfl, rfl, fun _ different => Fs.modify_node_of_ne fs _ different, node, node', found,
    by rw [Fs.modify_node_self, found, Option.map_some], same⟩

section Loop

variable {source target : Nat} {node : VfsNode} {bytes : List UInt8} {start : Storage}

/-- Setting the size of a file to zero starts a copy to it. -/
theorem CopyAt.begin {storage : Storage} {there : VfsNode} {old : List UInt8}
    (different : source ≠ target) (found : storage.fs.node source = some node)
    (holds : node.HoldsBytes storage.store storage.disk bytes)
    (isThere : storage.fs.node target = some there)
    (held : there.HoldsBytes storage.store storage.disk old)
    (apart : BlocksApart node.blockList there.blockList) :
    storage.fs.Refilled target (storage.truncate target).fs ∧
      CopyAt source target 0 node bytes storage (storage.truncate target) := by
  have cut : (storage.truncate target).fs.node target = some there.truncate := by
    rw [Storage.truncate, Fs.modify_node_self, isThere, Option.map_some]
  refine ⟨⟨rfl, rfl, fun _ other => Fs.modify_node_of_ne _ _ other, there, there.truncate, isThere,
    cut, rfl⟩, .refl _, (Fs.modify_node_of_ne _ _ different).trans found, holds, there.truncate,
    cut, ?_, apart⟩
  rcases Session.FileHolds.truncate ⟨there, isThere, held⟩ with ⟨after, isCut, empty⟩
  rw [cut] at isCut
  rw [List.take_zero, Option.some.inj isCut]
  exact empty

/-- A chunk behind a front of an array is the next part of it. -/
theorem writeAt_take (off size : Nat)
    (some : slice bytes off size ≠ []) :
    writeAt (bytes.take off) (bytes.take off).length (slice bytes off size) =
      bytes.take (off + size) := by
  rw [writeAt, if_neg some, Nat.sub_self, List.replicate_zero, List.append_nil, splice,
    List.take_length, List.drop_eq_nil_of_le (Nat.le_add_right _ _), List.append_nil, slice,
    List.take_add]

theorem CopyAt.reads {stages : Nat → Platform} {driver off : Nat} {storage : Storage}
    (at_ : CopyAt source target off node bytes start storage)
    (reads : ∀ stage, (stages stage).faults.SparesReads start.store node.blockList) :
    vfsRead (stages 0) driver storage source off readBuf =
      some (slice bytes off readBuf, storage) := by
  have healthy : (stages 0).faults.SparesReads storage.store node.blockList :=
    fun listed member lba sector => reads 0 listed member lba
      ((at_.geometry.blockSectors listed.toNat lba).mp sector)
  rw [vfsRead, at_.found]
  simp only [at_.holds.ordinary]
  rw [ramfsRead_healthy at_.found at_.holds healthy]
  rfl

/-- One round of the loop: a write that fails leaves the source, and one in full leaves the next
part of the copy as well. -/
theorem CopyAt.round {platform : Platform} {driver off count : Nat} {storage storage' : Storage}
    (at_ : CopyAt source target off node bytes start storage) (different : source ≠ target)
    (aligned : off % blockSize = 0) (inside : off ≤ bytes.length)
    (fits : bytes.length + (blockSize - 1) < 2 ^ 32) (some : slice bytes off readBuf ≠ [])
    (written : vfsWrite platform driver storage target off (slice bytes off readBuf) =
      Option.some (count, storage')) :
    storage.fs.Refilled target storage'.fs ∧ storage'.fs.node source = Option.some node ∧
      node.HoldsBytes storage'.store storage'.disk bytes ∧
      (count = (slice bytes off readBuf).length →
        CopyAt source target (off + readBuf) node bytes start storage') := by
  rcases at_ with ⟨geometry, found, holds, other, there, prefix_, apart⟩
  rw [vfsWrite, there] at written
  simp only [prefix_.ordinary] at written
  rcases ramfsWrite_takes there written with ⟨other', added, takes⟩
  have refilled : storage.fs.Refilled target storage'.fs := by
    rw [takes.fs]
    exact .modify there takes.contents
  have found' : storage'.fs.node source = Option.some node :=
    (refilled.others source different).trans found
  have holds' := takes.beside holds apart
  refine ⟨refilled, found', holds', fun full => ?_⟩
  have length : (bytes.take off).length = off := by
    rw [List.length_take, Nat.min_eq_left inside]
  have chunk : (slice bytes off readBuf).length = min readBuf (bytes.length - off) := by
    rw [slice, List.length_take, List.length_drop]
  have block : readBuf = blockSize := rfl
  have file : storage'.FileHolds target (bytes.take (off + readBuf)) := by
    rw [← writeAt_take off readBuf some]
    rw [full] at written
    apply ramfsWrite_appends there prefix_ _ _ some
    · rw [length, chunk]
      omega
    · rw [length]
      exact written
    · rw [length]
      exact aligned
    · rw [chunk]
      omega
  rcases file with ⟨after, found'', held⟩
  have same : after = other' := by
    rw [takes.fs, Fs.modify_node_self, there] at found''
    exact (Option.some.inj found'').symm
  refine ⟨geometry.trans takes.geometry, found', holds', after, found'', held, ?_⟩
  rw [same]
  exact takes.apart holds.lists apart

/-- The loop of `copy_file_contents` leaves the source and changes only the contents of the
target, and if it ends well then the target holds the bytes of the source. -/
theorem copyLoop_copies {driver fuel : Nat} (different : source ≠ target)
    (fits : bytes.length + (blockSize - 1) < 2 ^ 32) :
    ∀ {stages : Nat → Platform} {off : Nat} {storage storage' : Storage} {ended : Bool},
      (∀ stage, (stages stage).faults.SparesReads start.store node.blockList) →
      CopyAt source target off node bytes start storage → off % blockSize = 0 →
      off ≤ bytes.length →
      copyLoop driver source target fuel stages off storage = some (ended, storage') →
      storage.fs.Refilled target storage'.fs ∧ storage'.fs.node source = some node ∧
        node.HoldsBytes storage'.store storage'.disk bytes ∧
        (ended = true → storage'.HoldsApart target bytes node) := by
  induction fuel with
  | zero =>
      intro stages off storage storage' ended _ _ _ _ ran
      cases ran
  | succ fuel known =>
      intro stages off storage storage' ended reads at_ aligned inside ran
      have block : readBuf = blockSize := rfl
      have chunk : (slice bytes off readBuf).length = min readBuf (bytes.length - off) := by
        rw [slice, List.length_take, List.length_drop]
      rw [copyLoop, at_.reads reads, Option.bind_some] at ran
      dsimp only at ran
      by_cases empty : (slice bytes off readBuf).length = 0
      · rw [if_pos empty] at ran
        cases ran
        rcases at_.there with ⟨other, there, prefix_, apart⟩
        refine ⟨.refl there, at_.found, at_.holds, fun _ => ?_⟩
        have positive : 0 < readBuf := by decide
        rw [List.take_of_length_le (by omega)] at prefix_
        exact ⟨other, there, prefix_, apart⟩
      rw [if_neg empty] at ran
      have some_ : slice bytes off readBuf ≠ [] := fun nil => empty (by rw [nil]; rfl)
      rcases Option.bind_eq_some_iff.mp ran with ⟨⟨count, middle⟩, written, rest⟩
      rcases at_.round different aligned inside fits some_ written with
        ⟨refilled, found', holds', next⟩
      dsimp only at rest
      by_cases short : count ≠ (slice bytes off readBuf).length
      · rw [if_pos short] at rest
        cases rest
        exact ⟨refilled, found', holds', fun never => absurd never (by decide)⟩
      rw [if_neg short] at rest
      have at' := next (not_not.mp short)
      by_cases last : (slice bytes off readBuf).length < readBuf
      · rw [if_pos last] at rest
        cases rest
        refine ⟨refilled, found', holds', fun _ => ?_⟩
        rcases at'.there with ⟨other, there, prefix_, apart⟩
        rw [List.take_of_length_le (by omega)] at prefix_
        exact ⟨other, there, prefix_, apart⟩
      rw [if_neg last] at rest
      have full : (slice bytes off readBuf).length = readBuf := by omega
      rw [full, u32_of_small (by omega)] at rest
      rcases known (fun stage => reads (stage + 2)) at' (by rw [block]; simp [aligned]) (by omega)
        rest with ⟨later, found'', holds'', ends⟩
      exact ⟨refilled.trans later, found'', holds'', ends⟩

theorem copyLoop_returns {driver fuel : Nat} (different : source ≠ target)
    (fits : bytes.length + (blockSize - 1) < 2 ^ 32) :
    ∀ {stages : Nat → Platform} {off : Nat} {storage : Storage},
      (∀ stage, (stages stage).faults.SparesReads start.store node.blockList) →
      CopyAt source target off node bytes start storage → off % blockSize = 0 →
      off ≤ bytes.length → bytes.length < off + fuel * readBuf →
      ∃ outcome, copyLoop driver source target fuel stages off storage = some outcome := by
  induction fuel with
  | zero =>
      intro stages off storage _ _ _ inside enough
      omega
  | succ fuel known =>
      intro stages off storage reads at_ aligned inside enough
      have block : readBuf = blockSize := rfl
      have chunk : (slice bytes off readBuf).length = min readBuf (bytes.length - off) := by
        rw [slice, List.length_take, List.length_drop]
      rw [copyLoop, at_.reads reads, Option.bind_some]
      dsimp only
      by_cases empty : (slice bytes off readBuf).length = 0
      · rw [if_pos empty]
        exact ⟨_, rfl⟩
      rw [if_neg empty]
      have some_ : slice bytes off readBuf ≠ [] := fun nil => empty (by rw [nil]; rfl)
      have returns : ∃ outcome, vfsWrite (stages 1) driver storage target off
          (slice bytes off readBuf) = some outcome := by
        rcases at_.there with ⟨other, there, prefix_, -⟩
        rw [vfsWrite, there]
        simp only [prefix_.ordinary]
        exact ramfsWrite_returns there (by omega)
      rcases returns with ⟨⟨count, middle⟩, written⟩
      rw [written, Option.bind_some]
      dsimp only
      by_cases short : count ≠ (slice bytes off readBuf).length
      · rw [if_pos short]
        exact ⟨_, rfl⟩
      rw [if_neg short]
      by_cases last : (slice bytes off readBuf).length < readBuf
      · rw [if_pos last]
        exact ⟨_, rfl⟩
      rw [if_neg last]
      have at' := (at_.round different aligned inside fits some_ written).2.2.2 (not_not.mp short)
      have full : (slice bytes off readBuf).length = readBuf := by omega
      rw [full, u32_of_small (by omega)]
      exact known (fun stage => reads (stage + 2)) at' (by rw [block]; simp [aligned]) (by omega)
        (by rw [Nat.succ_mul] at enough; omega)

end Loop

/-! ## The heap around a copy -/

section Heap

variable {fs fs' : Fs} {id target : Nat}

theorem VfsNode.SameButContents.searched {first second : VfsNode}
    (same : first.SameButContents second) : second.searched = first.searched := by
  rw [same]
  rfl

theorem Fs.Refilled.named (refilled : fs.Refilled target fs') (name : List UInt8) :
    fs'.named name = fs.named name := by
  funext other
  rw [Fs.named, Fs.named]
  by_cases here : other = target
  · rcases refilled.self with ⟨node, node', found, found', same⟩
    rw [here, found, found', Option.any_some, Option.any_some, same]
  · rw [refilled.others other here]

theorem Fs.Refilled.finddir (refilled : fs.Refilled target fs') (dir : Nat) (name : List UInt8) :
    vfsFinddir fs' dir name = vfsFinddir fs dir name := by
  by_cases here : dir = target
  · rcases refilled.self with ⟨node, node', found, found', same⟩
    have children : node'.children = node.children := by rw [same]
    rw [here, vfsFinddir_eq found', vfsFinddir_eq found, same.searched, children,
      refilled.named name]
  · have same := refilled.others dir here
    cases found : fs.node dir with
    | none =>
        rw [found] at same
        rw [vfsFinddir, vfsFinddir, ramfsFinddir, ramfsFinddir, same, found]
    | some node =>
        rw [found] at same
        rw [vfsFinddir_eq same, vfsFinddir_eq found, refilled.named name]

theorem Fs.Refilled.extends (refilled : fs.Refilled target fs') : fs.Extends fs' where
  root := refilled.root
  more := Nat.le_of_eq refilled.next.symm
  kept := by
    intro other node found
    by_cases here : other = target
    · rcases refilled.self with ⟨before, after, held, held', same⟩
      subst here
      cases found.symm.trans held
      exact ⟨after, held', by rw [same], by rw [same]⟩
    · exact ⟨node, (refilled.others other here).trans found, rfl, rfl⟩
  finds := fun dir name child entry => (refilled.finddir dir name).trans entry

theorem Fs.Refilled.linked (refilled : fs.Refilled target fs') (linked : fs.Linked) :
    fs'.Linked := by
  apply linked.of_same
  refine ⟨refilled.root, refilled.next, fun other => ?_⟩
  by_cases here : other = target
  · rcases refilled.self with ⟨before, after, held, held', same⟩
    rw [here, held, held', Option.map_some, Option.map_some, same]
    rfl
  · rw [refilled.others other here]

theorem find?_erase_of_neg {l : List Nat} {removed : Nat} {sought : Nat → Bool}
    (gone : sought removed = false) : (l.erase removed).find? sought = l.find? sought := by
  induction l with
  | nil => rfl
  | cons head rest known =>
      by_cases isRemoved : head = removed
      · rw [isRemoved, List.erase_cons_head, List.find?_cons_of_neg (by rw [gone]; decide)]
      · rw [List.erase_cons_tail (by simpa using isRemoved), List.find?_cons, List.find?_cons,
          known]

/-- What was found is found when another element is no longer looked for. -/
theorem find?_of_agree {l : List Nat} {removed child : Nat} {first second : Nat → Bool}
    (same : ∀ other, other ≠ removed → second other = first other)
    (different : child ≠ removed) (gone : second removed = false)
    (found : l.find? first = some child) : l.find? second = some child := by
  induction l with
  | nil => cases found
  | cons head rest known =>
      by_cases isRemoved : head = removed
      · rw [isRemoved, List.find?_cons_of_neg (by rw [gone]; decide)]
        apply known
        by_cases hit : first head = true
        · rw [List.find?_cons_of_pos hit] at found
          exact absurd ((Option.some.inj found).symm.trans isRemoved) different
        · rwa [List.find?_cons_of_neg hit] at found
      · by_cases hit : first head = true
        · rw [List.find?_cons_of_pos hit] at found
          rw [List.find?_cons_of_pos ((same head isRemoved).trans hit)]
          exact found
        · rw [List.find?_cons_of_neg hit] at found
          rw [List.find?_cons_of_neg (by rw [same head isRemoved]; exact hit)]
          exact known found

/-- A directory still finds its other entries after one was removed. -/
theorem vfsFinddir_removed {parent removed dir child : Nat} {name : List UInt8}
    (entry : vfsFinddir fs dir name = some child) (other : child ≠ removed)
    (outside : dir ≠ removed) :
    vfsFinddir ((fs.modify parent (VfsNode.detach removed)).free removed) dir name =
      some child := by
  have names : ∀ sought : Nat, sought ≠ removed →
      ((fs.modify parent (VfsNode.detach removed)).free removed).named name sought =
        fs.named name sought := by
    intro sought different
    rw [Fs.named, Fs.named, Fs.free_node_of_ne _ different]
    by_cases isParent : sought = parent
    · rw [isParent, Fs.modify_node_self]
      cases fs.node parent <;> rfl
    · rw [Fs.modify_node_of_ne _ _ isParent]
  have gone : ((fs.modify parent (VfsNode.detach removed)).free removed).named name removed =
      false := by
    rw [Fs.named, Fs.free_node_self, Option.any_none]
  rcases Fs.live_of_mem_childrenOf (vfsFinddir_mem entry).1 with ⟨node, found, -⟩
  rw [vfsFinddir_eq found] at entry
  by_cases searched : node.searched
  · rw [if_pos searched] at entry
    have finds := find?_of_agree names other gone entry
    by_cases isParent : dir = parent
    · have found' : ((fs.modify parent (VfsNode.detach removed)).free removed).node dir =
          some (node.detach removed) := by
        rw [Fs.free_node_of_ne _ outside, isParent, Fs.modify_node_self, ← isParent, found,
          Option.map_some]
      rw [vfsFinddir_eq found']
      exact (if_pos searched).trans ((find?_erase_of_neg gone).trans finds)
    · have found' : ((fs.modify parent (VfsNode.detach removed)).free removed).node dir =
          some node := by
        rw [Fs.free_node_of_ne _ outside, Fs.modify_node_of_ne _ _ isParent, found]
      rw [vfsFinddir_eq found']
      exact (if_pos searched).trans finds
  · rw [if_neg searched] at entry
    cases entry

/-- A walk to another node that does not pass through the removed one. -/
theorem vfsWalk_removed {parent removed : Nat} {node : VfsNode}
    (found : fs.node removed = some node) (file : node.type ≠ vfsDirectory)
    {names : List (List UInt8)} (other : id ≠ removed) :
    ∀ {start : Option Nat}, vfsWalk fs start names = some id →
      vfsWalk ((fs.modify parent (VfsNode.detach removed)).free removed) start names = some id := by
  have leaf : ∀ name, vfsFinddir fs removed name = none := by
    intro name
    rw [vfsFinddir_eq found, if_neg]
    simp [VfsNode.searched, file]
  induction names with
  | nil => exact fun walked => walked
  | cons name rest known =>
      intro start walked
      cases start with
      | none =>
          rw [vfsWalk_none] at walked
          cases walked
      | some dir =>
          rw [vfsWalk, Option.bind_some] at walked ⊢
          cases entry : vfsFinddir fs dir name with
          | none =>
              rw [entry, vfsWalk_none] at walked
              cases walked
          | some child =>
              rw [entry] at walked
              have outside : dir ≠ removed := by
                rintro rfl
                rw [leaf name] at entry
                cases entry
              have notRemoved : child ≠ removed := by
                rintro rfl
                cases rest with
                | nil => exact other (Option.some.inj walked).symm
                | cons next more =>
                    rw [vfsWalk, Option.bind_some, leaf next, vfsWalk_none] at walked
                    cases walked
              rw [vfsFinddir_removed entry notRemoved outside]
              exact known walked

/-- The absolute path of a resolved path, in another heap. -/
theorem vfsResolve_absolute {path : PathArg} {cwd : Option Nat} {norm : List UInt8}
    (normalized : absNormalize fs path cwd = some norm)
    (resolved : vfsResolve fs path cwd = some (some id)) :
    ∃ names, vfsWalk fs fs.root names = some id ∧
      ∀ later : Fs, vfsResolve later (.of norm) none = some (vfsWalk later later.root names) := by
  rcases absNormalize_output normalized with ⟨names, output⟩
  refine ⟨names, ?_, fun later => ?_⟩
  · rw [vfsResolve, normalized, Option.map_some, output.tokens] at resolved
    exact Option.some.inj resolved
  · have short := output.short
    rw [output.built] at short ⊢
    exact vfsResolve_names later output.valid output.few short

end Heap

/-! ## Giving blocks back -/

section Free

variable {store : Blockfs} {disk : Disk} {node : VfsNode} {bytes : List UInt8}

theorem freeBlock_bitmap_of_ne {block other : Nat} (different : other ≠ block) :
    (store.freeBlock block).bitmap other = store.bitmap other := by
  rw [Blockfs.freeBlock]
  split
  · simp [different]
  · rfl

/-- Giving back a list of blocks keeps the marks of all others. -/
theorem foldl_freeBlock (blocks : List UInt32) :
    ∀ store : Blockfs,
      store.SameGeometry (blocks.foldl (fun store block => store.freeBlock block.toNat) store) ∧
        ∀ other : UInt32, other ∉ blocks →
          (blocks.foldl (fun store block => store.freeBlock block.toNat) store).bitmap other.toNat =
            store.bitmap other.toNat := by
  induction blocks with
  | nil => exact fun store => ⟨.refl store, fun _ _ => rfl⟩
  | cons block rest known =>
      intro store
      rcases known (store.freeBlock block.toNat) with ⟨same, marks⟩
      refine ⟨(Blockfs.freeBlock_geometry store block.toNat).trans same, fun other outside => ?_⟩
      have different := List.ne_of_not_mem_cons outside
      rw [List.foldl_cons, marks other (List.not_mem_of_not_mem_cons outside)]
      exact freeBlock_bitmap_of_ne fun equal => different (UInt32.toNat_inj.mp equal)

/-- A file keeps its bytes when the blocks of another one are given back. -/
theorem VfsNode.HoldsBytes.free {other : VfsNode} (holds : node.HoldsBytes store disk bytes)
    (apart : BlocksApart other.blockList node.blockList) :
    node.HoldsBytes (other.freeBlocks store) disk bytes := by
  rw [VfsNode.freeBlocks]
  split
  swap
  · exact holds
  rcases foldl_freeBlock (other.blocks.getD []) store with ⟨same, marks⟩
  refine ⟨holds.ordinary, holds.size, fun available => ?_, fun backed => ?_, holds.inMemory,
    fun position inside => ?_⟩
  · rw [same.available] at available
    exact same.layout (holds.medium available)
  · rcases holds.onDisk backed with ⟨available, lists, room⟩
    refine ⟨same.available.trans available, ⟨lists.distinct, fun block member => ?_,
      fun block member => ?_⟩, room⟩
    · rw [same.total]
      exact lists.inside block member
    · rw [marks block fun listed => apart block listed member]
      exact lists.marked block member
  · rw [← holds.content position inside, VfsNode.contentByte, VfsNode.contentByte, same.blockByte]

end Free

/-! ## The destination -/

def VfsNode.access (node : VfsNode) : UInt32 × UInt32 × UInt32 :=
  (node.permissions, node.ownerUid, node.ownerGid)

structure OpenedTarget (caller : Caller) (dst : List UInt8) (storage : Storage) (id : Nat)
    (node : VfsNode) (target : Nat) (fs' : Fs) : Prop where
  normalized : ∃ norm, absNormalize storage.fs (.of dst) caller.cwd = some norm
  linked : fs'.Linked
  extends_ : storage.fs.Extends fs'
  resolves : vfsResolve fs' (.of dst) caller.cwd = some (some target)
  found : fs'.node id = some node
  different : id ≠ target
  there : ∃ there old, fs'.node target = some there ∧ there.type ≠ vfsDirectory ∧
    there.HoldsBytes storage.store storage.disk old ∧ BlocksApart node.blockList there.blockList
  access : ∀ dir above, storage.fs.node dir = some above →
    ∃ above', fs'.node dir = some above' ∧ above'.access = above.access

section Opening

variable {stages : Nat → Platform} {caller : Caller} {src dst : List UInt8} {storage : Storage}
  {id target : Nat} {node : VfsNode} {bytes : List UInt8} {fs' : Fs}

theorem VfsNode.create_holds (holds : node.HoldsBytes storage.store storage.disk bytes)
    (now : UInt32) (parent : Option Nat) (name : List UInt8) (cred : Cred) (permissions : UInt32) :
    ((VfsNode.create now parent name vfsFile).own cred permissions).HoldsBytes storage.store
      storage.disk [] :=
  ⟨rfl, rfl, holds.medium, fun backed => absurd (show false = true from backed) (by decide),
    fun _ => ⟨rfl, Nat.zero_le _⟩, fun position inside => absurd inside (Nat.not_lt_zero position)⟩

theorem CreatedBelow.opened {parent : Nat} {name : List UInt8} {above : VfsNode} {cred : Cred}
    {permissions : UInt32} (linked : storage.fs.Linked) (live : storage.fs.node id = some node)
    (holds : node.HoldsBytes storage.store storage.disk bytes) (notParent : id ≠ parent)
    (isParent : storage.fs.node parent = some above)
    (created : CreatedBelow storage.fs parent name vfsFile (VfsNode.own cred permissions) target
      fs') :
    fs'.node id = some node ∧ id ≠ target ∧
      (∃ there old, fs'.node target = some there ∧ there.type ≠ vfsDirectory ∧
        there.HoldsBytes storage.store storage.disk old ∧
        BlocksApart node.blockList there.blockList) ∧
      ∀ dir above, storage.fs.node dir = some above →
        ∃ above', fs'.node dir = some above' ∧ above'.access = above.access := by
  have older := linked.bounded.lt isParent
  have below := linked.bounded.lt live
  have nodes := created.nodes linked (by rw [isParent]; exact Option.some_ne_none above)
  have new := nodes.new
  have notNew : id ≠ target := by omega
  refine ⟨(nodes.others id notNew notParent).trans live, notNew, ?_, fun dir above held => ?_⟩
  · rcases created with ⟨granted, now, made, made_, rfl⟩
    refine ⟨_, [], ?_, ?_, VfsNode.create_holds holds now (some parent) name cred permissions, ?_⟩
    · rw [Fs.modify_node_self, ramfsCreateNode_new older made_, Option.map_some]
    · change vfsFile ≠ vfsDirectory
      decide
    · exact fun block _ listed => absurd listed List.not_mem_nil
  · have lt := linked.bounded.lt held
    by_cases here : dir = parent
    · subst here
      exact ⟨above.attach target, by rw [nodes.above, held, Option.map_some], rfl⟩
    · exact ⟨above, by rw [nodes.others dir (by omega) here, held], rfl⟩

theorem CopyClear.resolves (clear : CopyClear stages caller dst storage id node bytes)
    (linked : storage.fs.Linked)
    (normalized : ∃ norm, absNormalize storage.fs (.of dst) caller.cwd = some norm) :
    ResolvesCreated (vfsCreate (stages 0) caller.cred caller.umask) storage.fs (.of dst)
      caller.cwd :=
  (vfsCreate_resolves_iff linked).mpr ⟨normalized, clear.created,
    fun parent name other opens => (clear.opened parent name other opens).1⟩

theorem vfsCreate_opened (linked : storage.fs.Linked)
    (names : NamesFile caller src storage id node bytes)
    (clear : CopyClear stages caller dst storage id node bytes)
    (made : vfsCreate (stages 0) caller.cred caller.umask storage.fs (.of dst) caller.cwd =
      some (some target, fs')) : OpenedTarget caller dst storage id node target fs' := by
  have taken : (vfsParent storage.fs (.of dst) caller.cwd).isSome = true := by
    rcases Option.map_eq_some_iff.mp made with ⟨taken, isTaken, -⟩
    rw [isTaken]
    rfl
  have resolves := clear.resolves linked (normalized_of_vfsParent taken)
  have linked' := vfsCreate_linked linked made
  have leads := resolves.found target fs' made
  rcases vfsCreate_cases made with ⟨none_, -⟩ | ⟨parent, name, other, same, rfl, isParent, entry,
    permitted⟩ | ⟨parent, name, other, same, creates, created⟩
  · cases none_
  · cases same
    have directory : ∃ above, storage.fs.node parent = some above ∧ above.type = vfsDirectory := by
      rcases Fs.live_of_mem_childrenOf (vfsFinddir_mem entry).1 with ⟨above, found, -⟩
      refine ⟨above, found, ?_⟩
      rw [vfsFinddir_eq found] at entry
      by_contra notDirectory
      rw [if_neg (by simp [VfsNode.searched, notDirectory])] at entry
      cases entry
    rcases clear.opened parent name target ⟨isParent, directory, entry, permitted⟩ with
      ⟨-, different, there⟩
    exact ⟨normalized_of_vfsParent taken, linked', .refl _, leads, names.found, different.symm,
      there, fun dir above held => ⟨above, held, rfl⟩⟩
  · cases same
    rcases creates.directory with ⟨above, isAbove, directory⟩
    have notParent : id ≠ parent := by
      rintro rfl
      cases names.found.symm.trans isAbove
      exact names.file directory
    rcases created.opened linked names.found names.holds notParent isAbove with
      ⟨found, different, there, access⟩
    have nodes := created.nodes linked (by rw [isAbove]; exact Option.some_ne_none above)
    have live : storage.fs.node parent ≠ none := by
      rw [isAbove]
      exact Option.some_ne_none above
    exact ⟨normalized_of_vfsParent taken, linked', nodes.extends linked live, leads, found,
      different, there, access⟩

end Opening

/-! ## The commands on clear paths -/

section Runs

variable {stages : Nat → Platform} {driver fuel : Nat} {caller : Caller} {src dst : List UInt8}
  {storage after : Storage} {id target : Nat} {node : VfsNode} {bytes : List UInt8} {code : Int}

theorem offered_of_create {platform : Platform} {cred : Cred} {umask : UInt32} {fs fs' : Fs}
    {path : PathArg} {cwd : Option Nat}
    (made : vfsCreate platform cred umask fs path cwd = some (some target, fs')) :
    Offered platform cred fs path cwd := by
  rcases vfsCreate_cases made with ⟨none_, -⟩ | ⟨parent, name, other, -, -, isParent, entry,
    permitted⟩ | ⟨parent, name, other, -, creates, -⟩
  · cases none_
  · right
    refine ⟨parent, name, other, isParent, ?_, entry, permitted⟩
    rcases Fs.live_of_mem_childrenOf (vfsFinddir_mem entry).1 with ⟨above, found, -⟩
    refine ⟨above, found, ?_⟩
    rw [vfsFinddir_eq found] at entry
    by_contra notDirectory
    rw [if_neg (by simp [VfsNode.searched, notDirectory])] at entry
    cases entry
  · exact Or.inl ⟨parent, name, .of_create creates made⟩

/-- `cmd_cp` refuses and changes nothing, or copies a file to what `vfs_create` returns. -/
theorem cmdCp_cases (ran : cmdCp stages driver fuel caller src dst storage = some (code, after)) :
    (code = 1 ∧ after = storage) ∨
      ∃ id node target fs' ended, vfsResolve storage.fs (.of src) caller.cwd = some (some id) ∧
        storage.fs.node id = some node ∧ node.type ≠ vfsDirectory ∧
        vfsCreate (stages 0) caller.cred caller.umask storage.fs (.of dst) caller.cwd =
          some (some target, fs') ∧
        copyFileContents (fun stage => stages (stage + 1)) driver fuel id target
          { storage with fs := fs' } = some (ended, after) ∧
        code = if ended then 0 else 1 := by
  rw [cmdCp] at ran
  by_cases option : src = literal "-r" ∨ src = literal "-R"
  · rw [if_pos option] at ran
    cases ran
    exact Or.inl ⟨rfl, rfl⟩
  rw [if_neg option] at ran
  rcases Option.bind_eq_some_iff.mp ran with ⟨source, resolved, rest⟩
  cases source with
  | none =>
      cases rest
      exact Or.inl ⟨rfl, rfl⟩
  | some id =>
      dsimp only at rest
      cases found : storage.fs.node id with
      | none =>
          rw [found] at rest
          cases rest
      | some node =>
          rw [found] at rest
          dsimp only at rest
          by_cases directory : node.type = vfsDirectory
          · rw [if_pos directory] at rest
            cases rest
            exact Or.inl ⟨rfl, rfl⟩
          rw [if_neg directory] at rest
          rcases Option.bind_eq_some_iff.mp rest with ⟨⟨result, middle⟩, created, later⟩
          rcases Option.map_eq_some_iff.mp created with ⟨⟨result', fs'⟩, made, same⟩
          cases same
          cases result' with
          | none =>
              cases later
              rcases vfsCreate_cases made with ⟨-, rfl⟩ | ⟨_, _, _, some_, -⟩ | ⟨_, _, _, some_, -⟩
              · exact Or.inl ⟨rfl, rfl⟩
              · cases some_
              · cases some_
          | some target =>
              rcases Option.map_eq_some_iff.mp later with ⟨⟨ended, last⟩, copied, outcome⟩
              cases outcome
              exact Or.inr ⟨id, node, target, fs', ended, resolved, found, directory, made, copied,
                rfl⟩

structure CopyDone (caller : Caller) (dst : List UInt8) (storage : Storage) (id : Nat)
    (node : VfsNode) (bytes : List UInt8) (target : Nat) (fs' : Fs) (after : Storage) : Prop where
  opened : OpenedTarget caller dst storage id node target fs'
  refilled : fs'.Refilled target after.fs
  found : after.fs.node id = some node
  holds : node.HoldsBytes after.store after.disk bytes

/-- Setting the size of the target to zero starts the copy. -/
theorem OpenedTarget.start {fs' : Fs} (opened : OpenedTarget caller dst storage id node target fs')
    (names : NamesFile caller src storage id node bytes) :
    fs'.Refilled target (fs'.modify target VfsNode.truncate) ∧
      CopyAt id target 0 node bytes storage
        (({ storage with fs := fs' } : Storage).truncate target) := by
  rcases opened.there with ⟨there, old, found, -, holds, apart⟩
  rcases @CopyAt.begin id target node bytes { storage with fs := fs' } there old opened.different
    opened.found names.holds found holds apart with ⟨truncated, start⟩
  exact ⟨truncated, start.geometry, start.found, start.holds, start.there⟩

theorem copyFileContents_done {fs' : Fs} {ended : Bool} {stages' : Nat → Platform}
    (opened : OpenedTarget caller dst storage id node target fs')
    (names : NamesFile caller src storage id node bytes)
    (size : bytes.length + (blockSize - 1) < 2 ^ 32)
    (reads : ∀ stage, (stages' stage).faults.SparesReads storage.store node.blockList)
    (ran : copyFileContents stages' driver fuel id target { storage with fs := fs' } =
      some (ended, after)) :
    CopyDone caller dst storage id node bytes target fs' after ∧
      (ended = true → after.HoldsApart target bytes node) := by
  rcases opened.start names with ⟨truncated, start⟩
  rcases copyLoop_copies opened.different size reads start (Nat.zero_mod _) (Nat.zero_le _) ran with
    ⟨refilled, found, holds, ends⟩
  exact ⟨⟨opened, truncated.trans refilled, found, holds⟩, ends⟩

/-- Everything `cmd_cp` does with a file and a clear destination. -/
theorem cmdCp_done (linked : storage.fs.Linked)
    (names : NamesFile caller src storage id node bytes)
    (clear : CopyClear stages caller dst storage id node bytes)
    (ran : cmdCp stages driver fuel caller src dst storage = some (code, after)) :
    (code ≠ 0 ∧ after = storage) ∨
      ∃ target fs', CopyDone caller dst storage id node bytes target fs' after ∧
        (code = 0 → after.HoldsApart target bytes node) := by
  rcases cmdCp_cases ran with ⟨failed, same⟩ | ⟨id', node', target, fs', ended, resolved, found, -,
    made, copied, result⟩
  · exact Or.inl ⟨by rw [failed]; decide, same⟩
  · right
    cases names.path.symm.trans resolved
    cases names.found.symm.trans found
    have opened := vfsCreate_opened linked names clear made
    rcases copyFileContents_done opened names clear.size (fun stage => clear.reads (stage + 1))
      copied with ⟨done, ends⟩
    refine ⟨target, fs', done, fun success => ends ?_⟩
    cases ended with
    | true => rfl
    | false =>
        rw [result] at success
        exact absurd success (by decide)

theorem CopyDone.extends_ {fs' : Fs}
    (done : CopyDone caller dst storage id node bytes target fs' after) {path : PathArg}
    {dir : Option Nat} {other : Nat}
    (resolved : vfsResolve storage.fs path dir = some (some other)) :
    vfsResolve after.fs path dir = some (some other) :=
  vfsResolve_extends done.refilled.extends (vfsResolve_extends done.opened.extends_ resolved)

/-- The absolute path of the destination leads to the copy. -/
theorem CopyDone.leads {fs' : Fs}
    (done : CopyDone caller dst storage id node bytes target fs' after) {norm : List UInt8}
    (normalized : absNormalize storage.fs (.of dst) caller.cwd = some norm) :
    ∃ names, vfsWalk after.fs after.fs.root names = some target ∧
      ∀ later : Fs, vfsResolve later (.of norm) none = some (vfsWalk later later.root names) :=
  vfsResolve_absolute
    (absNormalize_extends done.refilled.extends
      (absNormalize_extends done.opened.extends_ normalized))
    (vfsResolve_extends done.refilled.extends done.opened.resolves)

/-- The target is a file before and after its contents were replaced. -/
theorem CopyDone.file {fs' : Fs}
    (done : CopyDone caller dst storage id node bytes target fs' after) :
    ∃ there, after.fs.node target = some there ∧ there.type ≠ vfsDirectory := by
  rcases done.refilled.self with ⟨before, there, held, held', same⟩
  rcases done.opened.there with ⟨other, -, found, file, -⟩
  cases held.symm.trans found
  exact ⟨there, held', by rw [same]; exact file⟩

theorem cmdCp_copies (linked : storage.fs.Linked)
    (clear : ∀ id node bytes, NamesFile caller src storage id node bytes →
      CopyClear stages caller dst storage id node bytes)
    (ran : cmdCp stages driver fuel caller src dst storage = some (code, after)) :
    CpCopies caller src dst storage code after := by
  constructor
  · intro success
    rcases cmdCp_cases ran with ⟨failed, -⟩ | ⟨id, node, target, fs', ended, resolved, -⟩
    · exact absurd (success.symm.trans failed) (by decide)
    refine ⟨id, resolved, fun node bytes names => ?_⟩
    rcases cmdCp_done linked names (clear id node bytes names) ran with ⟨failed, -⟩ |
      ⟨target, fs', done, ends⟩
    · exact absurd success failed
    rcases done.opened.normalized with ⟨norm, normalized⟩
    rcases done.leads normalized with ⟨walk, walked, absolute⟩
    rcases ends success with ⟨there, found, holds, -⟩
    exact ⟨target, ⟨norm, normalized, by rw [absolute, walked]⟩, done.file, there, found, holds⟩
  · intro id node bytes names
    rcases cmdCp_done linked names (clear id node bytes names) ran with ⟨-, rfl⟩ |
      ⟨target, fs', done, -⟩
    · exact ⟨names.path, node, names.found, names.holds⟩
    · exact ⟨done.extends_ names.path, node, done.found, done.holds⟩

/-- A `cp` whose destination is refused fails and changes nothing. -/
theorem cmdCp_refused
    (refused : ¬Offered (stages 0) caller.cred storage.fs (.of dst) caller.cwd)
    (ran : cmdCp stages driver fuel caller src dst storage = some (code, after)) :
    code = 1 ∧ after = storage := by
  rcases cmdCp_cases ran with failed | ⟨_, _, _, _, _, -, -, -, made, -⟩
  · exact failed
  · exact absurd (offered_of_create made) refused

theorem cmdCp_refused_returns
    (refused : ¬Offered (stages 0) caller.cred storage.fs (.of dst) caller.cwd)
    (names : NamesFile caller src storage id node bytes)
    (normalized : ∃ norm, absNormalize storage.fs (.of dst) caller.cwd = some norm) :
    ∃ outcome, cmdCp stages driver fuel caller src dst storage = some outcome := by
  rw [cmdCp]
  split
  · exact ⟨_, rfl⟩
  rw [names.path, Option.bind_some]
  dsimp only
  rw [names.found]
  dsimp only
  rw [if_neg names.file]
  rcases (returns_iff _).mpr normalized with ⟨⟨result, fs'⟩, made⟩
  have made : vfsCreate (stages 0) caller.cred caller.umask storage.fs (.of dst) caller.cwd =
    some (result, fs') := made
  rw [sysCreate, made, Option.map_some, Option.bind_some]
  cases result with
  | none => exact ⟨_, rfl⟩
  | some target => exact absurd (offered_of_create made) refused

/-- `cp` to a clear destination returns, if the paths fit their buffers and the fuel suffices. -/
theorem cmdCp_returns (linked : storage.fs.Linked)
    (names : NamesFile caller src storage id node bytes)
    (clear : CopyClear stages caller dst storage id node bytes)
    (normalized : ∃ norm, absNormalize storage.fs (.of dst) caller.cwd = some norm)
    (enough : bytes.length < fuel * readBuf) :
    ∃ outcome, cmdCp stages driver fuel caller src dst storage = some outcome := by
  rw [cmdCp]
  split
  · exact ⟨_, rfl⟩
  rw [names.path, Option.bind_some]
  dsimp only
  rw [names.found]
  dsimp only
  rw [if_neg names.file]
  rcases (clear.resolves linked normalized).returns with ⟨result, fs', made⟩
  rw [sysCreate, made, Option.map_some, Option.bind_some]
  cases result with
  | none => exact ⟨_, rfl⟩
  | some target =>
      have opened := vfsCreate_opened linked names clear made
      have start := (opened.start names).2
      rcases copyLoop_returns opened.different clear.size (fun stage => clear.reads (stage + 1))
        start (Nat.zero_mod _) (Nat.zero_le _) (by rw [Nat.zero_add]; exact enough) with
        ⟨outcome, ran⟩
      dsimp only
      rw [copyFileContents, ran]
      exact ⟨_, rfl⟩

/-! ## Removing the source -/

theorem checkAccess_of_access {first second : VfsNode} (same : second.access = first.access)
    (cred : Cred) (mode : UInt32) : checkAccess cred second mode = checkAccess cred first mode := by
  simp only [VfsNode.access, Prod.mk.injEq] at same
  rw [checkAccess, checkAccess, same.1, same.2.1, same.2.2]

theorem stickyForbids_of_access {first second : VfsNode} (same : second.access = first.access)
    (cred : Cred) (node : VfsNode) :
    stickyForbids cred second node = stickyForbids cred first node := by
  simp only [VfsNode.access, Prod.mk.injEq] at same
  rw [stickyForbids, stickyForbids, same.1, same.2.1]

def Storage.without (storage : Storage) (parent id : Nat) (node : VfsNode) : Storage :=
  { storage with
    fs := (storage.fs.modify parent (VfsNode.detach id)).free id
    store := node.freeBlocks storage.store }

theorem cmdRm_removes {fs' : Fs} {middle : Storage}
    (names : NamesFile caller src storage id node bytes) (move : MoveClear caller src storage node)
    (done : CopyDone caller dst storage id node bytes target fs' middle) :
    ∃ parent, parent ≠ target ∧
      cmdRm caller src middle = some (0, middle.without parent id node) := by
  have linked := done.refilled.linked done.opened.linked
  have resolved := done.extends_ names.path
  rcases move.deletes with ⟨parent, above, isParent, found, permitted, unstuck⟩
  rcases vfsResolve_named linked resolved with ⟨norm, way, -, -, named⟩
  cases named with
  | root isRoot =>
      rcases linked.rooted with ⟨root, top, isRoot', held, none_⟩
      cases isRoot.symm.trans isRoot'
      cases held.symm.trans done.found
      rw [isParent] at none_
      cases none_
  | @child dir _ way node' _ held entry _ =>
      cases held.symm.trans done.found
      have listed := (vfsFinddir_mem entry).1
      have same := linked.parent_of listed held
      rw [isParent] at same
      cases same
      rcases Fs.live_of_mem_childrenOf listed with ⟨dirNode, live, -⟩
      have directory : dirNode.type = vfsDirectory := by
        rw [vfsFinddir_eq live] at entry
        by_contra notDirectory
        rw [if_neg (by simp [VfsNode.searched, notDirectory])] at entry
        cases entry
      have notTarget : parent ≠ target := by
        rintro rfl
        rcases done.file with ⟨there, found', file⟩
        cases found'.symm.trans live
        exact file directory
      have access : dirNode.access = above.access := by
        rcases done.opened.access parent above found with ⟨above', found', same⟩
        rw [done.refilled.others parent notTarget, found'] at live
        cases live
        exact same
      refine ⟨parent, notTarget, ?_⟩
      have deleted : vfsDelete caller.cred middle.fs middle.store (.of src) caller.cwd =
          some (0, (middle.without parent id node).fs, (middle.without parent id node).store) := by
        rw [vfsDelete, resolved, Option.bind_some]
        dsimp only
        rw [done.found]
        dsimp only
        rw [isParent]
        dsimp only
        rw [live]
        dsimp only
        rw [checkAccess_of_access access, permitted, stickyForbids_of_access access, unstuck,
          ramfsRemoveNode, done.found]
        dsimp only
        rw [isParent]
        dsimp only
        rw [if_neg (by decide), if_neg (by decide), if_neg (fun full => names.file full.1),
          if_neg (not_not_intro listed)]
        rfl
      rw [cmdRm, move.operand, resolved, Option.bind_some]
      dsimp only
      rw [done.found]
      dsimp only
      rw [if_neg names.file, deleted]
      rfl

/-- `mv` keeps its promise on a clear destination and a source that may be deleted. -/
theorem cmdMv_moves (linked : storage.fs.Linked)
    (clear : ∀ id node bytes, NamesFile caller src storage id node bytes →
      CopyClear stages caller dst storage id node bytes)
    (move : ∀ id node bytes, NamesFile caller src storage id node bytes →
      MoveClear caller src storage node)
    (ran : cmdMv stages driver fuel caller src dst storage = some (code, after)) :
    MvMoves caller src dst storage code after := by
  rcases Option.bind_eq_some_iff.mp ran with ⟨⟨copied, middle⟩, ranCp, rest⟩
  dsimp only at rest
  by_cases success : copied = 0
  · rw [if_pos success] at rest
    rcases Option.map_eq_some_iff.mp rest with ⟨⟨result, last⟩, removed, outcome⟩
    cases outcome
    refine ⟨fun _ => ?_, fun never => absurd rfl never⟩
    rcases cmdCp_cases ranCp with ⟨failed, -⟩ | ⟨id, node, target, fs', ended, resolved, -⟩
    · exact absurd (success.symm.trans failed) (by decide)
    refine ⟨id, resolved, fun node bytes names => ?_⟩
    rcases cmdCp_done linked names (clear id node bytes names) ranCp with ⟨failed, -⟩ |
      ⟨target, fs', done, ends⟩
    · exact absurd success failed
    rcases cmdRm_removes names (move id node bytes names) done with ⟨parent, notTarget, removes⟩
    cases removes.symm.trans removed
    have different : target ≠ id := done.opened.different.symm
    rcases done.opened.normalized with ⟨norm, normalized⟩
    rcases done.leads normalized with ⟨walk, walked, absolute⟩
    rcases ends success with ⟨there, found, holds, apart⟩
    have kept : (middle.without parent id node).fs.node target = some there := by
      rw [Storage.without, Fs.free_node_of_ne _ different,
        Fs.modify_node_of_ne _ _ notTarget.symm, found]
    rcases done.file with ⟨there', found', file⟩
    cases found'.symm.trans found
    refine ⟨target, ⟨⟨norm, normalized, ?_⟩, ⟨there, kept, file⟩, there, kept,
      holds.free apart⟩, fun _ => ?_⟩
    · rw [absolute]
      exact congrArg some (vfsWalk_removed done.found names.file different walked)
    · exact Fs.free_node_self _ _
  · rw [if_neg success] at rest
    cases rest
    exact ⟨fun same => absurd same success,
      fun _ => (cmdCp_copies linked clear ranCp).kept⟩

theorem cmdMv_returns (linked : storage.fs.Linked)
    (names : NamesFile caller src storage id node bytes)
    (clear : CopyClear stages caller dst storage id node bytes)
    (move : MoveClear caller src storage node)
    (normalized : ∃ norm, absNormalize storage.fs (.of dst) caller.cwd = some norm)
    (enough : bytes.length < fuel * readBuf) :
    ∃ outcome, cmdMv stages driver fuel caller src dst storage = some outcome := by
  rcases @cmdCp_returns stages driver fuel caller src dst storage id node bytes linked names clear
    normalized enough with ⟨⟨copied, middle⟩, ran⟩
  rw [cmdMv, ran, Option.bind_some]
  dsimp only
  by_cases success : copied = 0
  · rw [if_pos success]
    rcases cmdCp_done linked names clear ran with ⟨failed, -⟩ | ⟨target, fs', done, -⟩
    · exact absurd success failed
    · rcases cmdRm_removes names move done with ⟨parent, -, removes⟩
      rw [removes]
      exact ⟨_, rfl⟩
  · rw [if_neg success]
    exact ⟨_, rfl⟩

end Runs

/-! ## A file copied onto itself -/

def threeBytes : Option Storage := rootRun [.writeFile (.of (literal "/tmp/a")) [1, 2, 3]]

def rootCaller : Caller := ⟨⟨0, 0⟩, 0o22, none⟩

def Storage.HasThreeBytes (storage : Storage) : Prop :=
  vfsResolve storage.fs (.of (literal "/tmp/a")) none = some (some 17) ∧
    storage.store.available = false ∧
    (storage.fs.node 17).any fun node => node.ops = .ramfs ∧ node.type = vfsFile ∧
      node.size = 3 ∧ node.diskBacked = false ∧ node.blockList = [] ∧ 3 ≤ node.capacity ∧
      node.parent = some 4 ∧
      (List.range 3).all fun position => byte (node.data.getD []) position =
        byte [1, 2, 3] position

instance (storage : Storage) : Decidable storage.HasThreeBytes :=
  inferInstanceAs (Decidable (_ ∧ _ ∧ _))

theorem Storage.HasThreeBytes.names {storage : Storage} (has : storage.HasThreeBytes) :
    ∃ node, NamesFile rootCaller (literal "/tmp/a") storage 17 node [1, 2, 3] ∧
      node.blockList = [] ∧ node.parent = some 4 := by
  rcases has with ⟨resolved, unavailable, file⟩
  rcases (Option.any_eq_true _ _).mp file with ⟨node, found, fields⟩
  simp only [decide_eq_true_eq] at fields
  rcases fields with ⟨ops, type, size, backed, blocks, capacity, parent, content⟩
  refine ⟨node, ⟨resolved, found, by rw [type]; decide, ⟨ops, by rw [size]; rfl,
    fun available => ?_, fun disk => ?_, fun _ => ⟨blocks, capacity⟩, fun position inside => ?_⟩⟩,
    blocks, parent⟩
  · rw [unavailable] at available
    cases available
  · rw [backed] at disk
    cases disk
  · rw [VfsNode.contentByte, backed]
    exact of_decide_eq_true (List.all_eq_true.mp content position (List.mem_range.mpr inside))

def otherSpelling : List UInt8 := literal "/tmp/../tmp//a"

def Storage.LosesFile (storage : Storage) : Prop :=
  (cmdCp (fun _ => .ideal) 100 100 rootCaller (literal "/tmp/a") otherSpelling storage).map
      (fun done => (done.1, (done.2.fs.node 17).map VfsNode.size)) = some (0, some 0) ∧
    (cmdMv (fun _ => .ideal) 100 100 rootCaller (literal "/tmp/a") otherSpelling storage).map
      (fun done => (done.1, vfsResolve done.2.fs (.of (literal "/tmp/a")) none)) =
        some (0, some none) ∧
    absNormalize storage.fs (.of otherSpelling) none = some (literal "/tmp/a")

instance (storage : Storage) : Decidable storage.LosesFile :=
  inferInstanceAs (Decidable (_ ∧ _ ∧ _))

theorem threeBytes_lost :
    (threeBytes.any fun storage => storage.HasThreeBytes ∧ storage.LosesFile) = true := by
  rw [threeBytes, rootRun, boot_ideal]
  decide +kernel

section Clear

variable {stages : Nat → Platform} {driver fuel : Nat} {caller : Caller} {src dst : List UInt8}
  {storage : Storage}

end Clear

def Storage.OffersB (storage : Storage) : Prop :=
  vfsParent storage.fs (.of (literal "/tmp/b")) none = some (some 4, literal "b") ∧
    vfsFinddir storage.fs 4 (literal "b") = none ∧
    ((storage.fs.node 4).any fun node => node.searched) = true ∧
    absNormalize storage.fs (.of (literal "/tmp/b")) none = some (literal "/tmp/b")

instance (storage : Storage) : Decidable storage.OffersB :=
  inferInstanceAs (Decidable (_ ∧ _ ∧ _ ∧ _))

theorem threeBytes_offersB :
    (threeBytes.any fun storage => storage.HasThreeBytes ∧ storage.OffersB) = true := by
  rw [threeBytes, rootRun, boot_ideal]
  decide +kernel

theorem Storage.OffersB.clear {storage : Storage} {id : Nat} {node : VfsNode}
    {bytes : List UInt8} (offers : storage.OffersB)
    (small : bytes.length + (blockSize - 1) < 2 ^ 32) :
    CopyClear (fun _ => .ideal) rootCaller (literal "/tmp/b") storage id node bytes := by
  rcases offers with ⟨taken, absent, searched, -⟩
  rcases (Option.any_eq_true _ _).mp searched with ⟨above, found, isSearched⟩
  refine ⟨fun parent name may => ?_, fun parent name target may => ?_, small,
    fun _ _ _ _ _ => rfl⟩
  · cases taken.symm.trans may.creates.target
    exact ⟨by decide, by decide, above, found, isSearched⟩
  · cases taken.symm.trans may.target
    cases absent.symm.trans may.entry

end Trinux
