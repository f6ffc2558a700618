import Trinux.Kernel.Boot
import Trinux.Fs.DiskfsSave
import Trinux.Fs.FileFrame

namespace Trinux

/-!
# Calls on the file system, and the states they reach

A process changes the file system through system calls that name files by path or
by an open descriptor.  The handlers below work on the caller's credential, file
mask and current directory; what the platform does at each stage of a call is
arbitrary.  A call that leaves the kernel's memory has no outcome.

A run starts with the boot sequence on any disk and goes on with any calls.
-/

structure Caller where
  cred : Cred
  umask : UInt32
  cwd : Option Nat

def VfsNode.truncate (node : VfsNode) : VfsNode := { node with size := 0 }

def Storage.truncate (storage : Storage) (id : Nat) : Storage :=
  { storage with fs := storage.fs.modify id VfsNode.truncate }

section Handlers

variable (stages : Nat → Platform) (fuel : Nat) (caller : Caller)

def sysMkdir (path : PathArg) (storage : Storage) : Option (Int × Storage) :=
  (vfsMkdir (stages 0) caller.cred caller.umask storage.fs path caller.cwd).map fun made =>
    (if made.1.isSome then 0 else -1, { storage with fs := made.2 })

def sysCreate (path : PathArg) (storage : Storage) : Option (Option Nat × Storage) :=
  (vfsCreate (stages 0) caller.cred caller.umask storage.fs path caller.cwd).map fun created =>
    (created.1, { storage with fs := created.2 })

/-- The part of `SYS_WRITEFILE` and `SYS_RENAME` that replaces the contents of a file.  It does
not look how much was written. -/
def rewrite (platform : Platform) (id : Nat) (buffer : List UInt8) (storage : Storage) :
    Option (Nat × Storage) :=
  vfsWrite platform fuel (storage.truncate id) id 0 buffer

def sysWriteFile (path : PathArg) (buffer : List UInt8) (storage : Storage) :
    Option (Int × Storage) :=
  (sysCreate stages caller path storage).bind fun created =>
    match created.1 with
    | none => some (-1, created.2)
    | some id => (rewrite fuel (stages 1) id buffer created.2).map fun written =>
        ((written.1 : Int), written.2)

def sysUnlink (path : PathArg) (storage : Storage) : Option (Int × Storage) :=
  (vfsDelete caller.cred storage.fs storage.store path caller.cwd).map fun deleted =>
    (if 0 ≤ deleted.1 then 0 else -1, { storage with fs := deleted.2.1, store := deleted.2.2 })

def sysRmdir (path : PathArg) (storage : Storage) : Option (Int × Storage) :=
  (vfsResolve storage.fs path caller.cwd).bind fun target =>
    match target.bind storage.fs.node with
    | none => some (-1, storage)
    | some node =>
        if node.type ≠ vfsDirectory ∨ 0 < node.children.length then some (-1, storage)
        else sysUnlink caller path storage

/-- The part of `SYS_RENAME` behind its checks: copy the file, then delete the source.  The
results of the write and of the deletion are not used. -/
def renameCopy (sn : Nat) (node : VfsNode) (src dst : PathArg) (storage : Storage) :
    Option (Int × Storage) :=
  (vfsRead (stages 0) fuel storage sn 0 node.size.toNat).bind fun read =>
    (sysCreate (fun stage => stages (stage + 1)) caller dst read.2).bind fun created =>
      match created.1 with
      | none => some (-1, created.2)
      | some dn =>
          (rewrite fuel (stages 2) dn read.1 created.2).bind fun written =>
            (sysUnlink caller src written.2).map fun deleted => (0, deleted.2)

def sysRename (src dst : PathArg) (storage : Storage) : Option (Int × Storage) :=
  (vfsResolve storage.fs src caller.cwd).bind fun source =>
    match source.bind fun sn => (storage.fs.node sn).map fun node => (sn, node) with
    | none => some (-1, storage)
    | some (sn, node) =>
        if !checkAccess caller.cred node accRead then some (-1, storage)
        else if node.type ≠ vfsFile then some (-1, storage)
        else if !kmalloc ((stages 0).alloc 0) (Bytes.u32 (node.size.toNat + 1)) then
          some (-1, storage)
        else renameCopy stages fuel caller sn node src dst storage

end Handlers

/-! ## Calls -/

/-- What a call asks for.  Reads, writes and truncations through a descriptor name the node. -/
inductive FsOp where
  | mkdir (path : PathArg)
  | create (path : PathArg)
  | writeFile (path : PathArg) (buffer : List UInt8)
  | unlink (path : PathArg)
  | rmdir (path : PathArg)
  | rename (src dst : PathArg)
  | read (id off size : Nat)
  | write (id off : Nat) (buffer : List UInt8)
  | truncate (id : Nat)
  | readdir (id index : Nat)
  | chmod (path : PathArg) (perms : UInt32)
  | chown (path : PathArg) (uid gid : UInt32)
  | sync
  | load
  | mountDevices
  | mountFat

structure FsCall where
  stages : Nat → Platform
  fuel : Nat
  caller : Caller
  op : FsOp

def FsCall.run (call : FsCall) (storage : Storage) : Option Storage :=
  match call.op with
  | .mkdir path => (sysMkdir call.stages call.caller path storage).map Prod.snd
  | .create path => (sysCreate call.stages call.caller path storage).map Prod.snd
  | .writeFile path buffer =>
      (sysWriteFile call.stages call.fuel call.caller path buffer storage).map Prod.snd
  | .unlink path => (sysUnlink call.caller path storage).map Prod.snd
  | .rmdir path => (sysRmdir call.caller path storage).map Prod.snd
  | .rename src dst =>
      (sysRename call.stages call.fuel call.caller src dst storage).map Prod.snd
  | .read id off size =>
      (vfsRead (call.stages 0) call.fuel storage id off size).map Prod.snd
  | .write id off buffer =>
      (vfsWrite (call.stages 0) call.fuel storage id off buffer).map Prod.snd
  | .truncate id => some (storage.truncate id)
  | .readdir id index =>
      (vfsReaddir (call.stages 0) call.fuel storage id index).map Prod.snd
  | .chmod path perms =>
      (vfsChmod call.caller.cred storage.fs path call.caller.cwd perms).map fun changed =>
        { storage with fs := changed.2 }
  | .chown path uid gid =>
      (vfsChown call.caller.cred storage.fs path call.caller.cwd uid gid).map fun changed =>
        { storage with fs := changed.2 }
  | .sync =>
      some { storage with
        disk := (diskfsSave (call.stages 0).faults (call.stages 0).alloc storage.fs storage.store
          storage.disk).2 }
  | .load =>
      match diskfsLoad (call.stages 0).faults (call.stages 0).alloc
          (fun _ => (call.stages 0).now) storage.fs storage.disk with
      | .ret _ fs => some { storage with fs := fs }
      | .wild => none
  | .mountDevices =>
      some { storage with fs := devfsInit (call.stages 0) storage.fs storage.disk }
  | .mountFat => fat16Init (call.stages 0) storage

/-- The states of runs that start on the given disks and make only calls that are allowed where
they are made. -/
inductive Runs (starts : BootPlatform → Disk → Prop) (allowed : FsCall → Storage → Prop) :
    Storage → Prop where
  | boot {platform : BootPlatform} {disk : Disk} {storage : Storage}
      (start : starts platform disk) (booted : boot platform disk = some storage) :
      Runs starts allowed storage
  | call {call : FsCall} {before after : Storage} (reached : Runs starts allowed before)
      (legal : allowed call before) (ran : call.run before = some after) :
      Runs starts allowed after

def Reachable : Storage → Prop := Runs (fun _ _ => True) fun _ _ => True

/-! ## What each call does to the tree -/

section Inversion

variable {platform : Platform} {cred : Cred} {umask : UInt32} {fs fs' : Fs} {path : PathArg}
  {cwd : Option Nat} {result : Option Nat}

structure CreatesIn (fs : Fs) (path : PathArg) (cwd : Option Nat) (parent : Nat)
    (name : List UInt8) : Prop where
  target : vfsParent fs path cwd = some (some parent, name)
  directory : ∃ node, fs.node parent = some node ∧ node.type = vfsDirectory
  absent : vfsFinddir fs parent name = none

def CreatedBelow (fs : Fs) (parent : Nat) (name : List UInt8) (type : UInt32)
    (set : VfsNode → VfsNode) (id : Nat) (fs' : Fs) : Prop :=
  ∃ granted now made, ramfsCreateNode granted now fs parent name type = some (id, made) ∧
    fs' = made.modify id set

theorem directory_of_any {parent : Nat}
    (directory : ((fs.node parent).any fun node => node.type = vfsDirectory) = true) :
    ∃ node, fs.node parent = some node ∧ node.type = vfsDirectory := by
  cases found : fs.node parent with
  | none =>
      rw [found] at directory
      cases directory
  | some node =>
      rw [found] at directory
      exact ⟨node, rfl, of_decide_eq_true directory⟩

/-- `vfs_mkdir` leaves the tree alone or creates one directory. -/
theorem vfsMkdir_cases (made : vfsMkdir platform cred umask fs path cwd = some (result, fs')) :
    (result = none ∧ fs' = fs) ∨
      ∃ parent name id, result = some id ∧ CreatesIn fs path cwd parent name ∧
        CreatedBelow fs parent name vfsDirectory (VfsNode.own cred (0o777 &&& ~~~umask)) id fs' := by
  rcases Option.map_eq_some_iff.mp made with ⟨⟨target, name⟩, found, outcome⟩
  cases target with
  | none =>
      cases outcome
      exact Or.inl ⟨rfl, rfl⟩
  | some parent =>
      simp only at outcome
      by_cases directory : (fs.node parent).any fun node => node.type = vfsDirectory
      · rw [if_pos directory] at outcome
        by_cases denied : (!fs.checkAccess cred parent accWrite) = true
        · rw [if_pos denied] at outcome
          cases outcome
          exact Or.inl ⟨rfl, rfl⟩
        rw [if_neg denied] at outcome
        by_cases exists_ : (vfsFinddir fs parent name).isSome = true
        · rw [if_pos exists_] at outcome
          cases outcome
          exact Or.inl ⟨rfl, rfl⟩
        rw [if_neg exists_] at outcome
        cases created : ramfsCreateNode (platform.alloc 0) platform.now fs parent name
            vfsDirectory with
        | none =>
            rw [created] at outcome
            cases outcome
            exact Or.inl ⟨rfl, rfl⟩
        | some new =>
            rw [created] at outcome
            cases outcome
            refine Or.inr ⟨parent, name, new.1, rfl, ⟨found, ?_, ?_⟩, _, _, new.2, created, rfl⟩
            · exact directory_of_any directory
            · simpa using exists_
      · rw [if_neg directory] at outcome
        cases outcome
        exact Or.inl ⟨rfl, rfl⟩

/-- `vfs_create` fails, finds the node, or creates one file. -/
theorem vfsCreate_cases (made : vfsCreate platform cred umask fs path cwd = some (result, fs')) :
    (result = none ∧ fs' = fs) ∨
      (∃ parent name id, result = some id ∧ fs' = fs ∧
        vfsParent fs path cwd = some (some parent, name) ∧ vfsFinddir fs parent name = some id ∧
        fs.checkAccess cred id accWrite = true) ∨
      ∃ parent name id, result = some id ∧ CreatesIn fs path cwd parent name ∧
        CreatedBelow fs parent name vfsFile (VfsNode.own cred (0o666 &&& ~~~umask)) id fs' := by
  rcases Option.map_eq_some_iff.mp made with ⟨⟨target, name⟩, found, outcome⟩
  cases target with
  | none =>
      cases outcome
      exact Or.inl ⟨rfl, rfl⟩
  | some parent =>
      simp only at outcome
      by_cases directory : (fs.node parent).any fun node => node.type = vfsDirectory
      · rw [if_pos directory] at outcome
        cases entry : vfsFinddir fs parent name with
        | some existing =>
            rw [entry] at outcome
            simp only at outcome
            by_cases permitted : fs.checkAccess cred existing accWrite = true
            · rw [if_pos permitted] at outcome
              cases outcome
              exact Or.inr (Or.inl ⟨parent, name, existing, rfl, rfl, found, entry, permitted⟩)
            · rw [if_neg permitted] at outcome
              cases outcome
              exact Or.inl ⟨rfl, rfl⟩
        | none =>
            rw [entry] at outcome
            simp only at outcome
            by_cases denied : (!fs.checkAccess cred parent accWrite) = true
            · rw [if_pos denied] at outcome
              cases outcome
              exact Or.inl ⟨rfl, rfl⟩
            rw [if_neg denied] at outcome
            cases created : ramfsCreateNode (platform.alloc 0) platform.now fs parent name
                vfsFile with
            | none =>
                rw [created] at outcome
                cases outcome
                exact Or.inl ⟨rfl, rfl⟩
            | some new =>
                rw [created] at outcome
                cases outcome
                exact Or.inr (Or.inr ⟨parent, name, new.1, rfl,
                  ⟨found, directory_of_any directory, entry⟩, _, _, new.2, created, rfl⟩)
      · rw [if_neg directory] at outcome
        cases outcome
        exact Or.inl ⟨rfl, rfl⟩

/-- `vfs_delete` fails or removes the node that its path names, if its checks pass. -/
theorem vfsDelete_cases {store store' : Blockfs} {code : Int}
    (deleted : vfsDelete cred fs store path cwd = some (code, fs', store')) :
    (code < 0 ∧ fs' = fs ∧ store' = store) ∨
      ∃ id node, vfsResolve fs path cwd = some (some id) ∧ fs.node id = some node ∧
        (∀ parent, node.parent = some parent → ∃ above, fs.node parent = some above ∧
          checkAccess cred above accWrite = true ∧ stickyForbids cred above node = false) ∧
        ramfsRemoveNode fs store id = (code, fs', store') := by
  rcases Option.bind_eq_some_iff.mp deleted with ⟨target, found, outcome⟩
  cases target with
  | none =>
      cases outcome
      exact Or.inl ⟨by decide, rfl, rfl⟩
  | some id =>
      cases live : fs.node id with
      | none =>
          simp only [live] at outcome
          cases outcome
      | some node =>
          simp only [live] at outcome
          cases points : node.parent with
          | none =>
              rw [points] at outcome
              exact Or.inr ⟨id, node, found, live,
                fun _ named => absurd (named.symm.trans points) (Option.some_ne_none _),
                Option.some.inj outcome⟩
          | some parent =>
              rw [points] at outcome
              simp only at outcome
              cases held : fs.node parent with
              | none =>
                  rw [held] at outcome
                  cases outcome
              | some above =>
                  rw [held] at outcome
                  simp only at outcome
                  split at outcome
                  · cases outcome
                    exact Or.inl ⟨by decide, rfl, rfl⟩
                  rename_i may
                  split at outcome
                  · cases outcome
                    exact Or.inl ⟨by decide, rfl, rfl⟩
                  rename_i free
                  refine Or.inr ⟨id, node, found, live, fun parent' named => ?_,
                    Option.some.inj outcome⟩
                  cases points.symm.trans named
                  exact ⟨above, held, by simpa using may, by simpa using free⟩

end Inversion

end Trinux
