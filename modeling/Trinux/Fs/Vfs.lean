import Trinux.Fs.Devfs
import Trinux.Fs.Fat16
import Trinux.Fs.Path

namespace Trinux

/-!
# The virtual file system

Paths are resolved from the root by component; every operation that names a file
by path checks the permission bits of a node against the credential of the
current user.  Reading and writing go through a node's callbacks and check
nothing.

A result `none` means that a path buffer was overrun or that an object was used
after it was freed.
-/

structure Cred where
  uid : UInt32
  gid : UInt32
  deriving DecidableEq, Repr

def accRead : UInt32 := 0x4

def accWrite : UInt32 := 0x2

def vfsSticky : UInt32 := 0o1000

def checkAccess (cred : Cred) (node : VfsNode) (mode : UInt32) : Bool :=
  if cred.uid = 0 then true
  else
    let bits :=
      if cred.uid = node.ownerUid then (node.permissions >>> 6) &&& 0x7
      else if cred.gid = node.ownerGid then (node.permissions >>> 3) &&& 0x7
      else node.permissions &&& 0x7
    bits &&& mode == mode

def Fs.checkAccess (fs : Fs) (cred : Cred) (id : Nat) (mode : UInt32) : Bool :=
  match fs.node id with
  | none => false
  | some node => Trinux.checkAccess cred node mode

/-! ## Paths -/

def getPathLoop (fs : Fs) : (fuel id : Nat) → List UInt8 → Option (List UInt8)
  | 0, _, _ => none
  | fuel + 1, id, rev =>
      match fs.node id with
      | none => none
      | some node =>
          match node.parent with
          | none => some rev
          | some parent =>
              let rev := slash :: node.name ++ rev
              if rev.length < pathMax then getPathLoop fs fuel parent rev else none

def vfsGetPath (fs : Fs) (id : Nat) : Option (List UInt8) :=
  (getPathLoop fs fs.next id []).map fun rev => if rev = [] then [slash] else rev

def absNormalize (fs : Fs) (path : PathArg) (cwd : Option Nat) : Option (List UInt8) :=
  if pathIsAbsolute path then pathNormalize [slash] path
  else
    match cwd <|> fs.root with
    | none => pathNormalize [slash] path
    | some start => (vfsGetPath fs start).bind fun base => pathNormalize base path

def vfsWalk (fs : Fs) : Option Nat → List (List UInt8) → Option Nat
  | current, [] => current
  | current, token :: rest => vfsWalk fs (current.bind fun id => vfsFinddir fs id token) rest

def vfsResolve (fs : Fs) (path : PathArg) (cwd : Option Nat) : Option (Option Nat) :=
  (absNormalize fs path cwd).map fun norm => vfsWalk fs fs.root (pathTokens norm)

/-- The directory and the last component that `vfs_mkdir` and `vfs_create` take from a path. -/
def vfsParent (fs : Fs) (path : PathArg) (cwd : Option Nat) :
    Option (Option Nat × List UInt8) :=
  (absNormalize fs path cwd).bind fun norm =>
    (vfsResolve fs (.of (pathDirname norm)) none).map fun parent => (parent, pathBasename norm)

/-! ## Creating and deleting -/

def VfsNode.own (cred : Cred) (permissions : UInt32) (node : VfsNode) : VfsNode :=
  { node with ownerUid := cred.uid, ownerGid := cred.gid, permissions := permissions }

def vfsMkdir (platform : Platform) (cred : Cred) (umask : UInt32) (fs : Fs) (path : PathArg)
    (cwd : Option Nat) : Option (Option Nat × Fs) :=
  (vfsParent fs path cwd).map fun target =>
    match target.1 with
    | none => (none, fs)
    | some parent =>
        if (fs.node parent).any fun node => node.type = vfsDirectory then
          if !fs.checkAccess cred parent accWrite then (none, fs)
          else if (vfsFinddir fs parent target.2).isSome then (none, fs)
          else
            match ramfsCreateNode (platform.alloc 0) platform.now fs parent target.2
                vfsDirectory with
            | none => (none, fs)
            | some (id, fs) => (some id, fs.modify id (VfsNode.own cred (0o777 &&& ~~~umask)))
        else (none, fs)

def vfsCreate (platform : Platform) (cred : Cred) (umask : UInt32) (fs : Fs) (path : PathArg)
    (cwd : Option Nat) : Option (Option Nat × Fs) :=
  (vfsParent fs path cwd).map fun target =>
    match target.1 with
    | none => (none, fs)
    | some parent =>
        if (fs.node parent).any fun node => node.type = vfsDirectory then
          match vfsFinddir fs parent target.2 with
          | some existing =>
              if fs.checkAccess cred existing accWrite then (some existing, fs) else (none, fs)
          | none =>
              if !fs.checkAccess cred parent accWrite then (none, fs)
              else
                match ramfsCreateNode (platform.alloc 0) platform.now fs parent target.2
                    vfsFile with
                | none => (none, fs)
                | some (id, fs) => (some id, fs.modify id (VfsNode.own cred (0o666 &&& ~~~umask)))
        else (none, fs)

/-- Whether the sticky bit of a directory keeps a user from deleting an entry. -/
def stickyForbids (cred : Cred) (parent node : VfsNode) : Bool :=
  parent.permissions &&& vfsSticky ≠ 0 ∧ cred.uid ≠ 0 ∧ cred.uid ≠ node.ownerUid ∧
    cred.uid ≠ parent.ownerUid

def vfsDelete (cred : Cred) (fs : Fs) (store : Blockfs) (path : PathArg) (cwd : Option Nat) :
    Option (Int × Fs × Blockfs) :=
  (vfsResolve fs path cwd).bind fun target =>
    match target with
    | none => some (-1, fs, store)
    | some id =>
        match fs.node id with
        | none => none
        | some node =>
            match node.parent with
            | none => some (ramfsRemoveNode fs store id)
            | some parent =>
                match fs.node parent with
                | none => none
                | some above =>
                    if !checkAccess cred above accWrite then some (-3, fs, store)
                    else if stickyForbids cred above node then some (-4, fs, store)
                    else some (ramfsRemoveNode fs store id)

def vfsChmod (cred : Cred) (fs : Fs) (path : PathArg) (cwd : Option Nat) (perms : UInt32) :
    Option (Int × Fs) :=
  (vfsResolve fs path cwd).map fun target =>
    match target.bind fun id => (fs.node id).map fun node => (id, node) with
    | none => (-1, fs)
    | some (id, node) =>
        if cred.uid ≠ 0 ∧ cred.uid ≠ node.ownerUid then (-2, fs)
        else (0, fs.modify id fun node =>
          { node with permissions := perms &&& (0o777 ||| vfsSticky) })

def vfsChown (cred : Cred) (fs : Fs) (path : PathArg) (cwd : Option Nat) (uid gid : UInt32) :
    Option (Int × Fs) :=
  (vfsResolve fs path cwd).map fun target =>
    match target with
    | none => (-1, fs)
    | some id =>
        if cred.uid ≠ 0 then (-2, fs)
        else (0, fs.modify id fun node => { node with ownerUid := uid, ownerGid := gid })

/-! ## Reading and writing -/

def vfsRead (platform : Platform) (fuel : Nat) (storage : Storage) (id off size : Nat) :
    Option (List UInt8 × Storage) :=
  match storage.fs.node id with
  | none => none
  | some node =>
      match node.ops with
      | .ramfs => (ramfsRead platform storage id off size).map fun bytes => (bytes, storage)
      | .devZero => some (List.replicate size 0, storage)
      | .devNull => some ([], storage)
      | .devRandom =>
          let read := randomRead platform.now size storage.randState
          some (read.1, { storage with randState := read.2 })
      | .devSda => some (sdaRead .ide platform.faults storage.disk off size, storage)
      | .fatFile =>
          (fatNodeRead platform.faults fuel storage.fat storage.disk node off size).map
            fun bytes => (bytes, storage)
      | .fatDirectory => some ([], storage)

def vfsWrite (platform : Platform) (fuel : Nat) (storage : Storage) (id off : Nat)
    (buffer : List UInt8) : Option (Nat × Storage) :=
  match storage.fs.node id with
  | none => none
  | some node =>
      match node.ops with
      | .ramfs => ramfsWrite platform storage id off buffer
      | .devZero => some (buffer.length, storage)
      | .devNull => some (buffer.length, storage)
      | .devRandom => some (buffer.length,
          { storage with randState := randomWrite buffer storage.randState })
      | .devSda =>
          let written := sdaWrite .ide platform.faults off buffer storage.disk
          some (written.1, { storage with disk := written.2 })
      | .fatFile =>
          (fatNodeWrite platform.faults fuel storage.fat node off buffer storage.disk).map
            fun written =>
              (written.1, { storage.setNode id written.2.1 with disk := written.2.2 })
      | .fatDirectory => some (0, storage)

/-- `vfs_readdir`.  Listing a directory of a FAT volume may read its subdirectories. -/
def vfsReaddir (platform : Platform) (fuel : Nat) (storage : Storage) (id index : Nat) :
    Option (Option Nat × Storage) :=
  match storage.fs.node id with
  | none => none
  | some node =>
      match node.ops with
      | .fatFile => some (none, storage)
      | .fatDirectory => fatReaddir platform fuel storage id index
      | _ => some (ramfsReaddir storage.fs id index, storage)

end Trinux
