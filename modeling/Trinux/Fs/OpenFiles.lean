import Trinux.Fs.Descriptors
import Trinux.Fs.Operations

namespace Trinux

/-!
# Calls on open files

A descriptor, a directory handle and the current directory each keep a pointer to a node.  A file
is opened by path and then used through its descriptor.  The current directory is one for the
whole system.

The terminal and the pipes have descriptors outside the table and are not modelled here.  A call
that uses a node that was freed has no outcome.
-/

def oCreat : UInt32 := 0x40

def oTrunc : UInt32 := 0x200

def oAppend : UInt32 := 0x400

structure Session where
  storage : Storage
  descriptors : Descriptors
  cwd : Option Nat

structure CallContext where
  stages : Nat → Platform
  fuel : Nat
  cred : Cred
  umask : UInt32
  pid : UInt32

namespace Session

def openKfd (s : Session) (fd : Int) : Option Kfd :=
  if 3 ≤ fd ∧ fd < fdMax ∧ (s.descriptors.kfds fd.toNat).used = true then
    some (s.descriptors.kfds fd.toNat)
  else none

def setPos (s : Session) (fd : Int) (pos : UInt32) : Session :=
  { s with descriptors := { s.descriptors with
      kfds := Function.update s.descriptors.kfds fd.toNat
        { s.descriptors.kfds fd.toNat with pos := pos } } }

section Handlers

variable (context : CallContext)

def caller (s : Session) : Caller := ⟨context.cred, context.umask, s.cwd⟩

/-- The permission that `SYS_FILE_OPEN` asks for; for the mode 3 it asks for none. -/
def openAllowed (fs : Fs) (id : Nat) (flags : UInt32) : Bool :=
  if flags &&& 3 = 0 then fs.checkAccess context.cred id accRead
  else if flags &&& 3 = 1 ∨ flags &&& 3 = 2 then fs.checkAccess context.cred id accWrite
  else true

def openTarget (path : PathArg) (flags : UInt32) (s : Session) :
    Option (Option Nat × Storage) :=
  (vfsResolve s.storage.fs path s.cwd).bind fun found =>
    match found with
    | some id => some (some id, s.storage)
    | none =>
        if flags &&& oCreat ≠ 0 then sysCreate context.stages (s.caller context) path s.storage
        else some (none, s.storage)

def sysFileOpen (path : PathArg) (flags : UInt32) (s : Session) : Option (Int × Session) :=
  (openTarget context path flags s).bind fun target =>
    match target.1 with
    | none => some (-1, { s with storage := target.2 })
    | some id =>
        match target.2.fs.node id with
        | none => none
        | some node =>
            if !openAllowed context target.2.fs id flags then
              some (-1, { s with storage := target.2 })
            else
              match s.descriptors.openFile id (if flags &&& oAppend ≠ 0 then node.size else 0)
                  flags context.pid with
              | none => some (-1, { s with storage := target.2 })
              | some (fd, descriptors) =>
                  some (fd, { s with
                    storage := if flags &&& oTrunc ≠ 0 then target.2.truncate id else target.2
                    descriptors := descriptors })

def sysFileRead (fd : Int) (want : UInt32) (s : Session) :
    Option (Int × List UInt8 × Session) :=
  match s.openKfd fd with
  | none => some (-1, [], s)
  | some kfd =>
      kfd.node.bind fun id =>
        match s.storage.fs.node id with
        | none => none
        | some node =>
            if node.size ≤ kfd.pos then some (0, [], s)
            else
              let want := if node.size < kfd.pos + want then node.size - kfd.pos else want
              (vfsRead (context.stages 0) context.fuel s.storage id kfd.pos.toNat
                want.toNat).map fun read =>
                (read.1.length, read.1, { s with storage := read.2 }.setPos fd
                  (kfd.pos + UInt32.ofNat read.1.length))

def sysFileWrite (fd : Int) (buffer : List UInt8) (s : Session) : Option (Int × Session) :=
  match s.openKfd fd with
  | none => some (-1, s)
  | some kfd =>
      kfd.node.bind fun id =>
        (vfsWrite (context.stages 0) context.fuel s.storage id kfd.pos.toNat buffer).map
          fun written => (written.1, { s with storage := written.2 }.setPos fd
            (kfd.pos + UInt32.ofNat written.1))

def sysFileSeek (fd : Int) (off : UInt32) (whence : Int) (s : Session) :
    Option (Int × Session) :=
  match s.openKfd fd with
  | none => some (-1, s)
  | some kfd =>
      let moved := fun pos : UInt32 => some ((pos.toNat : Int), s.setPos fd pos)
      if whence = 0 then moved off
      else if whence = 1 then moved (kfd.pos + off)
      else if whence = 2 then
        (kfd.node.bind s.storage.fs.node).bind fun node => moved (node.size + off)
      else moved kfd.pos

def sysReadFile (path : PathArg) (maxsz : UInt32) (s : Session) :
    Option (Int × List UInt8 × Session) :=
  (vfsResolve s.storage.fs path s.cwd).bind fun found =>
    match found.bind fun id => (s.storage.fs.node id).map fun node => (id, node) with
    | none => some (-1, [], s)
    | some (id, node) =>
        if node.type ≠ vfsFile ∨ !checkAccess context.cred node accRead then some (-1, [], s)
        else
          let want := if node.size < maxsz then node.size else maxsz
          (vfsRead (context.stages 0) context.fuel s.storage id 0 want.toNat).map fun read =>
            (read.1.length, read.1, { s with storage := read.2 })

/-- The part of `SYS_SPAWN_R` that reads the file to which the input of the program is redirected:
the node, the bytes that are read to the start of `stdin_buf`, and how many bytes of `stdin_buf` are
then handed over, if there is such a file.  Behind the bytes that are read it is left as it was. -/
def spawnInput (path : PathArg) (s : Session) :
    Option (Option (Nat × List UInt8 × Nat) × Session) :=
  (vfsResolve s.storage.fs path s.cwd).bind fun found =>
    match found.bind fun id => (s.storage.fs.node id).map fun node => (id, node) with
    | none => some (none, s)
    | some (id, node) =>
        if node.type ≠ vfsFile then some (none, s)
        else
          let want := if node.size < 4096 then node.size else 4096
          (vfsRead (context.stages 0) context.fuel s.storage id 0 want.toNat).map fun read =>
            (some (id, read.1, want.toNat), { s with storage := read.2 })

def sysOpendir (path : PathArg) (s : Session) : Option (Int × Session) :=
  (vfsResolve s.storage.fs path s.cwd).map fun found =>
    match found.bind fun id => (s.storage.fs.node id).map fun node => (id, node) with
    | none => (-1, s)
    | some (id, node) =>
        if node.type ≠ vfsDirectory ∨ !checkAccess context.cred node accRead then (-1, s)
        else
          match s.descriptors.openDir id with
          | none => (-1, s)
          | some (dh, descriptors) => (dh, { s with descriptors := descriptors })

def sysReaddir (dh : Int) (s : Session) : Option (Int × Option Nat × Session) :=
  match if 0 < dh ∧ dh < dhMax then s.descriptors.dhTable dh.toNat else none with
  | none => some (-1, none, s)
  | some id =>
      (vfsReaddir (context.stages 0) context.fuel s.storage id
        (s.descriptors.dhIdx dh.toNat).toNat).map fun listed =>
        match listed.1 with
        | none => (-1, none, { s with storage := listed.2 })
        | some child => (0, some child, { s with
            storage := listed.2
            descriptors := { s.descriptors with
              dhIdx := Function.update s.descriptors.dhIdx dh.toNat
                (s.descriptors.dhIdx dh.toNat + 1) } })

def sysChdir (path : PathArg) (s : Session) : Option (Int × Session) :=
  (vfsResolve s.storage.fs path s.cwd).map fun found =>
    match found.bind fun id => (s.storage.fs.node id).map fun node => (id, node) with
    | none => (-1, s)
    | some (id, node) =>
        if node.type ≠ vfsDirectory then (-1, s) else (0, { s with cwd := some id })

/-- The part of a login that enters the home directory.  `SYS_LOGIN` stays where it is if there is
no such directory, the shell goes to the root. -/
def enterHome (path : PathArg) (orRoot : Bool) (s : Session) : Option Session :=
  (vfsResolve s.storage.fs path none).map fun found =>
    match found with
    | some id => { s with cwd := some id }
    | none => if orRoot then { s with cwd := s.storage.fs.root } else s

end Handlers

/-! ## Runs -/

inductive PathOp where
  | mkdir (path : PathArg)
  | writeFile (path : PathArg) (buffer : List UInt8)
  | unlink (path : PathArg)
  | rmdir (path : PathArg)
  | rename (src dst : PathArg)
  | chmod (path : PathArg) (perms : UInt32)
  | chown (path : PathArg) (uid gid : UInt32)
  | sync

def PathOp.op : PathOp → FsOp
  | .mkdir path => .mkdir path
  | .writeFile path buffer => .writeFile path buffer
  | .unlink path => .unlink path
  | .rmdir path => .rmdir path
  | .rename src dst => .rename src dst
  | .chmod path perms => .chmod path perms
  | .chown path uid gid => .chown path uid gid
  | .sync => .sync

/-- The calls of programs and of the shell on files and directories, and the end of a process. -/
inductive FileCall where
  | path (op : PathOp)
  | openFile (path : PathArg) (flags : UInt32)
  | read (fd : Int) (want : UInt32)
  | write (fd : Int) (buffer : List UInt8)
  | seek (fd : Int) (off : UInt32) (whence : Int)
  | close (fd : Int)
  | opendir (path : PathArg)
  | readdir (dh : Int)
  | closedir (dh : Int)
  | chdir (path : PathArg)
  | home (path : PathArg) (orRoot : Bool)
  | exit

def step (context : CallContext) (call : FileCall) (s : Session) : Option Session :=
  match call with
  | .path op =>
      ((⟨context.stages, context.fuel, s.caller context, op.op⟩ : FsCall).run s.storage).map
        fun storage => { s with storage := storage }
  | .openFile path flags => (s.sysFileOpen context path flags).map Prod.snd
  | .read fd want => (s.sysFileRead context fd want).map fun read => read.2.2
  | .write fd buffer => (s.sysFileWrite context fd buffer).map Prod.snd
  | .seek fd off whence => (s.sysFileSeek fd off whence).map Prod.snd
  | .close fd => some { s with descriptors := s.descriptors.closeFile fd }
  | .opendir path => (s.sysOpendir context path).map Prod.snd
  | .readdir dh => (s.sysReaddir context dh).map fun listed => listed.2.2
  | .closedir dh => some { s with descriptors := s.descriptors.closeDir dh }
  | .chdir path => (s.sysChdir path).map Prod.snd
  | .home path orRoot => s.enterHome path orRoot
  | .exit => some { s with descriptors := s.descriptors.fdCleanupProcess context.pid }

def start (storage : Storage) : Session := ⟨storage, Descriptors.init, storage.fs.root⟩

def run : Session → List (CallContext × FileCall) → Option Session
  | s, [] => some s
  | s, (context, call) :: rest => (s.step context call).bind fun s => run s rest

end Session

end Trinux
