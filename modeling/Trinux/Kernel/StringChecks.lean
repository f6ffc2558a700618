import Trinux.Auth.Users
import Trinux.Fs.NodePath
import Trinux.Fs.OpenFiles
import Trinux.Process.Table

namespace Trinux

/-!
# Strings that programs pass to the kernel

A handler checks a string argument with `UCHECK_STR`.  The macro is a loop that runs once, and
the `break` in it leaves this loop, not the `switch` around the handler.  A handler whose check
failed goes on behind the check.

The handlers below record which strings they use, that is read or pass on, and what they write to
the memory of the program.  Loading and compiling programs is arbitrary, and with it the reading
of argument vectors.
-/

def userSpaceStart : UInt32 := 0x08000000

def userSpaceEnd : UInt32 := 0x10000000

def uaccessOk (ptr len : UInt32) : Bool :=
  if ptr = 0 then false
  else if ptr < userSpaceStart then false
  else if userSpaceEnd ≤ ptr then false
  else if 0 < len ∧ userSpaceEnd < ptr + len then false
  else true

section Strings

variable (memory : UInt32 → Option UInt8)

def strnlenLoop : (left index : Nat) → (ptr : UInt32) → Option Int
  | 0, _, _ => some (-1)
  | left + 1, index, ptr =>
      (memory ptr).bind fun c =>
        if c = 0 then some index else strnlenLoop left (index + 1) (ptr + 1)

def uaccessStrnlen (ptr maxlen : UInt32) : Option Int :=
  if ptr = 0 then some (-1)
  else if ptr < userSpaceStart then some (-1)
  else if userSpaceEnd ≤ ptr then some (-1)
  else
    let avail := userSpaceEnd - ptr
    strnlenLoop memory (if avail < maxlen then avail else maxlen).toNat 0 ptr

def stringAt : (limit : Nat) → (ptr : UInt32) → Option (List UInt8)
  | 0, _ => some []
  | limit + 1, ptr =>
      (memory ptr).bind fun c =>
        if c = 0 then some [] else (stringAt limit (ptr + 1)).map fun rest => c :: rest

end Strings

structure Kernel where
  session : Session
  users : Users
  processes : ProcessTable

/-- The parts of the kernel that load and compile programs: the result and what they leave. -/
structure Programs where
  elfExecArgv (path : List UInt8) (argv : UInt32) (kernel : Kernel) : Option (UInt32 × Kernel)
  elfExecve (path : List UInt8) (argv : UInt32) (kernel : Kernel) : Option (UInt32 × Kernel)
  tccCompile (src out : List UInt8) (kernel : Kernel) : Option (UInt32 × Kernel)

structure Environment where
  memory : UInt32 → Option UInt8
  stages : Nat → Platform
  fuel : Nat
  umask : UInt32
  pid : UInt32
  sha256Hex : List UInt8 → List UInt8
  programs : Programs

/-- The calls whose handlers contain `UCHECK_STR`, with their argument registers. -/
inductive StringCall where
  | mkdir (p : UInt32)
  | rmdir (p : UInt32)
  | unlink (p : UInt32)
  | rename (src dst : UInt32)
  | opendir (p : UInt32)
  | stat (p st : UInt32)
  | fileOpen (path flags : UInt32)
  | spawn (path argv : UInt32)
  | login (u p : UInt32)
  | chmod (p perms : UInt32)
  | chown (p uid gid : UInt32)
  | su (u p : UInt32)
  | resolve (path out max : UInt32)
  | tccCompile (src : UInt32)
  | execve (path argv : UInt32)

namespace StringCall

def strings : StringCall → List UInt32
  | mkdir p | rmdir p | unlink p | opendir p | stat p _ | chmod p _ | chown p _ _ => [p]
  | fileOpen path _ | spawn path _ | resolve path _ _ | execve path _ => [path]
  | rename src dst => [src, dst]
  | login u p | su u p => [u, p]
  | tccCompile src => [src]

end StringCall

/-- A system call under way: the result register, the kernel, the strings used so far and the
bytes written to the memory of the program. -/
structure Handling where
  eax : UInt32
  kernel : Kernel
  used : List UInt32
  written : List (UInt32 × List UInt8)

namespace Handling

def ret (eax : UInt32) (s : Handling) : Handling := { s with eax := eax }

def stored (s : Handling) (done : Int × Storage) : Handling :=
  { s with
    eax := UInt32.ofInt done.1
    kernel := { s.kernel with session := { s.kernel.session with storage := done.2 } } }

def opened (s : Handling) (done : Int × Session) : Handling :=
  { s with eax := UInt32.ofInt done.1, kernel := { s.kernel with session := done.2 } }

def identified (s : Handling) (done : Int × Users) : Handling :=
  { s with eax := UInt32.ofInt done.1, kernel := { s.kernel with users := done.2 } }

def storage (s : Handling) : Storage := s.kernel.session.storage

section Steps

variable (env : Environment)

def context (s : Handling) : CallContext :=
  ⟨env.stages, env.fuel, s.kernel.users.usersGetCred, env.umask, env.pid⟩

def caller (s : Handling) : Caller := s.kernel.session.caller (s.context env)

def ucheckStr (ptr : UInt32) (s : Handling) : Option Handling :=
  (uaccessStrnlen env.memory ptr 4096).map fun len => if len < 0 then s.ret (-14) else s

def readString (limit : Nat) (ptr : UInt32) (s : Handling) : Option (List UInt8 × Handling) :=
  (stringAt env.memory limit ptr).map fun text => (text, { s with used := s.used ++ [ptr] })

def readPath (ptr : UInt32) (s : Handling) : Option (PathArg × Handling) :=
  (readString env 511 ptr s).map fun read => (⟨ptr = 0, read.1⟩, read.2)

/-! ## The handlers -/

def mkdir (p : UInt32) (s : Handling) : Option Handling :=
  (ucheckStr env p s).bind fun s =>
    (readPath env p s).bind fun path =>
      (sysMkdir env.stages (path.2.caller env) path.1 path.2.storage).map path.2.stored

def rmdir (p : UInt32) (s : Handling) : Option Handling :=
  (ucheckStr env p s).bind fun s =>
    (readPath env p s).bind fun path =>
      (sysRmdir (path.2.caller env) path.1 path.2.storage).map path.2.stored

def unlink (p : UInt32) (s : Handling) : Option Handling :=
  (ucheckStr env p s).bind fun s =>
    (readPath env p s).bind fun path =>
      (sysUnlink (path.2.caller env) path.1 path.2.storage).map path.2.stored

/-- `SYS_RENAME`.  The destination is not used before the source was found and read. -/
def rename (src dst : UInt32) (s : Handling) : Option Handling :=
  (ucheckStr env src s).bind fun s =>
    (ucheckStr env dst s).bind fun s =>
      (readPath env src s).bind fun source =>
        let s := source.2
        (vfsResolve s.storage.fs source.1 s.kernel.session.cwd).bind fun found =>
          match found.bind fun sn => (s.storage.fs.node sn).map fun node => (sn, node) with
          | none => some (s.ret (-1))
          | some (sn, node) =>
              if !checkAccess (s.caller env).cred node accRead then some (s.ret (-1))
              else if node.type ≠ vfsFile then some (s.ret (-1))
              else if !kmalloc ((env.stages 0).alloc 0) (Bytes.u32 (node.size.toNat + 1)) then
                some (s.ret (-1))
              else
                (readPath env dst s).bind fun destination =>
                  (renameCopy env.stages env.fuel (s.caller env) sn node source.1 destination.1
                    s.storage).map destination.2.stored

def opendir (p : UInt32) (s : Handling) : Option Handling :=
  (ucheckStr env p s).bind fun s =>
    (readPath env p s).bind fun path =>
      (path.2.kernel.session.sysOpendir (path.2.context env) path.1).map path.2.opened

def statRecord (st : UInt32) (node : VfsNode) : List (UInt32 × List UInt8) :=
  [(st, node.name.take 63 ++ [0]),
    (st + 64, Bytes.words [node.size, node.type, node.permissions, node.ownerUid, node.ownerGid])]

def stat (p st : UInt32) (s : Handling) : Option Handling :=
  (ucheckStr env p s).bind fun s =>
    if !uaccessOk st 84 then some (s.ret (-14))
    else
      (readPath env p s).bind fun path =>
        let s := path.2
        (vfsResolve s.storage.fs path.1 s.kernel.session.cwd).map fun found =>
          match found.bind s.storage.fs.node with
          | none => s.ret (-1)
          | some node => { s with eax := 0, written := s.written ++ statRecord st node }

def fileOpen (path flags : UInt32) (s : Handling) : Option Handling :=
  (ucheckStr env path s).bind fun s =>
    (readPath env path s).bind fun path =>
      (path.2.kernel.session.sysFileOpen (path.2.context env) path.1 flags).map path.2.opened

def spawn (path argv : UInt32) (s : Handling) : Option Handling :=
  (ucheckStr env path s).bind fun s =>
    (readString env 128 path s).bind fun text =>
      (env.programs.elfExecArgv (text.1.take 127) argv text.2.kernel).map fun done =>
        { text.2 with eax := done.1, kernel := done.2 }

def enterHome (index : Nat) (s : Handling) : Option Handling :=
  match s.kernel.users.users[index]? with
  | none => some s
  | some user =>
      (s.kernel.session.enterHome (.of user.home) false).map fun session =>
        { s with kernel := { s.kernel with session := session } }

def login (u p : UInt32) (s : Handling) : Option Handling :=
  (ucheckStr env u s).bind fun s =>
    (ucheckStr env p s).bind fun s =>
      (readString env userNameMax u s).bind fun name =>
        match name.2.kernel.users.usersFind name.1 with
        | none => some (name.2.ret (-1))
        | some index =>
            (readString env (2 ^ 32) p name.2).bind fun password =>
              let done := password.2.kernel.users.sysLogin env.sha256Hex name.1 password.1
              if done.1 < 0 then some (password.2.identified done)
              else (password.2.identified done).enterHome index

def chmod (p perms : UInt32) (s : Handling) : Option Handling :=
  (ucheckStr env p s).bind fun s =>
    (readPath env p s).bind fun path =>
      (vfsChmod (path.2.caller env).cred path.2.storage.fs path.1 path.2.kernel.session.cwd
        perms).map fun done =>
        path.2.stored (if 0 ≤ done.1 then 0 else -1, { path.2.storage with fs := done.2 })

def chown (p uid gid : UInt32) (s : Handling) : Option Handling :=
  if !s.kernel.users.isRootUser then some (s.ret (-1))
  else
    (ucheckStr env p s).bind fun s =>
      (readPath env p s).bind fun path =>
        (vfsChown (path.2.caller env).cred path.2.storage.fs path.1 path.2.kernel.session.cwd
          uid gid).map fun done =>
          path.2.stored (if 0 ≤ done.1 then 0 else -1, { path.2.storage with fs := done.2 })

def su (u p : UInt32) (s : Handling) : Option Handling :=
  (ucheckStr env u s).bind fun s =>
    (ucheckStr env p s).bind fun s =>
      (readString env userNameMax u s).bind fun name =>
        match name.2.kernel.users.usersFind name.1 with
        | none => some (name.2.ret (-1))
        | some index =>
            if name.2.kernel.users.isRootUser then
              some (name.2.identified (0, name.2.kernel.users.setCurrentUser (some index)))
            else
              (readString env (2 ^ 32) p name.2).map fun password =>
                password.2.identified
                  (password.2.kernel.users.sysSu env.sha256Hex name.1 password.1)

def resolve (path out max : UInt32) (s : Handling) : Option Handling :=
  (ucheckStr env path s).bind fun s =>
    if out = 0 ∨ max = 0 ∨ 0x80000000 ≤ max then some (s.ret (-1))
    else if !uaccessOk out max then some (s.ret (-14))
    else
      (readPath env path s).bind fun path =>
        let s := path.2
        (vfsResolve s.storage.fs path.1 s.kernel.session.cwd).bind fun found =>
          match found with
          | none => some (s.ret (-1))
          | some id =>
              (vfsGetPath s.storage.fs id).map fun text =>
                let text := text.take (max.toNat - 1)
                { s with
                  eax := UInt32.ofNat text.length
                  written := s.written ++ [(out, text ++ [0])] }

def compiledName (src : List UInt8) : List UInt8 :=
  if 2 < src.length ∧ src.drop (src.length - 2) = literal ".c" then src.take (src.length - 2)
  else src

def tccCompile (src : UInt32) (s : Handling) : Option Handling :=
  (ucheckStr env src s).bind fun s =>
    if src = 0 then some (s.ret (-1))
    else
      (readString env 128 src s).bind fun text =>
        let kSrc := text.1.take 127
        (env.programs.tccCompile kSrc (compiledName kSrc) text.2.kernel).map fun done =>
          { text.2 with eax := done.1, kernel := done.2 }

/-- `SYS_EXECVE`.  The result register is left alone when the image was replaced. -/
def execve (path argv : UInt32) (s : Handling) : Option Handling :=
  (ucheckStr env path s).bind fun s =>
    (readString env 128 path s).bind fun text =>
      (env.programs.elfExecve (text.1.take 127) argv text.2.kernel).map fun done =>
        { text.2 with
          eax := if done.1 = (0 : UInt32) then text.2.eax else done.1
          kernel := done.2 }

def handle (call : StringCall) (s : Handling) : Option Handling :=
  match call with
  | .mkdir p => mkdir env p s
  | .rmdir p => rmdir env p s
  | .unlink p => unlink env p s
  | .rename src dst => rename env src dst s
  | .opendir p => opendir env p s
  | .stat p st => stat env p st s
  | .fileOpen path flags => fileOpen env path flags s
  | .spawn path argv => spawn env path argv s
  | .login u p => login env u p s
  | .chmod p perms => chmod env p perms s
  | .chown p uid gid => chown env p uid gid s
  | .su u p => su env u p s
  | .resolve path out max => resolve env path out max s
  | .tccCompile src => tccCompile env src s
  | .execve path argv => execve env path argv s

end Steps

def start (eax : UInt32) (kernel : Kernel) : Handling := ⟨eax, kernel, [], []⟩

end Handling

/-! ## What a failed check does -/

def InvalidString (memory : UInt32 → Option UInt8) (ptr : UInt32) : Prop :=
  ∃ len, uaccessStrnlen memory ptr 4096 = some len ∧ len < 0

/-- A call returns `EFAULT`, leaves the kernel as it was and does not use the string. -/
def RefusesString (env : Environment) (call : StringCall) (eax : UInt32) (kernel : Kernel)
    (ptr : UInt32) : Prop :=
  ∃ s, (Handling.start eax kernel).handle env call = some s ∧ s.eax = -14 ∧ s.kernel = kernel ∧
    ptr ∉ s.used

/-- Between the check of its string and the first use, the handler refuses another argument with
`EFAULT`. -/
def StringCall.OutputRefused : StringCall → Prop
  | .stat _ st => uaccessOk st 84 = false
  | .resolve _ out max => out ≠ 0 ∧ 0 < max ∧ max < 0x80000000 ∧ uaccessOk out max = false
  | _ => False

namespace Handling

variable {env : Environment} {s s' : Handling} {ptr : UInt32}

theorem readString_used {limit : Nat} {read : List UInt8 × Handling}
    (isRead : readString env limit ptr s = some read) : ptr ∈ read.2.used := by
  rcases Option.map_eq_some_iff.mp isRead with ⟨text, -, rfl⟩
  exact List.mem_append_right _ (List.mem_singleton_self ptr)

/-- What is left of a handler behind the use of a string keeps the record of it. -/
theorem used_of_readString {limit : Nat} {body : List UInt8 × Handling → Option Handling}
    (ran : (readString env limit ptr s).bind body = some s')
    (keeps : ∀ read after, body read = some after → after.used = read.2.used) :
    ptr ∈ s'.used := by
  rcases Option.bind_eq_some_iff.mp ran with ⟨read, isRead, rest⟩
  rw [keeps read s' rest]
  exact readString_used isRead

theorem used_of_readPath {body : PathArg × Handling → Option Handling}
    (ran : (readPath env ptr s).bind body = some s')
    (keeps : ∀ path after, body path = some after → after.used = path.2.used) :
    ptr ∈ s'.used := by
  rcases Option.bind_eq_some_iff.mp ran with ⟨path, isPath, rest⟩
  rcases Option.map_eq_some_iff.mp isPath with ⟨read, isRead, rfl⟩
  rw [keeps _ s' rest]
  exact readString_used isRead

theorem used_of_map {α : Type} {result : Option α} {leave : α → Handling} {used : List UInt32}
    (ran : result.map leave = some s') (keeps : ∀ done, (leave done).used = used) :
    s'.used = used := by
  rcases Option.map_eq_some_iff.mp ran with ⟨done, -, rfl⟩
  exact keeps done

/-! ### Results other than `EFAULT` -/

theorem eax_of_code {code : Int} (isCode : code = 0 ∨ code = -1) : UInt32.ofInt code ≠ -14 := by
  rcases isCode with rfl | rfl
  · decide
  · decide

theorem renameCopy_code {stages : Nat → Platform} {fuel sn : Nat} {caller : Caller}
    {node : VfsNode} {src dst : PathArg} {storage : Storage} {done : Int × Storage}
    (ran : renameCopy stages fuel caller sn node src dst storage = some done) :
    done.1 = 0 ∨ done.1 = -1 := by
  rcases Option.bind_eq_some_iff.mp ran with ⟨read, -, rest⟩
  rcases Option.bind_eq_some_iff.mp rest with ⟨created, -, rest⟩
  split at rest
  · cases rest
    exact Or.inr rfl
  · rcases Option.bind_eq_some_iff.mp rest with ⟨written, -, rest⟩
    rcases Option.map_eq_some_iff.mp rest with ⟨deleted, -, rfl⟩
    exact Or.inl rfl

theorem sysLogin_code (users : Users) (sha256Hex : List UInt8 → List UInt8)
    (name password : List UInt8) : (users.sysLogin sha256Hex name password).1 = 0 ∨
      (users.sysLogin sha256Hex name password).1 = -1 := by
  rw [Users.sysLogin]
  split
  · exact Or.inr rfl
  · split
    · exact Or.inr rfl
    · exact Or.inl rfl

theorem sysSu_code (users : Users) (sha256Hex : List UInt8 → List UInt8)
    (name password : List UInt8) : (users.sysSu sha256Hex name password).1 = 0 ∨
      (users.sysSu sha256Hex name password).1 = -1 := by
  rw [Users.sysSu]
  split
  · exact Or.inr rfl
  · split
    · exact Or.inl rfl
    · split
      · exact Or.inr rfl
      · exact Or.inl rfl

theorem failed_ne_fault : (-1 : UInt32) ≠ -14 := by decide

theorem rename_eax {src dst : UInt32} (ran : rename env src dst s = some s') :
    s'.eax ≠ -14 := by
  rcases Option.bind_eq_some_iff.mp ran with ⟨s₁, -, rest⟩
  rcases Option.bind_eq_some_iff.mp rest with ⟨s₂, -, rest⟩
  rcases Option.bind_eq_some_iff.mp rest with ⟨source, -, rest⟩
  rcases Option.bind_eq_some_iff.mp rest with ⟨found, -, rest⟩
  split at rest
  · cases rest
    exact failed_ne_fault
  split at rest
  · cases rest
    exact failed_ne_fault
  split at rest
  · cases rest
    exact failed_ne_fault
  split at rest
  · cases rest
    exact failed_ne_fault
  rcases Option.bind_eq_some_iff.mp rest with ⟨destination, -, rest⟩
  rcases Option.map_eq_some_iff.mp rest with ⟨done, copied, rfl⟩
  exact eax_of_code (renameCopy_code copied)

theorem enterHome_eax {index : Nat} (ran : s.enterHome index = some s') : s'.eax = s.eax := by
  rw [enterHome] at ran
  split at ran
  · cases ran
    rfl
  · rcases Option.map_eq_some_iff.mp ran with ⟨session, -, rfl⟩
    rfl

theorem login_eax {u p : UInt32} (ran : login env u p s = some s') : s'.eax ≠ -14 := by
  rcases Option.bind_eq_some_iff.mp ran with ⟨s₁, -, rest⟩
  rcases Option.bind_eq_some_iff.mp rest with ⟨s₂, -, rest⟩
  rcases Option.bind_eq_some_iff.mp rest with ⟨name, -, rest⟩
  split at rest
  · cases rest
    exact failed_ne_fault
  rcases Option.bind_eq_some_iff.mp rest with ⟨password, -, rest⟩
  have code := sysLogin_code password.2.kernel.users env.sha256Hex name.1 password.1
  simp only at rest
  split at rest
  · cases rest
    exact eax_of_code code
  · rw [enterHome_eax rest]
    exact eax_of_code code

theorem su_eax {u p : UInt32} (ran : su env u p s = some s') : s'.eax ≠ -14 := by
  rcases Option.bind_eq_some_iff.mp ran with ⟨s₁, -, rest⟩
  rcases Option.bind_eq_some_iff.mp rest with ⟨s₂, -, rest⟩
  rcases Option.bind_eq_some_iff.mp rest with ⟨name, -, rest⟩
  split at rest
  · cases rest
    exact failed_ne_fault
  split at rest
  · cases rest
    exact eax_of_code (Or.inl rfl)
  · rcases Option.map_eq_some_iff.mp rest with ⟨password, -, rfl⟩
    exact eax_of_code (sysSu_code _ _ _ _)

/-! ### The strings are used -/

theorem stat_uses {p st : UInt32} (ran : stat env p st s = some s') :
    p ∈ s'.used ∨ uaccessOk st 84 = false := by
  rcases Option.bind_eq_some_iff.mp ran with ⟨s₁, -, rest⟩
  split at rest
  · rename_i refused
    exact Or.inr (by simpa using refused)
  refine Or.inl (used_of_readPath rest fun path after ran => ?_)
  rcases Option.map_eq_some_iff.mp ran with ⟨found, -, rfl⟩
  split
  · rfl
  · rfl

theorem resolve_uses {path out max : UInt32} (ran : resolve env path out max s = some s') :
    path ∈ s'.used ∨ s'.eax ≠ -14 ∨ (StringCall.resolve path out max).OutputRefused := by
  rcases Option.bind_eq_some_iff.mp ran with ⟨s₁, -, rest⟩
  split at rest
  · cases rest
    exact Or.inr (Or.inl failed_ne_fault)
  rename_i sized
  rcases not_or.mp sized with ⟨out_, sized⟩
  rcases not_or.mp sized with ⟨nonzero, signed⟩
  split at rest
  · rename_i refused
    exact Or.inr (Or.inr ⟨out_, UInt32.pos_iff_ne_zero.mpr nonzero, UInt32.not_le.mp signed,
      by simpa using refused⟩)
  refine Or.inl (used_of_readPath rest fun path after ran => ?_)
  rcases Option.bind_eq_some_iff.mp ran with ⟨found, -, rest⟩
  split at rest
  · cases rest
    rfl
  · exact used_of_map rest fun _ => rfl

/-- No handler stops at the check of a string: it uses the string, or another result replaces
`EFAULT`, or another argument is refused. -/
theorem handle_goes_on {call : StringCall} (argument : ptr ∈ call.strings)
    (ran : s.handle env call = some s') :
    ptr ∈ s'.used ∨ s'.eax ≠ -14 ∨ call.OutputRefused := by
  cases call with
  | rename src dst => exact Or.inr (Or.inl (rename_eax ran))
  | login u p => exact Or.inr (Or.inl (login_eax ran))
  | su u p => exact Or.inr (Or.inl (su_eax ran))
  | stat p st =>
      rw [List.mem_singleton.mp argument]
      exact (stat_uses ran).imp_right Or.inr
  | resolve path out max =>
      rw [List.mem_singleton.mp argument]
      exact resolve_uses ran
  | chown p uid gid =>
      rw [List.mem_singleton.mp argument]
      rw [handle, chown] at ran
      split at ran
      · cases ran
        exact Or.inr (Or.inl failed_ne_fault)
      · rcases Option.bind_eq_some_iff.mp ran with ⟨s₁, -, rest⟩
        exact Or.inl (used_of_readPath rest fun _ _ ran => used_of_map ran fun _ => rfl)
  | tccCompile src =>
      rw [List.mem_singleton.mp argument]
      rcases Option.bind_eq_some_iff.mp ran with ⟨s₁, -, rest⟩
      split at rest
      · cases rest
        exact Or.inr (Or.inl failed_ne_fault)
      · exact Or.inl (used_of_readString rest fun _ _ ran => used_of_map ran fun _ => rfl)
  | spawn path argv | execve path argv =>
      rw [List.mem_singleton.mp argument]
      rcases Option.bind_eq_some_iff.mp ran with ⟨s₁, -, rest⟩
      exact Or.inl (used_of_readString rest fun _ _ ran => used_of_map ran fun _ => rfl)
  | mkdir p | rmdir p | unlink p | opendir p | fileOpen p flags | chmod p perms =>
      rw [List.mem_singleton.mp argument]
      rcases Option.bind_eq_some_iff.mp ran with ⟨s₁, -, rest⟩
      exact Or.inl (used_of_readPath rest fun _ _ ran => used_of_map ran fun _ => rfl)

theorem ucheckStr_invalid (invalid : InvalidString env.memory ptr) (s : Handling) :
    ucheckStr env ptr s = some (s.ret (-14)) := by
  rcases invalid with ⟨len, scanned, negative⟩
  rw [ucheckStr, scanned, Option.map_some, if_pos negative]

end Handling

/-- For every string that fails its check, the call returns `EFAULT` without using it exactly
when another argument is refused before. -/
theorem refusesString_iff {env : Environment} {call : StringCall} {eax ptr : UInt32}
    {kernel : Kernel} (argument : ptr ∈ call.strings) (invalid : InvalidString env.memory ptr) :
    RefusesString env call eax kernel ptr ↔ call.OutputRefused := by
  constructor
  · rintro ⟨s, ran, result, -, unused⟩
    rcases Handling.handle_goes_on argument ran with used | other | refused
    · exact absurd used unused
    · exact absurd result other
    · exact refused
  · intro refused
    cases call with
    | stat p st =>
        refine ⟨(Handling.start eax kernel).ret (-14), ?_, rfl, rfl, List.not_mem_nil⟩
        rw [List.mem_singleton.mp argument] at invalid
        rw [Handling.handle, Handling.stat, Handling.ucheckStr_invalid invalid, Option.bind_some,
          show uaccessOk st 84 = false from refused]
        rfl
    | resolve path out max =>
        rcases refused with ⟨out_, positive, signed, refused⟩
        refine ⟨(Handling.start eax kernel).ret (-14), ?_, rfl, rfl, List.not_mem_nil⟩
        rw [List.mem_singleton.mp argument] at invalid
        have sized : ¬(out = 0 ∨ max = 0 ∨ 0x80000000 ≤ max) := by
          rintro (none_ | zero | large)
          · exact out_ none_
          · exact absurd zero (UInt32.pos_iff_ne_zero.mp positive)
          · exact absurd signed (UInt32.not_lt.mpr large)
        rw [Handling.handle, Handling.resolve, Handling.ucheckStr_invalid invalid,
          Option.bind_some, if_neg sized, refused]
        rfl
    | mkdir | rmdir | unlink | rename | opendir | fileOpen | spawn | login | chmod | chown | su
    | tccCompile | execve => exact absurd refused id

/-! ## A directory that is named by a string of the kernel -/

def kernelString (ptr : UInt32) : Option UInt8 :=
  (literal "/tmp/x" ++ [0])[(ptr - 0x00100000).toNat]?

def kernelStringEnv : Environment where
  memory := kernelString
  stages := fun _ => .ideal
  fuel := 100
  umask := 0o22
  pid := 5
  sha256Hex := id
  programs := ⟨fun _ _ kernel => some (0, kernel), fun _ _ kernel => some (0, kernel),
    fun _ _ kernel => some (0, kernel)⟩

def bootedKernel : Option Kernel :=
  (boot .ideal noDisk).map fun storage =>
    ⟨.start storage, .defaultUsers [1] [2], ⟨[], 5, none, none⟩⟩

theorem kernelString_invalid : InvalidString kernelString 0x00100000 := ⟨-1, rfl, by decide⟩

theorem kernelString_makesDirectory :
    (bootedKernel.bind fun kernel =>
      ((Handling.start 18 kernel).handle kernelStringEnv (.mkdir 0x00100000)).map fun s =>
        (s.eax, s.used, s.kernel.session.storage.fs.next - kernel.session.storage.fs.next)) =
      some (0, [0x00100000], 1) := by
  rw [bootedKernel, boot_ideal]
  decide +kernel

theorem refusesString_fails :
    ¬∀ (env : Environment) (call : StringCall) (eax ptr : UInt32) (kernel : Kernel),
      ptr ∈ call.strings → InvalidString env.memory ptr →
        RefusesString env call eax kernel ptr := by
  intro refuses
  rcases Option.bind_eq_some_iff.mp kernelString_makesDirectory with ⟨kernel, -, made⟩
  rcases Option.map_eq_some_iff.mp made with ⟨s, ran, outcome⟩
  rcases refuses kernelStringEnv (.mkdir 0x00100000) 18 0x00100000 kernel
    (List.mem_singleton_self _) kernelString_invalid with ⟨s', ran', efault, -, -⟩
  cases ran.symm.trans ran'
  have zero : s.eax = 0 := congrArg Prod.fst outcome
  rw [zero] at efault
  exact absurd efault (by decide)

theorem refusesString_iff_stat :
    ∃ kernel, bootedKernel = some kernel ∧
      InvalidString kernelStringEnv.memory 0x00100000 ∧
      (RefusesString kernelStringEnv (.stat 0x00100000 0) 16 kernel 0x00100000 ↔
        uaccessOk 0 84 = false) := by
  have booted : bootedKernel.isSome = true := by
    rw [bootedKernel, boot_ideal]
    decide +kernel
  rcases Option.isSome_iff_exists.mp booted with ⟨kernel, isKernel⟩
  exact ⟨kernel, isKernel, kernelString_invalid,
    refusesString_iff (List.mem_singleton_self _) kernelString_invalid⟩

end Trinux
