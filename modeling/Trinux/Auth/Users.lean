import Trinux.Fs.Vfs

namespace Trinux

/-!
# Accounts and the session

There is one session for the whole machine: a pointer to the account of whoever is logged in,
which may be null.  The credential for the permission checks of the file system is read from it,
and without an account it is that of root.

Accounts are only ever added at the end, so a pointer to one is its index.  A null string of a
request has the same effect as an empty one.  The files in which accounts are kept have a module of
their own, and the home directories are not modelled.  The digest is that of `sha256_hex`.
-/

def maxUsers : Nat := 32

def userNameMax : Nat := 32

def userHomeMax : Nat := 64

def userPassMax : Nat := 32

def userField (size : Nat) (text : List UInt8) : List UInt8 := text.take (size - 1)

structure User where
  name : List UInt8
  uid : UInt32
  gid : UInt32
  home : List UInt8
  shell : List UInt8
  gecos : List UInt8
  password : List UInt8
  deriving DecidableEq, Repr

structure Users where
  users : List User
  curUser : Option Nat
  deriving DecidableEq, Repr

namespace Users

def currentUser (s : Users) : Option User := s.curUser.bind fun index => s.users[index]?

def usersGetCred (s : Users) : Cred :=
  match s.currentUser with
  | some user => ⟨user.uid, user.gid⟩
  | none => ⟨0, 0⟩

def isRootUser (s : Users) : Bool :=
  match s.currentUser with
  | some user => user.uid == 0
  | none => false

def usersFind (s : Users) (name : List UInt8) : Option Nat :=
  s.users.findIdx? fun user => user.name == name

def setCurrentUser (s : Users) (index : Option Nat) : Users := { s with curUser := index }

def setPassword (s : Users) (index : Nat) (password : List UInt8) : Users :=
  { s with users := s.users.modify index fun user => { user with password := password } }

section Digest

variable (sha256Hex : List UInt8 → List UInt8)

def sha256Verify (password storedHex : List UInt8) : Bool :=
  if storedHex.length ≠ 64 then password == storedHex else sha256Hex password == storedHex

def isHashed (stored : List UInt8) : Bool :=
  stored.length == 64 && stored.all fun c => (48 ≤ c && c ≤ 57) || (97 ≤ c && c ≤ 102)

def storedPassword (password : List UInt8) : List UInt8 :=
  if password = [] then [] else userField userPassMax (sha256Hex password)

def usersAdd (s : Users) (name password : List UInt8) (uid gid : UInt32) (home : List UInt8) :
    Option Users :=
  if name = [] ∨ (s.usersFind name).isSome ∨ maxUsers ≤ s.users.length then none
  else some { s with users := s.users ++ [{
    name := userField userNameMax name
    uid := uid
    gid := gid
    home := userField userHomeMax (if home ≠ [] then home else literal "/home/" ++ name)
    shell := literal "/bin/sh"
    gecos := userField userNameMax name
    password := storedPassword sha256Hex password }] }

def usersSetPassword (s : Users) (name password : List UInt8) : Int × Users :=
  match s.usersFind name with
  | none => (-1, s)
  | some index => (0, s.setPassword index (storedPassword sha256Hex password))

/-- `users_check_password`.  A password that is not stored as a digest is replaced by one when it
is first accepted. -/
def usersCheckPassword (s : Users) (name password : List UInt8) : Bool × Users :=
  match s.usersFind name with
  | none => (false, s)
  | some index =>
      match s.users[index]? with
      | none => (false, s)
      | some user =>
          if user.password = [] then (true, s)
          else
            let ok := sha256Verify sha256Hex password user.password
            (ok, if ok && !isHashed user.password then
              s.setPassword index (userField userPassMax (sha256Hex password)) else s)

/-! ## The calls on the session -/

/-- The system calls that touch accounts or the session, with the strings that they read.

Some calls store through a pointer that they do not check: `SYS_HOSTNAME` and `SYS_GETUSER` a zero
byte for a size of zero or less, `SYS_LISTPROC`, `SYS_USERLIST`, `SYS_GETGROUPS` and `SYS_VFS_FIND`
the entries of a list whose address stands in the request, and the loader of programs their
segments.  Where such a store goes is up to the caller, so the event says what it leaves of the accounts and the session.  The other calls touch
neither. -/
inductive Call where
  | login (name password : List UInt8)
  | su (name password : List UInt8)
  | logout
  | useradd (name password : List UInt8) (uid gid : UInt32) (home : List UInt8)
  | passwd (user newPassword : List UInt8)
  | stores (left : Users)
  | other
  deriving DecidableEq, Repr

def sysLogin (s : Users) (name password : List UInt8) : Int × Users :=
  match s.usersFind name with
  | none => (-1, s)
  | some index =>
      match s.usersCheckPassword sha256Hex name password with
      | (false, s) => (-1, s)
      | (true, s) => (0, s.setCurrentUser (some index))

def sysSu (s : Users) (name password : List UInt8) : Int × Users :=
  match s.usersFind name with
  | none => (-1, s)
  | some index =>
      if s.isRootUser then (0, s.setCurrentUser (some index))
      else
        match s.usersCheckPassword sha256Hex name password with
        | (false, s) => (-1, s)
        | (true, s) => (0, s.setCurrentUser (some index))

def sysLogout (s : Users) : Int × Users := (0, s.setCurrentUser none)

def sysUseradd (s : Users) (name password : List UInt8) (uid gid : UInt32)
    (home : List UInt8) : Int × Users :=
  if !s.isRootUser then (-1, s)
  else
    match s.usersAdd sha256Hex name password uid gid home with
    | none => (-1, s)
    | some s => (0, s)

def sysPasswd (s : Users) (user newPassword : List UInt8) : Int × Users :=
  match s.currentUser with
  | none => (-1, s)
  | some me =>
      if me.uid ≠ 0 ∧ me.name ≠ user then (-1, s)
      else
        let done := s.usersSetPassword sha256Hex user newPassword
        (if done.1 ≠ 0 then 0 else -1, done.2)

def call (s : Users) : Call → Int × Users
  | .login name password => s.sysLogin sha256Hex name password
  | .su name password => s.sysSu sha256Hex name password
  | .logout => s.sysLogout
  | .useradd name password uid gid home => s.sysUseradd sha256Hex name password uid gid home
  | .passwd user newPassword => s.sysPasswd sha256Hex user newPassword
  | .stores left => (0, left)
  | .other => (0, s)

/-! ## Gaining the rights of root -/

/-- A call after which the session has the rights of root and had not before. -/
def GainsRoot (s : Users) (c : Call) : Prop :=
  s.usersGetCred.uid ≠ 0 ∧ (s.call sha256Hex c).2.usersGetCred.uid = 0

def ChecksRoot (s : Users) (name password : List UInt8) : Prop :=
  ∃ index user, s.usersFind name = some index ∧ s.users[index]? = some user ∧ user.uid = 0 ∧
    (s.usersCheckPassword sha256Hex name password).1 = true

/-- The call is a login or a change of user whose password check for an account of root
succeeds. -/
def Authenticates (s : Users) : Call → Prop
  | .login name password => s.ChecksRoot sha256Hex name password
  | .su name password => s.ChecksRoot sha256Hex name password
  | _ => False

def GainsRootByPassword : Users → List Call → Prop
  | _, [] => True
  | s, c :: rest =>
      (s.GainsRoot sha256Hex c → s.Authenticates sha256Hex c) ∧
        GainsRootByPassword (s.call sha256Hex c).2 rest

def OnlyRootLogsOut : Users → List Call → Prop
  | _, [] => True
  | s, c :: rest =>
      (c = .logout → s.usersGetCred.uid = 0) ∧ OnlyRootLogsOut (s.call sha256Hex c).2 rest

/-- In a run of calls, what is stored through unchecked pointers goes elsewhere than to the accounts
and the session. -/
def StoresElsewhere : Users → List Call → Prop
  | _, [] => True
  | s, c :: rest =>
      (∀ left, c = .stores left → left = s) ∧ StoresElsewhere (s.call sha256Hex c).2 rest

variable {sha256Hex} {s : Users}

/-- Changing passwords changes nobody's numbers. -/
@[simp] theorem setPassword_cred (s : Users) (index : Nat) (password : List UInt8) :
    (s.setPassword index password).usersGetCred = s.usersGetCred := by
  rw [usersGetCred, usersGetCred, currentUser, currentUser, setPassword]
  cases s.curUser with
  | none => rfl
  | some current =>
      rw [Option.bind_some, Option.bind_some, List.getElem?_modify]
      cases s.users[current]? with
      | none => rfl
      | some user =>
          rw [Option.map_eq_map, Option.map_some]
          by_cases same : index = current
          · rw [if_pos same]
          · rw [if_neg same]

theorem setPassword_login (s : Users) (index other : Nat) (password : List UInt8) :
    ((s.setPassword index password).setCurrentUser (some other)).usersGetCred =
      (s.setCurrentUser (some other)).usersGetCred :=
  setPassword_cred (s.setCurrentUser (some other)) index password

/-- A password check keeps the session, and what a login makes of it. -/
theorem usersCheckPassword_keeps (sha256Hex : List UInt8 → List UInt8) (s : Users)
    (name password : List UInt8) :
    (s.usersCheckPassword sha256Hex name password).2.usersGetCred = s.usersGetCred ∧
      ∀ other, ((s.usersCheckPassword sha256Hex name password).2.setCurrentUser
        (some other)).usersGetCred = (s.setCurrentUser (some other)).usersGetCred := by
  rw [usersCheckPassword]
  cases s.usersFind name with
  | none => exact ⟨rfl, fun _ => rfl⟩
  | some index =>
      simp only
      cases s.users[index]? with
      | none => exact ⟨rfl, fun _ => rfl⟩
      | some user =>
          simp only
          split
          · exact ⟨rfl, fun _ => rfl⟩
          simp only
          split
          · exact ⟨setPassword_cred s index _, fun other => setPassword_login s index other _⟩
          · exact ⟨rfl, fun _ => rfl⟩

/-- A session of the account at an index has root's rights only if the account has. -/
theorem root_of_login {name : List UInt8} {index : Nat} (found : s.usersFind name = some index)
    (root : (s.setCurrentUser (some index)).usersGetCred.uid = 0) :
    ∃ user, s.users[index]? = some user ∧ user.uid = 0 := by
  have inside := (List.findIdx?_eq_some_iff_getElem.mp found).1
  refine ⟨s.users[index], List.getElem?_eq_getElem inside, ?_⟩
  rw [usersGetCred, currentUser, setCurrentUser, Option.bind_some,
    List.getElem?_eq_getElem inside] at root
  exact root

theorem cred_of_isRootUser (root : s.isRootUser = true) : s.usersGetCred.uid = 0 := by
  rw [isRootUser] at root
  rw [usersGetCred]
  cases current : s.currentUser with
  | none => rfl
  | some user =>
      rw [current] at root
      exact eq_of_beq root

/-- A call that is not the end of the session and spares the accounts gains the rights of root by
authentication only. -/
theorem GainsRoot.authenticates {c : Call} (gains : s.GainsRoot sha256Hex c)
    (stays : c ≠ .logout) (elsewhere : ∀ left, c = .stores left → left = s) :
    s.Authenticates sha256Hex c := by
  rcases gains with ⟨wasUser, isRoot⟩
  have notRoot : s.isRootUser = false := by
    cases root : s.isRootUser with
    | false => rfl
    | true => exact absurd (cred_of_isRootUser root) wasUser
  have checked : ∀ name password index, s.usersFind name = some index →
      (match s.usersCheckPassword sha256Hex name password with
        | (false, s) => ((-1 : Int), s)
        | (true, s) => (0, s.setCurrentUser (some index))).2.usersGetCred.uid = 0 →
      s.ChecksRoot sha256Hex name password := by
    intro name password index found root
    have keeps := usersCheckPassword_keeps sha256Hex s name password
    rcases outcome : s.usersCheckPassword sha256Hex name password with ⟨_ | _, after⟩
    · rw [outcome] at root keeps
      rw [keeps.1] at root
      exact absurd root wasUser
    · rw [outcome] at root keeps
      rw [keeps.2 index] at root
      rcases root_of_login found root with ⟨user, account, zero⟩
      exact ⟨index, user, found, account, zero, congrArg Prod.fst outcome⟩
  cases c with
  | login name password =>
      rw [call, sysLogin] at isRoot
      cases found : s.usersFind name with
      | none =>
          rw [found] at isRoot
          exact absurd isRoot wasUser
      | some index =>
          rw [found] at isRoot
          exact checked name password index found isRoot
  | su name password =>
      rw [call, sysSu] at isRoot
      cases found : s.usersFind name with
      | none =>
          rw [found] at isRoot
          exact absurd isRoot wasUser
      | some index =>
          rw [found] at isRoot
          simp only [notRoot, Bool.false_eq_true, if_false] at isRoot
          exact checked name password index found isRoot
  | logout => exact absurd rfl stays
  | useradd name password uid gid home =>
      rw [call, sysUseradd, notRoot] at isRoot
      exact absurd isRoot wasUser
  | passwd user newPassword =>
      rw [call, sysPasswd] at isRoot
      cases current : s.currentUser with
      | none =>
          rw [current] at isRoot
          exact absurd isRoot wasUser
      | some me =>
          rw [current] at isRoot
          simp only at isRoot
          split at isRoot
          · exact absurd isRoot wasUser
          · rw [usersSetPassword] at isRoot
            cases found : s.usersFind user with
            | none =>
                rw [found] at isRoot
                exact absurd isRoot wasUser
            | some index =>
                rw [found] at isRoot
                simp only [setPassword_cred] at isRoot
                exact absurd isRoot wasUser
  | stores left =>
      rw [call, elsewhere left rfl] at isRoot
      exact absurd isRoot wasUser
  | other => exact absurd isRoot wasUser

end Digest

/-- The accounts that the kernel creates at boot, with the default user logged in. -/
def defaultUsers (rootPassword userPassword : List UInt8) : Users where
  users := [
    ⟨literal "root", 0, 0, literal "/root", literal "/bin/sh", literal "root", rootPassword⟩,
    ⟨literal "user", 1000, 1000, literal "/home/user", literal "/bin/sh",
      literal "Default User", userPassword⟩]
  curUser := some 1

end Users

end Trinux
