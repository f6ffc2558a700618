import Trinux.Auth.UserFiles

namespace Trinux

/-!
# The call that changes a password

`users_set_password` returns zero if it has found the account, and `SYS_PASSWD` takes this for a
failure.  What `write_file` leaves of a file is a parameter: without memory or without a place in
the directory it may be less than the text.
-/

structure FileWrites where
  passwd : Option (List UInt8) → List UInt8 → Option (List UInt8)
  shadow : Option (List UInt8) → List UInt8 → Option (List UInt8)

def FileWrites.whole : FileWrites := ⟨fun _ text => some text, fun _ text => some text⟩

namespace UserBase

variable (w : FileWrites)

def usersSaveTo (s : UserBase) : UserBase :=
  { s with
    passwd := w.passwd s.passwd (passwdText s.accounts.users)
    shadow := w.shadow s.shadow (shadowText s.accounts.users) }

def usersSetPasswordTo (s : UserBase) (name password : CString) : Int × UserBase :=
  let (result, accounts) := s.accounts.usersSetPassword sha256Hex name.1 password.1
  (result, if result = 0 then { s with accounts := accounts }.usersSaveTo w else s)

def sysPasswd (s : UserBase) (user newPass : CString) : Int × UserBase :=
  match s.accounts.currentUser with
  | none => (-1, s)
  | some me =>
      if me.uid ≠ 0 ∧ me.name ≠ user.1 then (-1, s)
      else
        let done := s.usersSetPasswordTo w user newPass
        (if done.1 ≠ 0 then 0 else -1, done.2)

def MayChange (s : UserBase) (user : CString) : Prop :=
  ∃ me, s.accounts.currentUser = some me ∧ (me.uid = 0 ∨ me.name = user.1)

def Holds (s : UserBase) (index : Nat) (user newPass : CString) : Prop :=
  (∃ account, s.accounts.users[index]? = some account ∧
      account.password = Users.storedPassword sha256Hex newPass.1) ∧
    shadowGet s.shadow user.1 = Users.storedPassword sha256Hex newPass.1

def Replaced (s : UserBase) (user newPass : CString) : Prop :=
  ∃ index, s.accounts.usersFind user.1 = some index ∧ s.MayChange user ∧
    (s.sysPasswd w user newPass).2.Holds index user newPass

/-- Zero is returned exactly if the password is replaced, and otherwise nothing changes. -/
structure Reports (s : UserBase) (user newPass : CString) : Prop where
  success : (s.sysPasswd w user newPass).1 = 0 ↔ s.Replaced w user newPass
  failure : ¬s.Replaced w user newPass →
    (s.sysPasswd w user newPass).1 ≠ 0 ∧ (s.sysPasswd w user newPass).2 = s

/-- The account has the new password, saving changes nothing, and the file lacks the password. -/
def KeptAsItIs (s : UserBase) (user newPass : CString) : Prop :=
  ∃ index account, s.accounts.usersFind user.1 = some index ∧
    s.accounts.users[index]? = some account ∧
    account.password = Users.storedPassword sha256Hex newPass.1 ∧ s.usersSaveTo w = s ∧
    shadowGet s.shadow user.1 ≠ Users.storedPassword sha256Hex newPass.1

def withPassword (s : UserBase) (index : Nat) (newPass : CString) : UserBase :=
  { s with accounts := s.accounts.setPassword index (Users.storedPassword sha256Hex newPass.1) }

variable {w}

theorem sysPasswd_refused {s : UserBase} {user : CString} (newPass : CString)
    (refused : ¬s.MayChange user) : s.sysPasswd w user newPass = (-1, s) := by
  unfold sysPasswd
  cases current : s.accounts.currentUser with
  | none => rfl
  | some me =>
      have other : me.uid ≠ 0 ∧ me.name ≠ user.1 :=
        not_or.mp fun may => refused ⟨me, current, may⟩
      dsimp only
      rw [if_pos other]

theorem sysPasswd_missing {s : UserBase} {user : CString} (newPass : CString)
    (may : s.MayChange user) (missing : s.accounts.usersFind user.1 = none) :
    s.sysPasswd w user newPass = (0, s) := by
  rcases may with ⟨me, current, may⟩
  unfold sysPasswd
  rw [current]
  dsimp only
  rw [if_neg (not_and_or.mpr (may.imp not_not.mpr not_not.mpr)), usersSetPasswordTo,
    Users.usersSetPassword, missing]
  rfl

theorem sysPasswd_found {s : UserBase} {user : CString} (newPass : CString)
    (may : s.MayChange user) {index : Nat} (found : s.accounts.usersFind user.1 = some index) :
    s.sysPasswd w user newPass = (-1, (s.withPassword index newPass).usersSaveTo w) := by
  rcases may with ⟨me, current, may⟩
  unfold sysPasswd
  rw [current]
  dsimp only
  rw [if_neg (not_and_or.mpr (may.imp not_not.mpr not_not.mpr)), usersSetPasswordTo,
    Users.usersSetPassword, found]
  rfl

theorem withPassword_account (s : UserBase) {index : Nat} {account : User} (newPass : CString)
    (held : s.accounts.users[index]? = some account) :
    (s.withPassword index newPass).accounts.users[index]? =
      some { account with password := Users.storedPassword sha256Hex newPass.1 } := by
  change (s.accounts.users.modify index _)[index]? = _
  rw [List.getElem?_modify_eq, held]
  rfl

theorem withPassword_same {s : UserBase} {index : Nat} {account : User} {newPass : CString}
    (held : s.accounts.users[index]? = some account)
    (same : account.password = Users.storedPassword sha256Hex newPass.1) :
    s.withPassword index newPass = s := by
  have users : s.accounts.users.modify index
      (fun user => { user with password := Users.storedPassword sha256Hex newPass.1 }) =
      s.accounts.users := by
    apply List.ext_getElem?
    intro j
    by_cases here : index = j
    · rw [← here, List.getElem?_modify_eq, held, ← same]
      rfl
    · exact List.getElem?_modify_ne _ _ here
  unfold withPassword Users.setPassword
  rw [users]

/-- What is changed is kept, whatever is written to the files. -/
theorem sysPasswd_replaced_iff {s : UserBase} {user newPass : CString} (may : s.MayChange user)
    {index : Nat} {account : User} (found : s.accounts.usersFind user.1 = some index)
    (held : s.accounts.users[index]? = some account) :
    s.Replaced w user newPass ↔ shadowGet ((s.withPassword index newPass).usersSaveTo w).shadow
      user.1 = Users.storedPassword sha256Hex newPass.1 := by
  unfold Replaced
  rw [sysPasswd_found newPass may found]
  constructor
  · rintro ⟨_, _, _, _, shadow⟩
    exact shadow
  · intro shadow
    exact ⟨index, found, may, ⟨_, withPassword_account s newPass held, rfl⟩, shadow⟩

end UserBase

/-- `SYS_PASSWD` reports what it does exactly if it refuses the call, or if the account exists and
everything is kept as it is. -/
theorem sysPasswd_reports (w : FileWrites) (s : UserBase) (user newPass : CString) :
    s.Reports w user newPass ↔ ¬s.MayChange user ∨ s.KeptAsItIs w user newPass := by
  have failed : (-1 : Int) ≠ 0 := by decide
  by_cases may : s.MayChange user
  · rw [or_iff_right (not_not.mpr may)]
    cases found : s.accounts.usersFind user.1 with
    | none =>
        have nothing : s.sysPasswd w user newPass = (0, s) :=
          UserBase.sysPasswd_missing newPass may found
        constructor
        · intro reports
          have zero := reports.success.mp (congrArg Prod.fst nothing)
          rcases zero with ⟨index, there, _⟩
          rw [found] at there
          cases there
        · rintro ⟨index, _, there, _⟩
          rw [found] at there
          cases there
    | some index =>
        have inside := (List.findIdx?_eq_some_iff_getElem.mp found).1
        have held := List.getElem?_eq_getElem inside
        have done : s.sysPasswd w user newPass =
            (-1, (s.withPassword index newPass).usersSaveTo w) :=
          UserBase.sysPasswd_found newPass may found
        have replaced : s.Replaced w user newPass ↔ shadowGet ((s.withPassword index
            newPass).usersSaveTo w).shadow user.1 = Users.storedPassword sha256Hex newPass.1 :=
          UserBase.sysPasswd_replaced_iff may found held
        constructor
        · intro reports
          have notReplaced : ¬s.Replaced w user newPass := by
            intro yes
            have zero := reports.success.mpr yes
            rw [done] at zero
            exact failed zero
          have kept := (reports.failure notReplaced).2
          rw [done] at kept
          change (s.withPassword index newPass).usersSaveTo w = s at kept
          have saved := congrArg UserBase.accounts kept
          have accounts : (s.withPassword index newPass).accounts = s.accounts := saved
          have account := UserBase.withPassword_account s newPass held
          rw [accounts, held, Option.some_inj] at account
          have same := congrArg User.password account
          rw [replaced, kept] at notReplaced
          rw [UserBase.withPassword_same held same] at kept
          exact ⟨index, _, found, held, same, kept, notReplaced⟩
        · rintro ⟨other, account, there, held', same, saved, lacks⟩
          rw [found, Option.some_inj] at there
          rw [← there, held, Option.some_inj] at held'
          rw [← held'] at same
          rw [UserBase.withPassword_same held same, saved] at done replaced
          have never := mt replaced.mp lacks
          refine ⟨?_, fun _ => ?_⟩
          · rw [done]
            exact iff_of_false failed never
          · rw [done]
            exact ⟨failed, rfl⟩
  · have refused : s.sysPasswd w user newPass = (-1, s) :=
      UserBase.sysPasswd_refused newPass may
    have never : ¬s.Replaced w user newPass := fun ⟨_, _, allowed, _⟩ => may allowed
    refine iff_of_true ⟨?_, fun _ => ?_⟩ (Or.inl may)
    · rw [refused]
      exact iff_of_false failed never
    · rw [refused]
      exact ⟨failed, rfl⟩

def rootAlone : UserBase where
  accounts := ⟨[⟨literal "root", 0, 0, literal "/root", literal "/bin/sh", literal "root", []⟩],
    some 0⟩
  passwd := none
  shadow := none

/-- Root empties the own password, and the call reports a failure. -/
theorem sysPasswd_reports_failure :
    ¬rootAlone.Reports FileWrites.whole ⟨literal "root", by decide +kernel⟩
      ⟨[], List.not_mem_nil⟩ := by
  intro reports
  have found : rootAlone.accounts.usersFind (literal "root") = some 0 := by decide +kernel
  have may : rootAlone.MayChange ⟨literal "root", by decide +kernel⟩ :=
    ⟨_, rfl, Or.inl rfl⟩
  have replaced : rootAlone.Replaced FileWrites.whole ⟨literal "root", by decide +kernel⟩
      ⟨[], List.not_mem_nil⟩ := by
    rw [UserBase.sysPasswd_replaced_iff may found rfl]
    decide +kernel
  have zero := reports.success.mpr replaced
  rw [UserBase.sysPasswd_found _ may found] at zero
  exact absurd (show (-1 : Int) = 0 from zero) (by decide)

end Trinux
