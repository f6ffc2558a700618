import Trinux.Auth.RoundTrip

namespace Trinux

/-!
# The password that was set last

The digest of a password has sixty-four digits, and the field for it has room for thirty-one.  What
is stored is therefore never taken for a digest: it is the password that is accepted.
-/

namespace UserBase

def account (s : UserBase) (name : List UInt8) : Option User :=
  s.accounts.users.find? fun user => user.name == name

def accepts (s : UserBase) (name password : CString) : Bool :=
  (s.accounts.usersCheckPassword sha256Hex name.1 password.1).1

/-- A state with the password that was set last for a name, after a call that succeeds in setting
one. -/
def recordCall (name : CString) (s : UserBase × Option CString) (c : UserCall) :
    UserBase × Option CString :=
  (s.1.call c,
    match c with
    | .add other password uid gid home =>
        if other = name ∧ (s.1.usersAdd other password uid gid home).1 = true then some password
        else s.2
    | .setPassword other password =>
        if other = name ∧ (s.1.usersSetPassword other password).1 = 0 then some password else s.2
    | .save => s.2
    | .load => s.2)

def lastPassword (name : CString) (s : UserBase) (calls : List UserCall) : Option CString :=
  (Machine.after (recordCall name) (s, none) calls).2

def OnlyAccepts (s : UserBase) (name password : CString) : Prop :=
  ∀ q : CString, s.accepts name q = true ↔ q = password

def LoadsBack : UserBase → List UserCall → Prop :=
  Machine.Always call fun s c => c = .load → Storable s.accounts.users

/-! ## What is accepted -/

theorem account_of_missing {s : UserBase} {name : List UInt8}
    (missing : s.accounts.usersFind name = none) : s.account name = none := by
  refine List.find?_eq_none.mpr fun user member => ?_
  rw [List.findIdx?_eq_none_iff.mp missing user member]
  decide

theorem account_of_found {s : UserBase} {name : List UInt8} {index : Nat}
    (found : s.accounts.usersFind name = some index) :
    ∃ user, s.account name = some user ∧ s.accounts.users[index]? = some user := by
  rcases List.findIdx?_eq_some_iff_getElem.mp found with ⟨inside, own, before⟩
  refine ⟨s.accounts.users[index], ?_, List.getElem?_eq_getElem inside⟩
  refine List.find?_eq_some_iff_getElem.mpr ⟨own, index, inside, rfl, fun j early => ?_⟩
  rw [Bool.not_eq_true']
  exact Bool.eq_false_of_not_eq_true (before j early)

theorem accepts_eq (s : UserBase) (name password : CString) :
    s.accepts name password =
      match s.account name.1 with
      | none => false
      | some user =>
          if user.password = [] then true
          else Users.sha256Verify sha256Hex password.1 user.password := by
  rw [accepts, Users.usersCheckPassword]
  cases found : s.accounts.usersFind name.1 with
  | none => rw [account_of_missing found]
  | some index =>
      rcases account_of_found found with ⟨user, own, there⟩
      rw [own]
      dsimp only
      rw [there]
      dsimp only
      split
      · rfl
      · rfl

/-! ## What is stored -/

/-- An account is added at the end, if there is none of the name. -/
theorem usersAdd_spec {s accounts : Users} {name password home : List UInt8} {uid gid : UInt32}
    (added : s.usersAdd sha256Hex name password uid gid home = some accounts) :
    s.usersFind name = none ∧ ∃ new : User, accounts.users = s.users ++ [new] ∧
      new.name = userField userNameMax name ∧
      new.password = Users.storedPassword sha256Hex password := by
  rw [Users.usersAdd] at added
  split at added
  · cases added
  · rename_i room
    rw [not_or, not_or, Bool.not_eq_true, Option.isSome_eq_false_iff,
      Option.isNone_iff_eq_none] at room
    cases added
    exact ⟨room.2.1, _, rfl, rfl, rfl⟩

/-- Changing the first account of a name changes what is found for this name only. -/
theorem find?_modify (users : List User) (index : Nat) (owner name password : List UInt8)
    (found : (users.findIdx? fun user => user.name == owner) = some index) :
    ((users.modify index fun user => { user with password := password }).find?
        fun user => user.name == name) =
      (users.find? fun user => user.name == name).map fun user =>
        if owner = name then { user with password := password } else user := by
  induction users generalizing index with
  | nil => cases found
  | cons user rest known =>
      rw [List.findIdx?_cons] at found
      by_cases own : (user.name == owner) = true
      · rw [if_pos own] at found
        cases found
        rw [List.modify_zero_cons]
        by_cases named : (user.name == name) = true
        · rw [List.find?_cons_of_pos (by exact named), List.find?_cons_of_pos (by exact named),
            Option.map_some, if_pos ((eq_of_beq own).symm.trans (eq_of_beq named))]
        · have differ : owner ≠ name := fun same => named (same ▸ own)
          rw [List.find?_cons_of_neg (by exact named), List.find?_cons_of_neg (by exact named)]
          simp only [if_neg differ, Option.map_id']
      · rw [if_neg own] at found
        rcases Option.map_eq_some_iff.mp found with ⟨before, there, rfl⟩
        rw [List.modify_succ_cons]
        by_cases named : (user.name == name) = true
        · have differ : owner ≠ name := fun same => own (same ▸ named)
          rw [List.find?_cons_of_pos (by exact named), List.find?_cons_of_pos (by exact named),
            Option.map_some, if_neg differ]
        · rw [List.find?_cons_of_neg (by exact named), List.find?_cons_of_neg (by exact named)]
          exact known before there

/-- The files are those of the accounts, and what is stored for the name is stored for the password
that was set last, if one was set. -/
def Recorded (name : CString) (s : UserBase × Option CString) : Prop :=
  s.1.Fits ∧ ∀ password, s.2 = some password →
    s.1.passwd = some (passwdText s.1.accounts.users) ∧
    s.1.shadow = some (shadowText s.1.accounts.users) ∧
    (name.1.length ≤ 31 → ∃ user, s.1.account name.1 = some user ∧
      user.password = Users.storedPassword sha256Hex password.1)

theorem recorded_load (name : CString) {s : UserBase} {last : Option CString}
    (holds : Recorded name (s, last)) (storable : Storable s.accounts.users) :
    Recorded name (recordCall name (s, last) .load) := by
  refine ⟨call_fits s .load holds.1, ?_⟩
  intro password set
  rcases holds.2 password set with ⟨passwd, shadow, stored⟩
  have same : s.usersLoad.accounts.users = s.accounts.users := by
    change loadUsers s.passwd s.shadow = s.accounts.users
    rw [passwd, shadow]
    exact (loadUsers_saved_iff holds.1.1 holds.1.2).mpr storable
  change s.passwd = some (passwdText s.usersLoad.accounts.users) ∧
    s.shadow = some (shadowText s.usersLoad.accounts.users) ∧ (_ → ∃ user,
      (s.usersLoad.accounts.users.find? _) = some user ∧ _)
  rw [same]
  exact ⟨passwd, shadow, stored⟩

theorem recorded_add (name other password home : CString) (uid gid : UInt32) {s : UserBase}
    {last : Option CString} (holds : Recorded name (s, last)) :
    Recorded name (recordCall name (s, last) (.add other password uid gid home)) := by
  refine ⟨call_fits s _ holds.1, ?_⟩
  intro wanted set
  dsimp only [recordCall, call] at set ⊢
  cases added : s.accounts.usersAdd sha256Hex other.1 password.1 uid gid home.1 with
  | none =>
      have result : s.usersAdd other password uid gid home = (false, s) := by
        rw [usersAdd, added]
      rw [result] at set ⊢
      rw [if_neg fun both => by cases both.2] at set
      exact holds.2 wanted set
  | some accounts =>
      have result : s.usersAdd other password uid gid home =
          (true, { s with accounts := accounts }.usersSave) := by
        rw [usersAdd, added]
      rw [result] at set ⊢
      rcases usersAdd_spec added with ⟨nobody, new, users, named', stored'⟩
      refine ⟨rfl, rfl, fun short => ?_⟩
      change ∃ user, (accounts.users.find? fun user => user.name == name.1) = some user ∧
        user.password = Users.storedPassword sha256Hex wanted.1
      rw [users, List.find?_append]
      by_cases named : other = name
      · rw [if_pos ⟨named, rfl⟩] at set
        cases set
        have missing := account_of_missing nobody
        rw [account, named] at missing
        rw [missing, Option.none_or]
        refine ⟨new, List.find?_cons_of_pos ?_, stored'⟩
        rw [named', named, userField_of_fits short]
        exact beq_self_eq_true _
      · rw [if_neg fun both => named both.1] at set
        rcases (holds.2 wanted set).2.2 short with ⟨user, found, stored⟩
        refine ⟨user, ?_, stored⟩
        rw [account] at found
        rw [found, Option.some_or]

theorem recorded_setPassword (name other password : CString) {s : UserBase}
    {last : Option CString} (holds : Recorded name (s, last)) :
    Recorded name (recordCall name (s, last) (.setPassword other password)) := by
  refine ⟨call_fits s _ holds.1, ?_⟩
  intro wanted set
  dsimp only [recordCall, call] at set ⊢
  cases found : s.accounts.usersFind other.1 with
  | none =>
      have result : s.usersSetPassword other password = (-1, s) := by
        rw [usersSetPassword, Users.usersSetPassword, found]
        rfl
      rw [result] at set ⊢
      have failed : ¬(-1 : Int) = 0 := by decide
      rw [if_neg fun both => failed both.2] at set
      exact holds.2 wanted set
  | some index =>
      have result : s.usersSetPassword other password =
          (0, (⟨s.accounts.setPassword index (Users.storedPassword sha256Hex password.1),
            s.passwd, s.shadow⟩ : UserBase).usersSave) := by
        rw [usersSetPassword, Users.usersSetPassword, found]
        rfl
      rw [result] at set ⊢
      refine ⟨rfl, rfl, fun short => ?_⟩
      have changed := find?_modify s.accounts.users index other.1 name.1
        (Users.storedPassword sha256Hex password.1) found
      change ∃ user, (s.accounts.users.modify index _).find?
        (fun user : User => user.name == name.1) = some user ∧
          user.password = Users.storedPassword sha256Hex wanted.1
      rw [changed]
      by_cases named : other = name
      · rw [if_pos ⟨named, rfl⟩] at set
        cases set
        rcases account_of_found found with ⟨user, own, -⟩
        rw [account, named] at own
        rw [own, Option.map_some, if_pos (congrArg Subtype.val named)]
        exact ⟨_, rfl, rfl⟩
      · rw [if_neg fun both => named both.1] at set
        rcases (holds.2 wanted set).2.2 short with ⟨user, own, stored⟩
        rw [account] at own
        rw [own, Option.map_some, if_neg fun same => named (Subtype.ext same)]
        exact ⟨user, rfl, stored⟩

/-- Every call keeps the record, a load where the accounts can be read back. -/
theorem recorded_call (name : CString) (s : UserBase × Option CString) (c : UserCall)
    (holds : Recorded name s) (storable : c = .load → Storable s.1.accounts.users) :
    Recorded name (recordCall name s c) := by
  cases c with
  | save =>
      exact ⟨call_fits s.1 .save holds.1,
        fun password set => ⟨rfl, rfl, (holds.2 password set).2.2⟩⟩
  | load => exact recorded_load name holds (storable rfl)
  | add other password uid gid home => exact recorded_add name other password home uid gid holds
  | setPassword other password => exact recorded_setPassword name other password holds

/-! ## The password that is accepted -/

theorem recordCall_fst (name : CString) (s : UserBase) (last : Option CString)
    (calls : List UserCall) :
    (Machine.after (recordCall name) (s, last) calls).1 = Machine.after call s calls := by
  induction calls generalizing s last with
  | nil => rfl
  | cons c rest known => exact known _ _

theorem always_recordCall (name : CString) {s : UserBase} (last : Option CString)
    {calls : List UserCall} (loads : LoadsBack s calls) :
    Machine.Always (recordCall name) (fun s c => c = .load → Storable s.1.accounts.users) (s, last)
      calls := by
  induction calls generalizing s last with
  | nil => trivial
  | cons c rest known => exact ⟨loads.1, known _ loads.2⟩

theorem account_of_long {s : UserBase} (holds : s.Fits) {name : CString} (long : 31 < name.1.length) :
    s.account name.1 = none := by
  refine List.find?_eq_none.mpr fun user member => ?_
  intro same
  have short := (holds.2 user member).name
  rw [eq_of_beq same] at short
  omega

/-- The text that is stored for a password is accepted in its place. -/
theorem accepts_stored {s : UserBase} {name password q : CString} {user : User}
    (own : s.account name.1 = some user)
    (stored : user.password = Users.storedPassword sha256Hex password.1)
    (nonempty : password.1 ≠ []) :
    s.accepts name q = true ↔ q.1 = (sha256Hex password.1).take 31 := by
  have digits := sha256Hex_length password.1
  have text : user.password = (sha256Hex password.1).take 31 := by
    rw [stored, Users.storedPassword, if_neg nonempty]
    rfl
  have length : user.password.length = 31 := by
    rw [text, List.length_take, digits]
    rfl
  have filled : user.password ≠ [] := by
    intro empty
    rw [empty] at length
    cases length
  rw [accepts_eq, own]
  dsimp only
  rw [if_neg filled, Users.sha256Verify, if_pos (by rw [length]; decide), text]
  exact beq_iff_eq

/-- In every history, the password that was set last for a name is accepted and no other, exactly if
the name fits its field and the password is the text that is stored for it. -/
theorem onlyAccepts_iff (passwd shadow : Option (List UInt8)) (calls : List UserCall)
    (name password : CString) (loads : LoadsBack (boot passwd shadow) calls)
    (last : lastPassword name (boot passwd shadow) calls = some password) :
    (Machine.after call (boot passwd shadow) calls).OnlyAccepts name password ↔
      name.1.length ≤ 31 ∧ password.1 = (sha256Hex password.1).take 31 := by
  have start : Recorded name (boot passwd shadow, none) :=
    ⟨⟨Nat.zero_le _, fun user member => absurd member List.not_mem_nil⟩,
      fun password set => by cases set⟩
  have recorded := (always_recordCall name none loads).after
    (fun s c holds storable => recorded_call name s c holds storable) start
  rw [Recorded, recordCall_fst] at recorded
  rcases recorded with ⟨fits, stored⟩
  have digits := sha256Hex_length password.1
  by_cases long : 31 < name.1.length
  · refine iff_of_false (fun only => ?_) fun both => by omega
    have right := (only password).mpr rfl
    rw [accepts_eq, account_of_long fits long] at right
    cases right
  · rcases (stored password last).2.2 (Nat.le_of_not_lt long) with ⟨user, own, text⟩
    by_cases empty : password.1 = []
    · refine iff_of_false (fun only => ?_) fun both => ?_
      · have all : ∀ q, (Machine.after call (boot passwd shadow) calls).accepts name q = true := by
          intro q
          rw [accepts_eq, own]
          dsimp only
          rw [text, Users.storedPassword, if_pos empty, if_pos rfl]
        have other := (only ⟨[1], by decide⟩).mp (all _)
        rw [← other] at empty
        cases empty
      · have length := congrArg List.length both.2
        rw [List.length_take, digits, empty] at length
        exact absurd length (by decide)
    · constructor
      · intro only
        exact ⟨Nat.le_of_not_lt long, (accepts_stored own text empty).mp ((only password).mpr rfl)⟩
      · rintro ⟨-, same⟩ q
        rw [accepts_stored own text empty, ← same]
        exact ⟨Subtype.ext, congrArg Subtype.val⟩

theorem storable_singleton {user : User} (fits : user.Fits) (clean : user.Clean) :
    Storable [user] := by
  refine ⟨?_, Or.inl ?_, ?_, ?_⟩
  · intro other member
    rw [List.mem_singleton.mp member]
    exact clean
  · have short := User.passwdLine_length fits
    rw [User.passwdLine, List.length_append, List.length_singleton] at short
    rw [length_passwdLines_cons, show (passwdLines []).length = 0 from rfl]
    omega
  · intro a first b second _
    rw [List.mem_singleton.mp first, List.mem_singleton.mp second]
  · intro before other rest split _
    have name := fits.name
    have password := fits.password
    cases before with
    | nil =>
        cases split
        exact Or.inr (by rw [show (shadowLines []).length = 0 from rfl]; omega)
    | cons first before =>
        have none := (List.cons.inj split).2
        cases before with
        | nil => cases none
        | cons second before => cases none

def ann : CString := ⟨literal "ann", by decide +kernel⟩

theorem pw_terminated : (0 : UInt8) ∉ literal "pw" := by decide +kernel

def pw : CString := ⟨literal "pw", pw_terminated⟩

def annAdded : UserBase := (boot none none).call (.add ann pw 1000 1000 ann)

theorem annAdded_storable : Storable annAdded.accounts.users := by
  have holds : annAdded.Fits :=
    call_fits _ _ ⟨Nat.zero_le _, fun user member => absurd member List.not_mem_nil⟩
  have one : annAdded.accounts.users = [{
      name := literal "ann"
      uid := 1000
      gid := 1000
      home := literal "ann"
      shell := literal "/bin/sh"
      gecos := literal "ann"
      password := Users.storedPassword sha256Hex (literal "pw") }] := rfl
  have fits := holds.2
  rw [one] at fits ⊢
  refine storable_singleton (fits _ List.mem_cons_self) ⟨?_, ?_, ?_, ?_, ?_⟩
  all_goals
    decide +kernel

theorem onlyAccepts_iff_ann :
    (Machine.after call (boot none none) [.add ann pw 1000 1000 ann, .load]).OnlyAccepts ann pw ↔
      ann.1.length ≤ 31 ∧ pw.1 = (sha256Hex pw.1).take 31 :=
  onlyAccepts_iff none none [.add ann pw 1000 1000 ann, .load] ann pw
    ⟨fun impossible => (by cases impossible), fun _ => annAdded_storable, trivial⟩
    (by decide +kernel)

theorem ann_refused :
    ¬(Machine.after call (boot none none) [.add ann pw 1000 1000 ann]).OnlyAccepts ann pw := by
  intro only
  have refused : (Machine.after call (boot none none) [.add ann pw 1000 1000 ann]).accepts ann pw =
      false := by decide +kernel
  rw [(only pw).mpr rfl] at refused
  cases refused

end UserBase

end Trinux
