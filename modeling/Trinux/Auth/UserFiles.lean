import Trinux.Auth.Sha256
import Trinux.Lib.Fields
import Trinux.Lib.Machine

namespace Trinux

/-!
# The files of accounts

The accounts are kept in `/etc/passwd` and their passwords in `/etc/shadow`, one line for each
account.  A file is the text that it holds, or none if there is no such file; writing it succeeds.
The strings of a request have no zero byte, as strings of C have none.
-/

open Fields

abbrev CString := { text : List UInt8 // 0 ∉ text }

def colon : UInt8 := 58

def lineFeed : UInt8 := 10

/-! ## Numbers -/

def isspace (c : UInt8) : Bool := c == 32 || (9 ≤ c && c ≤ 13)

def isdigit (c : UInt8) : Bool := 48 ≤ c && c ≤ 57

def atoiDigits (result : UInt32) : List UInt8 → UInt32
  | [] => result
  | c :: rest => if isdigit c then atoiDigits (result * 10 + (c - 48).toUInt32) rest else result

def atoi (text : List UInt8) : UInt32 :=
  match text.dropWhile isspace with
  | [] => 0
  | c :: rest =>
      if c = 45 then 0 - atoiDigits 0 rest
      else if c = 43 then atoiDigits 0 rest
      else atoiDigits 0 (c :: rest)

def printDigits : Nat → Nat → List UInt8 → List UInt8
  | 0, _, digits => digits
  | fuel + 1, v, digits =>
      if v = 0 then digits else printDigits fuel (v / 10) (UInt8.ofNat (48 + v % 10) :: digits)

def printUnsigned (v : UInt32) : List UInt8 := if v = 0 then [48] else printDigits 10 v.toNat []

/-! ## Reading -/

def readFile (cap : Nat) (text : List UInt8) : List UInt8 := (text.take (cap - 1)).takeWhile (· ≠ 0)

def shadowLine (name line : List UInt8) : Option (List UInt8) :=
  match splitFields colon 1 line with
  | [owner, password] => if owner = name then some (userField userPassMax password) else none
  | _ => none

def shadowGet (shadow : Option (List UInt8)) (name : List UInt8) : List UInt8 :=
  match shadow with
  | none => []
  | some text =>
      ((walkLines lineFeed 127 [] (readFile 1024 text)).findSome? (shadowLine name)).getD []

def passwdFields (line : List UInt8) : Option User :=
  if line = [] ∨ line.head? = some 35 then none
  else
    match splitFields colon 6 line with
    | name :: _ :: uid :: gid :: gecos :: home :: shell => some {
        name := userField userNameMax name
        uid := atoi uid
        gid := atoi gid
        home := userField userHomeMax home
        shell := userField userHomeMax (shell.headD (literal "/bin/sh"))
        gecos := userField userNameMax gecos
        password := [] }
    | _ => none

def withShadow (shadow : Option (List UInt8)) (user : User) : User :=
  { user with password := shadowGet shadow user.name }

def loadUsers (passwd shadow : Option (List UInt8)) : List User :=
  match passwd with
  | none => []
  | some text =>
      (((walkLines lineFeed 255 [] (readFile 2048 text)).filterMap passwdFields).take maxUsers).map
        (withShadow shadow)

/-! ## Writing -/

def strncatAll (cap : Nat) (texts : List (List UInt8)) : List UInt8 :=
  texts.foldl (fun buffer text => buffer ++ text.take (cap - buffer.length - 1)) []

def User.passwdFields (user : User) : List (List UInt8) :=
  [user.name, literal "x", printUnsigned user.uid, printUnsigned user.gid, user.gecos, user.home,
    user.shell]

def User.passwdLine (user : User) : List UInt8 := joinFields colon user.passwdFields ++ [lineFeed]

def User.shadowLine (user : User) : List UInt8 :=
  joinFields colon [user.name, user.password] ++ [lineFeed]

def passwdText (users : List User) : List UInt8 :=
  strncatAll 2048 (users.map fun user => user.passwdLine.take 255)

def shadowText (users : List User) : List UInt8 :=
  strncatAll 2048 (users.map fun user => user.shadowLine.take 127)

/-! ## The accounts and their files -/

structure UserBase where
  accounts : Users
  passwd : Option (List UInt8)
  shadow : Option (List UInt8)

namespace UserBase

def usersSave (s : UserBase) : UserBase :=
  { s with
    passwd := some (passwdText s.accounts.users)
    shadow := some (shadowText s.accounts.users) }

def usersLoad (s : UserBase) : UserBase :=
  { s with accounts := { s.accounts with users := loadUsers s.passwd s.shadow } }

def usersAdd (s : UserBase) (name password : CString) (uid gid : UInt32) (home : CString) :
    Bool × UserBase :=
  match s.accounts.usersAdd sha256Hex name.1 password.1 uid gid home.1 with
  | none => (false, s)
  | some accounts => (true, { s with accounts := accounts }.usersSave)

def usersSetPassword (s : UserBase) (name password : CString) : Int × UserBase :=
  let (result, accounts) := s.accounts.usersSetPassword sha256Hex name.1 password.1
  (result, if result = 0 then { s with accounts := accounts }.usersSave else s)

end UserBase

inductive UserCall where
  | add (name password : CString) (uid gid : UInt32) (home : CString)
  | setPassword (name password : CString)
  | save
  | load

def UserBase.call (s : UserBase) : UserCall → UserBase
  | .add name password uid gid home => (s.usersAdd name password uid gid home).2
  | .setPassword name password => (s.usersSetPassword name password).2
  | .save => s.usersSave
  | .load => s.usersLoad

def UserBase.boot (passwd shadow : Option (List UInt8)) : UserBase := ⟨⟨[], none⟩, passwd, shadow⟩

end Trinux
