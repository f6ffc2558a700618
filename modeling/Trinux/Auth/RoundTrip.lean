import Trinux.Auth.UserFiles

namespace Trinux

/-!
# Reading back what was written

When the accounts are saved and loaded again, they are what they were exactly if no field has a
separator in it that ends it early, and the texts fit into the buffers: that of `/etc/shadow` is read
into a buffer of 1024 bytes, half as large as the one it is written from.
-/

open Fields

/-! ## Numbers -/

theorem atoiDigits_printDigits (fuel v : Nat) (digits : List UInt8) (small : v < 10 ^ fuel) :
    atoiDigits 0 (printDigits fuel v digits) = atoiDigits (UInt32.ofNat v) digits := by
  induction fuel generalizing v digits with
  | zero =>
      rw [pow_zero, Nat.lt_one_iff] at small
      rw [small, printDigits]
      rfl
  | succ fuel known =>
      rw [printDigits]
      by_cases zero : v = 0
      · rw [if_pos zero, zero]
        rfl
      · rw [if_neg zero, known (v / 10) _ (Nat.div_lt_of_lt_mul (by rw [← pow_succ']; exact small))]
        have low : v % 10 < 10 := Nat.mod_lt _ (by decide)
        have digit : ∀ d < 10, isdigit (UInt8.ofNat (48 + d)) = true ∧
            (UInt8.ofNat (48 + d) - 48).toUInt32 = UInt32.ofNat d := by decide
        rw [atoiDigits, if_pos (digit _ low).1, (digit _ low).2]
        congr 1
        have parts := Nat.div_add_mod v 10
        calc UInt32.ofNat (v / 10) * 10 + UInt32.ofNat (v % 10)
            = UInt32.ofNat (v / 10 * 10 + v % 10) := by rw [UInt32.ofNat_add, UInt32.ofNat_mul]; rfl
          _ = UInt32.ofNat v := by rw [Nat.mul_comm, parts]

theorem printDigits_digits (fuel v : Nat) {digits : List UInt8}
    (known : ∀ c ∈ digits, isdigit c = true) : ∀ c ∈ printDigits fuel v digits, isdigit c = true := by
  induction fuel generalizing v digits with
  | zero => exact known
  | succ fuel rest =>
      rw [printDigits]
      split
      · exact known
      · refine rest (v / 10) ?_
        intro c member
        rcases List.mem_cons.mp member with rfl | old
        · have digit : ∀ d < 10, isdigit (UInt8.ofNat (48 + d)) = true := by decide
          exact digit _ (Nat.mod_lt _ (by decide))
        · exact known c old

theorem printDigits_length (fuel v : Nat) (digits : List UInt8) :
    digits.length ≤ (printDigits fuel v digits).length ∧
      (printDigits fuel v digits).length ≤ fuel + digits.length := by
  induction fuel generalizing v digits with
  | zero => exact ⟨Nat.le_refl _, by rw [printDigits, Nat.zero_add]⟩
  | succ fuel known =>
      rw [printDigits]
      split
      · exact ⟨Nat.le_refl _, Nat.le_add_left _ _⟩
      · have longer := known (v / 10) (UInt8.ofNat (48 + v % 10) :: digits)
        rw [List.length_cons] at longer
        omega

theorem printUnsigned_digits (v : UInt32) : ∀ c ∈ printUnsigned v, isdigit c = true := by
  rw [printUnsigned]
  split
  · intro c member
    rw [List.mem_singleton.mp member]
    rfl
  · exact printDigits_digits _ _ fun c impossible => absurd impossible List.not_mem_nil

theorem printUnsigned_length (v : UInt32) :
    1 ≤ (printUnsigned v).length ∧ (printUnsigned v).length ≤ 10 := by
  rw [printUnsigned]
  split
  · decide
  · rename_i nonzero
    refine ⟨?_, (printDigits_length 10 v.toNat []).2⟩
    have positive : v.toNat ≠ 0 := fun zero => nonzero (UInt32.toNat_inj.mp zero)
    rw [printDigits, if_neg positive]
    exact (printDigits_length 9 _ [_]).1

theorem atoi_printUnsigned (v : UInt32) : atoi (printUnsigned v) = v := by
  have digits := printUnsigned_digits v
  have value : atoiDigits 0 (printUnsigned v) = v := by
    rw [printUnsigned]
    split
    · rename_i zero
      rw [zero]
      rfl
    · rw [atoiDigits_printDigits _ _ _ (v.toNat_lt.trans (by decide)), atoiDigits,
        UInt32.ofNat_toNat]
  cases printed : printUnsigned v with
  | nil =>
      rw [printed] at value
      rw [← value]
      rfl
  | cons c rest =>
      rw [printed] at digits value
      have digit := digits c List.mem_cons_self
      have notSpace : ∀ c : UInt8, isdigit c = true → isspace c = false ∧ c ≠ 45 ∧ c ≠ 43 := by
        decide +kernel
      rcases notSpace c digit with ⟨solid, minus, plus⟩
      rw [atoi, List.dropWhile_cons_of_neg (by rw [solid]; decide)]
      dsimp only
      rw [if_neg minus, if_neg plus]
      exact value

theorem printUnsigned_notMem (v : UInt32) {c : UInt8} (other : isdigit c = false) :
    c ∉ printUnsigned v := by
  intro member
  rw [printUnsigned_digits v c member] at other
  cases other

/-! ## Buffers -/

theorem strncatAll_eq (cap : Nat) (texts : List (List UInt8)) :
    strncatAll cap texts = texts.flatten.take (cap - 1) := by
  have general : ∀ buffer : List UInt8,
      texts.foldl (fun buffer text => buffer ++ text.take (cap - buffer.length - 1)) buffer =
        buffer ++ texts.flatten.take (cap - 1 - buffer.length) := by
    induction texts with
    | nil =>
        intro buffer
        rw [List.flatten_nil, List.take_nil, List.append_nil]
        rfl
    | cons text rest known =>
        intro buffer
        have room : cap - buffer.length - 1 = cap - 1 - buffer.length := by omega
        have left : cap - 1 - (buffer ++ text.take (cap - 1 - buffer.length)).length =
            cap - 1 - buffer.length - text.length := by
          rw [List.length_append, List.length_take]
          omega
        rw [List.foldl_cons, known, List.flatten_cons, room, left, List.take_append,
          List.append_assoc]
  exact general []

/-! ## Accounts that fit their fields -/

/-- The strings of an account are as long as its fields allow, and a password is from one line. -/
structure User.Fits (user : User) : Prop where
  name : user.name.length ≤ 31
  gecos : user.gecos.length ≤ 31
  home : user.home.length ≤ 63
  shell : user.shell.length ≤ 63
  password : user.password.length ≤ 31
  strings : ∀ text ∈ [user.name, user.gecos, user.home, user.shell, user.password], 0 ∉ text
  oneLine : lineFeed ∉ user.password

structure User.Clean (user : User) : Prop where
  comment : user.name.head? ≠ some 35
  name : colon ∉ user.name ∧ lineFeed ∉ user.name
  gecos : colon ∉ user.gecos ∧ lineFeed ∉ user.gecos
  home : colon ∉ user.home ∧ lineFeed ∉ user.home
  shell : lineFeed ∉ user.shell

theorem User.Fits.withPassword {user : User} (fits : user.Fits) {password : List UInt8}
    (good : password.length ≤ 31 ∧ 0 ∉ password ∧ lineFeed ∉ password) :
    User.Fits { user with password := password } := by
  refine ⟨fits.name, fits.gecos, fits.home, fits.shell, good.1, ?_, good.2.2⟩
  intro string listed
  have strings := fits.strings string
  simp only [List.mem_cons, List.not_mem_nil, or_false] at listed strings
  rcases listed with same | same | same | same | same
  · exact strings (Or.inl same)
  · exact strings (Or.inr (Or.inl same))
  · exact strings (Or.inr (Or.inr (Or.inl same)))
  · exact strings (Or.inr (Or.inr (Or.inr (Or.inl same))))
  · rw [same]
    exact good.2.1

theorem userField_of_fits {size : Nat} {text : List UInt8} (fits : text.length ≤ size - 1) :
    userField size text = text := List.take_of_length_le fits

namespace User

variable {user : User}

def homeAt (user : User) : Nat :=
  user.name.length + 1 + 2 + ((printUnsigned user.uid).length + 1) +
    ((printUnsigned user.gid).length + 1) + (user.gecos.length + 1)

theorem passwdFields_length (user : User) :
    (joinFields colon user.passwdFields).length =
      user.homeAt + user.home.length + 1 + user.shell.length := by
  have last : (joinFields colon [user.shell]).length = user.shell.length := rfl
  have single : (literal "x").length = 1 := rfl
  rw [passwdFields, joinFields_length_cons, joinFields_length_cons, joinFields_length_cons,
    joinFields_length_cons, joinFields_length_cons, joinFields_length_cons, last, single, homeAt]
  omega

theorem passwdLine_length (fits : user.Fits) : user.passwdLine.length ≤ 217 := by
  have uid := (printUnsigned_length user.uid).2
  have gid := (printUnsigned_length user.gid).2
  have name := fits.name
  have gecos := fits.gecos
  have home := fits.home
  have shell := fits.shell
  rw [passwdLine, List.length_append, passwdFields_length, homeAt, List.length_singleton]
  omega

theorem homeAt_pos (user : User) : 8 ≤ user.homeAt := by
  have uid := (printUnsigned_length user.uid).1
  have gid := (printUnsigned_length user.gid).1
  rw [homeAt]
  omega

theorem mem_passwdFields {c : UInt8} (member : c ∈ joinFields colon user.passwdFields) :
    c = colon ∨ c = 120 ∨ isdigit c = true ∨
      ∃ text ∈ [user.name, user.gecos, user.home, user.shell], c ∈ text := by
  rw [passwdFields, joinFields, joinFields, joinFields, joinFields, joinFields, joinFields,
    joinFields] at member
  · simp only [List.mem_append, List.mem_cons] at member
    rcases member with name | same | x | same | uid | same | gid | same | gecos | same | home | same |
      shell
    · exact Or.inr (Or.inr (Or.inr ⟨user.name, List.mem_cons_self, name⟩))
    · exact Or.inl same
    · exact Or.inr (Or.inl (List.mem_singleton.mp x))
    · exact Or.inl same
    · exact Or.inr (Or.inr (Or.inl (printUnsigned_digits _ c uid)))
    · exact Or.inl same
    · exact Or.inr (Or.inr (Or.inl (printUnsigned_digits _ c gid)))
    · exact Or.inl same
    · exact Or.inr (Or.inr (Or.inr ⟨user.gecos, by simp, gecos⟩))
    · exact Or.inl same
    · exact Or.inr (Or.inr (Or.inr ⟨user.home, by simp, home⟩))
    · exact Or.inl same
    · exact Or.inr (Or.inr (Or.inr ⟨user.shell, by simp, shell⟩))
  all_goals
    intro impossible
    cases impossible

theorem lineFeed_notMem_passwdFields (clean : user.Clean) :
    lineFeed ∉ joinFields colon user.passwdFields := by
  intro member
  rcases mem_passwdFields member with same | same | digit | ⟨text, field, inside⟩
  · exact absurd same (by decide)
  · exact absurd same (by decide)
  · exact absurd digit (by decide)
  · rcases List.mem_cons.mp field with rfl | field
    · exact clean.name.2 inside
    rcases List.mem_cons.mp field with rfl | field
    · exact clean.gecos.2 inside
    rcases List.mem_cons.mp field with rfl | field
    · exact clean.home.2 inside
    · rw [List.mem_singleton.mp field] at inside
      exact clean.shell inside

theorem passwdFields_clean (clean : user.Clean) (i : Nat) (field : List UInt8)
    (found : user.passwdFields[i]? = some field) (early : i < 6) : colon ∉ field := by
  have number : ∀ v, colon ∉ printUnsigned v := fun v => printUnsigned_notMem v (by decide)
  match i, early with
  | 0, _ => cases found; exact clean.name.1
  | 1, _ => cases found; decide
  | 2, _ => cases found; exact number _
  | 3, _ => cases found; exact number _
  | 4, _ => cases found; exact clean.gecos.1
  | 5, _ => cases found; exact clean.home.1

theorem head?_passwdFields (clean : user.Clean) (room : Nat) :
    ((joinFields colon user.passwdFields).take room).head? ≠ some 35 := by
  cases room with
  | zero =>
      rw [List.take_zero]
      exact fun impossible => by cases impossible
  | succ room =>
      rw [List.head?_take, if_neg (Nat.succ_ne_zero room), passwdFields, joinFields]
      · rw [List.head?_append]
        cases start : user.name with
        | nil =>
            intro impossible
            cases impossible
        | cons c rest =>
            have other := clean.comment
            rw [start] at other
            exact other
      · intro impossible
        cases impossible

end User

/-- An account as it is read from the beginning of its line, but for its password. -/
theorem passwdFields_take {user : User} (fits : user.Fits) (clean : user.Clean) (room : Nat) :
    passwdFields ((joinFields colon user.passwdFields).take room) = some { user with password := [] } ↔
      (joinFields colon user.passwdFields).length ≤ room ∨
        (user.shell = literal "/bin/sh" ∧
          room + 8 = (joinFields colon user.passwdFields).length) := by
  have positive := user.homeAt_pos
  have x : (literal "x").length = 1 := rfl
  have length := user.passwdFields_length
  cases room with
  | zero =>
      rw [length]
      refine iff_of_false (fun impossible => ?_) ?_
      · rw [List.take_zero] at impossible
        cases impossible
      · rintro (all | ⟨shell, all⟩)
        · omega
        · have := congrArg List.length shell
          change user.shell.length = 7 at this
          omega
  | succ room =>
      have nonempty : (joinFields colon user.passwdFields).take (room + 1) ≠ [] := by
        intro empty
        have zero := congrArg List.length empty
        rw [List.length_take, length, List.length_nil] at zero
        omega
      rw [length]
      unfold passwdFields
      rw [if_neg (not_or.mpr ⟨nonempty, User.head?_passwdFields clean (room + 1)⟩),
        splitFields_take 6 _ user.passwdFields (Nat.le_refl _)
          (fun i field found early => User.passwdFields_clean clean i field found early)]
      have tooShort : room + 1 < user.homeAt → ¬(user.homeAt + user.home.length + 1 +
          user.shell.length ≤ room + 1 ∨ user.shell = literal "/bin/sh" ∧
            room + 1 + 8 = user.homeAt + user.home.length + 1 + user.shell.length) := by
        rintro short (all | ⟨shell, all⟩)
        · omega
        · have seven := congrArg List.length shell
          change user.shell.length = 7 at seven
          omega
      rw [User.passwdFields]
      have uid := (printUnsigned_length user.uid).1
      rw [User.homeAt] at tooShort ⊢
      generalize printed : printUnsigned user.uid = uidText at *
      generalize printed' : printUnsigned user.gid = gidText at *
      rw [takeFields]
      by_cases one : room + 1 ≤ user.name.length
      · rw [if_pos one]
        exact iff_of_false (fun impossible => by cases impossible) (tooShort (by omega))
      rw [if_neg one, takeFields, x]
      by_cases two : room + 1 - (user.name.length + 1) ≤ 1
      · rw [if_pos two]
        exact iff_of_false (fun impossible => by cases impossible) (tooShort (by omega))
      rw [if_neg two, takeFields]
      by_cases three : room + 1 - (user.name.length + 1) - (1 + 1) ≤ uidText.length
      · rw [if_pos three]
        exact iff_of_false (fun impossible => by cases impossible) (tooShort (by omega))
      rw [if_neg three, takeFields]
      by_cases four : room + 1 - (user.name.length + 1) - (1 + 1) - (uidText.length + 1) ≤
          gidText.length
      · rw [if_pos four]
        exact iff_of_false (fun impossible => by cases impossible) (tooShort (by omega))
      rw [if_neg four, takeFields]
      by_cases five : room + 1 - (user.name.length + 1) - (1 + 1) - (uidText.length + 1) -
          (gidText.length + 1) ≤ user.gecos.length
      · rw [if_pos five]
        exact iff_of_false (fun impossible => by cases impossible) (tooShort (by omega))
      rw [if_neg five, takeFields]
      generalize rest : room + 1 - (user.name.length + 1) - (1 + 1) - (uidText.length + 1) -
        (gidText.length + 1) - (user.gecos.length + 1) = left
      have same : atoi uidText = user.uid ∧ atoi gidText = user.gid := by
        rw [← printed, ← printed', atoi_printUnsigned, atoi_printUnsigned]
        exact ⟨rfl, rfl⟩
      have name : userField userNameMax user.name = user.name := userField_of_fits fits.name
      have gecos : userField userNameMax user.gecos = user.gecos := userField_of_fits fits.gecos
      by_cases six : left ≤ user.home.length
      · rw [if_pos six]
        dsimp only [List.headD]
        rw [Option.some.injEq, User.mk.injEq, name, gecos, same.1, same.2,
          userField_of_fits ((List.length_take_le' _ _).trans fits.home)]
        constructor
        · rintro ⟨-, -, -, home, shell, -⟩
          have homeLength := congrArg List.length home
          have shellLength := congrArg List.length shell
          rw [List.length_take] at homeLength
          change 7 = user.shell.length at shellLength
          exact Or.inr ⟨shell.symm, by omega⟩
        · rintro (all | ⟨shell, all⟩)
          · omega
          · have seven := congrArg List.length shell
            change user.shell.length = 7 at seven
            rw [List.take_of_length_le (by omega), shell]
            exact ⟨rfl, rfl, rfl, rfl, rfl, rfl, rfl⟩
      · rw [if_neg six, takeFields]
        dsimp only [List.headD]
        rw [Option.some.injEq, User.mk.injEq, name, gecos, same.1, same.2,
          userField_of_fits fits.home,
          userField_of_fits ((List.length_take_le' _ _).trans fits.shell)]
        constructor
        · rintro ⟨-, -, -, -, shell, -⟩
          have shellLength := congrArg List.length shell
          rw [List.length_take] at shellLength
          exact Or.inl (by omega)
        · rintro (all | ⟨shell, all⟩)
          · rw [List.take_of_length_le (by omega)]
            exact ⟨rfl, rfl, rfl, rfl, rfl, rfl, rfl⟩
          · have seven := congrArg List.length shell
            change user.shell.length = 7 at seven
            omega

/-! ## The text of `/etc/passwd` -/

def passwdLines (users : List User) : List UInt8 := (users.map User.passwdLine).flatten

/-- The accounts that are read from the beginning of such a text, but for their passwords. -/
def readLines (room : Nat) (users : List User) : List User :=
  (walkLines lineFeed 255 [] ((passwdLines users).take room)).filterMap passwdFields

/-- All lines are read back as they were if the text is whole but for its last line feed, or if what
is missing is the shell that accounts have that name none. -/
def ReadsBack (room : Nat) (users : List User) : Prop :=
  (passwdLines users).length ≤ room + 1 ∨
    ((passwdLines users).length = room + 9 ∧
      ∃ user, users.getLast? = some user ∧ user.shell = literal "/bin/sh")

theorem passwdLines_cons (user : User) (rest : List User) :
    passwdLines (user :: rest) =
      joinFields colon user.passwdFields ++ lineFeed :: passwdLines rest := by
  rw [passwdLines, List.map_cons, List.flatten_cons, User.passwdLine, List.append_assoc]
  rfl

theorem length_passwdLines_cons (user : User) (rest : List User) :
    (passwdLines (user :: rest)).length =
      (joinFields colon user.passwdFields).length + 1 + (passwdLines rest).length := by
  rw [passwdLines_cons, List.length_append, List.length_cons]
  omega

theorem readLines_whole {user : User} (rest : List User) {room : Nat} (fits : user.Fits)
    (clean : user.Clean) (whole : (joinFields colon user.passwdFields).length + 1 ≤ room) :
    readLines room (user :: rest) = { user with password := [] } ::
      readLines (room - ((joinFields colon user.passwdFields).length + 1)) rest := by
  have short := User.passwdLine_length fits
  rw [User.passwdLine, List.length_append, List.length_singleton] at short
  have text : (passwdLines (user :: rest)).take room =
      joinFields colon user.passwdFields ++ lineFeed ::
        (passwdLines rest).take (room - ((joinFields colon user.passwdFields).length + 1)) := by
    rw [passwdLines_cons, List.take_append, List.take_of_length_le (by omega),
      show room - (joinFields colon user.passwdFields).length =
        room - ((joinFields colon user.passwdFields).length + 1) + 1 from by omega,
      List.take_succ_cons]
  have all := (passwdFields_take fits clean (joinFields colon user.passwdFields).length).mpr
    (Or.inl (Nat.le_refl _))
  rw [List.take_of_length_le (Nat.le_refl _)] at all
  rw [readLines, text, walkLines_line _ _ _ (User.lineFeed_notMem_passwdFields clean)
    (by rw [List.length_nil]; omega), List.nil_append, List.filterMap_cons_some all]
  rfl

theorem readLines_part {user : User} (rest : List User) {room : Nat} (fits : user.Fits)
    (clean : user.Clean) (part : room ≤ (joinFields colon user.passwdFields).length) :
    readLines room (user :: rest) =
      (passwdFields ((joinFields colon user.passwdFields).take room)).toList := by
  have short := User.passwdLine_length fits
  rw [User.passwdLine, List.length_append, List.length_singleton] at short
  have text : (passwdLines (user :: rest)).take room =
      (joinFields colon user.passwdFields).take room := by
    rw [passwdLines_cons, List.take_append_of_le_length part]
  rw [readLines, text, walkLines_last _ _
    (fun member => User.lineFeed_notMem_passwdFields clean (List.mem_of_mem_take member))
    (by rw [List.length_nil, List.length_take]; omega), List.nil_append]
  by_cases empty : (joinFields colon user.passwdFields).take room = []
  · rw [if_pos empty, empty]
    rfl
  · rw [if_neg empty]
    cases found : passwdFields ((joinFields colon user.passwdFields).take room) with
    | none => rw [List.filterMap_cons_none found]; rfl
    | some user => rw [List.filterMap_cons_some found]; rfl

/-- The accounts are read back exactly if the text is long enough. -/
theorem readLines_iff {users : List User} (room : Nat)
    (good : ∀ user ∈ users, user.Fits ∧ user.Clean) :
    readLines room users = users.map (fun user => { user with password := [] }) ↔
      ReadsBack room users := by
  induction users generalizing room with
  | nil =>
      refine iff_of_true ?_ (Or.inl (Nat.zero_le _))
      rw [readLines, show passwdLines [] = [] from rfl, List.take_nil]
      rfl
  | cons user rest known =>
      have fits := (good user List.mem_cons_self).1
      have clean := (good user List.mem_cons_self).2
      have length := length_passwdLines_cons user rest
      have own := user.passwdFields_length
      have positive := user.homeAt_pos
      by_cases whole : (joinFields colon user.passwdFields).length + 1 ≤ room
      · rw [readLines_whole rest fits clean whole, List.map_cons, List.cons.injEq,
          and_iff_right rfl, known _ fun other member => good other (List.mem_cons_of_mem _ member),
          ReadsBack, ReadsBack, length]
        refine or_congr (by omega) ?_
        cases rest with
        | nil =>
            have none : (passwdLines []).length = 0 := rfl
            refine iff_of_false (fun impossible => ?_) fun impossible => ?_
            · rw [none] at impossible
              omega
            · rw [none] at impossible
              omega
        | cons next rest =>
            rw [List.getLast?_cons_cons]
            refine and_congr (by omega) Iff.rfl
      · rw [readLines_part rest fits clean (by omega)]
        cases rest with
        | nil =>
            have none : (passwdLines []).length = 0 := rfl
            have option : ∀ (found : Option User) (wanted : User),
                found.toList = [wanted] ↔ found = some wanted := by
              intro found wanted
              cases found with
              | none => exact iff_of_false (fun same => by cases same) fun same => by cases same
              | some found =>
                  exact ⟨fun same => (by cases same; rfl), fun same => (by cases same; rfl)⟩
            rw [List.map_cons, List.map_nil, option, passwdFields_take fits clean, ReadsBack, length,
              none]
            refine or_congr (by omega) ?_
            constructor
            · rintro ⟨shell, cut⟩
              exact ⟨by omega, user, rfl, shell⟩
            · rintro ⟨cut, last, same, shell⟩
              cases same
              exact ⟨shell, by omega⟩
        | cons next rest =>
            have later := length_passwdLines_cons next rest
            have nextOwn := next.passwdFields_length
            have nextPositive := next.homeAt_pos
            refine iff_of_false (fun impossible => ?_) ?_
            · have few := congrArg List.length impossible
              rw [List.length_map, List.length_cons, List.length_cons] at few
              have atMost : ∀ found : Option User, found.toList.length ≤ 1 := by
                intro found
                cases found with
                | none => exact Nat.zero_le _
                | some found => exact Nat.le_refl _
              have := atMost (passwdFields ((joinFields colon user.passwdFields).take room))
              omega
            · rw [ReadsBack, length]
              omega

/-! ## The text of `/etc/shadow` -/

def shadowLines (users : List User) : List UInt8 := (users.map User.shadowLine).flatten

def lookUp (name : List UInt8) (room : Nat) (users : List User) : List UInt8 :=
  ((walkLines lineFeed 127 [] ((shadowLines users).take room)).findSome? (shadowLine name)).getD []

theorem shadowLines_cons (user : User) (rest : List User) :
    shadowLines (user :: rest) =
      joinFields colon [user.name, user.password] ++ lineFeed :: shadowLines rest := by
  rw [shadowLines, List.map_cons, List.flatten_cons, User.shadowLine, List.append_assoc]
  rfl

theorem User.shadowFields_length (user : User) :
    (joinFields colon [user.name, user.password]).length =
      user.name.length + 1 + user.password.length :=
  joinFields_length_cons user.name user.password []

theorem shadowLine_take {user : User} (fits : user.Fits) (clean : user.Clean) (name : List UInt8)
    (room : Nat) :
    shadowLine name ((joinFields colon [user.name, user.password]).take room) =
      if user.name = name ∧ user.name.length < room then
        some (user.password.take (room - (user.name.length + 1))) else none := by
  have fields : ∀ (i : Nat) (field : List UInt8), [user.name, user.password][i]? = some field →
      i < 1 → colon ∉ field := by
    intro i field found early
    cases i with
    | zero => cases found; exact clean.name.1
    | succ i => omega
  rw [shadowLine, splitFields_take 1 room _ (Nat.le_refl _) fields, takeFields]
  by_cases short : room ≤ user.name.length
  · rw [if_pos short, if_neg fun both => absurd both.2 (Nat.not_lt.mpr short)]
  · rw [if_neg short, takeFields]
    dsimp only
    by_cases own : user.name = name
    · rw [if_pos own, if_pos ⟨own, Nat.lt_of_not_le short⟩,
        userField_of_fits ((List.length_take_le' _ _).trans fits.password)]
    · rw [if_neg own, if_neg fun both => own both.1]

theorem lineFeed_notMem_shadowFields {user : User} (fits : user.Fits) (clean : user.Clean) :
    lineFeed ∉ joinFields colon [user.name, user.password] := by
  have text : joinFields colon [user.name, user.password] = user.name ++ colon :: user.password := rfl
  rw [text, List.mem_append, List.mem_cons, not_or, not_or]
  exact ⟨clean.name.2, by decide, fits.oneLine⟩

/-- The password of an account is found as far as it is in the text, if no account before has the
name. -/
theorem lookUp_eq (before : List User) (user : User) (rest : List User) (room : Nat)
    (good : ∀ other ∈ before ++ [user], other.Fits ∧ other.Clean)
    (first : ∀ other ∈ before, other.name ≠ user.name) :
    lookUp user.name room (before ++ user :: rest) =
      user.password.take (room - ((shadowLines before).length + user.name.length + 1)) := by
  induction before generalizing room with
  | nil =>
      have fits := (good user List.mem_cons_self).1
      have clean := (good user List.mem_cons_self).2
      have length := user.shadowFields_length
      have name := fits.name
      have password := fits.password
      have none : (shadowLines []).length = 0 := rfl
      rw [List.nil_append, lookUp, shadowLines_cons, none, Nat.zero_add]
      by_cases whole : (joinFields colon [user.name, user.password]).length + 1 ≤ room
      · have found := shadowLine_take fits clean user.name
          (joinFields colon [user.name, user.password]).length
        rw [List.take_of_length_le (Nat.le_refl _), if_pos ⟨rfl, by omega⟩,
          List.take_of_length_le (show user.password.length ≤ _ by omega)] at found
        rw [List.take_append, List.take_of_length_le (by omega),
          show room - (joinFields colon [user.name, user.password]).length =
            room - ((joinFields colon [user.name, user.password]).length + 1) + 1 from by omega,
          List.take_succ_cons, walkLines_line _ _ _ (lineFeed_notMem_shadowFields fits clean)
            (by rw [List.length_nil]; omega), List.nil_append, List.findSome?_cons, found]
        have all : user.password.take (room - (user.name.length + 1)) = user.password :=
          List.take_of_length_le (by omega)
        rw [all]
        rfl
      · rw [List.take_append_of_le_length (by omega), walkLines_last _ _
          (fun member => lineFeed_notMem_shadowFields fits clean (List.mem_of_mem_take member))
          (by rw [List.length_nil, List.length_take]; omega), List.nil_append]
        by_cases short : room ≤ user.name.length
        · rw [show room - (user.name.length + 1) = 0 from by omega, List.take_zero]
          split
          · rfl
          · rw [List.findSome?_cons, shadowLine_take fits clean,
              if_neg fun both => absurd both.2 (Nat.not_lt.mpr short)]
            rfl
        · have nonempty : (joinFields colon [user.name, user.password]).take room ≠ [] := by
            intro empty
            have zero := congrArg List.length empty
            rw [List.length_take, length, List.length_nil] at zero
            omega
          rw [if_neg nonempty, List.findSome?_cons, shadowLine_take fits clean,
            if_pos ⟨rfl, Nat.lt_of_not_le short⟩]
          rfl
  | cons other before known =>
      have fits := (good other List.mem_cons_self).1
      have clean := (good other List.mem_cons_self).2
      have length := other.shadowFields_length
      have name := fits.name
      have password := fits.password
      have differ := first other List.mem_cons_self
      have total : (shadowLines (other :: before)).length =
          (joinFields colon [other.name, other.password]).length + 1 +
            (shadowLines before).length := by
        rw [shadowLines_cons, List.length_append, List.length_cons]
        omega
      have passes : ∀ room, shadowLine user.name
          ((joinFields colon [other.name, other.password]).take room) = none := by
        intro room
        rw [shadowLine_take fits clean, if_neg fun both => differ both.1]
      rw [List.cons_append, total]
      by_cases whole : (joinFields colon [other.name, other.password]).length + 1 ≤ room
      · have tail := known (room - ((joinFields colon [other.name, other.password]).length + 1))
          (fun other member => good other (List.mem_cons_of_mem _ member))
          (fun other member => first other (List.mem_cons_of_mem _ member))
        have own := passes (joinFields colon [other.name, other.password]).length
        rw [List.take_of_length_le (Nat.le_refl _)] at own
        rw [lookUp] at tail ⊢
        rw [shadowLines_cons, List.take_append, List.take_of_length_le (by omega),
          show room - (joinFields colon [other.name, other.password]).length =
            room - ((joinFields colon [other.name, other.password]).length + 1) + 1 from by omega,
          List.take_succ_cons, walkLines_line _ _ _ (lineFeed_notMem_shadowFields fits clean)
            (by rw [List.length_nil]; omega), List.nil_append, List.findSome?_cons, own]
        dsimp only
        rw [tail]
        congr 1
        omega
      · rw [lookUp, shadowLines_cons, List.take_append_of_le_length (by omega), walkLines_last _ _
          (fun member => lineFeed_notMem_shadowFields fits clean (List.mem_of_mem_take member))
          (by rw [List.length_nil, List.length_take]; omega), List.nil_append,
          show room - ((joinFields colon [other.name, other.password]).length + 1 +
            (shadowLines before).length + user.name.length + 1) = 0 from by omega, List.take_zero]
        split
        · rfl
        · rw [List.findSome?_cons, passes]
          rfl

/-! ## What is loaded -/

theorem readFile_notMem (cap : Nat) (text : List UInt8) : 0 ∉ readFile cap text := by
  intro member
  have passes : (readFile cap text).all (· ≠ 0) = true := List.all_takeWhile
  exact of_decide_eq_true (List.all_eq_true.mp passes 0 member) rfl

theorem readFile_eq {cap : Nat} {text : List UInt8} (clean : 0 ∉ text) :
    readFile cap text = text.take (cap - 1) := by
  rw [readFile, List.takeWhile_eq_self_iff]
  intro c member
  exact decide_eq_true fun zero => clean (zero ▸ List.mem_of_mem_take member)

theorem shadowGet_fits (shadow : Option (List UInt8)) (name : List UInt8) :
    (shadowGet shadow name).length ≤ 31 ∧ 0 ∉ shadowGet shadow name ∧
      lineFeed ∉ shadowGet shadow name := by
  cases shadow with
  | none => exact ⟨Nat.zero_le _, List.not_mem_nil, List.not_mem_nil⟩
  | some text =>
      rw [shadowGet]
      cases found : (walkLines lineFeed 127 [] (readFile 1024 text)).findSome? (shadowLine name) with
      | none => exact ⟨Nat.zero_le _, List.not_mem_nil, List.not_mem_nil⟩
      | some password =>
          rw [Option.getD_some]
          rcases List.exists_of_findSome?_eq_some found with ⟨line, member, owned⟩
          rw [shadowLine] at owned
          split at owned
          · rename_i owner own fields
            split at owned
            · cases owned
              have inside := (splitFields_clean 1 line 1 (by rw [fields]; rfl)).1
              have signs : ∀ c ∈ userField userPassMax own, c ∈ readFile 1024 text ∧ c ≠ lineFeed := by
                intro c there
                have found := walkLines_clean _ _ member (inside c (List.mem_of_mem_take there))
                exact found.resolve_left List.not_mem_nil
              exact ⟨List.length_take_le _ _, fun zero => readFile_notMem _ _ (signs 0 zero).1,
                fun ends => (signs lineFeed ends).2 rfl⟩
            · cases owned
          · cases owned

/-- An account that is read is clean and fits its fields. -/
theorem passwdFields_good {text line : List UInt8} {user : User} (free : 0 ∉ text)
    (member : line ∈ walkLines lineFeed 255 [] text) (read : passwdFields line = some user) :
    user.Clean ∧ user.Fits ∧ user.password = [] := by
  have signs : ∀ c ∈ line, c ∈ text ∧ c ≠ lineFeed := fun c there =>
    (walkLines_clean _ _ member there).resolve_left List.not_mem_nil
  rw [passwdFields] at read
  split at read
  · cases read
  · rename_i shown
    rw [not_or] at shown
    split at read
    · rename_i name x uid gid gecos home shell fields
      cases read
      have part : ∀ (i : Nat) (field : List UInt8), (splitFields colon 6 line)[i]? = some field →
          (∀ c ∈ field, c ∈ line) ∧ (i < 6 → colon ∉ field) :=
        fun i field found => splitFields_clean 6 line i found
      rw [fields] at part
      have shown' : ∀ c ∈ shell.headD (literal "/bin/sh"), c ≠ lineFeed ∧ c ≠ 0 := by
        cases shell with
        | nil =>
            have fixed : ∀ c ∈ literal "/bin/sh", c ≠ lineFeed ∧ c ≠ 0 := by decide +kernel
            exact fixed
        | cons shell rest =>
            intro c there
            have inside := signs c ((part 6 shell rfl).1 c there)
            exact ⟨inside.2, fun zero => free (zero ▸ inside.1)⟩
      have ended : ∀ (i : Nat) (field : List UInt8) (size : Nat), i < 6 →
          (name :: x :: uid :: gid :: gecos :: home :: shell)[i]? = some field →
          colon ∉ userField size field ∧ lineFeed ∉ userField size field ∧
            0 ∉ userField size field := by
        intro i field size early found
        have inside : ∀ c ∈ userField size field, c ∈ text ∧ c ≠ lineFeed :=
          fun c there => signs c ((part i field found).1 c (List.mem_of_mem_take there))
        exact ⟨fun there => (part i field found).2 early (List.mem_of_mem_take there),
          fun there => (inside _ there).2 rfl, fun there => free (inside _ there).1⟩
      have nameEnded := ended 0 name userNameMax (by omega) rfl
      have gecosEnded := ended 4 gecos userNameMax (by omega) rfl
      have homeEnded := ended 5 home userHomeMax (by omega) rfl
      refine ⟨⟨?_, ⟨nameEnded.1, nameEnded.2.1⟩, ⟨gecosEnded.1, gecosEnded.2.1⟩,
        ⟨homeEnded.1, homeEnded.2.1⟩, fun there => (shown' _ (List.mem_of_mem_take there)).1 rfl⟩,
        ⟨List.length_take_le _ _, List.length_take_le _ _, List.length_take_le _ _,
          List.length_take_le _ _, Nat.zero_le _, ?_, List.not_mem_nil⟩, rfl⟩
      · intro comment
        rcases splitFields_prefix 6 line fields with ⟨more, whole⟩
        refine shown.2 ?_
        rw [userField, List.head?_take, if_neg (by decide)] at comment
        rw [← whole, List.head?_append, comment]
        rfl
      · intro string listed
        rcases List.mem_cons.mp listed with rfl | listed
        · exact nameEnded.2.2
        rcases List.mem_cons.mp listed with rfl | listed
        · exact gecosEnded.2.2
        rcases List.mem_cons.mp listed with rfl | listed
        · exact homeEnded.2.2
        rcases List.mem_cons.mp listed with rfl | listed
        · exact fun there => (shown' _ (List.mem_of_mem_take there)).2 rfl
        · rw [List.mem_singleton.mp listed]
          exact List.not_mem_nil
    · cases read

/-- Every account that is loaded is clean, fits its fields, and has the password that is found for
its name. -/
theorem mem_loadUsers {passwd shadow : Option (List UInt8)} {user : User}
    (member : user ∈ loadUsers passwd shadow) :
    user.Clean ∧ user.Fits ∧ user.password = shadowGet shadow user.name := by
  cases passwd with
  | none => cases member
  | some text =>
      rcases List.mem_map.mp member with ⟨read, taken, rfl⟩
      rcases List.mem_filterMap.mp (List.mem_of_mem_take taken) with ⟨line, inside, parsed⟩
      rcases passwdFields_good (readFile_notMem _ _) inside parsed with ⟨clean, fits, -⟩
      exact ⟨⟨clean.comment, clean.name, clean.gecos, clean.home, clean.shell⟩,
        fits.withPassword (shadowGet_fits shadow read.name), rfl⟩

theorem length_loadUsers (passwd shadow : Option (List UInt8)) :
    (loadUsers passwd shadow).length ≤ maxUsers := by
  cases passwd with
  | none => exact Nat.zero_le _
  | some text =>
      rw [loadUsers, List.length_map]
      exact List.length_take_le _ _

/-! ## What is saved -/

def User.withoutPassword (user : User) : User := { user with password := [] }

theorem passwdText_eq {users : List User} (fits : ∀ user ∈ users, user.Fits) :
    passwdText users = (passwdLines users).take 2047 := by
  have whole : (users.map fun user => user.passwdLine.take 255) = users.map User.passwdLine := by
    refine List.map_congr_left fun user member => List.take_of_length_le ?_
    exact (User.passwdLine_length (fits user member)).trans (by decide)
  rw [passwdText, strncatAll_eq, whole, passwdLines]

theorem shadowText_eq {users : List User} (fits : ∀ user ∈ users, user.Fits) :
    shadowText users = (shadowLines users).take 2047 := by
  have whole : (users.map fun user => user.shadowLine.take 127) = users.map User.shadowLine := by
    refine List.map_congr_left fun user member => List.take_of_length_le ?_
    have name := (fits user member).name
    have password := (fits user member).password
    rw [User.shadowLine, List.length_append, User.shadowFields_length, List.length_singleton]
    omega
  rw [shadowText, strncatAll_eq, whole, shadowLines]

theorem notMem_passwdLines {users : List User} (fits : ∀ user ∈ users, user.Fits) :
    0 ∉ passwdLines users := by
  intro member
  rcases List.mem_flatten.mp member with ⟨line, listed, inside⟩
  rcases List.mem_map.mp listed with ⟨user, there, rfl⟩
  rw [User.passwdLine, List.mem_append] at inside
  rcases inside with field | last
  · rcases User.mem_passwdFields field with same | same | digit | ⟨text, field, inside⟩
    · exact absurd same (by decide)
    · exact absurd same (by decide)
    · exact absurd digit (by decide)
    · exact (fits user there).strings text (List.mem_append_left [user.password] field) inside
  · exact absurd (List.mem_singleton.mp last) (by decide)

theorem notMem_shadowLines {users : List User} (fits : ∀ user ∈ users, user.Fits) :
    0 ∉ shadowLines users := by
  intro member
  rcases List.mem_flatten.mp member with ⟨line, listed, inside⟩
  rcases List.mem_map.mp listed with ⟨user, there, rfl⟩
  have text : user.shadowLine = user.name ++ colon :: user.password ++ [lineFeed] := rfl
  rw [text, List.mem_append, List.mem_append, List.mem_cons] at inside
  have strings := (fits user there).strings
  rcases inside with (name | same | password) | last
  · exact strings _ List.mem_cons_self name
  · exact absurd same (by decide)
  · exact strings user.password (by simp) password
  · exact absurd (List.mem_singleton.mp last) (by decide)

theorem loadUsers_saved {users : List User} (fits : ∀ user ∈ users, user.Fits) :
    loadUsers (some (passwdText users)) (some (shadowText users)) =
      ((readLines 2047 users).take maxUsers).map (withShadow (some (shadowText users))) := by
  have free : 0 ∉ passwdText users := by
    rw [passwdText_eq fits]
    exact fun member => notMem_passwdLines fits (List.mem_of_mem_take member)
  rw [loadUsers, readFile_eq free, passwdText_eq fits, List.take_take]
  rfl

theorem shadowGet_saved {users : List User} (fits : ∀ user ∈ users, user.Fits) (name : List UInt8) :
    shadowGet (some (shadowText users)) name = lookUp name 1023 users := by
  have free : 0 ∉ shadowText users := by
    rw [shadowText_eq fits]
    exact fun member => notMem_shadowLines fits (List.mem_of_mem_take member)
  rw [shadowGet, readFile_eq free, shadowText_eq fits, List.take_take]
  rfl

/-! ## The round trip -/

/-- The accounts that can be read back.  No field ends its line or itself; the text of `/etc/passwd`
fits; accounts of one name have one password, which is empty or within what is read of
`/etc/shadow`. -/
structure Storable (users : List User) : Prop where
  clean : ∀ user ∈ users, user.Clean
  passwd : ReadsBack 2047 users
  namesakes : ∀ a ∈ users, ∀ b ∈ users, a.name = b.name → a.password = b.password
  shadow : ∀ before user rest, users = before ++ user :: rest →
    (∀ other ∈ before, other.name ≠ user.name) → user.password = [] ∨
      (shadowLines before).length + user.name.length + 1 + user.password.length ≤ 1023

theorem exists_first {users : List User} {user : User} (member : user ∈ users) :
    ∃ before first rest, users = before ++ first :: rest ∧ first.name = user.name ∧
      ∀ other ∈ before, other.name ≠ user.name := by
  cases found : users.find? fun other => other.name == user.name with
  | none =>
      have missing := List.find?_eq_none.mp found user member
      exact absurd (beq_self_eq_true user.name) missing
  | some first =>
      rcases List.find?_eq_some_iff_append.mp found with ⟨same, before, rest, split, passed⟩
      refine ⟨before, first, rest, split, eq_of_beq same, fun other there equal => ?_⟩
      have differs := passed other there
      rw [equal, beq_self_eq_true] at differs
      cases differs

/-- The passwords are read back exactly if they are within what is read, and accounts of one name
share theirs. -/
theorem shadowGet_saved_iff {users : List User} (good : ∀ user ∈ users, user.Fits ∧ user.Clean) :
    (∀ user ∈ users, shadowGet (some (shadowText users)) user.name = user.password) ↔
      (∀ a ∈ users, ∀ b ∈ users, a.name = b.name → a.password = b.password) ∧
      ∀ before user rest, users = before ++ user :: rest →
        (∀ other ∈ before, other.name ≠ user.name) → user.password = [] ∨
          (shadowLines before).length + user.name.length + 1 + user.password.length ≤ 1023 := by
  have fits : ∀ user ∈ users, user.Fits := fun user member => (good user member).1
  have first : ∀ before user rest, users = before ++ user :: rest →
      (∀ other ∈ before, other.name ≠ user.name) →
      shadowGet (some (shadowText users)) user.name =
        user.password.take (1023 - ((shadowLines before).length + user.name.length + 1)) := by
    intro before user rest split others
    rw [shadowGet_saved fits]
    rw [split] at good ⊢
    refine lookUp_eq before user rest 1023 (fun other member => good other ?_) others
    rcases List.mem_append.mp member with early | own
    · exact List.mem_append_left _ early
    · rw [List.mem_singleton.mp own]
      exact List.mem_append_right _ List.mem_cons_self
  constructor
  · intro all
    constructor
    · intro a there b there' same
      rw [← all a there, same, all b there']
    · intro before user rest split others
      have member : user ∈ users := by
        rw [split]
        exact List.mem_append_right _ List.mem_cons_self
      have found := congrArg List.length ((first before user rest split others).symm.trans
        (all user member))
      rw [List.length_take] at found
      by_cases empty : user.password = []
      · exact Or.inl empty
      · have positive := List.length_pos_of_ne_nil empty
        exact Or.inr (by omega)
  · rintro ⟨namesakes, room⟩ user member
    rcases exists_first member with ⟨before, own, rest, split, same, others⟩
    rw [← same] at others ⊢
    have there : own ∈ users := by
      rw [split]
      exact List.mem_append_right _ List.mem_cons_self
    rw [first before own rest split others, ← namesakes own there user member same]
    rcases room before own rest split others with empty | fit
    · rw [empty, List.take_nil]
    · exact List.take_of_length_le (by omega)

/-- Fewer accounts are read than were written, or as many. -/
theorem length_readLines {users : List User} (room : Nat)
    (good : ∀ user ∈ users, user.Fits ∧ user.Clean) :
    (readLines room users).length ≤ users.length := by
  induction users generalizing room with
  | nil =>
      rw [readLines, show passwdLines [] = [] from rfl, List.take_nil]
      exact Nat.le_refl _
  | cons user rest known =>
      have fits := (good user List.mem_cons_self).1
      have clean := (good user List.mem_cons_self).2
      rw [List.length_cons]
      by_cases whole : (joinFields colon user.passwdFields).length + 1 ≤ room
      · rw [readLines_whole rest fits clean whole, List.length_cons]
        exact Nat.succ_le_succ (known _ fun other member => good other (List.mem_cons_of_mem _ member))
      · rw [readLines_part rest fits clean (by omega)]
        cases passwdFields ((joinFields colon user.passwdFields).take room) with
        | none => exact Nat.zero_le _
        | some user => exact Nat.succ_le_succ (Nat.zero_le _)

/-- Accounts that fit their fields are loaded as they were saved exactly if they can be read back. -/
theorem loadUsers_saved_iff {users : List User} (few : users.length ≤ maxUsers)
    (fits : ∀ user ∈ users, user.Fits) :
    loadUsers (some (passwdText users)) (some (shadowText users)) = users ↔ Storable users := by
  constructor
  · intro same
    have loaded : ∀ user ∈ users, user.Clean ∧
        user.password = shadowGet (some (shadowText users)) user.name := by
      intro user member
      rw [← same] at member
      have found := mem_loadUsers member
      exact ⟨found.1, found.2.2⟩
    have good : ∀ user ∈ users, user.Fits ∧ user.Clean :=
      fun user member => ⟨fits user member, (loaded user member).1⟩
    have passwords := (shadowGet_saved_iff good).mp fun user member => (loaded user member).2.symm
    refine ⟨fun user member => (loaded user member).1, ?_, passwords.1, passwords.2⟩
    refine (readLines_iff 2047 good).mp ?_
    rw [loadUsers_saved fits, List.take_of_length_le ((length_readLines _ good).trans few)] at same
    have cleared := congrArg (List.map User.withoutPassword) same
    rw [List.map_map] at cleared
    have none : ∀ user ∈ readLines 2047 users,
        (User.withoutPassword ∘ withShadow (some (shadowText users))) user = user := by
      intro user member
      rcases List.mem_filterMap.mp member with ⟨line, inside, parsed⟩
      have free : 0 ∉ (passwdLines users).take 2047 :=
        fun zero => notMem_passwdLines fits (List.mem_of_mem_take zero)
      have empty := (passwdFields_good free inside parsed).2.2
      rcases user with ⟨name, uid, gid, home, shell, gecos, password⟩
      cases empty
      rfl
    rw [List.map_congr_left none, List.map_id'] at cleared
    exact cleared
  · intro storable
    have good : ∀ user ∈ users, user.Fits ∧ user.Clean :=
      fun user member => ⟨fits user member, storable.clean user member⟩
    have passwords := (shadowGet_saved_iff good).mpr ⟨storable.namesakes, storable.shadow⟩
    rw [loadUsers_saved fits, (readLines_iff 2047 good).mpr storable.passwd,
      List.take_of_length_le (by rw [List.length_map]; exact few), List.map_map]
    have back : ∀ user ∈ users, (withShadow (some (shadowText users)) ∘
        fun user => { user with password := [] }) user = user := by
      intro user member
      have own := passwords user member
      rcases user with ⟨name, uid, gid, home, shell, gecos, password⟩
      exact congrArg (User.mk name uid gid home shell gecos) own
    rw [List.map_congr_left back, List.map_id']

/-! ## Every history -/

/-- There are no more accounts than there is room for, and they fit their fields. -/
def UserBase.Fits (s : UserBase) : Prop :=
  s.accounts.users.length ≤ maxUsers ∧ ∀ user ∈ s.accounts.users, user.Fits

theorem storedPassword_fits (password : List UInt8) :
    (Users.storedPassword sha256Hex password).length ≤ 31 ∧
      0 ∉ Users.storedPassword sha256Hex password ∧
      lineFeed ∉ Users.storedPassword sha256Hex password := by
  rw [Users.storedPassword]
  split
  · exact ⟨Nat.zero_le _, List.not_mem_nil, List.not_mem_nil⟩
  · have digits : ∀ c ∈ userField userPassMax (sha256Hex password),
        c ∈ literal "0123456789abcdef" :=
      fun c member => sha256Hex_digits password (List.mem_of_mem_take member)
    refine ⟨List.length_take_le _ _, fun zero => ?_, fun ends => ?_⟩
    · exact absurd (digits 0 zero) (by decide +kernel)
    · exact absurd (digits lineFeed ends) (by decide +kernel)

namespace UserBase

theorem usersAdd_fits {s : UserBase} (holds : s.Fits) (name password : CString) (uid gid : UInt32)
    (home : CString) : (s.usersAdd name password uid gid home).2.Fits := by
  rw [usersAdd, Users.usersAdd]
  split
  · exact holds
  · rename_i accounts added
    split at added
    · cases added
    · rename_i room
      cases added
      rw [not_or, not_or] at room
      refine ⟨?_, fun user member => ?_⟩
      · change (s.accounts.users ++ [_]).length ≤ maxUsers
        rw [List.length_append, List.length_singleton]
        exact Nat.lt_of_not_le room.2.2
      · rcases List.mem_append.mp member with old | new
        · exact holds.2 user old
        · have stored := storedPassword_fits password.1
          have free : ∀ (size : Nat) (text : List UInt8), 0 ∉ text → 0 ∉ userField size text :=
            fun size text clean member => clean (List.mem_of_mem_take member)
          have directory : 0 ∉ (if home.1 ≠ [] then home.1 else literal "/home/" ++ name.1) := by
            split
            · exact home.2
            · rw [List.mem_append, not_or]
              exact ⟨by decide +kernel, name.2⟩
          rw [List.mem_singleton.mp new]
          refine ⟨List.length_take_le _ _, List.length_take_le _ _, List.length_take_le _ _,
            (by decide : (literal "/bin/sh").length ≤ 63), stored.1, ?_, stored.2.2⟩
          intro string listed
          simp only [List.mem_cons, List.not_mem_nil, or_false] at listed
          rcases listed with same | same | same | same | same
          · exact same ▸ free _ _ name.2
          · exact same ▸ free _ _ name.2
          · exact same ▸ free _ _ directory
          · rw [same]
            decide +kernel
          · exact same ▸ stored.2.1

theorem usersSetPassword_fits {s : UserBase} (holds : s.Fits) (name password : CString) :
    (s.usersSetPassword name password).2.Fits := by
  unfold usersSetPassword Users.usersSetPassword
  cases s.accounts.usersFind name.1 with
  | none => exact holds
  | some index =>
      refine ⟨?_, fun user member => ?_⟩
      · change (s.accounts.users.modify index _).length ≤ maxUsers
        rw [List.length_modify]
        exact holds.1
      · change user ∈ s.accounts.users.modify index _ at member
        rcases List.mem_iff_getElem?.mp member with ⟨position, there⟩
        rw [List.getElem?_modify] at there
        cases old : s.accounts.users[position]? with
        | none => rw [old] at there; cases there
        | some before =>
            rw [old] at there
            have fits := holds.2 before (List.mem_of_getElem? old)
            cases there
            split
            · exact fits.withPassword (storedPassword_fits password.1)
            · exact fits

theorem call_fits (s : UserBase) (call : UserCall) (holds : s.Fits) : (s.call call).Fits := by
  cases call with
  | add name password uid gid home => exact usersAdd_fits holds name password uid gid home
  | setPassword name password => exact usersSetPassword_fits holds name password
  | save => exact holds
  | load =>
      refine ⟨length_loadUsers _ _, fun user member => ?_⟩
      exact (mem_loadUsers member).2.1

/-- After every history, saving and loading keeps the accounts exactly if they can be read back. -/
theorem save_load_iff (passwd shadow : Option (List UInt8)) (calls : List UserCall) :
    (Machine.after call (boot passwd shadow) calls).usersSave.usersLoad.accounts.users =
        (Machine.after call (boot passwd shadow) calls).accounts.users ↔
      Storable (Machine.after call (boot passwd shadow) calls).accounts.users := by
  have start : (boot passwd shadow).Fits :=
    ⟨Nat.zero_le _, fun user member => absurd member List.not_mem_nil⟩
  have holds : (Machine.after call (boot passwd shadow) calls).Fits :=
    Machine.after_invariant call_fits start calls
  exact loadUsers_saved_iff holds.1 holds.2

def colonHistory : List UserCall :=
  [.add ⟨literal "a:b", by decide +kernel⟩ ⟨literal "pw", by decide +kernel⟩ 1 1
    ⟨literal "/h", by decide +kernel⟩]

theorem colonHistory_lost :
    (Machine.after call (boot none none) colonHistory).usersSave.usersLoad.accounts.users ≠
      (Machine.after call (boot none none) colonHistory).accounts.users := by
  intro same
  have users : (Machine.after call (boot none none) colonHistory).accounts.users.map User.name =
      [literal "a:b"] := by decide +kernel
  have named : ∀ user ∈ (Machine.after call (boot none none) colonHistory).accounts.users,
      colon ∉ user.name := by
    intro user member
    rw [← same] at member
    have loaded : user ∈ loadUsers (some _) (some _) := member
    exact (mem_loadUsers loaded).1.name.1
  cases found : (Machine.after call (boot none none) colonHistory).accounts.users with
  | nil => rw [found] at users; cases users
  | cons user rest =>
      rw [found] at users named
      have own := named user List.mem_cons_self
      rw [(List.cons.inj users).1] at own
      exact own (by decide +kernel)

end UserBase

end Trinux
