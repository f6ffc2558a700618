import Trinux.Auth.UserFiles
import Trinux.Shell.Editor

namespace Trinux

open ArrayShift

/-!
# Copying blocks

`dd` copies blocks of one size from a place in the input and writes them in blocks of another size
from a place in the output on.  The places are products of operands in words of 32 bits.
-/

namespace Dd

/-! ## Operands -/

def digitsLoop (v : Nat) : List UInt8 → Nat × List UInt8
  | [] => (v, [])
  | c :: rest =>
      if 48 ≤ c ∧ c ≤ 57 then digitsLoop ((v * 10 + (c.toNat - 48)) % 2 ^ 32) rest
      else (v, c :: rest)

def unitFactor : List UInt8 → Nat
  | [] => 1
  | c :: _ =>
      if c = 99 then 1 else if c = 119 then 2 else if c = 98 then 512
      else if c = 107 ∨ c = 75 then 1024 else if c = 77 then 1024 * 1024 else 0

def ddParseSize (text : List UInt8) : Nat :=
  if text = [] then 0
  else ((digitsLoop 0 text).1 * unitFactor (digitsLoop 0 text).2) % 2 ^ 32

inductive Operand where
  | bs (text : List UInt8)
  | ibs (text : List UInt8)
  | obs (text : List UInt8)
  | count (text : List UInt8)
  | skip (text : List UInt8)
  | seek (text : List UInt8)
  | notrunc

structure Options where
  ibs : Nat
  obs : Nat
  count : Nat
  skip : Nat
  seek : Nat
  notrunc : Bool

def Options.start : Options := ⟨512, 512, 0, 0, 0, false⟩

def Options.read (o : Options) : Operand → Option Options
  | .bs text =>
      if ddParseSize text = 0 then none
      else some { o with ibs := ddParseSize text, obs := ddParseSize text }
  | .ibs text => if ddParseSize text = 0 then none else some { o with ibs := ddParseSize text }
  | .obs text => if ddParseSize text = 0 then none else some { o with obs := ddParseSize text }
  | .count text => some { o with count := (atoi text).toNat }
  | .skip text => some { o with skip := (atoi text).toNat }
  | .seek text => some { o with seek := (atoi text).toNat }
  | .notrunc => some { o with notrunc := true }

/-! ## Files -/

/-- The memory of a file and its size; behind the size stands what was there before. -/
structure DdFile where
  cells : Nat → UInt8
  size : Nat

namespace DdFile

def read (f : DdFile) (off n : Nat) : List UInt8 :=
  front (fun i => f.cells (off + i)) (min n (f.size - off))

def write (f : DdFile) (off : Nat) (bytes : List UInt8) : DdFile :=
  ⟨copyCells f.cells off (fun i => bytes.getD i 0) 0 bytes.length, max f.size (off + bytes.length)⟩

/-- `vfs_write` of some bytes that are all written; none if rounding the end of the file up to blocks
wraps, so that the bytes go to blocks that the file does not have. -/
def vfsWrite (f : DdFile) (off : Nat) (bytes : List UInt8) : Option DdFile :=
  if off + bytes.length + (4096 - 1) < 2 ^ 32 then some (f.write off bytes) else none

def truncate (f : DdFile) : DdFile := { f with size := 0 }

end DdFile

/-! ## The loops -/

def writeBlocks (obs : Nat) : (fuel outOff : Nat) → List UInt8 → DdFile → Option (DdFile × Nat)
  | 0, outOff, _, f => some (f, outOff)
  | fuel + 1, outOff, bytes, f =>
      if bytes = [] then some (f, outOff)
      else
        (f.vfsWrite outOff (bytes.take obs)).bind fun f =>
          writeBlocks obs fuel ((outOff + min obs bytes.length) % 2 ^ 32) (bytes.drop obs) f

/-- The copy loop, for at most some rounds; `none` if it has not ended then, or if a file has not the
blocks that are written to. -/
def copyLoop (o : Options) (input output : Nat) :
    (fuel b inOff outOff : Nat) → (Nat → DdFile) → Option (Nat → DdFile)
  | 0, _, _, _, _ => none
  | fuel + 1, b, inOff, outOff, files =>
      if ¬(o.count = 0 ∨ b < o.count) then some files
      else
        let got := (files input).read inOff o.ibs
        if got = [] then some files
        else
          (writeBlocks o.obs got.length outOff got (files output)).bind fun written =>
            if got.length < o.ibs then some (Function.update files output written.1)
            else copyLoop o input output fuel ((b + 1) % 2 ^ 32) ((inOff + got.length) % 2 ^ 32)
              written.2 (Function.update files output written.1)

/-- `cmd_dd`, from a file or from what comes through a pipe to a file, if no transfer is short. -/
def cmdDd (operands : List Operand) (input output fuel : Nat) (files : Nat → DdFile) :
    Option (Nat → DdFile) :=
  (operands.foldlM Options.read Options.start).bind fun o =>
    copyLoop o input output fuel 0 (o.skip * o.ibs % 2 ^ 32) (o.seek * o.obs % 2 ^ 32)
      (if o.notrunc then files else Function.update files output (files output).truncate)

/-! ## What the operands say -/

def digitsNumber (v : Nat) : List UInt8 → Nat × List UInt8
  | [] => (v, [])
  | c :: rest =>
      if 48 ≤ c ∧ c ≤ 57 then digitsNumber (v * 10 + (c.toNat - 48)) rest else (v, c :: rest)

def sizeNumber (text : List UInt8) : Nat :=
  (digitsNumber 0 text).1 * unitFactor (digitsNumber 0 text).2

def textNumber (text : List UInt8) : Int :=
  match text.dropWhile isspace with
  | [] => 0
  | c :: rest =>
      if c = 45 then -((digitsNumber 0 rest).1 : Int)
      else if c = 43 then (digitsNumber 0 rest).1
      else (digitsNumber 0 (c :: rest)).1

structure Meaning where
  ibs : Nat
  obs : Nat
  count : Option Int
  skip : Int
  seek : Int
  notrunc : Bool

def Meaning.start : Meaning := ⟨512, 512, none, 0, 0, false⟩

def Meaning.read (m : Meaning) : Operand → Meaning
  | .bs text => { m with ibs := sizeNumber text, obs := sizeNumber text }
  | .ibs text => { m with ibs := sizeNumber text }
  | .obs text => { m with obs := sizeNumber text }
  | .count text => { m with count := some (textNumber text) }
  | .skip text => { m with skip := textNumber text }
  | .seek text => { m with seek := textNumber text }
  | .notrunc => { m with notrunc := true }

def meaning (operands : List Operand) : Meaning := operands.foldl Meaning.read Meaning.start

def Meaning.length (m : Meaning) (size place : Nat) : Nat :=
  match m.count with
  | some count => min (count.toNat * m.ibs) (size - place)
  | none => size - place

/-- A number of bytes have been copied from a place in the input to one in the output. -/
def DdFile.copied (f : DdFile) (src : Nat → UInt8) (place place' length : Nat) : DdFile :=
  ⟨fun i => if place' ≤ i ∧ i < place' + length then src (place + (i - place')) else f.cells i,
    if length = 0 then f.size else max f.size (place' + length)⟩

/-- A file has the copied bytes, what was there before, and zeros in between. -/
structure Copied (before after : DdFile) (src : Nat → UInt8) (place place' length : Nat) :
    Prop where
  size : after.size = if length = 0 then before.size else max before.size (place' + length)
  bytes : ∀ i < after.size, after.cells i =
    if place' ≤ i ∧ i < place' + length then src (place + (i - place'))
    else if i < before.size then before.cells i else 0

def opened (m : Meaning) (f : DdFile) : DdFile := if m.notrunc then f else f.truncate

def Right (operands : List Operand) (input output : Nat) (files : Nat → DdFile) : Prop :=
  let m := meaning operands
  let place := (m.skip * m.ibs).toNat
  (∀ fuel result, cmdDd operands input output fuel files = some result →
    Copied (opened m (files output)) (result output) (files input).cells place
      (m.seek * m.obs).toNat (m.length (files input).size place) ∧
    ∀ other, other ≠ output → result other = files other)

/-- The products do not wrap and the number of blocks is not 0; bytes behind the end of the output
that come to be inside of it are zeros; and in one file nothing is written that is still to be
read, and nothing is read that has been written. -/
structure Proper (operands : List Operand) (input output : Nat) (files : Nat → DdFile) :
    Prop where
  ibs : (meaning operands).ibs < 2 ^ 32
  obs : (meaning operands).obs < 2 ^ 32
  count : ∀ count ∈ (meaning operands).count, 0 < count ∧ count < 2 ^ 32
  skip : 0 ≤ (meaning operands).skip
  seek : 0 ≤ (meaning operands).seek
  place : (meaning operands).skip * (meaning operands).ibs < 2 ^ 32
  place' : (meaning operands).seek * (meaning operands).obs < 2 ^ 32
  size : (files input).size < 2 ^ 32
  some_ : 0 < (meaning operands).length (files input).size
      ((meaning operands).skip * (meaning operands).ibs).toNat →
    let m := meaning operands
    let place := (m.skip * m.ibs).toNat
    let place' := (m.seek * m.obs).toNat
    let length := m.length (files input).size place
    place' + length + (4096 - 1) < 2 ^ 32 ∧
    (∀ i, (opened m (files output)).size ≤ i → i < place' →
      (opened m (files output)).cells i = 0) ∧
    (input = output → m.notrunc = true ∧
      (place' ≤ place ∨ place + length ≤ place' ∧
        (length < m.ibs ∨
          ∃ count, m.count = some count ∧ place + count.toNat * m.ibs ≤ (files input).size)))

/-! ## The parser -/

theorem digitsLoop_eq (v : Nat) (text : List UInt8) :
    digitsLoop (v % 2 ^ 32) text =
      ((digitsNumber v text).1 % 2 ^ 32, (digitsNumber v text).2) := by
  induction text generalizing v with
  | nil => rfl
  | cons c rest known =>
      rw [digitsLoop, digitsNumber]
      by_cases digit : 48 ≤ c ∧ c ≤ 57
      · rw [if_pos digit, if_pos digit, ← known]
        congr 1
        omega
      · rw [if_neg digit, if_neg digit]

theorem ddParseSize_eq (text : List UInt8) : ddParseSize text = sizeNumber text % 2 ^ 32 := by
  rw [ddParseSize, sizeNumber]
  by_cases empty : text = []
  · rw [if_pos empty, empty]
    rfl
  · have digits := digitsLoop_eq 0 text
    rw [Nat.zero_mod] at digits
    rw [if_neg empty, digits, Nat.mod_mul_mod]

theorem atoiDigits_toNat (v : UInt32) (text : List UInt8) :
    (atoiDigits v text).toNat = (digitsNumber v.toNat text).1 % 2 ^ 32 := by
  have loop : (atoiDigits v text).toNat = (digitsLoop v.toNat text).1 := by
    induction text generalizing v with
    | nil => rfl
    | cons c rest known =>
        rw [atoiDigits, digitsLoop]
        by_cases digit : 48 ≤ c ∧ c ≤ 57
        · have isdigit_ : isdigit c = true := by simp [isdigit, digit]
          have value : (v * 10 + (c - 48).toUInt32).toNat =
              (v.toNat * 10 + (c.toNat - 48)) % 2 ^ 32 := by
            rw [UInt32.toNat_add, UInt32.toNat_mul, UInt8.toNat_toUInt32,
              UInt8.toNat_sub_of_le _ _ digit.1]
            simp
          rw [if_pos isdigit_, if_pos digit, known, value]
        · have isdigit_ : ¬isdigit c = true := by
            simpa [isdigit] using digit
          rw [if_neg isdigit_, if_neg digit]
  have mod_ := digitsLoop_eq v.toNat text
  rw [Nat.mod_eq_of_lt v.toNat_lt] at mod_
  rw [loop, mod_]

theorem atoi_toNat (text : List UInt8) : ((atoi text).toNat : Int) = textNumber text % 2 ^ 32 := by
  rw [atoi, textNumber]
  cases text.dropWhile isspace with
  | nil => rfl
  | cons c rest =>
      dsimp only
      by_cases minus : c = 45
      · have value := atoiDigits_toNat 0 rest
        have zero : (0 : UInt32).toNat = 0 := rfl
        rw [if_pos minus, if_pos minus, UInt32.toNat_sub, zero]
        rw [zero] at value
        omega
      · rw [if_neg minus, if_neg minus]
        by_cases plus : c = 43
        · rw [if_pos plus, if_pos plus, atoiDigits_toNat]
          simp
        · rw [if_neg plus, if_neg plus, atoiDigits_toNat]
          simp

structure Options.Hold (o : Options) (m : Meaning) : Prop where
  ibs : o.ibs = m.ibs % 2 ^ 32
  obs : o.obs = m.obs % 2 ^ 32
  count : (o.count : Int) = m.count.getD 0 % 2 ^ 32
  skip : (o.skip : Int) = m.skip % 2 ^ 32
  seek : (o.seek : Int) = m.seek % 2 ^ 32
  notrunc : o.notrunc = m.notrunc
  positive : 0 < o.ibs ∧ 0 < o.obs

theorem Options.Hold.read {o o' : Options} {m : Meaning} (hold : o.Hold m) {operand : Operand}
    (accepted : o.read operand = some o') : o'.Hold (m.read operand) := by
  obtain ⟨ibs, obs, count, skip, seek, notrunc, positive, positive'⟩ := hold
  cases operand with
  | bs text =>
      rw [Options.read, Option.ite_none_left_eq_some] at accepted
      rcases accepted with ⟨zero, same⟩
      obtain rfl := Option.some.inj same
      exact ⟨ddParseSize_eq text, ddParseSize_eq text, count, skip, seek, notrunc,
        Nat.pos_of_ne_zero zero, Nat.pos_of_ne_zero zero⟩
  | ibs text =>
      rw [Options.read, Option.ite_none_left_eq_some] at accepted
      rcases accepted with ⟨zero, same⟩
      obtain rfl := Option.some.inj same
      exact ⟨ddParseSize_eq text, obs, count, skip, seek, notrunc,
        Nat.pos_of_ne_zero zero, positive'⟩
  | obs text =>
      rw [Options.read, Option.ite_none_left_eq_some] at accepted
      rcases accepted with ⟨zero, same⟩
      obtain rfl := Option.some.inj same
      exact ⟨ibs, ddParseSize_eq text, count, skip, seek, notrunc, positive,
        Nat.pos_of_ne_zero zero⟩
  | count text =>
      obtain rfl := Option.some.inj accepted
      exact ⟨ibs, obs, atoi_toNat text, skip, seek, notrunc, positive, positive'⟩
  | skip text =>
      obtain rfl := Option.some.inj accepted
      exact ⟨ibs, obs, count, atoi_toNat text, seek, notrunc, positive, positive'⟩
  | seek text =>
      obtain rfl := Option.some.inj accepted
      exact ⟨ibs, obs, count, skip, atoi_toNat text, notrunc, positive, positive'⟩
  | notrunc =>
      obtain rfl := Option.some.inj accepted
      exact ⟨ibs, obs, count, skip, seek, rfl, positive, positive'⟩

theorem Options.Hold.operands {o o' : Options} {m : Meaning} (hold : o.Hold m)
    {operands : List Operand} (accepted : operands.foldlM Options.read o = some o') :
    o'.Hold (operands.foldl Meaning.read m) := by
  induction operands generalizing o m with
  | nil =>
      obtain rfl := Option.some.inj accepted
      exact hold
  | cons operand operands known =>
      rw [List.foldlM_cons] at accepted
      obtain ⟨next, first, rest⟩ := Option.bind_eq_some_iff.mp accepted
      exact known (hold.read first) rest

theorem Options.Hold.start : Options.start.Hold Meaning.start :=
  ⟨rfl, rfl, rfl, rfl, rfl, rfl, by decide, by decide⟩

/-! ## Writing a block -/

namespace DdFile

theorem write_append (f : DdFile) (off : Nat) (first second : List UInt8) :
    (f.write off first).write (off + first.length) second = f.write off (first ++ second) := by
  rw [write, write, write]
  congr 1
  · funext i
    simp only [copyCells, List.length_append, Nat.zero_add]
    by_cases behind : off + first.length ≤ i ∧ i < off + first.length + second.length
    · rw [if_pos behind, if_pos (by omega), List.getD_eq_getElem?_getD, List.getD_eq_getElem?_getD,
        List.getElem?_append_right (by omega)]
      congr 2
      omega
    · rw [if_neg behind]
      by_cases inside : off ≤ i ∧ i < off + first.length
      · rw [if_pos inside, if_pos (by omega), List.getD_eq_getElem?_getD,
          List.getD_eq_getElem?_getD, List.getElem?_append_left (by omega)]
      · rw [if_neg inside, if_neg (by omega)]
  · dsimp only
    rw [List.length_append]
    omega

theorem copied_write (f : DdFile) (src : Nat → UInt8) (place place' length more : Nat)
    (some_ : 0 < more) :
    (f.copied src place place' length).write (place' + length)
        (front (fun i => src (place + length + i)) more) =
      f.copied src place place' (length + more) := by
  rw [write, copied, copied]
  congr 1
  · funext i
    simp only [copyCells, front_length, Nat.zero_add]
    by_cases behind : place' + length ≤ i ∧ i < place' + length + more
    · rw [if_pos behind, if_pos (by omega), List.getD_eq_getElem?_getD, front_getElem?,
        if_pos (by omega), Option.getD_some]
      congr 1
      omega
    · rw [if_neg behind]
      by_cases inside : place' ≤ i ∧ i < place' + length
      · rw [if_pos inside, if_pos (by omega)]
      · rw [if_neg inside, if_neg (by omega)]
  · dsimp only
    rw [front_length, if_neg (show ¬length + more = 0 by omega)]
    by_cases none_ : length = 0
    · rw [if_pos none_]
      omega
    · rw [if_neg none_]
      omega

theorem copied_zero (f : DdFile) (src : Nat → UInt8) (place place' : Nat) :
    f.copied src place place' 0 = f := by
  rw [copied, if_pos rfl]
  congr 1
  funext i
  rw [if_neg (by omega)]

end DdFile

theorem writeBlocks_eq (obs : Nat) (positive : 0 < obs) (fuel outOff : Nat) (bytes : List UInt8)
    (f : DdFile) (enough : bytes.length ≤ fuel)
    (small : outOff + bytes.length + (4096 - 1) < 2 ^ 32)
    (some_ : bytes ≠ []) :
    writeBlocks obs fuel outOff bytes f = some (f.write outOff bytes, outOff + bytes.length) := by
  induction fuel generalizing outOff bytes f with
  | zero => exact absurd (List.eq_nil_of_length_eq_zero (Nat.le_zero.mp enough)) some_
  | succ fuel known =>
      have length := List.length_pos_iff.mpr some_
      have taken : (bytes.take obs).length = min obs bytes.length := List.length_take
      rw [writeBlocks, if_neg some_, Nat.mod_eq_of_lt (by omega), DdFile.vfsWrite,
        if_pos (by omega), Option.bind_some]
      by_cases last : bytes.drop obs = []
      · have whole : bytes.take obs = bytes := by
          have parts := bytes.take_append_drop obs
          rwa [last, List.append_nil] at parts
        have short : min obs bytes.length = bytes.length := by
          rw [← taken, whole]
        rw [last, whole, short]
        cases fuel <;> rfl
      · rw [known _ _ _ (by rw [List.length_drop]; omega) (by rw [List.length_drop]; omega) last,
          ← taken, f.write_append, List.take_append_drop]
        congr 2
        rw [List.length_drop, taken]
        omega

/-! ## The copy loop -/

structure Ready (o : Options) (input output : Nat) (files : Nat → DdFile)
    (place place' total : Nat) : Prop where
  ibs : 0 < o.ibs
  obs : 0 < o.obs
  length : total =
    if o.count = 0 then (files input).size - place
    else min (o.count * o.ibs) ((files input).size - place)
  size : (files input).size < 2 ^ 32
  fits : 0 < total → place' + total + (4096 - 1) < 2 ^ 32
  same : input = output → 0 < total → place' ≤ place ∨ place + total ≤ place' ∧
    (total < o.ibs ∨ o.count ≠ 0 ∧ place + o.count * o.ibs ≤ (files input).size)

namespace Ready

variable {o : Options} {input output : Nat} {files : Nat → DdFile} {place place' total : Nat}

def after (files : Nat → DdFile) (input output place place' copied : Nat) : Nat → DdFile :=
  Function.update files output
    ((files output).copied (files input).cells place place' copied)

theorem total_le (ready : Ready o input output files place place' total) :
    total ≤ (files input).size - place := by
  rw [ready.length]
  split
  · exact Nat.le_refl _
  · exact Nat.min_le_right _ _

/-- If a block is read, no more are left than the input has behind the place. -/
theorem left_eq (ready : Ready o input output files place place' total) {b : Nat}
    (more : o.count = 0 ∨ b < o.count) :
    min o.ibs (total - b * o.ibs) = min o.ibs ((files input).size - (place + b * o.ibs)) := by
  have length := ready.length
  by_cases counted : o.count = 0
  · rw [if_pos counted] at length
    omega
  · rw [if_neg counted] at length
    have block : (b + 1) * o.ibs ≤ o.count * o.ibs := Nat.mul_le_mul_right _ (by omega)
    rw [Nat.add_mul, Nat.one_mul] at block
    omega

theorem read (ready : Ready o input output files place place' total) {b : Nat}
    (more : o.count = 0 ∨ b < o.count) (within : b * o.ibs ≤ total) :
    (after files input output place place' (b * o.ibs) input).read (place + b * o.ibs) o.ibs =
      front (fun i => (files input).cells (place + b * o.ibs + i))
        (min o.ibs (total - b * o.ibs)) := by
  have whole := ready.total_le
  rw [ready.left_eq more]
  by_cases one : input = output
  · subst one
    by_cases first : b * o.ibs = 0
    · rw [after, Function.update_self, first, DdFile.copied_zero]
      rfl
    rw [after, Function.update_self, DdFile.read, DdFile.copied, if_neg first]
    dsimp only
    rcases ready.same rfl (by omega) with before | ⟨behind, ends⟩
    · rw [Nat.max_eq_left (show place' + b * o.ibs ≤ (files input).size by omega)]
      refine front_congr fun i inside => ?_
      rw [if_neg (by omega)]
    · rcases ends with short | ⟨counted, enough⟩
      · have positive : 0 < b := Nat.pos_of_ne_zero fun zero => first (by rw [zero, Nat.zero_mul])
        have one_ := Nat.le_mul_of_pos_left o.ibs positive
        omega
      · have block : (b + 1) * o.ibs ≤ o.count * o.ibs :=
          Nat.mul_le_mul_right _ (by omega)
        rw [Nat.add_mul, Nat.one_mul] at block
        have length := ready.length
        rw [if_neg counted] at length
        have full : min o.ibs (max (files input).size (place' + b * o.ibs) - (place + b * o.ibs)) =
            min o.ibs ((files input).size - (place + b * o.ibs)) := by
          omega
        rw [full]
        refine front_congr fun i inside => ?_
        rw [if_neg (by omega)]
  · rw [after, Function.update_of_ne one]
    rfl

theorem copyLoop (ready : Ready o input output files place place' total) (fuel b : Nat)
    (within : b * o.ibs ≤ total) (counted : o.count = 0 ∨ b ≤ o.count) :
    (∀ result, Dd.copyLoop o input output fuel b (place + b * o.ibs) (place' + b * o.ibs)
        (after files input output place place' (b * o.ibs)) = some result →
      result = after files input output place place' total) ∧
    (total - b * o.ibs < fuel →
      ∃ result, Dd.copyLoop o input output fuel b (place + b * o.ibs) (place' + b * o.ibs)
        (after files input output place place' (b * o.ibs)) = some result) := by
  induction fuel generalizing b with
  | zero => exact ⟨fun _ none_ => absurd none_ (by simp [Dd.copyLoop]),
      fun less => absurd less (Nat.not_lt_zero _)⟩
  | succ fuel known =>
      have positive := ready.ibs
      have whole := ready.total_le
      have small := ready.size
      have ends (state : Nat → DdFile)
          (all : state = after files input output place place' total) :
          (∀ result, some state = some result →
            result = after files input output place place' total) ∧
          (total - b * o.ibs < fuel + 1 → ∃ result, some state = some result) :=
        ⟨fun result same => (Option.some.inj same).symm.trans all, fun _ => ⟨state, rfl⟩⟩
      rw [Dd.copyLoop]
      by_cases more : o.count = 0 ∨ b < o.count
      · rw [if_neg (not_not.mpr more), ready.read more within]
        dsimp only
        by_cases done : b * o.ibs = total
        · have nothing : front (fun i => (files input).cells (place + b * o.ibs + i))
              (min o.ibs (total - b * o.ibs)) = [] :=
            List.eq_nil_of_length_eq_zero (by rw [front_length]; omega)
          rw [if_pos nothing]
          exact ends _ (by rw [done])
        · have some_ : front (fun i => (files input).cells (place + b * o.ibs + i))
              (min o.ibs (total - b * o.ibs)) ≠ [] := by
            intro nothing
            have length := congrArg List.length nothing
            rw [front_length, List.length_nil] at length
            omega
          have fits := ready.fits (by omega)
          have written := writeBlocks_eq o.obs ready.obs _ (place' + b * o.ibs) _
            (after files input output place place' (b * o.ibs) output) (Nat.le_refl _)
            (by rw [front_length]; omega) some_
          have copied : (after files input output place place' (b * o.ibs) output).write
              (place' + b * o.ibs) (front (fun i => (files input).cells (place + b * o.ibs + i))
                (min o.ibs (total - b * o.ibs))) =
              (files output).copied (files input).cells place place'
                (b * o.ibs + min o.ibs (total - b * o.ibs)) := by
            rw [after, Function.update_self]
            exact DdFile.copied_write _ _ _ _ _ _ (by omega)
          have state : Function.update (after files input output place place' (b * o.ibs)) output
              ((files output).copied (files input).cells place place'
                (b * o.ibs + min o.ibs (total - b * o.ibs))) =
              after files input output place place'
                (b * o.ibs + min o.ibs (total - b * o.ibs)) := by
            rw [after, Function.update_idem]
            rfl
          rw [if_neg some_, written, Option.bind_some]
          dsimp only
          rw [copied, state, front_length]
          by_cases partial_ : min o.ibs (total - b * o.ibs) < o.ibs
          · rw [if_pos partial_]
            have last : b * o.ibs + min o.ibs (total - b * o.ibs) = total := by omega
            exact ends _ (by rw [last])
          · have full : min o.ibs (total - b * o.ibs) = o.ibs := by omega
            have next : b * o.ibs + o.ibs = (b + 1) * o.ibs := by rw [Nat.add_mul, Nat.one_mul]
            have rounds : b + 1 ≤ (b + 1) * o.ibs := Nat.le_mul_of_pos_right _ positive
            rw [if_neg partial_, full, Nat.mod_eq_of_lt (show b + 1 < 2 ^ 32 by omega),
              Nat.mod_eq_of_lt (show place + b * o.ibs + o.ibs < 2 ^ 32 by omega), Nat.add_assoc,
              Nat.add_assoc, next]
            have rest := known (b + 1) (by omega) (by omega)
            exact ⟨rest.1, fun enough => rest.2 (by omega)⟩
      · rw [if_pos more]
        refine ends _ ?_
        have limit : o.count ≠ 0 ∧ b = o.count := by omega
        have length := ready.length
        rw [if_neg limit.1, ← limit.2] at length
        have all : b * o.ibs = total := by omega
        rw [all]

end Ready

/-! ## The whole command -/

def openFiles (o : Options) (output : Nat) (files : Nat → DdFile) : Nat → DdFile :=
  if o.notrunc then files else Function.update files output (files output).truncate

theorem openFiles_output {o : Options} {m : Meaning} (hold : o.Hold m) (output : Nat)
    (files : Nat → DdFile) : openFiles o output files output = opened m (files output) := by
  rw [openFiles, opened, ← hold.notrunc]
  cases o.notrunc with
  | true => rfl
  | false => simp

theorem openFiles_cells (o : Options) (output : Nat) (files : Nat → DdFile) (node : Nat) :
    (openFiles o output files node).cells = (files node).cells := by
  rw [openFiles]
  cases o.notrunc with
  | true => rfl
  | false =>
      by_cases same : node = output
      · subst same
        simp [DdFile.truncate]
      · simp [same]

theorem openFiles_of_ne (o : Options) {output node : Nat} (other : node ≠ output)
    (files : Nat → DdFile) : openFiles o output files node = files node := by
  rw [openFiles]
  cases o.notrunc with
  | true => rfl
  | false => simp [other]

/-- The variables hold what the operands say if nothing wraps. -/
theorem Options.Hold.exact_ {o : Options} {m : Meaning} (hold : o.Hold m) (ibs : m.ibs < 2 ^ 32)
    (obs : m.obs < 2 ^ 32) (skip : 0 ≤ m.skip) (seek : 0 ≤ m.seek)
    (place : m.skip * m.ibs < 2 ^ 32) (place' : m.seek * m.obs < 2 ^ 32) :
    o.ibs = m.ibs ∧ o.obs = m.obs ∧ o.skip * o.ibs % 2 ^ 32 = (m.skip * m.ibs).toNat ∧
      o.seek * o.obs % 2 ^ 32 = (m.seek * m.obs).toNat := by
  have ibs_ : o.ibs = m.ibs := hold.ibs.trans (Nat.mod_eq_of_lt ibs)
  have obs_ : o.obs = m.obs := hold.obs.trans (Nat.mod_eq_of_lt obs)
  have product {n v : Nat} {z : Int} (low : 0 ≤ z) (positive : 0 < v)
      (small : z * v < 2 ^ 32) (holds : (n : Int) = z % 2 ^ 32) :
      n * v % 2 ^ 32 = (z * v).toNat := by
    obtain ⟨k, rfl⟩ := Int.eq_ofNat_of_zero_le low
    have small' : k * v < 2 ^ 32 := by exact_mod_cast small
    have one := Nat.le_mul_of_pos_right k positive
    have same : n = k := by omega
    rw [same, Nat.mod_eq_of_lt small', ← Int.natCast_mul, Int.toNat_natCast]
  have positive := hold.positive
  rw [ibs_, obs_] at positive ⊢
  exact ⟨rfl, rfl, product skip positive.1 place hold.skip,
    product seek positive.2 place' hold.seek⟩

theorem Proper.ready {operands : List Operand} {input output : Nat} {files : Nat → DdFile}
    (proper : Proper operands input output files) {o : Options} (hold : o.Hold (meaning operands)) :
    Ready o input output (openFiles o output files)
      ((meaning operands).skip * (meaning operands).ibs).toNat
      ((meaning operands).seek * (meaning operands).obs).toNat
      ((meaning operands).length (files input).size
        ((meaning operands).skip * (meaning operands).ibs).toNat) := by
  have some_ := proper.some_
  obtain ⟨ibs, obs, -, -⟩ := hold.exact_ proper.ibs proper.obs proper.skip proper.seek
    proper.place proper.place'
  have size := proper.size
  have counts := proper.count
  have count_ := hold.count
  have notrunc := hold.notrunc
  dsimp only at some_
  generalize meaning operands = m at some_ ibs obs counts count_ notrunc ⊢
  generalize (m.skip * m.ibs).toNat = place at some_ ⊢
  generalize (m.seek * m.obs).toNat = place' at some_ ⊢
  have length : m.length (files input).size place =
      if o.count = 0 then (files input).size - place
      else min (o.count * o.ibs) ((files input).size - place) := by
    rw [Meaning.length, ibs]
    cases counted : m.count with
    | none =>
        rw [counted] at count_
        have zero : o.count = 0 := by
          have zero_ : ((none : Option Int).getD 0) = 0 := rfl
          rw [zero_] at count_
          omega
        rw [if_pos zero]
    | some count =>
        obtain ⟨positive, small⟩ := counts count counted
        rw [counted, Option.getD_some] at count_
        have same : o.count = count.toNat := by omega
        rw [if_neg (by omega), same]
  have reads : 0 < m.length (files input).size place →
      openFiles o output files input = files input := by
    intro positive
    by_cases same : input = output
    · have kept := ((some_ positive).2.2 same).1
      rw [openFiles, notrunc, kept]
      rfl
    · exact openFiles_of_ne o same files
  refine ⟨hold.positive.1, hold.positive.2, ?_, ?_, fun positive => (some_ positive).1,
    fun same positive => ?_⟩
  · rcases Nat.eq_zero_or_pos (m.length (files input).size place) with none_ | positive
    · by_cases same : openFiles o output files input = files input
      · rw [same, length]
      · have empty : (openFiles o output files input).size = 0 := by
          rw [openFiles] at same ⊢
          by_cases kept : o.notrunc = true
          · rw [if_pos kept] at same
            exact absurd rfl same
          · rw [if_neg kept] at same ⊢
            by_cases one : input = output
            · subst one
              rw [Function.update_self]
              rfl
            · exact absurd (Function.update_of_ne one _ _) same
        rw [none_, empty, Nat.zero_sub, Nat.min_zero]
        split <;> rfl
    · rw [reads positive, length]
  · by_cases same : openFiles o output files input = files input
    · rw [same]
      exact size
    · rw [openFiles] at same ⊢
      by_cases kept : o.notrunc = true
      · rw [if_pos kept] at same
        exact absurd rfl same
      · rw [if_neg kept] at same ⊢
        by_cases one : input = output
        · subst one
          rw [Function.update_self]
          exact Nat.two_pow_pos 32
        · exact absurd (Function.update_of_ne one _ _) same
  · rw [reads positive]
    obtain ⟨-, aliased⟩ := (some_ positive).2.2 same
    refine aliased.imp_right fun behind => ⟨behind.1, behind.2.imp ?_ ?_⟩
    · intro short
      rwa [ibs]
    · rintro ⟨count, counted, enough⟩
      obtain ⟨positive_, small⟩ := counts count counted
      rw [counted, Option.getD_some] at count_
      have same_ : o.count = count.toNat := by omega
      rw [same_, ibs]
      exact ⟨by omega, enough⟩

def fileOf (bytes : List UInt8) (behind : UInt8) : DdFile :=
  ⟨fun i => bytes.getD i behind, bytes.length⟩

theorem Right.byte {operands : List Operand} {input output : Nat} {files : Nat → DdFile}
    (right : Right operands input output files) {fuel i size : Nat} {c : UInt8}
    (run : (cmdDd operands input output fuel files).map
      (fun result => ((result output).cells i, (result output).size)) = some (c, size)) :
    let m := meaning operands
    let place := (m.skip * m.ibs).toNat
    let place' := (m.seek * m.obs).toNat
    let length := m.length (files input).size place
    size = (if length = 0 then (opened m (files output)).size
      else max (opened m (files output)).size (place' + length)) ∧
    (i < size → c =
      if place' ≤ i ∧ i < place' + length then (files input).cells (place + (i - place'))
      else if i < (opened m (files output)).size then (opened m (files output)).cells i
      else 0) := by
  obtain ⟨result, ended, seen⟩ := Option.map_eq_some_iff.mp run
  obtain ⟨rfl, rfl⟩ := Prod.mk.inj seen
  obtain ⟨copied, -⟩ := right fuel result ended
  exact ⟨copied.size, copied.bytes i⟩

end Dd

end Trinux
