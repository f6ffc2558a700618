import Trinux.Lib.InsertionSort
import Trinux.Lib.TextLines
import Trinux.Shell.WordCount

namespace Trinux

open Bytes InsertionSort

/-!
# Sorting lines

`sort` reads at most 8191 bytes, up to the first zero, and sorts at most 256 lines.  Numbers are
compared by the sign of their difference, which has 32 bits, and repeated lines are left out only
next to each other, where lines that are the same number can stand between them.
-/

/-! ## The command -/

structure SortOptions where
  reverse : Bool
  uniq : Bool
  numeric : Bool
  file : Option (List UInt8)

def sortFlag (o : SortOptions) (f : UInt8) : SortOptions :=
  if f = 114 then { o with reverse := true }
  else if f = 117 then { o with uniq := true }
  else if f = 110 then { o with numeric := true }
  else o

def sortOptions (args : List (List UInt8)) : SortOptions :=
  args.foldl (fun o arg =>
    if isOptions arg then arg.tail.foldl sortFlag o else { o with file := some arg })
    ⟨false, false, false, none⟩

def gatherInput (platform : Platform) (driver : Nat) (caller : Caller)
    (path pipe : Option (List UInt8)) (bufsz : Nat) (storage : Storage) :
    Option (Option (List UInt8) × Storage) :=
  match path with
  | some path =>
      (vfsResolve storage.fs (.of path) caller.cwd).bind fun file =>
        match file with
        | none => some (none, storage)
        | some id =>
            match storage.fs.node id with
            | none => none
            | some node =>
                if node.type ≠ vfsFile then some (none, storage)
                else if !checkAccess caller.cred node accRead then some (none, storage)
                else (vfsRead platform driver storage id 0 (bufsz - 1)).map fun read =>
                  (some read.1, read.2)
  | none => some (pipe.map (List.take (bufsz - 1)), storage)

def sortBuf : Nat := 8192

def sortMaxLines : Nat := 256

def sortSplit : (room : Nat) → List UInt8 → List (List UInt8)
  | 0, _ => []
  | room + 1, p =>
      if p = [] then []
      else
        let line := p.takeWhile (· ≠ lineFeed)
        if lineFeed ∈ p then line :: sortSplit room (p.drop (line.length + 1)) else [line]

def strcmp : List UInt8 → List UInt8 → Int
  | a :: s, b :: t => if a = b then strcmp s t else a.toNat - b.toNat
  | a :: _, [] => a.toNat
  | [], b :: _ => -b.toNat
  | [], [] => 0

/-- The comparison in the inner loop: whether a line is moved behind the key. -/
def sortSwap (numeric reverse : Bool) (line key : List UInt8) : Bool :=
  let cmp := if numeric then (atoi line - atoi key).toBitVec.toInt else strcmp line key
  if reverse then cmp < 0 else 0 < cmp

def sortPrint (uniq : Bool) : (prev : Option (List UInt8)) → List (List UInt8) →
    List (List UInt8)
  | _, [] => []
  | prev, line :: rest =>
      if uniq && prev.any fun prev => strcmp prev line = 0 then sortPrint uniq prev rest
      else line :: sortPrint uniq (some line) rest

def sortKept (data : List UInt8) : List (List UInt8) :=
  sortSplit sortMaxLines ((data.take (sortBuf - 1)).takeWhile (· ≠ 0))

def sortLines (o : SortOptions) (kept : List (List UInt8)) : List (List UInt8) :=
  sortPrint o.uniq none (sortBack (sortSwap o.numeric o.reverse) kept).reverse

def cmdSort (platform : Platform) (driver : Nat) (caller : Caller) (args : List (List UInt8))
    (pipe : Option (List UInt8)) (storage : Storage) :
    Option (Option (List (List UInt8)) × Storage) :=
  let o := sortOptions args
  (gatherInput platform driver caller o.file pipe sortBuf storage).map fun gathered =>
    (gathered.1.map fun data => sortLines o (sortKept data), gathered.2)

/-! ## What it promises -/

def linesOf (text : List UInt8) : List (List UInt8) :=
  if (text.splitOn lineFeed).getLast? = some [] then (text.splitOn lineFeed).dropLast
  else text.splitOn lineFeed

def lineNumber (line : List UInt8) : Int := (atoi line).toBitVec.toInt

def textRank (line : List UInt8) : List Nat := line.map UInt8.toNat

def SortBefore (o : SortOptions) (first second : List UInt8) : Prop :=
  if o.numeric then
    if o.reverse then lineNumber second ≤ lineNumber first
    else lineNumber first ≤ lineNumber second
  else
    if o.reverse then textRank second ≤ textRank first else textRank first ≤ textRank second

/-- What is printed are all lines, or each of them once, in the order that was chosen. -/
structure SortsLines (o : SortOptions) (text : List UInt8) (out : List (List UInt8)) : Prop where
  lines : if o.uniq then out.Nodup ∧ ∀ line, line ∈ out ↔ line ∈ linesOf text
    else out.Perm (linesOf text)
  ordered : out.Pairwise (SortBefore o)

/-! ## When it keeps it -/

/-- A text of which all lines are kept: at most 8191 bytes, or one more if it is the line feed
behind a line that is not empty. -/
structure SortFits (text : List UInt8) : Prop where
  bytes : text.length < sortBuf ∨ text.length = sortBuf ∧
    ∃ front c, text = front ++ [c, lineFeed] ∧ c ≠ lineFeed
  plain : 0 ∉ text
  few : (linesOf text).length ≤ sortMaxLines

def SortKeeps (uniq : Bool) (text : List UInt8) : Prop :=
  if uniq then ∀ line, line ∈ sortKept text ↔ line ∈ linesOf text else SortFits text

def NumbersFit (first second : List UInt8) : Prop :=
  -2 ^ 31 ≤ lineNumber first - lineNumber second ∧ lineNumber first - lineNumber second < 2 ^ 31

def NumberBehind (reverse : Bool) (first second : List UInt8) : Prop :=
  if reverse then lineNumber first < lineNumber second else lineNumber second < lineNumber first

/-- The differences that the place of each line depends on have 32 bits: those to the earlier lines
that go behind it, and to the last of the others. -/
def DifferencesFit (reverse : Bool) (lines : List (List UInt8)) : Prop :=
  ∀ before key after, lines = before ++ key :: after →
    (∀ line ∈ before, NumberBehind reverse line key → NumbersFit line key) ∧
      ∀ line ∈ before, ¬NumberBehind reverse line key →
        (∀ other ∈ before, ¬NumberBehind reverse other key → ¬NumberBehind reverse other line) →
        NumbersFit line key

def NoReturn (lines : List (List UInt8)) : Prop :=
  ∀ first second, first ≠ second → lineNumber first = lineNumber second →
    ¬[first, second, first].Sublist lines

/-! ## The comparisons -/

section Comparison

theorem toNat_pos {c : UInt8} (some_ : c ≠ 0) : 0 < c.toNat := by
  rcases Nat.eq_zero_or_pos c.toNat with zero | positive
  · exact absurd (UInt8.toNat_inj.mp zero) some_
  · exact positive

theorem strcmp_sign (a b : List UInt8) (plain : 0 ∉ a) (plain' : 0 ∉ b) :
    (strcmp a b < 0 ↔ textRank a < textRank b) ∧ (strcmp a b = 0 ↔ a = b) := by
  induction a generalizing b with
  | nil =>
      cases b with
      | nil => exact ⟨iff_of_false (Int.lt_irrefl 0) (lt_irrefl _), iff_of_true rfl rfl⟩
      | cons c t =>
          have positive := toNat_pos fun zero => plain' (zero ▸ List.mem_cons_self)
          rw [strcmp]
          refine ⟨iff_of_true (by omega) (List.nil_lt_cons _ _), iff_of_false (by omega) ?_⟩
          exact (List.cons_ne_nil c t).symm
  | cons first rest known =>
      cases b with
      | nil =>
          rw [strcmp]
          have positive := toNat_pos fun zero => plain (zero ▸ List.mem_cons_self)
          refine ⟨iff_of_false (by omega) (List.not_lt_nil _), iff_of_false (by omega) ?_⟩
          exact List.cons_ne_nil first rest
      | cons c t =>
          have order : textRank (first :: rest) < textRank (c :: t) ↔
              first.toNat < c.toNat ∨ first.toNat = c.toNat ∧ textRank rest < textRank t :=
            List.cons_lt_cons_iff
          rw [strcmp, order]
          by_cases same : first = c
          · rcases known t (fun inside => plain (List.mem_cons_of_mem _ inside))
              (fun inside => plain' (List.mem_cons_of_mem _ inside)) with ⟨less, equal⟩
            rw [if_pos same, less, equal, same]
            simp
          · have different : first.toNat ≠ c.toNat := fun equal => same (UInt8.toNat_inj.mp equal)
            rw [if_neg same]
            constructor
            · omega
            · refine iff_of_false (by omega) fun equal => same ?_
              exact (List.cons.inj equal).1

theorem textRank_injective {a b : List UInt8} (same : textRank a = textRank b) : a = b :=
  List.map_injective_iff.mpr (fun _ _ equal => UInt8.toNat_inj.mp equal) same

theorem strcmp_pos (a b : List UInt8) (plain : 0 ∉ a) (plain' : 0 ∉ b) :
    0 < strcmp a b ↔ textRank b < textRank a := by
  rcases strcmp_sign a b plain plain' with ⟨less, equal⟩
  constructor
  · intro positive
    rcases lt_trichotomy (textRank a) (textRank b) with below | same | above
    · have negative := less.mpr below
      omega
    · have zero := equal.mpr (textRank_injective same)
      omega
    · exact above
  · intro above
    have negative : ¬strcmp a b < 0 := fun negative => lt_asymm above (less.mp negative)
    have zero : strcmp a b ≠ 0 := fun zero => by
      rw [equal.mp zero] at above
      exact lt_irrefl _ above
    omega

theorem strcmp_self (a : List UInt8) : strcmp a a = 0 := by
  induction a with
  | nil => rfl
  | cons c rest known =>
      rw [strcmp, if_pos rfl]
      exact known

theorem lineNumber_injective {a b : List UInt8} (same : lineNumber a = lineNumber b) :
    atoi a = atoi b :=
  UInt32.toBitVec_inj.mp (BitVec.toInt_inj.mp same)

theorem byRank_numbers (reverse : Bool) : ByRank lineNumber (sortSwap true reverse) where
  congr := fun same key => by simp only [sortSwap, if_true, lineNumber_injective same]
  still := fun {x key} same => by
    have zero : (atoi x - atoi key).toBitVec.toInt = 0 := by
      rw [lineNumber_injective same, UInt32.sub_self]
      rfl
    simp only [sortSwap, if_true, zero]
    cases reverse <;> rfl

theorem byRank_texts (reverse : Bool) : ByRank textRank (sortSwap false reverse) where
  congr := fun same key => by rw [textRank_injective same]
  still := fun {x key} same => by
    rw [textRank_injective same]
    simp only [sortSwap, Bool.false_eq_true, if_false, strcmp_self]
    cases reverse <;> rfl

/-- Two numbers are compared rightly exactly if their difference has 32 bits. -/
theorem numbers_swap (reverse : Bool) (line key : List UInt8) :
    (NumberBehind reverse line key → (sortSwap true reverse line key = true ↔
      NumbersFit line key)) ∧
    (¬NumberBehind reverse line key → (sortSwap true reverse line key = false ↔
      NumbersFit line key)) := by
  have low := (atoi line).toBitVec.le_toInt
  have high := (atoi line).toBitVec.toInt_lt
  have low' := (atoi key).toBitVec.le_toInt
  have high' := (atoi key).toBitVec.toInt_lt
  have difference : (atoi line - atoi key).toBitVec.toInt =
      (lineNumber line - lineNumber key).bmod (2 ^ 32) := by
    rw [UInt32.toBitVec_sub, BitVec.toInt_sub]
    rfl
  rw [NumberBehind, NumbersFit, sortSwap]
  simp only [if_true, difference, lineNumber] at *
  generalize (atoi line).toBitVec.toInt = first at *
  generalize (atoi key).toBitVec.toInt = second at *
  cases reverse with
  | true =>
      simp only [if_true, decide_eq_true_eq, decide_eq_false_iff_not]
      rw [Int.bmod_def]
      constructor
      · intro behind
        split <;> omega
      · intro behind
        split <;> omega
  | false =>
      simp only [Bool.false_eq_true, if_false, decide_eq_true_eq, decide_eq_false_iff_not]
      rw [Int.bmod_def]
      constructor
      · intro behind
        split <;> omega
      · intro behind
        split <;> omega

end Comparison

/-! ## What is printed -/

section Printed

variable {lines : List (List UInt8)}

theorem mem_sortBack (swap : List UInt8 → List UInt8 → Bool) (line : List UInt8) :
    line ∈ (sortBack swap lines).reverse ↔ line ∈ lines :=
  ((List.reverse_perm _).trans (sortBack_perm swap lines)).mem_iff

theorem sortPrint_all (prev : Option (List UInt8)) : sortPrint false prev lines = lines := by
  induction lines generalizing prev with
  | nil => rfl
  | cons line rest known =>
      rw [sortPrint, Bool.false_and, if_neg Bool.false_ne_true, known]

theorem sortPrint_once (plain : ∀ line ∈ lines, 0 ∉ line) {prev : Option (List UInt8)}
    (plain' : ∀ line ∈ prev, 0 ∉ line) :
    sortPrint true prev lines = withoutRepeats prev lines := by
  induction lines generalizing prev with
  | nil => rfl
  | cons line rest known =>
      rcases List.forall_mem_cons.mp plain with ⟨head, plain⟩
      have same : (true && prev.any fun prev => strcmp prev line = 0) = true ↔
          prev = some line := by
        cases prev with
        | none => simp
        | some text =>
            have equal := (strcmp_sign text line (plain' text rfl) head).2
            simp [equal]
      rw [sortPrint, withoutRepeats]
      by_cases again : prev = some line
      · rw [if_pos again, if_pos (same.mpr again), known plain plain']
      · rw [if_neg again, if_neg (mt same.mp again), known plain]
        intro text is
        cases is
        exact head

theorem sortPrint_eq (uniq : Bool) (plain : ∀ line ∈ lines, 0 ∉ line) :
    sortPrint uniq none lines = printed uniq lines := by
  cases uniq with
  | false => exact sortPrint_all none
  | true => exact sortPrint_once plain fun text inside => absurd inside (by simp)

/-- Numbers are sorted rightly if the differences have 32 bits. -/
theorem sortsRight_numbers {κ : Type} [LinearOrder κ] {rank : List UInt8 → κ} {reverse : Bool}
    (behind : ∀ x y, rank y < rank x ↔ NumberBehind reverse x y) :
    SortsRight rank (sortSwap true reverse) lines ↔ DifferencesFit reverse lines := by
  have before : ∀ x y, rank x ≤ rank y ↔ ¬NumberBehind reverse x y :=
    fun x y => by rw [← behind, not_lt]
  refine forall_congr' fun first => forall_congr' fun key => forall_congr' fun rest =>
    imp_congr_right fun _ => ?_
  constructor
  · rintro ⟨greater, greatest⟩
    refine ⟨fun line inside back => ?_, fun line inside front most => ?_⟩
    · exact ((numbers_swap reverse line key).1 back).mp
        (greater line inside ((behind line key).mpr back))
    · refine ((numbers_swap reverse line key).2 front).mp
        (greatest line inside ((before line key).mpr front) fun other there low => ?_)
      exact (before other line).mpr (most other there ((before other key).mp low))
  · rintro ⟨greater, greatest⟩
    refine ⟨fun line inside above => ?_, fun line inside below most => ?_⟩
    · have back := (behind line key).mp above
      exact ((numbers_swap reverse line key).1 back).mpr (greater line inside back)
    · have front := (before line key).mp below
      refine ((numbers_swap reverse line key).2 front).mpr
        (greatest line inside front fun other there low => ?_)
      exact (before other line).mp (most other there ((before other key).mpr low))

theorem sortsRight_texts {κ : Type} [LinearOrder κ] {rank : List UInt8 → κ} {reverse : Bool}
    (plain : ∀ line ∈ lines, 0 ∉ line)
    (behind : ∀ x y, 0 ∉ x → 0 ∉ y → (rank y < rank x ↔ sortSwap false reverse x y = true)) :
    SortsRight rank (sortSwap false reverse) lines := by
  rintro first key rest rfl
  have plain' : ∀ line ∈ first, 0 ∉ line :=
    fun line inside => plain line (List.mem_append_left _ inside)
  have keyPlain : 0 ∉ key := plain key (List.mem_append_right _ List.mem_cons_self)
  refine ⟨fun line inside above => (behind line key (plain' line inside) keyPlain).mp above,
    fun line inside below _ => ?_⟩
  rw [Bool.eq_false_iff]
  exact fun swaps => not_lt.mpr below ((behind line key (plain' line inside) keyPlain).mpr swaps)

def SameLines (uniq : Bool) (lines all : List (List UInt8)) : Prop :=
  if uniq then ∀ line, line ∈ lines ↔ line ∈ all else lines.Perm all

theorem sortLines_ranked {κ : Type} [LinearOrder κ] {rank : List UInt8 → κ} {o : SortOptions}
    (byRank : ByRank rank (sortSwap o.numeric o.reverse)) (plain : ∀ line ∈ lines, 0 ∉ line)
    (order : ∀ x y, rank x ≤ rank y ↔ SortBefore o x y) (text : List UInt8) :
    SortsLines o text (sortLines o lines) ↔ SameLines o.uniq lines (linesOf text) ∧
      SortsRight rank (sortSwap o.numeric o.reverse) lines ∧
      (o.uniq = true → ∀ first second, first ≠ second → rank first = rank second →
        ¬[first, second, first].Sublist lines) := by
  have printed_ : sortLines o lines =
      printed o.uniq (sortBack (sortSwap o.numeric o.reverse) lines).reverse :=
    sortPrint_eq o.uniq fun line inside => plain line ((mem_sortBack _ line).mp inside)
  have parts : SortsLines o text (sortLines o lines) ↔ _ ∧ _ :=
    ⟨fun sorts => ⟨sorts.lines, sorts.ordered⟩, fun sorts => ⟨sorts.1, sorts.2⟩⟩
  have relation : SortBefore o = fun x y => rank x ≤ rank y :=
    funext fun x => funext fun y => propext (order x y).symm
  rw [parts, printed_, relation]
  exact printed_iff byRank o.uniq (linesOf text)

/-- `sort` keeps its promise exactly if it has kept the lines, the differences of numbers that
matter have 32 bits and no line comes again behind another one of the same number. -/
theorem sortLines_iff (o : SortOptions) (plain : ∀ line ∈ lines, 0 ∉ line) (text : List UInt8) :
    SortsLines o text (sortLines o lines) ↔ SameLines o.uniq lines (linesOf text) ∧
      (o.numeric = true → DifferencesFit o.reverse lines ∧
        (o.uniq = true → NoReturn lines)) := by
  rcases o with ⟨reverse, uniq, numeric, file⟩
  have same : ∀ first second : List UInt8, textRank first = textRank second → first = second :=
    fun _ _ => textRank_injective
  cases numeric with
  | true =>
      simp only [true_implies]
      cases reverse with
      | true =>
          rw [sortLines_ranked (byRank_numbers true).dual plain (fun x y => Iff.rfl) text,
            sortsRight_numbers fun x y => Iff.rfl]
          exact Iff.rfl
      | false =>
          rw [sortLines_ranked (byRank_numbers false) plain (fun x y => Iff.rfl) text,
            sortsRight_numbers fun x y => Iff.rfl]
          exact Iff.rfl
  | false =>
      simp only [Bool.false_eq_true, false_implies, and_true]
      cases reverse with
      | true =>
          rw [sortLines_ranked (byRank_texts true).dual plain (fun x y => Iff.rfl) text]
          refine and_iff_left ⟨sortsRight_texts plain fun x y plain plain' => ?_, ?_⟩
          · simp only [sortSwap, Bool.false_eq_true, if_false, if_true, decide_eq_true_eq]
            exact (strcmp_sign x y plain plain').1.symm
          · exact fun _ first second different equal _ =>
              different (same first second (OrderDual.toDual_inj.mp equal))
      | false =>
          rw [sortLines_ranked (byRank_texts false) plain (fun x y => Iff.rfl) text]
          refine and_iff_left ⟨sortsRight_texts plain fun x y plain plain' => ?_, ?_⟩
          · simp only [sortSwap, Bool.false_eq_true, if_false, decide_eq_true_eq]
            exact (strcmp_pos x y plain plain').symm
          · exact fun _ first second different equal _ => different (same first second equal)

end Printed

/-! ## The lines that are kept -/

section Kept

theorem linesOf_last {p : List UInt8} (some_ : p ≠ []) (absent : lineFeed ∉ p) :
    linesOf p = [p] := by
  rw [linesOf, List.splitOn_eq_singleton absent, List.getLast?_singleton,
    if_neg fun same => some_ (Option.some.inj same)]

theorem linesOf_line {line : List UInt8} (absent : lineFeed ∉ line) (rest : List UInt8) :
    linesOf (line ++ lineFeed :: rest) = line :: linesOf rest := by
  have some_ : rest.splitOn lineFeed ≠ [] := List.splitOn_ne_nil lineFeed rest
  rw [linesOf, List.splitOn_append_cons_self_of_not_mem absent, linesOf]
  cases parts : rest.splitOn lineFeed with
  | nil => exact absurd parts some_
  | cons first others =>
      rw [List.getLast?_cons_cons, List.dropLast_cons_cons]
      split <;> rfl

/-- A text is empty, one line without its end, or a line with its end and the rest. -/
theorem lines_induction {motive : List UInt8 → Prop} (nil : motive [])
    (last : ∀ p, p ≠ [] → lineFeed ∉ p → motive p)
    (line : ∀ line rest, lineFeed ∉ line → motive rest → motive (line ++ lineFeed :: rest))
    (p : List UInt8) : motive p := by
  induction length : p.length using Nat.strong_induction_on generalizing p with
  | _ count known =>
      by_cases empty : p = []
      · exact empty ▸ nil
      by_cases ends : lineFeed ∈ p
      · rcases List.eq_append_cons_of_mem ends with ⟨front, rest, rfl, absent⟩
        refine line front rest absent (known rest.length ?_ rest rfl)
        rw [← length, List.length_append, List.length_cons]
        omega
      · exact last p empty ends

theorem takeWhile_line {line : List UInt8} (absent : lineFeed ∉ line) (rest : List UInt8) :
    (line ++ lineFeed :: rest).takeWhile (· ≠ lineFeed) = line := by
  induction line with
  | nil => simp
  | cons c line known =>
      rcases not_or.mp (mt List.mem_cons.mpr absent) with ⟨different, absent⟩
      rw [List.cons_append, List.takeWhile_cons_of_pos (by simpa using Ne.symm different),
        known absent]

theorem sortSplit_eq (p : List UInt8) (room : Nat) :
    sortSplit room p = (linesOf p).take room := by
  induction p using lines_induction generalizing room with
  | nil => cases room <;> rfl
  | last p some_ absent =>
      cases room with
      | zero => rfl
      | succ room =>
          have whole : p.takeWhile (· ≠ lineFeed) = p := by
            rw [List.takeWhile_eq_self_iff]
            intro c inside
            simpa using fun same : c = lineFeed => absent (same ▸ inside)
          rw [sortSplit, if_neg some_, if_neg absent, linesOf_last some_ absent, whole,
            List.take_succ_cons, List.take_nil]
  | line line rest absent known =>
      cases room with
      | zero => rfl
      | succ room =>
          have behind : (line ++ lineFeed :: rest).drop (line.length + 1) = rest := by
            simp [List.drop_append]
          rw [sortSplit, if_neg (by simp), if_pos (by simp), takeWhile_line absent, behind,
            linesOf_line absent, List.take_succ_cons, known]

theorem mem_of_mem_linesOf {p line : List UInt8} {c : UInt8} (listed : line ∈ linesOf p)
    (inside : c ∈ line) : c ∈ p := by
  induction p using lines_induction with
  | nil => cases listed
  | last p some_ absent =>
      rw [linesOf_last some_ absent, List.mem_singleton] at listed
      exact listed ▸ inside
  | line first rest absent known =>
      rw [linesOf_line absent] at listed
      rcases List.mem_cons.mp listed with same | listed
      · exact List.mem_append_left _ (same ▸ inside)
      · exact List.mem_append_right _ (List.mem_cons_of_mem _ (known listed))

theorem exists_mem_linesOf {p : List UInt8} {c : UInt8} (inside : c ∈ p) (inner : c ≠ lineFeed) :
    ∃ line ∈ linesOf p, c ∈ line := by
  induction p using lines_induction with
  | nil => cases inside
  | last p some_ absent =>
      rw [linesOf_last some_ absent]
      exact ⟨p, List.mem_singleton_self p, inside⟩
  | line first rest absent known =>
      rw [linesOf_line absent]
      rcases List.mem_append.mp inside with front | back
      · exact ⟨first, List.mem_cons_self, front⟩
      · rcases List.mem_cons.mp back with same | back
        · exact absurd same inner
        · rcases known back with ⟨line, listed, there⟩
          exact ⟨line, List.mem_cons_of_mem _ listed, there⟩

/-- The lines with a line feed each are as long as the text, or longer by the last of them. -/
theorem weight_linesOf (p : List UInt8) :
    TextLines.weight (linesOf p) =
      p.length + if p = [] ∨ p.getLast? = some lineFeed then 0 else 1 := by
  induction p using lines_induction with
  | nil => rfl
  | last p some_ absent =>
      have ends : ¬(p = [] ∨ p.getLast? = some lineFeed) := by
        rintro (empty | last)
        · exact some_ empty
        · exact absent (List.mem_of_getLast? last)
      rw [linesOf_last some_ absent, if_neg ends]
      rfl
  | line line rest absent known =>
      have last : (line ++ lineFeed :: rest = [] ∨
          (line ++ lineFeed :: rest).getLast? = some lineFeed) ↔
            rest = [] ∨ rest.getLast? = some lineFeed := by
        cases rest with
        | nil => simp
        | cons c rest => simp
      simp only [last]
      rw [linesOf_line absent, TextLines.weight_cons, known, List.length_append, List.length_cons]
      omega

/-- A line feed behind a line that is not empty ends that line. -/
theorem linesOf_snoc (front : List UInt8) {c : UInt8} (inner : c ≠ lineFeed) :
    linesOf (front ++ [c, lineFeed]) = linesOf (front ++ [c]) := by
  induction front using lines_induction with
  | nil =>
      have absent : lineFeed ∉ [c] := fun inside => inner (List.mem_singleton.mp inside).symm
      exact (linesOf_line absent []).trans (linesOf_last (List.cons_ne_nil c []) absent).symm
  | last p some_ absent =>
      have absent' : lineFeed ∉ p ++ [c] := by
        intro inside
        rcases List.mem_append.mp inside with inside | inside
        · exact absent inside
        · exact inner (List.mem_singleton.mp inside).symm
      have line := linesOf_line absent' []
      rw [List.append_assoc] at line
      exact line.trans (linesOf_last (by simp) absent').symm
  | line line rest absent known =>
      rw [List.append_assoc, List.cons_append, linesOf_line absent, known, List.append_assoc,
        List.cons_append, linesOf_line absent]

theorem sortKept_plain (data : List UInt8) : ∀ line ∈ sortKept data, 0 ∉ line := by
  intro line listed inside
  rw [sortKept, sortSplit_eq] at listed
  have there := mem_of_mem_linesOf (List.mem_of_mem_take listed) inside
  have some_ := @List.mem_takeWhile_imp _ (· ≠ (0 : UInt8)) _ _ there
  simp at some_

theorem takeWhile_plain {text : List UInt8} (plain : 0 ∉ text) (count : Nat) :
    (text.take count).takeWhile (· ≠ 0) = text.take count := by
  rw [List.takeWhile_eq_self_iff]
  intro c inside
  simpa using fun zero : c = 0 => plain (zero ▸ List.mem_of_mem_take inside)

theorem sortKept_perm_iff (text : List UInt8) :
    (sortKept text).Perm (linesOf text) ↔ SortFits text := by
  constructor
  · intro perm
    have plain : 0 ∉ text := by
      intro inside
      rcases exists_mem_linesOf inside (by decide) with ⟨line, listed, there⟩
      exact sortKept_plain text line (perm.mem_iff.mpr listed) there
    have kept : sortKept text = (linesOf (text.take (sortBuf - 1))).take sortMaxLines := by
      rw [sortKept, takeWhile_plain plain, sortSplit_eq]
    have few : (linesOf text).length ≤ sortMaxLines := by
      rw [← perm.length_eq, kept, List.length_take]
      exact Nat.min_le_left _ _
    refine ⟨?_, plain, few⟩
    rcases Nat.lt_or_ge text.length sortBuf with short | long
    · exact Or.inl short
    have buf : sortBuf - 1 + 1 = sortBuf := rfl
    have front : (text.take (sortBuf - 1)).length = sortBuf - 1 := by
      rw [List.length_take]
      omega
    have weights : TextLines.weight (linesOf text) ≤
        TextLines.weight (linesOf (text.take (sortBuf - 1))) := by
      have same : TextLines.weight (sortKept text) = TextLines.weight (linesOf text) :=
        TextLines.weight_perm perm
      rw [← same, kept]
      exact TextLines.weight_take_le _ _
    rw [weight_linesOf, weight_linesOf, front] at weights
    have outer : text = [] ∨ text.getLast? = some lineFeed := by
      by_contra other
      rw [if_neg other] at weights
      split at weights <;> omega
    have inner : ¬(text.take (sortBuf - 1) = [] ∨
        (text.take (sortBuf - 1)).getLast? = some lineFeed) := by
      intro other
      rw [if_pos other] at weights
      omega
    rw [if_pos outer, if_neg inner] at weights
    have length : text.length = sortBuf := by omega
    rcases not_or.mp inner with ⟨some_, inner⟩
    have last : text.getLast? = some lineFeed := by
      rcases outer with rfl | last
      · cases length
      · exact last
    have whole : text.take (sortBuf - 1) ++ [lineFeed] = text := by
      rw [← length, ← List.dropLast_eq_take]
      exact List.dropLast_append_getLast? lineFeed last
    rcases List.eq_nil_or_concat (text.take (sortBuf - 1)) with empty | ⟨front, c, cut⟩
    · exact absurd empty some_
    rw [List.concat_eq_append] at cut
    refine Or.inr ⟨length, front, c, ?_, fun same => inner ?_⟩
    · rw [← whole, cut, List.append_assoc]
      rfl
    · rw [cut, List.getLast?_append, same]
      rfl
  · rintro ⟨bytes, plain, few⟩
    have same : linesOf (text.take (sortBuf - 1)) = linesOf text := by
      rcases bytes with short | ⟨length, front, c, rfl, inner⟩
      · rw [List.take_of_length_le (by omega)]
      · have cut : (front ++ [c, lineFeed]).take (sortBuf - 1) = front ++ [c] := by
          rw [List.length_append] at length
          have front_ : front.length + 1 = sortBuf - 1 := by
            simp at length
            omega
          rw [← front_]
          simp [List.take_append]
        rw [cut, linesOf_snoc front inner]
    rw [sortKept, takeWhile_plain plain, sortSplit_eq, same, List.take_of_length_le few]

theorem sameLines_kept_iff (uniq : Bool) (text : List UInt8) :
    SameLines uniq (sortKept text) (linesOf text) ↔ SortKeeps uniq text := by
  rw [SameLines, SortKeeps]
  cases uniq with
  | true => exact Iff.rfl
  | false => exact sortKept_perm_iff text

end Kept

/-! ## The input -/

/-- The input of `sort`: the text of a pipe, or a file that holds its bytes and can be read. -/
def SortInput (platform : Platform) (caller : Caller) (args : List (List UInt8))
    (pipe : Option (List UInt8)) (storage : Storage) (text : List UInt8) : Prop :=
  ((sortOptions args).file = none ∧ pipe = some text) ∨
    ∃ path id node, (sortOptions args).file = some path ∧
      NamesFile caller path storage id node text ∧ node.type = vfsFile ∧
      checkAccess caller.cred node accRead = true ∧
      platform.faults.SparesReads storage.store node.blockList

section Input

variable {platform : Platform} {driver : Nat} {caller : Caller} {args : List (List UInt8)}
  {pipe : Option (List UInt8)} {storage : Storage} {text : List UInt8}

theorem gatherInput_input (input : SortInput platform caller args pipe storage text)
    (bufsz : Nat) :
    gatherInput platform driver caller (sortOptions args).file pipe bufsz storage =
      some (some (text.take (bufsz - 1)), storage) := by
  rcases input with ⟨none_, rfl⟩ | ⟨path, id, node, file, names, isFile, permitted, healthy⟩
  · rw [none_]
    rfl
  · rw [file, gatherInput, names.path, Option.bind_some]
    dsimp only
    rw [names.found]
    dsimp only
    rw [if_neg (not_not.mpr isFile), if_neg (by simp [permitted]),
      vfsRead_healthy names.found names.holds healthy]
    rfl

theorem sortKept_take (text : List UInt8) : sortKept (text.take (sortBuf - 1)) = sortKept text := by
  rw [sortKept, sortKept, List.take_take, Nat.min_self]

/-- `sort` prints the lines of its input as it should exactly if it keeps all of them, and for
numbers if the differences that matter have 32 bits and, with repeats left out, no line comes again
behind another one of the same number. -/
theorem cmdSort_sorts_iff (input : SortInput platform caller args pipe storage text) :
    ∃ out, cmdSort platform driver caller args pipe storage = some (some out, storage) ∧
      (SortsLines (sortOptions args) text out ↔
        SortKeeps (sortOptions args).uniq text ∧ ((sortOptions args).numeric = true →
          DifferencesFit (sortOptions args).reverse (sortKept text) ∧
            ((sortOptions args).uniq = true → NoReturn (sortKept text)))) := by
  refine ⟨sortLines (sortOptions args) (sortKept text), ?_, ?_⟩
  · rw [cmdSort, gatherInput_input input]
    change some (some (sortLines _ (sortKept (text.take (sortBuf - 1)))), storage) = _
    rw [sortKept_take]
  · rw [sortLines_iff (sortOptions args) (sortKept_plain text) text, sameLines_kept_iff]

theorem cmdSort_sorts_iff_two :
    ∃ storage, threeBytes = some storage ∧
      ∃ out, cmdSort .ideal 0 rootCaller [literal "-n"] (some (literal "2\n1\n")) storage =
          some (some out, storage) ∧
        (SortsLines (sortOptions [literal "-n"]) (literal "2\n1\n") out ↔
          SortKeeps (sortOptions [literal "-n"]).uniq (literal "2\n1\n") ∧
            ((sortOptions [literal "-n"]).numeric = true →
              DifferencesFit (sortOptions [literal "-n"]).reverse
                  (sortKept (literal "2\n1\n")) ∧
                ((sortOptions [literal "-n"]).uniq = true →
                  NoReturn (sortKept (literal "2\n1\n"))))) := by
  rcases (Option.any_eq_true _ _).mp threeBytes_lost with ⟨storage, ran, -⟩
  exact ⟨storage, ran, cmdSort_sorts_iff (Or.inl ⟨by decide, rfl⟩)⟩

/-! ## Two numbers that are far apart -/

def farNumbers : List UInt8 := literal "2147483647\n-1\n"

theorem farNumbers_kept :
    sortLines (sortOptions [literal "-n"]) (sortKept farNumbers) =
      [literal "2147483647", literal "-1"] := by
  decide

theorem cmdSort_farNumbers :
    ¬∀ platform driver caller args pipe storage text,
      SortInput platform caller args pipe storage text →
      ∃ out, cmdSort platform driver caller args pipe storage = some (some out, storage) ∧
        SortsLines (sortOptions args) text out := by
  intro promise
  rcases (Option.any_eq_true _ _).mp threeBytes_lost with ⟨storage, -, -⟩
  rcases promise .ideal 0 rootCaller [literal "-n"] (some farNumbers) storage farNumbers
    (Or.inl ⟨by decide, rfl⟩) with ⟨out, ran, sorts⟩
  have printed_ : out = sortLines (sortOptions [literal "-n"]) (sortKept farNumbers) := by
    rw [cmdSort, gatherInput_input (Or.inl ⟨by decide, rfl⟩), Option.map_some, Option.some_inj,
      Prod.mk.injEq] at ran
    have same := ran.1
    rw [Option.map_some, Option.some_inj, sortKept_take] at same
    exact same.symm
  rw [printed_, farNumbers_kept] at sorts
  have order := List.pairwise_pair.mp sorts.ordered
  have greater : lineNumber (literal "2147483647") ≤ lineNumber (literal "-1") := order
  exact absurd greater (by decide)

end Input

end Trinux
