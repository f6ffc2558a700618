import Trinux.Auth.UserFiles
import Trinux.Shell.Copy

namespace Trinux

open Bytes

/-!
# Counting words

`wc` reads a file in chunks of 4096 bytes and counts in each of them anew whether it is inside of a
word.  A word that lies across the end of a chunk is therefore counted once more.
-/

/-! ## The command -/

@[ext]
structure WcCounts where
  lines : UInt32
  words : UInt32
  chars : UInt32
deriving DecidableEq

def wcByte (state : Bool × WcCounts) (c : UInt8) : Bool × WcCounts :=
  let counted : WcCounts :=
    { state.2 with chars := state.2.chars + 1
                   lines := if c = lineFeed then state.2.lines + 1 else state.2.lines }
  if isspace c then (false, counted)
  else if !state.1 then (true, { counted with words := counted.words + 1 })
  else (true, counted)

def wcCount (buf : List UInt8) (counts : WcCounts) : WcCounts :=
  (buf.foldl wcByte (false, counts)).2

def wcLoop (driver id : Nat) : (fuel : Nat) → (stages : Nat → Platform) → (off : Nat) →
    WcCounts → Storage → Option (WcCounts × Storage)
  | 0, _, _, _, _ => none
  | fuel + 1, stages, off, counts, storage =>
      (vfsRead (stages 0) driver storage id off readBuf).bind fun read =>
        if read.1.length = 0 then some (counts, read.2)
        else if read.1.length < readBuf then some (wcCount read.1 counts, read.2)
        else wcLoop driver id fuel (fun stage => stages (stage + 1)) (u32 (off + read.1.length))
          (wcCount read.1 counts) read.2

/-- `cmd_wc` with the text of a pipe or with one argument: what it prints, if it is no error. -/
def cmdWc (driver fuel : Nat) (stages : Nat → Platform) (cwd : Option Nat)
    (pipe : Option (List UInt8)) (arg : Option (List UInt8)) (storage : Storage) :
    Option (Option WcCounts × Storage) :=
  match arg with
  | none => some (pipe.map fun text => wcCount text ⟨0, 0, 0⟩, storage)
  | some path =>
      (vfsResolve storage.fs (.of path) cwd).bind fun file =>
        match file with
        | none => some (none, storage)
        | some id =>
            match storage.fs.node id with
            | none => none
            | some node =>
                if node.type ≠ vfsFile then some (none, storage)
                else (wcLoop driver id fuel stages 0 ⟨0, 0, 0⟩ storage).map fun counted =>
                  (some counted.1, counted.2)

/-! ## Counting part by part -/

def WcCounts.addWords (counts : WcCounts) (more : Nat) : WcCounts :=
  { counts with words := counts.words + UInt32.ofNat more }

theorem WcCounts.addWords_zero (counts : WcCounts) : counts.addWords 0 = counts := by
  apply WcCounts.ext
  · rfl
  · exact UInt32.add_zero counts.words
  · rfl

theorem WcCounts.addWords_add (counts : WcCounts) (first second : Nat) :
    (counts.addWords first).addWords second = counts.addWords (first + second) := by
  apply WcCounts.ext
  · rfl
  · simp only [WcCounts.addWords, UInt32.ofNat_add, UInt32.add_assoc]
  · rfl

/-- More words are counted independently of what is counted. -/
theorem foldl_wcByte_addWords (buf : List UInt8) (inword : Bool) (counts : WcCounts) (more : Nat) :
    buf.foldl wcByte (inword, counts.addWords more) =
      ((buf.foldl wcByte (inword, counts)).1,
        (buf.foldl wcByte (inword, counts)).2.addWords more) := by
  induction buf generalizing inword counts with
  | nil => rfl
  | cons c rest known =>
      have step : wcByte (inword, counts.addWords more) c =
          ((wcByte (inword, counts) c).1, (wcByte (inword, counts) c).2.addWords more) := by
        cases space : isspace c with
        | true => simp [wcByte, space, WcCounts.addWords]
        | false =>
            cases inword with
            | true => simp [wcByte, space, WcCounts.addWords]
            | false =>
                simp only [wcByte, space, WcCounts.addWords, Bool.false_eq_true, if_false,
                  Bool.not_false, if_true, Prod.mk.injEq, WcCounts.mk.injEq, true_and, and_true]
                rw [UInt32.add_assoc, UInt32.add_comm (UInt32.ofNat more), UInt32.add_assoc]
      rw [List.foldl_cons, List.foldl_cons, step]
      exact known _ _

def isWordByte (c : Option UInt8) : Bool := c.any fun c => !isspace c

/-- The loop is inside of a word behind a byte that is no white space. -/
theorem foldl_wcByte_inword (buf : List UInt8) (inword : Bool) (counts : WcCounts)
    (some_ : buf ≠ []) :
    (buf.foldl wcByte (inword, counts)).1 = isWordByte buf.getLast? := by
  induction buf generalizing inword counts with
  | nil => exact absurd rfl some_
  | cons c rest known =>
      rw [List.foldl_cons]
      cases rest with
      | nil =>
          cases space : isspace c with
          | true => simp [wcByte, space, isWordByte]
          | false => cases inword <;> simp [wcByte, space, isWordByte]
      | cons next rest =>
          rw [List.getLast?_cons_cons]
          exact known _ _ (List.cons_ne_nil next rest)

/-- A word goes on in a second part if it is inside of one at the end of the first and the second
starts with a byte of a word. -/
theorem foldl_wcByte_start (buf : List UInt8) (counts : WcCounts) :
    (buf.foldl wcByte (false, counts)).2 =
      (buf.foldl wcByte (true, counts)).2.addWords (if isWordByte buf.head? then 1 else 0) := by
  cases buf with
  | nil => exact (WcCounts.addWords_zero counts).symm
  | cons c rest =>
      rw [List.foldl_cons, List.foldl_cons]
      cases space : isspace c with
      | true =>
          simp only [wcByte, space, if_true, isWordByte, List.head?_cons, Option.any_some,
            Bool.not_true, Bool.false_eq_true, if_false, WcCounts.addWords_zero]
      | false =>
          have more : wcByte (false, counts) c =
              (true, (wcByte (true, counts) c).2.addWords 1) := by
            simp [wcByte, space, WcCounts.addWords]
          have same : wcByte (true, counts) c = (true, (wcByte (true, counts) c).2) := by
            simp [wcByte, space]
          rw [more, foldl_wcByte_addWords, ← same]
          simp [isWordByte, space]

/-- Counting two parts one by one counts a word more than counting them at once if the word lies
across the cut. -/
theorem wcCount_append (front back : List UInt8) (counts : WcCounts) :
    wcCount back (wcCount front counts) =
      (wcCount (front ++ back) counts).addWords
        (if isWordByte front.getLast? && isWordByte back.head? then 1 else 0) := by
  simp only [wcCount, List.foldl_append]
  by_cases empty : front = []
  · rw [empty]
    simp [isWordByte, WcCounts.addWords_zero]
  have inside := foldl_wcByte_inword front false counts empty
  generalize front.foldl wcByte (false, counts) = state at inside
  rcases state with ⟨inword, counted⟩
  change inword = _ at inside
  rw [← inside]
  cases inword with
  | true => exact foldl_wcByte_start back counted
  | false => exact (WcCounts.addWords_zero _).symm

theorem wcCount_addWords (buf : List UInt8) (counts : WcCounts) (more : Nat) :
    wcCount buf (counts.addWords more) = (wcCount buf counts).addWords more := by
  rw [wcCount, foldl_wcByte_addWords]
  rfl

/-! ## Counting in chunks -/

def wordAcross (bytes : List UInt8) (position : Nat) : Bool :=
  isWordByte (bytes.take position).getLast? && isWordByte (bytes.drop position).head?

def wordsAcross (bytes : List UInt8) (chunks : Nat) : Nat :=
  (List.range chunks).countP fun chunk => wordAcross bytes (chunk * readBuf)

theorem wordsAcross_succ (bytes : List UInt8) (chunks : Nat) :
    wordsAcross bytes (chunks + 1) =
      wordsAcross bytes chunks + (if wordAcross bytes (chunks * readBuf) then 1 else 0) := by
  rw [wordsAcross, List.range_succ, List.countP_append, List.countP_singleton]
  rfl

theorem wordAcross_behind {bytes : List UInt8} {position : Nat} (behind : bytes.length ≤ position) :
    wordAcross bytes position = false := by
  rw [wordAcross, List.drop_eq_nil_of_le behind]
  exact Bool.and_false _

theorem wcCount_chunk (bytes : List UInt8) (off size more : Nat) (counts : WcCounts) :
    wcCount (slice bytes off size) ((wcCount (bytes.take off) counts).addWords more) =
      (wcCount (bytes.take (off + size)) counts).addWords
        (more + (if wordAcross bytes off && decide (0 < size) then 1 else 0)) := by
  have parts : bytes.take (off + size) = bytes.take off ++ slice bytes off size := List.take_add
  have head : isWordByte (slice bytes off size).head? =
      (isWordByte (bytes.drop off).head? && decide (0 < size)) := by
    rw [slice]
    cases size with
    | zero => rw [List.take_zero]; simp [isWordByte]
    | succ size => cases bytes.drop off <;> simp [isWordByte]
  rw [wcCount_addWords, wcCount_append, ← parts, WcCounts.addWords_add, head, wordAcross,
    Nat.add_comm more, Bool.and_assoc]

section Loop

variable {driver id : Nat} {node : VfsNode} {bytes : List UInt8} {storage : Storage}

theorem vfsRead_healthy {platform : Platform} (found : storage.fs.node id = some node)
    (holds : node.HoldsBytes storage.store storage.disk bytes)
    (healthy : platform.faults.SparesReads storage.store node.blockList) (off size : Nat) :
    vfsRead platform driver storage id off size = some (slice bytes off size, storage) := by
  rw [vfsRead, found]
  simp only [holds.ordinary]
  rw [ramfsRead_healthy found holds healthy]
  rfl

/-- The loop counts every word that lies across the end of a chunk once more. -/
theorem wcLoop_counts (fuel : Nat) :
    ∀ {stages : Nat → Platform} {chunk : Nat}, storage.fs.node id = some node →
      node.HoldsBytes storage.store storage.disk bytes →
      (∀ stage, (stages stage).faults.SparesReads storage.store node.blockList) →
      chunk * readBuf ≤ bytes.length → bytes.length < chunk * readBuf + fuel * readBuf →
      ∃ chunks, bytes.length ≤ chunks * readBuf ∧ chunks * readBuf ≤ bytes.length + readBuf ∧
        wcLoop driver id fuel stages (chunk * readBuf)
            ((wcCount (bytes.take (chunk * readBuf)) ⟨0, 0, 0⟩).addWords (wordsAcross bytes chunk))
            storage =
          some ((wcCount bytes ⟨0, 0, 0⟩).addWords (wordsAcross bytes chunks), storage) := by
  induction fuel with
  | zero =>
      intro stages chunk _ _ _ inside enough
      omega
  | succ fuel known =>
      intro stages chunk found holds healthy inside enough
      have length : (slice bytes (chunk * readBuf) readBuf).length =
          min readBuf (bytes.length - chunk * readBuf) := by
        rw [slice, List.length_take, List.length_drop]
      have positive : 0 < readBuf := by decide
      have next : (chunk + 1) * readBuf = chunk * readBuf + readBuf := Nat.succ_mul _ _
      have counted := wcCount_chunk bytes (chunk * readBuf) readBuf (wordsAcross bytes chunk)
        ⟨0, 0, 0⟩
      rw [decide_eq_true positive, Bool.and_true, ← wordsAcross_succ] at counted
      rw [wcLoop, vfsRead_healthy found holds (healthy 0), Option.bind_some]
      dsimp only
      by_cases empty : (slice bytes (chunk * readBuf) readBuf).length = 0
      · rw [if_pos empty]
        refine ⟨chunk, by omega, by omega, ?_⟩
        rw [List.take_of_length_le (by omega)]
      rw [if_neg empty, counted]
      by_cases short : (slice bytes (chunk * readBuf) readBuf).length < readBuf
      · rw [if_pos short]
        refine ⟨chunk + 1, by omega, by omega, ?_⟩
        rw [List.take_of_length_le (by omega)]
      rw [if_neg short]
      have whole : u32 (chunk * readBuf + (slice bytes (chunk * readBuf) readBuf).length) =
          (chunk + 1) * readBuf := by
        have below : bytes.length < 2 ^ 32 := by
          rw [← holds.size]
          exact node.size.toNat_lt
        rw [u32, Nat.mod_eq_of_lt (by omega)]
        omega
      rw [whole, ← next]
      exact known found holds (fun stage => healthy (stage + 1)) (by omega)
        (by rw [Nat.succ_mul] at enough; omega)

/-- No word lies across the end of a chunk if the count over all chunks is zero. -/
theorem wordsAcross_eq_zero {chunks : Nat} (all : bytes.length ≤ chunks * readBuf) :
    wordsAcross bytes chunks = 0 ↔ ∀ chunk, wordAcross bytes (chunk * readBuf) = false := by
  rw [wordsAcross, List.countP_eq_zero]
  constructor
  · intro none_ chunk
    by_cases inside : chunk < chunks
    · exact Bool.eq_false_iff.mpr (none_ chunk (List.mem_range.mpr inside))
    · exact wordAcross_behind (Nat.le_trans all (Nat.mul_le_mul_right _ (Nat.le_of_not_lt inside)))
  · intro none_ chunk _
    rw [none_ chunk]
    exact Bool.false_ne_true

theorem WcCounts.addWords_eq_self (counts : WcCounts) {more : Nat} (small : more < 2 ^ 32) :
    counts.addWords more = counts ↔ more = 0 := by
  constructor
  · intro same
    have words : counts.words + UInt32.ofNat more = counts.words + 0 := by
      rw [UInt32.add_zero]
      exact congrArg WcCounts.words same
    have zero := (UInt32.add_right_inj _).mp words
    have value := congrArg UInt32.toNat zero
    rw [UInt32.toNat_ofNat', Nat.mod_eq_of_lt small] at value
    exact value
  · rintro rfl
    exact counts.addWords_zero

theorem cmdWc_counts {stages : Nat → Platform} {fuel : Nat} {caller : Caller}
    {path : List UInt8} {pipe : Option (List UInt8)}
    (names : NamesFile caller path storage id node bytes) (isFile : node.type = vfsFile)
    (healthy : ∀ stage, (stages stage).faults.SparesReads storage.store node.blockList)
    (enough : bytes.length < fuel * readBuf) :
    ∃ chunks, bytes.length ≤ chunks * readBuf ∧ chunks * readBuf ≤ bytes.length + readBuf ∧
      cmdWc driver fuel stages caller.cwd pipe (some path) storage =
        some (some ((wcCount bytes ⟨0, 0, 0⟩).addWords (wordsAcross bytes chunks)), storage) := by
  rcases @wcLoop_counts driver id node bytes storage fuel stages 0 names.found names.holds healthy
    (by omega) (by omega) with ⟨chunks, all, few, counted⟩
  refine ⟨chunks, all, few, ?_⟩
  have start : (wcCount (bytes.take (0 * readBuf)) ⟨0, 0, 0⟩).addWords (wordsAcross bytes 0) =
      ⟨0, 0, 0⟩ := by
    rw [Nat.zero_mul, List.take_zero]
    rfl
  rw [start, Nat.zero_mul] at counted
  rw [cmdWc, names.path, Option.bind_some]
  dsimp only
  rw [names.found]
  dsimp only
  rw [if_neg (not_not_intro isFile), counted]
  rfl

/-- `wc` reports the numbers of the whole content exactly if no word lies across the end of a
chunk. -/
theorem cmdWc_whole_iff {stages : Nat → Platform} {fuel : Nat} {caller : Caller}
    {path : List UInt8} {pipe : Option (List UInt8)}
    (names : NamesFile caller path storage id node bytes) (isFile : node.type = vfsFile)
    (healthy : ∀ stage, (stages stage).faults.SparesReads storage.store node.blockList)
    (enough : bytes.length < fuel * readBuf) :
    cmdWc driver fuel stages caller.cwd pipe (some path) storage =
        some (some (wcCount bytes ⟨0, 0, 0⟩), storage) ↔
      ∀ chunk, wordAcross bytes (chunk * readBuf) = false := by
  rcases @cmdWc_counts driver id node bytes storage stages fuel caller path pipe names isFile
    healthy enough with ⟨chunks, all, few, counted⟩
  have below : bytes.length < 2 ^ 32 := by
    rw [← names.holds.size]
    exact node.size.toNat_lt
  have small : wordsAcross bytes chunks < 2 ^ 32 := by
    have most : wordsAcross bytes chunks ≤ chunks := by
      have bound := @List.countP_le_length _ (fun chunk => wordAcross bytes (chunk * readBuf))
        (List.range chunks)
      rwa [List.length_range] at bound
    rw [readBuf] at few
    omega
  rw [counted, Option.some_inj, Prod.mk.injEq, Option.some_inj, ← wordsAcross_eq_zero all,
    ← WcCounts.addWords_eq_self (wcCount bytes ⟨0, 0, 0⟩) small]
  exact and_iff_left rfl

end Loop

/-! ## A word of 4097 bytes -/

def longWord : List UInt8 := List.replicate 4097 97

def longWordFile : Option Storage := rootRun [.writeFile (.of (literal "/tmp/a")) longWord]

def Storage.HasLongWord (storage : Storage) : Prop :=
  vfsResolve storage.fs (.of (literal "/tmp/a")) none = some (some 17) ∧
    storage.store.available = false ∧
    ((storage.fs.node 17).any fun node => node.ops = .ramfs ∧ node.type = vfsFile ∧
      node.size = 4097 ∧ node.diskBacked = false ∧ node.blockList = [] ∧ 4097 ≤ node.capacity ∧
      (node.data.getD []).take 4097 = longWord) = true

instance (storage : Storage) : Decidable storage.HasLongWord :=
  inferInstanceAs (Decidable (_ ∧ _ ∧ _))

set_option maxRecDepth 20000 in
theorem longWordFile_has :
    (longWordFile.any fun storage => storage.HasLongWord) = true := by
  rw [longWordFile, rootRun, boot_ideal]
  decide +kernel

theorem longWord_length : longWord.length = 4097 := List.length_replicate

theorem Storage.HasLongWord.names {storage : Storage} (has : storage.HasLongWord) :
    ∃ node, NamesFile rootCaller (literal "/tmp/a") storage 17 node longWord ∧
      node.type = vfsFile ∧ node.blockList = [] := by
  rcases has with ⟨resolved, unavailable, file⟩
  rcases (Option.any_eq_true _ _).mp file with ⟨node, found, fields⟩
  simp only [decide_eq_true_eq] at fields
  rcases fields with ⟨ops, type, size, backed, blocks, capacity, content⟩
  refine ⟨node, ⟨resolved, found, by rw [type]; decide, ⟨ops, ?_, fun available => ?_,
    fun disk => ?_, fun _ => ⟨blocks, ?_⟩, fun position inside => ?_⟩⟩, type, blocks⟩
  · rw [size, longWord_length]
    rfl
  · rw [unavailable] at available
    cases available
  · rw [backed] at disk
    cases disk
  · rw [longWord_length]
    exact capacity
  · rw [longWord_length] at inside
    rw [VfsNode.contentByte, backed, ← content, byte, byte, List.getD_eq_getElem?_getD,
      List.getD_eq_getElem?_getD, List.getElem?_take_of_lt inside]
    rfl

/-- The long word lies across the end of the first chunk. -/
theorem longWord_across : wordAcross longWord (1 * readBuf) = true := by
  have front : longWord.take (1 * readBuf) = List.replicate 4096 97 := by
    rw [longWord, List.take_replicate]
    rfl
  have back : longWord.drop (1 * readBuf) = [97] := by
    rw [longWord, List.drop_replicate]
    rfl
  rw [wordAcross, front, back, List.getLast?_replicate]
  decide

/-- `wc` reports two words for a file that is one long word. -/
theorem cmdWc_longWord :
    ¬∀ stages driver fuel caller path pipe storage id node bytes, Reachable storage →
      NamesFile caller path storage id node bytes → node.type = vfsFile →
      (∀ stage, (stages stage).faults.SparesReads storage.store node.blockList) →
      bytes.length < fuel * readBuf →
      cmdWc driver fuel stages caller.cwd pipe (some path) storage =
        some (some (wcCount bytes ⟨0, 0, 0⟩), storage) := by
  intro promise
  rcases (Option.any_eq_true _ _).mp longWordFile_has with ⟨storage, ran, shown⟩
  rcases (of_decide_eq_true shown : storage.HasLongWord).names with ⟨node, names, isFile, blocks⟩
  have healthy : ∀ stage : Nat, (Platform.ideal).faults.SparesReads storage.store node.blockList :=
    fun _ block member => by
      rw [blocks] at member
      cases member
  have enough : longWord.length < 2 * readBuf := by
    rw [longWord_length]
    decide
  have whole := promise (fun _ => .ideal) 0 2 rootCaller _ none storage 17 node longWord
    (rootRun_reachable ran) names isFile healthy enough
  rcases @cmdWc_counts 0 17 node longWord storage (fun _ => .ideal) 2 rootCaller
    (literal "/tmp/a") none names isFile healthy enough with ⟨chunks, all, few, counted⟩
  rw [whole, Option.some_inj, Prod.mk.injEq, Option.some_inj] at counted
  have two : chunks = 2 := by
    rw [longWord_length, readBuf] at all few
    omega
  have one : wordsAcross longWord chunks = 1 := by
    rw [two, wordsAcross_succ, wordsAcross_succ, longWord_across]
    rfl
  rw [one] at counted
  exact absurd ((WcCounts.addWords_eq_self _ (by decide)).mp counted.1.symm) (by decide)

/-- A file of two chunks whose word lies across, and one of three bytes. -/
theorem cmdWc_whole_iff_twoChunks :
    (∃ storage, longWordFile = some storage ∧
      (cmdWc 0 2 (fun _ => .ideal) none none (some (literal "/tmp/a")) storage =
        some (some (wcCount longWord ⟨0, 0, 0⟩), storage) ↔
      ∀ chunk, wordAcross longWord (chunk * readBuf) = false)) ∧
    ∃ storage, threeBytes = some storage ∧
      (cmdWc 0 1 (fun _ => .ideal) none none (some (literal "/tmp/a")) storage =
        some (some (wcCount [1, 2, 3] ⟨0, 0, 0⟩), storage) ↔
      ∀ chunk, wordAcross [1, 2, 3] (chunk * readBuf) = false) := by
  constructor
  · rcases (Option.any_eq_true _ _).mp longWordFile_has with ⟨storage, ran, shown⟩
    rcases (of_decide_eq_true shown : storage.HasLongWord).names with ⟨node, names, isFile, blocks⟩
    have enough : longWord.length < 2 * readBuf := by
      rw [longWord_length]
      decide
    refine ⟨storage, ran, @cmdWc_whole_iff 0 17 node _ storage (fun _ => .ideal) 2 rootCaller
      (literal "/tmp/a") none names isFile (fun _ block member => ?_) enough⟩
    rw [blocks] at member
    cases member
  · rcases (Option.any_eq_true _ _).mp threeBytes_lost with ⟨storage, ran, shown⟩
    rcases of_decide_eq_true shown with ⟨has, -⟩
    rcases (Option.any_eq_true _ _).mp has.2.2 with ⟨there, isThere, fields⟩
    simp only [decide_eq_true_eq] at fields
    rcases has.names with ⟨node, names, blocks, -⟩
    cases isThere.symm.trans names.found
    refine ⟨storage, ran, @cmdWc_whole_iff 0 17 there _ storage (fun _ => .ideal) 1 rootCaller
      (literal "/tmp/a") none names fields.2.1 (fun _ block member => ?_) (by decide)⟩
    rw [blocks] at member
    cases member

end Trinux
