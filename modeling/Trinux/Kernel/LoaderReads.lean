import Trinux.Kernel.LoaderAgreement

namespace Trinux

/-!
# What the loaders read of a file

The offset, the size and the number of the program headers are never compared with the number of
bytes that were read, and `elf_exec_argv_inner` compares a part of the file by a sum that may wrap.
Where a header lies behind the file, the loaders read on behind its block.
-/

/-! ## Addresses that are read -/

/-- The fields of a program header that are read: its type, and the others if it is a segment. -/
def phdrReads (h : Elf32Phdr) (a : UInt32) : List UInt32 :=
  if h.pType ≠ ptLoad then addressesFrom a 4
  else addressesFrom a 12 ++ addressesFrom (a + 16) 8

/-- What `ElfLoad.segmentLoop` reads: the headers, and the parts of the file that are copied. -/
def ElfLoad.loopReads (l : ElfLoad) (refuses copies : Elf32Phdr → Bool) (buf pageDir : UInt32)
    (fuel i : Nat) : List UInt32 :=
  match fuel with
  | 0 => []
  | fuel + 1 =>
      let ehdr := l.memory.readEhdr buf
      addressesFrom buf elf32EhdrSize.toNat ++
        if i < ehdr.ePhnum.toNat then
          let a := phdrAddress buf ehdr i
          let phdr := l.memory.readPhdr a
          phdrReads phdr a ++
            if phdr.pType ≠ ptLoad then l.loopReads refuses copies buf pageDir fuel (i + 1)
            else if refuses phdr then []
            else
              (if copies phdr then addressesFrom (buf + phdr.pOffset) phdr.pFilesz.toNat else []) ++
              (l.place buf pageDir ⟨phdr, copies phdr⟩).loopReads refuses copies buf pageDir fuel
                (i + 1)
        else []

/-- What `execveChecks` reads: a segment that is refused for its memory is not looked at further. -/
def checkReads (m : Memory) (buf got : UInt32) : Nat → Nat → List UInt32
  | 0, _ => []
  | fuel + 1, i =>
      let ehdr := m.readEhdr buf
      addressesFrom buf elf32EhdrSize.toNat ++
        if i < ehdr.ePhnum.toNat then
          let a := phdrAddress buf ehdr i
          let phdr := m.readPhdr a
          addressesFrom a 4 ++
            if phdr.pType ≠ ptLoad then checkReads m buf got fuel (i + 1)
            else addressesFrom (a + 8) 4 ++ addressesFrom (a + 20) 4 ++
              if identityEnd < phdr.pVaddr.toNat + phdr.pMemsz.toNat then []
              else addressesFrom (a + 4) 4 ++ addressesFrom (a + 16) 4 ++
                if got.toNat < phdr.pOffset.toNat + phdr.pFilesz.toNat then []
                else checkReads m buf got fuel (i + 1)
        else []

def headerReads (file : ElfFile) (buf : UInt32) : List UInt32 :=
  if file.size < elf32EhdrSize ∨ file.got < elf32EhdrSize then []
  else addressesFrom buf elf32EhdrSize.toNat

instance (file : ElfFile) (ehdr : Elf32Ehdr) : Decidable (file.Valid ehdr) :=
  inferInstanceAs (Decidable (_ ∧ _ ∧ _ ∧ _))

def execReads (file : ElfFile) (buf pageDir : UInt32) (m : Memory) : List UInt32 :=
  let m := m.store buf file.bytes
  headerReads file buf ++
    if file.Valid (m.readEhdr buf) then
      m.unloaded.loopReads ElfLoad.execRefuses (ElfLoad.execCopies file.got) buf pageDir 65536 0
    else []

def execveReads (call : ExecveCall) (file : ElfFile) (buf : UInt32) (m : Memory) : List UInt32 :=
  let read := m.store buf file.bytes
  if call.current = true ∧ file.executable = true then
    headerReads file buf ++
      (if file.Valid (read.readEhdr buf) then checkReads read buf file.got 65536 0 else []) ++
      match execveReady m call with
      | none => []
      | some (m', buf) => m'.unloaded.loopReads (fun _ => false) ElfLoad.execveCopies buf
          call.pageDir 65536 0
  else []

/-! ## Headers in the file -/

def phdrOffset (ehdr : Elf32Ehdr) (i : Nat) : Nat :=
  (ehdr.ePhoff + UInt32.ofNat i * ehdr.ePhentsize.toUInt32).toNat

def Memory.PhdrInside (m : Memory) (buf got : UInt32) (i : Nat) : Prop :=
  phdrOffset (m.readEhdr buf) i + 4 ≤ got.toNat ∧
    ((m.phdrOf buf i).pType = ptLoad → phdrOffset (m.readEhdr buf) i + 24 ≤ got.toNat)

/-- The loop that begins with a number comes to a header: it takes all segments before. -/
def Memory.Visits (m : Memory) (takes : Elf32Phdr → Prop) (buf : UInt32) (first i : Nat) : Prop :=
  first ≤ i ∧ i < (m.readEhdr buf).ePhnum.toNat ∧
    ∀ k, first ≤ k → k < i → (m.phdrOf buf k).pType = ptLoad → takes (m.phdrOf buf k)

def Memory.FileSpared (m : Memory) (buf got : UInt32) : Prop :=
  ∀ i < (m.readEhdr buf).ePhnum.toNat, m.PhdrInside buf got i →
    (m.phdrOf buf i).pType = ptLoad → ∀ a, (m.phdrOf buf i).Covers a → ¬(a - buf).toNat < got.toNat

def InsideFile (buf got : UInt32) (reads : List UInt32) : Prop :=
  ∀ a ∈ reads, (a - buf).toNat < got.toNat

section Inside

variable {buf got : UInt32} {m : Memory}

theorem insideFile_append {first second : List UInt32} :
    InsideFile buf got (first ++ second) ↔ InsideFile buf got first ∧ InsideFile buf got second :=
  List.forall_mem_append

theorem insideFile_nil : InsideFile buf got [] := fun _ impossible =>
  absurd impossible List.not_mem_nil

/-- A range of addresses lies in the file if its end does. -/
theorem insideFile_range {start : UInt32} {n o : Nat} (place : (start - buf).toNat = o)
    (some' : 0 < n) : InsideFile buf got (addressesFrom start n) ↔ o + n ≤ got.toNat := by
  have limit := got.toNat_lt
  have offset : ∀ k, o + k < 2 ^ 32 → (start + UInt32.ofNat k - buf).toNat = o + k := by
    intro k small
    rw [add_sub_right_comm, UInt32.toNat_add, UInt32.toNat_ofNat', place,
      Nat.mod_eq_of_lt (show k < 2 ^ 32 by omega), Nat.mod_eq_of_lt small]
  constructor
  · intro inside
    by_contra long
    by_cases behind : got.toNat ≤ o
    · have first := inside start (mem_addressesFrom.mpr ⟨0, some', (add_zero start).symm⟩)
      omega
    · have last := inside _ (mem_addressesFrom.mpr ⟨got.toNat - o, by omega, rfl⟩)
      rw [offset _ (by omega)] at last
      omega
  · intro short a member
    rcases mem_addressesFrom.mp member with ⟨k, inside, rfl⟩
    rw [offset k (by omega)]
    omega

/-- The same behind the beginning of something that is in the file. -/
theorem insideFile_behind {start : UInt32} {n o : Nat} (place : (start - buf).toNat = o)
    (some' : 0 < n) (k : UInt32) (small : o + k.toNat < 2 ^ 32) :
    InsideFile buf got (addressesFrom (start + k) n) ↔ o + k.toNat + n ≤ got.toNat := by
  apply insideFile_range _ some'
  rw [add_sub_right_comm, UInt32.toNat_add, place, Nat.mod_eq_of_lt small]

theorem phdrAddress_offset (ehdr : Elf32Ehdr) (i : Nat) :
    (phdrAddress buf ehdr i - buf).toNat = phdrOffset ehdr i := by
  rw [phdrAddress, phdrOffset, add_assoc, add_sub_cancel_left]

theorem insideFile_phdr (small : got.toNat + 24 ≤ 2 ^ 32) (i : Nat) :
    InsideFile buf got (phdrReads (m.phdrOf buf i) (phdrAddress buf (m.readEhdr buf) i)) ↔
      m.PhdrInside buf got i := by
  have place := @phdrAddress_offset buf (m.readEhdr buf) i
  unfold phdrReads Memory.PhdrInside
  by_cases load : (m.phdrOf buf i).pType = ptLoad
  · rw [if_neg (not_not.mpr load), insideFile_append, insideFile_range place (by decide)]
    constructor
    · rintro ⟨first, last⟩
      rw [insideFile_behind place (by decide) 16 (by change _ + 16 < _; omega)] at last
      change _ + 16 + 8 ≤ _ at last
      exact ⟨by omega, fun _ => by omega⟩
    · rintro ⟨_, all⟩
      have inside := all load
      refine ⟨by omega, ?_⟩
      rw [insideFile_behind place (by decide) 16 (by change _ + 16 < _; omega)]
      change _ + 16 + 8 ≤ _
      omega
  · rw [if_pos load, insideFile_range place (by decide)]
    exact ⟨fun inside => ⟨inside, fun impossible => absurd impossible load⟩, And.left⟩

theorem insideFile_type {h : Elf32Phdr} {i : Nat}
    (inside : InsideFile buf got (phdrReads h (phdrAddress buf (m.readEhdr buf) i))) :
    phdrOffset (m.readEhdr buf) i + 4 ≤ got.toNat := by
  have place := @phdrAddress_offset buf (m.readEhdr buf) i
  unfold phdrReads at inside
  by_cases load : h.pType = ptLoad
  · rw [if_neg (not_not.mpr load), insideFile_append, insideFile_range place (by decide)] at inside
    have first := inside.1
    omega
  · rw [if_pos load, insideFile_range place (by decide)] at inside
    exact inside

theorem phdrReads_congr {g h : Elf32Phdr} (type : g.pType = h.pType) (a : UInt32) :
    phdrReads g a = phdrReads h a := by
  rw [phdrReads, phdrReads, type]

/-- What is near an address of the file lies in the file. -/
theorem near_inside {start a : UInt32} {n : Nat} (short : (start - buf).toNat + n ≤ got.toNat)
    (near : (a - start).toNat < n) : (a - buf).toNat < got.toNat := by
  have limit := got.toNat_lt
  rw [← sub_add_sub_cancel a start buf, UInt32.toNat_add, Nat.mod_eq_of_lt (by omega)]
  omega

theorem insideFile_ehdr (whole : 52 ≤ got.toNat) :
    InsideFile buf got (addressesFrom buf elf32EhdrSize.toNat) := by
  have place : (buf - buf).toNat = 0 := by rw [sub_self]; rfl
  rw [insideFile_range place (by decide)]
  change 0 + 52 ≤ _
  omega

end Inside

/-! ## Headers that a loop comes to -/

section Visits

variable {m : Memory} {buf : UInt32} {takes : Elf32Phdr → Prop} {i : Nat} {p : Nat → Prop}

theorem visits_stop (stop : (m.readEhdr buf).ePhnum.toNat ≤ i) :
    ∀ k, m.Visits takes buf i k → p k := by
  rintro k ⟨first, inside, _⟩
  omega

theorem visits_last (inside : i < (m.readEhdr buf).ePhnum.toNat)
    (load : (m.phdrOf buf i).pType = ptLoad) (refused : ¬takes (m.phdrOf buf i)) :
    (∀ k, m.Visits takes buf i k → p k) ↔ p i := by
  constructor
  · intro all
    apply all i
    exact ⟨Nat.le_refl i, inside, fun k first before => by omega⟩
  · rintro here k ⟨first, _, taken⟩
    rcases Nat.eq_or_lt_of_le first with rfl | behind
    · exact here
    · exact absurd (taken i (Nat.le_refl i) behind load) refused

theorem visits_step (inside : i < (m.readEhdr buf).ePhnum.toNat)
    (accepted : (m.phdrOf buf i).pType = ptLoad → takes (m.phdrOf buf i)) :
    (∀ k, m.Visits takes buf i k → p k) ↔ p i ∧ ∀ k, m.Visits takes buf (i + 1) k → p k := by
  constructor
  · intro all
    refine ⟨all i ⟨Nat.le_refl i, inside, fun k first before => by omega⟩, ?_⟩
    rintro k ⟨first, below, taken⟩
    apply all k
    refine ⟨by omega, below, ?_⟩
    intro j low high load
    rcases Nat.eq_or_lt_of_le low with rfl | behind
    · exact accepted load
    · exact taken j behind high load
  · rintro ⟨here, later⟩ k ⟨first, below, taken⟩
    rcases Nat.eq_or_lt_of_le first with rfl | behind
    · exact here
    · exact later k ⟨behind, below, fun j low => taken j (by omega)⟩

end Visits

/-! ## The loops -/

section Loops

variable {m : Memory} {l : ElfLoad} {buf got pageDir : UInt32} {refuses copies : Elf32Phdr → Bool}

/-- A loop reads only the file exactly if the headers that it comes to lie there, and the parts of
the file that it copies. -/
theorem loopReads_inside_iff (whole : 52 ≤ got.toNat) (small : got.toNat + 24 ≤ 2 ^ 32)
    (spared : m.FileSpared buf got) (same : ∀ a, (a - buf).toNat < got.toNat → l.memory a = m a)
    {fuel i : Nat} (enough : (m.readEhdr buf).ePhnum.toNat ≤ fuel + i) :
    InsideFile buf got (l.loopReads refuses copies buf pageDir fuel i) ↔
      ∀ k, m.Visits (fun h => refuses h = false) buf i k → m.PhdrInside buf got k ∧
        ((m.phdrOf buf k).pType = ptLoad → refuses (m.phdrOf buf k) = false →
          copies (m.phdrOf buf k) = true → (m.phdrOf buf k).pFilesz.toNat = 0 ∨
            (m.phdrOf buf k).pOffset.toNat + (m.phdrOf buf k).pFilesz.toNat ≤ got.toNat) := by
  induction fuel generalizing l i with
  | zero =>
      exact iff_of_true insideFile_nil (visits_stop (by omega))
  | succ fuel known =>
      have ehdr : l.memory.readEhdr buf = m.readEhdr buf :=
        Memory.readEhdr_congr fun a inside => same a (inside.trans_le whole)
      rw [ElfLoad.loopReads]
      dsimp only
      rw [ehdr, insideFile_append, and_iff_right (insideFile_ehdr whole)]
      by_cases inside : i < (m.readEhdr buf).ePhnum.toNat
      · rw [if_pos inside, insideFile_append]
        have place := @phdrAddress_offset buf (m.readEhdr buf) i
        have read : ∀ n, phdrOffset (m.readEhdr buf) i + n ≤ got.toNat →
            ∀ a, (a - phdrAddress buf (m.readEhdr buf) i).toNat < n → l.memory a = m a := by
          intro n short a near
          rw [← place] at short
          exact same a (near_inside short near)
        have type : phdrOffset (m.readEhdr buf) i + 4 ≤ got.toNat →
            (l.memory.readPhdr (phdrAddress buf (m.readEhdr buf) i)).pType =
              (m.phdrOf buf i).pType := by
          intro short
          have word := Memory.readU32_congr_of (read 4 short) 0 (by decide)
          rw [add_zero] at word
          exact word
        by_cases header : m.PhdrInside buf got i
        · have reads := phdrReads_congr (type header.1) (phdrAddress buf (m.readEhdr buf) i)
          rw [reads, insideFile_phdr small, and_iff_right header]
          by_cases load : (m.phdrOf buf i).pType = ptLoad
          · have phdr : l.memory.readPhdr (phdrAddress buf (m.readEhdr buf) i) = m.phdrOf buf i :=
              Memory.readPhdr_congr (read 24 (header.2 load))
            rw [phdr, if_neg (not_not.mpr load)]
            cases refused : refuses (m.phdrOf buf i) with
            | true =>
                rw [if_pos rfl, visits_last inside load (by rw [refused]; exact Bool.noConfusion)]
                refine iff_of_true insideFile_nil ⟨header, ?_⟩
                intro _ impossible
                rw [refused] at impossible
                cases impossible
            | false =>
                have after : ∀ a, (a - buf).toNat < got.toNat →
                    (l.place buf pageDir ⟨m.phdrOf buf i, copies (m.phdrOf buf i)⟩).memory a =
                      m a := by
                  intro a kept
                  rw [l.place_outside buf pageDir]
                  · exact same a kept
                  · intro member
                    exact spared i inside header load a (ElfLoad.written_covers member) kept
                rw [if_neg Bool.false_ne_true, insideFile_append, known after (by omega),
                  visits_step inside fun _ => refused, and_iff_right header]
                apply and_congr_left
                intro _
                have source : (buf + (m.phdrOf buf i).pOffset - buf).toNat =
                    (m.phdrOf buf i).pOffset.toNat := by
                  rw [add_sub_cancel_left]
                cases copied : copies (m.phdrOf buf i) with
                | false =>
                    rw [if_neg Bool.false_ne_true]
                    refine iff_of_true insideFile_nil fun _ _ impossible => ?_
                    cases impossible
                | true =>
                    rw [if_pos rfl]
                    by_cases none : (m.phdrOf buf i).pFilesz.toNat = 0
                    · rw [none]
                      exact iff_of_true insideFile_nil fun _ _ _ => Or.inl rfl
                    · rw [insideFile_range source (Nat.pos_of_ne_zero none)]
                      exact ⟨fun part _ _ _ => Or.inr part,
                        fun all => (all load refused rfl).resolve_left none⟩
          · rw [type header.1, if_pos load, known same (by omega),
              visits_step inside fun impossible => absurd impossible load]
            exact (and_iff_right ⟨header, fun impossible => absurd impossible load⟩).symm
        · apply iff_of_false
          · rintro ⟨reads, _⟩
            have first := insideFile_type reads
            rw [phdrReads_congr (type first), insideFile_phdr small] at reads
            exact header reads
          · intro all
            exact header (all i ⟨Nat.le_refl i, inside, fun k low high => by omega⟩).1
      · rw [if_neg inside]
        exact iff_of_true insideFile_nil (visits_stop (Nat.le_of_not_lt inside))

/-- The first pass of `elf_execve` reads only the file exactly if the headers that it comes to lie
there. -/
theorem checkReads_inside_iff (whole : 52 ≤ got.toNat) (small : got.toNat + 24 ≤ 2 ^ 32)
    {fuel i : Nat} (enough : (m.readEhdr buf).ePhnum.toNat ≤ fuel + i) :
    InsideFile buf got (checkReads m buf got fuel i) ↔
      ∀ k, m.Visits (fun h => h.Loads got) buf i k → m.PhdrInside buf got k := by
  induction fuel generalizing i with
  | zero =>
      exact iff_of_true insideFile_nil (visits_stop (by omega))
  | succ fuel known =>
      rw [checkReads]
      dsimp only
      rw [insideFile_append, and_iff_right (insideFile_ehdr whole)]
      by_cases inside : i < (m.readEhdr buf).ePhnum.toNat
      · have place := @phdrAddress_offset buf (m.readEhdr buf) i
        rw [if_pos inside, insideFile_append, insideFile_range place (by decide)]
        change _ ∧ InsideFile buf got (if (m.phdrOf buf i).pType ≠ ptLoad then _ else
          addressesFrom (phdrAddress buf (m.readEhdr buf) i + 8) 4 ++
            addressesFrom (phdrAddress buf (m.readEhdr buf) i + 20) 4 ++
              if identityEnd < (m.phdrOf buf i).pVaddr.toNat + (m.phdrOf buf i).pMemsz.toNat then []
              else addressesFrom (phdrAddress buf (m.readEhdr buf) i + 4) 4 ++
                addressesFrom (phdrAddress buf (m.readEhdr buf) i + 16) 4 ++
                if got.toNat < (m.phdrOf buf i).pOffset.toNat + (m.phdrOf buf i).pFilesz.toNat
                then [] else checkReads m buf got fuel (i + 1)) ↔ _
        by_cases load : (m.phdrOf buf i).pType = ptLoad
        · rw [if_neg (not_not.mpr load)]
          by_cases header : phdrOffset (m.readEhdr buf) i + 24 ≤ got.toNat
          · have phdr : m.PhdrInside buf got i := ⟨by omega, fun _ => header⟩
            have field : ∀ k : UInt32, k.toNat ≤ 20 → InsideFile buf got
                (addressesFrom (phdrAddress buf (m.readEhdr buf) i + k) 4) := by
              intro k few
              rw [insideFile_behind place (by decide) k (by omega)]
              omega
            rw [insideFile_append, insideFile_append, and_iff_right (field 8 (by decide)),
              and_iff_right (field 20 (by decide)), and_iff_right phdr.1]
            by_cases high : identityEnd <
                (m.phdrOf buf i).pVaddr.toNat + (m.phdrOf buf i).pMemsz.toNat
            · rw [if_pos high, visits_last inside load fun loads =>
                absurd loads.1 (Nat.not_le.mpr high)]
              exact iff_of_true insideFile_nil phdr
            · rw [if_neg high, insideFile_append, insideFile_append,
                and_iff_right (field 4 (by decide)), and_iff_right (field 16 (by decide))]
              by_cases outside : got.toNat <
                  (m.phdrOf buf i).pOffset.toNat + (m.phdrOf buf i).pFilesz.toNat
              · rw [if_pos outside, visits_last inside load fun loads =>
                  absurd loads.2 (Nat.not_le.mpr outside)]
                exact iff_of_true insideFile_nil phdr
              · rw [if_neg outside, known (by omega), visits_step inside fun _ =>
                  ⟨Nat.le_of_not_lt high, Nat.le_of_not_lt outside⟩, and_iff_right phdr]
          · apply iff_of_false
            · rintro ⟨type, reads⟩
              rw [insideFile_append, insideFile_append,
                insideFile_behind place (by decide) 20 (by change _ + 20 < _; omega)] at reads
              exact header reads.1.2
            · intro all
              exact header ((all i ⟨Nat.le_refl i, inside, fun k low high => by omega⟩).2 load)
        · rw [if_pos load, known (by omega), visits_step inside fun impossible =>
            absurd impossible load]
          apply and_congr_left
          intro _
          exact ⟨fun first => ⟨first, fun impossible => absurd impossible load⟩, And.left⟩
      · rw [if_neg inside]
        exact iff_of_true insideFile_nil (visits_stop (Nat.le_of_not_lt inside))

end Loops

/-! ## The loaders -/

section Loaders

variable {m : Memory} {file : ElfFile} {buf : UInt32} {call : ExecveCall}

theorem headerReads_inside (file : ElfFile) (buf : UInt32) :
    InsideFile buf file.got (headerReads file buf) := by
  unfold headerReads
  by_cases small : file.size < elf32EhdrSize ∨ file.got < elf32EhdrSize
  · rw [if_pos small]
    exact insideFile_nil
  · rw [if_neg small]
    exact insideFile_ehdr (Nat.le_of_not_lt fun short => small (Or.inr short))

/-- `elf_exec_argv_inner` reads only the file exactly if the headers that it comes to lie there, and
the parts of the file that it copies. -/
theorem execReads_inside_iff (small : file.got.toNat + 24 ≤ 2 ^ 32)
    (spared : (m.store buf file.bytes).FileSpared buf file.got) (pageDir : UInt32) :
    InsideFile buf file.got (execReads file buf pageDir m) ↔
      (file.Valid ((m.store buf file.bytes).readEhdr buf) → ∀ i,
        (m.store buf file.bytes).Visits (fun h => ElfLoad.execRefuses h = false) buf 0 i →
          (m.store buf file.bytes).PhdrInside buf file.got i ∧
          (((m.store buf file.bytes).phdrOf buf i).pType = ptLoad →
            ElfLoad.execRefuses ((m.store buf file.bytes).phdrOf buf i) = false →
            ElfLoad.execCopies file.got ((m.store buf file.bytes).phdrOf buf i) = true →
            ((m.store buf file.bytes).phdrOf buf i).pFilesz.toNat = 0 ∨
            ((m.store buf file.bytes).phdrOf buf i).pOffset.toNat +
              ((m.store buf file.bytes).phdrOf buf i).pFilesz.toNat ≤ file.got.toNat)) := by
  unfold execReads
  dsimp only
  rw [insideFile_append, and_iff_right (headerReads_inside file buf)]
  by_cases valid : file.Valid ((m.store buf file.bytes).readEhdr buf)
  · have enough : ((m.store buf file.bytes).readEhdr buf).ePhnum.toNat ≤ 65536 + 0 :=
      (Memory.readEhdr _ buf).ePhnum.toNat_lt.le
    rw [if_pos valid, loopReads_inside_iff (valid_whole valid) small spared (fun _ _ => rfl) enough]
    exact ⟨fun all _ => all, fun all => all valid⟩
  · rw [if_neg valid]
    exact iff_of_true insideFile_nil fun impossible => absurd impossible valid

/-- `elf_execve` reads only the file exactly if the headers that its first pass comes to lie
there. -/
theorem execveReads_inside_iff (small : file.got.toNat + 24 ≤ 2 ^ 32)
    (spared : (m.store buf file.bytes).FileSpared buf file.got)
    (found : call.file = some file) (taken : call.bufBlock = some buf)
    (arguments : ∀ blob, call.argBlock = some blob → ∀ a ∈ argAddresses blob call.argv,
      ¬(a - buf).toNat < file.got.toNat) :
    InsideFile buf file.got (execveReads call file buf m) ↔
      (call.current = true → file.executable = true →
        file.Valid ((m.store buf file.bytes).readEhdr buf) → ∀ i,
        (m.store buf file.bytes).Visits (fun h => h.Loads file.got) buf 0 i →
          (m.store buf file.bytes).PhdrInside buf file.got i) := by
  unfold execveReads
  dsimp only
  by_cases permitted : call.current = true ∧ file.executable = true
  · rw [if_pos permitted, insideFile_append, insideFile_append,
      and_iff_right (headerReads_inside file buf)]
    by_cases valid : file.Valid ((m.store buf file.bytes).readEhdr buf)
    · have enough : ((m.store buf file.bytes).readEhdr buf).ePhnum.toNat ≤ 65536 + 0 :=
        (Memory.readEhdr _ buf).ePhnum.toNat_lt.le
      rw [if_pos valid, checkReads_inside_iff (valid_whole valid) small enough]
      constructor
      · rintro ⟨first, _⟩ _ _ _
        exact first
      · intro all
        have first := all permitted.1 permitted.2 valid
        refine ⟨first, ?_⟩
        cases ready : execveReady m call with
        | none => exact insideFile_nil
        | some pair =>
            rcases pair with ⟨m', b⟩
            rcases execveReady_some found taken ready with ⟨rfl, _, _, _, loads, memory⟩
            have same : ∀ a, (a - b).toNat < file.got.toNat →
                m'.unloaded.memory a = m.store b file.bytes a := by
              intro a inside
              change m' a = _
              rcases memory with rfl | ⟨_, blob, block, rfl⟩
              · rfl
              · apply storeArgs_outside
                intro impossible
                exact arguments blob block a impossible inside
            dsimp only
            rw [loopReads_inside_iff (valid_whole valid) small spared same enough]
            rintro k ⟨low, below, _⟩
            have segment : ∀ j, j < ((m.store b file.bytes).readEhdr b).ePhnum.toNat →
                ((m.store b file.bytes).phdrOf b j).pType = ptLoad →
                ((m.store b file.bytes).phdrOf b j).Loads file.got := fun j inside load =>
              loads _ (Memory.mem_segmentsFrom.mpr ⟨j, Nat.zero_le j, inside, rfl, load⟩)
            refine ⟨first k ⟨low, below, fun j _ before load => segment j (by omega) load⟩, ?_⟩
            intro load _ _
            exact Or.inr (segment k below load).2
    · rw [if_neg valid]
      refine iff_of_true ⟨insideFile_nil, ?_⟩ fun _ _ impossible => absurd impossible valid
      cases ready : execveReady m call with
      | none => exact insideFile_nil
      | some pair =>
          rcases pair with ⟨m', b⟩
          exact absurd (execveReady_some found taken ready).2.2.2.1 valid
  · rw [if_neg permitted]
    exact iff_of_true insideFile_nil fun current executable =>
      absurd ⟨current, executable⟩ permitted

end Loaders

/-- For a file in a block whose segments do not lie over it, each loader reads only the file exactly
if the program headers that it comes to lie there, and the parts of the file that it copies. -/
theorem loaders_read_iff (m : Memory) (file : ElfFile) (buf pageDir : UInt32) (call : ExecveCall)
    (small : file.got.toNat + 24 ≤ 2 ^ 32)
    (spared : (m.store buf file.bytes).FileSpared buf file.got)
    (found : call.file = some file) (taken : call.bufBlock = some buf)
    (arguments : ∀ blob, call.argBlock = some blob → ∀ a ∈ argAddresses blob call.argv,
      ¬(a - buf).toNat < file.got.toNat) :
    (InsideFile buf file.got (execReads file buf pageDir m) ↔
      (file.Valid ((m.store buf file.bytes).readEhdr buf) → ∀ i,
        (m.store buf file.bytes).Visits (fun h => ElfLoad.execRefuses h = false) buf 0 i →
          (m.store buf file.bytes).PhdrInside buf file.got i ∧
          (((m.store buf file.bytes).phdrOf buf i).pType = ptLoad →
            ElfLoad.execRefuses ((m.store buf file.bytes).phdrOf buf i) = false →
            ElfLoad.execCopies file.got ((m.store buf file.bytes).phdrOf buf i) = true →
            ((m.store buf file.bytes).phdrOf buf i).pFilesz.toNat = 0 ∨
            ((m.store buf file.bytes).phdrOf buf i).pOffset.toNat +
              ((m.store buf file.bytes).phdrOf buf i).pFilesz.toNat ≤ file.got.toNat))) ∧
    (InsideFile buf file.got (execveReads call file buf m) ↔
      (call.current = true → file.executable = true →
        file.Valid ((m.store buf file.bytes).readEhdr buf) → ∀ i,
        (m.store buf file.bytes).Visits (fun h => h.Loads file.got) buf 0 i →
          (m.store buf file.bytes).PhdrInside buf file.got i)) :=
  ⟨execReads_inside_iff small spared pageDir,
    execveReads_inside_iff small spared found taken arguments⟩

/-- Both loaders read only the file of one segment and one byte. -/
theorem loaders_read_iff_oneByte :
    InsideFile 0x03000014 oneByteProgram.got
        (execReads oneByteProgram 0x03000014 0 fun _ => 0) ∧
      InsideFile 0x03000014 oneByteProgram.got
        (execveReads (loadsProgram oneByteProgram) oneByteProgram 0x03000014 fun _ => 0) := by
  have one : ((Memory.store (fun _ => 0) 0x03000014 oneByteProgram.bytes).readEhdr
      0x03000014).ePhnum.toNat = 1 := by decide +kernel
  have first : (Memory.store (fun _ => 0) 0x03000014 oneByteProgram.bytes).phdrOf 0x03000014 0 =
      ⟨1, 84, 0x08048000, 1, 1⟩ := by decide +kernel
  have start : phdrOffset ((Memory.store (fun _ => 0) 0x03000014 oneByteProgram.bytes).readEhdr
      0x03000014) 0 = 52 := by decide +kernel
  have inside : (Memory.store (fun _ => 0) 0x03000014 oneByteProgram.bytes).PhdrInside 0x03000014
      oneByteProgram.got 0 := by
    unfold Memory.PhdrInside
    rw [start]
    exact ⟨by decide, fun _ => by decide⟩
  have iffs := loaders_read_iff (fun _ => 0) oneByteProgram 0x03000014 0
    (loadsProgram oneByteProgram) (by decide) (by
      intro i below _ _ a covered within
      rw [one] at below
      rw [Nat.lt_one_iff.mp below, first] at covered
      have offset : (a - 0x08048000).toNat < 1 := covered.elim id id
      have place : a = 0x08048000 :=
        sub_eq_zero.mp (UInt32.toNat_inj.mp (Nat.lt_one_iff.mp offset))
      rw [place] at within
      exact absurd within (by decide)) rfl rfl (fun _ impossible => by cases impossible)
  constructor
  · apply iffs.1.mpr
    rintro _ i ⟨_, below, _⟩
    rw [one] at below
    rw [Nat.lt_one_iff.mp below, first]
    exact ⟨inside, fun _ _ _ => Or.inr (by decide)⟩
  · apply iffs.2.mpr
    rintro _ _ _ i ⟨_, below, _⟩
    rw [one] at below
    rw [Nat.lt_one_iff.mp below]
    exact inside

def headlessProgram : ElfFile := { oneByteProgram with size := 52 }

/-- `elf_exec_argv_inner` looks for the header behind the file. -/
theorem headless_overread :
    ¬InsideFile 0x03000014 headlessProgram.got
      (execReads headlessProgram 0x03000014 0 fun _ => 0) := by
  intro inside
  have read : 0x03000014 + 52 ∈ execReads headlessProgram 0x03000014 0 fun _ => 0 := by
    decide +kernel
  exact absurd (inside _ read) (by decide)

end Trinux
