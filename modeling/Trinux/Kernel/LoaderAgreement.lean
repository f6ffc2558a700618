import Trinux.Kernel.InitialStack

namespace Trinux

/-!
# The two loaders and one file

`elf_exec_argv_inner` compares wrapped sums and passes over a part of the file that does not lie in
the file; `elf_execve` compares the sums themselves and refuses.  Both read the headers again for
each segment, so what they do is told from the file as long as no segment lies over the file or its
headers.
-/

/-! ## What a file asks for -/

def Elf32Phdr.Loads (h : Elf32Phdr) (got : UInt32) : Prop :=
  h.pVaddr.toNat + h.pMemsz.toNat ≤ identityEnd ∧ h.pOffset.toNat + h.pFilesz.toNat ≤ got.toNat

def Elf32Phdr.Covers (h : Elf32Phdr) (a : UInt32) : Prop :=
  (a - h.pVaddr).toNat < h.pFilesz.toNat ∨ (a - h.pVaddr).toNat < h.pMemsz.toNat

/-- The byte that a segment has at an address: those of the file, and zeros behind them. -/
def Elf32Phdr.byte (bytes : List UInt8) (h : Elf32Phdr) (a : UInt32) : Option UInt8 :=
  if (a - h.pVaddr).toNat < h.pFilesz.toNat then
    bytes[h.pOffset.toNat + (a - h.pVaddr).toNat]?
  else if (a - h.pVaddr).toNat < h.pMemsz.toNat then some 0
  else none

/-- The byte that some segments have at an address, where a later one goes before an earlier one. -/
def imageByte (bytes : List UInt8) : List Elf32Phdr → UInt32 → Option UInt8
  | [], _ => none
  | h :: rest, a => (imageByte bytes rest a).or (h.byte bytes a)

def Memory.segmentsFrom (m : Memory) (buf : UInt32) (i : Nat) : List Elf32Phdr :=
  ((List.range' i ((m.readEhdr buf).ePhnum.toNat - i)).map (m.phdrOf buf)).filter
    fun h => h.pType = ptLoad

def Memory.segments (m : Memory) (buf : UInt32) : List Elf32Phdr := m.segmentsFrom buf 0

def Memory.InFile (m : Memory) (buf got a : UInt32) : Prop :=
  (a - buf).toNat < got.toNat ∨ ∃ i < (m.readEhdr buf).ePhnum.toNat,
    (a - phdrAddress buf (m.readEhdr buf) i).toNat < 24

def ElfFile.Valid (file : ElfFile) (ehdr : Elf32Ehdr) : Prop :=
  ¬file.size < elf32EhdrSize ∧ ¬file.got < elf32EhdrSize ∧ elfValidate ehdr = true ∧
    ehdr.eEntry ≠ 0

/-! ## Ranges of addresses -/

theorem mem_addressesFrom_iff {start a : UInt32} {n : Nat} (small : n ≤ 2 ^ 32) :
    a ∈ addressesFrom start n ↔ (a - start).toNat < n := by
  rw [mem_addressesFrom]
  constructor
  · rintro ⟨k, inside, rfl⟩
    rw [add_sub_cancel_left, UInt32.toNat_ofNat', Nat.mod_eq_of_lt (by omega)]
    exact inside
  · intro inside
    refine ⟨(a - start).toNat, inside, ?_⟩
    rw [UInt32.ofNat_toNat, add_sub_cancel]

namespace Memory

variable {m m' : Memory}

/-! ## Headers -/

theorem mem_segmentsFrom {buf : UInt32} {i : Nat} {h : Elf32Phdr} :
    h ∈ m.segmentsFrom buf i ↔ ∃ k, i ≤ k ∧ k < (m.readEhdr buf).ePhnum.toNat ∧
      m.phdrOf buf k = h ∧ h.pType = ptLoad := by
  unfold segmentsFrom
  rw [List.mem_filter, List.mem_map]
  constructor
  · rintro ⟨⟨k, inside, rfl⟩, load⟩
    rw [List.mem_range'_1] at inside
    exact ⟨k, inside.1, by omega, rfl, of_decide_eq_true load⟩
  · rintro ⟨k, low, high, rfl, load⟩
    refine ⟨⟨k, ?_, rfl⟩, decide_eq_true load⟩
    rw [List.mem_range'_1]
    omega

theorem segmentsFrom_stop {buf : UInt32} {i : Nat} (stop : (m.readEhdr buf).ePhnum.toNat ≤ i) :
    m.segmentsFrom buf i = [] := by
  rw [segmentsFrom, Nat.sub_eq_zero_of_le stop]
  rfl

theorem segmentsFrom_step {buf : UInt32} {i : Nat} (inside : i < (m.readEhdr buf).ePhnum.toNat) :
    m.segmentsFrom buf i = if (m.phdrOf buf i).pType = ptLoad then
      m.phdrOf buf i :: m.segmentsFrom buf (i + 1) else m.segmentsFrom buf (i + 1) := by
  have count : (m.readEhdr buf).ePhnum.toNat - i = (m.readEhdr buf).ePhnum.toNat - (i + 1) + 1 := by
    omega
  rw [segmentsFrom, segmentsFrom, count, List.range'_succ, List.map_cons, List.filter_cons]
  by_cases load : (m.phdrOf buf i).pType = ptLoad
  · rw [if_pos load, if_pos (decide_eq_true load)]
  · rw [if_neg load, if_neg fun impossible => load (of_decide_eq_true impossible)]

end Memory

/-! ## One segment -/

namespace ElfLoad

/-- Placing a segment whose part of the file is copied, if there is any, gives it its bytes. -/
theorem place_memory (l : ElfLoad) {buf : UInt32} (pageDir : UInt32) {h : Elf32Phdr}
    {bytes : List UInt8} (holds : l.memory.Holds buf bytes) (small : bytes.length < 2 ^ 32)
    (inside : h.pOffset.toNat + h.pFilesz.toNat ≤ bytes.length)
    (apart : ∀ a, h.Covers a → ¬(a - buf).toNat < bytes.length) (a : UInt32) :
    (l.place buf pageDir ⟨h, execveCopies h⟩).memory a = (h.byte bytes a).getD (l.memory a) := by
  have place : a = h.pVaddr + UInt32.ofNat (a - h.pVaddr).toNat := by
    rw [UInt32.ofNat_toNat, add_sub_cancel]
  have filesz := h.pFilesz.toNat_lt
  have memsz := h.pMemsz.toNat_lt
  have copied : (if execveCopies h = true then
      l.memory.memcpy h.pVaddr (buf + h.pOffset) h.pFilesz.toNat else l.memory) a =
        if (a - h.pVaddr).toNat < h.pFilesz.toNat then
          (bytes[h.pOffset.toNat + (a - h.pVaddr).toNat]?).getD (l.memory a) else l.memory a := by
    by_cases positive : 0 < h.pFilesz
    · rw [if_pos (show execveCopies h = true from decide_eq_true positive)]
      by_cases part : (a - h.pVaddr).toNat < h.pFilesz.toNat
      · have source : ∀ k < h.pFilesz.toNat,
            buf + h.pOffset + UInt32.ofNat k = buf + UInt32.ofNat (h.pOffset.toNat + k) := by
          intro k _
          rw [UInt32.ofNat_add, UInt32.ofNat_toNat, add_assoc]
        have disjoint : ∀ x ∈ addressesFrom (buf + h.pOffset) h.pFilesz.toNat,
            x ∉ addressesFrom h.pVaddr h.pFilesz.toNat := by
          intro x member impossible
          rcases mem_addressesFrom.mp member with ⟨k, short, rfl⟩
          apply apart _ (Or.inl ((mem_addressesFrom_iff filesz.le).mp impossible))
          rw [source k short, add_sub_cancel_left, UInt32.toNat_ofNat', Nat.mod_eq_of_lt (by omega)]
          omega
        have there := Memory.memcpy_inside l.memory filesz.le disjoint part
        rw [← place, source _ part] at there
        rw [there, if_pos part, holds _ (by omega), List.getElem?_eq_getElem (by omega),
          Option.getD_some]
      · rw [if_neg part]
        apply Memory.memcpy_outside
        intro member
        exact part ((mem_addressesFrom_iff filesz.le).mp member)
    · have zero : h.pFilesz.toNat = 0 := by
        have none : ¬0 < h.pFilesz.toNat := positive
        omega
      rw [if_neg (show ¬execveCopies h = true from fun some' => positive (of_decide_eq_true some')),
        zero, if_neg (Nat.not_lt_zero _)]
  unfold ElfLoad.place Elf32Phdr.byte
  dsimp only
  by_cases longer : h.pFilesz < h.pMemsz
  · have order : h.pFilesz.toNat < h.pMemsz.toNat := longer
    have length : (h.pMemsz - h.pFilesz).toNat = h.pMemsz.toNat - h.pFilesz.toNat :=
      UInt32.toNat_sub_of_le _ _ (UInt32.le_iff_toNat_le.mpr order.le)
    rw [if_pos longer]
    by_cases part : (a - h.pVaddr).toNat < h.pFilesz.toNat
    · rw [if_pos part]
      rw [if_pos part] at copied
      rw [Memory.memset_outside, copied]
      rw [mem_addressesFrom]
      rintro ⟨k, short, same⟩
      have offset : (a - h.pVaddr).toNat = h.pFilesz.toNat + k := by
        rw [same, add_assoc, add_sub_cancel_left, UInt32.toNat_add, UInt32.toNat_ofNat',
          Nat.mod_eq_of_lt (show k < 2 ^ 32 by omega), Nat.mod_eq_of_lt (by omega)]
      omega
    · rw [if_neg part]
      rw [if_neg part] at copied
      by_cases zeroed : (a - h.pVaddr).toNat < h.pMemsz.toNat
      · have there : a = h.pVaddr + h.pFilesz +
            UInt32.ofNat ((a - h.pVaddr).toNat - h.pFilesz.toNat) := by
          conv_lhs => rw [place]
          rw [add_assoc]
          congr 1
          have sum : UInt32.ofNat (h.pFilesz.toNat + ((a - h.pVaddr).toNat - h.pFilesz.toNat)) =
              h.pFilesz + UInt32.ofNat ((a - h.pVaddr).toNat - h.pFilesz.toNat) := by
            rw [UInt32.ofNat_add, UInt32.ofNat_toNat]
          rw [← sum, Nat.add_sub_cancel' (by omega)]
        rw [if_pos zeroed, Option.getD_some]
        conv_lhs => rw [there]
        apply Memory.memset_inside _ _ _ (h.pMemsz - h.pFilesz).toNat_lt.le
        rw [length]
        omega
      · rw [if_neg zeroed, Option.getD_none, Memory.memset_outside, copied]
        rw [mem_addressesFrom]
        rintro ⟨k, short, same⟩
        apply zeroed
        rw [same, add_assoc, add_sub_cancel_left, UInt32.toNat_add, UInt32.toNat_ofNat',
          Nat.mod_eq_of_lt (show k < 2 ^ 32 by omega), Nat.mod_eq_of_lt (by omega)]
        omega
  · have order : h.pMemsz.toNat ≤ h.pFilesz.toNat := Nat.le_of_not_lt longer
    rw [if_neg longer, copied]
    by_cases part : (a - h.pVaddr).toNat < h.pFilesz.toNat
    · rw [if_pos part, if_pos part]
    · rw [if_neg part, if_neg part, if_neg (by omega), Option.getD_none]

theorem written_covers {h : Elf32Phdr} {copied : Bool} {a : UInt32}
    (member : a ∈ Placement.written ⟨h, copied⟩) : h.Covers a := by
  rw [Placement.written, List.mem_append] at member
  rcases member with file | zeroed
  · cases copied with
    | false => exact absurd file List.not_mem_nil
    | true => exact Or.inl ((mem_addressesFrom_iff h.pFilesz.toNat_lt.le).mp file)
  · by_cases longer : h.pFilesz < h.pMemsz
    · have order : h.pFilesz.toNat < h.pMemsz.toNat := longer
      have length : (h.pMemsz - h.pFilesz).toNat = h.pMemsz.toNat - h.pFilesz.toNat :=
        UInt32.toNat_sub_of_le _ _ (UInt32.le_iff_toNat_le.mpr order.le)
      have memsz := h.pMemsz.toNat_lt
      rw [if_pos longer, mem_addressesFrom] at zeroed
      rcases zeroed with ⟨k, short, rfl⟩
      dsimp only at short ⊢
      right
      rw [add_assoc, add_sub_cancel_left, UInt32.toNat_add, UInt32.toNat_ofNat',
        Nat.mod_eq_of_lt (show k < 2 ^ 32 by omega), Nat.mod_eq_of_lt (by omega)]
      omega
    · rw [if_neg longer] at zeroed
      exact absurd zeroed List.not_mem_nil

/-! ## The loop over the headers -/

section Loop

variable {m : Memory} {l : ElfLoad} {buf got pageDir : UInt32} {refuses copies : Elf32Phdr → Bool}

def Undisturbed (m : Memory) (buf got : UInt32) : Prop :=
  ∀ h ∈ m.segments buf, ∀ a, h.Covers a → ¬m.InFile buf got a

theorem ehdr_kept (whole : 52 ≤ got.toNat) (same : ∀ a, m.InFile buf got a → l.memory a = m a) :
    l.memory.readEhdr buf = m.readEhdr buf := by
  apply Memory.readEhdr_congr
  intro a inside
  exact same a (Or.inl (inside.trans_le whole))

theorem phdr_kept {i : Nat} (inside : i < (m.readEhdr buf).ePhnum.toNat)
    (same : ∀ a, m.InFile buf got a → l.memory a = m a) :
    l.memory.readPhdr (phdrAddress buf (m.readEhdr buf) i) = m.phdrOf buf i := by
  apply Memory.readPhdr_congr
  intro a header
  exact same a (Or.inr ⟨i, inside, header⟩)

theorem place_kept (undisturbed : Undisturbed m buf got)
    (same : ∀ a, m.InFile buf got a → l.memory a = m a) {i : Nat}
    (inside : i < (m.readEhdr buf).ePhnum.toNat) (load : (m.phdrOf buf i).pType = ptLoad)
    (copied : Bool) :
    ∀ a, m.InFile buf got a →
      (l.place buf pageDir ⟨m.phdrOf buf i, copied⟩).memory a = m a := by
  intro a kept
  rw [l.place_outside buf pageDir]
  · exact same a kept
  · intro member
    exact undisturbed _ (Memory.mem_segmentsFrom.mpr ⟨i, Nat.zero_le i, inside, rfl, load⟩) a
      (written_covers member) kept

/-- The loop finds nothing to refuse exactly if it refuses none of the segments of the file. -/
theorem segmentLoop_accepts_iff (whole : 52 ≤ got.toNat) (undisturbed : Undisturbed m buf got)
    (same : ∀ a, m.InFile buf got a → l.memory a = m a) {fuel i : Nat}
    (enough : (m.readEhdr buf).ePhnum.toNat ≤ fuel + i) :
    (l.segmentLoop refuses copies buf pageDir fuel i).1 = none ↔
      ∀ h ∈ m.segmentsFrom buf i, refuses h = false := by
  induction fuel generalizing l i with
  | zero =>
      rw [Memory.segmentsFrom_stop (by omega)]
      exact iff_of_true rfl fun h impossible => absurd impossible List.not_mem_nil
  | succ fuel known =>
      rw [segmentLoop]
      dsimp only
      rw [ehdr_kept whole same]
      by_cases inside : i < (m.readEhdr buf).ePhnum.toNat
      · rw [if_pos inside, phdr_kept inside same, Memory.segmentsFrom_step inside]
        by_cases load : (m.phdrOf buf i).pType = ptLoad
        · rw [if_neg (not_not.mpr load), if_pos load]
          cases refused : refuses (m.phdrOf buf i) with
          | true =>
              rw [if_pos rfl]
              apply iff_of_false
              · intro impossible
                cases impossible
              · intro all
                have accepted := all _ List.mem_cons_self
                rw [refused] at accepted
                cases accepted
          | false =>
              rw [if_neg Bool.false_ne_true,
                known (place_kept undisturbed same inside load _) (by omega), List.forall_mem_cons]
              exact (and_iff_right refused).symm
        · rw [if_pos load, if_neg load]
          exact known same (by omega)
      · rw [if_neg inside, Memory.segmentsFrom_stop (Nat.le_of_not_lt inside)]
        exact iff_of_true rfl fun h impossible => absurd impossible List.not_mem_nil

/-- Where every segment is taken and its part of the file copied, memory holds the image. -/
theorem segmentLoop_memory {bytes : List UInt8} (holds : m.Holds buf bytes)
    (length : bytes.length = got.toNat) (whole : 52 ≤ got.toNat)
    (undisturbed : Undisturbed m buf got) (same : ∀ a, m.InFile buf got a → l.memory a = m a)
    {fuel i : Nat} (enough : (m.readEhdr buf).ePhnum.toNat ≤ fuel + i)
    (all : ∀ h ∈ m.segmentsFrom buf i, refuses h = false ∧ copies h = execveCopies h ∧
      h.pOffset.toNat + h.pFilesz.toNat ≤ got.toNat) (a : UInt32) :
    (l.segmentLoop refuses copies buf pageDir fuel i).2.memory a =
      (imageByte bytes (m.segmentsFrom buf i) a).getD (l.memory a) := by
  induction fuel generalizing l i with
  | zero =>
      rw [Memory.segmentsFrom_stop (by omega)]
      rfl
  | succ fuel known =>
      rw [segmentLoop]
      dsimp only
      rw [ehdr_kept whole same]
      by_cases inside : i < (m.readEhdr buf).ePhnum.toNat
      · rw [Memory.segmentsFrom_step inside] at all
        rw [if_pos inside, phdr_kept inside same, Memory.segmentsFrom_step inside]
        by_cases load : (m.phdrOf buf i).pType = ptLoad
        · rw [if_pos load] at all ⊢
          rw [List.forall_mem_cons] at all
          rcases all with ⟨⟨accepted, copied, part⟩, later⟩
          have held : l.memory.Holds buf bytes := by
            intro k short
            rw [same _ (Or.inl _)]
            · exact holds k short
            · rw [add_sub_cancel_left, UInt32.toNat_ofNat']
              exact (Nat.mod_le _ _).trans_lt (by omega)
          have apart : ∀ b, (m.phdrOf buf i).Covers b → ¬(b - buf).toNat < bytes.length := by
            intro b covered impossible
            rw [length] at impossible
            exact undisturbed _ (Memory.mem_segmentsFrom.mpr
              ⟨i, Nat.zero_le i, inside, rfl, load⟩) b covered (Or.inl impossible)
          have small : bytes.length < 2 ^ 32 := by
            rw [length]
            exact got.toNat_lt
          rw [if_neg (not_not.mpr load), if_neg (by rw [accepted]; exact Bool.false_ne_true),
            known (place_kept undisturbed same inside load _) (by omega) later, copied,
            l.place_memory pageDir held small (by rw [length]; exact part) apart, imageByte]
          cases imageByte bytes (m.segmentsFrom buf (i + 1)) a with
          | none => rfl
          | some b => rfl
        · rw [if_neg load] at all ⊢
          rw [if_pos load]
          exact known same (by omega) all
      · rw [if_neg inside, Memory.segmentsFrom_stop (Nat.le_of_not_lt inside)]
        rfl

theorem unloaded_memory {m' : Memory} {bytes : List UInt8} (holds : m.Holds buf bytes)
    (length : bytes.length = got.toNat) (whole : 52 ≤ got.toNat)
    (undisturbed : Undisturbed m buf got) (same : ∀ a, m.InFile buf got a → m' a = m a)
    (all : ∀ h ∈ m.segments buf, refuses h = false ∧ copies h = execveCopies h ∧
      h.pOffset.toNat + h.pFilesz.toNat ≤ got.toNat) (a : UInt32) :
    (m'.unloaded.segmentLoop refuses copies buf pageDir 65536 0).2.memory a =
      (imageByte bytes (m.segments buf) a).getD (m' a) := by
  have enough : (m.readEhdr buf).ePhnum.toNat ≤ 65536 + 0 := (m.readEhdr buf).ePhnum.toNat_lt.le
  have start : ∀ a, m.InFile buf got a → m'.unloaded.memory a = m a := same
  exact segmentLoop_memory holds length whole undisturbed start enough all a

end Loop

end ElfLoad

/-- The first pass of `elf_execve` finds no error exactly if all segments load. -/
theorem execveChecks_none_iff {m : Memory} {buf got : UInt32} {fuel i : Nat}
    (enough : (m.readEhdr buf).ePhnum.toNat ≤ fuel + i) :
    execveChecks m buf got fuel i = none ↔ ∀ h ∈ m.segmentsFrom buf i, h.Loads got := by
  induction fuel generalizing i with
  | zero =>
      rw [Memory.segmentsFrom_stop (by omega)]
      exact iff_of_true rfl fun h impossible => absurd impossible List.not_mem_nil
  | succ fuel known =>
      rw [execveChecks]
      dsimp only
      by_cases inside : i < (m.readEhdr buf).ePhnum.toNat
      · rw [if_pos inside, Memory.segmentsFrom_step inside]
        change (if (m.phdrOf buf i).pType ≠ ptLoad then execveChecks m buf got fuel (i + 1)
          else if identityEnd < (m.phdrOf buf i).pVaddr.toNat + (m.phdrOf buf i).pMemsz.toNat then
            some (-3)
          else if got.toNat < (m.phdrOf buf i).pOffset.toNat + (m.phdrOf buf i).pFilesz.toNat then
            some (-2)
          else execveChecks m buf got fuel (i + 1)) = none ↔ _
        by_cases load : (m.phdrOf buf i).pType = ptLoad
        · rw [if_neg (not_not.mpr load), if_pos load, List.forall_mem_cons]
          by_cases high : identityEnd <
              (m.phdrOf buf i).pVaddr.toNat + (m.phdrOf buf i).pMemsz.toNat
          · rw [if_pos high]
            apply iff_of_false
            · intro impossible
              cases impossible
            · intro both
              exact absurd both.1.1 (Nat.not_le.mpr high)
          · rw [if_neg high]
            by_cases outside : got.toNat <
                (m.phdrOf buf i).pOffset.toNat + (m.phdrOf buf i).pFilesz.toNat
            · rw [if_pos outside]
              apply iff_of_false
              · intro impossible
                cases impossible
              · intro both
                exact absurd both.1.2 (Nat.not_le.mpr outside)
            · rw [if_neg outside, known (by omega)]
              exact (and_iff_right ⟨Nat.le_of_not_lt high, Nat.le_of_not_lt outside⟩).symm
        · rw [if_pos load, if_neg load]
          exact known (by omega)
      · rw [if_neg inside, Memory.segmentsFrom_stop (Nat.le_of_not_lt inside)]
        exact iff_of_true rfl fun h impossible => absurd impossible List.not_mem_nil

/-! ## The loaders -/

namespace ExecveCall

def ExecAccepts (call : ExecveCall) (m : Memory) : Prop :=
  (elfExecArgvInner call.file call.bufBlock call.pageDir m).1 = none

def ExecveAccepts (call : ExecveCall) (s : ExecState) : Prop := (s.elfExecve call).1.1 = 0

/-- The file and its block, in a call that fails for no other reason: there is a process, it may
execute the file, and there is a block for the copy of the arguments, apart from the file. -/
structure Loads (call : ExecveCall) (m : Memory) (file : ElfFile) (buf : UInt32) : Prop where
  found : call.file = some file
  taken : call.bufBlock = some buf
  current : call.current = true
  executable : file.executable = true
  arguments : call.argv = [] ∨ ∃ blob, call.argBlock = some blob ∧
    ∀ a ∈ argAddresses blob call.argv, ¬(m.store buf file.bytes).InFile buf file.got a

end ExecveCall

/-- What is promised of the two loaders for a file.  One accepts it if the other does, and then each
byte of a segment is what the file says.  Both refuse a segment that does not lie in the file. -/
structure LoadersAgree (s : ExecState) (call : ExecveCall) (file : ElfFile) (buf : UInt32) :
    Prop where
  accepts : call.ExecAccepts s.memory ↔ call.ExecveAccepts s
  loaded : ∀ m', call.ExecAccepts s.memory → execveReady s.memory call = some (m', buf) →
    ∀ h ∈ (s.memory.store buf file.bytes).segments buf, ∀ a, h.Covers a → ∃ b,
      imageByte file.bytes ((s.memory.store buf file.bytes).segments buf) a = some b ∧
        (elfExecArgvInner call.file call.bufBlock call.pageDir s.memory).2.memory a = b ∧
        (m'.unloaded.execveSegments buf call.pageDir).memory a = b
  refused : ∀ h ∈ (s.memory.store buf file.bytes).segments buf,
    file.got.toNat < h.pOffset.toNat + h.pFilesz.toNat →
      ¬call.ExecAccepts s.memory ∧ ¬call.ExecveAccepts s

section Loaders

variable {m : Memory} {file : ElfFile} {buf pageDir : UInt32} {call : ExecveCall} {s : ExecState}

theorem elfExecArgvInner_valid
    (valid : file.Valid ((m.store buf file.bytes).readEhdr buf)) :
    elfExecArgvInner (some file) (some buf) pageDir m =
      (m.store buf file.bytes).unloaded.execSegments buf file.got pageDir := by
  rcases valid with ⟨size, got, checked, entry⟩
  unfold elfExecArgvInner
  dsimp only
  rw [if_neg size, if_neg got, if_neg (by rw [checked]; exact Bool.noConfusion), if_neg entry]

theorem elfExecArgvInner_invalid
    (invalid : ¬file.Valid ((m.store buf file.bytes).readEhdr buf)) :
    (elfExecArgvInner (some file) (some buf) pageDir m).1 ≠ none := by
  unfold elfExecArgvInner
  dsimp only
  generalize (m.store buf file.bytes).readEhdr buf = ehdr at *
  by_cases size : file.size < elf32EhdrSize
  · rw [if_pos size]
    exact Option.some_ne_none _
  · rw [if_neg size]
    by_cases got : file.got < elf32EhdrSize
    · rw [if_pos got]
      exact Option.some_ne_none _
    · rw [if_neg got]
      by_cases checked : elfValidate ehdr = false
      · rw [if_pos checked]
        exact Option.some_ne_none _
      · rw [if_neg checked]
        by_cases entry : ehdr.eEntry = 0
        · rw [if_pos entry]
          exact Option.some_ne_none _
        · exact absurd ⟨size, got, Bool.eq_true_of_not_eq_false checked, entry⟩ invalid

theorem valid_whole {ehdr : Elf32Ehdr} (valid : file.Valid ehdr) : 52 ≤ file.got.toNat :=
  Nat.le_of_not_lt valid.2.1

/-- `elf_exec_argv_inner` accepts a file whose segments it does not refuse. -/
theorem execAccepts_iff (loads : call.Loads m file buf)
    (undisturbed : ElfLoad.Undisturbed (m.store buf file.bytes) buf file.got) :
    call.ExecAccepts m ↔ file.Valid ((m.store buf file.bytes).readEhdr buf) ∧
      ∀ h ∈ (m.store buf file.bytes).segments buf, ElfLoad.execRefuses h = false := by
  unfold ExecveCall.ExecAccepts
  rw [loads.found, loads.taken]
  by_cases valid : file.Valid ((m.store buf file.bytes).readEhdr buf)
  · rw [elfExecArgvInner_valid valid, and_iff_right valid]
    exact ElfLoad.segmentLoop_accepts_iff (valid_whole valid) undisturbed (fun _ _ => rfl)
      (Memory.readEhdr _ buf).ePhnum.toNat_lt.le
  · exact iff_of_false (elfExecArgvInner_invalid valid) fun both => valid both.1

/-- Where `elf_execve` comes to its second pass, nothing was refused, and memory is as the file was
read or with the copy of the arguments. -/
theorem execveReady_some {m' : Memory} {b : UInt32} (found : call.file = some file)
    (taken : call.bufBlock = some buf)
    (ready : execveReady m call = some (m', b)) :
    b = buf ∧ call.current = true ∧ file.executable = true ∧
      file.Valid ((m.store buf file.bytes).readEhdr buf) ∧
      (∀ h ∈ (m.store buf file.bytes).segments buf, h.Loads file.got) ∧
      (m' = m.store buf file.bytes ∨ call.argv ≠ [] ∧ ∃ blob, call.argBlock = some blob ∧
        m' = storeArgs (m.store buf file.bytes) blob call.argv) := by
  have checks : execveChecks (m.store buf file.bytes) buf file.got 65536 0 = none ↔
      ∀ h ∈ (m.store buf file.bytes).segments buf, h.Loads file.got :=
    execveChecks_none_iff (Memory.readEhdr _ buf).ePhnum.toNat_lt.le
  unfold execveReady at ready
  rw [found, taken] at ready
  dsimp only at ready
  by_cases all : call.current = true ∧ file.executable = true ∧ ¬file.size < elf32EhdrSize ∧
      ¬file.got < elf32EhdrSize ∧ elfValidate ((m.store buf file.bytes).readEhdr buf) = true ∧
      ((m.store buf file.bytes).readEhdr buf).eEntry ≠ 0 ∧
      execveChecks (m.store buf file.bytes) buf file.got 65536 0 = none
  · rw [if_pos all] at ready
    rcases all with ⟨current, executable, size, got, checked, entry, none'⟩
    rw [checks] at none'
    have valid : file.Valid ((m.store buf file.bytes).readEhdr buf) := ⟨size, got, checked, entry⟩
    by_cases noArgs : call.argv = []
    · rw [if_pos noArgs] at ready
      cases ready
      exact ⟨rfl, current, executable, valid, none', Or.inl rfl⟩
    · rw [if_neg noArgs] at ready
      cases block : call.argBlock with
      | none =>
          rw [block] at ready
          cases ready
      | some blob =>
          rw [block] at ready
          cases ready
          exact ⟨rfl, current, executable, valid, none', Or.inr ⟨noArgs, blob, rfl, rfl⟩⟩
  · rw [if_neg all] at ready
    cases ready

theorem execveReady_of_loads (loads : call.Loads m file buf)
    (valid : file.Valid ((m.store buf file.bytes).readEhdr buf))
    (all : ∀ h ∈ (m.store buf file.bytes).segments buf, h.Loads file.got) :
    execveReady m call ≠ none := by
  rcases valid with ⟨size, got, checked, entry⟩
  have enough : ((m.store buf file.bytes).readEhdr buf).ePhnum.toNat ≤ 65536 + 0 :=
    (Memory.readEhdr _ buf).ePhnum.toNat_lt.le
  have none' : execveChecks (m.store buf file.bytes) buf file.got 65536 0 = none :=
    (execveChecks_none_iff enough).mpr all
  unfold execveReady
  rw [loads.found, loads.taken]
  dsimp only
  rw [if_pos ⟨loads.current, loads.executable, size, got, checked, entry, none'⟩]
  by_cases noArgs : call.argv = []
  · rw [if_pos noArgs]
    exact Option.some_ne_none _
  · rw [if_neg noArgs]
    rcases loads.arguments.resolve_left noArgs with ⟨blob, block, _⟩
    rw [block]
    exact Option.some_ne_none _

theorem execveReady_spec (loads : call.Loads m file buf) :
    (execveReady m call = none ∧ ¬(file.Valid ((m.store buf file.bytes).readEhdr buf) ∧
      ∀ h ∈ (m.store buf file.bytes).segments buf, h.Loads file.got)) ∨
    ∃ m', execveReady m call = some (m', buf) ∧
      file.Valid ((m.store buf file.bytes).readEhdr buf) ∧
      (∀ h ∈ (m.store buf file.bytes).segments buf, h.Loads file.got) ∧
      ∀ a, (m.store buf file.bytes).InFile buf file.got a → m' a = m.store buf file.bytes a := by
  cases ready : execveReady m call with
  | none =>
      left
      refine ⟨rfl, ?_⟩
      rintro ⟨valid, all⟩
      exact execveReady_of_loads loads valid all ready
  | some result =>
      rcases result with ⟨m', b⟩
      rcases execveReady_some loads.found loads.taken ready with
        ⟨rfl, _, _, valid, all, same | ⟨given, blob, block, copied⟩⟩
      · rw [same]
        exact Or.inr ⟨_, rfl, valid, all, fun _ _ => rfl⟩
      · right
        refine ⟨m', rfl, valid, all, ?_⟩
        intro a inside
        rw [copied]
        apply storeArgs_outside
        intro impossible
        rcases loads.arguments.resolve_left given with ⟨other, block', apart⟩
        rw [block] at block'
        cases block'
        exact apart a impossible inside

theorem execveAccepts_iff_ready : call.ExecveAccepts s ↔ execveReady s.memory call ≠ none := by
  unfold ExecveCall.ExecveAccepts
  rcases elfExecve_cases s call with
    ⟨none', negative, _⟩ | ⟨m', buf, s', entry, argCopy, some', _, _, done⟩
  · apply iff_of_false
    · intro zero
      rw [zero] at negative
      exact absurd negative (Int.lt_irrefl 0)
    · intro other
      exact other none'
  · rw [done, some']
    exact iff_of_true rfl (Option.some_ne_none _)

/-- A segment that loads is not refused by `elf_exec_argv_inner`, and copied by both. -/
theorem loads_exec {h : Elf32Phdr} {got : UInt32} (loads : h.Loads got) :
    ElfLoad.execRefuses h = false ∧ ElfLoad.execCopies got h = ElfLoad.execveCopies h := by
  rcases loads with ⟨memory, part⟩
  have limit : identityEnd = 1073741824 := rfl
  have bytes := got.toNat_lt
  constructor
  · apply decide_eq_false
    rw [UInt32.lt_iff_toNat_lt, UInt32.toNat_add, Nat.mod_eq_of_lt (by omega)]
    exact Nat.not_lt.mpr memory
  · have sum : h.pOffset + h.pFilesz ≤ got := by
      rw [UInt32.le_iff_toNat_le, UInt32.toNat_add, Nat.mod_eq_of_lt (by omega)]
      exact part
    unfold ElfLoad.execCopies ElfLoad.execveCopies
    rw [decide_eq_decide]
    exact and_iff_left sum

/-- Every address of a segment that lies in the file has a byte. -/
theorem imageByte_covered {bytes : List UInt8} {hs : List Elf32Phdr}
    (all : ∀ h ∈ hs, h.pOffset.toNat + h.pFilesz.toNat ≤ bytes.length) {h : Elf32Phdr}
    (member : h ∈ hs) {a : UInt32} (covered : h.Covers a) : ∃ b, imageByte bytes hs a = some b := by
  induction hs with
  | nil => exact absurd member List.not_mem_nil
  | cons g rest known =>
      rw [List.forall_mem_cons] at all
      rw [imageByte]
      cases later : imageByte bytes rest a with
      | some b => exact ⟨b, rfl⟩
      | none =>
          rcases List.mem_cons.mp member with rfl | behind
          · rw [Option.none_or]
            unfold Elf32Phdr.byte
            by_cases part : (a - h.pVaddr).toNat < h.pFilesz.toNat
            · rw [if_pos part]
              have inside := all.1
              exact ⟨_, List.getElem?_eq_getElem (by omega)⟩
            · rw [if_neg part, if_pos (covered.resolve_left part)]
              exact ⟨0, rfl⟩
          · rcases known all.2 behind with ⟨b, found⟩
            rw [later] at found
            cases found

end Loaders

/-- For every file whose segments do not lie over the file or its headers, what is promised of the
loaders holds exactly if the file is refused for its header, or `elf_exec_argv_inner` refuses one of
its segments, or all of them lie in the identity map and in the file. -/
theorem loaders_agree_iff (s : ExecState) (call : ExecveCall) (file : ElfFile) (buf : UInt32)
    (loads : call.Loads s.memory file buf)
    (undisturbed : ElfLoad.Undisturbed (s.memory.store buf file.bytes) buf file.got) :
    LoadersAgree s call file buf ↔
      ¬file.Valid ((s.memory.store buf file.bytes).readEhdr buf) ∨
        (∃ h ∈ (s.memory.store buf file.bytes).segments buf, ElfLoad.execRefuses h = true) ∨
        ∀ h ∈ (s.memory.store buf file.bytes).segments buf, h.Loads file.got := by
  have exec := execAccepts_iff loads undisturbed
  have ready := execveReady_spec loads
  have execve : call.ExecveAccepts s ↔
      file.Valid ((s.memory.store buf file.bytes).readEhdr buf) ∧
        ∀ h ∈ (s.memory.store buf file.bytes).segments buf, h.Loads file.got := by
    rw [execveAccepts_iff_ready]
    rcases ready with ⟨none', refused⟩ | ⟨m', some', valid, all, _⟩
    · exact iff_of_false (fun other => other none') refused
    · rw [some']
      exact iff_of_true (Option.some_ne_none _) ⟨valid, all⟩
  constructor
  · intro agree
    by_cases valid : file.Valid ((s.memory.store buf file.bytes).readEhdr buf)
    · right
      by_cases refuses : ∃ h ∈ (s.memory.store buf file.bytes).segments buf,
          ElfLoad.execRefuses h = true
      · exact Or.inl refuses
      · right
        apply (execve.mp (agree.accepts.mp (exec.mpr ⟨valid, ?_⟩))).2
        intro h member
        apply Bool.eq_false_of_not_eq_true
        intro refused
        exact refuses ⟨h, member, refused⟩
    · exact Or.inl valid
  · intro condition
    have accepts : call.ExecAccepts s.memory ↔ call.ExecveAccepts s := by
      rw [exec, execve]
      constructor
      · rintro ⟨valid, accepted⟩
        refine ⟨valid, ?_⟩
        rcases condition with invalid | ⟨h, member, refused⟩ | all
        · exact absurd valid invalid
        · rw [accepted h member] at refused
          cases refused
        · exact all
      · rintro ⟨valid, all⟩
        exact ⟨valid, fun h member => (loads_exec (all h member)).1⟩
    refine ⟨accepts, ?_, ?_⟩
    · intro m' accepted there h member a covered
      rcases execve.mp (accepts.mp accepted) with ⟨valid, all⟩
      rcases ready with ⟨none', _⟩ | ⟨m'', some', _, _, same⟩
      · rw [none'] at there
        cases there
      · rw [some'] at there
        cases there
        have whole := valid_whole valid
        have length : file.bytes.length = file.got.toNat := by
          have size := file.size.toNat_lt
          have short : file.bytes.length ≤ file.size.toNat := by
            rw [ElfFile.bytes, List.length_take]
            exact min_le_left _ _
          rw [ElfFile.got, UInt32.toNat_ofNat', Nat.mod_eq_of_lt (by omega)]
        have holds : (s.memory.store buf file.bytes).Holds buf file.bytes := by
          apply Memory.store_holds
          rw [length]
          exact file.got.toNat_lt.le
        rcases imageByte_covered (fun h member => by rw [length]; exact (all h member).2) member
          covered with ⟨b, image⟩
        refine ⟨b, image, ?_, ?_⟩
        · rw [loads.found, loads.taken, elfExecArgvInner_valid valid]
          unfold ElfLoad.execSegments
          have taken : ∀ h ∈ (s.memory.store buf file.bytes).segments buf,
              ElfLoad.execRefuses h = false ∧
                ElfLoad.execCopies file.got h = ElfLoad.execveCopies h ∧
                h.pOffset.toNat + h.pFilesz.toNat ≤ file.got.toNat := fun h member =>
            ⟨(loads_exec (all h member)).1, (loads_exec (all h member)).2, (all h member).2⟩
          rw [ElfLoad.unloaded_memory holds length whole undisturbed (fun _ _ => rfl) taken, image]
          rfl
        · unfold ElfLoad.execveSegments
          rw [ElfLoad.unloaded_memory holds length whole undisturbed same (fun h member =>
            ⟨rfl, rfl, (all h member).2⟩), image]
          rfl
    · intro h member outside
      have refused : ¬call.ExecveAccepts s := by
        intro accepted
        exact absurd ((execve.mp accepted).2 h member).2 (Nat.not_le.mpr outside)
      exact ⟨fun accepted => refused (accepts.mp accepted), refused⟩

def oneByteProgram : ElfFile where
  executable := true
  size := 85
  content := [0x7F, 0x45, 0x4C, 0x46, 1, 1, 1, 0, 0, 0, 0, 0, 0, 0, 0, 0, 2, 0, 3, 0, 1, 0, 0, 0,
    0, 0x80, 0x04, 0x08, 52, 0, 0, 0, 0, 0, 0, 0, 0, 0, 0, 0, 52, 0, 32, 0, 1, 0, 0, 0, 0, 0, 0, 0,
    1, 0, 0, 0, 84, 0, 0, 0, 0, 0x80, 0x04, 0x08, 0, 0, 0, 0, 1, 0, 0, 0, 1, 0, 0, 0, 5, 0, 0, 0,
    0, 0x10, 0, 0, 0x90]

def truncatedProgram : ElfFile := { oneByteProgram with size := 84 }

def loadsProgram (file : ElfFile) : ExecveCall where
  current := true
  pageDir := 0
  nest := 0
  file := some file
  path := []
  argv := []
  bufBlock := some 0x03000014
  argBlock := none

theorem oneByte_segments : (Memory.store (fun _ => 0) 0x03000014 oneByteProgram.bytes).segments
    0x03000014 = [⟨1, 84, 0x08048000, 1, 1⟩] := by decide +kernel

theorem oneByte_undisturbed : ElfLoad.Undisturbed
    (Memory.store (fun _ => 0) 0x03000014 oneByteProgram.bytes) 0x03000014 oneByteProgram.got := by
  unfold ElfLoad.Undisturbed
  rw [oneByte_segments, List.forall_mem_singleton]
  intro a covered
  have offset : (a - 0x08048000).toNat < 1 := covered.elim id id
  have place : a = 0x08048000 :=
    sub_eq_zero.mp (UInt32.toNat_inj.mp (Nat.lt_one_iff.mp offset))
  rw [place]
  unfold Memory.InFile
  decide +kernel

theorem loaders_agree_iff_oneByte :
    LoadersAgree (ExecState.start (fun _ => 0) 0 0 []) (loadsProgram oneByteProgram) oneByteProgram
      0x03000014 := by
  apply (loaders_agree_iff (ExecState.start (fun _ => 0) 0 0 []) (loadsProgram oneByteProgram)
    oneByteProgram 0x03000014 ⟨rfl, rfl, rfl, rfl, Or.inl rfl⟩ oneByte_undisturbed).mpr
  right
  right
  intro h member
  rw [show h = ⟨1, 84, 0x08048000, 1, 1⟩ from List.mem_singleton.mp (oneByte_segments ▸ member)]
  exact ⟨by decide, by decide⟩

/-- `elf_exec_argv_inner` accepts a file that is too short for its segment. -/
theorem truncated_accepted :
    ¬LoadersAgree (ExecState.start (fun _ => 0) 0 0 []) (loadsProgram truncatedProgram)
      truncatedProgram 0x03000014 := by
  intro agree
  have exec : (loadsProgram truncatedProgram).ExecAccepts fun _ => 0 := by
    unfold ExecveCall.ExecAccepts
    decide +kernel
  have execve : ((ExecState.start (fun _ => 0) 0 0 []).elfExecve
      (loadsProgram truncatedProgram)).1.1 = -2 := by decide +kernel
  have accepted : ((ExecState.start (fun _ => 0) 0 0 []).elfExecve
      (loadsProgram truncatedProgram)).1.1 = 0 := agree.accepts.mp exec
  rw [execve] at accepted
  cases accepted

end Trinux
