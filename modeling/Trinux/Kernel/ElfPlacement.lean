import Trinux.Kernel.Elf

namespace Trinux

/-!
# Where segments are placed

Both loaders compare the end of a segment with the end of the identity map and neither compares its
beginning with the end of the kernel.  In `elf_exec_argv_inner` the sum of address and size may
wrap, and both copy the part of the file whatever the size of the segment in memory is.
-/

def UserByte (a : UInt32) : Prop := kernelEndVirt ≤ a.toNat ∧ a.toNat < identityEnd

def Elf32Phdr.Contains (h : Elf32Phdr) (a : UInt32) : Prop :=
  ∃ k < h.pMemsz.toNat, a = h.pVaddr + UInt32.ofNat k

/-- Every byte that placing the segment writes is one for programs and belongs to the segment. -/
def Placement.Confined (p : Placement) : Prop :=
  ∀ a ∈ p.written, UserByte a ∧ p.phdr.Contains a

/-- A range of addresses lies between the end of the kernel and that of the identity map. -/
def UserRange (start size : UInt32) : Prop :=
  kernelEndVirt ≤ start.toNat ∧ start.toNat + size.toNat ≤ identityEnd

/-- What the header has to say: the part of the file, if it is copied, lies in the range for
programs and is not longer than the segment, and the zeroed part behind it, if there is one, lies in
that range too. -/
def Placement.Fits (p : Placement) : Prop :=
  (p.copied = true → p.phdr.pFilesz = 0 ∨
      UserRange p.phdr.pVaddr p.phdr.pFilesz ∧ p.phdr.pFilesz ≤ p.phdr.pMemsz) ∧
    (p.phdr.pFilesz < p.phdr.pMemsz →
      UserRange (p.phdr.pVaddr + p.phdr.pFilesz) (p.phdr.pMemsz - p.phdr.pFilesz))

/-! ## Ranges -/

theorem mem_addressesFrom {start a : UInt32} {n : Nat} :
    a ∈ addressesFrom start n ↔ ∃ k < n, a = start + UInt32.ofNat k := by
  rw [addressesFrom, List.mem_map]
  constructor
  · rintro ⟨k, inside, rfl⟩
    exact ⟨k, List.mem_range.mp inside, rfl⟩
  · rintro ⟨k, inside, rfl⟩
    exact ⟨k, List.mem_range.mpr inside, rfl⟩

theorem ofNat_toNat_of_lt {k : Nat} {size : UInt32} (inside : k < size.toNat) :
    (UInt32.ofNat k).toNat = k := by
  rw [UInt32.toNat_ofNat']
  exact Nat.mod_eq_of_lt (inside.trans size.toNat_lt)

theorem toNat_add_ofNat {start : UInt32} {k : Nat} (small : start.toNat + k < 2 ^ 32) :
    (start + UInt32.ofNat k).toNat = start.toNat + k := by
  rw [UInt32.toNat_add, UInt32.toNat_ofNat', Nat.add_mod_mod]
  exact Nat.mod_eq_of_lt small

/-- All bytes of a range are for programs exactly if the range is empty or lies in theirs. -/
theorem userBytes_iff (start size : UInt32) :
    (∀ a ∈ addressesFrom start size.toNat, UserByte a) ↔ size = 0 ∨ UserRange start size := by
  constructor
  · intro all
    by_cases empty : size = 0
    · exact Or.inl empty
    · refine Or.inr ?_
      have positive : 0 < size.toNat := by
        refine Nat.pos_of_ne_zero fun zero => empty (UInt32.toNat.inj zero)
      have first := all start (mem_addressesFrom.mpr ⟨0, positive, by simp⟩)
      refine ⟨first.1, not_lt.mp fun long => ?_⟩
      have inside : identityEnd - start.toNat < size.toNat := by
        have below := first.2
        omega
      have sum : (start + UInt32.ofNat (identityEnd - start.toNat)).toNat = identityEnd := by
        have below := first.2
        rw [toNat_add_ofNat (by rw [identityEnd] at *; omega)]
        omega
      have last := (all _ (mem_addressesFrom.mpr ⟨_, inside, rfl⟩)).2
      rw [sum] at last
      exact absurd last (lt_irrefl _)
  · rintro (rfl | ⟨above, below⟩) a member
    · rcases mem_addressesFrom.mp member with ⟨k, impossible, -⟩
      exact absurd impossible (Nat.not_lt_zero k)
    · rcases mem_addressesFrom.mp member with ⟨k, inside, rfl⟩
      have sum : (start + UInt32.ofNat k).toNat = start.toNat + k :=
        toNat_add_ofNat (by rw [identityEnd] at below; omega)
      rw [UserByte, sum]
      omega

/-- The part of the file belongs to the segment exactly if it is not longer. -/
theorem contains_copied_iff (h : Elf32Phdr) :
    (∀ a ∈ addressesFrom h.pVaddr h.pFilesz.toNat, h.Contains a) ↔ h.pFilesz ≤ h.pMemsz := by
  constructor
  · intro all
    refine UInt32.not_lt.mp fun longer => ?_
    rw [UInt32.lt_iff_toNat_lt] at longer
    rcases all _ (mem_addressesFrom.mpr ⟨_, longer, rfl⟩) with ⟨k, inside, same⟩
    have offsets := congrArg UInt32.toNat (add_left_cancel same)
    rw [ofNat_toNat_of_lt longer, ofNat_toNat_of_lt inside] at offsets
    exact absurd inside (offsets ▸ lt_irrefl _)
  · intro short a member
    rcases mem_addressesFrom.mp member with ⟨k, inside, rfl⟩
    exact ⟨k, inside.trans_le (UInt32.le_iff_toNat_le.mp short), rfl⟩

theorem contains_zeroed {h : Elf32Phdr} (longer : h.pFilesz < h.pMemsz) :
    ∀ a ∈ addressesFrom (h.pVaddr + h.pFilesz) (h.pMemsz - h.pFilesz).toNat, h.Contains a := by
  intro a member
  rcases mem_addressesFrom.mp member with ⟨k, inside, rfl⟩
  have order := UInt32.lt_iff_toNat_lt.mp longer
  rw [UInt32.toNat_sub_of_le _ _ (UInt32.le_iff_toNat_le.mpr order.le)] at inside
  refine ⟨h.pFilesz.toNat + k, by omega, ?_⟩
  rw [add_assoc, UInt32.ofNat_add, UInt32.ofNat_toNat]

theorem confined_iff (p : Placement) : p.Confined ↔ p.Fits := by
  have parts : p.Confined ↔
      (p.copied = true → ∀ a ∈ addressesFrom p.phdr.pVaddr p.phdr.pFilesz.toNat,
        UserByte a ∧ p.phdr.Contains a) ∧
      (p.phdr.pFilesz < p.phdr.pMemsz →
        ∀ a ∈ addressesFrom (p.phdr.pVaddr + p.phdr.pFilesz) (p.phdr.pMemsz - p.phdr.pFilesz).toNat,
          UserByte a ∧ p.phdr.Contains a) := by
    rw [Placement.Confined, Placement.written, List.forall_mem_append]
    refine and_congr ?_ ?_
    · cases p.copied with
      | true => exact ⟨fun all _ => all, fun all => all rfl⟩
      | false =>
          exact ⟨fun _ impossible => absurd impossible Bool.false_ne_true,
            fun _ a member => absurd member List.not_mem_nil⟩
    · by_cases longer : p.phdr.pFilesz < p.phdr.pMemsz
      · rw [if_pos longer]
        exact ⟨fun all _ => all, fun all => all longer⟩
      · rw [if_neg longer]
        exact ⟨fun _ shorter => absurd shorter longer, fun _ a member => absurd member List.not_mem_nil⟩
  rw [parts, Placement.Fits]
  refine and_congr (imp_congr_right fun _ => ?_) (imp_congr_right fun longer => ?_)
  · rw [forall₂_and, userBytes_iff, contains_copied_iff]
    constructor
    · rintro ⟨empty | range, short⟩
      · exact Or.inl empty
      · exact Or.inr ⟨range, short⟩
    · rintro (empty | ⟨range, short⟩)
      · refine ⟨Or.inl empty, ?_⟩
        rw [empty]
        exact UInt32.zero_le
      · exact ⟨Or.inr range, short⟩
  · rw [forall₂_and, userBytes_iff, and_iff_left (contains_zeroed longer)]
    refine or_iff_right fun empty => ?_
    have order := UInt32.lt_iff_toNat_lt.mp longer
    have zero := congrArg UInt32.toNat empty
    rw [UInt32.toNat_sub_of_le _ _ (UInt32.le_iff_toNat_le.mpr order.le)] at zero
    change _ = 0 at zero
    omega

/-! ## What a loop leaves alone -/

theorem addressesFrom_succ (start : UInt32) (n : Nat) :
    addressesFrom start (n + 1) = addressesFrom start n ++ [start + UInt32.ofNat n] := by
  rw [addressesFrom, addressesFrom, List.range_succ, List.map_append, List.map_singleton]

namespace Memory

theorem memcpy_outside (m : Memory) (dest src : UInt32) {n : Nat} {a : UInt32}
    (outside : a ∉ addressesFrom dest n) : m.memcpy dest src n a = m a := by
  induction n with
  | zero => rfl
  | succ n known =>
      rw [addressesFrom_succ, List.mem_append, not_or, List.mem_singleton] at outside
      rw [memcpy, Function.update_of_ne outside.2]
      exact known outside.1

theorem memset_outside (m : Memory) (dest : UInt32) (c : UInt8) {n : Nat} {a : UInt32}
    (outside : a ∉ addressesFrom dest n) : m.memset dest c n a = m a := by
  induction n with
  | zero => rfl
  | succ n known =>
      rw [addressesFrom_succ, List.mem_append, not_or, List.mem_singleton] at outside
      rw [memset, Function.update_of_ne outside.2]
      exact known outside.1

section Headers

variable {m m' : Memory}

theorem byte_congr {a : UInt32} {size : Nat}
    (same : ∀ b, (b - a).toNat < size → m' b = m b) (k : UInt32) (inside : k.toNat < size) :
    m' (a + k) = m (a + k) := by
  apply same
  rw [add_sub_cancel_left]
  exact inside

theorem readU32_congr_of {a : UInt32} {size : Nat}
    (same : ∀ b, (b - a).toNat < size → m' b = m b) (k : UInt32) (inside : k.toNat + 3 < size) :
    m'.readU32 (a + k) = m.readU32 (a + k) := by
  have at' : ∀ j : UInt32, j.toNat ≤ 3 → m' (a + k + j) = m (a + k + j) := by
    intro j few
    rw [add_assoc]
    apply byte_congr same
    rw [UInt32.toNat_add]
    exact (Nat.mod_le _ _).trans_lt (by omega)
  have zero := at' 0 (by decide)
  rw [add_zero] at zero
  rw [readU32, readU32, zero, at' 1 (by decide), at' 2 (by decide), at' 3 (by decide)]

theorem readU16_congr_of {a : UInt32} {size : Nat}
    (same : ∀ b, (b - a).toNat < size → m' b = m b) (k : UInt32) (inside : k.toNat + 1 < size) :
    m'.readU16 (a + k) = m.readU16 (a + k) := by
  have second : m' (a + k + 1) = m (a + k + 1) := by
    rw [add_assoc]
    apply byte_congr same
    rw [UInt32.toNat_add]
    exact (Nat.mod_le _ _).trans_lt inside
  rw [readU16, readU16, byte_congr same k (by omega), second]

theorem readEhdr_congr {a : UInt32} (same : ∀ b, (b - a).toNat < 52 → m' b = m b) :
    m'.readEhdr a = m.readEhdr a := by
  have magic := readU32_congr_of same 0 (by decide)
  rw [add_zero] at magic
  rw [readEhdr, readEhdr, magic, byte_congr same 4 (by decide), byte_congr same 5 (by decide),
    readU16_congr_of same 16 (by decide), readU16_congr_of same 18 (by decide),
    readU32_congr_of same 24 (by decide), readU32_congr_of same 28 (by decide),
    readU16_congr_of same 42 (by decide), readU16_congr_of same 44 (by decide)]

theorem readPhdr_congr {a : UInt32} (same : ∀ b, (b - a).toNat < 24 → m' b = m b) :
    m'.readPhdr a = m.readPhdr a := by
  have type := readU32_congr_of same 0 (by decide)
  rw [add_zero] at type
  rw [readPhdr, readPhdr, type, readU32_congr_of same 4 (by decide),
    readU32_congr_of same 8 (by decide), readU32_congr_of same 16 (by decide),
    readU32_congr_of same 20 (by decide)]

end Headers

variable {m m' : Memory} {buf : UInt32}

/-- The headers of the file in a block lie in the memory of the kernel, as they do where the table
is inside the file. -/
structure TableInKernel (m : Memory) (buf : UInt32) : Prop where
  ehdr : buf.toNat + 52 ≤ kernelEndVirt
  phdrs : ∀ i < (m.readEhdr buf).ePhnum.toNat,
    (phdrAddress buf (m.readEhdr buf) i).toNat + 32 ≤ kernelEndVirt

def phdrOf (m : Memory) (buf : UInt32) (i : Nat) : Elf32Phdr :=
  m.readPhdr (phdrAddress buf (m.readEhdr buf) i)

def Heads (m : Memory) (buf a : UInt32) : Prop :=
  (a - buf).toNat < 52 ∨
    ∃ i < (m.readEhdr buf).ePhnum.toNat, (a - phdrAddress buf (m.readEhdr buf) i).toNat < 32

theorem TableInKernel.heads (table : m.TableInKernel buf) {a : UInt32} (head : m.Heads buf a) :
    a.toNat < kernelEndVirt := by
  have near : ∀ {start : UInt32} {size : Nat}, start.toNat + size ≤ kernelEndVirt →
      (a - start).toNat < size → a.toNat < kernelEndVirt := by
    intro start size inside close
    have place : a.toNat = (start.toNat + (a - start).toNat) % 2 ^ 32 := by
      rw [← UInt32.toNat_add, add_sub_cancel]
    rw [place, Nat.mod_eq_of_lt (by rw [kernelEndVirt] at inside; omega)]
    omega
  rcases head with first | ⟨i, listed, close⟩
  · exact near table.ehdr first
  · exact near (table.phdrs i listed) close

def SameHeads (m m' : Memory) (buf : UInt32) : Prop := ∀ a, m.Heads buf a → m' a = m a

theorem SameHeads.readEhdr (same : m.SameHeads m' buf) : m'.readEhdr buf = m.readEhdr buf :=
  readEhdr_congr fun a inside => same a (Or.inl inside)

theorem SameHeads.readPhdr (same : m.SameHeads m' buf) {i : Nat}
    (listed : i < (m.readEhdr buf).ePhnum.toNat) :
    m'.readPhdr (phdrAddress buf (m.readEhdr buf) i) = m.phdrOf buf i :=
  readPhdr_congr fun a inside => same a (Or.inr ⟨i, listed, by omega⟩)

end Memory

namespace ElfLoad

variable {m : Memory} {buf pageDir : UInt32} {refuses copies : Elf32Phdr → Bool}

/-- Placing a segment changes the bytes that it writes only. -/
theorem place_outside (l : ElfLoad) (buf pageDir : UInt32) {p : Placement} {a : UInt32}
    (outside : a ∉ p.written) : (l.place buf pageDir p).memory a = l.memory a := by
  rw [Placement.written, List.mem_append, not_or] at outside
  have copied : (if p.copied = true then
      l.memory.memcpy p.phdr.pVaddr (buf + p.phdr.pOffset) p.phdr.pFilesz.toNat else l.memory) a =
        l.memory a := by
    split
    · rename_i copies
      rw [if_pos copies] at outside
      exact Memory.memcpy_outside _ _ _ outside.1
    · rfl
  rw [place]
  dsimp only
  split
  · rename_i longer
    rw [if_pos longer] at outside
    rw [Memory.memset_outside _ _ _ outside.2]
    exact copied
  · exact copied

theorem segmentLoop_placed (l : ElfLoad) (refuses copies : Elf32Phdr → Bool) (buf pageDir : UInt32)
    (fuel i : Nat) : ∃ more, (l.segmentLoop refuses copies buf pageDir fuel i).2.placed =
      l.placed ++ more := by
  induction fuel generalizing l i with
  | zero => exact ⟨[], (List.append_nil _).symm⟩
  | succ fuel known =>
      rw [segmentLoop]
      dsimp only
      split
      · split
        · exact known l (i + 1)
        · split
          · exact ⟨[], (List.append_nil _).symm⟩
          · rcases known (l.place buf pageDir ⟨_, copies _⟩) (i + 1) with ⟨more, placed⟩
            exact ⟨_ :: more, by rw [placed, place, List.append_assoc, List.singleton_append]⟩
      · exact ⟨[], (List.append_nil _).symm⟩

/-- The segment of a header is placed by a loop that begins with a given number: no header from there
on up to it is refused. -/
def Reaches (m : Memory) (refuses : Elf32Phdr → Bool) (buf : UInt32) (first i : Nat) : Prop :=
  first ≤ i ∧ i < (m.readEhdr buf).ePhnum.toNat ∧ (m.phdrOf buf i).pType = ptLoad ∧
    ∀ k, first ≤ k → k ≤ i → (m.phdrOf buf k).pType = ptLoad → refuses (m.phdrOf buf k) = false

def TableSpared (m : Memory) (refuses copies : Elf32Phdr → Bool) (buf : UInt32) (first : Nat) :
    Prop :=
  ∀ k, Reaches m refuses buf first k →
    (⟨m.phdrOf buf k, copies (m.phdrOf buf k)⟩ : Placement).Fits →
      ∀ a, m.Heads buf a → a ∉ (⟨m.phdrOf buf k, copies (m.phdrOf buf k)⟩ : Placement).written

/-- A table in the memory of the kernel, as every table inside the file is, is spared. -/
theorem tableSpared_of_inKernel (table : m.TableInKernel buf) (refuses copies : Elf32Phdr → Bool)
    (first : Nat) : TableSpared m refuses copies buf first := by
  intro k _ fits a head member
  exact absurd ((confined_iff _).mpr fits a member).1.1 (not_le.mpr (table.heads head))

/-- As long as the segments are confined and spare the headers, the headers that the loop comes to
are those of the file as it was read. -/
theorem segmentLoop_confined_iff {l : ElfLoad} {fuel i : Nat}
    (spared : TableSpared m refuses copies buf i) (same : m.SameHeads l.memory buf)
    (enough : (m.readEhdr buf).ePhnum.toNat ≤ fuel + i) :
    (∀ p ∈ (l.segmentLoop refuses copies buf pageDir fuel i).2.placed, p.Confined) ↔
      (∀ p ∈ l.placed, p.Confined) ∧ ∀ k, Reaches m refuses buf i k →
        (⟨m.phdrOf buf k, copies (m.phdrOf buf k)⟩ : Placement).Fits := by
  induction fuel generalizing l i with
  | zero =>
      refine ⟨fun all => ⟨all, fun k reaches => ?_⟩, And.left⟩
      have below := reaches.2.1
      have above := reaches.1
      omega
  | succ fuel known =>
      have ehdr := same.readEhdr
      rw [segmentLoop]
      dsimp only
      rw [ehdr]
      by_cases inside : i < (m.readEhdr buf).ePhnum.toNat
      · have phdr : l.memory.readPhdr (phdrAddress buf (m.readEhdr buf) i) = m.phdrOf buf i :=
          same.readPhdr inside
        rw [if_pos inside, phdr]
        have narrow : ∀ k, Reaches m refuses buf i k → k ≠ i → Reaches m refuses buf (i + 1) k :=
          fun k reaches apart => ⟨Nat.lt_of_le_of_ne reaches.1 (Ne.symm apart), reaches.2.1,
            reaches.2.2.1, fun j after before => reaches.2.2.2 j (Nat.le_of_succ_le after) before⟩
        by_cases load : (m.phdrOf buf i).pType = ptLoad
        · rw [if_neg (not_not.mpr load)]
          cases refused : refuses (m.phdrOf buf i) with
          | true =>
              rw [if_pos rfl]
              refine ⟨fun all => ⟨all, fun k reaches => ?_⟩, And.left⟩
              have accepted := reaches.2.2.2 i (le_refl i) reaches.1 load
              rw [refused] at accepted
              cases accepted
          | false =>
              rw [if_neg Bool.false_ne_true]
              have widen : ∀ k, Reaches m refuses buf (i + 1) k → Reaches m refuses buf i k := by
                intro k reaches
                refine ⟨Nat.le_of_succ_le reaches.1, reaches.2.1, reaches.2.2.1,
                  fun j after before isLoad => ?_⟩
                rcases Nat.eq_or_lt_of_le after with here | later
                · rw [← here]
                  exact refused
                · exact reaches.2.2.2 j later before isLoad
              have here : Reaches m refuses buf i i := by
                refine ⟨le_refl i, inside, load, fun j after before _ => ?_⟩
                rw [Nat.le_antisymm before after]
                exact refused
              by_cases fits : (⟨m.phdrOf buf i, copies (m.phdrOf buf i)⟩ : Placement).Fits
              · have confined := (confined_iff _).mpr fits
                have sameAfter : m.SameHeads
                    (l.place buf pageDir ⟨m.phdrOf buf i, copies (m.phdrOf buf i)⟩).memory buf :=
                  fun a head => (l.place_outside buf pageDir (spared i here fits a head)).trans
                    (same a head)
                rw [known (fun k reaches => spared k (widen k reaches)) sameAfter (by omega)]
                have placed : (∀ p ∈ (l.place buf pageDir
                    ⟨m.phdrOf buf i, copies (m.phdrOf buf i)⟩).placed, p.Confined) ↔
                    ∀ p ∈ l.placed, p.Confined := by
                  rw [place, List.forall_mem_append]
                  refine and_iff_left fun p member => ?_
                  rw [List.mem_singleton.mp member]
                  exact confined
                rw [placed]
                refine and_congr_right fun _ => ⟨fun all k reaches => ?_,
                  fun all k reaches => all k (widen k reaches)⟩
                by_cases apart : k = i
                · rw [apart]
                  exact fits
                · exact all k (narrow k reaches apart)
              · refine iff_of_false (fun all => ?_) fun both => fits (both.2 i here)
                rcases segmentLoop_placed
                  (l.place buf pageDir ⟨m.phdrOf buf i, copies (m.phdrOf buf i)⟩) refuses copies buf
                  pageDir fuel (i + 1) with ⟨more, placed⟩
                refine fits ((confined_iff _).mp (all _ ?_))
                rw [placed]
                exact List.mem_append_left _ (List.mem_append_right _ (List.mem_singleton_self _))
        · have widen : ∀ k, Reaches m refuses buf (i + 1) k → Reaches m refuses buf i k := by
            intro k reaches
            refine ⟨Nat.le_of_succ_le reaches.1, reaches.2.1, reaches.2.2.1,
              fun j after before isLoad => ?_⟩
            rcases Nat.eq_or_lt_of_le after with here | later
            · rw [← here] at isLoad
              exact absurd isLoad load
            · exact reaches.2.2.2 j later before isLoad
          rw [if_pos load, known (fun k reaches => spared k (widen k reaches)) same (by omega)]
          refine and_congr_right fun _ => ⟨fun all k reaches => all k (narrow k reaches ?_),
            fun all k reaches => all k (widen k reaches)⟩
          rintro rfl
          exact load reaches.2.2.1
      · rw [if_neg inside]
        refine ⟨fun all => ⟨all, fun k reaches => ?_⟩, And.left⟩
        have below := reaches.2.1
        have above := reaches.1
        omega

end ElfLoad

/-! ## The loaders -/

/-- What the program headers have to say: each segment that the loop comes to fits. -/
def Memory.SegmentsFit (m : Memory) (refuses copies : Elf32Phdr → Bool) (buf : UInt32) : Prop :=
  ∀ i, ElfLoad.Reaches m refuses buf 0 i →
    (⟨m.phdrOf buf i, copies (m.phdrOf buf i)⟩ : Placement).Fits

theorem segmentLoop_segmentsFit {m : Memory} {refuses copies : Elf32Phdr → Bool} {buf : UInt32}
    (spared : ElfLoad.TableSpared m refuses copies buf 0) (pageDir : UInt32) :
    (∀ p ∈ (m.unloaded.segmentLoop refuses copies buf pageDir 65536 0).2.placed, p.Confined) ↔
      m.SegmentsFit refuses copies buf := by
  have enough : (m.readEhdr buf).ePhnum.toNat ≤ 65536 + 0 := (m.readEhdr buf).ePhnum.toNat_lt.le
  have same : m.SameHeads m.unloaded.memory buf := fun _ _ => rfl
  rw [ElfLoad.segmentLoop_confined_iff spared same enough]
  exact ⟨And.right, fun fits => ⟨fun p member => absurd member List.not_mem_nil, fits⟩⟩

/-- Where `elf_exec_argv_inner` comes to its loop: the memory, the block of the file and `got`. -/
def execReady (file : Option ElfFile) (block : Option UInt32) (m : Memory) :
    Option (Memory × UInt32 × UInt32) :=
  match file, block with
  | some file, some buf =>
      let ehdr := (m.store buf file.bytes).readEhdr buf
      if ¬file.size < elf32EhdrSize ∧ ¬file.got < elf32EhdrSize ∧ elfValidate ehdr = true ∧
          ehdr.eEntry ≠ 0 then some (m.store buf file.bytes, buf, file.got)
      else none
  | _, _ => none

theorem elfExecArgvInner_placed (file : Option ElfFile) (block : Option UInt32) (pageDir : UInt32)
    (m : Memory) : (elfExecArgvInner file block pageDir m).2.placed =
      match execReady file block m with
      | none => []
      | some (m', buf, got) => (m'.unloaded.execSegments buf got pageDir).2.placed := by
  cases file with
  | none => rfl
  | some file =>
      cases block with
      | none =>
          unfold elfExecArgvInner execReady
          dsimp only
          split
          · rfl
          · rfl
      | some buf =>
          unfold elfExecArgvInner execReady
          dsimp only
          generalize (m.store buf file.bytes).readEhdr buf = ehdr
          by_cases small : file.size < elf32EhdrSize
          · rw [if_pos small, if_neg fun all => all.1 small]
            rfl
          rw [if_neg small]
          by_cases short : file.got < elf32EhdrSize
          · rw [if_pos short, if_neg fun all => all.2.1 short]
            rfl
          rw [if_neg short]
          by_cases invalid : elfValidate ehdr = false
          · rw [if_pos invalid, if_neg fun all => Bool.false_ne_true (invalid.symm.trans all.2.2.1)]
            rfl
          rw [if_neg invalid]
          by_cases zero : ehdr.eEntry = 0
          · rw [if_pos zero, if_neg fun all => all.2.2.2 zero]
            rfl
          · rw [if_neg zero, if_pos ⟨small, short, Bool.eq_true_of_not_eq_false invalid, zero⟩]

/-- Where `elf_execve` comes to its second pass: the memory and the block of the file. -/
def execveReady (m : Memory) (call : ExecveCall) : Option (Memory × UInt32) :=
  match call.file, call.bufBlock with
  | some file, some buf =>
      let read := m.store buf file.bytes
      let ehdr := read.readEhdr buf
      if call.current = true ∧ file.executable = true ∧ ¬file.size < elf32EhdrSize ∧
          ¬file.got < elf32EhdrSize ∧ elfValidate ehdr = true ∧ ehdr.eEntry ≠ 0 ∧
          execveChecks read buf file.got 65536 0 = none then
        if call.argv = [] then some (read, buf)
        else call.argBlock.map fun blob => (storeArgs read blob call.argv, buf)
      else none
  | _, _ => none

/-- Without arguments the memory is that with the file in its block. -/
theorem execveReady_noArgs {m m' : Memory} {call : ExecveCall} {buf : UInt32}
    (noArgs : call.argv = []) (ready : execveReady m call = some (m', buf)) :
    ∃ file, call.file = some file ∧ call.bufBlock = some buf ∧ m' = m.store buf file.bytes := by
  rw [execveReady] at ready
  split at ready
  · rename_i file block isFile isBlock
    dsimp only at ready
    split at ready
    · cases ready
      exact ⟨file, isFile, isBlock, rfl⟩
    · cases ready
  · cases ready

theorem execveChecks_error {m : Memory} {buf got : UInt32} {fuel i : Nat} {error : Int}
    (checked : execveChecks m buf got fuel i = some error) : error < 0 := by
  induction fuel generalizing i with
  | zero => cases checked
  | succ fuel known =>
      rw [execveChecks] at checked
      dsimp only at checked
      split_ifs at checked
      · exact known checked
      · cases checked
        decide
      · cases checked
        decide
      · exact known checked

structure ExecState.Prepared (s s' : ExecState) (m : Memory) : Prop where
  memory : s'.memory = m
  mapped : s'.mapped = s.mapped
  heapStart : s'.heapStart = s.heapStart
  heapBrk : s'.heapBrk = s.heapBrk

/-- `elf_execve` refuses the call, or it comes to its second pass. -/
theorem elfExecve_cases (s : ExecState) (call : ExecveCall) :
    (execveReady s.memory call = none ∧ (s.elfExecve call).1.1 < 0 ∧
      (s.elfExecve call).1.2 = none ∧ (s.elfExecve call).2.placed = s.placed) ∨
    ∃ m' buf s' entry argCopy, execveReady s.memory call = some (m', buf) ∧ s.Prepared s' m' ∧
      s'.placed = s.placed ∧ s.elfExecve call = s'.commit call buf entry argCopy := by
  unfold ExecState.elfExecve execveReady
  by_cases nobody : call.current = false
  · left
    have refused : ∀ rest : Prop, ¬(call.current = true ∧ rest) := fun _ both =>
      Bool.false_ne_true (nobody.symm.trans both.1)
    rw [if_pos nobody]
    cases call.file with
    | none => exact ⟨rfl, Int.negSucc_lt_zero _, rfl, rfl⟩
    | some file =>
        cases call.bufBlock with
        | none => exact ⟨rfl, Int.negSucc_lt_zero _, rfl, rfl⟩
        | some buf =>
            dsimp only
            rw [if_neg (refused _)]
            exact ⟨rfl, Int.negSucc_lt_zero _, rfl, rfl⟩
  rw [if_neg nobody]
  have somebody : call.current = true := Bool.eq_true_of_not_eq_false nobody
  cases call.file with
  | none => exact Or.inl ⟨rfl, Int.negSucc_lt_zero _, rfl, rfl⟩
  | some file =>
      cases call.bufBlock with
      | none =>
          left
          dsimp only
          split
          · exact ⟨rfl, Int.negSucc_lt_zero _, rfl, rfl⟩
          · split
            · exact ⟨rfl, Int.negSucc_lt_zero _, rfl, rfl⟩
            · exact ⟨rfl, Int.negSucc_lt_zero _, rfl, rfl⟩
      | some buf =>
          dsimp only
          generalize isRead : s.memory.store buf file.bytes = read
          by_cases forbidden : file.executable = false
          · rw [if_pos forbidden,
              if_neg fun all => Bool.false_ne_true (forbidden.symm.trans all.2.1)]
            exact Or.inl ⟨rfl, Int.negSucc_lt_zero _, rfl, rfl⟩
          rw [if_neg forbidden]
          by_cases small : file.size < elf32EhdrSize
          · rw [if_pos small, if_neg fun all => all.2.2.1 small]
            exact Or.inl ⟨rfl, Int.negSucc_lt_zero _, rfl, rfl⟩
          rw [if_neg small]
          by_cases short : file.got < elf32EhdrSize
          · rw [if_pos short, if_neg fun all => all.2.2.2.1 short]
            exact Or.inl ⟨rfl, Int.negSucc_lt_zero _, rfl, rfl⟩
          rw [if_neg short]
          by_cases invalid : elfValidate (read.readEhdr buf) = false
          · rw [if_pos invalid,
              if_neg fun all => Bool.false_ne_true (invalid.symm.trans all.2.2.2.2.1)]
            exact Or.inl ⟨rfl, Int.negSucc_lt_zero _, rfl, rfl⟩
          rw [if_neg invalid]
          by_cases zero : (read.readEhdr buf).eEntry = 0
          · rw [if_pos zero, if_neg fun all => all.2.2.2.2.2.1 zero]
            exact Or.inl ⟨rfl, Int.negSucc_lt_zero _, rfl, rfl⟩
          rw [if_neg zero]
          cases checked : execveChecks read buf file.got 65536 0 with
          | some error =>
              dsimp only
              rw [if_neg (show ¬(_ ∧ _ ∧ _ ∧ _ ∧ _ ∧ _ ∧ some error = none) from
                fun all => (by cases all.2.2.2.2.2.2))]
              exact Or.inl ⟨rfl, execveChecks_error checked, rfl, rfl⟩
          | none =>
              have ready : call.current = true ∧ file.executable = true ∧
                  ¬file.size < elf32EhdrSize ∧ ¬file.got < elf32EhdrSize ∧
                  elfValidate (read.readEhdr buf) = true ∧ (read.readEhdr buf).eEntry ≠ 0 ∧
                  (none : Option Int) = none :=
                ⟨somebody, Bool.eq_true_of_not_eq_false forbidden, small, short,
                  Bool.eq_true_of_not_eq_false invalid, zero, rfl⟩
              dsimp only
              rw [if_pos ready]
              by_cases noArgs : call.argv = []
              · rw [if_pos noArgs, if_pos noArgs]
                exact Or.inr ⟨read, buf, { s.take buf with memory := read },
                  (read.readEhdr buf).eEntry, none, rfl, ⟨rfl, rfl, rfl, rfl⟩, rfl, rfl⟩
              · rw [if_neg noArgs, if_neg noArgs]
                cases call.argBlock with
                | none => exact Or.inl ⟨rfl, Int.negSucc_lt_zero _, rfl, rfl⟩
                | some blob =>
                    exact Or.inr ⟨storeArgs read blob call.argv, buf,
                      { ({ s.take buf with memory := read } : ExecState).take blob with
                        memory := storeArgs read blob call.argv },
                      (read.readEhdr buf).eEntry, some blob, rfl, ⟨rfl, rfl, rfl, rfl⟩, rfl, rfl⟩

theorem elfExecve_placed (s : ExecState) (call : ExecveCall) :
    (s.elfExecve call).2.placed = s.placed ++
      match execveReady s.memory call with
      | none => []
      | some (m', buf) => (m'.unloaded.execveSegments buf call.pageDir).placed := by
  rcases elfExecve_cases s call with ⟨refused, -, -, same⟩ |
    ⟨m', buf, s', entry, argCopy, ready, prepared, same, done⟩
  · rw [refused, same]
    exact (List.append_nil _).symm
  · rw [ready, done, ← same, ← prepared.memory]
    rfl

/-- Both loaders write for a segment only bytes of programs and of the segment, exactly if the
headers of the segments that they place fit.  The headers are those of the file as long as no
segment lies over them. -/
theorem loaders_confined_iff (file : Option ElfFile) (block : Option UInt32) (pageDir : UInt32)
    (m : Memory) (call : ExecveCall) (heapStart heapBrk : UInt32) (name : List UInt8)
    (execSpared : ∀ m' buf got, execReady file block m = some (m', buf, got) →
      ElfLoad.TableSpared m' ElfLoad.execRefuses (ElfLoad.execCopies got) buf 0)
    (execveSpared : ∀ m' buf, execveReady m call = some (m', buf) →
      ElfLoad.TableSpared m' (fun _ => false) ElfLoad.execveCopies buf 0) :
    ((∀ p ∈ (elfExecArgvInner file block pageDir m).2.placed, p.Confined) ↔
      ∀ m' buf got, execReady file block m = some (m', buf, got) →
        m'.SegmentsFit ElfLoad.execRefuses (ElfLoad.execCopies got) buf) ∧
    ((∀ p ∈ ((ExecState.start m heapStart heapBrk name).elfExecve call).2.placed, p.Confined) ↔
      ∀ m' buf, execveReady m call = some (m', buf) →
        m'.SegmentsFit (fun _ => false) ElfLoad.execveCopies buf) := by
  constructor
  · rw [elfExecArgvInner_placed]
    cases ready : execReady file block m with
    | none =>
        refine iff_of_true (fun p member => absurd member List.not_mem_nil) ?_
        intro _ _ _ impossible
        cases impossible
    | some loaded =>
        rcases loaded with ⟨m', buf, got⟩
        dsimp only
        rw [ElfLoad.execSegments, segmentLoop_segmentsFit (execSpared m' buf got ready)]
        exact ⟨fun fits _ _ _ same => (by cases same; exact fits), fun all => all m' buf got rfl⟩
  · rw [elfExecve_placed]
    change (∀ p ∈ [] ++ (match execveReady m call with
      | none => []
      | some (m', buf) => (m'.unloaded.execveSegments buf call.pageDir).placed), p.Confined) ↔ _
    rw [List.nil_append]
    cases ready : execveReady m call with
    | none =>
        refine iff_of_true (fun p member => absurd member List.not_mem_nil) ?_
        intro _ _ impossible
        cases impossible
    | some loaded =>
        rcases loaded with ⟨m', buf⟩
        dsimp only
        rw [ElfLoad.execveSegments, segmentLoop_segmentsFit (execveSpared m' buf ready)]
        exact ⟨fun fits _ _ same => (by cases same; exact fits), fun all => all m' buf rfl⟩

def kernelProgram : ElfFile where
  executable := true
  size := 85
  content := [0x7F, 0x45, 0x4C, 0x46, 1, 1, 1, 0, 0, 0, 0, 0, 0, 0, 0, 0, 2, 0, 3, 0, 1, 0, 0, 0,
    0, 0, 0x10, 0, 52, 0, 0, 0, 0, 0, 0, 0, 0, 0, 0, 0, 52, 0, 32, 0, 1, 0, 0, 0, 0, 0, 0, 0,
    1, 0, 0, 0, 84, 0, 0, 0, 0, 0, 0x10, 0, 0, 0, 0, 0, 1, 0, 0, 0, 1, 0, 0, 0, 5, 0, 0, 0,
    0, 0x10, 0, 0, 0x90]

theorem kernelProgram_overwrites :
    ¬(∀ p ∈ (elfExecArgvInner (some kernelProgram) (some 0x03000014) 0 fun _ => 0).2.placed,
      p.Confined) := by
  have placed : (elfExecArgvInner (some kernelProgram) (some 0x03000014) 0 fun _ => 0).2.placed =
      [⟨⟨1, 84, 0x100000, 1, 1⟩, true⟩] := by decide +kernel
  rw [placed]
  intro all
  have confined := (all _ (List.mem_singleton_self _) 0x100000 (by decide)).1
  exact absurd confined.1 (by decide)

/-- The same file for an address of programs, which it fills with zeros behind its byte. -/
def userProgram : ElfFile where
  executable := true
  size := 85
  content := [0x7F, 0x45, 0x4C, 0x46, 1, 1, 1, 0, 0, 0, 0, 0, 0, 0, 0, 0, 2, 0, 3, 0, 1, 0, 0, 0,
    0, 0, 0, 8, 52, 0, 0, 0, 0, 0, 0, 0, 0, 0, 0, 0, 52, 0, 32, 0, 1, 0, 0, 0, 0, 0, 0, 0,
    1, 0, 0, 0, 84, 0, 0, 0, 0, 0, 0, 8, 0, 0, 0, 0, 1, 0, 0, 0, 9, 0, 0, 0, 5, 0, 0, 0,
    0, 0x10, 0, 0, 0x90]

def userCall : ExecveCall where
  current := true
  pageDir := 0
  nest := 0
  file := some userProgram
  path := []
  argv := []
  bufBlock := some 0x03000014
  argBlock := none

theorem loaders_confined_iff_user :
    (∀ p ∈ (elfExecArgvInner (some userProgram) (some 0x03000014) 0 fun _ => 0).2.placed,
      p.Confined) ∧
    ∀ p ∈ ((ExecState.start (fun _ => 0) 0 0 []).elfExecve userCall).2.placed, p.Confined := by
  let read := Memory.store (fun _ => 0) 0x03000014 userProgram.bytes
  have count : (read.readEhdr 0x03000014).ePhnum.toNat = 1 := by decide +kernel
  have first : read.phdrOf 0x03000014 0 = ⟨1, 84, 0x08000000, 1, 9⟩ := by decide +kernel
  have table : read.TableInKernel 0x03000014 := by
    refine ⟨by decide, fun i listed => ?_⟩
    rw [count] at listed
    rw [Nat.lt_one_iff.mp listed]
    decide +kernel
  have only : ∀ {refuses : Elf32Phdr → Bool} {i : Nat},
      ElfLoad.Reaches read refuses 0x03000014 0 i → i = 0 := by
    intro refuses i reaches
    have listed := reaches.2.1
    rw [count] at listed
    exact Nat.lt_one_iff.mp listed
  have exec : ∀ m' buf got, execReady (some userProgram) (some 0x03000014) (fun _ => 0) =
      some (m', buf, got) → m' = read ∧ buf = 0x03000014 ∧ got = 85 := by
    intro m' buf got ready
    rw [execReady] at ready
    split at ready
    · cases ready
      exact ⟨rfl, rfl, by decide⟩
    · cases ready
  have execve : ∀ m' buf, execveReady (fun _ => 0) userCall = some (m', buf) →
      m' = read ∧ buf = 0x03000014 := by
    intro m' buf ready
    rcases execveReady_noArgs rfl ready with ⟨file, here, there, same⟩
    cases here
    cases there
    exact ⟨same, rfl⟩
  have loaders := loaders_confined_iff (some userProgram) (some 0x03000014) 0 (fun _ => 0) userCall
    0 0 []
    (fun m' buf got ready => by
      rcases exec m' buf got ready with ⟨rfl, rfl, rfl⟩
      exact ElfLoad.tableSpared_of_inKernel table _ _ 0)
    (fun m' buf ready => by
      rcases execve m' buf ready with ⟨rfl, rfl⟩
      exact ElfLoad.tableSpared_of_inKernel table _ _ 0)
  refine ⟨loaders.1.mpr fun m' buf got ready i reaches => ?_,
    loaders.2.mpr fun m' buf ready i reaches => ?_⟩
  · rcases exec m' buf got ready with ⟨rfl, rfl, rfl⟩
    rw [only reaches, first]
    unfold Placement.Fits UserRange
    decide
  · rcases execve m' buf ready with ⟨rfl, rfl⟩
    rw [only reaches, first]
    unfold Placement.Fits UserRange
    decide

end Trinux
