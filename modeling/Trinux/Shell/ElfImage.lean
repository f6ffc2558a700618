import Trinux.Kernel.NestedImage
import Trinux.Shell.TccParser

namespace Trinux

/-!
# Loading the images of the two compilers

An image has one segment, which is the whole file from its first byte on, and behind it an area of
zeros.  `elf_execve` accepts it where the segment ends within the identity map, and what it places
is found at the addresses that the compiler has used.
-/

namespace Memory

open Bytes

/-! ## Bytes in memory -/

def Holds (m : Memory) (a : UInt32) (bytes : List UInt8) : Prop :=
  ∀ k (short : k < bytes.length), m (a + UInt32.ofNat k) = bytes[k]

variable {m : Memory} {a : UInt32}

theorem Holds.left {first second : List UInt8} (holds : m.Holds a (first ++ second)) :
    m.Holds a first := by
  intro k short
  have long : k < (first ++ second).length := by
    rw [List.length_append]
    omega
  rw [holds k long, List.getElem_append_left short]

theorem Holds.right {first second : List UInt8} (holds : m.Holds a (first ++ second)) :
    m.Holds (a + UInt32.ofNat first.length) second := by
  intro k short
  have long : first.length + k < (first ++ second).length := by
    rw [List.length_append]
    omega
  rw [add_assoc, ← UInt32.ofNat_add, holds _ long, List.getElem_append_right (by omega)]
  congr 1
  omega

theorem Holds.slice {bytes : List UInt8} (holds : m.Holds a bytes) (off n : Nat) :
    m.Holds (a + UInt32.ofNat off) ((bytes.drop off).take n) := by
  intro k short
  rw [List.length_take, List.length_drop] at short
  rw [add_assoc, ← UInt32.ofNat_add, holds (off + k) (by omega), List.getElem_take,
    List.getElem_drop]

theorem Holds.byte {b : UInt8} {rest : List UInt8} (holds : m.Holds a (b :: rest)) : m a = b := by
  have first := holds 0 (Nat.zero_lt_succ _)
  change m (a + 0) = b at first
  rw [add_zero] at first
  exact first

theorem Holds.tail {b : UInt8} {rest : List UInt8} (holds : m.Holds a (b :: rest)) :
    m.Holds (a + 1) rest := by
  have behind : m.Holds a ([b] ++ rest) := holds
  exact behind.right

theorem Holds.readU32 {v : UInt32} (holds : m.Holds a (le32 v)) : m.readU32 a = v := by
  have first := holds.byte
  have second := holds.tail.byte
  have third := holds.tail.tail.byte
  have fourth := holds.tail.tail.tail.byte
  have two : a + 1 + 1 = a + 2 := by rw [add_assoc]; rfl
  have three : a + 1 + 1 + 1 = a + 3 := by rw [add_assoc, add_assoc]; rfl
  rw [two] at third
  rw [three] at fourth
  apply UInt32.toNat_inj.mp
  have bound := v.toNat_lt
  simp only [Memory.readU32, first, second, third, fourth, UInt8.toNat_ofNat',
    UInt32.toNat_ofNat']
  omega

theorem Holds.readU16 {n : Nat} (holds : m.Holds a (le16 n)) :
    m.readU16 a = UInt16.ofNat n := by
  have first := holds.byte
  have second := holds.tail.byte
  apply UInt16.toNat_inj.mp
  simp only [Memory.readU16, first, second, UInt8.toNat_ofNat', UInt16.toNat_ofNat']
  omega

theorem store_holds (bytes : List UInt8) : ∀ (m : Memory) (a : UInt32), bytes.length ≤ 2 ^ 32 →
    (m.store a bytes).Holds a bytes := by
  induction bytes with
  | nil => intro m a _ k short; cases short
  | cons b rest rest_ih =>
      intro m a small k short
      rw [List.length_cons] at small
      cases k with
      | zero =>
          have outside : a ∉ addressesFrom (a + 1) rest.length := by
            intro member
            rcases mem_addressesFrom.mp member with ⟨k, inside, same⟩
            rw [add_assoc] at same
            have zero := left_eq_add.mp same
            have value := congrArg UInt32.toNat zero
            rw [UInt32.toNat_add, UInt32.toNat_ofNat'] at value
            change (1 + k % 2 ^ 32) % 2 ^ 32 = 0 at value
            omega
          change Memory.store (Function.update m a b) (a + 1) rest (a + 0) = b
          rw [add_zero, ExecState.store_outside rest _ _ outside, Function.update_self]
      | succ k =>
          have behind := rest_ih (Function.update m a b) (a + 1) (by omega) k
            (Nat.lt_of_succ_lt_succ short)
          rw [add_assoc] at behind
          have position : a + UInt32.ofNat (k + 1) = a + (1 + UInt32.ofNat k) := by
            rw [Nat.add_comm k 1, UInt32.ofNat_add]
            rfl
          rw [position]
          exact behind

theorem memcpy_holds {src : UInt32} {bytes : List UInt8} (holds : m.Holds src bytes)
    (small : bytes.length ≤ 2 ^ 32)
    (apart : ∀ b ∈ addressesFrom src bytes.length, b ∉ addressesFrom a bytes.length) :
    (m.memcpy a src bytes.length).Holds a bytes := by
  intro k short
  rw [Memory.memcpy_inside m small apart short]
  exact holds k short

theorem memset_inside (m : Memory) (dest : UInt32) (c : UInt8) {n k : Nat} (small : n ≤ 2 ^ 32)
    (inside : k < n) : m.memset dest c n (dest + UInt32.ofNat k) = c := by
  induction n with
  | zero => exact absurd inside (Nat.not_lt_zero k)
  | succ n known =>
      rw [memset]
      rcases Nat.lt_succ_iff_lt_or_eq.mp inside with before | rfl
      · rw [Function.update_of_ne (add_ofNat_ne dest small before)]
        exact known (by omega) before
      · rw [Function.update_self]

/-- Bytes that lie outside of what is written are held further on. -/
theorem Holds.of_same {m' : Memory} {bytes : List UInt8} (holds : m.Holds a bytes)
    (same : ∀ b ∈ addressesFrom a bytes.length, m' b = m b) : m'.Holds a bytes := by
  intro k short
  rw [same _ (mem_addressesFrom.mpr ⟨k, short, rfl⟩)]
  exact holds k short

end Memory

namespace Tcc

open Bytes Memory

/-! ## Headers -/

section Headers

variable {m : Memory} {buf total memsz : UInt32} (held : m.Holds buf (elfHeaders total memsz))

include held

theorem readEhdr_headers :
    m.readEhdr buf = ⟨elfMagic, 1, 1, etExec, em386, baseAddr + UInt32.ofNat hdrSize, 52, 32, 1⟩ := by
  have magic : m.readU32 (buf + UInt32.ofNat 0) = elfMagic := (held.slice 0 4).readU32
  have bits : m (buf + UInt32.ofNat 4) = 1 := (held.slice 4 1).byte
  have order : m (buf + UInt32.ofNat 5) = 1 := (held.slice 5 1).byte
  have type : m.readU16 (buf + UInt32.ofNat 16) = etExec := (held.slice 16 2).readU16
  have machine : m.readU16 (buf + UInt32.ofNat 18) = em386 := (held.slice 18 2).readU16
  have entry : m.readU32 (buf + UInt32.ofNat 24) = baseAddr + UInt32.ofNat hdrSize :=
    (held.slice 24 4).readU32
  have phoff : m.readU32 (buf + UInt32.ofNat 28) = 52 := (held.slice 28 4).readU32
  have phentsize : m.readU16 (buf + UInt32.ofNat 42) = 32 := (held.slice 42 2).readU16
  have phnum : m.readU16 (buf + UInt32.ofNat 44) = 1 := (held.slice 44 2).readU16
  have front : buf + UInt32.ofNat 0 = buf := add_zero buf
  rw [front] at magic
  unfold Memory.readEhdr
  rw [magic]
  congr 1

theorem readPhdr_headers (ehdr : Elf32Ehdr) (table : ehdr.ePhoff = 52) :
    m.readPhdr (phdrAddress buf ehdr 0) = ⟨ptLoad, 0, baseAddr, total, memsz⟩ := by
  have place : phdrAddress buf ehdr 0 = buf + UInt32.ofNat 52 := by
    unfold phdrAddress
    rw [table]
    change buf + UInt32.ofNat 52 + 0 * ehdr.ePhentsize.toUInt32 = _
    rw [zero_mul, add_zero]
  have field (k : Nat) : buf + UInt32.ofNat 52 + UInt32.ofNat k = buf + UInt32.ofNat (52 + k) := by
    rw [add_assoc, UInt32.ofNat_add]
  have type : m.readU32 (buf + UInt32.ofNat 52) = ptLoad := (held.slice 52 4).readU32
  have offset : m.readU32 (buf + UInt32.ofNat 52 + 4) = 0 :=
    (congrArg m.readU32 (field 4)).trans (held.slice 56 4).readU32
  have vaddr : m.readU32 (buf + UInt32.ofNat 52 + 8) = baseAddr :=
    (congrArg m.readU32 (field 8)).trans (held.slice 60 4).readU32
  have filesz : m.readU32 (buf + UInt32.ofNat 52 + 16) = total :=
    (congrArg m.readU32 (field 16)).trans (held.slice 68 4).readU32
  have memory : m.readU32 (buf + UInt32.ofNat 52 + 20) = memsz :=
    (congrArg m.readU32 (field 20)).trans (held.slice 72 4).readU32
  rw [place]
  unfold Memory.readPhdr
  rw [type, offset, vaddr, filesz, memory]

end Headers

/-! ## The loader on an image -/

/-- An executable as its compiler sees it: code, data behind it, and global variables in an area of
zeros behind both, each with the bytes that its declaration asks for. -/
structure Layout where
  codeBase : UInt32
  dataBase : UInt32
  bssBase : UInt32
  code : List UInt8
  data : List UInt8
  globals : List (UInt32 × Nat)

def loadedMemory (m : Memory) (buf pageDir : UInt32) (image : List UInt8) : Memory :=
  ((m.store buf image).unloaded.execveSegments buf pageDir).memory

def firstSegment (m : Memory) (buf : UInt32) (image : List UInt8) : Elf32Phdr :=
  (m.store buf image).phdrOf buf 0

/-- `elf_execve` accepts a file wherever it is read to in the heap of the kernel. -/
def Accepted (image : List UInt8) : Prop :=
  elf32EhdrSize ≤ UInt32.ofNat image.length ∧
    ∀ (m : Memory) (buf : UInt32), buf.toNat + image.length ≤ kernelEndVirt →
      elfValidate ((m.store buf image).readEhdr buf) = true ∧
        ((m.store buf image).readEhdr buf).eEntry ≠ 0 ∧
          execveChecks (m.store buf image) buf (UInt32.ofNat image.length) 65536 0 = none

/-- A file is accepted, its code, its data and the zeros behind them are loaded where the compiler
has them, in this order and apart, and every global variable is inside of the segment. -/
structure Layout.Loads (layout : Layout) (image : List UInt8) : Prop where
  accepted : Accepted image
  entry : ∀ (m : Memory) (buf : UInt32), buf.toNat + image.length ≤ kernelEndVirt →
    ((m.store buf image).readEhdr buf).eEntry = layout.codeBase
  code : ∀ (m : Memory) (buf pageDir : UInt32), buf.toNat + image.length ≤ kernelEndVirt →
    (loadedMemory m buf pageDir image).Holds layout.codeBase layout.code
  data : ∀ (m : Memory) (buf pageDir : UInt32), buf.toNat + image.length ≤ kernelEndVirt →
    (loadedMemory m buf pageDir image).Holds layout.dataBase layout.data
  zeros : ∀ (m : Memory) (buf pageDir : UInt32), buf.toNat + image.length ≤ kernelEndVirt →
    ∀ a : UInt32, layout.bssBase ≤ a →
      a.toNat < (firstSegment m buf image).pVaddr.toNat + (firstSegment m buf image).pMemsz.toNat →
        loadedMemory m buf pageDir image a = 0
  apart : layout.codeBase.toNat + layout.code.length ≤ layout.dataBase.toNat ∧
    layout.dataBase.toNat + layout.data.length ≤ layout.bssBase.toNat
  globals : ∀ (m : Memory) (buf : UInt32), buf.toNat + image.length ≤ kernelEndVirt →
    ∀ g ∈ layout.globals, (firstSegment m buf image).pVaddr ≤ layout.bssBase + g.1 ∧
      (layout.bssBase + g.1).toNat + g.2 ≤
        (firstSegment m buf image).pVaddr.toNat + (firstSegment m buf image).pMemsz.toNat

/-! ## One segment -/

section OneSegment

variable {m : Memory} {buf total memsz : UInt32}

def oneSegment (total memsz : UInt32) (rest : List UInt8) : List UInt8 :=
  elfHeaders total memsz ++ rest

theorem oneSegment_length (total memsz : UInt32) (rest : List UInt8) :
    (oneSegment total memsz rest).length = hdrSize + rest.length := by
  unfold oneSegment
  rw [List.length_append]
  rfl

/-- The first pass of `elf_execve` looks at the end of the segment in memory only. -/
theorem execveChecks_oneSegment (held : m.Holds buf (elfHeaders total memsz)) :
    execveChecks m buf total 65536 0 =
      if identityEnd < baseAddr.toNat + memsz.toNat then some (-3) else none := by
  have ehdr := readEhdr_headers held
  have phdr := readPhdr_headers held (m.readEhdr buf) (by rw [ehdr])
  have fuel : 65536 = 65534 + 1 + 1 := rfl
  rw [fuel, execveChecks]
  dsimp only
  rw [if_pos (by rw [ehdr]; decide), phdr]
  dsimp only
  rw [if_neg (fun other => other rfl)]
  by_cases beyond : identityEnd < baseAddr.toNat + memsz.toNat
  · rw [if_pos beyond, if_pos beyond]
  · have fits : ¬ total.toNat < (0 : UInt32).toNat + total.toNat := by
      change ¬ total.toNat < 0 + total.toNat
      omega
    rw [if_neg beyond, if_neg beyond, if_neg fits, execveChecks]
    dsimp only
    rw [if_neg (by rw [ehdr]; decide)]

/-- Addresses from the base on, as long as they do not leave the identity map. -/
theorem mem_base {off n : Nat} (inside : baseAddr.toNat + off + n ≤ identityEnd) {a : UInt32} :
    a ∈ addressesFrom (baseAddr + UInt32.ofNat off) n ↔
      baseAddr.toNat + off ≤ a.toNat ∧ a.toNat < baseAddr.toNat + off + n := by
  have most : identityEnd < 2 ^ 32 := by decide
  have start : (baseAddr + UInt32.ofNat off).toNat = baseAddr.toNat + off :=
    toNat_add_ofNat (by omega)
  constructor
  · intro member
    have bounds := bounds_of_mem_addressesFrom (by omega) member
    omega
  · rintro ⟨low, high⟩
    refine mem_addressesFrom.mpr ⟨a.toNat - (baseAddr.toNat + off), by omega, ?_⟩
    apply UInt32.toNat_inj.mp
    rw [toNat_add_ofNat (by omega), start]
    omega

def placedMemory (m : Memory) (buf total memsz : UInt32) : Memory :=
  let filled := m.memcpy baseAddr (buf + 0) total.toNat
  if total < memsz then filled.memset (baseAddr + total) 0 (memsz - total).toNat else filled

/-- What is written begins at the base and ends where the segment or the file ends. -/
theorem placedMemory_outside (total memsz : UInt32)
    (file : baseAddr.toNat + total.toNat ≤ identityEnd)
    (fits : baseAddr.toNat + memsz.toNat ≤ identityEnd) {a : UInt32}
    (outside : a.toNat < baseAddr.toNat) : placedMemory m buf total memsz a = m a := by
  have copied : a ∉ addressesFrom baseAddr total.toNat := by
    have bounds := @mem_base 0 total.toNat (by omega) a
    change a ∈ addressesFrom (baseAddr + 0) total.toNat ↔ _ at bounds
    rw [add_zero] at bounds
    rw [bounds]
    omega
  unfold placedMemory
  split_ifs with longer
  · have order : total.toNat < memsz.toNat := longer
    have difference : (memsz - total).toNat = memsz.toNat - total.toNat :=
      UInt32.toNat_sub_of_le _ _ (UInt32.le_iff_toNat_le.mpr order.le)
    have zeroed : a ∉ addressesFrom (baseAddr + total) (memsz - total).toNat := by
      have bounds := @mem_base total.toNat (memsz - total).toNat (by omega) a
      rw [UInt32.ofNat_toNat] at bounds
      rw [bounds]
      omega
    rw [Memory.memset_outside _ _ _ zeroed, Memory.memcpy_outside _ _ _ copied]
  · exact Memory.memcpy_outside _ _ _ copied

theorem base_above : kernelEndVirt ≤ baseAddr.toNat := by decide

/-- Where the kernel holds bytes, it holds them further on. -/
theorem placedMemory_holds {bytes : List UInt8} (held : m.Holds buf bytes)
    (block : buf.toNat + bytes.length ≤ kernelEndVirt)
    (file : baseAddr.toNat + total.toNat ≤ identityEnd)
    (fits : baseAddr.toNat + memsz.toNat ≤ identityEnd) :
    (placedMemory m buf total memsz).Holds buf bytes := by
  apply held.of_same
  intro b member
  have small : kernelEndVirt < 2 ^ 32 := by decide
  have bounds := bounds_of_mem_addressesFrom (by omega) member
  have above := base_above
  exact placedMemory_outside total memsz file fits (by omega)

theorem placedMemory_file {bytes : List UInt8} (held : m.Holds buf bytes)
    (length : total.toNat = bytes.length) (block : buf.toNat + bytes.length ≤ kernelEndVirt)
    (file : baseAddr.toNat + total.toNat ≤ identityEnd)
    (fits : baseAddr.toNat + memsz.toNat ≤ identityEnd) :
    (placedMemory m buf total memsz).Holds baseAddr bytes := by
  have small : kernelEndVirt < 2 ^ 32 := by decide
  have above := base_above
  have range {a : UInt32} := @mem_base 0 bytes.length (by omega) a
  change ∀ {a : UInt32}, a ∈ addressesFrom (baseAddr + 0) bytes.length ↔ _ at range
  rw [add_zero] at range
  have copied : (m.memcpy baseAddr (buf + 0) total.toNat).Holds baseAddr bytes := by
    rw [length, add_zero]
    apply Memory.memcpy_holds held (by omega)
    intro b member
    have bounds := bounds_of_mem_addressesFrom (by omega) member
    rw [range]
    omega
  unfold placedMemory
  dsimp only
  split_ifs with longer
  · have order : total.toNat < memsz.toNat := longer
    have difference : (memsz - total).toNat = memsz.toNat - total.toNat :=
      UInt32.toNat_sub_of_le _ _ (UInt32.le_iff_toNat_le.mpr order.le)
    apply copied.of_same
    intro b member
    have inside := range.mp member
    apply Memory.memset_outside
    have bounds := @mem_base total.toNat (memsz - total).toNat (by omega) b
    rw [UInt32.ofNat_toNat] at bounds
    rw [bounds]
    omega
  · exact copied

theorem placedMemory_zeros (m : Memory) (buf : UInt32)
    (fits : baseAddr.toNat + memsz.toNat ≤ identityEnd) {a : UInt32}
    (low : baseAddr.toNat + total.toNat ≤ a.toNat) (high : a.toNat < baseAddr.toNat + memsz.toNat) :
    placedMemory m buf total memsz a = 0 := by
  have order : total.toNat < memsz.toNat := by omega
  have longer : total < memsz := order
  have difference : (memsz - total).toNat = memsz.toNat - total.toNat :=
    UInt32.toNat_sub_of_le _ _ (UInt32.le_iff_toNat_le.mpr order.le)
  have bounds := @mem_base total.toNat (memsz - total).toNat (by omega) a
  rw [UInt32.ofNat_toNat] at bounds
  rcases mem_addressesFrom.mp (bounds.mpr (by omega)) with ⟨k, inside, rfl⟩
  unfold placedMemory
  rw [if_pos longer]
  exact Memory.memset_inside _ _ 0 (memsz - total).toNat_lt.le inside

/-- The second pass of `elf_execve` on a file of one segment. -/
theorem execveSegments_oneSegment (pageDir : UInt32) (held : m.Holds buf (elfHeaders total memsz))
    (block : buf.toNat + hdrSize ≤ kernelEndVirt) (some' : 0 < total)
    (file : baseAddr.toNat + total.toNat ≤ identityEnd)
    (fits : baseAddr.toNat + memsz.toNat ≤ identityEnd) :
    (m.unloaded.execveSegments buf pageDir).memory = placedMemory m buf total memsz := by
  have ehdr := readEhdr_headers held
  have phdr := readPhdr_headers held (m.readEhdr buf) (by rw [ehdr])
  have fuel : 65536 = 65534 + 1 + 1 := rfl
  unfold ElfLoad.execveSegments
  rw [fuel, ElfLoad.segmentLoop]
  have memory : m.unloaded.memory = m := rfl
  dsimp only
  rw [memory, if_pos (by rw [ehdr]; decide), phdr]
  dsimp only
  rw [if_neg (fun other => other rfl), if_neg (by decide)]
  have copies : ElfLoad.execveCopies ⟨ptLoad, 0, baseAddr, total, memsz⟩ = true :=
    decide_eq_true some'
  rw [copies]
  have placed : (m.unloaded.place buf pageDir
      ⟨⟨ptLoad, 0, baseAddr, total, memsz⟩, true⟩).memory = placedMemory m buf total memsz := rfl
  generalize m.unloaded.place buf pageDir ⟨⟨ptLoad, 0, baseAddr, total, memsz⟩, true⟩ = l at placed ⊢
  have kept := placedMemory_holds held block file fits
  have again := readEhdr_headers kept
  rw [ElfLoad.segmentLoop]
  dsimp only
  rw [placed, if_neg (by rw [again]; decide)]
  exact placed

def layoutOf (code data : List UInt8) (globals : List (UInt32 × Nat)) : Layout where
  codeBase := baseAddr + UInt32.ofNat hdrSize
  dataBase := baseAddr + UInt32.ofNat (hdrSize + code.length)
  bssBase := baseAddr + UInt32.ofNat (hdrSize + code.length) + UInt32.ofNat data.length
  code := code
  data := data
  globals := globals

section Sizes

variable {code data : List UInt8} (globals : List (UInt32 × Nat))
  (small : hdrSize + code.length + data.length ≤ 65536)

include small

theorem total_toNat : (UInt32.ofNat (hdrSize + code.length + data.length)).toNat =
    hdrSize + code.length + data.length := by
  rw [UInt32.toNat_ofNat']
  exact Nat.mod_eq_of_lt (by omega)

theorem bssBase_toNat : (layoutOf code data globals).bssBase.toNat =
    baseAddr.toNat + (hdrSize + code.length + data.length) := by
  have base : baseAddr.toNat = 0x08048000 := rfl
  unfold layoutOf
  dsimp only
  rw [toNat_add_ofNat, toNat_add_ofNat (by omega)]
  · omega
  · rw [toNat_add_ofNat (by omega)]
    omega

/-- A file of one segment is accepted exactly when the segment ends in the identity map. -/
theorem accepted_iff (memsz : UInt32) :
    Accepted (oneSegment (UInt32.ofNat (hdrSize + code.length + data.length)) memsz (code ++ data)) ↔
      baseAddr.toNat + memsz.toNat ≤ identityEnd := by
  have total := total_toNat small
  have length := oneSegment_length (UInt32.ofNat (hdrSize + code.length + data.length)) memsz
    (code ++ data)
  rw [List.length_append, ← Nat.add_assoc] at length
  have held (m : Memory) (buf : UInt32) := Memory.store_holds
    (oneSegment (UInt32.ofNat (hdrSize + code.length + data.length)) memsz (code ++ data)) m buf
    (by omega)
  have low : hdrSize ≤ hdrSize + code.length + data.length := by omega
  generalize hdrSize + code.length + data.length = n at small total length held low ⊢
  have checks (m : Memory) (buf : UInt32) := execveChecks_oneSegment (held m buf).left
  unfold Accepted
  rw [length]
  constructor
  · rintro ⟨_, accepted⟩
    have block : (0 : UInt32).toNat + n ≤ kernelEndVirt := by
      have most : 65536 ≤ kernelEndVirt := by decide
      change 0 + n ≤ _
      omega
    have none' := (accepted (fun _ => 0) 0 block).2.2
    rw [checks] at none'
    by_contra beyond
    rw [if_pos (not_le.mp beyond)] at none'
    cases none'
  · intro fits
    constructor
    · have header : hdrSize = 84 := rfl
      change 52 ≤ (UInt32.ofNat n).toNat
      omega
    · intro m buf _
      have ehdr := readEhdr_headers (held m buf).left
      rw [checks, if_neg (not_lt.mpr fits), ehdr]
      exact ⟨by decide, by decide, rfl⟩

/-- Where a file of one segment is loaded as its layout has it. -/
theorem loads_iff (memsz : UInt32) :
    (layoutOf code data globals).Loads
        (oneSegment (UInt32.ofNat (hdrSize + code.length + data.length)) memsz (code ++ data)) ↔
      baseAddr.toNat + memsz.toNat ≤ identityEnd ∧ ∀ g ∈ globals,
        baseAddr ≤ (layoutOf code data globals).bssBase + g.1 ∧
          ((layoutOf code data globals).bssBase + g.1).toNat + g.2 ≤
            baseAddr.toNat + memsz.toNat := by
  have total := total_toNat small
  have bss := bssBase_toNat globals small
  have accepted := accepted_iff small memsz
  have length := oneSegment_length (UInt32.ofNat (hdrSize + code.length + data.length)) memsz
    (code ++ data)
  rw [List.length_append, ← Nat.add_assoc] at length
  have held (m : Memory) (buf : UInt32) := Memory.store_holds
    (oneSegment (UInt32.ofNat (hdrSize + code.length + data.length)) memsz (code ++ data)) m buf
    (by omega)
  have segment (m : Memory) (buf : UInt32) : firstSegment m buf
      (oneSegment (UInt32.ofNat (hdrSize + code.length + data.length)) memsz (code ++ data)) =
        ⟨ptLoad, 0, baseAddr, UInt32.ofNat (hdrSize + code.length + data.length), memsz⟩ := by
    have ehdr := readEhdr_headers (held m buf).left
    exact readPhdr_headers (held m buf).left _ (by rw [ehdr])
  constructor
  · intro loads
    have block : (0 : UInt32).toNat + (hdrSize + code.length + data.length) ≤ kernelEndVirt := by
      have most : 65536 ≤ kernelEndVirt := by decide
      change 0 + _ ≤ _
      omega
    refine ⟨accepted.mp loads.accepted, ?_⟩
    intro g listed
    have inside := loads.globals (fun _ => 0) 0 (by rw [length]; exact block) g listed
    rw [segment] at inside
    exact inside
  · rintro ⟨fits, inside⟩
    have most : 0x08048000 + 65536 ≤ identityEnd := by decide
    have base : baseAddr.toNat = 0x08048000 := rfl
    have header : hdrSize = 84 := rfl
    have some' : 0 < UInt32.ofNat (hdrSize + code.length + data.length) := by
      change 0 < (UInt32.ofNat (hdrSize + code.length + data.length)).toNat
      omega
    have file : baseAddr.toNat +
        (UInt32.ofNat (hdrSize + code.length + data.length)).toNat ≤ identityEnd := by omega
    have memory (m : Memory) (buf pageDir : UInt32)
        (block : buf.toNat + (oneSegment (UInt32.ofNat (hdrSize + code.length + data.length)) memsz
          (code ++ data)).length ≤ kernelEndVirt) := by
      have headers : buf.toNat + hdrSize ≤ kernelEndVirt := by omega
      exact execveSegments_oneSegment pageDir (held m buf).left headers some' file fits
    have loaded (m : Memory) (buf pageDir : UInt32)
        (block : buf.toNat + (oneSegment (UInt32.ofNat (hdrSize + code.length + data.length)) memsz
          (code ++ data)).length ≤ kernelEndVirt) :=
      placedMemory_file (held m buf) (total.trans length.symm) block file fits
    refine ⟨accepted.mpr fits, ?_, ?_, ?_, ?_, ?_, ?_⟩
    · intro m buf _
      rw [readEhdr_headers (held m buf).left]
      rfl
    · intro m buf pageDir block
      unfold loadedMemory
      rw [memory m buf pageDir block]
      exact (loaded m buf pageDir block).right.left
    · intro m buf pageDir block
      unfold loadedMemory
      rw [memory m buf pageDir block]
      have behind := (loaded m buf pageDir block).right.right
      have place : baseAddr + UInt32.ofNat (elfHeaders
          (UInt32.ofNat (hdrSize + code.length + data.length)) memsz).length +
            UInt32.ofNat code.length = baseAddr + UInt32.ofNat (hdrSize + code.length) := by
        rw [add_assoc, ← UInt32.ofNat_add]
        rfl
      rw [place] at behind
      exact behind
    · intro m buf pageDir block a low high
      unfold loadedMemory
      rw [memory m buf pageDir block]
      rw [segment] at high
      have low : (layoutOf code data globals).bssBase.toNat ≤ a.toNat := low
      exact placedMemory_zeros _ buf fits (by omega) high
    · have first : (layoutOf code data globals).codeBase.toNat = baseAddr.toNat + hdrSize := by
        unfold layoutOf
        exact toNat_add_ofNat (by omega)
      have second : (layoutOf code data globals).dataBase.toNat =
          baseAddr.toNat + (hdrSize + code.length) := by
        unfold layoutOf
        exact toNat_add_ofNat (by omega)
      rw [first, second, bss]
      constructor
      · change baseAddr.toNat + hdrSize + code.length ≤ _
        omega
      · change baseAddr.toNat + (hdrSize + code.length) + data.length ≤ _
        omega
    · intro m buf _ g listed
      rw [segment]
      exact inside g listed

end Sizes

end OneSegment

end Tcc

end Trinux
