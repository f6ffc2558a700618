import Trinux.Drivers.Ata

namespace Trinux

open Bytes

/-!
# Transfers of the AHCI driver

A command names a range of sectors and a table of memory regions; the controller moves the bytes
of the range between the disk and the regions, one region after the other.  The table has room for
eight regions of a page, while the number of sectors is not limited by it.
-/

namespace Ahci

structure PrdtEntry where
  dba : UInt32
  dbau : UInt32
  dbcI : UInt32
  deriving DecidableEq

structure Fis where
  command : UInt8
  device : UInt8
  lba : List UInt8
  countl : UInt8
  counth : UInt8
  deriving DecidableEq

/-- A command in its slot: the W bit of the header, the command and the table. -/
structure Command where
  write : Bool
  fis : Fis
  prdt : List PrdtEntry
  deriving DecidableEq

def fillPrdt : (left : Nat) → (remain : Nat) → (p : UInt32) → List PrdtEntry
  | 0, _, _ => []
  | left + 1, remain, p =>
      let chunk := if 0x1000 < remain then 0x1000 else remain
      let dbc := UInt32.ofNat (chunk - 1)
      ⟨p, 0, if left = 0 then dbc ||| UInt32.ofNat (2 ^ 31) else dbc⟩ ::
        fillPrdt left (remain - chunk) (p + UInt32.ofNat chunk)

def prdtCount (totalBytes : Nat) : Nat := min ((totalBytes + 0xFFF) / 0x1000) 8

def transferCommand (lba : UInt32) (count : UInt16) (buf : UInt32) (write : Bool) : Command where
  write := write
  fis :=
    { command := if write then 0x35 else 0x25
      device := 0x40
      lba := le32 lba ++ [0, 0]
      countl := (count &&& 0xFF).toUInt8
      counth := (count >>> 8).toUInt8 }
  prdt := fillPrdt (prdtCount (count.toNat * 512)) (count.toNat * 512) buf

structure Machine where
  mem : UInt32 → UInt8
  disk : Nat → UInt8

/-- The controller behind the driver: whether it was found, a free slot, what the port shows at each
look after a command was issued (whether the command is still in its slot, and whether there was an
error), and what the command leaves. -/
structure Hba where
  present : Bool
  slot : Option Nat
  issued : Command → Machine → Nat → Bool
  failed : Command → Machine → Nat → Bool
  after : Command → Machine → Machine

def Hba.poll (hba : Hba) (command : Command) (m : Machine) : (left look : Nat) → Int
  | 0, _ => -2
  | left + 1, look =>
      if !hba.issued command m look then 0
      else if hba.failed command m look then -1
      else hba.poll command m left (look + 1)

def portIssueAndWait (hba : Hba) (command : Command) (m : Machine) : Int × Machine :=
  (hba.poll command m 5000000 0, hba.after command m)

def ahciTransfer (hba : Hba) (lba : UInt32) (count : UInt16) (buf : UInt32) (write : Bool)
    (m : Machine) : Int × Machine :=
  if !hba.present ∨ count = 0 then (-10, m)
  else if hba.slot = none then (-11, m)
  else portIssueAndWait hba (transferCommand lba count buf write) m

def Machine.read (m : Machine) (address : UInt32) (count : Nat) : List UInt8 :=
  (List.range count).map fun i => m.mem (address + UInt32.ofNat i)

def Machine.write (m : Machine) (address : UInt32) (bytes : List UInt8) : Machine :=
  { m with
    mem := fun a => if (a - address).toNat < bytes.length then
      bytes.getD (a - address).toNat 0 else m.mem a }

/-- `ahci_read_sectors` with its bounce buffer, if there is memory for one: the result, and the
bytes that are copied to the caller. -/
def ahciReadSectors (hba : Hba) (dmaBuf : Option UInt32) (lba : UInt32) (count : UInt16)
    (m : Machine) : Int × Option (List UInt8) :=
  match dmaBuf with
  | none => (-12, none)
  | some dmaBuf =>
      let done := ahciTransfer hba lba count dmaBuf false m
      (done.1, if done.1 = 0 then some (done.2.read dmaBuf (count.toNat * 512)) else none)

def ahciWriteSectors (hba : Hba) (dmaBuf : Option UInt32) (lba : UInt32) (count : UInt16)
    (buf : List UInt8) (m : Machine) : Int × Machine :=
  match dmaBuf with
  | none => (-12, m)
  | some dmaBuf => ahciTransfer hba lba count dmaBuf true (m.write dmaBuf buf)

/-! ## The regions of a table -/

def PrdtEntry.byteCount (entry : PrdtEntry) : Nat := entry.dbcI.toNat % 2 ^ 22 + 1

def addresses (prdt : List PrdtEntry) : List UInt32 :=
  prdt.flatMap fun entry => (List.range entry.byteCount).map fun i => entry.dba + UInt32.ofNat i

def range (buf : UInt32) (count : Nat) : List UInt32 :=
  (List.range count).map fun i => buf + UInt32.ofNat i

@[simp] theorem range_length (buf : UInt32) (count : Nat) : (range buf count).length = count := by
  rw [range, List.length_map, List.length_range]

theorem range_add (buf : UInt32) (first second : Nat) :
    range buf (first + second) = range buf first ++ range (buf + UInt32.ofNat first) second := by
  unfold range
  rw [List.range_add, List.map_append, List.map_map]
  congr 1
  apply List.map_congr_left
  intro i _
  rw [Function.comp_apply, UInt32.ofNat_add, UInt32.add_assoc]

theorem byteCount_entry {chunk : Nat} (positive : 0 < chunk) (small : chunk ≤ 0x1000) (p : UInt32)
    (last : Prop) [Decidable last] :
    PrdtEntry.byteCount ⟨p, 0, if last then UInt32.ofNat (chunk - 1) ||| UInt32.ofNat (2 ^ 31)
      else UInt32.ofNat (chunk - 1)⟩ = chunk := by
  have value : (UInt32.ofNat (chunk - 1)).toNat = chunk - 1 := by
    rw [UInt32.toNat_ofNat']
    omega
  unfold PrdtEntry.byteCount
  split_ifs
  · rw [UInt32.toNat_or, Nat.or_mod_two_pow, value]
    have high : (UInt32.ofNat (2 ^ 31)).toNat % 2 ^ 22 = 0 := by decide
    rw [high, Nat.or_zero]
    omega
  · rw [value]
    omega

/-- A table that is not longer than the buffer needs covers the buffer from its beginning on. -/
theorem addresses_fillPrdt : ∀ (left remain : Nat) (p : UInt32), left ≤ (remain + 0xFFF) / 0x1000 →
    addresses (fillPrdt left remain p) = range p (min (left * 0x1000) remain) := by
  intro left
  induction left with
  | zero =>
      intro remain p _
      rw [Nat.zero_mul, Nat.zero_min]
      rfl
  | succ left known =>
      intro remain p enough
      have positive : 0 < remain := by omega
      generalize shown : (if 0x1000 < remain then 0x1000 else remain) = chunk
      have sizes : 0 < chunk ∧ chunk ≤ 0x1000 ∧ chunk ≤ remain ∧
          min ((left + 1) * 0x1000) remain = chunk + min (left * 0x1000) (remain - chunk) ∧
          left ≤ (remain - chunk + 0xFFF) / 0x1000 := by
        split_ifs at shown <;> omega
      rcases sizes with ⟨some_, page, inside, total, rest⟩
      rw [fillPrdt, shown, addresses, List.flatMap_cons, byteCount_entry some_ page p (left = 0), total,
        range_add]
      congr 1
      exact known (remain - chunk) (p + UInt32.ofNat chunk) rest

/-- The table of a transfer covers the first 32 KiB of its buffer. -/
theorem addresses_transfer (lba : UInt32) (count : UInt16) (buf : UInt32) (write : Bool) :
    addresses (transferCommand lba count buf write).prdt =
      range buf (min (count.toNat * 512) 0x8000) := by
  change addresses (fillPrdt (prdtCount (count.toNat * 512)) (count.toNat * 512) buf) = _
  have enough : prdtCount (count.toNat * 512) ≤ (count.toNat * 512 + 0xFFF) / 0x1000 :=
    Nat.min_le_left _ 8
  have covered : min (prdtCount (count.toNat * 512) * 0x1000) (count.toNat * 512) =
      min (count.toNat * 512) 0x8000 := by
    unfold prdtCount
    omega
  rw [addresses_fillPrdt _ _ _ enough, covered]

/-! ## What a successful transfer means -/

def Fis.start (fis : Fis) : Nat := Nat.ofDigits 256 (fis.lba.map UInt8.toNat)

def Fis.count (fis : Fis) : Nat := fis.countl.toNat + 256 * fis.counth.toNat

def Command.moved (command : Command) : List UInt32 :=
  (addresses command.prdt).take (command.fis.count * 512)

/-- What the controller has done with a command that left its slot: it has moved the bytes of the
range in order, as far as the table goes, and has left everything else alone. -/
structure Conforms (hba : Hba) : Prop where
  reads : ∀ command m look, command.write = false → command.moved.Nodup →
    hba.issued command m look = false →
      (∀ i (inside : i < command.moved.length),
        (hba.after command m).mem command.moved[i] = m.disk (command.fis.start * 512 + i)) ∧
      (∀ a, a ∉ command.moved → (hba.after command m).mem a = m.mem a) ∧
      (hba.after command m).disk = m.disk
  writes : ∀ command m look, command.write = true → command.moved.Nodup →
    hba.issued command m look = false →
      (∀ i (inside : i < command.moved.length),
        (hba.after command m).disk (command.fis.start * 512 + i) = m.mem command.moved[i]) ∧
      (∀ x, x < command.fis.start * 512 ∨ command.fis.start * 512 + command.moved.length ≤ x →
        (hba.after command m).disk x = m.disk x) ∧ (hba.after command m).mem = m.mem

theorem transfer_start (lba : UInt32) (count : UInt16) (buf : UInt32) (write : Bool) :
    (transferCommand lba count buf write).fis.start = lba.toNat := by
  have bound := lba.toNat_lt
  change Nat.ofDigits 256 ((le32 lba ++ [0, 0]).map UInt8.toNat) = lba.toNat
  simp only [le32, List.cons_append, List.nil_append, List.map_cons, List.map_nil,
    Nat.ofDigits_cons, Nat.ofDigits_nil, UInt8.toNat_ofNat']
  simp
  omega

theorem transfer_count (lba : UInt32) (count : UInt16) (buf : UInt32) (write : Bool) :
    (transferCommand lba count buf write).fis.count = count.toNat := by
  have bound := count.toNat_lt
  change ((count &&& 0xFF).toUInt8).toNat + 256 * ((count >>> 8).toUInt8).toNat = count.toNat
  have low : (count &&& 0xFF).toNat = count.toNat % 256 := by
    rw [UInt16.toNat_and]
    exact Nat.and_two_pow_sub_one_eq_mod count.toNat 8
  have high : (count >>> 8).toNat = count.toNat / 256 := by
    rw [UInt16.toNat_shiftRight]
    exact Nat.shiftRight_eq_div_pow count.toNat 8
  rw [UInt16.toNat_toUInt8, UInt16.toNat_toUInt8, low, high]
  omega

theorem offset_of (address offset : UInt32) : address + offset - address = offset := by
  rw [UInt32.add_comm, UInt32.add_sub_cancel]

theorem range_nodup (buf : UInt32) {count : Nat} (small : count ≤ 2 ^ 32) : (range buf count).Nodup := by
  unfold range
  rw [List.nodup_map_iff_inj_on (List.nodup_range)]
  intro i first j second same
  have values := congrArg (fun address => (address - buf).toNat) same
  rw [offset_of, offset_of, UInt32.toNat_ofNat', UInt32.toNat_ofNat'] at values
  rw [List.mem_range] at first second
  omega

theorem moved_transfer (lba : UInt32) (count : UInt16) (buf : UInt32) (write : Bool) :
    (transferCommand lba count buf write).moved = range buf (min (count.toNat * 512) 0x8000) := by
  unfold Command.moved
  rw [addresses_transfer, transfer_count, List.take_of_length_le]
  rw [range_length]
  exact Nat.min_le_left _ _

theorem moved_nodup (lba : UInt32) (count : UInt16) (buf : UInt32) (write : Bool) :
    (transferCommand lba count buf write).moved.Nodup := by
  rw [moved_transfer]
  apply range_nodup
  omega

/-- The table of a transfer covers exactly the bytes of its range, in order, without a gap and
without an overlap; what a successful read delivers are the bytes of the sectors; and behind a
successful write the sectors hold the caller's bytes. -/
structure TransfersRange (lba : UInt32) (count : UInt16) (dmaBuf : UInt32) : Prop where
  covers : ∀ write, addresses (transferCommand lba count dmaBuf write).prdt =
    range dmaBuf (count.toNat * 512)
  apart : (range dmaBuf (count.toNat * 512)).Nodup
  reads : ∀ hba m bytes, Conforms hba →
    ahciReadSectors hba (some dmaBuf) lba count m = (0, some bytes) →
      bytes = window m.disk (lba.toNat * 512) (count.toNat * 512)
  writes : ∀ hba m m' buf, Conforms hba → buf.length = count.toNat * 512 →
    ahciWriteSectors hba (some dmaBuf) lba count buf m = (0, m') →
      window m'.disk (lba.toNat * 512) (count.toNat * 512) = buf

/-- A wait that returns zero saw the command leave its slot. -/
theorem poll_done {hba : Hba} {command : Command} {m : Machine} {left look : Nat}
    (done : hba.poll command m left look = 0) : ∃ last, hba.issued command m last = false := by
  induction left generalizing look with
  | zero => cases done
  | succ left known =>
      rw [Hba.poll] at done
      split_ifs at done with finished failed
      · exact ⟨look, Bool.not_eq_true' _ ▸ finished⟩
      · exact known done

/-- A transfer that returns zero was issued to the controller and left its slot. -/
theorem ahciTransfer_issued {hba : Hba} {lba : UInt32} {count : UInt16} {buf : UInt32} {write : Bool}
    {m m' : Machine} (done : ahciTransfer hba lba count buf write m = (0, m')) :
    m' = hba.after (transferCommand lba count buf write) m ∧
      ∃ look, hba.issued (transferCommand lba count buf write) m look = false := by
  unfold ahciTransfer at done
  split_ifs at done
  · cases congrArg Prod.fst done
  · cases congrArg Prod.fst done
  · exact ⟨(congrArg Prod.snd done).symm, poll_done (congrArg Prod.fst done)⟩

theorem ahciReadSectors_done {hba : Hba} {dmaBuf lba : UInt32} {count : UInt16} {m : Machine}
    {bytes : List UInt8} (done : ahciReadSectors hba (some dmaBuf) lba count m = (0, some bytes)) :
    ∃ m', ahciTransfer hba lba count dmaBuf false m = (0, m') ∧
      bytes = m'.read dmaBuf (count.toNat * 512) := by
  unfold ahciReadSectors at done
  dsimp only at done
  have success : (ahciTransfer hba lba count dmaBuf false m).1 = 0 := congrArg Prod.fst done
  have copied := congrArg Prod.snd done
  dsimp only at copied
  rw [if_pos success] at copied
  exact ⟨_, Prod.ext success rfl, (Option.some.inj copied).symm⟩

theorem write_mem (m : Machine) (address : UInt32) (bytes : List UInt8) {i : Nat}
    (inside : i < bytes.length) (small : bytes.length ≤ 2 ^ 32) :
    (m.write address bytes).mem (address + UInt32.ofNat i) = bytes[i] := by
  have offset : (address + UInt32.ofNat i - address).toNat = i := by
    rw [offset_of, UInt32.toNat_ofNat']
    omega
  change (if (address + UInt32.ofNat i - address).toNat < bytes.length then
    bytes.getD (address + UInt32.ofNat i - address).toNat 0 else _) = _
  rw [offset, if_pos inside, List.getD_eq_getElem _ _ inside]

/-- A transfer moves its whole range exactly if it is one of at most 64 sectors. -/
theorem transfersRange_iff (lba : UInt32) (count : UInt16) (dmaBuf : UInt32) :
    TransfersRange lba count dmaBuf ↔ count.toNat ≤ 64 := by
  have bound := count.toNat_lt
  constructor
  · intro transfers
    have lengths := congrArg List.length (transfers.covers false)
    rw [addresses_transfer, range_length, range_length] at lengths
    omega
  · intro few
    have whole : min (count.toNat * 512) 0x8000 = count.toNat * 512 := by omega
    have moved (write : Bool) : (transferCommand lba count dmaBuf write).moved =
        range dmaBuf (count.toNat * 512) := by
      rw [moved_transfer, whole]
    have long (write : Bool) {i : Nat} (inside : i < count.toNat * 512) :
        i < (transferCommand lba count dmaBuf write).moved.length := by
      rw [moved, range_length]
      exact inside
    have place (write : Bool) (i : Nat) (short : i < (transferCommand lba count dmaBuf write).moved.length) :
        (transferCommand lba count dmaBuf write).moved[i] = dmaBuf + UInt32.ofNat i := by
      simp only [moved, range, List.getElem_map, List.getElem_range]
    constructor
    · intro write
      rw [addresses_transfer, whole]
    · apply range_nodup
      omega
    · intro hba m bytes conforms done
      rcases ahciReadSectors_done done with ⟨m', transferred, rfl⟩
      rcases ahciTransfer_issued transferred with ⟨rfl, look, finished⟩
      have kept := (conforms.reads _ m look rfl (moved_nodup lba count dmaBuf false) finished).1
      unfold Machine.read window
      apply List.map_congr_left
      intro i listed
      have inside := List.mem_range.mp listed
      have here := kept i (long false inside)
      rw [place, transfer_start] at here
      exact here
    · intro hba m m' buf conforms size done
      rcases ahciTransfer_issued done with ⟨rfl, look, finished⟩
      have kept := (conforms.writes _ _ look rfl (moved_nodup lba count dmaBuf true) finished).1
      apply List.ext_getElem
      · rw [window_length, size]
      · intro i first second
        have inside : i < count.toNat * 512 := by
          rw [← size]
          exact second
        have here := kept i (long true inside)
        rw [place, transfer_start, write_mem m dmaBuf buf second (by omega)] at here
        rw [window_getElem, here]

/-! ## A controller that uses the table up -/

/-- A controller whose commands leave their slot after two looks, and that moves what the table has
addresses for. -/
def plainController : Hba where
  present := true
  slot := some 0
  issued := fun _ _ look => decide (look < 2)
  failed := fun _ _ _ => false
  after := fun command m =>
    if command.write then
      { m with
        disk := fun x =>
          if command.fis.start * 512 ≤ x then
            (command.moved[x - command.fis.start * 512]?.map m.mem).getD (m.disk x)
          else m.disk x }
    else
      { m with
        mem := fun a =>
          if a ∈ command.moved then m.disk (command.fis.start * 512 + command.moved.idxOf a)
          else m.mem a }

theorem plainController_conforms : Conforms plainController := by
  constructor
  · intro command m look reads once _
    simp only [plainController, reads, Bool.false_eq_true, if_false]
    refine ⟨fun i inside => ?_, fun a absent => if_neg absent, trivial⟩
    rw [if_pos (List.getElem_mem inside), once.idxOf_getElem i inside]
  · intro command m look writes once _
    simp only [plainController, writes, if_true]
    refine ⟨fun i inside => ?_, fun x outside => ?_, trivial⟩
    · rw [if_pos (Nat.le_add_right _ _), Nat.add_sub_cancel_left, List.getElem?_eq_getElem inside]
      rfl
    · split_ifs with behind
      · rw [List.getElem?_eq_none (by omega)]
        rfl
      · rfl

theorem plainController_transfer {lba : UInt32} {count : UInt16} {buf : UInt32} {write : Bool}
    (some' : count ≠ 0) (m : Machine) : ahciTransfer plainController lba count buf write m =
      (0, plainController.after (transferCommand lba count buf write) m) := by
  rw [ahciTransfer, if_neg, if_neg, portIssueAndWait]
  · rfl
  · exact Option.some_ne_none 0
  · rintro (absent | zero)
    · cases absent
    · exact some' zero

/-- A read of more than 64 sectors returns zero with the old bytes of the buffer behind the first
32 KiB. -/
theorem longRead_lost (lba : UInt32) {count : UInt16} (long : 64 < count.toNat) (dmaBuf : UInt32) :
    ∃ m bytes, ahciReadSectors plainController (some dmaBuf) lba count m = (0, some bytes) ∧
      bytes ≠ window m.disk (lba.toNat * 512) (count.toNat * 512) := by
  have bound := count.toNat_lt
  have some' : count ≠ 0 := by
    rintro rfl
    exact absurd long (by decide)
  let m : Machine := ⟨fun _ => 0, fun _ => 1⟩
  refine ⟨m, (plainController.after (transferCommand lba count dmaBuf false) m).read dmaBuf
    (count.toNat * 512), ?_, fun same => ?_⟩
  · unfold ahciReadSectors
    simp only [plainController_transfer some', if_true]
  · have absent : dmaBuf + UInt32.ofNat 0x8000 ∉ (transferCommand lba count dmaBuf false).moved := by
      rw [moved_transfer, range, List.mem_map]
      rintro ⟨i, listed, equal⟩
      have values := congrArg (fun address => (address - dmaBuf).toNat) equal
      rw [offset_of, offset_of, UInt32.toNat_ofNat', UInt32.toNat_ofNat'] at values
      have small := List.mem_range.mp listed
      omega
    have kept := (plainController_conforms.reads (transferCommand lba count dmaBuf false) m 2 rfl
      (moved_nodup lba count dmaBuf false) rfl).2.1 _ absent
    have there := congrArg (fun bytes => bytes[0x8000]?) same
    have inside : 0x8000 < count.toNat * 512 := by omega
    unfold Machine.read window at there
    simp only [List.getElem?_map, List.getElem?_range inside, Option.map_some, kept] at there
    have equal : (0 : UInt8) = 1 := Option.some.inj there
    exact absurd equal (by decide)

theorem transfersRange_iff_sixtyFour :
    ∃ m bytes, Conforms plainController ∧
      ahciReadSectors plainController (some 0x100000) 0 64 m = (0, some bytes) ∧
      bytes = window m.disk 0 (64 * 512) := by
  let m : Machine := ⟨fun _ => 0, fun x => UInt8.ofNat x⟩
  have done : ahciReadSectors plainController (some 0x100000) 0 64 m = (0, some
      ((plainController.after (transferCommand 0 64 0x100000 false) m).read 0x100000 (64 * 512))) := by
    unfold ahciReadSectors
    simp only [plainController_transfer (show (64 : UInt16) ≠ 0 by decide), if_true]
    rfl
  have transfers := (transfersRange_iff 0 64 0x100000).mpr (by decide)
  exact ⟨m, _, plainController_conforms, done,
    transfers.reads plainController m _ plainController_conforms done⟩

/-- A transfer of 65 sectors, whose table has no address for the last one. -/
theorem sixtyFive_short : ¬TransfersRange 0 65 0x100000 := by
  intro transfers
  have lengths := congrArg List.length (transfers.covers false)
  rw [addresses_transfer, range_length, range_length] at lengths
  exact absurd lengths (by decide)

end Ahci

end Trinux
