import Mathlib

namespace Trinux
namespace Bytes

/-!
# Little-endian words and byte-addressed media

A medium is a total map from addresses to bytes.  Writing a list of bytes at
an address replaces exactly that window and nothing else, so every frame fact
about a medium reduces to one disjointness of intervals.

Words are stored with their low byte first.  Reading a word back needs only
the four bytes at its offset, whatever precedes or follows them; this is what
lets a sequential record format be parsed against an image that is known only
as a concatenation.
-/

def u32 (value : Nat) : Nat := value % 2 ^ 32

theorem u32_of_small {value : Nat} (small : value < 2 ^ 32) : u32 value = value :=
  Nat.mod_eq_of_lt small

/-! ## Little-endian words -/

def le32 (word : UInt32) : List UInt8 :=
  [UInt8.ofNat word.toNat, UInt8.ofNat (word.toNat / 256),
    UInt8.ofNat (word.toNat / 65536), UInt8.ofNat (word.toNat / 16777216)]

def byteAt (bytes : List UInt8) (index : Nat) : Nat :=
  (bytes.getD index 0).toNat

def readU32 (bytes : List UInt8) (offset : Nat) : UInt32 :=
  UInt32.ofNat (byteAt bytes offset + byteAt bytes (offset + 1) * 256 +
    byteAt bytes (offset + 2) * 65536 + byteAt bytes (offset + 3) * 16777216)

def readU16 (bytes : List UInt8) (offset : Nat) : Nat :=
  byteAt bytes offset + byteAt bytes (offset + 1) * 256

def le16 (word : Nat) : List UInt8 := [UInt8.ofNat word, UInt8.ofNat (word / 256)]

@[simp] theorem le32_length (word : UInt32) : (le32 word).length = 4 := rfl

theorem byteAt_append_right (front back : List UInt8) (index : Nat) :
    byteAt (front ++ back) (front.length + index) = byteAt back index := by
  rw [byteAt, byteAt, List.getD_append_right _ _ _ _ (by omega), Nat.add_sub_cancel_left]

/-- A word lying wholly behind a prefix is read from what follows it. -/
theorem readU32_append_right (front back : List UInt8) (offset : Nat) :
    readU32 (front ++ back) (front.length + offset) = readU32 back offset := by
  simp only [readU32, Nat.add_assoc, byteAt_append_right]

@[simp] theorem readU32_le32 (word : UInt32) (rest : List UInt8) :
    readU32 (le32 word ++ rest) 0 = word := by
  apply UInt32.toNat_inj.mp
  have bound := word.toNat_lt
  simp only [readU32, le32, byteAt, List.cons_append, List.getD_cons_zero, List.getD_cons_succ,
    UInt8.toNat_ofNat', UInt32.toNat_ofNat']
  omega

def words (values : List UInt32) : List UInt8 := values.flatMap le32

@[simp] theorem words_nil : words [] = [] := rfl

@[simp] theorem words_cons (word : UInt32) (rest : List UInt32) :
    words (word :: rest) = le32 word ++ words rest := rfl

@[simp] theorem words_length (values : List UInt32) : (words values).length = 4 * values.length := by
  induction values with
  | nil => rfl
  | cons word rest known =>
      rw [words_cons, List.length_append, known, le32_length, List.length_cons]
      omega

/-- Each of consecutive words is read back at its own offset. -/
theorem readU32_words (front : List UInt8) (values : List UInt32) (rest : List UInt8)
    (index : Nat) (inside : index < values.length) :
    readU32 (front ++ (words values ++ rest)) (front.length + 4 * index) = values[index] := by
  rw [readU32_append_right]
  induction values generalizing index with
  | nil => cases inside
  | cons word values known =>
      cases index with
      | zero => simp
      | succ index =>
          have step : 4 * (index + 1) = (le32 word).length + 4 * index := by
            rw [le32_length]
            omega
          rw [words_cons, List.append_assoc, step, readU32_append_right,
            known index (by simpa using inside), List.getElem_cons_succ]

theorem readU32_take (bytes : List UInt8) {offset count : Nat} (inside : offset + 4 ≤ count) :
    readU32 (bytes.take count) offset = readU32 bytes offset := by
  have byte : ∀ index, index < count → byteAt (bytes.take count) index = byteAt bytes index := by
    intro index below
    rw [byteAt, byteAt, List.getD_eq_getElem?_getD, List.getD_eq_getElem?_getD,
      List.getElem?_take_of_lt below]
  simp only [readU32]
  rw [byte _ (by omega), byte _ (by omega), byte _ (by omega), byte _ (by omega)]

def slice (bytes : List UInt8) (offset count : Nat) : List UInt8 :=
  (bytes.drop offset).take count

theorem slice_append_right (front back : List UInt8) (offset count : Nat) :
    slice (front ++ back) (front.length + offset) count = slice back offset count := by
  rw [slice, slice, List.drop_append, List.drop_eq_nil_of_le (by omega), List.nil_append,
    Nat.add_sub_cancel_left]

theorem slice_append_left (front back : List UInt8) :
    slice (front ++ back) 0 front.length = front := by
  simp [slice]

def splice (bytes : List UInt8) (offset : Nat) (new : List UInt8) : List UInt8 :=
  bytes.take offset ++ new ++ bytes.drop (offset + new.length)

/-! ## Byte-addressed media -/

def window (medium : Nat → UInt8) (address count : Nat) : List UInt8 :=
  (List.range count).map fun index => medium (address + index)

def overwrite (medium : Nat → UInt8) (address : Nat) (bytes : List UInt8) : Nat → UInt8 :=
  fun position =>
    if address ≤ position ∧ position < address + bytes.length then
      bytes.getD (position - address) 0
    else medium position

@[simp] theorem window_length (medium : Nat → UInt8) (address count : Nat) :
    (window medium address count).length = count := by
  simp [window]

theorem window_getElem (medium : Nat → UInt8) (address count index : Nat)
    (inside : index < (window medium address count).length) :
    (window medium address count)[index] = medium (address + index) := by
  simp [window]

/-- Two media that agree on an interval have the same window there. -/
theorem window_congr {first second : Nat → UInt8} {address count : Nat}
    (agree : ∀ position, address ≤ position → position < address + count →
      first position = second position) :
    window first address count = window second address count := by
  apply List.map_congr_left
  intro index member
  have below := List.mem_range.mp member
  exact agree _ (by omega) (by omega)

theorem window_add (medium : Nat → UInt8) (address first second : Nat) :
    window medium address (first + second) =
      window medium address first ++ window medium (address + first) second := by
  simp [window, List.range_add, Function.comp_def, Nat.add_assoc]

theorem window_take (medium : Nat → UInt8) (address count kept : Nat) (small : kept ≤ count) :
    (window medium address count).take kept = window medium address kept := by
  obtain ⟨rest, rfl⟩ := Nat.exists_eq_add_of_le small
  rw [window_add, List.take_left' (window_length _ _ _)]

theorem overwrite_outside (medium : Nat → UInt8) (address : Nat) (bytes : List UInt8)
    (position : Nat) (outside : position < address ∨ address + bytes.length ≤ position) :
    overwrite medium address bytes position = medium position := by
  rw [overwrite, if_neg (by omega)]

theorem overwrite_inside (medium : Nat → UInt8) (address : Nat) (bytes : List UInt8)
    (index : Nat) (inside : index < bytes.length) :
    overwrite medium address bytes (address + index) = bytes[index] := by
  rw [overwrite, if_pos (by omega), Nat.add_sub_cancel_left]
  simp [inside]

@[simp] theorem overwrite_nil (medium : Nat → UInt8) (address : Nat) :
    overwrite medium address [] = medium := by
  funext position
  exact overwrite_outside _ _ _ _ (by simp; omega)

/-- What was just written is what is read. -/
@[simp] theorem window_overwrite (medium : Nat → UInt8) (address : Nat) (bytes : List UInt8) :
    window (overwrite medium address bytes) address bytes.length = bytes := by
  apply List.ext_getElem (window_length _ _ _)
  intro index inside inBytes
  rw [window_getElem, overwrite_inside _ _ _ _ inBytes]

/-- A window disjoint from the written interval keeps its bytes. -/
theorem window_overwrite_of_disjoint (medium : Nat → UInt8) (address : Nat) (bytes : List UInt8)
    (other count : Nat) (disjoint : other + count ≤ address ∨ address + bytes.length ≤ other) :
    window (overwrite medium address bytes) other count = window medium other count :=
  window_congr fun position low high => overwrite_outside _ _ _ _ (by omega)

/-- Two adjacent writes are one write of the concatenation. -/
theorem overwrite_append (medium : Nat → UInt8) (address : Nat) (front back : List UInt8) :
    overwrite (overwrite medium address front) (address + front.length) back =
      overwrite medium address (front ++ back) := by
  funext position
  by_cases before : position < address
  · rw [overwrite_outside _ _ _ _ (by omega), overwrite_outside _ _ _ _ (by omega),
      overwrite_outside _ _ _ _ (by omega)]
  obtain ⟨index, rfl⟩ := Nat.exists_eq_add_of_le (Nat.le_of_not_lt before)
  by_cases inFront : index < front.length
  · rw [overwrite_outside _ _ _ _ (by omega), overwrite_inside _ _ _ _ inFront,
      overwrite_inside _ _ _ _ (by simp; omega), List.getElem_append_left inFront]
  by_cases inBack : index < front.length + back.length
  · obtain ⟨rest, rfl⟩ := Nat.exists_eq_add_of_le (Nat.le_of_not_lt inFront)
    rw [← Nat.add_assoc, overwrite_inside _ _ _ _ (by omega), Nat.add_assoc,
      overwrite_inside _ _ _ _ (by simp; omega), List.getElem_append_right (by omega)]
    simp
  · rw [overwrite_outside _ _ _ _ (by omega), overwrite_outside _ _ _ _ (by omega),
      overwrite_outside _ _ _ _ (by simp; omega)]

/-! ## Byte arrays -/

def byte (bytes : List UInt8) (position : Nat) : UInt8 := bytes.getD position 0

theorem byte_of_length_le {bytes : List UInt8} {position : Nat} (behind : bytes.length ≤ position) :
    byte bytes position = 0 := by
  rw [byte, List.getD_eq_getElem?_getD, List.getElem?_eq_none behind, Option.getD_none]

theorem slice_eq_window {bytes : List UInt8} {offset count : Nat}
    (inside : offset + count ≤ bytes.length) :
    slice bytes offset count = window (byte bytes) offset count := by
  have length : (slice bytes offset count).length = count := by
    rw [slice, List.length_take, List.length_drop]
    omega
  apply List.ext_getElem (length.trans (window_length _ _ _).symm)
  intro index below inWindow
  rw [window_getElem]
  rw [length] at below
  simp only [slice, List.getElem_take, List.getElem_drop, byte, List.getD_eq_getElem?_getD]
  rw [List.getElem?_eq_getElem (by omega), Option.getD_some]

theorem slice_window (medium : Nat → UInt8) (address : Nat) {total offset count : Nat}
    (inside : offset + count ≤ total) :
    slice (window medium address total) offset count = window medium (address + offset) count := by
  have split : total = offset + (count + (total - offset - count)) := by omega
  rw [split, window_add, window_add, slice, List.drop_left' (window_length _ _ _),
    List.take_left' (window_length _ _ _)]

theorem byte_append_left {front back : List UInt8} {position : Nat}
    (inside : position < front.length) : byte (front ++ back) position = byte front position := by
  rw [byte, byte, List.getD_append _ _ _ _ inside]

theorem byte_append_right {front back : List UInt8} {position : Nat}
    (behind : front.length ≤ position) :
    byte (front ++ back) position = byte back (position - front.length) := by
  rw [byte, byte, List.getD_append_right _ _ _ _ behind]

theorem byte_take {bytes : List UInt8} {count position : Nat} (inside : position < count) :
    byte (bytes.take count) position = byte bytes position := by
  rw [byte, byte, List.getD_eq_getElem?_getD, List.getD_eq_getElem?_getD,
    List.getElem?_take_of_lt inside]

theorem byte_drop (bytes : List UInt8) (count position : Nat) :
    byte (bytes.drop count) position = byte bytes (count + position) := by
  rw [byte, byte, List.getD_eq_getElem?_getD, List.getD_eq_getElem?_getD, List.getElem?_drop]

theorem byte_replicate_zero (count position : Nat) : byte (List.replicate count 0) position = 0 := by
  by_cases inside : position < count
  · rw [byte, List.getD_replicate _ inside]
  · exact byte_of_length_le (by rw [List.length_replicate]; omega)

theorem byte_splice {bytes new : List UInt8} {offset : Nat} (inside : offset ≤ bytes.length)
    (position : Nat) : byte (splice bytes offset new) position =
      if offset ≤ position ∧ position < offset + new.length then byte new (position - offset)
      else byte bytes position := by
  have front : (bytes.take offset).length = offset := by
    rw [List.length_take, Nat.min_eq_left inside]
  rw [splice, List.append_assoc]
  by_cases before : position < offset
  · rw [if_neg (by omega), byte_append_left (by rw [front]; exact before), byte_take before]
  rw [byte_append_right (by rw [front]; omega), front]
  by_cases within : position < offset + new.length
  · rw [if_pos ⟨by omega, within⟩, byte_append_left (by omega)]
  · rw [if_neg (by omega), byte_append_right (by omega), byte_drop]
    congr 1
    omega

theorem splice_length (bytes : List UInt8) {offset : Nat} {new : List UInt8}
    (inside : offset + new.length ≤ bytes.length) :
    (splice bytes offset new).length = bytes.length := by
  simp only [splice, List.length_append, List.length_take, List.length_drop]
  omega

/-- Write to an array.  A gap behind the end is filled with zeros, and writing nothing changes
nothing. -/
def writeAt (bytes : List UInt8) (offset : Nat) (new : List UInt8) : List UInt8 :=
  if new = [] then bytes
  else splice (bytes ++ List.replicate (offset - bytes.length) 0) offset new

theorem writeAt_length (bytes : List UInt8) (offset : Nat) {new : List UInt8} (some : new ≠ []) :
    (writeAt bytes offset new).length = max bytes.length (offset + new.length) := by
  rw [writeAt, if_neg some]
  simp only [splice, List.length_append, List.length_take, List.length_drop,
    List.length_replicate]
  omega

theorem byte_writeAt (bytes : List UInt8) (offset : Nat) (new : List UInt8) (position : Nat) :
    byte (writeAt bytes offset new) position =
      if offset ≤ position ∧ position < offset + new.length then byte new (position - offset)
      else byte bytes position := by
  rw [writeAt]
  by_cases empty : new = []
  · rw [if_pos empty, if_neg (by rw [empty, List.length_nil]; omega)]
  rw [if_neg empty, byte_splice (by rw [List.length_append, List.length_replicate]; omega)]
  by_cases within : offset ≤ position ∧ position < offset + new.length
  · rw [if_pos within, if_pos within]
  rw [if_neg within, if_neg within]
  by_cases inside : position < bytes.length
  · exact byte_append_left inside
  · rw [byte_append_right (Nat.not_lt.mp inside), byte_replicate_zero,
      byte_of_length_le (Nat.not_lt.mp inside)]

theorem slice_clipped (bytes : List UInt8) (offset count : Nat) :
    slice bytes offset count = window (byte bytes) offset (min count (bytes.length - offset)) := by
  by_cases inside : offset ≤ bytes.length
  · have all : (bytes.drop offset).take (bytes.length - offset) = bytes.drop offset :=
      List.take_of_length_le (by rw [List.length_drop])
    rw [← slice_eq_window (by omega), slice, slice, ← List.take_take, all]
  · have empty : min count (bytes.length - offset) = 0 := by omega
    rw [empty, slice, List.drop_eq_nil_of_le (by omega), List.take_nil]
    rfl

end Bytes
end Trinux
