import Trinux.Mm.Kheap

namespace Trinux.Kheap

/-!
# The blocks of the heap

The list of the blocks of a heap gives the size of each and, for those in use, the live allocation.
The blocks lie one behind the other, so the list also gives where each header is and what it says.
-/

open Words

/-! ## Fields of headers -/

def BlockT.Fits (header : BlockT) : Prop :=
  header.magic < 2 ^ 32 ∧ header.size < 2 ^ 32 ∧ header.next < 2 ^ 32 ∧ header.prev < 2 ^ 32

variable {m m' : Bytes} {b c x : Nat}

theorem blockAt_congr (same : ∀ x, b ≤ x → x < b + 20 → m' x = m x) : blockAt m' b = blockAt m b := by
  rw [blockAt, blockAt, word_congr fun x _ _ => same x (by omega) (by omega),
    word_congr fun x _ _ => same x (by omega) (by omega), same (b + 8) (by omega) (by omega),
    word_congr fun x _ _ => same x (by omega) (by omega),
    word_congr fun x _ _ => same x (by omega) (by omega)]

theorem setFree_outside (m : Bytes) (b : Nat) (free : Bool) (outside : x < b ∨ b + 20 ≤ x) :
    setFree m b free x = m x := Function.update_of_ne (by omega) _ _

theorem word_setFree (m : Bytes) (b : Nat) (free : Bool) {a : Nat} (apart : a + 4 ≤ b + 8 ∨ b + 8 < a) :
    word (setFree m b free) a = word m a :=
  word_congr fun x _ _ => Function.update_of_ne (by omega) _ _

theorem blockAt_setMagic (m : Bytes) (b : Nat) {magic : Nat} (small : magic < 2 ^ 32) :
    blockAt (setMagic m b magic) b = { blockAt m b with magic := magic } := by
  rw [blockAt, setMagic, word_setWord m b small, word_setWord_other _ _ (by omega),
    word_setWord_other _ _ (by omega), word_setWord_other _ _ (by omega),
    setWord_outside _ _ _ (by omega)]
  rfl

theorem blockAt_setSize (m : Bytes) (b : Nat) {size : Nat} (small : size < 2 ^ 32) :
    blockAt (setSize m b size) b = { blockAt m b with size := size } := by
  rw [blockAt, setSize, word_setWord m (b + 4) small, word_setWord_other _ _ (by omega),
    word_setWord_other _ _ (by omega), word_setWord_other _ _ (by omega),
    setWord_outside _ _ _ (by omega)]
  rfl

theorem blockAt_setFree (m : Bytes) (b : Nat) (free : Bool) :
    blockAt (setFree m b free) b = { blockAt m b with free := free } := by
  have byte : setFree m b free (b + 8) = if free then 1 else 0 := Function.update_self _ _ _
  rw [blockAt, byte, word_setFree _ _ _ (by omega), word_setFree _ _ _ (by omega),
    word_setFree _ _ _ (by omega), word_setFree _ _ _ (by omega), blockAt]
  cases free with
  | false => rfl
  | true => rfl

theorem blockAt_setNext (m : Bytes) (b : Nat) {next : Nat} (small : next < 2 ^ 32) :
    blockAt (setNext m b next) b = { blockAt m b with next := next } := by
  rw [blockAt, setNext, word_setWord m (b + 12) small, word_setWord_other _ _ (by omega),
    word_setWord_other _ _ (by omega), word_setWord_other _ _ (by omega),
    setWord_outside _ _ _ (by omega)]
  rfl

theorem blockAt_setPrev (m : Bytes) (b : Nat) {prev : Nat} (small : prev < 2 ^ 32) :
    blockAt (setPrev m b prev) b = { blockAt m b with prev := prev } := by
  rw [blockAt, setPrev, word_setWord m (b + 16) small, word_setWord_other _ _ (by omega),
    word_setWord_other _ _ (by omega), word_setWord_other _ _ (by omega),
    setWord_outside _ _ _ (by omega)]
  rfl

theorem setMagic_outside (m : Bytes) (b magic : Nat) (outside : x < b ∨ b + 20 ≤ x) :
    setMagic m b magic x = m x := setWord_outside _ _ _ (by omega)

theorem setSize_outside (m : Bytes) (b size : Nat) (outside : x < b ∨ b + 20 ≤ x) :
    setSize m b size x = m x := setWord_outside _ _ _ (by omega)

theorem setNext_outside (m : Bytes) (b next : Nat) (outside : x < b ∨ b + 20 ≤ x) :
    setNext m b next x = m x := setWord_outside _ _ _ (by omega)

theorem setPrev_outside (m : Bytes) (b prev : Nat) (outside : x < b ∨ b + 20 ≤ x) :
    setPrev m b prev x = m x := setWord_outside _ _ _ (by omega)

theorem setBlock_outside (m : Bytes) (b : Nat) (header : BlockT) (outside : x < b ∨ b + 20 ≤ x) :
    setBlock m b header x = m x := by
  rw [setBlock, setPrev_outside _ _ _ outside, setNext_outside _ _ _ outside,
    setFree_outside _ _ _ outside, setSize_outside _ _ _ outside, setMagic_outside _ _ _ outside]

theorem blockAt_setBlock (m : Bytes) (b : Nat) {header : BlockT} (fits : header.Fits) :
    blockAt (setBlock m b header) b = header := by
  rcases fits with ⟨magic, size, next, prev⟩
  rw [setBlock, blockAt_setPrev _ _ prev, blockAt_setNext _ _ next, blockAt_setFree,
    blockAt_setSize _ _ size, blockAt_setMagic _ _ magic]

/-! ## The list of blocks -/

/-- A block: its size, the live allocation, and the word in front of the pointer of the holder where
`kfree` looks for a header. -/
structure Blk where
  size : Nat
  owner : Option Alloc
  tag : Nat

def endOf (start : Nat) : List Blk → Nat
  | [] => start
  | b :: rest => endOf (start + 20 + b.size) rest

/-- The address of the last of some blocks, or else that of the block before. -/
def lastOf (prev start : Nat) : List Blk → Nat
  | [] => prev
  | b :: rest => lastOf start (start + 20 + b.size) rest

def Blk.header (b : Blk) (next prev : Nat) : BlockT where
  magic := if b.owner = none then magicFree else magicUsed
  size := b.size
  free := b.owner.isNone
  next := next
  prev := prev

/-- The bytes of an allocation lie in its block, and the pointer that its holder has is either that
of the block or has it in front. -/
structure Alloc.Placed (m : Bytes) (start : Nat) (b : Blk) (a : Alloc) : Prop where
  raw : a.raw = start + 20
  low : a.raw ≤ a.ptr
  high : a.ptr + a.size ≤ start + 20 + b.size
  shifted : a.ptr = a.raw ∨
    (a.raw + 4 ≤ a.ptr ∧ a.ptr % 4 = 0 ∧ a.ptr ≤ start + 20 + b.size ∧ word m (a.ptr - 4) = a.raw ∧
      (a.raw + 20 ≤ a.ptr → word m (a.ptr - 20) = b.tag))

/-- The blocks from an address on are in memory, where another block or nothing is behind them. -/
def Linked (m : Bytes) (stop : Nat) : Nat → Nat → List Blk → Prop
  | _, _, [] => True
  | prev, start, b :: rest =>
      (blockAt m start = b.header (if rest = [] then stop else start + 20 + b.size) prev ∧
        b.size % 4 = 0 ∧ ∀ a, b.owner = some a → a.Placed m start b) ∧
      Linked m stop start (start + 20 + b.size) rest

theorem endOf_append (start : Nat) (xs ys : List Blk) :
    endOf start (xs ++ ys) = endOf (endOf start xs) ys := by
  induction xs generalizing start with
  | nil => rfl
  | cons b rest known => exact known _

theorem le_endOf (start : Nat) (blocks : List Blk) : start + 20 * blocks.length ≤ endOf start blocks := by
  induction blocks generalizing start with
  | nil => exact Nat.le_refl _
  | cons b rest known =>
      have later := known (start + 20 + b.size)
      rw [List.length_cons, endOf]
      omega

theorem lastOf_append (prev start : Nat) (xs : List Blk) (b : Blk) (ys : List Blk) :
    lastOf prev start (xs ++ b :: ys) =
      lastOf (endOf start xs) (endOf start xs + 20 + b.size) ys := by
  induction xs generalizing prev start with
  | nil => rfl
  | cons c rest known => exact known _ _

theorem linked_append (stop prev start : Nat) (xs ys : List Blk) :
    Linked m stop prev start (xs ++ ys) ↔
      Linked m (if ys = [] then stop else endOf start xs) prev start xs ∧
        Linked m stop (lastOf prev start xs) (endOf start xs) ys := by
  induction xs generalizing prev start with
  | nil => exact ⟨fun linked => ⟨trivial, linked⟩, fun both => both.2⟩
  | cons b rest known =>
      have next : (if rest ++ ys = [] then stop else start + 20 + b.size) =
          if rest = [] then (if ys = [] then stop else endOf start (b :: rest))
            else start + 20 + b.size := by
        cases rest with
        | nil => rfl
        | cons c rest => rfl
      rw [List.cons_append, Linked, Linked, known, next, ← and_assoc]
      rfl

/-- The blocks are the same in a memory with the same bytes. -/
theorem Linked.congr {stop prev start : Nat} {blocks : List Blk}
    (same : ∀ x, start ≤ x → x < endOf start blocks → m' x = m x)
    (linked : Linked m stop prev start blocks) : Linked m' stop prev start blocks := by
  induction blocks generalizing prev start with
  | nil => trivial
  | cons b rest known =>
      rcases linked with ⟨⟨header, size, placed⟩, later⟩
      have inside := le_endOf (start + 20 + b.size) rest
      rw [endOf] at same
      refine ⟨⟨?_, size, fun a own => ?_⟩, known (fun x low high => same x (by omega) high) later⟩
      · rw [blockAt_congr fun x low high => same x low (by omega)]
        exact header
      · have old := placed a own
        refine ⟨old.raw, old.low, old.high, old.shifted.imp id fun moved => ?_⟩
        have raw := old.raw
        have high := old.high
        rw [word_congr fun x _ _ => same x (by omega) (by omega)]
        refine ⟨moved.1, moved.2.1, moved.2.2.1, moved.2.2.2.1, fun far => ?_⟩
        rw [word_congr fun x _ _ => same x (by omega) (by omega)]
        exact moved.2.2.2.2 far

theorem Linked.replace {stop prev start : Nat} {xs ys : List Blk} {b b' : Blk}
    (linked : Linked m stop prev start (xs ++ b :: ys)) (size : b'.size = b.size)
    (same : ∀ x, x < endOf start xs ∨ endOf start xs + 20 + b.size ≤ x → m' x = m x)
    (header : blockAt m' (endOf start xs) =
      b'.header (blockAt m (endOf start xs)).next (blockAt m (endOf start xs)).prev)
    (placed : ∀ a, b'.owner = some a → a.Placed m' (endOf start xs) b') :
    Linked m' stop prev start (xs ++ b' :: ys) := by
  rw [linked_append, if_neg (List.cons_ne_nil _ _)] at linked ⊢
  rcases linked with ⟨before, ⟨own, fourth, -⟩, later⟩
  refine ⟨before.congr fun x _ high => same x (Or.inl high), ⟨?_, ?_, placed⟩, ?_⟩
  · rw [header, own, size]
    rfl
  · rw [size]
    exact fourth
  · rw [size]
    exact later.congr fun x low _ => same x (Or.inr low)

/-- What is behind a place has another block in front of it. -/
theorem Linked.relink {prev prev' start next : Nat} {ys : List Blk} (positive : 0 < start)
    (linked : Linked m 0 prev start ys) (behind : next = if ys = [] then 0 else start)
    (small : prev' < 2 ^ 32) :
    Linked (if next ≠ 0 then setPrev m next prev' else m) 0 prev' start ys ∧
      ∀ x, x < start → (if next ≠ 0 then setPrev m next prev' else m) x = m x := by
  cases ys with
  | nil =>
      rw [if_pos rfl] at behind
      rw [if_neg (by omega)]
      exact ⟨trivial, fun _ _ => rfl⟩
  | cons b rest =>
      rw [if_neg (List.cons_ne_nil _ _)] at behind
      rw [behind, if_pos (by omega)]
      rcases linked with ⟨⟨header, size, placed⟩, later⟩
      refine ⟨⟨⟨?_, size, fun a own => ?_⟩, ?_⟩, fun x low => setPrev_outside _ _ _ (Or.inl low)⟩
      · rw [blockAt_setPrev m start small, header]
        rfl
      · have old := placed a own
        have raw := old.raw
        have high := old.high
        refine ⟨raw, old.low, high, old.shifted.imp id fun moved => ?_⟩
        rw [word_congr fun x _ _ => setPrev_outside m start prev' (by omega)]
        refine ⟨moved.1, moved.2.1, moved.2.2.1, moved.2.2.2.1, fun far => ?_⟩
        rw [word_congr fun x _ _ => setPrev_outside m start prev' (by omega)]
        exact moved.2.2.2.2 far
      · exact later.congr fun x low _ => setPrev_outside _ _ _ (by omega)

theorem next_small {place : Nat} {ys : List Blk} (fits : endOf place ys ≤ 2 ^ 32) :
    (if ys = [] then 0 else place) < 2 ^ 32 := by
  cases ys with
  | nil =>
      rw [if_pos rfl]
      decide
  | cons b rest =>
      have behind := le_endOf place (b :: rest)
      rw [List.length_cons] at behind
      rw [if_neg (List.cons_ne_nil _ _)]
      omega

def freeBlk (size : Nat) : Blk := ⟨size, none, 0⟩

theorem Linked.split {prev start n : Nat} {xs ys : List Blk} {b : Blk}
    (linked : Linked m 0 prev start (xs ++ b :: ys)) (free : b.owner = none)
    (room : n + 28 ≤ b.size) (fourth : n % 4 = 0)
    (fits : endOf start (xs ++ b :: ys) ≤ 2 ^ 32) :
    Linked (splitBlock m (endOf start xs) n) 0 prev start
      (xs ++ freeBlk n :: freeBlk (b.size - n - 20) :: ys) := by
  rw [endOf_append, endOf] at fits
  rw [linked_append, if_neg (List.cons_ne_nil _ _)] at linked ⊢
  generalize there : endOf start xs = place at *
  generalize lastOf prev start xs = before at *
  rcases linked with ⟨earlier, ⟨header, multiple, -⟩, later⟩
  have behind := le_endOf (place + 20 + b.size) ys
  have own : blockAt m place =
      ⟨magicFree, b.size, true, if ys = [] then 0 else place + 20 + b.size, before⟩ := by
    rw [header, Blk.header, free]
    rfl
  have next := next_small fits
  generalize link : (if ys = [] then 0 else place + 20 + b.size) = after at own next
  have prevSmall : before < 2 ^ 32 := by
    have := word_lt m (place + 16)
    rw [show word m (place + 16) = before from congrArg BlockT.prev own] at this
    exact this
  have made : BlockT.Fits ⟨magicFree, b.size - n - 20, true, after, place⟩ :=
    ⟨(by decide : magicFree < 2 ^ 32), (show b.size - n - 20 < 2 ^ 32 by omega), next,
      (show place < 2 ^ 32 by omega)⟩
  have kept : blockAt (setBlock m (place + headerSize + n)
      ⟨magicFree, b.size - n - headerSize, true, after, place⟩) place = blockAt m place :=
    blockAt_congr fun x _ high => setBlock_outside _ _ _ (by rw [headerSize]; omega)
  rw [splitBlock, own]
  dsimp only
  rw [if_pos (by rw [headerSize, Nat.mod_eq_of_lt (by omega)]; omega), kept, own]
  dsimp only
  rw [headerSize] at *
  have inner := blockAt_setBlock m (place + 20 + n) made
  have frame : ∀ x, x < place + 20 + n ∨ place + 20 + n + 20 ≤ x →
      setBlock m (place + 20 + n) ⟨magicFree, b.size - n - 20, true, after, place⟩ x = m x :=
    fun x outside => setBlock_outside _ _ _ outside
  generalize setBlock m (place + 20 + n) ⟨magicFree, b.size - n - 20, true, after, place⟩ = m₁ at *
  have tail : Linked m₁ 0 place (place + 20 + b.size) ys :=
    later.congr fun x low _ => frame x (by omega)
  have relinked := tail.relink (by omega) link.symm (show place + 20 + n < 2 ^ 32 by omega)
  generalize (if after ≠ 0 then setPrev m₁ after (place + 20 + n) else m₁) = m₂ at *
  rcases relinked with ⟨tail, low⟩
  have last : ∀ x, x < place ∨ place + 20 ≤ x →
      setSize (setNext m₂ place (place + 20 + n)) place n x = m₂ x := fun x outside => by
    rw [setSize_outside _ _ _ outside, setNext_outside _ _ _ outside]
  have size : place + 20 + n + 20 + (b.size - n - 20) = place + 20 + b.size := by omega
  refine ⟨?_, ⟨?_, fourth, fun a impossible => (by cases impossible)⟩,
    ⟨?_, ?_, fun a impossible => (by cases impossible)⟩, ?_⟩
  · refine earlier.congr fun x _ high => ?_
    rw [there] at high
    rw [last x (Or.inl high), low x (by omega), frame x (by omega)]
  · rw [blockAt_setSize _ _ (by omega), blockAt_setNext _ _ (by omega),
      blockAt_congr fun x _ high => low x (by omega), kept, own]
    rfl
  · change blockAt _ (place + 20 + n) = Blk.header _ (if ys = [] then 0 else
      place + 20 + n + 20 + (b.size - n - 20)) place
    rw [blockAt_congr fun x below _ => last x (by omega),
      blockAt_congr fun x _ high => low x (by omega), inner, size, link]
    rfl
  · change (b.size - n - 20) % 4 = 0
    omega
  · change Linked _ 0 (place + 20 + n) (place + 20 + n + 20 + (b.size - n - 20)) ys
    rw [size]
    exact tail.congr fun x below _ => last x (by omega)

theorem Linked.absorb {prev start : Nat} {xs ys : List Blk} {b c : Blk}
    (linked : Linked m 0 prev start (xs ++ b :: c :: ys)) (free : b.owner = none)
    (fits : endOf start (xs ++ b :: c :: ys) ≤ 2 ^ 32) :
    Linked (absorb m (endOf start xs) (endOf start xs + 20 + b.size)) 0 prev start
      (xs ++ freeBlk (b.size + (20 + c.size)) :: ys) := by
  rw [endOf_append, endOf, endOf] at fits
  rw [linked_append, if_neg (List.cons_ne_nil _ _)] at linked ⊢
  generalize there : endOf start xs = place at *
  generalize lastOf prev start xs = before at *
  rcases linked with ⟨earlier, ⟨header, multiple, -⟩, ⟨second, multiple', -⟩, later⟩
  have behind := le_endOf (place + 20 + b.size + 20 + c.size) ys
  have own : blockAt m place = ⟨magicFree, b.size, true, place + 20 + b.size, before⟩ := by
    rw [header, Blk.header, free, if_neg (List.cons_ne_nil _ _)]
    rfl
  have next := next_small fits
  generalize link : (if ys = [] then 0 else place + 20 + b.size + 20 + c.size) = after at second next
  have frame : ∀ x, x < place ∨ place + 20 ≤ x →
      setNext (setSize m place (b.size + (20 + c.size))) place after x = m x := fun x outside => by
    rw [setNext_outside _ _ _ outside, setSize_outside _ _ _ outside]
  have inner : blockAt (setNext (setSize m place (b.size + (20 + c.size))) place after) place =
      ⟨magicFree, b.size + (20 + c.size), true, after, before⟩ := by
    rw [blockAt_setNext _ _ next, blockAt_setSize _ _ (by omega), own]
  have kept : blockAt (setSize m place (b.size + (20 + c.size))) (place + 20 + b.size) =
      blockAt m (place + 20 + b.size) :=
    blockAt_congr fun x low _ => setSize_outside _ _ _ (by omega)
  have written : Kheap.absorb m place (place + 20 + b.size) =
      if after ≠ 0 then
        setPrev (setNext (setSize m place (b.size + (20 + c.size))) place after) after place
      else setNext (setSize m place (b.size + (20 + c.size))) place after := by
    simp only [Kheap.absorb, own, second, headerSize, Blk.header, kept, inner]
  rw [written]
  generalize setNext (setSize m place (b.size + (20 + c.size))) place after = m₁ at *
  have tail : Linked m₁ 0 (place + 20 + b.size) (place + 20 + b.size + 20 + c.size) ys :=
    later.congr fun x low _ => frame x (by omega)
  rcases tail.relink (by omega) link.symm (show place < 2 ^ 32 by omega) with ⟨tail, low⟩
  have size : place + 20 + (b.size + (20 + c.size)) = place + 20 + b.size + 20 + c.size := by omega
  refine ⟨?_, ⟨?_, ?_, fun a impossible => (by cases impossible)⟩, ?_⟩
  · refine earlier.congr fun x _ high => ?_
    rw [there] at high
    rw [low x (by omega), frame x (by omega)]
  · change _ = Blk.header _ (if ys = [] then 0 else place + 20 + (b.size + (20 + c.size))) before
    rw [blockAt_congr fun x _ high => low x (by omega), inner, size, link]
    rfl
  · change (b.size + (20 + c.size)) % 4 = 0
    omega
  · change Linked _ 0 place (place + 20 + (b.size + (20 + c.size))) ys
    rw [size]
    exact tail

/-! ## Looking for a block -/

/-- The loop of `kmalloc` finds a free block that is large enough. -/
theorem Linked.firstFit {prev start size fuel p : Nat} {blocks : List Blk} (positive : 0 < start)
    (linked : Linked m 0 prev start blocks)
    (found : firstFit m size fuel (if blocks = [] then 0 else start) = some p) :
    ∃ xs b ys, blocks = xs ++ b :: ys ∧ b.owner = none ∧ size ≤ b.size ∧ p = endOf start xs := by
  induction blocks generalizing prev start fuel with
  | nil =>
      rw [if_pos rfl] at found
      cases fuel with
      | zero => cases found
      | succ fuel =>
          rw [Kheap.firstFit, if_pos rfl] at found
          cases found
  | cons b rest known =>
      rw [if_neg (List.cons_ne_nil _ _)] at found
      rcases linked with ⟨⟨header, -, -⟩, later⟩
      cases fuel with
      | zero => cases found
      | succ fuel =>
          generalize link : (if rest = [] then 0 else start + 20 + b.size) = next at header
          rw [Kheap.firstFit, if_neg (by omega), header] at found
          split at found
          · rename_i fit
            cases found
            exact ⟨[], b, rest, rfl, Option.isNone_iff_eq_none.mp fit.1, fit.2, rfl⟩
          · rcases known (by omega) later (by rw [link]; exact found) with ⟨xs, c, ys, split, free, room, rfl⟩
            exact ⟨b :: xs, c, ys, by rw [split, List.cons_append], free, room, rfl⟩

end Trinux.Kheap
