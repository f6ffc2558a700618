import Trinux.Mm.HeapBlocks

namespace Trinux.Kheap

/-!
# The invariant of the heap

After every history, the blocks lie one behind the other from one end of the arena to the other, no
two free ones next to each other, and those in use are those of the live allocations.  `kfree` and
`krealloc` can break this: they take a word in front of a pointer of `kmalloc_aligned` for a header if
it is the magic number of one, whoever wrote it.  Requests whose size is rounded up to a number of
more than four bytes break it too.
-/

open Words

/-! ## The invariant -/

def Separated (blocks : List Blk) : Prop :=
  blocks.IsChain fun b c => b.owner ≠ none ∨ c.owner ≠ none

structure HeapBlocks (heap : Nat) (m : Bytes) (live : List Alloc) (blocks : List Blk) : Prop where
  ends : endOf heap blocks = heap + heapSize
  linked : Linked m 0 0 heap blocks
  separated : Separated blocks
  owners : live.Perm (blocks.filterMap Blk.owner)

def Alloc.Apart (a b : Alloc) : Prop := a.ptr + a.size ≤ b.ptr ∨ b.ptr + b.size ≤ a.ptr

/-- What is promised of the heap.  Some blocks tile the arena, their headers say what they are and
are linked in both directions, no two free ones are next to each other, those in use are those of the
live allocations, and these lie in the arena and apart from each other. -/
def HeapSound (heap : Nat) (s : HeapState) : Prop :=
  (∃ blocks, HeapBlocks heap s.mem s.live blocks) ∧
    (∀ a ∈ s.live, heap ≤ a.ptr ∧ a.ptr + a.size ≤ heap + heapSize) ∧
    s.live.Pairwise Alloc.Apart

variable {heap : Nat} {m m' : Bytes} {live rest : List Alloc} {blocks xs ys : List Blk} {a : Alloc}
  {b : Blk}

theorem separated_free (free : b.owner = none) :
    Separated (xs ++ b :: ys) ↔
      Separated xs ∧ Separated ys ∧ (∀ x ∈ xs.getLast?, x.owner ≠ none) ∧
        ∀ y ∈ ys.head?, y.owner ≠ none := by
  rw [Separated, List.isChain_append, List.isChain_cons]
  constructor
  · rintro ⟨before, ⟨next, behind⟩, last⟩
    refine ⟨before, behind, fun x own => ?_, fun y own => ?_⟩
    · exact (last x own _ rfl).resolve_right fun used => used free
    · exact (next y own).resolve_left fun used => used free
  · rintro ⟨before, behind, last, next⟩
    exact ⟨before, ⟨fun y own => Or.inr (next y own), behind⟩, fun x own _ _ => Or.inl (last x own)⟩

theorem separated_used (used : b.owner ≠ none) :
    Separated (xs ++ b :: ys) ↔ Separated xs ∧ Separated ys := by
  rw [Separated, List.isChain_append, List.isChain_cons]
  constructor
  · rintro ⟨before, ⟨-, behind⟩, -⟩
    exact ⟨before, behind⟩
  · rintro ⟨before, behind⟩
    refine ⟨before, ⟨fun y _ => Or.inl used, behind⟩, fun x _ y own => Or.inr ?_⟩
    cases own
    exact used

theorem Linked.multiple {stop prev start : Nat} (linked : Linked m stop prev start blocks)
    (first : start % 4 = 0) (before : prev % 4 = 0) :
    endOf start blocks % 4 = 0 ∧ lastOf prev start blocks % 4 = 0 := by
  induction blocks generalizing prev start with
  | nil => exact ⟨first, before⟩
  | cons b rest known =>
      have size := linked.1.2.1
      exact known linked.2 (by omega) first

theorem Linked.placed {stop prev start : Nat}
    (linked : Linked m stop prev start (xs ++ b :: ys)) (own : b.owner = some a) :
    a.Placed m (endOf start xs) b :=
  ((linked_append stop prev start xs (b :: ys)).mp linked).2.1.2.2 a own

theorem Linked.header {stop prev start : Nat}
    (linked : Linked m stop prev start (xs ++ b :: ys)) :
    blockAt m (endOf start xs) =
      b.header (if ys = [] then stop else endOf start xs + 20 + b.size) (lastOf prev start xs) :=
  ((linked_append stop prev start xs (b :: ys)).mp linked).2.1.1

theorem HeapBlocks.bounds (found : HeapBlocks heap m live (xs ++ b :: ys))
    (own : b.owner = some a) :
    a.raw = endOf heap xs + 20 ∧ a.raw ≤ a.ptr ∧ a.ptr + a.size ≤ endOf heap xs + 20 + b.size ∧
      endOf heap xs + 20 + b.size ≤ heap + heapSize := by
  have placed := found.linked.placed own
  have ends := found.ends
  rw [endOf_append, endOf] at ends
  have behind := le_endOf (endOf heap xs + 20 + b.size) ys
  exact ⟨placed.raw, placed.low, placed.high, by omega⟩

/-- Allocations lie one behind the other, each behind a header. -/
theorem Linked.ordered {stop prev start : Nat} (linked : Linked m stop prev start blocks) :
    (∀ a ∈ blocks.filterMap Blk.owner, start + 20 ≤ a.ptr ∧ a.ptr + a.size ≤ endOf start blocks) ∧
      (blocks.filterMap Blk.owner).Pairwise fun a b => a.ptr + a.size < b.ptr := by
  induction blocks generalizing prev start with
  | nil => exact ⟨fun a member => absurd member List.not_mem_nil, List.Pairwise.nil⟩
  | cons b rest known =>
      have later := known linked.2
      have inside := le_endOf (start + 20 + b.size) rest
      cases own : b.owner with
      | none =>
          rw [List.filterMap_cons_none own, endOf]
          refine ⟨fun a member => ?_, later.2⟩
          have bounds := later.1 a member
          omega
      | some a =>
          have placed := linked.1.2.2 a own
          have raw := placed.raw
          have low := placed.low
          have high := placed.high
          rw [List.filterMap_cons_some own, endOf]
          refine ⟨fun c member => ?_, List.pairwise_cons.mpr ⟨fun c member => ?_, later.2⟩⟩
          · rcases List.mem_cons.mp member with rfl | behind
            · omega
            · have bounds := later.1 c behind
              omega
          · have bounds := later.1 c member
            omega

theorem HeapBlocks.sound {s : HeapState} (found : HeapBlocks heap s.mem s.live blocks) :
    HeapSound heap s := by
  have ordered := found.linked.ordered
  refine ⟨⟨blocks, found⟩, fun a member => ?_, ?_⟩
  · rw [← found.ends]
    have bounds := ordered.1 a (found.owners.mem_iff.mp member)
    exact ⟨by omega, bounds.2⟩
  · refine (List.Perm.pairwise_iff (fun first => first.symm) found.owners).mpr ?_
    exact ordered.2.imp fun before => Or.inl before.le

theorem HeapBlocks.pointers (found : HeapBlocks heap m live blocks) :
    live.Pairwise fun a b => a.ptr ≠ b.ptr := by
  refine (List.Perm.pairwise_iff (fun first => Ne.symm first) found.owners).mpr ?_
  refine found.linked.ordered.2.imp ?_
  intro a b before
  omega

theorem HeapBlocks.block (found : HeapBlocks heap m live blocks) (member : a ∈ live) :
    ∃ xs b ys, blocks = xs ++ b :: ys ∧ b.owner = some a := by
  rcases List.mem_filterMap.mp (found.owners.mem_iff.mp member) with ⟨b, inside, own⟩
  rcases List.append_of_mem inside with ⟨xs, ys, split⟩
  exact ⟨xs, b, ys, split, own⟩

theorem filterMap_owner (xs : List Blk) (b : Blk) (ys : List Blk) :
    (xs ++ b :: ys).filterMap Blk.owner =
      xs.filterMap Blk.owner ++ (b.owner.toList ++ ys.filterMap Blk.owner) := by
  rw [List.filterMap_append]
  cases own : b.owner with
  | none => rw [List.filterMap_cons_none own]; rfl
  | some a => rw [List.filterMap_cons_some own]; rfl

/-! ## Giving back -/

/-- The first half of `coalesce` takes in the block behind, if that is free, or does nothing. -/
theorem Linked.coalesceNext_eq {prev start size : Nat}
    (linked : Linked m 0 prev start (xs ++ freeBlk size :: ys)) :
    (Kheap.coalesceNext m (endOf start xs) = m ∧ ∀ y ∈ ys.head?, y.owner ≠ none) ∨
      ∃ c zs, ys = c :: zs ∧ c.owner = none ∧ Kheap.coalesceNext m (endOf start xs) =
        Kheap.absorb m (endOf start xs) (endOf start xs + 20 + size) := by
  have header := linked.header
  unfold Kheap.coalesceNext
  cases ys with
  | nil =>
      have last : (blockAt m (endOf start xs)).next = 0 := congrArg BlockT.next header
      rw [last, if_neg fun both => both.1 rfl]
      exact Or.inl ⟨rfl, fun y impossible => by cases impossible⟩
  | cons c zs =>
      have link : (blockAt m (endOf start xs)).next = endOf start xs + 20 + size :=
        congrArg BlockT.next header
      have next := ((linked_append 0 prev start xs (freeBlk size :: c :: zs)).mp linked).2.2.1.1
      change blockAt m (endOf start xs + 20 + size) = _ at next
      rw [link, next]
      by_cases free : c.owner = none
      · rw [if_pos ⟨by omega, Option.isNone_iff_eq_none.mpr free⟩]
        exact Or.inr ⟨c, zs, rfl, free, rfl⟩
      · rw [if_neg fun both => free (Option.isNone_iff_eq_none.mp both.2)]
        refine Or.inl ⟨rfl, fun y own => ?_⟩
        cases own
        exact free

/-- The block behind a free one is taken in if it is free. -/
theorem Linked.coalesceNext {prev start size : Nat}
    (linked : Linked m 0 prev start (xs ++ freeBlk size :: ys))
    (fits : endOf start (xs ++ freeBlk size :: ys) ≤ 2 ^ 32) (separated : Separated ys) :
    ∃ size' ys', Linked (coalesceNext m (endOf start xs)) 0 prev start (xs ++ freeBlk size' :: ys') ∧
      endOf start (xs ++ freeBlk size' :: ys') = endOf start (xs ++ freeBlk size :: ys) ∧
      ys'.filterMap Blk.owner = ys.filterMap Blk.owner ∧ Separated ys' ∧
      ∀ y ∈ ys'.head?, y.owner ≠ none := by
  rcases linked.coalesceNext_eq with ⟨nothing, used⟩ | ⟨c, zs, rfl, free, taken⟩
  · rw [nothing]
    exact ⟨size, ys, linked, rfl, rfl, separated, used⟩
  · rw [taken]
    rw [Separated, List.isChain_cons] at separated
    refine ⟨size + (20 + c.size), zs, linked.absorb rfl fits, ?_, ?_, separated.2,
      fun y own => (separated.1 y own).resolve_left fun used => used free⟩
    · rw [endOf_append, endOf_append, endOf, endOf, endOf]
      congr 1
      change endOf start xs + 20 + (size + (20 + c.size)) = endOf start xs + 20 + size + 20 + c.size
      omega
    · rw [List.filterMap_cons_none free]

/-- The second half lets the block in front take in the block, if that is free, or does nothing. -/
theorem Linked.coalescePrev_eq {start size : Nat} (positive : 0 < start)
    (linked : Linked m 0 0 start (xs ++ freeBlk size :: ys)) :
    (Kheap.coalescePrev m (endOf start xs) = m ∧ ∀ x ∈ xs.getLast?, x.owner ≠ none) ∨
      ∃ us c, xs = us ++ [c] ∧ c.owner = none ∧ Kheap.coalescePrev m (endOf start xs) =
        Kheap.absorb m (endOf start us) (endOf start us + 20 + c.size) := by
  have header := linked.header
  unfold Kheap.coalescePrev
  rcases List.eq_nil_or_concat xs with rfl | ⟨us, c, rfl⟩
  · have first : (blockAt m (endOf start [])).prev = 0 := congrArg BlockT.prev header
    rw [first, if_neg fun both => both.1 rfl]
    exact Or.inl ⟨rfl, fun x impossible => by cases impossible⟩
  · rw [List.concat_eq_append] at *
    have link : (blockAt m (endOf start (us ++ [c]))).prev = endOf start us :=
      (congrArg BlockT.prev header).trans (lastOf_append 0 start us c [])
    have own : endOf start (us ++ [c]) = endOf start us + 20 + c.size := by
      rw [endOf_append]
      rfl
    have after := le_endOf start us
    rw [List.append_assoc] at linked
    change Linked m 0 0 start (us ++ c :: freeBlk size :: ys) at linked
    rw [link, linked.header, own]
    by_cases free : c.owner = none
    · rw [if_pos ⟨by omega, Option.isNone_iff_eq_none.mpr free⟩]
      exact Or.inr ⟨us, c, rfl, free, rfl⟩
    · rw [if_neg fun both => free (Option.isNone_iff_eq_none.mp both.2)]
      refine Or.inl ⟨rfl, fun x last => ?_⟩
      rw [List.getLast?_concat] at last
      cases last
      exact free

/-- A free block is taken in by the block in front of it if that is free. -/
theorem Linked.coalescePrev {start size : Nat} (positive : 0 < start)
    (linked : Linked m 0 0 start (xs ++ freeBlk size :: ys))
    (fits : endOf start (xs ++ freeBlk size :: ys) ≤ 2 ^ 32) (separated : Separated xs) :
    ∃ size' xs', Linked (coalescePrev m (endOf start xs)) 0 0 start (xs' ++ freeBlk size' :: ys) ∧
      endOf start (xs' ++ freeBlk size' :: ys) = endOf start (xs ++ freeBlk size :: ys) ∧
      xs'.filterMap Blk.owner = xs.filterMap Blk.owner ∧ Separated xs' ∧
      ∀ x ∈ xs'.getLast?, x.owner ≠ none := by
  rcases linked.coalescePrev_eq positive with ⟨nothing, used⟩ | ⟨us, c, rfl, free, taken⟩
  · rw [nothing]
    exact ⟨size, xs, linked, rfl, rfl, separated, used⟩
  · rw [taken]
    rw [List.append_assoc] at linked fits ⊢
    rw [Separated, List.isChain_append] at separated
    refine ⟨c.size + (20 + size), us, linked.absorb free fits, ?_, ?_, separated.1,
      fun x last => (separated.2.2 x last c rfl).resolve_right fun used => used free⟩
    · rw [endOf_append, endOf_append start us, endOf]
      change _ = endOf (endOf start us + 20 + c.size + 20 + size) ys
      congr 1
      change endOf start us + 20 + (c.size + (20 + size)) = endOf start us + 20 + c.size + 20 + size
      omega
    · rw [List.filterMap_append, List.filterMap_cons_none free, List.filterMap_nil,
        List.append_nil]

theorem HeapBlocks.freed (found : HeapBlocks heap m live (xs ++ b :: ys)) :
    Linked (setMagic (setFree m (endOf heap xs) true) (endOf heap xs) magicFree) 0 0 heap
      (xs ++ freeBlk b.size :: ys) := by
  refine found.linked.replace rfl (fun x outside => ?_) ?_ fun a impossible => by cases impossible
  · rw [setMagic_outside _ _ _ (by omega), setFree_outside _ _ _ (by omega)]
  · rw [blockAt_setMagic _ _ (by decide), blockAt_setFree, found.linked.header]
    rfl

theorem HeapBlocks.release (positive : 0 < heap) (fits : heap + heapSize ≤ 2 ^ 32)
    (found : HeapBlocks heap m live (xs ++ b :: ys)) (own : b.owner = some a)
    (others : live.Perm (a :: rest)) :
    ∃ blocks, HeapBlocks heap (release m (endOf heap xs)) rest blocks := by
  have used : b.owner ≠ none := by
    rw [own]
    exact fun impossible => by cases impossible
  have separated := (separated_used used).mp found.separated
  have ends := found.ends
  have marked := found.freed
  have sameEnd : endOf heap (xs ++ freeBlk b.size :: ys) = heap + heapSize := by
    rw [← ends, endOf_append, endOf_append]
    rfl
  rcases marked.coalesceNext (by omega) separated.2 with
    ⟨size, ys', linked, sameEnd', owners, behind, next⟩
  rcases linked.coalescePrev positive (by omega) separated.1 with
    ⟨size', xs', linked', sameEnd'', owners', before, last⟩
  refine ⟨xs' ++ freeBlk size' :: ys', ⟨?_, linked', ?_, ?_⟩⟩
  · rw [sameEnd'', sameEnd', sameEnd]
  · exact (separated_free rfl).mpr ⟨before, behind, last, next⟩
  · have all := found.owners
    rw [filterMap_owner, own] at all
    rw [filterMap_owner, owners, owners']
    have both := others.symm.trans (all.trans List.perm_middle)
    exact both.cons_inv

/-- Where a moved pointer lies close to its block, there is no header in front of it. -/
theorem HeapBlocks.near (first : heap % 4 = 0) (found : HeapBlocks heap m live (xs ++ b :: ys))
    (own : b.owner = some a) (moved : a.ptr ≠ a.raw) (close : a.ptr < a.raw + 20) :
    word m (a.ptr - 20) ≠ magicUsed := by
  have placed := found.linked.placed own
  have multiple : endOf heap xs % 4 = 0 ∧ lastOf 0 heap xs % 4 = 0 :=
    Linked.multiple ((linked_append 0 0 heap xs (b :: ys)).mp found.linked).1 first rfl
  have size := ((linked_append 0 0 heap xs (b :: ys)).mp found.linked).2.1.2.1
  have header := found.linked.header
  have raw := placed.raw
  rcases placed.shifted with same | ⟨behind, fourth, -⟩
  · exact absurd same moved
  have magic : magicUsed % 4 = 1 := by decide
  have four : a.ptr - 20 = endOf heap xs + 4 ∨ a.ptr - 20 = endOf heap xs + 8 ∨
      a.ptr - 20 = endOf heap xs + 12 ∨ a.ptr - 20 = endOf heap xs + 16 := by omega
  have noMagic : ∀ n, n % 4 = 0 → n ≠ magicUsed := by
    intro n zero same
    omega
  rcases four with at4 | at8 | at12 | at16
  · rw [at4, show word m (endOf heap xs + 4) = b.size from congrArg BlockT.size header]
    exact noMagic _ size
  · have free : (blockAt m (endOf heap xs)).free = false := by
      rw [header, Blk.header, own]
      rfl
    have zero : m (endOf heap xs + 8) = 0 := not_not.mp (of_decide_eq_false free)
    rw [at8, word, zero]
    refine noMagic _ ?_
    rw [show (0 : UInt8).toNat = 0 from rfl]
    omega
  · rw [at12, show word m (endOf heap xs + 12) = _ from congrArg BlockT.next header]
    refine noMagic _ ?_
    change (if ys = [] then 0 else endOf heap xs + 20 + b.size) % 4 = 0
    split
    · rfl
    · omega
  · rw [at16, show word m (endOf heap xs + 16) = _ from congrArg BlockT.prev header]
    exact noMagic _ multiple.2

theorem blockFromPtr_eq {ptr : Nat} (low : 20 ≤ ptr) (high : ptr ≤ 2 ^ 32) :
    blockFromPtr ptr = ptr - 20 := by
  rw [blockFromPtr, headerSize]
  omega

/-- `kfree` gives back the block of a live allocation, if it takes nothing else for its header. -/
theorem HeapBlocks.kfree_eq (fits : heap + heapSize ≤ 2 ^ 32)
    (found : HeapBlocks heap m live (xs ++ b :: ys)) (own : b.owner = some a)
    (plain : a.ptr ≠ a.raw → word m (a.ptr - 20) ≠ magicUsed) :
    Kheap.kfree m a.ptr = Kheap.release m (endOf heap xs) := by
  have placed := found.linked.placed own
  rcases found.bounds own with ⟨raw, low, high, ends⟩
  have magic : (blockAt m (endOf heap xs)).magic = magicUsed := by
    rw [found.linked.header, Blk.header, own]
    rfl
  rw [Kheap.kfree, if_neg (by omega)]
  have inside : a.ptr ≤ endOf heap xs + 20 + b.size := by omega
  have place : a.raw - 20 = endOf heap xs := by omega
  by_cases same : a.ptr = a.raw
  · rw [blockFromPtr_eq (by omega) (by omega), same, place, if_neg fun other => other magic]
  · rcases placed.shifted with impossible | ⟨-, -, -, stored, -⟩
    · exact absurd impossible same
    · rw [blockFromPtr_eq (by omega) (by omega), if_pos (show (blockAt m (a.ptr - 20)).magic ≠ magicUsed
        from plain same)]
      dsimp only
      rw [stored, blockFromPtr_eq (by omega) (by omega), place, if_pos magic]

theorem HeapBlocks.kfree (positive : 0 < heap) (fits : heap + heapSize ≤ 2 ^ 32)
    (found : HeapBlocks heap m live (xs ++ b :: ys)) (own : b.owner = some a)
    (others : live.Perm (a :: rest))
    (plain : a.ptr ≠ a.raw → word m (a.ptr - 20) ≠ magicUsed) :
    ∃ blocks, HeapBlocks heap (kfree m a.ptr) rest blocks := by
  rw [found.kfree_eq fits own plain]
  exact found.release positive fits own others

/-! ## Another holder of a block -/

/-- A block gets another holder, who may have written to it.  The other blocks stay. -/
theorem HeapBlocks.reown (a' : Alloc) (found : HeapBlocks heap m live (xs ++ b :: ys))
    (own : b.owner = some a) (others : live.Perm (a :: rest))
    (same : ∀ x, x < endOf heap xs + 20 ∨ endOf heap xs + 20 + b.size ≤ x → m' x = m x)
    (raw : a'.raw = endOf heap xs + 20) (low : a'.raw ≤ a'.ptr)
    (high : a'.ptr + a'.size ≤ endOf heap xs + 20 + b.size)
    (shifted : a'.ptr = a'.raw ∨ (a'.raw + 4 ≤ a'.ptr ∧ a'.ptr % 4 = 0 ∧
      word m' (a'.ptr - 4) = a'.raw)) :
    HeapBlocks heap m' (a' :: rest)
      (xs ++ ⟨b.size, some a', word m' (a'.ptr - 20)⟩ :: ys) := by
  have used : b.owner ≠ none := by
    rw [own]
    exact fun impossible => by cases impossible
  have separated := (separated_used used).mp found.separated
  refine ⟨?_, ?_, ?_, ?_⟩
  · rw [← found.ends, endOf_append, endOf_append]
    rfl
  · refine found.linked.replace rfl (fun x outside => same x (by omega)) ?_ fun c holds => ?_
    · rw [blockAt_congr fun x _ below => same x (by omega), found.linked.header]
      rw [Blk.header, Blk.header, own]
      rfl
    · cases holds
      refine ⟨raw, low, high, shifted.imp id fun moved => ?_⟩
      exact ⟨moved.1, moved.2.1, by change a'.ptr ≤ endOf heap xs + 20 + b.size; omega, moved.2.2,
        fun _ => rfl⟩
  · exact (separated_used fun impossible => by cases impossible).mpr separated
  · have all := found.owners
    rw [filterMap_owner, own] at all
    rw [filterMap_owner]
    have both := others.symm.trans (all.trans List.perm_middle)
    exact (List.Perm.cons a' both.cons_inv).trans List.perm_middle.symm

/-! ## Allocating -/

theorem alignUp_eight {n : Nat} (small : n + 7 < 2 ^ 32) :
    n ≤ alignUp n 8 ∧ alignUp n 8 ≤ n + 7 ∧ alignUp n 8 % 8 = 0 := by
  rw [alignUp, Nat.mod_eq_of_lt small]
  omega

/-- A free block that is large enough is cut to a size, if what is left is large enough to be a
block. -/
theorem Linked.splitBlock {start n : Nat} (linked : Linked m 0 0 start (xs ++ b :: ys))
    (free : b.owner = none) (room : n ≤ b.size) (fourth : n % 4 = 0) (small : n + 28 < 2 ^ 32)
    (fits : endOf start (xs ++ b :: ys) ≤ 2 ^ 32) (separated : Separated (xs ++ b :: ys)) :
    ∃ size ys', Linked (splitBlock m (endOf start xs) n) 0 0 start (xs ++ freeBlk size :: ys') ∧
      n ≤ size ∧ endOf start (xs ++ freeBlk size :: ys') = endOf start (xs ++ b :: ys) ∧
      ys'.filterMap Blk.owner = ys.filterMap Blk.owner ∧ Separated ys' ∧ ∀ c ∈ ys, c ∈ ys' := by
  have around := (separated_free free).mp separated
  have header := linked.header
  by_cases large : n + 28 ≤ b.size
  · refine ⟨n, freeBlk (b.size - n - 20) :: ys, linked.split free large fourth fits, Nat.le_refl _,
      ?_, ?_, ?_, fun c member => List.mem_cons_of_mem _ member⟩
    · rw [endOf_append, endOf_append, endOf, endOf, endOf]
      congr 1
      change endOf start xs + 20 + n + 20 + (b.size - n - 20) = endOf start xs + 20 + b.size
      omega
    · rw [List.filterMap_cons_none (show (freeBlk (b.size - n - 20)).owner = none from rfl)]
    · rw [Separated, List.isChain_cons]
      exact ⟨fun y own => Or.inr (around.2.2.2 y own), around.2.1⟩
  · refine ⟨b.size, ys, ?_, room, ?_, rfl, around.2.1, fun c member => member⟩
    · rw [Kheap.splitBlock, header, if_neg (by
        rw [headerSize, Nat.mod_eq_of_lt (by omega)]
        exact large)]
      refine linked.replace rfl (fun x _ => rfl) ?_ fun a impossible => by cases impossible
      rw [header, Blk.header, Blk.header, free]
      rfl
    · rw [endOf_append, endOf_append]
      rfl

/-- `kmalloc` returns a block that was free, or null and does nothing.  The blocks in use stay. -/
theorem HeapBlocks.kmalloc {size : Nat} (positive : 0 < heap) (fits : heap + heapSize ≤ 2 ^ 32)
    (found : HeapBlocks heap m live blocks) (some' : size ≠ 0) (small : size + 7 < 2 ^ 32) :
    kmalloc heap m size = (m, 0) ∨
      ∃ m' xs b ys, kmalloc heap m size = (m', endOf heap xs + 20) ∧
        b.owner = some ⟨endOf heap xs + 20, size, endOf heap xs + 20⟩ ∧
        HeapBlocks heap m' (⟨endOf heap xs + 20, size, endOf heap xs + 20⟩ :: live)
          (xs ++ b :: ys) ∧
        ∀ c ∈ blocks, c.owner ≠ none → c ∈ xs ++ b :: ys := by
  rcases alignUp_eight small with ⟨least, most, multiple⟩
  rw [Kheap.kmalloc, if_neg some']
  cases first : firstFit m (alignUp size 8) (heapSize / headerSize + 1) heap with
  | none => exact Or.inl rfl
  | some p =>
      refine Or.inr ?_
      have nonempty : blocks ≠ [] := by
        rintro rfl
        have ends := found.ends
        change heap = heap + heapSize at ends
        have := show 0 < heapSize by decide
        omega
      rcases found.linked.firstFit positive (by rw [if_neg nonempty]; exact first) with
        ⟨xs, b, ys, rfl, free, room, rfl⟩
      have ends := found.ends
      have behind := le_endOf (endOf heap xs + 20 + b.size) ys
      have whole := ends
      rw [endOf_append, endOf] at whole
      have bound : heapSize + 28 < 2 ^ 32 := by decide
      have low := le_endOf heap xs
      rcases found.linked.splitBlock free room (by omega) (by omega) (by omega) found.separated with
        ⟨size', ys', linked, enough, sameEnd, owners, behind', kept⟩
      have before := ((separated_free free).mp found.separated).1
      generalize hm : Kheap.splitBlock m (endOf heap xs) (alignUp size 8) = m₁ at linked
      have marked : ∀ x, x < endOf heap xs ∨ endOf heap xs + 20 ≤ x →
          setMagic (setFree m₁ (endOf heap xs) false) (endOf heap xs) magicUsed x = m₁ x :=
        fun x outside => by rw [setMagic_outside _ _ _ outside, setFree_outside _ _ _ outside]
      have header : blockAt (setMagic (setFree m₁ (endOf heap xs) false) (endOf heap xs) magicUsed)
          (endOf heap xs) = { blockAt m₁ (endOf heap xs) with free := false, magic := magicUsed } := by
        rw [blockAt_setMagic _ _ (by decide), blockAt_setFree]
      dsimp only
      rw [hm, headerSize]
      generalize setMagic (setFree m₁ (endOf heap xs) false) (endOf heap xs) magicUsed = m₂ at *
      refine ⟨m₂, xs, ⟨size', some ⟨endOf heap xs + 20, size, endOf heap xs + 20⟩, 0⟩, ys', rfl, rfl,
        ⟨?_, ?_, ?_, ?_⟩, ?_⟩
      · rw [← ends, ← sameEnd, endOf_append, endOf_append]
        rfl
      · refine linked.replace rfl (fun x outside => marked x ?_) ?_ fun c holds => ?_
        · rcases outside with below | above
          · exact Or.inl below
          · exact Or.inr (by omega)
        · rw [header, linked.header]
          rfl
        · cases holds
          have high : endOf heap xs + 20 + size ≤ endOf heap xs + 20 + size' := by omega
          exact ⟨rfl, Nat.le_refl _, high, Or.inl rfl⟩
      · exact (separated_used fun impossible => by cases impossible).mpr ⟨before, behind'⟩
      · have all := found.owners
        rw [filterMap_owner, free] at all
        rw [filterMap_owner, owners]
        exact (List.Perm.cons _ all).trans List.perm_middle.symm
      · intro c member used
        rcases List.mem_append.mp member with early | late
        · exact List.mem_append_left _ early
        · rcases List.mem_cons.mp late with rfl | later
          · exact absurd free used
          · exact List.mem_append_right _ (List.mem_cons_of_mem _ (kept c later))

/-- The word in front of a moved pointer is that of its block. -/
theorem HeapBlocks.tagged (found : HeapBlocks heap m live blocks) (member : b ∈ blocks)
    (own : b.owner = some a) (far : a.raw + 20 ≤ a.ptr) : word m (a.ptr - 20) = b.tag := by
  rcases List.append_of_mem member with ⟨xs, ys, rfl⟩
  rcases (found.linked.placed own).shifted with same | moved
  · omega
  · exact moved.2.2.2.2 far

/-! ## One call -/

/-- What stands in front of a moved pointer stays, if its block does. -/
theorem HeapBlocks.stays_plain {live' : List Alloc} {blocks' : List Blk} (first : heap % 4 = 0)
    (found : HeapBlocks heap m live blocks) (made : HeapBlocks heap m' live' blocks')
    (member : a ∈ live) (inside : a ∈ live')
    (stays : ∀ c ∈ blocks, c.owner = some a → c ∈ blocks')
    (plain : a.ptr ≠ a.raw → word m (a.ptr - 20) ≠ magicUsed) (moved : a.ptr ≠ a.raw) :
    word m' (a.ptr - 20) ≠ magicUsed := by
  by_cases near : a.ptr < a.raw + 20
  · rcases made.block inside with ⟨xs, b, ys, rfl, own⟩
    exact made.near first own moved near
  · rcases found.block member with ⟨xs, b, ys, rfl, own⟩
    have there : b ∈ xs ++ b :: ys := List.mem_append_right _ List.mem_cons_self
    rw [made.tagged (stays b there own) own (Nat.le_of_not_lt near),
      ← found.tagged there own (Nat.le_of_not_lt near)]
    exact plain moved

/-- What `krealloc` has after it has copied: the live allocations and the new one, which has another
pointer than each of them.  The blocks in use stay, and so does what stands in front of the old
pointer. -/
theorem HeapBlocks.copied (positive : 0 < heap) (fits : heap + heapSize ≤ 2 ^ 32)
    (first : heap % 4 = 0) (found : HeapBlocks heap m live blocks) (member : a ∈ live) {size : Nat}
    (some' : size ≠ 0) (small : size + 7 < 2 ^ 32)
    (plain : a.ptr ≠ a.raw → word m (a.ptr - 20) ≠ magicUsed) :
    Kheap.kmalloc heap m size = (m, 0) ∨
      ∃ m' dest, Kheap.kmalloc heap m size = (m', dest) ∧ dest ≠ 0 ∧ ∀ copy ≤ size, ∃ blocks',
        HeapBlocks heap (memcpy m' dest a.ptr copy) (⟨dest, size, dest⟩ :: live) blocks' ∧
          (∀ c ∈ blocks, c.owner ≠ none → c ∈ blocks') ∧
          (a.ptr ≠ a.raw → word (memcpy m' dest a.ptr copy) (a.ptr - 20) ≠ magicUsed) := by
  rcases found.kmalloc positive fits some' small with null | ⟨m', xs, b, ys, result, own, made, kept⟩
  · exact Or.inl null
  · refine Or.inr ⟨m', endOf heap xs + 20, result, Nat.succ_ne_zero _, fun copy few => ?_⟩
    have high : endOf heap xs + 20 + size ≤ endOf heap xs + 20 + b.size :=
      (made.linked.placed own).high
    have made₂ := made.reown ⟨endOf heap xs + 20, size, endOf heap xs + 20⟩ own (List.Perm.refl _)
      (fun _ outside => memcpy_outside m' (endOf heap xs + 20) a.ptr copy (by omega)) rfl
      (Nat.le_refl _) high (Or.inl rfl)
    have differ := (List.pairwise_cons.mp made₂.pointers).1
    have stays : ∀ c ∈ blocks, c.owner ≠ none → c ∈ xs ++ ⟨b.size,
        some ⟨endOf heap xs + 20, size, endOf heap xs + 20⟩,
        word (memcpy m' (endOf heap xs + 20) a.ptr copy) (endOf heap xs + 20 - 20)⟩ :: ys := by
      intro c there held
      rcases Option.ne_none_iff_exists'.mp held with ⟨e, mine⟩
      have isLive : e ∈ live := found.owners.mem_iff.mpr (List.mem_filterMap.mpr ⟨c, there, mine⟩)
      rcases List.mem_append.mp (kept c there held) with early | late
      · exact List.mem_append_left _ early
      · rcases List.mem_cons.mp late with same | later
        · rw [same, own] at mine
          exact absurd (congrArg Alloc.ptr (Option.some.inj mine)) (differ e isLive)
        · exact List.mem_append_right _ (List.mem_cons_of_mem _ later)
    refine ⟨_, made₂, stays, found.stays_plain first made₂ member (List.mem_cons_of_mem _ member) ?_
      plain⟩
    intro c there mine
    apply stays c there
    rw [mine]
    exact Option.some_ne_none a

namespace HeapState

def Intact (heap : Nat) (s : HeapState) : Prop := ∃ blocks, HeapBlocks heap s.mem s.live blocks

def Plain (s : HeapState) (ptr : Nat) : Prop :=
  ∀ a ∈ s.live, a.ptr = ptr → a.ptr ≠ a.raw → word s.mem (ptr - 20) ≠ magicUsed

def Proper (s : HeapState) : HeapCall → Prop
  | .malloc size => size.toNat + 7 < 2 ^ 32
  | .calloc count size => count.toNat * size.toNat + 7 < 2 ^ 32
  | .aligned size => (size.toNat + 7) / 8 * 8 + (4096 + headerSize) + 7 < 2 ^ 32
  | .realloc ptr size => size.toNat + 7 < 2 ^ 32 ∧ s.Plain ptr
  | .free ptr => s.Plain ptr
  | .store _ _ => True

instance (s : HeapState) (ptr : Nat) : Decidable (s.Plain ptr) :=
  inferInstanceAs (Decidable (∀ a ∈ s.live, _))

instance (s : HeapState) (c : HeapCall) : Decidable (s.Proper c) :=
  match c with
  | .malloc size => inferInstanceAs (Decidable (size.toNat + 7 < 2 ^ 32))
  | .calloc count size => inferInstanceAs (Decidable (count.toNat * size.toNat + 7 < 2 ^ 32))
  | .aligned size =>
      inferInstanceAs (Decidable ((size.toNat + 7) / 8 * 8 + (4096 + headerSize) + 7 < 2 ^ 32))
  | .realloc ptr size => inferInstanceAs (Decidable (size.toNat + 7 < 2 ^ 32 ∧ s.Plain ptr))
  | .free ptr => inferInstanceAs (Decidable (s.Plain ptr))
  | .store _ _ => inferInstanceAs (Decidable True)

theorem find_spec {s : HeapState} {ptr : Nat} {a : Alloc} (found : s.find ptr = some a) :
    a ∈ s.live ∧ a.ptr = ptr := by
  rw [find] at found
  have passes := List.find?_some found
  exact ⟨List.mem_of_find?_eq_some found, of_decide_eq_true passes⟩

variable (A : Arena) {s : HeapState}

theorem malloc_intact (holds : s.Intact A.heap) {size : Nat} (small : size + 7 < 2 ^ 32) :
    (s.allocated (kmalloc A.heap s.mem size) size (kmalloc A.heap s.mem size).2).Intact A.heap := by
  rcases holds with ⟨blocks, found⟩
  by_cases zero : size = 0
  · rw [kmalloc, if_pos zero]
    exact ⟨blocks, found⟩
  · rcases found.kmalloc A.positive A.fits zero small with null | ⟨m', xs, b, ys, result, own, made, -⟩
    · rw [null]
      exact ⟨blocks, found⟩
    · rw [result, allocated, if_neg (Nat.succ_ne_zero _)]
      exact ⟨_, made⟩

theorem calloc_intact (holds : s.Intact A.heap) {count size : Nat}
    (small : count * size + 7 < 2 ^ 32) :
    (s.allocated (kcalloc A.heap s.mem count size) (count * size)
      (kcalloc A.heap s.mem count size).2).Intact A.heap := by
  rcases holds with ⟨blocks, found⟩
  rw [kcalloc, Nat.mod_eq_of_lt (by omega)]
  generalize count * size = total at *
  by_cases zero : total = 0
  · rw [kmalloc, if_pos zero]
    exact ⟨blocks, found⟩
  · rcases found.kmalloc A.positive A.fits zero small with null | ⟨m', xs, b, ys, result, own, made, -⟩
    · rw [null]
      exact ⟨blocks, found⟩
    · rw [result]
      dsimp only
      rw [if_neg (Nat.succ_ne_zero _), allocated, if_neg (Nat.succ_ne_zero _)]
      have placed := made.linked.placed own
      have high := placed.high
      refine ⟨_, made.reown _ own (List.Perm.refl _) (fun x outside => ?_) rfl (Nat.le_refl _) high
        (Or.inl rfl)⟩
      change fill m' (endOf A.heap xs + 20) total (fun _ => 0) x = m' x
      change endOf A.heap xs + 20 + total ≤ endOf A.heap xs + 20 + b.size at high
      exact fill_outside _ _ _ _ (by omega)

theorem aligned_intact (holds : s.Intact A.heap) {size : Nat}
    (small : (size + 7) / 8 * 8 + (4096 + headerSize) + 7 < 2 ^ 32) :
    (s.allocated (kmallocAligned A.heap s.mem size) size
      (kmalloc A.heap s.mem (paddedSize size)).2).Intact A.heap := by
  rcases holds with ⟨blocks, found⟩
  rw [headerSize] at small
  have padded : size + 4116 ≤ paddedSize size ∧ paddedSize size + 7 < 2 ^ 32 := by
    rw [paddedSize, headerSize, alignUp, Nat.mod_eq_of_lt (show size + (8 - 1) < 2 ^ 32 by omega),
      Nat.mod_eq_of_lt (by omega)]
    omega
  rw [kmallocAligned]
  generalize paddedSize size = wanted at *
  rcases found.kmalloc A.positive A.fits (by omega) padded.2 with
    null | ⟨m', xs, b, ys, result, own, made, -⟩
  · rw [null]
    exact ⟨blocks, found⟩
  · have placed := made.linked.placed own
    have high : endOf A.heap xs + 20 + wanted ≤ endOf A.heap xs + 20 + b.size := placed.high
    have ends := made.ends
    rw [endOf_append, endOf] at ends
    have behind := le_endOf (endOf A.heap xs + 20 + b.size) ys
    have arena := A.fits
    have first := A.aligned
    have fourth : endOf A.heap xs % 4 = 0 :=
      (Linked.multiple ((linked_append 0 0 A.heap xs (b :: ys)).mp made.linked).1 (by omega) rfl).1
    have aligned : endOf A.heap xs + 20 ≤ alignUp (endOf A.heap xs + 20) 4096 ∧
        alignUp (endOf A.heap xs + 20) 4096 ≤ endOf A.heap xs + 20 + 4095 ∧
        alignUp (endOf A.heap xs + 20) 4096 % 4 = 0 := by
      rw [alignUp, Nat.mod_eq_of_lt (by omega)]
      omega
    rw [result]
    dsimp only
    rw [if_neg (Nat.succ_ne_zero _)]
    generalize alignUp (endOf A.heap xs + 20) 4096 = moved at *
    by_cases same : moved = endOf A.heap xs + 20
    · rw [if_pos same, allocated, if_neg (Nat.succ_ne_zero _)]
      refine ⟨_, made.reown _ own (List.Perm.refl _) (fun x _ => rfl) rfl (Nat.le_refl _) ?_
        (Or.inl rfl)⟩
      change endOf A.heap xs + 20 + size ≤ endOf A.heap xs + 20 + b.size
      omega
    · rw [if_neg same, allocated, if_neg (show moved ≠ 0 by omega)]
      refine ⟨_, made.reown _ own (List.Perm.refl _) (fun x outside => ?_) rfl aligned.1 ?_
        (Or.inr ⟨?_, aligned.2.2, ?_⟩)⟩
      · exact setWord_outside _ _ _ (by omega)
      · change moved + size ≤ endOf A.heap xs + 20 + b.size
        omega
      · change endOf A.heap xs + 20 + 4 ≤ moved
        omega
      · exact word_setWord _ _ (by omega)

theorem free_intact (holds : s.Intact A.heap) {a : Alloc} (member : a ∈ s.live)
    (plain : s.Plain a.ptr) : Intact A.heap ⟨kfree s.mem a.ptr, s.live.erase a⟩ := by
  rcases holds with ⟨blocks, found⟩
  rcases found.block member with ⟨xs, b, ys, rfl, own⟩
  exact found.kfree A.positive A.fits own (List.perm_cons_erase member)
    fun moved => plain a member rfl moved

theorem store_intact (holds : s.Intact A.heap) {a : Alloc} (member : a ∈ s.live)
    (bytes : Nat → UInt8) : Intact A.heap ⟨fill s.mem a.ptr a.size bytes, s.live⟩ := by
  rcases holds with ⟨blocks, found⟩
  rcases found.block member with ⟨xs, b, ys, rfl, own⟩
  have placed := found.linked.placed own
  rcases found.bounds own with ⟨raw, low, high, -⟩
  have made := found.reown a own (List.perm_cons_erase member)
    (fun _ outside => fill_outside s.mem a.ptr a.size bytes (by omega)) raw low high
    (placed.shifted.imp id fun moved => ⟨moved.1, moved.2.1, by
      rw [word_congr fun x _ _ => fill_outside s.mem a.ptr a.size bytes (by omega)]
      exact moved.2.2.2.1⟩)
  exact ⟨_, ⟨made.ends, made.linked, made.separated,
    (List.perm_cons_erase member).trans made.owners⟩⟩

theorem realloc_intact (holds : s.Intact A.heap) {a : Alloc} (member : a ∈ s.live) {size : Nat}
    (some' : size ≠ 0) (small : size + 7 < 2 ^ 32) (plain : s.Plain a.ptr) :
    Intact A.heap
      (if (krealloc A.heap s.mem a.ptr size).2 = 0 then
        ⟨(krealloc A.heap s.mem a.ptr size).1, s.live⟩
      else ⟨(krealloc A.heap s.mem a.ptr size).1,
        ⟨(krealloc A.heap s.mem a.ptr size).2, size,
          if (krealloc A.heap s.mem a.ptr size).2 = a.ptr then a.raw
          else (krealloc A.heap s.mem a.ptr size).2⟩ :: s.live.erase a⟩) := by
  rcases holds with ⟨blocks, found⟩
  rcases found.block member with ⟨xs, b, ys, rfl, own⟩
  rcases found.bounds own with ⟨raw, low, high, ends⟩
  have arena := A.fits
  have header := found.linked.header
  have pointer : blockFromPtr a.ptr = a.ptr - 20 := blockFromPtr_eq (by omega) (by omega)
  rw [krealloc, if_neg (show a.ptr ≠ 0 by omega), if_neg some', pointer]
  dsimp only
  by_cases inPlace : (blockAt s.mem (a.ptr - 20)).magic = magicUsed ∧
      size ≤ (blockAt s.mem (a.ptr - 20)).size
  · have same : a.ptr = a.raw := by
      by_contra moved
      exact plain a member rfl moved inPlace.1
    have place : a.ptr - 20 = endOf A.heap xs := by omega
    have room : size ≤ b.size := by
      have fit := inPlace.2
      rw [place, header] at fit
      exact fit
    rw [if_pos inPlace]
    dsimp only
    rw [if_neg (show a.ptr ≠ 0 by omega), if_pos rfl]
    exact ⟨_, found.reown _ own (List.perm_cons_erase member) (fun x _ => rfl) raw low
      (show a.ptr + size ≤ endOf A.heap xs + 20 + b.size by omega) (Or.inl same)⟩
  · rw [if_neg inPlace]
    have first := A.aligned
    rcases found.copied A.positive A.fits (by omega) member some' small (plain a member rfl) with
      null | ⟨m', dest, result, notNull, copies⟩
    · rw [null]
      dsimp only
      rw [if_pos rfl, if_pos rfl]
      exact ⟨_, found⟩
    · rw [result]
      dsimp only
      rw [if_neg notNull]
      dsimp only
      generalize copied : (if (blockAt m' (a.ptr - 20)).magic = magicUsed ∧
        (blockAt m' (a.ptr - 20)).size < size then (blockAt m' (a.ptr - 20)).size else size) = copy
      have few : copy ≤ size := by
        rw [← copied]
        split
        · omega
        · exact Nat.le_refl _
      rcases copies copy few with ⟨blocks, made, -, plain'⟩
      rcases made.block (List.mem_cons_of_mem _ member) with ⟨xs', b', ys', rfl, own'⟩
      have differ : dest ≠ a.ptr := (List.pairwise_cons.mp made.pointers).1 a member
      rw [if_neg notNull, if_neg differ]
      exact made.kfree A.positive A.fits own'
        ((List.Perm.cons _ (List.perm_cons_erase member)).trans (List.Perm.swap _ _ _)) plain'

/-- A call that does not meet the defects keeps the list of the blocks. -/
theorem call_intact (holds : s.Intact A.heap) (c : HeapCall) (proper : s.Proper c) :
    (s.call A.heap c).Intact A.heap := by
  cases c with
  | malloc size => exact malloc_intact A holds proper
  | calloc count size => exact calloc_intact A holds proper
  | aligned size => exact aligned_intact A holds proper
  | realloc ptr size =>
      rw [call]
      by_cases null : ptr = 0
      · rw [if_pos null]
        exact malloc_intact A holds proper.1
      · rw [if_neg null]
        cases found : s.find ptr with
        | none => exact holds
        | some a =>
            rcases find_spec found with ⟨member, rfl⟩
            dsimp only
            by_cases zero : size = 0
            · rw [if_pos zero, zero, krealloc, if_neg null, if_pos (show UInt32.toNat 0 = 0 from rfl)]
              exact free_intact A holds member proper.2
            · rw [if_neg zero]
              have nonzero : size.toNat ≠ 0 := fun impossible =>
                zero (UInt32.toNat_inj.mp impossible)
              exact realloc_intact A holds member nonzero proper.1 proper.2
  | free ptr =>
      rw [call]
      cases found : s.find ptr with
      | none => exact holds
      | some a =>
          rcases find_spec found with ⟨member, rfl⟩
          exact free_intact A holds member proper
  | store ptr bytes =>
      rw [call]
      cases found : s.find ptr with
      | none => exact holds
      | some a => exact store_intact A holds (find_spec found).1 bytes

theorem boot_intact (m : Bytes) : (boot A.heap m).Intact A.heap := by
  have whole : BlockT.Fits ⟨magicFree, heapSize - headerSize, true, 0, 0⟩ := by
    unfold BlockT.Fits
    decide
  have multiple : (heapSize - headerSize) % 4 = 0 := by decide
  have ends : A.heap + 20 + (heapSize - headerSize) = A.heap + heapSize := by
    have room : 20 + (heapSize - headerSize) = heapSize := by decide
    omega
  exact ⟨[freeBlk (heapSize - headerSize)], ends,
    ⟨⟨blockAt_setBlock m A.heap whole, multiple, fun a impossible => (by cases impossible)⟩, trivial⟩,
    List.isChain_singleton _, List.Perm.refl _⟩

/-- In every history whose calls do not meet the defects, what is promised of the heap holds in every
state. -/
theorem run_heapSound (m : Bytes) (calls : List HeapCall)
    (proper : Machine.Always (call A.heap) Proper (boot A.heap m) calls) :
    HeapSound A.heap (Machine.after (call A.heap) (boot A.heap m) calls) := by
  have keeps : ∀ (s : HeapState) (c : HeapCall), s.Intact A.heap → s.Proper c →
      (s.call A.heap c).Intact A.heap := fun _ c holds good => call_intact A holds c good
  have intact : (Machine.after (call A.heap) (boot A.heap m) calls).Intact A.heap :=
    proper.after keeps (boot_intact A m)
  rcases intact with ⟨blocks, found⟩
  exact found.sound

/-- Once all that a history has allocated is freed, in any order, the arena is one block again: what it
has room for is granted at its beginning. -/
theorem run_freed_whole (m : Bytes) (calls : List HeapCall)
    (proper : Machine.Always (call A.heap) Proper (boot A.heap m) calls) {s : HeapState}
    (reached : s = Machine.after (call A.heap) (boot A.heap m) calls) (freed : s.live = [])
    {size : Nat} (positive : 0 < size) (fits : alignUp size 8 ≤ heapSize - headerSize) :
    (kmalloc A.heap s.mem size).2 = A.heap + headerSize := by
  have intact : s.Intact A.heap := reached ▸ @Machine.Always.after _ _ _ (Intact A.heap) Proper
    (fun _ c holds good => call_intact A holds c good) _ (boot_intact A m) _ proper
  rcases intact with ⟨blocks, found⟩
  have owners := found.owners
  rw [freed, List.nil_perm, List.filterMap_eq_nil_iff] at owners
  have ends := found.ends
  rcases blocks with _ | ⟨b, _ | ⟨c, rest⟩⟩
  · change A.heap = A.heap + 33554432 at ends
    omega
  · change A.heap + 20 + b.size = A.heap + heapSize at ends
    have first : firstFit s.mem (alignUp size 8) (heapSize / headerSize + 1) A.heap = some A.heap := by
      rw [firstFit, if_neg A.positive.ne', found.linked.1.1, if_pos]
      refine ⟨Option.isNone_iff_eq_none.mpr (owners b List.mem_cons_self), fits.trans ?_⟩
      change heapSize - 20 ≤ b.size
      omega
    rw [kmalloc, if_neg positive.ne', first]
  · -- two blocks next to each other would both be free
    rcases (List.isChain_cons_cons.mp found.separated).1 with used | used
    · exact absurd (owners b List.mem_cons_self) used
    · exact absurd (owners c (List.mem_cons_of_mem _ List.mem_cons_self)) used

def arena : Arena := ⟨0x200000, by decide, by decide, by decide⟩

theorem run_heapSound_arena :
    HeapSound arena.heap (Machine.after (call arena.heap) (boot arena.heap fun _ => 0)
      [.malloc 100, .aligned 4096, .store 0x201000 (fun _ => 0xFF), .realloc 0x200014 500,
        .free 0x201000]) :=
  run_heapSound arena (fun _ => 0) _
    ⟨by decide +kernel, by decide +kernel, by decide +kernel, by decide +kernel, by decide +kernel,
      trivial⟩

theorem run_freed_whole_arena :
    (kmalloc arena.heap (Machine.after (call arena.heap) (boot arena.heap fun _ => 0)
      [.malloc 100, .aligned 4096, .free 0x200014, .free 0x201000]).mem 33554408).2 = 0x200014 :=
  run_freed_whole arena (fun _ => 0) [.malloc 100, .aligned 4096, .free 0x200014, .free 0x201000]
    ⟨by decide +kernel, by decide +kernel, by decide +kernel, by decide +kernel, trivial⟩ rfl
    (by decide +kernel) (by decide) (by decide)

/-- A holder leaves the magic number of a header where `kfree` looks for one in front of a pointer of
`kmalloc_aligned` later. -/
def staleHistory : List HeapCall :=
  [.malloc 8000, .store 0x200014 (setWord (fun _ => 0) 0x200FEC magicUsed), .free 0x200014,
    .aligned 16, .free 0x201000]

theorem staleHistory_leaks :
    ¬HeapSound arena.heap
      (Machine.after (call arena.heap) (boot arena.heap fun _ => 0) staleHistory) := by
  rintro ⟨⟨blocks, found⟩, -⟩
  have empty : (Machine.after (call arena.heap) (boot arena.heap fun _ => 0) staleHistory).live = [] := by
    decide +kernel
  have used : (blockAt (Machine.after (call arena.heap) (boot arena.heap fun _ => 0)
      staleHistory).mem arena.heap).free = false := by decide +kernel
  have owners := found.owners
  rw [empty] at owners
  cases blocks with
  | nil =>
      have ends := found.ends
      change arena.heap = arena.heap + heapSize at ends
      exact absurd ends (by decide)
  | cons b rest =>
      have header := found.linked.1.1
      have none : b.owner = none := by
        cases own : b.owner with
        | none => rfl
        | some a =>
            rw [List.filterMap_cons_some own] at owners
            exact absurd owners.nil_eq (List.cons_ne_nil _ _).symm
      rw [header, Blk.header, none] at used
      cases used

end HeapState

end Trinux.Kheap
