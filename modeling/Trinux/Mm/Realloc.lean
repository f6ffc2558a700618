import Trinux.Mm.HeapRequests

namespace Trinux.Kheap

/-!
# What `krealloc` keeps

`kmalloc` writes to headers and to the block that it takes, and `kfree` writes to headers only, so
the bytes of all other blocks in use stay.  What `krealloc` reads behind the old pointer depends on
the header that it finds in front of it: for a pointer of `kmalloc_aligned` it finds none, and reads
as many bytes as the new block shall have.
-/

open Words

def reallocCopies (heap : Nat) (m : Bytes) (ptr newSize : Nat) : Nat :=
  let b := blockFromPtr ptr
  if (blockAt m b).magic = magicUsed ∧ newSize ≤ (blockAt m b).size then 0
  else
    let (m, np) := kmalloc heap m newSize
    if np = 0 then 0
    else if (blockAt m b).magic = magicUsed ∧ (blockAt m b).size < newSize then
      (blockAt m b).size
    else newSize

/-- What is promised of `krealloc`, for a live allocation.  If it fails, the memory stays.  If not,
the bytes of the holder are kept as far as they are asked for, the bytes of the others stay, and the
blocks in use are those of the result and of the others.  What is read lies in the old block. -/
structure Reallocates (heap : Nat) (s : HeapState) (a : Alloc) (n : Nat) : Prop where
  failed : (krealloc heap s.mem a.ptr n).2 = 0 → (krealloc heap s.mem a.ptr n).1 = s.mem
  kept : (krealloc heap s.mem a.ptr n).2 ≠ 0 → ∀ k < min a.size n,
    (krealloc heap s.mem a.ptr n).1 ((krealloc heap s.mem a.ptr n).2 + k) = s.mem (a.ptr + k)
  others : (krealloc heap s.mem a.ptr n).2 ≠ 0 → ∀ c ∈ s.live.erase a, ∀ x, c.ptr ≤ x →
    x < c.ptr + c.size → (krealloc heap s.mem a.ptr n).1 x = s.mem x
  released : (krealloc heap s.mem a.ptr n).2 ≠ 0 → HeapState.Intact heap
    ⟨(krealloc heap s.mem a.ptr n).1, ⟨(krealloc heap s.mem a.ptr n).2, n,
      if (krealloc heap s.mem a.ptr n).2 = a.ptr then a.raw
      else (krealloc heap s.mem a.ptr n).2⟩ :: s.live.erase a⟩
  read : ∀ k < reallocCopies heap s.mem a.ptr n,
    a.ptr + k < a.raw + (blockAt s.mem (a.raw - headerSize)).size

/-! ## Places in a list of blocks -/

section Places

variable {heap : Nat} {m : Bytes} {live : List Alloc} {blocks xs ys xs' ys' : List Blk} {b c : Blk}

/-- Two blocks of a list are the same, or one of them comes first. -/
theorem split_two (same : xs ++ b :: ys = xs' ++ c :: ys') :
    (xs = xs' ∧ b = c ∧ ys = ys') ∨ (∃ zs, xs' = xs ++ b :: zs ∧ ys = zs ++ c :: ys') ∨
      ∃ zs, xs = xs' ++ c :: zs ∧ ys' = zs ++ b :: ys := by
  rcases List.append_eq_append_iff.mp same with ⟨zs, first, second⟩ | ⟨zs, first, second⟩
  · cases zs with
    | nil =>
        rw [List.append_nil] at first
        rw [List.nil_append] at second
        cases second
        exact Or.inl ⟨first.symm, rfl, rfl⟩
    | cons d zs =>
        rw [List.cons_append] at second
        cases second
        exact Or.inr (Or.inl ⟨zs, first, rfl⟩)
  · cases zs with
    | nil =>
        rw [List.append_nil] at first
        rw [List.nil_append] at second
        cases second
        exact Or.inl ⟨first, rfl, rfl⟩
    | cons d zs =>
        rw [List.cons_append] at second
        cases second
        exact Or.inr (Or.inr ⟨zs, first, rfl⟩)

def OutsideHeaders (heap : Nat) (blocks : List Blk) (x : Nat) : Prop :=
  ∀ xs b ys, blocks = xs ++ b :: ys → x < endOf heap xs ∨ endOf heap xs + 20 ≤ x

theorem outsideHeaders_payload {x : Nat} (low : endOf heap xs + 20 ≤ x)
    (high : x < endOf heap xs + 20 + b.size) : OutsideHeaders heap (xs ++ b :: ys) x := by
  intro us c vs same
  rcases split_two same with ⟨rfl, rfl, rfl⟩ | ⟨zs, rfl, _⟩ | ⟨zs, rfl, _⟩
  · exact Or.inr low
  · left
    rw [endOf_append, endOf]
    exact high.trans_le ((Nat.le_add_right _ _).trans (le_endOf _ zs))
  · right
    rw [endOf_append, endOf] at low
    have behind := le_endOf (endOf heap us + 20 + c.size) zs
    omega

theorem blocks_apart (same : xs ++ b :: ys = xs' ++ c :: ys') (differ : b.owner ≠ c.owner) :
    endOf heap xs + 20 + b.size ≤ endOf heap xs' ∨
      endOf heap xs' + 20 + c.size ≤ endOf heap xs := by
  rcases split_two same with ⟨_, rfl, _⟩ | ⟨zs, rfl, _⟩ | ⟨zs, rfl, _⟩
  · exact absurd rfl differ
  · left
    rw [endOf_append, endOf]
    exact (Nat.le_add_right _ _).trans (le_endOf _ zs)
  · right
    rw [endOf_append, endOf]
    exact (Nat.le_add_right _ _).trans (le_endOf _ zs)

end Places

/-! ## What is written -/

section Frames

variable {heap start x : Nat} {m : Bytes} {live : List Alloc} {blocks xs ys : List Blk} {b c : Blk}

/-- The headers of a list are those of another one of blocks of the same sizes. -/
theorem OutsideHeaders.replace {b' : Blk} (outside : OutsideHeaders start (xs ++ b :: ys) x)
    (size : b'.size = b.size) : OutsideHeaders start (xs ++ b' :: ys) x := by
  intro us d vs same
  rcases split_two same with ⟨rfl, _, _⟩ | ⟨zs, rfl, rfl⟩ | ⟨zs, rfl, _⟩
  · exact outside xs b ys rfl
  · have place : endOf start (xs ++ b' :: zs) = endOf start (xs ++ b :: zs) := by
      rw [endOf_append, endOf_append, endOf, endOf, size]
    rw [place]
    apply outside (xs ++ b :: zs) d vs
    rw [List.append_assoc, List.cons_append]
  · apply outside us d (zs ++ b :: ys)
    rw [List.append_assoc, List.cons_append]

theorem OutsideHeaders.merge (outside : OutsideHeaders start (xs ++ b :: c :: ys) x) :
    OutsideHeaders start (xs ++ freeBlk (b.size + (20 + c.size)) :: ys) x := by
  intro us d vs same
  rcases split_two same with ⟨rfl, _, _⟩ | ⟨zs, rfl, rfl⟩ | ⟨zs, rfl, _⟩
  · exact outside xs b (c :: ys) rfl
  · have place : endOf start (xs ++ freeBlk (b.size + (20 + c.size)) :: zs) =
        endOf start (xs ++ b :: c :: zs) := by
      rw [endOf_append, endOf_append, endOf, endOf, endOf]
      congr 1
      show endOf start xs + 20 + (b.size + (20 + c.size)) =
        endOf start xs + 20 + b.size + 20 + c.size
      omega
    rw [place]
    apply outside (xs ++ b :: c :: zs) d vs
    rw [List.append_assoc, List.cons_append, List.cons_append]
  · apply outside us d (zs ++ b :: c :: ys)
    rw [List.append_assoc, List.cons_append]

theorem Linked.absorb_outside {prev : Nat} (linked : Linked m 0 prev start (xs ++ b :: c :: ys))
    (outside : OutsideHeaders start (xs ++ b :: c :: ys) x) :
    Kheap.absorb m (endOf start xs) (endOf start xs + 20 + b.size) x = m x := by
  have own := outside xs b (c :: ys) rfl
  have second := ((linked_append 0 prev start xs (b :: c :: ys)).mp linked).2.2.1.1
  have kept : blockAt (setSize m (endOf start xs) ((blockAt m (endOf start xs)).size +
      (headerSize + c.size))) (endOf start xs + 20 + b.size) =
        blockAt m (endOf start xs + 20 + b.size) :=
    blockAt_congr fun y low _ => setSize_outside _ _ _ (by omega)
  have link : (blockAt m (endOf start xs + 20 + b.size)).next =
      if ys = [] then 0 else endOf start xs + 20 + b.size + 20 + c.size :=
    congrArg BlockT.next second
  have size : (blockAt m (endOf start xs + 20 + b.size)).size = c.size :=
    congrArg BlockT.size second
  have small : (if ys = [] then 0 else endOf start xs + 20 + b.size + 20 + c.size) < 2 ^ 32 := by
    rw [← link]
    exact word_lt m _
  unfold Kheap.absorb
  rw [size, kept, link, blockAt_setNext _ _ small]
  dsimp only
  cases ys with
  | nil =>
      rw [if_pos rfl, if_neg fun other => other rfl, setNext_outside _ _ _ own,
        setSize_outside _ _ _ own]
  | cons d ys =>
      have other : x < endOf start xs + 20 + b.size + 20 + c.size ∨
          endOf start xs + 20 + b.size + 20 + c.size + 20 ≤ x := by
        have behind := outside (xs ++ [b, c]) d ys (by rw [List.append_assoc]; rfl)
        rw [endOf_append] at behind
        exact behind
      rw [if_neg (List.cons_ne_nil _ _), if_pos (by omega), setPrev_outside _ _ _ other,
        setNext_outside _ _ _ own, setSize_outside _ _ _ own]

theorem HeapBlocks.release_outside (positive : 0 < heap) (fits : heap + heapSize ≤ 2 ^ 32)
    (found : HeapBlocks heap m live (xs ++ b :: ys))
    (outside : OutsideHeaders heap (xs ++ b :: ys) x) :
    Kheap.release m (endOf heap xs) x = m x := by
  have own := outside xs b ys rfl
  have marked := found.freed
  have outside' : OutsideHeaders heap (xs ++ freeBlk b.size :: ys) x := outside.replace rfl
  have ends : endOf heap (xs ++ freeBlk b.size :: ys) ≤ 2 ^ 32 := by
    have ends := found.ends
    rw [endOf_append, endOf] at ends ⊢
    exact ends.le.trans fits
  have same : setMagic (setFree m (endOf heap xs) true) (endOf heap xs) magicFree x = m x := by
    rw [setMagic_outside _ _ _ own, setFree_outside _ _ _ own]
  unfold Kheap.release coalesce
  rw [← same]
  generalize setMagic (setFree m (endOf heap xs) true) (endOf heap xs) magicFree = m₁ at *
  have next : coalesceNext m₁ (endOf heap xs) x = m₁ x ∧ ∃ size zs,
      Linked (coalesceNext m₁ (endOf heap xs)) 0 0 heap (xs ++ freeBlk size :: zs) ∧
        OutsideHeaders heap (xs ++ freeBlk size :: zs) x := by
    rcases marked.coalesceNext_eq with ⟨nothing, _⟩ | ⟨c, zs, rfl, _, taken⟩
    · rw [nothing]
      exact ⟨rfl, b.size, ys, marked, outside'⟩
    · rw [taken]
      exact ⟨marked.absorb_outside outside', _, zs, marked.absorb rfl ends, outside'.merge⟩
  rcases next with ⟨kept, size, zs, linked, outside''⟩
  rw [← kept]
  generalize coalesceNext m₁ (endOf heap xs) = m₂ at *
  rcases linked.coalescePrev_eq positive with ⟨nothing, _⟩ | ⟨us, c, rfl, _, taken⟩
  · rw [nothing]
  · rw [taken]
    rw [List.append_assoc] at linked outside''
    exact linked.absorb_outside outside''

/-- What `split_block` writes, behind the header of the new block. -/
theorem splitBlock_eq {place n : Nat} {m₁ : Bytes}
    (large : (n + headerSize + 8) % 2 ^ 32 ≤ (blockAt m place).size)
    (made : setBlock m (place + headerSize + n) ⟨magicFree, (blockAt m place).size - n - headerSize,
      true, (blockAt m place).next, place⟩ = m₁) :
    Kheap.splitBlock m place n =
      setSize (setNext (if (blockAt m₁ place).next ≠ 0 then
        setPrev m₁ (blockAt m₁ place).next (place + headerSize + n) else m₁) place
          (place + headerSize + n)) place n := by
  unfold Kheap.splitBlock
  rw [if_pos large, ← made]

/-- Splitting a free block writes to its bytes and to two headers. -/
theorem Linked.splitBlock_outside {prev n : Nat} (linked : Linked m 0 prev start (xs ++ b :: ys))
    (small : n + 28 < 2 ^ 32) (outside : OutsideHeaders start (xs ++ b :: ys) x)
    (apart : x < endOf start xs + 20 ∨ endOf start xs + 20 + b.size ≤ x) :
    Kheap.splitBlock m (endOf start xs) n x = m x := by
  have own := outside xs b ys rfl
  have size : (blockAt m (endOf start xs)).size = b.size := congrArg BlockT.size linked.header
  have link : (blockAt m (endOf start xs)).next =
      if ys = [] then 0 else endOf start xs + 20 + b.size := congrArg BlockT.next linked.header
  by_cases large : (n + headerSize + 8) % 2 ^ 32 ≤ (blockAt m (endOf start xs)).size
  · have room : n + 28 ≤ b.size := by
      rw [size, headerSize, Nat.mod_eq_of_lt (by omega)] at large
      exact large
    generalize made : setBlock m (endOf start xs + headerSize + n) ⟨magicFree,
      (blockAt m (endOf start xs)).size - n - headerSize, true, (blockAt m (endOf start xs)).next,
        endOf start xs⟩ = m₁
    have frame : ∀ y, y < endOf start xs + 20 + n ∨ endOf start xs + 20 + n + 20 ≤ y →
        m₁ y = m y := by
      intro y apart
      rw [← made]
      exact setBlock_outside _ _ _ apart
    have kept : (blockAt m₁ (endOf start xs)).next =
        if ys = [] then 0 else endOf start xs + 20 + b.size := by
      rw [blockAt_congr fun y _ high => frame y (by omega), link]
    rw [splitBlock_eq large made, kept, setSize_outside _ _ _ own, setNext_outside _ _ _ own]
    cases ys with
    | nil =>
        rw [if_pos rfl, if_neg fun other => other rfl]
        exact frame x (by omega)
    | cons d ys =>
        have other : x < endOf start xs + 20 + b.size ∨ endOf start xs + 20 + b.size + 20 ≤ x := by
          have behind := outside (xs ++ [b]) d ys (by rw [List.append_assoc]; rfl)
          rw [endOf_append] at behind
          exact behind
        rw [if_neg (List.cons_ne_nil _ _), if_pos (by omega), setPrev_outside _ _ _ other]
        exact frame x (by omega)
  · unfold Kheap.splitBlock
    rw [if_neg large]

theorem HeapBlocks.kmalloc_outside {size : Nat} (positive : 0 < heap)
    (found : HeapBlocks heap m live (xs ++ b :: ys)) (used : b.owner ≠ none)
    (small : size + 7 < 2 ^ 32) (low : endOf heap xs + 20 ≤ x)
    (high : x < endOf heap xs + 20 + b.size) : (Kheap.kmalloc heap m size).1 x = m x := by
  rcases alignUp_eight small with ⟨least, most, multiple⟩
  unfold Kheap.kmalloc
  by_cases zero : size = 0
  · rw [if_pos zero]
  · rw [if_neg zero]
    cases first : firstFit m (alignUp size 8) (heapSize / headerSize + 1) heap with
    | none => rfl
    | some p =>
        have nonempty : xs ++ b :: ys ≠ [] :=
          List.append_ne_nil_of_right_ne_nil _ (List.cons_ne_nil _ _)
        rcases found.linked.firstFit positive (by rw [if_neg nonempty]; exact first) with
          ⟨us, c, vs, split, free, room, rfl⟩
        have ends := found.ends
        have outside := @outsideHeaders_payload heap xs ys b x low high
        have linked := found.linked
        have apart := @blocks_apart heap xs ys us vs b c split fun same => used (same.trans free)
        rw [split] at ends outside linked
        rw [endOf_append, endOf] at ends
        have behind := le_endOf (endOf heap us + 20 + c.size) vs
        have before := le_endOf heap us
        have arena : heapSize = 33554432 := rfl
        have own := outside us c vs rfl
        dsimp only
        rw [setMagic_outside _ _ _ own, setFree_outside _ _ _ own]
        exact linked.splitBlock_outside (by omega) outside (by omega)

end Frames

/-! ## The bytes of live allocations -/

section Holders

variable {heap x n : Nat} {m m' : Bytes} {live : List Alloc} {blocks xs ys : List Blk} {a e : Alloc}
  {b : Blk}

theorem HeapBlocks.holds (found : HeapBlocks heap m live blocks) (member : e ∈ live)
    (low : e.ptr ≤ x) (high : x < e.ptr + e.size) :
    ∃ xs b ys, blocks = xs ++ b :: ys ∧ b.owner = some e ∧ endOf heap xs + 20 ≤ x ∧
      x < endOf heap xs + 20 + b.size := by
  rcases found.block member with ⟨xs, b, ys, rfl, own⟩
  rcases found.bounds own with ⟨raw, before, behind, -⟩
  exact ⟨xs, b, ys, rfl, own, by omega, by omega⟩

theorem HeapBlocks.kmalloc_keeps (positive : 0 < heap) (found : HeapBlocks heap m live blocks)
    (small : n + 7 < 2 ^ 32) (member : e ∈ live) (low : e.ptr ≤ x) (high : x < e.ptr + e.size) :
    (Kheap.kmalloc heap m n).1 x = m x := by
  rcases found.holds member low high with ⟨xs, b, ys, rfl, own, first, last⟩
  apply found.kmalloc_outside positive _ small first last
  rw [own]
  exact Option.some_ne_none e

theorem HeapBlocks.release_keeps (positive : 0 < heap) (fits : heap + heapSize ≤ 2 ^ 32)
    (found : HeapBlocks heap m live (xs ++ b :: ys)) (member : e ∈ live) (low : e.ptr ≤ x)
    (high : x < e.ptr + e.size) : Kheap.release m (endOf heap xs) x = m x := by
  apply found.release_outside positive fits
  rcases found.holds member low high with ⟨us, c, vs, split, own, first, last⟩
  rw [split]
  exact outsideHeaders_payload first last

/-- What `krealloc` does if it moves an allocation: the bytes that are copied are those of the
holder, and the bytes of the others stay. -/
theorem HeapBlocks.moves (A : Arena) (found : HeapBlocks A.heap m live blocks) (member : a ∈ live)
    (some' : n ≠ 0) (small : n + 7 < 2 ^ 32)
    (plain : a.ptr ≠ a.raw → word m (a.ptr - 20) ≠ magicUsed) {dest copy : Nat}
    (result : Kheap.kmalloc A.heap m n = (m', dest)) (notNull : dest ≠ 0) (few : copy ≤ n) :
    (∀ k < min a.size copy,
        Kheap.kfree (memcpy m' dest a.ptr copy) a.ptr (dest + k) = m (a.ptr + k)) ∧
      ∀ c ∈ live, ∀ x, c.ptr ≤ x → x < c.ptr + c.size →
        Kheap.kfree (memcpy m' dest a.ptr copy) a.ptr x = m x := by
  have first := A.aligned
  rcases found.copied A.positive A.fits (by omega) member some' small plain with
    null | ⟨_, _, same, _, copies⟩
  · rw [result] at null
    exact absurd (congrArg Prod.snd null) notNull
  · rw [result] at same
    cases same
    have malloc : ∀ c ∈ live, ∀ x, c.ptr ≤ x → x < c.ptr + c.size → m' x = m x := by
      intro c isLive x low high
      have keeps := found.kmalloc_keeps A.positive small isLive low high
      rw [result] at keeps
      exact keeps
    rcases copies copy few with ⟨blocks', made, _, plain'⟩
    have sound : HeapSound A.heap ⟨memcpy m' dest a.ptr copy, ⟨dest, n, dest⟩ :: live⟩ := made.sound
    have apart := (List.pairwise_cons.mp sound.2.2).1
    rcases made.block (List.mem_cons_of_mem _ member) with ⟨xs, b, ys, rfl, own⟩
    rw [made.kfree_eq A.fits own plain']
    constructor
    · intro k inside
      have beside : dest + n ≤ a.ptr ∨ a.ptr + a.size ≤ dest := apart a member
      rw [made.release_keeps A.positive A.fits List.mem_cons_self (show dest ≤ dest + k by omega)
        (show dest + k < dest + n by omega), memcpy_copied _ _ _ (by omega) (by omega)]
      exact malloc a member (a.ptr + k) (by omega) (by omega)
    · intro c isLive x low high
      have beside : dest + n ≤ c.ptr ∨ c.ptr + c.size ≤ dest := apart c isLive
      rw [made.release_keeps A.positive A.fits (List.mem_cons_of_mem _ isLive) low high,
        memcpy_outside _ _ _ _ (by omega)]
      exact malloc c isLive x low high

/-- The number of bytes that are copied then: those of the block, if the header in front of the
pointer is found, and else as many as the new block shall have. -/
theorem HeapBlocks.reallocCopies_eq (A : Arena) (found : HeapBlocks A.heap m live (xs ++ b :: ys))
    (own : b.owner = some a) (some' : n ≠ 0) (small : n + 7 < 2 ^ 32)
    (plain : a.ptr ≠ a.raw → word m (a.ptr - 20) ≠ magicUsed) {dest : Nat}
    (grows : ¬((blockAt m (a.ptr - 20)).magic = magicUsed ∧ n ≤ (blockAt m (a.ptr - 20)).size))
    (result : Kheap.kmalloc A.heap m n = (m', dest)) (notNull : dest ≠ 0) :
    reallocCopies A.heap m a.ptr n = (if a.ptr = a.raw then b.size else n) ∧
      Kheap.krealloc A.heap m a.ptr n =
        (Kheap.kfree (memcpy m' dest a.ptr (reallocCopies A.heap m a.ptr n)) a.ptr, dest) ∧
      reallocCopies A.heap m a.ptr n ≤ n := by
  have member : a ∈ live := by
    rw [found.owners.mem_iff, filterMap_owner, own]
    exact List.mem_append_right _ List.mem_cons_self
  rcases found.bounds own with ⟨raw, low, high, ends⟩
  have arena := A.fits
  have pointer : blockFromPtr a.ptr = a.ptr - 20 := blockFromPtr_eq (by omega) (by omega)
  have copied : reallocCopies A.heap m a.ptr n =
      if (blockAt m' (a.ptr - 20)).magic = magicUsed ∧ (blockAt m' (a.ptr - 20)).size < n then
        (blockAt m' (a.ptr - 20)).size else n := by
    unfold reallocCopies
    rw [pointer]
    dsimp only
    rw [if_neg grows, result]
    dsimp only
    rw [if_neg notNull]
  refine ⟨?_, ?_, ?_⟩
  · have first := A.aligned
    rcases found.copied A.positive A.fits (by omega) member some' small plain with
      null | ⟨_, _, same, _, copies⟩
    · rw [result] at null
      exact absurd (congrArg Prod.snd null) notNull
    · rw [result] at same
      cases same
      rcases copies 0 (Nat.zero_le _) with ⟨blocks', made, stays, plain'⟩
      change HeapBlocks A.heap m' (⟨dest, n, dest⟩ :: live) blocks' at made
      rw [copied]
      by_cases same : a.ptr = a.raw
      · have isUsed : b.owner ≠ none := by
          rw [own]
          exact Option.some_ne_none a
        rcases List.append_of_mem (stays b (List.mem_append_right _ List.mem_cons_self) isUsed) with
          ⟨us, vs, rfl⟩
        have place : a.ptr - 20 = endOf A.heap us := by
          have raw' := (made.linked.placed own).raw
          omega
        have magic : (blockAt m' (endOf A.heap us)).magic = magicUsed := by
          rw [made.linked.header, Blk.header, own]
          rfl
        have size : (blockAt m' (endOf A.heap us)).size = b.size :=
          congrArg BlockT.size made.linked.header
        have before : a.ptr - 20 = endOf A.heap xs := by omega
        have magic' : (blockAt m (endOf A.heap xs)).magic = magicUsed := by
          rw [found.linked.header, Blk.header, own]
          rfl
        have size' : (blockAt m (endOf A.heap xs)).size = b.size :=
          congrArg BlockT.size found.linked.header
        rw [before, size'] at grows
        have less : b.size < n := Nat.lt_of_not_le fun room => grows ⟨magic', room⟩
        rw [place, size, if_pos ⟨magic, less⟩, if_pos same]
      · rw [if_neg same, if_neg fun both => plain' same both.1]
  · have moves : Kheap.krealloc A.heap m a.ptr n = (Kheap.kfree (memcpy m' dest a.ptr
        (if (blockAt m' (a.ptr - 20)).magic = magicUsed ∧ (blockAt m' (a.ptr - 20)).size < n then
          (blockAt m' (a.ptr - 20)).size else n)) a.ptr, dest) := by
      unfold Kheap.krealloc
      rw [if_neg (show a.ptr ≠ 0 by omega), if_neg some', pointer]
      dsimp only
      rw [if_neg grows, result]
      dsimp only
      rw [if_neg notNull]
    rw [moves, copied]
  · rw [copied]
    split
    · omega
    · exact Nat.le_refl _

end Holders

/-! ## The routes of `krealloc` -/

theorem kmalloc_null {heap n : Nat} {m : Bytes} (null : (kmalloc heap m n).2 = 0) :
    kmalloc heap m n = (m, 0) := by
  unfold kmalloc at *
  by_cases zero : n = 0
  · rw [if_pos zero]
  · rw [if_neg zero] at *
    cases first : firstFit m (alignUp n 8) (heapSize / headerSize + 1) heap with
    | none => rfl
    | some b =>
        rw [first] at null
        exact absurd null (Nat.succ_ne_zero _)

section Routes

variable (A : Arena) {s : HeapState} {a : Alloc} {n : Nat}

theorem realloc_in_place (holds : s.Intact A.heap) (member : a ∈ s.live) (some' : n ≠ 0)
    (small : n + 7 < 2 ^ 32) (plain : s.Plain a.ptr) (notNull : a.ptr ≠ 0)
    (fits : (blockAt s.mem (blockFromPtr a.ptr)).magic = magicUsed ∧
      n ≤ (blockAt s.mem (blockFromPtr a.ptr)).size) : Reallocates A.heap s a n := by
  have same : krealloc A.heap s.mem a.ptr n = (s.mem, a.ptr) := by
    unfold krealloc
    rw [if_neg notNull, if_neg some']
    dsimp only
    rw [if_pos fits]
  have none : reallocCopies A.heap s.mem a.ptr n = 0 := by
    unfold reallocCopies
    dsimp only
    rw [if_pos fits]
  have intact := HeapState.realloc_intact A holds member some' small plain
  constructor
  · intro _
    rw [same]
  · intro _ k _
    rw [same]
  · intro _ c _ x _ _
    rw [same]
  · intro found
    rw [if_neg found] at intact
    exact intact
  · intro k impossible
    rw [none] at impossible
    exact absurd impossible (Nat.not_lt_zero _)

/-- A request for which `kmalloc` finds nothing changes nothing. -/
theorem realloc_null (notNull : a.ptr ≠ 0) (some' : n ≠ 0)
    (grows : ¬((blockAt s.mem (blockFromPtr a.ptr)).magic = magicUsed ∧
      n ≤ (blockAt s.mem (blockFromPtr a.ptr)).size))
    (null : (kmalloc A.heap s.mem n).2 = 0) : Reallocates A.heap s a n := by
  have nothing := kmalloc_null null
  have same : krealloc A.heap s.mem a.ptr n = (s.mem, 0) := by
    unfold krealloc
    rw [if_neg notNull, if_neg some']
    dsimp only
    rw [if_neg grows, nothing]
    exact if_pos rfl
  have none : reallocCopies A.heap s.mem a.ptr n = 0 := by
    unfold reallocCopies
    dsimp only
    rw [if_neg grows, nothing]
    exact if_pos rfl
  have isNull : (krealloc A.heap s.mem a.ptr n).2 = 0 := by rw [same]
  constructor
  · intro _
    rw [same]
  · intro found
    exact absurd isNull found
  · intro found
    exact absurd isNull found
  · intro found
    exact absurd isNull found
  · intro k impossible
    rw [none] at impossible
    exact absurd impossible (Nat.not_lt_zero _)

/-- For each live allocation that is plain, what is promised holds exactly if `kmalloc` finds
nothing, or the size is not wrapped and the pointer is that of its block or the block is large
enough for the new size. -/
theorem realloc_iff (holds : s.Intact A.heap) (member : a ∈ s.live) (some' : n ≠ 0)
    (plain : s.Plain a.ptr) :
    Reallocates A.heap s a n ↔
      firstFit s.mem (alignUp n 8) (heapSize / headerSize + 1) A.heap = none ∨
        n + 7 < 2 ^ 32 ∧ (a.ptr = a.raw ∨
          a.ptr + n ≤ a.raw + (blockAt s.mem (a.raw - headerSize)).size) := by
  rcases holds with ⟨blocks, found⟩
  rcases found.block member with ⟨xs, b, ys, rfl, own⟩
  have intact : s.Intact A.heap := ⟨_, found⟩
  rcases found.bounds own with ⟨raw, low, high, ends⟩
  have arena := A.fits
  have room : heapSize = 33554432 := rfl
  have notNull : a.ptr ≠ 0 := by omega
  have pointer : blockFromPtr a.ptr = a.ptr - 20 := blockFromPtr_eq (by omega) (by omega)
  have place : a.raw - headerSize = endOf A.heap xs := by
    rw [headerSize]
    omega
  have size : (blockAt s.mem (endOf A.heap xs)).size = b.size :=
    congrArg BlockT.size found.linked.header
  have inFront : a.ptr ≠ a.raw → word s.mem (a.ptr - 20) ≠ magicUsed := plain a member rfl
  rw [place, size]
  by_cases fits : (blockAt s.mem (blockFromPtr a.ptr)).magic = magicUsed ∧
      n ≤ (blockAt s.mem (blockFromPtr a.ptr)).size
  · have same : a.ptr = a.raw := by
      by_contra moved
      rw [pointer] at fits
      exact inFront moved fits.1
    have enough : n ≤ b.size := by
      have enough := fits.2
      rw [pointer, same, show a.raw - 20 = endOf A.heap xs from place, size] at enough
      exact enough
    have small : n + 7 < 2 ^ 32 := by omega
    exact iff_of_true (realloc_in_place A intact member some' small plain notNull fits)
      (Or.inr ⟨small, Or.inl same⟩)
  · by_cases null : (kmalloc A.heap s.mem n).2 = 0
    · exact iff_of_true (realloc_null A notNull some' fits null)
        (Or.inl (((kmalloc_null_iff A.heap s.mem n).mp null).resolve_left some'))
    · have finds : firstFit s.mem (alignUp n 8) (heapSize / headerSize + 1) A.heap ≠ none := by
        intro nothing
        exact null ((kmalloc_null_iff A.heap s.mem n).mpr (Or.inr nothing))
      have pair : kmalloc A.heap s.mem n =
          ((kmalloc A.heap s.mem n).1, (kmalloc A.heap s.mem n).2) := rfl
      by_cases small : n + 7 < 2 ^ 32
      · have grows := fits
        rw [pointer] at grows
        rcases found.reallocCopies_eq A own some' small inFront grows pair null with
          ⟨copies, result, few⟩
        have moves := found.moves A member some' small inFront pair null few
        have released := HeapState.realloc_intact A intact member some' small plain
        have all : (∀ k < reallocCopies A.heap s.mem a.ptr n,
            a.ptr + k < a.raw + (blockAt s.mem (a.raw - headerSize)).size) →
              Reallocates A.heap s a n := by
          intro read
          constructor
          · intro isNull
            rw [result] at isNull
            exact absurd isNull null
          · intro _ k inside
            rw [result]
            apply moves.1
            rw [copies]
            split
            · omega
            · exact inside
          · intro _ c other x first last
            rw [result]
            exact moves.2 c (List.mem_of_mem_erase other) x first last
          · intro some''
            rw [if_neg some''] at released
            exact released
          · exact read
        by_cases same : a.ptr = a.raw
        · refine iff_of_true (all ?_) (Or.inr ⟨small, Or.inl same⟩)
          intro k inside
          rw [copies, if_pos same] at inside
          rw [place, size]
          omega
        · rw [if_neg same] at copies
          constructor
          · intro promised
            have last := promised.read (n - 1) (by omega)
            rw [place, size] at last
            exact Or.inr ⟨small, Or.inr (by omega)⟩
          · rintro (nothing | ⟨_, impossible | enough⟩)
            · exact absurd nothing finds
            · exact absurd impossible same
            · apply all
              intro k inside
              rw [place, size]
              omega
      · apply iff_of_false
        · intro promised
          have some'' : (krealloc A.heap s.mem a.ptr n).2 ≠ 0 := by
            unfold krealloc
            rw [if_neg notNull, if_neg some']
            dsimp only
            rw [if_neg fits, if_neg null]
            exact null
          rcases promised.released some'' with ⟨blocks, made⟩
          have sound := made.sound.2.1 _ List.mem_cons_self
          dsimp only at sound
          omega
        · rintro (nothing | ⟨impossible, _⟩)
          · exact finds nothing
          · exact small impossible

end Routes

/-- In every state of a run of proper calls, what is promised of `krealloc` holds, for a live
allocation that is plain and a size that is not zero, exactly if `kmalloc` finds nothing, or the
size is not wrapped and the pointer is that of its block or the block is large enough for it. -/
theorem reallocates_iff (A : Arena) (m : Bytes) (calls : List HeapCall)
    (proper : Machine.Always (HeapState.call A.heap) HeapState.Proper
      (HeapState.boot A.heap m) calls)
    {s : HeapState}
    (reached : s = Machine.after (HeapState.call A.heap) (HeapState.boot A.heap m) calls)
    {a : Alloc} (isLive : a ∈ s.live) (plain : s.Plain a.ptr) {n : UInt32} (some' : n ≠ 0) :
    Reallocates A.heap s a n.toNat ↔
      firstFit s.mem (alignUp n.toNat 8) (heapSize / headerSize + 1) A.heap = none ∨
        n.toNat + 7 < 2 ^ 32 ∧ (a.ptr = a.raw ∨
          a.ptr + n.toNat ≤ a.raw + (blockAt s.mem (a.raw - headerSize)).size) := by
  have holds : (Machine.after (HeapState.call A.heap) (HeapState.boot A.heap m) calls).Intact
      A.heap :=
    @Machine.Always.after _ _ (HeapState.call A.heap) (HeapState.Intact A.heap) HeapState.Proper
      (fun _ c known good => HeapState.call_intact A known c good) _ (HeapState.boot_intact A m) _
      proper
  rw [← reached] at holds
  apply realloc_iff A holds isLive _ plain
  intro zero
  exact some' (UInt32.toNat_inj.mp zero)

namespace HeapState

theorem reallocates_iff_grown :
    Reallocates arena.heap (Machine.after (call arena.heap) (boot arena.heap fun _ => 0)
      [.malloc 100, .malloc 16]) ⟨0x200014, 100, 0x200014⟩ 500 :=
  (@reallocates_iff arena (fun _ => 0) [.malloc 100, .malloc 16]
    ⟨by decide +kernel, by decide +kernel, trivial⟩ _ rfl ⟨0x200014, 100, 0x200014⟩
    (by decide +kernel) (by decide +kernel) 500 (by decide)).mpr
      (Or.inr ⟨by decide, Or.inl rfl⟩)

/-- `krealloc` of a pointer of `kmalloc_aligned` reads as many bytes as the new block shall have. -/
theorem aligned_overread :
    ¬Reallocates arena.heap (Machine.after (call arena.heap) (boot arena.heap fun _ => 0)
      [.aligned 16]) ⟨0x201000, 16, 0x200014⟩ 8192 := by
  intro promised
  have copies : 4096 < reallocCopies arena.heap (Machine.after (call arena.heap)
      (boot arena.heap fun _ => 0) [.aligned 16]).mem 0x201000 8192 := by decide +kernel
  exact absurd (promised.read 4096 copies) (by decide +kernel)

end HeapState

end Trinux.Kheap
