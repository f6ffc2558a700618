import Trinux.Mm.HeapInvariant

namespace Trinux.Kheap

/-!
# What a request returns

A request is rounded up, padded and multiplied in four bytes.  Where that wraps, the heap looks for
a block of the size that is left, and returns one that is too small; it returns null only if the
size that is left is zero, or if no free block has that size.
-/

open Words

inductive Request where
  | malloc (size : UInt32)
  | calloc (count size : UInt32)
  | aligned (size : UInt32)
  | realloc (ptr : Nat) (size : UInt32)

namespace Request

def asked : Request → Nat
  | malloc size => size.toNat
  | calloc count size => count.toNat * size.toNat
  | aligned size => size.toNat
  | realloc _ size => size.toNat

def wanted : Request → Nat
  | malloc size => size.toNat
  | calloc count size => count.toNat * size.toNat % 2 ^ 32
  | aligned size => paddedSize size.toNat
  | realloc _ size => size.toNat

def result (heap : Nat) (s : HeapState) : Request → Bytes × Nat
  | malloc size => kmalloc heap s.mem size.toNat
  | calloc count size => kcalloc heap s.mem count.toNat size.toNat
  | aligned size => kmallocAligned heap s.mem size.toNat
  | realloc ptr size => krealloc heap s.mem ptr size.toNat

def raw (heap : Nat) (s : HeapState) : Request → Nat
  | malloc size => (kmalloc heap s.mem size.toNat).2
  | calloc count size => (kcalloc heap s.mem count.toNat size.toNat).2
  | aligned size => (kmalloc heap s.mem (paddedSize size.toNat)).2
  | realloc ptr size =>
      if (krealloc heap s.mem ptr size.toNat).2 = ptr then (s.find ptr).elim ptr Alloc.raw
      else (krealloc heap s.mem ptr size.toNat).2

/-- A pointer that is reallocated is null or live, and no magic number stands in front of it if it
was moved. -/
def Valid (s : HeapState) : Request → Prop
  | realloc ptr _ => ptr = 0 ∨ s.find ptr ≠ none ∧ s.Plain ptr
  | _ => True

end Request

structure Usable (heap : Nat) (m : Bytes) (raw ptr n : Nat) : Prop where
  block : ptr + n ≤ raw + (blockAt m (raw - headerSize)).size
  inside : ptr + n ≤ heap + heapSize

/-- What is promised of a request: the result is null, or as many bytes as were asked for can be
used. -/
def Serves (heap : Nat) (s : HeapState) (r : Request) : Prop :=
  (r.result heap s).2 = 0 ∨
    Usable heap (r.result heap s).1 (r.raw heap s) (r.result heap s).2 r.asked

def Refused (heap : Nat) (s : HeapState) (r : Request) : Prop :=
  r.wanted = 0 ∨ firstFit s.mem (alignUp r.wanted 8) (heapSize / headerSize + 1) heap = none

def Request.Unwrapped : Request → Prop
  | malloc size => size.toNat + 7 < 2 ^ 32
  | calloc count size => count.toNat * size.toNat + 7 < 2 ^ 32
  | aligned size => (size.toNat + 7) / 8 * 8 + (4096 + headerSize) + 7 < 2 ^ 32
  | realloc _ size => size.toNat + 7 < 2 ^ 32

/-! ## Null pointers -/

theorem kmalloc_null_iff (heap : Nat) (m : Bytes) (size : Nat) :
    (kmalloc heap m size).2 = 0 ↔
      size = 0 ∨ firstFit m (alignUp size 8) (heapSize / headerSize + 1) heap = none := by
  unfold kmalloc
  by_cases zero : size = 0
  · rw [if_pos zero]
    exact ⟨fun _ => Or.inl zero, fun _ => rfl⟩
  · rw [if_neg zero]
    cases first : firstFit m (alignUp size 8) (heapSize / headerSize + 1) heap with
    | none => exact ⟨fun _ => Or.inr rfl, fun _ => rfl⟩
    | some b =>
        constructor
        · intro impossible
          exact absurd impossible (Nat.succ_ne_zero _)
        · rintro (impossible | impossible)
          · exact absurd impossible zero
          · cases impossible

theorem kcalloc_pointer (heap : Nat) (m : Bytes) (count size : Nat) :
    (kcalloc heap m count size).2 = (kmalloc heap m (count * size % 2 ^ 32)).2 := by
  unfold kcalloc
  dsimp only
  split_ifs with null
  · exact null.symm
  · rfl

variable {heap : Nat} {m : Bytes} {live : List Alloc} {blocks : List Blk} {s : HeapState}

/-- A pointer of `kmalloc` lies in the arena, whatever the size was. -/
theorem HeapBlocks.kmalloc_inside (positive : 0 < heap) (found : HeapBlocks heap m live blocks)
    {size : Nat} (some' : (Kheap.kmalloc heap m size).2 ≠ 0) :
    heap + headerSize ≤ (Kheap.kmalloc heap m size).2 ∧
      (Kheap.kmalloc heap m size).2 ≤ heap + heapSize := by
  rw [Ne, kmalloc_null_iff, not_or] at some'
  rcases Option.ne_none_iff_exists'.mp some'.2 with ⟨p, first⟩
  have nonempty : blocks ≠ [] := by
    rintro rfl
    have ends := found.ends
    change heap = heap + heapSize at ends
    have room : 0 < heapSize := by decide
    omega
  rcases found.linked.firstFit positive (by rw [if_neg nonempty]; exact first) with
    ⟨xs, b, ys, rfl, _, _, rfl⟩
  have ends := found.ends
  have low := le_endOf heap xs
  have behind := le_endOf (endOf heap xs + 20 + b.size) ys
  rw [endOf_append, endOf] at ends
  unfold Kheap.kmalloc
  rw [if_neg some'.1, first]
  show heap + 20 ≤ endOf heap xs + 20 ∧ endOf heap xs + 20 ≤ heap + heapSize
  omega

namespace HeapState

theorem Intact.usable (holds : s.Intact heap) {a : Alloc} (member : a ∈ s.live) :
    Usable heap s.mem a.raw a.ptr a.size := by
  rcases holds with ⟨blocks, found⟩
  rcases found.block member with ⟨xs, b, ys, rfl, own⟩
  rcases found.bounds own with ⟨raw, -, high, ends⟩
  have place : a.raw - headerSize = endOf heap xs := by
    rw [headerSize]
    omega
  constructor
  · rw [place, found.linked.header]
    show a.ptr + a.size ≤ a.raw + b.size
    omega
  · omega

end HeapState

/-! ## Requests that wrap, and others -/

section Requests

variable (A : Arena)

theorem allocated_live (s : HeapState) {result : Bytes × Nat} (some' : result.2 ≠ 0)
    (size raw : Nat) : (s.allocated result size raw).mem = result.1 ∧
      ⟨result.2, size, raw⟩ ∈ (s.allocated result size raw).live := by
  unfold HeapState.allocated
  rw [if_neg some']
  exact ⟨rfl, List.mem_cons_self⟩

theorem unwrapped_serves (holds : s.Intact A.heap) {r : Request} (valid : r.Valid s)
    (unwrapped : r.Unwrapped) : Serves A.heap s r := by
  unfold Serves
  by_cases null : (r.result A.heap s).2 = 0
  · exact Or.inl null
  · right
    have usable : ∀ {s' : HeapState}, s'.Intact A.heap → s'.mem = (r.result A.heap s).1 →
        ⟨(r.result A.heap s).2, r.asked, r.raw A.heap s⟩ ∈ s'.live →
        Usable A.heap (r.result A.heap s).1 (r.raw A.heap s) (r.result A.heap s).2 r.asked := by
      intro s' intact memory member
      rw [← memory]
      exact intact.usable member
    cases r with
    | malloc size =>
        have kept := allocated_live s null size.toNat (kmalloc A.heap s.mem size.toNat).2
        exact usable (HeapState.call_intact A holds (.malloc size) unwrapped) kept.1 kept.2
    | calloc count size =>
        have kept := allocated_live s null (count.toNat * size.toNat)
          (kcalloc A.heap s.mem count.toNat size.toNat).2
        exact usable (HeapState.call_intact A holds (.calloc count size) unwrapped) kept.1 kept.2
    | aligned size =>
        have kept := allocated_live s null size.toNat
          (kmalloc A.heap s.mem (paddedSize size.toNat)).2
        exact usable (HeapState.call_intact A holds (.aligned size) unwrapped) kept.1 kept.2
    | realloc ptr size =>
        by_cases isNull : ptr = 0
        · have same : krealloc A.heap s.mem ptr size.toNat = kmalloc A.heap s.mem size.toNat := by
            rw [krealloc, if_pos isNull]
          unfold Request.result Request.raw at *
          dsimp only at *
          rw [same] at null usable ⊢
          have kept := allocated_live s null size.toNat (kmalloc A.heap s.mem size.toNat).2
          have other : (kmalloc A.heap s.mem size.toNat).2 ≠ ptr := by
            rw [isNull]
            exact null
          rw [if_neg other] at usable ⊢
          exact usable (HeapState.call_intact A holds (.malloc size) unwrapped) kept.1 kept.2
        · rcases valid.resolve_left isNull with ⟨known, plain⟩
          rcases Option.ne_none_iff_exists'.mp known with ⟨a, found⟩
          have some' : size ≠ 0 := by
            rintro rfl
            apply null
            show (krealloc A.heap s.mem ptr 0).2 = 0
            rw [krealloc, if_neg isNull, if_pos rfl]
          have intact := HeapState.call_intact A holds (.realloc ptr size) ⟨unwrapped, plain⟩
          have state : s.call A.heap (.realloc ptr size) =
              ⟨(krealloc A.heap s.mem ptr size.toNat).1,
                ⟨(krealloc A.heap s.mem ptr size.toNat).2, size.toNat,
                  if (krealloc A.heap s.mem ptr size.toNat).2 = ptr then a.raw
                  else (krealloc A.heap s.mem ptr size.toNat).2⟩ :: s.live.erase a⟩ := by
            unfold HeapState.call
            dsimp only
            rw [if_neg isNull, found]
            dsimp only
            rw [if_neg some', if_neg (show (krealloc A.heap s.mem ptr size.toNat).2 ≠ 0 from null)]
          rw [state] at intact
          apply usable intact rfl
          unfold Request.raw Request.result Request.asked
          dsimp only
          rw [found]
          exact List.mem_cons_self

/-- The result for a size that is wrapped is null exactly if `kmalloc` finds nothing. -/
theorem wrapped_null_iff (inKernel : A.heap + heapSize ≤ 0x05000000) (holds : s.Intact A.heap)
    {r : Request} (valid : r.Valid s) (wrapped : ¬r.Unwrapped) :
    (r.result A.heap s).2 = 0 ↔ Refused A.heap s r := by
  rcases holds with ⟨blocks, found⟩
  have arena : heapSize = 33554432 := rfl
  have null := fun size => kmalloc_null_iff A.heap s.mem size
  cases r with
  | malloc size => exact null size.toNat
  | calloc count size =>
      unfold Request.result
      dsimp only
      rw [kcalloc_pointer]
      exact null _
  | aligned size =>
      unfold Request.result kmallocAligned Refused Request.wanted
      dsimp only
      rw [← null]
      have inside : (kmalloc A.heap s.mem (paddedSize size.toNat)).2 ≠ 0 → _ := fun some' =>
        found.kmalloc_inside A.positive some'
      generalize kmalloc A.heap s.mem (paddedSize size.toNat) = made at inside ⊢
      rcases made with ⟨m', raw⟩
      dsimp only at inside ⊢
      by_cases zero : raw = 0
      · rw [if_pos zero]
        exact ⟨fun _ => zero, fun _ => rfl⟩
      · have bounds := inside zero
        rw [headerSize] at bounds
        have up : alignUp raw 4096 ≠ 0 := by
          rw [alignUp, Nat.mod_eq_of_lt (by omega)]
          omega
        rw [if_neg zero]
        split_ifs
        · exact iff_of_false zero zero
        · exact iff_of_false up zero
  | realloc ptr size =>
      change ¬size.toNat + 7 < 2 ^ 32 at wrapped
      unfold Request.result krealloc Refused Request.wanted
      dsimp only
      rw [← null]
      by_cases isNull : ptr = 0
      · rw [if_pos isNull]
      · rw [if_neg isNull, if_neg (show size.toNat ≠ 0 by omega)]
        rcases valid.resolve_left isNull with ⟨known, plain⟩
        rcases Option.ne_none_iff_exists'.mp known with ⟨a, isLive⟩
        rcases HeapState.find_spec isLive with ⟨member, rfl⟩
        rcases found.block member with ⟨xs, b, ys, rfl, own⟩
        rcases found.bounds own with ⟨raw, low, high, ends⟩
        have moves : ¬((blockAt s.mem (blockFromPtr a.ptr)).magic = magicUsed ∧
            size.toNat ≤ (blockAt s.mem (blockFromPtr a.ptr)).size) := by
          rw [blockFromPtr_eq (by omega) (by omega)]
          rintro ⟨magic, large⟩
          by_cases same : a.ptr = a.raw
          · have place : a.ptr - 20 = endOf A.heap xs := by omega
            rw [place, found.linked.header] at large
            change size.toNat ≤ b.size at large
            omega
          · exact plain a member rfl same magic
        rw [if_neg moves]
        by_cases zero : (kmalloc A.heap s.mem size.toNat).2 = 0
        · rw [if_pos zero]
          exact ⟨fun _ => zero, fun _ => rfl⟩
        · rw [if_neg zero]

theorem wrapped_large {r : Request} (wrapped : ¬r.Unwrapped) : 2 ^ 31 ≤ r.asked := by
  cases r with
  | malloc size | realloc ptr size =>
      change ¬size.toNat + 7 < 2 ^ 32 at wrapped
      show 2 ^ 31 ≤ size.toNat
      omega
  | calloc count size =>
      change ¬count.toNat * size.toNat + 7 < 2 ^ 32 at wrapped
      show 2 ^ 31 ≤ count.toNat * size.toNat
      omega
  | aligned size =>
      change ¬(size.toNat + 7) / 8 * 8 + (4096 + 20) + 7 < 2 ^ 32 at wrapped
      show 2 ^ 31 ≤ size.toNat
      omega

end Requests

/-- In every state of a run of proper calls, a request for a null pointer or a live one that is
plain is served exactly if its size is not wrapped or `kmalloc` finds nothing for what is left. -/
theorem requests_served_iff (A : Arena) (inKernel : A.heap + heapSize ≤ 0x05000000) (m : Bytes)
    (calls : List HeapCall) (proper : Machine.Always (HeapState.call A.heap) HeapState.Proper
      (HeapState.boot A.heap m) calls) {r : Request}
    (valid : r.Valid (Machine.after (HeapState.call A.heap) (HeapState.boot A.heap m) calls)) :
    Serves A.heap (Machine.after (HeapState.call A.heap) (HeapState.boot A.heap m) calls) r ↔
      r.Unwrapped ∨ Refused A.heap
        (Machine.after (HeapState.call A.heap) (HeapState.boot A.heap m) calls) r := by
  have holds : (Machine.after (HeapState.call A.heap) (HeapState.boot A.heap m) calls).Intact
      A.heap :=
    @Machine.Always.after _ _ (HeapState.call A.heap) (HeapState.Intact A.heap) HeapState.Proper
      (fun _ c known good => HeapState.call_intact A known c good) _ (HeapState.boot_intact A m) _
      proper
  generalize Machine.after (HeapState.call A.heap) (HeapState.boot A.heap m) calls = s at *
  by_cases unwrapped : r.Unwrapped
  · exact iff_of_true (unwrapped_serves A holds valid unwrapped) (Or.inl unwrapped)
  · have large := wrapped_large unwrapped
    have null := wrapped_null_iff A inKernel holds valid unwrapped
    constructor
    · rintro (isNull | usable)
      · exact Or.inr (null.mp isNull)
      · have inside := usable.inside
        omega
    · intro either
      exact Or.inl (null.mpr (either.resolve_left unwrapped))

namespace HeapState

theorem requests_served_iff_arena :
    Serves arena.heap (Machine.after (call arena.heap) (boot arena.heap fun _ => 0)
      [.malloc 100, .aligned 4096]) (.realloc 0x200014 500) :=
  (@requests_served_iff arena (by decide) (fun _ => 0) [.malloc 100, .aligned 4096]
    ⟨by decide +kernel, by decide +kernel, trivial⟩ (.realloc 0x200014 500)
    (Or.inr ⟨by decide +kernel, by decide +kernel⟩)).mpr
      (Or.inl (show (500 : UInt32).toNat + 7 < 2 ^ 32 by decide))

/-- `kmalloc` returns a block of no bytes for all addresses but one. -/
theorem largest_request_granted :
    ¬Serves arena.heap (boot arena.heap fun _ => 0) (.malloc 0xFFFFFFFF) := by
  rintro (null | usable)
  · exact absurd null (by decide +kernel)
  · have large : arena.heap + heapSize < (Request.malloc 0xFFFFFFFF).asked := by decide
    exact absurd usable.inside (Nat.not_le.mpr (large.trans_le (Nat.le_add_left _ _)))

end HeapState

/-! ## What the heap reports -/

def HeapStats.total (stats : HeapStats) : Nat :=
  stats.used + stats.free + headerSize * stats.blockCount

theorem HeapStats.count_total (block : BlockT) {stats : HeapStats}
    (small : stats.total + 20 + block.size < 2 ^ 32) :
    (stats.count block).total = stats.total + 20 + block.size ∧
      (stats.count block).used = stats.used + (if block.free = true then 0 else block.size) ∧
      ∀ size, size ≤ (stats.count block).largestFree ↔
        (block.free = true ∧ size ≤ block.size) ∨ size ≤ stats.largestFree := by
  simp only [HeapStats.total, headerSize, HeapStats.count] at small ⊢
  rw [Nat.mod_eq_of_lt (by omega), Nat.mod_eq_of_lt (by omega), Nat.mod_eq_of_lt (by omega)]
  split_ifs with free
  · exact ⟨by dsimp only; omega, rfl, fun size => by rw [le_max_iff, or_comm, and_iff_right free]⟩
  · exact ⟨by dsimp only; omega, rfl, fun size => (or_iff_right fun both => free both.1).symm⟩

/-- The loop of `kheap_stats` accounts for the blocks that it passes, and the largest free one is
what the loop of `kmalloc` finds. -/
theorem Linked.statsLoop {prev start fuel : Nat} {blocks : List Blk} {stats : HeapStats}
    (positive : 0 < start) (linked : Linked m 0 prev start blocks) (enough : blocks.length < fuel)
    (small : stats.total + endOf start blocks < start + 2 ^ 32) :
    ∃ sums, statsLoop m fuel (if blocks = [] then 0 else start) stats = some sums ∧
      sums.total + start = stats.total + endOf start blocks ∧
      stats.used + ((blocks.filterMap Blk.owner).map Alloc.size).sum ≤ sums.used ∧
      ∀ size, size ≤ sums.largestFree ↔ size ≤ stats.largestFree ∨
        Kheap.firstFit m size fuel (if blocks = [] then 0 else start) ≠ none := by
  induction blocks generalizing prev start fuel stats with
  | nil =>
      cases fuel with
      | zero => exact absurd enough (Nat.not_lt_zero _)
      | succ fuel =>
          rw [if_pos rfl, Kheap.statsLoop, if_pos rfl]
          refine ⟨stats, rfl, rfl, le_refl _, fun size => ?_⟩
          rw [Kheap.firstFit, if_pos rfl]
          exact (or_iff_left (not_not_intro rfl)).symm
  | cons b rest known =>
      cases fuel with
      | zero => exact absurd enough (Nat.not_lt_zero _)
      | succ fuel =>
          rcases linked with ⟨⟨header, -, placed⟩, later⟩
          have inside := le_endOf (start + 20 + b.size) rest
          rw [endOf] at small ⊢
          generalize link : (if rest = [] then 0 else start + 20 + b.size) = next at header
          have same : (b.header next prev).size = b.size := rfl
          rcases @HeapStats.count_total (b.header next prev) stats (by omega) with
            ⟨total, used, largest⟩
          rcases @known start (start + 20 + b.size) fuel (stats.count (b.header next prev))
            (by omega) later (Nat.lt_of_succ_lt_succ enough) (by omega) with
            ⟨sums, result, totals, live, largests⟩
          rw [link] at result largests
          rw [if_neg (List.cons_ne_nil _ _), Kheap.statsLoop, if_neg (by omega), header]
          refine ⟨sums, result, by omega, ?_, fun size => ?_⟩
          · cases own : b.owner with
            | none =>
                rw [List.filterMap_cons_none own]
                omega
            | some a =>
                have fits := placed a own
                have raw := fits.raw
                have low := fits.low
                have high := fits.high
                have isUsed : (b.header next prev).free = false := congrArg Option.isNone own
                rw [isUsed, if_neg Bool.false_ne_true] at used
                rw [List.filterMap_cons_some own, List.map_cons, List.sum_cons]
                omega
          · rw [largests, largest, Kheap.firstFit, if_neg (by omega), header]
            split
            · rename_i fit
              exact iff_of_true (Or.inl (Or.inl fit)) (Or.inr (Option.some_ne_none _))
            · rename_i unfit
              rw [or_iff_right unfit]
              rfl

namespace HeapState

/-- In every history whose calls do not meet the defects, `kheap_stats` accounts for every byte of
the arena, and what is requested is granted exactly if the largest free block has room for it. -/
theorem run_stats (A : Arena) (m : Bytes) (calls : List HeapCall)
    (proper : Machine.Always (call A.heap) Proper (boot A.heap m) calls) {s : HeapState}
    (reached : s = Machine.after (call A.heap) (boot A.heap m) calls) :
    ∃ stats, kheapStats A.heap s.mem = some stats ∧ stats.total = heapSize ∧
      (s.live.map Alloc.size).sum ≤ stats.used ∧ ∀ size, 0 < size → size + 7 < 2 ^ 32 →
        ((kmalloc A.heap s.mem size).2 ≠ 0 ↔ alignUp size 8 ≤ stats.largestFree) := by
  have intact : s.Intact A.heap := reached ▸ @Machine.Always.after _ _ _ (Intact A.heap) Proper
    (fun _ c holds good => call_intact A holds c good) _ (boot_intact A m) _ proper
  rcases intact with ⟨blocks, found⟩
  have ends := found.ends
  have count := le_endOf A.heap blocks
  have room : heapSize = 33554432 := rfl
  have fuel : heapSize / headerSize = 1677721 := rfl
  have nonempty : blocks ≠ [] := by
    rintro rfl
    change A.heap = A.heap + heapSize at ends
    omega
  rcases @Linked.statsLoop s.mem 0 A.heap (heapSize / headerSize + 1) blocks ⟨0, 0, 0, 0⟩ A.positive
    found.linked (by omega) (by rw [ends]; change 0 + _ < _; omega) with
    ⟨stats, result, total, used, largest⟩
  rw [if_neg nonempty] at result largest
  refine ⟨stats, result, ?_, ?_, fun size positive small => ?_⟩
  · rw [ends] at total
    change _ = 0 + _ at total
    omega
  · rw [(found.owners.map Alloc.size).sum_eq]
    exact (Nat.zero_add _).symm.trans_le used
  · have up := alignUp_eight small
    rw [Ne, kmalloc_null_iff, not_or, largest]
    dsimp only
    rw [and_iff_right positive.ne', or_iff_right (by omega)]

theorem run_stats_arena :
    ∃ stats, kheapStats arena.heap (Machine.after (call arena.heap) (boot arena.heap fun _ => 0)
        [.malloc 100, .aligned 4096, .free 0x200014]).mem = some stats ∧ stats.total = heapSize ∧
      4096 ≤ stats.used ∧ ((kmalloc arena.heap (Machine.after (call arena.heap)
        (boot arena.heap fun _ => 0) [.malloc 100, .aligned 4096, .free 0x200014]).mem 200).2 ≠ 0 ↔
          alignUp 200 8 ≤ stats.largestFree) := by
  rcases run_stats arena (fun _ => 0) [.malloc 100, .aligned 4096, .free 0x200014]
    ⟨by decide +kernel, by decide +kernel, by decide +kernel, trivial⟩ rfl with
    ⟨stats, result, total, used, granted⟩
  exact ⟨stats, result, total, used, granted 200 (by decide) (by decide)⟩

end HeapState

end Trinux.Kheap
