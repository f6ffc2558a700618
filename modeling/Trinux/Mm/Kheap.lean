import Trinux.Lib.Machine
import Trinux.Lib.Words

namespace Trinux.Kheap

/-!
# The heap of the kernel

The heap is an arena of bytes.  Each block in it has a header in front, and the headers are linked in
both directions.  A pointer is a number, and a null pointer is zero; the sum of a pointer and an
offset is not reduced, as it does not leave the arena while the list is sound.

What lies in the arena may be read at any address: `kfree` looks for a header in front of the pointer
that it is given.
-/

open Words

def heapSize : Nat := 32 * 1024 * 1024

def magicUsed : Nat := 0xA110C8ED

def magicFree : Nat := 0xF8EE8100

def headerSize : Nat := 20

structure Arena where
  heap : Nat
  aligned : heap % 4096 = 0
  positive : 0 < heap
  fits : heap + heapSize ≤ 2 ^ 32

/-! ## Headers -/

structure BlockT where
  magic : Nat
  size : Nat
  free : Bool
  next : Nat
  prev : Nat
  deriving DecidableEq, Repr

def blockAt (m : Bytes) (b : Nat) : BlockT where
  magic := word m b
  size := word m (b + 4)
  free := m (b + 8) ≠ 0
  next := word m (b + 12)
  prev := word m (b + 16)

def setMagic (m : Bytes) (b magic : Nat) : Bytes := setWord m b magic

def setSize (m : Bytes) (b size : Nat) : Bytes := setWord m (b + 4) size

def setFree (m : Bytes) (b : Nat) (free : Bool) : Bytes :=
  Function.update m (b + 8) (if free then 1 else 0)

def setNext (m : Bytes) (b next : Nat) : Bytes := setWord m (b + 12) next

def setPrev (m : Bytes) (b prev : Nat) : Bytes := setWord m (b + 16) prev

def setBlock (m : Bytes) (b : Nat) (header : BlockT) : Bytes :=
  setPrev (setNext (setFree (setSize (setMagic m b header.magic) b header.size) b header.free) b
    header.next) b header.prev

/-! ## The calls -/

def alignUp (n a : Nat) : Nat := (n + (a - 1)) % 2 ^ 32 - (n + (a - 1)) % 2 ^ 32 % a

def kheapInit (heap : Nat) (m : Bytes) : Bytes :=
  setBlock m heap ⟨magicFree, heapSize - headerSize, true, 0, 0⟩

def splitBlock (m : Bytes) (b size : Nat) : Bytes :=
  if (size + headerSize + 8) % 2 ^ 32 ≤ (blockAt m b).size then
    let nb := b + headerSize + size
    let m := setBlock m nb
      ⟨magicFree, (blockAt m b).size - size - headerSize, true, (blockAt m b).next, b⟩
    let m := if (blockAt m b).next ≠ 0 then setPrev m (blockAt m b).next nb else m
    setSize (setNext m b nb) b size
  else m

/-- The loop of `kmalloc`: the first block from one on that is free and large enough. -/
def firstFit (m : Bytes) (size : Nat) : Nat → Nat → Option Nat
  | 0, _ => none
  | fuel + 1, b =>
      if b = 0 then none
      else if (blockAt m b).free = true ∧ size ≤ (blockAt m b).size then some b
      else firstFit m size fuel (blockAt m b).next

def kmalloc (heap : Nat) (m : Bytes) (size : Nat) : Bytes × Nat :=
  if size = 0 then (m, 0)
  else
    match firstFit m (alignUp size 8) (heapSize / headerSize + 1) heap with
    | none => (m, 0)
    | some b =>
        (setMagic (setFree (splitBlock m b (alignUp size 8)) b false) b magicUsed, b + headerSize)

def kcalloc (heap : Nat) (m : Bytes) (count size : Nat) : Bytes × Nat :=
  let total := count * size % 2 ^ 32
  let (m, p) := kmalloc heap m total
  if p = 0 then (m, 0) else (fill m p total fun _ => 0, p)

def paddedSize (size : Nat) : Nat := (alignUp size 8 + (4096 + headerSize)) % 2 ^ 32

def kmallocAligned (heap : Nat) (m : Bytes) (size : Nat) : Bytes × Nat :=
  let (m, raw) := kmalloc heap m (paddedSize size)
  if raw = 0 then (m, 0)
  else
    let aligned := alignUp raw 4096
    if aligned = raw then (m, raw) else (setWord m (aligned - 4) raw, aligned)

def blockFromPtr (ptr : Nat) : Nat := (ptr + 2 ^ 32 - headerSize) % 2 ^ 32

def absorb (m : Bytes) (b c : Nat) : Bytes :=
  let m := setSize m b ((blockAt m b).size + (headerSize + (blockAt m c).size))
  let m := setNext m b (blockAt m c).next
  if (blockAt m b).next ≠ 0 then setPrev m (blockAt m b).next b else m

def coalesceNext (m : Bytes) (b : Nat) : Bytes :=
  if (blockAt m b).next ≠ 0 ∧ (blockAt m (blockAt m b).next).free = true then
    absorb m b (blockAt m b).next
  else m

def coalescePrev (m : Bytes) (b : Nat) : Bytes :=
  if (blockAt m b).prev ≠ 0 ∧ (blockAt m (blockAt m b).prev).free = true then
    absorb m (blockAt m b).prev b
  else m

def coalesce (m : Bytes) (b : Nat) : Bytes := coalescePrev (coalesceNext m b) b

def release (m : Bytes) (b : Nat) : Bytes := coalesce (setMagic (setFree m b true) b magicFree) b

def kfree (m : Bytes) (ptr : Nat) : Bytes :=
  if ptr = 0 then m
  else if (blockAt m (blockFromPtr ptr)).magic ≠ magicUsed then
    let raw := word m (ptr - 4)
    if (blockAt m (blockFromPtr raw)).magic = magicUsed then release m (blockFromPtr raw) else m
  else release m (blockFromPtr ptr)

def krealloc (heap : Nat) (m : Bytes) (ptr newSize : Nat) : Bytes × Nat :=
  if ptr = 0 then kmalloc heap m newSize
  else if newSize = 0 then (kfree m ptr, 0)
  else
    let b := blockFromPtr ptr
    if (blockAt m b).magic = magicUsed ∧ newSize ≤ (blockAt m b).size then (m, ptr)
    else
      let (m, np) := kmalloc heap m newSize
      if np = 0 then (m, 0)
      else
        let copy := if (blockAt m b).magic = magicUsed ∧ (blockAt m b).size < newSize then
          (blockAt m b).size else newSize
        (kfree (memcpy m np ptr copy) ptr, np)

structure HeapStats where
  used : Nat
  free : Nat
  largestFree : Nat
  blockCount : Nat

def HeapStats.count (stats : HeapStats) (block : BlockT) : HeapStats :=
  if block.free = true then
    ⟨stats.used, (stats.free + block.size) % 2 ^ 32, max stats.largestFree block.size,
      (stats.blockCount + 1) % 2 ^ 32⟩
  else
    ⟨(stats.used + block.size) % 2 ^ 32, stats.free, stats.largestFree,
      (stats.blockCount + 1) % 2 ^ 32⟩

def statsLoop (m : Bytes) : Nat → Nat → HeapStats → Option HeapStats
  | 0, _, _ => none
  | fuel + 1, b, stats =>
      if b = 0 then some stats
      else statsLoop m fuel (blockAt m b).next (stats.count (blockAt m b))

def kheapStats (heap : Nat) (m : Bytes) : Option HeapStats :=
  statsLoop m (heapSize / headerSize + 1) heap ⟨0, 0, 0, 0⟩

/-! ## Histories -/

/-- A live allocation: the pointer that its holder has, the number of bytes that the holder asked
for, and the pointer that `kmalloc` returned for it. -/
structure Alloc where
  ptr : Nat
  size : Nat
  raw : Nat
  deriving DecidableEq, Repr

structure HeapState where
  mem : Bytes
  live : List Alloc

inductive HeapCall where
  | malloc (size : UInt32)
  | calloc (count size : UInt32)
  | aligned (size : UInt32)
  | realloc (ptr : Nat) (size : UInt32)
  | free (ptr : Nat)
  | store (ptr : Nat) (bytes : Nat → UInt8)

namespace HeapState

def find (s : HeapState) (ptr : Nat) : Option Alloc := s.live.find? fun a => a.ptr = ptr

/-- The state after a call that returns a pointer, if it is not null, to bytes for its caller. -/
def allocated (s : HeapState) (result : Bytes × Nat) (size raw : Nat) : HeapState :=
  if result.2 = 0 then ⟨result.1, s.live⟩ else ⟨result.1, ⟨result.2, size, raw⟩ :: s.live⟩

def call (heap : Nat) (s : HeapState) : HeapCall → HeapState
  | .malloc size =>
      let result := kmalloc heap s.mem size.toNat
      s.allocated result size.toNat result.2
  | .calloc count size =>
      let result := kcalloc heap s.mem count.toNat size.toNat
      s.allocated result (count.toNat * size.toNat) result.2
  | .aligned size =>
      s.allocated (kmallocAligned heap s.mem size.toNat) size.toNat
        (kmalloc heap s.mem (paddedSize size.toNat)).2
  | .realloc ptr size =>
      if ptr = 0 then
        let result := kmalloc heap s.mem size.toNat
        s.allocated result size.toNat result.2
      else
        match s.find ptr with
        | none => s
        | some a =>
            let result := krealloc heap s.mem ptr size.toNat
            if size = 0 then ⟨result.1, s.live.erase a⟩
            else if result.2 = 0 then ⟨result.1, s.live⟩
            else ⟨result.1, ⟨result.2, size.toNat, if result.2 = ptr then a.raw else result.2⟩ ::
              s.live.erase a⟩
  | .free ptr =>
      match s.find ptr with
      | none => s
      | some a => ⟨kfree s.mem ptr, s.live.erase a⟩
  | .store ptr bytes =>
      match s.find ptr with
      | none => s
      | some a => ⟨fill s.mem a.ptr a.size bytes, s.live⟩

def boot (heap : Nat) (m : Bytes) : HeapState := ⟨kheapInit heap m, []⟩

end HeapState

end Trinux.Kheap
