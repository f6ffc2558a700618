import Mathlib

namespace Trinux

/-!
# Pipes

Pipes live in a table of their own.  Their descriptors are numbers from `PIPE_FD_BASE` on,
two for each slot: the even one reads and the odd one writes.  A pipe counts the ends that
are still open and its slot is free again when none is left.
-/

def pipeFdBase : Int := 100

def pipeFdStride : Int := 2

def pipeMaxOpen : Nat := 16

structure Pipe where
  buf : Nat → UInt8
  head : UInt32
  tail : UInt32
  used : UInt32
  writeClosed : Bool
  readClosed : Bool
  refcount : Int

inductive PipeEnd where
  | read
  | write
  deriving DecidableEq, Repr

def Pipe.closeEnd (pipe : Pipe) : PipeEnd → Pipe
  | .read => { pipe with readClosed := true, refcount := pipe.refcount - 1 }
  | .write => { pipe with writeClosed := true, refcount := pipe.refcount - 1 }

def Pipe.zero : Pipe := ⟨fun _ => 0, 0, 0, 0, false, false, 0⟩

structure PipeTable where
  pipes : Nat → Pipe
  inUse : Nat → Bool

inductive FdType where
  | vfs
  | pipeR
  | pipeW
  deriving DecidableEq, Repr

def fdToSlot (fd : Int) : Option Nat :=
  if fd < pipeFdBase then none else some ((fd - pipeFdBase) / pipeFdStride).toNat

namespace PipeTable

def init : PipeTable := ⟨fun _ => Pipe.zero, fun _ => false⟩

def put (t : PipeTable) (slot : Nat) (pipe : Pipe) (used : Bool) : PipeTable :=
  ⟨Function.update t.pipes slot pipe, Function.update t.inUse slot used⟩

def isPipe (t : PipeTable) (fd : Int) : Bool :=
  match fdToSlot fd with
  | none => false
  | some slot => slot < pipeMaxOpen && t.inUse slot

def fdType (t : PipeTable) (fd : Int) : FdType :=
  if t.isPipe fd then
    if (fd - pipeFdBase) % pipeFdStride = 0 then .pipeR else .pipeW
  else .vfs

def create (t : PipeTable) : Option ((Int × Int) × PipeTable) :=
  ((List.range pipeMaxOpen).find? fun slot => !t.inUse slot).map fun (slot : Nat) =>
    ((pipeFdBase + slot * pipeFdStride, pipeFdBase + slot * pipeFdStride + 1),
      t.put slot { Pipe.zero with refcount := 2 } true)

def close (t : PipeTable) (fd : Int) : PipeTable :=
  match fdToSlot fd with
  | none => t
  | some slot =>
      if t.inUse slot then
        let closed := (t.pipes slot).closeEnd (if t.fdType fd = .pipeR then .read else .write)
        if closed.refcount ≤ 0 then t.put slot Pipe.zero false else t.put slot closed true
      else t

theorem put_inUse_of_ne (t : PipeTable) {slot other : Nat} (pipe : Pipe) (used : Bool)
    (different : other ≠ slot) : (t.put slot pipe used).inUse other = t.inUse other := by
  simp [put, different]

theorem put_pipes_of_ne (t : PipeTable) {slot other : Nat} (pipe : Pipe) (used : Bool)
    (different : other ≠ slot) : (t.put slot pipe used).pipes other = t.pipes other := by
  simp [put, different]

@[simp] theorem put_inUse_self (t : PipeTable) (slot : Nat) (pipe : Pipe) (used : Bool) :
    (t.put slot pipe used).inUse slot = used := by
  simp [put]

@[simp] theorem put_pipes_self (t : PipeTable) (slot : Nat) (pipe : Pipe) (used : Bool) :
    (t.put slot pipe used).pipes slot = pipe := by
  simp [put]

end PipeTable

/-! ## Open ends -/

def Pipe.isClosed (pipe : Pipe) : PipeEnd → Bool
  | .read => pipe.readClosed
  | .write => pipe.writeClosed

def PipeTable.EndOpen (t : PipeTable) (slot : Nat) (side : PipeEnd) : Prop :=
  slot < pipeMaxOpen ∧ t.inUse slot = true ∧ (t.pipes slot).isClosed side = false

structure Pipe.Counts (pipe : Pipe) : Prop where
  positive : 1 ≤ pipe.refcount
  count : pipe.refcount + pipe.readClosed.toNat + pipe.writeClosed.toNat = 2

def PipeTable.Sound (t : PipeTable) : Prop :=
  ∀ slot, t.inUse slot = true → (t.pipes slot).Counts

namespace PipeTable

variable {t : PipeTable}

theorem init_sound : init.Sound := fun _ used => absurd used Bool.false_ne_true

theorem Sound.put (sound : t.Sound) (slot : Nat) {pipe : Pipe} {used : Bool}
    (counts : used = true → pipe.Counts) : (t.put slot pipe used).Sound := by
  intro other isUsed
  by_cases here : other = slot
  · subst here
    rw [put_inUse_self] at isUsed
    rw [put_pipes_self]
    exact counts isUsed
  · rw [put_inUse_of_ne t pipe used here] at isUsed
    rw [put_pipes_of_ne t pipe used here]
    exact sound other isUsed

theorem create_sound (sound : t.Sound) {fds : Int × Int} {t' : PipeTable}
    (created : t.create = some (fds, t')) : t'.Sound := by
  rcases Option.map_eq_some_iff.mp created with ⟨slot, -, made⟩
  cases made
  exact sound.put slot fun _ => ⟨by decide, rfl⟩

/-- Closing an end of a pipe that counts them leaves one that counts them, or none at all: two
references are left only while neither end was closed. -/
theorem counts_closeEnd {pipe : Pipe} (counts : pipe.Counts) (side : PipeEnd)
    (left : 0 < (pipe.closeEnd side).refcount) : (pipe.closeEnd side).Counts := by
  rcases counts with ⟨positive, count⟩
  have more : 1 < pipe.refcount := by
    cases side <;> simp only [Pipe.closeEnd] at left <;> omega
  have reads : pipe.readClosed = false := by
    cases is : pipe.readClosed with
    | false => rfl
    | true =>
        simp only [is, Bool.toNat_true] at count
        omega
  have writes : pipe.writeClosed = false := by
    cases is : pipe.writeClosed with
    | false => rfl
    | true =>
        simp only [is, Bool.toNat_true] at count
        omega
  simp only [reads, writes, Bool.toNat_false] at count
  cases side with
  | read =>
      refine ⟨Int.le_sub_one_of_lt more, ?_⟩
      simp only [Pipe.closeEnd, writes, Bool.toNat_false, Bool.toNat_true]
      omega
  | write =>
      refine ⟨Int.le_sub_one_of_lt more, ?_⟩
      simp only [Pipe.closeEnd, reads, Bool.toNat_false, Bool.toNat_true]
      omega

theorem close_sound (sound : t.Sound) (fd : Int) : (t.close fd).Sound := by
  rw [close]
  split
  · exact sound
  · rename_i slot _
    generalize (if t.fdType fd = .pipeR then PipeEnd.read else PipeEnd.write) = side
    split
    · rename_i used
      dsimp only
      split
      · exact sound.put slot fun impossible => absurd impossible Bool.false_ne_true
      · rename_i left
        exact sound.put slot fun _ => counts_closeEnd (sound slot used) _ (not_le.mp left)
    · exact sound

theorem close_frame (t : PipeTable) {fd : Int} {slot other : Nat} (here : fdToSlot fd = some slot)
    (different : other ≠ slot) :
    (t.close fd).inUse other = t.inUse other ∧ (t.close fd).pipes other = t.pipes other := by
  rw [close, here]
  generalize (if t.fdType fd = .pipeR then PipeEnd.read else PipeEnd.write) = side
  dsimp only
  split
  · split
    · exact ⟨put_inUse_of_ne t _ _ different, put_pipes_of_ne t _ _ different⟩
    · exact ⟨put_inUse_of_ne t _ _ different, put_pipes_of_ne t _ _ different⟩
  · exact ⟨rfl, rfl⟩

/-- Closing an end takes away one reference, or the pipe. -/
theorem close_refcount (t : PipeTable) {fd : Int} {slot : Nat} (here : fdToSlot fd = some slot)
    (used : t.inUse slot = true) :
    ((t.pipes slot).refcount ≤ 1 → (t.close fd).inUse slot = false) ∧
      (1 < (t.pipes slot).refcount → (t.close fd).inUse slot = true ∧
        ((t.close fd).pipes slot).refcount = (t.pipes slot).refcount - 1) := by
  have same : ∀ side, ((t.pipes slot).closeEnd side).refcount = (t.pipes slot).refcount - 1 := by
    intro side
    cases side <;> rfl
  rw [close, here]
  simp only [used, if_true, same]
  constructor
  · intro last
    rw [if_pos (by omega), put_inUse_self]
  · intro more
    rw [if_neg (by omega), put_inUse_self, put_pipes_self]
    exact ⟨rfl, same _⟩

end PipeTable

end Trinux
