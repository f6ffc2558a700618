import Trinux.Lib.Machine
import Trinux.Mm.Pmm

namespace Trinux

/-!
# Runs of the frame allocator

The counter of used frames agrees with the bitmap in every run, an allocation marks a frame that was
free, and a frame that is in use stays so until it is freed.  `pmm_reserve_region` computes the end
of a region with 32 bits, so it misses the frames of a region that comes too close to the end of the
address space.
-/

namespace Pmm

inductive Call where
  | reserve (addr len : UInt32)
  | alloc
  | free (addr : UInt32)

def perform (p : Pmm) : Call → Pmm
  | .reserve addr len => p.reserveRegion addr len
  | .alloc => p.allocFrame.2
  | .free addr => p.freeFrame (addr / 4096).toNat

def usedCount (p : Pmm) : Nat := (List.range p.totalFrames).countP p.bitmap

def Overlaps (addr len : UInt32) (frame : Nat) : Prop :=
  ∃ byte, addr.toNat ≤ byte ∧ byte < addr.toNat + len.toNat ∧ byte / 4096 = frame

def ReservesAll (p : Pmm) (addr len : UInt32) : Prop :=
  ∀ frame < p.totalFrames, Overlaps addr len frame →
    (p.reserveRegion addr len).bitmap frame = true

/-- The end of the region, rounded up, is below `2 ^ 32`, or the frames of the region are marked
already that are not in front of what is left of it. -/
def Reservable (p : Pmm) (addr len : UInt32) : Prop :=
  addr.toNat + len.toNat + 4095 < 2 ^ 32 ∨
    ∀ frame < p.totalFrames, Overlaps addr len frame →
      (addr.toNat + len.toNat + 4095) % 2 ^ 32 / 4096 ≤ frame → p.bitmap frame = true

structure Accounts (p : Pmm) : Prop where
  counted : p.usedFrames.toNat = p.usedCount
  allocates : ∀ frame p', p.allocFrame = (some frame, p') →
    frame < p.totalFrames ∧ p.bitmap frame = false ∧ p'.bitmap frame = true
  keeps : ∀ call frame, p.bitmap frame = true → (p.perform call).bitmap frame = true ∨
    ∃ addr : UInt32, call = .free addr ∧ (addr / 4096).toNat = frame
  frees : ∀ addr : UInt32,
    ¬((addr / 4096).toNat < p.totalFrames ∧ p.bitmap (addr / 4096).toNat = true) →
      (p.perform (.free addr)).bitmap = p.bitmap ∧
        (p.perform (.free addr)).usedFrames = p.usedFrames ∧
        (p.perform (.free addr)).totalFrames = p.totalFrames

/-! ## Counting -/

/-- The number of marked frames as the counter has it, of at most `MAX_FRAMES`. -/
structure Counted (p : Pmm) : Prop where
  counter : p.usedFrames = UInt32.ofNat p.usedCount
  few : p.totalFrames ≤ maxFrames

/-- Those that are new and those that were there are all. -/
theorem countP_or (frames : List Nat) (new old : Nat → Bool) :
    frames.countP (fun frame => new frame || old frame) =
      frames.countP old + frames.countP (fun frame => new frame && !old frame) := by
  induction frames with
  | nil => rfl
  | cons frame rest rest_ih =>
      rw [List.countP_cons, List.countP_cons, List.countP_cons, rest_ih]
      cases new frame <;> cases old frame <;> simp <;> omega

section Steps

variable {p : Pmm}

theorem usedCount_le (p : Pmm) : p.usedCount ≤ p.totalFrames := by
  have most := List.countP_le_length (p := p.bitmap) (l := List.range p.totalFrames)
  rwa [List.length_range] at most

theorem Counted.toNat (counted : p.Counted) : p.usedFrames.toNat = p.usedCount := by
  have most := p.usedCount_le
  have few := counted.few
  rw [counted.counter]
  apply UInt32.toNat_ofNat_of_lt'
  rw [maxFrames] at few
  show p.usedCount < 2 ^ 32
  omega

theorem Counted.reserve (counted : p.Counted) (addr len : UInt32) :
    (p.reserveRegion addr len).Counted := by
  refine ⟨?_, counted.few⟩
  unfold usedCount reserveRegion
  dsimp only
  rw [countP_or, counted.counter, UInt32.ofNat_add]
  congr 2
  apply List.countP_congr
  intro frame member
  have inside := List.mem_range.mp member
  simp [inside]

theorem Counted.alloc (counted : p.Counted) : p.allocFrame.2.Counted := by
  unfold allocFrame
  split
  · rename_i frame found
    have member := List.mem_of_find?_eq_some found
    have free := List.find?_some found
    rw [Bool.not_eq_true'] at free
    refine ⟨?_, counted.few⟩
    have one : (List.range p.totalFrames).countP (Function.update p.bitmap frame true) =
        (List.range p.totalFrames).countP p.bitmap + 1 := by
      apply Ownership.countP_range_add (List.mem_range.mp member) free
      · rw [Function.update_self]
      · intro other different
        rw [Function.update_of_ne different]
    unfold usedCount
    dsimp only
    rw [one, counted.counter, UInt32.ofNat_add]
    rfl
  · exact ⟨counted.counter, counted.few⟩

theorem Counted.free (counted : p.Counted) (frame : Nat) : (p.freeFrame frame).Counted := by
  unfold freeFrame
  by_cases used : frame < p.totalFrames ∧ p.bitmap frame = true
  · rw [if_pos used]
    refine ⟨?_, counted.few⟩
    have one : (List.range p.totalFrames).countP p.bitmap =
        (List.range p.totalFrames).countP (Function.update p.bitmap frame false) + 1 := by
      apply Ownership.countP_range_add used.1
      · rw [Function.update_self]
      · exact used.2
      · intro other different
        rw [Function.update_of_ne different]
    have some' : 0 < p.usedFrames := by
      rw [UInt32.lt_iff_toNat_lt, counted.toNat]
      unfold usedCount
      rw [one]
      exact Nat.succ_pos _
    unfold usedCount
    dsimp only
    rw [if_pos some', counted.counter]
    unfold usedCount
    rw [one, UInt32.ofNat_add]
    exact add_sub_cancel_right _ _
  · rw [if_neg used]
    exact ⟨counted.counter, counted.few⟩

theorem Counted.perform (counted : p.Counted) (call : Call) : (p.perform call).Counted := by
  cases call with
  | reserve addr len => exact counted.reserve addr len
  | alloc => exact counted.alloc
  | free addr => exact counted.free _

/-- Before the first region is reserved no managed frame is marked. -/
theorem init_counted (bytes : UInt32) : (init bytes).Counted := by
  unfold init
  apply Counted.reserve
  constructor
  · have none' : (List.range (min (bytes / 4096).toNat maxFrames)).countP
        (fun frame => decide (min (bytes / 4096).toNat maxFrames ≤ frame)) = 0 := by
      rw [List.countP_eq_zero]
      intro frame member
      have inside := List.mem_range.mp member
      simp only [decide_eq_true_eq]
      omega
    unfold usedCount
    dsimp only
    rw [none']
    rfl
  · exact Nat.min_le_right _ _

theorem perform_keeps (p : Pmm) (call : Call) {frame : Nat} (used : p.bitmap frame = true) :
    (p.perform call).bitmap frame = true ∨
      ∃ addr : UInt32, call = .free addr ∧ (addr / 4096).toNat = frame := by
  cases call with
  | reserve addr len =>
      left
      unfold perform reserveRegion
      dsimp only
      rw [used, Bool.or_true]
  | alloc =>
      left
      show p.allocFrame.2.bitmap frame = true
      unfold allocFrame
      split
      · rename_i first found
        dsimp only
        by_cases same : frame = first
        · rw [same, Function.update_self]
        · rw [Function.update_of_ne same]
          exact used
      · exact used
  | free addr =>
      by_cases same : (addr / 4096).toNat = frame
      · exact Or.inr ⟨addr, rfl, same⟩
      · left
        show (p.freeFrame (addr / 4096).toNat).bitmap frame = true
        unfold freeFrame
        by_cases taken : (addr / 4096).toNat < p.totalFrames ∧ p.bitmap (addr / 4096).toNat = true
        · rw [if_pos taken]
          dsimp only
          rw [Function.update_of_ne (Ne.symm same)]
          exact used
        · rw [if_neg taken]
          exact used

theorem Counted.accounts (counted : p.Counted) : p.Accounts where
  counted := counted.toNat
  allocates := by
    intro frame p' allocated
    have gives := allocFrame_gives allocated
    refine ⟨gives.inside, gives.wasFree, ?_⟩
    rw [gives.bitmap, Function.update_self]
  keeps := fun call frame used => p.perform_keeps call used
  frees := by
    intro addr stray
    unfold Pmm.perform freeFrame
    dsimp only
    rw [if_neg stray]
    exact ⟨rfl, rfl, rfl⟩

end Steps

/-! ## Reserving -/

/-- A region overlaps the frames from the one of its first byte to the one of its last. -/
theorem overlaps_iff (addr len : UInt32) (frame : Nat) :
    Overlaps addr len frame ↔ len ≠ 0 ∧ addr.toNat / 4096 ≤ frame ∧
      frame < (addr.toNat + len.toNat + 4095) / 4096 := by
  constructor
  · rintro ⟨byte, above, below, rfl⟩
    refine ⟨?_, Nat.div_le_div_right above, by omega⟩
    rintro rfl
    have none' : (0 : UInt32).toNat = 0 := rfl
    omega
  · rintro ⟨some', above, below⟩
    have positive : 0 < len.toNat := by
      rw [Nat.pos_iff_ne_zero]
      exact fun zero => some' (UInt32.toNat_inj.mp zero)
    refine ⟨max addr.toNat (frame * 4096), Nat.le_max_left _ _, ?_, ?_⟩ <;> omega

theorem reserve_bitmap (p : Pmm) (addr len : UInt32) {frame : Nat}
    (inside : frame < p.totalFrames) : (p.reserveRegion addr len).bitmap frame = true ↔
      addr.toNat / 4096 ≤ frame ∧ frame < (addr.toNat + len.toNat + 4095) % 2 ^ 32 / 4096 ∨
        p.bitmap frame = true := by
  have start : (addr / 4096).toNat = addr.toNat / 4096 := UInt32.toNat_div addr 4096
  have stop : ((addr + len + 4096 - 1) / 4096).toNat =
      (addr.toNat + len.toNat + 4095) % 2 ^ 32 / 4096 := by
    have sum : addr + len + 4096 - 1 = addr + len + 4095 := by
      rw [add_sub_assoc]
      rfl
    rw [sum, UInt32.toNat_div, UInt32.toNat_add, UInt32.toNat_add, Nat.mod_add_mod]
    rfl
  unfold reserveRegion
  dsimp only
  rw [start, stop, Bool.or_eq_true, decide_eq_true_eq]
  constructor
  · rintro (⟨above, below, _⟩ | used)
    · exact Or.inl ⟨above, below⟩
    · exact Or.inr used
  · rintro (⟨above, below⟩ | used)
    · exact Or.inl ⟨above, below, inside⟩
    · exact Or.inr used

theorem reservesAll_iff (p : Pmm) (addr len : UInt32) :
    p.ReservesAll addr len ↔ p.Reservable addr len := by
  constructor
  · intro all
    by_cases fits : addr.toNat + len.toNat + 4095 < 2 ^ 32
    · exact Or.inl fits
    · right
      intro frame inside overlaps behind
      have marked := (p.reserve_bitmap addr len inside).mp (all frame inside overlaps)
      rcases marked with ⟨_, below⟩ | used
      · omega
      · exact used
  · intro reservable frame inside overlaps
    rw [p.reserve_bitmap addr len inside]
    have range := (overlaps_iff addr len frame).mp overlaps
    rcases reservable with fits | marked
    · rw [Nat.mod_eq_of_lt fits]
      exact Or.inl range.2
    · rcases Nat.lt_or_ge frame ((addr.toNat + len.toNat + 4095) % 2 ^ 32 / 4096) with
        below | behind
      · exact Or.inl ⟨range.2.1, below⟩
      · exact Or.inr (marked frame inside overlaps behind)

/-- In every run the allocator keeps its accounts, and it reserves all frames of a region exactly
when the rounded end of the region does not wrap, or wraps over marked frames only. -/
theorem frames_accounted (bytes : UInt32) (calls : List Call) :
    (Machine.after perform (init bytes) calls).Accounts ∧
      ∀ addr len, (Machine.after perform (init bytes) calls).ReservesAll addr len ↔
        (Machine.after perform (init bytes) calls).Reservable addr len := by
  have counted : (Machine.after perform (init bytes) calls).Counted :=
    Machine.after_invariant (fun p call holds => holds.perform call) (init_counted bytes) calls
  exact ⟨counted.accounts, fun addr len => reservesAll_iff _ addr len⟩

/-- A region of 2 GiB minus a page at 2 GiB plus a page: nothing is reserved. -/
theorem high_region_free :
    ¬(init 0x90000000).ReservesAll 0x80001000 0x7FFFF000 := by
  intro all
  have inside : 524289 < (init 0x90000000).totalFrames := by
    rw [init_totalFrames]
    decide
  have overlaps : Overlaps 0x80001000 0x7FFFF000 524289 :=
    ⟨0x80001000, by decide, by decide, by decide⟩
  have marked := (reserve_bitmap (init 0x90000000) 0x80001000 0x7FFFF000 inside).mp
    (all 524289 inside overlaps)
  rcases marked with ⟨_, below⟩ | used
  · exact absurd below (by decide)
  · have free : (init 0x90000000).bitmap 524289 = false := by
      rw [init_bitmap]
      decide
    rw [free] at used
    cases used

end Pmm

end Trinux
