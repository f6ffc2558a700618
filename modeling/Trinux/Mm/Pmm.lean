import Trinux.Lib.Ownership

namespace Trinux

/-!
# Page frames

A bitmap marks the frames that are in use.  An allocation takes the first free frame and
gives its address, or zero if there is none.  The first 128 MiB are marked at boot.

Frames are known by their numbers here.  How often an allocation found no frame, and how
often a frame was freed that was not in use, is recorded beside the bitmap and read by no
function.
-/

def pmmFrameSize : Nat := 4096

def maxFrames : Nat := 1024 * 1024

structure Pmm where
  totalFrames : Nat
  bitmap : Nat → Bool
  usedFrames : UInt32
  failures : Nat
  strayFrees : Nat

namespace Pmm

def reserveRegion (addr len : UInt32) (p : Pmm) : Pmm :=
  let start := (addr / 4096).toNat
  let stop := ((addr + len + 4096 - 1) / 4096).toNat
  { p with
    bitmap := fun frame =>
      decide (start ≤ frame ∧ frame < stop ∧ frame < p.totalFrames) || p.bitmap frame
    usedFrames := p.usedFrames + UInt32.ofNat ((List.range p.totalFrames).countP fun frame =>
      decide (start ≤ frame ∧ frame < stop) && !p.bitmap frame) }

def init (totalMemoryBytes : UInt32) : Pmm :=
  let frames := min (totalMemoryBytes / 4096).toNat maxFrames
  reserveRegion 0 (128 * 1024 * 1024) ⟨frames, fun frame => decide (frames ≤ frame), 0, 0, 0⟩

/-- `pmm_alloc_frame`; the address zero, also that of the frame zero, is no frame to the caller. -/
def allocFrame (p : Pmm) : Option Nat × Pmm :=
  match (List.range p.totalFrames).find? fun frame => !p.bitmap frame with
  | some frame =>
      (if frame = 0 then none else some frame, { p with
        bitmap := Function.update p.bitmap frame true
        usedFrames := p.usedFrames + 1 })
  | none => (none, { p with failures := p.failures + 1 })

def freeFrame (frame : Nat) (p : Pmm) : Pmm :=
  if frame < p.totalFrames ∧ p.bitmap frame = true then
    { p with
      bitmap := Function.update p.bitmap frame false
      usedFrames := if 0 < p.usedFrames then p.usedFrames - 1 else p.usedFrames }
  else { p with strayFrees := p.strayFrees + 1 }

def freeCount (p : Pmm) : Nat := (List.range p.totalFrames).countP fun frame => !p.bitmap frame

def ZeroUsed (p : Pmm) : Prop := p.bitmap 0 = true

section Allocation

variable {p p' : Pmm} {frame : Nat}

structure Gives (p : Pmm) (frame : Nat) (p' : Pmm) : Prop where
  inside : frame < p.totalFrames
  wasFree : p.bitmap frame = false
  bitmap : p'.bitmap = Function.update p.bitmap frame true
  totalFrames : p'.totalFrames = p.totalFrames
  failures : p'.failures = p.failures
  strayFrees : p'.strayFrees = p.strayFrees

theorem allocFrame_gives (allocated : p.allocFrame = (some frame, p')) : p.Gives frame p' := by
  rw [allocFrame] at allocated
  split at allocated
  · rename_i first found
    rcases Prod.mk.inj allocated with ⟨isFrame, made⟩
    split at isFrame
    · cases isFrame
    · cases isFrame
      have free := List.find?_some found
      rw [Bool.not_eq_true'] at free
      rw [← made]
      exact ⟨List.mem_range.mp (List.mem_of_find?_eq_some found), free, rfl, rfl, rfl, rfl⟩
  · cases (Prod.mk.inj allocated).1

/-- Without a free frame nothing happens but the failure. -/
theorem allocFrame_full (full : p.freeCount = 0) :
    p.allocFrame = (none, { p with failures := p.failures + 1 }) := by
  have none_ : (List.range p.totalFrames).find? (fun frame => !p.bitmap frame) = none := by
    rw [List.find?_eq_none]
    exact List.countP_eq_zero.mp full
  rw [allocFrame, none_]

theorem allocFrame_some (zeroUsed : p.ZeroUsed) (free : p.freeCount ≠ 0) :
    ∃ frame p', p.allocFrame = (some frame, p') := by
  have found : ((List.range p.totalFrames).find? fun frame => !p.bitmap frame) ≠ none := by
    intro none_
    rw [List.find?_eq_none] at none_
    exact free (List.countP_eq_zero.mpr none_)
  rcases Option.ne_none_iff_exists'.mp found with ⟨frame, first⟩
  have nonzero : frame ≠ 0 := by
    rintro rfl
    have isFree := List.find?_some first
    rw [zeroUsed] at isFree
    cases isFree
  rw [allocFrame, first]
  exact ⟨frame, _, Prod.ext (if_neg nonzero) rfl⟩

theorem Gives.freeCount (gives : p.Gives frame p') : p.freeCount = p'.freeCount + 1 := by
  rw [Pmm.freeCount, Pmm.freeCount, gives.totalFrames]
  apply Ownership.countP_range_add gives.inside
  · rw [gives.bitmap, Function.update_self]
    rfl
  · rw [gives.wasFree]
    rfl
  · intro other different
    rw [gives.bitmap, Function.update_of_ne different]

theorem Gives.zeroUsed (gives : p.Gives frame p') (zeroUsed : p.ZeroUsed) : p'.ZeroUsed := by
  rw [ZeroUsed, gives.bitmap]
  by_cases zero : 0 = frame
  · rw [zero, Function.update_self]
  · rw [Function.update_of_ne zero]
    exact zeroUsed

theorem freeFrame_used (inside : frame < p.totalFrames) (used : p.bitmap frame = true) :
    (p.freeFrame frame).bitmap = Function.update p.bitmap frame false ∧
      (p.freeFrame frame).totalFrames = p.totalFrames ∧
      (p.freeFrame frame).failures = p.failures ∧
      (p.freeFrame frame).strayFrees = p.strayFrees ∧
      (p.freeFrame frame).freeCount = p.freeCount + 1 := by
  have freed : p.freeFrame frame = { p with
      bitmap := Function.update p.bitmap frame false
      usedFrames := if 0 < p.usedFrames then p.usedFrames - 1 else p.usedFrames } :=
    if_pos ⟨inside, used⟩
  rw [freed]
  refine ⟨rfl, rfl, rfl, rfl, ?_⟩
  rw [freeCount, freeCount]
  apply Ownership.countP_range_add inside
  · rw [used]
    rfl
  · dsimp only
    rw [Function.update_self]
    rfl
  · intro other different
    dsimp only
    rw [Function.update_of_ne different]

end Allocation

/-! ## Boot -/

def frameCount (totalMemoryBytes : UInt32) : Nat := min (totalMemoryBytes / 4096).toNat maxFrames

def reservedFrames : Nat := 32768

theorem init_totalFrames (bytes : UInt32) : (init bytes).totalFrames = frameCount bytes := rfl

/-- The frames of the machine from 128 MiB on are free after boot, and no others. -/
theorem init_bitmap (bytes : UInt32) (frame : Nat) :
    (init bytes).bitmap frame = false ↔ reservedFrames ≤ frame ∧ frame < frameCount bytes := by
  have bounds : ((0 : UInt32) / 4096).toNat = 0 ∧
      (((0 : UInt32) + 128 * 1024 * 1024 + 4096 - 1) / 4096).toNat = reservedFrames := by decide
  rw [init, reserveRegion]
  dsimp only
  rw [bounds.1, bounds.2, Bool.or_eq_false_iff, decide_eq_false_iff_not, decide_eq_false_iff_not]
  rw [← frameCount]
  omega

theorem init_zeroUsed (bytes : UInt32) : (init bytes).ZeroUsed := by
  rw [ZeroUsed, ← Bool.not_eq_false, init_bitmap]
  exact fun free => absurd free.1 (by decide)

theorem init_full {bytes : UInt32} (small : frameCount bytes ≤ reservedFrames) :
    (init bytes).freeCount = 0 := by
  rw [freeCount, List.countP_eq_zero]
  intro frame member
  rw [init_totalFrames, List.mem_range] at member
  rw [Bool.not_eq_true, Bool.not_eq_false', ← Bool.not_eq_false, init_bitmap]
  omega

/-- The first frame that is allocated is the one at 128 MiB. -/
theorem init_alloc {bytes : UInt32} (large : reservedFrames < frameCount bytes) :
    (init bytes).allocFrame.1 = some reservedFrames := by
  have first : (List.range (init bytes).totalFrames).find? (fun frame => !(init bytes).bitmap frame) =
      some reservedFrames := by
    rw [List.find?_range_eq_some]
    refine ⟨?_, List.mem_range.mpr large, fun frame below => ?_⟩
    · rw [Bool.not_eq_true', init_bitmap]
      exact ⟨le_refl _, large⟩
    · rw [Bool.not_not, ← Bool.not_eq_false, init_bitmap]
      exact fun free => absurd free.1 (not_le.mpr below)
  rw [allocFrame, first]
  rfl

end Pmm

end Trinux
