import Trinux.Fs.PipeCalls

namespace Trinux

/-!
# The lifetime of pipes

A slot of the table is known by its index only.  A call that waits goes on with whatever pipe the
slot holds when it runs again, closing an end gives up a reference whether or not the end was
closed before, and the number of a descriptor is compared with the size of the table after the
table was read.
-/

def endOf (fd : Int) : PipeEnd := if (fd - pipeFdBase) % pipeFdStride = 0 then .read else .write

def PipeEvent.descriptor : PipeEvent → Option Int
  | .create => none
  | .read _ fd _ => some fd
  | .write _ fd _ => some fd
  | .pass _ => none
  | .close fd => some fd
  | .exit _ => none

def withinTable (fd : Int) : Prop := fd < pipeFdBase + pipeMaxOpen * pipeFdStride

namespace PipeSystem

/-- The closes of an event: the descriptors, each with the state in which it is closed. -/
def closings (s : PipeSystem) : PipeEvent → List (PipeSystem × Int)
  | .close fd => [(s, fd)]
  | .exit _ => (List.range 32).map fun n => (s.closePipes n, pipeFdBase + (n : Int))
  | _ => []

/-- What is promised of the lifetime of pipes at an event: a slot becomes free only when its second
end is closed, closing an end that is not open changes nothing, a call goes on with the pipe that
it was made on, and a descriptor of no pipe is refused without a look behind the table. -/
structure Lifetime (s : PipeSystem) (event : PipeEvent) : Prop where
  released : ∀ slot < pipeMaxOpen, s.table.inUse slot = true →
    (s.step event).table.inUse slot = false →
      ∃ before fd, (before, fd) ∈ s.closings event ∧ fdToSlot fd = some slot ∧
        before.table.inUse slot = true ∧
          ∀ side, side = endOf fd ∨ (before.table.pipes slot).isClosed side = true
  twice : ∀ before fd slot, (before, fd) ∈ s.closings event → fdToSlot fd = some slot →
    ¬before.table.EndOpen slot (endOf fd) → before.close fd = before
  same : ∀ caller call, event = .pass caller → s.calls caller = some call →
    call.generation = s.generation call.slot
  refused : ∀ fd, event.descriptor = some fd → s.table.isPipe fd = false →
    s.step event = s ∧ ∀ slot, fdToSlot fd = some slot → slot < pipeMaxOpen

def ReadersOpen (s : PipeSystem) : Prop :=
  ∀ slot < pipeMaxOpen, s.table.inUse slot = true → (s.table.pipes slot).isClosed .read = false

/-- A step that does not meet the defects: the descriptor is not one behind the table, an end that
is closed was open, and no call waits for a slot that a new pipe takes.  A process that ends closes
both ends of every pipe, the reading end first. -/
def Orderly (s : PipeSystem) : PipeEvent → Prop
  | .create => ∀ slot, s.table.freeSlot = some slot →
      ∀ caller call, s.calls caller = some call → call.slot ≠ slot
  | .read _ fd _ => withinTable fd
  | .write _ fd _ => withinTable fd
  | .pass _ => True
  | .close fd => withinTable fd ∧
      (s.table.isPipe fd = true → ∀ slot, fdToSlot fd = some slot → s.table.EndOpen slot (endOf fd))
  | .exit _ => s.ReadersOpen

/-- The pipes count their open ends, and every call is on the pipe that is in its slot. -/
structure Kept (s : PipeSystem) : Prop where
  counts : ∀ slot < pipeMaxOpen, s.table.inUse slot = true → (s.table.pipes slot).Counts
  calls : ∀ caller call, s.calls caller = some call → call.generation = s.generation call.slot

end PipeSystem

/-! ## Descriptors and slots -/

theorem fdToSlot_withinTable {fd : Int} {slot : Nat} (within : withinTable fd)
    (here : fdToSlot fd = some slot) : slot < pipeMaxOpen := by
  rw [fdToSlot] at here
  split at here
  · cases here
  · cases here
    simp only [withinTable, pipeFdBase, pipeFdStride, pipeMaxOpen] at *
    omega

namespace PipeTable

variable {t : PipeTable} {fd : Int} {slot : Nat}

theorem isPipe_iff (here : fdToSlot fd = some slot) (inside : slot < pipeMaxOpen) :
    t.isPipe fd = t.inUse slot := by
  simp only [isPipe, here, inside, decide_true, Bool.true_and]

theorem fdType_vfs (nothing : t.isPipe fd = false) : t.fdType fd = .vfs := by
  simp only [fdType, nothing, Bool.false_eq_true, if_false]

/-- The end that `pipe_close` marks is that of the descriptor. -/
theorem side_eq (names : t.isPipe fd = true) :
    (if t.fdType fd = .pipeR then PipeEnd.read else PipeEnd.write) = endOf fd := by
  simp only [fdType, names, if_true, endOf]
  by_cases reads : (fd - pipeFdBase) % pipeFdStride = 0
  · simp only [if_pos reads, if_true]
  · simp only [if_neg reads, reduceCtorEq, if_false]

theorem close_unused (here : fdToSlot fd = some slot) (unused : t.inUse slot = false) :
    t.close fd = t := by
  rw [close, here]
  simp only [unused, Bool.false_eq_true, if_false]

theorem close_none (here : fdToSlot fd = none) : t.close fd = t := by
  rw [close, here]

theorem close_used (here : fdToSlot fd = some slot) (inside : slot < pipeMaxOpen)
    (used : t.inUse slot = true) :
    t.close fd = if ((t.pipes slot).closeEnd (endOf fd)).refcount ≤ 0
      then t.put slot Pipe.zero false
      else t.put slot ((t.pipes slot).closeEnd (endOf fd)) true := by
  have names : t.isPipe fd = true := (isPipe_iff here inside).trans used
  rw [close, here, side_eq names]
  simp only [used, if_true]

end PipeTable

/-- Whether an open end is the last one: the count says so. -/
theorem Pipe.Counts.last {p : Pipe} (counts : p.Counts) {side : PipeEnd}
    (isOpen : p.isClosed side = false) (last : (p.closeEnd side).refcount ≤ 0) :
    ∀ other, other = side ∨ p.isClosed other = true := by
  rcases counts with ⟨positive, count⟩
  intro other
  cases side with
  | read =>
      simp only [Pipe.isClosed] at isOpen
      simp only [Pipe.closeEnd] at last
      simp only [isOpen, Bool.toNat_false] at count
      cases other with
      | read => exact Or.inl rfl
      | write =>
          refine Or.inr (Bool.eq_true_of_not_eq_false fun closed => ?_)
          simp only [Pipe.isClosed] at closed
          simp only [closed, Bool.toNat_false] at count
          omega
  | write =>
      simp only [Pipe.isClosed] at isOpen
      simp only [Pipe.closeEnd] at last
      simp only [isOpen, Bool.toNat_false] at count
      cases other with
      | write => exact Or.inl rfl
      | read =>
          refine Or.inr (Bool.eq_true_of_not_eq_false fun closed => ?_)
          simp only [Pipe.isClosed] at closed
          simp only [closed, Bool.toNat_false] at count
          omega

/-! ## What a transfer leaves alone -/

structure Pipe.SameEnds (p q : Pipe) : Prop where
  refcount : q.refcount = p.refcount
  readClosed : q.readClosed = p.readClosed
  writeClosed : q.writeClosed = p.writeClosed

namespace Pipe

variable {p q : Pipe}

theorem SameEnds.counts (same : p.SameEnds q) (counts : p.Counts) : q.Counts :=
  ⟨by rw [same.refcount]; exact counts.positive,
    by rw [same.refcount, same.readClosed, same.writeClosed]; exact counts.count⟩

theorem takeBytes_sameEnds (n : Nat) (p : Pipe) : p.SameEnds (p.takeBytes n).2 := by
  induction n generalizing p with
  | zero => exact ⟨rfl, rfl, rfl⟩
  | succ n known =>
      have rest := known p.takeByte.2
      exact ⟨rest.refcount, rest.readClosed, rest.writeClosed⟩

theorem putBytes_sameEnds (bytes : List UInt8) (p : Pipe) : p.SameEnds (p.putBytes bytes) := by
  induction bytes generalizing p with
  | nil => exact ⟨rfl, rfl, rfl⟩
  | cons byte bytes known =>
      have rest := known (p.putByte byte)
      exact ⟨rest.refcount, rest.readClosed, rest.writeClosed⟩

theorem readPass_sameEnds (p : Pipe) (len got : Nat) : p.SameEnds (p.readPass len got).2.2 := by
  rw [readPass]
  split
  · split
    · exact ⟨rfl, rfl, rfl⟩
    · exact takeBytes_sameEnds _ p
  · exact ⟨rfl, rfl, rfl⟩

theorem writePass_sameEnds (p : Pipe) (src : List UInt8) (sent : Nat) :
    p.SameEnds (p.writePass src sent).2.2 := by
  rw [writePass]
  split
  · split
    · exact ⟨rfl, rfl, rfl⟩
    · exact putBytes_sameEnds _ p
  · exact ⟨rfl, rfl, rfl⟩

end Pipe

namespace PipeSystem

variable {s : PipeSystem}

theorem passOf_sameEnds (s : PipeSystem) (call : PipeCall) :
    (s.table.pipes call.slot).SameEnds (s.passOf call).2.2 := by
  rw [passOf]
  split
  · exact Pipe.readPass_sameEnds _ _ _
  · exact Pipe.writePass_sameEnds _ _ _

/-! ## The events -/

/-- Every call that goes on after an event was there before, or begins on the pipe that is there. -/
theorem Kept.of_calls {s' : PipeSystem} (kept : s.Kept)
    (counts : ∀ slot < pipeMaxOpen, s'.table.inUse slot = true → (s'.table.pipes slot).Counts)
    (generation : ∀ slot, (∃ caller call, s'.calls caller = some call ∧ call.slot = slot) →
      s'.generation slot = s.generation slot)
    (origin : ∀ caller call, s'.calls caller = some call →
      call.generation = s.generation call.slot ∨ ∃ old, s.calls caller = some old ∧
        old.slot = call.slot ∧ old.generation = call.generation) : s'.Kept := by
  refine ⟨counts, fun caller call going => ?_⟩
  rw [generation call.slot ⟨caller, call, going, rfl⟩]
  rcases origin caller call going with fresh | ⟨old, before, slot, number⟩
  · exact fresh
  · rw [← slot, ← number]
    exact kept.calls caller old before

theorem Kept.create (kept : s.Kept) (orderly : s.Orderly .create) : s.create.Kept := by
  rw [PipeSystem.create]
  cases free : s.table.freeSlot with
  | none => exact kept
  | some taken =>
      simp only [PipeTable.create_of_freeSlot free]
      refine kept.of_calls (fun slot inside used => ?_) (fun slot waits => ?_)
        (fun caller call going => Or.inr ⟨call, going, rfl, rfl⟩)
      · by_cases here : slot = taken
        · subst here
          rw [PipeTable.put_pipes_self]
          exact ⟨by decide, rfl⟩
        · rw [PipeTable.put_inUse_of_ne _ _ _ here] at used
          rw [PipeTable.put_pipes_of_ne _ _ _ here]
          exact kept.counts slot inside used
      · rcases waits with ⟨caller, call, going, here⟩
        have apart := orderly taken free caller call going
        rw [here] at apart
        exact Function.update_of_ne apart _ _

theorem Kept.begin (kept : s.Kept) (caller : Nat) (target : Option Nat) (transfer : Transfer) :
    (s.begin caller target transfer).Kept := by
  unfold PipeSystem.begin
  split
  · refine kept.of_calls kept.counts (fun _ _ => rfl) (fun other call going => ?_)
    by_cases here : other = caller
    · subst here
      simp only [Function.update_self] at going
      cases going
      exact Or.inl rfl
    · simp only [Function.update_of_ne here] at going
      exact Or.inr ⟨call, going, rfl, rfl⟩
  · exact kept

theorem Kept.pass (kept : s.Kept) (caller : Nat) : (s.pass caller).Kept := by
  rw [PipeSystem.pass]
  cases working : s.calls caller with
  | none => exact kept
  | some call =>
      refine kept.of_calls (fun slot inside used => ?_) (fun _ _ => rfl) (fun other next going => ?_)
      · by_cases here : slot = call.slot
        · subst here
          simp only [PipeTable.put_inUse_self] at used
          simp only [PipeTable.put_pipes_self]
          exact (passOf_sameEnds s call).counts (kept.counts _ inside used)
        · simp only [PipeTable.put_inUse_of_ne _ _ _ here] at used
          simp only [PipeTable.put_pipes_of_ne _ _ _ here]
          exact kept.counts slot inside used
      · by_cases here : other = caller
        · subst here
          simp only [Function.update_self] at going
          refine Or.inr ⟨call, working, ?_⟩
          unfold PipeCall.next at going
          split at going
          · cases going
            exact ⟨rfl, rfl⟩
          · cases going
            exact ⟨rfl, rfl⟩
          · cases going
          · cases going
        · simp only [Function.update_of_ne here] at going
          exact Or.inr ⟨next, going, rfl, rfl⟩

theorem begin_table (s : PipeSystem) (caller : Nat) (target : Option Nat) (transfer : Transfer) :
    (s.begin caller target transfer).table = s.table := by
  unfold PipeSystem.begin
  split
  · rfl
  · rfl

theorem close_table (s : PipeSystem) (fd : Int) : (s.close fd).table = s.table.close fd := by
  rw [PipeSystem.close]
  cases target : fdToSlot fd with
  | none => exact (PipeTable.close_none target).symm
  | some slot =>
      dsimp only
      split
      · rfl
      · rfl

theorem close_keepsCalls (s : PipeSystem) (fd : Int) :
    (s.close fd).calls = s.calls ∧ (s.close fd).generation = s.generation := by
  rw [PipeSystem.close]
  split
  · exact ⟨rfl, rfl⟩
  · split
    · exact ⟨rfl, rfl⟩
    · exact ⟨rfl, rfl⟩

theorem close_refused {fd : Int} (within : withinTable fd) (nothing : s.table.isPipe fd = false) :
    s.close fd = s := by
  rw [PipeSystem.close]
  cases target : fdToSlot fd with
  | none => rfl
  | some slot =>
      have unused : s.table.isPipe fd = s.table.inUse slot :=
        PipeTable.isPipe_iff target (fdToSlot_withinTable within target)
      rw [nothing] at unused
      have same := PipeTable.close_unused target unused.symm
      dsimp only
      rw [if_neg fun both => Bool.false_ne_true (unused.trans both.1), same]

theorem Kept.close (kept : s.Kept) (fd : Int) : (s.close fd).Kept := by
  have keeps := close_keepsCalls s fd
  refine ⟨fun slot inside used => ?_, fun caller call going => ?_⟩
  · rw [close_table] at used ⊢
    cases target : fdToSlot fd with
    | none =>
        rw [PipeTable.close_none target] at used ⊢
        exact kept.counts slot inside used
    | some closed =>
        by_cases here : slot = closed
        · subst here
          cases before : s.table.inUse slot with
          | false =>
              rw [PipeTable.close_unused target before] at used ⊢
              exact kept.counts slot inside used
          | true =>
              rw [PipeTable.close_used target inside before] at used ⊢
              split at used
              · rw [PipeTable.put_inUse_self] at used
                exact absurd used Bool.false_ne_true
              · rename_i left
                rw [if_neg left, PipeTable.put_pipes_self]
                exact PipeTable.counts_closeEnd (kept.counts slot inside before) _ (not_le.mp left)
        · have frame := PipeTable.close_frame s.table target here
          rw [frame.1] at used
          rw [frame.2]
          exact kept.counts slot inside used
  · rw [keeps.1] at going
    rw [keeps.2]
    exact kept.calls caller call going

/-! ## The closes of a process that ends -/

theorem fdToSlot_first (slot : Nat) : fdToSlot (pipeFdBase + (2 * slot : Nat)) = some slot := by
  rw [fdToSlot, if_neg (by rw [pipeFdBase]; omega)]
  simp only [pipeFdBase, pipeFdStride, Option.some_inj]
  omega

theorem fdToSlot_second (slot : Nat) :
    fdToSlot (pipeFdBase + (2 * slot + 1 : Nat)) = some slot := by
  rw [fdToSlot, if_neg (by rw [pipeFdBase]; omega)]
  simp only [pipeFdBase, pipeFdStride, Option.some_inj]
  omega

theorem endOf_first (slot : Nat) : endOf (pipeFdBase + (2 * slot : Nat)) = .read := by
  rw [endOf, if_pos (by simp only [pipeFdBase, pipeFdStride]; omega)]

theorem endOf_second (slot : Nat) : endOf (pipeFdBase + (2 * slot + 1 : Nat)) = .write := by
  rw [endOf, if_neg (by simp only [pipeFdBase, pipeFdStride]; omega)]

theorem withinTable_of_lt {n : Nat} (below : n < 32) : withinTable (pipeFdBase + (n : Int)) := by
  simp only [withinTable, pipeFdBase, pipeFdStride, pipeMaxOpen]
  omega

/-- In the loop every descriptor is closed, since closing one of no pipe changes nothing. -/
theorem closePipes_succ (s : PipeSystem) {n : Nat} (below : n < 32) :
    s.closePipes (n + 1) = (s.closePipes n).close (pipeFdBase + (n : Int)) := by
  rw [closePipes]
  cases names : (s.closePipes n).table.isPipe (pipeFdBase + (n : Int)) with
  | true => simp only [if_true]
  | false =>
      simp only [Bool.false_eq_true, if_false]
      exact (close_refused (withinTable_of_lt below) names).symm

/-- Closing the reading end leaves the slot free, or the writing end open. -/
theorem close_first (kept : s.Kept) {slot : Nat} (inside : slot < pipeMaxOpen)
    (readers : s.ReadersOpen)
    (used : (s.close (pipeFdBase + (2 * slot : Nat))).table.inUse slot = true) :
    ((s.close (pipeFdBase + (2 * slot : Nat))).table.pipes slot).isClosed .write = false := by
  have here := fdToSlot_first slot
  rw [close_table] at used ⊢
  cases before : s.table.inUse slot with
  | false =>
      rw [PipeTable.close_unused here before, before] at used
      exact absurd used Bool.false_ne_true
  | true =>
      have counts := (kept.counts slot inside before).count
      have isOpen : (s.table.pipes slot).readClosed = false := readers slot inside before
      rw [PipeTable.close_used here inside before, endOf_first] at used ⊢
      split at used
      · rw [PipeTable.put_inUse_self] at used
        exact absurd used Bool.false_ne_true
      · rename_i left
        rw [if_neg left, PipeTable.put_pipes_self]
        simp only [Pipe.closeEnd, not_le] at left
        simp only [isOpen, Bool.toNat_false] at counts
        cases closed : (s.table.pipes slot).writeClosed with
        | false => simp only [Pipe.isClosed, Pipe.closeEnd, closed]
        | true =>
            simp only [closed, Bool.toNat_true] at counts
            omega

/-- Closing the writing end behind the reading end frees the slot. -/
theorem close_second (kept : s.Kept) {slot : Nat} (inside : slot < pipeMaxOpen)
    (readers : s.ReadersOpen) :
    (((s.close (pipeFdBase + (2 * slot : Nat))).close
      (pipeFdBase + (2 * slot + 1 : Nat))).table.inUse slot) = false := by
  have here := fdToSlot_first slot
  have next := fdToSlot_second slot
  rw [close_table]
  cases still : (s.close (pipeFdBase + (2 * slot : Nat))).table.inUse slot with
  | false => rw [PipeTable.close_unused next still, still]
  | true =>
      have counts := ((kept.close (pipeFdBase + (2 * slot : Nat))).counts slot inside still).count
      have writes := close_first kept inside readers still
      have reads :
          ((s.close (pipeFdBase + (2 * slot : Nat))).table.pipes slot).readClosed = true := by
        rw [close_table] at still ⊢
        cases before : s.table.inUse slot with
        | false =>
            rw [PipeTable.close_unused here before, before] at still
            exact absurd still Bool.false_ne_true
        | true =>
            rw [PipeTable.close_used here inside before, endOf_first] at still ⊢
            split at still
            · rw [PipeTable.put_inUse_self] at still
              exact absurd still Bool.false_ne_true
            · rename_i left
              rw [if_neg left, PipeTable.put_pipes_self]
              rfl
      simp only [Pipe.isClosed] at writes
      rw [PipeTable.close_used next inside still, endOf_second, if_pos, PipeTable.put_inUse_self]
      simp only [reads, writes, Bool.toNat_true, Bool.toNat_false] at counts
      simp only [Pipe.closeEnd]
      omega

theorem close_frame_readers (readers : s.ReadersOpen) {slot : Nat} :
    ∀ other, other ≠ slot → other < pipeMaxOpen →
      ((s.close (pipeFdBase + (2 * slot : Nat))).close
        (pipeFdBase + (2 * slot + 1 : Nat))).table.inUse other = true →
      (((s.close (pipeFdBase + (2 * slot : Nat))).close
        (pipeFdBase + (2 * slot + 1 : Nat))).table.pipes other).isClosed .read = false := by
  intro other apart inside used
  rw [close_table, close_table] at used ⊢
  have second := PipeTable.close_frame (s.table.close (pipeFdBase + (2 * slot : Nat)))
    (fdToSlot_second slot) apart
  have first := PipeTable.close_frame s.table (fdToSlot_first slot) apart
  rw [second.1, first.1] at used
  rw [second.2, first.2]
  exact readers other inside used

/-- The closes of a process that ends are of open ends, if the reading ends were open. -/
theorem closePipes_orderly (kept : s.Kept) (readers : s.ReadersOpen) (slots : Nat)
    (inside : slots ≤ pipeMaxOpen) :
    (s.closePipes (2 * slots)).Kept ∧ (s.closePipes (2 * slots)).ReadersOpen ∧
      ∀ n < 2 * slots, (s.closePipes n).Kept ∧
        (s.closePipes n).Orderly (.close (pipeFdBase + (n : Int))) := by
  induction slots with
  | zero => exact ⟨kept, readers, fun n below => absurd below (Nat.not_lt_zero n)⟩
  | succ slots known =>
      rcases known (Nat.le_of_succ_le inside) with ⟨keptBefore, readersBefore, earlier⟩
      have room : slots < pipeMaxOpen := inside
      have small : 2 * slots + 1 < 32 := by rw [pipeMaxOpen] at room; omega
      have first := closePipes_succ s (Nat.lt_of_succ_lt small)
      have second := closePipes_succ s small
      have keptFirst := keptBefore.close (pipeFdBase + (2 * slots : Nat))
      have both : s.closePipes (2 * (slots + 1)) =
          ((s.closePipes (2 * slots)).close (pipeFdBase + (2 * slots : Nat))).close
            (pipeFdBase + (2 * slots + 1 : Nat)) := by
        rw [show 2 * (slots + 1) = 2 * slots + 1 + 1 by ring, second, first]
      refine ⟨?_, ?_, fun n below => ?_⟩
      · rw [both]
        exact keptFirst.close _
      · rw [both]
        intro other below used
        by_cases here : other = slots
        · subst here
          rw [close_second keptBefore room readersBefore] at used
          exact absurd used Bool.false_ne_true
        · exact close_frame_readers readersBefore other here below used
      · by_cases early : n < 2 * slots
        · exact earlier n early
        · rcases show n = 2 * slots ∨ n = 2 * slots + 1 by omega with rfl | rfl
          · refine ⟨keptBefore, withinTable_of_lt (Nat.lt_of_succ_lt small), ?_⟩
            intro names slot target
            rw [fdToSlot_first] at target
            cases target
            rw [PipeTable.isPipe_iff (fdToSlot_first slots) room] at names
            refine ⟨room, names, ?_⟩
            rw [endOf_first]
            exact readersBefore slots room names
          · rw [first]
            refine ⟨keptFirst, withinTable_of_lt small, ?_⟩
            intro names slot target
            rw [fdToSlot_second] at target
            cases target
            rw [PipeTable.isPipe_iff (fdToSlot_second slots) room] at names
            refine ⟨room, names, ?_⟩
            rw [endOf_second]
            exact close_first keptBefore room readersBefore names

theorem Kept.step (s : PipeSystem) (event : PipeEvent) (kept : s.Kept) (orderly : s.Orderly event) :
    (s.step event).Kept := by
  cases event with
  | create => exact kept.create orderly
  | read caller fd len => exact kept.begin caller _ _
  | write caller fd src => exact kept.begin caller _ _
  | pass caller => exact kept.pass caller
  | close fd => exact kept.close fd
  | exit caller =>
      have closed := (closePipes_orderly kept orderly 16 (le_refl _)).1
      refine closed.of_calls closed.counts (fun _ _ => rfl) (fun other call going => ?_)
      by_cases here : other = caller
      · subst here
        simp only [PipeSystem.step, PipeSystem.exit, Function.update_self] at going
        cases going
      · simp only [PipeSystem.step, PipeSystem.exit, Function.update_of_ne here] at going
        exact Or.inr ⟨call, going, rfl, rfl⟩

theorem stays_used {slot : Nat} {event : PipeEvent}
    (other : ∀ fd, event = .close fd → fdToSlot fd ≠ some slot)
    (lives : ∀ caller, event ≠ .exit caller)
    (used : s.table.inUse slot = true) : (s.step event).table.inUse slot = true := by
  cases event with
  | create =>
      rw [PipeSystem.step, PipeSystem.create]
      split
      · rename_i taken table free made
        have same := Option.map_eq_some_iff.mp made
        rcases same with ⟨found, -, put⟩
        cases put
        by_cases here : slot = found
        · subst here
          rw [PipeTable.put_inUse_self]
        · rw [PipeTable.put_inUse_of_ne _ _ _ here]
          exact used
      · exact used
  | read caller fd len =>
      rw [PipeSystem.step, begin_table]
      exact used
  | write caller fd src =>
      rw [PipeSystem.step, begin_table]
      exact used
  | pass caller =>
      rw [PipeSystem.step, PipeSystem.pass]
      split
      · exact used
      · rename_i call _
        by_cases here : slot = call.slot
        · subst here
          simp only [PipeTable.put_inUse_self]
          exact used
        · simp only [PipeTable.put_inUse_of_ne _ _ _ here]
          exact used
  | close fd =>
      rw [PipeSystem.step, close_table]
      cases target : fdToSlot fd with
      | none =>
          rw [PipeTable.close_none target]
          exact used
      | some closed =>
          have apart : slot ≠ closed := fun same => other fd rfl (by rw [target, same])
          rw [(PipeTable.close_frame s.table target apart).1]
          exact used
  | exit caller => exact absurd rfl (lives caller)

theorem Kept.close_last (kept : s.Kept) {fd : Int} (orderly : s.Orderly (.close fd)) {slot : Nat}
    (inside : slot < pipeMaxOpen) (used : s.table.inUse slot = true)
    (free : (s.close fd).table.inUse slot = false) :
    fdToSlot fd = some slot ∧
      ∀ side, side = endOf fd ∨ (s.table.pipes slot).isClosed side = true := by
  by_cases target : fdToSlot fd = some slot
  · refine ⟨target, ?_⟩
    have names : s.table.isPipe fd = true := (PipeTable.isPipe_iff target inside).trans used
    have isOpen := orderly.2 names slot target
    rw [close_table, PipeTable.close_used target inside used] at free
    split at free
    · rename_i last
      exact (kept.counts slot inside used).last isOpen.2.2 last
    · rw [PipeTable.put_inUse_self] at free
      exact absurd free.symm Bool.false_ne_true
  · have stays : (s.step (.close fd)).table.inUse slot = true := stays_used
      (fun other same here => target (by cases same; exact here))
      (fun _ impossible => by cases impossible) used
    rw [PipeSystem.step, free] at stays
    exact absurd stays Bool.false_ne_true

/-- A slot that a process that ends leaves free became free at one of its closes. -/
theorem closePipes_frees {slot : Nat} (used : s.table.inUse slot = true) (count : Nat)
    (free : (s.closePipes count).table.inUse slot = false) :
    ∃ n < count, (s.closePipes n).table.inUse slot = true ∧
      (s.closePipes (n + 1)).table.inUse slot = false := by
  induction count with
  | zero =>
      rw [closePipes, used] at free
      exact absurd free.symm Bool.false_ne_true
  | succ count known =>
      cases before : (s.closePipes count).table.inUse slot with
      | true => exact ⟨count, Nat.lt_succ_self count, before, free⟩
      | false =>
          rcases known before with ⟨n, below, found⟩
          exact ⟨n, Nat.lt_succ_of_lt below, found⟩

/-- Every close of an event is of an open end, in a state that counts its ends. -/
theorem closings_orderly (kept : s.Kept) {event : PipeEvent} (orderly : s.Orderly event)
    {before : PipeSystem} {fd : Int} (closes : (before, fd) ∈ s.closings event) :
    before.Kept ∧ before.Orderly (.close fd) := by
  cases event with
  | close descriptor =>
      cases List.mem_singleton.mp closes
      exact ⟨kept, orderly⟩
  | exit caller =>
      rcases List.mem_map.mp closes with ⟨n, below, same⟩
      cases same
      exact (closePipes_orderly kept orderly 16 (le_refl _)).2.2 n (List.mem_range.mp below)
  | create => cases closes
  | read caller descriptor len => cases closes
  | write caller descriptor src => cases closes
  | pass caller => cases closes

theorem Kept.released (kept : s.Kept) {event : PipeEvent} (orderly : s.Orderly event) (slot : Nat)
    (inside : slot < pipeMaxOpen) (used : s.table.inUse slot = true)
    (free : (s.step event).table.inUse slot = false) :
    ∃ before fd, (before, fd) ∈ s.closings event ∧ fdToSlot fd = some slot ∧
      before.table.inUse slot = true ∧
        ∀ side, side = endOf fd ∨ (before.table.pipes slot).isClosed side = true := by
  by_cases ends : ∃ caller, event = .exit caller
  · rcases ends with ⟨caller, rfl⟩
    rcases closePipes_frees used 32 free with ⟨n, below, still, freed⟩
    have listed : (s.closePipes n, pipeFdBase + (n : Int)) ∈ s.closings (.exit caller) :=
      List.mem_map.mpr ⟨n, List.mem_range.mpr below, rfl⟩
    have right := closings_orderly kept orderly listed
    rw [closePipes_succ s below] at freed
    have last := right.1.close_last right.2 inside still freed
    exact ⟨_, _, listed, last.1, still, last.2⟩
  · by_cases closes : ∃ fd, event = .close fd
    · rcases closes with ⟨fd, rfl⟩
      have last := kept.close_last orderly inside used free
      exact ⟨s, fd, List.mem_singleton.mpr rfl, last.1, used, last.2⟩
    · have stays : (s.step event).table.inUse slot = true :=
        stays_used (fun fd same _ => closes ⟨fd, same⟩) (fun caller same => ends ⟨caller, same⟩) used
      rw [free] at stays
      exact absurd stays Bool.false_ne_true

theorem begin_none (s : PipeSystem) (caller : Nat) (transfer : Transfer) :
    s.begin caller none transfer = s := by
  unfold PipeSystem.begin
  split
  · rename_i impossible
    cases impossible
  · rfl

theorem step_refused {event : PipeEvent} (orderly : s.Orderly event) {fd : Int}
    (about : event.descriptor = some fd) (nothing : s.table.isPipe fd = false) :
    s.step event = s ∧ withinTable fd := by
  have vfs := PipeTable.fdType_vfs nothing
  cases event with
  | create => cases about
  | read caller descriptor len =>
      cases about
      have refused : s.table.readSlot fd = none := by
        rw [PipeTable.readSlot, Option.filter_eq_none_iff]
        intro slot _
        simp only [vfs, reduceCtorEq, and_false, decide_false, Bool.false_eq_true, not_false_eq_true]
      rw [PipeSystem.step, refused, begin_none]
      exact ⟨rfl, orderly⟩
  | write caller descriptor src =>
      cases about
      have refused : s.table.writeSlot fd = none := by
        rw [PipeTable.writeSlot, Option.filter_eq_none_iff]
        intro slot _
        simp only [vfs, reduceCtorEq, false_and, and_false, decide_false, Bool.false_eq_true,
          not_false_eq_true]
      rw [PipeSystem.step, refused, begin_none]
      exact ⟨rfl, orderly⟩
  | pass caller => cases about
  | close descriptor =>
      cases about
      exact ⟨close_refused orderly.1 nothing, orderly.1⟩
  | exit caller => cases about

theorem close_twice {fd : Int} (orderly : s.Orderly (.close fd)) {slot : Nat}
    (target : fdToSlot fd = some slot) (notOpen : ¬s.table.EndOpen slot (endOf fd)) :
    s.close fd = s := by
  cases names : s.table.isPipe fd with
  | false => exact close_refused orderly.1 names
  | true => exact absurd (orderly.2 names slot target) notOpen

theorem Kept.lifetime (s : PipeSystem) (event : PipeEvent) (kept : s.Kept)
    (orderly : s.Orderly event) : s.Lifetime event where
  released := kept.released orderly
  twice := fun _ _ _ closes target notOpen =>
    close_twice (closings_orderly kept orderly closes).2 target notOpen
  same := fun caller call _ going => kept.calls caller call going
  refused := by
    intro fd about nothing
    have refused := step_refused orderly about nothing
    exact ⟨refused.1, fun slot target => fdToSlot_withinTable refused.2 target⟩

theorem init_kept (behind : Nat → Bool) : (init behind).Kept := by
  refine ⟨fun slot inside used => ?_, fun _ _ impossible => ?_⟩
  · simp only [init, inside, if_true, Bool.false_eq_true] at used
  · cases impossible

/-- In a run whose steps do not meet the defects every step is as promised. -/
theorem run_lifetime (behind : Nat → Bool) (events : List PipeEvent)
    (orderly : Machine.Always step Orderly (init behind) events) :
    Machine.Always step Lifetime (init behind) events :=
  Machine.Always.of_invariant Kept.step Kept.lifetime (init_kept behind) orderly

/-- A reader waits, the writer closes its end, and the reader finds the end of the file.  Another
pipe is closed when the process ends. -/
theorem run_lifetime_reader :
    Machine.Always step Lifetime (init fun _ => false)
      [.create, .create, .read 7 100 4, .pass 7, .close 101, .pass 7, .close 100, .exit 7] := by
  refine run_lifetime (fun _ => false) _ ⟨?_, ?_, ?_, trivial, ?_, trivial, ?_, ?_, trivial⟩
  · intro slot _ caller call impossible
    cases impossible
  · intro slot _ caller call impossible
    cases impossible
  · show (100 : Int) < _
    decide
  · refine ⟨by show (101 : Int) < _; decide, fun _ slot target => ?_⟩
    cases target
    exact ⟨by decide, by decide, by decide⟩
  · refine ⟨by show (100 : Int) < _; decide, fun _ slot target => ?_⟩
    cases target
    exact ⟨by decide, by decide, by decide⟩
  · unfold Orderly ReadersOpen
    decide +kernel

/-- Closing the reading end again takes the slot away from the writer. -/
theorem closedTwice_frees :
    ¬((init fun _ => false).run [.create, .close 100]).Lifetime (.close 100) := by
  intro lifetime
  have same := lifetime.twice _ 100 0 (List.mem_singleton.mpr rfl) rfl
    fun isOpen => absurd isOpen.2.2 (by decide)
  have used := congrArg (fun s => s.table.inUse 0) same
  exact absurd used (by decide)

end PipeSystem

end Trinux
