import Trinux.Fs.PipeCalls

namespace Trinux

/-!
# The order of the bytes of a pipe

Whoever reads from a pipe and whoever writes to it, and however their calls interleave, the bytes
that went in are those that came out, followed by those that wait in the ring.
-/

namespace Pipe

variable {p : Pipe} {waiting : List UInt8}

/-- A pass of a reader takes the bytes that wait from the front. -/
theorem Holds.readPass (holds : p.Holds waiting) (len got : Nat) :
    ∃ left, waiting = (p.readPass len got).2.1 ++ left ∧ (p.readPass len got).2.2.Holds left := by
  rw [Pipe.readPass]
  split
  · split
    · exact ⟨waiting, rfl, holds⟩
    · have enough : min p.used.toNat (len - got) ≤ waiting.length := by
        rw [holds.used]
        exact Nat.min_le_left _ _
      have taken := holds.takeBytes _ enough
      refine ⟨waiting.drop (min p.used.toNat (len - got)), ?_, taken.2⟩
      rw [taken.1, List.take_append_drop]
  · exact ⟨waiting, rfl, holds⟩

/-- A reader that finds the end of the file finds nothing that waits. -/
theorem Holds.eof (holds : p.Holds waiting) {len got : Nat}
    (ended : (p.readPass len got).1 = .eof) : waiting = [] := by
  rw [Pipe.readPass] at ended
  split at ended
  · split at ended
    · rename_i empty
      have none := holds.used
      rw [empty] at none
      exact List.length_eq_zero_iff.mp none.symm
    · cases ended
  · cases ended

theorem Holds.room (holds : p.Holds waiting) :
    (4096 - p.used).toNat = pipeBufSize - waiting.length := by
  have fits := holds.ring.fits
  rw [UInt32.toNat_sub_of_le _ _ (by rw [UInt32.le_iff_toNat_le, holds.used]; exact fits),
    holds.used]
  rfl

/-- A pass of a writer puts its bytes behind those that wait. -/
theorem Holds.writePass (holds : p.Holds waiting) (src : List UInt8) (sent : Nat) :
    (p.writePass src sent).2.2.Holds (waiting ++ (p.writePass src sent).2.1) := by
  have fits := holds.ring.fits
  rw [Pipe.writePass]
  split
  · split
    · rw [List.append_nil]
      exact holds
    · refine holds.putBytes _ ?_
      have short : min (src.length - sent) (4096 - p.used).toNat ≤ pipeBufSize - waiting.length :=
        (Nat.min_le_right _ _).trans holds.room.le
      rw [List.length_take]
      omega
  · rw [List.append_nil]
    exact holds

end Pipe

namespace PipeSystem

/-- The bytes that went into the pipe of a slot are those that came out, and those that wait. -/
def Flows (s : PipeSystem) (slot : Nat) : Prop :=
  ∃ waiting, s.accepted slot = s.returned slot ++ waiting ∧ (s.table.pipes slot).Holds waiting

theorem flows_of_empty {s : PipeSystem} {slot : Nat} (accepted : s.accepted slot = [])
    (returned : s.returned slot = []) (empty : (s.table.pipes slot).Holds []) : s.Flows slot :=
  ⟨[], by rw [accepted, returned, List.nil_append], empty⟩

theorem Flows.congr {s s' : PipeSystem} {slot : Nat} (flows : s.Flows slot)
    (accepted : s'.accepted slot = s.accepted slot)
    (returned : s'.returned slot = s.returned slot)
    (ring : ∀ waiting, (s.table.pipes slot).Holds waiting → (s'.table.pipes slot).Holds waiting) :
    s'.Flows slot := by
  rcases flows with ⟨waiting, order, holds⟩
  exact ⟨waiting, by rw [accepted, returned, order], ring waiting holds⟩

variable {s : PipeSystem} {slot : Nat}

theorem Flows.create (flows : s.Flows slot) : s.create.Flows slot := by
  rw [PipeSystem.create]
  cases free : s.table.freeSlot with
  | none => exact flows
  | some taken =>
      simp only [PipeTable.create_of_freeSlot free]
      by_cases here : slot = taken
      · subst here
        refine flows_of_empty (Function.update_self _ _ _) (Function.update_self _ _ _) ?_
        rw [PipeTable.put_pipes_self]
        exact ⟨Pipe.zero_holds.ring, Pipe.zero_holds.tail, Pipe.zero_holds.used⟩
      · refine flows.congr (Function.update_of_ne here _ _) (Function.update_of_ne here _ _) ?_
        intro waiting holds
        rw [PipeTable.put_pipes_of_ne _ _ _ here]
        exact holds

theorem Flows.begin (flows : s.Flows slot) (caller : Nat) (target : Option Nat)
    (transfer : Transfer) : (s.begin caller target transfer).Flows slot := by
  unfold PipeSystem.begin
  split
  · exact flows.congr rfl rfl fun _ holds => holds
  · exact flows

theorem Flows.pass (flows : s.Flows slot) (caller : Nat) : (s.pass caller).Flows slot := by
  rw [PipeSystem.pass]
  cases working : s.calls caller with
  | none => exact flows
  | some call =>
      by_cases here : slot = call.slot
      · subst here
        rcases flows with ⟨waiting, order, holds⟩
        cases wants : call.transfer with
        | read len got =>
            rcases holds.readPass len got with ⟨left, taken, holdsLeft⟩
            refine ⟨left, ?_, ?_⟩
            · simp only [PipeSystem.passOf, wants, Function.update_self]
              rw [order, List.append_assoc, ← taken]
            · simp only [PipeSystem.passOf, wants, PipeTable.put_pipes_self]
              exact holdsLeft
        | write src sent =>
            refine ⟨waiting ++ ((s.table.pipes call.slot).writePass src sent).2.1, ?_, ?_⟩
            · simp only [PipeSystem.passOf, wants, Function.update_self]
              rw [order, List.append_assoc]
            · simp only [PipeSystem.passOf, wants, PipeTable.put_pipes_self]
              exact holds.writePass src sent
      · refine flows.congr ?_ ?_ ?_
        · cases wants : call.transfer with
          | read len got => simp only [wants]
          | write src sent => simp only [wants, Function.update_of_ne here]
        · cases wants : call.transfer with
          | read len got => simp only [wants, Function.update_of_ne here]
          | write src sent => simp only [wants]
        · intro waiting holds
          simp only [PipeTable.put_pipes_of_ne _ _ _ here]
          exact holds

theorem closeEnd_holds {p : Pipe} {waiting : List UInt8} (holds : p.Holds waiting)
    (side : PipeEnd) : (p.closeEnd side).Holds waiting := by
  cases side with
  | read => exact ⟨holds.ring, holds.tail, holds.used⟩
  | write => exact ⟨holds.ring, holds.tail, holds.used⟩

/-- Closing a descriptor leaves the ring of its slot as it is, or frees the slot. -/
theorem close_ring (t : PipeTable) {fd : Int} (here : fdToSlot fd = some slot) :
    (t.inUse slot = true ∧ (t.close fd).inUse slot = false ∧
        (t.close fd).pipes slot = Pipe.zero) ∨
      ¬(t.inUse slot = true ∧ (t.close fd).inUse slot = false) ∧
        ∀ waiting, (t.pipes slot).Holds waiting → ((t.close fd).pipes slot).Holds waiting := by
  rw [PipeTable.close, here]
  cases used : t.inUse slot with
  | false =>
      refine Or.inr ⟨fun both => Bool.false_ne_true both.1, fun waiting holds => ?_⟩
      simp only [used, Bool.false_eq_true, if_false]
      exact holds
  | true =>
      generalize (if t.fdType fd = .pipeR then PipeEnd.read else PipeEnd.write) = side
      simp only [used, if_true]
      by_cases last : ((t.pipes slot).closeEnd side).refcount ≤ 0
      · simp only [if_pos last, PipeTable.put_inUse_self, PipeTable.put_pipes_self]
        exact Or.inl ⟨trivial, trivial, trivial⟩
      · simp only [if_neg last, PipeTable.put_inUse_self, PipeTable.put_pipes_self]
        exact Or.inr ⟨fun both => Bool.false_ne_true both.2.symm,
          fun waiting holds => closeEnd_holds holds side⟩

theorem Flows.close (flows : s.Flows slot) (fd : Int) : (s.close fd).Flows slot := by
  rw [PipeSystem.close]
  cases target : fdToSlot fd with
  | none => exact flows
  | some closed =>
      by_cases here : slot = closed
      · subst here
        rcases close_ring s.table target with ⟨used, free, empty⟩ | ⟨stays, ring⟩
        · simp only [if_pos (And.intro used free)]
          refine flows_of_empty (Function.update_self _ _ _) (Function.update_self _ _ _) ?_
          rw [empty]
          exact Pipe.zero_holds
        · simp only [if_neg stays]
          exact flows.congr rfl rfl ring
      · have frame := PipeTable.close_frame s.table target here
        have ring : ∀ waiting, (s.table.pipes slot).Holds waiting →
            ((s.table.close fd).pipes slot).Holds waiting := by
          intro waiting holds
          rw [frame.2]
          exact holds
        by_cases frees : s.table.inUse closed = true ∧ (s.table.close fd).inUse closed = false
        · simp only [if_pos frees]
          exact flows.congr (Function.update_of_ne here _ _) (Function.update_of_ne here _ _) ring
        · simp only [if_neg frees]
          exact flows.congr rfl rfl ring

theorem Flows.closePipes (flows : s.Flows slot) (n : Nat) : (s.closePipes n).Flows slot := by
  induction n with
  | zero => exact flows
  | succ n earlier =>
      rw [PipeSystem.closePipes]
      split
      · exact earlier.close _
      · exact earlier

theorem flows_step (slot : Nat) (s : PipeSystem) (event : PipeEvent) (flows : s.Flows slot) :
    (s.step event).Flows slot := by
  cases event with
  | create => exact flows.create
  | read caller fd len => exact flows.begin caller _ _
  | write caller fd src => exact flows.begin caller _ _
  | pass caller => exact flows.pass caller
  | close fd => exact flows.close fd
  | exit caller => exact (flows.closePipes 32).congr rfl rfl fun _ holds => holds

theorem init_flows (behind : Nat → Bool) (slot : Nat) : (init behind).Flows slot :=
  flows_of_empty rfl rfl Pipe.zero_holds

theorem Flows.fifo (flows : s.Flows slot) : s.Fifo slot := by
  rcases flows with ⟨waiting, order, holds⟩
  refine ⟨?_, ?_, ?_, ?_⟩
  · exact ⟨waiting, order.symm⟩
  · rw [holds.used]
    exact holds.ring.fits
  · rw [holds.used, holds.tail]
  · intro caller call len got _ here wants ended
    rw [PipeSystem.passOf, wants, here] at ended
    rw [order, holds.eof ended, List.append_nil]

/-- After any events, what came out of a pipe is a beginning of what went in, and all of it when
the end of the file is found. -/
theorem run_fifo (behind : Nat → Bool) (events : List PipeEvent) (slot : Nat) :
    ((init behind).run events).Fifo slot :=
  (Machine.after_invariant (flows_step slot) (init_flows behind slot) events).fifo

/-- A call waits only if it has to: a reader that waits has everything that went in, and a writer
that waits has left no room. -/
def WaitsRightly (s : PipeSystem) : Prop :=
  ∀ caller call, s.calls caller = some call → (s.passOf call).1 = .wait →
    match call.transfer with
    | .read _ _ => s.returned call.slot = s.accepted call.slot
    | .write _ _ => (s.accepted call.slot).length = (s.returned call.slot).length + pipeBufSize

theorem WaitsRightly.of_flows {s : PipeSystem} (flows : ∀ slot, s.Flows slot) : s.WaitsRightly := by
  rintro caller ⟨slot, generation, transfer⟩ - waits
  rcases flows slot with ⟨waiting, order, holds⟩
  have used := holds.used
  unfold passOf at waits
  cases transfer with
  | read len got =>
      dsimp only [Pipe.readPass] at waits ⊢
      split_ifs at waits with short empty
      rw [empty] at used
      rw [order, List.length_eq_zero_iff.mp used.symm, List.append_nil]
  | write src sent =>
      dsimp only [Pipe.writePass] at waits ⊢
      split_ifs at waits with short full
      rw [full] at used
      rw [order, List.length_append, ← used]
      rfl

/-- After any events, calls wait only if they have to, so that a reader and a writer of one pipe
never wait for each other. -/
theorem run_waitsRightly (behind : Nat → Bool) (events : List PipeEvent) :
    ((init behind).run events).WaitsRightly :=
  .of_flows fun slot => Machine.after_invariant (flows_step slot) (init_flows behind slot) events

end PipeSystem

end Trinux
