import Trinux.Process.Exit
import Trinux.Process.Signals

namespace Trinux

/-!
# Wait statuses

`process_waitpid` stores the exit code of the child as it is.  The macros of the user
library read the low seven bits as a signal and the byte above the low one as an exit code,
so only a few exit codes come out right.  A process that is killed keeps the exit code that
it had before.
-/

/-! ## The macros of the user library -/

def wifExited (status : BitVec 32) : Prop := status &&& 0x7f = 0

instance (status : BitVec 32) : Decidable (wifExited status) :=
  inferInstanceAs (Decidable (_ = _))

def wExitStatus (status : BitVec 32) : BitVec 32 := status.sshiftRight 8 &&& 0xff

def wifSignaled (status : BitVec 32) : Prop := status &&& 0x7f ≠ 0

instance (status : BitVec 32) : Decidable (wifSignaled status) :=
  inferInstanceAs (Decidable (_ ≠ _))

def wTermSig (status : BitVec 32) : BitVec 32 := status &&& 0x7f

structure SaysExited (code status : BitVec 32) : Prop where
  exited : wifExited status
  code : wExitStatus status = code % 256
  notSignaled : ¬wifSignaled status

structure SaysSignaled (sig : Int) (status : BitVec 32) : Prop where
  signaled : wifSignaled status
  signal : (wTermSig status).toInt = sig
  notExited : ¬wifExited status

theorem and_127_toNat (status : BitVec 32) : (status &&& 0x7f).toNat = status.toNat % 128 := by
  rw [BitVec.toNat_and]
  exact Nat.and_two_pow_sub_one_eq_mod status.toNat 7

theorem and_65535_toNat (status : BitVec 32) :
    (status &&& 0xffff).toNat = status.toNat % 65536 := by
  rw [BitVec.toNat_and]
  exact Nat.and_two_pow_sub_one_eq_mod status.toNat 16

theorem wExitStatus_toNat (status : BitVec 32) :
    (wExitStatus status).toNat = status.toNat / 256 % 256 := by
  have unsigned : wExitStatus status = status >>> 8 &&& 0xff := by
    apply BitVec.eq_of_getLsbD_eq
    intro i inside
    rw [wExitStatus, BitVec.getLsbD_and, BitVec.getLsbD_and]
    by_cases low : i < 8
    · rw [BitVec.getLsbD_sshiftRight, BitVec.getLsbD_ushiftRight]
      have within : 8 + i < 32 := by omega
      simp only [within, if_true, not_le.mpr inside, decide_false, Bool.not_false, Bool.true_and]
    · have high : (0xff : BitVec 32).getLsbD i = false := by
        interval_cases i <;> rfl
      rw [high, Bool.and_false, Bool.and_false]
  rw [unsigned, BitVec.toNat_and, BitVec.toNat_ushiftRight, Nat.shiftRight_eq_div_pow]
  exact Nat.and_two_pow_sub_one_eq_mod (status.toNat / 2 ^ 8) 8

/-- An exit code that is stored as it is comes out right if its low sixteen bits are zero, or are the
same byte twice with only its highest bit set. -/
theorem saysExited_self_iff (code : BitVec 32) :
    SaysExited code code ↔ code &&& 0xffff = 0 ∨ code &&& 0xffff = 0x8080 := by
  have low : wifExited code ↔ code.toNat % 128 = 0 := by
    rw [wifExited, ← BitVec.toNat_inj, and_127_toNat]
    rfl
  have byte : wExitStatus code = code % 256 ↔ code.toNat / 256 % 256 = code.toNat % 256 := by
    rw [← BitVec.toNat_inj, wExitStatus_toNat, BitVec.toNat_umod]
    rfl
  have split : SaysExited code code ↔ wifExited code ∧ wExitStatus code = code % 256 :=
    ⟨fun told => ⟨told.exited, told.code⟩,
      fun both => ⟨both.1, both.2, fun signaled => signaled both.1⟩⟩
  rw [split, low, byte, ← BitVec.toNat_inj, ← BitVec.toNat_inj, and_65535_toNat]
  change _ ↔ code.toNat % 65536 = 0 ∨ code.toNat % 65536 = 32896
  have bytes : code.toNat % 65536 = code.toNat % 256 + 256 * (code.toNat / 256 % 256) :=
    (Nat.mod_mul : code.toNat % (256 * 256) = _)
  have first : code.toNat % 128 = code.toNat % 256 % 128 := by omega
  rw [bytes, first]
  have low_lt := Nat.mod_lt code.toNat (show 256 > 0 by decide)
  have high_lt := Nat.mod_lt (code.toNat / 256) (show 256 > 0 by decide)
  generalize code.toNat % 256 = lowByte at low_lt ⊢
  generalize code.toNat / 256 % 256 = highByte at high_lt ⊢
  omega

theorem saysSignaled_default {sig : Int} (positive : 0 < sig) (small : sig < nsig) :
    SaysSignaled sig (BitVec.ofInt 32 (128 + sig)) := by
  rw [nsig] at small
  refine ⟨?_, ?_, ?_⟩
  · rw [wifSignaled]
    interval_cases sig <;> decide
  · rw [wTermSig]
    interval_cases sig <;> decide
  · rw [wifExited]
    interval_cases sig <;> decide

theorem saysSignaled_kill_iff {sig : Int} (fatal : sig = sigkill ∨ sig = sigterm)
    (status : BitVec 32) : SaysSignaled sig status ↔ status &&& 0x7f = BitVec.ofInt 32 sig := by
  have number : (BitVec.ofInt 32 sig).toInt = sig ∧ BitVec.ofInt 32 sig ≠ 0 := by
    rcases fatal with rfl | rfl <;> decide
  constructor
  · intro told
    apply BitVec.eq_of_toInt_eq
    rw [number.1]
    exact told.signal
  · intro same
    have nonzero : status &&& 0x7f ≠ 0 := by
      rw [same]
      exact number.2
    exact ⟨nonzero, by rw [wTermSig, same, number.1], nonzero⟩

/-! ## Deaths -/

/-- A way for a process to die: `SYS_EXIT` with a code, the default action of a signal, or
`SYS_KILL` with a signal that kills at once. -/
inductive Death where
  | exit (code : BitVec 32)
  | signal (sig : Int)
  | kill (sig : Int)
  deriving DecidableEq

namespace Death

def apply (pid : UInt32) (t : ProcessTable) : Death → ProcessTable
  | .exit code => processExit code t
  | .signal sig => (processDeliverSignal sig t).2
  | .kill _ => (processKill pid t).2

def Possible (t : ProcessTable) (i : Nat) (p : Process) : Death → Prop
  | .exit _ => t.current = some i
  | .signal sig => t.current = some i ∧ p.Terminates sig
  | .kill sig => (sig = sigkill ∨ sig = sigterm) ∧ p.pid ≠ 1 ∧ t.get p.pid = some i

def Encoded (status : BitVec 32) : Death → Prop
  | .exit code => SaysExited code status
  | .signal sig => SaysSignaled sig status
  | .kill sig => SaysSignaled sig status

/-- The deaths that the macros get right.  The exit code that a killed process had is zero, which is
no signal. -/
def ComesOut (p : Process) : Death → Prop
  | .exit code => code &&& 0xffff = 0 ∨ code &&& 0xffff = 0x8080
  | .signal _ => True
  | .kill sig => p.exitCode &&& 0x7f = BitVec.ofInt 32 sig

def exitCode (p : Process) : Death → BitVec 32
  | .exit code => code
  | .signal sig => BitVec.ofInt 32 (128 + sig)
  | .kill _ => p.exitCode

end Death

section Status

variable {t t' : ProcessTable} {i : Nat} {p : Process} {death : Death}

/-- A death leaves its exit code in the slot of the process. -/
theorem Death.apply_slot (held : t.at? i = some p) (possible : death.Possible t i p) :
    ∃ q, (death.apply p.pid t).at? i = some q ∧ q.pid = p.pid ∧ q.exitCode = death.exitCode p := by
  cases death with
  | exit code =>
      rcases (processExit_slotwise code possible held).slot i p held with ⟨q, heldLast, after⟩
      exact ⟨q, heldLast, after.pid, after.exitCode.trans (if_pos rfl)⟩
  | signal sig =>
      rcases possible with ⟨current, positive, small, default, notChild⟩
      have process : t.getCurrent = some p := by
        rw [ProcessTable.getCurrent, current]
        exact held
      have outside : ¬(sig ≤ 0 ∨ nsig ≤ sig) := by
        rw [not_or, not_le, not_le]
        exact ⟨positive, small⟩
      refine ⟨p.terminate sig, ?_, rfl, rfl⟩
      rw [Death.apply, processDeliverSignal, current, process]
      simp only [if_neg outside, default, ne_eq, not_true_eq_false, if_false,
        if_neg notChild]
      rw [if_neg (by decide), ProcessTable.at?_modify_self, held, Option.map_some]
  | kill sig =>
      rcases possible with ⟨-, notFirst, found⟩
      refine ⟨{ p with state := .zombie }, ?_, rfl, rfl⟩
      rw [Death.apply, processKill, if_neg notFirst, found]
      exact (t.at?_modify_self i _).trans (by rw [held, Option.map_some])

/-- The status that is reported for a child decodes to the way in which it died exactly for every
default action of a signal and for the exit codes that survive the macros. -/
theorem waitStatus_encoded_iff (held : t.at? i = some p) (possible : death.Possible t i p)
    (kept : ∀ q, (death.apply p.pid t).at? i = some q → ∃ r, t'.at? i = some r ∧ q.SameLife r)
    (alone : ∀ j q, t'.at? j = some q → q.pid = p.pid → j = i)
    {pid : Int} {options : UInt32} {status : BitVec 32}
    (reported : processWaitpid pid options t' = some (.reported p.pid status)) :
    death.Encoded status ↔ death.ComesOut p := by
  have stored : status = death.exitCode p := by
    rcases Death.apply_slot held possible with ⟨q, dead, samePid, sameCode⟩
    rcases kept q dead with ⟨r, later, same⟩
    rcases processWaitpid_reported reported with ⟨me, child, -, isChild, code, found⟩
    rcases List.mem_iff_getElem?.mp (List.mem_of_find?_eq_some found) with ⟨j, there⟩
    have here := alone j child there isChild
    rw [here, ← ProcessTable.at?, later, Option.some_inj] at there
    rw [← code, ← there, same.exitCode, sameCode]
  rw [stored]
  cases death with
  | exit code => exact saysExited_self_iff code
  | signal sig => exact iff_of_true (saysSignaled_default possible.2.1 possible.2.2.1) trivial
  | kill sig => exact saysSignaled_kill_iff possible.1 p.exitCode

end Status

/-! ## A child of `init` -/

def exitedProgram (code : BitVec 32) : ProcessTable :=
  (processExit code (oneProgram.setCurrent (some 4))).setCurrent (some 0)

theorem exit_one_misreported :
    processWaitpid (-1) 0 (exitedProgram 1) = some (.reported 5 1) ∧
      ¬(Death.exit 1).Encoded 1 ∧ wifSignaled 1 ∧ wTermSig 1 = 1 :=
  ⟨by decide, fun told => absurd told.exited (by decide), by decide, by decide⟩

theorem waitStatus_encoded_iff_exit_zero :
    ∃ p, (oneProgram.setCurrent (some 4)).at? 4 = some p ∧
      processWaitpid (-1) 0 (exitedProgram 0) = some (.reported p.pid 0) ∧
      ((Death.exit 0).Encoded 0 ↔ (Death.exit 0).ComesOut p) := by
  have held : ∃ p, (oneProgram.setCurrent (some 4)).at? 4 = some p ∧ p.pid = 5 := ⟨_, rfl, rfl⟩
  rcases held with ⟨p, held, number⟩
  have alone : ∀ j q, (exitedProgram 0).at? j = some q → q.pid = p.pid → j = 4 := by
    intro j q there same
    have distinct : ((exitedProgram 0).slots.map Process.pid).Nodup := by decide
    have five : ((exitedProgram 0).slots.map Process.pid)[4]? = some 5 := by decide
    have here : ((exitedProgram 0).slots.map Process.pid)[j]? = some 5 := by
      rw [ProcessTable.at?] at there
      rw [List.getElem?_map, there, Option.map_some, same, number]
    rcases List.getElem?_eq_some_iff.mp here with ⟨inside, -⟩
    exact (List.getElem?_inj inside distinct).mp (here.trans five.symm)
  have reported : processWaitpid (-1) 0 (exitedProgram 0) = some (.reported p.pid 0) := by
    rw [number]
    decide
  have possible : (Death.exit 0).Possible (oneProgram.setCurrent (some 4)) 4 p := rfl
  have kept : ∀ q, ((Death.exit 0).apply p.pid (oneProgram.setCurrent (some 4))).at? 4 = some q →
      ∃ r, (exitedProgram 0).at? 4 = some r ∧ q.SameLife r :=
    fun q dead => ⟨q, dead, Process.SameLife.refl q⟩
  exact ⟨p, held, reported, waitStatus_encoded_iff held possible kept alone reported⟩

end Trinux
