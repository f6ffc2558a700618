import Trinux.Process.Signals

namespace Trinux

/-!
# Page faults of programs

The page fault handler marks the current process with a pending signal and returns.
The processor then continues with the context that it saved at the fault, which is that of
the faulting instruction, and neither the context nor the page tables have changed.
Pending signals are looked at by the system call handler only.

Contexts and page tables stay abstract: what matters is which of them the handler changes.
-/

inductive UserStep (Context : Type) where
  | next (context : Context)
  | systemCall (context : Context)
  | pageFault (address : UInt32)

/-- A program in user mode: the context of the processor, the memory with its page tables, and the
process table of the kernel. -/
structure UserMachine (Context Memory : Type) where
  context : Context
  memory : Memory
  table : ProcessTable

def pageFaultHandler (user : Bool) (t : ProcessTable) : Option ProcessTable :=
  if user then t.getCurrent.map fun p => (processSignal p.pid sigsegv t).2
  else none

section Execution

variable {Context Memory : Type}
variable (execute : Context → Memory → UserStep Context × Memory)
variable (syscallHandler : UserMachine Context Memory → Option (UserMachine Context Memory))

/-- One instruction of the program, with what the kernel does about it; `none` if the kernel does
not return to the program.  A fault leaves the context and the memory as they were before the
instruction. -/
def userStep (m : UserMachine Context Memory) : Option (UserMachine Context Memory) :=
  match execute m.context m.memory with
  | (.next context, memory) => some { m with context := context, memory := memory }
  | (.systemCall context, memory) =>
      syscallHandler { m with context := context, memory := memory }
  | (.pageFault _, _) => (pageFaultHandler true m.table).map fun table => { m with table := table }

def userRun : Nat → UserMachine Context Memory → Option (UserMachine Context Memory)
  | 0, m => some m
  | n + 1, m => (userStep execute syscallHandler m).bind (userRun n)

def AtFault (m : UserMachine Context Memory) : Prop :=
  ∃ address memory, execute m.context m.memory = (.pageFault address, memory)

/-- A fault is the last thing that the program does: the handler does not return to the faulting
instruction with the fault unchanged, and the program is stopped without a system call. -/
structure Contained (m : UserMachine Context Memory) : Prop where
  noReturn : ∀ m', userStep execute syscallHandler m = some m' →
    ¬(m'.context = m.context ∧ m'.memory = m.memory)
  stops : ∃ n, userRun execute syscallHandler n m = none

variable {execute} {m : UserMachine Context Memory}

theorem userStep_fault (faults : AtFault execute m) :
    userStep execute syscallHandler m =
      (pageFaultHandler true m.table).map fun table => { m with table := table } := by
  rcases faults with ⟨address, memory, executed⟩
  rw [userStep, executed]

/-- Marking a process leaves the current one in its slot. -/
theorem processSignal_current (pid : UInt32) (sig : Int) {t : ProcessTable} {p : Process}
    (current : t.getCurrent = some p) :
    ∃ q, (processSignal pid sig t).2.getCurrent = some q ∧ q.state = p.state := by
  rcases Option.bind_eq_some_iff.mp current with ⟨i, isCurrent, held⟩
  rw [processSignal]
  split
  · exact ⟨p, current, rfl⟩
  · rename_i j _
    rw [ProcessTable.getCurrent, ProcessTable.modify_current, isCurrent, Option.bind_some]
    by_cases here : i = j
    · subst here
      rw [ProcessTable.at?_modify_self, held]
      exact ⟨_, rfl, rfl⟩
    · rw [ProcessTable.at?_modify_of_ne t _ here, held]
      exact ⟨p, rfl, rfl⟩

/-- The handler returns to the faulting instruction, with nothing changed but a pending signal. -/
theorem userStep_refaults {p : Process} (faults : AtFault execute m)
    (current : m.table.getCurrent = some p) :
    ∃ table q, userStep execute syscallHandler m = some { m with table := table } ∧
      table.getCurrent = some q ∧ q.state = p.state := by
  rcases processSignal_current p.pid sigsegv current with ⟨q, still, same⟩
  refine ⟨_, q, ?_, still, same⟩
  rw [userStep_fault syscallHandler faults, pageFaultHandler, if_pos rfl, current]
  rfl

/-- A program with a process faults again and again, and its process never ends. -/
theorem userRun_refaults (n : Nat) {p : Process} (faults : AtFault execute m)
    (current : m.table.getCurrent = some p) :
    ∃ table q, userRun execute syscallHandler n m = some { m with table := table } ∧
      table.getCurrent = some q ∧ q.state = p.state := by
  induction n generalizing m p with
  | zero => exact ⟨m.table, p, rfl, current, rfl⟩
  | succ n known =>
      rcases userStep_refaults syscallHandler faults current with
        ⟨table, q, stepped, still, same⟩
      rcases known (show AtFault execute { m with table := table } from faults) still with
        ⟨final, r, ran, last, sameLast⟩
      exact ⟨final, r, by rw [userRun, stepped, Option.bind_some, ran], last, sameLast.trans same⟩

/-- A fault stops the program only where there is no current process and the kernel panics. -/
theorem pageFault_contained_iff (faults : AtFault execute m) :
    Contained execute syscallHandler m ↔ m.table.getCurrent = none := by
  cases current : m.table.getCurrent with
  | none =>
      have panics : userStep execute syscallHandler m = none := by
        rw [userStep_fault syscallHandler faults, pageFaultHandler, if_pos rfl, current]
        rfl
      have stops : userRun execute syscallHandler 1 m = none := by
        rw [userRun, panics]
        rfl
      refine iff_of_true ⟨fun m' returned => ?_, 1, stops⟩ rfl
      rw [panics] at returned
      cases returned
  | some p =>
      refine iff_of_false (fun contained => ?_) (Option.some_ne_none p)
      rcases contained.stops with ⟨n, stopped⟩
      rcases userRun_refaults syscallHandler n faults current with
        ⟨table, _, ran, _⟩
      rw [ran] at stopped
      cases stopped

end Execution

/-! ## A program that reads through the null pointer -/

/-- The second instruction of the program reads an address that is not mapped. -/
def nullReader (eip : Nat) (memory : Unit) : UserStep Nat × Unit :=
  if eip = 1 then (.pageFault 0, memory) else (.next (eip + 1), memory)

def nullReaderStopped : UserMachine Nat Unit := ⟨1, (), oneProgram.setCurrent (some 4)⟩

/-- No handler, and so no system call, stops the program. -/
theorem nullReader_not_contained :
    AtFault nullReader nullReaderStopped ∧
      ∀ syscallHandler, ¬Contained nullReader syscallHandler nullReaderStopped := by
  have faults : AtFault nullReader nullReaderStopped := ⟨0, (), rfl⟩
  refine ⟨faults, fun syscallHandler contained => ?_⟩
  rcases contained.stops with ⟨n, stopped⟩
  have current : ∃ p, nullReaderStopped.table.getCurrent = some p := ⟨_, rfl⟩
  rcases current with ⟨p, isCurrent⟩
  rcases userRun_refaults syscallHandler n faults isCurrent with ⟨table, _, ran, _⟩
  rw [ran] at stopped
  cases stopped

theorem pageFault_contained_iff_nullReader :
    AtFault nullReader nullReaderStopped ∧
      (Contained nullReader (fun _ => none) nullReaderStopped ↔
        nullReaderStopped.table.getCurrent = none) :=
  ⟨⟨0, (), rfl⟩, pageFault_contained_iff (fun _ => none) ⟨0, (), rfl⟩⟩

end Trinux
