import Mathlib

namespace Trinux

/-!
# Programs that start programs

A program that runs another one does so inside its own system call: the kernel enters the
inner program from `elf_exec_argv_inner` and comes back there when the inner program ends.
The way back is one saved context for all of them.  The innermost program overwrites it when
it is entered and invalidates it when it ends.

A call of `elf_exec_argv_inner` is known by a number.  Jumping to a saved context is resuming
the call that saved it, behind the point where it entered its program.
-/

structure ElfJmp where
  valid : Bool
  frame : Nat
  exitCode : BitVec 32
  deriving DecidableEq

/-- A call that has entered its program and has not returned.  That its program has entered another
one, and so is not the innermost any more or was not once, is recorded beside it. -/
structure Invocation where
  call : Nat
  nested : Bool
  deriving DecidableEq

/-- The active calls, the innermost first, with `g_elf_jmp` and a record of the calls that a
program came back to and with which exit code. -/
structure Nesting where
  stack : List Invocation
  nextCall : Nat
  jmp : ElfJmp
  returned : List (Nat × BitVec 32)
  deriving DecidableEq

namespace Nesting

def init : Nesting := ⟨[], 0, ⟨false, 0, 0⟩, []⟩

def elfArmExitJmp (call : Nat) (n : Nesting) : Nesting :=
  { n with jmp := { n.jmp with valid := true, frame := call } }

def elfDisarmExitJmp (n : Nesting) : Nesting := { n with jmp := { n.jmp with valid := false } }

def markNested : List Invocation → List Invocation
  | [] => []
  | top :: rest => { top with nested := true } :: rest

/-- `elf_exec_argv`, up to the entry of the program.  A program that cannot be loaded is not
entered. -/
def elfExecArgv (loads : Bool) (n : Nesting) : Nesting :=
  if loads then
    elfArmExitJmp n.nextCall { n with
      stack := ⟨n.nextCall, false⟩ :: markNested n.stack
      nextCall := n.nextCall + 1 }
  else n

/-- The rest of the call that `elf_jmp_longjmp` resumes: it takes the exit code, invalidates the
context and returns to its caller.  The calls inside it are gone. -/
def elfJmpLongjmp (n : Nesting) : Nesting :=
  elfDisarmExitJmp { n with
    stack := (n.stack.dropWhile fun invocation => invocation.call ≠ n.jmp.frame).tail
    returned := n.returned ++ [(n.jmp.frame, n.jmp.exitCode)] }

/-- The end of a program: back to the saved context if it is valid, else to the scheduler. -/
def leave (code : BitVec 32) (n : Nesting) : Nesting :=
  if n.jmp.valid then elfJmpLongjmp { n with jmp := { n.jmp with exitCode := code, valid := false } }
  else n

def sysExit (code : BitVec 32) (n : Nesting) : Nesting := leave code n

def usermodeFaultKill (signalCode : BitVec 32) (n : Nesting) : Nesting := leave signalCode n

/-- The end of `syscall_handler` where a pending signal terminates the process. -/
def terminatePending (exitCode : BitVec 32) (n : Nesting) : Nesting := leave exitCode n

inductive Event where
  | exec (loads : Bool)
  | exit (code : BitVec 32)
  | fault (code : BitVec 32)
  | signal (code : BitVec 32)

def step (n : Nesting) : Event → Nesting
  | .exec loads => elfExecArgv loads n
  | .exit code => sysExit code n
  | .fault code => usermodeFaultKill code n
  | .signal code => terminatePending code n

def run (n : Nesting) (events : List Event) : Nesting := events.foldl step n

/-- The exit of the innermost program returns to the call that started it, with the exit code. -/
def ExitReturns (n : Nesting) (code : BitVec 32) : Prop :=
  ∀ top rest, n.stack = top :: rest →
    (sysExit code n).stack = rest ∧ (sysExit code n).returned = n.returned ++ [(top.call, code)]

/-- The saved context is that of the innermost program while it has entered no other one, and is
invalid from then on.  The programs further out have entered another one. -/
structure Disciplined (n : Nesting) : Prop where
  idle : n.stack = [] → n.jmp.valid = false
  valid : ∀ top rest, n.stack = top :: rest → n.jmp.valid = !top.nested
  frame : ∀ top rest, n.stack = top :: rest → n.jmp.valid = true → n.jmp.frame = top.call
  outer : ∀ top rest, n.stack = top :: rest → ∀ invocation ∈ rest, invocation.nested = true

section Steps

variable {n : Nesting}

theorem init_disciplined : init.Disciplined :=
  ⟨fun _ => rfl, fun _ _ empty => (List.cons_ne_nil _ _ empty.symm).elim,
    fun _ _ empty => (List.cons_ne_nil _ _ empty.symm).elim,
    fun _ _ empty => (List.cons_ne_nil _ _ empty.symm).elim⟩

/-- A valid context takes the innermost program out of the stack. -/
theorem leave_valid (disciplined : n.Disciplined) {code : BitVec 32} {top : Invocation}
    {rest : List Invocation} (running : n.stack = top :: rest) (valid : n.jmp.valid = true) :
    leave code n =
      { n with
        stack := rest
        jmp := ⟨false, n.jmp.frame, code⟩
        returned := n.returned ++ [(top.call, code)] } := by
  have frame := disciplined.frame top rest running valid
  have here : (top :: rest).dropWhile (fun invocation => invocation.call ≠ top.call) =
      top :: rest :=
    List.dropWhile_cons_of_neg (by simp only [ne_eq, not_true_eq_false, decide_false,
      Bool.false_eq_true, not_false_eq_true])
  rw [leave, if_pos valid, elfJmpLongjmp, elfDisarmExitJmp]
  simp only [running, frame, here, List.tail_cons]

theorem leave_invalid {code : BitVec 32} (invalid : n.jmp.valid = false) : leave code n = n := by
  rw [leave, if_neg (by rw [invalid]; exact Bool.false_ne_true)]

theorem Disciplined.leave (disciplined : n.Disciplined) (code : BitVec 32) :
    (n.leave code).Disciplined := by
  cases valid : n.jmp.valid with
  | false =>
      rw [leave_invalid valid]
      exact disciplined
  | true =>
      cases running : n.stack with
      | nil => exact absurd (valid.symm.trans (disciplined.idle running)) (by decide)
      | cons top rest =>
          have outer := disciplined.outer top rest running
          rw [leave_valid disciplined running valid]
          refine ⟨fun _ => rfl, ?_, fun _ _ _ impossible => ?_, ?_⟩
          · rintro next below rfl
            rw [outer next List.mem_cons_self]
            rfl
          · cases impossible
          · rintro next below rfl invocation member
            exact outer invocation (List.mem_cons_of_mem next member)

theorem Disciplined.exec (disciplined : n.Disciplined) (loads : Bool) :
    (n.elfExecArgv loads).Disciplined := by
  cases loads with
  | false => exact disciplined
  | true =>
      have outer : ∀ invocation ∈ markNested n.stack, invocation.nested = true := by
        intro invocation member
        cases running : n.stack with
        | nil =>
            rw [running] at member
            exact absurd member List.not_mem_nil
        | cons top rest =>
            rw [running, markNested] at member
            rcases List.mem_cons.mp member with rfl | below
            · rfl
            · exact disciplined.outer top rest running invocation below
      refine ⟨fun empty => (List.cons_ne_nil _ _ empty).elim, ?_, ?_, ?_⟩
      · rintro top rest started
        cases started
        rfl
      · rintro top rest started -
        cases started
        rfl
      · rintro top rest started
        cases started
        exact outer

theorem Disciplined.step (disciplined : n.Disciplined) (event : Event) :
    (n.step event).Disciplined := by
  cases event with
  | exec loads => exact disciplined.exec loads
  | exit code => exact disciplined.leave code
  | fault code => exact disciplined.leave code
  | signal code => exact disciplined.leave code

theorem Disciplined.run (disciplined : n.Disciplined) (events : List Event) :
    (n.run events).Disciplined := by
  induction events generalizing n with
  | nil => exact disciplined
  | cons event rest known => exact known (disciplined.step event)

/-- A program that has entered another one has lost its way back. -/
theorem Disciplined.exitReturns_iff (disciplined : n.Disciplined) (code : BitVec 32) :
    n.ExitReturns code ↔ ∀ top ∈ n.stack.head?, top.nested = false := by
  cases running : n.stack with
  | nil =>
      refine iff_of_true (fun top rest started => ?_) fun top member => ?_
      · rw [running] at started
        cases started
      · cases member
  | cons top rest =>
      have valid := disciplined.valid top rest running
      simp only [List.head?_cons, Option.mem_some_iff, forall_eq']
      cases nested : top.nested with
      | false =>
          rw [nested] at valid
          refine iff_of_true (fun first others started => ?_) rfl
          rw [running] at started
          cases started
          rw [sysExit, leave_valid disciplined running valid]
          exact ⟨rfl, rfl⟩
      | true =>
          rw [nested] at valid
          refine iff_of_false (fun returns => ?_) (by decide)
          have popped := (returns top rest running).1
          rw [sysExit, leave_invalid valid, running] at popped
          exact List.cons_ne_self top rest popped

end Steps

/-- After any events, the exit of the innermost program returns to the call that started it exactly
if that program has not entered another one. -/
theorem run_exitReturns_iff (events : List Event) (code : BitVec 32) :
    (init.run events).ExitReturns code ↔
      ∀ top ∈ (init.run events).stack.head?, top.nested = false :=
  (init_disciplined.run events).exitReturns_iff code

/-- An inner program exits, and the exit of the outer one does not return. -/
theorem outer_exit_lost :
    (init.run [.exec true, .exec true, .exit 0]).stack = [⟨0, true⟩] ∧
      ¬(init.run [.exec true, .exec true, .exit 0]).ExitReturns 0 :=
  ⟨by decide, fun returns => absurd (returns ⟨0, true⟩ [] (by decide)).1 (by decide)⟩

end Nesting

end Trinux
