import Mathlib
import Trinux.Fs.Node

namespace Trinux

/-!
# The process table

Processes live in a static array of which a growing prefix is in use.  A process that
ends stays in its slot as a zombie until `process_create` takes the slot again; it
always takes the first zombie there is.

The table is the list of the slots in use.  Pointers to processes are slot indices, and
`current` is one of them.  Fields that only the scheduler's accounting and the context
switch use are left out.
-/

inductive ProcState where
  | running
  | ready
  | sleeping
  | zombie
  deriving DecidableEq, Repr

def maxProcesses : Nat := 128

def procNameMax : Nat := 32

def prioDefault : Int := 0

def prioIdle : Int := 100

def sigint : Int := 2

def sigkill : Int := 9

def sigsegv : Int := 11

def sigpipe : Int := 13

def sigterm : Int := 15

def sigchld : Int := 17

def nsig : Int := 32

def sigDfl : UInt32 := 0

def sigIgn : UInt32 := 1

structure Process where
  pid : UInt32
  name : List UInt8
  state : ProcState
  pageDir : UInt32
  cwd : List UInt8
  exitCode : BitVec 32
  kstack : UInt32
  priority : Int
  signalPending : Int
  signaled : Bool
  sigHandlers : Nat → UInt32
  parentPid : UInt32
  heapStart : UInt32
  heapBrk : UInt32

structure ProcessTable where
  slots : List Process
  nextPid : UInt32
  current : Option Nat
  nextPriorityHint : Option Int

def Process.Live (p : Process) : Prop := p.state ≠ .zombie

instance (p : Process) : Decidable p.Live := inferInstanceAs (Decidable (p.state ≠ .zombie))

def Process.zero : Process where
  pid := 0
  name := []
  state := .running
  pageDir := 0
  cwd := []
  exitCode := 0
  kstack := 0
  priority := 0
  signalPending := 0
  signaled := false
  sigHandlers := fun _ => sigDfl
  parentPid := 0
  heapStart := 0
  heapBrk := 0

namespace ProcessTable

def modify (t : ProcessTable) (i : Nat) (change : Process → Process) : ProcessTable :=
  { t with slots := t.slots.modify i change }

def at? (t : ProcessTable) (i : Nat) : Option Process := t.slots[i]?

def getCurrent (t : ProcessTable) : Option Process := t.current.bind t.at?

/-- `process_get`: the first slot of a process that has the number and has not ended. -/
def get (t : ProcessTable) (pid : UInt32) : Option Nat :=
  t.slots.findIdx? fun p => p.pid = pid ∧ p.state ≠ .zombie

def setCurrent (t : ProcessTable) (i : Option Nat) : ProcessTable := { t with current := i }

@[simp] theorem at?_modify_self (t : ProcessTable) (i : Nat) (change : Process → Process) :
    (t.modify i change).at? i = (t.at? i).map change := by
  simp [modify, at?]

theorem at?_modify_of_ne (t : ProcessTable) {i j : Nat} (change : Process → Process)
    (different : j ≠ i) : (t.modify i change).at? j = t.at? j := by
  simp [modify, at?, Ne.symm different]

@[simp] theorem modify_current (t : ProcessTable) (i : Nat) (change : Process → Process) :
    (t.modify i change).current = t.current := rfl

theorem get_eq_some {t : ProcessTable} {pid : UInt32} {i : Nat} (found : t.get pid = some i) :
    ∃ p, t.at? i = some p ∧ p.pid = pid ∧ p.Live ∧
      ∀ j q, j < i → t.at? j = some q → ¬(q.pid = pid ∧ q.Live) := by
  rcases List.findIdx?_eq_some_iff_getElem.mp found with ⟨inside, here, earlier⟩
  simp only [decide_eq_true_eq] at here
  refine ⟨t.slots[i], List.getElem?_eq_getElem inside, here.1, here.2, fun j q before held => ?_⟩
  rcases List.getElem?_eq_some_iff.mp held with ⟨_, same⟩
  have absent := earlier j before
  simp only [decide_eq_true_eq] at absent
  rw [← same]
  exact absent

end ProcessTable

/-! ## Creating processes -/

def spawnKthread (name : List UInt8) (state : ProcState) (priority : Int) (t : ProcessTable) :
    ProcessTable :=
  if maxProcesses ≤ t.slots.length then t
  else { t with
    slots := t.slots ++ [{ Process.zero with
      pid := t.nextPid
      name := name.take (procNameMax - 1)
      state := state
      priority := priority
      cwd := literal "/" }]
    nextPid := t.nextPid + 1 }

def processInit : ProcessTable :=
  let empty : ProcessTable := ⟨[], 1, none, none⟩
  let init := { spawnKthread (literal "init") .running prioIdle empty with current := some 0 }
  let kthreadd := spawnKthread (literal "kthreadd") .sleeping prioIdle init
  let mysh := spawnKthread (literal "mysh") .ready prioIdle kthreadd
  spawnKthread (literal "idle") .ready prioIdle mysh

/-- What the allocators return to `process_create`: the page directory, or zero, and the kernel
stack. -/
structure Resources where
  pageDir : UInt32
  kstack : UInt32

def ProcessTable.freeSlot (t : ProcessTable) : Option Nat :=
  match t.slots.findIdx? fun p => p.state = .zombie with
  | some i => some i
  | none => if maxProcesses ≤ t.slots.length then none else some t.slots.length

/-- The process that `process_create` leaves in a slot.  The parent is read after the slot was
cleared and numbered, so a process whose own slot is taken becomes its own parent. -/
def ProcessTable.fresh (t : ProcessTable) (slot : Nat) (name : List UInt8)
    (resources : Resources) : Process :=
  { Process.zero with
    pid := t.nextPid
    name := name.take (procNameMax - 1)
    state := .ready
    parentPid :=
      if t.current = some slot then t.nextPid
      else match t.getCurrent with
        | some parent => parent.pid
        | none => 0
    priority := t.nextPriorityHint.getD prioDefault
    cwd := literal "/"
    pageDir := resources.pageDir
    kstack := resources.kstack }

def processCreate (name : List UInt8) (resources : Resources) (t : ProcessTable) :
    Option (Nat × ProcessTable) :=
  t.freeSlot.map fun slot =>
    (slot, { t with
      slots := if slot < t.slots.length then t.slots.set slot (t.fresh slot name resources)
        else t.slots ++ [t.fresh slot name resources]
      nextPid := t.nextPid + 1
      nextPriorityHint := none })

/-! ## Signals -/

def processSignal (pid : UInt32) (sig : Int) (t : ProcessTable) : Int × ProcessTable :=
  match t.get pid with
  | none => (-1, t)
  | some i => (0, t.modify i fun p => { p with signalPending := sig })

def Process.terminate (sig : Int) (p : Process) : Process :=
  { p with state := .zombie, exitCode := BitVec.ofInt 32 (128 + sig), signaled := true }

def processDeliverSignal (sig : Int) (t : ProcessTable) : Bool × ProcessTable :=
  match t.current, t.getCurrent with
  | some i, some p =>
      if sig ≤ 0 ∨ nsig ≤ sig then (true, t)
      else
        let handler := p.sigHandlers sig.toNat
        if handler = sigIgn then (false, t)
        else if handler ≠ sigDfl then
          (false, t.modify i fun p => { p with signalPending := sig })
        else if sig = sigchld then (false, t)
        else (true, t.modify i (Process.terminate sig))
  | _, _ => (true, t)

def processCheckSignal (t : ProcessTable) : Bool × ProcessTable :=
  match t.current, t.getCurrent with
  | some i, some p =>
      if p.signalPending = 0 then (false, t)
      else processDeliverSignal p.signalPending
        (t.modify i fun p => { p with signalPending := 0 })
  | _, _ => (false, t)

def processSigaction (sig : Int) (handler : UInt32) (t : ProcessTable) : UInt32 × ProcessTable :=
  if sig = sigkill ∨ sig ≤ 0 ∨ nsig ≤ sig then (sigDfl, t)
  else
    match t.current, t.getCurrent with
    | some i, some p =>
        (p.sigHandlers sig.toNat, t.modify i fun p =>
          { p with sigHandlers := Function.update p.sigHandlers sig.toNat handler })
    | _, _ => (sigDfl, t)

/-! ## Ending and waiting -/

def processKill (pid : UInt32) (t : ProcessTable) : Int × ProcessTable :=
  if pid = 1 then (-1, t)
  else
    match t.get pid with
    | none => (-2, t)
    | some i => (0, t.modify i fun p => { p with state := .zombie })

def ProcessTable.adoptOrphans (t : ProcessTable) (pid : UInt32) : ProcessTable :=
  { t with slots := t.slots.map fun p =>
      if p.state ≠ .zombie ∧ p.parentPid = pid ∧ p.pid ≠ 1 then { p with parentPid := 1 } else p }

/-- The part of `process_exit` that empties the names of zombies without a parent once the table
holds too many zombies. -/
def ProcessTable.reapNames (t : ProcessTable) : ProcessTable :=
  let zombies := t.slots.countP fun p => p.state = .zombie
  if t.slots.length * 3 / 4 < zombies ∧ 8 < t.slots.length then
    { t with slots := t.slots.map fun p =>
        if p.state = .zombie ∧ 3 < p.pid ∧ t.get p.parentPid = none then { p with name := [] }
        else p }
  else t

/-- `process_exit`, without `fd_cleanup_process` and `vmm_free_address_space`, whose state is
elsewhere. -/
def processExit (code : BitVec 32) (t : ProcessTable) : ProcessTable :=
  match t.current, t.getCurrent with
  | some i, some p =>
      let ended := t.modify i fun p => { p with exitCode := code, state := .zombie }
      let adopted := ended.adoptOrphans p.pid
      let notified :=
        if 0 < p.parentPid then (processSignal p.parentPid sigchld adopted).2 else adopted
      notified.reapNames.modify i fun p => { p with pageDir := 0 }
  | _, _ => t

theorem processExit_nobody {code : BitVec 32} {t : ProcessTable} (nobody : t.getCurrent = none) :
    processExit code t = t := by
  rw [processExit, nobody]
  split
  · rename_i impossible
    cases impossible
  · rfl

inductive WaitOutcome where
  | reported (pid : UInt32) (status : BitVec 32)
  | nothing
  | noChildren
  | blocks
  deriving DecidableEq, Repr

/-- Whether a process is a child that a `pid` argument of `process_waitpid` asks for. -/
def Process.isWaitedFor (me : UInt32) (pid : Int) (child : Process) : Bool :=
  child.parentPid = me ∧ (0 < pid → child.pid = UInt32.ofInt pid)

/-- One round of the loop of `process_waitpid`; `none` if there is no current process.  A report
leaves the table as it is. -/
def processWaitpid (pid : Int) (options : UInt32) (t : ProcessTable) : Option WaitOutcome :=
  t.getCurrent.map fun me =>
    match t.slots.find? fun child => child.isWaitedFor me.pid pid ∧ child.state = .zombie with
    | some child => .reported child.pid child.exitCode
    | none =>
        if options &&& 1 ≠ 0 then .nothing
        else if t.slots.any fun child => child.parentPid = me.pid ∧ child.state ≠ .zombie then .blocks
        else .noChildren

theorem processWaitpid_reported {pid : Int} {options number : UInt32} {status : BitVec 32}
    {t : ProcessTable} (reported : processWaitpid pid options t = some (.reported number status)) :
    ∃ me child, t.getCurrent = some me ∧ child.pid = number ∧ child.exitCode = status ∧
      t.slots.find? (fun child => child.isWaitedFor me.pid pid ∧ child.state = .zombie) =
        some child := by
  rcases Option.map_eq_some_iff.mp reported with ⟨me, current, outcome⟩
  split at outcome
  · rename_i child found
    cases outcome
    exact ⟨me, child, current, rfl, rfl, found⟩
  · split at outcome
    · cases outcome
    · split at outcome <;> cases outcome

end Trinux
