import Trinux.Lib.FirstLeast
import Trinux.Process.Table

namespace Trinux

/-!
# The scheduler

The scheduler chooses among the processes of the run queue by their effective priority, a base
priority and a boost, where a smaller number is better.  A process that gives up the processor
before its quantum ends is credited, one that uses its quantum up twice in a row is charged, and
from time to time all boosts are halved.

The run queue holds indices into the process table.  Of a process only what the scheduler works
with is kept here; its counters of processor time and the switch of the stacks are left out.
-/

def prioMin : Int := -20

def prioMax : Int := 19

def mlfqBoostMax : Int := 4

def mlfqBoostMin : Int := -4

def mlfqDemoteAfter : Nat := 2

def mlfqDecayTicks : Nat := 500

structure Task where
  state : ProcState
  priority : Int
  dynBoost : Int
  quantumUsed : Nat
  consecFull : Nat
  sleepUntil : UInt32
  deriving DecidableEq

namespace Task

def effPrio (p : Task) : Int :=
  let e := p.priority + p.dynBoost
  if prioIdle ≤ p.priority then p.priority
  else if e < prioMin then prioMin
  else if prioMax < e then prioMax
  else e

def Runnable (p : Task) : Prop := p.state = .ready ∨ p.state = .running

instance (p : Task) : Decidable p.Runnable := inferInstanceAs (Decidable (_ ∨ _))

def mlfqCreditRelease (p : Task) (used cap : Nat) : Task :=
  if prioIdle ≤ p.priority then p
  else if used < cap then
    { p with
      dynBoost := if mlfqBoostMin < p.dynBoost then p.dynBoost - 1 else p.dynBoost
      consecFull := 0 }
  else p

def mlfqChargeQuantum (p : Task) (cap : Nat) : Task :=
  if prioIdle ≤ p.priority then p
  else if cap ≤ p.quantumUsed then
    if mlfqDemoteAfter ≤ p.consecFull + 1 then
      { p with
        dynBoost := if p.dynBoost < mlfqBoostMax then p.dynBoost + 1 else p.dynBoost
        consecFull := 0 }
    else { p with consecFull := p.consecFull + 1 }
  else p

def halve (boost : Int) : Int :=
  if 0 < boost then boost / 2 else if boost < 0 then -(-boost / 2) else boost

end Task

def quantumFor (prio : Int) : Nat :=
  if prioIdle ≤ prio then 1
  else
    let q := 5 + prio.tdiv 4
    if q < 2 then 2 else if 12 < q then 12 else q.toNat

/-- The process table, the current process and the static variables of `scheduler.c`. -/
structure Scheduler where
  tasks : List Task
  current : Option Nat
  runQueue : List Nat
  lastPickedIdx : Nat
  tickCount : UInt32
  kickFlag : Bool
  deriving DecidableEq

namespace Scheduler

def entry (s : Scheduler) (idx : Nat) : Option Task := s.runQueue[idx]?.bind (s.tasks[·]?)

def modify (s : Scheduler) (slot : Nat) (change : Task → Task) : Scheduler :=
  { s with tasks := s.tasks.modify slot change }

def mlfqDecayAll (s : Scheduler) : Scheduler :=
  s.runQueue.foldl
    (fun s slot => s.modify slot fun p => { p with dynBoost := Task.halve p.dynBoost }) s

def wakeupEntry (now : UInt32) (s : Scheduler) (slot : Nat) : Scheduler :=
  match s.tasks[slot]? with
  | none => s
  | some p =>
      if p.state = .sleeping ∧ p.sleepUntil ≠ 0 ∧ p.sleepUntil ≤ now then
        { s.modify slot fun p => { p with state := .ready, sleepUntil := 0 } with kickFlag := true }
      else s

def schedulerWakeupCheck (now : UInt32) (s : Scheduler) : Scheduler :=
  s.runQueue.foldl (wakeupEntry now) s

/-- The entries of the run queue in the order in which `pick_next` looks at them. -/
def scanOrder (s : Scheduler) : List Nat :=
  (List.range s.runQueue.length).map fun i => (s.lastPickedIdx + 1 + i) % s.runQueue.length

def score (s : Scheduler) (idx : Nat) : Option Int :=
  (s.entry idx).bind fun p => if p.Runnable then some p.effPrio else none

def pickNext (s : Scheduler) : Option Nat :=
  (FirstLeast.scan s.score 0x7FFFFFFF s.scanOrder).1

def release (s : Scheduler) (prev : Nat) : Scheduler :=
  s.modify prev fun p =>
    let p := p.mlfqCreditRelease p.quantumUsed (quantumFor p.effPrio)
    if p.state = .running then { p with state := .ready } else p

def schedule (s : Scheduler) : Scheduler :=
  match s.pickNext with
  | none => s
  | some idx =>
      match s.runQueue[idx]? with
      | none => s
      | some slot =>
          if s.current = some slot then s.modify slot fun p => { p with quantumUsed := 0 }
          else
            let released := match s.current with
              | none => s
              | some prev => s.release prev
            { released.modify slot fun p => { p with state := .running, quantumUsed := 0 } with
              current := some slot
              lastPickedIdx := idx }

def picked (s : Scheduler) : Option Nat := s.pickNext.bind (s.runQueue[·]?)

def currentCap (s : Scheduler) : Nat :=
  match s.current.bind (s.tasks[·]?) with
  | none => quantumFor prioDefault
  | some p => quantumFor p.effPrio

def tickStart (now : UInt32) (s : Scheduler) : Scheduler :=
  let counted := { s with tickCount := s.tickCount + 1 }
  schedulerWakeupCheck now
    (if counted.tickCount.toNat % mlfqDecayTicks = 0 then counted.mlfqDecayAll else counted)

def tickCurrent (s : Scheduler) : Scheduler :=
  match s.current with
  | none => s
  | some slot =>
      s.modify slot fun p => if p.state = .zombie then p else { p with quantumUsed := p.quantumUsed + 1 }

def tickCharge (s : Scheduler) : Scheduler :=
  match s.current with
  | none => s
  | some slot =>
      s.modify slot fun p =>
        if p.state ≠ .zombie ∧ s.currentCap ≤ p.quantumUsed then p.mlfqChargeQuantum s.currentCap else p

def usedUp (s : Scheduler) (cap : Nat) : Bool :=
  match s.current.bind (s.tasks[·]?) with
  | none => false
  | some p => cap ≤ p.quantumUsed

def tickWork (now : UInt32) (s : Scheduler) : Scheduler × Bool :=
  let ticked := (s.tickStart now).tickCurrent
  let charged := ticked.tickCharge
  let due := charged.kickFlag || charged.usedUp ticked.currentCap
  (if due then { charged with kickFlag := false } else charged, due)

def schedulerTick (now : UInt32) (s : Scheduler) : Scheduler :=
  let (work, due) := s.tickWork now
  if due then work.schedule else work

/-- What calls `schedule`: the timer, and the current process where it gives up the processor. -/
inductive Event where
  | tick (now : UInt32)
  | yield

def step (s : Scheduler) : Event → Scheduler
  | .tick now => s.schedulerTick now
  | .yield => s.schedule

def turn (s : Scheduler) : Event → Option Nat
  | .tick now => if (s.tickWork now).2 then (s.tickWork now).1.picked else none
  | .yield => s.picked

def turns (s : Scheduler) : List Event → List Nat
  | [] => []
  | event :: rest => (s.turn event).toList ++ turns (s.step event) rest

def run (s : Scheduler) (events : List Event) : Scheduler := events.foldl step s

def Contends (s : Scheduler) (slot : Nat) : Prop :=
  slot ∈ s.runQueue ∧ ∃ p, s.tasks[slot]? = some p ∧ p.Runnable

/-- Every competing process gets a turn: in a part of a run in which it gets none, `schedule` is
called less often than the bound says. -/
def Fair (s : Scheduler) (bound : Nat) (events : List Event) : Prop :=
  ∀ before during behind, events = before ++ during ++ behind →
    ∀ slot, s.Contends slot → slot ∉ (s.run before).turns during →
      ((s.run before).turns during).length < bound

/-- Processes of one base priority compete, and the one that was picked last has the processor.
The other entries of the run queue are of processes that do not run: they have ended, or sleep
until somebody wakes them. -/
structure Competing (s : Scheduler) (base : Int) : Prop where
  distinct : s.runQueue.Nodup
  entries : ∀ slot ∈ s.runQueue, ∃ p, s.tasks[slot]? = some p ∧
    (p.Runnable ∧ p.priority = base ∧ mlfqBoostMin ≤ p.dynBoost ∧ p.dynBoost ≤ mlfqBoostMax ∨
      ¬p.Runnable ∧ p.sleepUntil = 0)
  running : ∃ slot, s.current = some slot ∧ s.runQueue[s.lastPickedIdx]? = some slot ∧
    s.Contends slot
  notIdle : base < prioIdle
  notKicked : s.kickFlag = false

end Scheduler

end Trinux
