import Trinux.Auth.UserFiles
import Trinux.Process.Lifecycle
import Trinux.Process.Scheduler

namespace Trinux

/-!
# Commands and the priority they ask for

`commands_dispatch` lets a process stand for a command while the command runs.  `nice` leaves a
hint for the next process that `process_create` makes, and dispatches the command behind it.

What a command does to processes is a list of events: a program begins with the creation of its
process, a builtin of the kernel may have no event at all.  The shell keeps a record of the
processes that were created while a command ran, and whether that command stood behind `nice`.
-/

def processSetNextPriority (prio : Int) (t : ProcessTable) : ProcessTable :=
  let prio := if prio < prioMin then prioMin else prio
  let prio := if prioMax < prio then prioMax else prio
  { t with nextPriorityHint := some prio }

def processCreateTracking (name : List UInt8) (resources : Resources) (t : ProcessTable) :
    Option (Nat × ProcessTable) :=
  (processCreate name resources { t with nextPriorityHint := none }).map fun (slot, t') =>
    (slot, { t' with nextPriorityHint := t.nextPriorityHint })

/-- A command as `commands_dispatch` runs it: a program or a builtin, the command that an alias
stands for, or `nice` with a number and a command. -/
inductive ShellCommand where
  | program (name : List UInt8) (resources : Resources) (events : List LifeEvent)
  | aliased (name : List UInt8) (resources : Resources) (command : ShellCommand)
  | nice (resources : Resources) (prio : List UInt8) (command : ShellCommand)

def niceHint (users : Users) (prio : List UInt8) : Option Int :=
  let prio := (atoi prio).toBitVec.toInt
  if prio < prioMin ∨ prioMax < prio then none
  else if prio < prioDefault ∧ ¬users.isRootUser then none
  else some prio

structure Shell where
  system : System
  created : List (Bool × Process)

namespace Shell

def withTable (sh : Shell) (t : ProcessTable) : Shell :=
  { sh with system := sh.system.withTable t }

def record (sh : Shell) (niced : Bool) (slot : Nat) : Shell :=
  { sh with created := sh.created ++ ((sh.system.table.at? slot).toList.map fun p => (niced, p)) }

/-- The beginning of `commands_dispatch`: the process that stands for the command. -/
def begin (sh : Shell) (niced : Bool) (name : List UInt8) (resources : Resources) :
    Option Nat × Shell :=
  match processCreateTracking name resources sh.system.table with
  | none => (none, sh)
  | some (slot, t) =>
      (some slot, ((sh.withTable t).record niced slot).withTable
        (t.modify slot fun p => { p with state := .running }))

def finish (sh : Shell) : Option Nat → Shell
  | none => sh
  | some slot => sh.withTable (sh.system.table.modify slot fun p => { p with state := .zombie })

def event (niced : Bool) (sh : Shell) (e : LifeEvent) : Shell :=
  let after := { sh with system := sh.system.step e }
  match e with
  | .create name resources =>
      match processCreate name resources sh.system.table with
      | none => after
      | some (slot, _) => after.record niced slot
  | _ => after

def dispatch (users : Users) (niced : Bool) : ShellCommand → Shell → Shell
  | .program name resources events, sh =>
      let begun := sh.begin niced name resources
      (events.foldl (event niced) begun.2).finish begun.1
  | .aliased name resources command, sh =>
      let begun := sh.begin niced name resources
      (dispatch users niced command begun.2).finish begun.1
  | .nice resources prio command, sh =>
      let begun := sh.begin niced (literal "nice") resources
      (match niceHint users prio with
        | none => begun.2
        | some hint => dispatch users true command
            (begun.2.withTable (processSetNextPriority hint begun.2.system.table))).finish begun.1

def run (sh : Shell) (commands : List (Users × ShellCommand)) : Shell :=
  commands.foldl (fun sh c => dispatch c.1 false c.2 sh) sh

/-! ## Conditions -/

def CreatesOne (sh : Shell) : List LifeEvent → Prop
  | [] => False
  | e :: rest =>
      (∃ name resources, e = .create name resources ∧ sh.system.table.freeSlot.isSome) ∨
        CreatesOne (sh.event true e) rest

def UsesHint (users : Users) : ShellCommand → Shell → Prop
  | .program name resources events, sh => (sh.begin true name resources).2.CreatesOne events
  | .aliased name resources command, sh => UsesHint users command (sh.begin true name resources).2
  | .nice resources prio command, sh =>
      let begun := sh.begin true (literal "nice") resources
      ∃ hint, niceHint users prio = some hint ∧ UsesHint users command
        (begun.2.withTable (processSetNextPriority hint begun.2.system.table))

/-- If the command is `nice` and accepted, the command behind it creates a process. -/
def Spends (users : Users) : ShellCommand → Shell → Prop
  | .program _ _ _, _ => True
  | .aliased name resources command, sh => Spends users command (sh.begin false name resources).2
  | .nice resources prio command, sh =>
      let begun := sh.begin false (literal "nice") resources
      ∀ hint, niceHint users prio = some hint → UsesHint users command
        (begun.2.withTable (processSetNextPriority hint begun.2.system.table))

def AlwaysSpends (sh : Shell) : List (Users × ShellCommand) → Prop
  | [] => True
  | c :: rest => Spends c.1 c.2 sh ∧ AlwaysSpends (dispatch c.1 false c.2 sh) rest

/-- Processes of commands that do not stand behind `nice` began with the default priority. -/
def DefaultUnlessNiced (sh : Shell) : Prop :=
  ∀ p, (false, p) ∈ sh.created → p.priority = prioDefault

def Unhinted (sh : Shell) : Prop := sh.system.table.nextPriorityHint = none

end Shell

/-! ## The hint -/

theorem processCreate_hint {name : List UInt8} {resources : Resources} {t t' : ProcessTable}
    {slot : Nat} (created : processCreate name resources t = some (slot, t')) :
    t'.nextPriorityHint = none := by
  rcases Option.map_eq_some_iff.mp created with ⟨chosen, _, made⟩
  rcases Prod.mk.inj made with ⟨_, rfl⟩
  rfl

theorem processSignal_hint (pid : UInt32) (sig : Int) (t : ProcessTable) :
    (processSignal pid sig t).2.nextPriorityHint = t.nextPriorityHint := by
  unfold processSignal
  split <;> rfl

theorem processKill_hint (pid : UInt32) (t : ProcessTable) :
    (processKill pid t).2.nextPriorityHint = t.nextPriorityHint := by
  unfold processKill
  split
  · rfl
  · split <;> rfl

theorem processDeliverSignal_hint (sig : Int) (t : ProcessTable) :
    (processDeliverSignal sig t).2.nextPriorityHint = t.nextPriorityHint := by
  unfold processDeliverSignal
  split
  · split
    · rfl
    · dsimp only
      split
      · rfl
      · split
        · rfl
        · split <;> rfl
  · rfl

theorem processCheckSignal_hint (t : ProcessTable) :
    (processCheckSignal t).2.nextPriorityHint = t.nextPriorityHint := by
  unfold processCheckSignal
  split
  · split
    · rfl
    · exact processDeliverSignal_hint _ _
  · rfl

theorem processSigaction_hint (sig : Int) (handler : UInt32) (t : ProcessTable) :
    (processSigaction sig handler t).2.nextPriorityHint = t.nextPriorityHint := by
  unfold processSigaction
  split
  · rfl
  · split <;> rfl

theorem reapNames_hint (t : ProcessTable) : t.reapNames.nextPriorityHint = t.nextPriorityHint := by
  unfold ProcessTable.reapNames
  dsimp only
  split <;> rfl

theorem processExit_hint (code : BitVec 32) (t : ProcessTable) :
    (processExit code t).nextPriorityHint = t.nextPriorityHint := by
  unfold processExit
  split
  · dsimp only
    refine (reapNames_hint _).trans ?_
    split
    · exact processSignal_hint _ _ _
    · rfl
  · rfl

theorem switchTo_hint (t : ProcessTable) (slot : Nat) :
    (t.switchTo slot).nextPriorityHint = t.nextPriorityHint := by
  unfold ProcessTable.switchTo
  cases t.current with
  | none => rfl
  | some prev => rfl

theorem sleepCurrent_hint (t : ProcessTable) :
    t.sleepCurrent.nextPriorityHint = t.nextPriorityHint := by
  unfold ProcessTable.sleepCurrent
  split <;> rfl

namespace System

/-- Only the creation of a process touches the hint, and it takes it away. -/
theorem step_hint (s : System) (e : LifeEvent) :
    (s.step e).table.nextPriorityHint = s.table.nextPriorityHint ∨
      (s.step e).table.nextPriorityHint = none := by
  cases e with
  | create name resources =>
      rw [step]
      cases created : processCreate name resources s.table with
      | none => exact Or.inl rfl
      | some made => exact Or.inr (processCreate_hint created)
  | start slot => exact Or.inl rfl
  | setCurrent slot => exact Or.inl rfl
  | switch slot => exact Or.inl (switchTo_hint s.table slot)
  | sleep => exact Or.inl (sleepCurrent_hint s.table)
  | wake slot => exact Or.inl rfl
  | exit code =>
      rw [step, exit]
      cases s.table.getCurrent with
      | none => exact Or.inl rfl
      | some p => exact Or.inl (processExit_hint code s.table)
  | kill pid => exact Or.inl (processKill_hint pid s.table)
  | signal pid sig => exact Or.inl (processSignal_hint pid sig s.table)
  | brokenPipe =>
      rw [step]
      cases s.table.current with
      | none => exact Or.inl rfl
      | some i => exact Or.inl rfl
  | checkSignal => exact Or.inl (processCheckSignal_hint s.table)
  | sigaction sig handler => exact Or.inl (processSigaction_hint sig handler s.table)
  | finish slot code => exact Or.inl rfl
  | waitpid pid options | openFile node pos flags | openDir node =>
      rw [step]
      split
      · exact Or.inl rfl
      · exact Or.inl rfl
  | closeFile fd => exact Or.inl rfl
  | closeDir dh => exact Or.inl rfl

end System

theorem processCreateTracking_some {name : List UInt8} {resources : Resources} {t t' : ProcessTable}
    {slot : Nat} (created : processCreateTracking name resources t = some (slot, t')) :
    t'.nextPriorityHint = t.nextPriorityHint ∧
      ∀ p, t'.at? slot = some p → p.priority = prioDefault := by
  rcases Option.map_eq_some_iff.mp created with ⟨⟨chosen, made⟩, plain, same⟩
  rcases Prod.mk.inj same with ⟨rfl, rfl⟩
  refine ⟨rfl, fun p held => ?_⟩
  have new := (ProcessTable.processCreate_creates plain).new
  rw [← Option.some_inj.mp (new.symm.trans held)]
  rfl

namespace Shell

/-! ## One command -/

theorem begin_unhinted (sh : Shell) (niced : Bool) (name : List UInt8) (resources : Resources) :
    (sh.begin niced name resources).2.system.table.nextPriorityHint =
      sh.system.table.nextPriorityHint := by
  unfold begin
  split
  · rfl
  · rename_i created
    exact (processCreateTracking_some created).1

theorem finish_unhinted (sh : Shell) (cmdProc : Option Nat) :
    (sh.finish cmdProc).system.table.nextPriorityHint = sh.system.table.nextPriorityHint := by
  cases cmdProc with
  | none => rfl
  | some slot => rfl

theorem finish_created (sh : Shell) (cmdProc : Option Nat) :
    (sh.finish cmdProc).created = sh.created := by
  cases cmdProc with
  | none => rfl
  | some slot => rfl

theorem event_system (niced : Bool) (sh : Shell) (e : LifeEvent) :
    (sh.event niced e).system = sh.system.step e := by
  unfold event
  split
  · split <;> rfl
  · rfl

/-- The process that is recorded has the default priority, unless the command stands behind
`nice`. -/
theorem record_default {sh : Shell} {niced : Bool} {slot : Nat} (default : sh.DefaultUnlessNiced)
    (new : niced = false → ∀ p, sh.system.table.at? slot = some p → p.priority = prioDefault) :
    (sh.record niced slot).DefaultUnlessNiced := by
  intro p member
  rcases List.mem_append.mp member with before | here
  · exact default p before
  · rcases List.mem_map.mp here with ⟨q, held, same⟩
    rcases Prod.mk.inj same with ⟨rfl, rfl⟩
    exact new rfl q (Option.mem_toList.mp held)

theorem begin_default {sh : Shell} (niced : Bool) (name : List UInt8) (resources : Resources)
    (default : sh.DefaultUnlessNiced) : (sh.begin niced name resources).2.DefaultUnlessNiced := by
  unfold begin
  split
  · exact default
  · rename_i slot t created
    exact @record_default (sh.withTable t) niced slot default
      fun _ => (processCreateTracking_some created).2

theorem finish_default {sh : Shell} (cmdProc : Option Nat) (default : sh.DefaultUnlessNiced) :
    (sh.finish cmdProc).DefaultUnlessNiced := by
  unfold DefaultUnlessNiced
  rw [finish_created]
  exact default

/-- A process that is created without a hint has the default priority. -/
theorem event_default {sh : Shell} {niced : Bool} (e : LifeEvent)
    (unhinted : niced = false → sh.Unhinted) (default : sh.DefaultUnlessNiced) :
    (sh.event niced e).DefaultUnlessNiced := by
  unfold event
  split
  · rename_i name resources
    split
    · exact default
    · rename_i slot t created
      refine record_default default fun plain p held => ?_
      have table : (sh.system.step (.create name resources)).table = t := by
        rw [System.step, created]
        rfl
      have new := (ProcessTable.processCreate_creates created).new
      change (sh.system.step (.create name resources)).table.at? slot = some p at held
      rw [table, new] at held
      rw [← Option.some_inj.mp held]
      change sh.system.table.nextPriorityHint.getD prioDefault = prioDefault
      rw [unhinted plain]
      rfl
  · exact default

theorem event_unhinted {sh : Shell} (niced : Bool) (e : LifeEvent) (unhinted : sh.Unhinted) :
    (sh.event niced e).Unhinted := by
  unfold Unhinted
  rw [event_system]
  rcases System.step_hint sh.system e with same | taken
  · exact same.trans unhinted
  · exact taken

theorem events_unhinted {sh : Shell} (niced : Bool) (events : List LifeEvent)
    (unhinted : sh.Unhinted) : (events.foldl (event niced) sh).Unhinted := by
  induction events generalizing sh with
  | nil => exact unhinted
  | cons e rest known => exact known (event_unhinted niced e unhinted)

theorem events_default {sh : Shell} {niced : Bool} (events : List LifeEvent)
    (unhinted : niced = false → sh.Unhinted) (default : sh.DefaultUnlessNiced) :
    (events.foldl (event niced) sh).DefaultUnlessNiced := by
  induction events generalizing sh with
  | nil => exact default
  | cons e rest known =>
      exact known (fun plain => event_unhinted niced e (unhinted plain))
        (event_default e unhinted default)

theorem CreatesOne.unhinted {sh : Shell} {events : List LifeEvent}
    (creates : sh.CreatesOne events) : (events.foldl (event true) sh).Unhinted := by
  induction events generalizing sh with
  | nil => exact creates.elim
  | cons e rest known =>
      rcases creates with ⟨name, resources, rfl, free⟩ | later
      · rcases Option.isSome_iff_exists.mp free with ⟨slot, found⟩
        have taken : (sh.event true (.create name resources)).Unhinted := by
          unfold Unhinted
          rw [event_system, System.step, processCreate, found]
          rfl
        exact events_unhinted true rest taken
      · exact known later

theorem dispatch_niced_default (users : Users) (c : ShellCommand) {sh : Shell}
    (default : sh.DefaultUnlessNiced) : (dispatch users true c sh).DefaultUnlessNiced := by
  induction c generalizing sh with
  | program name resources events =>
      exact finish_default _ (events_default events (fun plain => by cases plain)
        (begin_default true name resources default))
  | aliased name resources command known =>
      exact finish_default _ (known (begin_default true name resources default))
  | nice resources prio command known =>
      have begun := begin_default true (literal "nice") resources default
      rw [dispatch]
      refine finish_default _ ?_
      cases niceHint users prio with
      | none => exact begun
      | some hint => exact known begun

theorem UsesHint.unhinted {users : Users} {c : ShellCommand} {sh : Shell}
    (uses : UsesHint users c sh) : (dispatch users true c sh).Unhinted := by
  induction c generalizing sh with
  | program name resources events =>
      exact (finish_unhinted _ _).trans (CreatesOne.unhinted uses)
  | aliased name resources command known => exact (finish_unhinted _ _).trans (known uses)
  | nice resources prio command known =>
      rcases uses with ⟨hint, accepted, behind⟩
      rw [dispatch, accepted]
      exact (finish_unhinted _ _).trans (known behind)

/-- A command that does not stand behind `nice` and spends its hint leaves no hint. -/
theorem dispatch_default {users : Users} {c : ShellCommand} {sh : Shell} (unhinted : sh.Unhinted)
    (default : sh.DefaultUnlessNiced) (spends : Spends users c sh) :
    (dispatch users false c sh).Unhinted ∧ (dispatch users false c sh).DefaultUnlessNiced := by
  induction c generalizing sh with
  | program name resources events =>
      have begun := (begin_unhinted sh false name resources).trans unhinted
      exact ⟨(finish_unhinted _ _).trans (events_unhinted false events begun),
        finish_default _ (events_default events (fun _ => begun)
          (begin_default false name resources default))⟩
  | aliased name resources command known =>
      have behind := known ((begin_unhinted sh false name resources).trans unhinted)
        (begin_default false name resources default) spends
      exact ⟨(finish_unhinted _ _).trans behind.1, finish_default _ behind.2⟩
  | nice resources prio command known =>
      have begun := (begin_unhinted sh false (literal "nice") resources).trans unhinted
      have kept := begin_default false (literal "nice") resources default
      rw [dispatch]
      cases accepted : niceHint users prio with
      | none => exact ⟨(finish_unhinted _ _).trans begun, finish_default _ kept⟩
      | some hint =>
          exact ⟨(finish_unhinted _ _).trans (UsesHint.unhinted (spends hint accepted)),
            finish_default _ (dispatch_niced_default users command kept)⟩

end Shell

/-! ## Sessions -/

/-- If the commands behind `nice` create processes, the processes of all other commands begin with
the default priority. -/
theorem shellRun_defaultUnlessNiced (sh : Shell) (commands : List (Users × ShellCommand))
    (unhinted : sh.Unhinted) (default : sh.DefaultUnlessNiced) (spends : sh.AlwaysSpends commands) :
    (sh.run commands).DefaultUnlessNiced := by
  induction commands generalizing sh with
  | nil => exact default
  | cons c rest known =>
      have after := Shell.dispatch_default unhinted default spends.1
      exact known _ after.1 after.2 spends.2

namespace Shell

def boot : Shell := ⟨System.init, []⟩

def niceThenProgram : List (Users × ShellCommand) :=
  [(⟨[], none⟩, .nice ⟨0, 0⟩ (literal "5") (.program (literal "cd") ⟨0, 0⟩ [])),
    (⟨[], none⟩, .program (literal "exec") ⟨0, 0⟩ [.create (literal "prog") ⟨0, 0⟩])]

def niceProgram : List (Users × ShellCommand) :=
  [(⟨[], none⟩, .nice ⟨0, 0⟩ (literal "5")
      (.program (literal "exec") ⟨0, 0⟩ [.create (literal "prog") ⟨0, 0⟩])),
    (⟨[], none⟩, .program (literal "exec") ⟨0, 0⟩ [.create (literal "prog") ⟨0, 0⟩])]

end Shell

/-- The program of the second command begins with the priority of the first one. -/
theorem shellRun_hintLeft : ¬(Shell.boot.run Shell.niceThenProgram).DefaultUnlessNiced := by
  intro default
  have priorities : (Shell.boot.run Shell.niceThenProgram).created.map
      (fun entry => (entry.1, entry.2.priority)) =
        [(false, 0), (true, 0), (false, 0), (false, 5)] := by rfl
  have last : (false, (5 : Int)) ∈ (Shell.boot.run Shell.niceThenProgram).created.map
      (fun entry => (entry.1, entry.2.priority)) := by
    rw [priorities]
    decide
  rcases List.mem_map.mp last with ⟨⟨niced, p⟩, member, same⟩
  rcases Prod.mk.inj same with ⟨rfl, five⟩
  have zero := default p member
  rw [five] at zero
  exact absurd zero (by decide)

theorem shellRun_defaultUnlessNiced_program :
    (Shell.boot.run Shell.niceProgram).DefaultUnlessNiced := by
  refine shellRun_defaultUnlessNiced Shell.boot Shell.niceProgram rfl
    (fun p impossible => absurd impossible List.not_mem_nil) ⟨?_, trivial, trivial⟩
  intro hint _
  exact Or.inl ⟨_, _, rfl, rfl⟩

end Trinux
