import Trinux.Lib.Machine
import Trinux.Process.Lifecycle

namespace Trinux

/-!
# The run queue

The run queue of the scheduler holds pointers into the process table.  Entries are only ever
added.  Nothing is taken out when a process ends, and the slot of a process that ended goes to the
next one that is created.

A pointer is the index of its slot.  Beside the state a record is kept, which no event reads: the
slots whose present process was given to `scheduler_add`.
-/

structure Scheduling where
  system : System
  runQueue : List Nat
  scheduled : Nat → Bool

/-- What happens to the process table, and `scheduler_add` of the process in a slot. -/
inductive QueueEvent where
  | life (event : LifeEvent)
  | add (slot : Nat)

def LifeEvent.newSlot (t : ProcessTable) : LifeEvent → Option Nat
  | .create name resources => (processCreate name resources t).map Prod.fst
  | _ => none

def LifeEvent.Ends (t : ProcessTable) (slot : Nat) : LifeEvent → Prop
  | .exit _ => t.current = some slot
  | .kill pid => pid ≠ 1 ∧ t.get pid = some slot
  | .checkSignal => t.current = some slot ∧ ∃ p, t.at? slot = some p ∧ p.Terminates p.signalPending
  | .finish ended _ => slot = ended
  | _ => False

namespace ProcessTable

def LiveAt (t : ProcessTable) (slot : Nat) : Prop := ∃ p, t.at? slot = some p ∧ p.Live

def liveSlots (t : ProcessTable) : List Nat :=
  (List.range t.slots.length).filter fun slot => (t.at? slot).any fun p => p.Live

end ProcessTable

namespace Scheduling

def init : Scheduling := ⟨System.init, [], fun _ => false⟩

def schedulerAdd (s : Scheduling) (slot : Nat) : Scheduling :=
  { s with
    runQueue := if s.runQueue.length < maxProcesses then s.runQueue ++ [slot] else s.runQueue
    scheduled := Function.update s.scheduled slot true }

def forget (scheduled : Nat → Bool) : Option Nat → Nat → Bool
  | none => scheduled
  | some slot => Function.update scheduled slot false

/-- One event.  A process that is created was not given to `scheduler_add` yet. -/
def step (s : Scheduling) : QueueEvent → Scheduling
  | .life event =>
      { s with
        system := s.system.step event
        scheduled := forget s.scheduled (event.newSlot s.system.table) }
  | .add slot => s.schedulerAdd slot

def run (s : Scheduling) (events : List QueueEvent) : Scheduling := Machine.after step s events

/-- What is promised of the run queue: every live process that was given to `scheduler_add` is in
it once, it has no entry of a dead process, and not more entries than there are live processes. -/
structure QueueSound (s : Scheduling) : Prop where
  once : ∀ slot, s.system.table.LiveAt slot → s.scheduled slot = true →
    s.runQueue.count slot = 1
  live : ∀ slot ∈ s.runQueue, s.scheduled slot = true ∧ s.system.table.LiveAt slot
  bounded : s.runQueue.length ≤ s.system.table.liveSlots.length

/-- A step that does not meet the defect: no process in the run queue ends, and a process is added
while it lives and is not in the queue. -/
def Stays (s : Scheduling) : QueueEvent → Prop
  | .life event => ∀ slot ∈ s.runQueue, ¬event.Ends s.system.table slot
  | .add slot => s.system.table.LiveAt slot ∧ slot ∉ s.runQueue

/-- The entries of the run queue are the processes that were added, each of them once and alive. -/
structure Queued (s : Scheduling) : Prop where
  room : s.system.table.slots.length ≤ maxProcesses
  distinct : s.runQueue.Nodup
  entered : ∀ slot, s.scheduled slot = true → slot ∈ s.runQueue
  live : ∀ slot ∈ s.runQueue, s.scheduled slot = true ∧ s.system.table.LiveAt slot

end Scheduling

/-! ## Processes that live on -/

namespace ProcessTable

variable {t t' : ProcessTable} {slot : Nat}

theorem mem_liveSlots : slot ∈ t.liveSlots ↔ t.LiveAt slot := by
  rw [liveSlots, List.mem_filter, List.mem_range, Option.any_eq_true]
  constructor
  · rintro ⟨-, p, held, live⟩
    exact ⟨p, held, of_decide_eq_true live⟩
  · rintro ⟨p, held, live⟩
    rcases List.getElem?_eq_some_iff.mp held with ⟨inside, -⟩
    exact ⟨inside, p, held, decide_eq_true live⟩

/-- Different slots of live processes are not more than there are. -/
theorem length_le_liveSlots {slots : List Nat} (distinct : slots.Nodup)
    (live : ∀ slot ∈ slots, t.LiveAt slot) : slots.length ≤ t.liveSlots.length :=
  (distinct.subperm fun slot member => mem_liveSlots.mpr (live slot member)).length_le

theorem liveSlots_length_le (t : ProcessTable) : t.liveSlots.length ≤ t.slots.length :=
  (List.length_filter_le _ _).trans_eq List.length_range

theorem LiveAt.sameFates (lives : t.LiveAt slot) (same : t.SameFates t') : t'.LiveAt slot := by
  rcases lives with ⟨p, held, live⟩
  rcases same.slot slot p held with ⟨q, heldAfter, fate⟩
  exact ⟨q, heldAfter, fate.live.mpr live⟩

theorem LiveAt.spared {dies : Nat → Process → Prop} (lives : t.LiveAt slot)
    (slotwise : t.Slotwise (fun i p q => p.SameFate q ∨ dies i p ∧ p.Dies q) t')
    (spared : ∀ p, t.at? slot = some p → ¬dies slot p) : t'.LiveAt slot := by
  rcases lives with ⟨p, held, live⟩
  rcases slotwise.slot slot p held with ⟨q, heldAfter, same | dead⟩
  · exact ⟨q, heldAfter, same.live.mpr live⟩
  · exact absurd dead.1 (spared p held)

theorem LiveAt.sleepCurrent (lives : t.LiveAt slot) : t.sleepCurrent.LiveAt slot := by
  rcases lives with ⟨p, held, live⟩
  rw [ProcessTable.sleepCurrent]
  split
  · exact ⟨p, held, live⟩
  · rename_i i current
    by_cases here : slot = i
    · subst here
      rw [LiveAt, at?_modify_self, held, Option.map_some]
      refine ⟨_, rfl, ?_⟩
      split
      · exact live
      · exact fun impossible => ProcState.noConfusion impossible
    · exact ⟨p, by rw [at?_modify_of_ne t _ here]; exact held, live⟩

/-- A live process keeps its slot when another one is created. -/
theorem LiveAt.creates {new : Nat} {created : Process} (lives : t.LiveAt slot)
    (creates : t.Creates t' new created) : slot ≠ new ∧ t'.LiveAt slot := by
  rcases lives with ⟨p, held, live⟩
  have apart : slot ≠ new := by
    rintro rfl
    exact (creates.reused p held).1 live
  exact ⟨apart, p, by rw [creates.others slot apart]; exact held, live⟩

theorem LiveAt.exit {code : BitVec 32} (lives : t.LiveAt slot) (other : t.current ≠ some slot) :
    (processExit code t).LiveAt slot := by
  cases process : t.getCurrent with
  | none =>
      rw [processExit_nobody process]
      exact lives
  | some p =>
      rcases Option.bind_eq_some_iff.mp process with ⟨i, current, held⟩
      rcases lives with ⟨q, heldQ, live⟩
      rcases (processExit_slotwise code current held).slot slot q heldQ with ⟨r, heldR, after⟩
      refine ⟨r, heldR, ?_⟩
      rw [Process.Live, after.state, if_neg fun same => other (by rw [current, same])]
      exact live

theorem slots_le_create {name : List UInt8} {resources : Resources}
    (created : processCreate name resources t = some (slot, t'))
    (room : t.slots.length ≤ maxProcesses) : t'.slots.length ≤ maxProcesses := by
  rcases Option.map_eq_some_iff.mp created with ⟨chosen, free, made⟩
  cases made
  dsimp only
  split
  · rw [List.length_set]
    exact room
  · rename_i outside
    rw [List.length_append, List.length_singleton]
    rw [ProcessTable.freeSlot] at free
    split at free
    · rename_i found
      cases free
      rcases List.findIdx?_eq_some_iff_getElem.mp found with ⟨inside, -⟩
      exact absurd inside outside
    · split at free
      · cases free
      · rename_i notFull
        exact Nat.succ_le_of_lt (not_le.mp notFull)

end ProcessTable

namespace System

/-- A live process that an event does not end lives on, in its slot. -/
theorem liveAt_step {s : System} {event : LifeEvent} {slot : Nat}
    (lives : s.table.LiveAt slot) (spared : ¬event.Ends s.table slot) :
    (s.step event).table.LiveAt slot := by
  cases event with
  | create name resources =>
      rw [step]
      split
      · exact lives
      · rename_i new t created
        exact (lives.creates (ProcessTable.processCreate_creates created)).2
  | start other => exact lives.sameFates (s.table.start_sameFates other)
  | setCurrent other => exact lives
  | switch other => exact lives.sameFates (s.table.switchTo_sameFates other)
  | sleep => exact lives.sleepCurrent
  | wake other => exact lives.sameFates (s.table.wake_sameFates other)
  | exit code =>
      rw [step, exit]
      split
      · exact lives
      · exact lives.exit spared
  | kill pid =>
      exact lives.spared (ProcessTable.processKill_slotwise pid s.table) fun _ _ => spared
  | signal pid sig => exact lives.sameFates (processSignal_sameLives pid sig s.table).sameFates
  | brokenPipe =>
      rw [step]
      split
      · exact lives
      · rename_i i _
        exact lives.sameFates (ProcessTable.SameLives.sameFates (s.table.sameLives_modify i
          (fun p => { p with signalPending := sigpipe }) fun p => ⟨rfl, rfl, rfl, rfl, rfl⟩))
  | checkSignal =>
      exact lives.spared (ProcessTable.processCheckSignal_slotwise s.table)
        fun p held chosen => spared ⟨chosen.1, p, held, chosen.2⟩
  | sigaction sig handler =>
      exact lives.sameFates (ProcessTable.processSigaction_sameLives sig handler s.table).sameFates
  | finish ended code =>
      exact lives.spared (s.table.finish_slotwise ended code) fun _ _ => spared
  | waitpid pid options =>
      rw [step]
      split
      · exact lives
      · exact lives
  | openFile node pos flags =>
      rw [step]
      split
      · exact lives
      · exact lives
  | closeFile fd => exact lives
  | openDir node =>
      rw [step]
      split
      · exact lives
      · exact lives
  | closeDir dh => exact lives

theorem slots_le_step {s : System} (event : LifeEvent)
    (room : s.table.slots.length ≤ maxProcesses) :
    (s.step event).table.slots.length ≤ maxProcesses := by
  by_cases sleeps : event = .sleep
  · subst sleeps
    rw [step]
    show s.table.sleepCurrent.slots.length ≤ maxProcesses
    rw [ProcessTable.sleepCurrent]
    split
    · exact room
    · exact (List.length_modify ..).trans_le room
  · rcases (step_tableStep s event fun same => absurd same sleeps).table with
      ages | ⟨slot, name, resources, rfl, -⟩
    · rw [ages.length]
      exact room
    · rw [step]
      split
      · exact room
      · rename_i new t created
        exact ProcessTable.slots_le_create created room

end System

/-! ## The events -/

namespace Scheduling

variable {s : Scheduling}

theorem forget_iff (scheduled : Nat → Bool) (new : Option Nat) (slot : Nat) :
    forget scheduled new slot = true ↔ scheduled slot = true ∧ new ≠ some slot := by
  cases new with
  | none => exact ⟨fun isScheduled => ⟨isScheduled, fun impossible => by cases impossible⟩, And.left⟩
  | some taken =>
      by_cases here : slot = taken
      · subst here
        rw [forget, Function.update_self]
        exact ⟨fun impossible => absurd impossible Bool.false_ne_true,
          fun both => absurd rfl both.2⟩
      · rw [forget, Function.update_of_ne here]
        exact ⟨fun isScheduled => ⟨isScheduled, fun same => here (Option.some_inj.mp same).symm⟩,
          And.left⟩

theorem newSlot_ne {t : ProcessTable} {slot : Nat} (live : t.LiveAt slot) (event : LifeEvent) :
    event.newSlot t ≠ some slot := by
  intro taken
  cases event with
  | create name resources =>
      rcases Option.map_eq_some_iff.mp taken with ⟨⟨found, t'⟩, created, same⟩
      cases same
      exact (live.creates (ProcessTable.processCreate_creates created)).1 rfl
  | _ => cases taken

theorem Queued.life (queued : s.Queued) {event : LifeEvent} (stays : s.Stays (.life event)) :
    (s.step (.life event)).Queued where
  room := System.slots_le_step event queued.room
  distinct := queued.distinct
  entered := fun slot isScheduled => queued.entered slot ((forget_iff _ _ slot).mp isScheduled).1
  live := by
    intro slot member
    have before := queued.live slot member
    exact ⟨(forget_iff _ _ slot).mpr ⟨before.1, newSlot_ne before.2 event⟩,
      System.liveAt_step before.2 (stays slot member)⟩

/-- While the queue holds live processes once each, there is room for another live one. -/
theorem Queued.notFull (queued : s.Queued) {slot : Nat} (live : s.system.table.LiveAt slot)
    (outside : slot ∉ s.runQueue) : s.runQueue.length < maxProcesses := by
  have distinct : (slot :: s.runQueue).Nodup := List.nodup_cons.mpr ⟨outside, queued.distinct⟩
  have all : ∀ other ∈ slot :: s.runQueue, s.system.table.LiveAt other := by
    intro other member
    rcases List.mem_cons.mp member with rfl | inQueue
    · exact live
    · exact (queued.live other inQueue).2
  calc s.runQueue.length < (slot :: s.runQueue).length := Nat.lt_succ_self _
    _ ≤ s.system.table.liveSlots.length := ProcessTable.length_le_liveSlots distinct all
    _ ≤ s.system.table.slots.length := s.system.table.liveSlots_length_le
    _ ≤ maxProcesses := queued.room

theorem Queued.add (queued : s.Queued) {slot : Nat} (stays : s.Stays (.add slot)) :
    (s.step (.add slot)).Queued := by
  have notFull := queued.notFull stays.1 stays.2
  have queue : (s.step (.add slot)).runQueue = s.runQueue ++ [slot] := if_pos notFull
  refine ⟨queued.room, ?_, fun other isScheduled => ?_, fun other member => ?_⟩
  · rw [queue]
    exact List.nodup_append.mpr ⟨queued.distinct, List.nodup_singleton slot,
      fun entry inQueue last isLast same =>
        stays.2 (by rw [← List.mem_singleton.mp isLast, ← same]; exact inQueue)⟩
  · rw [queue]
    by_cases here : other = slot
    · subst here
      exact List.mem_append_right _ (List.mem_singleton_self other)
    · have before : s.scheduled other = true := by
        rw [← isScheduled]
        exact (Function.update_of_ne here _ _).symm
      exact List.mem_append_left _ (queued.entered other before)
  · rw [queue] at member
    by_cases here : other = slot
    · subst here
      exact ⟨Function.update_self _ _ _, stays.1⟩
    · have inQueue := (List.mem_append.mp member).resolve_right fun last =>
        here (List.mem_singleton.mp last)
      exact ⟨(Function.update_of_ne here _ _).trans (queued.live other inQueue).1,
        (queued.live other inQueue).2⟩

theorem Queued.step (s : Scheduling) (event : QueueEvent) (queued : s.Queued)
    (stays : s.Stays event) : (s.step event).Queued := by
  cases event with
  | life event => exact queued.life stays
  | add slot => exact queued.add stays

theorem Queued.sound (queued : s.Queued) : s.QueueSound where
  once := fun slot _ isScheduled =>
    List.count_eq_one_of_mem queued.distinct (queued.entered slot isScheduled)
  live := queued.live
  bounded := ProcessTable.length_le_liveSlots queued.distinct
    fun slot member => (queued.live slot member).2

theorem init_queued : init.Queued :=
  ⟨by decide, List.nodup_nil, fun _ impossible => absurd impossible Bool.false_ne_true,
    fun _ impossible => absurd impossible List.not_mem_nil⟩

/-- As long as no process of the run queue ends, the queue is as it should be. -/
theorem run_queueSound (events : List QueueEvent) (stays : Machine.Always step Stays init events) :
    (init.run events).QueueSound :=
  (Machine.Always.after Queued.step init_queued stays).sound

theorem run_queueSound_added :
    (init.run [.life (.create [] ⟨0, 0⟩), .add 4, .life (.switch 4)]).QueueSound := by
  refine run_queueSound _ ⟨fun _ impossible => absurd impossible List.not_mem_nil, ⟨?_, ?_⟩,
    fun _ _ impossible => impossible, trivial⟩
  · exact ⟨_, rfl, by decide⟩
  · exact List.not_mem_nil

theorem killed_stays_queued :
    ¬(init.run [.life (.create [] ⟨0, 0⟩), .add 4, .life (.kill 5)]).QueueSound := by
  intro sound
  rcases (sound.live 4 (by decide)).2 with ⟨p, held, live⟩
  cases held
  exact live (by decide)

end Scheduling

end Trinux
