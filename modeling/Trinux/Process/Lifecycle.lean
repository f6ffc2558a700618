import Trinux.Fs.Descriptors
import Trinux.Process.Exit
import Trinux.Process.Signals

namespace Trinux

/-!
# The life of processes

A run is a sequence of the events that touch the process table and the descriptors:
creating, scheduling and ending processes, signals, waiting, and opening and closing.  The
events come in any order.

Beside the state of the kernel the system keeps a record of what happened, which no event
reads: the processes that became zombies as they were just before, whom `process_exit`
notified, what `process_waitpid` reported, and which process opened a directory handle.
-/

structure System where
  table : ProcessTable
  descriptors : Descriptors
  handleOwner : Nat → UInt32
  ended : List Process
  notified : List (UInt32 × UInt32)
  reports : List UInt32

/-- What happens to processes.  `finish` is the end of `elf_exec_argv_inner`, also when the program
could not be loaded; `start` is the beginning of `elf_exec_argv`. -/
inductive LifeEvent where
  | create (name : List UInt8) (resources : Resources)
  | start (slot : Nat)
  | setCurrent (slot : Option Nat)
  | switch (slot : Nat)
  | sleep
  | wake (slot : Nat)
  | exit (code : BitVec 32)
  | kill (pid : UInt32)
  | signal (pid : UInt32) (sig : Int)
  | brokenPipe
  | checkSignal
  | sigaction (sig : Int) (handler : UInt32)
  | finish (slot : Nat) (code : BitVec 32)
  | waitpid (pid : Int) (options : UInt32)
  | openFile (node : Nat) (pos flags : UInt32)
  | closeFile (fd : Int)
  | openDir (node : Nat)
  | closeDir (dh : Int)

namespace ProcessTable

def start (t : ProcessTable) (slot : Nat) : ProcessTable :=
  (t.modify slot fun p => if p.state = .ready then { p with state := .running } else p).setCurrent
    (some slot)

/-- The part of `schedule` that hands the processor to a process that `pick_next` can pick. -/
def switchTo (t : ProcessTable) (slot : Nat) : ProcessTable :=
  let paused : ProcessTable := match t.current with
    | none => t
    | some prev => t.modify prev fun p =>
        if p.state = .running ∧ prev ≠ slot then { p with state := .ready } else p
  (paused.modify slot fun p => if p.state = .ready then { p with state := .running } else p).setCurrent
    (some slot)

def sleepCurrent (t : ProcessTable) : ProcessTable :=
  match t.current with
  | none => t
  | some i => t.modify i fun p => if p.kstack = 0 then p else { p with state := .sleeping }

def wake (t : ProcessTable) (slot : Nat) : ProcessTable :=
  t.modify slot fun p => if p.state = .sleeping then { p with state := .ready } else p

def finish (t : ProcessTable) (slot : Nat) (code : BitVec 32) : ProcessTable :=
  t.modify slot fun p => { p with state := .zombie, exitCode := code }

def currentPid (t : ProcessTable) : UInt32 := (t.getCurrent.map Process.pid).getD 0

def newlyEnded (t t' : ProcessTable) : List Process :=
  (t.slots.zip t'.slots).filterMap fun pair =>
    if pair.1.Live ∧ ¬pair.2.Live then some pair.1 else none

theorem mem_newlyEnded {t t' : ProcessTable} {e : Process} :
    e ∈ t.newlyEnded t' ↔
      ∃ i q, t.at? i = some e ∧ t'.at? i = some q ∧ e.Live ∧ ¬q.Live := by
  rw [newlyEnded, List.mem_filterMap]
  constructor
  · rintro ⟨⟨p, q⟩, member, same⟩
    rcases List.mem_iff_getElem?.mp member with ⟨i, held⟩
    rw [List.getElem?_zip_eq_some] at held
    by_cases both : p.Live ∧ ¬q.Live
    · simp only [if_pos both, Option.some_inj] at same
      rw [← same]
      exact ⟨i, q, held.1, held.2, both⟩
    · simp only [if_neg both] at same
      cases same
  · rintro ⟨i, q, heldBefore, heldAfter, both⟩
    have here : (t.slots.zip t'.slots)[i]? = some (e, q) :=
      List.getElem?_zip_eq_some.mpr ⟨heldBefore, heldAfter⟩
    exact ⟨(e, q), List.mem_of_getElem? here, if_pos both⟩

end ProcessTable

/-! ## What the events do to lives -/

/-- Nothing happens to the life of a process: it keeps its number, its parent and its page
directory, and lives exactly if it did. -/
structure Process.SameFate (p q : Process) : Prop where
  pid : q.pid = p.pid
  parentPid : q.parentPid = p.parentPid
  pageDir : q.pageDir = p.pageDir
  live : q.Live ↔ p.Live

structure Process.Dies (p q : Process) : Prop where
  pid : q.pid = p.pid
  parentPid : q.parentPid = p.parentPid
  pageDir : q.pageDir = p.pageDir
  dead : ¬q.Live

theorem Process.SameFate.refl (p : Process) : p.SameFate p := ⟨rfl, rfl, rfl, Iff.rfl⟩

theorem Process.SameFate.trans {p q r : Process} (before : p.SameFate q) (after : q.SameFate r) :
    p.SameFate r :=
  ⟨after.pid.trans before.pid, after.parentPid.trans before.parentPid,
    after.pageDir.trans before.pageDir, after.live.trans before.live⟩

theorem Process.SameLife.sameFate {p q : Process} (same : p.SameLife q) : p.SameFate q :=
  ⟨same.pid, same.parentPid, same.pageDir, by rw [Process.Live, Process.Live, same.state]⟩

/-- What any event but a creation does to a process: it may end, but it does not come back, and what
has ended keeps its parent. -/
structure Process.Ages (p q : Process) : Prop where
  pid : q.pid = p.pid
  live : q.Live → p.Live
  parentPid : ¬q.Live → q.parentPid = p.parentPid
  adopted : q.parentPid = p.parentPid ∨ q.parentPid = 1

theorem Process.SameFate.ages {p q : Process} (same : p.SameFate q) : p.Ages q :=
  ⟨same.pid, same.live.mp, fun _ => same.parentPid, Or.inl same.parentPid⟩

theorem Process.Dies.ages {p q : Process} (dies : p.Dies q) : p.Ages q :=
  ⟨dies.pid, fun live => absurd live dies.dead, fun _ => dies.parentPid, Or.inl dies.parentPid⟩

theorem AfterExit.ages {ended slot : Nat} {ender : UInt32} {code : BitVec 32} {p q : Process}
    (after : AfterExit ended ender code slot p q) : p.Ages q := by
  refine ⟨after.pid, fun live => ?_, fun dead => ?_, ?_⟩
  · rw [Process.Live, after.state] at live
    split at live
    · exact absurd rfl live
    · exact live
  · rw [after.parentPid, if_neg]
    rintro ⟨other, alive, -⟩
    rw [Process.Live, after.state, if_neg other] at dead
    exact dead alive
  · rw [after.parentPid]
    split
    · exact Or.inr rfl
    · exact Or.inl rfl

namespace ProcessTable

abbrev SameFates (t t' : ProcessTable) : Prop := t.Slotwise (fun _ p q => p.SameFate q) t'

theorem SameLives.sameFates {t t' : ProcessTable} (same : t.SameLives t') : t.SameFates t' :=
  Slotwise.mono same fun _ _ _ => Process.SameLife.sameFate

theorem SameFates.refl (t : ProcessTable) : t.SameFates t :=
  (SameLives.refl t).sameFates

theorem SameFates.trans {t t' t'' : ProcessTable} (before : t.SameFates t')
    (after : t'.SameFates t'') : t.SameFates t'' :=
  (Slotwise.trans before after).mono fun _ _ _ ⟨_, first, second⟩ => first.trans second

theorem sameFates_modify (t : ProcessTable) (i : Nat) (change : Process → Process)
    (keeps : ∀ p, t.at? i = some p → p.SameFate (change p)) : t.SameFates (t.modify i change) := by
  refine ⟨List.length_modify .., rfl, fun j p held => ?_⟩
  by_cases here : j = i
  · subst here
    exact ⟨change p, by rw [at?_modify_self, held, Option.map_some], keeps p held⟩
  · exact ⟨p, by rw [at?_modify_of_ne t change here, held], Process.SameFate.refl p⟩

/-- Going from one state of a live process to another changes nothing about its life. -/
theorem sameFate_state {p : Process} {state : ProcState} (live : p.Live) (awake : state ≠ .zombie) :
    p.SameFate { p with state := state } :=
  ⟨rfl, rfl, rfl, iff_of_true awake live⟩

theorem sameFate_state_if (p : Process) (before : ProcState) {after : ProcState} {other : Prop}
    [Decidable other] (live : before ≠ .zombie) (awake : after ≠ .zombie)
    (only : other → p.state = before) :
    p.SameFate (if other then { p with state := after } else p) := by
  split
  · rename_i holds
    refine sameFate_state ?_ awake
    rw [Process.Live, only holds]
    exact live
  · exact Process.SameFate.refl p

/-- Which process is the current one decides about no life. -/
theorem Slotwise.setCurrent {related : Nat → Process → Process → Prop} {t t' : ProcessTable}
    (slotwise : t.Slotwise related t') (i : Option Nat) : t.Slotwise related (t'.setCurrent i) :=
  ⟨slotwise.length, slotwise.nextPid, slotwise.slot⟩

theorem start_sameFates (t : ProcessTable) (slot : Nat) : t.SameFates (t.start slot) :=
  Slotwise.setCurrent (t.sameFates_modify slot _ fun p _ =>
    sameFate_state_if p .ready (by decide) (by decide) id) (some slot)

theorem switchTo_sameFates (t : ProcessTable) (slot : Nat) : t.SameFates (t.switchTo slot) := by
  have resumed : ∀ paused : ProcessTable, paused.SameFates ((paused.modify slot fun p =>
      if p.state = .ready then { p with state := .running } else p).setCurrent (some slot)) :=
    fun paused => Slotwise.setCurrent (paused.sameFates_modify slot _ fun p _ =>
      sameFate_state_if p .ready (by decide) (by decide) id) (some slot)
  rw [switchTo]
  split
  · exact resumed t
  · rename_i prev _
    have paused : t.SameFates (t.modify prev fun p =>
        if p.state = .running ∧ prev ≠ slot then { p with state := .ready } else p) :=
      t.sameFates_modify prev _ fun p _ =>
        sameFate_state_if p .running (by decide) (by decide) And.left
    exact SameFates.trans paused (resumed _)

theorem wake_sameFates (t : ProcessTable) (slot : Nat) : t.SameFates (t.wake slot) :=
  t.sameFates_modify slot _ fun p _ => sameFate_state_if p .sleeping (by decide) (by decide) id

/-- A sleeping process lives, so a process that has ended must not go to sleep. -/
theorem sleepCurrent_sameFates {t : ProcessTable} (live : ∀ p, t.getCurrent = some p → p.Live) :
    t.SameFates t.sleepCurrent := by
  rw [sleepCurrent]
  split
  · exact SameFates.refl t
  · rename_i i current
    refine t.sameFates_modify i _ fun p held => ?_
    split
    · exact Process.SameFate.refl p
    · refine sameFate_state (live p ?_) (by decide)
      rw [getCurrent, current]
      exact held

theorem processSigaction_sameLives (sig : Int) (handler : UInt32) (t : ProcessTable) :
    t.SameLives (processSigaction sig handler t).2 := by
  rw [processSigaction]
  split
  · exact SameLives.refl t
  split
  · exact t.sameLives_modify _
      (fun p => { p with sigHandlers := Function.update p.sigHandlers sig.toNat handler })
      fun p => ⟨rfl, rfl, rfl, rfl, rfl⟩
  · exact SameLives.refl t

theorem slotwise_end (t : ProcessTable) (i : Nat) (change : Process → Process)
    (ends : ∀ p : Process, p.Dies (change p)) :
    t.Slotwise (fun j p q => p.SameFate q ∨ j = i ∧ p.Dies q) (t.modify i change) := by
  refine (t.slotwise_modify i change).mono fun j p q changed => ?_
  rw [changed]
  split
  · rename_i here
    exact Or.inr ⟨here, ends p⟩
  · exact Or.inl (Process.SameFate.refl p)

theorem finish_slotwise (t : ProcessTable) (slot : Nat) (code : BitVec 32) :
    t.Slotwise (fun i p q => p.SameFate q ∨ i = slot ∧ p.Dies q) (t.finish slot code) :=
  t.slotwise_end slot _ fun _ => ⟨rfl, rfl, rfl, fun live => live rfl⟩

theorem processKill_slotwise (pid : UInt32) (t : ProcessTable) :
    t.Slotwise (fun i p q => p.SameFate q ∨ (pid ≠ 1 ∧ t.get pid = some i) ∧ p.Dies q)
      (processKill pid t).2 := by
  rw [processKill]
  split
  · exact (SameFates.refl t).mono fun _ _ _ => Or.inl
  rename_i notFirst
  split
  · exact (SameFates.refl t).mono fun _ _ _ => Or.inl
  · rename_i i found
    refine (t.slotwise_end i (fun p => { p with state := .zombie })
      fun _ => ⟨rfl, rfl, rfl, fun live => live rfl⟩).mono fun j p q fate => ?_
    rw [found]
    exact fate.imp id fun dies => ⟨⟨notFirst, by rw [dies.1]⟩, dies.2⟩

/-- A delivered signal ends the current process, if it is one that terminates it. -/
theorem processDeliverSignal_slotwise (sig : Int) (t : ProcessTable) :
    t.Slotwise (fun i p q => p.SameFate q ∨ (t.current = some i ∧ p.Terminates sig) ∧ p.Dies q)
      (processDeliverSignal sig t).2 := by
  have same : t.Slotwise (fun i p q => p.SameFate q ∨
      (t.current = some i ∧ p.Terminates sig) ∧ p.Dies q) t :=
    (SameFates.refl t).mono fun _ _ _ => Or.inl
  rw [processDeliverSignal]
  split
  · rename_i i p current process
    split
    · exact same
    rename_i inside
    rw [not_or, not_le, not_le] at inside
    simp only
    split
    · exact same
    split
    · exact (t.sameLives_modify i (fun p => { p with signalPending := sig })
        fun p => ⟨rfl, rfl, rfl, rfl, rfl⟩).mono fun _ _ _ life => Or.inl life.sameFate
    rename_i default
    split
    · exact same
    · rename_i notChild
      have held : t.at? i = some p := by
        rw [getCurrent, current] at process
        exact process
      have ended := (t.slotwise_end i (Process.terminate sig)
        fun _ => ⟨rfl, rfl, rfl, fun live => live rfl⟩)
      refine ended.monoAt fun j r q heldHere fate => ?_
      refine fate.imp id fun dies => ⟨⟨by rw [current, dies.1], ?_⟩, dies.2⟩
      rw [dies.1, held, Option.some_inj] at heldHere
      rw [← heldHere]
      exact ⟨inside.1, inside.2, not_not.mp default, notChild⟩
  · exact same

/-- The check for signals ends the current process, if its pending signal terminates it. -/
theorem processCheckSignal_slotwise (t : ProcessTable) :
    t.Slotwise (fun i p q => p.SameFate q ∨
        (t.current = some i ∧ p.Terminates p.signalPending) ∧ p.Dies q)
      (processCheckSignal t).2 := by
  have same : t.Slotwise (fun i p q => p.SameFate q ∨
      (t.current = some i ∧ p.Terminates p.signalPending) ∧ p.Dies q) t :=
    (SameFates.refl t).mono fun _ _ _ => Or.inl
  rw [processCheckSignal]
  split
  · rename_i i p current process
    split
    · exact same
    have held : t.at? i = some p := by
      rw [getCurrent, current] at process
      exact process
    have cleared := t.slotwise_modify i fun p => { p with signalPending := 0 }
    have delivered := processDeliverSignal_slotwise p.signalPending
      (t.modify i fun p => { p with signalPending := 0 })
    refine (Slotwise.trans cleared delivered).monoAt fun j a c heldHere steps => ?_
    rcases steps with ⟨b, changed, fate⟩
    have unchanged : a.SameFate b := by
      rw [changed]
      split <;> exact ⟨rfl, rfl, rfl, Iff.rfl⟩
    rcases fate with same | ⟨⟨isCurrent, terminates⟩, dies⟩
    · exact Or.inl (unchanged.trans same)
    · have isThis : t.current = some j := isCurrent
      have here : i = j := Option.some_inj.mp (current.symm.trans isThis)
      subst here
      have samePending : a = p := Option.some_inj.mp (heldHere.symm.trans held)
      rw [changed, if_pos rfl] at terminates
      subst samePending
      refine Or.inr ⟨⟨isThis, terminates⟩, ?_⟩
      exact ⟨dies.pid.trans unchanged.pid, dies.parentPid.trans unchanged.parentPid,
        dies.pageDir.trans unchanged.pageDir, dies.dead⟩
  · exact same

abbrev AgesTo (t t' : ProcessTable) : Prop := t.Slotwise (fun _ p q => p.Ages q) t'

theorem SameFates.agesTo {t t' : ProcessTable} (same : t.SameFates t') : t.AgesTo t' :=
  Slotwise.mono same fun _ _ _ => Process.SameFate.ages

/-- Processes that end under a condition, while nothing happens to the others. -/
theorem Slotwise.agesTo {dies : Nat → Process → Prop} {t t' : ProcessTable}
    (slotwise : t.Slotwise (fun i p q => p.SameFate q ∨ dies i p ∧ p.Dies q) t') : t.AgesTo t' := by
  refine slotwise.mono fun i p q fate => ?_
  rcases fate with same | dead
  · exact same.ages
  · exact dead.2.ages

theorem processExit_agesTo (code : BitVec 32) (t : ProcessTable) : t.AgesTo (processExit code t) := by
  cases process : t.getCurrent with
  | none =>
      rw [processExit_nobody process]
      exact (SameFates.refl t).agesTo
  | some p =>
      rcases Option.bind_eq_some_iff.mp process with ⟨i, current, held⟩
      exact (processExit_slotwise code current held).mono fun _ _ _ => AfterExit.ages

theorem newlyEnded_of_sameFates {t t' : ProcessTable} (same : t.SameFates t') :
    t.newlyEnded t' = [] := by
  rw [List.eq_nil_iff_forall_not_mem]
  intro e member
  rcases mem_newlyEnded.mp member with ⟨i, q, heldBefore, heldAfter, live, dead⟩
  rcases same.slot i e heldBefore with ⟨r, heldLast, fate⟩
  rw [heldAfter, Option.some_inj] at heldLast
  exact dead (heldLast ▸ fate.live.mpr live)

/-! ## Creating -/

/-- What `process_create` does to a table: one slot, new or that of the first zombie, takes the
process. -/
structure Creates (t t' : ProcessTable) (slot : Nat) (p : Process) : Prop where
  new : t'.at? slot = some p
  others : ∀ i, i ≠ slot → t'.at? i = t.at? i
  nextPid : t'.nextPid = t.nextPid + 1
  reused : ∀ z, t.at? slot = some z →
    ¬z.Live ∧ t.slots.findIdx? (fun p => p.state = .zombie) = some slot

theorem processCreate_creates {name : List UInt8} {resources : Resources} {t t' : ProcessTable}
    {slot : Nat} (created : processCreate name resources t = some (slot, t')) :
    t.Creates t' slot (t.fresh slot name resources) := by
  rcases Option.map_eq_some_iff.mp created with ⟨chosen, free, made⟩
  rcases Prod.mk.inj made with ⟨rfl, rfl⟩
  rw [freeSlot] at free
  split at free
  · rename_i i found
    cases free
    rcases List.findIdx?_eq_some_iff_getElem.mp found with ⟨inside, dead, -⟩
    simp only [decide_eq_true_eq] at dead
    refine ⟨?_, fun j different => ?_, rfl, fun z held => ⟨?_, found⟩⟩
    · simp only [at?, if_pos inside, List.getElem?_set_self inside]
    · simp only [at?, if_pos inside, List.getElem?_set_ne (Ne.symm different)]
    · rw [at?, List.getElem?_eq_getElem inside, Option.some_inj] at held
      rw [← held]
      exact fun live => live dead
  · split at free
    · cases free
    · cases free
      refine ⟨?_, fun j different => ?_, rfl, fun z held => ?_⟩
      · simp only [at?, lt_irrefl, if_false, List.getElem?_concat_length]
      · simp only [at?, lt_irrefl, if_false]
        by_cases inside : j < t.slots.length
        · exact List.getElem?_append_left inside
        · rw [List.getElem?_eq_none (by rw [List.length_append, List.length_singleton]; omega),
            List.getElem?_eq_none (not_lt.mp inside)]
      · rw [at?, List.getElem?_eq_none (le_refl _)] at held
        cases held

theorem Creates.newlyEnded {t t' : ProcessTable} {slot : Nat} {p : Process}
    (creates : t.Creates t' slot p) : t.newlyEnded t' = [] := by
  rw [List.eq_nil_iff_forall_not_mem]
  intro e member
  rcases mem_newlyEnded.mp member with ⟨i, q, heldBefore, heldAfter, live, dead⟩
  by_cases here : i = slot
  · rw [here] at heldBefore
    exact (creates.reused e heldBefore).1 live
  · rw [creates.others i here, heldBefore, Option.some_inj] at heldAfter
    exact dead (heldAfter ▸ live)

/-! ## Numbers -/

/-- Processes have different numbers below the next one, also those of their parents, and no live
process has the number of one that ended. -/
structure Numbered (t : ProcessTable) (ended : List Process) : Prop where
  started : 1 < t.nextPid.toNat
  parents : ∀ i p, t.at? i = some p → p.parentPid.toNat < t.nextPid.toNat
  pastParents : ∀ e ∈ ended, e.parentPid.toNat < t.nextPid.toNat
  bounds : ∀ i p, t.at? i = some p → 1 ≤ p.pid.toNat ∧ p.pid.toNat < t.nextPid.toNat
  distinct : ∀ i j p q, t.at? i = some p → t.at? j = some q → p.pid = q.pid → i = j
  past : ∀ e ∈ ended, 1 ≤ e.pid.toNat ∧ e.pid.toNat < t.nextPid.toNat
  gone : ∀ e ∈ ended, ∀ i p, t.at? i = some p → p.pid = e.pid → ¬p.Live

section Numbers

variable {t t' : ProcessTable} {ended : List Process}

theorem Numbered.agesTo (numbered : t.Numbered ended) (ages : t.AgesTo t') :
    t'.Numbered (ended ++ t.newlyEnded t') := by
  refine ⟨?_, ?_, ?_, ?_, ?_, ?_, ?_⟩
  · rw [ages.nextPid]
    exact numbered.started
  · intro i q held
    rcases ages.origin held with ⟨p, heldBefore, aged⟩
    rw [ages.nextPid]
    rcases aged.adopted with same | first
    · rw [same]
      exact numbered.parents i p heldBefore
    · rw [first]
      exact numbered.started
  · intro e member
    rw [ages.nextPid]
    rcases List.mem_append.mp member with old | new
    · exact numbered.pastParents e old
    · rcases mem_newlyEnded.mp new with ⟨i, -, held, -⟩
      exact numbered.parents i e held
  · intro i q held
    rcases ages.origin held with ⟨p, heldBefore, aged⟩
    rw [aged.pid, ages.nextPid]
    exact numbered.bounds i p heldBefore
  · intro i j q q' held held' same
    rcases ages.origin held with ⟨p, heldBefore, aged⟩
    rcases ages.origin held' with ⟨p', heldBefore', aged'⟩
    rw [aged.pid, aged'.pid] at same
    exact numbered.distinct i j p p' heldBefore heldBefore' same
  · intro e member
    rw [ages.nextPid]
    rcases List.mem_append.mp member with old | new
    · exact numbered.past e old
    · rcases mem_newlyEnded.mp new with ⟨i, -, held, -⟩
      exact numbered.bounds i e held
  · intro e member i q held same
    rcases ages.origin held with ⟨p, heldBefore, aged⟩
    rcases List.mem_append.mp member with old | new
    · rw [aged.pid] at same
      exact fun live => numbered.gone e old i p heldBefore same (aged.live live)
    · rcases mem_newlyEnded.mp new with ⟨j, r, heldE, heldR, -, dead⟩
      rw [aged.pid] at same
      rw [← numbered.distinct i j p e heldBefore heldE same, held, Option.some_inj] at heldR
      exact heldR ▸ dead

theorem Numbered.creates {slot : Nat} {p : Process} (numbered : t.Numbered ended)
    (creates : t.Creates t' slot p) (pid : p.pid = t.nextPid)
    (parentPid : p.parentPid.toNat ≤ t.nextPid.toNat) (room : t.nextPid.toNat + 1 < 2 ^ 32) : t'.Numbered (ended ++ t.newlyEnded t') := by
  have next : t'.nextPid.toNat = t.nextPid.toNat + 1 := by
    rw [creates.nextPid, UInt32.toNat_add]
    exact Nat.mod_eq_of_lt room
  have origin : ∀ i q, t'.at? i = some q → i = slot ∧ q = p ∨ i ≠ slot ∧ t.at? i = some q := by
    intro i q held
    by_cases here : i = slot
    · rw [here, creates.new, Option.some_inj] at held
      exact Or.inl ⟨here, held.symm⟩
    · rw [creates.others i here] at held
      exact Or.inr ⟨here, held⟩
  rw [creates.newlyEnded, List.append_nil]
  refine ⟨by rw [next]; exact Nat.lt_succ_of_lt numbered.started, ?_, ?_, ?_, ?_, ?_, ?_⟩
  · intro i q held
    rw [next]
    rcases origin i q held with ⟨-, rfl⟩ | ⟨-, old⟩
    · exact Nat.lt_succ_of_le parentPid
    · exact Nat.lt_succ_of_lt (numbered.parents i q old)
  · intro e member
    rw [next]
    exact Nat.lt_succ_of_lt (numbered.pastParents e member)
  · intro i q held
    rw [next]
    rcases origin i q held with ⟨-, rfl⟩ | ⟨-, old⟩
    · rw [pid]
      exact ⟨numbered.started.le, Nat.lt_succ_self _⟩
    · exact ⟨(numbered.bounds i q old).1, Nat.lt_succ_of_lt (numbered.bounds i q old).2⟩
  · intro i j q r heldQ heldR same
    rcases origin i q heldQ with ⟨rfl, rfl⟩ | ⟨-, oldQ⟩ <;>
      rcases origin j r heldR with ⟨rfl, rfl⟩ | ⟨-, oldR⟩
    · rfl
    · have below := (numbered.bounds j r oldR).2
      rw [← same, pid] at below
      exact absurd below (lt_irrefl _)
    · have below := (numbered.bounds i q oldQ).2
      rw [same, pid] at below
      exact absurd below (lt_irrefl _)
    · exact numbered.distinct i j q r oldQ oldR same
  · intro e member
    rw [next]
    exact ⟨(numbered.past e member).1, Nat.lt_succ_of_lt (numbered.past e member).2⟩
  · intro e member i q held same
    rcases origin i q held with ⟨-, rfl⟩ | ⟨-, old⟩
    · have below := (numbered.past e member).2
      rw [← same, pid] at below
      exact absurd below (lt_irrefl _)
    · exact numbered.gone e member i q old same

/-- The parent of a created process is the current one, nobody, or the process itself where the slot
of the current process is taken. -/
theorem Numbered.fresh_parentPid_le (numbered : t.Numbered ended) (slot : Nat) (name : List UInt8)
    (resources : Resources) : (t.fresh slot name resources).parentPid.toNat ≤ t.nextPid.toNat := by
  rw [fresh]
  dsimp only
  split
  · exact le_refl _
  · split
    · rename_i parent process
      rcases Option.bind_eq_some_iff.mp process with ⟨i, -, held⟩
      exact (numbered.bounds i parent held).2.le
    · exact Nat.zero_le _

end Numbers

end ProcessTable

namespace System

def init : System := ⟨processInit, Descriptors.init, fun _ => 0, [], [], []⟩

def withTable (s : System) (t : ProcessTable) : System :=
  { s with table := t, ended := s.ended ++ s.table.newlyEnded t }

def exit (s : System) (code : BitVec 32) : System :=
  match s.table.getCurrent with
  | none => s
  | some p => { s.withTable (processExit code s.table) with
      descriptors := s.descriptors.fdCleanupProcess p.pid
      notified := if 0 < p.parentPid then s.notified ++ [(p.pid, p.parentPid)] else s.notified }

def step (s : System) : LifeEvent → System
  | .create name resources =>
      match processCreate name resources s.table with
      | none => s
      | some (_, t) => s.withTable t
  | .start slot => s.withTable (s.table.start slot)
  | .setCurrent slot => s.withTable (s.table.setCurrent slot)
  | .switch slot => s.withTable (s.table.switchTo slot)
  | .sleep => s.withTable s.table.sleepCurrent
  | .wake slot => s.withTable (s.table.wake slot)
  | .exit code => s.exit code
  | .kill pid => s.withTable (processKill pid s.table).2
  | .signal pid sig => s.withTable (processSignal pid sig s.table).2
  | .brokenPipe =>
      match s.table.current with
      | none => s
      | some i => s.withTable (s.table.modify i fun p => { p with signalPending := sigpipe })
  | .checkSignal => s.withTable (processCheckSignal s.table).2
  | .sigaction sig handler => s.withTable (processSigaction sig handler s.table).2
  | .finish slot code => s.withTable (s.table.finish slot code)
  | .waitpid pid options =>
      match processWaitpid pid options s.table with
      | some (.reported child _) => { s with reports := s.reports ++ [child] }
      | _ => s
  | .openFile node pos flags =>
      match s.descriptors.openFile node pos flags s.table.currentPid with
      | none => s
      | some (_, d) => { s with descriptors := d }
  | .closeFile fd => { s with descriptors := s.descriptors.closeFile fd }
  | .openDir node =>
      match s.descriptors.openDir node with
      | none => s
      | some (dh, d) => { s with
          descriptors := d
          handleOwner := Function.update s.handleOwner dh s.table.currentPid }
  | .closeDir dh => { s with descriptors := s.descriptors.closeDir dh }

def run (s : System) : List LifeEvent → System
  | [] => s
  | event :: rest => (s.step event).run rest

def Meets (condition : System → LifeEvent → Prop) (s : System) : List LifeEvent → Prop
  | [] => True
  | event :: rest => condition s event ∧ Meets condition (s.step event) rest

/-- What every event that meets a condition preserves holds after every run that meets it. -/
theorem run_preserves {condition : System → LifeEvent → Prop} {invariant : System → Prop}
    (step_preserves : ∀ s event, invariant s → condition s event → invariant (s.step event))
    {s : System} (start : invariant s) (events : List LifeEvent) (meets : s.Meets condition events) :
    invariant (s.run events) := by
  induction events generalizing s with
  | nil => exact start
  | cons event rest known => exact known (step_preserves s event start meets.1) meets.2

/-! ## One event -/

/-- What one event does to the table: it creates a process, or processes age.  Those that end are
recorded. -/
structure TableStep (s : System) (event : LifeEvent) (s' : System) : Prop where
  ended : s'.ended = s.ended ++ s.table.newlyEnded s'.table
  table : s.table.AgesTo s'.table ∨
    ∃ slot name resources, event = .create name resources ∧
      s.table.Creates s'.table slot (s.table.fresh slot name resources)

theorem TableStep.ages (s : System) {event : LifeEvent} {t : ProcessTable}
    (ages : s.table.AgesTo t) : s.TableStep event (s.withTable t) := ⟨rfl, Or.inl ages⟩

theorem TableStep.same {s s' : System} {event : LifeEvent} (table : s'.table = s.table)
    (ended : s'.ended = s.ended) : s.TableStep event s' := by
  have nothing := ProcessTable.SameFates.refl s.table
  refine ⟨?_, ?_⟩
  · rw [table, ended, ProcessTable.newlyEnded_of_sameFates nothing, List.append_nil]
  · rw [table]
    exact Or.inl nothing.agesTo

/-- An event creates a process or lets processes age, as long as no process that has ended goes to
sleep. -/
theorem step_tableStep (s : System) (event : LifeEvent)
    (awake : event = .sleep → ∀ p, s.table.getCurrent = some p → p.Live) :
    s.TableStep event (s.step event) := by
  cases event with
  | create name resources =>
      rw [step]
      split
      · exact TableStep.same rfl rfl
      · rename_i slot t created
        have creates := ProcessTable.processCreate_creates created
        exact ⟨rfl, Or.inr ⟨slot, name, resources, rfl, creates⟩⟩
  | start slot => exact TableStep.ages s (s.table.start_sameFates slot).agesTo
  | setCurrent slot =>
      exact TableStep.ages s (ProcessTable.SameFates.refl s.table |>.agesTo.setCurrent slot)
  | switch slot => exact TableStep.ages s (s.table.switchTo_sameFates slot).agesTo
  | sleep => exact TableStep.ages s (ProcessTable.sleepCurrent_sameFates (awake rfl)).agesTo
  | wake slot => exact TableStep.ages s (s.table.wake_sameFates slot).agesTo
  | exit code =>
      rw [step, exit]
      split
      · exact TableStep.same rfl rfl
      · exact ⟨rfl, Or.inl (ProcessTable.processExit_agesTo code s.table)⟩
  | kill pid => exact TableStep.ages s (ProcessTable.processKill_slotwise pid s.table).agesTo
  | signal pid sig => exact TableStep.ages s (processSignal_sameLives pid sig s.table).sameFates.agesTo
  | brokenPipe =>
      rw [step]
      split
      · exact TableStep.same rfl rfl
      · rename_i i _
        exact TableStep.ages s (ProcessTable.SameLives.sameFates (s.table.sameLives_modify i
          (fun p => { p with signalPending := sigpipe }) fun p => ⟨rfl, rfl, rfl, rfl, rfl⟩)).agesTo
  | checkSignal => exact TableStep.ages s (ProcessTable.processCheckSignal_slotwise s.table).agesTo
  | sigaction sig handler =>
      exact TableStep.ages s
        (ProcessTable.processSigaction_sameLives sig handler s.table).sameFates.agesTo
  | finish slot code => exact TableStep.ages s (s.table.finish_slotwise slot code).agesTo
  | waitpid pid options | openFile node pos flags | openDir node =>
      rw [step]
      split
      · exact TableStep.same rfl rfl
      · exact TableStep.same rfl rfl
  | closeFile fd => exact TableStep.same rfl rfl
  | closeDir dh => exact TableStep.same rfl rfl

/-- Numbers stay different as long as they do not run out. -/
theorem TableStep.numbered {s s' : System} {event : LifeEvent} (stepped : s.TableStep event s')
    (numbered : s.table.Numbered s.ended)
    (room : ∀ name resources, event = .create name resources →
      s.table.nextPid.toNat + 1 < 2 ^ 32) : s'.table.Numbered s'.ended := by
  rw [stepped.ended]
  rcases stepped.table with ages | ⟨slot, name, resources, created, creates⟩
  · exact numbered.agesTo ages
  · exact numbered.creates creates rfl (numbered.fresh_parentPid_le slot name resources)
      (room name resources created)

theorem init_numbered : init.table.Numbered init.ended := by
  have slots : ∀ i p, init.table.at? i = some p → p.pid.toNat = i + 1 ∧ p.parentPid = 0 ∧ i < 4 := by
    intro i p held
    rcases List.getElem?_eq_some_iff.mp held with ⟨inside, same⟩
    change i < 4 at inside
    rw [← same]
    interval_cases i <;> exact ⟨rfl, rfl, by decide⟩
  refine ⟨by decide, ?_, fun e member => absurd member List.not_mem_nil, ?_, ?_,
    fun e member => absurd member List.not_mem_nil, fun e member => absurd member List.not_mem_nil⟩
  · intro i p held
    rw [(slots i p held).2.1]
    decide
  · intro i p held
    rw [(slots i p held).1]
    exact ⟨Nat.le_add_left 1 i, Nat.succ_lt_succ (slots i p held).2.2⟩
  · intro i j p q heldP heldQ same
    have numbers := congrArg UInt32.toNat same
    rw [(slots i p heldP).1, (slots j q heldQ).1] at numbers
    exact Nat.succ_injective numbers

end System

end Trinux
