import Trinux.Process.Lifecycle

namespace Trinux

/-!
# Reporting children

A zombie stays in the table until a creation takes its slot, also after its parent has waited
for it.  So a parent that waits twice gets the same child twice, and a creation can take the
slot of a zombie whose parent has not waited yet.
-/

namespace System

/-- The exit of every child is reported to its parent exactly once: no child is reported twice, and a
child whose parent lives was reported or can still be. -/
structure ReportedOnce (s : System) : Prop where
  once : s.reports.Nodup
  kept : ∀ e ∈ s.ended, (∃ i p, s.table.at? i = some p ∧ p.Live ∧ p.pid = e.parentPid) →
    e.pid ∈ s.reports ∨
      ∃ i z, s.table.at? i = some z ∧ ¬z.Live ∧ z.pid = e.pid ∧ z.parentPid = e.parentPid

/-- Nothing is lost with the slot of a zombie that was reported, or has no live parent. -/
def Settled (s : System) (z : Process) : Prop :=
  z.pid ∈ s.reports ∨ ¬∃ i p, s.table.at? i = some p ∧ p.Live ∧ p.pid = z.parentPid

/-- The events after which every child is still reported once.  At a creation every zombie whose
parent lives and has not waited for it stands behind another zombie in the table, one that is
settled, and numbers have not run out.  At a wait every child that has ended, matches and was
reported stands behind one that matches and was not; and no process that has ended goes to sleep. -/
def Reaps (s : System) : LifeEvent → Prop
  | .create _ _ =>
      s.table.nextPid.toNat + 1 < 2 ^ 32 ∧
        ∀ slot z, s.table.at? slot = some z → z.state = .zombie → ¬s.Settled z →
          ∃ before other, before < slot ∧ s.table.at? before = some other ∧
            other.state = .zombie ∧ s.Settled other
  | .waitpid pid _ =>
      ∀ me, s.table.getCurrent = some me → ∀ slot child, s.table.at? slot = some child →
        child.isWaitedFor me.pid pid → child.state = .zombie → child.pid ∈ s.reports →
          ∃ before other, before < slot ∧ s.table.at? before = some other ∧
            other.isWaitedFor me.pid pid ∧ other.state = .zombie ∧ other.pid ∉ s.reports
  | .sleep => ∀ p, s.table.getCurrent = some p → p.Live
  | _ => True

theorem Reaps.awake {s : System} {event : LifeEvent} (reaps : s.Reaps event) :
    event = .sleep → ∀ p, s.table.getCurrent = some p → p.Live := by
  rintro rfl
  exact reaps

theorem Reaps.room {s : System} {event : LifeEvent} (reaps : s.Reaps event) :
    ∀ name resources, event = .create name resources → s.table.nextPid.toNat + 1 < 2 ^ 32 := by
  rintro name resources rfl
  exact reaps.1

section Steps

variable {s s' : System} {event : LifeEvent}

theorem ReportedOnce.agesTo (reported : s.ReportedOnce) (ages : s.table.AgesTo s'.table)
    (ended : s'.ended = s.ended ++ s.table.newlyEnded s'.table) (reports : s'.reports = s.reports) :
    s'.ReportedOnce := by
  refine ⟨reports ▸ reported.once, fun e member parent => ?_⟩
  rw [ended] at member
  rw [reports]
  rcases List.mem_append.mp member with old | new
  · rcases parent with ⟨i, q, held, live, isParent⟩
    rcases ages.origin held with ⟨p, heldBefore, aged⟩
    have before := reported.kept e old ⟨i, p, heldBefore, aged.live live, aged.pid ▸ isParent⟩
    refine before.imp id ?_
    rintro ⟨j, z, heldZ, dead, samePid, sameParent⟩
    rcases ages.slot j z heldZ with ⟨z', heldZ', agedZ⟩
    have stillDead : ¬z'.Live := fun alive => dead (agedZ.live alive)
    exact ⟨j, z', heldZ', stillDead, agedZ.pid.trans samePid,
      (agedZ.parentPid stillDead).trans sameParent⟩
  · rcases ProcessTable.mem_newlyEnded.mp new with ⟨j, z, heldE, heldZ, -, dead⟩
    rcases ages.origin heldZ with ⟨p, heldBefore, aged⟩
    rw [heldE, Option.some_inj] at heldBefore
    subst heldBefore
    exact Or.inr ⟨j, z, heldZ, dead, aged.pid, aged.parentPid dead⟩

/-- A creation that takes the slot of a zombie whose report is not missing. -/
theorem ReportedOnce.creates (reported : s.ReportedOnce) (numbered : s.table.Numbered s.ended)
    {slot : Nat} {p : Process} (creates : s.table.Creates s'.table slot p)
    (pid : p.pid = s.table.nextPid)
    (spare : ∀ z, s.table.at? slot = some z → s.Settled z)
    (ended : s'.ended = s.ended) (reports : s'.reports = s.reports) : s'.ReportedOnce := by
  refine ⟨reports ▸ reported.once, fun e member parent => ?_⟩
  rw [ended] at member
  rw [reports]
  rcases parent with ⟨i, q, held, live, isParent⟩
  have other : i ≠ slot := by
    intro here
    rw [here, creates.new, Option.some_inj] at held
    have below := numbered.pastParents e member
    rw [← isParent, ← held, pid] at below
    exact lt_irrefl _ below
  rw [creates.others i other] at held
  rcases reported.kept e member ⟨i, q, held, live, isParent⟩ with done | waiting
  · exact Or.inl done
  rcases waiting with ⟨j, z, heldZ, dead, samePid, sameParent⟩
  by_cases here : j = slot
  · subst here
    rcases spare z heldZ with done | orphan
    · exact Or.inl (samePid ▸ done)
    · exact absurd ⟨i, q, held, live, isParent.trans sameParent.symm⟩ orphan
  · exact Or.inr ⟨j, z, by rw [creates.others j here, heldZ], dead, samePid, sameParent⟩

theorem step_reports (notWait : ∀ pid options, event ≠ .waitpid pid options) :
    (s.step event).reports = s.reports := by
  cases event with
  | create name resources =>
      rw [step]
      split <;> rfl
  | exit code =>
      rw [step, exit]
      split <;> rfl
  | brokenPipe =>
      rw [step]
      split <;> rfl
  | waitpid pid options => exact absurd rfl (notWait pid options)
  | openFile node pos flags =>
      rw [step]
      split <;> rfl
  | openDir node =>
      rw [step]
      split <;> rfl
  | start | setCurrent | switch | sleep | wake | kill | signal | checkSignal | sigaction | finish
  | closeFile | closeDir => rfl

theorem Reaps.takes {name : List UInt8} {resources : Resources} {slot : Nat} {z : Process}
    (reaps : s.Reaps (.create name resources))
    (first : s.table.slots.findIdx? (fun p => p.state = .zombie) = some slot)
    (held : s.table.at? slot = some z) : s.Settled z := by
  rcases List.findIdx?_eq_some_iff_getElem.mp first with ⟨inside, isZombie, earlier⟩
  have same : s.table.slots[slot] = z := List.getElem_eq_iff inside |>.mpr held
  rw [same] at isZombie
  by_contra unsettled
  rcases reaps.2 slot z held (of_decide_eq_true isZombie) unsettled with
    ⟨before, other, ahead, there, zombie, -⟩
  rcases List.getElem?_eq_some_iff.mp there with ⟨_, isOther⟩
  have notFirst := earlier before ahead
  rw [isOther] at notFirst
  exact notFirst (decide_eq_true zombie)

theorem Reaps.fresh {pid : Int} {options : UInt32} {me child : Process}
    (reaps : s.Reaps (.waitpid pid options)) (current : s.table.getCurrent = some me)
    (first : s.table.slots.find? (fun child => child.isWaitedFor me.pid pid ∧
      child.state = .zombie) = some child) : child.pid ∉ s.reports := by
  rcases List.find?_eq_some_iff_getElem.mp first with ⟨found, slot, inside, same, earlier⟩
  intro again
  have held : s.table.at? slot = some child := List.getElem?_eq_some_iff.mpr ⟨inside, same⟩
  have matched := of_decide_eq_true found
  rcases reaps me current slot child held matched.1 matched.2 again with
    ⟨before, other, ahead, there, waited, zombie, -⟩
  rcases List.getElem?_eq_some_iff.mp there with ⟨_, isOther⟩
  have notFirst := earlier before ahead
  rw [isOther, decide_eq_true ⟨waited, zombie⟩] at notFirst
  cases notFirst

theorem ReportedOnce.waitpid (reported : s.ReportedOnce) {pid : Int} {options : UInt32}
    (reaps : s.Reaps (.waitpid pid options)) : (s.step (.waitpid pid options)).ReportedOnce := by
  rw [step]
  split
  · rename_i child status found
    rcases processWaitpid_reported found with ⟨me, process, current, rfl, -, first⟩
    have fresh := reaps.fresh current first
    refine ⟨?_, fun e member parent => ?_⟩
    · exact List.Nodup.append reported.once (List.nodup_singleton _)
        fun number member same => fresh (List.mem_singleton.mp same ▸ member)
    · exact (reported.kept e member parent).imp (List.mem_append_left _) id
  · exact reported

structure Reported (s : System) : Prop where
  numbered : s.table.Numbered s.ended
  once : s.ReportedOnce

theorem Reported.step (reported : s.Reported) (reaps : s.Reaps event) : (s.step event).Reported := by
  have stepped := s.step_tableStep event reaps.awake
  refine ⟨stepped.numbered reported.numbered reaps.room, ?_⟩
  by_cases wait : ∃ pid options, event = .waitpid pid options
  · rcases wait with ⟨pid, options, rfl⟩
    exact reported.once.waitpid reaps
  have reports := s.step_reports fun pid options same => wait ⟨pid, options, same⟩
  rcases stepped.table with ages | ⟨slot, name, resources, created, creates⟩
  · exact reported.once.agesTo ages stepped.ended reports
  · have ended := stepped.ended
    rw [creates.newlyEnded, List.append_nil] at ended
    subst created
    exact reported.once.creates reported.numbered creates rfl
      (fun z held => reaps.takes (creates.reused z held).2 held) ended reports

end Steps

theorem init_reported : init.Reported :=
  ⟨init_numbered, List.nodup_nil, fun _ member => absurd member List.not_mem_nil⟩

/-- In every run in which zombies whose report is missing stand behind settled ones at a creation,
and reported children behind unreported ones at a wait, every child is reported to its parent
once. -/
theorem run_reportedOnce (events : List LifeEvent) (meets : init.Meets Reaps events) :
    (init.run events).ReportedOnce :=
  (run_preserves (fun _ _ reported => reported.step) init_reported events meets).once

/-- The events by which numbers do not run out, and after which no process that has ended sleeps. -/
def Counts (s : System) : LifeEvent → Prop
  | .create _ _ => s.table.nextPid.toNat + 1 < 2 ^ 32
  | .sleep => ∀ p, s.table.getCurrent = some p → p.Live
  | _ => True

/-- Until the numbers run out, `process_get` finds every live process under its number, and never
under the number of a process that has ended, which is not given again. -/
theorem run_found (events : List LifeEvent) (meets : init.Meets Counts events) (i : Nat)
    (p : Process) (held : (init.run events).table.at? i = some p) (live : p.Live) :
    (init.run events).table.get p.pid = some i ∧ ∀ e ∈ (init.run events).ended, e.pid ≠ p.pid := by
  have numbered : (init.run events).table.Numbered (init.run events).ended := by
    apply @run_preserves Counts (fun s => s.table.Numbered s.ended) _ _ init_numbered events meets
    intro s event numbered counts
    refine (s.step_tableStep event ?_).numbered numbered ?_
    · rintro rfl
      exact counts
    · rintro name resources rfl
      exact counts
  refine ⟨?_, fun e member same => numbered.gone e member i p held same.symm live⟩
  generalize (init.run events).table = t at numbered held
  cases found : t.get p.pid with
  | none =>
      have missing := List.findIdx?_eq_none_iff.mp found p (List.mem_of_getElem? held)
      exact absurd live (by simpa [Process.Live] using missing)
  | some j =>
      rcases t.get_eq_some found with ⟨q, heldQ, same, -⟩
      rw [numbered.distinct j i q p heldQ held same]

/-! ## A child of `init` -/

def childExits : List LifeEvent :=
  [.create (literal "app") ⟨0x8000000, 0x400000⟩, .start 4, .exit 0, .setCurrent (some 0)]

/-- A parent that waits twice gets the same child twice, and a creation takes the slot of a child for
which its parent has not waited. -/
theorem child_misreported :
    ¬(init.run (childExits ++ [.waitpid (-1) 0, .waitpid (-1) 0])).ReportedOnce ∧
      ¬(init.run (childExits ++ [.create (literal "next") ⟨0x8001000, 0x404000⟩])).ReportedOnce := by
  refine ⟨fun reported => absurd reported.once (by decide), fun reported => ?_⟩
  generalize system : init.run (childExits ++ [.create (literal "next") ⟨0x8001000, 0x404000⟩]) = s
    at reported
  have child : ∃ e ∈ s.ended, e.pid = 5 ∧ e.parentPid = 1 := by
    subst system
    exact ⟨_, List.mem_cons_self, rfl, rfl⟩
  have parent : ∃ i p, s.table.at? i = some p ∧ p.Live ∧ p.pid = 1 := by
    subst system
    exact ⟨0, _, rfl, by decide, rfl⟩
  have unreported : (5 : UInt32) ∉ s.reports := by
    subst system
    decide
  have absent : ∀ i, (s.table.at? i).map Process.pid ≠ some 5 := by
    subst system
    intro i
    have none_ : ∀ p ∈ (init.run (childExits ++
        [.create (literal "next") ⟨0x8001000, 0x404000⟩])).table.slots, p.pid ≠ 5 := by decide
    intro found
    rcases Option.map_eq_some_iff.mp found with ⟨p, held, number⟩
    exact none_ p (List.mem_of_getElem? held) number
  rcases child with ⟨e, member, number, ofInit⟩
  rcases reported.kept e member (ofInit ▸ parent) with done | ⟨i, z, held, -, samePid, -⟩
  · exact unreported (number ▸ done)
  · exact absent i (by rw [held, Option.map_some, samePid, number])

theorem run_reportedOnce_childExits :
    (init.run (childExits ++ [.waitpid (-1) 0])).ReportedOnce := by
  apply run_reportedOnce
  refine ⟨⟨by decide, fun slot z held zombie => ?_⟩, trivial, trivial, trivial,
    fun _ _ _ _ _ _ _ reported => absurd reported List.not_mem_nil, trivial⟩
  have noZombie : ∀ p ∈ init.table.slots, p.state ≠ .zombie := by decide
  exact absurd zombie (noZombie z (List.mem_of_getElem? held))

theorem run_found_childExits :
    (init.run childExits).table.get 1 = some 0 ∧ ∀ e ∈ (init.run childExits).ended, e.pid ≠ 1 :=
  run_found childExits ⟨(by decide : _ < _), trivial, trivial, trivial, trivial⟩ 0 _ rfl (by decide)

end System

end Trinux
