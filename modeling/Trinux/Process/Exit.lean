import Trinux.Process.Table

namespace Trinux

/-!
# What the operations leave of a process

One lemma for each operation of the process table that says what becomes of the process in
each slot.  Only the fields that decide about its life count here: its number, its state, its
exit code, its page directory and its parent.
-/

structure Process.SameLife (p q : Process) : Prop where
  pid : q.pid = p.pid
  state : q.state = p.state
  exitCode : q.exitCode = p.exitCode
  pageDir : q.pageDir = p.pageDir
  parentPid : q.parentPid = p.parentPid

theorem Process.SameLife.refl (p : Process) : p.SameLife p := ⟨rfl, rfl, rfl, rfl, rfl⟩

theorem Process.SameLife.trans {p q r : Process} (before : p.SameLife q) (after : q.SameLife r) :
    p.SameLife r :=
  ⟨after.pid.trans before.pid, after.state.trans before.state,
    after.exitCode.trans before.exitCode, after.pageDir.trans before.pageDir,
    after.parentPid.trans before.parentPid⟩

namespace ProcessTable

/-- Every slot of the first table is a slot of the second one, with a related process, and the
second one has no other slots.  The number of the next process is the same. -/
structure Slotwise (related : Nat → Process → Process → Prop) (t t' : ProcessTable) : Prop where
  length : t'.slots.length = t.slots.length
  nextPid : t'.nextPid = t.nextPid
  slot : ∀ i p, t.at? i = some p → ∃ q, t'.at? i = some q ∧ related i p q

/-- A slot of the second table comes from a slot of the first one. -/
theorem Slotwise.origin {related : Nat → Process → Process → Prop} {t t' : ProcessTable}
    (slotwise : t.Slotwise related t') {i : Nat} {q : Process} (held : t'.at? i = some q) :
    ∃ p, t.at? i = some p ∧ related i p q := by
  rcases List.getElem?_eq_some_iff.mp held with ⟨inside, -⟩
  have before : i < t.slots.length := slotwise.length ▸ inside
  rcases slotwise.slot i _ (List.getElem?_eq_getElem before) with ⟨q', held', isRelated⟩
  rw [held, Option.some_inj] at held'
  exact ⟨_, List.getElem?_eq_getElem before, held' ▸ isRelated⟩

abbrev SameLives (t t' : ProcessTable) : Prop := t.Slotwise (fun _ p q => p.SameLife q) t'

theorem SameLives.refl (t : ProcessTable) : t.SameLives t :=
  ⟨rfl, rfl, fun _ p held => ⟨p, held, Process.SameLife.refl p⟩⟩

theorem Slotwise.trans {first second : Nat → Process → Process → Prop} {t t' t'' : ProcessTable}
    (before : t.Slotwise first t') (after : t'.Slotwise second t'') :
    t.Slotwise (fun i p r => ∃ q, first i p q ∧ second i q r) t'' := by
  refine ⟨after.length.trans before.length, after.nextPid.trans before.nextPid, fun i p held => ?_⟩
  rcases before.slot i p held with ⟨q, heldNext, isFirst⟩
  rcases after.slot i q heldNext with ⟨r, heldLast, isSecond⟩
  exact ⟨r, heldLast, q, isFirst, isSecond⟩

theorem Slotwise.monoAt {strong weak : Nat → Process → Process → Prop} {t t' : ProcessTable}
    (slotwise : t.Slotwise strong t')
    (implies : ∀ i p q, t.at? i = some p → strong i p q → weak i p q) : t.Slotwise weak t' := by
  refine ⟨slotwise.length, slotwise.nextPid, fun i p held => ?_⟩
  rcases slotwise.slot i p held with ⟨q, heldNext, isStrong⟩
  exact ⟨q, heldNext, implies i p q held isStrong⟩

theorem Slotwise.mono {strong weak : Nat → Process → Process → Prop} {t t' : ProcessTable}
    (slotwise : t.Slotwise strong t') (implies : ∀ i p q, strong i p q → weak i p q) :
    t.Slotwise weak t' :=
  slotwise.monoAt fun i p q _ => implies i p q

theorem SameLives.trans {t t' t'' : ProcessTable} (before : t.SameLives t')
    (after : t'.SameLives t'') : t.SameLives t'' :=
  (Slotwise.trans before after).mono fun _ _ _ ⟨_, first, second⟩ => first.trans second

theorem slotwise_modify (t : ProcessTable) (i : Nat) (change : Process → Process) :
    t.Slotwise (fun j p q => q = if j = i then change p else p) (t.modify i change) := by
  refine ⟨List.length_modify .., rfl, fun j p held => ?_⟩
  by_cases here : j = i
  · subst here
    exact ⟨change p, by rw [at?_modify_self, held, Option.map_some], (if_pos rfl).symm⟩
  · exact ⟨p, by rw [at?_modify_of_ne t change here, held], (if_neg here).symm⟩

/-- Changing one process in what does not decide about its life. -/
theorem sameLives_modify (t : ProcessTable) (i : Nat) (change : Process → Process)
    (keeps : ∀ p : Process, p.SameLife (change p)) : t.SameLives (t.modify i change) := by
  refine (t.slotwise_modify i change).mono fun j p q changed => ?_
  rw [changed]
  split
  · exact keeps p
  · exact Process.SameLife.refl p

theorem slotwise_map (t : ProcessTable) (change : Process → Process) :
    t.Slotwise (fun _ p q => q = change p) { t with slots := t.slots.map change } := by
  refine ⟨List.length_map .., rfl, fun j p held => ⟨change p, ?_, rfl⟩⟩
  rw [at?] at held
  rw [at?, List.getElem?_map, held, Option.map_some]

end ProcessTable

/-! ## Signals, kills and names -/

section Operations

open ProcessTable

theorem processSignal_sameLives (pid : UInt32) (sig : Int) (t : ProcessTable) :
    t.SameLives (processSignal pid sig t).2 := by
  rw [processSignal]
  split
  · exact SameLives.refl t
  · exact t.sameLives_modify _ (fun p => { p with signalPending := sig })
      fun p => ⟨rfl, rfl, rfl, rfl, rfl⟩

theorem reapNames_sameLives (t : ProcessTable) : t.SameLives t.reapNames := by
  rw [reapNames]
  split
  · refine (t.slotwise_map _).mono fun _ p q changed => ?_
    rw [changed]
    split
    · exact ⟨rfl, rfl, rfl, rfl, rfl⟩
    · exact Process.SameLife.refl p
  · exact SameLives.refl t

structure AfterExit (ended : Nat) (ender : UInt32) (code : BitVec 32) (slot : Nat)
    (p q : Process) : Prop where
  pid : q.pid = p.pid
  state : q.state = if slot = ended then .zombie else p.state
  exitCode : q.exitCode = if slot = ended then code else p.exitCode
  pageDir : q.pageDir = if slot = ended then 0 else p.pageDir
  parentPid : q.parentPid =
    if slot ≠ ended ∧ p.state ≠ .zombie ∧ p.parentPid = ender ∧ p.pid ≠ 1 then 1 else p.parentPid

/-- `process_exit` ends the current process, hands its live children to `init` and changes no other
life. -/
theorem processExit_slotwise (code : BitVec 32) {t : ProcessTable} {i : Nat} {p : Process}
    (current : t.current = some i) (held : t.at? i = some p) :
    t.Slotwise (AfterExit i p.pid code) (processExit code t) := by
  have process : t.getCurrent = some p := by
    rw [getCurrent, current]
    exact held
  rw [processExit, current, process]
  dsimp only
  have ended := t.slotwise_modify i fun q => { q with exitCode := code, state := .zombie }
  generalize (t.modify i fun q => { q with exitCode := code, state := .zombie }) = dead at ended ⊢
  have adopted : t.Slotwise _ (dead.adoptOrphans p.pid) := ended.trans (dead.slotwise_map _)
  generalize dead.adoptOrphans p.pid = handed at adopted ⊢
  have notified : handed.SameLives
      (if 0 < p.parentPid then (processSignal p.parentPid sigchld handed).2 else handed) := by
    split
    · exact processSignal_sameLives _ _ _
    · exact SameLives.refl _
  generalize (if 0 < p.parentPid then (processSignal p.parentPid sigchld handed).2 else handed) = told
    at notified ⊢
  have named : handed.SameLives told.reapNames := notified.trans (reapNames_sameLives told)
  generalize told.reapNames = last at named ⊢
  have cleared := Slotwise.trans named (last.slotwise_modify i fun q => { q with pageDir := 0 })
  refine (adopted.trans cleared).mono fun j a e steps => ?_
  rcases steps with ⟨c, ⟨b, changed, mapped⟩, d, same, freed⟩
  have samePid := same.pid
  have sameState := same.state
  have sameCode := same.exitCode
  have samePageDir := same.pageDir
  have sameParent := same.parentPid
  by_cases here : j = i
  · rw [if_pos here] at changed freed
    rw [changed, if_neg (fun live => live.1 rfl)] at mapped
    rw [mapped] at samePid sameCode sameState sameParent
    refine ⟨?_, ?_, ?_, ?_, ?_⟩
    all_goals simp only [freed, here, samePid, sameCode, sameState, sameParent, if_true,
      ne_eq, not_true_eq_false, false_and, if_false]
  · rw [if_neg here] at changed freed
    rw [changed] at mapped
    by_cases orphan : a.state ≠ .zombie ∧ a.parentPid = p.pid ∧ a.pid ≠ 1
    · rw [if_pos orphan] at mapped
      rw [mapped] at samePid sameCode sameState sameParent samePageDir
      refine ⟨?_, ?_, ?_, ?_, ?_⟩
      all_goals simp only [freed, here, samePid, sameCode, sameState, sameParent, samePageDir,
        if_false, ne_eq, not_false_eq_true, true_and]
      exact (if_pos orphan).symm
    · rw [if_neg orphan] at mapped
      rw [mapped] at samePid sameCode sameState sameParent samePageDir
      refine ⟨?_, ?_, ?_, ?_, ?_⟩
      all_goals simp only [freed, here, samePid, sameCode, sameState, sameParent, samePageDir,
        if_false, ne_eq, not_false_eq_true, true_and]
      exact (if_neg orphan).symm

end Operations

end Trinux
