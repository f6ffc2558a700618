import Trinux.Process.Lifecycle

namespace Trinux

/-!
# What a process leaves behind

`process_exit` closes files, hands children to `init`, notifies the parent and gives back
the page directory.  The other ways into the zombie state do none of this, and not even
`process_exit` closes directory handles.
-/

namespace System

/-- A process that has ended is torn down: it owns no file and no directory handle, no live process
has it as its parent, its page directory is gone, and its parent was notified. -/
structure TornDown (s : System) (e : Process) : Prop where
  noFile : ∀ fd, 3 ≤ fd → fd < fdMax → (s.descriptors.kfds fd).used = true →
    (s.descriptors.kfds fd).ownerPid ≠ e.pid
  noHandle : ∀ dh, 1 ≤ dh → dh < dhMax → s.descriptors.dhTable dh ≠ none →
    s.handleOwner dh ≠ e.pid
  noChild : ∀ i p, s.table.at? i = some p → p.Live → p.parentPid ≠ e.pid
  released : ∀ i p, s.table.at? i = some p → p.pid = e.pid → p.pageDir = 0
  told : e.parentPid = 0 ∨ (e.pid, e.parentPid) ∈ s.notified

def CurrentLives (s : System) : Prop := ∀ p, s.table.getCurrent = some p → p.Live

/-- The events after which every process that has ended is torn down.  Processes end by
`process_exit` only, other than `init` and without directory handles; whoever creates, opens or
goes to sleep has not ended; and numbers have not run out. -/
def TearsDown (s : System) : LifeEvent → Prop
  | .create _ _ => s.table.nextPid.toNat + 1 < 2 ^ 32 ∧ s.CurrentLives
  | .exit _ => ∀ p, s.table.getCurrent = some p → p.pid ≠ 1 ∧
      ∀ dh, 1 ≤ dh → dh < dhMax → s.descriptors.dhTable dh ≠ none → s.handleOwner dh ≠ p.pid
  | .kill pid => pid = 1 ∨ s.table.get pid = none
  | .checkSignal => ∀ p, s.table.getCurrent = some p → p.Live → ¬p.Terminates p.signalPending
  | .finish slot _ => ∀ p, s.table.at? slot = some p → ¬p.Live
  | .sleep => s.CurrentLives
  | .openFile _ _ _ => s.CurrentLives
  | .openDir _ => s.CurrentLives
  | _ => True

structure Torn (s : System) : Prop where
  numbered : s.table.Numbered s.ended
  init : ∃ p, s.table.at? 0 = some p ∧ p.pid = 1 ∧ p.Live ∧ p.parentPid = 0
  torn : ∀ e ∈ s.ended, s.TornDown e

section Steps

variable {s s' : System} {event : LifeEvent}

theorem Torn.ne_init (torn : s.Torn) {e : Process} (member : e ∈ s.ended) : e.pid ≠ 1 := by
  rcases torn.init with ⟨p, held, number, live, -⟩
  exact fun same => torn.numbered.gone e member 0 p held (number.trans same.symm) live

/-- The number that `alloc_fd` records is not that of a process that has ended. -/
theorem Torn.currentPid_ne (torn : s.Torn) (lives : s.CurrentLives) {e : Process}
    (member : e ∈ s.ended) : s.table.currentPid ≠ e.pid := by
  rw [ProcessTable.currentPid]
  cases process : s.table.getCurrent with
  | none =>
      intro same
      have positive := (torn.numbered.past e member).1
      rw [← same] at positive
      exact absurd positive (by decide)
  | some p =>
      rcases Option.bind_eq_some_iff.mp process with ⟨i, -, held⟩
      exact fun same => torn.numbered.gone e member i p held same (lives p process)

theorem Torn.sameFates (torn : s.Torn) {t : ProcessTable} (same : s.table.SameFates t) :
    (s.withTable t).Torn := by
  have ended : (s.withTable t).ended = s.ended := by
    rw [withTable, ProcessTable.newlyEnded_of_sameFates same, List.append_nil]
  refine ⟨torn.numbered.agesTo same.agesTo, ?_, fun e member => ?_⟩
  · rcases torn.init with ⟨p, held, number, live, parent⟩
    rcases same.slot 0 p held with ⟨q, heldNext, fate⟩
    exact ⟨q, heldNext, fate.pid.trans number, fate.live.mpr live, fate.parentPid.trans parent⟩
  · rw [ended] at member
    have before := torn.torn e member
    refine ⟨before.noFile, before.noHandle, fun i q held live => ?_, fun i q held number => ?_,
      before.told⟩
    · rcases same.origin held with ⟨p, heldBefore, fate⟩
      rw [fate.parentPid]
      exact before.noChild i p heldBefore (fate.live.mp live)
    · rcases same.origin held with ⟨p, heldBefore, fate⟩
      rw [fate.pageDir]
      exact before.released i p heldBefore (fate.pid ▸ number)

/-- Where every live process is spared, nothing happens to anybody. -/
theorem sameFates_of_spared {dies : Nat → Process → Prop} {t t' : ProcessTable}
    (slotwise : t.Slotwise (fun i p q => p.SameFate q ∨ dies i p ∧ p.Dies q) t')
    (spared : ∀ i p, t.at? i = some p → p.Live → ¬dies i p) : t.SameFates t' := by
  refine slotwise.monoAt fun i p q held fate => ?_
  rcases fate with same | ⟨chosen, dead⟩
  · exact same
  · have ended : ¬p.Live := fun live => spared i p held live chosen
    exact ⟨dead.pid, dead.parentPid, dead.pageDir, iff_of_false dead.dead ended⟩

/-- The descriptors change without a new one for a process that has ended. -/
theorem Torn.descriptors (torn : s.Torn) {d : Descriptors} {owner : Nat → UInt32}
    (files : ∀ e ∈ s.ended, ∀ fd, 3 ≤ fd → fd < fdMax → (d.kfds fd).used = true →
      (d.kfds fd).ownerPid = e.pid →
        (s.descriptors.kfds fd).used = true ∧ (s.descriptors.kfds fd).ownerPid = e.pid)
    (handles : ∀ e ∈ s.ended, ∀ dh, 1 ≤ dh → dh < dhMax → d.dhTable dh ≠ none →
      owner dh = e.pid → s.descriptors.dhTable dh ≠ none ∧ s.handleOwner dh = e.pid) :
    ({ s with descriptors := d, handleOwner := owner } : System).Torn := by
  refine ⟨torn.numbered, torn.init, fun e member => ?_⟩
  have before := torn.torn e member
  refine ⟨fun fd low high used own => ?_, fun dh low high isOpen own => ?_, before.noChild,
    before.released, before.told⟩
  · have earlier := files e member fd low high used own
    exact before.noFile fd low high earlier.1 earlier.2
  · have earlier := handles e member dh low high isOpen own
    exact before.noHandle dh low high earlier.1 earlier.2

theorem Torn.creates (torn : s.Torn) (lives : s.CurrentLives) {t : ProcessTable} {slot : Nat}
    {name : List UInt8} {resources : Resources}
    (creates : s.table.Creates t slot (s.table.fresh slot name resources))
    (numbered : t.Numbered (s.withTable t).ended) : (s.withTable t).Torn := by
  have ended : (s.withTable t).ended = s.ended := by
    rw [withTable, creates.newlyEnded, List.append_nil]
  refine ⟨numbered, ?_, fun e member => ?_⟩
  · rcases torn.init with ⟨p, held, number, live, parent⟩
    have other : 0 ≠ slot := by
      intro here
      rw [here] at held
      exact (creates.reused p held).1 live
    exact ⟨p, (creates.others 0 other).trans held, number, live, parent⟩
  · rw [ended] at member
    have before := torn.torn e member
    have older : e.pid ≠ s.table.nextPid := by
      intro same
      have below := (torn.numbered.past e member).2
      rw [same] at below
      exact lt_irrefl _ below
    refine ⟨before.noFile, before.noHandle, fun i q held live => ?_, fun i q held number => ?_,
      before.told⟩
    · by_cases here : i = slot
      · change t.at? i = some q at held
        rw [here, creates.new, Option.some_inj] at held
        rw [← held, ProcessTable.fresh]
        dsimp only
        split
        · exact older.symm
        · have notEnded := torn.currentPid_ne lives member
          rw [ProcessTable.currentPid] at notEnded
          split
          · rename_i p process
            rw [process] at notEnded
            exact notEnded
          · rename_i process
            rw [process] at notEnded
            exact notEnded
      · exact before.noChild i q ((creates.others i here).symm.trans held) live
    · by_cases here : i = slot
      · change t.at? i = some q at held
        rw [here, creates.new, Option.some_inj] at held
        exact absurd (held ▸ number).symm older
      · exact before.released i q ((creates.others i here).symm.trans held) number

theorem newlyEnded_exit {code : BitVec 32} {i : Nat} {p e : Process} {t : ProcessTable}
    (exits : s.table.Slotwise (AfterExit i p.pid code) t) (held : s.table.at? i = some p)
    (member : e ∈ s.table.newlyEnded t) : e = p := by
  rcases ProcessTable.mem_newlyEnded.mp member with ⟨j, q, heldE, heldQ, live, dead⟩
  rcases exits.slot j e heldE with ⟨r, heldR, after⟩
  rw [heldQ, Option.some_inj] at heldR
  subst heldR
  by_cases here : j = i
  · rw [here, held, Option.some_inj] at heldE
    exact heldE.symm
  · rw [Process.Live, after.state, if_neg here] at dead
    exact absurd live dead

/-- `process_exit` tears its process down and leaves the others as they are. -/
theorem Torn.exit (torn : s.Torn) (code : BitVec 32) (meets : s.TearsDown (.exit code)) :
    (s.exit code).Torn := by
  rw [System.exit]
  split
  · exact torn
  rename_i p process
  rcases Option.bind_eq_some_iff.mp process with ⟨i, current, held⟩
  rcases meets p process with ⟨notInit, noHandle⟩
  have exits := processExit_slotwise code current held
  generalize processExit code s.table = t at exits
  have ages : s.table.AgesTo t := exits.mono fun _ _ _ => AfterExit.ages
  rcases torn.init with ⟨first, heldFirst, number, live, noParent⟩
  have notFirst : 0 ≠ i := by
    intro here
    rw [← here, heldFirst, Option.some_inj] at held
    exact notInit (held ▸ number)
  have positive : p.pid ≠ 0 := by
    intro zero
    have bound := (torn.numbered.bounds i p held).1
    rw [zero] at bound
    exact absurd bound (by decide)
  refine ⟨torn.numbered.agesTo ages, ?_, fun e member => ?_⟩
  · rcases exits.slot 0 first heldFirst with ⟨q, heldNext, after⟩
    refine ⟨q, heldNext, after.pid.trans number, ?_, ?_⟩
    · rw [Process.Live, after.state, if_neg notFirst]
      exact live
    · rw [after.parentPid, if_neg fun adopted => adopted.2.2.2 number]
      exact noParent
  have both : e = p ∨ e ∈ s.ended :=
    (List.mem_append.mp member).symm.imp (newlyEnded_exit exits held) id
  have notOne : e.pid ≠ 1 := by
    rcases both with rfl | old
    · exact notInit
    · exact torn.ne_init old
  refine ⟨?_, ?_, ?_, ?_, ?_⟩
  · intro fd low high used
    change (Descriptors.cleanKfd p.pid fd (s.descriptors.kfds fd)).used = true at used
    change (Descriptors.cleanKfd p.pid fd (s.descriptors.kfds fd)).ownerPid ≠ e.pid
    by_cases cleaned : 3 ≤ fd ∧ fd < fdMax ∧ (s.descriptors.kfds fd).used = true ∧
        (s.descriptors.kfds fd).ownerPid = p.pid
    · rw [Descriptors.cleanKfd, if_pos cleaned] at used
      cases used
    · rw [Descriptors.cleanKfd, if_neg cleaned] at used ⊢
      rcases both with rfl | old
      · exact fun own => cleaned ⟨low, high, used, own⟩
      · exact (torn.torn e old).noFile fd low high used
  · intro dh low high isOpen
    rcases both with rfl | old
    · exact noHandle dh low high isOpen
    · exact (torn.torn e old).noHandle dh low high isOpen
  · intro j q heldQ alive
    rcases exits.origin heldQ with ⟨r, heldR, after⟩
    have wasLive : r.Live := (AfterExit.ages after).live alive
    have other : j ≠ i := by
      intro here
      rw [Process.Live, after.state, if_pos here] at alive
      exact alive rfl
    rw [after.parentPid]
    split
    · exact notOne.symm
    · rename_i notAdopted
      rcases both with rfl | old
      · intro child
        refine notAdopted ⟨other, wasLive, child, fun one => ?_⟩
        have same := torn.numbered.distinct j 0 r first heldR heldFirst (one.trans number.symm)
        rw [same, heldFirst, Option.some_inj] at heldR
        rw [← heldR, noParent] at child
        exact positive child.symm
      · exact (torn.torn e old).noChild j r heldR wasLive
  · intro j q heldQ same
    rcases exits.origin heldQ with ⟨r, heldR, after⟩
    rw [after.pid] at same
    rw [after.pageDir]
    split
    · rfl
    · rename_i other
      rcases both with rfl | old
      · exact absurd (torn.numbered.distinct j i r e heldR held same) other
      · exact (torn.torn e old).released j r heldR same
  · rcases both with rfl | old
    · by_cases parent : 0 < e.parentPid
      · refine Or.inr ?_
        dsimp only
        rw [if_pos parent]
        exact List.mem_append_right _ (List.mem_singleton_self _)
      · exact Or.inl (UInt32.le_zero_iff.mp (UInt32.not_lt.mp parent))
    · refine (torn.torn e old).told.imp id fun notified => ?_
      dsimp only
      split
      · exact List.mem_append_left _ notified
      · exact notified

/-- The descriptors that a process has after it opens a file are its old ones and one that is its
own. -/
theorem Torn.openFile (torn : s.Torn) (lives : s.CurrentLives) {node fd : Nat}
    {pos flags : UInt32} {d : Descriptors}
    (opened : s.descriptors.openFile node pos flags s.table.currentPid = some (fd, d)) :
    ({ s with descriptors := d } : System).Torn := by
  rcases Option.map_eq_some_iff.mp opened with ⟨chosen, -, made⟩
  rcases Prod.mk.inj made with ⟨rfl, rfl⟩
  refine torn.descriptors (fun e member other low high used own => ?_)
    fun e member dh low high isOpen own => ⟨isOpen, own⟩
  by_cases here : other = chosen
  · dsimp only at own
    rw [here, Function.update_self] at own
    exact absurd own (torn.currentPid_ne lives member)
  · dsimp only at used own
    rw [Function.update_of_ne here] at used own
    exact ⟨used, own⟩

theorem Torn.closeFile (torn : s.Torn) (fd : Int) :
    ({ s with descriptors := s.descriptors.closeFile fd } : System).Torn := by
  refine torn.descriptors (fun e member other low high used own => ?_)
    fun e member dh low high isOpen own => ⟨?_, own⟩
  · rw [Descriptors.closeFile] at used own
    split at used
    · rename_i pipe
      rw [if_pos pipe] at own
      exact ⟨used, own⟩
    rename_i notPipe
    rw [if_neg notPipe] at own
    split at used
    · rename_i inside
      rw [if_pos inside] at own
      dsimp only at used own
      by_cases here : other = fd.toNat
      · rw [here, Function.update_self] at used
        cases used
      · rw [Function.update_of_ne here] at used own
        exact ⟨used, own⟩
    · rename_i outside
      rw [if_neg outside] at own
      exact ⟨used, own⟩
  · rw [Descriptors.closeFile] at isOpen
    split at isOpen
    · exact isOpen
    · split at isOpen
      · exact isOpen
      · exact isOpen

theorem Torn.openDir (torn : s.Torn) (lives : s.CurrentLives) {node dh : Nat} {d : Descriptors}
    (opened : s.descriptors.openDir node = some (dh, d)) :
    ({ s with
      descriptors := d
      handleOwner := Function.update s.handleOwner dh s.table.currentPid } : System).Torn := by
  rcases Option.map_eq_some_iff.mp opened with ⟨chosen, -, made⟩
  rcases Prod.mk.inj made with ⟨rfl, rfl⟩
  refine torn.descriptors (fun e member fd low high used own => ⟨used, own⟩)
    fun e member other low high isOpen own => ?_
  by_cases here : other = chosen
  · rw [here, Function.update_self] at own
    exact absurd own (torn.currentPid_ne lives member)
  · dsimp only at isOpen
    rw [Function.update_of_ne here] at isOpen own
    exact ⟨isOpen, own⟩

theorem Torn.closeDir (torn : s.Torn) (dh : Int) :
    ({ s with descriptors := s.descriptors.closeDir dh } : System).Torn := by
  refine torn.descriptors (fun e member fd low high used own => ?_)
    fun e member other low high isOpen own => ⟨?_, own⟩
  · rw [Descriptors.closeDir] at used own
    split at used
    · rename_i inside
      rw [if_pos inside] at own
      exact ⟨used, own⟩
    · rename_i outside
      rw [if_neg outside] at own
      exact ⟨used, own⟩
  · rw [Descriptors.closeDir] at isOpen
    split at isOpen
    · dsimp only at isOpen
      by_cases here : other = dh.toNat
      · rw [here, Function.update_self] at isOpen
        exact absurd rfl isOpen
      · rw [Function.update_of_ne here] at isOpen
        exact isOpen
    · exact isOpen

/-- An event that meets the condition leaves every process that has ended torn down. -/
theorem Torn.step (torn : s.Torn) (meets : s.TearsDown event) : (s.step event).Torn := by
  cases event with
  | create name resources =>
      rw [System.step]
      split
      · exact torn
      · rename_i slot t created
        have creates := ProcessTable.processCreate_creates created
        exact torn.creates meets.2 creates (torn.numbered.creates creates rfl
          (torn.numbered.fresh_parentPid_le slot name resources) meets.1)
  | start slot => exact torn.sameFates (s.table.start_sameFates slot)
  | setCurrent slot =>
      exact torn.sameFates (ProcessTable.SameFates.refl s.table |>.setCurrent slot)
  | switch slot => exact torn.sameFates (s.table.switchTo_sameFates slot)
  | sleep => exact torn.sameFates (ProcessTable.sleepCurrent_sameFates meets)
  | wake slot => exact torn.sameFates (s.table.wake_sameFates slot)
  | exit code => exact torn.exit code meets
  | kill pid =>
      refine torn.sameFates (sameFates_of_spared
        (ProcessTable.processKill_slotwise pid s.table) fun i p held live chosen => ?_)
      rcases meets with first | absent
      · exact chosen.1 first
      · rw [absent] at chosen
        cases chosen.2
  | signal pid sig => exact torn.sameFates (processSignal_sameLives pid sig s.table).sameFates
  | brokenPipe =>
      rw [System.step]
      split
      · exact torn
      · rename_i i _
        exact torn.sameFates (ProcessTable.SameLives.sameFates (s.table.sameLives_modify i
          (fun p => { p with signalPending := sigpipe }) fun p => ⟨rfl, rfl, rfl, rfl, rfl⟩))
  | checkSignal =>
      refine torn.sameFates (sameFates_of_spared
        (ProcessTable.processCheckSignal_slotwise s.table) fun i p held live chosen => ?_)
      have process : s.table.getCurrent = some p := by
        rw [ProcessTable.getCurrent, chosen.1]
        exact held
      exact meets p process live chosen.2
  | sigaction sig handler =>
      exact torn.sameFates (ProcessTable.processSigaction_sameLives sig handler s.table).sameFates
  | finish slot code =>
      refine torn.sameFates (sameFates_of_spared (s.table.finish_slotwise slot code)
        fun i p held live here => ?_)
      exact meets p (here ▸ held) live
  | waitpid pid options =>
      rw [System.step]
      split
      · exact ⟨torn.numbered, torn.init, fun e member =>
          let before := torn.torn e member
          ⟨before.noFile, before.noHandle, before.noChild, before.released, before.told⟩⟩
      · exact torn
  | openFile node pos flags =>
      rw [System.step]
      split
      · exact torn
      · rename_i fd d opened
        exact torn.openFile meets opened
  | closeFile fd => exact torn.closeFile fd
  | openDir node =>
      rw [System.step]
      split
      · exact torn
      · rename_i dh d opened
        exact torn.openDir meets opened
  | closeDir dh => exact torn.closeDir dh

end Steps

theorem init_torn : init.Torn :=
  ⟨init_numbered, ⟨_, rfl, rfl, by decide, rfl⟩, fun _ member => absurd member List.not_mem_nil⟩

/-- In every run whose events meet the condition, every process that has ended is torn down. -/
theorem run_tornDown (events : List LifeEvent) (meets : init.Meets TearsDown events) :
    ∀ e ∈ (init.run events).ended, (init.run events).TornDown e :=
  (run_preserves (fun _ _ torn => torn.step) init_torn events meets).torn

/-- A process that is killed keeps its page directory, and its parent is not notified. -/
theorem killed_not_tornDown :
    ∃ e ∈ (init.run [.create (literal "app") ⟨0x8000000, 0x400000⟩, .kill 5]).ended,
      e.pid = 5 ∧ ¬(init.run [.create (literal "app") ⟨0x8000000, 0x400000⟩, .kill 5]).TornDown e :=
  ⟨_, List.mem_cons_self, rfl, fun torn => absurd torn.told (by decide)⟩

theorem run_tornDown_exit :
    init.Meets TearsDown [.create (literal "app") ⟨0x8000000, 0x400000⟩, .start 4, .exit 0] ∧
      ∀ e ∈ (init.run [.create (literal "app") ⟨0x8000000, 0x400000⟩, .start 4, .exit 0]).ended,
        (init.run [.create (literal "app") ⟨0x8000000, 0x400000⟩, .start 4, .exit 0]).TornDown
          e := by
  have meets : init.Meets TearsDown
      [.create (literal "app") ⟨0x8000000, 0x400000⟩, .start 4, .exit 0] := by
    refine ⟨⟨by decide, ?_⟩, trivial, ?_, trivial⟩
    · intro p process
      cases process
      decide
    · intro p process
      cases process
      exact ⟨by decide, fun dh _ _ isOpen => absurd rfl isOpen⟩
  exact ⟨meets, run_tornDown _ meets⟩

end System

end Trinux
