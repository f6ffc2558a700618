import Trinux.Process.Table

namespace Trinux

/-!
# Pending signals

A process has one field for its pending signal.  Whoever sends one overwrites the
field, and the process looks at it when a system call returns.  Between two such
points only the last signal counts, and it keeps the process from going on only if a
loader waits for its end.  A process that was killed outright is marked as ended, but
a system call that it is in returns to it.
-/

namespace ProcessTable

variable {t : ProcessTable} {pid : UInt32} {i : Nat} {p : Process}

theorem findIdx?_modify {α : Type} (test : α → Bool) {change : α → α}
    (keeps : ∀ x, test (change x) = test x) (xs : List α) (i : Nat) :
    (xs.modify i change).findIdx? test = xs.findIdx? test := by
  induction xs generalizing i with
  | nil => simp
  | cons x rest known =>
      cases i with
      | zero => simp [List.findIdx?_cons, keeps]
      | succ i => simp [List.findIdx?_cons, known]

/-- Looking up a process reads its number and its state only. -/
theorem get_modify (t : ProcessTable) (i : Nat) (change : Process → Process)
    (keeps : ∀ p, (change p).pid = p.pid ∧ (change p).state = p.state) (pid : UInt32) :
    (t.modify i change).get pid = t.get pid := by
  apply findIdx?_modify
  intro p
  rw [(keeps p).1, (keeps p).2]

theorem get_post (t : ProcessTable) (i : Nat) (sig : Int) (pid : UInt32) :
    (t.modify i fun p => { p with signalPending := sig }).get pid = t.get pid :=
  get_modify t i (fun p => { p with signalPending := sig }) (fun _ => ⟨rfl, rfl⟩) pid

end ProcessTable

/-! ## Sending -/

/-- What sends a signal to a process: `SYS_KILL`, the key combination for an interrupt, a child
that ends, a write to a pipe without readers, or a page fault. -/
inductive Sender where
  | sysKill (sig : Int)
  | keyboard
  | childExit
  | brokenPipe
  | pageFault
  deriving DecidableEq, Repr

def Sender.send (i : Nat) (pid : UInt32) (t : ProcessTable) : Sender → ProcessTable
  | .sysKill sig =>
      if sig = 0 then t
      else if sig = sigkill ∨ sig = sigterm then (processKill pid t).2
      else (processSignal pid sig t).2
  | .keyboard => if 3 < pid then (processSignal pid sigint t).2 else t
  | .childExit => if 0 < pid then (processSignal pid sigchld t).2 else t
  | .brokenPipe => t.modify i fun p => { p with signalPending := sigpipe }
  | .pageFault => (processSignal pid sigsegv t).2

def Sender.sends (pid : UInt32) : Sender → Option Int
  | .sysKill sig =>
      if sig = 0 ∨ (sig = sigkill ∨ sig = sigterm) ∧ pid = 1 then none else some sig
  | .keyboard => if 3 < pid then some sigint else none
  | .childExit => if 0 < pid then some sigchld else none
  | .brokenPipe => some sigpipe
  | .pageFault => some sigsegv

def Sender.Kills (pid : UInt32) (sender : Sender) : Prop :=
  (sender = .sysKill sigkill ∨ sender = .sysKill sigterm) ∧ pid ≠ 1

instance (pid : UInt32) (sender : Sender) : Decidable (sender.Kills pid) :=
  inferInstanceAs (Decidable ((_ ∨ _) ∧ _))

/-- The signal is neither ignored nor handled, and its default action ends the process. -/
def Process.Terminates (p : Process) (sig : Int) : Prop :=
  0 < sig ∧ sig < nsig ∧ p.sigHandlers sig.toNat = sigDfl ∧ sig ≠ sigchld

instance (p : Process) (sig : Int) : Decidable (p.Terminates sig) :=
  inferInstanceAs (Decidable (_ ∧ _ ∧ _ ∧ _))

/-- `syscall_handler` does not return to the process in slot `i`: what is pending ends it, and a loader
waits for its end (`g_elf_jmp.valid`).  Without one the handler returns, whatever ended. -/
def endsAtDelivery (valid : Bool) (i : Nat) (t : ProcessTable) : Prop :=
  (processCheckSignal (t.setCurrent (some i))).1 = true ∧ valid = true

instance (valid : Bool) (i : Nat) (t : ProcessTable) : Decidable (endsAtDelivery valid i t) :=
  inferInstanceAs (Decidable (_ ∧ _))

section Delivery

variable {t : ProcessTable} {pid : UInt32} {i : Nat} {p : Process} {sig : Int}

/-- A pending signal that ends its process: one that terminates it, or a number that is no
signal. -/
def Process.EndedBy (p : Process) (sig : Int) : Prop :=
  p.Terminates sig ∨ sig < 0 ∨ nsig ≤ sig

structure Holds (t : ProcessTable) (i : Nat) (pid : UInt32) (p : Process) (sig : Int) : Prop where
  found : t.get pid = some i
  slot : t.at? i = some { p with signalPending := sig }

theorem processSignal_holds (holds : Holds t i pid p sig) (sent : Int) :
    Holds (processSignal pid sent t).2 i pid p sent := by
  rw [processSignal, holds.found]
  refine ⟨?_, ?_⟩
  · exact (t.get_post i sent pid).trans holds.found
  · rw [ProcessTable.at?_modify_self, holds.slot]
    rfl

/-- A sender that does not kill leaves its signal in the pending field. -/
theorem send_holds (holds : Holds t i pid p sig) {sender : Sender} (spares : ¬sender.Kills pid) :
    Holds (sender.send i pid t) i pid p ((sender.sends pid).getD sig) := by
  cases sender with
  | sysKill sent =>
      rw [Sender.send, Sender.sends]
      by_cases none_ : sent = 0
      · rw [if_pos none_, if_pos (Or.inl none_)]
        exact holds
      rw [if_neg none_]
      by_cases fatal : sent = sigkill ∨ sent = sigterm
      · have first : pid = 1 := by
          by_contra other
          exact spares ⟨fatal.imp (congrArg Sender.sysKill) (congrArg Sender.sysKill), other⟩
        rw [if_pos fatal, if_pos (Or.inr ⟨fatal, first⟩), processKill, if_pos first]
        exact holds
      · rw [if_neg fatal, if_neg (by tauto)]
        exact processSignal_holds holds sent
  | keyboard =>
      rw [Sender.send, Sender.sends]
      split
      · exact processSignal_holds holds sigint
      · exact holds
  | childExit =>
      rw [Sender.send, Sender.sends]
      split
      · exact processSignal_holds holds sigchld
      · exact holds
  | brokenPipe =>
      refine ⟨?_, ?_⟩
      · exact (t.get_post i sigpipe pid).trans holds.found
      · rw [Sender.send, ProcessTable.at?_modify_self, holds.slot]
        rfl
  | pageFault => exact processSignal_holds holds sigsegv

def Killed (t : ProcessTable) (i : Nat) (p : Process) (sig : Int) : Prop :=
  t.at? i = some { p with signalPending := sig, state := .zombie }

theorem Killed.not_found (killed : Killed t i p sig) {j : Nat} (found : t.get pid = some j) : i ≠ j := by
  rintro rfl
  rcases ProcessTable.get_eq_some found with ⟨q, held, -, live, -⟩
  rw [killed] at held
  cases held
  exact live rfl

theorem processSignal_killed (killed : Killed t i p sig) (pid : UInt32) (sent : Int) :
    Killed (processSignal pid sent t).2 i p sig := by
  rw [processSignal]
  split
  · exact killed
  · rename_i j found
    exact (t.at?_modify_of_ne _ (killed.not_found found)).trans killed

theorem processKill_killed (killed : Killed t i p sig) (pid : UInt32) :
    Killed (processKill pid t).2 i p sig := by
  rw [processKill]
  split
  · exact killed
  split
  · exact killed
  · rename_i j found
    exact (t.at?_modify_of_ne _ (killed.not_found found)).trans killed

/-- Only a write to a pipe without readers changes what is pending then. -/
theorem send_killed (killed : Killed t i p sig) (pid : UInt32) (sender : Sender) :
    Killed (sender.send i pid t) i p (if sender = .brokenPipe then sigpipe else sig) := by
  cases sender with
  | sysKill sent =>
      rw [if_neg (show Sender.sysKill sent ≠ .brokenPipe by simp), Sender.send]
      split
      · exact killed
      split
      · exact processKill_killed killed pid
      · exact processSignal_killed killed pid sent
  | keyboard =>
      rw [if_neg (show Sender.keyboard ≠ .brokenPipe by simp), Sender.send]
      split
      · exact processSignal_killed killed pid sigint
      · exact killed
  | childExit =>
      rw [if_neg (show Sender.childExit ≠ .brokenPipe by simp), Sender.send]
      split
      · exact processSignal_killed killed pid sigchld
      · exact killed
  | brokenPipe =>
      rw [Sender.send, if_pos rfl, Killed, ProcessTable.at?_modify_self, killed]
      rfl
  | pageFault =>
      rw [if_neg (show Sender.pageFault ≠ .brokenPipe by simp), Sender.send]
      exact processSignal_killed killed pid sigsegv

theorem send_kills (holds : Holds t i pid p sig) {sender : Sender} (kills : sender.Kills pid) :
    Killed (sender.send i pid t) i p sig := by
  rcases kills with ⟨fatal, notFirst⟩
  have killed : Killed (processKill pid t).2 i p sig := by
    rw [processKill, if_neg notFirst, holds.found, Killed, ProcessTable.at?_modify_self, holds.slot]
    rfl
  rcases fatal with rfl | rfl
  · exact killed
  · exact killed

/-- The signals that come to the pending field of a process, which is live or was killed. -/
def recordedSignals (pid : UInt32) : (live : Bool) → List Sender → List Int
  | _, [] => []
  | true, sender :: rest =>
      if sender.Kills pid then recordedSignals pid false rest
      else (sender.sends pid).toList ++ recordedSignals pid true rest
  | false, sender :: rest =>
      if sender = .brokenPipe then sigpipe :: recordedSignals pid false rest
      else recordedSignals pid false rest

theorem getLast?_append_getD (first rest : List Int) (sig : Int) :
    (first ++ rest).getLast?.getD sig = rest.getLast?.getD (first.getLast?.getD sig) := by
  rw [List.getLast?_append]
  cases rest.getLast? <;> rfl

theorem foldl_send_killed (killed : Killed t i p sig) (pid : UInt32) (sends : List Sender) :
    Killed (sends.foldl (Sender.send i pid) t) i p
      ((recordedSignals pid false sends).getLast?.getD sig) := by
  induction sends generalizing t sig with
  | nil => exact killed
  | cons sender rest known =>
      have later := known (send_killed killed pid sender)
      rw [List.foldl_cons, recordedSignals]
      by_cases pipe : sender = .brokenPipe
      · rw [if_pos pipe] at later ⊢
        rw [← List.singleton_append, getLast?_append_getD]
        exact later
      · rw [if_neg pipe] at later ⊢
        exact later

/-- The last signal that was recorded is pending in the end. -/
theorem foldl_send_pending (holds : Holds t i pid p sig) (sends : List Sender) :
    ∃ state, (sends.foldl (Sender.send i pid) t).at? i = some { p with
      signalPending := (recordedSignals pid true sends).getLast?.getD sig, state := state } := by
  induction sends generalizing t sig with
  | nil => exact ⟨p.state, holds.slot⟩
  | cons sender rest known =>
      rw [List.foldl_cons, recordedSignals]
      by_cases kills : sender.Kills pid
      · rw [if_pos kills]
        exact ⟨.zombie, foldl_send_killed (send_kills holds kills) pid rest⟩
      · rcases known (send_holds holds kills) with ⟨state, pending⟩
        rw [if_neg kills, getLast?_append_getD]
        refine ⟨state, ?_⟩
        cases sent : sender.sends pid with
        | none =>
            rw [sent] at pending
            exact pending
        | some first =>
            rw [sent] at pending
            exact pending

/-! ## Delivery -/

/-- What is delivered ends the current process if it terminates it or is no signal. -/
theorem processDeliverSignal_iff (current : t.current = some i) (slot : t.at? i = some p)
    (pending : sig ≠ 0) : (processDeliverSignal sig t).1 = true ↔ p.EndedBy sig := by
  have process : t.getCurrent = some p := by rw [ProcessTable.getCurrent, current]; exact slot
  rw [processDeliverSignal, current, process]
  by_cases outside : sig ≤ 0 ∨ nsig ≤ sig
  · have number : p.EndedBy sig := Or.inr (outside.imp (lt_of_le_of_ne · pending) id)
    simp only [if_pos outside, number]
  · have inside : 0 < sig ∧ sig < nsig := by
      rw [not_or, not_le, not_le] at outside
      exact outside
    have fatal : p.EndedBy sig ↔ p.sigHandlers sig.toNat = sigDfl ∧ sig ≠ sigchld := by
      rw [Process.EndedBy, Process.Terminates]
      constructor
      · rintro (terminates | below | above)
        · exact terminates.2.2
        · exact absurd below (not_lt.mpr inside.1.le)
        · exact absurd above (not_le.mpr inside.2)
      · exact fun default => Or.inl ⟨inside.1, inside.2, default⟩
    rw [fatal]
    simp only [if_neg outside]
    generalize p.sigHandlers sig.toNat = handler
    by_cases ignored : handler = sigIgn
    · have custom : handler ≠ sigDfl := by
        rw [ignored]
        decide
      simp only [if_pos ignored, custom, false_and, Bool.false_eq_true]
    rw [if_neg ignored]
    by_cases custom : handler ≠ sigDfl
    · simp only [if_pos custom, custom, false_and, Bool.false_eq_true]
    rw [if_neg custom]
    have default : handler = sigDfl := not_not.mp custom
    by_cases child : sig = sigchld
    · rw [if_pos child]
      simp only [child, ne_eq, not_true_eq_false, and_false, Bool.false_eq_true]
    · rw [if_neg child]
      simp only [default, child, ne_eq, not_false_eq_true, and_self]

/-- The pending signal decides about the process that a system call returns to. -/
theorem processCheckSignal_iff (slot : t.at? i = some p) :
    (processCheckSignal (t.setCurrent (some i))).1 = true ↔ p.EndedBy p.signalPending := by
  have here : (t.setCurrent (some i)).at? i = some p := slot
  have current : (t.setCurrent (some i)).getCurrent = some p := slot
  have taken : ((t.setCurrent (some i)).modify i fun p => { p with signalPending := 0 }).at? i =
      some { p with signalPending := 0 } := by
    rw [ProcessTable.at?_modify_self, here, Option.map_some]
  have stillCurrent : ((t.setCurrent (some i)).modify i fun p =>
      { p with signalPending := 0 }).current = some i := rfl
  have delivery : processCheckSignal (t.setCurrent (some i)) = if p.signalPending = 0 then
      (false, t.setCurrent (some i)) else processDeliverSignal p.signalPending
        ((t.setCurrent (some i)).modify i fun p => { p with signalPending := 0 }) := by
    rw [processCheckSignal, current]
    rfl
  rw [delivery]
  by_cases none_ : p.signalPending = 0
  · have nothing : ¬p.EndedBy p.signalPending := by
      rw [none_]
      rintro (terminates | below | above)
      · exact absurd terminates.1 (lt_irrefl 0)
      · exact absurd below (lt_irrefl 0)
      · exact absurd above (by decide)
    rw [if_pos none_]
    exact iff_of_false Bool.false_ne_true nothing
  · rw [if_neg none_]
    exact (processDeliverSignal_iff stillCurrent taken none_).trans Iff.rfl

def sentSignals (pid : UInt32) (sends : List Sender) : List Int := sends.filterMap (Sender.sends pid)

/-- No terminating signal is lost exactly if none was sent, or a loader waits for the process and the
last signal that came to its pending field, or else the one that was there, ends it. -/
theorem terminating_signal_delivered_iff (found : t.get pid = some i) (slot : t.at? i = some p)
    (valid : Bool) (sends : List Sender) :
    ((∃ sig ∈ sentSignals pid sends, p.Terminates sig) →
        endsAtDelivery valid i (sends.foldl (Sender.send i pid) t)) ↔
      (∀ sig ∈ sentSignals pid sends, ¬p.Terminates sig) ∨
        valid = true ∧
          p.EndedBy ((recordedSignals pid true sends).getLast?.getD p.signalPending) := by
  have holds : Holds t i pid p p.signalPending := ⟨found, slot⟩
  rcases foldl_send_pending holds sends with ⟨state, pending⟩
  rw [endsAtDelivery, processCheckSignal_iff pending]
  by_cases fatal : ∃ sig ∈ sentSignals pid sends, p.Terminates sig
  · have notNone : ¬∀ sig ∈ sentSignals pid sends, ¬p.Terminates sig := by
      rcases fatal with ⟨sig, member, terminates⟩
      exact fun spared => spared sig member terminates
    rw [forall_prop_of_true fatal, or_iff_right notNone, and_comm]
    exact Iff.rfl
  · refine iff_of_true (fun sent => absurd sent fatal) (Or.inl fun sig member terminates => ?_)
    exact fatal ⟨sig, member, terminates⟩

end Delivery

def oneProgram : ProcessTable :=
  ((processCreate (literal "app") ⟨0x8000000, 0x400000⟩ processInit).map Prod.snd).getD processInit

/-- A process that is interrupted from the keyboard before a child of it ends goes on: the second
signal takes the place of the first. -/
theorem terminating_signal_lost :
    ∃ t pid i p sends, t = oneProgram ∧ t.get pid = some i ∧ t.at? i = some p ∧
      sends = [Sender.keyboard, Sender.childExit] ∧
      (∃ sig ∈ sentSignals pid sends, p.Terminates sig) ∧
      ¬endsAtDelivery true i (sends.foldl (Sender.send i pid) t) :=
  ⟨oneProgram, 5, 4, _, _, rfl, by decide, rfl, rfl, by decide, by decide⟩

/-- The interrupt that comes after the end of a child ends the program. -/
theorem terminating_signal_delivered_iff_oneProgram :
    endsAtDelivery true 4 ([Sender.childExit, .keyboard].foldl (Sender.send 4 5) oneProgram) := by
  have program : ∃ p, oneProgram.at? 4 = some p ∧
      (∃ sig ∈ sentSignals 5 [Sender.childExit, .keyboard], p.Terminates sig) ∧
      p.EndedBy ((recordedSignals 5 true [.childExit, .keyboard]).getLast?.getD p.signalPending) :=
    ⟨_, rfl, by decide, Or.inl (by decide)⟩
  rcases program with ⟨p, slot, sent, ends⟩
  exact (terminating_signal_delivered_iff (by decide) slot true [.childExit, .keyboard]).mpr
    (Or.inr ⟨rfl, ends⟩) sent

end Trinux
