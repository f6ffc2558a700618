import Trinux.Process.Fairness

namespace Trinux

/-!
# Sleeping

`sleep` turns milliseconds into a tick that it waits for, with arithmetic of 32-bit words, and
compares ticks as words.  `sleep_block` puts the process to sleep until that tick before it waits,
where zero stands for no tick at all.

A duration is counted in ticks from the call on.  Every tick is looked at, and a process that is
woken up gets the processor before the next tick.
-/

def sleepTarget (ticks frequency milliseconds : UInt32) : UInt32 :=
  ticks + milliseconds * frequency / 1000

def sleepLoop (target ticks : UInt32) : Nat :=
  if ticks < target then sleepLoop target (ticks + 1) + 1 else 0
termination_by target.toNat - ticks.toNat
decreasing_by
  rename_i waits
  have less := UInt32.lt_iff_toNat_lt.mp waits
  have next : (ticks + 1).toNat = ticks.toNat + 1 := by
    rw [UInt32.toNat_add]
    exact Nat.mod_eq_of_lt (lt_of_le_of_lt less target.toNat_lt)
  omega

def sleep (ticks frequency milliseconds : UInt32) : Nat :=
  sleepLoop (sleepTarget ticks frequency milliseconds) ticks

/-- The number of ticks is the first one that is not less than the time that was asked for. -/
structure FirstTick (frequency milliseconds : UInt32) (k : Nat) : Prop where
  enough : milliseconds.toNat * frequency.toNat ≤ k * 1000
  first : ∀ j, milliseconds.toNat * frequency.toNat ≤ j * 1000 → k ≤ j

/-- The product is a word and a multiple of a thousand, and the target is not beyond the last
tick. -/
def SleepsRight (ticks frequency milliseconds : UInt32) : Prop :=
  let product := milliseconds.toNat * frequency.toNat
  product < 2 ^ 32 ∧ 1000 ∣ product ∧ ticks.toNat + product / 1000 < 2 ^ 32

/-- A process that sleeps is woken up in time: the target is right and not zero, and there is a
tick to wait for; or the time is less than a tick and the next tick is not the tick zero. -/
def WakesRight (ticks frequency milliseconds : UInt32) : Prop :=
  let product := milliseconds.toNat * frequency.toNat
  (0 < product ∧ product < 2 ^ 32 ∧ 1000 ∣ product ∧ (ticks.toNat + product / 1000 < 2 ^ 32 ∨
      ticks.toNat = 2 ^ 32 - 1 ∧ product / 1000 ≠ 1)) ∨
    (0 < product ∧ product < 1000 ∧ 0 < ticks.toNat ∧ ticks.toNat + 1 < 2 ^ 32) ∨
    (product = 1000 * 2 ^ 32 ∧ ticks.toNat = 2 ^ 32 - 1)

/-! ## Ticks -/

theorem sleepLoop_eq (target ticks : UInt32) :
    sleepLoop target ticks = target.toNat - ticks.toNat := by
  induction ticks using sleepLoop.induct target with
  | case1 ticks waits known =>
      have less := UInt32.lt_iff_toNat_lt.mp waits
      have next : (ticks + 1).toNat = ticks.toNat + 1 := by
        rw [UInt32.toNat_add]
        exact Nat.mod_eq_of_lt (lt_of_le_of_lt less target.toNat_lt)
      rw [sleepLoop, if_pos waits, known, next]
      omega
  | case2 ticks done =>
      have more := UInt32.le_iff_toNat_le.mp (UInt32.not_lt.mp done)
      rw [sleepLoop, if_neg done]
      omega

theorem sleepTarget_toNat (ticks frequency milliseconds : UInt32) :
    (sleepTarget ticks frequency milliseconds).toNat =
      (ticks.toNat + milliseconds.toNat * frequency.toNat % 2 ^ 32 / 1000) % 2 ^ 32 := by
  have thousand : (1000 : UInt32).toNat = 1000 := rfl
  rw [sleepTarget, UInt32.toNat_add, UInt32.toNat_div, UInt32.toNat_mul, thousand]

theorem firstTick_iff (frequency milliseconds : UInt32) (k : Nat) :
    FirstTick frequency milliseconds k ↔
      k = (milliseconds.toNat * frequency.toNat + 999) / 1000 := by
  have up : ∀ product : Nat, product ≤ (product + 999) / 1000 * 1000 := fun product => by omega
  constructor
  · rintro ⟨enough, first⟩
    generalize milliseconds.toNat * frequency.toNat = product at enough first
    have least := first _ (up product)
    omega
  · intro same
    constructor
    case enough =>
      rw [same]
      exact up _
    case first =>
      rw [same]
      generalize milliseconds.toNat * frequency.toNat = product
      intro j _
      omega

/-- A product that is not a word is cut by more than four million ticks. -/
theorem cut_product {product : Nat} (big : 2 ^ 32 ≤ product) :
    product % 2 ^ 32 / 1000 + 4294967 ≤ product / 1000 := by
  have parts := Nat.div_add_mod product (2 ^ 32)
  have some' : 1 ≤ product / 2 ^ 32 := Nat.div_pos big (by omega)
  omega

theorem sleep_firstTick (ticks frequency milliseconds : UInt32) :
    FirstTick frequency milliseconds (sleep ticks frequency milliseconds) ↔
      SleepsRight ticks frequency milliseconds := by
  have small := ticks.toNat_lt
  rw [firstTick_iff, sleep, sleepLoop_eq, sleepTarget_toNat, SleepsRight]
  generalize milliseconds.toNat * frequency.toNat = product
  generalize ticks.toNat = now at small
  by_cases word : product < 2 ^ 32
  · rw [Nat.mod_eq_of_lt word]
    by_cases wraps : now + product / 1000 < 2 ^ 32
    · rw [Nat.mod_eq_of_lt wraps]
      omega
    · omega
  · have cut := cut_product (not_lt.mp word)
    have less := Nat.mod_le (now + product % 2 ^ 32 / 1000) (2 ^ 32)
    omega

/-- The first tick behind a tick at which `scheduler_wakeup_check` finds a target passed. -/
structure FirstDue (target ticks : UInt32) (k : Nat) : Prop where
  behind : 1 ≤ k
  awaited : target ≠ 0
  due : target ≤ ticks + UInt32.ofNat k
  first : ∀ j, 1 ≤ j → j < k → ¬target ≤ ticks + UInt32.ofNat j

theorem le_ticks_iff (target ticks : UInt32) (k : Nat) :
    target ≤ ticks + UInt32.ofNat k ↔ target.toNat ≤ (ticks.toNat + k) % 2 ^ 32 := by
  rw [UInt32.le_iff_toNat_le, UInt32.toNat_add, UInt32.toNat_ofNat', Nat.add_mod_mod]

/-- The first due tick is the right one only under the condition. -/
theorem right_of_firstDue {now product k : Nat} (small : now < 2 ^ 32) (behind : 1 ≤ k)
    (awaited : (now + product % 2 ^ 32 / 1000) % 2 ^ 32 ≠ 0)
    (due : (now + product % 2 ^ 32 / 1000) % 2 ^ 32 ≤ (now + k) % 2 ^ 32)
    (first : ∀ j, 1 ≤ j → j < k →
      ¬(now + product % 2 ^ 32 / 1000) % 2 ^ 32 ≤ (now + j) % 2 ^ 32)
    (tick : k = (product + 999) / 1000) :
    (0 < product ∧ product < 2 ^ 32 ∧ 1000 ∣ product ∧
        (now + product / 1000 < 2 ^ 32 ∨ now = 2 ^ 32 - 1 ∧ product / 1000 ≠ 1)) ∨
      (0 < product ∧ product < 1000 ∧ 0 < now ∧ now + 1 < 2 ^ 32) ∨
      (product = 1000 * 2 ^ 32 ∧ now = 2 ^ 32 - 1) := by
  have next := first 1 (le_refl 1)
  have around := first (2 ^ 32) (by omega)
  have target := first (product % 2 ^ 32 / 1000)
  by_cases word : product < 2 ^ 32
  · rw [Nat.mod_eq_of_lt word] at awaited due next around target
    by_cases wraps : now + product / 1000 < 2 ^ 32
    · rw [Nat.mod_eq_of_lt wraps] at awaited due next around target
      omega
    · omega
  · have cut := cut_product (not_lt.mp word)
    by_cases wraps : now + product % 2 ^ 32 / 1000 < 2 ^ 32
    · rw [Nat.mod_eq_of_lt wraps] at awaited due next around target
      by_cases last : now + 1 < 2 ^ 32
      · rw [Nat.mod_eq_of_lt last] at next
        omega
      · have none : product % 2 ^ 32 / 1000 = 0 := by omega
        have isLast : now = 2 ^ 32 - 1 := by omega
        rw [none, isLast] at due around
        have whole : k = 2 ^ 32 := by omega
        omega
    · omega

/-- Under the condition the right tick is the first one that is due. -/
theorem firstDue_of_right {now product : Nat}
    (right : (0 < product ∧ product < 2 ^ 32 ∧ 1000 ∣ product ∧
        (now + product / 1000 < 2 ^ 32 ∨ now = 2 ^ 32 - 1 ∧ product / 1000 ≠ 1)) ∨
      (0 < product ∧ product < 1000 ∧ 0 < now ∧ now + 1 < 2 ^ 32) ∨
      (product = 1000 * 2 ^ 32 ∧ now = 2 ^ 32 - 1)) :
    1 ≤ (product + 999) / 1000 ∧ (now + product % 2 ^ 32 / 1000) % 2 ^ 32 ≠ 0 ∧
      (now + product % 2 ^ 32 / 1000) % 2 ^ 32 ≤ (now + (product + 999) / 1000) % 2 ^ 32 ∧
      ∀ j, 1 ≤ j → j < (product + 999) / 1000 →
        ¬(now + product % 2 ^ 32 / 1000) % 2 ^ 32 ≤ (now + j) % 2 ^ 32 := by
  rcases right with ⟨some', word, whole, inside | ⟨rfl, more⟩⟩ | ⟨some', part, first, last⟩ |
    ⟨rfl, rfl⟩
  · rw [Nat.mod_eq_of_lt word, Nat.mod_eq_of_lt inside]
    have exact' : (product + 999) / 1000 = product / 1000 := by omega
    rw [exact', Nat.mod_eq_of_lt inside]
    refine ⟨by omega, by omega, le_refl _, fun j behind before => ?_⟩
    rw [Nat.mod_eq_of_lt (by omega)]
    omega
  · rw [Nat.mod_eq_of_lt word]
    have exact' : (product + 999) / 1000 = product / 1000 := by omega
    rw [exact']
    exact ⟨by omega, by omega, by omega, fun j behind before => by omega⟩
  · have none : product % 2 ^ 32 / 1000 = 0 := by omega
    have one : (product + 999) / 1000 = 1 := by omega
    rw [none, one]
    exact ⟨by omega, by omega, by omega, fun j behind before => by omega⟩
  · exact ⟨by omega, by omega, by omega, fun j behind before => by omega⟩

theorem firstDue_firstTick (ticks frequency milliseconds : UInt32) :
    (∃ k, FirstDue (sleepTarget ticks frequency milliseconds) ticks k ∧
      FirstTick frequency milliseconds k) ↔ WakesRight ticks frequency milliseconds := by
  have target := sleepTarget_toNat ticks frequency milliseconds
  have zero : sleepTarget ticks frequency milliseconds ≠ 0 ↔
      (sleepTarget ticks frequency milliseconds).toNat ≠ 0 :=
    not_congr UInt32.toNat_inj.symm
  have passed := le_ticks_iff (sleepTarget ticks frequency milliseconds) ticks
  rw [target] at zero
  simp only [target] at passed
  constructor
  · rintro ⟨k, ⟨behind, awaited, due, first⟩, tick⟩
    refine right_of_firstDue ticks.toNat_lt behind (zero.mp awaited) ((passed k).mp due) ?_
      ((firstTick_iff _ _ k).mp tick)
    intro j positive before overdue
    exact first j positive before ((passed j).mpr overdue)
  · intro right
    rcases firstDue_of_right right with ⟨behind, awaited, due, first⟩
    refine ⟨_, ⟨behind, zero.mpr awaited, (passed _).mpr due, ?_⟩, (firstTick_iff _ _ _).mpr rfl⟩
    intro j positive before overdue
    exact first j positive before ((passed j).mp overdue)

/-! ## Processes that sleep -/

namespace Scheduler

def fallAsleep (s : Scheduler) (slot : Nat) (untilTick : UInt32) : Scheduler :=
  s.modify slot fun p =>
    { Task.mlfqCreditRelease { p with sleepUntil := untilTick, state := .sleeping } p.quantumUsed
        (quantumFor p.effPrio) with quantumUsed := 0 }

/-- `scheduler_sleep_current`; a process without a kernel stack does not sleep. -/
def schedulerSleepCurrent (kstack : Bool) (untilTick : UInt32) (s : Scheduler) : Scheduler :=
  match s.current with
  | none => s
  | some slot => if kstack then (s.fallAsleep slot untilTick).schedule else s

def Asleep (s : Scheduler) (slot : Nat) (untilTick : UInt32) : Prop :=
  ∃ p, s.tasks[slot]? = some p ∧ p.state = .sleeping ∧ p.sleepUntil = untilTick

/-- What happens between ticks neither wakes the process nor puts it to sleep, and leaves it in the
run queue or out of it. -/
structure Between (slot : Nat) (s s' : Scheduler) : Prop where
  queue : slot ∈ s'.runQueue ↔ slot ∈ s.runQueue
  asleep : ∀ untilTick, s'.Asleep slot untilTick ↔ s.Asleep slot untilTick

/-- The states behind the ticks from a tick on, with anything that may happen between ticks. -/
def TickRun (slot : Nat) (ticks : UInt32) (run : Nat → Scheduler) : Prop :=
  ∀ k, ∃ s, Between slot (run k) s ∧
    Between slot (s.tickStart (ticks + UInt32.ofNat (k + 1))) (run (k + 1))

structure WokenAt (run : Nat → Scheduler) (slot k : Nat) : Prop where
  awake : ∀ untilTick, ¬(run k).Asleep slot untilTick
  asleep : ∀ j < k, ∃ untilTick, (run j).Asleep slot untilTick

/-- The current process would leave the processor to another one if it slept. -/
def Blocks (s : Scheduler) (kstack : Bool) (untilTick : UInt32) : Prop :=
  ∃ slot, s.current = some slot ∧ kstack = true ∧ (s.fallAsleep slot untilTick).pickNext ≠ none

/-- `sleep_block` returns after a number of ticks.  Where another process got the processor, the
loop begins when the process is woken up; else it begins at once. -/
def SleepBlockReturns (s : Scheduler) (kstack : Bool) (target ticks : UInt32)
    (run : Nat → Scheduler) (k : Nat) : Prop :=
  if (s.schedulerSleepCurrent kstack target).current = s.current then k = sleepLoop target ticks
  else ∃ slot woken, s.current = some slot ∧ WokenAt run slot woken ∧
    k = woken + sleepLoop target (ticks + UInt32.ofNat woken)

variable {s : Scheduler} {slot : Nat} {untilTick : UInt32}

theorem mlfqCreditRelease_sleep (p : Task) (used cap : Nat) :
    (p.mlfqCreditRelease used cap).state = p.state ∧
      (p.mlfqCreditRelease used cap).sleepUntil = p.sleepUntil := by
  unfold Task.mlfqCreditRelease
  split
  · exact ⟨rfl, rfl⟩
  · split
    · exact ⟨rfl, rfl⟩
    · exact ⟨rfl, rfl⟩

/-- A change that keeps the sleep of the process in its slot. -/
theorem Asleep.modify (asleep : s.Asleep slot untilTick) (other : Nat) (change : Task → Task)
    (keeps : other = slot → ∀ p : Task, p.state = .sleeping →
      (change p).state = .sleeping ∧ (change p).sleepUntil = p.sleepUntil) :
    (s.modify other change).Asleep slot untilTick := by
  rcases asleep with ⟨p, held, sleeps, sleepUntil⟩
  by_cases here : slot = other
  · have kept := keeps here.symm p sleeps
    rw [← here]
    refine ⟨change p, ?_, kept.1, kept.2.trans sleepUntil⟩
    rw [getElem?_modify_self, held]
    rfl
  · refine ⟨p, ?_, sleeps, sleepUntil⟩
    rw [getElem?_modify_of_ne s change here, held]

theorem fallAsleep_asleep (untilTick : UInt32) (exists' : ∃ p, s.tasks[slot]? = some p) :
    (s.fallAsleep slot untilTick).Asleep slot untilTick := by
  rcases exists' with ⟨p, held⟩
  have kept := mlfqCreditRelease_sleep { p with sleepUntil := untilTick, state := .sleeping }
    p.quantumUsed (quantumFor p.effPrio)
  unfold fallAsleep Asleep
  rw [getElem?_modify_self, held]
  exact ⟨_, rfl, kept.1, kept.2⟩

/-- A process that sleeps and calls `schedule` goes on sleeping, and another process gets the
processor if there is one. -/
theorem schedule_asleep (asleep : s.Asleep slot untilTick) (current : s.current = some slot) :
    s.schedule.Asleep slot untilTick ∧ s.schedule.runQueue = s.runQueue ∧
      (s.schedule.current = s.current ↔ s.pickNext = none) := by
  unfold schedule
  cases next : s.pickNext with
  | none => exact ⟨asleep, rfl, iff_of_true rfl rfl⟩
  | some idx =>
      rcases pickNext_runnable next with ⟨other, p, place, held, runnable⟩
      have apart : other ≠ slot := by
        rintro rfl
        rcases asleep with ⟨q, heldQ, sleeps, _⟩
        rw [held, Option.some_inj] at heldQ
        rw [heldQ, Task.Runnable, sleeps] at runnable
        rcases runnable with ready | running
        · cases ready
        · cases running
      have switches : s.current ≠ some other := by
        rw [current]
        exact fun same => apart (Option.some_inj.mp same).symm
      dsimp only
      rw [place]
      dsimp only
      rw [if_neg switches, current]
      dsimp only
      have released : (s.release slot).Asleep slot untilTick := by
        refine asleep.modify slot _ fun _ q sleeps => ?_
        have kept := mlfqCreditRelease_sleep q q.quantumUsed (quantumFor q.effPrio)
        have awake : (q.mlfqCreditRelease q.quantumUsed (quantumFor q.effPrio)).state ≠
            .running := by
          rw [kept.1, sleeps]
          intro impossible
          cases impossible
        dsimp only
        rw [if_neg awake]
        exact ⟨kept.1.trans sleeps, kept.2⟩
      have switched := released.modify other
        (fun p => { p with state := .running, quantumUsed := 0 }) fun same => absurd same apart
      refine ⟨switched, rfl, iff_of_false ?_ (by intro impossible; cases impossible)⟩
      exact fun same => apart (Option.some_inj.mp same)

/-! ## Waking up -/

theorem mlfqDecayAll_asleep (asleep : s.Asleep slot untilTick) :
    s.mlfqDecayAll.Asleep slot untilTick ∧ s.mlfqDecayAll.runQueue = s.runQueue := by
  have begin' : s.Asleep slot untilTick ∧ s.runQueue = s.runQueue := ⟨asleep, rfl⟩
  refine List.foldlRecOn (motive := fun after : Scheduler =>
    after.Asleep slot untilTick ∧ after.runQueue = s.runQueue) s.runQueue _ begin' ?_
  intro after kept other _
  exact ⟨kept.1.modify other _ fun _ p sleeps => ⟨sleeps, rfl⟩, kept.2⟩

def Ready (s : Scheduler) (slot : Nat) : Prop := ∃ p, s.tasks[slot]? = some p ∧ p.state = .ready

theorem Ready.notAsleep (ready : s.Ready slot) (other : UInt32) : ¬s.Asleep slot other := by
  rintro ⟨p, held, sleeps, _⟩
  rcases ready with ⟨q, heldQ, isReady⟩
  rw [held, Option.some_inj] at heldQ
  rw [← heldQ, sleeps] at isReady
  cases isReady

theorem wakeupEntry_cases (now : UInt32) (s : Scheduler) (other : Nat) :
    s.wakeupEntry now other = s ∨
      s.wakeupEntry now other = { s.modify other fun p =>
          { p with state := .ready, sleepUntil := 0 } with kickFlag := true } ∧
        ∃ p, s.tasks[other]? = some p ∧ p.state = .sleeping ∧ p.sleepUntil ≠ 0 ∧
          p.sleepUntil ≤ now := by
  unfold wakeupEntry
  cases held : s.tasks[other]? with
  | none => exact Or.inl rfl
  | some p =>
      dsimp only
      by_cases due : p.state = .sleeping ∧ p.sleepUntil ≠ 0 ∧ p.sleepUntil ≤ now
      · rw [if_pos due]
        exact Or.inr ⟨rfl, p, rfl, due⟩
      · rw [if_neg due]
        exact Or.inl rfl

theorem wakeupEntry_queue (now : UInt32) (s : Scheduler) (other : Nat) :
    (s.wakeupEntry now other).runQueue = s.runQueue := by
  rcases wakeupEntry_cases now s other with same | ⟨woken, _⟩
  · rw [same]
  · rw [woken]
    rfl

theorem Ready.wakeupEntry (ready : s.Ready slot) (now : UInt32) (other : Nat) :
    (s.wakeupEntry now other).Ready slot := by
  rcases wakeupEntry_cases now s other with same | ⟨woken, q, heldQ, _⟩
  · rw [same]
    exact ready
  · rw [woken]
    rcases ready with ⟨p, held, isReady⟩
    by_cases here : slot = other
    · rw [here]
      exact ⟨_, (getElem?_modify_self s other _).trans (congrArg _ heldQ), rfl⟩
    · exact ⟨p, (getElem?_modify_of_ne s _ here).trans held, isReady⟩

/-- A process that sleeps goes on sleeping at the check for an entry, or it is the one that is
woken up. -/
theorem Asleep.wakeupEntry (asleep : s.Asleep slot untilTick) (now : UInt32) (other : Nat) :
    ((s.wakeupEntry now other).Asleep slot untilTick ∧
        ¬(other = slot ∧ untilTick ≠ 0 ∧ untilTick ≤ now)) ∨
      ((s.wakeupEntry now other).Ready slot ∧ other = slot ∧ untilTick ≠ 0 ∧ untilTick ≤ now) := by
  rcases asleep with ⟨p, held, sleeps, rfl⟩
  by_cases due : other = slot ∧ p.sleepUntil ≠ 0 ∧ p.sleepUntil ≤ now
  · right
    refine ⟨⟨{ p with state := .ready, sleepUntil := 0 }, ?_, rfl⟩, due⟩
    unfold Scheduler.wakeupEntry
    rw [due.1, held]
    dsimp only
    rw [if_pos ⟨sleeps, due.2⟩]
    exact (getElem?_modify_self s slot _).trans (congrArg _ held)
  · left
    refine ⟨?_, due⟩
    rcases wakeupEntry_cases now s other with same | ⟨woken, q, heldQ, _, overdue⟩
    · rw [same]
      exact ⟨p, held, sleeps, rfl⟩
    · by_cases here : slot = other
      · rw [← here, held, Option.some_inj] at heldQ
        rw [← heldQ] at overdue
        exact absurd ⟨here.symm, overdue⟩ due
      · rw [woken]
        exact ⟨p, (getElem?_modify_of_ne s _ here).trans held, sleeps, rfl⟩

theorem schedulerWakeupCheck_queue (now : UInt32) (s : Scheduler) :
    (s.schedulerWakeupCheck now).runQueue = s.runQueue := by
  refine List.foldlRecOn (motive := fun after : Scheduler => after.runQueue = s.runQueue)
    s.runQueue _ rfl ?_
  exact fun after same other _ => (wakeupEntry_queue now after other).trans same

/-- A process that sleeps is ready behind the check if its time has come, and goes on sleeping
else. -/
theorem Asleep.wakeupCheck (asleep : s.Asleep slot untilTick) (now : UInt32) :
    ((slot ∈ s.runQueue ∧ untilTick ≠ 0 ∧ untilTick ≤ now) →
        (s.schedulerWakeupCheck now).Ready slot) ∧
      (¬(slot ∈ s.runQueue ∧ untilTick ≠ 0 ∧ untilTick ≤ now) →
        (s.schedulerWakeupCheck now).Asleep slot untilTick) := by
  unfold schedulerWakeupCheck
  constructor
  · rintro ⟨member, due⟩
    rcases List.append_of_mem member with ⟨before, behind, parts⟩
    rw [parts, List.foldl_append, List.foldl_cons]
    have front : (before.foldl (Scheduler.wakeupEntry now) s).Asleep slot untilTick ∨
        (before.foldl (Scheduler.wakeupEntry now) s).Ready slot := by
      refine List.foldlRecOn (motive := fun after : Scheduler =>
        after.Asleep slot untilTick ∨ after.Ready slot) before _ (Or.inl asleep) ?_
      rintro after (sleeps | ready) other _
      · exact (sleeps.wakeupEntry now other).imp And.left And.left
      · exact Or.inr (ready.wakeupEntry now other)
    have here : ((before.foldl (Scheduler.wakeupEntry now) s).wakeupEntry now slot).Ready slot := by
      rcases front with sleeps | ready
      · rcases sleeps.wakeupEntry now slot with ⟨_, notDue⟩ | ⟨ready, _⟩
        · exact absurd ⟨rfl, due⟩ notDue
        · exact ready
      · exact ready.wakeupEntry now slot
    refine List.foldlRecOn (motive := fun after : Scheduler => after.Ready slot) behind _ here ?_
    exact fun after ready other _ => ready.wakeupEntry now other
  · intro notDue
    refine List.foldlRecOn (motive := fun after : Scheduler => after.Asleep slot untilTick)
      s.runQueue _ asleep ?_
    intro after sleeps other member
    rcases sleeps.wakeupEntry now other with ⟨kept, _⟩ | ⟨_, rfl, due⟩
    · exact kept
    · exact absurd ⟨member, due⟩ notDue

/-- A tick wakes the process up if its time has come and it is in the run queue. -/
theorem Asleep.tickStart (asleep : s.Asleep slot untilTick) (now : UInt32) :
    ((slot ∈ s.runQueue ∧ untilTick ≠ 0 ∧ untilTick ≤ now) → (s.tickStart now).Ready slot) ∧
      (¬(slot ∈ s.runQueue ∧ untilTick ≠ 0 ∧ untilTick ≤ now) →
        (s.tickStart now).Asleep slot untilTick) ∧
      (s.tickStart now).runQueue = s.runQueue := by
  have counted : ({ s with tickCount := s.tickCount + 1 } : Scheduler).Asleep slot untilTick :=
    asleep
  unfold Scheduler.tickStart
  dsimp only
  by_cases decays : (s.tickCount + 1).toNat % mlfqDecayTicks = 0
  · have decayed := mlfqDecayAll_asleep counted
    have woken := decayed.1.wakeupCheck now
    rw [decayed.2] at woken
    rw [if_pos decays]
    exact ⟨woken.1, woken.2, (schedulerWakeupCheck_queue now _).trans decayed.2⟩
  · have woken := counted.wakeupCheck now
    rw [if_neg decays]
    exact ⟨woken.1, woken.2, schedulerWakeupCheck_queue now _⟩

/-! ## Runs -/

theorem asleep_before {run : Nat → Scheduler} {ticks : UInt32}
    (begins : (run 0).Asleep slot untilTick) (runs : TickRun slot ticks run) (k : Nat)
    (early : ∀ j, 1 ≤ j → j ≤ k →
      ¬(slot ∈ (run 0).runQueue ∧ untilTick ≠ 0 ∧ untilTick ≤ ticks + UInt32.ofNat j)) :
    (run k).Asleep slot untilTick ∧ (slot ∈ (run k).runQueue ↔ slot ∈ (run 0).runQueue) := by
  induction k with
  | zero => exact ⟨begins, Iff.rfl⟩
  | succ k known =>
      rcases known fun j positive before => early j positive (Nat.le_succ_of_le before) with
        ⟨sleeps, queue⟩
      rcases runs k with ⟨s, before, behind⟩
      have ticked := ((before.asleep untilTick).mpr sleeps).tickStart
        (ticks + UInt32.ofNat (k + 1))
      rw [before.queue, queue] at ticked
      have notDue := early (k + 1) (Nat.le_add_left 1 k) (le_refl _)
      refine ⟨(behind.asleep untilTick).mpr (ticked.2.1 notDue), ?_⟩
      rw [behind.queue, ticked.2.2, before.queue, queue]

theorem awake_at {run : Nat → Scheduler} {ticks : UInt32} (begins : (run 0).Asleep slot untilTick)
    (runs : TickRun slot ticks run) {k : Nat} (behind : 1 ≤ k)
    (due : slot ∈ (run 0).runQueue ∧ untilTick ≠ 0 ∧ untilTick ≤ ticks + UInt32.ofNat k)
    (early : ∀ j, 1 ≤ j → j < k →
      ¬(slot ∈ (run 0).runQueue ∧ untilTick ≠ 0 ∧ untilTick ≤ ticks + UInt32.ofNat j))
    (other : UInt32) : ¬(run k).Asleep slot other := by
  cases k with
  | zero => exact absurd behind (Nat.not_succ_le_zero 0)
  | succ k =>
      rcases asleep_before begins runs k fun j positive before =>
        early j positive (Nat.lt_succ_of_le before) with ⟨sleeps, queue⟩
      rcases runs k with ⟨s, before, behind⟩
      have ticked := ((before.asleep untilTick).mpr sleeps).tickStart
        (ticks + UInt32.ofNat (k + 1))
      rw [before.queue, queue] at ticked
      rw [behind.asleep]
      exact (ticked.1 due).notAsleep other

/-- The process is woken up at the first tick that is due, if it is in the run queue. -/
theorem wokenAt_iff {run : Nat → Scheduler} {ticks : UInt32}
    (begins : (run 0).Asleep slot untilTick) (runs : TickRun slot ticks run) (k : Nat) :
    WokenAt run slot k ↔ slot ∈ (run 0).runQueue ∧ FirstDue untilTick ticks k := by
  constructor
  · intro woken
    have early : ∀ j, 1 ≤ j → j < k →
        ¬(slot ∈ (run 0).runQueue ∧ untilTick ≠ 0 ∧ untilTick ≤ ticks + UInt32.ofNat j) := by
      intro j
      induction j using Nat.strong_induction_on with
      | _ j known =>
          intro positive before due
          rcases woken.asleep j before with ⟨other, sleeps⟩
          refine awake_at begins runs positive due ?_ other sleeps
          exact fun i positive' earlier => known i earlier positive' (earlier.trans before)
    have due : 1 ≤ k ∧ slot ∈ (run 0).runQueue ∧ untilTick ≠ 0 ∧
        untilTick ≤ ticks + UInt32.ofNat k := by
      by_contra notDue
      refine woken.awake untilTick (asleep_before begins runs k fun j positive before now => ?_).1
      rcases Nat.lt_or_eq_of_le before with less | same
      · exact early j positive less now
      · rw [same] at positive now
        exact notDue ⟨positive, now⟩
    exact ⟨due.2.1, due.1, due.2.2.1, due.2.2.2,
      fun j positive before overdue => early j positive before ⟨due.2.1, due.2.2.1, overdue⟩⟩
  · rintro ⟨member, due⟩
    have early : ∀ j, 1 ≤ j → j < k →
        ¬(slot ∈ (run 0).runQueue ∧ untilTick ≠ 0 ∧ untilTick ≤ ticks + UInt32.ofNat j) :=
      fun j positive before now => due.first j positive before now.2.2
    refine ⟨awake_at begins runs due.behind ⟨member, due.awaited, due.due⟩ early, ?_⟩
    intro j before
    exact ⟨untilTick, (asleep_before begins runs j fun i positive earlier =>
      early i positive (lt_of_le_of_lt earlier before)).1⟩

theorem schedulerSleepCurrent_asleep (current : s.current = some slot)
    (exists' : ∃ p, s.tasks[slot]? = some p) (untilTick : UInt32) :
    (s.schedulerSleepCurrent true untilTick).Asleep slot untilTick ∧
      (s.schedulerSleepCurrent true untilTick).runQueue = s.runQueue ∧
      ((s.schedulerSleepCurrent true untilTick).current = s.current ↔
        (s.fallAsleep slot untilTick).pickNext = none) := by
  have asleep := fallAsleep_asleep untilTick exists'
  have scheduled := schedule_asleep asleep current
  unfold schedulerSleepCurrent
  rw [current]
  dsimp only
  rw [if_pos rfl]
  exact ⟨scheduled.1, scheduled.2.1, by rw [← current]; exact scheduled.2.2⟩

/-- `sleep_block` puts the process to sleep if another one takes over, and waits else. -/
theorem schedulerSleepCurrent_blocks (kstack : Bool) (untilTick : UInt32)
    (exists' : ∀ slot, s.current = some slot → ∃ p, s.tasks[slot]? = some p) :
    (s.schedulerSleepCurrent kstack untilTick).current = s.current ↔
      ¬s.Blocks kstack untilTick := by
  cases current : s.current with
  | none =>
      refine iff_of_true ?_ ?_
      · unfold schedulerSleepCurrent
        rw [current]
        exact current
      · rintro ⟨slot, isCurrent, _⟩
        rw [current] at isCurrent
        cases isCurrent
  | some slot =>
      cases kstack with
      | false =>
          refine iff_of_true ?_ ?_
          · unfold schedulerSleepCurrent
            rw [current]
            exact current
          · rintro ⟨_, _, impossible, _⟩
            cases impossible
      | true =>
          have falls := (schedulerSleepCurrent_asleep current (exists' slot current) untilTick).2.2
          rw [current] at falls
          rw [falls]
          constructor
          · rintro none ⟨other, isCurrent, _, found⟩
            rw [current, Option.some_inj] at isCurrent
            rw [← isCurrent] at found
            exact found none
          · intro stays
            by_contra found
            exact stays ⟨slot, current, rfl, found⟩

/-- The process that was put to sleep is woken up in time. -/
theorem wokenAt_firstTick {kstack : Bool} {ticks frequency milliseconds : UInt32}
    {run : Nat → Scheduler} (current : s.current = some slot) (stack : kstack = true)
    (exists' : ∃ p, s.tasks[slot]? = some p)
    (begins : run 0 = s.schedulerSleepCurrent kstack (sleepTarget ticks frequency milliseconds))
    (runs : TickRun slot ticks run) :
    (∃ k, WokenAt run slot k ∧ FirstTick frequency milliseconds k) ↔
      slot ∈ s.runQueue ∧ WakesRight ticks frequency milliseconds := by
  rw [stack] at begins
  have falls := schedulerSleepCurrent_asleep current exists'
    (sleepTarget ticks frequency milliseconds)
  rw [← begins] at falls
  rw [← falls.2.1, ← firstDue_firstTick]
  constructor
  · rintro ⟨k, woken, tick⟩
    have due := (wokenAt_iff falls.1 runs k).mp woken
    exact ⟨due.1, k, due.2, tick⟩
  · rintro ⟨member, k, due, tick⟩
    exact ⟨k, (wokenAt_iff falls.1 runs k).mpr ⟨member, due⟩, tick⟩

/-- Where another process takes over, `sleep_block` returns when the process is woken up. -/
theorem sleepBlockReturns_blocks {kstack : Bool} {target ticks : UInt32} {run : Nat → Scheduler}
    (current : s.current = some slot) (exists' : ∃ p, s.tasks[slot]? = some p)
    (begins : run 0 = s.schedulerSleepCurrent kstack target) (runs : TickRun slot ticks run)
    (blocks : s.Blocks kstack target) (k : Nat) :
    s.SleepBlockReturns kstack target ticks run k ↔ WokenAt run slot k := by
  have switches : (s.schedulerSleepCurrent kstack target).current ≠ s.current := by
    intro stays
    refine (schedulerSleepCurrent_blocks kstack target ?_).mp stays blocks
    intro other isCurrent
    rw [current, Option.some_inj] at isCurrent
    rw [← isCurrent]
    exact exists'
  have returns : ∀ woken, WokenAt run slot woken →
      sleepLoop target (ticks + UInt32.ofNat woken) = 0 := by
    intro woken isWoken
    rcases blocks with ⟨_, _, stack, _⟩
    rw [stack] at begins
    have falls := schedulerSleepCurrent_asleep current exists' target
    rw [← begins] at falls
    have due := ((wokenAt_iff falls.1 runs woken).mp isWoken).2.due
    rw [sleepLoop, if_neg (UInt32.not_lt.mpr due)]
  unfold SleepBlockReturns
  rw [if_neg switches]
  constructor
  · rintro ⟨other, woken, isCurrent, isWoken, same⟩
    rw [current, Option.some_inj] at isCurrent
    rw [← isCurrent] at isWoken
    rw [returns woken isWoken, Nat.add_zero] at same
    rw [same]
    exact isWoken
  · intro woken
    refine ⟨slot, k, current, woken, ?_⟩
    rw [returns k woken, Nat.add_zero]

end Scheduler

/-- `sleep`, `sleep_block` and the waking up of a process are in time exactly under these
conditions. -/
theorem sleep_inTime (s : Scheduler) (kstack : Bool) (ticks frequency milliseconds : UInt32)
    (run : Nat → Scheduler) (exists' : ∀ slot, s.current = some slot → ∃ p, s.tasks[slot]? = some p)
    (begins : run 0 = s.schedulerSleepCurrent kstack (sleepTarget ticks frequency milliseconds))
    (runs : ∀ slot, s.current = some slot → Scheduler.TickRun slot ticks run) :
    (FirstTick frequency milliseconds (sleep ticks frequency milliseconds) ↔
      SleepsRight ticks frequency milliseconds) ∧
    ((∃ k, s.SleepBlockReturns kstack (sleepTarget ticks frequency milliseconds) ticks run k ∧
        FirstTick frequency milliseconds k) ↔
      (¬s.Blocks kstack (sleepTarget ticks frequency milliseconds) ∧
          SleepsRight ticks frequency milliseconds) ∨
        s.Blocks kstack (sleepTarget ticks frequency milliseconds) ∧
          (∃ slot ∈ s.runQueue, s.current = some slot) ∧
          WakesRight ticks frequency milliseconds) ∧
    ∀ slot, s.current = some slot → kstack = true →
      ((∃ k, Scheduler.WokenAt run slot k ∧ FirstTick frequency milliseconds k) ↔
        slot ∈ s.runQueue ∧ WakesRight ticks frequency milliseconds) := by
  refine ⟨sleep_firstTick ticks frequency milliseconds, ?_, ?_⟩
  · by_cases blocks : s.Blocks kstack (sleepTarget ticks frequency milliseconds)
    · rcases blocks with ⟨slot, current, stack, found⟩
      have again : s.Blocks kstack (sleepTarget ticks frequency milliseconds) :=
        ⟨slot, current, stack, found⟩
      have woken := Scheduler.wokenAt_firstTick current stack (exists' slot current) begins
        (runs slot current)
      have returns := Scheduler.sleepBlockReturns_blocks current (exists' slot current) begins
        (runs slot current) again
      simp only [returns, woken, again, not_true_eq_false, false_and, false_or, true_and]
      constructor
      · rintro ⟨member, right⟩
        exact ⟨⟨slot, member, current⟩, right⟩
      · rintro ⟨⟨other, member, isCurrent⟩, right⟩
        rw [current, Option.some_inj] at isCurrent
        rw [isCurrent]
        exact ⟨member, right⟩
    · have stays := (Scheduler.schedulerSleepCurrent_blocks kstack _ exists').mpr blocks
      simp only [Scheduler.SleepBlockReturns, if_pos stays, blocks, not_false_eq_true, true_and,
        false_and, or_false, exists_eq_left]
      exact sleep_firstTick ticks frequency milliseconds
  · intro slot current stack
    exact Scheduler.wokenAt_firstTick current stack (exists' slot current) begins
      (runs slot current)

/-- Twelve hours at a hundred ticks a second: the product is more than a word, and `sleep` returns
at once. -/
theorem sleep_overflows : ¬FirstTick 100 42949673 (sleep 0 100 42949673) := by
  rw [sleep_firstTick]
  rintro ⟨word, _⟩
  exact absurd word (by decide +kernel)

namespace Scheduler

def pair : Scheduler where
  tasks := [⟨.running, 0, 0, 0, 0, 0⟩, ⟨.ready, 0, 0, 0, 0, 0⟩]
  current := some 0
  runQueue := [0, 1]
  lastPickedIdx := 0
  tickCount := 0
  kickFlag := false

def plainRun (s : Scheduler) (ticks : UInt32) : Nat → Scheduler
  | 0 => s
  | k + 1 => (plainRun s ticks k).tickStart (ticks + UInt32.ofNat (k + 1))

theorem plainRun_tickRun (s : Scheduler) (ticks : UInt32) (slot : Nat) :
    TickRun slot ticks (plainRun s ticks) :=
  fun k => ⟨plainRun s ticks k, ⟨Iff.rfl, fun _ => Iff.rfl⟩, ⟨Iff.rfl, fun _ => Iff.rfl⟩⟩

end Scheduler

theorem sleep_inTime_pair :
    (∃ k, Scheduler.WokenAt (Scheduler.plainRun
        (Scheduler.pair.schedulerSleepCurrent true (sleepTarget 7 100 100)) 7) 0 k ∧
      FirstTick 100 100 k) ↔ 0 ∈ Scheduler.pair.runQueue ∧ WakesRight 7 100 100 := by
  have right := sleep_inTime Scheduler.pair true 7 100 100 (Scheduler.plainRun
    (Scheduler.pair.schedulerSleepCurrent true (sleepTarget 7 100 100)) 7)
    (fun slot current => by
      rw [← Option.some_inj.mp current]
      exact ⟨_, rfl⟩)
    rfl (fun slot _ => Scheduler.plainRun_tickRun _ 7 slot)
  exact right.2.2 0 rfl rfl

end Trinux
