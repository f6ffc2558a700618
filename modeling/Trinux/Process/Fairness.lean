import Trinux.Process.Scheduler

namespace Trinux

/-!
# Turns

As long as processes use up their quanta, boosts do not fall but when they are halved.  After three
halvings a process that waits is not behind any other one, and then its turn comes in the order of
the run queue.  A process that gives up the processor early is credited at once and can come back
before all those that wait.
-/

namespace Task

theorem halve_le {boost : Int} {limit : Nat} (below : boost ≤ limit) : halve boost ≤ (limit / 2 : Nat) := by
  rw [halve]
  split
  · omega
  · split <;> omega

theorem le_halve {boost : Int} {limit : Nat} (above : -(limit : Int) ≤ boost) :
    -((limit / 2 : Nat) : Int) ≤ halve boost := by
  rw [halve]
  split
  · omega
  · split <;> omega

theorem halve_bounds {boost : Int} (above : mlfqBoostMin ≤ boost) (below : boost ≤ mlfqBoostMax) :
    mlfqBoostMin ≤ halve boost ∧ halve boost ≤ mlfqBoostMax := by
  simp only [mlfqBoostMin, mlfqBoostMax] at *
  rw [halve]
  split
  · omega
  · split <;> omega

/-- The effective priority is the sum of base priority and boost, kept in the range. -/
theorem effPrio_eq {p : Task} (notIdle : p.priority < prioIdle) :
    p.effPrio = max prioMin (min prioMax (p.priority + p.dynBoost)) := by
  simp only [effPrio, if_neg (not_le.mpr notIdle), prioMin, prioMax]
  split_ifs <;> omega

/-- Among processes of one base priority a smaller boost is a better effective priority. -/
theorem effPrio_le {p q : Task} (notIdle : p.priority < prioIdle)
    (samePriority : p.priority = q.priority) (boosts : p.dynBoost ≤ q.dynBoost) :
    p.effPrio ≤ q.effPrio := by
  rw [effPrio_eq notIdle, effPrio_eq (samePriority ▸ notIdle), samePriority]
  exact max_le_max_left _ (min_le_min_left _ (Int.add_le_add_left boosts _))

theorem effPrio_lt {p : Task} (notIdle : p.priority < prioIdle) : p.effPrio < 0x7FFFFFFF := by
  rw [effPrio_eq notIdle]
  exact max_lt (by decide) (lt_of_le_of_lt (min_le_left _ _) (by decide))

/-- A credit takes at most one off a boost, and none below the least one. -/
theorem mlfqCreditRelease_boost (p : Task) (used cap : Nat) (above : mlfqBoostMin ≤ p.dynBoost) :
    p.dynBoost - 1 ≤ (p.mlfqCreditRelease used cap).dynBoost ∧
      (p.mlfqCreditRelease used cap).dynBoost ≤ p.dynBoost ∧
      mlfqBoostMin ≤ (p.mlfqCreditRelease used cap).dynBoost := by
  rw [mlfqCreditRelease]
  split
  · exact ⟨by omega, le_refl _, above⟩
  · split
    · dsimp only
      split
      · exact ⟨le_refl _, by omega, by omega⟩
      · exact ⟨by omega, le_refl _, above⟩
    · exact ⟨by omega, le_refl _, above⟩

theorem mlfqCreditRelease_full {p : Task} {used cap : Nat} (full : cap ≤ used) :
    p.mlfqCreditRelease used cap = p := by
  rw [mlfqCreditRelease]
  split
  · rfl
  · rw [if_neg (not_lt.mpr full)]

/-- A charge changes the boost by at most one, and nothing that is not about the charge. -/
structure Charged (p q : Task) : Prop where
  state : q.state = p.state
  priority : q.priority = p.priority
  quantumUsed : q.quantumUsed = p.quantumUsed
  sleepUntil : q.sleepUntil = p.sleepUntil
  boost : q.dynBoost = p.dynBoost ∨ q.dynBoost = p.dynBoost + 1 ∧ q.dynBoost ≤ mlfqBoostMax

theorem mlfqChargeQuantum_charged (p : Task) (cap : Nat) : p.Charged (p.mlfqChargeQuantum cap) := by
  rw [mlfqChargeQuantum]
  split
  · exact ⟨rfl, rfl, rfl, rfl, Or.inl rfl⟩
  · split
    · split
      · split
        · rename_i below
          exact ⟨rfl, rfl, rfl, rfl, Or.inr ⟨rfl, below⟩⟩
        · exact ⟨rfl, rfl, rfl, rfl, Or.inl rfl⟩
      · exact ⟨rfl, rfl, rfl, rfl, Or.inl rfl⟩
    · exact ⟨rfl, rfl, rfl, rfl, Or.inl rfl⟩

/-- The effective priority depends on the base priority and the boost only. -/
theorem effPrio_congr {p q : Task} (priority : q.priority = p.priority)
    (boost : q.dynBoost = p.dynBoost) : q.effPrio = p.effPrio := by
  simp only [effPrio, priority, boost]

/-- Who used up the quantum is charged before the processor changes hands, so that a credit after
the charge does not leave the boost smaller than it was. -/
theorem Charged.credit {p q : Task} (charged : p.Charged q)
    (full : quantumFor p.effPrio ≤ p.quantumUsed) (above : mlfqBoostMin ≤ p.dynBoost) :
    p.dynBoost ≤ (q.mlfqCreditRelease q.quantumUsed (quantumFor q.effPrio)).dynBoost := by
  rcases charged.boost with same | ⟨more, -⟩
  · have cap : quantumFor q.effPrio ≤ q.quantumUsed := by
      rw [effPrio_congr charged.priority same, charged.quantumUsed]
      exact full
    rw [mlfqCreditRelease_full cap, same]
  · have credited := mlfqCreditRelease_boost q q.quantumUsed (quantumFor q.effPrio) (by omega)
    omega

end Task

namespace Scheduler

variable {s : Scheduler} {base : Int}

/-! ## The parts of a tick -/

def aged (s : Scheduler) (boost : Int) : Int :=
  if (s.tickCount + 1).toNat % mlfqDecayTicks = 0 then Task.halve boost else boost

theorem getElem?_modify_self (s : Scheduler) (slot : Nat) (change : Task → Task) :
    (s.modify slot change).tasks[slot]? = s.tasks[slot]?.map change := by
  simp [modify]

theorem getElem?_modify_of_ne (s : Scheduler) {slot other : Nat} (change : Task → Task)
    (different : other ≠ slot) : (s.modify slot change).tasks[other]? = s.tasks[other]? := by
  simp [modify, Ne.symm different]

theorem foldl_modify (slots : List Nat) (distinct : slots.Nodup) (change : Task → Task)
    (s : Scheduler) :
    slots.foldl (fun s slot => s.modify slot change) s =
        { s with tasks := (slots.foldl (fun s slot => s.modify slot change) s).tasks } ∧
      ∀ slot, (slots.foldl (fun s slot => s.modify slot change) s).tasks[slot]? =
        if slot ∈ slots then s.tasks[slot]?.map change else s.tasks[slot]? := by
  induction slots generalizing s with
  | nil => exact ⟨rfl, fun slot => by rw [if_neg List.not_mem_nil, List.foldl_nil]⟩
  | cons first rest known =>
      have others := known (List.nodup_cons.mp distinct).2 (s.modify first change)
      have apart := (List.nodup_cons.mp distinct).1
      rw [List.foldl_cons]
      refine ⟨others.1, fun slot => ?_⟩
      rw [others.2 slot]
      by_cases here : slot = first
      · subst here
        rw [if_neg apart, if_pos List.mem_cons_self, getElem?_modify_self]
      · rw [getElem?_modify_of_ne s change here]
        simp only [List.mem_cons, here, false_or]

theorem schedulerWakeupCheck_eq (now : UInt32)
    (awake : ∀ slot ∈ s.runQueue, ∀ p, s.tasks[slot]? = some p →
      p.state = .sleeping → p.sleepUntil = 0) : s.schedulerWakeupCheck now = s := by
  rw [schedulerWakeupCheck]
  have all : ∀ slots : List Nat, (∀ slot ∈ slots, slot ∈ s.runQueue) →
      slots.foldl (wakeupEntry now) s = s := by
    intro slots inside
    induction slots with
    | nil => rfl
    | cons first rest known =>
        have stays : wakeupEntry now s first = s := by
          rw [wakeupEntry]
          split
          · rfl
          · rename_i p held
            rw [if_neg]
            rintro ⟨sleeps, ends, -⟩
            exact ends (awake first (inside first List.mem_cons_self) p held sleeps)
        rw [List.foldl_cons, stays]
        exact known fun slot member => inside slot (List.mem_cons_of_mem first member)
  exact all s.runQueue fun _ => id

def agedTask (s : Scheduler) (p : Task) : Task := { p with dynBoost := s.aged p.dynBoost }

structure Aged (s s' : Scheduler) : Prop where
  runQueue : s'.runQueue = s.runQueue
  current : s'.current = s.current
  lastPickedIdx : s'.lastPickedIdx = s.lastPickedIdx
  kickFlag : s'.kickFlag = s.kickFlag
  tickCount : s'.tickCount = s.tickCount + 1
  tasks : ∀ slot ∈ s.runQueue, s'.tasks[slot]? = s.tasks[slot]?.map s.agedTask

theorem Competing.awake (competing : s.Competing base) :
    ∀ slot ∈ s.runQueue, ∀ p, s.tasks[slot]? = some p → p.state = .sleeping → p.sleepUntil = 0 := by
  intro slot member p held sleeps
  rcases competing.entries slot member with ⟨q, heldQ, contends | rests⟩
  · rw [held, Option.some_inj] at heldQ
    subst heldQ
    rcases contends.1 with ready | running
    · rw [sleeps] at ready
      cases ready
    · rw [sleeps] at running
      cases running
  · rw [held, Option.some_inj] at heldQ
    subst heldQ
    exact rests.2

theorem Competing.tickStart (competing : s.Competing base) (now : UInt32) :
    s.Aged (s.tickStart now) := by
  rw [Scheduler.tickStart]
  dsimp only
  by_cases decays : (s.tickCount + 1).toNat % mlfqDecayTicks = 0
  · rw [if_pos decays]
    have decayed := foldl_modify s.runQueue competing.distinct
      (fun p => { p with dynBoost := Task.halve p.dynBoost })
      { s with tickCount := s.tickCount + 1 }
    change mlfqDecayAll { s with tickCount := s.tickCount + 1 } =
      { s with tickCount := s.tickCount + 1,
               tasks := (mlfqDecayAll { s with tickCount := s.tickCount + 1 }).tasks } ∧ _
      at decayed
    have aging : s.agedTask = fun p => { p with dynBoost := Task.halve p.dynBoost } := by
      funext p
      rw [agedTask, aged, if_pos decays]
    have tasks : ∀ slot ∈ s.runQueue,
        (mlfqDecayAll { s with tickCount := s.tickCount + 1 }).tasks[slot]? =
          s.tasks[slot]?.map s.agedTask := by
      intro slot member
      rw [aging]
      exact (decayed.2 slot).trans (if_pos member)
    generalize mlfqDecayAll { s with tickCount := s.tickCount + 1 } = s' at decayed tasks
    have stays : s'.schedulerWakeupCheck now = s' := by
      refine schedulerWakeupCheck_eq now fun slot member p held sleeps => ?_
      rw [decayed.1] at member
      rw [tasks slot member] at held
      rcases Option.map_eq_some_iff.mp held with ⟨q, heldQ, rfl⟩
      exact competing.awake slot member q heldQ sleeps
    rw [stays]
    refine ⟨?_, ?_, ?_, ?_, ?_, tasks⟩
    · rw [decayed.1]
    · rw [decayed.1]
    · rw [decayed.1]
    · rw [decayed.1]
    · rw [decayed.1]
  · have stays : schedulerWakeupCheck now { s with tickCount := s.tickCount + 1 } =
        { s with tickCount := s.tickCount + 1 } := schedulerWakeupCheck_eq now competing.awake
    rw [if_neg decays, stays]
    refine ⟨rfl, rfl, rfl, rfl, rfl, fun slot _ => ?_⟩
    have aging : s.agedTask = id := by
      funext p
      rw [agedTask, aged, if_neg decays]
      rfl
    rw [aging, Option.map_id]
    rfl

def tickedTask (s : Scheduler) (p : Task) : Task :=
  { s.agedTask p with quantumUsed := p.quantumUsed + 1 }

structure Worked (s w : Scheduler) (c : Nat) (due : Bool) : Prop where
  runQueue : w.runQueue = s.runQueue
  current : w.current = some c
  lastPickedIdx : w.lastPickedIdx = s.lastPickedIdx
  kickFlag : w.kickFlag = false
  tickCount : w.tickCount = s.tickCount + 1
  others : ∀ slot ∈ s.runQueue, slot ≠ c → w.tasks[slot]? = s.tasks[slot]?.map s.agedTask
  own : ∀ p, s.tasks[c]? = some p → p.Runnable → ∃ q, w.tasks[c]? = some q ∧
    (s.tickedTask p).Charged q ∧
    (due = true → quantumFor (s.tickedTask p).effPrio ≤ (s.tickedTask p).quantumUsed)

theorem Runnable.ne_zombie {p : Task} (runnable : p.Runnable) : p.state ≠ .zombie := by
  intro zombie
  rcases runnable with ready | running
  · rw [zombie] at ready
    cases ready
  · rw [zombie] at running
    cases running

theorem Competing.tickWork (competing : s.Competing base) (now : UInt32) {c : Nat}
    (current : s.current = some c) (queued : c ∈ s.runQueue) :
    s.Worked (s.tickWork now).1 c (s.tickWork now).2 := by
  have aged := competing.tickStart now
  rw [Scheduler.tickWork]
  generalize s.tickStart now = a at aged
  have currentA : a.current = some c := aged.current.trans current
  have ticked : a.tickCurrent = a.modify c fun p =>
      if p.state = .zombie then p else { p with quantumUsed := p.quantumUsed + 1 } := by
    rw [Scheduler.tickCurrent, currentA]
  have currentT : a.tickCurrent.current = some c := by
    rw [ticked]
    exact currentA
  have charged : a.tickCurrent.tickCharge = a.tickCurrent.modify c fun p =>
      if p.state ≠ .zombie ∧ a.tickCurrent.currentCap ≤ p.quantumUsed
        then p.mlfqChargeQuantum a.tickCurrent.currentCap else p := by
    rw [Scheduler.tickCharge, currentT]
  have kick : a.tickCurrent.tickCharge.kickFlag = false := by
    rw [charged, ticked]
    exact aged.kickFlag.trans competing.notKicked
  have others : ∀ slot ∈ s.runQueue, slot ≠ c →
      a.tickCurrent.tickCharge.tasks[slot]? = s.tasks[slot]?.map s.agedTask := by
    intro slot member apart
    rw [charged, getElem?_modify_of_ne _ _ apart, ticked, getElem?_modify_of_ne _ _ apart]
    exact aged.tasks slot member
  have own : ∀ p, s.tasks[c]? = some p → p.Runnable →
      ∃ q, a.tickCurrent.tickCharge.tasks[c]? = some q ∧ (s.tickedTask p).Charged q ∧
        a.tickCurrent.currentCap = quantumFor (s.tickedTask p).effPrio := by
    intro p held runnable
    have awake : (s.agedTask p).state ≠ .zombie := Runnable.ne_zombie runnable
    have heldT : a.tickCurrent.tasks[c]? = some (s.tickedTask p) := by
      rw [ticked, getElem?_modify_self, aged.tasks c queued, held, Option.map_some, Option.map_some,
        if_neg awake]
      rfl
    have cap : a.tickCurrent.currentCap = quantumFor (s.tickedTask p).effPrio := by
      rw [currentCap, currentT, Option.bind_some, heldT]
    refine ⟨_, by rw [charged, getElem?_modify_self, heldT, Option.map_some], ?_, cap⟩
    split
    · exact Task.mlfqChargeQuantum_charged _ _
    · exact ⟨rfl, rfl, rfl, rfl, Or.inl rfl⟩
  have same : a.tickCurrent.tickCharge.runQueue = s.runQueue ∧
      a.tickCurrent.tickCharge.current = some c ∧
      a.tickCurrent.tickCharge.lastPickedIdx = s.lastPickedIdx ∧
      a.tickCurrent.tickCharge.tickCount = s.tickCount + 1 := by
    rw [charged, ticked]
    exact ⟨aged.runQueue, currentA, aged.lastPickedIdx, aged.tickCount⟩
  generalize a.tickCurrent.tickCharge = w at kick others own same
  generalize a.tickCurrent.currentCap = cap at own
  dsimp only
  have due : ∀ p, s.tasks[c]? = some p → p.Runnable →
      ∃ q, w.tasks[c]? = some q ∧ (s.tickedTask p).Charged q ∧
        ((w.kickFlag || w.usedUp cap) = true →
          quantumFor (s.tickedTask p).effPrio ≤ (s.tickedTask p).quantumUsed) := by
    intro p held runnable
    rcases own p held runnable with ⟨q, heldQ, isCharged, isCap⟩
    refine ⟨q, heldQ, isCharged, fun isDue => ?_⟩
    rw [kick, Bool.false_or, usedUp, same.2.1, Option.bind_some, heldQ] at isDue
    rw [← isCap, ← isCharged.quantumUsed]
    exact of_decide_eq_true isDue
  split
  · exact ⟨same.1, same.2.1, same.2.2.1, rfl, same.2.2.2, others, due⟩
  · exact ⟨same.1, same.2.1, same.2.2.1, kick, same.2.2.2, others, due⟩

/-! ## The choice -/

/-- An entry is looked at as the one with the given number, counted from the last one picked. -/
def At (s : Scheduler) (i slot : Nat) : Prop :=
  i < s.runQueue.length ∧ s.runQueue[(s.lastPickedIdx + 1 + i) % s.runQueue.length]? = some slot

theorem exists_at {slot : Nat} (member : slot ∈ s.runQueue) : ∃ i, s.At i slot := by
  rcases List.mem_iff_getElem?.mp member with ⟨idx, held⟩
  rcases List.getElem?_eq_some_iff.mp held with ⟨inside, -⟩
  have positive : 0 < s.runQueue.length := Nat.zero_lt_of_lt inside
  have wrapped : (s.lastPickedIdx + 1 + (idx + (s.runQueue.length -
      (s.lastPickedIdx + 1) % s.runQueue.length)) % s.runQueue.length) % s.runQueue.length = idx := by
    have round := Nat.mod_lt (s.lastPickedIdx + 1) positive
    rw [Nat.add_mod_mod, ← Nat.mod_add_mod]
    have sum : (s.lastPickedIdx + 1) % s.runQueue.length + (idx + (s.runQueue.length -
        (s.lastPickedIdx + 1) % s.runQueue.length)) = idx + s.runQueue.length := by omega
    rw [sum, Nat.add_mod_right, Nat.mod_eq_of_lt inside]
  refine ⟨_, Nat.mod_lt (idx + (s.runQueue.length - (s.lastPickedIdx + 1) % s.runQueue.length))
    positive, ?_⟩
  rw [wrapped]
  exact held

/-- What `pick_next` finds where somebody can run: an entry that can run, none has a smaller
effective priority, and none that is looked at before has the same one. -/
structure Picks (s : Scheduler) (i slot : Nat) : Prop where
  next : s.pickNext = some ((s.lastPickedIdx + 1 + i) % s.runQueue.length)
  here : s.At i slot
  runnable : ∃ p, s.tasks[slot]? = some p ∧ p.Runnable ∧
    ∀ j other q, s.At j other → s.tasks[other]? = some q → q.Runnable →
      p.effPrio ≤ q.effPrio ∧ (j < i → p.effPrio < q.effPrio)

theorem score_of_at {j other : Nat} {q : Task} (at' : s.At j other) (held : s.tasks[other]? = some q)
    (runnable : q.Runnable) :
    s.score ((s.lastPickedIdx + 1 + j) % s.runQueue.length) = some q.effPrio := by
  rw [score, entry, at'.2, Option.bind_some, held, Option.bind_some, if_pos runnable]

theorem pickNext_runnable {idx : Nat} (next : s.pickNext = some idx) :
    ∃ slot p, s.runQueue[idx]? = some slot ∧ s.tasks[slot]? = some p ∧ p.Runnable := by
  rcases FirstLeast.scan_spec s.score 0x7FFFFFFF s.scanOrder with ⟨nothing, _⟩ |
    ⟨x, value, found, _, isFirst⟩
  · rw [pickNext, nothing] at next
    cases next
  · rw [pickNext, found, Option.some_inj] at next
    have scored := isFirst.scored
    rw [next, score] at scored
    rcases Option.bind_eq_some_iff.mp scored with ⟨p, heldEntry, isScore⟩
    rcases Option.bind_eq_some_iff.mp heldEntry with ⟨slot, heldSlot, heldP⟩
    refine ⟨slot, p, heldSlot, heldP, ?_⟩
    by_contra stopped
    rw [if_neg stopped] at isScore
    cases isScore

theorem picks_of_runnable {j other : Nat} {q : Task} (at' : s.At j other)
    (held : s.tasks[other]? = some q) (runnable : q.Runnable) (below : q.effPrio < 0x7FFFFFFF) :
    ∃ i slot, s.Picks i slot := by
  have looked : ∀ {j other}, s.At j other →
      (s.lastPickedIdx + 1 + j) % s.runQueue.length ∈ s.scanOrder := fun at' =>
    List.mem_map.mpr ⟨_, List.mem_range.mpr at'.1, rfl⟩
  rcases FirstLeast.scan_isFirst (looked at') (score_of_at at' held runnable) below with
    ⟨idx, value, found, isFirst⟩
  rcases isFirst.first with ⟨before, behind, split, first⟩
  have place : s.scanOrder[before.length]? = some idx := by
    rw [split, List.getElem?_append_right (le_refl _), Nat.sub_self]
    rfl
  rw [scanOrder, List.getElem?_map] at place
  rcases Option.map_eq_some_iff.mp place with ⟨i, isPlace, rfl⟩
  rcases List.getElem?_eq_some_iff.mp isPlace with ⟨inside, same⟩
  rw [List.getElem_range] at same
  rw [List.length_range] at inside
  have scored := isFirst.scored
  rw [score] at scored
  rcases Option.bind_eq_some_iff.mp scored with ⟨p, heldEntry, isScore⟩
  rcases Option.bind_eq_some_iff.mp heldEntry with ⟨slot, heldSlot, heldP⟩
  by_cases canRun : p.Runnable
  · rw [if_pos canRun] at isScore
    cases isScore
    refine ⟨i, slot, ?_, ⟨same ▸ inside, heldSlot⟩, p, heldP, canRun, ?_⟩
    · rw [pickNext, found]
    · intro k third r atThird heldThird runs
      refine ⟨isFirst.least _ (looked atThird) _ (score_of_at atThird heldThird runs), fun earlier => ?_⟩
      refine first _ ?_ _ (score_of_at atThird heldThird runs)
      have positionK : s.scanOrder[k]? =
          some ((s.lastPickedIdx + 1 + k) % s.runQueue.length) := by
        rw [scanOrder, List.getElem?_map, List.getElem?_range atThird.1]
        rfl
      rw [split, List.getElem?_append_left (by omega)] at positionK
      exact List.mem_of_getElem? positionK
  · rw [if_neg canRun] at isScore
    cases isScore

/-! ## A tick -/

/-- What a tick does to the processes of the run queue.  Only the boost of the process that had the
processor may change beside the halving, and it does not become smaller. -/
structure Ticks (s s' : Scheduler) (c : Nat) : Prop where
  runQueue : s'.runQueue = s.runQueue
  kickFlag : s'.kickFlag = false
  tickCount : s'.tickCount = s.tickCount + 1
  tasks : ∀ slot ∈ s.runQueue, ∀ p, s.tasks[slot]? = some p → ∃ q, s'.tasks[slot]? = some q ∧
    q.priority = p.priority ∧ (q.Runnable ↔ p.Runnable) ∧ q.sleepUntil = p.sleepUntil ∧
    (slot ≠ c → q.dynBoost = s.aged p.dynBoost) ∧
    (p.Runnable → mlfqBoostMin ≤ p.dynBoost → p.dynBoost ≤ mlfqBoostMax →
      s.aged p.dynBoost ≤ q.dynBoost ∧ q.dynBoost ≤ mlfqBoostMax)

theorem aged_bounds {boost : Int} (above : mlfqBoostMin ≤ boost) (below : boost ≤ mlfqBoostMax) :
    mlfqBoostMin ≤ s.aged boost ∧ s.aged boost ≤ mlfqBoostMax := by
  rw [aged]
  split
  · exact Task.halve_bounds above below
  · exact ⟨above, below⟩

variable {w : Scheduler} {c : Nat} {due : Bool}

theorem Worked.ticks (worked : s.Worked w c due) (contends : s.Contends c) : s.Ticks w c := by
  refine ⟨worked.runQueue, worked.kickFlag, worked.tickCount, fun slot member p held => ?_⟩
  by_cases own : slot = c
  · subst own
    rcases contends.2 with ⟨p', held', runnable⟩
    rw [held, Option.some_inj] at held'
    subst held'
    rcases worked.own p held runnable with ⟨q, heldQ, charged, -⟩
    refine ⟨q, heldQ, charged.priority, ?_, charged.sleepUntil, fun apart => absurd rfl apart,
      fun _ above below => ?_⟩
    · rw [Task.Runnable, Task.Runnable, charged.state]
      exact Iff.rfl
    · have bounds : mlfqBoostMin ≤ s.aged p.dynBoost ∧ s.aged p.dynBoost ≤ mlfqBoostMax :=
        aged_bounds above below
      have boost : q.dynBoost = s.aged p.dynBoost ∨
          q.dynBoost = s.aged p.dynBoost + 1 ∧ q.dynBoost ≤ mlfqBoostMax := charged.boost
      rcases boost with same | ⟨more, limit⟩
      · exact ⟨same.ge, same.trans_le bounds.2⟩
      · exact ⟨by omega, limit⟩
  · have other := worked.others slot member own
    rw [held, Option.map_some] at other
    exact ⟨s.agedTask p, other, rfl, Iff.rfl, rfl, fun _ => rfl,
      fun _ above below => ⟨le_refl _, (aged_bounds above below).2⟩⟩

/-- What `schedule` does where it picks the process that has the processor. -/
theorem schedule_same {i : Nat} (picks : w.Picks i c) (current : w.current = some c) :
    w.schedule = w.modify c fun p => { p with quantumUsed := 0 } := by
  rw [schedule, picks.next]
  dsimp only
  rw [picks.here.2]
  dsimp only
  rw [if_pos current]

theorem schedule_other {i slot : Nat} (picks : w.Picks i slot) (current : w.current = some c)
    (apart : slot ≠ c) :
    w.schedule =
      { (w.release c).modify slot fun p => { p with state := .running, quantumUsed := 0 } with
        current := some slot
        lastPickedIdx := (w.lastPickedIdx + 1 + i) % w.runQueue.length } := by
  have other : w.current ≠ some slot := fun same =>
    apart (Option.some_inj.mp (same.symm.trans current))
  rw [schedule, picks.next]
  dsimp only
  rw [picks.here.2]
  dsimp only
  rw [if_neg other, current]

theorem Ticks.modify {s' : Scheduler} (ticks : s.Ticks s' c) (slot : Nat) (change : Task → Task)
    (keeps : ∀ p, s'.tasks[slot]? = some p → (change p).priority = p.priority ∧
      ((change p).Runnable ↔ p.Runnable) ∧ (change p).sleepUntil = p.sleepUntil ∧
      (change p).dynBoost = p.dynBoost) : s.Ticks (s'.modify slot change) c := by
  refine ⟨ticks.runQueue, ticks.kickFlag, ticks.tickCount, fun other member p held => ?_⟩
  rcases ticks.tasks other member p held with ⟨q, heldQ, priority, runnable, sleep, aged, bounds⟩
  by_cases here : other = slot
  · subst here
    have kept := keeps q heldQ
    refine ⟨change q, by rw [getElem?_modify_self, heldQ, Option.map_some],
      kept.1.trans priority, kept.2.1.trans runnable, kept.2.2.1.trans sleep, fun apart => ?_,
      fun runs above below => ?_⟩
    · rw [kept.2.2.2]
      exact aged apart
    · rw [kept.2.2.2]
      exact bounds runs above below
  · exact ⟨q, by rw [getElem?_modify_of_ne _ _ here, heldQ], priority, runnable, sleep, aged, bounds⟩

/-- Taking the processor away from a process that has used up its quantum. -/
theorem Worked.release (worked : s.Worked w c true) (contends : s.Contends c) :
    s.Ticks (w.release c) c := by
  have ticks := worked.ticks contends
  refine ⟨ticks.runQueue, ticks.kickFlag, ticks.tickCount, fun slot member p held => ?_⟩
  by_cases own : slot = c
  · subst own
    rcases contends.2 with ⟨p', held', runnable⟩
    rw [held, Option.some_inj] at held'
    subst held'
    rcases worked.own p held runnable with ⟨q, heldQ, charged, full⟩
    have runs : q.Runnable := by
      rw [Task.Runnable, charged.state]
      exact runnable
    have credited := fun above => Task.mlfqCreditRelease_boost q q.quantumUsed
      (quantumFor q.effPrio) above
    refine ⟨_, by rw [Scheduler.release, getElem?_modify_self, heldQ, Option.map_some], ?_⟩
    have kept : (q.mlfqCreditRelease q.quantumUsed (quantumFor q.effPrio)).priority = q.priority ∧
        (q.mlfqCreditRelease q.quantumUsed (quantumFor q.effPrio)).state = q.state ∧
        (q.mlfqCreditRelease q.quantumUsed (quantumFor q.effPrio)).sleepUntil = q.sleepUntil := by
      rw [Task.mlfqCreditRelease]
      split
      · exact ⟨rfl, rfl, rfl⟩
      · split
        · exact ⟨rfl, rfl, rfl⟩
        · exact ⟨rfl, rfl, rfl⟩
    have boosts : mlfqBoostMin ≤ p.dynBoost → p.dynBoost ≤ mlfqBoostMax →
        s.aged p.dynBoost ≤
          (q.mlfqCreditRelease q.quantumUsed (quantumFor q.effPrio)).dynBoost ∧
        (q.mlfqCreditRelease q.quantumUsed (quantumFor q.effPrio)).dynBoost ≤ mlfqBoostMax := by
      intro above below
      have bounds : mlfqBoostMin ≤ s.aged p.dynBoost ∧ s.aged p.dynBoost ≤ mlfqBoostMax :=
        aged_bounds above below
      have boost : q.dynBoost = s.aged p.dynBoost ∨
          q.dynBoost = s.aged p.dynBoost + 1 ∧ q.dynBoost ≤ mlfqBoostMax := charged.boost
      have aboveQ : mlfqBoostMin ≤ q.dynBoost := by omega
      refine ⟨charged.credit (full rfl) bounds.1, (credited aboveQ).2.1.trans ?_⟩
      rcases boost with same | more
      · exact same.trans_le bounds.2
      · exact more.2
    generalize q.mlfqCreditRelease q.quantumUsed (quantumFor q.effPrio) = r at kept boosts
    have state : r.Runnable := by
      rw [Task.Runnable, kept.2.1]
      exact runs
    dsimp only
    split
    · exact ⟨kept.1.trans charged.priority, iff_of_true (Or.inl rfl) runnable,
        kept.2.2.trans charged.sleepUntil, fun apart => absurd rfl apart, fun _ => boosts⟩
    · exact ⟨kept.1.trans charged.priority, iff_of_true state runnable,
        kept.2.2.trans charged.sleepUntil, fun apart => absurd rfl apart, fun _ => boosts⟩
  · rcases ticks.tasks slot member p held with ⟨q, heldQ, rest⟩
    exact ⟨q, by rw [Scheduler.release, getElem?_modify_of_ne _ _ own, heldQ], rest⟩

/-- What happens at a tick: nobody gets a turn and the processor stays where it is, or the process
that `pick_next` finds gets a turn. -/
structure TickOutcome (s s' : Scheduler) (turn : Option Nat) (c : Nat) : Prop where
  ticks : s.Ticks s' c
  stays : turn = none → s'.current = some c ∧ s'.lastPickedIdx = s.lastPickedIdx
  picked : ∀ slot, turn = some slot → ∃ w i, s.Ticks w c ∧ w.lastPickedIdx = s.lastPickedIdx ∧
    w.Picks i slot ∧ s'.current = some slot ∧
    s'.lastPickedIdx % s.runQueue.length = (s.lastPickedIdx + 1 + i) % s.runQueue.length ∧
    s.runQueue[s'.lastPickedIdx]? = some slot

theorem Competing.tick (competing : s.Competing base) (now : UInt32) {c : Nat}
    (current : s.current = some c) :
    s.TickOutcome (s.step (.tick now)) (s.turn (.tick now)) c := by
  rcases competing.running with ⟨c', current', last, contends⟩
  rw [current, Option.some_inj] at current'
  subst current'
  have worked := competing.tickWork now current contends.1
  have ticks := worked.ticks contends
  rw [step, schedulerTick, turn]
  generalize s.tickWork now = work at worked ticks
  rcases work with ⟨w, due⟩
  dsimp only at worked ticks ⊢
  cases due with
  | false => exact ⟨ticks, fun _ => ⟨worked.current, worked.lastPickedIdx⟩,
      fun _ impossible => by cases impossible⟩
  | true =>
      rcases contends with ⟨member, p, held, runnable⟩
      rcases ticks.tasks c member p held with ⟨q, heldQ, priority, runs, -⟩
      have base' : p.priority < prioIdle := by
        rcases competing.entries c member with ⟨r, heldR, contends | rests⟩
        · rw [held, Option.some_inj] at heldR
          rw [heldR, contends.2.1]
          exact competing.notIdle
        · rw [held, Option.some_inj] at heldR
          exact absurd (heldR ▸ runnable) rests.1
      have inside : c ∈ w.runQueue := by rw [worked.runQueue]; exact member
      rcases exists_at inside with ⟨j, atC⟩
      rcases picks_of_runnable atC heldQ (runs.mpr runnable) (Task.effPrio_lt (priority ▸ base'))
        with ⟨i, slot, picks⟩
      have chosen : w.picked = some slot := by
        rw [picked, picks.next]
        exact picks.here.2
      have place := picks.here.2
      simp only [if_true, chosen]
      rw [worked.runQueue, worked.lastPickedIdx] at place
      by_cases same : slot = c
      · subst same
        have result := schedule_same picks worked.current
        refine ⟨?_, fun impossible => (by cases impossible), ?_⟩
        · rw [result]
          exact ticks.modify slot _ fun _ _ => ⟨rfl, Iff.rfl, rfl, rfl⟩
        · rintro _ ⟨⟩
          refine ⟨w, i, ticks, worked.lastPickedIdx, picks, ?_, ?_, ?_⟩
          · rw [result]
            exact worked.current
          · rw [result]
            have inside := (List.getElem?_eq_some_iff.mp last).1
            have insideI := (List.getElem?_eq_some_iff.mp place).1
            have index := (List.nodup_iff_injective_get.mp competing.distinct)
            have equal : (⟨s.lastPickedIdx, inside⟩ : Fin s.runQueue.length) =
                ⟨(s.lastPickedIdx + 1 + i) % s.runQueue.length, insideI⟩ := by
              refine index ?_
              rw [List.get_eq_getElem, List.get_eq_getElem]
              exact (List.getElem?_eq_some_iff.mp last).2.trans
                (List.getElem?_eq_some_iff.mp place).2.symm
            have indices := congrArg Fin.val equal
            dsimp only at indices
            show w.lastPickedIdx % s.runQueue.length = _
            rw [worked.lastPickedIdx, Nat.mod_eq_of_lt inside]
            exact indices
          · rw [result]
            show s.runQueue[w.lastPickedIdx]? = some slot
            rw [worked.lastPickedIdx]
            exact last
      · have result := schedule_other picks worked.current same
        have released := worked.release ⟨member, p, held, runnable⟩
        refine ⟨?_, fun impossible => (by cases impossible), ?_⟩
        · rw [result]
          rcases picks.runnable with ⟨r, heldR, runsR, -⟩
          have changed := released.modify slot
            (fun p => { p with state := .running, quantumUsed := 0 }) fun r' heldR' => by
              rw [Scheduler.release, getElem?_modify_of_ne _ _ same, heldR, Option.some_inj] at heldR'
              exact ⟨rfl, iff_of_true (Or.inr rfl) (heldR' ▸ runsR), rfl, rfl⟩
          exact ⟨changed.runQueue, changed.kickFlag, changed.tickCount, changed.tasks⟩
        · rintro _ ⟨⟩
          refine ⟨w, i, ticks, worked.lastPickedIdx, picks, ?_, ?_, ?_⟩
          · rw [result]
          · rw [result]
            show ((w.lastPickedIdx + 1 + i) % w.runQueue.length) % s.runQueue.length = _
            rw [worked.runQueue, worked.lastPickedIdx, Nat.mod_mod]
          · rw [result]
            show s.runQueue[(w.lastPickedIdx + 1 + i) % w.runQueue.length]? = some slot
            rw [worked.runQueue, worked.lastPickedIdx]
            exact place

theorem Ticks.runnable_iff {s' : Scheduler} (ticks : s.Ticks s' c) (competing : s.Competing base)
    {slot : Nat} (member : slot ∈ s.runQueue) {q : Task} (held : s'.tasks[slot]? = some q) :
    ∃ p, s.tasks[slot]? = some p ∧ (q.Runnable ↔ p.Runnable) := by
  rcases competing.entries slot member with ⟨p, heldP, -⟩
  rcases ticks.tasks slot member p heldP with ⟨q', heldQ, -, runs, -⟩
  rw [held, Option.some_inj] at heldQ
  exact ⟨p, heldP, heldQ ▸ runs⟩

theorem Ticks.contends {s' : Scheduler} (ticks : s.Ticks s' c) {slot : Nat}
    (contends : s.Contends slot) : s'.Contends slot := by
  rcases contends with ⟨member, p, held, runnable⟩
  rcases ticks.tasks slot member p held with ⟨q, heldQ, -, runs, -⟩
  exact ⟨by rw [ticks.runQueue]; exact member, q, heldQ, runs.mpr runnable⟩

theorem Picks.contends {i slot : Nat} (picks : w.Picks i slot) (ticks : s.Ticks w c)
    (competing : s.Competing base) : s.Contends slot := by
  have member : slot ∈ s.runQueue := by
    rw [← ticks.runQueue]
    exact List.mem_of_getElem? picks.here.2
  rcases picks.runnable with ⟨q, held, runs, -⟩
  rcases ticks.runnable_iff competing member held with ⟨p, heldP, same⟩
  exact ⟨member, p, heldP, same.mp runs⟩

theorem Competing.next (competing : s.Competing base) (now : UInt32) :
    (s.step (.tick now)).Competing base := by
  rcases competing.running with ⟨c, current, last, contends⟩
  have outcome := competing.tick now current
  generalize s.step (.tick now) = s' at outcome
  generalize s.turn (.tick now) = turn at outcome
  have ticks := outcome.ticks
  refine ⟨?_, fun slot member => ?_, ?_, competing.notIdle, ticks.kickFlag⟩
  · rw [ticks.runQueue]
    exact competing.distinct
  · rw [ticks.runQueue] at member
    rcases competing.entries slot member with ⟨p, held, contending | rests⟩
    · rcases contending with ⟨runnable, priority, above, below⟩
      rcases ticks.tasks slot member p held with ⟨q, heldQ, same, runs, -, -, bounds⟩
      have limits := bounds runnable above below
      exact ⟨q, heldQ, Or.inl ⟨runs.mpr runnable, same.trans priority,
        (aged_bounds above below).1.trans limits.1, limits.2⟩⟩
    · rcases ticks.tasks slot member p held with ⟨q, heldQ, -, runs, sleep, -⟩
      exact ⟨q, heldQ, Or.inr ⟨fun runnable => rests.1 (runs.mp runnable), sleep.trans rests.2⟩⟩
  · cases turn with
    | none =>
        have stays := outcome.stays rfl
        refine ⟨c, stays.1, ?_, ticks.contends contends⟩
        rw [ticks.runQueue, stays.2]
        exact last
    | some slot =>
        rcases outcome.picked slot rfl with ⟨w, i, ticksW, -, picks, isCurrent, -, place⟩
        refine ⟨slot, isCurrent, ?_, ticks.contends (picks.contends ticksW competing)⟩
        rw [ticks.runQueue]
        exact place

/-! ## Waiting -/

/-- A process waits: its boost is at most a limit above zero, and no boost is more than the limit
below zero. -/
structure Waits (s : Scheduler) (base : Int) (slot limit : Nat) : Prop where
  competing : s.Competing base
  contends : s.Contends slot
  notCurrent : s.current ≠ some slot
  below : ∀ p, s.tasks[slot]? = some p → p.dynBoost ≤ limit
  above : ∀ other ∈ s.runQueue, ∀ p, s.tasks[other]? = some p → p.Runnable →
    -(limit : Int) ≤ p.dynBoost

def nextLimit (s : Scheduler) (limit : Nat) : Nat :=
  if (s.tickCount + 1).toNat % mlfqDecayTicks = 0 then limit / 2 else limit

theorem aged_le {boost : Int} {limit : Nat} (below : boost ≤ limit) :
    s.aged boost ≤ s.nextLimit limit := by
  rw [aged, nextLimit]
  split
  · exact Task.halve_le below
  · exact below

theorem le_aged {boost : Int} {limit : Nat} (above : -(limit : Int) ≤ boost) :
    -(s.nextLimit limit : Int) ≤ s.aged boost := by
  rw [aged, nextLimit]
  split
  · exact Task.le_halve above
  · exact above

variable {slot limit : Nat}

/-- The bounds after a tick, for the process that waits and for the others. -/
theorem Waits.bounds (waits : s.Waits base slot limit) {s' : Scheduler} (ticks : s.Ticks s' c)
    (apart : slot ≠ c) :
    (∀ q, s'.tasks[slot]? = some q → q.dynBoost ≤ s.nextLimit limit) ∧
      ∀ other ∈ s.runQueue, ∀ q, s'.tasks[other]? = some q → q.Runnable →
        -(s.nextLimit limit : Int) ≤ q.dynBoost := by
  constructor
  · intro q held
    rcases waits.contends with ⟨member, p, heldP, -⟩
    rcases ticks.tasks slot member p heldP with ⟨q', heldQ, -, -, -, aged, -⟩
    rw [held, Option.some_inj] at heldQ
    rw [heldQ, aged apart]
    exact aged_le (waits.below p heldP)
  · intro other member q held runs
    rcases waits.competing.entries other member with ⟨p, heldP, contending | rests⟩
    · rcases ticks.tasks other member p heldP with ⟨q', heldQ, -, -, -, -, bounds⟩
      rw [held, Option.some_inj] at heldQ
      rw [heldQ]
      exact (le_aged (waits.above other member p heldP contending.1)).trans
        (bounds contending.1 contending.2.2.1 contending.2.2.2).1
    · rcases ticks.runnable_iff waits.competing member held with ⟨p', heldP', same⟩
      rw [heldP, Option.some_inj] at heldP'
      exact absurd (same.mp runs) (heldP' ▸ rests.1)

theorem Waits.next (waits : s.Waits base slot limit) (now : UInt32)
    (noTurn : s.turn (.tick now) ≠ some slot) :
    (s.step (.tick now)).Waits base slot (s.nextLimit limit) := by
  rcases waits.competing.running with ⟨c, current, -, -⟩
  have apart : slot ≠ c := fun same => waits.notCurrent (by rw [current, same])
  have outcome := waits.competing.tick now current
  have competing := waits.competing.next now
  have bounds := waits.bounds outcome.ticks apart
  refine ⟨competing, outcome.ticks.contends waits.contends, ?_, bounds.1, ?_⟩
  · cases turns : s.turn (.tick now) with
    | none =>
        rw [(outcome.stays turns).1]
        exact fun same => apart (Option.some_inj.mp same).symm
    | some picked =>
        rcases outcome.picked picked turns with ⟨-, -, -, -, -, isCurrent, -⟩
        rw [isCurrent]
        exact fun same => noTurn (by rw [turns, same])
  · rw [outcome.ticks.runQueue]
    exact bounds.2

/-- While no boost is smaller than that of a process that waits, every turn brings it closer. -/
theorem Waits.closer (waits : s.Waits base slot 0) {i : Nat} (here : s.At i slot) (now : UInt32)
    {picked : Nat} (turn : s.turn (.tick now) = some picked) (other : picked ≠ slot) :
    ∃ j < i, (s.step (.tick now)).At j slot := by
  rcases waits.competing.running with ⟨c, current, -, -⟩
  have apart : slot ≠ c := fun same => waits.notCurrent (by rw [current, same])
  have outcome := waits.competing.tick now current
  rcases outcome.picked picked turn with ⟨w, k, ticks, sameLast, picks, -, last, -⟩
  have none : s.nextLimit 0 = 0 := by
    rw [nextLimit]
    split
    · rfl
    · rfl
  have bounds := waits.bounds ticks apart
  rw [none] at bounds
  rcases waits.contends with ⟨member, p, held, runnable⟩
  rcases ticks.tasks slot member p held with ⟨q, heldQ, priorityQ, runs, -⟩
  rcases picks.runnable with ⟨r, heldR, runsR, best⟩
  have hereW : w.At i slot := by
    rw [At, ticks.runQueue, sameLast]
    exact here
  have memberPicked : picked ∈ s.runQueue := by
    rw [← ticks.runQueue]
    exact List.mem_of_getElem? picks.here.2
  have basePriority : ∀ other ∈ s.runQueue, ∀ t, w.tasks[other]? = some t → t.Runnable →
      t.priority = base := by
    intro other memberOther t heldT runsT
    rcases waits.competing.entries other memberOther with ⟨t', heldT', contending | rests⟩
    · rcases ticks.tasks other memberOther t' heldT' with ⟨t'', heldT'', same, -⟩
      rw [heldT, Option.some_inj] at heldT''
      rw [heldT'', same]
      exact contending.2.1
    · rcases ticks.runnable_iff waits.competing memberOther heldT with ⟨t'', heldT'', same⟩
      rw [heldT', Option.some_inj] at heldT''
      exact absurd (same.mp runsT) (heldT'' ▸ rests.1)
  have notBetter : q.effPrio ≤ r.effPrio := by
    have baseQ := basePriority slot member q heldQ (runs.mpr runnable)
    have baseR := basePriority picked memberPicked r heldR runsR
    refine Task.effPrio_le (baseQ ▸ waits.competing.notIdle) (baseQ.trans baseR.symm) ?_
    have low := bounds.1 q heldQ
    have high := bounds.2 picked memberPicked r heldR runsR
    omega
  have before : k < i := by
    rcases Nat.lt_trichotomy k i with earlier | same | later
    · exact earlier
    · subst same
      have both := picks.here.2.symm.trans hereW.2
      exact absurd (Option.some_inj.mp both) other
    · have worse := (best i slot q hereW heldQ (runs.mpr runnable)).2 later
      exact absurd worse (not_lt.mpr notBetter)
  refine ⟨i - k - 1, by omega, ?_⟩
  rw [At, outcome.ticks.runQueue]
  refine ⟨by have := here.1; omega, ?_⟩
  have position : ((s.step (.tick now)).lastPickedIdx + 1 + (i - k - 1)) % s.runQueue.length =
      (s.lastPickedIdx + 1 + i) % s.runQueue.length := by
    calc ((s.step (.tick now)).lastPickedIdx + 1 + (i - k - 1)) % s.runQueue.length
        = ((s.step (.tick now)).lastPickedIdx % s.runQueue.length + (i - k)) %
            s.runQueue.length := by
          rw [Nat.mod_add_mod]
          congr 1
          omega
      _ = (s.lastPickedIdx + 1 + k + (i - k)) % s.runQueue.length := by
          rw [last, Nat.mod_add_mod]
      _ = (s.lastPickedIdx + 1 + i) % s.runQueue.length := by
          congr 1
          omega
  rw [position]
  exact here.2

/-! ## Counting turns -/

/-- The event is a tick: nobody gives up the processor before the end of the quantum. -/
def Event.IsTick : Event → Prop
  | .tick _ => True
  | .yield => False

theorem Event.IsTick.eq {event : Event} (isTick : event.IsTick) : ∃ now, event = .tick now := by
  cases event with
  | tick now => exact ⟨now, rfl⟩
  | yield => exact isTick.elim

/-- A tick, and the turns of the rest of a run in which a process gets none. -/
theorem turns_cons {event : Event} {rest : List Event}
    (noTurn : slot ∉ s.turns (event :: rest)) :
    s.turn event ≠ some slot ∧ slot ∉ (s.step event).turns rest := by
  rw [turns, List.mem_append, not_or, Option.mem_toList] at noTurn
  exact ⟨fun same => noTurn.1 same, noTurn.2⟩

theorem turns_length_cons (s : Scheduler) (event : Event) (rest : List Event) :
    (s.turns (event :: rest)).length =
      (s.turn event).toList.length + ((s.step event).turns rest).length := by
  rw [turns, List.length_append]

theorem turn_length_le (s : Scheduler) (event : Event) : (s.turn event).toList.length ≤ 1 := by
  cases s.turn event with
  | none => exact Nat.zero_le 1
  | some picked => exact le_refl 1

/-- When no boost is smaller, the turn comes in the order of the run queue. -/
theorem Waits.turns_le {i : Nat} (waits : s.Waits base slot 0) (here : s.At i slot)
    (events : List Event) (ticks : ∀ event ∈ events, event.IsTick)
    (noTurn : slot ∉ s.turns events) : (s.turns events).length ≤ i := by
  induction events generalizing s i with
  | nil => exact Nat.zero_le i
  | cons event rest known =>
      rcases (ticks event List.mem_cons_self).eq with ⟨now, rfl⟩
      have later := fun event member => ticks event (List.mem_cons_of_mem _ member)
      have noTurns := turns_cons noTurn
      have next := waits.next now noTurns.1
      have none : s.nextLimit 0 = 0 := by
        rw [nextLimit]
        split
        · rfl
        · rfl
      rw [none] at next
      rw [turns_length_cons]
      cases turns : s.turn (.tick now) with
      | none =>
          rcases waits.competing.running with ⟨c, current, -, -⟩
          have outcome := waits.competing.tick now current
          have stays := (outcome.stays turns).2
          have hereNext : (s.step (.tick now)).At i slot := by
            rw [At, outcome.ticks.runQueue, stays]
            exact here
          have rest' := known next hereNext later noTurns.2
          rw [Option.toList_none, List.length_nil, Nat.zero_add]
          exact rest'
      | some picked =>
          have other : picked ≠ slot := fun same => noTurns.1 (by rw [turns, same])
          rcases waits.closer here now turns other with ⟨j, closer, hereNext⟩
          have rest' := known next hereNext later noTurns.2
          rw [Option.toList_some, List.length_singleton]
          omega

/-- The ticks until the boosts are halved the next time: also when the counter starts again. -/
def untilDecay (s : Scheduler) : Nat :=
  min (mlfqDecayTicks - s.tickCount.toNat % mlfqDecayTicks) (2 ^ 32 - s.tickCount.toNat)

theorem untilDecay_le (s : Scheduler) : s.untilDecay ≤ 500 :=
  (min_le_left _ _).trans (Nat.sub_le _ _)

/-- A tick that does not halve the boosts brings the next one that does closer. -/
theorem untilDecay_step {s' : Scheduler} (counted : s'.tickCount = s.tickCount + 1)
    (keeps : ¬(s.tickCount + 1).toNat % mlfqDecayTicks = 0) :
    s'.untilDecay + 1 ≤ s.untilDecay := by
  have bound := s.tickCount.toNat_lt
  have sum : (s.tickCount + 1).toNat = (s.tickCount.toNat + 1) % 2 ^ 32 := UInt32.toNat_add _ _
  rw [sum] at keeps
  by_cases wraps : s.tickCount.toNat + 1 = 2 ^ 32
  · rw [wraps] at keeps
    exact absurd (by decide) keeps
  · have small : (s.tickCount.toNat + 1) % 2 ^ 32 = s.tickCount.toNat + 1 :=
      Nat.mod_eq_of_lt (by omega)
    rw [small] at sum keeps
    rw [untilDecay, untilDecay, counted, sum]
    simp only [mlfqDecayTicks] at *
    omega

theorem untilDecay_pos (s : Scheduler) : 1 ≤ s.untilDecay := by
  have bound := s.tickCount.toNat_lt
  rw [untilDecay, mlfqDecayTicks]
  omega

/-- Until the boosts are halved there is at most one turn for each tick. -/
theorem Waits.turns_le_decay {most : Nat} (waits : s.Waits base slot limit)
    (behind : ∀ s' : Scheduler, s'.runQueue.length = s.runQueue.length →
      s'.Waits base slot (limit / 2) → ∀ events : List Event, (∀ event ∈ events, event.IsTick) →
        slot ∉ s'.turns events → (s'.turns events).length ≤ most)
    (events : List Event) (ticks : ∀ event ∈ events, event.IsTick)
    (noTurn : slot ∉ s.turns events) : (s.turns events).length ≤ s.untilDecay + most := by
  induction events generalizing s with
  | nil => exact Nat.zero_le _
  | cons event rest known =>
      rcases (ticks event List.mem_cons_self).eq with ⟨now, rfl⟩
      have later := fun event member => ticks event (List.mem_cons_of_mem _ member)
      have noTurns := turns_cons noTurn
      have next := waits.next now noTurns.1
      rcases waits.competing.running with ⟨c, current, -, -⟩
      have outcome := waits.competing.tick now current
      have length := congrArg List.length outcome.ticks.runQueue
      have one := s.turn_length_le (.tick now)
      rw [turns_length_cons]
      by_cases decays : (s.tickCount + 1).toNat % mlfqDecayTicks = 0
      · rw [nextLimit, if_pos decays] at next
        have rest' := behind _ length next rest later noTurns.2
        have some := s.untilDecay_pos
        omega
      · rw [nextLimit, if_neg decays] at next
        have closer := untilDecay_step outcome.ticks.tickCount decays
        have rest' := known next (fun s' same => behind s' (same.trans length)) later noTurns.2
        omega

/-- A process that waits gets a turn when the boosts were halved three times and the others of the
run queue had theirs. -/
theorem Waits.turns_le_bound (waits : s.Waits base slot 4) (events : List Event)
    (ticks : ∀ event ∈ events, event.IsTick) (noTurn : slot ∉ s.turns events) :
    (s.turns events).length ≤ 1500 + s.runQueue.length := by
  have last : ∀ s' : Scheduler, s'.runQueue.length = s.runQueue.length →
      s'.Waits base slot 0 → ∀ events : List Event, (∀ event ∈ events, event.IsTick) →
        slot ∉ s'.turns events → (s'.turns events).length ≤ s.runQueue.length := by
    intro s' same waits' events' ticks' noTurn'
    rcases exists_at waits'.contends.1 with ⟨i, here⟩
    exact (waits'.turns_le here events' ticks' noTurn').trans (same ▸ here.1.le)
  have third : ∀ s' : Scheduler, s'.runQueue.length = s.runQueue.length →
      s'.Waits base slot 1 → ∀ events : List Event, (∀ event ∈ events, event.IsTick) →
        slot ∉ s'.turns events → (s'.turns events).length ≤ 500 + s.runQueue.length := by
    intro s' same waits' events' ticks' noTurn'
    have turns' := waits'.turns_le_decay (fun s'' same' => last s'' (same'.trans same)) events'
      ticks' noTurn'
    have most := s'.untilDecay_le
    omega
  have second : ∀ s' : Scheduler, s'.runQueue.length = s.runQueue.length →
      s'.Waits base slot 2 → ∀ events : List Event, (∀ event ∈ events, event.IsTick) →
        slot ∉ s'.turns events → (s'.turns events).length ≤ 1000 + s.runQueue.length := by
    intro s' same waits' events' ticks' noTurn'
    have turns' := waits'.turns_le_decay (fun s'' same' => third s'' (same'.trans same)) events'
      ticks' noTurn'
    have most := s'.untilDecay_le
    omega
  have first := waits.turns_le_decay second events ticks noTurn
  have most := s.untilDecay_le
  omega

theorem Competing.waits (competing : s.Competing base) (contends : s.Contends slot)
    (notCurrent : s.current ≠ some slot) : s.Waits base slot 4 := by
  refine ⟨competing, contends, notCurrent, fun p held => ?_, fun other member p held runs => ?_⟩
  · rcases contends with ⟨member, p', held', runnable⟩
    rw [held, Option.some_inj] at held'
    subst held'
    rcases competing.entries slot member with ⟨q, heldQ, contending | rests⟩
    · rw [held, Option.some_inj] at heldQ
      rw [heldQ]
      exact contending.2.2.2
    · rw [held, Option.some_inj] at heldQ
      exact absurd (heldQ ▸ runnable) rests.1
  · rcases competing.entries other member with ⟨q, heldQ, contending | rests⟩
    · rw [held, Option.some_inj] at heldQ
      rw [heldQ]
      exact contending.2.2.1
    · rw [held, Option.some_inj] at heldQ
      exact absurd (heldQ ▸ runs) rests.1

/-- A process that has the processor may keep it for a while before it waits. -/
theorem Competing.turns_le (competing : s.Competing base) (contends : s.Contends slot)
    (events : List Event) (ticks : ∀ event ∈ events, event.IsTick)
    (noTurn : slot ∉ s.turns events) :
    (s.turns events).length < 1502 + s.runQueue.length := by
  induction events generalizing s with
  | nil => exact Nat.zero_lt_of_lt (Nat.lt_add_right _ (by decide : 0 < 1502))
  | cons event rest known =>
      by_cases has : s.current = some slot
      · rcases (ticks event List.mem_cons_self).eq with ⟨now, rfl⟩
        have later := fun event member => ticks event (List.mem_cons_of_mem _ member)
        have noTurns := turns_cons noTurn
        have outcome := competing.tick now has
        have next := competing.next now
        have contendsNext := outcome.ticks.contends contends
        rw [turns_length_cons]
        cases turns : s.turn (.tick now) with
        | none =>
            have rest' := known next contendsNext later noTurns.2
            rw [outcome.ticks.runQueue] at rest'
            rw [Option.toList_none, List.length_nil, Nat.zero_add]
            exact rest'
        | some picked =>
            have other : picked ≠ slot := fun same => noTurns.1 (by rw [turns, same])
            rcases outcome.picked picked turns with ⟨-, -, -, -, -, isCurrent, -⟩
            have notCurrent : (s.step (.tick now)).current ≠ some slot := by
              rw [isCurrent]
              exact fun same => other (Option.some_inj.mp same)
            have waits := next.waits contendsNext notCurrent
            have rest' := waits.turns_le_bound rest later noTurns.2
            rw [outcome.ticks.runQueue] at rest'
            rw [Option.toList_some, List.length_singleton]
            omega
      · have waits := competing.waits contends has
        have all := waits.turns_le_bound (event :: rest) ticks noTurn
        omega

theorem Competing.run (competing : s.Competing base) (contends : s.Contends slot)
    (events : List Event) (ticks : ∀ event ∈ events, event.IsTick) :
    (s.run events).Competing base ∧ (s.run events).Contends slot ∧
      (s.run events).runQueue.length = s.runQueue.length := by
  induction events generalizing s with
  | nil => exact ⟨competing, contends, rfl⟩
  | cons event rest known =>
      rcases (ticks event List.mem_cons_self).eq with ⟨now, rfl⟩
      rcases competing.running with ⟨c, current, -, -⟩
      have outcome := competing.tick now current
      have later := known (competing.next now) (outcome.ticks.contends contends)
        fun event member => ticks event (List.mem_cons_of_mem _ member)
      exact ⟨later.1, later.2.1, later.2.2.trans (congrArg List.length outcome.ticks.runQueue)⟩

/-- Processes of one base priority that use up their quanta all get their turns. -/
theorem ticks_fair (s : Scheduler) (base : Int) (competing : s.Competing base)
    (events : List Event) (ticks : ∀ event ∈ events, event.IsTick) :
    s.Fair (1502 + s.runQueue.length) events := by
  intro before during behind whole slot contends noTurn
  have early := competing.run contends before fun event member =>
    ticks event (by rw [whole]; exact List.mem_append_left _ (List.mem_append_left _ member))
  have turns := early.1.turns_le early.2.1 during (fun event member =>
    ticks event (by rw [whole]; exact List.mem_append_left _ (List.mem_append_right _ member)))
    noTurn
  rw [early.2.2] at turns
  exact turns

/-- Processes as `process_create` and `scheduler_add` leave them, with the first one picked. -/
def newTasks (count : Nat) : Scheduler where
  tasks := (List.range count).map fun i => ⟨if i = 0 then .running else .ready, prioDefault, 0, 0, 0, 0⟩
  current := some 0
  runQueue := List.range count
  lastPickedIdx := 0
  tickCount := 0
  kickFlag := false

theorem newTasks_competing : (newTasks 3).Competing prioDefault := by
  have entries : ∀ slot ∈ (newTasks 3).runQueue, ∃ p, (newTasks 3).tasks[slot]? = some p ∧
      p.Runnable ∧ p.priority = prioDefault ∧ mlfqBoostMin ≤ p.dynBoost ∧
        p.dynBoost ≤ mlfqBoostMax := by
    intro slot member
    have inside : slot < 3 := List.mem_range.mp member
    interval_cases slot
    · exact ⟨_, rfl, by decide, rfl, by decide, by decide⟩
    · exact ⟨_, rfl, by decide, rfl, by decide, by decide⟩
    · exact ⟨_, rfl, by decide, rfl, by decide, by decide⟩
  refine ⟨by decide, fun slot member => ?_, ⟨0, rfl, rfl, by decide, _, rfl, by decide⟩, by decide,
    rfl⟩
  rcases entries slot member with ⟨p, held, contends⟩
  exact ⟨p, held, Or.inl contends⟩

theorem ticks_fair_three :
    (newTasks 3).Fair (1502 + (newTasks 3).runQueue.length) (List.replicate 100 (.tick 0)) := by
  refine ticks_fair (newTasks 3) prioDefault newTasks_competing _ fun event member => ?_
  rw [List.eq_of_mem_replicate member]
  trivial

def yields : Nat → List Event
  | 0 => []
  | n + 1 => .yield :: .yield :: yields n

/-- Where two yields come back to the state in which they were made, so do any number of them. -/
theorem turns_yields (period : (s.step .yield).step .yield = s) (n : Nat) :
    s.turns (yields n) =
      (List.replicate n ((s.turn .yield).toList ++ ((s.step .yield).turn .yield).toList)).flatten := by
  induction n with
  | zero => rfl
  | succ n known =>
      rw [yields, turns, turns, period, known, List.replicate_succ, List.flatten_cons,
        List.append_assoc]

/-- Of three processes that give up the processor at once, two take turns for ever. -/
theorem yields_unfair : ¬∃ bound, ∀ events, (newTasks 3).Fair bound events := by
  rintro ⟨bound, fair⟩
  have period : (((newTasks 3).run (yields 6)).step .yield).step .yield =
      (newTasks 3).run (yields 6) := by decide +kernel
  have pair : (((newTasks 3).run (yields 6)).turn .yield).toList ++
      ((((newTasks 3).run (yields 6)).step .yield).turn .yield).toList = [1, 0] := by
    decide +kernel
  have turns : ((newTasks 3).run (yields 6)).turns (yields bound) =
      (List.replicate bound [1, 0]).flatten := by
    rw [turns_yields period, pair]
  have contends : (newTasks 3).Contends 2 := ⟨by decide, _, rfl, by decide⟩
  have few := fair (yields 6 ++ yields bound ++ []) (yields 6) (yields bound) [] rfl 2 contends (by
    rw [turns, List.mem_flatten]
    rintro ⟨both, member, third⟩
    rw [List.eq_of_mem_replicate member] at third
    exact absurd third (by decide))
  rw [turns, List.length_flatten, List.map_replicate, List.sum_replicate] at few
  simp only [List.length_cons, List.length_nil, smul_eq_mul] at few
  omega

end Scheduler

end Trinux
