import Trinux.Process.Fairness

namespace Trinux

/-!
# Taking turns

`pick_next` begins behind the entry that was picked last, so entries of one effective priority come
in turn.  The place of the last one is kept up to date where `schedule` switches to another
process, and not where it picks the process that has the processor.
-/

namespace Scheduler

variable {s : Scheduler}

def Bounded (s : Scheduler) : Prop := ∀ p ∈ s.tasks, p.priority ≤ prioIdle

/-- The entries that can be picked, in the order in which `pick_next` looks at them. -/
def candidates (s : Scheduler) : List Nat := s.scanOrder.filter fun idx => (s.score idx).isSome

/-- `pick_next` finds nothing exactly if no entry can run, and else the first one of the least
effective priority. -/
structure PicksRight (s : Scheduler) : Prop where
  nothing : s.pickNext = none ↔ ∀ slot, ¬s.Contends slot
  best : ∀ idx, s.pickNext = some idx → ∃ i slot,
    idx = (s.lastPickedIdx + 1 + i) % s.runQueue.length ∧ s.Picks i slot

/-- The states in which `schedule` is called, one after the other.  Between the calls anything may
happen that keeps the queue, the current process and which entries can run, and effective
priorities of entries that can run are the same. -/
structure EqualRun (run : Nat → Scheduler) : Prop where
  distinct : (run 0).runQueue.Nodup
  bounded : ∀ k, (run k).Bounded
  queue : ∀ k, (run (k + 1)).runQueue = (run k).runQueue
  current : ∀ k, (run (k + 1)).current = (run k).schedule.current
  cursor : ∀ k, (run (k + 1)).lastPickedIdx = (run k).schedule.lastPickedIdx
  runnable : ∀ k idx, ((run (k + 1)).score idx).isSome = ((run k).score idx).isSome
  equal : ∀ k i j a b, (run k).score i = some a → (run k).score j = some b → a = b

/-- Every entry that can run is picked exactly once in as many calls as there are such entries. -/
def EachOnce (run : Nat → Scheduler) (start : Nat) : Prop :=
  ∀ idx ∈ (run 0).candidates,
    ∃! j, j < (run 0).candidates.length ∧ (run (start + j)).pickNext = some idx

/-- There are several entries that can run, and the first one behind the last one that was picked
is that of the current process. -/
def FirstIsCurrent (s : Scheduler) : Prop :=
  2 ≤ s.candidates.length ∧ s.candidates.head?.bind (s.runQueue[·]?) = s.current

/-! ## One call -/

theorem score_below (bounded : s.Bounded) {idx : Nat} {a : Int} (scored : s.score idx = some a) :
    a < 0x7FFFFFFF := by
  rw [score] at scored
  rcases Option.bind_eq_some_iff.mp scored with ⟨p, heldEntry, isScore⟩
  rcases Option.bind_eq_some_iff.mp heldEntry with ⟨slot, _, held⟩
  have limit := bounded p (List.mem_of_getElem? held)
  have least : p.effPrio ≤ prioIdle := by
    unfold Task.effPrio
    dsimp only
    simp only [prioIdle, prioMin, prioMax] at limit ⊢
    split_ifs <;> omega
  by_cases runs : p.Runnable
  · rw [if_pos runs, Option.some_inj] at isScore
    rw [← isScore]
    exact lt_of_le_of_lt least (by decide)
  · rw [if_neg runs] at isScore
    cases isScore

theorem pickNext_eq_head {run : Nat → Scheduler} (equal : EqualRun run) (k : Nat) :
    (run k).pickNext = (run k).candidates.head? :=
  FirstLeast.scan_same (fun i _ j _ => equal.equal k i j)
    fun _ _ _ scored => score_below (equal.bounded k) scored

/-- The entries that are looked at are all entries, turned round. -/
theorem scanOrder_eq (s : Scheduler) :
    s.scanOrder = (List.range s.runQueue.length).rotate (s.lastPickedIdx + 1) := by
  unfold scanOrder
  apply List.ext_getElem
  · rw [List.length_map, List.length_rotate]
  · intro i inside _
    rw [List.getElem_map, List.getElem_range, List.getElem_rotate, List.getElem_range,
      List.length_range, Nat.add_comm i]

theorem candidates_nodup (s : Scheduler) : s.candidates.Nodup := by
  unfold candidates
  rw [scanOrder_eq]
  exact List.Nodup.filter _ (List.nodup_rotate.mpr List.nodup_range)

/-- Another place of the last one that was picked turns the entries further. -/
theorem scanOrder_rotate {s' : Scheduler} (queue : s'.runQueue = s.runQueue) {i : Nat}
    (cursor : s'.lastPickedIdx = (s.lastPickedIdx + 1 + i) % s.runQueue.length) :
    s'.scanOrder = s.scanOrder.rotate (i + 1) := by
  have around : ∀ n, (List.range s.runQueue.length).rotate (n % s.runQueue.length) =
      (List.range s.runQueue.length).rotate n := by
    intro n
    have turn := List.rotate_mod (List.range s.runQueue.length) n
    rw [List.length_range] at turn
    exact turn
  rw [scanOrder_eq, scanOrder_eq, List.rotate_rotate, queue, cursor, ← around, Nat.mod_add_mod,
    around, Nat.add_assoc]

theorem candidates_switch {s' : Scheduler} {first : Nat} {rest : List Nat}
    (queue : s'.runQueue = s.runQueue)
    (runnable : ∀ idx, (s'.score idx).isSome = (s.score idx).isSome)
    (order : s.candidates = first :: rest) (cursor : s'.lastPickedIdx = first) :
    s'.candidates = rest ++ [first] := by
  rcases List.filter_eq_cons_iff.mp order with ⟨before, behind, parts, stopped, runs, others⟩
  have place : s.scanOrder[before.length]? = some first := by
    rw [parts, List.getElem?_append_right (le_refl _), Nat.sub_self]
    rfl
  rw [scanOrder, List.getElem?_map] at place
  rcases Option.map_eq_some_iff.mp place with ⟨i, isPlace, isFirst⟩
  rcases List.getElem?_eq_some_iff.mp isPlace with ⟨_, same⟩
  rw [List.getElem_range] at same
  rw [← same] at isFirst
  have turned := scanOrder_rotate queue (cursor.trans isFirst.symm)
  have front : (before ++ [first]).length = before.length + 1 := by
    rw [List.length_append, List.length_singleton]
  rw [parts, ← List.singleton_append, ← List.append_assoc, ← front,
    List.rotate_append_length_eq] at turned
  have none : (before.filter fun idx => (s.score idx).isSome) = [] :=
    List.filter_eq_nil_iff.mpr stopped
  unfold candidates
  simp only [turned, runnable]
  rw [List.filter_append, List.filter_append, others, none, List.nil_append, List.filter_cons,
    if_pos runs]
  rfl

/-- What `schedule` makes of the current process and of the place of the last one. -/
theorem schedule_place {first slot : Nat} (next : s.pickNext = some first)
    (place : s.runQueue[first]? = some slot) :
    (s.current = some slot → s.schedule.current = s.current ∧
        s.schedule.lastPickedIdx = s.lastPickedIdx) ∧
      (s.current ≠ some slot → s.schedule.current = some slot ∧
        s.schedule.lastPickedIdx = first) := by
  unfold schedule
  rw [next]
  dsimp only
  rw [place]
  dsimp only
  constructor
  · intro same
    rw [if_pos same]
    exact ⟨rfl, rfl⟩
  · intro other
    rw [if_neg other]
    exact ⟨rfl, rfl⟩

theorem place_of_candidate {idx : Nat} (member : idx ∈ s.candidates) :
    ∃ slot, s.runQueue[idx]? = some slot := by
  have scored := (List.mem_filter.mp member).2
  rcases Option.isSome_iff_exists.mp scored with ⟨value, isScore⟩
  rw [score] at isScore
  rcases Option.bind_eq_some_iff.mp isScore with ⟨p, heldEntry, _⟩
  rcases Option.bind_eq_some_iff.mp heldEntry with ⟨slot, heldSlot, _⟩
  exact ⟨slot, heldSlot⟩

/-! ## Runs -/

section Run

variable {run : Nat → Scheduler} (equal : EqualRun run)

include equal

theorem EqualRun.queue_eq (k : Nat) : (run k).runQueue = (run 0).runQueue := by
  induction k with
  | zero => rfl
  | succ k known => exact (equal.queue k).trans known

/-- Where the first candidate is that of the current process, nothing moves. -/
theorem EqualRun.stays {k first : Nat} {rest : List Nat}
    (order : (run k).candidates = first :: rest)
    (same : (run k).runQueue[first]? = (run k).current) :
    (run (k + 1)).candidates = first :: rest ∧ (run (k + 1)).current = (run k).current := by
  have next : (run k).pickNext = some first := by
    rw [pickNext_eq_head equal, order]
    rfl
  rcases place_of_candidate (order ▸ List.mem_cons_self) with ⟨slot, place⟩
  have kept := (schedule_place next place).1 (same.symm.trans place)
  refine ⟨?_, (equal.current k).trans kept.1⟩
  have scan : (run (k + 1)).scanOrder = (run k).scanOrder := by
    rw [scanOrder_eq, scanOrder_eq, equal.queue, equal.cursor, kept.2]
  rw [← order]
  unfold candidates
  simp only [scan, equal.runnable]

/-- Where it is that of another process, the first candidate becomes the last one. -/
theorem EqualRun.switches {k first : Nat} {rest : List Nat}
    (order : (run k).candidates = first :: rest)
    (other : (run k).runQueue[first]? ≠ (run k).current) :
    (run (k + 1)).candidates = rest ++ [first] ∧
      (run (k + 1)).current = (run k).runQueue[first]? := by
  have next : (run k).pickNext = some first := by
    rw [pickNext_eq_head equal, order]
    rfl
  rcases place_of_candidate (order ▸ List.mem_cons_self) with ⟨slot, place⟩
  have moved := (schedule_place next place).2 fun same => other (place.trans same.symm)
  refine ⟨candidates_switch (equal.queue k) (equal.runnable k) order
    ((equal.cursor k).trans moved.2), ?_⟩
  rw [equal.current, moved.1, place]

/-- Where there are no candidates, there are none at the next call. -/
theorem EqualRun.none {k : Nat} (order : (run k).candidates = []) :
    (run (k + 1)).candidates = [] := by
  have next : (run k).pickNext = Option.none := by
    rw [pickNext_eq_head equal, order]
    rfl
  have kept : (run k).schedule = run k := by
    unfold schedule
    rw [next]
  have scan : (run (k + 1)).scanOrder = (run k).scanOrder := by
    rw [scanOrder_eq, scanOrder_eq, equal.queue, equal.cursor, kept]
  rw [← order]
  unfold candidates
  simp only [scan, equal.runnable]

/-- The candidates go round, and the first one is never again that of the current process. -/
theorem EqualRun.turns (fresh : ¬(run 0).FirstIsCurrent) (k : Nat) :
    (run k).candidates = (run 0).candidates.rotate k ∧ ¬(run k).FirstIsCurrent := by
  induction k with
  | zero => exact ⟨(List.rotate_zero _).symm, fresh⟩
  | succ k known =>
      rcases known with ⟨turned, fresh⟩
      rw [← List.rotate_rotate, ← turned]
      rcases order : (run k).candidates with _ | ⟨first, rest⟩
      · have empty := equal.none order
        refine ⟨empty, fun isCurrent => ?_⟩
        have several := isCurrent.1
        rw [empty] at several
        exact absurd several (by decide)
      · by_cases same : (run k).runQueue[first]? = (run k).current
        · have kept := (equal.stays order same).1
          have alone : rest = [] := by
            by_contra more
            refine fresh ⟨?_, ?_⟩
            · rw [order, List.length_cons]
              exact Nat.succ_le_succ (List.length_pos_iff.mpr more)
            · rw [order]
              exact same
          rw [kept, alone]
          refine ⟨(List.rotate_singleton first 1).symm, fun isCurrent => ?_⟩
          have several := isCurrent.1
          rw [kept, alone, List.length_singleton] at several
          exact absurd several (by decide)
        · rcases equal.switches order same with ⟨moved, current⟩
          refine ⟨moved.trans (List.rotate_cons_succ rest first 0 ▸ List.rotate_zero _).symm, ?_⟩
          rintro ⟨several, isCurrent⟩
          rcases rest with _ | ⟨second, more⟩
          · rw [moved, List.nil_append, List.length_singleton] at several
            exact absurd several (by decide)
          · have distinct := candidates_nodup (run k)
            rw [order] at distinct
            rw [moved, current, equal.queue] at isCurrent
            have inside : second < (run k).runQueue.length := by
              rcases place_of_candidate (order ▸ List.mem_cons_of_mem _ List.mem_cons_self) with
                ⟨slot, place⟩
              exact (List.getElem?_eq_some_iff.mp place).1
            have nodup : (run k).runQueue.Nodup := by
              rw [equal.queue_eq]
              exact equal.distinct
            have sameEntry : second = first := (List.getElem?_inj inside nodup).mp isCurrent
            exact (List.nodup_cons.mp distinct).1 (sameEntry ▸ List.mem_cons_self)

/-- In as many calls as there are candidates each of them is picked exactly once. -/
theorem EqualRun.eachOnce (fresh : ¬(run 0).FirstIsCurrent) (start : Nat) :
    EachOnce run start := by
  intro idx member
  have positive : 0 < (run 0).candidates.length := List.length_pos_of_mem member
  have picked : ∀ j, (run (start + j)).pickNext =
      (run 0).candidates[(start + j) % (run 0).candidates.length]? := by
    intro j
    rw [pickNext_eq_head equal, (equal.turns fresh (start + j)).1, ← List.rotate_mod,
      List.head?_rotate (Nat.mod_lt _ positive)]
  rcases List.mem_iff_getElem?.mp member with ⟨i, place⟩
  have inside := (List.getElem?_eq_some_iff.mp place).1
  have distinct := candidates_nodup (run 0)
  generalize (run 0).candidates = order at positive picked place inside distinct
  have round := Nat.mod_lt start positive
  have here : (start + (i + (order.length - start % order.length)) % order.length) %
      order.length = i := by
    rw [Nat.add_mod_mod, ← Nat.mod_add_mod]
    have sum : start % order.length + (i + (order.length - start % order.length)) =
        i + order.length := by omega
    rw [sum, Nat.add_mod_right, Nat.mod_eq_of_lt inside]
  refine ⟨(i + (order.length - start % order.length)) % order.length,
    ⟨Nat.mod_lt _ positive, ?_⟩, ?_⟩
  · rw [picked, here, place]
  · rintro j ⟨less, isPicked⟩
    rw [picked] at isPicked
    have same : (start + j) % order.length = i :=
      (List.getElem?_inj (Nat.mod_lt _ positive) distinct).mp (isPicked.trans place.symm)
    have equal' : start + j ≡ start + (i + (order.length - start % order.length)) % order.length
        [MOD order.length] := same.trans here.symm
    exact (Nat.ModEq.add_left_cancel' start equal').eq_of_lt_of_lt less (Nat.mod_lt _ positive)

/-- An entry that is picked twice keeps the others waiting. -/
theorem EqualRun.notFirst (rotates : ∀ start, EachOnce run start) : ¬(run 0).FirstIsCurrent := by
  rintro ⟨several, same⟩
  rcases order : (run 0).candidates with _ | ⟨first, rest⟩
  · rw [order] at several
    exact absurd several (by decide)
  · rw [order] at same
    have kept := (equal.stays order same).1
    have now : (run (0 + 0)).pickNext = some first := by
      rw [pickNext_eq_head equal, order]
      rfl
    have again : (run (0 + 1)).pickNext = some first := by
      rw [pickNext_eq_head equal, kept]
      rfl
    rcases rotates 0 first (order ▸ List.mem_cons_self) with ⟨j, _, unique⟩
    have zero := unique 0 ⟨by omega, now⟩
    have one := unique 1 ⟨by omega, again⟩
    omega

end Run

/-- Priorities of tasks are bounded, so `pick_next` finds an entry that can run. -/
theorem pickNext_right (bounded : s.Bounded) : s.PicksRight := by
  have found : ∀ slot, s.Contends slot → ∃ i other, s.Picks i other := by
    rintro slot ⟨member, p, held, runs⟩
    rcases exists_at member with ⟨j, atSlot⟩
    exact picks_of_runnable atSlot held runs
      (score_below bounded (score_of_at atSlot held runs))
  constructor
  case nothing =>
    constructor
    · intro none slot contends
      rcases found slot contends with ⟨i, other, picks⟩
      rw [picks.next] at none
      cases none
    · intro stopped
      cases next : s.pickNext with
      | none => rfl
      | some idx =>
          rcases pickNext_runnable next with ⟨slot, p, place, held, runs⟩
          exact absurd ⟨List.mem_of_getElem? place, p, held, runs⟩ (stopped slot)
  case best =>
    intro idx next
    rcases pickNext_runnable next with ⟨slot, p, place, held, runs⟩
    rcases found slot ⟨List.mem_of_getElem? place, p, held, runs⟩ with ⟨i, other, picks⟩
    rw [picks.next, Option.some_inj] at next
    exact ⟨i, other, next.symm, picks⟩

end Scheduler

/-- `pick_next` picks the first of the best entries, and equal entries take turns exactly if the
first one behind the last that was picked is not that of the current process, or is alone. -/
theorem pickNext_rotates (s : Scheduler) (bounded : s.Bounded) (run : Nat → Scheduler)
    (equal : Scheduler.EqualRun run) :
    s.PicksRight ∧ ((∀ start, Scheduler.EachOnce run start) ↔ ¬(run 0).FirstIsCurrent) :=
  ⟨Scheduler.pickNext_right bounded, equal.notFirst, equal.eachOnce⟩

namespace Scheduler

theorem score_zero {s : Scheduler} (tasks : ∀ p ∈ s.tasks, p.priority ≤ prioIdle ∧ p.effPrio = 0)
    {idx : Nat} {a : Int} (scored : s.score idx = some a) : a = 0 := by
  rw [score] at scored
  rcases Option.bind_eq_some_iff.mp scored with ⟨p, heldEntry, isScore⟩
  rcases Option.bind_eq_some_iff.mp heldEntry with ⟨slot, _, held⟩
  by_cases runs : p.Runnable
  · rw [if_pos runs, Option.some_inj] at isScore
    rw [← isScore]
    exact (tasks p (List.mem_of_getElem? held)).2
  · rw [if_neg runs] at isScore
    cases isScore

/-- A state that `schedule` leaves as it is, with one effective priority. -/
theorem equalRun_const {s : Scheduler} (distinct : s.runQueue.Nodup)
    (tasks : ∀ p ∈ s.tasks, p.priority ≤ prioIdle ∧ p.effPrio = 0)
    (stays : s.schedule.current = s.current ∧ s.schedule.lastPickedIdx = s.lastPickedIdx) :
    EqualRun fun _ => s := by
  constructor
  case distinct => exact distinct
  case bounded => exact fun _ p member => (tasks p member).1
  case queue => exact fun _ => rfl
  case current => exact fun _ => stays.1.symm
  case cursor => exact fun _ => stays.2.symm
  case runnable => exact fun _ _ => rfl
  case equal =>
    exact fun _ i j a b first second => (score_zero tasks first).trans (score_zero tasks second).symm

/-- Two processes; the second one has the processor, and the first one was picked last. -/
def stuck : Scheduler where
  tasks := [⟨.ready, 0, 0, 0, 0, 0⟩, ⟨.running, 0, 0, 0, 0, 0⟩]
  current := some 1
  runQueue := [0, 1]
  lastPickedIdx := 0
  tickCount := 0
  kickFlag := false

/-- Two processes that can run, with one between them that sleeps.  The first one has the processor. -/
def peers : Scheduler where
  tasks := [⟨.running, 0, 0, 0, 0, 0⟩, ⟨.sleeping, 0, 0, 0, 0, 0⟩, ⟨.ready, 0, 0, 0, 0, 0⟩]
  current := some 0
  runQueue := [0, 1, 2]
  lastPickedIdx := 0
  tickCount := 0
  kickFlag := false

def peersBack : Scheduler := { peers with
  tasks := [⟨.ready, 0, 0, 0, 0, 0⟩, ⟨.sleeping, 0, 0, 0, 0, 0⟩, ⟨.running, 0, 0, 0, 0, 0⟩]
  current := some 2
  lastPickedIdx := 2 }

/-- The states before the calls of `schedule`, when the boost for an unused quantum has been taken
back. -/
def peersRun (k : Nat) : Scheduler := if k % 2 = 0 then peers else peersBack

theorem peersRun_even {P : Scheduler → Scheduler → Prop} (there : P peers peersBack)
    (back : P peersBack peers) (k : Nat) : P (peersRun k) (peersRun (k + 1)) := by
  unfold peersRun
  rcases Nat.mod_two_eq_zero_or_one k with even | odd
  · rw [if_pos even, if_neg (by omega)]
    exact there
  · rw [if_neg (by omega), if_pos (by omega)]
    exact back

theorem peersRun_tasks (k : Nat) : ∀ p ∈ (peersRun k).tasks, p.priority ≤ prioIdle ∧ p.effPrio = 0 :=
  @peersRun_even (fun s _ => ∀ p ∈ s.tasks, p.priority ≤ prioIdle ∧ p.effPrio = 0) (by decide)
    (by decide) k

theorem peersRun_score (k idx : Nat) :
    ((peersRun (k + 1)).score idx).isSome = ((peersRun k).score idx).isSome := by
  apply @peersRun_even fun s s' => (s'.score idx).isSome = (s.score idx).isSome
  all_goals
    rcases idx with _ | _ | _ | idx
    all_goals rfl

theorem equalRun_peers : EqualRun peersRun := by
  constructor
  case distinct => exact show [0, 1, 2].Nodup by decide
  case bounded => exact fun k p member => (peersRun_tasks k p member).1
  case queue => exact @peersRun_even (fun s s' => s'.runQueue = s.runQueue) rfl rfl
  case current => exact @peersRun_even (fun s s' => s'.current = s.schedule.current) rfl rfl
  case cursor =>
    exact @peersRun_even (fun s s' => s'.lastPickedIdx = s.schedule.lastPickedIdx) rfl rfl
  case runnable => exact peersRun_score
  case equal =>
    exact fun k i j a b first second =>
      (score_zero (peersRun_tasks k) first).trans (score_zero (peersRun_tasks k) second).symm

end Scheduler

/-- The second process is picked at every call, and the first one at none. -/
theorem pickNext_stuck : ∃ run, Scheduler.EqualRun run ∧
    ¬∀ start, Scheduler.EachOnce run start := by
  have equal : Scheduler.EqualRun fun _ => Scheduler.stuck :=
    Scheduler.equalRun_const (by decide) (by decide) (by decide)
  refine ⟨_, equal, fun rotates => ?_⟩
  rcases rotates 0 0 (by decide) with ⟨j, ⟨_, picked⟩, _⟩
  have first : Scheduler.stuck.pickNext = some 0 := picked
  exact absurd first (by decide)

theorem pickNext_rotates_pair : Scheduler.peers.PicksRight ∧ Scheduler.peers.candidates = [2, 0] ∧
    ∀ start, Scheduler.EachOnce Scheduler.peersRun start := by
  have rotates := pickNext_rotates Scheduler.peers
    (show ∀ p ∈ Scheduler.peers.tasks, p.priority ≤ prioIdle by decide) Scheduler.peersRun
    Scheduler.equalRun_peers
  exact ⟨rotates.1, by decide, rotates.2.mpr fun first => absurd first.2 (by decide)⟩

end Trinux
