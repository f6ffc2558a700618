import Trinux.Auth.Users
import Trinux.Process.Scheduler

namespace Trinux

/-!
# Changing priorities

`SYS_RENICE` sets the base priority of a process.  A number below the default is for root alone;
nothing is asked about the number that the process has.
-/

def processSetPriority (s : Users) (pid : UInt32) (prio : Int) (t : ProcessTable) :
    Int × ProcessTable :=
  if prio < prioMin ∨ prioMax < prio then (-2, t)
  else
    match t.get pid with
    | none => (-1, t)
    | some i =>
        if prio < prioDefault ∧ ¬s.isRootUser then (-3, t)
        else (0, t.modify i fun p => { p with priority := prio })

def sysRenice (s : Users) (a1 a2 : UInt32) (t : ProcessTable) : Int × ProcessTable :=
  let done := processSetPriority s a1 a2.toBitVec.toInt t
  (if 0 ≤ done.1 then 0 else -1, done.2)

namespace ProcessTable

def NoBoost (t t' : ProcessTable) : Prop :=
  ∀ i p, t.at? i = some p → ∃ p', t'.at? i = some p' ∧ p.priority ≤ p'.priority

/-- The process that a number names has a priority in the range after a call that succeeds. -/
def SetsInRange (s : Users) (a1 a2 : UInt32) (t : ProcessTable) : Prop :=
  (sysRenice s a1 a2 t).1 = 0 → ∃ i p', t.get a1 = some i ∧
    (sysRenice s a1 a2 t).2.at? i = some p' ∧ prioMin ≤ p'.priority ∧ p'.priority ≤ prioMax

/-- The run of a list of calls boosts nobody, and the priorities that are set are in the range. -/
def NeverBoosts (s : Users) : ProcessTable → List (UInt32 × UInt32) → Prop
  | _, [] => True
  | t, (a1, a2) :: rest =>
      (t.NoBoost (sysRenice s a1 a2 t).2 ∧ t.SetsInRange s a1 a2) ∧
        NeverBoosts s (sysRenice s a1 a2 t).2 rest

/-- A process that is asked to take a number from the default on has no greater number. -/
def AsksForMore (t : ProcessTable) (a1 a2 : UInt32) : Prop :=
  ∀ i p, t.get a1 = some i → t.at? i = some p →
    prioDefault ≤ a2.toBitVec.toInt → a2.toBitVec.toInt ≤ prioMax → p.priority ≤ a2.toBitVec.toInt

def AlwaysAsksForMore (s : Users) : ProcessTable → List (UInt32 × UInt32) → Prop
  | _, [] => True
  | t, (a1, a2) :: rest =>
      t.AsksForMore a1 a2 ∧ AlwaysAsksForMore s (sysRenice s a1 a2 t).2 rest

theorem NoBoost.refl (t : ProcessTable) : t.NoBoost t :=
  fun _ p held => ⟨p, held, le_refl p.priority⟩

theorem processSetPriority_cases {s : Users} (user : ¬s.isRootUser) (pid : UInt32) (prio : Int)
    (t : ProcessTable) :
    ((∃ code < 0, processSetPriority s pid prio t = (code, t)) ∧
        (t.get pid = none ∨ prio < prioDefault ∨ prioMax < prio)) ∨
      ∃ i, t.get pid = some i ∧ prioDefault ≤ prio ∧ prio ≤ prioMax ∧
        processSetPriority s pid prio t = (0, t.modify i fun p => { p with priority := prio }) := by
  unfold processSetPriority
  have order : prioMin < prioDefault := by decide
  by_cases range : prio < prioMin ∨ prioMax < prio
  · rw [if_pos range]
    exact Or.inl ⟨⟨-2, by decide, rfl⟩, Or.inr (range.imp_left fun low => low.trans order)⟩
  · rw [if_neg range]
    rcases not_or.mp range with ⟨_, high⟩
    cases t.get pid with
    | none => exact Or.inl ⟨⟨-1, by decide, rfl⟩, Or.inl rfl⟩
    | some i =>
        dsimp only
        by_cases boost : prio < prioDefault
        · rw [if_pos ⟨boost, user⟩]
          exact Or.inl ⟨⟨-3, by decide, rfl⟩, Or.inr (Or.inl boost)⟩
        · rw [if_neg fun both => boost both.1]
          exact Or.inr ⟨i, rfl, not_lt.mp boost, not_lt.mp high, rfl⟩

theorem sysRenice_cases {s : Users} (user : ¬s.isRootUser) (a1 a2 : UInt32) (t : ProcessTable) :
    (sysRenice s a1 a2 t = (-1, t) ∧
        (t.get a1 = none ∨ a2.toBitVec.toInt < prioDefault ∨ prioMax < a2.toBitVec.toInt)) ∨
      ∃ i, t.get a1 = some i ∧ prioDefault ≤ a2.toBitVec.toInt ∧ a2.toBitVec.toInt ≤ prioMax ∧
        sysRenice s a1 a2 t =
          (0, t.modify i fun p => { p with priority := a2.toBitVec.toInt }) := by
  unfold sysRenice
  rcases processSetPriority_cases user a1 a2.toBitVec.toInt t with
    ⟨⟨code, negative, refused⟩, why⟩ | ⟨i, found, low, high, set⟩
  · rw [refused]
    refine Or.inl ⟨?_, why⟩
    dsimp only
    rw [if_neg (not_le.mpr negative)]
  · rw [set]
    exact Or.inr ⟨i, found, low, high, rfl⟩

theorem at?_modify_of_get {t : ProcessTable} {pid : UInt32} {i : Nat} (found : t.get pid = some i)
    (change : Process → Process) :
    ∃ p, t.at? i = some p ∧ (t.modify i change).at? i = some (change p) := by
  rcases get_eq_some found with ⟨p, held, _⟩
  refine ⟨p, held, ?_⟩
  rw [at?_modify_self, held]
  rfl

theorem sysRenice_setsInRange {s : Users} (user : ¬s.isRootUser) (a1 a2 : UInt32)
    (t : ProcessTable) : t.SetsInRange s a1 a2 := by
  intro done
  rcases sysRenice_cases user a1 a2 t with ⟨same, _⟩ | ⟨i, found, low, high, set⟩
  · rw [same] at done
    exact absurd (show (-1 : Int) = 0 from done) (by decide)
  · rcases at?_modify_of_get found fun p => { p with priority := a2.toBitVec.toInt } with
      ⟨p, _, held⟩
    rw [set]
    exact ⟨i, _, found, held, le_trans (by decide) low, high⟩

/-- A call of somebody who is not root boosts nobody exactly if it asks for more. -/
theorem sysRenice_noBoost {s : Users} (user : ¬s.isRootUser) (a1 a2 : UInt32) (t : ProcessTable) :
    t.NoBoost (sysRenice s a1 a2 t).2 ↔ t.AsksForMore a1 a2 := by
  rcases sysRenice_cases user a1 a2 t with ⟨same, refused⟩ | ⟨i, found, low, high, set⟩
  · rw [same]
    constructor
    · intro _ i p found _ low high
      rcases refused with none | below | above
      · rw [none] at found
        cases found
      · exact absurd low (not_le.mpr below)
      · exact absurd high (not_le.mpr above)
    · exact fun _ => NoBoost.refl t
  · rcases at?_modify_of_get found fun p => { p with priority := a2.toBitVec.toInt } with
      ⟨q, before, after⟩
    rw [set]
    constructor
    · intro noBoost j p there held _ _
      have same : j = i := Option.some_inj.mp (there.symm.trans found)
      rw [same] at held
      rcases noBoost i p held with ⟨p', held', le⟩
      rw [after] at held'
      rw [← Option.some_inj.mp held'] at le
      exact le
    · intro asks j p held
      by_cases here : j = i
      · rw [here] at held ⊢
        exact ⟨_, after, asks i p found held low high⟩
      · refine ⟨p, ?_, le_refl _⟩
        rw [at?_modify_of_ne t _ here, held]

end ProcessTable

/-- In a run of calls of somebody who is not root, no priority number decreases exactly if every
call asks for more. -/
theorem sysRenice_neverBoosts (s : Users) (user : ¬s.isRootUser)
    (calls : List (UInt32 × UInt32)) (t : ProcessTable) :
    t.NeverBoosts s calls ↔ t.AlwaysAsksForMore s calls := by
  induction calls generalizing t with
  | nil => exact Iff.rfl
  | cons c rest known =>
      have step : (t.NoBoost (sysRenice s c.1 c.2 t).2 ∧ t.SetsInRange s c.1 c.2) ↔
          t.AsksForMore c.1 c.2 :=
        (and_iff_left (ProcessTable.sysRenice_setsInRange user c.1 c.2 t)).trans
          (ProcessTable.sysRenice_noBoost user c.1 c.2 t)
      exact and_congr step (known _)

/-- Nobody is logged in, and the process `init` gets the default priority. -/
theorem sysRenice_boostsInit : ¬processInit.NeverBoosts ⟨[], none⟩ [(1, 0)] := by
  rintro ⟨⟨noBoost, _⟩, _⟩
  rcases noBoost 0 _ rfl with ⟨p', held', le⟩
  have set : p'.priority = prioDefault := by
    rw [← Option.some_inj.mp held']
    rfl
  rw [set] at le
  exact absurd le (by decide)

/-- The table after a program was created. -/
def nicedProgram : ProcessTable :=
  ((processCreate (literal "app") ⟨0x8000000, 0x400000⟩ processInit).map Prod.snd).getD processInit

/-- A program is made nicer twice, and a process that does not exist once. -/
theorem sysRenice_neverBoosts_nicer :
    nicedProgram.NeverBoosts ⟨[], none⟩ [(5, 10), (5, 12), (77, 5)] ∧
      (sysRenice ⟨[], none⟩ 5 10 nicedProgram).1 = 0 := by
  refine ⟨(sysRenice_neverBoosts ⟨[], none⟩ (by decide) _ _).mpr ⟨?_, ?_, ?_, trivial⟩, by decide⟩
  · intro i p found held _ _
    have slot : nicedProgram.get 5 = some 4 := by decide
    cases found.symm.trans slot
    cases held
    decide
  · intro i p found held _ _
    have slot : (sysRenice ⟨[], none⟩ 5 10 nicedProgram).2.get 5 = some 4 := by decide
    cases found.symm.trans slot
    cases held
    decide
  · intro i p found
    have slot : (sysRenice ⟨[], none⟩ 5 12 (sysRenice ⟨[], none⟩ 5 10 nicedProgram).2).2.get 77 =
        none := by
      decide
    rw [slot] at found
    cases found

end Trinux
