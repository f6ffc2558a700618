/-!
# Programs over operations

A program performs operations on a state, and what it does next depends on their results.  An
invariant or a relation that every operation keeps is kept by every program, whatever its
recursion; where a program is bounded, `stop` stands for the bound that is used up.
-/

namespace Trinux

inductive Program (Op : Type) (Result : Op → Type) (α : Type) where
  | done (value : α)
  | stop
  | perform (op : Op) (next : Result op → Program Op Result α)

namespace Program

variable {Op : Type} {Result : Op → Type} {α β σ : Type}

def bind : Program Op Result α → (α → Program Op Result β) → Program Op Result β
  | .done value, f => f value
  | .stop, _ => .stop
  | .perform op next, f => .perform op fun result => (next result).bind f

instance : Monad (Program Op Result) where
  pure := .done
  bind := .bind

def loop (condition : Program Op Result Bool) (body : Program Op Result Unit) :
    Nat → Program Op Result Unit
  | 0 => .stop
  | bound + 1 => do
      if ← condition then
        body
        loop condition body bound

variable (exec : (op : Op) → σ → Result op × σ)

def run : Program Op Result α → σ → Option α × σ
  | .done value, s => (some value, s)
  | .stop, s => (none, s)
  | .perform op next, s => (next (exec op s).1).run (exec op s).2

def Always (holds : Op → σ → Prop) : Program Op Result α → σ → Prop
  | .done _, _ => True
  | .stop, _ => True
  | .perform op next, s => holds op s ∧ (next (exec op s).1).Always holds (exec op s).2

def Throughout (holds : σ → Prop) : Program Op Result α → σ → Prop
  | .done _, s => holds s
  | .stop, s => holds s
  | .perform op next, s => holds s ∧ (next (exec op s).1).Throughout holds (exec op s).2

instance decidableAlways (holds : Op → σ → Prop) [∀ op s, Decidable (holds op s)] :
    (p : Program Op Result α) → (s : σ) → Decidable (p.Always exec holds s)
  | .done _, _ => isTrue trivial
  | .stop, _ => isTrue trivial
  | .perform op next, s =>
      have := decidableAlways holds (next (exec op s).1) (exec op s).2
      inferInstanceAs (Decidable (holds op s ∧ (next (exec op s).1).Always exec holds (exec op s).2))

variable {exec}

theorem Throughout.last {holds : σ → Prop} (p : Program Op Result α) : ∀ {s : σ},
    p.Throughout exec holds s → holds (p.run exec s).2 := by
  induction p with
  | done value => intro s all; exact all
  | stop => intro s all; exact all
  | perform op next next_ih => intro s all; exact next_ih _ all.2

theorem Throughout.mono {holds weaker : σ → Prop} (implies : ∀ s, holds s → weaker s)
    {p : Program Op Result α} : ∀ {s : σ}, p.Throughout exec holds s →
      p.Throughout exec weaker s := by
  induction p with
  | done value => intro s all; exact implies s all
  | stop => intro s all; exact implies s all
  | perform op next next_ih => intro s all; exact ⟨implies s all.1, next_ih _ all.2⟩

/-- The invariant rule: what holds at first and is kept by every operation that meets a condition
holds throughout a program all of whose operations meet it. -/
theorem throughout_of_always {condition : Op → σ → Prop} {invariant : σ → Prop}
    (kept : ∀ op s, condition op s → invariant s → invariant (exec op s).2)
    (p : Program Op Result α) : ∀ {s : σ}, invariant s → p.Always exec condition s →
      p.Throughout exec invariant s := by
  induction p with
  | done value => intro s start _; exact start
  | stop => intro s start _; exact start
  | perform op next next_ih =>
      intro s start meets
      exact ⟨start, next_ih _ (kept op s meets.1 start) meets.2⟩

/-- An invariant that every operation keeps strengthens what holds of the operations. -/
theorem always_of_invariant {condition stronger : Op → σ → Prop} {invariant : σ → Prop}
    (kept : ∀ op s, invariant s → invariant (exec op s).2)
    (implies : ∀ op s, invariant s → condition op s → stronger op s) (p : Program Op Result α) :
    ∀ {s : σ}, invariant s → p.Always exec condition s → p.Always exec stronger s := by
  induction p with
  | done value => intro s _ _; trivial
  | stop => intro s _ _; trivial
  | perform op next next_ih =>
      intro s start meets
      exact ⟨implies op s start meets.1, next_ih _ (kept op s start) meets.2⟩

theorem run_invariant {invariant : σ → Prop} (kept : ∀ op s, invariant s → invariant (exec op s).2)
    (p : Program Op Result α) : ∀ {s : σ}, invariant s → invariant (p.run exec s).2 := by
  induction p with
  | done value => intro s start; exact start
  | stop => intro s start; exact start
  | perform op next next_ih => intro s start; exact next_ih _ (kept op s start)

/-- The rule for two runs: they stay related, and have the same result, as long as the operations
of the first meet the condition. -/
theorem run_related {condition : Op → σ → Prop} {related : σ → σ → Prop}
    (kept : ∀ op s t, condition op s → related s t →
      (exec op t).1 = (exec op s).1 ∧ related (exec op s).2 (exec op t).2)
    (p : Program Op Result α) : ∀ {s t : σ}, related s t → p.Always exec condition s →
      (p.run exec t).1 = (p.run exec s).1 ∧ related (p.run exec s).2 (p.run exec t).2 := by
  induction p with
  | done value => intro s t start _; exact ⟨rfl, start⟩
  | stop => intro s t start _; exact ⟨rfl, start⟩
  | perform op next next_ih =>
      intro s t start meets
      have step := kept op s t meets.1 start
      have rest := next_ih (exec op s).1 step.2 meets.2
      rw [run, run, step.1]
      exact rest

theorem run_bind (p : Program Op Result α) (f : α → Program Op Result β) : ∀ s : σ,
    (p.bind f).run exec s =
      match p.run exec s with
      | (some value, t) => (f value).run exec t
      | (none, t) => (none, t) := by
  induction p with
  | done value => intro s; rfl
  | stop => intro s; rfl
  | perform op next next_ih => intro s; exact next_ih _ _

theorem always_bind {holds : Op → σ → Prop} (p : Program Op Result α)
    (f : α → Program Op Result β) : ∀ s : σ,
    (p.bind f).Always exec holds s ↔ p.Always exec holds s ∧
      ∀ value, (p.run exec s).1 = some value → (f value).Always exec holds (p.run exec s).2 := by
  induction p with
  | done value =>
      intro s
      constructor
      · intro meets
        refine ⟨trivial, ?_⟩
        intro value' same
        cases same
        exact meets
      · intro meets
        exact meets.2 value rfl
  | stop =>
      intro s
      constructor
      · intro _
        exact ⟨trivial, fun _ same => by cases same⟩
      · intro _
        trivial
  | perform op next next_ih =>
      intro s
      constructor
      · intro meets
        have rest := (next_ih _ _).mp meets.2
        exact ⟨⟨meets.1, rest.1⟩, rest.2⟩
      · intro meets
        exact ⟨meets.1.1, (next_ih _ _).mpr ⟨meets.1.2, meets.2⟩⟩

end Program

end Trinux
