import Mathlib

namespace Trinux

/-!
# The first of the least

A scan of a list that remembers the best score so far and changes its mind only for a better one
ends with the first of the items whose score is least.  Items without a score are passed over.
-/

namespace FirstLeast

variable {α : Type*}

def consider (score : α → Option Int) (best : Option α × Int) (x : α) : Option α × Int :=
  match score x with
  | none => best
  | some value => if value < best.2 then (some x, value) else best

def scan (score : α → Option Int) (bound : Int) (xs : List α) : Option α × Int :=
  xs.foldl (consider score) (none, bound)

structure IsFirst (score : α → Option Int) (xs : List α) (x : α) (value : Int) : Prop where
  scored : score x = some value
  least : ∀ y ∈ xs, ∀ other, score y = some other → value ≤ other
  first : ∃ before behind, xs = before ++ x :: behind ∧
    ∀ y ∈ before, ∀ other, score y = some other → value < other

variable {score : α → Option Int} {bound : Int}

theorem scan_append_singleton (score : α → Option Int) (bound : Int) (xs : List α) (x : α) :
    scan score bound (xs ++ [x]) = consider score (scan score bound xs) x := by
  rw [scan, scan, List.foldl_append, List.foldl_cons, List.foldl_nil]

theorem IsFirst.behind {xs : List α} {x last : α} {value : Int} (isFirst : IsFirst score xs x value)
    (worse : ∀ other, score last = some other → value ≤ other) :
    IsFirst score (xs ++ [last]) x value := by
  rcases isFirst.first with ⟨before, behind, rfl, first⟩
  refine ⟨isFirst.scored, fun y member other scored => ?_, before, behind ++ [last], ?_, first⟩
  · rcases List.mem_append.mp member with earlier | final
    · exact isFirst.least y earlier other scored
    · rw [List.mem_singleton.mp final] at scored
      exact worse other scored
  · rw [List.append_assoc, List.cons_append]

/-- What a scan finds: nothing below the bound, or the first of the least. -/
theorem scan_spec (score : α → Option Int) (bound : Int) (xs : List α) :
    (scan score bound xs = (none, bound) ∧
        ∀ y ∈ xs, ∀ other, score y = some other → bound ≤ other) ∨
      ∃ x value, scan score bound xs = (some x, value) ∧ value < bound ∧
        IsFirst score xs x value := by
  induction xs using List.reverseRecOn with
  | nil => exact Or.inl ⟨rfl, fun y member => absurd member List.not_mem_nil⟩
  | append_singleton xs last known =>
      rw [scan_append_singleton, consider]
      cases scored : score last with
      | none =>
          rcases known with ⟨nothing, above⟩ | ⟨x, value, found, below, isFirst⟩
          · refine Or.inl ⟨nothing, fun y member other isOther => ?_⟩
            rcases List.mem_append.mp member with earlier | final
            · exact above y earlier other isOther
            · rw [List.mem_singleton.mp final, scored] at isOther
              cases isOther
          · refine Or.inr ⟨x, value, found, below, isFirst.behind fun other isOther => ?_⟩
            rw [scored] at isOther
            cases isOther
      | some new =>
          dsimp only
          rcases known with ⟨nothing, above⟩ | ⟨x, value, found, below, isFirst⟩
          · rw [nothing]
            by_cases better : new < bound
            · rw [if_pos better]
              refine Or.inr ⟨last, new, rfl, better, scored, fun y member other isOther => ?_,
                xs, [], rfl, fun y earlier other isOther =>
                  lt_of_lt_of_le better (above y earlier other isOther)⟩
              rcases List.mem_append.mp member with earlier | final
              · exact (lt_of_lt_of_le better (above y earlier other isOther)).le
              · rw [List.mem_singleton.mp final, scored] at isOther
                exact (Option.some_inj.mp isOther).le
            · rw [if_neg better]
              refine Or.inl ⟨rfl, fun y member other isOther => ?_⟩
              rcases List.mem_append.mp member with earlier | final
              · exact above y earlier other isOther
              · rw [List.mem_singleton.mp final, scored] at isOther
                exact (not_lt.mp better).trans (Option.some_inj.mp isOther).le
          · rw [found]
            by_cases better : new < value
            · rw [if_pos better]
              refine Or.inr ⟨last, new, rfl, better.trans below, scored,
                fun y member other isOther => ?_, xs, [], rfl, fun y earlier other isOther =>
                  lt_of_lt_of_le better (isFirst.least y earlier other isOther)⟩
              rcases List.mem_append.mp member with earlier | final
              · exact (lt_of_lt_of_le better (isFirst.least y earlier other isOther)).le
              · rw [List.mem_singleton.mp final, scored] at isOther
                exact (Option.some_inj.mp isOther).le
            · rw [if_neg better]
              refine Or.inr ⟨x, value, rfl, below, isFirst.behind fun other isOther => ?_⟩
              rw [scored] at isOther
              exact (not_lt.mp better).trans (Option.some_inj.mp isOther).le

/-- A scan finds something if an item has a score below the bound. -/
theorem scan_isFirst {xs : List α} {y : α} {other : Int} (member : y ∈ xs)
    (scored : score y = some other) (below : other < bound) :
    ∃ x value, scan score bound xs = (some x, value) ∧ IsFirst score xs x value := by
  rcases scan_spec score bound xs with ⟨-, above⟩ | ⟨x, value, found, -, isFirst⟩
  · exact absurd below (not_lt.mpr (above y member other scored))
  · exact ⟨x, value, found, isFirst⟩

/-- Where all scores are the same, a scan finds the first item that has one. -/
theorem scan_same {xs : List α}
    (same : ∀ x ∈ xs, ∀ y ∈ xs, ∀ a b, score x = some a → score y = some b → a = b)
    (below : ∀ x ∈ xs, ∀ a, score x = some a → a < bound) :
    (scan score bound xs).1 = (xs.filter fun x => (score x).isSome).head? := by
  rcases scan_spec score bound xs with ⟨nothing, above⟩ | ⟨x, value, found, _, isFirst⟩
  · have none : (xs.filter fun x => (score x).isSome) = [] := by
      apply List.filter_eq_nil_iff.mpr
      intro y member scored
      rcases Option.isSome_iff_exists.mp scored with ⟨a, isScore⟩
      exact absurd (below y member a isScore) (not_lt.mpr (above y member a isScore))
    rw [nothing, none]
    rfl
  · rcases isFirst.first with ⟨before, behind, rfl, first⟩
    have here : x ∈ before ++ x :: behind := List.mem_append_right _ List.mem_cons_self
    have none : (before.filter fun x => (score x).isSome) = [] := by
      apply List.filter_eq_nil_iff.mpr
      intro y member scored
      rcases Option.isSome_iff_exists.mp scored with ⟨a, isScore⟩
      have equal := same x here y (List.mem_append_left _ member) value a isFirst.scored isScore
      exact absurd (first y member a isScore) (not_lt.mpr equal.ge)
    rw [found, List.filter_append, none, List.nil_append,
      List.filter_cons_of_pos (by rw [isFirst.scored]; rfl)]
    rfl

end FirstLeast

end Trinux
