import Mathlib

namespace Trinux
namespace Ownership

/-!
# Lists that own the marked elements of a set

Several keys each hold a list of elements, and a predicate marks the elements in
use.  The lists own the marked elements when every marked element stands at
exactly one place of exactly one list and the lists name nothing else.

The number of marks among the first natural numbers grows by one with each new
mark.
-/

variable {α κ : Type*}

/-- Every marked element stands at one place of one list, and every listed element is marked. -/
structure Owns (marked : α → Prop) (entries : κ → List α) : Prop where
  once : ∀ element, marked element →
    ∃! place : κ × Nat, (entries place.1)[place.2]? = some element
  only : ∀ key, ∀ element ∈ entries key, marked element

variable {marked : α → Prop} {entries : κ → List α}

/-- Ownership without places: the lists name the marked elements, no list repeats one, and no two
lists share one. -/
theorem owns_iff : Owns marked entries ↔
    (∀ element, marked element ↔ ∃ key, element ∈ entries key) ∧
      (∀ key, (entries key).Nodup) ∧
      ∀ first second element, element ∈ entries first → element ∈ entries second →
        first = second := by
  constructor
  · intro owns
    refine ⟨fun element => ⟨fun isMarked => ?_, fun ⟨key, member⟩ => owns.only key element member⟩,
      fun key => ?_, fun first second element left right => ?_⟩
    · rcases owns.once element isMarked with ⟨place, found, -⟩
      exact ⟨place.1, List.mem_of_getElem? found⟩
    · rw [List.nodup_iff_injective_getElem]
      intro first second same
      have atFirst : (entries (key, first.val).1)[(key, first.val).2]? = some _ :=
        List.getElem?_eq_getElem first.isLt
      have atSecond : (entries (key, second.val).1)[(key, second.val).2]? = some _ :=
        (List.getElem?_eq_getElem second.isLt).trans (congrArg some same.symm)
      have isMarked := owns.only key _ (List.getElem_mem first.isLt)
      exact Fin.ext (congrArg Prod.snd ((owns.once _ isMarked).unique atFirst atSecond))
    · rcases List.mem_iff_getElem?.mp left with ⟨here, atHere⟩
      rcases List.mem_iff_getElem?.mp right with ⟨there, atThere⟩
      have isMarked := owns.only first element left
      have atFirst : (entries (first, here).1)[(first, here).2]? = some element := atHere
      have atSecond : (entries (second, there).1)[(second, there).2]? = some element := atThere
      exact congrArg Prod.fst ((owns.once element isMarked).unique atFirst atSecond)
  · rintro ⟨named, distinct, apart⟩
    refine ⟨fun element isMarked => ?_, fun key element member => (named element).mpr ⟨key, member⟩⟩
    rcases (named element).mp isMarked with ⟨key, member⟩
    rcases List.mem_iff_getElem?.mp member with ⟨index, found⟩
    refine ⟨(key, index), found, fun place other => ?_⟩
    have same := apart place.1 key element (List.mem_of_getElem? other) member
    rcases place with ⟨key', index'⟩
    subst same
    have inside := (List.getElem?_eq_some_iff.mp other).1
    have sameIndex := (List.getElem?_inj inside (distinct key')).mp (other.trans found.symm)
    exact congrArg (Prod.mk key') sameIndex

theorem Owns.marked_iff (owns : Owns marked entries) (element : α) :
    marked element ↔ ∃ key, element ∈ entries key := (owns_iff.mp owns).1 element

/-! ## Counting marks -/

theorem countP_range_add {mark mark' : Nat → Bool} {bound index : Nat} (inside : index < bound)
    (unmarked : mark index = false) (isMarked : mark' index = true)
    (others : ∀ other, other ≠ index → mark' other = mark other) :
    (List.range bound).countP mark' = (List.range bound).countP mark + 1 := by
  induction bound with
  | zero => exact absurd inside (Nat.not_lt_zero index)
  | succ bound known =>
      rw [List.range_succ, List.countP_append, List.countP_append, List.countP_singleton,
        List.countP_singleton]
      rcases Nat.lt_succ_iff_lt_or_eq.mp inside with below | rfl
      · rw [known below, others bound (Nat.ne_of_gt below)]
        exact Nat.add_right_comm _ _ _
      · have before : (List.range index).countP mark' = (List.range index).countP mark := by
          apply List.countP_congr
          intro other member
          rw [others other (Nat.ne_of_lt (List.mem_range.mp member))]
        rw [before, isMarked, unmarked]
        rfl

end Ownership
end Trinux
