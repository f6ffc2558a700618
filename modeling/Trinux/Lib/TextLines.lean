import Mathlib.Data.List.Basic

namespace Trinux.TextLines

/-!
# Lines of a text

A text is split at a separator into lines, and lines are joined with the separator between them.
If lines are left out at the end or cut, the text that they join to is shorter.
-/

variable {α : Type} {sep : α} {lines : List (List α)}

def weight : List (List α) → Nat
  | [] => 0
  | line :: rest => line.length + 1 + weight rest

theorem weight_cons (line : List α) (rest : List (List α)) :
    weight (line :: rest) = line.length + 1 + weight rest := rfl

theorem weight_perm {lines' : List (List α)} (perm : lines.Perm lines') :
    weight lines = weight lines' := by
  induction perm with
  | nil => rfl
  | cons line _ known => rw [weight_cons, weight_cons, known]
  | swap first second rest =>
      rw [weight_cons, weight_cons, weight_cons, weight_cons]
      omega
  | trans _ _ before after => exact before.trans after

theorem intercalate_length (sep : α) (some : lines ≠ []) :
    ([sep].intercalate lines).length + 1 = weight lines := by
  induction lines with
  | nil => exact absurd rfl some
  | cons line rest known =>
      rw [weight_cons]
      by_cases last : rest = []
      · rw [last, List.intercalate_singleton]
        rfl
      · rw [List.intercalate_cons_of_ne_nil last, List.length_append, List.length_append,
          List.length_singleton, ← known last]
        omega

def cut (most width : Nat) (lines : List (List α)) : List (List α) :=
  (lines.take most).map (List.take width)

theorem weight_cut_le (most width : Nat) (lines : List (List α)) :
    weight (cut most width lines) ≤ weight lines := by
  induction lines generalizing most with
  | nil =>
      rw [cut, List.take_nil]
      exact Nat.le_refl _
  | cons line rest known =>
      cases most with
      | zero => exact Nat.zero_le _
      | succ most =>
          have less : (line.take width).length ≤ line.length := by
            rw [List.length_take]
            exact Nat.min_le_right _ _
          have behind := known most
          rw [cut] at behind
          rw [cut, List.take_succ_cons, List.map_cons, weight_cons, weight_cons]
          omega

theorem weight_take_le (most : Nat) (lines : List (List α)) :
    weight (lines.take most) ≤ weight lines := by
  induction lines generalizing most with
  | nil =>
      have nothing : weight (([] : List (List α)).take most) = weight [] :=
        congrArg weight List.take_nil
      exact Nat.le_of_eq nothing
  | cons line rest known =>
      cases most with
      | zero => exact Nat.zero_le _
      | succ most =>
          have behind := known most
          rw [List.take_succ_cons, weight_cons, weight_cons]
          omega

/-- Nothing is cut off exactly from lines that are few and short. -/
theorem weight_cut_eq_iff (most width : Nat) (lines : List (List α)) :
    weight (cut most width lines) = weight lines ↔
      lines.length ≤ most ∧ ∀ line ∈ lines, line.length ≤ width := by
  induction lines generalizing most with
  | nil =>
      rw [cut, List.take_nil]
      simp
  | cons line rest known =>
      cases most with
      | zero =>
          rw [weight_cons]
          simp [cut, weight]
          omega
      | succ most =>
          have behind := known most
          have bound := weight_cut_le most width rest
          rw [cut] at behind bound
          rw [cut, List.take_succ_cons, List.map_cons, weight_cons, weight_cons, List.length_take,
            List.length_cons, Nat.add_le_add_iff_right, List.forall_mem_cons]
          constructor
          · intro same
            have rest_ : weight ((rest.take most).map (List.take width)) = weight rest := by omega
            rcases behind.mp rest_ with ⟨few, short⟩
            exact ⟨few, by omega, short⟩
          · rintro ⟨few, head, short⟩
            rw [behind.mpr ⟨few, short⟩]
            omega

theorem cut_eq_self {most width : Nat} (few : lines.length ≤ most)
    (short : ∀ line ∈ lines, line.length ≤ width) : cut most width lines = lines := by
  rw [cut, List.take_of_length_le few, List.map_congr_left fun line inside =>
    List.take_of_length_le (short line inside), List.map_id']

theorem cut_ne_nil {most width : Nat} (positive : 0 < most) (some : lines ≠ []) :
    cut most width lines ≠ [] := by
  cases lines with
  | nil => exact absurd rfl some
  | cons line rest =>
      cases most with
      | zero => exact absurd positive (Nat.lt_irrefl 0)
      | succ most => exact List.cons_ne_nil _ _

theorem intercalate_cut_length_le {most : Nat} (width : Nat) (sep : α) (positive : 0 < most)
    (some : lines ≠ []) :
    ([sep].intercalate (cut most width lines)).length ≤ ([sep].intercalate lines).length := by
  have bound := weight_cut_le most width lines
  rw [← intercalate_length sep (cut_ne_nil positive some), ← intercalate_length sep some] at bound
  omega

/-- The text of lines that were cut is the text exactly if nothing was cut. -/
theorem intercalate_cut_iff {most width : Nat} (positive : 0 < most) (some : lines ≠ []) :
    [sep].intercalate (cut most width lines) = [sep].intercalate lines ↔
      lines.length ≤ most ∧ ∀ line ∈ lines, line.length ≤ width := by
  constructor
  · intro same
    have lengths := congrArg List.length same
    rw [← weight_cut_eq_iff most width lines, ← intercalate_length sep (cut_ne_nil positive some),
      ← intercalate_length sep some, lengths]
  · rintro ⟨few, short⟩
    rw [cut_eq_self few short]

end Trinux.TextLines
