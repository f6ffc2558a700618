import Mathlib.Data.List.Basic
import Mathlib.Data.List.TakeWhile
import Mathlib.Tactic.Common

namespace Trinux.Fields

/-!
# Texts of lines and fields

A text over any alphabet is read line by line into a buffer of bounded size, and a line is split at
a separator into a bounded number of fields, the last of which takes what is left.
-/

variable {α : Type*}

/-! ## Lines made of fields -/

def joinFields (sep : α) : List (List α) → List α
  | [] => []
  | [field] => field
  | field :: rest => field ++ sep :: joinFields sep rest

def takeFields (room : Nat) : List (List α) → List (List α)
  | [] => [[]]
  | [field] => [field.take room]
  | field :: next :: rest =>
      if room ≤ field.length then [field.take room]
      else field :: takeFields (room - (field.length + 1)) (next :: rest)

theorem joinFields_length_cons {sep : α} (field next : List α) (rest : List (List α)) :
    (joinFields sep (field :: next :: rest)).length =
      field.length + 1 + (joinFields sep (next :: rest)).length := by
  rw [joinFields, List.length_append, List.length_cons]
  · omega
  · intro impossible
    cases impossible

variable [DecidableEq α]

/-! ## Lines -/

/-- The lines of a text, where one that does not fit into the buffer is continued in the next.  What
is in the buffer already comes first. -/
def walkLines (newline : α) (room : Nat) (line : List α) : List α → List (List α)
  | [] => if line = [] then [] else [line]
  | c :: rest =>
      if c = newline then line :: walkLines newline room [] rest
      else if line.length < room then walkLines newline room (line ++ [c]) rest
      else line :: walkLines newline room [c] rest

variable {newline sep : α} {room : Nat}

theorem walkLines_line (line rest before : List α) (clean : newline ∉ line)
    (fits : before.length + line.length ≤ room) :
    walkLines newline room before (line ++ newline :: rest) =
      (before ++ line) :: walkLines newline room [] rest := by
  induction line generalizing before with
  | nil =>
      rw [List.nil_append, walkLines, if_pos rfl, List.append_nil]
  | cons c line known =>
      rw [List.mem_cons, not_or] at clean
      rw [List.length_cons] at fits
      rw [List.cons_append, walkLines, if_neg (Ne.symm clean.1), if_pos (by omega),
        known (before ++ [c]) clean.2 (by rw [List.length_append, List.length_singleton]; omega),
        List.append_assoc, List.singleton_append]

/-- A last line that fits is read as it is, unless it is empty. -/
theorem walkLines_last (line before : List α) (clean : newline ∉ line)
    (fits : before.length + line.length ≤ room) :
    walkLines newline room before line = if before ++ line = [] then [] else [before ++ line] := by
  induction line generalizing before with
  | nil =>
      rw [walkLines, List.append_nil]
  | cons c line known =>
      rw [List.mem_cons, not_or] at clean
      rw [List.length_cons] at fits
      rw [walkLines, if_neg (Ne.symm clean.1), if_pos (by omega),
        known (before ++ [c]) clean.2 (by rw [List.length_append, List.length_singleton]; omega),
        List.append_assoc, List.singleton_append]

/-- No line has the sign that ends lines in it, and all signs are from the text. -/
theorem walkLines_clean (text before : List α) {line : List α}
    (member : line ∈ walkLines newline room before text) {c : α} (inside : c ∈ line) :
    c ∈ before ∨ (c ∈ text ∧ c ≠ newline) := by
  induction text generalizing before with
  | nil =>
      rw [walkLines] at member
      split at member
      · cases member
      · rw [List.mem_singleton.mp member] at inside
        exact Or.inl inside
  | cons d rest known =>
      rw [walkLines] at member
      split at member
      · rcases List.mem_cons.mp member with rfl | later
        · exact Or.inl inside
        · rcases known [] later with impossible | found
          · cases impossible
          · exact Or.inr ⟨List.mem_cons_of_mem _ found.1, found.2⟩
      · rename_i other
        split at member
        · rcases known (before ++ [d]) member with found | found
          · rcases List.mem_append.mp found with old | new
            · exact Or.inl old
            · rw [List.mem_singleton.mp new]
              exact Or.inr ⟨List.mem_cons_self, other⟩
          · exact Or.inr ⟨List.mem_cons_of_mem _ found.1, found.2⟩
        · rcases List.mem_cons.mp member with rfl | later
          · exact Or.inl inside
          · rcases known [d] later with new | found
            · rw [List.mem_singleton.mp new]
              exact Or.inr ⟨List.mem_cons_self, other⟩
            · exact Or.inr ⟨List.mem_cons_of_mem _ found.1, found.2⟩

/-! ## Fields -/

def splitFields (sep : α) : Nat → List α → List (List α)
  | 0, line => [line]
  | cuts + 1, line =>
      match line.dropWhile (· ≠ sep) with
      | [] => [line]
      | _ :: rest => line.takeWhile (· ≠ sep) :: splitFields sep cuts rest

theorem splitFields_of_notMem (cuts : Nat) {line : List α} (clean : sep ∉ line) :
    splitFields sep cuts line = [line] := by
  cases cuts with
  | zero => rfl
  | succ cuts =>
      have nothing : line.dropWhile (· ≠ sep) = [] := by
        refine List.dropWhile_eq_nil_iff.mpr fun c member => ?_
        exact decide_eq_true fun same => clean (same ▸ member)
      rw [splitFields, nothing]

theorem splitFields_cons (cuts : Nat) {field : List α} (rest : List α) (clean : sep ∉ field) :
    splitFields sep (cuts + 1) (field ++ sep :: rest) = field :: splitFields sep cuts rest := by
  have passes : ∀ c ∈ field, decide (c ≠ sep) = true :=
    fun c member => decide_eq_true fun same => clean (same ▸ member)
  have dropped : (sep :: rest).dropWhile (· ≠ sep) = sep :: rest := by simp
  have taken : (sep :: rest).takeWhile (· ≠ sep) = [] := by simp
  rw [splitFields, List.dropWhile_append_of_pos passes, dropped,
    List.takeWhile_append_of_pos passes, taken, List.append_nil]

/-- The fields are made of signs of the line, and only the one behind the last cut has the separator
in it. -/
theorem splitFields_clean (cuts : Nat) (line : List α) (i : Nat) {field : List α}
    (found : (splitFields sep cuts line)[i]? = some field) :
    (∀ c ∈ field, c ∈ line) ∧ (i < cuts → sep ∉ field) := by
  induction cuts generalizing line i with
  | zero =>
      rw [splitFields] at found
      cases i with
      | zero => cases found; exact ⟨fun _ member => member, fun impossible => by cases impossible⟩
      | succ i => cases found
  | succ cuts known =>
      have parts : line.takeWhile (· ≠ sep) ++ line.dropWhile (· ≠ sep) = line :=
        List.takeWhile_append_dropWhile
      rw [splitFields] at found
      split at found
      · rename_i nothing
        cases i with
        | zero =>
            cases found
            refine ⟨fun _ member => member, fun _ member => ?_⟩
            have passes := List.dropWhile_eq_nil_iff.mp nothing sep member
            exact of_decide_eq_true passes rfl
        | succ i => cases found
      · rename_i d rest dropped
        cases i with
        | zero =>
            cases found
            refine ⟨fun c member => ?_, fun _ member => ?_⟩
            · rw [← parts]
              exact List.mem_append_left _ member
            · have passes : (line.takeWhile (· ≠ sep)).all (· ≠ sep) = true := List.all_takeWhile
              exact of_decide_eq_true (List.all_eq_true.mp passes sep member) rfl
        | succ i =>
            rw [List.getElem?_cons_succ] at found
            rcases known rest i found with ⟨inside, clean⟩
            refine ⟨fun c member => ?_, fun below => clean (Nat.lt_of_succ_lt_succ below)⟩
            rw [← parts, dropped]
            exact List.mem_append_right _ (List.mem_cons_of_mem _ (inside c member))

theorem splitFields_prefix (cuts : Nat) (line : List α) {field : List α} {rest : List (List α)}
    (split : splitFields sep cuts line = field :: rest) : field <+: line := by
  cases cuts with
  | zero =>
      cases split
      exact List.prefix_refl _
  | succ cuts =>
      rw [splitFields] at split
      split at split
      · cases split
        exact List.prefix_refl _
      · cases split
        exact List.takeWhile_prefix _

/-! ## The beginning of a line -/

/-- The beginning of a line splits into the beginnings of its fields. -/
theorem splitFields_take (cuts : Nat) (room : Nat) (fields : List (List α))
    (few : fields.length ≤ cuts + 1)
    (clean : ∀ (i : Nat) (field : List α), fields[i]? = some field → i < cuts → sep ∉ field) :
    splitFields sep cuts ((joinFields sep fields).take room) = takeFields room fields := by
  induction fields generalizing cuts room with
  | nil =>
      rw [joinFields, List.take_nil, takeFields]
      exact splitFields_of_notMem cuts List.not_mem_nil
  | cons field rest known =>
      cases rest with
      | nil =>
          rw [joinFields, takeFields]
          cases cuts with
          | zero => rfl
          | succ cuts =>
              have own := clean 0 field rfl (Nat.succ_pos _)
              exact splitFields_of_notMem _ fun member => own (List.mem_of_mem_take member)
      | cons next rest =>
          rw [List.length_cons, List.length_cons] at few
          cases cuts with
          | zero => omega
          | succ cuts =>
              have own := clean 0 field rfl (Nat.succ_pos _)
              rw [joinFields, takeFields]
              · by_cases short : room ≤ field.length
                · rw [if_pos short, List.take_append_of_le_length short]
                  exact splitFields_of_notMem _ fun member => own (List.mem_of_mem_take member)
                · have split : room = field.length + (room - (field.length + 1) + 1) := by omega
                  rw [if_neg short, List.take_append, List.take_of_length_le (by omega),
                    show room - field.length = room - (field.length + 1) + 1 from by omega,
                    List.take_succ_cons, splitFields_cons _ _ own,
                    known cuts (room - (field.length + 1)) (by rw [List.length_cons]; omega)
                      fun i other found below => clean (i + 1) other found (by omega)]
              · intro impossible
                cases impossible

end Trinux.Fields
