import Mathlib

namespace Trinux
namespace Components

/-!
# Texts cut into components

A text over any alphabet is cut at a separator, and empty pieces are dropped.
Writing a separator before each component is the inverse on components that are
nonempty and free of separators.  Every fact is an induction over the places of
the separators, which `separated_induction` provides.
-/

variable {α : Type} [BEq α] [LawfulBEq α] (sep : α)

def tokens (text : List α) : List (List α) :=
  (text.splitOn sep).filter fun component => !component.isEmpty

def join (components : List (List α)) : List α :=
  components.flatMap fun component => sep :: component

structure IsComponent (component : List α) : Prop where
  nonempty : component ≠ []
  plain : sep ∉ component

variable {sep}

variable (sep) in
theorem separated_induction {motive : List α → Prop}
    (plain : ∀ text, sep ∉ text → motive text)
    (split : ∀ front back, sep ∉ front → motive back → motive (front ++ sep :: back))
    (text : List α) : motive text := by
  induction length : text.length using Nat.strong_induction_on generalizing text with
  | _ length known =>
      by_cases member : sep ∈ text
      · rcases List.eq_append_cons_of_mem member with ⟨front, back, rfl, absent⟩
        rw [List.length_append, List.length_cons] at length
        exact split front back absent (known back.length (by omega) back rfl)
      · exact plain text member

omit [LawfulBEq α] in
@[simp] theorem tokens_nil : tokens sep [] = [] := by
  rw [tokens, List.splitOn_nil]
  rfl

/-- A separator cuts the components before it from those behind it. -/
theorem tokens_append_sep (front back : List α) :
    tokens sep (front ++ sep :: back) = tokens sep front ++ tokens sep back := by
  rw [tokens, List.splitOn_append_cons_self, List.filter_append]
  rfl

@[simp] theorem tokens_sep (text : List α) : tokens sep (sep :: text) = tokens sep text := by
  have cut : tokens sep ([] ++ sep :: text) = tokens sep [] ++ tokens sep text :=
    tokens_append_sep [] text
  rwa [List.nil_append, tokens_nil, List.nil_append] at cut

theorem tokens_component {component : List α} (valid : IsComponent sep component) :
    tokens sep component = [component] := by
  rw [tokens, List.splitOn_eq_singleton valid.plain, List.filter_eq_self]
  intro piece member
  rw [List.mem_singleton.mp member]
  simpa using valid.nonempty

theorem tokens_plain {text : List α} (plain : sep ∉ text) :
    tokens sep text = if text = [] then [] else [text] := by
  split
  · rename_i empty
    rw [empty, tokens_nil]
  · rename_i nonempty
    exact tokens_component ⟨nonempty, plain⟩

theorem tokens_join {components : List (List α)}
    (valid : ∀ component ∈ components, IsComponent sep component) :
    tokens sep (join sep components) = components := by
  induction components with
  | nil => exact tokens_nil
  | cons component rest known =>
      have later := known fun other member => valid other (List.mem_cons_of_mem _ member)
      have head := tokens_component (valid component List.mem_cons_self)
      rw [join, List.flatMap_cons, List.cons_append, tokens_sep]
      cases rest with
      | nil => rw [List.flatMap_nil, List.append_nil, head]
      | cons next rest =>
          rw [join, List.flatMap_cons, List.cons_append, tokens_sep] at later
          rw [List.flatMap_cons, List.cons_append, tokens_append_sep, head, later]
          rfl

theorem isComponent_of_mem_tokens {text component : List α}
    (member : component ∈ tokens sep text) : IsComponent sep component := by
  induction text using separated_induction sep with
  | plain text absent =>
      rw [tokens_plain absent] at member
      split at member
      · cases member
      · rename_i nonempty
        rw [List.mem_singleton.mp member]
        exact ⟨nonempty, absent⟩
  | split front back absent known =>
      rw [tokens_append_sep, List.mem_append, tokens_plain absent] at member
      rcases member with first | later
      · split at first
        · cases first
        · rename_i nonempty
          rw [List.mem_singleton.mp first]
          exact ⟨nonempty, absent⟩
      · exact known later

theorem tokens_separators {text : List α} (separators : ∀ letter ∈ text, letter = sep) :
    tokens sep text = [] := by
  induction text with
  | nil => exact tokens_nil
  | cons letter rest known =>
      rw [separators letter List.mem_cons_self, tokens_sep]
      exact known fun other member => separators other (List.mem_cons_of_mem _ member)

theorem tokens_append_separators (text : List α) {rest : List α}
    (separators : ∀ letter ∈ rest, letter = sep) : tokens sep (text ++ rest) = tokens sep text := by
  cases rest with
  | nil => rw [List.append_nil]
  | cons letter rest =>
      have empty : tokens sep rest = [] :=
        tokens_separators fun other member => separators other (List.mem_cons_of_mem _ member)
      rw [separators letter List.mem_cons_self, tokens_append_sep, empty, List.append_nil]

/-- The components hold the letters of the text that are not separators. -/
theorem flatten_tokens (text : List α) :
    (tokens sep text).flatten = text.filter fun letter => !(letter == sep) := by
  have whole : ∀ front : List α, sep ∉ front →
      (front.filter fun letter => !(letter == sep)) = front := by
    intro front absent
    apply List.filter_eq_self.mpr
    intro letter member
    simp only [Bool.not_eq_true', beq_eq_false_iff_ne, ne_eq]
    rintro rfl
    exact absent member
  have flat : ∀ front : List α, sep ∉ front → (tokens sep front).flatten = front := by
    intro front absent
    rw [tokens_plain absent]
    split
    · rename_i empty
      rw [empty]
      rfl
    · exact List.flatten_singleton
  induction text using separated_induction sep with
  | plain text absent => rw [flat text absent, whole text absent]
  | split front back absent known =>
      rw [tokens_append_sep, List.flatten_append, flat front absent, known, List.filter_append,
        whole front absent, List.filter_cons_of_neg (by simp)]

end Components
end Trinux
