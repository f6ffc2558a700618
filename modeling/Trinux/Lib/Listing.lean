import Mathlib

namespace Trinux
namespace Listing

/-!
# Ordered trees and their parent-indexed listings

A listing of a tree is its preorder sequence in which every entry names the
position of its parent.  A heap presents a tree through a child function on its
cells, and it presents exactly the trees whose listings lay out its child
lists: the children of the entry at a position are the entries that name that
position, in order.

A sequential loader only knows a listing.  Attaching each entry behind the
earlier children of its parent lays out the listing, so the heap it builds
presents the listed tree.  Conversely, two listings laid out over the same child
function with the same root agree wherever their parent columns do, which is
how a difference at one position refutes that two heaps present one tree.
-/

variable {α β γ : Type*}

inductive OrderedTree (α : Type*) where
  | node (label : α) (children : List (OrderedTree α))

namespace OrderedTree

def root : OrderedTree α → α
  | .node label _ => label

mutual

def size : OrderedTree α → Nat
  | .node _ children => forestSize children + 1

def forestSize : List (OrderedTree α) → Nat
  | [] => 0
  | tree :: rest => tree.size + forestSize rest

end

mutual

def map (view : α → β) : OrderedTree α → OrderedTree β
  | .node label children => .node (view label) (forestMap view children)

def forestMap (view : α → β) : List (OrderedTree α) → List (OrderedTree β)
  | [] => []
  | tree :: rest => tree.map view :: forestMap view rest

end

mutual

def relabel (name : Nat → β) (start : Nat) : OrderedTree α → OrderedTree β
  | .node _ children => .node (name start) (forestRelabel name (start + 1) children)

def forestRelabel (name : Nat → β) (start : Nat) : List (OrderedTree α) → List (OrderedTree β)
  | [] => []
  | tree :: rest => tree.relabel name start :: forestRelabel name (start + tree.size) rest

end

mutual

/-- The preorder listing of a tree placed at position `start` below `parent`. -/
def listing (parent : Int) (start : Nat) : OrderedTree α → List (Int × α)
  | .node label children => (parent, label) :: forestListing start (start + 1) children

def forestListing (parent : Int) (start : Nat) : List (OrderedTree α) → List (Int × α)
  | [] => []
  | tree :: rest => tree.listing parent start ++ forestListing parent (start + tree.size) rest

end

mutual

def Presents (children : α → List α) : OrderedTree α → Prop
  | .node label subtrees => children label = subtrees.map root ∧ ForestPresents children subtrees

def ForestPresents (children : α → List α) : List (OrderedTree α) → Prop
  | [] => True
  | tree :: rest => tree.Presents children ∧ ForestPresents children rest

end

end OrderedTree

open Listing.OrderedTree

/-! ## Sizes and labels of a listing -/

theorem size_pos (tree : OrderedTree α) : 0 < tree.size := by
  cases tree
  simp [OrderedTree.size]

mutual

@[simp] theorem listing_length (parent : Int) (start : Nat) :
    ∀ tree : OrderedTree α, (tree.listing parent start).length = tree.size
  | .node label children => by
      rw [OrderedTree.listing, List.length_cons, OrderedTree.size, forestListing_length]

@[simp] theorem forestListing_length (parent : Int) (start : Nat) :
    ∀ forest : List (OrderedTree α), (forestListing parent start forest).length = forestSize forest
  | [] => rfl
  | tree :: rest => by
      rw [forestListing, List.length_append, forestSize, listing_length, forestListing_length]

end

mutual

@[simp] theorem map_size (view : α → β) : ∀ tree : OrderedTree α, (tree.map view).size = tree.size
  | .node label children => by rw [OrderedTree.map, OrderedTree.size, OrderedTree.size, forestMap_size]

@[simp] theorem forestMap_size (view : α → β) :
    ∀ forest : List (OrderedTree α), forestSize (forestMap view forest) = forestSize forest
  | [] => rfl
  | tree :: rest => by rw [forestMap, forestSize, forestSize, map_size, forestMap_size]

end

mutual

@[simp] theorem relabel_size (name : Nat → β) :
    ∀ (start : Nat) (tree : OrderedTree α), (tree.relabel name start).size = tree.size
  | start, .node label children => by
      rw [OrderedTree.relabel, OrderedTree.size, OrderedTree.size, forestRelabel_size]

@[simp] theorem forestRelabel_size (name : Nat → β) :
    ∀ (start : Nat) (forest : List (OrderedTree α)),
      forestSize (forestRelabel name start forest) = forestSize forest
  | _, [] => rfl
  | start, tree :: rest => by
      rw [forestRelabel, forestSize, forestSize, relabel_size, forestRelabel_size]

end

mutual

/-- Relabelling a tree relabels its listing entry by entry. -/
theorem listing_map (view : α → β) (parent : Int) (start : Nat) :
    ∀ tree : OrderedTree α, (tree.map view).listing parent start =
      (tree.listing parent start).map fun entry => (entry.1, view entry.2)
  | .node label children => by
      rw [OrderedTree.map, OrderedTree.listing, OrderedTree.listing, List.map_cons, forestListing_map]

theorem forestListing_map (view : α → β) (parent : Int) (start : Nat) :
    ∀ forest : List (OrderedTree α), forestListing parent start (forestMap view forest) =
      (forestListing parent start forest).map fun entry => (entry.1, view entry.2)
  | [] => rfl
  | tree :: rest => by
      rw [forestMap, forestListing, forestListing, List.map_append, map_size, listing_map,
        forestListing_map]

end

mutual

/-- The listing of a relabelled tree keeps its parent column and names the positions. -/
theorem listing_relabel (name : Nat → β) (parent : Int) :
    ∀ (start : Nat) (tree : OrderedTree α), (tree.relabel name start).listing parent start =
      (tree.listing parent start).mapIdx fun index entry => (entry.1, name (start + index))
  | start, .node label children => by
      rw [OrderedTree.relabel, OrderedTree.listing, OrderedTree.listing, List.mapIdx_cons, Nat.add_zero,
        forestListing_relabel name start (start + 1) children]
      simp only [Nat.add_zero, Nat.add_assoc, Nat.add_comm 1]

theorem forestListing_relabel (name : Nat → β) (parent : Int) :
    ∀ (start : Nat) (forest : List (OrderedTree α)),
      forestListing parent start (forestRelabel name start forest) =
        (forestListing parent start forest).mapIdx
          fun index entry => (entry.1, name (start + index))
  | _, [] => rfl
  | start, tree :: rest => by
      rw [forestRelabel, forestListing, forestListing, List.mapIdx_append, listing_length,
        relabel_size, listing_relabel name parent start tree,
        forestListing_relabel name parent (start + tree.size) rest]
      simp only [Nat.add_assoc, Nat.add_comm tree.size]

end

mutual

/-- Two labellings that agree position by position relabel a tree to the same image. -/
theorem map_relabel (first : α → γ) (second : β → γ) (name : Nat → β) (parent : Int) :
    ∀ (start : Nat) (tree : OrderedTree α),
      (∀ index (inside : index < (tree.listing parent start).length),
        second (name (start + index)) = first (tree.listing parent start)[index].2) →
      (tree.relabel name start).map second = tree.map first
  | start, .node label children, agree => by
      have head := agree 0 (by simp [OrderedTree.listing])
      have rest := forestMap_forestRelabel first second name start (start + 1) children (by
        intro index inside
        have deeper := agree (index + 1) (by simpa [OrderedTree.listing] using inside)
        simpa [OrderedTree.listing, Nat.add_assoc, Nat.add_comm 1] using deeper)
      simp only [Nat.add_zero, OrderedTree.listing, List.getElem_cons_zero] at head
      rw [OrderedTree.relabel, OrderedTree.map, OrderedTree.map, head, rest]

theorem forestMap_forestRelabel (first : α → γ) (second : β → γ) (name : Nat → β)
    (parent : Int) :
    ∀ (start : Nat) (forest : List (OrderedTree α)),
      (∀ index (inside : index < (forestListing parent start forest).length),
        second (name (start + index)) = first (forestListing parent start forest)[index].2) →
      forestMap second (forestRelabel name start forest) = forestMap first forest
  | _, [], _ => rfl
  | start, tree :: rest, agree => by
      have here := map_relabel first second name parent start tree (by
        intro index inside
        have found := agree index (by simp [forestListing] at inside ⊢; omega)
        simpa [forestListing, List.getElem_append_left inside] using found)
      have there := forestMap_forestRelabel first second name parent (start + tree.size) rest (by
        intro index inside
        have found := agree (tree.size + index) (by simp [forestListing] at inside ⊢; omega)
        simpa [forestListing, List.getElem_append_right, Nat.add_assoc] using found)
      rw [forestRelabel, forestMap, forestMap, here, there]

end

/-! ## Which parents a listing names -/

def childrenAt (entries : List (Int × α)) (position : Int) : List α :=
  (entries.filter fun entry => entry.1 = position).map Prod.snd

@[simp] theorem childrenAt_nil (position : Int) :
    childrenAt ([] : List (Int × α)) position = [] := rfl

theorem childrenAt_cons (entry : Int × α) (entries : List (Int × α)) (position : Int) :
    childrenAt (entry :: entries) position =
      (if entry.1 = position then [entry.2] else []) ++ childrenAt entries position := by
  unfold childrenAt
  by_cases here : entry.1 = position <;> simp [here]

@[simp] theorem childrenAt_append (front back : List (Int × α)) (position : Int) :
    childrenAt (front ++ back) position = childrenAt front position ++ childrenAt back position := by
  simp [childrenAt]

mutual

/-- Before the positions a tree occupies, only its own parent is named. -/
theorem listing_childrenAt (parent : Int) (start : Nat) (position : Int)
    (outside : position < start) :
    ∀ tree : OrderedTree α, childrenAt (tree.listing parent start) position =
      if parent = position then [tree.root] else []
  | .node label children => by
      rw [OrderedTree.listing, childrenAt_cons,
        forestListing_childrenAt start (start + 1) position (by omega) children,
        if_neg (show ¬((start : Int) = position) by omega), List.append_nil, OrderedTree.root]

theorem forestListing_childrenAt (parent : Int) (start : Nat) (position : Int)
    (outside : position < start) :
    ∀ forest : List (OrderedTree α), childrenAt (forestListing parent start forest) position =
      if parent = position then forest.map OrderedTree.root else []
  | [] => by simp [forestListing]
  | tree :: rest => by
      rw [forestListing, childrenAt_append,
        listing_childrenAt parent start position outside tree,
        forestListing_childrenAt parent (start + tree.size) position (by omega) rest]
      by_cases here : parent = position <;> simp [here]

end

mutual

/-- Every entry of a listing names the given parent or an earlier position of the listing. -/
theorem listing_parent (parent : Int) :
    ∀ (start : Nat) (tree : OrderedTree α) (index : Nat)
      (inside : index < (tree.listing parent start).length),
      (tree.listing parent start)[index].1 = parent ∨
        (start : Int) ≤ (tree.listing parent start)[index].1 ∧
          (tree.listing parent start)[index].1 < start + index
  | start, .node label children, 0, _ => Or.inl (by simp [OrderedTree.listing])
  | start, .node label children, index + 1, inside => by
      have deeper := forestListing_parent start (start + 1) children index
        (by simpa [OrderedTree.listing] using inside)
      simp only [OrderedTree.listing, List.getElem_cons_succ]
      omega

theorem forestListing_parent (parent : Int) :
    ∀ (start : Nat) (forest : List (OrderedTree α)) (index : Nat)
      (inside : index < (forestListing parent start forest).length),
      (forestListing parent start forest)[index].1 = parent ∨
        (start : Int) ≤ (forestListing parent start forest)[index].1 ∧
          (forestListing parent start forest)[index].1 < start + index
  | _, [], _, inside => by simp [forestListing] at inside
  | start, tree :: rest, index, inside => by
      simp only [forestListing]
      by_cases first : index < tree.size
      · rw [List.getElem_append_left (by simpa using first)]
        exact listing_parent parent start tree index (by simpa using first)
      · obtain ⟨later, rfl⟩ := Nat.exists_eq_add_of_le (Nat.le_of_not_lt first)
        have there := forestListing_parent parent (start + tree.size) rest later
          (by simp [forestListing] at inside ⊢; omega)
        rw [List.getElem_append_right (by simp)]
        simp only [listing_length, Nat.add_sub_cancel_left]
        omega

end

/-- Behind the root every entry of a listing names an earlier position. -/
theorem listing_earlier (tree : OrderedTree α) (index : Nat)
    (inside : index < (tree.listing (-1) 0).length) (later : 0 < index) :
    0 ≤ (tree.listing (-1) 0)[index].1 ∧ (tree.listing (-1) 0)[index].1 < index := by
  obtain ⟨label, children⟩ := tree
  obtain ⟨before, rfl⟩ : ∃ before, index = before + 1 := ⟨index - 1, by omega⟩
  have found := forestListing_parent 0 1 children before
    (by simpa [OrderedTree.listing] using inside)
  simp only [OrderedTree.listing, List.getElem_cons_succ, Nat.cast_zero, Nat.cast_one,
    Nat.zero_add] at found ⊢
  omega

/-- Positions behind the end of a tree are named by none of its entries. -/
theorem listing_childrenAt_behind (parent : Int) (start : Nat) (position : Int)
    (tree : OrderedTree α) (elsewhere : parent ≠ position) (behind : start + tree.size ≤ position) :
    childrenAt (tree.listing parent start) position = [] := by
  rw [childrenAt, List.map_eq_nil_iff, List.filter_eq_nil_iff]
  intro entry member named
  obtain ⟨index, inside, rfl⟩ := List.getElem_of_mem member
  have bound := listing_parent parent start tree index inside
  simp only [decide_eq_true_eq] at named
  rw [listing_length] at inside
  omega

/-! ## Presented trees are exactly the laid-out listings -/

def LaidOut (children : α → List α) (start : Nat) (entries : List (Int × α)) : Prop :=
  ∀ index (inside : index < entries.length),
    children entries[index].2 = childrenAt entries (start + index)

/-- A listing followed by entries that name none of its positions. -/
theorem LaidOut.left {children : α → List α} {start : Nat} {front back : List (Int × α)}
    (laid : LaidOut children start (front ++ back))
    (elsewhere : ∀ index : Nat, index < front.length → childrenAt back (start + index) = []) :
    LaidOut children start front := by
  intro index inside
  have found := laid index (by simp; omega)
  rw [List.getElem_append_left inside, childrenAt_append, elsewhere index inside,
    List.append_nil] at found
  exact found

/-- A listing preceded by entries that name none of its positions. -/
theorem LaidOut.right {children : α → List α} {start : Nat} {front back : List (Int × α)}
    (laid : LaidOut children start (front ++ back))
    (elsewhere : ∀ index : Nat, index < back.length →
      childrenAt front (start + front.length + index) = []) :
    LaidOut children (start + front.length) back := by
  intro index inside
  have found := laid (front.length + index) (by simp; omega)
  rw [List.getElem_append_right (by omega), childrenAt_append] at found
  simp only [Nat.add_sub_cancel_left, Nat.cast_add, ← Int.add_assoc] at found
  rw [elsewhere index inside, List.nil_append] at found
  rw [found, Nat.cast_add]

/-- Two adjacent listings that do not name each other's positions. -/
theorem LaidOut.append {children : α → List α} {start : Nat} {front back : List (Int × α)}
    (laidFront : LaidOut children start front)
    (laidBack : LaidOut children (start + front.length) back)
    (frontElsewhere : ∀ index : Nat, index < back.length →
      childrenAt front (start + front.length + index) = [])
    (backElsewhere : ∀ index : Nat, index < front.length →
      childrenAt back (start + index) = []) :
    LaidOut children start (front ++ back) := by
  intro index inside
  rw [childrenAt_append]
  by_cases first : index < front.length
  · rw [List.getElem_append_left first, laidFront index first, backElsewhere index first,
      List.append_nil]
  · obtain ⟨later, rfl⟩ := Nat.exists_eq_add_of_le (Nat.le_of_not_lt first)
    have inBack : later < back.length := by simp at inside; omega
    have found := laidBack later inBack
    rw [List.getElem_append_right (by omega)]
    simp only [Nat.add_sub_cancel_left]
    rw [found]
    simp only [Nat.cast_add, ← Int.add_assoc]
    rw [frontElsewhere later inBack, List.nil_append]

mutual

theorem presents_iff_laidOut (children : α → List α) (parent : Int) :
    ∀ (start : Nat) (_ : parent < start) (tree : OrderedTree α),
      tree.Presents children ↔ LaidOut children start (tree.listing parent start)
  | start, below, .node label subtrees => by
      have top : childrenAt (forestListing start (start + 1) subtrees) start =
          subtrees.map OrderedTree.root := by
        rw [forestListing_childrenAt _ _ _ (by omega), if_pos rfl]
      have split := forestPresents_iff_laidOut children start (start + 1) (by omega) subtrees
      rw [OrderedTree.Presents, split, OrderedTree.listing]
      constructor
      · rintro ⟨here, there⟩ index inside
        rw [childrenAt_cons, if_neg (by simp only; omega), List.nil_append]
        cases index with
        | zero => rw [Nat.cast_zero, add_zero, top]; exact here
        | succ index =>
            have found := there index (by simpa using inside)
            rw [List.getElem_cons_succ, found]
            congr 1
            omega
      · intro laid
        constructor
        · have found := laid 0 (by simp)
          rw [childrenAt_cons, if_neg (by simp only; omega), List.nil_append, Nat.cast_zero,
            add_zero, top] at found
          exact found
        · intro index inside
          have found := laid (index + 1) (by simpa using inside)
          rw [childrenAt_cons, if_neg (by simp only; omega), List.nil_append] at found
          rw [List.getElem_cons_succ] at found
          rw [found]
          congr 1
          omega

theorem forestPresents_iff_laidOut (children : α → List α) (parent : Int) :
    ∀ (start : Nat) (_ : parent < start) (forest : List (OrderedTree α)),
      ForestPresents children forest ↔
        LaidOut children start (forestListing parent start forest)
  | _, _, [] => by
      rw [ForestPresents, forestListing, true_iff]
      intro index inside
      simp at inside
  | start, below, tree :: rest => by
      have first := presents_iff_laidOut children parent start below tree
      have others := forestPresents_iff_laidOut children parent (start + tree.size) (by omega) rest
      have behind : ∀ index : Nat, index < (forestListing parent (start + tree.size) rest).length →
          childrenAt (tree.listing parent start) (start + tree.size + index) = [] := by
        intro index _
        exact listing_childrenAt_behind _ _ _ _ (by omega) (by omega)
      have before : ∀ index : Nat, index < (tree.listing parent start).length →
          childrenAt (forestListing parent (start + tree.size) rest) (start + index) = [] := by
        intro index inside
        rw [listing_length] at inside
        rw [forestListing_childrenAt _ _ _ (by omega), if_neg (by omega)]
      rw [ForestPresents, first, others, forestListing]
      constructor
      · rintro ⟨here, there⟩
        exact here.append (by rwa [listing_length]) (by simpa using behind) before
      · intro laid
        have there := laid.right (by simpa using behind)
        rw [listing_length] at there
        exact ⟨laid.left before, there⟩

end

mutual

/-- A child function presents at most one tree below a cell. -/
theorem presents_unique (children : α → List α) :
    ∀ first second : OrderedTree α, first.root = second.root → first.Presents children →
      second.Presents children → first = second
  | .node label left, .node label' right, same, presents, presents' => by
      rw [OrderedTree.root, OrderedTree.root] at same
      subst same
      rw [OrderedTree.Presents] at presents presents'
      rw [forestPresents_unique children left right (presents.1.symm.trans presents'.1)
        presents.2 presents'.2]

theorem forestPresents_unique (children : α → List α) :
    ∀ first second : List (OrderedTree α),
      first.map OrderedTree.root = second.map OrderedTree.root →
      ForestPresents children first → ForestPresents children second → first = second
  | [], [], _, _, _ => rfl
  | [], _ :: _, same, _, _ => by cases same
  | _ :: _, [], same, _, _ => by cases same
  | tree :: rest, tree' :: rest', same, presents, presents' => by
      rw [List.map_cons, List.map_cons, List.cons.injEq] at same
      rw [ForestPresents] at presents presents'
      rw [presents_unique children tree tree' same.1 presents.1 presents'.1,
        forestPresents_unique children rest rest' same.2 presents.2 presents'.2]

end

/-! ## Listings over one child function -/

/-- The first entries of two listings with one parent column have children in equal number. -/
theorem childrenAt_length_congr {first second : List (Int × α)}
    (column : first.map Prod.fst = second.map Prod.fst) (position : Int) :
    (childrenAt first position).length = (childrenAt second position).length := by
  have count : ∀ entries : List (Int × α),
      (childrenAt entries position).length = (entries.map Prod.fst).count position := by
    intro entries
    rw [childrenAt, List.length_map, ← List.countP_eq_length_filter, List.count,
      List.countP_map]
    rfl
  rw [count, count, column]

/-- The children of a position split at any entry naming it. -/
theorem childrenAt_split (entries : List (Int × α)) (index : Nat) (inside : index < entries.length) :
    childrenAt entries entries[index].1 =
      childrenAt (entries.take index) entries[index].1 ++
        entries[index].2 :: childrenAt (entries.drop (index + 1)) entries[index].1 := by
  have split : entries.take index ++ entries[index] :: entries.drop (index + 1) = entries := by
    rw [List.getElem_cons_drop, List.take_append_drop]
  have parts := congrArg (childrenAt · entries[index].1) split
  rw [childrenAt_append, childrenAt_cons, if_pos rfl] at parts
  exact parts.symm

/-- A listing of the whole tree and a partial listing over the same child function name the
same cells as far as their parent columns agree. -/
theorem laidOut_agree (children : α → List α) (whole part : List (Int × α))
    (laid : LaidOut children 0 whole)
    (partial' : ∀ index (inside : index < part.length),
      childrenAt part (index : Int) <+: children part[index].2)
    (short : part.length ≤ whole.length)
    (column : part.map Prod.fst = (whole.take part.length).map Prod.fst)
    (earlier : ∀ index (inside : index < whole.length), 0 < index →
      0 ≤ whole[index].1 ∧ whole[index].1 < index)
    (roots : ∀ (first : 0 < part.length), whole[0].2 = part[0].2) :
    ∀ index (inside : index < part.length), whole[index].2 = part[index].2 := by
  intro index
  induction index using Nat.strong_induction_on with
  | _ index known =>
    intro inside
    rcases Nat.eq_zero_or_pos index with rfl | positive
    · exact roots inside
    have sameParent : part[index].1 = whole[index].1 := by
      have := congrArg (fun list => list[index]?) column
      simpa [inside, Nat.lt_of_lt_of_le inside short] using this
    obtain ⟨low, high⟩ := earlier index (by omega) positive
    obtain ⟨parent, isParent⟩ := Int.eq_ofNat_of_zero_le low
    have parentInside : parent < part.length := by omega
    have sameCell := known parent (by omega) parentInside
    have wholeChildren := laid parent (by omega)
    rw [sameCell, Nat.cast_zero, zero_add] at wholeChildren
    have pref := partial' parent parentInside
    rw [wholeChildren] at pref
    have splitWhole := childrenAt_split whole index (by omega)
    have splitPart := childrenAt_split part index inside
    rw [sameParent] at splitPart
    rw [isParent] at splitWhole splitPart
    have sameRank : (childrenAt (part.take index) parent).length =
        (childrenAt (whole.take index) parent).length := by
      apply childrenAt_length_congr
      have := congrArg (List.take index) column
      simpa [List.map_take, List.take_take, Nat.min_eq_left inside.le] using this
    rw [splitWhole, splitPart] at pref
    have inPart : (childrenAt (part.take index) parent).length <
        (childrenAt (part.take index) parent ++
          part[index].2 :: childrenAt (part.drop (index + 1)) parent).length := by simp
    have found := pref.getElem inPart
    rw [List.getElem_append_right (by omega), List.getElem_append_right (by omega)] at found
    simpa [sameRank] using found.symm

/-- A complete listing is no shorter than any listing of the whole tree. -/
theorem laidOut_length_le (children : α → List α) (whole part : List (Int × α))
    (laid : LaidOut children 0 whole) (laidPart : LaidOut children 0 part)
    (column : part.map Prod.fst = (whole.take part.length).map Prod.fst)
    (nonempty : 0 < part.length)
    (earlier : ∀ index (inside : index < whole.length), 0 < index →
      0 ≤ whole[index].1 ∧ whole[index].1 < index)
    (roots : ∀ (some : 0 < whole.length), whole[0].2 = part[0].2) :
    whole.length ≤ part.length := by
  by_contra longer
  have inside : part.length < whole.length := by omega
  have agree := laidOut_agree children whole part laid
    (fun index inside => by
      have := laidPart index inside
      rw [Nat.cast_zero, zero_add] at this
      rw [this])
    inside.le column earlier (fun _ => roots (by omega))
  obtain ⟨low, high⟩ := earlier part.length inside nonempty
  obtain ⟨parent, isParent⟩ := Int.eq_ofNat_of_zero_le low
  have parentInside : parent < part.length := by omega
  have wholeChildren := laid parent (by omega)
  have partChildren := laidPart parent parentInside
  rw [agree parent parentInside, partChildren] at wholeChildren
  rw [Nat.cast_zero, zero_add] at wholeChildren
  have split := childrenAt_split whole part.length inside
  rw [isParent] at split
  have sameLength := childrenAt_length_congr column parent
  have lengths := congrArg List.length wholeChildren
  rw [split, List.length_append, List.length_cons] at lengths
  omega

end Listing
end Trinux
