import Mathlib

namespace Trinux.InsertionSort

/-!
# Insertion sort with any comparison

The loops of an insertion sort compare each element with the sorted part from its end on.  Whatever
the comparison says, the result is a permutation; it is sorted exactly if every comparison that the
sort depends on is right, and then elements of one rank keep their order.
-/

variable {α κ : Type}

def insertBack (swap : α → α → Bool) (key : α) : List α → List α
  | [] => [key]
  | x :: rest => if swap x key then x :: insertBack swap key rest else key :: x :: rest

def sortBack (swap : α → α → Bool) (elements : List α) : List α :=
  elements.foldl (fun sorted key => insertBack swap key sorted) []

section Permutation

variable (swap : α → α → Bool)

theorem insertBack_eq (key : α) (sorted : List α) :
    insertBack swap key sorted =
      sorted.takeWhile (swap · key) ++ key :: sorted.dropWhile (swap · key) := by
  induction sorted with
  | nil => rfl
  | cons x rest known =>
      rw [insertBack]
      cases swaps : swap x key with
      | true =>
          rw [if_pos rfl, known]
          simp only [List.takeWhile_cons, List.dropWhile_cons, swaps, if_true, List.cons_append]
      | false =>
          rw [if_neg Bool.false_ne_true]
          simp only [List.takeWhile_cons, List.dropWhile_cons, swaps, Bool.false_eq_true, if_false,
            List.nil_append]

theorem insertBack_perm (key : α) (sorted : List α) :
    (insertBack swap key sorted).Perm (key :: sorted) := by
  rw [insertBack_eq]
  have whole := @List.takeWhile_append_dropWhile _ (swap · key) sorted
  refine List.perm_middle.trans ?_
  rw [whole]

theorem sortBack_snoc (before : List α) (key : α) :
    sortBack swap (before ++ [key]) = insertBack swap key (sortBack swap before) := by
  rw [sortBack, List.foldl_append]
  rfl

theorem sortBack_perm (elements : List α) : (sortBack swap elements).Perm elements := by
  induction elements using List.reverseRecOn with
  | nil => exact .nil
  | append_singleton before key known =>
      rw [sortBack_snoc]
      exact (insertBack_perm swap key _).trans
        ((known.cons key).trans (List.perm_append_singleton key before).symm)

end Permutation

section Order

variable [LinearOrder κ] (rank : α → κ) (swap : α → α → Bool)

def SortedBack (elements : List α) : Prop :=
  elements.Pairwise fun later earlier => rank earlier ≤ rank later

structure ByRank : Prop where
  congr : ∀ {x y}, rank x = rank y → ∀ key, swap x key = swap y key
  still : ∀ {x key}, rank x = rank key → swap x key = false

/-- The comparison is right where the place of an element depends on it: for greater elements, and
for the greatest of the others. -/
structure RightFor (before : List α) (key : α) : Prop where
  greater : ∀ x ∈ before, rank key < rank x → swap x key = true
  greatest : ∀ x ∈ before, rank x ≤ rank key →
    (∀ y ∈ before, rank y ≤ rank key → rank y ≤ rank x) → swap x key = false

def SortsRight (elements : List α) : Prop :=
  ∀ before key after, elements = before ++ key :: after → RightFor rank swap before key

theorem sortsRight_snoc {before : List α} {key : α} :
    SortsRight rank swap (before ++ [key]) ↔
      SortsRight rank swap before ∧ RightFor rank swap before key := by
  constructor
  · intro right
    refine ⟨fun first x rest same => right first x (rest ++ [key]) ?_, right before key [] rfl⟩
    rw [same, List.append_assoc]
    rfl
  · rintro ⟨right, last⟩ first x rest same
    rcases List.eq_nil_or_concat rest with rfl | ⟨rest', y, rfl⟩
    · rcases List.append_inj' same rfl with ⟨rfl, tail⟩
      cases tail
      exact last
    · rw [List.concat_eq_append, ← List.cons_append, ← List.append_assoc] at same
      exact right first x rest' (List.append_inj' same rfl).1

variable {rank swap} {key : α} {sorted before : List α}

theorem RightFor.perm (same : sorted.Perm before) :
    RightFor rank swap sorted key ↔ RightFor rank swap before key := by
  constructor
  · rintro ⟨greater, greatest⟩
    exact ⟨fun x inside => greater x (same.mem_iff.mpr inside), fun x inside below most =>
      greatest x (same.mem_iff.mpr inside) below fun y there => most y (same.mem_iff.mp there)⟩
  · rintro ⟨greater, greatest⟩
    exact ⟨fun x inside => greater x (same.mem_iff.mp inside), fun x inside below most =>
      greatest x (same.mem_iff.mp inside) below fun y there => most y (same.mem_iff.mpr there)⟩

/-- The parts of the sorted elements if the comparison is right. -/
theorem RightFor.parts (right : RightFor rank swap sorted key) (isSorted : SortedBack rank sorted) :
    (∀ x ∈ sorted.takeWhile (swap · key), rank key < rank x) ∧
      ∀ x ∈ sorted.dropWhile (swap · key), rank x ≤ rank key := by
  induction sorted with
  | nil => exact ⟨fun _ inside => absurd inside List.not_mem_nil,
      fun _ inside => absurd inside List.not_mem_nil⟩
  | cons first rest known =>
      rcases List.pairwise_cons.mp isSorted with ⟨least, isSorted'⟩
      rcases lt_or_ge (rank key) (rank first) with above | below
      · have swaps := right.greater first List.mem_cons_self above
        have right' : RightFor rank swap rest key := by
          refine ⟨fun x inside => right.greater x (List.mem_cons_of_mem _ inside),
            fun x inside below most => right.greatest x (List.mem_cons_of_mem _ inside) below ?_⟩
          intro y there below'
          rcases List.mem_cons.mp there with rfl | there
          · exact absurd below' (not_le.mpr above)
          · exact most y there below'
        rcases known right' isSorted' with ⟨front, back⟩
        simp only [List.takeWhile_cons, List.dropWhile_cons, swaps, if_true]
        exact ⟨List.forall_mem_cons.mpr ⟨above, front⟩, back⟩
      · have stays := right.greatest first List.mem_cons_self below (by
          intro y there _
          rcases List.mem_cons.mp there with rfl | there
          · exact le_refl _
          · exact least y there)
        simp only [List.takeWhile_cons, List.dropWhile_cons, stays, Bool.false_eq_true, if_false]
        refine ⟨fun _ inside => absurd inside List.not_mem_nil,
          List.forall_mem_cons.mpr ⟨below, ?_⟩⟩
        exact fun x inside => le_trans (least x inside) below

/-- One element is inserted at a right place exactly if the comparison is right. -/
theorem insertBack_sorted_iff (byRank : ByRank rank swap) (isSorted : SortedBack rank sorted) :
    SortedBack rank (insertBack swap key sorted) ↔ RightFor rank swap sorted key := by
  have whole := @List.takeWhile_append_dropWhile _ (swap · key) sorted
  rw [insertBack_eq, SortedBack, List.pairwise_append, List.pairwise_cons]
  constructor
  · rintro ⟨-, ⟨behind, -⟩, across⟩
    have place : ∀ x ∈ sorted, (swap x key = true ∧ rank key ≤ rank x) ∨
        x ∈ sorted.dropWhile (swap · key) ∧ rank x ≤ rank key := by
      intro x inside
      rw [← whole] at inside
      rcases List.mem_append.mp inside with front | back
      · exact Or.inl ⟨@List.mem_takeWhile_imp _ (swap · key) _ _ front,
          across x front key List.mem_cons_self⟩
      · exact Or.inr ⟨back, behind x back⟩
    constructor
    · intro x inside above
      rcases place x inside with ⟨swaps, -⟩ | ⟨-, below⟩
      · exact swaps
      · exact absurd below (not_le.mpr above)
    · intro x inside below most
      rcases place x inside with ⟨-, above⟩ | ⟨back, -⟩
      · exact byRank.still (le_antisymm below above)
      · cases tail : sorted.dropWhile (swap · key) with
        | nil =>
            rw [tail] at back
            cases back
        | cons first rest =>
            have stays : swap first key = false := by
              have stop := List.head?_dropWhile_not (swap · key) sorted
              rw [tail] at stop
              simpa using stop
            have member : first ∈ sorted := by
              rw [← whole, tail]
              exact List.mem_append_right _ List.mem_cons_self
            have behindFirst : rank x ≤ rank first := by
              rw [tail] at back
              rcases List.mem_cons.mp back with rfl | back
              · exact le_refl _
              · rw [SortedBack, ← whole, tail, List.pairwise_append] at isSorted
                exact (List.pairwise_cons.mp isSorted.2.1).1 x back
            have low : rank first ≤ rank key := by
              apply behind first
              rw [tail]
              exact List.mem_cons_self
            have same := le_antisymm behindFirst (most first member low)
            rw [byRank.congr same key, stays]
  · intro right
    rcases right.parts isSorted with ⟨front, back⟩
    rw [SortedBack, ← whole, List.pairwise_append] at isSorted
    refine ⟨isSorted.1, ⟨back, isSorted.2.1⟩, fun x inside y there => ?_⟩
    rcases List.mem_cons.mp there with rfl | there
    · exact le_of_lt (front x inside)
    · exact isSorted.2.2 x inside y there

theorem sublist_insertBack (key : α) (sorted : List α) :
    sorted.Sublist (insertBack swap key sorted) := by
  have whole := @List.takeWhile_append_dropWhile _ (swap · key) sorted
  rw [insertBack_eq]
  nth_rewrite 1 [← whole]
  exact (List.Sublist.refl _).append (List.sublist_cons_self key _)

/-- The elements are sorted exactly if the comparison is right for each of them. -/
theorem sortBack_sorted_iff (byRank : ByRank rank swap) (elements : List α) :
    SortedBack rank (sortBack swap elements) ↔ SortsRight rank swap elements := by
  induction elements using List.reverseRecOn with
  | nil =>
      refine iff_of_true List.Pairwise.nil fun before key after same => ?_
      cases List.append_eq_nil_iff.mp same.symm |>.2
  | append_singleton before key known =>
      rw [sortBack_snoc, sortsRight_snoc, ← known, ← RightFor.perm (sortBack_perm swap before)]
      constructor
      · intro isSorted
        have first : SortedBack rank (sortBack swap before) :=
          List.Pairwise.sublist (sublist_insertBack key _) isSorted
        exact ⟨first, (insertBack_sorted_iff byRank first).mp isSorted⟩
      · rintro ⟨first, right⟩
        exact (insertBack_sorted_iff byRank first).mpr right

theorem sortBack_stable (byRank : ByRank rank swap) {elements : List α}
    (right : SortsRight rank swap elements) (value : κ) :
    (sortBack swap elements).filter (rank · = value) =
      (elements.filter (rank · = value)).reverse := by
  induction elements using List.reverseRecOn with
  | nil => rfl
  | append_singleton before key known =>
      rcases (sortsRight_snoc rank swap).mp right with ⟨right', last⟩
      have isSorted := (sortBack_sorted_iff byRank before).mpr right'
      rcases (RightFor.perm (sortBack_perm swap before).symm |>.mp last).parts isSorted with
        ⟨front, -⟩
      have whole := @List.takeWhile_append_dropWhile _ (swap · key) (sortBack swap before)
      rw [sortBack_snoc, insertBack_eq, List.filter_append, List.filter_append, List.reverse_append,
        ← known right']
      nth_rewrite 3 [← whole]
      rw [List.filter_append]
      by_cases here : rank key = value
      · have none_ :
            ((sortBack swap before).takeWhile (swap · key)).filter (rank · = value) = [] := by
          apply List.filter_eq_nil_iff.mpr
          intro x inside
          have above := front x inside
          rw [here] at above
          simpa using ne_of_gt above
        rw [none_, List.filter_cons_of_pos (by simpa using here),
          List.filter_cons_of_pos (by simpa using here)]
        rfl
      · rw [List.filter_cons_of_neg (by simpa using here),
          List.filter_cons_of_neg (by simpa using here)]
        rfl

end Order

/-! ## Leaving out repeats -/

section Repeats

def StaysAway (elements : List α) : Prop :=
  ∀ first second, first ≠ second → ¬[first, second, first].Sublist elements

theorem staysAway_cons_cons_self (x : α) (rest : List α) :
    StaysAway (x :: x :: rest) ↔ StaysAway (x :: rest) := by
  constructor
  · exact fun away first second different below =>
      away first second different (below.trans (List.sublist_cons_self x _))
  · intro away first second different below
    rcases List.sublist_cons_iff.mp below with below | ⟨tail, same, below⟩
    · exact away first second different below
    · cases same
      rcases List.sublist_cons_iff.mp below with below | ⟨tail, same, -⟩
      · exact away x second different (below.cons_cons x)
      · cases same
        exact different rfl

theorem staysAway_cons_cons {prev x : α} (different : prev ≠ x) (rest : List α) :
    StaysAway (prev :: x :: rest) ↔ prev ∉ x :: rest ∧ StaysAway (x :: rest) := by
  constructor
  · intro away
    refine ⟨fun inside => ?_, fun first second other below =>
      away first second other (below.trans (List.sublist_cons_self prev _))⟩
    rcases List.mem_cons.mp inside with same | inside
    · exact different same
    · exact away prev x different
        (((List.singleton_sublist.mpr inside).cons_cons x).cons_cons prev)
  · rintro ⟨absent, away⟩ first second other below
    rcases List.sublist_cons_iff.mp below with below | ⟨tail, same, below⟩
    · exact away first second other below
    · cases same
      exact absent (below.subset (List.mem_cons_of_mem _ List.mem_cons_self))

variable [DecidableEq α]

def withoutRepeats : (prev : Option α) → List α → List α
  | _, [] => []
  | prev, x :: rest =>
      if prev = some x then withoutRepeats prev rest else x :: withoutRepeats (some x) rest

theorem withoutRepeats_cons (prev x : α) (rest : List α) :
    prev :: withoutRepeats (some prev) (x :: rest) =
      if prev = x then prev :: withoutRepeats (some prev) rest
      else prev :: x :: withoutRepeats (some x) rest := by
  rw [withoutRepeats]
  by_cases same : prev = x
  · rw [if_pos same, if_pos (congrArg some same)]
  · rw [if_neg same, if_neg fun equal => same (Option.some.inj equal)]

theorem mem_withoutRepeats (elements : List α) (prev y : α) :
    y ∈ prev :: withoutRepeats (some prev) elements ↔ y ∈ prev :: elements := by
  induction elements generalizing prev with
  | nil => rfl
  | cons x rest known =>
      rw [withoutRepeats_cons]
      by_cases same : prev = x
      · rw [if_pos same, known prev, same]
        simp
      · rw [if_neg same, List.mem_cons, known x, ← List.mem_cons]

theorem pairwise_withoutRepeats {relation : α → α → Prop} (refl : ∀ x, relation x x)
    (elements : List α) (prev : α) :
    (prev :: withoutRepeats (some prev) elements).Pairwise relation ↔
      (prev :: elements).Pairwise relation := by
  induction elements generalizing prev with
  | nil => rfl
  | cons x rest known =>
      rw [withoutRepeats_cons]
      by_cases same : prev = x
      · rw [if_pos same, known prev, same, List.pairwise_cons, List.pairwise_cons,
          List.pairwise_cons, List.forall_mem_cons]
        constructor
        · exact fun sorted => ⟨⟨refl x, sorted.1⟩, sorted⟩
        · exact fun sorted => sorted.2
      · have members : (∀ y ∈ x :: withoutRepeats (some x) rest, relation prev y) ↔
            ∀ y ∈ x :: rest, relation prev y :=
          forall_congr' fun y => by rw [mem_withoutRepeats]
        rw [if_neg same, List.pairwise_cons, known x, members, ← List.pairwise_cons]

/-- Every element is left once exactly if none comes again behind a different one. -/
theorem nodup_withoutRepeats (elements : List α) (prev : α) :
    (prev :: withoutRepeats (some prev) elements).Nodup ↔ StaysAway (prev :: elements) := by
  induction elements generalizing prev with
  | nil =>
      refine iff_of_true (by simp [withoutRepeats]) fun first second _ below => ?_
      have short := below.length_le
      exact absurd short (by simp)
  | cons x rest known =>
      rw [withoutRepeats_cons]
      by_cases same : prev = x
      · rw [if_pos same, known prev, same, staysAway_cons_cons_self]
      · rw [if_neg same, List.nodup_cons, known x, staysAway_cons_cons same, mem_withoutRepeats]

theorem mem_withoutRepeats_none (elements : List α) (y : α) :
    y ∈ withoutRepeats none elements ↔ y ∈ elements := by
  cases elements with
  | nil => rfl
  | cons x rest => exact mem_withoutRepeats rest x y

theorem pairwise_withoutRepeats_none {relation : α → α → Prop} (refl : ∀ x, relation x x)
    (elements : List α) :
    (withoutRepeats none elements).Pairwise relation ↔ elements.Pairwise relation := by
  cases elements with
  | nil => rfl
  | cons x rest => exact pairwise_withoutRepeats refl rest x

theorem nodup_withoutRepeats_none (elements : List α) :
    (withoutRepeats none elements).Nodup ↔ StaysAway elements := by
  cases elements with
  | nil =>
      refine iff_of_true List.nodup_nil fun first second _ below => ?_
      cases List.sublist_nil.mp below
  | cons x rest => exact nodup_withoutRepeats rest x

end Repeats

/-! ## Elements that come again after sorting -/

section Return

variable [LinearOrder κ] {rank : α → κ} {swap : α → α → Bool} {elements : List α}

theorem sortedBack_reverse (sorted : List α) :
    SortedBack rank sorted ↔ sorted.reverse.Pairwise fun x y => rank x ≤ rank y := by
  rw [List.pairwise_reverse]
  rfl

/-- After sorting an element comes again behind a different one exactly if it did before and the
two have one rank. -/
theorem staysAway_sorted_iff (byRank : ByRank rank swap) (right : SortsRight rank swap elements) :
    StaysAway (sortBack swap elements).reverse ↔
      ∀ first second, first ≠ second → rank first = rank second →
        ¬[first, second, first].Sublist elements := by
  have stable : ∀ value, (sortBack swap elements).reverse.filter (rank · = value) =
      elements.filter (rank · = value) := by
    intro value
    rw [List.filter_reverse, sortBack_stable byRank right, List.reverse_reverse]
  have here : ∀ {first second : α} {some_ : List α}, rank first = rank second →
      [first, second, first].Sublist some_ →
      [first, second, first].Sublist (some_.filter (rank · = rank second)) := by
    intro first second some_ same below
    have kept := below.filter (rank · = rank second)
    simp only [same, decide_true, List.filter_cons_of_pos, List.filter_nil] at kept
    exact kept
  constructor
  · intro away first second different same below
    have sorted := here same below
    rw [← stable] at sorted
    exact away first second different (sorted.trans List.filter_sublist)
  · intro away first second different below
    have isSorted := (sortedBack_reverse _).mp ((sortBack_sorted_iff byRank elements).mpr right)
    have order := isSorted.sublist below
    rw [List.pairwise_cons, List.pairwise_cons] at order
    have same := le_antisymm (order.1 second List.mem_cons_self)
      (order.2.1 first List.mem_cons_self)
    have before := here same below
    rw [stable] at before
    exact away first second different same (before.trans List.filter_sublist)

omit [LinearOrder κ] in
theorem ByRank.dual (byRank : ByRank rank swap) :
    ByRank (fun x => OrderDual.toDual (rank x)) swap :=
  ⟨fun same => byRank.congr (OrderDual.toDual_inj.mp same),
    fun same => byRank.still (OrderDual.toDual_inj.mp same)⟩

variable [DecidableEq α]

def printed (uniq : Bool) (sorted : List α) : List α :=
  if uniq then withoutRepeats none sorted else sorted

/-- What is printed is sorted and has all elements, or each of them once, exactly if none was lost
before, the comparison is right, and with repeats left out no element comes again behind another of
its rank. -/
theorem printed_iff (byRank : ByRank rank swap) (uniq : Bool) (all : List α) :
    ((if uniq then (printed uniq (sortBack swap elements).reverse).Nodup ∧
          ∀ x, x ∈ printed uniq (sortBack swap elements).reverse ↔ x ∈ all
        else (printed uniq (sortBack swap elements).reverse).Perm all) ∧
      (printed uniq (sortBack swap elements).reverse).Pairwise fun x y => rank x ≤ rank y) ↔
    (if uniq then ∀ x, x ∈ elements ↔ x ∈ all else elements.Perm all) ∧
      SortsRight rank swap elements ∧ (uniq = true → ∀ first second, first ≠ second →
        rank first = rank second → ¬[first, second, first].Sublist elements) := by
  have perm := (List.reverse_perm (sortBack swap elements)).trans (sortBack_perm swap elements)
  rw [← sortBack_sorted_iff byRank elements, sortedBack_reverse]
  cases uniq with
  | false =>
      simp only [printed, Bool.false_eq_true, if_false, false_implies, and_true]
      rw [perm.congr_left]
  | true =>
      simp only [printed, if_true, true_implies, mem_withoutRepeats_none, perm.mem_iff]
      rw [pairwise_withoutRepeats_none fun x => le_refl (rank x), nodup_withoutRepeats_none]
      constructor
      · rintro ⟨⟨away, members⟩, isSorted⟩
        have right := (sortBack_sorted_iff byRank elements).mp ((sortedBack_reverse _).mpr isSorted)
        exact ⟨members, isSorted, (staysAway_sorted_iff byRank right).mp away⟩
      · rintro ⟨members, isSorted, away⟩
        have right := (sortBack_sorted_iff byRank elements).mp ((sortedBack_reverse _).mpr isSorted)
        exact ⟨⟨(staysAway_sorted_iff byRank right).mpr away, members⟩, isSorted⟩

end Return

end Trinux.InsertionSort
