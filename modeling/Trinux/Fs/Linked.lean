import Trinux.Fs.Operations

namespace Trinux

/-!
# The links of the tree

Whatever a disk image or a directory of a FAT volume contains, the kernel keeps
its nodes linked: a child in a live node's array is itself live, points back to
that node and was allocated later, and no array lists it twice.  Each edit of the
tree keeps this, so it holds in every state of every run.
-/

def VfsNode.links (node : VfsNode) : Option Nat × List Nat := (node.parent, node.children)

namespace Fs

structure Linked (fs : Fs) : Prop where
  bounded : fs.Bounded
  rooted : ∃ root node, fs.root = some root ∧ fs.node root = some node ∧ node.parent = none
  listed : ∀ id child, child ∈ fs.childrenOf id →
    id < child ∧ ∃ node, fs.node child = some node ∧ node.parent = some id
  distinct : ∀ id, (fs.childrenOf id).Nodup

inductive InTree (fs : Fs) : Nat → Prop where
  | root {id : Nat} (isRoot : fs.root = some id) : InTree fs id
  | child {parent id : Nat} (above : InTree fs parent) (listed : id ∈ fs.childrenOf parent) :
      InTree fs id

section Links

variable {fs : Fs}

theorem live_of_mem_childrenOf {id child : Nat} (listed : child ∈ fs.childrenOf id) :
    ∃ node, fs.node id = some node ∧ child ∈ node.children := by
  cases found : fs.node id with
  | none =>
      rw [childrenOf, found] at listed
      cases listed
  | some node =>
      rw [childrenOf_eq found] at listed
      exact ⟨node, rfl, listed⟩

theorem childrenOf_of_bounded (bounded : fs.Bounded) {id : Nat} (beyond : fs.next ≤ id) :
    fs.childrenOf id = [] := by
  rw [childrenOf, bounded id beyond]

theorem Linked.parent_unique (linked : fs.Linked) {first second child : Nat}
    (left : child ∈ fs.childrenOf first) (right : child ∈ fs.childrenOf second) :
    first = second := by
  rcases linked.listed first child left with ⟨-, node, found, parent⟩
  rcases linked.listed second child right with ⟨-, node', found', parent'⟩
  rw [found] at found'
  cases found'
  rw [parent] at parent'
  exact Option.some.inj parent'

theorem Linked.parent_of (linked : fs.Linked) {id child : Nat} {node : VfsNode}
    (listed : child ∈ fs.childrenOf id) (found : fs.node child = some node) :
    node.parent = some id := by
  rcases linked.listed id child listed with ⟨-, node', found', parent⟩
  rw [found] at found'
  cases found'
  exact parent

theorem Linked.top (linked : fs.Linked) {id : Nat} {node : VfsNode}
    (found : fs.node id = some node) (isTop : node.parent = none) (other : Nat) :
    id ∉ fs.childrenOf other := by
  intro listed
  rw [linked.parent_of listed found] at isTop
  cases isTop

theorem Linked.unlisted_next (linked : fs.Linked) (other : Nat) :
    fs.next ∉ fs.childrenOf other := by
  intro listed
  rcases linked.listed other _ listed with ⟨-, node, found, -⟩
  exact absurd (linked.bounded.lt found) (Nat.lt_irrefl _)

theorem Linked.toRooted (linked : fs.Linked) {root : Nat} (isRoot : fs.root = some root) :
    fs.Rooted root := by
  rcases linked.rooted with ⟨root', node, isRoot', live, top⟩
  rw [isRoot] at isRoot'
  cases isRoot'
  exact ⟨isRoot, ⟨node, live⟩, linked.top live top, linked.bounded⟩

theorem Linked.live (linked : fs.Linked) {id : Nat} (inTree : fs.InTree id) :
    ∃ node, fs.node id = some node := by
  cases inTree with
  | root isRoot =>
      rcases linked.rooted with ⟨root, node, isRoot', live, -⟩
      rw [isRoot] at isRoot'
      cases isRoot'
      exact ⟨node, live⟩
  | child above listed =>
      rcases linked.listed _ id listed with ⟨-, node, found, -⟩
      exact ⟨node, found⟩

/-! ## Edits -/

structure SameLinks (first second : Fs) : Prop where
  root : second.root = first.root
  next : second.next = first.next
  links : ∀ id, (second.node id).map VfsNode.links = (first.node id).map VfsNode.links

theorem SameLinks.trans {first second third : Fs} (before : first.SameLinks second)
    (after : second.SameLinks third) : first.SameLinks third :=
  ⟨after.root.trans before.root, after.next.trans before.next,
    fun id => (after.links id).trans (before.links id)⟩

theorem SameLinks.node {first second : Fs} (same : first.SameLinks second) {id : Nat}
    {node : VfsNode} (found : first.node id = some node) :
    ∃ node', second.node id = some node' ∧ node'.links = node.links := by
  have links := same.links id
  rw [found, Option.map_some] at links
  exact Option.map_eq_some_iff.mp links

theorem SameLinks.childrenOf {first second : Fs} (same : first.SameLinks second) (id : Nat) :
    second.childrenOf id = first.childrenOf id := by
  have links := same.links id
  unfold Fs.childrenOf
  cases found : first.node id with
  | none =>
      rw [found, Option.map_none, Option.map_eq_none_iff] at links
      rw [links]
  | some node =>
      rcases same.node found with ⟨node', found', same'⟩
      rw [found']
      exact congrArg Prod.snd same'

theorem Linked.of_same {fs' : Fs} (linked : fs.Linked) (same : fs.SameLinks fs') :
    fs'.Linked := by
  refine ⟨fun id beyond => ?_, ?_, fun id child listed => ?_, fun id => ?_⟩
  · rw [same.next] at beyond
    have links := same.links id
    rwa [linked.bounded id beyond, Option.map_none, Option.map_eq_none_iff] at links
  · rcases linked.rooted with ⟨root, node, isRoot, live, top⟩
    rcases same.node live with ⟨node', live', links⟩
    exact ⟨root, node', same.root.trans isRoot, live', (congrArg Prod.fst links).trans top⟩
  · rw [same.childrenOf] at listed
    rcases linked.listed id child listed with ⟨older, node, found, parent⟩
    rcases same.node found with ⟨node', found', links⟩
    exact ⟨older, node', found', (congrArg Prod.fst links).trans parent⟩
  · rw [same.childrenOf]
    exact linked.distinct id

theorem SameLinks.modify (fs : Fs) (id : Nat) {change : VfsNode → VfsNode}
    (keeps : ∀ node, fs.node id = some node → (change node).links = node.links) :
    fs.SameLinks (fs.modify id change) := by
  refine ⟨rfl, rfl, fun other => ?_⟩
  by_cases here : other = id
  · rw [here, modify_node_self]
    cases found : fs.node id with
    | none => rfl
    | some node => exact congrArg some (keeps node found)
  · rw [modify_node_of_ne fs change here]

/-- A new object without children that nothing lists yet. -/
theorem Linked.alloc (linked : fs.Linked) {node : VfsNode} (leaf : node.children = []) :
    (fs.alloc node).Linked := by
  have children : ∀ id, (fs.alloc node).childrenOf id = fs.childrenOf id := by
    intro id
    by_cases new : id = fs.next
    · rw [new, childrenOf_eq (alloc_node_self fs node), leaf,
        childrenOf_of_bounded linked.bounded (Nat.le_refl _)]
    · exact childrenOf_congr (alloc_node_of_ne fs node new)
  refine ⟨linked.bounded.alloc node, ?_, fun id child listed => ?_, fun id => ?_⟩
  · rcases linked.rooted with ⟨root, top, isRoot, live, isTop⟩
    refine ⟨root, top, isRoot, ?_, isTop⟩
    rw [alloc_node_of_ne fs node (Nat.ne_of_lt (linked.bounded.lt live))]
    exact live
  · rw [children] at listed
    rcases linked.listed id child listed with ⟨older, below, found, parent⟩
    refine ⟨older, below, ?_, parent⟩
    rw [alloc_node_of_ne fs node (Nat.ne_of_lt (linked.bounded.lt found))]
    exact found
  · rw [children]
    exact linked.distinct id

theorem childrenOf_modify_attach (fs : Fs) (parent child id : Nat) {above : VfsNode}
    (live : fs.node parent = some above) :
    (fs.modify parent (VfsNode.attach child)).childrenOf id =
      if id = parent then fs.childrenOf id ++ [child] else fs.childrenOf id := by
  split
  · rename_i here
    have found : (fs.modify parent (VfsNode.attach child)).node parent =
        some (above.attach child) := by
      rw [modify_node_self, live, Option.map_some]
    rw [here, childrenOf_eq found, childrenOf_eq live]
    rfl
  · rename_i elsewhere
    exact childrenOf_congr (modify_node_of_ne fs _ elsewhere)

/-- Listing a later object that points to its parent already. -/
theorem Linked.attach (linked : fs.Linked) {parent child : Nat} {above below : VfsNode}
    (live : fs.node parent = some above) (found : fs.node child = some below)
    (points : below.parent = some parent) (older : parent < child)
    (unlisted : ∀ id, child ∉ fs.childrenOf id) :
    (fs.modify parent (VfsNode.attach child)).Linked := by
  have node : ∀ id node, fs.node id = some node →
      ∃ node', (fs.modify parent (VfsNode.attach child)).node id = some node' ∧
        node'.parent = node.parent := by
    intro id node held
    by_cases here : id = parent
    · refine ⟨node.attach child, ?_, rfl⟩
      rw [here] at held ⊢
      rw [modify_node_self, held, Option.map_some]
    · refine ⟨node, ?_, rfl⟩
      rw [modify_node_of_ne fs _ here]
      exact held
  refine ⟨linked.bounded.modify _ _, ?_, fun id other listed => ?_, fun id => ?_⟩
  · rcases linked.rooted with ⟨root, top, isRoot, held, isTop⟩
    rcases node root top held with ⟨node', held', same⟩
    exact ⟨root, node', isRoot, held', same.trans isTop⟩
  · rw [childrenOf_modify_attach fs parent child id live] at listed
    have old : other ∈ fs.childrenOf id →
        id < other ∧ ∃ node', (fs.modify parent (VfsNode.attach child)).node other = some node' ∧
          node'.parent = some id := by
      intro listed
      rcases linked.listed id other listed with ⟨later, held, found', parent'⟩
      rcases node other held found' with ⟨node', held', same⟩
      exact ⟨later, node', held', same.trans parent'⟩
    split at listed
    · rename_i here
      rcases List.mem_append.mp listed with earlier | new
      · exact old earlier
      · rw [List.mem_singleton.mp new, here]
        rcases node child below found with ⟨node', held', same⟩
        exact ⟨older, node', held', same.trans points⟩
    · exact old listed
  · rw [childrenOf_modify_attach fs parent child id live]
    split
    · apply List.Nodup.append (linked.distinct id) (List.nodup_singleton child)
      rw [List.disjoint_singleton]
      exact unlisted id
    · exact linked.distinct id

theorem Linked.create (linked : fs.Linked) {parent : Nat} {above node : VfsNode}
    (live : fs.node parent = some above) (leaf : node.children = [])
    (points : node.parent = some parent) :
    ((fs.alloc node).modify parent (VfsNode.attach fs.next)).Linked := by
  have older := linked.bounded.lt live
  have held : (fs.alloc node).node parent = some above := by
    rw [alloc_node_of_ne fs node (Nat.ne_of_lt older)]
    exact live
  apply (linked.alloc leaf).attach held (alloc_node_self fs node) points older
  · intro id listed
    by_cases new : id = fs.next
    · rw [new, childrenOf_eq (alloc_node_self fs node), leaf] at listed
      cases listed
    · rw [childrenOf_congr (alloc_node_of_ne fs node new)] at listed
      exact linked.unlisted_next id listed

theorem childrenOf_remove (fs : Fs) (parent child id : Nat) :
    ((fs.modify parent (VfsNode.detach child)).free child).childrenOf id =
      if id = child then []
      else if id = parent then (fs.childrenOf id).erase child else fs.childrenOf id := by
  by_cases freed : id = child
  · rw [if_pos freed, freed, childrenOf, free_node_self]
  rw [if_neg freed, childrenOf_congr (free_node_of_ne _ freed)]
  by_cases here : id = parent
  · rw [if_pos here, here, childrenOf, modify_node_self, childrenOf]
    cases fs.node parent <;> rfl
  · rw [if_neg here, childrenOf_congr (modify_node_of_ne fs _ here)]

theorem Linked.remove (linked : fs.Linked) {parent child : Nat}
    (listed : child ∈ fs.childrenOf parent) :
    ((fs.modify parent (VfsNode.detach child)).free child).Linked := by
  have older := (linked.listed parent child listed).1
  have node : ∀ id node, id ≠ child → fs.node id = some node →
      ∃ node', ((fs.modify parent (VfsNode.detach child)).free child).node id = some node' ∧
        node'.parent = node.parent := by
    intro id node kept held
    rw [free_node_of_ne _ kept]
    by_cases here : id = parent
    · refine ⟨node.detach child, ?_, rfl⟩
      rw [here] at held ⊢
      rw [modify_node_self, held, Option.map_some]
    · refine ⟨node, ?_, rfl⟩
      rw [modify_node_of_ne fs _ here]
      exact held
  have children : ∀ id other,
      other ∈ ((fs.modify parent (VfsNode.detach child)).free child).childrenOf id →
      other ∈ fs.childrenOf id ∧ other ≠ child := by
    intro id other member
    rw [childrenOf_remove] at member
    split at member
    · cases member
    split at member
    · exact (List.Nodup.mem_erase_iff (linked.distinct id)).mp member |>.symm
    · rename_i elsewhere
      refine ⟨member, ?_⟩
      rintro rfl
      exact elsewhere (linked.parent_unique member listed)
  refine ⟨(linked.bounded.modify _ _).free _, ?_, fun id other member => ?_, fun id => ?_⟩
  · rcases linked.rooted with ⟨root, top, isRoot, held, isTop⟩
    have kept : root ≠ child := by
      rintro rfl
      exact linked.top held isTop parent listed
    rcases node root top kept held with ⟨node', held', same⟩
    exact ⟨root, node', isRoot, held', same.trans isTop⟩
  · rcases children id other member with ⟨old, kept⟩
    rcases linked.listed id other old with ⟨later, below, held, points⟩
    rcases node other below kept held with ⟨node', held', same⟩
    exact ⟨later, node', held', same.trans points⟩
  · rw [childrenOf_remove]
    split
    · exact List.nodup_nil
    split
    · exact (linked.distinct id).erase child
    · exact linked.distinct id

theorem Linked.reparent (linked : fs.Linked) {id : Nat} {change : VfsNode → VfsNode}
    (unlisted : ∀ other, id ∉ fs.childrenOf other) (notRoot : fs.root ≠ some id)
    (keeps : ∀ node, (change node).children = node.children) : (fs.modify id change).Linked := by
  have children : ∀ other, (fs.modify id change).childrenOf other = fs.childrenOf other := by
    intro other
    by_cases here : other = id
    · rw [here, childrenOf, modify_node_self, childrenOf]
      cases fs.node id with
      | none => rfl
      | some node => exact keeps node
    · exact childrenOf_congr (modify_node_of_ne fs change here)
  refine ⟨linked.bounded.modify _ _, ?_, fun other child listed => ?_, fun other => ?_⟩
  · rcases linked.rooted with ⟨root, top, isRoot, held, isTop⟩
    refine ⟨root, top, isRoot, ?_, isTop⟩
    rw [modify_node_of_ne]
    · exact held
    · rintro rfl
      exact notRoot isRoot
  · rw [children] at listed
    rcases linked.listed other child listed with ⟨older, node, found, points⟩
    refine ⟨older, node, ?_, points⟩
    rw [modify_node_of_ne]
    · exact found
    · rintro rfl
      exact unlisted other listed
  · rw [children]
    exact linked.distinct other

end Links

end Fs

/-! ## Emptying the tree -/

/-- What wiping leaves of a heap: every object is as it was, freed, or without its children, and
what was freed is a child of an object that has none any more or of one still being wiped. -/
structure Pruned (pending : Nat → Prop) (fs fs' : Fs) : Prop where
  root : fs'.root = fs.root
  next : fs'.next = fs.next
  nodes : ∀ id, fs'.node id = fs.node id ∨ fs'.node id = none ∨
    fs'.node id = (fs.node id).map VfsNode.clear
  freed : ∀ id, fs'.node id = none → fs.node id ≠ none →
    ∃ parent, id ∈ fs.childrenOf parent ∧ (fs'.childrenOf parent = [] ∨ pending parent)

section Prune

variable {pending : Nat → Prop} {fs fs' fs'' : Fs}

theorem Pruned.refl (pending : Nat → Prop) (fs : Fs) : Pruned pending fs fs :=
  ⟨rfl, rfl, fun _ => Or.inl rfl, fun _ gone live => absurd gone live⟩

theorem Pruned.childrenOf (pruned : Pruned pending fs fs') (id : Nat) :
    fs'.childrenOf id = fs.childrenOf id ∨ fs'.childrenOf id = [] := by
  rcases pruned.nodes id with same | gone | cleared
  · exact Or.inl (Fs.childrenOf_congr same)
  · right
    rw [Fs.childrenOf, gone]
  · right
    rw [Fs.childrenOf, cleared]
    cases fs.node id <;> rfl

theorem Pruned.trans (before : Pruned pending fs fs') (after : Pruned pending fs' fs'') :
    Pruned pending fs fs'' := by
  refine ⟨after.root.trans before.root, after.next.trans before.next, fun id => ?_,
    fun id gone live => ?_⟩
  · rcases after.nodes id with same | freed | cleared
    · rw [same]
      exact before.nodes id
    · exact Or.inr (Or.inl freed)
    · rcases before.nodes id with same' | freed' | cleared'
      · rw [cleared, same']
        exact Or.inr (Or.inr rfl)
      · rw [cleared, freed']
        exact Or.inr (Or.inl rfl)
      · rw [cleared, cleared']
        right; right
        cases fs.node id <;> rfl
  · have shrunk : ∀ parent, fs'.childrenOf parent = [] → fs''.childrenOf parent = [] := by
      intro parent empty
      rcases after.childrenOf parent with same | gone'
      · exact same.trans empty
      · exact gone'
    cases middle : fs'.node id with
    | none =>
        rcases before.freed id middle live with ⟨parent, listed, empty | waiting⟩
        · exact ⟨parent, listed, Or.inl (shrunk parent empty)⟩
        · exact ⟨parent, listed, Or.inr waiting⟩
    | some node =>
        rcases after.freed id gone (by rw [middle]; exact Option.some_ne_none _) with
          ⟨parent, listed, rest⟩
        refine ⟨parent, ?_, rest⟩
        rcases before.childrenOf parent with same | empty
        · rwa [same] at listed
        · rw [empty] at listed
          cases listed

theorem Pruned.mono {wider : Nat → Prop} (pruned : Pruned pending fs fs')
    (weaker : ∀ id, pending id → wider id) : Pruned wider fs fs' :=
  ⟨pruned.root, pruned.next, pruned.nodes, fun id gone live => by
    rcases pruned.freed id gone live with ⟨parent, listed, empty | waiting⟩
    · exact ⟨parent, listed, Or.inl empty⟩
    · exact ⟨parent, listed, Or.inr (weaker parent waiting)⟩⟩

theorem wipeChildren_pruned (fuel : Nat) (fs : Fs) (id : Nat) :
    Pruned (fun _ => False) fs (wipeChildren fuel fs id) := by
  induction fuel generalizing fs id with
  | zero => exact Pruned.refl _ fs
  | succ fuel known =>
      have loop : ∀ (children : List Nat) (state : Fs), (∀ child ∈ children, child ∈
          fs.childrenOf id) → Pruned (fun other => other = id) fs state →
          Pruned (fun other => other = id) fs
            (children.foldl (fun fs child => (wipeChildren fuel fs child).free child) state) := by
        intro children
        induction children with
        | nil => exact fun _ _ pruned => pruned
        | cons child rest inner =>
            intro state listed pruned
            apply inner _ fun other member => listed other (List.mem_cons_of_mem _ member)
            have wiped := pruned.trans ((known state child).mono fun _ never => never.elim)
            refine ⟨wiped.root, wiped.next, fun other => ?_, fun other gone live => ?_⟩
            · by_cases here : other = child
              · rw [here, Fs.free_node_self]
                exact Or.inr (Or.inl rfl)
              · rw [Fs.free_node_of_ne _ here]
                exact wiped.nodes other
            · by_cases here : other = child
              · exact ⟨id, here ▸ listed child List.mem_cons_self, Or.inr rfl⟩
              · rw [Fs.free_node_of_ne _ here] at gone
                rcases wiped.freed other gone live with ⟨parent, below, empty | waiting⟩
                · refine ⟨parent, below, Or.inl ?_⟩
                  by_cases same : parent = child
                  · rw [same, Fs.childrenOf, Fs.free_node_self]
                  · rw [Fs.childrenOf_congr (Fs.free_node_of_ne _ same)]
                    exact empty
                · exact ⟨parent, below, Or.inr waiting⟩
      have pruned := loop (fs.childrenOf id) fs (fun _ member => member) (Pruned.refl _ fs)
      rw [wipeChildren]
      generalize (fs.childrenOf id).foldl (fun fs child => (wipeChildren fuel fs child).free child)
        fs = state at pruned
      refine ⟨pruned.root, pruned.next, fun other => ?_, fun other gone live => ?_⟩
      · by_cases here : other = id
        · rw [here, Fs.modify_node_self]
          rcases pruned.nodes id with same | freed | cleared
          · rw [same]
            exact Or.inr (Or.inr rfl)
          · rw [freed]
            exact Or.inr (Or.inl rfl)
          · rw [cleared]
            right; right
            cases fs.node id <;> rfl
        · rw [Fs.modify_node_of_ne _ _ here]
          exact pruned.nodes other
      · have missing : state.node other = none := by
          by_cases here : other = id
          · rw [here, Fs.modify_node_self, Option.map_eq_none_iff] at gone
            rw [here, gone]
          · rwa [Fs.modify_node_of_ne _ _ here] at gone
        rcases pruned.freed other missing live with ⟨parent, below, rest⟩
        refine ⟨parent, below, Or.inl ?_⟩
        by_cases here : parent = id
        · rw [here]
          exact Fs.childrenOf_modify_clear state id
        · rw [Fs.childrenOf_congr (Fs.modify_node_of_ne _ _ here)]
          rcases rest with empty | waiting
          · exact empty
          · exact absurd waiting here

theorem Fs.Linked.prune (linked : fs.Linked) (pruned : Pruned (fun _ => False) fs fs') :
    fs'.Linked := by
  have kept : ∀ id node, fs.node id = some node → fs'.node id ≠ none →
      ∃ node', fs'.node id = some node' ∧ node'.parent = node.parent := by
    intro id node found live
    rcases pruned.nodes id with same | gone | cleared
    · exact ⟨node, same.trans found, rfl⟩
    · exact absurd gone live
    · rw [found, Option.map_some] at cleared
      exact ⟨node.clear, cleared, rfl⟩
  refine ⟨fun id beyond => ?_, ?_, fun id child listed => ?_, fun id => ?_⟩
  · rw [pruned.next] at beyond
    rcases pruned.nodes id with same | gone | cleared
    · exact same.trans (linked.bounded id beyond)
    · exact gone
    · rw [cleared, linked.bounded id beyond, Option.map_none]
  · rcases linked.rooted with ⟨root, top, isRoot, held, isTop⟩
    have live : fs'.node root ≠ none := by
      intro gone
      rcases pruned.freed root gone (by rw [held]; exact Option.some_ne_none _) with
        ⟨parent, listed, -⟩
      exact linked.top held isTop parent listed
    rcases kept root top held live with ⟨node', held', same⟩
    exact ⟨root, node', pruned.root.trans isRoot, held', same.trans isTop⟩
  · have listed' : child ∈ fs.childrenOf id := by
      rcases pruned.childrenOf id with same | empty
      · rwa [same] at listed
      · rw [empty] at listed
        cases listed
    rcases linked.listed id child listed' with ⟨older, node, found, points⟩
    have live : fs'.node child ≠ none := by
      intro gone
      rcases pruned.freed child gone (by rw [found]; exact Option.some_ne_none _) with
        ⟨parent, below, empty | never⟩
      · rw [linked.parent_unique below listed'] at empty
        rw [empty] at listed
        cases listed
      · exact never
    rcases kept child node found live with ⟨node', held', same⟩
    exact ⟨older, node', held', same.trans points⟩
  · rcases pruned.childrenOf id with same | empty
    · rw [same]
      exact linked.distinct id
    · rw [empty]
      exact List.nodup_nil

end Prune

/-! ## Creating and removing nodes -/

def Fs.LiveIn (fs fs' : Fs) : Prop := ∀ id, fs.node id ≠ none → fs'.node id ≠ none

theorem Fs.LiveIn.modify (fs : Fs) (id : Nat) (change : VfsNode → VfsNode) :
    fs.LiveIn (fs.modify id change) := by
  intro other live gone
  by_cases here : other = id
  · rw [here, modify_node_self, Option.map_eq_none_iff] at gone
    exact live (here ▸ gone)
  · rw [modify_node_of_ne fs change here] at gone
    exact live gone

section Nodes

variable {granted : Bool} {now : UInt32} {fs fs' : Fs} {parent id : Nat} {name : List UInt8}
  {type : UInt32}

theorem ramfsCreateNode_liveIn (bounded : fs.Bounded)
    (created : ramfsCreateNode granted now fs parent name type = some (id, fs')) :
    fs.LiveIn fs' := by
  rcases ramfsCreateNode_cases created with ⟨-, -, rfl, rfl⟩
  intro other live
  apply Fs.LiveIn.modify
  rw [Fs.alloc_node_of_ne]
  · exact live
  · rintro rfl
    exact live (bounded _ (Nat.le_refl _))

theorem ramfsCreateNode_linked (linked : fs.Linked) (live : fs.node parent ≠ none)
    (created : ramfsCreateNode granted now fs parent name type = some (id, fs')) :
    fs'.Linked ∧ fs'.node id ≠ none := by
  rcases Option.ne_none_iff_exists'.mp live with ⟨above, found⟩
  have new := ramfsCreateNode_new (linked.bounded.lt found) created
  refine ⟨?_, by rw [new]; exact Option.some_ne_none _⟩
  rcases ramfsCreateNode_cases created with ⟨-, -, rfl, rfl⟩
  exact linked.create found rfl rfl

theorem ramfsRemoveNode_linked (linked : fs.Linked) (store : Blockfs) (id : Nat) :
    (ramfsRemoveNode fs store id).2.1.Linked := by
  rcases ramfsRemoveNode_cases fs store id with ⟨-, same⟩ | ⟨node, parent, -, -, -, listed, removed⟩
  · rw [same]
    exact linked
  · rw [removed]
    exact linked.remove listed

theorem CreatedBelow.linked {set : VfsNode → VfsNode} (linked : fs.Linked)
    (live : fs.node parent ≠ none) (keeps : ∀ node, (set node).links = node.links)
    (created : CreatedBelow fs parent name type set id fs') : fs'.Linked := by
  rcases created with ⟨granted, now, made, new, rfl⟩
  exact (ramfsCreateNode_linked linked live new).1.of_same
    (.modify made id fun node _ => keeps node)

end Nodes

/-! ## Loading -/

section Load

variable {alloc : Nat → Bool} {clock : Nat → UInt32} {img : List UInt8} {imageBytes root i : Nat}

/-- The heap of the loading loop is linked, and the nodes it refers to are live. -/
structure LoadState.Linked (root : Nat) (state : LoadState) : Prop where
  linked : state.fs.Linked
  rootLive : state.fs.node root ≠ none
  slots : ∀ id ∈ state.map, state.fs.node id ≠ none

theorem RecordHeader.restore_links (header : RecordHeader) (img : List UInt8) (off : Nat)
    (node : VfsNode) : (header.restore img off node).links = node.links := by
  unfold restore
  split
  · rfl
  split <;> rfl

theorem RecordHeader.apply_links (header : RecordHeader) (node : VfsNode) :
    (header.apply node).links = node.links := rfl

theorem LoadState.Linked.slot {state : LoadState} (held : state.Linked root) (slot : Nat) :
    state.fs.node (state.map.getD slot root) ≠ none := by
  rw [List.getD_eq_getElem?_getD]
  cases entry : state.map[slot]? with
  | none => exact held.rootLive
  | some id => exact held.slots id (List.mem_of_getElem? entry)

theorem loadNode_linked {header : RecordHeader} {name : List UInt8} {state : LoadState}
    (held : state.Linked root) {id : Nat} {fs : Fs}
    (opened : loadNode alloc clock root i header name state = .next (id, fs)) :
    fs.Linked ∧ state.fs.LiveIn fs ∧ fs.node id ≠ none := by
  rcases loadNode_next opened with ⟨-, rfl, rfl⟩ | ⟨-, created⟩
  · have live := Fs.LiveIn.modify state.fs id fun node =>
      { node with name := nameField (if name = [] then literal "/" else name) }
    exact ⟨held.linked.of_same (.modify state.fs id fun _ _ => rfl), live, live id held.rootLive⟩
  · rcases ramfsCreateNode_linked held.linked (held.slot _) created with ⟨linked, live⟩
    exact ⟨linked, ramfsCreateNode_liveIn held.linked.bounded created, live⟩

/-- A record keeps the heap linked, whether it is loaded or not. -/
theorem loadRecord_linked (alloc : Nat → Bool) (clock : Nat → UInt32) (img : List UInt8)
    (imageBytes i : Nat) {state : LoadState} (held : state.Linked root) :
    (∀ next, loadRecord alloc clock img imageBytes root i state = .next next →
      next.Linked root) ∧
    ∀ code fs, loadRecord alloc clock img imageBytes root i state = .fail code fs →
      fs.Linked := by
  refine ⟨fun next loaded => ?_, fun code fs failed => ?_⟩
  · rcases loadRecord_next loaded with ⟨-, id, opened, last, isOpened, rfl⟩
    generalize readHeader img state.off = header at isOpened ⊢
    generalize state.off + 32 + header.nameLen.toNat = off
    rcases loadNode_linked held isOpened with ⟨linked, live, new⟩
    have applied : opened.SameLinks (opened.modify id header.apply) :=
      .modify opened id fun node _ => header.apply_links node
    generalize same : opened.modify id header.apply = fs at applied ⊢
    have restored : fs.SameLinks (fs.modify id (header.restore img off)) :=
      .modify fs id fun node _ => header.restore_links img off node
    have kept : ∀ other, opened.node other ≠ none →
        (fs.modify id (header.restore img off)).node other ≠ none := fun other alive =>
      Fs.LiveIn.modify fs id _ other (same ▸ Fs.LiveIn.modify opened id _ other alive)
    refine ⟨(linked.of_same applied).of_same restored, kept root (live root held.rootLive),
      fun other member => ?_⟩
    rcases List.mem_append.mp member with old | this
    · exact kept other (live other (held.slots other old))
    · rw [List.mem_singleton.mp this]
      exact kept id new
  · rcases loadRecord_fail failed with ⟨-, rfl | ⟨-, id, opened, isOpened, rfl⟩⟩
    · exact held.linked
    · generalize readHeader img state.off = header at isOpened ⊢
      have applied : opened.SameLinks (opened.modify id header.apply) :=
        .modify opened id fun node _ => header.apply_links node
      exact (loadNode_linked held isOpened).1.of_same applied

theorem loadRecords_linked {remaining : Nat} {state : LoadState} (held : state.Linked root)
    {code : Int} {fs : Fs}
    (loaded : loadRecords alloc clock img imageBytes root remaining i state = .ret code fs) :
    fs.Linked := by
  induction remaining generalizing i state with
  | zero =>
      cases loaded
      exact held.linked
  | succ remaining known =>
      rw [loadRecords] at loaded
      have step := loadRecord_linked alloc clock img imageBytes i held
      cases record : loadRecord alloc clock img imageBytes root i state with
      | fail code' fs' =>
          rw [record] at loaded
          cases loaded
          exact step.2 _ _ record
      | wild =>
          rw [record] at loaded
          cases loaded
      | next next =>
          rw [record] at loaded
          exact known (step.1 next record) loaded

theorem diskfsLoad_linked {faults : Faults} {fs fs' : Fs} {disk : Disk} {code : Int}
    (linked : fs.Linked) (loaded : diskfsLoad faults alloc clock fs disk = .ret code fs') :
    fs'.Linked := by
  rw [diskfsLoad] at loaded
  cases read : readImage faults alloc disk with
  | error failed =>
      rw [read] at loaded
      cases loaded
      exact linked
  | ok image =>
      rw [read] at loaded
      simp only [rebuild] at loaded
      rcases linked.rooted with ⟨root, node, isRoot, -, -⟩
      rw [isRoot] at loaded
      have rooted := (wipeChildren_rooted (linked.toRooted isRoot)).1
      rcases rooted.live with ⟨node', live⟩
      apply loadRecords_linked ⟨linked.prune (wipeChildren_pruned _ _ _), ?_, by simp⟩ loaded
      rw [live]
      exact Option.some_ne_none _

end Load

/-! ## Reading directories of a FAT volume -/

section Fat

variable {platform : Platform} {dir : Nat} {fs fs' : Fs}

structure FatFilled (dir : Nat) (fs fs' : Fs) : Prop where
  linked : fs'.Linked
  root : fs'.root = fs.root
  older : ∀ id, id < fs.next → id ≠ dir → fs'.node id = fs.node id
  directory : ∃ children, fs'.node dir = (fs.node dir).map fun node =>
    { node with children := children }
  unlisted : ∀ id, dir ∉ fs'.childrenOf id
  next : fs.next ≤ fs'.next

theorem FatFilled.refl (linked : fs.Linked) (unlisted : ∀ id, dir ∉ fs.childrenOf id) :
    FatFilled dir fs fs := by
  refine ⟨linked, rfl, fun _ _ _ => rfl, ⟨fs.childrenOf dir, ?_⟩, unlisted, Nat.le_refl _⟩
  cases found : fs.node dir with
  | none => rfl
  | some node => rw [Fs.childrenOf_eq found, Option.map_some]

theorem FatFilled.entry (linked : fs.Linked) (live : fs.node dir ≠ none)
    (unlisted : ∀ id, dir ∉ fs.childrenOf id) (entry : List UInt8) :
    FatFilled dir fs ((fs.alloc (fatEntryNode dir entry)).modify dir (VfsNode.attach fs.next)) := by
  rcases Option.ne_none_iff_exists'.mp live with ⟨above, found⟩
  have older := linked.bounded.lt found
  have kept : (fs.alloc (fatEntryNode dir entry)).node dir = some above := by
    rw [Fs.alloc_node_of_ne _ _ (Nat.ne_of_lt older)]
    exact found
  refine ⟨linked.create found rfl rfl, rfl, fun id below different => ?_,
    ⟨above.children ++ [fs.next], ?_⟩, fun id listed => ?_, Nat.le_succ _⟩
  · rw [Fs.modify_node_of_ne _ _ different, Fs.alloc_node_of_ne _ _ (Nat.ne_of_lt below)]
  · rw [Fs.modify_node_self, kept, found]
    rfl
  · rw [Fs.childrenOf_modify_attach _ _ _ _ kept] at listed
    have old : dir ∉ (fs.alloc (fatEntryNode dir entry)).childrenOf id := by
      intro member
      by_cases new : id = fs.next
      · rw [new, Fs.childrenOf_eq (Fs.alloc_node_self fs _)] at member
        cases member
      · rw [Fs.childrenOf_congr (Fs.alloc_node_of_ne fs _ new)] at member
        exact unlisted id member
    split at listed
    · rcases List.mem_append.mp listed with earlier | this
      · exact old earlier
      · rw [List.mem_singleton.mp this] at older
        exact Nat.lt_irrefl _ older
    · exact old listed

theorem FatFilled.trans {fs'' : Fs} (before : FatFilled dir fs fs')
    (after : FatFilled dir fs' fs'') : FatFilled dir fs fs'' := by
  refine ⟨after.linked, after.root.trans before.root, fun id below different => ?_, ?_,
    after.unlisted, Nat.le_trans before.next after.next⟩
  · rw [after.older id (Nat.lt_of_lt_of_le below before.next) different,
      before.older id below different]
  · rcases before.directory with ⟨first, here⟩
    rcases after.directory with ⟨second, there⟩
    refine ⟨second, ?_⟩
    rw [there, here, Option.map_map]
    rfl

theorem FatFilled.live (filled : FatFilled dir fs fs') (live : fs.node dir ≠ none) :
    fs'.node dir ≠ none := by
  rcases filled.directory with ⟨children, here⟩
  rw [here]
  intro gone
  exact live (Option.map_eq_none_iff.mp gone)

theorem fatReadEntries_filled {entries : List (List UInt8)} {site : Nat} (linked : fs.Linked)
    (live : fs.node dir ≠ none) (unlisted : ∀ id, dir ∉ fs.childrenOf id)
    (read : fatReadEntries platform dir entries site fs = some fs') : FatFilled dir fs fs' := by
  induction entries generalizing site fs with
  | nil =>
      cases read
      exact .refl linked unlisted
  | cons entry rest known =>
      rw [fatReadEntries] at read
      split at read
      · cases read
        exact .refl linked unlisted
      split at read
      · exact known linked live unlisted read
      split at read
      · cases read
      split at read
      · have filled := FatFilled.entry linked live unlisted entry
        exact filled.trans (known filled.linked (filled.live live) filled.unlisted read)
      · exact known linked live unlisted read

structure FatRead (start : Nat) (fs : Fs) (dir : Nat) (fs' : Fs) : Prop where
  linked : fs'.Linked
  root : fs'.root = fs.root
  number : dir = fs.next
  older : ∀ id, id < fs.next → fs'.node id = fs.node id
  directory : ∃ children, fs'.node dir = some { fatDirectoryNode start with children := children }
  unlisted : ∀ id, dir ∉ fs'.childrenOf id

theorem fatReadDir_read {start : Nat} {entries : Option (List (List UInt8))} (linked : fs.Linked)
    (read : fatReadDir platform start entries fs = some (dir, fs')) : FatRead start fs dir fs' := by
  rw [fatReadDir] at read
  split at read
  · cases read
  rcases Option.bind_eq_some_iff.mp read with ⟨found, -, filled⟩
  rcases Option.map_eq_some_iff.mp filled with ⟨result, entriesRead, same⟩
  cases same
  have new := Fs.alloc_node_self fs (fatDirectoryNode start)
  have leaf : (fatDirectoryNode start).children = [] := rfl
  have unlisted : ∀ id, fs.next ∉ (fs.alloc (fatDirectoryNode start)).childrenOf id := by
    intro id listed
    by_cases here : id = fs.next
    · rw [here, Fs.childrenOf_eq new, leaf] at listed
      cases listed
    · rw [Fs.childrenOf_congr (Fs.alloc_node_of_ne fs _ here)] at listed
      exact linked.unlisted_next id listed
  have live : (fs.alloc (fatDirectoryNode start)).node fs.next ≠ none := by
    rw [new]
    exact Option.some_ne_none _
  have filled := fatReadEntries_filled (linked.alloc leaf) live unlisted entriesRead
  refine ⟨filled.linked, filled.root, rfl, fun id below => ?_, ?_, filled.unlisted⟩
  · rw [filled.older id (Nat.lt_succ_of_lt below) (Nat.ne_of_lt below),
      Fs.alloc_node_of_ne _ _ (Nat.ne_of_lt below)]
  · rcases filled.directory with ⟨children, here⟩
    rw [new, Option.map_some] at here
    exact ⟨children, here⟩

/-! ## Adopting the entries of a directory -/

def VfsNode.under (parent : Nat) (node : VfsNode) : VfsNode := { node with parent := some parent }

theorem foldl_under_node (parent : Nat) (children : List Nat) (fs : Fs) (id : Nat) :
    (children.foldl (fun fs child => fs.modify child (VfsNode.under parent)) fs).node id =
      if id ∈ children then (fs.node id).map (VfsNode.under parent) else fs.node id := by
  induction children generalizing fs with
  | nil => rw [List.foldl_nil, if_neg List.not_mem_nil]
  | cons child rest known =>
      rw [List.foldl_cons, known]
      by_cases here : id = child
      · rw [here, Fs.modify_node_self, if_pos List.mem_cons_self]
        split
        · rw [Option.map_map]
          rfl
        · rfl
      · rw [Fs.modify_node_of_ne _ _ here]
        by_cases member : id ∈ rest
        · rw [if_pos member, if_pos (List.mem_cons_of_mem _ member)]
        · rw [if_neg member, if_neg (by simp [here, member])]

theorem foldl_under_root (parent : Nat) (children : List Nat) (fs : Fs) :
    (children.foldl (fun fs child => fs.modify child (VfsNode.under parent)) fs).root = fs.root ∧
      (children.foldl (fun fs child => fs.modify child (VfsNode.under parent)) fs).next =
        fs.next := by
  induction children generalizing fs with
  | nil => exact ⟨rfl, rfl⟩
  | cons child rest known => exact known _

/-- The objects after a node took over the children of a directory. -/
theorem fatAdopt_node (node loaded : Nat) (fs : Fs) (id : Nat) :
    (fatAdopt node loaded fs).node id =
      if id = loaded then none
      else
        let kept := if id = node then (fs.node id).map fun above =>
          { above with children := above.children ++ fs.childrenOf loaded } else fs.node id
        if id ∈ fs.childrenOf loaded then kept.map (VfsNode.under node) else kept := by
  rw [fatAdopt]
  by_cases gone : id = loaded
  · rw [if_pos gone, gone, Fs.free_node_self]
  rw [if_neg gone, Fs.free_node_of_ne _ gone]
  have folded := foldl_under_node node (fs.childrenOf loaded) (fs.modify node fun above =>
    { above with children := above.children ++ fs.childrenOf loaded }) id
  rw [show (fun (fs : Fs) child => fs.modify child fun entry => { entry with parent := some node })
    = fun fs child => fs.modify child (VfsNode.under node) from rfl, folded]
  have adopted : (fs.modify node fun above =>
      { above with children := above.children ++ fs.childrenOf loaded }).node id =
      if id = node then (fs.node id).map fun above =>
        { above with children := above.children ++ fs.childrenOf loaded } else fs.node id := by
    by_cases here : id = node
    · rw [if_pos here, here, Fs.modify_node_self]
    · rw [if_neg here, Fs.modify_node_of_ne _ _ here]
  rw [adopted]

/-- Every other object keeps all fields but its pointers. -/
theorem fatAdopt_map (node : Nat) {loaded id : Nat} (fs : Fs) (stays : id ≠ loaded) :
    ∃ change : VfsNode → VfsNode, (fatAdopt node loaded fs).node id = (fs.node id).map change ∧
      ∀ entry, change entry =
        { entry with parent := (change entry).parent, children := (change entry).children } := by
  rw [fatAdopt_node, if_neg stays]
  simp only
  split <;> split
  · refine ⟨fun above => VfsNode.under node
      { above with children := above.children ++ fs.childrenOf loaded }, ?_, fun _ => rfl⟩
    rw [Option.map_map]
    rfl
  · exact ⟨VfsNode.under node, rfl, fun _ => rfl⟩
  · exact ⟨_, rfl, fun _ => rfl⟩
  · exact ⟨fun entry => entry, Option.map_id'.symm, fun _ => rfl⟩

theorem fatAdopt_childrenOf {node loaded : Nat} (linked : fs.Linked) (older : node < loaded)
    (live : fs.node node ≠ none) (id : Nat) :
    (fatAdopt node loaded fs).childrenOf id =
      if id = loaded then []
      else if id = node then fs.childrenOf node ++ fs.childrenOf loaded else fs.childrenOf id := by
  rcases Option.ne_none_iff_exists'.mp live with ⟨above, found⟩
  have state := fatAdopt_node node loaded fs id
  by_cases gone : id = loaded
  · rw [if_pos gone] at state ⊢
    rw [Fs.childrenOf, state]
  rw [if_neg gone] at state ⊢
  by_cases here : id = node
  · have notChild : id ∉ fs.childrenOf loaded := by
      intro listed
      have later := (linked.listed loaded id listed).1
      omega
    simp only at state
    rw [if_neg notChild, if_pos here, here, found, Option.map_some] at state
    rw [if_pos here, here, Fs.childrenOf_eq state, Fs.childrenOf_eq found]
  · simp only [if_neg here] at state ⊢
    split at state
    · rw [Fs.childrenOf, state, Fs.childrenOf]
      cases fs.node id <;> rfl
    · exact Fs.childrenOf_congr state

/-- Taking over the children of a later directory that nothing lists. -/
theorem Fs.Linked.adopt {node loaded : Nat} (linked : fs.Linked) (older : node < loaded)
    (live : fs.node node ≠ none) (unlisted : ∀ id, loaded ∉ fs.childrenOf id)
    (notRoot : fs.root ≠ some loaded) : (fatAdopt node loaded fs).Linked := by
  have state := fatAdopt_node node loaded fs
  have children := fatAdopt_childrenOf linked older live
  have shape := foldl_under_root node (fs.childrenOf loaded) (fs.modify node fun above =>
    { above with children := above.children ++ fs.childrenOf loaded })
  have root : (fatAdopt node loaded fs).root = fs.root := shape.1
  have next : (fatAdopt node loaded fs).next = fs.next := shape.2
  have kept : ∀ id below, id ≠ loaded → id ∉ fs.childrenOf loaded → fs.node id = some below →
      ∃ node', (fatAdopt node loaded fs).node id = some node' ∧ node'.parent = below.parent := by
    intro id below stays notChild found
    rw [state id, if_neg stays]
    simp only
    rw [if_neg notChild, found]
    split
    · exact ⟨_, rfl, rfl⟩
    · exact ⟨_, rfl, rfl⟩
  refine ⟨fun id beyond => ?_, ?_, fun id child listed => ?_, fun id => ?_⟩
  · rw [next] at beyond
    rw [state id]
    split
    · rfl
    · simp only
      rw [linked.bounded id beyond]
      split <;> split <;> rfl
  · rcases linked.rooted with ⟨top, node', isRoot, found, isTop⟩
    have stays : top ≠ loaded := by
      rintro rfl
      exact notRoot isRoot
    rcases kept top node' stays (linked.top found isTop loaded) found with ⟨after, held, same⟩
    exact ⟨top, after, root.trans isRoot, held, same.trans isTop⟩
  · have old : id ≠ loaded → child ∈ fs.childrenOf id →
        id < child ∧ ∃ node', (fatAdopt node loaded fs).node child = some node' ∧
          node'.parent = some id := by
      intro different member
      rcases linked.listed id child member with ⟨later, below, found, points⟩
      have stays : child ≠ loaded := by
        rintro rfl
        exact unlisted id member
      have notChild : child ∉ fs.childrenOf loaded :=
        fun again => different (linked.parent_unique member again)
      rcases kept child below stays notChild found with ⟨after, held, same⟩
      exact ⟨later, after, held, same.trans points⟩
    rw [children id] at listed
    split at listed
    · cases listed
    rename_i different
    split at listed
    · rename_i here
      rcases List.mem_append.mp listed with own | adopted
      · exact old different (here ▸ own)
      · rcases linked.listed loaded child adopted with ⟨later, below, found, -⟩
        have stays : child ≠ loaded := Nat.ne_of_gt later
        have notNode : child ≠ node := by omega
        refine ⟨by omega, below.under node, ?_, here ▸ rfl⟩
        rw [state child, if_neg stays]
        simp only
        rw [if_pos adopted, if_neg notNode, found, Option.map_some]
    · exact old different listed
  · rw [children id]
    split
    · exact List.nodup_nil
    split
    · apply List.Nodup.append (linked.distinct node) (linked.distinct loaded)
      intro child own adopted
      have same := linked.parent_unique own adopted
      omega
    · exact linked.distinct id

/-- Listing a directory of a volume, which may read a subdirectory. -/
theorem fatReaddir_linked {fuel id index : Nat} {storage storage' : Storage}
    {entry : Option Nat} (linked : storage.fs.Linked)
    (listed : fatReaddir platform fuel storage id index = some (entry, storage')) :
    storage'.fs.Linked := by
  rcases fatReaddir_cases listed with rfl | ⟨child, node, dir, read, -, live, -, loaded, rfl⟩
  · exact linked
  have result := fatReadDir_read linked loaded
  have below := linked.bounded.lt live
  apply result.linked.adopt
  · rw [result.number]
    exact below
  · rw [result.older child below, live]
    exact Option.some_ne_none _
  · exact result.unlisted
  · intro isRoot
    rw [result.root] at isRoot
    rcases linked.rooted with ⟨root, top, isRoot', held, -⟩
    rw [isRoot'] at isRoot
    cases isRoot
    exact Nat.ne_of_lt (linked.bounded.lt held) result.number

theorem Fs.modify_comm (fs : Fs) {first second : Nat} (different : first ≠ second)
    (left right : VfsNode → VfsNode) :
    (fs.modify first left).modify second right = (fs.modify second right).modify first left := by
  have nodes : ((fs.modify first left).modify second right).node =
      ((fs.modify second right).modify first left).node := by
    funext id
    by_cases here : id = first
    · rw [here, modify_node_of_ne _ _ different, modify_node_self, modify_node_self,
        modify_node_of_ne _ _ different]
    by_cases there : id = second
    · rw [there, modify_node_self, modify_node_of_ne _ _ (Ne.symm different),
        modify_node_of_ne _ _ (Ne.symm different), modify_node_self]
    · rw [modify_node_of_ne _ _ there, modify_node_of_ne _ _ here, modify_node_of_ne _ _ here,
        modify_node_of_ne _ _ there]
  exact congrArg (fun node => ({ fs with node := node } : Fs)) nodes

theorem fat16Init_linked {storage storage' : Storage} (linked : storage.fs.Linked)
    (mounted : fat16Init platform storage = some storage') : storage'.fs.Linked := by
  rw [fat16Init] at mounted
  cases sector : fatBootSector platform.faults storage.disk with
  | none =>
      rw [sector] at mounted
      cases mounted
      exact linked
  | some boot =>
      rw [sector] at mounted
      rcases Option.bind_eq_some_iff.mp mounted with ⟨fat, -, entries⟩
      rcases Option.map_eq_some_iff.mp entries with ⟨⟨dir, fs⟩, read, same⟩
      have result := fatReadDir_read linked read
      rcases linked.rooted with ⟨root, top, isRoot, held, isTop⟩
      have below := linked.bounded.lt held
      have different : root ≠ dir := by
        rw [result.number]
        exact Nat.ne_of_lt below
      have renamed : fs.SameLinks (fs.modify dir fun node => { node with name := literal "fat" }) :=
        .modify fs dir fun _ _ => rfl
      have named := result.linked.of_same renamed
      have unlisted : ∀ id, dir ∉ (fs.modify dir fun node =>
          { node with name := literal "fat" }).childrenOf id := by
        intro id
        rw [renamed.childrenOf]
        exact result.unlisted id
      have namedRoot : (fs.modify dir fun node => { node with name := literal "fat" }).root =
          some root := result.root.trans isRoot
      have rootLive : (fs.modify dir fun node => { node with name := literal "fat" }).node root =
          some top := by
        rw [Fs.modify_node_of_ne _ _ different, result.older root below]
        exact held
      rcases result.directory with ⟨children, dirNode⟩
      have dirLive : (fs.modify dir fun node => { node with name := literal "fat" }).node dir =
          some { fatDirectoryNode 0 with children := children, name := literal "fat" } := by
        rw [Fs.modify_node_self, dirNode, Option.map_some]
      simp only at same
      generalize (fs.modify dir fun node => { node with name := literal "fat" }) = fs' at *
      rw [namedRoot] at same
      simp only at same
      split at same
      · cases same
        have attached : ((fs'.modify dir (VfsNode.under root)).modify root
            (VfsNode.attach dir)).Linked := by
          have pointed := named.reparent unlisted (by rw [namedRoot]; simpa using different)
            (fun node => (rfl : (VfsNode.under root node).children = node.children))
          have rootKept : (fs'.modify dir (VfsNode.under root)).node root = some top := by
            rw [Fs.modify_node_of_ne _ _ different]
            exact rootLive
          apply pointed.attach rootKept
          · rw [Fs.modify_node_self, dirLive, Option.map_some]
          · rfl
          · rw [result.number]
            exact below
          · intro id listed
            by_cases here : id = dir
            · rw [here, Fs.childrenOf, Fs.modify_node_self, dirLive] at listed
              apply unlisted dir
              rw [Fs.childrenOf_eq dirLive]
              exact listed
            · rw [Fs.childrenOf_congr (Fs.modify_node_of_ne _ _ here)] at listed
              exact unlisted id listed
        rw [Fs.modify_comm _ (Ne.symm different)] at attached
        exact attached
      · cases same
        exact named

end Fat

/-! ## Lookups stay in the tree -/

theorem ramfsFinddir_mem {fs : Fs} {id child : Nat} {name : List UInt8}
    (found : ramfsFinddir fs id name = some child) :
    child ∈ fs.childrenOf id ∧ ∃ node, fs.node child = some node ∧ node.name = name := by
  rw [ramfsFinddir] at found
  cases live : fs.node id with
  | none =>
      rw [live] at found
      cases found
  | some node =>
      rw [live] at found
      simp only at found
      split at found
      · cases found
      have named := List.find?_some found
      refine ⟨?_, ?_⟩
      · rw [Fs.childrenOf_eq live]
        exact List.mem_of_find?_eq_some found
      · cases entry : fs.node child with
        | none =>
            rw [entry] at named
            cases named
        | some below =>
            rw [entry] at named
            exact ⟨below, rfl, eq_of_beq named⟩

theorem vfsFinddir_mem {fs : Fs} {id child : Nat} {name : List UInt8}
    (found : vfsFinddir fs id name = some child) :
    child ∈ fs.childrenOf id ∧ ∃ node, fs.node child = some node ∧ node.name = name := by
  rw [vfsFinddir] at found
  split at found
  · cases found
  · cases found
  · exact ramfsFinddir_mem found

theorem vfsWalk_inTree {fs : Fs} {components : List (List UInt8)} {start : Option Nat} {id : Nat}
    (above : ∀ id, start = some id → fs.InTree id)
    (walked : vfsWalk fs start components = some id) : fs.InTree id := by
  induction components generalizing start with
  | nil => exact above id walked
  | cons token rest known =>
      rw [vfsWalk] at walked
      apply known _ walked
      intro next found
      rcases Option.bind_eq_some_iff.mp found with ⟨current, here, entry⟩
      exact .child (above current here) (vfsFinddir_mem entry).1

theorem vfsResolve_inTree {fs : Fs} {path : PathArg} {cwd : Option Nat} {id : Nat}
    (resolved : vfsResolve fs path cwd = some (some id)) : fs.InTree id := by
  rcases Option.map_eq_some_iff.mp resolved with ⟨norm, -, walked⟩
  exact vfsWalk_inTree (fun _ isRoot => .root isRoot) walked

theorem vfsParent_inTree {fs : Fs} {path : PathArg} {cwd : Option Nat} {parent : Nat}
    {name : List UInt8} (target : vfsParent fs path cwd = some (some parent, name)) :
    fs.InTree parent := by
  rcases Option.bind_eq_some_iff.mp target with ⟨norm, -, resolved⟩
  rcases Option.map_eq_some_iff.mp resolved with ⟨found, isFound, same⟩
  cases same
  exact vfsResolve_inTree isFound

/-! ## Runs -/

section Calls

variable {storage storage' : Storage}

theorem VfsNode.Rewritten.links {first second : VfsNode} (same : first.Rewritten second) :
    second.links = first.links := by
  rw [same]
  rfl

theorem vfsWrite_sameLinks {platform : Platform} {fuel id off count : Nat} {buffer : List UInt8}
    (written : vfsWrite platform fuel storage id off buffer = some (count, storage')) :
    storage.fs.SameLinks storage'.fs := by
  rcases vfsWrite_rewritten written with ⟨node, node', found, same, fs⟩
  rw [fs]
  apply Fs.SameLinks.modify
  intro other held
  rw [found] at held
  cases held
  exact same.links

theorem truncate_sameLinks (storage : Storage) (id : Nat) :
    storage.fs.SameLinks (storage.truncate id).fs :=
  Fs.SameLinks.modify storage.fs id fun node _ => (rfl : node.truncate.links = node.links)

theorem rewrite_sameLinks {platform : Platform} {fuel id count : Nat} {buffer : List UInt8}
    (written : rewrite fuel platform id buffer storage = some (count, storage')) :
    storage.fs.SameLinks storage'.fs :=
  (truncate_sameLinks storage id).trans (vfsWrite_sameLinks written)

theorem VfsNode.own_links (cred : Cred) (permissions : UInt32) (node : VfsNode) :
    (node.own cred permissions).links = node.links := rfl

theorem vfsMkdir_linked {platform : Platform} {cred : Cred} {umask : UInt32} {fs fs' : Fs}
    {path : PathArg} {cwd result : Option Nat} (linked : fs.Linked)
    (made : vfsMkdir platform cred umask fs path cwd = some (result, fs')) : fs'.Linked := by
  rcases vfsMkdir_cases made with ⟨-, rfl⟩ | ⟨parent, name, id, -, creates, created⟩
  · exact linked
  · rcases creates.directory with ⟨node, live, -⟩
    apply created.linked linked
    · rw [live]
      exact Option.some_ne_none _
    · exact VfsNode.own_links cred _

theorem vfsCreate_linked {platform : Platform} {cred : Cred} {umask : UInt32} {fs fs' : Fs}
    {path : PathArg} {cwd result : Option Nat} (linked : fs.Linked)
    (made : vfsCreate platform cred umask fs path cwd = some (result, fs')) : fs'.Linked := by
  rcases vfsCreate_cases made with ⟨-, rfl⟩ | ⟨-, -, -, -, rfl, -⟩ |
    ⟨parent, name, id, -, creates, created⟩
  · exact linked
  · exact linked
  · rcases creates.directory with ⟨node, live, -⟩
    apply created.linked linked
    · rw [live]
      exact Option.some_ne_none _
    · exact VfsNode.own_links cred _

theorem vfsDelete_linked {cred : Cred} {fs fs' : Fs} {store store' : Blockfs} {path : PathArg}
    {cwd : Option Nat} {code : Int} (linked : fs.Linked)
    (deleted : vfsDelete cred fs store path cwd = some (code, fs', store')) : fs'.Linked := by
  rcases vfsDelete_cases deleted with ⟨-, rfl, -⟩ | ⟨id, -, -, -, -, removed⟩
  · exact linked
  · have kept := ramfsRemoveNode_linked linked store id
    rwa [removed] at kept

theorem makeDev_linked {platform : Platform} {site : Nat} {fs : Fs} {dev : Nat}
    {name : List UInt8} {ops : NodeOps} {size perms : UInt32}
    (held : fs.Linked ∧ fs.node dev ≠ none) :
    (makeDev platform site fs dev name ops size perms).Linked ∧
      (makeDev platform site fs dev name ops size perms).node dev ≠ none := by
  rcases held with ⟨linked, live⟩
  rw [makeDev]
  cases created : ramfsCreateNode (platform.alloc site) platform.now fs dev name vfsDevice with
  | none => exact ⟨linked, live⟩
  | some made =>
      rcases made with ⟨id, fs'⟩
      have kept := ramfsCreateNode_liveIn linked.bounded created dev live
      exact ⟨(ramfsCreateNode_linked linked live created).1.of_same (.modify fs' id fun _ _ => rfl),
        Fs.LiveIn.modify fs' id _ dev kept⟩

theorem devfsInit_linked {platform : Platform} {fs : Fs} (linked : fs.Linked) (disk : Disk) :
    (devfsInit platform fs disk).Linked := by
  rw [devfsInit]
  cases found : fs.root.bind fun root => vfsFinddir fs root (literal "dev") with
  | none => exact linked
  | some dev =>
      rcases Option.bind_eq_some_iff.mp found with ⟨root, -, entry⟩
      rcases vfsFinddir_mem entry with ⟨-, node, live, -⟩
      have alive : fs.node dev ≠ none := by
        rw [live]
        exact Option.some_ne_none _
      simp only
      split
      · exact (makeDev_linked (makeDev_linked (makeDev_linked (makeDev_linked
          ⟨linked, alive⟩)))).1
      · exact (makeDev_linked (makeDev_linked (makeDev_linked ⟨linked, alive⟩))).1

/-! ## Every run -/

/-- Each entry of a list of boot nodes names a parent that was created before it. -/
def ParentsMade : (made : Nat) → List BootNode → Prop
  | _, [] => True
  | made, entry :: rest => entry.parent < made ∧ ParentsMade (made + 1) rest

theorem bootNodes_parentsMade : ParentsMade 1 bootNodes := by
  simp [bootNodes, ParentsMade]

theorem bootNodes_links {entry : BootNode} (member : entry ∈ bootNodes) (node : VfsNode) :
    (entry.change node).links = node.links := by
  simp only [bootNodes, List.mem_cons, List.not_mem_nil, or_false] at member
  rcases member with rfl | rfl | rfl | rfl | rfl | rfl | rfl | rfl | rfl | rfl | rfl | rfl | rfl
  all_goals rfl

theorem ramfsInitNode_linked {platform : Platform} {entry : BootNode} (linked : storage.fs.Linked)
    (filled : ∀ id, id < storage.fs.next → storage.fs.node id ≠ none)
    (made : entry.parent < storage.fs.next)
    (keeps : ∀ node, (entry.change node).links = node.links)
    (booted : ramfsInitNode platform storage entry = some storage') :
    storage'.fs.Linked ∧ storage'.fs.next = storage.fs.next + 1 ∧
      ∀ id, id < storage'.fs.next → storage'.fs.node id ≠ none := by
  rcases Option.bind_eq_some_iff.mp booted with ⟨⟨id, fs⟩, created, rest⟩
  have new := ramfsCreateNode_linked linked (filled _ made) created
  have next := ramfsCreateNode_next created
  have live := ramfsCreateNode_liveIn linked.bounded created
  have number : id = storage.fs.next := by
    rcases ramfsCreateNode_cases created with ⟨-, -, same, -⟩
    exact same
  have changed := Fs.SameLinks.modify fs id fun node _ => keeps node
  have result : fs.SameLinks storage'.fs := by
    simp only at rest
    split at rest
    · cases rest
      exact changed
    · rcases Option.map_eq_some_iff.mp rest with ⟨⟨count, written⟩, isWritten, same⟩
      cases same
      apply changed.trans
      rcases ramfsWrite_written isWritten with ⟨node, found, changes⟩
      rcases changes.node with ⟨node', same', fs'⟩
      rw [fs']
      apply Fs.SameLinks.modify
      intro other held
      simp only at held found
      rw [found] at held
      cases held
      exact same'.rewritten.links
  refine ⟨new.1.of_same result, result.next.trans next, fun other below => ?_⟩
  rw [result.next, next] at below
  have held : fs.node other ≠ none := by
    by_cases here : other = id
    · rw [here]
      exact new.2
    · apply live
      apply filled
      omega
  rcases Option.ne_none_iff_exists'.mp held with ⟨node, found⟩
  rcases result.node found with ⟨node', found', -⟩
  rw [found']
  exact Option.some_ne_none _

theorem bootRoot_linked (now : UInt32) : (bootRoot now).Linked := by
  have only : ∀ id, id ≠ 0 → (bootRoot now).node id = none := fun id other => if_neg other
  have none_ : ∀ id, (bootRoot now).childrenOf id = [] := by
    intro id
    by_cases here : id = 0
    · rw [here]
      rfl
    · rw [Fs.childrenOf, only id here]
  refine ⟨fun id beyond => only id (Nat.ne_of_gt beyond), ⟨0, _, rfl, rfl, rfl⟩,
    fun id child listed => ?_, fun id => ?_⟩
  · rw [none_] at listed
    cases listed
  · rw [none_]
    exact List.nodup_nil

theorem ramfsInit_linked {platform : Platform} {disk : Disk}
    (booted : ramfsInit platform disk = some storage) : storage.fs.Linked := by
  have run : ∀ (entries : List BootNode) (start : Storage), start.fs.Linked →
      (∀ id, id < start.fs.next → start.fs.node id ≠ none) →
      ParentsMade start.fs.next entries →
      (∀ entry ∈ entries, ∀ node, (entry.change node).links = node.links) →
      entries.foldlM (ramfsInitNode platform) start = some storage → storage.fs.Linked := by
    intro entries
    induction entries with
    | nil =>
        intro start linked _ _ _ done
        cases done
        exact linked
    | cons entry rest known =>
        intro start linked filled parents keeps done
        rw [List.foldlM_cons] at done
        rcases Option.bind_eq_some_iff.mp done with ⟨middle, first, later⟩
        rcases ramfsInitNode_linked linked filled parents.1 (keeps entry List.mem_cons_self) first
          with ⟨linked', next, filled'⟩
        apply known middle linked' filled' _ _ later
        · rw [next]
          exact parents.2
        · exact fun other member => keeps other (List.mem_cons_of_mem _ member)
  apply run bootNodes _ _ _ bootNodes_parentsMade (fun _ member => bootNodes_links member) booted
  · exact bootRoot_linked platform.now
  · intro id below
    rw [Nat.lt_one_iff.mp below]
    exact Option.some_ne_none _

theorem boot_linked {platform : BootPlatform} {disk : Disk}
    (booted : boot platform disk = some storage) : storage.fs.Linked := by
  rcases Option.bind_eq_some_iff.mp booted with ⟨initial, isInitial, rest⟩
  rcases Option.bind_eq_some_iff.mp rest with ⟨loaded, isLoaded, mounted⟩
  have start := ramfsInit_linked isInitial
  have middle : loaded.fs.Linked := by
    rw [bootDisk] at isLoaded
    split at isLoaded
    · cases outcome : diskfsLoad platform.diskfs.faults platform.diskfs.alloc
          (fun _ => platform.diskfs.now) initial.fs initial.disk with
      | ret code fs =>
          rw [outcome] at isLoaded
          cases isLoaded
          exact diskfsLoad_linked start outcome
      | wild =>
          rw [outcome] at isLoaded
          cases isLoaded
    · cases isLoaded
      exact start
  exact fat16Init_linked (devfsInit_linked middle _) mounted

section Step

variable {stages : Nat → Platform} {fuel : Nat} {caller : Caller} {path : PathArg} {code : Int}

theorem sysCreate_linked {result : Option Nat} (linked : storage.fs.Linked)
    (ran : sysCreate stages caller path storage = some (result, storage')) :
    storage'.fs.Linked := by
  rcases Option.map_eq_some_iff.mp ran with ⟨⟨created, fs⟩, made, same⟩
  cases same
  exact vfsCreate_linked linked made

theorem sysUnlink_linked (linked : storage.fs.Linked)
    (ran : sysUnlink caller path storage = some (code, storage')) : storage'.fs.Linked := by
  rcases Option.map_eq_some_iff.mp ran with ⟨⟨result, fs, store⟩, deleted, same⟩
  cases same
  exact vfsDelete_linked linked deleted

theorem sysWriteFile_linked {buffer : List UInt8} (linked : storage.fs.Linked)
    (ran : sysWriteFile stages fuel caller path buffer storage = some (code, storage')) :
    storage'.fs.Linked := by
  rcases Option.bind_eq_some_iff.mp ran with ⟨⟨created, middle⟩, isCreated, rest⟩
  have kept := sysCreate_linked linked isCreated
  cases created with
  | none =>
      cases rest
      exact kept
  | some id =>
      rcases Option.map_eq_some_iff.mp rest with ⟨⟨count, written⟩, isWritten, same⟩
      cases same
      exact kept.of_same (rewrite_sameLinks isWritten)

theorem sysRename_linked {dst : PathArg} (linked : storage.fs.Linked)
    (ran : sysRename stages fuel caller path dst storage = some (code, storage')) :
    storage'.fs.Linked := by
  rcases Option.bind_eq_some_iff.mp ran with ⟨source, -, rest⟩
  split at rest
  · cases rest
    exact linked
  split at rest
  · cases rest
    exact linked
  split at rest
  · cases rest
    exact linked
  split at rest
  · cases rest
    exact linked
  rcases Option.bind_eq_some_iff.mp rest with ⟨⟨bytes, afterRead⟩, read, rest⟩
  have kept : afterRead.fs.Linked := by
    rw [vfsRead_state read]
    exact linked
  rcases Option.bind_eq_some_iff.mp rest with ⟨⟨created, middle⟩, isCreated, rest⟩
  have kept' := sysCreate_linked kept isCreated
  cases created with
  | none =>
      cases rest
      exact kept'
  | some dn =>
      rcases Option.bind_eq_some_iff.mp rest with ⟨⟨count, written⟩, isWritten, rest⟩
      rcases Option.map_eq_some_iff.mp rest with ⟨⟨deleted, last⟩, isDeleted, same⟩
      cases same
      exact sysUnlink_linked (kept'.of_same (rewrite_sameLinks isWritten)) isDeleted

end Step

theorem FsCall.run_linked {call : FsCall} (linked : storage.fs.Linked)
    (ran : call.run storage = some storage') : storage'.fs.Linked := by
  rcases call with ⟨stages, fuel, caller, op⟩
  cases op with
  | mkdir path =>
      rcases Option.map_eq_some_iff.mp ran with ⟨⟨code, last⟩, made, rfl⟩
      rcases Option.map_eq_some_iff.mp made with ⟨⟨result, fs⟩, isMade, same⟩
      cases same
      exact vfsMkdir_linked linked isMade
  | create path =>
      rcases Option.map_eq_some_iff.mp ran with ⟨⟨code, last⟩, made, rfl⟩
      exact sysCreate_linked linked made
  | writeFile path buffer =>
      rcases Option.map_eq_some_iff.mp ran with ⟨⟨code, last⟩, made, rfl⟩
      exact sysWriteFile_linked linked made
  | unlink path =>
      rcases Option.map_eq_some_iff.mp ran with ⟨⟨code, last⟩, made, rfl⟩
      exact sysUnlink_linked linked made
  | rmdir path =>
      rcases Option.map_eq_some_iff.mp ran with ⟨⟨code, last⟩, made, rfl⟩
      rcases Option.bind_eq_some_iff.mp made with ⟨target, -, rest⟩
      split at rest
      · cases rest
        exact linked
      split at rest
      · cases rest
        exact linked
      · exact sysUnlink_linked linked rest
  | rename src dst =>
      rcases Option.map_eq_some_iff.mp ran with ⟨⟨code, last⟩, made, rfl⟩
      exact sysRename_linked linked made
  | read id off size =>
      rcases Option.map_eq_some_iff.mp ran with ⟨⟨bytes, last⟩, read, rfl⟩
      rw [vfsRead_state read]
      exact linked
  | write id off buffer =>
      rcases Option.map_eq_some_iff.mp ran with ⟨⟨count, last⟩, written, rfl⟩
      exact linked.of_same (vfsWrite_sameLinks written)
  | truncate id =>
      cases ran
      exact linked.of_same (truncate_sameLinks storage id)
  | readdir id index =>
      rcases Option.map_eq_some_iff.mp ran with ⟨⟨entry, last⟩, listed, rfl⟩
      rw [vfsReaddir] at listed
      split at listed
      · cases listed
      split at listed
      · cases listed
        exact linked
      · exact fatReaddir_linked linked listed
      · cases listed
        exact linked
  | chmod path perms | chown path uid gid =>
      rcases Option.map_eq_some_iff.mp ran with ⟨⟨code, fs⟩, changed, rfl⟩
      rcases Option.map_eq_some_iff.mp changed with ⟨target, -, same⟩
      split at same
      · cases same
        exact linked
      split at same
      · cases same
        exact linked
      · cases same
        exact linked.of_same (.modify storage.fs _ fun _ _ => rfl)
  | sync =>
      cases ran
      exact linked
  | load =>
      simp only [FsCall.run] at ran
      split at ran
      · rename_i outcome
        cases ran
        exact diskfsLoad_linked linked outcome
      · cases ran
  | mountDevices =>
      cases ran
      exact devfsInit_linked linked _
  | mountFat => exact fat16Init_linked linked ran

theorem Runs.linked {starts : BootPlatform → Disk → Prop} {allowed : FsCall → Storage → Prop}
    (reached : Runs starts allowed storage) : storage.fs.Linked := by
  induction reached with
  | boot _ booted => exact boot_linked booted
  | call _ _ ran known => exact FsCall.run_linked known ran

end Calls

end Trinux
