import Trinux.Fs.Linked

namespace Trinux

/-!
# Paths in a growing tree

Creating nodes and writing to files leave every older node under its parent, with
its name and behind the same older siblings.  A path that resolves to a node still
does so afterwards, since lookups take the first entry of a name.
-/

/-- The older nodes of a heap keep their place, their names and their lookups in another. -/
structure Fs.Grows (first second : Fs) : Prop where
  root : second.root = first.root
  next : first.next ≤ second.next
  kept : ∀ id node, first.node id = some node → ∃ node', second.node id = some node' ∧
    node'.parent = node.parent ∧ node'.name = node.name ∧ node'.type = node.type ∧
    node'.ops = node.ops ∧ node.children <+: node'.children

namespace Fs

variable {fs fs' fs'' : Fs}

theorem Grows.refl (fs : Fs) : fs.Grows fs :=
  ⟨rfl, Nat.le_refl _, fun _ node found => ⟨node, found, rfl, rfl, rfl, rfl, List.prefix_rfl⟩⟩

theorem Grows.trans (before : fs.Grows fs') (after : fs'.Grows fs'') : fs.Grows fs'' := by
  refine ⟨after.root.trans before.root, Nat.le_trans before.next after.next, fun id node found => ?_⟩
  rcases before.kept id node found with ⟨node', found', parent', name', type', ops', children'⟩
  rcases after.kept id node' found' with
    ⟨node'', found'', parent'', name'', type'', ops'', children''⟩
  exact ⟨node'', found'', parent''.trans parent', name''.trans name', type''.trans type',
    ops''.trans ops', children'.trans children''⟩

/-- Changing one node in fields that no lookup reads, or adding to its child list. -/
theorem Grows.modify (fs : Fs) (id : Nat) {change : VfsNode → VfsNode}
    (keeps : ∀ node, fs.node id = some node → (change node).parent = node.parent ∧
      (change node).name = node.name ∧ (change node).type = node.type ∧
      (change node).ops = node.ops ∧ node.children <+: (change node).children) :
    fs.Grows (fs.modify id change) := by
  refine ⟨rfl, Nat.le_refl _, fun other node found => ?_⟩
  by_cases here : other = id
  · subst here
    exact ⟨change node, by rw [modify_node_self, found, Option.map_some], keeps node found⟩
  · exact ⟨node, by rw [modify_node_of_ne _ _ here, found], rfl, rfl, rfl, rfl, List.prefix_rfl⟩

theorem Grows.alloc (bounded : fs.Bounded) (node : VfsNode) : fs.Grows (fs.alloc node) := by
  refine ⟨rfl, Nat.le_succ _, fun id old found => ?_⟩
  have different : id ≠ fs.next := Nat.ne_of_lt (bounded.lt found)
  exact ⟨old, by rw [alloc_node_of_ne _ _ different, found], rfl, rfl, rfl, rfl, List.prefix_rfl⟩

theorem Grows.children (grows : fs.Grows fs') {id child : Nat} (listed : child ∈ fs.childrenOf id) :
    child ∈ fs'.childrenOf id := by
  rcases live_of_mem_childrenOf listed with ⟨node, found, member⟩
  rcases grows.kept id node found with ⟨node', found', -, -, -, -, more⟩
  rw [childrenOf_eq found']
  exact more.subset member

/-! ## Lookups -/

theorem Grows.ramfsFinddir (grows : fs.Grows fs') (linked : fs.Linked) {id child : Nat}
    {name : List UInt8} (found : ramfsFinddir fs id name = some child) :
    ramfsFinddir fs' id name = some child := by
  rw [Trinux.ramfsFinddir] at found ⊢
  cases live : fs.node id with
  | none =>
      rw [live] at found
      cases found
  | some node =>
      rcases grows.kept id node live with ⟨node', live', -, -, type, -, rest, more⟩
      rw [live] at found
      rw [live']
      simp only at found ⊢
      rw [type]
      split at found
      · cases found
      rename_i directory
      rw [if_neg directory, ← more, List.find?_append]
      have entries : ∀ entry ∈ node.children,
          ((fs.node entry).any fun below => below.name == name) =
            (fs'.node entry).any fun below => below.name == name := by
        intro entry member
        rw [← childrenOf_eq live] at member
        rcases linked.listed id entry member with ⟨-, below, isLive, -⟩
        rcases grows.kept entry below isLive with ⟨below', isLive', -, same, -⟩
        rw [isLive, isLive', Option.any_some, Option.any_some, same]
      rw [← List.find?_congr entries, found, Option.some_or]

theorem Grows.vfsFinddir (grows : fs.Grows fs') (linked : fs.Linked) {id child : Nat}
    {name : List UInt8} (found : vfsFinddir fs id name = some child) :
    vfsFinddir fs' id name = some child := by
  rw [Trinux.vfsFinddir] at found ⊢
  cases live : fs.node id with
  | none =>
      rw [live] at found
      rw [Trinux.ramfsFinddir, live] at found
      cases found
  | some node =>
      rcases grows.kept id node live with ⟨node', live', -, -, -, ops, -⟩
      have sameOps : (fs'.node id).map VfsNode.ops = (fs.node id).map VfsNode.ops := by
        rw [live, live', Option.map_some, Option.map_some, ops]
      rw [sameOps]
      split at found
      · cases found
      · cases found
      · exact grows.ramfsFinddir linked found

theorem Grows.vfsWalk (grows : fs.Grows fs') (linked : fs.Linked)
    {components : List (List UInt8)} {start : Option Nat} {id : Nat}
    (walked : vfsWalk fs start components = some id) :
    vfsWalk fs' start components = some id := by
  induction components generalizing start with
  | nil => exact walked
  | cons token rest known =>
      rw [Trinux.vfsWalk] at walked ⊢
      cases next : start.bind fun id => Trinux.vfsFinddir fs id token with
      | none =>
          have stuck : Trinux.vfsWalk fs none rest = none := by
            clear known walked
            induction rest with
            | nil => rfl
            | cons _ _ known => exact known
          rw [next, stuck] at walked
          cases walked
      | some child =>
          rcases Option.bind_eq_some_iff.mp next with ⟨current, rfl, entry⟩
          rw [next] at walked
          rw [Option.bind_some, grows.vfsFinddir linked entry]
          exact known walked

/-! ## Paths -/

theorem Grows.getPathLoop (grows : fs.Grows fs') {fuel fuel' id : Nat} {rev path : List UInt8}
    (more : fuel ≤ fuel') (built : getPathLoop fs fuel id rev = some path) :
    getPathLoop fs' fuel' id rev = some path := by
  induction fuel generalizing fuel' id rev with
  | zero => cases built
  | succ fuel known =>
      cases fuel' with
      | zero => exact absurd more (Nat.not_succ_le_zero fuel)
      | succ fuel' =>
          rw [Trinux.getPathLoop] at built ⊢
          cases found : fs.node id with
          | none =>
              rw [found] at built
              cases built
          | some node =>
              rcases grows.kept id node found with ⟨node', found', parent, name, -⟩
              rw [found] at built
              rw [found']
              simp only at built ⊢
              rw [parent, name]
              cases above : node.parent with
              | none =>
                  rw [above] at built
                  exact built
              | some parent =>
                  rw [above] at built
                  simp only at built ⊢
                  split at built
                  · rename_i fits
                    rw [if_pos fits]
                    exact known (Nat.le_of_succ_le_succ more) built
                  · cases built

theorem Grows.vfsGetPath (grows : fs.Grows fs') {id : Nat} {path : List UInt8}
    (built : vfsGetPath fs id = some path) : vfsGetPath fs' id = some path := by
  rcases Option.map_eq_some_iff.mp built with ⟨rev, loop, same⟩
  rw [Trinux.vfsGetPath, grows.getPathLoop grows.next loop, Option.map_some, same]

theorem Grows.absNormalize (grows : fs.Grows fs') {path : PathArg} {cwd : Option Nat}
    {norm : List UInt8} (normalized : absNormalize fs path cwd = some norm) :
    absNormalize fs' path cwd = some norm := by
  rw [Trinux.absNormalize] at normalized ⊢
  split at normalized
  · rename_i absolute
    rw [if_pos absolute]
    exact normalized
  · rename_i relative
    rw [if_neg relative, grows.root]
    cases start : cwd <|> fs.root with
    | none =>
        rw [start] at normalized
        exact normalized
    | some id =>
        rw [start] at normalized
        rcases Option.bind_eq_some_iff.mp normalized with ⟨base, built, done⟩
        simp only
        rw [grows.vfsGetPath built]
        exact done

theorem Grows.vfsResolve (grows : fs.Grows fs') (linked : fs.Linked) {path : PathArg}
    {cwd : Option Nat} {id : Nat} (resolved : vfsResolve fs path cwd = some (some id)) :
    vfsResolve fs' path cwd = some (some id) := by
  rcases Option.map_eq_some_iff.mp resolved with ⟨norm, normalized, walked⟩
  rw [Trinux.vfsResolve, grows.absNormalize normalized, Option.map_some, grows.root,
    grows.vfsWalk linked walked]

end Fs

/-! ## What makes the tree grow -/

section Steps

variable {fs fs' : Fs} {storage storage' : Storage}

theorem ramfsCreateNode_grows {granted : Bool} {now : UInt32} {parent id : Nat}
    {name : List UInt8} {type : UInt32} (bounded : fs.Bounded)
    (created : ramfsCreateNode granted now fs parent name type = some (id, fs')) :
    fs.Grows fs' := by
  rcases ramfsCreateNode_cases created with ⟨-, -, -, rfl⟩
  apply (Fs.Grows.alloc bounded _).trans
  apply Fs.Grows.modify
  exact fun node _ => ⟨rfl, rfl, rfl, rfl, List.prefix_append _ _⟩

theorem CreatedBelow.grows {parent id : Nat} {name : List UInt8} {type : UInt32} {cred : Cred}
    {permissions : UInt32} (bounded : fs.Bounded)
    (created : CreatedBelow fs parent name type (VfsNode.own cred permissions) id fs') :
    fs.Grows fs' := by
  rcases created with ⟨granted, now, made, new, rfl⟩
  apply (ramfsCreateNode_grows bounded new).trans
  apply Fs.Grows.modify
  exact fun node _ => ⟨rfl, rfl, rfl, rfl, List.prefix_rfl⟩

theorem sysCreate_grows {stages : Nat → Platform} {caller : Caller} {path : PathArg}
    {result : Option Nat} (bounded : storage.fs.Bounded)
    (ran : sysCreate stages caller path storage = some (result, storage')) :
    storage.fs.Grows storage'.fs := by
  rcases Option.map_eq_some_iff.mp ran with ⟨⟨created, fs⟩, made, same⟩
  cases same
  rcases vfsCreate_cases made with ⟨-, rfl⟩ | ⟨-, -, -, -, rfl, -⟩ |
    ⟨parent, name, id, -, -, created⟩
  · exact .refl _
  · exact .refl _
  · exact created.grows bounded

theorem vfsWrite_grows {platform : Platform} {fuel id off count : Nat} {buffer : List UInt8}
    (written : vfsWrite platform fuel storage id off buffer = some (count, storage')) :
    storage.fs.Grows storage'.fs := by
  rcases vfsWrite_rewritten written with ⟨node, node', found, same, fs⟩
  rw [fs]
  apply Fs.Grows.modify
  intro other held
  rw [found] at held
  cases held
  rw [same]
  exact ⟨rfl, rfl, rfl, rfl, List.prefix_rfl⟩

theorem truncate_grows (storage : Storage) (id : Nat) :
    storage.fs.Grows (storage.truncate id).fs :=
  Fs.Grows.modify storage.fs id fun _ _ => ⟨rfl, rfl, rfl, rfl, List.prefix_rfl⟩

theorem rewrite_grows {platform : Platform} {fuel id count : Nat} {buffer : List UInt8}
    (written : rewrite fuel platform id buffer storage = some (count, storage')) :
    storage.fs.Grows storage'.fs :=
  (truncate_grows storage id).trans (vfsWrite_grows written)

end Steps

end Trinux
