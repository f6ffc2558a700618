import Trinux.Fs.NodePath

namespace Trinux

open Bytes

/-!
# Names in directories, and the nodes that carry data

The names of a directory's children are to be distinct and such as a path can
have, and only files are to carry data.  No function of the kernel keeps this by
itself: a lookup compares the whole requested name with names that were cut, the
drivers append nodes without a lookup, and a write by path does not look at the
type of what it finds.  Every edit keeps it where the name it stores is unused and
the node it writes to is a file.
-/

/-! ## The invariant -/

def VfsNode.CarriesData (node : VfsNode) : Prop := node.data.isSome ∨ node.blocks.isSome

namespace Fs

def nameOf (fs : Fs) (id : Nat) : List UInt8 :=
  match fs.node id with
  | none => []
  | some node => node.name

def childNames (fs : Fs) (id : Nat) : List (List UInt8) := (fs.childrenOf id).map fs.nameOf

def ProperName (name : List UInt8) : Prop := name ≠ [] ∧ slash ∉ name

instance (name : List UInt8) : Decidable (ProperName name) :=
  inferInstanceAs (Decidable (name ≠ [] ∧ slash ∉ name))

/-- The children of every directory have distinct proper names and point back to it, and only
files carry data. -/
structure WellNamed (fs : Fs) : Prop where
  linked : fs.Linked
  distinct : ∀ id, (fs.childNames id).Nodup
  proper : ∀ id, ∀ name ∈ fs.childNames id, ProperName name
  data : ∀ id node, fs.node id = some node → node.CarriesData → node.type = vfsFile

theorem nameOf_eq {fs : Fs} {id : Nat} {node : VfsNode} (found : fs.node id = some node) :
    fs.nameOf id = node.name := by
  rw [nameOf, found]

theorem nameOf_congr {first second : Fs} {id : Nat} (same : first.node id = second.node id) :
    first.nameOf id = second.nameOf id := by
  rw [nameOf, nameOf, same]

/-! ## Edits -/

section Edits

variable {fs fs' : Fs}

/-- A heap whose lists of names are parts of those of another. -/
theorem WellNamed.of_sublist (named : fs.WellNamed) (linked : fs'.Linked)
    (names : ∀ id, List.Sublist (fs'.childNames id) (fs.childNames id))
    (data : ∀ id node, fs'.node id = some node → node.CarriesData → node.type = vfsFile) :
    fs'.WellNamed :=
  ⟨linked, fun id => (names id).nodup (named.distinct id),
    fun id name member => named.proper id name ((names id).subset member), data⟩

/-- Heaps whose nodes have the same pointers, names and types, and of which the second has data
only where the first has some or has a file. -/
structure SameNames (first second : Fs) : Prop extends first.SameLinks second where
  names : ∀ id, second.nameOf id = first.nameOf id
  data : ∀ id node, second.node id = some node → node.CarriesData →
    ∃ before, first.node id = some before ∧ before.type = node.type ∧
      (before.CarriesData ∨ before.type = vfsFile)

theorem SameNames.childNames (same : fs.SameNames fs') (id : Nat) :
    fs'.childNames id = fs.childNames id := by
  rw [Fs.childNames, same.childrenOf, Fs.childNames]
  exact List.map_congr_left fun child _ => same.names child

theorem WellNamed.of_same (named : fs.WellNamed) (same : fs.SameNames fs') : fs'.WellNamed := by
  apply named.of_sublist (named.linked.of_same same.toSameLinks)
  · intro id
    rw [same.childNames]
  · intro id node found carries
    rcases same.data id node found carries with ⟨before, held, type, old | file⟩
    · rw [← type]
      exact named.data id before held old
    · rw [← type]
      exact file

/-- Changing a node that keeps its pointers, name and type, and gets data only if it is a
file. -/
theorem SameNames.modify (fs : Fs) (id : Nat) {change : VfsNode → VfsNode}
    (keeps : ∀ node, fs.node id = some node → (change node).links = node.links ∧
      (change node).name = node.name ∧ (change node).type = node.type ∧
      ((change node).CarriesData → node.CarriesData ∨ node.type = vfsFile)) :
    fs.SameNames (fs.modify id change) := by
  refine ⟨.modify fs id fun node found => (keeps node found).1, fun other => ?_,
    fun other node found carries => ?_⟩
  · by_cases here : other = id
    · rw [here, nameOf, modify_node_self, nameOf]
      cases found : fs.node id with
      | none => rfl
      | some node => exact (keeps node found).2.1
    · exact nameOf_congr (modify_node_of_ne fs change here)
  · by_cases here : other = id
    · rw [here, modify_node_self] at found
      rcases Option.map_eq_some_iff.mp found with ⟨before, held, rfl⟩
      rcases keeps before held with ⟨-, -, type, data⟩
      exact ⟨before, here ▸ held, type.symm, data carries⟩
    · rw [modify_node_of_ne fs change here] at found
      exact ⟨node, found, rfl, Or.inl carries⟩

theorem childNames_alloc (linked : fs.Linked) {node : VfsNode} (leaf : node.children = [])
    (id : Nat) : (fs.alloc node).childNames id = fs.childNames id := by
  have children : (fs.alloc node).childrenOf id = fs.childrenOf id := by
    by_cases new : id = fs.next
    · rw [new, childrenOf_eq (alloc_node_self fs node), leaf,
        childrenOf_of_bounded linked.bounded (Nat.le_refl _)]
    · exact childrenOf_congr (alloc_node_of_ne fs node new)
  rw [childNames, children, childNames]
  apply List.map_congr_left
  intro child listed
  rcases linked.listed id child listed with ⟨-, below, found, -⟩
  exact nameOf_congr (alloc_node_of_ne fs node (Nat.ne_of_lt (linked.bounded.lt found)))

theorem childNames_attach (fs : Fs) {parent : Nat} {above : VfsNode} (child : Nat)
    (live : fs.node parent = some above) (id : Nat) :
    (fs.modify parent (VfsNode.attach child)).childNames id =
      if id = parent then fs.childNames id ++ [fs.nameOf child] else fs.childNames id := by
  have names : (fs.modify parent (VfsNode.attach child)).nameOf = fs.nameOf := by
    funext other
    by_cases here : other = parent
    · rw [here, nameOf, modify_node_self, live, nameOf, live]
      rfl
    · exact nameOf_congr (modify_node_of_ne _ _ here)
  rw [childNames, names, childrenOf_modify_attach _ _ _ _ live, childNames]
  split
  · rw [List.map_append, List.map_singleton]
  · rfl

theorem childNames_create (linked : fs.Linked) {parent : Nat} {above node : VfsNode}
    (live : fs.node parent = some above) (leaf : node.children = []) (id : Nat) :
    ((fs.alloc node).modify parent (VfsNode.attach fs.next)).childNames id =
      if id = parent then fs.childNames id ++ [node.name] else fs.childNames id := by
  have held : (fs.alloc node).node parent = some above := by
    rw [alloc_node_of_ne fs node (Nat.ne_of_lt (linked.bounded.lt live))]
    exact live
  rw [childNames_attach _ _ held, childNames_alloc linked leaf,
    nameOf_eq (alloc_node_self fs node)]

theorem WellNamed.alloc (named : fs.WellNamed) {node : VfsNode} (leaf : node.children = [])
    (empty : ¬node.CarriesData) : (fs.alloc node).WellNamed := by
  apply named.of_sublist (named.linked.alloc leaf)
  · intro id
    rw [childNames_alloc named.linked leaf]
  · intro id held found carries
    by_cases new : id = fs.next
    · rw [new, alloc_node_self] at found
      cases found
      exact absurd carries empty
    · rw [alloc_node_of_ne fs node new] at found
      exact named.data id held found carries

theorem WellNamed.attach (named : fs.WellNamed) {parent child : Nat} {above : VfsNode}
    (live : fs.node parent = some above)
    (linked : (fs.modify parent (VfsNode.attach child)).Linked)
    (proper : ProperName (fs.nameOf child)) (unused : fs.nameOf child ∉ fs.childNames parent) :
    (fs.modify parent (VfsNode.attach child)).WellNamed := by
  have names := childNames_attach fs child live
  refine ⟨linked, fun id => ?_, fun id name member => ?_, fun id held found carries => ?_⟩
  · rw [names]
    split
    · rename_i here
      rw [here]
      apply List.Nodup.append (named.distinct parent) (List.nodup_singleton _)
      rw [List.disjoint_singleton]
      exact unused
    · exact named.distinct id
  · rw [names] at member
    split at member
    · rcases List.mem_append.mp member with old | new
      · exact named.proper id name old
      · rw [List.mem_singleton.mp new]
        exact proper
    · exact named.proper id name member
  · by_cases here : id = parent
    · rw [here, modify_node_self, live] at found
      cases found
      exact named.data parent above live carries
    · rw [modify_node_of_ne _ _ here] at found
      exact named.data id held found carries

theorem WellNamed.create (named : fs.WellNamed) {parent : Nat} {above node : VfsNode}
    (live : fs.node parent = some above) (leaf : node.children = [])
    (points : node.parent = some parent) (empty : ¬node.CarriesData)
    (proper : ProperName node.name) (unused : node.name ∉ fs.childNames parent) :
    ((fs.alloc node).modify parent (VfsNode.attach fs.next)).WellNamed := by
  have new : (fs.alloc node).nameOf fs.next = node.name := nameOf_eq (alloc_node_self fs node)
  have held : (fs.alloc node).node parent = some above := by
    rw [alloc_node_of_ne fs node (Nat.ne_of_lt (named.linked.bounded.lt live))]
    exact live
  apply (named.alloc leaf empty).attach held (named.linked.create live leaf points)
  · rw [new]
    exact proper
  · rw [new, childNames_alloc named.linked leaf]
    exact unused

theorem WellNamed.remove (named : fs.WellNamed) {parent child : Nat}
    (listed : child ∈ fs.childrenOf parent) :
    ((fs.modify parent (VfsNode.detach child)).free child).WellNamed := by
  apply named.of_sublist (named.linked.remove listed)
  · intro id
    have nameEq : ∀ other, other ≠ child →
        ((fs.modify parent (VfsNode.detach child)).free child).nameOf other = fs.nameOf other := by
      intro other kept
      rw [nameOf_congr (free_node_of_ne _ kept)]
      by_cases here : other = parent
      · rw [here, nameOf, modify_node_self, nameOf]
        cases fs.node parent <;> rfl
      · exact nameOf_congr (modify_node_of_ne _ _ here)
    rw [childNames, childrenOf_remove, childNames]
    split
    · exact List.nil_sublist _
    split
    · have names : ((fs.childrenOf id).erase child).map
          ((fs.modify parent (VfsNode.detach child)).free child).nameOf =
          ((fs.childrenOf id).erase child).map fs.nameOf := by
        apply List.map_congr_left
        intro other member
        apply nameEq
        exact ((List.Nodup.mem_erase_iff (named.linked.distinct id)).mp member).1
      rw [names]
      exact (List.erase_sublist).map _
    · rename_i elsewhere
      have names : (fs.childrenOf id).map
          ((fs.modify parent (VfsNode.detach child)).free child).nameOf =
          (fs.childrenOf id).map fs.nameOf := by
        apply List.map_congr_left
        intro other member
        apply nameEq
        rintro rfl
        exact elsewhere (named.linked.parent_unique member listed)
      rw [names]
  · intro id node found carries
    by_cases gone : id = child
    · rw [gone, free_node_self] at found
      cases found
    rw [free_node_of_ne _ gone] at found
    by_cases here : id = parent
    · rw [here, modify_node_self] at found
      rcases Option.map_eq_some_iff.mp found with ⟨before, held, rfl⟩
      exact named.data parent before held carries
    · rw [modify_node_of_ne _ _ here] at found
      exact named.data id node found carries

theorem WellNamed.prune (named : fs.WellNamed) (pruned : Pruned (fun _ => False) fs fs') :
    fs'.WellNamed := by
  have linked := named.linked.prune pruned
  apply named.of_sublist linked
  · intro id
    rcases pruned.childrenOf id with same | empty
    · have names : fs'.childNames id = fs.childNames id := by
        rw [childNames, same, childNames]
        apply List.map_congr_left
        intro child listed
        rcases pruned.nodes child with same' | gone | cleared
        · exact nameOf_congr same'
        · rw [← same] at listed
          rcases linked.listed id child listed with ⟨-, node, found, -⟩
          rw [gone] at found
          cases found
        · rw [nameOf, cleared, nameOf]
          cases fs.node child <;> rfl
      rw [names]
    · rw [childNames, empty]
      exact List.nil_sublist _
  · intro id node found carries
    rcases pruned.nodes id with same | gone | cleared
    · rw [same] at found
      exact named.data id node found carries
    · rw [gone] at found
      cases found
    · rw [cleared] at found
      rcases Option.map_eq_some_iff.mp found with ⟨before, held, rfl⟩
      exact named.data id before held carries

end Edits

end Fs

/-! ## Creating nodes -/

/-- A name that may be stored in a directory: its stored part is proper and not in use. -/
structure NameFree (fs : Fs) (parent : Nat) (name : List UInt8) : Prop where
  proper : Fs.ProperName (nameField name)
  unused : nameField name ∉ fs.childNames parent

section Create

variable {granted : Bool} {now : UInt32} {fs fs' : Fs} {parent id : Nat} {name : List UInt8}
  {type : UInt32}

theorem VfsNode.create_empty (now : UInt32) (parent : Option Nat) (name : List UInt8)
    (type : UInt32) : ¬(VfsNode.create now parent name type).CarriesData := by
  rintro (data | blocks)
  · cases data
  · cases blocks

theorem ramfsCreateNode_wellNamed (named : fs.WellNamed) (live : fs.node parent ≠ none)
    (free : NameFree fs parent name)
    (created : ramfsCreateNode granted now fs parent name type = some (id, fs')) :
    fs'.WellNamed := by
  rcases Option.ne_none_iff_exists'.mp live with ⟨above, found⟩
  rcases ramfsCreateNode_cases created with ⟨-, -, rfl, rfl⟩
  exact named.create found rfl rfl (VfsNode.create_empty _ _ _ _) free.proper free.unused

theorem ramfsCreateNode_childNames (linked : fs.Linked) (live : fs.node parent ≠ none)
    (created : ramfsCreateNode granted now fs parent name type = some (id, fs')) (other : Nat) :
    fs'.childNames other =
      if other = parent then fs.childNames other ++ [nameField name] else fs.childNames other := by
  rcases Option.ne_none_iff_exists'.mp live with ⟨above, found⟩
  rcases ramfsCreateNode_cases created with ⟨-, -, rfl, rfl⟩
  exact Fs.childNames_create linked found rfl other

theorem VfsNode.own_keeps (cred : Cred) (permissions : UInt32) (node : VfsNode) :
    (node.own cred permissions).links = node.links ∧
      (node.own cred permissions).name = node.name ∧
      (node.own cred permissions).type = node.type ∧
      ((node.own cred permissions).CarriesData → node.CarriesData ∨ node.type = vfsFile) :=
  ⟨rfl, rfl, rfl, Or.inl⟩

theorem CreatedBelow.keepsNames {cred : Cred} {permissions : UInt32} (named : fs.WellNamed)
    (live : fs.node parent ≠ none) (free : NameFree fs parent name)
    (created : CreatedBelow fs parent name type (VfsNode.own cred permissions) id fs') :
    fs'.WellNamed := by
  rcases created with ⟨granted, now, made, new, rfl⟩
  apply (ramfsCreateNode_wellNamed named live free new).of_same
  exact Fs.SameNames.modify made id fun node _ => VfsNode.own_keeps cred permissions node

end Create

/-! ## Paths that create nodes -/

theorem pathBasename_pathBuild {names : List (List UInt8)}
    (valid : ∀ name ∈ names, PathName name) :
    pathBasename (pathBuild names) = names.getLast?.getD [slash] := by
  rcases List.eq_nil_or_concat names with rfl | ⟨front, last, rfl⟩
  · decide
  · rw [List.concat_eq_append] at valid ⊢
    have name := valid last (by simp)
    have built : ∃ text, pathBuild (front ++ [last]) = text ++ slash :: last := by
      refine ⟨front.flatMap fun name => slash :: name, ?_⟩
      rw [pathBuild, if_neg (by simp), List.flatMap_append, List.flatMap_singleton]
    rcases built with ⟨text, built⟩
    have kept : ∀ byte ∈ last.reverse, decide (byte ≠ slash) = true := by
      intro byte member
      rw [decide_eq_true_eq]
      rintro rfl
      exact name.plain (List.mem_reverse.mp member)
    have taken : ((text ++ slash :: last).reverse.takeWhile fun byte => byte ≠ slash) =
        last.reverse := by
      rw [List.reverse_append, List.reverse_cons, List.append_assoc,
        List.takeWhile_append_of_pos kept, List.singleton_append, List.takeWhile_cons_of_neg
        (by simp), List.append_nil]
    rw [pathBasename, built, taken, List.reverse_reverse, if_neg name.nonempty]
    simp

theorem vfsParent_name {fs : Fs} {path : PathArg} {cwd parent : Option Nat} {name : List UInt8}
    (target : vfsParent fs path cwd = some (parent, name)) : name = [slash] ∨ PathName name := by
  rcases Option.bind_eq_some_iff.mp target with ⟨norm, normalized, resolved⟩
  rcases Option.map_eq_some_iff.mp resolved with ⟨found, -, same⟩
  rcases absNormalize_output normalized with ⟨names, output⟩
  cases same
  rw [output.built, pathBasename_pathBuild output.valid]
  cases last : names.getLast? with
  | none => exact Or.inl rfl
  | some name => exact Or.inr (output.valid name (List.mem_of_getLast? last))

theorem PathName.nameField {name : List UInt8} (valid : PathName name) :
    Fs.ProperName (nameField name) := by
  refine ⟨fun empty => valid.nonempty ?_, fun member => valid.plain (List.mem_of_mem_take member)⟩
  rcases List.take_eq_nil_iff.mp empty with none_ | none_
  · cases none_
  · exact none_

/-- Where a path would create a node, it is not the path of the root and the stored part of its
last component is not in use. -/
def CreatesFreely (fs : Fs) (path : PathArg) (cwd : Option Nat) : Prop :=
  ∀ parent name, CreatesIn fs path cwd parent name →
    name ≠ [slash] ∧ nameField name ∉ fs.childNames parent

theorem CreatesFreely.free {fs : Fs} {path : PathArg} {cwd : Option Nat} {parent : Nat}
    {name : List UInt8} (freely : CreatesFreely fs path cwd)
    (creates : CreatesIn fs path cwd parent name) : NameFree fs parent name := by
  rcases freely parent name creates with ⟨notRoot, unused⟩
  rcases vfsParent_name creates.target with isRoot | valid
  · exact absurd isRoot notRoot
  · exact ⟨valid.nameField, unused⟩

/-! ## Writing -/

/-- A write that gives data to no other node than a file: its target is a file or has a driver's
callback, or nothing is written at its start. -/
def WritesFile (fs : Fs) (id off : Nat) (buffer : List UInt8) : Prop :=
  ∀ node, fs.node id = some node →
    node.type = vfsFile ∨ node.ops ≠ .ramfs ∨ off = 0 ∧ buffer = []

section Write

variable {platform : Platform} {fuel id off count : Nat} {storage storage' : Storage}
  {buffer : List UInt8}

theorem neededBlocks_zero : neededBlocks 0 0 = 0 := by decide

/-- Nothing written at the start of a file leaves its buffer and its blocks. -/
theorem ramfsWrite_nothing {node node' : VfsNode} (found : storage.fs.node id = some node)
    (written : ramfsWrite platform storage id 0 [] = some (count, storage'))
    (after : storage'.fs.node id = some node') :
    node'.data = node.data ∧ node'.blocks = node.blocks := by
  have block : ∀ start : VfsNode, start.data = node.data → start.blocks = node.blocks →
      diskfileWrite platform storage id start 0 [] = some (count, storage') →
      node'.data = node.data ∧ node'.blocks = node.blocks := by
    intro start data blocks wrote
    rw [diskfileWrite, List.length_nil, neededBlocks_zero, ensureBlocks,
      if_pos (Nat.zero_le _)] at wrote
    simp only [diskfileWriteLoop, Option.map_some] at wrote
    cases wrote
    rw [Storage.setNode, Fs.modify_node_self, found] at after
    cases after
    exact ⟨data, blocks⟩
  rw [ramfsWrite, found] at written
  simp only at written
  split at written
  · exact block node rfl rfl written
  split at written
  · exact block { node with diskBacked := true } rfl rfl written
  · rw [bufferWrite] at written
    rw [if_pos (by simp [Bytes.u32])] at written
    rcases Option.map_eq_some_iff.mp written with ⟨copy, copied, same⟩
    rw [VfsNode.copyIn, if_pos List.length_nil] at copied
    cases copied
    cases same
    rw [Storage.setNode, Fs.modify_node_self, found] at after
    cases after
    exact ⟨rfl, rfl⟩

theorem vfsWrite_sameNames (file : WritesFile storage.fs id off buffer)
    (written : vfsWrite platform fuel storage id off buffer = some (count, storage')) :
    storage.fs.SameNames storage'.fs := by
  rcases vfsWrite_rewritten written with ⟨node, node', found, same, fs⟩
  have after : storage'.fs.node id = some node' := by
    rw [fs, Fs.modify_node_self, found, Option.map_some]
  have name : node'.name = node.name := by rw [same]
  have type : node'.type = node.type := by rw [same]
  have data : node'.CarriesData → node.CarriesData ∨ node.type = vfsFile := by
    intro carries
    rw [vfsWrite, found] at written
    simp only at written
    cases callbacks : node.ops with
    | ramfs =>
        rw [callbacks] at written
        rcases file node found with isFile | driver | ⟨rfl, rfl⟩
        · exact Or.inr isFile
        · exact absurd callbacks driver
        · left
          rcases ramfsWrite_nothing found written after with ⟨sameData, sameBlocks⟩
          rwa [VfsNode.CarriesData, sameData, sameBlocks] at carries
    | fatFile =>
        left
        rw [callbacks] at written
        rcases Option.map_eq_some_iff.mp written with ⟨result, fatWritten, done⟩
        cases done
        rw [Storage.setNode, Fs.modify_node_self, found] at after
        cases after
        rw [fatNodeWrite_rewritten fatWritten] at carries
        exact carries
    | devZero | devNull | devRandom | devSda | fatDirectory =>
        left
        rw [callbacks] at written
        cases written
        rw [found] at after
        cases after
        exact carries
  rw [fs]
  apply Fs.SameNames.modify
  intro other held
  rw [found] at held
  cases held
  exact ⟨same.links, name, type, data⟩

end Write

/-! ## Reading directories of a FAT volume -/

def fatNames : List (List UInt8) → List (List UInt8)
  | [] => []
  | entry :: rest =>
      if byteAt entry 0 = 0 then []
      else if fatSkipsEntry entry then fatNames rest
      else fatFormatName entry :: fatNames rest

def NamesDistinct (names : List (List UInt8)) : Prop :=
  (names.take vfsMaxChildren).Nodup ∧ ∀ name ∈ names.take vfsMaxChildren, Fs.ProperName name

theorem NamesDistinct.next {front rest : List (List UInt8)} {name : List UInt8}
    (distinct : NamesDistinct (front ++ name :: rest)) (room : front.length < vfsMaxChildren) :
    Fs.ProperName name ∧ name ∉ front := by
  have kept : (front ++ [name]).Sublist ((front ++ name :: rest).take vfsMaxChildren) := by
    have longer : (front ++ [name]).length ≤ vfsMaxChildren := by
      rw [List.length_append, List.length_singleton]
      exact room
    have split : front ++ name :: rest = (front ++ [name]) ++ rest := by
      rw [List.append_assoc, List.singleton_append]
    rw [split, List.take_append, List.take_of_length_le longer]
    exact List.sublist_append_left _ _
  refine ⟨distinct.2 name (kept.subset (by simp)), fun again => ?_⟩
  have nodup := kept.nodup distinct.1
  rw [List.nodup_append] at nodup
  exact nodup.2.2 name again name (List.mem_singleton_self name) rfl

theorem NamesDistinct.full {front rest rest' : List (List UInt8)}
    (distinct : NamesDistinct (front ++ rest)) (full : vfsMaxChildren ≤ front.length) :
    NamesDistinct (front ++ rest') := by
  rw [NamesDistinct, List.take_append_of_le_length full] at distinct ⊢
  exact distinct

section Fat

variable {platform : Platform} {dir : Nat} {fs fs' : Fs}

theorem fatReadEntries_wellNamed {entries : List (List UInt8)} {site : Nat}
    (named : fs.WellNamed) (live : fs.node dir ≠ none) (unlisted : ∀ id, dir ∉ fs.childrenOf id)
    (distinct : NamesDistinct (fs.childNames dir ++ fatNames entries))
    (read : fatReadEntries platform dir entries site fs = some fs') : fs'.WellNamed := by
  induction entries generalizing site fs with
  | nil =>
      cases read
      exact named
  | cons entry rest known =>
      rw [fatReadEntries] at read
      rw [fatNames] at distinct
      by_cases last : byteAt entry 0 = 0
      · rw [if_pos last] at read
        cases read
        exact named
      rw [if_neg last] at read distinct
      by_cases skipped : fatSkipsEntry entry = true
      · rw [if_pos skipped] at read distinct
        exact known named live unlisted distinct read
      rw [if_neg skipped] at read distinct
      split at read
      · cases read
      by_cases room : (fs.childrenOf dir).length < vfsMaxChildren
      · rw [if_pos room] at read
        rcases Option.ne_none_iff_exists'.mp live with ⟨above, found⟩
        have filled := FatFilled.entry named.linked live unlisted entry
        have leaf : (fatEntryNode dir entry).children = [] := rfl
        have names := Fs.childNames_create named.linked found leaf
        have count : (fs.childNames dir).length < vfsMaxChildren := by
          rw [Fs.childNames, List.length_map]
          exact room
        rcases distinct.next count with ⟨proper, unused⟩
        have empty : ¬(fatEntryNode dir entry).CarriesData := by
          rintro (data | blocks)
          · cases data
          · cases blocks
        apply known (named.create found leaf rfl empty proper unused) (filled.live live)
          filled.unlisted _ read
        rw [names, if_pos rfl, List.append_assoc]
        exact distinct
      · rw [if_neg room] at read
        apply known named live unlisted _ read
        apply distinct.full
        rw [Fs.childNames, List.length_map]
        exact Nat.le_of_not_lt room

/-- Reading a directory whose names are distinct and proper. -/
theorem fatReadDir_wellNamed {start : Nat} {entries : Option (List (List UInt8))}
    (named : fs.WellNamed)
    (distinct : ∀ found, entries = some found → NamesDistinct (fatNames found))
    (read : fatReadDir platform start entries fs = some (dir, fs')) : fs'.WellNamed := by
  rw [fatReadDir] at read
  split at read
  · cases read
  rcases Option.bind_eq_some_iff.mp read with ⟨found, isFound, filled⟩
  rcases Option.map_eq_some_iff.mp filled with ⟨result, entriesRead, same⟩
  cases same
  have new := Fs.alloc_node_self fs (fatDirectoryNode start)
  have leaf : (fatDirectoryNode start).children = [] := rfl
  have empty : ¬(fatDirectoryNode start).CarriesData := by
    rintro (data | blocks)
    · cases data
    · cases blocks
  have allocated := named.alloc leaf empty
  have none_ : (fs.alloc (fatDirectoryNode start)).childNames fs.next = [] := by
    rw [Fs.childNames, Fs.childrenOf_eq new]
    rfl
  apply fatReadEntries_wellNamed allocated _ _ _ entriesRead
  · rw [new]
    exact Option.some_ne_none _
  · intro id listed
    by_cases here : id = fs.next
    · rw [here, Fs.childrenOf_eq new, leaf] at listed
      cases listed
    · rw [Fs.childrenOf_congr (Fs.alloc_node_of_ne fs _ here)] at listed
      exact named.linked.unlisted_next id listed
  · rw [none_]
    exact distinct found isFound

/-- Taking over the children of a directory that nothing lists, where there were none. -/
theorem Fs.WellNamed.adopt {node loaded : Nat} {above : VfsNode} (named : fs.WellNamed)
    (older : node < loaded) (live : fs.node node = some above) (none_ : above.children = [])
    (unlisted : ∀ id, loaded ∉ fs.childrenOf id) (notRoot : fs.root ≠ some loaded) :
    (fatAdopt node loaded fs).WellNamed := by
  have alive : fs.node node ≠ none := by
    rw [live]
    exact Option.some_ne_none _
  have linked := named.linked.adopt older alive unlisted notRoot
  have nameEq : ∀ id, id ≠ loaded → (fatAdopt node loaded fs).nameOf id = fs.nameOf id := by
    intro id stays
    rcases fatAdopt_map node fs stays with ⟨change, mapped, keeps⟩
    rw [Fs.nameOf, mapped, Fs.nameOf]
    cases fs.node id with
    | none => rfl
    | some entry =>
        rw [Option.map_some]
        simp only
        rw [keeps]
  have children := fatAdopt_childrenOf named.linked older alive
  have names : ∀ id, (fatAdopt node loaded fs).childNames id =
      if id = loaded then []
      else if id = node then fs.childNames loaded else fs.childNames id := by
    intro id
    have same : ∀ other, (fs.childrenOf other).map (fatAdopt node loaded fs).nameOf =
        fs.childNames other := by
      intro other
      apply List.map_congr_left
      intro child listed
      apply nameEq
      rintro rfl
      exact unlisted other listed
    rw [Fs.childNames, children]
    split
    · rfl
    split
    · rw [Fs.childrenOf_eq live, none_, List.nil_append, same]
    · exact same id
  refine ⟨linked, fun id => ?_, fun id name member => ?_, fun id held found carries => ?_⟩
  · rw [names]
    split
    · exact List.nodup_nil
    split
    · exact named.distinct loaded
    · exact named.distinct id
  · rw [names] at member
    split at member
    · cases member
    split at member
    · exact named.proper loaded name member
    · exact named.proper id name member
  · have stays : id ≠ loaded := by
      rintro rfl
      rw [fatAdopt_node, if_pos rfl] at found
      cases found
    rcases fatAdopt_map node fs stays with ⟨change, mapped, keeps⟩
    rw [mapped] at found
    rcases Option.map_eq_some_iff.mp found with ⟨old, isOld, rfl⟩
    rw [keeps] at carries ⊢
    exact named.data id old isOld carries

def ReadsNamed (platform : Platform) (fuel : Nat) (storage : Storage) (id index : Nat) : Prop :=
  ∀ child node entries, (storage.fs.childrenOf id)[index]? = some child →
    storage.fs.node child = some node →
    fatSubEntries platform fuel storage.fat storage.disk (node.ownerGid.toNat % 2 ^ 16) =
      some entries → NamesDistinct (fatNames entries)

theorem fatReaddir_wellNamed {fuel id index : Nat} {storage storage' : Storage}
    {entry : Option Nat} (named : storage.fs.WellNamed)
    (distinct : ReadsNamed platform fuel storage id index)
    (listed : fatReaddir platform fuel storage id index = some (entry, storage')) :
    storage'.fs.WellNamed := by
  rcases fatReaddir_cases listed with rfl |
    ⟨child, node, dir, read, found, live, empty, loaded, rfl⟩
  · exact named
  have result := fatReadDir_read named.linked loaded
  have below := named.linked.bounded.lt live
  have filled := fatReadDir_wellNamed named
    (fun entries isRead => distinct child node entries found live isRead) loaded
  have kept : read.node child = some node := by
    rw [result.older child below, live]
  apply filled.adopt _ kept empty result.unlisted
  · intro isRoot
    rw [result.root] at isRoot
    rcases named.linked.rooted with ⟨root, top, isRoot', held, -⟩
    rw [isRoot'] at isRoot
    cases isRoot
    exact Nat.ne_of_lt (named.linked.bounded.lt held) result.number
  · rw [result.number]
    exact below

/-- Changing the name and the parent of a node that nothing lists. -/
theorem Fs.childNames_unlisted {id : Nat} {change : VfsNode → VfsNode}
    (unlisted : ∀ other, id ∉ fs.childrenOf other)
    (keeps : ∀ node, (change node).children = node.children) (other : Nat) :
    (fs.modify id change).childNames other = fs.childNames other := by
  have children : (fs.modify id change).childrenOf other = fs.childrenOf other := by
    by_cases here : other = id
    · rw [here, childrenOf, modify_node_self, childrenOf]
      cases fs.node id with
      | none => rfl
      | some node => exact keeps node
    · exact childrenOf_congr (modify_node_of_ne fs change here)
  rw [childNames, children, childNames]
  apply List.map_congr_left
  intro child listed
  apply nameOf_congr
  apply modify_node_of_ne
  rintro rfl
  exact unlisted other listed

theorem Fs.WellNamed.unlisted (named : fs.WellNamed) {id : Nat} {change : VfsNode → VfsNode}
    (linked : (fs.modify id change).Linked) (unlisted : ∀ other, id ∉ fs.childrenOf other)
    (keeps : ∀ node, (change node).children = node.children ∧ (change node).type = node.type ∧
      ((change node).CarriesData → node.CarriesData)) : (fs.modify id change).WellNamed := by
  apply named.of_sublist linked
  · intro other
    rw [childNames_unlisted unlisted fun node => (keeps node).1]
  · intro other node found carries
    by_cases here : other = id
    · rw [here, modify_node_self] at found
      rcases Option.map_eq_some_iff.mp found with ⟨before, held, rfl⟩
      rcases keeps before with ⟨-, type, data⟩
      rw [type]
      exact named.data id before held (data carries)
    · rw [modify_node_of_ne fs change here] at found
      exact named.data other node found carries

/-- Mounting stores distinct proper names: those of the volume's root directory, and `fat`. -/
structure MountNamed (platform : Platform) (storage : Storage) : Prop where
  entries : ∀ partitionLba sector fat entries,
    fatBootSector platform.faults storage.disk = some (partitionLba, sector) →
    fatLayout partitionLba sector = some fat →
    fatRootEntries platform fat storage.disk = some entries → NamesDistinct (fatNames entries)
  unused : fatBootSector platform.faults storage.disk ≠ none → ∀ root,
    storage.fs.root = some root → literal "fat" ∉ storage.fs.childNames root

theorem fat16Init_wellNamed {storage storage' : Storage} (named : storage.fs.WellNamed)
    (free : MountNamed platform storage) (mounted : fat16Init platform storage = some storage') :
    storage'.fs.WellNamed := by
  have linked := fat16Init_linked named.linked mounted
  rw [fat16Init] at mounted
  cases sector : fatBootSector platform.faults storage.disk with
  | none =>
      rw [sector] at mounted
      cases mounted
      exact named
  | some boot =>
      rw [sector] at mounted
      rcases Option.bind_eq_some_iff.mp mounted with ⟨fat, layout, entries⟩
      rcases Option.map_eq_some_iff.mp entries with ⟨⟨dir, fs⟩, read, same⟩
      have result := fatReadDir_read named.linked read
      have filled := fatReadDir_wellNamed named
        (fun entries isRead => free.entries _ _ fat entries sector layout isRead) read
      rcases named.linked.rooted with ⟨root, top, isRoot, held, isTop⟩
      have below := named.linked.bounded.lt held
      have different : root ≠ dir := by
        rw [result.number]
        exact Nat.ne_of_lt below
      have isRoot' : fs.root = some root := result.root.trans isRoot
      have notRoot : fs.root ≠ some dir := by
        rw [isRoot']
        simpa using different
      have rename : ∀ node : VfsNode, ({ node with name := literal "fat" }).children =
          node.children ∧ ({ node with name := literal "fat" }).type = node.type ∧
          (({ node with name := literal "fat" }).CarriesData → node.CarriesData) :=
        fun node => ⟨rfl, rfl, fun carries => carries⟩
      have renamed := filled.unlisted (filled.linked.reparent result.unlisted notRoot
        fun node => (rename node).1) result.unlisted rename
      have sameLinks : fs.SameLinks (fs.modify dir fun node =>
          { node with name := literal "fat" }) := .modify fs dir fun _ _ => rfl
      have unlisted : ∀ id, dir ∉ (fs.modify dir fun node =>
          { node with name := literal "fat" }).childrenOf id := by
        intro id
        rw [sameLinks.childrenOf]
        exact result.unlisted id
      have rootNames : (fs.modify dir fun node => { node with name := literal "fat" }).childNames
          root = storage.fs.childNames root := by
        rw [Fs.childNames_unlisted result.unlisted fun node => (rename node).1, Fs.childNames,
          Fs.childrenOf_congr (result.older root below), Fs.childNames]
        apply List.map_congr_left
        intro child listed
        rcases named.linked.listed root child listed with ⟨-, node, found, -⟩
        exact Fs.nameOf_congr (result.older child (named.linked.bounded.lt found))
      have rootLive : (fs.modify dir fun node => { node with name := literal "fat" }).node root =
          some top := by
        rw [Fs.modify_node_of_ne _ _ different, result.older root below]
        exact held
      have dirName : (fs.modify dir fun node => { node with name := literal "fat" }).nameOf dir =
          literal "fat" := by
        rcases result.directory with ⟨children, dirNode⟩
        rw [Fs.nameOf, Fs.modify_node_self, dirNode]
        rfl
      have unused := free.unused (by rw [sector]; exact Option.some_ne_none _) root isRoot
      have renamedRoot : (fs.modify dir fun node => { node with name := literal "fat" }).root =
          some root := isRoot'
      simp only at same
      generalize (fs.modify dir fun node => { node with name := literal "fat" }) = fs' at *
      rw [renamedRoot] at same
      simp only at same
      split at same
      · cases same
        have dirNotRoot : fs'.root ≠ some dir := by
          rw [renamedRoot]
          simpa using different
        have point : ∀ node : VfsNode, (VfsNode.under root node).children = node.children ∧
            (VfsNode.under root node).type = node.type ∧
            ((VfsNode.under root node).CarriesData → node.CarriesData) :=
          fun node => ⟨rfl, rfl, fun carries => carries⟩
        have pointed := renamed.unlisted (renamed.linked.reparent unlisted dirNotRoot
          fun node => (point node).1) unlisted point
        have pointedRoot : (fs'.modify dir (VfsNode.under root)).node root = some top := by
          rw [Fs.modify_node_of_ne _ _ different]
          exact rootLive
        have pointedName : (fs'.modify dir (VfsNode.under root)).nameOf dir = literal "fat" := by
          rw [Fs.nameOf, Fs.modify_node_self]
          rw [Fs.nameOf] at dirName
          cases found : fs'.node dir with
          | none =>
              rw [found] at dirName
              cases dirName
          | some node =>
              rw [found] at dirName
              exact dirName
        have comm := Fs.modify_comm fs' different (VfsNode.attach dir) (VfsNode.under root)
        have goal : ((fs'.modify dir (VfsNode.under root)).modify root
            (VfsNode.attach dir)).WellNamed := by
          apply pointed.attach pointedRoot
          · rw [← comm]
            exact linked
          · rw [pointedName]
            exact ⟨by decide, by decide⟩
          · rw [pointedName, Fs.childNames_unlisted unlisted fun node => (point node).1,
              rootNames]
            exact unused
        rw [← comm] at goal
        exact goal
      · cases same
        exact renamed

end Fat

/-! ## Device nodes -/

def deviceNames (disk : Disk) : List (List UInt8) :=
  [literal "zero", literal "null", literal "random"] ++
    if disk.present then [literal "sda"] else []

def DevicesNamed (fs : Fs) (disk : Disk) : Prop :=
  ∀ dev, (fs.root.bind fun root => vfsFinddir fs root (literal "dev")) = some dev →
    ∀ name ∈ deviceNames disk, name ∉ fs.childNames dev

section Devices

variable {platform : Platform} {fs : Fs} {dev : Nat}

def VfsNode.asDevice (ops : NodeOps) (size perms : UInt32) (node : VfsNode) : VfsNode :=
  { node with ops := ops, size := size, permissions := perms, ownerUid := 0, ownerGid := 0 }

theorem VfsNode.asDevice_keeps (ops : NodeOps) (size perms : UInt32) (node : VfsNode) :
    (node.asDevice ops size perms).links = node.links ∧
      (node.asDevice ops size perms).name = node.name ∧
      (node.asDevice ops size perms).type = node.type ∧
      ((node.asDevice ops size perms).CarriesData → node.CarriesData ∨ node.type = vfsFile) :=
  ⟨rfl, rfl, rfl, Or.inl⟩

structure DevicesFree (dev : Nat) (names : List (List UInt8)) (fs : Fs) : Prop where
  named : fs.WellNamed
  live : fs.node dev ≠ none
  unused : ∀ name ∈ names, name ∉ fs.childNames dev

theorem makeDev_wellNamed {site : Nat} {name : List UInt8} {rest : List (List UInt8)}
    {ops : NodeOps} {size perms : UInt32} (free : DevicesFree dev (name :: rest) fs)
    (proper : Fs.ProperName name) (whole : nameField name = name) (new : name ∉ rest) :
    DevicesFree dev rest (makeDev platform site fs dev name ops size perms) := by
  rw [makeDev]
  cases created : ramfsCreateNode (platform.alloc site) platform.now fs dev name vfsDevice with
  | none =>
      exact ⟨free.named, free.live, fun other member =>
        free.unused other (List.mem_cons_of_mem _ member)⟩
  | some made =>
      rcases made with ⟨id, fs'⟩
      have nameFree : NameFree fs dev name := by
        refine ⟨?_, ?_⟩
        · rw [whole]
          exact proper
        · rw [whole]
          exact free.unused name List.mem_cons_self
      have kept := ramfsCreateNode_wellNamed free.named free.live nameFree created
      have live := ramfsCreateNode_liveIn free.named.linked.bounded created dev free.live
      have same := Fs.SameNames.modify fs' id fun node _ =>
        VfsNode.asDevice_keeps ops size perms node
      refine ⟨kept.of_same same, Fs.LiveIn.modify fs' id _ dev live, fun other member again => ?_⟩
      have names : (fs'.modify id (VfsNode.asDevice ops size perms)).childNames dev =
          fs.childNames dev ++ [name] := by
        rw [same.childNames, ramfsCreateNode_childNames free.named.linked free.live created, if_pos rfl, whole]
      change other ∈ (fs'.modify id (VfsNode.asDevice ops size perms)).childNames dev at again
      rw [names] at again
      rcases List.mem_append.mp again with old | this
      · exact free.unused other (List.mem_cons_of_mem _ member) old
      · rw [List.mem_singleton.mp this] at member
        exact new member

theorem devfsInit_wellNamed {disk : Disk} (named : fs.WellNamed) (free : DevicesNamed fs disk) :
    (devfsInit platform fs disk).WellNamed := by
  rw [devfsInit]
  cases found : fs.root.bind fun root => vfsFinddir fs root (literal "dev") with
  | none => exact named
  | some dev =>
      have unused := free dev found
      rcases Option.bind_eq_some_iff.mp found with ⟨root, -, entry⟩
      rcases vfsFinddir_mem entry with ⟨-, node, live, -⟩
      have alive : fs.node dev ≠ none := by
        rw [live]
        exact Option.some_ne_none _
      simp only
      by_cases present : disk.present = true
      · rw [deviceNames, if_pos present] at unused
        have first : DevicesFree dev [literal "zero", literal "null", literal "random",
            literal "sda"] fs := ⟨named, alive, unused⟩
        rw [if_pos present]
        apply DevicesFree.named
        exact makeDev_wellNamed (makeDev_wellNamed (makeDev_wellNamed (makeDev_wellNamed first
          (by decide) (by decide) (by decide)) (by decide) (by decide) (by decide))
          (by decide) (by decide) (by decide)) (by decide) (by decide) (by decide)
      · rw [deviceNames, if_neg present] at unused
        have first : DevicesFree dev [literal "zero", literal "null", literal "random"] fs :=
          ⟨named, alive, unused⟩
        rw [if_neg present]
        apply DevicesFree.named
        exact makeDev_wellNamed (makeDev_wellNamed (makeDev_wellNamed first
          (by decide) (by decide) (by decide)) (by decide) (by decide) (by decide))
          (by decide) (by decide) (by decide)

end Devices

/-! ## Loading -/

/-- A record that the loader may restore in its state: it stores an unused proper name, unless it
is the root's, and data only for a file. -/
structure RecordNamed (img : List UInt8) (root : Nat) (state : LoadState) (header : RecordHeader)
    (name : List UInt8) (off : Nat) : Prop where
  free : header.parentIdx.toNat.testBit 31 = false →
    NameFree state.fs (state.map.getD header.parentIdx.toNat root) name
  data : header.type = vfsFile ∨
    (∀ node, ((header.restore img off node).CarriesData → node.CarriesData)) ∧
      (header.parentIdx.toNat.testBit 31 = true → ∀ node, state.fs.node root = some node →
        ¬node.CarriesData)

/-- Changing the contents and the type of a node, so that only files carry data. -/
theorem Fs.WellNamed.change {fs : Fs} (named : fs.WellNamed) {id : Nat}
    {change : VfsNode → VfsNode} (keeps : ∀ node, (change node).links = node.links ∧
      (change node).name = node.name)
    (data : ∀ node, fs.node id = some node → (change node).CarriesData →
      (change node).type = vfsFile) : (fs.modify id change).WellNamed := by
  have same := SameLinks.modify fs id fun node _ => (keeps node).1
  apply named.of_sublist (named.linked.of_same same)
  · intro other
    have names : (fs.modify id change).nameOf = fs.nameOf := by
      funext child
      by_cases here : child = id
      · rw [here, nameOf, modify_node_self, nameOf]
        cases fs.node id with
        | none => rfl
        | some node => exact (keeps node).2
      · exact nameOf_congr (modify_node_of_ne fs change here)
    rw [childNames, same.childrenOf, names, childNames]
  · intro other node found carries
    by_cases here : other = id
    · rw [here, modify_node_self] at found
      rcases Option.map_eq_some_iff.mp found with ⟨before, held, rfl⟩
      exact data before held carries
    · rw [modify_node_of_ne fs change here] at found
      exact named.data other node found carries

section Load

variable {alloc : Nat → Bool} {clock : Nat → UInt32} {img : List UInt8} {imageBytes root i : Nat}

structure LoadState.Named (root : Nat) (state : LoadState) : Prop extends state.Linked root where
  isRoot : state.fs.root = some root
  named : state.fs.WellNamed

theorem LoadState.Named.unlisted {state : LoadState} (held : state.Named root) (other : Nat) :
    root ∉ state.fs.childrenOf other := by
  rcases held.linked.rooted with ⟨root', top, isRoot, live, isTop⟩
  rw [held.isRoot] at isRoot
  cases isRoot
  exact held.linked.top live isTop other

theorem loadNode_named {header : RecordHeader} {name : List UInt8} {state : LoadState}
    {off id : Nat} {fs : Fs} (held : state.Named root)
    (record : RecordNamed img root state header name off)
    (opened : loadNode alloc clock root i header name state = .next (id, fs)) :
    fs.WellNamed ∧ fs.root = some root ∧ (header.type ≠ vfsFile → ∀ node, fs.node id = some node →
      ¬node.CarriesData) := by
  have linked := loadNode_linked held.toLinked opened
  rcases loadNode_next opened with ⟨isRoot, rfl, rfl⟩ | ⟨isRoot, created⟩
  · have keeps : ∀ node : VfsNode, ({ node with
        name := nameField (if name = [] then literal "/" else name) } : VfsNode).children =
          node.children ∧
        ({ node with name := nameField (if name = [] then literal "/" else name) } :
          VfsNode).type = node.type ∧
        (({ node with name := nameField (if name = [] then literal "/" else name) } :
          VfsNode).CarriesData → node.CarriesData) := fun node => ⟨rfl, rfl, fun data => data⟩
    refine ⟨held.named.unlisted linked.1 held.unlisted keeps, held.isRoot,
      fun other node found carries => ?_⟩
    rw [Fs.modify_node_self] at found
    rcases Option.map_eq_some_iff.mp found with ⟨before, live, rfl⟩
    rcases record.data with file | ⟨-, empty⟩
    · exact other file
    · exact empty isRoot before live carries
  · have live := held.slot header.parentIdx.toNat
    have free := record.free (by simpa using isRoot)
    refine ⟨ramfsCreateNode_wellNamed held.named live free created,
      (ramfsCreateNode_root created).trans held.isRoot, fun _ node found => ?_⟩
    rcases Option.ne_none_iff_exists'.mp live with ⟨above, above_⟩
    rw [ramfsCreateNode_new (held.linked.bounded.lt above_) created] at found
    cases found
    exact VfsNode.create_empty _ _ _ _

def LoadState.RecordNamed (img : List UInt8) (imageBytes root : Nat) (state : LoadState) : Prop :=
  u32 (state.off + 32) ≤ imageBytes →
    u32 (state.off + 32 + (readHeader img state.off).nameLen.toNat) ≤ imageBytes →
    (readHeader img state.off).nameLen.toNat < 64 →
    Trinux.RecordNamed img root state (readHeader img state.off)
      (cString (slice img (state.off + 32) (readHeader img state.off).nameLen.toNat))
      (state.off + 32 + (readHeader img state.off).nameLen.toNat)

theorem RecordHeader.restore_type_eq (header : RecordHeader) (img : List UInt8) (off : Nat)
    (node : VfsNode) : (header.restore img off node).type = node.type ∧
      (header.restore img off node).name = node.name := by
  unfold restore
  split
  · exact ⟨rfl, rfl⟩
  split <;> exact ⟨rfl, rfl⟩

theorem RecordHeader.apply_keeps (header : RecordHeader) (node : VfsNode) :
    (header.apply node).links = node.links ∧ (header.apply node).name = node.name := ⟨rfl, rfl⟩

/-- The node of a record with its metadata, and then with its contents. -/
theorem loadNode_restored {header : RecordHeader} {name : List UInt8} {state : LoadState}
    {off id : Nat} {opened : Fs} (held : state.Named root)
    (record : RecordNamed img root state header name off)
    (isOpened : loadNode alloc clock root i header name state = .next (id, opened)) :
    (opened.modify id header.apply).WellNamed ∧
      ((opened.modify id header.apply).modify id (header.restore img off)).WellNamed ∧
      opened.root = some root := by
  rcases loadNode_named held record isOpened with ⟨openedNamed, isRoot, empty⟩
  have first : ∀ node, opened.node id = some node → (header.apply node).CarriesData →
      (header.apply node).type = vfsFile := by
    intro node found carries
    by_contra other
    exact empty other node found carries
  have middle := openedNamed.change header.apply_keeps first
  have second : ∀ node, (opened.modify id header.apply).node id = some node →
      (header.restore img off node).CarriesData → (header.restore img off node).type = vfsFile := by
    intro node found carries
    rw [Fs.modify_node_self] at found
    rcases Option.map_eq_some_iff.mp found with ⟨before, live, rfl⟩
    rw [(header.restore_type_eq img off _).1]
    rcases record.data with file | ⟨none_, -⟩
    · exact file
    · exact first before live (none_ _ carries)
  have keeps : ∀ node, (header.restore img off node).links = node.links ∧
      (header.restore img off node).name = node.name :=
    fun node => ⟨header.restore_links img off node, (header.restore_type_eq img off node).2⟩
  exact ⟨middle, middle.change keeps second, isRoot⟩

theorem loadRecord_named (alloc : Nat → Bool) (clock : Nat → UInt32) (i : Nat)
    {state : LoadState} (held : state.Named root)
    (record : state.RecordNamed img imageBytes root) :
    (∀ next, loadRecord alloc clock img imageBytes root i state = .next next →
      next.Named root) ∧
    ∀ code fs, loadRecord alloc clock img imageBytes root i state = .fail code fs →
      fs.WellNamed := by
  refine ⟨fun next loaded => ?_, fun code fs failed => ?_⟩
  · have linked := (loadRecord_linked alloc clock img imageBytes i held.toLinked).1 next loaded
    rcases loadRecord_next loaded with ⟨⟨short, long, few⟩, id, opened, last, isOpened, rfl⟩
    rcases loadNode_restored held (record short long few) isOpened with ⟨-, filledNamed, isRoot⟩
    exact ⟨linked, isRoot, filledNamed⟩
  · rcases loadRecord_fail failed with ⟨-, rfl | ⟨⟨short, long, few⟩, id, opened, isOpened, rfl⟩⟩
    · exact held.named
    · exact (loadNode_restored held (record short long few) isOpened).1

/-- The condition on every record of an image, in the state in which the loader comes to it. -/
def recordsNamed (alloc : Nat → Bool) (clock : Nat → UInt32) (img : List UInt8)
    (imageBytes root : Nat) : (remaining i : Nat) → LoadState → Prop
  | 0, _, _ => True
  | remaining + 1, i, state =>
      state.RecordNamed img imageBytes root ∧
        ∀ next, loadRecord alloc clock img imageBytes root i state = .next next →
          recordsNamed alloc clock img imageBytes root remaining (i + 1) next

theorem loadRecords_named {remaining : Nat} {state : LoadState} (held : state.Named root)
    (records : recordsNamed alloc clock img imageBytes root remaining i state)
    {code : Int} {fs : Fs}
    (loaded : loadRecords alloc clock img imageBytes root remaining i state = .ret code fs) :
    fs.WellNamed := by
  induction remaining generalizing i state with
  | zero =>
      cases loaded
      exact held.named
  | succ remaining known =>
      rw [loadRecords] at loaded
      rcases records with ⟨record, rest⟩
      have step := loadRecord_named alloc clock i held record
      cases outcome : loadRecord alloc clock img imageBytes root i state with
      | fail code' fs' =>
          rw [outcome] at loaded
          cases loaded
          exact step.2 _ _ outcome
      | wild =>
          rw [outcome] at loaded
          cases loaded
      | next next =>
          rw [outcome] at loaded
          exact known (step.1 next outcome) (rest next outcome) loaded

def LoadNamed (faults : Faults) (alloc : Nat → Bool) (clock : Nat → UInt32) (fs : Fs)
    (disk : Disk) : Prop :=
  ∀ image root, readImage faults alloc disk = .ok image → fs.root = some root →
    recordsNamed alloc clock image.img image.imageBytes root image.nodeCount 0
      ⟨16, wipeChildren fs.next fs root, []⟩

theorem diskfsLoad_wellNamed {faults : Faults} {fs fs' : Fs} {disk : Disk} {code : Int}
    (named : fs.WellNamed) (free : LoadNamed faults alloc clock fs disk)
    (loaded : diskfsLoad faults alloc clock fs disk = .ret code fs') : fs'.WellNamed := by
  rw [diskfsLoad] at loaded
  cases read : readImage faults alloc disk with
  | error failed =>
      rw [read] at loaded
      cases loaded
      exact named
  | ok image =>
      rw [read] at loaded
      simp only [rebuild] at loaded
      rcases named.linked.rooted with ⟨root, node, isRoot, -, -⟩
      rw [isRoot] at loaded
      have rooted := (wipeChildren_rooted (named.linked.toRooted isRoot)).1
      rcases rooted.live with ⟨node', live⟩
      have wiped := named.prune (wipeChildren_pruned fs.next fs root)
      have alive : (wipeChildren fs.next fs root).node root ≠ none := by
        rw [live]
        exact Option.some_ne_none _
      exact loadRecords_named ⟨⟨wiped.linked, alive, by simp⟩, rooted.isRoot, wiped⟩
        (free image root read isRoot) loaded

end Load

/-! ## The default tree -/

def bootNames (entries : List BootNode) (parent : Nat) : List (List UInt8) :=
  (entries.filter fun entry => entry.parent = parent).map fun entry => nameField entry.name

/-- Each entry has a proper name that no earlier entry of its parent has, and a text only if it
is a file. -/
def nodesNamed : (made rest : List BootNode) → Bool
  | _, [] => true
  | made, entry :: rest =>
      decide (Fs.ProperName (nameField entry.name)) &&
        decide (nameField entry.name ∉ bootNames made entry.parent) &&
        decide (entry.text = [] ∨ entry.type = vfsFile) && nodesNamed (made ++ [entry]) rest

theorem bootNodes_named : nodesNamed [] bootNodes = true := by
  rw [bootNodes_eq]
  decide +kernel

theorem bootNodes_keeps {entry : BootNode} (member : entry ∈ bootNodes) (node : VfsNode) :
    (entry.change node).links = node.links ∧ (entry.change node).name = node.name ∧
      (entry.change node).type = node.type ∧
      ((entry.change node).CarriesData → node.CarriesData ∨ node.type = vfsFile) := by
  simp only [bootNodes, List.mem_cons, List.not_mem_nil, or_false] at member
  rcases member with rfl | rfl | rfl | rfl | rfl | rfl | rfl | rfl | rfl | rfl | rfl | rfl | rfl
  all_goals exact ⟨rfl, rfl, rfl, Or.inl⟩

section Init

variable {platform : Platform} {storage storage' : Storage} {made : List BootNode}

structure InitNamed (made : List BootNode) (storage : Storage) : Prop where
  named : storage.fs.WellNamed
  next : storage.fs.next = made.length + 1
  filled : ∀ id, id < storage.fs.next → storage.fs.node id ≠ none
  names : ∀ id, storage.fs.childNames id = bootNames made id

theorem ramfsInitNode_named {entry : BootNode} (held : InitNamed made storage)
    (parent : entry.parent < storage.fs.next) (member : entry ∈ bootNodes)
    (proper : Fs.ProperName (nameField entry.name))
    (unused : nameField entry.name ∉ bootNames made entry.parent)
    (text : entry.text = [] ∨ entry.type = vfsFile)
    (booted : ramfsInitNode platform storage entry = some storage') :
    InitNamed (made ++ [entry]) storage' := by
  rcases ramfsInitNode_linked held.named.linked held.filled parent (bootNodes_links member) booted
    with ⟨linked, next, filled⟩
  rcases Option.bind_eq_some_iff.mp booted with ⟨⟨id, fs⟩, created, rest⟩
  have live := held.filled _ parent
  rcases Option.ne_none_iff_exists'.mp live with ⟨above, found⟩
  have free : NameFree storage.fs entry.parent entry.name := by
    refine ⟨proper, ?_⟩
    rw [held.names]
    exact unused
  have createdNamed := ramfsCreateNode_wellNamed held.named live free created
  have names := ramfsCreateNode_childNames held.named.linked live created
  have new := ramfsCreateNode_new (held.named.linked.bounded.lt found) created
  have changed := Fs.SameNames.modify fs id fun node _ => bootNodes_keeps member node
  have result : storage'.fs.WellNamed ∧ ∀ other, storage'.fs.childNames other =
      fs.childNames other := by
    simp only at rest
    split at rest
    · cases rest
      exact ⟨createdNamed.of_same changed, changed.childNames⟩
    · rename_i written
      have file : entry.type = vfsFile := text.resolve_left written
      rcases Option.map_eq_some_iff.mp rest with ⟨⟨count, last⟩, isWritten, done⟩
      cases done
      rcases ramfsWrite_written isWritten with ⟨node, isNode, changes⟩
      rcases changes.node with ⟨node', same, fs'⟩
      simp only [Fs.modify_node_self, new, Option.map_some] at isNode
      cases isNode
      rcases bootNodes_keeps member (VfsNode.create platform.now (some entry.parent) entry.name
        entry.type) with ⟨-, -, type, -⟩
      have wrote : (fs.modify id entry.change).SameNames last.fs := by
        rw [fs']
        apply Fs.SameNames.modify
        intro other isOther
        rw [Fs.modify_node_self, new, Option.map_some] at isOther
        cases isOther
        refine ⟨same.rewritten.links, ?_, ?_, fun _ => Or.inr (type.trans file)⟩
        · rw [same]
        · rw [same]
      refine ⟨(createdNamed.of_same changed).of_same wrote, fun other => ?_⟩
      rw [wrote.childNames, changed.childNames]
  refine ⟨result.1, ?_, filled, fun other => ?_⟩
  · rw [next, held.next, List.length_append, List.length_singleton]
  · rw [result.2, names, held.names, bootNames, bootNames, List.filter_append, List.map_append]
    split
    · rename_i here
      rw [here]
      simp
    · rename_i elsewhere
      have other_ : ¬entry.parent = other := fun same => elsewhere same.symm
      simp [other_]

def bootStart (platform : Platform) (disk : Disk) : Storage where
  fs := bootRoot platform.now
  store := .disabled
  disk := disk
  fat := .unmounted
  randState := 0xCAFEBABE

theorem bootStart_named (platform : Platform) (disk : Disk) :
    InitNamed [] (bootStart platform disk) := by
  have only : ∀ id, id ≠ 0 → (bootStart platform disk).fs.node id = none := fun id other => if_neg other
  have none_ : ∀ id, (bootStart platform disk).fs.childNames id = [] := by
    intro id
    rw [Fs.childNames]
    by_cases here : id = 0
    · rw [here]
      rfl
    · rw [Fs.childrenOf, only id here]
      rfl
  refine ⟨⟨bootRoot_linked platform.now, fun id => ?_, fun id name member => ?_,
    fun id node found carries => ?_⟩, rfl, fun id below => ?_, none_⟩
  · rw [none_]
    exact List.nodup_nil
  · rw [none_] at member
    cases member
  · by_cases here : id = 0
    · subst here
      cases found
      exact absurd carries (VfsNode.create_empty _ _ _ _)
    · rw [only id here] at found
      cases found
  · rw [Nat.lt_one_iff.mp below]
    exact Option.some_ne_none _

theorem ramfsInit_wellNamed {disk : Disk} (booted : ramfsInit platform disk = some storage) :
    storage.fs.WellNamed := by
  have run : ∀ (entries made : List BootNode) (start : Storage), InitNamed made start →
      ParentsMade start.fs.next entries → nodesNamed made entries = true →
      (∀ entry ∈ entries, entry ∈ bootNodes) →
      entries.foldlM (ramfsInitNode platform) start = some storage → storage.fs.WellNamed := by
    intro entries
    induction entries with
    | nil =>
        intro made start held _ _ _ done
        cases done
        exact held.named
    | cons entry rest known =>
        intro made start held parents named members done
        rw [List.foldlM_cons] at done
        rcases Option.bind_eq_some_iff.mp done with ⟨middle, first, later⟩
        simp only [nodesNamed, Bool.and_eq_true, decide_eq_true_eq] at named
        rcases named with ⟨⟨⟨proper, unused⟩, text⟩, others⟩
        have member := members entry List.mem_cons_self
        have next := ramfsInitNode_named held parents.1 member proper unused text first
        apply known _ middle next _ others
          (fun other isOther => members other (List.mem_cons_of_mem _ isOther)) later
        have parents' := parents.2
        rw [held.next] at parents'
        rw [next.next, List.length_append, List.length_singleton]
        exact parents'
  exact run bootNodes [] (bootStart platform disk) (bootStart_named platform disk) bootNodes_parentsMade bootNodes_named
    (fun _ member => member) booted

end Init

/-! ## Runs -/

section Calls

variable {storage storage' : Storage}

def BootNamed (platform : BootPlatform) (disk : Disk) : Prop :=
  ∀ start, ramfsInit platform.ramfs disk = some start →
    (start.disk.present = true → LoadNamed platform.diskfs.faults platform.diskfs.alloc
      (fun _ => platform.diskfs.now) start.fs start.disk) ∧
    ∀ loaded, bootDisk platform start = some loaded →
      DevicesNamed loaded.fs loaded.disk ∧
        MountNamed platform.fat
          { loaded with fs := devfsInit platform.devfs loaded.fs loaded.disk }

def ReplacesFile (fs : Fs) (path : PathArg) (cwd : Option Nat) (buffer : List UInt8) : Prop :=
  ∀ parent name id, vfsParent fs path cwd = some (some parent, name) →
    vfsFinddir fs parent name = some id → WritesFile fs id 0 buffer

/-- A call that creates nodes only under names that are not in use, by a path other than that of
the root, and that writes data only to files. -/
def FsCall.Named (call : FsCall) (storage : Storage) : Prop :=
  match call.op with
  | .mkdir path | .create path => CreatesFreely storage.fs path call.caller.cwd
  | .writeFile path buffer => CreatesFreely storage.fs path call.caller.cwd ∧
      ReplacesFile storage.fs path call.caller.cwd buffer
  | .rename _ dst => CreatesFreely storage.fs dst call.caller.cwd ∧
      ∀ buffer, ReplacesFile storage.fs dst call.caller.cwd buffer
  | .write id off buffer => WritesFile storage.fs id off buffer
  | .readdir id index => ReadsNamed (call.stages 0) call.fuel storage id index
  | .load => LoadNamed (call.stages 0).faults (call.stages 0).alloc
      (fun _ => (call.stages 0).now) storage.fs storage.disk
  | .mountDevices => DevicesNamed storage.fs storage.disk
  | .mountFat => MountNamed (call.stages 0) storage
  | _ => True

theorem boot_wellNamed {platform : BootPlatform} {disk : Disk} (free : BootNamed platform disk)
    (booted : boot platform disk = some storage) : storage.fs.WellNamed := by
  rcases Option.bind_eq_some_iff.mp booted with ⟨start, isStart, rest⟩
  rcases Option.bind_eq_some_iff.mp rest with ⟨loaded, isLoaded, mounted⟩
  rcases free start isStart with ⟨load, later⟩
  rcases later loaded isLoaded with ⟨devices, volume⟩
  have named := ramfsInit_wellNamed isStart
  have middle : loaded.fs.WellNamed := by
    rw [bootDisk] at isLoaded
    split at isLoaded
    · rename_i present
      cases outcome : diskfsLoad platform.diskfs.faults platform.diskfs.alloc
          (fun _ => platform.diskfs.now) start.fs start.disk with
      | ret code fs =>
          rw [outcome] at isLoaded
          cases isLoaded
          exact diskfsLoad_wellNamed named (load present) outcome
      | wild =>
          rw [outcome] at isLoaded
          cases isLoaded
    · cases isLoaded
      exact named
  exact fat16Init_wellNamed (devfsInit_wellNamed middle devices) volume mounted

theorem truncate_sameNames (storage : Storage) (id : Nat) :
    storage.fs.SameNames (storage.truncate id).fs := by
  have keeps : ∀ node : VfsNode, node.truncate.links = node.links ∧
      node.truncate.name = node.name ∧ node.truncate.type = node.type ∧
      (node.truncate.CarriesData → node.CarriesData ∨ node.type = vfsFile) :=
    fun node => ⟨rfl, rfl, rfl, Or.inl⟩
  exact Fs.SameNames.modify storage.fs id fun node _ => keeps node

theorem rewrite_wellNamed {platform : Platform} {fuel id count : Nat} {buffer : List UInt8}
    (named : storage.fs.WellNamed) (file : WritesFile storage.fs id 0 buffer)
    (written : rewrite fuel platform id buffer storage = some (count, storage')) :
    storage'.fs.WellNamed := by
  apply (named.of_same (truncate_sameNames storage id)).of_same
  apply vfsWrite_sameNames _ written
  intro node found
  rw [Storage.truncate, Fs.modify_node_self] at found
  rcases Option.map_eq_some_iff.mp found with ⟨before, held, rfl⟩
  exact file before held

section Step

variable {stages : Nat → Platform} {fuel : Nat} {caller : Caller} {path : PathArg} {code : Int}

/-- What creating a file by its path leaves, and what may then be written to it. -/
theorem sysCreate_wellNamed {result : Option Nat} (named : storage.fs.WellNamed)
    (freely : CreatesFreely storage.fs path caller.cwd)
    (ran : sysCreate stages caller path storage = some (result, storage')) :
    storage'.fs.WellNamed ∧ ∀ id buffer, result = some id →
      ReplacesFile storage.fs path caller.cwd buffer → WritesFile storage'.fs id 0 buffer := by
  rcases Option.map_eq_some_iff.mp ran with ⟨⟨created, fs⟩, made, same⟩
  cases same
  rcases vfsCreate_cases made with ⟨rfl, rfl⟩ | ⟨parent, name, id, rfl, rfl, target, entry, -⟩ |
    ⟨parent, name, id, rfl, creates, below⟩
  · exact ⟨named, fun id buffer found => by cases found⟩
  · refine ⟨named, fun other buffer found replaces => ?_⟩
    cases found
    exact replaces parent name id target entry
  · rcases creates.directory with ⟨node, live, -⟩
    have alive : storage.fs.node parent ≠ none := by
      rw [live]
      exact Option.some_ne_none _
    refine ⟨below.keepsNames named alive (freely.free creates), fun other buffer found _ => ?_⟩
    cases found
    rcases below with ⟨granted, now, made', new, rfl⟩
    intro node' isNode
    rw [Fs.modify_node_self, ramfsCreateNode_new (named.linked.bounded.lt live) new] at isNode
    cases isNode
    exact Or.inl rfl

theorem sysUnlink_wellNamed (named : storage.fs.WellNamed)
    (ran : sysUnlink caller path storage = some (code, storage')) : storage'.fs.WellNamed := by
  rcases Option.map_eq_some_iff.mp ran with ⟨⟨result, fs, store⟩, deleted, same⟩
  cases same
  rcases vfsDelete_cases deleted with ⟨-, rfl, -⟩ | ⟨id, -, -, -, -, removed⟩
  · exact named
  · rcases ramfsRemoveNode_cases storage.fs storage.store id with ⟨-, same⟩ |
      ⟨node, parent, -, -, -, listed, removed'⟩
    · rw [removed] at same
      cases same
      exact named
    · rw [removed] at removed'
      cases removed'
      exact named.remove listed

theorem sysRename_wellNamed {dst : PathArg} (named : storage.fs.WellNamed)
    (freely : CreatesFreely storage.fs dst caller.cwd)
    (replaces : ∀ buffer, ReplacesFile storage.fs dst caller.cwd buffer)
    (ran : sysRename stages fuel caller path dst storage = some (code, storage')) :
    storage'.fs.WellNamed := by
  rcases Option.bind_eq_some_iff.mp ran with ⟨source, -, rest⟩
  split at rest
  · cases rest
    exact named
  split at rest
  · cases rest
    exact named
  split at rest
  · cases rest
    exact named
  split at rest
  · cases rest
    exact named
  rcases Option.bind_eq_some_iff.mp rest with ⟨⟨bytes, afterRead⟩, read, rest⟩
  have sameFs : afterRead.fs = storage.fs := by rw [vfsRead_state read]
  rw [← sameFs] at named freely replaces
  rcases Option.bind_eq_some_iff.mp rest with ⟨⟨created, middle⟩, isCreated, rest⟩
  rcases sysCreate_wellNamed named freely isCreated with ⟨kept, file⟩
  cases created with
  | none =>
      cases rest
      exact kept
  | some dn =>
      rcases Option.bind_eq_some_iff.mp rest with ⟨⟨count, written⟩, isWritten, rest⟩
      rcases Option.map_eq_some_iff.mp rest with ⟨⟨deleted, last⟩, isDeleted, same⟩
      cases same
      exact sysUnlink_wellNamed (rewrite_wellNamed kept (file dn bytes rfl (replaces bytes))
        isWritten) isDeleted

end Step

/-- A call that stores only unused proper names keeps the tree well named. -/
theorem FsCall.run_wellNamed {call : FsCall} (named : storage.fs.WellNamed)
    (free : call.Named storage) (ran : call.run storage = some storage') :
    storage'.fs.WellNamed := by
  rcases call with ⟨stages, fuel, caller, op⟩
  cases op with
  | mkdir path =>
      rcases Option.map_eq_some_iff.mp ran with ⟨⟨code, last⟩, made, rfl⟩
      rcases Option.map_eq_some_iff.mp made with ⟨⟨result, fs⟩, isMade, same⟩
      cases same
      rcases vfsMkdir_cases isMade with ⟨-, rfl⟩ | ⟨parent, name, id, -, creates, created⟩
      · exact named
      · rcases creates.directory with ⟨node, live, -⟩
        apply created.keepsNames named _ (CreatesFreely.free free creates)
        rw [live]
        exact Option.some_ne_none _
  | create path =>
      rcases Option.map_eq_some_iff.mp ran with ⟨⟨code, last⟩, made, rfl⟩
      exact (sysCreate_wellNamed named free made).1
  | writeFile path buffer =>
      rcases Option.map_eq_some_iff.mp ran with ⟨⟨code, last⟩, made, rfl⟩
      rcases free with ⟨freely, replaces⟩
      rcases Option.bind_eq_some_iff.mp made with ⟨⟨created, middle⟩, isCreated, rest⟩
      rcases sysCreate_wellNamed named freely isCreated with ⟨kept, file⟩
      cases created with
      | none =>
          cases rest
          exact kept
      | some id =>
          rcases Option.map_eq_some_iff.mp rest with ⟨⟨count, written⟩, isWritten, same⟩
          cases same
          exact rewrite_wellNamed kept (file id buffer rfl replaces) isWritten
  | unlink path =>
      rcases Option.map_eq_some_iff.mp ran with ⟨⟨code, last⟩, made, rfl⟩
      exact sysUnlink_wellNamed named made
  | rmdir path =>
      rcases Option.map_eq_some_iff.mp ran with ⟨⟨code, last⟩, made, rfl⟩
      rcases Option.bind_eq_some_iff.mp made with ⟨target, -, rest⟩
      split at rest
      · cases rest
        exact named
      split at rest
      · cases rest
        exact named
      · exact sysUnlink_wellNamed named rest
  | rename src dst =>
      rcases Option.map_eq_some_iff.mp ran with ⟨⟨code, last⟩, made, rfl⟩
      exact sysRename_wellNamed named free.1 free.2 made
  | read id off size =>
      rcases Option.map_eq_some_iff.mp ran with ⟨⟨bytes, last⟩, read, rfl⟩
      rw [vfsRead_state read]
      exact named
  | write id off buffer =>
      rcases Option.map_eq_some_iff.mp ran with ⟨⟨count, last⟩, written, rfl⟩
      exact named.of_same (vfsWrite_sameNames free written)
  | truncate id =>
      cases ran
      exact named.of_same (truncate_sameNames storage id)
  | readdir id index =>
      rcases Option.map_eq_some_iff.mp ran with ⟨⟨entry, last⟩, listed, rfl⟩
      rw [vfsReaddir] at listed
      split at listed
      · cases listed
      split at listed
      · cases listed
        exact named
      · exact fatReaddir_wellNamed named free listed
      · cases listed
        exact named
  | chmod path perms | chown path uid gid =>
      rcases Option.map_eq_some_iff.mp ran with ⟨⟨code, fs⟩, changed, rfl⟩
      rcases Option.map_eq_some_iff.mp changed with ⟨target, -, same⟩
      split at same
      · cases same
        exact named
      split at same
      · cases same
        exact named
      · cases same
        exact named.of_same (.modify storage.fs _ fun _ _ => ⟨rfl, rfl, rfl, Or.inl⟩)
  | sync =>
      cases ran
      exact named
  | load =>
      simp only [FsCall.run] at ran
      split at ran
      · rename_i outcome
        cases ran
        exact diskfsLoad_wellNamed named free outcome
      · cases ran
  | mountDevices =>
      cases ran
      exact devfsInit_wellNamed named free
  | mountFat => exact fat16Init_wellNamed named free ran

end Calls

/-- The names in the root directory after a write to the path of the root. -/
theorem writeRoot_names :
    (rootRun [.writeFile (.of [slash]) [1]]).map (fun storage =>
      decide ([slash] ∈ storage.fs.childNames 0)) = some true := by
  rw [rootRun, boot_ideal]
  decide +kernel

theorem ramfsInit_noDisk : ((ramfsInit .ideal noDisk).map fun start =>
    (start.disk.present, (start.fs.root.bind fun root => vfsFinddir start.fs root (literal "dev")).map
      start.fs.childNames)) = some (false, some []) := by
  rw [ramfsInit, bootNodes_eq]
  decide +kernel

/-- The conditions of the boot sequence on a machine without a drive. -/
theorem bootNamed_noDisk : BootNamed .ideal noDisk := by
  intro start isStart
  have facts := ramfsInit_noDisk
  change ((ramfsInit BootPlatform.ideal.ramfs noDisk).map _) = _ at facts
  rw [isStart, Option.map_some, Option.some.injEq, Prod.mk.injEq] at facts
  rcases facts with ⟨absent, devices⟩
  refine ⟨fun present => ?_, fun loaded isLoaded => ?_⟩
  · rw [absent] at present
    cases present
  · rw [bootDisk, if_neg (by simp [absent])] at isLoaded
    cases isLoaded
    refine ⟨fun dev found name member used => ?_, ⟨?_, ?_⟩⟩
    · rw [found, Option.map_some, Option.some.injEq] at devices
      rw [devices] at used
      cases used
    · intro partitionLba sector fat entries boots
      rw [fatBootSector, if_pos (by simp [absent])] at boots
      cases boots
    · intro boots
      rw [fatBootSector, if_pos (by simp [absent])] at boots
      exact absurd rfl boots

def notesPath : PathArg := .of (literal "/tmp/notes")
def notePath : PathArg := .of (literal "/tmp/notes/one")

theorem CreatesFreely.of_parent {fs : Fs} {path : PathArg} {cwd : Option Nat} {parent : Nat}
    {name : List UInt8} (target : vfsParent fs path cwd = some (some parent, name))
    (named : name ≠ [slash]) (unused : nameField name ∉ fs.childNames parent) :
    CreatesFreely fs path cwd := by
  intro parent' name' creates
  cases target.symm.trans creates.target
  exact ⟨named, unused⟩

theorem notes_written : ((boot .ideal noDisk).any fun start =>
    ((rootCall (.mkdir notesPath)).run start).any fun made =>
      ((rootCall (.writeFile notePath [1, 2])).run made).any fun written =>
        decide (vfsParent start.fs notesPath none = some (some 4, literal "notes") ∧
          nameField (literal "notes") ∉ start.fs.childNames 4 ∧
          vfsParent made.fs notePath none = some (some 17, literal "one") ∧
          nameField (literal "one") ∉ made.fs.childNames 17 ∧
          vfsFinddir made.fs 17 (literal "one") = none ∧
          (written.fs.node 18).isSome)) = true := by
  rw [boot_ideal]
  decide +kernel

end Trinux
