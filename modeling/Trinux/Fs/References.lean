import Trinux.Fs.Growth
import Trinux.Fs.NodePath
import Trinux.Fs.OpenFiles

namespace Trinux

/-!
# References to nodes

Deleting a node frees it at once, and nothing looks whether a descriptor, a directory handle or
the current directory still points to it.  As long as no call deletes a node that one of them
leads through, all of them stay in the tree.
-/

namespace Fs

variable {fs fs' : Fs}

inductive Under (fs : Fs) (top : Nat) : Nat → Prop where
  | self : Under fs top top
  | child {parent id : Nat} (above : Under fs top parent) (listed : id ∈ fs.childrenOf parent) :
      Under fs top id

/-- The path names a node that `vfs_delete` removes: the caller may write to its directory, the
sticky bit does not protect it, and it is not a directory with entries. -/
structure Deletes (fs : Fs) (cred : Cred) (path : PathArg) (cwd : Option Nat) (id : Nat) : Prop where
  resolved : vfsResolve fs path cwd = some (some id)
  permitted : ∃ node parent above, fs.node id = some node ∧ node.parent = some parent ∧
    fs.node parent = some above ∧ Trinux.checkAccess cred above accWrite = true ∧
    stickyForbids cred above node = false ∧
    ¬(node.type = vfsDirectory ∧ 0 < node.children.length)

theorem InTree.grows {id : Nat} (inTree : fs.InTree id) (grows : fs.Grows fs') :
    fs'.InTree id := by
  induction inTree with
  | root isRoot => exact .root (grows.root.trans isRoot)
  | child _ listed known => exact .child known (grows.children listed)

/-- Removing a node keeps every node in the tree that is not below it. -/
theorem InTree.remove {parent child id : Nat} (inTree : fs.InTree id)
    (apart : ¬fs.Under child id) :
    ((fs.modify parent (VfsNode.detach child)).free child).InTree id := by
  induction inTree with
  | root isRoot => exact .root isRoot
  | child above listed known =>
      rename_i directory entry
      have outside : ¬fs.Under child directory := fun under => apart (under.child listed)
      apply InTree.child (known outside)
      have notChild : directory ≠ child := by
        rintro rfl
        exact outside .self
      have different : entry ≠ child := by
        rintro rfl
        exact apart .self
      rw [childrenOf_remove, if_neg notChild]
      split
      · exact (List.mem_erase_of_ne different).mpr listed
      · exact listed

/-- An older node is below a node after the tree has grown only if it was before. -/
theorem Under.of_grows {top id : Nat} (under : fs'.Under top id) (grows : fs.Grows fs')
    (linked' : fs'.Linked) (inTree : fs.InTree id) : fs.Under top id := by
  induction under with
  | self => exact .self
  | child above listed known =>
      cases inTree with
      | root isRoot =>
          rcases linked'.rooted with ⟨root, node, isRoot', live, isTop⟩
          rw [grows.root, isRoot] at isRoot'
          cases isRoot'
          exact absurd listed (linked'.top live isTop _)
      | child older listed' =>
          have same := linked'.parent_unique listed (grows.children listed')
          rw [← same] at older listed'
          exact .child (known older) listed'

end Fs

/-- `vfs_delete` leaves the tree alone or removes the node that the path names, if its checks
pass. -/
theorem vfsDelete_removes {cred : Cred} {fs fs' : Fs} {store store' : Blockfs} {path : PathArg}
    {cwd : Option Nat} {code : Int}
    (deleted : vfsDelete cred fs store path cwd = some (code, fs', store')) :
    fs' = fs ∨ ∃ id parent, fs.Deletes cred path cwd id ∧ id ∈ fs.childrenOf parent ∧
      fs' = (fs.modify parent (VfsNode.detach id)).free id := by
  rcases vfsDelete_cases deleted with ⟨-, same, -⟩ | ⟨id, node, found, live, checks, removed⟩
  · exact Or.inl same
  rcases ramfsRemoveNode_cases fs store id with ⟨-, same⟩ |
    ⟨node', parent, live', points, empty, listed, done⟩
  · rw [removed] at same
    exact Or.inl (congrArg Prod.fst same)
  · rw [removed] at done
    cases done
    cases live.symm.trans live'
    rcases checks parent points with ⟨above, held, may, free⟩
    exact Or.inr ⟨id, parent, ⟨found, node, parent, above, live, points, held, may, free, empty⟩,
      listed, rfl⟩

/-! ## References -/

namespace Session

/-- A descriptor in use, a directory handle or the current directory points to the node. -/
def Refers (s : Session) (id : Nat) : Prop :=
  (∃ fd, (s.descriptors.kfds fd).used = true ∧ (s.descriptors.kfds fd).node = some id) ∨
    (∃ dh, s.descriptors.dhTable dh = some id) ∨ s.cwd = some id

structure Attached (s : Session) : Prop where
  linked : s.storage.fs.Linked
  inTree : ∀ id, s.Refers id → s.storage.fs.InTree id

def Unreferenced (s : Session) (id : Nat) : Prop :=
  ∀ other, s.Refers other → ¬s.storage.fs.Under id other

/-- The call does not delete a node to which a reference leads.  A rename deletes its source if
that is a file which the caller may read. -/
def Spares (context : CallContext) (call : FileCall) (s : Session) : Prop :=
  match call with
  | .path (.unlink path) =>
      ∀ id, s.storage.fs.Deletes context.cred path s.cwd id → s.Unreferenced id
  | .path (.rmdir path) =>
      ∀ id, s.storage.fs.Deletes context.cred path s.cwd id → s.Unreferenced id
  | .path (.rename src _) =>
      ∀ id node, vfsResolve s.storage.fs src s.cwd = some (some id) →
        s.storage.fs.node id = some node → checkAccess context.cred node accRead = true →
        node.type = vfsFile → s.Unreferenced id
  | _ => True

def SparesAll : Session → List (CallContext × FileCall) → Prop
  | _, [] => True
  | s, (context, call) :: rest =>
      s.Spares context call ∧ ∀ s', s.step context call = some s' → SparesAll s' rest

section Steps

variable {s : Session} {context : CallContext}

theorem Attached.tree {storage : Storage} (attached : s.Attached) (linked : storage.fs.Linked)
    (keeps : ∀ id, s.Refers id → s.storage.fs.InTree id → storage.fs.InTree id) :
    ({ s with storage := storage } : Session).Attached :=
  ⟨linked, fun id refers => keeps id refers (attached.inTree id refers)⟩

theorem Attached.grows {storage : Storage} (attached : s.Attached)
    (linked : storage.fs.Linked) (grows : s.storage.fs.Grows storage.fs) :
    ({ s with storage := storage } : Session).Attached :=
  attached.tree linked fun _ _ inTree => inTree.grows grows

/-- Descriptors that point to nothing new but nodes of the tree. -/
theorem Attached.descriptors {descriptors : Descriptors} (attached : s.Attached)
    (files : ∀ fd id, (descriptors.kfds fd).used = true → (descriptors.kfds fd).node = some id →
      s.Refers id ∨ s.storage.fs.InTree id)
    (handles : ∀ dh id, descriptors.dhTable dh = some id → s.Refers id ∨ s.storage.fs.InTree id) :
    ({ s with descriptors := descriptors } : Session).Attached := by
  refine ⟨attached.linked, fun id refers => ?_⟩
  have known : s.Refers id ∨ s.storage.fs.InTree id := by
    rcases refers with ⟨fd, used, node⟩ | ⟨dh, node⟩ | cwd
    · exact files fd id used node
    · exact handles dh id node
    · exact Or.inl (Or.inr (Or.inr cwd))
  exact known.elim (attached.inTree id) fun inTree => inTree

theorem Attached.setPos (attached : s.Attached) (fd : Int) (pos : UInt32) :
    (s.setPos fd pos).Attached := by
  refine attached.descriptors (fun other id used node => ?_) fun dh id node =>
    Or.inl (Or.inr (Or.inl ⟨dh, node⟩))
  simp only at used node
  by_cases here : other = fd.toNat
  · subst here
    rw [Function.update_self] at used node
    exact Or.inl (Or.inl ⟨_, used, node⟩)
  · rw [Function.update_of_ne here] at used node
    exact Or.inl (Or.inl ⟨other, used, node⟩)

theorem Attached.enter (attached : s.Attached) {id : Nat} (inTree : s.storage.fs.InTree id) :
    ({ s with cwd := some id } : Session).Attached := by
  refine ⟨attached.linked, fun other refers => ?_⟩
  rcases refers with file | handle | cwd
  · exact attached.inTree other (Or.inl file)
  · exact attached.inTree other (Or.inr (Or.inl handle))
  · cases cwd
    exact inTree

theorem Attached.unlink {path : PathArg} {storage : Storage} {code : Int}
    (attached : s.Attached)
    (spares : ∀ id, s.storage.fs.Deletes context.cred path s.cwd id → s.Unreferenced id)
    (ran : sysUnlink (s.caller context) path s.storage = some (code, storage)) :
    ({ s with storage := storage } : Session).Attached := by
  refine attached.tree (sysUnlink_linked attached.linked ran) fun id refers inTree => ?_
  rcases Option.map_eq_some_iff.mp ran with ⟨⟨code', fs, store⟩, deleted, same⟩
  cases same
  rcases vfsDelete_removes deleted with rfl | ⟨gone, parent, deletes, -, rfl⟩
  · exact inTree
  · exact inTree.remove (spares gone deletes id refers)

theorem vfsMkdir_grows {platform : Platform} {cred : Cred} {umask : UInt32} {fs fs' : Fs}
    {path : PathArg} {cwd result : Option Nat} (bounded : fs.Bounded)
    (made : vfsMkdir platform cred umask fs path cwd = some (result, fs')) : fs.Grows fs' := by
  rcases vfsMkdir_cases made with ⟨-, rfl⟩ | ⟨parent, name, id, -, -, created⟩
  · exact .refl _
  · exact created.grows bounded

theorem Attached.rename {src dst : PathArg} {storage : Storage} {code : Int}
    (attached : s.Attached)
    (spares : ∀ id node, vfsResolve s.storage.fs src s.cwd = some (some id) →
      s.storage.fs.node id = some node → checkAccess context.cred node accRead = true →
      node.type = vfsFile → s.Unreferenced id)
    (ran : sysRename context.stages context.fuel (s.caller context) src dst s.storage =
      some (code, storage)) :
    ({ s with storage := storage } : Session).Attached := by
  have linked := sysRename_linked attached.linked ran
  rcases Option.bind_eq_some_iff.mp ran with ⟨source, found, rest⟩
  split at rest
  · cases rest
    exact attached
  rename_i sn node held
  rcases Option.bind_eq_some_iff.mp held with ⟨sn', rfl, live⟩
  rcases Option.map_eq_some_iff.mp live with ⟨node', live, same⟩
  cases same
  split at rest
  · cases rest
    exact attached
  rename_i readable
  split at rest
  · cases rest
    exact attached
  rename_i file
  split at rest
  · cases rest
    exact attached
  rcases Option.bind_eq_some_iff.mp rest with ⟨⟨bytes, before⟩, read, later⟩
  rcases Option.bind_eq_some_iff.mp later with ⟨⟨created, made⟩, isCreated, later'⟩
  have same := vfsRead_state read
  have create : s.storage.fs.Grows made.fs := by
    have grows := sysCreate_grows (by rw [same]; exact attached.linked.bounded) isCreated
    rwa [same] at grows
  have linkedMade : made.fs.Linked :=
    sysCreate_linked (by rw [same]; exact attached.linked) isCreated
  split at later'
  · cases later'
    exact attached.grows linked create
  rcases Option.bind_eq_some_iff.mp later' with ⟨⟨count, written⟩, isWritten, last⟩
  rcases Option.map_eq_some_iff.mp last with ⟨⟨code', after⟩, isDeleted, same'⟩
  cases same'
  have grows := create.trans (rewrite_grows isWritten)
  have linkedWritten := linkedMade.of_same (rewrite_sameLinks isWritten)
  have middle := attached.grows linkedWritten grows
  refine middle.unlink (fun id deletes other refers under => ?_) isDeleted
  have resolved : vfsResolve written.fs src s.cwd = some (some id) := deletes.resolved
  have resolves : vfsResolve written.fs src s.cwd = some (some sn) :=
    grows.vfsResolve attached.linked found
  rw [resolves] at resolved
  cases resolved
  have may : checkAccess context.cred node accRead = true := by simpa [caller] using readable
  have isFile : node.type = vfsFile := by simpa using file
  exact spares sn node found live may isFile other refers
    (under.of_grows grows linkedWritten (attached.inTree other refers))

theorem Attached.path {op : PathOp} {storage : Storage} (attached : s.Attached)
    (spares : s.Spares context (.path op))
    (ran : (⟨context.stages, context.fuel, s.caller context, op.op⟩ : FsCall).run s.storage =
      some storage) :
    ({ s with storage := storage } : Session).Attached := by
  have linked := FsCall.run_linked attached.linked ran
  cases op with
  | mkdir path =>
      rcases Option.map_eq_some_iff.mp ran with ⟨⟨code, last⟩, made, rfl⟩
      rcases Option.map_eq_some_iff.mp made with ⟨⟨result, fs⟩, isMade, same⟩
      cases same
      exact attached.grows linked (vfsMkdir_grows attached.linked.bounded isMade)
  | writeFile path buffer =>
      rcases Option.map_eq_some_iff.mp ran with ⟨⟨code, last⟩, made, rfl⟩
      rcases Option.bind_eq_some_iff.mp made with ⟨⟨created, middle⟩, isCreated, rest⟩
      have grows := sysCreate_grows attached.linked.bounded isCreated
      cases created with
      | none =>
          cases rest
          exact attached.grows linked grows
      | some id =>
          rcases Option.map_eq_some_iff.mp rest with ⟨⟨count, written⟩, isWritten, same⟩
          cases same
          exact attached.grows linked (grows.trans (rewrite_grows isWritten))
  | unlink path =>
      rcases Option.map_eq_some_iff.mp ran with ⟨⟨code, last⟩, made, rfl⟩
      exact attached.unlink spares made
  | rmdir path =>
      rcases Option.map_eq_some_iff.mp ran with ⟨⟨code, last⟩, made, rfl⟩
      rcases Option.bind_eq_some_iff.mp made with ⟨target, -, rest⟩
      split at rest
      · cases rest
        exact attached
      split at rest
      · cases rest
        exact attached
      · exact attached.unlink spares rest
  | rename src dst =>
      rcases Option.map_eq_some_iff.mp ran with ⟨⟨code, last⟩, made, rfl⟩
      exact attached.rename spares made
  | chmod path perms | chown path uid gid =>
      rcases Option.map_eq_some_iff.mp ran with ⟨⟨code, fs⟩, changed, rfl⟩
      rcases Option.map_eq_some_iff.mp changed with ⟨target, -, same⟩
      split at same
      · cases same
        exact attached
      split at same
      · cases same
        exact attached
      · cases same
        refine attached.grows linked (Fs.Grows.modify s.storage.fs _ ?_)
        exact fun _ _ => ⟨rfl, rfl, rfl, rfl, List.prefix_rfl⟩
  | sync =>
      cases ran
      exact attached.grows linked (.refl _)

theorem vfsReaddir_inTree {platform : Platform} {fuel dir index : Nat}
    {storage storage' : Storage} {entry : Option Nat} (linked : storage.fs.Linked)
    (listed : vfsReaddir platform fuel storage dir index = some (entry, storage')) :
    storage'.fs.Linked ∧ ∀ id, storage.fs.InTree id → storage'.fs.InTree id := by
  have here : storage.fs.Linked ∧ ∀ id, storage.fs.InTree id → storage.fs.InTree id :=
    ⟨linked, fun _ inTree => inTree⟩
  rw [vfsReaddir] at listed
  split at listed
  · cases listed
  split at listed
  · cases listed
    exact here
  · refine ⟨fatReaddir_linked linked listed, fun id inTree => ?_⟩
    rcases fatReaddir_cases listed with rfl |
      ⟨child, node, loaded, read, -, live, -, isRead, rfl⟩
    · exact inTree
    have result := fatReadDir_read linked isRead
    have below := linked.bounded.lt live
    have older : child < loaded := by
      rw [result.number]
      exact below
    have held : read.node child ≠ none := by
      rw [result.older child below, live]
      exact Option.some_ne_none _
    have children := fatAdopt_childrenOf result.linked older held
    have root := (foldl_under_root child (read.childrenOf loaded)
      (read.modify child fun above =>
        { above with children := above.children ++ read.childrenOf loaded })).1
    induction inTree with
    | root isRoot => exact .root (root.trans (result.root.trans isRoot))
    | child above member known =>
        rename_i parent other
        have live' : parent < storage.fs.next := by
          rcases Fs.live_of_mem_childrenOf member with ⟨_, isLive, -⟩
          exact linked.bounded.lt isLive
        have kept : other ∈ read.childrenOf parent := by
          rw [Fs.childrenOf_congr (result.older parent live')]
          exact member
        have different : parent ≠ loaded := by
          rw [result.number]
          exact Nat.ne_of_lt live'
        apply Fs.InTree.child known
        rw [children, if_neg different]
        split
        · rename_i same
          rw [same] at kept
          exact List.mem_append_left _ kept
        · exact kept
  · cases listed
    exact here

theorem sysCreate_inTree {stages : Nat → Platform} {caller : Caller} {path : PathArg} {id : Nat}
    {storage storage' : Storage} (bounded : storage.fs.Bounded)
    (ran : sysCreate stages caller path storage = some (some id, storage')) :
    storage'.fs.InTree id := by
  rcases Option.map_eq_some_iff.mp ran with ⟨⟨result, fs⟩, made, same⟩
  cases same
  rcases vfsCreate_cases made with ⟨failed, -⟩ | ⟨parent, name, other, result, rfl, target, found, -⟩ |
    ⟨parent, name, other, result, creates, created⟩
  · cases failed
  · cases result
    exact .child (vfsParent_inTree target) (vfsFinddir_mem found).1
  · cases result
    have above := (vfsParent_inTree creates.target).grows (created.grows bounded)
    refine .child above ?_
    rcases created with ⟨granted, now, middle, new, rfl⟩
    rcases creates.directory with ⟨node, live, -⟩
    have older := bounded.lt live
    have number := (ramfsCreateNode_cases new).2.2.1
    have different : parent ≠ id := by
      rw [number]
      exact Nat.ne_of_lt older
    have listed : middle.node parent = some (node.attach id) := by
      rw [ramfsCreateNode_parent older new, live, Option.map_some]
    rw [Fs.childrenOf_congr (Fs.modify_node_of_ne middle _ different), Fs.childrenOf_eq listed]
    exact List.mem_append_right _ (List.mem_singleton_self id)

theorem Attached.take (attached : s.Attached) (fd : Nat) {kfd : Kfd}
    (inTree : ∀ id, kfd.node = some id → s.storage.fs.InTree id) :
    ({ s with descriptors := { s.descriptors with
      kfds := Function.update s.descriptors.kfds fd kfd } } : Session).Attached := by
  refine attached.descriptors (fun other id used node => ?_) fun dh id node =>
    Or.inl (Or.inr (Or.inl ⟨dh, node⟩))
  simp only at used node
  by_cases here : other = fd
  · subst here
    rw [Function.update_self] at node
    exact Or.inr (inTree id node)
  · rw [Function.update_of_ne here] at used node
    exact Or.inl (Or.inl ⟨other, used, node⟩)

theorem Attached.openFile {path : PathArg} {flags : UInt32} {s' : Session} {code : Int}
    (attached : s.Attached) (ran : s.sysFileOpen context path flags = some (code, s')) :
    s'.Attached := by
  rcases Option.bind_eq_some_iff.mp ran with ⟨⟨target, storage⟩, found, rest⟩
  have opened : ({ s with storage := storage } : Session).Attached ∧
      ∀ id, target = some id → storage.fs.InTree id := by
    rcases Option.bind_eq_some_iff.mp found with ⟨resolved, isResolved, reached⟩
    cases resolved with
    | some id =>
        cases reached
        refine ⟨attached, fun other same => ?_⟩
        cases same
        exact vfsResolve_inTree isResolved
    | none =>
        simp only at reached
        split at reached
        · refine ⟨attached.grows (sysCreate_linked attached.linked reached)
            (sysCreate_grows attached.linked.bounded reached), fun id same => ?_⟩
          cases same
          exact sysCreate_inTree attached.linked.bounded reached
        · cases reached
          exact ⟨attached, fun _ same => nomatch same⟩
  split at rest
  · cases rest
    exact opened.1
  rename_i id isTarget
  split at rest
  · cases rest
  split at rest
  · cases rest
    exact opened.1
  split at rest
  · cases rest
    exact opened.1
  rename_i fd descriptors taken
  cases rest
  have inTree := opened.2 id isTarget
  rcases Option.map_eq_some_iff.mp taken with ⟨fd', -, same⟩
  cases same
  split
  · have truncated := opened.1.grows (opened.1.linked.of_same (truncate_sameLinks storage id))
      (truncate_grows storage id)
    refine truncated.take fd fun other node => ?_
    cases node
    exact inTree.grows (truncate_grows storage id)
  · refine opened.1.take fd fun other node => ?_
    cases node
    exact inTree

theorem Attached.readsFile {fd : Int} {want : UInt32} {s' : Session} (attached : s.Attached)
    (ran : s.step context (.read fd want) = some s') : s'.Attached := by
  rcases Option.map_eq_some_iff.mp ran with ⟨⟨code, bytes, s'⟩, read, rfl⟩
  rw [sysFileRead] at read
  split at read
  · cases read
    exact attached
  rcases Option.bind_eq_some_iff.mp read with ⟨id, -, rest⟩
  split at rest
  · cases rest
  split at rest
  · cases rest
    exact attached
  rcases Option.map_eq_some_iff.mp rest with ⟨⟨bytes', storage⟩, delivered, same⟩
  cases same
  have state := vfsRead_state delivered
  have linked : storage.fs.Linked := by
    rw [state]
    exact attached.linked
  refine (attached.grows linked ?_).setPos fd _
  rw [state]
  exact .refl _

theorem Attached.writesFile {fd : Int} {buffer : List UInt8} {s' : Session} (attached : s.Attached)
    (ran : s.step context (.write fd buffer) = some s') : s'.Attached := by
  rcases Option.map_eq_some_iff.mp ran with ⟨⟨code, s'⟩, wrote, rfl⟩
  rw [sysFileWrite] at wrote
  split at wrote
  · cases wrote
    exact attached
  rcases Option.bind_eq_some_iff.mp wrote with ⟨id, -, rest⟩
  rcases Option.map_eq_some_iff.mp rest with ⟨⟨count, storage⟩, written, same⟩
  cases same
  exact (attached.grows (attached.linked.of_same (vfsWrite_sameLinks written))
    (vfsWrite_grows written)).setPos fd _

theorem Attached.seeksFile {fd : Int} {off : UInt32} {whence : Int} {s' : Session} (attached : s.Attached)
    (ran : s.step context (.seek fd off whence) = some s') : s'.Attached := by
  rcases Option.map_eq_some_iff.mp ran with ⟨⟨code, s'⟩, moved, rfl⟩
  rw [sysFileSeek] at moved
  split at moved
  · cases moved
    exact attached
  simp only at moved
  split_ifs at moved
  · cases moved
    exact attached.setPos fd _
  · cases moved
    exact attached.setPos fd _
  · rcases Option.bind_eq_some_iff.mp moved with ⟨node, -, same⟩
    cases same
    exact attached.setPos fd _
  · cases moved
    exact attached.setPos fd _

theorem Attached.closesFile {fd : Int} {s' : Session} (attached : s.Attached)
    (ran : s.step context (.close fd) = some s') : s'.Attached := by
  cases ran
  refine attached.descriptors (fun other id used node => ?_) fun dh id node => ?_
  · rw [Descriptors.closeFile] at used node
    split at used
    · rename_i pipe
      rw [if_pos pipe] at node
      exact Or.inl (Or.inl ⟨other, used, node⟩)
    rename_i pipe
    rw [if_neg pipe] at node
    split at used
    · rename_i inside
      rw [if_pos inside] at node
      simp only at used node
      by_cases here : other = fd.toNat
      · subst here
        rw [Function.update_self] at used
        cases used
      · rw [Function.update_of_ne here] at used node
        exact Or.inl (Or.inl ⟨other, used, node⟩)
    · rename_i outside
      rw [if_neg outside] at node
      exact Or.inl (Or.inl ⟨other, used, node⟩)
  · rw [Descriptors.closeFile] at node
    split at node
    · exact Or.inl (Or.inr (Or.inl ⟨dh, node⟩))
    split at node
    · exact Or.inl (Or.inr (Or.inl ⟨dh, node⟩))
    · exact Or.inl (Or.inr (Or.inl ⟨dh, node⟩))

theorem Attached.opensDir {path : PathArg} {s' : Session} (attached : s.Attached)
    (ran : s.step context (.opendir path) = some s') : s'.Attached := by
  rcases Option.map_eq_some_iff.mp ran with ⟨⟨code, s'⟩, opened, rfl⟩
  rcases Option.map_eq_some_iff.mp opened with ⟨found, isFound, outcome⟩
  split at outcome
  · cases outcome
    exact attached
  rename_i id node held
  rcases Option.bind_eq_some_iff.mp held with ⟨id', rfl, live⟩
  rcases Option.map_eq_some_iff.mp live with ⟨node', -, same⟩
  cases same
  split at outcome
  · cases outcome
    exact attached
  split at outcome
  · cases outcome
    exact attached
  rename_i dh descriptors taken
  cases outcome
  rcases Option.map_eq_some_iff.mp taken with ⟨dh', -, same⟩
  cases same
  refine attached.descriptors (fun fd other used node => Or.inl (Or.inl ⟨fd, used, node⟩))
    fun other id node => ?_
  simp only at node
  by_cases here : other = dh
  · subst here
    rw [Function.update_self] at node
    cases node
    exact Or.inr (vfsResolve_inTree isFound)
  · rw [Function.update_of_ne here] at node
    exact Or.inl (Or.inr (Or.inl ⟨other, node⟩))

theorem Attached.readsDir {dh : Int} {s' : Session} (attached : s.Attached)
    (ran : s.step context (.readdir dh) = some s') : s'.Attached := by
  rcases Option.map_eq_some_iff.mp ran with ⟨⟨code, entry, s'⟩, listed, rfl⟩
  rw [sysReaddir] at listed
  split at listed
  · cases listed
    exact attached
  rcases Option.map_eq_some_iff.mp listed with ⟨⟨child, storage⟩, isListed, outcome⟩
  rcases vfsReaddir_inTree attached.linked isListed with ⟨linked, keeps⟩
  have held : ({ s with storage := storage } : Session).Attached :=
    attached.tree linked fun id _ => keeps id
  cases child with
  | none =>
      cases outcome
      exact held
  | some child =>
      cases outcome
      exact held.descriptors (fun fd other used node => Or.inl (Or.inl ⟨fd, used, node⟩))
        fun other id node => Or.inl (Or.inr (Or.inl ⟨other, node⟩))

theorem Attached.closesDir {dh : Int} {s' : Session} (attached : s.Attached)
    (ran : s.step context (.closedir dh) = some s') : s'.Attached := by
  cases ran
  refine attached.descriptors (fun fd id used node => ?_) fun other id node => ?_
  · rw [Descriptors.closeDir] at used node
    split at used
    · rename_i inside
      rw [if_pos inside] at node
      exact Or.inl (Or.inl ⟨fd, used, node⟩)
    · rename_i outside
      rw [if_neg outside] at node
      exact Or.inl (Or.inl ⟨fd, used, node⟩)
  · rw [Descriptors.closeDir] at node
    split at node
    · simp only at node
      by_cases here : other = dh.toNat
      · subst here
        rw [Function.update_self] at node
        cases node
      · rw [Function.update_of_ne here] at node
        exact Or.inl (Or.inr (Or.inl ⟨other, node⟩))
    · exact Or.inl (Or.inr (Or.inl ⟨other, node⟩))

theorem Attached.entersDir {path : PathArg} {s' : Session} (attached : s.Attached)
    (ran : s.step context (.chdir path) = some s') : s'.Attached := by
  rcases Option.map_eq_some_iff.mp ran with ⟨⟨code, s'⟩, moved, rfl⟩
  rcases Option.map_eq_some_iff.mp moved with ⟨found, isFound, outcome⟩
  split at outcome
  · cases outcome
    exact attached
  rename_i id node held
  rcases Option.bind_eq_some_iff.mp held with ⟨id', rfl, live⟩
  rcases Option.map_eq_some_iff.mp live with ⟨node', -, same⟩
  cases same
  split at outcome
  · cases outcome
    exact attached
  · cases outcome
    exact attached.enter (vfsResolve_inTree isFound)

theorem Attached.entersHome {path : PathArg} {orRoot : Bool} {s' : Session} (attached : s.Attached)
    (ran : s.step context (.home path orRoot) = some s') : s'.Attached := by
  rcases Option.map_eq_some_iff.mp ran with ⟨found, isFound, outcome⟩
  cases found with
  | some id =>
      cases outcome
      exact attached.enter (vfsResolve_inTree isFound)
  | none =>
      simp only at outcome
      split at outcome
      · cases outcome
        rcases attached.linked.rooted with ⟨root, node, isRoot, -⟩
        rw [isRoot]
        exact attached.enter (.root isRoot)
      · cases outcome
        exact attached

theorem Attached.exits {s' : Session} (attached : s.Attached)
    (ran : s.step context .exit = some s') : s'.Attached := by
  cases ran
  refine attached.descriptors (fun fd id used node => ?_) fun dh id node =>
    Or.inl (Or.inr (Or.inl ⟨dh, node⟩))
  simp only [Descriptors.fdCleanupProcess, Descriptors.cleanKfd] at used node
  split at used
  · cases used
  · rename_i other
    rw [if_neg other] at node
    exact Or.inl (Or.inl ⟨fd, used, node⟩)

/-- Every call keeps the references in the tree that it spares. -/
theorem Attached.step {call : FileCall} {s' : Session} (attached : s.Attached)
    (spares : s.Spares context call) (ran : s.step context call = some s') : s'.Attached := by
  cases call with
  | path op =>
      rcases Option.map_eq_some_iff.mp ran with ⟨storage, isRun, rfl⟩
      exact attached.path spares isRun
  | openFile path flags =>
      rcases Option.map_eq_some_iff.mp ran with ⟨⟨code, s'⟩, opened, rfl⟩
      exact attached.openFile opened
  | read fd want => exact attached.readsFile ran
  | write fd buffer => exact attached.writesFile ran
  | seek fd off whence => exact attached.seeksFile ran
  | close fd => exact attached.closesFile ran
  | opendir path => exact attached.opensDir ran
  | readdir dh => exact attached.readsDir ran
  | closedir dh => exact attached.closesDir ran
  | chdir path => exact attached.entersDir ran
  | home path orRoot => exact attached.entersHome ran
  | exit => exact attached.exits ran

theorem Attached.run {calls : List (CallContext × FileCall)} {s' : Session}
    (attached : s.Attached) (spares : s.SparesAll calls) (ran : s.run calls = some s') :
    s'.Attached := by
  induction calls generalizing s with
  | nil =>
      cases ran
      exact attached
  | cons first rest known =>
      rcases first with ⟨context, call⟩
      rcases Option.bind_eq_some_iff.mp ran with ⟨middle, stepped, later⟩
      exact known (attached.step spares.1 stepped) (spares.2 middle stepped) later

theorem start_attached {storage : Storage} (linked : storage.fs.Linked) :
    (start storage).Attached := by
  refine ⟨linked, fun id refers => ?_⟩
  rcases refers with ⟨fd, used, -⟩ | ⟨dh, node⟩ | cwd
  · cases used
  · cases node
  · exact .root cwd

end Steps

/-! ## A file that is deleted while it is open -/

def rootContext : CallContext := ⟨fun _ => .ideal, 100, ⟨0, 0⟩, 0o22, 4⟩

def motdPath : PathArg := .of (literal "/etc/motd")

/-- What remains of descriptor 3 and of its node after some calls of the root user. -/
theorem motd_deleted :
    ((boot .ideal noDisk).bind fun storage => (start storage).run
      [(rootContext, .openFile motdPath 0), (rootContext, .path (.unlink motdPath))]).map (fun s =>
        ((s.descriptors.kfds 3).used, (s.descriptors.kfds 3).node,
          (s.storage.fs.node 12).isSome)) = some (true, some 12, false) := by
  rw [boot_ideal]
  decide +kernel

/-- After opening a file nothing is referenced but what was, and the file. -/
theorem refers_openFile {path : PathArg} {flags : UInt32} {s' : Session} {code : Int} {id : Nat}
    (opened : s.sysFileOpen context path flags = some (code, s')) (refers : s'.Refers id) :
    s.Refers id ∨ ∃ storage, openTarget context path flags s = some (some id, storage) := by
  rcases Option.bind_eq_some_iff.mp opened with ⟨⟨target, storage⟩, found, rest⟩
  split at rest
  · cases rest
    exact Or.inl refers
  rename_i target isTarget
  cases isTarget
  split at rest
  · cases rest
  split at rest
  · cases rest
    exact Or.inl refers
  split at rest
  · cases rest
    exact Or.inl refers
  rename_i fd descriptors taken
  rcases Option.map_eq_some_iff.mp taken with ⟨fd', -, same⟩
  cases same
  cases rest
  rcases refers with ⟨other, used, node⟩ | known
  · simp only at used node
    by_cases here : other = fd
    · rw [here, Function.update_self] at node
      cases node
      exact Or.inr ⟨storage, found⟩
    · rw [Function.update_of_ne here] at used node
      exact Or.inl (Or.inl ⟨other, used, node⟩)
  · exact Or.inl (Or.inr known)

theorem under_leaf {fs : Fs} {top id : Nat} (leaf : fs.childrenOf top = [])
    (under : fs.Under top id) : id = top := by
  induction under with
  | self => rfl
  | child above listed known =>
      rw [known, leaf] at listed
      exact absurd listed List.not_mem_nil

def readmePath : PathArg := .of (literal "/home/user/readme.txt")

theorem readme_deleted : ((boot .ideal noDisk).any fun storage =>
    ((start storage).sysFileOpen rootContext motdPath 0).any fun opened =>
      (opened.2.step rootContext (.path (.unlink readmePath))).any fun s =>
        decide ((openTarget rootContext motdPath 0 (start storage)).map Prod.fst = some (some 12) ∧
          storage.fs.root = some 0 ∧
          vfsResolve opened.2.storage.fs readmePath opened.2.cwd = some (some 13) ∧
          opened.2.storage.fs.childrenOf 13 = [] ∧ s.storage.fs.node 13 = none)) = true := by
  rw [boot_ideal]
  decide +kernel

end Session

end Trinux
