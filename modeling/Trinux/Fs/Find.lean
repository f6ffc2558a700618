import Trinux.Fs.Creation
import Trinux.Fs.TreeNames

namespace Trinux

open Bytes

/-!
# Searching a tree

`SYS_VFS_FIND` walks the tree below a node with a stack of 256 entries, each of which carries the
path of its node; a path is built from at most 200 bytes of the path of the directory.  What does
not fit on the stack is dropped with all that is below it.  The walk finds the nodes whose
positions, summed up along the way from the start, stay below 256.
-/

namespace Find

/-! ## The system call -/

structure StackEntry where
  node : Nat
  path : List UInt8

def nameMatches (needle : Option (List UInt8)) (name : List UInt8) : Bool :=
  match needle with
  | none => true
  | some needle => (List.range name.length).any fun i => needle.isPrefixOf (name.drop i)

def childPath (cur name : List UInt8) : List UInt8 :=
  let front := cur.take 200
  let front := if front = [] ∨ front.getLast? ≠ some slash then front ++ [slash] else front
  (front ++ name).take 255

/-- The loop over the entries of a directory, while there is room on the stack. -/
def pushEntries (platform : Platform) (fuel dir : Nat) (cur : List UInt8) :
    (room index : Nat) → List StackEntry → Storage → Option (List StackEntry × Storage)
  | 0, _, stack, storage => some (stack, storage)
  | room + 1, index, stack, storage =>
      match vfsReaddir platform fuel storage dir index with
      | none => none
      | some (none, storage) => some (stack, storage)
      | some (some child, storage) =>
          pushEntries platform fuel dir cur room (index + 1)
            (⟨child, childPath cur (storage.fs.nameOf child)⟩ :: stack) storage

def findLoop (platform : Platform) (fuel : Nat) (needle : Option (List UInt8)) (max : Nat) :
    (rounds : Nat) → List StackEntry → List (List UInt8) → Storage →
      Option (List (List UInt8) × Storage)
  | 0, _, _, _ => none
  | _ + 1, [], got, storage => some (got, storage)
  | rounds + 1, entry :: stack, got, storage =>
      if max ≤ got.length then some (got, storage)
      else
        match storage.fs.node entry.node with
        | none => none
        | some node =>
            let got := if nameMatches needle node.name then got ++ [entry.path] else got
            if node.type = vfsDirectory then
              (pushEntries platform fuel entry.node entry.path (256 - stack.length) 0 stack
                storage).bind fun pushed =>
                  findLoop platform fuel needle max rounds pushed.1 got pushed.2
            else findLoop platform fuel needle max rounds stack got storage

def sysVfsFind (platform : Platform) (fuel rounds : Nat) (path : PathArg) (cwd : Option Nat)
    (needle : Option (List UInt8)) (max : Nat) (storage : Storage) :
    Option (List (List UInt8) × Storage) :=
  match vfsResolve storage.fs path cwd with
  | none => none
  | some none => some ([], storage)
  | some (some root) =>
      (vfsGetPath storage.fs root).bind fun rp =>
        findLoop platform fuel needle max rounds [⟨root, rp.take 255⟩] [] storage

/-! ## The tree that is searched -/

def entriesOf (fs : Fs) (id : Nat) : List Nat :=
  match fs.node id with
  | none => []
  | some node => if node.type = vfsDirectory ∧ node.ops ≠ .fatFile then node.children else []

inductive Below (fs : Fs) (start : Nat) : List (List UInt8) → Nat → Prop where
  | self : Below fs start [] start
  | entry {steps dir child} (above : Below fs start steps dir) (listed : child ∈ entriesOf fs dir) :
      Below fs start (steps ++ [fs.nameOf child]) child

/-- A node of the tree, with the sum of the positions and the names on the way from the start. -/
structure Visit where
  node : Nat
  height : Nat
  steps : List (List UInt8)

def lastFirst {α : Type} (visit : Nat → Nat → List α) : (index : Nat) → List Nat → List α
  | _, [] => []
  | index, child :: rest => lastFirst visit (index + 1) rest ++ visit index child

/-- The nodes at or below a node in the order of the search.  The fuel bounds the depth. -/
def walk (fs : Fs) : (fuel height : Nat) → (steps : List (List UInt8)) → Nat → List Visit
  | 0, _, _, _ => []
  | fuel + 1, height, steps, id =>
      ⟨id, height, steps⟩ ::
        lastFirst
          (fun index child => walk fs fuel (height + index) (steps ++ [fs.nameOf child]) child)
          0 (entriesOf fs id)

def searched (fs : Fs) (start : Nat) : List Visit := walk fs fs.next 0 [] start

def Contains (needle : Option (List UInt8)) (name : List UInt8) : Prop :=
  ∀ text, needle = some text → text <:+: name

instance (needle : Option (List UInt8)) (name : List UInt8) : Decidable (Contains needle name) :=
  match needle with
  | none => isTrue fun _ same => nomatch same
  | some text => decidable_of_iff (text <:+: name)
      ⟨fun inside _ same => by cases same; exact inside, fun all => all text rfl⟩

def found (fs : Fs) (start : Nat) (needle : Option (List UInt8)) : List Visit :=
  (searched fs start).filter fun visit => Contains needle (fs.nameOf visit.node)

/-- Listing the directories of the tree changes nothing: no directory of a FAT volume is left to be
loaded. -/
def Settled (platform : Platform) (fuel : Nat) (storage : Storage) (start : Nat) : Prop :=
  ∀ steps dir index, Below storage.fs start steps dir →
    vfsReaddir platform fuel storage dir index =
      some (readdirEntry storage.fs dir index, storage)

/-- The search writes exactly the paths of the nodes found, each once, and each path resolves to
its node. -/
def FindRight (platform : Platform) (fuel : Nat) (path : PathArg) (cwd : Option Nat)
    (needle : Option (List UInt8)) (max : Nat) (storage : Storage) (start : Nat) : Prop :=
  ∃ paths enough, (∀ rounds, enough ≤ rounds →
      sysVfsFind platform fuel rounds path cwd needle max storage = some (paths, storage)) ∧
    List.Perm (paths.map some)
      ((found storage.fs start needle).map fun visit => vfsGetPath storage.fs visit.node) ∧
    ∀ visit ∈ found storage.fs start needle, storage.fs.PathFindsNode visit.node

/-- A node that the search gets right: it has a name to compare, the positions on the way to it sum
up to less than 256, its path leads to it, and unless the search starts there the path of its
directory has at most 200 bytes. -/
structure Reached (fs : Fs) (start : Nat) (needle : Option (List UInt8)) (visit : Visit) :
    Prop where
  named : needle = none ∨ fs.nameOf visit.node ≠ []
  room : visit.height < 256
  resolves : fs.PathFindsNode visit.node
  short : visit.node = start ∨ ∀ dir path, visit.node ∈ fs.childrenOf dir →
    vfsGetPath fs dir = some path → path.length ≤ 200

/-! ## The walk -/

section Walk

variable {fs : Fs}

theorem entriesOf_mem {dir child : Nat} (listed : child ∈ entriesOf fs dir) :
    child ∈ fs.childrenOf dir := by
  unfold entriesOf at listed
  cases live : fs.node dir with
  | none =>
      rw [live] at listed
      cases listed
  | some node =>
      rw [live] at listed
      dsimp only at listed
      split_ifs at listed
      · rw [Fs.childrenOf_eq live]
        exact listed
      · cases listed

/-- What `vfs_readdir` lists of a directory are its entries. -/
theorem readdirEntry_entriesOf {dir : Nat} {node : VfsNode} (live : fs.node dir = some node)
    (directory : node.type = vfsDirectory) (index : Nat) :
    readdirEntry fs dir index = (entriesOf fs dir)[index]? := by
  unfold readdirEntry entriesOf
  rw [live, Option.map_some]
  dsimp only
  have list : ramfsReaddir fs dir index = node.children[index]? := by
    unfold ramfsReaddir
    rw [live]
    dsimp only
    rw [if_neg (not_not.mpr directory)]
  cases kind : node.ops
  case fatFile => simp
  case fatDirectory => simp [directory, Fs.childrenOf_eq live]
  all_goals simp [directory, list]

theorem mem_lastFirst {α : Type} {visit : Nat → Nat → List α} {item : α} (children : List Nat) :
    ∀ index, item ∈ lastFirst visit index children ↔
      ∃ place child, children[place]? = some child ∧ item ∈ visit (index + place) child := by
  induction children with
  | nil =>
      intro index
      simp [lastFirst]
  | cons first rest rest_ih =>
      intro index
      rw [lastFirst, List.mem_append, rest_ih]
      constructor
      · rintro (⟨place, child, there, inside⟩ | inside)
        · refine ⟨place + 1, child, by rwa [List.getElem?_cons_succ], ?_⟩
          rwa [show index + (place + 1) = index + 1 + place by omega]
        · exact ⟨0, first, rfl, inside⟩
      · rintro ⟨place, child, there, inside⟩
        cases place with
        | zero =>
            cases there
            exact Or.inr inside
        | succ place =>
            rw [List.getElem?_cons_succ] at there
            refine Or.inl ⟨place, child, there, ?_⟩
            rwa [show index + 1 + place = index + (place + 1) by omega]

theorem walk_height (fuel : Nat) :
    ∀ height steps id, ∀ visit ∈ walk fs fuel height steps id, height ≤ visit.height := by
  induction fuel with
  | zero =>
      intro height steps id visit there
      cases there
  | succ fuel fuel_ih =>
      intro height steps id visit there
      rw [walk, List.mem_cons] at there
      cases there with
      | inl same => rw [same]
      | inr later =>
          rw [mem_lastFirst] at later
          obtain ⟨place, child, _, inside⟩ := later
          have next := fuel_ih _ _ _ visit inside
          omega

theorem walk_below {start : Nat} (fuel : Nat) :
    ∀ height steps id, Below fs start steps id → ∀ visit ∈ walk fs fuel height steps id,
      Below fs start visit.steps visit.node := by
  induction fuel with
  | zero =>
      intro height steps id below visit there
      cases there
  | succ fuel fuel_ih =>
      intro height steps id below visit there
      rw [walk, List.mem_cons] at there
      cases there with
      | inl same =>
          rw [same]
          exact below
      | inr later =>
          rw [mem_lastFirst] at later
          obtain ⟨place, child, listed, inside⟩ := later
          exact fuel_ih _ _ child (.entry below (List.mem_of_getElem? listed)) visit inside

theorem below_le (linked : fs.Linked) {start : Nat} {steps : List (List UInt8)} {id : Nat}
    (below : Below fs start steps id) : start ≤ id := by
  induction below with
  | self => exact Nat.le_refl _
  | entry above listed above_ih =>
      have later := (linked.listed _ _ (entriesOf_mem listed)).1
      omega

theorem found_below {start : Nat} {needle : Option (List UInt8)} {visit : Visit}
    (there : visit ∈ found fs start needle) : Below fs start visit.steps visit.node :=
  walk_below fs.next 0 [] start .self visit (List.mem_of_mem_filter there)

end Walk

/-! ## The run of the stack -/

def collect (fs : Fs) (needle : Option (List UInt8)) (max : Nat) (path : Visit → List UInt8) :
    List (List UInt8) → List Visit → List (List UInt8)
  | got, [] => got
  | got, visit :: rest =>
      if max ≤ got.length then got
      else collect fs needle max path
        (if nameMatches needle (fs.nameOf visit.node) then got ++ [path visit] else got) rest

theorem collect_full {fs : Fs} {needle : Option (List UInt8)} {max : Nat}
    {path : Visit → List UInt8} {got : List (List UInt8)} (full : max ≤ got.length)
    (visits : List Visit) : collect fs needle max path got visits = got := by
  cases visits with
  | nil => rfl
  | cons visit rest => rw [collect, if_pos full]

theorem collect_append {fs : Fs} {needle : Option (List UInt8)} {max : Nat}
    {path : Visit → List UInt8} (front back : List Visit) : ∀ got,
      collect fs needle max path got (front ++ back) =
        collect fs needle max path (collect fs needle max path got front) back := by
  induction front with
  | nil =>
      intro got
      rfl
  | cons visit rest rest_ih =>
      intro got
      rw [List.cons_append, collect, collect]
      split_ifs with full
      · rw [collect_full full]
      · exact rest_ih _
      · exact rest_ih _

/-- The search collects the paths of the nodes whose names match, as many as it may. -/
theorem collect_eq {fs : Fs} {needle : Option (List UInt8)} {max : Nat}
    {path : Visit → List UInt8} (visits : List Visit) : ∀ got, got.length ≤ max →
      collect fs needle max path got visits =
        (got ++ (visits.filter fun visit => nameMatches needle (fs.nameOf visit.node)).map
          path).take max := by
  induction visits with
  | nil =>
      intro got within
      rw [collect, List.filter_nil, List.map_nil, List.append_nil, List.take_of_length_le within]
  | cons visit rest rest_ih =>
      intro got within
      rw [collect]
      split_ifs with full isMatch
      · rw [List.take_append_of_le_length full, List.take_of_length_le within]
      · rw [rest_ih _ (by rw [List.length_append, List.length_singleton]; omega),
          List.filter_cons, if_pos isMatch, List.map_cons, List.append_assoc,
          List.singleton_append]
      · rw [rest_ih _ within, List.filter_cons, if_neg isMatch]

section Run

variable {platform : Platform} {fuel start max : Nat} {storage : Storage}
  {needle : Option (List UInt8)}

theorem findLoop_full {got : List (List UInt8)} (full : max ≤ got.length) (rounds : Nat)
    (stack : List StackEntry) :
    findLoop platform fuel needle max (rounds + 1) stack got storage = some (got, storage) := by
  cases stack with
  | nil => rfl
  | cons entry stack => rw [findLoop, if_pos full]

/-- The loop over the entries puts them on the stack, as many as there is room for. -/
theorem pushEntries_eq {dir : Nat} {node : VfsNode} {steps : List (List UInt8)}
    (settled : Settled platform fuel storage start) (below : Below storage.fs start steps dir)
    (live : storage.fs.node dir = some node) (directory : node.type = vfsDirectory)
    (cur : List UInt8) (room : Nat) : ∀ index stack,
      pushEntries platform fuel dir cur room index stack storage =
        some ((((entriesOf storage.fs dir).drop index).take room).reverse.map
          (fun child => ⟨child, childPath cur (storage.fs.nameOf child)⟩) ++ stack, storage) := by
  induction room with
  | zero =>
      intro index stack
      rfl
  | succ room room_ih =>
      intro index stack
      rw [pushEntries, settled steps dir index below, readdirEntry_entriesOf live directory]
      cases entry : (entriesOf storage.fs dir)[index]? with
      | none =>
          have nothing : (entriesOf storage.fs dir).drop index = [] :=
            List.drop_eq_nil_of_le (List.getElem?_eq_none_iff.mp entry)
          rw [nothing]
          rfl
      | some child =>
          dsimp only
          have split : (entriesOf storage.fs dir).drop index =
              child :: (entriesOf storage.fs dir).drop (index + 1) := by
            rw [List.getElem?_eq_some_iff] at entry
            obtain ⟨inside, same⟩ := entry
            rw [← same]
            exact List.drop_eq_getElem_cons inside
          rw [room_ih, split, List.take_succ_cons, List.reverse_cons, List.map_append,
            List.append_assoc]
          rfl

/-- The search over entries, the last of which is on top of the stack. -/
theorem findLoop_entries {path : Visit → List UInt8} {visit : Nat → Nat → List Visit}
    {entry : Nat → StackEntry} (base : Nat) (children : List Nat) :
    ∀ index stack got rounds,
      (∀ place child, children[place]? = some child → ∀ stack got rounds,
        stack.length = base + (index + place) →
        findLoop platform fuel needle max (rounds + 1 + (visit (index + place) child).length)
            (entry child :: stack) got storage =
          findLoop platform fuel needle max (rounds + 1) stack
            (collect storage.fs needle max path got (visit (index + place) child)) storage) →
      stack.length = base + index →
      findLoop platform fuel needle max (rounds + 1 + (lastFirst visit index children).length)
          (children.reverse.map entry ++ stack) got storage =
        findLoop platform fuel needle max (rounds + 1) stack
          (collect storage.fs needle max path got (lastFirst visit index children)) storage := by
  induction children with
  | nil =>
      intro index stack got rounds _ _
      rfl
  | cons first rest rest_ih =>
      intro index stack got rounds each height
      have front := rest_ih (index + 1) (entry first :: stack) got
        (rounds + (visit index first).length)
        (fun place child there stack got rounds height => by
          have next := each (place + 1) child (by rwa [List.getElem?_cons_succ]) stack got rounds
            (by omega)
          rwa [show index + (place + 1) = index + 1 + place by omega] at next)
        (by rw [List.length_cons]; omega)
      have back := each 0 first rfl stack
        (collect storage.fs needle max path got (lastFirst visit (index + 1) rest)) rounds height
      simp only [Nat.add_zero] at back
      rw [lastFirst, collect_append, List.length_append, ← back, List.reverse_cons,
        List.map_append, List.append_assoc]
      have rounds' : rounds + 1 + ((lastFirst visit (index + 1) rest).length +
          (visit index first).length) = rounds + (visit index first).length + 1 +
            (lastFirst visit (index + 1) rest).length := by omega
      have rounds'' : rounds + 1 + (visit index first).length =
          rounds + (visit index first).length + 1 := by omega
      rw [rounds', rounds'']
      exact front

/-- Of the entries of a directory, those for which there is no room are dropped with all below. -/
theorem filter_lastFirst {fs : Fs} {F height : Nat} {steps : List (List UInt8)}
    (children : List Nat) : ∀ index,
      (lastFirst (fun index child =>
        walk fs F (height + index) (steps ++ [fs.nameOf child]) child) index children).filter
          (fun visit => visit.height < 256) =
      lastFirst (fun index child =>
        (walk fs F (height + index) (steps ++ [fs.nameOf child]) child).filter
          (fun visit => visit.height < 256)) index (children.take (256 - (height + index))) := by
  induction children with
  | nil =>
      intro index
      rw [List.take_nil]
      rfl
  | cons first rest rest_ih =>
      intro index
      rw [lastFirst, List.filter_append, rest_ih]
      by_cases room : height + index < 256
      · have split : 256 - (height + index) = 256 - (height + (index + 1)) + 1 := by omega
        rw [split, List.take_succ_cons, lastFirst]
      · have none' : 256 - (height + index) = 0 := by omega
        have none'' : 256 - (height + (index + 1)) = 0 := by omega
        rw [none', none'', List.take_zero, List.take_zero]
        change [] ++ _ = []
        rw [List.nil_append, List.filter_eq_nil_iff]
        intro visit there
        have above := walk_height _ _ _ _ visit there
        rw [decide_eq_true_eq]
        omega

def builtPath (rp : List UInt8) (visit : Visit) : List UInt8 := visit.steps.foldl childPath rp

theorem below_live {fs : Fs} (linked : fs.Linked) {steps : List (List UInt8)} {id : Nat}
    (live : ∃ node, fs.node start = some node) (below : Below fs start steps id) :
    ∃ node, fs.node id = some node := by
  cases below with
  | self => exact live
  | entry above listed =>
      obtain ⟨node, found, _⟩ := (linked.listed _ _ (entriesOf_mem listed)).2
      exact ⟨node, found⟩

/-- The search visits the nodes for which the sum of the positions stays below 256. -/
theorem findLoop_walk (linked : storage.fs.Linked)
    (live : ∃ node, storage.fs.node start = some node)
    (settled : Settled platform fuel storage start) (rp : List UInt8) (F : Nat) :
    ∀ height steps id stack got rounds, Below storage.fs start steps id →
      storage.fs.next ≤ F + id → stack.length = height → height < 256 →
      findLoop platform fuel needle max
          (rounds + 1 + ((walk storage.fs F height steps id).filter
            (fun visit => visit.height < 256)).length)
          (⟨id, steps.foldl childPath rp⟩ :: stack) got storage =
        findLoop platform fuel needle max (rounds + 1) stack
          (collect storage.fs needle max (builtPath rp) got
            ((walk storage.fs F height steps id).filter (fun visit => visit.height < 256)))
          storage := by
  induction F with
  | zero =>
      intro height steps id stack got rounds below enough
      obtain ⟨node, found⟩ := below_live linked live below
      have small := linked.bounded.lt found
      omega
  | succ F F_ih =>
      intro height steps id stack got rounds below enough size room
      obtain ⟨node, found⟩ := below_live linked live below
      have name : storage.fs.nameOf id = node.name := by
        rw [Fs.nameOf, found]
      rw [walk, List.filter_cons, if_pos (by simpa using room), filter_lastFirst, collect,
        List.length_cons, ← Nat.add_assoc]
      by_cases full : max ≤ got.length
      · rw [findLoop_full full, if_pos full, findLoop_full full]
      rw [findLoop, if_neg full, if_neg full, found]
      dsimp only
      rw [name]
      by_cases directory : node.type = vfsDirectory
      · rw [if_pos directory, size, pushEntries_eq settled below found directory]
        have run := @findLoop_entries platform fuel max storage needle (builtPath rp)
          (fun index child => (walk storage.fs F (height + index)
            (steps ++ [storage.fs.nameOf child]) child).filter fun visit => visit.height < 256)
          (fun child => ⟨child, childPath (steps.foldl childPath rp) (storage.fs.nameOf child)⟩)
          height ((entriesOf storage.fs id).take (256 - (height + 0))) 0 stack
          (if nameMatches needle node.name then got ++ [steps.foldl childPath rp] else got) rounds
        refine run ?_ size
        intro place child there stack got rounds size
        have listed : (entriesOf storage.fs id)[place]? = some child := by
          rw [List.getElem?_take] at there
          split_ifs at there
          exact there
        have inside : place < 256 - (height + 0) := by
          by_contra behind
          rw [List.getElem?_take, if_neg behind] at there
          cases there
        have member := List.mem_of_getElem? listed
        have later := (linked.listed id child (entriesOf_mem member)).1
        have next := F_ih (height + (0 + place)) (steps ++ [storage.fs.nameOf child]) child stack
          got rounds (.entry below member) (by omega) size (by omega)
        rw [List.foldl_append] at next
        exact next
      · have none' : entriesOf storage.fs id = [] := by
          unfold entriesOf
          rw [found]
          dsimp only
          rw [if_neg fun both => directory both.1]
        rw [if_neg directory, none', List.take_nil]
        rfl

end Run

/-! ## Names -/

/-- The comparison finds the substring in every name that is not empty. -/
theorem nameMatches_iff (needle : Option (List UInt8)) (name : List UInt8) :
    nameMatches needle name = true ↔ Contains needle name ∧ (needle = none ∨ name ≠ []) := by
  cases needle with
  | none => simp [nameMatches, Contains]
  | some text =>
      have contains : Contains (some text) name ↔ text <:+: name :=
        ⟨fun all => all text rfl, fun inside _ same => by cases same; exact inside⟩
      rw [contains]
      simp only [nameMatches, List.any_eq_true, List.mem_range, List.isPrefixOf_iff_prefix]
      constructor
      · rintro ⟨i, inside, isPrefix⟩
        refine ⟨isPrefix.isInfix.trans (List.drop_suffix i name).isInfix, Or.inr ?_⟩
        rintro rfl
        cases inside
      · rintro ⟨⟨front, back, whole⟩, named⟩
        have some' : name ≠ [] := named.resolve_left (Option.some_ne_none _)
        by_cases inside : front.length < name.length
        · refine ⟨front.length, inside, back, ?_⟩
          rw [← whole, List.append_assoc, List.drop_left]
        · have lengths := congrArg List.length whole
          rw [List.length_append, List.length_append] at lengths
          have empty : text = [] := List.eq_nil_of_length_eq_zero (by omega)
          rw [empty]
          exact ⟨0, List.length_pos_of_ne_nil some', List.nil_prefix⟩

/-! ## Paths -/

section Paths

variable {names steps front : List (List UInt8)} {name : List UInt8}

theorem pathBuild_concat (names : List (List UInt8)) (name : List UInt8) :
    pathBuild (names ++ [name]) =
      (if names = [] then [] else pathBuild names) ++ slash :: name := by
  have some' : names ++ [name] ≠ [] := by simp
  rw [pathBuild, if_neg some', List.flatMap_append, List.flatMap_singleton]
  split_ifs with empty
  · rw [empty]
    rfl
  · rw [pathBuild, if_neg empty]

theorem childPath_length (cur name : List UInt8) :
    (childPath cur name).length ≤ min cur.length 200 + 1 + name.length := by
  unfold childPath
  dsimp only
  rw [List.length_take]
  split_ifs <;> simp <;> omega

theorem childPath_root (name : List UInt8) : (childPath [slash] name).length ≤ 1 + name.length := by
  unfold childPath
  dsimp only
  rw [List.length_take]
  simp

/-- A path is built right as long as the path of the directory has at most 200 bytes. -/
theorem childPath_pathBuild (valid : ∀ other ∈ names, PathName other)
    (short : (pathBuild names).length ≤ 200)
    (fits : (pathBuild (names ++ [name])).length < pathMax) :
    childPath (pathBuild names) name = pathBuild (names ++ [name]) := by
  have whole : (pathBuild names).take 200 = pathBuild names := List.take_of_length_le short
  rw [pathBuild_concat] at fits ⊢
  unfold pathMax at fits
  unfold childPath
  dsimp only
  rw [whole]
  cases List.eq_nil_or_concat names with
  | inl empty =>
      rw [empty] at fits ⊢
      rw [if_pos rfl, List.nil_append, List.length_cons] at fits
      have root : ¬ (pathBuild [] = [] ∨ (pathBuild []).getLast? ≠ some slash) := by decide
      rw [if_neg root, if_pos rfl, List.nil_append]
      change (slash :: name).take 255 = slash :: name
      rw [List.take_of_length_le]
      rw [List.length_cons]
      omega
  | inr more =>
      obtain ⟨before, last, split⟩ := more
      have some' : names ≠ [] := by
        rw [split]
        simp
      have isName := valid last (by rw [split]; simp)
      have ends : (pathBuild names).getLast? ≠ some slash := by
        rw [split, List.concat_eq_append, pathBuild_concat, List.getLast?_append,
          List.getLast?_cons_of_ne_nil isName.nonempty]
        intro same
        cases there : last.getLast? with
        | none => exact isName.nonempty (List.getLast?_eq_none_iff.mp there)
        | some c =>
            rw [there, Option.some_or] at same
            cases same
            exact isName.plain (List.mem_of_getLast? there)
      rw [if_neg some'] at fits ⊢
      rw [if_pos (Or.inr ends), List.append_assoc, List.singleton_append,
        List.take_of_length_le (by omega)]

/-- A built path is never longer than the path, and shorter when the path of the directory has
more than 200 bytes. -/
theorem built_length (names : List (List UInt8)) (steps : List (List UInt8)) :
    (steps.foldl childPath (pathBuild names)).length ≤ (pathBuild (names ++ steps)).length := by
  induction steps using List.reverseRecOn with
  | nil => rw [List.append_nil, List.foldl_nil]
  | append_singleton front name front_ih =>
      rw [List.foldl_append, ← List.append_assoc, pathBuild_concat, List.length_append,
        List.length_cons]
      by_cases empty : names ++ front = []
      · have both := List.append_eq_nil_iff.mp empty
        rw [if_pos empty, both.1, both.2, List.length_nil]
        have root := childPath_root name
        change (childPath [slash] name).length ≤ _
        omega
      · rw [if_neg empty]
        have longer := childPath_length (front.foldl childPath (pathBuild names)) name
        change (childPath (front.foldl childPath (pathBuild names)) name).length ≤ _
        omega

theorem built_shorter (long : 200 < (pathBuild (names ++ front)).length) :
    ((front ++ [name]).foldl childPath (pathBuild names)).length <
      (pathBuild (names ++ (front ++ [name]))).length := by
  have some' : names ++ front ≠ [] := by
    intro empty
    rw [empty] at long
    exact absurd long (by decide)
  have longer := childPath_length (front.foldl childPath (pathBuild names)) name
  rw [List.foldl_append, ← List.append_assoc, pathBuild_concat, if_neg some', List.length_append,
    List.length_cons]
  change (childPath (front.foldl childPath (pathBuild names)) name).length < _
  omega

theorem built_short (valid : ∀ other ∈ names ++ front, PathName other)
    (short : (pathBuild (names ++ front)).length ≤ 200) :
    front.foldl childPath (pathBuild names) = pathBuild (names ++ front) := by
  induction front using List.reverseRecOn with
  | nil => rw [List.append_nil, List.foldl_nil]
  | append_singleton before name before_ih =>
      rw [← List.append_assoc] at valid short ⊢
      have valid' : ∀ other ∈ names ++ before, PathName other := fun other there =>
        valid other (List.mem_append_left _ there)
      have shorter : (pathBuild (names ++ before)).length ≤ 200 := by
        rw [pathBuild_concat, List.length_append, List.length_cons] at short
        split_ifs at short with empty
        · rw [empty]
          decide
        · omega
      have fits : (pathBuild (names ++ before ++ [name])).length < pathMax :=
        Nat.lt_of_le_of_lt short (by decide)
      rw [List.foldl_append, before_ih valid' shorter]
      exact childPath_pathBuild valid' shorter fits

end Paths

/-! ## Main result -/

section Main

variable {platform : Platform} {fuel start max : Nat} {storage : Storage} {path : PathArg}
  {cwd : Option Nat} {needle : Option (List UInt8)} {names : List (List UInt8)}

/-- A node whose path leads to it has the names of the start and those on the way. -/
theorem named_below {fs : Fs} (linked : fs.Linked) (startNamed : fs.NamedPath start names)
    {steps : List (List UInt8)} {id : Nat} (below : Below fs start steps id) :
    ∀ others, fs.NamedPath id others → others = names ++ steps := by
  have unlisted : ∀ root, fs.root = some root → ∀ dir, root ∉ fs.childrenOf dir := by
    intro root isRoot dir listed
    obtain ⟨root', node, isRoot', live, top⟩ := linked.rooted
    rw [isRoot] at isRoot'
    cases isRoot'
    exact linked.top live top dir listed
  have unique : ∀ {id first}, fs.NamedPath id first → ∀ second, fs.NamedPath id second →
      first = second := by
    intro id first named
    induction named with
    | root isRoot =>
        intro second other
        cases other with
        | root => rfl
        | child _ _ entry _ => exact absurd (vfsFinddir_mem entry).1 (unlisted _ isRoot _)
    | child above found entry name above_ih =>
        intro second other
        cases other with
        | root isRoot => exact absurd (vfsFinddir_mem entry).1 (unlisted _ isRoot _)
        | child above' found' entry' name' =>
            rw [found] at found'
            cases found'
            have same := linked.parent_unique (vfsFinddir_mem entry).1 (vfsFinddir_mem entry').1
            cases same
            rw [above_ih _ above']
  induction below with
  | self =>
      intro others named
      rw [List.append_nil]
      exact unique named _ startNamed
  | @entry steps dir child above listed above_ih =>
      intro others named
      cases named with
      | root isRoot => exact absurd (entriesOf_mem listed) (unlisted _ isRoot _)
      | child above' found entry name =>
          have same := linked.parent_unique (vfsFinddir_mem entry).1 (entriesOf_mem listed)
          cases same
          rw [above_ih _ above', Fs.nameOf, found, List.append_assoc]

theorem path_below {fs : Fs} (linked : fs.Linked) (startNamed : fs.NamedPath start names)
    {steps : List (List UInt8)} {id : Nat} (below : Below fs start steps id)
    (resolves : fs.PathFindsNode id) :
    vfsGetPath fs id = some (pathBuild (names ++ steps)) ∧
      (pathBuild (names ++ steps)).length < pathMax ∧ fs.NamedPath id (names ++ steps) := by
  obtain ⟨built, isBuilt, short, finds⟩ := resolves
  obtain ⟨norm, others, _, output, named⟩ := vfsResolve_named linked (finds none)
  have same := named_below linked startNamed below others named
  subst same
  have fits : (pathBuild (names ++ steps)).length < pathMax := by
    rw [← output.built]
    exact output.short
  exact ⟨vfsGetPath_named linked named fits, fits, named⟩

theorem sysVfsFind_eq (linked : storage.fs.Linked)
    (resolved : vfsResolve storage.fs path cwd = some (some start))
    (settled : Settled platform fuel storage start) (needle : Option (List UInt8)) (max : Nat) :
    ∃ names, storage.fs.NamedPath start names ∧
      ∃ enough, ∀ rounds, enough ≤ rounds →
        sysVfsFind platform fuel rounds path cwd needle max storage =
          some (((((searched storage.fs start).filter fun visit => visit.height < 256).filter
            fun visit => nameMatches needle (storage.fs.nameOf visit.node)).map
              (builtPath (pathBuild names))).take max, storage) := by
  obtain ⟨norm, names, _, output, named⟩ := vfsResolve_named linked resolved
  have live := named.live linked
  have fits : (pathBuild names).length < pathMax := by
    rw [← output.built]
    exact output.short
  refine ⟨names, named, 1 + ((searched storage.fs start).filter
    fun visit => visit.height < 256).length, ?_⟩
  intro rounds enough
  obtain ⟨more, rfl⟩ := Nat.exists_eq_add_of_le enough
  have run := @findLoop_walk platform fuel start max storage needle linked live settled
    (pathBuild names) storage.fs.next 0 [] start [] [] more .self (by omega) rfl (by decide)
  have rounds' : 1 + ((searched storage.fs start).filter
      fun visit => visit.height < 256).length + more = more + 1 +
        ((searched storage.fs start).filter fun visit => visit.height < 256).length := by omega
  unfold sysVfsFind
  rw [resolved]
  dsimp only
  have whole : (pathBuild names).take 255 = pathBuild names :=
    List.take_of_length_le (by unfold pathMax at fits; omega)
  rw [vfsGetPath_named linked named fits, Option.bind_some, whole, rounds']
  refine run.trans ?_
  rw [findLoop, collect_eq _ [] (Nat.zero_le _), List.nil_append]
  rfl

/-- Every node found lies below a directory that is listed, unless it is the start. -/
theorem below_cases {fs : Fs} {steps : List (List UInt8)} {id : Nat}
    (below : Below fs start steps id) : (id = start ∧ steps = []) ∨
      ∃ front dir name, steps = front ++ [name] ∧ Below fs start front dir ∧
        id ∈ fs.childrenOf dir := by
  cases below with
  | self => exact Or.inl ⟨rfl, rfl⟩
  | entry above listed => exact Or.inr ⟨_, _, _, rfl, above, entriesOf_mem listed⟩

/-- The directory of a node has the names of the node but the last. -/
theorem named_directory {fs : Fs} (linked : fs.Linked) {id dir : Nat}
    {front : List (List UInt8)} {name : List UInt8} (named : fs.NamedPath id (front ++ [name]))
    (listed : id ∈ fs.childrenOf dir) : fs.NamedPath dir front := by
  generalize whole : front ++ [name] = all at named
  cases named with
  | root isRoot => simp at whole
  | child above found entry isName =>
      have same := linked.parent_unique (vfsFinddir_mem entry).1 listed
      cases same
      have split := List.append_inj' whole rfl
      rw [split.1]
      exact above

/-- The path that the search builds for a node is its path when that of its directory has at most
200 bytes, and only then as long. -/
theorem builtPath_cases {fs : Fs} (linked : fs.Linked) (startNamed : fs.NamedPath start names)
    {visit : Visit} (below : Below fs start visit.steps visit.node)
    (resolves : fs.PathFindsNode visit.node) :
    ((visit.node = start ∨ ∀ dir path, visit.node ∈ fs.childrenOf dir →
        vfsGetPath fs dir = some path → path.length ≤ 200) →
      builtPath (pathBuild names) visit = pathBuild (names ++ visit.steps)) ∧
    ((builtPath (pathBuild names) visit).length = (pathBuild (names ++ visit.steps)).length →
      (visit.node = start ∨ ∀ dir path, visit.node ∈ fs.childrenOf dir →
        vfsGetPath fs dir = some path → path.length ≤ 200)) := by
  obtain ⟨_, fits, named⟩ := path_below linked startNamed below resolves
  obtain ⟨isStart, none'⟩ | ⟨front, dir, name, split, above, listed⟩ := below_cases below
  · constructor
    · intro _
      rw [builtPath, none', List.append_nil, List.foldl_nil]
    · intro _
      exact Or.inl isStart
  · unfold builtPath
    rw [split] at fits named ⊢
    rw [← List.append_assoc] at fits named
    have dirNamed := named_directory linked named listed
    have dirPath := vfsGetPath_named linked dirNamed (pathBuild_short fits)
    have valid := dirNamed.valid
    have later : visit.node ≠ start := by
      have more := (linked.listed dir visit.node listed).1
      have least := below_le linked above
      omega
    constructor
    · intro short
      have small := short.resolve_left later dir _ listed dirPath
      rw [List.foldl_append, built_short valid small, ← List.append_assoc]
      exact childPath_pathBuild valid small fits
    · intro same
      right
      intro other path listed' isPath
      have parent := linked.parent_unique listed' listed
      rw [parent, dirPath] at isPath
      cases isPath
      by_contra long
      have shorter := @built_shorter names front name (Nat.lt_of_not_le long)
      omega

/-- Lists of numbers with equal sums, one nowhere above the other, are equal. -/
theorem eq_of_sums {α : Type} {f g : α → Nat} {items : List α}
    (le : ∀ item ∈ items, f item ≤ g item) (sums : (items.map f).sum = (items.map g).sum) :
    ∀ item ∈ items, f item = g item := by
  induction items with
  | nil =>
      intro item there
      cases there
  | cons first rest rest_ih =>
      have head := le first List.mem_cons_self
      have tail := fun item there => le item (List.mem_cons_of_mem first there)
      have total := List.sum_le_sum tail
      rw [List.map_cons, List.map_cons, List.sum_cons, List.sum_cons] at sums
      intro item there
      rw [List.mem_cons] at there
      cases there with
      | inl same =>
          rw [same]
          omega
      | inr later => exact rest_ih tail (by omega) item later

/-- A filter that keeps as many items as a weaker one keeps the same. -/
theorem filter_eq {α : Type} {p q : α → Bool} (weaker : ∀ item, p item = true → q item = true)
    (items : List α) (same : (items.filter q).length ≤ (items.filter p).length) :
    ∀ item ∈ items, q item = true → p item = true := by
  have split : (items.filter q).filter p = items.filter p := by
    rw [List.filter_filter]
    congr 1
    funext item
    by_cases isP : p item = true
    · rw [isP, weaker item isP]
      rfl
    · rw [Bool.not_eq_true] at isP
      rw [isP]
      rfl
  have length : ((items.filter q).filter p).length = (items.filter q).length := by
    have most := List.length_filter_le p (items.filter q)
    rw [split] at most ⊢
    omega
  intro item there isQ
  have all := List.length_filter_eq_length_iff.mp length
  exact all item (List.mem_filter.mpr ⟨there, isQ⟩)

/-- What the search compares and has room for, of the nodes found. -/
theorem visited_eq {fs : Fs} :
    (((searched fs start).filter fun visit => visit.height < 256).filter
      fun visit => nameMatches needle (fs.nameOf visit.node)) =
      (searched fs start).filter fun visit =>
        decide (visit.height < 256) && nameMatches needle (fs.nameOf visit.node) := by
  rw [List.filter_filter]
  congr 1
  funext visit
  rw [Bool.and_comm]

theorem matched_found {fs : Fs} (visit : Visit)
    (isMatch : (decide (visit.height < 256) && nameMatches needle (fs.nameOf visit.node)) = true) :
    decide (Contains needle (fs.nameOf visit.node)) = true := by
  rw [Bool.and_eq_true, nameMatches_iff] at isMatch
  exact decide_eq_true isMatch.2.1

theorem length_filter_mono {α : Type} {p q : α → Bool}
    (weaker : ∀ item, p item = true → q item = true) (items : List α) :
    (items.filter p).length ≤ (items.filter q).length := by
  rw [← List.countP_eq_length_filter, ← List.countP_eq_length_filter]
  exact List.countP_mono_left fun item _ => weaker item

theorem reached_of_right (reached : Reachable storage)
    (resolved : vfsResolve storage.fs path cwd = some (some start))
    (settled : Settled platform fuel storage start)
    (few : (found storage.fs start needle).length ≤ max)
    (right : FindRight platform fuel path cwd needle max storage start) :
    ∀ visit ∈ found storage.fs start needle, Reached storage.fs start needle visit := by
  have linked := reached.linked
  obtain ⟨paths, bound, runs, perm, resolves⟩ := right
  obtain ⟨names, named, enough, result⟩ := sysVfsFind_eq linked resolved settled needle max
  have outcome := (runs (Nat.max bound enough) (Nat.le_max_left _ _)).symm.trans
    (result (Nat.max bound enough) (Nat.le_max_right _ _))
  rw [visited_eq] at outcome
  have isPaths := congrArg Prod.fst (Option.some.inj outcome)
  dsimp only at isPaths
  have weaker := @matched_found needle storage.fs
  have fewer := length_filter_mono weaker (searched storage.fs start)
  have count := perm.length_eq
  rw [List.length_map, List.length_map] at count
  rw [List.take_of_length_le (by rw [List.length_map]; exact Nat.le_trans fewer few)] at isPaths
  have counts : paths.length = ((searched storage.fs start).filter fun visit =>
      decide (visit.height < 256) && nameMatches needle (storage.fs.nameOf visit.node)).length := by
    rw [isPaths, List.length_map]
  have all := filter_eq weaker (searched storage.fs start) (by
    rw [← counts, count]
    exact Nat.le_refl _)
  have whole : (searched storage.fs start).filter (fun visit =>
      decide (visit.height < 256) && nameMatches needle (storage.fs.nameOf visit.node)) =
        found storage.fs start needle := by
    apply List.filter_congr
    intro visit there
    rw [Bool.eq_iff_iff]
    exact ⟨weaker visit, all visit there⟩
  rw [whole] at isPaths
  have isPath (visit : Visit) (there : visit ∈ found storage.fs start needle) :=
    path_below linked named (found_below there) (resolves visit there)
  have lengths := @eq_of_sums Visit (fun visit => (builtPath (pathBuild names) visit).length)
    (fun visit => ((vfsGetPath storage.fs visit.node).getD []).length)
    (found storage.fs start needle)
    (by
      intro visit there
      rw [(isPath visit there).1]
      exact built_length names visit.steps)
    (by
      have sums := (perm.map fun path => (path.getD []).length).sum_eq
      rw [isPaths, List.map_map, List.map_map, List.map_map] at sums
      exact sums)
  intro visit there
  have match' := all visit (List.mem_of_mem_filter there) (List.mem_filter.mp there).2
  rw [Bool.and_eq_true, decide_eq_true_eq, nameMatches_iff] at match'
  have length := lengths visit there
  rw [(isPath visit there).1, Option.getD_some] at length
  exact ⟨match'.2.2, match'.1, resolves visit there,
    (builtPath_cases linked named (found_below there) (resolves visit there)).2 length⟩

theorem right_of_reached (reached : Reachable storage)
    (resolved : vfsResolve storage.fs path cwd = some (some start))
    (settled : Settled platform fuel storage start)
    (few : (found storage.fs start needle).length ≤ max)
    (all : ∀ visit ∈ found storage.fs start needle, Reached storage.fs start needle visit) :
    FindRight platform fuel path cwd needle max storage start := by
  have linked := reached.linked
  obtain ⟨names, named, enough, result⟩ := sysVfsFind_eq linked resolved settled needle max
  have whole : (searched storage.fs start).filter (fun visit =>
      decide (visit.height < 256) && nameMatches needle (storage.fs.nameOf visit.node)) =
        found storage.fs start needle := by
    apply List.filter_congr
    intro visit there
    rw [Bool.eq_iff_iff]
    refine ⟨matched_found visit, fun contains => ?_⟩
    have right := all visit (List.mem_filter.mpr ⟨there, contains⟩)
    rw [Bool.and_eq_true, decide_eq_true_eq, nameMatches_iff]
    exact ⟨right.room, of_decide_eq_true contains, right.named⟩
  refine ⟨(found storage.fs start needle).map (builtPath (pathBuild names)), enough, ?_, ?_, ?_⟩
  · intro rounds more
    rw [result rounds more, visited_eq, whole, List.take_of_length_le]
    rw [List.length_map]
    exact few
  · rw [List.map_map]
    have each : (found storage.fs start needle).map (some ∘ builtPath (pathBuild names)) =
        (found storage.fs start needle).map fun visit => vfsGetPath storage.fs visit.node := by
      apply List.map_congr_left
      intro visit there
      have right := all visit there
      rw [(path_below linked named (found_below there) right.resolves).1, Function.comp_apply,
        (builtPath_cases linked named (found_below there) right.resolves).1 right.short]
    rw [each]
  · intro visit there
    exact (all visit there).resolves

/-- In every run, a search that may write as many paths as there are nodes found, in a tree in
which nothing is left to be loaded, is right exactly if each node found is one that it reaches. -/
theorem findRight_iff (reached : Reachable storage)
    (resolved : vfsResolve storage.fs path cwd = some (some start))
    (settled : Settled platform fuel storage start)
    (few : (found storage.fs start needle).length ≤ max) :
    FindRight platform fuel path cwd needle max storage start ↔
      ∀ visit ∈ found storage.fs start needle, Reached storage.fs start needle visit :=
  ⟨reached_of_right reached resolved settled few, right_of_reached reached resolved settled few⟩

def withoutFat (fs : Fs) : Bool :=
  (List.range fs.next).all fun id =>
    match fs.node id with
    | none => true
    | some node => decide (node.ops ≠ .fatDirectory)

theorem settled_withoutFat (linked : storage.fs.Linked)
    (live : ∃ node, storage.fs.node start = some node) (plain : withoutFat storage.fs = true) :
    Settled platform fuel storage start := by
  intro steps dir index below
  obtain ⟨node, isNode⟩ := below_live linked live below
  have callback := List.all_eq_true.mp plain dir (List.mem_range.mpr (linked.bounded.lt isNode))
  rw [isNode] at callback
  dsimp only at callback
  rw [decide_eq_true_eq] at callback
  rw [vfsReaddir, readdirEntry, isNode, Option.map_some]
  cases kind : node.ops
  case fatDirectory => exact absurd kind callback
  all_goals
    dsimp only
    rw [kind]

end Main

theorem findRight_iff_boot : ∃ storage, rootRun [] = some storage ∧
    (FindRight .ideal 100 (.of [slash]) none (some (literal "user")) 4 storage 0 ↔
      ∀ visit ∈ found storage.fs 0 (some (literal "user")),
        Reached storage.fs 0 (some (literal "user")) visit) := by
  have facts : (rootRun []).map (fun storage =>
      (vfsResolve storage.fs (.of [slash]) none, withoutFat storage.fs, (storage.fs.node 0).isSome,
        decide ((found storage.fs 0 (some (literal "user"))).length ≤ 4))) =
      some (some (some 0), true, true, true) := by
    rw [rootRun, boot_ideal]
    decide +kernel
  obtain ⟨storage, ran, outcome⟩ := Option.map_eq_some_iff.mp facts
  obtain ⟨resolved, rest⟩ := Prod.mk.inj outcome
  obtain ⟨plain, rest⟩ := Prod.mk.inj rest
  obtain ⟨live, few⟩ := Prod.mk.inj rest
  have reached := rootRun_reachable ran
  exact ⟨storage, ran, findRight_iff reached resolved
    (settled_withoutFat reached.linked (Option.isSome_iff_exists.mp live) plain)
    (of_decide_eq_true few)⟩

/-- Directories one in another, the last of them with a path of more than 200 bytes. -/
def deepNames : List (List UInt8) :=
  [List.replicate 63 97, List.replicate 63 98, List.replicate 63 99, List.replicate 20 100, [113]]

def deepRun : Option Storage :=
  rootRun ((List.range 5).map fun depth =>
    .mkdir (.of (pathBuild (deepNames.take (depth + 1)))))

theorem deepRun_tree :
    deepRun.map (fun storage => (vfsResolve storage.fs (.of [slash]) none,
      withoutFat storage.fs && (storage.fs.node 0).isSome,
      (found storage.fs 0 (some [113])).map Visit.node, storage.fs.childrenOf 20)) =
      some (some (some 0), true, [21], [21]) := by
  rw [deepRun, rootRun, boot_ideal]
  decide +kernel

theorem deepRun_path :
    (deepRun.bind fun storage => vfsGetPath storage.fs 20).map List.length = some 213 := by
  rw [deepRun, rootRun, boot_ideal]
  decide +kernel

/-- A search from the root for the last directory writes another path. -/
theorem findRight_deep : ∃ storage, deepRun = some storage ∧
    vfsResolve storage.fs (.of [slash]) none = some (some 0) ∧
    (found storage.fs 0 (some [113])).map Visit.node = [21] ∧
    ¬ FindRight .ideal 100 (.of [slash]) none (some [113]) 4 storage 0 := by
  obtain ⟨storage, ran, outcome⟩ := Option.map_eq_some_iff.mp deepRun_tree
  obtain ⟨resolved, rest⟩ := Prod.mk.inj outcome
  obtain ⟨plain, rest⟩ := Prod.mk.inj rest
  obtain ⟨nodes, children⟩ := Prod.mk.inj rest
  rw [Bool.and_eq_true] at plain
  have reached := rootRun_reachable ran
  refine ⟨storage, ran, resolved, nodes, ?_⟩
  intro right
  have count := congrArg List.length nodes
  rw [List.length_map, List.length_singleton] at count
  have all := reached_of_right reached resolved
    (settled_withoutFat reached.linked (Option.isSome_iff_exists.mp plain.2) plain.1)
    (by omega) right
  have listed : 21 ∈ (found storage.fs 0 (some [113])).map Visit.node := by
    rw [nodes]
    exact List.mem_singleton_self 21
  obtain ⟨visit, there, isNode⟩ := List.mem_map.mp listed
  have listed' : 21 ∈ storage.fs.childrenOf 20 := by
    rw [children]
    exact List.mem_singleton_self 21
  have path := deepRun_path
  rw [ran, Option.bind_some, Option.map_eq_some_iff] at path
  obtain ⟨path, isPath, length⟩ := path
  cases (all visit there).short with
  | inl isStart =>
      rw [isNode] at isStart
      cases isStart
  | inr short =>
      rw [isNode] at short
      have small := short 20 path listed' isPath
      omega

end Find

end Trinux
