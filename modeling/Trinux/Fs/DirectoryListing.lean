import Trinux.Fs.References
import Trinux.Lib.Cursor

namespace Trinux

/-!
# Reading a directory while its entries are deleted

A directory handle keeps the number of the next entry.  Deleting an entry moves the entries behind
it up by one, and the number stays.
-/

/-- A session that reads a directory through a handle: the entries returned so far, and whether the
end was reported. -/
structure DirReader where
  session : Session
  returned : List Nat
  ended : Bool

/-- The program reads the next entry, or it deletes an entry that was returned. -/
inductive DirEvent where
  | read (context : CallContext)
  | unlink (context : CallContext) (path : PathArg)

namespace DirReader

def opened (session : Session) : DirReader := ⟨session, [], false⟩

def entries (l : DirReader) (dir : Nat) : List Nat := l.session.storage.fs.childrenOf dir

def next (l : DirReader) (dh : Int) : UInt32 := l.session.descriptors.dhIdx dh.toNat

/-- The reader after an event; other paths than those of entries that were returned are not
deleted. -/
def step (dir : Nat) (dh : Int) (l : DirReader) : DirEvent → Option DirReader
  | .read context => (l.session.sysReaddir context dh).map fun read =>
      ⟨read.2.2, l.returned ++ read.2.1.toList, l.ended || read.2.1.isNone⟩
  | .unlink context path =>
      (vfsResolve l.session.storage.fs path l.session.cwd).bind fun target =>
        match target with
        | none => none
        | some entry =>
            if entry ∈ l.returned ∧ entry ∈ l.entries dir then
              (l.session.step context (.path (.unlink path))).map fun session =>
                { l with session := session }
            else none

def run (dir : Nat) (dh : Int) : DirReader → List DirEvent → Option DirReader
  | l, [] => some l
  | l, event :: rest => (l.step dir dh event).bind fun l => run dir dh l rest

def Waits (dir : Nat) (dh : Int) (l : DirReader) : DirEvent → Prop
  | .read _ => True
  | .unlink context path => ∀ entry,
      l.session.storage.fs.Deletes context.cred path l.session.cwd entry →
        (l.entries dir).length ≤ (l.next dh).toNat

/-- No event of the run deletes anything while the handle has entries before it. -/
def AlwaysWaits (dir : Nat) (dh : Int) : DirReader → List DirEvent → Prop
  | _, [] => True
  | l, event :: rest => l.Waits dir dh event ∧
      ∀ l', l.step dir dh event = some l' → AlwaysWaits dir dh l' rest

/-- A directory: its type, the callback of a directory, and an array of children that holds them. -/
structure IsDirectory (fs : Fs) (dir : Nat) : Prop where
  live : ∃ node, fs.node dir = some node ∧ node.type = vfsDirectory ∧ node.ops ≠ .fatFile
  fits : (fs.childrenOf dir).length ≤ vfsMaxChildren

structure Open (dir : Nat) (dh : Int) (l : DirReader) : Prop where
  linked : l.session.storage.fs.Linked
  directory : IsDirectory l.session.storage.fs dir
  valid : 0 < dh ∧ dh < dhMax
  handle : l.session.descriptors.dhTable dh.toNat = some dir

def cursor (dir : Nat) (dh : Int) (l : DirReader) : Cursor Nat :=
  ⟨l.entries dir, (l.next dh).toNat, l.returned, l.ended⟩

/-! ## Reading -/

section Reading

variable {dir : Nat} {dh : Int} {l l' : DirReader}

/-- `vfs_readdir` on a directory returns the child of a number. -/
theorem readdirEntry_directory {fs : Fs} (directory : IsDirectory fs dir) (index : Nat) :
    readdirEntry fs dir index = (fs.childrenOf dir)[index]? := by
  rcases directory.live with ⟨node, live, isDir, callback⟩
  have list : ramfsReaddir fs dir index = (fs.childrenOf dir)[index]? := by
    unfold ramfsReaddir
    rw [live, Fs.childrenOf_eq live]
    dsimp only
    rw [if_neg (not_not.mpr isDir)]
  unfold readdirEntry
  rw [live, Option.map_some]
  cases kind : node.ops
  case fatFile => exact absurd kind callback
  all_goals first | rfl | exact list

theorem vfsReaddir_directory {platform : Platform} {fuel index : Nat} {storage storage' : Storage}
    {entry : Option Nat} (linked : storage.fs.Linked) (directory : IsDirectory storage.fs dir)
    (listed : vfsReaddir platform fuel storage dir index = some (entry, storage')) :
    IsDirectory storage'.fs dir ∧ storage'.fs.childrenOf dir = storage.fs.childrenOf dir := by
  rw [vfsReaddir] at listed
  split at listed
  · cases listed
  split at listed
  · cases listed
    exact ⟨directory, rfl⟩
  · rcases fatReaddir_cases listed with rfl |
      ⟨child, node, loaded, read, found, live, -, isRead, rfl⟩
    · exact ⟨directory, rfl⟩
    have result := fatReadDir_read linked isRead
    have below := linked.bounded.lt live
    have older : child < loaded := by
      rw [result.number]
      exact below
    have held : read.node child ≠ none := by
      rw [result.older child below, live]
      exact Option.some_ne_none _
    rcases directory.live with ⟨above, isLive, isDir, callback⟩
    have dirBelow := linked.bounded.lt isLive
    have notLoaded : dir ≠ loaded := by
      rw [result.number]
      exact Nat.ne_of_lt dirBelow
    have notChild : dir ≠ child :=
      Nat.ne_of_lt (linked.listed dir child (List.mem_of_getElem? found)).1
    have children : (fatAdopt child loaded read).childrenOf dir =
        storage.fs.childrenOf dir := by
      rw [fatAdopt_childrenOf result.linked older held, if_neg notLoaded,
        if_neg notChild, Fs.childrenOf_congr (result.older dir dirBelow)]
    rcases fatAdopt_map child read notLoaded with ⟨change, node, keeps⟩
    rw [result.older dir dirBelow, isLive, Option.map_some] at node
    have type := congrArg VfsNode.type (keeps above)
    have ops := congrArg VfsNode.ops (keeps above)
    dsimp only at type ops
    refine ⟨⟨⟨change above, node, ?_, ?_⟩, ?_⟩, children⟩
    · rw [type]
      exact isDir
    · rw [ops]
      exact callback
    · dsimp only
      rw [children]
      exact directory.fits
  · cases listed
    exact ⟨directory, rfl⟩

theorem Open.cursor_read {context : CallContext} (isOpen : l.Open dir dh)
    (ran : l.step dir dh (.read context) = some l') :
    l'.Open dir dh ∧ l'.cursor dir dh = (l.cursor dir dh).step .next := by
  rcases Option.map_eq_some_iff.mp ran with ⟨⟨code, entry, session⟩, isRead, rfl⟩
  unfold Session.sysReaddir at isRead
  rw [if_pos isOpen.valid, isOpen.handle] at isRead
  rcases Option.map_eq_some_iff.mp isRead with ⟨⟨child, storage⟩, listed, outcome⟩
  have kept := vfsReaddir_directory isOpen.linked isOpen.directory listed
  have linked := (Session.vfsReaddir_inTree isOpen.linked listed).1
  have found := vfsReaddir_entry listed
  rw [readdirEntry_directory isOpen.directory] at found
  unfold cursor Cursor.step
  dsimp only
  have here : (l.entries dir)[(l.next dh).toNat]? = child := found.symm
  rw [here]
  cases child with
  | none =>
      cases outcome
      refine ⟨⟨linked, kept.1, isOpen.valid, isOpen.handle⟩, ?_⟩
      dsimp only
      rw [Option.toList_none, List.append_nil, Option.isNone_none, Bool.or_true]
      unfold entries next
      dsimp only
      rw [kept.2]
  | some child =>
      cases outcome
      refine ⟨⟨linked, kept.1, isOpen.valid, isOpen.handle⟩, ?_⟩
      dsimp only
      rw [Option.toList_some, Option.isNone_some, Bool.or_false]
      have inside : (l.next dh).toNat < (l.entries dir).length := by
        rcases List.getElem?_eq_some_iff.mp here with ⟨inside, _⟩
        exact inside
      have few : (l.entries dir).length ≤ 256 := isOpen.directory.fits
      have number : (l.next dh + 1).toNat = (l.next dh).toNat + 1 := by
        rw [UInt32.toNat_add]
        exact Nat.mod_eq_of_lt (by show (l.next dh).toNat + 1 < 2 ^ 32; omega)
      unfold entries next at *
      dsimp only
      rw [kept.2, Function.update_self, number]

end Reading

/-! ## Deleting -/

section Deleting

variable {dir : Nat} {dh : Int} {l l' : DirReader}

theorem vfsDelete_deletes {fs : Fs} {cred : Cred} {path : PathArg} {cwd : Option Nat} {entry : Nat}
    (store : Blockfs) (linked : fs.Linked) (deletes : fs.Deletes cred path cwd entry)
    (listed : entry ∈ fs.childrenOf dir) : ∃ code store', vfsDelete cred fs store path cwd =
      some (code, (fs.modify dir (VfsNode.detach entry)).free entry, store') := by
  rcases deletes.permitted with ⟨node, parent, above, live, points, held, may, free, empty⟩
  rcases linked.listed dir entry listed with ⟨_, node', live', points'⟩
  rw [live] at live'
  cases live'
  rw [points] at points'
  cases points'
  rcases ramfsRemoveNode_cases fs store entry with ⟨failed, _⟩ |
    ⟨node', parent', live', points', _, _, done⟩
  · have removes : (ramfsRemoveNode fs store entry).1 = 0 := by
      unfold ramfsRemoveNode
      rw [live]
      dsimp only
      rw [points]
      dsimp only
      rw [if_neg empty, if_neg (not_not.mpr listed)]
    rw [removes] at failed
    exact absurd failed (lt_irrefl 0)
  · rw [live] at live'
    cases live'
    rw [points] at points'
    cases points'
    refine ⟨0, node.freeBlocks store, ?_⟩
    unfold vfsDelete
    rw [deletes.resolved, Option.bind_some]
    dsimp only
    rw [live]
    dsimp only
    rw [points]
    dsimp only
    rw [held]
    dsimp only
    rw [may, free]
    exact congrArg some done

theorem IsDirectory.detach {fs : Fs} {entry : Nat} (directory : IsDirectory fs dir)
    (different : dir ≠ entry) :
    IsDirectory ((fs.modify dir (VfsNode.detach entry)).free entry) dir ∧
      ((fs.modify dir (VfsNode.detach entry)).free entry).childrenOf dir =
        (fs.childrenOf dir).erase entry := by
  have children : ((fs.modify dir (VfsNode.detach entry)).free entry).childrenOf dir =
      (fs.childrenOf dir).erase entry := by
    rw [Fs.childrenOf_remove, if_neg different, if_pos rfl]
  rcases directory.live with ⟨node, live, isDir, callback⟩
  refine ⟨⟨⟨node.detach entry, ?_, isDir, callback⟩, ?_⟩, children⟩
  · rw [Fs.free_node_of_ne _ different, Fs.modify_node_self, live]
    rfl
  · rw [children]
    exact List.length_erase_le.trans directory.fits

/-- Deleting an entry that was returned removes it from the list, or changes nothing. -/
theorem Open.cursor_unlink {context : CallContext} {path : PathArg} (isOpen : l.Open dir dh)
    (ran : l.step dir dh (.unlink context path) = some l') :
    l'.Open dir dh ∧ ((l'.cursor dir dh = l.cursor dir dh ∧ l.Waits dir dh (.unlink context path)) ∨
      ∃ entry, l'.cursor dir dh = (l.cursor dir dh).step (.remove entry) ∧
        ((l.cursor dir dh).Waits (.remove entry) ↔ l.Waits dir dh (.unlink context path))) := by
  rcases Option.bind_eq_some_iff.mp ran with ⟨target, found, outcome⟩
  cases target with
  | none => cases outcome
  | some entry =>
      dsimp only at outcome
      split_ifs at outcome with may
      rcases Option.map_eq_some_iff.mp outcome with ⟨session, stepped, rfl⟩
      rcases Option.map_eq_some_iff.mp stepped with ⟨storage, called, rfl⟩
      rcases Option.map_eq_some_iff.mp called with ⟨⟨code, after'⟩, made, rfl⟩
      have linked := sysUnlink_linked isOpen.linked made
      rcases Option.map_eq_some_iff.mp made with ⟨⟨code', fs, store⟩, deleted, same⟩
      cases same
      have different : dir ≠ entry := Nat.ne_of_lt (isOpen.linked.listed dir entry may.2).1
      by_cases deletes : l.session.storage.fs.Deletes context.cred path l.session.cwd entry
      · rcases vfsDelete_deletes l.session.storage.store isOpen.linked deletes may.2 with
          ⟨code, store, removed⟩
        have both := removed.symm.trans deleted
        cases both
        have kept := isOpen.directory.detach different
        refine ⟨⟨linked, kept.1, isOpen.valid, isOpen.handle⟩, Or.inr ⟨entry, ?_, ?_⟩⟩
        · unfold DirReader.cursor Cursor.step
          dsimp only
          rw [if_pos may.1]
          unfold entries next
          dsimp only
          rw [kept.2]
        · unfold Cursor.Waits DirReader.Waits Cursor.ahead DirReader.cursor
          dsimp only
          rw [List.drop_eq_nil_iff]
          exact ⟨fun waits _ _ => waits may.1 may.2, fun waits _ _ => waits entry deletes⟩
      · have none' : ∀ gone,
            ¬l.session.storage.fs.Deletes context.cred path l.session.cwd gone := by
          intro gone deletesGone
          have target := deletesGone.resolved
          rw [found] at target
          cases target
          exact deletes deletesGone
        rcases vfsDelete_removes deleted with rfl | ⟨gone, _, deletesGone, _⟩
        · exact ⟨⟨linked, isOpen.directory, isOpen.valid, isOpen.handle⟩,
            Or.inl ⟨rfl, fun gone deletesGone => absurd deletesGone (none' gone)⟩⟩
        · exact absurd deletesGone (none' gone)

end Deleting

/-! ## Runs -/

section Runs

variable {dir : Nat} {dh : Int} {l l' : DirReader}

/-- A run of the reader is a run of the cursor, and it waits exactly if the cursor does. -/
theorem Open.run_cursor {events : List DirEvent} (isOpen : l.Open dir dh)
    (ran : l.run dir dh events = some l') : ∃ steps,
      l'.cursor dir dh = Machine.after Cursor.step (l.cursor dir dh) steps ∧
        (Machine.Always Cursor.step Cursor.Waits (l.cursor dir dh) steps ↔
          l.AlwaysWaits dir dh events) := by
  induction events generalizing l with
  | nil =>
      cases ran
      exact ⟨[], rfl, Iff.rfl⟩
  | cons event rest known =>
      rcases Option.bind_eq_some_iff.mp ran with ⟨middle, stepped, later⟩
      have next : l.AlwaysWaits dir dh (event :: rest) ↔
          l.Waits dir dh event ∧ middle.AlwaysWaits dir dh rest := by
        constructor
        · exact fun waits => ⟨waits.1, waits.2 middle stepped⟩
        · rintro ⟨waits, restWaits⟩
          refine ⟨waits, fun other steppedOther => ?_⟩
          rw [stepped] at steppedOther
          cases steppedOther
          exact restWaits
      cases event with
      | read context =>
          rcases isOpen.cursor_read stepped with ⟨opened', same⟩
          rcases known opened' later with ⟨steps, reached, waits⟩
          rw [same] at reached waits
          refine ⟨.next :: steps, reached, ?_⟩
          rw [next, ← waits]
          exact Iff.rfl
      | unlink context path =>
          rcases isOpen.cursor_unlink stepped with
            ⟨opened', ⟨same, waitsHere⟩ | ⟨entry, same, here⟩⟩
          · rcases known opened' later with ⟨steps, reached, waits⟩
            rw [same] at reached waits
            refine ⟨steps, reached, ?_⟩
            rw [next, ← waits]
            exact ⟨fun always => ⟨waitsHere, always⟩, fun both => both.2⟩
          · rcases known opened' later with ⟨steps, reached, waits⟩
            rw [same] at reached waits
            refine ⟨.remove entry :: steps, reached, ?_⟩
            rw [next, ← waits, ← here]
            exact Iff.rfl

theorem sysOpendir_open {s s' : Session} {context : CallContext} {path : PathArg}
    (linked : s.storage.fs.Linked) (opens : s.sysOpendir context path = some (dh, s'))
    (valid : 0 < dh) (handle : s'.descriptors.dhTable dh.toNat = some dir)
    (directory : IsDirectory s.storage.fs dir) :
    (opened s').Open dir dh ∧
      (opened s').cursor dir dh = Cursor.start (s.storage.fs.childrenOf dir) := by
  rcases Option.map_eq_some_iff.mp opens with ⟨target, _, outcome⟩
  split at outcome
  · cases outcome
    exact absurd valid (by decide)
  · rename_i id node _
    split_ifs at outcome
    · cases outcome
      exact absurd valid (by decide)
    · split at outcome
      · cases outcome
        exact absurd valid (by decide)
      · rename_i number descriptors taken
        rcases Option.map_eq_some_iff.mp taken with ⟨number', first, same⟩
        cases same
        cases outcome
        have inside := List.mem_range.mp (List.mem_of_find?_eq_some first)
        refine ⟨⟨linked, directory, ⟨valid, ?_⟩, handle⟩, ?_⟩
        · exact Int.ofNat_lt.mpr inside
        · unfold cursor opened entries next Cursor.start
          dsimp only
          rw [Int.toNat_natCast, Function.update_self]
          rfl

end Runs

/-- A run in which a program opens a directory, reads it and deletes entries that it was given,
until the end is reported: every entry that was there when the directory was opened was returned
exactly once, if and only if nothing was deleted while there were entries before the handle. -/
theorem read_once_iff {s s' : Session} {context : CallContext} {path : PathArg} {dir : Nat}
    {dh : Int} {events : List DirEvent} {l : DirReader} (linked : s.storage.fs.Linked)
    (opens : s.sysOpendir context path = some (dh, s')) (valid : 0 < dh)
    (handle : s'.descriptors.dhTable dh.toNat = some dir)
    (directory : IsDirectory s.storage.fs dir)
    (ran : (opened s').run dir dh events = some l) (ended : l.ended = true) :
    (∀ entry ∈ s.storage.fs.childrenOf dir, l.returned.count entry = 1) ↔
      (opened s').AlwaysWaits dir dh events := by
  rcases sysOpendir_open linked opens valid handle directory with ⟨isOpen, start⟩
  rcases isOpen.run_cursor ran with ⟨steps, reached, waits⟩
  rw [start] at reached waits
  have atEnd : (Machine.after Cursor.step (Cursor.start (s.storage.fs.childrenOf dir))
      steps).ended = true := by
    rw [← reached]
    exact ended
  have once := Cursor.returned_once_iff (linked.distinct dir) steps atEnd
  rw [← reached, waits] at once
  exact once

/-! ## A directory with two files -/

def etcPath : PathArg := .of (literal "/etc")

def hostnamePath : PathArg := .of (literal "/etc/hostname")

/-- The root user opens the directory after boot, and some events follow: the handle and its node,
the callbacks and the children of the directory, and what was returned. -/
def etcListed (events : List DirEvent) : Option (Storage × Session × DirReader) :=
  (boot .ideal noDisk).bind fun storage =>
    ((Session.start storage).sysOpendir Session.rootContext etcPath).bind fun handle =>
      if handle.1 = 1 ∧ handle.2.descriptors.dhTable 1 = some 2 ∧
          (storage.fs.node 2).any (fun node => node.type = vfsDirectory && node.ops ≠ .fatFile) ∧
          storage.fs.childrenOf 2 = [11, 12] then
        ((opened handle.2).run 2 1 events).map fun l => (storage, handle.2, l)
      else none

theorem etcListed_run {events : List DirEvent} {storage : Storage} {s' : Session} {l : DirReader}
    (listed : etcListed events = some (storage, s', l)) : storage.fs.Linked ∧
      (Session.start storage).sysOpendir Session.rootContext etcPath = some (1, s') ∧
      s'.descriptors.dhTable 1 = some 2 ∧ IsDirectory storage.fs 2 ∧
      storage.fs.childrenOf 2 = [11, 12] ∧ (opened s').run 2 1 events = some l := by
  rcases Option.bind_eq_some_iff.mp listed with ⟨storage', booted, opens⟩
  rcases Option.bind_eq_some_iff.mp opens with ⟨⟨dh, session⟩, handle, outcome⟩
  split_ifs at outcome with facts
  rcases Option.map_eq_some_iff.mp outcome with ⟨l', ran, same⟩
  cases same
  rcases facts with ⟨number, table, shape, children⟩
  dsimp only at number
  rw [number] at handle
  rcases (Option.any_eq_true _ _).mp shape with ⟨node, live, both⟩
  rw [Bool.and_eq_true, decide_eq_true_eq, decide_eq_true_eq] at both
  refine ⟨boot_linked booted, handle, table, ⟨⟨node, live, both⟩, ?_⟩, children, ran⟩
  rw [children]
  decide

theorem etc_read_whole :
    (etcListed [.read Session.rootContext, .read Session.rootContext,
      .unlink Session.rootContext hostnamePath, .read Session.rootContext]).map (fun listed =>
        (listed.2.2.returned, listed.2.2.ended)) = some ([11, 12], true) := by
  rw [etcListed, boot_ideal]
  decide +kernel

theorem read_once_iff_etc :
    ∃ (s s' : Session) (l : DirReader),
      (opened s').run 2 1 [.read Session.rootContext, .read Session.rootContext,
        .unlink Session.rootContext hostnamePath, .read Session.rootContext] = some l ∧
      (opened s').AlwaysWaits 2 1 [.read Session.rootContext, .read Session.rootContext,
        .unlink Session.rootContext hostnamePath, .read Session.rootContext] ∧
      s.storage.fs.childrenOf 2 = [11, 12] := by
  rcases Option.map_eq_some_iff.mp etc_read_whole with ⟨⟨storage, s', l⟩, listed, facts⟩
  rcases etcListed_run listed with ⟨linked, opens, handle, directory, children, ran⟩
  rcases Prod.mk.inj facts with ⟨returned, ended⟩
  have once := read_once_iff linked opens (by decide) handle directory ran ended
  refine ⟨Session.start storage, s', l, ran, once.mp fun entry listed => ?_, children⟩
  have known : entry ∈ storage.fs.childrenOf 2 := listed
  rw [children] at known
  dsimp only at returned
  rw [returned]
  rcases List.mem_cons.mp known with rfl | known
  · decide
  · rw [List.mem_singleton.mp known]
    decide

theorem etc_read_deleting :
    (etcListed [.read Session.rootContext, .unlink Session.rootContext hostnamePath,
      .read Session.rootContext]).map (fun listed =>
        (listed.2.2.returned, listed.2.2.ended)) = some ([11], true) := by
  rw [etcListed, boot_ideal]
  decide +kernel

/-- The first entry is deleted when it was returned, and the second is never returned. -/
theorem deletion_skips_entry :
    ¬∀ (s s' : Session) (context : CallContext) (path : PathArg) (dir : Nat) (dh : Int)
      (events : List DirEvent) (l : DirReader), s.storage.fs.Linked →
        s.sysOpendir context path = some (dh, s') → 0 < dh →
        s'.descriptors.dhTable dh.toNat = some dir → IsDirectory s.storage.fs dir →
        (opened s').run dir dh events = some l → l.ended = true →
        ∀ entry ∈ s.storage.fs.childrenOf dir, l.returned.count entry = 1 := by
  intro always
  rcases Option.map_eq_some_iff.mp etc_read_deleting with ⟨⟨storage, s', l⟩, listed, facts⟩
  rcases etcListed_run listed with ⟨linked, opens, handle, directory, children, ran⟩
  rcases Prod.mk.inj facts with ⟨returned, ended⟩
  have once := always _ s' _ _ 2 1 _ l linked opens (by decide) handle directory ran ended 12
  have member : 12 ∈ storage.fs.childrenOf 2 := by
    rw [children]
    decide
  have one := once member
  dsimp only at returned
  rw [returned] at one
  exact absurd one (by decide)

end DirReader

end Trinux
