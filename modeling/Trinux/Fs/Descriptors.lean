import Trinux.Fs.Pipe

namespace Trinux

/-!
# Descriptors

Files, directory handles and pipes have one table each for the whole system.  A file
descriptor records the process that opened it.  A directory handle and a pipe record nobody.
When a process exits, `fd_cleanup_process` frees the file descriptors of that process and
closes every pipe there is.

Who holds a directory handle or an end of a pipe is not part of the state of the kernel.
It is given here by a description of the holders, against which the cleanup is judged.
-/

def fdMax : Nat := 64

def dhMax : Nat := 32

structure Kfd where
  node : Option Nat
  pos : UInt32
  flags : UInt32
  used : Bool
  ownerPid : UInt32

def Kfd.zero : Kfd := ⟨none, 0, 0, false, 0⟩

structure Descriptors where
  kfds : Nat → Kfd
  dhTable : Nat → Option Nat
  dhIdx : Nat → UInt32
  pipes : PipeTable

namespace Descriptors

def init : Descriptors := ⟨fun _ => Kfd.zero, fun _ => none, fun _ => 0, PipeTable.init⟩

def allocFd (d : Descriptors) : Option Nat :=
  (List.range fdMax).find? fun fd => 3 ≤ fd && !(d.kfds fd).used

def openFile (node : Nat) (pos flags pid : UInt32) (d : Descriptors) :
    Option (Nat × Descriptors) :=
  d.allocFd.map fun fd =>
    (fd, { d with kfds := Function.update d.kfds fd ⟨some node, pos, flags, true, pid⟩ })

def closeFile (fd : Int) (d : Descriptors) : Descriptors :=
  if d.pipes.isPipe fd then { d with pipes := d.pipes.close fd }
  else if 3 ≤ fd ∧ fd < fdMax then
    { d with kfds := Function.update d.kfds fd.toNat { d.kfds fd.toNat with used := false } }
  else d

def openDir (node : Nat) (d : Descriptors) : Option (Nat × Descriptors) :=
  ((List.range dhMax).find? fun dh => 1 ≤ dh && (d.dhTable dh).isNone).map fun dh =>
    (dh, { d with
      dhTable := Function.update d.dhTable dh (some node)
      dhIdx := Function.update d.dhIdx dh 0 })

def closeDir (dh : Int) (d : Descriptors) : Descriptors :=
  if 0 < dh ∧ dh < dhMax then
    { d with
      dhTable := Function.update d.dhTable dh.toNat none
      dhIdx := Function.update d.dhIdx dh.toNat 0 }
  else d

def cleanKfd (pid : UInt32) (fd : Nat) (kfd : Kfd) : Kfd :=
  if 3 ≤ fd ∧ fd < fdMax ∧ kfd.used = true ∧ kfd.ownerPid = pid then
    { kfd with used := false, node := none, ownerPid := 0 }
  else kfd

def closePipes (pipes : PipeTable) (count : Nat) : PipeTable :=
  (List.range count).foldl
    (fun t (k : Nat) => if t.isPipe (100 + (k : Int)) then t.close (100 + (k : Int)) else t) pipes

def fdCleanupProcess (pid : UInt32) (d : Descriptors) : Descriptors :=
  { d with
    kfds := fun fd => cleanKfd pid fd (d.kfds fd)
    pipes := closePipes d.pipes 32 }

end Descriptors

/-! ## Every pipe is closed -/

namespace PipeTable

variable {t : PipeTable}

theorem fdToSlot_read (slot : Nat) : fdToSlot (100 + (2 * slot : Nat)) = some slot := by
  rw [fdToSlot, if_neg (by rw [pipeFdBase]; omega)]
  simp only [pipeFdBase, pipeFdStride, Option.some_inj]
  omega

theorem fdToSlot_write (slot : Nat) : fdToSlot (100 + (2 * slot + 1 : Nat)) = some slot := by
  rw [fdToSlot, if_neg (by rw [pipeFdBase]; omega)]
  simp only [pipeFdBase, pipeFdStride, Option.some_inj]
  omega

def closeIfOpen (t : PipeTable) (fd : Int) : PipeTable := if t.isPipe fd then t.close fd else t

theorem closeIfOpen_sound (sound : t.Sound) (fd : Int) : (t.closeIfOpen fd).Sound := by
  rw [closeIfOpen]
  split
  · exact close_sound sound fd
  · exact sound

theorem closeIfOpen_frame (t : PipeTable) {fd : Int} {slot other : Nat}
    (here : fdToSlot fd = some slot) (different : other ≠ slot) :
    (t.closeIfOpen fd).inUse other = t.inUse other := by
  rw [closeIfOpen]
  split
  · exact (t.close_frame here different).1
  · rfl

theorem isPipe_eq (t : PipeTable) {fd : Int} {slot : Nat} (here : fdToSlot fd = some slot)
    (inside : slot < pipeMaxOpen) : t.isPipe fd = t.inUse slot := by
  rw [isPipe, here]
  simp only [inside, decide_true, Bool.true_and]

/-- The two descriptors of a slot close its pipe, whichever end was closed before. -/
theorem closeIfOpen_pair (sound : t.Sound) {first second : Int} {slot : Nat}
    (isFirst : fdToSlot first = some slot) (isSecond : fdToSlot second = some slot)
    (inside : slot < pipeMaxOpen) : ((t.closeIfOpen first).closeIfOpen second).inUse slot = false := by
  have freed : ∀ {s : PipeTable} {fd : Int}, fdToSlot fd = some slot →
      (s.inUse slot = true → (s.pipes slot).refcount ≤ 1) →
      (s.closeIfOpen fd).inUse slot = false := by
    intro s fd here last
    rw [closeIfOpen, s.isPipe_eq here inside]
    cases used : s.inUse slot with
    | false => exact used
    | true => exact (s.close_refcount here used).1 (last used)
  apply freed isSecond
  intro still
  rw [closeIfOpen, t.isPipe_eq isFirst inside] at still ⊢
  cases used : t.inUse slot with
  | false =>
      rw [used] at still
      exact absurd (used.symm.trans still) Bool.false_ne_true
  | true =>
      rw [used, if_pos rfl] at still
      rw [if_pos rfl]
      have counts := (sound slot used).count
      by_cases last : (t.pipes slot).refcount ≤ 1
      · rw [(t.close_refcount isFirst used).1 last] at still
        exact absurd still Bool.false_ne_true
      · rw [((t.close_refcount isFirst used).2 (not_le.mp last)).2]
        omega

end PipeTable

namespace Descriptors

open PipeTable

theorem closePipes_succ (pipes : PipeTable) (slots : Nat) :
    closePipes pipes (2 * (slots + 1)) =
      ((closePipes pipes (2 * slots)).closeIfOpen (100 + (2 * slots : Nat))).closeIfOpen
        (100 + (2 * slots + 1 : Nat)) := by
  rw [show 2 * (slots + 1) = 2 * slots + 1 + 1 by ring, closePipes, List.range_succ,
    List.range_succ, List.foldl_append, List.foldl_append]
  rfl

/-- After both descriptors of some slots, these slots are free and the others as before. -/
theorem closePipes_spec {pipes : PipeTable} (sound : pipes.Sound) {slots : Nat}
    (inside : slots ≤ pipeMaxOpen) :
    (closePipes pipes (2 * slots)).Sound ∧
      ∀ slot < slots, (closePipes pipes (2 * slots)).inUse slot = false := by
  induction slots with
  | zero => exact ⟨sound, fun slot below => absurd below (Nat.not_lt_zero slot)⟩
  | succ slots known =>
      have earlier := known (Nat.le_of_succ_le inside)
      rw [closePipes_succ]
      refine ⟨closeIfOpen_sound (closeIfOpen_sound earlier.1 _) _, fun slot below => ?_⟩
      by_cases here : slot = slots
      · rw [here]
        exact closeIfOpen_pair earlier.1 (fdToSlot_read slots) (fdToSlot_write slots) inside
      · rw [closeIfOpen_frame _ (fdToSlot_write slots) here,
          closeIfOpen_frame _ (fdToSlot_read slots) here]
        exact earlier.2 slot (lt_of_le_of_ne (Nat.lt_succ_iff.mp below) here)

theorem fdCleanupProcess_ends {d : Descriptors} (sound : d.pipes.Sound) (pid : UInt32) (slot : Nat)
    (side : PipeEnd) : ¬(fdCleanupProcess pid d).pipes.EndOpen slot side := by
  rintro ⟨inside, used, -⟩
  have freed := (closePipes_spec sound (le_refl pipeMaxOpen)).2 slot inside
  exact absurd (freed.symm.trans used) Bool.false_ne_true

/-! ## Releasing what a process owns -/

structure Holders where
  handle : Nat → UInt32
  pipeEnd : Nat → PipeEnd → UInt32 → Prop

/-- An end of a pipe that outlives a process: the process does not hold it, or another one does. -/
def Holders.Outlives (holders : Holders) (pid : UInt32) (slot : Nat) (side : PipeEnd) : Prop :=
  ¬holders.pipeEnd slot side pid ∨ ∃ other, other ≠ pid ∧ holders.pipeEnd slot side other

/-- The end of a process releases exactly the descriptors that it owns, and leaves the contents
and positions of all others alone. -/
structure ReleasesExactly (holders : Holders) (pid : UInt32) (d d' : Descriptors) : Prop where
  ownFile : ∀ fd, 3 ≤ fd → fd < fdMax → (d.kfds fd).used = true → (d.kfds fd).ownerPid = pid →
    (d'.kfds fd).used = false
  otherFile : ∀ fd, 3 ≤ fd → fd < fdMax → (d.kfds fd).used = true → (d.kfds fd).ownerPid ≠ pid →
    d'.kfds fd = d.kfds fd
  ownHandle : ∀ dh, 1 ≤ dh → dh < dhMax → d.dhTable dh ≠ none → holders.handle dh = pid →
    d'.dhTable dh = none
  otherHandle : ∀ dh, 1 ≤ dh → dh < dhMax → d.dhTable dh ≠ none → holders.handle dh ≠ pid →
    d'.dhTable dh = d.dhTable dh ∧ d'.dhIdx dh = d.dhIdx dh
  ownEnd : ∀ slot side, d.pipes.EndOpen slot side → ¬holders.Outlives pid slot side →
    ¬d'.pipes.EndOpen slot side
  otherEnd : ∀ slot side, d.pipes.EndOpen slot side → holders.Outlives pid slot side →
    d'.pipes.EndOpen slot side ∧ (d'.pipes.pipes slot).buf = (d.pipes.pipes slot).buf ∧
      (d'.pipes.pipes slot).head = (d.pipes.pipes slot).head ∧
      (d'.pipes.pipes slot).tail = (d.pipes.pipes slot).tail ∧
      (d'.pipes.pipes slot).used = (d.pipes.pipes slot).used

/-- The exit of a process releases exactly what it owns if it holds no directory handle and nobody
else holds an end of an open pipe. -/
theorem fdCleanupProcess_releasesExactly_iff {d : Descriptors} (sound : d.pipes.Sound)
    (holders : Holders) (pid : UInt32) :
    ReleasesExactly holders pid d (fdCleanupProcess pid d) ↔
      (∀ dh, 1 ≤ dh → dh < dhMax → d.dhTable dh ≠ none → holders.handle dh ≠ pid) ∧
        ∀ slot side, d.pipes.EndOpen slot side → ¬holders.Outlives pid slot side := by
  constructor
  · intro releases
    constructor
    · intro dh low high isOpen own
      exact isOpen (releases.ownHandle dh low high isOpen own)
    · intro slot side isOpen outlives
      exact fdCleanupProcess_ends sound pid slot side (releases.otherEnd slot side isOpen outlives).1
  · rintro ⟨noHandle, noOther⟩
    refine ⟨?_, ?_, ?_, ?_, ?_, ?_⟩
    · intro fd low high used own
      have cleaned : (fdCleanupProcess pid d).kfds fd = _ := if_pos ⟨low, high, used, own⟩
      rw [cleaned]
    · intro fd low high used foreign
      exact if_neg fun own => foreign own.2.2.2
    · intro dh low high isOpen own
      exact absurd own (noHandle dh low high isOpen)
    · intro dh low high isOpen foreign
      exact ⟨rfl, rfl⟩
    · intro slot side isOpen own
      exact fdCleanupProcess_ends sound pid slot side
    · intro slot side isOpen outlives
      exact absurd outlives (noOther slot side isOpen)

/-! ## Two processes -/

/-- The process with the number five ends, and a pipe of the process with the number six loses both
its ends. -/
theorem exit_closes_foreign_pipe :
    ∃ (d : Descriptors) (holders : Holders), d.pipes.Sound ∧
      (∀ slot side pid, holders.pipeEnd slot side pid → pid = 6) ∧
      d.pipes.EndOpen 0 .read ∧ holders.pipeEnd 0 .read 6 ∧
      ¬(fdCleanupProcess 5 d).pipes.EndOpen 0 .read ∧
      ¬ReleasesExactly holders 5 d (fdCleanupProcess 5 d) := by
  have created : ∃ fds t, PipeTable.init.create = some (fds, t) ∧ t.EndOpen 0 .read :=
    ⟨_, _, rfl, by decide, by decide, by decide⟩
  rcases created with ⟨fds, t, made, isOpen⟩
  have sound : t.Sound := create_sound init_sound made
  refine ⟨{ init with pipes := t }, ⟨fun _ => 0, fun slot _ pid => slot = 0 ∧ pid = 6⟩, sound,
    fun slot side pid held => held.2, isOpen, ⟨rfl, rfl⟩, fdCleanupProcess_ends sound 5 0 .read,
    fun releases => ?_⟩
  have outlives := releases.otherEnd 0 .read isOpen (Or.inl fun held => absurd held.2 (by decide))
  exact fdCleanupProcess_ends sound 5 0 .read outlives.1

/-- The process with the number five ends.  It has a file and a pipe, and the process with the
number six has a file and a directory. -/
theorem fdCleanupProcess_releasesExactly_two :
    ∃ d : Descriptors, (d.kfds 3).used = true ∧ (d.kfds 3).ownerPid = 5 ∧
      (d.kfds 4).used = true ∧ (d.kfds 4).ownerPid = 6 ∧ d.dhTable 1 ≠ none ∧
      d.pipes.EndOpen 0 .read ∧ d.pipes.EndOpen 0 .write ∧
      ReleasesExactly ⟨fun _ => 6, fun _ _ pid => pid = 5⟩ 5 d (fdCleanupProcess 5 d) := by
  have created : ∃ fds t, PipeTable.init.create = some (fds, t) ∧ t.EndOpen 0 .read ∧
      t.EndOpen 0 .write :=
    ⟨_, _, rfl, ⟨by decide, by decide, by decide⟩, by decide, by decide, by decide⟩
  rcases created with ⟨fds, t, made, reads, writes⟩
  have sound : t.Sound := PipeTable.create_sound PipeTable.init_sound made
  have opened : ∃ file d₁ other d₂ dir d₃, openFile 12 0 0 5 { init with pipes := t } = some (file, d₁) ∧
      openFile 13 0 0 6 d₁ = some (other, d₂) ∧ openDir 2 d₂ = some (dir, d₃) ∧ d₃.pipes = t ∧
      (d₃.kfds 3).used = true ∧ (d₃.kfds 3).ownerPid = 5 ∧ (d₃.kfds 4).used = true ∧
      (d₃.kfds 4).ownerPid = 6 ∧ d₃.dhTable 1 ≠ none :=
    ⟨_, _, _, _, _, _, rfl, rfl, rfl, rfl, rfl, rfl, rfl, rfl, Option.some_ne_none 2⟩
  rcases opened with ⟨_, _, _, _, _, d, -, -, -, rfl, used, own, used', other, listed⟩
  refine ⟨d, used, own, used', other, listed, reads, writes, ?_⟩
  rw [fdCleanupProcess_releasesExactly_iff sound]
  constructor
  · intro dh _ _ _
    exact show (6 : UInt32) ≠ 5 by decide
  · rintro slot side - (foreign | ⟨pid, differs, holds⟩)
    · exact foreign rfl
    · exact differs holds

end Descriptors

end Trinux
