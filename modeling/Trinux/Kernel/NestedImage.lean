import Trinux.Kernel.ExecveFailure

namespace Trinux

/-!
# The image of a program that starts another one

All programs share one range of addresses.  A program that starts another one finds in its memory
what the other one left there, except in a window that `elf_exec_argv` saves in a block of the
kernel heap and restores, if `kmalloc` gave the block.

The bytes of the program that started the other one may be any set of addresses.  What the other
program does until it returns, and the programs that it starts, is a sequence of stores.
-/

def padreSaveBase : UInt32 := 0x08048000

def padreSaveSize : UInt32 := 0x000B8000

/-- A call of `elf_exec_argv`: the depth of nesting, what `kmalloc` returns for the window, for the
arguments and for the file, whether `process_create` succeeds, the page directory of the process,
the file, the arguments, and the stores of the program. -/
structure ExecCall where
  nest : Nat
  backup : Option UInt32
  argBlock : Option UInt32
  fileBlock : Option UInt32
  created : Bool
  pageDir : UInt32
  file : Option ElfFile
  argv : List (List UInt8)
  stores : List (UInt32 × UInt8)

namespace ExecCall

def saved (c : ExecCall) : Option UInt32 := if 1 ≤ c.nest then c.backup else none

def afterSave (c : ExecCall) (m : Memory) : Memory :=
  match c.saved with
  | none => m
  | some block => m.memcpy block padreSaveBase padreSaveSize.toNat

def argCopy (c : ExecCall) : Option UInt32 :=
  if 1 ≤ c.nest ∧ c.argv ≠ [] then c.argBlock else none

def afterArgs (c : ExecCall) (m : Memory) : Memory :=
  match c.argCopy with
  | none => c.afterSave m
  | some blob => storeArgs (c.afterSave m) blob c.argv

def load (c : ExecCall) (m : Memory) : Option Int × ElfLoad :=
  elfExecArgvInner c.file c.fileBlock c.pageDir (c.afterArgs m)

def afterStack (c : ExecCall) (m : Memory) : Memory :=
  (userStack (c.load m).2.memory (userStackTop (c.nest + 1)) c.argv).1

def Started (c : ExecCall) (m : Memory) : Prop := c.created = true ∧ (c.load m).1 = none

instance (c : ExecCall) (m : Memory) : Decidable (c.Started m) :=
  inferInstanceAs (Decidable (_ ∧ _))

def runStores (m : Memory) (stores : List (UInt32 × UInt8)) : Memory :=
  stores.foldl (fun m store => Function.update m store.1 store.2) m

def afterRun (c : ExecCall) (m : Memory) : Memory :=
  if c.created = false then c.afterArgs m
  else if (c.load m).1 ≠ none then (c.load m).2.memory
  else runStores (c.afterStack m) c.stores

def elfExecArgv (c : ExecCall) (m : Memory) : Memory :=
  match c.saved with
  | none => c.afterRun m
  | some block => (c.afterRun m).memcpy padreSaveBase block padreSaveSize.toNat

/-- What is promised of a call to the program that made it, given its bytes: they are what they were
before, and the other program is started only if the window could be saved. -/
def Preserves (c : ExecCall) (m : Memory) (parent : UInt32 → Prop) : Prop :=
  (∀ a, parent a → c.elfExecArgv m a = m a) ∧ (c.Started m → 1 ≤ c.nest → c.saved ≠ none)

/-! ## What a call writes -/

def argWritten (c : ExecCall) : List UInt32 :=
  match c.argCopy with
  | none => []
  | some blob =>
      addressesFrom blob (4 * (c.argv.length + 1)) ++
        addressesFrom (blob + 4 * UInt32.ofNat (c.argv.length + 1))
          (c.argv.map fun s => s ++ [0]).flatten.length

def fileWritten (c : ExecCall) : List UInt32 :=
  match c.file, c.fileBlock with
  | some file, some block => addressesFrom block file.size.toNat
  | _, _ => []

/-- The addresses that pushing strings writes to, and where the last string pushed is. -/
def pushWritten (strTop : UInt32) : List (List UInt8) → List UInt32 × UInt32
  | [] => ([], strTop)
  | s :: rest =>
      let (written, strTop) := pushWritten strTop rest
      let top := strTop - UInt32.ofNat (s.length + 1)
      (addressesFrom top (s.length + 1) ++ written, top)

def stackWritten (top : UInt32) (argv : List (List UInt8)) : List UInt32 :=
  let args := argv.take 32
  let (strings, strTop) := pushWritten (top - 16) args
  let arr := (strTop &&& ~~~0x3) - 4 * UInt32.ofNat (args.length + 1)
  addressesFrom (top - userStackSize) userStackSize.toNat ++ addressesFrom (top - 16 - 12) 12 ++
    if argv = [] then []
    else strings ++ addressesFrom arr (4 * (args.length + 1)) ++ addressesFrom (arr - 12) 12

/-- The addresses that are written to between saving the window and restoring it. -/
def Writes (c : ExecCall) (m : Memory) (a : UInt32) : Prop :=
  a ∈ c.argWritten ∨
    c.created = true ∧ (a ∈ c.fileWritten ∨ ∃ p ∈ (c.load m).2.placed, a ∈ p.written) ∨
    c.Started m ∧ (a ∈ stackWritten (userStackTop (c.nest + 1)) c.argv ∨
      a ∈ c.stores.map Prod.fst)

def InWindow (a : UInt32) : Prop := a ∈ addressesFrom padreSaveBase padreSaveSize.toNat

/-- A call that does not meet the defects.  The window is saved if the program is started, in a block
that is no part of the window or of the caller, and what is written then lies neither in that block
nor in the bytes of the caller outside the window. -/
structure Spares (c : ExecCall) (m : Memory) (parent : UInt32 → Prop) : Prop where
  saves : c.Started m → 1 ≤ c.nest → c.saved ≠ none
  apart : ∀ block, c.saved = some block → ∀ a ∈ addressesFrom block padreSaveSize.toNat,
    ¬InWindow a ∧ ¬parent a ∧ ¬c.Writes m a
  outside : ∀ a, parent a → (c.saved = none ∨ ¬InWindow a) → ¬c.Writes m a

end ExecCall

/-! ## Copies -/

theorem add_ofNat_ne (dest : UInt32) {k n : Nat} (small : n < 2 ^ 32) (before : k < n) :
    dest + UInt32.ofNat k ≠ dest + UInt32.ofNat n := by
  intro same
  have offsets := congrArg UInt32.toNat (add_left_cancel same)
  rw [UInt32.toNat_ofNat_of_lt' small, UInt32.toNat_ofNat_of_lt' (before.trans small)] at offsets
  omega

theorem Memory.memcpy_inside (m : Memory) {dest src : UInt32} {n k : Nat} (small : n ≤ 2 ^ 32)
    (apart : ∀ a ∈ addressesFrom src n, a ∉ addressesFrom dest n) (inside : k < n) :
    m.memcpy dest src n (dest + UInt32.ofNat k) = m (src + UInt32.ofNat k) := by
  induction n with
  | zero => exact absurd inside (Nat.not_lt_zero k)
  | succ n known =>
      have apart' : ∀ a ∈ addressesFrom src n, a ∉ addressesFrom dest n := by
        intro a member impossible
        exact apart a (by rw [addressesFrom_succ]; exact List.mem_append_left _ member)
          (by rw [addressesFrom_succ]; exact List.mem_append_left _ impossible)
      rw [memcpy]
      rcases Nat.lt_succ_iff_lt_or_eq.mp inside with before | rfl
      · rw [Function.update_of_ne (add_ofNat_ne dest small before)]
        exact known (by omega) apart' before
      · rw [Function.update_self]
        refine memcpy_outside m dest src fun member => ?_
        refine apart (src + UInt32.ofNat k) ?_ ?_
        · rw [addressesFrom_succ]
          exact List.mem_append_right _ (List.mem_singleton_self _)
        · rw [addressesFrom_succ]
          exact List.mem_append_left _ member

/-! ## What the parts of a call leave alone -/

theorem mem_addressesFrom_add {start a : UInt32} {n k : Nat}
    (member : a ∈ addressesFrom (start + UInt32.ofNat k) n) : a ∈ addressesFrom start (k + n) := by
  rcases mem_addressesFrom.mp member with ⟨i, inside, rfl⟩
  refine mem_addressesFrom.mpr ⟨k + i, by omega, ?_⟩
  rw [add_assoc, UInt32.ofNat_add]

theorem mem_addressesFrom_mono {start a : UInt32} {n k : Nat} (short : n ≤ k)
    (member : a ∈ addressesFrom start n) : a ∈ addressesFrom start k := by
  rcases mem_addressesFrom.mp member with ⟨i, inside, rfl⟩
  exact mem_addressesFrom.mpr ⟨i, inside.trans_le short, rfl⟩

/-- Where the addresses from a first one on lie, if they do not wrap. -/
theorem bounds_of_mem_addressesFrom {start a : UInt32} {n : Nat} (fits : start.toNat + n ≤ 2 ^ 32)
    (member : a ∈ addressesFrom start n) :
    start.toNat ≤ a.toNat ∧ a.toNat < start.toNat + n := by
  rcases mem_addressesFrom.mp member with ⟨k, inside, rfl⟩
  rw [UInt32.toNat_add, UInt32.toNat_ofNat', Nat.mod_eq_of_lt (show k < 2 ^ 32 by omega),
    Nat.mod_eq_of_lt (by omega)]
  omega

theorem storePointers_outside (ptrs : List UInt32) (m : Memory) (start : UInt32) {a : UInt32}
    (outside : a ∉ addressesFrom start (4 * ptrs.length)) : storePointers m start ptrs a = m a := by
  induction ptrs generalizing m start with
  | nil => rfl
  | cons ptr rest known =>
      rw [storePointers, known]
      · refine ExecState.store_outside _ _ _ fun member => outside ?_
        refine mem_addressesFrom_mono ?_ member
        rw [List.length_cons]
        exact Nat.le_mul_of_pos_right 4 (Nat.succ_pos _)
      · intro member
        refine outside ?_
        have moved : a ∈ addressesFrom start (4 + 4 * rest.length) := mem_addressesFrom_add member
        refine mem_addressesFrom_mono ?_ moved
        rw [List.length_cons]
        omega

def argAddresses (blob : UInt32) (argv : List (List UInt8)) : List UInt32 :=
  addressesFrom blob (4 * (argv.length + 1)) ++
    addressesFrom (blob + 4 * UInt32.ofNat (argv.length + 1))
      (argv.map fun s => s ++ [0]).flatten.length

theorem length_argPointers (start : UInt32) (argv : List (List UInt8)) :
    (argPointers start argv).length = argv.length := by
  induction argv generalizing start with
  | nil => rfl
  | cons s rest known => rw [argPointers, List.length_cons, known, List.length_cons]

theorem storeArgs_outside (m : Memory) {blob a : UInt32} {argv : List (List UInt8)}
    (outside : a ∉ argAddresses blob argv) : storeArgs m blob argv a = m a := by
  rw [argAddresses, List.mem_append, not_or] at outside
  unfold storeArgs
  rw [ExecState.store_outside _ _ _ outside.2, storePointers_outside _ _ _ (by
    rw [List.length_append, length_argPointers, List.length_singleton]
    exact outside.1)]

theorem pushStrings_spec (argv : List (List UInt8)) (m : Memory) (strTop : UInt32) :
    (pushStrings m strTop argv).2.1 = (ExecCall.pushWritten strTop argv).2 ∧
      (pushStrings m strTop argv).2.2.length = argv.length ∧
      ∀ a, a ∉ (ExecCall.pushWritten strTop argv).1 → (pushStrings m strTop argv).1 a = m a := by
  induction argv with
  | nil => exact ⟨rfl, rfl, fun _ _ => rfl⟩
  | cons s rest known =>
      rw [pushStrings, ExecCall.pushWritten]
      refine ⟨?_, ?_, fun a outside => ?_⟩
      · dsimp only
        rw [known.1]
      · dsimp only
        rw [List.length_cons, known.2.1, List.length_cons]
      · dsimp only at outside ⊢
        rw [List.mem_append, not_or] at outside
        rw [known.1]
        rw [ExecState.store_outside _ _ _ (by
          rw [List.length_append, List.length_singleton]; exact outside.1)]
        exact known.2.2 a outside.2

theorem userStack_outside (m : Memory) (top : UInt32) (argv : List (List UInt8)) {a : UInt32}
    (outside : a ∉ ExecCall.stackWritten top argv) : (userStack m top argv).1 a = m a := by
  unfold ExecCall.stackWritten at outside
  dsimp only at outside
  rw [List.mem_append, List.mem_append, not_or, not_or] at outside
  rcases outside with ⟨⟨notCleared, notEmpty⟩, notArgs⟩
  have bottom : ∀ m : Memory, storePointers (m.memset (top - userStackSize) 0 userStackSize.toNat)
      (top - 16 - 12) [0, 0, 0] a = m a := by
    intro m
    rw [storePointers_outside [0, 0, 0] _ _ notEmpty, Memory.memset_outside _ _ _ notCleared]
  unfold userStack
  dsimp only
  by_cases noArgs : argv = []
  · rw [if_pos noArgs]
    exact bottom m
  · rw [if_neg noArgs] at notArgs ⊢
    rw [List.mem_append, List.mem_append, not_or, not_or] at notArgs
    have pushed := pushStrings_spec (argv.take 32)
      (storePointers (m.memset (top - userStackSize) 0 userStackSize.toNat) (top - 16 - 12) [0, 0, 0])
      (top - 16)
    dsimp only
    rw [pushed.1, storePointers_outside _ _ _ notArgs.2, storePointers_outside _ _ _ (by
        rw [List.length_append, pushed.2.1, List.length_singleton]
        exact notArgs.1.2), pushed.2.2 a notArgs.1.1]
    exact bottom m

namespace ExecCall

theorem runStores_outside (stores : List (UInt32 × UInt8)) (m : Memory) {a : UInt32}
    (outside : a ∉ stores.map Prod.fst) : runStores m stores a = m a := by
  induction stores generalizing m with
  | nil => rfl
  | cons store rest known =>
      rw [List.map_cons, List.mem_cons, not_or] at outside
      exact (known _ outside.2).trans (Function.update_of_ne outside.1 _ _)

/-- The loop over the segments changes the bytes of those that it places only. -/
theorem segmentLoop_outside (l : ElfLoad) (refuses copies : Elf32Phdr → Bool) (buf pageDir : UInt32)
    (fuel i : Nat) {a : UInt32}
    (outside : ∀ p ∈ (l.segmentLoop refuses copies buf pageDir fuel i).2.placed, a ∉ p.written) :
    (l.segmentLoop refuses copies buf pageDir fuel i).2.memory a = l.memory a := by
  induction fuel generalizing l i with
  | zero => rfl
  | succ fuel known =>
      rw [ElfLoad.segmentLoop] at outside ⊢
      dsimp only at outside ⊢
      split at outside
      · rename_i inside
        rw [if_pos inside]
        split at outside
        · rename_i other
          rw [if_pos other]
          exact known l (i + 1) outside
        · rename_i load
          rw [if_neg load]
          split at outside
          · rename_i refused
            rw [if_pos refused]
          · rename_i accepted
            rw [if_neg accepted]
            rw [known _ (i + 1) outside]
            refine l.place_outside buf pageDir (outside _ ?_)
            rcases ElfLoad.segmentLoop_placed (l.place buf pageDir ⟨_, copies _⟩) refuses copies buf
              pageDir fuel (i + 1) with ⟨more, placed⟩
            rw [placed]
            exact List.mem_append_left _ (List.mem_append_right _ (List.mem_singleton_self _))
      · rename_i behind
        rw [if_neg behind]

theorem load_outside (c : ExecCall) (m : Memory) {a : UInt32} (notFile : a ∉ c.fileWritten)
    (outside : ∀ p ∈ (c.load m).2.placed, a ∉ p.written) :
    (c.load m).2.memory a = c.afterArgs m a := by
  rw [load] at outside ⊢
  generalize c.afterArgs m = before at outside
  rw [fileWritten] at notFile
  cases found : c.file with
  | none => rfl
  | some file =>
      cases taken : c.fileBlock with
      | none =>
          unfold elfExecArgvInner
          dsimp only
          split
          · rfl
          · rfl
      | some buf =>
          rw [found, taken] at notFile outside
          have read := ExecState.read_outside file before buf notFile
          unfold elfExecArgvInner at outside ⊢
          dsimp only at outside ⊢
          split at outside
          · rename_i small
            rw [if_pos small]
            rfl
          · rename_i notSmall
            rw [if_neg notSmall]
            split at outside
            · rename_i short
              rw [if_pos short]
              exact read
            · rename_i notShort
              rw [if_neg notShort]
              split at outside
              · rename_i invalid
                rw [if_pos invalid]
                exact read
              · rename_i valid
                rw [if_neg valid]
                split at outside
                · rename_i zero
                  rw [if_pos zero]
                  exact read
                · rename_i entry
                  rw [if_neg entry]
                  exact (segmentLoop_outside _ _ _ _ _ _ _ outside).trans read

theorem afterArgs_outside (c : ExecCall) (m : Memory) {a : UInt32} (outside : a ∉ c.argWritten) :
    c.afterArgs m a = c.afterSave m a := by
  rw [afterArgs]
  cases copied : c.argCopy with
  | none => rfl
  | some blob =>
      rw [argWritten, copied] at outside
      exact storeArgs_outside _ outside

/-- What is not written between saving and restoring stays. -/
theorem afterRun_outside (c : ExecCall) (m : Memory) {a : UInt32} (untouched : ¬c.Writes m a) :
    c.afterRun m a = c.afterSave m a := by
  rw [Writes, not_or, not_or] at untouched
  rcases untouched with ⟨notArgs, notLoad, notRun⟩
  rw [afterRun]
  by_cases missing : c.created = false
  · rw [if_pos missing]
    exact c.afterArgs_outside m notArgs
  rw [if_neg missing]
  have created : c.created = true := Bool.eq_true_of_not_eq_false missing
  have loads : a ∉ c.fileWritten ∧ ∀ p ∈ (c.load m).2.placed, a ∉ p.written := by
    refine ⟨fun member => notLoad ⟨created, Or.inl member⟩, fun p placed member => ?_⟩
    exact notLoad ⟨created, Or.inr ⟨p, placed, member⟩⟩
  have loaded := (c.load_outside m loads.1 loads.2).trans (c.afterArgs_outside m notArgs)
  by_cases failed : (c.load m).1 ≠ none
  · rw [if_pos failed]
    exact loaded
  · rw [if_neg failed]
    have started : c.Started m := ⟨created, not_not.mp failed⟩
    rw [runStores_outside _ _ fun member => notRun ⟨started, Or.inr member⟩, afterStack,
      userStack_outside _ _ _ fun member => notRun ⟨started, Or.inl member⟩]
    exact loaded

/-- A program that starts another one finds its bytes again, if the window was saved and nothing
else of them was written to. -/
theorem nested_preserves (c : ExecCall) (m : Memory) (parent : UInt32 → Prop)
    (spares : c.Spares m parent) : c.Preserves m parent := by
  refine ⟨fun a own => ?_, spares.saves⟩
  have apart := spares.apart
  have outside := spares.outside a own
  rw [elfExecArgv]
  cases saved : c.saved with
  | none =>
      have same : c.afterSave m = m := by
        rw [afterSave, saved]
      dsimp only
      rw [c.afterRun_outside m (outside (Or.inl saved)), same]
  | some block =>
      have copy : c.afterSave m = m.memcpy block padreSaveBase padreSaveSize.toNat := by
        rw [afterSave, saved]
      have blockApart := apart block saved
      dsimp only
      by_cases window : InWindow a
      · rcases mem_addressesFrom.mp window with ⟨k, inside, rfl⟩
        have member : block + UInt32.ofNat k ∈ addressesFrom block padreSaveSize.toNat :=
          mem_addressesFrom.mpr ⟨k, inside, rfl⟩
        rw [Memory.memcpy_inside _ (by decide)
            (fun x inBlock inWindow => (blockApart x inBlock).1 inWindow) inside,
          c.afterRun_outside m (blockApart _ member).2.2, copy,
          Memory.memcpy_inside _ (by decide)
            (fun x inWindow inBlock => (blockApart x inBlock).1 inWindow) inside]
      · rw [Memory.memcpy_outside _ _ _ window, c.afterRun_outside m (outside (Or.inr window)), copy,
          Memory.memcpy_outside _ _ _ fun inBlock => (blockApart a inBlock).2.1 own]

def emptyProgram : ElfFile where
  executable := true
  size := 52
  content := [0x7F, 0x45, 0x4C, 0x46, 1, 1, 1, 0, 0, 0, 0, 0, 0, 0, 0, 0, 2, 0, 3, 0, 1, 0, 0, 0,
    0, 0x80, 0x04, 0x08, 52, 0, 0, 0, 0, 0, 0, 0, 0, 0, 0, 0, 52, 0, 32, 0, 0, 0, 0, 0, 0, 0, 0, 0]

def startsEmpty (stored : UInt32) : ExecCall where
  nest := 1
  backup := some 0x03000000
  argBlock := none
  fileBlock := some 0x03800000
  created := true
  pageDir := 0
  file := some emptyProgram
  argv := []
  stores := [(stored, 1)]

theorem startsEmpty_load (stored : UInt32) :
    ((startsEmpty stored).load fun _ => 0).1 = none ∧
      ((startsEmpty stored).load fun _ => 0).2.placed = [] := by
  have same : (startsEmpty stored).load (fun _ => 0) = (startsEmpty 0).load fun _ => 0 := by
    rw [load, load]
    rfl
  have loads : ((startsEmpty 0).load fun _ => 0).1.isNone = true := by decide +kernel
  have places : ((startsEmpty 0).load fun _ => 0).2.placed.isEmpty = true := by decide +kernel
  rw [same]
  exact ⟨Option.isNone_iff_eq_none.mp loads, List.isEmpty_iff.mp places⟩

theorem startsEmpty_writes {stored a : UInt32}
    (written : (startsEmpty stored).Writes (fun _ => 0) a) :
    (0x03800000 ≤ a.toNat ∧ a.toNat < 0x03800034) ∨ (0x0EDF0000 ≤ a.toNat) ∨ a = stored := by
  rcases written with args | ⟨-, file | ⟨p, placed, -⟩⟩ | ⟨-, stack | stores⟩
  · cases args
  · have inside : a ∈ addressesFrom 0x03800000 (52 : UInt32).toNat := file
    exact Or.inl (bounds_of_mem_addressesFrom (by decide) inside)
  · rw [(startsEmpty_load stored).2] at placed
    cases placed
  · unfold stackWritten at stack
    dsimp only at stack
    rw [if_pos (show (startsEmpty stored).argv = [] from rfl), List.append_nil,
      List.mem_append, show userStackTop ((startsEmpty stored).nest + 1) = 0x0EE00000 from rfl] at stack
    rcases stack with cleared | bottom
    · have bounds := bounds_of_mem_addressesFrom (by decide) cleared
      have lowest : 0x0EDF0000 ≤ ((0x0EE00000 : UInt32) - userStackSize).toNat := by decide
      exact Or.inr (Or.inl (lowest.trans bounds.1))
    · have bounds := bounds_of_mem_addressesFrom (by decide) bottom
      have lowest : 0x0EDF0000 ≤ ((0x0EE00000 : UInt32) - 16 - 12).toNat := by decide
      exact Or.inr (Or.inl (lowest.trans bounds.1))
  · exact Or.inr (Or.inr (List.mem_singleton.mp stores))

/-- It stores to the first byte of the program that started it, which finds the byte again. -/
theorem nested_preserves_startsEmpty :
    (startsEmpty 0x08048000).Preserves (fun _ => 0) (fun a => a = 0x08048000) := by
  refine nested_preserves _ _ _ ⟨fun _ _ => (by decide), ?_, ?_⟩
  · intro block saved a inBlock
    cases saved
    have bounds := bounds_of_mem_addressesFrom (by decide) inBlock
    change 0x03000000 ≤ a.toNat ∧ a.toNat < 0x03000000 + 0xB8000 at bounds
    refine ⟨fun window => ?_, fun own => ?_, fun written => ?_⟩
    · have above := (bounds_of_mem_addressesFrom (by decide) window).1
      change 0x08048000 ≤ a.toNat at above
      omega
    · rw [own] at bounds
      exact absurd bounds.2 (by decide)
    · rcases startsEmpty_writes written with file | stack | own
      · omega
      · omega
      · rw [own] at bounds
        exact absurd bounds.2 (by decide)
  · intro a own unsaved
    rcases unsaved with missing | outside
    · exact absurd missing (by decide)
    · rw [own] at outside
      exact absurd (mem_addressesFrom.mpr ⟨0, by decide, by decide⟩) outside

/-- It stores to a byte of the heap of the program that started it, which finds another byte. -/
theorem startsEmpty_loses :
    ¬(startsEmpty 0x08100000).Preserves (fun _ => 0) (fun a => a = 0x08100000) := by
  intro preserved
  have kept := preserved.1 0x08100000 rfl
  have outside : (0x08100000 : UInt32) ∉ addressesFrom padreSaveBase padreSaveSize.toNat := by
    intro window
    have below := (bounds_of_mem_addressesFrom (by decide) window).2
    exact absurd below (by decide)
  change ((startsEmpty 0x08100000).afterRun fun _ => 0).memcpy padreSaveBase 0x03000000
    padreSaveSize.toNat 0x08100000 = 0 at kept
  rw [Memory.memcpy_outside _ _ _ outside, afterRun, if_neg (by decide),
    if_neg (not_not.mpr (startsEmpty_load _).1)] at kept
  have last : ∀ m : Memory, runStores m (startsEmpty 0x08100000).stores 0x08100000 = 1 :=
    fun m => @Function.update_self UInt32 (fun _ => UInt8) _ 0x08100000 1 m
  rw [last] at kept
  exact absurd kept (by decide)

end ExecCall

end Trinux
