import Trinux.Kernel.ElfPlacement

namespace Trinux

/-!
# A call of `elf_execve` that fails

All checks and allocations come before the first change of the process, and each way out gives
back the blocks of the kernel heap that were taken until then.
-/

namespace ExecState

def InFileBlock (call : ExecveCall) (a : UInt32) : Prop :=
  ∃ file buf, call.file = some file ∧ call.bufBlock = some buf ∧
    a ∈ addressesFrom buf file.size.toNat

/-- A call has left everything as it was: the process with its pages, its segments, its heap and its
name, the blocks of the kernel heap, and every byte outside the block of the file. -/
structure Intact (s : ExecState) (call : ExecveCall) (s' : ExecState) : Prop where
  mapped : s'.mapped = s.mapped
  placed : s'.placed = s.placed
  heapStart : s'.heapStart = s.heapStart
  heapBrk : s'.heapBrk = s.heapBrk
  name : s'.name = s.name
  blocks : s'.blocks = s.blocks
  memory : ∀ a, ¬InFileBlock call a → s'.memory a = s.memory a

/-- What is promised of a call: if it returns an error, everything is as it was. -/
def FailsCleanly (s : ExecState) (call : ExecveCall) : Prop :=
  (s.elfExecve call).1.1 ≠ 0 → s.Intact call (s.elfExecve call).2

variable {s : ExecState}

/-- Bytes that come from elsewhere change only the addresses that they are for. -/
theorem store_outside (bytes : List UInt8) (m : Memory) (dest : UInt32) {a : UInt32}
    (outside : a ∉ addressesFrom dest bytes.length) : m.store dest bytes a = m a := by
  induction bytes generalizing m dest with
  | nil => rfl
  | cons byte rest known =>
      have apart : a ≠ dest := by
        rintro rfl
        exact outside (mem_addressesFrom.mpr ⟨0, Nat.zero_lt_succ _, by simp⟩)
      have later : a ∉ addressesFrom (dest + 1) rest.length := by
        intro member
        rcases mem_addressesFrom.mp member with ⟨k, inside, rfl⟩
        refine outside (mem_addressesFrom.mpr ⟨1 + k, ?_, ?_⟩)
        · rw [List.length_cons]
          omega
        · rw [add_assoc, UInt32.ofNat_add]
          rfl
      rw [Memory.store, known _ _ later, Function.update_of_ne apart]

/-- Reading a file into a block changes no byte outside the block. -/
theorem read_outside (file : ElfFile) (m : Memory) (buf : UInt32) {a : UInt32}
    (outside : a ∉ addressesFrom buf file.size.toNat) : m.store buf file.bytes a = m a := by
  refine store_outside _ _ _ fun member => outside ?_
  rcases mem_addressesFrom.mp member with ⟨k, inside, same⟩
  refine mem_addressesFrom.mpr ⟨k, inside.trans_le ?_, same⟩
  rw [ElfFile.bytes, List.length_take]
  exact min_le_left _ _

theorem intact_refl (s : ExecState) (call : ExecveCall) : s.Intact call s :=
  ⟨rfl, rfl, rfl, rfl, rfl, rfl, fun _ _ => rfl⟩

theorem intact_kfree (s : ExecState) {call : ExecveCall} {file : ElfFile} {buf : UInt32}
    (found : call.file = some file) (taken : call.bufBlock = some buf) :
    s.Intact call ({ s.take buf with memory := s.memory.store buf file.bytes }.kfree buf) where
  mapped := rfl
  placed := rfl
  heapStart := rfl
  heapBrk := rfl
  name := rfl
  blocks := List.erase_cons_head buf s.blocks
  memory := fun _ outside => read_outside file s.memory buf
    fun member => outside ⟨file, buf, found, taken, member⟩

/-- Whatever fails, the process that called goes on as it was. -/
theorem elfExecve_failsCleanly (s : ExecState) (call : ExecveCall) : s.FailsCleanly call := by
  have nothing : s.Intact call s := intact_refl s call
  rw [FailsCleanly, elfExecve]
  by_cases nobody : call.current = false
  · rw [if_pos nobody]
    exact fun _ => nothing
  rw [if_neg nobody]
  cases found : call.file with
  | none => exact fun _ => nothing
  | some file =>
      dsimp only
      by_cases forbidden : file.executable = false
      · rw [if_pos forbidden]
        exact fun _ => nothing
      rw [if_neg forbidden]
      by_cases small : file.size < elf32EhdrSize
      · rw [if_pos small]
        exact fun _ => nothing
      rw [if_neg small]
      cases taken : call.bufBlock with
      | none => exact fun _ => nothing
      | some buf =>
          have back := s.intact_kfree found taken
          dsimp only
          generalize s.memory.store buf file.bytes = read at back
          by_cases short : file.got < elf32EhdrSize
          · rw [if_pos short]
            exact fun _ => back
          rw [if_neg short]
          by_cases invalid : elfValidate (read.readEhdr buf) = false
          · rw [if_pos invalid]
            exact fun _ => back
          rw [if_neg invalid]
          by_cases zero : (read.readEhdr buf).eEntry = 0
          · rw [if_pos zero]
            exact fun _ => back
          rw [if_neg zero]
          cases execveChecks read buf file.got 65536 0 with
          | some error => exact fun _ => back
          | none =>
              dsimp only
              by_cases noArgs : call.argv = []
              · rw [if_pos noArgs]
                exact fun failed => absurd rfl failed
              rw [if_neg noArgs]
              cases call.argBlock with
              | none => exact fun _ => back
              | some blob => exact fun failed => absurd rfl failed

end ExecState

end Trinux
