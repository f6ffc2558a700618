import Trinux.Mm.PageEntries

namespace Trinux

/-!
# What mapping a page changes

Every directory has the same entries for the first gigabyte, and each of its other entries leads to
a table that no other entry leads to.  So a page above the first gigabyte is mapped in one
directory, and a page below it in all of them at once.
-/

namespace PageTables

/-! ## Directories and their tables -/

def Dynamic (s : PageTables) (frame : Nat) : Prop :=
  Pmm.reservedFrames ≤ frame ∧ frame < maxFrames ∧ s.pmm.bitmap frame = true

def IsDir (statics : Statics) (s : PageTables) (dir : Nat) : Prop :=
  dir = statics.pageDirectory ∨ dir ∈ s.spaces

def IsHigh (index : Nat) : Prop := identityTableCount ≤ index ∧ index < 1024

/-- The entry of a directory leads to a table of the pool, or to one that the allocator gave. -/
structure Leads (statics : Statics) (s : PageTables) (dir index table : Nat) (flags : UInt32) :
    Prop where
  known : TableFlags flags
  entry : s.mem dir index = tableEntry table flags
  kernel : dir = statics.pageDirectory → flags = pagePresent ||| pageRw ∧
    ∃ number < s.extraUsed, table = statics.extraTables + number
  space : dir ∈ s.spaces → flags = pagePresent ||| pageRw ||| pageUser ∧ s.Dynamic table ∧
    table ∉ s.spaces

/-- The directories share the entries for the first gigabyte and nothing else. -/
structure Sound (statics : Statics) (s : PageTables) : Prop where
  low : ∀ dir, IsDir statics s dir → ∀ index < identityTableCount,
    s.mem dir index = lowEntry statics index
  high : ∀ dir, IsDir statics s dir → ∀ index, IsHigh index →
    s.mem dir index = 0 ∨ ∃ table flags, Leads statics s dir index table flags
  once : ∀ dir dir' index index', IsDir statics s dir → IsDir statics s dir' → IsHigh index →
    IsHigh index' → HasFlag (s.mem dir index) pagePresent →
    HasFlag (s.mem dir' index') pagePresent →
    entryFrame (s.mem dir index) = entryFrame (s.mem dir' index') → dir = dir' ∧ index = index'
  dynamic : ∀ dir ∈ s.spaces, s.Dynamic dir
  extra : s.extraUsed ≤ extraTableCount
  reserved : ∀ frame < Pmm.reservedFrames, s.pmm.bitmap frame = true
  few : s.pmm.totalFrames ≤ maxFrames

theorem reserved_lt : Pmm.reservedFrames < maxFrames := by decide

theorem lowEntry_frame (statics : Statics) {index : Nat} (inside : index < identityTableCount) :
    entryFrame (lowEntry statics index) = statics.pageTables + index := by
  have tables := statics.tablesInside
  have limit := reserved_lt
  apply tableEntry_frame (by omega)
  split_ifs
  · exact Or.inl rfl
  · exact Or.inr rfl

theorem lowEntry_present (statics : Statics) (index : Nat) :
    HasFlag (lowEntry statics index) pagePresent := by
  apply tableEntry_present
  split_ifs
  · exact Or.inl rfl
  · exact Or.inr rfl

theorem not_present_zero : ¬HasFlag 0 pagePresent := by decide

section Tables

variable {statics : Statics} {s : PageTables} {dir dir' index index' : Nat}

/-- A frame of the static arrays is no directory that was created. -/
theorem Sound.static_ne (sound : Sound statics s) {frame : Nat}
    (static : frame < Pmm.reservedFrames) : frame ∉ s.spaces := by
  intro listed
  have above := (sound.dynamic frame listed).1
  omega

/-- An entry that is present: one for the first gigabyte, or one that leads to a table of its
directory. -/
theorem Sound.present_cases (sound : Sound statics s) (isDir : IsDir statics s dir)
    (inside : index < 1024) (present : HasFlag (s.mem dir index) pagePresent) :
    (index < identityTableCount ∧ s.mem dir index = lowEntry statics index) ∨
      IsHigh index ∧ ∃ table flags, Leads statics s dir index table flags := by
  rcases Nat.lt_or_ge index identityTableCount with below | above
  · exact Or.inl ⟨below, sound.low dir isDir index below⟩
  · rcases sound.high dir isDir index ⟨above, inside⟩ with zero | leads
    · rw [zero] at present
      exact absurd present not_present_zero
    · exact Or.inr ⟨⟨above, inside⟩, leads⟩

theorem Leads.frame {table : Nat} {flags : UInt32} (sound : Sound statics s)
    (isDir : IsDir statics s dir) (leads : Leads statics s dir index table flags) :
    entryFrame (s.mem dir index) = table := by
  have extra := sound.extra
  have inside := statics.extraInside
  have limit := reserved_lt
  have small : table < maxFrames := by
    rcases isDir with kernel | space
    · rcases (leads.kernel kernel).2 with ⟨number, less, rfl⟩
      omega
    · exact (leads.space space).2.1.2.1
  rw [leads.entry, tableEntry_frame small leads.known]

theorem Sound.table_not_dir (sound : Sound statics s) (isDir : IsDir statics s dir)
    (inside : index < 1024) (present : HasFlag (s.mem dir index) pagePresent) :
    ¬IsDir statics s (entryFrame (s.mem dir index)) := by
  have tables := statics.tablesInside
  have extras := statics.extraInside
  have directory := statics.directoryInside
  rcases sound.present_cases isDir inside present with ⟨below, low⟩ | ⟨high, table, flags, leads⟩
  · rw [low, lowEntry_frame statics below]
    have apart := statics.directoryApart
    rintro (same | listed)
    · omega
    · exact sound.static_ne (by omega) listed
  · rw [leads.frame sound isDir]
    rcases isDir with kernel | space
    · rcases (leads.kernel kernel).2 with ⟨number, less, rfl⟩
      have extra := sound.extra
      have apart := statics.extraApart
      rintro (same | listed)
      · omega
      · exact sound.static_ne (by omega) listed
    · have placed := (leads.space space).2
      have above := placed.1.1
      rintro (same | listed)
      · omega
      · exact placed.2 listed

/-- Two entries that lead to the same table are the same, or those of one index below a
gigabyte. -/
theorem Sound.same_table (sound : Sound statics s) (isDir : IsDir statics s dir)
    (isDir' : IsDir statics s dir') (inside : index < 1024) (inside' : index' < 1024)
    (present : HasFlag (s.mem dir index) pagePresent)
    (present' : HasFlag (s.mem dir' index') pagePresent)
    (same : entryFrame (s.mem dir index) = entryFrame (s.mem dir' index')) :
    index = index' ∧ (index < identityTableCount ∨ dir = dir') := by
  have tables := statics.tablesInside
  have apart := statics.tablesApart
  have extra := sound.extra
  have differ : ∀ {dir index index' table : Nat} {flags : UInt32}, IsDir statics s dir →
      Leads statics s dir index table flags → index' < identityTableCount →
      entryFrame (s.mem dir index) ≠ statics.pageTables + index' := by
    intro dir index index' table flags isDir leads below
    rw [leads.frame sound isDir]
    rcases isDir with kernel | space
    · rcases (leads.kernel kernel).2 with ⟨number, less, rfl⟩
      omega
    · have above := (leads.space space).2.1.1
      omega
  rcases sound.present_cases isDir inside present with ⟨below, low⟩ | ⟨high, table, flags, leads⟩
  · rcases sound.present_cases isDir' inside' present' with
      ⟨below', low'⟩ | ⟨high', table', flags', leads'⟩
    · rw [low, low', lowEntry_frame statics below, lowEntry_frame statics below'] at same
      exact ⟨by omega, Or.inl below⟩
    · rw [low, lowEntry_frame statics below] at same
      exact absurd same.symm (differ isDir' leads' below)
  · rcases sound.present_cases isDir' inside' present' with
      ⟨below', low'⟩ | ⟨high', table', flags', leads'⟩
    · rw [low', lowEntry_frame statics below'] at same
      exact absurd same (differ isDir leads below')
    · have equal := sound.once dir dir' index index' isDir isDir' high high' present present' same
      exact ⟨equal.2, Or.inr equal.1⟩

end Tables

/-! ## Writing an entry of a table -/

section Writing

variable {statics : Statics} {s : PageTables}

theorem setWord_mem_of_ne (s : PageTables) {frame other : Nat} (different : other ≠ frame)
    (index : Nat) (value : UInt32) : (s.setWord frame index value).mem other = s.mem other := by
  unfold setWord
  dsimp only
  rw [Function.update_of_ne different]

theorem setWord_mem_self (s : PageTables) (frame index : Nat) (value : UInt32) :
    (s.setWord frame index value).mem frame = Function.update (s.mem frame) index value := by
  unfold setWord
  dsimp only
  rw [Function.update_self]

/-- Words of other frames than directories do not matter. -/
theorem Sound.of_dirs {s' : PageTables} (sound : Sound statics s) (pmm : s'.pmm = s.pmm)
    (extra : s'.extraUsed = s.extraUsed) (spaces : s'.spaces = s.spaces)
    (mem : ∀ dir, IsDir statics s dir → s'.mem dir = s.mem dir) : Sound statics s' := by
  have dirs : ∀ dir, IsDir statics s' dir ↔ IsDir statics s dir := by
    intro dir
    unfold IsDir
    rw [spaces]
  have dynamic : ∀ frame, s'.Dynamic frame ↔ s.Dynamic frame := by
    intro frame
    unfold Dynamic
    rw [pmm]
  constructor
  case low =>
    intro dir isDir index below
    rw [dirs] at isDir
    rw [mem dir isDir]
    exact sound.low dir isDir index below
  case high =>
    intro dir isDir index isHigh
    rw [dirs] at isDir
    rcases sound.high dir isDir index isHigh with zero | ⟨table, flags, leads⟩
    · left
      rw [mem dir isDir]
      exact zero
    · right
      refine ⟨table, flags, leads.known, ?_, ?_, ?_⟩
      · rw [mem dir isDir]
        exact leads.entry
      · rw [extra]
        exact leads.kernel
      · rw [spaces, dynamic]
        exact leads.space
  case once =>
    intro dir dir' index index' isDir isDir' isHigh isHigh'
    rw [dirs] at isDir isDir'
    rw [mem dir isDir, mem dir' isDir']
    exact sound.once dir dir' index index' isDir isDir' isHigh isHigh'
  case dynamic =>
    intro dir listed
    rw [spaces] at listed
    rw [dynamic]
    exact sound.dynamic dir listed
  case extra =>
    rw [extra]
    exact sound.extra
  case reserved =>
    rw [pmm]
    exact sound.reserved
  case few =>
    rw [pmm]
    exact sound.few

theorem Sound.setWord (sound : Sound statics s) {frame : Nat} (noDir : ¬IsDir statics s frame)
    (index : Nat) (value : UInt32) : Sound statics (s.setWord frame index value) := by
  have kept : ∀ dir, IsDir statics s dir →
      (s.setWord frame index value).mem dir = s.mem dir := by
    intro dir isDir
    apply setWord_mem_of_ne
    rintro rfl
    exact noDir isDir
  exact @Sound.of_dirs statics s (s.setWord frame index value) sound rfl rfl rfl kept

/-- What pages translate to when an entry of a table is written. -/
theorem Sound.translate_entry (sound : Sound statics s) {dir dirIdx tblIdx : Nat}
    (isDir : IsDir statics s dir) (inside : dirIdx < 1024) (small : tblIdx < 1024)
    (present : HasFlag (s.mem dir dirIdx) pagePresent) (value : UInt32) {dir' page : Nat}
    (isDir' : IsDir statics s dir') (inside' : page < 1024 * 1024) :
    (s.setWord (entryFrame (s.mem dir dirIdx)) tblIdx value).translate dir' page =
      if page = dirIdx * 1024 + tblIdx ∧ (dirIdx < identityTableCount ∨ dir' = dir) then
        combine (s.mem dir' dirIdx) value
      else s.translate dir' page := by
  have noDir := sound.table_not_dir isDir inside present
  have kept : (s.setWord (entryFrame (s.mem dir dirIdx)) tblIdx value).mem dir' = s.mem dir' := by
    apply setWord_mem_of_ne
    rintro rfl
    exact noDir isDir'
  unfold translate
  rw [kept]
  by_cases present' : HasFlag (s.mem dir' (page / 1024)) pagePresent
  · by_cases same : entryFrame (s.mem dir' (page / 1024)) = entryFrame (s.mem dir dirIdx)
    · have slot := sound.same_table isDir' isDir (by omega) inside present' present same
      rw [same, setWord_mem_self]
      by_cases here : page % 1024 = tblIdx
      · have where' : page = dirIdx * 1024 + tblIdx ∧
            (dirIdx < identityTableCount ∨ dir' = dir) := by
          refine ⟨by omega, ?_⟩
          rw [← slot.1]
          exact slot.2
        rw [if_pos where', here, Function.update_self, slot.1]
      · have elsewhere : ¬(page = dirIdx * 1024 + tblIdx ∧
            (dirIdx < identityTableCount ∨ dir' = dir)) := by
          rintro ⟨rfl, _⟩
          omega
        rw [if_neg elsewhere, Function.update_of_ne here]
    · have elsewhere : ¬(page = dirIdx * 1024 + tblIdx ∧
          (dirIdx < identityTableCount ∨ dir' = dir)) := by
        rintro ⟨rfl, shared⟩
        have index : (dirIdx * 1024 + tblIdx) / 1024 = dirIdx := by omega
        rw [index] at same
        rcases shared with below | rfl
        · rw [sound.low dir' isDir' dirIdx below, sound.low dir isDir dirIdx below] at same
          exact same rfl
        · exact same rfl
      rw [if_neg elsewhere, setWord_mem_of_ne _ same]
  · have none' : ∀ pte, combine (s.mem dir' (page / 1024)) pte = none := by
      intro pte
      unfold combine
      rw [if_neg]
      exact fun both => present' both.1
    rw [none', none']
    by_cases where' : page = dirIdx * 1024 + tblIdx ∧ (dirIdx < identityTableCount ∨ dir' = dir)
    · rw [if_pos where']
      rcases where' with ⟨rfl, _⟩
      have index : (dirIdx * 1024 + tblIdx) / 1024 = dirIdx := by omega
      rw [index] at none'
      exact (none' value).symm
    · rw [if_neg where']

/-- Without a present entry of the directory nothing is found. -/
theorem combine_absent {pde : UInt32} (absent : ¬HasFlag pde pagePresent) (pte : UInt32) :
    combine pde pte = none := by
  unfold combine
  rw [if_neg]
  exact fun both => absent both.1

theorem combine_zero (pde : UInt32) : combine pde 0 = none := by
  unfold combine
  rw [if_neg]
  exact fun both => not_present_zero both.2

end Writing

/-! ## A new table -/

structure Unused (statics : Statics) (s : PageTables) (frame : Nat) : Prop where
  noDir : ¬IsDir statics s frame
  noTable : ∀ dir, IsDir statics s dir → ∀ index < 1024, HasFlag (s.mem dir index) pagePresent →
    entryFrame (s.mem dir index) ≠ frame

def withTable (s : PageTables) (dir index table : Nat) (flags : UInt32) : PageTables :=
  (s.clear table).setWord dir index (tableEntry table flags)

section NewTable

variable {statics : Statics} {s : PageTables} {dir index table : Nat} {flags : UInt32}

theorem withTable_dir (s : PageTables) (index : Nat) (flags : UInt32) (different : dir ≠ table) :
    (s.withTable dir index table flags).mem dir =
      Function.update (s.mem dir) index (tableEntry table flags) := by
  unfold withTable clear
  rw [setWord_mem_self]
  dsimp only
  rw [Function.update_of_ne different]

theorem withTable_table (s : PageTables) (index : Nat) (flags : UInt32) (different : dir ≠ table) :
    (s.withTable dir index table flags).mem table = fun _ => 0 := by
  unfold withTable clear
  rw [setWord_mem_of_ne _ (Ne.symm different)]
  dsimp only
  rw [Function.update_self]

theorem withTable_other (s : PageTables) (index : Nat) (flags : UInt32) {other : Nat}
    (notDir : other ≠ dir) (notTable : other ≠ table) :
    (s.withTable dir index table flags).mem other = s.mem other := by
  unfold withTable clear
  rw [setWord_mem_of_ne _ notDir]
  dsimp only
  rw [Function.update_of_ne notTable]

theorem Sound.translate_withTable (sound : Sound statics s) (isDir : IsDir statics s dir)
    (absent : s.mem dir index = 0) (unused : Unused statics s table) (small : table < maxFrames)
    (known : TableFlags flags) {dir' page : Nat} (isDir' : IsDir statics s dir')
    (inside : page < 1024 * 1024) :
    (s.withTable dir index table flags).translate dir' page = s.translate dir' page := by
  have different : dir ≠ table := by
    rintro rfl
    exact unused.noDir isDir
  have different' : dir' ≠ table := by
    rintro rfl
    exact unused.noDir isDir'
  unfold translate
  by_cases slot : dir' = dir ∧ page / 1024 = index
  · rcases slot with ⟨rfl, here⟩
    rw [withTable_dir s index flags different, here, Function.update_self, absent,
      tableEntry_frame small known, withTable_table s index flags different, combine_zero,
      combine_absent not_present_zero]
  · have same : (s.withTable dir index table flags).mem dir' (page / 1024) =
        s.mem dir' (page / 1024) := by
      by_cases here : dir' = dir
      · have other : page / 1024 ≠ index := fun there => slot ⟨here, there⟩
        rw [here, withTable_dir s index flags different, Function.update_of_ne other]
      · rw [withTable_other s index flags here different']
    rw [same]
    by_cases present : HasFlag (s.mem dir' (page / 1024)) pagePresent
    · have noDir := sound.table_not_dir isDir' (show page / 1024 < 1024 by omega) present
      have notDir : entryFrame (s.mem dir' (page / 1024)) ≠ dir := by
        intro equal
        rw [equal] at noDir
        exact noDir isDir
      have notTable := unused.noTable dir' isDir' (page / 1024) (by omega) present
      rw [withTable_other s index flags notDir notTable]
    · rw [combine_absent present, combine_absent present]

theorem Sound.newTable {s' : PageTables} (sound : Sound statics s) (isDir : IsDir statics s dir)
    (isHigh : IsHigh index) (unused : Unused statics s table) (small : table < maxFrames)
    (leads : Leads statics s' dir index table flags) (spaces : s'.spaces = s.spaces)
    (more : s.extraUsed ≤ s'.extraUsed) (extra : s'.extraUsed ≤ extraTableCount)
    (marked : ∀ frame, s.pmm.bitmap frame = true → s'.pmm.bitmap frame = true)
    (few : s'.pmm.totalFrames ≤ maxFrames)
    (mem : ∀ dir' index', IsDir statics s dir' → ¬(dir' = dir ∧ index' = index) →
      s'.mem dir' index' = s.mem dir' index') : Sound statics s' := by
  have dirs : ∀ dir', IsDir statics s' dir' ↔ IsDir statics s dir' := by
    intro dir'
    unfold IsDir
    rw [spaces]
  have dynamic : ∀ frame, s.Dynamic frame → s'.Dynamic frame := fun frame given =>
    ⟨given.1, given.2.1, marked frame given.2.2⟩
  have frame : entryFrame (s'.mem dir index) = table := by
    rw [leads.entry, tableEntry_frame small leads.known]
  constructor
  case low =>
    intro dir' isDir' index' below
    rw [dirs] at isDir'
    have above := isHigh.1
    rw [mem dir' index' isDir' (fun both => by omega)]
    exact sound.low dir' isDir' index' below
  case high =>
    intro dir' isDir' index' isHigh'
    rw [dirs] at isDir'
    by_cases slot : dir' = dir ∧ index' = index
    · rcases slot with ⟨rfl, rfl⟩
      exact Or.inr ⟨table, flags, leads⟩
    · rw [mem dir' index' isDir' slot]
      rcases sound.high dir' isDir' index' isHigh' with zero | ⟨table', flags', leads'⟩
      · exact Or.inl zero
      · right
        refine ⟨table', flags', leads'.known, ?_, ?_, ?_⟩
        · rw [mem dir' index' isDir' slot]
          exact leads'.entry
        · intro kernel
          rcases leads'.kernel kernel with ⟨same, number, less, place⟩
          exact ⟨same, number, less.trans_le more, place⟩
        · rw [spaces]
          intro space
          rcases leads'.space space with ⟨same, given, noSpace⟩
          exact ⟨same, dynamic _ given, noSpace⟩
  case once =>
    intro first second index₁ index₂ isDir₁ isDir₂ isHigh₁ isHigh₂ present₁ present₂ same
    rw [dirs] at isDir₁ isDir₂
    by_cases slot₁ : first = dir ∧ index₁ = index
    · rcases slot₁ with ⟨rfl, rfl⟩
      by_cases slot₂ : second = first ∧ index₂ = index₁
      · exact ⟨slot₂.1.symm, slot₂.2.symm⟩
      · rw [mem second index₂ isDir₂ slot₂] at present₂ same
        rw [frame] at same
        exact absurd same.symm (unused.noTable second isDir₂ index₂ isHigh₂.2 present₂)
    · rw [mem first index₁ isDir₁ slot₁] at present₁ same
      by_cases slot₂ : second = dir ∧ index₂ = index
      · rcases slot₂ with ⟨rfl, rfl⟩
        rw [frame] at same
        exact absurd same (unused.noTable first isDir₁ index₁ isHigh₁.2 present₁)
      · rw [mem second index₂ isDir₂ slot₂] at present₂ same
        exact sound.once first second index₁ index₂ isDir₁ isDir₂ isHigh₁ isHigh₂ present₁ present₂
          same
  case dynamic =>
    intro dir' listed
    rw [spaces] at listed
    exact dynamic dir' (sound.dynamic dir' listed)
  case extra => exact extra
  case reserved => exact fun frame below => marked frame (sound.reserved frame below)
  case few => exact few

end NewTable

/-! ## The calls -/

section Calls

variable {statics : Statics} {s : PageTables}

theorem pageOf_lt (virt : UInt32) : pageOf virt < 1024 * 1024 := by
  have small := virt.toNat_lt
  unfold pageOf
  omega

theorem IsHigh.of_page {virt : UInt32} (above : ¬pageOf virt / 1024 < identityTableCount) :
    IsHigh (pageOf virt / 1024) := by
  have small := pageOf_lt virt
  exact ⟨by omega, by omega⟩

theorem Sound.absent_zero (sound : Sound statics s) {dir index : Nat} (isDir : IsDir statics s dir)
    (isHigh : IsHigh index) (absent : ¬HasFlag (s.mem dir index) pagePresent) :
    s.mem dir index = 0 := by
  rcases sound.high dir isDir index isHigh with zero | ⟨table, flags, leads⟩
  · exact zero
  · rw [leads.entry] at absent
    exact absurd (tableEntry_present table leads.known) absent

theorem Sound.pool_unused (sound : Sound statics s) (room : s.extraUsed < extraTableCount) :
    Unused statics s (statics.extraTables + s.extraUsed) := by
  have extras := statics.extraInside
  have apart := statics.extraApart
  have tables := statics.tablesApart
  constructor
  · rintro (same | listed)
    · omega
    · exact sound.static_ne (by omega) listed
  · intro dir isDir index inside present
    rcases sound.present_cases isDir inside present with ⟨below, low⟩ | ⟨_, table, flags, leads⟩
    · rw [low, lowEntry_frame statics below]
      omega
    · rw [leads.frame sound isDir]
      rcases isDir with kernel | space
      · rcases (leads.kernel kernel).2 with ⟨number, less, rfl⟩
        omega
      · have above := (leads.space space).2.1.1
        omega

/-- Directories and tables are in use, so a frame that the allocator gives is neither. -/
theorem Sound.free_unused (sound : Sound statics s) {frame : Nat}
    (free : s.pmm.bitmap frame = false) : Unused statics s frame := by
  have static : ∀ other < Pmm.reservedFrames, other ≠ frame := by
    rintro other below rfl
    rw [sound.reserved other below] at free
    cases free
  have given : ∀ other, s.Dynamic other → other ≠ frame := by
    rintro other dynamic rfl
    rw [dynamic.2.2] at free
    cases free
  have tables := statics.tablesInside
  have extras := statics.extraInside
  have extra := sound.extra
  constructor
  · rintro (same | listed)
    · exact static _ statics.directoryInside same.symm
    · exact given frame (sound.dynamic frame listed) rfl
  · intro dir isDir index inside present
    rcases sound.present_cases isDir inside present with ⟨below, low⟩ | ⟨_, table, flags, leads⟩
    · rw [low, lowEntry_frame statics below]
      exact static _ (by omega)
    · rw [leads.frame sound isDir]
      rcases isDir with kernel | space
      · rcases (leads.kernel kernel).2 with ⟨number, less, rfl⟩
        exact static _ (by omega)
      · exact given table (leads.space space).2.1

theorem Sound.gives (sound : Sound statics s) {frame : Nat} {pmm : Pmm}
    (gives : s.pmm.Gives frame pmm) : Pmm.reservedFrames ≤ frame ∧ frame < maxFrames ∧
      pmm.bitmap frame = true ∧ (∀ other, s.pmm.bitmap other = true → pmm.bitmap other = true) ∧
      pmm.totalFrames ≤ maxFrames := by
  have few := sound.few
  refine ⟨?_, gives.inside.trans_le few, ?_, ?_, ?_⟩
  · by_contra below
    have used := sound.reserved frame (by omega)
    rw [gives.wasFree] at used
    cases used
  · rw [gives.bitmap, Function.update_self]
  · intro other used
    rw [gives.bitmap]
    by_cases same : other = frame
    · rw [same, Function.update_self]
    · rw [Function.update_of_ne same]
      exact used
  · rw [gives.totalFrames]
    exact few

theorem Sound.withPmm (sound : Sound statics s) {pmm : Pmm}
    (marked : ∀ frame, s.pmm.bitmap frame = true → pmm.bitmap frame = true)
    (few : pmm.totalFrames ≤ maxFrames) : Sound statics { s with pmm := pmm } where
  low := sound.low
  high := by
    intro dir isDir index isHigh
    rcases sound.high dir isDir index isHigh with zero | ⟨table, flags, leads⟩
    · exact Or.inl zero
    · right
      refine ⟨table, flags, leads.known, leads.entry, leads.kernel, ?_⟩
      intro space
      rcases leads.space space with ⟨same, given, noSpace⟩
      exact ⟨same, ⟨given.1, given.2.1, marked _ given.2.2⟩, noSpace⟩
  once := sound.once
  dynamic := by
    intro dir listed
    have given := sound.dynamic dir listed
    exact ⟨given.1, given.2.1, marked _ given.2.2⟩
  extra := sound.extra
  reserved := fun frame below => marked frame (sound.reserved frame below)
  few := few

theorem Sound.alloc_none (sound : Sound statics s) {pmm : Pmm}
    (failed : s.pmm.allocFrame = (none, pmm)) : s.pmm.freeCount = 0 ∧
      pmm = { s.pmm with failures := s.pmm.failures + 1 } := by
  have zeroUsed : s.pmm.ZeroUsed := sound.reserved 0 (by decide)
  have full : s.pmm.freeCount = 0 := by
    by_contra free
    rcases Pmm.allocFrame_some zeroUsed free with ⟨frame, pmm', allocated⟩
    rw [allocated] at failed
    cases failed
  rw [Pmm.allocFrame_full full] at failed
  cases failed
  exact ⟨full, rfl⟩

/-! ### Mapping in the directory of the kernel -/

/-- The state with a table of the pool for an entry of the directory of the kernel. -/
def pooled (statics : Statics) (s : PageTables) (index : Nat) : PageTables :=
  { s.withTable statics.pageDirectory index (statics.extraTables + s.extraUsed)
      (pagePresent ||| pageRw) with extraUsed := s.extraUsed + 1 }

theorem kernel_isDir (statics : Statics) (s : PageTables) : IsDir statics s statics.pageDirectory :=
  Or.inl rfl

theorem pool_small (room : s.extraUsed < extraTableCount) :
    statics.extraTables + s.extraUsed < maxFrames := by
  have extras := statics.extraInside
  have limit := reserved_lt
  omega

theorem Sound.pooled_ne (sound : Sound statics s) (room : s.extraUsed < extraTableCount) :
    statics.pageDirectory ≠ statics.extraTables + s.extraUsed := fun same =>
  (sound.pool_unused room).noDir (Or.inl same.symm)

theorem Sound.pooled_entry (sound : Sound statics s) (index : Nat)
    (room : s.extraUsed < extraTableCount) :
    (pooled statics s index).mem statics.pageDirectory index =
      tableEntry (statics.extraTables + s.extraUsed) (pagePresent ||| pageRw) := by
  unfold pooled
  dsimp only
  rw [withTable_dir s index _ (sound.pooled_ne room), Function.update_self]

theorem Sound.pooled (sound : Sound statics s) {index : Nat} (isHigh : IsHigh index)
    (room : s.extraUsed < extraTableCount) : Sound statics (pooled statics s index) := by
  have different := sound.pooled_ne room
  have leads : Leads statics (PageTables.pooled statics s index) statics.pageDirectory index
      (statics.extraTables + s.extraUsed) (pagePresent ||| pageRw) := by
    refine ⟨Or.inl rfl, sound.pooled_entry index room, ?_, ?_⟩
    · exact fun _ => ⟨rfl, s.extraUsed, Nat.lt_succ_self _, rfl⟩
    · intro space
      exact absurd space (sound.static_ne statics.directoryInside)
  apply sound.newTable (kernel_isDir statics s) isHigh (sound.pool_unused room) (pool_small room)
    leads
  · rfl
  · exact Nat.le_succ _
  · exact room
  · exact fun _ used => used
  · exact sound.few
  · intro dir' index' isDir' slot
    have notTable : dir' ≠ statics.extraTables + s.extraUsed := by
      rintro rfl
      exact (sound.pool_unused room).noDir isDir'
    unfold PageTables.pooled
    dsimp only
    by_cases here : dir' = statics.pageDirectory
    · rw [here, withTable_dir s index _ different,
        Function.update_of_ne (fun there => slot ⟨here, there⟩)]
    · rw [withTable_other s index _ here notTable]

theorem Sound.translate_pooled (sound : Sound statics s) {index : Nat} (isHigh : IsHigh index)
    (absent : ¬HasFlag (s.mem statics.pageDirectory index) pagePresent)
    (room : s.extraUsed < extraTableCount) {dir page : Nat} (isDir : IsDir statics s dir)
    (inside : page < 1024 * 1024) :
    (PageTables.pooled statics s index).translate dir page = s.translate dir page :=
  sound.translate_withTable (kernel_isDir statics s)
    (sound.absent_zero (kernel_isDir statics s) isHigh absent) (sound.pool_unused room)
    (pool_small room) (Or.inl rfl) isDir inside

/-- The entry of a page is that of its directory and its table. -/
theorem page_split (virt : UInt32) :
    pageOf virt / 1024 * 1024 + pageOf virt % 1024 = pageOf virt := by omega

/-- The state in which `vmm_map_page` writes the entry of the page; none if there is no table. -/
def prepared (statics : Statics) (s : PageTables) (virt : UInt32) : Option PageTables :=
  if pageOf virt / 1024 < identityTableCount ∨
      HasFlag (s.mem statics.pageDirectory (pageOf virt / 1024)) pagePresent then some s
  else if s.extraUsed < extraTableCount then some (PageTables.pooled statics s (pageOf virt / 1024))
  else none

theorem Sound.mapPage_eq (sound : Sound statics s) (virt phys flags : UInt32) :
    s.vmmMapPage statics virt phys flags =
      match prepared statics s virt with
      | none => s
      | some s' => s'.setWord
          (entryFrame (s'.mem statics.pageDirectory (pageOf virt / 1024)))
          (pageOf virt % 1024) (pageEntry phys flags) := by
  unfold vmmMapPage prepared
  dsimp only
  by_cases below : pageOf virt / 1024 < identityTableCount
  · rw [if_pos below, if_pos (Or.inl below)]
    dsimp only
    rw [sound.low _ (kernel_isDir statics s) _ below, lowEntry_frame statics below]
  · rw [if_neg below]
    by_cases present : HasFlag (s.mem statics.pageDirectory (pageOf virt / 1024)) pagePresent
    · rw [if_neg (not_not.mpr present), if_pos (Or.inr present)]
    · rw [if_pos present, if_neg (not_or.mpr ⟨below, present⟩)]
      by_cases room : s.extraUsed < extraTableCount
      · rw [if_neg (Nat.not_le.mpr room), if_pos room]
        rfl
      · rw [if_pos (Nat.le_of_not_lt room), if_neg room]

/-- In that state the table is there, and all pages translate as before. -/
theorem Sound.prepared (sound : Sound statics s) {virt : UInt32} {s' : PageTables}
    (ready : prepared statics s virt = some s') : Sound statics s' ∧ s'.spaces = s.spaces ∧
      HasFlag (s'.mem statics.pageDirectory (pageOf virt / 1024)) pagePresent ∧
      ∀ dir, IsDir statics s dir → ∀ page < 1024 * 1024, s'.translate dir page =
        s.translate dir page := by
  unfold PageTables.prepared at ready
  split_ifs at ready with known room
  · cases ready
    refine ⟨sound, rfl, ?_, fun _ _ _ _ => rfl⟩
    rcases known with below | present
    · rw [sound.low _ (kernel_isDir statics s) _ below]
      exact lowEntry_present statics _
    · exact present
  · cases ready
    rw [not_or] at known
    have isHigh := IsHigh.of_page known.1
    refine ⟨sound.pooled isHigh room, rfl, ?_, ?_⟩
    · rw [sound.pooled_entry _ room]
      exact tableEntry_present _ (Or.inl rfl)
    · exact fun dir isDir page inside => sound.translate_pooled isHigh known.2 room isDir inside

theorem Sound.mapPage (sound : Sound statics s) (virt phys flags : UInt32) :
    Sound statics (s.vmmMapPage statics virt phys flags) := by
  rw [sound.mapPage_eq]
  cases ready : PageTables.prepared statics s virt with
  | none => exact sound
  | some s' =>
      rcases sound.prepared ready with ⟨sound', _, present, _⟩
      have small := pageOf_lt virt
      apply sound'.setWord
      exact sound'.table_not_dir (kernel_isDir statics s') (by omega) present

/-- `vmm_unmap_page` writes a zero where there is a table. -/
theorem Sound.unmapPage_eq (sound : Sound statics s) (virt : UInt32) :
    s.vmmUnmapPage statics virt =
      if HasFlag (s.mem statics.pageDirectory (pageOf virt / 1024)) pagePresent then
        s.setWord (entryFrame (s.mem statics.pageDirectory (pageOf virt / 1024)))
          (pageOf virt % 1024) 0
      else s := by
  unfold vmmUnmapPage
  dsimp only
  by_cases below : pageOf virt / 1024 < identityTableCount
  · have low := sound.low _ (kernel_isDir statics s) _ below
    rw [if_pos below, low, if_pos (lowEntry_present statics _), lowEntry_frame statics below]
  · rw [if_neg below]

theorem Sound.unmapPage (sound : Sound statics s) (virt : UInt32) :
    Sound statics (s.vmmUnmapPage statics virt) := by
  have small := pageOf_lt virt
  rw [sound.unmapPage_eq]
  split_ifs with present
  · apply sound.setWord
    exact sound.table_not_dir (kernel_isDir statics s) (by omega) present
  · exact sound

/-! ### Directories of processes -/

/-- Without the flag for programs, the entry of a table of the kernel is the same. -/
theorem lowEntry_supervisor (statics : Statics) {index : Nat} (below : index < kernelTableCount) :
    lowEntry statics index &&& ~~~pageUser = lowEntry statics index := by
  have flags : (pagePresent ||| pageRw) &&& ~~~pageUser = pagePresent ||| pageRw := by decide
  have address : addressOf (statics.pageTables + index) &&& ~~~pageUser =
      addressOf (statics.pageTables + index) := by
    have high := addressOf_high (statics.pageTables + index)
    have mask : (~~~0xFFF &&& ~~~pageUser : UInt32) = ~~~0xFFF := by decide
    unfold entryAddress at high
    rw [← high, UInt32.and_assoc, mask]
  unfold lowEntry tableEntry
  rw [if_pos below, or_and_distrib, address, flags]

theorem Sound.newDirectory_low (sound : Sound statics s) {index : Nat}
    (below : index < identityTableCount) :
    s.newDirectory statics index = lowEntry statics index := by
  have known := sound.low _ (kernel_isDir statics s) index below
  unfold newDirectory
  rw [if_pos below, known]
  split_ifs with kernel
  · exact lowEntry_supervisor statics kernel
  · rfl

theorem newDirectory_high (statics : Statics) (s : PageTables) {index : Nat}
    (isHigh : IsHigh index) : s.newDirectory statics index = 0 := by
  have above := isHigh.1
  unfold newDirectory
  rw [if_neg (by omega)]

theorem Sound.create (sound : Sound statics s) :
    Sound statics (s.vmmCreateAddressSpace statics) := by
  unfold vmmCreateAddressSpace
  split
  · rename_i pmm failed
    rcases sound.alloc_none failed with ⟨_, rfl⟩
    exact sound.withPmm (fun _ used => used) sound.few
  · rename_i pd pmm allocated
    have gives := Pmm.allocFrame_gives allocated
    have unused := sound.free_unused gives.wasFree
    rcases sound.gives gives with ⟨above, small, used, marked, few⟩
    have old : ∀ dir, dir = statics.pageDirectory ∨ dir ∈ pd :: s.spaces → dir ≠ pd →
        IsDir statics s dir := by
      intro dir isDir notNew
      rcases isDir with kernel | listed
      · exact Or.inl kernel
      · exact Or.inr (List.mem_of_ne_of_mem notNew listed)
    have notNew : ∀ {dir index : Nat}, IsHigh index →
        HasFlag (Function.update s.mem pd (s.newDirectory statics) dir index) pagePresent →
        dir ≠ pd := by
      rintro dir index isHigh present rfl
      rw [Function.update_self, newDirectory_high statics s isHigh] at present
      exact not_present_zero present
    constructor
    case low =>
      intro dir isDir index below
      dsimp only
      by_cases new : dir = pd
      · rw [new, Function.update_self]
        exact sound.newDirectory_low below
      · rw [Function.update_of_ne new]
        exact sound.low dir (old dir isDir new) index below
    case high =>
      intro dir isDir index isHigh
      dsimp only
      by_cases new : dir = pd
      · left
        rw [new, Function.update_self]
        exact newDirectory_high statics s isHigh
      · rw [Function.update_of_ne new]
        rcases sound.high dir (old dir isDir new) index isHigh with zero | ⟨table, flags, leads⟩
        · exact Or.inl zero
        · right
          refine ⟨table, flags, leads.known, ?_, leads.kernel, ?_⟩
          · dsimp only
            rw [Function.update_of_ne new]
            exact leads.entry
          · intro space
            rcases leads.space (List.mem_of_ne_of_mem new space) with ⟨same, given, noSpace⟩
            refine ⟨same, ⟨given.1, given.2.1, marked table given.2.2⟩, ?_⟩
            intro listed
            rcases List.mem_cons.mp listed with rfl | before
            · have held := given.2.2
              rw [gives.wasFree] at held
              cases held
            · exact noSpace before
    case once =>
      intro dir dir' index index' isDir isDir' isHigh isHigh' present present' same
      dsimp only at present present' same
      have first := notNew isHigh present
      have second := notNew isHigh' present'
      rw [Function.update_of_ne first] at present same
      rw [Function.update_of_ne second] at present' same
      exact sound.once dir dir' index index' (old dir isDir first) (old dir' isDir' second) isHigh
        isHigh' present present' same
    case dynamic =>
      intro dir listed
      rcases List.mem_cons.mp listed with rfl | before
      · exact ⟨above, small, used⟩
      · have given := sound.dynamic dir before
        exact ⟨given.1, given.2.1, marked dir given.2.2⟩
    case extra => exact sound.extra
    case reserved => exact fun frame below => marked frame (sound.reserved frame below)
    case few => exact few

/-- The state in which `vmm_map_page_in` writes the entry of the page; none if no table could be
allocated. -/
def readied (s : PageTables) (pd : Nat) (virt : UInt32) : Option PageTables :=
  if HasFlag (s.mem pd (pageOf virt / 1024)) pagePresent then some s
  else
    match s.pmm.allocFrame with
    | (none, _) => none
    | (some table, pmm) => some ((({ s with pmm := pmm } : PageTables).withTable pd
        (pageOf virt / 1024) table (pagePresent ||| pageRw ||| pageUser)))

theorem mapPageIn_eq (s : PageTables) (pd : Nat) (virt phys flags : UInt32) :
    s.vmmMapPageIn pd virt phys flags =
      match s.readied pd virt with
      | none => { s with pmm := s.pmm.allocFrame.2 }
      | some s' => s'.setWord (entryFrame (s'.mem pd (pageOf virt / 1024)))
          (pageOf virt % 1024) (pageEntry phys flags) := by
  unfold vmmMapPageIn readied
  dsimp only
  by_cases present : HasFlag (s.mem pd (pageOf virt / 1024)) pagePresent
  · rw [if_neg (not_not.mpr present), if_pos present]
  · rw [if_pos present, if_neg present]
    split
    · rename_i pmm failed
      rw [failed]
    · rename_i table pmm allocated
      rw [allocated]
      rfl

/-- In that state the table is there, and all pages translate as before. -/
theorem Sound.readied (sound : Sound statics s) {pd : Nat} (space : pd ∈ s.spaces) {virt : UInt32}
    {s' : PageTables} (ready : s.readied pd virt = some s') : Sound statics s' ∧
      s'.spaces = s.spaces ∧ HasFlag (s'.mem pd (pageOf virt / 1024)) pagePresent ∧
      ∀ dir, IsDir statics s dir → ∀ page < 1024 * 1024, s'.translate dir page =
        s.translate dir page := by
  have small := pageOf_lt virt
  unfold PageTables.readied at ready
  by_cases present : HasFlag (s.mem pd (pageOf virt / 1024)) pagePresent
  · rw [if_pos present] at ready
    cases ready
    exact ⟨sound, rfl, present, fun _ _ _ _ => rfl⟩
  · rw [if_neg present] at ready
    have isDir : IsDir statics s pd := Or.inr space
    have above : ¬pageOf virt / 1024 < identityTableCount := by
      intro below
      rw [sound.low pd isDir _ below] at present
      exact present (lowEntry_present statics _)
    have isHigh := IsHigh.of_page above
    have absent := sound.absent_zero isDir isHigh present
    split at ready
    · cases ready
    · rename_i table pmm allocated
      cases ready
      have gives := Pmm.allocFrame_gives allocated
      have unused := sound.free_unused gives.wasFree
      rcases sound.gives gives with ⟨low, inside, used, marked, few⟩
      have different : pd ≠ table := fun same => unused.noDir (Or.inr (same ▸ space))
      have entry : ((({ s with pmm := pmm } : PageTables).withTable pd (pageOf virt / 1024) table
          (pagePresent ||| pageRw ||| pageUser))).mem pd (pageOf virt / 1024) =
          tableEntry table (pagePresent ||| pageRw ||| pageUser) := by
        rw [withTable_dir _ _ _ different, Function.update_self]
      have sound₁ : Sound statics { s with pmm := pmm } := sound.withPmm marked few
      have unused₁ : Unused statics { s with pmm := pmm } table := ⟨unused.noDir, unused.noTable⟩
      refine ⟨?_, rfl, ?_, ?_⟩
      · have leads : Leads statics ((({ s with pmm := pmm } : PageTables).withTable pd
            (pageOf virt / 1024) table (pagePresent ||| pageRw ||| pageUser))) pd
            (pageOf virt / 1024) table (pagePresent ||| pageRw ||| pageUser) := by
          refine ⟨Or.inr rfl, entry, ?_, ?_⟩
          · intro kernel
            rw [kernel] at space
            exact absurd space (sound.static_ne statics.directoryInside)
          · exact fun _ => ⟨rfl, ⟨low, inside, used⟩, fun listed => unused.noDir (Or.inr listed)⟩
        apply sound₁.newTable isDir isHigh unused₁ inside leads
        · rfl
        · exact Nat.le_refl _
        · exact sound.extra
        · exact fun _ held => held
        · exact few
        · intro dir' index' isDir' slot
          have notTable : dir' ≠ table := by
            rintro rfl
            exact unused.noDir isDir'
          by_cases here : dir' = pd
          · rw [here, withTable_dir _ _ _ different,
              Function.update_of_ne (fun there => slot ⟨here, there⟩)]
          · rw [withTable_other _ _ _ here notTable]
      · rw [entry]
        exact tableEntry_present _ (Or.inr rfl)
      · intro dir isDir' page below
        exact sound₁.translate_withTable isDir absent unused₁ inside (Or.inr rfl) isDir' below

theorem readied_none {pd : Nat} {virt : UInt32} (sound : Sound statics s)
    (failed : s.readied pd virt = none) :
    ¬HasFlag (s.mem pd (pageOf virt / 1024)) pagePresent ∧ s.pmm.freeCount = 0 := by
  unfold PageTables.readied at failed
  by_cases present : HasFlag (s.mem pd (pageOf virt / 1024)) pagePresent
  · rw [if_pos present] at failed
    cases failed
  · rw [if_neg present] at failed
    refine ⟨present, ?_⟩
    split at failed
    · rename_i pmm full
      exact (sound.alloc_none full).1
    · cases failed

theorem Sound.mapPageIn (sound : Sound statics s) {pd : Nat} (space : pd ∈ s.spaces)
    (virt phys flags : UInt32) : Sound statics (s.vmmMapPageIn pd virt phys flags) := by
  have small := pageOf_lt virt
  rw [mapPageIn_eq]
  cases ready : s.readied pd virt with
  | none =>
      have full := (readied_none sound ready).2
      dsimp only
      rw [Pmm.allocFrame_full full]
      exact sound.withPmm (fun _ used => used) sound.few
  | some s' =>
      rcases sound.readied space ready with ⟨sound', spaces, present, _⟩
      apply sound'.setWord
      refine sound'.table_not_dir (Or.inr ?_) (by omega) present
      rw [spaces]
      exact space

theorem Sound.perform (sound : Sound statics s) (call : Call) :
    Sound statics (s.perform statics call) := by
  cases call with
  | mapPage virt phys flags => exact sound.mapPage virt phys flags
  | unmapPage virt => exact sound.unmapPage virt
  | create => exact sound.create
  | mapPageIn pd virt phys flags =>
      unfold PageTables.perform
      dsimp only
      split_ifs with space
      · exact sound.mapPageIn space virt phys flags
      · exact sound

theorem init_sound (statics : Statics) (bytes : UInt32) (mem : Nat → Nat → UInt32) :
    Sound statics (vmmInit statics (Pmm.init bytes) mem) := by
  have only : ∀ {dir : Nat}, IsDir statics (vmmInit statics (Pmm.init bytes) mem) dir →
      dir = statics.pageDirectory := by
    rintro dir (kernel | listed)
    · exact kernel
    · cases listed
  have zero : ∀ index, IsHigh index →
      (vmmInit statics (Pmm.init bytes) mem).mem statics.pageDirectory index = 0 := by
    intro index isHigh
    have above := isHigh.1
    unfold vmmInit
    dsimp only
    rw [if_pos rfl, if_neg (by omega)]
  constructor
  case low =>
    intro dir isDir index below
    rw [only isDir]
    unfold vmmInit
    dsimp only
    rw [if_pos rfl, if_pos below]
  case high =>
    intro dir isDir index isHigh
    rw [only isDir]
    exact Or.inl (zero index isHigh)
  case once =>
    intro dir dir' index index' isDir isDir' isHigh isHigh' present _ _
    rw [only isDir, zero index isHigh] at present
    exact absurd present not_present_zero
  case dynamic =>
    intro dir listed
    cases listed
  case extra => exact Nat.zero_le _
  case reserved =>
    intro frame below
    show (Pmm.init bytes).bitmap frame = true
    rw [← Bool.not_eq_false, Pmm.init_bitmap]
    exact fun free => absurd free.1 (Nat.not_le.mpr below)
  case few =>
    show (Pmm.init bytes).totalFrames ≤ maxFrames
    rw [Pmm.init_totalFrames]
    exact Nat.min_le_right _ _

theorem run_sound (statics : Statics) (bytes : UInt32) (mem : Nat → Nat → UInt32)
    (calls : List Call) : Sound statics
      (Machine.after (PageTables.perform statics) (vmmInit statics (Pmm.init bytes) mem) calls) :=
  Machine.after_invariant (fun _ call holds => holds.perform call) (init_sound statics bytes mem)
    calls

end Calls

/-! ## Mapping in the directory of the kernel -/

def InUserRange (virt : UInt32) : Prop := 0x05000000 ≤ virt.toNat ∧ virt.toNat < 0x40000000

instance (virt : UInt32) : Decidable (InUserRange virt) :=
  inferInstanceAs (Decidable (_ ∧ _))

/-- After `vmm_map_page` the page translates to the frame, with the rights asked for, those of
programs only in their range, and all other pages as before.  The call returns nothing, so a caller
is not told when there is no table. -/
def MapsPage (statics : Statics) (s : PageTables) (virt phys flags : UInt32) : Prop :=
  (s.vmmMapPage statics virt phys flags).translate statics.pageDirectory (pageOf virt) =
      some ⟨entryAddress phys, decide (HasFlag flags pageRw),
        decide (HasFlag flags pageUser ∧ InUserRange virt)⟩ ∧
    ∀ page < 1024 * 1024, page ≠ pageOf virt →
      (s.vmmMapPage statics virt phys flags).translate statics.pageDirectory page =
        s.translate statics.pageDirectory page

/-- After `vmm_unmap_page` the page does not translate, and all other pages as before. -/
def UnmapsPage (statics : Statics) (s : PageTables) (virt : UInt32) : Prop :=
  (s.vmmUnmapPage statics virt).translate statics.pageDirectory (pageOf virt) = none ∧
    ∀ page < 1024 * 1024, page ≠ pageOf virt →
      (s.vmmUnmapPage statics virt).translate statics.pageDirectory page =
        s.translate statics.pageDirectory page

def HasTable (statics : Statics) (s : PageTables) (virt : UInt32) : Prop :=
  pageOf virt / 1024 < identityTableCount ∨
    HasFlag (s.mem statics.pageDirectory (pageOf virt / 1024)) pagePresent ∨
    s.extraUsed < extraTableCount

section Kernel

variable {statics : Statics} {s : PageTables}

theorem combine_page {pde : UInt32} (present : HasFlag pde pagePresent) (rw' : HasFlag pde pageRw)
    (phys flags : UInt32) : combine pde (pageEntry phys flags) =
      some ⟨entryAddress phys, decide (HasFlag flags pageRw),
        decide (HasFlag pde pageUser ∧ HasFlag flags pageUser)⟩ := by
  unfold combine
  rw [if_pos ⟨present, pageEntry_present phys flags⟩, pageEntry_address]
  have write := pageEntry_flag phys flags (show 0xFFF &&& pageRw = pageRw by decide) (by decide)
  have user := pageEntry_flag phys flags (show 0xFFF &&& pageUser = pageUser by decide) (by decide)
  simp only [write, user, rw', true_and]

theorem lowEntry_rw (statics : Statics) (index : Nat) :
    HasFlag (lowEntry statics index) pageRw := by
  unfold lowEntry
  rw [tableEntry_flag _ _ (by decide)]
  split_ifs <;> decide

theorem lowEntry_user (statics : Statics) (index : Nat) :
    HasFlag (lowEntry statics index) pageUser ↔ kernelTableCount ≤ index := by
  unfold lowEntry
  rw [tableEntry_flag _ _ (by decide)]
  split_ifs with kernel
  · constructor
    · intro impossible
      exact absurd impossible (by decide)
    · intro above
      omega
  · constructor
    · intro _
      omega
    · intro _
      decide

/-- An entry of the directory of the kernel allows writing, and programs in their range. -/
theorem Sound.kernel_entry (sound : Sound statics s) {virt : UInt32}
    (present : HasFlag (s.mem statics.pageDirectory (pageOf virt / 1024)) pagePresent) :
    HasFlag (s.mem statics.pageDirectory (pageOf virt / 1024)) pageRw ∧
      (HasFlag (s.mem statics.pageDirectory (pageOf virt / 1024)) pageUser ↔ InUserRange virt) := by
  have small := pageOf_lt virt
  have range : InUserRange virt ↔ kernelTableCount ≤ pageOf virt / 1024 ∧
      pageOf virt / 1024 < identityTableCount := by
    unfold InUserRange pageOf kernelTableCount identityTableCount
    omega
  rcases sound.present_cases (kernel_isDir statics s) (by omega) present with
    ⟨below, low⟩ | ⟨high, table, flags, leads⟩
  · rw [low, lowEntry_user, range]
    refine ⟨lowEntry_rw statics _, ?_⟩
    exact ⟨fun above => ⟨above, below⟩, fun both => both.1⟩
  · have above := high.1
    rw [leads.entry, (leads.kernel rfl).1, tableEntry_flag _ _ (by decide),
      tableEntry_flag _ _ (by decide), range]
    refine ⟨by decide, ?_⟩
    constructor
    · intro impossible
      exact absurd impossible (by decide)
    · intro both
      omega

theorem prepared_isSome_iff {virt : UInt32} :
    (PageTables.prepared statics s virt).isSome ↔ HasTable statics s virt := by
  unfold PageTables.prepared HasTable
  split_ifs with known room
  · exact ⟨fun _ => known.elim Or.inl fun present => Or.inr (Or.inl present), fun _ => rfl⟩
  · exact ⟨fun _ => Or.inr (Or.inr room), fun _ => rfl⟩
  · rw [not_or] at known
    constructor
    · intro impossible
      cases impossible
    · rintro (below | present | free)
      · exact absurd below known.1
      · exact absurd present known.2
      · exact absurd free room

theorem Sound.mapsPage_iff (sound : Sound statics s) (virt phys flags : UInt32) :
    MapsPage statics s virt phys flags ↔ HasTable statics s virt := by
  have small := pageOf_lt virt
  rw [← prepared_isSome_iff]
  unfold MapsPage
  rw [sound.mapPage_eq]
  cases ready : PageTables.prepared statics s virt with
  | none =>
      dsimp only
      constructor
      · intro maps
        have without : ¬HasTable statics s virt := by
          rw [← prepared_isSome_iff, ready]
          exact Bool.false_ne_true
        have absent : ¬HasFlag (s.mem statics.pageDirectory (pageOf virt / 1024)) pagePresent :=
          fun present => without (Or.inr (Or.inl present))
        have found := maps.1
        unfold translate at found
        rw [combine_absent absent] at found
        cases found
      · intro impossible
        cases impossible
  | some s' =>
      rcases sound.prepared ready with ⟨sound', spaces, present, same⟩
      have isDir' := kernel_isDir statics s'
      have entry := sound'.kernel_entry present
      have changed : ∀ page < 1024 * 1024, _ := fun page (inside : page < 1024 * 1024) =>
        sound'.translate_entry isDir' (show pageOf virt / 1024 < 1024 by omega)
          (show pageOf virt % 1024 < 1024 by omega) present (pageEntry phys flags) isDir' inside
      rw [page_split] at changed
      refine ⟨fun _ => rfl, fun _ => ⟨?_, ?_⟩⟩
      · dsimp only
        rw [changed _ small, if_pos ⟨rfl, Or.inr rfl⟩, combine_page present entry.1]
        simp only [entry.2, and_comm]
      · intro page inside other
        dsimp only
        rw [changed page inside, if_neg (fun both => other both.1)]
        exact same _ (kernel_isDir statics s) page inside

theorem Sound.unmapsPage (sound : Sound statics s) (virt : UInt32) : UnmapsPage statics s virt := by
  have small := pageOf_lt virt
  unfold UnmapsPage
  rw [sound.unmapPage_eq]
  by_cases present : HasFlag (s.mem statics.pageDirectory (pageOf virt / 1024)) pagePresent
  · rw [if_pos present]
    have isDir := kernel_isDir statics s
    have changed : ∀ page < 1024 * 1024, _ := fun page (inside : page < 1024 * 1024) =>
      sound.translate_entry isDir (show pageOf virt / 1024 < 1024 by omega)
        (show pageOf virt % 1024 < 1024 by omega) present 0 isDir inside
    rw [page_split] at changed
    constructor
    · rw [changed _ small, if_pos ⟨rfl, Or.inr rfl⟩, combine_zero]
    · intro page inside other
      rw [changed page inside, if_neg (fun both => other both.1)]
  · rw [if_neg present]
    refine ⟨?_, fun _ _ _ => rfl⟩
    unfold translate
    exact combine_absent present _

end Kernel

/-- In every run, unmapping a page unmaps it and no other, and mapping a page maps it and leaves all
others exactly when it has a table or there is one left in the pool. -/
theorem pages_mapped_iff (statics : Statics) (bytes : UInt32) (mem : Nat → Nat → UInt32)
    (calls : List Call) (virt phys flags : UInt32) :
    UnmapsPage statics (Machine.after (PageTables.perform statics)
      (vmmInit statics (Pmm.init bytes) mem) calls) virt ∧
    (MapsPage statics (Machine.after (PageTables.perform statics)
        (vmmInit statics (Pmm.init bytes) mem) calls) virt phys flags ↔
      HasTable statics (Machine.after (PageTables.perform statics)
        (vmmInit statics (Pmm.init bytes) mem) calls) virt) := by
  have sound := run_sound statics bytes mem calls
  exact ⟨sound.unmapsPage virt, sound.mapsPage_iff virt phys flags⟩

def someStatics : Statics where
  pageDirectory := 300
  pageTables := 301
  extraTables := 557
  directoryInside := by decide
  tablesInside := by decide
  extraInside := by decide
  directoryApart := by decide
  extraApart := by decide
  tablesApart := by decide

/-- A page in each of eight ranges of 4 MiB takes all tables of the pool, so a page in a ninth range
is not mapped. -/
theorem pool_exhausted :
    ¬MapsPage someStatics (Machine.after (PageTables.perform someStatics)
        (vmmInit someStatics (Pmm.init 0x10000000) fun _ _ => 0)
        [.mapPage 0xF0000000 0xF0000000 3, .mapPage 0xF0400000 0xF0400000 3,
          .mapPage 0xF0800000 0xF0800000 3, .mapPage 0xF0C00000 0xF0C00000 3,
          .mapPage 0xF1000000 0xF1000000 3, .mapPage 0xF1400000 0xF1400000 3,
          .mapPage 0xF1800000 0xF1800000 3, .mapPage 0xF1C00000 0xF1C00000 3])
      0xFEB00000 0xFEB00000 3 := by
  intro maps
  exact absurd maps.1 (by decide +kernel)

/-! ## Mapping in a directory of a process -/

def SameSpace (s s' : PageTables) (dir : Nat) : Prop :=
  ∀ page < 1024 * 1024, s'.translate dir page = s.translate dir page

/-- After `vmm_map_page_in` the page translates to the frame with the rights asked for and the other
pages of the directory as before, or no table could be allocated and all translate as before; the
pages of all other directories translate as before. -/
def MapsPageIn (statics : Statics) (s s' : PageTables) (pd : Nat) (virt phys flags : UInt32) :
    Prop :=
  ((s'.translate pd (pageOf virt) =
        some ⟨entryAddress phys, decide (HasFlag flags pageRw), decide (HasFlag flags pageUser)⟩ ∧
      ∀ page < 1024 * 1024, page ≠ pageOf virt → s'.translate pd page = s.translate pd page) ∨
    (¬HasFlag (s.mem pd (pageOf virt / 1024)) pagePresent ∧ s.pmm.freeCount = 0 ∧
      SameSpace s s' pd)) ∧
  ∀ dir, IsDir statics s dir → dir ≠ pd → SameSpace s s' dir

def Private (s : PageTables) (pd : Nat) (virt phys flags : UInt32) : Prop :=
  0x40000000 ≤ virt.toNat ∨ s.translate pd (pageOf virt) =
    some ⟨entryAddress phys, decide (HasFlag flags pageRw), decide (HasFlag flags pageUser)⟩

section Spaces

variable {statics : Statics} {s : PageTables} {pd : Nat}

/-- The entry of a directory for a page above the first gigabyte gives all rights. -/
theorem Sound.space_entry (sound : Sound statics s) (space : pd ∈ s.spaces) {index : Nat}
    (isHigh : IsHigh index) (present : HasFlag (s.mem pd index) pagePresent) :
    HasFlag (s.mem pd index) pageRw ∧ HasFlag (s.mem pd index) pageUser := by
  rcases sound.high pd (Or.inr space) index isHigh with zero | ⟨table, flags, leads⟩
  · rw [zero] at present
    exact absurd present not_present_zero
  · rw [leads.entry, (leads.space space).1, tableEntry_flag _ _ (by decide),
      tableEntry_flag _ _ (by decide)]
    exact ⟨by decide, by decide⟩

/-- In a directory with an entry for the page, exactly the page changes; in the others it does so
below a gigabyte. -/
theorem Sound.mapPageIn_translate (sound : Sound statics s) (space : pd ∈ s.spaces)
    {virt : UInt32} {s' : PageTables} (ready : s.readied pd virt = some s') (phys flags : UInt32)
    {dir page : Nat} (isDir : IsDir statics s dir) (inside : page < 1024 * 1024) :
    (s.vmmMapPageIn pd virt phys flags).translate dir page =
      if page = pageOf virt ∧ (pageOf virt / 1024 < identityTableCount ∨ dir = pd) then
        combine (s'.mem dir (pageOf virt / 1024)) (pageEntry phys flags)
      else s.translate dir page := by
  have small := pageOf_lt virt
  rcases sound.readied space ready with ⟨sound', spaces, present, same⟩
  have moved : ∀ other, IsDir statics s other → IsDir statics s' other := by
    intro other known
    unfold IsDir
    rw [spaces]
    exact known
  have changed := sound'.translate_entry (moved pd (Or.inr space))
    (show pageOf virt / 1024 < 1024 by omega) (show pageOf virt % 1024 < 1024 by omega) present
    (pageEntry phys flags) (moved dir isDir) inside
  rw [mapPageIn_eq, ready]
  dsimp only
  rw [changed, page_split, same dir isDir page inside]

theorem Sound.mapsPageIn_high (sound : Sound statics s) (space : pd ∈ s.spaces) {virt : UInt32}
    (above : ¬pageOf virt / 1024 < identityTableCount) (phys flags : UInt32) :
    MapsPageIn statics s (s.vmmMapPageIn pd virt phys flags) pd virt phys flags := by
  have small := pageOf_lt virt
  have isDir : IsDir statics s pd := Or.inr space
  cases ready : s.readied pd virt with
  | none =>
      rcases readied_none sound ready with ⟨absent, full⟩
      have same : ∀ dir, SameSpace s (s.vmmMapPageIn pd virt phys flags) dir := by
        intro dir page _
        rw [mapPageIn_eq, ready]
        rfl
      exact ⟨Or.inr ⟨absent, full, same pd⟩, fun dir _ _ => same dir⟩
  | some s' =>
      rcases sound.readied space ready with ⟨sound', spaces, present, _⟩
      have entry := sound'.space_entry (by rw [spaces]; exact space) (IsHigh.of_page above) present
      refine ⟨Or.inl ⟨?_, ?_⟩, ?_⟩
      · rw [sound.mapPageIn_translate space ready phys flags isDir small,
          if_pos ⟨rfl, Or.inr rfl⟩, combine_page present entry.1]
        simp only [entry.2, true_and]
      · intro page inside other
        rw [sound.mapPageIn_translate space ready phys flags isDir inside,
          if_neg (fun both => other both.1)]
      · intro dir isDir' different page inside
        rw [sound.mapPageIn_translate space ready phys flags isDir' inside,
          if_neg (fun both => both.2.elim above different)]

/-- Below a gigabyte the page has its table, and the entries of all directories are the same. -/
theorem Sound.readied_low (sound : Sound statics s) (space : pd ∈ s.spaces) {virt : UInt32}
    (below : pageOf virt / 1024 < identityTableCount) : s.readied pd virt = some s := by
  unfold PageTables.readied
  rw [sound.low pd (Or.inr space) _ below, if_pos (lowEntry_present statics _)]

theorem Sound.mapsPageIn_low (sound : Sound statics s) (space : pd ∈ s.spaces) {virt : UInt32}
    (below : pageOf virt / 1024 < identityTableCount) (phys flags : UInt32) :
    MapsPageIn statics s (s.vmmMapPageIn pd virt phys flags) pd virt phys flags ↔
      s.translate pd (pageOf virt) =
        some ⟨entryAddress phys, decide (HasFlag flags pageRw), decide (HasFlag flags pageUser)⟩ := by
  have small := pageOf_lt virt
  have isDir : IsDir statics s pd := Or.inr space
  have kernel := kernel_isDir statics s
  have ready := sound.readied_low space below
  have notKernel : statics.pageDirectory ≠ pd := by
    rintro rfl
    exact sound.static_ne statics.directoryInside space
  have present : HasFlag (s.mem pd (pageOf virt / 1024)) pagePresent := by
    rw [sound.low pd isDir _ below]
    exact lowEntry_present statics _
  have new : ∀ dir, IsDir statics s dir →
      (s.vmmMapPageIn pd virt phys flags).translate dir (pageOf virt) =
        combine (lowEntry statics (pageOf virt / 1024)) (pageEntry phys flags) := by
    intro dir isDir'
    rw [sound.mapPageIn_translate space ready phys flags isDir' small,
      if_pos ⟨rfl, Or.inl below⟩, sound.low dir isDir' _ below]
  have old : ∀ dir, IsDir statics s dir →
      s.translate dir (pageOf virt) = s.translate pd (pageOf virt) := by
    intro dir isDir'
    unfold translate
    rw [sound.low dir isDir' _ below, sound.low pd isDir _ below]
  constructor
  · rintro ⟨here | ⟨absent, _⟩, others⟩
    · have kept := others _ kernel notKernel (pageOf virt) small
      rw [new _ kernel, old _ kernel, ← new pd isDir, here.1] at kept
      exact kept.symm
    · exact absurd present absent
  · intro already
    have entry : combine (lowEntry statics (pageOf virt / 1024)) (pageEntry phys flags) =
        s.translate pd (pageOf virt) := by
      have user : HasFlag flags pageUser →
          HasFlag (lowEntry statics (pageOf virt / 1024)) pageUser := by
        intro asked
        unfold translate combine at already
        rw [sound.low pd isDir _ below] at already
        split_ifs at already with both
        have rights := congrArg Translation.user (Option.some.inj already)
        have allowed := (decide_eq_decide.mp rights).mpr asked
        exact allowed.1
      rw [already, combine_page (lowEntry_present statics _) (lowEntry_rw statics _)]
      have same : HasFlag (lowEntry statics (pageOf virt / 1024)) pageUser ∧
          HasFlag flags pageUser ↔ HasFlag flags pageUser :=
        ⟨fun both => both.2, fun asked => ⟨user asked, asked⟩⟩
      simp only [same]
    have unchanged : ∀ dir, IsDir statics s dir →
        SameSpace s (s.vmmMapPageIn pd virt phys flags) dir := by
      intro dir isDir' page inside
      by_cases here : page = pageOf virt
      · rw [here, new dir isDir', entry, old dir isDir']
      · rw [sound.mapPageIn_translate space ready phys flags isDir' inside,
          if_neg (fun both => here both.1)]
    refine ⟨Or.inl ⟨?_, fun page inside _ => unchanged pd isDir page inside⟩,
      fun dir isDir' _ => unchanged dir isDir'⟩
    rw [unchanged pd isDir _ small]
    exact already

theorem Sound.mapsPageIn_iff (sound : Sound statics s) (space : pd ∈ s.spaces)
    (virt phys flags : UInt32) :
    MapsPageIn statics s (s.vmmMapPageIn pd virt phys flags) pd virt phys flags ↔
      Private s pd virt phys flags := by
  have split : pageOf virt / 1024 < identityTableCount ↔ ¬0x40000000 ≤ virt.toNat := by
    unfold pageOf identityTableCount
    omega
  unfold Private
  by_cases below : pageOf virt / 1024 < identityTableCount
  · rw [sound.mapsPageIn_low space below]
    exact ⟨Or.inr, fun either => either.resolve_left (split.mp below)⟩
  · have above : 0x40000000 ≤ virt.toNat := by
      by_contra low
      exact below (split.mpr low)
    exact ⟨fun _ => Or.inl above, fun _ => sound.mapsPageIn_high space below phys flags⟩

end Spaces

/-- On a machine with more memory than the kernel keeps for itself, the first frame behind it
becomes a directory. -/
theorem create_after_init (statics : Statics) {bytes : UInt32}
    (large : Pmm.reservedFrames < Pmm.frameCount bytes) (mem : Nat → Nat → UInt32) :
    Machine.after (PageTables.perform statics) (vmmInit statics (Pmm.init bytes) mem) [.create] =
      { vmmInit statics (Pmm.init bytes) mem with
        pmm := (Pmm.init bytes).allocFrame.2
        mem := Function.update (vmmInit statics (Pmm.init bytes) mem).mem Pmm.reservedFrames
          ((vmmInit statics (Pmm.init bytes) mem).newDirectory statics)
        spaces := [Pmm.reservedFrames] } := by
  have first := Pmm.init_alloc large
  show (vmmInit statics (Pmm.init bytes) mem).vmmCreateAddressSpace statics = _
  unfold vmmCreateAddressSpace
  split
  · rename_i pmm failed
    have none' : (Pmm.init bytes).allocFrame = (none, pmm) := failed
    rw [none'] at first
    cases first
  · rename_i pd pmm allocated
    have given : (Pmm.init bytes).allocFrame = (some pd, pmm) := allocated
    rw [given] at first
    rw [given, Option.some.inj first]
    rfl

theorem first_space (statics : Statics) {bytes : UInt32}
    (large : Pmm.reservedFrames < Pmm.frameCount bytes) (mem : Nat → Nat → UInt32) :
    Pmm.reservedFrames ∈ (Machine.after (PageTables.perform statics)
      (vmmInit statics (Pmm.init bytes) mem) [.create]).spaces := by
  rw [create_after_init statics large mem]
  exact List.mem_singleton_self _

end PageTables

end Trinux
