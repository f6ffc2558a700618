import Trinux.Mm.Mappings

namespace Trinux

/-!
# Page tables under their addresses

The kernel reaches a directory or a table under the address of its frame, with whatever directory is
in use.  As long as the pages of the frames that a call works on lead to these frames, the call does
what it does to the frames themselves.  A call that maps a page of the first gigabyte may change
that for the calls after it.
-/

namespace PageTables

def reached (s : PageTables) (dir frame : Nat) : Option Nat :=
  (s.translate dir frame).map fun t => t.address.toNat / 4096

/-- A word under its address.  The processor stops at a page that leads nowhere. -/
def load (s : PageTables) (dir frame index : Nat) : UInt32 :=
  ((s.reached dir frame).map fun there => s.mem there index).getD 0

def store (s : PageTables) (dir frame index : Nat) (value : UInt32) : PageTables :=
  match s.reached dir frame with
  | none => s
  | some there => s.setWord there index value

def wipe (s : PageTables) (dir frame : Nat) : PageTables :=
  match s.reached dir frame with
  | none => s
  | some there => s.clear there

def mapPageUnder (statics : Statics) (dir : Nat) (s : PageTables) (virt phys flags : UInt32) :
    PageTables :=
  let dirIdx := pageOf virt / 1024
  let tblIdx := pageOf virt % 1024
  if dirIdx < identityTableCount then
    s.store dir (statics.pageTables + dirIdx) tblIdx (pageEntry phys flags)
  else if ¬HasFlag (s.load dir statics.pageDirectory dirIdx) pagePresent then
    if extraTableCount ≤ s.extraUsed then s
    else
      let table := statics.extraTables + s.extraUsed
      let made := (s.wipe dir table).store dir statics.pageDirectory dirIdx
        (tableEntry table (pagePresent ||| pageRw))
      let counted : PageTables := { made with extraUsed := s.extraUsed + 1 }
      counted.store dir (entryFrame (counted.load dir statics.pageDirectory dirIdx)) tblIdx
        (pageEntry phys flags)
  else
    s.store dir (entryFrame (s.load dir statics.pageDirectory dirIdx)) tblIdx
      (pageEntry phys flags)

def unmapPageUnder (statics : Statics) (dir : Nat) (s : PageTables) (virt : UInt32) : PageTables :=
  let dirIdx := pageOf virt / 1024
  let tblIdx := pageOf virt % 1024
  if dirIdx < identityTableCount then s.store dir (statics.pageTables + dirIdx) tblIdx 0
  else if HasFlag (s.load dir statics.pageDirectory dirIdx) pagePresent then
    s.store dir (entryFrame (s.load dir statics.pageDirectory dirIdx)) tblIdx 0
  else s

def newDirectoryUnder (statics : Statics) (dir : Nat) (s : PageTables) (index : Nat) : UInt32 :=
  if index < identityTableCount then
    if index < kernelTableCount then s.load dir statics.pageDirectory index &&& ~~~pageUser
    else s.load dir statics.pageDirectory index
  else 0

def createUnder (statics : Statics) (dir : Nat) (s : PageTables) : PageTables :=
  match s.pmm.allocFrame with
  | (none, pmm) => { s with pmm := pmm }
  | (some pd, pmm) =>
      { s with
        pmm := pmm
        mem := match s.reached dir pd with
          | none => s.mem
          | some there => Function.update s.mem there (s.newDirectoryUnder statics dir)
        spaces := pd :: s.spaces }

def mapPageInUnder (dir : Nat) (s : PageTables) (pd : Nat) (virt phys flags : UInt32) :
    PageTables :=
  let dirIdx := pageOf virt / 1024
  let tblIdx := pageOf virt % 1024
  if ¬HasFlag (s.load dir pd dirIdx) pagePresent then
    match s.pmm.allocFrame with
    | (none, pmm) => { s with pmm := pmm }
    | (some table, pmm) =>
        let allocated : PageTables := { s with pmm := pmm }
        let made := (allocated.wipe dir table).store dir pd dirIdx
          (tableEntry table (pagePresent ||| pageRw ||| pageUser))
        made.store dir (entryFrame (made.load dir pd dirIdx)) tblIdx (pageEntry phys flags)
  else s.store dir (entryFrame (s.load dir pd dirIdx)) tblIdx (pageEntry phys flags)

structure Use where
  dir : Nat
  call : Call

def performUnder (statics : Statics) (s : PageTables) (use : Use) : PageTables :=
  match use.call with
  | .mapPage virt phys flags => s.mapPageUnder statics use.dir virt phys flags
  | .unmapPage virt => s.unmapPageUnder statics use.dir virt
  | .create => s.createUnder statics use.dir
  | .mapPageIn pd virt phys flags =>
      if pd ∈ s.spaces then s.mapPageInUnder use.dir pd virt phys flags else s

/-- The frame of the table for a page in a directory, or the one that a new table gets. -/
def tableFor (s : PageTables) (dir : Nat) (virt : UInt32) (fresh : Option Nat) : List Nat :=
  if HasFlag (s.mem dir (pageOf virt / 1024)) pagePresent then
    [entryFrame (s.mem dir (pageOf virt / 1024))]
  else fresh.toList

def worksOn (statics : Statics) (s : PageTables) : Call → List Nat
  | .mapPage virt _ _ => statics.pageDirectory ::
      s.tableFor statics.pageDirectory virt (some (statics.extraTables + s.extraUsed))
  | .unmapPage virt => statics.pageDirectory :: s.tableFor statics.pageDirectory virt none
  | .create => statics.pageDirectory :: s.pmm.allocFrame.1.toList
  | .mapPageIn pd virt _ _ => pd :: s.tableFor pd virt s.pmm.allocFrame.1

/-- A call under one of the directories, whose pages lead to the frames that it works on. -/
def Straight (statics : Statics) (s : PageTables) (use : Use) : Prop :=
  IsDir statics s use.dir ∧
    ∀ frame ∈ s.worksOn statics use.call, s.reached use.dir frame = some frame

/-! ## A call under one of the directories -/

section Under

variable {statics : Statics} {s : PageTables} {dir frame : Nat}

theorem load_straight (straight : s.reached dir frame = some frame) (index : Nat) :
    s.load dir frame index = s.mem frame index := by
  rw [load, straight]
  rfl

theorem store_straight (straight : s.reached dir frame = some frame) (index : Nat)
    (value : UInt32) : s.store dir frame index value = s.setWord frame index value := by
  rw [store, straight]

theorem wipe_straight (straight : s.reached dir frame = some frame) :
    s.wipe dir frame = s.clear frame := by
  rw [wipe, straight]

/-- Clearing a frame that is not in use changes no translation. -/
theorem translate_clear (isDir : IsDir statics s dir) (unused : Unused statics s frame) {page : Nat}
    (inside : page < 1024 * 1024) : (s.clear frame).translate dir page = s.translate dir page := by
  have notDir : dir ≠ frame := by
    rintro rfl
    exact unused.noDir isDir
  have same : ∀ other, other ≠ frame → (s.clear frame).mem other = s.mem other := by
    intro other apart
    unfold clear
    exact Function.update_of_ne apart _ _
  unfold translate
  rw [same dir notDir]
  by_cases present : HasFlag (s.mem dir (page / 1024)) pagePresent
  · rw [same _ (unused.noTable dir isDir (page / 1024) (by omega) present)]
  · rw [combine_absent present, combine_absent present]

theorem reached_congr {s' : PageTables} {page : Nat}
    (same : s'.translate dir page = s.translate dir page) :
    s'.reached dir page = s.reached dir page := by
  rw [reached, reached, same]

theorem Sound.mapPageUnder_eq (sound : Sound statics s) (isDir : IsDir statics s dir)
    {virt : UInt32} (phys flags : UInt32)
    (straight : ∀ frame ∈ s.worksOn statics (.mapPage virt phys flags),
      s.reached dir frame = some frame) :
    s.mapPageUnder statics dir virt phys flags = s.vmmMapPage statics virt phys flags := by
  have kernel := kernel_isDir statics s
  have directory := straight _ List.mem_cons_self
  have small : statics.pageDirectory < 1024 * 1024 :=
    statics.directoryInside.trans reserved_lt
  unfold mapPageUnder vmmMapPage
  dsimp only
  rw [load_straight directory]
  by_cases below : pageOf virt / 1024 < identityTableCount
  · have entry := sound.low _ kernel _ below
    have table : statics.pageTables + pageOf virt / 1024 ∈
        s.worksOn statics (.mapPage virt phys flags) := by
      refine List.mem_cons_of_mem _ ?_
      rw [tableFor, entry, if_pos (lowEntry_present statics _), lowEntry_frame statics below]
      exact List.mem_singleton_self _
    rw [if_pos below, if_pos below, store_straight (straight _ table)]
  rw [if_neg below, if_neg below]
  by_cases present : HasFlag (s.mem statics.pageDirectory (pageOf virt / 1024)) pagePresent
  · have table : entryFrame (s.mem statics.pageDirectory (pageOf virt / 1024)) ∈
        s.worksOn statics (.mapPage virt phys flags) := by
      refine List.mem_cons_of_mem _ ?_
      rw [tableFor, if_pos present]
      exact List.mem_singleton_self _
    rw [if_neg (not_not.mpr present), if_neg (not_not.mpr present),
      store_straight (straight _ table)]
  rw [if_pos present, if_pos present]
  by_cases full : extraTableCount ≤ s.extraUsed
  · rw [if_pos full, if_pos full]
  rw [if_neg full, if_neg full]
  have room := Nat.lt_of_not_le full
  have unused := sound.pool_unused room
  have fresh : s.reached dir (statics.extraTables + s.extraUsed) =
      some (statics.extraTables + s.extraUsed) := by
    refine straight _ (List.mem_cons_of_mem _ ?_)
    rw [tableFor, if_neg present]
    exact List.mem_singleton_self _
  have cleared : (s.clear (statics.extraTables + s.extraUsed)).reached dir statics.pageDirectory =
      some statics.pageDirectory := by
    rw [reached_congr (translate_clear isDir unused small), directory]
  have made : ∀ {page : Nat}, page < 1024 * 1024 →
      (PageTables.pooled statics s (pageOf virt / 1024)).reached dir page = s.reached dir page :=
    fun inside => reached_congr (sound.translate_pooled (IsHigh.of_page below) present room isDir
      inside)
  rw [wipe_straight fresh, store_straight cleared]
  have entry := sound.pooled_entry (pageOf virt / 1024) room
  have counted : (PageTables.pooled statics s (pageOf virt / 1024)).load dir statics.pageDirectory
      (pageOf virt / 1024) = (PageTables.pooled statics s (pageOf virt / 1024)).mem
        statics.pageDirectory (pageOf virt / 1024) :=
    load_straight ((made small).trans directory) _
  have frame : entryFrame ((PageTables.pooled statics s (pageOf virt / 1024)).mem
      statics.pageDirectory (pageOf virt / 1024)) = statics.extraTables + s.extraUsed := by
    rw [entry, tableEntry_frame (pool_small room) (Or.inl rfl)]
  change (PageTables.pooled statics s (pageOf virt / 1024)).store dir (entryFrame
      ((PageTables.pooled statics s (pageOf virt / 1024)).load dir statics.pageDirectory
        (pageOf virt / 1024))) _ _ =
    (PageTables.pooled statics s (pageOf virt / 1024)).setWord (entryFrame
      ((PageTables.pooled statics s (pageOf virt / 1024)).mem statics.pageDirectory
        (pageOf virt / 1024))) _ _
  rw [counted, frame, store_straight ((made (pool_small room)).trans fresh)]

theorem Sound.unmapPageUnder_eq (sound : Sound statics s) {virt : UInt32}
    (straight : ∀ frame ∈ s.worksOn statics (.unmapPage virt), s.reached dir frame = some frame) :
    s.unmapPageUnder statics dir virt = s.vmmUnmapPage statics virt := by
  have directory := straight _ List.mem_cons_self
  have table : HasFlag (s.mem statics.pageDirectory (pageOf virt / 1024)) pagePresent →
      s.reached dir (entryFrame (s.mem statics.pageDirectory (pageOf virt / 1024))) =
        some (entryFrame (s.mem statics.pageDirectory (pageOf virt / 1024))) := by
    intro present
    refine straight _ (List.mem_cons_of_mem _ ?_)
    rw [tableFor, if_pos present]
    exact List.mem_singleton_self _
  unfold unmapPageUnder vmmUnmapPage
  dsimp only
  rw [load_straight directory]
  by_cases below : pageOf virt / 1024 < identityTableCount
  · have low := sound.low _ (kernel_isDir statics s) _ below
    rw [low, lowEntry_frame statics below] at table
    rw [if_pos below, if_pos below, store_straight (table (lowEntry_present statics _))]
  rw [if_neg below, if_neg below]
  by_cases present : HasFlag (s.mem statics.pageDirectory (pageOf virt / 1024)) pagePresent
  · rw [if_pos present, if_pos present, store_straight (table present)]
  · rw [if_neg present, if_neg present]

theorem createUnder_eq
    (straight : ∀ frame ∈ s.worksOn statics .create, s.reached dir frame = some frame) :
    s.createUnder statics dir = s.vmmCreateAddressSpace statics := by
  have directory := straight _ List.mem_cons_self
  have words : s.newDirectoryUnder statics dir = s.newDirectory statics := by
    funext index
    unfold newDirectoryUnder newDirectory
    rw [load_straight directory]
  unfold createUnder vmmCreateAddressSpace
  cases allocated : s.pmm.allocFrame with
  | mk taken pmm =>
      cases taken with
      | none => rfl
      | some pd =>
          have there := straight pd (List.mem_cons_of_mem _ (by
            rw [allocated]
            exact List.mem_singleton_self _))
          dsimp only
          rw [there, words]

theorem Sound.mapPageInUnder_eq (sound : Sound statics s) (isDir : IsDir statics s dir) {pd : Nat}
    (space : pd ∈ s.spaces) {virt : UInt32} (phys flags : UInt32)
    (straight : ∀ frame ∈ s.worksOn statics (.mapPageIn pd virt phys flags),
      s.reached dir frame = some frame) :
    s.mapPageInUnder dir pd virt phys flags = s.vmmMapPageIn pd virt phys flags := by
  have directory := straight _ List.mem_cons_self
  have small : pd < 1024 * 1024 := (sound.dynamic pd space).2.1
  unfold mapPageInUnder vmmMapPageIn
  dsimp only
  rw [load_straight directory]
  by_cases present : HasFlag (s.mem pd (pageOf virt / 1024)) pagePresent
  · have table : entryFrame (s.mem pd (pageOf virt / 1024)) ∈
        s.worksOn statics (.mapPageIn pd virt phys flags) := by
      refine List.mem_cons_of_mem _ ?_
      rw [tableFor, if_pos present]
      exact List.mem_singleton_self _
    rw [if_neg (not_not.mpr present), if_neg (not_not.mpr present),
      store_straight (straight _ table)]
  rw [if_pos present, if_pos present]
  cases allocated : s.pmm.allocFrame with
  | mk taken pmm =>
      cases taken with
      | none => rfl
      | some table =>
          have isDirPd : IsDir statics s pd := Or.inr space
          have above : ¬pageOf virt / 1024 < identityTableCount := by
            intro below
            rw [sound.low pd isDirPd _ below] at present
            exact present (lowEntry_present statics _)
          have gives := Pmm.allocFrame_gives allocated
          have unused := sound.free_unused gives.wasFree
          rcases sound.gives gives with ⟨_, inside, _, marked, few⟩
          have different : pd ≠ table := fun same => unused.noDir (Or.inr (same ▸ space))
          have fresh : s.reached dir table = some table := by
            refine straight _ (List.mem_cons_of_mem _ ?_)
            rw [tableFor, if_neg present, allocated]
            exact List.mem_singleton_self _
          have sound₁ : Sound statics { s with pmm := pmm } := sound.withPmm marked few
          have unused₁ : Unused statics { s with pmm := pmm } table := ⟨unused.noDir, unused.noTable⟩
          have absent := sound.absent_zero isDirPd (IsHigh.of_page above) present
          have cleared : (({ s with pmm := pmm } : PageTables).clear table).reached dir pd = some pd :=
            (reached_congr (translate_clear (s := { s with pmm := pmm }) isDir unused₁ small)).trans
              directory
          have made : ∀ {page : Nat}, page < 1024 * 1024 →
              (({ s with pmm := pmm } : PageTables).withTable pd (pageOf virt / 1024) table
                (pagePresent ||| pageRw ||| pageUser)).reached dir page = s.reached dir page :=
            fun below => reached_congr (sound₁.translate_withTable isDirPd absent unused₁ inside
              (Or.inr rfl) isDir below)
          have entry : (({ s with pmm := pmm } : PageTables).withTable pd (pageOf virt / 1024) table
              (pagePresent ||| pageRw ||| pageUser)).mem pd (pageOf virt / 1024) =
              tableEntry table (pagePresent ||| pageRw ||| pageUser) := by
            rw [withTable_dir _ _ _ different, Function.update_self]
          have frame : entryFrame (tableEntry table (pagePresent ||| pageRw ||| pageUser)) = table :=
            tableEntry_frame inside (Or.inr rfl)
          dsimp only
          rw [wipe_straight (show ({ s with pmm := pmm } : PageTables).reached dir table = _ from fresh),
            store_straight cleared]
          change (({ s with pmm := pmm } : PageTables).withTable pd (pageOf virt / 1024) table
              (pagePresent ||| pageRw ||| pageUser)).store dir (entryFrame
              ((({ s with pmm := pmm } : PageTables).withTable pd (pageOf virt / 1024) table
                (pagePresent ||| pageRw ||| pageUser)).load dir pd (pageOf virt / 1024))) _ _ =
            (({ s with pmm := pmm } : PageTables).withTable pd (pageOf virt / 1024) table
              (pagePresent ||| pageRw ||| pageUser)).setWord (entryFrame
              ((({ s with pmm := pmm } : PageTables).withTable pd (pageOf virt / 1024) table
                (pagePresent ||| pageRw ||| pageUser)).mem pd (pageOf virt / 1024))) _ _
          rw [load_straight ((made small).trans directory), entry, frame,
            store_straight ((made inside).trans fresh)]

/-- A straight call does what it does to the frames themselves. -/
theorem Sound.performUnder_eq (sound : Sound statics s) {use : Use}
    (straight : s.Straight statics use) :
    s.performUnder statics use = s.perform statics use.call := by
  rcases use with ⟨dir, call⟩
  rcases straight with ⟨isDir, straight⟩
  cases call with
  | mapPage virt phys flags => exact sound.mapPageUnder_eq isDir phys flags straight
  | unmapPage virt => exact sound.unmapPageUnder_eq straight
  | create => exact createUnder_eq straight
  | mapPageIn pd virt phys flags =>
      unfold performUnder PageTables.perform
      dsimp only
      split_ifs with space
      · exact sound.mapPageInUnder_eq isDir space phys flags straight
      · rfl

theorem Sound.performUnder (s : PageTables) (use : Use) (sound : Sound statics s)
    (straight : s.Straight statics use) : Sound statics (s.performUnder statics use) := by
  rw [sound.performUnder_eq straight]
  exact sound.perform use.call

end Under

/-- In every run of straight calls, mapping a page in a directory that was created by a straight
call maps it there and leaves all other pages of all directories exactly when it is above the first
gigabyte or translates so already. -/
theorem mapping_frame_iff (statics : Statics) (bytes : UInt32) (mem : Nat → Nat → UInt32)
    (uses : List Use) (straight : Machine.Always (PageTables.performUnder statics)
      (PageTables.Straight statics) (vmmInit statics (Pmm.init bytes) mem) uses)
    {pd : Nat} (space : pd ∈ (Machine.after (PageTables.performUnder statics)
      (vmmInit statics (Pmm.init bytes) mem) uses).spaces) (virt phys flags : UInt32) (dir : Nat)
    (last : (Machine.after (PageTables.performUnder statics) (vmmInit statics (Pmm.init bytes) mem)
      uses).Straight statics ⟨dir, .mapPageIn pd virt phys flags⟩) :
    MapsPageIn statics (Machine.after (PageTables.performUnder statics)
        (vmmInit statics (Pmm.init bytes) mem) uses)
      ((Machine.after (PageTables.performUnder statics) (vmmInit statics (Pmm.init bytes) mem)
        uses).performUnder statics ⟨dir, .mapPageIn pd virt phys flags⟩) pd virt phys flags ↔
      Private (Machine.after (PageTables.performUnder statics)
        (vmmInit statics (Pmm.init bytes) mem) uses) pd virt phys flags := by
  have sound := Machine.Always.after Sound.performUnder (init_sound statics bytes mem) straight
  rw [sound.performUnder_eq last, PageTables.perform, if_pos space]
  exact sound.mapsPageIn_iff space virt phys flags

/-! ## A first process -/

section First

variable {statics : Statics} {s : PageTables} {dir frame : Nat}

/-- A page of the first gigabyte whose entry is that of the identity map leads to its frame. -/
theorem Sound.reached_identity (sound : Sound statics s) (isDir : IsDir statics s dir)
    (low : frame / 1024 < identityTableCount) {flags : UInt32} (known : TableFlags flags)
    (entry : s.mem (statics.pageTables + frame / 1024) (frame % 1024) = tableEntry frame flags) :
    s.reached dir frame = some frame := by
  have small : frame < maxFrames := by
    rw [identityTableCount] at low
    rw [maxFrames]
    omega
  rw [reached, translate, sound.low dir isDir _ low, lowEntry_frame statics low, entry, combine,
    if_pos ⟨lowEntry_present statics _, tableEntry_present _ known⟩]
  exact congrArg some (tableEntry_frame small known)

/-- The tables of the first gigabyte are those of the identity map at boot. -/
theorem init_identity (statics : Statics) (pmm : Pmm) (mem : Nat → Nat → UInt32) (frame : Nat)
    (low : frame / 1024 < identityTableCount) :
    ∃ flags, TableFlags flags ∧ (vmmInit statics pmm mem).mem (statics.pageTables + frame / 1024)
      (frame % 1024) = tableEntry frame flags := by
  refine ⟨if frame / 1024 < kernelTableCount then pagePresent ||| pageRw
    else pagePresent ||| pageRw ||| pageUser, ?_, ?_⟩
  · split_ifs
    · exact Or.inl rfl
    · exact Or.inr rfl
  · have apart := statics.directoryApart
    have split : frame / 1024 * 1024 + frame % 1024 = frame := by omega
    unfold vmmInit
    dsimp only
    rw [if_neg (by omega), if_pos ⟨Nat.le_add_right _ _, by omega⟩, Nat.add_sub_cancel_left, split]
    rfl

/-- The frames of a machine with less than a gigabyte lie in the identity map. -/
theorem low_of_lt (below : frame < 0x40000) : frame / 1024 < identityTableCount := by
  rw [identityTableCount]
  omega

end First

def booted : PageTables := vmmInit someStatics (Pmm.init 0x10000000) fun _ _ => 0

def firstSpace : PageTables :=
  Machine.after (PageTables.performUnder someStatics) booted [⟨300, .create⟩]

theorem booted_sound : Sound someStatics booted := init_sound someStatics 0x10000000 fun _ _ => 0

theorem booted_straight : booted.Straight someStatics ⟨300, .create⟩ := by
  refine ⟨kernel_isDir someStatics booted, fun frame member => ?_⟩
  have below : frame < 0x40000 := by
    rcases List.mem_cons.mp member with rfl | taken
    · decide
    · rw [show booted.pmm.allocFrame.1 = some Pmm.reservedFrames from
        Pmm.init_alloc (by decide)] at taken
      rw [List.mem_singleton.mp taken]
      decide
  rcases init_identity someStatics (Pmm.init 0x10000000) (fun _ _ => 0) frame (low_of_lt below)
    with ⟨flags, known, entry⟩
  exact booted_sound.reached_identity (kernel_isDir someStatics booted) (low_of_lt below) known entry

/-- The first space is the first frame behind the kernel, and everything else is as at boot. -/
theorem firstSpace_eq : firstSpace =
    { booted with
      pmm := (Pmm.init 0x10000000).allocFrame.2
      mem := Function.update booted.mem Pmm.reservedFrames (booted.newDirectory someStatics)
      spaces := [Pmm.reservedFrames] } := by
  have after := create_after_init someStatics (show Pmm.reservedFrames < Pmm.frameCount 0x10000000 by
    decide) fun _ _ => 0
  rw [Machine.after, List.foldl_cons, List.foldl_nil] at after
  rw [firstSpace, Machine.after, List.foldl_cons, List.foldl_nil,
    booted_sound.performUnder_eq booted_straight]
  exact after

theorem firstSpace_sound : Sound someStatics firstSpace := by
  rw [firstSpace, Machine.after, List.foldl_cons, List.foldl_nil]
  exact Sound.performUnder booted _ booted_sound booted_straight

theorem firstSpace_mem : Pmm.reservedFrames ∈ firstSpace.spaces := by
  rw [firstSpace_eq]
  exact List.mem_singleton_self _

theorem firstSpace_reached {frame : Nat} (below : frame < 0x40000) :
    firstSpace.reached 300 frame = some frame := by
  rcases init_identity someStatics (Pmm.init 0x10000000) (fun _ _ => 0) frame (low_of_lt below)
    with ⟨flags, known, entry⟩
  refine firstSpace_sound.reached_identity (kernel_isDir someStatics _) (low_of_lt below) known ?_
  have apart : someStatics.pageTables + frame / 1024 ≠ Pmm.reservedFrames := by
    have tables := someStatics.tablesInside
    have low := low_of_lt below
    omega
  rw [firstSpace_eq]
  dsimp only
  rw [Function.update_of_ne apart]
  exact entry

/-- The next frame that is allocated lies in the identity map as well. -/
theorem firstSpace_alloc {table : Nat} (taken : table ∈ firstSpace.pmm.allocFrame.1.toList) :
    table < 0x40000 := by
  have total : firstSpace.pmm.totalFrames = 0x10000 := by
    rw [firstSpace_eq]
    have first := Pmm.init_alloc (show Pmm.reservedFrames < Pmm.frameCount 0x10000000 by decide)
    rcases allocated : (Pmm.init 0x10000000).allocFrame with ⟨given, left⟩
    rw [allocated] at first
    cases first
    exact (Pmm.allocFrame_gives allocated).totalFrames
  rcases allocated : firstSpace.pmm.allocFrame with ⟨given, left⟩
  rw [allocated] at taken
  cases given with
  | none => cases taken
  | some other =>
      have inside := (Pmm.allocFrame_gives allocated).inside
      rw [total] at inside
      rw [List.mem_singleton.mp taken]
      omega

/-- A first space is created, and a page above the first gigabyte is mapped in it. -/
theorem mapping_frame_iff_first :
    MapsPageIn someStatics firstSpace (firstSpace.performUnder someStatics
      ⟨300, .mapPageIn Pmm.reservedFrames 0x40000000 0x09000000 7⟩)
      Pmm.reservedFrames 0x40000000 0x09000000 7 := by
  have absent : ¬HasFlag (firstSpace.mem Pmm.reservedFrames (pageOf 0x40000000 / 1024))
      pagePresent := by
    rw [firstSpace_eq]
    decide +kernel
  have last : firstSpace.Straight someStatics
      ⟨300, .mapPageIn Pmm.reservedFrames 0x40000000 0x09000000 7⟩ := by
    refine ⟨kernel_isDir someStatics _, fun frame member => firstSpace_reached ?_⟩
    rcases List.mem_cons.mp member with rfl | table
    · decide
    · rw [tableFor, if_neg absent] at table
      exact firstSpace_alloc table
  exact (mapping_frame_iff someStatics 0x10000000 (fun _ _ => 0) [⟨300, .create⟩]
    ⟨booted_straight, trivial⟩ firstSpace_mem 0x40000000 0x09000000 7 300 last).mpr
      (Or.inl (by decide))

/-- A page below the first gigabyte that is mapped in a directory is mapped in that of the kernel as
well. -/
theorem shared_table_changed :
    ¬MapsPageIn someStatics firstSpace (firstSpace.performUnder someStatics
      ⟨300, .mapPageIn Pmm.reservedFrames 0x08000000 0x09000000 7⟩)
      Pmm.reservedFrames 0x08000000 0x09000000 7 := by
  have entry : firstSpace.mem Pmm.reservedFrames (pageOf 0x08000000 / 1024) =
      lowEntry someStatics (pageOf 0x08000000 / 1024) :=
    firstSpace_sound.low _ (Or.inr firstSpace_mem) _ (by decide)
  have straight : firstSpace.Straight someStatics
      ⟨300, .mapPageIn Pmm.reservedFrames 0x08000000 0x09000000 7⟩ := by
    refine ⟨kernel_isDir someStatics _, fun frame member => firstSpace_reached ?_⟩
    rcases List.mem_cons.mp member with rfl | table
    · decide
    · rw [tableFor, entry, if_pos (lowEntry_present someStatics _),
        lowEntry_frame someStatics (by decide)] at table
      rw [List.mem_singleton.mp table]
      decide
  rw [firstSpace_sound.performUnder_eq straight, PageTables.perform, if_pos firstSpace_mem,
    firstSpace_sound.mapsPageIn_low firstSpace_mem (by decide), firstSpace_eq]
  decide +kernel

end PageTables

end Trinux
