import Trinux.Kernel.LoaderReads
import Trinux.Mm.Mappings

namespace Trinux

/-!
# The break of a process

`SYS_BRK` maps pages up to a new break, between the start of the heap and a limit below the stacks
of programs.  The start is the end of the highest segment of an image, and the loaders compare it
neither with that limit nor with the end of the kernel.
-/

def brkMaxAddr : UInt32 := 0x0E000000

def userFlags : UInt32 := pagePresent ||| pageRw ||| pageUser

/-- A process: the page tables, the frame of its directory, and what `elf_execve` changes. -/
structure BrkProcess where
  tables : PageTables
  pageDir : Nat
  exec : ExecState

def PageTables.mapPages (s : PageTables) (pd : Nat) (pages : List UInt32) : PageTables :=
  pages.foldl (fun s page => s.vmmMapPageIn pd page page userFlags) s

def brkPages (oldBrk newBrk : UInt32) : List UInt32 :=
  let startPg := (oldBrk + 0xFFF) &&& ~~~0xFFF
  let endPg := (newBrk + 0xFFF) &&& ~~~0xFFF
  (List.range ((endPg.toNat - startPg.toNat) / 0x1000)).map fun k =>
    startPg + UInt32.ofNat (0x1000 * k)

namespace BrkProcess

def sysBrk (p : BrkProcess) (newBrk : UInt32) : UInt32 × BrkProcess :=
  if p.exec.heapStart = 0 then (0, p)
  else if newBrk = 0 then (p.exec.heapBrk, p)
  else if newBrk < p.exec.heapStart ∨ brkMaxAddr ≤ newBrk then (0, p)
  else
    (p.exec.heapBrk, { p with
      tables := if p.exec.heapBrk < newBrk then
        p.tables.mapPages p.pageDir (brkPages p.exec.heapBrk newBrk) else p.tables
      exec := { p.exec with heapBrk := newBrk } })

def ownCall (p : BrkProcess) (call : ExecveCall) : ExecveCall :=
  { call with current := true, pageDir := addressOf p.pageDir }

def sysExecve (p : BrkProcess) (call : ExecveCall) : BrkProcess :=
  let exec := (({ p.exec with mapped := [] } : ExecState).elfExecve (p.ownCall call)).2
  { p with
    tables := p.tables.mapPages p.pageDir exec.mapped
    exec := exec }

/-- The process behind an `elf_exec_argv_inner` that has placed all segments. -/
def loaded (tables : PageTables) (pageDir nest : Nat) (name : List UInt8) (l : ElfLoad) :
    BrkProcess :=
  let heapStart := if 0 < l.maxEnd then (l.maxEnd + 0x1000) &&& ~~~0xFFF else 0
  { tables := tables.mapPages pageDir (l.mapped ++
      pagesOf (userStackTop nest - userStackSize) (userStackTop nest))
    pageDir := pageDir
    exec := ExecState.start l.memory heapStart heapStart name }

inductive Event where
  | stores (memory : Memory)
  | brk (newBrk : UInt32)
  | execve (call : ExecveCall)

def step (p : BrkProcess) : Event → BrkProcess
  | .stores memory => { p with exec := { p.exec with memory := memory } }
  | .brk newBrk => (p.sysBrk newBrk).2
  | .execve call => p.sysExecve call

end BrkProcess

def UserWritable (s : PageTables) (pd page : Nat) : Prop :=
  ∃ t, s.translate pd page = some t ∧ t.rw = true ∧ t.user = true

def StackPage (page : Nat) : Prop := 0x0E7F0000 ≤ page * 4096 ∧ page * 4096 < 0x0F000000

/-- What is promised of the heap of a process with an image: the break lies between the start and
the limit, the pages from the start to the break are those of the program, and `SYS_BRK` maps no
page of a stack, and nothing at all if it returns zero. -/
structure HeapRight (p : BrkProcess) : Prop where
  low : p.exec.heapStart ≤ p.exec.heapBrk
  high : p.exec.heapBrk < brkMaxAddr
  pages : ∀ page, p.exec.heapStart.toNat < (page + 1) * 4096 →
    page * 4096 < p.exec.heapBrk.toNat → UserWritable p.tables p.pageDir page
  stack : ∀ newBrk page, StackPage page →
    (p.sysBrk newBrk).2.tables.translate p.pageDir page = p.tables.translate p.pageDir page
  refused : ∀ newBrk, (p.sysBrk newBrk).1 = 0 → (p.sysBrk newBrk).2 = p

/-- The image of the file in a block leaves room for a heap: no segment lies over the file or its
headers, all of them end below the limit, and one of them ends at the last page of the kernel or
above it, unless none of them has an end. -/
structure ImageFits (m : Memory) (buf got : UInt32) : Prop where
  undisturbed : ElfLoad.Undisturbed m buf got
  below : ∀ h ∈ m.segments buf, (h.pVaddr + h.pMemsz).toNat + 0x1000 < brkMaxAddr.toNat
  above : (∃ h ∈ m.segments buf, kernelEndVirt ≤ (h.pVaddr + h.pMemsz).toNat + 0x1000) ∨
    ∀ h ∈ m.segments buf, h.pVaddr + h.pMemsz = 0

def BrkProcess.Proper (p : BrkProcess) : BrkProcess.Event → Prop
  | .execve call => ∀ file m buf, call.file = some file →
      execveReady p.exec.memory (p.ownCall call) = some (m, buf) → ImageFits m buf file.got
  | _ => True

/-! ## Mapping pages in the first gigabyte -/

namespace PageTables

section Pages

variable {statics : Statics} {s : PageTables} {pd page : Nat} {virt : UInt32}

def UserTable (page : Nat) : Prop :=
  kernelTableCount ≤ page / 1024 ∧ page / 1024 < identityTableCount

theorem mapPageIn_spaces (s : PageTables) (pd : Nat) (virt phys flags : UInt32) :
    (s.vmmMapPageIn pd virt phys flags).spaces = s.spaces := by
  rw [mapPageIn_eq]
  unfold PageTables.readied
  by_cases present : HasFlag (s.mem pd (pageOf virt / 1024)) pagePresent
  · rw [if_pos present]
    rfl
  · rw [if_neg present]
    rcases s.pmm.allocFrame with ⟨frame, pmm⟩
    cases frame with
    | none => rfl
    | some table => rfl

theorem Sound.mapPageIn_other (sound : Sound statics s) (space : pd ∈ s.spaces)
    (phys flags : UInt32) (inside : page < 1024 * 1024) (other : page ≠ pageOf virt) :
    (s.vmmMapPageIn pd virt phys flags).translate pd page = s.translate pd page := by
  cases ready : s.readied pd virt with
  | none =>
      rw [mapPageIn_eq, ready]
      rfl
  | some s' =>
      rw [sound.mapPageIn_translate space ready phys flags (Or.inr space) inside,
        if_neg fun both => other both.1]

theorem Sound.mapPageIn_user (sound : Sound statics s) (space : pd ∈ s.spaces)
    (table : UserTable (pageOf virt)) (phys : UInt32) :
    UserWritable (s.vmmMapPageIn pd virt phys userFlags) pd (pageOf virt) := by
  have isDir : IsDir statics s pd := Or.inr space
  have entry := sound.low pd isDir _ table.2
  unfold UserWritable
  rw [sound.mapPageIn_translate space (sound.readied_low space table.2) phys userFlags isDir
    (pageOf_lt virt), if_pos ⟨rfl, Or.inl table.2⟩, entry,
    combine_page (lowEntry_present statics _) (lowEntry_rw statics _)]
  have write : HasFlag userFlags pageRw := by decide
  have user : HasFlag userFlags pageUser := by decide
  exact ⟨_, rfl, decide_eq_true write, decide_eq_true ⟨(lowEntry_user statics _).mpr table.1, user⟩⟩

theorem Sound.mapPages (sound : Sound statics s) (space : pd ∈ s.spaces) (pages : List UInt32) :
    Sound statics (s.mapPages pd pages) ∧ pd ∈ (s.mapPages pd pages).spaces := by
  induction pages generalizing s with
  | nil => exact ⟨sound, space⟩
  | cons virt rest known =>
      apply known (sound.mapPageIn space virt virt userFlags)
      rw [mapPageIn_spaces]
      exact space

theorem Sound.mapPages_other (sound : Sound statics s) (space : pd ∈ s.spaces)
    {pages : List UInt32} (inside : page < 1024 * 1024)
    (other : ∀ virt ∈ pages, page ≠ pageOf virt) :
    (s.mapPages pd pages).translate pd page = s.translate pd page := by
  induction pages generalizing s with
  | nil => rfl
  | cons virt rest known =>
      rw [List.forall_mem_cons] at other
      have space' : pd ∈ (s.vmmMapPageIn pd virt virt userFlags).spaces := by
        rw [mapPageIn_spaces]
        exact space
      have later := known (sound.mapPageIn space virt virt userFlags) space' other.2
      have first := sound.mapPageIn_other space virt userFlags inside other.1
      exact later.trans first

/-- A page of the program stays one, and one that is mapped becomes one. -/
theorem Sound.mapPages_user (sound : Sound statics s) (space : pd ∈ s.spaces)
    {pages : List UInt32} (table : UserTable page)
    (either : UserWritable s pd page ∨ ∃ virt ∈ pages, page = pageOf virt) :
    UserWritable (s.mapPages pd pages) pd page := by
  induction pages generalizing s with
  | nil =>
      apply either.resolve_right
      rintro ⟨virt, impossible, _⟩
      exact absurd impossible List.not_mem_nil
  | cons virt rest known =>
      have space' : pd ∈ (s.vmmMapPageIn pd virt virt userFlags).spaces := by
        rw [mapPageIn_spaces]
        exact space
      apply known (sound.mapPageIn space virt virt userFlags) space'
      by_cases here : page = pageOf virt
      · rw [here] at table ⊢
        exact Or.inl (sound.mapPageIn_user space table virt)
      · rcases either with kept | ⟨mapped, member, same⟩
        · left
          have limit : identityTableCount = 256 := rfl
          have inside := table.2
          unfold UserWritable
          rw [sound.mapPageIn_other space virt userFlags (by omega) here]
          exact kept
        · right
          rcases List.mem_cons.mp member with rfl | behind
          · exact absurd same here
          · exact ⟨mapped, behind, same⟩

end Pages

end PageTables

/-! ## The pages of a larger break -/

theorem page_start (x : UInt32) : (x &&& ~~~0xFFF).toNat = x.toNat / 4096 * 4096 :=
  @and_high_toNat x (~~~0xFFF) 12 (by decide) (by decide)

section Break

variable {oldBrk newBrk virt : UInt32} {page : Nat}

theorem page_stop (small : oldBrk.toNat < 0x0E000000) :
    ((oldBrk + 0xFFF) &&& ~~~0xFFF).toNat = (oldBrk.toNat + 4095) / 4096 * 4096 := by
  have offset : (0xFFF : UInt32).toNat = 4095 := rfl
  rw [page_start, UInt32.toNat_add, offset, Nat.mod_eq_of_lt (by omega)]

theorem mem_brkPages (oldSmall : oldBrk.toNat < 0x0E000000) (newSmall : newBrk.toNat < 0x0E000000) :
    virt ∈ brkPages oldBrk newBrk ↔ ∃ page, virt.toNat = page * 4096 ∧
      oldBrk.toNat ≤ page * 4096 ∧ page * 4096 < newBrk.toNat := by
  have start := page_stop oldSmall
  have stop := page_stop newSmall
  unfold brkPages
  rw [List.mem_map]
  generalize (oldBrk + 0xFFF) &&& ~~~0xFFF = first at *
  generalize (newBrk + 0xFFF) &&& ~~~0xFFF = last at *
  constructor
  · rintro ⟨k, inside, rfl⟩
    rw [List.mem_range] at inside
    refine ⟨(oldBrk.toNat + 4095) / 4096 + k, ?_, by omega, by omega⟩
    rw [toNat_add_ofNat (by omega), start]
    omega
  · rintro ⟨page, place, low, high⟩
    refine ⟨page - (oldBrk.toNat + 4095) / 4096, ?_, ?_⟩
    · rw [List.mem_range]
      omega
    · apply UInt32.toNat_inj.mp
      rw [toNat_add_ofNat (by omega), start, place]
      omega

end Break

/-! ## The end of an image -/

def highestEnd (start : UInt32) (hs : List Elf32Phdr) : UInt32 :=
  hs.foldl (fun last h => if last < h.pVaddr + h.pMemsz then h.pVaddr + h.pMemsz else last) start

theorem highestEnd_lt {start : UInt32} {hs : List Elf32Phdr} {b : Nat} (first : start.toNat < b)
    (all : ∀ h ∈ hs, (h.pVaddr + h.pMemsz).toNat < b) : (highestEnd start hs).toNat < b := by
  induction hs generalizing start with
  | nil => exact first
  | cons h rest known =>
      rw [List.forall_mem_cons] at all
      apply known _ all.2
      show (if start < h.pVaddr + h.pMemsz then h.pVaddr + h.pMemsz else start).toNat < b
      split
      · exact all.1
      · exact first

theorem le_highestEnd {start : UInt32} {hs : List Elf32Phdr} {b : Nat}
    (some' : b ≤ start.toNat ∨ ∃ h ∈ hs, b ≤ (h.pVaddr + h.pMemsz).toNat) :
    b ≤ (highestEnd start hs).toNat := by
  induction hs generalizing start with
  | nil =>
      apply some'.resolve_right
      rintro ⟨h, impossible, _⟩
      exact absurd impossible List.not_mem_nil
  | cons h rest known =>
      apply known
      have higher : start.toNat ≤ (if start < h.pVaddr + h.pMemsz then h.pVaddr + h.pMemsz
            else start).toNat ∧
          (h.pVaddr + h.pMemsz).toNat ≤ (if start < h.pVaddr + h.pMemsz then h.pVaddr + h.pMemsz
            else start).toNat := by
        split
        · rename_i less
          exact ⟨(UInt32.lt_iff_toNat_lt.mp less).le, Nat.le_refl _⟩
        · rename_i more
          exact ⟨Nat.le_refl _, UInt32.le_iff_toNat_le.mp (UInt32.not_lt.mp more)⟩
      rcases some' with low | ⟨g, member, low⟩
      · exact Or.inl (low.trans higher.1)
      · rcases List.mem_cons.mp member with rfl | behind
        · exact Or.inl (low.trans higher.2)
        · exact Or.inr ⟨g, behind, low⟩

/-- The loop over the headers finds it, if it refuses no segment. -/
theorem ElfLoad.segmentLoop_maxEnd {m : Memory} {l : ElfLoad} {buf got pageDir : UInt32}
    {refuses copies : Elf32Phdr → Bool} (whole : 52 ≤ got.toNat)
    (undisturbed : Undisturbed m buf got) (same : ∀ a, m.InFile buf got a → l.memory a = m a)
    {fuel i : Nat} (enough : (m.readEhdr buf).ePhnum.toNat ≤ fuel + i)
    (accepted : ∀ h ∈ m.segmentsFrom buf i, refuses h = false) :
    (l.segmentLoop refuses copies buf pageDir fuel i).2.maxEnd =
      highestEnd l.maxEnd (m.segmentsFrom buf i) := by
  induction fuel generalizing l i with
  | zero =>
      rw [Memory.segmentsFrom_stop (by omega)]
      rfl
  | succ fuel known =>
      rw [segmentLoop]
      dsimp only
      rw [ehdr_kept whole same]
      by_cases inside : i < (m.readEhdr buf).ePhnum.toNat
      · rw [Memory.segmentsFrom_step inside] at accepted
        rw [if_pos inside, phdr_kept inside same, Memory.segmentsFrom_step inside]
        by_cases load : (m.phdrOf buf i).pType = ptLoad
        · rw [if_pos load] at accepted ⊢
          rw [List.forall_mem_cons] at accepted
          rw [if_neg (not_not.mpr load), if_neg (by rw [accepted.1]; exact Bool.false_ne_true),
            known (place_kept undisturbed same inside load _) (by omega) accepted.2]
          rfl
        · rw [if_neg load] at accepted ⊢
          rw [if_pos load]
          exact known same (by omega) accepted
      · rw [if_neg inside, Memory.segmentsFrom_stop (Nat.le_of_not_lt inside)]
        rfl

/-- Where an image fits, the heap begins behind the kernel and below the limit, or stays. -/
theorem ImageFits.heapStart {m : Memory} {buf got last : UInt32} (fits : ImageFits m buf got)
    (ends : last = highestEnd 0 (m.segments buf)) :
    last = 0 ∨ 0 < last ∧ kernelEndVirt ≤ ((last + 0x1000) &&& ~~~0xFFF).toNat ∧
      ((last + 0x1000) &&& ~~~0xFFF).toNat < brkMaxAddr.toNat := by
  have limit : brkMaxAddr.toNat = 234881024 := rfl
  have kernel : kernelEndVirt = 83886080 := rfl
  have zero : (0 : UInt32).toNat = 0 := rfl
  have page : (0x1000 : UInt32).toNat = 4096 := rfl
  have below : last.toNat < brkMaxAddr.toNat - 0x1000 := by
    rw [ends]
    apply highestEnd_lt (by rw [limit, zero]; omega)
    intro h member
    have less := fits.below h member
    omega
  rcases fits.above with ⟨h, member, high⟩ | none
  · right
    have above : kernelEndVirt - 0x1000 ≤ last.toNat := by
      rw [ends]
      exact le_highestEnd (Or.inr ⟨h, member, by omega⟩)
    have start : ((last + 0x1000) &&& ~~~0xFFF).toNat = (last.toNat + 4096) / 4096 * 4096 := by
      rw [page_start, UInt32.toNat_add, page, Nat.mod_eq_of_lt (by omega)]
    rw [start, UInt32.lt_iff_toNat_lt, zero]
    omega
  · left
    have small : last.toNat < 1 := by
      rw [ends]
      apply highestEnd_lt (by decide)
      intro h member
      rw [none h member]
      decide
    apply UInt32.toNat_inj.mp
    omega

/-! ## What the events keep -/

structure BrkProcess.Heap (p : BrkProcess) : Prop where
  kernel : kernelEndVirt ≤ p.exec.heapStart.toNat
  low : p.exec.heapStart ≤ p.exec.heapBrk
  high : p.exec.heapBrk < brkMaxAddr
  pages : ∀ page, p.exec.heapStart.toNat < (page + 1) * 4096 →
    page * 4096 < p.exec.heapBrk.toNat → UserWritable p.tables p.pageDir page

/-- The directories are apart, that of the process was created, and an image has a heap. -/
structure BrkProcess.Holds (statics : Statics) (p : BrkProcess) : Prop where
  sound : PageTables.Sound statics p.tables
  space : p.pageDir ∈ p.tables.spaces
  heap : p.exec.heapStart ≠ 0 → p.Heap

def BrkProcess.moved (p : BrkProcess) (newBrk : UInt32) : BrkProcess :=
  { p with
    tables := if p.exec.heapBrk < newBrk then
      p.tables.mapPages p.pageDir (brkPages p.exec.heapBrk newBrk) else p.tables
    exec := { p.exec with heapBrk := newBrk } }

section Events

variable {statics : Statics} {p : BrkProcess} {newBrk : UInt32} {page : Nat}

theorem userTable_of_bounds {first last : Nat} (kernel : kernelEndVirt ≤ first)
    (high : last ≤ brkMaxAddr.toNat) (behind : first < (page + 1) * 4096)
    (below : page * 4096 < last) : PageTables.UserTable page := by
  have limit : brkMaxAddr.toNat = 234881024 := rfl
  have kernelEnd : kernelEndVirt = 83886080 := rfl
  have tables : kernelTableCount = 20 ∧ identityTableCount = 256 := ⟨rfl, rfl⟩
  unfold PageTables.UserTable
  omega

/-- A heap with the same bounds, whose pages are still those of the program. -/
theorem BrkProcess.Heap.same_bounds {p' : BrkProcess} (heap : p.Heap)
    (start : p'.exec.heapStart = p.exec.heapStart) (brk : p'.exec.heapBrk = p.exec.heapBrk)
    (kept : ∀ page, PageTables.UserTable page → UserWritable p.tables p.pageDir page →
      UserWritable p'.tables p'.pageDir page) : p'.Heap := by
  constructor
  case kernel =>
    rw [start]
    exact heap.kernel
  case low =>
    rw [start, brk]
    exact heap.low
  case high =>
    rw [brk]
    exact heap.high
  case pages =>
    intro page first below
    rw [start] at first
    rw [brk] at below
    have high : p.exec.heapBrk.toNat < brkMaxAddr.toNat := UInt32.lt_iff_toNat_lt.mp heap.high
    exact kept page (userTable_of_bounds heap.kernel high.le first below)
      (heap.pages page first below)

theorem sysBrk_cases (p : BrkProcess) (newBrk : UInt32) : (p.sysBrk newBrk).2 = p ∨
    p.exec.heapStart ≠ 0 ∧ p.exec.heapStart ≤ newBrk ∧ newBrk < brkMaxAddr ∧
      p.sysBrk newBrk = (p.exec.heapBrk, p.moved newBrk) := by
  unfold BrkProcess.sysBrk
  by_cases none : p.exec.heapStart = 0
  · rw [if_pos none]
    exact Or.inl rfl
  · rw [if_neg none]
    by_cases query : newBrk = 0
    · rw [if_pos query]
      exact Or.inl rfl
    · rw [if_neg query]
      by_cases outside : newBrk < p.exec.heapStart ∨ brkMaxAddr ≤ newBrk
      · rw [if_pos outside]
        exact Or.inl rfl
      · rw [if_neg outside]
        rw [not_or] at outside
        exact Or.inr ⟨none, UInt32.not_lt.mp outside.1, UInt32.not_le.mp outside.2, rfl⟩

theorem moved_heap (holds : p.Holds statics) (image : p.exec.heapStart ≠ 0)
    (low : p.exec.heapStart ≤ newBrk) (high : newBrk < brkMaxAddr) : (p.moved newBrk).Heap := by
  have heap := holds.heap image
  have limit : brkMaxAddr.toNat = 0x0E000000 := rfl
  have below : newBrk.toNat < brkMaxAddr.toNat := UInt32.lt_iff_toNat_lt.mp high
  have oldBelow : p.exec.heapBrk.toNat < brkMaxAddr.toNat := UInt32.lt_iff_toNat_lt.mp heap.high
  refine ⟨heap.kernel, low, high, ?_⟩
  intro page first last
  change p.exec.heapStart.toNat < (page + 1) * 4096 at first
  change page * 4096 < newBrk.toNat at last
  have table : PageTables.UserTable page :=
    userTable_of_bounds heap.kernel (below.le) first last
  show UserWritable (if p.exec.heapBrk < newBrk then
    p.tables.mapPages p.pageDir (brkPages p.exec.heapBrk newBrk) else p.tables) p.pageDir page
  by_cases grows : p.exec.heapBrk < newBrk
  · rw [if_pos grows]
    apply holds.sound.mapPages_user holds.space table
    by_cases old : page * 4096 < p.exec.heapBrk.toNat
    · exact Or.inl (heap.pages page first old)
    · right
      have place : (UInt32.ofNat (page * 4096)).toNat = page * 4096 := by
        rw [UInt32.toNat_ofNat', Nat.mod_eq_of_lt (by omega)]
      refine ⟨UInt32.ofNat (page * 4096), ?_, ?_⟩
      · rw [mem_brkPages (by omega) (by omega)]
        exact ⟨page, place, by omega, last⟩
      · rw [pageOf, place]
        omega
  · have shrinks : newBrk.toNat ≤ p.exec.heapBrk.toNat :=
      UInt32.le_iff_toNat_le.mp (UInt32.not_lt.mp grows)
    rw [if_neg grows]
    exact heap.pages page first (by omega)

theorem moved_holds (holds : p.Holds statics) (image : p.exec.heapStart ≠ 0)
    (low : p.exec.heapStart ≤ newBrk) (high : newBrk < brkMaxAddr) :
    (p.moved newBrk).Holds statics := by
  have mapped := holds.sound.mapPages holds.space (brkPages p.exec.heapBrk newBrk)
  refine ⟨?_, ?_, fun _ => moved_heap holds image low high⟩
  · unfold BrkProcess.moved
    dsimp only
    split
    · exact mapped.1
    · exact holds.sound
  · unfold BrkProcess.moved
    dsimp only
    split
    · exact mapped.2
    · exact holds.space

theorem BrkProcess.Holds.right (holds : p.Holds statics) (image : p.exec.heapStart ≠ 0) :
    HeapRight p := by
  have heap := holds.heap image
  refine ⟨heap.low, heap.high, heap.pages, ?_, ?_⟩
  · intro newBrk page stack
    rcases sysBrk_cases p newBrk with same | ⟨_, low, high, result⟩
    · rw [same]
    · rw [result]
      show (if p.exec.heapBrk < newBrk then
        p.tables.mapPages p.pageDir (brkPages p.exec.heapBrk newBrk)
          else p.tables).translate p.pageDir page = _
      by_cases grows : p.exec.heapBrk < newBrk
      · have limit : brkMaxAddr.toNat = 0x0E000000 := rfl
        have below : newBrk.toNat < brkMaxAddr.toNat := UInt32.lt_iff_toNat_lt.mp high
        have oldBelow : p.exec.heapBrk.toNat < newBrk.toNat := UInt32.lt_iff_toNat_lt.mp grows
        rcases stack with ⟨first, last⟩
        rw [if_pos grows]
        apply holds.sound.mapPages_other holds.space (by omega)
        intro virt member
        rw [mem_brkPages (by omega) (by omega)] at member
        rcases member with ⟨other, place, _, before⟩
        rw [pageOf, place]
        omega
      · rw [if_neg grows]
  · intro newBrk zero
    rcases sysBrk_cases p newBrk with same | ⟨_, _, _, result⟩
    · exact same
    · rw [result] at zero
      change p.exec.heapBrk = 0 at zero
      have low : p.exec.heapStart.toNat ≤ p.exec.heapBrk.toNat := UInt32.le_iff_toNat_le.mp heap.low
      rw [zero] at low
      exact absurd (UInt32.toNat_inj.mp (Nat.le_zero.mp low)) image

/-- A new image that fits has an empty heap, and other pages of programs stay. -/
theorem image_holds {tables : PageTables} {pd : Nat} {exec exec' : ExecState}
    (holds : (⟨tables, pd, exec⟩ : BrkProcess).Holds statics) {pages : List UInt32}
    {last : UInt32} {m : Memory} {buf got : UInt32} (fits : ImageFits m buf got)
    (ends : last = highestEnd 0 (m.segments buf))
    (start : exec'.heapStart = if 0 < last then (last + 0x1000) &&& ~~~0xFFF else exec.heapStart)
    (brk : exec'.heapBrk = if 0 < last then (last + 0x1000) &&& ~~~0xFFF else exec.heapBrk) :
    (⟨tables.mapPages pd pages, pd, exec'⟩ : BrkProcess).Holds statics := by
  have mapped := holds.sound.mapPages holds.space pages
  refine ⟨mapped.1, mapped.2, ?_⟩
  intro image
  change exec'.heapStart ≠ 0 at image
  rcases fits.heapStart ends with zero | ⟨positive, kernel, limit⟩
  · have none : ¬(0 : UInt32) < last := by
      rw [zero]
      decide
    rw [if_neg none] at start brk
    rw [start] at image
    exact (holds.heap image).same_bounds start brk fun page table kept =>
      holds.sound.mapPages_user holds.space table (Or.inl kept)
  · rw [if_pos positive] at start brk
    constructor
    case kernel =>
      show kernelEndVirt ≤ exec'.heapStart.toNat
      rw [start]
      exact kernel
    case low =>
      show exec'.heapStart ≤ exec'.heapBrk
      rw [start, brk]
      exact UInt32.le_refl _
    case high =>
      show exec'.heapBrk < brkMaxAddr
      rw [brk]
      exact UInt32.lt_iff_toNat_lt.mpr limit
    case pages =>
      intro page first below
      change exec'.heapStart.toNat < _ at first
      change _ < exec'.heapBrk.toNat at below
      rw [start, page_start] at first
      rw [brk, page_start] at below
      omega

theorem execve_holds (holds : p.Holds statics) {call : ExecveCall}
    (proper : p.Proper (.execve call)) : (p.sysExecve call).Holds statics := by
  unfold BrkProcess.sysExecve
  dsimp only
  rcases elfExecve_cases { p.exec with mapped := [] } (p.ownCall call) with
    ⟨_, failed, _⟩ | ⟨m, buf, s', entry, argCopy, ready, prepared, _, done⟩
  · have intact := ExecState.elfExecve_failsCleanly { p.exec with mapped := [] } (p.ownCall call)
      (Int.ne_of_lt failed)
    rw [intact.mapped]
    refine ⟨holds.sound, holds.space, ?_⟩
    intro image
    change ExecState.heapStart _ ≠ 0 at image
    rw [intact.heapStart] at image
    exact (holds.heap image).same_bounds intact.heapStart intact.heapBrk fun _ _ kept => kept
  · rw [done]
    cases found : call.file with
    | none =>
        unfold execveReady at ready
        rw [show (p.ownCall call).file = none from found] at ready
        cases ready
    | some file =>
        have fits := proper file m buf found ready
        cases taken : call.bufBlock with
        | none =>
            unfold execveReady at ready
            rw [show (p.ownCall call).file = some file from found,
              show (p.ownCall call).bufBlock = none from taken] at ready
            cases ready
        | some block =>
            have valid := (execveReady_some (show (p.ownCall call).file = some file from found)
              taken ready).2.2.2.1
            have enough : (m.readEhdr buf).ePhnum.toNat ≤ 65536 + 0 :=
              (m.readEhdr buf).ePhnum.toNat_lt.le
            have same : ∀ a, m.InFile buf file.got a → s'.memory.unloaded.memory a = m a := by
              intro a _
              rw [prepared.memory]
              rfl
            have ends : (s'.memory.unloaded.execveSegments buf (p.ownCall call).pageDir).maxEnd =
                highestEnd 0 (m.segments buf) :=
              ElfLoad.segmentLoop_maxEnd (valid_whole valid) fits.undisturbed same enough
                fun _ _ => rfl
            apply @image_holds _ p.tables p.pageDir p.exec _ holds _ _ _ _ _ fits ends
            · rw [← prepared.heapStart]
              rfl
            · rw [← prepared.heapBrk]
              rfl

theorem step_holds (holds : p.Holds statics) (event : BrkProcess.Event) (proper : p.Proper event) :
    (p.step event).Holds statics := by
  cases event with
  | stores memory =>
      refine ⟨holds.sound, holds.space, ?_⟩
      intro image
      exact (holds.heap image).same_bounds rfl rfl fun _ _ kept => kept
  | brk newBrk =>
      rcases sysBrk_cases p newBrk with same | ⟨image, low, high, result⟩
      · show (p.sysBrk newBrk).2.Holds statics
        rw [same]
        exact holds
      · show (p.sysBrk newBrk).2.Holds statics
        rw [result]
        exact moved_holds holds image low high
  | execve call => exact execve_holds holds proper

/-- A program that `elf_exec_argv_inner` accepts has an empty heap. -/
theorem loaded_holds {tables : PageTables} (sound : PageTables.Sound statics tables) {pd : Nat}
    (space : pd ∈ tables.spaces) {file : ElfFile} {buf : UInt32} {m : Memory} {l : ElfLoad}
    (accepted : elfExecArgvInner (some file) (some buf) (addressOf pd) m = (none, l))
    (fits : ImageFits (m.store buf file.bytes) buf file.got) (nest : Nat) (name : List UInt8) :
    (BrkProcess.loaded tables pd nest name l).Holds statics := by
  have valid : file.Valid ((m.store buf file.bytes).readEhdr buf) := by
    by_contra invalid
    exact elfExecArgvInner_invalid invalid (congrArg Prod.fst accepted)
  rw [elfExecArgvInner_valid valid] at accepted
  have enough : ((m.store buf file.bytes).readEhdr buf).ePhnum.toNat ≤ 65536 + 0 :=
    (Memory.readEhdr _ buf).ePhnum.toNat_lt.le
  have none' := (ElfLoad.segmentLoop_accepts_iff (valid_whole valid) fits.undisturbed
    (fun _ _ => rfl) enough).mp (congrArg Prod.fst accepted)
  have ends : ((m.store buf file.bytes).unloaded.execSegments buf file.got
      (addressOf pd)).2.maxEnd = highestEnd 0 ((m.store buf file.bytes).segments buf) :=
    ElfLoad.segmentLoop_maxEnd (valid_whole valid) fits.undisturbed (fun _ _ => rfl) enough none'
  rw [accepted] at ends
  have empty : (⟨tables, pd, ExecState.start m 0 0 name⟩ : BrkProcess).Holds statics :=
    ⟨sound, space, fun image => absurd rfl image⟩
  exact image_holds empty fits ends rfl rfl

end Events

/-- In every run of stores, `SYS_BRK` and `SYS_EXECVE` of a process whose program was accepted, as
long as each image that is accepted fits, the heap is right in every state with an image. -/
theorem heap_right (statics : Statics) (bytes : UInt32) (mem : Nat → Nat → UInt32)
    (calls : List PageTables.Call) {pd : Nat}
    (space : pd ∈ (Machine.after (PageTables.perform statics)
      (vmmInit statics (Pmm.init bytes) mem) calls).spaces)
    {file : ElfFile} {buf : UInt32} {m : Memory} {l : ElfLoad}
    (accepted : elfExecArgvInner (some file) (some buf) (addressOf pd) m = (none, l))
    (fits : ImageFits (m.store buf file.bytes) buf file.got) (nest : Nat) (name : List UInt8)
    (events : List BrkProcess.Event)
    (proper : Machine.Always BrkProcess.step BrkProcess.Proper
      (BrkProcess.loaded (Machine.after (PageTables.perform statics)
        (vmmInit statics (Pmm.init bytes) mem) calls) pd nest name l) events)
    (image : (Machine.after BrkProcess.step (BrkProcess.loaded (Machine.after
      (PageTables.perform statics) (vmmInit statics (Pmm.init bytes) mem) calls) pd nest name l)
        events).exec.heapStart ≠ 0) :
    HeapRight (Machine.after BrkProcess.step (BrkProcess.loaded (Machine.after
      (PageTables.perform statics) (vmmInit statics (Pmm.init bytes) mem) calls) pd nest name l)
        events) := by
  have start := loaded_holds (PageTables.run_sound statics bytes mem calls) space accepted fits nest
    name
  have holds := @Machine.Always.after _ _ BrkProcess.step (BrkProcess.Holds statics)
    BrkProcess.Proper (fun _ event known good => step_holds known event good) _ start _ proper
  exact holds.right image

def firstLoad (file : ElfFile) : Option Int × ElfLoad :=
  elfExecArgvInner (some file) (some 0x03000014) (addressOf Pmm.reservedFrames) fun _ => 0

def firstProcess (file : ElfFile) : BrkProcess :=
  BrkProcess.loaded (Machine.after (PageTables.perform PageTables.someStatics)
    (vmmInit PageTables.someStatics (Pmm.init 0x10000000) fun _ _ => 0) [.create])
    Pmm.reservedFrames 1 [] (firstLoad file).2

theorem heap_right_oneByte :
    HeapRight (Machine.after BrkProcess.step (firstProcess oneByteProgram) [.brk 0x08060000]) := by
  have none' : (firstLoad oneByteProgram).1 = none := by decide +kernel
  have accepted : firstLoad oneByteProgram = (none, (firstLoad oneByteProgram).2) := by
    generalize firstLoad oneByteProgram = r at none' ⊢
    exact Prod.ext none' rfl
  have fits : ImageFits (Memory.store (fun _ => 0) 0x03000014 oneByteProgram.bytes) 0x03000014
      oneByteProgram.got := by
    refine ⟨oneByte_undisturbed, ?_, Or.inl ⟨⟨1, 84, 0x08048000, 1, 1⟩, ?_, by decide⟩⟩
    · rw [oneByte_segments, List.forall_mem_singleton]
      decide
    · rw [oneByte_segments]
      exact List.mem_singleton_self _
  exact heap_right PageTables.someStatics 0x10000000 (fun _ _ => 0) [.create]
    (PageTables.first_space PageTables.someStatics (by decide) _) accepted fits 1 []
    [.brk 0x08060000] ⟨trivial, trivial⟩ (by decide +kernel)

def highProgram : ElfFile where
  executable := true
  size := 85
  content := [0x7F, 0x45, 0x4C, 0x46, 1, 1, 1, 0, 0, 0, 0, 0, 0, 0, 0, 0, 2, 0, 3, 0, 1, 0, 0, 0,
    0, 0, 0, 0x0E, 52, 0, 0, 0, 0, 0, 0, 0, 0, 0, 0, 0, 52, 0, 32, 0, 1, 0, 0, 0, 0, 0, 0, 0,
    1, 0, 0, 0, 84, 0, 0, 0, 0, 0, 0, 0x0E, 0, 0, 0, 0, 1, 0, 0, 0, 1, 0, 0, 0, 5, 0, 0, 0,
    0, 0x10, 0, 0, 0x90]

/-- It is accepted, and its heap begins behind the limit. -/
theorem heap_behind_limit :
    (firstLoad highProgram).1 = none ∧ (firstProcess highProgram).exec.heapStart ≠ 0 ∧
      ¬HeapRight (firstProcess highProgram) := by
  have brk : (firstProcess highProgram).exec.heapBrk = 0x0E001000 := by decide +kernel
  refine ⟨by decide +kernel, by decide +kernel, fun right => ?_⟩
  have high := right.high
  rw [brk] at high
  exact absurd high (by decide)

end Trinux
