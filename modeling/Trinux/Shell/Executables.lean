import Trinux.Shell.ElfImage
import Trinux.Shell.Tasm
import Trinux.Shell.TccLinking

namespace Trinux

/-!
# Which executables of the two compilers are loaded

The sizes of global variables come from the text.  Their area is laid out in 32-bit arithmetic, so
it is what the text asks for as long as the whole segment ends within the identity map; where it
does not, the loader refuses the file or some variable lies outside of the segment.
-/

namespace Tcc

open Bytes

/-! ## The area of the global variables -/

def roundUp (n : Nat) : Nat := (n + 3) / 4 * 4

/-- Variables laid out one behind the other, each at its place modulo 32 bits, and the bytes that
they ask for. -/
inductive Laid : List Global → Nat → Prop
  | nil : Laid [] 0
  | snoc {before : List Global} {n : Nat} {g : Global} : Laid before n →
      g.bssOff = UInt32.ofNat n → Laid (before ++ [g]) (n + roundUp g.declared)

def extent (globals : List Global) : Nat := (globals.map fun g => roundUp g.declared).sum

theorem Laid.extent {globals : List Global} {n : Nat} (laid : Laid globals n) :
    extent globals = n := by
  induction laid with
  | nil => rfl
  | snoc _ _ known =>
      unfold Tcc.extent at known ⊢
      rw [List.map_append, List.sum_append, known]
      rfl

theorem le_roundUp (n : Nat) : n ≤ roundUp n ∧ roundUp n ≤ n + 3 := by
  unfold roundUp
  omega

/-- As long as the area does not wrap, every variable is inside of it. -/
theorem Laid.inside {globals : List Global} {n : Nat} (laid : Laid globals n)
    (small : n < 2 ^ 32) : ∀ g ∈ globals, g.bssOff.toNat + g.declared ≤ n := by
  induction laid with
  | nil => intro g listed; cases listed
  | @snoc before n g _ place known =>
      have size := le_roundUp g.declared
      intro g' listed
      rcases List.mem_append.mp listed with old | new
      · have inside := known (by omega) g' old
        omega
      · rw [List.mem_singleton.mp new, place, UInt32.toNat_ofNat', Nat.mod_eq_of_lt (by omega)]
        omega

/-- Where the area is longer than a bound, the first variable beyond it ends there. -/
theorem Laid.beyond {globals : List Global} {n bound : Nat} (laid : Laid globals n)
    (small : bound < 2 ^ 32) (longer : bound < n) :
    ∃ g ∈ globals, g.bssOff.toNat ≤ bound ∧ bound < g.bssOff.toNat + g.declared + 3 := by
  induction laid with
  | nil => exact absurd longer (Nat.not_lt_zero bound)
  | @snoc before n g _ place known =>
      by_cases already : bound < n
      · rcases known already with ⟨g', listed, ends⟩
        exact ⟨g', List.mem_append_left _ listed, ends⟩
      · have size := le_roundUp g.declared
        refine ⟨g, List.mem_append_right _ (List.mem_singleton_self g), ?_⟩
        rw [place, UInt32.toNat_ofNat', Nat.mod_eq_of_lt (by omega)]
        omega

structure Placed (s : St) : Prop where
  code : s.cp ≤ maxCode
  data : s.data.length ≤ maxData
  area : ∃ n, Laid s.globals n ∧ s.bssSize = UInt32.ofNat n

theorem area_snoc (count width : UInt32) (n : Nat) (aligned : 4 ∣ n) :
    UInt32.ofNat ((UInt32.ofNat n + count * width + 3).toNat / 4 * 4) =
      UInt32.ofNat (n + roundUp (count.toNat * width.toNat)) := by
  apply UInt32.toNat_inj.mp
  unfold roundUp
  rw [UInt32.toNat_ofNat', UInt32.toNat_ofNat', UInt32.toNat_add, UInt32.toNat_add,
    UInt32.toNat_mul, UInt32.toNat_ofNat']
  change ((n % 2 ^ 32 + count.toNat * width.toNat % 2 ^ 32) % 2 ^ 32 + 3) % 2 ^ 32 / 4 * 4 % 2 ^ 32 =
    _
  generalize count.toNat * width.toNat = size
  rcases aligned with ⟨k, rfl⟩
  omega

theorem Laid.aligned {globals : List Global} {n : Nat} (laid : Laid globals n) : 4 ∣ n := by
  induction laid with
  | nil => exact Nat.dvd_zero 4
  | snoc _ _ known =>
      unfold roundUp
      omega

theorem Placed.codeOnly {s t : St} (placed : Placed s) (same : CodeOnly s t) : Placed t := by
  have small := same.small placed.code
  rcases same.same with ⟨code, cp, errCount, loopStack, fields, outside, dropped, rfl⟩
  exact ⟨small, placed.data, placed.area⟩

theorem Placed.addGlobal {s : St} (placed : Placed s) (name : List UInt8) (count width : UInt32)
    (shape : Shape) : Placed (s.addGlobal name count width shape) := by
  unfold St.addGlobal
  dsimp only
  split_ifs
  · rcases placed.area with ⟨n, laid, size⟩
    refine ⟨placed.code, placed.data, n + roundUp (count.toNat * width.toNat), ?_, ?_⟩
    · exact laid.snoc size
    · change UInt32.ofNat ((s.bssSize + count * width + 3).toNat / 4 * 4) = _
      rw [size, area_snoc count width n laid.aligned]
  · exact ⟨placed.code, placed.data, placed.area⟩

theorem Placed.storeString {s : St} (placed : Placed s) : Placed s.storeString := by
  refine ⟨placed.code, ?_, placed.area⟩
  have data := placed.data
  unfold St.storeString
  dsimp only
  rw [List.length_append, List.length_take]
  omega

theorem placed_step (op : Op) (s : St) (placed : Placed s) : Placed (exec op s).2 := by
  have same {t : St} (code : t.cp = s.cp) (data : t.data = s.data)
      (globals : t.globals = s.globals) (size : t.bssSize = s.bssSize) : Placed t := by
    refine ⟨?_, ?_, ?_⟩
    · rw [code]
      exact placed.code
    · rw [data]
      exact placed.data
    · rw [globals, size]
      exact placed.area
  have field {t : St} (code : t.cp = s.cp) (data : t.data = s.data)
      (globals : t.globals = s.globals) (size : t.bssSize = s.bssSize) : Placed (t.e32 0) :=
    (same code data globals size).codeOnly (emit_codeOnly (le32 0) t)
  cases op with
  | emit bytes => exact placed.codeOnly (emit_codeOnly bytes s)
  | patchHere position => exact placed.codeOnly (patchHere_codeOnly s position)
  | storeString =>
      change Placed (if s.curToken = .str then s.storeString else s)
      split_ifs
      · exact placed.storeString
      · exact placed
  | strField dataOff =>
      unfold exec St.strField
      dsimp only
      split_ifs <;> exact field rfl rfl rfl rfl
  | globField bssOff =>
      unfold exec St.globField
      dsimp only
      split_ifs <;> exact field rfl rfl rfl rfl
  | callField name =>
      unfold exec St.callField
      dsimp only
      split_ifs <;> exact field rfl rfl rfl rfl
  | jumpField => exact placed.codeOnly (jumpField_codeOnly s)
  | addLocal name =>
      change Placed (s.addLocal name)
      unfold St.addLocal St.pushLocal
      dsimp only
      split_ifs <;> exact same rfl rfl rfl rfl
  | addArray name bytes elem =>
      change Placed (s.addArray name bytes elem)
      unfold St.addArray St.pushLocal
      dsimp only
      split_ifs <;> exact same rfl rfl rfl rfl
  | addGlobal name count width shape => exact placed.addGlobal name count width shape
  | loopExit => exact placed.codeOnly (loopExit_codeOnly s)
  | loopPatchContinues target => exact placed.codeOnly (loopPatchContinues_codeOnly s target)
  | emitBreak => exact placed.codeOnly (emitBreak_codeOnly s)
  | emitContinue => exact placed.codeOnly (emitContinue_codeOnly s)
  | emitBuiltin name argc =>
      unfold exec
      dsimp only
      cases findBuiltin name argc with
      | none => exact placed
      | some b => exact placed.codeOnly (emitBuiltin_codeOnly s b)
  | toIncrement =>
      change Placed s.toIncrement
      unfold St.toIncrement
      cases s.increments <;> exact same rfl rfl rfl rfl
  | toBehind =>
      change Placed s.toBehind
      unfold St.toBehind
      cases s.increments <;> exact same rfl rfl rfl rfl
  | _ => exact same rfl rfl rfl rfl

theorem parsed_placed (bound : Nat) (history : History) (text : List UInt8) :
    Placed (parsed bound history text) := by
  apply Program.run_invariant placed_step
  exact ⟨Nat.zero_le _, Nat.zero_le _, 0, .nil, rfl⟩

/-! ## The images of `tcc_compile` -/

def St.layout (s : St) (main : Nat) : Layout where
  codeBase := baseAddr + UInt32.ofNat hdrSize
  dataBase := s.dataBase
  bssBase := s.bssBase
  code := (List.range s.cp).map (s.link main).code
  data := s.data
  globals := s.globals.map fun g => (g.bssOff, g.declared)

def St.segmentEnd (s : St) : Nat :=
  baseAddr.toNat + (hdrSize + s.cp + s.data.length) + extent s.globals

theorem image_oneSegment (s : St) (main : Nat) :
    (s.link main).image =
      oneSegment (UInt32.ofNat (hdrSize + s.cp + s.data.length))
        (UInt32.ofNat (hdrSize + s.cp + s.data.length) + s.bssSize)
        ((s.layout main).code ++ s.data) := by
  have patched : Patched s (s.link main) := by
    rw [link_eq]
    exact patchList_patched _ s
  unfold St.layout St.image
  rcases patched with ⟨code, outside, shown⟩
  rw [shown]
  exact List.append_assoc _ _ _

theorem image_loads_iff {s : St} (placed : Placed s) (main : Nat) :
    (s.layout main).Loads (s.link main).image ↔ s.segmentEnd ≤ identityEnd := by
  have code := placed.code
  have data := placed.data
  have sizes : maxCode = 32768 ∧ maxData = 8192 ∧ hdrSize = 84 := ⟨rfl, rfl, rfl⟩
  have long : (s.layout main).code.length = s.cp := by
    unfold St.layout
    rw [List.length_map, List.length_range]
  have layout : s.layout main =
      layoutOf (s.layout main).code s.data (s.layout main).globals := by
    unfold layoutOf
    rw [long]
    rfl
  have small : hdrSize + (s.layout main).code.length + s.data.length ≤ 65536 := by omega
  have total : UInt32.ofNat (hdrSize + s.cp + s.data.length) =
      UInt32.ofNat (hdrSize + (s.layout main).code.length + s.data.length) := by rw [long]
  have bss := bssBase_toNat (s.layout main).globals small
  have both := loads_iff (s.layout main).globals small
    (UInt32.ofNat (hdrSize + s.cp + s.data.length) + s.bssSize)
  rw [image_oneSegment]
  rw [← total, ← layout] at both
  rw [← layout, long] at bss
  rw [both]
  rcases placed.area with ⟨n, laid, size⟩
  have base : baseAddr.toNat = 0x08048000 := rfl
  have most : identityEnd = 0x40000000 := rfl
  have memsz : (UInt32.ofNat (hdrSize + s.cp + s.data.length) + s.bssSize).toNat =
      (hdrSize + s.cp + s.data.length + n) % 2 ^ 32 := by
    rw [size, ← UInt32.ofNat_add, UInt32.toNat_ofNat']
  unfold St.segmentEnd
  rw [laid.extent, memsz]
  constructor
  · rintro ⟨fits, inside⟩
    by_contra beyond
    rcases laid.beyond (show 2 ^ 31 < 2 ^ 32 by decide) (by omega) with ⟨g, listed, low, high⟩
    have within := (inside (g.bssOff, g.declared) (List.mem_map.mpr ⟨g, listed, rfl⟩)).2
    dsimp only at within
    rw [UInt32.toNat_add, bss, Nat.mod_eq_of_lt (by omega)] at within
    omega
  · intro fits
    refine ⟨by omega, ?_⟩
    intro pair listed
    rcases List.mem_map.mp listed with ⟨g, listed', rfl⟩
    have inside := laid.inside (by omega) g listed'
    have place : ((s.layout main).bssBase + g.bssOff).toNat =
        baseAddr.toNat + (hdrSize + s.cp + s.data.length) + g.bssOff.toNat := by
      rw [UInt32.toNat_add, bss, Nat.mod_eq_of_lt (by omega)]
    constructor
    · rw [UInt32.le_iff_toNat_le, place]
      omega
    · rw [place]
      dsimp only
      omega

def ImagesLoad (bound : Nat) (history : History) (text : List UInt8) : Prop :=
  ∀ image, compile bound history text = some (0, some image) →
    ∀ f, (parsed bound history text).findFunc (literal "main") = some f →
      (St.layout (parsed bound history text) f.2).Loads image

/-- The images are loaded as they were linked exactly when none is written or the segment ends in
the identity map. -/
theorem imagesLoad_iff {bound : Nat} {history : History} {text : List UInt8}
    (contained : Contained bound history text) :
    ImagesLoad bound history text ↔
      ((compile bound history text).map Prod.fst = some 0 →
        (parsed bound history text).segmentEnd ≤ identityEnd) := by
  have placed := parsed_placed bound history text
  unfold ImagesLoad
  rw [compile_contained contained]
  cases ((parseFile bound).run exec (St.start history text)).1 with
  | none =>
      constructor
      · intro _ accepted
        cases accepted
      · intro _ image written
        cases written
  | some value =>
      rcases finish_cases (parsed bound history text) with rejected | ⟨main, found, written⟩
      · rw [rejected]
        constructor
        · intro _ accepted
          cases accepted
        · intro _ image written
          cases written
      · rw [written]
        constructor
        · intro loads _
          exact (image_loads_iff placed main.2).mp (loads _ rfl main found)
        · intro fits image same f found'
          cases found.symm.trans found'
          cases same
          exact (image_loads_iff placed main.2).mpr (fits rfl)

end Tcc

/-! ## The images of `tasm_assemble` -/

namespace Tasm

theorem emit_room (bytes : List UInt8) : ∀ {a : Asm}, a.code.length ≤ maxCode →
    (a.emit bytes).code.length ≤ maxCode := by
  induction bytes with
  | nil => intro a small; exact small
  | cons b rest rest_ih =>
      intro a small
      have one : (a.emit8 b).code.length ≤ maxCode := by
        unfold Asm.emit8
        split_ifs with room
        · rw [List.length_append, List.length_singleton]
          exact room
        · exact small
      exact rest_ih one

theorem asmLine_room (line : List UInt8) (pass : Nat) {a : Asm} (small : a.code.length ≤ maxCode) :
    (asmLine line pass a).2.code.length ≤ maxCode := by
  have label (a : Asm) (name : List UInt8) (off : UInt32) :
      (a.addLabel name off).code = a.code := by
    unfold Asm.addLabel
    split_ifs <;> rfl
  have fixup (a : Asm) (off : Nat) (name : List UInt8) (rel : Bool) :
      (a.addFixup off name rel).code = a.code := by
    unfold Asm.addFixup
    split_ifs <;> rfl
  unfold asmLine
  dsimp only
  by_cases empty : strip line = []
  · rw [if_pos empty]
    exact small
  rw [if_neg empty]
  by_cases isLabel : 1 < (strip line).length ∧ (strip line).getLast? = some 0x3A
  · rw [if_pos isLabel]
    dsimp only
    split_ifs
    · rw [label]
      exact small
    · exact small
  rw [if_neg isLabel]
  cases splitLine 8 (strip line) with
  | nil => exact small
  | cons op args =>
      dsimp only
      cases encodeParts op args with
      | none => exact small
      | some both =>
          cases both with
          | mk bytes ref =>
              cases ref with
              | none => exact emit_room bytes small
              | some ref =>
                  apply emit_room
                  split_ifs
                  · rw [fixup]
                    exact emit_room _ small
                  · exact emit_room _ small

theorem runPass_room (pass : Nat) (labels : List (List UInt8 × UInt32))
    (lines : List (List UInt8)) : (runPass pass labels lines).code.length ≤ maxCode := by
  have run (lines : List (List UInt8)) : ∀ {a : Asm}, a.code.length ≤ maxCode →
      (lines.foldl (fun a line => (asmLine line pass a).2) a).code.length ≤ maxCode := by
    induction lines with
    | nil => intro a small; exact small
    | cons line rest rest_ih => intro a small; exact rest_ih (asmLine_room line pass small)
  exact run lines (Nat.zero_le maxCode)

theorem resolve_length (fixups : List Fixup) : ∀ s : Nat × Asm,
    (fixups.foldl resolve s).2.code.length = s.2.code.length := by
  induction fixups with
  | nil => intro s; rfl
  | cons fixup rest rest_ih =>
      intro s
      have one : (resolve s fixup).2.code.length = s.2.code.length := by
        unfold resolve
        cases s.2.findLabel fixup.name with
        | none => rfl
        | some label =>
            dsimp only
            unfold patchWord
            rw [List.length_map, List.length_range]
      exact (rest_ih (resolve s fixup)).trans one

theorem assembled_room (text : List UInt8) : (assembled text).2.code.length ≤ maxCode := by
  unfold assembled
  dsimp only
  rw [resolve_length]
  exact runPass_room 2 _ _

theorem buildElf_oneSegment (code : List UInt8) :
    buildElf code = Tcc.oneSegment (UInt32.ofNat (Tcc.hdrSize + code.length + 0))
      (UInt32.ofNat (Tcc.hdrSize + code.length + 0)) (code ++ []) := by
  rw [List.append_nil]
  rfl

/-- Every file that the assembler writes is loaded at the addresses that its labels have. -/
theorem image_loads {text image : List UInt8} (written : tasmAssemble text = (0, some image)) :
    (Tcc.layoutOf (assembled text).2.code [] []).Loads image := by
  have room := assembled_room text
  have sizes : maxCode = 8192 ∧ Tcc.hdrSize = 84 := ⟨rfl, rfl⟩
  have shown : image = buildElf (assembled text).2.code := by
    unfold tasmAssemble at written
    by_cases refused : 0 < refusedLines 1 (linesFrom [] text) ⟨[], [], []⟩
    · rw [if_pos refused] at written
      cases written
    · rw [if_neg refused] at written
      by_cases unresolved : 0 < (assembled text).1
      · rw [if_pos unresolved] at written
        cases written
      · rw [if_neg unresolved] at written
        cases written
        rfl
  have small : Tcc.hdrSize + (assembled text).2.code.length + ([] : List UInt8).length ≤ 65536 := by
    rw [List.length_nil]
    omega
  have base : Tcc.baseAddr.toNat = 0x08048000 := rfl
  have most : identityEnd = 0x40000000 := rfl
  have total := Tcc.total_toNat small
  rw [shown, buildElf_oneSegment]
  apply (Tcc.loads_iff [] small _).mpr
  refine ⟨?_, fun g listed => by cases listed⟩
  rw [List.length_nil] at total small
  rw [total]
  omega

end Tasm

namespace Tcc

/-! ## Both compilers -/

/-- What `tcc_compile` writes is loaded as it was linked exactly when nothing is written or the
segment that the text asks for ends in the identity map; what `tasm_assemble` writes always is. -/
theorem executables_load (text : List UInt8) :
    (∀ (bound : Nat) (history : History), Contained bound history text →
      (ImagesLoad bound history text ↔
        ((compile bound history text).map Prod.fst = some 0 →
          (parsed bound history text).segmentEnd ≤ identityEnd))) ∧
    ∀ image, Tasm.tasmAssemble text = (0, some image) →
      (layoutOf (Tasm.assembled text).2.code [] []).Loads image :=
  ⟨fun _ _ contained => imagesLoad_iff contained, fun _ written => Tasm.image_loads written⟩

def small : List UInt8 := literal "int a[3];int main(){}"

theorem executables_load_small :
    (ImagesLoad 6 .none small ↔ ((compile 6 .none small).map Prod.fst = some 0 →
      (parsed 6 .none small).segmentEnd ≤ identityEnd)) ∧
    (layoutOf (Tasm.assembled (literal "nop")).2.code [] []).Loads
      (Tasm.buildElf [0x90]) :=
  ⟨(executables_load small).1 6 .none ⟨by decide +kernel, by decide +kernel⟩,
    (executables_load (literal "nop")).2 (Tasm.buildElf [0x90]) (by decide +kernel)⟩

def huge : List UInt8 := literal "int a[1073741824];int main(){}"

/-- Its size is zero in 32 bits: it is compiled with success, and the array is not in the
segment. -/
theorem huge_outside : ¬ ImagesLoad 6 .none huge := by
  have contained : Contained 6 .none huge := ⟨by decide +kernel, by decide +kernel⟩
  have accepted : (compile 6 .none huge).map Prod.fst = some 0 := by decide +kernel
  have beyond : ¬ (parsed 6 .none huge).segmentEnd ≤ identityEnd := by decide +kernel
  rw [imagesLoad_iff contained]
  exact fun fits => beyond (fits accepted)

end Tcc

end Trinux
