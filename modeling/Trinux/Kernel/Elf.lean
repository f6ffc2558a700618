import Mathlib

namespace Trinux

/-!
# The ELF loader

There are two loaders.  `elf_exec_argv_inner` checks a segment and places it before it looks at the
next one.  `elf_execve` looks at all segments first and places them when there is nothing left to
refuse.

Memory is the identity-mapped range that the kernel and all programs share.  The file lies in a
block of the kernel heap, and headers are read from there as often as the code reads them, also
from behind the file.  What kernel data looks like, the page tables among it, is not modelled; of
the mapping of pages only the calls are kept.
-/

abbrev Memory := UInt32 → UInt8

namespace Memory

def memcpy (m : Memory) (dest src : UInt32) : Nat → Memory
  | 0 => m
  | n + 1 =>
      let before := memcpy m dest src n
      Function.update before (dest + UInt32.ofNat n) (before (src + UInt32.ofNat n))

def memset (m : Memory) (dest : UInt32) (c : UInt8) : Nat → Memory
  | 0 => m
  | n + 1 => Function.update (memset m dest c n) (dest + UInt32.ofNat n) c

def store (m : Memory) (dest : UInt32) : List UInt8 → Memory
  | [] => m
  | byte :: rest => store (Function.update m dest byte) (dest + 1) rest

def readU16 (m : Memory) (a : UInt32) : UInt16 :=
  UInt16.ofNat ((m a).toNat + 256 * (m (a + 1)).toNat)

def readU32 (m : Memory) (a : UInt32) : UInt32 :=
  UInt32.ofNat ((m a).toNat + 256 * (m (a + 1)).toNat + 65536 * (m (a + 2)).toNat +
    16777216 * (m (a + 3)).toNat)

def storeU32 (m : Memory) (a value : UInt32) : Memory :=
  m.store a [value.toUInt8, (value >>> 8).toUInt8, (value >>> 16).toUInt8, (value >>> 24).toUInt8]

end Memory

def elfMagic : UInt32 := 0x464C457F

def etExec : UInt16 := 2

def em386 : UInt16 := 3

def ptLoad : UInt32 := 1

def kernelEndVirt : Nat := 0x05000000

def identityEnd : Nat := 0x40000000

structure Elf32Ehdr where
  eMagic : UInt32
  eClass : UInt8
  eData : UInt8
  eType : UInt16
  eMachine : UInt16
  eEntry : UInt32
  ePhoff : UInt32
  ePhentsize : UInt16
  ePhnum : UInt16
  deriving DecidableEq

def elf32EhdrSize : UInt32 := 52

structure Elf32Phdr where
  pType : UInt32
  pOffset : UInt32
  pVaddr : UInt32
  pFilesz : UInt32
  pMemsz : UInt32
  deriving DecidableEq

def Memory.readEhdr (m : Memory) (a : UInt32) : Elf32Ehdr where
  eMagic := m.readU32 a
  eClass := m (a + 4)
  eData := m (a + 5)
  eType := m.readU16 (a + 16)
  eMachine := m.readU16 (a + 18)
  eEntry := m.readU32 (a + 24)
  ePhoff := m.readU32 (a + 28)
  ePhentsize := m.readU16 (a + 42)
  ePhnum := m.readU16 (a + 44)

def Memory.readPhdr (m : Memory) (a : UInt32) : Elf32Phdr where
  pType := m.readU32 a
  pOffset := m.readU32 (a + 4)
  pVaddr := m.readU32 (a + 8)
  pFilesz := m.readU32 (a + 16)
  pMemsz := m.readU32 (a + 20)

def elfValidate (hdr : Elf32Ehdr) : Bool :=
  hdr.eMagic = elfMagic ∧ hdr.eClass = 1 ∧ hdr.eData = 1 ∧ hdr.eType = etExec ∧ hdr.eMachine = em386

def phdrAddress (buf : UInt32) (ehdr : Elf32Ehdr) (i : Nat) : UInt32 :=
  buf + ehdr.ePhoff + UInt32.ofNat i * ehdr.ePhentsize.toUInt32

structure Placement where
  phdr : Elf32Phdr
  copied : Bool
  deriving DecidableEq

def addressesFrom (start : UInt32) (n : Nat) : List UInt32 :=
  (List.range n).map fun k => start + UInt32.ofNat k

def Placement.written (p : Placement) : List UInt32 :=
  (if p.copied then addressesFrom p.phdr.pVaddr p.phdr.pFilesz.toNat else []) ++
    if p.phdr.pFilesz < p.phdr.pMemsz then
      addressesFrom (p.phdr.pVaddr + p.phdr.pFilesz) (p.phdr.pMemsz - p.phdr.pFilesz).toNat
    else []

/-- What loading a program has done: to the memory, the calls of `vmm_map_page_in`, the segments
that were placed, and `max_end`. -/
structure ElfLoad where
  memory : Memory
  mapped : List UInt32
  placed : List Placement
  maxEnd : UInt32

def pagesOf (start stop : UInt32) : List UInt32 :=
  (List.range ((stop.toNat - (start &&& ~~~0xFFF).toNat + 0xFFF) / 0x1000)).map fun k =>
    (start &&& ~~~0xFFF) + UInt32.ofNat (0x1000 * k)

namespace ElfLoad

def place (l : ElfLoad) (buf pageDir : UInt32) (p : Placement) : ElfLoad :=
  let h := p.phdr
  let filled := if p.copied then l.memory.memcpy h.pVaddr (buf + h.pOffset) h.pFilesz.toNat
    else l.memory
  { memory := if h.pFilesz < h.pMemsz
      then filled.memset (h.pVaddr + h.pFilesz) 0 (h.pMemsz - h.pFilesz).toNat else filled
    mapped := l.mapped ++
      if pageDir ≠ 0 then pagesOf h.pVaddr (h.pVaddr + h.pMemsz) else []
    placed := l.placed ++ [p]
    maxEnd := if l.maxEnd < h.pVaddr + h.pMemsz then h.pVaddr + h.pMemsz else l.maxEnd }

/-- The loop over the program headers: a segment that is refused ends it.  The number of headers is
below `2 ^ 16`. -/
def segmentLoop (l : ElfLoad) (refuses copies : Elf32Phdr → Bool) (buf pageDir : UInt32)
    (fuel i : Nat) : Option Int × ElfLoad :=
  match fuel with
  | 0 => (none, l)
  | fuel + 1 =>
      let ehdr := l.memory.readEhdr buf
      if i < ehdr.ePhnum.toNat then
        let phdr := l.memory.readPhdr (phdrAddress buf ehdr i)
        if phdr.pType ≠ ptLoad then l.segmentLoop refuses copies buf pageDir fuel (i + 1)
        else if refuses phdr then (some (-3), l)
        else (l.place buf pageDir ⟨phdr, copies phdr⟩).segmentLoop refuses copies buf pageDir fuel
          (i + 1)
      else (none, l)

def execRefuses (phdr : Elf32Phdr) : Bool := 1024 * 1024 * 1024 < phdr.pVaddr + phdr.pMemsz

/-- When `elf_exec_argv_inner` copies the part of the file, where the sum may wrap. -/
def execCopies (got : UInt32) (phdr : Elf32Phdr) : Bool :=
  0 < phdr.pFilesz ∧ phdr.pOffset + phdr.pFilesz ≤ got

def execveCopies (phdr : Elf32Phdr) : Bool := 0 < phdr.pFilesz

def execSegments (buf got pageDir : UInt32) (l : ElfLoad) : Option Int × ElfLoad :=
  l.segmentLoop execRefuses (execCopies got) buf pageDir 65536 0

def execveSegments (buf pageDir : UInt32) (l : ElfLoad) : ElfLoad :=
  (l.segmentLoop (fun _ => false) execveCopies buf pageDir 65536 0).2

end ElfLoad

def execveChecks (m : Memory) (buf got : UInt32) : Nat → Nat → Option Int
  | 0, _ => none
  | fuel + 1, i =>
      let ehdr := m.readEhdr buf
      if i < ehdr.ePhnum.toNat then
        let phdr := m.readPhdr (phdrAddress buf ehdr i)
        if phdr.pType ≠ ptLoad then execveChecks m buf got fuel (i + 1)
        else if identityEnd < phdr.pVaddr.toNat + phdr.pMemsz.toNat then some (-3)
        else if got.toNat < phdr.pOffset.toNat + phdr.pFilesz.toNat then some (-2)
        else execveChecks m buf got fuel (i + 1)
      else none

/-! ## The stack of a program -/

def userStackSize : UInt32 := 0x10000

def userStackTop (nest : Nat) : UInt32 :=
  match nest with
  | 1 => 0x0F000000
  | 2 => 0x0EE00000
  | 3 => 0x0EC00000
  | 4 => 0x0EA00000
  | _ => 0x0E800000

/-- Push the strings, the last one first: the memory, the place of the last one pushed, and the
places of all. -/
def pushStrings (m : Memory) (strTop : UInt32) : List (List UInt8) → Memory × UInt32 × List UInt32
  | [] => (m, strTop, [])
  | s :: rest =>
      let (m, strTop, ptrs) := pushStrings m strTop rest
      let top := strTop - UInt32.ofNat (s.length + 1)
      (m.store top (s ++ [0]), top, top :: ptrs)

def storePointers (m : Memory) (a : UInt32) : List UInt32 → Memory
  | [] => m
  | ptr :: rest => storePointers (m.storeU32 a ptr) (a + 4) rest

/-- The stack of a program with its arguments, of which there are at most 32, and its pointer. -/
def userStack (m : Memory) (top : UInt32) (argv : List (List UInt8)) : Memory × UInt32 :=
  let cleared := m.memset (top - userStackSize) 0 userStackSize.toNat
  let esp := top - 16 - 12
  let empty := storePointers cleared esp [0, 0, 0]
  if argv = [] then (empty, esp)
  else
    let args := argv.take 32
    let (pushed, strTop, ptrs) := pushStrings empty (top - 16) args
    let arr := (strTop &&& ~~~0x3) - 4 * UInt32.ofNat (args.length + 1)
    (storePointers (storePointers pushed arr (ptrs ++ [0])) (arr - 12)
      [0, UInt32.ofNat args.length, arr], arr - 12)

/-! ## The two entries -/

/-- A file that `vfs_resolve` finds: whether the caller may execute it, its size, and the bytes that
`vfs_read` delivers. -/
structure ElfFile where
  executable : Bool
  size : UInt32
  content : List UInt8

def ElfFile.bytes (file : ElfFile) : List UInt8 := file.content.take file.size.toNat

def ElfFile.got (file : ElfFile) : UInt32 := UInt32.ofNat file.bytes.length

def Memory.unloaded (m : Memory) : ElfLoad := ⟨m, [], [], 0⟩

/-- `elf_exec_argv_inner` up to the end of its loop: the error code, or none.  `kmalloc` has returned
a block for the file, or not. -/
def elfExecArgvInner (file : Option ElfFile) (block : Option UInt32) (pageDir : UInt32)
    (m : Memory) : Option Int × ElfLoad :=
  match file with
  | none => (some (-1), m.unloaded)
  | some file =>
      if file.size < elf32EhdrSize then (some (-2), m.unloaded)
      else match block with
        | none => (some (-3), m.unloaded)
        | some buf =>
            let m := m.store buf file.bytes
            if file.got < elf32EhdrSize then (some (-2), m.unloaded)
            else if elfValidate (m.readEhdr buf) = false then (some (-2), m.unloaded)
            else if (m.readEhdr buf).eEntry = 0 then (some (-4), m.unloaded)
            else m.unloaded.execSegments buf file.got pageDir

/-- The part of the state that `elf_execve` changes: the memory, the blocks of the kernel heap that
the call holds, the calls of `vmm_map_page_in`, the segments placed, and the caller's process. -/
structure ExecState where
  memory : Memory
  blocks : List UInt32
  mapped : List UInt32
  placed : List Placement
  heapStart : UInt32
  heapBrk : UInt32
  name : List UInt8

/-- A call of `elf_execve`: whether there is a current process, its page directory, the depth of
nesting, the file, the path, the arguments, and what the two calls of `kmalloc` return. -/
structure ExecveCall where
  current : Bool
  pageDir : UInt32
  nest : Nat
  file : Option ElfFile
  path : List UInt8
  argv : List (List UInt8)
  bufBlock : Option UInt32
  argBlock : Option UInt32

def afterSlash (path : List UInt8) : List UInt8 := (path.reverse.takeWhile (· ≠ 0x2F)).reverse

def argPointers (a : UInt32) : List (List UInt8) → List UInt32
  | [] => []
  | s :: rest => a :: argPointers (a + UInt32.ofNat (s.length + 1)) rest

def storeArgs (m : Memory) (blob : UInt32) (argv : List (List UInt8)) : Memory :=
  let strings := blob + 4 * UInt32.ofNat (argv.length + 1)
  (storePointers m blob (argPointers strings argv ++ [0])).store strings
    (argv.map fun s => s ++ [0]).flatten

namespace ExecState

def start (m : Memory) (heapStart heapBrk : UInt32) (name : List UInt8) : ExecState :=
  ⟨m, [], [], [], heapStart, heapBrk, name⟩

def take (s : ExecState) (block : UInt32) : ExecState := { s with blocks := block :: s.blocks }

def kfree (s : ExecState) (block : UInt32) : ExecState :=
  { s with blocks := s.blocks.erase block }

/-- The second pass of `elf_execve` and what follows it: the error code, which is always zero, and
the registers of the new program. -/
def commit (s : ExecState) (call : ExecveCall) (buf entry : UInt32) (argCopy : Option UInt32) :
    (Int × Option (UInt32 × UInt32)) × ExecState :=
  let loaded := s.memory.unloaded.execveSegments buf call.pageDir
  let heapStart := (loaded.maxEnd + 0x1000) &&& ~~~0xFFF
  let top := userStackTop call.nest
  let stack := userStack loaded.memory top call.argv
  let freed := match argCopy with
    | none => s.kfree buf
    | some blob => (s.kfree buf).kfree blob
  ((0, some (entry, stack.2)),
    { freed with
      memory := stack.1
      mapped := s.mapped ++ loaded.mapped ++
        if call.pageDir ≠ 0 then pagesOf (top - userStackSize) top else []
      placed := s.placed ++ loaded.placed
      heapStart := if 0 < loaded.maxEnd then heapStart else s.heapStart
      heapBrk := if 0 < loaded.maxEnd then heapStart else s.heapBrk
      name := (afterSlash call.path).take 31 })

/-- `elf_execve`: the error code, the registers of the new program, and the state. -/
def elfExecve (s : ExecState) (call : ExecveCall) : (Int × Option (UInt32 × UInt32)) × ExecState :=
  if call.current = false then ((-1, none), s)
  else match call.file with
    | none => ((-1, none), s)
    | some file =>
        if file.executable = false then ((-5, none), s)
        else if file.size < elf32EhdrSize then ((-2, none), s)
        else match call.bufBlock with
          | none => ((-3, none), s)
          | some buf =>
              let s := { s.take buf with memory := s.memory.store buf file.bytes }
              if file.got < elf32EhdrSize then ((-2, none), s.kfree buf)
              else if elfValidate (s.memory.readEhdr buf) = false then ((-2, none), s.kfree buf)
              else
                let entry : UInt32 := (s.memory.readEhdr buf).eEntry
                if entry = 0 then ((-4, none), s.kfree buf)
                else match execveChecks s.memory buf file.got 65536 0 with
                  | some error => ((error, none), s.kfree buf)
                  | none =>
                      if call.argv = [] then s.commit call buf entry none
                      else match call.argBlock with
                        | none => ((-3, none), s.kfree buf)
                        | some blob =>
                            { s.take blob with memory := storeArgs s.memory blob call.argv }.commit
                              call buf entry (some blob)

end ExecState

end Trinux
