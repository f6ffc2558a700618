import Trinux.Fs.RamfsFile

namespace Trinux

open Bytes

/-!
# Device nodes

`devfs_init` appends the nodes `zero`, `null`, `random` and, if there is a drive,
`sda` to the directory `dev`.  It does not look whether they exist.  The node
`sda` gives access to the raw medium by bytes: whole sectors are transferred
directly, the ends of a range through a sector buffer.
-/

/-! ## The raw medium -/

/-- The length of a transfer after `sda_read` and `sda_write` clip it to the medium. -/
def sdaRange (disk : Disk) (off size : Nat) : Nat :=
  let diskBytes := u32 (disk.total.toNat * ataSectorSize)
  if diskBytes ≤ off then 0
  else if diskBytes < u32 (off + size) then diskBytes - off
  else size

/-- The loop of `sda_read`.  Every round delivers a byte, so the fuel is the length. -/
def sdaReadLoop (transport : Transport) (faults : Faults) (disk : Disk) :
    (fuel position left : Nat) → List UInt8
  | 0, _, _ => []
  | fuel + 1, position, left =>
      if left = 0 then []
      else if position % ataSectorSize = 0 ∧ ataSectorSize ≤ left then
        let nsec := min (left / ataSectorSize) 255
        match transport.read faults disk (position / ataSectorSize) nsec with
        | none => []
        | some bytes =>
            bytes ++ sdaReadLoop transport faults disk fuel (u32 (position + nsec * ataSectorSize))
              (left - nsec * ataSectorSize)
      else
        match transport.read faults disk (position / ataSectorSize) 1 with
        | none => []
        | some sector =>
            let chunk := min (ataSectorSize - position % ataSectorSize) left
            slice sector (position % ataSectorSize) chunk ++
              sdaReadLoop transport faults disk fuel (u32 (position + chunk)) (left - chunk)

def sdaRead (transport : Transport) (faults : Faults) (disk : Disk) (off size : Nat) :
    List UInt8 :=
  if !disk.present then []
  else sdaReadLoop transport faults disk (sdaRange disk off size) off (sdaRange disk off size)

def sdaWriteLoop (transport : Transport) (faults : Faults) :
    (fuel position : Nat) → (buffer : List UInt8) → Disk → Nat × Disk
  | 0, _, _, disk => (0, disk)
  | fuel + 1, position, buffer, disk =>
      if buffer.length = 0 then (0, disk)
      else if position % ataSectorSize = 0 ∧ ataSectorSize ≤ buffer.length then
        let nsec := min (buffer.length / ataSectorSize) 255
        match transport.write faults (position / ataSectorSize) nsec buffer disk with
        | (false, left) => (0, left)
        | (true, written) =>
            let rest := sdaWriteLoop transport faults fuel (u32 (position + nsec * ataSectorSize))
              (buffer.drop (nsec * ataSectorSize)) written
            (nsec * ataSectorSize + rest.1, rest.2)
      else
        match transport.read faults disk (position / ataSectorSize) 1 with
        | none => (0, disk)
        | some sector =>
            let chunk := min (ataSectorSize - position % ataSectorSize) buffer.length
            match transport.write faults (position / ataSectorSize) 1
                (splice sector (position % ataSectorSize) (buffer.take chunk)) disk with
            | (false, left) => (0, left)
            | (true, written) =>
                let rest := sdaWriteLoop transport faults fuel (u32 (position + chunk))
                  (buffer.drop chunk) written
                (chunk + rest.1, rest.2)

def sdaWrite (transport : Transport) (faults : Faults) (off : Nat) (buffer : List UInt8)
    (disk : Disk) : Nat × Disk :=
  if !disk.present then (0, disk)
  else
    let size := sdaRange disk off buffer.length
    sdaWriteLoop transport faults size off (buffer.take size) disk

/-! ## The generator -/

def randNext (state : UInt32) : UInt32 := state * 1664525 + 1013904223

def randBytes : (size : Nat) → UInt32 → List UInt8 × UInt32
  | 0, state => ([], state)
  | size + 1, state =>
      let next := randNext state
      let rest := randBytes size next
      ((next >>> 24).toUInt8 :: rest.1, rest.2)

def randomRead (now : UInt32) (size : Nat) (state : UInt32) : List UInt8 × UInt32 :=
  randBytes size (state ^^^ now * 2654435761)

def randomWrite (buffer : List UInt8) (state : UInt32) : UInt32 :=
  buffer.foldl (fun state byte => state * 31 + byte.toUInt32) state

/-! ## Creating the nodes -/

def makeDev (platform : Platform) (site : Nat) (fs : Fs) (devDir : Nat) (name : List UInt8)
    (ops : NodeOps) (size perms : UInt32) : Fs :=
  match ramfsCreateNode (platform.alloc site) platform.now fs devDir name vfsDevice with
  | none => fs
  | some (id, fs) => fs.modify id fun node =>
      { node with ops := ops, size := size, permissions := perms, ownerUid := 0, ownerGid := 0 }

def devfsInit (platform : Platform) (fs : Fs) (disk : Disk) : Fs :=
  match fs.root.bind fun root => vfsFinddir fs root (literal "dev") with
  | none => fs
  | some dev =>
      let fs := makeDev platform 0 fs dev (literal "zero") .devZero 0 0o666
      let fs := makeDev platform 1 fs dev (literal "null") .devNull 0 0o666
      let fs := makeDev platform 2 fs dev (literal "random") .devRandom 0 0o644
      if disk.present then
        makeDev platform 3 fs dev (literal "sda") .devSda
          (UInt32.ofNat (disk.total.toNat * ataSectorSize)) 0o640
      else fs

end Trinux
