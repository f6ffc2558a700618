import Trinux.Fs.RamfsFile

namespace Trinux

open Bytes

/-!
# The FAT16 driver

`fat16_init` looks for a FAT partition, computes the layout of its volume, reads
the root directory into nodes and appends a directory `fat` to the root.  Nodes
of the volume keep their first cluster in the group field, and their
subdirectories are read when the directory above is listed.

The driver follows cluster chains as it finds them on the medium, so its loops
need not end; they take fuel, and `none` stands for a call that has not returned,
for a division by zero and for memory that is written outside its buffer.
-/

def fatReadSector (faults : Faults) (fat : FatVolume) (disk : Disk) (lba : Nat) :
    Option (List UInt8) :=
  ataReadSectors faults disk (u32 (fat.partitionLba + lba)) 1

def fatWriteSector (faults : Faults) (fat : FatVolume) (lba : Nat) (bytes : List UInt8)
    (disk : Disk) : Bool × Disk :=
  ataWriteSectors faults (u32 (fat.partitionLba + lba)) 1 bytes disk

/-! ## The file allocation table -/

def fatGetEntry (faults : Faults) (fat : FatVolume) (disk : Disk) (cluster : Nat) : Nat :=
  match fatReadSector faults fat disk (fat.fatStartLba + cluster * 2 / 512) with
  | none => 0xFFFF
  | some buffer => readU16 buffer (cluster * 2 % 512)

def fatSetCopies (faults : Faults) (fat : FatVolume) (cluster value : Nat) :
    (left copy : Nat) → Disk → Bool × Disk
  | 0, _, disk => (true, disk)
  | left + 1, copy, disk =>
      let sector := fat.fatStartLba + cluster * 2 / 512 + copy * fat.sectorsPerFat
      match fatReadSector faults fat disk sector with
      | none => (false, disk)
      | some buffer =>
          match fatWriteSector faults fat sector (splice buffer (cluster * 2 % 512) (le16 value))
              disk with
          | (false, failed) => (false, failed)
          | (true, written) => fatSetCopies faults fat cluster value left (copy + 1) written

def fatSetEntry (faults : Faults) (fat : FatVolume) (cluster value : Nat) (disk : Disk) :
    Bool × Disk :=
  fatSetCopies faults fat cluster value fat.fatCount 0 disk

def fatAllocCluster (faults : Faults) (fat : FatVolume) (disk : Disk) : Nat × Disk :=
  let limit := (fat.totalClusters + 2) % 2 ^ 16
  match (List.range' 2 (limit - 2)).find? fun cluster =>
      fatGetEntry faults fat disk cluster = 0 with
  | none => (0, disk)
  | some cluster => (cluster, (fatSetEntry faults fat cluster 0xFFFF disk).2)

/-- `fat16_cluster_to_lba`; the clusters zero and one count back from the data. -/
def fatClusterLba (fat : FatVolume) (cluster : Nat) : Nat :=
  u32 (fat.dataStartLba + u32 (cluster + 2 ^ 32 - 2) * fat.sectorsPerCluster)

/-! ## Reading a file -/

def fatReadCluster (faults : Faults) (fat : FatVolume) (disk : Disk) (lba : Nat) :
    (fuel sector byte left : Nat) → List UInt8
  | 0, _, _, _ => []
  | fuel + 1, sector, byte, left =>
      if left = 0 then []
      else
        match fatReadSector faults fat disk (lba + sector) with
        | none => []
        | some bytes =>
            let take := min (512 - byte) left
            slice bytes byte take ++
              fatReadCluster faults fat disk lba fuel (sector + 1) 0 (left - take)

def fatReadChain (faults : Faults) (fat : FatVolume) (disk : Disk) :
    (fuel cluster offset left : Nat) → Option (List UInt8)
  | 0, _, _, _ => none
  | fuel + 1, cluster, offset, left =>
      if left = 0 ∨ cluster < 2 ∨ 0xFFF8 ≤ cluster then some []
      else
        let want := min (fat.sectorsPerCluster * 512 - offset) left
        let got := fatReadCluster faults fat disk (fatClusterLba fat cluster) want (offset / 512)
          (offset % 512) want
        (fatReadChain faults fat disk fuel (fatGetEntry faults fat disk cluster) 0
          (left - got.length)).map fun rest => got ++ rest

def fatFollow (faults : Faults) (fat : FatVolume) (disk : Disk) : (links cluster : Nat) → Option Nat
  | 0, cluster => some cluster
  | links + 1, cluster =>
      let next := fatGetEntry faults fat disk cluster
      if 0xFFF8 ≤ next then none else fatFollow faults fat disk links next

def fatNodeRead (faults : Faults) (fuel : Nat) (fat : FatVolume) (disk : Disk) (node : VfsNode)
    (off size : Nat) : Option (List UInt8) :=
  if node.size.toNat ≤ off then some []
  else
    let size := if node.size.toNat < u32 (off + size) then node.size.toNat - off else size
    let cluster := node.ownerGid.toNat % 2 ^ 16
    if cluster < 2 then some []
    else if fat.sectorsPerCluster = 0 then none
    else
      match fatFollow faults fat disk (off / (fat.sectorsPerCluster * 512)) cluster with
      | none => some []
      | some cluster =>
          fatReadChain faults fat disk fuel cluster (off % (fat.sectorsPerCluster * 512)) size

/-! ## Writing a file -/

def fatNextCluster (faults : Faults) (fat : FatVolume) (cluster : Nat) (disk : Disk) :
    Option Nat × Disk :=
  let next := fatGetEntry faults fat disk cluster
  if 0xFFF8 ≤ next then
    match fatAllocCluster faults fat disk with
    | (0, disk) => (none, disk)
    | (new, disk) => (some new, (fatSetEntry faults fat cluster new disk).2)
  else (some next, disk)

def fatAdvance (faults : Faults) (fat : FatVolume) :
    (links cluster : Nat) → Disk → Option Nat × Disk
  | 0, cluster, disk => (some cluster, disk)
  | links + 1, cluster, disk =>
      match fatNextCluster faults fat cluster disk with
      | (none, disk) => (none, disk)
      | (some next, disk) => fatAdvance faults fat links next disk

def fatWriteCluster (faults : Faults) (fat : FatVolume) (lba : Nat) :
    (fuel sector byte : Nat) → (buffer : List UInt8) → Disk → Nat × Disk
  | 0, _, _, _, disk => (0, disk)
  | fuel + 1, sector, byte, buffer, disk =>
      if buffer.length = 0 then (0, disk)
      else
        match fatReadSector faults fat disk (lba + sector) with
        | none => (0, disk)
        | some bytes =>
            let take := min (512 - byte) buffer.length
            match fatWriteSector faults fat (lba + sector) (splice bytes byte (buffer.take take))
                disk with
            | (false, failed) => (0, failed)
            | (true, written) =>
                let rest := fatWriteCluster faults fat lba fuel (sector + 1) 0 (buffer.drop take)
                  written
                (take + rest.1, rest.2)

/-- The loop of `fat16_node_write` over the chain.  The cluster size is kept in 16 bits. -/
def fatWriteChain (faults : Faults) (fat : FatVolume) :
    (fuel cluster offset : Nat) → (buffer : List UInt8) → Disk → Option (Nat × Disk)
  | 0, _, _, _, _ => none
  | fuel + 1, cluster, offset, buffer, disk =>
      if buffer.length = 0 then some (0, disk)
      else
        let want := min (fat.sectorsPerCluster * 512 % 2 ^ 16 - offset) buffer.length
        let done := fatWriteCluster faults fat (fatClusterLba fat cluster) want (offset / 512)
          (offset % 512) (buffer.take want) disk
        if buffer.length ≤ done.1 then some done
        else
          match fatNextCluster faults fat cluster done.2 with
          | (none, disk) => some (done.1, disk)
          | (some next, disk) =>
              (fatWriteChain faults fat fuel next 0 (buffer.drop done.1) disk).map fun rest =>
                (done.1 + rest.1, rest.2)

def fatNodeWrite (faults : Faults) (fuel : Nat) (fat : FatVolume) (node : VfsNode) (off : Nat)
    (buffer : List UInt8) (disk : Disk) : Option (Nat × VfsNode × Disk) :=
  if !fat.mounted ∨ buffer.length = 0 then some (0, node, disk)
  else
    let start :=
      if node.ownerGid.toNat % 2 ^ 16 < 2 then fatAllocCluster faults fat disk
      else (node.ownerGid.toNat % 2 ^ 16, disk)
    if start.1 = 0 then some (0, node, start.2)
    else
      let node := if node.ownerGid.toNat % 2 ^ 16 < 2 then
        { node with ownerGid := UInt32.ofNat start.1 } else node
      let clusterSize := fat.sectorsPerCluster * 512 % 2 ^ 16
      if clusterSize = 0 then none
      else
        match fatAdvance faults fat (off / clusterSize) start.1 start.2 with
        | (none, disk) => some (0, node, disk)
        | (some cluster, disk) =>
            (fatWriteChain faults fat fuel cluster (off % clusterSize) buffer disk).map
              fun written =>
                let last := u32 (off + written.1)
                (written.1, { node with
                  size := if node.size.toNat < last then UInt32.ofNat last else node.size },
                  written.2)

/-! ## Directories -/

def fatFormatName (entry : List UInt8) : List UInt8 :=
  let lower := fun byte : UInt8 => if 65 ≤ byte.toNat ∧ byte.toNat ≤ 90 then byte + 32 else byte
  let stem := ((entry.take 8).takeWhile fun byte => byte ≠ 32).map lower
  let extension := ((slice entry 8 3).takeWhile fun byte => byte ≠ 32).map lower
  cString (if byteAt entry 8 ≠ 32 then stem ++ [46] ++ extension else stem)

def fatEntryNode (parent : Nat) (entry : List UInt8) : VfsNode :=
  let attr := byteAt entry 11
  let directory := attr.testBit 4
  { name := fatFormatName entry
    type := if directory then vfsDirectory else vfsFile
    permissions := if directory then 0o755 else if attr.testBit 0 then 0o444 else 0o644
    ownerUid := 0
    ownerGid := UInt32.ofNat (readU16 entry 26)
    size := if directory then 0 else readU32 entry 28
    created := 0
    modified := 0
    ops := if directory then .fatDirectory else .fatFile
    parent := some parent
    children := []
    data := none
    blocks := none
    diskBacked := false }

/-- Whether `fat16_read_dir` skips an entry: it is deleted, part of a long name or a label. -/
def fatSkipsEntry (entry : List UInt8) : Bool :=
  byteAt entry 0 = 0xE5 ∨ byteAt entry 11 = 0x0F ∨ (byteAt entry 11).testBit 3

def kmallocAligned (granted : Bool) (size : Nat) : Bool := kmalloc granted (alignUp size + 4116)

/-- The loop of `fat16_read_dir` over the entries; children beyond the array are dropped. -/
def fatReadEntries (platform : Platform) (dir : Nat) :
    (entries : List (List UInt8)) → (site : Nat) → Fs → Option Fs
  | [], _, fs => some fs
  | entry :: rest, site, fs =>
      if byteAt entry 0 = 0 then some fs
      else if fatSkipsEntry entry then fatReadEntries platform dir rest site fs
      else if !kmallocAligned (platform.alloc site) sizeofVfsNode then none
      else if (fs.childrenOf dir).length < vfsMaxChildren then
        fatReadEntries platform dir rest (site + 1)
          ((fs.alloc (fatEntryNode dir entry)).modify dir (VfsNode.attach fs.next))
      else fatReadEntries platform dir rest (site + 1) fs

def fatEntries (bytes : List UInt8) : List (List UInt8) :=
  (List.range (bytes.length / 32)).map fun index => slice bytes (index * 32) 32

def fatSectorBytes (platform : Platform) (fat : FatVolume) (disk : Disk) (lba : Nat) :
    List UInt8 :=
  (fatReadSector platform.faults fat disk lba).getD (platform.memory 512)

/-- The entries of the root directory.  The sectors copied may be longer than the array that was
allocated for them. -/
def fatRootEntries (platform : Platform) (fat : FatVolume) (disk : Disk) :
    Option (List (List UInt8)) :=
  if fat.rootDirEntries = 0 then some []
  else if !kmalloc (platform.alloc 1) (fat.rootDirEntries * 32) then none
  else if fat.rootDirEntries * 32 < fat.rootDirSectors * 512 then none
  else some (fatEntries ((List.range fat.rootDirSectors).flatMap fun index =>
    fatSectorBytes platform fat disk (fat.rootDirLba + index)))

def fatChain (faults : Faults) (fat : FatVolume) (disk : Disk) :
    (fuel cluster : Nat) → Option (List Nat)
  | 0, _ => none
  | fuel + 1, cluster =>
      if cluster < 2 ∨ 0xFFF8 ≤ cluster then some []
      else (fatChain faults fat disk fuel (fatGetEntry faults fat disk cluster)).map
        fun rest => cluster :: rest

def fatSubEntries (platform : Platform) (fuel : Nat) (fat : FatVolume) (disk : Disk)
    (start : Nat) : Option (List (List UInt8)) :=
  if !kmalloc (platform.alloc 1) (2048 * 32) then none
  else (fatChain platform.faults fat disk fuel start).map fun clusters =>
    (fatEntries (clusters.flatMap fun cluster =>
      (List.range fat.sectorsPerCluster).flatMap fun sector =>
        fatSectorBytes platform fat disk (fatClusterLba fat cluster + sector))).take 2048

def fatDirectoryNode (start : Nat) : VfsNode where
  name := []
  type := vfsDirectory
  permissions := 0o755
  ownerUid := 0
  ownerGid := UInt32.ofNat start
  size := 0
  created := 0
  modified := 0
  ops := .fatDirectory
  parent := none
  children := []
  data := none
  blocks := none
  diskBacked := false

def fatReadDir (platform : Platform) (start : Nat) (entries : Option (List (List UInt8)))
    (fs : Fs) : Option (Nat × Fs) :=
  if !kmallocAligned (platform.alloc 0) sizeofVfsNode then none
  else entries.bind fun entries =>
    (fatReadEntries platform fs.next entries 2 (fs.alloc (fatDirectoryNode start))).map
      fun read => (fs.next, read)

/-- Move the children of a freshly read directory below a node and free the directory. -/
def fatAdopt (node loaded : Nat) (fs : Fs) : Fs :=
  let children := fs.childrenOf loaded
  let adopted := fs.modify node fun above => { above with children := above.children ++ children }
  (children.foldl (fun fs child =>
    fs.modify child fun entry => { entry with parent := some node }) adopted).free loaded

def fatReaddir (platform : Platform) (fuel : Nat) (storage : Storage) (id index : Nat) :
    Option (Option Nat × Storage) :=
  match (storage.fs.childrenOf id)[index]? with
  | none => some (none, storage)
  | some child =>
      match storage.fs.node child with
      | none => none
      | some node =>
          if node.type = vfsDirectory ∧ node.children = [] ∧ node.name.head? ≠ some 46 then
            (fatReadDir platform (node.ownerGid.toNat % 2 ^ 16)
              (fatSubEntries platform fuel storage.fat storage.disk (node.ownerGid.toNat % 2 ^ 16))
              storage.fs).map fun read =>
                (some child, { storage with fs := fatAdopt child read.1 read.2 })
          else some (some child, storage)

/-- Listing an entry changes nothing or reads a subdirectory. -/
theorem fatReaddir_cases {platform : Platform} {fuel id index : Nat} {storage storage' : Storage}
    {entry : Option Nat}
    (listed : fatReaddir platform fuel storage id index = some (entry, storage')) :
    storage' = storage ∨ ∃ child node loaded read, (storage.fs.childrenOf id)[index]? = some child ∧
      storage.fs.node child = some node ∧ node.children = [] ∧
      fatReadDir platform (node.ownerGid.toNat % 2 ^ 16)
        (fatSubEntries platform fuel storage.fat storage.disk (node.ownerGid.toNat % 2 ^ 16))
        storage.fs = some (loaded, read) ∧
      storage' = { storage with fs := fatAdopt child loaded read } := by
  rw [fatReaddir] at listed
  cases found : (storage.fs.childrenOf id)[index]? with
  | none =>
      rw [found] at listed
      cases listed
      exact Or.inl rfl
  | some child =>
      rw [found] at listed
      cases live : storage.fs.node child with
      | none =>
          simp only [live] at listed
          cases listed
      | some node =>
          simp only [live] at listed
          split at listed
          · rename_i unread
            rcases Option.map_eq_some_iff.mp listed with ⟨⟨loaded, read⟩, isRead, same⟩
            cases same
            exact Or.inr ⟨child, node, loaded, read, rfl, live, unread.2.1, isRead, rfl⟩
          · cases listed
            exact Or.inl rfl

/-! ## Mounting -/

def fatPartition (sector : List UInt8) : Nat :=
  if readU16 sector 510 = 0xAA55 then
    match (List.range 4).find? fun index =>
        byteAt sector (446 + 16 * index + 4) ∈ [0x04, 0x06, 0x0E] with
    | some index => (readU32 sector (446 + 16 * index + 8)).toNat
    | none => 0
  else 0

/-- The layout that `fat16_init` computes from a boot sector; `none` is its division by zero. -/
def fatLayout (partitionLba : Nat) (sector : List UInt8) : Option FatVolume :=
  let sectorsPerCluster := byteAt sector 13
  let fatStartLba := readU16 sector 14
  let fatCount := byteAt sector 16
  let rootDirEntries := readU16 sector 17
  let sectorsPerFat := readU16 sector 22
  let rootDirLba := fatStartLba + fatCount * sectorsPerFat
  let rootDirSectors := (rootDirEntries * 32 + 511) / 512
  let dataStartLba := rootDirLba + rootDirSectors
  let totalSectors := if readU16 sector 19 ≠ 0 then readU16 sector 19
    else (readU32 sector 32).toNat
  if sectorsPerCluster = 0 then none
  else some {
    partitionLba := partitionLba
    sectorsPerCluster := sectorsPerCluster
    fatCount := fatCount
    rootDirEntries := rootDirEntries
    sectorsPerFat := sectorsPerFat
    fatStartLba := fatStartLba
    rootDirLba := rootDirLba
    dataStartLba := dataStartLba
    rootDirSectors := rootDirSectors
    totalClusters := u32 (totalSectors + 2 ^ 32 - dataStartLba) / sectorsPerCluster
    mounted := false }

def fatBootSector (faults : Faults) (disk : Disk) : Option (Nat × List UInt8) :=
  if !disk.present then none
  else
    (ataReadSectors faults disk 0 1).bind fun first =>
      (ataReadSectors faults disk (fatPartition first) 1).bind fun sector =>
        if readU16 sector 11 = 512 then some (fatPartition first, sector) else none

def fat16Init (platform : Platform) (storage : Storage) : Option Storage :=
  match fatBootSector platform.faults storage.disk with
  | none => some storage
  | some (partitionLba, sector) =>
      (fatLayout partitionLba sector).bind fun fat =>
        (fatReadDir platform 0 (fatRootEntries platform fat storage.disk) storage.fs).map
          fun (dir, fs) =>
            let named := fs.modify dir fun node => { node with name := literal "fat" }
            match named.root with
            | none => { storage with fs := named, fat := fat }
            | some root =>
                if (named.childrenOf root).length < vfsMaxChildren then
                  { storage with
                    fs := (named.modify root (VfsNode.attach dir)).modify dir
                      fun node => { node with parent := some root }
                    fat := { fat with mounted := true } }
                else { storage with fs := named, fat := fat }

end Trinux
