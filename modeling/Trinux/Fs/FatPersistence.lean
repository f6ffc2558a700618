import Trinux.Fs.FatData
import Trinux.Fs.FatTermination

namespace Trinux

open Bytes

/-!
# Writes to a file and mounting again

Writing within the size of a file changes sectors of its clusters only.  Mounting the volume again
reads the boot sector, the root directory and the clusters of the subdirectories that are listed, so
it finds the same nodes, and the file has the bytes that were written.
-/

namespace Fat

/-! ## What the driver reads again -/

section Again

variable {fat : FatVolume} {disk disk' : Disk} {chain : List Nat}
  (changed : Disk.ChangedOnly (· ∈ sectorsOf fat chain) disk disk')

include changed

/-- A sector that is not one of the file's is read as before. -/
theorem read_again {sector : Nat} (spared : sector ∉ sectorsOf fat chain) :
    ataReadSectors Faults.none disk' sector 1 = ataReadSectors Faults.none disk sector 1 := by
  have agree : disk.AgreeOn {sector | sector ∉ sectorsOf fat chain} disk' :=
    ⟨changed.present, changed.total, changed.bytes⟩
  have sound : Faults.none.AgreeOn {sector | sector ∉ sectorsOf fat chain} Faults.none :=
    ⟨fun _ _ => rfl, fun _ _ => rfl⟩
  apply ataReadSectors_agree sound agree
  intro index below
  rw [Nat.lt_one_iff.mp below]
  exact spared

variable (volume : OnMedium fat disk) (data : ∀ cluster ∈ chain, InData fat cluster)

include volume data

theorem bootSector_again {partitionLba : Nat} {sector : List UInt8}
    (boot : fatBootSector Faults.none disk = some (partitionLba, sector))
    (here : fat.partitionLba = partitionLba) :
    fatBootSector Faults.none disk' = some (partitionLba, sector) := by
  have reserved := volume.boot
  have front := volume.front
  have root := volume.root
  have zero : (0 : Nat) ∉ sectorsOf fat chain := front_spared volume data (by omega)
  have first : partitionLba ∉ sectorsOf fat chain := front_spared volume data (by omega)
  unfold fatBootSector at boot ⊢
  rw [changed.present, read_again changed zero]
  by_cases absent : (!disk.present) = true
  · rw [if_pos absent] at boot
    cases boot
  · rw [if_neg absent] at boot ⊢
    cases found : ataReadSectors Faults.none disk 0 1 with
    | none =>
        rw [found] at boot
        cases boot
    | some master =>
        rw [found, Option.bind_some] at boot
        rw [Option.bind_some]
        have place : fatPartition master = partitionLba := by
          cases read : ataReadSectors Faults.none disk (fatPartition master) 1 with
          | none =>
              rw [read] at boot
              cases boot
          | some bytes =>
              rw [read, Option.bind_some] at boot
              split_ifs at boot
              cases boot
              rfl
        rw [place] at boot ⊢
        rw [read_again changed first]
        exact boot

theorem rootEntries_again (platform : Platform) (faults : platform.faults = Faults.none) :
    fatRootEntries platform fat disk' = fatRootEntries platform fat disk := by
  have inside := volume.inside
  have root := volume.root
  have word : disk.total.toNat < 2 ^ 32 := disk.total.toNat_lt
  have same : ∀ index < fat.rootDirSectors,
      fatSectorBytes platform fat disk' (fat.rootDirLba + index) =
        fatSectorBytes platform fat disk (fat.rootDirLba + index) := by
    intro index below
    have place : u32 (fat.partitionLba + (fat.rootDirLba + index)) =
        fat.partitionLba + (fat.rootDirLba + index) := u32_of_small (by omega)
    unfold fatSectorBytes fatReadSector
    rw [faults, place, read_again changed (front_spared volume data (by omega))]
  have whole : (List.range fat.rootDirSectors).flatMap (fun index =>
      fatSectorBytes platform fat disk' (fat.rootDirLba + index)) =
        (List.range fat.rootDirSectors).flatMap fun index =>
          fatSectorBytes platform fat disk (fat.rootDirLba + index) :=
    List.flatMap_congr fun index listed => same index (List.mem_range.mp listed)
  unfold fatRootEntries
  rw [whole]

theorem sectorBytes_again (platform : Platform) (faults : platform.faults = Faults.none)
    {cluster sector : Nat} (inData : InData fat cluster) (apart : cluster ∉ chain)
    (below : sector < fat.sectorsPerCluster) :
    fatSectorBytes platform fat disk' (fatClusterLba fat cluster + sector) =
      fatSectorBytes platform fat disk (fatClusterLba fat cluster + sector) := by
  have place : u32 (fat.partitionLba + (fatClusterLba fat cluster + sector)) =
      clusterSector fat cluster + sector := (data_reaches volume inData below).1
  have spared : clusterSector fat cluster + sector ∉ sectorsOf fat chain := by
    rintro ⟨other, listed, first, last⟩
    have distinct : cluster ≠ other := by
      rintro rfl
      exact apart listed
    have separate := clusters_apart inData (data other listed) distinct
    omega
  unfold fatSectorBytes fatReadSector
  rw [faults, place, read_again changed spared]

/-- The chain of a subdirectory that the file does not share. -/
theorem fatChain_again {start : Nat} {directory : List Nat}
    (links : Chain fat disk start directory) (fuel : Nat) : ∀ index cluster : Nat,
    directory[index]? = some cluster →
    fatChain Faults.none fat disk' fuel cluster = fatChain Faults.none fat disk fuel cluster ∧
      ∀ clusters, fatChain Faults.none fat disk fuel cluster = some clusters →
        ∀ other ∈ clusters, other ∈ directory := by
  induction fuel with
  | zero => intro index cluster _; exact ⟨rfl, fun clusters found => nomatch found⟩
  | succ fuel fuel_ih =>
      intro index cluster placed
      have inside := links.inside volume placed
      have listed := List.mem_of_getElem? placed
      have below := (links.data cluster listed).2
      have rest : fatChain Faults.none fat disk' fuel (fatGetEntry Faults.none fat disk cluster) =
          fatChain Faults.none fat disk fuel (fatGetEntry Faults.none fat disk cluster) ∧
        ∀ clusters, fatChain Faults.none fat disk fuel (fatGetEntry Faults.none fat disk cluster) =
          some clusters → ∀ other ∈ clusters, other ∈ directory := by
        have shorter := (List.getElem?_eq_some_iff.mp placed).1
        by_cases last : index + 1 = directory.length
        · have ended := links.ended cluster (by rw [← last, Nat.add_sub_cancel]; exact placed)
          cases fuel with
          | zero => exact ⟨rfl, fun clusters found => nomatch found⟩
          | succ fuel =>
              rw [fatChain, fatChain, if_pos (Or.inr ended), if_pos (Or.inr ended)]
              refine ⟨rfl, fun clusters found other member => ?_⟩
              cases found
              cases member
        · have next : directory[index + 1]? = some directory[index + 1] :=
            List.getElem?_eq_getElem (by omega)
          rw [links.linked index cluster _ placed next]
          exact fuel_ih (index + 1) _ next
      rw [fatChain, fatChain, if_neg inside, if_neg inside,
        getEntry_changed volume data changed below, rest.1]
      refine ⟨rfl, ?_⟩
      intro clusters found other member
      rcases Option.map_eq_some_iff.mp found with ⟨others, known, rfl⟩
      rcases List.mem_cons.mp member with rfl | behind
      · exact listed
      · exact rest.2 others known other behind

/-- The entries of a subdirectory that the file does not share. -/
theorem subEntries_again (platform : Platform) (faults : platform.faults = Faults.none)
    {start : Nat} {directory : List Nat} (links : Chain fat disk start directory)
    (apart : ∀ cluster ∈ directory, cluster ∉ chain) (fuel : Nat) :
    fatSubEntries platform fuel fat disk' start = fatSubEntries platform fuel fat disk start := by
  have again := fatChain_again changed volume data links fuel 0 start links.first
  unfold fatSubEntries
  rw [faults, again.1]
  cases found : fatChain Faults.none fat disk fuel start with
  | none => rfl
  | some clusters =>
      have inside := again.2 clusters found
      have whole : clusters.flatMap (fun cluster =>
          (List.range fat.sectorsPerCluster).flatMap fun sector =>
            fatSectorBytes platform fat disk' (fatClusterLba fat cluster + sector)) =
          clusters.flatMap fun cluster =>
            (List.range fat.sectorsPerCluster).flatMap fun sector =>
              fatSectorBytes platform fat disk (fatClusterLba fat cluster + sector) := by
        apply List.flatMap_congr
        intro cluster listed
        apply List.flatMap_congr
        intro sector below
        have member := inside cluster listed
        exact sectorBytes_again changed volume data platform faults (links.data cluster member)
          (apart cluster member) (List.mem_range.mp below)
      rw [Option.map_some, Option.map_some, whole]

end Again

/-! ## Mounting again -/

/-- The end of `fat16_init`: the directory that was read is appended to the root. -/
def attached (storage : Storage) (fat : FatVolume) (dir : Nat) (fs : Fs) : Storage :=
  let named := fs.modify dir fun node => { node with name := literal "fat" }
  match named.root with
  | none => { storage with fs := named, fat := fat }
  | some root =>
      if (named.childrenOf root).length < vfsMaxChildren then
        { storage with
          fs := (named.modify root (VfsNode.attach dir)).modify dir
            fun node => { node with parent := some root }
          fat := { fat with mounted := true } }
      else { storage with fs := named, fat := fat }

theorem init_boot {platform : Platform} {storage : Storage} {partitionLba : Nat}
    {sector : List UInt8}
    (boot : fatBootSector platform.faults storage.disk = some (partitionLba, sector)) :
    fat16Init platform storage = (fatLayout partitionLba sector).bind fun fat =>
      (fatReadDir platform 0 (fatRootEntries platform fat storage.disk) storage.fs).map
        fun read => attached storage fat read.1 read.2 := by
  unfold fat16Init
  rw [boot]
  rfl

theorem attached_disk (storage : Storage) (fat : FatVolume) (dir : Nat) (fs : Fs) (disk' : Disk) :
    attached { storage with disk := disk' } fat dir fs =
      { attached storage fat dir fs with disk := disk' } := by
  unfold attached
  dsimp only
  cases (fs.modify dir fun node => { node with name := literal "fat" }).root with
  | none => rfl
  | some top =>
      dsimp only
      split_ifs <;> rfl

theorem attached_fat (storage : Storage) (fat : FatVolume) (dir : Nat) (fs : Fs) :
    (attached storage fat dir fs).disk = storage.disk ∧
      ((attached storage fat dir fs).fat = fat ∨
        (attached storage fat dir fs).fat = { fat with mounted := true }) := by
  unfold attached
  dsimp only
  cases (fs.modify dir fun node => { node with name := literal "fat" }).root with
  | none => exact ⟨rfl, Or.inl rfl⟩
  | some top =>
      dsimp only
      split_ifs
      · exact ⟨rfl, Or.inr rfl⟩
      · exact ⟨rfl, Or.inl rfl⟩

/-- What mounting has found: a boot sector and the layout that it gives. -/
theorem init_layout {platform : Platform} {storage mounted : Storage}
    (init : fat16Init platform storage = some mounted) (fresh : storage.fat.mounted = false)
    (ready : mounted.fat.mounted = true) :
    mounted.disk = storage.disk ∧ ∃ partitionLba sector fat,
      fatBootSector platform.faults storage.disk = some (partitionLba, sector) ∧
        fatLayout partitionLba sector = some fat ∧ fat.partitionLba = partitionLba ∧
        mounted.fat = { fat with mounted := true } := by
  cases boot : fatBootSector platform.faults storage.disk with
  | none =>
      unfold fat16Init at init
      rw [boot] at init
      cases init
      rw [fresh] at ready
      cases ready
  | some found =>
      rcases found with ⟨partitionLba, sector⟩
      rw [init_boot boot] at init
      rcases Option.bind_eq_some_iff.mp init with ⟨fat, layout, init⟩
      rcases Option.map_eq_some_iff.mp init with ⟨read, _, rfl⟩
      have unmounted : fat.mounted = false ∧ fat.partitionLba = partitionLba := by
        unfold fatLayout at layout
        dsimp only at layout
        by_cases zero : byteAt sector 13 = 0
        · rw [if_pos zero] at layout
          cases layout
        · rw [if_neg zero] at layout
          cases layout
          exact ⟨rfl, rfl⟩
      have shape := attached_fat storage fat read.1 read.2
      refine ⟨shape.1, partitionLba, sector, fat, rfl, layout, unmounted.2, ?_⟩
      apply shape.2.resolve_left
      intro same
      rw [same, unmounted.1] at ready
      cases ready

/-- Mounting a medium with the same boot sector and the same root directory. -/
theorem init_again {platform : Platform} {storage mounted : Storage} {disk' : Disk}
    {partitionLba : Nat} {sector : List UInt8} {fat : FatVolume}
    (init : fat16Init platform storage = some mounted)
    (boot : fatBootSector platform.faults storage.disk = some (partitionLba, sector))
    (boot' : fatBootSector platform.faults disk' = some (partitionLba, sector))
    (layout : fatLayout partitionLba sector = some fat)
    (root : fatRootEntries platform fat disk' = fatRootEntries platform fat storage.disk) :
    fat16Init platform { storage with disk := disk' } = some { mounted with disk := disk' } := by
  rw [init_boot boot, layout, Option.bind_some] at init
  rcases Option.map_eq_some_iff.mp init with ⟨read, found, rfl⟩
  rw [init_boot boot', layout, Option.bind_some, root, found, Option.map_some, attached_disk]

def listings (platform : Platform) (fuel : Nat) : List (Nat × Nat) → Storage → Option Storage
  | [], storage => some storage
  | (id, index) :: rest, storage =>
      (fatReaddir platform fuel storage id index).bind fun listed =>
        listings platform fuel rest listed.2

/-- Every subdirectory that is read in some listings has clusters of its own, none of which is the
file's. -/
def DirectoriesApart (platform : Platform) (fuel : Nat) (chain : List Nat) :
    List (Nat × Nat) → Storage → Prop
  | [], _ => True
  | (id, index) :: rest, storage =>
      (∀ child node, (storage.fs.childrenOf id)[index]? = some child →
        storage.fs.node child = some node → Unread node →
        ∃ directory, Chain storage.fat storage.disk (node.ownerGid.toNat % 2 ^ 16) directory ∧
          ∀ cluster ∈ directory, cluster ∉ chain) ∧
      ∀ listed, fatReaddir platform fuel storage id index = some listed →
        DirectoriesApart platform fuel chain rest listed.2

theorem readdir_keeps {platform : Platform} {fuel : Nat} {storage : Storage} {id index : Nat}
    {listed : Option Nat × Storage}
    (found : fatReaddir platform fuel storage id index = some listed) :
    listed.2.disk = storage.disk ∧ listed.2.fat = storage.fat := by
  rcases listed with ⟨entry, storage'⟩
  rcases fatReaddir_cases found with rfl | ⟨_, _, _, _, -, -, -, -, rfl⟩
  · exact ⟨rfl, rfl⟩
  · exact ⟨rfl, rfl⟩

theorem listings_keeps {platform : Platform} {fuel : Nat} (path : List (Nat × Nat)) :
    ∀ {storage listed : Storage}, listings platform fuel path storage = some listed →
      listed.disk = storage.disk ∧ listed.fat = storage.fat := by
  induction path with
  | nil =>
      intro storage listed found
      cases found
      exact ⟨rfl, rfl⟩
  | cons step rest rest_ih =>
      intro storage listed found
      unfold listings at found
      rcases Option.bind_eq_some_iff.mp found with ⟨first, read, others⟩
      have keeps := readdir_keeps read
      have later := rest_ih others
      exact ⟨later.1.trans keeps.1, later.2.trans keeps.2⟩

section Listings

variable {platform : Platform} (faults : platform.faults = Faults.none) {fat : FatVolume}
  {disk disk' : Disk} {chain : List Nat}
  (changed : Disk.ChangedOnly (· ∈ sectorsOf fat chain) disk disk')
  (volume : OnMedium fat disk) (data : ∀ cluster ∈ chain, InData fat cluster)

include faults changed volume data

/-- A listing of the changed medium reads the same entries. -/
theorem readdir_again {fuel : Nat} {storage : Storage} (same : storage.disk = disk)
    (same' : storage.fat = fat) {id index : Nat}
    (apart : ∀ child node, (storage.fs.childrenOf id)[index]? = some child →
      storage.fs.node child = some node → Unread node →
      ∃ directory, Chain storage.fat storage.disk (node.ownerGid.toNat % 2 ^ 16) directory ∧
        ∀ cluster ∈ directory, cluster ∉ chain) :
    fatReaddir platform fuel { storage with disk := disk' } id index =
      (fatReaddir platform fuel storage id index).map fun listed =>
        (listed.1, { listed.2 with disk := disk' }) := by
  unfold fatReaddir
  dsimp only
  cases child : (storage.fs.childrenOf id)[index]? with
  | none => rfl
  | some child' =>
      dsimp only
      cases held : storage.fs.node child' with
      | none => rfl
      | some node =>
          dsimp only
          by_cases unread : node.type = vfsDirectory ∧ node.children = [] ∧
              node.name.head? ≠ some 46
          · rcases apart child' node child held unread with ⟨directory, links, separate⟩
            rw [same, same'] at links
            rw [if_pos unread, if_pos unread, same, same',
              subEntries_again changed volume data platform faults links separate fuel,
              Option.map_map]
            rfl
          · rw [if_neg unread, if_neg unread]
            rfl

theorem listings_again {fuel : Nat} (path : List (Nat × Nat)) : ∀ {storage listed : Storage},
    storage.disk = disk → storage.fat = fat → DirectoriesApart platform fuel chain path storage →
    listings platform fuel path storage = some listed →
    listings platform fuel path { storage with disk := disk' } =
      some { listed with disk := disk' } := by
  induction path with
  | nil =>
      intro storage listed _ _ _ found
      cases found
      rfl
  | cons step rest rest_ih =>
      intro storage listed same same' apart found
      rcases step with ⟨id, index⟩
      unfold listings at found ⊢
      rcases Option.bind_eq_some_iff.mp found with ⟨first, read, others⟩
      have keeps := readdir_keeps read
      rw [readdir_again faults changed volume data same same' apart.1, read, Option.map_some,
        Option.bind_some]
      exact rest_ih (keeps.1.trans same) (keeps.2.trans same') (apart.2 first read) others

end Listings

/-! ## Runs of writes -/

/-- A file that is written: its node, the medium, and the bytes that it is to have. -/
structure Written where
  node : VfsNode
  disk : Disk
  bytes : List UInt8

/-- One write, at an offset; the file is to have the bytes that the call says it has written. -/
def writeOne (fuel : Nat) (fat : FatVolume) (file : Written) (write : Nat × List UInt8) :
    Option Written :=
  (fatNodeWrite Faults.none fuel fat file.node write.1 write.2 file.disk).map fun result =>
    ⟨result.2.1, result.2.2, writeAt file.bytes write.1 (write.2.take result.1)⟩

def writes (fuel : Nat) (fat : FatVolume) : List (Nat × List UInt8) → Written → Option Written
  | [], file => some file
  | write :: rest, file => (writeOne fuel fat file write).bind (writes fuel fat rest)

/-- A volume that was mounted and whose directories were listed, and a file of it. -/
structure Opened (platform : Platform) (storage : Storage) (fuel : Nat) (path : List (Nat × Nat))
    (id : Nat) (fat : FatVolume) (node : VfsNode) (chain : List Nat) : Prop where
  faults : platform.faults = Faults.none
  fresh : storage.fat.mounted = false
  found : ∃ mounted listed, fat16Init platform storage = some mounted ∧ mounted.fat = fat ∧
    fat.mounted = true ∧ DirectoriesApart platform fuel chain path mounted ∧
    listings platform fuel path mounted = some listed ∧ listed.fs.node id = some node
  volume : OnMedium fat storage.disk
  stands : Stands fat storage.disk node chain

/-- Mounting a medium and listing the directories again finds the file with these bytes. -/
def FoundAgain (platform : Platform) (storage : Storage) (fuel : Nat) (path : List (Nat × Nat))
    (id : Nat) (disk : Disk) (bytes : List UInt8) : Prop :=
  ∃ listed node, (fat16Init platform { storage with disk := disk }).bind
      (listings platform fuel path) = some listed ∧ listed.fs.node id = some node ∧
    node.size.toNat = bytes.length ∧ ∀ off size, off + size < 2 ^ 32 →
      ∃ fuel, fatNodeRead platform.faults fuel listed.fat listed.disk node off size =
        some (slice bytes off size)

theorem writes_within {fat : FatVolume} {chain : List Nat} {fuel : Nat}
    (mounted : fat.mounted = true) (enough : chain.length < fuel)
    (calls : List (Nat × List UInt8)) : ∀ file : Written, OnMedium fat file.disk →
    Stands fat file.disk file.node chain →
    file.bytes = contents fat chain file.disk file.node.size.toNat →
    (∀ call ∈ calls, call.2 = [] ∨ call.1 + call.2.length ≤ file.node.size.toNat) →
    ∃ file', writes fuel fat calls file = some file' ∧ file'.node = file.node ∧
      Disk.ChangedOnly (· ∈ sectorsOf fat chain) file.disk file'.disk ∧
      file'.bytes = contents fat chain file'.disk file'.node.size.toNat := by
  induction calls with
  | nil =>
      intro file _ _ bytes _
      exact ⟨file, rfl, rfl, Disk.ChangedOnly.refl _ _, bytes⟩
  | cons call rest rest_ih =>
      intro file volume stands bytes within
      rcases nodeWrite_eq volume mounted stands (within call List.mem_cons_self) enough with
        ⟨disk', written, changed, replaced⟩
      have one : writeOne fuel fat file call =
          some ⟨file.node, disk', writeAt file.bytes call.1 call.2⟩ := by
        unfold writeOne
        rw [written, Option.map_some, List.take_length]
      have volume' := onMedium_changed volume changed
      have stands' : Stands fat disk' file.node chain :=
        ⟨stands.data, fun some' => chain_changed volume stands.data changed (stands.links some'),
          stands.long⟩
      rcases rest_ih ⟨file.node, disk', writeAt file.bytes call.1 call.2⟩ volume' stands'
        (by rw [bytes]; exact replaced.symm)
        (fun other listed => within other (List.mem_cons_of_mem _ listed)) with
        ⟨file', others, node, changed', bytes'⟩
      refine ⟨file', ?_, node, changed.trans changed', bytes'⟩
      unfold writes
      rw [one, Option.bind_some]
      exact others

/-- After writes within the size of a file, mounting the volume again and reading the file gives
the bytes that were written. -/
theorem writes_persist {platform : Platform} {storage : Storage} {fuel : Nat}
    {path : List (Nat × Nat)} {id : Nat} {fat : FatVolume} {node : VfsNode} {chain : List Nat}
    (opened : Opened platform storage fuel path id fat node chain) {steps : Nat}
    (enough : chain.length < steps) {calls : List (Nat × List UInt8)}
    (within : ∀ call ∈ calls, call.2 = [] ∨ call.1 + call.2.length ≤ node.size.toNat) :
    ∃ file, writes steps fat calls
        ⟨node, storage.disk, contents fat chain storage.disk node.size.toNat⟩ = some file ∧
      file.node.size.toNat = file.bytes.length ∧
      FoundAgain platform storage fuel path id file.disk file.bytes := by
  rcases opened.found with ⟨mounted, listed, init, here, ready, apart, walk, held⟩
  have volume := opened.volume
  have stands := opened.stands
  have data := stands.data
  rcases writes_within ready enough calls
    ⟨node, storage.disk, contents fat chain storage.disk node.size.toNat⟩ volume stands rfl
    within with ⟨file, run, same, changed, bytes⟩
  have same : file.node = node := same
  have changed : Disk.ChangedOnly (· ∈ sectorsOf fat chain) storage.disk file.disk := changed
  have length : file.bytes.length = node.size.toNat := by
    rw [bytes, contents, window_length, same]
  have volume' := onMedium_changed volume changed
  have stands' : Stands fat file.disk node chain :=
    ⟨data, fun some' => chain_changed volume data changed (stands.links some'), stands.long⟩
  have initial := init_layout init opened.fresh (by rw [here]; exact ready)
  rcases initial with ⟨medium, partitionLba, sector, layout, boot, computed, number, final⟩
  have again : fat16Init platform { storage with disk := file.disk } =
      some { mounted with disk := file.disk } := by
    have numbers : fat = { layout with mounted := true } := here.symm.trans final
    have boot' : fatBootSector platform.faults file.disk = some (partitionLba, sector) := by
      rw [opened.faults] at boot ⊢
      exact bootSector_again changed volume data boot (by rw [numbers]; exact number)
    have root := rootEntries_again changed volume data platform opened.faults
    rw [numbers] at root
    exact init_again init boot boot' computed root
  have relisted := listings_again opened.faults changed volume data path medium here apart walk
  have keeps := listings_keeps path walk
  refine ⟨file, run, by rw [length, same], ?_⟩
  refine ⟨{ listed with disk := file.disk }, node, ?_, held, length.symm, ?_⟩
  · rw [again, Option.bind_some]
    exact relisted
  · intro off size word
    refine ⟨chain.length + 1, ?_⟩
    have volumeAgain : listed.fat = fat := keeps.2.trans here
    dsimp only
    rw [opened.faults, volumeAgain, nodeRead_eq volume' stands' word (Nat.lt_succ_self _), bytes,
      same]

/-! ## A file of one byte -/

/-- A volume of thirteen clusters with a file "f" of one byte in its root directory. -/
def oneByteDisk : Disk where
  present := true
  total := 16
  bytes := fun position =>
    if 1025 ≤ position ∧ position < 1035 then 0x20
    else ([(12, 2), (13, 1), (14, 1), (16, 1), (17, 16), (19, 16), (22, 1), (516, 0xFF),
      (517, 0xFF), (1024, 0x46), (1035, 0x20), (1050, 2), (1052, 1), (1536, 0x61)].lookup
        position).getD 0

def oneByteVolume : FatVolume := ⟨0, 1, 1, 16, 1, 1, 2, 3, 1, 13, true⟩

def oneByteNode : VfsNode where
  name := literal "f"
  type := vfsFile
  permissions := 0o644
  ownerUid := 0
  ownerGid := 2
  size := 1
  created := 0
  modified := 0
  ops := .fatFile
  parent := some 1
  children := []
  data := none
  blocks := none
  diskBacked := false

def oneByteStorage : Storage where
  fs := {
    node := fun id => if id = 0 then some { fatDirectoryNode 0 with ops := .ramfs } else none
    root := some 0
    next := 1 }
  store := Blockfs.disabled
  disk := oneByteDisk
  fat := FatVolume.unmounted
  randState := 0

theorem oneByte_mounted : ∃ mounted, fat16Init Platform.ideal oneByteStorage = some mounted ∧
    mounted.fat = oneByteVolume ∧ mounted.fs.node 2 = some oneByteNode := by
  have found : (fat16Init Platform.ideal oneByteStorage).map
      (fun mounted => (mounted.fat, mounted.fs.node 2)) =
        some (oneByteVolume, some oneByteNode) := by
    decide +kernel
  rcases Option.map_eq_some_iff.mp found with ⟨mounted, init, both⟩
  exact ⟨mounted, init, congrArg Prod.fst both, congrArg Prod.snd both⟩

theorem oneByte_links : Chain oneByteVolume oneByteDisk 2 [2] where
  first := rfl
  data := by
    intro cluster listed
    rw [List.mem_singleton.mp listed]
    exact ⟨by decide, by decide⟩
  distinct := List.nodup_singleton 2
  linked := by
    intro index cluster next _ placed
    cases placed
  ended := by
    intro cluster placed
    cases placed
    have last : fatGetEntry Faults.none oneByteVolume oneByteDisk 2 = 0xFFFF := by decide +kernel
    rw [last]
    decide

theorem oneByte_opened :
    Opened Platform.ideal oneByteStorage 0 [] 2 oneByteVolume oneByteNode [2] where
  faults := rfl
  fresh := rfl
  found := by
    rcases oneByte_mounted with ⟨mounted, init, volume, held⟩
    exact ⟨mounted, mounted, init, volume, rfl, trivial, rfl, held⟩
  volume := by constructor <;> decide
  stands := ⟨oneByte_links.data, fun _ => oneByte_links, by decide⟩

theorem writes_persist_oneByte :
    ∃ file, writes 2 oneByteVolume [(0, [0x62])]
        ⟨oneByteNode, oneByteDisk, contents oneByteVolume [2] oneByteDisk 1⟩ = some file ∧
      file.node.size.toNat = file.bytes.length ∧
      FoundAgain Platform.ideal oneByteStorage 0 [] 2 file.disk file.bytes :=
  writes_persist oneByte_opened (by decide) (by decide)

/-- Writing one byte behind it is not: the directory entry keeps the size. -/
theorem appended_lost :
    Opened Platform.ideal oneByteStorage 0 [] 2 oneByteVolume oneByteNode [2] ∧
      ∃ file, writes 2 oneByteVolume [(1, [0x62])] ⟨oneByteNode, oneByteDisk, [0x61]⟩ =
          some file ∧ file.node.size = 2 ∧ file.bytes = [0x61, 0x62] ∧
        ¬FoundAgain Platform.ideal oneByteStorage 0 [] 2 file.disk file.bytes := by
  have run : (writes 2 oneByteVolume [(1, [0x62])] ⟨oneByteNode, oneByteDisk, [0x61]⟩).map
      (fun file => (file.node.size, file.bytes,
        (fat16Init Platform.ideal { oneByteStorage with disk := file.disk }).map
          fun mounted => (mounted.fs.node 2).map fun node => node.size)) =
        some (2, [0x61, 0x62], some (some 1)) := by
    decide +kernel
  rcases Option.map_eq_some_iff.mp run with ⟨file, written, same⟩
  have size : file.node.size = 2 := congrArg Prod.fst same
  have bytes : file.bytes = [0x61, 0x62] := congrArg (fun all => all.2.1) same
  have again : (fat16Init Platform.ideal { oneByteStorage with disk := file.disk }).map
      (fun mounted => (mounted.fs.node 2).map fun node => node.size) = some (some 1) :=
    congrArg (fun all => all.2.2) same
  refine ⟨oneByte_opened, file, written, size, bytes, ?_⟩
  rintro ⟨listed, node, found, held, length, _⟩
  rcases Option.bind_eq_some_iff.mp found with ⟨mounted, init, walk⟩
  cases walk
  rw [init, Option.map_some, held, Option.map_some] at again
  have one : node.size = 1 := Option.some.inj (Option.some.inj again)
  rw [one, bytes] at length
  exact absurd length (by decide)

end Fat

end Trinux
