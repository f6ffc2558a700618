import Trinux.Fs.DiskLayout
import Trinux.Fs.FatLayout
import Trinux.Fs.FatTable

namespace Trinux

open Bytes

/-!
# The bytes of a file on a FAT volume

The clusters of a chain are one byte array.  On a medium without faults the loops of
`fat16_node_read` and `fat16_node_write` read a part of this array and replace a part of it, as long
as they stay inside of the chain.
-/

namespace Fat

/-- A volume lies on its medium: its areas follow each other, the table has an entry for every
cluster, a cluster is smaller than 64 KiB, and the numbers of the clusters end below the marks for
the end of a chain. -/
structure OnMedium (fat : FatVolume) (disk : Disk) : Prop where
  present : disk.present = true
  positive : 0 < fat.sectorsPerCluster
  small : fat.sectorsPerCluster * 512 < 2 ^ 16
  few : fat.totalClusters + 2 ≤ 0xFFF8
  boot : 0 < fat.fatStartLba
  table : (fat.totalClusters + 2) * 2 ≤ fat.sectorsPerFat * 512
  copies : 0 < fat.fatCount
  front : fat.fatStartLba + fat.fatCount * fat.sectorsPerFat ≤ fat.rootDirLba
  root : fat.rootDirLba + fat.rootDirSectors ≤ fat.dataStartLba
  inside : fat.partitionLba + fat.dataStartLba + fat.totalClusters * fat.sectorsPerCluster ≤
    disk.total.toNat

def InData (fat : FatVolume) (cluster : Nat) : Prop :=
  2 ≤ cluster ∧ cluster < fat.totalClusters + 2

def clusterSector (fat : FatVolume) (cluster : Nat) : Nat :=
  fat.partitionLba + fat.dataStartLba + (cluster - 2) * fat.sectorsPerCluster

def clusterBytes (fat : FatVolume) : Nat := fat.sectorsPerCluster * 512

structure Chain (fat : FatVolume) (disk : Disk) (start : Nat) (chain : List Nat) : Prop where
  first : chain[0]? = some start
  data : ∀ cluster ∈ chain, InData fat cluster
  distinct : chain.Nodup
  linked : ∀ index cluster next, chain[index]? = some cluster → chain[index + 1]? = some next →
    fatGetEntry Faults.none fat disk cluster = next
  ended : ∀ cluster, chain[chain.length - 1]? = some cluster →
    0xFFF8 ≤ fatGetEntry Faults.none fat disk cluster

def fileByte (fat : FatVolume) (chain : List Nat) (medium : Nat → UInt8) : Nat → UInt8 :=
  fun position => medium (clusterSector fat (chain.getD (position / clusterBytes fat) 0) * 512 +
    position % clusterBytes fat)

def sectorsOf (fat : FatVolume) (chain : List Nat) : Set Nat :=
  {sector | ∃ cluster ∈ chain, clusterSector fat cluster ≤ sector ∧
    sector < clusterSector fat cluster + fat.sectorsPerCluster}

theorem clusters_apart {fat : FatVolume} {cluster other : Nat} (data : InData fat cluster)
    (data' : InData fat other) (distinct : cluster ≠ other) :
    clusterSector fat cluster + fat.sectorsPerCluster ≤ clusterSector fat other ∨
      clusterSector fat other + fat.sectorsPerCluster ≤ clusterSector fat cluster := by
  have step : ∀ a b : Nat, a < b →
      a * fat.sectorsPerCluster + fat.sectorsPerCluster ≤ b * fat.sectorsPerCluster := by
    intro a b less
    have many := Nat.mul_le_mul_right fat.sectorsPerCluster (Nat.succ_le_of_lt less)
    rwa [Nat.succ_mul] at many
  have first := data.1
  have second := data'.1
  unfold clusterSector
  rcases Nat.lt_or_gt_of_ne distinct with less | less
  · have apart := step (cluster - 2) (other - 2) (by omega)
    omega
  · have apart := step (other - 2) (cluster - 2) (by omega)
    omega

section Areas

variable {fat : FatVolume} {disk : Disk} (volume : OnMedium fat disk)

include volume

theorem clusterBytes_pos : 0 < clusterBytes fat := by
  have positive := volume.positive
  unfold clusterBytes
  omega

/-- A cluster of the data area ends inside of the volume. -/
theorem clusterSector_le {cluster : Nat} (data : InData fat cluster) :
    fat.partitionLba + fat.dataStartLba ≤ clusterSector fat cluster ∧
      clusterSector fat cluster + fat.sectorsPerCluster ≤ disk.total.toNat := by
  have room : (cluster - 2 + 1) * fat.sectorsPerCluster ≤
      fat.totalClusters * fat.sectorsPerCluster := by
    apply Nat.mul_le_mul_right
    have bounds := data
    unfold InData at bounds
    omega
  have inside := volume.inside
  rw [Nat.add_mul, Nat.one_mul] at room
  unfold clusterSector
  omega

/-- The sectors of a cluster that are reached through `fat16_cluster_to_lba`. -/
theorem data_reaches {cluster sector : Nat} (data : InData fat cluster)
    (within : sector < fat.sectorsPerCluster) :
    address fat (fatClusterLba fat cluster + sector) = clusterSector fat cluster + sector ∧
      Reaches fat disk (fatClusterLba fat cluster + sector) := by
  have bounds := clusterSector_le volume data
  have word : disk.total.toNat < 2 ^ 32 := disk.total.toNat_lt
  have few := volume.few
  have lba : fatClusterLba fat cluster =
      fat.dataStartLba + (cluster - 2) * fat.sectorsPerCluster := by
    apply fatClusterLba_data data.1
    · unfold clusterSector at bounds
      omega
    · have below := data.2
      omega
  have place : address fat (fatClusterLba fat cluster + sector) =
      clusterSector fat cluster + sector := by
    unfold address
    rw [lba, ← Nat.add_assoc, ← Nat.add_assoc]
    apply u32_of_small
    unfold clusterSector at bounds
    omega
  refine ⟨place, volume.present, ?_⟩
  rw [place]
  omega

/-- The entry of a cluster lies in the first copy of the table. -/
theorem entryLba_lt {cluster : Nat} (below : cluster < fat.totalClusters + 2) {copy : Nat}
    (known : copy < fat.fatCount) :
    fat.fatStartLba ≤ entryLba fat cluster copy ∧ entryLba fat cluster copy < fat.rootDirLba := by
  have table := volume.table
  have front := volume.front
  have place : cluster * 2 / 512 < fat.sectorsPerFat := by
    rw [Nat.div_lt_iff_lt_mul (by decide)]
    omega
  have room := Nat.mul_le_mul_right fat.sectorsPerFat (Nat.succ_le_of_lt known)
  rw [Nat.succ_mul] at room
  unfold entryLba
  omega

theorem entry_reaches {cluster : Nat} (below : cluster < fat.totalClusters + 2) {copy : Nat}
    (known : copy < fat.fatCount) :
    address fat (entryLba fat cluster copy) = fat.partitionLba + entryLba fat cluster copy ∧
      Reaches fat disk (entryLba fat cluster copy) := by
  have bounds := entryLba_lt volume below known
  have inside := volume.inside
  have root := volume.root
  have word : disk.total.toNat < 2 ^ 32 := disk.total.toNat_lt
  have place : address fat (entryLba fat cluster copy) =
      fat.partitionLba + entryLba fat cluster copy := by
    unfold address
    apply u32_of_small
    omega
  refine ⟨place, volume.present, ?_⟩
  rw [place]
  omega

end Areas

/-! ## One cluster -/

section Cluster

/-- Behind a part of a transfer there is room for what is left of it. -/
theorem next_part {size part byte left count take : Nat} (low : byte < size) (some' : left ≠ 0)
    (taken : min (size - byte) left = take) (within : part * size + byte + left ≤ count * size) :
    (part + 1) * size + 0 + (left - take) ≤ count * size := by
  have upper : part < count := by
    have less : part * size < count * size := by omega
    exact Nat.lt_of_mul_lt_mul_right less
  have wide : (part + 1) * size ≤ count * size := Nat.mul_le_mul_right size upper
  rcases Nat.le_total left (size - byte) with last | more
  · rw [Nat.min_eq_right last] at taken
    rw [← taken, Nat.sub_self, Nat.add_zero, Nat.add_zero]
    exact wide
  · rw [Nat.min_eq_left more] at taken
    have split : byte + left = size + (left - take) := by omega
    rw [Nat.succ_mul, Nat.add_zero, Nat.add_assoc, ← split, ← Nat.add_assoc]
    exact within

/-- The loop of `fat16_node_read` in a cluster whose sectors follow each other on the medium. -/
theorem readCluster_eq {disk : Disk}
    (reaches : ∀ sector < count, address fat (lba + sector) = first + sector ∧
      Reaches fat disk (lba + sector)) (fuel : Nat) : ∀ sector byte left : Nat, byte < 512 →
    left ≤ fuel → sector * 512 + byte + left ≤ count * 512 →
    fatReadCluster Faults.none fat disk lba fuel sector byte left =
      window disk.bytes ((first + sector) * 512 + byte) left := by
  induction fuel with
  | zero =>
      intro sector byte left _ enough _
      rw [Nat.le_zero.mp enough]
      rfl
  | succ fuel fuel_ih =>
      intro sector byte left low enough within
      rw [fatReadCluster]
      by_cases nothing : left = 0
      · rw [if_pos nothing, nothing]
        rfl
      · have here := reaches sector (by omega)
        rw [if_neg nothing, read_sector here.2, here.1, sectors_one]
        dsimp only
        generalize taken : min (512 - byte) left = take
        have part : slice (window disk.bytes ((first + sector) * 512) 512) byte take =
            window disk.bytes ((first + sector) * 512 + byte) take :=
          slice_window _ _ (by omega)
        have room := next_part low nothing taken within
        have fewer : left - take ≤ fuel := by omega
        rw [part, fuel_ih (sector + 1) 0 (left - take) (Nat.zero_lt_succ _) fewer room]
        by_cases last : take = left
        · rw [last, Nat.sub_self]
          exact List.append_nil _
        · have next : (first + (sector + 1)) * 512 + 0 =
              (first + sector) * 512 + byte + take := by omega
          have split : left = take + (left - take) := by omega
          rw [next, ← window_add, ← split]

def withBytes (disk : Disk) (position : Nat) (new : List UInt8) : Disk :=
  { disk with bytes := overwrite disk.bytes position new }

/-- The loop of `fat16_node_write` in a cluster whose sectors follow each other on the medium. -/
theorem writeCluster_eq (fuel : Nat) : ∀ (sector byte : Nat) (buffer : List UInt8) (disk : Disk),
    (∀ sector < count, address fat (lba + sector) = first + sector ∧
      Reaches fat disk (lba + sector)) → byte < 512 → buffer.length ≤ fuel →
    sector * 512 + byte + buffer.length ≤ count * 512 →
    fatWriteCluster Faults.none fat lba fuel sector byte buffer disk =
      (buffer.length, withBytes disk ((first + sector) * 512 + byte) buffer) := by
  induction fuel with
  | zero =>
      intro sector byte buffer disk _ _ enough _
      have empty := List.length_eq_zero_iff.mp (Nat.le_zero.mp enough)
      rw [empty, withBytes, overwrite_nil]
      rfl
  | succ fuel fuel_ih =>
      intro sector byte buffer disk reaches low enough within
      rw [fatWriteCluster]
      by_cases nothing : buffer.length = 0
      · rw [if_pos nothing, List.length_eq_zero_iff.mp nothing, withBytes, overwrite_nil]
        rfl
      · have here := reaches sector (by omega)
        rw [if_neg nothing, read_sector here.2, here.1]
        dsimp only
        generalize taken : min (512 - byte) buffer.length = take
        have size : (buffer.take take).length = take := by
          rw [List.length_take]
          omega
        have fits : byte + (buffer.take take).length ≤ 512 := by
          rw [size]
          omega
        have full : (splice (disk.sectors (first + sector) 1) byte (buffer.take take)).length =
            512 := by
          have length : (disk.sectors (first + sector) 1).length = 512 := Disk.sectors_length _ _ _
          rw [splice_length _ (by rw [length]; exact fits), length]
        have left : (buffer.drop take).length = buffer.length - take := List.length_drop
        have written : disk.setSector (first + sector)
            (splice (disk.sectors (first + sector) 1) byte (buffer.take take)) =
              withBytes disk ((first + sector) * 512 + byte) (buffer.take take) :=
          setSector_splice _ _ _ fits
        have room := next_part low nothing taken within
        rw [← left] at room
        have fewer : (buffer.drop take).length ≤ fuel := by omega
        rw [write_sector here.2 full, here.1, written]
        dsimp only
        rw [fuel_ih (sector + 1) 0 (buffer.drop take)
          (withBytes disk ((first + sector) * 512 + byte) (buffer.take take))
          (fun sector below => reaches sector below) (Nat.zero_lt_succ _) fewer room, left]
        have total : take + (buffer.length - take) = buffer.length := by omega
        rw [total]
        by_cases last : buffer.length ≤ 512 - byte
        · have all : take = buffer.length := by omega
          rw [all, List.take_length, List.drop_length]
          unfold withBytes
          rw [overwrite_nil]
        · have next : (first + (sector + 1)) * 512 + 0 =
              (first + sector) * 512 + byte + (buffer.take take).length := by
            rw [size]
            omega
          unfold withBytes
          rw [next, overwrite_append, List.take_append_drop]

end Cluster

/-! ## The array of a file -/

section Array

variable {fat : FatVolume} {chain : List Nat}

theorem window_fileByte (positive : 0 < clusterBytes fat) (medium : Nat → UInt8)
    {index cluster offset count : Nat} (placed : chain[index]? = some cluster)
    (inside : offset + count ≤ clusterBytes fat) :
    window (fileByte fat chain medium) (index * clusterBytes fat + offset) count =
      window medium (clusterSector fat cluster * 512 + offset) count := by
  apply List.map_congr_left
  intro k member
  have below := List.mem_range.mp member
  have low : offset + k < clusterBytes fat := by omega
  have quotient : (index * clusterBytes fat + offset + k) / clusterBytes fat = index := by
    rw [Nat.add_assoc, Nat.mul_comm, Nat.mul_add_div positive, Nat.div_eq_of_lt low, Nat.add_zero]
  have remainder : (index * clusterBytes fat + offset + k) % clusterBytes fat = offset + k := by
    rw [Nat.add_assoc, Nat.mul_comm, Nat.mul_add_mod, Nat.mod_eq_of_lt low]
  unfold fileByte
  rw [quotient, remainder, List.getD_eq_getElem?_getD, placed, Option.getD_some, Nat.add_assoc]

/-- Replacing bytes of a cluster replaces bytes of the file. -/
theorem fileByte_overwrite (positive : 0 < clusterBytes fat) (medium : Nat → UInt8)
    (data : ∀ cluster ∈ chain, InData fat cluster) (distinct : chain.Nodup)
    {index cluster offset : Nat} {new : List UInt8} (placed : chain[index]? = some cluster)
    (inside : offset + new.length ≤ clusterBytes fat) {position : Nat}
    (below : position < chain.length * clusterBytes fat) :
    fileByte fat chain (overwrite medium (clusterSector fat cluster * 512 + offset) new) position =
      overwrite (fileByte fat chain medium) (index * clusterBytes fat + offset) new position := by
  have low : position % clusterBytes fat < clusterBytes fat := Nat.mod_lt _ positive
  have split : position / clusterBytes fat * clusterBytes fat + position % clusterBytes fat =
      position := Nat.div_add_mod' _ _
  have shorter : position / clusterBytes fat < chain.length := by
    rw [Nat.div_lt_iff_lt_mul positive]
    exact below
  have view : ∀ medium : Nat → UInt8, fileByte fat chain medium position =
      medium (clusterSector fat chain[position / clusterBytes fat] * 512 +
        position % clusterBytes fat) := by
    intro medium
    unfold fileByte
    rw [List.getD_eq_getElem _ _ shorter]
  rw [view]
  unfold overwrite
  rw [view]
  have length : clusterBytes fat = fat.sectorsPerCluster * 512 := rfl
  by_cases same : position / clusterBytes fat = index
  · have here : chain[position / clusterBytes fat] = cluster := by
      have found := placed
      rw [← same, List.getElem?_eq_getElem shorter] at found
      exact Option.some.inj found
    rw [here]
    rw [same] at split
    generalize clusterSector fat cluster * 512 = base
    generalize position % clusterBytes fat = rest at low split
    rw [← split]
    by_cases written : offset ≤ rest ∧ rest < offset + new.length
    · rw [if_pos (by omega), if_pos (by omega), Nat.add_sub_add_left, Nat.add_sub_add_left]
    · rw [if_neg (by omega), if_neg (by omega)]
  · have other : chain[position / clusterBytes fat] ≠ cluster := by
      intro equal
      rcases List.getElem?_eq_some_iff.mp placed with ⟨long, found⟩
      exact same ((distinct.getElem_inj_iff).mp (equal.trans found.symm))
    have apart := clusters_apart (data _ (List.getElem_mem shorter))
      (data cluster (List.mem_of_getElem? placed)) other
    have outside : position < index * clusterBytes fat ∨
        index * clusterBytes fat + clusterBytes fat ≤ position := by
      rcases Nat.lt_or_gt_of_ne same with less | less
      · have many := Nat.mul_le_mul_right (clusterBytes fat) (Nat.succ_le_of_lt less)
        rw [Nat.succ_mul] at many
        omega
      · have many := Nat.mul_le_mul_right (clusterBytes fat) (Nat.succ_le_of_lt less)
        rw [Nat.succ_mul] at many
        omega
    generalize index * clusterBytes fat = start at outside
    generalize position % clusterBytes fat = rest at low
    rw [if_neg (by omega), if_neg (by omega)]

/-- What is replaced depends at a position on what was there. -/
theorem overwrite_congr {first second : Nat → UInt8} {position : Nat}
    (same : first position = second position) (address : Nat) (new : List UInt8) :
    overwrite first address new position = overwrite second address new position := by
  unfold overwrite
  rw [same]

end Array

/-! ## Following a chain -/

section Following

variable {fat : FatVolume} {disk : Disk} {start : Nat} {chain : List Nat}
  (volume : OnMedium fat disk) (links : Chain fat disk start chain)

include volume links

/-- The number of a cluster of a chain is no mark for its end. -/
theorem Chain.inside {index cluster : Nat} (placed : chain[index]? = some cluster) :
    ¬(cluster < 2 ∨ 0xFFF8 ≤ cluster) := by
  have bounds := links.data cluster (List.mem_of_getElem? placed)
  have few := volume.few
  unfold InData at bounds
  omega

theorem follow_eq (steps : Nat) : ∀ index cluster : Nat, chain[index]? = some cluster →
    index + steps < chain.length →
    fatFollow Faults.none fat disk steps cluster = chain[index + steps]? := by
  induction steps with
  | zero =>
      intro index cluster placed _
      exact placed.symm
  | succ steps steps_ih =>
      intro index cluster placed shorter
      have next : chain[index + 1]? = some chain[index + 1] :=
        List.getElem?_eq_getElem (by omega)
      have inside := links.inside volume next
      rw [fatFollow, links.linked index cluster _ placed next]
      rw [if_neg (by omega), steps_ih (index + 1) _ next (by omega)]
      congr 1
      omega

theorem nextCluster_eq {index cluster : Nat} (placed : chain[index]? = some cluster)
    (shorter : index + 1 < chain.length) :
    fatNextCluster Faults.none fat cluster disk = (chain[index + 1]?, disk) := by
  have next : chain[index + 1]? = some chain[index + 1] := List.getElem?_eq_getElem shorter
  have inside := links.inside volume next
  rw [fatNextCluster, links.linked index cluster _ placed next]
  rw [if_neg (by omega), next]

theorem advance_eq (steps : Nat) : ∀ index cluster : Nat, chain[index]? = some cluster →
    index + steps < chain.length →
    fatAdvance Faults.none fat steps cluster disk = (chain[index + steps]?, disk) := by
  induction steps with
  | zero =>
      intro index cluster placed _
      rw [fatAdvance, Nat.add_zero, placed]
  | succ steps steps_ih =>
      intro index cluster placed shorter
      have next : chain[index + 1]? = some chain[index + 1] :=
        List.getElem?_eq_getElem (by omega)
      rw [fatAdvance, nextCluster_eq volume links placed (by omega), next]
      dsimp only
      rw [steps_ih (index + 1) _ next (by omega)]
      congr 2
      omega

theorem readChain_eq (fuel : Nat) : ∀ index cluster offset left : Nat,
    offset < clusterBytes fat → chain.length - index < fuel →
    index * clusterBytes fat + offset + left ≤ chain.length * clusterBytes fat →
    (left ≠ 0 → chain[index]? = some cluster) →
    fatReadChain Faults.none fat disk fuel cluster offset left =
      some (window (fileByte fat chain disk.bytes) (index * clusterBytes fat + offset) left) := by
  have positive := clusterBytes_pos volume
  induction fuel with
  | zero => intro index cluster offset left _ enough _ _; cases enough
  | succ fuel fuel_ih =>
      intro index cluster offset left low enough within placed
      rw [fatReadChain]
      by_cases nothing : left = 0
      · rw [if_pos (Or.inl nothing), nothing]
        rfl
      · have placed := placed nothing
        have inside := links.inside volume placed
        have data := links.data cluster (List.mem_of_getElem? placed)
        have bytes : fat.sectorsPerCluster * 512 = clusterBytes fat := rfl
        have shorter := (List.getElem?_eq_some_iff.mp placed).1
        rw [if_neg (by omega), bytes]
        dsimp only
        generalize taken : min (clusterBytes fat - offset) left = want
        have got : fatReadCluster Faults.none fat disk (fatClusterLba fat cluster) want
            (offset / 512) (offset % 512) want =
              window (fileByte fat chain disk.bytes) (index * clusterBytes fat + offset) want := by
          have reads := readCluster_eq (fun sector below => data_reaches volume data below) want
            (offset / 512) (offset % 512) want (Nat.mod_lt _ (by decide)) (Nat.le_refl _)
            (by rw [bytes, Nat.div_add_mod']; omega)
          rw [reads, window_fileByte positive disk.bytes placed (by omega), Nat.add_mul,
            Nat.add_assoc, Nat.div_add_mod']
        have room := next_part low nothing taken within
        rw [got, window_length, fuel_ih (index + 1) _ 0 (left - want) positive (by omega) room]
        · rw [Option.map_some]
          by_cases last : want = left
          · rw [last, Nat.sub_self]
            exact congrArg some (List.append_nil _)
          · have next : (index + 1) * clusterBytes fat + 0 =
                index * clusterBytes fat + offset + want := by
              rw [Nat.succ_mul]
              omega
            have split : left = want + (left - want) := by omega
            rw [next, ← window_add, ← split]
        · intro more
          have longer : index + 1 < chain.length := by
            have less : (index + 1) * clusterBytes fat < chain.length * clusterBytes fat := by omega
            exact Nat.lt_of_mul_lt_mul_right less
          have next : chain[index + 1]? = some chain[index + 1] := List.getElem?_eq_getElem longer
          rw [links.linked index cluster _ placed next]
          exact next

end Following

/-! ## Reading -/

def contents (fat : FatVolume) (chain : List Nat) (disk : Disk) (size : Nat) : List UInt8 :=
  window (fileByte fat chain disk.bytes) 0 size

/-- A node stands for a file: unless it is empty it has the first cluster of the chain, which holds
its bytes. -/
structure Stands (fat : FatVolume) (disk : Disk) (node : VfsNode) (chain : List Nat) : Prop where
  data : ∀ cluster ∈ chain, InData fat cluster
  links : node.size.toNat ≠ 0 → Chain fat disk (node.ownerGid.toNat % 2 ^ 16) chain
  long : node.size.toNat ≤ chain.length * clusterBytes fat

/-- `fat16_node_read` delivers the part of the contents that is asked for. -/
theorem nodeRead_eq {fat : FatVolume} {disk : Disk} (volume : OnMedium fat disk) {node : VfsNode}
    {chain : List Nat} (stands : Stands fat disk node chain) {off size fuel : Nat}
    (word : off + size < 2 ^ 32) (enough : chain.length < fuel) :
    fatNodeRead Faults.none fuel fat disk node off size =
      some (slice (contents fat chain disk node.size.toNat) off size) := by
  have positive := clusterBytes_pos volume
  have long := stands.long
  have bytes : fat.sectorsPerCluster * 512 = clusterBytes fat := rfl
  have cut : slice (contents fat chain disk node.size.toNat) off size =
      window (fileByte fat chain disk.bytes) off (min size (node.size.toNat - off)) := by
    unfold contents
    rw [slice_clipped, window_length]
    apply window_congr
    intro position _ below
    have inside : position < (window (fileByte fat chain disk.bytes) 0 node.size.toNat).length := by
      rw [window_length]
      omega
    rw [byte, List.getD_eq_getElem _ _ inside, window_getElem, Nat.zero_add]
  rw [cut, fatNodeRead]
  by_cases past : node.size.toNat ≤ off
  · have none' : min size (node.size.toNat - off) = 0 := by omega
    rw [if_pos past, none']
    rfl
  · have links := stands.links (by omega)
    have index : off / clusterBytes fat < chain.length := by
      rw [Nat.div_lt_iff_lt_mul positive]
      omega
    have first := links.inside volume links.first
    have found : chain[off / clusterBytes fat]? = some chain[off / clusterBytes fat] :=
      List.getElem?_eq_getElem index
    have want : (if node.size.toNat < u32 (off + size) then node.size.toNat - off else size) =
        min size (node.size.toNat - off) := by
      rw [u32_of_small word]
      split_ifs <;> omega
    rw [if_neg past]
    dsimp only
    rw [want, if_neg (by omega), bytes, if_neg volume.positive.ne',
      follow_eq volume links _ 0 _ links.first (by omega), Nat.zero_add, found]
    dsimp only
    rw [readChain_eq volume links fuel (off / clusterBytes fat) _ (off % clusterBytes fat) _
      (Nat.mod_lt _ positive) ((Nat.sub_le _ _).trans_lt enough)
      (by rw [Nat.div_add_mod']; omega) (fun _ => found), Nat.div_add_mod']

/-! ## What a write leaves -/

section Changed

variable {fat : FatVolume} {disk disk' : Disk} {chain : List Nat} (volume : OnMedium fat disk)
  (data : ∀ cluster ∈ chain, InData fat cluster)
  (changed : Disk.ChangedOnly (· ∈ sectorsOf fat chain) disk disk')

include volume data in
/-- The sectors in front of the data are not among those of a file. -/
theorem front_spared {sector : Nat} (front : sector < fat.partitionLba + fat.dataStartLba) :
    sector ∉ sectorsOf fat chain := by
  rintro ⟨cluster, listed, first, _⟩
  have place := (clusterSector_le volume (data cluster listed)).1
  omega

include volume changed in
theorem onMedium_changed : OnMedium fat disk' where
  present := changed.present.trans volume.present
  positive := volume.positive
  small := volume.small
  few := volume.few
  boot := volume.boot
  table := volume.table
  copies := volume.copies
  front := volume.front
  root := volume.root
  inside := by
    rw [changed.total]
    exact volume.inside

include volume data changed

theorem getEntry_changed {cluster : Nat} (below : cluster < fat.totalClusters + 2) :
    fatGetEntry Faults.none fat disk' cluster = fatGetEntry Faults.none fat disk cluster := by
  have reaches := entry_reaches volume below volume.copies
  have reaches' := entry_reaches (onMedium_changed volume changed) below volume.copies
  have bounds := entryLba_lt volume below volume.copies
  have root := volume.root
  have same : ∀ position, position / ataSectorSize = fat.partitionLba + entryLba fat cluster 0 →
      disk'.bytes position = disk.bytes position := by
    intro position sector
    apply changed.bytes
    rw [sector]
    exact front_spared volume data (by omega)
  have size : ataSectorSize = 512 := rfl
  rw [getEntry_reached reaches'.2, getEntry_reached reaches.2]
  unfold word
  rw [same (entryAddress fat cluster 0), same (entryAddress fat cluster 0 + 1)]
  · rw [entryAddress, reaches.1, size, Nat.add_assoc, Nat.mul_comm _ 512,
      Nat.mul_add_div (by decide), Nat.div_eq_of_lt (by omega), Nat.add_zero]
  · rw [entryAddress, reaches.1, size, Nat.mul_comm _ 512, Nat.mul_add_div (by decide),
      Nat.div_eq_of_lt (by omega), Nat.add_zero]

theorem chain_changed {start : Nat} (links : Chain fat disk start chain) :
    Chain fat disk' start chain where
  first := links.first
  data := data
  distinct := links.distinct
  linked := by
    intro index cluster next placed placed'
    rw [getEntry_changed volume data changed (data cluster (List.mem_of_getElem? placed)).2]
    exact links.linked index cluster next placed placed'
  ended := by
    intro cluster placed
    rw [getEntry_changed volume data changed (data cluster (List.mem_of_getElem? placed)).2]
    exact links.ended cluster placed

end Changed

/-- A write within a cluster changes sectors of the cluster. -/
theorem withBytes_changedOnly {fat : FatVolume} {chain : List Nat} (disk : Disk)
    {cluster offset : Nat} {new : List UInt8} (listed : cluster ∈ chain)
    (inside : offset + new.length ≤ clusterBytes fat) :
    Disk.ChangedOnly (· ∈ sectorsOf fat chain) disk
      (withBytes disk (clusterSector fat cluster * 512 + offset) new) := by
  refine ⟨rfl, rfl, ?_⟩
  intro position outside
  apply overwrite_outside
  by_contra within
  apply outside
  have size : ataSectorSize = 512 := rfl
  have bytes : clusterBytes fat = fat.sectorsPerCluster * 512 := rfl
  rw [size]
  refine ⟨cluster, listed, ?_, ?_⟩
  · rw [Nat.le_div_iff_mul_le (by decide)]
    omega
  · rw [Nat.div_lt_iff_lt_mul (by decide), Nat.add_mul]
    omega

/-! ## Writing -/

theorem writeAt_window (medium : Nat → UInt8) {size off : Nat} {buffer : List UInt8}
    (within : off + buffer.length ≤ size) :
    writeAt (window medium 0 size) off buffer = window (overwrite medium off buffer) 0 size := by
  by_cases empty : buffer = []
  · rw [writeAt, if_pos empty, empty, overwrite_nil]
  · have length : (writeAt (window medium 0 size) off buffer).length = size := by
      rw [writeAt_length _ _ empty, window_length]
      omega
    apply List.ext_getElem (length.trans (window_length _ _ _).symm)
    intro position inside inWindow
    rw [length] at inside
    have before : position < (window medium 0 size).length := by
      rw [window_length]
      exact inside
    have written := byte_writeAt (window medium 0 size) off buffer position
    rw [byte, List.getD_eq_getElem _ _ (by rw [length]; exact inside)] at written
    rw [written, window_getElem, Nat.zero_add]
    unfold overwrite byte
    rw [List.getD_eq_getElem _ _ before, window_getElem, Nat.zero_add]

/-- The part of a buffer that fits into its first cluster comes into that cluster. -/
theorem writeCluster_part {fat : FatVolume} {disk : Disk} {cluster offset want : Nat}
    {buffer : List UInt8} (volume : OnMedium fat disk) (data : InData fat cluster)
    (low : offset < clusterBytes fat)
    (taken : min (clusterBytes fat - offset) buffer.length = want) :
    (buffer.take want).length = want ∧ offset + (buffer.take want).length ≤ clusterBytes fat ∧
      fatWriteCluster Faults.none fat (fatClusterLba fat cluster) want (offset / 512)
        (offset % 512) (buffer.take want) disk =
          (want, withBytes disk (clusterSector fat cluster * 512 + offset) (buffer.take want)) := by
  have bytes : fat.sectorsPerCluster * 512 = clusterBytes fat := rfl
  have size : (buffer.take want).length = want := by
    rw [List.length_take]
    omega
  have fits : offset + (buffer.take want).length ≤ clusterBytes fat := by
    rw [size]
    omega
  have place : (clusterSector fat cluster + offset / 512) * 512 + offset % 512 =
      clusterSector fat cluster * 512 + offset := by
    rw [Nat.add_mul, Nat.add_assoc, Nat.div_add_mod']
  refine ⟨size, fits, ?_⟩
  rw [writeCluster_eq want (offset / 512) (offset % 512) (buffer.take want) disk
    (fun sector below => data_reaches volume data below) (Nat.mod_lt _ (by decide))
    (Nat.le_of_eq size) (by rw [bytes, Nat.div_add_mod']; exact fits), size, place]

/-- The loop of `fat16_node_write` over a chain that is long enough. -/
theorem writeChain_eq {fat : FatVolume} {start : Nat} {chain : List Nat} (fuel : Nat) :
    ∀ (index cluster offset : Nat) (buffer : List UInt8) (disk : Disk), OnMedium fat disk →
    Chain fat disk start chain → offset < clusterBytes fat → chain.length - index < fuel →
    index * clusterBytes fat + offset + buffer.length ≤ chain.length * clusterBytes fat →
    (buffer.length ≠ 0 → chain[index]? = some cluster) →
    ∃ disk', fatWriteChain Faults.none fat fuel cluster offset buffer disk =
        some (buffer.length, disk') ∧
      Disk.ChangedOnly (· ∈ sectorsOf fat chain) disk disk' ∧
      ∀ position < chain.length * clusterBytes fat, fileByte fat chain disk'.bytes position =
        overwrite (fileByte fat chain disk.bytes) (index * clusterBytes fat + offset) buffer
          position := by
  induction fuel with
  | zero => intro index cluster offset buffer disk _ _ _ enough _ _; cases enough
  | succ fuel fuel_ih =>
      intro index cluster offset buffer disk volume links low enough within placed
      have positive := clusterBytes_pos volume
      rw [fatWriteChain]
      by_cases nothing : buffer.length = 0
      · rw [if_pos nothing, List.length_eq_zero_iff.mp nothing]
        refine ⟨disk, rfl, Disk.ChangedOnly.refl _ disk, fun position _ => ?_⟩
        rw [overwrite_nil]
      · have placed := placed nothing
        have listed := List.mem_of_getElem? placed
        have data := links.data cluster listed
        have shorter := (List.getElem?_eq_some_iff.mp placed).1
        have narrow : fat.sectorsPerCluster * 512 % 2 ^ 16 = clusterBytes fat :=
          Nat.mod_eq_of_lt volume.small
        have room := next_part low nothing rfl within
        rw [if_neg nothing, narrow]
        dsimp only
        generalize taken : min (clusterBytes fat - offset) buffer.length = want at room ⊢
        rcases writeCluster_part volume data low taken with ⟨size, fits, done⟩
        have changed := withBytes_changedOnly disk listed fits
        have replaced : ∀ position < chain.length * clusterBytes fat,
            fileByte fat chain (withBytes disk (clusterSector fat cluster * 512 + offset)
              (buffer.take want)).bytes position =
                overwrite (fileByte fat chain disk.bytes) (index * clusterBytes fat + offset)
                  (buffer.take want) position := fun position below =>
          fileByte_overwrite positive disk.bytes links.data links.distinct placed fits below
        rw [done]
        dsimp only
        by_cases last : buffer.length ≤ want
        · have all : buffer.take want = buffer := List.take_of_length_le last
          have length : want = buffer.length := by omega
          rw [if_pos last]
          rw [all] at changed replaced ⊢
          refine ⟨_, ?_, changed, replaced⟩
          rw [length]
        · have longer : index + 1 < chain.length := by
            have less : (index + 1) * clusterBytes fat < chain.length * clusterBytes fat := by omega
            exact Nat.lt_of_mul_lt_mul_right less
          have next : chain[index + 1]? = some chain[index + 1] := List.getElem?_eq_getElem longer
          have volume' := onMedium_changed volume changed
          have links' := chain_changed volume links.data changed links
          have left : (buffer.drop want).length = buffer.length - want := List.length_drop
          rcases fuel_ih (index + 1) chain[index + 1] 0 (buffer.drop want) _ volume' links' positive
            (by omega) (by rw [left]; exact room) (fun _ => next) with
            ⟨disk', written, changed', replaced'⟩
          refine ⟨disk', ?_, changed.trans changed', ?_⟩
          · rw [if_neg last, nextCluster_eq volume' links' placed longer, next]
            dsimp only
            rw [written, Option.map_some, left]
            have total : want + (buffer.length - want) = buffer.length := by omega
            rw [total]
          · intro position below
            have after : (index + 1) * clusterBytes fat + 0 =
                index * clusterBytes fat + offset + (buffer.take want).length := by
              rw [Nat.succ_mul, size]
              omega
            rw [replaced' position below, overwrite_congr (replaced position below), after,
              overwrite_append, List.take_append_drop]

/-- `fat16_node_write` within the size of a file replaces the part of its contents. -/
theorem nodeWrite_eq {fat : FatVolume} {disk : Disk} (volume : OnMedium fat disk)
    (mounted : fat.mounted = true) {node : VfsNode} {chain : List Nat}
    (stands : Stands fat disk node chain) {off : Nat} {buffer : List UInt8} {fuel : Nat}
    (within : buffer = [] ∨ off + buffer.length ≤ node.size.toNat) (enough : chain.length < fuel) :
    ∃ disk', fatNodeWrite Faults.none fuel fat node off buffer disk =
        some (buffer.length, node, disk') ∧
      Disk.ChangedOnly (· ∈ sectorsOf fat chain) disk disk' ∧
      contents fat chain disk' node.size.toNat =
        writeAt (contents fat chain disk node.size.toNat) off buffer := by
  have positive := clusterBytes_pos volume
  have long := stands.long
  by_cases nothing : buffer.length = 0
  · have empty := List.length_eq_zero_iff.mp nothing
    refine ⟨disk, ?_, Disk.ChangedOnly.refl _ disk, ?_⟩
    · rw [fatNodeWrite, if_pos (Or.inr nothing), nothing]
    · rw [writeAt, if_pos empty]
  · have within := within.resolve_left fun empty => nothing (List.length_eq_zero_iff.mpr empty)
    have links := stands.links (by omega)
    have index : off / clusterBytes fat < chain.length := by
      rw [Nat.div_lt_iff_lt_mul positive]
      omega
    have first := links.inside volume links.first
    have found : chain[off / clusterBytes fat]? = some chain[off / clusterBytes fat] :=
      List.getElem?_eq_getElem index
    have narrow : fat.sectorsPerCluster * 512 % 2 ^ 16 = clusterBytes fat :=
      Nat.mod_eq_of_lt volume.small
    have word : node.size.toNat < 2 ^ 32 := node.size.toNat_lt
    have start : (if node.ownerGid.toNat % 2 ^ 16 < 2 then fatAllocCluster Faults.none fat disk
        else (node.ownerGid.toNat % 2 ^ 16, disk)) = (node.ownerGid.toNat % 2 ^ 16, disk) :=
      if_neg (by omega)
    have kept : (if node.ownerGid.toNat % 2 ^ 16 < 2 then
        { node with ownerGid := UInt32.ofNat (node.ownerGid.toNat % 2 ^ 16) } else node) = node :=
      if_neg (by omega)
    rcases writeChain_eq fuel (off / clusterBytes fat) chain[off / clusterBytes fat]
      (off % clusterBytes fat) buffer disk volume links (Nat.mod_lt _ positive)
      ((Nat.sub_le _ _).trans_lt enough) (by rw [Nat.div_add_mod']; omega) (fun _ => found) with
      ⟨disk', written, changed, replaced⟩
    refine ⟨disk', ?_, changed, ?_⟩
    · have last : u32 (off + buffer.length) = off + buffer.length := u32_of_small (by omega)
      rw [fatNodeWrite, if_neg (by simp [mounted, nothing])]
      dsimp only
      rw [start]
      dsimp only
      rw [if_neg (by omega), kept, narrow, if_neg positive.ne',
        advance_eq volume links _ 0 _ links.first (by omega), Nat.zero_add, found]
      dsimp only
      rw [written, Option.map_some]
      dsimp only
      rw [last, if_neg (by omega)]
    · unfold contents
      rw [writeAt_window _ within]
      apply window_congr
      intro position _ below
      rw [replaced position (by omega), Nat.div_add_mod']

end Fat

end Trinux
