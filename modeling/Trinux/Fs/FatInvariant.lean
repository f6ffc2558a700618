import Mathlib.Data.Sum.Basic
import Trinux.Fs.FatAllocation
import Trinux.Fs.FatPersistence
import Trinux.Fs.Linked

namespace Trinux

open Bytes

/-!
# The invariant of a FAT volume

Files are written, and `chmod`, `chown` and `delete` are called on any path.  Every cluster in use
belongs to exactly one chain, the copies of the table agree, and data is read and written in
clusters of the data area only.  The start of a file is a field that `vfs_chown` overwrites; what
keeps it is that `vfs_resolve` finds no file of a volume.  Mounting and listing put the files of a
volume below its directories, and these have no `finddir`.
-/

namespace Fat

/-! ## The clusters of a call -/

def readClusters (faults : Faults) (fat : FatVolume) (disk : Disk) :
    (fuel cluster offset left : Nat) → List Nat
  | 0, _, _, _ => []
  | fuel + 1, cluster, offset, left =>
      if left = 0 ∨ cluster < 2 ∨ 0xFFF8 ≤ cluster then []
      else
        let want := min (fat.sectorsPerCluster * 512 - offset) left
        let got := fatReadCluster faults fat disk (fatClusterLba fat cluster) want (offset / 512)
          (offset % 512) want
        cluster :: readClusters faults fat disk fuel (fatGetEntry faults fat disk cluster) 0
          (left - got.length)

def nodeReadClusters (faults : Faults) (fuel : Nat) (fat : FatVolume) (disk : Disk)
    (node : VfsNode) (off size : Nat) : List Nat :=
  if node.size.toNat ≤ off then []
  else
    let size := if node.size.toNat < u32 (off + size) then node.size.toNat - off else size
    let cluster := node.ownerGid.toNat % 2 ^ 16
    if cluster < 2 then []
    else if fat.sectorsPerCluster = 0 then []
    else
      match fatFollow faults fat disk (off / (fat.sectorsPerCluster * 512)) cluster with
      | none => []
      | some cluster =>
          readClusters faults fat disk fuel cluster (off % (fat.sectorsPerCluster * 512)) size

def nodeWrittenClusters (faults : Faults) (fuel : Nat) (fat : FatVolume) (node : VfsNode)
    (off : Nat) (buffer : List UInt8) (disk : Disk) : List Nat :=
  if !fat.mounted ∨ buffer.length = 0 then []
  else
    let start :=
      if node.ownerGid.toNat % 2 ^ 16 < 2 then fatAllocCluster faults fat disk
      else (node.ownerGid.toNat % 2 ^ 16, disk)
    if start.1 = 0 then []
    else
      let clusterSize := fat.sectorsPerCluster * 512 % 2 ^ 16
      if clusterSize = 0 then []
      else
        match fatAdvance faults fat (off / clusterSize) start.1 start.2 with
        | (none, _) => []
        | (some cluster, disk) =>
            writtenClusters faults fat fuel cluster (off % clusterSize) buffer disk

/-! ## Reading -/

section Reading

variable {fat : FatVolume} {disk : Disk} {start : Nat} {chain : List Nat}
  (links : Chain fat disk start chain)

include links

/-- The entry of a cluster of a chain is the next cluster of it, or ends it. -/
theorem Chain.next_or_end {index cluster : Nat} (placed : chain[index]? = some cluster) :
    chain[index + 1]? = some (fatGetEntry Faults.none fat disk cluster) ∨
      0xFFF8 ≤ fatGetEntry Faults.none fat disk cluster := by
  have shorter := (List.getElem?_eq_some_iff.mp placed).1
  by_cases last : index + 1 = chain.length
  · right
    exact links.ended cluster (by rw [← last, Nat.add_sub_cancel]; exact placed)
  · left
    have next : chain[index + 1]? = some chain[index + 1] := List.getElem?_eq_getElem (by omega)
    rw [links.linked index cluster _ placed next]
    exact next

theorem follow_placed (steps : Nat) : ∀ (index cluster : Nat), chain[index]? = some cluster →
    ∀ there, fatFollow Faults.none fat disk steps cluster = some there →
      chain[index + steps]? = some there := by
  induction steps with
  | zero =>
      intro index cluster placed there found
      cases found
      exact placed
  | succ steps steps_ih =>
      intro index cluster placed there found
      rw [fatFollow] at found
      by_cases ended : 0xFFF8 ≤ fatGetEntry Faults.none fat disk cluster
      · rw [if_pos ended] at found
        cases found
      · rw [if_neg ended] at found
        have next := (links.next_or_end placed).resolve_right ended
        have position : index + (steps + 1) = index + 1 + steps := by omega
        rw [position]
        exact steps_ih (index + 1) _ next there found

theorem readClusters_data (fuel : Nat) : ∀ (index cluster offset left : Nat),
    chain[index]? = some cluster ∨ 0xFFF8 ≤ cluster →
    ∀ visited ∈ readClusters Faults.none fat disk fuel cluster offset left, InData fat visited := by
  induction fuel with
  | zero => intro index cluster offset left _ visited listed; cases listed
  | succ fuel fuel_ih =>
      intro index cluster offset left place visited listed
      rw [readClusters] at listed
      split_ifs at listed with stop
      · cases listed
      · rw [not_or, not_or] at stop
        have placed := place.resolve_right stop.2.2
        rcases List.mem_cons.mp listed with rfl | behind
        · exact links.data _ (List.mem_of_getElem? placed)
        · exact fuel_ih (index + 1) _ 0 _ (links.next_or_end placed) visited behind

end Reading

/-- The first cluster of a file: none where a number is not that of a file of the volume. -/
def fileStart (fs : Fs) (id : Nat) : Option Nat :=
  (fs.node id).bind fun node =>
    if node.ops = .fatFile then some (node.ownerGid.toNat % 2 ^ 16) else none

/-- What is at a number has this chain: none, or the one from its first cluster. -/
def Owns (fat : FatVolume) (disk : Disk) (start : Option Nat) (chain : List Nat) : Prop :=
  (chain = [] ∧ ∀ first, start = some first → first < 2) ∨
    ∃ first, start = some first ∧ Chain fat disk first chain

theorem nodeRead_data {fat : FatVolume} {disk : Disk} (positive : 0 < fat.sectorsPerCluster)
    {node : VfsNode} {chain : List Nat}
    (owns : Owns fat disk (some (node.ownerGid.toNat % 2 ^ 16)) chain) (fuel off size : Nat) :
    ∀ cluster ∈ nodeReadClusters Faults.none fuel fat disk node off size, InData fat cluster := by
  intro cluster listed
  unfold nodeReadClusters at listed
  dsimp only at listed
  by_cases past : node.size.toNat ≤ off
  · rw [if_pos past] at listed
    cases listed
  · rw [if_neg past] at listed
    by_cases none' : node.ownerGid.toNat % 2 ^ 16 < 2
    · rw [if_pos none'] at listed
      cases listed
    · rw [if_neg none', if_neg positive.ne'] at listed
      rcases owns with ⟨_, small⟩ | ⟨first, same, links⟩
      · exact absurd (small _ rfl) none'
      · cases same
        cases found : fatFollow Faults.none fat disk (off / (fat.sectorsPerCluster * 512))
            (node.ownerGid.toNat % 2 ^ 16) with
        | none =>
            rw [found] at listed
            cases listed
        | some there =>
            rw [found] at listed
            have placed := follow_placed links _ 0 _ links.first there found
            exact readClusters_data links fuel _ there _ _ (Or.inl placed) cluster listed

/-! ## Writing -/

/-- The first cluster of a file that is written: its own, or a new one. -/
theorem start_sound {ι : Type} [DecidableEq ι] {fat : FatVolume} {disk : Disk}
    {chains : ι → List Nat} {owner : ι} (volume : OnMedium fat disk)
    (sound : Sound fat disk chains) {node : VfsNode}
    (owns : Owns fat disk (some (node.ownerGid.toNat % 2 ^ 16)) (chains owner)) :
    (node.ownerGid.toNat % 2 ^ 16 < 2 ∧ fatAllocCluster Faults.none fat disk = (0, disk)) ∨
    ∃ first disk', (if node.ownerGid.toNat % 2 ^ 16 < 2 then fatAllocCluster Faults.none fat disk
        else (node.ownerGid.toNat % 2 ^ 16, disk)) = (first, disk') ∧ first ≠ 0 ∧
      (if node.ownerGid.toNat % 2 ^ 16 < 2 then { node with ownerGid := UInt32.ofNat first }
        else node).ownerGid.toNat % 2 ^ 16 = first ∧ OnMedium fat disk' ∧ ∃ chain',
      Chain fat disk' first chain' ∧ Sound fat disk' (Function.update chains owner chain') := by
  have few := volume.few
  rcases owns with ⟨empty, small⟩ | ⟨first, same, links⟩
  · have small := small _ rfl
    rcases allocCluster_eq volume with ⟨full, _⟩ | ⟨new, data, free, found⟩
    · exact Or.inl ⟨small, full⟩
    · right
      rcases sound.first volume empty data free with ⟨disk', set, volume', links, sound'⟩
      have below := data.2
      have above := data.1
      have word : (UInt32.ofNat new).toNat = new := UInt32.toNat_ofNat_of_lt' (by
        show new < 2 ^ 32
        omega)
      refine ⟨new, disk', ?_, by omega, ?_, volume', [new], links, sound'⟩
      · rw [if_pos small, found, set]
      · rw [if_pos small]
        dsimp only
        rw [word]
        omega
  · cases same
    right
    have inside := links.inside volume links.first
    have large : ¬node.ownerGid.toNat % 2 ^ 16 < 2 := by omega
    refine ⟨_, disk, if_neg large, by omega, ?_, volume, chains owner, links, ?_⟩
    · rw [if_neg large]
    · rw [Function.update_eq_self]
      exact sound

/-- What a write of a file leaves: the chain of the file, which may have grown, and the clusters it
wrote. -/
theorem nodeWrite_narrow {ι : Type} [DecidableEq ι] {fat : FatVolume} {disk : Disk}
    {chains : ι → List Nat} {owner : ι} (volume : OnMedium fat disk)
    (sound : Sound fat disk chains) {node : VfsNode}
    (owns : Owns fat disk (some (node.ownerGid.toNat % 2 ^ 16)) (chains owner))
    (fuel off : Nat) (buffer : List UInt8) :
    (∀ cluster ∈ nodeWrittenClusters Faults.none fuel fat node off buffer disk,
      InData fat cluster) ∧
    ∀ result, fatNodeWrite Faults.none fuel fat node off buffer disk = some result →
      result.2.1.ops = node.ops ∧ ∃ chain', OnMedium fat result.2.2 ∧
        Owns fat result.2.2 (some (result.2.1.ownerGid.toNat % 2 ^ 16)) chain' ∧
        Sound fat result.2.2 (Function.update chains owner chain') := by
  have few := volume.few
  unfold nodeWrittenClusters fatNodeWrite
  by_cases nothing : !fat.mounted ∨ buffer.length = 0
  · rw [if_pos nothing, if_pos nothing]
    refine ⟨(fun cluster listed => nomatch listed), fun result found => ?_⟩
    cases found
    refine ⟨rfl, chains owner, volume, owns, ?_⟩
    rw [Function.update_eq_self]
    exact sound
  · rw [if_neg nothing, if_neg nothing]
    dsimp only
    have narrow : fat.sectorsPerCluster * 512 % 2 ^ 16 = clusterBytes fat :=
      Nat.mod_eq_of_lt volume.small
    have positive := clusterBytes_pos volume
    rcases start_sound volume sound owns with
      ⟨small, full⟩ | ⟨first, disk₁, started, some', gid, volume₁, chain₁, links₁, sound₁⟩
    · rw [if_pos small, full]
      dsimp only
      rw [if_pos rfl, if_pos rfl]
      refine ⟨(fun cluster listed => nomatch listed), fun result found => ?_⟩
      cases found
      refine ⟨rfl, chains owner, volume, owns, ?_⟩
      rw [Function.update_eq_self]
      exact sound
    · rw [started]
      dsimp only
      rw [if_neg some', if_neg some', narrow, if_neg positive.ne', if_neg positive.ne']
      have kept : (if node.ownerGid.toNat % 2 ^ 16 < 2 then
          { node with ownerGid := UInt32.ofNat first } else node).ops = node.ops := by
        split_ifs <;> rfl
      generalize (if node.ownerGid.toNat % 2 ^ 16 < 2 then
        { node with ownerGid := UInt32.ofNat first } else node) = node₁ at gid kept ⊢
      rcases advance_sound (off / clusterBytes fat) 0 first disk₁
        (Function.update chains owner chain₁) volume₁ sound₁
        (by rw [Function.update_self]; exact links₁)
        (by rw [Function.update_self]; exact links₁.first) with
        ⟨reached, disk₂, chain₂, advanced, volume₂, links₂, placed, sound₂⟩
      rw [Function.update_idem] at sound₂
      rw [advanced]
      cases reached with
      | none =>
          dsimp only
          refine ⟨(fun cluster listed => nomatch listed), fun result found => ?_⟩
          cases found
          refine ⟨kept, chain₂, volume₂, Or.inr ⟨first, ?_, links₂⟩, sound₂⟩
          dsimp only
          rw [gid]
      | some there =>
          dsimp only
          have whole := writeChain_sound fuel (0 + off / clusterBytes fat) there
            (off % clusterBytes fat) buffer disk₂ (Function.update chains owner chain₂) volume₂
            sound₂ (by rw [Function.update_self]; exact links₂)
            (by rw [Function.update_self]; exact placed there rfl) (Nat.mod_lt _ positive)
          refine ⟨whole.1, fun result found => ?_⟩
          rcases Option.map_eq_some_iff.mp found with ⟨written, run, rfl⟩
          rcases whole.2 written run with ⟨chain', volume', links', sound'⟩
          rw [Function.update_idem] at sound'
          refine ⟨kept, chain', volume', Or.inr ⟨first, ?_, links'⟩, sound'⟩
          dsimp only
          rw [gid]

/-- `fat16_alloc_cluster` changes nothing when it finds no cluster. -/
theorem allocCluster_none {faults : Faults} {fat : FatVolume} {disk : Disk}
    (full : (fatAllocCluster faults fat disk).1 = 0) :
    fatAllocCluster faults fat disk = (0, disk) := by
  unfold fatAllocCluster at full ⊢
  dsimp only at full ⊢
  cases found : (List.range' 2 ((fat.totalClusters + 2) % 2 ^ 16 - 2)).find? fun cluster =>
      fatGetEntry faults fat disk cluster = 0 with
  | none => rfl
  | some cluster =>
      rw [found] at full
      have member := List.mem_of_find?_eq_some found
      rw [List.mem_range'_1] at member
      dsimp only at full
      omega

/-- A write to a volume whose clusters have 64 KiB does nothing, or does not return: the size of a
cluster is 0 as a 16-bit number, and the write divides by it. -/
theorem nodeWrite_wide {fat : FatVolume} (wide : fat.sectorsPerCluster * 512 % 2 ^ 16 = 0)
    (fuel : Nat) (node : VfsNode) (off : Nat) (buffer : List UInt8) (disk : Disk) :
    nodeWrittenClusters Faults.none fuel fat node off buffer disk = [] ∧
      ∀ result, fatNodeWrite Faults.none fuel fat node off buffer disk = some result →
        result.2 = (node, disk) := by
  unfold nodeWrittenClusters fatNodeWrite
  by_cases nothing : !fat.mounted ∨ buffer.length = 0
  · rw [if_pos nothing, if_pos nothing]
    refine ⟨rfl, fun result found => ?_⟩
    cases found
    rfl
  · rw [if_neg nothing, if_neg nothing]
    dsimp only
    rw [wide, if_pos rfl, if_pos rfl]
    by_cases new : node.ownerGid.toNat % 2 ^ 16 < 2
    · rw [if_pos new]
      by_cases full : (fatAllocCluster Faults.none fat disk).1 = 0
      · rw [if_pos full, if_pos full, allocCluster_none full]
        refine ⟨rfl, fun result found => ?_⟩
        cases found
        rfl
      · rw [if_neg full, if_neg full]
        exact ⟨rfl, fun result found => nomatch found⟩
    · have some' : node.ownerGid.toNat % 2 ^ 16 ≠ 0 := by omega
      rw [if_neg new, if_neg some', if_neg some']
      exact ⟨rfl, fun result found => nomatch found⟩

/-- A volume lies on its medium: its areas follow each other, the table has an entry for every
cluster, clusters have at most 128 sectors, and their numbers end below the marks for the end of a
chain. -/
structure Fits (fat : FatVolume) (disk : Disk) : Prop where
  present : disk.present = true
  positive : 0 < fat.sectorsPerCluster
  sectors : fat.sectorsPerCluster ≤ 128
  few : fat.totalClusters + 2 ≤ 0xFFF8
  boot : 0 < fat.fatStartLba
  table : (fat.totalClusters + 2) * 2 ≤ fat.sectorsPerFat * 512
  copies : 0 < fat.fatCount
  front : fat.fatStartLba + fat.fatCount * fat.sectorsPerFat ≤ fat.rootDirLba
  root : fat.rootDirLba + fat.rootDirSectors ≤ fat.dataStartLba
  inside : fat.partitionLba + fat.dataStartLba + fat.totalClusters * fat.sectorsPerCluster ≤
    disk.total.toNat

theorem Fits.onMedium {fat : FatVolume} {disk : Disk} (fits : Fits fat disk)
    (small : fat.sectorsPerCluster * 512 < 2 ^ 16) : OnMedium fat disk :=
  ⟨fits.present, fits.positive, small, fits.few, fits.boot, fits.table, fits.copies, fits.front,
    fits.root, fits.inside⟩

theorem OnMedium.fits {fat : FatVolume} {disk : Disk} (volume : OnMedium fat disk) :
    Fits fat disk := by
  have small := volume.small
  exact ⟨volume.present, volume.positive, by omega, volume.few, volume.boot, volume.table,
    volume.copies, volume.front, volume.root, volume.inside⟩

theorem nodeWrite_sound {ι : Type} [DecidableEq ι] {fat : FatVolume} {disk : Disk}
    {chains : ι → List Nat} {owner : ι} (fits : Fits fat disk) (sound : Sound fat disk chains)
    {node : VfsNode} (owns : Owns fat disk (some (node.ownerGid.toNat % 2 ^ 16)) (chains owner))
    (fuel off : Nat) (buffer : List UInt8) :
    (∀ cluster ∈ nodeWrittenClusters Faults.none fuel fat node off buffer disk,
      InData fat cluster) ∧
    ∀ result, fatNodeWrite Faults.none fuel fat node off buffer disk = some result →
      ∃ chain', Fits fat result.2.2 ∧
        Owns fat result.2.2 (some (result.2.1.ownerGid.toNat % 2 ^ 16)) chain' ∧
        Sound fat result.2.2 (Function.update chains owner chain') := by
  by_cases small : fat.sectorsPerCluster * 512 < 2 ^ 16
  · have narrow := nodeWrite_narrow (fits.onMedium small) sound owns fuel off buffer
    refine ⟨narrow.1, fun result found => ?_⟩
    rcases narrow.2 result found with ⟨_, chain', volume', owns', sound'⟩
    exact ⟨chain', volume'.fits, owns', sound'⟩
  · have sectors := fits.sectors
    have wide : fat.sectorsPerCluster * 512 % 2 ^ 16 = 0 := by
      have all : fat.sectorsPerCluster = 128 := by omega
      rw [all]
      rfl
    have none' := nodeWrite_wide wide fuel node off buffer disk
    refine ⟨?_, fun result found => ?_⟩
    · rw [none'.1]
      exact fun cluster listed => nomatch listed
    · refine ⟨chains owner, ?_, ?_, ?_⟩
      · rw [none'.2 result found]
        exact fits
      · rw [none'.2 result found]
        exact owns
      · rw [none'.2 result found, Function.update_eq_self]
        exact sound

/-! ## Paths -/

/-- The nodes that the walk of `vfs_resolve` can find: the nodes of a volume find nothing. -/
inductive Found (fs : Fs) : Nat → Prop
  | root {id : Nat} (isRoot : fs.root = some id) : Found fs id
  | child {id child : Nat} {node : VfsNode} (above : Found fs id) (held : fs.node id = some node)
      (file : node.ops ≠ .fatFile) (directory : node.ops ≠ .fatDirectory)
      (listed : child ∈ node.children) : Found fs child

def Secluded (fs : Fs) : Prop := ∀ id, Found fs id → fileStart fs id = none

def opsOf (fs : Fs) (id : Nat) : Option NodeOps := (fs.node id).map VfsNode.ops

/-- The files of a volume are listed by directories of a volume, and by no other node. -/
structure Hung (fs : Fs) : Prop where
  root : ∀ id, fs.root = some id → opsOf fs id ≠ some .fatFile
  listed : ∀ id child, child ∈ fs.childrenOf id → opsOf fs child = some .fatFile →
    opsOf fs id = some .fatDirectory

theorem vfsFinddir_found {fs : Fs} {id child : Nat} {name : List UInt8} (above : Found fs id)
    (found : vfsFinddir fs id name = some child) : Found fs child := by
  unfold vfsFinddir ramfsFinddir at found
  cases held : fs.node id with
  | none =>
      rw [held] at found
      cases found
  | some node =>
      rw [held, Option.map_some] at found
      split at found
      · cases found
      · cases found
      · rename_i file directory
        dsimp only at found
        split at found
        · cases found
        · exact above.child held (fun same => file (congrArg some same))
            (fun same => directory (congrArg some same)) (List.mem_of_find?_eq_some found)

theorem vfsWalk_found {fs : Fs} (tokens : List (List UInt8)) : ∀ (current : Option Nat) (id : Nat),
    (∀ start, current = some start → Found fs start) → vfsWalk fs current tokens = some id →
    Found fs id := by
  induction tokens with
  | nil => exact fun current id known found => known id found
  | cons token rest rest_ih =>
      intro current id known found
      rw [vfsWalk] at found
      refine rest_ih _ id ?_ found
      intro child next
      rcases Option.bind_eq_some_iff.mp next with ⟨above, here, there⟩
      exact vfsFinddir_found (known above here) there

theorem vfsResolve_found {fs : Fs} {path : PathArg} {cwd : Option Nat} {id : Nat}
    (found : vfsResolve fs path cwd = some (some id)) : Found fs id := by
  rcases Option.map_eq_some_iff.mp found with ⟨norm, _, walk⟩
  exact vfsWalk_found _ _ id (fun start isRoot => Found.root isRoot) walk

structure Fewer (fs fs' : Fs) : Prop where
  root : fs'.root = fs.root
  node : ∀ id node', fs'.node id = some node' → ∃ node, fs.node id = some node ∧
    node'.ops = node.ops ∧ node'.children ⊆ node.children

namespace Fewer

theorem refl (fs : Fs) : Fewer fs fs :=
  ⟨rfl, fun _ node held => ⟨node, held, rfl, fun _ listed => listed⟩⟩

theorem modify (fs : Fs) (id : Nat) {change : VfsNode → VfsNode}
    (keeps : ∀ node, (change node).ops = node.ops ∧ (change node).children ⊆ node.children) :
    Fewer fs (fs.modify id change) := by
  refine ⟨rfl, fun other node' held => ?_⟩
  by_cases same : other = id
  · rw [same, Fs.modify_node_self] at held
    rcases Option.map_eq_some_iff.mp held with ⟨node, before, rfl⟩
    exact ⟨node, by rw [same]; exact before, keeps node⟩
  · rw [Fs.modify_node_of_ne fs change same] at held
    exact (refl fs).node other node' held

theorem free {fs fs' : Fs} (fewer : Fewer fs fs') (id : Nat) : Fewer fs (fs'.free id) := by
  refine ⟨fewer.root, fun other node' held => ?_⟩
  by_cases same : other = id
  · rw [same, Fs.free_node_self] at held
    cases held
  · rw [Fs.free_node_of_ne fs' same] at held
    exact fewer.node other node' held

theorem found {fs fs' : Fs} (fewer : Fewer fs fs') {id : Nat} (found' : Found fs' id) :
    Found fs id := by
  induction found' with
  | root isRoot => exact Found.root (by rw [← fewer.root]; exact isRoot)
  | child _ held file directory listed above =>
      rcases fewer.node _ _ held with ⟨node, before, ops, children⟩
      rw [ops] at file directory
      exact above.child before file directory (children listed)

end Fewer

/-- A node is a file of the volume when its callbacks are those of a file. -/
theorem fileStart_none_iff {fs : Fs} {id : Nat} :
    fileStart fs id = none ↔ ∀ node, fs.node id = some node → node.ops ≠ .fatFile := by
  unfold fileStart
  cases held : fs.node id with
  | none => exact ⟨(fun _ node impossible => nomatch impossible), fun _ => rfl⟩
  | some node =>
      rw [Option.bind_some]
      constructor
      · intro none' other same file
        cases same
        rw [if_pos file] at none'
        cases none'
      · intro plain
        rw [if_neg (plain node rfl)]

theorem opsOf_eq {fs : Fs} {id : Nat} {node : VfsNode} (held : fs.node id = some node) :
    opsOf fs id = some node.ops := by
  rw [opsOf, held, Option.map_some]

/-- The walk passes no directory of a volume, and so finds no file. -/
theorem Hung.secluded {fs : Fs} (hung : Hung fs) : Secluded fs := by
  intro id found
  rw [fileStart_none_iff]
  intro node held file
  have isFile : opsOf fs id = some .fatFile := by rw [opsOf_eq held, file]
  cases found with
  | root isRoot => exact hung.root id isRoot isFile
  | child above heldAbove _ directory listed =>
      have isListed := listed
      rw [← Fs.childrenOf_eq heldAbove] at isListed
      have volume := hung.listed _ id isListed isFile
      rw [opsOf_eq heldAbove] at volume
      exact directory (Option.some.inj volume)

theorem Hung.fewer {fs fs' : Fs} (hung : Hung fs) (fewer : Fewer fs fs') : Hung fs' := by
  have ops : ∀ id kind, opsOf fs' id = some kind → opsOf fs id = some kind := by
    intro id kind isKind
    rcases Option.map_eq_some_iff.mp isKind with ⟨node', held, rfl⟩
    rcases fewer.node id node' held with ⟨node, before, same, -⟩
    rw [opsOf_eq before, same]
  refine ⟨fun id isRoot file => ?_, fun id child listed file => ?_⟩
  · rw [fewer.root] at isRoot
    exact hung.root id isRoot (ops id _ file)
  · cases held : fs'.node id with
    | none =>
        rw [Fs.childrenOf, held] at listed
        cases listed
    | some node' =>
        rw [Fs.childrenOf_eq held] at listed
        rcases fewer.node id node' held with ⟨node, before, same, children⟩
        have isListed := children listed
        rw [← Fs.childrenOf_eq before] at isListed
        have volume := hung.listed id child isListed (ops child _ file)
        rw [opsOf_eq before] at volume
        rw [opsOf_eq held, same]
        exact volume

/-! ## Mounting and listing -/

section Mounting

variable {fs fs' : Fs}

theorem Hung.of_noFiles (none_ : ∀ id, opsOf fs id ≠ some .fatFile) : Hung fs :=
  ⟨fun id _ => none_ id, fun _ child _ file => absurd file (none_ child)⟩

theorem opsOf_modify (fs : Fs) (id : Nat) {change : VfsNode → VfsNode}
    (keeps : ∀ node, (change node).ops = node.ops) (other : Nat) :
    opsOf (fs.modify id change) other = opsOf fs other := by
  by_cases here : other = id
  · rw [opsOf, opsOf, here, Fs.modify_node_self, Option.map_map]
    congr 1
    exact funext keeps
  · rw [opsOf, opsOf, Fs.modify_node_of_ne fs change here]

theorem Hung.alloc (hung : Hung fs) (linked : fs.Linked) {node : VfsNode}
    (leaf : node.children = []) : Hung (fs.alloc node) := by
  have older : ∀ id, id ≠ fs.next → opsOf (fs.alloc node) id = opsOf fs id := by
    intro id different
    rw [opsOf, opsOf, Fs.alloc_node_of_ne fs node different]
  refine ⟨fun id isRoot => ?_, fun id child listed file => ?_⟩
  · rcases linked.rooted with ⟨root, top, isTop, held, -⟩
    have same : root = id := Option.some.inj (isTop.symm.trans isRoot)
    rw [same] at held
    rw [older id (Nat.ne_of_lt (linked.bounded.lt held))]
    exact hung.root id isRoot
  · have different : id ≠ fs.next := by
      rintro rfl
      rw [Fs.childrenOf_eq (Fs.alloc_node_self fs node), leaf] at listed
      cases listed
    rw [Fs.childrenOf_congr (Fs.alloc_node_of_ne fs node different)] at listed
    have notNew : child ≠ fs.next := by
      rintro rfl
      exact linked.unlisted_next id listed
    rw [older child notNew] at file
    rw [older id different]
    exact hung.listed id child listed file

/-- A directory of a volume may list anything, another node what is no file of a volume. -/
theorem Hung.attach (hung : Hung fs) {parent child : Nat} (live : fs.node parent ≠ none)
    (fits : opsOf fs parent = some .fatDirectory ∨ opsOf fs child ≠ some .fatFile) :
    Hung (fs.modify parent (VfsNode.attach child)) := by
  have ops : ∀ id, opsOf (fs.modify parent (VfsNode.attach child)) id = opsOf fs id :=
    opsOf_modify fs parent fun _ => rfl
  rcases Option.ne_none_iff_exists'.mp live with ⟨above, held⟩
  refine ⟨fun id isRoot => ?_, fun id other listed file => ?_⟩
  · rw [ops]
    exact hung.root id isRoot
  · rw [Fs.childrenOf_modify_attach fs parent child id held] at listed
    rw [ops] at file ⊢
    split at listed
    · rename_i here
      rcases List.mem_append.mp listed with old | new
      · exact hung.listed id other old file
      · rw [List.mem_singleton.mp new] at file
        rw [here]
        exact fits.resolve_right fun notFile => notFile file
    · exact hung.listed id other listed file

theorem fatReadEntries_hung {platform : Platform} {dir : Nat} {entries : List (List UInt8)}
    {site : Nat} (hung : Hung fs) (linked : fs.Linked)
    (unlisted : ∀ id, dir ∉ fs.childrenOf id) (directory : opsOf fs dir = some .fatDirectory)
    (read : fatReadEntries platform dir entries site fs = some fs') :
    Hung fs' ∧ opsOf fs' dir = some .fatDirectory := by
  induction entries generalizing site fs with
  | nil =>
      cases read
      exact ⟨hung, directory⟩
  | cons entry rest known =>
      rw [fatReadEntries] at read
      split at read
      · cases read
        exact ⟨hung, directory⟩
      split at read
      · exact known hung linked unlisted directory read
      split at read
      · cases read
      split at read
      · rcases Option.map_eq_some_iff.mp directory with ⟨node, held, -⟩
        have live : fs.node dir ≠ none := by
          rw [held]
          exact Option.some_ne_none _
        have filled := FatFilled.entry linked live unlisted entry
        have before : (fs.alloc (fatEntryNode dir entry)).node dir = fs.node dir :=
          Fs.alloc_node_of_ne _ _ (Nat.ne_of_lt (linked.bounded.lt held))
        have stays : opsOf (fs.alloc (fatEntryNode dir entry)) dir = some .fatDirectory := by
          rw [opsOf, before]
          exact directory
        refine known ?_ filled.linked filled.unlisted ?_ read
        · apply (hung.alloc linked rfl).attach
          · rw [before]
            exact live
          · exact Or.inl stays
        · rw [opsOf_modify]
          · exact stays
          · exact fun _ => rfl
      · exact known hung linked unlisted directory read

theorem fatReadDir_hung {platform : Platform} {start dir : Nat}
    {entries : Option (List (List UInt8))} (hung : Hung fs) (linked : fs.Linked)
    (read : fatReadDir platform start entries fs = some (dir, fs')) :
    Hung fs' ∧ opsOf fs' dir = some .fatDirectory := by
  rw [fatReadDir] at read
  split at read
  · cases read
  rcases Option.bind_eq_some_iff.mp read with ⟨found, -, filled⟩
  rcases Option.map_eq_some_iff.mp filled with ⟨result, entriesRead, same⟩
  cases same
  have new := Fs.alloc_node_self fs (fatDirectoryNode start)
  have leaf : (fatDirectoryNode start).children = [] := rfl
  refine fatReadEntries_hung (hung.alloc linked leaf) (linked.alloc leaf) (fun id listed => ?_) ?_
    entriesRead
  · by_cases here : id = fs.next
    · rw [here, Fs.childrenOf_eq new, leaf] at listed
      cases listed
    · rw [Fs.childrenOf_congr (Fs.alloc_node_of_ne fs _ here)] at listed
      exact linked.unlisted_next id listed
  · rw [opsOf_eq new]
    rfl

theorem Hung.adopt (hung : Hung fs) (linked : fs.Linked) {node loaded : Nat}
    (older : node < loaded) (directory : opsOf fs node = some .fatDirectory) :
    Hung (fatAdopt node loaded fs) := by
  have ops : ∀ id, id ≠ loaded → opsOf (fatAdopt node loaded fs) id = opsOf fs id := by
    intro id stays
    rw [opsOf, fatAdopt_node, if_neg stays, opsOf]
    dsimp only
    cases fs.node id with
    | none => split_ifs <;> rfl
    | some held => split_ifs <;> rfl
  have gone : opsOf (fatAdopt node loaded fs) loaded = none := by
    rw [opsOf, fatAdopt_node, if_pos rfl, Option.map_none]
  have live : fs.node node ≠ none := by
    intro missing
    rw [opsOf, missing] at directory
    cases directory
  have shape := foldl_under_root node (fs.childrenOf loaded) (fs.modify node fun above =>
    { above with children := above.children ++ fs.childrenOf loaded })
  have root : (fatAdopt node loaded fs).root = fs.root := shape.1
  refine ⟨fun id isRoot => ?_, fun id child listed file => ?_⟩
  · by_cases stays : id = loaded
    · rw [stays, gone]
      intro impossible
      cases impossible
    · rw [ops id stays]
      exact hung.root id (root.symm.trans isRoot)
  · have isChild : child ≠ loaded := by
      rintro rfl
      rw [gone] at file
      cases file
    rw [ops child isChild] at file
    rw [fatAdopt_childrenOf linked older live] at listed
    split at listed
    · cases listed
    rename_i stays
    rw [ops id stays]
    split at listed
    · rename_i here
      rw [here]
      exact directory
    · exact hung.listed id child listed file

/-- Listing a directory of a volume, all of whose subdirectories are directories of the volume. -/
theorem fatReaddir_hung {platform : Platform} {fuel id index : Nat} {storage storage' : Storage}
    {entry : Option Nat} (hung : Hung storage.fs) (linked : storage.fs.Linked)
    (below : ∀ child ∈ storage.fs.childrenOf id, ∀ node, storage.fs.node child = some node →
      node.type = vfsDirectory → node.ops = .fatDirectory)
    (listed : fatReaddir platform fuel storage id index = some (entry, storage')) :
    Hung storage'.fs := by
  rw [fatReaddir] at listed
  split at listed
  · cases listed
    exact hung
  rename_i child found
  split at listed
  · cases listed
  rename_i node held
  split at listed
  · rename_i empty
    rcases Option.map_eq_some_iff.mp listed with ⟨⟨dir, fs⟩, read, same⟩
    cases same
    have result := fatReadDir_read linked read
    have earlier := linked.bounded.lt held
    apply (fatReadDir_hung hung linked read).1.adopt result.linked
    · rw [result.number]
      exact earlier
    · rw [opsOf, result.older child earlier, held, Option.map_some,
        below child (List.mem_of_getElem? found) node held empty.1]
  · cases listed
    exact hung

theorem fat16Init_hung {platform : Platform} {storage storage' : Storage}
    (hung : Hung storage.fs) (linked : storage.fs.Linked)
    (mounted : fat16Init platform storage = some storage') : Hung storage'.fs := by
  rw [fat16Init] at mounted
  cases sector : fatBootSector platform.faults storage.disk with
  | none =>
      rw [sector] at mounted
      cases mounted
      exact hung
  | some boot =>
      rw [sector] at mounted
      rcases Option.bind_eq_some_iff.mp mounted with ⟨fat, -, entries⟩
      rcases Option.map_eq_some_iff.mp entries with ⟨⟨dir, fs⟩, read, same⟩
      rcases fatReadDir_hung hung linked read with ⟨filled, directory⟩
      have result := fatReadDir_read linked read
      have keeps : ∀ {fs : Fs} {id : Nat} {change : VfsNode → VfsNode}, Hung fs →
          (∀ node, (change node).ops = node.ops ∧ (change node).children ⊆ node.children) →
          Hung (fs.modify id change) := fun hung same => hung.fewer (Fewer.modify _ _ same)
      have named : Hung (fs.modify dir fun node => { node with name := literal "fat" }) :=
        keeps filled fun _ => ⟨rfl, fun _ listed => listed⟩
      have namedDir : opsOf (fs.modify dir fun node => { node with name := literal "fat" }) dir =
          some .fatDirectory := by
        rw [opsOf_modify]
        · exact directory
        · exact fun _ => rfl
      rcases linked.rooted with ⟨root, top, isRoot, held, -⟩
      have namedRoot : (fs.modify dir fun node => { node with name := literal "fat" }).root =
          some root := result.root.trans isRoot
      have rootLive : (fs.modify dir fun node => { node with name := literal "fat" }).node root ≠
          none := by
        have earlier := linked.bounded.lt held
        have different : root ≠ dir := by
          rw [result.number]
          exact Nat.ne_of_lt earlier
        rw [Fs.modify_node_of_ne _ _ different, result.older root earlier, held]
        exact Option.some_ne_none _
      simp only at same
      generalize (fs.modify dir fun node => { node with name := literal "fat" }) = fs₁ at *
      rw [namedRoot] at same
      simp only at same
      split at same
      · cases same
        apply keeps
        · apply named.attach rootLive
          rw [namedDir]
          right
          intro impossible
          cases impossible
        · exact fun _ => ⟨rfl, fun _ listed => listed⟩
      · cases same
        exact named

end Mounting

/-! ## The volume and its files -/

/-- A consistent volume, mounted: every cluster in use is in the chain of exactly one owner, a file
that is a node or one of the others (the directories, and the files that were not read), chains end
and do not run in circles, the copies of the table agree, and its files hang below its
directories. -/
def Consistent (others : Nat → List Nat) (storage : Storage) : Prop :=
  Fits storage.fat storage.disk ∧ Hung storage.fs ∧ ∃ chains : Nat ⊕ Nat → List Nat,
    Sound storage.fat storage.disk chains ∧
      (∀ id, Owns storage.fat storage.disk (fileStart storage.fs id) (chains (.inl id))) ∧
      ∀ number, chains (.inr number) = others number

/-- The data of the files of a volume is read and written in clusters of the data area. -/
def StaysInside (storage : Storage) : Prop :=
  ∀ id node, storage.fs.node id = some node → node.ops = .fatFile → ∀ fuel off,
    (∀ size, ∀ cluster ∈ nodeReadClusters Faults.none fuel storage.fat storage.disk node off size,
      InData storage.fat cluster) ∧
    ∀ buffer, ∀ cluster ∈ nodeWrittenClusters Faults.none fuel storage.fat node off buffer
      storage.disk, InData storage.fat cluster

theorem fileStart_file {fs : Fs} {id : Nat} {node : VfsNode} (held : fs.node id = some node)
    (file : node.ops = .fatFile) : fileStart fs id = some (node.ownerGid.toNat % 2 ^ 16) := by
  unfold fileStart
  rw [held, Option.bind_some, if_pos file]

theorem Consistent.staysInside {others : Nat → List Nat} {storage : Storage}
    (consistent : Consistent others storage) : StaysInside storage := by
  rcases consistent with ⟨fits, _, chains, sound, owns, _⟩
  intro id node held file fuel off
  have mine := owns id
  rw [fileStart_file held file] at mine
  exact ⟨fun size => nodeRead_data fits.positive mine fuel off size, fun buffer =>
    (nodeWrite_sound fits sound mine fuel off buffer).1⟩

/-! ## Calls -/

/-- The calls: a write to a file of the volume, and the calls that change what is known of a
node. -/
inductive Call
  | write (id off : Nat) (buffer : List UInt8)
  | chmod (cred : Cred) (path : PathArg) (cwd : Option Nat) (perms : UInt32)
  | chown (cred : Cred) (path : PathArg) (cwd : Option Nat) (uid gid : UInt32)
  | delete (cred : Cred) (path : PathArg) (cwd : Option Nat)

def perform (platform : Platform) (fuel : Nat) (call : Call) (storage : Storage) :
    Option Storage :=
  match call with
  | .write id off buffer =>
      if (fileStart storage.fs id).isSome then
        (vfsWrite { platform with faults := Faults.none } fuel storage id off buffer).map
          fun written => written.2
      else none
  | .chmod cred path cwd perms =>
      (vfsChmod cred storage.fs path cwd perms).map fun changed =>
        { storage with fs := changed.2 }
  | .chown cred path cwd uid gid =>
      (vfsChown cred storage.fs path cwd uid gid).map fun changed =>
        { storage with fs := changed.2 }
  | .delete cred path cwd =>
      (vfsDelete cred storage.fs storage.store path cwd).map fun changed =>
        { storage with fs := changed.2.1, store := changed.2.2 }

inductive Run (platform : Platform) (storage : Storage) : Storage → Prop
  | refl : Run platform storage storage
  | step {before after : Storage} {call : Call} {fuel : Nat} : Run platform storage before →
      perform platform fuel call before = some after → Run platform storage after

/-! ## What calls do to the nodes -/

/-- The starts are left by a change of a node that is no file, and of any other field. -/
theorem fileStart_modify (fs : Fs) (id : Nat) {change : VfsNode → VfsNode}
    (keeps : ∀ node, (change node).ops = node.ops)
    (plain : fileStart fs id = none ∨ ∀ node, (change node).ownerGid = node.ownerGid)
    (other : Nat) : fileStart (fs.modify id change) other = fileStart fs other := by
  unfold fileStart at plain ⊢
  by_cases same : other = id
  · rw [same, Fs.modify_node_self]
    cases held : fs.node id with
    | none => rfl
    | some node =>
        rw [Option.map_some, Option.bind_some, Option.bind_some, keeps node]
        by_cases file : node.ops = .fatFile
        · rw [held, Option.bind_some, if_pos file] at plain
          rw [if_pos file, if_pos file]
          rcases plain with impossible | gid
          · cases impossible
          · rw [gid node]
        · rw [if_neg file, if_neg file]
  · rw [Fs.modify_node_of_ne fs change same]

/-- Another tree: no node has more children or other callbacks, and the files start where they
did. -/
def Spared (fs fs' : Fs) : Prop := Fewer fs fs' ∧ ∀ id, fileStart fs' id = fileStart fs id

theorem Spared.refl (fs : Fs) : Spared fs fs := ⟨Fewer.refl fs, fun _ => rfl⟩

theorem chmod_spared {cred : Cred} {fs : Fs} {path : PathArg} {cwd : Option Nat} {perms : UInt32}
    {result : Int × Fs} (called : vfsChmod cred fs path cwd perms = some result) :
    Spared fs result.2 := by
  unfold vfsChmod at called
  rcases Option.map_eq_some_iff.mp called with ⟨target, _, rfl⟩
  split
  · exact Spared.refl fs
  · split_ifs
    · exact Spared.refl fs
    · constructor
      · apply Fewer.modify
        exact fun node => ⟨rfl, fun _ listed => listed⟩
      · apply fileStart_modify
        · exact fun node => rfl
        · exact Or.inr fun node => rfl

/-- `vfs_chown` overwrites the start of no file, since it finds none. -/
theorem chown_spared {cred : Cred} {fs : Fs} {path : PathArg} {cwd : Option Nat}
    {uid gid : UInt32} {result : Int × Fs} (secluded : Secluded fs)
    (called : vfsChown cred fs path cwd uid gid = some result) : Spared fs result.2 := by
  unfold vfsChown at called
  rcases Option.map_eq_some_iff.mp called with ⟨target, resolved, rfl⟩
  cases target with
  | none => exact Spared.refl fs
  | some id =>
      dsimp only
      split_ifs
      · exact Spared.refl fs
      · constructor
        · apply Fewer.modify
          exact fun node => ⟨rfl, fun _ listed => listed⟩
        · apply fileStart_modify
          · exact fun node => rfl
          · exact Or.inl (secluded id (vfsResolve_found resolved))

theorem removeNode_spared {fs : Fs} {store : Blockfs} {id : Nat} (plain : fileStart fs id = none) :
    Spared fs (ramfsRemoveNode fs store id).2.1 := by
  rcases ramfsRemoveNode_cases fs store id with ⟨_, same⟩ | ⟨node, parent, _, _, _, _, removed⟩
  · rw [same]
    exact Spared.refl fs
  · rw [removed]
    constructor
    · apply Fewer.free
      apply Fewer.modify
      exact fun above => ⟨rfl, fun _ listed => List.mem_of_mem_erase listed⟩
    · intro other
      have kept : fileStart (fs.modify parent (VfsNode.detach id)) other = fileStart fs other := by
        apply fileStart_modify
        · exact fun _ => rfl
        · exact Or.inr fun _ => rfl
      by_cases same : other = id
      · rw [same, plain, fileStart_none_iff]
        intro node' held
        rw [Fs.free_node_self] at held
        cases held
      · rw [← kept]
        unfold fileStart
        rw [Fs.free_node_of_ne _ same]

theorem delete_spared {cred : Cred} {fs : Fs} {store : Blockfs} {path : PathArg}
    {cwd : Option Nat} {result : Int × Fs × Blockfs} (secluded : Secluded fs)
    (called : vfsDelete cred fs store path cwd = some result) : Spared fs result.2.1 := by
  unfold vfsDelete at called
  rcases Option.bind_eq_some_iff.mp called with ⟨target, resolved, called⟩
  cases target with
  | none =>
      cases called
      exact Spared.refl fs
  | some id =>
      have plain := secluded id (vfsResolve_found resolved)
      dsimp only at called
      split at called
      · cases called
      · split at called
        · cases called
          exact removeNode_spared plain
        · split at called
          · cases called
          · split_ifs at called
            · cases called
              exact Spared.refl fs
            · cases called
              exact Spared.refl fs
            · cases called
              exact removeNode_spared plain

/-! ## Runs -/

theorem Consistent.spared {others : Nat → List Nat} {storage : Storage}
    (consistent : Consistent others storage) {fs : Fs} {store : Blockfs}
    (spared : Spared storage.fs fs) :
    Consistent others { storage with fs := fs, store := store } := by
  rcases consistent with ⟨fits, hung, chains, sound, owns, rest⟩
  refine ⟨fits, hung.fewer spared.1, chains, sound, ?_, rest⟩
  intro id
  dsimp only
  rw [spared.2 id]
  exact owns id

/-- A chain that is still there belongs to what it belonged to. -/
theorem Owns.kept {fat : FatVolume} {disk disk' : Disk} {start : Option Nat} {chain : List Nat}
    (owns : Owns fat disk start chain)
    (links : chain = [] ∨ ∃ first, Chain fat disk' first chain) : Owns fat disk' start chain := by
  rcases owns with empty | ⟨first, same, known⟩
  · exact Or.inl empty
  · rcases links with empty | ⟨first', links⟩
    · have placed := known.first
      rw [empty] at placed
      cases placed
    · have equal := Option.some.inj (known.first.symm.trans links.first)
      rw [← equal] at links
      exact Or.inr ⟨first, same, links⟩

theorem Consistent.write {others : Nat → List Nat} {storage after : Storage} {platform : Platform}
    {fuel id off : Nat} {buffer : List UInt8} (consistent : Consistent others storage)
    (called : perform platform fuel (.write id off buffer) storage = some after) :
    Consistent others after := by
  rcases consistent with ⟨fits, hung, chains, sound, owns, rest⟩
  unfold perform at called
  dsimp only at called
  by_cases file : (fileStart storage.fs id).isSome
  · rw [if_pos file] at called
    rcases Option.isSome_iff_exists.mp file with ⟨first, start⟩
    unfold fileStart at start
    rcases Option.bind_eq_some_iff.mp start with ⟨node, held, kind⟩
    by_cases isFile : node.ops = .fatFile
    · have mine := owns id
      rw [fileStart_file held isFile] at mine
      have wrote := (nodeWrite_sound fits sound mine fuel off buffer).2
      unfold vfsWrite at called
      rw [held] at called
      dsimp only at called
      rw [isFile] at called
      dsimp only at called
      rcases Option.map_eq_some_iff.mp called with ⟨result, performed, rfl⟩
      rcases Option.map_eq_some_iff.mp performed with ⟨written, run, rfl⟩
      have same : written.2.1.ops = node.ops ∧ written.2.1.children = node.children := by
        rw [fatNodeWrite_rewritten run]
        exact ⟨rfl, rfl⟩
      rcases wrote written run with ⟨chain', fits', owns', sound'⟩
      refine ⟨fits', ?_, Function.update chains (.inl id) chain', sound', ?_, ?_⟩
      · apply hung.fewer
        refine ⟨rfl, fun other node' there => ?_⟩
        unfold Storage.setNode at there
        dsimp only at there
        by_cases here : other = id
        · rw [here, Fs.modify_node_self, held] at there
          cases there
          exact ⟨node, by rw [here]; exact held, same.1, by rw [same.2]; exact fun _ listed =>
            listed⟩
        · rw [Fs.modify_node_of_ne _ _ here] at there
          exact ⟨node', there, rfl, fun _ listed => listed⟩
      · intro other
        by_cases here : other = id
        · have there : fileStart (storage.setNode id written.2.1).fs id =
              some (written.2.1.ownerGid.toNat % 2 ^ 16) := by
            apply fileStart_file
            · unfold Storage.setNode
              dsimp only
              rw [Fs.modify_node_self, held]
              rfl
            · exact same.1.trans isFile
          rw [here, Function.update_self]
          dsimp only
          rw [there]
          exact owns'
        · have different : Sum.inl other ≠ (Sum.inl id : Nat ⊕ Nat) := fun equal =>
            here (Sum.inl.inj equal)
          have there : fileStart (storage.setNode id written.2.1).fs other =
              fileStart storage.fs other := by
            unfold fileStart Storage.setNode
            dsimp only
            rw [Fs.modify_node_of_ne _ _ here]
          have links := sound'.links (.inl other)
          rw [Function.update_of_ne different] at links ⊢
          dsimp only
          rw [there]
          exact (owns other).kept links
      · intro number
        rw [Function.update_of_ne (by simp)]
        exact rest number
    · rw [if_neg isFile] at kind
      cases kind
  · rw [if_neg file] at called
    cases called

theorem Consistent.step {others : Nat → List Nat} {storage after : Storage} {platform : Platform}
    {fuel : Nat} {call : Call} (consistent : Consistent others storage)
    (called : perform platform fuel call storage = some after) : Consistent others after := by
  have secluded := consistent.2.1.secluded
  cases call with
  | write id off buffer => exact consistent.write called
  | chmod cred path cwd perms =>
      rcases Option.map_eq_some_iff.mp called with ⟨result, performed, rfl⟩
      exact consistent.spared (chmod_spared performed)
  | chown cred path cwd uid gid =>
      rcases Option.map_eq_some_iff.mp called with ⟨result, performed, rfl⟩
      exact consistent.spared (chown_spared secluded performed)
  | delete cred path cwd =>
      rcases Option.map_eq_some_iff.mp called with ⟨result, performed, rfl⟩
      exact consistent.spared (delete_spared secluded performed)

/-- From a consistent volume on, in every run of writes, `chmod`, `chown` and `delete` the volume
stays consistent, and data stays inside of the data area. -/
theorem allocation_invariant {others : Nat → List Nat} {platform : Platform}
    {storage reached : Storage} (consistent : Consistent others storage)
    (run : Run platform storage reached) : Consistent others reached ∧ StaysInside reached := by
  have kept : Consistent others reached := by
    induction run with
    | refl => exact consistent
    | step _ performed known => exact known.step performed
  exact ⟨kept, kept.staysInside⟩

/-! ## A file of one byte and its owner -/

def oneByteOpened : Storage where
  fs := {
    node := fun id =>
      if id = 0 then some { fatDirectoryNode 0 with ops := .ramfs, children := [1] }
      else if id = 1 then
        some { fatDirectoryNode 0 with name := literal "fat", parent := some 0, children := [2] }
      else if id = 2 then some oneByteNode
      else none
    root := some 0
    next := 3 }
  store := Blockfs.disabled
  disk := oneByteDisk
  fat := oneByteVolume
  randState := 0

theorem oneByte_hung : Hung oneByteOpened.fs := by
  refine ⟨fun id isRoot => ?_, fun id child listed file => ?_⟩
  · cases isRoot
    decide
  · rw [Fs.childrenOf] at listed
    by_cases root : id = 0
    · rw [root] at listed
      rw [List.mem_singleton.mp listed] at file
      cases file
    by_cases directory : id = 1
    · rw [directory]
      rfl
    by_cases isFile : id = 2
    · rw [isFile] at listed
      cases listed
    · have missing : oneByteOpened.fs.node id = none := by
        change (if id = 0 then _ else if id = 1 then _ else if id = 2 then _ else none) = none
        rw [if_neg root, if_neg directory, if_neg isFile]
      rw [missing] at listed
      cases listed

theorem oneByte_consistent : Consistent (fun _ => []) oneByteOpened := by
  have fits : Fits oneByteVolume oneByteDisk := oneByte_opened.volume.fits
  refine ⟨fits, oneByte_hung, fun owner => if owner = .inl 2 then [2] else [], ?_, ?_, ?_⟩
  · constructor
    case links =>
      intro owner
      split_ifs
      · exact Or.inr ⟨2, oneByte_links⟩
      · exact Or.inl rfl
    case apart =>
      intro owner other cluster listed listed'
      split_ifs at listed listed' with first second
      · rw [first, second]
      · cases listed'
      · cases listed
      · cases listed
    case used =>
      intro cluster data taken _
      have all : ∀ number < 15, 2 < number →
          entryOf oneByteVolume oneByteDisk number 0 = 0 := by decide +kernel
      have bounds := data
      unfold InData at bounds
      have only : cluster = 2 := by
        by_contra other
        exact taken (all cluster bounds.2 (by omega))
      refine ⟨.inl 2, ?_⟩
      rw [if_pos rfl, only]
      exact List.mem_singleton_self 2
    case copies =>
      intro cluster _ copy known
      have one : copy < 1 := known
      rw [Nat.lt_one_iff.mp one]
  · intro id
    dsimp only
    by_cases file : id = 2
    · rw [file, if_pos rfl]
      exact Or.inr ⟨2, rfl, oneByte_links⟩
    · have different : Sum.inl id ≠ (Sum.inl 2 : Nat ⊕ Nat) := fun equal =>
        file (Sum.inl.inj equal)
      rw [if_neg different]
      refine Or.inl ⟨rfl, fun first start => ?_⟩
      have none' : fileStart oneByteOpened.fs id = none := by
        rw [fileStart_none_iff]
        intro node held
        unfold oneByteOpened at held
        dsimp only at held
        split_ifs at held
        · cases held
          decide
        · cases held
          decide
      rw [none'] at start
      cases start
  · intro number
    rfl

/-- Appending to the file in another cluster, and trying to give it to another group. -/
theorem allocation_invariant_append : ∃ written after,
    perform Platform.ideal 4 (.write 2 600 [0x62]) oneByteOpened = some written ∧
      perform Platform.ideal 0 (.chown ⟨0, 0⟩ (.of (literal "/fat/f")) none 0 9) written =
        some after ∧ Consistent (fun _ => []) after ∧ StaysInside after := by
  have returns : ((perform Platform.ideal 4 (.write 2 600 [0x62]) oneByteOpened).bind
      (perform Platform.ideal 0 (.chown ⟨0, 0⟩ (.of (literal "/fat/f")) none 0 9))).isSome := by
    decide +kernel
  rcases Option.isSome_iff_exists.mp returns with ⟨after, both⟩
  rcases Option.bind_eq_some_iff.mp both with ⟨written, first, second⟩
  exact ⟨written, after, first, second, allocation_invariant oneByte_consistent
    (Run.step (Run.step Run.refl first) second)⟩

end Fat

end Trinux
