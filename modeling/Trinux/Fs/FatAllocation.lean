import Trinux.Fs.FatData

namespace Trinux

open Bytes

/-!
# The table of a FAT volume

Every cluster in use belongs to one chain of one owner, and the copies of the table agree.  Setting
an entry changes that entry in all copies and nothing else; a new cluster comes from the free ones
and is put behind the last cluster of a chain.
-/

namespace Fat

/-! ## Setting an entry -/

theorem word_overwritten (medium : Nat → UInt8) (position : Nat) {value : Nat}
    (small : value < 65536) : word (overwrite medium position (le16 value)) position = value := by
  have two : (le16 value).length = 2 := rfl
  have low : overwrite medium position (le16 value) position = UInt8.ofNat value :=
    overwrite_inside medium position (le16 value) 0 (by rw [two]; decide)
  have high : overwrite medium position (le16 value) (position + 1) = UInt8.ofNat (value / 256) :=
    overwrite_inside medium position (le16 value) 1 (by rw [two]; decide)
  rw [word, low, high, UInt8.toNat_ofNat', UInt8.toNat_ofNat']
  omega

theorem word_spared (medium : Nat → UInt8) {position other : Nat} (value : Nat)
    (apart : other + 2 ≤ position ∨ position + 2 ≤ other) :
    word (overwrite medium position (le16 value)) other = word medium other := by
  have two : (le16 value).length = 2 := rfl
  rw [word, word, overwrite_outside _ _ _ _ (by omega), overwrite_outside _ _ _ _ (by omega)]

def entryOf (fat : FatVolume) (disk : Disk) (cluster copy : Nat) : Nat :=
  word disk.bytes (entryAddress fat cluster copy)

section Entries

variable {fat : FatVolume} {disk : Disk} (volume : OnMedium fat disk)

include volume

theorem entryAddress_eq {cluster copy : Nat} (below : cluster < fat.totalClusters + 2)
    (known : copy < fat.fatCount) :
    entryAddress fat cluster copy =
      (fat.partitionLba + fat.fatStartLba + copy * fat.sectorsPerFat) * 512 + cluster * 2 := by
  rw [entryAddress, (entry_reaches volume below known).1, entryLba]
  omega

/-- Two entries, of two clusters or in two copies, share no byte. -/
theorem entries_apart {cluster other copy copy' : Nat} (below : cluster < fat.totalClusters + 2)
    (below' : other < fat.totalClusters + 2) (known : copy < fat.fatCount)
    (known' : copy' < fat.fatCount) (distinct : cluster ≠ other ∨ copy ≠ copy') :
    entryAddress fat other copy' + 2 ≤ entryAddress fat cluster copy ∨
      entryAddress fat cluster copy + 2 ≤ entryAddress fat other copy' := by
  have table := volume.table
  rw [entryAddress_eq volume below known, entryAddress_eq volume below' known']
  rcases Nat.lt_trichotomy copy copy' with less | same | less
  · have many := Nat.mul_le_mul_right fat.sectorsPerFat (Nat.succ_le_of_lt less)
    rw [Nat.succ_mul] at many
    omega
  · rw [same] at distinct ⊢
    have other' : cluster ≠ other := distinct.resolve_right fun differ => differ rfl
    omega
  · have many := Nat.mul_le_mul_right fat.sectorsPerFat (Nat.succ_le_of_lt less)
    rw [Nat.succ_mul] at many
    omega

theorem getEntry_first {cluster : Nat} (below : cluster < fat.totalClusters + 2) :
    fatGetEntry Faults.none fat disk cluster = entryOf fat disk cluster 0 :=
  getEntry_reached (entry_reaches volume below volume.copies).2

theorem entry_front {cluster copy : Nat} (below : cluster < fat.totalClusters + 2)
    (known : copy < fat.fatCount) {position : Nat}
    (inside : position < entryAddress fat cluster copy + 2) :
    position / ataSectorSize < fat.partitionLba + fat.dataStartLba := by
  have bounds := entryLba_lt volume below known
  have root := volume.root
  have size : ataSectorSize = 512 := rfl
  have upper : fat.partitionLba + entryLba fat cluster copy + 1 ≤
      fat.partitionLba + fat.dataStartLba := by omega
  have wide := Nat.mul_le_mul_right 512 upper
  rw [entryAddress, (entry_reaches volume below known).1] at inside
  rw [size, Nat.div_lt_iff_lt_mul (by decide)]
  rw [Nat.succ_mul] at wide
  refine (inside.trans_le ?_).trans_le wide
  rw [Nat.add_assoc]
  exact Nat.add_le_add_left (entry_inside cluster) _

end Entries

theorem setCopies_entries {fat : FatVolume} {cluster value : Nat}
    (below : cluster < fat.totalClusters + 2)
    (small : value < 65536) (left : Nat) : ∀ (copy : Nat) (disk : Disk), OnMedium fat disk →
    copy + left ≤ fat.fatCount →
    ∃ disk', fatSetCopies Faults.none fat cluster value left copy disk = (true, disk') ∧
      disk'.present = disk.present ∧ disk'.total = disk.total ∧
      (∀ position, fat.partitionLba + fat.dataStartLba ≤ position / ataSectorSize →
        disk'.bytes position = disk.bytes position) ∧
      ∀ other < fat.totalClusters + 2, ∀ copy' < fat.fatCount,
        entryOf fat disk' other copy' =
          if other = cluster ∧ copy ≤ copy' ∧ copy' < copy + left then value
          else entryOf fat disk other copy' := by
  induction left with
  | zero =>
      intro copy disk _ _
      refine ⟨disk, rfl, rfl, rfl, fun _ _ => rfl, fun other _ copy' _ => ?_⟩
      rw [if_neg (by omega)]
  | succ left left_ih =>
      intro copy disk volume room
      have known : copy < fat.fatCount := by omega
      have volume' : OnMedium fat (setWord disk (entryAddress fat cluster copy) value) :=
        ⟨volume.present, volume.positive, volume.small, volume.few, volume.boot, volume.table,
          volume.copies, volume.front, volume.root, volume.inside⟩
      rcases left_ih (copy + 1) _ volume' (by omega) with
        ⟨disk', set, present, total, behind, entries⟩
      refine ⟨disk', ?_, present, total, ?_, ?_⟩
      · rw [setCopies_reached (entry_reaches volume below known).2]
        exact set
      · intro position data
        rw [behind position data]
        apply overwrite_outside
        by_contra inside
        have two : (le16 value).length = 2 := rfl
        have front : position / ataSectorSize < fat.partitionLba + fat.dataStartLba :=
          entry_front volume below known (by omega)
        omega
      · intro other below' copy' known'
        rw [entries other below' copy' known']
        by_cases later : other = cluster ∧ copy + 1 ≤ copy' ∧ copy' < copy + 1 + left
        · rw [if_pos later, if_pos (by omega)]
        · rw [if_neg later]
          by_cases here : other = cluster ∧ copy' = copy
          · rw [if_pos (by omega), here.1, here.2]
            exact word_overwritten disk.bytes _ small
          · rw [if_neg (by omega)]
            apply word_spared
            exact entries_apart volume below below' known known' (by omega)

section Table

variable {fat : FatVolume} {disk : Disk} (volume : OnMedium fat disk)

include volume

/-- `fat16_set_fat_entry` sets the entry of a cluster in all copies, and nothing else. -/
theorem setEntry_eq {cluster value : Nat} (below : cluster < fat.totalClusters + 2)
    (small : value < 65536) :
    ∃ disk', fatSetEntry Faults.none fat cluster value disk = (true, disk') ∧
      OnMedium fat disk' ∧
      (∀ position, fat.partitionLba + fat.dataStartLba ≤ position / ataSectorSize →
        disk'.bytes position = disk.bytes position) ∧
      ∀ other < fat.totalClusters + 2, ∀ copy < fat.fatCount,
        entryOf fat disk' other copy = if other = cluster then value
          else entryOf fat disk other copy := by
  rcases setCopies_entries below small fat.fatCount 0 disk volume (by omega) with
    ⟨disk', set, present, total, behind, entries⟩
  refine ⟨disk', set, ?_, behind, ?_⟩
  · exact ⟨present.trans volume.present, volume.positive, volume.small, volume.few, volume.boot,
      volume.table, volume.copies, volume.front, volume.root, by rw [total]; exact volume.inside⟩
  · intro other below' copy known
    rw [entries other below' copy known]
    by_cases same : other = cluster
    · rw [if_pos ⟨same, Nat.zero_le _, by omega⟩, if_pos same]
    · rw [if_neg (fun both => same both.1), if_neg same]

/-- `fat16_alloc_cluster` finds no free cluster, or marks one as the end of a chain. -/
theorem allocCluster_eq :
    (fatAllocCluster Faults.none fat disk = (0, disk) ∧
      ∀ cluster, InData fat cluster → entryOf fat disk cluster 0 ≠ 0) ∨
    ∃ cluster, InData fat cluster ∧ entryOf fat disk cluster 0 = 0 ∧
      fatAllocCluster Faults.none fat disk =
        (cluster, (fatSetEntry Faults.none fat cluster 0xFFFF disk).2) := by
  have few := volume.few
  have limit : (fat.totalClusters + 2) % 2 ^ 16 = fat.totalClusters + 2 :=
    Nat.mod_eq_of_lt (by omega)
  unfold fatAllocCluster
  dsimp only
  rw [limit]
  cases found : (List.range' 2 (fat.totalClusters + 2 - 2)).find? fun cluster =>
      fatGetEntry Faults.none fat disk cluster = 0 with
  | none =>
      left
      refine ⟨rfl, fun cluster data free => ?_⟩
      have used := List.find?_eq_none.mp found cluster (by
        rw [List.mem_range'_1]
        have bounds := data
        unfold InData at bounds
        omega)
      rw [getEntry_first volume data.2, free] at used
      exact used (decide_eq_true rfl)
  | some cluster =>
      right
      have member := List.mem_of_find?_eq_some found
      have free := List.find?_some found
      rw [List.mem_range'_1] at member
      have data : InData fat cluster := ⟨member.1, by omega⟩
      rw [getEntry_first volume data.2] at free
      exact ⟨cluster, data, of_decide_eq_true free, rfl⟩

end Table

/-! ## The chains of the owners -/

variable {ι : Type}

/-- Every cluster in use, which is not free and not marked as bad, belongs to the chain of one
owner, and the copies of the table agree. -/
structure Sound (fat : FatVolume) (disk : Disk) (chains : ι → List Nat) : Prop where
  links : ∀ owner, chains owner = [] ∨ ∃ start, Chain fat disk start (chains owner)
  apart : ∀ owner other cluster, cluster ∈ chains owner → cluster ∈ chains other → owner = other
  used : ∀ cluster, InData fat cluster → entryOf fat disk cluster 0 ≠ 0 →
    entryOf fat disk cluster 0 ≠ 0xFFF7 → ∃ owner, cluster ∈ chains owner
  copies : ∀ cluster < fat.totalClusters + 2, ∀ copy < fat.fatCount,
    entryOf fat disk cluster copy = entryOf fat disk cluster 0

section Chains

variable {fat : FatVolume} {disk disk' : Disk} {start : Nat} {chain : List Nat}

/-- A chain is still there when the entries of its clusters are. -/
theorem Chain.congr (links : Chain fat disk start chain)
    (same : ∀ cluster ∈ chain, fatGetEntry Faults.none fat disk' cluster =
      fatGetEntry Faults.none fat disk cluster) : Chain fat disk' start chain where
  first := links.first
  data := links.data
  distinct := links.distinct
  linked := by
    intro index cluster next placed placed'
    rw [same cluster (List.mem_of_getElem? placed)]
    exact links.linked index cluster next placed placed'
  ended := by
    intro cluster placed
    rw [same cluster (List.mem_of_getElem? placed)]
    exact links.ended cluster placed

theorem Chain.entry_ne_zero (volume : OnMedium fat disk) (links : Chain fat disk start chain)
    {cluster : Nat} (listed : cluster ∈ chain) : entryOf fat disk cluster 0 ≠ 0 := by
  rw [← getEntry_first volume (links.data cluster listed).2]
  rcases List.getElem?_of_mem listed with ⟨index, placed⟩
  have shorter := (List.getElem?_eq_some_iff.mp placed).1
  by_cases last : index + 1 = chain.length
  · have ended := links.ended cluster (by rw [← last, Nat.add_sub_cancel]; exact placed)
    omega
  · have next : chain[index + 1]? = some chain[index + 1] := List.getElem?_eq_getElem (by omega)
    have inside := links.inside volume next
    rw [links.linked index cluster _ placed next]
    omega

theorem chain_single {cluster : Nat} (data : InData fat cluster)
    (ended : 0xFFF8 ≤ fatGetEntry Faults.none fat disk cluster) :
    Chain fat disk cluster [cluster] where
  first := rfl
  data := by
    intro other listed
    rw [List.mem_singleton.mp listed]
    exact data
  distinct := List.nodup_singleton cluster
  linked := by
    intro index other next _ placed
    cases placed
  ended := by
    intro other placed
    cases placed
    exact ended

theorem chain_extended (links : Chain fat disk start chain) {last cluster : Nat}
    (final : chain[chain.length - 1]? = some last) (data : InData fat cluster)
    (fresh : cluster ∉ chain) (linked : fatGetEntry Faults.none fat disk' last = cluster)
    (ended : 0xFFF8 ≤ fatGetEntry Faults.none fat disk' cluster)
    (same : ∀ other ∈ chain, other ≠ last → fatGetEntry Faults.none fat disk' other =
      fatGetEntry Faults.none fat disk other) : Chain fat disk' start (chain ++ [cluster]) := by
  have some' : 0 < chain.length := (List.getElem?_eq_some_iff.mp links.first).1
  constructor
  case first => rw [List.getElem?_append_left some', links.first]
  case data =>
    intro other listed
    rcases List.mem_append.mp listed with before | here
    · exact links.data other before
    · rw [List.mem_singleton.mp here]
      exact data
  case distinct =>
    rw [List.nodup_append]
    refine ⟨links.distinct, List.nodup_singleton cluster, ?_⟩
    intro other listed new here equal
    rw [List.mem_singleton.mp here] at equal
    exact fresh (equal ▸ listed)
  case linked =>
    intro index other next placed placed'
    rcases Nat.lt_or_ge (index + 1) chain.length with inside | past
    · rw [List.getElem?_append_left (by omega)] at placed
      rw [List.getElem?_append_left inside] at placed'
      have before : other ≠ last := by
        intro equal
        rcases List.getElem?_eq_some_iff.mp placed with ⟨short, here⟩
        rcases List.getElem?_eq_some_iff.mp final with ⟨short', there⟩
        have position := (links.distinct.getElem_inj_iff).mp
          (here.trans (equal.trans there.symm))
        omega
      rw [same other (List.mem_of_getElem? placed) before]
      exact links.linked index other next placed placed'
    · have length := (List.getElem?_eq_some_iff.mp placed').1
      rw [List.length_append, List.length_singleton] at length
      have position : index = chain.length - 1 := by omega
      have behind : index + 1 = chain.length := by omega
      rw [List.getElem?_append_left (by omega), position, final] at placed
      rw [behind, List.getElem?_append_right (Nat.le_refl _), Nat.sub_self] at placed'
      cases placed
      cases placed'
      exact linked
  case ended =>
    intro other placed
    have position : (chain ++ [cluster]).length - 1 = chain.length := by
      rw [List.length_append, List.length_singleton, Nat.add_sub_cancel]
    rw [position, List.getElem?_append_right (Nat.le_refl _), Nat.sub_self] at placed
    cases placed
    exact ended

end Chains

theorem Sound.fresh {fat : FatVolume} {disk : Disk} {chains : ι → List Nat}
    (volume : OnMedium fat disk) (sound : Sound fat disk chains) {cluster : Nat}
    (free : entryOf fat disk cluster 0 = 0) (owner : ι) : cluster ∉ chains owner := by
  intro listed
  rcases sound.links owner with empty | ⟨start, links⟩
  · rw [empty] at listed
    cases listed
  · exact links.entry_ne_zero volume listed free

theorem Sound.changed {fat : FatVolume} {disk disk' : Disk} {chains : ι → List Nat}
    {chain : List Nat} (volume : OnMedium fat disk)
    (sound : Sound fat disk chains) (data : ∀ cluster ∈ chain, InData fat cluster)
    (changed : Disk.ChangedOnly (· ∈ sectorsOf fat chain) disk disk') : Sound fat disk' chains := by
  have same : ∀ cluster < fat.totalClusters + 2, ∀ copy < fat.fatCount,
      entryOf fat disk' cluster copy = entryOf fat disk cluster copy := by
    intro cluster below copy known
    have spared : ∀ position < entryAddress fat cluster copy + 2,
        disk'.bytes position = disk.bytes position := fun position inside =>
      changed.bytes position (front_spared volume data (entry_front volume below known inside))
    unfold entryOf word
    rw [spared _ (by omega), spared _ (by omega)]
  constructor
  case links =>
    intro owner
    rcases sound.links owner with empty | ⟨start, links⟩
    · exact Or.inl empty
    · refine Or.inr ⟨start, links.congr fun cluster listed => ?_⟩
      exact getEntry_changed volume data changed (links.data cluster listed).2
  case apart => exact sound.apart
  case used =>
    intro cluster inData taken good
    rw [same cluster inData.2 0 volume.copies] at taken good
    exact sound.used cluster inData taken good
  case copies =>
    intro cluster below copy known
    rw [same cluster below copy known, same cluster below 0 volume.copies]
    exact sound.copies cluster below copy known

section Grown

variable [DecidableEq ι] {fat : FatVolume} {disk : Disk} {chains : ι → List Nat}

/-- A chain that has grown by a free cluster, while the entries of all other clusters are as
before. -/
theorem Sound.grown {disk' : Disk} (volume : OnMedium fat disk) (volume' : OnMedium fat disk')
    (sound : Sound fat disk chains) {owner : ι} {cluster : Nat}
    (free : entryOf fat disk cluster 0 = 0)
    (links : ∃ start, Chain fat disk' start (chains owner ++ [cluster]))
    (same : ∀ other < fat.totalClusters + 2, other ≠ cluster → other ∉ chains owner →
      entryOf fat disk' other 0 = entryOf fat disk other 0)
    (copies : ∀ cluster < fat.totalClusters + 2, ∀ copy < fat.fatCount,
      entryOf fat disk' cluster copy = entryOf fat disk' cluster 0) :
    Sound fat disk' (Function.update chains owner (chains owner ++ [cluster])) := by
  have fresh := sound.fresh volume free
  constructor
  case links =>
    intro other
    by_cases here : other = owner
    · rw [here, Function.update_self]
      exact Or.inr links
    · rw [Function.update_of_ne here]
      rcases sound.links other with empty | ⟨start, known⟩
      · exact Or.inl empty
      · refine Or.inr ⟨start, known.congr fun member listed => ?_⟩
        have below := (known.data member listed).2
        rw [getEntry_first volume' below, getEntry_first volume below]
        apply same member below
        · rintro rfl
          exact fresh other listed
        · exact fun mine => here (sound.apart other owner member listed mine)
  case apart =>
    have new : ∀ other member, member ∈ Function.update chains owner (chains owner ++ [cluster])
        other → (member = cluster ∧ other = owner) ∨ member ∈ chains other := by
      intro other member listed
      by_cases here : other = owner
      · rw [here, Function.update_self] at listed
        rcases List.mem_append.mp listed with before | last
        · rw [here]
          exact Or.inr before
        · exact Or.inl ⟨List.mem_singleton.mp last, here⟩
      · rw [Function.update_of_ne here] at listed
        exact Or.inr listed
    intro first second member listed listed'
    rcases new first member listed with ⟨rfl, mine⟩ | before
    · rcases new second member listed' with ⟨_, mine'⟩ | before'
      · rw [mine, mine']
      · exact absurd before' (fresh second)
    · rcases new second member listed' with ⟨rfl, _⟩ | before'
      · exact absurd before (fresh first)
      · exact sound.apart first second member before before'
  case used =>
    intro member data taken good
    by_cases mine : member = cluster ∨ member ∈ chains owner
    · refine ⟨owner, ?_⟩
      rw [Function.update_self]
      rcases mine with rfl | before
      · exact List.mem_append_right _ (List.mem_singleton_self _)
      · exact List.mem_append_left _ before
    · rw [not_or] at mine
      rw [same member data.2 mine.1 mine.2] at taken good
      rcases sound.used member data taken good with ⟨other, listed⟩
      refine ⟨other, ?_⟩
      have different : other ≠ owner := by
        rintro rfl
        exact mine.2 listed
      rw [Function.update_of_ne different]
      exact listed
  case copies => exact copies

theorem Sound.first (volume : OnMedium fat disk) (sound : Sound fat disk chains) {owner : ι}
    (empty : chains owner = []) {cluster : Nat} (data : InData fat cluster)
    (free : entryOf fat disk cluster 0 = 0) :
    ∃ disk', (fatSetEntry Faults.none fat cluster 0xFFFF disk).2 = disk' ∧ OnMedium fat disk' ∧
      Chain fat disk' cluster [cluster] ∧
      Sound fat disk' (Function.update chains owner [cluster]) := by
  have word : 0xFFFF < 65536 := by decide
  rcases setEntry_eq volume data.2 word with
    ⟨disk', set, volume', _, entries⟩
  have ended : fatGetEntry Faults.none fat disk' cluster = 0xFFFF := by
    rw [getEntry_first volume' data.2, entries cluster data.2 0 volume.copies, if_pos rfl]
  have links : Chain fat disk' cluster [cluster] := chain_single data (by omega)
  refine ⟨disk', by rw [set], volume', links, ?_⟩
  have grown : Sound fat disk' (Function.update chains owner (chains owner ++ [cluster])) :=
    sound.grown volume volume' free
    ⟨cluster, by rw [empty]; exact links⟩
    (fun other below different _ => by
      rw [entries other below 0 volume.copies, if_neg different])
    (fun other below copy known => by
      rw [entries other below copy known, entries other below 0 volume.copies]
      split_ifs
      · rfl
      · exact sound.copies other below copy known)
  rw [empty] at grown
  exact grown

theorem Sound.further (volume : OnMedium fat disk) (sound : Sound fat disk chains) {owner : ι}
    {start : Nat} (links : Chain fat disk start (chains owner)) {last cluster : Nat}
    (final : (chains owner)[(chains owner).length - 1]? = some last) (data : InData fat cluster)
    (free : entryOf fat disk cluster 0 = 0) :
    ∃ disk', (fatSetEntry Faults.none fat last cluster
        (fatSetEntry Faults.none fat cluster 0xFFFF disk).2).2 = disk' ∧ OnMedium fat disk' ∧
      Chain fat disk' start (chains owner ++ [cluster]) ∧
      Sound fat disk' (Function.update chains owner (chains owner ++ [cluster])) := by
  have word : 0xFFFF < 65536 := by decide
  have few := volume.few
  have fresh := sound.fresh volume free owner
  have listed := List.mem_of_getElem? final
  have below := (links.data last listed).2
  have different : cluster ≠ last := by
    rintro rfl
    exact fresh listed
  have small : cluster < 65536 := by
    have bound := data.2
    omega
  rcases setEntry_eq volume data.2 word with ⟨marked, set, volume', _, entries⟩
  rcases setEntry_eq volume' below small with ⟨disk', set', volume'', _, entries'⟩
  have entry : ∀ other < fat.totalClusters + 2, ∀ copy < fat.fatCount,
      entryOf fat disk' other copy = if other = last then cluster
        else if other = cluster then 0xFFFF else entryOf fat disk other copy := by
    intro other bound copy known
    rw [entries' other bound copy known, entries other bound copy known]
  have links' : Chain fat disk' start (chains owner ++ [cluster]) := by
    apply chain_extended links final data fresh
    · rw [getEntry_first volume'' below, entry last below 0 volume.copies, if_pos rfl]
    · rw [getEntry_first volume'' data.2, entry cluster data.2 0 volume.copies,
        if_neg different, if_pos rfl]
      decide
    · intro other member before
      have bound := (links.data other member).2
      have old : other ≠ cluster := by
        rintro rfl
        exact fresh member
      rw [getEntry_first volume'' bound, getEntry_first volume bound,
        entry other bound 0 volume.copies, if_neg before, if_neg old]
  refine ⟨disk', by rw [set, set'], volume'', links', ?_⟩
  apply sound.grown volume volume'' free ⟨start, links'⟩
  · intro other bound new outside
    have before : other ≠ last := by
      rintro rfl
      exact outside listed
    rw [entry other bound 0 volume.copies, if_neg before, if_neg new]
  · intro other bound copy known
    rw [entry other bound copy known, entry other bound 0 volume.copies]
    split_ifs
    · rfl
    · rfl
    · exact sound.copies other bound copy known

/-- The next cluster of a chain, which is extended at its end unless the volume is full. -/
theorem nextCluster_sound (volume : OnMedium fat disk) (sound : Sound fat disk chains) {owner : ι}
    {start index cluster : Nat} (links : Chain fat disk start (chains owner))
    (placed : (chains owner)[index]? = some cluster) :
    fatNextCluster Faults.none fat cluster disk = (none, disk) ∨
      ∃ next disk' chain', fatNextCluster Faults.none fat cluster disk = (some next, disk') ∧
        OnMedium fat disk' ∧ Chain fat disk' start chain' ∧ chain'[index + 1]? = some next ∧
        Sound fat disk' (Function.update chains owner chain') := by
  have shorter := (List.getElem?_eq_some_iff.mp placed).1
  by_cases last : index + 1 = (chains owner).length
  · have final : (chains owner)[(chains owner).length - 1]? = some cluster := by
      rw [← last, Nat.add_sub_cancel]
      exact placed
    have ended := links.ended cluster final
    rcases allocCluster_eq volume with ⟨full, _⟩ | ⟨new, data, free, found⟩
    · left
      unfold fatNextCluster
      dsimp only
      rw [if_pos ended, full]
      rfl
    · right
      rcases sound.further volume links final data free with ⟨disk', set, volume', links', sound'⟩
      rcases Nat.exists_eq_add_of_le' data.1 with ⟨rest, rfl⟩
      refine ⟨rest + 2, disk', chains owner ++ [rest + 2], ?_, volume', links', ?_, sound'⟩
      · unfold fatNextCluster
        dsimp only
        rw [if_pos ended, found, ← set]
        rfl
      · rw [last, List.getElem?_append_right (Nat.le_refl _), Nat.sub_self]
        rfl
  · right
    have next : (chains owner)[index + 1]? = some (chains owner)[index + 1] :=
      List.getElem?_eq_getElem (by omega)
    refine ⟨_, disk, chains owner, ?_, volume, links, next, ?_⟩
    · rw [nextCluster_eq volume links placed (by omega), next]
    · rw [Function.update_eq_self]
      exact sound

end Grown

/-! ## Writing -/

section Writing

variable [DecidableEq ι] {fat : FatVolume}

/-- The way of `fat16_node_write` to the cluster of its offset. -/
theorem advance_sound {owner : ι} {start : Nat} (steps : Nat) : ∀ (index cluster : Nat)
    (disk : Disk) (chains : ι → List Nat), OnMedium fat disk → Sound fat disk chains →
    Chain fat disk start (chains owner) → (chains owner)[index]? = some cluster →
    ∃ reached disk' chain', fatAdvance Faults.none fat steps cluster disk = (reached, disk') ∧
      OnMedium fat disk' ∧ Chain fat disk' start chain' ∧
      (∀ there, reached = some there → chain'[index + steps]? = some there) ∧
      Sound fat disk' (Function.update chains owner chain') := by
  induction steps with
  | zero =>
      intro index cluster disk chains volume sound links placed
      refine ⟨some cluster, disk, chains owner, rfl, volume, links, ?_, ?_⟩
      · intro there same
        cases same
        exact placed
      · rw [Function.update_eq_self]
        exact sound
  | succ steps steps_ih =>
      intro index cluster disk chains volume sound links placed
      rcases nextCluster_sound volume sound links placed with
        full | ⟨next, disk₁, chain₁, found, volume₁, links₁, placed₁, sound₁⟩
      · refine ⟨none, disk, chains owner, ?_, volume, links, (fun there same => nomatch same), ?_⟩
        · rw [fatAdvance, full]
        · rw [Function.update_eq_self]
          exact sound
      · rcases steps_ih (index + 1) next disk₁ (Function.update chains owner chain₁) volume₁ sound₁
          (by rw [Function.update_self]; exact links₁)
          (by rw [Function.update_self]; exact placed₁) with
          ⟨reached, disk', chain', others, volume', links', placed', sound'⟩
        refine ⟨reached, disk', chain', ?_, volume', links', ?_, ?_⟩
        · rw [fatAdvance, found]
          exact others
        · intro there same
          have position : index + (steps + 1) = index + 1 + steps := by omega
          rw [position]
          exact placed' there same
        · rw [Function.update_idem] at sound'
          exact sound'

def writtenClusters (faults : Faults) (fat : FatVolume) :
    (fuel cluster offset : Nat) → (buffer : List UInt8) → Disk → List Nat
  | 0, _, _, _, _ => []
  | fuel + 1, cluster, offset, buffer, disk =>
      if buffer.length = 0 then []
      else
        let want := min (fat.sectorsPerCluster * 512 % 2 ^ 16 - offset) buffer.length
        let done := fatWriteCluster faults fat (fatClusterLba fat cluster) want (offset / 512)
          (offset % 512) (buffer.take want) disk
        if buffer.length ≤ done.1 then [cluster]
        else
          match fatNextCluster faults fat cluster done.2 with
          | (none, _) => [cluster]
          | (some next, disk) =>
              cluster :: writtenClusters faults fat fuel next 0 (buffer.drop done.1) disk

/-- The loop of `fat16_node_write` over a chain that it may extend. -/
theorem writeChain_sound {owner : ι} {start : Nat} (fuel : Nat) : ∀ (index cluster offset : Nat)
    (buffer : List UInt8) (disk : Disk) (chains : ι → List Nat), OnMedium fat disk →
    Sound fat disk chains → Chain fat disk start (chains owner) →
    (chains owner)[index]? = some cluster → offset < clusterBytes fat →
    (∀ written ∈ writtenClusters Faults.none fat fuel cluster offset buffer disk,
      InData fat written) ∧
    ∀ result, fatWriteChain Faults.none fat fuel cluster offset buffer disk = some result →
      ∃ chain', OnMedium fat result.2 ∧ Chain fat result.2 start chain' ∧
        Sound fat result.2 (Function.update chains owner chain') := by
  induction fuel with
  | zero =>
      intro index cluster offset buffer disk chains _ _ _ _ _
      constructor
      · intro written listed
        cases listed
      · intro result found
        cases found
  | succ fuel fuel_ih =>
      intro index cluster offset buffer disk chains volume sound links placed low
      have positive := clusterBytes_pos volume
      rw [writtenClusters, fatWriteChain]
      by_cases nothing : buffer.length = 0
      · rw [if_pos nothing, if_pos nothing]
        refine ⟨(fun written listed => by cases listed), fun result found => ?_⟩
        cases found
        refine ⟨chains owner, volume, links, ?_⟩
        rw [Function.update_eq_self]
        exact sound
      · have listed := List.mem_of_getElem? placed
        have data := links.data cluster listed
        have narrow : fat.sectorsPerCluster * 512 % 2 ^ 16 = clusterBytes fat :=
          Nat.mod_eq_of_lt volume.small
        rw [if_neg nothing, if_neg nothing, narrow]
        dsimp only
        generalize taken : min (clusterBytes fat - offset) buffer.length = want
        rcases writeCluster_part volume data low taken with ⟨_, fits, done⟩
        have changed := withBytes_changedOnly disk listed fits
        have volume₁ := onMedium_changed volume changed
        have sound₁ := sound.changed volume links.data changed
        have links₁ := chain_changed volume links.data changed links
        rw [done]
        dsimp only
        by_cases last : buffer.length ≤ want
        · rw [if_pos last, if_pos last]
          constructor
          · intro written member
            rw [List.mem_singleton.mp member]
            exact data
          · intro result found
            cases found
            refine ⟨chains owner, volume₁, links₁, ?_⟩
            rw [Function.update_eq_self]
            exact sound₁
        · rw [if_neg last, if_neg last]
          rcases nextCluster_sound volume₁ sound₁ links₁ placed with
            full | ⟨next, disk₂, chain₂, found, volume₂, links₂, placed₂, sound₂⟩
          · rw [full]
            constructor
            · intro written member
              rw [List.mem_singleton.mp member]
              exact data
            · intro result found
              cases found
              refine ⟨chains owner, volume₁, links₁, ?_⟩
              rw [Function.update_eq_self]
              exact sound₁
          · rw [found]
            have others := fuel_ih (index + 1) next 0 (buffer.drop want) disk₂
              (Function.update chains owner chain₂) volume₂ sound₂
              (by rw [Function.update_self]; exact links₂)
              (by rw [Function.update_self]; exact placed₂) positive
            constructor
            · intro written member
              rcases List.mem_cons.mp member with rfl | behind
              · exact data
              · exact others.1 written behind
            · intro result returned
              rcases Option.map_eq_some_iff.mp returned with ⟨rest, run, rfl⟩
              rcases others.2 rest run with ⟨chain', volume', links', sound'⟩
              rw [Function.update_idem] at sound'
              exact ⟨chain', volume', links', sound'⟩

end Writing

end Fat

end Trinux
