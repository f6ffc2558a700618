import Trinux.Fs.FatTable

namespace Trinux

open Bytes

/-!
# Traversals of cluster chains

Listing a subdirectory, reading a file and freeing a chain follow the links of the table until a
link that ends the chain, and count no steps.  A call returns when some amount of fuel is enough for
it.
-/

def fatFreeClusterChain (faults : Faults) (fat : FatVolume) :
    (fuel cluster : Nat) → Disk → Option Disk
  | 0, _, _ => none
  | fuel + 1, cluster, disk =>
      if cluster < 2 ∨ 0xFFF8 ≤ cluster then some disk
      else
        let next := fatGetEntry faults fat disk cluster
        fatFreeClusterChain faults fat fuel next (fatSetEntry faults fat cluster 0 disk).2

namespace Fat

variable (faults : Faults) (fat : FatVolume) (disk : Disk)

def chainAt : (links cluster : Nat) → Nat
  | 0, cluster => cluster
  | links + 1, cluster => chainAt links (fatGetEntry faults fat disk cluster)

def ChainEnds (cluster : Nat) : Prop :=
  ∃ links, chainAt faults fat disk links cluster < 2 ∨
    0xFFF8 ≤ chainAt faults fat disk links cluster

/-- The bytes that can be read from the first clusters of a chain, from an offset in the first of
them on; a cluster that the chain passes again counts again. -/
def available : (clusters cluster offset : Nat) → Nat
  | 0, _, _ => 0
  | clusters + 1, cluster, offset =>
      let want := fat.sectorsPerCluster * 512 - offset
      (fatReadCluster faults fat disk (fatClusterLba fat cluster) want (offset / 512)
          (offset % 512) want).length +
        available clusters (fatGetEntry faults fat disk cluster) 0

variable {faults fat disk}

theorem ChainEnds.here {cluster : Nat} (ends : cluster < 2 ∨ 0xFFF8 ≤ cluster) :
    ChainEnds faults fat disk cluster := ⟨0, ends⟩

theorem ChainEnds.later {cluster : Nat}
    (ends : ChainEnds faults fat disk (fatGetEntry faults fat disk cluster)) :
    ChainEnds faults fat disk cluster := by
  rcases ends with ⟨links, ends⟩
  exact ⟨links + 1, ends⟩

/-! ## subdirectories -/

theorem chain_returns_iff (cluster : Nat) :
    (∃ fuel, fatChain faults fat disk fuel cluster ≠ none) ↔ ChainEnds faults fat disk cluster := by
  constructor
  · rintro ⟨fuel, returned⟩
    induction fuel generalizing cluster with
    | zero => exact absurd rfl returned
    | succ fuel ih =>
        rw [fatChain] at returned
        by_cases ends : cluster < 2 ∨ 0xFFF8 ≤ cluster
        · exact ChainEnds.here ends
        · rw [if_neg ends] at returned
          apply ChainEnds.later
          apply ih
          intro none
          rw [none] at returned
          exact returned rfl
  · rintro ⟨links, ends⟩
    refine ⟨links + 1, ?_⟩
    induction links generalizing cluster with
    | zero =>
        have here : cluster < 2 ∨ 0xFFF8 ≤ cluster := ends
        rw [fatChain, if_pos here]
        exact Option.some_ne_none _
    | succ links ih =>
        rw [fatChain]
        by_cases inside : cluster < 2 ∨ 0xFFF8 ≤ cluster
        · rw [if_pos inside]
          exact Option.some_ne_none _
        · rw [if_neg inside]
          intro none
          exact ih _ ends (Option.map_eq_none_iff.mp none)

/-- With memory for its nodes, reading the entries of a directory comes to an end. -/
theorem readEntries_returns {platform : Platform} (granted : ∀ site, platform.alloc site = true)
    (dir : Nat) (entries : List (List UInt8)) (site : Nat) (fs : Fs) :
    fatReadEntries platform dir entries site fs ≠ none := by
  have memory : kmallocAligned true sizeofVfsNode = true := by decide
  induction entries generalizing site fs with
  | nil => exact Option.some_ne_none fs
  | cons entry rest ih =>
      rw [fatReadEntries, granted, memory]
      split
      · exact Option.some_ne_none fs
      · split
        · exact ih site fs
        · rw [if_neg (by decide)]
          split
          · exact ih _ _
          · exact ih _ _

def Unread (node : VfsNode) : Prop :=
  node.type = vfsDirectory ∧ node.children = [] ∧ node.name.head? ≠ some 46

section Listing

variable {platform : Platform} {storage : Storage} {id index child : Nat} {node : VfsNode}

/-- Listing a child that is read already, or no directory. -/
theorem readdir_read (listed : (storage.fs.childrenOf id)[index]? = some child)
    (held : storage.fs.node child = some node) (read : ¬Unread node) (fuel : Nat) :
    fatReaddir platform fuel storage id index = some (some child, storage) := by
  rw [fatReaddir, listed]
  dsimp only
  rw [held]
  dsimp only
  exact if_neg read

/-- Listing an unread subdirectory returns when its chain has been followed. -/
theorem readdir_unread (granted : ∀ site, platform.alloc site = true)
    (listed : (storage.fs.childrenOf id)[index]? = some child)
    (held : storage.fs.node child = some node) (unread : Unread node) (fuel : Nat) :
    fatReaddir platform fuel storage id index = none ↔
      fatChain platform.faults storage.fat storage.disk fuel (node.ownerGid.toNat % 2 ^ 16) =
        none := by
  have memory : kmallocAligned true sizeofVfsNode = true := by decide
  have array : kmalloc true (2048 * 32) = true := by decide
  have kind : node.type = vfsDirectory ∧ node.children = [] ∧ node.name.head? ≠ some 46 := unread
  rw [fatReaddir, listed]
  dsimp only
  rw [held]
  dsimp only
  rw [if_pos kind, Option.map_eq_none_iff, fatReadDir, granted, memory, if_neg (by decide),
    fatSubEntries, granted, array, if_neg (by decide)]
  cases fatChain platform.faults storage.fat storage.disk fuel (node.ownerGid.toNat % 2 ^ 16) with
  | none => exact iff_of_true rfl rfl
  | some clusters =>
      rw [Option.map_some, Option.bind_some, Option.map_eq_none_iff]
      exact iff_of_false (readEntries_returns granted _ _ _ _) (Option.some_ne_none _)

/-- The listing of an entry returns when the chain of an unread subdirectory ends. -/
theorem readdir_returns_iff (granted : ∀ site, platform.alloc site = true)
    (storage : Storage) (id index : Nat) :
    (∃ fuel, fatReaddir platform fuel storage id index ≠ none) ↔
      ∀ child, (storage.fs.childrenOf id)[index]? = some child →
        ∃ node, storage.fs.node child = some node ∧ (Unread node →
          ChainEnds platform.faults storage.fat storage.disk (node.ownerGid.toNat % 2 ^ 16)) := by
  cases listed : (storage.fs.childrenOf id)[index]? with
  | none =>
      constructor
      · intro _ child none
        cases none
      · intro _
        refine ⟨0, ?_⟩
        rw [fatReaddir, listed]
        exact Option.some_ne_none _
  | some child =>
      cases held : storage.fs.node child with
      | none =>
          constructor
          · rintro ⟨fuel, returned⟩
            rw [fatReaddir, listed] at returned
            dsimp only at returned
            rw [held] at returned
            exact absurd rfl returned
          · intro all
            rcases all child rfl with ⟨node, there, _⟩
            rw [held] at there
            cases there
      | some node =>
          by_cases unread : Unread node
          · have same := readdir_unread granted listed held unread
            constructor
            · rintro ⟨fuel, returned⟩ other same_child
              cases same_child
              refine ⟨node, held, fun _ => (chain_returns_iff _).mp ⟨fuel, ?_⟩⟩
              exact fun none => returned ((same fuel).mpr none)
            · intro all
              rcases all child rfl with ⟨other, there, ends⟩
              rw [held] at there
              cases there
              rcases (chain_returns_iff _).mpr (ends unread) with ⟨fuel, returned⟩
              exact ⟨fuel, fun none => returned ((same fuel).mp none)⟩
          · constructor
            · intro _ other same_child
              cases same_child
              exact ⟨node, held, fun read => absurd read unread⟩
            · intro _
              refine ⟨0, ?_⟩
              rw [readdir_read listed held unread]
              exact Option.some_ne_none _

end Listing

/-! ## files -/

theorem read_sector_length {bytes : List UInt8} {lba : Nat}
    (read : fatReadSector faults fat disk lba = some bytes) : bytes.length = 512 := by
  rw [ataReadSectors_eq_some read]
  exact Disk.sectors_length _ _ _

/-- Within a cluster, a shorter read delivers the beginning of a longer one. -/
theorem readCluster_length (lba : Nat) {fuel fuel' sector byte left left' : Nat}
    (enough : left ≤ fuel) (enough' : left' ≤ fuel') (shorter : left' ≤ left)
    (inside : byte < 512) :
    (fatReadCluster faults fat disk lba fuel' sector byte left').length =
      min left' (fatReadCluster faults fat disk lba fuel sector byte left).length := by
  induction fuel' generalizing fuel sector byte left left' with
  | zero =>
      rw [Nat.le_zero.mp enough', Nat.zero_min]
      rfl
  | succ fuel' ih =>
      by_cases nothing : left' = 0
      · rw [fatReadCluster, if_pos nothing, nothing, Nat.zero_min]
        rfl
      · cases fuel with
        | zero => exact absurd (Nat.le_zero.mp (shorter.trans enough)) nothing
        | succ fuel =>
            have more : left ≠ 0 := fun zero => nothing (Nat.le_zero.mp (zero ▸ shorter))
            rw [fatReadCluster, fatReadCluster, if_neg nothing, if_neg more]
            cases read : fatReadSector faults fat disk (lba + sector) with
            | none =>
                dsimp only
                rw [List.length_nil, Nat.min_zero]
            | some bytes =>
                have full := read_sector_length read
                dsimp only
                have slice_length : ∀ take, take ≤ 512 - byte →
                    (slice bytes byte take).length = take := by
                  intro take fits
                  rw [slice, List.length_take, List.length_drop, full]
                  exact Nat.min_eq_left fits
                rw [List.length_append, List.length_append,
                  slice_length _ (Nat.min_le_left _ _), slice_length _ (Nat.min_le_left _ _)]
                by_cases last : left' ≤ 512 - byte
                · have rest : left' - min (512 - byte) left' = 0 := by omega
                  have none : (fatReadCluster faults fat disk lba fuel' (sector + 1) 0 0).length =
                      0 := by
                    cases fuel' <;> rfl
                  rw [rest, none]
                  omega
                · have rest : (fatReadCluster faults fat disk lba fuel' (sector + 1) 0
                      (left' - min (512 - byte) left')).length =
                      min (left' - min (512 - byte) left')
                        (fatReadCluster faults fat disk lba fuel (sector + 1) 0
                          (left - min (512 - byte) left)).length := by
                    apply ih
                    · omega
                    · omega
                    · omega
                    · decide
                  rw [rest]
                  omega

theorem got_length (cluster offset left : Nat) :
    (fatReadCluster faults fat disk (fatClusterLba fat cluster)
        (min (fat.sectorsPerCluster * 512 - offset) left) (offset / 512) (offset % 512)
        (min (fat.sectorsPerCluster * 512 - offset) left)).length =
      min left (available faults fat disk 1 cluster offset) := by
  have inside : offset % 512 < 512 := Nat.mod_lt _ (by decide)
  have shorter : (fatReadCluster faults fat disk (fatClusterLba fat cluster)
      (min (fat.sectorsPerCluster * 512 - offset) left) (offset / 512) (offset % 512)
      (min (fat.sectorsPerCluster * 512 - offset) left)).length = _ :=
    readCluster_length (fatClusterLba fat cluster)
      (Nat.le_refl (fat.sectorsPerCluster * 512 - offset)) (Nat.le_refl _) (Nat.min_le_left _ _)
      inside
  have whole : (fatReadCluster faults fat disk (fatClusterLba fat cluster)
      (fat.sectorsPerCluster * 512 - offset) (offset / 512) (offset % 512)
      (fat.sectorsPerCluster * 512 - offset)).length = _ :=
    readCluster_length (fatClusterLba fat cluster)
      (Nat.le_refl (fat.sectorsPerCluster * 512 - offset)) (Nat.le_refl _) (Nat.le_refl _) inside
  rw [available, available, Nat.add_zero, shorter]
  omega

theorem available_succ (clusters cluster offset : Nat) :
    available faults fat disk (clusters + 1) cluster offset =
      available faults fat disk 1 cluster offset +
        available faults fat disk clusters (fatGetEntry faults fat disk cluster) 0 := rfl

theorem readChain_returns_iff (cluster offset left : Nat) :
    (∃ fuel, fatReadChain faults fat disk fuel cluster offset left ≠ none) ↔
      ChainEnds faults fat disk cluster ∨
        ∃ clusters, left ≤ available faults fat disk clusters cluster offset := by
  constructor
  · rintro ⟨fuel, returned⟩
    induction fuel generalizing cluster offset left with
    | zero => exact absurd rfl returned
    | succ fuel ih =>
        rw [fatReadChain] at returned
        by_cases done : left = 0 ∨ cluster < 2 ∨ 0xFFF8 ≤ cluster
        · rcases done with nothing | ends
          · exact Or.inr ⟨0, Nat.le_of_eq nothing⟩
          · exact Or.inl (ChainEnds.here ends)
        · rw [if_neg done] at returned
          dsimp only at returned
          rw [got_length] at returned
          have further := ih _ _ _ fun none => returned (by rw [none]; rfl)
          rcases further with ends | ⟨clusters, enough⟩
          · exact Or.inl ends.later
          · refine Or.inr ⟨clusters + 1, ?_⟩
            rw [available_succ]
            omega
  · have reads : ∀ steps cluster offset left,
        (chainAt faults fat disk steps cluster < 2 ∨
          0xFFF8 ≤ chainAt faults fat disk steps cluster) ∨
          left ≤ available faults fat disk steps cluster offset →
        fatReadChain faults fat disk (steps + 1) cluster offset left ≠ none := by
      intro steps
      induction steps with
      | zero =>
          intro cluster offset left ends
          have done : left = 0 ∨ cluster < 2 ∨ 0xFFF8 ≤ cluster := by
            rcases ends with here | nothing
            · exact Or.inr here
            · exact Or.inl (Nat.le_zero.mp nothing)
          rw [fatReadChain, if_pos done]
          exact Option.some_ne_none _
      | succ steps ih =>
          intro cluster offset left ends
          rw [fatReadChain]
          by_cases done : left = 0 ∨ cluster < 2 ∨ 0xFFF8 ≤ cluster
          · rw [if_pos done]
            exact Option.some_ne_none _
          · rw [if_neg done]
            dsimp only
            rw [got_length]
            intro none
            refine ih _ _ _ ?_ (Option.map_eq_none_iff.mp none)
            rcases ends with later | enough
            · exact Or.inl later
            · right
              rw [available_succ] at enough
              omega
    rintro (⟨links, ends⟩ | ⟨clusters, enough⟩)
    · exact ⟨links + 1, reads links cluster offset left (Or.inl ends)⟩
    · exact ⟨clusters + 1, reads clusters cluster offset left (Or.inr enough)⟩

def ReadEnds (faults : Faults) (fat : FatVolume) (disk : Disk) (node : VfsNode) (off size : Nat) :
    Prop :=
  off < node.size.toNat → 2 ≤ node.ownerGid.toNat % 2 ^ 16 →
    ∀ cluster, fatFollow faults fat disk (off / (fat.sectorsPerCluster * 512))
        (node.ownerGid.toNat % 2 ^ 16) = some cluster →
      ChainEnds faults fat disk cluster ∨
        ∃ clusters,
          (if node.size.toNat < u32 (off + size) then node.size.toNat - off else size) ≤
            available faults fat disk clusters cluster (off % (fat.sectorsPerCluster * 512))

theorem nodeRead_returns_iff (divides : 0 < fat.sectorsPerCluster) (node : VfsNode)
    (off size : Nat) :
    (∃ fuel, fatNodeRead faults fuel fat disk node off size ≠ none) ↔
      ReadEnds faults fat disk node off size := by
  unfold fatNodeRead ReadEnds
  by_cases behind : node.size.toNat ≤ off
  · refine iff_of_true ⟨0, ?_⟩ fun inside => absurd inside (Nat.not_lt.mpr behind)
    rw [if_pos behind]
    exact Option.some_ne_none _
  · simp only [if_neg behind]
    by_cases empty : node.ownerGid.toNat % 2 ^ 16 < 2
    · refine iff_of_true ⟨0, ?_⟩ fun _ some => absurd empty (Nat.not_lt.mpr some)
      rw [if_pos empty]
      exact Option.some_ne_none _
    · simp only [if_neg empty, if_neg (Nat.ne_of_gt divides)]
      cases followed : fatFollow faults fat disk (off / (fat.sectorsPerCluster * 512))
          (node.ownerGid.toNat % 2 ^ 16) with
      | none =>
          refine iff_of_true ⟨0, Option.some_ne_none _⟩ ?_
          intro _ _ cluster none
          cases none
      | some cluster =>
          dsimp only
          rw [readChain_returns_iff]
          constructor
          · intro returns _ _ other same
            cases same
            exact returns
          · exact fun ends => ends (Nat.lt_of_not_le behind) (Nat.le_of_not_lt empty) cluster rfl

/-! ## freeing -/

def Cleared (disk disk' : Disk) : Prop :=
  disk'.present = disk.present ∧ disk'.total = disk.total ∧
    ∀ half, (disk'.bytes (2 * half) = disk.bytes (2 * half) ∧
        disk'.bytes (2 * half + 1) = disk.bytes (2 * half + 1)) ∨
      word disk'.bytes (2 * half) = 0

theorem Cleared.refl (disk : Disk) : Cleared disk disk :=
  ⟨rfl, rfl, fun _ => Or.inl ⟨rfl, rfl⟩⟩

theorem Cleared.trans {disk disk' disk'' : Disk} (first : Cleared disk disk')
    (second : Cleared disk' disk'') : Cleared disk disk'' := by
  refine ⟨second.1.trans first.1, second.2.1.trans first.2.1, ?_⟩
  intro half
  rcases second.2.2 half with kept | zero
  · rcases first.2.2 half with before | zero
    · exact Or.inl ⟨kept.1.trans before.1, kept.2.trans before.2⟩
    · right
      rw [word, kept.1, kept.2]
      exact zero
  · exact Or.inr zero

theorem Cleared.word_eq {disk disk' : Disk} (cleared : Cleared disk disk') (half : Nat) :
    word disk'.bytes (2 * half) = word disk.bytes (2 * half) ∨
      word disk'.bytes (2 * half) = 0 := by
  rcases cleared.2.2 half with kept | zero
  · left
    rw [word, word, kept.1, kept.2]
  · exact Or.inr zero

theorem setWord_zero (disk : Disk) (half : Nat) :
    Cleared disk (setWord disk (2 * half) 0) ∧
      word (setWord disk (2 * half) 0).bytes (2 * half) = 0 := by
  have low : (setWord disk (2 * half) 0).bytes (2 * half) = 0 :=
    overwrite_inside disk.bytes (2 * half) (le16 0) 0 (by decide)
  have high : (setWord disk (2 * half) 0).bytes (2 * half + 1) = 0 :=
    overwrite_inside disk.bytes (2 * half) (le16 0) 1 (by decide)
  have zero : word (setWord disk (2 * half) 0).bytes (2 * half) = 0 := by
    rw [word, low, high]
    rfl
  refine ⟨⟨rfl, rfl, ?_⟩, zero⟩
  intro other
  have two : (le16 0).length = 2 := rfl
  by_cases same : other = half
  · subst same
    exact Or.inr zero
  · left
    constructor
    · apply overwrite_outside
      omega
    · apply overwrite_outside
      omega

theorem entryAddress_even (fat : FatVolume) (cluster copy : Nat) :
    ∃ half, entryAddress fat cluster copy = 2 * half := by
  refine ⟨address fat (entryLba fat cluster copy) * 256 + cluster % 256, ?_⟩
  rw [entryAddress]
  omega

theorem setCopies_cleared (fat : FatVolume) (cluster left copy : Nat) (disk : Disk) :
    Cleared disk (fatSetCopies Faults.none fat cluster 0 left copy disk).2 := by
  induction left generalizing copy disk with
  | zero => exact Cleared.refl disk
  | succ left ih =>
      by_cases reaches : Reaches fat disk (entryLba fat cluster copy)
      · rw [setCopies_reached reaches]
        rcases entryAddress_even fat cluster copy with ⟨half, same⟩
        rw [same]
        exact (setWord_zero disk half).1.trans (ih _ _)
      · rw [setCopies_beyond reaches]
        exact Cleared.refl disk

/-- With a copy of the table, the entry that is freed becomes zero. -/
theorem setEntry_zero (copies : 0 < fat.fatCount) {cluster : Nat}
    (reaches : Reaches fat disk (entryLba fat cluster 0)) :
    fatGetEntry Faults.none fat (fatSetEntry Faults.none fat cluster 0 disk).2 cluster = 0 := by
  rcases Nat.exists_eq_add_of_lt copies with ⟨more, count⟩
  have rounds : fat.fatCount = more + 1 := by omega
  have cleared := setCopies_cleared fat cluster fat.fatCount 0 disk
  have reaches' : Reaches fat (fatSetEntry Faults.none fat cluster 0 disk).2
      (entryLba fat cluster 0) := by
    unfold fatSetEntry
    exact ⟨cleared.1.trans reaches.1, by rw [cleared.2.1]; exact reaches.2⟩
  rcases entryAddress_even fat cluster 0 with ⟨half, same⟩
  rw [getEntry_reached reaches', same, fatSetEntry, rounds, setCopies_reached reaches, same]
  have zero := (setWord_zero disk half).2
  rcases (setCopies_cleared fat cluster more (0 + 1)
    (setWord disk (2 * half) 0)).word_eq half with kept | cleared
  · rw [kept, zero]
  · exact cleared

theorem Cleared.getEntry {disk' : Disk} (cleared : Cleared disk disk') (cluster : Nat)
    (filled : fatGetEntry Faults.none fat disk' cluster ≠ 0) :
    fatGetEntry Faults.none fat disk cluster ≠ 0 := by
  by_cases reaches : Reaches fat disk (entryLba fat cluster 0)
  · have reaches' : Reaches fat disk' (entryLba fat cluster 0) :=
      ⟨cleared.1.trans reaches.1, by rw [cleared.2.1]; exact reaches.2⟩
    rw [getEntry_reached reaches'] at filled
    rw [getEntry_reached reaches]
    rcases entryAddress_even fat cluster 0 with ⟨half, same⟩
    rw [same] at filled ⊢
    rcases cleared.word_eq half with kept | zero
    · rw [← kept]
      exact filled
    · exact absurd zero filled
  · rw [getEntry_beyond reaches]
    decide

def filledEntries (fat : FatVolume) (disk : Disk) : Finset Nat :=
  (Finset.range 0xFFF8).filter fun cluster => fatGetEntry Faults.none fat disk cluster ≠ 0

theorem free_end {cluster : Nat} (ends : cluster < 2 ∨ 0xFFF8 ≤ cluster) (fuel : Nat) :
    fatFreeClusterChain faults fat (fuel + 1) cluster disk = some disk := by
  rw [fatFreeClusterChain, if_pos ends]

theorem free_step {cluster : Nat} (inside : ¬(cluster < 2 ∨ 0xFFF8 ≤ cluster)) (fuel : Nat) :
    fatFreeClusterChain faults fat (fuel + 1) cluster disk =
      fatFreeClusterChain faults fat fuel (fatGetEntry faults fat disk cluster)
        (fatSetEntry faults fat cluster 0 disk).2 := by
  rw [fatFreeClusterChain, if_neg inside]

theorem free_clears (copies : 0 < fat.fatCount) {cluster : Nat} (small : cluster < 0xFFF8)
    (goesOn : ¬(fatGetEntry Faults.none fat disk cluster < 2 ∨
      0xFFF8 ≤ fatGetEntry Faults.none fat disk cluster)) :
    (filledEntries fat (fatSetEntry Faults.none fat cluster 0 disk).2).card <
      (filledEntries fat disk).card := by
  have reaches : Reaches fat disk (entryLba fat cluster 0) := by
    by_contra beyond
    rw [getEntry_beyond beyond] at goesOn
    exact goesOn (Or.inr (by decide))
  have cleared : Cleared disk (fatSetEntry Faults.none fat cluster 0 disk).2 :=
    setCopies_cleared fat cluster fat.fatCount 0 disk
  apply Finset.card_lt_card
  rw [Finset.ssubset_iff_of_subset]
  · refine ⟨cluster, ?_, ?_⟩
    · refine Finset.mem_filter.mpr ⟨Finset.mem_range.mpr small, ?_⟩
      intro zero
      rw [zero] at goesOn
      exact goesOn (Or.inl (by decide))
    · intro member
      exact (Finset.mem_filter.mp member).2 (setEntry_zero copies reaches)
  · intro other member
    have filled := Finset.mem_filter.mp member
    exact Finset.mem_filter.mpr ⟨filled.1, cleared.getEntry other filled.2⟩

/-- Freeing a chain returns on a volume with a copy of its table. -/
theorem free_returns (copies : 0 < fat.fatCount) (bound cluster : Nat) (disk : Disk)
    (few : (filledEntries fat disk).card ≤ bound) :
    fatFreeClusterChain Faults.none fat (bound + 2) cluster disk ≠ none := by
  have step (fuel cluster : Nat) (disk : Disk) (later : ∀ next disk',
      (filledEntries fat disk').card < (filledEntries fat disk).card →
        fatFreeClusterChain Faults.none fat (fuel + 1) next disk' ≠ none) :
      fatFreeClusterChain Faults.none fat (fuel + 2) cluster disk ≠ none := by
    by_cases ends : cluster < 2 ∨ 0xFFF8 ≤ cluster
    · rw [free_end ends]
      exact Option.some_ne_none _
    · rw [free_step ends]
      by_cases last : fatGetEntry Faults.none fat disk cluster < 2 ∨
          0xFFF8 ≤ fatGetEntry Faults.none fat disk cluster
      · rw [free_end last]
        exact Option.some_ne_none _
      · exact later _ _ (free_clears copies (by omega) last)
  induction bound generalizing cluster disk with
  | zero => exact step 0 cluster disk fun _ _ fewer => absurd fewer (by omega)
  | succ bound ih =>
      exact step _ cluster disk fun next disk' fewer => ih next disk' (by omega)

theorem free_nothing (copies : fat.fatCount = 0) (fuel cluster : Nat) :
    fatFreeClusterChain faults fat fuel cluster disk = none ↔
      fatChain faults fat disk fuel cluster = none := by
  induction fuel generalizing cluster with
  | zero => exact iff_of_true rfl rfl
  | succ fuel ih =>
      have same : (fatSetEntry faults fat cluster 0 disk).2 = disk := by
        rw [fatSetEntry, copies]
        rfl
      rw [fatChain]
      by_cases ends : cluster < 2 ∨ 0xFFF8 ≤ cluster
      · rw [free_end ends, if_pos ends]
        exact iff_of_false (Option.some_ne_none _) (Option.some_ne_none _)
      · rw [free_step ends, if_neg ends, same, Option.map_eq_none_iff]
        exact ih _

theorem free_returns_iff (cluster : Nat) :
    (∃ fuel, fatFreeClusterChain Faults.none fat fuel cluster disk ≠ none) ↔
      0 < fat.fatCount ∨ ChainEnds Faults.none fat disk cluster := by
  rcases Nat.eq_zero_or_pos fat.fatCount with copies | copies
  · rw [← chain_returns_iff]
    constructor
    · rintro ⟨fuel, returned⟩
      exact Or.inr ⟨fuel, fun none => returned ((free_nothing copies fuel cluster).mpr none)⟩
    · rintro (some | ⟨fuel, returned⟩)
      · exact absurd some (Nat.not_lt.mpr (Nat.le_of_eq copies))
      · exact ⟨fuel, fun none => returned ((free_nothing copies fuel cluster).mp none)⟩
  · exact iff_of_true ⟨_, free_returns copies _ cluster disk (Nat.le_refl _)⟩ (Or.inl copies)

/-- Which traversals of a volume return, whatever its table and its directories hold: the listing of
a directory when the chain of the subdirectory that it reads ends, the read of a file when its chain
ends or holds enough bytes, and the freeing of a chain when the volume has a copy of its table or
the chain ends. -/
theorem traversals_return_iff {platform : Platform} (granted : ∀ site, platform.alloc site = true)
    (storage : Storage) (divides : 0 < storage.fat.sectorsPerCluster) :
    (∀ id index, (∃ fuel, fatReaddir platform fuel storage id index ≠ none) ↔
      ∀ child, (storage.fs.childrenOf id)[index]? = some child →
        ∃ node, storage.fs.node child = some node ∧ (Unread node →
          ChainEnds platform.faults storage.fat storage.disk (node.ownerGid.toNat % 2 ^ 16))) ∧
    (∀ node off size,
      (∃ fuel, fatNodeRead platform.faults fuel storage.fat storage.disk node off size ≠ none) ↔
        ReadEnds platform.faults storage.fat storage.disk node off size) ∧
    ∀ cluster,
      (∃ fuel, fatFreeClusterChain Faults.none storage.fat fuel cluster storage.disk ≠ none) ↔
        0 < storage.fat.fatCount ∨ ChainEnds Faults.none storage.fat storage.disk cluster :=
  ⟨readdir_returns_iff granted storage, nodeRead_returns_iff divides, free_returns_iff⟩

/-! ## a cyclic chain -/

/-- A volume with one sector for its table at sector one, one copy, and its data at sector three. -/
def smallVolume : FatVolume := ⟨0, 1, 1, 16, 1, 1, 2, 3, 1, 8, true⟩

def cyclicDisk : Disk := ⟨true, 16, fun position => if position = 516 then 2 else 0⟩

/-- The root directory of the volume with an unread subdirectory in its second cluster. -/
def cyclicStorage : Storage where
  fs := {
    node := fun id =>
      if id = 0 then some { fatDirectoryNode 0 with name := literal "fat", children := [1] }
      else if id = 1 then some { fatDirectoryNode 2 with name := literal "d", parent := some 0 }
      else none
    root := some 0
    next := 2 }
  store := Blockfs.disabled
  disk := cyclicDisk
  fat := smallVolume
  randState := 0

theorem cyclic_chain (links : Nat) : chainAt Faults.none smallVolume cyclicDisk links 2 = 2 := by
  have link : fatGetEntry Faults.none smallVolume cyclicDisk 2 = 2 := by decide +kernel
  induction links with
  | zero => rfl
  | succ links ih => rw [chainAt, link, ih]

theorem cyclic_endless : ¬ChainEnds Faults.none smallVolume cyclicDisk 2 := by
  rintro ⟨links, ends⟩
  rw [cyclic_chain] at ends
  exact absurd ends (by decide)

/-- Listing the directory above a subdirectory with a cyclic chain does not return. -/
theorem cyclicListing_endless :
    ¬∃ fuel, fatReaddir Platform.ideal fuel cyclicStorage 0 0 ≠ none := by
  rw [readdir_returns_iff fun _ => rfl]
  intro ends
  rcases ends 1 rfl with ⟨node, held, unread⟩
  cases held
  exact cyclic_endless (unread ⟨rfl, rfl, by decide⟩)

theorem traversals_return_iff_cyclic :
    ∃ fuel, fatFreeClusterChain Faults.none cyclicStorage.fat fuel 2 cyclicStorage.disk ≠ none := by
  have granted : ∀ site, Platform.ideal.alloc site = true := fun _ => rfl
  exact ((traversals_return_iff granted cyclicStorage (by decide)).2.2 2).mpr (Or.inl (by decide))

end Fat

end Trinux
