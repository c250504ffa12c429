import MandelbrotOS.FatTermination

/-! `fat_truncate` of `fs/fat32.c`. It compares sizes in units of the sectors of a
cluster and not of its bytes, marks the end of a shorter chain where it is already,
and looks for the cluster of a longer one on something that is no device. So it
does what it is for where the chain needs no change and no such cluster is looked
for. -/
namespace MandelbrotOS.FatTruncate
open ByteMemory Fat FatAlloc FatChains FatFiles FatLookup FatTable FatTermination Runs Walks

/-- The cluster the loop over the chain ends at. -/
def lastCluster (boot : Boot) (disk : Memory) : Nat → Nat → Option Nat
  | 0, _ => none
  | turns + 1, cluster =>
    let next := fatGetNextCluster boot disk cluster
    if next = 0 ∨ next = 0xffffff8 then some cluster else lastCluster boot disk turns next

/-- `fat_truncate`. For a longer file `fat_find_free_cluster` is called with the
volume's private data in place of the device, which is undefined. -/
def fatTruncate (v : Volume) (file : Handle) (size : Nat) : Option Volume := do
  let entry := file.dir
  let disk ← if entrySize entry / v.boot.clusterSize > size / v.boot.clusterSize then do
      let cluster ← lastCluster v.boot v.disk (2 ^ 64) file.cluster
      some (fatChangeFatValue v.boot v.disk cluster 0xffffff8)
    else if entrySize entry / v.boot.clusterSize < size / v.boot.clusterSize then none
    else some v.disk
  fatSetDirEntry { v with disk := disk } file.parentCluster file.index (setField entry 28 4 size)

/-- What truncating is for: the size is stored, the chain is as long as the size
needs, the bytes that both sizes have are kept, clusters that are cut off are free
and no other chain changes. -/
structure Truncated (v : Volume) (file : Handle) (clusters listing : List Nat) (size : Nat) (v' : Volume) :
    Prop where
  stored : entrySize (fun k => v'.disk (chainPlace v.boot listing (file.index * 32 + k))) = size
  chain : ∃ clusters', chain v' file.cluster = some clusters' ∧ clusters'.length = clustersFor v.boot size ∧
    (∀ k < min (entrySize file.dir) size,
      v'.disk (chainPlace v.boot clusters' k) = v.disk (chainPlace v.boot clusters k)) ∧
    ∀ x ∈ clusters, x ∉ clusters' → fatGetNextCluster v.boot v'.disk x = 0
  others : ∀ head other, FatChains.chain v head = some other → OnTable v.boot other →
    (∀ x ∈ other, x ∉ clusters) → FatChains.chain v' head = some other

/-- The links lead to the mark `0xffffff8` and not to a free entry before that. -/
def Marked (v : Volume) (cluster : Nat) : Prop :=
  ∃ n, (fatGetNextCluster v.boot v.disk)^[n + 1] cluster = 0xffffff8 ∧
    ∀ m < n, (fatGetNextCluster v.boot v.disk)^[m + 1] cluster ≠ 0

/-- The chain that the size needs is the one there is, the size has 32 bits, and
no cluster is looked for. -/
structure Suits (v : Volume) (file : Handle) (size : Nat) : Prop where
  clusters : clustersFor v.boot size = clustersFor v.boot (entrySize file.dir)
  word : size < 2 ^ 32
  noLonger : size / v.boot.clusterSize ≤ entrySize file.dir / v.boot.clusterSize

/-! ### The loop -/

theorem lastCluster_some (found : lastCluster boot disk turns cluster = some last) :
    goesOn (fatGetNextCluster boot disk last) = false ∧
      ∃ n, last = (fatGetNextCluster boot disk)^[n] cluster := by
  induction turns generalizing cluster with
  | zero => cases found
  | succ turns ih =>
    rw [lastCluster] at found
    split at found
    · rename_i stop
      cases found
      refine ⟨?_, 0, rfl⟩
      rw [← Bool.not_eq_true, goesOn_iff]
      exact not_not.mpr stop
    · obtain ⟨stop, n, reached⟩ := ih found
      exact ⟨stop, n + 1, reached⟩

theorem lastCluster_walk {path : List Nat}
    (ran : walk (fatGetNextCluster boot disk) goesOn steps (fatGetNextCluster boot disk cluster) = some path)
    (enough : path.length < turns) :
    lastCluster boot disk turns cluster = some ((fatGetNextCluster boot disk)^[path.length] cluster) := by
  induction path generalizing steps cluster turns with
  | nil =>
    obtain ⟨turns, rfl⟩ := Nat.exists_eq_succ_of_ne_zero (Nat.ne_of_gt enough)
    have stop := walk_nil ran
    rw [← Bool.not_eq_true, goesOn_iff, not_not] at stop
    rw [lastCluster, if_pos stop]
    rfl
  | cons first rest ih =>
    obtain ⟨turns, rfl⟩ := Nat.exists_eq_succ_of_ne_zero (Nat.ne_of_gt (Nat.lt_of_le_of_lt (Nat.zero_le _) enough))
    obtain ⟨rfl, alive, _, _, onward⟩ := walk_cons ran
    rw [lastCluster, if_neg (goesOn_iff.mp alive)]
    exact ih onward (Nat.lt_of_succ_lt_succ enough)

theorem lastCluster_marked (marked : Marked v cluster) :
    ∃ last, lastCluster v.boot v.disk (2 ^ 64) cluster = some last ∧
      fatGetNextCluster v.boot v.disk last = 0xffffff8 := by
  obtain ⟨n, mark, nonzero⟩ := marked
  have stop : goesOn ((fatGetNextCluster v.boot v.disk)^[n + 1] cluster) = false := by
    rw [mark]
    rfl
  obtain ⟨path, ran, few⟩ := walk_below (fatGetNextCluster_lt v.boot v.disk) stop
  refine ⟨_, lastCluster_walk ran (Nat.lt_of_le_of_lt few (by decide)), ?_⟩
  have ends := walk_out ran
  rw [← Function.iterate_succ_apply, ← Bool.not_eq_true, goesOn_iff, not_not] at ends
  grind [Function.iterate_succ_apply', Nat.lt_or_eq_of_le, walk_length]

/-! ### What the call does -/

section
variable {v v' : Volume} {file : Handle} {clusters listing : List Nat} {size : Nat}

theorem entrySize_setField (entry : DirEntry) (size : Nat) : entrySize (setField entry 28 4 size) = size % 2 ^ 32 := by
  have byte (k : Nat) (low : 28 ≤ k) (high : k < 32) :
      setField entry 28 4 size k = BitVec.ofNat 8 (size / 256 ^ (k - 28)) := if_pos ⟨low, high⟩
  rw [entrySize, byte 31 (by decide) (by decide), byte 30 (by decide) (by decide), byte 29 (by decide) (by decide),
    byte 28 (by decide) (by decide)]
  simp only [toNat_append_byte, BitVec.toNat_ofNat]
  omega

theorem fatTruncate_eq (noLonger : size / v.boot.clusterSize ≤ entrySize file.dir / v.boot.clusterSize)
    (marked : size / v.boot.clusterSize < entrySize file.dir / v.boot.clusterSize → Marked v file.cluster) :
    fatTruncate v file size =
      fatSetDirEntry v file.parentCluster file.index (setField file.dir 28 4 size) := by
  rw [fatTruncate]
  dsimp only
  by_cases shorter : size / v.boot.clusterSize < entrySize file.dir / v.boot.clusterSize
  · obtain ⟨last, found, mark⟩ := lastCluster_marked (marked shorter)
    have same := fatChangeFatValue_same v.boot v.disk last
    simp_all
  · simp_all [if_neg]

theorem chain_no_shorter (placed : Placed v file clusters listing)
    (found : lastCluster v.boot v.disk turns file.cluster = some last)
    (set : fatSetDirEntry { v with disk := fatChangeFatValue v.boot v.disk last 0xffffff8 } directory index entry =
      some v') (walked : chain v' file.cluster = some clusters') : clusters.length ≤ clusters'.length := by
  have stop := (lastCluster_some found).1
  obtain ⟨more, rfl⟩ : ∃ more, clusters' = clusters ++ more := by
    refine walk_extends placed.data walked fun x member linked => ?_
    have small := inChain_iff.mp (walk_live placed.data x member)
    have kept := link_kept (v := { v with disk := fatChangeFatValue v.boot v.disk last 0xffffff8 }) placed.tables
      (fatSetDirEntry_boot set) (fun adr before => fatSetDirEntry_tables before set) (placed.dataOn x member) (by omega)
    refine kept.trans (fatGetNextCluster_change_other _ _ _ fun same => ?_)
    -- the loop ends where the link is none, and this one leads on
    rw [fatGetNextCluster_alias v.boot v.disk same] at linked
    rw [← Bool.not_eq_true, goesOn_iff, not_not] at stop
    have live := inChain_iff.mp linked
    omega
  rw [List.length_append]
  exact Nat.le_add_right _ _

theorem entrySize_stored (disk : Memory) (place : Nat → Nat)
    (entry : ∀ k < 32, disk (place k) = setField file.dir 28 4 size k) :
    entrySize (fun k => disk (place k)) = size % 2 ^ 32 := by
  grind [entrySize_setField, entrySize]

theorem truncated_of_suits (placed : Placed v file clusters listing)
    (measured : clusters.length = clustersFor v.boot (entrySize file.dir)) (suits : Suits v file size)
    (marked : size / v.boot.clusterSize < entrySize file.dir / v.boot.clusterSize → Marked v file.cluster) :
    ∃ v', fatTruncate v file size = some v' ∧ Truncated v file clusters listing size v' := by
  obtain ⟨v', set, boot, placed', kept, entry⟩ := placed.setEntry (setField file.dir 28 4 size)
  refine ⟨v', (fatTruncate_eq suits.noLonger marked).trans set, ?_, ⟨clusters, placed'.data, ?_, ?_, ?_⟩, ?_⟩
  · rw [entrySize_stored v'.disk _ entry, Nat.mod_eq_of_lt suits.word]
  · rw [measured, suits.clusters]
  · intro k few
    have room := placed.room
    exact kept k (by omega)
  · exact fun x member outside => absurd member outside
  · intro head other walked inside _
    exact chain_kept placed.tables walked inside boot fun adr before => fatSetDirEntry_tables before set

theorem suits_of_truncated (placed : Placed v file clusters listing)
    (measured : clusters.length = clustersFor v.boot (entrySize file.dir))
    (ran : fatTruncate v file size = some v') (truncated : Truncated v file clusters listing size v') :
    Suits v file size ∧
      (size / v.boot.clusterSize < entrySize file.dir / v.boot.clusterSize → Stops v file.cluster) := by
  obtain ⟨clusters', walked, length, -⟩ := truncated.chain
  by_cases shorter : size / v.boot.clusterSize < entrySize file.dir / v.boot.clusterSize
  · rw [fatTruncate] at ran
    simp only [if_pos shorter, bind_returns] at ran
    obtain ⟨last, found, disk, same, set⟩ := ran
    cases Option.some.inj same
    have longer := chain_no_shorter placed found set walked
    rw [length, measured] at longer
    have less : size < entrySize file.dir := Nat.lt_of_not_le fun more =>
      Nat.not_lt.mpr (Nat.div_le_div_right more) shorter
    have fewer : clustersFor v.boot size ≤ clustersFor v.boot (entrySize file.dir) :=
      Nat.div_le_div_right (by omega)
    refine ⟨⟨Nat.le_antisymm fewer longer, Nat.lt_trans less (entrySize_lt file.dir), Nat.le_of_lt shorter⟩,
      fun _ => ?_⟩
    obtain ⟨stop, n, reached⟩ := lastCluster_some found
    refine ⟨n, ?_⟩
    grind [Function.iterate_succ_apply']
  · refine ⟨?_, fun less => absurd less shorter⟩
    by_cases longer : entrySize file.dir / v.boot.clusterSize < size / v.boot.clusterSize
    · simp_all [fatTruncate]
    · have noLonger := Nat.not_lt.mp longer
      rw [fatTruncate_eq noLonger fun less => absurd less shorter] at ran
      obtain ⟨w, set, -, placed', -, entry⟩ := placed.setEntry (setField file.dir 28 4 size)
      cases set.symm.trans ran
      cases placed'.data.symm.trans walked
      have stored := truncated.stored
      rw [entrySize_stored v'.disk _ entry] at stored
      refine ⟨length.symm.trans measured, ?_, noLonger⟩
      omega

/-- **Truncating does what it is for exactly where the size needs the chain there
is, has 32 bits and is not more sectors of a cluster than the old one**, on a
chain that ends with the mark `0xffffff8` if it is less of them. With other marks
the size must be such a one too, and the loop must come to an end. -/
theorem truncated_iff (placed : Placed v file clusters listing)
    (measured : clusters.length = clustersFor v.boot (entrySize file.dir)) (size : Nat) :
    ((size / v.boot.clusterSize < entrySize file.dir / v.boot.clusterSize → Marked v file.cluster) →
      ((∃ v', fatTruncate v file size = some v' ∧ Truncated v file clusters listing size v') ↔
        Suits v file size)) ∧
    ((∃ v', fatTruncate v file size = some v' ∧ Truncated v file clusters listing size v') →
      Suits v file size ∧
        (size / v.boot.clusterSize < entrySize file.dir / v.boot.clusterSize → Stops v file.cluster)) := by
  refine ⟨fun marked => ⟨?_, fun suits => truncated_of_suits placed measured suits marked⟩, ?_⟩
  · rintro ⟨v', ran, truncated⟩
    exact (suits_of_truncated placed measured ran truncated).1
  · rintro ⟨v', ran, truncated⟩
    exact suits_of_truncated placed measured ran truncated

end

/-- Cluster 2 is the root directory, with a file of 514 bytes in clusters 3 and 4. -/
def twoClusterVolume : Volume := ⟨⟨1, 1, 1, 1, 2⟩, fun adr =>
  if adr = 520 ∨ adr = 528 then 0xf8
  else if adr = 521 ∨ adr = 522 ∨ adr = 529 ∨ adr = 530 then 0xff
  else if adr = 523 ∨ adr = 531 then 0x0f
  else if adr = 524 then 4
  else if adr = 1024 then 0x41 else if 1024 < adr ∧ adr < 1035 then 0x20
  else if adr = 1050 then 3 else if adr = 1052 ∨ adr = 1053 then 2 else 0⟩

/-- The file, opened. -/
def twoClusterFile : Handle := ⟨fun k => twoClusterVolume.disk (1024 + k), 0, 3, 2⟩

theorem twoClusterFile_placed : Placed twoClusterVolume twoClusterFile [3, 4] [2] where
  tables := Nat.le_refl 1
  plain := by decide
  head := by decide
  data := by decide +kernel
  dataOn := by simp [OnTable, twoClusterVolume]
  room := by decide
  directory := by decide +kernel
  directoryOn := by simp [OnTable, twoClusterVolume]
  listed := by decide
  apart := by simp

theorem last_byte_truncated : entrySize twoClusterFile.dir = 514 ∧ ∃ v',
    fatTruncate twoClusterVolume twoClusterFile 513 = some v' ∧
      Truncated twoClusterVolume twoClusterFile [3, 4] [2] 513 v' := by
  have marked : Marked twoClusterVolume 3 := ⟨1, by decide +kernel, by decide +kernel⟩
  refine ⟨by decide, ((truncated_iff twoClusterFile_placed (by decide) 513).1 fun _ => marked).mpr ?_⟩
  exact ⟨by decide, by decide, by decide⟩

/-- Truncated to one byte the file keeps both clusters, and it can not be made
one byte longer. -/
theorem clusters_not_cut_off : Placed twoClusterVolume twoClusterFile [3, 4] [2] ∧
    [3, 4].length = clustersFor twoClusterVolume.boot (entrySize twoClusterFile.dir) ∧
    (∃ v', fatTruncate twoClusterVolume twoClusterFile 1 = some v' ∧ chain v' 3 = some [3, 4] ∧
      ¬ Truncated twoClusterVolume twoClusterFile [3, 4] [2] 1 v') ∧
    fatTruncate twoClusterVolume twoClusterFile 515 = none := by
  have ran : (fatTruncate twoClusterVolume twoClusterFile 1).map (fun v' => chain v' 3) = some (some [3, 4]) := by
    decide +kernel
  obtain ⟨v', truncated, walked⟩ := Option.map_eq_some_iff.mp ran
  refine ⟨twoClusterFile_placed, by decide, ⟨v', truncated, walked, fun done => ?_⟩, by decide +kernel⟩
  obtain ⟨clusters', walked', length, -⟩ := done.chain
  cases walked.symm.trans walked'
  exact absurd length (by decide)

end MandelbrotOS.FatTruncate
