import MandelbrotOS.FatChains
import MandelbrotOS.FatLookup

/-! Reading and writing the files of a FAT volume: `fat_read` and `fat_write` of
`fs/fat32.c`. Both also write the file's entry back to its directory, with new
times; the entry is the one the handle was opened with. -/
namespace MandelbrotOS.FatFiles
open Blocks ByteMemory Fat FatChains FatLookup Runs Walks

/-- The fields of `datetime_t` the driver uses. -/
structure Datetime where
  seconds : Nat
  minutes : Nat
  hours : Nat
  day : Nat
  month : Nat
  year : Nat

/-! ### Directory entries -/

/-- Store a number in some bytes of an entry. -/
def setField (entry : DirEntry) (place count value : Nat) : DirEntry :=
  copy entry place count fun k => BitVec.ofNat 8 (value / 256 ^ k)

/-- A day, a month and a year in their 16 bits. The year is in `int` before it
is cut to its seven bits. -/
def dateBits (day month year : Nat) : Nat :=
  day % 32 + month % 16 * 32 + (year + 2 ^ 16 - 1980) % 128 * 512

def timeBits (seconds minutes hours : Nat) : Nat := seconds % 32 + minutes % 64 * 32 + hours % 32 * 2048

def setAccessed (entry : DirEntry) (day month year : Nat) : DirEntry :=
  setField entry 18 2 (dateBits day month year)

def setModified (entry : DirEntry) (now : Datetime) : DirEntry :=
  setField (setField entry 22 2 (timeBits (now.seconds / 2) now.minutes now.hours)) 24 2
    (dateBits now.day now.month now.year)

/-- `size`. -/
def entrySize (entry : DirEntry) : Nat := (entry 31 ++ entry 30 ++ entry 29 ++ entry 28).toNat

/-! ### The code -/

/-- `fat_find_free_cluster`: the first entry of the table that is zero in all its
bits. -/
def fatFindFreeCluster (v : Volume) : Nat :=
  match (List.range (v.boot.tableSize * 128)).find? fun i =>
      halfWord v.disk (v.boot.reservedSectors * 512 + i * 4) == 0 with
  | some i => i % 2 ^ 28
  | none => notFound

/-- `fat_read`. The file's chain is read to a block of the file's size; what is
read beyond that is left out. -/
def fatRead (v : Volume) (now : Datetime) (file : Handle) (offset count : Nat) :
    Option ((Nat × List (BitVec 8)) × Volume) := do
  let entry := setAccessed file.dir now.day now.month ((now.year + 1900) % 2 ^ 16)
  let v ← fatSetDirEntry v file.parentCluster file.index entry
  if entry.directory then some ((0, []), v)
  else
    let count := if entrySize entry < (offset + count) % 2 ^ 64 then
        (entrySize entry + 2 ^ 64 - offset) % 2 ^ 64
      else count
    if count = 0 then some ((0, []), v)
    else
      let fileBuffer ← fatReadClusterChain v (fun _ => 0) entry.clusterNo
      if offset + count ≤ entrySize entry then
        some ((count, (List.range count).map fun k => fileBuffer (offset + k)), v)
      else none

/-- The loop of `fat_write` that makes a chain longer. The last cluster is looked
for from `start` on; the length less one is a `size_t`. -/
def growChain (writingCluster start needed : Nat) : Nat → Volume → Option Volume
  | 0, _ => none
  | turns + 1, v =>
    match fatChainClusterLength v writingCluster with
    | none => none
    | some length =>
      if needed > length * v.boot.clusterSize * 512 then
        let last := Nat.repeat (fatGetNextCluster v.boot v.disk) ((length + 2 ^ 64 - 1) % 2 ^ 64) start
        let free := fatFindFreeCluster v
        let disk := fatChangeFatValue v.boot v.disk last free
        growChain writingCluster start needed turns
          { v with disk := fatChangeFatValue v.boot disk free 0xffffff8 }
      else some v

/-- `fat_write`: what it returns, the length of the file and the volume. -/
def fatWrite (v : Volume) (now : Datetime) (file : Handle) (length : Nat) (buf : List (BitVec 8))
    (offset count : Nat) : Option (Nat × Nat × Volume) :=
  let entry := setAccessed file.dir now.day now.month now.year
  if count = 0 then some (0, length, v)
  else if entry.directory then some (0, length, v)
  else do
    let v ← growChain file.cluster entry.clusterNo ((count + offset) % 2 ^ 64) (2 ^ 64) v
    let clusters ← fatChainClusterLength v file.cluster
    let fileBuffer ← fatReadClusterChain v (fun _ => 0) file.cluster
    if offset + count ≤ clusters * v.boot.clusterSize * 512 ∧ count ≤ buf.length then
      let v ← fatWriteClusterChain v (copy fileBuffer offset count fun k => buf.getD k 0) file.cluster
      let entry := setModified entry now
      let total := (offset + count) % 2 ^ 64
      let grown := total > entrySize entry
      let entry := if grown then setField entry 28 4 total else entry
      let v ← fatSetDirEntry v file.parentCluster file.index entry
      some (count, if grown then total else length, v)
    else none

/-! ### Fields that stay -/

theorem setField_other (entry : DirEntry) (value : Nat) (apart : k < start ∨ start + count ≤ k) :
    setField entry start count value k = entry k := copy_apart apart

/-- New times leave the flags, the cluster and the size alone. -/
structure SameFields (entry other : DirEntry) : Prop where
  directory : other.directory = entry.directory
  cluster : other.clusterNo = entry.clusterNo
  size : entrySize other = entrySize entry

theorem setAccessed_fields (entry : DirEntry) (day month year : Nat) :
    SameFields entry (setAccessed entry day month year) := by
  constructor <;>
    simp [setAccessed, setField, copy, DirEntry.directory, DirEntry.clusterNo, entrySize]

theorem setModified_fields (entry : DirEntry) (now : Datetime) :
    SameFields entry (setModified entry now) := by
  constructor <;>
    simp [setModified, setField, copy, DirEntry.directory, DirEntry.clusterNo, entrySize]

theorem fatWrite_count (plain : file.dir.directory = false)
    (ran : fatWrite v now file length buf offset count = some (written, length', v')) :
    written = count := by
  have kept := (setAccessed_fields file.dir now.day now.month now.year).directory
  unfold fatWrite at ran
  dsimp only at ran
  split at ran
  case isTrue empty =>
    cases ran
    exact empty.symm
  case isFalse =>
    rw [kept, plain, if_neg (by decide)] at ran
    grind [bind_returns]

/-! ### A file and its directory -/

/-- An open file on a sound volume: its chain and its directory's are within the
table and have no cluster in common, the chain is long enough for the file, and
the entry is one of the directory's. -/
structure Placed (v : Volume) (file : Handle) (clusters listing : List Nat) : Prop where
  tables : 1 ≤ v.boot.tableCount
  plain : file.dir.directory = false
  head : file.cluster = file.dir.clusterNo
  data : chain v file.cluster = some clusters
  dataOn : OnTable v.boot clusters
  room : entrySize file.dir ≤ clusters.length * clusterBytes v.boot
  directory : chain v (orRoot v.boot file.parentCluster) = some listing
  directoryOn : OnTable v.boot listing
  listed : file.index * 32 + 32 ≤ listing.length * clusterBytes v.boot
  apart : ∀ x ∈ clusters, x ∉ listing

theorem link_kept {v v' : Volume} (tables : 1 ≤ v.boot.tableCount) (boot : v'.boot = v.boot)
    (same : ∀ adr, (∀ data, inChain data = true → adr < clusterAddress v.boot data) →
      v'.disk adr = v.disk adr) (inside : cluster < 128 * v.boot.tableSize) (small : cluster < 2 ^ 28) :
    fatGetNextCluster v'.boot v'.disk cluster = fatGetNextCluster v.boot v.disk cluster := by
  rw [boot]
  refine fatGetNextCluster_congr v.boot fun k few => same _ fun data other => ?_
  have before := entry_before_data tables inside small other
  omega

theorem chain_kept (tables : 1 ≤ v.boot.tableCount) (ran : chain v head = some clusters)
    (inside : OnTable v.boot clusters) (boot : v'.boot = v.boot)
    (same : ∀ adr, (∀ data, inChain data = true → adr < clusterAddress v.boot data) →
      v'.disk adr = v.disk adr) : chain v' head = some clusters := by
  refine walk_congr ran fun x member => link_kept tables boot same (inside x member) ?_
  have small := inChain_iff.mp (walk_live ran x member)
  omega

section
variable (placed : Placed v file clusters listing)
include placed

theorem Placed.kept (boot : v'.boot = v.boot)
    (same : ∀ adr, (∀ data, inChain data = true → adr < clusterAddress v.boot data) →
      v'.disk adr = v.disk adr) : Placed v' file clusters listing := by
  have data := chain_kept placed.tables placed.data placed.dataOn boot same
  have directory := chain_kept placed.tables placed.directory placed.directoryOn boot same
  rw [← boot] at directory
  obtain ⟨tables, plain, head, -, dataOn, room, -, directoryOn, listed, apart⟩ := placed
  rw [← boot] at tables dataOn room directoryOn listed
  exact ⟨tables, plain, head, data, dataOn, room, directory, directoryOn, listed, apart⟩

theorem Placed.outside (inside : k < clusters.length * clusterBytes v.boot) : ∀ start ∈ starts v.boot listing,
      chainPlace v.boot clusters k < start ∨ start + clusterBytes v.boot ≤ chainPlace v.boot clusters k := by
  intro start member
  obtain ⟨y, listed, rfl⟩ := List.mem_map.mp member
  obtain ⟨x, here, low, high⟩ := chainPlace_in_cluster v.boot inside
  have different : x ≠ y := fun same => placed.apart x here (same ▸ listed)
  have disjoint := clusters_apart v.boot (walk_live placed.data x here)
    (walk_live placed.directory y listed) different
  omega

theorem Placed.setEntry (entry : DirEntry) :
    ∃ v', fatSetDirEntry v file.parentCluster file.index entry = some v' ∧ v'.boot = v.boot ∧
      Placed v' file clusters listing ∧
      (∀ k < clusters.length * clusterBytes v.boot,
        v'.disk (chainPlace v.boot clusters k) = v.disk (chainPlace v.boot clusters k)) ∧
      ∀ k < 32, v'.disk (chainPlace v.boot listing (file.index * 32 + k)) = entry k := by
  have ran := fatSetDirEntry_eq placed.tables placed.directory placed.directoryOn placed.listed entry
  obtain ⟨boot, frame⟩ := fatSetDirEntry_frame placed.tables placed.directory placed.directoryOn ran
  refine ⟨_, ran, boot, placed.kept boot fun adr before => fatSetDirEntry_tables before ran,
    fun k inside => frame _ (placed.outside inside), fun k few => ?_⟩
  simp_all [chainPlace_entry, copy]

theorem Placed.writeChain (buffer : Memory) :
    ∃ v', fatWriteClusterChain v buffer file.cluster = some v' ∧ v'.boot = v.boot ∧
      Placed v' file clusters listing ∧ ∀ k < clusters.length * clusterBytes v.boot,
        v'.disk (chainPlace v.boot clusters k) = buffer k := by
  refine ⟨_, fatWriteClusterChain_eq placed.tables placed.data placed.dataOn buffer, rfl,
    placed.kept rfl fun adr before => ?_, fun k inside => ?_⟩
  · apply scatter_outside
    intro start member
    obtain ⟨x, listed, rfl⟩ := List.mem_map.mp member
    exact Or.inl (before x (walk_live placed.data x listed))
  · have disjoint := starts_disjoint v.boot (walk_live placed.data) (walk_nodup placed.data)
    rw [← length_starts v.boot] at inside
    exact (scatter_place (clusterBytes_pos inside) disjoint inside).trans (by rw [Nat.zero_add])

end

theorem growChain_room (walked : chain v cluster = some clusters)
    (room : needed ≤ clusters.length * clusterBytes v.boot) (start turns : Nat) :
    growChain cluster start needed (turns + 1) v = some v := by
  have enough : ¬ needed > clusters.length * v.boot.clusterSize * 512 := by
    simp_all [Nat.mul_assoc, clusterBytes]
  simp only [growChain, fatChainClusterLength_eq, walked, Option.map_some, enough, if_false]

theorem entrySize_lt (entry : DirEntry) : entrySize entry < 2 ^ 32 := BitVec.isLt _

/-- The entry a write puts back: that of the handle with new times, and a new size
where the write ends beyond the old one. -/
def writtenEntry (file : Handle) (now : Datetime) (total : Nat) : DirEntry :=
  let entry := setModified (setAccessed file.dir now.day now.month now.year) now
  if total > entrySize file.dir then setField entry 28 4 total else entry

section
variable (placed : Placed v file clusters listing)
include placed

theorem Placed.fatWrite_room (now : Datetime) (length : Nat)
    (some : 0 < count) (inside : offset + count ≤ clusters.length * clusterBytes v.boot)
    (small : offset + count < 2 ^ 64) (enough : count ≤ buf.length) :
    ∃ v', fatWrite v now file length buf offset count =
        .some (count, if offset + count > entrySize file.dir then offset + count else length, v') ∧
      Placed v' file clusters listing ∧ v'.boot = v.boot ∧
      (∀ k < clusters.length * clusterBytes v.boot, v'.disk (chainPlace v.boot clusters k) =
        if offset ≤ k ∧ k < offset + count then buf.getD (k - offset) 0
        else v.disk (chainPlace v.boot clusters k)) ∧
      ∀ k < 32, v'.disk (chainPlace v.boot listing (file.index * 32 + k)) =
        writtenEntry file now (offset + count) k := by
  have stamped := setAccessed_fields file.dir now.day now.month now.year
  have marked := setModified_fields (setAccessed file.dir now.day now.month now.year) now
  have total : (offset + count) % 2 ^ 64 = offset + count := Nat.mod_eq_of_lt small
  have total' : (count + offset) % 2 ^ 64 = offset + count := by rw [Nat.add_comm count, total]
  have fits : offset + count ≤ clusters.length * v.boot.clusterSize * 512 := by
    simp_all [Nat.mul_assoc, clusterBytes]
  obtain ⟨w, written, boot, sound, bytes⟩ := placed.writeChain (copy
    (gather (clusterBytes v.boot) v.disk (fun _ => 0) 0 (starts v.boot clusters)) offset count
    fun k => buf.getD k 0)
  obtain ⟨v', set, boot', sound', kept, entry⟩ := sound.setEntry (writtenEntry file now (offset + count))
  rw [boot] at kept entry
  refine ⟨v', ?_, sound', boot'.trans boot, fun k within => ?_, entry⟩
  · have still : growChain file.cluster (setAccessed file.dir now.day now.month now.year).clusterNo
        (offset + count) (2 ^ 64) v = .some v :=
      growChain_room placed.data inside _ (2 ^ 64 - 1)
    simp only [FatFiles.fatWrite, Nat.ne_of_gt some, if_false, stamped.directory, placed.plain,
      Bool.false_eq_true, total', total, still, bind_returned, fatChainClusterLength_eq, fatReadClusterChain_eq,
      placed.data, Option.map_some, fits, enough, and_self, if_true, written, marked.size, stamped.size]
    rw [writtenEntry] at set
    rw [set]
    rfl
  · rw [kept _ within, bytes _ within, copy]
    refine if_congr Iff.rfl rfl ?_
    exact gather_place (clusterBytes_pos within) (by rw [length_starts]; exact within) v.disk _

theorem Placed.fatWrite (now : Datetime) (length : Nat)
    (some : 0 < count) (inside : offset + count ≤ entrySize file.dir) (enough : count ≤ buf.length) :
    ∃ v', fatWrite v now file length buf offset count = .some (count, length, v') ∧
      Placed v' file clusters listing ∧ v'.boot = v.boot ∧
      ∀ k < count, v'.disk (chainPlace v.boot clusters (offset + k)) = buf.getD k 0 := by
  have small := entrySize_lt file.dir
  have room := placed.room
  obtain ⟨v', ran, sound, boot, bytes, -⟩ := placed.fatWrite_room now length some (Nat.le_trans inside room)
    (by omega) enough
  grind

theorem Placed.fatRead_clipped (now : Datetime)
    (start : offset ≤ entrySize file.dir) (small : offset + count < 2 ^ 64) :
    ∃ v', fatRead v now file offset count = some
        ((min count (entrySize file.dir - offset), (List.range (min count (entrySize file.dir - offset))).map
          fun k => v.disk (chainPlace v.boot clusters (offset + k))), v') ∧
      Placed v' file clusters listing ∧ v'.boot = v.boot ∧
      (∀ k < clusters.length * clusterBytes v.boot,
        v'.disk (chainPlace v.boot clusters k) = v.disk (chainPlace v.boot clusters k)) ∧
      ∀ k < 32, v'.disk (chainPlace v.boot listing (file.index * 32 + k)) =
        setAccessed file.dir now.day now.month ((now.year + 1900) % 2 ^ 16) k := by
  have stamped := setAccessed_fields file.dir now.day now.month ((now.year + 1900) % 2 ^ 16)
  have bound := entrySize_lt file.dir
  have room := placed.room
  have total : (offset + count) % 2 ^ 64 = offset + count := Nat.mod_eq_of_lt small
  obtain ⟨v', set, boot, sound, kept, entry⟩ := placed.setEntry
    (setAccessed file.dir now.day now.month ((now.year + 1900) % 2 ^ 16))
  have clipped : (if entrySize file.dir < offset + count then
      (entrySize file.dir + 2 ^ 64 - offset) % 2 ^ 64 else count) =
      min count (entrySize file.dir - offset) := by
    split <;> omega
  refine ⟨v', ?_, sound, boot, kept, entry⟩
  simp only [FatFiles.fatRead, set, bind_returned, stamped.directory, placed.plain, Bool.false_eq_true,
    if_false, stamped.size, total, clipped, stamped.cluster, ← placed.head, fatReadClusterChain_eq, sound.data,
    Option.map_some]
  by_cases none : min count (entrySize file.dir - offset) = 0
  · rw [none]
    rfl
  · rw [if_neg none, if_pos (by omega)]
    congr 3
    apply List.map_congr_left
    intro k few
    have within : offset + k < clusters.length * clusterBytes v.boot := by
      have := List.mem_range.mp few
      omega
    rw [boot, gather_place (clusterBytes_pos within) (by rw [length_starts]; exact within)]
    exact kept _ within

theorem Placed.fatRead (now : Datetime)
    (inside : offset + count ≤ entrySize file.dir) : ∃ v', fatRead v now file offset count =
      some ((count, (List.range count).map fun k => v.disk (chainPlace v.boot clusters (offset + k))), v') := by
  have bound := entrySize_lt file.dir
  have start : offset ≤ entrySize file.dir := by omega
  have small : offset + count < 2 ^ 64 := by omega
  obtain ⟨v', ran, -⟩ := placed.fatRead_clipped now start small
  grind

theorem Placed.fatRead_past (now : Datetime) (offsetFits : offset < 2 ^ 64) (countFits : count < 2 ^ 64)
    (past : entrySize file.dir < offset ∨ 2 ^ 64 ≤ offset + count) :
    FatFiles.fatRead v now file offset count = none := by
  have stamped := setAccessed_fields file.dir now.day now.month ((now.year + 1900) % 2 ^ 16)
  have bound := entrySize_lt file.dir
  obtain ⟨v', set, boot, sound, -⟩ := placed.setEntry
    (setAccessed file.dir now.day now.month ((now.year + 1900) % 2 ^ 16))
  simp only [FatFiles.fatRead, set, bind_returned, stamped.directory, placed.plain, Bool.false_eq_true,
    if_false, stamped.size, stamped.cluster, ← placed.head, fatReadClusterChain_eq, sound.data, Option.map_some]
  split <;> rw [if_neg (by omega), if_neg (by omega)]

end

end MandelbrotOS.FatFiles
