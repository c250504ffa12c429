import MandelbrotOS.FatTable
import MandelbrotOS.Kheap

/-! Whole chains in and out of memory: what `fat_write_cluster_chain` of
`fs/fat32.c` puts on the disk is what `fat_read_cluster_chain` gets from there, and
the buffers the driver reads chains to. All of a chain is always read, a cluster at
a time; not all of the buffers are as long as that, and none is for a chain of
4 GiB. -/
namespace MandelbrotOS.FatTransfers
open Blocks ByteMemory Fat FatChains FatFiles FatLookup FatTable Kheap Runs Walks

/-! ### What is written is read -/

/-- The byte the data area begins at, behind the reserved sectors and the tables. -/
def dataStart (boot : Boot) : Nat := (boot.reservedSectors + boot.tableCount * boot.tableSize) * 512

theorem dataStart_le (boot : Boot) (cluster : Nat) : dataStart boot ≤ clusterAddress boot cluster := by
  rw [dataStart, clusterAddress, fatClusterToSector, Nat.add_assoc]
  exact Nat.mul_le_mul_right _ (Nat.le_add_left _ _)

/-- **What is written to a chain is read from it.** The tables and the reserved
sectors are what they were, and so is every cluster that is not one of the
chain. -/
theorem chain_round_trip (tables : 1 ≤ v.boot.tableCount)
    (walked : walk (fatGetNextCluster v.boot v.disk) inChain steps head = some clusters)
    (inside : OnTable v.boot clusters) (bytes buffer : Memory) :
    ∃ v', fatWriteClusterChain v bytes head = some v' ∧ v'.boot = v.boot ∧
      (∃ read, fatReadClusterChain v' buffer head = some read ∧ ∀ k, read k =
        if k < clusters.length * clusterBytes v.boot then bytes k else buffer k) ∧
      (∀ adr < dataStart v.boot, v'.disk adr = v.disk adr) ∧
      ∀ cluster < 2 ^ 32, cluster ∉ clusters → ∀ k < clusterBytes v.boot,
        v'.disk (clusterAddress v.boot cluster + k) = v.disk (clusterAddress v.boot cluster + k) := by
  have ran := chain_of_walk walked
  have live := walk_live walked
  have disjoint := starts_disjoint v.boot live (walk_nodup walked)
  let disk := scatter (clusterBytes v.boot) bytes v.disk 0 (starts v.boot clusters)
  have written : fatWriteClusterChain v bytes head = some ⟨v.boot, disk⟩ :=
    fatWriteClusterChain_eq tables ran inside bytes
  refine ⟨⟨v.boot, disk⟩, written, rfl, ?_, fun adr early => ?_, fun cluster number outside k within => ?_⟩
  · have again : chain ⟨v.boot, disk⟩ head = some clusters := by
      refine chain_kept tables ran inside rfl fun adr before => scatter_outside fun start member => ?_
      obtain ⟨x, listed, rfl⟩ := List.mem_map.mp member
      exact Or.inl (before x (live x listed))
    refine ⟨gather (clusterBytes v.boot) disk buffer 0 (starts v.boot clusters), ?_, fun k => ?_⟩
    · rw [fatReadClusterChain_eq, again]
      rfl
    · rw [← length_starts v.boot]
      split
      · rename_i low
        rw [gather_place (clusterBytes_pos low) low]
        exact (scatter_place (clusterBytes_pos low) disjoint low).trans (by rw [Nat.zero_add])
      · rename_i high
        exact gather_above (by omega)
  · refine scatter_outside fun start member => ?_
    obtain ⟨x, listed, rfl⟩ := List.mem_map.mp member
    have behind := dataStart_le v.boot x
    omega
  · refine scatter_outside fun start member => ?_
    obtain ⟨x, listed, rfl⟩ := List.mem_map.mp member
    have small := inChain_iff.mp (live x listed)
    have apart := clusters_disjoint v.boot number (by omega : x < 2 ^ 32) fun same => outside (same ▸ listed)
    omega

theorem two_clusters_read_back : ∃ v', fatWriteClusterChain twoLinked (BitVec.ofNat 8) 2 = some v' ∧
    ∃ read, fatReadClusterChain v' (fun _ => 0) 2 = some read ∧ read 700 = BitVec.ofNat 8 700 ∧ read 1024 = 0 := by
  obtain ⟨v', written, -, ⟨read, again, bytes⟩, -⟩ := chain_round_trip (Nat.le_refl 1) twoLinked_walk
    (show OnTable oneSectorTable [2, 3] by decide) (BitVec.ofNat 8) fun _ => 0
  exact ⟨v', written, read, again, (bytes 700).trans (if_pos (by decide)), (bytes 1024).trans (if_neg (by decide))⟩

/-! ### Transfers to a buffer -/

/-- So many bytes from the device to a place in a buffer, of the bytes `kmalloc` has
given for it. -/
structure Transfer where
  capacity : Nat
  offset : Nat
  bytes : Nat
  deriving DecidableEq

def Transfer.Fits (t : Transfer) : Prop := t.offset + t.bytes ≤ t.capacity

instance (t : Transfer) : Decidable t.Fits := inferInstanceAs (Decidable (_ ≤ _))

/-- A turn of a loop along a chain with what `fat_read_cluster` transfers in it. -/
def noted {σ : Type} (boot : Boot) (capacity : Nat) (offset : σ → Nat) (body : σ → Nat → σ × Nat)
    (s : List Transfer × σ) (cluster : Nat) : (List Transfer × σ) × Nat :=
  ((s.1 ++ [⟨capacity, offset s.2, clusterBytes boot⟩], (body s.2 cluster).1), (body s.2 cluster).2)

/-- The transfers of `fat_read_cluster_chain`. -/
def readTransfers (v : Volume) (capacity cluster : Nat) : Option (List Transfer) :=
  (chainLoop (noted v.boot capacity Prod.snd (readTurn v)) (2 ^ 64) ([], (fun _ => 0, 0)) cluster).map Prod.fst

/-- The transfers of `fat_chain_cluster_length`, all to the start of one block. -/
def lengthTransfers (v : Volume) (cluster : Nat) : Option (List Transfer) :=
  (chainLoop (noted v.boot (kmallocSize 512) (fun _ => 0) (lengthTurn v)) (2 ^ 64) ([], 0) cluster).map Prod.fst

/-- A chain that is measured and then read to a block of a size by its length. -/
def measuredTransfers (v : Volume) (size : Nat → Nat) (cluster : Nat) : Option (List Transfer) := do
  let length ← fatChainClusterLength v cluster
  readTransfers v (kmallocSize (size length)) cluster

/-- `fat_chain_cluster_length(...) * boot.cluster_size * 512`. -/
def wholeClusters (boot : Boot) (length : Nat) : Nat := length * boot.clusterSize * 512

/-- The directories that `fat_find` reads. -/
def visited (v : Volume) (path : Path) : Nat → Nat → Int → Option (List Nat)
  | 0, _, _ => none
  | depth + 1, directory, cursor =>
    if directory ≥ 0xffffff7 then some []
    else
      let directory := orRoot v.boot directory
      if path cursor = 0 then some []
      else if path cursor = 0x20 ∨ path cursor = 0x2f then visited v path depth directory (cursor + 1)
      else do
        let start := if path cursor = 0x2e then cursor + 2 else cursor
        let (cursor, pos, name) ← shortName path (2 ^ 64) start 0 fun _ => 0x20
        let (buffer, size) ← readDirectory v directory
        match scan path name buffer size size 0 cursor pos with
        | some (some ⟨_, entry, cursor⟩) =>
          if path cursor = 0x2f ∧ entry.directory then
            let later ← if path (cursor + 2) ≠ 0x2e ∧ path (cursor + 3) ≠ 0x2e then
                visited v path depth entry.clusterNo (cursor + 1)
              else visited v path depth directory (cursor + 4)
            some (directory :: later)
          else some [directory]
        | _ => some [directory]

/-- The transfers of `fat_find` to its own buffers, one for each directory. -/
def findTransfers (v : Volume) (path : Path) (depth directory : Nat) (cursor : Int) : Option (List Transfer) := do
  let directories ← visited v path depth directory cursor
  let each ← directories.mapM (measuredTransfers v (wholeClusters v.boot))
  some each.flatten

/-- How much `fat_read` comes to read. -/
def readCount (entry : DirEntry) (offset count : Nat) : Nat :=
  if entrySize entry < (offset + count) % 2 ^ 64 then (entrySize entry + 2 ^ 64 - offset) % 2 ^ 64 else count

/-- The functions of the driver that read chains to a block of their own. -/
inductive Call where
  | chainClusterLength (cluster : Nat)
  | read (now : Datetime) (file : Handle) (offset count : Nat)
  | readdir (file : Handle)
  | getFreeDirEntry (directory : Nat)
  | find (path : Path) (directory : Nat) (cursor : Int)
  | setDirEntry (directory index : Nat)
  | write (now : Datetime) (file : Handle) (offset count : Nat)

/-- The volume a call reads from when it comes to its own buffer: `fat_read` has
stored the entry by then. -/
def servedFrom (v : Volume) : Call → Option Volume
  | .read now file _ _ => fatSetDirEntry v file.parentCluster file.index
      (setAccessed file.dir now.day now.month ((now.year + 1900) % 2 ^ 16))
  | _ => some v

/-- The transfers of a call to its own buffer, up to where the call ends or goes
wrong. -/
def transfers (v : Volume) : Call → Option (List Transfer)
  | .chainClusterLength cluster => lengthTransfers v cluster
  | .read now file offset count => do
    let entry := setAccessed file.dir now.day now.month ((now.year + 1900) % 2 ^ 16)
    let v ← fatSetDirEntry v file.parentCluster file.index entry
    if entry.directory then some []
    else if readCount entry offset count = 0 then some []
    else readTransfers v (kmallocSize (entrySize entry)) entry.clusterNo
  | .readdir file => measuredTransfers v (fun length => length * 512) file.parentCluster
  | .getFreeDirEntry directory => measuredTransfers v (wholeClusters v.boot) (orRoot v.boot directory)
  | .find path directory cursor => findTransfers v path (2 ^ 64) directory cursor
  | .setDirEntry directory index => do
    let length ← fatChainClusterLength v (orRoot v.boot directory)
    if index > wholeClusters v.boot length / 32 then some []
    else readTransfers v (kmallocSize (wholeClusters v.boot length)) (orRoot v.boot directory)
  | .write now file offset count => do
    let entry := setAccessed file.dir now.day now.month now.year
    if count = 0 then some []
    else if entry.directory then some []
    else
      let v ← growChain file.cluster entry.clusterNo ((count + offset) % 2 ^ 64) (2 ^ 64) v
      measuredTransfers v (wholeClusters v.boot) file.cluster

theorem readTransfers_eq (v : Volume) (capacity cluster : Nat) :
    readTransfers v capacity cluster = (chain v cluster).map fun clusters =>
      (List.range clusters.length).map fun i => ⟨capacity, i * clusterBytes v.boot, clusterBytes v.boot⟩ := by
  have listed (clusters : List Nat) (log : List Transfer) (buffer : Memory) (start : Nat) :
      (clusters.foldl (fun s x => (noted v.boot capacity Prod.snd (readTurn v) s x).1)
        (log, (buffer, start * clusterBytes v.boot))).1 =
      log ++ (List.range' start clusters.length).map fun i =>
        ⟨capacity, i * clusterBytes v.boot, clusterBytes v.boot⟩ := by
    induction clusters generalizing log buffer start with
    | nil => exact (List.append_nil log).symm
    | cons x rest ih =>
      rw [List.foldl_cons, List.length_cons, List.range'_succ, List.map_cons, List.append_cons, ← ih _ _ (start + 1)]
      rw [Nat.succ_mul]
      rfl
  have onward (s : List Transfer × Memory × Nat) (x : Nat) :
      (noted v.boot capacity Prod.snd (readTurn v) s x).2 = fatGetNextCluster v.boot v.disk x := rfl
  rw [readTransfers, chainLoop_eq onward, chain, Option.map_map]
  congr 1
  funext clusters
  have all := listed clusters [] (fun _ => 0) 0
  simp_all [List.range_eq_range']

theorem lengthTransfers_eq (v : Volume) (cluster : Nat) :
    lengthTransfers v cluster = (chain v cluster).map fun clusters =>
      List.replicate clusters.length ⟨kmallocSize 512, 0, clusterBytes v.boot⟩ := by
  have listed (clusters : List Nat) (log : List Transfer) (count : Nat) :
      (clusters.foldl (fun s x => (noted v.boot (kmallocSize 512) (fun _ => 0) (lengthTurn v) s x).1) (log, count)).1 =
      log ++ List.replicate clusters.length ⟨kmallocSize 512, 0, clusterBytes v.boot⟩ := by
    induction clusters generalizing log count with
    | nil => exact (List.append_nil log).symm
    | cons x rest ih =>
      rw [List.foldl_cons, List.length_cons, List.replicate_succ, List.append_cons, ← ih _ (count + 1)]
      rfl
  have onward (s : List Transfer × Nat) (x : Nat) :
      (noted v.boot (kmallocSize 512) (fun _ => 0) (lengthTurn v) s x).2 = fatGetNextCluster v.boot v.disk x := rfl
  rw [lengthTransfers, chainLoop_eq onward, chain, Option.map_map]
  congr 1
  funext clusters
  exact listed clusters [] 0

theorem readTransfers_fit_iff (ran : chain v cluster = some clusters)
    (read : readTransfers v capacity cluster = some log) :
    (∀ t ∈ log, t.Fits) ↔ clusters.length * clusterBytes v.boot ≤ capacity := by
  rw [readTransfers_eq, ran, Option.map_some, Option.some.injEq] at read
  subst read
  simp only [List.forall_mem_map, List.mem_range, Transfer.Fits, ← Nat.succ_mul]
  constructor
  · intro fits
    obtain empty | nonempty := Nat.eq_zero_or_pos clusters.length
    · simp_all
    · have last := fits (clusters.length - 1) (Nat.sub_lt nonempty Nat.one_pos)
      grind
  · intro whole i inside
    exact Nat.le_trans (Nat.mul_le_mul_right _ inside) whole

theorem measuredTransfers_fit_iff (measured : measuredTransfers v size cluster = some log) :
    ∃ clusters, chain v cluster = some clusters ∧
      ((∀ t ∈ log, t.Fits) ↔ clusters.length * clusterBytes v.boot ≤ kmallocSize (size clusters.length)) := by
  rw [measuredTransfers, fatChainClusterLength_eq] at measured
  obtain ⟨length, counted, read⟩ := Option.bind_eq_some_iff.mp measured
  obtain ⟨clusters, ran, rfl⟩ := Option.map_eq_some_iff.mp counted
  exact ⟨clusters, ran, readTransfers_fit_iff ran read⟩

theorem wholeClusters_eq (boot : Boot) (length : Nat) : wholeClusters boot length = length * clusterBytes boot :=
  Nat.mul_assoc _ _ _

/-- All of a chain is not too much for one block. -/
def Ample (v : Volume) (cluster : Nat) : Prop :=
  ∀ clusters, chain v cluster = some clusters → Servable (clusters.length * clusterBytes v.boot)

theorem ample_iff (walked : chain v cluster = some clusters) :
    Ample v cluster ↔ Servable (clusters.length * clusterBytes v.boot) := by
  constructor
  · exact fun ample => ample clusters walked
  · intro servable others same
    cases walked.symm.trans same
    exact servable

theorem wholeTransfers_fit_iff (measured : measuredTransfers v (wholeClusters v.boot) cluster = some log) :
    (∀ t ∈ log, t.Fits) ↔ Ample v cluster := by
  obtain ⟨clusters, walked, fits⟩ := measuredTransfers_fit_iff measured
  rw [fits, ample_iff walked, wholeClusters_eq, le_kmallocSize_iff]

theorem findTransfers_fit_iff (found : findTransfers v path depth directory cursor = some log) :
    ∃ directories, visited v path depth directory cursor = some directories ∧
      ((∀ t ∈ log, t.Fits) ↔ ∀ other ∈ directories, Ample v other) := by
  obtain ⟨directories, listed, read⟩ := Option.bind_eq_some_iff.mp found
  refine ⟨directories, listed, ?_⟩
  clear listed found
  induction directories generalizing log with
  | nil =>
    cases read
    simp
  | cons first rest ih =>
    simp only [List.mapM_cons, bind_returns] at read
    obtain ⟨_, ⟨own, measured, each, others, made⟩, same⟩ := read
    cases made
    cases same
    rw [List.flatten_cons, List.forall_mem_append, List.forall_mem_cons, wholeTransfers_fit_iff measured]
    refine and_congr_right fun _ => ih ?_
    rw [others]
    rfl

/-- The block of a call is as long as what is read to it. -/
def Sufficient (v : Volume) : Call → Prop
  | .chainClusterLength cluster => v.boot.clusterSize = 1 ∨ inChain cluster = false
  | .read _ file offset count => file.dir.directory = true ∨ readCount file.dir offset count = 0 ∨
      ∀ clusters, chain v file.dir.clusterNo = some clusters →
        clusters.length * clusterBytes v.boot ≤ kmallocSize (entrySize file.dir)
  | .readdir file => inChain file.parentCluster = false ∨ v.boot.clusterSize = 1 ∧ Ample v file.parentCluster
  | .getFreeDirEntry directory => Ample v (orRoot v.boot directory)
  | .find path directory cursor => ∀ directories, visited v path (2 ^ 64) directory cursor = some directories →
      ∀ other ∈ directories, Ample v other
  | .setDirEntry directory index => Ample v (orRoot v.boot directory) ∨
      ∀ clusters, chain v (orRoot v.boot directory) = some clusters →
        wholeClusters v.boot clusters.length / 32 < index
  | .write _ file offset count => count = 0 ∨ file.dir.directory = true ∨
      ∀ grown, growChain file.cluster file.dir.clusterNo ((count + offset) % 2 ^ 64) (2 ^ 64) v = some grown →
        Ample grown file.cluster

theorem sector_each_iff (positive : 1 ≤ boot.clusterSize) (length : Nat) :
    length * clusterBytes boot ≤ kmallocSize (length * 512) ↔
      length = 0 ∨ boot.clusterSize = 1 ∧ Servable (length * clusterBytes boot) := by
  have most := kmallocSize_le (length * 512)
  obtain rfl | nonempty := Nat.eq_zero_or_pos length
  · simp
  by_cases one : boot.clusterSize = 1
  · rw [clusterBytes, one, Nat.one_mul, le_kmallocSize_iff]
    simp [Nat.ne_of_gt nonempty]
  · have wide : length * 512 < length * clusterBytes boot :=
      Nat.mul_lt_mul_of_pos_left (by rw [clusterBytes]; omega) nonempty
    refine iff_of_false (by omega) ?_
    rintro (empty | ⟨same, -⟩)
    · omega
    · exact one same

theorem length_eq_zero_iff (ran : chain v cluster = some clusters) :
    clusters.length = 0 ↔ inChain cluster = false := by
  constructor
  · intro empty
    rw [List.length_eq_zero_iff.mp empty] at ran
    exact walk_nil ran
  · grind [chain, walk_dead]

section
variable {v w : Volume} {call : Call} {log : List Transfer}

theorem transfers_fit_iff (positive : 1 ≤ v.boot.clusterSize) (served : servedFrom v call = some w)
    (ran : transfers v call = some log) : (∀ t ∈ log, t.Fits) ↔ Sufficient w call := by
  have none : ∀ t ∈ ([] : List Transfer), t.Fits := fun t member => absurd member List.not_mem_nil
  cases call with
  | chainClusterLength cluster =>
    cases served
    rw [transfers, lengthTransfers_eq] at ran
    obtain ⟨clusters, walked, rfl⟩ := Option.map_eq_some_iff.mp ran
    rw [Sufficient, ← length_eq_zero_iff walked]
    simp only [List.forall_mem_replicate, Transfer.Fits, clusterBytes, kmallocSize_servable (show Servable 512 by decide)]
    omega
  | read now file offset count =>
    simp only [transfers] at ran
    rw [show fatSetDirEntry v file.parentCluster file.index _ = some w from served] at ran
    obtain ⟨directory, cluster, size⟩ :=
      setAccessed_fields file.dir now.day now.month ((now.year + 1900) % 2 ^ 16)
    have sameCount : readCount (setAccessed file.dir now.day now.month ((now.year + 1900) % 2 ^ 16)) offset count =
        readCount file.dir offset count := by rw [readCount, readCount, size]
    simp only [bind_returned, directory, cluster, size, sameCount] at ran
    rw [Sufficient]
    split at ran
    · simp_all
    rename_i plain
    split at ran
    · simp_all
    rename_i something
    have read := ran
    rw [readTransfers_eq] at read
    obtain ⟨clusters, walked, -⟩ := Option.map_eq_some_iff.mp read
    rw [readTransfers_fit_iff walked ran]
    simp_all
  | readdir file =>
    cases served
    obtain ⟨clusters, walked, fits⟩ := measuredTransfers_fit_iff ran
    rw [fits, sector_each_iff positive, Sufficient, ← length_eq_zero_iff walked, ample_iff walked]
  | getFreeDirEntry directory =>
    cases served
    exact wholeTransfers_fit_iff ran
  | find path directory cursor =>
    cases served
    obtain ⟨directories, listed, fits⟩ := findTransfers_fit_iff ran
    rw [fits, Sufficient, listed]
    simp only [Option.some.injEq, forall_eq']
  | setDirEntry directory index =>
    cases served
    rw [transfers, fatChainClusterLength_eq] at ran
    obtain ⟨length, counted, ran⟩ := Option.bind_eq_some_iff.mp ran
    obtain ⟨clusters, walked, rfl⟩ := Option.map_eq_some_iff.mp counted
    simp only [Sufficient, walked, Option.some.injEq, forall_eq']
    split at ran
    · rename_i beyond
      cases ran
      exact iff_of_true none (Or.inr beyond)
    · rename_i within
      rw [readTransfers_fit_iff walked ran, ample_iff walked, or_iff_left within, wholeClusters_eq, le_kmallocSize_iff]
  | write now file offset count =>
    cases served
    obtain ⟨directory, cluster, -⟩ := setAccessed_fields file.dir now.day now.month now.year
    simp only [transfers, directory, cluster] at ran
    rw [Sufficient]
    split at ran
    · cases ran
      exact iff_of_true none (Or.inl ‹_›)
    split at ran
    · cases ran
      exact iff_of_true none (Or.inr (Or.inl ‹_›))
    · rename_i something plain
      obtain ⟨grown, longer, ran⟩ := Option.bind_eq_some_iff.mp ran
      rw [wholeTransfers_fit_iff ran]
      simp only [something, plain, longer, false_or, Option.some.injEq, forall_eq', Bool.false_eq_true]

/-- The chain that `fat_read` reads is one of the table, so that storing the
entry leaves it alone. -/
def Settled (v : Volume) : Call → Prop
  | .read _ file _ _ => 1 ≤ v.boot.tableCount ∧
      ∃ clusters, chain v file.dir.clusterNo = some clusters ∧ OnTable v.boot clusters
  | _ => True

theorem sufficient_served (served : servedFrom v call = some w) (settled : Settled v call) :
    Sufficient w call ↔ Sufficient v call := by
  cases call with
  | read now file offset count =>
    obtain ⟨tables, clusters, walked, inside⟩ := settled
    have boot := fatSetDirEntry_boot served
    have walked' : chain w file.dir.clusterNo = some clusters :=
      chain_kept tables walked inside boot fun adr before => fatSetDirEntry_tables before served
    rw [Sufficient, Sufficient, walked, walked', boot]
  | chainClusterLength | readdir | getFreeDirEntry | find | setDirEntry | write =>
    cases served
    exact Iff.rfl

/-- **Which blocks are as long as what is read to them.** A chain of 4 GiB, less the
headers of the heap, is too much for any of them. `fat_chain_cluster_length` and
`fat_readdir` count 512 bytes for a cluster, and `fat_read` counts the bytes of the
file; the other four count all of the chain. -/
theorem buffers_suffice_iff (positive : 1 ≤ v.boot.clusterSize) (served : servedFrom v call = some w)
    (ran : transfers v call = some log) :
    ((∀ t ∈ log, t.Fits) ↔ Sufficient w call) ∧
      (Settled v call → ((∀ t ∈ log, t.Fits) ↔ Sufficient v call)) := by
  have fits := transfers_fit_iff positive served ran
  exact ⟨fits, fun settled => fits.trans (sufficient_served served settled)⟩

end

theorem two_sectors_fit : ∃ log, transfers twoLinked (.chainClusterLength 2) = some log ∧ log.length = 2 ∧
    ∀ t ∈ log, t.Fits := by
  have ran : transfers twoLinked (.chainClusterLength 2) = some [⟨512, 0, 512⟩, ⟨512, 0, 512⟩] := by
    decide +kernel
  exact ⟨_, ran, rfl, (buffers_suffice_iff (Nat.le_refl 1) rfl ran).1.mpr (Or.inl rfl)⟩

/-- Clusters of two sectors: cluster 2 is the root directory, with a file of one
byte in cluster 3. -/
def twoSectorClusters : Volume := ⟨⟨2, 1, 1, 1, 2⟩, fun adr =>
  if adr = 520 ∨ adr = 524 then 0xf8 else if adr = 521 ∨ adr = 522 ∨ adr = 525 ∨ adr = 526 then 0xff
  else if adr = 523 ∨ adr = 527 then 0x0f
  else if adr = 1024 then 0x41 else if 1024 < adr ∧ adr < 1035 then 0x20
  else if adr = 1050 then 3 else if adr = 1052 then 1 else 0⟩

/-- The file, opened. -/
def oneByteFile : Handle := ⟨fun k => twoSectorClusters.disk (1024 + k), 0, 3, 2⟩

def newYear : Datetime := ⟨0, 0, 0, 1, 1, 100⟩

/-- A cluster of 1024 bytes is read to a block of 512 bytes when the chain is
measured or listed, and to one of one byte for the file. -/
theorem cluster_overruns_block :
    transfers twoSectorClusters (.chainClusterLength 2) = some [⟨512, 0, 1024⟩] ∧
    transfers twoSectorClusters (.readdir oneByteFile) = some [⟨512, 0, 1024⟩] ∧
    transfers twoSectorClusters (.read newYear oneByteFile 0 1) = some [⟨1, 0, 1024⟩] ∧
    ¬ (⟨512, 0, 1024⟩ : Transfer).Fits ∧ ¬ (⟨1, 0, 1024⟩ : Transfer).Fits := by
  refine ⟨?_, ?_, ?_, by decide, by decide⟩ <;> decide +kernel

end MandelbrotOS.FatTransfers
