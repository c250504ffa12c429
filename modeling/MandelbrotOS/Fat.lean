import Mathlib.Algebra.Group.Nat.Defs
import Mathlib.Logic.Function.Basic
import MandelbrotOS.Blocks
import MandelbrotOS.Runs
import MandelbrotOS.Walks

/-! The FAT volumes of `fs/fat32.c`: the file allocation table, cluster chains
and directory entries. The device is the store of bytes it has in its sectors,
and a loop that goes on for `2 ^ 64` turns is taken never to end. -/
namespace MandelbrotOS.Fat
open Blocks ByteMemory Walks

/-- The fields of the boot block that are read after mounting. -/
structure Boot where
  clusterSize : Nat
  reservedSectors : Nat
  tableCount : Nat
  tableSize : Nat
  rootCluster : Nat

structure Volume where
  boot : Boot
  disk : Memory

/-- `fat_cluster_to_sector`, in `uint32_t` and then `uint64_t`. -/
def fatClusterToSector (boot : Boot) (cluster : Nat) : Nat :=
  (cluster + 2 ^ 32 - 2) % 2 ^ 32 * boot.clusterSize + boot.reservedSectors +
    boot.tableCount * boot.tableSize

/-- The byte a cluster begins at. -/
def clusterAddress (boot : Boot) (cluster : Nat) : Nat := fatClusterToSector boot cluster * 512

def clusterBytes (boot : Boot) : Nat := boot.clusterSize * 512

/-- The byte a cluster's entry in the table begins at. -/
def entryAddress (boot : Boot) (cluster : Nat) : Nat :=
  (boot.reservedSectors + cluster * 4 % 2 ^ 32 / 512) * 512 + cluster * 4 % 2 ^ 32 % 512

def fatGetNextCluster (boot : Boot) (disk : Memory) (cluster : Nat) : Nat :=
  (halfWord disk (entryAddress boot cluster)).toNat % 2 ^ 28

/-- `cluster >= 2 && cluster < 0xffffff7`. -/
def inChain (cluster : Nat) : Bool := 2 ≤ cluster && cluster < 0xffffff7

/-- The `while` loop that goes along a chain, doing something at each cluster
and asking for the next one then. -/
def chainLoop {σ : Type} (body : σ → Nat → σ × Nat) : Nat → σ → Nat → Option σ
  | 0, s, cluster => if inChain cluster then none else some s
  | turns + 1, s, cluster =>
    if inChain cluster then chainLoop body turns (body s cluster).1 (body s cluster).2 else some s

/-- `fat_read_cluster`: the buffer, filled from the given place on, and the next
cluster. -/
def fatReadCluster (v : Volume) (buffer : Memory) (offset cluster : Nat) : Memory × Nat :=
  (copy buffer offset (clusterBytes v.boot) fun k => v.disk (clusterAddress v.boot cluster + k),
    fatGetNextCluster v.boot v.disk cluster)

def readTurn (v : Volume) (s : Memory × Nat) (cluster : Nat) : (Memory × Nat) × Nat :=
  let (buffer, next) := fatReadCluster v s.1 s.2 cluster
  ((buffer, s.2 + clusterBytes v.boot), next)

def fatReadClusterChain (v : Volume) (buffer : Memory) (cluster : Nat) : Option Memory :=
  (chainLoop (readTurn v) (2 ^ 64) (buffer, 0) cluster).map Prod.fst

def lengthTurn (v : Volume) (count cluster : Nat) : Nat × Nat :=
  (count + 1, fatGetNextCluster v.boot v.disk cluster)

def fatChainClusterLength (v : Volume) (cluster : Nat) : Option Nat :=
  chainLoop (lengthTurn v) (2 ^ 64) 0 cluster

/-- `fat_write_cluster`: the disk, and the next cluster as it is then. -/
def fatWriteCluster (boot : Boot) (disk buffer : Memory) (offset cluster : Nat) : Memory × Nat :=
  let disk := copy disk (clusterAddress boot cluster) (clusterBytes boot) fun k => buffer (offset + k)
  (disk, fatGetNextCluster boot disk cluster)

def writeTurn (boot : Boot) (buffer : Memory) (s : Memory × Nat) (cluster : Nat) : (Memory × Nat) × Nat :=
  let (disk, next) := fatWriteCluster boot s.1 buffer s.2 cluster
  ((disk, s.2 + clusterBytes boot), next)

def fatWriteClusterChain (v : Volume) (buffer : Memory) (cluster : Nat) : Option Volume :=
  (chainLoop (writeTurn v.boot buffer) (2 ^ 64) (v.disk, 0) cluster).map fun s => { v with disk := s.1 }

/-- `fat_change_fat_value`: the store is one of a byte. -/
def fatChangeFatValue (boot : Boot) (disk : Memory) (currentCluster nextCluster : Nat) : Memory :=
  Function.update disk (entryAddress boot currentCluster) (BitVec.ofNat 8 nextCluster)

def fatFreeChainFrom (boot : Boot) : Nat → Memory → Nat → Option Memory
  | 0, _, _ => none
  | turns + 1, disk, cluster =>
    let next := fatGetNextCluster boot disk cluster
    if next = 0 ∨ next = 0xffffff8 then some disk
    else fatFreeChainFrom boot turns (fatChangeFatValue boot disk cluster 0) next

def fatFreeChain (v : Volume) (cluster : Nat) : Option Volume :=
  (fatFreeChainFrom v.boot (2 ^ 64) v.disk cluster).map fun disk => { v with disk := disk }

/-! ### Directories -/

/-- The 32 bytes of a `dir_entry_t`. -/
abbrev DirEntry := Nat → BitVec 8

/-- `directory`, a bit of the flags. -/
def DirEntry.directory (entry : DirEntry) : Bool := (entry 11).getLsbD 4

/-- `cluster_hi` and `cluster_lo` put together. -/
def DirEntry.clusterNo (entry : DirEntry) : Nat := (entry 21 ++ entry 20 ++ entry 27 ++ entry 26).toNat

/-- The `i`th entry of a buffer. -/
def entryOf (buffer : Memory) (i : Nat) : DirEntry := fun k => buffer (i * 32 + k)

/-- The root directory when no cluster is given. -/
def orRoot (boot : Boot) (directory : Nat) : Nat := if directory = 0 then boot.rootCluster else directory

/-- A directory's bytes and the number of entries they are room for. -/
def readDirectory (v : Volume) (directory : Nat) : Option (Memory × Nat) := do
  let length ← fatChainClusterLength v directory
  let buffer ← fatReadClusterChain v (fun _ => 0) directory
  some (buffer, length * v.boot.clusterSize * 512 / 32)

/-- `fat_set_dir_entry`. An index just past the end is let through; what it
writes lies behind the buffer and does not get to the disk. -/
def fatSetDirEntry (v : Volume) (directory index : Nat) (entry : DirEntry) : Option Volume := do
  let directory := orRoot v.boot directory
  let (entries, size) ← readDirectory v directory
  if index > size then some v
  else fatWriteClusterChain v (copy entries (index * 32) 32 entry) directory

end MandelbrotOS.Fat
