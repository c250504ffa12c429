import MandelbrotOS.FatChains
import MandelbrotOS.FatLookup

/-! Deleting a file of a FAT volume, `fat_delete` of `fs/fat32.c`. The handle's
two cluster numbers are taken for one another: the chain that is freed is the
directory's, and the entry is struck out in the file. -/
namespace MandelbrotOS.FatDelete
open Blocks ByteMemory Fat FatChains FatLookup Runs Walks

/-- `fat_delete`. What it calls the cluster is the handle's directory, and what
it calls the directory is the handle's cluster. -/
def fatDelete (v : Volume) (file : Handle) : Option (Nat × Volume) :=
  let cluster := file.parentCluster
  let entry := file.dir
  let dir := file.cluster
  if entry.directory then some (1, v)
  else do
    let v ← fatFreeChain v cluster
    let v ← fatSetDirEntry v dir file.index (Function.update entry 0 0xe5)
    some (0, v)

/-! ### What deleting should do -/

/-- A cluster of the chain with the given head. -/
def ClusterOf (v : Volume) (head cluster : Nat) : Prop :=
  ∃ clusters, chain v head = some clusters ∧ cluster ∈ clusters

def SameEntry (v v' : Volume) (cluster : Nat) : Prop :=
  halfWord v'.disk (entryAddress v.boot cluster) = halfWord v.disk (entryAddress v.boot cluster)

def SameData (v v' : Volume) (cluster : Nat) : Prop :=
  ∀ k < clusterBytes v.boot,
    v'.disk (clusterAddress v.boot cluster + k) = v.disk (clusterAddress v.boot cluster + k)

/-- The path is not found. -/
def Missing (v : Volume) (path : Path) : Prop :=
  ∃ lookup, fatFind v path = some lookup ∧ lookup.ret = notFound

/-- The file is gone and nothing else is: the path is not found, the clusters of
the file are free, the directory differs in the first byte of the file's entry,
its own entries in the table are as they were, and so is every other file, that
is every chain that shares no cluster with the file or the directory. -/
structure Removed (v : Volume) (path : Path) (file : Handle) (v' : Volume) : Prop where
  gone : Missing v' path
  freed : ∀ cluster, ClusterOf v file.cluster cluster → fatGetNextCluster v.boot v'.disk cluster = 0
  struck : ∀ clusters, chain v file.parentCluster = some clusters →
    ∀ k < clusters.length * clusterBytes v.boot, v'.disk (chainPlace v.boot clusters k) =
      if k = file.index * 32 then 0xe5 else v.disk (chainPlace v.boot clusters k)
  parent : ∀ cluster, ClusterOf v file.parentCluster cluster → SameEntry v v' cluster
  others : ∀ head clusters, chain v head = some clusters → OnTable v.boot clusters →
    (∀ cluster ∈ clusters, ¬ ClusterOf v file.cluster cluster ∧ ¬ ClusterOf v file.parentCluster cluster) →
    ∀ cluster ∈ clusters, SameEntry v v' cluster ∧ SameData v v' cluster

/-- The chains a volume keeps apart: all are within the table, a file has no
cluster of its directory and no directory one of the root's. -/
structure Separate (v : Volume) (file : Handle) : Prop where
  tables : 1 ≤ v.boot.tableCount
  inside : ∀ head ∈ [file.cluster, file.parentCluster, v.boot.rootCluster], ∀ clusters,
    chain v head = some clusters → OnTable v.boot clusters
  apart : ∀ cluster, ClusterOf v file.cluster cluster → ¬ ClusterOf v file.parentCluster cluster
  root : file.parentCluster ≠ v.boot.rootCluster →
    ∀ cluster, ClusterOf v v.boot.rootCluster cluster → ¬ ClusterOf v file.parentCluster cluster

/-- An entry in use that is no directory. -/
def IsRegular (entry : DirEntry) : Prop := entry 0 ≠ 0xe5 ∧ entry.directory = false

/-- The volume with the first byte of the file's entry overwritten. -/
def strike (v : Volume) (file : Handle) : Volume :=
  match chain v file.parentCluster with
  | none => v
  | some clusters =>
    { v with disk := Function.update v.disk (chainPlace v.boot clusters (file.index * 32)) 0xe5 }

/-- The files `fat_delete` does remove: empty ones of the root directory, when
each table entry of that directory is `0xffffff8` or has a zero low byte, and
the path leads to nothing else once the entry does not count. -/
structure Deletable (v : Volume) (path : Path) (file : Handle) : Prop where
  empty : file.cluster = 0
  root : file.parentCluster = v.boot.rootCluster
  clear : ∀ cluster, ClusterOf v file.parentCluster cluster →
    fatGetNextCluster v.boot v.disk cluster = 0xffffff8 ∨ fatGetNextCluster v.boot v.disk cluster % 256 = 0
  only : Missing (strike v file) path

theorem fatOpen_listed (opened : fatOpen v path = some (some file)) :
    ∃ clusters, chain v file.parentCluster = some clusters ∧
      file.index * 32 + 32 ≤ clusters.length * clusterBytes v.boot ∧
      ∀ k < 32, file.dir k = v.disk (chainPlace v.boot clusters (file.index * 32 + k)) := by
  simp only [fatOpen, bind_returns] at opened
  obtain ⟨lookup, found, opened⟩ := opened
  split at opened
  · cases opened
  · obtain ⟨⟨dir, index⟩, held, opened⟩ := Option.bind_eq_some_iff.mp opened
    cases opened
    obtain ⟨buffer, size, read, inside, rfl⟩ := fatFindFrom_found found held
    rw [readDirectory_eq] at read
    obtain ⟨clusters, walked, same⟩ := Option.map_eq_some_iff.mp read
    cases same
    rw [Nat.mul_assoc, show v.boot.clusterSize * 512 = clusterBytes v.boot from rfl] at inside
    have listed : index * 32 + 32 ≤ clusters.length * clusterBytes v.boot := by omega
    refine ⟨clusters, walked, listed, fun k few => ?_⟩
    have within : index * 32 + k < (starts v.boot clusters).length * clusterBytes v.boot := by
      rw [length_starts]
      omega
    exact gather_place (clusterBytes_pos within) within v.disk _

/-! ### A file that is removed -/

theorem strike_eq (walked : chain v file.parentCluster = some clusters) :
    strike v file = { v with
      disk := Function.update v.disk (chainPlace v.boot clusters (file.index * 32)) 0xe5 } := by
  rw [strike, walked]

theorem inChain_of_listed (walked : chain v head = some clusters)
    (listed : index * 32 + 32 ≤ clusters.length * clusterBytes v.boot) : inChain head = true := by
  rcases walk_cases walked with ⟨_, rfl⟩ | ⟨alive, _⟩
  · simp_all
  · exact alive

theorem fatFreeChain_same (walked : chain v head = some clusters) (alive : inChain head = true)
    (clear : ∀ cluster ∈ clusters, fatGetNextCluster v.boot v.disk cluster = 0xffffff8 ∨
      fatGetNextCluster v.boot v.disk cluster % 256 = 0) : fatFreeChain v head = some v := by
  rw [fatFreeChain, fatFreeChainFrom_same walked alive (walk_length walked) clear]
  rfl

section
variable (separate : Separate v file)
include separate

theorem fatDelete_deletable (regular : IsRegular file.dir)
    (opened : fatOpen v path = some (some file)) (deletable : Deletable v path file) :
    fatDelete v file = some (0, strike v file) := by
  obtain ⟨clusters, walked, listed, same⟩ := fatOpen_listed opened
  have clear : ∀ cluster ∈ clusters, fatGetNextCluster v.boot v.disk cluster = 0xffffff8 ∨
      fatGetNextCluster v.boot v.disk cluster % 256 = 0 :=
    fun cluster member => deletable.clear cluster ⟨clusters, walked, member⟩
  have inside := separate.inside file.parentCluster (by simp) clusters walked
  have target : chain v (orRoot v.boot file.cluster) = some clusters := by
    rw [deletable.empty, orRoot, if_pos rfl, ← deletable.root, walked]
  simp only [fatDelete, regular.2, Bool.false_eq_true, if_false, fatFreeChain_same walked (inChain_of_listed
    walked listed) clear, bind_returned]
  rw [fatSetDirEntry_first separate.tables target inside listed same, ← strike_eq walked]
  rfl

theorem strike_sameEntry (walked : chain v file.parentCluster = some clusters)
    (listed : file.index * 32 + 32 ≤ clusters.length * clusterBytes v.boot)
    (small : cluster < 2 ^ 28) (inside : cluster < 128 * v.boot.tableSize) :
    SameEntry v (strike v file) cluster := by
  obtain ⟨x, member, low, _⟩ := chainPlace_in_cluster v.boot
    (by omega : file.index * 32 < clusters.length * clusterBytes v.boot)
  have before := entry_before_data separate.tables inside small (walk_live walked x member)
  rw [SameEntry, strike_eq walked]
  grind [halfWord_congr]

theorem strike_removed (opened : fatOpen v path = some (some file))
    (deletable : Deletable v path file) : Removed v path file (strike v file) := by
  obtain ⟨clusters, walked, listed, same⟩ := fatOpen_listed opened
  have live := walk_live walked
  refine ⟨deletable.only, ?_, ?_, ?_, ?_⟩
  · rintro cluster ⟨_, none, member⟩
    rw [deletable.empty, chain, walk_dead (by decide), Option.some.injEq] at none
    subst none
    exact absurd member List.not_mem_nil
  · intro _ again k within
    rw [walked, Option.some.injEq] at again
    subst again
    rw [strike_eq walked]
    split
    · simp_all
    · rename_i elsewhere
      exact Function.update_of_ne
        (fun here => elsewhere (chainPlace_injective walked within (by omega) here)) _ _
  · rintro cluster ⟨_, again, member⟩
    rw [walked, Option.some.injEq] at again
    subst again
    have bound := inChain_iff.mp (live cluster member)
    exact strike_sameEntry separate walked listed (by omega)
      (separate.inside file.parentCluster (by simp) clusters walked cluster member)
  · intro head others ran onTable apart cluster member
    have bound := inChain_iff.mp (walk_live ran cluster member)
    refine ⟨strike_sameEntry separate walked listed (by omega) (onTable cluster member), fun k within => ?_⟩
    obtain ⟨x, listed_x, low, high⟩ := chainPlace_in_cluster v.boot
      (by omega : file.index * 32 < clusters.length * clusterBytes v.boot)
    have different : cluster ≠ x := fun same => (apart cluster member).2 ⟨clusters, walked, same ▸ listed_x⟩
    have disjoint := clusters_apart v.boot (walk_live ran cluster member) (live x listed_x) different
    rw [strike_eq walked]
    exact Function.update_of_ne (by omega) _ _

/-! ### A file that is not -/

theorem clear_of_parent (walked : chain v file.parentCluster = some clusters)
    (released : fatFreeChain v file.parentCluster = some middle)
    (set : fatSetDirEntry middle file.cluster file.index entry = some v')
    (parent : ∀ cluster ∈ clusters, SameEntry v v' cluster) :
    ∀ cluster ∈ clusters, fatGetNextCluster v.boot v.disk cluster = 0xffffff8 ∨
      fatGetNextCluster v.boot v.disk cluster % 256 = 0 := by
  obtain ⟨disk, freed, rfl⟩ := Option.map_eq_some_iff.mp released
  intro cluster member
  by_cases zero : fatGetNextCluster v.boot v.disk cluster = 0
  · exact Or.inr (by rw [zero])
  by_cases mark : fatGetNextCluster v.boot v.disk cluster = 0xffffff8
  · exact Or.inl mark
  have bound := inChain_iff.mp (walk_live walked cluster member)
  have inside := separate.inside file.parentCluster (by simp) clusters walked cluster member
  have cleared := fatFreeChainFrom_cleared walked freed cluster member zero mark
  have kept : v'.disk (entryAddress v.boot cluster) = disk (entryAddress v.boot cluster) := by
    refine fatSetDirEntry_tables (fun data other => ?_) set
    have before := entry_before_data separate.tables inside (by omega) other
    grind
  have low := halfWord_mod v'.disk (entryAddress v.boot cluster)
  rw [parent cluster member, halfWord_mod, kept, cleared] at low
  exact Or.inr (by rw [fatGetNextCluster_mod, low]; rfl)

theorem not_struck_elsewhere (regular : IsRegular file.dir)
    (opened : fatOpen v path = some (some file)) (removed : Removed v path file v')
    (set : fatSetDirEntry v file.cluster file.index entry = some v')
    (inside : ∀ clusters, chain v (orRoot v.boot file.cluster) = some clusters → OnTable v.boot clusters)
    (apart : ∀ cluster, ClusterOf v (orRoot v.boot file.cluster) cluster →
      ¬ ClusterOf v file.parentCluster cluster) : False := by
  obtain ⟨clusters, walked, listed, same⟩ := fatOpen_listed opened
  have first : file.index * 32 < clusters.length * clusterBytes v.boot := by omega
  have target : ∃ written, chain v (orRoot v.boot file.cluster) = some written := by
    cases none : chain v (orRoot v.boot file.cluster) with
    | none =>
      simp_all [fatSetDirEntry, readDirectory_eq]
    | some written => exact ⟨written, rfl⟩
  obtain ⟨written, ran⟩ := target
  obtain ⟨x, member, low, high⟩ := chainPlace_in_cluster v.boot first
  have untouched : v'.disk (chainPlace v.boot clusters (file.index * 32)) =
      v.disk (chainPlace v.boot clusters (file.index * 32)) := by
    refine (fatSetDirEntry_frame separate.tables ran (inside written ran) set).2 _ ?_
    intro start listed_start
    obtain ⟨y, member', rfl⟩ := List.mem_map.mp listed_start
    have different : x ≠ y := fun same =>
      apart y ⟨written, ran, member'⟩ ⟨clusters, walked, same ▸ member⟩
    have disjoint := clusters_apart v.boot (walk_live walked x member) (walk_live ran y member') different
    omega
  have struck := removed.struck clusters walked (file.index * 32) first
  rw [if_pos rfl, untouched] at struck
  exact regular.1 ((same 0 (by decide)).trans struck)

theorem deletable_of_removed (regular : IsRegular file.dir)
    (opened : fatOpen v path = some (some file)) (ran : fatDelete v file = some (result, v'))
    (removed : Removed v path file v') : Deletable v path file := by
  obtain ⟨clusters, walked, listed, same⟩ := fatOpen_listed opened
  simp only [fatDelete, regular.2, Bool.false_eq_true, if_false, bind_returns, Option.some.injEq, Prod.mk.injEq]
    at ran
  obtain ⟨middle, released, _, set, _, rfl⟩ := ran
  have clear := clear_of_parent separate walked released set
    fun cluster member => removed.parent cluster ⟨clusters, walked, member⟩
  rw [fatFreeChain_same walked (inChain_of_listed walked listed) clear, Option.some.injEq] at released
  subst released
  have empty : file.cluster = 0 := by
    refine Classical.byContradiction fun nonempty => ?_
    have target : orRoot v.boot file.cluster = file.cluster := if_neg nonempty
    refine not_struck_elsewhere separate regular opened removed set ?_ ?_
    · rw [target]
      exact separate.inside file.cluster (by simp)
    · rw [target]
      exact separate.apart
  have target : orRoot v.boot file.cluster = v.boot.rootCluster := if_pos empty
  have root : file.parentCluster = v.boot.rootCluster := by
    refine Classical.byContradiction fun other => ?_
    refine not_struck_elsewhere separate regular opened removed set ?_ ?_
    · rw [target]
      exact separate.inside v.boot.rootCluster (by simp)
    · rw [target]
      exact separate.root other
  refine ⟨empty, root, ?_, ?_⟩
  · rintro cluster ⟨_, again, member⟩
    simp_all
  · have written := fatSetDirEntry_first separate.tables (by rw [target, ← root]; exact walked)
      (separate.inside file.parentCluster (by simp) clusters walked) listed same 0xe5
    rw [written, Option.some.injEq, ← strike_eq walked] at set
    rw [set]
    exact removed.gone

end

/-- **`fat_delete` removes a file and nothing else exactly when it is
deletable.** For a regular file opened by its path, on a volume that keeps the
chains of the file and its directory apart. -/
theorem delete_removes_file_iff (opened : fatOpen v path = some (some file))
    (regular : IsRegular file.dir) (separate : Separate v file) :
    (∀ result v', fatDelete v file = some (result, v') →
      (Removed v path file v' ↔ Deletable v path file)) ∧
    (Deletable v path file → ∃ v', fatDelete v file = some (0, v')) := by
  refine ⟨fun result v' ran => ⟨deletable_of_removed separate regular opened ran, fun deletable => ?_⟩,
    fun deletable => ⟨_, fatDelete_deletable separate regular opened deletable⟩⟩
  rw [fatDelete_deletable separate regular opened deletable] at ran
  cases ran
  exact strike_removed separate opened deletable

/-! ### A volume with one file -/

/-- A root directory of one cluster, cluster 2, with one entry in it: `A`, a file
that starts at the given cluster. Clusters 2 and 3 end their chains. -/
def oneFileDisk (cluster : BitVec 8) : Memory := fun adr =>
  if adr = 520 ∨ adr = 524 then 0xf8
  else if adr = 521 ∨ adr = 522 ∨ adr = 525 ∨ adr = 526 then 0xff
  else if adr = 523 ∨ adr = 527 then 0x0f
  else if adr = 1024 then 0x41
  else if 1024 < adr ∧ adr < 1036 then 0x20
  else if adr = 1050 then cluster
  else 0

def oneFile (cluster : BitVec 8) : Volume := ⟨⟨1, 1, 1, 1, 2⟩, oneFileDisk cluster⟩

/-- `/A`. -/
def filePath : Path := fun i => if i = 0 then 0x2f else if i = 1 then 0x41 else 0

theorem oneFile_separate (head : file.cluster = start) (parent : file.parentCluster = 2)
    (directory : chain (oneFile cluster) 2 = some [2])
    (data : chain (oneFile cluster) start = some clusters) (small : ∀ x ∈ clusters, x = 3) :
    Separate (oneFile cluster) file := by
  refine ⟨Nat.le_refl 1, ?_, ?_, fun other => absurd parent other⟩
  · rw [head, parent]
    intro given member found walked x listed
    grind [oneFile]
  · rw [head, parent]
    rintro x ⟨_, walked, member⟩ ⟨_, walked', member'⟩
    grind

/-- What opening the file gives. -/
def openedFields (v : Volume) : Option (Option (Nat × Nat × Nat × BitVec 8 × Bool)) :=
  (fatOpen v filePath).map fun file => file.map fun file =>
    (file.cluster, file.parentCluster, file.index, file.dir 0, file.dir.directory)

theorem opened_of_fields (fields : openedFields v = some (some (start, parent, index, 0x41, false))) :
    ∃ file, fatOpen v filePath = some (some file) ∧ file.cluster = start ∧
      file.parentCluster = parent ∧ file.index = index ∧ IsRegular file.dir := by
  obtain ⟨opened, found, rest⟩ := Option.map_eq_some_iff.mp fields
  obtain ⟨file, rfl, fields⟩ := Option.map_eq_some_iff.mp rest
  simp only [Prod.mk.injEq] at fields
  obtain ⟨head, parent, index, first, plain⟩ := fields
  exact ⟨file, found, head, parent, index, by rw [first]; decide, plain⟩

/-- `/A` has one cluster and is deleted, and the cluster stays in use. -/
theorem delete_leaves_the_file : ∃ file v',
    fatOpen (oneFile 3) filePath = some (some file) ∧ IsRegular file.dir ∧ Separate (oneFile 3) file ∧
      fatDelete (oneFile 3) file = some (0, v') ∧ ¬ Removed (oneFile 3) filePath file v' := by
  have fields : openedFields (oneFile 3) = some (some (3, 2, 0, 0x41, false)) := by decide +kernel
  obtain ⟨file, opened, head, parent, index, regular⟩ := opened_of_fields fields
  have data : chain (oneFile 3) 3 = some [3] := by decide +kernel
  have separate : Separate (oneFile 3) file :=
    oneFile_separate head parent (by decide +kernel) data fun x => List.mem_singleton.mp
  have run : ((fatOpen (oneFile 3) filePath).bind fun file => file.bind (fatDelete (oneFile 3))).map
      (fun r => (r.1, fatGetNextCluster (oneFile 3).boot r.2.disk 3)) = some (0, 0xffffff8) := by
    decide +kernel
  rw [opened, Option.bind_some, Option.bind_some] at run
  obtain ⟨⟨result, v'⟩, ran, outcome⟩ := Option.map_eq_some_iff.mp run
  rw [Prod.mk.injEq] at outcome
  obtain ⟨rfl, kept⟩ := outcome
  refine ⟨file, v', opened, regular, separate, ran, fun removed => ?_⟩
  have freed := removed.freed 3 ⟨[3], by rw [head]; exact data, List.mem_singleton_self 3⟩
  rw [kept] at freed
  exact absurd freed (by decide)

theorem delete_removes_empty_file : ∃ file v',
    fatOpen (oneFile 0) filePath = some (some file) ∧ fatDelete (oneFile 0) file = some (0, v') ∧
      Removed (oneFile 0) filePath file v' := by
  have fields : openedFields (oneFile 0) = some (some (0, 2, 0, 0x41, false)) := by decide +kernel
  obtain ⟨file, opened, head, parent, index, regular⟩ := opened_of_fields fields
  have directory : chain (oneFile 0) 2 = some [2] := by decide +kernel
  have walked : chain (oneFile 0) file.parentCluster = some [2] := by rw [parent, directory]
  have data : chain (oneFile 0) 0 = some [] := walk_dead (by decide) _
  have separate : Separate (oneFile 0) file :=
    oneFile_separate head parent directory data fun x none => absurd none List.not_mem_nil
  have deletable : Deletable (oneFile 0) filePath file := by
    refine ⟨head, parent, ?_, ?_⟩
    · rintro cluster ⟨_, again, member⟩
      rw [walked, Option.some.injEq] at again
      rw [← again, List.mem_singleton] at member
      subst member
      exact Or.inl (by decide +kernel)
    · have lost : (fatFind ⟨(oneFile 0).boot, Function.update (oneFile 0).disk
          (chainPlace (oneFile 0).boot [2] (0 * 32)) 0xe5⟩ filePath).map (·.ret) = some notFound := by
        decide +kernel
      rw [Missing, strike_eq walked, index]
      exact Option.map_eq_some_iff.mp lost
  have both := delete_removes_file_iff opened regular separate
  obtain ⟨v', ran⟩ := both.2 deletable
  exact ⟨file, v', opened, ran, (both.1 0 v' ran).mpr deletable⟩

end MandelbrotOS.FatDelete
