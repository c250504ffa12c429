import MandelbrotOS.Fat

/-! What the chain loops of the FAT driver read and write, in terms of the
clusters of the chain. Data is behind the tables, so writing it leaves every
chain as it was. -/
namespace MandelbrotOS.FatChains
open Blocks ByteMemory Fat Runs Walks

/-- The clusters of a chain. -/
def chain (v : Volume) (cluster : Nat) : Option (List Nat) :=
  walk (fatGetNextCluster v.boot v.disk) inChain (2 ^ 64) cluster

/-- Where the clusters' data is. -/
def starts (boot : Boot) (clusters : List Nat) : List Nat := clusters.map (clusterAddress boot)

/-- Where the `k`th byte of a chain's data is. -/
def chainPlace (boot : Boot) (clusters : List Nat) (k : Nat) : Nat :=
  place (starts boot clusters) (clusterBytes boot) k

theorem inChain_iff : inChain cluster = true ↔ 2 ≤ cluster ∧ cluster < 0xffffff7 := by
  simp [inChain]

theorem length_of_walk {next : Nat → Nat} (ran : walk next inChain steps cluster = some clusters) :
    clusters.length < 2 ^ 28 := by
  have inside : clusters ⊆ List.range 0xffffff7 := fun x member =>
    List.mem_range.mpr (inChain_iff.mp (walk_live ran x member)).2
  have few := List.Nodup.length_le_of_subset (walk_nodup ran) inside
  rw [List.length_range] at few
  omega

theorem chain_of_walk (ran : walk (fatGetNextCluster v.boot v.disk) inChain steps cluster = some clusters) :
    chain v cluster = some clusters := by
  have short := length_of_walk ran
  exact walk_more ran (by omega)

/-! ### Loops -/

theorem chainLoop_keeps {σ : Type} {body : σ → Nat → σ × Nat} {inv : σ → Prop} {s s' : σ}
    (kept : ∀ s x, inChain x = true → inv s → inv (body s x).1) (start : inv s)
    (ran : chainLoop body turns s cluster = some s') : inv s' := by
  induction turns generalizing s cluster with
  | zero =>
    rw [chainLoop] at ran
    simp_all
  | succ turns ih =>
    grind [chainLoop]

theorem chainLoop_eq {σ : Type} {body : σ → Nat → σ × Nat} {next : Nat → Nat}
    (onward : ∀ s x, (body s x).2 = next x) (turns : Nat) (s : σ) (cluster : Nat) :
    chainLoop body turns s cluster = (walk next inChain turns cluster).map fun clusters =>
      clusters.foldl (fun s x => (body s x).1) s := by
  induction turns generalizing s cluster with
  | zero =>
    rw [chainLoop, walk]
    split <;> rfl
  | succ turns ih =>
    rw [chainLoop, walk]
    split
    · rw [onward, ih, Option.map_map]
      rfl
    · rfl

theorem fatChainClusterLength_eq (v : Volume) (cluster : Nat) :
    fatChainClusterLength v cluster = (chain v cluster).map List.length := by
  have counted (clusters : List Nat) (count : Nat) :
      clusters.foldl (fun count _ => count + 1) count = count + clusters.length := by
    simp
  have onward (count x : Nat) : (lengthTurn v count x).2 = fatGetNextCluster v.boot v.disk x := rfl
  rw [fatChainClusterLength, chainLoop_eq onward, chain]
  congr 1
  funext clusters
  exact (counted clusters 0).trans (Nat.zero_add _)

theorem fatReadClusterChain_eq (v : Volume) (buffer : Memory) (cluster : Nat) :
    fatReadClusterChain v buffer cluster = (chain v cluster).map fun clusters =>
      gather (clusterBytes v.boot) v.disk buffer 0 (starts v.boot clusters) := by
  have gathered (clusters : List Nat) (buffer : Memory) (offset : Nat) :
      (clusters.foldl (fun s x => (readTurn v s x).1) (buffer, offset)).1 =
        gather (clusterBytes v.boot) v.disk buffer offset (starts v.boot clusters) := by
    induction clusters generalizing buffer offset with
    | nil => rfl
    | cons _ rest ih => exact ih _ _
  have onward (s : Memory × Nat) (x : Nat) : (readTurn v s x).2 = fatGetNextCluster v.boot v.disk x := rfl
  rw [fatReadClusterChain, chainLoop_eq onward, chain, Option.map_map]
  congr 1
  funext clusters
  exact gathered clusters buffer 0

theorem readDirectory_eq (v : Volume) (directory : Nat) :
    readDirectory v directory = (chain v directory).map fun clusters =>
      (gather (clusterBytes v.boot) v.disk (fun _ => 0) 0 (starts v.boot clusters),
        clusters.length * v.boot.clusterSize * 512 / 32) := by
  rw [readDirectory, fatChainClusterLength_eq, fatReadClusterChain_eq]
  cases chain v directory <;> rfl

/-! ### Where things are -/

theorem entryAddress_eq (boot : Boot) (small : cluster < 2 ^ 28) :
    entryAddress boot cluster = boot.reservedSectors * 512 + cluster * 4 := by
  grind [entryAddress]

theorem clusterAddress_eq (boot : Boot) (low : 2 ≤ cluster) (small : cluster < 2 ^ 28) :
    clusterAddress boot cluster = (cluster - 2) * clusterBytes boot +
      (boot.reservedSectors + boot.tableCount * boot.tableSize) * 512 := by
  rw [clusterAddress, fatClusterToSector, clusterBytes,
    show (cluster + 2 ^ 32 - 2) % 2 ^ 32 = cluster - 2 by omega, Nat.add_assoc, Nat.add_mul, Nat.mul_assoc]

theorem entry_before_data {boot : Boot} (tables : 1 ≤ boot.tableCount)
    (inside : cluster < 128 * boot.tableSize) (small : cluster < 2 ^ 28) (other : inChain data = true) :
    entryAddress boot cluster + 4 ≤ clusterAddress boot data := by
  obtain ⟨low, high⟩ := inChain_iff.mp other
  have table : boot.tableSize ≤ boot.tableCount * boot.tableSize := Nat.le_mul_of_pos_left _ tables
  grind [entryAddress_eq, clusterAddress_eq]

theorem clusters_disjoint (boot : Boot) (one : x < 2 ^ 32) (other : y < 2 ^ 32) (different : x ≠ y) :
    clusterAddress boot x + clusterBytes boot ≤ clusterAddress boot y ∨
      clusterAddress boot y + clusterBytes boot ≤ clusterAddress boot x := by
  have place (cluster : Nat) : clusterAddress boot cluster = (cluster + 2 ^ 32 - 2) % 2 ^ 32 *
      clusterBytes boot + (boot.reservedSectors + boot.tableCount * boot.tableSize) * 512 := by
    grind [clusterAddress, fatClusterToSector, clusterBytes]
  have step {a b : Nat} (earlier : a < b) :
      a * clusterBytes boot + clusterBytes boot ≤ b * clusterBytes boot := by
    rw [← Nat.succ_mul]
    exact Nat.mul_le_mul_right _ earlier
  rw [place, place]
  rcases Nat.lt_or_gt_of_ne (by omega : (x + 2 ^ 32 - 2) % 2 ^ 32 ≠ (y + 2 ^ 32 - 2) % 2 ^ 32) with less | more
  · have := step less
    omega
  · have := step more
    omega

theorem clusters_apart (boot : Boot) (one : inChain x = true) (other : inChain y = true)
    (different : x ≠ y) :
    clusterAddress boot x + clusterBytes boot ≤ clusterAddress boot y ∨
      clusterAddress boot y + clusterBytes boot ≤ clusterAddress boot x := by
  have small := inChain_iff.mp one
  have small' := inChain_iff.mp other
  exact clusters_disjoint boot (by omega) (by omega) different

theorem starts_disjoint (boot : Boot) (live : ∀ x ∈ clusters, inChain x = true)
    (nodup : clusters.Nodup) : Disjoint (clusterBytes boot) (starts boot clusters) := by
  induction clusters with
  | nil => exact List.Pairwise.nil
  | cons first rest ih =>
    obtain ⟨fresh, nodup⟩ := List.nodup_cons.mp nodup
    refine List.pairwise_cons.mpr
      ⟨fun start member => ?_, ih (fun x member => live x (List.mem_cons_of_mem _ member)) nodup⟩
    obtain ⟨x, listed, rfl⟩ := List.mem_map.mp member
    exact clusters_apart boot (live first List.mem_cons_self) (live x (List.mem_cons_of_mem _ listed))
      fun same => fresh (same ▸ listed)

theorem length_starts (boot : Boot) (clusters : List Nat) :
    (starts boot clusters).length = clusters.length :=
  List.length_map _

theorem clusterBytes_pos (inside : k < count * clusterBytes boot) : 0 < clusterBytes boot :=
  Nat.pos_of_ne_zero fun zero => by
    rw [zero, Nat.mul_zero] at inside
    exact Nat.not_lt_zero k inside

theorem chainPlace_injective (ran : chain v cluster = some clusters)
    (inside : k < clusters.length * clusterBytes v.boot)
    (inside' : k' < clusters.length * clusterBytes v.boot)
    (same : chainPlace v.boot clusters k = chainPlace v.boot clusters k') : k = k' := by
  rw [← length_starts v.boot] at inside inside'
  exact place_injective (clusterBytes_pos inside)
    (starts_disjoint v.boot (walk_live ran) (walk_nodup ran)) inside inside' same

theorem chainPlace_in_cluster (boot : Boot) (inside : k < clusters.length * clusterBytes boot) :
    ∃ x ∈ clusters, clusterAddress boot x ≤ chainPlace boot clusters k ∧
      chainPlace boot clusters k < clusterAddress boot x + clusterBytes boot := by
  rw [← length_starts boot] at inside
  obtain ⟨start, member, bounds⟩ := place_in_block (clusterBytes_pos inside) inside
  obtain ⟨x, listed, rfl⟩ := List.mem_map.mp member
  exact ⟨x, listed, bounds⟩

/-- The clusters are within the table. -/
def OnTable (boot : Boot) (clusters : List Nat) : Prop := ∀ x ∈ clusters, x < 128 * boot.tableSize

instance (boot : Boot) (clusters : List Nat) : Decidable (OnTable boot clusters) :=
  inferInstanceAs (Decidable (∀ x ∈ clusters, _))

theorem fatGetNextCluster_congr (boot : Boot)
    (same : ∀ k < 4, disk (entryAddress boot cluster + k) = disk' (entryAddress boot cluster + k)) :
    fatGetNextCluster boot disk cluster = fatGetNextCluster boot disk' cluster := by
  rw [fatGetNextCluster, fatGetNextCluster, halfWord_congr same]

theorem fatGetNextCluster_mod (boot : Boot) (disk : Memory) (cluster : Nat) :
    fatGetNextCluster boot disk cluster % 256 = (disk (entryAddress boot cluster)).toNat := by
  simp [fatGetNextCluster, halfWord_mod]

theorem fatGetNextCluster_lt (boot : Boot) (disk : Memory) (cluster : Nat) :
    fatGetNextCluster boot disk cluster < 2 ^ 28 :=
  Nat.mod_lt _ (by decide)

/-! ### Writing a chain -/

private theorem writeLoop_along {boot : Boot} {next : Nat → Nat} {disk : Memory}
    (walked : walk next inChain turns cluster = some clusters) (buffer : Memory)
    (kept : ∀ n, ∀ x ∈ clusters, fatGetNextCluster boot (scatter (clusterBytes boot) buffer disk offset
      (starts boot (clusters.take n))) x = next x) :
    chainLoop (writeTurn boot buffer) turns (disk, offset) cluster =
      some (scatter (clusterBytes boot) buffer disk offset (starts boot clusters),
        offset + clusters.length * clusterBytes boot) := by
  induction clusters generalizing turns cluster disk offset with
  | nil =>
    have dead := walk_nil walked
    cases turns <;> simp [chainLoop, dead, starts, scatter]
  | cons first rest ih =>
    obtain ⟨rfl, alive, fewer, rfl, later⟩ := walk_cons walked
    have onward : (writeTurn boot buffer (disk, offset) cluster).2 = next cluster :=
      kept 1 cluster List.mem_cons_self
    rw [chainLoop, if_pos alive, onward, List.length_cons, Nat.succ_mul,
      Nat.add_comm (rest.length * _), ← Nat.add_assoc]
    exact ih later fun n x member => kept (n + 1) x (List.mem_cons_of_mem _ member)

theorem fatWriteClusterChain_links (ran : chain v cluster = some clusters) (buffer : Memory)
    (kept : ∀ n, ∀ x ∈ clusters, fatGetNextCluster v.boot (scatter (clusterBytes v.boot) buffer v.disk 0
      (starts v.boot (clusters.take n))) x = fatGetNextCluster v.boot v.disk x) :
    fatWriteClusterChain v buffer cluster = some { v with
      disk := scatter (clusterBytes v.boot) buffer v.disk 0 (starts v.boot clusters) } := by
  rw [fatWriteClusterChain, writeLoop_along ran buffer kept, Option.map_some]

theorem fatWriteClusterChain_eq (tables : 1 ≤ v.boot.tableCount) (ran : chain v cluster = some clusters)
    (inside : OnTable v.boot clusters) (buffer : Memory) :
    fatWriteClusterChain v buffer cluster = some { v with
      disk := scatter (clusterBytes v.boot) buffer v.disk 0 (starts v.boot clusters) } := by
  have live := walk_live ran
  refine fatWriteClusterChain_links ran buffer fun n x member => ?_
  refine fatGetNextCluster_congr v.boot fun k few => scatter_outside fun start written => ?_
  obtain ⟨y, listed, rfl⟩ := List.mem_map.mp written
  have small := inChain_iff.mp (live x member)
  have before := entry_before_data tables (inside x member) (by omega) (live y (List.mem_of_mem_take listed))
  omega

theorem fatSetDirEntry_boot (set : fatSetDirEntry v directory index entry = some v') : v'.boot = v.boot := by
  simp only [fatSetDirEntry, bind_returns, Prod.exists] at set
  obtain ⟨_, _, _, set⟩ := set
  split at set
  · cases set
    rfl
  · obtain ⟨_, _, rfl⟩ := Option.map_eq_some_iff.mp set
    rfl

theorem fatSetDirEntry_tables (before : ∀ data, inChain data = true → adr < clusterAddress v.boot data)
    (set : fatSetDirEntry v directory index entry = some v') : v'.disk adr = v.disk adr := by
  simp only [fatSetDirEntry, bind_returns, Prod.exists] at set
  obtain ⟨entries, size, _, set⟩ := set
  split at set
  · cases set
    rfl
  · obtain ⟨s, looped, rfl⟩ := Option.map_eq_some_iff.mp set
    have kept := @chainLoop_keeps _ _ _ (writeTurn v.boot (copy entries (index * 32) 32 entry))
      (fun s => s.1 adr = v.disk adr) (v.disk, 0) s (by
        intro s x alive same
        have low := before x alive
        simp only [writeTurn, fatWriteCluster, copy]
        rw [if_neg (by omega), same]) rfl looped
    exact kept

theorem fatSetDirEntry_frame (tables : 1 ≤ v.boot.tableCount)
    (ran : chain v (orRoot v.boot directory) = some clusters) (inside : OnTable v.boot clusters)
    (set : fatSetDirEntry v directory index entry = some v') :
    v'.boot = v.boot ∧ ∀ adr, (∀ start ∈ starts v.boot clusters,
      adr < start ∨ start + clusterBytes v.boot ≤ adr) → v'.disk adr = v.disk adr := by
  simp only [fatSetDirEntry, readDirectory_eq, ran, Option.map_some, bind_returned] at set
  split at set
  · cases set
    exact ⟨rfl, fun _ _ => rfl⟩
  · rw [fatWriteClusterChain_eq tables ran inside, Option.some.injEq] at set
    subst set
    simp_all [scatter_outside]

theorem chainPlace_entry (boot : Boot) (clusters : List Nat) (index : Nat) (few : k < 32) :
    chainPlace boot clusters (index * 32 + k) = chainPlace boot clusters (index * 32) + k := by
  obtain ⟨slots, width⟩ : ∃ slots, clusterBytes boot = 32 * slots := ⟨boot.clusterSize * 16, by
    rw [clusterBytes]
    omega⟩
  have block : (index * 32 + k) / 32 = index := by omega
  have first : index * 32 / 32 = index := by omega
  rw [chainPlace, chainPlace, place, place, width, ← Nat.div_div_eq_div_mul, ← Nat.div_div_eq_div_mul,
    Nat.mod_mul, Nat.mod_mul, block, first]
  omega

theorem chainPlace_take (boot : Boot) (inside : k < (clusters.take n).length * clusterBytes boot) :
    chainPlace boot (clusters.take n) k = chainPlace boot clusters k := by
  have early : k / clusterBytes boot < ((clusters.take n).map (clusterAddress boot)).length := by
    rw [List.length_map]
    exact Nat.div_lt_of_lt_mul (Nat.mul_comm _ _ ▸ inside)
  conv_rhs => rw [← List.take_append_drop n clusters]
  rw [chainPlace, chainPlace, place, place, starts, starts, List.map_append, List.getD_append _ _ _ _ early]

theorem copy_entry_place (ran : chain v head = some clusters)
    (listed : index * 32 + 32 ≤ clusters.length * clusterBytes v.boot)
    (inside : k < clusters.length * clusterBytes v.boot) (entry : DirEntry) :
    copy v.disk (chainPlace v.boot clusters (index * 32)) 32 entry (chainPlace v.boot clusters k) =
      copy (gather (clusterBytes v.boot) v.disk (fun _ => 0) 0 (starts v.boot clusters)) (index * 32) 32 entry k := by
  by_cases here : index * 32 ≤ k ∧ k < index * 32 + 32
  · obtain ⟨few, rfl⟩ : ∃ few, k = index * 32 + few := ⟨k - index * 32, by omega⟩
    simp_all [chainPlace_entry, copy]
  · have elsewhere : ¬ (chainPlace v.boot clusters (index * 32) ≤ chainPlace v.boot clusters k ∧
        chainPlace v.boot clusters k < chainPlace v.boot clusters (index * 32) + 32) := by
      intro covered
      have same := chainPlace_entry v.boot clusters index
        (k := chainPlace v.boot clusters k - chainPlace v.boot clusters (index * 32)) (by omega)
      rw [Nat.add_sub_cancel' covered.1] at same
      have equal := chainPlace_injective ran (by omega) inside same
      omega
    rw [copy, if_neg elsewhere, copy, if_neg here]
    exact (gather_place (clusterBytes_pos inside) (by rwa [length_starts]) v.disk _).symm

theorem scatter_entry (ran : chain v head = some clusters)
    (listed : index * 32 + 32 ≤ clusters.length * clusterBytes v.boot) (entry : DirEntry) (n : Nat) :
    scatter (clusterBytes v.boot) (copy (gather (clusterBytes v.boot) v.disk (fun _ => 0) 0
      (starts v.boot clusters)) (index * 32) 32 entry) v.disk 0 (starts v.boot (clusters.take n)) =
      if index * 32 < (clusters.take n).length * clusterBytes v.boot then
        copy v.disk (chainPlace v.boot clusters (index * 32)) 32 entry
      else v.disk := by
  have positive := clusterBytes_pos (show index * 32 < clusters.length * clusterBytes v.boot by omega)
  have disjoint := starts_disjoint v.boot
    (fun x member => walk_live ran x (List.mem_of_mem_take member : x ∈ clusters))
    ((List.take_sublist n clusters).nodup (walk_nodup ran))
  have fewer : (clusters.take n).length * clusterBytes v.boot ≤ clusters.length * clusterBytes v.boot :=
    Nat.mul_le_mul_right _ (List.length_take_le' n clusters)
  refine scatter_eq positive disjoint (fun k within => ?_) fun adr outside => ?_
  · rw [length_starts] at within
    rw [show place (starts v.boot (clusters.take n)) (clusterBytes v.boot) k = chainPlace v.boot clusters k from
      chainPlace_take v.boot within]
    split
    · grind [copy_entry_place]
    · rw [copy, if_neg (by omega)]
      have early : k < (starts v.boot clusters).length * clusterBytes v.boot := by
        rw [length_starts]
        omega
      exact (gather_place positive early v.disk _).symm
  · split
    · rename_i reached
      -- an entry does not go beyond the end of its cluster
      have whole : index * 32 + 32 ≤ (clusters.take n).length * clusterBytes v.boot := by
        rw [clusterBytes, ← Nat.mul_assoc] at reached ⊢
        omega
      rw [copy, if_neg]
      intro covered
      obtain ⟨x, member, low, high⟩ := chainPlace_in_cluster v.boot (k := index * 32 + (adr -
        chainPlace v.boot clusters (index * 32))) (show _ < (clusters.take n).length * _ by omega)
      rw [chainPlace_take v.boot (by omega), chainPlace_entry _ _ _ (by omega)] at low high
      have apart := outside _ (List.mem_map_of_mem member)
      omega
    · rfl

theorem fatSetDirEntry_links (ran : chain v (orRoot v.boot directory) = some clusters)
    (listed : index * 32 + 32 ≤ clusters.length * clusterBytes v.boot) (entry : DirEntry)
    (kept : ∀ x ∈ clusters, fatGetNextCluster v.boot
      (copy v.disk (chainPlace v.boot clusters (index * 32)) 32 entry) x =
        fatGetNextCluster v.boot v.disk x) :
    fatSetDirEntry v directory index entry = some { v with
      disk := copy v.disk (chainPlace v.boot clusters (index * 32)) 32 entry } := by
  have fits : ¬ index > clusters.length * v.boot.clusterSize * 512 / 32 := by
    rw [Nat.mul_assoc, show v.boot.clusterSize * 512 = clusterBytes v.boot from rfl]
    omega
  have written := scatter_entry ran listed entry
  have all := written clusters.length
  rw [List.take_length, if_pos (by omega)] at all
  simp only [fatSetDirEntry, readDirectory_eq, ran, Option.map_some, bind_returned, fits, if_false]
  grind [fatWriteClusterChain_links]

theorem fatSetDirEntry_eq (tables : 1 ≤ v.boot.tableCount)
    (ran : chain v (orRoot v.boot directory) = some clusters) (inside : OnTable v.boot clusters)
    (listed : index * 32 + 32 ≤ clusters.length * clusterBytes v.boot) (entry : DirEntry) :
    fatSetDirEntry v directory index entry = some { v with
      disk := copy v.disk (chainPlace v.boot clusters (index * 32)) 32 entry } := by
  have live := walk_live ran
  refine fatSetDirEntry_links ran listed entry fun x member => fatGetNextCluster_congr v.boot fun k few => ?_
  have first := chainPlace_in_cluster v.boot
    (show index * 32 < clusters.length * clusterBytes v.boot by omega)
  obtain ⟨y, listed, low, -⟩ := first
  have small := inChain_iff.mp (live x member)
  have before := entry_before_data tables (inside x member) (by omega) (live y listed)
  rw [copy, if_neg (by omega)]

theorem fatSetDirEntry_behind (ran : chain v (orRoot v.boot directory) = some clusters)
    (positive : 0 < clusterBytes v.boot) (behind : clusters.length * clusterBytes v.boot ≤ index * 32)
    (entry : DirEntry) : fatSetDirEntry v directory index entry = some v := by
  have same (n : Nat) : scatter (clusterBytes v.boot) (copy (gather (clusterBytes v.boot) v.disk (fun _ => 0) 0
      (starts v.boot clusters)) (index * 32) 32 entry) v.disk 0 (starts v.boot (clusters.take n)) = v.disk := by
    refine scatter_eq positive (starts_disjoint v.boot
      (fun x member => walk_live ran x (List.mem_of_mem_take member : x ∈ clusters))
      ((List.take_sublist n clusters).nodup (walk_nodup ran))) (fun k within => ?_) fun _ _ => rfl
    have fewer : (clusters.take n).length * clusterBytes v.boot ≤ clusters.length * clusterBytes v.boot :=
      Nat.mul_le_mul_right _ (List.length_take_le' n clusters)
    rw [length_starts] at within
    have early : k < (starts v.boot clusters).length * clusterBytes v.boot := by
      rw [length_starts]
      omega
    rw [copy, if_neg (by omega), gather_place positive early]
    exact congrArg v.disk (chainPlace_take v.boot within)
  have all := same clusters.length
  rw [List.take_length] at all
  simp only [fatSetDirEntry, readDirectory_eq, ran, Option.map_some, bind_returned]
  simp_all [fatWriteClusterChain_links]

theorem fatSetDirEntry_first (tables : 1 ≤ v.boot.tableCount)
    (ran : chain v (orRoot v.boot directory) = some clusters) (inside : OnTable v.boot clusters)
    (listed : index * 32 + 32 ≤ clusters.length * clusterBytes v.boot)
    (same : ∀ k < 32, entry k = v.disk (chainPlace v.boot clusters (index * 32 + k))) (byte : BitVec 8) :
    fatSetDirEntry v directory index (Function.update entry 0 byte) = some { v with
      disk := Function.update v.disk (chainPlace v.boot clusters (index * 32)) byte } := by
  rw [fatSetDirEntry_eq tables ran inside listed]
  congr 2
  funext adr
  generalize origin : chainPlace v.boot clusters (index * 32) = start
  rw [copy]
  split
  · rename_i covered
    by_cases first : adr = start
    · simp_all
    · rw [Function.update_of_ne (by omega), Function.update_of_ne first, same _ (by omega),
        chainPlace_entry _ _ _ (by omega), origin, Nat.add_sub_cancel' covered.1]
  · grind

theorem fatFreeChainFrom_zero (ran : fatFreeChainFrom boot turns disk cluster = some disk')
    (zero : disk adr = 0) : disk' adr = 0 := by
  induction turns generalizing disk cluster with
  | zero => cases ran
  | succ turns ih =>
    rw [fatFreeChainFrom] at ran
    split at ran
    · cases ran
      exact zero
    · refine ih ran ?_
      simp_all [fatChangeFatValue, Function.update_apply]

theorem entryAddress_mod (boot : Boot) (cluster : Nat) :
    entryAddress boot cluster = boot.reservedSectors * 512 + cluster % 2 ^ 30 * 4 := by
  rw [entryAddress]
  omega

theorem fatGetNextCluster_change_other (boot : Boot) (disk : Memory) (value : Nat)
    (other : x % 2 ^ 30 ≠ cluster % 2 ^ 30) :
    fatGetNextCluster boot (fatChangeFatValue boot disk cluster value) x =
      fatGetNextCluster boot disk x := by
  refine fatGetNextCluster_congr boot fun k few => ?_
  rw [fatChangeFatValue, entryAddress_mod, entryAddress_mod]
  exact Function.update_of_ne (by omega) _ _

theorem fatChangeFatValue_other (boot : Boot) (disk : Memory) (value : Nat) (one : inChain x = true)
    (other : inChain y = true) (different : y ≠ x) :
    fatGetNextCluster boot (fatChangeFatValue boot disk x value) y = fatGetNextCluster boot disk y := by
  have small := inChain_iff.mp one
  grind [inChain_iff, fatGetNextCluster_change_other]

theorem fatFreeChainFrom_cleared
    (walked : walk (fatGetNextCluster boot disk) inChain steps cluster = some clusters)
    (ran : fatFreeChainFrom boot turns disk cluster = some disk') :
    ∀ x ∈ clusters, fatGetNextCluster boot disk x ≠ 0 → fatGetNextCluster boot disk x ≠ 0xffffff8 →
      disk' (entryAddress boot x) = 0 := by
  induction clusters generalizing steps turns disk cluster with
  | nil => exact fun x member => absurd member List.not_mem_nil
  | cons first rest ih =>
    obtain ⟨rfl, alive, _, _, onward⟩ := walk_cons walked
    have live := walk_live onward
    have fresh := (List.nodup_cons.mp (walk_nodup walked)).1
    intro x member zero mark
    cases turns with
    | zero => cases ran
    | succ turns =>
      rw [fatFreeChainFrom] at ran
      split at ran
      · -- The loop stops at the last cluster of the chain, which is excepted.
        rename_i stops
        have dead : inChain (fatGetNextCluster boot disk cluster) = false := by
          rcases stops with stops | stops <;> rw [stops] <;> decide
        simp_all [walk_dead]
      · have same (x : Nat) (member : x ∈ rest) :
            fatGetNextCluster boot (fatChangeFatValue boot disk cluster 0) x =
              fatGetNextCluster boot disk x :=
          fatChangeFatValue_other boot disk 0 alive (live x member) fun here => fresh (here ▸ member)
        rcases List.mem_cons.mp member with rfl | member
        · refine fatFreeChainFrom_zero ran ?_
          simp [fatChangeFatValue]
        · rw [← same x member] at zero mark
          exact ih (walk_congr onward same) ran x member zero mark

theorem fatFreeChainFrom_same
    (walked : walk (fatGetNextCluster boot disk) inChain steps cluster = some clusters)
    (alive : inChain cluster = true) (enough : clusters.length ≤ turns)
    (clear : ∀ x ∈ clusters, fatGetNextCluster boot disk x = 0xffffff8 ∨
      fatGetNextCluster boot disk x % 256 = 0) :
    fatFreeChainFrom boot turns disk cluster = some disk := by
  induction clusters generalizing steps turns cluster with
  | nil =>
    rw [walk_nil walked] at alive
    cases alive
  | cons first rest ih =>
    obtain ⟨rfl, _, _, _, onward⟩ := walk_cons walked
    cases turns with
    | zero => exact absurd enough (Nat.not_succ_le_zero _)
    | succ turns =>
      rw [fatFreeChainFrom]
      split
      · rfl
      · rename_i goes
        have low := (clear cluster List.mem_cons_self).resolve_left fun mark => goes (Or.inr mark)
        have zero : disk (entryAddress boot cluster) = 0 := by
          rw [fatGetNextCluster_mod] at low
          exact BitVec.eq_of_toNat_eq low
        have unchanged : fatChangeFatValue boot disk cluster 0 = disk :=
          Function.update_eq_self_iff.mpr zero.symm
        have bound := fatGetNextCluster_lt boot disk cluster
        rw [unchanged]
        refine ih onward (inChain_iff.mpr ?_) (Nat.le_of_succ_le_succ enough)
          fun x member => clear x (List.mem_cons_of_mem _ member)
        omega

end MandelbrotOS.FatChains
