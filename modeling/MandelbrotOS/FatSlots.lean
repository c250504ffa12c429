import MandelbrotOS.FatNames

/-! What the calls that make an entry do to a volume, told by what they change:
the entries of the directory, the bytes of the new cluster and its entry in the
table. -/
namespace MandelbrotOS.FatSlots
open Blocks ByteMemory Fat FatAlloc FatChains FatCreate FatFiles FatLookup FatNames FatPaths Walks

/-! ### The places of a directory -/

/-- The number of entries there is room for. -/
def slotCount (boot : Boot) (clusters : List Nat) : Nat := clusters.length * boot.clusterSize * 512 / 32

/-- The entry in a place of a directory. -/
def slot (v : Volume) (clusters : List Nat) (i : Nat) : DirEntry := fun k =>
  v.disk (chainPlace v.boot clusters (i * 32) + k)

theorem slotCount_spec (boot : Boot) (clusters : List Nat) :
    i < slotCount boot clusters ↔ i * 32 + 32 ≤ clusters.length * clusterBytes boot := by
  rw [slotCount, Nat.mul_assoc, show boot.clusterSize * 512 = clusterBytes boot from rfl, clusterBytes,
    ← Nat.mul_assoc]
  omega

theorem slot_in_cluster (few : i < slotCount boot clusters) (part : k < 32) :
    ∃ x ∈ clusters, clusterAddress boot x ≤ chainPlace boot clusters (i * 32) + k ∧
      chainPlace boot clusters (i * 32) + k < clusterAddress boot x + clusterBytes boot := by
  have fits := (slotCount_spec boot clusters).mp few
  rw [← chainPlace_entry boot clusters i part]
  exact chainPlace_in_cluster boot (by omega)

theorem chainPlace_append (few : i < slotCount boot clusters) (more : List Nat) :
    chainPlace boot (clusters ++ more) (i * 32) = chainPlace boot clusters (i * 32) := by
  grind [slotCount_spec, chainPlace, place, starts, Nat.div_lt_of_lt_mul]

theorem slotCount_append (few : i < slotCount boot clusters) (more : List Nat) :
    i < slotCount boot (clusters ++ more) := by
  rw [slotCount_spec] at few ⊢
  rw [List.length_append, Nat.add_mul]
  omega

theorem slots_apart {boot : Boot} (live : ∀ x ∈ clusters, inChain x = true) (nodup : clusters.Nodup)
    (few : i < slotCount boot clusters) (few' : j < slotCount boot clusters) (part : k < 32) (part' : k' < 32)
    (same : chainPlace boot clusters (i * 32) + k = chainPlace boot clusters (j * 32) + k') : i = j := by
  have fits := (slotCount_spec boot clusters).mp few
  have fits' := (slotCount_spec boot clusters).mp few'
  rw [← chainPlace_entry _ _ _ part, ← chainPlace_entry _ _ _ part'] at same
  rw [← length_starts boot] at fits fits'
  have inside : i * 32 + k < (starts boot clusters).length * clusterBytes boot := by omega
  have equal := place_injective (clusterBytes_pos inside) (starts_disjoint boot live nodup) inside
    (show j * 32 + k' < (starts boot clusters).length * clusterBytes boot by omega) same
  omega

theorem slot_elsewhere {boot : Boot} (few : i < slotCount boot clusters)
    (outside : ∀ x ∈ clusters, adr < clusterAddress boot x ∨ clusterAddress boot x + clusterBytes boot ≤ adr) :
    adr < chainPlace boot clusters (i * 32) ∨ chainPlace boot clusters (i * 32) + 32 ≤ adr := by
  by_contra inside
  obtain ⟨x, member, low, high⟩ := slot_in_cluster few
    (show adr - chainPlace boot clusters (i * 32) < 32 by omega)
  have apart := outside x member
  omega

/-- A volume with an entry stored in a place. -/
def stored (v : Volume) (clusters : List Nat) (i : Nat) (entry : DirEntry) : Volume :=
  { v with disk := copy v.disk (chainPlace v.boot clusters (i * 32)) 32 entry }

theorem stored_outside (few : i < slotCount v.boot clusters) (outside : ∀ x ∈ clusters,
    adr < clusterAddress v.boot x ∨ clusterAddress v.boot x + clusterBytes v.boot ≤ adr) :
    (stored v clusters i entry).disk adr = v.disk adr := copy_apart (slot_elsewhere few outside)

theorem slot_stored (live : ∀ x ∈ clusters, inChain x = true) (nodup : clusters.Nodup)
    (few : i < slotCount v.boot clusters) (few' : j < slotCount v.boot clusters) (part : k < 32)
    (entry : DirEntry) :
    slot (stored v clusters i entry) clusters j k = Function.update (slot v clusters) i entry j k := by
  rw [slot, stored, Function.update_apply]
  dsimp only
  split
  · rename_i same
    simp_all [copy]
  · rename_i other
    rw [copy, if_neg, slot]
    intro inside
    have part' : chainPlace v.boot clusters (j * 32) + k - chainPlace v.boot clusters (i * 32) < 32 := by
      omega
    exact other (slots_apart live nodup few' few part part' (Nat.add_sub_cancel' inside.1).symm)

theorem readDirectory_slots (walked : chain v head = some clusters) :
    ∃ buffer, readDirectory v head = some (buffer, slotCount v.boot clusters) ∧
      ∀ i < slotCount v.boot clusters, ∀ k < 32, entryOf buffer i k = slot v clusters i k := by
  refine ⟨_, by rw [readDirectory_eq, walked]; rfl, fun i few k part => ?_⟩
  have fits := (slotCount_spec v.boot clusters).mp few
  have inside : i * 32 + k < (starts v.boot clusters).length * clusterBytes v.boot := by
    rw [length_starts]
    omega
  rw [entryOf, gather_place (clusterBytes_pos inside) inside, slot, ← chainPlace_entry _ _ _ part]
  rfl

theorem readDirectory_congr (walked : chain v head = some clusters) (walked' : chain v' head = some clusters)
    (boot : v'.boot = v.boot) (same : ∀ x ∈ clusters, ∀ k < clusterBytes v.boot,
      v'.disk (clusterAddress v.boot x + k) = v.disk (clusterAddress v.boot x + k)) :
    readDirectory v' head = readDirectory v head := by
  rw [readDirectory_eq, readDirectory_eq, walked, walked', boot]
  refine congrArg (fun buffer => some (buffer, slotCount v.boot clusters)) (gather_congr ?_ _ _)
  intro start member
  obtain ⟨x, listed, rfl⟩ := List.mem_map.mp member
  exact same x listed

/-! ### Entries by their 32 bytes -/

section
variable {entry other : DirEntry}

theorem live_congr (same : ∀ k < 32, entry k = other k) : live entry = live other := by
  rw [live, live, same 0 (by decide)]

theorem sameBytes_congr (same : ∀ k < n, one k = one' k) (same' : ∀ k < n, other k = other' k) :
    sameBytes one other n = sameBytes one' other' n := by
  rw [sameBytes, sameBytes, Bool.eq_iff_iff, List.all_eq_true, List.all_eq_true]
  simp_all

theorem bears_congr (name : FileName) (same : ∀ k < 32, entry k = other k) :
    bears name entry = bears name other := by
  rw [bears, bears, live_congr same, sameBytes_congr (fun _ _ => rfl) fun k few => same k (by omega)]

theorem clusterNo_congr (same : ∀ k < 32, entry k = other k) : entry.clusterNo = other.clusterNo := by
  simp_all [DirEntry.clusterNo]

end

/-! ### Marks in the table -/

/-- A volume with an end mark stored at a cluster: the low byte becomes `0xf8`. -/
def marked (v : Volume) (x : Nat) : Volume :=
  { v with disk := Function.update v.disk (entryAddress v.boot x) 0xf8 }

/-- The byte that a mark would store is there already. -/
def Low (v : Volume) (x : Nat) : Prop := v.disk (entryAddress v.boot x) = 0xf8

instance (v : Volume) (x : Nat) : Decidable (Low v x) := inferInstanceAs (Decidable (_ = _))

theorem marked_other (other : adr ≠ entryAddress v.boot x) : (marked v x).disk adr = v.disk adr :=
  Function.update_of_ne other _ _

theorem marked_low (low : Low v x) : marked v x = v := by
  have same : Function.update v.disk (entryAddress v.boot x) 0xf8 = v.disk := by
    rw [← show v.disk (entryAddress v.boot x) = 0xf8 from low]
    exact Function.update_eq_self _ _
  rw [marked, same]

theorem fatFindFreeClusterChain_one (proper : Proper v.boot) :
    fatFindFreeClusterChain v 1 = (fatFindFreeCluster v, marked v (fatFindFreeCluster v)) := by
  obtain ⟨⟨positive, small⟩, -⟩ := proper
  have bytes : 0 < v.boot.clusterSize * 512 := by omega
  have rounds : (1 + (v.boot.clusterSize * 512 - 1)) % 2 ^ 64 / (v.boot.clusterSize * 512) = 1 := by
    grind [Nat.div_self]
  rw [fatFindFreeClusterChain, rounds]
  rfl

theorem fatGetFreeDirEntryChain_one (found : fatGetFreeDirEntry v directory = some i) :
    fatGetFreeDirEntryChain v directory 1 = some (i, marked v i) := by
  have turn : entryTurn directory ⟨v, 0, 0⟩ = some ⟨v, i, i⟩ := by
    rw [entryTurn, found]
    rfl
  rw [fatGetFreeDirEntryChain, show List.range 1 = [0] from rfl, List.foldlM_cons, turn]
  rfl

theorem search_of_chain (found : fatGetFreeDirEntryChain v directory 1 = some (i, w)) :
    fatGetFreeDirEntry v directory = some i ∧ w = marked v i := by
  cases search : fatGetFreeDirEntry v directory with
  | none =>
    rw [fatGetFreeDirEntryChain, show List.range 1 = [0] from rfl, List.foldlM_cons, entryTurn, search] at found
    cases found
  | some j =>
    rw [fatGetFreeDirEntryChain_one search] at found
    cases found
    exact ⟨rfl, rfl⟩

section
variable (walked : chain v (orRoot v.boot directory) = some clusters)
include walked

theorem fatGetFreeDirEntry_slots : fatGetFreeDirEntry v directory = some
      (((List.range (slotCount v.boot clusters)).find? fun j => !live (slot v clusters j)).elim notFound (· % 2 ^ 32)) := by
  obtain ⟨buffer, read, bytes⟩ := readDirectory_slots walked
  have dead (j : Nat) (member : j ∈ List.range (slotCount v.boot clusters)) :
      (entryOf buffer j 0 == 0 || entryOf buffer j 0 == 0xe5) = !live (slot v clusters j) := by
    simp_all [live, bne]
  rw [fatGetFreeDirEntry, read, ← List.find?_congr dead, Option.bind_eq_bind, Option.bind_some]
  grind

theorem fatGetFreeDirEntry_slot (few : i < slotCount v.boot clusters) (small : i < 2 ^ 32) (free : live (slot v clusters i) = false)
    (first : ∀ j < i, live (slot v clusters j) = true) : fatGetFreeDirEntry v directory = some i := by
  have found : (List.range (slotCount v.boot clusters)).find? (fun j => !live (slot v clusters j)) = some i := by
    simp_all
  rw [fatGetFreeDirEntry_slots walked, found]
  exact congrArg some (Nat.mod_eq_of_lt small)

theorem fatGetFreeDirEntry_full (full : ∀ i < slotCount v.boot clusters, live (slot v clusters i) = true) :
    fatGetFreeDirEntry v directory = some notFound := by
  have missed : (List.range (slotCount v.boot clusters)).find? (fun j => !live (slot v clusters j)) = none := by
    simp_all
  rw [fatGetFreeDirEntry_slots walked, missed]
  rfl

end

/-! ### Sound volumes -/

/-- A volume with a tree of directories that own their clusters: the links of
the table stay in it, and the first two of its entries are not free. The bounds
are those of FAT32: at least 65525 clusters, at most 65536 entries a directory. -/
structure Sound (v : Volume) (directories : List Nat) (depth : Nat → Nat) : Prop where
  proper : Proper v.boot
  tables : 1 ≤ v.boot.tableCount
  small : entries v.boot ≤ 0xffffff7
  large : 65525 + 2 ≤ entries v.boot
  reserved : ∀ x < 2, tableOf v.boot v.disk x ≠ 0
  links : ∀ x < entries v.boot, inChain (tableOf v.boot v.disk x % 2 ^ 28) = true →
    tableOf v.boot v.disk x % 2 ^ 28 < entries v.boot
  tree : Tree v directories depth
  taken : ∀ d ∈ directories, ∀ clusters, chain v d = some clusters →
    ∀ x ∈ clusters, x < entries v.boot ∧ tableOf v.boot v.disk x ≠ 0
  apart : ∀ d ∈ directories, ∀ d' ∈ directories, d ≠ d' → ∀ clusters clusters',
    chain v d = some clusters → chain v d' = some clusters' → ∀ x ∈ clusters, x ∉ clusters'
  sizes : ∀ d ∈ directories, ∀ clusters, chain v d = some clusters → slotCount v.boot clusters ≤ 65536

/-- A directory of a sound volume, and the first free cluster. -/
structure Spot (v : Volume) (directories : List Nat) (depth : Nat → Nat) (parent : Nat) (clusters : List Nat)
    (cluster : Nat) : Prop where
  sound : Sound v directories depth
  member : parent ∈ directories
  walked : chain v parent = some clusters
  free : Free v cluster
  lowest : ∀ y < cluster, tableOf v.boot v.disk y ≠ 0

/-- The byte for a mark is not one of these clusters. -/
def Aside (boot : Boot) (clusters : List Nat) (x : Nat) : Prop :=
  ∀ y ∈ clusters, entryAddress boot x < clusterAddress boot y ∨
    clusterAddress boot y + clusterBytes boot ≤ entryAddress boot x

/-- A volume has this table and, in the places of these clusters, these entries. -/
structure Shows (v w : Volume) (those : List Nat) (table : Nat → Nat) (listing : Nat → DirEntry) : Prop where
  boot : w.boot = v.boot
  table : ∀ x < entries v.boot, tableOf w.boot w.disk x = table x
  slots : ∀ i < slotCount v.boot those, ∀ k < 32, slot w those i k = listing i k

/-- What is on the volume that has been changed: the entries of the directory,
those of the new cluster and what the table has for it. -/
structure Image where
  listing : Nat → DirEntry
  own : Nat → DirEntry
  link : Nat

/-- The table that the image says. -/
def Image.table (image : Image) (v : Volume) (cluster : Nat) : Nat → Nat := fun x =>
  if x = cluster then image.link else tableOf v.boot v.disk x

/-- A volume differs from an earlier one as the image says, and nowhere else
among the table and the clusters. -/
structure Altered (v w : Volume) (clusters : List Nat) (cluster : Nat) (image : Image) : Prop where
  boot : w.boot = v.boot
  table : ∀ x < entries v.boot, tableOf w.boot w.disk x =
    if x = cluster then image.link else tableOf v.boot v.disk x
  data : ∀ x, inChain x = true → x ∉ clusters → x ≠ cluster → ∀ k < clusterBytes v.boot,
    w.disk (clusterAddress v.boot x + k) = v.disk (clusterAddress v.boot x + k)
  listing : ∀ i < slotCount v.boot clusters, ∀ k < 32, slot w clusters i k = image.listing i k
  own : ∀ i < slotCount v.boot [cluster], ∀ k < 32, slot w [cluster] i k = image.own i k

section
variable {v w w' u : Volume} {directories : List Nat} {depth : Nat → Nat} {parent cluster index : Nat}
  {clusters those : List Nat} {image : Image} {parents : List Component} {name : FileName} {path : Path}
  {table table' : Nat → Nat} {listing listing' : Nat → DirEntry}

section
variable (spot : Spot v directories depth parent clusters cluster)
include spot

theorem Spot.bounds : 2 ≤ cluster ∧ cluster < entries v.boot ∧ inChain cluster = true := by
  obtain ⟨inside, zero⟩ := spot.free
  have small := spot.sound.small
  have low : 2 ≤ cluster := by
    rcases Nat.lt_or_ge cluster 2 with reserved | other
    · exact absurd zero (spot.sound.reserved cluster reserved)
    · exact other
  grind [inChain_iff]

theorem Spot.number : cluster < 2 ^ 32 := by
  have bound := spot.bounds.2.1
  have small := spot.sound.small
  omega

theorem Spot.not_taken (member : d ∈ directories)
    (walked : chain v d = some listed) : cluster ∉ listed := fun taken =>
  (spot.sound.taken d member listed walked cluster taken).2 spot.free.2

end

theorem Sound.onTable (sound : Sound v directories depth) (member : d ∈ directories)
    (walked : chain v d = some listed) : OnTable v.boot listed := by
  intro x inside
  have bound := (sound.taken d member listed walked x inside).1
  rw [entries] at bound
  omega

theorem altered_refl (free : Free v cluster) (clusters : List Nat) :
    Altered v v clusters cluster ⟨slot v clusters, slot v [cluster], 0⟩ where
  boot := rfl
  table x _ := by
    split
    · rename_i same
      rw [same, free.2]
    · rfl
  data _ _ _ _ _ _ := rfl
  listing _ _ _ _ := rfl
  own _ _ _ _ := rfl

section
variable (altered : Altered v w clusters cluster image)
  (spot : Spot v directories depth parent clusters cluster) (member : d ∈ directories)
include altered spot member

theorem Altered.chain (walked : chain v d = some listed) : chain w d = some listed := by
  refine walk_congr walked fun x inside => ?_
  have bound := (spot.sound.taken d member listed walked x inside).1
  have small := spot.sound.small
  have other : x ≠ cluster := fun same => spot.not_taken member walked (same ▸ inside)
  rw [fatGetNextCluster_eq _ _ (by omega), fatGetNextCluster_eq _ _ (by omega), altered.table x bound,
    if_neg other]

theorem Altered.readDirectory_other (other : d ≠ parent) : readDirectory w d = readDirectory v d := by
  obtain ⟨⟨buffer, size⟩, read⟩ := Option.ne_none_iff_exists'.mp (spot.sound.tree.readable d member)
  rw [readDirectory_eq] at read
  obtain ⟨listed, walked, -⟩ := Option.map_eq_some_iff.mp read
  refine readDirectory_congr walked (altered.chain spot member walked) altered.boot fun x inside => ?_
  exact altered.data x (walk_live walked x inside)
    (spot.sound.apart d member parent spot.member other listed clusters walked spot.walked x inside)
    fun same => spot.not_taken member walked (same ▸ inside)

end

theorem in_cluster_outside (boot : Boot) (here : inChain x = true) (live : ∀ y ∈ clusters, inChain y = true)
    (none : x ∉ clusters) (part : k < clusterBytes boot) : ∀ y ∈ clusters,
      clusterAddress boot x + k < clusterAddress boot y ∨
        clusterAddress boot y + clusterBytes boot ≤ clusterAddress boot x + k := by
  intro y member
  have apart := clusters_apart boot here (live y member) fun same => none (same ▸ member)
  omega

theorem in_table_outside {boot : Boot} (tables : 1 ≤ boot.tableCount) (inside : x < entries boot)
    (small : entries boot ≤ 2 ^ 28) (part : k < 4) (here : inChain y = true) :
    boot.reservedSectors * 512 + x * 4 + k < clusterAddress boot y := by
  have before := entry_before_data tables (show x < 128 * boot.tableSize by rw [entries] at inside; omega)
    (by omega) here
  rw [entryAddress_eq boot (by omega)] at before
  omega

theorem tableOf_congr (boot : Boot) (same : ∀ k < 4, disk' (boot.reservedSectors * 512 + x * 4 + k) =
    disk (boot.reservedSectors * 512 + x * 4 + k)) : tableOf boot disk' x = tableOf boot disk x :=
  congrArg BitVec.toNat (halfWord_congr same)

theorem slot_outside {boot : Boot} (here : ∀ x ∈ those, inChain x = true)
    (live : ∀ y ∈ clusters, inChain y = true) (apart : ∀ x ∈ those, x ∉ clusters)
    (few : i < slotCount boot those) (part : k < 32) : ∀ y ∈ clusters,
      chainPlace boot those (i * 32) + k < clusterAddress boot y ∨
        clusterAddress boot y + clusterBytes boot ≤ chainPlace boot those (i * 32) + k := by
  obtain ⟨x, member, low, high⟩ := slot_in_cluster few part
  have outside := in_cluster_outside boot (here x member) live (apart x member)
    (show chainPlace boot those (i * 32) + k - clusterAddress boot x < clusterBytes boot by omega)
  rwa [Nat.add_sub_cancel' low] at outside

/-! ### What a volume shows -/

theorem shows_refl (v : Volume) (those : List Nat) :
    Shows v v those (tableOf v.boot v.disk) (slot v those) :=
  ⟨rfl, fun _ _ => rfl, fun _ _ _ _ => rfl⟩

theorem Shows.chain (shows : Shows v w those table listing) (before : Shows v u those table' listing')
    (small : entries v.boot ≤ 2 ^ 28) (walked : chain u head = some clusters)
    (inside : ∀ x ∈ clusters, x < entries v.boot) (same : ∀ x ∈ clusters, table x = table' x) :
    FatChains.chain w head = some clusters := by
  refine walk_congr walked fun x member => ?_
  have bound := inside x member
  rw [fatGetNextCluster_eq _ _ (by omega), fatGetNextCluster_eq _ _ (by omega), shows.table x bound,
    before.table x bound, same x member]

theorem Shows.mark (shows : Shows v w those table listing) (small : x < 2 ^ 28) (aside : Aside v.boot those x) :
    Shows v (marked w x) those (setLow table x 0xffffff8) listing := by
  refine ⟨shows.boot, fun y inside => ?_, fun i few k part => ?_⟩
  · have changed : tableOf (marked w x).boot (marked w x).disk y = setLow (tableOf w.boot w.disk) x 0xffffff8 y :=
      congrFun (tableOf_change w.boot w.disk small 0xffffff8) y
    rw [changed]
    by_cases same : y = x
    · rw [same, setLow_self, setLow_self, shows.table x (same ▸ inside)]
    · rw [setLow_other _ _ same, setLow_other _ _ same, shows.table y inside]
  · rw [← shows.slots i few k part]
    obtain ⟨y, member, low, high⟩ := slot_in_cluster few part
    have apart := aside y member
    refine marked_other ?_
    grind [marked, boot]

theorem aside_of_table {boot : Boot} (tables : 1 ≤ boot.tableCount) (small : entries boot ≤ 2 ^ 28)
    (live : ∀ y ∈ those, inChain y = true) (inside : x < entries boot) : Aside boot those x := by
  intro y member
  have before := in_table_outside tables inside small (show 0 < 4 by decide) (live y member)
  rw [entryAddress_eq boot (by omega)]
  omega

theorem Shows.stored_elsewhere (shows : Shows v w those table listing) (tables : 1 ≤ v.boot.tableCount)
    (small : entries v.boot ≤ 2 ^ 28) (here : ∀ x ∈ those, inChain x = true)
    (live : ∀ x ∈ clusters, inChain x = true) (apart : ∀ x ∈ those, x ∉ clusters)
    (few : i < slotCount v.boot clusters) (entry : DirEntry) :
    Shows v (stored w clusters i entry) those table listing := by
  have outside (adr : Nat) (outside : ∀ x ∈ clusters, adr < clusterAddress v.boot x ∨
      clusterAddress v.boot x + clusterBytes v.boot ≤ adr) :
      (stored w clusters i entry).disk adr = w.disk adr := by
    rw [← shows.boot] at few outside
    exact stored_outside few outside
  have boot : (stored w clusters i entry).boot = v.boot := shows.boot
  refine ⟨boot, fun x inside => ?_, fun j within k part => ?_⟩
  · rw [← shows.table x inside, boot, shows.boot]
    grind [tableOf_congr, in_table_outside]
  · rw [← shows.slots j within k part, slot, slot, boot, shows.boot]
    grind [slot_outside]

theorem Shows.stored (shows : Shows v w those table listing) (tables : 1 ≤ v.boot.tableCount)
    (small : entries v.boot ≤ 2 ^ 28) (live : ∀ x ∈ those, inChain x = true) (nodup : those.Nodup)
    (few : i < slotCount v.boot those) (entry : DirEntry) :
    Shows v (stored w those i entry) those table (Function.update listing i entry) := by
  have empty : Shows v w [] table listing := ⟨shows.boot, shows.table, fun j none => by
    rw [slotCount, List.length_nil, Nat.zero_mul, Nat.zero_mul] at none
    exact absurd none (Nat.not_lt_zero j)⟩
  refine ⟨shows.boot, (empty.stored_elsewhere tables small (List.forall_mem_nil _) live (List.forall_mem_nil _)
    few entry).table, fun j within k part => ?_⟩
  rw [← shows.boot] at few
  rw [slot_stored live nodup few (shows.boot ▸ within) part, Function.update_apply, Function.update_apply]
  split
  · rfl
  · exact shows.slots j within k part

theorem fatSetDirEntry_place (tables : 1 ≤ w.boot.tableCount) (positive : 0 < w.boot.clusterSize)
    (walked : chain w (orRoot w.boot directory) = some clusters) (inside : OnTable w.boot clusters)
    (i : Nat) (entry : DirEntry) : fatSetDirEntry w directory i entry =
      some (if i < slotCount w.boot clusters then stored w clusters i entry else w) := by
  split
  · rename_i few
    exact fatSetDirEntry_eq tables walked inside ((slotCount_spec _ _).mp few) entry
  · rename_i behind
    have width : clusters.length * clusterBytes w.boot = clusters.length * w.boot.clusterSize * 512 :=
      (Nat.mul_assoc _ _ _).symm
    refine fatSetDirEntry_behind walked (Nat.mul_pos positive (by decide)) ?_ entry
    rw [slotCount] at behind
    omega

/-- What an entry stored in a directory leaves of all other clusters. -/
def Spares (v w w' : Volume) (clusters : List Nat) : Prop :=
  ∀ those table listing, (∀ x ∈ those, inChain x = true) → (∀ x ∈ those, x ∉ clusters) →
    Shows v w those table listing → Shows v w' those table listing

theorem Shows.set (shows : Shows v w those table listing) (tables : 1 ≤ v.boot.tableCount)
    (proper : Proper v.boot) (walked : FatChains.chain w (orRoot v.boot directory) = some those)
    (inside : ∀ x ∈ those, x < entries v.boot) (i : Nat) (entry : DirEntry) :
    ∃ w', fatSetDirEntry w directory i entry = some w' ∧
      Shows v w' those table (Function.update listing i entry) ∧ Spares v w w' those := by
  have onTable : OnTable w.boot those := by
    intro x member
    have bound := inside x member
    rw [shows.boot]
    rw [entries] at bound
    omega
  have live := walk_live walked
  have set := fatSetDirEntry_place (shows.boot.symm ▸ tables) (shows.boot.symm ▸ proper.clusters.1)
    (shows.boot.symm ▸ walked) onTable i entry
  refine ⟨_, set, ?_⟩
  split
  · rename_i few
    rw [shows.boot] at few
    exact ⟨shows.stored tables proper.table live (walk_nodup walked) few entry, fun _ _ _ here apart others =>
      others.stored_elsewhere tables proper.table here live apart few entry⟩
  · rename_i behind
    rw [shows.boot] at behind
    refine ⟨⟨shows.boot, shows.table, fun j within k part => ?_⟩, fun _ _ _ _ _ others => others⟩
    rw [Function.update_of_ne (by omega), shows.slots j within k part]

/-! ### Entries of the directory -/

theorem Altered.shows (altered : Altered v w clusters cluster image) :
    Shows v w clusters (image.table v cluster) image.listing := ⟨altered.boot, altered.table, altered.listing⟩

theorem Altered.shows_own (altered : Altered v w clusters cluster image) :
    Shows v w [cluster] (image.table v cluster) image.own := ⟨altered.boot, altered.table, altered.own⟩

theorem Altered.data_stored (altered : Altered v w clusters cluster image)
    (live : ∀ x ∈ those, inChain x = true) (among : ∀ x ∈ those, x ∈ clusters ∨ x = cluster)
    (few : i < slotCount v.boot those) (entry : DirEntry) (here : inChain x = true) (none : x ∉ clusters)
    (other : x ≠ cluster) (part : k < clusterBytes v.boot) :
    (stored w those i entry).disk (clusterAddress v.boot x + k) = v.disk (clusterAddress v.boot x + k) := by
  have outside := in_cluster_outside v.boot here live (fun member => (among x member).elim none other) part
  rw [← altered.data x here none other k part]
  rw [← altered.boot] at few outside ⊢
  exact stored_outside few outside

theorem Spot.alone (spot : Spot v directories depth parent clusters cluster) :
    ∀ x ∈ [cluster], inChain x = true := by
  intro x same
  rw [List.mem_singleton.mp same]
  exact spot.bounds.2.2

theorem Spot.apart (spot : Spot v directories depth parent clusters cluster) : cluster ∉ clusters :=
  spot.not_taken spot.member spot.walked

theorem Altered.store_listing (altered : Altered v w clusters cluster image)
    (spot : Spot v directories depth parent clusters cluster) (few : i < slotCount v.boot clusters)
    (entry : DirEntry) :
    fatSetDirEntry w parent i entry = some (stored w clusters i entry) ∧
      Altered v (stored w clusters i entry) clusters cluster
        { image with listing := Function.update image.listing i entry } := by
  have tables := spot.sound.tables
  have small := spot.sound.proper.table
  have live := walk_live spot.walked
  have fresh : ∀ x ∈ [cluster], x ∉ clusters := fun x same => List.mem_singleton.mp same ▸ spot.apart
  constructor
  · have valid := (spot.sound.tree.valid parent spot.member).1
    have walked := altered.chain spot spot.member spot.walked
    have onTable := spot.sound.onTable spot.member spot.walked
    rw [← altered.boot] at tables onTable few
    refine fatSetDirEntry_eq tables ?_ onTable ((slotCount_spec _ _).mp few) entry
    rwa [orRoot, if_neg (by omega)]
  · have shows := altered.shows.stored tables small live (walk_nodup spot.walked) few entry
    have own := altered.shows_own.stored_elsewhere tables small spot.alone live fresh few entry
    exact ⟨altered.boot, shows.table, fun x here none other k part =>
      altered.data_stored live (fun _ => Or.inl) few entry here none other part, shows.slots, own.slots⟩

/-! ### The new cluster -/

theorem Altered.mark (altered : Altered v w clusters cluster image)
    (spot : Spot v directories depth parent clusters cluster) (unmarked : image.link = 0) :
    fatFindFreeClusterChain w 1 = (cluster, marked w cluster) ∧
      Altered v (marked w cluster) clusters cluster { image with link := 0xf8 } := by
  obtain ⟨low, inside, -⟩ := spot.bounds
  have tables := spot.sound.tables
  have small := spot.sound.proper.table
  have number : cluster < 2 ^ 28 := by omega
  have first : fatFindFreeCluster w = cluster := by
    rw [fatFindFreeCluster_eq, altered.boot]
    refine lowestFree_eq small inside ?_ fun y earlier => ?_
    · rw [← altered.boot, altered.table cluster inside, if_pos rfl, unmarked]
    · rw [← altered.boot, altered.table y (by omega), if_neg (by omega)]
      exact spot.lowest y earlier
  have table : setLow (image.table v cluster) cluster 0xffffff8 =
      Image.table { image with link := 0xf8 } v cluster := by
    funext x
    by_cases same : x = cluster
    · simp_all [setLow_self, Image.table]
    · simp_all [setLow_other, Image.table]
  have shows := altered.shows.mark number (aside_of_table tables small (walk_live spot.walked) inside)
  have own := altered.shows_own.mark number (aside_of_table tables small spot.alone inside)
  rw [table] at shows own
  refine ⟨?_, altered.boot, shows.table, fun x here none other k part => ?_, shows.slots, own.slots⟩
  · have proper := spot.sound.proper
    rw [← altered.boot] at proper
    rw [fatFindFreeClusterChain_one proper, first]
  · have aside := aside_of_table tables small (show ∀ y ∈ [x], inChain y = true by
      intro y same
      rwa [List.mem_singleton.mp same]) inside x List.mem_cons_self
    rw [← altered.data x here none other k part]
    refine marked_other ?_
    rw [altered.boot]
    omega

theorem Sound.next_inside (sound : Sound v directories depth) (inside : x < entries v.boot)
    (live : inChain (fatGetNextCluster v.boot v.disk x) = true) :
    fatGetNextCluster v.boot v.disk x < entries v.boot := by
  have small := sound.proper.table
  rw [fatGetNextCluster_eq _ _ (by omega)] at live ⊢
  exact sound.links x inside live

theorem Sound.tail_inside (sound : Sound v directories depth) (walked : FatChains.chain v 0xf8 = some tail) :
    ∀ x ∈ tail, x < entries v.boot := by
  have large := sound.large
  refine walk_inside walked (fun _ => by omega) fun x _ inside live => ?_
  exact sound.next_inside inside live

theorem Altered.next_other (altered : Altered v w clusters cluster image)
    (spot : Spot v directories depth parent clusters cluster) (inside : x < entries v.boot)
    (other : x ≠ cluster) : fatGetNextCluster w.boot w.disk x = fatGetNextCluster v.boot v.disk x := by
  have small := spot.sound.proper.table
  rw [fatGetNextCluster_eq _ _ (by omega), fatGetNextCluster_eq _ _ (by omega), altered.table x inside,
    if_neg other]

theorem Altered.chain_new (altered : Altered v w clusters cluster image)
    (spot : Spot v directories depth parent clusters cluster) (linked : image.link = 0xf8) :
    FatChains.chain w cluster = some listed ↔
      ∃ tail, FatChains.chain v 0xf8 = some tail ∧ cluster ∉ tail ∧ listed = cluster :: tail := by
  obtain ⟨low, inside, alive⟩ := spot.bounds
  have small := spot.sound.proper.table
  have next : fatGetNextCluster w.boot w.disk cluster = 0xf8 := by
    rw [fatGetNextCluster_eq _ _ (by omega), altered.table cluster inside, if_pos rfl, linked,
      Nat.mod_eq_of_lt (by decide)]
  have large : 0xf8 < entries v.boot := Nat.lt_of_lt_of_le (by decide) spot.sound.large
  constructor
  · intro ran
    have nodup := walk_nodup ran
    obtain ⟨dead, -⟩ | ⟨-, fewer, rest, steps, rfl, onward⟩ := walk_cases ran
    · rw [alive] at dead
      cases dead
    · rw [next] at onward
      have fresh := (List.nodup_cons.mp nodup).1
      have onTable : ∀ x ∈ rest, x < entries v.boot := by
        refine walk_inside onward (fun _ => large) fun x member bound live => ?_
        rw [altered.next_other spot bound fun same => fresh (same ▸ member)] at live ⊢
        exact spot.sound.next_inside bound live
      have back := walk_congr onward fun x member =>
        (altered.next_other spot (onTable x member) fun same => fresh (same ▸ member)).symm
      have length := walk_length onward
      exact ⟨rest, walk_more back (by omega), fresh, rfl⟩
  · rintro ⟨tail, walked, fresh, rfl⟩
    have onTable := spot.sound.tail_inside walked
    have length : tail.length ≤ entries v.boot := by
      have range : tail ⊆ List.range (entries v.boot) := fun x member => List.mem_range.mpr (onTable x member)
      have short := (List.subperm_of_subset (walk_nodup walked) range).length_le
      rwa [List.length_range] at short
    have there := walk_congr walked fun x member =>
      altered.next_other spot (onTable x member) fun same => fresh (same ▸ member)
    have onward := walk_more there (show tail.length ≤ 2 ^ 64 - 1 by omega)
    rw [FatChains.chain, show 2 ^ 64 = 2 ^ 64 - 1 + 1 from rfl, walk, if_pos alive, next, onward, Option.map_some]

theorem Altered.new_onTable (spot : Spot v directories depth parent clusters cluster)
    (walked : FatChains.chain v 0xf8 = some tail) : OnTable v.boot (cluster :: tail) := by
  have onTable := spot.sound.tail_inside walked
  intro x member
  have bound : x < entries v.boot := by
    obtain rfl | later := List.mem_cons.mp member
    · exact spot.bounds.2.1
    · exact onTable x later
  rw [entries] at bound
  omega

theorem chainPlace_head (boot : Boot) (tail : List Nat) (few : i < slotCount boot [cluster]) :
    chainPlace boot (cluster :: tail) (i * 32) = chainPlace boot [cluster] (i * 32) := chainPlace_append few tail

theorem slotCount_head (few : i < slotCount boot [cluster]) (tail : List Nat) :
    i < slotCount boot (cluster :: tail) := slotCount_append few tail

theorem fatSetDirEntry_head (tables : 1 ≤ w.boot.tableCount)
    (walked : FatChains.chain w (orRoot w.boot cluster) = some (cluster :: tail))
    (inside : OnTable w.boot (cluster :: tail)) (few : i < slotCount w.boot [cluster]) (entry : DirEntry) :
    fatSetDirEntry w cluster i entry = some (stored w [cluster] i entry) := by
  rw [fatSetDirEntry_eq tables walked inside ((slotCount_spec _ _).mp (slotCount_head few tail)) entry,
    chainPlace_head _ _ few]
  rfl

theorem Shows.search_head (shows : Shows v w [cluster] table listing)
    (walked : FatChains.chain w (orRoot w.boot cluster) = some (cluster :: tail)) (narrow : v.boot.clusterSize < 256)
    (few : i < slotCount v.boot [cluster]) (free : live (listing i) = false)
    (first : ∀ j < i, live (listing j) = true) : fatGetFreeDirEntry w cluster = some i := by
  have same (j : Nat) (inside : j < slotCount v.boot [cluster]) :
      live (slot w (cluster :: tail) j) = live (listing j) := by
    refine live_congr fun k part => ?_
    rw [← shows.slots j inside k part, slot, slot, shows.boot, chainPlace_head _ _ inside]
  have fits := (slotCount_spec v.boot [cluster]).mp few
  rw [List.length_singleton, Nat.one_mul, clusterBytes] at fits
  exact fatGetFreeDirEntry_slot walked (shows.boot ▸ slotCount_head few tail) (by omega) ((same i few).trans free)
    fun j earlier => (same j (Nat.lt_trans earlier few)).trans (first j earlier)

section
variable (altered : Altered v w clusters cluster image)
  (spot : Spot v directories depth parent clusters cluster) (linked : image.link = 0xf8)
  (walked : FatChains.chain v 0xf8 = some tail) (fresh : cluster ∉ tail)
  (few : i < slotCount v.boot [cluster])
include altered spot linked walked fresh few

theorem Altered.store_own (entry : DirEntry) :
    fatSetDirEntry w cluster i entry = some (stored w [cluster] i entry) ∧
      Altered v (stored w [cluster] i entry) clusters cluster
        { image with own := Function.update image.own i entry } := by
  have tables := spot.sound.tables
  have small := spot.sound.proper.table
  have live := walk_live spot.walked
  have apart : ∀ x ∈ clusters, x ∉ [cluster] := fun x member same =>
    spot.apart (List.mem_singleton.mp same ▸ member)
  constructor
  · have positive := spot.bounds.1
    have chained := (altered.chain_new spot linked).mpr ⟨tail, walked, fresh, rfl⟩
    have onTable := Altered.new_onTable spot walked
    rw [← altered.boot] at tables onTable few
    refine fatSetDirEntry_head tables ?_ onTable few entry
    rwa [orRoot, if_neg (by omega)]
  · have shows := altered.shows.stored_elsewhere tables small live spot.alone apart few entry
    have own := altered.shows_own.stored tables small spot.alone (List.nodup_singleton cluster) few entry
    exact ⟨altered.boot, own.table, fun x here none other k part => altered.data_stored spot.alone
      (fun x same => Or.inr (List.mem_singleton.mp same)) few entry here none other part, shows.slots, own.slots⟩

theorem Altered.free_own (free : live (image.own i) = false)
    (first : ∀ j < i, live (image.own j) = true) : fatGetFreeDirEntry w cluster = some i := by
  have positive := spot.bounds.1
  have chained : FatChains.chain w (orRoot w.boot cluster) = some (cluster :: tail) := by
    rw [orRoot, if_neg (by omega)]
    exact (altered.chain_new spot linked).mpr ⟨tail, walked, fresh, rfl⟩
  exact altered.shows_own.search_head chained spot.sound.proper.clusters.2 few free first

end

/-! ### Looking a name up -/

theorem Spot.valid (spot : Spot v directories depth parent clusters cluster) :
    2 ≤ parent ∧ parent < 0xffffff7 := spot.sound.tree.valid parent spot.member

section
variable (altered : Altered v w clusters cluster image)
  (spot : Spot v directories depth parent clusters cluster)
include altered spot

theorem Altered.read : ∃ buffer, readDirectory w parent = some (buffer, slotCount v.boot clusters) ∧
      ∀ i < slotCount v.boot clusters, ∀ k < 32, entryOf buffer i k = image.listing i k := by
  obtain ⟨buffer, read, bytes⟩ := readDirectory_slots (altered.chain spot spot.member spot.walked)
  rw [altered.boot] at read bytes
  exact ⟨buffer, read, fun i few k part => (bytes i few k part).trans (altered.listing i few k part)⟩

theorem Altered.to_parent (site : Site v path parents name parent) : ∃ fuel before, fatFind w path =
      fatFindFrom w path (fuel + 1) before parent ((spell parents).length + 1) :=
  site.fatFind spot.sound.tree altered.boot fun _ member other => altered.readDirectory_other spot member other

theorem Altered.lookup (site : Site v path parents name parent)
    (plain : ∀ i < slotCount v.boot clusters, live (image.listing i) = true → image.listing i 11 ≠ 0xf) :
    ((∀ i < slotCount v.boot clusters, bears name (image.listing i) = false) →
      fatFind w path = some ⟨notFound, parent, none⟩) ∧
    ∀ i < slotCount v.boot clusters, bears name (image.listing i) = true →
      ∃ j < slotCount v.boot clusters, bears name (image.listing j) = true ∧
        ∃ entry, fatFind w path = some ⟨(image.listing j).clusterNo, parent, some (entry, j)⟩ := by
  obtain ⟨buffer, read, bytes⟩ := altered.read spot
  obtain ⟨fuel, before, ran⟩ := altered.to_parent spot site
  have noLong : ∀ i < slotCount v.boot clusters, live (entryOf buffer i) = true → entryOf buffer i 11 ≠ 0xf := by
    intro i few alive
    rw [bytes i few 11 (by decide)]
    exact plain i few ((live_congr (bytes i few)).symm.trans alive)
  rw [ran, fatFindFrom_plain spot.valid read name site.name_reads noLong]
  cases found : (List.range (slotCount v.boot clusters)).find? fun j => bears name (entryOf buffer j) with
  | none =>
    refine ⟨fun _ => rfl, fun i few here => ?_⟩
    grind [bears_congr]
  | some j =>
    obtain ⟨here, member, -⟩ := List.find?_range_eq_some.mp found
    have few := List.mem_range.mp member
    rw [bears_congr name (bytes j few)] at here
    refine ⟨fun absent => ?_, fun _ _ _ => ⟨j, few, here, entryOf buffer j, ?_⟩⟩
    · rw [absent j few] at here
      cases here
    · rw [← clusterNo_congr (bytes j few)]
      rfl

end

theorem Spot.plain (spot : Spot v directories depth parent clusters cluster) :
    ∀ i < slotCount v.boot clusters, live (slot v clusters i) = true →
      slot v clusters i 11 ≠ 0xf ∧ (slot v clusters i).clusterNo < 0xffffff7 := by
  intro i few alive
  obtain ⟨buffer, read, bytes⟩ := readDirectory_slots spot.walked
  have legible := spot.sound.tree.legible spot.member
  have alive' := (live_congr (bytes i few)).trans alive
  rw [← bytes i few 11 (by decide), ← clusterNo_congr (bytes i few)]
  exact ⟨legible.notLong read i few alive', (legible.plain buffer _ read i few alive').2.2⟩

/-! ### Free places -/

/-- The first place in some clusters that is free. -/
structure Vacant (v : Volume) (clusters : List Nat) (index : Nat) : Prop where
  inside : index < slotCount v.boot clusters
  free : live (slot v clusters index) = false
  first : ∀ j < index, live (slot v clusters j) = true

/-- No entry of the directory is taken for the name. -/
def Unlisted (v : Volume) (clusters : List Nat) (name : FileName) : Prop :=
  ∀ i < slotCount v.boot clusters, bears name (slot v clusters i) = false

instance (v : Volume) (clusters : List Nat) (name : FileName) : Decidable (Unlisted v clusters name) :=
  inferInstanceAs (Decidable (∀ i < _, _))

theorem Vacant.search (vacant : Vacant v clusters index)
    (spot : Spot v directories depth parent clusters cluster) :
    fatGetFreeDirEntryChain v parent 1 = some (index, marked v index) := by
  have valid := spot.valid.1
  have size := spot.sound.sizes parent spot.member clusters spot.walked
  have inside := vacant.inside
  have walked := spot.walked
  refine fatGetFreeDirEntryChain_one (fatGetFreeDirEntry_slot ?_ inside (by omega) vacant.free vacant.first)
  rwa [orRoot, if_neg (by omega)]

theorem Vacant.bound (vacant : Vacant v clusters index)
    (spot : Spot v directories depth parent clusters cluster) : index < entries v.boot := by
  have inside := vacant.inside
  have size := spot.sound.sizes parent spot.member clusters spot.walked
  have large := spot.sound.large
  rw [entries] at large ⊢
  omega

end

end MandelbrotOS.FatSlots
