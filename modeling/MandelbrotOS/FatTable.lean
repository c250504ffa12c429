import MandelbrotOS.FatAlloc

/-! The entries of the file allocation table, one at a time and along a chain:
`fat_change_fat_value` and `fat_free_chain` of `fs/fat32.c`. A store changes the
low byte of the entry and leaves the upper bits, so an update takes only where
these are right already, and an end mark can not be cleared at all. And the search
for a free entry, `fat_find_free_cluster`, goes by the table alone, which may have
entries for more clusters than the volume has sectors. -/
namespace MandelbrotOS.FatTable
open ByteMemory Fat FatAlloc FatChains FatFiles FatLookup Walks

/-! ### One entry -/

theorem fatGetNextCluster_alias (boot : Boot) (disk : Memory) (same : x % 2 ^ 30 = y % 2 ^ 30) :
    fatGetNextCluster boot disk x = fatGetNextCluster boot disk y := by
  simp_all [fatGetNextCluster, entryAddress_mod]

theorem fatGetNextCluster_change (boot : Boot) (disk : Memory) (cluster value : Nat) :
    fatGetNextCluster boot (fatChangeFatValue boot disk cluster value) cluster =
      fatGetNextCluster boot disk cluster / 256 * 256 + value % 256 := by
  rw [fatGetNextCluster, fatGetNextCluster, fatChangeFatValue, halfWord_update, BitVec.toNat_ofNat]
  omega

theorem fatGetNextCluster_change_high (boot : Boot) (disk : Memory) (cluster value x : Nat) :
    fatGetNextCluster boot (fatChangeFatValue boot disk cluster value) x / 256 =
      fatGetNextCluster boot disk x / 256 := by
  grind [fatGetNextCluster_alias, fatGetNextCluster_change, fatGetNextCluster_change_other]

/-- The sector of the table with the entry of a cluster. -/
def entrySector (boot : Boot) (cluster : Nat) : Nat := boot.reservedSectors + cluster / 128

/-- The entry has the value, the entries of all other clusters are what they were,
and so are all sectors but the one with the entry. -/
structure Updated (boot : Boot) (disk disk' : Memory) (cluster value : Nat) : Prop where
  stored : fatGetNextCluster boot disk' cluster = value
  others : ∀ other < 128 * boot.tableSize, other < 2 ^ 32 → other ≠ cluster →
    fatGetNextCluster boot disk' other = fatGetNextCluster boot disk other
  sectors : ∀ adr, adr / 512 ≠ entrySector boot cluster → disk' adr = disk adr

theorem fatChangeFatValue_low {boot : Boot} {disk : Memory}
    (same : value % 256 = fatGetNextCluster boot disk cluster % 256) :
    fatChangeFatValue boot disk cluster value = disk := by
  refine Function.update_eq_self_iff.mpr (BitVec.eq_of_toNat_eq ?_)
  simp_all [fatGetNextCluster_mod]

theorem fatChangeFatValue_same (boot : Boot) (disk : Memory) (cluster : Nat) :
    fatChangeFatValue boot disk cluster (fatGetNextCluster boot disk cluster) = disk := fatChangeFatValue_low rfl

/-- **An update takes exactly where the upper bits of the entry are those of the
value already.** If the low byte changes, the table must also be small enough for
the 32 bits that the place of the entry is computed in. -/
theorem entry_updated_iff (boot : Boot) (disk : Memory) (inside : cluster < 128 * boot.tableSize)
    (number : cluster < 2 ^ 32) (value : Nat) :
    Updated boot disk (fatChangeFatValue boot disk cluster value) cluster value ↔
      fatGetNextCluster boot disk cluster / 256 = value / 256 ∧
        (fatGetNextCluster boot disk cluster = value ∨
          cluster < 2 ^ 30 ∧ 128 * boot.tableSize ≤ cluster + 2 ^ 30) := by
  have stored := fatGetNextCluster_change boot disk cluster value
  constructor
  · intro updated
    have low := updated.stored
    rw [stored] at low
    refine ⟨by omega, or_iff_not_imp_left.mpr fun changed => ?_⟩
    have differs : fatChangeFatValue boot disk cluster value (entryAddress boot cluster) ≠
        disk (entryAddress boot cluster) := by
      intro same
      have before := fatGetNextCluster_mod boot disk cluster
      rw [← same, ← fatGetNextCluster_mod, stored] at before
      omega
    have near : cluster < 2 ^ 30 := by
      by_contra far
      refine differs (updated.sectors _ ?_)
      rw [entryAddress_mod, entrySector]
      omega
    refine ⟨near, ?_⟩
    -- a cluster 2 ^ 30 further on has the same place
    by_contra large
    have wrapped : (cluster + 2 ^ 30) % 2 ^ 30 = cluster % 2 ^ 30 := Nat.add_mod_right _ _
    have kept := updated.others (cluster + 2 ^ 30) (by omega) (by omega) (by omega)
    rw [fatGetNextCluster_alias boot _ wrapped, fatGetNextCluster_alias boot disk wrapped, stored] at kept
    omega
  · rintro ⟨high, same | ⟨near, small⟩⟩
    · rw [← same, fatChangeFatValue_same]
      exact ⟨rfl, fun _ _ _ _ => rfl, fun _ _ => rfl⟩
    · refine ⟨by rw [stored]; omega, fun other within word different => ?_, fun adr elsewhere => ?_⟩
      · exact fatGetNextCluster_change_other boot disk value (by omega)
      · refine Function.update_of_ne ?_ _ _
        rintro rfl
        rw [entryAddress_mod, entrySector] at elsewhere
        omega

/-- A boot block with a table of one sector. -/
def oneSectorTable : Boot := ⟨1, 1, 1, 1, 2⟩

theorem link_updated : Updated oneSectorTable (fun adr => if adr = 520 then 3 else 0)
    (fatChangeFatValue oneSectorTable (fun adr => if adr = 520 then 3 else 0) 2 4) 2 4 :=
  (entry_updated_iff oneSectorTable _ (by decide) (by decide) 4).mpr
    ⟨by decide +kernel, Or.inr ⟨by decide, by decide⟩⟩

/-- The end mark of a new chain becomes a link to cluster 248. -/
theorem end_mark_not_stored :
    fatGetNextCluster oneSectorTable (fun _ => 0) 2 = 0 ∧
    fatGetNextCluster oneSectorTable (fatChangeFatValue oneSectorTable (fun _ => 0) 2 0xffffff8) 2 = 0xf8 ∧
    ¬ Updated oneSectorTable (fun _ => 0) (fatChangeFatValue oneSectorTable (fun _ => 0) 2 0xffffff8) 2
      0xffffff8 := by
  have before : fatGetNextCluster oneSectorTable (fun _ => 0) 2 = 0 := by decide +kernel
  have after : fatGetNextCluster oneSectorTable
      (fatChangeFatValue oneSectorTable (fun _ => 0) 2 0xffffff8) 2 = 0xf8 := by decide +kernel
  refine ⟨before, after, fun updated => ?_⟩
  have stored := updated.stored
  rw [after] at stored
  cases stored

/-! ### The entries of a chain -/

theorem fatFreeChainFrom_high (ran : fatFreeChainFrom boot turns disk cluster = some disk') (x : Nat) :
    fatGetNextCluster boot disk' x / 256 = fatGetNextCluster boot disk x / 256 := by
  induction turns generalizing disk cluster with
  | zero => cases ran
  | succ turns ih =>
    grind [fatFreeChainFrom, fatGetNextCluster_change_high]

/-- The low bytes of some entries set to zero. -/
def cleared (boot : Boot) (disk : Memory) (clusters : List Nat) : Memory :=
  clusters.foldl (fun disk x => fatChangeFatValue boot disk x 0) disk

theorem tableOf_cleared (boot : Boot) (disk : Memory) (small : ∀ x ∈ clusters, x < 2 ^ 28) (x : Nat) :
    tableOf boot (cleared boot disk clusters) x =
      if x ∈ clusters then tableOf boot disk x / 256 * 256 else tableOf boot disk x := by
  induction clusters generalizing disk with
  | nil => rfl
  | cons first rest ih =>
    rw [cleared, List.foldl_cons, ← cleared, ih _ fun y member => small y (List.mem_cons_of_mem _ member),
      tableOf_change boot disk (small first List.mem_cons_self)]
    by_cases here : x = first
    · simp_all [setLow_self]
    · simp_all [setLow_other]

theorem fatFreeChainFrom_along
    (walked : walk (fatGetNextCluster boot disk) inChain steps cluster = some clusters)
    (last : clusters.getLast? = some x) (mark : fatGetNextCluster boot disk x = 0xffffff8)
    (enough : clusters.length ≤ turns) :
    fatFreeChainFrom boot turns disk cluster = some (cleared boot disk clusters.dropLast) := by
  induction clusters generalizing steps turns disk cluster with
  | nil => cases last
  | cons first rest ih =>
    obtain ⟨rfl, alive, fewer, rfl, onward⟩ := walk_cons walked
    obtain ⟨turns, rfl⟩ : ∃ fewer, turns = fewer + 1 :=
      Nat.exists_eq_succ_of_ne_zero (Nat.ne_of_gt (Nat.lt_of_lt_of_le (Nat.succ_pos _) enough))
    cases rest with
    | nil =>
      rw [← show cluster = x from Option.some.inj last] at mark
      rw [fatFreeChainFrom, if_pos (Or.inr mark)]
      rfl
    | cons second rest =>
      have fresh := (List.nodup_cons.mp (walk_nodup walked)).1
      obtain ⟨linked, alive', -⟩ := walk_cons onward
      have goesOn : ¬ (fatGetNextCluster boot disk cluster = 0 ∨
          fatGetNextCluster boot disk cluster = 0xffffff8) := by
        grind [inChain_iff]
      have same (y : Nat) (member : y ∈ second :: rest) :
          fatGetNextCluster boot (fatChangeFatValue boot disk cluster 0) y = fatGetNextCluster boot disk y :=
        fatChangeFatValue_other boot disk 0 alive (walk_live onward y member) fun here => fresh (here ▸ member)
      rw [List.getLast?_cons_cons] at last
      rw [← same x (List.mem_of_getLast? last)] at mark
      rw [fatFreeChainFrom, if_neg goesOn, ih (walk_congr onward same) last mark (Nat.le_of_succ_le_succ enough)]
      rfl

/-- The entries of the chain are zero, and all others are what they were. -/
structure Released (v : Volume) (clusters : List Nat) (v' : Volume) : Prop where
  freed : ∀ x ∈ clusters, fatGetNextCluster v.boot v'.disk x = 0
  others : ∀ x < entries v.boot, x ∉ clusters → SameTable v v' x

/-- **No chain with an end mark is released.** The upper bits of the mark stay
whatever the loop does; behind the mark `0xffffff8` it does not go, so that the
low bytes of the entries before the last are cleared, and nothing else. -/
theorem chain_not_released (walked : walk (fatGetNextCluster v.boot v.disk) inChain steps head = some clusters)
    (last : clusters.getLast? = some x) (mark : 0xffffff8 ≤ fatGetNextCluster v.boot v.disk x) :
    (¬ ∃ v', fatFreeChain v head = some v' ∧ Released v clusters v') ∧
    (fatGetNextCluster v.boot v.disk x = 0xffffff8 → ∃ v', fatFreeChain v head = some v' ∧
      v'.boot = v.boot ∧ ∀ y, tableOf v.boot v'.disk y =
        if y ∈ clusters.dropLast then tableOf v.boot v.disk y / 256 * 256 else tableOf v.boot v.disk y) := by
  constructor
  · rintro ⟨v', freed, released⟩
    obtain ⟨disk, ran, rfl⟩ := Option.map_eq_some_iff.mp freed
    have high := fatFreeChainFrom_high ran x
    rw [released.freed x (List.mem_of_getLast? last)] at high
    omega
  · intro own
    have short := length_of_walk walked
    have small : ∀ y ∈ clusters.dropLast, y < 2 ^ 28 := by
      intro y member
      have bounds := inChain_iff.mp (walk_live walked y (List.dropLast_subset clusters member))
      omega
    refine ⟨{ v with disk := cleared v.boot v.disk clusters.dropLast }, ?_, rfl, tableOf_cleared _ _ small⟩
    rw [fatFreeChain, fatFreeChainFrom_along walked last own (by omega)]
    rfl

/-- Cluster 2 is followed by cluster 3, the last one of the chain. -/
def twoLinked : Volume := ⟨oneSectorTable, fun adr =>
  if adr = 520 then 3 else if adr = 524 then 0xf8 else if adr = 525 ∨ adr = 526 then 0xff
  else if adr = 527 then 0x0f else 0⟩

theorem twoLinked_walk : walk (fatGetNextCluster twoLinked.boot twoLinked.disk) inChain 2 2 = some [2, 3] := by
  decide +kernel

theorem two_clusters_not_released :
    (¬ ∃ v', fatFreeChain twoLinked 2 = some v' ∧ Released twoLinked [2, 3] v') ∧
      ∃ v', fatFreeChain twoLinked 2 = some v' ∧ tableOf twoLinked.boot v'.disk 2 = 0 := by
  have mark : fatGetNextCluster twoLinked.boot twoLinked.disk 3 = 0xffffff8 := by decide +kernel
  have both := chain_not_released twoLinked_walk rfl (Nat.le_of_eq mark.symm)
  obtain ⟨v', freed, -, table⟩ := both.2 mark
  refine ⟨both.1, v', freed, ?_⟩
  rw [table]
  decide +kernel

/-- The last cluster of a chain stays in use. -/
theorem last_cluster_not_freed : ∃ v', fatFreeChain twoLinked 2 = some v' ∧
    fatGetNextCluster twoLinked.boot v'.disk 2 = 0 ∧
    fatGetNextCluster twoLinked.boot v'.disk 3 = 0xffffff8 ∧ ¬ Released twoLinked [2, 3] v' := by
  have ran : (fatFreeChain twoLinked 2).map (fun v' => (fatGetNextCluster twoLinked.boot v'.disk 2,
      fatGetNextCluster twoLinked.boot v'.disk 3)) = some (0, 0xffffff8) := by decide +kernel
  obtain ⟨v', freed, same⟩ := Option.map_eq_some_iff.mp ran
  obtain ⟨first, second⟩ := Prod.mk.inj same
  refine ⟨v', freed, first, second, fun released => ?_⟩
  have zero := released.freed 3 (by decide)
  rw [second] at zero
  cases zero

/-! ### Free entries and the end of the volume -/

/-- The sectors of a cluster are among the first `largeSectorCount`. -/
def OnVolume (boot : Boot) (largeSectorCount cluster : Nat) : Prop :=
  ∀ k < boot.clusterSize, fatClusterToSector boot cluster + k < largeSectorCount

instance (boot : Boot) (largeSectorCount cluster : Nat) : Decidable (OnVolume boot largeSectorCount cluster) :=
  inferInstanceAs (Decidable (∀ k < boot.clusterSize, _))

/-- A cluster of the volume that is free. -/
structure Usable (v : Volume) (largeSectorCount cluster : Nat) : Prop where
  data : 2 ≤ cluster
  listed : cluster < entries v.boot
  free : tableOf v.boot v.disk cluster = 0
  inside : OnVolume v.boot largeSectorCount cluster

/-- What is found is the lowest free cluster of the volume, and the mark is
returned when there is none. -/
structure FindsFree (v : Volume) (largeSectorCount found : Nat) : Prop where
  lowest : ∀ cluster, Usable v largeSectorCount cluster →
    (∀ other < cluster, ¬ Usable v largeSectorCount other) → found = cluster
  none : found = notFound ↔ ∀ cluster, ¬ Usable v largeSectorCount cluster

theorem Usable.not_before (usable : Usable v largeSectorCount cluster)
    (first : ∀ y < x, tableOf v.boot v.disk y ≠ 0) : x ≤ cluster :=
  Nat.le_of_not_lt fun before => first cluster before usable.free

theorem finds_usable_iff (first : ∀ y < x, tableOf v.boot v.disk y ≠ 0) (usable : Usable v largeSectorCount x) :
    FindsFree v largeSectorCount (x % 2 ^ 28) ↔ x < notFound := by
  constructor
  · intro finds
    have same := finds.lowest x usable fun other less usable' =>
      absurd (usable'.not_before first) (Nat.not_le.mpr less)
    have listed : x % 2 ^ 28 ≠ notFound := fun mark => finds.none.mp mark x usable
    rw [notFound] at listed ⊢
    omega
  · intro small
    have whole : x % 2 ^ 28 = x := Nat.mod_eq_of_lt (Nat.lt_trans small (by decide))
    rw [whole]
    refine ⟨fun cluster usable' lowest => ?_, ?_⟩
    · refine Nat.le_antisymm (usable'.not_before first) (Nat.le_of_not_lt fun behind => ?_)
      exact lowest x behind usable
    · grind

theorem finds_beyond_iff (first : ∀ y < x, tableOf v.boot v.disk y ≠ 0)
    (beyond : ¬ OnVolume v.boot largeSectorCount x) : FindsFree v largeSectorCount (x % 2 ^ 28) ↔
      x % 2 ^ 28 = notFound ∧ ∀ cluster, ¬ Usable v largeSectorCount cluster := by
  constructor
  · intro finds
    have none (cluster : Nat) (usable : Usable v largeSectorCount cluster) : False := by
      classical
      have nonempty : ∃ cluster, Usable v largeSectorCount cluster := ⟨cluster, usable⟩
      have lowest := Nat.find_spec nonempty
      have found := finds.lowest (Nat.find nonempty) lowest fun other less => Nat.find_min nonempty less
      have behind := lowest.not_before first
      have other : Nat.find nonempty ≠ x := fun same => beyond (same ▸ lowest.inside)
      omega
    exact ⟨finds.none.mpr none, none⟩
  · rintro ⟨mark, none⟩
    exact ⟨fun cluster usable => absurd usable (none cluster), iff_of_true mark none⟩

theorem first_unique {table : Nat → Nat} (free : table x = 0) (first : ∀ y < x, table y ≠ 0)
    (free' : table x' = 0) (first' : ∀ y < x', table y ≠ 0) : x = x' :=
  Nat.le_antisymm (Nat.le_of_not_lt fun less => first x' less free')
    (Nat.le_of_not_lt fun less => first' x less free)

/-- **The search stays on the volume exactly when the first free entry of the
table is that of a cluster on it.** An entry from number `0xfffffff` on must not be
the first free one either, unless what is returned for it happens to be the mark
and nothing on the volume is free. -/
theorem search_stays_iff (media : tableOf v.boot v.disk 0 ≠ 0) (reserved : tableOf v.boot v.disk 1 ≠ 0)
    (largeSectorCount : Nat) : FindsFree v largeSectorCount (fatFindFreeCluster v) ↔
      ∀ x < entries v.boot, tableOf v.boot v.disk x = 0 → (∀ y < x, tableOf v.boot v.disk y ≠ 0) →
        OnVolume v.boot largeSectorCount x ∧ x < notFound ∨
          x % 2 ^ 28 = notFound ∧ ∀ cluster, ¬ Usable v largeSectorCount cluster := by
  rw [fatFindFreeCluster_eq]
  rcases lowestFree_first (entries v.boot) (tableOf v.boot v.disk) with
    ⟨x, inside, free, first, found⟩ | ⟨found, full⟩
  · have data : 2 ≤ x := by
      by_contra low
      rcases (by omega : x = 0 ∨ x = 1) with rfl | rfl
      · exact media free
      · exact reserved free
    have one : FindsFree v largeSectorCount (x % 2 ^ 28) ↔ OnVolume v.boot largeSectorCount x ∧ x < notFound ∨
        x % 2 ^ 28 = notFound ∧ ∀ cluster, ¬ Usable v largeSectorCount cluster := by
      by_cases on : OnVolume v.boot largeSectorCount x
      · have usable : Usable v largeSectorCount x := ⟨data, inside, free, on⟩
        rw [finds_usable_iff first usable]
        exact ⟨fun small => Or.inl ⟨on, small⟩, fun either => either.elim And.right fun none => absurd usable (none.2 x)⟩
      · rw [finds_beyond_iff first on]
        exact ⟨Or.inr, fun either => either.elim (fun inside => absurd inside.1 on) id⟩
    rw [found, one]
    constructor
    · intro holds y _ free' first'
      obtain rfl := first_unique free first free' first'
      exact holds
    · exact fun every => every x inside free first
  · have none (cluster : Nat) (usable : Usable v largeSectorCount cluster) : False :=
      full cluster usable.listed usable.free
    refine iff_of_true ⟨fun cluster usable => (none cluster usable).elim, ?_⟩ fun x inside free =>
      absurd free (full x inside)
    rw [found]
    exact iff_of_true rfl none

/-- A table for 128 clusters, of which the first entries are in use. Five sectors
have room for three clusters of one sector. -/
def threeClusters (used : Nat) : Volume := ⟨oneSectorTable, fun adr => if adr < 512 + used * 4 then 1 else 0⟩

theorem threeClusters_entries (used x : Nat) :
    tableOf (threeClusters used).boot (threeClusters used).disk x = 0 ↔ used ≤ x := by
  have word : tableOf (threeClusters used).boot (threeClusters used).disk x =
      (halfWord (fun _ => if x < used then 1 else 0)
        ((threeClusters used).boot.reservedSectors * 512 + x * 4)).toNat := by
    refine congrArg BitVec.toNat (halfWord_congr fun k few => if_congr ?_ rfl rfl)
    rw [show (threeClusters used).boot.reservedSectors = 1 from rfl]
    omega
  rw [word, halfWord]
  grind

theorem second_cluster_found : fatFindFreeCluster (threeClusters 3) = 3 ∧
    FindsFree (threeClusters 3) 5 (fatFindFreeCluster (threeClusters 3)) := by
  refine ⟨by decide +kernel, (search_stays_iff (by decide +kernel) (by decide +kernel) 5).mpr ?_⟩
  intro x _ free first
  obtain rfl : x = 3 := by
    have least := (threeClusters_entries 3 x).mp free
    by_contra other
    exact first 3 (by omega) ((threeClusters_entries 3 3).mpr (Nat.le_refl 3))
  exact Or.inl ⟨by decide, by decide⟩

/-- When all three are in use the cluster behind the end of the volume is
returned. -/
theorem cluster_behind_end_found : fatFindFreeCluster (threeClusters 5) = 5 ∧
    fatClusterToSector oneSectorTable 5 = 5 ∧ (∀ cluster, ¬ Usable (threeClusters 5) 5 cluster) ∧
    ¬ FindsFree (threeClusters 5) 5 (fatFindFreeCluster (threeClusters 5)) := by
  have found : fatFindFreeCluster (threeClusters 5) = 5 := by decide +kernel
  have none (cluster : Nat) : ¬ Usable (threeClusters 5) 5 cluster := by
    intro usable
    have later := (threeClusters_entries 5 cluster).mp usable.free
    have listed : cluster < 128 := usable.listed
    have sector := usable.inside 0 (by decide)
    have place : fatClusterToSector (threeClusters 5).boot cluster = cluster := by
      change (cluster + 2 ^ 32 - 2) % 2 ^ 32 * 1 + 1 + 1 * 1 = cluster
      omega
    rw [place] at sector
    omega
  refine ⟨found, by decide, none, fun finds => ?_⟩
  have mark := finds.none.mpr none
  rw [found] at mark
  cases mark

end MandelbrotOS.FatTable
