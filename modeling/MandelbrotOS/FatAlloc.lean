import Mathlib.Data.List.Perm.Subperm
import Mathlib.Logic.Function.Iterate
import MandelbrotOS.FatFiles

/-! Allocation of a chain, `fat_find_free_cluster_chain` of `fs/fat32.c`. Each
round searches the table that the round before has changed. A link is stored
with `fat_change_fat_value`, which writes one byte of the entry, so the end mark
`0xffffff8` of a new cluster becomes `0xf8`, the number of another cluster, and
no chain that is allocated ever ends where it should. -/
namespace MandelbrotOS.FatAlloc
open ByteMemory Fat FatChains FatFiles FatLookup Walks

/-- The variables of `fat_find_free_cluster_chain` and the volume it changes. -/
structure Chaining where
  volume : Volume
  start : Nat
  previous : Nat

/-- One turn of the loop. -/
def chainingTurn (s : Chaining) : Chaining :=
  let v := s.volume
  let current := fatFindFreeCluster v
  let disk := if s.previous ≠ 0 then fatChangeFatValue v.boot v.disk s.previous current else v.disk
  { volume := { v with disk := fatChangeFatValue v.boot disk current 0xffffff8 }
    start := if s.start = 0 then current else s.start
    previous := current }

/-- `fat_find_free_cluster_chain`: the head it returns and the volume. -/
def fatFindFreeClusterChain (v : Volume) (size : Nat) : Nat × Volume :=
  let clusterSize := v.boot.clusterSize * 512
  let size := (size + (clusterSize - 1)) % 2 ^ 64 / clusterSize
  let final := chainingTurn^[size] ⟨v, 0, 0⟩
  (final.start, final.volume)

/-! ### The table by itself -/

/-- The entries of the table, 32 bits each. -/
def tableOf (boot : Boot) (disk : Memory) : Nat → Nat := fun x =>
  (halfWord disk (boot.reservedSectors * 512 + x * 4)).toNat

def entries (boot : Boot) : Nat := boot.tableSize * 128

/-- A store to the low byte of an entry. -/
def setLow (table : Nat → Nat) (x value : Nat) : Nat → Nat :=
  Function.update table x (table x / 256 * 256 + value % 256)

/-- What the search returns for a table of `count` entries. -/
def lowestFree (count : Nat) (table : Nat → Nat) : Nat :=
  match (List.range count).find? fun x => table x == 0 with
  | some x => x % 2 ^ 28
  | none => notFound

structure Round where
  table : Nat → Nat
  start : Nat
  previous : Nat

def turn (count : Nat) (r : Round) : Round :=
  let current := lowestFree count r.table
  let linked := if r.previous ≠ 0 then setLow r.table r.previous current else r.table
  { table := setLow linked current 0xffffff8
    start := if r.start = 0 then current else r.start
    previous := current }

def Chaining.round (s : Chaining) : Round := ⟨tableOf s.volume.boot s.volume.disk, s.start, s.previous⟩

theorem toNat_append_byte (high : BitVec w) (low : BitVec 8) :
    (high ++ low).toNat = high.toNat * 256 + low.toNat := by
  rw [BitVec.toNat_append, ← Nat.shiftLeft_add_eq_or_of_lt low.isLt, Nat.shiftLeft_eq]

theorem halfWord_update (mem : Memory) (adr : Nat) (byte : BitVec 8) :
    (halfWord (Function.update mem adr byte) adr).toNat =
      (halfWord mem adr).toNat / 256 * 256 + byte.toNat := by
  have split (mem : Memory) : (halfWord mem adr).toNat =
      (mem (adr + 3) ++ mem (adr + 2) ++ mem (adr + 1)).toNat * 256 + (mem adr).toNat :=
    toNat_append_byte _ _
  have low := (mem adr).isLt
  grind

theorem lowestFree_lt (count : Nat) (table : Nat → Nat) : lowestFree count table < 2 ^ 28 := by
  unfold lowestFree
  split
  · exact Nat.mod_lt _ (by decide)
  · decide

theorem tableOf_change (boot : Boot) (disk : Memory) (small : cluster < 2 ^ 28) (value : Nat) :
    tableOf boot (fatChangeFatValue boot disk cluster value) =
      setLow (tableOf boot disk) cluster value := by
  funext x
  unfold tableOf fatChangeFatValue setLow
  rw [entryAddress_eq boot small, Function.update_apply]
  split
  · simp_all [halfWord_update]
  · rename_i other
    refine congrArg BitVec.toNat (halfWord_congr fun k inside => ?_)
    grind

theorem fatFindFreeCluster_eq (v : Volume) :
    fatFindFreeCluster v = lowestFree (entries v.boot) (tableOf v.boot v.disk) := by
  have test : (fun x => halfWord v.disk (v.boot.reservedSectors * 512 + x * 4) == 0) =
      fun x => tableOf v.boot v.disk x == 0 := by
    funext x
    rw [Bool.eq_iff_iff, beq_iff_eq, beq_iff_eq]
    exact BitVec.toNat_eq.trans Iff.rfl
  rw [fatFindFreeCluster, test]
  rfl

theorem fatGetNextCluster_eq (boot : Boot) (disk : Memory) (small : cluster < 2 ^ 28) :
    fatGetNextCluster boot disk cluster = tableOf boot disk cluster % 2 ^ 28 := by
  rw [fatGetNextCluster, entryAddress_eq boot small, tableOf]

theorem round_turn (s : Chaining) (small : s.previous < 2 ^ 28) :
    (chainingTurn s).round = turn (entries s.volume.boot) s.round := by
  have small' : fatFindFreeCluster s.volume < 2 ^ 28 := by
    rw [fatFindFreeCluster_eq]
    exact lowestFree_lt _ _
  have found : lowestFree (entries s.volume.boot) s.round.table = fatFindFreeCluster s.volume :=
    (fatFindFreeCluster_eq s.volume).symm
  unfold turn
  rw [found]
  unfold chainingTurn
  simp only [Chaining.round]
  rw [tableOf_change _ _ small']
  generalize fatFindFreeCluster s.volume = current
  by_cases first : s.previous = 0
  · grind
  · simp only [first, ne_eq, not_false_eq_true, if_true, tableOf_change _ _ small]
    rfl

theorem round_iterate (n : Nat) (s : Chaining) (small : s.previous < 2 ^ 28) :
    (chainingTurn^[n] s).round = (turn (entries s.volume.boot))^[n] s.round := by
  induction n generalizing s with
  | zero => rfl
  | succ n ih =>
    grind [chainingTurn, fatFindFreeCluster_eq, lowestFree_lt, Function.iterate_succ_apply, round_turn]

theorem boot_iterate (n : Nat) (s : Chaining) : (chainingTurn^[n] s).volume.boot = s.volume.boot := by
  induction n generalizing s with
  | zero => rfl
  | succ n ih =>
    rw [Function.iterate_succ_apply, ih]
    rfl

/-! ### Rounds -/

theorem setLow_self (table : Nat → Nat) (x value : Nat) :
    setLow table x value x = table x / 256 * 256 + value % 256 := Function.update_self _ _ _

theorem setLow_other (table : Nat → Nat) (value : Nat) (other : y ≠ x) :
    setLow table x value y = table y := Function.update_of_ne other _ _

theorem setLow_high (table : Nat → Nat) (x value y : Nat) : setLow table x value y / 256 = table y / 256 := by
  rcases eq_or_ne y x with rfl | other
  · rw [setLow_self]
    omega
  · rw [setLow_other table value other]

theorem turn_high (count : Nat) (r : Round) (y : Nat) : (turn count r).table y / 256 = r.table y / 256 := by
  simp only [turn]
  grind [setLow_high]

theorem iterate_high (count n : Nat) (r : Round) (y : Nat) :
    ((turn count)^[n] r).table y / 256 = r.table y / 256 := by
  induction n generalizing r with
  | zero => rfl
  | succ n ih => rw [Function.iterate_succ_apply, ih, turn_high]

theorem iterate_start (count n : Nat) (r : Round) (chosen : r.start ≠ 0) :
    ((turn count)^[n] r).start = r.start := by
  induction n generalizing r with
  | zero => rfl
  | succ n ih =>
    simp_all [turn]

theorem lowestFree_eq (small : count ≤ 2 ^ 28) (inside : x < count) (free : table x = 0)
    (lowest : ∀ y < x, table y ≠ 0) : lowestFree count table = x := by
  grind [List.find?_range_eq_some, lowestFree]

theorem lowestFree_first (count : Nat) (table : Nat → Nat) :
    (∃ x < count, table x = 0 ∧ (∀ y < x, table y ≠ 0) ∧ lowestFree count table = x % 2 ^ 28) ∨
      lowestFree count table = notFound ∧ ∀ y < count, table y ≠ 0 := by
  unfold lowestFree
  grind [List.find?_range_eq_some]

theorem lowestFree_cases (small : count ≤ 2 ^ 28) (table : Nat → Nat) :
    (lowestFree count table < count ∧ table (lowestFree count table) = 0 ∧
        ∀ y < lowestFree count table, table y ≠ 0) ∨
      lowestFree count table = notFound ∧ ∀ y < count, table y ≠ 0 := by
  grind [lowestFree_first]

/-- The rounds as long as there is a free entry below 256: the entries `taken`
lead to one another and to entry `0xf8`, and all others are what they were. -/
structure Taking (count : Nat) (before : Nat → Nat) (taken : List Nat) (r : Round) : Prop where
  distinct : taken.Nodup
  below : ∀ x ∈ taken, x < 256 ∧ x < count
  free : ∀ x ∈ taken, before x = 0
  linked : ∀ x ∈ taken, r.table x ≠ 0 ∧ (r.table x = 0xf8 ∨ r.table x ∈ taken)
  same : ∀ x, x ∉ taken → r.table x = before x
  previous : r.previous = taken.headD 0
  passed : ∀ last ∈ taken.head?, ∀ x ≤ last, r.table x ≠ 0
  head : r.start = 0 ∨ r.start ∈ taken
  unset : r.start = 0 → ∀ x ∈ taken, x = 0

theorem Taking.previous_mem (taking : Taking count before taken r) (nonzero : r.previous ≠ 0) :
    r.previous ∈ taken ∧ ∀ x ≤ r.previous, r.table x ≠ 0 := by
  have shape := taking.previous
  have passed := taking.passed
  cases taken with
  | nil => exact absurd shape nonzero
  | cons last rest =>
    simp_all

theorem Taking.table_turn (taking : Taking count before taken r)
    (free : r.table (lowestFree count r.table) = 0) (low : lowestFree count r.table < 256) (x : Nat) :
    (turn count r).table x =
      if x = lowestFree count r.table then 0xf8
      else if x = r.previous ∧ r.previous ≠ 0 then lowestFree count r.table
      else r.table x := by
  simp only [turn]
  generalize lowestFree count r.table = current at free low
  have apart : r.previous ≠ 0 → current ≠ r.previous := by
    rintro nonzero rfl
    exact (taking.linked _ (taking.previous_mem nonzero).1).1 free
  by_cases isNew : x = current
  · rw [if_pos isNew, isNew, setLow_self]
    grind [setLow_other]
  · rw [if_neg isNew, setLow_other _ _ isNew]
    by_cases first : r.previous = 0
    · simp [first]
    · by_cases isLast : x = r.previous
      · obtain ⟨member, -⟩ := taking.previous_mem first
        have byte : r.table r.previous < 256 := by
          rcases (taking.linked _ member).2 with mark | inside
          · omega
          · exact (taking.below _ inside).1
        simp only [ne_eq, first, not_false_eq_true, if_true, isLast, and_self]
        rw [setLow_self]
        omega
      · simp_all [setLow_other]

theorem taking_turn (taking : Taking count before taken r) (small : count ≤ 2 ^ 28)
    (left : ∃ x < 256, x < count ∧ r.table x = 0) :
    ∃ x, Taking count before (x :: taken) (turn count r) := by
  obtain ⟨least, byte, inside, zero⟩ := left
  rcases lowestFree_cases small r.table with ⟨below, free, lowest⟩ | ⟨-, full⟩
  swap
  · exact absurd zero (full least inside)
  have low : lowestFree count r.table < 256 := by
    grind
  have table := taking.table_turn free low
  have start : (turn count r).start = if r.start = 0 then lowestFree count r.table else r.start := rfl
  have previous : (turn count r).previous = lowestFree count r.table := rfl
  generalize lowestFree count r.table = current at *
  have fresh : current ∉ taken := fun member => (taking.linked current member).1 free
  have later : r.previous ≠ 0 → current ≠ 0 := by
    rintro nonzero rfl
    exact (taking.previous_mem nonzero).2 0 (Nat.zero_le _) free
  have kept : ∀ x, x ≠ current → r.table x ≠ 0 → (turn count r).table x ≠ 0 := by
    grind
  refine ⟨current, List.nodup_cons.mpr ⟨fresh, taking.distinct⟩, ?_, ?_, ?_, ?_, previous, ?_, ?_, ?_⟩
  · intro x member
    rcases List.mem_cons.mp member with rfl | member
    · exact ⟨low, below⟩
    · exact taking.below x member
  · intro x member
    rcases List.mem_cons.mp member with rfl | member
    · rw [← taking.same x fresh, free]
    · exact taking.free x member
  · intro x member
    rw [List.mem_cons]
    rcases List.mem_cons.mp member with rfl | member
    · simp_all
    · have other : x ≠ current := fun same => fresh (same ▸ member)
      obtain ⟨nonzero, leads⟩ := taking.linked x member
      grind
  · intro x outside
    have other : x ≠ current := fun same => outside (same ▸ List.mem_cons_self)
    have untaken : x ∉ taken := fun member => outside (List.mem_cons_of_mem _ member)
    rw [table, if_neg other, if_neg]
    · exact taking.same x untaken
    · rintro ⟨rfl, nonzero⟩
      exact untaken (taking.previous_mem nonzero).1
  · grind
  · rw [start]
    split
    · exact Or.inr List.mem_cons_self
    · rename_i chosen
      exact Or.inr (List.mem_cons_of_mem _ (taking.head.resolve_left chosen))
  · intro unset x member
    rw [start] at unset
    split at unset
    · rename_i unchosen
      rcases List.mem_cons.mp member with rfl | member
      · exact unset
      · exact taking.unset unchosen x member
    · contradiction

theorem taking_iterate (small : count ≤ 2 ^ 28) (before : Nat → Nat) (n : Nat) :
    (∃ taken, taken.length = n ∧ Taking count before taken ((turn count)^[n] ⟨before, 0, 0⟩)) ∨
      ∃ m < n, ∃ taken, taken.length = m ∧ Taking count before taken ((turn count)^[m] ⟨before, 0, 0⟩) ∧
        ∀ x < 256, x < count → ((turn count)^[m] ⟨before, 0, 0⟩).table x ≠ 0 := by
  induction n with
  | zero =>
    refine Or.inl ⟨[], rfl, ?_⟩
    exact ⟨List.nodup_nil, by simp, by simp, by simp, fun _ _ => rfl, rfl, by simp, Or.inl rfl, by simp⟩
  | succ n ih =>
    rcases ih with ⟨taken, length, taking⟩ | ⟨m, earlier, stopped⟩
    · by_cases left : ∃ x < 256, x < count ∧ ((turn count)^[n] ⟨before, 0, 0⟩).table x = 0
      · grind [taking_turn, Function.iterate_succ_apply']
      · grind
    · grind

/-! ### No chain is allocated exactly -/

section
variable {before : Nat → Nat} {clusters : List Nat}

theorem low_chain_not_exact (taking : Taking count before taken r) (nonempty : clusters ≠ [])
    (ran : walk (fun x => r.table x % 2 ^ 28) inChain steps head = some clusters)
    (length : clusters.length = taken.length)
    (same : ∀ x < count, x ∉ clusters → r.table x = before x) : False := by
  have inside : taken ⊆ clusters := by
    intro x member
    by_contra outside
    have changed := (taking.linked x member).1
    rw [same x (taking.below x member).2 outside, taking.free x member] at changed
    exact changed rfl
  -- as many, so the chain is made of entries taken
  have only : clusters ⊆ taken :=
    ((List.subperm_of_subset taking.distinct inside).perm_of_length_le (Nat.le_of_eq length)).symm.subset
  obtain ⟨last, member, ends⟩ := walk_ends ran nonempty
  rcases (taking.linked last (only member)).2 with mark | leads
  · rw [mark] at ends
    cases ends
  · have small := (taking.below _ leads).1
    grind [walk_live]

/-- Without a low free entry left, what the chain could consist of is too little. -/
theorem high_chain_not_exact (taking : Taking count before taken r) (fewer : taken.length < n)
    (full : ∀ x < 256, x < count → r.table x ≠ 0) {final : Round}
    (later : r.start ≠ 0 → final.start = r.start) (single : n = 1 → final = turn count ⟨before, 0, 0⟩)
    (high : ∀ x, final.table x / 256 = before x / 256)
    (ran : walk (fun x => final.table x % 2 ^ 28) inChain steps final.start = some clusters)
    (length : clusters.length = n) (free : ∀ x ∈ clusters, x < count ∧ before x = 0) : False := by
  have distinct := walk_nodup ran
  -- a link of the chain leads below 256, where everything free was taken
  have linked : ∀ x ∈ clusters, x = final.start ∨ x ∈ taken := by
    intro x member
    refine (walk_linked ran member).imp_right ?_
    rintro ⟨y, inside, leads⟩
    have upper := high y
    rw [(free y inside).2] at upper
    have low : x < 256 := by omega
    by_contra untaken
    obtain ⟨within, zero⟩ := free x member
    exact full x low within ((taking.same x untaken).trans zero)
  by_cases chosen : r.start = 0
  · -- only entry 0 was taken, and that is in no chain
    have alone : ∀ x ∈ clusters, x = final.start := by
      intro x member
      refine (linked x member).resolve_right fun inside => ?_
      have alive := walk_live ran x member
      rw [taking.unset chosen x inside] at alive
      cases alive
    have one : clusters.length ≤ 1 := by
      have inside : clusters ⊆ [final.start] := fun x member => List.mem_singleton.mpr (alone x member)
      exact (List.subperm_of_subset distinct inside).length_le
    have isOne : n = 1 := by omega
    obtain ⟨x, shape⟩ := List.length_eq_one_iff.mp (length.trans isOne)
    obtain ⟨last, member, ends⟩ := walk_ends ran (by rw [shape]; exact List.cons_ne_nil _ _)
    have isHead := alone last member
    obtain ⟨-, zero⟩ := free last member
    rw [single isOne] at isHead ends
    have marked : (turn count ⟨before, 0, 0⟩).table last = 0xf8 := by
      have head : last = lowestFree count before := isHead
      rw [head] at zero ⊢
      simp only [turn]
      rw [setLow_self]
      simp [zero]
    rw [marked] at ends
    cases ends
  · have inside : clusters ⊆ taken := by
      intro x member
      rcases linked x member with rfl | inside
      · rw [later chosen]
        exact taking.head.resolve_left chosen
      · exact inside
    have short := (List.subperm_of_subset distinct inside).length_le
    omega

theorem no_exact_chain (small : count ≤ 2 ^ 28) (positive : 0 < n)
    (ran : walk (fun x => ((turn count)^[n] ⟨before, 0, 0⟩).table x % 2 ^ 28) inChain steps
      ((turn count)^[n] ⟨before, 0, 0⟩).start = some clusters)
    (length : clusters.length = n) (free : ∀ x ∈ clusters, x < count ∧ before x = 0)
    (same : ∀ x < count, x ∉ clusters → ((turn count)^[n] ⟨before, 0, 0⟩).table x = before x) : False := by
  have nonempty : clusters ≠ [] := by
    grind
  rcases taking_iterate small before n with ⟨taken, total, taking⟩ | ⟨m, earlier, taken, total, taking, full⟩
  · grind [low_chain_not_exact]
  · have later : ((turn count)^[n] ⟨before, 0, 0⟩) =
        (turn count)^[n - m] ((turn count)^[m] ⟨before, 0, 0⟩) := by
      rw [← Function.iterate_add_apply, Nat.sub_add_cancel (Nat.le_of_lt earlier)]
    refine high_chain_not_exact taking (total ▸ earlier) full (fun chosen => ?_) (fun isOne => ?_)
      (iterate_high count n _) ran length free
    · simp_all [iterate_start]
    · rw [isOne]
      rfl

end

/-! ### Rounds on a full table -/

theorem setLow_setLow (table : Nat → Nat) (x first second : Nat) :
    setLow (setLow table x first) x second = setLow table x second := by
  have same : (table x / 256 * 256 + first % 256) / 256 = table x / 256 := by omega
  simp_all [setLow]

theorem lowestFree_full (full : ∀ y < count, table y ≠ 0) : lowestFree count table = notFound := by
  grind [lowestFree]

theorem iterate_notFound (small : count ≤ 2 ^ 28) (missed : lowestFree count before = notFound) (n : Nat) :
    (turn count)^[n + 1] ⟨before, 0, 0⟩ = ⟨setLow before notFound 0xffffff8, notFound, notFound⟩ := by
  have lower : ∀ y < notFound, y < count → before y ≠ 0 := by
    intro y below inside
    rcases lowestFree_cases small before with ⟨-, -, lowest⟩ | ⟨-, full⟩
    · exact lowest y (missed ▸ below)
    · exact full y inside
  have still : lowestFree count (setLow before notFound 0xffffff8) = notFound := by
    refine lowestFree_full fun y inside => ?_
    rcases eq_or_ne y notFound with rfl | other
    · rw [setLow_self]
      omega
    · grind [setLow_other, notFound]
  have nonzero : notFound ≠ 0 := by decide
  induction n with
  | zero => simp [turn, missed]
  | succ n ih =>
    grind [Function.iterate_succ_apply', turn, setLow_setLow]

theorem iterate_zero (zero : lowestFree count before = 0) (n : Nat) :
    ((turn count)^[n + 1] ⟨before, 0, 0⟩).table 0 % 256 = 0xf8 := by
  induction n with
  | zero =>
    simp_all [turn, setLow_self]
  | succ n ih =>
    rw [Function.iterate_succ_apply']
    generalize (turn count)^[n + 1] ⟨before, 0, 0⟩ = r at ih
    simp only [turn]
    generalize lowestFree count r.table = current
    rcases eq_or_ne 0 current with rfl | other
    · rw [setLow_self]
      omega
    · rw [setLow_other _ _ other]
      split
      · simp_all [setLow_other, Ne.symm]
      · exact ih

/-! ### Exact, or cleanly refused -/

def Free (v : Volume) (x : Nat) : Prop := x < entries v.boot ∧ tableOf v.boot v.disk x = 0

def freeCount (v : Volume) : Nat := (List.range (entries v.boot)).countP fun x => tableOf v.boot v.disk x == 0

/-- `size / (cluster_size * 512)`, rounded up. -/
def clustersFor (boot : Boot) (size : Nat) : Nat := (size + (clusterBytes boot - 1)) / clusterBytes boot

def SameTable (v v' : Volume) (x : Nat) : Prop := tableOf v'.boot v'.disk x = tableOf v.boot v.disk x

/-- A chain of exactly `length` clusters that were free, and nothing else changed. -/
def Allocated (v v' : Volume) (head length : Nat) : Prop :=
  ∃ clusters, clusters.length = length ∧ clusters.Nodup ∧ (∀ x ∈ clusters, Free v x) ∧
    chain v' head = some clusters ∧ fatChainClusterLength v' head = some length ∧
    ∀ x < entries v.boot, x ∉ clusters → SameTable v v' x

def Refused (v v' : Volume) (head : Nat) : Prop := head = notFound ∧ ∀ x < entries v.boot, SameTable v v' x

def ExactOrClean (v : Volume) (size : Nat) : Prop :=
  let length := clustersFor v.boot size
  let result := fatFindFreeClusterChain v size
  (length ≤ freeCount v → Allocated v result.2 result.1 length) ∧
    (freeCount v < length → Refused v result.2 result.1)

/-- A boot block of FAT32: `cluster_size` is a `uint8_t`, and a cluster number
has 28 bits. -/
structure Proper (boot : Boot) : Prop where
  clusters : 0 < boot.clusterSize ∧ boot.clusterSize < 256
  table : entries boot ≤ 2 ^ 28

theorem fatFindFreeClusterChain_eq (v : Volume) (proper : Proper v.boot) (fits : size < 2 ^ 64)
    (rounds : if size + (clusterBytes v.boot - 1) < 2 ^ 64 then n = clustersFor v.boot size else n = 0) :
    fatFindFreeClusterChain v size =
      ((chainingTurn^[n] ⟨v, 0, 0⟩).start, (chainingTurn^[n] ⟨v, 0, 0⟩).volume) := by
  have turns : (size + (v.boot.clusterSize * 512 - 1)) % 2 ^ 64 / (v.boot.clusterSize * 512) = n := by
    obtain ⟨positive, byte⟩ := proper.clusters
    unfold clusterBytes at rounds
    split at rounds
    · rename_i whole
      grind [clustersFor, clusterBytes]
    · rw [rounds]
      exact Nat.div_eq_of_lt (by omega)
  grind [fatFindFreeClusterChain]

theorem rounds_eq (v : Volume) (n : Nat) :
    let final := chainingTurn^[n] ⟨v, 0, 0⟩
    final.volume.boot = v.boot ∧ final.start = ((turn (entries v.boot))^[n] ⟨tableOf v.boot v.disk, 0, 0⟩).start ∧
      tableOf final.volume.boot final.volume.disk =
        ((turn (entries v.boot))^[n] ⟨tableOf v.boot v.disk, 0, 0⟩).table := by
  have same := round_iterate n ⟨v, 0, 0⟩ (show 0 < 2 ^ 28 by decide)
  exact ⟨boot_iterate n ⟨v, 0, 0⟩, congrArg Round.start same, congrArg Round.table same⟩

theorem not_allocated (v : Volume) (proper : Proper v.boot) (positive : 0 < n) :
    ¬ Allocated v (chainingTurn^[n] ⟨v, 0, 0⟩).volume (chainingTurn^[n] ⟨v, 0, 0⟩).start n := by
  rintro ⟨clusters, length, -, free, ran, -, same⟩
  obtain ⟨-, start, table⟩ := rounds_eq v n
  unfold chain at ran
  rw [start] at ran
  have onTable : walk (fun x => ((turn (entries v.boot))^[n] ⟨tableOf v.boot v.disk, 0, 0⟩).table x % 2 ^ 28)
      inChain (2 ^ 64) ((turn (entries v.boot))^[n] ⟨tableOf v.boot v.disk, 0, 0⟩).start = some clusters := by
    refine walk_congr ran fun x member => ?_
    have alive := inChain_iff.mp (walk_live ran x member)
    rw [fatGetNextCluster_eq _ _ (by omega), table]
  refine no_exact_chain proper.table positive onTable length free fun x inside outside => ?_
  rw [← table]
  exact same x inside outside

theorem refused_iff (v : Volume) (proper : Proper v.boot) (n : Nat) :
    Refused v (chainingTurn^[n + 1] ⟨v, 0, 0⟩).volume (chainingTurn^[n + 1] ⟨v, 0, 0⟩).start ↔
      (∀ x, ¬ Free v x) ∧ (entries v.boot ≤ notFound ∨ tableOf v.boot v.disk notFound % 256 = 0xf8) := by
  obtain ⟨-, start, table⟩ := rounds_eq v (n + 1)
  unfold Refused SameTable
  rw [start, table]
  rcases lowestFree_cases proper.table (tableOf v.boot v.disk) with ⟨inside, zero, -⟩ | ⟨missed, full⟩
  · have isFree : Free v (lowestFree (entries v.boot) (tableOf v.boot v.disk)) := ⟨inside, zero⟩
    refine ⟨fun ⟨head, same⟩ => ?_, fun ⟨allTaken, _⟩ => absurd isFree (allTaken _)⟩
    exfalso
    rcases eq_or_ne (lowestFree (entries v.boot) (tableOf v.boot v.disk)) notFound with last | found
    · -- the last entry of the largest table has the number of the mark
      have changed := same _ inside
      rw [iterate_notFound proper.table last, last] at changed
      simp_all [setLow_self]
    rcases eq_or_ne (lowestFree (entries v.boot) (tableOf v.boot v.disk)) 0 with first | later
    · grind [iterate_zero]
    · simp_all [turn, iterate_start]
  · rw [iterate_notFound proper.table missed]
    constructor
    · rintro ⟨-, same⟩
      refine ⟨fun x free => full x free.1 free.2, ?_⟩
      by_contra stray
      rw [not_or, Nat.not_le] at stray
      grind [setLow_self]
    · rintro ⟨-, harmless⟩
      refine ⟨rfl, fun x inside => ?_⟩
      rcases eq_or_ne x notFound with rfl | other
      · grind [setLow_self]
      · exact setLow_other _ _ other

theorem freeCount_eq_zero (allTaken : ∀ x, ¬ Free v x) : freeCount v = 0 := by
  unfold freeCount
  rw [List.countP_eq_zero]
  intro x inside zero
  exact allTaken x ⟨List.mem_range.mp inside, by simpa using zero⟩

theorem chain_zero (v : Volume) : chain v 0 = some [] := walk_dead rfl _

/-- The allocation is exact or cleanly refused only for size 0, and on a full
table for a size that can be rounded up, where the store to the entry of the
number `0xfffffff` must not change the table. -/
theorem chain_exact_or_refused_iff (v : Volume) (proper : Proper v.boot) (fits : size < 2 ^ 64) :
    ExactOrClean v size ↔ size = 0 ∨
      (size + (clusterBytes v.boot - 1) < 2 ^ 64 ∧ (∀ x, ¬ Free v x) ∧
        (entries v.boot ≤ notFound ∨ tableOf v.boot v.disk notFound % 256 = 0xf8)) := by
  have bytes : 0 < clusterBytes v.boot := Nat.mul_pos proper.clusters.1 (by decide)
  unfold ExactOrClean
  rcases Nat.eq_zero_or_pos size with rfl | positive
  · have none : clustersFor v.boot 0 = 0 := Nat.div_eq_of_lt (by omega)
    rw [fatFindFreeClusterChain_eq v proper fits (n := 0) (by simp [none]), none]
    refine iff_of_true ⟨fun _ => ?_, fun fewer => absurd fewer (Nat.not_lt_zero _)⟩ (Or.inl rfl)
    refine ⟨[], rfl, List.nodup_nil, by simp, chain_zero v, ?_, fun _ _ _ => rfl⟩
    rw [fatChainClusterLength_eq]
    exact congrArg (Option.map List.length) (chain_zero v)
  have wanted : 0 < clustersFor v.boot size := Nat.div_pos (by omega) bytes
  have nonzero : size ≠ 0 := Nat.ne_of_gt positive
  by_cases whole : size + (clusterBytes v.boot - 1) < 2 ^ 64
  · obtain ⟨n, rounds⟩ := Nat.exists_eq_succ_of_ne_zero (Nat.ne_of_gt wanted)
    rw [fatFindFreeClusterChain_eq v proper fits (by rw [if_pos whole]), rounds]
    simp only [nonzero, false_or, whole, true_and]
    rw [← refused_iff v proper n]
    refine ⟨fun ⟨exact, clean⟩ => ?_, fun refused => ?_⟩
    · rcases Nat.lt_or_ge (freeCount v) (n + 1) with fewer | enough
      · exact clean fewer
      · exact absurd (exact enough) (not_allocated v proper (Nat.succ_pos n))
    · have empty := freeCount_eq_zero ((refused_iff v proper n).mp refused).1
      exact ⟨fun enough => absurd enough (by omega), fun _ => refused⟩
  · rw [fatFindFreeClusterChain_eq v proper fits (n := 0) (by rw [if_neg whole])]
    refine iff_of_false (fun ⟨exact, clean⟩ => ?_) fun holds => holds.elim nonzero fun rest => whole rest.1
    rcases Nat.lt_or_ge (freeCount v) (clustersFor v.boot size) with fewer | enough
    · exact absurd (clean fewer).1 (show 0 ≠ notFound by decide)
    · obtain ⟨clusters, length, -, -, ran, -⟩ := exact enough
      have empty : clusters = [] := Option.some.inj (ran.symm.trans (chain_zero v))
      rw [empty] at length
      exact absurd length (Nat.ne_of_lt wanted)

theorem full_table_refused : ExactOrClean ⟨⟨1, 1, 1, 1, 2⟩, fun _ => 1⟩ 512 := by
  refine (chain_exact_or_refused_iff _ ⟨by decide, by decide⟩ (by decide)).mpr ?_
  refine Or.inr ⟨by decide, fun x free => ?_, Or.inl (by decide)⟩
  exact absurd free.2 (show (1#8 ++ 1#8 ++ 1#8 ++ 1#8).toNat ≠ 0 by decide)

/-- A table of 256 entries, of which the first two are in use. -/
def twoUsed : Volume := ⟨⟨1, 1, 1, 2, 2⟩, fun adr => if adr < 520 then 1 else 0⟩

/-- One cluster is asked for, and the chain that is returned has a second one,
which was not allocated. -/
theorem one_cluster_makes_a_chain_of_two :
    ∃ v', fatFindFreeClusterChain twoUsed 512 = (2, v') ∧ clustersFor twoUsed.boot 512 = 1 ∧
      Free twoUsed 2 ∧ fatChainClusterLength v' 2 = some 2 ∧ chain v' 2 = some [2, 0xf8] ∧
      ¬ ExactOrClean twoUsed 512 := by
  have head : (fatFindFreeClusterChain twoUsed 512).1 = 2 := by decide +kernel
  have short : walk (fatGetNextCluster (fatFindFreeClusterChain twoUsed 512).2.boot
      (fatFindFreeClusterChain twoUsed 512).2.disk) inChain 2 2 = some [2, 0xf8] := by decide +kernel
  have ran : chain (fatFindFreeClusterChain twoUsed 512).2 2 = some [2, 0xf8] := walk_more short (by decide)
  have isFree : Free twoUsed 2 := ⟨by decide, by decide +kernel⟩
  refine ⟨(fatFindFreeClusterChain twoUsed 512).2, Prod.ext head rfl, by decide, isFree, ?_, ran,
    fun claimed => ?_⟩
  · rw [fatChainClusterLength_eq, ran]
    rfl
  · have enough : clustersFor twoUsed.boot 512 ≤ freeCount twoUsed :=
      List.countP_pos_iff.mpr ⟨2, List.mem_range.mpr isFree.1, beq_iff_eq.mpr isFree.2⟩
    obtain ⟨clusters, length, -, -, same, -⟩ := claimed.1 enough
    rw [head, ran] at same
    cases same
    cases length

end MandelbrotOS.FatAlloc
