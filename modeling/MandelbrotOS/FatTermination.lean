import MandelbrotOS.FatTable

/-! Which loops along cluster chains end. None of them keeps track of where it has
been: over links in a circle those that read go on for ever, and so does a write
that the chain has no room for when no cluster is left to add. The loop of
`fat_free_chain` clears the low byte of each link on its way, so that it may come
out of a circle, and `fat_write_cluster_chain` may write over a link it has not
followed yet. -/
namespace MandelbrotOS.FatTermination
open Blocks ByteMemory Fat FatAlloc FatChains FatFiles FatLookup FatTable Walks

instance : Finite {x // inChain x = true} :=
  Finite.of_injective (fun x => (⟨x.1, (inChain_iff.mp x.2).2⟩ : Fin 0xffffff7)) fun _ _ same =>
    Subtype.ext (Fin.mk.inj same)

def linksFrom (v : Volume) (cluster n : Nat) : Nat := (fatGetNextCluster v.boot v.disk)^[n] cluster

/-- The entry of one cluster is read from within the data of another. -/
def LiesIn (boot : Boot) (x y : Nat) : Prop :=
  clusterAddress boot y ≤ entryAddress boot x ∧ entryAddress boot x < clusterAddress boot y + clusterBytes boot

instance (boot : Boot) (x y : Nat) : Decidable (LiesIn boot x y) := inferInstanceAs (Decidable (_ ∧ _))

theorem aligned (boot : Boot) (x y : Nat) :
    4 ∣ entryAddress boot x ∧ 4 ∣ clusterAddress boot y ∧ 4 ∣ clusterBytes boot := by
  refine ⟨?_, ?_, ?_⟩
  · rw [entryAddress]
    omega
  · exact Nat.dvd_mul_left_of_dvd (by decide) _
  · exact Nat.dvd_mul_left_of_dvd (by decide) _

theorem written_entry (boot : Boot) (buffer : Memory) (s : Memory × Nat) (few : k < 4) (x y : Nat) :
    (writeTurn boot buffer s y).1.1 (entryAddress boot x + k) =
      if LiesIn boot x y then buffer (s.2 + (entryAddress boot x - clusterAddress boot y + k))
      else s.1 (entryAddress boot x + k) := by
  obtain ⟨⟨entry, atEntry⟩, ⟨start, atStart⟩, width, wide⟩ := aligned boot x y
  simp only [writeTurn, fatWriteCluster, copy]
  by_cases here : LiesIn boot x y
  · have bounds := here
    rw [LiesIn] at bounds
    rw [if_pos here, if_pos (by omega), Nat.sub_add_comm bounds.1]
  · rw [if_neg here, if_neg]
    rw [LiesIn] at here
    omega

theorem link_spared {boot : Boot} (apart : ¬ LiesIn boot x y) (buffer : Memory) (s : Memory × Nat) :
    fatGetNextCluster boot (writeTurn boot buffer s y).1.1 x = fatGetNextCluster boot s.1 x := by
  refine fatGetNextCluster_congr boot fun k few => ?_
  rw [written_entry boot buffer s few, if_neg apart]

def OnTrail (boot : Boot) (trail : Nat → Nat) (asked : Nat → Prop) (n : Nat) (disk : Memory) : Prop :=
  ∀ i, n ≤ i → asked i → fatGetNextCluster boot disk (trail i) = trail (i + 1)

theorem OnTrail.turn {boot : Boot} {s : Memory × Nat} (linked : OnTrail boot trail asked n s.1)
    (apart : ∀ i, n ≤ i → asked i → ¬ LiesIn boot (trail i) (trail n)) (buffer : Memory) :
    OnTrail boot trail asked (n + 1) (writeTurn boot buffer s (trail n)).1.1 := by
  intro i later inside
  rw [link_spared (apart i (by omega) inside)]
  exact linked i (by omega) inside

theorem OnTrail.next {boot : Boot} {s : Memory × Nat} (linked : OnTrail boot trail asked n s.1) (here : asked n)
    (apart : ¬ LiesIn boot (trail n) (trail n)) (buffer : Memory) :
    (writeTurn boot buffer s (trail n)).2 = trail (n + 1) :=
  (link_spared apart buffer s).trans (linked n (Nat.le_refl n) here)

/-- The entry of a cluster is the cluster itself. -/
def LeadsBack (boot : Boot) (x : Nat) (disk : Memory) : Prop :=
  ∀ k < 4, disk (entryAddress boot x + k) = (BitVec.ofNat 32 x).extractLsb' (8 * k) 8

theorem LeadsBack.link (back : LeadsBack boot x disk) (alive : inChain x = true) :
    fatGetNextCluster boot disk x = x := by
  have small := inChain_iff.mp alive
  rw [fatGetNextCluster, halfWord_of_bytes back, BitVec.toNat_ofNat]
  omega

/-- Where the loop of `fat_free_chain` does not return. -/
def goesOn (next : Nat) : Bool := next != 0 && next != 0xffffff8

theorem goesOn_iff : goesOn next = true ↔ ¬ (next = 0 ∨ next = 0xffffff8) := by
  simp [goesOn]

/-- The links from a cluster lead to a free entry or to the mark `0xffffff8`. -/
def Stops (v : Volume) (cluster : Nat) : Prop :=
  ∃ n, goesOn ((fatGetNextCluster v.boot v.disk)^[n + 1] cluster) = false

theorem walk_below {next : Nat → Nat} {live : Nat → Bool} (below : ∀ x, next x < 2 ^ 28)
    (dead : live (next^[n + 1] cluster) = false) :
    ∃ path, walk next live n (next cluster) = some path ∧ path.length ≤ 2 ^ 28 := by
  rw [Function.iterate_succ_apply] at dead
  obtain ⟨path, ran⟩ := walk_of_iterate dead
  have small : ∀ x ∈ path, x < 2 ^ 28 := walk_inside ran (fun _ => below cluster) fun x _ _ _ => below x
  have few := List.Nodup.length_le_of_subset (walk_nodup ran) fun x member => List.mem_range.mpr (small x member)
  simp_all

/-- The link of a cluster without its low byte. -/
def bareLink (boot : Boot) (disk : Memory) (x : Nat) : Nat := fatGetNextCluster boot disk x / 256 * 256

/-- The clusters that the links, with or without their low bytes, lead to. -/
inductive Comes (v : Volume) (cluster : Nat) : Nat → Prop
  | start : Comes v cluster cluster
  | link : Comes v cluster x → Comes v cluster (fatGetNextCluster v.boot v.disk x)
  | bare : Comes v cluster x → Comes v cluster (bareLink v.boot v.disk x)

/-- From each of these clusters the links without their low bytes lead to 0. -/
def Sinks (v : Volume) (cluster : Nat) : Prop :=
  ∀ x, Comes v cluster x → ∃ n, (bareLink v.boot v.disk)^[n + 1] x = 0

/-- The links that have a low byte to clear. -/
def marked (boot : Boot) (disk : Memory) : Finset Nat :=
  (Finset.range (2 ^ 28)).filter fun x => fatGetNextCluster boot disk x % 256 ≠ 0

/-- Each link is the one of the volume or that without its low byte. -/
def Worn (v : Volume) (disk : Memory) : Prop :=
  ∀ x, fatGetNextCluster v.boot disk x = fatGetNextCluster v.boot v.disk x ∨
    fatGetNextCluster v.boot disk x = bareLink v.boot v.disk x

theorem Worn.bareLink (worn : Worn v disk) (x : Nat) :
    bareLink v.boot disk x = FatTermination.bareLink v.boot v.disk x := by
  have either := worn x
  unfold FatTermination.bareLink at either ⊢
  omega

theorem Worn.clear (worn : Worn v disk) (cluster : Nat) :
    Worn v (fatChangeFatValue v.boot disk cluster 0) := by
  intro x
  by_cases here : x % 2 ^ 30 = cluster % 2 ^ 30
  · right
    rw [← worn.bareLink, fatGetNextCluster_alias v.boot _ here, fatGetNextCluster_change,
      FatTermination.bareLink, fatGetNextCluster_alias v.boot disk here, Nat.zero_mod, Nat.add_zero]
  · rw [fatGetNextCluster_change_other v.boot disk 0 here]
    exact worn x

theorem Sinks.walk (sinks : Sinks v cluster) (comes : Comes v cluster x) :
    ∃ steps path, walk (bareLink v.boot v.disk) (· != 0) steps (bareLink v.boot v.disk x) = some path ∧
      path.length ≤ 2 ^ 28 := by
  have below (y : Nat) : bareLink v.boot v.disk y < 2 ^ 28 :=
    Nat.lt_of_le_of_lt (Nat.div_mul_le_self _ _) (fatGetNextCluster_lt _ _ y)
  obtain ⟨n, zero⟩ := sinks x comes
  have dead : (((bareLink v.boot v.disk)^[n + 1] x) != 0) = false := by
    rw [zero]
    rfl
  exact ⟨n, @walk_below _ _ _ (· != 0) below dead⟩

section
variable {v v' : Volume} {cluster : Nat}

/-- The links that are followed from a cluster are the same on both volumes. -/
def SameLinks (v v' : Volume) (cluster : Nat) : Prop :=
  v'.boot = v.boot ∧ ∀ n, (∀ j ≤ n, inChain (linksFrom v cluster j) = true) →
    fatGetNextCluster v.boot v'.disk (linksFrom v cluster n) = fatGetNextCluster v.boot v.disk (linksFrom v cluster n)

theorem SameLinks.links (same : SameLinks v v' cluster) (alive : ∀ j < n, inChain (linksFrom v cluster j) = true) :
    linksFrom v' cluster n = linksFrom v cluster n := by
  induction n with
  | zero => rfl
  | succ n ih =>
    have here := ih fun j early => alive j (by omega)
    rw [linksFrom, linksFrom, Function.iterate_succ_apply', Function.iterate_succ_apply', same.1]
    rw [linksFrom, linksFrom, same.1] at here
    rw [here]
    exact same.2 n fun j early => alive j (by omega)

end

/-! ### Writing to a file -/

/-- No cluster is free, and the chain ends with a mark. -/
structure Exhausted (v : Volume) (head : Nat) (clusters : List Nat) : Prop where
  full : ∀ x, ¬ Free v x
  walked : chain v head = some clusters
  nonempty : clusters ≠ []
  mark : 0xfffff00 ≤ (fatGetNextCluster v.boot v.disk)^[clusters.length] head

theorem iterate_of_walk (walked : walk next inChain steps head = some clusters)
    (walked' : walk next' inChain steps' head = some clusters) (early : i < clusters.length) :
    next'^[i] head = next^[i] head := by
  have same := (walk_iterate walked').symm.trans (walk_iterate walked)
  exact List.map_inj_left.mp same i (List.mem_range.mpr early)

theorem Exhausted.turn (exhausted : Exhausted v head clusters) :
    Exhausted { v with disk := fatChangeFatValue v.boot (fatChangeFatValue v.boot v.disk
      ((fatGetNextCluster v.boot v.disk)^[clusters.length - 1] head) notFound) notFound 0xffffff8 }
      head clusters := by
  obtain ⟨full, walked, nonempty, mark⟩ := exhausted
  have positive := List.length_pos_of_ne_nil nonempty
  have member : (fatGetNextCluster v.boot v.disk)^[clusters.length - 1] head ∈ clusters := by
    rw [walk_iterate walked, List.length_map, List.length_range]
    grind
  have out := walk_out walked
  rw [show clusters.length = clusters.length - 1 + 1 by omega, Function.iterate_succ_apply'] at mark out
  generalize origin : (fatGetNextCluster v.boot v.disk)^[clusters.length - 1] head = last at member mark out ⊢
  have live := walk_live walked
  have small := inChain_iff.mp (live last member)
  have bound := fatGetNextCluster_lt v.boot v.disk last
  let disk := fatChangeFatValue v.boot (fatChangeFatValue v.boot v.disk last notFound) notFound 0xffffff8
  have others {x : Nat} (alive : inChain x = true) (different : x ≠ last) :
      fatGetNextCluster v.boot disk x = fatGetNextCluster v.boot v.disk x := by
    grind [inChain_iff, fatGetNextCluster_change_other, notFound]
  have ends : fatGetNextCluster v.boot disk last = notFound := by
    rw [fatGetNextCluster_change_other _ _ _ (by rw [notFound]; omega), fatGetNextCluster_change, notFound]
    omega
  have table : tableOf v.boot disk = setLow (setLow (tableOf v.boot v.disk) last notFound) notFound 0xffffff8 := by
    rw [tableOf_change _ _ (by decide), tableOf_change _ _ (by omega)]
  have walked' : walk (fatGetNextCluster v.boot disk) inChain (2 ^ 64) head = some clusters := by
    refine walk_relinked walked fun x listed => ?_
    by_cases here : x = last
    · rw [here, ends]
      exact Or.inr ⟨out, rfl⟩
    · exact Or.inl (others (live x listed) here)
  refine ⟨fun x free => ?_, walked', nonempty, ?_⟩
  · obtain ⟨inside, zero⟩ := free
    rw [show tableOf v.boot disk x = _ from congrFun table x] at zero
    by_cases none : x = notFound
    · rw [none, setLow_self] at zero
      omega
    · rw [setLow_other _ _ none] at zero
      by_cases here : x = last
      · grind [setLow_self, notFound]
      · rw [setLow_other _ _ here] at zero
        exact full x ⟨inside, zero⟩
  · have again := iterate_of_walk walked walked' (show clusters.length - 1 < clusters.length by omega)
    rw [show clusters.length = clusters.length - 1 + 1 by omega, Function.iterate_succ_apply']
    grind [notFound]

end MandelbrotOS.FatTermination
