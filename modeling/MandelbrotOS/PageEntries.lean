import MandelbrotOS.LastWrites
import MandelbrotOS.RangeMapping

/-! The last-level entries of a pagemap and the memory behind them. Mapping
pages is a list of writes of which the last to a page shows; pages that are in
use and hold no table keep their bytes through all of it. -/
namespace MandelbrotOS.PageEntries
open ByteMemory Forests LastWrites PageLoops PageTables Pmm RangeMapping Runs Vmm

variable {α : Type}

theorem leafEntry_congr (mem : Memory) (top : Nat) (same : pageOf one = pageOf other) :
    leafEntry mem top one = leafEntry mem top other := by
  simp_all [pageOf_eq_iff, leafEntry]

theorem pageOf_add (virtualAddress : BitVec 64) (k : Nat) :
    pageOf (virtualAddress + BitVec.ofNat 64 k) = pageOf virtualAddress +
      BitVec.ofNat 36 ((virtualAddress.toNat % pageSize + k) / pageSize) := by
  apply BitVec.eq_of_toNat_eq
  simp only [pageOf, BitVec.extractLsb'_toNat, BitVec.toNat_add, BitVec.toNat_ofNat,
    Nat.shiftRight_eq_div_pow, pageSize]
  omega

theorem userEntry_access (page : Nat) (writable : Bool) :
    isPresent (pageAddress page ||| (if writable then 0b111 else 0b101)) = true ∧
      (pageAddress page ||| (if writable then 0b111 else 0b101)).getLsbD 1 = writable := by
  have bit : (pageAddress page).getLsbD 1 = false := by
    have low := congrArg (·.getLsbD 1) (pageAddress_aligned page)
    simpa [BitVec.getLsbD_and] using low
  refine ⟨?_, ?_⟩
  · cases writable <;> simp [isPresent_eq]
  · grind

theorem userEntry_fields (writable : Bool) (bound : first + page < 2 ^ 52) :
    let entry := (pageAddress first + BitVec.ofNat 64 (page * pageSize)) |||
      (if writable then 0b111 else 0b101)
    isPresent entry = true ∧ frameOf entry = first + page ∧ entry.getLsbD 1 = writable := by
  intro entry
  have address : entry = pageAddress (first + page) ||| (if writable then 0b111 else 0b101) := by
    grind [pageAddress_add]
  obtain ⟨present, write⟩ := userEntry_access (first + page) writable
  grind [frameOf, addressOf_or, pageAddress_aligned, pageAddress, pageSize]

/-- A page in use that holds no table. -/
structure DataPage (busy : α → Nat → Prop) (roots : Set Nat) (s : State α) (page : Nat) : Prop where
  inUse : busy s.alloc page
  noTable : ∀ root ∈ roots, ∀ path, path.length ≤ 3 → reach (next s.mem) root path ≠ some page

def SamePage (mem mem' : Memory) (page : Nat) : Prop :=
  ∀ k < pageSize, mem' (page * pageSize + k) = mem (page * pageSize + k)

theorem outside_run (apart : page < first ∨ first + pages ≤ page) (inside : k < pageSize) :
    page * pageSize + k < first * pageSize ∨ first * pageSize + pages * pageSize ≤ page * pageSize + k := by
  grind [pageSize]

theorem inside_run (low : first ≤ page) (high : page < first + pages) (inside : k < pageSize) :
    first * pageSize ≤ page * pageSize + k ∧
      page * pageSize + k < first * pageSize + pages * pageSize := by
  grind [pageSize]

theorem page_apart (distinct : page ≠ other) (inside : k < pageSize) :
    page * pageSize + k < other * pageSize ∨ other * pageSize + pageSize ≤ page * pageSize + k := by
  have around : page < other ∨ other + 1 ≤ page := Nat.lt_or_gt_of_ne distinct
  have apart := outside_run around inside
  rwa [Nat.one_mul] at apart

theorem samePage_fill (distinct : page ≠ other) (mem : Memory) (byte : BitVec 8) :
    SamePage mem (fill mem (other * pageSize) pageSize byte) page :=
  fun _ inside => fill_apart (page_apart distinct inside)

theorem samePage_setEntry (distinct : page ≠ table) (s : State α) (index : Fin 512) (entry : BitVec 64) :
    SamePage s.mem (s.setEntry (table * pageSize) index entry).mem page := by
  intro k inside
  have apart := page_apart distinct inside
  have slots := index.isLt
  refine storeWord_apart (apart.imp (fun below => ?_) fun above => ?_)
  · exact Nat.lt_of_lt_of_le below (Nat.le_add_right ..)
  · have size : pageSize = 4096 := rfl
    omega

theorem samePage_trans (first : SamePage mem mem' page) (second : SamePage mem' mem'' page) :
    SamePage mem mem'' page := fun k inside => (second k inside).trans (first k inside)

section
variable {A : Allocator α} {busy : α → Nat → Prop} {shared : Fin 512 → Prop} {roots : Set Nat}
  {s s' s'' : State α}

theorem dataPage_later (unused : OnUnused busy roots s s')
    (still : ∀ page, busy s.alloc page → busy s'.alloc page) (data : DataPage busy roots s page) :
    DataPage busy roots s' page := by
  refine ⟨still page data.inUse, fun root member path short reached => ?_⟩
  rcases unused root member path page short reached with old | new
  · exact data.noTable root member path short old
  · exact new data.inUse

/-- The pages of one pagemap were mapped by these writes, and nothing else was
done to what the other pages show. -/
structure Mapped (busy : α → Nat → Prop) (shared : Fin 512 → Prop) (roots : Set Nat)
    (s s' : State α) (root : Nat) (writes : List (BitVec 36 × BitVec 64)) : Prop where
  tables : Tables busy s' shared roots
  unused : OnUnused busy roots s s'
  still : ∀ page, busy s.alloc page → busy s'.alloc page
  leaf : ∀ probe, leafEntry s'.mem root probe =
    shown (leafEntry s.mem root probe) writes (pageOf probe)
  data : ∀ page, DataPage busy roots s page → SamePage s.mem s'.mem page

theorem mapped_trans (first : Mapped busy shared roots s s' root writes)
    (second : Mapped busy shared roots s' s'' root writes') :
    Mapped busy shared roots s s'' root (writes ++ writes') := by
  refine ⟨second.tables, onUnused_trans first.unused second.unused first.still,
    fun page used => second.still page (first.still page used), fun probe => ?_, fun page data => ?_⟩
  · rw [second.leaf, first.leaf, shown_append]
  · exact samePage_trans (first.data page data)
      (second.data page (dataPage_later first.unused first.still data))

theorem mapped_refl (tables : Tables busy s shared roots) (root : Nat) :
    Mapped busy shared roots s s root [] :=
  ⟨tables, fun _ _ _ _ _ reached => Or.inl reached, fun _ used => used, fun _ => rfl, fun _ _ _ _ => rfl⟩

section
variable (fresh : HandsOut A busy 1) (tables : Tables busy s shared roots) (member : root ∈ roots)
include fresh tables member

theorem vmmGetNextLevel_viewed (viewer : other ∈ roots) (reached : reach (next s.mem) root path = some table)
    (short : path.length < 3) (ran : vmmGetNextLevel A s (table * pageSize) index = some (adr, s')) :
    Mapped busy shared roots s s' other [] := by
  have grown : Grown busy shared roots s s' := by
    grind [vmmGetNextLevel_grown]
  refine ⟨grown.tables, grown.unused, grown.busy, fun probe => ?_, fun page data => ?_⟩ <;>
    rcases vmmGetNextLevel_cases fresh tables.null ran with
      ⟨present, rfl, rfl⟩ | ⟨absent, frame, rfl, bound, unused, inUse, stored⟩
  · rfl
  · have linkable := linkable_of_unused tables member reached short absent unused
    have distinct : table ≠ frame := fun same =>
      unused (same ▸ tables.owned root member path table (Nat.le_of_lt short) reached)
    rw [stored]
    exact leafEntry_link tables.forest linkable bound distinct
      (linkStored_of_fill s.mem table index frame) viewer probe
  · exact fun _ _ => rfl
  · have notFrame : page ≠ frame := fun same => unused (same ▸ data.inUse)
    have notTable : page ≠ table := fun same =>
      data.noTable root member path (Nat.le_of_lt short) (same ▸ reached)
    rw [stored]
    exact samePage_trans (samePage_fill notFrame s.mem 0)
      (samePage_setEntry notTable (⟨_, s.alloc⟩ : State α) index _)

theorem descend_viewed (viewer : other ∈ roots)
    (ran : descend A s (root * pageSize) virtualAddress = some (adr, s')) :
    Mapped busy shared roots s s' other [] := by
  simp only [descend, bind_returns, Prod.exists] at ran
  obtain ⟨_, s3, ran3, _, s2, ran2, ran1⟩ := ran
  obtain ⟨pml3, rfl, grown3, reached3⟩ := vmmGetNextLevel_grown fresh tables member
    (reach_nil _ _) (by decide) ran3
  obtain ⟨pml2, rfl, grown2, reached2⟩ := vmmGetNextLevel_grown fresh grown3.tables member
    reached3 (by simp) ran2
  have first := vmmGetNextLevel_viewed fresh tables member viewer (reach_nil _ _) (by decide) ran3
  have second := vmmGetNextLevel_viewed fresh grown3.tables member viewer reached3 (by simp) ran2
  have third := vmmGetNextLevel_viewed fresh grown2.tables member viewer reached2 (by simp) ran1
  exact mapped_trans first (mapped_trans second third)

theorem vmmVirtToPhys_viewed (viewer : other ∈ roots)
    (ran : vmmVirtToPhys A s (root * pageSize) virtualAddress = some (answer, s')) :
    Mapped busy shared roots s s' other [] := by
  grind [vmmVirtToPhys, bind_returns, descend_viewed]

theorem vmmMapPage_mapped (ran : vmmMapPage A s (root * pageSize) physicalAddress virtualAddress flags = some s') :
    Mapped busy shared roots s s' root [(pageOf virtualAddress, physicalAddress ||| flags)] := by
  have entered := vmmMapPage_entered fresh tables member ran
  simp only [vmmMapPage, bind_returns, Prod.exists] at ran
  obtain ⟨adr, middle, descended, stored⟩ := ran
  cases stored
  have before := descend_viewed fresh tables member member descended
  obtain ⟨leaf, rfl, grown, reached⟩ := descend_grown fresh tables member descended
  obtain ⟨-, -, seen⟩ := leafEntry_setEntry grown.tables member reached (physicalAddress ||| flags)
  refine ⟨entered.tables, entered.unused, entered.busy, fun probe => ?_, fun page data => ?_⟩
  · have hit : (reach (next middle.mem) root (directories probe) = some leaf ∧
        pmlEntry 12 probe = pmlEntry 12 virtualAddress) ↔ pageOf virtualAddress = pageOf probe := by
      rw [reaches_leaf_iff grown.tables member member reached, eq_comm (a := pageOf _), pageOf_eq_iff]
      simp
    rw [seen root member probe, shown_single, before.leaf]
    exact if_congr hit rfl rfl
  · have later := dataPage_later grown.unused grown.busy data
    have notLeaf : page ≠ leaf := fun same =>
      later.noTable root member _ (directories_short virtualAddress) (same ▸ reached)
    exact samePage_trans (before.data page data) (samePage_setEntry notLeaf middle _ _)

end

/-- Pages `pcalloc` has handed out: not in use before, cleared, and no tables. -/
structure Handed (busy : α → Nat → Prop) (roots : Set Nat) (s s' : State α) (first pages : Nat) :
    Prop where
  bound : first + pages ≤ 2 ^ 52
  before : ∀ page, first ≤ page → page < first + pages → ¬ busy s.alloc page
  data : ∀ page, first ≤ page → page < first + pages → DataPage busy roots s' page
  blank : ∀ page, first ≤ page → page < first + pages → ∀ k < pageSize, s'.mem (page * pageSize + k) = 0

theorem pcalloc_mapped (fresh : HandsOutAt A busy s.alloc pages) (tables : Tables busy s shared roots)
    (member : root ∈ roots) (ran : pcalloc A s pages = some (adr, s')) :
    Mapped busy shared roots s s' root [] ∧
      ∃ first, adr = first * pageSize ∧ Handed busy roots s s' first pages := by
  obtain ⟨first, rfl, bound, unused, inUse⟩ := fresh _ _ (pcalloc_eq ran).1
  obtain ⟨slots, apart⟩ := sameSlots_of_pcalloc tables unused ran
  have grown := grown_of_slots tables slots fun page used => (inUse page).mpr (Or.inl used)
  have cleared := (pcalloc_eq ran).2
  refine ⟨⟨grown.tables, grown.unused, grown.busy, ?_, ?_⟩, first, rfl, bound, unused, ?_, ?_⟩
  · exact fun probe => leafEntry_of_slots tables slots member probe
  · intro page data k inside
    have outside : page < first ∨ first + pages ≤ page :=
      Classical.byContradiction fun covered => unused page (by omega) (by omega) data.inUse
    rw [cleared]
    split
    · rfl
    · exact fill_apart ((outside_run outside inside).imp_right fun above =>
        le_trans (Nat.add_le_add_left (Nat.mod_le _ _) _) above)
  · refine fun page low high => ⟨(inUse page).mpr (Or.inr ⟨low, high⟩), ?_⟩
    intro other inside path short reached
    rw [(reach_of_slots tables slots).2 other inside path short] at reached
    grind
  · intro page low high k inside
    have notNull : first ≠ 0 := fun null => unused first (Nat.le_refl _) (by omega) (null ▸ tables.null)
    have notZero : first * pageSize ≠ 0 := Nat.mul_ne_zero notNull (by decide)
    have size : pages * pageSize % wordSize = pages * pageSize := by
      grind [pageSize, wordSize]
    obtain ⟨start, stop⟩ := inside_run low high inside
    simp_all [fill_inside]

theorem foldlM_mapped {σ ι : Type} {turn : σ → ι → Option σ} {view : σ → State α}
    {writes : ι → List (BitVec 36 × BitVec 64)} {items : List ι} {x x' : σ}
    (one : ∀ x item x', Tables busy (view x) shared roots → turn x item = some x' →
      Mapped busy shared roots (view x) (view x') root (writes item))
    (tables : Tables busy (view x) shared roots) (ran : items.foldlM turn x = some x') :
    Mapped busy shared roots (view x) (view x') root (items.flatMap writes) := by
  induction items generalizing x with
  | nil => cases ran; exact mapped_refl tables root
  | cons item rest ih =>
    rw [List.foldlM_cons] at ran
    obtain ⟨middle, turned, ran⟩ := Option.bind_eq_some_iff.mp ran
    have first := one x item middle tables turned
    exact mapped_trans first (ih first.tables ran)

/-- The writes of a loop that maps a run of physical pages. -/
def pageWrites (physAddr virtAddr flags : BitVec 64) (count : Nat) : List (BitVec 36 × BitVec 64) :=
  (List.range count).map fun page => (pageOf (virtAddr + BitVec.ofNat 64 (page * pageSize)),
    (physAddr + BitVec.ofNat 64 (page * pageSize)) ||| flags)

theorem mapPages_mapped (fresh : HandsOut A busy 1) (tables : Tables busy s shared roots)
    (member : root ∈ roots)
    (ran : forPages (fun s i => vmmMapPage A s (root * pageSize) (physAddr + BitVec.ofNat 64 i)
      (virtAddr + BitVec.ofNat 64 i) flags) length s = some s') :
    Mapped busy shared roots s s' root (pageWrites physAddr virtAddr flags (pageTurns length)) := by
  rw [forPages_eq (short_of_forPages ran)] at ran
  have one (s : State α) (i : Nat) (s' : State α) (holds : Tables busy s shared roots)
      (turned : vmmMapPage A s (root * pageSize) (physAddr + BitVec.ofNat 64 i)
        (virtAddr + BitVec.ofNat 64 i) flags = some s') :
      Mapped busy shared roots s s' root
        [(pageOf (virtAddr + BitVec.ofNat 64 i), (physAddr + BitVec.ofNat 64 i) ||| flags)] :=
    vmmMapPage_mapped fresh holds member turned
  have mapped := foldlM_mapped one tables ran
  rwa [List.flatMap_map, ← List.map_eq_flatMap] at mapped

theorem handed_mapped (handed : Handed busy roots s s' first pages)
    (mapped : Mapped busy shared roots s' s'' root writes) : Handed busy roots s s'' first pages := by
  refine ⟨handed.bound, handed.before, fun page low high => ?_, fun page low high k inside => ?_⟩
  · exact dataPage_later mapped.unused mapped.still (handed.data page low high)
  · rw [mapped.data page (handed.data page low high) k inside]
    exact handed.blank page low high k inside

theorem pcalloc_mapPages (fresh : HandsOut A busy 1) (supplied : HandsOutAt A busy s.alloc pages)
    (tables : Tables busy s shared roots) (member : root ∈ roots) (given : pcalloc A s pages = some (adr, s'))
    (looped : forPages (fun s i => vmmMapPage A s (root * pageSize) (BitVec.ofNat 64 adr + BitVec.ofNat 64 i)
      (virtAddr + BitVec.ofNat 64 i) flags) length s' = some s'') :
    ∃ first, adr = first * pageSize ∧ Handed busy roots s s'' first pages ∧
      Mapped busy shared roots s s'' root (pageWrites (pageAddress first) virtAddr flags (pageTurns length)) := by
  obtain ⟨grown, first, rfl, handed⟩ := pcalloc_mapped supplied tables member given
  have mapped := mapPages_mapped fresh grown.tables member looped
  exact ⟨first, rfl, handed_mapped handed mapped, mapped_trans grown mapped⟩

theorem sameSlots_copy (data : ∀ page, first ≤ page → page < first + pages → DataPage busy roots s page)
    (fits : offset + count ≤ pages * pageSize) (bytes : Memory) :
    SameSlots roots s ⟨copy s.mem (first * pageSize + offset) count bytes, s.alloc⟩ := by
  intro other inside path table short reached index
  refine slot_copy_apart fits ?_
  exact Classical.byContradiction fun covered =>
    (data table (by omega) (by omega)).noTable other inside path short reached

theorem dataPage_of_slots (tables : Tables busy s shared roots) (slots : SameSlots roots s s')
    (alloc : s'.alloc = s.alloc) (data : DataPage busy roots s page) : DataPage busy roots s' page := by
  refine ⟨alloc ▸ data.inUse, fun root member path short reached => ?_⟩
  rw [(reach_of_slots tables slots).2 root member path short] at reached
  exact data.noTable root member path short reached

theorem copy_mapped (mapped : Mapped busy shared roots s s' root writes) (member : root ∈ roots)
    (handed : Handed busy roots s s' first pages) (fits : offset + count ≤ pages * pageSize) (bytes : Memory) :
    Mapped busy shared roots s ⟨copy s'.mem (first * pageSize + offset) count bytes, s'.alloc⟩ root writes := by
  have slots := sameSlots_copy handed.data fits bytes
  have grown := grown_of_slots mapped.tables slots fun _ used => used
  refine ⟨grown.tables, onUnused_trans mapped.unused grown.unused mapped.still, mapped.still, ?_, ?_⟩
  · intro probe
    rw [leafEntry_of_slots mapped.tables slots member, mapped.leaf]
  · intro page owned k inside
    have outside : page < first ∨ first + pages ≤ page :=
      Classical.byContradiction fun covered => handed.before page (by omega) (by omega) owned.inUse
    rw [← mapped.data page owned k inside]
    exact copy_apart ((outside_run outside inside).imp (fun below => by omega) fun above => by omega)

end

end MandelbrotOS.PageEntries
