import MandelbrotOS.ForkPagemap

/-! The frames behind the ranges of all pagemaps: `vmm_create_new_pagemap`,
`vmm_mmap_range`, `vmm_fork_pagemap` and `vmm_destroy_pagemap` of `mm/vmm.c`.
Every range is marked `MAP_ANON` and no frame is counted, so a pagemap that goes
gives back the frames of its shared ranges too. -/
namespace MandelbrotOS.PagemapFrames
open ByteMemory Descriptors Forests ForkPagemap KernelHalf Mmap PageEntries PageLoops PageTables Pmm PmmSupply
open RangeMapping Runs UserRequests Vectors Vfs Vmm

variable {α : Type}

/-! ### The code -/

/-- One turn of the loop of `vmm_destroy_pagemap`. -/
def destroyRange (A : Allocator α) (p : Process α) (range : MmapRange) : Option (Process α) := do
  let state ← unmapPages A p.topLevel range.virtAddr range.length p.state
  some (releaseFrames A { p with state := state } range)

/-- `vmm_destroy_pagemap`: the tables below the top level are not given back. -/
def vmmDestroyPagemap (A : Allocator α) (p : Process α) : Option (State α) := do
  let p ← (List.range p.ranges.length).foldlM (fun q i => destroyRange A q (p.ranges.data i)) p
  some { p.state with alloc := A.pmmFreePages p.state.alloc (p.topLevel * pageSize) 1 }

/-! ### Runs over many pagemaps -/

structure Pagemap where
  topLevel : Nat
  ranges : Vec MmapRange

/-- The pagemaps that live, beside what the calls read apart from them: memory,
the kernel's top level and the files. -/
structure World (α : Type) where
  host : Process α
  pagemaps : List Pagemap

/-- The host with one of the pagemaps. -/
def World.process (world : World α) (pagemap : Pagemap) : Process α :=
  { world.host with topLevel := pagemap.topLevel, ranges := pagemap.ranges }

def World.withState (world : World α) (state : State α) (pagemaps : List Pagemap) : World α :=
  ⟨{ world.host with state := state }, pagemaps⟩

/-- `mmapRange` maps pages that `pcalloc` has just given. -/
inductive Call where
  | create
  | mmapRange (pagemap pages : Nat) (virtAddr : BitVec 64) (flags prot : BitVec 32)
  | fork (pagemap : Nat)
  | destroy (pagemap : Nat)

def step (A : Allocator α) (world : World α) : Call → Option (World α)
  | .create => do
    let (top, state) ← vmmCreateNewPagemap A world.host.state (world.host.kernelTop * pageSize)
    let new := newPagemap world.host top state
    some (world.withState state (world.pagemaps ++ [⟨new.topLevel, new.ranges⟩]))
  | .mmapRange index pages virtAddr flags prot => do
    let pagemap ← world.pagemaps[index]?
    let (mem, state) ← pcalloc A world.host.state pages
    let p ← vmmMmapRange A { world.process pagemap with state := state } (BitVec.ofNat 64 mem) virtAddr
      (pages * pageSize) flags prot
    some (world.withState p.state (world.pagemaps.set index ⟨p.topLevel, p.ranges⟩))
  | .fork index => do
    let pagemap ← world.pagemaps[index]?
    let child ← vmmForkPagemap A (world.process pagemap)
    some (world.withState child.state (world.pagemaps ++ [⟨child.topLevel, child.ranges⟩]))
  | .destroy index => do
    let pagemap ← world.pagemaps[index]?
    let state ← vmmDestroyPagemap A (world.process pagemap)
    some (world.withState state (world.pagemaps.eraseIdx index))

/-- Every frame behind a range of a live pagemap is in use. -/
def Marked (busy : α → Nat → Prop) (world : World α) : Prop :=
  ∀ pagemap ∈ world.pagemaps, ∀ frame, Owns pagemap.ranges.toList frame → busy world.host.state.alloc frame

/-- A pagemap is destroyed only when no other one has a frame of it. -/
def Unshared (world : World α) : Call → Prop
  | .destroy index => ∀ pagemap, world.pagemaps[index]? = some pagemap →
    ∀ other ∈ world.pagemaps.eraseIdx index, ∀ frame,
      Owns pagemap.ranges.toList frame → ¬ Owns other.ranges.toList frame
  | _ => True

/-- The call asks `pcalloc` for one of these numbers of pages. -/
def Call.Asks (sizes : Set Nat) : Call → Prop
  | .mmapRange _ pages _ _ _ => pages ∈ sizes
  | _ => True

/-- `pmm_free_pages` takes a run of pages out of use and no others. -/
def Releases (A : Allocator α) (busy : α → Nat → Prop) : Prop :=
  ∀ a first pages, first + pages ≤ 2 ^ 52 → ∀ page,
    busy (A.pmmFreePages a (first * pageSize) pages) page ↔
      busy a page ∧ ¬ (first ≤ page ∧ page < first + pages)

theorem pmm_releases : Releases pmmAllocator State.Taken := by
  intro pmm first pages bound page
  refine taken_pmmFreePages pmm ?_
  simp only [pageSize, wordSize]
  omega

/-! ### What stays through the calls -/

/-- The tables reach what they did, and the data pages still are such; there may
be more top levels than before. -/
structure Preserved (busy : α → Nat → Prop) (roots roots' : Set Nat) (s s' : State α) : Prop where
  more : roots ⊆ roots'
  tables : Tables busy s' Upper roots'
  kept : ∀ root ∈ roots, ∀ path table, path.length ≤ 3 →
    reach (next s.mem) root path = some table → reach (next s'.mem) root path = some table
  data : ∀ page, DataPage busy roots s page → DataPage busy roots' s' page

section
variable {A : Allocator α} {busy : α → Nat → Prop} {roots roots' roots'' : Set Nat} {s s' s'' : State α}

theorem preserved_trans (first : Preserved busy roots roots' s s')
    (second : Preserved busy roots' roots'' s' s'') : Preserved busy roots roots'' s s'' := by
  refine ⟨first.more.trans second.more, second.tables, fun root member path table short reached => ?_,
    fun page data => second.data page (first.data page data)⟩
  exact second.kept root (first.more member) path table short
    (first.kept root member path table short reached)

theorem preserved_refl (tables : Tables busy s Upper roots) : Preserved busy roots roots s s :=
  ⟨subset_rfl, tables, fun _ _ _ _ _ reached => reached, fun _ data => data⟩

theorem preserved_of_grown (grown : Grown busy Upper roots s s') : Preserved busy roots roots s s' :=
  ⟨subset_rfl, grown.tables, grown.kept, fun _ data => dataPage_later grown.unused grown.busy data⟩

theorem preserved_of_entered (entered : Entered busy Upper roots s s' root virtualAddress entry) :
    Preserved busy roots roots s s' :=
  ⟨subset_rfl, entered.tables, entered.kept, fun _ data => dataPage_later entered.unused entered.busy data⟩

/-- An address whose last table is there. -/
def Reached (mem : Memory) (top : Nat) (virtualAddress : BitVec 64) : Prop :=
  ∃ leaf, reach (next mem) top (directories virtualAddress) = some leaf

theorem reached_later (preserved : Preserved busy roots roots' s s') (member : top ∈ roots)
    (reached : Reached s.mem top virtualAddress) : Reached s'.mem top virtualAddress := by
  obtain ⟨leaf, arrives⟩ := reached
  exact ⟨leaf, preserved.kept top member _ leaf (directories_short virtualAddress) arrives⟩

/-- A range of a live pagemap: whole frames that hold data and are given back
with it, and mapped through tables that are all there. -/
structure Standing (busy : α → Nat → Prop) (sizes : Set Nat) (roots : Set Nat) (s : State α) (top : Nat)
    (range : MmapRange) : Prop where
  anon : has range.flags mapAnon = true
  framed : Framed { range with virtAddr := 0 }
  short : range.length ≤ wordSize - pageSize
  asked : pageCount range ∈ sizes
  data : HoldsData busy roots s range
  notNull : 0 < pageCount range → firstFrame range ≠ 0
  reached : ∀ virtualAddress, PagesFrom range.virtAddr range.length virtualAddress →
    Reached s.mem top virtualAddress

theorem standing_later (preserved : Preserved busy roots roots' s s') (member : top ∈ roots)
    (standing : Standing busy sizes roots s top range) : Standing busy sizes roots' s' top range := by
  refine ⟨standing.anon, standing.framed, standing.short, standing.asked, fun page inside => ?_,
    standing.notNull, fun virtualAddress within => ?_⟩
  · exact preserved.data _ (standing.data page inside)
  · exact reached_later preserved member (standing.reached virtualAddress within)

theorem mapPages_preserved (fresh : HandsOut A busy 1) (tables : Tables busy s Upper roots)
    (member : top ∈ roots)
    (ran : forPages (fun s i => vmmMapPage A s (top * pageSize) (physAddr + BitVec.ofNat 64 i)
      (virtAddr + BitVec.ofNat 64 i) flags) length s = some s') :
    Preserved busy roots roots s s' ∧
      ∀ virtualAddress, PagesFrom virtAddr length virtualAddress → Reached s'.mem top virtualAddress := by
  rw [forPages_eq (short_of_forPages ran)] at ran
  have turn (middle : State α) (i : Nat) (later : State α)
      (holds : Preserved busy roots roots s middle)
      (turned : vmmMapPage A middle (top * pageSize) (physAddr + BitVec.ofNat 64 i)
        (virtAddr + BitVec.ofNat 64 i) flags = some later) :
      Preserved busy roots roots s later ∧ Reached later.mem top (virtAddr + BitVec.ofNat 64 i) ∧
        ∀ other : Nat, Reached middle.mem top (virtAddr + BitVec.ofNat 64 other) →
          Reached later.mem top (virtAddr + BitVec.ofNat 64 other) := by
    have one := preserved_of_entered (vmmMapPage_entered fresh holds.tables member turned)
    refine ⟨preserved_trans holds one, ?_, fun other already => reached_later one member already⟩
    simp only [vmmMapPage, bind_returns, Prod.exists] at turned
    obtain ⟨adr, descended, ran, stored⟩ := turned
    cases stored
    obtain ⟨leaf, rfl, grown, arrives⟩ := descend_grown fresh holds.tables member ran
    obtain ⟨-, reaches, -⟩ := leafEntry_setEntry grown.tables member arrives
      ((physAddr + BitVec.ofNat 64 i) ||| flags)
    exact ⟨leaf, (reaches top member _ (directories_short _)).trans arrives⟩
  obtain ⟨preserved, done, -⟩ := foldlM_establishes turn (preserved_refl tables) ran
  refine ⟨preserved, ?_⟩
  rintro _ ⟨page, inside, rfl⟩
  simp_all

theorem vmmCreateNewPagemap_preserved (fresh : HandsOut A busy 1) (tables : Tables busy s Upper roots)
    (member : kernel ∈ roots)
    (ran : vmmCreateNewPagemap A s (kernel * pageSize) = some (adr, s')) :
    ∃ top, adr = top * pageSize ∧ top ∉ roots ∧ (top ≠ 0 ∧ top < 2 ^ 52) ∧
      Preserved busy roots (insert top roots) s s' := by
  obtain ⟨top, place, creates, tables', kept⟩ := vmmCreateNewPagemap_kept fresh tables member ran
  refine ⟨top, place, creates.new, ⟨fun null => creates.unused (null ▸ tables.null), creates.small⟩,
    Set.subset_insert _ _, tables', ?_, fun page data => (kept.data page data).1⟩
  intro root inside path table short arrives
  rw [reach_old_root creates.rooted creates.unreached inside short]
  exact arrives

theorem standing_of_handed (handed : Handed busy roots before s first (pageCount range))
    (null : busy before.alloc 0) (later : Preserved busy roots roots s s')
    (anon : has range.flags mapAnon = true) (whole : range.length % pageSize = 0)
    (short : range.length ≤ wordSize - pageSize) (asked : pageCount range ∈ sizes)
    (place : range.physAddr = pageAddress first)
    (reached : ∀ virtualAddress, PagesFrom range.virtAddr range.length virtualAddress →
      Reached s'.mem top virtualAddress) : Standing busy sizes roots s' top range := by
  have bound := handed.bound
  have model : Framed { range with virtAddr := 0, physAddr := 0 } :=
    ⟨rfl, rfl, whole, by simp only [wordSize, pageSize] at short ⊢; simp; omega⟩
  obtain ⟨framed, start⟩ := framed_given model (show first + pageCount range ≤ 2 ^ 52 from bound)
  have shape : { range with virtAddr := 0 } =
      { { range with virtAddr := 0, physAddr := 0 } with physAddr := pageAddress first } := by
    rw [← place]
  have first_eq (some : 0 < pageCount range) : firstFrame range = first := by
    rw [← start some, ← shape]
    rfl
  refine ⟨anon, shape ▸ framed, short, asked, fun page inside => ?_, fun some null' => ?_, reached⟩
  · rw [first_eq (Nat.zero_lt_of_lt inside)]
    exact later.data _ (handed.data (first + page) (Nat.le_add_right ..) (Nat.add_lt_add_left inside first))
  · rw [first_eq some] at null'
    exact handed.before 0 (by omega) (by omega) null

/-! ### Forking -/

theorem forkRange_standing (fresh : ∀ pages ∈ sizes, HandsOut A busy pages) (single : 1 ∈ sizes)
    (tables : Tables busy child.state Upper roots) (member : child.topLevel ∈ roots)
    (standing : Standing busy sizes roots child.state top range)
    (ran : forkRange A child range = some child') :
    ∃ new, child'.topLevel = child.topLevel ∧ child'.ranges.toList = child.ranges.toList ++ [new] ∧
      Preserved busy roots roots child.state child'.state ∧
      Standing busy sizes roots child'.state child.topLevel new ∧
      (has range.flags mapShared = true → new = range) := by
  cases common : has range.flags mapShared with
  | true =>
    simp only [forkRange, common, if_true, bind_returns, Option.some.injEq] at ran
    obtain ⟨state, looped, rfl⟩ := ran
    obtain ⟨preserved, reached⟩ := mapPages_preserved (fresh 1 single) tables member looped
    refine ⟨range, rfl, toList_vecPush _ _, preserved, ?_, fun _ => rfl⟩
    exact ⟨standing.anon, standing.framed, standing.short, standing.asked,
      fun page inside => preserved.data _ (standing.data page inside), standing.notNull, reached⟩
  | false =>
    simp only [forkRange, common, standing.anon, if_true, Bool.false_eq_true, if_false, bind_returns,
      Option.some.injEq, Prod.exists] at ran
    obtain ⟨_, s1, given, s2, looped, rfl⟩ := ran
    have handsOut := (fresh (pageCount range) standing.asked).given child.state.alloc
    obtain ⟨-, first, rfl, handed⟩ := pcalloc_mapped handsOut tables member given
    have granted := preserved_of_grown (pcalloc_grown handsOut tables given).1
    obtain ⟨mapped, reached⟩ := mapPages_preserved (fresh 1 single) granted.tables member looped
    -- the copy goes to the frames just handed out
    have fits : 0 + range.length ≤ pageCount range * pageSize := by
      rw [Nat.zero_add]
      exact Nat.le_of_eq standing.framed.length_eq
    have slots := sameSlots_copy (fun page low high => mapped.data page (handed.data page low high)) fits
      fun k => s2.mem (range.physAddr.toNat + k)
    have copied := preserved_of_grown (grown_of_slots mapped.tables slots fun _ used => used)
    rw [Nat.add_zero] at copied
    refine ⟨{ range with physAddr := pageAddress first }, rfl, toList_vecPush _ _,
      preserved_trans granted (preserved_trans mapped copied), ?_, fun shared => absurd shared Bool.false_ne_true⟩
    refine standing_of_handed handed tables.null (preserved_trans mapped copied) standing.anon
      standing.framed.whole standing.short standing.asked rfl fun virtualAddress within => ?_
    exact reached_later copied member (reached virtualAddress within)

theorem forkRanges_standing (fresh : ∀ pages ∈ sizes, HandsOut A busy pages) (single : 1 ∈ sizes)
    (tables : Tables busy child.state Upper roots) (member : child.topLevel ∈ roots)
    (parent : top ∈ roots) (ranges : List MmapRange)
    (standing : ∀ range ∈ ranges, Standing busy sizes roots child.state top range)
    (ran : ranges.foldlM (forkRange A) child = some child') :
    ∃ news, child'.topLevel = child.topLevel ∧ child'.ranges.toList = child.ranges.toList ++ news ∧
      Preserved busy roots roots child.state child'.state ∧
      ∀ new ∈ news, Standing busy sizes roots child'.state child.topLevel new := by
  induction ranges generalizing child with
  | nil =>
    cases ran
    simp_all [preserved_refl]
  | cons range rest ih =>
    rw [List.foldlM_cons] at ran
    obtain ⟨middle, forked, ran⟩ := Option.bind_eq_some_iff.mp ran
    obtain ⟨new, top', pushed, preserved, stands, -⟩ := forkRange_standing fresh single tables member
      (standing range List.mem_cons_self) forked
    have later (other : MmapRange) (listed : other ∈ rest) :=
      standing_later preserved parent (standing other (List.mem_cons_of_mem _ listed))
    obtain ⟨news, top'', pushed', preserved', stand⟩ := ih preserved.tables (top' ▸ member) later ran
    rw [top'] at stand
    refine ⟨new :: news, top''.trans top', ?_, preserved_trans preserved preserved', ?_⟩
    · simp_all
    · exact List.forall_mem_cons.mpr ⟨standing_later preserved' member stands, stand⟩

theorem vmmForkPagemap_standing (fresh : ∀ pages ∈ sizes, HandsOut A busy pages) (single : 1 ∈ sizes)
    (tables : Tables busy p.state Upper roots) (kernel : p.kernelTop ∈ roots) (member : p.topLevel ∈ roots)
    (standing : ∀ range ∈ p.ranges.toList, Standing busy sizes roots p.state p.topLevel range)
    (ran : vmmForkPagemap A p = some child) :
    child.topLevel ∉ roots ∧ (child.topLevel ≠ 0 ∧ child.topLevel < 2 ^ 52) ∧
      Preserved busy roots (insert child.topLevel roots) p.state child.state ∧
      ∀ range ∈ child.ranges.toList,
        Standing busy sizes (insert child.topLevel roots) child.state child.topLevel range := by
  simp only [vmmForkPagemap, bind_returns, Prod.exists] at ran
  obtain ⟨adr, state, created, ran⟩ := ran
  obtain ⟨top, rfl, new, notNull, preserved⟩ :=
    vmmCreateNewPagemap_preserved (fresh 1 single) tables kernel created
  have place : (newPagemap p (top * pageSize) state).topLevel = top := Nat.mul_div_cancel _ (by decide)
  rw [← List.foldlM_map] at ran
  have held (range : MmapRange) (listed : range ∈ p.ranges.toList) :=
    standing_later preserved member (standing range listed)
  obtain ⟨news, top', pushed, preserved', stand⟩ := forkRanges_standing fresh single preserved.tables
    (place.symm ▸ Set.mem_insert top roots) (Set.mem_insert_of_mem _ member) p.ranges.toList held ran
  rw [place] at top' stand
  obtain rfl : child.ranges.toList = news := pushed
  rw [top']
  exact ⟨new, notNull, preserved_trans preserved preserved', stand⟩

/-! ### Destroying -/

/-- The page tables and the allocator are as they were but for last-level entries. -/
structure Cleared (busy : α → Nat → Prop) (roots : Set Nat) (s s' : State α) : Prop where
  alloc : s'.alloc = s.alloc
  tables : Tables busy s' Upper roots
  reach : ∀ root ∈ roots, ∀ path, path.length ≤ 3 →
    reach (next s'.mem) root path = reach (next s.mem) root path

theorem vmmGetNextLevel_present (A : Allocator α) (leads : next s.mem table index = some child) :
    vmmGetNextLevel A s (table * pageSize) index = some (child * pageSize, s) := by
  rw [next] at leads
  split at leads
  · rename_i present
    cases leads
    have follows : vmmGetNextLevel A s (table * pageSize) index =
        some ((addressOf (slot s.mem table index)).toNat, s) := if_pos present
    rw [follows, addressOf_toNat]
  · cases leads

theorem descend_reached (A : Allocator α)
    (arrives : reach (next s.mem) top (directories virtualAddress) = some leaf) :
    descend A s (top * pageSize) virtualAddress = some (leaf * pageSize, s) := by
  simp only [directories, reach, Option.bind_eq_some_iff, Option.some.injEq] at arrives
  obtain ⟨pml3, first, pml2, second, pml1, third, rfl⟩ := arrives
  simp_all [descend, vmmGetNextLevel_present]

theorem vmmUnmapPage_cleared (A : Allocator α) (tables : Tables busy s Upper roots) (member : top ∈ roots)
    (reached : Reached s.mem top virtualAddress) :
    ∃ s', vmmUnmapPage A s (top * pageSize) virtualAddress = some s' ∧ Cleared busy roots s s' := by
  obtain ⟨leaf, arrives⟩ := reached
  obtain ⟨after, reaches, -⟩ := leafEntry_setEntry tables member arrives 0
  refine ⟨s.setEntry (leaf * pageSize) (pmlEntry 12 virtualAddress) 0, ?_, rfl, after, reaches⟩
  simp_all [vmmUnmapPage, descend_reached]

theorem cleared_trans (first : Cleared busy roots s s') (second : Cleared busy roots s' s'') :
    Cleared busy roots s s'' :=
  ⟨second.alloc.trans first.alloc, second.tables, fun root member path short =>
    (second.reach root member path short).trans (first.reach root member path short)⟩

theorem reached_cleared (cleared : Cleared busy roots s s') (member : top ∈ roots)
    (reached : Reached s.mem top virtualAddress) : Reached s'.mem top virtualAddress := by
  obtain ⟨leaf, arrives⟩ := reached
  exact ⟨leaf, (cleared.reach top member _ (directories_short virtualAddress)).trans arrives⟩

theorem unmapPages_cleared (A : Allocator α) (tables : Tables busy s Upper roots) (member : top ∈ roots)
    (short : length ≤ wordSize - pageSize)
    (reached : ∀ virtualAddress, PagesFrom addr length virtualAddress → Reached s.mem top virtualAddress) :
    ∃ s', unmapPages A top addr length s = some s' ∧ Cleared busy roots s s' := by
  rw [unmapPages, forPages_eq short]
  refine foldlM_returns_kept (fun i listed middle cleared => ?_) ⟨rfl, tables, fun _ _ _ _ => rfl⟩
  obtain ⟨page, inside, rfl⟩ := List.mem_map.mp listed
  have here := reached_cleared cleared member (reached _ ⟨page, List.mem_range.mp inside, rfl⟩)
  obtain ⟨later, ran, one⟩ := vmmUnmapPage_cleared A cleared.tables member here
  exact ⟨later, ran, cleared_trans cleared one⟩

/-- What it takes to destroy a range: its frames hold no table and are not page 0,
and the tables of its pages are all there. -/
structure Removable (roots : Set Nat) (mem : Memory) (top : Nat) (range : MmapRange) : Prop where
  anon : has range.flags mapAnon = true
  framed : Framed { range with virtAddr := 0 }
  short : range.length ≤ wordSize - pageSize
  notNull : ¬ Owns [range] 0
  noTable : ∀ frame, Owns [range] frame → ∀ root ∈ roots, ∀ path, path.length ≤ 3 →
    reach (next mem) root path ≠ some frame
  reached : ∀ virtualAddress, PagesFrom range.virtAddr range.length virtualAddress →
    Reached mem top virtualAddress

theorem owns_singleton : Owns [range] frame ↔
    ∃ page < pageCount range, frame = firstFrame range + page := by
  simp only [Owns, List.mem_singleton, exists_eq_left]
  constructor
  · rintro ⟨low, high⟩
    exact ⟨frame - firstFrame range, by omega, by omega⟩
  · rintro ⟨page, inside, rfl⟩
    omega

theorem owns_cons : Owns (range :: rest) frame ↔ Owns [range] frame ∨ Owns rest frame := by
  constructor
  · rintro ⟨other, listed, inside⟩
    rcases List.mem_cons.mp listed with rfl | later
    · exact Or.inl ⟨other, List.mem_singleton.mpr rfl, inside⟩
    · exact Or.inr ⟨other, later, inside⟩
  · rintro (⟨other, listed, inside⟩ | ⟨other, listed, inside⟩)
    · exact ⟨other, List.mem_cons.mpr (Or.inl (List.mem_singleton.mp listed)), inside⟩
    · exact ⟨other, List.mem_cons_of_mem _ listed, inside⟩

theorem Standing.inUse (standing : Standing busy sizes roots s top range) (owned : Owns [range] frame) :
    DataPage busy roots s frame := by
  obtain ⟨page, inside, rfl⟩ := owns_singleton.mp owned
  exact standing.data page inside

theorem Standing.removable (standing : Standing busy sizes roots s top range) :
    Removable roots s.mem top range := by
  refine ⟨standing.anon, standing.framed, standing.short, fun owned => ?_,
    fun frame owned => (standing.inUse owned).noTable, standing.reached⟩
  obtain ⟨page, inside, null⟩ := owns_singleton.mp owned
  exact standing.notNull (Nat.zero_lt_of_lt inside) (by omega)

/-- Some pages have gone out of use; the tables lead where they did. -/
structure Released (busy : α → Nat → Prop) (roots : Set Nat) (gone : Nat → Prop) (s s' : State α) :
    Prop where
  tables : Tables busy s' Upper roots
  reach : ∀ root ∈ roots, ∀ path, path.length ≤ 3 →
    reach (next s'.mem) root path = reach (next s.mem) root path
  inUse : ∀ page, busy s'.alloc page ↔ busy s.alloc page ∧ ¬ gone page

theorem released_trans {gone gone' both : Nat → Prop} (first : Released busy roots gone s s')
    (second : Released busy roots gone' s' s'') (all : ∀ page, both page ↔ gone page ∨ gone' page) :
    Released busy roots both s s'' := by
  refine ⟨second.tables, fun root member path short => ?_, fun page => ?_⟩
  · exact (second.reach root member path short).trans (first.reach root member path short)
  · rw [second.inUse, first.inUse, all, not_or, and_assoc]

theorem removable_later {gone : Nat → Prop} (released : Released busy roots gone s s') (member : top ∈ roots)
    (removable : Removable roots s.mem top range) : Removable roots s'.mem top range := by
  refine ⟨removable.anon, removable.framed, removable.short, removable.notNull, ?_, ?_⟩
  · intro frame owned root inside path short
    rw [released.reach root inside path short]
    exact removable.noTable frame owned root inside path short
  · intro virtualAddress within
    obtain ⟨leaf, arrives⟩ := removable.reached virtualAddress within
    exact ⟨leaf, (released.reach top member _ (directories_short virtualAddress)).trans arrives⟩

theorem tables_released {gone : Nat → Prop} {alloc : α} (tables : Tables busy s Upper roots)
    (fewer : roots' ⊆ roots) (inUse : ∀ page, busy alloc page ↔ busy s.alloc page ∧ ¬ gone page)
    (apart : ∀ root ∈ roots', ∀ path table, path.length ≤ 3 → reach (next s.mem) root path = some table →
      ¬ gone table)
    (notNull : ¬ gone 0) : Tables busy ⟨s.mem, alloc⟩ Upper roots' := by
  refine ⟨forest_subset tables.forest fewer, fun root member path table short arrives => ?_,
    (inUse 0).mpr ⟨tables.null, notNull⟩⟩
  exact (inUse table).mpr ⟨tables.owned root (fewer member) path table short arrives,
    apart root member path table short arrives⟩

section
variable {p : Process α} (frees : Releases A busy) (tables : Tables busy p.state Upper roots) (member : p.topLevel ∈ roots)
include frees tables member

theorem destroyRange_released (removable : Removable roots p.state.mem p.topLevel range) :
    ∃ p', destroyRange A p range = some p' ∧ p'.topLevel = p.topLevel ∧
      Released busy roots (Owns [range]) p.state p'.state := by
  obtain ⟨s, ran, cleared⟩ := unmapPages_cleared A tables member removable.short removable.reached
  have place : range.physAddr.toNat = firstFrame range * pageSize := removable.framed.physAddr_toNat
  have inUse (page : Nat) : busy (A.pmmFreePages s.alloc range.physAddr.toNat (pageCount range)) page ↔
      busy s.alloc page ∧ ¬ Owns [range] page := by
    have freed := frees s.alloc (firstFrame range) (pageCount range) removable.framed.frames_le page
    simp_all [Owns]
  have after := tables_released cleared.tables subset_rfl inUse (fun root inside path table short arrives
    owned => removable.noTable table owned root inside path short
      ((cleared.reach root inside path short).symm.trans arrives)) removable.notNull
  refine ⟨releaseFrames A { p with state := s } range, ?_, ?_, ?_⟩
  · simp only [destroyRange, ran, bind_returned]
  · simp only [releaseFrames, removable.anon, if_true]
  · simp only [releaseFrames, removable.anon, if_true]
    exact ⟨after, cleared.reach, fun page => cleared.alloc ▸ inUse page⟩

theorem destroyRanges_released (ranges : List MmapRange)
    (removable : ∀ range ∈ ranges, Removable roots p.state.mem p.topLevel range) :
    ∃ p', ranges.foldlM (destroyRange A) p = some p' ∧ p'.topLevel = p.topLevel ∧
      Released busy roots (Owns ranges) p.state p'.state := by
  induction ranges generalizing p with
  | nil =>
    have nothing (page : Nat) : ¬ Owns [] page := fun ⟨_, listed, _⟩ => nomatch listed
    exact ⟨p, rfl, rfl, tables, fun _ _ _ _ => rfl, fun page => (and_iff_left (nothing page)).symm⟩
  | cons range rest ih =>
    obtain ⟨middle, ran, top, released⟩ := destroyRange_released frees tables member
      (removable range List.mem_cons_self)
    have later (other : MmapRange) (listed : other ∈ rest) :
        Removable roots middle.state.mem middle.topLevel other := by
      grind [removable_later]
    obtain ⟨final, ran', top', released'⟩ := ih released.tables (top ▸ member) later
    grind [released_trans, owns_cons]

theorem vmmDestroyPagemap_released (bound : p.topLevel < 2 ^ 52)
    (removable : ∀ range ∈ p.ranges.toList, Removable roots p.state.mem p.topLevel range)
    (notNull : p.topLevel ≠ 0) :
    ∃ s', vmmDestroyPagemap A p = some s' ∧
      Tables busy s' Upper (roots \ {p.topLevel}) ∧
      (∀ root ∈ roots, ∀ path, path.length ≤ 3 →
        reach (next s'.mem) root path = reach (next p.state.mem) root path) ∧
      ∀ page, busy s'.alloc page ↔
        busy p.state.alloc page ∧ ¬ Owns p.ranges.toList page ∧ page ≠ p.topLevel := by
  obtain ⟨final, ran, top, released⟩ := destroyRanges_released frees tables member p.ranges.toList removable
  have inUse (page : Nat) : busy (A.pmmFreePages final.state.alloc (p.topLevel * pageSize) 1) page ↔
      busy final.state.alloc page ∧ ¬ page = p.topLevel := by
    rw [frees final.state.alloc p.topLevel 1 bound page]
    grind
  refine ⟨⟨final.state.mem, A.pmmFreePages final.state.alloc (p.topLevel * pageSize) 1⟩, ?_, ?_,
    released.reach, fun page => ?_⟩
  · rw [← top, Vec.toList, List.foldlM_map] at *
    simp only [vmmDestroyPagemap, ran, bind_returned]
  · refine tables_released released.tables Set.sdiff_subset inUse ?_ (Ne.symm notNull)
    rintro root ⟨inside, other⟩ path table short arrives rfl
    have empty := released.tables.forest.path_unique inside member short (Nat.zero_le _) arrives (reach_nil _ _)
    simp_all
  · rw [inUse, released.inUse, and_assoc]

end

end

/-! ### The invariant -/

/-- All top levels; the kernel's comes first. -/
def World.tops (world : World α) : List Nat := world.host.kernelTop :: world.pagemaps.map Pagemap.topLevel

def World.roots (world : World α) : Set Nat := {top | top ∈ world.tops}

structure Inv (busy : α → Nat → Prop) (sizes : Set Nat) (world : World α) : Prop where
  tables : Tables busy world.host.state Upper world.roots
  distinct : world.tops.Nodup
  real : ∀ pagemap ∈ world.pagemaps, pagemap.topLevel ≠ 0 ∧ pagemap.topLevel < 2 ^ 52
  ranges : ∀ pagemap ∈ world.pagemaps, ∀ range ∈ pagemap.ranges.toList,
    Standing busy sizes world.roots world.host.state pagemap.topLevel range

section
variable {A : Allocator α} {busy : α → Nat → Prop} {sizes : Set Nat} {world : World α}

theorem kernel_mem_roots (world : World α) : world.host.kernelTop ∈ world.roots := List.mem_cons_self

theorem top_mem_roots (listed : pagemap ∈ world.pagemaps) : pagemap.topLevel ∈ world.roots :=
  List.mem_cons_of_mem _ (List.mem_map_of_mem listed)

theorem Inv.marked (inv : Inv busy sizes world) : Marked busy world := by
  rintro pagemap listed frame ⟨range, member, inside⟩
  exact ((inv.ranges pagemap listed range member).inUse ⟨range, List.mem_singleton.mpr rfl, inside⟩).inUse

theorem inv_added (inv : Inv busy sizes world) (new : pagemap.topLevel ∉ world.roots)
    (real : pagemap.topLevel ≠ 0 ∧ pagemap.topLevel < 2 ^ 52)
    (preserved : Preserved busy world.roots (insert pagemap.topLevel world.roots) world.host.state s)
    (stand : ∀ range ∈ pagemap.ranges.toList,
      Standing busy sizes (insert pagemap.topLevel world.roots) s pagemap.topLevel range) :
    Inv busy sizes (world.withState s (world.pagemaps ++ [pagemap])) := by
  have tops : (world.withState s (world.pagemaps ++ [pagemap])).tops = world.tops ++ [pagemap.topLevel] := by
    simp [World.tops, World.withState]
  have roots : (world.withState s (world.pagemaps ++ [pagemap])).roots =
      insert pagemap.topLevel world.roots := by
    ext top
    simp [World.roots, tops, or_comm]
  refine ⟨roots ▸ preserved.tables, ?_, ?_, ?_⟩
  · rw [tops, List.nodup_append]
    refine ⟨inv.distinct, List.nodup_singleton _, ?_⟩
    rintro one listed other single rfl
    exact new (List.mem_singleton.mp single ▸ listed)
  · intro other listed
    rcases List.mem_append.mp listed with old | last
    · exact inv.real other old
    · rw [List.mem_singleton.mp last]
      exact real
  · rw [roots]
    intro other listed range member
    rcases List.mem_append.mp listed with old | last
    · exact standing_later preserved (top_mem_roots old) (inv.ranges other old range member)
    · rw [List.mem_singleton.mp last] at member ⊢
      exact stand range member

theorem create_inv (fresh : ∀ pages ∈ sizes, HandsOut A busy pages) (single : 1 ∈ sizes)
    (inv : Inv busy sizes world) (ran : step A world .create = some world') : Inv busy sizes world' := by
  simp only [step, bind_returns, Option.some.injEq, Prod.exists] at ran
  obtain ⟨adr, s, created, rfl⟩ := ran
  obtain ⟨top, rfl, new, real, preserved⟩ :=
    vmmCreateNewPagemap_preserved (fresh 1 single) inv.tables (kernel_mem_roots world) created
  have place : (newPagemap world.host (top * pageSize) s).topLevel = top := Nat.mul_div_cancel _ (by decide)
  rw [← place] at new real preserved
  exact inv_added inv new real preserved nofun

theorem fork_inv (fresh : ∀ pages ∈ sizes, HandsOut A busy pages) (single : 1 ∈ sizes)
    (inv : Inv busy sizes world) (ran : step A world (.fork index) = some world') :
    Inv busy sizes world' := by
  simp only [step, bind_returns, Option.some.injEq] at ran
  obtain ⟨pagemap, held, child, forked, rfl⟩ := ran
  have listed := List.mem_of_getElem? held
  obtain ⟨new, real, preserved, stand⟩ := vmmForkPagemap_standing (p := world.process pagemap) fresh single
    inv.tables (kernel_mem_roots world) (top_mem_roots listed) (inv.ranges pagemap listed) forked
  exact inv_added inv new real preserved stand

theorem inv_replaced (inv : Inv busy sizes world) (held : world.pagemaps[index]? = some pagemap)
    (preserved : Preserved busy world.roots world.roots world.host.state s)
    (stand : ∀ range ∈ ranges.toList, Standing busy sizes world.roots s pagemap.topLevel range) :
    Inv busy sizes (world.withState s (world.pagemaps.set index ⟨pagemap.topLevel, ranges⟩)) := by
  have listed := List.mem_of_getElem? held
  have tops : (world.withState s (world.pagemaps.set index ⟨pagemap.topLevel, ranges⟩)).tops =
      world.tops := by
    refine congrArg (world.host.kernelTop :: ·) (List.map_set.trans (List.ext_getElem? fun i => ?_))
    grind
  have roots : (world.withState s (world.pagemaps.set index ⟨pagemap.topLevel, ranges⟩)).roots =
      world.roots := by rw [World.roots, tops, World.roots]
  refine ⟨roots ▸ preserved.tables, tops ▸ inv.distinct, fun other member => ?_, ?_⟩
  · rcases List.mem_or_eq_of_mem_set member with old | rfl
    · exact inv.real other old
    · exact inv.real pagemap listed
  · rw [roots]
    intro other member range inside
    rcases List.mem_or_eq_of_mem_set member with old | rfl
    · exact standing_later preserved (top_mem_roots old) (inv.ranges other old range inside)
    · exact stand range inside

theorem mmapRange_inv (fresh : ∀ pages ∈ sizes, HandsOut A busy pages) (single : 1 ∈ sizes)
    (inv : Inv busy sizes world) (asked : pages ∈ sizes)
    (ran : step A world (.mmapRange index pages virtAddr flags prot) = some world') :
    Inv busy sizes world' := by
  simp only [step, vmmMmapRange, bind_returns, Option.some.injEq, Prod.exists] at ran
  obtain ⟨pagemap, held, adr, s1, given, _, ⟨s2, looped, rfl⟩, rfl⟩ := ran
  have listed := List.mem_of_getElem? held
  have member := top_mem_roots listed
  have handsOut := (fresh pages asked).given world.host.state.alloc
  obtain ⟨-, first, rfl, handed⟩ := pcalloc_mapped handsOut inv.tables member given
  have granted := preserved_of_grown (pcalloc_grown handsOut inv.tables given).1
  obtain ⟨mapped, reached⟩ := mapPages_preserved (fresh 1 single) granted.tables member looped
  have count : pages * pageSize / pageSize = pages := Nat.mul_div_cancel _ (by decide)
  have stands : Standing busy sizes world.roots s2 pagemap.topLevel
      ⟨none, pageAddress first, virtAddr, 0, pages * pageSize, flags ||| mapAnon, prot⟩ := by
    refine standing_of_handed ?_ inv.tables.null mapped (has_mapAnon flags) (Nat.mul_mod_left _ _)
      (short_of_forPages looped) ?_ rfl reached
    · rw [pageCount, count]
      exact handed
    · rw [pageCount, count]
      exact asked
  have preserved := preserved_trans granted mapped
  refine inv_replaced inv held preserved fun range inside => ?_
  rw [Process.pushRange, toList_vecPush] at inside
  rcases List.mem_append.mp inside with old | last
  · exact standing_later preserved member (inv.ranges pagemap listed range old)
  · rw [List.mem_singleton.mp last]
    exact stands

theorem destroy_spec (frees : Releases A busy) (inv : Inv busy sizes world)
    (held : world.pagemaps[index]? = some pagemap) :
    ∃ s, step A world (.destroy index) = some (world.withState s (world.pagemaps.eraseIdx index)) ∧
      Tables busy s Upper (world.roots \ {pagemap.topLevel}) ∧
      (∀ root ∈ world.roots, ∀ path, path.length ≤ 3 →
        reach (next s.mem) root path = reach (next world.host.state.mem) root path) ∧
      ∀ page, busy s.alloc page ↔ busy world.host.state.alloc page ∧
        ¬ Owns pagemap.ranges.toList page ∧ page ≠ pagemap.topLevel := by
  have listed := List.mem_of_getElem? held
  obtain ⟨notNull, bound⟩ := inv.real pagemap listed
  obtain ⟨s, ran, after⟩ := vmmDestroyPagemap_released (p := world.process pagemap) frees inv.tables
    (top_mem_roots listed) bound (fun range member => (inv.ranges pagemap listed range member).removable)
    notNull
  refine ⟨s, ?_, after⟩
  simp only [step, held, ran, bind_returned]

theorem destroy_inv (frees : Releases A busy) (inv : Inv busy sizes world)
    (unshared : Unshared world (.destroy index)) (ran : step A world (.destroy index) = some world') :
    Inv busy sizes world' := by
  obtain ⟨pagemap, held, -⟩ := Option.bind_eq_some_iff.mp ran
  obtain ⟨s, after, tables, reaches, inUse⟩ := destroy_spec frees inv held
  rw [after] at ran
  cases ran
  have sub : ((world.pagemaps.eraseIdx index).map Pagemap.topLevel).Sublist
      (world.pagemaps.map Pagemap.topLevel) := (List.eraseIdx_sublist ..).map _
  have fewer : (world.withState s (world.pagemaps.eraseIdx index)).roots ⊆
      world.roots \ {pagemap.topLevel} := by
    intro top member
    refine ⟨(sub.cons_cons _).subset member, ?_⟩
    rintro rfl
    rcases List.mem_cons.mp member with kernel | other
    · exact (List.nodup_cons.mp inv.distinct).1 (kernel ▸ List.mem_map_of_mem (List.mem_of_getElem? held))
    · obtain ⟨other, erased, same⟩ := List.mem_map.mp other
      obtain ⟨position, different, place⟩ := List.mem_eraseIdx_iff_getElem?.mp erased
      have one : (world.pagemaps.map Pagemap.topLevel)[position]? = some pagemap.topLevel := by
        simp_all
      have two : (world.pagemaps.map Pagemap.topLevel)[index]? = some pagemap.topLevel := by
        rw [List.getElem?_map, held, Option.map_some]
      exact different ((List.getElem?_inj (List.getElem?_eq_some_iff.mp one).1
        (List.nodup_cons.mp inv.distinct).2).mp (one.trans two.symm))
  refine ⟨?_, ?_, fun other member => inv.real other (List.mem_of_mem_eraseIdx member), ?_⟩
  · exact ⟨forest_subset tables.forest fewer, fun root member => tables.owned root (fewer member), tables.null⟩
  · exact List.Nodup.sublist (sub.cons_cons _) inv.distinct
  · intro other member range inside
    have listed := List.mem_of_mem_eraseIdx member
    have before := inv.ranges other listed range inside
    have target := top_mem_roots (List.mem_of_getElem? held)
    refine ⟨before.anon, before.framed, before.short, before.asked, fun page small => ⟨?_, ?_⟩,
      before.notNull, fun virtualAddress within => ?_⟩
    · have owned : Owns [range] (firstFrame range + page) := owns_singleton.mpr ⟨page, small, rfl⟩
      refine (inUse _).mpr ⟨(before.data page small).inUse, fun shared => ?_, fun same => ?_⟩
      · refine unshared pagemap held other member _ shared ⟨range, inside, ?_⟩
        omega
      · exact (before.data page small).noTable _ target [] (Nat.zero_le _) (congrArg some same.symm)
    · intro root known path short arrives
      rw [World.withState, reaches root (fewer known).1 path short] at arrives
      exact (before.data page small).noTable root (fewer known).1 path short arrives
    · obtain ⟨leaf, arrives⟩ := before.reached virtualAddress within
      exact ⟨leaf, (reaches _ (top_mem_roots listed) _ (directories_short virtualAddress)).trans arrives⟩

theorem step_inv (fresh : ∀ pages ∈ sizes, HandsOut A busy pages) (single : 1 ∈ sizes)
    (frees : Releases A busy) (inv : Inv busy sizes world) (asked : call.Asks sizes)
    (unshared : Unshared world call) (ran : step A world call = some world') : Inv busy sizes world' := by
  cases call with
  | create => exact create_inv fresh single inv ran
  | mmapRange => exact mmapRange_inv fresh single inv asked ran
  | fork => exact fork_inv fresh single inv ran
  | destroy => exact destroy_inv frees inv unshared ran

theorem destroy_shared (frees : Releases A busy) (inv : Inv busy sizes world)
    (shared : ¬ Unshared world call) : ∃ world', step A world call = some world' ∧ ¬ Marked busy world' := by
  cases call with
  | create => exact absurd trivial shared
  | mmapRange => exact absurd trivial shared
  | fork => exact absurd trivial shared
  | destroy index =>
    simp only [Unshared, not_forall, not_not] at shared
    obtain ⟨pagemap, held, other, member, frame, owned, owned'⟩ := shared
    obtain ⟨s, ran, -, -, inUse⟩ := destroy_spec frees inv held
    refine ⟨_, ran, fun marked => ?_⟩
    exact ((inUse frame).mp (marked other member frame owned')).2.1 owned

theorem inv_of_empty (tables : Tables busy world.host.state Upper {world.host.kernelTop})
    (empty : world.pagemaps = []) : Inv busy sizes world := by
  have tops : world.tops = [world.host.kernelTop] := by rw [World.tops, empty, List.map_nil]
  have roots : world.roots = {world.host.kernelTop} := by
    simp_all [World.roots]
  refine ⟨roots ▸ tables, tops ▸ List.nodup_singleton _, ?_, ?_⟩ <;> rw [empty] <;> exact nofun

end

/-! ### One shared page -/

/-- A page that is mapped as shared, and its pagemap forked. -/
def sharedPage : List Call := [.create, .mmapRange 0 1 0x400000 mapShared protWrite, .fork 0]

section
variable {A : Allocator α} {spare : α → Nat}

theorem create_returns (stocked : Stocked A spare) (world : World α)
    (enough : 0 < spare world.host.state.alloc) :
    ∃ s pagemap, step A world .create = some (world.withState s (world.pagemaps ++ [pagemap])) ∧
      pagemap.ranges.length = 0 ∧ spare world.host.state.alloc ≤ spare s.alloc + 1 := by
  obtain ⟨top, s, created, used⟩ := vmmCreateNewPagemap_returns stocked world.host.state enough
    (world.host.kernelTop * pageSize)
  refine ⟨s, ⟨top / pageSize, (newPagemap world.host top s).ranges⟩, ?_, rfl, used⟩
  simp only [step, created, bind_returned]
  rfl

theorem mmapPage_returns (stocked : Stocked A spare) (world : World α)
    (held : world.pagemaps = [pagemap]) (enough : 4 ≤ spare world.host.state.alloc) :
    ∃ s adr, step A world (.mmapRange 0 1 0x400000 mapShared protWrite) = some (world.withState s
        [⟨pagemap.topLevel, vecPush pagemap.ranges ⟨none, BitVec.ofNat 64 adr, 0x400000, 0, pageSize,
          mapShared ||| mapAnon, protWrite⟩⟩]) ∧
      spare world.host.state.alloc ≤ spare s.alloc + 4 := by
  obtain ⟨adr, middle, given, used⟩ := pcalloc_returns stocked world.host.state (by omega)
  obtain ⟨s, mapped, used'⟩ := vmmMapPage_returns stocked middle (by omega) (pagemap.topLevel * pageSize)
    (BitVec.ofNat 64 adr) 0x400000 (pageFlags protWrite)
  have ran := vmmMmapRange_page { world.process pagemap with state := middle } mapShared protWrite mapped
  refine ⟨s, adr, ?_, by omega⟩
  simp only [step, held, List.getElem?_cons_zero, bind_returned, given, Nat.one_mul, ran]
  rfl

theorem forkPage_returns (stocked : Stocked A spare) (world : World α) (held : world.pagemaps = [pagemap])
    (one : pagemap.ranges.length = 1) (page : (pagemap.ranges.data 0).length = pageSize)
    (common : has (pagemap.ranges.data 0).flags mapShared = true)
    (enough : 4 ≤ spare world.host.state.alloc) :
    ∃ s child, step A world (.fork 0) = some (world.withState s [pagemap, child]) ∧
      child.ranges.toList = [pagemap.ranges.data 0] := by
  obtain ⟨top, middle, created, used⟩ := vmmCreateNewPagemap_returns stocked world.host.state (by omega)
    (world.host.kernelTop * pageSize)
  have turns : pageTurns pageSize = 1 := by decide
  have short : (pagemap.ranges.data 0).length ≤ wordSize - pageSize := by
    rw [page]
    decide
  obtain ⟨s, mapped, -⟩ := mapRange_returns stocked middle short (by rw [page, turns]; omega)
    (top / pageSize) (pagemap.ranges.data 0).physAddr
  refine ⟨s, ⟨top / pageSize, vecPush (newPagemap world.host top middle).ranges (pagemap.ranges.data 0)⟩,
    ?_, toList_vecPush _ _⟩
  have turn : forkRange A (newPagemap (world.process pagemap) top middle) (pagemap.ranges.data 0) =
      some (Process.pushRange { newPagemap (world.process pagemap) top middle with state := s }
        (pagemap.ranges.data 0)) := by
    simp only [forkRange, common, if_true, Option.bind_eq_bind]
    exact congrArg (Option.bind · _) mapped
  have forked : vmmForkPagemap A (world.process pagemap) =
      some (Process.pushRange { newPagemap (world.process pagemap) top middle with state := s }
        (pagemap.ranges.data 0)) := by
    simp only [vmmForkPagemap, Option.bind_eq_bind]
    rw [show vmmCreateNewPagemap A (world.process pagemap).state
      ((world.process pagemap).kernelTop * pageSize) = some (top, middle) from created]
    change (List.range pagemap.ranges.length).foldlM _ _ = _
    rw [one]
    exact congrArg (Option.bind · some) turn
  simp only [step, held, List.getElem?_cons_zero, bind_returned, forked]
  rfl

end

theorem sharedPage_returns : ∃ world final : World Pmm.State,
    Tables State.Taken world.host.state Upper {world.host.kernelTop} ∧ world.pagemaps = [] ∧
    sharedPage.foldlM (step pmmAllocator) world = some final ∧
    ∃ one other frame, final.pagemaps = [one, other] ∧ Owns one.ranges.toList frame ∧
      Owns other.ranges.toList frame := by
  obtain ⟨p, roots, -, tables, -, kernel, -, many⟩ := firstProcess_ready
  have own : Tables State.Taken p.state Upper {p.kernelTop} :=
    ⟨forest_subset tables.forest (Set.singleton_subset_iff.mpr kernel),
      fun root member => tables.owned root (member ▸ kernel), tables.null⟩
  obtain ⟨s1, new, ran1, blank, used1⟩ := create_returns pmm_stocked ⟨p, []⟩ (by dsimp only; omega)
  obtain ⟨s2, adr, ran2, used2⟩ := mmapPage_returns pmm_stocked (World.withState ⟨p, []⟩ s1 ([] ++ [new])) rfl
    (by dsimp only [World.withState] at *; omega)
  generalize kind : (⟨none, BitVec.ofNat 64 adr, 0x400000, 0, pageSize, mapShared ||| mapAnon, protWrite⟩ :
    MmapRange) = range at ran2
  have only : (vecPush new.ranges range).data 0 = range := by
    rw [vecPush, blank]
    rfl
  obtain ⟨s3, child, ran3, shares⟩ := forkPage_returns pmm_stocked
    (World.withState ⟨p, []⟩ s2 [⟨new.topLevel, vecPush new.ranges range⟩]) rfl
    (by rw [vecPush, blank]) (by rw [only, ← kind])
    (by rw [only, ← kind]; exact (show has (mapShared ||| mapAnon) mapShared = true by decide))
    (by dsimp only [World.withState] at *; omega)
  rw [only] at shares
  have count : pageCount range = 1 := by
    rw [← kind]
    exact Nat.div_self (show 0 < pageSize by decide)
  have inside : firstFrame range ≤ firstFrame range ∧ firstFrame range < firstFrame range + pageCount range := by
    omega
  refine ⟨⟨p, []⟩, World.withState ⟨p, []⟩ s3 [⟨new.topLevel, vecPush new.ranges range⟩, child], own, rfl, ?_,
    _, _, firstFrame range, rfl, ⟨range, ?_, inside⟩, ⟨range, ?_, inside⟩⟩
  · simp only [sharedPage, List.foldlM_cons, List.foldlM_nil, ran1, bind_returned]
    erw [ran2, bind_returned, ran3]
    rfl
  · rw [toList_vecPush]
    simp
  · rw [shares]
    exact List.mem_singleton.mpr rfl

section
variable {A : Allocator α} {busy : α → Nat → Prop} {sizes : Set Nat} {world : World α}

/-- **Frames behind live pagemaps are marked exactly when none is destroyed that
shares frames with another.** From the kernel's tables on, for an allocator that
hands out pages not in use for the numbers of pages asked for, and takes out of
use what is given back: along a run of creations, mappings of new pages, forks
and destructions every frame behind a range of a live pagemap is always marked
if and only if each pagemap is destroyed when no other one has a frame of it. -/
theorem frames_marked_iff (fresh : ∀ pages ∈ sizes, HandsOut A busy pages) (single : 1 ∈ sizes)
    (frees : Releases A busy) (tables : Tables busy world.host.state Upper {world.host.kernelTop})
    (empty : world.pagemaps = []) (calls : List Call) (asked : ∀ call ∈ calls, call.Asks sizes) :
    Throughout (step A) (Marked busy) world calls ↔ Along (step A) Unshared world calls :=
  throughout_iff_along_of_valid (fun _ inv => inv.marked)
    (fun _ _ _ inv valid unshared ran => step_inv fresh single frees inv valid unshared ran)
    (fun _ _ inv _ shared => destroy_shared frees inv shared) asked (inv_of_empty tables empty)

theorem shared_page_marked : ∃ world final : World Pmm.State, world.pagemaps = [] ∧
    sharedPage.foldlM (step pmmAllocator) world = some final ∧ final.pagemaps.length = 2 ∧
    Marked State.Taken final := by
  obtain ⟨world, final, tables, empty, ran, one, other, _, pagemaps, -⟩ := sharedPage_returns
  have single : ∀ pages ∈ ({1} : Set Nat), HandsOut pmmAllocator State.Taken pages :=
    fun pages only => only ▸ pmm_handsOut_page
  have kept := (frames_marked_iff single rfl pmm_releases tables empty sharedPage
    (by simp [sharedPage, Call.Asks])).mpr
    ⟨trivial, fun _ _ => ⟨trivial, fun _ _ => ⟨trivial, fun _ _ => trivial⟩⟩⟩
  exact ⟨world, final, empty, ran, by rw [pagemaps]; rfl, throughout_end kept ran⟩

/-- One of them destroyed: the frame of the other is free. -/
theorem shared_page_given_back : ∃ world final : World Pmm.State,
    Tables State.Taken world.host.state Upper {world.host.kernelTop} ∧ world.pagemaps = [] ∧
    (sharedPage ++ [Call.destroy 0]).foldlM (step pmmAllocator) world = some final ∧
    ¬ Marked State.Taken final := by
  obtain ⟨world, middle, tables, empty, ran, one, other, frame, pagemaps, owned, owned'⟩ := sharedPage_returns
  have inv : Inv State.Taken {1} middle := by
    refine foldlM_keeps (fun call listed before after holds stepped => ?_) (inv_of_empty tables empty) ran
    refine step_inv (fun pages only => only ▸ pmm_handsOut_page) rfl pmm_releases holds ?_ ?_ stepped
    all_goals
      simp only [sharedPage, List.mem_cons, List.not_mem_nil, or_false] at listed
      rcases listed with rfl | rfl | rfl <;> trivial
  have shared : ¬ Unshared middle (.destroy 0) := by
    intro unshared
    refine unshared one (by rw [pagemaps]; rfl) other ?_ frame owned owned'
    rw [pagemaps]
    exact List.mem_singleton.mpr rfl
  obtain ⟨final, stepped, lost⟩ := destroy_shared pmm_releases inv shared
  refine ⟨world, final, tables, empty, ?_, lost⟩
  rw [List.foldlM_append, ran]
  exact congrArg (Option.bind · some) stepped

end

end MandelbrotOS.PagemapFrames
