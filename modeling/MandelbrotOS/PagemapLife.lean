import MandelbrotOS.ElfImage
import MandelbrotOS.PagemapFrames

/-! The pages in use over the life of a pagemap. `vmm_destroy_pagemap` gives back
the frames of the ranges and the top level, but none of the tables in between,
which are made as they are needed. -/
namespace MandelbrotOS.PagemapLife
open ByteMemory ForkPagemap KernelHalf Mmap PageLoops PagemapFrames PageTables Pmm PmmProofs PmmSupply
open RangeMapping Runs Vectors Vfs Vmm

variable {α : Type}

/-- A call of `vmm_mmap_range` for pages that `pcalloc` has just given. -/
structure Mapping where
  pages : Nat
  virtAddr : BitVec 64
  flags : BitVec 32
  prot : BitVec 32

def mapFrames (A : Allocator α) (p : Process α) (call : Mapping) : Option (Process α) := do
  let (mem, state) ← pcalloc A p.state call.pages
  vmmMmapRange A { p with state := state } (BitVec.ofNat 64 mem) call.virtAddr (call.pages * pageSize)
    call.flags call.prot

/-- A pagemap is made, used and destroyed. -/
def lifetime (A : Allocator α) (p : Process α) (calls : List Mapping) : Option (State α) := do
  let (top, state) ← vmmCreateNewPagemap A p.state (p.kernelTop * pageSize)
  let p ← calls.foldlM (mapFrames A) (newPagemap p top state)
  vmmDestroyPagemap A p

/-- Every page of the mapping is in the lower half. -/
def Lower (call : Mapping) : Prop :=
  ∀ page < call.pages, (call.virtAddr + BitVec.ofNat 64 (page * pageSize)).getLsbD 47 = false

/-! ### Pages come into use -/

section
variable {s s' : Vmm.State Pmm.State}

/-- What was in use still is. -/
def Grows (pmm pmm' : Pmm.State) : Prop := ∀ page, pmm.Taken page → pmm'.Taken page

theorem grows_trans (first : Grows pmm pmm') (second : Grows pmm' pmm'') : Grows pmm pmm'' :=
  fun page taken => second page (first page taken)

theorem pcalloc_grows (ran : pcalloc pmmAllocator s pages = some (adr, s')) : Grows s.alloc s'.alloc := by
  obtain ⟨_, _, _, _, _, _, taken⟩ := pcalloc_lowest ran
  exact fun page before => (taken page).mpr (Or.inl before)

theorem vmmGetNextLevel_grows (ran : vmmGetNextLevel pmmAllocator s table index = some (adr, s')) :
    Grows s.alloc s'.alloc := by
  unfold vmmGetNextLevel at ran
  split at ran
  · cases ran
    exact fun _ taken => taken
  · split at ran
    · cases ran
    · rename_i given
      cases ran
      have grows := pcalloc_grows given
      exact grows

theorem descend_grows (ran : descend pmmAllocator s top virtualAddress = some (adr, s')) : Grows s.alloc s'.alloc := by
  simp only [descend, bind_returns, Prod.exists] at ran
  obtain ⟨_, _, first, _, _, second, third⟩ := ran
  exact grows_trans (vmmGetNextLevel_grows first)
    (grows_trans (vmmGetNextLevel_grows second) (vmmGetNextLevel_grows third))

theorem vmmMapPage_grows (ran : vmmMapPage pmmAllocator s top physicalAddress virtualAddress flags = some s') :
    Grows s.alloc s'.alloc := by
  simp only [vmmMapPage, bind_returns, Prod.exists, Option.some.injEq] at ran
  obtain ⟨_, _, descended, rfl⟩ := ran
  have grows := descend_grows descended
  exact grows

theorem vmmUnmapPage_grows (ran : vmmUnmapPage pmmAllocator s top virtualAddress = some s') : Grows s.alloc s'.alloc := by
  simp only [vmmUnmapPage, bind_returns, Prod.exists, Option.some.injEq] at ran
  obtain ⟨_, _, descended, rfl⟩ := ran
  have grows := descend_grows descended
  exact grows

theorem unmapPages_grows (ran : unmapPages pmmAllocator top addr length s = some s') : Grows s.alloc s'.alloc := by
  have turn (middle : Vmm.State Pmm.State) (page : Nat) (later : Vmm.State Pmm.State) (grows : Grows s.alloc middle.alloc)
      (_ : page < pageTurns length)
      (turned : vmmUnmapPage pmmAllocator middle (top * pageSize)
        (addr + BitVec.ofNat 64 (page * pageSize)) = some later) : Grows s.alloc later.alloc :=
    grows_trans grows (vmmUnmapPage_grows turned)
  have grows := forPages_keeps ran turn fun _ taken => taken
  exact grows

/-- A page that has come into use, and everything below it. -/
def Reaches (pmm pmm' : Pmm.State) (page : Nat) : Prop := ¬ pmm.Taken page ∧ ∀ below ≤ page, pmm'.Taken below

theorem vmmMapPage_reaches (blank : entryAt s.mem top (pmlEntry 39 virtualAddress) = 0)
    (ran : vmmMapPage pmmAllocator s top physicalAddress virtualAddress flags = some s') :
    ∃ table, Reaches s.alloc s'.alloc table := by
  simp only [vmmMapPage, descend, bind_returns, Prod.exists, Option.some.injEq] at ran
  obtain ⟨_, s3, ⟨_, s1, first, _, s2, second, third⟩, rfl⟩ := ran
  have later : Grows s1.alloc s3.alloc := grows_trans (vmmGetNextLevel_grows second) (vmmGetNextLevel_grows third)
  rw [vmmGetNextLevel, blank, if_neg (by decide)] at first
  split at first
  · cases first
  · rename_i middle given
    cases first
    obtain ⟨lowest, -, free, below, -⟩ := pcalloc_lowest given
    exact ⟨lowest, free, fun page upTo => later page (below page upTo)⟩

theorem mapPages_reaches (blank : entryAt s.mem (top * pageSize) (pmlEntry 39 virtAddr) = 0)
    (nonempty : 0 < length)
    (ran : forPages (fun s i => vmmMapPage pmmAllocator s (top * pageSize) (physAddr + BitVec.ofNat 64 i)
      (virtAddr + BitVec.ofNat 64 i) flags) length s = some s') : ∃ table, Reaches s.alloc s'.alloc table := by
  have turn (page : Nat) (_ : page < pageTurns length) (middle later : Vmm.State Pmm.State)
      (held : page = 0 ∧ middle = s ∨ ∃ table, Reaches s.alloc middle.alloc table)
      (turned : vmmMapPage pmmAllocator middle (top * pageSize) (physAddr + BitVec.ofNat 64 (page * pageSize))
        (virtAddr + BitVec.ofNat 64 (page * pageSize)) flags = some later) :
      page + 1 = 0 ∧ later = s ∨ ∃ table, Reaches s.alloc later.alloc table := by
    rcases held with ⟨rfl, rfl⟩ | ⟨table, free, below⟩
    · refine Or.inr (vmmMapPage_reaches ?_ turned)
      simp_all
    · exact Or.inr ⟨table, free, fun page upTo => vmmMapPage_grows turned page (below page upTo)⟩
  have done := forPages_counts ran turn (Or.inl ⟨rfl, rfl⟩)
  grind [pageTurns, pageSize]

theorem vmmCreateNewPagemap_lowest (null : s.alloc.Taken 0)
    (ran : vmmCreateNewPagemap pmmAllocator s kernelTop = some (adr, s')) :
    ∃ top < 2 ^ 52, adr = top * pageSize ∧ ¬ s.alloc.Taken top ∧ (∀ page ≤ top, s'.alloc.Taken page) ∧
      (∀ page, s'.alloc.Taken page ↔ s.alloc.Taken page ∨ page = top) ∧
      ∀ index, ¬ Upper index → slot s'.mem top index = 0 := by
  simp only [vmmCreateNewPagemap, bind_returns, Prod.exists, Option.some.injEq, Prod.mk.injEq] at ran
  obtain ⟨_, middle, given, rfl, rfl⟩ := ran
  obtain ⟨top, rfl, bound, free, taken, cleared⟩ := pcalloc_page pmm_handsOut_page null given
  obtain ⟨lowest, -, -, below, same, -⟩ := pcalloc_lowest given
  obtain rfl : top = lowest := Nat.eq_of_mul_eq_mul_right (by decide) same
  have copied (slots : List (Fin 512)) (s : Vmm.State Pmm.State) :
      let s' := slots.foldl (fun s i => s.setEntry (top * pageSize) i (entryAt s.mem kernelTop i)) s
      s'.alloc = s.alloc ∧ ∀ index ∉ slots, slot s'.mem top index = slot s.mem top index := by
    induction slots generalizing s with
    | nil => exact ⟨rfl, fun _ _ => rfl⟩
    | cons first rest ih =>
      grind [State.setEntry, slot_storeWord]
  obtain ⟨alloc, kept⟩ := copied upperSlots middle
  refine ⟨top, bound, rfl, free, ?_, ?_, fun index lower => ?_⟩
  · rw [alloc]
    exact below
  · rw [alloc]
    exact taken
  · rw [kept index (mt mem_upperSlots.mp lower), cleared, slot_fill_page, if_pos rfl]

end

/-! ### One call -/

/-- The pages `vmm_destroy_pagemap` gives back for a range. -/
def Frees (range : MmapRange) : Nat → Prop := InRun range.physAddr.toNat (range.length / pageSize)

/-- A page in use, with all below it, that no range has. -/
structure Leaks (table : Nat) (p : Process Pmm.State) : Prop where
  below : ∀ page ≤ table, p.state.alloc.Taken page
  kept : ∀ range ∈ p.ranges.toList, ¬ Frees range table

/-- The last call has taken all pages there are, page 0 once more. -/
structure Exhausted (p : Process Pmm.State) : Prop where
  full : ∀ page < 2 ^ 52, p.state.alloc.Taken page
  last : ∃ earlier last, p.ranges.toList = earlier ++ [last] ∧ has last.flags mapAnon = true ∧ Frees last 0

section
variable {p p' : Process Pmm.State}

theorem frees_given (bound : first < 2 ^ 52) (virtAddr : BitVec 64) (pages : Nat) (flags prot : BitVec 32) :
    Frees ⟨none, BitVec.ofNat 64 (first * pageSize), virtAddr, 0, pages * pageSize, flags, prot⟩ =
      InRun (first * pageSize) pages := by
  grind [pageSize, Frees]

theorem mapFrames_adds (ran : mapFrames pmmAllocator p call = some p') :
    p'.topLevel = p.topLevel ∧ Grows p.state.alloc p'.state.alloc ∧
      ∃ lowest < 2 ^ 52, ¬ p.state.alloc.Taken lowest ∧ (∀ page ≤ lowest, p'.state.alloc.Taken page) ∧
      ∃ range, p'.ranges.toList = p.ranges.toList ++ [range] ∧ has range.flags mapAnon = true ∧
        Frees range = InRun (lowest * pageSize) call.pages ∧ ∀ page, Frees range page → p'.state.alloc.Taken page := by
  simp only [mapFrames, vmmMmapRange, bind_returns, Prod.exists, Option.some.injEq] at ran
  obtain ⟨_, middle, given, state, looped, rfl⟩ := ran
  obtain ⟨lowest, bound, free, below, rfl, -, taken⟩ := pcalloc_lowest given
  have turn (s : Vmm.State Pmm.State) (page : Nat) (later : Vmm.State Pmm.State)
      (grows : Grows middle.alloc s.alloc) (_ : page < pageTurns (call.pages * pageSize))
      (turned : vmmMapPage pmmAllocator s (p.topLevel * pageSize)
        (BitVec.ofNat 64 (lowest * pageSize) + BitVec.ofNat 64 (page * pageSize))
        (call.virtAddr + BitVec.ofNat 64 (page * pageSize)) (pageFlags call.prot) = some later) :
      Grows middle.alloc later.alloc := grows_trans grows (vmmMapPage_grows turned)
  have mapped := forPages_keeps looped turn fun _ taken => taken
  have run := frees_given bound call.virtAddr call.pages (call.flags ||| mapAnon) call.prot
  refine ⟨rfl, fun page before => mapped page ((taken page).mpr (Or.inl before)), lowest, bound, free,
    fun page upTo => mapped page (below page upTo), _, toList_vecPush _ _, has_mapAnon _, run, ?_⟩
  intro page inside
  rw [run] at inside
  exact mapped page ((taken page).mpr (Or.inr inside))

theorem inRun_round (bound : lowest < 2 ^ 52) (above : table < lowest)
    (inside : InRun (lowest * pageSize) pages table) :
    InRun (lowest * pageSize) pages 0 ∧
      ∀ page, lowest ≤ page → page < 2 ^ 52 → InRun (lowest * pageSize) pages page := by
  obtain ⟨i, small, here⟩ := inside
  simp only [pageSize, wordSize] at here
  refine ⟨⟨2 ^ 52 - lowest, by omega, ?_⟩, fun page low high => ⟨page - lowest, by omega, ?_⟩⟩
  · simp only [pageSize, wordSize]
    omega
  · simp only [pageSize, wordSize]
    omega

theorem mapFrames_leaks (leaks : Leaks table p) (ran : mapFrames pmmAllocator p call = some p') :
    Leaks table p' ∨ Exhausted p' := by
  obtain ⟨-, grows, lowest, bound, free, below, range, listed, anon, run, taken⟩ := mapFrames_adds ran
  have above : table < lowest := Nat.lt_of_not_le fun upTo => free (leaks.below lowest upTo)
  by_cases inside : Frees range table
  · refine Or.inr ⟨fun page small => ?_, p.ranges.toList, range, listed, anon, ?_⟩
    · rcases Nat.lt_or_ge page lowest with less | more
      · exact below page (Nat.le_of_lt less)
      · rw [run] at inside taken
        exact taken page ((inRun_round bound above inside).2 page more small)
    · rw [run] at inside ⊢
      exact (inRun_round bound above inside).1
  · refine Or.inl ⟨fun page upTo => grows page (leaks.below page upTo), ?_⟩
    rw [listed]
    exact List.forall_mem_append.mpr ⟨leaks.kept, List.forall_mem_singleton.mpr inside⟩

theorem Exhausted.none (exhausted : Exhausted p) : mapFrames pmmAllocator p call ≠ some p' := by
  intro ran
  obtain ⟨-, -, lowest, bound, free, -⟩ := mapFrames_adds ran
  exact free (exhausted.full lowest bound)

theorem mapFrames_makes (blank : ∀ index, ¬ Upper index → slot p.state.mem p.topLevel index = 0)
    (below : ∀ page ≤ p.topLevel, p.state.alloc.Taken page) (empty : p.ranges.toList = []) (lower : Lower call)
    (ran : mapFrames pmmAllocator p call = some p') :
    ∃ table, ¬ p.state.alloc.Taken table ∧ Leaks table p' := by
  simp only [mapFrames, vmmMmapRange, bind_returns, Prod.exists, Option.some.injEq] at ran
  obtain ⟨_, middle, given, state, looped, rfl⟩ := ran
  obtain ⟨lowest, bound, free, -, rfl, positive, taken⟩ := pcalloc_lowest given
  have above : p.topLevel < lowest := Nat.lt_of_not_le fun upTo => free (below lowest upTo)
  -- what was cleared is above the top level
  have still (index : Fin 512) : slot middle.mem p.topLevel index = slot p.state.mem p.topLevel index := by
    rw [(pcalloc_eq given).2]
    split
    · rfl
    · exact slot_fill_apart (Nat.mod_le _ _) (Or.inl above)
  have start : call.virtAddr.getLsbD 47 = false := by
    have first := lower 0 positive
    rwa [Nat.zero_mul, BitVec.add_zero] at first
  have nothing : slot middle.mem p.topLevel (pmlEntry 39 call.virtAddr) = 0 := by
    simp_all [upper_iff]
  have nonempty : 0 < call.pages * pageSize := Nat.mul_pos positive (by decide)
  obtain ⟨table, unused, upTo⟩ := mapPages_reaches nothing nonempty looped
  have run := frees_given bound call.virtAddr call.pages (call.flags ||| mapAnon) call.prot
  refine ⟨table, fun before => unused ((taken table).mpr (Or.inl before)), upTo, ?_⟩
  simp_all [Process.pushRange, toList_vecPush]

end

/-! ### The whole life -/

section
variable {p p' : Process Pmm.State}

theorem destroyRange_takes (ran : destroyRange pmmAllocator p range = some p') :
    p'.topLevel = p.topLevel ∧ (∀ page, ¬ Frees range page → p.state.alloc.Taken page → p'.state.alloc.Taken page) ∧
      (has range.flags mapAnon = true → ∀ page, Frees range page → ¬ p'.state.alloc.Taken page) := by
  simp only [destroyRange, bind_returns, Option.some.injEq] at ran
  obtain ⟨state, unmapped, rfl⟩ := ran
  have grows := unmapPages_grows unmapped
  unfold releaseFrames
  split
  · refine ⟨rfl, fun page outside taken => ?_, fun _ page inside taken => ?_⟩
    · exact (taken_pmmFreePages_iff _).mpr ⟨grows page taken, outside⟩
    · exact ((taken_pmmFreePages_iff _).mp taken).2 inside
  · rename_i file
    exact ⟨rfl, fun page _ taken => grows page taken, fun anon => absurd anon file⟩

theorem vmmDestroyPagemap_ranges (ran : vmmDestroyPagemap pmmAllocator p = some s) :
    ∃ q, p.ranges.toList.foldlM (destroyRange pmmAllocator) p = some q ∧
      s.alloc = pmmFreePages q.state.alloc (q.topLevel * pageSize) 1 := by
  simp only [vmmDestroyPagemap, bind_returns, Option.some.injEq] at ran
  obtain ⟨q, looped, rfl⟩ := ran
  rw [← List.foldlM_map] at looped
  exact ⟨q, looped, rfl⟩

theorem vmmDestroyPagemap_leaks (leaks : Leaks table p) (other : table ≠ p.topLevel) (bound : p.topLevel < 2 ^ 52)
    (ran : vmmDestroyPagemap pmmAllocator p = some s) : s.alloc.Taken table := by
  obtain ⟨q, looped, freed⟩ := vmmDestroyPagemap_ranges ran
  have turn : ∀ range ∈ p.ranges.toList, ∀ middle later : Process Pmm.State,
      middle.topLevel = p.topLevel ∧ middle.state.alloc.Taken table →
      destroyRange pmmAllocator middle range = some later →
      later.topLevel = p.topLevel ∧ later.state.alloc.Taken table := by
    rintro range listed middle later ⟨top, taken⟩ turned
    obtain ⟨same, keeps, -⟩ := destroyRange_takes turned
    exact ⟨same.trans top, keeps table (leaks.kept range listed) taken⟩
  obtain ⟨top, taken⟩ := foldlM_keeps turn ⟨rfl, leaks.below table (Nat.le_refl _)⟩ looped
  grind [pageSize, wordSize, taken_pmmFreePages]

theorem vmmDestroyPagemap_exhausted (exhausted : Exhausted p) (ran : vmmDestroyPagemap pmmAllocator p = some s) :
    ¬ s.alloc.Taken 0 := by
  obtain ⟨q, looped, freed⟩ := vmmDestroyPagemap_ranges ran
  obtain ⟨earlier, last, listed, anon, inside⟩ := exhausted.last
  rw [listed, List.foldlM_append] at looped
  obtain ⟨middle, -, turned⟩ := Option.bind_eq_some_iff.mp looped
  have once : destroyRange pmmAllocator middle last = some q := by simpa using turned
  obtain ⟨-, -, gone⟩ := destroyRange_takes once
  simp_all [taken_pmmFreePages_iff]

theorem newPagemap_topLevel (p : Process Pmm.State) (top : Nat) (state : Vmm.State Pmm.State) :
    (newPagemap p (top * pageSize) state).topLevel = top := Nat.mul_div_cancel _ (by decide)

theorem lifetime_nil {s : Vmm.State Pmm.State} (null : p.state.alloc.Taken 0)
    (ran : lifetime pmmAllocator p [] = some s) (page : Nat) : s.alloc.Taken page ↔ p.state.alloc.Taken page := by
  simp only [lifetime, bind_returns, Prod.exists, List.foldlM_nil] at ran
  obtain ⟨adr, state, created, q, same, destroyed⟩ := ran
  cases same
  obtain ⟨top, bound, rfl, free, -, taken, -⟩ := vmmCreateNewPagemap_lowest null created
  obtain ⟨q, nothing, freed⟩ := vmmDestroyPagemap_ranges destroyed
  cases nothing
  have fits : (top + 1) * pageSize ≤ wordSize := by
    simp only [pageSize, wordSize]
    omega
  rw [freed, newPagemap_topLevel, taken_pmmFreePages _ fits]
  change state.alloc.Taken page ∧ _ ↔ _
  grind

theorem lifetime_cons {s : Vmm.State Pmm.State} (null : p.state.alloc.Taken 0) (lower : Lower first)
    (ran : lifetime pmmAllocator p (first :: rest) = some s) :
    ∃ page, ¬ (s.alloc.Taken page ↔ p.state.alloc.Taken page) := by
  simp only [lifetime, bind_returns, Prod.exists, List.foldlM_cons] at ran
  obtain ⟨adr, state, created, q, ⟨middle, once, looped⟩, destroyed⟩ := ran
  obtain ⟨top, bound, rfl, -, below, taken, blank⟩ := vmmCreateNewPagemap_lowest null created
  have place := newPagemap_topLevel p top state
  have blank' : ∀ index, ¬ Upper index → slot state.mem (newPagemap p (top * pageSize) state).topLevel index = 0 := by
    rw [place]
    exact blank
  have below' : ∀ page ≤ (newPagemap p (top * pageSize) state).topLevel, state.alloc.Taken page := by
    rw [place]
    exact below
  obtain ⟨table, unused, leaks⟩ := mapFrames_makes (p := newPagemap p (top * pageSize) state) blank' below' rfl lower once
  have turn : ∀ call ∈ rest, ∀ one other : Process Pmm.State,
      one.topLevel = top ∧ (Leaks table one ∨ Exhausted one) → mapFrames pmmAllocator one call = some other →
      other.topLevel = top ∧ (Leaks table other ∨ Exhausted other) := by
    rintro call - one other ⟨here, leaks | exhausted⟩ mapped
    · grind [mapFrames_adds, mapFrames_leaks]
    · exact absurd mapped exhausted.none
  obtain ⟨here, leaks | exhausted⟩ :=
    foldlM_keeps turn ⟨(mapFrames_adds once).1.trans place, Or.inl leaks⟩ looped
  · have other : table ≠ q.topLevel := fun equal => unused ((taken table).mpr (Or.inr (equal.trans here)))
    have small : q.topLevel < 2 ^ 52 := by rwa [here]
    have still := vmmDestroyPagemap_leaks leaks other small destroyed
    exact ⟨table, fun same => unused ((taken table).mpr (Or.inl (same.mp still)))⟩
  · grind [vmmDestroyPagemap_exhausted]

/-- **Destroying a pagemap gives everything back only if nothing was mapped in
it.** For every bitmap with page 0 in use and every sequence of calls on the lower
half: when the pagemap has been destroyed the bitmap is what it was exactly if
there was no call. -/
theorem frames_returned_iff {s : Vmm.State Pmm.State} (null : p.state.alloc.Taken 0)
    (lower : ∀ call ∈ calls, Lower call) (ran : lifetime pmmAllocator p calls = some s) :
    (∀ page, s.alloc.Taken page ↔ p.state.alloc.Taken page) ↔ calls = [] := by
  cases calls with
  | nil => exact iff_of_true (lifetime_nil null ran) rfl
  | cons first rest =>
    obtain ⟨page, changed⟩ := lifetime_cons null (lower first List.mem_cons_self) ran
    exact iff_of_false (fun same => changed (same page)) (List.cons_ne_nil _ _)

end

/-! ### One page, and none -/

/-- A private page at `0x400000`. -/
def onePage : Mapping := ⟨1, 0x400000, 1, 2⟩

theorem empty_pagemap_returned : ∃ s, lifetime pmmAllocator ElfImage.smallProcess [] = some s ∧
    ∀ page, s.alloc.Taken page ↔ ElfImage.smallProcess.state.alloc.Taken page := by
  obtain ⟨s, ran⟩ := Option.isSome_iff_exists.mp
    (show (lifetime pmmAllocator ElfImage.smallProcess []).isSome by decide +kernel)
  refine ⟨s, ran, ?_⟩
  exact (frames_returned_iff (by decide +kernel) (List.forall_mem_nil _) ran).mpr rfl

/-- One with one page leaves its three tables. -/
theorem three_tables_left : ∃ s, lifetime pmmAllocator ElfImage.smallProcess [onePage] = some s ∧
    (List.range 16).filter (fun page => decide (ElfImage.smallProcess.state.alloc.Taken page)) = [0, 1, 2, 3, 4] ∧
    (List.range 16).filter (fun page => decide (s.alloc.Taken page)) = [0, 1, 2, 3, 4, 7, 8, 9] := by
  have life : (lifetime pmmAllocator ElfImage.smallProcess [onePage]).map (fun s =>
      (List.range 16).filter fun page => decide (s.alloc.Taken page)) = some [0, 1, 2, 3, 4, 7, 8, 9] := by
    decide +kernel
  obtain ⟨s, ran, taken⟩ := Option.map_eq_some_iff.mp life
  exact ⟨s, ran, by decide +kernel, taken⟩

end MandelbrotOS.PagemapLife
