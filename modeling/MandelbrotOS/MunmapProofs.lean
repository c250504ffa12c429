import MandelbrotOS.PmmSupply
import MandelbrotOS.RangeMapping

/-! What `syscall_munmap` touches. It removes the right range from the list,
unmaps as many pages as the caller says, and then frees the frames of whatever
range has moved into the removed one's place. -/
namespace MandelbrotOS.MunmapProofs
open ByteMemory Mmap PageLoops PageTables Pmm PmmSupply RangeMapping Runs Vectors Vfs Vmm

variable {α : Type}

/-! ### The range that is freed -/

/-- No two ranges start at one address. -/
def DistinctStarts (p : Process α) : Prop :=
  ∀ i < p.ranges.length, ∀ j < p.ranges.length,
    (p.ranges.data i).virtAddr = (p.ranges.data j).virtAddr → i = j

/-- The range found at the index of a removed one: the next, or itself when it
was the last. -/
def rangeInPlace (p : Process α) (i : Nat) : MmapRange :=
  p.ranges.data (if i + 1 < p.ranges.length then i + 1 else i)

/-- The process after the pages were unmapped and the range at `i` removed. -/
def afterRemoval (A : Allocator α) (p : Process α) (i : Nat) (state : State α) : Process α :=
  releaseFrames A { p with ranges := vecSplice p.ranges i 1, state := state } (rangeInPlace p i)

section
variable (A : Allocator α) (p : Process α)
include A p

theorem syscallMunmap_absent (length : Nat)
    (absent : ∀ i < p.ranges.length, (p.ranges.data i).virtAddr ≠ addr) :
    syscallMunmap A p addr length = some (1, p) := by
  grind [syscallMunmap]

theorem syscallMunmap_found (length : Nat) (distinct : DistinctStarts p) (inside : i < p.ranges.length)
    (starts : (p.ranges.data i).virtAddr = addr) :
    syscallMunmap A p addr length =
      (unmapPages A p.topLevel addr length p.state).map fun state => (0, afterRemoval A p i state) := by
  have found : (List.range p.ranges.length).find?
      (fun i => (p.ranges.data i).virtAddr == addr) = some i := by
    rw [List.find?_range_eq_some]
    refine ⟨by simpa using starts, List.mem_range.mpr inside, fun j earlier => ?_⟩
    have apart : (p.ranges.data j).virtAddr ≠ addr := fun same =>
      Nat.ne_of_lt earlier (distinct j (by omega) i inside (same.trans starts.symm))
    simpa using apart
  have removed : vecRemove p.ranges (p.ranges.data i) = vecSplice p.ranges i 1 := by
    have first : vecFind p.ranges (p.ranges.data i) = some i := by
      rw [vecFind, List.find?_range_eq_some]
      refine ⟨by simp, List.mem_range.mpr inside, fun j earlier => ?_⟩
      have apart : p.ranges.data j ≠ p.ranges.data i := fun same =>
        Nat.ne_of_lt earlier (distinct j (by omega) i inside (congrArg MmapRange.virtAddr same))
      simpa using apart
    rw [vecRemove, first]
  rw [syscallMunmap, found]
  dsimp only
  rw [removed, vecSplice_data p.ranges inside]
  change (unmapPages A p.topLevel addr length p.state).bind _ = _
  cases unmapPages A p.topLevel addr length p.state <;> rfl

/-! ### One range and nothing else -/

/-- The frames `pmm_free_pages(adr, pages)` gives back. -/
def FramesOf (adr pages frame : Nat) : Prop :=
  ∃ k < pages, frame = (adr + k * pageSize) % wordSize / pageSize

def OwnsFrame (range : MmapRange) (frame : Nat) : Prop :=
  FramesOf range.physAddr.toNat (range.length / pageSize) frame

def isAnon (range : MmapRange) : Bool := has range.flags mapAnon

/-- The frames a call handed to `pmm_free_pages`. -/
def GivenBack (p p' : Process α) (frame : Nat) : Prop :=
  ∃ call ∈ p'.released.drop p.released.length, FramesOf call.1 call.2 frame

/-- A page of the range, through one of its addresses. -/
def OnRange (range : MmapRange) (virtualAddress : BitVec 64) : Prop :=
  PagesFrom range.virtAddr range.length virtualAddress

/-- `syscall_munmap` returns; when a range starts at the address exactly that
one is gone, its frames and no others were freed if it is anonymous, its pages
are unmapped, and the pages and frames of the other ranges are as they were;
and when none does nothing has changed. -/
def TouchesOneRange (A : Allocator α) (p : Process α) (addr : BitVec 64) (length : Nat) : Prop :=
  ∃ result p', syscallMunmap A p addr length = some (result, p') ∧
    ((∀ i < p.ranges.length, (p.ranges.data i).virtAddr ≠ addr) → p' = p) ∧
    ∀ i < p.ranges.length, (p.ranges.data i).virtAddr = addr →
      p'.ranges.toList = p.ranges.toList.eraseIdx i ∧
      (∀ frame, GivenBack p p' frame ↔
        isAnon (p.ranges.data i) = true ∧ OwnsFrame (p.ranges.data i) frame) ∧
      (∀ page, OnRange (p.ranges.data i) page → translation p'.state.mem p.topLevel page = 0) ∧
      ∀ j < p.ranges.length, j ≠ i →
        (∀ page, OnRange (p.ranges.data j) page →
          translation p'.state.mem p.topLevel page = translation p.state.mem p.topLevel page) ∧
        ∀ frame, OwnsFrame (p.ranges.data j) frame → ¬ GivenBack p p' frame

/-- The ranges own pairwise disjoint frames. -/
def DisjointFrames (p : Process α) : Prop :=
  ∀ i < p.ranges.length, ∀ j < p.ranges.length, i ≠ j → ∀ frame,
    OwnsFrame (p.ranges.data i) frame → ¬ OwnsFrame (p.ranges.data j) frame

/-- An anonymous range of at least one page. -/
def FreesFrames (range : MmapRange) : Prop := isAnon range = true ∧ 0 < range.length / pageSize

/-- The calls that do no harm: the length leaves room for a last step; the range
is the last of the list, or neither it nor the one behind it has frames to
free; and the pages the length covers include the mapped pages of the range
and no mapped page of another. -/
def Harmless (p : Process α) (addr : BitVec 64) (length : Nat) : Prop :=
  ∀ i < p.ranges.length, (p.ranges.data i).virtAddr = addr →
    length ≤ wordSize - pageSize ∧
    (i + 1 = p.ranges.length ∨
      (¬ FreesFrames (p.ranges.data i) ∧ ¬ FreesFrames (p.ranges.data (i + 1)))) ∧
    (∀ page, OnRange (p.ranges.data i) page → translation p.state.mem p.topLevel page ≠ 0 →
      Unmaps addr length page) ∧
    ∀ j < p.ranges.length, j ≠ i → ∀ page, OnRange (p.ranges.data j) page →
      translation p.state.mem p.topLevel page ≠ 0 → ¬ Unmaps addr length page

theorem handed_afterRemoval (i : Nat) (state : State α) : GivenBack p (afterRemoval A p i state) frame ↔
      isAnon (rangeInPlace p i) = true ∧ OwnsFrame (rangeInPlace p i) frame := by
  rw [GivenBack, afterRemoval, releaseFrames, isAnon]
  cases has (rangeInPlace p i).flags mapAnon with
  | false => simp
  | true => simp [OwnsFrame]

theorem afterRemoval_mem (i : Nat) (state : State α) : (afterRemoval A p i state).state.mem = state.mem :=
  releaseFrames_mem A _ _

theorem afterRemoval_ranges (i : Nat) (state : State α) :
    (afterRemoval A p i state).ranges = vecSplice p.ranges i 1 := by
  rw [afterRemoval, releaseFrames]
  split <;> rfl

end

theorem frees_right_frames_iff (disjoint : DisjointFrames p) (inside : i < p.ranges.length) :
    (∀ frame, (isAnon (rangeInPlace p i) = true ∧ OwnsFrame (rangeInPlace p i) frame) ↔
        (isAnon (p.ranges.data i) = true ∧ OwnsFrame (p.ranges.data i) frame)) ↔
      (i + 1 = p.ranges.length ∨
        (¬ FreesFrames (p.ranges.data i) ∧ ¬ FreesFrames (p.ranges.data (i + 1)))) := by
  have first (range : MmapRange) (some : 0 < range.length / pageSize) :
      OwnsFrame range ((range.physAddr.toNat + 0 * pageSize) % wordSize / pageSize) := ⟨0, some, rfl⟩
  have none (range : MmapRange) (idle : ¬ FreesFrames range) (frame : Nat) :
      ¬ (isAnon range = true ∧ OwnsFrame range frame) := by
    rintro ⟨anon, k, below, _⟩
    exact idle ⟨anon, Nat.lt_of_le_of_lt (Nat.zero_le k) below⟩
  by_cases last : i + 1 = p.ranges.length
  · simp_all [rangeInPlace]
  · have more : i + 1 < p.ranges.length := by omega
    rw [rangeInPlace, if_pos more]
    constructor
    · intro same
      refine Or.inr ⟨fun frees => ?_, fun frees => ?_⟩
      · obtain ⟨_, owned⟩ := (same _).mpr ⟨frees.1, first _ frees.2⟩
        exact disjoint i inside (i + 1) more (by omega) _ (first _ frees.2) owned
      · obtain ⟨_, owned⟩ := (same _).mp ⟨frees.1, first _ frees.2⟩
        exact disjoint (i + 1) more i inside (by omega) _ (first _ frees.2) owned
    · grind

section
variable {A : Allocator α} {busy : α → Nat → Prop} {shared : Fin 512 → Prop} {roots : Set Nat}
  {spare : α → Nat}

theorem harmless_of_touches (fresh : HandsOut A busy 1) (tables : Tables busy p.state shared roots)
    (member : p.topLevel ∈ roots) (distinct : DistinctStarts p) (disjoint : DisjointFrames p)
    (touches : TouchesOneRange A p addr length) : Harmless p addr length := by
  obtain ⟨result, p', ran, _, touched⟩ := touches
  intro i inside starts
  obtain ⟨_, freed, unmapped, others⟩ := touched i inside starts
  rw [syscallMunmap_found A p length distinct inside starts] at ran
  obtain ⟨state, looped, result⟩ := Option.map_eq_some_iff.mp ran
  cases result
  obtain ⟨_, gone, left⟩ := unmapPages_spec fresh tables member looped
  simp only [afterRemoval_mem] at unmapped others
  refine ⟨short_of_forPages looped, (frees_right_frames_iff disjoint inside).mp fun frame => ?_, ?_, ?_⟩
  · grind [handed_afterRemoval]
  · grind
  · grind

theorem touches_of_harmless (fresh : HandsOut A busy 1) (stocked : Stocked A spare)
    (tables : Tables busy p.state shared roots) (member : p.topLevel ∈ roots)
    (distinct : DistinctStarts p) (disjoint : DisjointFrames p)
    (enough : 3 * pageTurns length ≤ spare p.state.alloc) (inside : i < p.ranges.length)
    (starts : (p.ranges.data i).virtAddr = addr) (harmless : Harmless p addr length) :
    TouchesOneRange A p addr length := by
  obtain ⟨short, right, covers, spares⟩ := harmless i inside starts
  obtain ⟨state, looped⟩ := unmapPages_returns stocked p.state short enough p.topLevel addr
  obtain ⟨_, gone, left⟩ := unmapPages_spec fresh tables member looped
  have freed (frame : Nat) : GivenBack p (afterRemoval A p i state) frame ↔
      isAnon (p.ranges.data i) = true ∧ OwnsFrame (p.ranges.data i) frame := by
    rw [handed_afterRemoval]
    grind [frees_right_frames_iff]
  refine ⟨0, afterRemoval A p i state, ?_, fun absent => absurd starts (absent i inside), ?_⟩
  · grind [syscallMunmap_found]
  · intro j within same
    obtain rfl := distinct j within i inside (same.trans starts.symm)
    refine ⟨?_, freed, fun page on => ?_, fun k below different => ⟨fun page on => ?_, ?_⟩⟩
    · rw [afterRemoval_ranges, toList_vecSplice _ inside]
    · rw [afterRemoval_mem]
      grind
    · rw [afterRemoval_mem]
      grind
    · intro frame owned handed
      exact disjoint k below j inside different frame owned ((freed frame).mp handed).2

/-- **`syscall_munmap` touches one range only, exactly when it is harmless.**
For a process whose ranges start at distinct addresses and own disjoint frames
and whose tables are sound, with memory for the tables unmapping may allocate. -/
theorem munmap_touches_one_range_iff (fresh : HandsOut A busy 1) (stocked : Stocked A spare)
    (tables : Tables busy p.state shared roots) (member : p.topLevel ∈ roots)
    (distinct : DistinctStarts p) (disjoint : DisjointFrames p)
    (enough : 3 * pageTurns length ≤ spare p.state.alloc) :
    TouchesOneRange A p addr length ↔ Harmless p addr length := by
  refine ⟨harmless_of_touches fresh tables member distinct disjoint, fun harmless => ?_⟩
  by_cases found : ∃ i < p.ranges.length, (p.ranges.data i).virtAddr = addr
  · obtain ⟨i, inside, starts⟩ := found
    exact touches_of_harmless fresh stocked tables member distinct disjoint enough inside starts harmless
  · have absent : ∀ i < p.ranges.length, (p.ranges.data i).virtAddr ≠ addr :=
      fun i inside same => found ⟨i, inside, same⟩
    exact ⟨1, p, syscallMunmap_absent A p length absent, fun _ => rfl,
      fun i inside same => absurd same (absent i inside)⟩

end

/-! ### Two adjacent ranges -/

/-- A process with nothing mapped, on a machine of sixteen pages: page 1 is its
top level and pages 5 and 6 are set aside. -/
def emptyProcess : Process Pmm.State where
  state := ⟨fun _ => 0, ⟨fun byte => if byte = 0 then 0b1100011 else 0, 0x10000, sixteenPages_bounded⟩⟩
  topLevel := 1
  ranges := ⟨fun _ => ⟨none, 0, 0, 0, 0, 0, 0⟩, 0⟩
  mmapTop := 0
  mmapedLen := 0
  fds := fun _ => none
  files := fun _ => ⟨0, 0, 0, 0, 0, 0⟩
  mmapOps := fun _ => none
  kernelTop := 2
  framebuffer := 0

def mapTwoRanges : Option (Process Pmm.State) := do
  let p ← vmmMmapRange pmmAllocator emptyProcess 0x5000 0x400000 0x1000 mapPrivate protWrite
  vmmMmapRange pmmAllocator p 0x6000 0x401000 0x1000 mapPrivate protWrite

/-- Page 5 mapped at `0x400000` and page 6 behind it, each as a range. -/
def twoRanges : Process Pmm.State := mapTwoRanges.getD emptyProcess

theorem twoRanges_listed : twoRanges.ranges.toList =
    [⟨none, 0x5000, 0x400000, 0, 0x1000, mapPrivate ||| mapAnon, protWrite⟩,
      ⟨none, 0x6000, 0x401000, 0, 0x1000, mapPrivate ||| mapAnon, protWrite⟩] := by
  decide +kernel

theorem twoRanges_ranges : twoRanges.ranges.length = 2 ∧
    twoRanges.ranges.data 0 = ⟨none, 0x5000, 0x400000, 0, 0x1000, mapPrivate ||| mapAnon, protWrite⟩ ∧
    twoRanges.ranges.data 1 = ⟨none, 0x6000, 0x401000, 0, 0x1000, mapPrivate ||| mapAnon, protWrite⟩ := by
  have listed := twoRanges_listed
  have length : twoRanges.ranges.length = 2 := by
    simpa [Vec.toList] using congrArg List.length listed
  simp_all [Vec.toList, List.range_succ]

theorem ownsFrame_single (single : range.length = 0x1000) :
    OwnsFrame range frame ↔ frame = range.physAddr.toNat % wordSize / pageSize := by
  rw [OwnsFrame, FramesOf, single]
  simp [pageSize]

theorem twoRanges_distinct : DistinctStarts twoRanges := by
  grind [twoRanges_ranges, DistinctStarts]

theorem twoRanges_disjoint : DisjointFrames twoRanges := by
  obtain ⟨length, first, second⟩ := twoRanges_ranges
  have low (frame : Nat) : OwnsFrame (twoRanges.ranges.data 0) frame → frame = 5 := by
    rw [first]
    exact (ownsFrame_single rfl).mp
  have high (frame : Nat) : OwnsFrame (twoRanges.ranges.data 1) frame → frame = 6 := by
    rw [second]
    exact (ownsFrame_single rfl).mp
  rw [DisjointFrames, length]
  grind

/-- Unmapping the first of the two with its own length frees page 6, which the
second still maps, and not page 5. -/
theorem munmap_frees_the_next_range :
    DistinctStarts twoRanges ∧ DisjointFrames twoRanges ∧
      ¬ TouchesOneRange pmmAllocator twoRanges 0x400000 0x1000 := by
  refine ⟨twoRanges_distinct, twoRanges_disjoint, ?_⟩
  rintro ⟨result, p', ran, _, touched⟩
  have released : (syscallMunmap pmmAllocator twoRanges 0x400000 0x1000).map
      (fun reply => reply.2.released.drop twoRanges.released.length) = some [(0x6000, 1)] := by
    decide +kernel
  rw [ran] at released
  obtain ⟨length, first, _⟩ := twoRanges_ranges
  obtain ⟨_, freed, _⟩ := touched 0 (by rw [length]; decide) (by rw [first])
  have owns : OwnsFrame (twoRanges.ranges.data 0) 5 := by
    rw [first, ownsFrame_single rfl]
    decide
  obtain ⟨call, member, k, below, frame⟩ := (freed 5).mpr ⟨by rw [first]; decide, owns⟩
  rw [Option.map_some, Option.some.injEq] at released
  rw [released, List.mem_singleton] at member
  subst member
  obtain rfl : k = 0 := by omega
  exact absurd frame (by decide)

theorem twoRanges_tables : Tables State.Taken twoRanges.state Alone {twoRanges.topLevel} := by
  have mapped : mapTwoRanges = some twoRanges := by
    have returned : mapTwoRanges.isSome = true := by decide +kernel
    grind [Option.isSome_iff_exists, twoRanges]
  have cleared (index : Fin 512) : slot emptyProcess.state.mem 1 index = 0 :=
    word_zero (1 * pageSize + index * 8)
  have blank : Tables State.Taken emptyProcess.state Alone {emptyProcess.topLevel} :=
    (blank_tables cleared (by decide) (by decide)).1
  rw [mapTwoRanges, bind_returns] at mapped
  obtain ⟨p, first, second⟩ := mapped
  obtain ⟨confined, rest⟩ := vmmMmapRange_spec pmm_handsOut_page blank rfl first
  have top : p.topLevel = emptyProcess.topLevel := by rw [rest]
  rw [← top] at confined
  obtain ⟨confined', rest'⟩ := vmmMmapRange_spec pmm_handsOut_page confined.tables rfl second
  have top' : twoRanges.topLevel = p.topLevel := by rw [rest']
  rw [top']
  exact confined'.tables

theorem twoRanges_munmap_last : TouchesOneRange pmmAllocator twoRanges 0x401000 0x1000 := by
  refine (munmap_touches_one_range_iff pmm_handsOut_page pmm_stocked twoRanges_tables rfl
    twoRanges_distinct twoRanges_disjoint (by decide +kernel)).mpr ?_
  obtain ⟨length, first, second⟩ := twoRanges_ranges
  intro i inside starts
  rw [length] at inside ⊢
  obtain rfl : i = 1 := by
    obtain rfl | rfl : i = 0 ∨ i = 1 := by omega
    · rw [first] at starts
      exact absurd starts (by decide)
    · rfl
  refine ⟨by decide, Or.inl rfl, fun page on _ => ?_, fun j below different page on _ covered => ?_⟩
  · rw [second] at on
    exact ⟨page, on, rfl⟩
  · obtain rfl : j = 0 := by omega
    rw [first] at on
    obtain ⟨k, inside, rfl⟩ := on
    obtain ⟨_, ⟨k', inside', rfl⟩, same⟩ := covered
    obtain rfl : k = 0 := by
      change k < 1 at inside
      omega
    obtain rfl : k' = 0 := by
      change k' < 1 at inside'
      omega
    exact absurd same (by decide)

end MandelbrotOS.MunmapProofs
