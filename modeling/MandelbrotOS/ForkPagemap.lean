import Mathlib.Algebra.GroupWithZero.Nat
import MandelbrotOS.KernelHalf
import MandelbrotOS.PageEntries
import MandelbrotOS.UserRequests

/-! `vmm_fork_pagemap` of `mm/vmm.c`. Parent and child are mapped range by range
in one order, so in both the last range at a page is the one that shows; the
child has the parent's frames behind a shared range and copies of its own behind
a private one. -/
namespace MandelbrotOS.ForkPagemap
open ByteMemory Descriptors Forests KernelHalf LastWrites Mmap PageEntries PageLoops PageTables Pmm PmmSupply
open RangeMapping Runs UserRequests Vectors Vfs Vmm

variable {α : Type}

/-! ### The code -/

/-- The pointer `vfs_mmap` returns, asked for after the call: `fb_mmap` ends with
a translation, which another one repeats. -/
def vfsMmapPointer (A : Allocator α) (p : Process α) (file : FilePtr) : Option (BitVec 64) :=
  if isFifo (p.files file) then some 0
  else match p.mmapOps file with
    | none => none
    | some .fbMmap => (vmmVirtToPhys A p.state (p.kernelTop * pageSize) p.framebuffer).map Prod.fst
    | some .mousedevMmap => some (-1)
    | some .fatMmap => some 0

/-- The loop that maps the pages of a range to `mem` and on. -/
def mapRange (A : Allocator α) (s : State α) (topLevel : Nat) (range : MmapRange) (mem : BitVec 64) :
    Option (State α) :=
  forPages (fun s j => vmmMapPage A s (topLevel * pageSize) (mem + BitVec.ofNat 64 j)
    (range.virtAddr + BitVec.ofNat 64 j) (pageFlags range.prot)) range.length s

/-- One turn of the loop of `vmm_fork_pagemap`. `vfs_mmap` is given the flags of
the range for its protection and the protection for its flags. -/
def forkRange (A : Allocator α) (child : Process α) (range : MmapRange) : Option (Process α) :=
  if has range.flags mapShared then do
    let state ← mapRange A child.state child.topLevel range range.physAddr
    some (Process.pushRange { child with state := state } range)
  else if has range.flags mapAnon then do
    let (mem, state) ← pcalloc A child.state (range.length / pageSize)
    let state ← mapRange A state child.topLevel range (BitVec.ofNat 64 mem)
    let copied := copy state.mem mem range.length fun k => state.mem (range.physAddr.toNat + k)
    some (Process.pushRange { child with state := ⟨copied, state.alloc⟩ }
      { range with physAddr := BitVec.ofNat 64 mem })
  else do
    let file ← range.file
    let child ← (vfsMmap A child file range.virtAddr range.length range.offset range.flags range.prot).join
    let mem ← vfsMmapPointer A child file
    some (child.pushRange { range with physAddr := mem })

/-- A pagemap with no ranges. -/
def newPagemap (p : Process α) (top : Nat) (state : State α) : Process α :=
  { p with state := state, topLevel := top / pageSize, ranges := ⟨fun _ => ⟨none, 0, 0, 0, 0, 0, 0⟩, 0⟩ }

/-- `vmm_fork_pagemap`: a process with the new pagemap. -/
def vmmForkPagemap (A : Allocator α) (p : Process α) : Option (Process α) := do
  let (top, state) ← vmmCreateNewPagemap A p.state (p.kernelTop * pageSize)
  (List.range p.ranges.length).foldlM (fun child i => forkRange A child (p.ranges.data i))
    (newPagemap p top state)

/-! ### Ranges and the pages they show -/

/-- A range of whole pages, backed by whole frames. -/
structure Framed (range : MmapRange) : Prop where
  virt : range.virtAddr.toNat % pageSize = 0
  phys : range.physAddr.toNat % pageSize = 0
  whole : range.length % pageSize = 0
  bound : range.physAddr.toNat + range.length ≤ wordSize

def firstFrame (range : MmapRange) : Nat := range.physAddr.toNat / pageSize

def pageCount (range : MmapRange) : Nat := range.length / pageSize

theorem Framed.physAddr_toNat (framed : Framed range) :
    range.physAddr.toNat = firstFrame range * pageSize :=
  (Nat.div_mul_cancel (Nat.dvd_of_mod_eq_zero framed.phys)).symm

theorem Framed.length_eq (framed : Framed range) : range.length = pageCount range * pageSize :=
  (Nat.div_mul_cancel (Nat.dvd_of_mod_eq_zero framed.whole)).symm

theorem Framed.physAddr_eq (framed : Framed range) : range.physAddr = pageAddress (firstFrame range) := by
  apply BitVec.eq_of_toNat_eq
  rw [pageAddress, BitVec.toNat_ofNat, ← framed.physAddr_toNat, Nat.mod_eq_of_lt range.physAddr.isLt]

theorem Framed.turns (framed : Framed range) : pageTurns range.length = pageCount range := by
  have whole := framed.whole
  grind [pageTurns, pageCount, pageSize]

theorem Framed.frames_le (framed : Framed range) : firstFrame range + pageCount range ≤ 2 ^ 52 := by
  have bound := framed.bound
  simp only [firstFrame, pageCount, pageSize, wordSize] at bound ⊢
  omega

/-- A page of a range. -/
abbrev Spot := MmapRange × Nat

def rangeSpots (ranges : List MmapRange) : List Spot :=
  ranges.flatMap fun range => (List.range (pageTurns range.length)).map fun page => (range, page)

def Spot.place (spot : Spot) : BitVec 36 :=
  pageOf (spot.1.virtAddr + BitVec.ofNat 64 (spot.2 * pageSize))

def Spot.entry (spot : Spot) : BitVec 64 :=
  (spot.1.physAddr + BitVec.ofNat 64 (spot.2 * pageSize)) ||| pageFlags spot.1.prot

/-- What mapping a range writes. -/
def rangeWrites (range : MmapRange) : List (BitVec 36 × BitVec 64) :=
  pageWrites range.physAddr range.virtAddr (pageFlags range.prot) (pageTurns range.length)

theorem mem_rangeSpots {ranges : List MmapRange} :
    spot ∈ rangeSpots ranges ↔ spot.1 ∈ ranges ∧ spot.2 < pageTurns spot.1.length := by
  grind [rangeSpots]

theorem writes_of_spots (ranges : List MmapRange) :
    ranges.flatMap rangeWrites = (rangeSpots ranges).map fun spot => (spot.place, spot.entry) := by
  simp only [rangeSpots, List.map_flatMap, List.map_map]
  rfl

/-- A pagemap shows the last of its ranges at every page they cover. -/
def Reflects (mem : Memory) (top : Nat) (ranges : List MmapRange) : Prop :=
  ∀ probe spot, lastAt Spot.place (rangeSpots ranges) (pageOf probe) = some spot →
    leafEntry mem top probe = spot.entry

theorem reflects_mapped {busy : α → Nat → Prop}
    (mapped : Mapped busy shared roots s s' top (new.flatMap rangeWrites))
    (before : Reflects s.mem top ranges) : Reflects s'.mem top (ranges ++ new) := by
  intro probe spot last
  rw [rangeSpots, List.flatMap_append, lastAt_append] at last
  rw [mapped.leaf, writes_of_spots, shown, lastAt_map]
  change (((lastAt Spot.place (rangeSpots new) (pageOf probe)).map _).map _).getD _ = _
  cases later : lastAt Spot.place (rangeSpots new) (pageOf probe) with
  | none =>
    rw [← rangeSpots, later, Option.none_or] at last
    exact before probe spot last
  | some winner =>
    simp_all [rangeSpots]

/-- The pagemaps whose ranges were all built by `vmm_mmap_range`. Between its
calls anything may happen that leaves the entries of this pagemap alone. -/
inductive Built (A : Allocator α) (busy : α → Nat → Prop) : Set Nat → Process α → Prop
  | created (empty : p.ranges.toList = []) (tables : Tables busy p.state Upper roots)
      (member : p.topLevel ∈ roots) : Built A busy roots p
  | mapped (before : Built A busy roots p)
      (ran : vmmMmapRange A p physAddr virtAddr length flags prot = some p') : Built A busy roots p'
  | elsewhere (before : Built A busy roots p) (ranges : p'.ranges.toList = p.ranges.toList)
      (top : p'.topLevel = p.topLevel) (tables : Tables busy p'.state Upper roots')
      (member : p.topLevel ∈ roots')
      (entries : ∀ probe, leafEntry p'.state.mem p.topLevel probe = leafEntry p.state.mem p.topLevel probe) :
      Built A busy roots' p'

section
variable {A : Allocator α} {busy : α → Nat → Prop} {shared : Fin 512 → Prop} {roots : Set Nat}
  {p p' child child' : Process α}

theorem has_mapAnon (flags : BitVec 32) : has (flags ||| mapAnon) mapAnon = true := by
  apply bne_iff_ne.mpr
  intro none
  have bit := congrArg (·.getLsbD 3) none
  simp [mapAnon] at bit

theorem vmmMmapRange_mapped (fresh : HandsOut A busy 1) (tables : Tables busy p.state shared roots)
    (member : p.topLevel ∈ roots)
    (ran : vmmMmapRange A p physAddr virtAddr length flags prot = some p') :
    ∃ range, has range.flags mapAnon = true ∧ p'.topLevel = p.topLevel ∧
      p'.ranges.toList = p.ranges.toList ++ [range] ∧
      Mapped busy shared roots p.state p'.state p.topLevel (rangeWrites range) := by
  simp only [vmmMmapRange, bind_returns, Option.some.injEq] at ran
  obtain ⟨state, looped, rfl⟩ := ran
  exact ⟨_, has_mapAnon flags, rfl, toList_vecPush _ _, mapPages_mapped fresh tables member looped⟩

theorem Built.spec (fresh : HandsOut A busy 1) (built : Built A busy roots p) :
    Tables busy p.state Upper roots ∧ p.topLevel ∈ roots ∧
      (∀ range ∈ p.ranges.toList, has range.flags mapAnon = true) ∧
      Reflects p.state.mem p.topLevel p.ranges.toList := by
  induction built with
  | created empty tables member =>
    rw [empty]
    exact ⟨tables, member, nofun, fun _ _ last => nomatch last⟩
  | mapped before ran ih =>
    obtain ⟨tables, member, anon, reflects⟩ := ih
    obtain ⟨range, new, top, ranges, mapped⟩ := vmmMmapRange_mapped fresh tables member ran
    rw [top, ranges]
    refine ⟨mapped.tables, member, fun other listed => ?_, ?_⟩
    · grind
    · rw [← List.flatMap_singleton rangeWrites] at mapped
      exact reflects_mapped mapped reflects
  | elsewhere before ranges top tables member entries ih =>
    obtain ⟨-, -, anon, reflects⟩ := ih
    rw [top, ranges]
    exact ⟨tables, member, anon, fun probe spot last => (entries probe).trans (reflects probe spot last)⟩

/-! ### Copying -/

/-- From `before` on nothing was done to the data pages, and they still are such. -/
structure Kept (busy : α → Nat → Prop) (old roots : Set Nat) (before s : State α) : Prop where
  still : ∀ page, busy before.alloc page → busy s.alloc page
  data : ∀ page, DataPage busy old before page →
    DataPage busy roots s page ∧ SamePage before.mem s.mem page

theorem kept_mapped (kept : Kept busy old roots before s)
    (mapped : Mapped busy shared roots s s' top writes) : Kept busy old roots before s' := by
  refine ⟨fun page used => mapped.still page (kept.still page used), fun page data => ?_⟩
  obtain ⟨now, same⟩ := kept.data page data
  exact ⟨dataPage_later mapped.unused mapped.still now, samePage_trans same (mapped.data page now)⟩

theorem samePage_copied_slots (distinct : page ≠ user) (kernel : Nat) (slots : List (Fin 512))
    (s : State α) : SamePage s.mem (slots.foldl (fun s i =>
      s.setEntry (user * pageSize) i (entryAt s.mem (kernel * pageSize) i)) s).mem page := by
  induction slots generalizing s with
  | nil => exact fun _ _ => rfl
  | cons first rest ih => exact samePage_trans (samePage_setEntry distinct s first _) (ih _)

theorem vmmCreateNewPagemap_kept (fresh : HandsOut A busy 1) (tables : Tables busy s Upper roots)
    (member : kernel ∈ roots)
    (ran : vmmCreateNewPagemap A s (kernel * pageSize) = some (adr, s')) :
    ∃ top, adr = top * pageSize ∧ Creates busy roots kernel top s s' ∧ Tables busy s' Upper (insert top roots) ∧
      Kept busy roots (insert top roots) s s' := by
  obtain ⟨top, place, creates, tables'⟩ := vmmCreateNewPagemap_spec fresh tables member ran
  refine ⟨top, place, creates, tables', fun page used => (creates.inUse page).mpr (Or.inl used),
    fun page data => ⟨⟨(creates.inUse page).mpr (Or.inl data.inUse), ?_⟩, ?_⟩⟩
  · intro root inside path short reached
    rcases reach_rooted creates.rooted member creates.unreached inside short reached with
      ⟨_, _, rfl⟩ | ⟨old, known, below, _⟩
    · exact creates.unused data.inUse
    · exact data.noTable old known path short below
  · have distinct : page ≠ top := fun same => creates.unused (same ▸ data.inUse)
    simp only [vmmCreateNewPagemap, bind_returns, Prod.exists, Option.some.injEq, Prod.mk.injEq] at ran
    obtain ⟨_, middle, given, rfl, rfl⟩ := ran
    obtain ⟨mapped, -⟩ := pcalloc_mapped (fresh.given _) tables member given
    rw [place]
    exact samePage_trans (mapped.data page data) (samePage_copied_slots distinct kernel upperSlots middle)

/-- The frames of a range hold data. -/
def HoldsData (busy : α → Nat → Prop) (roots : Set Nat) (s : State α) (range : MmapRange) : Prop :=
  ∀ page < pageCount range, DataPage busy roots s (firstFrame range + page)

/-- `new` is a range of the child that shows what `range` did before the fork. -/
structure Copied (busy : α → Nat → Prop) (roots : Set Nat) (before s : State α)
    (range new : MmapRange) : Prop where
  same : { new with physAddr := range.physAddr } = range
  framed : Framed new
  data : HoldsData busy roots s new
  bytes : ∀ page < pageCount range, ∀ k < pageSize, s.mem ((firstFrame new + page) * pageSize + k) =
    before.mem ((firstFrame range + page) * pageSize + k)
  shared : has range.flags mapShared = true → new = range
  own : has range.flags mapShared = false →
    ∀ page < pageCount range, ¬ busy before.alloc (firstFrame new + page)

theorem Copied.fields (copied : Copied busy roots before s range new) :
    new.virtAddr = range.virtAddr ∧ new.length = range.length ∧ new.prot = range.prot ∧
      { new with physAddr := 0 } = { range with physAddr := 0 } := by
  rw [← copied.same]
  exact ⟨rfl, rfl, rfl, rfl⟩

theorem copied_later (mapped : Mapped busy shared roots s s' top writes)
    (copied : Copied busy roots before s range new) : Copied busy roots before s' range new := by
  have count : pageCount new = pageCount range := by rw [pageCount, pageCount, copied.fields.2.1]
  refine ⟨copied.same, copied.framed, fun page inside => ?_, fun page inside k small => ?_,
    copied.shared, copied.own⟩
  · exact dataPage_later mapped.unused mapped.still (copied.data page inside)
  · rw [mapped.data _ (copied.data page (count ▸ inside)) k small]
    exact copied.bytes page inside k small

theorem framed_given (framed : Framed range) (bound : first + pageCount range ≤ 2 ^ 52) :
    Framed { range with physAddr := pageAddress first } ∧
      (0 < pageCount range → firstFrame { range with physAddr := pageAddress first } = first) := by
  have number : (pageAddress first).toNat = first * pageSize % 2 ^ 64 := by
    rw [pageAddress, BitVec.toNat_ofNat]
  have length := framed.length_eq
  refine ⟨⟨framed.virt, ?_, framed.whole, ?_⟩, fun some => ?_⟩ <;>
    simp only [firstFrame, number, pageSize, wordSize] at length ⊢ <;> omega

theorem forkRange_copied (fresh : HandsOut A busy 1) (tables : Tables busy child.state shared roots)
    (member : child.topLevel ∈ roots) (kept : Kept busy old roots before child.state)
    (anon : has range.flags mapAnon = true) (framed : Framed range)
    (data : HoldsData busy old before range)
    (supplied : has range.flags mapShared = false →
      HandsOutAt A busy child.state.alloc (range.length / pageSize))
    (ran : forkRange A child range = some child') :
    ∃ new, child'.topLevel = child.topLevel ∧ child'.ranges.toList = child.ranges.toList ++ [new] ∧
      Mapped busy shared roots child.state child'.state child.topLevel (rangeWrites new) ∧
      Copied busy roots before child'.state range new := by
  cases common : has range.flags mapShared with
  | true =>
    simp only [forkRange, common, if_true, bind_returns, Option.some.injEq] at ran
    obtain ⟨state, looped, rfl⟩ := ran
    have mapped := mapPages_mapped fresh tables member looped
    have kept := kept_mapped kept mapped
    refine ⟨range, rfl, toList_vecPush _ _, mapped, rfl, framed, ?_, ?_, fun _ => rfl, ?_⟩
    · exact fun page inside => (kept.data _ (data page inside)).1
    · exact fun page inside => (kept.data _ (data page inside)).2
    · simp_all
  | false =>
    simp only [forkRange, common, anon, if_true, Bool.false_eq_true, if_false, bind_returns, Option.some.injEq,
      Prod.exists] at ran
    obtain ⟨_, s1, given, s2, looped, rfl⟩ := ran
    obtain ⟨first, rfl, handed, both⟩ := pcalloc_mapPages fresh (supplied common) tables member given looped
    have fits : 0 + range.length ≤ pageCount range * pageSize := by
      rw [Nat.zero_add, framed.length_eq]
    have later := kept_mapped kept both
    obtain ⟨whole, start⟩ := framed_given framed handed.bound
    have slots := sameSlots_copy handed.data fits fun k => s2.mem (range.physAddr.toNat + k)
    have mapped := copy_mapped both member handed fits fun k => s2.mem (range.physAddr.toNat + k)
    rw [Nat.add_zero] at slots mapped
    refine ⟨{ range with physAddr := pageAddress first }, rfl, toList_vecPush _ _, mapped, rfl, whole,
      ?_, ?_, ?_, ?_⟩
    · intro page inside
      rw [start (Nat.zero_lt_of_lt inside)]
      exact dataPage_of_slots both.tables slots rfl
        (handed.data (first + page) (Nat.le_add_right ..) (Nat.add_lt_add_left inside first))
    · intro page inside k small
      have source := (later.data _ (data page inside)).2 k small
      have room := Nat.mul_le_mul_right pageSize inside
      have length := framed.length_eq
      rw [start (Nat.zero_lt_of_lt inside), ← source]
      dsimp only [Process.pushRange]
      rw [Nat.succ_mul] at room
      have place : range.physAddr.toNat + ((first + page) * pageSize + k - first * pageSize) =
          (firstFrame range + page) * pageSize + k := by
        rw [framed.physAddr_toNat, Nat.add_mul, Nat.add_mul]
        omega
      rw [copy, if_pos (by rw [Nat.add_mul]; omega), place]
    · simp_all
    · intro _ page inside used
      rw [start (Nat.zero_lt_of_lt inside)] at used
      exact handed.before (first + page) (Nat.le_add_right ..) (Nat.add_lt_add_left inside first)
        (kept.still _ used)

/-- Every private range is given frames that were not in use. -/
def Supplied (A : Allocator α) (busy : α → Nat → Prop) (child : Process α) (range : MmapRange) : Prop :=
  has range.flags mapShared = false → HandsOutAt A busy child.state.alloc (range.length / pageSize)

theorem forkRanges_copied (fresh : HandsOut A busy 1) (tables : Tables busy child.state shared roots)
    (member : child.topLevel ∈ roots) (kept : Kept busy old roots before child.state)
    (ranges : List MmapRange) (anon : ∀ range ∈ ranges, has range.flags mapAnon = true)
    (framed : ∀ range ∈ ranges, Framed range) (data : ∀ range ∈ ranges, HoldsData busy old before range)
    (supplied : Along (forkRange A) (Supplied A busy) child ranges)
    (ran : ranges.foldlM (forkRange A) child = some child') :
    ∃ news, child'.topLevel = child.topLevel ∧ child'.ranges.toList = child.ranges.toList ++ news ∧
      Mapped busy shared roots child.state child'.state child.topLevel (news.flatMap rangeWrites) ∧
      List.Forall₂ (Copied busy roots before child'.state) ranges news := by
  induction ranges generalizing child with
  | nil =>
    cases ran
    simp_all [mapped_refl]
  | cons range rest ih =>
    rw [List.foldlM_cons] at ran
    obtain ⟨middle, forked, ran⟩ := Option.bind_eq_some_iff.mp ran
    obtain ⟨new, top, pushed, mapped, copied⟩ := forkRange_copied fresh tables member kept
      (anon range List.mem_cons_self) (framed range List.mem_cons_self) (data range List.mem_cons_self)
      supplied.1 forked
    obtain ⟨news, top', pushed', mapped', copies⟩ := ih mapped.tables (top ▸ member)
      (kept_mapped kept mapped) (fun other listed => anon other (List.mem_cons_of_mem _ listed))
      (fun other listed => framed other (List.mem_cons_of_mem _ listed))
      (fun other listed => data other (List.mem_cons_of_mem _ listed)) (supplied.2 middle forked) ran
    rw [top] at mapped'
    refine ⟨new :: news, top'.trans top, ?_, ?_, .cons (copied_later mapped' copied) copies⟩
    · simp_all
    · grind [mapped_trans]

end

/-! ### Enough memory -/

section
variable {A : Allocator α} {spare : α → Nat} {child : Process α}

/-- The frames for a private range are there. -/
def Served (A : Allocator α) (spare : α → Nat) (child : Process α) (range : MmapRange) : Prop :=
  has range.flags mapShared = false → ∃ adr alloc,
    A.pmalloc child.state.alloc (range.length / pageSize) = some (adr, alloc) ∧
      spare child.state.alloc ≤ spare alloc + range.length / pageSize

theorem mapRange_returns (stocked : Stocked A spare) (s : State α)
    (short : range.length ≤ wordSize - pageSize) (enough : 3 * pageTurns range.length ≤ spare s.alloc)
    (top : Nat) (mem : BitVec 64) : ∃ s', mapRange A s top range mem = some s' ∧
      spare s.alloc ≤ spare s'.alloc + 3 * pageTurns range.length := by
  have one (s : State α) (j : Nat) (enough : 3 ≤ spare s.alloc) :
      ∃ s', vmmMapPage A s (top * pageSize) (mem + BitVec.ofNat 64 j)
        (range.virtAddr + BitVec.ofNat 64 j) (pageFlags range.prot) = some s' ∧
        spare s.alloc ≤ spare s'.alloc + 3 :=
    vmmMapPage_returns stocked s enough ..
  have count : ((List.range (pageTurns range.length)).map (· * pageSize)).length =
      pageTurns range.length := by
    rw [List.length_map, List.length_range]
  rw [mapRange, forPages_eq short]
  have run := foldlM_returns one ((List.range (pageTurns range.length)).map (· * pageSize))
    (count.symm ▸ enough : _ ≤ spare s.alloc)
  rwa [count] at run

theorem pcalloc_served (given : A.pmalloc s.alloc pages = some (adr, alloc)) :
    ∃ s', pcalloc A s pages = some (adr, s') ∧ s'.alloc = alloc := by
  simp only [pcalloc, given]
  grind

theorem forkRange_returns (stocked : Stocked A spare) (anon : has range.flags mapAnon = true)
    (short : range.length ≤ wordSize - pageSize) (served : Served A spare child range)
    (enough : 4 * pageTurns range.length ≤ spare child.state.alloc) :
    ∃ child', forkRange A child range = some child' ∧
      spare child.state.alloc ≤ spare child'.state.alloc + 4 * pageTurns range.length := by
  have pages : range.length / pageSize ≤ pageTurns range.length :=
    Nat.div_le_div_right (Nat.le_add_right range.length (pageSize - 1))
  cases common : has range.flags mapShared with
  | true =>
    obtain ⟨s, ran, used⟩ := mapRange_returns stocked child.state short (by omega) child.topLevel
      range.physAddr
    refine ⟨Process.pushRange { child with state := s } range, ?_, ?_⟩
    · simp_all [forkRange]
    · dsimp only [Process.pushRange]
      omega
  | false =>
    obtain ⟨adr, alloc, given, left⟩ := served common
    obtain ⟨s1, cleared, rfl⟩ := pcalloc_served given
    obtain ⟨s2, ran, used⟩ := mapRange_returns stocked s1 short (by omega) child.topLevel (BitVec.ofNat 64 adr)
    refine ⟨Process.pushRange { child with
        state := ⟨copy s2.mem adr range.length fun k => s2.mem (range.physAddr.toNat + k), s2.alloc⟩ }
      { range with physAddr := BitVec.ofNat 64 adr }, ?_, ?_⟩
    · simp_all [forkRange]
    · dsimp only [Process.pushRange]
      omega

theorem forkRanges_returns (stocked : Stocked A spare) (ranges : List MmapRange)
    (anon : ∀ range ∈ ranges, has range.flags mapAnon = true)
    (short : ∀ range ∈ ranges, range.length ≤ wordSize - pageSize)
    (served : Along (forkRange A) (Served A spare) child ranges)
    (enough : 4 * (ranges.map fun range => pageTurns range.length).sum ≤ spare child.state.alloc) :
    ∃ child', ranges.foldlM (forkRange A) child = some child' := by
  induction ranges generalizing child with
  | nil => exact ⟨child, rfl⟩
  | cons range rest ih =>
    rw [List.map_cons, List.sum_cons] at enough
    obtain ⟨middle, forked, used⟩ := forkRange_returns stocked (anon range List.mem_cons_self)
      (short range List.mem_cons_self) served.1 (by omega)
    obtain ⟨child', ran⟩ := @ih middle (fun other listed => anon other (List.mem_cons_of_mem _ listed))
      (fun other listed => short other (List.mem_cons_of_mem _ listed)) (served.2 middle forked) (by omega)
    simp_all

theorem vmmForkPagemap_returns (stocked : Stocked A spare) (p : Process α)
    (anon : ∀ range ∈ p.ranges.toList, has range.flags mapAnon = true)
    (short : ∀ range ∈ p.ranges.toList, range.length ≤ wordSize - pageSize)
    (served : ∀ top state, vmmCreateNewPagemap A p.state (p.kernelTop * pageSize) = some (top, state) →
      Along (forkRange A) (Served A spare) (newPagemap p top state) p.ranges.toList)
    (enough : 1 + 4 * (p.ranges.toList.map fun range => pageTurns range.length).sum ≤ spare p.state.alloc) :
    ∃ child, vmmForkPagemap A p = some child := by
  obtain ⟨top, state, created, used⟩ := vmmCreateNewPagemap_returns stocked p.state (by omega)
    (p.kernelTop * pageSize)
  have left : 4 * (p.ranges.toList.map fun range => pageTurns range.length).sum ≤
      spare (newPagemap p top state).state.alloc := by
    change _ ≤ spare state.alloc
    omega
  obtain ⟨child, ran⟩ := forkRanges_returns stocked p.ranges.toList anon short (served top state created) left
  refine ⟨child, ?_⟩
  simp only [vmmForkPagemap, created, bind_returned]
  rw [← List.foldlM_map]
  exact ran

end

/-! ### What forking should do -/

/-- The last range at a page. -/
def Effective (ranges : List MmapRange) (range : MmapRange) (place : BitVec 36) : Prop :=
  ∃ earlier later, ranges = earlier ++ range :: later ∧
    (∃ page < pageTurns range.length, Spot.place (range, page) = place) ∧
    ∀ other ∈ later, ∀ page < pageTurns other.length, Spot.place (other, page) ≠ place

/-- A frame behind one of these ranges. -/
def Owns (ranges : List MmapRange) (frame : Nat) : Prop :=
  ∃ range ∈ ranges, firstFrame range ≤ frame ∧ frame < firstFrame range + pageCount range

/-- A frame of this pagemap that was not in use before, so that none of the
pagemaps there were has it. -/
structure OwnFrame (busy : α → Nat → Prop) (before : State α) (ranges : List MmapRange) (frame : Nat) :
    Prop where
  owned : Owns ranges frame
  unused : ¬ busy before.alloc frame
  unshared : ∀ others, (∀ other, Owns others other → busy before.alloc other) → ¬ Owns others frame

/-- What the child shows at an address, against the parent before the fork. -/
structure PageForked (busy : α → Nat → Prop) (p child : Process α) (virtualAddress : BitVec 64)
    (entry entry' : BitVec 64) : Prop where
  present : isPresent entry' = true
  writable : entry'.getLsbD 1 = entry.getLsbD 1
  byte : child.state.mem (frameOf entry' * pageSize + virtualAddress.toNat % pageSize) =
    p.state.mem (frameOf entry * pageSize + virtualAddress.toNat % pageSize)
  shared : ∀ range, Effective p.ranges.toList range (pageOf virtualAddress) →
    has range.flags mapShared = true → frameOf entry' = frameOf entry
  own : ∀ range, Effective p.ranges.toList range (pageOf virtualAddress) →
    has range.flags mapShared = false → OwnFrame busy p.state child.ranges.toList (frameOf entry')

/-- The same ranges but for their frames, and the same bytes behind every
address of them. -/
structure Forked (busy : α → Nat → Prop) (p child : Process α) : Prop where
  ranges : child.ranges.toList.map (fun range => { range with physAddr := 0 }) =
    p.ranges.toList.map fun range => { range with physAddr := 0 }
  pages : ∀ range ∈ p.ranges.toList, ∀ k < range.length,
    let virtualAddress := range.virtAddr + BitVec.ofNat 64 k
    PageForked busy p child virtualAddress (leafEntry p.state.mem p.topLevel virtualAddress)
      (leafEntry child.state.mem child.topLevel virtualAddress)

section
variable {A : Allocator α} {busy : α → Nat → Prop} {roots : Set Nat} {p child : Process α}

theorem rangeSpots_paired (copies : List.Forall₂ (Copied busy roots before s) ranges news) :
    List.Forall₂ (fun spot spot' : Spot => Copied busy roots before s spot.1 spot'.1 ∧ spot.2 = spot'.2)
      (rangeSpots ranges) (rangeSpots news) := by
  refine List.rel_flatMap copies fun range new copied => ?_
  rw [copied.fields.2.1]
  simp_all

theorem forgotten_of_copies (copies : List.Forall₂ (Copied busy roots before s) ranges news) :
    news.map (fun range => { range with physAddr := 0 }) =
      ranges.map fun range => { range with physAddr := 0 } := by
  induction copies with
  | nil => rfl
  | cons copied _ ih => rw [List.map_cons, List.map_cons, ih, copied.fields.2.2.2]

theorem rangeSpots_append (first second : List MmapRange) :
    rangeSpots (first ++ second) = rangeSpots first ++ rangeSpots second := List.flatMap_append

theorem lastAt_of_effective (effective : Effective ranges range place) :
    ∃ page, lastAt Spot.place (rangeSpots ranges) place = some (range, page) := by
  obtain ⟨earlier, later, rfl, ⟨page, inside, here⟩, last⟩ := effective
  have none : lastAt Spot.place (rangeSpots later) place = none := by
    simp_all [lastAt_eq_none_iff, mem_rangeSpots]
  rw [List.append_cons, rangeSpots_append, lastAt_append, none, Option.none_or, rangeSpots_append, lastAt_append]
  cases found : lastAt Spot.place (rangeSpots [range]) place with
  | none =>
    simp_all [mem_rangeSpots, lastAt_eq_none_iff]
  | some spot =>
    obtain ⟨member, -⟩ := mem_rangeSpots.mp (lastAt_mem found).1
    grind

theorem lastAt_of_covered (framed : Framed range) (listed : range ∈ ranges) (inside : k < range.length) :
    ∃ spot, lastAt Spot.place (rangeSpots ranges) (pageOf (range.virtAddr + BitVec.ofNat 64 k)) = some spot := by
  have member : (range, k / pageSize) ∈ rangeSpots ranges := by
    grind [mem_rangeSpots, pageTurns, pageSize]
  have here : Spot.place (range, k / pageSize) = pageOf (range.virtAddr + BitVec.ofNat 64 k) := by
    rw [Spot.place, pageOf_add, pageOf_add, framed.virt, Nat.zero_add, Nat.zero_add,
      Nat.mul_div_cancel _ (by decide)]
  apply Option.ne_none_iff_exists'.mp
  grind [lastAt_eq_none_iff]

theorem entry_fields (framed : Framed range) (inside : page < pageCount range) :
    isPresent (Spot.entry (range, page)) = true ∧
      frameOf (Spot.entry (range, page)) = firstFrame range + page ∧
      (Spot.entry (range, page)).getLsbD 1 = has range.prot protWrite := by
  have bound := framed.frames_le
  rw [Spot.entry, framed.physAddr_eq]
  exact userEntry_fields _ (by omega)

theorem ownFrame_of_unused (owned : Owns ranges frame) (unused : ¬ busy before.alloc frame) :
    OwnFrame busy before ranges frame :=
  ⟨owned, unused, fun _ inUse owns => unused (inUse frame owns)⟩

theorem pageForked_of_spot (reflects : Reflects p.state.mem p.topLevel p.ranges.toList)
    (reflects' : Reflects child.state.mem child.topLevel child.ranges.toList)
    (framed : ∀ range ∈ p.ranges.toList, Framed range)
    (copies : List.Forall₂ (Copied busy roots p.state child.state) p.ranges.toList child.ranges.toList)
    (last : lastAt Spot.place (rangeSpots p.ranges.toList) (pageOf virtualAddress) = some spot) :
    PageForked busy p child virtualAddress (leafEntry p.state.mem p.topLevel virtualAddress)
      (leafEntry child.state.mem child.topLevel virtualAddress) := by
  have places : ∀ spot spot' : Spot, Copied busy roots p.state child.state spot.1 spot'.1 ∧
      spot.2 = spot'.2 → spot.place = spot'.place := by
    rintro ⟨range, page⟩ ⟨new, _⟩ ⟨copied, rfl⟩
    exact congrArg (fun start => pageOf (start + BitVec.ofNat 64 (page * pageSize))) copied.fields.1.symm
  obtain ⟨⟨new, page⟩, last', copied, here⟩ := lastAt_related places (rangeSpots_paired copies) last
  obtain ⟨range, _⟩ := spot
  cases here
  dsimp only at copied
  obtain ⟨listed, inside⟩ := mem_rangeSpots.mp (lastAt_mem last).1
  obtain ⟨listed', inside'⟩ := mem_rangeSpots.mp (lastAt_mem last').1
  rw [(framed range listed).turns] at inside
  rw [copied.framed.turns] at inside'
  dsimp only at listed' inside inside'
  obtain ⟨-, frame, write⟩ := entry_fields (framed range listed) inside
  obtain ⟨present', frame', write'⟩ := entry_fields copied.framed inside'
  have only (other : MmapRange) (effective : Effective p.ranges.toList other (pageOf virtualAddress)) :
      other = range := by
    grind [lastAt_of_effective]
  rw [reflects _ _ last, reflects' _ _ last']
  refine ⟨present', ?_, ?_, fun other effective common => ?_, fun other effective private' => ?_⟩
  · rw [write, write', copied.fields.2.2.1]
  · rw [frame, frame']
    exact copied.bytes page inside _ (Nat.mod_lt _ (by decide))
  · rw [only other effective] at common
    rw [frame, frame', copied.shared common]
  · rw [only other effective] at private'
    rw [frame']
    apply ownFrame_of_unused _ (copied.own private' page inside)
    exact ⟨new, listed', Nat.le_add_right .., Nat.add_lt_add_left inside' _⟩

/-- **A fork copies private memory and shares shared memory.** For a pagemap
whose ranges were all built by `vmm_mmap_range`, of whole pages and backed by
frames in use that hold no page table of the kernel, and an allocator that gives
away nothing in use: the child has the same ranges but for their frames; every
address of them is mapped, writable where the parent's is, and shows the
parent's byte; the frame is the parent's where the last range is shared, and
where it is private one that no other pagemap has. -/
theorem fork_copies_private_shares_shared (fresh : HandsOut A busy 1) (built : Built A busy roots p)
    (kernel : p.kernelTop ∈ roots) (framed : ∀ range ∈ p.ranges.toList, Framed range)
    (data : ∀ range ∈ p.ranges.toList, HoldsData busy {p.kernelTop} p.state range)
    (supplied : ∀ top state, vmmCreateNewPagemap A p.state (p.kernelTop * pageSize) = some (top, state) →
      Along (forkRange A) (Supplied A busy) (newPagemap p top state) p.ranges.toList)
    (ran : vmmForkPagemap A p = some child) : Forked busy p child := by
  obtain ⟨tables, -, anon, reflects⟩ := built.spec fresh
  have own : Tables busy p.state Upper {p.kernelTop} :=
    ⟨forest_subset tables.forest (Set.singleton_subset_iff.mpr kernel),
      fun root member => tables.owned root (member ▸ kernel), tables.null⟩
  simp only [vmmForkPagemap, Option.bind_eq_bind, Option.bind_eq_some_iff, Prod.exists] at ran
  obtain ⟨adr, state, created, ran⟩ := ran
  have supplied := supplied adr state created
  obtain ⟨top, rfl, -, tables', kept⟩ := vmmCreateNewPagemap_kept fresh own rfl created
  have member : (newPagemap p (top * pageSize) state).topLevel ∈ ({top, p.kernelTop} : Set Nat) :=
    Or.inl (Nat.mul_div_cancel _ (by decide))
  have blank : Reflects state.mem (newPagemap p (top * pageSize) state).topLevel [] :=
    fun _ _ last => nomatch last
  rw [← List.foldlM_map] at ran
  obtain ⟨news, top', pushed, mapped, copies⟩ := forkRanges_copied fresh tables' member kept
    p.ranges.toList anon framed data supplied ran
  have reflects' := reflects_mapped mapped blank
  rw [← top'] at reflects'
  obtain rfl : child.ranges.toList = news := pushed
  refine ⟨?_, fun range listed k inside => ?_⟩
  · exact forgotten_of_copies copies
  · obtain ⟨spot, last⟩ := lastAt_of_covered (framed range listed) listed inside
    exact pageForked_of_spot reflects reflects' framed copies last

/-- A writable private page at `0x400000`. -/
def privatePage (first : Nat) : MmapRange :=
  ⟨none, pageAddress first, 0x400000, 0, pageSize, mapPrivate ||| mapAnon, protWrite⟩

theorem privatePage_framed (bound : first + 1 ≤ 2 ^ 52) :
    Framed (privatePage first) ∧ firstFrame (privatePage first) = first := by
  have model : Framed (privatePage 0) := ⟨rfl, rfl, rfl, by decide⟩
  obtain ⟨whole, start⟩ := framed_given model (show first + pageCount (privatePage 0) ≤ 2 ^ 52 from bound)
  exact ⟨whole, start (by decide)⟩

theorem privatePage_pages (first : Nat) : pageCount (privatePage first) = 1 :=
  Nat.div_self (show 0 < pageSize by decide)

theorem privatePage_mapped : ∃ roots p first, Built pmmAllocator State.Taken roots p ∧
    p.kernelTop ∈ roots ∧ p.ranges.toList = [privatePage first] ∧ Framed (privatePage first) ∧
    HoldsData State.Taken {p.kernelTop} p.state (privatePage first) ∧
    12 ≤ (freePages p.state.alloc).card := by
  obtain ⟨p, roots, -, tables, member, kernel, -, many⟩ := firstProcess_ready
  obtain ⟨adr, middle, given, used⟩ := pcalloc_returns pmm_stocked p.state (by omega)
  obtain ⟨grown, first, rfl, handed⟩ := pcalloc_mapped (pmm_handsOut_page.given _) tables member given
  obtain ⟨final, entered, used'⟩ := vmmMapPage_returns pmm_stocked middle (by omega)
    (p.topLevel * pageSize) (pageAddress first) 0x400000 (pageFlags protWrite)
  have created : Built pmmAllocator State.Taken roots
      { p with state := middle, ranges := ⟨p.ranges.data, 0⟩ } := .created rfl grown.tables member
  have built := created.mapped (vmmMmapRange_page _ mapPrivate protWrite entered)
  have later := vmmMapPage_mapped pmm_handsOut_page grown.tables member entered
  obtain ⟨whole, start⟩ := privatePage_framed handed.bound
  have data : HoldsData State.Taken {p.kernelTop} final (privatePage first) := by
    intro page inside
    rw [privatePage_pages] at inside
    have now := dataPage_later later.unused later.still (handed.data (first + page) (by omega) (by omega))
    rw [start]
    exact ⟨now.inUse, fun root only => now.noTable root (only ▸ kernel)⟩
  have left : 12 ≤ (freePages final.alloc).card := by omega
  exact ⟨roots, Process.pushRange { p with state := final, ranges := ⟨p.ranges.data, 0⟩ } (privatePage first),
    first, built, kernel, toList_vecPush _ _, whole, data, left⟩

theorem fork_onePage_returns {p : Process Pmm.State} (ranges : p.ranges.toList = [range])
    (anon : has range.flags mapAnon = true) (length : range.length = pageSize)
    (many : 5 ≤ (freePages p.state.alloc).card) : ∃ child, vmmForkPagemap pmmAllocator p = some child := by
  have turns : pageTurns range.length = 1 := by rw [length]; decide
  have pages : range.length / pageSize = 1 := by rw [length]; decide
  have only {prop : MmapRange → Prop} (holds : prop range) : ∀ range ∈ p.ranges.toList, prop range := by
    simp_all
  have served (top : Nat) (state : Vmm.State Pmm.State)
      (created : vmmCreateNewPagemap pmmAllocator p.state (p.kernelTop * pageSize) = some (top, state)) :
      Along (forkRange pmmAllocator) (Served pmmAllocator fun pmm => (freePages pmm).card)
        (newPagemap p top state) p.ranges.toList := by
    obtain ⟨_, _, same, used⟩ := vmmCreateNewPagemap_returns pmm_stocked p.state (by omega)
      (p.kernelTop * pageSize)
    cases created.symm.trans same
    obtain ⟨⟨adr, alloc⟩, given⟩ := pmm_stocked.serves state.alloc (by omega)
    rw [ranges]
    refine ⟨fun _ => ⟨adr, alloc, ?_⟩, fun _ _ => trivial⟩
    rw [pages]
    exact ⟨given, pmm_stocked.used given⟩
  have enough : 1 + 4 * (p.ranges.toList.map fun range => pageTurns range.length).sum ≤
      (freePages p.state.alloc).card := by
    simp_all
  have short : range.length ≤ wordSize - pageSize := by rw [length]; decide
  exact vmmForkPagemap_returns pmm_stocked p (only anon) (only short) served enough

theorem private_page_forked : ∃ roots p first child, Built pmmAllocator State.Taken roots p ∧
    p.ranges.toList = [privatePage first] ∧ vmmForkPagemap pmmAllocator p = some child ∧
    Forked State.Taken p child := by
  obtain ⟨roots, p, first, built, kernel, ranges, whole, data, many⟩ := privatePage_mapped
  have only {prop : MmapRange → Prop} (holds : prop (privatePage first)) :
      ∀ range ∈ p.ranges.toList, prop range := by
    rw [ranges]
    exact List.forall_mem_singleton.mpr holds
  obtain ⟨child, forked⟩ := fork_onePage_returns ranges (has_mapAnon mapPrivate) rfl (by omega)
  refine ⟨roots, p, first, child, built, ranges, forked, ?_⟩
  apply fork_copies_private_shares_shared pmm_handsOut_page built kernel (only whole) (only data) _ forked
  intro top state _
  rw [ranges]
  refine ⟨fun _ => ?_, fun _ _ => trivial⟩
  rw [← pageCount, privatePage_pages]
  exact pmm_handsOut_page.given _

end

end MandelbrotOS.ForkPagemap
