import Mathlib.Data.Finset.Max
import MandelbrotOS.Elf
import MandelbrotOS.PageEntries
import MandelbrotOS.PmmSupply

/-! The image `elf_run_binary` leaves in a fresh pagemap. Every segment is laid
out from the address of the first program header, whatever its own address is,
so of two segments that take up memory one is never where it belongs. The file is in
a block that `kmalloc` gave in full, as it does below 4 GiB. -/
namespace MandelbrotOS.ElfImage
open ByteMemory Elf LastWrites Mmap PageEntries PageLoops PageTables Pmm PmmSupply Runs Vfs Vmm

/-- Program header `i` is one the loader loads. -/
def Loads (buffer : Memory) (i : Nat) : Prop :=
  i < (elfHeader buffer).progHeadCount.toNat ∧ (progHeader buffer i).type = elfHeadLoad

/-- The pages from the one a segment starts in to the one it ends in. -/
def span (header : ElfProgHeader) : Nat :=
  (header.pageOffset.toNat + header.memSize.toNat + 0xfff) / pageSize

/-- Page `t` of a segment at its own address. -/
def pageAt (header : ElfProgHeader) (t : Nat) : BitVec 36 := pageOf header.virtAddr + BitVec.ofNat 36 t

/-- Segment `i` takes up its page `t`. -/
structure Occupies (buffer : Memory) (i t : Nat) : Prop where
  loads : Loads buffer i
  filled : 0 < (progHeader buffer i).memSize.toNat
  inside : t < span (progHeader buffer i)

/-- What the format asks of a file: the part of a segment in the file is no
longer than the segment, and no page is taken up twice. -/
structure WellFormed (buffer : Memory) : Prop where
  whole : ∀ i, Loads buffer i → (progHeader buffer i).fileSize.toNat ≤ (progHeader buffer i).memSize.toNat
  disjoint : ∀ {i t i' t'}, Occupies buffer i t → Occupies buffer i' t' →
    pageAt (progHeader buffer i) t = pageAt (progHeader buffer i') t' → i = i' ∧ t = t'

/-- A pagemap that shows nothing where the segments go, but does show the kernel. -/
structure FreshFor (mem : Memory) (top : Nat) (buffer : Memory) : Prop where
  empty : ∀ {i t}, Occupies buffer i t → ∀ probe,
    pageOf probe = pageAt (progHeader buffer i) t → leafEntry mem top probe = 0
  kernel : ∃ probe, leafEntry mem top probe ≠ 0

/-- A pagemap has an address mapped, to this byte, writable or not. -/
structure Shows (mem : Memory) (top : Nat) (virtualAddress : BitVec 64) (byte : BitVec 8)
    (writable : Bool) : Prop where
  present : isPresent (leafEntry mem top virtualAddress) = true
  byte : mem (frameOf (leafEntry mem top virtualAddress) * pageSize + virtualAddress.toNat % pageSize) = byte
  writable : (leafEntry mem top virtualAddress).getLsbD 1 = writable

/-- Byte `k` of a segment: from the file, and 0 behind that. -/
def segmentByte (buffer : Memory) (header : ElfProgHeader) (k : Nat) : BitVec 8 :=
  if k < header.fileSize.toNat then buffer (header.offset.toNat + k) else 0

/-- Every segment is where its header says, with its bytes and its permission. -/
def ImageCorrect (mem : Memory) (top : Nat) (buffer : Memory) : Prop :=
  ∀ i, Loads buffer i → ∀ k < (progHeader buffer i).memSize.toNat,
    Shows mem top ((progHeader buffer i).virtAddr + BitVec.ofNat 64 k)
      (segmentByte buffer (progHeader buffer i) k) (has (progHeader buffer i).flags pfW)

/-- Each segment is given pages by an allocator that does not give away what is
in use. -/
def SegmentBacked (A : Allocator α) (busy : α → Nat → Prop) (buffer : Memory) (p : Process α) (i : Nat) :
    Prop :=
  (progHeader buffer i).type = elfHeadLoad → HandsOutAt A busy p.state.alloc (progHeader buffer i).pages

/-- `j` is the last segment to get pages, and comes after `i`. -/
structure LastAfter (buffer : Memory) (i j : Nat) : Prop where
  later : i < j
  loads : Loads buffer j
  paged : 0 < (progHeader buffer j).pages
  last : ∀ l, j < l → Loads buffer l → (progHeader buffer l).pages = 0

/-- The files that come out right: what takes up memory starts in the page of
the first header, and a later segment of no size, which still gets a page there
when its address is not aligned, hides nothing but zeros. -/
def LaidOutRight (buffer : Memory) : Prop :=
  ∀ i, Loads buffer i → 0 < (progHeader buffer i).memSize.toNat →
    pageOf (progHeader buffer i).virtAddr = pageOf (progHeader buffer 0).virtAddr ∧
    ∀ j, LastAfter buffer i j →
      (∀ k < (progHeader buffer i).memSize.toNat,
        (progHeader buffer i).pageOffset.toNat + k < pageSize →
        segmentByte buffer (progHeader buffer i) k = 0) ∧
      has (progHeader buffer i).flags pfW = has (progHeader buffer j).flags pfW

/-! ### Sizes -/

theorem pageOffset_toNat (header : ElfProgHeader) :
    header.pageOffset.toNat = header.virtAddr.toNat % pageSize := by
  rw [ElfProgHeader.pageOffset, BitVec.toNat_and]
  exact Nat.and_two_pow_sub_one_eq_mod header.virtAddr.toNat 12

theorem pageAt_virtAddr (header : ElfProgHeader) (k : Nat) :
    pageOf (header.virtAddr + BitVec.ofNat 64 k) =
      pageAt header ((header.pageOffset.toNat + k) / pageSize) := by
  rw [pageOf_add, pageAt, pageOffset_toNat]

theorem pages_of_span (header : ElfProgHeader) (small : span header ≤ 2 ^ 36) :
    header.pages = span header := by
  have offset := pageOffset_toNat header
  rw [ElfProgHeader.pages, BitVec.toNat_add, BitVec.toNat_add]
  grind [span, pageSize]

theorem pageTurns_pages (pages : Nat) : pageTurns (pages * pageSize) = pages := by
  simp only [pageTurns, pageSize]
  omega

/-! ### Loading -/

/-- Byte `q` of the pages a segment is copied to. -/
def frameByte (buffer : Memory) (header : ElfProgHeader) (q : Nat) : BitVec 8 :=
  if header.pageOffset.toNat ≤ q then segmentByte buffer header (q - header.pageOffset.toNat) else 0

/-- `(prog_header[i].flags & PF_W) ? 0b111 : 0b101`. -/
def entryFlags (header : ElfProgHeader) : BitVec 64 := if has header.flags pfW then 0b111 else 0b101

/-- What mapping segment `i` to pages from `first` on writes. -/
def segmentWrites (buffer : Memory) (i first : Nat) : List (BitVec 36 × BitVec 64) :=
  if (progHeader buffer i).type = elfHeadLoad then
    pageWrites (pageAddress first) (progHeader buffer 0).virtAddr (entryFlags (progHeader buffer i))
      (progHeader buffer i).pages
  else []

/-- Segment `i` lies in the pages from `first` on. -/
structure Loaded (busy : α → Nat → Prop) (roots : Set Nat) (s : State α) (buffer : Memory)
    (i first : Nat) : Prop where
  bound : first + (progHeader buffer i).pages ≤ 2 ^ 52
  data : ∀ page, first ≤ page → page < first + (progHeader buffer i).pages → DataPage busy roots s page
  bytes : ∀ t < (progHeader buffer i).pages, ∀ k < pageSize,
    s.mem ((first + t) * pageSize + k) = frameByte buffer (progHeader buffer i) (t * pageSize + k)

section
variable {α : Type} {A : Allocator α} {busy : α → Nat → Prop} {shared : Fin 512 → Prop} {roots : Set Nat}
  {p p' : Process α} {buffer : Memory}

theorem loaded_later (mapped : Mapped busy shared roots s s' root writes)
    (loaded : Loaded busy roots s buffer i first) : Loaded busy roots s' buffer i first := by
  refine ⟨loaded.bound, fun page low high => ?_, fun t inside k small => ?_⟩
  · exact dataPage_later mapped.unused mapped.still (loaded.data page low high)
  · rw [mapped.data _ (loaded.data (first + t) (by omega) (by omega)) k small]
    exact loaded.bytes t inside k small

theorem loadSegment_mapped (fresh : HandsOut A busy 1) (tables : Tables busy p.state shared roots)
    (member : p.topLevel ∈ roots) (backed : SegmentBacked A busy buffer p i)
    (fits : (progHeader buffer i).pageOffset.toNat + (progHeader buffer i).fileSize.toNat ≤
      (progHeader buffer i).pages * pageSize)
    (load : (progHeader buffer i).type = elfHeadLoad) (ran : loadSegment A buffer p i = some p') :
    p'.topLevel = p.topLevel ∧ ∃ first,
      Mapped busy shared roots p.state p'.state p.topLevel (segmentWrites buffer i first) ∧
      Loaded busy roots p'.state buffer i first := by
  unfold loadSegment at ran
  simp only [load, if_true, bind_returns, Prod.exists, Option.some.injEq] at ran
  obtain ⟨addr, s1, given, s2, looped, rfl⟩ := ran
  obtain ⟨first, rfl, handed, mapped⟩ := pcalloc_mapPages fresh (backed load) tables member given looped
  rw [pageTurns_pages] at mapped
  have slots := sameSlots_copy handed.data fits fun k => buffer ((progHeader buffer i).offset.toNat + k)
  refine ⟨rfl, first, ?_, handed.bound, ?_, ?_⟩
  · rw [segmentWrites, if_pos load]
    exact copy_mapped mapped member handed fits _
  · exact fun page low high => dataPage_of_slots mapped.tables slots rfl (handed.data page low high)
  · intro t inside k small
    have blank := handed.blank (first + t) (by omega) (by omega) k small
    dsimp only [Process.pushRange]
    grind [copy, frameByte, segmentByte]

/-- The segments in the order they were loaded, each with its first page. -/
abbrev Placed := List (Nat × Nat)

theorem loadSegments_mapped (fresh : HandsOut A busy 1) (tables : Tables busy p.state shared roots)
    (member : p.topLevel ∈ roots) (items : List Nat)
    (fits : ∀ i ∈ items, (progHeader buffer i).type = elfHeadLoad →
      (progHeader buffer i).pageOffset.toNat + (progHeader buffer i).fileSize.toNat ≤
        (progHeader buffer i).pages * pageSize)
    (backed : Along (loadSegment A buffer) (SegmentBacked A busy buffer) p items)
    (ran : items.foldlM (loadSegment A buffer) p = some p') :
    p'.topLevel = p.topLevel ∧ ∃ placed : Placed, placed.map Prod.fst = items ∧
      Mapped busy shared roots p.state p'.state p.topLevel
        (placed.flatMap fun place => segmentWrites buffer place.1 place.2) ∧
      ∀ place ∈ placed, (progHeader buffer place.1).type = elfHeadLoad →
        Loaded busy roots p'.state buffer place.1 place.2 := by
  induction items generalizing p with
  | nil => cases ran; exact ⟨rfl, [], rfl, mapped_refl tables _, nofun⟩
  | cons i rest ih =>
    rw [List.foldlM_cons] at ran
    obtain ⟨middle, loaded, ran⟩ := Option.bind_eq_some_iff.mp ran
    have one : middle.topLevel = p.topLevel ∧ ∃ first,
        Mapped busy shared roots p.state middle.state p.topLevel (segmentWrites buffer i first) ∧
        ((progHeader buffer i).type = elfHeadLoad → Loaded busy roots middle.state buffer i first) := by
      by_cases load : (progHeader buffer i).type = elfHeadLoad
      · obtain ⟨top, first, mapped, lies⟩ := loadSegment_mapped fresh tables member backed.1
          (fits i List.mem_cons_self load) load loaded
        exact ⟨top, first, mapped, fun _ => lies⟩
      · simp_all [loadSegment, segmentWrites, mapped_refl]
    obtain ⟨top, first, mapped, lies⟩ := one
    obtain ⟨same, placed, order, later, others⟩ := ih mapped.tables (top ▸ member)
      (fun other listed => fits other (List.mem_cons_of_mem _ listed)) (backed.2 middle loaded) ran
    rw [top] at same later
    refine ⟨same, (i, first) :: placed, by rw [List.map_cons, order], ?_, ?_⟩
    · grind [mapped_trans]
    · grind [loaded_later]

end

/-! ### The last write to a page -/

/-- One page of the loader's loop: page `page` of segment `segment`, which lies
from `frame` on. -/
structure Spot where
  segment : Nat
  frame : Nat
  page : Nat

def segmentSpots (buffer : Memory) (placed : Placed) : List Spot :=
  placed.flatMap fun place =>
    if (progHeader buffer place.1).type = elfHeadLoad then
      (List.range (progHeader buffer place.1).pages).map fun t => ⟨place.1, place.2, t⟩
    else []

/-- Where it is mapped. -/
def Spot.place (buffer : Memory) (spot : Spot) : BitVec 36 := pageAt (progHeader buffer 0) spot.page

def Spot.entry (buffer : Memory) (spot : Spot) : BitVec 64 :=
  (pageAddress spot.frame + BitVec.ofNat 64 (spot.page * pageSize)) |||
    entryFlags (progHeader buffer spot.segment)

theorem mem_segmentSpots {placed : Placed} : spot ∈ segmentSpots buffer placed ↔ (spot.segment, spot.frame) ∈ placed ∧
    (progHeader buffer spot.segment).type = elfHeadLoad ∧
    spot.page < (progHeader buffer spot.segment).pages := by
  rw [segmentSpots, List.mem_flatMap]
  grind

theorem segmentSpots_sorted (buffer : Memory) {placed : Placed} (order : (placed.map Prod.fst).Pairwise (· < ·)) :
    (segmentSpots buffer placed).Pairwise fun one other =>
      one.segment < other.segment ∨ one.segment = other.segment ∧ one.page < other.page := by
  refine List.pairwise_flatMap.mpr ⟨fun place _ => ?_, ?_⟩
  · split
    · exact List.pairwise_map.mpr (List.pairwise_lt_range.imp fun less => Or.inr ⟨rfl, less⟩)
    · exact List.Pairwise.nil
  · refine (List.pairwise_map.mp order).imp fun less one first other second => Or.inl ?_
    grind

theorem writes_of_segmentSpots (placed : Placed) :
    (placed.flatMap fun place => segmentWrites buffer place.1 place.2) =
      (segmentSpots buffer placed).map fun spot => (spot.place buffer, spot.entry buffer) := by
  rw [segmentSpots, List.map_flatMap]
  congr 1
  funext place
  rw [segmentWrites]
  split
  · rw [pageWrites, List.map_map]
    refine List.map_congr_left fun t _ => Prod.ext ?_ rfl
    have whole : ((progHeader buffer 0).virtAddr.toNat % pageSize + t * pageSize) / pageSize = t := by
      simp only [pageSize]
      omega
    simp_all [Spot.place, pageAt, pageOf_add]
  · rfl

/-- The memory after loading, as far as the image is concerned. -/
structure Image (mem mem' : Memory) (top : Nat) (buffer : Memory) (placed : Placed) : Prop where
  order : placed.map Prod.fst = List.range (elfHeader buffer).progHeadCount.toNat
  leaf : ∀ probe, leafEntry mem' top probe =
    ((lastAt (Spot.place buffer) (segmentSpots buffer placed) (pageOf probe)).map (Spot.entry buffer)).getD
      (leafEntry mem top probe)
  bound : ∀ spot ∈ segmentSpots buffer placed, spot.frame + spot.page < 2 ^ 52
  bytes : ∀ spot ∈ segmentSpots buffer placed, ∀ k < pageSize, mem' ((spot.frame + spot.page) * pageSize + k) =
    frameByte buffer (progHeader buffer spot.segment) (spot.page * pageSize + k)

theorem loadSegments_of_run {α : Type} {A : Allocator α} {p p' : Process α}
    (ran : elfRunBinary A p buffer = some (0, entry, p')) :
    (List.range (elfHeader buffer).progHeadCount.toNat).foldlM (loadSegment A buffer) p = some p' := by
  unfold elfRunBinary at ran
  grind [Option.bind_eq_some_iff]

theorem image_of_run {α : Type} {A : Allocator α} {busy : α → Nat → Prop} {shared : Fin 512 → Prop}
    {roots : Set Nat} {p p' : Process α} (fresh : HandsOut A busy 1)
    (tables : Tables busy p.state shared roots) (member : p.topLevel ∈ roots)
    (fits : ∀ i, Loads buffer i →
      (progHeader buffer i).pageOffset.toNat + (progHeader buffer i).fileSize.toNat ≤
        (progHeader buffer i).pages * pageSize)
    (backed : Along (loadSegment A buffer) (SegmentBacked A busy buffer) p
      (List.range (elfHeader buffer).progHeadCount.toNat))
    (ran : elfRunBinary A p buffer = some (0, entry, p')) :
    p'.topLevel = p.topLevel ∧ ∃ placed, Image p.state.mem p'.state.mem p.topLevel buffer placed := by
  have looped := loadSegments_of_run ran
  obtain ⟨top, placed, order, mapped, lies⟩ := loadSegments_mapped fresh tables member _
    (fun i listed load => fits i ⟨List.mem_range.mp listed, load⟩) backed looped
  refine ⟨top, placed, order, fun probe => ?_, fun spot listed => ?_, fun spot listed k small => ?_⟩
  · rw [mapped.leaf, writes_of_segmentSpots, shown, lastAt_map, Option.map_map]
    rfl
  · obtain ⟨here, load, inside⟩ := mem_segmentSpots.mp listed
    have bound := (lies _ here load).bound
    dsimp only at bound
    omega
  · obtain ⟨here, load, inside⟩ := mem_segmentSpots.mp listed
    exact (lies _ here load).bytes spot.page inside k small

/-! ### Sizes of a well-formed file -/

theorem ofNat_injective (small : t < 2 ^ 36) (small' : t' < 2 ^ 36)
    (same : BitVec.ofNat 36 t = BitVec.ofNat 36 t') : t = t' := by
  have numbers := congrArg BitVec.toNat same
  grind

theorem pageAt_injective (small : t < 2 ^ 36) (small' : t' < 2 ^ 36)
    (same : pageAt header t = pageAt header t') : t = t' :=
  ofNat_injective small small' ((BitVec.add_right_inj _).mp same)

theorem WellFormed.span_le (formed : WellFormed buffer) (loads : Loads buffer i)
    (filled : 0 < (progHeader buffer i).memSize.toNat) : span (progHeader buffer i) ≤ 2 ^ 36 := by
  by_contra large
  have round : pageAt (progHeader buffer i) 0 = pageAt (progHeader buffer i) (2 ^ 36) := rfl
  have twice := (formed.disjoint ⟨loads, filled, by omega⟩ ⟨loads, filled, by omega⟩ round).2
  cases twice

theorem pages_of_empty (header : ElfProgHeader) (empty : header.memSize.toNat = 0) : header.pages ≤ 1 := by
  grind [pageOffset_toNat, span, pageSize, pages_of_span]

theorem WellFormed.pages_le (formed : WellFormed buffer) (loads : Loads buffer i) :
    (progHeader buffer i).pages ≤ 2 ^ 36 := by
  rcases Nat.eq_zero_or_pos (progHeader buffer i).memSize.toNat with empty | filled
  · exact le_trans (pages_of_empty _ empty) (by decide)
  · rw [pages_of_span _ (formed.span_le loads filled)]
    exact formed.span_le loads filled

theorem WellFormed.fits (formed : WellFormed buffer) (loads : Loads buffer i) :
    (progHeader buffer i).pageOffset.toNat + (progHeader buffer i).fileSize.toNat ≤
      (progHeader buffer i).pages * pageSize := by
  have whole := formed.whole i loads
  have offset := pageOffset_toNat (progHeader buffer i)
  have small : span (progHeader buffer i) ≤ 2 ^ 36 := by
    rcases Nat.eq_zero_or_pos (progHeader buffer i).memSize.toNat with empty | filled
    · grind [span, pageSize]
    · exact formed.span_le loads filled
  grind [pages_of_span, span, pageSize]

theorem occupies_byte (loads : Loads buffer i) (inside : k < (progHeader buffer i).memSize.toNat) :
    Occupies buffer i (((progHeader buffer i).pageOffset.toNat + k) / pageSize) := by
  refine ⟨loads, Nat.zero_lt_of_lt inside, ?_⟩
  simp only [span, pageSize]
  omega

theorem byte_of_page (occupies : Occupies buffer i t) : ∃ k < (progHeader buffer i).memSize.toNat,
    ((progHeader buffer i).pageOffset.toNat + k) / pageSize = t := by
  have offset := pageOffset_toNat (progHeader buffer i)
  obtain ⟨-, filled, inside⟩ := occupies
  refine ⟨t * pageSize - (progHeader buffer i).pageOffset.toNat, ?_, ?_⟩ <;>
    simp only [span, pageSize] at offset inside ⊢ <;> omega

theorem start_of_subrun {one other : BitVec 36} (positive : 0 < m) (short : m < 2 ^ 36)
    (within : ∀ t < m, ∃ u < m, one + BitVec.ofNat 36 t = other + BitVec.ofNat 36 u) : one = other := by
  obtain ⟨u, inside, start⟩ := within 0 positive
  rw [show BitVec.ofNat 36 0 = 0#36 from rfl, BitVec.add_zero] at start
  rcases Nat.eq_zero_or_pos u with rfl | behind
  · simp_all
  · obtain ⟨v, inside', past⟩ := within (m - u) (by omega)
    rw [start, BitVec.add_assoc, ← BitVec.ofNat_add, Nat.add_sub_cancel' (Nat.le_of_lt inside),
      BitVec.add_right_inj] at past
    exact absurd (ofNat_injective short (by omega) past) (Nat.ne_of_gt inside')

/-! ### What is shown -/

theorem entry_spot (buffer : Memory) (spot : Spot) (bound : spot.frame + spot.page < 2 ^ 52) :
    isPresent (spot.entry buffer) = true ∧ frameOf (spot.entry buffer) = spot.frame + spot.page ∧
      (spot.entry buffer).getLsbD 1 = has (progHeader buffer spot.segment).flags pfW :=
  userEntry_fields _ bound

variable {mem mem' : Memory} {placed : Placed}

section
variable (image : Image mem mem' top buffer placed)
include image

theorem Image.mem_segmentSpots : (∃ spot ∈ segmentSpots buffer placed, spot.segment = i ∧ spot.page = t) ↔
      Loads buffer i ∧ t < (progHeader buffer i).pages := by
  constructor
  · rintro ⟨spot, listed, rfl, rfl⟩
    obtain ⟨here, load, inside⟩ := ElfImage.mem_segmentSpots.mp listed
    have counted := List.mem_map_of_mem (f := Prod.fst) here
    rw [image.order, List.mem_range] at counted
    exact ⟨⟨counted, load⟩, inside⟩
  · rintro ⟨⟨counted, load⟩, inside⟩
    have listed := List.mem_range.mpr counted
    rw [← image.order] at listed
    obtain ⟨place, here, rfl⟩ := List.mem_map.mp listed
    exact ⟨⟨place.1, place.2, t⟩, ElfImage.mem_segmentSpots.mpr ⟨here, load, inside⟩, rfl, rfl⟩

theorem Image.shows_iff (last : lastAt (Spot.place buffer) (segmentSpots buffer placed) (pageOf virtualAddress) = some spot) :
    Shows mem' top virtualAddress byte writable ↔
      frameByte buffer (progHeader buffer spot.segment)
          (spot.page * pageSize + virtualAddress.toNat % pageSize) = byte ∧
        has (progHeader buffer spot.segment).flags pfW = writable := by
  have listed := (lastAt_mem last).1
  have leaf : leafEntry mem' top virtualAddress = spot.entry buffer := by
    rw [image.leaf, last, Option.map_some, Option.getD_some]
  obtain ⟨present, frame, write⟩ := entry_spot buffer spot (image.bound spot listed)
  have bytes := image.bytes spot listed (virtualAddress.toNat % pageSize) (Nat.mod_lt _ (by decide))
  constructor
  · rintro ⟨-, holds, may⟩
    simp_all
  · rintro ⟨holds, may⟩
    refine ⟨?_, ?_, ?_⟩
    · rw [leaf, present]
    · rw [leaf, frame, bytes, holds]
    · rw [leaf, write, may]

theorem Image.last (formed : WellFormed buffer)
    (loads : Loads buffer i) (inside : t < (progHeader buffer i).pages) :
    ∃ spot, lastAt (Spot.place buffer) (segmentSpots buffer placed) (pageAt (progHeader buffer 0) t) = some spot ∧
      spot.page = t ∧ Loads buffer spot.segment ∧ t < (progHeader buffer spot.segment).pages ∧
      ∀ j, Loads buffer j → t < (progHeader buffer j).pages → j ≤ spot.segment := by
  have small {j : Nat} (loads : Loads buffer j) {u : Nat} (inside : u < (progHeader buffer j).pages) :
      u < 2 ^ 36 := Nat.lt_of_lt_of_le inside (formed.pages_le loads)
  obtain ⟨here, listed, rfl, rfl⟩ := image.mem_segmentSpots.mpr ⟨loads, inside⟩
  cases last : lastAt (Spot.place buffer) (segmentSpots buffer placed) (pageAt (progHeader buffer 0) here.page) with
  | none => exact absurd rfl (lastAt_eq_none_iff.mp last here listed)
  | some spot =>
    obtain ⟨member, place⟩ := lastAt_mem last
    obtain ⟨loads', inside'⟩ := image.mem_segmentSpots.mp ⟨spot, member, rfl, rfl⟩
    have page := pageAt_injective (small loads' inside') (small loads inside) place
    refine ⟨spot, rfl, page, loads', page ▸ inside', fun j other within => ?_⟩
    obtain ⟨rival, entered, rfl, same⟩ := image.mem_segmentSpots.mpr ⟨other, within⟩
    have sorted := segmentSpots_sorted buffer (image.order ▸ List.pairwise_lt_range)
    rcases lastAt_greatest sorted last entered
        (congrArg (pageAt (progHeader buffer 0)) same) with rfl | less | ⟨equal, -⟩
    · exact Nat.le_refl _
    · exact Nat.le_of_lt less
    · exact Nat.le_of_eq equal

theorem Image.shows_cases (shows : Shows mem' top virtualAddress byte writable) (empty : leafEntry mem top virtualAddress = 0) :
    ∃ j u, Loads buffer j ∧ u < (progHeader buffer j).pages ∧
      pageOf virtualAddress = pageAt (progHeader buffer 0) u := by
  cases last : lastAt (Spot.place buffer) (segmentSpots buffer placed) (pageOf virtualAddress) with
  | some spot =>
    obtain ⟨member, place⟩ := lastAt_mem last
    obtain ⟨loads, inside⟩ := image.mem_segmentSpots.mp ⟨spot, member, rfl, rfl⟩
    exact ⟨spot.segment, spot.page, loads, inside, place.symm⟩
  | none =>
    have present := shows.present
    rw [image.leaf, last, Option.map_none, Option.getD_none, empty] at present
    cases present

end

theorem byte_offset (header : ElfProgHeader) (k : Nat) :
    (header.pageOffset.toNat + k) / pageSize * pageSize +
      (header.virtAddr + BitVec.ofNat 64 k).toNat % pageSize = header.pageOffset.toNat + k := by
  grind [pageOffset_toNat, BitVec.toNat_ofNat, pageSize]

theorem frameByte_segment (buffer : Memory) (header : ElfProgHeader) (k : Nat) :
    frameByte buffer header (header.pageOffset.toNat + k) = segmentByte buffer header k := by
  simp [frameByte]

theorem frameByte_empty (buffer : Memory) (header : ElfProgHeader) (empty : header.fileSize.toNat = 0)
    (q : Nat) : frameByte buffer header q = 0 := by
  rw [frameByte, segmentByte, empty]
  split <;> rfl

theorem correct_of_laidOutRight (image : Image mem mem' top buffer placed) (formed : WellFormed buffer)
    (right : LaidOutRight buffer) : ImageCorrect mem' top buffer := by
  intro i loads k inside
  have filled := Nat.zero_lt_of_lt inside
  obtain ⟨start, hidden⟩ := right i loads filled
  have occupies := occupies_byte loads inside
  have pages := pages_of_span _ (formed.span_le loads filled)
  generalize quotient : ((progHeader buffer i).pageOffset.toNat + k) / pageSize = t at occupies
  have place : pageOf ((progHeader buffer i).virtAddr + BitVec.ofNat 64 k) =
      pageAt (progHeader buffer 0) t := by
    rw [pageAt_virtAddr, quotient, pageAt, pageAt, start]
  obtain ⟨spot, last, page, loads', within, greatest⟩ :=
    image.last formed loads (pages ▸ occupies.inside : t < (progHeader buffer i).pages)
  rw [← place] at last
  have offset := byte_offset (progHeader buffer i) k
  rw [quotient] at offset
  rw [image.shows_iff last, page, offset]
  by_cases own : spot.segment = i
  · simp_all [frameByte_segment]
  · have later : i < spot.segment :=
      lt_of_le_of_ne (greatest i loads (pages ▸ occupies.inside)) (Ne.symm own)
    -- Another segment that takes up memory would start in the same page.
    have empty : (progHeader buffer spot.segment).memSize.toNat = 0 := by
      by_contra positive
      have other := Nat.pos_of_ne_zero positive
      have shared : pageAt (progHeader buffer i) 0 = pageAt (progHeader buffer spot.segment) 0 := by
        rw [pageAt, pageAt, start, (right _ loads' other).1]
      have first : Occupies buffer i 0 := ⟨loads, filled, Nat.zero_lt_of_lt occupies.inside⟩
      have second : Occupies buffer spot.segment 0 := by
        refine ⟨loads', other, ?_⟩
        grind [pages_of_span]
      exact own (formed.disjoint first second shared).1.symm
    have few := pages_of_empty _ empty
    obtain rfl : t = 0 := by omega
    obtain ⟨blank, same⟩ := hidden spot.segment ⟨later, loads', by omega, fun l less other =>
      Nat.eq_zero_of_not_pos fun positive => Nat.not_lt.mpr (greatest l other positive) less⟩
    have noBytes : (progHeader buffer spot.segment).fileSize.toNat = 0 := by
      have whole := formed.whole _ loads'
      omega
    simp_all [pageSize, frameByte_empty]

theorem span_pos (filled : 0 < header.memSize.toNat) : 0 < span header := by
  simp only [span, pageSize]
  omega

theorem exists_longest (loads : Loads buffer i) (filled : 0 < (progHeader buffer i).memSize.toNat) :
    ∃ j, (Loads buffer j ∧ 0 < (progHeader buffer j).memSize.toNat) ∧
      ∀ l, Loads buffer l → 0 < (progHeader buffer l).memSize.toNat →
        span (progHeader buffer l) ≤ span (progHeader buffer j) := by
  classical
  let loaded := (Finset.range (elfHeader buffer).progHeadCount.toNat).filter fun j =>
    Loads buffer j ∧ 0 < (progHeader buffer j).memSize.toNat
  have listed {j : Nat} (loads : Loads buffer j) (filled : 0 < (progHeader buffer j).memSize.toNat) :
      j ∈ loaded := Finset.mem_filter.mpr ⟨Finset.mem_range.mpr loads.1, loads, filled⟩
  obtain ⟨j, member, most⟩ := loaded.exists_max_image (fun j => span (progHeader buffer j))
    ⟨i, listed loads filled⟩
  grind

theorem FreshFor.span_lt (fresh : FreshFor mem top buffer) (loads : Loads buffer i)
    (filled : 0 < (progHeader buffer i).memSize.toNat) : span (progHeader buffer i) < 2 ^ 36 := by
  by_contra large
  obtain ⟨probe, mapped⟩ := fresh.kernel
  let t := (pageOf probe - pageOf (progHeader buffer i).virtAddr).toNat
  have small : t < 2 ^ 36 := BitVec.isLt _
  refine mapped (fresh.empty ⟨loads, filled, (by omega : t < span (progHeader buffer i))⟩ probe ?_)
  grind [pageAt]

section
variable (image : Image mem mem' top buffer placed) (formed : WellFormed buffer)
  (fresh : FreshFor mem top buffer) (correct : ImageCorrect mem' top buffer)
include image formed fresh correct

theorem starts_of_correct (loads : Loads buffer i) (filled : 0 < (progHeader buffer i).memSize.toNat) :
    pageOf (progHeader buffer i).virtAddr = pageOf (progHeader buffer 0).virtAddr := by
  have mapped {j t : Nat} (occupies : Occupies buffer j t) : ∃ l u, Loads buffer l ∧
      u < (progHeader buffer l).pages ∧ pageAt (progHeader buffer j) t = pageAt (progHeader buffer 0) u := by
    obtain ⟨k, inside, quotient⟩ := byte_of_page occupies
    have place := pageAt_virtAddr (progHeader buffer j) k
    rw [quotient] at place
    obtain ⟨l, u, other, within, same⟩ :=
      image.shows_cases (correct j occupies.loads k inside) (fresh.empty occupies _ place)
    exact ⟨l, u, other, within, place.symm.trans same⟩
  obtain ⟨longest, ⟨known, large⟩, most⟩ := exists_longest loads filled
  have below {l u : Nat} (other : Loads buffer l) (within : u < (progHeader buffer l).pages) :
      u < span (progHeader buffer longest) := by
    rcases Nat.eq_zero_or_pos (progHeader buffer l).memSize.toNat with empty | taken
    · grind [pages_of_empty, span_pos]
    · rw [pages_of_span _ (formed.span_le other taken)] at within
      exact Nat.lt_of_lt_of_le within (most l other taken)
  have start : pageOf (progHeader buffer longest).virtAddr = pageOf (progHeader buffer 0).virtAddr := by
    refine start_of_subrun (span_pos large) (fresh.span_lt known large) fun t inside => ?_
    obtain ⟨l, u, other, within, same⟩ := mapped ⟨known, large, inside⟩
    exact ⟨u, below other within, same⟩
  have first : Occupies buffer i 0 := ⟨loads, filled, span_pos filled⟩
  obtain ⟨l, u, other, within, same⟩ := mapped first
  have shared : pageAt (progHeader buffer i) 0 = pageAt (progHeader buffer longest) u := by
    rw [same, pageAt, pageAt, start]
  rw [(formed.disjoint first ⟨known, large, below other within⟩ shared).1, start]

theorem laidOutRight_of_correct : LaidOutRight buffer := by
  intro i loads filled
  have start := starts_of_correct image formed fresh correct loads filled
  refine ⟨start, fun j after => ?_⟩
  have empty : (progHeader buffer j).memSize.toNat = 0 := by
    by_contra positive
    have taken := Nat.pos_of_ne_zero positive
    have shared : pageAt (progHeader buffer i) 0 = pageAt (progHeader buffer j) 0 := by
      rw [pageAt, pageAt, start, starts_of_correct image formed fresh correct after.loads taken]
    have same := (formed.disjoint ⟨loads, filled, span_pos filled⟩
      ⟨after.loads, taken, span_pos taken⟩ shared).1
    exact Nat.ne_of_lt after.later same
  have noBytes : (progHeader buffer j).fileSize.toNat = 0 := by
    have whole := formed.whole j after.loads
    omega
  obtain ⟨spot, last, page, loads', within, greatest⟩ := image.last formed after.loads after.paged
  have own : spot.segment = j := by
    refine Nat.le_antisymm (Nat.le_of_not_lt fun less => ?_) (greatest j after.loads after.paged)
    rw [after.last _ less loads'] at within
    cases within
  -- Every byte of segment `i` in that page is now one of segment `j`'s.
  have seen (k : Nat) (inside : k < (progHeader buffer i).memSize.toNat)
      (early : (progHeader buffer i).pageOffset.toNat + k < pageSize) :
      0 = segmentByte buffer (progHeader buffer i) k ∧
        has (progHeader buffer j).flags pfW = has (progHeader buffer i).flags pfW := by
    have place : pageAt (progHeader buffer 0) 0 = pageOf ((progHeader buffer i).virtAddr + BitVec.ofNat 64 k) := by
      grind [pageAt_virtAddr, Nat.div_eq_zero_iff_lt, pageAt]
    have shows := (image.shows_iff (place ▸ last)).mp (correct i loads k inside)
    rwa [own, frameByte_empty _ _ noBytes] at shows
  refine ⟨fun k inside early => (seen k inside early).1.symm, ?_⟩
  have offset := pageOffset_toNat (progHeader buffer i)
  refine (seen 0 filled ?_).2.symm
  rw [offset, Nat.add_zero]
  exact Nat.mod_lt _ (by decide)

end

/-- **A program comes out right exactly when it is laid out from its first
header.** Into a fresh pagemap, for every well-formed file the loader accepts:
each segment shows its bytes at its own address, writable as it asks, exactly
when there is at most one that takes up memory, in the page of the first header,
and no later one of no size covers anything of it but zeros. -/
theorem image_correct_iff {α : Type} {A : Allocator α} {busy : α → Nat → Prop} {shared : Fin 512 → Prop}
    {roots : Set Nat} {p p' : Process α} (handsOut : HandsOut A busy 1)
    (tables : Tables busy p.state shared roots) (member : p.topLevel ∈ roots)
    (backed : Along (loadSegment A buffer) (SegmentBacked A busy buffer) p
      (List.range (elfHeader buffer).progHeadCount.toNat))
    (formed : WellFormed buffer) (fresh : FreshFor p.state.mem p.topLevel buffer)
    (accepted : elfRunBinary A p buffer = some (0, entry, p')) :
    ImageCorrect p'.state.mem p'.topLevel buffer ↔ LaidOutRight buffer := by
  obtain ⟨top, placed, image⟩ := image_of_run handsOut tables member (fun i loads => formed.fits loads)
    backed accepted
  rw [top]
  exact ⟨laidOutRight_of_correct image formed fresh, correct_of_laidOutRight image formed⟩

/-! ### Two files -/

def littleEndian (count value : Nat) : List (BitVec 8) :=
  (List.range count).map fun k => BitVec.ofNat 8 (value >>> (8 * k))

/-- A file of its header and the program headers right behind it. -/
def elfFile (headers : List ElfProgHeader) : Memory := fun place =>
  (elfIdent ++ littleEndian 12 0 ++ littleEndian 8 elfExecutable.toNat ++ littleEndian 8 0x400000 ++
    littleEndian 24 64 ++ littleEndian 8 headers.length ++
    headers.flatMap fun header => littleEndian 4 header.type.toNat ++ littleEndian 4 header.flags.toNat ++
      littleEndian 8 header.offset.toNat ++ littleEndian 8 header.virtAddr.toNat ++ littleEndian 8 0 ++
      littleEndian 8 header.fileSize.toNat ++ littleEndian 8 header.memSize.toNat ++
      littleEndian 8 0).getD place 0

/-- A page to be read and executed, whose first bytes are the file's. -/
def textSegment : ElfProgHeader := ⟨elfHeadLoad, 5, 0, 0x400000, 4, 0x1000⟩

/-- Sixteen writable bytes in the page behind it. -/
def dataSegment : ElfProgHeader := ⟨elfHeadLoad, 6, 0, 0x401000, 4, 16⟩

def oneSegment : Memory := elfFile [textSegment]

def twoSegments : Memory := elfFile [textSegment, dataSegment]

/-- Sixteen pages of zeros; page 1 is to be the top level. -/
def clearedPages : State Pmm.State :=
  ⟨fun _ => 0, ⟨fun byte => if byte = 0 then 0b11 else 0, 0x10000, sixteenPages_bounded⟩⟩

def mapKernel : Option (State Pmm.State) :=
  vmmMapPage pmmAllocator clearedPages (1 * pageSize) 0x1000 0xffff800000000000 0b11

/-- A process that has only a page of the kernel mapped. -/
def smallProcess : Process Pmm.State where
  state := mapKernel.getD clearedPages
  topLevel := 1
  ranges := ⟨fun _ => ⟨none, 0, 0, 0, 0, 0, 0⟩, 0⟩
  mmapTop := 0
  mmapedLen := 0
  fds := fun _ => none
  files := fun _ => ⟨0, 0, 0, 0, 0, 0⟩
  mmapOps := fun _ => none
  kernelTop := 1
  framebuffer := 0

theorem clearedPages_tables
    (ran : vmmMapPage pmmAllocator clearedPages (1 * pageSize) physicalAddress virtualAddress flags = some s) :
    Tables State.Taken s Alone {1} := by
  have cleared : ∀ index, slot clearedPages.mem 1 index = 0 := fun index =>
    word_zero (1 * pageSize + index * 8)
  have blank : Tables State.Taken clearedPages Alone {1} :=
    (blank_tables cleared (by decide) (by decide)).1
  exact (vmmMapPage_mapped pmm_handsOut_page blank rfl ran).tables

theorem smallProcess_tables : Tables State.Taken smallProcess.state Alone {1} := by
  obtain ⟨s, ran⟩ := Option.isSome_iff_exists.mp (show mapKernel.isSome by decide +kernel)
  have same : smallProcess.state = s := by rw [smallProcess, ran, Option.getD_some]
  rw [same]
  exact clearedPages_tables ran

theorem oneSegment_header : (elfHeader oneSegment).progHeadCount.toNat = 1 ∧
    progHeader oneSegment 0 = textSegment := by
  refine ⟨by decide +kernel, ?_⟩
  exact ElfProgHeader.mk.injEq .. |>.mpr (by decide +kernel)

theorem twoSegments_headers : (elfHeader twoSegments).progHeadCount.toNat = 2 ∧
    progHeader twoSegments 0 = textSegment ∧ progHeader twoSegments 1 = dataSegment := by
  refine ⟨by decide +kernel, ?_, ?_⟩
  · exact ElfProgHeader.mk.injEq .. |>.mpr (by decide +kernel)
  · exact ElfProgHeader.mk.injEq .. |>.mpr (by decide +kernel)

/-- The segments of a file have a page each. -/
structure PageEach (buffer : Memory) : Prop where
  whole : ∀ i, Loads buffer i → (progHeader buffer i).fileSize.toNat ≤ (progHeader buffer i).memSize.toNat
  one : ∀ i, Loads buffer i → span (progHeader buffer i) = 1
  apart : ∀ i i', Loads buffer i → Loads buffer i' →
    pageOf (progHeader buffer i).virtAddr = pageOf (progHeader buffer i').virtAddr → i = i'

theorem PageEach.occupied (each : PageEach buffer) (occupied : Occupies buffer i t) :
    t = 0 ∧ pageAt (progHeader buffer i) t = pageOf (progHeader buffer i).virtAddr := by
  obtain rfl : t = 0 := by
    have inside := occupied.inside
    rw [each.one i occupied.loads] at inside
    omega
  exact ⟨rfl, BitVec.add_zero _⟩

theorem PageEach.wellFormed (each : PageEach buffer) : WellFormed buffer := by
  refine ⟨each.whole, fun {i t i' t'} first second same => ?_⟩
  obtain ⟨rfl, page⟩ := each.occupied first
  obtain ⟨rfl, page'⟩ := each.occupied second
  rw [page, page'] at same
  exact ⟨each.apart i i' first.loads second.loads same, rfl⟩

theorem PageEach.freshFor (each : PageEach buffer)
    (empty : ∀ i, Loads buffer i → leafEntry mem top (progHeader buffer i).virtAddr = 0)
    (kernel : leafEntry mem top probe ≠ 0) : FreshFor mem top buffer := by
  refine ⟨fun {i t} occupied probe same => ?_, probe, kernel⟩
  rw [(each.occupied occupied).2] at same
  rw [leafEntry_congr mem top same]
  exact empty i occupied.loads

theorem smallProcess_blank : leafEntry smallProcess.state.mem 1 0x400000 = 0 ∧
    leafEntry smallProcess.state.mem 1 0x401000 = 0 ∧
    leafEntry smallProcess.state.mem 1 0xffff800000000000 ≠ 0 := by
  decide +kernel

theorem one_segment_comes_out_right : ∃ entry p',
    elfRunBinary pmmAllocator smallProcess oneSegment = some (0, entry, p') ∧
      ImageCorrect p'.state.mem p'.topLevel oneSegment := by
  obtain ⟨count, header⟩ := oneSegment_header
  have only : ∀ i, Loads oneSegment i → i = 0 := fun i loads =>
    Nat.lt_one_iff.mp (count ▸ loads.1)
  have each : PageEach oneSegment := by
    refine ⟨fun i loads => ?_, fun i loads => ?_, fun i i' loads loads' _ => ?_⟩
    · rw [only i loads, header]
      decide
    · rw [only i loads, header]
      decide
    · rw [only i loads, only i' loads']
  have fresh : FreshFor smallProcess.state.mem smallProcess.topLevel oneSegment := by
    refine each.freshFor (fun i loads => ?_) smallProcess_blank.2.2
    rw [only i loads, header]
    exact smallProcess_blank.1
  have backed : Along (loadSegment pmmAllocator oneSegment) (SegmentBacked pmmAllocator State.Taken oneSegment)
      smallProcess (List.range (elfHeader oneSegment).progHeadCount.toNat) := by
    rw [count]
    refine ⟨fun _ => ?_, fun p' _ => trivial⟩
    rw [header]
    exact pmm_handsOut_page.given _
  obtain ⟨⟨status, entry, p'⟩, accepted⟩ := Option.isSome_iff_exists.mp
    (show (elfRunBinary pmmAllocator smallProcess oneSegment).isSome by decide +kernel)
  have zero : (elfRunBinary pmmAllocator smallProcess oneSegment).map (·.1) = some 0 := by decide +kernel
  rw [accepted] at zero
  obtain rfl : status = 0 := Option.some.inj zero
  refine ⟨entry, p', accepted, ?_⟩
  apply (image_correct_iff pmm_handsOut_page smallProcess_tables rfl backed each.wellFormed fresh accepted).mpr
  intro i loads _
  refine ⟨by rw [only i loads], fun j last => ?_⟩
  have later := last.later
  rw [only i loads, only j last.loads] at later
  omega

/-- Of a program of two segments the second is not mapped at all. -/
theorem second_segment_unmapped : WellFormed twoSegments ∧
    FreshFor smallProcess.state.mem smallProcess.topLevel twoSegments ∧
    ∃ entry p', elfRunBinary pmmAllocator smallProcess twoSegments = some (0, entry, p') ∧
      leafEntry p'.state.mem p'.topLevel dataSegment.virtAddr = 0 ∧
      ¬ ImageCorrect p'.state.mem p'.topLevel twoSegments := by
  obtain ⟨count, first, second⟩ := twoSegments_headers
  have only : ∀ i, Loads twoSegments i → i = 0 ∨ i = 1 := by
    intro i loads
    have below := loads.1
    omega
  have each : PageEach twoSegments := by
    refine ⟨fun i loads => ?_, fun i loads => ?_, fun i i' loads loads' same => ?_⟩
    · obtain rfl | rfl := only i loads
      · rw [first]
        decide
      · rw [second]
        decide
    · obtain rfl | rfl := only i loads
      · rw [first]
        decide
      · rw [second]
        decide
    · obtain rfl | rfl := only i loads <;> obtain rfl | rfl := only i' loads'
      · rfl
      · rw [first, second] at same
        exact absurd same (by decide)
      · rw [first, second] at same
        exact absurd same (by decide)
      · rfl
  have fresh : FreshFor smallProcess.state.mem smallProcess.topLevel twoSegments := by
    refine each.freshFor (fun i loads => ?_) smallProcess_blank.2.2
    obtain rfl | rfl := only i loads
    · rw [first]
      exact smallProcess_blank.1
    · rw [second]
      exact smallProcess_blank.2.1
  obtain ⟨⟨status, entry, p'⟩, accepted⟩ := Option.isSome_iff_exists.mp
    (show (elfRunBinary pmmAllocator smallProcess twoSegments).isSome by decide +kernel)
  have seen : (elfRunBinary pmmAllocator smallProcess twoSegments).map (fun reply =>
      (reply.1, leafEntry reply.2.2.state.mem reply.2.2.topLevel dataSegment.virtAddr)) = some (0, 0) := by
    decide +kernel
  rw [accepted] at seen
  obtain ⟨rfl, unmapped⟩ := Prod.mk.inj (Option.some.inj seen)
  refine ⟨each.wellFormed, fresh, entry, p', accepted, unmapped, fun correct => ?_⟩
  have loads : Loads twoSegments 1 := ⟨by rw [count]; decide, by rw [second]; rfl⟩
  have present := (correct 1 loads 0 (by rw [second]; decide)).present
  rw [second, show dataSegment.virtAddr + BitVec.ofNat 64 0 = dataSegment.virtAddr from rfl, unmapped] at present
  exact absurd present (by decide)

end MandelbrotOS.ElfImage
