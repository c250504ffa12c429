import MandelbrotOS.PagemapFrames
import MandelbrotOS.PmmInit

/-! Copying from one address space to another, `vmm_memcpy` of `mm/vmm.c`. Each side
has a physical address and an offset from it. The offset goes back to 0, and the next
page is looked up, one byte before the end of a page; the walks that look pages up also
make the tables they miss. So the copy is the one that was asked for as long as neither
side comes to the last byte of a page. -/
namespace MandelbrotOS.VmmMemcpy
open ByteMemory Forests PageEntries PagemapFrames PageTables Pmm Runs Vmm
open PmmInit (alignDown alignDown_toNat)

variable {α : Type}

/-! ### The code -/

/-- Where one side of the copy is: `virtual_address`, `phys_addr` and `align_difference`. -/
structure Cursor where
  virtualAddress : BitVec 64
  physAddr : BitVec 64
  alignDifference : Nat

/-- `phys_addr + align_difference`, the byte behind it. -/
def Cursor.place (c : Cursor) : Nat := (c.physAddr + BitVec.ofNat 64 c.alignDifference).toNat

/-- What is computed for a side before the loop. -/
def start (A : Allocator α) (s : State α) (topLevel : Nat) (virtualAddress : BitVec 64) :
    Option (Cursor × State α) := do
  let (physAddr, s) ← vmmVirtToPhys A s topLevel (alignDown virtualAddress)
  some (⟨virtualAddress, physAddr, (virtualAddress - alignDown virtualAddress).toNat⟩, s)

/-- `!((++align_difference + 1) % PAGE_SIZE)`. -/
def Cursor.Wraps (c : Cursor) : Prop := (c.alignDifference + 1 + 1) % pageSize = 0

instance (c : Cursor) : Decidable c.Wraps := inferInstanceAs (Decidable (_ = _))

/-- What a turn of the loop does to a side after its byte. -/
def advance (A : Allocator α) (s : State α) (topLevel : Nat) (c : Cursor) : Option (Cursor × State α) :=
  if c.Wraps then do
    let (physAddr, s) ← vmmVirtToPhys A s topLevel (alignDown (c.virtualAddress + 0x1000))
    some (⟨c.virtualAddress + 0x1000, physAddr, 0⟩, s)
  else some ({ c with alignDifference := c.alignDifference + 1 }, s)

structure Progress (α : Type) where
  state : State α
  cursor1 : Cursor
  cursor2 : Cursor

/-- The byte is stored. -/
def Progress.stored (p : Progress α) : State α :=
  { p.state with mem := Function.update p.state.mem p.cursor1.place (p.state.mem p.cursor2.place) }

/-- A turn of the loop. -/
def copyByte (A : Allocator α) (topLevel1 topLevel2 : Nat) (p : Progress α) : Option (Progress α) := do
  let (cursor1, s) ← advance A p.stored topLevel1 p.cursor1
  let (cursor2, s) ← advance A s topLevel2 p.cursor2
  some ⟨s, cursor1, cursor2⟩

def vmmMemcpy (A : Allocator α) (s : State α) (topLevel1 : Nat) (virtualAddress1 : BitVec 64)
    (topLevel2 : Nat) (virtualAddress2 : BitVec 64) (count : Nat) : Option (State α) := do
  let (cursor1, s) ← start A s topLevel1 virtualAddress1
  let (cursor2, s) ← start A s topLevel2 virtualAddress2
  let p ← (List.range count).foldlM (fun p _ => copyByte A topLevel1 topLevel2 p) ⟨s, cursor1, cursor2⟩
  some p.state

/-! ### What was asked for -/

/-- One side of a copy: the page of a top level and an address. -/
structure Side where
  root : Nat
  base : BitVec 64

def Side.offset (side : Side) : Nat := side.base.toNat % pageSize

def Side.address (side : Side) (k : Nat) : BitVec 64 := side.base + BitVec.ofNat 64 k

/-- The entry that maps a byte of the side. -/
def Side.entry (side : Side) (mem : Memory) (k : Nat) : BitVec 64 := leafEntry mem side.root (side.address k)

def Side.frame (side : Side) (mem : Memory) (k : Nat) : Nat := frameOf (side.entry mem k)

/-- Where a byte of the side is in physical memory. -/
def Side.locate (side : Side) (mem : Memory) (k : Nat) : Nat :=
  side.frame mem k * pageSize + (side.address k).toNat % pageSize

/-- The bytes of one side are now what those of the other were, and no other byte of
physical memory has changed. -/
def CopiesExactly (A : Allocator α) (s : State α) (dst src : Side) (count : Nat) : Prop :=
  ∃ s', vmmMemcpy A s (dst.root * pageSize) dst.base (src.root * pageSize) src.base count = some s' ∧
    (∀ k < count, s'.mem (dst.locate s.mem k) = s.mem (src.locate s.mem k)) ∧
    ∀ adr, (∀ k < count, adr ≠ dst.locate s.mem k) → s'.mem adr = s.mem adr

/-- The pages of a side are mapped, to frames of their own that are in use and hold no
page table. -/
structure Backed (busy : α → Nat → Prop) (roots : Set Nat) (s : State α) (side : Side) (count : Nat) :
    Prop where
  member : side.root ∈ roots
  present : ∀ k < count, isPresent (side.entry s.mem k) = true
  data : ∀ k < count, DataPage busy roots s (side.frame s.mem k)
  distinct : ∀ k < count, ∀ k' < count, side.frame s.mem k = side.frame s.mem k' →
    (side.offset + k) / pageSize = (side.offset + k') / pageSize

/-- A machine on which the copy can be asked for. Physical addresses have 52 bits, and
the pages there are none of count as in use. -/
structure Ready (A : Allocator α) (busy : α → Nat → Prop) (shared : Fin 512 → Prop) (roots : Set Nat)
    (s : State α) (dst src : Side) (count : Nat) : Prop where
  fresh : HandsOut A busy 1
  physical : ∀ page, ¬ busy s.alloc page → page < 2 ^ 40
  tables : Tables busy s shared roots
  target : Backed busy roots s dst count
  source : Backed busy roots s src count
  apart : ∀ k < count, ∀ k' < count, dst.frame s.mem k ≠ src.frame s.mem k'

/-- The same machine with other bytes in the frames of the two sides. -/
structure Variant (s t : State α) (dst src : Side) (count : Nat) : Prop where
  alloc : t.alloc = s.alloc
  mem : ∀ adr, (∀ k < count, adr / pageSize ≠ dst.frame s.mem k ∧ adr / pageSize ≠ src.frame s.mem k) →
    t.mem adr = s.mem adr

/-- The copy is right whatever the bytes are. -/
def AlwaysExact (A : Allocator α) (s : State α) (dst src : Side) (count : Nat) : Prop :=
  ∀ t, Variant s t dst src count → CopiesExactly A t dst src count

/-- The first walk is enough for all bytes of a side: they end before the last byte of
its page, or they begin with that byte and the frame of the next page is the next frame. -/
def Located (mem : Memory) (side : Side) (count : Nat) : Prop :=
  side.offset + count < pageSize ∨ (side.offset + 1 = pageSize ∧ (count = 1 ∨
    (count ≤ pageSize ∧ translation mem side.root (side.address 1) = translation mem side.root side.base + 0x1000)))

/-- And no walk has a table to make. -/
structure Clear (mem : Memory) (side : Side) (count : Nat) : Prop where
  located : Located mem side count
  first : Reached mem side.root side.base
  last : 0 < count → side.offset + count + 1 = pageSize → Reached mem side.root (side.base + 0x1000)

/-! ### Addresses -/

theorem pageOf_alignDown (virtualAddress : BitVec 64) : pageOf (alignDown virtualAddress) = pageOf virtualAddress := by
  apply BitVec.eq_of_toNat_eq
  simp [pageOf, alignDown_toNat, Nat.shiftRight_eq_div_pow]

theorem reached_congr (same : pageOf one = pageOf other) (reached : Reached mem top one) :
    Reached mem top other := by
  obtain ⟨leaf, arrives⟩ := reached
  exact ⟨leaf, ((pageOf_eq_iff one other).mp same).1 ▸ arrives⟩

theorem translation_congr (mem : Memory) (top : Nat) (same : pageOf one = pageOf other) :
    translation mem top one = translation mem top other := by
  grind [translation_eq, leafEntry_congr]

theorem leafAddress_aligned (entry : BitVec 64) : (leafAddress entry).toNat % pageSize = 0 := by
  rw [leafAddress]
  split
  · rfl
  · rw [addressOf_toNat]
    exact Nat.mul_mod_left _ _

theorem translation_aligned (mem : Memory) (top : Nat) (virtualAddress : BitVec 64) :
    (translation mem top virtualAddress).toNat % pageSize = 0 := by
  rw [translation_eq]
  exact leafAddress_aligned _

section
variable (side : Side)
include side

theorem Side.address_zero : side.address 0 = side.base := BitVec.add_zero _

theorem Side.address_mod (k : Nat) : (side.address k).toNat % pageSize = (side.offset + k) % pageSize := by
  simp [Side.address, Side.offset, pageSize]

theorem Side.offset_lt : side.offset < pageSize := Nat.mod_lt _ (by decide)

theorem Side.pageOf_address (k : Nat) : pageOf (side.address k) =
    pageOf side.base + BitVec.ofNat 36 ((side.offset + k) / pageSize) := pageOf_add side.base k

theorem Side.pageOf_congr (same : (side.offset + k) / pageSize = (side.offset + k') / pageSize) :
    pageOf (side.address k) = pageOf (side.address k') := by
  rw [side.pageOf_address, side.pageOf_address, same]

theorem Side.pageOf_base (within : side.offset + k < pageSize) :
    pageOf (side.address k) = pageOf side.base := by
  rw [← side.address_zero]
  apply side.pageOf_congr
  rw [Nat.div_eq_of_lt within, Nat.add_zero, Nat.div_eq_of_lt side.offset_lt]

theorem Side.pageOf_next (low : pageSize ≤ side.offset + k) (high : side.offset + k < 2 * pageSize) :
    pageOf (side.base + 0x1000) = pageOf (side.address k) := by
  have offset := side.offset_lt
  refine side.pageOf_congr (k := 0x1000) ?_
  simp only [pageSize] at low high offset ⊢
  omega

theorem Side.locate_eq (present : isPresent (side.entry mem k) = true) :
    side.locate mem k = (translation mem side.root (side.address k)).toNat + (side.offset + k) % pageSize := by
  have translated : translation mem side.root (side.address k) = addressOf (side.entry mem k) := by
    rw [translation_eq, leafAddress]
    exact if_neg (by rw [show leafEntry mem side.root (side.address k) = side.entry mem k from rfl, present]; decide)
  rw [translated, addressOf_toNat, Side.locate, side.address_mod, Side.frame]

theorem Side.locate_div (mem : Memory) (k : Nat) : side.locate mem k / pageSize = side.frame mem k := by
  rw [Side.locate, Nat.mul_comm, Nat.mul_add_div (by decide), Nat.div_eq_of_lt (Nat.mod_lt _ (by decide)),
    Nat.add_zero]

theorem Side.locate_mod (mem : Memory) (k : Nat) :
    side.locate mem k % pageSize = (side.offset + k) % pageSize := by
  rw [Side.locate, Nat.mul_comm, Nat.mul_add_mod, Nat.mod_mod, side.address_mod]

end

theorem toNat_add_short {phys : BitVec 64} (aligned : phys.toNat % pageSize = 0) (short : k < pageSize) :
    (phys + BitVec.ofNat 64 k).toNat = phys.toNat + k := by
  have bound := phys.isLt
  grind [pageSize]

theorem reached_of_present (present : isPresent (leafEntry mem top virtualAddress) = true) :
    Reached mem top virtualAddress := by
  rw [leafEntry] at present
  cases arrives : reach (next mem) top (directories virtualAddress) with
  | some leaf => exact ⟨leaf, arrives⟩
  | none =>
    simp only [arrives] at present
    exact absurd present (by decide)

/-! ### Cursors -/

/-- The cursor of a side while it goes on from its first walk. -/
def Side.cursor (side : Side) (mem : Memory) (i : Nat) : Cursor :=
  ⟨side.base, translation mem side.root side.base, side.offset + i⟩

theorem vmmVirtToPhys_reached (A : Allocator α) (reached : Reached s.mem top virtualAddress) :
    vmmVirtToPhys A s (top * pageSize) (alignDown virtualAddress) =
      some (translation s.mem top virtualAddress, s) := by
  have page := pageOf_alignDown virtualAddress
  obtain ⟨leaf, arrives⟩ := reached_congr page.symm reached
  rw [vmmVirtToPhys, descend_reached A arrives, ← translation_congr s.mem top page, translation, arrives]
  rfl

theorem offset_eq (virtualAddress : BitVec 64) :
    (virtualAddress - alignDown virtualAddress).toNat = virtualAddress.toNat % pageSize := by
  have bound := virtualAddress.isLt
  grind [alignDown_toNat, pageSize]

theorem start_reached (A : Allocator α) {side : Side} (reached : Reached s.mem side.root side.base) :
    start A s (side.root * pageSize) side.base = some (side.cursor s.mem 0, s) := by
  simp only [start, vmmVirtToPhys_reached A reached, offset_eq, bind_returned]
  rfl

theorem Located.place_cursor {side : Side} (located : Located mem side count) (inside : i < count)
    (present : ∀ k < count, isPresent (side.entry mem k) = true) :
    (side.cursor mem i).place = side.locate mem i := by
  have aligned := translation_aligned mem side.root side.base
  rw [side.locate_eq (present i inside), Cursor.place, Side.cursor]
  by_cases within : side.offset + i < pageSize
  · rw [toNat_add_short aligned within, translation_congr mem side.root (side.pageOf_base within),
      Nat.mod_eq_of_lt within]
  · -- only a side that begins at the last byte of a page comes here
    rcases located with short | ⟨edge, single | ⟨small, contiguous⟩⟩
    · omega
    · omega
    · have next : pageOf (side.address i) = pageOf (side.address 1) := by
        apply side.pageOf_congr
        simp only [pageSize] at edge small within ⊢
        omega
      grind [pageSize, translation_congr, translation_aligned]

theorem located_one (mem : Memory) (side : Side) : Located mem side 1 := by
  have offset := side.offset_lt
  by_cases edge : side.offset + 1 = pageSize
  · exact Or.inr ⟨edge, Or.inl rfl⟩
  · exact Or.inl (by omega)

theorem Located.not_wraps {side : Side} (located : Located mem side count) (inside : i + 1 < count) :
    ¬ (side.cursor mem i).Wraps := by
  have offset := side.offset_lt
  simp only [Cursor.Wraps, Side.cursor]
  rcases located with short | ⟨edge, single | ⟨small, -⟩⟩
  · rw [Nat.mod_eq_of_lt (by omega)]
    omega
  · omega
  · simp only [pageSize] at edge small ⊢
    omega

theorem advance_stays (A : Allocator α) (s : State α) (topLevel : Nat) {side : Side}
    (stays : ¬ (side.cursor mem i).Wraps) :
    advance A s topLevel (side.cursor mem i) = some (side.cursor mem (i + 1), s) := by
  rw [advance, if_neg stays]
  rfl

theorem Clear.advance {side : Side} (clear : Clear mem side count) (inside : i < count)
    (present : ∀ k < count, isPresent (side.entry mem k) = true) (A : Allocator α)
    (kept : ∀ virtualAddress, Reached mem side.root virtualAddress → Reached s.mem side.root virtualAddress) :
    ∃ c, advance A s (side.root * pageSize) (side.cursor mem i) = some (c, s) ∧
      (i + 1 < count → c = side.cursor mem (i + 1)) := by
  by_cases wraps : (side.cursor mem i).Wraps
  · have final : ¬ i + 1 < count := fun more => clear.located.not_wraps more wraps
    have reached : Reached s.mem side.root (side.base + 0x1000) := by
      apply kept
      by_cases edge : side.offset + count + 1 = pageSize
      · exact clear.last (by omega) edge
      · -- the only other wrap is a page behind, at the end of a whole page
        have whole : side.offset + 1 = pageSize ∧ i + 1 = pageSize := by
          have offset := side.offset_lt
          simp only [Cursor.Wraps, Side.cursor] at wraps
          rcases clear.located with short | ⟨edge', single | ⟨small, -⟩⟩ <;>
            simp only [pageSize] at * <;> omega
        have next := side.pageOf_next (k := 1) (by omega) (by omega)
        exact reached_congr next.symm (reached_of_present (present 1 (by simp only [pageSize] at whole; omega)))
    refine ⟨⟨side.base + 0x1000, translation s.mem side.root (side.base + 0x1000), 0⟩, ?_,
      fun more => absurd more final⟩
    rw [VmmMemcpy.advance, if_pos wraps, show (side.cursor mem i).virtualAddress = side.base from rfl,
      vmmVirtToPhys_reached A reached]
    rfl
  · simp_all [advance_stays]

/-! ### Writing to data pages -/

section
variable {A : Allocator α} {busy : α → Nat → Prop} {shared : Fin 512 → Prop} {roots : Set Nat}
  {s t : State α} {dst src side : Side}

theorem sameSlots_of_data (same : ∀ adr, ¬ DataPage busy roots s (adr / pageSize) → t.mem adr = s.mem adr) :
    SameSlots roots s t := by
  intro root member path table short reached index
  refine word_congr fun k small => same _ fun data => ?_
  have page : (table * pageSize + index * 8 + k) / pageSize = table := by
    grind [pageSize]
  rw [page] at data
  exact data.noTable root member path short reached

theorem Backed.locate_data (backed : Backed busy roots s side count) (inside : k < count) :
    DataPage busy roots s (side.locate s.mem k / pageSize) := by
  rw [side.locate_div]
  exact backed.data k inside

theorem Backed.locate_injective (backed : Backed busy roots s side count) (inside : k < count)
    (inside' : k' < count) (same : side.locate s.mem k = side.locate s.mem k') : k = k' := by
  have frames := backed.distinct k inside k' inside' (by rw [← side.locate_div, same, side.locate_div])
  have offsets : (side.offset + k) % pageSize = (side.offset + k') % pageSize := by
    rw [← side.locate_mod s.mem, same, side.locate_mod]
  grind [Nat.div_add_mod]

theorem Ready.locate_apart (ready : Ready A busy shared roots s dst src count) (inside : k < count)
    (inside' : k' < count) : dst.locate s.mem k ≠ src.locate s.mem k' := by
  intro same
  apply ready.apart k inside k' inside'
  rw [← dst.locate_div, same, src.locate_div]

theorem Backed.reached (backed : Backed busy roots s side count) (positive : 0 < count) :
    Reached s.mem side.root side.base :=
  reached_of_present (side.address_zero ▸ backed.present 0 positive)

theorem Ready.start_target (ready : Ready A busy shared roots s dst src count) (positive : 0 < count) :
    start A s (dst.root * pageSize) dst.base = some (dst.cursor s.mem 0, s) :=
  start_reached A (ready.target.reached positive)

theorem Backed.place_first (backed : Backed busy roots s side count) (positive : 0 < count) :
    (side.cursor s.mem 0).place = side.locate s.mem 0 :=
  (located_one s.mem side).place_cursor (by decide) fun k one => backed.present k (by omega)

/-! ### The loop -/

/-- Memory after some bytes have been copied. -/
def copied (mem : Memory) (dst src : Side) : Nat → Memory
  | 0 => mem
  | i + 1 => Function.update (copied mem dst src i) (dst.locate mem i) (copied mem dst src i (src.locate mem i))

theorem copied_outside (outside : ∀ k < i, adr ≠ dst.locate mem k) : copied mem dst src i adr = mem adr := by
  induction i with
  | zero => rfl
  | succ i ih =>
    rw [copied, Function.update_of_ne (outside i (Nat.lt_succ_self i))]
    exact ih fun k below => outside k (Nat.lt_succ_of_lt below)

theorem copied_inside (ready : Ready A busy shared roots s dst src count) (bound : i ≤ count) (inside : k < i) :
    copied s.mem dst src i (dst.locate s.mem k) = s.mem (src.locate s.mem k) := by
  induction i with
  | zero => omega
  | succ i ih =>
    rw [copied]
    by_cases last : k = i
    · rw [last, Function.update_self]
      exact copied_outside fun k' below => (ready.locate_apart (by omega) (by omega)).symm
    · have other : dst.locate s.mem k ≠ dst.locate s.mem i := fun same =>
        last (ready.target.locate_injective (by omega) (by omega) same)
      grind [Function.update_of_ne]

theorem copied_slots (ready : Ready A busy shared roots s dst src count) (bound : i ≤ count) (alloc : α) :
    SameSlots roots s ⟨copied s.mem dst src i, alloc⟩ := by
  refine sameSlots_of_data fun adr (noData : ¬ DataPage busy roots s _) => copied_outside fun k below same => noData ?_
  rw [same]
  exact ready.target.locate_data (by omega)

/-- Some turns have copied their bytes, and both sides still go on from their first walk. -/
structure Copying (s : State α) (dst src : Side) (count i : Nat) (p : Progress α) : Prop where
  state : p.state = ⟨copied s.mem dst src i, s.alloc⟩
  cursor1 : i < count → p.cursor1 = dst.cursor s.mem i
  cursor2 : i < count → p.cursor2 = src.cursor s.mem i

theorem copyByte_clear (ready : Ready A busy shared roots s dst src count) (clear : Clear s.mem dst count)
    (clear' : Clear s.mem src count) (inside : i < count) (copying : Copying s dst src count i p) :
    ∃ next, copyByte A (dst.root * pageSize) (src.root * pageSize) p = some next ∧
      Copying s dst src count (i + 1) next := by
  have stored : p.stored = ⟨copied s.mem dst src (i + 1), s.alloc⟩ := by
    rw [Progress.stored, copying.state, copying.cursor1 inside, copying.cursor2 inside,
      clear.located.place_cursor inside ready.target.present, clear'.located.place_cursor inside ready.source.present]
    rfl
  have slots := copied_slots ready inside s.alloc
  have kept (root : Nat) (member : root ∈ roots) (virtualAddress : BitVec 64)
      (reached : Reached s.mem root virtualAddress) :
      Reached (⟨copied s.mem dst src (i + 1), s.alloc⟩ : State α).mem root virtualAddress := by
    obtain ⟨leaf, arrives⟩ := reached
    exact ⟨leaf, ((reach_of_slots ready.tables slots).2 root member _ (directories_short _)).trans arrives⟩
  obtain ⟨c, ran, follows⟩ := clear.advance inside ready.target.present A (kept dst.root ready.target.member)
  obtain ⟨c', ran', follows'⟩ := clear'.advance inside ready.source.present A (kept src.root ready.source.member)
  refine ⟨⟨_, c, c'⟩, ?_, rfl, follows, follows'⟩
  simp only [copyByte, stored, copying.cursor1 inside, copying.cursor2 inside, ran, ran', bind_returned]

theorem copiesExactly_of_clear (ready : Ready A busy shared roots s dst src count)
    (clear : Clear s.mem dst count) (clear' : Clear s.mem src count) : CopiesExactly A s dst src count := by
  have begins : Copying s dst src count 0 ⟨s, dst.cursor s.mem 0, src.cursor s.mem 0⟩ :=
    ⟨rfl, fun _ => rfl, fun _ => rfl⟩
  obtain ⟨p, ran, copying⟩ := foldlM_range_returns
    (fun i inside p (copying : Copying s dst src count i p) => copyByte_clear ready clear clear' inside copying) begins
  refine ⟨p.state, ?_, fun k inside => ?_, fun adr outside => ?_⟩
  · simp only [vmmMemcpy, start_reached A clear.first, start_reached A clear'.first, ran, bind_returned]
  · rw [copying.state]
    exact copied_inside ready (Nat.le_refl _) inside
  · rw [copying.state]
    exact copied_outside outside

/-! ### Other bytes -/

theorem Variant.slots (variant : Variant s t dst src count) (ready : Ready A busy shared roots s dst src count) :
    SameSlots roots s t := by
  refine sameSlots_of_data fun adr (noData : ¬ DataPage busy roots s _) => variant.mem adr fun k inside => ⟨?_, ?_⟩
  · rintro same
    exact noData (same ▸ ready.target.data k inside)
  · rintro same
    exact noData (same ▸ ready.source.data k inside)

theorem Backed.of_slots (tables : Tables busy s shared roots) (slots : SameSlots roots s t)
    (alloc : t.alloc = s.alloc) (backed : Backed busy roots s side count) :
    (∀ k, side.frame t.mem k = side.frame s.mem k) ∧ Backed busy roots t side count := by
  have entry (k : Nat) : side.entry t.mem k = side.entry s.mem k :=
    leafEntry_of_slots tables slots backed.member (side.address k)
  have frame (k : Nat) : side.frame t.mem k = side.frame s.mem k := by rw [Side.frame, entry, Side.frame]
  refine ⟨frame, backed.member, fun k inside => ?_, fun k inside => ?_, fun k inside k' inside' same => ?_⟩
  · rw [entry]
    exact backed.present k inside
  · rw [frame]
    exact dataPage_of_slots tables slots alloc (backed.data k inside)
  · rw [frame, frame] at same
    exact backed.distinct k inside k' inside' same

section
variable (variant : Variant s t dst src count)
include variant

theorem Variant.frames (ready : Ready A busy shared roots s dst src count)
    (k : Nat) : dst.frame t.mem k = dst.frame s.mem k ∧ src.frame t.mem k = src.frame s.mem k := by
  have slots := variant.slots ready
  exact ⟨(ready.target.of_slots ready.tables slots variant.alloc).1 k,
    (ready.source.of_slots ready.tables slots variant.alloc).1 k⟩

theorem Variant.locate (ready : Ready A busy shared roots s dst src count)
    (k : Nat) : dst.locate t.mem k = dst.locate s.mem k ∧ src.locate t.mem k = src.locate s.mem k := by
  obtain ⟨target, source⟩ := variant.frames ready k
  simp_all [Side.locate]

theorem Variant.ready (ready : Ready A busy shared roots s dst src count) :
    Ready A busy shared roots t dst src count := by
  have slots := variant.slots ready
  have grown := grown_of_slots ready.tables slots fun page used => variant.alloc ▸ used
  refine ⟨ready.fresh, fun page free => ready.physical page (variant.alloc ▸ free), grown.tables,
    (ready.target.of_slots ready.tables slots variant.alloc).2,
    (ready.source.of_slots ready.tables slots variant.alloc).2, fun k inside k' inside' => ?_⟩
  rw [(variant.frames ready k).1, (variant.frames ready k').2]
  exact ready.apart k inside k' inside'

theorem Variant.translation (ready : Ready A busy shared roots s dst src count) (member : root ∈ roots) (virtualAddress : BitVec 64) :
    translation t.mem root virtualAddress = translation s.mem root virtualAddress := by
  rw [translation_eq, translation_eq, leafEntry_of_slots ready.tables (variant.slots ready) member]

theorem Variant.reached (ready : Ready A busy shared roots s dst src count)
    (member : root ∈ roots) (reached : Reached s.mem root virtualAddress) : Reached t.mem root virtualAddress := by
  obtain ⟨leaf, arrives⟩ := reached
  have same := (reach_of_slots ready.tables (variant.slots ready)).2 root member _ (directories_short virtualAddress)
  exact ⟨leaf, same.trans arrives⟩

theorem Variant.clear (ready : Ready A busy shared roots s dst src count)
    (member : side.root ∈ roots) (clear : Clear s.mem side count) : Clear t.mem side count := by
  refine ⟨?_, variant.reached ready member clear.first, fun positive edge =>
    variant.reached ready member (clear.last positive edge)⟩
  rw [Located, variant.translation ready member, variant.translation ready member]
  exact clear.located

end

theorem alwaysExact_of_clear (ready : Ready A busy shared roots s dst src count)
    (clear : Clear s.mem dst count) (clear' : Clear s.mem src count) : AlwaysExact A s dst src count := by
  intro t variant
  exact copiesExactly_of_clear (variant.ready ready) (variant.clear ready ready.target.member clear)
    (variant.clear ready ready.source.member clear')

end

end MandelbrotOS.VmmMemcpy
