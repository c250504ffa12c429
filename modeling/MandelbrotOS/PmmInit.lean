import Mathlib.Data.BitVec
import MandelbrotOS.Vmm

/-! How `init_pmm` builds the page bitmap. It finds the highest address, takes the
bitmap's bytes from the first usable entry that can hold them, marks every page as
taken and gives back the pages of the usable entries. Addresses are numbers modulo
`2 ^ 64`, also where an entry ends. The bitmap is taken not to overlap the memory
map that is being read. -/
namespace MandelbrotOS.PmmInit
open Pmm Vmm

/-! ### The code -/

/-- `struct stivale2_mmap_entry`. -/
structure MmapEntry where
  base : BitVec 64
  length : BitVec 64
  type : BitVec 32
  deriving DecidableEq

def stivale2MmapUsable : BitVec 32 := 1
def stivale2MmapBootloaderReclaimable : BitVec 32 := 0x1000
def stivale2MmapKernelAndModules : BitVec 32 := 0x1001

def alignUp (number : BitVec 64) : BitVec 64 := (number + 0x1000#64 - 1#64) &&& ~~~(0x1000#64 - 1#64)

def alignDown (number : BitVec 64) : BitVec 64 := number &&& ~~~(0x1000#64 - 1#64)

/-- The kinds of entries that count for the highest address. -/
def MmapEntry.Counted (entry : MmapEntry) : Prop :=
  ¬(entry.type ≠ stivale2MmapUsable ∧ entry.type ≠ stivale2MmapBootloaderReclaimable ∧
    entry.type ≠ stivale2MmapKernelAndModules)

instance (entry : MmapEntry) : Decidable entry.Counted := inferInstanceAs (Decidable ¬(_ ∧ _ ∧ _))

/-- Where an entry ends. -/
def MmapEntry.top (entry : MmapEntry) : BitVec 64 := entry.base + entry.length

/-- A turn of the first loop. -/
def raise (highestPage : BitVec 64) (entry : MmapEntry) : BitVec 64 :=
  if entry.Counted then
    if entry.top > highestPage then entry.top else highestPage
  else highestPage

/-- The first loop. -/
def findHighest (memmap : List MmapEntry) : BitVec 64 := memmap.foldl raise 0

def bitmapSize (highestPage : BitVec 64) : BitVec 64 := alignUp (alignDown highestPage / 0x1000 / 8)

/-- An entry without the bytes of the bitmap. -/
def MmapEntry.shrink (entry : MmapEntry) (size : BitVec 64) : MmapEntry :=
  { entry with base := entry.base + size, length := entry.length - size }

/-- The second loop: the physical address of the bitmap, if an entry can hold it, and
the map that is left. -/
def carve (size : BitVec 64) : List MmapEntry → Option (BitVec 64) × List MmapEntry
  | [] => (none, [])
  | entry :: rest =>
    if entry.type = stivale2MmapUsable ∧ entry.length ≥ size then
      (some entry.base, entry.shrink size :: rest)
    else ((carve size rest).1, entry :: (carve size rest).2)

/-- `pmm_bitmap`, which stays NULL where no entry can hold the bitmap. -/
def pmmBitmap (place : Option (BitVec 64)) : BitVec 64 :=
  match place with
  | none => 0
  | some base => base + physMemOffset

/-- The bytes from `pmm_bitmap` on after the `memset`. -/
def filled (memory : BitVec 64 → BitVec 8) (bitmap size : BitVec 64) (index : Nat) : BitVec 8 :=
  if index < size.toNat then 0xff else memory (bitmap + .ofNat 64 index)

/-- A turn of the last loop. -/
def freeEntry (pmm : State) (entry : MmapEntry) : State :=
  if entry.type = stivale2MmapUsable then pmmFreePages pmm entry.base.toNat (entry.length.toNat / pageSize)
  else pmm

/-- The last loop. -/
def freeUsable (pmm : State) (memmap : List MmapEntry) : State := memmap.foldl freeEntry pmm

def initPmm (memory : BitVec 64 → BitVec 8) (memmap : List MmapEntry) : State :=
  let highestPage := findHighest memmap
  let size := bitmapSize highestPage
  freeUsable ⟨filled memory (pmmBitmap (carve size memmap).1) size, highestPage.toNat, highestPage.isLt⟩
    (carve size memmap).2

/-! ### The size of the bitmap -/

theorem alignDown_toNat (number : BitVec 64) : (alignDown number).toNat = number.toNat / 4096 * 4096 := by
  have mask : ~~~(0x1000#64 - 1#64) = BitVec.allOnes 64 <<< 12 := by decide
  have bound := number.isLt
  rw [alignDown, mask, ← BitVec.shiftLeft_ushiftRight, BitVec.toNat_shiftLeft, BitVec.toNat_ushiftRight,
    Nat.shiftLeft_eq, Nat.shiftRight_eq_div_pow]
  omega

theorem bitmapSize_toNat (highestPage : BitVec 64) :
    (bitmapSize highestPage).toNat = (highestPage.toNat / 4096 / 8 + 4095) / 4096 * 4096 := by
  have bound := highestPage.isLt
  have bytes : (alignDown highestPage / 0x1000 / 8).toNat = highestPage.toNat / 4096 / 8 := by
    simp [alignDown_toNat]
  have up (number : BitVec 64) : alignUp number = alignDown (number + 0x1000#64 - 1#64) := rfl
  rw [bitmapSize, up, alignDown_toNat, BitVec.toNat_sub, BitVec.toNat_add, bytes]
  simp only [BitVec.toNat_ofNat]
  omega

theorem limit_le_iff (highestPage : BitVec 64) :
    highestPage.toNat / 4096 ≤ 8 * (bitmapSize highestPage).toNat ↔
      highestPage.toNat / 4096 % 32768 = 0 ∨ 8 ≤ highestPage.toNat / 4096 % 32768 := by
  rw [bitmapSize_toNat]
  omega

/-! ### The highest address -/

theorem le_raise (highestPage : BitVec 64) (entry : MmapEntry) : highestPage ≤ raise highestPage entry := by
  rw [raise]
  grind

theorem le_foldl_raise (memmap : List MmapEntry) (highestPage : BitVec 64) :
    highestPage ≤ memmap.foldl raise highestPage := by
  induction memmap generalizing highestPage with
  | nil => exact BitVec.le_refl _
  | cons entry rest ih => exact BitVec.le_trans (le_raise highestPage entry) (ih _)

theorem usable_le_foldl_raise (memmap : List MmapEntry) (highestPage : BitVec 64) (member : entry ∈ memmap)
    (usable : entry.type = stivale2MmapUsable) : entry.top ≤ memmap.foldl raise highestPage := by
  induction memmap generalizing highestPage with
  | nil => cases member
  | cons head rest ih =>
    rcases List.mem_cons.mp member with rfl | member
    · refine BitVec.le_trans ?_ (le_foldl_raise rest _)
      have counted : entry.Counted := fun skipped => skipped.1 usable
      rw [raise, if_pos counted]
      grind
    · exact ih _ member

theorem usable_le_findHighest (memmap : List MmapEntry) (member : entry ∈ memmap)
    (usable : entry.type = stivale2MmapUsable) : entry.top ≤ findHighest memmap :=
  usable_le_foldl_raise memmap 0 member usable

/-! ### The pages that are given back -/

/-- The pages that `init_pmm` clears. -/
def Cleared (memmap : List MmapEntry) (page : Nat) : Prop :=
  ∃ entry ∈ (carve (bitmapSize (findHighest memmap)) memmap).2, entry.type = stivale2MmapUsable ∧
    InRun entry.base.toNat (entry.length.toNat / pageSize) page

theorem mem_carve {size : BitVec 64} {memmap : List MmapEntry} (member : entry ∈ (carve size memmap).2) :
    entry ∈ memmap ∨ ∃ whole ∈ memmap, whole.type = stivale2MmapUsable ∧ size ≤ whole.length ∧
      entry = whole.shrink size := by
  induction memmap with
  | nil => exact .inl member
  | cons head rest ih =>
    grind [carve]

theorem end_le_highest {memmap : List MmapEntry} {size : BitVec 64} (member : entry ∈ (carve size memmap).2)
    (usable : entry.type = stivale2MmapUsable) (inside : entry.base.toNat + entry.length.toNat < 2 ^ 64) :
    entry.base.toNat + entry.length.toNat ≤ (findHighest memmap).toNat := by
  have below : entry.top ≤ findHighest memmap := by
    rcases mem_carve member with kept | ⟨whole, kept, usable, _, rfl⟩
    · exact usable_le_findHighest memmap kept usable
    · have same : (whole.shrink size).top = whole.top := by
        rw [MmapEntry.top, MmapEntry.shrink, BitVec.add_assoc, BitVec.add_comm size, BitVec.sub_add_cancel,
          MmapEntry.top]
      simp_all [usable_le_findHighest]
  grind [BitVec.le_def, MmapEntry.top]

theorem inRun_below (inside : base + length < 2 ^ 64) (run : InRun base (length / pageSize) page) :
    page < (base + length) / 4096 := by
  obtain ⟨i, turn, rfl⟩ := run
  simp only [pageSize, wordSize] at turn ⊢
  omega

theorem inRun_high (past : 2 ^ 64 ≤ base + length) (start : base < 2 ^ 64) (some : 4096 ≤ length) :
    ∃ page, InRun base (length / pageSize) page ∧ 2 ^ 52 - 2 ≤ page := by
  refine ⟨_, ⟨min (length / 4096 - 1) ((2 ^ 64 - 1 - base) / 4096), ?_, rfl⟩, ?_⟩
  · simp only [pageSize]
    omega
  · simp only [pageSize, wordSize]
    omega

theorem inRun_lt (run : InRun adr count page) : page < 2 ^ 52 := by
  obtain ⟨i, turn, rfl⟩ := run
  simp only [pageSize, wordSize]
  omega

theorem whole_space_iff (highestPage : BitVec 64)
    (covers : highestPage.toNat / 4096 ≤ 8 * (bitmapSize highestPage).toNat) :
    2 ^ 52 - 2 < 8 * (bitmapSize highestPage).toNat ↔ 2 ^ 52 - 32768 < highestPage.toNat / 4096 := by
  grind [bitmapSize_toNat]

theorem whole_space {highestPage : BitVec 64}
    (nearly : 2 ^ 52 - 2 < 8 * (bitmapSize highestPage).toNat) : 8 * (bitmapSize highestPage).toNat = 2 ^ 52 := by
  rw [bitmapSize_toNat] at nearly ⊢
  omega

@[simp] theorem freeUsable_highestPage (pmm : State) (memmap : List MmapEntry) :
    (freeUsable pmm memmap).highestPage = pmm.highestPage := by
  induction memmap generalizing pmm with
  | nil => rfl
  | cons entry rest ih =>
    refine (ih _).trans ?_
    rw [freeEntry]
    grind [pmmFreePages_highestPage]

theorem initPmm_limit (memory : BitVec 64 → BitVec 8) (memmap : List MmapEntry) :
    (initPmm memory memmap).limit = (findHighest memmap).toNat / 4096 := by
  simp [State.limit, initPmm, pageSize]

/-- The bitmap has a bit for every page that `init_pmm` clears or `pmalloc` tests
exactly if the number of pages below the highest address is not one to seven above a
multiple of 32768 and no usable entry is left that reaches `2 ^ 64` with a page or
more, short of a bitmap for the whole address space. -/
theorem bitmap_covers_iff (memory : BitVec 64 → BitVec 8) (memmap : List MmapEntry) :
    (∀ page, Cleared memmap page ∨ page < (initPmm memory memmap).limit →
      page < 8 * (bitmapSize (findHighest memmap)).toNat) ↔
    ((findHighest memmap).toNat / 4096 % 32768 = 0 ∨ 8 ≤ (findHighest memmap).toNat / 4096 % 32768) ∧
      ∀ entry ∈ (carve (bitmapSize (findHighest memmap)) memmap).2, entry.type = stivale2MmapUsable →
        4096 ≤ entry.length.toNat → 2 ^ 64 ≤ entry.base.toNat + entry.length.toNat →
        2 ^ 52 - 32768 < (findHighest memmap).toNat / 4096 := by
  rw [← limit_le_iff, initPmm_limit]
  constructor
  · intro covers
    have limit : (findHighest memmap).toNat / 4096 ≤ 8 * (bitmapSize (findHighest memmap)).toNat := by
      by_contra short
      exact Nat.lt_irrefl _ (covers _ (.inr (Nat.not_le.mp short)))
    refine ⟨limit, fun entry member usable some past => ?_⟩
    obtain ⟨page, run, high⟩ := inRun_high past entry.base.isLt some
    exact (whole_space_iff _ limit).mp (Nat.lt_of_le_of_lt high (covers page (.inl ⟨entry, member, usable, run⟩)))
  · rintro ⟨limit, high⟩ page (⟨entry, member, usable, run⟩ | tested)
    · by_cases past : 2 ^ 64 ≤ entry.base.toNat + entry.length.toNat
      · have some : 4096 ≤ entry.length.toNat := by
          obtain ⟨i, turn, _⟩ := run
          rw [pageSize] at turn
          omega
        rw [whole_space ((whole_space_iff _ limit).mpr (high entry member usable some past))]
        exact inRun_lt run
      · have inside := Nat.not_le.mp past
        have ends := end_le_highest member usable inside
        exact Nat.lt_of_lt_of_le (inRun_below inside run) (Nat.le_trans (Nat.div_le_div_right ends) limit)
    · exact Nat.lt_of_lt_of_le tested limit

/-- One usable entry of 32769 pages, 128 MiB and a page. -/
def oneMore : List MmapEntry := [⟨0, 0x8001000, stivale2MmapUsable⟩]

/-- Its bitmap has 32768 bits. Page 32768 is cleared and tested. -/
theorem oneMore_not_covered :
    8 * (bitmapSize (findHighest oneMore)).toNat = 32768 ∧ Cleared oneMore 32768 ∧
      32768 < (initPmm (fun _ => 0) oneMore).limit := by
  refine ⟨by decide, ⟨⟨0x1000, 0x8000000, stivale2MmapUsable⟩, by decide, rfl, 32767, by decide, by decide⟩, ?_⟩
  rw [initPmm_limit]
  decide

/-! ### The first free set -/

theorem taken_freeUsable_iff (pmm : State) (memmap : List MmapEntry) :
    (freeUsable pmm memmap).Taken page ↔ pmm.Taken page ∧ ¬ ∃ entry ∈ memmap,
      entry.type = stivale2MmapUsable ∧ InRun entry.base.toNat (entry.length.toNat / pageSize) page := by
  induction memmap generalizing pmm with
  | nil => simp [freeUsable]
  | cons entry rest ih =>
    have one : (freeEntry pmm entry).Taken page ↔ pmm.Taken page ∧ ¬(entry.type = stivale2MmapUsable ∧
        InRun entry.base.toNat (entry.length.toNat / pageSize) page) := by
      grind [freeEntry, taken_pmmFreePages_iff]
    simp_all [freeUsable, and_assoc]

theorem taken_filled (memory : BitVec 64 → BitVec 8) (bitmap size highestPage : BitVec 64)
    (inside : page < 8 * size.toNat) :
    State.Taken ⟨filled memory bitmap size, highestPage.toNat, highestPage.isLt⟩ page := by
  have full : filled memory bitmap size (page / 8) = 0xff := if_pos (by omega)
  rw [State.Taken, bitTest_eq_getLsbD]
  change (filled memory bitmap size (page / 8)).getLsbD (page % 8) = true
  rw [full]
  have bits : ∀ i < 8, (0xff : BitVec 8).getLsbD i = true := by decide
  exact bits _ (Nat.mod_lt _ (by decide))

theorem free_initPmm_iff (memory : BitVec 64 → BitVec 8) (memmap : List MmapEntry)
    (inside : page < 8 * (bitmapSize (findHighest memmap)).toNat) :
    ¬(initPmm memory memmap).Taken page ↔ Cleared memmap page := by
  rw [initPmm, taken_freeUsable_iff, and_iff_right (taken_filled memory _ _ _ inside), not_not, Cleared]

/-- The bytes of an entry. -/
def MmapEntry.Holds (entry : MmapEntry) (adr : BitVec 64) : Prop := adr - entry.base < entry.length

/-- A byte of a page. -/
def byteOf (page offset : Nat) : BitVec 64 := .ofNat 64 (page * pageSize + offset)

/-- How many pages behind another one a page is, around the address space. -/
def behind (page first : Nat) : Nat := (page + 2 ^ 52 - first) % 2 ^ 52

theorem inRun_iff_behind (small : page < 2 ^ 52) (start : first < 2 ^ 52) (whole : count ≤ 2 ^ 52) :
    InRun (first * pageSize) count page ↔ behind page first < count := by
  simp only [InRun, pageSize, wordSize, behind]
  constructor
  · rintro ⟨i, turn, rfl⟩
    omega
  · intro near
    exact ⟨_, near, by omega⟩

theorem byteOf_sub_lt_iff (small : page < 2 ^ 52) (start : first < 2 ^ 52) (offset : k < pageSize)
    (base : adr = BitVec.ofNat 64 (first * pageSize)) :
    (byteOf page k - adr).toNat < count * pageSize ↔ behind page first < count := by
  rw [base, byteOf, BitVec.toNat_sub]
  simp only [BitVec.toNat_ofNat, behind, pageSize] at offset ⊢
  omega

/-- The bytes of the bitmap, which is reached through `PHYS_MEM_OFFSET`. -/
def InBitmap (memmap : List MmapEntry) (adr : BitVec 64) : Prop :=
  adr + physMemOffset - pmmBitmap (carve (bitmapSize (findHighest memmap)) memmap).1 < bitmapSize (findHighest memmap)

/-- What the bootloader guarantees of usable entries. -/
structure Orderly (memmap : List MmapEntry) : Prop where
  aligned : ∀ entry ∈ memmap, entry.type = stivale2MmapUsable →
    entry.base.toNat % pageSize = 0 ∧ entry.length.toNat % pageSize = 0
  apart : memmap.Pairwise fun a b => a.type = stivale2MmapUsable → b.type = stivale2MmapUsable →
    ∀ adr, ¬(a.Holds adr ∧ b.Holds adr)

theorem carve_splits {size : BitVec 64} {memmap : List MmapEntry}
    (holder : ∃ entry ∈ memmap, entry.type = stivale2MmapUsable ∧ size ≤ entry.length) :
    ∃ before whole after, memmap = before ++ whole :: after ∧ whole.type = stivale2MmapUsable ∧
      size ≤ whole.length ∧ carve size memmap = (some whole.base, before ++ whole.shrink size :: after) := by
  induction memmap with
  | nil =>
    obtain ⟨_, none, _⟩ := holder
    cases none
  | cons head rest ih =>
    rw [carve]
    split
    next holds => exact ⟨[], head, rest, rfl, holds.1, holds.2, rfl⟩
    next small =>
      obtain ⟨entry, member, holds⟩ := holder
      have later : entry ∈ rest := by
        rcases List.mem_cons.mp member with rfl | later
        · exact absurd holds small
        · exact later
      obtain ⟨before, whole, after, rfl, usable, fits, carved⟩ := ih ⟨entry, later, holds⟩
      rw [carved]
      grind

theorem whole_pages (aligned : bytes % pageSize = 0) : bytes = bytes / pageSize * pageSize :=
  (Nat.div_mul_cancel (Nat.dvd_of_mod_eq_zero aligned)).symm

theorem base_eq {entry : MmapEntry} (aligned : entry.base.toNat % pageSize = 0) :
    entry.base = BitVec.ofNat 64 (entry.base.toNat / pageSize * pageSize) := by
  grind [whole_pages]

theorem page_bound (word : BitVec 64) : word.toNat / pageSize < 2 ^ 52 := by
  have := word.isLt
  rw [pageSize]
  omega

section Entries
variable {entry : MmapEntry} (base : entry.base.toNat % pageSize = 0) (length : entry.length.toNat % pageSize = 0)
  (small : page < 2 ^ 52)
include base small

theorem run_iff :
    InRun entry.base.toNat (entry.length.toNat / pageSize) page ↔
      behind page (entry.base.toNat / pageSize) < entry.length.toNat / pageSize := by
  rw [whole_pages base, inRun_iff_behind small (page_bound _) (Nat.le_of_lt (page_bound _)), ← whole_pages base]

include length in
theorem holds_iff (offset : k < pageSize) :
    entry.Holds (byteOf page k) ↔ behind page (entry.base.toNat / pageSize) < entry.length.toNat / pageSize := by
  rw [MmapEntry.Holds, BitVec.lt_def, whole_pages length,
    byteOf_sub_lt_iff small (page_bound _) offset (base_eq base), ← whole_pages length]

include length in
theorem run_shrink_iff {size : BitVec 64} (pages : size.toNat % pageSize = 0) (fits : size ≤ entry.length) :
    InRun (entry.shrink size).base.toNat ((entry.shrink size).length.toNat / pageSize) page ↔
      size.toNat / pageSize ≤ behind page (entry.base.toNat / pageSize) ∧
        behind page (entry.base.toNat / pageSize) < entry.length.toNat / pageSize := by
  have fits := BitVec.le_def.mp fits
  have start : (entry.shrink size).base.toNat = (entry.base.toNat + size.toNat) % 2 ^ 64 := BitVec.toNat_add _ _
  have rest : (entry.shrink size).length.toNat = entry.length.toNat - size.toNat :=
    BitVec.toNat_sub_of_le (BitVec.le_def.mpr fits)
  have aligned : (entry.shrink size).base.toNat % pageSize = 0 := by
    simp only [pageSize] at *
    omega
  rw [run_iff aligned small, start, rest]
  simp only [behind, pageSize] at *
  omega

end Entries

theorem bitmapSize_pages (highestPage : BitVec 64) : (bitmapSize highestPage).toNat % pageSize = 0 := by
  rw [bitmapSize_toNat, pageSize]
  omega

theorem bitmap_space (highestPage : BitVec 64) : 8 * (bitmapSize highestPage).toNat ≤ 2 ^ 52 := by
  have bound := highestPage.isLt
  rw [bitmapSize_toNat]
  omega

theorem mem_middle_iff {before after : List MmapEntry} :
    entry ∈ before ++ middle :: after ↔ entry = middle ∨ entry ∈ before ++ after := by
  grind

theorem inBitmap_iff {memmap : List MmapEntry} {whole : MmapEntry} (small : page < 2 ^ 52)
    (carved : carve (bitmapSize (findHighest memmap)) memmap = (some whole.base, left))
    (base : whole.base.toNat % pageSize = 0) :
    (∃ k < pageSize, InBitmap memmap (byteOf page k)) ↔
      behind page (whole.base.toNat / pageSize) < (bitmapSize (findHighest memmap)).toNat / pageSize := by
  have size := whole_pages (bitmapSize_pages (findHighest memmap))
  have one (k : Nat) (offset : k < pageSize) : InBitmap memmap (byteOf page k) ↔
      behind page (whole.base.toNat / pageSize) < (bitmapSize (findHighest memmap)).toNat / pageSize := by
    rw [InBitmap, carved, pmmBitmap, add_sub_add_right_eq_sub, BitVec.lt_def, size,
      byteOf_sub_lt_iff small (page_bound _) offset (base_eq base), ← size]
  exact ⟨fun ⟨k, offset, inside⟩ => (one k offset).mp inside, fun near => ⟨0, by decide, (one 0 (by decide)).mpr near⟩⟩

/-- Below the size of the bitmap a page is free after `init_pmm` exactly if it lies in
a usable entry of the map and is not one of the pages of the bitmap. -/
theorem free_set_exact (memory : BitVec 64 → BitVec 8) {memmap : List MmapEntry} (orderly : Orderly memmap)
    (holder : ∃ entry ∈ memmap, entry.type = stivale2MmapUsable ∧ bitmapSize (findHighest memmap) ≤ entry.length)
    (inside : page < 8 * (bitmapSize (findHighest memmap)).toNat) :
    ¬(initPmm memory memmap).Taken page ↔
      (∃ entry ∈ memmap, entry.type = stivale2MmapUsable ∧ ∀ k < pageSize, entry.Holds (byteOf page k)) ∧
        ¬ ∃ k < pageSize, InBitmap memmap (byteOf page k) := by
  have small : page < 2 ^ 52 := Nat.lt_of_lt_of_le inside (bitmap_space _)
  have pages := bitmapSize_pages (findHighest memmap)
  obtain ⟨before, whole, after, split, usable, fits, carved⟩ := carve_splits holder
  have wholeMember : whole ∈ memmap := split ▸ mem_middle_iff.mpr (.inl rfl)
  obtain ⟨base, length⟩ := orderly.aligned whole wholeMember usable
  have others : ∀ entry ∈ before ++ after, entry.type = stivale2MmapUsable → entry.Holds (byteOf page 0) →
      (bitmapSize (findHighest memmap)).toNat / pageSize ≤ behind page (whole.base.toNat / pageSize) := by
    intro entry member other holds
    by_contra near
    have apart := orderly.apart
    rw [split, List.pairwise_middle (fun apart usable usable' adr both =>
      apart usable' usable adr both.symm), List.pairwise_cons] at apart
    refine apart.1 entry member usable other _ ⟨(holds_iff base length small (by decide)).mpr ?_, holds⟩
    exact Nat.lt_of_lt_of_le (Nat.not_le.mp near) (Nat.div_le_div_right (BitVec.le_def.mp fits))
  rw [free_initPmm_iff memory memmap inside, Cleared, inBitmap_iff small carved base, Nat.not_lt, carved]
  constructor
  · rintro ⟨entry, member, free, run⟩
    rcases mem_middle_iff.mp member with rfl | member
    · obtain ⟨behind, near⟩ := (run_shrink_iff base length small pages fits).mp run
      exact ⟨⟨whole, wholeMember, usable, fun k offset => (holds_iff base length small offset).mpr near⟩, behind⟩
    · have kept : entry ∈ memmap := split ▸ mem_middle_iff.mpr (.inr member)
      obtain ⟨base, length⟩ := orderly.aligned entry kept free
      have near := (run_iff base small).mp run
      exact ⟨⟨entry, kept, free, fun k offset => (holds_iff base length small offset).mpr near⟩,
        others entry member free ((holds_iff base length small (by decide)).mpr near)⟩
  · rintro ⟨⟨entry, member, free, holds⟩, behind⟩
    obtain ⟨base', length'⟩ := orderly.aligned entry member free
    have near := (holds_iff base' length' small (by decide)).mp (holds 0 (by decide))
    rw [split] at member
    rcases mem_middle_iff.mp member with rfl | member
    · exact ⟨_, mem_middle_iff.mpr (.inl rfl), usable, (run_shrink_iff base length small pages fits).mpr ⟨behind, near⟩⟩
    · exact ⟨entry, mem_middle_iff.mpr (.inr member), free, (run_iff base' small).mpr near⟩

/-- Two usable entries around a reserved one. -/
def smallMap : List MmapEntry :=
  [⟨0x10000, 0x4000, stivale2MmapUsable⟩, ⟨0x14000, 0x1000, 2⟩, ⟨0x20000, 0x8000, stivale2MmapUsable⟩]

theorem smallMap_orderly : Orderly smallMap where
  aligned entry member _ := by
    revert entry
    decide
  apart := by
    grind [smallMap, MmapEntry.Holds]

theorem smallMap_free : ¬(initPmm (fun _ => 0) smallMap).Taken 17 := by
  refine (free_set_exact (fun _ => 0) smallMap_orderly ⟨_, List.mem_cons_self, rfl, by decide⟩ (by decide)).mpr ⟨?_, ?_⟩
  · refine ⟨_, List.mem_cons_self, rfl, fun k offset => ?_⟩
    simp only [MmapEntry.Holds, byteOf, pageSize] at offset ⊢
    bv_omega
  · rintro ⟨k, offset, inside⟩
    have bitmap : pmmBitmap (carve (bitmapSize (findHighest smallMap)) smallMap).1 = 0x10000#64 + physMemOffset := by decide
    have size : bitmapSize (findHighest smallMap) = 0x1000#64 := by decide
    rw [InBitmap, bitmap, size, add_sub_add_right_eq_sub] at inside
    simp only [byteOf, pageSize] at offset inside
    bv_omega

end MandelbrotOS.PmmInit
