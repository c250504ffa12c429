import Mathlib.Data.Finset.Card
import Mathlib.Data.Nat.Find
import MandelbrotOS.PageTables
import MandelbrotOS.PmmProofs

/-! The allocator of `mm/pmm.c` as the source of page tables. Single pages it
hands out are free before and taken afterwards, whatever the bitmap is, and
they last as long as free pages below its bound do. -/
namespace MandelbrotOS.PmmSupply
open Pmm PmmProofs Vmm PageTables

theorem pmm_handsOut_page : HandsOut pmmAllocator State.Taken 1 where
  given := by
    intro pmm after adr ran
    obtain ⟨_, lowest, inside, free, _, rfl, rfl⟩ := pmalloc_cases ran
    have fits : (lowest + 1) * pageSize ≤ wordSize := fits_of_below_limit inside
    refine ⟨lowest, rfl, ?_, ?_, fun page => taken_pmmAllocPages pmm fits⟩
    · simp only [pageSize, wordSize] at fits
      omega
    · intro page low high
      rw [show page = lowest by omega]
      exact free

theorem pcalloc_lowest {s s' : Vmm.State Pmm.State} (ran : pcalloc pmmAllocator s pages = some (adr, s')) :
    ∃ lowest < 2 ^ 52, ¬ s.alloc.Taken lowest ∧ (∀ page ≤ lowest, s'.alloc.Taken page) ∧ adr = lowest * pageSize ∧
      0 < pages ∧ ∀ page, s'.alloc.Taken page ↔ s.alloc.Taken page ∨ InRun adr pages page := by
  obtain ⟨positive, lowest, inside, free, below, rfl, after⟩ := pmalloc_cases (pcalloc_eq ran).1
  have fits : (lowest + 1) * pageSize ≤ wordSize := fits_of_below_limit inside
  have taken (page : Nat) : s'.alloc.Taken page ↔ s.alloc.Taken page ∨ InRun (lowest * pageSize) pages page := by
    rw [after, taken_pmmAllocPages_iff]
  refine ⟨lowest, ?_, free, fun page upTo => (taken page).mpr ?_, rfl, positive, taken⟩
  · simp only [pageSize, wordSize] at fits
    omega
  · rcases Nat.lt_or_eq_of_le upTo with less | rfl
    · exact Or.inl (below page less)
    · refine Or.inr ⟨0, positive, ?_⟩
      rw [page_of_turn fits Nat.one_pos, Nat.add_zero]

/-- The pages `pmalloc` can still hand out. -/
def freePages (pmm : State) : Finset Nat := {page ∈ Finset.range pmm.limit | ¬ pmm.Taken page}

theorem mem_freePages : page ∈ freePages pmm ↔ page < pmm.limit ∧ ¬ pmm.Taken page := by
  rw [freePages, Finset.mem_filter, Finset.mem_range]

theorem pmm_stocked : Stocked pmmAllocator fun pmm => (freePages pmm).card where
  serves := by
    intro pmm some
    obtain ⟨page, member⟩ := Finset.card_pos.mp some
    obtain ⟨inside, free⟩ := mem_freePages.mp member
    have exists_free : ∃ page, ¬ pmm.Taken page := ⟨page, free⟩
    have least : Nat.find exists_free ≤ page := Nat.find_min' exists_free free
    refine ⟨_, pmalloc_returns Nat.one_pos (Nat.lt_of_le_of_lt least inside)
      (Nat.find_spec exists_free) fun earlier below => ?_⟩
    simp_all
  used := by
    intro pmm after adr ran
    obtain ⟨_, lowest, inside, free, _, rfl, rfl⟩ := pmalloc_cases ran
    have fits : (lowest + 1) * pageSize ≤ wordSize := fits_of_below_limit inside
    have left : freePages (pmmAllocPages pmm (lowest * pageSize) 1) = (freePages pmm).erase lowest := by
      grind [mem_freePages, taken_pmmAllocPages, State.limit, pmmAllocPages_highestPage]
    grind [mem_freePages]

end MandelbrotOS.PmmSupply
