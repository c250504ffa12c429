import Mathlib.Algebra.Group.Nat.Defs
import Mathlib.Tactic.Common

/-! How many bytes there are behind the pointer that `kmalloc` returns. A request is
taken as a `size_t`, but `allocate_new_page` of `mm/liballoc.c` has it as an
`unsigned int`: from 4 GiB on, less the headers, the pages are too few for it. The
heap is taken to be one on which no such request was made before. -/
namespace MandelbrotOS.Kheap

/-- `allocate_new_page`: the bytes of the pages it asks for. A `liballoc_major` and a
`liballoc_minor` have 40 bytes each, and there are 16 pages at least. -/
def allocateNewPage (size : Nat) : Nat :=
  let st := (size + 40 + 40) % 2 ^ 32
  max (if st % 4096 = 0 then st / 4096 else st / 4096 + 1) 16 * 4096

/-- The bytes of the block `liballoc_malloc` returns. It adds 32 bytes for the
alignment; in new pages the block begins behind both headers and the first 16 of
these. -/
def kmallocSize (request : Nat) : Nat :=
  let size := (request + 32) % 2 ^ 64
  if size = 0 then 1 else min (size - 32) (allocateNewPage size - 96)

/-- A request that is small enough to be served in full. -/
def Servable (request : Nat) : Prop := request + 112 < 2 ^ 32

instance (request : Nat) : Decidable (Servable request) := inferInstanceAs (Decidable (_ < _))

theorem le_allocateNewPage (size : Nat) : (size + 80) % 2 ^ 32 ≤ allocateNewPage size := by
  rw [allocateNewPage]
  split <;> omega

theorem allocateNewPage_le (size : Nat) : allocateNewPage size ≤ (size + 80) % 2 ^ 32 + 65536 := by
  rw [allocateNewPage]
  split <;> omega

theorem kmallocSize_servable (servable : Servable request) : kmallocSize request = request := by
  have enough := le_allocateNewPage (request + 32)
  rw [Servable] at servable
  rw [kmallocSize, Nat.mod_eq_of_lt (by omega : request + 32 < 2 ^ 64)]
  rw [Nat.mod_eq_of_lt (by omega)] at enough
  rw [if_neg (by omega)]
  omega

theorem kmallocSize_short (refused : ¬ Servable request) : kmallocSize request < request := by
  have few := allocateNewPage_le ((request + 32) % 2 ^ 64)
  rw [Servable] at refused
  rw [kmallocSize]
  split <;> omega

theorem kmallocSize_le (request : Nat) : kmallocSize request ≤ request := by
  by_cases servable : Servable request
  · exact Nat.le_of_eq (kmallocSize_servable servable)
  · exact Nat.le_of_lt (kmallocSize_short servable)

theorem le_kmallocSize_iff : request ≤ kmallocSize request ↔ Servable request := by
  constructor
  · intro enough
    by_contra refused
    exact absurd enough (Nat.not_le.mpr (kmallocSize_short refused))
  · exact fun servable => Nat.le_of_eq (kmallocSize_servable servable).symm

end MandelbrotOS.Kheap
