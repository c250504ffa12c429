import MandelbrotOS.MmapQuota

/-! Refused calls of `syscall_mmap`. The pages are counted and the address is
taken from `mmap_top` before the last checks are made, and a call that one of those
refuses gives neither back. -/
namespace MandelbrotOS.MmapFailures
open Descriptors Mmap MmapQuota PageTables Pmm UserRequests Vfs Vmm

variable {α : Type}

/-- What a refused call is to leave: the counters, the ranges and every
translation. -/
structure Untouched (p p' : Process α) : Prop where
  mmapedLen : p'.mmapedLen = p.mmapedLen
  mmapTop : p'.mmapTop = p.mmapTop
  ranges : p'.ranges = p.ranges
  translations : ∀ virtualAddress, translation p'.state.mem p'.topLevel virtualAddress =
    translation p.state.mem p.topLevel virtualAddress

section
variable {A : Allocator α} {p p' : Process α} {args : MmapArgs} {errno : Nat}

theorem mmapAt_refused (ran : mmapAt A p args addr = some (.error errno, p')) :
    ∃ alloc, p' = { p with state := { p.state with alloc := alloc } } := by
  unfold mmapAt at ran
  dsimp only at ran
  split at ran
  · grind [Option.bind_eq_some_iff, pcalloc]
  · split at ran
    · cases ran
      exact ⟨_, rfl⟩
    split at ran
    · cases ran
    split at ran
    · cases ran
      exact ⟨_, rfl⟩
    split at ran
    · cases ran
      exact ⟨_, rfl⟩
    split at ran <;> cases ran

theorem syscallMmap_refused (ran : syscallMmap A p args = some (.error errno, p')) :
    ¬ Counted p args ∧ p' = p ∨
      Counted p args ∧ ∃ alloc, p' = { counted p args with state := { p.state with alloc := alloc } } := by
  by_cases checked : Counted p args
  · refine Or.inr ⟨checked, ?_⟩
    rw [syscallMmap_counted checked] at ran
    split at ran
    · cases ran
      exact ⟨_, rfl⟩
    · exact mmapAt_refused ran
  · obtain ⟨errno', refused⟩ := syscallMmap_uncounted (A := A) checked
    simp_all

theorem counted_same_iff (len : p.mmapedLen < wordSize) (size : args.length < wordSize)
    (positive : args.length ≠ 0) :
    (counted p args).mmapedLen = p.mmapedLen ∧ (counted p args).mmapTop = p.mmapTop ↔
      has (args.flags.setWidth 32) mapFixed = true ∧ wordSize - pageSize < args.length := by
  simp only [counted, neededPages, wordSize, pageSize] at len size ⊢
  grind

/-- A refused call leaves everything as it was when it is refused before its
pages are counted, or when there are none to count and the address is the
caller's. -/
theorem refused_untouched_iff (len : p.mmapedLen < wordSize) (size : args.length < wordSize)
    (ran : syscallMmap A p args = some (.error errno, p')) :
    Untouched p p' ↔ ¬ Counted p args ∨
      has (args.flags.setWidth 32) mapFixed = true ∧ wordSize - pageSize < args.length := by
  obtain ⟨unchecked, rfl⟩ | ⟨checked, alloc, rfl⟩ := syscallMmap_refused ran
  · exact iff_of_true ⟨rfl, rfl, rfl, fun _ => rfl⟩ (Or.inl unchecked)
  · have counters := counted_same_iff len size checked.length
    constructor
    · intro untouched
      exact Or.inr (counters.mp ⟨untouched.mmapedLen, untouched.mmapTop⟩)
    · rintro (unchecked | none)
      · exact absurd checked unchecked
      · obtain ⟨sameLen, sameTop⟩ := counters.mpr none
        exact ⟨sameLen, sameTop, rfl, fun _ => rfl⟩

end

theorem large_request_untouched : ∃ p p' errno, firstProcess = some p ∧
    syscallMmap pmmAllocator p (misaligned (mmapMaxSize + 1)) = some (.error errno, p') ∧ Untouched p p' := by
  obtain ⟨p, _, started, -⟩ := firstProcess_ready
  have fresh := firstProcess_fresh started
  have unchecked : ¬ Counted p (misaligned (mmapMaxSize + 1)) := by
    intro checked
    have room := checked.room
    rw [fresh.mmapedLen] at room
    exact absurd room (by decide)
  obtain ⟨errno, ran⟩ := syscallMmap_uncounted (A := pmmAllocator) unchecked
  refine ⟨p, p, errno, started, ran, (refused_untouched_iff ?_ (by decide) ran).mpr (Or.inl unchecked)⟩
  rw [fresh.mmapedLen]
  decide

/-- A page asked for at an odd address is counted and not given. -/
theorem misaligned_page_counted : ∃ p p', firstProcess = some p ∧
    syscallMmap pmmAllocator p (misaligned 0x1000) = some (.error einval, p') ∧
    p.mmapedLen = 0 ∧ p'.mmapedLen = 0x1000 ∧ ¬ Untouched p p' := by
  obtain ⟨p, _, started, -⟩ := firstProcess_ready
  have fresh := firstProcess_fresh started
  have len : (p.mmapedLen + neededPages 0x1000 * pageSize) % wordSize = 0x1000 := by
    rw [fresh.mmapedLen]
    decide
  have ran : syscallMmap pmmAllocator p (misaligned 0x1000) = some (.error einval,
      { p with mmapedLen := (p.mmapedLen + neededPages 0x1000 * pageSize) % wordSize }) :=
    syscallMmap_misaligned p (by decide) (by rw [len]; decide)
  refine ⟨p, _, started, ran, fresh.mmapedLen, len, fun untouched => ?_⟩
  have same := len.symm.trans untouched.mmapedLen
  rw [fresh.mmapedLen] at same
  omega

end MandelbrotOS.MmapFailures
