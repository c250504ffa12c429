import MandelbrotOS.Mmap
import MandelbrotOS.PageTables

/-! The loops that map and unmap the pages of a range. Each writes entries for
the pages it goes through and no others, and an unmapped page stays so. -/
namespace MandelbrotOS.RangeMapping
open Mmap PageLoops PageTables Pmm Runs Vectors Vmm

variable {α : Type}

/-- The call unmaps the page of the address. -/
def Unmaps (addr : BitVec 64) (length : Nat) (page : BitVec 64) : Prop :=
  ∃ virtualAddress, PagesFrom addr length virtualAddress ∧ pageOf page = pageOf virtualAddress

/-- The loop of `syscall_munmap`. -/
def unmapPages (A : Allocator α) (top : Nat) (addr : BitVec 64) (length : Nat) (s : State α) :
    Option (State α) :=
  forPages (fun s i => vmmUnmapPage A s (top * pageSize) (addr + BitVec.ofNat 64 i)) length s

theorem releaseFrames_mem (A : Allocator α) (p : Process α) (range : MmapRange) :
    (releaseFrames A p range).state.mem = p.state.mem := by
  rw [releaseFrames]
  split <;> rfl

section
variable {A : Allocator α} {busy : α → Nat → Prop} {shared : Fin 512 → Prop} {roots : Set Nat}
  {spare : α → Nat}

theorem unmapPages_confined (fresh : HandsOut A busy 1) (tables : Tables busy s shared roots)
    (member : top ∈ roots) (ran : unmapPages A top addr length s = some s') :
    Confined busy shared roots s s' top (PagesFrom addr length) := by
  have turn (middle : State α) (page : Nat) (later : State α)
      (holds : Confined busy shared roots s middle top (PagesFrom addr length))
      (inside : page < pageTurns length)
      (turned : vmmUnmapPage A middle (top * pageSize) (addr + BitVec.ofNat 64 (page * pageSize)) =
        some later) : Confined busy shared roots s later top (PagesFrom addr length) := by
    have entered := vmmUnmapPage_entered fresh holds.tables member turned
    exact confined_trans holds (confined_of_entered entered ⟨page, inside, rfl⟩)
  unfold unmapPages at ran
  have confined := forPages_keeps ran turn (confined_of_grown (grown_refl tables) top _)
  exact confined

theorem unmapPages_spec (fresh : HandsOut A busy 1) (tables : Tables busy s shared roots)
    (member : top ∈ roots) (ran : unmapPages A top addr length s = some s') :
    Tables busy s' shared roots ∧
      (∀ page, Unmaps addr length page → translation s'.mem top page = 0) ∧
      ∀ page, ¬ Unmaps addr length page → translation s'.mem top page = translation s.mem top page := by
  have confined := unmapPages_confined fresh tables member ran
  refine ⟨confined.tables, ?_, fun page apart => confined.outside top member page
    fun other touches both => apart ⟨other, touches, both.1⟩⟩
  rintro probe ⟨_, ⟨page, inside, rfl⟩, same⟩
  unfold unmapPages at ran
  rw [forPages_eq (short_of_forPages ran)] at ran
  -- a page stays unmapped once the loop has been at it
  have turn (middle : State α) (i : Nat) (later : State α) (holds : Tables busy middle shared roots)
      (turned : vmmUnmapPage A middle (top * pageSize) (addr + BitVec.ofNat 64 i) = some later) :
      Tables busy later shared roots ∧
        (pageOf probe = pageOf (addr + BitVec.ofNat 64 i) → translation later.mem top probe = 0) ∧
        ∀ other : Nat, (pageOf probe = pageOf (addr + BitVec.ofNat 64 other) →
            translation middle.mem top probe = 0) →
          pageOf probe = pageOf (addr + BitVec.ofNat 64 other) → translation later.mem top probe = 0 := by
    have entered := vmmUnmapPage_entered fresh holds member turned
    refine ⟨entered.tables, fun here => entered.seen top member probe here (Or.inl rfl), ?_⟩
    intro other already there
    by_cases here : pageOf probe = pageOf (addr + BitVec.ofNat 64 i)
    · exact entered.seen top member probe here (Or.inl rfl)
    · rw [entered.unseen top member probe fun both => here both.1]
      exact already there
  obtain ⟨_, done, _⟩ := foldlM_establishes turn tables ran
  grind

theorem unmapPages_returns (stocked : Stocked A spare) (s : State α)
    (short : length ≤ wordSize - pageSize) (enough : 3 * pageTurns length ≤ spare s.alloc)
    (top : Nat) (addr : BitVec 64) : ∃ s', unmapPages A top addr length s = some s' := by
  have turn (s : State α) (i : Nat) (enough : 3 ≤ spare s.alloc) :
      ∃ s', vmmUnmapPage A s (top * pageSize) (addr + BitVec.ofNat 64 i) = some s' ∧
        spare s.alloc ≤ spare s'.alloc + 3 :=
    vmmUnmapPage_returns stocked s enough _ _
  rw [unmapPages, forPages_eq short]
  obtain ⟨s', ran, _⟩ := foldlM_returns turn ((List.range (pageTurns length)).map (· * pageSize))
    (by rw [List.length_map, List.length_range]; exact enough)
  exact ⟨s', ran⟩

theorem mapPages_confined (fresh : HandsOut A busy 1) (tables : Tables busy s shared roots)
    (member : top ∈ roots)
    (ran : forPages (fun s i => vmmMapPage A s (top * pageSize) (physAddr + BitVec.ofNat 64 i)
      (virtAddr + BitVec.ofNat 64 i) flags) length s = some s') :
    Confined busy shared roots s s' top (PagesFrom virtAddr length) := by
  have turn (middle : State α) (page : Nat) (later : State α)
      (holds : Confined busy shared roots s middle top (PagesFrom virtAddr length))
      (inside : page < pageTurns length)
      (turned : vmmMapPage A middle (top * pageSize) (physAddr + BitVec.ofNat 64 (page * pageSize))
        (virtAddr + BitVec.ofNat 64 (page * pageSize)) flags = some later) :
      Confined busy shared roots s later top (PagesFrom virtAddr length) := by
    have entered := vmmMapPage_entered fresh holds.tables member turned
    exact confined_trans holds (confined_of_entered entered ⟨page, inside, rfl⟩)
  have confined := forPages_keeps ran turn (confined_of_grown (grown_refl tables) _ _)
  exact confined

theorem vmmMmapRange_spec (fresh : HandsOut A busy 1) (tables : Tables busy p.state shared roots)
    (member : p.topLevel ∈ roots)
    (ran : vmmMmapRange A p physAddr virtAddr length flags prot = some p') :
    Confined busy shared roots p.state p'.state p.topLevel (PagesFrom virtAddr length) ∧
      p' = { p with
        state := p'.state
        ranges := vecPush p.ranges ⟨none, physAddr, virtAddr, 0, length, flags ||| mapAnon, prot⟩ } := by
  simp only [vmmMmapRange, bind_returns, Option.some.injEq] at ran
  obtain ⟨state, looped, rfl⟩ := ran
  exact ⟨mapPages_confined fresh tables member looped, rfl⟩

theorem vmmMmapRange_page (p : Process α) (flags prot : BitVec 32)
    (mapped : vmmMapPage A p.state (p.topLevel * pageSize) physAddr virtAddr (pageFlags prot) = some state) :
    vmmMmapRange A p physAddr virtAddr pageSize flags prot = some (Process.pushRange
      { p with state := state }
      ⟨none, physAddr, virtAddr, 0, pageSize, flags ||| mapAnon, prot⟩) := by
  simp_all [vmmMmapRange, forPages_page]

theorem fbMmap_counts {inv : Nat → State α → Prop}
    (ran : fbMmap A p sfile addr size offset prot flags = some p')
    (kept : ∀ page < pageTurns size, ∀ s phys between s', inv page s →
      vmmVirtToPhys A s (p.kernelTop * pageSize) p.framebuffer = some (phys, between) →
      vmmMapPage A between (p.topLevel * pageSize) (phys + BitVec.ofNat 64 (page * pageSize))
        (addr + BitVec.ofNat 64 (page * pageSize)) (pageFlags prot) = some s' → inv (page + 1) s')
    (start : inv 0 p.state) : ∃ s phys s' last state, inv (pageTurns size) s ∧
      vmmVirtToPhys A s (p.kernelTop * pageSize) p.framebuffer = some (phys, s') ∧
      vmmVirtToPhys A s' (p.kernelTop * pageSize) p.framebuffer = some (last, state) ∧
      p' = Process.pushRange { p with state := state } ⟨some sfile, phys, addr, offset, size, flags, prot⟩ := by
  simp only [fbMmap, bind_returns, Prod.exists, Option.some.injEq] at ran
  obtain ⟨s, looped, phys, s', again, last, state, once, rfl⟩ := ran
  have turn (page : Nat) (inside : page < pageTurns size) (middle later : State α) (holds : inv page middle)
      (turned : ((vmmVirtToPhys A middle (p.kernelTop * pageSize) p.framebuffer).bind fun reply =>
        vmmMapPage A reply.2 (p.topLevel * pageSize) (reply.1 + BitVec.ofNat 64 (page * pageSize))
          (addr + BitVec.ofNat 64 (page * pageSize)) (pageFlags prot)) = some later) : inv (page + 1) later := by
    grind [Option.bind_eq_some_iff]
  exact ⟨s, phys, s', last, state, forPages_counts looped turn start, again, once, rfl⟩

theorem fbMmap_confined (fresh : HandsOut A busy 1) (tables : Tables busy p.state shared roots)
    (member : p.topLevel ∈ roots) (kernel : p.kernelTop ∈ roots)
    (ran : fbMmap A p sfile addr size offset prot flags = some p') :
    Confined busy shared roots p.state p'.state p.topLevel (PagesFrom addr size) := by
  have kept (page : Nat) (inside : page < pageTurns size) (s : State α) (phys : BitVec 64) (between s' : State α)
      (holds : Confined busy shared roots p.state s p.topLevel (PagesFrom addr size))
      (translated : vmmVirtToPhys A s (p.kernelTop * pageSize) p.framebuffer = some (phys, between))
      (mapped : vmmMapPage A between (p.topLevel * pageSize) (phys + BitVec.ofNat 64 (page * pageSize))
        (addr + BitVec.ofNat 64 (page * pageSize)) (pageFlags prot) = some s') :
      Confined busy shared roots p.state s' p.topLevel (PagesFrom addr size) := by
    have grown := (vmmVirtToPhys_grown fresh holds.tables kernel translated).2
    have entered := vmmMapPage_entered fresh grown.tables member mapped
    exact confined_trans holds (confined_trans (confined_of_grown grown _ _)
      (confined_of_entered entered ⟨page, inside, rfl⟩))
  obtain ⟨s, phys, s', last, state, confined, again, once, rfl⟩ :=
    fbMmap_counts ran kept (confined_of_grown (grown_refl tables) _ _)
  have grown := (vmmVirtToPhys_grown fresh confined.tables kernel again).2
  have grown' := (vmmVirtToPhys_grown fresh grown.tables kernel once).2
  exact confined_trans confined (confined_of_grown (grown_trans grown grown') _ _)

end

end MandelbrotOS.RangeMapping
