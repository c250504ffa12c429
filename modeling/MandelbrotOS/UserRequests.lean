import MandelbrotOS.Elf
import MandelbrotOS.KernelHalf
import MandelbrotOS.RangeMapping

/-! What a user's requests do to the kernel half of the address space. Neither
mapping, unmapping nor loading a program looks at the half an address is in,
so a request for a page of the kernel half is served like any other; what it
does not ask for stays as it was, in every pagemap. -/
namespace MandelbrotOS.UserRequests
open ByteMemory Descriptors Elf Forests KernelHalf Mmap PageLoops PageTables Pmm PmmSupply RangeMapping Runs
open Vfs Vmm

inductive UserCall where
  | mmap (args : MmapArgs)
  | munmap (addr : BitVec 64) (length : Nat)
  | runBinary (buffer : Memory)

variable {α : Type}

/-- The process after the call. -/
def serve (A : Allocator α) (p : Process α) : UserCall → Option (Process α)
  | .mmap args => (syscallMmap A p args).map Prod.snd
  | .munmap addr length => (syscallMunmap A p addr length).map Prod.snd
  | .runBinary buffer => (elfRunBinary A p buffer).map fun reply => reply.2.2

/-- Where `syscall_mmap` maps. -/
def mmapAddr (p : Process α) (args : MmapArgs) : BitVec 64 :=
  if has (args.flags.setWidth 32) mapFixed then args.addr else BitVec.ofNat 64 p.mmapTop

/-- The pages a call asks for. -/
def Requested (p : Process α) : UserCall → BitVec 64 → Prop
  | .mmap args => PagesFrom (mmapAddr p args) args.length
  | .munmap addr length => PagesFrom addr length
  | .runBinary buffer => fun page => ∃ i < (elfHeader buffer).progHeadCount.toNat,
      (progHeader buffer i).type = elfHeadLoad ∧
      PagesFrom (progHeader buffer 0).virtAddr ((progHeader buffer i).pages * pageSize) page

/-- The pages of a segment are handed out by an allocator that does not give
away what is in use, and hold what is copied to them. -/
def SegmentFits (A : Allocator α) (busy : α → Nat → Prop) (buffer : Memory) (p : Process α) (i : Nat) :
    Prop :=
  let header := progHeader buffer i
  header.type = elfHeadLoad → HandsOutAt A busy p.state.alloc header.pages ∧
    header.pageOffset.toNat + header.fileSize.toNat ≤ header.pages * pageSize

/-- Each request for memory the call makes is answered with unused pages, and
what is loaded fits into them. -/
def Backed (A : Allocator α) (busy : α → Nat → Prop) (p : Process α) : UserCall → Prop
  | .mmap args => has (args.flags.setWidth 32) mapAnon = true →
    HandsOutAt A busy p.state.alloc (neededPages args.length)
  | .munmap _ _ => True
  | .runBinary buffer => Along (loadSegment A buffer) (SegmentFits A busy buffer) p
      (List.range (elfHeader buffer).progHeadCount.toNat)

/-- Away from the given pages every pagemap translates as before. -/
def KeepsOthers (roots : Set Nat) (mem mem' : Memory) (touched : BitVec 64 → Prop) : Prop :=
  ∀ root ∈ roots, ∀ probe, (∀ page, touched page → pageOf probe ≠ pageOf page) →
    translation mem' root probe = translation mem root probe

theorem neededPages_le (length : Nat) : pageTurns (neededPages length * pageSize) ≤ pageTurns length := by
  have fewer : neededPages length ≤ pageTurns length := Nat.div_le_div_right (Nat.mod_le _ _)
  have exact_pages : pageTurns (neededPages length * pageSize) = neededPages length := by
    simp only [pageTurns, pageSize]
    omega
  rw [exact_pages]
  exact fewer

section
variable {A : Allocator α} {busy : α → Nat → Prop} {shared : Fin 512 → Prop} {roots : Set Nat}

theorem vfsMmap_confined (fresh : HandsOut A busy 1) (tables : Tables busy p.state shared roots)
    (member : p.topLevel ∈ roots) (kernel : p.kernelTop ∈ roots)
    (ran : vfsMmap A p file addr size offset prot flags = some (some p')) :
    Confined busy shared roots p.state p'.state p.topLevel (PagesFrom addr size) := by
  grind [confined_of_grown, grown_refl, vfsMmap, Option.map_eq_some_iff, fbMmap_confined]

theorem mmapAt_file (file : has (args.flags.setWidth 32) mapAnon = false)
    (ran : mmapAt A p args addr = some (reply, p')) :
    p' = p ∨ ∃ file, vfsMmap A p file addr args.length args.offset (args.prot.setWidth 32)
      (args.flags.setWidth 32) = some (some p') := by
  simp only [mmapAt, file, Bool.false_eq_true, if_false] at ran
  split at ran
  · simp_all
  · grind

theorem mmapAt_confined (fresh : HandsOut A busy 1) (tables : Tables busy p.state shared roots)
    (member : p.topLevel ∈ roots) (kernel : p.kernelTop ∈ roots) (backed : Backed A busy p (.mmap args))
    (ran : mmapAt A p args addr = some (reply, p')) :
    Confined busy shared roots p.state p'.state p.topLevel (PagesFrom addr args.length) := by
  cases anon : has (args.flags.setWidth 32) mapAnon with
  | false =>
    grind [mmapAt_file, confined_of_grown, grown_refl, vfsMmap_confined]
  | true =>
    simp only [mmapAt, anon, if_true, bind_returns, Prod.exists] at ran
    obtain ⟨givenPages, state, given, ran⟩ := ran
    have grown := (pcalloc_grown (backed anon) tables given).1
    split at ran
    · cases ran
      exact confined_of_grown grown _ _
    · obtain ⟨q, mapped, ran⟩ := Option.bind_eq_some_iff.mp ran
      cases ran
      have confined := (vmmMmapRange_spec (p := { p with state := state }) fresh grown.tables member mapped).1
      refine confined_trans (confined_of_grown grown _ _) (confined_mono confined ?_)
      rintro page ⟨k, inside, rfl⟩
      exact ⟨k, Nat.lt_of_lt_of_le inside (neededPages_le args.length), rfl⟩

/-- The request passes the checks that are made before its pages are counted. -/
structure Counted (p : Process α) (args : MmapArgs) : Prop where
  fd : args.fd > -1 → args.fd < fdsCount ∧
    ∃ file, p.fds args.fd.toNat = some file ∧ readAccepts file.flags = true
  length : args.length ≠ 0
  kind : has (args.flags.setWidth 32) mapShared = true ∨ has (args.flags.setWidth 32) mapPrivate = true
  room : (p.mmapedLen + neededPages args.length * pageSize) % wordSize ≤ mmapMaxSize

/-- The process with the pages counted and the address taken. -/
def counted (p : Process α) (args : MmapArgs) : Process α :=
  { p with
    mmapedLen := (p.mmapedLen + neededPages args.length * pageSize) % wordSize
    mmapTop := if has (args.flags.setWidth 32) mapFixed then p.mmapTop
      else (p.mmapTop + (neededPages args.length + 1) * pageSize) % wordSize }

theorem syscallMmap_counted (passes : Counted p args) : syscallMmap A p args =
    if has (args.flags.setWidth 32) mapFixed ∧ args.addr.toNat % pageSize ≠ 0 then
      some (.error einval, counted p args)
    else mmapAt A (counted p args) args (mmapAddr p args) := by
  have opened : ¬ (args.fd > -1 ∧ (args.fd ≥ fdsCount ∨ (p.fds args.fd.toNat).isNone)) := by
    rintro ⟨isFd, missing⟩
    obtain ⟨below, file, found, -⟩ := passes.fd isFd
    rw [found] at missing
    grind
  have readable : ¬ (args.fd > -1 ∧ !((p.fds args.fd.toNat).any fun file => readAccepts file.flags)) := by
    rintro ⟨isFd, refused⟩
    obtain ⟨-, file, found, readable⟩ := passes.fd isFd
    simp [found, readable] at refused
  have kind : ¬ (!has (args.flags.setWidth 32) mapShared && !has (args.flags.setWidth 32) mapPrivate) = true := by
    obtain shared | isPrivate := passes.kind
    · simp [shared]
    · simp [isPrivate]
  unfold syscallMmap
  dsimp only
  rw [if_neg opened, if_neg readable, if_neg passes.length, if_neg kind, if_neg (Nat.not_lt.mpr passes.room)]
  by_cases fixed : has (args.flags.setWidth 32) mapFixed = true
  · simp_all [counted, mmapAddr]
  · simp_all [counted, mmapAddr]

theorem syscallMmap_uncounted (fails : ¬ Counted p args) :
    ∃ errno, syscallMmap A p args = some (.error errno, p) := by
  unfold syscallMmap
  dsimp only
  split
  · exact ⟨_, rfl⟩
  rename_i opened
  split
  · exact ⟨_, rfl⟩
  rename_i readable
  split
  · exact ⟨_, rfl⟩
  rename_i positive
  split
  · exact ⟨_, rfl⟩
  rename_i kind
  split
  · exact ⟨_, rfl⟩
  rename_i room
  refine absurd ⟨fun isFd => ?_, positive, ?_, Nat.not_lt.mp room⟩ fails
  · obtain ⟨inside, present⟩ := not_or.mp fun missing => opened ⟨isFd, missing⟩
    obtain ⟨file, found⟩ := Option.ne_none_iff_exists'.mp (mt Option.isNone_iff_eq_none.mpr present)
    simp_all
  · grind

theorem syscallMmap_cases (ran : syscallMmap A p args = some (reply, p')) :
    p'.state = p.state ∨ ∃ mmapTop mmapedLen,
      mmapAt A { p with mmapTop := mmapTop, mmapedLen := mmapedLen } args (mmapAddr p args) =
        some (reply, p') := by
  by_cases passes : Counted p args
  · rw [syscallMmap_counted passes] at ran
    split at ran
    · cases ran
      exact Or.inl rfl
    · exact Or.inr ⟨_, _, ran⟩
  · obtain ⟨errno, refused⟩ := syscallMmap_uncounted (A := A) passes
    simp_all

theorem keepsOthers_of_confined (confined : Confined busy shared roots s s' root touched) :
    KeepsOthers roots s.mem s'.mem touched := by
  intro other inside probe apart
  exact confined.outside other inside probe fun page touches both => apart page touches both.1

section
variable (fresh : HandsOut A busy 1)
include fresh

section
variable {p : Process α} (tables : Tables busy p.state shared roots) (member : p.topLevel ∈ roots)
include tables member

theorem syscallMmap_keepsOthers (kernel : p.kernelTop ∈ roots) (backed : Backed A busy p (.mmap args))
    (ran : syscallMmap A p args = some (reply, p')) :
    KeepsOthers roots p.state.mem p'.state.mem (PagesFrom (mmapAddr p args) args.length) := by
  rcases syscallMmap_cases ran with same | ⟨mmapTop, mmapedLen, mapped⟩
  · rw [same]
    exact fun _ _ _ _ => rfl
  · exact keepsOthers_of_confined
      (mmapAt_confined (p := { p with mmapTop := mmapTop, mmapedLen := mmapedLen })
        fresh tables member kernel backed mapped)

theorem syscallMunmap_keepsOthers (ran : syscallMunmap A p addr length = some (result, p')) :
    KeepsOthers roots p.state.mem p'.state.mem (PagesFrom addr length) := by
  unfold syscallMunmap at ran
  split at ran
  · cases ran
    exact fun _ _ _ _ => rfl
  · simp only [bind_returns, Option.some.injEq, Prod.mk.injEq] at ran
    obtain ⟨state, looped, _, rfl⟩ := ran
    rw [releaseFrames_mem]
    exact keepsOthers_of_confined (unmapPages_confined fresh tables member looped)

theorem loadSegment_confined (fits : SegmentFits A busy buffer p i)
    (ran : loadSegment A buffer p i = some p') :
    p'.topLevel = p.topLevel ∧ Confined busy shared roots p.state p'.state p.topLevel fun page =>
      (progHeader buffer i).type = elfHeadLoad ∧
      PagesFrom (progHeader buffer 0).virtAddr ((progHeader buffer i).pages * pageSize) page := by
  unfold loadSegment at ran
  dsimp only at ran
  split at ran
  · rename_i load
    obtain ⟨backed, holds⟩ := fits load
    simp only [bind_returns, Prod.exists, Option.some.injEq] at ran
    obtain ⟨addr, s1, given, s2, looped, rfl⟩ := ran
    obtain ⟨grown, first, rfl, handed⟩ := pcalloc_grown backed tables given
    have confined := mapPages_confined fresh grown.tables member looped
    have copied (bytes : Memory) : Grown busy shared roots s2
        ⟨copy s2.mem (first * pageSize + (progHeader buffer i).pageOffset.toNat)
          (progHeader buffer i).fileSize.toNat bytes, s2.alloc⟩ := by
      refine grown_of_slots confined.tables ?_ fun _ used => used
      intro root inside path table short reached index
      refine slot_copy_apart holds ?_
      -- a table of now was one when the pages were handed out, or is newer than they are
      rcases confined.unused root inside path table short reached with old | new
      · exact handed.noTable root inside path table short old
      · exact Classical.byContradiction fun covered =>
          new (handed.inUse table (by omega) (by omega))
    exact ⟨rfl, confined_trans (confined_of_grown grown _ _)
      (confined_trans (confined_mono confined fun page touches => ⟨load, touches⟩)
        (confined_of_grown (copied _) _ _))⟩
  · simp_all [confined_of_grown, grown_refl]

theorem elfRunBinary_keepsOthers (backed : Backed A busy p (.runBinary buffer))
    (ran : elfRunBinary A p buffer = some (result, entry, p')) :
    KeepsOthers roots p.state.mem p'.state.mem (Requested p (.runBinary buffer)) := by
  unfold elfRunBinary at ran
  dsimp only at ran
  split at ran
  · cases ran
    exact fun _ _ _ _ => rfl
  · split at ran
    · cases ran
      exact fun _ _ _ _ => rfl
    · simp only [bind_returns, Option.some.injEq, Prod.mk.injEq] at ran
      obtain ⟨q, looped, _, _, rfl⟩ := ran
      have turn : ∀ i ∈ List.range (elfHeader buffer).progHeadCount.toNat, ∀ middle later : Process α,
          middle.topLevel = p.topLevel ∧ Confined busy shared roots p.state middle.state
            p.topLevel (Requested p (.runBinary buffer)) →
          SegmentFits A busy buffer middle i → loadSegment A buffer middle i = some later →
          later.topLevel = p.topLevel ∧ Confined busy shared roots p.state later.state
            p.topLevel (Requested p (.runBinary buffer)) := by
        rintro i listed middle later ⟨top, confined⟩ fits loaded
        obtain ⟨same, more⟩ := loadSegment_confined fresh confined.tables (top ▸ member) fits loaded
        rw [top] at same more
        exact ⟨same, confined_trans confined (confined_mono more fun page touches =>
          ⟨i, List.mem_range.mp listed, touches⟩)⟩
      have done := foldlM_keeps_along turn ⟨rfl, confined_of_grown (grown_refl tables) _ _⟩ backed looped
      exact keepsOthers_of_confined done.2

theorem serve_keepsOthers (kernel : p.kernelTop ∈ roots) (backed : Backed A busy p call)
    (ran : serve A p call = some p') :
    KeepsOthers roots p.state.mem p'.state.mem (Requested p call) := by
  cases call with
  | mmap args =>
    obtain ⟨⟨reply, q⟩, served, rfl⟩ := Option.map_eq_some_iff.mp ran
    exact syscallMmap_keepsOthers fresh tables member kernel backed served
  | munmap addr length =>
    obtain ⟨⟨result, q⟩, served, rfl⟩ := Option.map_eq_some_iff.mp ran
    exact syscallMunmap_keepsOthers fresh tables member served
  | runBinary buffer =>
    obtain ⟨⟨result, entry, q⟩, served, rfl⟩ := Option.map_eq_some_iff.mp ran
    grind [elfRunBinary_keepsOthers]

end

end

theorem half_of_page (same : pageOf one = pageOf other) : one.getLsbD 47 = other.getLsbD 47 := by
  have bit (address : BitVec 64) : (pageOf address).getLsbD 35 = address.getLsbD 47 := by
    rw [pageOf, BitVec.getLsbD_extractLsb']
    rfl
  rw [← bit, same, bit]

/-- **A user's request changes the kernel half only where it asks to.** In
every pagemap an address with bit 47 set translates as before unless its page
is one of those requested; so a request for pages with bit 47 clear changes
none of them. -/
theorem kernel_half_changes_only_where_requested (fresh : HandsOut A busy 1)
    (tables : Tables busy p.state Upper roots) (member : p.topLevel ∈ roots)
    (kernel : p.kernelTop ∈ roots) (backed : Backed A busy p call) (ran : serve A p call = some p') :
    (∀ root ∈ roots, ∀ virtualAddress : BitVec 64, virtualAddress.getLsbD 47 = true →
      (∀ page, Requested p call page → pageOf virtualAddress ≠ pageOf page) →
      translation p'.state.mem root virtualAddress = translation p.state.mem root virtualAddress) ∧
    ((∀ page, Requested p call page → page.getLsbD 47 = false) →
      ∀ root ∈ roots, ∀ virtualAddress : BitVec 64, virtualAddress.getLsbD 47 = true →
        translation p'.state.mem root virtualAddress = translation p.state.mem root virtualAddress) := by
  have others := serve_keepsOthers fresh tables member kernel backed ran
  refine ⟨fun root inside virtualAddress _ => others root inside virtualAddress, ?_⟩
  intro lower root inside virtualAddress upper
  refine others root inside virtualAddress fun page requested same => ?_
  rw [half_of_page same, lower page requested] at upper
  cases upper

end

/-! ### A page of the kernel half for the asking -/

/-- One anonymous page at a fixed address of the kernel half. -/
def kernelPage : MmapArgs where
  addr := 0xffff900000000000
  length := 0x1000
  flags := 0xd
  prot := 0x2
  fd := -1
  offset := 0

theorem syscallMmap_kernelPage {A : Allocator α} {p : Process α}
    (room : p.mmapedLen + 0x1000 ≤ mmapMaxSize) (given : pcalloc A p.state 1 = some (adr, middle))
    (notNull : adr ≠ 0)
    (mapped : vmmMapPage A middle (p.topLevel * pageSize) (BitVec.ofNat 64 adr) 0xffff900000000000
      0b111 = some final) :
    syscallMmap A p kernelPage = some (.value (0xffff900000000000 : BitVec 64).toNat, Process.pushRange
      { p with mmapedLen := p.mmapedLen + 0x1000, state := final }
      ⟨none, BitVec.ofNat 64 adr, 0xffff900000000000, 0, pageSize, 0xd ||| mapAnon, 0x2⟩) := by
  have needed : neededPages 0x1000 = 1 := by decide
  have inside : (p.mmapedLen + 0x1000) % wordSize = p.mmapedLen + 0x1000 :=
    Nat.mod_eq_of_lt (Nat.lt_of_le_of_lt room (by decide))
  have noFile : ¬ ((-1 : Int) > -1) := by decide
  have fixed : syscallMmap A p kernelPage =
      mmapAt A { p with mmapedLen := p.mmapedLen + 0x1000 } kernelPage 0xffff900000000000 := by
    unfold syscallMmap
    simp only [kernelPage, needed, Nat.one_mul, show pageSize = 0x1000 from rfl, inside]
    rw [if_neg fun both => noFile both.1, if_neg fun both => noFile both.1, if_neg (by decide),
      if_neg (by decide), if_neg (Nat.not_lt.mpr room), if_pos (by decide), if_neg (by decide)]
  have ranged := vmmMmapRange_page { p with mmapedLen := p.mmapedLen + 0x1000, state := middle }
    0xd 0x2 mapped
  have anon : has 0xd mapAnon = true := by decide
  rw [fixed]
  simp only [mmapAt, anon, if_true, show neededPages kernelPage.length = 1 from needed, given, bind_returned,
    notNull, if_false, Nat.one_mul, show kernelPage.flags.setWidth 32 = 0xd by decide, show
    kernelPage.prot.setWidth 32 = 0x2 by decide]
  rw [ranged]
  rfl

section
variable {A : Allocator α} {busy : α → Nat → Prop} {roots : Set Nat} {spare : α → Nat}

theorem mmap_kernelPage (fresh : HandsOut A busy 1) (stocked : Stocked A spare)
    (tables : Tables busy p.state Upper roots) (member : p.topLevel ∈ roots)
    (room : p.mmapedLen + 0x1000 ≤ mmapMaxSize) (enough : 4 ≤ spare p.state.alloc) :
    ∃ reply p' frame, syscallMmap A p kernelPage = some (reply, p') ∧
      p'.topLevel = p.topLevel ∧ p'.kernelTop = p.kernelTop ∧ p'.mmapedLen = p.mmapedLen + 0x1000 ∧
      Tables busy p'.state Upper roots ∧ spare p.state.alloc ≤ spare p'.state.alloc + 4 ∧
      frame < 2 ^ 52 ∧ ¬ busy p.state.alloc frame ∧ busy p'.state.alloc frame ∧
      ∀ root ∈ roots, translation p'.state.mem root 0xffff900000000000 = pageAddress frame := by
  obtain ⟨adr, middle, given, used⟩ := pcalloc_returns stocked p.state (by omega)
  obtain ⟨frame, rfl, bound, unused, inUse, _⟩ := pcalloc_page fresh tables.null given
  have grown := (pcalloc_grown (fresh.given p.state.alloc) tables given).1
  obtain ⟨final, mapped, used'⟩ := vmmMapPage_returns stocked middle (by omega) (p.topLevel * pageSize)
    (pageAddress frame) 0xffff900000000000 0b111
  have entered := vmmMapPage_entered fresh grown.tables member mapped
  have notNull := address_ne_null tables.null unused
  have sees (root : Nat) (inside : root ∈ roots) :
      translation final.mem root 0xffff900000000000 = pageAddress frame := by
    rw [entered.seen root inside _ rfl (Or.inr ((upper_iff _).mpr (by decide)))]
    exact leafAddress_entry (pageAddress_aligned frame) (by decide) (by decide)
  exact ⟨_, _, frame, syscallMmap_kernelPage room given notNull mapped, rfl, rfl, rfl, entered.tables,
    Nat.le_trans used (Nat.add_le_add_right used' 1), bound, unused,
    entered.busy frame ((inUse frame).mpr (Or.inr rfl)), sees⟩

end

/-- A process with a pagemap of its own and nothing mapped. -/
def newProcess (s : State Pmm.State) (top kernel : Nat) : Process Pmm.State where
  state := s
  topLevel := top
  ranges := ⟨fun _ => ⟨none, 0, 0, 0, 0, 0, 0⟩, 0⟩
  mmapTop := 0x90000000000
  mmapedLen := 0
  fds := fun _ => none
  files := fun _ => ⟨0, 0, 0, 0, 0, 0⟩
  mmapOps := fun _ => none
  kernelTop := kernel
  framebuffer := 0

/-- The first process of the booted machine. -/
def firstProcess : Option (Process Pmm.State) := do
  let world ← boot pmmAllocator oneTebibyte
  let kernel ← world.pagemaps[0]?
  let (adr, s) ← vmmCreateNewPagemap pmmAllocator world.state (kernel * pageSize)
  some (newProcess s (adr / pageSize) kernel)

theorem firstProcess_ready : ∃ p roots, firstProcess = some p ∧ Tables State.Taken p.state Upper roots ∧
    p.topLevel ∈ roots ∧ p.kernelTop ∈ roots ∧ p.mmapedLen = 0 ∧ 16 ≤ (freePages p.state.alloc).card := by
  obtain ⟨s, kernel, booted, many⟩ := oneTebibyte_boots
  obtain ⟨adr, s', created, used⟩ :=
    vmmCreateNewPagemap_returns pmm_stocked s (by omega) (kernel * pageSize)
  have inv := boot_inv pmm_handsOut_page (by decide) booted
  obtain ⟨top, rfl, _, tables⟩ :=
    vmmCreateNewPagemap_spec pmm_handsOut_page inv.tables (List.mem_singleton.mpr rfl) created
  refine ⟨newProcess s' top kernel, _, ?_, tables, Or.inl rfl, Or.inr (List.mem_singleton.mpr rfl), rfl, ?_⟩
  · simp_all [firstProcess, pageSize]
  · simp only [newProcess]
    omega

/-- The same request twice, from that process: the second call replaces a page
the kernel's own pagemap translated to. -/
theorem mmap_replaces_kernel_page : ∃ p p' p'' reply reply', firstProcess = some p ∧
    syscallMmap pmmAllocator p kernelPage = some (reply, p') ∧
    syscallMmap pmmAllocator p' kernelPage = some (reply', p'') ∧
    (0xffff900000000000 : BitVec 64).getLsbD 47 = true ∧
    translation p''.state.mem p.kernelTop 0xffff900000000000 ≠
      translation p'.state.mem p.kernelTop 0xffff900000000000 := by
  obtain ⟨p, roots, started, tables, member, kernel, counted, many⟩ := firstProcess_ready
  obtain ⟨reply, p', frame, ran, top, _, length, tables', left, small, _, taken, sees⟩ :=
    mmap_kernelPage pmm_handsOut_page pmm_stocked tables member (by rw [counted]; decide) (by omega)
  obtain ⟨reply', p'', frame', ran', _, _, _, _, _, small', free, _, sees'⟩ :=
    mmap_kernelPage pmm_handsOut_page pmm_stocked tables' (top ▸ member)
      (by rw [length, counted]; decide) (by omega)
  refine ⟨p, p', p'', reply, reply', started, ran, ran', by decide, ?_⟩
  rw [sees _ kernel, sees' _ kernel]
  intro same
  exact free (pageAddress_injective small' small same ▸ taken)

theorem mmap_keeps_other_kernel_pages : ∃ p p', firstProcess = some p ∧
    serve pmmAllocator p (.mmap kernelPage) = some p' ∧
    ∀ virtualAddress : BitVec 64, virtualAddress.getLsbD 47 = true →
      pageOf virtualAddress ≠ pageOf 0xffff900000000000 →
      translation p'.state.mem p.kernelTop virtualAddress =
        translation p.state.mem p.kernelTop virtualAddress := by
  obtain ⟨p, roots, started, tables, member, kernel, counted, many⟩ := firstProcess_ready
  obtain ⟨reply, p', _, ran, _⟩ :=
    mmap_kernelPage pmm_handsOut_page pmm_stocked tables member (by rw [counted]; decide) (by omega)
  have served : serve pmmAllocator p (.mmap kernelPage) = some p' := by
    rw [serve, ran]
    rfl
  have backed : Backed pmmAllocator State.Taken p (.mmap kernelPage) :=
    fun _ => pmm_handsOut_page.given p.state.alloc
  have kept := (kernel_half_changes_only_where_requested pmm_handsOut_page tables member kernel
    backed served).1
  refine ⟨p, p', started, served, fun virtualAddress upper apart => ?_⟩
  refine kept p.kernelTop kernel virtualAddress upper ?_
  rintro _ ⟨k, inside, rfl⟩
  obtain rfl : k = 0 := by
    change k < 1 at inside
    omega
  rw [mmapAddr, if_pos (by decide)]
  exact apart

end MandelbrotOS.UserRequests
