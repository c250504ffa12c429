import MandelbrotOS.ElfImage
import MandelbrotOS.UserRequests

/-! What a process gets to see when it maps the framebuffer device. `fb_mmap`
of `dev/fbdev.c` maps as many pages as were asked for, one after the other from
where the kernel has the framebuffer, and asks anew for each page where that
is. A request that covers the kernel's own page of it moves the rest on. -/
namespace MandelbrotOS.Framebuffer
open ByteMemory Descriptors ElfImage Mmap PageEntries PageLoops PageTables Pmm PmmSupply RangeMapping UserRequests Vfs Vmm

variable {α : Type}

/-- The physical page the kernel has the framebuffer's first byte on. -/
def framebufferFrame (p : Process α) : Nat :=
  (translation p.state.mem p.kernelTop p.framebuffer).toNat / pageSize

/-- The number of pages that the `fb_width * fb_height * 4` bytes from there on
take, the first and the last one whole. -/
def framebufferPages (p : Process α) (fbWidth fbHeight : BitVec 16) : Nat :=
  (p.framebuffer.toNat % pageSize + fbWidth.toNat * fbHeight.toNat * 4 + pageSize - 1) / pageSize

/-- The request is for the framebuffer device. -/
structure ForFramebuffer (p : Process α) (args : MmapArgs) : Prop where
  file : has (args.flags.setWidth 32) mapAnon = false
  device : ∃ file, p.fds args.fd.toNat = some file ∧ p.mmapOps file.file = some .fbMmap

/-- Behind every page of the request there is a page of the framebuffer. -/
def OnlyFramebuffer (p p' : Process α) (fbWidth fbHeight : BitVec 16) (args : MmapArgs) : Prop :=
  ∀ t < pageTurns args.length, ∃ k < framebufferPages p fbWidth fbHeight,
    translation p'.state.mem p.topLevel (mmapAddr p args + BitVec.ofNat 64 (t * pageSize)) =
      pageAddress (framebufferFrame p + k)

/-- With its `t`th page a mapping replaces the one the kernel finds the
framebuffer by. -/
def Covers (shared : Fin 512 → Prop) (p : Process α) (addr : BitVec 64) (t : Nat) : Prop :=
  pageOf (addr + BitVec.ofNat 64 (t * pageSize)) = pageOf p.framebuffer ∧
    (p.kernelTop = p.topLevel ∨ shared (pmlEntry 39 p.framebuffer))

/-! ### Where the pages are counted from -/

section
variable (hit : Nat → Prop) (frame : Nat)

open Classical in
/-- The page each turn counts from: a hit makes the page just mapped the one
that later turns count from. -/
noncomputable def countedFrom : Nat → Nat
  | 0 => frame
  | t + 1 => if hit t then countedFrom t + t else countedFrom t

variable {hit frame}

theorem countedFrom_same (apart : ∀ t, first ≤ t → t < last → ¬ hit t) (ordered : first ≤ last) :
    countedFrom hit frame last = countedFrom hit frame first := by
  induction last, ordered using Nat.le_induction with
  | base => rfl
  | succ last below ih =>
    rw [countedFrom, if_neg (apart last below (Nat.lt_succ_self last))]
    exact ih fun t above inside => apart t above (Nat.lt_succ_of_lt inside)

theorem countedFrom_hit (isHit : hit t) (before : t < last) (only : ∀ other < last, hit other → other = t) :
    countedFrom hit frame last = frame + t := by
  have none (other : Nat) (above : t + 1 ≤ other) (inside : other < last) : ¬ hit other := fun isHit' => by
    have same := only other inside isHit'
    omega
  have none' (other : Nat) (_ : 0 ≤ other) (inside : other < t) : ¬ hit other := fun isHit' => by
    have same := only other (by omega) isHit'
    omega
  rw [countedFrom_same none before, countedFrom, if_pos isHit, countedFrom_same none' (Nat.zero_le t)]
  rfl

theorem exists_half_round (frame : Nat) (apart : ∀ t t', hit t → hit t' → t % 2 ^ 36 = t' % 2 ^ 36)
    (round : 2 ^ 36 ≤ turns) :
    ∃ first, first + 2 ^ 35 ≤ turns ∧ turns ≤ first + 2 ^ 36 ∧
      ∀ j ≤ 2 ^ 35, countedFrom hit frame (first + j) = countedFrom hit frame first := by
  by_cases late : ∃ t, turns - 2 ^ 35 ≤ t ∧ t < turns ∧ hit t
  · obtain ⟨t, above, below, isHit⟩ := late
    refine ⟨turns - 2 ^ 36, by omega, by omega, fun j small => ?_⟩
    refine countedFrom_same (fun t' above' below' isHit' => ?_) (Nat.le_add_right _ _)
    have same := apart t t' isHit isHit'
    omega
  · refine ⟨turns - 2 ^ 35, by omega, by omega, fun j small => ?_⟩
    refine countedFrom_same (fun t above below isHit => ?_) (Nat.le_add_right _ _)
    exact late ⟨t, above, by omega, isHit⟩

/-- The pages that are still seen at the end: turn by turn, those of the last
round of the address space. -/
def SeenInside (hit : Nat → Prop) (frame pages turns : Nat) : Prop :=
  ∀ t < turns, turns ≤ t + 2 ^ 36 → ∃ k < pages,
    pageAddress (countedFrom hit frame t + t) = pageAddress (frame + k)

theorem pageAddress_mod (same : pageAddress page = pageAddress other) : page % 2 ^ 52 = other % 2 ^ 52 := by
  have numbers := congrArg BitVec.toNat same
  grind [pageAddress, pageSize]

variable (apart : ∀ t t', hit t → hit t' → t % 2 ^ 36 = t' % 2 ^ 36) (small : pages < 2 ^ 35)
include apart small

theorem SeenInside.short (seen : SeenInside hit frame pages turns) : turns < 2 ^ 36 := by
  refine Nat.lt_of_not_le fun round => ?_
  obtain ⟨first, room, above, same⟩ := exists_half_round frame apart round
  obtain ⟨k, inside, here⟩ := seen first (by omega) above
  -- so many pages further on is the first one behind the end
  obtain ⟨k', inside', there⟩ := seen (first + (pages - k)) (by omega) (by omega)
  grind [pageAddress_mod]

theorem seenInside_iff : SeenInside hit frame pages turns ↔
    turns ≤ pages ∧ ∀ t, t + 1 < turns → hit t → t + turns ≤ pages := by
  constructor
  · intro seen
    have short := seen.short apart small
    have moved (t : Nat) (before : t + 1 < turns) (isHit : hit t) : t + turns ≤ pages := by
      have only (other : Nat) (below : other < turns - 1) (isHit' : hit other) : other = t := by
        grind
      obtain ⟨k, inside, here⟩ := seen (turns - 1) (by omega) (by omega)
      rw [countedFrom_hit isHit (by omega) only] at here
      have same := pageAddress_mod here
      omega
    refine ⟨?_, moved⟩
    by_cases early : ∃ t, t + 1 < turns ∧ hit t
    · grind
    · by_cases empty : turns = 0
      · omega
      have none (t : Nat) (_ : 0 ≤ t) (below : t < turns - 1) : ¬ hit t := fun isHit =>
        early ⟨t, by omega, isHit⟩
      obtain ⟨k, inside, here⟩ := seen (turns - 1) (by omega) (by omega)
      rw [countedFrom_same none (Nat.zero_le _), countedFrom] at here
      have same := pageAddress_mod here
      omega
  · rintro ⟨fits, moved⟩ t below -
    by_cases early : ∃ t' < t, hit t'
    · obtain ⟨t', before, isHit⟩ := early
      have only (other : Nat) (below' : other < t) (isHit' : hit other) : other = t' := by
        grind
      have bound := moved t' (by omega) isHit
      refine ⟨t' + t, by omega, ?_⟩
      grind [countedFrom_hit]
    · have none (t' : Nat) (_ : 0 ≤ t') (before : t' < t) : ¬ hit t' := fun isHit =>
        early ⟨t', before, isHit⟩
      refine ⟨t, by omega, ?_⟩
      rw [countedFrom_same none (Nat.zero_le _), countedFrom]

end

/-! ### The loop -/

section
variable {A : Allocator α} {busy : α → Nat → Prop} {shared : Fin 512 → Prop} {roots : Set Nat}

theorem translation_eq_pageAddress (mem : Memory) (top : Nat) (virtualAddress : BitVec 64) :
    translation mem top virtualAddress =
      pageAddress ((translation mem top virtualAddress).toNat / pageSize) := by
  have page (entry : BitVec 64) : leafAddress entry = pageAddress ((leafAddress entry).toNat / pageSize) := by
    unfold leafAddress
    split
    · rfl
    · apply BitVec.eq_of_toNat_eq
      rw [pageAddress, BitVec.toNat_ofNat, addressOf_toNat, Nat.mul_div_cancel _ (by decide), ← addressOf_toNat,
        Nat.mod_eq_of_lt (addressOf entry).isLt]
  unfold translation
  split
  · exact page _
  · rfl

theorem pageFlags_small (prot : BitVec 32) : pageFlags prot < 0x1000 ∧ isPresent (pageFlags prot) = true := by
  unfold pageFlags
  split
  · decide
  · decide

/-- The page a turn of `fb_mmap` counts from. -/
noncomputable def mappedFrom (shared : Fin 512 → Prop) (p : Process α) (addr : BitVec 64) : Nat → Nat :=
  countedFrom (Covers shared p addr) (framebufferFrame p)

/-- After some turns of the loop: the kernel finds the framebuffer where the next
turn counts from, and each page not mapped again since is as its turn left it. -/
structure Shown (busy : α → Nat → Prop) (shared : Fin 512 → Prop) (roots : Set Nat) (p : Process α)
    (addr : BitVec 64) (turns : Nat) (s : State α) : Prop where
  tables : Tables busy s shared roots
  kernel : translation s.mem p.kernelTop p.framebuffer = pageAddress (mappedFrom shared p addr turns)
  last : ∀ t < turns, (∀ later, t < later → later < turns →
      pageOf (addr + BitVec.ofNat 64 (t * pageSize)) ≠ pageOf (addr + BitVec.ofNat 64 (later * pageSize))) →
    translation s.mem p.topLevel (addr + BitVec.ofNat 64 (t * pageSize)) =
      pageAddress (mappedFrom shared p addr t + t)

theorem Shown.grown (shown : Shown busy shared roots p addr turns s) (grown : Grown busy shared roots s s')
    (member : p.topLevel ∈ roots) (kernel : p.kernelTop ∈ roots) :
    Shown busy shared roots p addr turns s' where
  tables := grown.tables
  kernel := by
    rw [grown.same p.kernelTop kernel]
    exact shown.kernel
  last := fun t below unmapped => by
    rw [grown.same p.topLevel member]
    exact shown.last t below unmapped

theorem Shown.turn (fresh : HandsOut A busy 1) (member : p.topLevel ∈ roots) (kernel : p.kernelTop ∈ roots)
    (shown : Shown busy shared roots p addr turns s)
    (translated : vmmVirtToPhys A s (p.kernelTop * pageSize) p.framebuffer = some (phys, between))
    (mapped : vmmMapPage A between (p.topLevel * pageSize) (phys + BitVec.ofNat 64 (turns * pageSize))
      (addr + BitVec.ofNat 64 (turns * pageSize)) (pageFlags prot) = some s') :
    Shown busy shared roots p addr (turns + 1) s' := by
  obtain ⟨rfl, grown⟩ := vmmVirtToPhys_grown fresh shown.tables kernel translated
  have before := shown.grown grown member kernel
  have entered := vmmMapPage_entered fresh grown.tables member mapped
  have entry : leafAddress ((translation s.mem p.kernelTop p.framebuffer +
      BitVec.ofNat 64 (turns * pageSize)) ||| pageFlags prot) =
      pageAddress (mappedFrom shared p addr turns + turns) := by
    obtain ⟨small, present⟩ := pageFlags_small prot
    rw [shown.kernel, pageAddress_add, leafAddress_entry (pageAddress_aligned _) small present]
  refine ⟨entered.tables, ?_, fun t below unmapped => ?_⟩
  · by_cases covers : Covers shared p addr turns
    · have moved : mappedFrom shared p addr (turns + 1) = mappedFrom shared p addr turns + turns := if_pos covers
      have way := ((pageOf_eq_iff _ _).mp covers.1).1
      have slot : pmlEntry 39 (addr + BitVec.ofNat 64 (turns * pageSize)) = pmlEntry 39 p.framebuffer :=
        (List.cons.inj way).1
      rw [moved, entered.seen p.kernelTop kernel p.framebuffer covers.1.symm (slot ▸ covers.2), entry]
    · have stays : mappedFrom shared p addr (turns + 1) = mappedFrom shared p addr turns := if_neg covers
      rw [stays, entered.unseen p.kernelTop kernel, before.kernel]
      rintro ⟨same, sees⟩
      have way := ((pageOf_eq_iff _ _).mp same).1
      have slot : pmlEntry 39 p.framebuffer = pmlEntry 39 (addr + BitVec.ofNat 64 (turns * pageSize)) :=
        (List.cons.inj way).1
      exact covers ⟨same.symm, slot ▸ sees⟩
  · by_cases now : t = turns
    · subst now
      rw [entered.seen p.topLevel member _ rfl (Or.inl rfl), entry]
    · have other := unmapped turns (by omega) (Nat.lt_succ_self turns)
      rw [entered.unseen p.topLevel member _ fun both => other both.1]
      exact before.last t (by omega) fun later above inside => unmapped later above (Nat.lt_succ_of_lt inside)

theorem fbMmap_shown (fresh : HandsOut A busy 1) (tables : Tables busy p.state shared roots)
    (member : p.topLevel ∈ roots) (kernel : p.kernelTop ∈ roots)
    (ran : fbMmap A p sfile addr size offset prot flags = some p') :
    Shown busy shared roots p addr (pageTurns size) p'.state := by
  have start : Shown busy shared roots p addr 0 p.state :=
    ⟨tables, translation_eq_pageAddress _ _ _, fun t below => absurd below (Nat.not_lt_zero t)⟩
  obtain ⟨s, phys, s', last, state, shown, again, once, rfl⟩ := fbMmap_counts ran
    (fun page _ s phys between s' shown translated mapped => Shown.turn fresh member kernel shown translated mapped) start
  have grown := (vmmVirtToPhys_grown fresh shown.tables kernel again).2
  have grown' := (vmmVirtToPhys_grown fresh grown.tables kernel once).2
  exact (shown.grown grown member kernel).grown grown' member kernel

theorem mmapAt_fbMmap (device : ForFramebuffer p args) (ran : mmapAt A p args addr = some (.value adr, p')) :
    ∃ sfile, isFifo (p.files sfile) = false ∧ p.mmapOps sfile = some .fbMmap ∧
      fbMmap A p sfile addr args.length args.offset (args.prot.setWidth 32) (args.flags.setWidth 32) = some p' := by
  obtain ⟨file, opened, hook⟩ := device.device
  simp only [mmapAt, device.file, Bool.false_eq_true, if_false, opened] at ran
  split at ran
  · simp at ran
  split at ran
  · simp at ran
  split at ran
  · simp at ran
  rename_i pipe
  have hooked : vfsMmap A p file.file addr args.length args.offset (args.prot.setWidth 32)
      (args.flags.setWidth 32) = (fbMmap A p file.file addr args.length args.offset (args.prot.setWidth 32)
      (args.flags.setWidth 32)).map some := by
    simp [vfsMmap, pipe, hook]
  rw [hooked] at ran
  cases served : fbMmap A p file.file addr args.length args.offset (args.prot.setWidth 32)
      (args.flags.setWidth 32) with
  | none => simp [served] at ran
  | some q =>
    grind

theorem syscallMmap_fbMmap (device : ForFramebuffer p args)
    (ran : syscallMmap A p args = some (.value adr, p')) :
    ∃ sfile, isFifo (p.files sfile) = false ∧ p.mmapOps sfile = some .fbMmap ∧
      fbMmap A (counted p args) sfile (mmapAddr p args) args.length args.offset (args.prot.setWidth 32)
        (args.flags.setWidth 32) = some p' := by
  by_cases passes : Counted p args
  · rw [syscallMmap_counted passes] at ran
    split at ran
    · simp at ran
    · exact mmapAt_fbMmap (p := counted p args) ⟨device.file, device.device⟩ ran
  · obtain ⟨errno, refused⟩ := syscallMmap_uncounted (A := A) passes
    rw [refused] at ran
    simp at ran

theorem pageOf_turn (addr : BitVec 64) (t : Nat) :
    pageOf (addr + BitVec.ofNat 64 (t * pageSize)) = pageOf addr + BitVec.ofNat 36 t := by
  rw [pageOf_add, Nat.add_mul_div_right _ _ (by decide), Nat.div_eq_of_lt (Nat.mod_lt _ (by decide)), Nat.zero_add]

theorem pageOf_turn_eq_iff (addr : BitVec 64) (t t' : Nat) :
    pageOf (addr + BitVec.ofNat 64 (t * pageSize)) = pageOf (addr + BitVec.ofNat 64 (t' * pageSize)) ↔
      t % 2 ^ 36 = t' % 2 ^ 36 := by
  grind [pageOf_turn, BitVec.toNat_inj, BitVec.toNat_ofNat]

theorem covers_apart (covers : Covers shared p addr t) (covers' : Covers shared p addr t') :
    t % 2 ^ 36 = t' % 2 ^ 36 :=
  (pageOf_turn_eq_iff addr t t').mp (covers.1.trans covers'.1.symm)

theorem framebufferPages_lt (p : Process α) (fbWidth fbHeight : BitVec 16) :
    framebufferPages p fbWidth fbHeight < 2 ^ 35 := by
  have area : fbWidth.toNat * fbHeight.toNat ≤ 2 ^ 16 * 2 ^ 16 :=
    Nat.mul_le_mul (Nat.le_of_lt fbWidth.isLt) (Nat.le_of_lt fbHeight.isLt)
  simp only [framebufferPages, pageSize]
  omega

theorem onlyFramebuffer_iff_seenInside
    (shown : Shown busy shared roots p (mmapAddr p args) (pageTurns args.length) p'.state) :
    OnlyFramebuffer p p' fbWidth fbHeight args ↔ SeenInside (Covers shared p (mmapAddr p args))
      (framebufferFrame p) (framebufferPages p fbWidth fbHeight) (pageTurns args.length) := by
  have seen (t : Nat) (below : t < pageTurns args.length) (near : pageTurns args.length ≤ t + 2 ^ 36) :
      translation p'.state.mem p.topLevel (mmapAddr p args + BitVec.ofNat 64 (t * pageSize)) =
        pageAddress (mappedFrom shared p (mmapAddr p args) t + t) := by
    refine shown.last t below fun later above inside same => ?_
    grind [pageOf_turn_eq_iff]
  constructor
  · intro only t below near
    obtain ⟨k, inside, here⟩ := only t below
    exact ⟨k, inside, (seen t below near).symm.trans here⟩
  · intro inside t below
    have short := inside.short (fun _ _ => covers_apart) (framebufferPages_lt p fbWidth fbHeight)
    obtain ⟨k, within, here⟩ := inside t below (by omega)
    exact ⟨k, within, (seen t below (by omega)).trans here⟩

/-- Mapping the framebuffer makes nothing else reachable exactly when the request
has no more pages than the framebuffer. Where it covers the page the kernel finds
the framebuffer by, the pages after that one are that much further on, and these
have to be inside as well. -/
theorem only_framebuffer_iff (fresh : HandsOut A busy 1) (tables : Tables busy p.state shared roots)
    (member : p.topLevel ∈ roots) (kernel : p.kernelTop ∈ roots) (device : ForFramebuffer p args)
    (ran : syscallMmap A p args = some (.value adr, p')) (fbWidth fbHeight : BitVec 16) :
    KeepsOthers roots p.state.mem p'.state.mem (PagesFrom (mmapAddr p args) args.length) ∧
    (OnlyFramebuffer p p' fbWidth fbHeight args ↔
      pageTurns args.length ≤ framebufferPages p fbWidth fbHeight ∧
      ∀ t, t + 1 < pageTurns args.length → Covers shared p (mmapAddr p args) t →
        t + pageTurns args.length ≤ framebufferPages p fbWidth fbHeight) := by
  obtain ⟨sfile, -, -, served⟩ := syscallMmap_fbMmap device ran
  have confined := fbMmap_confined (p := counted p args) fresh tables member kernel served
  have shown := fbMmap_shown (p := counted p args) fresh tables member kernel served
  have shown' : Shown busy shared roots p (mmapAddr p args) (pageTurns args.length) p'.state :=
    ⟨shown.tables, shown.kernel, shown.last⟩
  refine ⟨keepsOthers_of_confined confined, ?_⟩
  rw [onlyFramebuffer_iff_seenInside shown']
  exact seenInside_iff (fun _ _ => covers_apart) (framebufferPages_lt p fbWidth fbHeight)

end

/-! ### A screen of one page and one of three -/

/-- The kernel has the framebuffer at a fixed distance from where it is. -/
def mapScreen : Option (State Pmm.State) :=
  vmmMapPage pmmAllocator clearedPages (1 * pageSize) 0xfd000000 0xffff8000fd000000 0b11

/-- A process that has the framebuffer device open, as its descriptor 3. -/
def screenProcess : Process Pmm.State :=
  { smallProcess with
    state := mapScreen.getD clearedPages
    mmapTop := 0x90000000000
    fds := fun fd => if fd = 3 then some ⟨0, oRdwr⟩ else none
    mmapOps := fun _ => some .fbMmap
    framebuffer := 0xffff8000fd000000 }

theorem screenProcess_tables : Tables State.Taken screenProcess.state Alone {1} := by
  obtain ⟨s, ran⟩ := Option.isSome_iff_exists.mp (show mapScreen.isSome by decide +kernel)
  have same : screenProcess.state = s := by rw [screenProcess, ran, Option.getD_some]
  rw [same]
  exact clearedPages_tables ran

/-- A shared mapping of some pages of the device, at an address of the kernel's
choice. -/
def screenRequest (pages : Nat) : MmapArgs := ⟨0, pages * pageSize, 2, 3, 3, 0⟩

/-- One that begins a page before the kernel's own. -/
def coveringRequest (pages : Nat) : MmapArgs := ⟨0xffff8000fcfff000, pages * pageSize, 6, 3, 3, 0⟩

/-- What a request shows at an address. -/
def shownAt (args : MmapArgs) (addr : BitVec 64) : Option (Reply × BitVec 64) :=
  (syscallMmap pmmAllocator screenProcess args).map fun answer =>
    (answer.1, translation answer.2.state.mem screenProcess.topLevel addr)

theorem screenProcess_device (anon : has (args.flags.setWidth 32) mapAnon = false) (fd : args.fd = 3) :
    ForFramebuffer screenProcess args :=
  ⟨anon, ⟨0, oRdwr⟩, by rw [fd]; rfl, rfl⟩

theorem granted_of_shownAt (shown : shownAt args addr = some (reply, page)) : ∃ p',
    syscallMmap pmmAllocator screenProcess args = some (reply, p') ∧
      translation p'.state.mem screenProcess.topLevel addr = page := by
  obtain ⟨⟨reply', p'⟩, ran, both⟩ := Option.map_eq_some_iff.mp shown
  cases both
  exact ⟨p', ran, rfl⟩

theorem one_page_is_framebuffer : ∃ p',
    syscallMmap pmmAllocator screenProcess (screenRequest 1) = some (.value 0x90000000000, p') ∧
      OnlyFramebuffer screenProcess p' 32 32 (screenRequest 1) := by
  have shown : shownAt (screenRequest 1) 0x90000000000 = some (.value 0x90000000000, 0xfd000000) := by
    decide +kernel
  obtain ⟨p', ran, -⟩ := granted_of_shownAt shown
  refine ⟨p', ran, ?_⟩
  apply (only_framebuffer_iff pmm_handsOut_page screenProcess_tables rfl rfl
    (screenProcess_device rfl rfl) ran 32 32).2.mpr
  refine ⟨by decide, fun t before => ?_⟩
  exact absurd before (by simp only [show pageTurns (screenRequest 1).length = 1 by decide]; omega)

theorem not_onlyFramebuffer (below : t < pageTurns args.length)
    (page : translation p'.state.mem p.topLevel (mmapAddr p args + BitVec.ofNat 64 (t * pageSize)) =
      pageAddress (framebufferFrame p + far))
    (behind : framebufferPages p fbWidth fbHeight ≤ far) (near : far < 2 ^ 35) :
    ¬ OnlyFramebuffer p p' fbWidth fbHeight args := by
  intro only
  obtain ⟨k, inside, here⟩ := only t below
  grind [pageAddress_mod]

/-- Two pages of that screen: the second is not its. Three pages of a screen of
three, over the page where the kernel has it: the last is not its either. -/
theorem page_behind_framebuffer :
    (∃ p', syscallMmap pmmAllocator screenProcess (screenRequest 2) = some (.value 0x90000000000, p') ∧
      ¬ OnlyFramebuffer screenProcess p' 32 32 (screenRequest 2)) ∧
    ∃ p', syscallMmap pmmAllocator screenProcess (coveringRequest 3) = some (.value 0xffff8000fcfff000, p') ∧
      ¬ OnlyFramebuffer screenProcess p' 32 96 (coveringRequest 3) := by
  have frame : framebufferFrame screenProcess = 0xfd000 := by decide +kernel
  constructor
  · have shown : shownAt (screenRequest 2) 0x90000001000 =
        some (.value 0x90000000000, pageAddress (0xfd000 + 1)) := by
      decide +kernel
    obtain ⟨p', ran, page⟩ := granted_of_shownAt shown
    rw [← frame] at page
    exact ⟨p', ran, not_onlyFramebuffer (t := 1) (by decide) page (by decide) (by decide)⟩
  · have shown : shownAt (coveringRequest 3) 0xffff8000fd001000 =
        some (.value 0xffff8000fcfff000, pageAddress (0xfd000 + 3)) := by
      decide +kernel
    obtain ⟨p', ran, page⟩ := granted_of_shownAt shown
    rw [← frame] at page
    exact ⟨p', ran, not_onlyFramebuffer (t := 2) (by decide) page (by decide) (by decide)⟩

end MandelbrotOS.Framebuffer
