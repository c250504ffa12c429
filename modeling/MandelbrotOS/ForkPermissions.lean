import MandelbrotOS.ForkPagemap
import MandelbrotOS.Framebuffer

/-! Permissions across `vmm_fork_pagemap`, for the pagemaps that programs and
mappings of the framebuffer make. The loader maps the pages of a segment with
one permission and at one place and records another of each; a fork goes by the
record. A private mapping of the device is made again by its hook, which is
given flags and protection in each other's place and records a range itself. -/
namespace MandelbrotOS.ForkPermissions
open ByteMemory Descriptors Elf ForkPagemap Framebuffer KernelHalf LastWrites Mmap PageEntries PageLoops
open PageTables Pmm PmmSupply RangeMapping Runs UserRequests Vectors Vfs Vmm
open ElfImage (loadSegment_mapped loadSegments_of_run pageTurns_pages segmentWrites)

variable {α : Type}

/-- Whether an entry is present, and whether it lets a program write. -/
def access (entry : BitVec 64) : Bool × Bool := (isPresent entry, entry.getLsbD 1)

/-- What is recorded of a range, but for what is behind it. -/
structure Record where
  virtAddr : BitVec 64
  length : Nat
  flags : BitVec 32
  prot : BitVec 32
  deriving DecidableEq

def record (range : MmapRange) : Record := ⟨range.virtAddr, range.length, range.flags, range.prot⟩

/-- The pages of a range, all present and all writable or none. -/
def pageAccess (start : BitVec 64) (length : Nat) (writable : Bool) : List (BitVec 36 × Bool × Bool) :=
  (List.range (pageTurns length)).map fun page =>
    (pageOf (start + BitVec.ofNat 64 (page * pageSize)), true, writable)

/-- A range as it came to be: what was recorded of it, where its pages were
mapped, and whether writable. -/
structure Piece where
  recorded : Record
  start : BitVec 64
  writable : Bool

def Piece.mapped (piece : Piece) : List (BitVec 36 × Bool × Bool) :=
  pageAccess piece.start piece.recorded.length piece.writable

/-- What `elf_run_binary` makes of a program header. -/
def segmentPiece (buffer : Memory) (i : Nat) : Piece where
  recorded := ⟨(progHeader buffer i).virtAddr, (progHeader buffer i).pages * pageSize, mapFixed ||| mapAnon,
    protWrite⟩
  start := (progHeader buffer 0).virtAddr
  writable := has (progHeader buffer i).flags pfW

/-- Of the headers it does not load it makes nothing. -/
def headerPieces (buffer : Memory) (i : Nat) : List Piece :=
  if (progHeader buffer i).type = elfHeadLoad then [segmentPiece buffer i] else []

def filePieces (buffer : Memory) : List Piece :=
  (List.range (elfHeader buffer).progHeadCount.toNat).flatMap (headerPieces buffer)

/-- What `syscall_mmap` makes of the framebuffer. -/
def screenPiece (p : Process α) (args : MmapArgs) : Piece where
  recorded := ⟨mmapAddr p args, args.length, args.flags.setWidth 32, args.prot.setWidth 32⟩
  start := mmapAddr p args
  writable := has (args.prot.setWidth 32) protWrite

/-- The pagemaps whose ranges come from `elf_run_binary` and from `fb_mmap`, with
their ranges as they came to be and the entries there were before. Between the
calls anything may happen that leaves the entries of this pagemap alone. -/
inductive Assembled (A : Allocator α) (busy : α → Nat → Prop) (old : BitVec 64 → BitVec 64) :
    Set Nat → Process α → List Piece → Prop
  | created (empty : p.ranges.toList = []) (tables : Tables busy p.state Upper roots)
      (member : p.topLevel ∈ roots) (kernel : p.kernelTop ∈ roots)
      (entries : ∀ probe, leafEntry p.state.mem p.topLevel probe = old probe) :
      Assembled A busy old roots p []
  | loaded (before : Assembled A busy old roots p pieces) (backed : Backed A busy p (.runBinary buffer))
      (ran : elfRunBinary A p buffer = some (0, entry, p')) :
      Assembled A busy old roots p' (pieces ++ filePieces buffer)
  | screen (before : Assembled A busy old roots p pieces) (device : ForFramebuffer p args)
      (ran : syscallMmap A p args = some (.value adr, p')) :
      Assembled A busy old roots p' (pieces ++ [screenPiece p args])
  | elsewhere (before : Assembled A busy old roots p pieces) (ranges : p'.ranges.toList = p.ranges.toList)
      (top : p'.topLevel = p.topLevel) (files : p'.files = p.files) (mmapOps : p'.mmapOps = p.mmapOps)
      (tables : Tables busy p'.state Upper roots') (member : p.topLevel ∈ roots')
      (kernel : p'.kernelTop ∈ roots')
      (entries : ∀ probe, leafEntry p'.state.mem p.topLevel probe = leafEntry p.state.mem p.topLevel probe) :
      Assembled A busy old roots' p' pieces

/-! ### What fork should keep, and what it makes of a range -/

/-- The child has an address mapped, writable if the parent's is. -/
def PageKept (p child : Process α) (virtualAddress : BitVec 64) : Prop :=
  isPresent (leafEntry child.state.mem child.topLevel virtualAddress) = true ∧
    (leafEntry child.state.mem child.topLevel virtualAddress).getLsbD 1 =
      (leafEntry p.state.mem p.topLevel virtualAddress).getLsbD 1

/-- So it is with every page of every range, and the ranges are the parent's. -/
structure Preserved (p child : Process α) : Prop where
  pages : ∀ range ∈ p.ranges.toList, ∀ page < pageTurns range.length,
    PageKept p child (range.virtAddr + BitVec.ofNat 64 (page * pageSize))
  ranges : child.ranges.toList.map record = p.ranges.toList.map record

/-- Copied or shared by the fork itself, not by the hook of its file. -/
def Record.direct (r : Record) : Bool := has r.flags mapShared || has r.flags mapAnon

/-- The pages a fork maps for a range. The hook takes the flags of the range for
its protection, where `MAP_SHARED` would stand for `PROT_WRITE`. -/
def Record.forked (r : Record) : List (BitVec 36 × Bool × Bool) :=
  pageAccess r.virtAddr r.length (r.direct && has r.prot protWrite)

/-- The ranges a fork makes of one. -/
def Record.copies (r : Record) : List Record :=
  if r.direct then [r] else [⟨r.virtAddr, r.length, r.prot, r.flags⟩, r]

/-- The permission last recorded at an address is the one last mapped. -/
def RecordedRight (old : BitVec 64 → BitVec 64) (pieces : List Piece) (virtualAddress : BitVec 64) : Prop :=
  (shown (access (old virtualAddress)) (pieces.flatMap fun piece => piece.recorded.forked)
    (pageOf virtualAddress)).2 =
    (shown (access (old virtualAddress)) (pieces.flatMap Piece.mapped) (pageOf virtualAddress)).2

/-! ### One call -/

section
variable {A : Allocator α} {busy : α → Nat → Prop} {shared : Fin 512 → Prop} {roots : Set Nat}
  {p p' p'' child child' : Process α} {good : MmapRange → Prop}

/-- A pagemap has got some more ranges and shows some more pages. -/
structure Extends (busy : α → Nat → Prop) (shared : Fin 512 → Prop) (roots : Set Nat)
    (good : MmapRange → Prop) (p p' : Process α) (records : List Record)
    (pages : List (BitVec 36 × Bool × Bool)) : Prop where
  top : p'.topLevel = p.topLevel
  kernel : p'.kernelTop = p.kernelTop
  files : p'.files = p.files
  mmapOps : p'.mmapOps = p.mmapOps
  ranges : ∃ new, p'.ranges.toList = p.ranges.toList ++ new ∧ new.map record = records ∧ ∀ range ∈ new, good range
  mapped : ∃ writes, Mapped busy shared roots p.state p'.state p.topLevel writes ∧
    writes.map (Prod.map id access) = pages

theorem extends_refl (tables : Tables busy p.state shared roots) :
    Extends busy shared roots good p p [] [] where
  top := rfl
  kernel := rfl
  files := rfl
  mmapOps := rfl
  ranges := ⟨[], (List.append_nil _).symm, rfl, List.forall_mem_nil _⟩
  mapped := ⟨[], mapped_refl tables _, rfl⟩

theorem Extends.trans (first : Extends busy shared roots good p p' records pages)
    (second : Extends busy shared roots good p' p'' records' pages') :
    Extends busy shared roots good p p'' (records ++ records') (pages ++ pages') := by
  obtain ⟨new, listed, recorded, sound⟩ := first.ranges
  obtain ⟨new', listed', recorded', sound'⟩ := second.ranges
  obtain ⟨writes, mapped, seen⟩ := first.mapped
  obtain ⟨writes', mapped', seen'⟩ := second.mapped
  refine ⟨second.top.trans first.top, second.kernel.trans first.kernel, second.files.trans first.files,
    second.mmapOps.trans first.mmapOps, ⟨new ++ new', ?_, ?_, ?_⟩, writes ++ writes', ?_, ?_⟩
  · rw [listed', listed, List.append_assoc]
  · rw [List.map_append, recorded, recorded']
  · exact List.forall_mem_append.mpr ⟨sound, sound'⟩
  · rw [first.top] at mapped'
    exact mapped_trans mapped mapped'
  · rw [List.map_append, seen, seen']

theorem Extends.tables (more : Extends busy shared roots good p p' records pages) :
    Tables busy p'.state shared roots := by
  obtain ⟨_, mapped, -⟩ := more.mapped
  exact mapped.tables

theorem Extends.access_eq (more : Extends busy shared roots good p p' records pages) (probe : BitVec 64) :
    access (leafEntry p'.state.mem p'.topLevel probe) =
      shown (access (leafEntry p.state.mem p.topLevel probe)) pages (pageOf probe) := by
  obtain ⟨writes, mapped, rfl⟩ := more.mapped
  rw [more.top, mapped.leaf]
  exact shown_map access _ writes _

theorem access_entry (page : Nat) (writable : Bool) :
    access (pageAddress page ||| (if writable then 0b111 else 0b101)) = (true, writable) :=
  Prod.ext (userEntry_access page writable).1 (userEntry_access page writable).2

theorem access_pageWrites (first : Nat) (start : BitVec 64) (writable : Bool) (length : Nat) :
    (pageWrites (pageAddress first) start (if writable then 0b111 else 0b101) (pageTurns length)).map
      (Prod.map id access) = pageAccess start length writable := by
  rw [pageWrites, pageAccess, List.map_map]
  refine List.map_congr_left fun page _ => ?_
  grind [pageAddress_add, access_entry]

/-- What the records say of the frames and the file behind a range. -/
structure Sound (p : Process α) (range : MmapRange) : Prop where
  aligned : ∃ first, range.physAddr = pageAddress first
  whole : has range.flags mapAnon = true → range.length % pageSize = 0
  device : has range.flags mapAnon = false → ∃ file, range.file = some file ∧
    isFifo (p.files file) = false ∧ p.mmapOps file = some .fbMmap

/-- The first pages of a mapping of the framebuffer are there. -/
def MapsFirst (busy : α → Nat → Prop) (shared : Fin 512 → Prop) (roots : Set Nat) (p : Process α)
    (addr : BitVec 64) (writable : Bool) (pages : Nat) (s : State α) : Prop :=
  ∃ writes, Mapped busy shared roots p.state s p.topLevel writes ∧
    writes.map (Prod.map id access) = (List.range pages).map fun page =>
      (pageOf (addr + BitVec.ofNat 64 (page * pageSize)), true, writable)

theorem MapsFirst.turn (fresh : HandsOut A busy 1) (member : p.topLevel ∈ roots) (kernel : p.kernelTop ∈ roots)
    (held : MapsFirst busy shared roots p addr (has prot protWrite) page s)
    (translated : vmmVirtToPhys A s (p.kernelTop * pageSize) p.framebuffer = some (phys, between))
    (entered : vmmMapPage A between (p.topLevel * pageSize) (phys + BitVec.ofNat 64 (page * pageSize))
      (addr + BitVec.ofNat 64 (page * pageSize)) (pageFlags prot) = some s') :
    MapsFirst busy shared roots p addr (has prot protWrite) (page + 1) s' := by
  obtain ⟨writes, mapped, seen⟩ := held
  obtain ⟨rfl, -⟩ := vmmVirtToPhys_grown fresh mapped.tables kernel translated
  have viewed := vmmVirtToPhys_viewed fresh mapped.tables kernel member translated
  have one := vmmMapPage_mapped fresh viewed.tables member entered
  refine ⟨_, mapped_trans mapped (mapped_trans viewed one), ?_⟩
  grind [pageFlags, translation_eq_pageAddress, pageAddress_add, access_entry, List.range_succ]

section
variable {p : Process α} (fresh : HandsOut A busy 1) (tables : Tables busy p.state shared roots)
  (member : p.topLevel ∈ roots)
include fresh tables member

theorem fbMmap_extends (kernel : p.kernelTop ∈ roots)
    (ran : fbMmap A p sfile addr size offset prot flags = some p') :
    Extends busy shared roots (fun range => range.file = some sfile ∧ ∃ first, range.physAddr = pageAddress first)
      p p' [⟨addr, size, flags, prot⟩] (pageAccess addr size (has prot protWrite)) := by
  have start : MapsFirst busy shared roots p addr (has prot protWrite) 0 p.state := ⟨[], mapped_refl tables _, rfl⟩
  obtain ⟨s, phys, s', last, state, ⟨writes, mapped, seen⟩, again, once, rfl⟩ := fbMmap_counts ran
    (fun page _ s phys between s' held translated entered => held.turn fresh member kernel translated entered) start
  obtain ⟨rfl, -⟩ := vmmVirtToPhys_grown fresh mapped.tables kernel again
  have viewed := vmmVirtToPhys_viewed fresh mapped.tables kernel member again
  have viewed' := vmmVirtToPhys_viewed fresh viewed.tables kernel member once
  refine ⟨rfl, rfl, rfl, rfl, ⟨_, toList_vecPush _ _, rfl, ?_⟩, _,
    mapped_trans mapped (mapped_trans viewed viewed'), ?_⟩
  · exact List.forall_mem_singleton.mpr ⟨rfl, _, translation_eq_pageAddress _ _ _⟩
  · rw [List.append_nil, List.append_nil]
    exact seen

theorem screen_extends (kernel : p.kernelTop ∈ roots) (device : ForFramebuffer p args)
    (ran : syscallMmap A p args = some (.value adr, p')) :
    Extends busy shared roots (Sound p) p p' [(screenPiece p args).recorded] (screenPiece p args).mapped := by
  obtain ⟨sfile, pipe, hook, served⟩ := syscallMmap_fbMmap device ran
  have more := fbMmap_extends (p := counted p args) fresh tables member kernel served
  obtain ⟨new, listed, recorded, fields⟩ := more.ranges
  refine ⟨more.top, more.kernel, more.files, more.mmapOps, ⟨new, listed, recorded, fun range inside => ?_⟩,
    more.mapped⟩
  obtain ⟨file, aligned⟩ := fields range inside
  have flags : range.flags = args.flags.setWidth 32 := by
    have member := List.mem_map_of_mem (f := record) inside
    rw [recorded, List.mem_singleton] at member
    exact congrArg Record.flags member
  refine ⟨aligned, fun anon => ?_, fun _ => ⟨sfile, file, pipe, hook⟩⟩
  rw [flags, device.file] at anon
  cases anon

theorem loadSegment_extends (fits : SegmentFits A busy buffer p i)
    (ran : loadSegment A buffer p i = some p') :
    Extends busy shared roots (Sound p) p p' ((headerPieces buffer i).map (·.recorded))
      ((headerPieces buffer i).flatMap Piece.mapped) := by
  by_cases load : (progHeader buffer i).type = elfHeadLoad
  · obtain ⟨backed, room⟩ := fits load
    obtain ⟨-, first, mapped, -⟩ := loadSegment_mapped fresh tables member (fun _ => backed) room load ran
    rw [headerPieces, if_pos load]
    unfold loadSegment at ran
    simp only [load, if_true, bind_returns, Prod.exists, Option.some.injEq] at ran
    obtain ⟨addr, s1, given, s2, looped, rfl⟩ := ran
    obtain ⟨-, frame, rfl, -⟩ := pcalloc_mapped backed tables member given
    refine ⟨rfl, rfl, rfl, rfl, ⟨_, toList_vecPush _ _, rfl, ?_⟩, _, mapped, ?_⟩
    · refine List.forall_mem_singleton.mpr ⟨⟨frame, rfl⟩, fun _ => Nat.mul_mod_left .., fun file => ?_⟩
      simp_all [has, mapFixed, mapAnon]
    · rw [segmentWrites, if_pos load, List.flatMap_singleton, ← pageTurns_pages (progHeader buffer i).pages]
      exact access_pageWrites _ _ _ _
  · simp_all [loadSegment, headerPieces, extends_refl]

end

theorem Sound.same (sound : Sound p range) (files : p'.files = p.files) (mmapOps : p'.mmapOps = p.mmapOps) :
    Sound p' range := by
  refine ⟨sound.aligned, sound.whole, ?_⟩
  rw [files, mmapOps]
  exact sound.device

theorem Extends.mono (more : Extends busy shared roots good p p' records pages)
    {good' : MmapRange → Prop} (weaker : ∀ range, good range → good' range) :
    Extends busy shared roots good' p p' records pages := by
  obtain ⟨new, listed, recorded, fields⟩ := more.ranges
  exact { more with ranges := ⟨new, listed, recorded, fun range inside => weaker range (fields range inside)⟩ }

theorem loadSegments_extends (fresh : HandsOut A busy 1) (tables : Tables busy p.state shared roots)
    (member : p.topLevel ∈ roots) (items : List Nat)
    (fits : Along (loadSegment A buffer) (SegmentFits A busy buffer) p items)
    (ran : items.foldlM (loadSegment A buffer) p = some p') :
    Extends busy shared roots (Sound p) p p' ((items.flatMap (headerPieces buffer)).map (·.recorded))
      ((items.flatMap (headerPieces buffer)).flatMap Piece.mapped) := by
  induction items generalizing p with
  | nil =>
    cases ran
    exact extends_refl tables
  | cons i rest ih =>
    rw [List.foldlM_cons] at ran
    obtain ⟨middle, loaded, ran⟩ := Option.bind_eq_some_iff.mp ran
    have first := loadSegment_extends fresh tables member fits.1 loaded
    have later := ih first.tables (first.top ▸ member) (fits.2 middle loaded) ran
    rw [List.flatMap_cons, List.map_append, List.flatMap_append]
    exact first.trans (later.mono fun range sound => sound.same first.files.symm first.mmapOps.symm)

/-! ### The parent -/

/-- What is known of a pagemap made of these pieces. -/
structure Assembly (busy : α → Nat → Prop) (old : BitVec 64 → BitVec 64) (roots : Set Nat) (p : Process α)
    (pieces : List Piece) : Prop where
  tables : Tables busy p.state Upper roots
  member : p.topLevel ∈ roots
  kernel : p.kernelTop ∈ roots
  recorded : p.ranges.toList.map record = pieces.map (·.recorded)
  sound : ∀ range ∈ p.ranges.toList, Sound p range
  shows : ∀ probe, access (leafEntry p.state.mem p.topLevel probe) =
    shown (access (old probe)) (pieces.flatMap Piece.mapped) (pageOf probe)

theorem Assembly.extended (assembly : Assembly busy old roots p pieces)
    (more : Extends busy Upper roots (Sound p) p p' (new.map (·.recorded)) (new.flatMap Piece.mapped)) :
    Assembly busy old roots p' (pieces ++ new) := by
  obtain ⟨ranges, listed, recorded, sound⟩ := more.ranges
  refine ⟨more.tables, more.top ▸ assembly.member, more.kernel ▸ assembly.kernel, ?_, ?_, fun probe => ?_⟩
  · rw [listed, List.map_append, List.map_append, assembly.recorded, recorded]
  · intro range inside
    rw [listed, List.mem_append] at inside
    exact (inside.elim (assembly.sound range) (sound range)).same more.files more.mmapOps
  · rw [more.access_eq, assembly.shows, List.flatMap_append, shown_append]

theorem Assembled.spec (fresh : HandsOut A busy 1) (assembled : Assembled A busy old roots p pieces) :
    Assembly busy old roots p pieces := by
  induction assembled with
  | created empty tables member kernel entries =>
    refine ⟨tables, member, kernel, ?_, ?_, fun probe => ?_⟩
    · rw [empty]
      rfl
    · rw [empty]
      exact List.forall_mem_nil _
    · rw [entries]
      rfl
  | loaded before backed ran ih =>
    exact ih.extended (loadSegments_extends fresh ih.tables ih.member _ backed (loadSegments_of_run ran))
  | screen before device ran ih =>
    have more := screen_extends fresh ih.tables ih.member ih.kernel device ran
    refine ih.extended ?_
    rwa [List.map_singleton, List.flatMap_singleton]
  | elsewhere before ranges top files mmapOps tables member kernel entries ih =>
    refine ⟨tables, top ▸ member, kernel, ?_, ?_, fun probe => ?_⟩
    · rw [ranges]
      exact ih.recorded
    · rw [ranges]
      exact fun range inside => (ih.sound range inside).same files mmapOps
    · rw [top, entries]
      exact ih.shows probe

/-! ### The child -/

/-- The copy of private memory is made on frames that were not in use. -/
def Fed (A : Allocator α) (busy : α → Nat → Prop) (child : Process α) (range : MmapRange) : Prop :=
  has range.flags mapShared = false → has range.flags mapAnon = true →
    HandsOutAt A busy child.state.alloc (range.length / pageSize)

theorem pushRange_extends (tables : Tables busy p.state shared roots) (range : MmapRange) :
    Extends busy shared roots (fun _ => True) p (p.pushRange range) [record range] [] where
  top := rfl
  kernel := rfl
  files := rfl
  mmapOps := rfl
  ranges := ⟨[range], toList_vecPush _ _, rfl, fun _ _ => trivial⟩
  mapped := ⟨[], mapped_refl tables _, rfl⟩

theorem access_rangeWrites (range : MmapRange) (first : Nat) :
    (rangeWrites { range with physAddr := pageAddress first }).map (Prod.map id access) =
      pageAccess range.virtAddr range.length (has range.prot protWrite) :=
  access_pageWrites first range.virtAddr (has range.prot protWrite) range.length

section
variable (fresh : HandsOut A busy 1)
include fresh

section
variable {child : Process α} (tables : Tables busy child.state shared roots) (member : child.topLevel ∈ roots)
include tables member

theorem forkShared_extends (sound : Sound child range) (common : has range.flags mapShared = true)
    (ran : forkRange A child range = some child') :
    Extends busy shared roots (fun _ => True) child child' [record range]
      (pageAccess range.virtAddr range.length (has range.prot protWrite)) := by
  simp only [forkRange, common, if_true, bind_returns, Option.some.injEq] at ran
  obtain ⟨state, looped, rfl⟩ := ran
  obtain ⟨first, frames⟩ := sound.aligned
  have mapped := mapPages_mapped fresh tables member looped
  refine ⟨rfl, rfl, rfl, rfl, ⟨_, toList_vecPush _ _, rfl, fun _ _ => trivial⟩, _, mapped, ?_⟩
  rw [frames]
  exact access_rangeWrites range first

theorem forkAnon_extends (sound : Sound child range) (own : has range.flags mapShared = false)
    (anon : has range.flags mapAnon = true) (fed : Fed A busy child range)
    (ran : forkRange A child range = some child') :
    Extends busy shared roots (fun _ => True) child child' [record range]
      (pageAccess range.virtAddr range.length (has range.prot protWrite)) := by
  simp only [forkRange, own, anon, if_true, Bool.false_eq_true, if_false, bind_returns, Option.some.injEq,
    Prod.exists] at ran
  obtain ⟨_, s1, given, s2, looped, rfl⟩ := ran
  obtain ⟨first, rfl, handed, both⟩ := pcalloc_mapPages fresh (fed own anon) tables member given looped
  have fits : 0 + range.length ≤ range.length / pageSize * pageSize := by
    rw [Nat.zero_add, Nat.div_mul_cancel (Nat.dvd_of_mod_eq_zero (sound.whole anon))]
  have mapped := copy_mapped both member handed fits fun k => s2.mem (range.physAddr.toNat + k)
  rw [Nat.add_zero] at mapped
  exact ⟨rfl, rfl, rfl, rfl, ⟨_, toList_vecPush _ _, rfl, fun _ _ => trivial⟩, _, mapped,
    access_rangeWrites range first⟩

theorem forkDevice_extends (kernel : child.kernelTop ∈ roots) (sound : Sound child range)
    (own : has range.flags mapShared = false) (file : has range.flags mapAnon = false)
    (ran : forkRange A child range = some child') :
    Extends busy shared roots (fun _ => True) child child'
      [⟨range.virtAddr, range.length, range.prot, range.flags⟩, record range]
      (pageAccess range.virtAddr range.length false) := by
  obtain ⟨device, opened, pipe, hook⟩ := sound.device file
  simp only [forkRange, own, file, opened, Bool.false_eq_true, if_false, bind_returned, bind_returns,
    Option.some.injEq] at ran
  obtain ⟨middle, served, mem, -, rfl⟩ := ran
  have mapped : fbMmap A child device range.virtAddr range.length range.offset range.flags range.prot =
      some middle := by
    simp only [vfsMmap, pipe, hook, Bool.false_eq_true, if_false] at served
    cases run : fbMmap A child device range.virtAddr range.length range.offset range.flags range.prot with
    | none => simp [run] at served
    | some q => simpa [run] using served
  have made : Extends busy shared roots (fun _ => True) child middle _ _ :=
    (fbMmap_extends fresh tables member kernel mapped).mono fun _ _ => trivial
  -- in the place of the protection `MAP_SHARED` is `PROT_WRITE`
  rw [show has range.flags protWrite = false from own] at made
  have both := made.trans (pushRange_extends made.tables { range with file := some device, physAddr := mem })
  rw [List.append_nil] at both
  exact both

theorem forkRange_extends (kernel : child.kernelTop ∈ roots) (sound : Sound child range)
    (fed : Fed A busy child range) (ran : forkRange A child range = some child') :
    Extends busy shared roots (fun _ => True) child child' (record range).copies (record range).forked := by
  unfold Record.copies Record.forked Record.direct
  change Extends busy shared roots _ child child'
    (if (has range.flags mapShared || has range.flags mapAnon) = true then _ else _)
    (pageAccess _ _ ((has range.flags mapShared || has range.flags mapAnon) && _))
  cases common : has range.flags mapShared with
  | true => exact forkShared_extends fresh tables member sound common ran
  | false =>
    cases anon : has range.flags mapAnon with
    | true => exact forkAnon_extends fresh tables member sound common anon fed ran
    | false => exact forkDevice_extends fresh tables member kernel sound common anon ran

theorem forkRanges_extends (kernel : child.kernelTop ∈ roots) (ranges : List MmapRange)
    (sound : ∀ range ∈ ranges, Sound child range) (fed : Along (forkRange A) (Fed A busy) child ranges)
    (ran : ranges.foldlM (forkRange A) child = some child') :
    Extends busy shared roots (fun _ => True) child child' ((ranges.map record).flatMap Record.copies)
      ((ranges.map record).flatMap Record.forked) := by
  induction ranges generalizing child with
  | nil =>
    cases ran
    exact extends_refl tables
  | cons range rest ih =>
    rw [List.foldlM_cons] at ran
    obtain ⟨middle, forked, ran⟩ := Option.bind_eq_some_iff.mp ran
    have first := forkRange_extends fresh tables member kernel (sound range List.mem_cons_self) fed.1 forked
    have later := ih first.tables (first.top ▸ member) (first.kernel ▸ kernel)
      (fun other inside => (sound other (List.mem_cons_of_mem _ inside)).same first.files first.mmapOps)
      (fed.2 middle forked) ran
    rw [List.map_cons, List.flatMap_cons, List.flatMap_cons]
    exact first.trans later

end

theorem vmmForkPagemap_extends (assembly : Assembly busy old roots p pieces)
    (fed : ∀ top state, vmmCreateNewPagemap A p.state (p.kernelTop * pageSize) = some (top, state) →
      Along (forkRange A) (Fed A busy) (newPagemap p top state) p.ranges.toList)
    (ran : vmmForkPagemap A p = some child) :
    child.ranges.toList.map record = (p.ranges.toList.map record).flatMap Record.copies ∧
      ∃ before : BitVec 64 → Bool × Bool, ∀ probe, access (leafEntry child.state.mem child.topLevel probe) =
        shown (before probe) ((p.ranges.toList.map record).flatMap Record.forked) (pageOf probe) := by
  simp only [vmmForkPagemap, bind_returns, Prod.exists] at ran
  obtain ⟨adr, state, created, ran⟩ := ran
  have fed := fed adr state created
  obtain ⟨top, rfl, -, tables, -⟩ := vmmCreateNewPagemap_kept fresh assembly.tables assembly.kernel created
  have member : (newPagemap p (top * pageSize) state).topLevel ∈ insert top roots :=
    Or.inl (Nat.mul_div_cancel _ (by decide))
  rw [← List.foldlM_map] at ran
  have more := forkRanges_extends fresh tables member (Or.inr assembly.kernel) p.ranges.toList
    (fun range inside => (assembly.sound range inside).same rfl rfl) fed ran
  obtain ⟨new, listed, recorded, -⟩ := more.ranges
  have blank : (newPagemap p (top * pageSize) state).ranges.toList = [] := rfl
  rw [blank, List.nil_append] at listed
  exact ⟨listed ▸ recorded, _, more.access_eq⟩

end

theorem flatMap_copies_eq_iff (records : List Record) :
    records.flatMap Record.copies = records ↔ ∀ r ∈ records, r.direct = true := by
  have longer (records : List Record) : records.length ≤ (records.flatMap Record.copies).length := by
    induction records with
    | nil => exact Nat.le_refl _
    | cons r rest ih =>
      grind [Record.copies]
  induction records with
  | nil => exact ⟨fun _ => List.forall_mem_nil _, fun _ => rfl⟩
  | cons r rest ih =>
    rw [List.flatMap_cons, List.forall_mem_cons]
    cases direct : r.direct with
    | true => simp [Record.copies, direct, ih]
    | false =>
      have long := longer rest
      constructor
      · intro same
        have lengths := congrArg List.length same
        simp only [Record.copies, direct, Bool.false_eq_true, if_false, List.length_append, List.length_cons,
          List.length_nil] at lengths
        omega
      · simp_all

theorem forked_covers {records : List Record} (listed : r ∈ records) (inside : page < pageTurns r.length) :
    ∃ write ∈ records.flatMap Record.forked,
      write.1 = pageOf (r.virtAddr + BitVec.ofNat 64 (page * pageSize)) :=
  ⟨_, List.mem_flatMap.mpr ⟨r, listed, List.mem_map.mpr ⟨page, List.mem_range.mpr inside, rfl⟩⟩, rfl⟩

theorem forked_present {records : List Record} (listed : (place, seen) ∈ records.flatMap Record.forked) :
    seen.1 = true := by
  obtain ⟨r, -, inside⟩ := List.mem_flatMap.mp listed
  obtain ⟨page, -, same⟩ := List.mem_map.mp inside
  cases same
  rfl

theorem recordedRight_of_same (same : ∀ piece ∈ pieces, piece.recorded.forked = piece.mapped)
    (virtualAddress : BitVec 64) : RecordedRight old pieces virtualAddress := by
  rw [RecordedRight, List.flatMap_congr same]

theorem pageKept_iff_recordedRight {before : BitVec 64 → Bool × Bool} (assembly : Assembly busy old roots p pieces)
    (seen : ∀ probe, access (leafEntry child.state.mem child.topLevel probe) =
      shown (before probe) ((pieces.map (·.recorded)).flatMap Record.forked) (pageOf probe))
    (listed : r ∈ pieces.map (·.recorded)) (inside : page < pageTurns r.length) :
    PageKept p child (r.virtAddr + BitVec.ofNat 64 (page * pageSize)) ↔
      RecordedRight old pieces (r.virtAddr + BitVec.ofNat 64 (page * pageSize)) := by
  have written := forked_covers listed inside
  generalize r.virtAddr + BitVec.ofNat 64 (page * pageSize) = virtualAddress at written ⊢
  obtain ⟨value, member, shows⟩ := shown_of_written written
  have child' : access (leafEntry child.state.mem child.topLevel virtualAddress) = value :=
    (seen virtualAddress).trans (shows _)
  have present : isPresent (leafEntry child.state.mem child.topLevel virtualAddress) = true := by
    have first := forked_present member
    rwa [← child'] at first
  rw [RecordedRight, ← List.flatMap_map, shows, ← child', ← assembly.shows]
  exact ⟨fun kept => kept.2, fun same => ⟨present, same⟩⟩

/-- **What a fork keeps of programs and of the framebuffer.** For a pagemap made
by `elf_run_binary` and by mapping the framebuffer, in any number and order: the
child's ranges are the parent's and its pages are writable where the parent's
are exactly when every mapping of the framebuffer is shared and at every page of
a range the permission last recorded is the one last mapped. -/
theorem fork_preserves_iff (fresh : HandsOut A busy 1) (assembled : Assembled A busy old roots p pieces)
    (fed : ∀ top state, vmmCreateNewPagemap A p.state (p.kernelTop * pageSize) = some (top, state) →
      Along (forkRange A) (Fed A busy) (newPagemap p top state) p.ranges.toList)
    (ran : vmmForkPagemap A p = some child) :
    Preserved p child ↔ (∀ piece ∈ pieces, piece.recorded.direct = true) ∧
      ∀ piece ∈ pieces, ∀ page < pageTurns piece.recorded.length,
        RecordedRight old pieces (piece.recorded.virtAddr + BitVec.ofNat 64 (page * pageSize)) := by
  have assembly := assembled.spec fresh
  obtain ⟨copies, before, seen⟩ := vmmForkPagemap_extends fresh assembly fed ran
  rw [assembly.recorded] at copies seen
  have ranges : child.ranges.toList.map record = p.ranges.toList.map record ↔
      ∀ piece ∈ pieces, piece.recorded.direct = true := by
    rw [copies, assembly.recorded, flatMap_copies_eq_iff, List.forall_mem_map]
  have pages : (∀ range ∈ p.ranges.toList, ∀ page < pageTurns range.length,
        PageKept p child (range.virtAddr + BitVec.ofNat 64 (page * pageSize))) ↔
      ∀ piece ∈ pieces, ∀ page < pageTurns piece.recorded.length,
        RecordedRight old pieces (piece.recorded.virtAddr + BitVec.ofNat 64 (page * pageSize)) := by
    let kept (r : Record) : Prop := ∀ page < pageTurns r.length,
      PageKept p child (r.virtAddr + BitVec.ofNat 64 (page * pageSize))
    have listed : (∀ range ∈ p.ranges.toList, kept (record range)) ↔ ∀ piece ∈ pieces, kept piece.recorded := by
      rw [← List.forall_mem_map, assembly.recorded, List.forall_mem_map]
    refine listed.trans (forall₂_congr fun piece member => forall₂_congr fun page inside => ?_)
    exact pageKept_iff_recordedRight assembly seen (List.mem_map_of_mem member) inside
  exact ⟨fun preserved => ⟨ranges.mp preserved.ranges, pages.mp preserved.pages⟩,
    fun both => ⟨pages.mpr both.2, ranges.mpr both.1⟩⟩

end

/-! ### A program that is to be written -/

/-- One page, to be read and written. -/
def writableSegment : ElfProgHeader := ⟨elfHeadLoad, 6, 0, 0x400000, 4, 0x1000⟩

def writableFile : Memory := ElfImage.elfFile [writableSegment]

theorem writableFile_header : (elfHeader writableFile).progHeadCount.toNat = 1 ∧
    progHeader writableFile 0 = writableSegment := by
  refine ⟨by decide +kernel, ?_⟩
  exact ElfProgHeader.mk.injEq .. |>.mpr (by decide +kernel)

/-- The range the loader records for it. -/
def writableRange (first : Nat) : MmapRange :=
  ⟨none, pageAddress first, 0x400000, 0, pageSize, mapFixed ||| mapAnon, protWrite⟩

theorem writableFile_runs {p : Process Pmm.State} (enough : 4 ≤ (freePages p.state.alloc).card) :
    ∃ entry p' first, elfRunBinary pmmAllocator p writableFile = some (0, entry, p') ∧
      p'.ranges.toList = p.ranges.toList ++ [writableRange first] ∧
      (freePages p.state.alloc).card ≤ (freePages p'.state.alloc).card + 4 := by
  obtain ⟨count, header⟩ := writableFile_header
  have pages : writableSegment.pages = 1 := by decide
  obtain ⟨adr, middle, given, used⟩ := pcalloc_returns pmm_stocked p.state (by omega)
  obtain ⟨first, rfl, -⟩ := pmm_handsOut_page.given _ _ _ (pcalloc_eq given).1
  obtain ⟨final, mapped, used'⟩ := vmmMapPage_returns pmm_stocked middle (by omega) (p.topLevel * pageSize)
    (pageAddress first) 0x400000 0b111
  have zero (adr : BitVec 64) : adr + BitVec.ofNat 64 0 = adr := BitVec.add_zero adr
  have loaded : ∃ p', loadSegment pmmAllocator writableFile p 0 = some p' ∧
      p'.ranges.toList = p.ranges.toList ++ [writableRange first] ∧ p'.state.alloc = final.alloc := by
    unfold loadSegment
    dsimp only
    rw [header, if_pos (show writableSegment.type = elfHeadLoad from rfl), pages, given,
      show has writableSegment.flags pfW = true from rfl]
    simp only [if_true, bind_returned, Nat.one_mul, forPages_page, zero, show writableSegment.virtAddr =
      0x400000 from rfl]
    rw [show BitVec.ofNat 64 (first * pageSize) = pageAddress first from rfl, mapped]
    exact ⟨_, rfl, toList_vecPush _ _, rfl⟩
  obtain ⟨p', ran, listed, alloc⟩ := loaded
  refine ⟨some (elfHeader writableFile).entry, p', first, ?_, listed, by rw [alloc]; omega⟩
  unfold elfRunBinary
  dsimp only
  rw [if_neg (show ¬ (elfHeader writableFile).type ≠ elfExecutable by decide +kernel),
    if_neg (show ¬ (elfHeader writableFile).identifier ≠ elfIdent by decide +kernel), count]
  simp_all

theorem writable_program_forked : ∃ old roots p child,
    Assembled pmmAllocator State.Taken old roots p [segmentPiece writableFile 0] ∧
    vmmForkPagemap pmmAllocator p = some child ∧ Preserved p child := by
  obtain ⟨count, header⟩ := writableFile_header
  have load : (progHeader writableFile 0).type = elfHeadLoad := by
    rw [header]
    rfl
  have pieces : filePieces writableFile = [segmentPiece writableFile 0] := by
    rw [filePieces, count]
    exact (List.append_nil _).trans (if_pos load)
  obtain ⟨q, roots, empty, tables, member, kernel, many⟩ : ∃ (q : Process Pmm.State) (roots : Set Nat), q.ranges.toList = [] ∧
      Tables State.Taken q.state Upper roots ∧ q.topLevel ∈ roots ∧ q.kernelTop ∈ roots ∧
      16 ≤ (freePages q.state.alloc).card := by
    obtain ⟨q, roots, -, tables, member, kernel, -, many⟩ := firstProcess_ready
    exact ⟨{ q with ranges := ⟨q.ranges.data, 0⟩ }, roots, rfl, tables, member, kernel, many⟩
  obtain ⟨entry, p, first, ran, listed, used⟩ := writableFile_runs (p := q) (by omega)
  rw [empty, List.nil_append] at listed
  have backed : Backed pmmAllocator State.Taken q (.runBinary writableFile) := by
    rw [Backed, count]
    refine ⟨fun _ => ?_, fun _ _ => trivial⟩
    rw [header]
    exact ⟨pmm_handsOut_page.given _, by decide⟩
  have created : Assembled pmmAllocator State.Taken (leafEntry q.state.mem q.topLevel) roots q [] :=
    .created empty tables member kernel fun _ => rfl
  have assembled := created.loaded backed ran
  rw [List.nil_append, pieces] at assembled
  obtain ⟨child, forked⟩ := fork_onePage_returns listed (show has (mapFixed ||| mapAnon) mapAnon = true by decide)
    rfl (by omega)
  refine ⟨_, roots, p, child, assembled, forked, ?_⟩
  have same : (segmentPiece writableFile 0).recorded.forked = (segmentPiece writableFile 0).mapped := by
    rw [segmentPiece, header]
    rfl
  apply (fork_preserves_iff pmm_handsOut_page assembled _ forked).mpr
  · exact ⟨List.forall_mem_singleton.mpr rfl, fun _ _ _ _ =>
      recordedRight_of_same (List.forall_mem_singleton.mpr same) _⟩
  · intro top state _
    rw [listed]
    refine ⟨fun _ _ => ?_, fun _ _ => trivial⟩
    rw [show (writableRange first).length / pageSize = 1 from Nat.div_self (show 0 < pageSize by decide)]
    exact pmm_handsOut_page.given _

/-! ### A program that is not to be written, and a private mapping of the screen -/

/-- A process with a new pagemap on a machine with a screen. -/
def userProcess : Option (Process Pmm.State) :=
  (vmmCreateNewPagemap pmmAllocator screenProcess.state (screenProcess.kernelTop * pageSize)).map
    fun made => newPagemap screenProcess made.1 made.2

/-- It runs a program of one page, to be read and executed. -/
def programProcess : Option (Process Pmm.State) := do
  let p ← userProcess
  (elfRunBinary pmmAllocator p ElfImage.oneSegment).map fun answer => answer.2.2

/-- It maps a page of the screen for itself, to be read and written. -/
def privateScreen : MmapArgs := ⟨0, pageSize, 1, 3, 3, 0⟩

def screenUser : Option (Process Pmm.State) := do
  let p ← userProcess
  (syscallMmap pmmAllocator p privateScreen).map Prod.snd

/-- What a process and its child have at an address, and their ranges. -/
def forkView (p : Process Pmm.State) (virtualAddress : BitVec 64) :
    Option ((Bool × Bool) × (Bool × Bool) × List Record × List Record) :=
  (vmmForkPagemap pmmAllocator p).map fun child =>
    (access (leafEntry p.state.mem p.topLevel virtualAddress),
      access (leafEntry child.state.mem child.topLevel virtualAddress),
      p.ranges.toList.map record, child.ranges.toList.map record)

theorem forked_of_view (view : (made.bind fun p => forkView p virtualAddress) = some (mine, its, mineListed, itsListed)) :
    ∃ p child, made = some p ∧ vmmForkPagemap pmmAllocator p = some child ∧
      access (leafEntry p.state.mem p.topLevel virtualAddress) = mine ∧
      access (leafEntry child.state.mem child.topLevel virtualAddress) = its ∧
      p.ranges.toList.map record = mineListed ∧ child.ranges.toList.map record = itsListed := by
  obtain ⟨p, made, view⟩ := Option.bind_eq_some_iff.mp view
  obtain ⟨child, forked, fields⟩ := Option.map_eq_some_iff.mp view
  simp_all

/-- The page that was not to be written is writable in the child. The screen is
not, and its range is there twice. -/
theorem program_and_screen_changed :
    (∃ p child, programProcess = some p ∧ vmmForkPagemap pmmAllocator p = some child ∧
      p.ranges.toList.map record = child.ranges.toList.map record ∧ ¬ Preserved p child) ∧
    ∃ p child, screenUser = some p ∧ vmmForkPagemap pmmAllocator p = some child ∧
      child.ranges.toList.length = 2 * p.ranges.toList.length ∧ ¬ Preserved p child := by
  constructor
  · have view : (programProcess.bind fun p => forkView p 0x400000) = some ((true, false), (true, true),
        [⟨0x400000, 0x1000, 12, 2⟩], [⟨0x400000, 0x1000, 12, 2⟩]) := by
      decide +kernel
    obtain ⟨p, child, made, forked, mine, its, listed, listed'⟩ := forked_of_view view
    refine ⟨p, child, made, forked, listed.trans listed'.symm, fun preserved => ?_⟩
    obtain ⟨range, member, fields⟩ := List.mem_map.mp (listed ▸ List.mem_singleton.mpr rfl :
      (⟨0x400000, 0x1000, 12, 2⟩ : Record) ∈ p.ranges.toList.map record)
    have length : range.length = 0x1000 := congrArg Record.length fields
    have start : range.virtAddr = 0x400000 := congrArg Record.virtAddr fields
    have kept := (preserved.pages range member 0 (by rw [length]; decide)).2
    rw [start] at kept
    exact absurd ((congrArg Prod.snd its).symm.trans (kept.trans (congrArg Prod.snd mine))) (by decide)
  · have view : (screenUser.bind fun p => forkView p 0x90000000000) = some ((true, true), (true, false),
        [⟨0x90000000000, 0x1000, 1, 3⟩], [⟨0x90000000000, 0x1000, 3, 1⟩, ⟨0x90000000000, 0x1000, 1, 3⟩]) := by
      decide +kernel
    obtain ⟨p, child, made, forked, -, -, listed, listed'⟩ := forked_of_view view
    have one := congrArg List.length listed
    have two := congrArg List.length listed'
    rw [List.length_map] at one two
    refine ⟨p, child, made, forked, by rw [one, two]; rfl, fun preserved => ?_⟩
    have same := congrArg List.length preserved.ranges
    rw [List.length_map, List.length_map, one, two] at same
    exact absurd same (by decide)

end MandelbrotOS.ForkPermissions
