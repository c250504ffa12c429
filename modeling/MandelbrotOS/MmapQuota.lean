import Mathlib.Algebra.GroupWithZero.Nat
import MandelbrotOS.Scheduler
import MandelbrotOS.UserRequests

/-! The quota of `syscall_mmap`. The length is rounded up, added to
`mmaped_len` and only then compared with `MMAP_MAX_SIZE`, all in 64 bits: a
length that wraps the sum passes, lowers `mmaped_len` and moves `mmap_top` back,
even when the call is refused later. Below the length where that begins the
quota holds, up to the hooks that accept a call and map nothing. -/
namespace MandelbrotOS.MmapQuota
open ByteMemory Descriptors KernelHalf Mmap PageLoops PageTables Pmm PmmSupply RangeMapping Runs
open UserRequests Vectors Vfs Vmm
open Scheduler (schedMmapTop)

/-- The length in whole pages, as a natural number. -/
def roundUp (length : Nat) : Nat := (length + (pageSize - 1)) / pageSize * pageSize

/-- An accepted call: the address it returned, its length in whole pages,
whether the address was the caller's, and the range it added. -/
structure Grant where
  addr : Nat
  length : Nat
  fixed : Bool
  range : Option MmapRange

/-- A process and the calls that were accepted. -/
structure Ledger (α : Type) where
  process : Process α
  granted : List Grant

variable {α : Type}

/-- The range a call has added to the list. -/
def added (p p' : Process α) : Option MmapRange :=
  if p'.ranges.length = p.ranges.length then none else some (p'.ranges.data p.ranges.length)

def step (A : Allocator α) (s : Ledger α) (args : MmapArgs) : Option (Ledger α) :=
  (syscallMmap A s.process args).map fun (reply, p) =>
    match reply with
    | .value addr =>
      ⟨p, ⟨addr, roundUp args.length, has (args.flags.setWidth 32) mapFixed, added s.process p⟩ :: s.granted⟩
    | _ => ⟨p, s.granted⟩

/-- The call mapped a page or more at the address it returned. -/
def Grant.Mapped (grant : Grant) : Prop :=
  ∃ range, grant.range = some range ∧ range.virtAddr.toNat = grant.addr ∧ 0 < range.length

def Grant.Apart (one other : Grant) : Prop :=
  one.fixed = false → other.fixed = false →
    one.addr + one.length ≤ other.addr ∨ other.addr + other.length ≤ one.addr

/-- The accepted lengths sum up to no more than `MMAP_MAX_SIZE`, each accepted
call mapped something, and the ranges handed out do not overlap. -/
structure Quota (s : Ledger α) : Prop where
  total : (s.granted.map Grant.length).sum ≤ mmapMaxSize
  mapped : ∀ grant ∈ s.granted, grant.Mapped
  apart : s.granted.Pairwise Grant.Apart

/-- The request passes the checks that `syscall_mmap` makes before it serves it. -/
structure Passes (p : Process α) (args : MmapArgs) : Prop extends Counted p args where
  aligned : has (args.flags.setWidth 32) mapFixed = true → args.addr.toNat % pageSize = 0

/-- The request is for a file with the hook of a mouse or of a FAT file, neither
of which maps anything. -/
def EmptyFile (p : Process α) (args : MmapArgs) : Prop :=
  has (args.flags.setWidth 32) mapAnon = false ∧
  ∃ file, 0 ≤ args.fd ∧ p.fds args.fd.toNat = some file ∧
    (has (args.prot.setWidth 32) protWrite && has (args.flags.setWidth 32) mapShared &&
      !has file.flags (oRdwr ||| oWronly)) = false ∧
    isFifo (p.files file.file) = false ∧
    (p.mmapOps file.file = some .mousedevMmap ∨ p.mmapOps file.file = some .fatMmap)

/-- The call does not get to a hook that maps nothing. -/
def MapsSomething (s : Ledger α) (args : MmapArgs) : Prop :=
  ¬ (Passes s.process args ∧ EmptyFile s.process args)

/-- A process as `sched_new_proc` makes it. -/
structure Fresh (p : Process α) : Prop where
  mmapedLen : p.mmapedLen = 0
  mmapTop : p.mmapTop = schedMmapTop

/-! ### One call -/

section
variable {A : Allocator α}

theorem fbMmap_outcome (ran : fbMmap A p sfile addr size offset prot flags = some p') :
    p'.mmapedLen = p.mmapedLen ∧ p'.mmapTop = p.mmapTop ∧
      ∃ range, p'.ranges = vecPush p.ranges range ∧ range.virtAddr = addr ∧ range.length = size := by
  simp only [fbMmap, bind_returns, Prod.exists, Option.some.injEq] at ran
  obtain ⟨_, _, phys, _, _, _, _, _, rfl⟩ := ran
  exact ⟨rfl, rfl, _, rfl, rfl, rfl⟩

theorem vmmMmapRange_outcome (ran : vmmMmapRange A p physAddr virtAddr length flags prot = some p') :
    p'.mmapedLen = p.mmapedLen ∧ p'.mmapTop = p.mmapTop ∧
      ∃ range, p'.ranges = vecPush p.ranges range ∧ range.virtAddr = virtAddr ∧ range.length = length := by
  obtain ⟨_, _, same⟩ := Option.bind_eq_some_iff.mp ran
  cases same
  exact ⟨rfl, rfl, _, rfl, rfl, rfl⟩

/-- What a call that chose its address leaves of the counters and adds to the
ranges. -/
theorem mmapAt_outcome (ran : mmapAt A p args addr = some (reply, p')) (needed : 0 < neededPages args.length)
    (positive : args.length ≠ 0) :
    p'.mmapedLen = p.mmapedLen ∧ p'.mmapTop = p.mmapTop ∧ ∀ result, reply = .value result →
      result = addr.toNat ∧ (EmptyFile p args ∨
        ∃ range, p'.ranges = vecPush p.ranges range ∧ range.virtAddr = addr ∧ 0 < range.length) := by
  have refused {errno : Nat} : (some (Reply.error errno, p) : Option (Reply × Process α)) = some (reply, p') →
      p'.mmapedLen = p.mmapedLen ∧ p'.mmapTop = p.mmapTop ∧ ∀ result, reply = .value result →
        result = addr.toNat ∧ (EmptyFile p args ∨
          ∃ range, p'.ranges = vecPush p.ranges range ∧ range.virtAddr = addr ∧ 0 < range.length) := by
    grind
  cases anon : has (args.flags.setWidth 32) mapAnon with
  | true =>
    simp only [mmapAt, anon, if_true, bind_returns, Prod.exists] at ran
    obtain ⟨givenPages, state, given, ran⟩ := ran
    split at ran
    · cases ran
      exact ⟨rfl, rfl, by simp⟩
    · obtain ⟨q, mapped, ran⟩ := Option.bind_eq_some_iff.mp ran
      cases ran
      obtain ⟨len, top, range, pushed, place, size⟩ := vmmMmapRange_outcome mapped
      refine ⟨len, top, fun result same => ?_⟩
      cases same
      refine ⟨rfl, Or.inr ⟨range, pushed, place, ?_⟩⟩
      rw [size]
      exact Nat.mul_pos needed (by decide)
  | false =>
    simp only [mmapAt, anon, Bool.false_eq_true, if_false] at ran
    split at ran
    · exact refused ran
    rename_i opened
    split at ran
    · cases ran
      exact ⟨rfl, rfl, by simp⟩
    rename_i file found
    split at ran
    · exact refused ran
    rename_i writable
    split at ran
    · exact refused ran
    rename_i notFifo
    split at ran
    · cases ran
    · cases ran
      exact ⟨rfl, rfl, by simp⟩
    rename_i served
    cases ran
    have empty (hook : p.mmapOps file.file = some .mousedevMmap ∨ p.mmapOps file.file = some .fatMmap) :
        EmptyFile p args :=
      ⟨anon, file, by omega, found, by simpa using writable, by simpa using notFifo, hook⟩
    unfold vfsMmap at served
    rw [if_neg notFifo] at served
    grind [Option.map_eq_some_iff, fbMmap_outcome]

theorem syscallMmap_outcome (ran : syscallMmap A p args = some (reply, p'))
    (needed : args.length ≠ 0 → 0 < neededPages args.length) :
    (p'.mmapedLen = p.mmapedLen ∧ p'.mmapTop = p.mmapTop ∧ ∀ result, reply ≠ .value result) ∨
      args.length ≠ 0 ∧ p'.mmapedLen = (p.mmapedLen + neededPages args.length * pageSize) % wordSize ∧
      p'.mmapedLen ≤ mmapMaxSize ∧
      p'.mmapTop = (if has (args.flags.setWidth 32) mapFixed then p.mmapTop
        else (p.mmapTop + (neededPages args.length + 1) * pageSize) % wordSize) ∧
      ∀ result, reply = .value result → result = (mmapAddr p args).toNat ∧
        (Passes p args ∧ EmptyFile p args ∨ ∃ range, p'.ranges = vecPush p.ranges range ∧
          range.virtAddr = mmapAddr p args ∧ 0 < range.length) := by
  by_cases checked : Counted p args
  · rw [syscallMmap_counted checked] at ran
    split at ran
    · cases ran
      exact Or.inr ⟨checked.length, rfl, checked.room, rfl, by simp⟩
    · rename_i aligned
      obtain ⟨len, top, granted⟩ := mmapAt_outcome ran (needed checked.length) checked.length
      refine Or.inr ⟨checked.length, len, len ▸ checked.room, top, fun result same => ?_⟩
      refine (granted result same).imp_right (Or.imp_left fun empty => ⟨⟨checked, fun fixed => ?_⟩, empty⟩)
      exact not_not.mp fun odd => aligned ⟨fixed, odd⟩
  · obtain ⟨errno, refused⟩ := syscallMmap_uncounted (A := A) checked
    grind

theorem syscallMmap_empty (passes : Passes p args) (empty : EmptyFile p args) :
    ∃ result p', syscallMmap A p args = some (.value result, p') ∧ p'.ranges = p.ranges := by
  obtain ⟨notAnon, file, isFd, found, writable, notFifo, hook⟩ := empty
  refine ⟨(mmapAddr p args).toNat, counted p args, ?_, rfl⟩
  rw [syscallMmap_counted passes.toCounted, if_neg fun odd => odd.2 (passes.aligned odd.1)]
  simp only [mmapAt, notAnon, Bool.false_eq_true, if_false, Int.not_lt.mpr isFd, counted, found, writable,
    notFifo, vfsMmap]
  rcases hook with hook | hook <;> rw [hook]

/-! ### Short lengths -/

/-- The longest length that cannot wrap the sum. -/
def lengthBound : Nat := wordSize - mmapMaxSize - pageSize

theorem neededPages_short (short : length ≤ lengthBound) :
    neededPages length * pageSize = roundUp length ∧ roundUp length + mmapMaxSize < wordSize ∧
      (length ≠ 0 → pageSize ≤ roundUp length) := by
  simp only [lengthBound, neededPages, roundUp, wordSize, mmapMaxSize, pageSize] at short ⊢
  omega

/-- What holds between calls with short lengths: `mmaped_len` covers what was
accepted, and all ranges handed out lie below `mmap_top`. -/
structure Kept (s : Ledger α) : Prop where
  total : (s.granted.map Grant.length).sum ≤ s.process.mmapedLen
  bounded : s.process.mmapedLen ≤ mmapMaxSize
  top : s.process.mmapTop ≤ schedMmapTop + 2 * s.process.mmapedLen
  below : ∀ grant ∈ s.granted, grant.fixed = false → grant.addr + grant.length ≤ s.process.mmapTop
  mapped : ∀ grant ∈ s.granted, grant.Mapped
  apart : s.granted.Pairwise Grant.Apart

theorem quota_of_kept {s : Ledger α} (kept : Kept s) : Quota s :=
  ⟨Nat.le_trans kept.total kept.bounded, kept.mapped, kept.apart⟩

theorem kept_start {p : Process α} (fresh : Fresh p) : Kept ⟨p, []⟩ := by
  refine ⟨Nat.zero_le _, ?_, ?_, by simp, by simp, List.Pairwise.nil⟩
  · rw [fresh.mmapedLen]
    exact Nat.zero_le _
  · rw [fresh.mmapTop]
    exact Nat.le_add_right _ _

theorem counters_short {process : Process α} {fixed : Bool} (kept : Kept s) (short : length ≤ lengthBound)
    (positive : length ≠ 0) (room : process.mmapedLen ≤ mmapMaxSize)
    (len : process.mmapedLen = (s.process.mmapedLen + neededPages length * pageSize) % wordSize)
    (top : process.mmapTop = if fixed then s.process.mmapTop
      else (s.process.mmapTop + (neededPages length + 1) * pageSize) % wordSize) :
    process.mmapedLen = s.process.mmapedLen + roundUp length ∧
      process.mmapTop = (if fixed then s.process.mmapTop else s.process.mmapTop + roundUp length + pageSize) ∧
      process.mmapTop ≤ schedMmapTop + 2 * process.mmapedLen := by
  obtain ⟨pages, fits, whole⟩ := neededPages_short short
  have bounded := kept.bounded
  have low := kept.top
  have page := whole positive
  have far : schedMmapTop + 2 * mmapMaxSize < wordSize := by decide
  rw [Nat.succ_mul, pages, ← Nat.add_assoc] at top
  rw [pages, Nat.mod_eq_of_lt (by omega)] at len
  by_cases isFixed : fixed = true
  · grind
  · rw [if_neg isFixed] at top ⊢
    rw [Nat.mod_eq_of_lt (by omega)] at top
    exact ⟨len, top, by omega⟩

theorem added_push {p p' : Process α} (pushed : p'.ranges = vecPush p.ranges range) :
    added p p' = some range := by
  rw [added, pushed]
  simp [vecPush]

theorem kept_step (s : Ledger α) (args : MmapArgs) (next : Ledger α) (kept : Kept s)
    (short : args.length ≤ lengthBound) (maps : MapsSomething s args)
    (ran : step A s args = some next) : Kept next := by
  obtain ⟨⟨reply, p⟩, called, result⟩ := Option.map_eq_some_iff.mp ran
  have needed (positive : args.length ≠ 0) : 0 < neededPages args.length := by
    grind [neededPages_short, pageSize]
  rcases syscallMmap_outcome called needed with
    ⟨len, top, unaccepted⟩ | ⟨positive, len, room, top, accepted⟩
  · have same : next = ⟨p, s.granted⟩ := by
      cases reply with
      | value addr => exact absurd rfl (unaccepted addr)
      | error errno => exact result.symm
      | fault => exact result.symm
    rw [same]
    refine ⟨len ▸ kept.total, len ▸ kept.bounded, ?_, top ▸ kept.below, kept.mapped, kept.apart⟩
    show p.mmapTop ≤ schedMmapTop + 2 * p.mmapedLen
    rw [len, top]
    exact kept.top
  · obtain ⟨counted, raised, low⟩ := counters_short kept short positive room len top
    have total : (s.granted.map Grant.length).sum ≤ p.mmapedLen := by
      rw [counted]
      exact Nat.le_trans kept.total (Nat.le_add_right _ _)
    have stays : s.process.mmapTop ≤ p.mmapTop := by
      rw [raised]
      split <;> omega
    have below : ∀ grant ∈ s.granted, grant.fixed = false → grant.addr + grant.length ≤ p.mmapTop :=
      fun grant member free => Nat.le_trans (kept.below grant member free) stays
    cases reply with
    | error errno =>
      cases result
      exact ⟨total, room, low, below, kept.mapped, kept.apart⟩
    | fault =>
      cases result
      exact ⟨total, room, low, below, kept.mapped, kept.apart⟩
    | value addr =>
      cases result
      obtain ⟨place, recorded⟩ := accepted addr rfl
      obtain ⟨range, pushed, start, nonempty⟩ := recorded.resolve_left maps
      -- without MAP_FIXED the address is the old top, which everything handed out is below
      have atTop (free : has (args.flags.setWidth 32) mapFixed = false) :
          addr = s.process.mmapTop ∧ p.mmapTop = addr + roundUp args.length + pageSize := by
        have isFree : ¬ has (args.flags.setWidth 32) mapFixed = true := by rw [free]; exact Bool.false_ne_true
        have small : s.process.mmapTop < 2 ^ 64 := by
          grind [schedMmapTop, mmapMaxSize]
        rw [mmapAddr, if_neg isFree, BitVec.toNat_ofNat, Nat.mod_eq_of_lt small] at place
        grind
      refine ⟨?_, room, low, ?_, ?_, List.pairwise_cons.mpr ⟨?_, kept.apart⟩⟩
      · show roundUp args.length + (s.granted.map Grant.length).sum ≤ p.mmapedLen
        rw [counted, Nat.add_comm]
        exact Nat.add_le_add_right kept.total _
      · grind
      · intro grant member
        rcases List.mem_cons.mp member with rfl | member
        · exact ⟨range, added_push pushed, by rw [start, place], nonempty⟩
        · exact kept.mapped grant member
      · intro grant member free others
        refine Or.inr ?_
        show grant.addr + grant.length ≤ addr
        rw [(atTop free).1]
        exact kept.below grant member others

theorem not_quota_step (s : Ledger α) (args : MmapArgs) (empty : ¬ MapsSomething s args) :
    ∃ next, step A s args = some next ∧ ¬ Quota next := by
  obtain ⟨passes, empty⟩ := not_not.mp empty
  obtain ⟨result, p', ran, same⟩ := syscallMmap_empty (A := A) passes empty
  refine ⟨_, congrArg (Option.map _) ran, fun quota => ?_⟩
  obtain ⟨range, recorded, -⟩ := quota.mapped _ List.mem_cons_self
  simp_all [added]

/-! ### Longer lengths -/

/-- One anonymous page wherever `syscall_mmap` likes. -/
def anonPage : MmapArgs := ⟨0, 0x1000, 0x9, 0x2, -1, 0⟩

/-- A request that is refused because its address is not aligned. -/
def misaligned (length : Nat) : MmapArgs := ⟨1, length, 0x5, 0x2, -1, 0⟩

/-- A request that is refused because it names no file. -/
def unbacked (length : Nat) : MmapArgs := ⟨0, length, 0x1, 0x2, -1, 0⟩

theorem counted_noFile {p : Process α} (noFile : args.fd = -1) (positive : args.length ≠ 0)
    (kind : has (args.flags.setWidth 32) mapPrivate = true)
    (room : (p.mmapedLen + neededPages args.length * pageSize) % wordSize ≤ mmapMaxSize) : Counted p args :=
  ⟨fun isFd => absurd isFd (by omega), positive, Or.inr kind, room⟩

section
variable (p : Process α) (positive : length ≠ 0)
  (room : (p.mmapedLen + neededPages length * pageSize) % wordSize ≤ mmapMaxSize)
include p positive room

theorem syscallMmap_misaligned : syscallMmap A p (misaligned length) = some (.error einval,
      { p with mmapedLen := (p.mmapedLen + neededPages length * pageSize) % wordSize }) := by
  have flags : (misaligned length).flags.setWidth 32 = 0x5 :=
    show (0x5 : BitVec 64).setWidth 32 = 0x5 by decide
  have odd : (misaligned length).addr.toNat % pageSize ≠ 0 :=
    show (1 : BitVec 64).toNat % pageSize ≠ 0 by decide
  have fixed : has ((misaligned length).flags.setWidth 32) mapFixed = true := by rw [flags]; decide
  have checked : Counted p (misaligned length) := counted_noFile rfl positive (by rw [flags]; decide) room
  rw [syscallMmap_counted checked, if_pos ⟨fixed, odd⟩, counted, if_pos fixed]
  rfl

theorem syscallMmap_unbacked : syscallMmap A p (unbacked length) = some (.error ebadf,
      { p with
        mmapedLen := (p.mmapedLen + neededPages length * pageSize) % wordSize
        mmapTop := (p.mmapTop + (neededPages length + 1) * pageSize) % wordSize }) := by
  have flags : (unbacked length).flags.setWidth 32 = 0x1 :=
    show (0x1 : BitVec 64).setWidth 32 = 0x1 by decide
  have noFile : (unbacked length).fd < 0 := show (-1 : Int) < 0 by decide
  have notAnon : has 0x1 mapAnon = false := by decide
  have free : ¬ has ((unbacked length).flags.setWidth 32) mapFixed = true := by rw [flags]; decide
  have checked : Counted p (unbacked length) := counted_noFile rfl positive (by rw [flags]; decide) room
  rw [syscallMmap_counted checked, if_neg fun odd => free odd.1, counted, if_neg free]
  simp only [mmapAt, flags, notAnon, Bool.false_eq_true, if_false, noFile, if_true]
  rfl

end

theorem mmap_anonPage {busy : α → Nat → Prop} {spare : α → Nat} {roots : Set Nat} {p : Process α}
    (fresh : HandsOut A busy 1) (stocked : Stocked A spare)
    (tables : Tables busy p.state Upper roots) (member : p.topLevel ∈ roots)
    (room : p.mmapedLen + 0x1000 ≤ mmapMaxSize) (enough : 4 ≤ spare p.state.alloc) :
    ∃ state range, Tables busy state Upper roots ∧ spare p.state.alloc ≤ spare state.alloc + 4 ∧
      syscallMmap A p anonPage = some (.value (p.mmapTop % 2 ^ 64), Process.pushRange
        { p with
          mmapedLen := p.mmapedLen + 0x1000
          mmapTop := (p.mmapTop + 0x2000) % wordSize
          state := state } range) := by
  obtain ⟨adr, middle, given, used⟩ := pcalloc_returns stocked p.state (by omega)
  obtain ⟨frame, rfl, bound, unused, inUse, _⟩ := pcalloc_page fresh tables.null given
  have grown := (pcalloc_grown (fresh.given p.state.alloc) tables given).1
  obtain ⟨final, mapped, used'⟩ := vmmMapPage_returns stocked middle (by omega) (p.topLevel * pageSize)
    (pageAddress frame) (BitVec.ofNat 64 p.mmapTop) 0b111
  have entered := vmmMapPage_entered fresh grown.tables member mapped
  have notNull := address_ne_null tables.null unused
  have needed : neededPages anonPage.length = 1 := by decide
  have inside : (p.mmapedLen + 1 * pageSize) % wordSize = p.mmapedLen + 0x1000 :=
    Nat.mod_eq_of_lt (Nat.lt_of_le_of_lt room (by decide))
  have ranged := vmmMmapRange_page
    { p with
      mmapedLen := p.mmapedLen + 0x1000
      mmapTop := (p.mmapTop + 0x2000) % wordSize
      state := middle } 0x9 0x2 mapped
  refine ⟨final, ⟨none, pageAddress frame, BitVec.ofNat 64 p.mmapTop, 0, pageSize, 0x9 ||| mapAnon, 0x2⟩,
    entered.tables, Nat.le_trans used (Nat.add_le_add_right used' 1), ?_⟩
  have checked : Counted p anonPage :=
    counted_noFile rfl (by decide) (by decide) (by rw [needed, inside]; exact room)
  have flags : anonPage.flags.setWidth 32 = 0x9 := by decide
  have prot : anonPage.prot.setWidth 32 = 0x2 := by decide
  have anon : has 0x9 mapAnon = true := by decide
  have free : ¬ has 0x9 mapFixed = true := by decide
  simp_all [syscallMmap_counted, counted, mmapAddr, mmapAt, pageSize, pageAddress]

theorem step_refused {s : Ledger α} (ran : syscallMmap A s.process args = some (.error errno, p)) :
    step A s args = some ⟨p, s.granted⟩ := by
  rw [step, ran]
  rfl

theorem step_anonPage {s : Ledger α} (ran : syscallMmap A s.process anonPage = some (.value addr, p)) :
    step A s anonPage = some ⟨p, ⟨addr, 0x1000, false, added s.process p⟩ :: s.granted⟩ := by
  rw [step, ran]
  rfl

/-- Two pages, and between them three refused requests that bring `mmap_top`
back to where it was. -/
def overlappingRun : List MmapArgs :=
  [anonPage, misaligned 0x1fff000, unbacked (lengthBound + 1), unbacked 0x1ffc000, anonPage]

theorem refusals_rewind (q : Process α) (granted : List Grant) (len : q.mmapedLen = 0x1000)
    (top : q.mmapTop = schedMmapTop + 0x2000) (positive : long ≠ 0)
    (wrapped : (mmapMaxSize + neededPages long * pageSize) % wordSize = 0)
    (back : (schedMmapTop + 0x2000 + (neededPages long + 1) * pageSize) % wordSize = schedMmapTop - 0x1ffd000) :
    [misaligned 0x1fff000, unbacked long, unbacked 0x1ffc000].foldlM (step A) ⟨q, granted⟩ =
      some ⟨{ q with mmapedLen := 0x1ffc000, mmapTop := schedMmapTop }, granted⟩ := by
  have full : (0x1000 + neededPages 0x1fff000 * pageSize) % wordSize = mmapMaxSize := by decide
  have again : (0 + neededPages 0x1ffc000 * pageSize) % wordSize = 0x1ffc000 := by decide
  have forth : (schedMmapTop - 0x1ffd000 + (neededPages 0x1ffc000 + 1) * pageSize) % wordSize =
      schedMmapTop := by decide
  have first : step A ⟨q, granted⟩ (misaligned 0x1fff000) =
      some ⟨{ q with mmapedLen := mmapMaxSize }, granted⟩ := by
    have ran := syscallMmap_misaligned (A := A) q (show 0x1fff000 ≠ 0 by decide) (by rw [len, full])
    rw [len, full] at ran
    exact step_refused ran
  have second : step A ⟨{ q with mmapedLen := mmapMaxSize }, granted⟩ (unbacked long) =
      some ⟨{ q with mmapedLen := 0, mmapTop := schedMmapTop - 0x1ffd000 }, granted⟩ := by
    have ran := syscallMmap_unbacked (A := A) { q with mmapedLen := mmapMaxSize } positive
      (wrapped ▸ Nat.zero_le _)
    rw [← top] at back
    dsimp only at ran
    rw [wrapped, back] at ran
    exact step_refused ran
  have third : step A ⟨{ q with mmapedLen := 0, mmapTop := schedMmapTop - 0x1ffd000 }, granted⟩
      (unbacked 0x1ffc000) = some ⟨{ q with mmapedLen := 0x1ffc000, mmapTop := schedMmapTop }, granted⟩ := by
    have ran := syscallMmap_unbacked (A := A) { q with mmapedLen := 0, mmapTop := schedMmapTop - 0x1ffd000 }
      (show 0x1ffc000 ≠ 0 by decide) (Nat.le_trans (Nat.le_of_eq again) (by decide))
    dsimp only at ran
    rw [again, forth] at ran
    exact step_refused ran
  rw [List.foldlM_cons, first, bind_returned, List.foldlM_cons, second, bind_returned, List.foldlM_cons, third]
  rfl

theorem overlappingRun_overlaps {busy : α → Nat → Prop} {spare : α → Nat} {roots : Set Nat} {p : Process α}
    (new : Fresh p) (fresh : HandsOut A busy 1) (stocked : Stocked A spare)
    (tables : Tables busy p.state Upper roots) (member : p.topLevel ∈ roots)
    (enough : 8 ≤ spare p.state.alloc) :
    ∃ final, overlappingRun.foldlM (step A) ⟨p, []⟩ = some final ∧
      final.granted.map (fun grant => (grant.addr, grant.length, grant.fixed)) =
        [(schedMmapTop, 0x1000, false), (schedMmapTop, 0x1000, false)] := by
  obtain ⟨state, range, tables', left, first⟩ :=
    mmap_anonPage fresh stocked tables member (by rw [new.mmapedLen]; decide) (by omega)
  rw [new.mmapedLen, new.mmapTop, show schedMmapTop % 2 ^ 64 = schedMmapTop by decide,
    show (schedMmapTop + 0x2000) % wordSize = schedMmapTop + 0x2000 by decide] at first
  generalize recorded : Process.pushRange _ range = q at first
  have given : step A ⟨p, []⟩ anonPage = some ⟨q, [⟨schedMmapTop, 0x1000, false, added p q⟩]⟩ :=
    step_anonPage first
  have rewound := refusals_rewind (A := A) q [⟨schedMmapTop, 0x1000, false, added p q⟩]
    (by rw [← recorded]; rfl) (by rw [← recorded]; rfl) (show lengthBound + 1 ≠ 0 by decide) (by decide)
    (by decide)
  have ready : Tables busy q.state Upper roots ∧ q.topLevel ∈ roots ∧ 4 ≤ spare q.state.alloc := by
    rw [← recorded]
    exact ⟨tables', member, show 4 ≤ spare state.alloc by omega⟩
  obtain ⟨_, _, _, _, second⟩ :=
    mmap_anonPage (p := { q with mmapedLen := 0x1ffc000, mmapTop := schedMmapTop }) fresh stocked
      ready.1 ready.2.1 (show 0x1ffc000 + 0x1000 ≤ mmapMaxSize by decide) ready.2.2
  rw [show ({ q with mmapedLen := 0x1ffc000, mmapTop := schedMmapTop } : Process α).mmapTop % 2 ^ 64 =
    schedMmapTop from (show schedMmapTop % 2 ^ 64 = schedMmapTop by decide)] at second
  generalize Process.pushRange _ _ = final at second
  generalize { q with mmapedLen := 0x1ffc000, mmapTop := schedMmapTop } = middle at rewound second
  have again : step A ⟨middle, [⟨schedMmapTop, 0x1000, false, added p q⟩]⟩ anonPage = some ⟨final,
      [⟨schedMmapTop, 0x1000, false, added middle final⟩, ⟨schedMmapTop, 0x1000, false, added p q⟩]⟩ :=
    step_anonPage second
  refine ⟨⟨final, [⟨schedMmapTop, 0x1000, false, added middle final⟩,
    ⟨schedMmapTop, 0x1000, false, added p q⟩]⟩, ?_, rfl⟩
  rw [show overlappingRun = anonPage :: ([misaligned 0x1fff000, unbacked (lengthBound + 1), unbacked 0x1ffc000]
      ++ [anonPage]) from rfl, List.foldlM_cons, given, bind_returned, List.foldlM_append, rewound,
      bind_returned, List.foldlM_cons, again]
  rfl

theorem not_quota_of_overlap {s : Ledger α}
    (shape : s.granted.map (fun grant => (grant.addr, grant.length, grant.fixed)) =
      [(schedMmapTop, 0x1000, false), (schedMmapTop, 0x1000, false)]) : ¬ Quota s := by
  intro quota
  obtain ⟨one, rest, pages, isOne, others⟩ := List.map_eq_cons_iff.mp shape
  obtain ⟨other, rest, rfl, isOther, -⟩ := List.map_eq_cons_iff.mp others
  simp only [Prod.mk.injEq] at isOne isOther
  have apart := quota.apart
  rw [pages] at apart
  have disjoint := List.rel_of_pairwise_cons apart List.mem_cons_self isOne.2.2 isOther.2.2
  omega

theorem overlappingRun_mapsSomething (args : MmapArgs) (member : args ∈ overlappingRun) (s : Ledger α) :
    MapsSomething s args := by
  rintro ⟨-, -, file, isFd, -⟩
  have noFile : ∀ args ∈ overlappingRun, args.fd < 0 := by decide
  exact absurd isFd (Int.not_le.mpr (noFile args member))

end

theorem firstProcess_fresh (started : firstProcess = some p) : Fresh p := by
  simp only [firstProcess, bind_returns, Option.some.injEq] at started
  obtain ⟨_, _, _, _, _, _, rfl⟩ := started
  exact ⟨rfl, rfl⟩

/-- With lengths up to a bound the quota holds in every run of every new
process, up to the calls that get to an empty hook, exactly when the bound
leaves room for `MMAP_MAX_SIZE` and a page below `2 ^ 64`. -/
theorem mapping_quota_iff (bound : Nat) :
    (∀ (α : Type) (A : Allocator α) (p : Process α), Fresh p → ∀ calls : List MmapArgs,
      (∀ args ∈ calls, args.length ≤ bound) →
        (Throughout (step A) Quota ⟨p, []⟩ calls ↔ Along (step A) MapsSomething ⟨p, []⟩ calls)) ↔
      bound ≤ 2 ^ 64 - mmapMaxSize - pageSize := by
  constructor
  · intro holds
    by_contra long
    obtain ⟨p, roots, started, tables, member, -, -, many⟩ := firstProcess_ready
    have new := firstProcess_fresh started
    obtain ⟨final, ran, shape⟩ :=
      overlappingRun_overlaps new pmm_handsOut_page pmm_stocked tables member (by omega)
    have short : ∀ args ∈ overlappingRun, args.length ≤ lengthBound + 1 := by decide
    have kept := (holds _ pmmAllocator p new overlappingRun fun args inside =>
      Nat.le_trans (short args inside) (Nat.not_le.mp long)).mpr
      (along_of_mem overlappingRun_mapsSomething _)
    exact not_quota_of_overlap shape (throughout_end kept ran)
  · intro small α A p new calls short
    exact throughout_iff_along_of_valid (fun _ => quota_of_kept) kept_step
      (fun s args _ _ => not_quota_step s args) (fun args inside => Nat.le_trans (short args inside) small)
      (kept_start new)

/-- From the first process, two pages at one address. -/
theorem two_pages_at_one_address : ∃ p final, firstProcess = some p ∧ Fresh p ∧
    overlappingRun.foldlM (step pmmAllocator) ⟨p, []⟩ = some final ∧
    final.granted.map (fun grant => (grant.addr, grant.length, grant.fixed)) =
      [(schedMmapTop, 0x1000, false), (schedMmapTop, 0x1000, false)] ∧ ¬ Quota final := by
  obtain ⟨p, roots, started, tables, member, -, -, many⟩ := firstProcess_ready
  have new := firstProcess_fresh started
  obtain ⟨final, ran, shape⟩ :=
    overlappingRun_overlaps new pmm_handsOut_page pmm_stocked tables member (by omega)
  exact ⟨p, final, started, new, ran, shape, not_quota_of_overlap shape⟩

end MandelbrotOS.MmapQuota
