import MandelbrotOS.HandleBooks

/-! The three calls that hand out descriptors, on any table: when does one that
fails leave everything as it was. -/
namespace MandelbrotOS.DescriptorSlots
open Vfs Descriptors Handles HandleBooks

variable {Vol : Type}

/-- The first slot from `low` on that is `NULL`. -/
structure LowestFree (fds : Nat → Option SyscallFile) (low i : Nat) : Prop where
  above : low ≤ i
  below : i < fdsCount
  free : fds i = none
  first : ∀ j, low ≤ j → j < i → fds j ≠ none

/-- Descriptors that are the lowest free slots, one after the other. -/
def Lowest (fds : Nat → Option SyscallFile) : Nat → List Nat → Prop
  | _, [] => True
  | low, i :: rest => LowestFree fds low i ∧ Lowest fds (i + 1) rest

/-- A call that was to return the descriptors `new`, none of them below `low`:
it returned them and changed no other slot, or it returned an error and left the
table and every count alone. -/
inductive AllOrNothing (before after : Books Vol) (low : Nat) (new : List Nat) : Reply → Prop where
  | all (lowest : Lowest before.fds low new) (filled : ∀ i ∈ new, after.fds i ≠ none)
      (kept : ∀ i ∉ new, after.fds i = before.fds i) : AllOrNothing before after low new (.value result)
  | nothing (negative : 0 < errno) (table : after.fds = before.fds) (counts : after.ledger = before.ledger) :
      AllOrNothing before after low new (.error errno)

/-- The descriptor that a call returns. -/
def returned : Reply → List Nat
  | .value i => [i]
  | _ => []

def HasFree (fds : Nat → Option SyscallFile) (low : Nat) : Prop :=
  ∃ i, low ≤ i ∧ i < fdsCount ∧ fds i = none

theorem freeSlot_some (found : freeSlot fds low = some i) : LowestFree fds low i := by
  obtain ⟨holds, listed, earlier⟩ := List.find?_range_eq_some.mp found
  simp only [Bool.and_eq_true, decide_eq_true_eq, Option.isNone_iff_eq_none] at holds
  refine ⟨holds.1, List.mem_range.mp listed, holds.2, fun j above before free => ?_⟩
  simpa [above, free] using earlier j before

theorem freeSlot_none : freeSlot fds low = none ↔ ¬ HasFree fds low := by
  unfold freeSlot HasFree
  rw [List.find?_range_eq_none]
  constructor
  · grind
  · intro none i below
    by_contra found
    simp only [Bool.not_eq_true', Bool.and_eq_false_iff, decide_eq_false_iff_not, not_or, not_not,
      Bool.not_eq_false, Option.isNone_iff_eq_none] at found
    exact none ⟨i, found.1, below, found.2⟩

theorem LowestFree.hasFree (lowest : LowestFree fds low i) : HasFree fds low :=
  ⟨i, lowest.above, lowest.below, lowest.free⟩

section Cases
variable {before after : Books Vol}

theorem allOrNothing_error :
    AllOrNothing before after low new (.error errno) ↔
      0 < errno ∧ after.fds = before.fds ∧ after.ledger = before.ledger := by
  constructor
  · rintro (_ | ⟨negative, table, counts⟩)
    exact ⟨negative, table, counts⟩
  · rintro ⟨negative, table, counts⟩
    exact .nothing negative table counts

theorem allOrNothing_filled (lowest : LowestFree before.fds low i)
    (table : after.fds = Function.update before.fds i (some file)) :
    AllOrNothing before after low [i] (.value result) := by
  refine .all ⟨lowest, trivial⟩ ?_ ?_
  · simp_all
  · intro j other
    simp_all

end Cases

theorem openFile_allOrNothing {before books : Books Vol} (same : books.fds = before.fds) :
    AllOrNothing before (books.openFile file denied flags).2 0
        (returned (books.openFile file denied flags).1) (books.openFile file denied flags).1 ↔
      if denied then books.ledger = before.ledger
      else HasFree before.fds 0 ∨ books.ledger.drop file = before.ledger := by
  unfold Books.openFile
  cases denied with
  | true => simp [allOrNothing_error, same, eacces]
  | false =>
    simp only [Bool.false_eq_true, if_false, same]
    cases found : freeSlot before.fds 0 with
    | some i =>
      have lowest := freeSlot_some found
      exact iff_of_true (allOrNothing_filled lowest rfl) (.inl lowest.hasFree)
    | none => simp [allOrNothing_error, freeSlot_none.mp found, emfile]

/-! ### When nothing is left behind -/

section Conditions
variable (world : World (Store Vol)) (vols : Volumes Vol) (forCreate : Allocator) (uid gid : Int)
  (path : Path) (flags mode : BitVec 32)

/-- What `vfs_create` makes must be open to the caller. An object of FAT goes away
with its last reference, but a new file of a tmpfs, or a count taken from its
directory, stays behind unless there is a slot. -/
def CreateClean (spotless : Bool) : Prop :=
  match (vols.make world.fs.volume path mode uid gid (forCreate.place world.fs.live)).1 with
  | .failed => False
  | .entry file => accessDenied file flags uid gid = false ∧ (spotless = true ∨ HasFree world.fds 0)
  | .node file => accessDenied file flags uid gid = false ∧ HasFree world.fds 0

/-- When `syscall_open` succeeds or leaves nothing behind: a FAT file must be
permitted, and a tmpfs file must find a slot unless it is denied. -/
def OpenClean : Prop :=
  match vols.find world.fs.volume path with
  | .entry file => accessDenied file flags uid gid = false
  | .node file => accessDenied (world.files file) flags uid gid = true ∨ HasFree world.fds 0
  | .missing => has flags oCreat = true →
    match vols.find world.fs.volume (cutAtLastSlash path path.length) with
    | .missing => True
    | .entry parent => accessDenied parent flags uid gid = false ∧
        CreateClean world vols forCreate uid gid path flags mode true
    | .node parent => accessDenied (world.files parent) flags uid gid = true ∨
        CreateClean world vols forCreate uid gid path flags mode false

end Conditions

theorem enter_differs {ledger other : Ledger} (home : Home) (free : other file = none) :
    ledger.enter file home ≠ other := by
  intro same
  simpa [Ledger.enter, free] using congrFun same file

theorem drop_enter_differs (ledger : Ledger) {other : Ledger} (free : other file = none) :
    (ledger.enter file .tmpfs).drop file ≠ other := by
  intro same
  simpa [Ledger.drop, Ledger.enter, dropped, free] using congrFun same file

theorem drop_differs {ledger : Ledger} (node : ledger file = some (.tmpfs, count)) :
    ledger.drop file ≠ ledger := by
  intro same
  have less : count - 1 = count := by
    simp_all [Ledger.drop, dropped]
  omega

theorem drop_unused {ledger : Ledger} (free : ledger file = none) (other : FilePtr) :
    ledger.drop other file = none := by
  by_cases same : file = other
  · simp [Ledger.drop, ← same, free]
  · simp [Ledger.drop, same, free]

section Open
variable {world : World (Store Vol)} {vols : Volumes Vol} {forOpen forCreate : Allocator} {uid gid : Int}
  {path : Path} {flags mode : BitVec 32}

theorem found_node (owned : Owned world vols) (found : vols.find world.fs.volume path = .node file) :
    ∃ count, ledger world file = some (.tmpfs, count) := by
  have lives := owned file (vols.find_owns _ _ _ found)
  simp_all [ledger]

theorem bookCreated_allOrNothing (spotless : Bool) {after : Books Vol} (table : after.fds = world.fds)
    (unused : after.ledger (forCreate.place world.fs.live) = none)
    (clean : after.ledger = ledger world ↔ spotless = true) :
    AllOrNothing (books world)
        (bookCreated world vols forCreate uid gid path flags mode after).2 0
        (returned (bookCreated world vols forCreate uid gid path flags mode after).1)
        (bookCreated world vols forCreate uid gid path flags mode after).1 ↔
      CreateClean world vols forCreate uid gid path flags mode spotless := by
  have free : ledger world (forCreate.place world.fs.live) = none := ledger_place world forCreate
  unfold bookCreated CreateClean
  dsimp only
  cases (vols.make world.fs.volume path mode uid gid (forCreate.place world.fs.live)).1 with
  | failed => exact iff_of_false (by rintro ⟨⟩) (by simp)
  | entry file =>
    dsimp only
    rw [openFile_allOrNothing (by exact table), Ledger.drop_enter _ unused (by simp)]
    cases accessDenied file flags uid gid with
    | true => simpa using enter_differs .fat free
    | false => simp [clean, or_comm]
  | node file =>
    dsimp only
    rw [openFile_allOrNothing (by exact table)]
    simp_all [enter_differs, drop_enter_differs]

variable (forOpen forCreate uid gid path flags mode) in
theorem bookOpen_allOrNothing (owned : Owned world vols) :
    AllOrNothing (books world)
        (bookOpen world vols forOpen forCreate uid gid path flags mode).2 0
        (returned (bookOpen world vols forOpen forCreate uid gid path flags mode).1)
        (bookOpen world vols forOpen forCreate uid gid path flags mode).1 ↔
      OpenClean world vols forCreate uid gid path flags mode := by
  have free : ledger world (forOpen.place world.fs.live) = none := ledger_place world forOpen
  have free' : ledger world (forCreate.place world.fs.live) = none := ledger_place world forCreate
  unfold bookOpen OpenClean
  dsimp only
  cases looked : vols.find world.fs.volume path with
  | entry file =>
    dsimp only
    rw [openFile_allOrNothing (by exact rfl), ledger_books, Ledger.drop_enter _ free (by simp)]
    simp_all [enter_differs]
  | node file =>
    obtain ⟨count, noted⟩ := found_node owned looked
    have less := drop_differs noted
    dsimp only
    rw [openFile_allOrNothing rfl]
    cases accessDenied (world.files file) flags uid gid with
    | true => simp
    | false => simp [less]
  | missing =>
    dsimp only
    cases has flags oCreat with
    | false => simp [allOrNothing_error, enoent]
    | true =>
      simp only [Bool.not_true, Bool.false_eq_true, if_false, forall_const]
      cases above : vols.find world.fs.volume (cutAtLastSlash path path.length) with
      | missing => simp [allOrNothing_error, enoent]
      | entry parent =>
        dsimp only
        cases accessDenied parent flags uid gid with
        | true => simpa [allOrNothing_error, eacces] using enter_differs .fat free
        | false =>
          simp only [Bool.false_eq_true, if_false, true_and]
          exact bookCreated_allOrNothing true rfl free' (iff_of_true rfl rfl)
      | node parent =>
        obtain ⟨count, noted⟩ := found_node owned above
        dsimp only
        cases accessDenied (world.files parent) flags uid gid with
        | true => simp [allOrNothing_error, eacces]
        | false =>
          simp_all [bookCreated_allOrNothing, drop_unused, drop_differs]

end Open

theorem LowestFree.next (first : LowestFree fds 0 i)
    (second : LowestFree (Function.update fds i (some file)) 0 j) : LowestFree fds (i + 1) j := by
  have apart : j ≠ i := by
    rintro rfl
    simpa using second.free
  have free : fds j = none := by simpa [apart] using second.free
  have later : i < j := by
    by_contra notLater
    exact first.first j (Nat.zero_le j) (by omega) free
  refine ⟨later, second.below, free, fun k above before => ?_⟩
  have skipped := second.first k (Nat.zero_le k) before
  rwa [Function.update_of_ne (by omega)] at skipped

theorem pipe_allOrNothing (before : Books Vol) (place : FilePtr) (pipefd : Nat × Nat) :
    AllOrNothing before (before.pipe place pipefd).2.2 0
        [(before.pipe place pipefd).2.1.1, (before.pipe place pipefd).2.1.2]
        (before.pipe place pipefd).1 ↔
      ¬ ∃! i, i < fdsCount ∧ before.fds i = none := by
  unfold Books.pipe
  cases one : freeSlot before.fds 0 with
  | none =>
    refine iff_of_true (allOrNothing_error.mpr ⟨by decide, rfl, rfl⟩) ?_
    rintro ⟨i, ⟨below, free⟩, _⟩
    exact freeSlot_none.mp one ⟨i, Nat.zero_le i, below, free⟩
  | some i =>
    have first := freeSlot_some one
    dsimp only
    cases two : freeSlot (Function.update before.fds i (some ⟨place, oRdonly⟩)) 0 with
    | none =>
      refine iff_of_false ?_ (not_not.mpr ⟨i, ⟨first.below, first.free⟩, ?_⟩)
      · intro claimed
        have table := congrFun (allOrNothing_error.mp claimed).2.1 i
        simp [first.free] at table
      · rintro j ⟨below, free⟩
        by_contra apart
        refine freeSlot_none.mp two ⟨j, Nat.zero_le j, below, ?_⟩
        rwa [Function.update_of_ne apart]
    | some j =>
      have second := first.next (freeSlot_some two)
      have apart : j ≠ i := by have := second.above; omega
      refine iff_of_true (.all ⟨first, second, trivial⟩ ?_ ?_) ?_
      · grind
      · simp_all
      · rintro ⟨only, _, unique⟩
        exact apart ((unique j ⟨second.below, second.free⟩).trans
          (unique i ⟨first.below, first.free⟩).symm)

theorem retain_differs {ledger : Ledger} (held : ledger file ≠ none) : ledger.retain file ≠ ledger := by
  obtain ⟨entry, noted⟩ := Option.ne_none_iff_exists'.mp held
  intro same
  have more : entry.2 + 1 = entry.2 := by
    have := congrFun same file
    rw [Ledger.retain, Function.update_self, noted] at this
    exact congrArg Prod.snd (Option.some.inj this)
  omega

theorem dupfd_allOrNothing (before : Books Vol)
    (held : ∀ i file, before.fds i = some file → before.ledger file.file ≠ none) (fd : Nat) (arg : Int) :
    AllOrNothing before (before.dupfd fd arg).2 arg.toNat (returned (before.dupfd fd arg).1)
        (before.dupfd fd arg).1 ↔
      before.fds fd = none ∨ (0 ≤ arg ∧ HasFree before.fds arg.toNat) := by
  unfold Books.dupfd
  cases slot : before.fds fd with
  | none => simp [allOrNothing_error, ebadf]
  | some file =>
    have more := retain_differs (held fd file slot)
    dsimp only
    simp only [reduceCtorEq, false_or]
    -- a number that is no slot is returned as if it were one
    have beyond (i : Nat) (large : fdsCount ≤ i) (after : Books Vol) :
        ¬ AllOrNothing before after arg.toNat [i] (.value i) := by
      rintro (⟨⟨lowest, _⟩, _, _⟩)
      exact absurd lowest.below (by omega)
    split
    case isTrue outside =>
      unfold Reply.ofInt
      split
      case isTrue positive =>
        refine iff_of_false (beyond _ (by omega) _) ?_
        rintro ⟨_, i, above, below, _⟩
        omega
      case isFalse negative =>
        exact iff_of_false (fun claimed => more (allOrNothing_error.mp claimed).2.2) (by omega)
    case isFalse inside =>
      cases found : freeSlot before.fds arg.toNat with
      | some i =>
        have lowest := freeSlot_some found
        exact iff_of_true (allOrNothing_filled lowest rfl) ⟨by omega, lowest.hasFree⟩
      | none => exact iff_of_false (beyond _ le_rfl _) fun ⟨_, free⟩ => freeSlot_none.mp found free

/-- **Descriptor calls are all-or-nothing under these conditions and no others.**
`syscall_open` must be clean, `syscall_pipe` must not be down to one free slot, and
`F_DUPFD` must find a slot from a non-negative `arg` on, if it has a file at all. -/
theorem descriptor_calls_all_or_nothing_iff (base : FileOps (Store Vol)) (vols : Volumes Vol)
    (world : World (Store Vol)) (owned : Owned world vols)
    (held : ∀ i file, world.fds i = some file → world.fs.live file.file ≠ none) :
    (∀ forOpen forCreate uid gid path flags mode,
      let result := syscallOpen (handleOps base vols forOpen forCreate) world uid gid path flags mode
      AllOrNothing (books world) (books result.2) 0 (returned result.1) result.1 ↔
        OpenClean world vols forCreate uid gid path flags mode) ∧
    (∀ kmalloc uid gid pipefd,
      let result := syscallPipe kmalloc world uid gid pipefd
      AllOrNothing (books world) (books result.2.2) 0 [result.2.1.1, result.2.1.2] result.1 ↔
        ¬ ∃! i, i < fdsCount ∧ world.fds i = none) ∧
    ∀ fd arg,
      let result := syscallDupfd world fd arg
      AllOrNothing (books world) (books result.2) arg.toNat (returned result.1) result.1 ↔
        world.fds fd = none ∨ (0 ≤ arg ∧ HasFree world.fds arg.toNat) := by
  refine ⟨?_, ?_, ?_⟩
  · intro forOpen forCreate uid gid path flags mode
    have refined := syscallOpen_books world vols forOpen forCreate uid gid path flags mode base owned
    have clean := bookOpen_allOrNothing forOpen forCreate uid gid path flags mode owned
    rw [← refined] at clean
    exact clean
  · intro kmalloc uid gid pipefd
    have refined := syscallPipe_books world kmalloc uid gid pipefd
    have clean := pipe_allOrNothing (books world) (kmalloc.place world.fs.live) pipefd
    rw [← refined] at clean
    exact clean
  · intro fd arg
    have refined := syscallDupfd_books world fd arg
    have clean := dupfd_allOrNothing (books world) ?_ fd arg
    · rw [← refined] at clean
      exact clean
    · intro i file slot
      simpa [ledger] using held i file slot

/-- The least bound on what is live is itself an address not in use. -/
noncomputable def someAllocator : Allocator where
  place live := by
    classical
    exact if bounded : Bounded live then bounded.choose else 0
  unused {live} bounded := by
    classical
    rw [dif_pos bounded]
    exact bounded.choose_spec _ le_rfl

/-- No file system is mounted. -/
def noVolumes : Volumes Unit := .readOnly (fun _ => .missing) fun _ _ found => by cases found

/-- One file object, open in all slots that are not free. -/
def oneFile (free : Nat → Bool) : World (Store Unit) where
  fs := ⟨(), fun file => if file = 0 then some .tmpfs else none, 1,
    fun _ above => if_neg (Nat.pos_iff_ne_zero.mp above)⟩
  files _ := ⟨0, 0, 0o100666, 0, 0, 1⟩
  fds i := if free i then none else some ⟨0, oRdonly⟩

theorem pipe_takes_two_of_three :
    let result := syscallPipe someAllocator (oneFile (· < 3)) 0 0 (0, 0)
    AllOrNothing (books (oneFile (· < 3))) (books result.2.2) 0 [result.2.1.1, result.2.1.2] result.1 := by
  refine ((descriptor_calls_all_or_nothing_iff ⟨fun w _ => (none, w), fun w _ _ _ _ => (none, w),
    fun w _ => w, fun w _ _ _ => ((0, []), w), fun w _ _ _ _ => (0, w)⟩ noVolumes (oneFile (· < 3))
    ?_ ?_).2.1 someAllocator 0 0 (0, 0)).mpr ?_
  · rintro file ⟨⟩
  · intro i file slot
    simp only [oneFile] at slot
    split at slot
    · cases slot
    · cases slot
      simp [oneFile]
  · rintro ⟨i, _, unique⟩
    have zero := unique 0 ⟨by decide, rfl⟩
    have one := unique 1 ⟨by decide, rfl⟩
    omega

/-- With one slot free, a failed `syscall_pipe` leaves it filled. -/
theorem failed_pipe_keeps_a_slot :
    let result := syscallPipe someAllocator (oneFile (· = 5)) 0 0 (0, 0)
    result.1 = .error emfile ∧ (oneFile (· = 5)).fds 5 = none ∧ result.2.2.fds 5 ≠ none ∧
      ¬ AllOrNothing (books (oneFile (· = 5))) (books result.2.2) 0 [result.2.1.1, result.2.1.2]
        result.1 := by
  have one : freeSlot (oneFile (· = 5)).fds 0 = some 5 := by decide
  have two (sfile : SyscallFile) :
      freeSlot (Function.update (oneFile (· = 5)).fds 5 (some sfile)) 0 = none := rfl
  have refined := syscallPipe_books (oneFile (· = 5)) someAllocator 0 0 (0, 0)
  have clean := pipe_allOrNothing (books (oneFile (· = 5)))
    (someAllocator.place (oneFile (· = 5)).fs.live) (0, 0)
  rw [← refined] at clean
  simp only [Books.pipe, fds_books, one, two] at refined
  refine ⟨congrArg Prod.fst refined, rfl, ?_, fun claimed => clean.mp claimed ⟨5, by decide, ?_⟩⟩
  · have table := congrArg (fun result => Books.fds result.2.2 5) refined
    simp only [Function.update_self] at table
    exact fun empty => Option.some_ne_none _ (table.symm.trans empty)
  · rintro i ⟨_, free⟩
    simpa [oneFile] using free

end MandelbrotOS.DescriptorSlots
