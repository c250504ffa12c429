import MandelbrotOS.Handles

/-! What descriptors and reference counts have to do with each other does not
depend on what is in the files. The books keep a ledger of the objects there are,
with the count of each, and the slots of one table; each descriptor call is
described by what it enters into them. -/
namespace MandelbrotOS.HandleBooks
open Vfs Descriptors Handles

variable {Vol : Type}

/-- The file objects there are, with the home and the count of each. -/
abbrev Ledger := FilePtr → Option (Home × Int)

def ledger (world : World (Store Vol)) : Ledger := fun file =>
  (world.fs.live file).map fun home => (home, (world.files file).refCount)

def Ledger.enter (books : Ledger) (file : FilePtr) (home : Home) : Ledger :=
  Function.update books file (some (home, 1))

/-- One more reference. -/
def retained : Home × Int → Home × Int
  | (home, count) => (home, count + 1)

/-- One reference less: the last one strikes out all but the files of a tmpfs. -/
def dropped : Home × Int → Option (Home × Int)
  | (home, count) => if count = 1 ∧ home ≠ .tmpfs then none else some (home, count - 1)

def Ledger.retain (books : Ledger) (file : FilePtr) : Ledger :=
  Function.update books file ((books file).map retained)

def Ledger.drop (books : Ledger) (file : FilePtr) : Ledger :=
  Function.update books file ((books file).bind dropped)

variable (world : World (Store Vol)) (kmalloc : Allocator)

@[simp] theorem fds_setOffset (file : FilePtr) (offset : Nat) :
    (world.setOffset file offset).fds = world.fds := rfl

@[simp] theorem fds_allocate (home : Home) (file : FsFile) :
    (allocate kmalloc world home file).2.fds = world.fds := rfl

@[simp] theorem fds_setRefCount (file : FilePtr) (count : Int) :
    (setRefCount world file count).fds = world.fds := rfl

@[simp] theorem fds_vfsClose (file : FilePtr) : (vfsClose world file).fds = world.fds := by
  unfold vfsClose
  dsimp only
  split
  · rfl
  · split <;> rfl

@[simp] theorem ledger_fds (fds : Nat → Option SyscallFile) :
    ledger { world with fds := fds } = ledger world := rfl

@[simp] theorem ledger_setOffset (file : FilePtr) (offset : Nat) :
    ledger (world.setOffset file offset) = ledger world := by
  funext other
  simp only [ledger, World.setOffset]
  grind

@[simp] theorem ledger_allocate (home : Home) (file : FsFile) :
    ledger (allocate kmalloc world home file).2 =
      (ledger world).enter (kmalloc.place world.fs.live) home := by
  funext other
  simp only [ledger, allocate, Store.setLive, Ledger.enter]
  grind [ledger]

theorem ledger_setRefCount (file : FilePtr) (count : Int) :
    ledger (setRefCount world file count) =
      Function.update (ledger world) file ((ledger world file).map fun entry => (entry.1, count)) := by
  funext other
  simp only [ledger, setRefCount]
  by_cases same : other = file
  · simp [same, Option.map_map, Function.comp_def]
  · simp [same, ledger]

theorem ledger_release (file : FilePtr) :
    ledger (release world file) = Function.update (ledger world) file none := by
  funext other
  simp only [ledger, release, Store.setLive]
  grind [ledger]

@[simp] theorem ledger_vfsClose (file : FilePtr) :
    ledger (vfsClose world file) = (ledger world).drop file := by
  have entry : ledger world file =
      (world.fs.live file).map fun home => (home, (world.files file).refCount) := rfl
  unfold vfsClose Ledger.drop
  dsimp only
  rw [show ((setRefCount world file ((world.files file).refCount - 1)).files file).refCount =
    (world.files file).refCount - 1 by simp [setRefCount]]
  rw [show (setRefCount world file ((world.files file).refCount - 1)).fs.live file =
    world.fs.live file from rfl, entry]
  split
  case isTrue more =>
    rw [ledger_setRefCount, entry]
    congr 1
    cases world.fs.live file with
    | none => rfl
    | some home =>
      grind [dropped]
  case isFalse last =>
    have one : (world.files file).refCount = 1 := by omega
    cases lives : world.fs.live file with
    | none => simp [ledger_setRefCount, entry, lives]
    | some home => cases home <;> simp [ledger_setRefCount, ledger_release, entry, lives, dropped, one]

theorem ledger_place : ledger world (kmalloc.place world.fs.live) = none := by
  simp only [ledger, kmalloc.unused world.fs.bounded, Option.map_none]

theorem Ledger.drop_enter (books : Ledger) (free : books file = none) (transient : home ≠ .tmpfs) :
    (books.enter file home).drop file = books := by
  funext other
  by_cases same : other = file
  · simp [same, Ledger.drop, Ledger.enter, dropped, transient, free]
  · simp [same, Ledger.drop, Ledger.enter]

/-! ### The calls in the books -/

/-- The part of a world that descriptors and counts are about. -/
structure Books (Vol : Type) where
  volume : Vol
  ledger : Ledger
  fds : Nat → Option SyscallFile

def books (world : World (Store Vol)) : Books Vol := ⟨world.fs.volume, ledger world, world.fds⟩

@[simp] theorem ledger_books : (books world).ledger = ledger world := rfl

@[simp] theorem fds_books : (books world).fds = world.fds := rfl

@[simp] theorem books_setOffset (file : FilePtr) (offset : Nat) :
    books (world.setOffset file offset) = books world := by
  simp only [books, ledger_setOffset]
  rfl

@[simp] theorem books_allocate (home : Home) (file : FsFile) :
    books (allocate kmalloc world home file).2 =
      { books world with ledger := (ledger world).enter (kmalloc.place world.fs.live) home } := by
  simp only [books, ledger_allocate]
  rfl

@[simp] theorem books_vfsClose (file : FilePtr) :
    books (vfsClose world file) = { books world with ledger := (ledger world).drop file } := by
  have volume : (vfsClose world file).fs.volume = world.fs.volume := by
    unfold vfsClose
    dsimp only
    split
    · rfl
    · split <;> rfl
  simp only [books, ledger_vfsClose, fds_vfsClose, volume]

theorem books_setFds (fds : Nat → Option SyscallFile) :
    books { world with fds := fds } = { books world with fds := fds } := rfl

theorem books_retain (file : FilePtr) :
    books (setRefCount world file ((world.files file).refCount + 1)) =
      { books world with ledger := (ledger world).retain file } := by
  have entry : ledger (setRefCount world file ((world.files file).refCount + 1)) =
      (ledger world).retain file := by
    rw [ledger_setRefCount, Ledger.retain]
    congr 1
    cases lives : world.fs.live file <;> simp [ledger, lives, retained]
  simp only [books, entry]
  rfl

/-- `openFile` in the books. -/
def Books.openFile (books : Books Vol) (file : FilePtr) (denied : Bool) (flags : BitVec 32) :
    Reply × Books Vol :=
  if denied then (.error eacces, books)
  else match freeSlot books.fds 0 with
    | some i => (.value i, { books with fds := Function.update books.fds i (some ⟨file, flags⟩) })
    | none => (.error emfile, { books with ledger := books.ledger.drop file })

section Open
variable (vols : Volumes Vol) (forOpen forCreate : Allocator) (uid gid : Int) (path : Path)
  (flags mode : BitVec 32)

/-- The half of `syscall_open` after `vfs_close(parent)`, in the books. -/
def bookCreated (after : Books Vol) : Reply × Books Vol :=
  let place := forCreate.place world.fs.live
  let made := vols.make world.fs.volume path mode uid gid place
  match made.1 with
  | .failed => (.fault, { after with volume := made.2 })
  | .entry file =>
    (Books.mk made.2 (after.ledger.enter place .fat) after.fds).openFile place
      (accessDenied file flags uid gid) flags
  | .node file =>
    (Books.mk made.2 (after.ledger.enter place .tmpfs) after.fds).openFile place
      (accessDenied file flags uid gid) flags

/-- `syscall_open` in the books. -/
def bookOpen : Reply × Books Vol :=
  let before := books world
  let place := forOpen.place world.fs.live
  match vols.find world.fs.volume path with
  | .entry file =>
    Books.openFile { before with ledger := before.ledger.enter place .fat } place
      (accessDenied file flags uid gid) flags
  | .node file => before.openFile file (accessDenied (world.files file) flags uid gid) flags
  | .missing =>
    if !has flags oCreat then (.error enoent, before)
    else match vols.find world.fs.volume (cutAtLastSlash path path.length) with
      | .missing => (.error enoent, before)
      | .entry parent =>
        if accessDenied parent flags uid gid then
          (.error eacces, { before with ledger := before.ledger.enter place .fat })
        else bookCreated world vols forCreate uid gid path flags mode before
      | .node parent =>
        if accessDenied (world.files parent) flags uid gid then (.error eacces, before)
        else bookCreated world vols forCreate uid gid path flags mode
          { before with ledger := before.ledger.drop parent }

/-- The files a tmpfs can find are file objects of its own. -/
def Owned : Prop := ∀ file, vols.owns world.fs.volume file → world.fs.live file = some .tmpfs

theorem find_freeSlot (fds : Nat → Option SyscallFile) :
    ((List.range fdsCount).find? fun i => (fds i).isNone) = freeSlot fds 0 := by
  simp [freeSlot]

theorem openFile_books (base : FileOps (Store Vol)) (file : FilePtr) :
    Prod.map id books (openFile (handleOps base vols forOpen forCreate) world file flags uid gid) =
      (books world).openFile file (accessDenied (world.files file) flags uid gid) flags := by
  unfold openFile Books.openFile
  cases accessDenied (world.files file) flags uid gid with
  | true => rfl
  | false =>
    simp only [Bool.false_eq_true, if_false, find_freeSlot, fds_setOffset]
    rw [fds_books]
    cases freeSlot world.fds 0 with
    | some i =>
      have same := congrArg Books.ledger (books_setOffset world file 0)
      simp only [Prod.map, id, books, ledger_fds] at same ⊢
      rw [same]
      rfl
    | none =>
      simp [handleOps]

theorem live_vfsClose_node (owned : world.fs.live file = some .tmpfs) :
    (vfsClose world file).fs.live = world.fs.live := by
  unfold vfsClose
  simp_all [setRefCount]

theorem live_of_ledger : world.fs.live = fun file => (ledger world file).map Prod.fst := by
  funext file
  simp [ledger, Option.map_map, Function.comp_def]

theorem books_allocate_close (file : FsFile) :
    books (vfsClose (allocate kmalloc world .fat file).2 (kmalloc.place world.fs.live)) = books world := by
  simp only [books_vfsClose, books_allocate, ledger_allocate]
  rw [Ledger.drop_enter _ (ledger_place world kmalloc) (by simp)]
  rfl

theorem live_of_books {left right : World (Store Vol)} (same : books left = books right) :
    left.fs.live = right.fs.live := by
  rw [live_of_ledger left, live_of_ledger right, show ledger left = ledger right from congrArg Books.ledger same]

theorem openFresh_books (base : FileOps (Store Vol)) (home : Home) (file : FsFile) :
    Prod.map id books (openFile (handleOps base vols forOpen forCreate) (allocate kmalloc world home file).2
      (kmalloc.place world.fs.live) flags uid gid) =
      Books.openFile
        { books world with ledger := (ledger world).enter (kmalloc.place world.fs.live) home }
        (kmalloc.place world.fs.live) (accessDenied file flags uid gid) flags := by
  have made : (allocate kmalloc world home file).2.files (kmalloc.place world.fs.live) =
      { file with refCount := 1 } := Function.update_self ..
  rw [openFile_books, books_allocate, made]
  rfl

/-- The end of `syscall_open`, for whatever `vfs_create` returns. -/
def openCreated (ops : FileOps (Store Vol)) : Option FilePtr × World (Store Vol) → Reply × World (Store Vol)
  | (none, world) => (.fault, world)
  | (some file, world) => openFile ops world file flags uid gid

theorem created_books (base : FileOps (Store Vol)) :
    Prod.map id books (openCreated uid gid flags (handleOps base vols forOpen forCreate)
      (vfsCreate vols forCreate world path mode uid gid)) =
      bookCreated world vols forCreate uid gid path flags mode (books world) := by
  unfold vfsCreate bookCreated
  dsimp only
  cases (vols.make world.fs.volume path mode uid gid (forCreate.place world.fs.live)).1 with
  | failed => rfl
  | entry file => exact openFresh_books _ forCreate vols forOpen forCreate uid gid flags base .fat file
  | node file => exact openFresh_books _ forCreate vols forOpen forCreate uid gid flags base .tmpfs file

theorem bookCreated_congr {closed : World (Store Vol)} (live : closed.fs.live = world.fs.live)
    (volume : closed.fs.volume = world.fs.volume) (after : Books Vol) :
    bookCreated closed vols forCreate uid gid path flags mode after =
      bookCreated world vols forCreate uid gid path flags mode after := by
  unfold bookCreated
  rw [live, volume]

/-- **The books refine `syscall_open`.** -/
theorem syscallOpen_books (base : FileOps (Store Vol)) (owned : Owned world vols) :
    Prod.map id books
      (syscallOpen (handleOps base vols forOpen forCreate) world uid gid path flags mode) =
      bookOpen world vols forOpen forCreate uid gid path flags mode := by
  unfold syscallOpen bookOpen
  dsimp only [handleOps, vfsOpen]
  cases looked : vols.find world.fs.volume path with
  | entry file =>
    exact openFresh_books world forOpen vols forOpen forCreate uid gid flags base .fat file
  | node file => exact openFile_books world vols forOpen forCreate uid gid flags base file
  | missing =>
    dsimp only
    cases has flags oCreat with
    | false => rfl
    | true =>
      simp only [Bool.not_true, Bool.false_eq_true, if_false]
      cases above : vols.find world.fs.volume (cutAtLastSlash path path.length) with
      | missing => rfl
      | entry parent =>
        have made : (allocate forOpen world .fat parent).2.files (forOpen.place world.fs.live) =
          { parent with refCount := 1 } := Function.update_self ..
        have closed := books_allocate_close world forOpen parent
        dsimp only
        rw [show Prod.map some id (allocate forOpen world .fat parent) =
          (some (forOpen.place world.fs.live), (allocate forOpen world .fat parent).2) from rfl]
        dsimp only
        rw [made, show accessDenied { parent with refCount := 1 } flags uid gid =
            accessDenied parent flags uid gid from rfl]
        cases accessDenied parent flags uid gid with
        | true => exact congrArg (Prod.mk _) (books_allocate ..)
        | false =>
          simp only [Bool.false_eq_true, if_false]
          rw [← closed, ← bookCreated_congr world vols forCreate uid gid path flags mode
            (live_of_books closed) (congrArg Books.volume closed)]
          rw [← created_books _ vols forOpen forCreate uid gid path flags mode base]
          generalize vfsCreate vols forCreate _ path mode uid gid = made
          obtain ⟨_ | file, after⟩ := made <;> rfl
      | node parent =>
        dsimp only
        cases accessDenied (world.files parent) flags uid gid with
        | true => rfl
        | false =>
          have kept := live_vfsClose_node world (owned parent (vols.find_owns _ _ _ above))
          have closed := books_vfsClose world parent
          simp only [Bool.false_eq_true, if_false]
          rw [show { books world with ledger := (books world).ledger.drop parent } =
              books (vfsClose world parent) from closed.symm,
            ← bookCreated_congr world vols forCreate uid gid path flags mode kept
              (congrArg Books.volume closed)]
          rw [← created_books _ vols forOpen forCreate uid gid path flags mode base]
          generalize vfsCreate vols forCreate _ path mode uid gid = made
          obtain ⟨_ | file, after⟩ := made <;> rfl

end Open

/-- `syscall_pipe` in the books: a pipe that finds no slot is gone again, but a
slot it did find stays filled. -/
def Books.pipe (books : Books Vol) (place : FilePtr) (pipefd : Nat × Nat) :
    Reply × (Nat × Nat) × Books Vol :=
  match freeSlot books.fds 0 with
  | none => (.error emfile, pipefd, books)
  | some i =>
    let fds := Function.update books.fds i (some ⟨place, oRdonly⟩)
    match freeSlot fds 0 with
    | none => (.error emfile, (0, pipefd.2), { books with fds := fds })
    | some j =>
      (.value 0, (i, j),
        { books with
          ledger := books.ledger.enter place .anonymous
          fds := Function.update fds j (some ⟨place, oWronly⟩) })

def Books.dupfd (books : Books Vol) (fd : Nat) (arg : Int) : Reply × Books Vol :=
  match books.fds fd with
  | none => (.error ebadf, books)
  | some file =>
    let books := { books with ledger := books.ledger.retain file.file }
    if arg < 0 ∨ fdsCount ≤ arg then (Reply.ofInt arg, books)
    else match freeSlot books.fds arg.toNat with
      | some i => (.value i, { books with fds := Function.update books.fds i (some file) })
      | none => (.value fdsCount, books)

def Books.close (books : Books Vol) (id : Nat) : Reply × Books Vol :=
  match books.fds id with
  | none => (.error ebadf, books)
  | some file =>
    (.value 0,
      { books with ledger := books.ledger.drop file.file, fds := Function.update books.fds id none })

theorem syscallPipe_books (uid gid : Int) (pipefd : Nat × Nat) :
    Prod.map id (Prod.map id books) (syscallPipe kmalloc world uid gid pipefd) =
      (books world).pipe (kmalloc.place world.fs.live) pipefd := by
  have gone : ((ledger world).enter _ .anonymous).drop _ = ledger world :=
    Ledger.drop_enter _ (ledger_place world kmalloc) (by simp)
  unfold syscallPipe Books.pipe vfsMkfifo
  dsimp only [fds_setOffset, fds_allocate]
  rw [fds_books,
    show ∀ file, (allocate kmalloc world .anonymous file).1 = kmalloc.place world.fs.live from fun _ => rfl]
  cases freeSlot world.fds 0 with
  | none =>
    simp only [Prod.map, id, books_vfsClose, books_setOffset, books_allocate, ledger_setOffset,
      ledger_allocate, gone]
    rfl
  | some i =>
    dsimp only
    cases freeSlot _ 0 with
    | none =>
      simp_all [books_setFds]
    | some j =>
      simp [books_setFds]

theorem syscallDupfd_books (fd : Nat) (arg : Int) :
    Prod.map id books (syscallDupfd world fd arg) = (books world).dupfd fd arg := by
  unfold syscallDupfd Books.dupfd
  rw [fds_books]
  cases world.fds fd with
  | none => rfl
  | some file =>
    dsimp only [fds_setRefCount]
    split
    · simp [books_retain]
    · cases freeSlot world.fds arg.toNat with
      | none => exact congrArg (Prod.mk _) (books_retain world file.file)
      | some i =>
        simp [books_setFds, books_retain]

theorem syscallClose_books (descriptor : Nat) :
    Prod.map id books (syscallClose world descriptor) = (books world).close descriptor := by
  unfold syscallClose Books.close
  rw [fds_books]
  cases world.fds descriptor with
  | none => rfl
  | some file =>
    simp [books_setFds]

end MandelbrotOS.HandleBooks
