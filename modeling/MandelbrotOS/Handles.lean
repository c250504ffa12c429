import Mathlib.Data.Nat.Basic
import MandelbrotOS.Descriptors

/-! Where file objects come from and where they go: `vfs_open`, `vfs_create`,
`vfs_mkfifo` and `vfs_close`, and the descriptor calls that live on them. An
object is made anew for each open of a FAT file and for each pipe; a file of a
tmpfs is one object that stays. -/
namespace MandelbrotOS.Handles
open Vfs Descriptors

/-- Whose `close` an object has: an anonymous pipe has no file system. -/
inductive Home where
  | anonymous
  | fat
  | tmpfs
  deriving DecidableEq

/-- Only so many addresses hold a file object. -/
def Bounded (live : FilePtr → Option Home) : Prop := ∃ bound, ∀ file, bound ≤ file → live file = none

theorem Bounded.update (bounded : Bounded live) (file : FilePtr) (home : Option Home) :
    Bounded (Function.update live file home) := by
  obtain ⟨bound, free⟩ := bounded
  refine ⟨max bound (file + 1), fun other above => ?_⟩
  grind

/-- What the file systems keep, and which addresses hold a file object. -/
structure Store (Vol : Type) where
  volume : Vol
  live : FilePtr → Option Home
  bounded : Bounded live

def Store.setLive (store : Store Vol) (file : FilePtr) (home : Option Home) : Store Vol :=
  ⟨store.volume, Function.update store.live file home, store.bounded.update file home⟩

/-- `kmalloc`, as far as file objects go: it hands out an address not in use. -/
structure Allocator where
  place : (FilePtr → Option Home) → FilePtr
  unused : Bounded live → live (place live) = none

/-- What a file system knows of a path: nothing, a directory entry out of which
`fat_open` makes an object, or the object itself. -/
inductive Found where
  | missing
  | entry (file : FsFile)
  | node (file : FilePtr)

/-- What a file system makes of a new path. -/
inductive Made where
  | failed
  | entry (file : FsFile)
  | node (file : FsFile)

/-- The mounted file systems. The objects that a tmpfs owns change only when one
is made, at the address given to it. -/
structure Volumes (Vol : Type) where
  find : Vol → Path → Found
  make : Vol → Path → BitVec 32 → Int → Int → FilePtr → Made × Vol
  owns : Vol → FilePtr → Prop
  find_owns : ∀ volume path file, find volume path = .node file → owns volume file
  make_owns : ∀ volume path mode uid gid place file,
    owns (make volume path mode uid gid place).2 file →
      owns volume file ∨ (∃ made, (make volume path mode uid gid place).1 = .node made) ∧ file = place

/-- A file system that knows paths but no objects, and makes nothing. -/
def Volumes.readOnly (find : Path → Found) (objectless : ∀ path file, find path ≠ .node file) :
    Volumes Unit where
  find _ := find
  make _ _ _ _ _ _ := (.failed, ())
  owns _ _ := False
  find_owns _ path file found := objectless path file found
  make_owns _ _ _ _ _ _ _ owned := .inl owned

variable {Vol : Type}

section Vfs
variable (vols : Volumes Vol) (kmalloc : Allocator) (world : World (Store Vol))

/-- A new object, with `ref_count` 1. -/
def allocate (home : Home) (file : FsFile) : FilePtr × World (Store Vol) :=
  let place := kmalloc.place world.fs.live
  (place,
    { world with
      fs := world.fs.setLive place (some home)
      files := Function.update world.files place { file with refCount := 1 } })

/-- `kfree` of an object. -/
def release (file : FilePtr) : World (Store Vol) :=
  { world with fs := world.fs.setLive file none }

def setRefCount (file : FilePtr) (count : Int) : World (Store Vol) :=
  { world with
    files := Function.update world.files file { world.files file with refCount := count } }

def vfsOpen (path : Path) : Option FilePtr × World (Store Vol) :=
  match vols.find world.fs.volume path with
  | .missing => (none, world)
  | .entry file => Prod.map some id (allocate kmalloc world .fat file)
  | .node file => (some file, world)

def vfsCreate (path : Path) (mode : BitVec 32) (uid gid : Int) : Option FilePtr × World (Store Vol) :=
  let made := vols.make world.fs.volume path mode uid gid (kmalloc.place world.fs.live)
  let world := { world with fs := { world.fs with volume := made.2 } }
  match made.1 with
  | .failed => (none, world)
  | .entry file => Prod.map some id (allocate kmalloc world .fat file)
  | .node file => Prod.map some id (allocate kmalloc world .tmpfs file)

/-- `vfs_mkfifo` of an anonymous fifo. -/
def vfsMkfifo (mode : BitVec 32) (uid gid : Int) : FilePtr × World (Store Vol) :=
  allocate kmalloc world .anonymous ⟨uid, gid, sIfifo ||| mode, 0, 0, 1⟩

/-- `vfs_close`: the last reference releases an anonymous fifo, and an object of
FAT through `fat_close`; `tmpfs_close` does nothing. -/
def vfsClose (file : FilePtr) : World (Store Vol) :=
  let world := setRefCount world file ((world.files file).refCount - 1)
  if (world.files file).refCount ≠ 0 then world
  else match world.fs.live file with
    | some .anonymous => release world file
    | some .fat => release world file
    | some .tmpfs => world
    | none => world

end Vfs

/-- The `vfs_` calls over these file systems, each with a `kmalloc` of its own;
reading and writing are as in `base`. -/
def handleOps (base : FileOps (Store Vol)) (vols : Volumes Vol) (forOpen forCreate : Allocator) :
    FileOps (Store Vol) :=
  { base with
    vfsOpen := vfsOpen vols forOpen
    vfsCreate := vfsCreate vols forCreate
    vfsClose := vfsClose }

/-- The first empty slot from `low` on, as the loops over `i` find it. -/
def freeSlot (fds : Nat → Option SyscallFile) (low : Nat) : Option Nat :=
  (List.range fdsCount).find? fun i => decide (low ≤ i) && (fds i).isNone

/-- `syscall_pipe`; the second component is what `pipefd` holds afterwards. -/
def syscallPipe (kmalloc : Allocator) (world : World (Store Vol)) (uid gid : Int)
    (pipefd : Nat × Nat) : Reply × (Nat × Nat) × World (Store Vol) :=
  let made := vfsMkfifo kmalloc world 0o777 uid gid
  let file := made.1
  let world := made.2.setOffset file 0
  match freeSlot world.fds 0 with
  | none => (.error emfile, pipefd, vfsClose world file)
  | some i =>
    let world := { world with fds := Function.update world.fds i (some ⟨file, oRdonly⟩) }
    match freeSlot world.fds 0 with
    | none => (.error emfile, (0, pipefd.2), vfsClose world file)
    | some j =>
      (.value 0, (i, j), { world with fds := Function.update world.fds j (some ⟨file, oWronly⟩) })

/-- An `int` that is returned: an error where it is negative. -/
def Reply.ofInt (result : Int) : Reply :=
  if 0 ≤ result then .value result.toNat else .error (-result).toNat

/-- `syscall_fcntl` with `F_DUPFD`. The loop counts a `size_t` from `arg`, and what
it has counted to is returned as an `int`. -/
def syscallDupfd (world : World (Store Vol)) (fd : Nat) (arg : Int) : Reply × World (Store Vol) :=
  match world.fds fd with
  | none => (.error ebadf, world)
  | some file =>
    let world := setRefCount world file.file ((world.files file.file).refCount + 1)
    if arg < 0 ∨ fdsCount ≤ arg then (Reply.ofInt arg, world)
    else match freeSlot world.fds arg.toNat with
      | some i => (.value i, { world with fds := Function.update world.fds i (some file) })
      | none => (.value fdsCount, world)

def syscallClose (world : World (Store Vol)) (id : Nat) : Reply × World (Store Vol) :=
  match world.fds id with
  | none => (.error ebadf, world)
  | some file =>
    let world := vfsClose world file.file
    (.value 0, { world with fds := Function.update world.fds id none })

end MandelbrotOS.Handles
