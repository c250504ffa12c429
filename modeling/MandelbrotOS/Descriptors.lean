import MandelbrotOS.Vfs

/-! The descriptor system calls of `sys/syscall.c`. A file system is reached
through function pointers only; here they are the fields of `FileOps`, over a
state `Fs` of their own. A C pointer that may be `NULL` is an `Option`. -/
namespace MandelbrotOS.Descriptors
open Vfs

def fdsCount : Nat := 128

def eacces : Nat := 2
def ebadf : Nat := 8
def einval : Nat := 28
def emfile : Nat := 33
def enoent : Nat := 45

abbrev FilePtr := Nat
abbrev Path := List UInt8

structure SyscallFile where
  file : FilePtr
  flags : BitVec 32

/-- The file objects in memory, the current process's descriptor table, and
whatever the mounted file systems keep. -/
structure World (Fs : Type) where
  fs : Fs
  files : FilePtr → FsFile
  fds : Nat → Option SyscallFile

/-- `vfs_open`, `vfs_create`, `vfs_close`, `vfs_read` and `vfs_write`, which
dispatch to the mounted file system or to a device. -/
structure FileOps (Fs : Type) where
  vfsOpen : World Fs → Path → Option FilePtr × World Fs
  vfsCreate : World Fs → Path → BitVec 32 → Int → Int → Option FilePtr × World Fs
  vfsClose : World Fs → FilePtr → World Fs
  vfsRead : World Fs → FilePtr → Nat → Nat → (Int × List UInt8) × World Fs
  vfsWrite : World Fs → FilePtr → List UInt8 → Nat → Nat → Int × World Fs

variable {Fs : Type}

def World.setOffset (world : World Fs) (file : FilePtr) (offset : Nat) : World Fs :=
  { world with
    files := Function.update world.files file { world.files file with offset := offset } }

/-- What a system call returns, or `fault` when it follows a `NULL` pointer. -/
inductive Reply where
  | value (result : Nat)
  | error (errno : Nat)
  | fault
  deriving DecidableEq

/-- The path cut at its last slash, as the loop over `i` finds it from the end. -/
def cutAtLastSlash (path : Path) : Nat → Path
  | 0 => path
  | i + 1 => if path[i]? = some 0x2f then path.take i else cutAtLastSlash path i

/-- The cascade of checks `syscall_open` makes on a file: true is `-EACCES`. -/
def accessDenied (file : FsFile) (flags : BitVec 32) (uid gid : Int) : Bool :=
  if has flags oRdonly && vfsCheckCanRead file uid gid != 0 then true
  else if has flags oWronly && vfsCheckCanWrite file uid gid != 0 then true
  else if has flags oRdwr &&
      (vfsCheckCanRead file uid gid != 0 || vfsCheckCanWrite file uid gid != 0) then true
  else has flags oExec && vfsCheckCanExec file uid gid != 0

/-- The second half of `syscall_open`, once there is a file object. -/
def openFile (ops : FileOps Fs) (world : World Fs) (file : FilePtr) (flags : BitVec 32)
    (uid gid : Int) : Reply × World Fs :=
  if accessDenied (world.files file) flags uid gid then (.error eacces, world)
  else
    let rewound := world.setOffset file 0
    match (List.range fdsCount).find? fun i => (rewound.fds i).isNone with
    | some i => (.value i, { rewound with fds := Function.update rewound.fds i (some ⟨file, flags⟩) })
    | none => (.error emfile, ops.vfsClose rewound file)

/-- `syscall_open` by a thread with the given uid and gid. A file that could
not be created is followed all the same, in the checks or when its offset is
cleared. -/
def syscallOpen (ops : FileOps Fs) (world : World Fs) (uid gid : Int) (path : Path)
    (flags mode : BitVec 32) : Reply × World Fs :=
  match ops.vfsOpen world path with
  | (some file, world) => openFile ops world file flags uid gid
  | (none, world) =>
    if !has flags oCreat then (.error enoent, world)
    else match ops.vfsOpen world (cutAtLastSlash path path.length) with
      | (none, world) => (.error enoent, world)
      | (some parent, world) =>
        if accessDenied (world.files parent) flags uid gid then (.error eacces, world)
        else match ops.vfsCreate (ops.vfsClose world parent) path mode uid gid with
          | (none, world) => (.fault, world)
          | (some file, world) => openFile ops world file flags uid gid

/-- `file->flags & (O_RDONLY | O_RDWR)` in `syscall_read`. -/
def readAccepts (flags : BitVec 32) : Bool := has flags (oRdonly ||| oRdwr)

/-- `file->flags & (O_WRONLY | O_RDWR)` in `syscall_write`. -/
def writeAccepts (flags : BitVec 32) : Bool := has flags (oWronly ||| oRdwr)

/-- The size a transfer is cut to: both calls stop at the end of a regular
file, in `size_t` arithmetic. -/
def clippedSize (file : FsFile) (size : Nat) : Nat :=
  if (size + file.offset) % 2 ^ 64 > file.length ∧ !isDev file ∧ !isFifo file then
    (file.length + 2 ^ 64 - file.offset) % 2 ^ 64
  else size

def syscallRead (ops : FileOps Fs) (world : World Fs) (id size : Nat) :
    (Int × List UInt8) × World Fs :=
  match world.fds id with
  | none => ((-ebadf, []), world)
  | some sfile =>
    if !readAccepts sfile.flags then ((-einval, []), world)
    else if size = 0 then ((0, []), world)
    else
      let file := world.files sfile.file
      let size := clippedSize file size
      let (read, world) := ops.vfsRead world sfile.file file.offset size
      (read, world.setOffset sfile.file (((world.files sfile.file).offset + size) % 2 ^ 64))

def syscallWrite (ops : FileOps Fs) (world : World Fs) (id : Nat) (buffer : List UInt8) (size : Nat) :
    Int × World Fs :=
  match world.fds id with
  | none => (0, world)
  | some sfile =>
    if !writeAccepts sfile.flags then (0, world)
    else if size = 0 then (0, world)
    else
      let file := world.files sfile.file
      let size := clippedSize file size
      let (written, world) := ops.vfsWrite world sfile.file buffer file.offset size
      (written, world.setOffset sfile.file (((world.files sfile.file).offset + size) % 2 ^ 64))

end MandelbrotOS.Descriptors
