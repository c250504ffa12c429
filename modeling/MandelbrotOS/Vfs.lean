import Mathlib.Algebra.Group.Nat.Defs
import Mathlib.Logic.Function.Basic

/-! The file object and the permission checks of `fs/vfs.c` and `fs/vfs.h`.
Flags and modes are C `int`s used as bit sets. -/
namespace MandelbrotOS.Vfs

def oRdonly : BitVec 32 := 0x1
def oWronly : BitVec 32 := 0x2
def oRdwr : BitVec 32 := 0x4
def oCreat : BitVec 32 := 0x200
def oExec : BitVec 32 := 0x400000

def sIfmt : BitVec 32 := 0o170000
def sIfreg : BitVec 32 := 0o100000
def sIfblk : BitVec 32 := 0o60000
def sIfdir : BitVec 32 := 0o40000
def sIfchr : BitVec 32 := 0o20000
def sIfifo : BitVec 32 := 0o10000

def sIrusr : BitVec 32 := 0o400
def sIwusr : BitVec 32 := 0o200
def sIxusr : BitVec 32 := 0o100
def sIrgrp : BitVec 32 := 0o40
def sIwgrp : BitVec 32 := 0o20
def sIxgrp : BitVec 32 := 0o10
def sIroth : BitVec 32 := 0o4
def sIwoth : BitVec 32 := 0o2
def sIxoth : BitVec 32 := 0o1

/-- `value & mask` used as a condition. -/
def has (value mask : BitVec 32) : Bool := value &&& mask != 0#32

/-- The fields of `fs_file_t` the system calls read or write. `ref_count` is an `int`
in the source; here it has no bound. -/
structure FsFile where
  uid : Int
  gid : Int
  mode : BitVec 32
  length : Nat := 0
  offset : Nat := 0
  refCount : Int := 1

def isDev (file : FsFile) : Bool :=
  file.mode &&& sIfmt == sIfchr || file.mode &&& sIfmt == sIfblk

def isDir (mode : BitVec 32) : Bool := mode &&& sIfmt == sIfdir

def isFifo (file : FsFile) : Bool := file.mode &&& sIfmt == sIfifo

/-- `!uid`, on which each check grants access without looking at the file. -/
def rootShortcut (uid : Int) : Bool := uid == 0

/-- The common body of the three checks: 0 grants and 1 refuses. -/
def vfsCheck (usr grp oth : BitVec 32) (file : FsFile) (uid gid : Int) : Nat :=
  if rootShortcut uid then 0
  else if !((uid == file.uid && has file.mode usr) || (gid == file.gid && has file.mode grp) ||
      has file.mode oth) then 1
  else 0

def vfsCheckCanRead : FsFile → Int → Int → Nat := vfsCheck sIrusr sIrgrp sIroth

def vfsCheckCanWrite : FsFile → Int → Int → Nat := vfsCheck sIwusr sIwgrp sIwoth

def vfsCheckCanExec : FsFile → Int → Int → Nat := vfsCheck sIxusr sIxgrp sIxoth

theorem vfsCheck_congr (usr grp oth : BitVec 32) {file other : FsFile} (uid gid : Int)
    (owner : file.uid = other.uid) (group : file.gid = other.gid) (mode : file.mode = other.mode) :
    vfsCheck usr grp oth file uid gid = vfsCheck usr grp oth other uid gid := by
  simp only [vfsCheck, owner, group, mode]

end MandelbrotOS.Vfs
