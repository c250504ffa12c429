import MandelbrotOS.Descriptors
import MandelbrotOS.PageLoops
import MandelbrotOS.Vectors
import MandelbrotOS.Vmm

/-! Mapping and unmapping ranges of a process: `vmm_mmap_range` of `mm/vmm.c`,
`vfs_mmap` with the hooks it can reach, and `syscall_mmap` and
`syscall_munmap` of `sys/syscall.c`. -/
namespace MandelbrotOS.Mmap
open ByteMemory Descriptors PageLoops Pmm Vectors Vfs Vmm

def protWrite : BitVec 32 := 0x2

def mapPrivate : BitVec 32 := 0x1
def mapShared : BitVec 32 := 0x2
def mapFixed : BitVec 32 := 0x4
def mapAnon : BitVec 32 := 0x8

def mmapMaxSize : Nat := 0x2000000

def enodev : Nat := 44
def enomem : Nat := 49

structure MmapRange where
  file : Option FilePtr
  physAddr : BitVec 64
  virtAddr : BitVec 64
  offset : Nat
  length : Nat
  flags : BitVec 32
  prot : BitVec 32
  deriving DecidableEq

/-- The `mmap` hooks of the devices and file systems that have one. -/
inductive MmapOp where
  | fbMmap
  | mousedevMmap
  | fatMmap

/-- What the mapping calls of the running process read and write. Tops are
top-level tables by page number. `released` lists the arguments of every
`pmm_free_pages` call; nothing reads it. -/
structure Process (α : Type) where
  state : State α
  topLevel : Nat
  ranges : Vec MmapRange
  mmapTop : Nat
  mmapedLen : Nat
  fds : Nat → Option SyscallFile
  files : FilePtr → FsFile
  mmapOps : FilePtr → Option MmapOp
  kernelTop : Nat
  framebuffer : BitVec 64
  released : List (Nat × Nat) := []

variable {α : Type}

def Process.pushRange (p : Process α) (range : MmapRange) : Process α :=
  { p with ranges := vecPush p.ranges range }

/-- `(prot & PROT_WRITE) ? 0b111 : 0b101`. -/
def pageFlags (prot : BitVec 32) : BitVec 64 := if has prot protWrite then 0b111 else 0b101

def vmmMmapRange (A : Allocator α) (p : Process α) (physAddr virtAddr : BitVec 64) (length : Nat)
    (flags prot : BitVec 32) : Option (Process α) := do
  let state ← forPages (fun s i => vmmMapPage A s (p.topLevel * pageSize)
    (physAddr + BitVec.ofNat 64 i) (virtAddr + BitVec.ofNat 64 i) (pageFlags prot)) length p.state
  some (Process.pushRange { p with state := state }
    ⟨none, physAddr, virtAddr, 0, length, flags ||| mapAnon, prot⟩)

/-- `fb_mmap`: the framebuffer's address is translated again for every page. -/
def fbMmap (A : Allocator α) (p : Process α) (sfile : FilePtr) (addr : BitVec 64) (size offset : Nat)
    (prot flags : BitVec 32) : Option (Process α) := do
  let state ← forPages (fun s i => do
    let (phys, s) ← vmmVirtToPhys A s (p.kernelTop * pageSize) p.framebuffer
    vmmMapPage A s (p.topLevel * pageSize) (phys + BitVec.ofNat 64 i) (addr + BitVec.ofNat 64 i)
      (pageFlags prot)) size p.state
  let (phys, state) ← vmmVirtToPhys A state (p.kernelTop * pageSize) p.framebuffer
  let p := Process.pushRange { p with state := state }
    ⟨some sfile, phys, addr, offset, size, flags, prot⟩
  let (_, state) ← vmmVirtToPhys A p.state (p.kernelTop * pageSize) p.framebuffer
  some { p with state := state }

/-- What `vfs_mmap` comes to: nothing is mapped for a pipe, a mouse or a FAT
file, and a file without a hook is a jump to `NULL`. -/
def vfsMmap (A : Allocator α) (p : Process α) (file : FilePtr) (addr : BitVec 64) (size offset : Nat)
    (prot flags : BitVec 32) : Option (Option (Process α)) :=
  if isFifo (p.files file) then some (some p)
  else match p.mmapOps file with
    | none => some none
    | some .fbMmap => (fbMmap A p file addr size offset prot flags).map some
    | some .mousedevMmap => some (some p)
    | some .fatMmap => some (some p)

structure MmapArgs where
  addr : BitVec 64
  length : Nat
  flags : BitVec 64
  prot : BitVec 64
  fd : Int
  offset : Nat

/-- `ALIGN_UP(length, PAGE_SIZE) / PAGE_SIZE`, in `size_t`. -/
def neededPages (length : Nat) : Nat := (length + pageSize - 1) % wordSize / pageSize

/-- `syscall_mmap` once the address is chosen. -/
def mmapAt (A : Allocator α) (p : Process α) (args : MmapArgs) (addr : BitVec 64) :
    Option (Reply × Process α) :=
  let flags := args.flags.setWidth 32
  let prot := args.prot.setWidth 32
  if has flags mapAnon then do
    let (givenPages, state) ← pcalloc A p.state (neededPages args.length)
    if givenPages = 0 then some (.error enomem, { p with state := state })
    else
      let p ← vmmMmapRange A { p with state := state } (BitVec.ofNat 64 givenPages) addr
        (neededPages args.length * pageSize) flags prot
      some (.value addr.toNat, p)
  else if args.fd < 0 then some (.error ebadf, p)
  else match p.fds args.fd.toNat with
    | none => some (.fault, p)
    | some file =>
      if has prot protWrite && has flags mapShared && !has file.flags (oRdwr ||| oWronly) then
        some (.error eacces, p)
      else if isFifo (p.files file.file) then some (.error enodev, p)
      else match vfsMmap A p file.file addr args.length args.offset prot flags with
        | none => none
        | some none => some (.fault, p)
        | some (some p) => some (.value addr.toNat, p)

def syscallMmap (A : Allocator α) (p : Process α) (args : MmapArgs) : Option (Reply × Process α) :=
  let flags := args.flags.setWidth 32
  let needed := neededPages args.length * pageSize
  if args.fd > -1 ∧ (args.fd ≥ fdsCount ∨ (p.fds args.fd.toNat).isNone) then some (.error ebadf, p)
  else if args.fd > -1 ∧ !((p.fds args.fd.toNat).any fun file => readAccepts file.flags) then
    some (.error eacces, p)
  else if args.length = 0 then some (.error einval, p)
  else if !has flags mapShared && !has flags mapPrivate then some (.error einval, p)
  else if (p.mmapedLen + needed) % wordSize > mmapMaxSize then some (.error emfile, p)
  else
    let p := { p with mmapedLen := (p.mmapedLen + needed) % wordSize }
    if has flags mapFixed then
      if args.addr.toNat % pageSize ≠ 0 then some (.error einval, p)
      else mmapAt A p args args.addr
    else
      mmapAt A { p with mmapTop := (p.mmapTop + (neededPages args.length + 1) * pageSize) % wordSize }
        args (BitVec.ofNat 64 p.mmapTop)

/-- The frames of a range given back, if it has frames of its own. -/
def releaseFrames (A : Allocator α) (p : Process α) (range : MmapRange) : Process α :=
  if has range.flags mapAnon then
    let adr := range.physAddr.toNat
    let pages := range.length / pageSize
    { p with
      state := { p.state with alloc := A.pmmFreePages p.state.alloc adr pages }
      released := p.released ++ [(adr, pages)] }
  else p

/-- `syscall_munmap`. The range whose frames are released is read from the list
after the removal, at the index the removed one had. -/
def syscallMunmap (A : Allocator α) (p : Process α) (addr : BitVec 64) (length : Nat) :
    Option (Nat × Process α) :=
  match (List.range p.ranges.length).find? fun i => (p.ranges.data i).virtAddr == addr with
  | none => some (1, p)
  | some i => do
    let ranges := vecRemove p.ranges (p.ranges.data i)
    let state ← forPages (fun s i =>
      vmmUnmapPage A s (p.topLevel * pageSize) (addr + BitVec.ofNat 64 i)) length p.state
    some (0, releaseFrames A { p with ranges := ranges, state := state } (ranges.data i))

end MandelbrotOS.Mmap
