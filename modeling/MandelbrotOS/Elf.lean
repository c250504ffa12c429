import MandelbrotOS.Mmap

/-! The program loader, `elf_run_binary` of `elf.c`. The file is the buffer it
was read into, byte by byte; the loader trusts every number in it. -/
namespace MandelbrotOS.Elf
open ByteMemory Mmap PageLoops Pmm Vfs Vmm

def elfExecutable : BitVec 16 := 2
def elfHeadLoad : BitVec 32 := 1
def pfW : BitVec 32 := 2

def elfIdent : List (BitVec 8) := [0x7f, 0x45, 0x4c, 0x46]

/-- The fields of `elf_header_t` the loader reads. -/
structure ElfHeader where
  identifier : List (BitVec 8)
  type : BitVec 16
  entry : BitVec 64
  progHeadOff : BitVec 64
  progHeadCount : BitVec 16

/-- The fields of `elf_prog_header_t` the loader reads. -/
structure ElfProgHeader where
  type : BitVec 32
  flags : BitVec 32
  offset : BitVec 64
  virtAddr : BitVec 64
  fileSize : BitVec 64
  memSize : BitVec 64

def elfHeader (buffer : Memory) : ElfHeader where
  identifier := (List.range 4).map buffer
  type := (word buffer 16).setWidth 16
  entry := word buffer 24
  progHeadOff := word buffer 32
  progHeadCount := (word buffer 56).setWidth 16

/-- `prog_header[i]`, a packed struct of 56 bytes. -/
def progHeader (buffer : Memory) (i : Nat) : ElfProgHeader :=
  let adr := (elfHeader buffer).progHeadOff.toNat + i * 56
  { type := (word buffer adr).setWidth 32
    flags := (word buffer (adr + 4)).setWidth 32
    offset := word buffer (adr + 8)
    virtAddr := word buffer (adr + 16)
    fileSize := word buffer (adr + 32)
    memSize := word buffer (adr + 40) }

/-- `virt_addr & (PAGE_SIZE - 1)`. -/
def ElfProgHeader.pageOffset (header : ElfProgHeader) : BitVec 64 := header.virtAddr &&& 0xfff

/-- `ROUND_UP((virt_addr & (PAGE_SIZE - 1)) + mem_size, PAGE_SIZE)`. -/
def ElfProgHeader.pages (header : ElfProgHeader) : Nat :=
  (header.pageOffset + header.memSize + 0xfff).toNat / pageSize

/-- One turn of the loop over the program headers. The pages go where the first
header says, and the precedence of `|` over `?:` makes every range writable. -/
def loadSegment (A : Allocator α) (buffer : Memory) (p : Process α) (i : Nat) : Option (Process α) :=
  let header := progHeader buffer i
  if header.type = elfHeadLoad then do
    let (addr, state) ← pcalloc A p.state header.pages
    let state ← forPages (fun s j => vmmMapPage A s (p.topLevel * pageSize)
      (BitVec.ofNat 64 addr + BitVec.ofNat 64 j) ((progHeader buffer 0).virtAddr + BitVec.ofNat 64 j)
      (if has header.flags pfW then 0b111 else 0b101)) (header.pages * pageSize) state
    let p := Process.pushRange { p with state := state }
      ⟨none, BitVec.ofNat 64 addr, header.virtAddr, 0, header.pages * pageSize,
        mapFixed ||| mapAnon, protWrite⟩
    some { p with state := { p.state with
      mem := copy p.state.mem (addr + header.pageOffset.toNat) header.fileSize.toNat
        fun k => buffer (header.offset.toNat + k) } }
  else some p

/-- `elf_run_binary`: its result, the entry point it stores, and the process
the pagemap belongs to. -/
def elfRunBinary (A : Allocator α) (p : Process α) (buffer : Memory) :
    Option (Nat × Option (BitVec 64) × Process α) :=
  let header := elfHeader buffer
  if header.type ≠ elfExecutable then some (1, none, p)
  else if header.identifier ≠ elfIdent then some (1, none, p)
  else do
    let p ← (List.range header.progHeadCount.toNat).foldlM (loadSegment A buffer) p
    some (0, some header.entry, p)

end MandelbrotOS.Elf
