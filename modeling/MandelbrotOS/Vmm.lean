import MandelbrotOS.ByteMemory
import MandelbrotOS.Pmm

/-! The four-level page tables of `mm/vmm.c`. A table is named by its physical
address; the code reaches it at `PHYS_MEM_OFFSET` above that (or directly, in
`init_vmm`), which is the same byte of physical memory. Locks and the TLB are
left out: the calls run one after another and read the tables in memory. -/
namespace MandelbrotOS.Vmm
open ByteMemory Pmm

def physMemOffset : BitVec 64 := 0xffff800000000000
def kernelMemOffset : BitVec 64 := 0xffffffff80000000

/-- `pmalloc` and `pmm_free_pages`, over the allocator's own state. A
`pmalloc` that never comes back is `none`. -/
structure Allocator (α : Type) where
  pmalloc : α → Nat → Option (Nat × α)
  pmmFreePages : α → Nat → Nat → α

/-- The allocator of `mm/pmm.c`. -/
def pmmAllocator : Allocator Pmm.State where
  pmalloc := pmalloc
  pmmFreePages := pmmFreePages

/-- Physical memory and the page allocator. -/
structure State (α : Type) where
  mem : Memory
  alloc : α

variable {α : Type}

/-- `pcalloc`: the pages are cleared unless the first one is page 0, whose
address is `NULL`. -/
def pcalloc (A : Allocator α) (s : State α) (pages : Nat) : Option (Nat × State α) :=
  match A.pmalloc s.alloc pages with
  | none => none
  | some (ret, alloc) =>
    if ret = 0 then some (0, { s with alloc := alloc })
    else some (ret, ⟨fill s.mem ret (pages * pageSize % wordSize) 0, alloc⟩)

/-- `table[index]`. -/
def entryAt (mem : Memory) (table : Nat) (index : Fin 512) : BitVec 64 := word mem (table + index * 8)

def State.setEntry (s : State α) (table : Nat) (index : Fin 512) (entry : BitVec 64) : State α :=
  { s with mem := storeWord s.mem (table + index * 8) entry }

/-- `entry & 1`. -/
def isPresent (entry : BitVec 64) : Bool := entry &&& 1 != 0

/-- `entry & ~0xfff`. -/
def addressOf (entry : BitVec 64) : BitVec 64 := entry &&& ~~~0xfff

/-- `(virtual_address & (0x1ff << shift)) >> shift`. -/
def pmlEntry (shift : Nat) (virtualAddress : BitVec 64) : Fin 512 :=
  ⟨((virtualAddress &&& ((0x1ff : BitVec 64) <<< shift)) >>> shift).toNat % 512, Nat.mod_lt _ (by decide)⟩

def vmmGetNextLevel (A : Allocator α) (s : State α) (table : Nat) (index : Fin 512) :
    Option (Nat × State α) :=
  if isPresent (entryAt s.mem table index) then
    some ((addressOf (entryAt s.mem table index)).toNat, s)
  else match pcalloc A s 1 with
    | none => none
    | some (ret, s) => some (ret, s.setEntry table index (BitVec.ofNat 64 ret ||| 0b111))

/-- The three calls of `vmm_get_next_level` that map, unmap and translate all
begin with: the last table for an address. -/
def descend (A : Allocator α) (s : State α) (topLevel : Nat) (virtualAddress : BitVec 64) :
    Option (Nat × State α) := do
  let (pml3, s) ← vmmGetNextLevel A s topLevel (pmlEntry 39 virtualAddress)
  let (pml2, s) ← vmmGetNextLevel A s pml3 (pmlEntry 30 virtualAddress)
  vmmGetNextLevel A s pml2 (pmlEntry 21 virtualAddress)

def vmmMapPage (A : Allocator α) (s : State α) (topLevel : Nat)
    (physicalAddress virtualAddress flags : BitVec 64) : Option (State α) := do
  let (pml1, s) ← descend A s topLevel virtualAddress
  some (s.setEntry pml1 (pmlEntry 12 virtualAddress) (physicalAddress ||| flags))

def vmmUnmapPage (A : Allocator α) (s : State α) (topLevel : Nat) (virtualAddress : BitVec 64) :
    Option (State α) := do
  let (pml1, s) ← descend A s topLevel virtualAddress
  some (s.setEntry pml1 (pmlEntry 12 virtualAddress) 0)

/-- What a last-level entry translates to. -/
def leafAddress (entry : BitVec 64) : BitVec 64 :=
  if !isPresent entry then 0 else addressOf entry

def vmmVirtToPhys (A : Allocator α) (s : State α) (topLevel : Nat) (virtualAddress : BitVec 64) :
    Option (BitVec 64 × State α) := do
  let (pml1, s) ← descend A s topLevel virtualAddress
  some (leafAddress (entryAt s.mem pml1 (pmlEntry 12 virtualAddress)), s)

/-- The slots the kernel half of the address space hangs from. -/
def upperSlots : List (Fin 512) := (List.finRange 512).filter fun i => 256 ≤ i.val

/-- `vmm_create_new_pagemap`: the new top level. -/
def vmmCreateNewPagemap (A : Allocator α) (s : State α) (kernelTop : Nat) : Option (Nat × State α) := do
  let (userTop, s) ← pcalloc A s 1
  some (userTop, upperSlots.foldl (fun s i => s.setEntry userTop i (entryAt s.mem kernelTop i)) s)

/-- The addresses `first * PAGE_SIZE`, ..., `(last - 1) * PAGE_SIZE` a loop in
steps of `PAGE_SIZE` goes through. -/
def pageAddresses (first last : Nat) : List (BitVec 64) :=
  (List.range' first (last - first)).map fun page => BitVec.ofNat 64 (page * pageSize)

/-- `init_vmm`: the top level of the kernel pagemap. -/
def initVmm (A : Allocator α) (s : State α) : Option (Nat × State α) := do
  let (top, s) ← pcalloc A s 1
  let s ← upperSlots.foldlM (fun s i => (vmmGetNextLevel A s top i).map Prod.snd) s
  let s ← (pageAddresses 1 0x100000).foldlM (fun s i => do
    let s ← vmmMapPage A s top i i 0b11
    vmmMapPage A s top i (i + physMemOffset) 0b11) s
  let s ← (pageAddresses 0 0x80000).foldlM (fun s i =>
    vmmMapPage A s top i (i + kernelMemOffset) 0b111) s
  some (top, s)

end MandelbrotOS.Vmm
