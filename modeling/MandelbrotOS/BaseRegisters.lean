import Mathlib.Tactic.IntervalCases
import MandelbrotOS.Pci

/-! Base address registers, `pci_get_bar` of `pci/utils.c`. A register keeps the bits
that cannot be written, which is how the size of its range is asked for: all ones are
written, the bits that stay are the mask of the size, and the old value is written
back. The registers come out as they were and the lower half of the base is right; but
the mask is negated in 64 bits, so the size is never that of a range, and the upper half
of a 64-bit base is read at an offset made of the register's value in place of its
number. -/
namespace MandelbrotOS.BaseRegisters
open Pci

/-! ### The code -/

/-- `pci_bar_t`; a base of `none` is one that was not assigned. -/
structure PciBar where
  base : Option (BitVec 64)
  size : BitVec 64
  type : BitVec 32
  deriving DecidableEq

/-- What a write leaves: the bits that can be written take the new value. -/
def latch (writable space stored : Space) : Space := fun place =>
  (stored place &&& writable place) ||| (space place &&& ~~~writable place)

/-- `pci_write_32` to configuration space with the given writable bits. -/
def pciWriteConfig (mcfg : Mcfg) (writable space : Space) (dev : PciDevice) (offset : BitVec 16)
    (data : BitVec 32) : Option Space :=
  (pciWrite32 mcfg space dev offset data).map (latch writable space)

/-- The offset of a register. -/
def barOffset (barno : BitVec 8) : BitVec 16 := 0x10#16 + barno.setWidth 16 * 4#16

/-- A 64-bit value from its halves. -/
def halves (upper lower : BitVec 32) : BitVec 64 := upper.setWidth 64 <<< 32 ||| lower.setWidth 64

/-- The `if` and the `switch`. -/
def pciBarBase (mcfg : Mcfg) (space : Space) (dev : PciDevice) (barVal : BitVec 32) : Option (Option (BitVec 64)) :=
  if barVal &&& 1#32 ≠ 0#32 then some (some ((barVal &&& 0xfffffffc#32).setWidth 64))
  else
    match (barVal >>> 1 &&& 3#32).toNat with
    | 1 => some (some ((barVal &&& 0xfff0#32).setWidth 64))
    | 0 => some (some ((barVal &&& 0xfffffff0#32).setWidth 64))
    | 2 => (pciRead32 mcfg space dev ((0x10#32 + barVal * 4#32 + 4#32).setWidth 16)).map fun upper =>
        some (halves upper (barVal &&& 0xfffffff0#32))
    | _ => some none

/-- `pci_get_bar`, with what it leaves in configuration space. -/
def pciGetBar (mcfg : Mcfg) (writable space : Space) (dev : PciDevice) (barno : BitVec 8) :
    Option (PciBar × Space) := do
  let barVal ← pciRead32 mcfg space dev (barOffset barno)
  let type := barVal &&& 1#32
  let base ← pciBarBase mcfg space dev barVal
  let probed ← pciWriteConfig mcfg writable space dev (barOffset barno) 0xffffffff#32
  let mask ← pciRead32 mcfg probed dev (barOffset barno)
  let size := mask.setWidth 64 &&& if type ≠ 0#32 then 0xfffffffc#64 else 0xfffffff0#64
  let restored ← pciWriteConfig mcfg writable probed dev (barOffset barno) barVal
  return (⟨base, ~~~size + 1#64, type⟩, restored)

/-! ### What is asked of it -/

/-- The kinds of registers. -/
inductive Kind where
  | io
  | memory32
  | memory64
  | other
  deriving DecidableEq

def kindOf (barVal : BitVec 32) : Kind :=
  if barVal.getLsbD 0 then .io
  else if barVal.getLsbD 1 then .other
  else if barVal.getLsbD 2 then .memory64
  else .memory32

/-- The base that a register and the one behind it stand for. -/
def baseOf (barVal next : BitVec 32) : Option (BitVec 64) :=
  match kindOf barVal with
  | .io => some ((barVal &&& ~~~3#32).setWidth 64)
  | .memory32 => some ((barVal &&& ~~~15#32).setWidth 64)
  | .memory64 => some (next ++ (barVal &&& ~~~15#32))
  | .other => none

/-- The register is decoded as the base of a range of `2 ^ order` bytes, and all of
configuration space is left as it was. -/
structure Decodes (mcfg : Mcfg) (writable space : Space) (dev : PciDevice) (barno : BitVec 8) (order : Nat)
    (bar : PciBar) (after : Space) : Prop where
  returns : pciGetBar mcfg writable space dev barno = some (bar, after)
  base : ∀ barVal next base, pciRead32 mcfg space dev (barOffset barno) = some barVal →
    pciRead32 mcfg space dev (barOffset barno + 4#16) = some next → baseOf barVal next = some base →
      bar.base = some base
  size : bar.size.toNat = 2 ^ order
  untouched : after = space

/-! ### What is right -/

theorem byte_of_read32 (space : Space) (adr place : BitVec 64) (inside : (place - adr).toNat < 4) :
    (read32 space adr >>> (8 * (place - adr).toNat)).setWidth 8 = space place := by
  have there : place = adr + .ofNat 64 (place - adr).toNat := by
    grind
  generalize (place - adr).toNat = distance at inside there
  subst there
  apply BitVec.eq_of_getLsbD_eq
  intro i small
  simp only [read32, read16, BitVec.getLsbD_setWidth, BitVec.getLsbD_ushiftRight, BitVec.getLsbD_append]
  interval_cases distance
  · simp [small, show i < 16 by omega]
  · grind
  · simp [small, show ¬ 16 + i < 16 by omega]
  · grind [add_assoc]

theorem latch_restores (writable space : Space) (adr : BitVec 64) (data : BitVec 32) :
    latch writable (latch writable space (store space adr 4 data))
      (store (latch writable space (store space adr 4 data)) adr 4 (read32 space adr)) = space := by
  funext place
  grind [latch, store, byte_of_read32]

/-- The size that is made of the mask a register answers with. -/
def sizeOf (barVal mask : BitVec 32) : BitVec 64 :=
  ~~~(mask.setWidth 64 &&& if barVal &&& 1#32 ≠ 0#32 then 0xfffffffc#64 else 0xfffffff0#64) + 1#64

theorem pciGetBar_eq (found : accessAddr mcfg dev (barOffset barno) = some adr) (writable space : Space) :
    pciGetBar mcfg writable space dev barno =
      (pciBarBase mcfg space dev (read32 space adr)).map fun base =>
        (⟨base, sizeOf (read32 space adr)
          (read32 (latch writable space (store space adr 4 0xffffffff#32)) adr), read32 space adr &&& 1#32⟩, space) := by
  simp only [pciGetBar, pciRead32, pciWriteConfig, pciWrite32, found, Option.map_some, Option.bind_eq_bind,
    Option.bind_some, latch_restores]
  cases pciBarBase mcfg space dev (read32 space adr) with
  | none => rfl
  | some base => rfl

theorem pciGetBar_none (missing : accessAddr mcfg dev (barOffset barno) = none) (writable space : Space) :
    pciGetBar mcfg writable space dev barno = none := by
  rw [pciGetBar, pciRead32, missing]
  rfl

/-- **Every call that returns** leaves configuration space as it was. -/
theorem pciGetBar_restores (ran : pciGetBar mcfg writable space dev barno = some (bar, after)) : after = space := by
  cases found : accessAddr mcfg dev (barOffset barno) with
  | none =>
    rw [pciGetBar_none found] at ran
    cases ran
  | some adr =>
    rw [pciGetBar_eq found] at ran
    obtain ⟨base, -, same⟩ := Option.map_eq_some_iff.mp ran
    exact (Prod.mk.inj same).2.symm

/-! ### The size -/

theorem sizeOf_ne_pow (barVal mask : BitVec 32) (order : Nat) : (sizeOf barVal mask).toNat ≠ 2 ^ order := by
  rw [sizeOf]
  generalize (if barVal &&& 1#32 ≠ 0#32 then 0xfffffffc#64 else 0xfffffff0#64) = flags
  have small : (mask.setWidth 64 &&& flags).toNat < 2 ^ 32 := by
    rw [BitVec.toNat_and, BitVec.toNat_setWidth_of_le (by decide)]
    exact Nat.lt_of_le_of_lt Nat.and_le_left mask.isLt
  rw [← BitVec.neg_eq_not_add, BitVec.toNat_neg]
  intro equal
  have positive := Nat.two_pow_pos order
  by_cases low : order ≤ 63
  · have bound : 2 ^ order ≤ 2 ^ 63 := Nat.pow_le_pow_right (by decide) low
    omega
  · have bound : 2 ^ 64 ≤ 2 ^ order := Nat.pow_le_pow_right (by decide) (by omega)
    omega

/-- **A base address register is never decoded**, whatever it holds and whichever of
its bits can be written. -/
theorem never_decodes (mcfg : Mcfg) (writable space : Space) (dev : PciDevice) (barno : BitVec 8) (order : Nat)
    (bar : PciBar) (after : Space) : ¬ Decodes mcfg writable space dev barno order bar after := by
  intro decodes
  cases found : accessAddr mcfg dev (barOffset barno) with
  | none =>
    have ran := decodes.returns
    rw [pciGetBar_none found] at ran
    cases ran
  | some adr =>
    have ran := decodes.returns
    rw [pciGetBar_eq found] at ran
    obtain ⟨base, -, same⟩ := Option.map_eq_some_iff.mp ran
    obtain ⟨rfl, -⟩ := Prod.mk.inj same
    exact sizeOf_ne_pow _ _ order decodes.size

/-- One bus with one function. -/
def oneBus : Mcfg := ⟨60, fun _ => ⟨0xb0000000, 0, 0, 0⟩⟩

/-- The address of the function's first base address register. -/
def firstBar : BitVec 64 := 0xffff8000b0000010

/-- The register holds `0xfebf1000`. -/
def pageSpace : Space := fun place =>
  if place = firstBar + 1 then 0x10 else if place = firstBar + 2 then 0xbf
  else if place = firstBar + 3 then 0xfe else 0

/-- Its upper twenty bits can be written: it decodes a range of one page. -/
def pageBits : Space := fun place =>
  if place = firstBar + 1 then 0xf0 else if place = firstBar + 2 then 0xff
  else if place = firstBar + 3 then 0xff else 0

def firstFunction : PciDevice := ⟨headerAt pageSpace 0xffff8000b0000000, 0, 0, 0, 0⟩

/-- For a range of 4096 bytes the size comes out as `0xffffffff00001000`. -/
theorem page_not_decoded :
    (pciGetBar oneBus pageBits pageSpace firstFunction 0).map Prod.fst =
        some ⟨some 0xfebf1000, 0xffffffff00001000, 0⟩ ∧
      ∀ bar after, ¬ Decodes oneBus pageBits pageSpace firstFunction 0 12 bar after := by
  have wide : (pciGetBar oneBus pageBits pageSpace firstFunction 0).map Prod.fst =
      some ⟨some 0xfebf1000, 0xffffffff00001000, 0⟩ := by decide +kernel
  refine ⟨wide, fun bar after decodes => ?_⟩
  rw [decodes.returns, Option.map_some, Option.some.injEq] at wide
  have size := decodes.size
  rw [show bar = _ from wide] at size
  exact absurd size (by decide)

theorem page_space_kept : ∃ bar, pciGetBar oneBus pageBits pageSpace firstFunction 0 = some (bar, pageSpace) := by
  have decoded : (pciGetBar oneBus pageBits pageSpace firstFunction 0).map Prod.fst =
      some ⟨some 0xfebf1000, 0xffffffff00001000, 0⟩ := by decide +kernel
  obtain ⟨⟨bar, after⟩, ran, -⟩ := Option.map_eq_some_iff.mp decoded
  obtain rfl := pciGetBar_restores ran
  exact ⟨bar, ran⟩

end MandelbrotOS.BaseRegisters
