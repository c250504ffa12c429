import Mathlib.Data.BitVec
import Mathlib.Logic.Function.Basic
import MandelbrotOS.Vmm

/-! Commands to a SATA disk, `sata_read` and `sata_write` of `drivers/ahci.c`. A command
is a header, a table of stretches of memory and a FIS. The loop that fills the table
counts `count32` down to what is left for the last stretch, and the FIS is filled from
what the loop has left of it; so the stretches cover the buffer, but a transfer of more
than sixteen sectors asks the disk for its last few sectors only. The registers of a
port are what the calls read there, one value for each read. -/
namespace MandelbrotOS.Ahci
open Vmm

/-! ### The code -/

structure HbaPrdtEntry where
  dba : BitVec 32 := 0#32
  dbau : BitVec 32 := 0#32
  dbc : BitVec 22 := 0#22
  i : Bool := false
  deriving DecidableEq

/-- The fields of `fis_reg_host_to_device_t` that are set; all others are zero. -/
structure FisRegHostToDevice where
  fisType : BitVec 8
  c : Bool
  command : BitVec 8
  lba0 : BitVec 8
  lba1 : BitVec 8
  lba2 : BitVec 8
  device : BitVec 8
  lba3 : BitVec 8
  lba4 : BitVec 8
  lba5 : BitVec 8
  countl : BitVec 8
  counth : BitVec 8
  deriving DecidableEq

/-- The fields of `hba_cmd_header_t` that are set. -/
structure HbaCmdHeader where
  cfl : BitVec 5
  w : Bool
  p : Bool
  c : Bool
  prdtl : BitVec 16
  deriving DecidableEq

/-- A header with the table behind its `ctba`. -/
structure Command where
  header : HbaCmdHeader
  prdtEntry : Nat → HbaPrdtEntry
  fis : FisRegHostToDevice

/-- `ahci_private_data_t`, with the `sector_start` of the partition if there is one. -/
structure Device where
  part : Option (BitVec 32)

inductive Op where
  | read
  | write

/-- `cmd_header->prdtl`. -/
def prdtLength (count32 : BitVec 32) : BitVec 16 := ((count32 - 1#32) >>> 4).setWidth 16 + 1#16

/-- What each function sets in the header. -/
def Op.header : Op → HbaCmdHeader → BitVec 32 → HbaCmdHeader
  | .read, old, count32 => { old with cfl := 5, w := false, prdtl := prdtLength count32 }
  | .write, _, count32 => { cfl := 5, w := true, c := true, p := true, prdtl := prdtLength count32 }

def Op.command : Op → BitVec 8
  | .read => 0x25
  | .write => 0x35

/-- The variables of the loop. -/
structure Filling where
  prdtEntry : Nat → HbaPrdtEntry
  buf : BitVec 64
  count32 : BitVec 32

/-- The body of the loop: a stretch of 8 KiB. -/
def fillEntry (f : Filling) (i : Nat) : Filling where
  prdtEntry := Function.update f.prdtEntry i
    { dba := (f.buf - physMemOffset).setWidth 32, dbau := 0#32, dbc := 8191#22, i := true }
  buf := f.buf + 8192#64
  count32 := f.count32 - 16#32

/-- The entry behind the loop, for what is left. -/
def lastEntry (f : Filling) (i : Nat) : Nat → HbaPrdtEntry :=
  Function.update f.prdtEntry i
    { f.prdtEntry i with
      dba := (f.buf - physMemOffset).setWidth 32
      dbc := (f.count32 <<< 9 - 1#32).setWidth 22
      i := true }

/-- `cmd_fis`, from the number of the first sector and a count. -/
def fillFis (op : Op) (start64 : BitVec 64) (count32 : BitVec 32) : FisRegHostToDevice :=
  let startl : BitVec 32 := start64.setWidth 32
  let starth : BitVec 32 := (start64 >>> 32).setWidth 32
  { fisType := 0x27
    c := true
    command := op.command
    lba0 := startl.setWidth 8
    lba1 := (startl >>> 8).setWidth 8
    lba2 := (startl >>> 16).setWidth 8
    device := 1#8 <<< 6
    lba3 := (startl >>> 24).setWidth 8
    lba4 := starth.setWidth 8
    lba5 := (starth >>> 8).setWidth 8
    countl := (count32 &&& 0xff#32).setWidth 8
    counth := (count32 >>> 8).setWidth 8 }

/-- `start64`, from the sector asked for. -/
def Device.start64 (dev : Device) (start : BitVec 64) : BitVec 64 :=
  match dev.part with
  | some sectorStart => start + sectorStart.setWidth 64
  | none => start

/-- The command that the functions build in a slot. `memset` clears as many entries of
the table as `prdtl` says. -/
def buildCommand (op : Op) (dev : Device) (start count buf : BitVec 64) (header : HbaCmdHeader)
    (prdtEntry : Nat → HbaPrdtEntry) : Command :=
  let header := op.header header (count.setWidth 32)
  let cleared : Nat → HbaPrdtEntry := fun i => if i < header.prdtl.toNat then {} else prdtEntry i
  let last := (header.prdtl.setWidth 64 - 1#64).toNat
  let filled := (List.range last).foldl fillEntry ⟨cleared, buf, count.setWidth 32⟩
  { header := header
    prdtEntry := lastEntry filled last
    fis := fillFis op (dev.start64 start) filled.count32 }

/-- What the registers of a port read during a call: `sact` and `ci` when a slot is
looked for, `tfd` at each read, and `ci` and `is` at each turn of the last loop. -/
structure Port where
  sact : BitVec 32
  ci : BitVec 32
  tfd : Nat → BitVec 32
  turns : Nat → BitVec 32 × BitVec 32

def ahciFindCmdslot (port : Port) : Option Nat :=
  (List.range 32).find? fun i => (port.sact ||| port.ci) >>> i &&& 1#32 = 0#32

/-- `ATA_DEV_BUSY` or `ATA_DEV_DRQ`. -/
def busy (tfd : BitVec 32) : Bool := tfd &&& (0x80#32 ||| 0x08#32) ≠ 0#32

/-- The test behind the loop of a million reads. -/
def staysBusy (port : Port) : Bool :=
  busy (port.tfd (((List.range 1000000).find? fun spin => !busy (port.tfd spin)).elim 1000000 (· + 1)))

/-- `HBA_PXIS_TFES`. -/
def taskFileError (is : BitVec 32) : Bool := is &&& 1#32 <<< 30 ≠ 0#32

/-- The last loop and the test behind it: whether the command has failed. -/
def awaitSlot (port : Port) (slot : Nat) : Nat → Nat → Option Bool
  | 0, _ => none
  | fuel + 1, turn =>
    if (port.turns turn).1 &&& 1#32 <<< slot = 0#32 then some (taskFileError (port.turns turn).2)
    else if taskFileError (port.turns turn).2 then some true
    else awaitSlot port slot fuel (turn + 1)

/-- The slots of a port, each with the header and the table that are there. -/
structure Slots where
  header : Nat → HbaCmdHeader
  prdtEntry : Nat → Nat → HbaPrdtEntry

/-- The command of a call, with its slot; `none` if no slot is free. -/
def sataCommand (op : Op) (dev : Device) (port : Port) (slots : Slots) (start count buf : BitVec 64) :
    Option (Nat × Command) :=
  (ahciFindCmdslot port).map fun slot =>
    (slot, buildCommand op dev start count buf (slots.header slot) (slots.prdtEntry slot))

/-- A call: the command it issued, and what it returned if the last loop ended in time. -/
def sataTransfer (op : Op) (dev : Device) (port : Port) (slots : Slots) (start count buf : BitVec 64)
    (fuel : Nat) : Option (Nat × Command) × Option (BitVec 64) :=
  match sataCommand op dev port slots start count buf with
  | none => (none, some 0)
  | some (slot, command) =>
    if staysBusy port then (none, some 0)
    else (some (slot, command),
      (awaitSlot port slot fuel 0).map fun failed => if failed then 0 else count * 512#64)

def sataRead := sataTransfer .read

def sataWrite := sataTransfer .write

/-! ### What is asked of it -/

/-- The count of sectors of a FIS. -/
def FisRegHostToDevice.sectors (fis : FisRegHostToDevice) : Nat := fis.counth.toNat * 2 ^ 8 + fis.countl.toNat

/-- The first sector of a FIS. -/
def FisRegHostToDevice.lba (fis : FisRegHostToDevice) : Nat :=
  fis.lba5.toNat * 2 ^ 40 + fis.lba4.toNat * 2 ^ 32 + fis.lba3.toNat * 2 ^ 24 + fis.lba2.toNat * 2 ^ 16 +
    fis.lba1.toNat * 2 ^ 8 + fis.lba0.toNat

/-- The physical addresses of a stretch. -/
def HbaPrdtEntry.stretch (entry : HbaPrdtEntry) : List Nat :=
  List.range' (entry.dbau.toNat * 2 ^ 32 + entry.dba.toNat) (entry.dbc.toNat + 1)

/-- The physical addresses of a command's stretches, in order. -/
def Command.addresses (command : Command) : List Nat :=
  (List.range command.header.prdtl.toNat).flatMap fun i => (command.prdtEntry i).stretch

/-- A command for `count` sectors from `start` on into or out of a buffer. -/
structure Describes (command : Command) (start count phys : Nat) : Prop where
  sectors : command.fis.sectors = count
  lba : command.fis.lba = start
  buffer : command.addresses = List.range' phys (512 * count)

/-- The first sector of a partition, or of the disk. -/
def Device.sectorStart (dev : Device) : Nat := dev.part.elim 0 BitVec.toNat

/-! ### The stretches -/

/-- After `k` turns: `k` stretches of the buffer are in the table, and the rest of it and
of the count are left. -/
structure Filled (phys count last k : Nat) (f : Filling) : Prop where
  buf : f.buf - physMemOffset = .ofNat 64 (phys + 8192 * k)
  left : f.count32 = .ofNat 32 (count - 16 * k)
  stretches : ∀ j < k, (f.prdtEntry j).stretch = List.range' (phys + 8192 * j) 8192
  cleared : ∀ j, k ≤ j → j ≤ last → f.prdtEntry j = {}

theorem setWidth_ofNat (n : Nat) : (BitVec.ofNat 64 n).setWidth 32 = .ofNat 32 n := by
  simp

theorem fillEntry_self (f : Filling) (i : Nat) :
    (fillEntry f i).prdtEntry i =
      { dba := (f.buf - physMemOffset).setWidth 32, dbau := 0#32, dbc := 8191#22, i := true } :=
  Function.update_self ..

theorem fillEntry_of_ne (f : Filling) (other : j ≠ i) : (fillEntry f i).prdtEntry j = f.prdtEntry j :=
  Function.update_of_ne other ..

theorem fillEntry_filled (filled : Filled phys count last k f) (inside : k < last) (low : phys + 8192 * (k + 1) ≤ 2 ^ 32)
    (more : 16 * (k + 1) ≤ count) : Filled phys count last (k + 1) (fillEntry f k) := by
  constructor
  case buf =>
    rw [fillEntry, add_sub_right_comm, filled.buf]
    apply BitVec.eq_of_toNat_eq
    grind
  case left =>
    rw [fillEntry, filled.left]
    apply BitVec.eq_of_toNat_eq
    grind
  case stretches =>
    intro j early
    by_cases here : j = k
    · subst here
      have address : (BitVec.ofNat 32 (phys + 8192 * j)).toNat = phys + 8192 * j := by
        grind
      rw [fillEntry_self, HbaPrdtEntry.stretch, filled.buf, setWidth_ofNat, address]
      simp
    · rw [fillEntry_of_ne f here]
      exact filled.stretches j (by omega)
  case cleared =>
    intro j late within
    rw [fillEntry_of_ne f (by omega)]
    exact filled.cleared j (by omega) within

theorem foldl_filled (start : Filled phys count last 0 f) (low : phys + 8192 * last ≤ 2 ^ 32) (more : 16 * last ≤ count) :
    ∀ k ≤ last, Filled phys count last k ((List.range k).foldl fillEntry f) := by
  intro k within
  induction k with
  | zero => exact start
  | succ k ih =>
    grind [List.range_succ, fillEntry_filled]

theorem lastEntry_stretch (filled : Filled phys count last last f) (low : phys + 8192 * last < 2 ^ 32)
    (some : 16 * last < count) (few : count ≤ 16 * last + 16) :
    (lastEntry f last last).stretch = List.range' (phys + 8192 * last) (512 * (count - 16 * last)) := by
  rw [lastEntry, Function.update_self, filled.cleared last (Nat.le_refl _) (Nat.le_refl _), HbaPrdtEntry.stretch,
    filled.buf, filled.left, setWidth_ofNat]
  grind [Nat.shiftLeft_eq]

theorem flatMap_stretches (first width : Nat) (stretch : Nat → List Nat) (n : Nat)
    (each : ∀ j < n, stretch j = List.range' (first + width * j) width) :
    (List.range n).flatMap stretch = List.range' first (width * n) := by
  induction n with
  | zero => rfl
  | succ n ih =>
    grind [List.range_succ]

section
variable {op : Op} {dev : Device} {start count buf : BitVec 64} {header : HbaCmdHeader}
  {prdtEntry : Nat → HbaPrdtEntry}

/-- How many stretches of 8 KiB go before the last one. -/
def fullStretches (count : Nat) : Nat := (count - 1) / 16

theorem prdtLength_toNat (least : 1 ≤ count.toNat) (most : count.toNat ≤ 3968) :
    (prdtLength (count.setWidth 32)).toNat = fullStretches count.toNat + 1 := by
  simp only [prdtLength, fullStretches, BitVec.toNat_add, BitVec.toNat_setWidth, BitVec.toNat_ushiftRight,
    BitVec.toNat_sub, BitVec.toNat_ofNat, Nat.shiftRight_eq_div_pow]
  omega

theorem header_prdtl (op : Op) (old : HbaCmdHeader) (count32 : BitVec 32) :
    (op.header old count32).prdtl = prdtLength count32 := by
  cases op <;> rfl

section
variable (least : 1 ≤ count.toNat) (most : count.toNat ≤ 3968) (placed : buf - physMemOffset = .ofNat 64 phys)
  (low : phys + 512 * count.toNat ≤ 2 ^ 32)
include least most placed low

theorem buildCommand_filled : ∃ f, Filled phys count.toNat (fullStretches count.toNat) (fullStretches count.toNat) f ∧
      (buildCommand op dev start count buf header prdtEntry).header.prdtl.toNat = fullStretches count.toNat + 1 ∧
      (buildCommand op dev start count buf header prdtEntry).prdtEntry = lastEntry f (fullStretches count.toNat) ∧
      (buildCommand op dev start count buf header prdtEntry).fis = fillFis op (dev.start64 start) f.count32 := by
  have length := prdtLength_toNat least most
  have last : ((prdtLength (count.setWidth 32)).setWidth 64 - 1#64).toNat = fullStretches count.toNat := by
    grind [fullStretches]
  have full : fullStretches count.toNat = (count.toNat - 1) / 16 := rfl
  simp only [buildCommand, header_prdtl, last, length]
  refine ⟨_, foldl_filled ⟨?_, ?_, fun j early => absurd early (Nat.not_lt_zero j), fun j _ within => ?_⟩
    (by omega) (by omega) _ (Nat.le_refl _), trivial, rfl, rfl⟩
  · exact placed
  · simp
  · exact if_pos (by omega)

theorem addresses_eq : (buildCommand op dev start count buf header prdtEntry).addresses = List.range' phys (512 * count.toNat) := by
  obtain ⟨f, filled, length, entries, -⟩ := buildCommand_filled least most placed low
  have full : fullStretches count.toNat = (count.toNat - 1) / 16 := rfl
  have before (j : Nat) (early : j < fullStretches count.toNat) :
      (lastEntry f (fullStretches count.toNat) j).stretch = List.range' (phys + 8192 * j) 8192 := by
    rw [lastEntry, Function.update_of_ne (by omega)]
    exact filled.stretches j early
  rw [Command.addresses, length, entries, List.range_succ, List.flatMap_append, flatMap_stretches phys 8192 _ _ before,
    List.flatMap_singleton, lastEntry_stretch filled (by omega) (by omega) (by omega), List.range'_append_1]
  congr 1
  omega

theorem sectors_eq : (buildCommand op dev start count buf header prdtEntry).fis.sectors =
    count.toNat - 16 * fullStretches count.toNat := by
  obtain ⟨f, filled, -, -, fis⟩ := buildCommand_filled least most placed low
  have full : fullStretches count.toNat = (count.toNat - 1) / 16 := rfl
  have low8 (n : Nat) : n &&& 255 = n % 2 ^ 8 := Nat.and_two_pow_sub_one_eq_mod n 8
  rw [fis, fillFis, FisRegHostToDevice.sectors, filled.left]
  grind

/-- What a call returns that ends without an error: the bytes of all sectors, although
the disk was asked for those behind the full stretches only. -/
theorem sataTransfer_returns (slots : Slots) (free : ahciFindCmdslot port = some slot)
    (ready : staysBusy port = false) (ended : awaitSlot port slot fuel 0 = some false) :
    ∃ command returned, sataTransfer op dev port slots start count buf fuel = (some (slot, command), some returned) ∧
      returned.toNat = 512 * count.toNat ∧ command.fis.sectors = count.toNat - 16 * fullStretches count.toNat := by
  refine ⟨buildCommand op dev start count buf (slots.header slot) (slots.prdtEntry slot), count * 512#64, ?_, ?_,
    sectors_eq least most placed low⟩
  · simp only [sataTransfer, sataCommand, free, Option.map_some, ready, ended, Bool.false_eq_true, if_false]
  · rw [BitVec.toNat_mul, BitVec.toNat_ofNat]
    omega

end

theorem lba_eq (op : Op) (start64 : BitVec 64) (count32 : BitVec 32) :
    (fillFis op start64 count32).lba = start64.toNat % 2 ^ 48 := by
  simp only [fillFis, FisRegHostToDevice.lba, BitVec.toNat_setWidth, BitVec.toNat_ushiftRight,
    Nat.shiftRight_eq_div_pow]
  omega

theorem start64_toNat (dev : Device) (start : BitVec 64) :
    (dev.start64 start).toNat = (start.toNat + dev.sectorStart) % 2 ^ 64 := by
  have small := start.isLt
  rw [Device.start64, Device.sectorStart]
  cases dev.part with
  | none => exact (Nat.mod_eq_of_lt small).symm
  | some sectorStart =>
    simp

/-- **A command** of `sata_read` or `sata_write` describes the transfer asked for
exactly when that is one of sixteen sectors at most and its first sector has a number
of 48 bits. -/
theorem describes_iff (op : Op) (dev : Device) (slots : Slots) (start count buf : BitVec 64) (phys : Nat)
    (free : ahciFindCmdslot port = some slot) (least : 1 ≤ count.toNat) (most : count.toNat ≤ 3968)
    (placed : buf - physMemOffset = .ofNat 64 phys) (low : phys + 512 * count.toNat ≤ 2 ^ 32) :
    (∃ command, sataCommand op dev port slots start count buf = some (slot, command) ∧
      Describes command (start.toNat + dev.sectorStart) count.toNat phys) ↔
      count.toNat ≤ 16 ∧ start.toNat + dev.sectorStart < 2 ^ 48 := by
  have full : fullStretches count.toNat = (count.toNat - 1) / 16 := rfl
  have sectors : (buildCommand op dev start count buf (slots.header slot) (slots.prdtEntry slot)).fis.sectors =
      count.toNat - 16 * fullStretches count.toNat := sectors_eq least most placed low
  have lba : (buildCommand op dev start count buf (slots.header slot) (slots.prdtEntry slot)).fis.lba =
      (dev.start64 start).toNat % 2 ^ 48 := lba_eq ..
  rw [start64_toNat] at lba
  rw [sataCommand, free, Option.map_some]
  constructor
  · rintro ⟨command, built, describes⟩
    obtain rfl := (Prod.mk.inj (Option.some.inj built)).2
    have count := describes.sectors
    have first := describes.lba
    omega
  · rintro ⟨few, small⟩
    refine ⟨_, rfl, ?_, ?_, addresses_eq least most placed low⟩
    · omega
    · omega

end

/-- A port with nothing to do, and a disk with a partition. -/
def idlePort : Port := ⟨0, 0, fun _ => 0, fun _ => (0, 0)⟩

def emptySlots : Slots := ⟨fun _ => ⟨0, false, false, false, 8⟩, fun _ _ => {}⟩

def partition : Device := ⟨some 2048⟩

theorem sixteen_sectors_described :
    ∃ command, sataCommand .write partition idlePort emptySlots 5 16 0xffff800000100000 = some (0, command) ∧
      Describes command 2053 16 0x100000 :=
  (describes_iff .write partition emptySlots 5 16 0xffff800000100000 0x100000 rfl (by decide) (by decide) rfl (by decide)).mpr
    ⟨by decide, by decide⟩

/-- For seventeen sectors the disk is asked for one. -/
theorem seventeenth_sector_only :
    (sataCommand .read partition idlePort emptySlots 5 17 0xffff800000100000).map (fun built => built.2.fis.sectors) =
        some 1 ∧
      ¬ ∃ command, sataCommand .read partition idlePort emptySlots 5 17 0xffff800000100000 = some (0, command) ∧
        Describes command 2053 17 0x100000 := by
  have one : (sataCommand .read partition idlePort emptySlots 5 17 0xffff800000100000).map
      (fun built => built.2.fis.sectors) = some 1 := by decide
  refine ⟨one, ?_⟩
  rintro ⟨command, built, describes⟩
  rw [built, Option.map_some, Option.some.injEq] at one
  rw [describes.sectors] at one
  cases one

end MandelbrotOS.Ahci
