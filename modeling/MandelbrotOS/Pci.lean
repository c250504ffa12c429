import Mathlib.Data.BitVec
import Mathlib.Data.Finset.Max
import MandelbrotOS.Vmm

/-! PCI configuration space, as `pci/enumerate.c` scans it and as `pci/utils.c`
reaches it. Both take the window of a bus from the MCFG table. The scan stops one
bus early, counts a bus from zero and records segment 0 for every function; an
access looks the entry up by segment and bus and counts from its first bus. The
names that are only logged are left out, and an allocation is taken to succeed. -/
namespace MandelbrotOS.Pci
open Vmm

/-! ### The code -/

structure McfgEntry where
  baseAddress : BitVec 64
  segGrp : BitVec 16
  sbus : BitVec 8
  ebus : BitVec 8

/-- `mcfg_t`, with what is in memory from `entries` on read as entries. -/
structure Mcfg where
  length : BitVec 32
  entries : Nat → McfgEntry

/-- The bound of both loops over the table, in `size_t`: the table's head has 44
bytes and an entry 16. -/
def Mcfg.count (mcfg : Mcfg) : Nat := (mcfg.length.setWidth 64 - 44#64).toNat / 16

/-- The bytes of configuration space, by virtual address. -/
abbrev Space := BitVec 64 → BitVec 8

def read16 (space : Space) (adr : BitVec 64) : BitVec 16 := space (adr + 1) ++ space adr

def read32 (space : Space) (adr : BitVec 64) : BitVec 32 := read16 space (adr + 2) ++ read16 space adr

structure PciHeader where
  vendorId : BitVec 16
  deviceId : BitVec 16
  command : BitVec 16
  status : BitVec 16
  revisionId : BitVec 8
  progIf : BitVec 8
  subclass : BitVec 8
  classCode : BitVec 8
  cacheLsize : BitVec 8
  latencyTimer : BitVec 8
  headerType : BitVec 8
  bist : BitVec 8

def headerAt (space : Space) (adr : BitVec 64) : PciHeader where
  vendorId := read16 space adr
  deviceId := read16 space (adr + 2)
  command := read16 space (adr + 4)
  status := read16 space (adr + 6)
  revisionId := space (adr + 8)
  progIf := space (adr + 9)
  subclass := space (adr + 10)
  classCode := space (adr + 11)
  cacheLsize := space (adr + 12)
  latencyTimer := space (adr + 13)
  headerType := space (adr + 14)
  bist := space (adr + 15)

/-- The test that starts every level of the scan. -/
def PciHeader.Absent (header : PciHeader) : Prop := header.deviceId = 0 ∨ header.deviceId = 0xffff

instance (header : PciHeader) : Decidable header.Absent := inferInstanceAs (Decidable (_ ∨ _))

structure PciDevice where
  header : PciHeader
  segment : BitVec 16
  bus : BitVec 32
  device : BitVec 8
  function : BitVec 8

/-- A recorded function, with the address its header was read at. -/
structure Found where
  dev : PciDevice
  readAt : BitVec 64

/-- `pci_devices`, and the arguments of the calls of `pci_enumerate_bus` so far. -/
structure Enumeration where
  pciDevices : List Found
  scanned : List (BitVec 64 × BitVec 64)

def pciEnumerateFn (space : Space) (deviceAddress bus : BitVec 64) (device function : BitVec 8)
    (pciDevices : List Found) : List Found :=
  let functionAddress := deviceAddress + function.setWidth 64 <<< 12
  let pciFn := headerAt space functionAddress
  if pciFn.Absent then pciDevices
  else pciDevices ++ [⟨⟨pciFn, 0, bus.setWidth 32, device, function⟩, functionAddress⟩]

/-- Bit 7 of the header type says that a device has several functions. -/
def PciHeader.functions (header : PciHeader) : Nat := if header.headerType &&& 0x80 = 0 then 1 else 8

def pciEnumerateDev (space : Space) (busAddress bus : BitVec 64) (device : BitVec 8)
    (pciDevices : List Found) : List Found :=
  let deviceAddress := busAddress + device.setWidth 64 <<< 15
  let pciDevice := headerAt space deviceAddress
  if pciDevice.Absent then pciDevices
  else if pciDevice.headerType &&& 0b1111111 ≠ 0 then pciDevices
  else (List.range pciDevice.functions).foldl (fun pciDevices function =>
    pciEnumerateFn space deviceAddress bus device (.ofNat 8 function) pciDevices) pciDevices

def pciEnumerateBus (space : Space) (baseAddress bus : BitVec 64) (e : Enumeration) : Enumeration :=
  let busAddress := baseAddress + bus <<< 20
  { pciDevices :=
      if (headerAt space busAddress).Absent then e.pciDevices
      else (List.range 32).foldl (fun pciDevices device =>
        pciEnumerateDev space busAddress bus (.ofNat 8 device) pciDevices) e.pciDevices
    scanned := e.scanned ++ [(baseAddress, bus)] }

/-- The inner loop of `pci_enumerate`, from `sbus` up to but not including `ebus`. -/
def enumerateEntry (space : Space) (entry : McfgEntry) (e : Enumeration) : Enumeration :=
  (List.range' entry.sbus.toNat (entry.ebus.toNat - entry.sbus.toNat)).foldl (fun e bus =>
    pciEnumerateBus space (entry.baseAddress + physMemOffset) (.ofNat 64 bus) e) e

/-- `pci_enumerate`, given what `acpi_get_table` returned. -/
def pciEnumerate (space : Space) : Option Mcfg → Nat × Enumeration
  | none => (1, ⟨[], []⟩)
  | some mcfg => (0, (List.range mcfg.count).foldl (fun e t => enumerateEntry space (mcfg.entries t) e) ⟨[], []⟩)

def getEntry (mcfg : Mcfg) (segment : BitVec 16) (bus : BitVec 8) : Option McfgEntry :=
  ((List.range mcfg.count).find? fun i =>
    (mcfg.entries i).segGrp = segment ∧ (mcfg.entries i).sbus ≤ bus ∧ bus ≤ (mcfg.entries i).ebus).map mcfg.entries

/-- `get_device_addr`. The offset of the bus is computed in `int`. -/
def getDeviceAddr (entry : McfgEntry) (bus device function : BitVec 8) : BitVec 64 :=
  entry.baseAddress + physMemOffset +
    ((bus.setWidth 32 - entry.sbus.setWidth 32) <<< 20 ||| device.setWidth 32 <<< 15 |||
      function.setWidth 32 <<< 12).signExtend 64

/-- The address that `pci_read_*` and `pci_write_*` use; `none` where `get_entry`
returns NULL. -/
def accessAddr (mcfg : Mcfg) (dev : PciDevice) (offset : BitVec 16) : Option (BitVec 64) :=
  (getEntry mcfg dev.segment (dev.bus.setWidth 8)).map fun entry =>
    getDeviceAddr entry (dev.bus.setWidth 8) dev.device dev.function + offset.setWidth 64

def pciRead32 (mcfg : Mcfg) (space : Space) (dev : PciDevice) (offset : BitVec 16) : Option (BitVec 32) :=
  (accessAddr mcfg dev offset).map (read32 space)

/-- The bytes of a value stored from an address on, the lowest first. -/
def store (space : Space) (adr : BitVec 64) (bytes : Nat) (data : BitVec 32) : Space := fun place =>
  if (place - adr).toNat < bytes then (data >>> (8 * (place - adr).toNat)).setWidth 8 else space place

def pciWrite32 (mcfg : Mcfg) (space : Space) (dev : PciDevice) (offset : BitVec 16) (data : BitVec 32) :
    Option Space :=
  (accessAddr mcfg dev offset).map fun adr => store space adr 4 data

/-! ### What the scan records -/

theorem mem_foldl_iff {State Turn Item : Type} (items : State → List Item) {turn : State → Turn → State}
    (adds : Turn → Item → Prop)
    (one : ∀ state i item, item ∈ items (turn state i) ↔ item ∈ items state ∨ adds i item)
    (turns : List Turn) (state : State) (item : Item) :
    item ∈ items (turns.foldl turn state) ↔ item ∈ items state ∨ ∃ i ∈ turns, adds i item := by
  induction turns generalizing state with
  | nil => simp
  | cons i turns ih =>
    grind

/-- The address of a function's header in the window a bus is scanned in. -/
def functionAddr (busAddress : BitVec 64) (device function : BitVec 8) : BitVec 64 :=
  busAddress + device.setWidth 64 <<< 15 + function.setWidth 64 <<< 12

/-- A function that the scan of a bus gets to: the bus's own first header, the
device and the function answer, and the device is no bridge. -/
structure Answers (space : Space) (busAddress : BitVec 64) (device function : Nat) : Prop where
  bus : ¬(headerAt space busAddress).Absent
  deviceBound : device < 32
  deviceAnswers : ¬(headerAt space (busAddress + (BitVec.ofNat 8 device).setWidth 64 <<< 15)).Absent
  plain : (headerAt space (busAddress + (BitVec.ofNat 8 device).setWidth 64 <<< 15)).headerType &&& 0b1111111 = 0
  functionBound :
    function < (headerAt space (busAddress + (BitVec.ofNat 8 device).setWidth 64 <<< 15)).functions
  functionAnswers : ¬(headerAt space (functionAddr busAddress (.ofNat 8 device) (.ofNat 8 function))).Absent

/-- The record of a function. -/
def foundAt (space : Space) (busAddress bus : BitVec 64) (device function : BitVec 8) : Found :=
  ⟨⟨headerAt space (functionAddr busAddress device function), 0, bus.setWidth 32, device, function⟩,
    functionAddr busAddress device function⟩

theorem mem_pciEnumerateFn_iff (space : Space) (busAddress bus : BitVec 64) (device function : BitVec 8)
    (pciDevices : List Found) (found : Found) :
    found ∈ pciEnumerateFn space (busAddress + device.setWidth 64 <<< 15) bus device function pciDevices ↔
      found ∈ pciDevices ∨ ¬(headerAt space (functionAddr busAddress device function)).Absent ∧
        found = foundAt space busAddress bus device function := by
  rw [pciEnumerateFn, ← functionAddr]
  split <;> simp_all [foundAt]

theorem mem_pciEnumerateDev_iff (space : Space) (busAddress bus : BitVec 64) (device : BitVec 8)
    (pciDevices : List Found) (found : Found) :
    found ∈ pciEnumerateDev space busAddress bus device pciDevices ↔
      found ∈ pciDevices ∨ ¬(headerAt space (busAddress + device.setWidth 64 <<< 15)).Absent ∧
        (headerAt space (busAddress + device.setWidth 64 <<< 15)).headerType &&& 0b1111111 = 0 ∧
        ∃ function < (headerAt space (busAddress + device.setWidth 64 <<< 15)).functions,
          ¬(headerAt space (functionAddr busAddress device (.ofNat 8 function))).Absent ∧
          found = foundAt space busAddress bus device (.ofNat 8 function) := by
  rw [pciEnumerateDev]
  split
  next absent => simp [absent]
  next present =>
    split
    next bridge => exact ⟨.inl, fun h => h.resolve_right fun ⟨_, plain, _⟩ => bridge plain⟩
    next plain =>
      refine (mem_foldl_iff id _ (fun pciDevices function item => mem_pciEnumerateFn_iff space busAddress bus device
        (.ofNat 8 function) pciDevices item) _ _ _).trans ?_
      simp_all

theorem mem_pciEnumerateBus_iff (space : Space) (baseAddress bus : BitVec 64) (e : Enumeration) (found : Found) :
    found ∈ (pciEnumerateBus space baseAddress bus e).pciDevices ↔ found ∈ e.pciDevices ∨
      ∃ device function, Answers space (baseAddress + bus <<< 20) device function ∧
        found = foundAt space (baseAddress + bus <<< 20) bus (.ofNat 8 device) (.ofNat 8 function) := by
  rw [pciEnumerateBus]
  split
  next absent => exact ⟨.inl, fun h => h.resolve_right fun ⟨_, _, answers, _⟩ => answers.bus absent⟩
  next present =>
    refine (mem_foldl_iff id _ (fun pciDevices device item => mem_pciEnumerateDev_iff space (baseAddress + bus <<< 20)
      bus (.ofNat 8 device) pciDevices item) _ _ _).trans (or_congr_right ⟨?_, ?_⟩)
    · rintro ⟨device, bound, answers, plain, function, below, answered, rfl⟩
      exact ⟨device, function, ⟨present, List.mem_range.mp bound, answers, plain, below, answered⟩, rfl⟩
    · rintro ⟨device, function, ⟨_, bound, answers, plain, below, answered⟩, rfl⟩
      grind

/-- A bus of an entry that the scan gets to. -/
def McfgEntry.Visits (entry : McfgEntry) (bus : Nat) : Prop := entry.sbus.toNat ≤ bus ∧ bus < entry.ebus.toNat

/-- The address at which an entry's bus is scanned. -/
def McfgEntry.busAddr (entry : McfgEntry) (bus : Nat) : BitVec 64 :=
  entry.baseAddress + physMemOffset + BitVec.ofNat 64 bus <<< 20

theorem mem_buses_iff (entry : McfgEntry) (bus : Nat) :
    bus ∈ List.range' entry.sbus.toNat (entry.ebus.toNat - entry.sbus.toNat) ↔ entry.Visits bus := by
  rw [List.mem_range'_1, McfgEntry.Visits]
  omega

theorem mem_enumerateEntry_iff (space : Space) (entry : McfgEntry) (e : Enumeration) (found : Found) :
    found ∈ (enumerateEntry space entry e).pciDevices ↔ found ∈ e.pciDevices ∨
      ∃ bus, entry.Visits bus ∧ ∃ device function, Answers space (entry.busAddr bus) device function ∧
        found = foundAt space (entry.busAddr bus) (.ofNat 64 bus) (.ofNat 8 device) (.ofNat 8 function) := by
  rw [enumerateEntry, mem_foldl_iff Enumeration.pciDevices _ fun e bus item =>
    mem_pciEnumerateBus_iff space (entry.baseAddress + physMemOffset) (.ofNat 64 bus) e item]
  simp only [mem_buses_iff, McfgEntry.busAddr]

theorem mem_scanned_enumerateEntry_iff (space : Space) (entry : McfgEntry) (e : Enumeration)
    (call : BitVec 64 × BitVec 64) :
    call ∈ (enumerateEntry space entry e).scanned ↔ call ∈ e.scanned ∨
      ∃ bus, entry.Visits bus ∧ call = (entry.baseAddress + physMemOffset, .ofNat 64 bus) := by
  have one (e : Enumeration) (bus : Nat) (call : BitVec 64 × BitVec 64) :
      call ∈ (pciEnumerateBus space (entry.baseAddress + physMemOffset) (.ofNat 64 bus) e).scanned ↔
        call ∈ e.scanned ∨ call = (entry.baseAddress + physMemOffset, .ofNat 64 bus) := by
    simp [pciEnumerateBus]
  rw [enumerateEntry, mem_foldl_iff Enumeration.scanned _ one]
  simp only [mem_buses_iff]

theorem mem_pciEnumerate_iff (space : Space) (mcfg : Mcfg) (found : Found) :
    found ∈ (pciEnumerate space (some mcfg)).2.pciDevices ↔
      ∃ t < mcfg.count, ∃ bus, (mcfg.entries t).Visits bus ∧
        ∃ device function, Answers space ((mcfg.entries t).busAddr bus) device function ∧
          found = foundAt space ((mcfg.entries t).busAddr bus) (.ofNat 64 bus) (.ofNat 8 device) (.ofNat 8 function) := by
  rw [pciEnumerate, mem_foldl_iff Enumeration.pciDevices _ fun e t item =>
    mem_enumerateEntry_iff space (mcfg.entries t) e item]
  simp only [List.not_mem_nil, false_or, List.mem_range]

theorem mem_scanned_iff (space : Space) (mcfg : Mcfg) (call : BitVec 64 × BitVec 64) :
    call ∈ (pciEnumerate space (some mcfg)).2.scanned ↔
      ∃ t < mcfg.count, ∃ bus, (mcfg.entries t).Visits bus ∧
        call = ((mcfg.entries t).baseAddress + physMemOffset, .ofNat 64 bus) := by
  rw [pciEnumerate, mem_foldl_iff Enumeration.scanned _ fun e t item =>
    mem_scanned_enumerateEntry_iff space (mcfg.entries t) e item]
  simp only [List.not_mem_nil, false_or, List.mem_range]

/-! ### Scan and access -/

/-- `pci_enumerate_bus` is called for every bus of every entry. -/
def ScansEveryBus (mcfg : Mcfg) (e : Enumeration) : Prop :=
  ∀ t < mcfg.count, ∀ bus, (mcfg.entries t).sbus.toNat ≤ bus → bus ≤ (mcfg.entries t).ebus.toNat →
    ((mcfg.entries t).baseAddress + physMemOffset, BitVec.ofNat 64 bus) ∈ e.scanned

/-- The accessors reach a recorded function where its header was read. -/
def AccessAgrees (mcfg : Mcfg) (e : Enumeration) : Prop :=
  ∀ found ∈ e.pciDevices, ∀ offset,
    accessAddr mcfg found.dev offset = some (found.readAt + offset.setWidth 64)

/-- Segment 0 has an entry for the bus, and the window at which the bus is scanned
is that entry's own. -/
def SameWindow (mcfg : Mcfg) (entry : McfgEntry) (bus : Nat) : Prop :=
  ∃ owner, getEntry mcfg 0 (.ofNat 8 bus) = some owner ∧
    owner.baseAddress = entry.baseAddress + owner.sbus.setWidth 64 <<< 20

theorem getEntry_covers {mcfg : Mcfg} {segment : BitVec 16} (found : getEntry mcfg segment bus = some entry) :
    entry.sbus ≤ bus := by
  obtain ⟨i, located, rfl⟩ := Option.map_eq_some_iff.mp found
  simp_all

theorem offset_or {k device function : Nat} (dev : device < 32) (fn : function < 8) :
    (k <<< 20 ||| device <<< 15 ||| function <<< 12) = k * 2 ^ 20 + (device * 2 ^ 15 + function * 2 ^ 12) := by
  have inner : device <<< 15 ||| function <<< 12 = device <<< 15 + function <<< 12 :=
    (Nat.shiftLeft_add_eq_or_of_lt (by rw [Nat.shiftLeft_eq]; omega) device).symm
  rw [Nat.or_assoc, inner, ← Nat.shiftLeft_add_eq_or_of_lt (by simp only [Nat.shiftLeft_eq]; omega)]
  simp only [Nat.shiftLeft_eq]

theorem ofNat_shiftLeft (width n places : Nat) :
    BitVec.ofNat width n <<< places = BitVec.ofNat width (n <<< places) := by
  apply BitVec.eq_of_toNat_eq
  simp [Nat.shiftLeft_eq]

theorem setWidth_ofNat {n small large : Nat} (fits : n < 2 ^ small) :
    (BitVec.ofNat small n).setWidth large = .ofNat large n := by
  grind [BitVec.toNat_ofNat]

theorem getDeviceAddr_eq (entry : McfgEntry) (first : entry.sbus.toNat ≤ bus) (small : bus < 256)
    (dev : device < 32) (fn : function < 8) :
    getDeviceAddr entry (.ofNat 8 bus) (.ofNat 8 device) (.ofNat 8 function) =
      entry.baseAddress + physMemOffset +
        .ofNat 64 ((bus - entry.sbus.toNat) * 2 ^ 20 + (device * 2 ^ 15 + function * 2 ^ 12)) := by
  have behind : BitVec.ofNat 32 bus - entry.sbus.setWidth 32 = .ofNat 32 (bus - entry.sbus.toNat) := by
    apply BitVec.eq_of_toNat_eq
    grind
  rw [getDeviceAddr, setWidth_ofNat small, setWidth_ofNat (show device < 2 ^ 8 by omega),
    setWidth_ofNat (show function < 2 ^ 8 by omega), behind, ofNat_shiftLeft, ofNat_shiftLeft, ofNat_shiftLeft,
    ← BitVec.ofNat_or, ← BitVec.ofNat_or, offset_or dev fn]
  grind [BitVec.signExtend_eq_setWidth_of_msb_false]

theorem functionAddr_eq (entry : McfgEntry) (bus : Nat) (dev : device < 32) (fn : function < 8) :
    functionAddr (entry.busAddr bus) (.ofNat 8 device) (.ofNat 8 function) =
      entry.baseAddress + physMemOffset +
        .ofNat 64 (bus * 2 ^ 20 + (device * 2 ^ 15 + function * 2 ^ 12)) := by
  grind [functionAddr, McfgEntry.busAddr, setWidth_ofNat, ofNat_shiftLeft, Nat.shiftLeft_eq, BitVec.ofNat_add]

theorem same_addr_iff (base base' : BitVec 64) (first : sbus ≤ bus) (inner : Nat) :
    base' + physMemOffset + .ofNat 64 ((bus - sbus) * 2 ^ 20 + inner) =
        base + physMemOffset + .ofNat 64 (bus * 2 ^ 20 + inner) ↔
      base' = base + .ofNat 64 (sbus * 2 ^ 20) := by
  have whole : bus * 2 ^ 20 + inner = sbus * 2 ^ 20 + ((bus - sbus) * 2 ^ 20 + inner) := by
    omega
  grind [BitVec.ofNat_add]

theorem functions_le (header : PciHeader) : header.functions ≤ 8 := by
  rw [PciHeader.functions]
  split <;> decide

theorem access_agrees_iff {space : Space} (mcfg : Mcfg) (entry : McfgEntry) (visits : entry.Visits bus)
    (answers : Answers space (entry.busAddr bus) device function) :
    (∀ offset, accessAddr mcfg (foundAt space (entry.busAddr bus) (.ofNat 64 bus) (.ofNat 8 device)
        (.ofNat 8 function)).dev offset =
      some ((foundAt space (entry.busAddr bus) (.ofNat 64 bus) (.ofNat 8 device) (.ofNat 8 function)).readAt +
        offset.setWidth 64)) ↔ SameWindow mcfg entry bus := by
  have small : bus < 256 := Nat.lt_trans visits.2 entry.ebus.isLt
  have fn : function < 8 := Nat.lt_of_lt_of_le answers.functionBound (functions_le _)
  have narrow : ((BitVec.ofNat 64 bus).setWidth 32).setWidth 8 = .ofNat 8 bus := by
    simp
  simp only [accessAddr, foundAt, narrow, SameWindow, Option.map_eq_some_iff, BitVec.add_left_inj, forall_const]
  refine exists_congr fun owner => and_congr_right fun located => ?_
  have covers : owner.sbus.toNat ≤ bus := by
    have covers := BitVec.le_def.mp (getEntry_covers located)
    grind
  rw [getDeviceAddr_eq owner covers small answers.deviceBound fn, functionAddr_eq entry bus answers.deviceBound fn,
    same_addr_iff _ _ covers, ← BitVec.ofNat_toNat, ofNat_shiftLeft, Nat.shiftLeft_eq]

theorem scansEveryBus_iff (space : Space) (mcfg : Mcfg)
    (ordered : ∀ t < mcfg.count, (mcfg.entries t).sbus ≤ (mcfg.entries t).ebus) :
    ScansEveryBus mcfg (pciEnumerate space (some mcfg)).2 ↔ mcfg.count = 0 := by
  constructor
  · intro scans
    by_contra some
    obtain ⟨last, below, latest⟩ := Finset.exists_max_image (Finset.range mcfg.count)
      (fun t => (mcfg.entries t).ebus.toNat) (Finset.nonempty_range_iff.mpr some)
    rw [Finset.mem_range] at below
    obtain ⟨t, inside, bus, visits, same⟩ := (mem_scanned_iff _ _ _).mp (scans last below _ (ordered last below) le_rfl)
    have bound := (mcfg.entries last).ebus.isLt
    have equal : (mcfg.entries last).ebus.toNat = bus := by
      have equal := congrArg (fun call => call.2.toNat) same
      have := (mcfg.entries t).ebus.isLt
      have := visits.2
      grind
    exact Nat.not_lt.mpr (latest t (Finset.mem_range.mpr inside)) (equal ▸ visits.2)
  · intro empty t below
    omega

theorem accessAgrees_iff (space : Space) (mcfg : Mcfg) :
    AccessAgrees mcfg (pciEnumerate space (some mcfg)).2 ↔
      ∀ t < mcfg.count, ∀ bus, (mcfg.entries t).Visits bus →
        (∃ device function, Answers space ((mcfg.entries t).busAddr bus) device function) →
        SameWindow mcfg (mcfg.entries t) bus := by
  constructor
  · rintro agrees t below bus visits ⟨device, function, answers⟩
    refine (access_agrees_iff mcfg _ visits answers).mp (agrees _ ?_)
    grind [mem_pciEnumerate_iff]
  · intro windows found recorded
    grind [mem_pciEnumerate_iff, access_agrees_iff]

/-- Every bus is scanned and every recorded function is accessed where it was read
only if the table is empty. The accesses alone agree exactly if each bus that
answers is scanned in the window of the entry that segment 0 has for it. -/
theorem scan_matches_access_iff (space : Space) (mcfg : Mcfg)
    (ordered : ∀ t < mcfg.count, (mcfg.entries t).sbus ≤ (mcfg.entries t).ebus) :
    (ScansEveryBus mcfg (pciEnumerate space (some mcfg)).2 ∧ AccessAgrees mcfg (pciEnumerate space (some mcfg)).2 ↔
      mcfg.count = 0) ∧
    (AccessAgrees mcfg (pciEnumerate space (some mcfg)).2 ↔
      ∀ t < mcfg.count, ∀ bus, (mcfg.entries t).Visits bus →
        (∃ device function, Answers space ((mcfg.entries t).busAddr bus) device function) →
        SameWindow mcfg (mcfg.entries t) bus) := by
  refine ⟨?_, accessAgrees_iff space mcfg⟩
  rw [scansEveryBus_iff space mcfg ordered]
  refine and_iff_left_of_imp fun empty => (accessAgrees_iff space mcfg).mpr fun t below => ?_
  omega

/-- One entry, whose window starts at bus 1. -/
def lateTable : Mcfg where
  length := 60
  entries _ := ⟨0xb0000000, 0, 1, 2⟩

/-- One function with device id 0x1234, on bus 1. -/
def lateSpace : Space := fun adr =>
  if adr = 0xb0100000 + physMemOffset + 2 then 0x34
  else if adr = 0xb0100000 + physMemOffset + 3 then 0x12
  else 0

theorem lateTable_not_matched :
    (ScansEveryBus lateTable (pciEnumerate lateSpace (some lateTable)).2 ∧
        AccessAgrees lateTable (pciEnumerate lateSpace (some lateTable)).2 ↔ lateTable.count = 0) ∧
      lateTable.count ≠ 0 :=
  ⟨(scan_matches_access_iff lateSpace lateTable fun _ _ => show 1#8 ≤ 2#8 by decide).1, by decide⟩

/-- Bus 2 of the entry is not scanned, and the function found on bus 1 is accessed a
bus below where it was read. -/
theorem lateTable_missed :
    (0xb0000000 + physMemOffset, 2#64) ∉ (pciEnumerate lateSpace (some lateTable)).2.scanned ∧
      (pciEnumerate lateSpace (some lateTable)).2.pciDevices.map (fun found =>
          (found.readAt, accessAddr lateTable found.dev 0)) =
        [(0xb0100000 + physMemOffset, some (0xb0000000 + physMemOffset))] := by
  decide +kernel

end MandelbrotOS.Pci
