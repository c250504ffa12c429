import Mathlib.Data.BitVec
import Mathlib.Data.List.Pairwise
import Mathlib.Logic.Function.Basic

/-! Routing of interrupts, `drivers/apic.c`, with the overrides and the I/O APICs that
the MADT lists. An I/O APIC answers at its physical address, and its registers are
reached through a window that shows the one selected last. The test for the range of
an I/O APIC leaves out its last entry; an override is programmed, and then the entry
of the IRQ's own number is programmed without flags as well; and a level trigger goes
to bit 5, which is one of the vector's. -/
namespace MandelbrotOS.IoApic

/-! ### The code -/

/-- The fields of `madt_ioapic_t` that are read. -/
structure MadtIoapic where
  address : BitVec 32
  gsi : BitVec 32
  deriving DecidableEq

/-- The fields of `madt_iso_t` that are read. -/
structure MadtIso where
  irqSource : BitVec 8
  gsi : BitVec 32
  flags : BitVec 16
  deriving DecidableEq

/-- The selected register and all registers of the I/O APIC at each address. -/
structure Chips where
  selected : BitVec 32 → BitVec 32
  regs : BitVec 32 → BitVec 32 → BitVec 32

/-- The I/O APICs, and the registers written so far: an address and a number each. -/
structure Session where
  chips : Chips
  written : List (BitVec 32 × BitVec 32) := []

def ioapicRead (s : Session) (addr reg : BitVec 32) : BitVec 32 × Session :=
  (s.chips.regs addr reg, { s with chips := { s.chips with selected := Function.update s.chips.selected addr reg } })

def ioapicWrite (s : Session) (addr reg data : BitVec 32) : Session where
  chips :=
    { selected := Function.update s.chips.selected addr reg
      regs := Function.update s.chips.regs addr (Function.update (s.chips.regs addr) reg data) }
  written := s.written ++ [(addr, reg)]

def ioapicRegVer : BitVec 32 := 1#32

def ioapicGetGsiCount (s : Session) (addr : BitVec 32) : BitVec 32 × Session :=
  let (version, s) := ioapicRead s addr ioapicRegVer
  ((version &&& 0xff0000) >>> 16, s)

/-- `get_ioapic_by_gsi` over the rest of `madt_ioapics`. -/
def getIoapicByGsi (gsi : BitVec 32) : List MadtIoapic → Session → Option MadtIoapic × Session
  | [], s => (none, s)
  | ioapic :: rest, s =>
    if ioapic.gsi ≤ gsi then
      let (count, s) := ioapicGetGsiCount s ioapic.address
      if ioapic.gsi + count > gsi then (some ioapic, s) else getIoapicByGsi gsi rest s
    else getIoapicByGsi gsi rest s

/-- `redirect`. -/
def redirection (lapicId vect : BitVec 8) (flags : BitVec 64) (status : Bool) : BitVec 64 :=
  vect.setWidth 64 ||| (if flags &&& 1#64 <<< 1 ≠ 0#64 then 1#64 <<< 13 else 0#64) |||
    (if flags &&& 1#64 <<< 3 ≠ 0#64 then 1#64 <<< 5 else 0#64) ||| (if status then 0#64 else 1#64 <<< 16) |||
    lapicId.setWidth 64 <<< 56

/-- `ioredtbl`, for an entry of an I/O APIC. -/
def ioredtbl (ioapic : MadtIoapic) (gsi : BitVec 32) : BitVec 32 := (gsi - ioapic.gsi) * 2#32 + 16#32

/-- `ioapic_redirect_gsi`; `none` where no I/O APIC was found and `NULL` is used. -/
def ioapicRedirectGsi (ioapics : List MadtIoapic) (lapicId : BitVec 8) (gsi : BitVec 32) (vect : BitVec 8)
    (flags : BitVec 64) (status : Bool) (s : Session) : Option Session :=
  let (found, s) := getIoapicByGsi gsi ioapics s
  found.map fun ioapic =>
    let redirect := redirection lapicId vect flags status
    let s := ioapicWrite s ioapic.address (ioredtbl ioapic gsi) (redirect.setWidth 32)
    ioapicWrite s ioapic.address (ioredtbl ioapic gsi + 1#32) ((redirect >>> 32).setWidth 32)

def ioapicRedirectIrq (isos : List MadtIso) (ioapics : List MadtIoapic) (lapicId irq vect : BitVec 8)
    (status : Bool) (chips : Chips) : Option Session :=
  (isos.foldlM (fun s iso =>
    if iso.irqSource = irq then
      ioapicRedirectGsi ioapics lapicId iso.gsi vect (iso.flags.setWidth 64) status s
    else some s) { chips := chips }).bind
  (ioapicRedirectGsi ioapics lapicId (irq.setWidth 32) vect 0 status)

/-! ### What is asked of it -/

/-- The index of an I/O APIC's highest entry, from bits 16 to 23 of its version. -/
def highest (chips : Chips) (ioapic : MadtIoapic) : Nat :=
  (chips.regs ioapic.address ioapicRegVer).toNat / 2 ^ 16 % 2 ^ 8

/-- The interrupts of an I/O APIC: from its base on, one for each of its entries. -/
def Serves (chips : Chips) (ioapic : MadtIoapic) (gsi : Nat) : Prop :=
  ioapic.gsi.toNat ≤ gsi ∧ gsi ≤ ioapic.gsi.toNat + highest chips ioapic

/-- The ranges of the I/O APICs are disjoint. -/
def Apart (chips : Chips) (ioapics : List MadtIoapic) : Prop :=
  ioapics.Pairwise fun one two => ∀ g, ¬ (Serves chips one g ∧ Serves chips two g)

/-- The override of an IRQ. -/
def override (isos : List MadtIso) (irq : BitVec 8) : Option MadtIso := isos.find? fun iso => iso.irqSource = irq

def targetGsi (isos : List MadtIso) (irq : BitVec 8) : BitVec 32 :=
  match override isos irq with
  | some iso => iso.gsi
  | none => irq.setWidth 32

def targetFlags (isos : List MadtIso) (irq : BitVec 8) : BitVec 16 :=
  match override isos irq with
  | some iso => iso.flags
  | none => 0

/-- Of an I/O APIC's registers those of one entry were written and no others, and the
entry has a polarity and a trigger mode as the flags say. -/
structure Programs (ioapic : MadtIoapic) (gsi : BitVec 32) (flags : BitVec 16) (after : Session) : Prop where
  entry : ∀ place, place ∈ after.written ↔
    place = (ioapic.address, ioredtbl ioapic gsi) ∨ place = (ioapic.address, ioredtbl ioapic gsi + 1#32)
  polarity : (after.chips.regs ioapic.address (ioredtbl ioapic gsi)).getLsbD 13 = flags.getLsbD 1
  trigger : (after.chips.regs ioapic.address (ioredtbl ioapic gsi)).getLsbD 15 = flags.getLsbD 3

/-- The interrupts that the search attributes to an I/O APIC: not the last one, and none
if the range goes past the highest 32-bit number. -/
def Finds (chips : Chips) (ioapic : MadtIoapic) (gsi : BitVec 32) : Prop :=
  ioapic.gsi.toNat ≤ gsi.toNat ∧ gsi.toNat < ioapic.gsi.toNat + highest chips ioapic ∧
    ioapic.gsi.toNat + highest chips ioapic < 2 ^ 32

instance (chips : Chips) (ioapic : MadtIoapic) (gsi : BitVec 32) : Decidable (Finds chips ioapic gsi) :=
  inferInstanceAs (Decidable (_ ∧ _))

/-- The entry that the IRQ's own number leads to is this one. With I/O APICs at different
addresses that means that the number is the same. -/
def SameEntry (chips : Chips) (ioapics : List MadtIoapic) (own : MadtIoapic) (gsi : BitVec 32) (irq : BitVec 8) :
    Prop :=
  ∃ other ∈ ioapics, Finds chips other (irq.setWidth 32) ∧ other.address = own.address ∧
    irq.setWidth 32 - other.gsi = gsi - own.gsi

/-! ### The search -/

theorem gsiCount_toNat (version : BitVec 32) :
    ((version &&& 0xff0000) >>> 16).toNat = version.toNat / 2 ^ 16 % 2 ^ 8 := by
  have moved : (version &&& 0xff0000) >>> 16 = version >>> 16 &&& 0xff := by
    rw [BitVec.ushiftRight_and_distrib]
    rfl
  rw [moved, BitVec.toNat_and, BitVec.toNat_ushiftRight, Nat.shiftRight_eq_div_pow]
  exact Nat.and_two_pow_sub_one_eq_mod _ 8

theorem finds_iff (chips : Chips) (ioapic : MadtIoapic) (gsi : BitVec 32) :
    Finds chips ioapic gsi ↔ ioapic.gsi ≤ gsi ∧
      ioapic.gsi + (chips.regs ioapic.address ioapicRegVer &&& 0xff0000) >>> 16 > gsi := by
  have first := ioapic.gsi.isLt
  have asked := gsi.isLt
  rw [Finds, highest, BitVec.le_def, gt_iff_lt, BitVec.lt_def, BitVec.toNat_add, gsiCount_toNat]
  omega

theorem getIoapicByGsi_eq (gsi : BitVec 32) (ioapics : List MadtIoapic) (s : Session) :
    ∃ after, getIoapicByGsi gsi ioapics s = (ioapics.find? fun ioapic => Finds s.chips ioapic gsi, after) ∧
      after.chips.regs = s.chips.regs ∧ after.written = s.written := by
  induction ioapics generalizing s with
  | nil => exact ⟨s, rfl, rfl, rfl⟩
  | cons ioapic rest ih =>
    have tests := finds_iff s.chips ioapic gsi
    rw [getIoapicByGsi]
    by_cases low : ioapic.gsi ≤ gsi
    · rw [if_pos low]
      by_cases high : ioapic.gsi + (s.chips.regs ioapic.address ioapicRegVer &&& 0xff0000) >>> 16 > gsi
      · rw [List.find?_cons_of_pos (by simpa using tests.mpr ⟨low, high⟩)]
        exact ⟨_, if_pos high, rfl, rfl⟩
      · rw [List.find?_cons_of_neg (by simpa using fun found => high (tests.mp found).2)]
        obtain ⟨after, ran, regs, written⟩ := ih (ioapicGetGsiCount s ioapic.address).2
        exact ⟨after, (if_neg high).trans ran, regs, written⟩
    · simp_all [if_neg]

/-- The registers with an entry programmed. -/
def setEntry (regs : BitVec 32 → BitVec 32 → BitVec 32) (ioapic : MadtIoapic) (gsi : BitVec 32)
    (redirect : BitVec 64) : BitVec 32 → BitVec 32 → BitVec 32 :=
  Function.update regs ioapic.address
    (Function.update (Function.update (regs ioapic.address) (ioredtbl ioapic gsi) (redirect.setWidth 32))
      (ioredtbl ioapic gsi + 1#32) ((redirect >>> 32).setWidth 32))

variable {ioapics : List MadtIoapic} {gsi : BitVec 32}

theorem redirect_returns (lapicId vect : BitVec 8) (flags : BitVec 64) (status : Bool) (s : Session)
    (member : own ∈ ioapics) (finds : Finds s.chips own gsi) :
    ∃ after, ioapicRedirectGsi ioapics lapicId gsi vect flags status s = some after := by
  obtain ⟨after, ran, -, -⟩ := getIoapicByGsi_eq gsi ioapics s
  have found : (ioapics.find? fun ioapic => Finds s.chips ioapic gsi).isSome :=
    List.find?_isSome.mpr ⟨own, member, by simpa using finds⟩
  simp_all [Option.isSome_iff_exists, ioapicRedirectGsi]

theorem redirect_cases {s : Session} (ran : ioapicRedirectGsi ioapics lapicId gsi vect flags status s = some after) :
    ∃ ioapic ∈ ioapics, Finds s.chips ioapic gsi ∧
      after.chips.regs = setEntry s.chips.regs ioapic gsi (redirection lapicId vect flags status) ∧
      after.written = s.written ++ [(ioapic.address, ioredtbl ioapic gsi), (ioapic.address, ioredtbl ioapic gsi + 1#32)] := by
  obtain ⟨middle, search, regs, written⟩ := getIoapicByGsi_eq gsi ioapics s
  rw [ioapicRedirectGsi, search] at ran
  obtain ⟨ioapic, found, rfl⟩ := Option.map_eq_some_iff.mp ran
  refine ⟨ioapic, List.mem_of_find?_eq_some found, by simpa using List.find?_some found, ?_, ?_⟩
  · simp_all [ioapicWrite, setEntry]
  · simp_all [ioapicWrite]

/-! ### One entry -/

theorem ioredtbl_toNat {chips : Chips} (finds : Finds chips ioapic gsi) :
    (ioredtbl ioapic gsi).toNat = (gsi.toNat - ioapic.gsi.toNat) * 2 + 16 ∧ (ioredtbl ioapic gsi).toNat < 1000 := by
  have small : highest chips ioapic < 2 ^ 8 := Nat.mod_lt _ (Nat.two_pow_pos 8)
  obtain ⟨low, high, -⟩ := finds
  have top := gsi.isLt
  grind [ioredtbl, BitVec.toNat_mul]

theorem highest_setEntry {chips : Chips} (finds : Finds chips ioapic gsi) (other : MadtIoapic)
    (same : chips'.regs = setEntry chips.regs ioapic gsi redirect) : highest chips' other = highest chips other := by
  obtain ⟨place, small⟩ := ioredtbl_toNat finds
  have first : ioapicRegVer ≠ ioredtbl ioapic gsi := by rw [ioapicRegVer]; bv_omega
  have second : ioapicRegVer ≠ ioredtbl ioapic gsi + 1#32 := by rw [ioapicRegVer]; bv_omega
  rw [highest, highest, same, setEntry]
  by_cases here : other.address = ioapic.address
  · simp_all
  · rw [Function.update_of_ne here]

theorem finds_setEntry {chips : Chips} (finds : Finds chips ioapic gsi) (other : MadtIoapic) (gsi' : BitVec 32)
    (same : chips'.regs = setEntry chips.regs ioapic gsi redirect) :
    Finds chips' other gsi' ↔ Finds chips other gsi' := by
  rw [Finds, Finds, highest_setEntry finds other same]

theorem redirection_getLsbD (lapicId vect : BitVec 8) (flags : BitVec 64) (status : Bool) (above : 8 ≤ i)
    (below : i < 32) :
    ((redirection lapicId vect flags status).setWidth 32).getLsbD i =
      ((if flags &&& 1#64 <<< 1 ≠ 0#64 then 1#64 <<< 13 else 0#64).getLsbD i ||
        (if flags &&& 1#64 <<< 3 ≠ 0#64 then 1#64 <<< 5 else 0#64).getLsbD i ||
        (if status then 0#64 else 1#64 <<< 16).getLsbD i) := by
  simp_all [redirection]

theorem redirection_polarity (lapicId vect : BitVec 8) (flags : BitVec 64) (status : Bool) :
    ((redirection lapicId vect flags status).setWidth 32).getLsbD 13 = flags.getLsbD 1 := by
  have bit : flags &&& 1#64 <<< 1 = if flags.getLsbD 1 then 1#64 <<< 1 else 0#64 := BitVec.and_twoPow flags 1
  grind [redirection_getLsbD]

theorem redirection_trigger (lapicId vect : BitVec 8) (flags : BitVec 64) (status : Bool) :
    ((redirection lapicId vect flags status).setWidth 32).getLsbD 15 = false := by
  grind [redirection_getLsbD]

theorem setEntry_low (regs : BitVec 32 → BitVec 32 → BitVec 32) (ioapic : MadtIoapic) (gsi : BitVec 32)
    (redirect : BitVec 64) :
    setEntry regs ioapic gsi redirect ioapic.address (ioredtbl ioapic gsi) = redirect.setWidth 32 := by
  simp [setEntry]

/-! ### The whole function -/

theorem Finds.serves {chips : Chips} (finds : Finds chips ioapic gsi) : Serves chips ioapic gsi.toNat :=
  ⟨finds.1, Nat.le_of_lt finds.2.1⟩

theorem server_unique {chips : Chips}
    (apart : Apart chips ioapics)
    (member : one ∈ ioapics) (member' : two ∈ ioapics) (serves : Serves chips one g) (serves' : Serves chips two g) :
    one = two := by
  have symmetric : Std.Symm fun one two => ∀ g, ¬ (Serves chips one g ∧ Serves chips two g) :=
    ⟨fun one two clash g both => clash g both.symm⟩
  by_contra different
  exact apart.forall member member' different g ⟨serves, serves'⟩

theorem foldlM_override (isos : List MadtIso) (irq : BitVec 8)
    (single : isos.Pairwise fun one two => one.irqSource ≠ two.irqSource) (apply : Session → MadtIso → Option Session)
    (s : Session) :
    isos.foldlM (fun s iso => if iso.irqSource = irq then apply s iso else some s) s =
      (override isos irq).elim (some s) (apply s) := by
  induction isos generalizing s with
  | nil => rfl
  | cons iso rest ih =>
    obtain ⟨others, single⟩ := List.pairwise_cons.mp single
    rw [List.foldlM_cons]
    by_cases own : iso.irqSource = irq
    · have none : override rest irq = none :=
        List.find?_eq_none.mpr fun other member => by simpa [← own, eq_comm] using others other member
      have here : override (iso :: rest) irq = some iso := List.find?_cons_of_pos (by simpa using own)
      simp_all
    · simp_all [override]

section
variable {chips : Chips} {lapicId irq vect : BitVec 8} {status : Bool}

theorem sub_eq_of_ioredtbl (finds : Finds chips own gsi) (finds' : Finds chips other gsi')
    (same : ioredtbl other gsi' = ioredtbl own gsi) : gsi' - other.gsi = gsi - own.gsi := by
  have place := (ioredtbl_toNat finds).1
  have place' := (ioredtbl_toNat finds').1
  apply BitVec.eq_of_toNat_eq
  rw [BitVec.toNat_sub_of_le finds.1, BitVec.toNat_sub_of_le finds'.1]
  rw [same] at place'
  omega

theorem ioredtbl_ne_succ (finds : Finds chips own gsi) (finds' : Finds chips other gsi') :
    ioredtbl other gsi' ≠ ioredtbl own gsi + 1#32 := by
  grind [ioredtbl_toNat]

theorem routes_plain_iff (apart : Apart chips ioapics) (member : own ∈ ioapics) (serves : Serves chips own gsi.toNat) :
    (∃ after, ioapicRedirectGsi ioapics lapicId gsi vect 0 status { chips := chips } = some after ∧
      Programs own gsi 0 after) ↔ Finds chips own gsi := by
  constructor
  · rintro ⟨after, ran, -⟩
    obtain ⟨ioapic, inside, finds, -⟩ := redirect_cases ran
    rwa [← server_unique apart inside member finds.serves serves]
  · intro finds
    obtain ⟨after, ran⟩ := redirect_returns lapicId vect 0 status { chips := chips } member finds
    obtain ⟨ioapic, inside, finds', regs, written⟩ := redirect_cases ran
    obtain rfl := server_unique apart inside member finds'.serves serves
    refine ⟨after, ran, by simp [written], ?_, ?_⟩
    · rw [regs, setEntry_low, redirection_polarity]
      rfl
    · rw [regs, setEntry_low, redirection_trigger]
      rfl

theorem routes_override_iff {iso : MadtIso} (apart : Apart chips ioapics) (member : own ∈ ioapics)
    (serves : Serves chips own iso.gsi.toNat) :
    (∃ after, (ioapicRedirectGsi ioapics lapicId iso.gsi vect (iso.flags.setWidth 64) status { chips := chips }).bind
        (ioapicRedirectGsi ioapics lapicId (irq.setWidth 32) vect 0 status) = some after ∧
      Programs own iso.gsi iso.flags after) ↔
      Finds chips own iso.gsi ∧ SameEntry chips ioapics own iso.gsi irq ∧
        iso.flags.getLsbD 1 = false ∧ iso.flags.getLsbD 3 = false := by
  constructor
  · rintro ⟨after, ran, entry, polarity, trigger⟩
    obtain ⟨first, ran, ran'⟩ := Option.bind_eq_some_iff.mp ran
    obtain ⟨ioapic, inside, finds, regs, written⟩ := redirect_cases ran
    obtain rfl := server_unique apart inside member finds.serves serves
    obtain ⟨other, inside', found, regs', written'⟩ := redirect_cases ran'
    have found := (finds_setEntry finds other _ regs).mp found
    have second : (other.address, ioredtbl other (irq.setWidth 32)) ∈ after.written := by simp [written']
    rcases (entry _).mp second with place | place
    · obtain ⟨address, same⟩ := Prod.mk.inj place
      rw [regs', ← address, ← same, setEntry_low] at polarity trigger
      rw [redirection_polarity] at polarity
      rw [redirection_trigger] at trigger
      exact ⟨finds, ⟨other, inside', found, address, sub_eq_of_ioredtbl finds found same⟩, polarity.symm, trigger.symm⟩
    · grind [ioredtbl_ne_succ]
  · rintro ⟨finds, ⟨other, inside, found, address, difference⟩, polarity, trigger⟩
    obtain ⟨first, ran⟩ := redirect_returns lapicId vect (iso.flags.setWidth 64) status { chips := chips } member finds
    obtain ⟨ioapic, inside', finds', regs, written⟩ := redirect_cases ran
    obtain rfl := server_unique apart inside' member finds'.serves serves
    -- The versions are what they were, so the second search goes by the same ranges.
    obtain ⟨after, ran'⟩ := redirect_returns lapicId vect 0 status first inside ((finds_setEntry finds other _ regs).mpr found)
    obtain ⟨again, inside'', found', regs', written'⟩ := redirect_cases ran'
    have found' := (finds_setEntry finds again _ regs).mp found'
    obtain rfl := server_unique apart inside'' inside found'.serves found.serves
    have same : ioredtbl again (irq.setWidth 32) = ioredtbl ioapic iso.gsi := by rw [ioredtbl, ioredtbl, difference]
    refine ⟨after, Option.bind_eq_some_iff.mpr ⟨first, ran, ran'⟩, fun place => ?_, ?_, ?_⟩
    · grind
    · rw [regs', ← address, ← same, setEntry_low, redirection_polarity, polarity]
      rfl
    · rw [regs', ← address, ← same, setEntry_low, redirection_trigger, trigger]

/-- **Routing** an IRQ whose interrupt some I/O APIC serves: its entry is programmed,
and nothing else, exactly when it is not the I/O APIC's last one, the IRQ's own number
leads to it too, and no flag is set. -/
theorem routes_exactly_iff {isos : List MadtIso}
    (single : isos.Pairwise fun one two => one.irqSource ≠ two.irqSource)
    (apart : Apart chips ioapics)
    (member : own ∈ ioapics) (serves : Serves chips own (targetGsi isos irq).toNat) :
    (∃ after, ioapicRedirectIrq isos ioapics lapicId irq vect status chips = some after ∧
      Programs own (targetGsi isos irq) (targetFlags isos irq) after) ↔
      Finds chips own (targetGsi isos irq) ∧ SameEntry chips ioapics own (targetGsi isos irq) irq ∧
        (targetFlags isos irq).getLsbD 1 = false ∧ (targetFlags isos irq).getLsbD 3 = false := by
  rw [targetGsi] at serves
  rw [ioapicRedirectIrq, foldlM_override isos irq single (fun s iso =>
    ioapicRedirectGsi ioapics lapicId iso.gsi vect (iso.flags.setWidth 64) status s), targetGsi, targetFlags]
  cases overridden : override isos irq with
  | none =>
    rw [overridden] at serves
    refine (routes_plain_iff apart member serves).trans ⟨fun finds => ?_, fun all => all.1⟩
    exact ⟨finds, ⟨own, member, finds, rfl, rfl⟩, rfl, rfl⟩
  | some iso =>
    rw [overridden] at serves
    exact routes_override_iff apart member serves

end

/-- A PC's I/O APIC, with 24 entries. -/
def pcIoapic : MadtIoapic := ⟨0xfec00000, 0⟩

def pcChips : Chips := ⟨fun _ => 0, fun _ reg => if reg = ioapicRegVer then 0x170020 else 0⟩

/-- The timer's IRQ 0 comes in as interrupt 2. -/
def pcIsos : List MadtIso := [⟨0, 2, 0⟩]

theorem override_routed :
    ∃ after, ioapicRedirectIrq [⟨9, 9, 0⟩] [pcIoapic] 0 9 41 true pcChips = some after ∧ Programs pcIoapic 9 0 after :=
  (routes_exactly_iff (by decide) (List.pairwise_singleton _ _) List.mem_cons_self ⟨by decide, by decide⟩).mpr
    ⟨by decide, ⟨pcIoapic, List.mem_cons_self, by decide, rfl, rfl⟩, rfl, rfl⟩

/-- For the timer both entries 2 and 0 are programmed. -/
theorem timer_routed_twice :
    (ioapicRedirectIrq pcIsos [pcIoapic] 0 0 32 true pcChips).map Session.written =
        some [(0xfec00000, 20), (0xfec00000, 21), (0xfec00000, 16), (0xfec00000, 17)] ∧
      Serves pcChips pcIoapic (targetGsi pcIsos 0).toNat ∧
      ¬ ∃ after, ioapicRedirectIrq pcIsos [pcIoapic] 0 0 32 true pcChips = some after ∧
        Programs pcIoapic (targetGsi pcIsos 0) (targetFlags pcIsos 0) after := by
  have both : (ioapicRedirectIrq pcIsos [pcIoapic] 0 0 32 true pcChips).map Session.written =
      some [(0xfec00000, 20), (0xfec00000, 21), (0xfec00000, 16), (0xfec00000, 17)] := by decide
  refine ⟨both, ⟨by decide, by decide⟩, ?_⟩
  rintro ⟨after, ran, programs⟩
  rw [ran, Option.map_some, Option.some.injEq] at both
  have extra := (programs.entry (0xfec00000, 16)).mp (by rw [both]; decide)
  exact absurd extra (by decide)

end MandelbrotOS.IoApic
