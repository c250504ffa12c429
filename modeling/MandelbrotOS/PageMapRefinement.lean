import MandelbrotOS.PmmSupply
import MandelbrotOS.Runs

/-! One pagemap refines a finite map from pages to physical pages. The calls
are `vmm_map_page`, `vmm_unmap_page` and `vmm_virt_to_phys` on its top level,
in any order; the map is updated by the first two and read by the third. -/
namespace MandelbrotOS.PageMapRefinement
open ByteMemory Forests Runs Pmm Vmm PageTables PmmSupply

inductive Call where
  | map (physicalAddress virtualAddress flags : BitVec 64)
  | unmap (virtualAddress : BitVec 64)
  | virtToPhys (virtualAddress : BitVec 64)

/-- Physical addresses are page-aligned; flags are below 0x1000 and present. -/
def Call.Valid : Call → Prop
  | .map physicalAddress _ flags =>
    physicalAddress &&& 0xfff = 0 ∧ flags < 0x1000 ∧ isPresent flags = true
  | .unmap _ => True
  | .virtToPhys _ => True

instance : (call : Call) → Decidable call.Valid
  | .map _ _ _ => inferInstanceAs (Decidable (_ ∧ _ ∧ _))
  | .unmap _ => inferInstanceAs (Decidable True)
  | .virtToPhys _ => inferInstanceAs (Decidable True)

variable {α : Type}

/-- One call on the pagemap; only `vmm_virt_to_phys` has an answer. -/
def serve (A : Allocator α) (top : Nat) (s : State α) : Call → Option (Option (BitVec 64) × State α)
  | .map physicalAddress virtualAddress flags =>
    (vmmMapPage A s (top * pageSize) physicalAddress virtualAddress flags).map fun s => (none, s)
  | .unmap virtualAddress => (vmmUnmapPage A s (top * pageSize) virtualAddress).map fun s => (none, s)
  | .virtToPhys virtualAddress =>
    (vmmVirtToPhys A s (top * pageSize) virtualAddress).map fun (answer, s) => (some answer, s)

/-- The pages that are mapped, with what they are mapped to. -/
abbrev Mapping := BitVec 36 → Option (BitVec 64)

/-- The same call on the finite map. -/
def onMap (mapping : Mapping) : Call → Option (BitVec 64) × Mapping
  | .map physicalAddress virtualAddress _ =>
    (none, Function.update mapping (pageOf virtualAddress) (some physicalAddress))
  | .unmap virtualAddress => (none, Function.update mapping (pageOf virtualAddress) none)
  | .virtToPhys virtualAddress => (some ((mapping (pageOf virtualAddress)).getD 0), mapping)

/-- The tables translate as the map says. -/
def Agrees (s : State α) (top : Nat) (mapping : Mapping) : Prop :=
  ∀ virtualAddress, translation s.mem top virtualAddress = (mapping (pageOf virtualAddress)).getD 0

section
variable {A : Allocator α} {busy : α → Nat → Prop} {spare : α → Nat}

theorem agrees_entered (agrees : Agrees s top mapping)
    (entered : Entered busy Alone {top} s s' top virtualAddress entry)
    (means : leafAddress entry = value.getD 0) :
    Agrees s' top (Function.update mapping (pageOf virtualAddress) value) := by
  intro probe
  by_cases same : pageOf probe = pageOf virtualAddress
  · rw [entered.seen top rfl probe same (Or.inl rfl), same, Function.update_self, means]
  · rw [entered.unseen top rfl probe (fun both => same both.1), Function.update_of_ne same]
    exact agrees probe

/-- The tables agree with the map, and memory lasts for `budget` more calls. -/
structure Simulates (busy : α → Nat → Prop) (spare : α → Nat) (top budget : Nat) (s : State α)
    (mapping : Mapping) : Prop where
  tables : Tables busy s Alone {top}
  agrees : Agrees s top mapping
  lasts : 3 * budget ≤ spare s.alloc

theorem serve_simulates (fresh : HandsOut A busy 1) (stocked : Stocked A spare) (budget : Nat)
    (s : State α) (mapping : Mapping) (call : Call)
    (sim : Simulates busy spare top (budget + 1) s mapping) (valid : call.Valid) :
    ∃ s', serve A top s call = some ((onMap mapping call).1, s') ∧
      Simulates busy spare top budget s' (onMap mapping call).2 := by
  obtain ⟨tables, agrees, lasts⟩ := sim
  cases call with
  | map physicalAddress virtualAddress flags =>
    obtain ⟨s', ran, used⟩ := vmmMapPage_returns stocked s (by omega) (top * pageSize)
      physicalAddress virtualAddress flags
    have entered := vmmMapPage_entered fresh tables rfl ran
    refine ⟨s', by rw [serve, ran]; rfl, entered.tables, ?_, by omega⟩
    exact agrees_entered agrees entered (leafAddress_entry valid.1 valid.2.1 valid.2.2)
  | unmap virtualAddress =>
    obtain ⟨s', ran, used⟩ := vmmUnmapPage_returns stocked s (by omega) (top * pageSize) virtualAddress
    have entered := vmmUnmapPage_entered fresh tables rfl ran
    exact ⟨s', by rw [serve, ran]; rfl, entered.tables, agrees_entered agrees entered rfl, by omega⟩
  | virtToPhys virtualAddress =>
    obtain ⟨answer, s', ran, used⟩ :=
      vmmVirtToPhys_returns stocked s (by omega) (top * pageSize) virtualAddress
    obtain ⟨found, grown⟩ := vmmVirtToPhys_grown fresh tables rfl ran
    refine ⟨s', ?_, grown.tables, ?_, by omega⟩
    · rw [serve, ran, found, agrees virtualAddress]
      rfl
    · intro probe
      rw [grown.same top rfl probe]
      exact agrees probe

theorem blank_simulates (blank : ∀ index, slot s.mem top index = 0) (owned : busy s.alloc top)
    (null : busy s.alloc 0) (lasts : 3 * budget ≤ spare s.alloc) :
    Simulates busy spare top budget s fun _ => none := by
  obtain ⟨tables, unmapped⟩ := blank_tables blank owned null
  exact ⟨tables, unmapped, lasts⟩

/-- **Page tables refine a finite map.** From a cleared top level, any sequence
of map, unmap and translate calls returns, answers as the map from pages to
physical pages does, and leaves tables that translate every address as that
map says. -/
theorem page_tables_refine_map (fresh : HandsOut A busy 1) (stocked : Stocked A spare)
    (s : State α) (top : Nat) (blank : ∀ index, slot s.mem top index = 0)
    (owned : busy s.alloc top) (null : busy s.alloc 0) (calls : List Call)
    (valid : ∀ call ∈ calls, call.Valid) (enough : 3 * calls.length ≤ spare s.alloc) :
    ∃ s', attempt (serve A top) s calls = some ((respond onMap (fun _ => none) calls).1, s') ∧
      ∀ virtualAddress, translation s'.mem top virtualAddress =
        ((respond onMap (fun _ => none) calls).2 (pageOf virtualAddress)).getD 0 := by
  have start : Simulates busy spare top (calls.length + 0) s fun _ => none :=
    blank_simulates blank owned null enough
  obtain ⟨s', ran, sim⟩ := attempt_simulates (serve_simulates fresh stocked) valid start
  exact ⟨s', ran, sim.agrees⟩

/-- Sixteen free pages but for page 0 and the top level in page 1, and cleared
memory. -/
def sixteenPages : State Pmm.State :=
  ⟨fun _ => 0, ⟨fun byte => if byte = 0 then 0b11 else 0, 0x10000, sixteenPages_bounded⟩⟩

/-- Two pages mapped, one of them read at its last byte and then unmapped. -/
def fourCalls : List Call :=
  [.map 0x5000 0x400000 0b11, .map 0x6000 0xffff800000000000 0b111, .virtToPhys 0x400fff,
    .unmap 0x400000]

theorem sixteenPages_refine_map :
    ∃ s', attempt (serve pmmAllocator 1) sixteenPages fourCalls =
      some ([none, none, some 0x5000, none], s') := by
  have answers : (respond onMap (fun _ => none) fourCalls).1 = [none, none, some 0x5000, none] := by
    decide
  obtain ⟨s', ran, _⟩ := page_tables_refine_map pmm_handsOut_page pmm_stocked sixteenPages 1
    (fun index => word_zero (1 * pageSize + index * 8)) (by decide) (by decide) fourCalls (by decide)
    (by decide)
  exact ⟨s', answers ▸ ran⟩

end

end MandelbrotOS.PageMapRefinement
