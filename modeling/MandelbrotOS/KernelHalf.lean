import Mathlib.Data.List.Nodup
import Mathlib.Order.Interval.Finset.Nat
import MandelbrotOS.PmmSupply
import MandelbrotOS.Runs

/-! The kernel half of the address space. `init_vmm` fills all upper slots of
the kernel's top level before anything is mapped, and every new pagemap copies
them; from then on no operation replaces one. So all pagemaps hang the same
tables below their upper slots, and share nothing below the lower ones. -/
namespace MandelbrotOS.KernelHalf
open ByteMemory Forests Runs Pmm Vmm PageTables PmmSupply

/-- The slots of the kernel half. -/
def Upper (index : Fin 512) : Prop := 256 ≤ index.val

theorem mem_upperSlots : index ∈ upperSlots ↔ Upper index := by
  simp [upperSlots, Upper]

theorem upper_iff (virtualAddress : BitVec 64) :
    Upper (pmlEntry 39 virtualAddress) ↔ virtualAddress.getLsbD 47 = true := by
  rw [Upper, pmlEntry_val 39 _ (by decide), BitVec.getLsbD, Nat.testBit_eq_decide_div_mod_eq,
    decide_eq_true_iff]
  omega

variable {α : Type}

section
variable {A : Allocator α} {busy : α → Nat → Prop}

/-! ### Creating a pagemap -/

theorem copied_slots (distinct : kernel ≠ user) (slots : List (Fin 512)) (s : State α) :
    (slots.foldl (fun s i => s.setEntry (user * pageSize) i (entryAt s.mem (kernel * pageSize) i)) s).alloc =
        s.alloc ∧
      ∀ node index, slot (slots.foldl (fun s i =>
          s.setEntry (user * pageSize) i (entryAt s.mem (kernel * pageSize) i)) s).mem node index =
        if node = user ∧ index ∈ slots then slot s.mem kernel index else slot s.mem node index := by
  induction slots generalizing s with
  | nil => simp
  | cons first rest ih =>
    grind [State.setEntry, slot_storeWord, slot]

/-- The slots of a new pagemap: the kernel's upper ones, and empty lower ones. -/
def NewPagemap (mem mem' : Memory) (kernel top : Nat) : Prop :=
  ∀ node index, slot mem' node index =
    if node = top then (if index ∈ upperSlots then slot mem kernel index else 0) else slot mem node index

theorem rooted_of_new (slots : NewPagemap mem mem' kernel top) :
    Rooted (next mem) (next mem') Upper kernel top := by
  refine ⟨fun index upper => ?_, fun index lower => ?_, fun node index other => ?_⟩
  · simp only [next, slots top index, if_true, mem_upperSlots, upper]
  · simp only [next, slots top index, if_true, mem_upperSlots, lower, if_false]
    rfl
  · simp only [next, slots node index, other, if_false]

/-- A new pagemap has a page that was not in use, and its upper slots are those of the
kernel. -/
structure Creates (busy : α → Nat → Prop) (roots : Set Nat) (kernel top : Nat) (s s' : State α) : Prop where
  small : top < 2 ^ 52
  unused : ¬ busy s.alloc top
  inUse : ∀ page, busy s'.alloc page ↔ busy s.alloc page ∨ page = top
  unreached : ∀ other ∈ roots, ∀ way, way.length ≤ 3 → reach (next s.mem) other way ≠ some top
  rooted : Rooted (next s.mem) (next s'.mem) Upper kernel top

theorem Creates.new (creates : Creates busy roots kernel top s s') : top ∉ roots :=
  fun inside => creates.unreached top inside [] (Nat.zero_le _) (reach_nil _ _)

theorem vmmCreateNewPagemap_spec (fresh : HandsOut A busy 1) (tables : Tables busy s Upper roots)
    (member : kernel ∈ roots)
    (ran : vmmCreateNewPagemap A s (kernel * pageSize) = some (adr, s')) :
    ∃ top, adr = top * pageSize ∧ Creates busy roots kernel top s s' ∧ Tables busy s' Upper (insert top roots) := by
  simp only [vmmCreateNewPagemap, bind_returns, Prod.exists, Option.some.injEq, Prod.mk.injEq] at ran
  obtain ⟨_, middle, given, rfl, rfl⟩ := ran
  obtain ⟨top, rfl, small, unused, inUse, cleared⟩ := pcalloc_page fresh tables.null given
  have unreached : ∀ other ∈ roots, ∀ way, way.length ≤ 3 → reach (next s.mem) other way ≠ some top :=
    fun other inside way short arrives => unused (tables.owned other inside way top short arrives)
  have distinct : kernel ≠ top := fun same => unreached kernel member [] (Nat.zero_le _) (same ▸ reach_nil _ _)
  obtain ⟨alloc, copied⟩ := copied_slots distinct upperSlots middle
  generalize upperSlots.foldl _ middle = final at alloc copied
  have rooted : Rooted (next s.mem) (next final.mem) Upper kernel top := by
    refine rooted_of_new fun node index => ?_
    rw [copied, cleared, slot_fill_page, slot_fill_page, if_neg distinct]
    by_cases new : node = top <;> simp [new]
  rw [← alloc] at inUse
  refine ⟨top, rfl, ⟨small, unused, inUse, unreached, rooted⟩, forest_root tables.forest rooted member unreached, ?_,
    (inUse 0).mpr (Or.inl tables.null)⟩
  intro other inside way node short arrives
  apply (inUse node).mpr
  rcases reach_rooted rooted member unreached inside short arrives with ⟨_, _, rfl⟩ | ⟨old, known, below, _⟩
  · exact Or.inr rfl
  · exact Or.inl (tables.owned old known way node short below)

/-! ### Booting -/

/-- The kernel's tables while `init_vmm` runs: one pagemap, whose upper slots
are all in place. -/
structure Populated (busy : α → Nat → Prop) (top : Nat) (s : State α) : Prop where
  tables : Tables busy s Alone {top}
  filled : ∀ index, Upper index → next s.mem top index ≠ none

theorem filled_of_kept (kept : ∀ root ∈ ({top} : Set Nat), ∀ path table, path.length ≤ 3 →
      reach (next mem) root path = some table → reach (next mem') root path = some table)
    (filled : next mem top index ≠ none) : next mem' top index ≠ none := by
  obtain ⟨table, leads⟩ := Option.ne_none_iff_exists'.mp filled
  have still := kept top rfl [index] table (by simp) (by rw [reach_single, leads])
  rw [reach_single] at still
  rw [still]
  exact Option.some_ne_none table

theorem mapPage_populated (fresh : HandsOut A busy 1) (populated : Populated busy top s)
    (ran : vmmMapPage A s (top * pageSize) physicalAddress virtualAddress flags = some s') :
    Populated busy top s' := by
  have entered := vmmMapPage_entered fresh populated.tables rfl ran
  exact ⟨entered.tables, fun index upper => filled_of_kept entered.kept (populated.filled index upper)⟩

theorem upperSlots_populated (fresh : HandsOut A busy 1) (tables : Tables busy s Alone {top})
    (ran : upperSlots.foldlM (fun s i => (vmmGetNextLevel A s (top * pageSize) i).map Prod.snd) s =
      some s') : Populated busy top s' := by
  have turn (middle : State α) (index : Fin 512) (later : State α)
      (holds : Tables busy middle Alone {top})
      (turned : (vmmGetNextLevel A middle (top * pageSize) index).map Prod.snd = some later) :
      Tables busy later Alone {top} ∧ next later.mem top index ≠ none ∧
        ∀ other, next middle.mem top other ≠ none → next later.mem top other ≠ none := by
    obtain ⟨⟨adr, _⟩, stepped, rfl⟩ := Option.map_eq_some_iff.mp turned
    obtain ⟨child, _, grown, reached⟩ := vmmGetNextLevel_grown fresh holds rfl
      (reach_nil _ top) (by decide) stepped
    refine ⟨grown.tables, ?_, fun other already => filled_of_kept grown.kept already⟩
    simp_all [reach_single]
  obtain ⟨after, filled, _⟩ := foldlM_establishes turn tables ran
  exact ⟨after, fun index upper => filled index (mem_upperSlots.mpr upper)⟩

theorem initVmm_spec (fresh : HandsOut A busy 1) (null : busy s.alloc 0)
    (ran : initVmm A s = some (adr, s')) :
    ∃ top, adr = top * pageSize ∧ Tables busy s' Upper {top} := by
  simp only [initVmm, bind_returns, Prod.exists, Option.some.injEq, Prod.mk.injEq] at ran
  obtain ⟨_, s1, given, s2, slots, s3, identity, s4, kernel, rfl, rfl⟩ := ran
  obtain ⟨top, rfl, bound, unused, inUse, cleared⟩ := pcalloc_page fresh null given
  have blank : Tables busy s1 Alone {top} := by
    refine (blank_tables (fun index => ?_) ((inUse top).mpr (Or.inr rfl))
      ((inUse 0).mpr (Or.inl null))).1
    rw [cleared, slot_fill_page, if_pos rfl]
  have filled := upperSlots_populated fresh blank slots
  have mapped : Populated busy top s3 := by
    refine foldlM_keeps (fun i _ middle later holds turned => ?_) filled identity
    obtain ⟨half, first, second⟩ := Option.bind_eq_some_iff.mp turned
    exact mapPage_populated fresh (mapPage_populated fresh holds first) second
  have done : Populated busy top s4 :=
    foldlM_keeps (fun i _ middle later holds turned => mapPage_populated fresh holds turned) mapped kernel
  exact ⟨top, rfl, forest_share done.tables.forest done.filled, done.tables.owned, done.tables.null⟩

end

/-! ### Runs over many pagemaps -/

/-- Memory and the pagemaps that exist, each given by the page of its top
level; the kernel's comes first. -/
structure World (α : Type) where
  state : State α
  pagemaps : List Nat

inductive Call where
  | create
  | map (pagemap : Nat) (physicalAddress virtualAddress flags : BitVec 64)
  | unmap (pagemap : Nat) (virtualAddress : BitVec 64)
  | virtToPhys (pagemap : Nat) (virtualAddress : BitVec 64)

/-- The pagemap and the address a call operates on. -/
def Call.target : Call → Option (Nat × BitVec 64)
  | .create => none
  | .map pagemap _ virtualAddress _ => some (pagemap, virtualAddress)
  | .unmap pagemap virtualAddress => some (pagemap, virtualAddress)
  | .virtToPhys pagemap virtualAddress => some (pagemap, virtualAddress)

def boot (A : Allocator α) (s : State α) : Option (World α) :=
  (initVmm A s).map fun (top, s) => ⟨s, [top / pageSize]⟩

def step (A : Allocator α) (world : World α) : Call → Option (World α)
  | .create => do
    let kernel ← world.pagemaps[0]?
    let (top, s) ← vmmCreateNewPagemap A world.state (kernel * pageSize)
    some ⟨s, world.pagemaps ++ [top / pageSize]⟩
  | .map pagemap physicalAddress virtualAddress flags => do
    let top ← world.pagemaps[pagemap]?
    let s ← vmmMapPage A world.state (top * pageSize) physicalAddress virtualAddress flags
    some { world with state := s }
  | .unmap pagemap virtualAddress => do
    let top ← world.pagemaps[pagemap]?
    let s ← vmmUnmapPage A world.state (top * pageSize) virtualAddress
    some { world with state := s }
  | .virtToPhys pagemap virtualAddress => do
    let top ← world.pagemaps[pagemap]?
    let (_, s) ← vmmVirtToPhys A world.state (top * pageSize) virtualAddress
    some { world with state := s }

/-- All pagemaps translate the addresses with bit 47 set alike. -/
def SameKernelHalf (world : World α) : Prop :=
  ∀ one ∈ world.pagemaps, ∀ other ∈ world.pagemaps, ∀ virtualAddress : BitVec 64,
    virtualAddress.getLsbD 47 = true →
    translation world.state.mem one virtualAddress = translation world.state.mem other virtualAddress

/-- `vmm_virt_to_phys` returns the translation of the tables. -/
def Answers (A : Allocator α) (world : World α) : Prop :=
  ∀ top ∈ world.pagemaps, ∀ virtualAddress answer s',
    vmmVirtToPhys A world.state (top * pageSize) virtualAddress = some (answer, s') →
    answer = translation world.state.mem top virtualAddress

/-- A call at an address with bit 47 clear changes no translation of another
pagemap. -/
def LowerPrivate (A : Allocator α) (world : World α) (call : Call) : Prop :=
  ∀ world', step A world call = some world' → ∀ pagemap virtualAddress,
    call.target = some (pagemap, virtualAddress) → virtualAddress.getLsbD 47 = false →
    ∀ other top, other ≠ pagemap → world.pagemaps[other]? = some top → ∀ probe,
      translation world'.state.mem top probe = translation world.state.mem top probe

structure Inv (busy : α → Nat → Prop) (world : World α) : Prop where
  tables : Tables busy world.state Upper {top | top ∈ world.pagemaps}
  distinct : world.pagemaps.Nodup

section
variable {A : Allocator α} {busy : α → Nat → Prop}

theorem inv_sameKernelHalf (inv : Inv busy world) : SameKernelHalf world := by
  intro one member other member' virtualAddress upper
  have way : reach (next world.state.mem) one (directories virtualAddress) =
      reach (next world.state.mem) other (directories virtualAddress) :=
    reach_shared inv.tables.forest member member' ((upper_iff virtualAddress).mpr upper) _
  rw [translation, translation, way]

theorem step_effect (fresh : HandsOut A busy 1) (inv : Inv busy world)
    (targeted : call.target = some (pagemap, virtualAddress)) (ran : step A world call = some world') :
    ∃ top, world.pagemaps[pagemap]? = some top ∧ world'.pagemaps = world.pagemaps ∧
      ((∃ entry, Entered busy Upper {top | top ∈ world.pagemaps} world.state world'.state top
          virtualAddress entry) ∨
        Grown busy Upper {top | top ∈ world.pagemaps} world.state world'.state) := by
  cases call with
  | create => cases targeted
  | map pagemap physicalAddress virtualAddress flags =>
    cases targeted
    simp only [step, bind_returns, Option.some.injEq] at ran
    obtain ⟨top, held, s, mapped, rfl⟩ := ran
    exact ⟨top, held, rfl,
      Or.inl ⟨_, vmmMapPage_entered fresh inv.tables (List.mem_of_getElem? held) mapped⟩⟩
  | unmap pagemap virtualAddress =>
    cases targeted
    simp only [step, bind_returns, Option.some.injEq] at ran
    obtain ⟨top, held, s, unmapped, rfl⟩ := ran
    exact ⟨top, held, rfl,
      Or.inl ⟨_, vmmUnmapPage_entered fresh inv.tables (List.mem_of_getElem? held) unmapped⟩⟩
  | virtToPhys pagemap virtualAddress =>
    cases targeted
    simp only [step, bind_returns, Option.some.injEq, Prod.exists] at ran
    obtain ⟨top, held, answer, s, translated, rfl⟩ := ran
    exact ⟨top, held, rfl,
      Or.inr (vmmVirtToPhys_grown fresh inv.tables (List.mem_of_getElem? held) translated).2⟩

theorem step_inv (fresh : HandsOut A busy 1) (inv : Inv busy world)
    (ran : step A world call = some world') : Inv busy world' := by
  cases targeted : call.target with
  | some target =>
    obtain ⟨top, _, same, ⟨entry, entered⟩ | grown⟩ := step_effect fresh inv targeted ran
    · exact ⟨same ▸ entered.tables, same ▸ inv.distinct⟩
    · exact ⟨same ▸ grown.tables, same ▸ inv.distinct⟩
  | none =>
    cases call with
    | create =>
      simp only [step, bind_returns, Option.some.injEq, Prod.exists] at ran
      obtain ⟨kernel, held, adr, s, created, rfl⟩ := ran
      obtain ⟨top, rfl, creates, tables⟩ :=
        vmmCreateNewPagemap_spec fresh inv.tables (List.mem_of_getElem? held) created
      have new := creates.new
      rw [Nat.mul_div_cancel _ (by decide)]
      refine ⟨?_, List.nodup_append.mpr ⟨inv.distinct, List.nodup_singleton _, ?_⟩⟩
      · have grown : {t | t ∈ world.pagemaps ++ [top]} = insert top {t | t ∈ world.pagemaps} := by
          ext t
          simp [or_comm]
        rw [grown]
        exact tables
      · grind
    | map => cases targeted
    | unmap => cases targeted
    | virtToPhys => cases targeted

theorem inv_lowerPrivate (fresh : HandsOut A busy 1) (inv : Inv busy world) (call : Call) :
    LowerPrivate A world call := by
  intro world' ran pagemap virtualAddress targeted lower other top different held probe
  obtain ⟨target, here, _, ⟨entry, entered⟩ | grown⟩ := step_effect fresh inv targeted ran
  · refine entered.unseen top (List.mem_of_getElem? held) probe ?_
    rintro ⟨_, same | upper⟩
    · subst same
      exact different ((List.getElem?_inj (List.getElem?_eq_some_iff.mp held).1 inv.distinct).mp
        (held.trans here.symm))
    · rw [upper_iff, lower] at upper
      cases upper
  · exact grown.same top (List.mem_of_getElem? held) probe

theorem boot_inv (fresh : HandsOut A busy 1) (null : busy s.alloc 0)
    (booted : boot A s = some world) : Inv busy world := by
  obtain ⟨⟨adr, s'⟩, ran, rfl⟩ := Option.map_eq_some_iff.mp booted
  obtain ⟨top, rfl, tables⟩ := initVmm_spec fresh null ran
  dsimp only
  rw [Nat.mul_div_cancel _ (by decide)]
  refine ⟨?_, List.nodup_singleton _⟩
  simp_all

/-- **The kernel half is shared and the user half private.** After `init_vmm`,
along every run of pagemap creations, maps, unmaps and translations, all
pagemaps translate every address with bit 47 set alike, and a call at an
address with bit 47 clear changes no translation of another pagemap. -/
theorem kernel_half_shared (fresh : HandsOut A busy 1) (null : busy s.alloc 0)
    (booted : boot A s = some world) (calls : List Call) :
    Throughout (step A) (fun world => SameKernelHalf world ∧ Answers A world) world calls ∧
      Along (step A) (LowerPrivate A) world calls := by
  have held : Throughout (step A) (Inv busy) world calls :=
    throughout_of_kept (fun _ _ _ inv ran => step_inv fresh inv ran) (boot_inv fresh null booted)
  refine ⟨throughout_mono (fun world inv => ?_) held,
    along_of_throughout (fun _ call inv => inv_lowerPrivate fresh inv call) held⟩
  refine ⟨inv_sameKernelHalf inv, fun top member virtualAddress answer s' ran => ?_⟩
  exact (vmmVirtToPhys_grown fresh inv.tables member ran).1

end

/-! ### Enough memory to boot -/

/-- As many free pages as `init_vmm` can possibly use. -/
def bootPages : Nat := 1 + (512 + (6 * (0x100000 - 1) + 3 * 0x80000))

theorem initVmm_returns {A : Allocator α} {spare : α → Nat} (stocked : Stocked A spare) (s : State α)
    (enough : bootPages ≤ spare s.alloc) :
    ∃ reply, initVmm A s = some reply ∧ spare s.alloc ≤ spare reply.2.alloc + bootPages := by
  simp only [bootPages] at enough ⊢
  obtain ⟨top, s1, given, used1⟩ := pcalloc_returns stocked s (by omega)
  have slots : 1 * upperSlots.length ≤ 512 := by
    have few := List.length_filter_le (fun i : Fin 512 => decide (256 ≤ i.val)) (List.finRange 512)
    rw [List.length_finRange] at few
    rw [Nat.one_mul]
    exact few
  have fill (s : State α) (i : Fin 512) (enough : 1 ≤ spare s.alloc) :
      ∃ s', (vmmGetNextLevel A s top i).map Prod.snd = some s' ∧ spare s.alloc ≤ spare s'.alloc + 1 := by
    obtain ⟨adr, s', ran, used⟩ := vmmGetNextLevel_returns stocked s enough top i
    exact ⟨s', by rw [ran]; rfl, used⟩
  have direct (s : State α) (i : BitVec 64) (enough : 6 ≤ spare s.alloc) :
      ∃ s', ((vmmMapPage A s top i i 0b11).bind fun s =>
          vmmMapPage A s top i (i + physMemOffset) 0b11) = some s' ∧
        spare s.alloc ≤ spare s'.alloc + 6 := by
    obtain ⟨half, first, used⟩ := vmmMapPage_returns stocked s (by omega) top i i 0b11
    obtain ⟨s', second, used'⟩ :=
      vmmMapPage_returns stocked half (by omega) top i (i + physMemOffset) 0b11
    exact ⟨s', by rw [first]; exact second, by omega⟩
  have image (s : State α) (i : BitVec 64) (enough : 3 ≤ spare s.alloc) :
      ∃ s', vmmMapPage A s top i (i + kernelMemOffset) 0b111 = some s' ∧
        spare s.alloc ≤ spare s'.alloc + 3 :=
    vmmMapPage_returns stocked s enough top i (i + kernelMemOffset) 0b111
  have pages (first last : Nat) : (pageAddresses first last).length = last - first := by
    simp [pageAddresses]
  obtain ⟨s2, ran2, used2⟩ := foldlM_returns fill upperSlots (by omega : _ ≤ spare s1.alloc)
  obtain ⟨s3, ran3, used3⟩ := foldlM_returns direct (pageAddresses 1 0x100000)
    (by rw [pages]; omega : _ ≤ spare s2.alloc)
  rw [pages] at used3
  obtain ⟨s4, ran4, used4⟩ := foldlM_returns image (pageAddresses 0 0x80000)
    (by rw [pages]; omega : _ ≤ spare s3.alloc)
  rw [pages] at used4
  refine ⟨(top, s4), ?_, by dsimp only; omega⟩
  simp_all [initVmm]

theorem vmmCreateNewPagemap_returns {A : Allocator α} {spare : α → Nat} (stocked : Stocked A spare)
    (s : State α) (enough : 0 < spare s.alloc) (kernelTop : Nat) :
    ∃ top s', vmmCreateNewPagemap A s kernelTop = some (top, s') ∧ spare s.alloc ≤ spare s'.alloc + 1 := by
  obtain ⟨top, middle, given, used⟩ := pcalloc_returns stocked s enough
  have kept : ∀ (slots : List (Fin 512)) (s : State α), (slots.foldl (fun s i =>
      s.setEntry top i (entryAt s.mem kernelTop i)) s).alloc = s.alloc := by
    intro slots
    induction slots with
    | nil => exact fun _ => rfl
    | cons first rest ih => exact fun s => ih (s.setEntry top first _)
  simp_all [vmmCreateNewPagemap]

/-- A machine with `2 ^ 28` pages, all free but page 0. -/
def oneTebibyte : State Pmm.State :=
  ⟨fun _ => 0, ⟨fun byte => if byte = 0 then 1 else 0, 2 ^ 40, by decide⟩⟩

theorem oneTebibyte_free (positive : 0 < page) : ¬ oneTebibyte.alloc.Taken page := by
  rw [State.Taken, bitTest_eq_getLsbD, oneTebibyte]
  grind

theorem oneTebibyte_boots : ∃ s top, boot pmmAllocator oneTebibyte = some ⟨s, [top]⟩ ∧
    1000 ≤ (freePages s.alloc).card := by
  have limit : oneTebibyte.alloc.limit = 2 ^ 28 := rfl
  have enough : bootPages + 1000 ≤ (freePages oneTebibyte.alloc).card := by
    have free : Finset.Ico 1 (2 ^ 28) ⊆ freePages oneTebibyte.alloc := by
      grind [mem_freePages, oneTebibyte_free]
    have many := Finset.card_le_card free
    rw [Nat.card_Ico] at many
    exact Nat.le_trans (by decide) many
  obtain ⟨reply, ran, used⟩ := initVmm_returns pmm_stocked oneTebibyte
    (Nat.le_trans (Nat.le_add_right _ _) enough)
  refine ⟨reply.2, reply.1 / pageSize, by rw [boot, ran]; rfl, ?_⟩
  omega

theorem oneTebibyte_kernel_half_shared :
    ∃ world, boot pmmAllocator oneTebibyte = some world ∧
      Throughout (step pmmAllocator) (fun world => SameKernelHalf world ∧ Answers pmmAllocator world)
        world [.create, .map 1 0x5000 0x400000 0b111, .map 1 0x6000 0xffff900000000000 0b11] := by
  obtain ⟨s, top, booted, _⟩ := oneTebibyte_boots
  exact ⟨⟨s, [top]⟩, booted, (kernel_half_shared pmm_handsOut_page (by decide) booted _).1⟩

end MandelbrotOS.KernelHalf
