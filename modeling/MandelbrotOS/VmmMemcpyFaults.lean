import MandelbrotOS.VmmMemcpy

/-! Where `vmm_memcpy` is not the copy that was asked for. The last byte of a page is
never written, so bytes of the target are left out; the source is read a byte too far;
or a page is looked up that no byte needs and a table is made for it. Once a copy has
left its pages it may overwrite the tables it goes by, and what is shown of such runs
holds whatever the tables have become. -/
namespace MandelbrotOS.VmmMemcpyFaults
open ByteMemory Forests PageEntries PagemapFrames PageTables Pmm Runs Vmm VmmMemcpy
open PmmInit (alignDown alignDown_toNat)

variable {α : Type}

/-! ### What the calls do when they return -/

theorem start_cases {A : Allocator α} (ran : start A s topLevel virtualAddress = some (c, s')) :
    ∃ physAddr, vmmVirtToPhys A s topLevel (alignDown virtualAddress) = some (physAddr, s') ∧
      c = ⟨virtualAddress, physAddr, virtualAddress.toNat % pageSize⟩ := by
  grind [start, bind_returns, offset_eq]

theorem advance_cases {A : Allocator α} (ran : advance A s topLevel c = some (c', s')) :
    (¬ c.Wraps ∧ c' = { c with alignDifference := c.alignDifference + 1 } ∧ s' = s) ∨
    (c.Wraps ∧ ∃ physAddr,
      vmmVirtToPhys A s topLevel (alignDown (c.virtualAddress + 0x1000)) = some (physAddr, s') ∧
      c' = ⟨c.virtualAddress + 0x1000, physAddr, 0⟩) := by
  unfold advance at ran
  by_cases wraps : c.Wraps
  · simp only [if_pos wraps, bind_returns, Prod.exists, Option.some.injEq, Prod.mk.injEq] at ran
    grind
  · simp_all

theorem copyByte_cases {A : Allocator α} (ran : copyByte A topLevel1 topLevel2 p = some p') :
    ∃ s, advance A p.stored topLevel1 p.cursor1 = some (p'.cursor1, s) ∧
      advance A s topLevel2 p.cursor2 = some (p'.cursor2, p'.state) := by
  grind [copyByte, bind_returns]

theorem vmmMemcpy_cases {A : Allocator α}
    (ran : vmmMemcpy A s topLevel1 virtualAddress1 topLevel2 virtualAddress2 count = some s') :
    ∃ cursor1 s1 cursor2 s2 p, start A s topLevel1 virtualAddress1 = some (cursor1, s1) ∧
      start A s1 topLevel2 virtualAddress2 = some (cursor2, s2) ∧
      (List.range count).foldlM (fun p _ => copyByte A topLevel1 topLevel2 p) ⟨s2, cursor1, cursor2⟩ = some p ∧
      p.state = s' := by
  simp only [vmmMemcpy, bind_returns, Prod.exists, Option.some.injEq] at ran
  obtain ⟨cursor1, s1, first, cursor2, s2, second, p, copied, same⟩ := ran
  exact ⟨cursor1, s1, cursor2, s2, p, first, second, copied, same⟩

theorem vmmVirtToPhys_aligned {A : Allocator α}
    (ran : vmmVirtToPhys A s topLevel virtualAddress = some (answer, s')) : answer.toNat % pageSize = 0 := by
  grind [vmmVirtToPhys, bind_returns, leafAddress_aligned]

theorem cursor_of_stays {A : Allocator α} {side : Side} (stays : ¬ (side.cursor mem i).Wraps)
    (ran : advance A s topLevel (side.cursor mem i) = some (c', s')) : c' = side.cursor mem (i + 1) := by
  rw [advance_stays A s topLevel stays] at ran
  exact (congrArg Prod.fst (Option.some.inj ran)).symm

/-! ### Walks through any tables -/

/-- The first and the last byte of an entry. -/
def Edge (adr : Nat) : Prop := adr % 8 = 0 ∨ adr % 8 = 7

theorem edge_of_aligned (aligned : adr % pageSize = 0) : Edge adr := by
  simp only [pageSize] at aligned
  exact Or.inl (by omega)

/-- A byte is what it was, or what a new table or the entry for one has there. -/
def Marked (before after : BitVec 8) : Prop := after = before ∨ after = 0 ∨ after = 7

theorem marked_trans (first : Marked before middle) (second : Marked middle after) : Marked before after := by
  rcases second with rfl | new
  · exact first
  · exact Or.inr new

theorem marked_fill (mem : Memory) (adr count place : Nat) : Marked (mem place) (fill mem adr count 0 place) := by
  rw [fill]
  split
  · exact Or.inr (Or.inl rfl)
  · exact Or.inl rfl

theorem link_toNat (small : frame < 2 ^ 40) : (pageAddress frame ||| 0b111).toNat = frame * pageSize + 7 := by
  have shifted : frame * pageSize = frame <<< 12 := by rw [Nat.shiftLeft_eq]; rfl
  rw [BitVec.toNat_or, pageAddress, BitVec.toNat_ofNat, Nat.mod_eq_of_lt (by simp only [pageSize]; omega), shifted]
  simp [Nat.shiftLeft_add_eq_or_of_lt]

theorem marked_link (small : frame < 2 ^ 40) (edge : Edge place) (mem : Memory) (table : Nat) (index : Fin 512) :
    Marked (mem place) (storeWord mem (table * pageSize + index * 8) (pageAddress frame ||| 0b111) place) := by
  rw [storeWord]
  split
  · rename_i inside
    refine Or.inr ?_
    have value := link_toNat small
    simp only [pageSize] at inside value
    rcases edge with low | high
    · right
      rw [show place - (table * pageSize + index * 8) = 0 by simp only [pageSize]; omega]
      apply BitVec.eq_of_toNat_eq
      grind
    · left
      rw [show place - (table * pageSize + index * 8) = 7 by simp only [pageSize]; omega]
      apply BitVec.eq_of_toNat_eq
      grind [Nat.shiftRight_eq_div_pow]
  · exact Or.inl rfl

/-- Memory after walks, wherever the tables led them. -/
structure Touched (busy : α → Nat → Prop) (s s' : State α) : Prop where
  still : ∀ page, busy s.alloc page → busy s'.alloc page
  byte : ∀ adr, Edge adr → Marked (s.mem adr) (s'.mem adr)

theorem touched_refl (busy : α → Nat → Prop) (s : State α) : Touched busy s s :=
  ⟨fun _ used => used, fun _ _ => Or.inl rfl⟩

theorem touched_trans (first : Touched busy s s') (second : Touched busy s' s'') : Touched busy s s'' :=
  ⟨fun page used => second.still page (first.still page used),
    fun adr edge => marked_trans (first.byte adr edge) (second.byte adr edge)⟩

/-- Page 0 is in use, and so is every page that does not exist. -/
structure Bounded (busy : α → Nat → Prop) (s : State α) : Prop where
  null : busy s.alloc 0
  physical : ∀ page, ¬ busy s.alloc page → page < 2 ^ 40

section
variable {A : Allocator α} {busy : α → Nat → Prop} {shared : Fin 512 → Prop} {roots : Set Nat}
  {s s' s'' t : State α} {dst src side : Side}

theorem Bounded.later (bounded : Bounded busy s) (still : ∀ page, busy s.alloc page → busy s'.alloc page) :
    Bounded busy s' :=
  ⟨still 0 bounded.null, fun page free => bounded.physical page fun used => free (still page used)⟩

section
variable (fresh : HandsOut A busy 1) (bounded : Bounded busy s)
include fresh bounded

theorem vmmGetNextLevel_touched (ran : vmmGetNextLevel A s (table * pageSize) index = some (adr, s')) :
    (∃ child, adr = child * pageSize) ∧ Touched busy s s' := by
  rcases vmmGetNextLevel_cases fresh bounded.null ran with
    ⟨-, rfl, rfl⟩ | ⟨-, frame, rfl, -, unused, inUse, stored⟩
  · exact ⟨⟨_, rfl⟩, touched_refl busy s'⟩
  · refine ⟨⟨frame, rfl⟩, fun page used => (inUse page).mpr (Or.inl used), fun place edge => ?_⟩
    rw [stored]
    exact marked_trans (marked_fill s.mem _ _ place) (marked_link (bounded.physical frame unused) edge _ _ _)

theorem vmmVirtToPhys_touched (ran : vmmVirtToPhys A s (root * pageSize) virtualAddress = some (answer, s')) : Touched busy s s' := by
  simp only [vmmVirtToPhys, descend, bind_returns, Prod.exists, Option.some.injEq, Prod.mk.injEq] at ran
  obtain ⟨_, _, ⟨_, s3, ran3, _, s2, ran2, ran1⟩, -, rfl⟩ := ran
  obtain ⟨⟨pml3, rfl⟩, touched3⟩ := vmmGetNextLevel_touched fresh bounded ran3
  have bounded3 := bounded.later touched3.still
  obtain ⟨⟨pml2, rfl⟩, touched2⟩ := vmmGetNextLevel_touched fresh bounded3 ran2
  have bounded2 := bounded3.later touched2.still
  grind [vmmGetNextLevel_touched, touched_trans]

theorem advance_touched (ran : advance A s (root * pageSize) c = some (c', s')) : Touched busy s s' := by
  rcases advance_cases ran with ⟨-, -, rfl⟩ | ⟨-, _, walked, -⟩
  · exact touched_refl busy s'
  · exact vmmVirtToPhys_touched fresh bounded walked

theorem start_touched (ran : start A s (root * pageSize) virtualAddress = some (c, s')) : Touched busy s s' := by
  grind [start_cases, vmmVirtToPhys_touched]

end

theorem bounded_of_ready (ready : Ready A busy shared roots s dst src count) : Bounded busy s :=
  ⟨ready.tables.null, ready.physical⟩

theorem bounded_of_grown (ready : Ready A busy shared roots s dst src count) (grown : Grown busy shared roots s s') :
    Bounded busy s' :=
  (bounded_of_ready ready).later grown.busy

/-! ### Bytes that are left out -/

/-- A byte that the cursor of the target never comes to. -/
structure Missed (A : Allocator α) (s : State α) (dst : Side) (count adr : Nat) (visits : Nat → Cursor → Prop) :
    Prop where
  edge : Edge adr
  first : ∀ c s', start A s (dst.root * pageSize) dst.base = some (c, s') → visits 0 c
  avoids : ∀ i < count, ∀ c, visits i c → c.place ≠ adr
  onward : ∀ i, i + 1 < count → ∀ c c' s s', visits i c →
    advance A s (dst.root * pageSize) c = some (c', s') → visits (i + 1) c'

/-- The state of the loop where a byte has been missed so far. -/
structure Missing (busy : α → Nat → Prop) (s : State α) (count adr : Nat) (visits : Nat → Cursor → Prop) (i : Nat)
    (p : Progress α) : Prop where
  still : ∀ page, busy s.alloc page → busy p.state.alloc page
  byte : Marked (s.mem adr) (p.state.mem adr)
  cursor : i < count → visits i p.cursor1

theorem copyByte_missing (fresh : HandsOut A busy 1) (bounded : Bounded busy s)
    (missed : Missed A s dst count adr visits) (inside : i < count) (missing : Missing busy s count adr visits i p)
    (ran : copyByte A (dst.root * pageSize) (root * pageSize) p = some p') :
    Missing busy s count adr visits (i + 1) p' := by
  obtain ⟨middle, first, second⟩ := copyByte_cases ran
  have here := missing.cursor inside
  have stored : p.stored.mem adr = p.state.mem adr :=
    Function.update_of_ne (missed.avoids i inside _ here).symm _ _
  have bounded' : Bounded busy p.stored := bounded.later missing.still
  have one := advance_touched fresh bounded' first
  have still := fun page used => one.still page (missing.still page used)
  have two := advance_touched fresh (bounded.later still) second
  refine ⟨fun page used => two.still page (still page used), ?_, fun more => ?_⟩
  · refine marked_trans missing.byte (marked_trans ?_ (two.byte adr missed.edge))
    rw [← stored]
    exact one.byte adr missed.edge
  · exact missed.onward i more _ _ _ _ here first

theorem vmmMemcpy_missing (fresh : HandsOut A busy 1) (bounded : Bounded busy s)
    (missed : Missed A s dst count adr visits)
    (ran : vmmMemcpy A s (dst.root * pageSize) dst.base (root * pageSize) virtualAddress count = some s') :
    Marked (s.mem adr) (s'.mem adr) := by
  obtain ⟨cursor1, s1, cursor2, s2, p, first, second, looped, rfl⟩ := vmmMemcpy_cases ran
  have one := start_touched fresh bounded first
  have two := start_touched fresh (bounded.later one.still) second
  have both := touched_trans one two
  have begins : Missing busy s count adr visits 0 ⟨s2, cursor1, cursor2⟩ :=
    ⟨both.still, both.byte adr missed.edge, fun _ => missed.first _ _ first⟩
  exact (foldlM_range_keeps (fun i inside p p' missing turned =>
    copyByte_missing fresh bounded missed inside missing turned) begins looped).byte

/-- A cursor on whole pages that is not at the last byte of one. -/
def Skips (c : Cursor) : Prop := c.physAddr.toNat % pageSize = 0 ∧ (c.alignDifference + 1) % pageSize ≠ 0

theorem skips_place (skips : Skips c) : (c.place + 1) % pageSize ≠ 0 := by
  obtain ⟨aligned, off⟩ := skips
  grind [Cursor.place, pageSize]

theorem advance_skips (aligned : c.physAddr.toNat % pageSize = 0)
    (ran : advance A s topLevel c = some (c', s')) : Skips c' := by
  rcases advance_cases ran with ⟨stays, rfl, -⟩ | ⟨-, _, walked, rfl⟩
  · exact ⟨aligned, stays⟩
  · exact ⟨vmmVirtToPhys_aligned walked, (by decide : (0 + 1) % pageSize ≠ 0)⟩

theorem missed_last (ready : Ready A busy shared roots s dst src count) (positive : 0 < k) (inside : k < count)
    (last : (dst.offset + k + 1) % pageSize = 0) :
    Missed A s dst count (dst.locate s.mem k) fun i c => if i = 0 then c = dst.cursor s.mem 0 else Skips c := by
  have place := dst.locate_mod s.mem k
  refine ⟨Or.inr ?_, fun c s' ran => ?_, fun i below c here => ?_, fun i more c c' s' s'' here ran => ?_⟩
  · simp only [pageSize] at place last
    omega
  · rw [ready.start_target (by omega)] at ran
    cases ran
    rfl
  · by_cases first : i = 0
    · rw [if_pos first] at here
      rw [here, ready.target.place_first (by omega)]
      intro same
      have := ready.target.locate_injective (by omega) inside same
      omega
    · rw [if_neg first] at here
      grind [skips_place, pageSize]
  · rw [if_neg (Nat.succ_ne_zero i)]
    refine advance_skips ?_ ran
    by_cases first : i = 0
    · rw [if_pos first] at here
      rw [here]
      exact translation_aligned _ _ _
    · rw [if_neg first] at here
      exact here.1

theorem next_aligned {phys : BitVec 64} (aligned : phys.toNat % pageSize = 0) :
    (phys + 0x1000).toNat % pageSize = 0 := by
  simp_all [pageSize]

theorem place_cursor_next (edge : side.offset + 1 = pageSize) (below : i < pageSize) :
    (side.cursor mem (i + 1)).place = (translation mem side.root side.base + 0x1000).toNat + i := by
  grind [pageSize, Cursor.place, Side.cursor, translation_aligned]

theorem missed_next (ready : Ready A busy shared roots s dst src count) (edge : dst.offset + 1 = pageSize)
    (more : 1 < count) (small : count ≤ pageSize)
    (scattered : translation s.mem dst.root (dst.address 1) ≠ translation s.mem dst.root dst.base + 0x1000) :
    Missed A s dst count (dst.locate s.mem 1) fun i c => c = dst.cursor s.mem i := by
  have place := dst.locate_eq (ready.target.present 1 more)
  rw [edge, Nat.mod_self, Nat.add_zero] at place
  refine ⟨edge_of_aligned ?_, fun c s' ran => ?_, fun i below c here => ?_,
    fun i onward c c' s' s'' here ran => ?_⟩
  · rw [place]
    exact translation_aligned _ _ _
  · rw [ready.start_target (by omega)] at ran
    cases ran
    rfl
  · intro same
    rw [here] at same
    cases i with
    | zero =>
      rw [ready.target.place_first (by omega)] at same
      have := ready.target.locate_injective (by omega) more same
      omega
    | succ i =>
      grind [BitVec.eq_of_toNat_eq, place_cursor_next, translation_aligned, pageSize]
  · grind [Cursor.Wraps, Side.cursor, pageSize, cursor_of_stays]

theorem cases_of_not_located (scattered : ¬ Located mem side count) :
    (∃ k, 0 < k ∧ k < count ∧ (side.offset + k + 1) % pageSize = 0) ∨
    (side.offset + 1 = pageSize ∧ 1 < count ∧ count ≤ pageSize ∧
      translation mem side.root (side.address 1) ≠ translation mem side.root side.base + 0x1000) := by
  have offset := side.offset_lt
  simp only [Located, not_or, not_and] at scattered
  obtain ⟨long, rest⟩ := scattered
  by_cases edge : side.offset + 1 = pageSize
  · grind [pageSize]
  · refine Or.inl ⟨pageSize - 1 - side.offset, by omega, by omega, ?_⟩
    grind [pageSize]

theorem exists_missed (ready : Ready A busy shared roots s dst src count) (scattered : ¬ Located s.mem dst count) :
    ∃ k < count, ∀ t, Variant s t dst src count → ∃ visits,
      Missed A t dst count (dst.locate t.mem k) visits := by
  rcases cases_of_not_located scattered with ⟨k, positive, inside, last⟩ | ⟨edge, more, small, apart⟩
  · exact ⟨k, inside, fun t variant => ⟨_, missed_last (variant.ready ready) positive inside last⟩⟩
  · refine ⟨1, more, fun t variant => ⟨_, missed_next (variant.ready ready) edge more small ?_⟩⟩
    rwa [variant.translation ready ready.target.member, variant.translation ready ready.target.member]

theorem exists_with_mem (s : State α) (mem : Memory) : ∃ t : State α, t.alloc = s.alloc ∧ t.mem = mem :=
  ⟨⟨mem, s.alloc⟩, rfl, rfl⟩

theorem exists_telling (ready : Ready A busy shared roots s dst src count) (inside : k < count) :
    ∃ t, Variant s t dst src count ∧ t.mem (dst.locate t.mem k) = 1 ∧ t.mem (src.locate t.mem k) = 2 := by
  obtain ⟨t, alloc, mem⟩ := exists_with_mem s
    (Function.update (Function.update s.mem (dst.locate s.mem k) 1) (src.locate s.mem k) 2)
  have variant : Variant s t dst src count := by
    refine ⟨alloc, fun adr outside => ?_⟩
    have target : adr ≠ dst.locate s.mem k := fun same => (outside k inside).1 (same ▸ dst.locate_div s.mem k)
    have source : adr ≠ src.locate s.mem k := fun same => (outside k inside).2 (same ▸ src.locate_div s.mem k)
    simp_all
  refine ⟨t, variant, ?_, ?_⟩
  · rw [(variant.locate ready k).1, mem, Function.update_of_ne (ready.locate_apart inside inside),
      Function.update_self]
  · rw [(variant.locate ready k).2, mem, Function.update_self]

theorem located_target (ready : Ready A busy shared roots s dst src count) (always : AlwaysExact A s dst src count) :
    Located s.mem dst count := by
  by_contra scattered
  obtain ⟨k, inside, missed⟩ := exists_missed ready scattered
  obtain ⟨t, variant, old, new⟩ := exists_telling ready inside
  obtain ⟨visits, missed⟩ := missed t variant
  obtain ⟨s', ran, copies, -⟩ := always t variant
  have ready' := variant.ready ready
  have byte := vmmMemcpy_missing ready'.fresh (bounded_of_ready ready') missed ran
  simp_all [Marked]

/-! ### Walks through sound tables -/

/-- What walks do while the tables are sound: add tables, and leave the data. -/
structure Walked (busy : α → Nat → Prop) (shared : Fin 512 → Prop) (roots : Set Nat) (s s' : State α) :
    Prop where
  grown : Grown busy shared roots s s'
  data : ∀ page, DataPage busy roots s page → SamePage s.mem s'.mem page
  byte : ∀ adr, Edge adr → Marked (s.mem adr) (s'.mem adr)

theorem walked_refl (tables : Tables busy s shared roots) : Walked busy shared roots s s :=
  ⟨grown_refl tables, fun _ _ _ _ => rfl, fun _ _ => Or.inl rfl⟩

theorem walked_trans (first : Walked busy shared roots s s') (second : Walked busy shared roots s' s'') :
    Walked busy shared roots s s'' :=
  ⟨grown_trans first.grown second.grown,
    fun page data => samePage_trans (first.data page data)
      (second.data page (dataPage_later first.grown.unused first.grown.busy data)),
    fun adr edge => marked_trans (first.byte adr edge) (second.byte adr edge)⟩

theorem Walked.byte_data (walked : Walked busy shared roots s s') (data : DataPage busy roots s (adr / pageSize)) :
    s'.mem adr = s.mem adr := by
  have same := walked.data _ data (adr % pageSize) (Nat.mod_lt _ (by decide))
  rwa [Nat.div_add_mod'] at same

section
variable (fresh : HandsOut A busy 1) (bounded : Bounded busy s) (tables : Tables busy s shared roots)
  (member : root ∈ roots)
include fresh bounded tables member

theorem vmmVirtToPhys_walked (ran : vmmVirtToPhys A s (root * pageSize) (alignDown virtualAddress) = some (answer, s')) :
    Walked busy shared roots s s' ∧ answer = translation s.mem root virtualAddress ∧
      Reached s'.mem root virtualAddress := by
  have page := pageOf_alignDown virtualAddress
  obtain ⟨found, grown⟩ := vmmVirtToPhys_grown fresh tables member ran
  refine ⟨⟨grown, (vmmVirtToPhys_viewed fresh tables member member ran).data,
    (vmmVirtToPhys_touched fresh bounded ran).byte⟩, ?_, ?_⟩
  · rw [found, translation_congr s.mem root page]
  · simp only [vmmVirtToPhys, bind_returns, Prod.exists, Option.some.injEq, Prod.mk.injEq] at ran
    obtain ⟨adr, middle, descended, -, rfl⟩ := ran
    obtain ⟨leaf, -, -, arrives⟩ := descend_grown fresh tables member descended
    exact reached_congr page ⟨leaf, arrives⟩

theorem advance_walked (ran : advance A s (root * pageSize) c = some (c', s')) :
    Walked busy shared roots s s' ∧
      (c.Wraps → c'.physAddr = translation s.mem root (c.virtualAddress + 0x1000) ∧ c'.alignDifference = 0 ∧
        Reached s'.mem root (c.virtualAddress + 0x1000)) := by
  grind [advance_cases, walked_refl, vmmVirtToPhys_walked]

theorem start_walked (ran : start A s (root * pageSize) virtualAddress = some (c, s')) :
    Walked busy shared roots s s' ∧ Reached s'.mem root virtualAddress := by
  obtain ⟨_, walked, -⟩ := start_cases ran
  obtain ⟨walks, -, reached⟩ := vmmVirtToPhys_walked fresh bounded tables member walked
  exact ⟨walks, reached⟩

end

theorem reached_grown (grown : Grown busy shared roots s s') (member : root ∈ roots)
    (reached : Reached s.mem root virtualAddress) : Reached s'.mem root virtualAddress := by
  obtain ⟨leaf, arrives⟩ := reached
  exact ⟨leaf, grown.kept root member _ leaf (directories_short _) arrives⟩

/-! ### Loops that write where they should -/

/-- The tables have only grown, and the target goes on from its first walk. -/
structure Steady (busy : α → Nat → Prop) (shared : Fin 512 → Prop) (roots : Set Nat) (s : State α)
    (dst : Side) (count i : Nat) (p : Progress α) : Prop where
  grown : Grown busy shared roots s p.state
  cursor1 : i < count → p.cursor1 = dst.cursor s.mem i

/-- One such turn: the byte that is stored, and the two walks after it. -/
structure Turned (A : Allocator α) (busy : α → Nat → Prop) (shared : Fin 512 → Prop) (roots : Set Nat)
    (s : State α) (dst src : Side) (count i : Nat) (p p' : Progress α) (middle : State α) : Prop where
  steady : Steady busy shared roots s dst count (i + 1) p'
  stored : p.stored.mem = Function.update p.state.mem (dst.locate s.mem i) (p.state.mem p.cursor2.place)
  grown : Grown busy shared roots s p.stored
  first : Walked busy shared roots p.stored middle
  second : Walked busy shared roots middle p'.state
  ran1 : advance A p.stored (dst.root * pageSize) (dst.cursor s.mem i) = some (p'.cursor1, middle)
  ran2 : advance A middle (src.root * pageSize) p.cursor2 = some (p'.cursor2, p'.state)

theorem copyByte_turned (ready : Ready A busy shared roots s dst src count) (located : Located s.mem dst count)
    (inside : i < count) (steady : Steady busy shared roots s dst count i p)
    (ran : copyByte A (dst.root * pageSize) (src.root * pageSize) p = some p') :
    ∃ middle, Turned A busy shared roots s dst src count i p p' middle := by
  obtain ⟨middle, ran1, ran2⟩ := copyByte_cases ran
  have place := located.place_cursor inside ready.target.present
  have stored : p.stored.mem = Function.update p.state.mem (dst.locate s.mem i) (p.state.mem p.cursor2.place) := by
    rw [← place, ← steady.cursor1 inside]
    rfl
  have slots : SameSlots roots p.state p.stored := by
    refine sameSlots_of_data fun adr (noData : ¬ DataPage busy roots p.state _) => ?_
    rw [stored, Function.update_of_ne]
    rintro rfl
    exact noData (dataPage_later steady.grown.unused steady.grown.busy (ready.target.locate_data inside))
  have grown := grown_trans steady.grown (grown_of_slots steady.grown.tables slots fun _ used => used)
  rw [steady.cursor1 inside] at ran1
  have bounded := bounded_of_grown ready grown
  obtain ⟨first, -⟩ := advance_walked ready.fresh bounded grown.tables ready.target.member ran1
  have bounded' : Bounded busy middle := bounded.later first.grown.busy
  obtain ⟨second, -⟩ := advance_walked ready.fresh bounded' first.grown.tables ready.source.member ran2
  refine ⟨middle, ⟨grown_trans grown (grown_trans first.grown second.grown), fun more => ?_⟩, stored, grown,
    first, second, ran1, ran2⟩
  exact cursor_of_stays (located.not_wraps more) ran1

theorem Turned.byte_data (turned : Turned A busy shared roots s dst src count i p p' middle)
    (data : DataPage busy roots s (adr / pageSize)) : p'.state.mem adr = p.stored.mem adr :=
  (walked_trans turned.first turned.second).byte_data (dataPage_later turned.grown.unused turned.grown.busy data)

theorem Turned.byte_other (turned : Turned A busy shared roots s dst src count i p p' middle)
    (data : DataPage busy roots s (adr / pageSize)) (other : adr ≠ dst.locate s.mem i) :
    p'.state.mem adr = p.state.mem adr := by
  rw [turned.byte_data data, turned.stored, Function.update_of_ne other]

section
variable (ready : Ready A busy shared roots s dst src count)
include ready

theorem vmmMemcpy_loop (positive : 0 < count)
    (ran : vmmMemcpy A s (dst.root * pageSize) dst.base (src.root * pageSize) src.base count = some s') :
    ∃ p, (List.range count).foldlM (fun p _ => copyByte A (dst.root * pageSize) (src.root * pageSize) p)
      ⟨s, dst.cursor s.mem 0, src.cursor s.mem 0⟩ = some p ∧ p.state = s' := by
  obtain ⟨cursor1, s1, cursor2, s2, p, first, second, looped, ends⟩ := vmmMemcpy_cases ran
  rw [start_reached A (ready.target.reached positive)] at first
  cases first
  rw [start_reached A (ready.source.reached positive)] at second
  cases second
  exact ⟨p, looped, ends⟩

theorem steady_start : Steady busy shared roots s dst count 0 ⟨s, dst.cursor s.mem 0, cursor2⟩ :=
  ⟨grown_refl ready.tables, fun _ => rfl⟩

/-! ### Bytes that are read elsewhere -/

/-- A byte is what it was, what a walk leaves, or one of the source. -/
def Strayed (before after : BitVec 8) : Prop := Marked before after ∨ after = 1

/-- The source is read where it should be up to a byte, and that one elsewhere. -/
structure Misread (A : Allocator α) (busy : α → Nat → Prop) (shared : Fin 512 → Prop) (roots : Set Nat)
    (s : State α) (src : Side) (k adr : Nat) (visits : Nat → Cursor → Prop) : Prop where
  edge : Edge adr
  first : visits 0 (src.cursor s.mem 0)
  reads : ∀ i < k, ∀ c, visits i c → c.place = src.locate s.mem i
  strays : ∀ c, visits k c → c.place = adr
  onward : ∀ i < k, ∀ c c' s1 s2, Grown busy shared roots s s1 → Bounded busy s1 → visits i c →
    advance A s1 (src.root * pageSize) c = some (c', s2) → visits (i + 1) c'

/-- The state of a loop that misreads a byte. -/
structure Misreading (busy : α → Nat → Prop) (shared : Fin 512 → Prop) (roots : Set Nat) (s : State α)
    (dst src : Side) (count k adr : Nat) (visits : Nat → Cursor → Prop) (i : Nat) (p : Progress α) : Prop where
  steady : Steady busy shared roots s dst count i p
  source : ∀ j < count, p.state.mem (src.locate s.mem j) = s.mem (src.locate s.mem j)
  before : i ≤ k → visits i p.cursor2 ∧ Strayed (s.mem adr) (p.state.mem adr)
  after : k < i → Strayed (s.mem adr) (p.state.mem (dst.locate s.mem k))

theorem copyByte_misreading (located : Located s.mem dst count) (misread : Misread A busy shared roots s src k adr visits) (within : k < count)
    (ones : ∀ i < k, s.mem (src.locate s.mem i) = 1) (inside : i < count)
    (misreading : Misreading busy shared roots s dst src count k adr visits i p)
    (ran : copyByte A (dst.root * pageSize) (src.root * pageSize) p = some p') :
    Misreading busy shared roots s dst src count k adr visits (i + 1) p' := by
  obtain ⟨middle, turned⟩ := copyByte_turned ready located inside misreading.steady ran
  refine ⟨turned.steady, fun j below => ?_, fun early => ?_, fun late => ?_⟩
  · rw [turned.byte_other (ready.source.locate_data below) (ready.locate_apart inside below).symm]
    exact misreading.source j below
  · obtain ⟨here, strayed⟩ := misreading.before (by omega)
    have grown := grown_trans turned.grown turned.first.grown
    refine ⟨misread.onward i early _ _ _ _ grown (bounded_of_grown ready grown) here turned.ran2, ?_⟩
    -- the bytes copied so far are all 1
    have stored : Strayed (s.mem adr) (p.stored.mem adr) := by
      rw [turned.stored]
      by_cases own : adr = dst.locate s.mem i
      · rw [own, Function.update_self, misread.reads i early _ here, misreading.source i inside, ones i early]
        exact Or.inr rfl
      · simp_all
    have walked := (walked_trans turned.first turned.second).byte adr misread.edge
    rcases walked with same | new
    · rwa [same]
    · exact Or.inl (Or.inr new)
  · have data := ready.target.locate_data within
    by_cases now : i = k
    · obtain ⟨here, strayed⟩ := misreading.before (by omega)
      rw [turned.byte_data data, turned.stored, now, Function.update_self, misread.strays _ (now ▸ here)]
      exact strayed
    · have other : dst.locate s.mem k ≠ dst.locate s.mem i := fun same =>
        now (ready.target.locate_injective within inside same).symm
      rw [turned.byte_other data other]
      exact misreading.after (by omega)

theorem vmmMemcpy_misreads (located : Located s.mem dst count) (misread : Misread A busy shared roots s src k adr visits) (within : k < count)
    (ones : ∀ i < k, s.mem (src.locate s.mem i) = 1)
    (ran : vmmMemcpy A s (dst.root * pageSize) dst.base (src.root * pageSize) src.base count = some s') :
    Strayed (s.mem adr) (s'.mem (dst.locate s.mem k)) := by
  obtain ⟨p, looped, rfl⟩ := vmmMemcpy_loop ready (by omega) ran
  have begins : Misreading busy shared roots s dst src count k adr visits 0
      ⟨s, dst.cursor s.mem 0, src.cursor s.mem 0⟩ :=
    ⟨steady_start ready, fun _ _ => rfl, fun _ => ⟨misread.first, Or.inl (Or.inl rfl)⟩, fun late => by omega⟩
  have ends := foldlM_range_keeps (fun i inside p p' misreading turned =>
    copyByte_misreading ready located misread within ones inside misreading turned) begins looped
  exact ends.after within

end

theorem wraps_last (edge : side.offset + (i + 1) + 1 = pageSize) : (side.cursor mem i).Wraps := by
  simp_all [Cursor.Wraps, Side.cursor, Nat.add_assoc]

section
variable (ready : Ready A busy shared roots s dst src count)
include ready

theorem misread_last (positive : 0 < k) (inside : k < count) (last : src.offset + k + 1 = pageSize) :
    Misread A busy shared roots s src k (translation s.mem src.root (src.base + 0x1000)).toNat fun i c =>
      if i < k then c = src.cursor s.mem i
      else c.physAddr = translation s.mem src.root (src.base + 0x1000) ∧ c.alignDifference = 0 := by
  have located : Located s.mem src k := Or.inl (by omega)
  refine ⟨edge_of_aligned (translation_aligned _ _ _), ?_, fun i below c here => ?_, fun c here => ?_,
    fun i below c c' s1 s2 grown bounded here ran => ?_⟩
  · rw [if_pos positive]
  · rw [if_pos below] at here
    rw [here]
    exact located.place_cursor below fun k' early => ready.source.present k' (by omega)
  · rw [if_neg (Nat.lt_irrefl k)] at here
    rw [Cursor.place, here.1, here.2]
    exact congrArg BitVec.toNat (BitVec.add_zero _)
  · rw [if_pos below] at here
    by_cases early : i + 1 < k
    · rw [here] at ran
      rw [if_pos early]
      exact cursor_of_stays (located.not_wraps early) ran
    · -- the turn before the byte left over goes to the next page
      rw [if_neg early]
      have wraps : c.Wraps := here ▸ wraps_last (by omega)
      obtain ⟨-, found⟩ := advance_walked ready.fresh bounded grown.tables ready.source.member ran
      obtain ⟨phys, zero, -⟩ := found wraps
      refine ⟨?_, zero⟩
      rw [phys, grown.same src.root ready.source.member, here]
      rfl

theorem misread_next (edge : src.offset + 1 = pageSize)
    (more : 1 < count) : Misread A busy shared roots s src 1 (translation s.mem src.root src.base + 0x1000).toNat
      fun i c => c = src.cursor s.mem i := by
  refine ⟨edge_of_aligned (next_aligned (translation_aligned _ _ _)), rfl, fun i below c here => ?_,
    fun c here => ?_, fun i below c c' s1 s2 _ _ here ran => ?_⟩
  · obtain rfl : i = 0 := by omega
    rw [here, ready.source.place_first (by omega)]
  · have place := @place_cursor_next src 0 s.mem edge (by decide)
    rw [here, place, Nat.add_zero]
  · grind [Cursor.Wraps, Side.cursor, pageSize, cursor_of_stays]

theorem exists_misread (small : count ≤ pageSize) (scattered : ¬ Located s.mem src count) :
    ∃ k < count, ∃ adr ≠ src.locate s.mem k, ∀ t, Variant s t dst src count → ∃ visits,
      Misread A busy shared roots t src k adr visits := by
  rcases cases_of_not_located scattered with ⟨k, positive, inside, last⟩ | ⟨edge, more, -, apart⟩
  · have whole : src.offset + k + 1 = pageSize := by
      have offset := src.offset_lt
      simp only [pageSize] at last small offset ⊢
      omega
    refine ⟨k, inside, (translation s.mem src.root (src.base + 0x1000)).toNat, ?_, fun t variant => ?_⟩
    · have place := src.locate_mod s.mem k
      grind [translation_aligned, pageSize]
    · have misread := misread_last (variant.ready ready) positive inside whole
      rw [variant.translation ready ready.source.member] at misread
      exact ⟨_, misread⟩
  · refine ⟨1, more, (translation s.mem src.root src.base + 0x1000).toNat, ?_, fun t variant => ?_⟩
    · intro same
      apply apart
      apply BitVec.eq_of_toNat_eq
      rw [same, src.locate_eq (ready.source.present 1 more), edge, Nat.mod_self, Nat.add_zero]
    · have misread := misread_next (variant.ready ready) edge more
      rw [variant.translation ready ready.source.member] at misread
      exact ⟨_, misread⟩

theorem exists_odd (inside : k < count) (elsewhere : adr ≠ src.locate s.mem k) :
    ∃ t, Variant s t dst src count ∧ (∀ i < k, t.mem (src.locate t.mem i) = 1) ∧
      ¬ Strayed (t.mem adr) (t.mem (src.locate t.mem k)) := by
  classical
  obtain ⟨odd, notOld, notMark, notOne⟩ : ∃ odd : BitVec 8, odd ≠ s.mem adr ∧ ¬ (odd = 0 ∨ odd = 7) ∧ odd ≠ 1 := by
    by_cases two : s.mem adr = 2
    · exact ⟨3, by rw [two]; decide, by decide, by decide⟩
    · exact ⟨2, fun same => two same.symm, by decide, by decide⟩
  obtain ⟨t, alloc, mem⟩ := exists_with_mem s fun place =>
    if place = src.locate s.mem k then odd
    else if ∃ i < count, place = src.locate s.mem i then 1 else s.mem place
  have variant : Variant s t dst src count := by
    refine ⟨alloc, fun place outside => ?_⟩
    have source (i : Nat) (below : i < count) : place ≠ src.locate s.mem i := fun same =>
      (outside i below).2 (same ▸ src.locate_div s.mem i)
    simp_all
  refine ⟨t, variant, fun i below => ?_, ?_⟩
  · have other : src.locate s.mem i ≠ src.locate s.mem k := fun same => by
      have := ready.source.locate_injective (by omega) inside same
      omega
    rw [(variant.locate ready i).2, mem]
    simp only [other, if_false]
    exact if_pos ⟨i, by omega, rfl⟩
  · rw [(variant.locate ready k).2, mem]
    simp only [elsewhere, if_true, if_false]
    split
    · rintro ((same | marked) | one)
      exacts [notOne same, notMark marked, notOne one]
    · rintro ((same | marked) | one)
      exacts [notOld same, notMark marked, notOne one]

theorem located_source (located : Located s.mem dst count)
    (always : AlwaysExact A s dst src count) : Located s.mem src count := by
  by_contra scattered
  have small : count ≤ pageSize := by
    rcases located with short | ⟨-, single | ⟨small, -⟩⟩
    · omega
    · rw [single]
      decide
    · exact small
  obtain ⟨k, inside, adr, elsewhere, misread⟩ := exists_misread ready small scattered
  obtain ⟨t, variant, ones, odd⟩ := exists_odd ready inside elsewhere
  obtain ⟨visits, misread⟩ := misread t variant
  obtain ⟨s', ran, copies, -⟩ := always t variant
  have located' : Located t.mem dst count := by
    rw [Located, variant.translation ready ready.target.member, variant.translation ready ready.target.member]
    exact located
  have strayed := vmmMemcpy_misreads (variant.ready ready) located' misread inside ones ran
  rw [copies k inside] at strayed
  exact odd strayed

end

/-! ### Tables that are made -/

/-- The state of a loop that goes on from both first walks. A page that the last turn
looks up has its table then. -/
structure Following (busy : α → Nat → Prop) (shared : Fin 512 → Prop) (roots : Set Nat) (s : State α)
    (dst src : Side) (count i : Nat) (p : Progress α) : Prop where
  steady : Steady busy shared roots s dst count i p
  cursor2 : i < count → p.cursor2 = src.cursor s.mem i
  target : 0 < i → i = count → dst.offset + i + 1 = pageSize → Reached p.state.mem dst.root (dst.base + 0x1000)
  source : 0 < i → i = count → src.offset + i + 1 = pageSize → Reached p.state.mem src.root (src.base + 0x1000)

section
variable (ready : Ready A busy shared roots s dst src count)
include ready

theorem copyByte_following (located : Located s.mem dst count)
    (located' : Located s.mem src count) (inside : i < count)
    (following : Following busy shared roots s dst src count i p)
    (ran : copyByte A (dst.root * pageSize) (src.root * pageSize) p = some p') :
    Following busy shared roots s dst src count (i + 1) p' := by
  obtain ⟨middle, turned⟩ := copyByte_turned ready located inside following.steady ran
  have grown := grown_trans turned.grown turned.first.grown
  have ran2 := turned.ran2
  rw [following.cursor2 inside] at ran2
  refine ⟨turned.steady, fun more => ?_, fun _ _ edge => ?_, fun _ _ edge => ?_⟩
  · exact cursor_of_stays (located'.not_wraps more) ran2
  · obtain ⟨-, found⟩ := advance_walked ready.fresh (bounded_of_grown ready turned.grown) turned.grown.tables
      ready.target.member turned.ran1
    exact reached_grown turned.second.grown ready.target.member (found (wraps_last edge)).2.2
  · obtain ⟨-, found⟩ := advance_walked ready.fresh (bounded_of_grown ready grown) grown.tables
      ready.source.member ran2
    exact (found (wraps_last edge)).2.2

theorem reached_of_exact (same : ∀ adr, (∀ k < count, adr ≠ dst.locate s.mem k) → s'.mem adr = s.mem adr) (member : root ∈ roots)
    (reached : Reached s'.mem root virtualAddress) : Reached s.mem root virtualAddress := by
  have slots : SameSlots roots s s' := by
    refine sameSlots_of_data fun adr (noData : ¬ DataPage busy roots s _) => same adr ?_
    rintro k inside rfl
    exact noData (ready.target.locate_data inside)
  obtain ⟨leaf, arrives⟩ := reached
  exact ⟨leaf, ((reach_of_slots ready.tables slots).2 root member _ (directories_short _)).symm.trans arrives⟩

theorem reached_first (copies : CopiesExactly A s dst src count) :
    Reached s.mem dst.root dst.base ∧ Reached s.mem src.root src.base := by
  rcases Nat.eq_zero_or_pos count with none | positive
  · subst none
    obtain ⟨s', ran, -, same⟩ := copies
    obtain ⟨cursor1, s1, cursor2, s2, p, first, second, looped, rfl⟩ := vmmMemcpy_cases ran
    cases looped
    obtain ⟨walked, found⟩ := start_walked ready.fresh (bounded_of_ready ready) ready.tables ready.target.member first
    obtain ⟨walked', found'⟩ := start_walked ready.fresh (bounded_of_grown ready walked.grown)
      walked.grown.tables ready.source.member second
    exact ⟨reached_of_exact ready same ready.target.member
      (reached_grown walked'.grown ready.target.member found),
      reached_of_exact ready same ready.source.member found'⟩
  · exact ⟨ready.target.reached positive, ready.source.reached positive⟩

theorem clear_of_exact (located : Located s.mem dst count)
    (located' : Located s.mem src count) (copies : CopiesExactly A s dst src count) :
    Clear s.mem dst count ∧ Clear s.mem src count := by
  obtain ⟨first, first'⟩ := reached_first ready copies
  obtain ⟨s', ran, -, same⟩ := copies
  have ends (positive : 0 < count) : ∃ p, Following busy shared roots s dst src count count p ∧ p.state = s' := by
    obtain ⟨p, looped, final⟩ := vmmMemcpy_loop ready positive ran
    have begins : Following busy shared roots s dst src count 0 ⟨s, dst.cursor s.mem 0, src.cursor s.mem 0⟩ :=
      ⟨steady_start ready, fun _ => rfl, fun late => absurd late (by decide), fun late => absurd late (by decide)⟩
    exact ⟨p, foldlM_range_keeps (fun i inside p p' following turned =>
      copyByte_following ready located located' inside following turned) begins looped, final⟩
  refine ⟨⟨located, first, fun positive edge => ?_⟩, located', first', fun positive edge => ?_⟩
  · obtain ⟨p, following, rfl⟩ := ends positive
    exact reached_of_exact ready same ready.target.member (following.target positive rfl edge)
  · obtain ⟨p, following, rfl⟩ := ends positive
    exact reached_of_exact ready same ready.source.member (following.source positive rfl edge)

end

theorem variant_refl (s : State α) (dst src : Side) (count : Nat) : Variant s s dst src count :=
  ⟨rfl, fun _ _ => rfl⟩

/-- The copy is the one that was asked for, whatever the bytes are, exactly when both
sides are clear: they end before the last byte of the page they begin in, or begin with
it and go on in the frame that follows, and the tables of every page that is looked up
are there. -/
theorem always_exact_iff (ready : Ready A busy shared roots s dst src count) :
    AlwaysExact A s dst src count ↔ Clear s.mem dst count ∧ Clear s.mem src count := by
  constructor
  · intro always
    have located := located_target ready always
    have located' := located_source ready located always
    exact clear_of_exact ready located located' (always s (variant_refl s dst src count))
  · rintro ⟨clear, clear'⟩
    exact alwaysExact_of_clear ready clear clear'

end

/-! ### Three pages -/

/-- A page is taken, or there is no such page. -/
def InUse (pmm : Pmm.State) (page : Nat) : Prop := pmm.Taken page ∨ pmm.limit ≤ page

instance (pmm : Pmm.State) (page : Nat) : Decidable (InUse pmm page) :=
  inferInstanceAs (Decidable (_ ∨ _))

theorem pmm_handsOut_existing : HandsOut pmmAllocator InUse 1 where
  given := by
    intro pmm after adr ran
    obtain ⟨_, lowest, inside, free, _, rfl, rfl⟩ := PmmProofs.pmalloc_cases ran
    have fits : (lowest + 1) * pageSize ≤ wordSize := PmmProofs.fits_of_below_limit inside
    refine ⟨lowest, rfl, ?_, fun page low high => ?_, fun page => ?_⟩
    · simp only [pageSize, wordSize] at fits
      omega
    · rw [show page = lowest by omega]
      exact not_or.mpr ⟨free, Nat.not_le.mpr inside⟩
    · simp only [InUse, State.limit, pmmAllocPages_highestPage, taken_pmmAllocPages pmm fits]
      exact or_right_comm

/-- Sixteen pages; page 1 is to be the top level, and page 4 has bytes that are not 0. -/
def fivePages : State Pmm.State :=
  ⟨fun adr => if adr / 0x1000 = 4 then 1 else 0,
    ⟨fun byte => if byte = 0 then 0b11111 else 0, 0x10000, sixteenPages_bounded⟩⟩

/-- The first three pages of a pagemap, in the frames 2, 3 and 4. -/
def mapThree : Option (State Pmm.State) :=
  [(0x2000, 0), (0x3000, 0x1000), (0x4000, 0x2000)].foldlM (fun s (page : BitVec 64 × BitVec 64) =>
    vmmMapPage pmmAllocator s (1 * pageSize) page.1 page.2 0b111) fivePages

def threePages : State Pmm.State := mapThree.getD fivePages

theorem fivePages_blank (index : Fin 512) : slot fivePages.mem 1 index = 0 := by
  rw [← word_zero (1 * pageSize + index * 8)]
  refine word_congr fun k small => if_neg ?_
  grind [pageSize]

theorem fivePages_data (low : 2 ≤ page) (high : page < 5) : DataPage InUse {1} fivePages page := by
  constructor
  · have used : ∀ page < 5, InUse fivePages.alloc page := by decide
    exact used page high
  · rintro _ rfl path - reached
    cases path with
    | nil =>
      cases reached
      omega
    | cons index rest =>
      rw [reach, next, fivePages_blank] at reached
      cases reached

theorem threePages_mapped : Tables InUse threePages Alone {1} ∧
    ∀ page, 2 ≤ page → page < 5 → DataPage InUse {1} threePages page := by
  have blank : Tables InUse fivePages Alone {1} := (blank_tables fivePages_blank (by decide) (by decide)).1
  obtain ⟨s, ran⟩ := Option.isSome_iff_exists.mp (show mapThree.isSome by decide +kernel)
  have same : threePages = s := by rw [threePages, ran, Option.getD_some]
  have one (s : State Pmm.State) (page : BitVec 64 × BitVec 64) (s' : State Pmm.State)
      (tables : Tables InUse s Alone {1})
      (turned : vmmMapPage pmmAllocator s (1 * pageSize) page.1 page.2 0b111 = some s') :
      Mapped InUse Alone {1} s s' 1 [(pageOf page.2, page.1 ||| 0b111)] :=
    vmmMapPage_mapped pmm_handsOut_existing tables rfl turned
  have mapped := foldlM_mapped one blank ran
  rw [same]
  exact ⟨mapped.tables, fun page low high => dataPage_later mapped.unused mapped.still (fivePages_data low high)⟩

theorem threePages_backed {side : Side} (root : side.root = 1) (within : side.offset + count ≤ pageSize)
    (present : isPresent (side.entry threePages.mem 0) = true)
    (frame : side.frame threePages.mem 0 = page) (low : 2 ≤ page) (high : page < 5) :
    (∀ k < count, side.frame threePages.mem k = page) ∧ Backed InUse {1} threePages side count := by
  have entry (k : Nat) (inside : k < count) : side.entry threePages.mem k = side.entry threePages.mem 0 := by
    apply leafEntry_congr
    rw [side.pageOf_base (by omega), side.address_zero]
  have frames (k : Nat) (inside : k < count) : side.frame threePages.mem k = page := by
    rw [← frame, Side.frame, entry k inside, Side.frame]
  refine ⟨frames, root, fun k inside => ?_, fun k inside => ?_, fun k inside k' inside' _ => ?_⟩
  · rw [entry k inside]
    exact present
  · simp_all [threePages_mapped]
  · rw [Nat.div_eq_of_lt (by omega), Nat.div_eq_of_lt (by omega)]

theorem threePages_ready (side : Side) (within : side.offset + count ≤ pageSize) (first : side.root = 1)
    (present : isPresent (side.entry threePages.mem 0) = true) (frame : side.frame threePages.mem 0 = 2) :
    Ready pmmAllocator InUse Alone {1} threePages side ⟨1, 0x2000⟩ count := by
  obtain ⟨target, backed⟩ := threePages_backed first within present frame (by decide) (by decide)
  have third : Side.offset ⟨1, 0x2000⟩ = 0 := by decide
  have source := @threePages_backed count 4 ⟨1, 0x2000⟩ rfl (by omega) (by decide +kernel) (by decide +kernel)
    (by decide) (by decide)
  refine ⟨pmm_handsOut_existing, fun page free => ?_, threePages_mapped.1, backed, source.2,
    fun k inside k' inside' => ?_⟩
  · have limit : threePages.alloc.limit = 16 := by decide +kernel
    have below := Nat.not_le.mp fun beyond => free (Or.inr beyond)
    omega
  · simp_all

theorem hundred_bytes_copied : AlwaysExact pmmAllocator threePages ⟨1, 0x800⟩ ⟨1, 0x2000⟩ 100 := by
  have ready := threePages_ready ⟨1, 0x800⟩ (by decide : 0x800 + 100 ≤ pageSize) rfl
    (by decide +kernel) (by decide +kernel)
  apply (always_exact_iff ready).mpr
  refine ⟨⟨Or.inl (by decide), ready.target.reached (by decide), fun _ edge => ?_⟩,
    Or.inl (by decide), ready.source.reached (by decide), fun _ edge => ?_⟩
  · exact absurd edge (by decide)
  · exact absurd edge (by decide)

/-- Of two bytes that go to the end of a page the second is stored in the next page. -/
theorem last_byte_left : Ready pmmAllocator InUse Alone {1} threePages ⟨1, 0xffe⟩ ⟨1, 0x2000⟩ 2 ∧
    ¬ CopiesExactly pmmAllocator threePages ⟨1, 0xffe⟩ ⟨1, 0x2000⟩ 2 := by
  refine ⟨threePages_ready ⟨1, 0xffe⟩ (by decide : 0xffe + 2 ≤ pageSize) rfl
    (by decide +kernel) (by decide +kernel), ?_⟩
  rintro ⟨s', ran, copies, -⟩
  have second := copies 1 (by decide)
  have places : Side.locate ⟨1, 0xffe⟩ threePages.mem 1 = 0x2fff ∧
      threePages.mem (Side.locate ⟨1, 0x2000⟩ threePages.mem 1) = 1 := by decide +kernel
  have left : (vmmMemcpy pmmAllocator threePages (1 * pageSize) 0xffe (1 * pageSize) 0x2000 2).map
      (fun s => s.mem 0x2fff) = some 0 := by decide +kernel
  rw [ran] at left
  have old : s'.mem 0x2fff = 0 := Option.some.inj left
  rw [places.1, places.2, old] at second
  exact absurd second (by decide)

end MandelbrotOS.VmmMemcpyFaults
