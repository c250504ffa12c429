import MandelbrotOS.Forests
import MandelbrotOS.Runs
import MandelbrotOS.Vmm

/-! What the page tables in memory mean, and the invariant every operation on
them keeps. A table is a node, numbered by its page; the three levels above
the leaves are a forest, so a write to one table is seen through one path
only. Descending may add tables and changes no translation. -/
namespace MandelbrotOS.PageTables
open ByteMemory Forests Pmm Runs Vmm

/-! ### Entries -/

theorem isPresent_eq (entry : BitVec 64) : isPresent entry = entry.getLsbD 0 := by
  rw [isPresent, show (1 : BitVec 64) = 1#64 from rfl, BitVec.and_one_eq_setWidth_ofBool_getLsbD]
  cases entry.getLsbD 0 <;> decide

private theorem getLsbD_mask (i : Nat) :
    (~~~(0xfff : BitVec 64)).getLsbD i = decide (12 ≤ i ∧ i < 64) := by
  have bits : ∀ i : Fin 64, (~~~(0xfff : BitVec 64)).getLsbD i = decide (12 ≤ i.val) := by decide
  by_cases inside : i < 64
  · rw [bits ⟨i, inside⟩]
    simp [inside]
  · simp_all

private theorem getLsbD_addressOf (entry : BitVec 64) (i : Nat) :
    (addressOf entry).getLsbD i = (decide (12 ≤ i) && entry.getLsbD i) := by
  grind [addressOf, getLsbD_mask]

/-- The table an entry points to, as a page number. -/
def frameOf (entry : BitVec 64) : Nat := (addressOf entry).toNat / pageSize

theorem addressOf_toNat (entry : BitVec 64) : (addressOf entry).toNat = frameOf entry * pageSize := by
  have shifted : addressOf entry = (addressOf entry >>> 12) <<< 12 := by
    apply BitVec.eq_of_getLsbD_eq
    grind [getLsbD_addressOf]
  have round := congrArg BitVec.toNat shifted
  grind [Nat.shiftLeft_eq, frameOf, pageSize]

private theorem getLsbD_low_mask (i : Nat) : (0xfff : BitVec 64).getLsbD i = decide (i < 12) := by
  have bits : ∀ i : Fin 64, (0xfff : BitVec 64).getLsbD i = decide (i.val < 12) := by decide
  by_cases inside : i < 64
  · exact bits ⟨i, inside⟩
  · grind

theorem addressOf_or {page flags : BitVec 64} (aligned : page &&& 0xfff = 0)
    (small : flags < 0x1000) : addressOf (page ||| flags) = page := by
  apply BitVec.eq_of_getLsbD_eq
  intro i inside
  rw [getLsbD_addressOf, BitVec.getLsbD_or]
  by_cases low : i < 12
  · have zero := congrArg (fun bits => bits.getLsbD i) aligned
    simp only [BitVec.getLsbD_and, getLsbD_low_mask, low, decide_true, Bool.and_true] at zero
    rw [zero]
    simp [low]
  · have high : flags.getLsbD i = false :=
      Nat.testBit_lt_two_pow (Nat.lt_of_lt_of_le (BitVec.lt_def.mp small)
        (Nat.pow_le_pow_right (by decide) (Nat.not_lt.mp low) : 2 ^ 12 ≤ 2 ^ i))
    simp [Nat.not_lt.mp low, high]

theorem leafAddress_entry (aligned : physicalAddress &&& 0xfff = 0) (small : flags < 0x1000)
    (present : isPresent flags = true) : leafAddress (physicalAddress ||| flags) = physicalAddress := by
  have kept : isPresent (physicalAddress ||| flags) = true := by
    simp_all [isPresent_eq]
  rw [leafAddress, kept, addressOf_or aligned small]
  rfl

/-- The physical address of a page. -/
def pageAddress (page : Nat) : BitVec 64 := BitVec.ofNat 64 (page * pageSize)

theorem pageAddress_injective (small : page < 2 ^ 52) (small' : other < 2 ^ 52)
    (same : pageAddress page = pageAddress other) : page = other := by
  have numbers := congrArg BitVec.toNat same
  grind [pageAddress, pageSize]

theorem pageAddress_add (first page : Nat) :
    pageAddress first + BitVec.ofNat 64 (page * pageSize) = pageAddress (first + page) := by
  rw [pageAddress, pageAddress, ← BitVec.ofNat_add, Nat.add_mul]

theorem pageAddress_aligned (page : Nat) : pageAddress page &&& 0xfff = 0 := by
  apply BitVec.eq_of_getLsbD_eq
  intro i inside
  rw [BitVec.getLsbD_and, getLsbD_low_mask, pageAddress, BitVec.getLsbD_ofNat,
    show page * pageSize = page <<< 12 by rw [Nat.shiftLeft_eq]; rfl, Nat.testBit_shiftLeft]
  simp_all

theorem link_entry (small : frame < 2 ^ 52) :
    isPresent (pageAddress frame ||| 0b111) = true ∧ frameOf (pageAddress frame ||| 0b111) = frame := by
  grind [isPresent_eq, frameOf, addressOf_or, pageAddress_aligned, pageAddress, pageSize]

/-! ### Tables in memory -/

/-- The entry of a table, the table being given by its page number. -/
def slot (mem : Memory) (table : Nat) (index : Fin 512) : BitVec 64 :=
  entryAt mem (table * pageSize) index

theorem slot_storeWord (mem : Memory) (table other : Nat) (index index' : Fin 512) (entry : BitVec 64) :
    slot (storeWord mem (table * pageSize + index * 8) entry) other index' =
      if other = table ∧ index' = index then entry else slot mem other index' := by
  rw [slot, slot, entryAt, entryAt]
  by_cases same : other = table ∧ index' = index
  · obtain ⟨rfl, rfl⟩ := same
    rw [if_pos ⟨rfl, rfl⟩, word_storeWord_self]
  · rw [if_neg same, word_storeWord_apart]
    rw [Fin.ext_iff] at same
    have small := index.isLt
    have small' := index'.isLt
    simp only [pageSize]
    omega

theorem slot_fill_page (mem : Memory) (table other : Nat) (index : Fin 512) :
    slot (fill mem (table * pageSize) pageSize 0) other index =
      if other = table then 0 else slot mem other index := by
  simp only [slot, entryAt]
  grind [word_fill_zero, pageSize, word_fill_apart]

theorem slot_fill_apart (inside : count ≤ pages * pageSize)
    (apart : table < first ∨ first + pages ≤ table) :
    slot (fill mem (first * pageSize) count byte) table index = slot mem table index := by
  apply word_fill_apart
  simp only [pageSize] at inside ⊢
  omega

theorem slot_copy_apart (inside : offset + count ≤ pages * pageSize)
    (apart : table < first ∨ first + pages ≤ table) :
    slot (copy mem (first * pageSize + offset) count bytes) table index = slot mem table index := by
  apply word_copy_apart
  simp only [pageSize] at inside ⊢
  omega

/-- The table an entry of a table leads to. -/
def next (mem : Memory) (table : Nat) (index : Fin 512) : Option Nat :=
  if isPresent (slot mem table index) then some (frameOf (slot mem table index)) else none

/-- The path of an address down to its last table. -/
def directories (virtualAddress : BitVec 64) : List (Fin 512) :=
  [pmlEntry 39 virtualAddress, pmlEntry 30 virtualAddress, pmlEntry 21 virtualAddress]

theorem directories_short (virtualAddress : BitVec 64) : (directories virtualAddress).length ≤ 3 :=
  Nat.le_refl 3

/-- What the tables in memory translate an address to. -/
def translation (mem : Memory) (top : Nat) (virtualAddress : BitVec 64) : BitVec 64 :=
  match reach (next mem) top (directories virtualAddress) with
  | some table => leafAddress (slot mem table (pmlEntry 12 virtualAddress))
  | none => 0

/-- The last-level entry of an address, or 0 where the tables do not lead. -/
def leafEntry (mem : Memory) (top : Nat) (virtualAddress : BitVec 64) : BitVec 64 :=
  match reach (next mem) top (directories virtualAddress) with
  | some table => slot mem table (pmlEntry 12 virtualAddress)
  | none => 0

theorem translation_eq (mem : Memory) (top : Nat) (virtualAddress : BitVec 64) :
    translation mem top virtualAddress = leafAddress (leafEntry mem top virtualAddress) := by
  rw [translation, leafEntry]
  cases reach (next mem) top (directories virtualAddress) with
  | none => exact (by decide : (0 : BitVec 64) = leafAddress 0)
  | some table => rfl

/-! ### The allocator the tables come from -/

/-- A request for this many pages is answered, when it is, with pages that are
not in use, and they are in use afterwards. -/
def HandsOutAt (A : Allocator α) (busy : α → Nat → Prop) (a : α) (pages : Nat) : Prop :=
  ∀ a' adr, A.pmalloc a pages = some (adr, a') → ∃ first, adr = first * pageSize ∧
    first + pages ≤ 2 ^ 52 ∧ (∀ page, first ≤ page → page < first + pages → ¬ busy a page) ∧
    ∀ page, busy a' page ↔ busy a page ∨ (first ≤ page ∧ page < first + pages)

/-- The same in every state of the allocator. -/
structure HandsOut (A : Allocator α) (busy : α → Nat → Prop) (pages : Nat) : Prop where
  given : ∀ a, HandsOutAt A busy a pages

theorem address_ne_null {busy : α → Nat → Prop} (null : busy a 0) (unused : ¬ busy a frame) : frame * pageSize ≠ 0 :=
  Nat.mul_ne_zero (fun first => unused (first ▸ null)) (by decide)

theorem pcalloc_page {A : Allocator α} {busy : α → Nat → Prop} (fresh : HandsOut A busy 1)
    (null : busy s.alloc 0) (ran : pcalloc A s 1 = some (adr, s')) :
    ∃ frame, adr = frame * pageSize ∧ frame < 2 ^ 52 ∧ ¬ busy s.alloc frame ∧
      (∀ page, busy s'.alloc page ↔ busy s.alloc page ∨ page = frame) ∧
      s'.mem = fill s.mem (frame * pageSize) pageSize 0 := by
  unfold pcalloc at ran
  cases served : A.pmalloc s.alloc 1 with
  | none => rw [served] at ran; cases ran
  | some reply =>
    obtain ⟨ret, alloc⟩ := reply
    obtain ⟨frame, rfl, bound, unused, inUse⟩ := fresh.given s.alloc _ _ served
    have notNull := address_ne_null null (unused frame (Nat.le_refl _) (Nat.lt_succ_self _))
    simp only [served, notNull, if_false, Nat.one_mul] at ran
    cases ran
    refine ⟨frame, rfl, by omega, unused frame (Nat.le_refl _) (Nat.lt_succ_self _), ?_, rfl⟩
    grind

/-! ### The invariant -/

/-- The tables of the given top levels form a forest, which the allocator
knows to be in use. Page 0 is in use too, so no table is at `NULL`. -/
structure Tables (busy : α → Nat → Prop) (s : State α) (shared : Fin 512 → Prop) (roots : Set Nat) :
    Prop where
  forest : Forest (next s.mem) 3 shared roots
  owned : ∀ root ∈ roots, ∀ path table, path.length ≤ 3 →
    reach (next s.mem) root path = some table → busy s.alloc table
  null : busy s.alloc 0

/-- No slot is shared, as with a single pagemap. -/
def Alone : Fin 512 → Prop := fun _ => False

/-- New tables are on pages that were not in use. -/
def OnUnused (busy : α → Nat → Prop) (roots : Set Nat) (s s' : State α) : Prop :=
  ∀ root ∈ roots, ∀ path table, path.length ≤ 3 → reach (next s'.mem) root path = some table →
    reach (next s.mem) root path = some table ∨ ¬ busy s.alloc table

/-- The tables have grown: what was reached still is, new tables are on pages
that were not in use, what was in use still is, and every address translates
as before. -/
structure Grown (busy : α → Nat → Prop) (shared : Fin 512 → Prop) (roots : Set Nat) (s s' : State α) :
    Prop where
  tables : Tables busy s' shared roots
  kept : ∀ root ∈ roots, ∀ path table, path.length ≤ 3 →
    reach (next s.mem) root path = some table → reach (next s'.mem) root path = some table
  unused : OnUnused busy roots s s'
  same : ∀ root ∈ roots, ∀ virtualAddress,
    translation s'.mem root virtualAddress = translation s.mem root virtualAddress
  busy : ∀ page, busy s.alloc page → busy s'.alloc page

section
variable {A : Allocator α} {busy : α → Nat → Prop} {shared : Fin 512 → Prop} {roots : Set Nat}

theorem blank_tables (blank : ∀ index, slot s.mem top index = 0) (owned : busy s.alloc top)
    (null : busy s.alloc 0) :
    Tables busy s Alone {top} ∧ ∀ virtualAddress, translation s.mem top virtualAddress = 0 := by
  have alone : ∀ index, next s.mem top index = none := by
    intro index
    rw [next, blank]
    rfl
  have only : ∀ path node, reach (next s.mem) top path = some node → path = [] ∧ node = top := by
    intro path node reached
    cases path with
    | nil => exact ⟨rfl, (Option.some.inj reached).symm⟩
    | cons index rest =>
      rw [reach, alone] at reached
      cases reached
  refine ⟨⟨⟨?_, ?_, ?_, ?_⟩, ?_, null⟩, ?_⟩
  · simp_all
  · rintro _ _ _ _ _ rfl rfl _ _ _ _
    rfl
  · rintro _ _ _ _ _ shared
    exact shared.elim
  · rintro _ _ _ shared
    exact shared.elim
  · grind
  · grind [translation, directories]

theorem grown_refl (tables : Tables busy s shared roots) : Grown busy shared roots s s :=
  ⟨tables, fun _ _ _ _ _ reached => reached, fun _ _ _ _ _ reached => Or.inl reached,
    fun _ _ _ => rfl, fun _ used => used⟩

theorem onUnused_trans (first : OnUnused busy roots s s') (second : OnUnused busy roots s' s'')
    (still : ∀ page, busy s.alloc page → busy s'.alloc page) : OnUnused busy roots s s'' := by
  intro root member path table short reached
  rcases second root member path table short reached with old | new
  · exact first root member path table short old
  · exact Or.inr fun used => new (still table used)

theorem grown_trans (first : Grown busy shared roots s s') (second : Grown busy shared roots s' s'') :
    Grown busy shared roots s s'' := by
  refine ⟨second.tables, ?_, onUnused_trans first.unused second.unused first.busy, ?_,
    fun page used => second.busy page (first.busy page used)⟩
  · intro root member path table short reached
    exact second.kept root member path table short (first.kept root member path table short reached)
  · intro root member virtualAddress
    rw [second.same root member, first.same root member]

/-- No slot of a table differs between the two memories. -/
def SameSlots (roots : Set Nat) (s s' : State α) : Prop :=
  ∀ root ∈ roots, ∀ path table, path.length ≤ 3 → reach (next s.mem) root path = some table →
    ∀ index, slot s'.mem table index = slot s.mem table index

section
variable (tables : Tables busy s shared roots) (slots : SameSlots roots s s')
include tables slots

theorem reach_of_slots : Forest (next s'.mem) 3 shared roots ∧ ∀ root ∈ roots, ∀ path, path.length ≤ 3 →
      reach (next s'.mem) root path = reach (next s.mem) root path := by
  refine forest_congr tables.forest (by decide) ?_
  intro root member path table index short reached
  rw [next, next, slots root member path table (Nat.le_of_lt short) reached]

theorem leafEntry_of_slots (member : root ∈ roots) (virtualAddress : BitVec 64) :
    leafEntry s'.mem root virtualAddress = leafEntry s.mem root virtualAddress := by
  rw [leafEntry, leafEntry,
    (reach_of_slots tables slots).2 root member _ (directories_short virtualAddress)]
  cases reached : reach (next s.mem) root (directories virtualAddress) with
  | none => rfl
  | some leaf => exact slots root member _ leaf (directories_short virtualAddress) reached _

theorem grown_of_slots (still : ∀ page, busy s.alloc page → busy s'.alloc page) : Grown busy shared roots s s' := by
  obtain ⟨forest, same⟩ := reach_of_slots tables slots
  refine ⟨⟨forest, ?_, still 0 tables.null⟩, ?_, ?_, ?_, still⟩
  · intro root member path table short reached
    rw [same root member path short] at reached
    exact still table (tables.owned root member path table short reached)
  · simp_all
  · intro root member path table short reached
    simp_all
  · grind [translation_eq, leafEntry_of_slots]

end

/-- What `pcalloc` hands out and clears: pages in use from now on, and not by
the tables. -/
structure Granted (busy : α → Nat → Prop) (roots : Set Nat) (s' : State α) (first pages : Nat) :
    Prop where
  inUse : ∀ page, first ≤ page → page < first + pages → busy s'.alloc page
  noTable : ∀ root ∈ roots, ∀ path table, path.length ≤ 3 →
    reach (next s'.mem) root path = some table → table < first ∨ first + pages ≤ table

theorem pcalloc_eq (ran : pcalloc A s pages = some (adr, s')) :
    A.pmalloc s.alloc pages = some (adr, s'.alloc) ∧
      s'.mem = if adr = 0 then s.mem else fill s.mem adr (pages * pageSize % wordSize) 0 := by
  unfold pcalloc at ran
  grind

theorem sameSlots_of_pcalloc (tables : Tables busy s shared roots)
    (unused : ∀ page, first ≤ page → page < first + pages → ¬ busy s.alloc page)
    (ran : pcalloc A s pages = some (first * pageSize, s')) :
    SameSlots roots s s' ∧ ∀ root ∈ roots, ∀ path table, path.length ≤ 3 →
      reach (next s.mem) root path = some table → table < first ∨ first + pages ≤ table := by
  have apart : ∀ root ∈ roots, ∀ path table, path.length ≤ 3 →
      reach (next s.mem) root path = some table → table < first ∨ first + pages ≤ table := by
    intro root member path table short reached
    have used := tables.owned root member path table short reached
    grind
  refine ⟨fun root member path table short reached index => ?_, apart⟩
  rw [(pcalloc_eq ran).2]
  split
  · rfl
  · exact slot_fill_apart (Nat.mod_le _ _) (apart root member path table short reached)

theorem pcalloc_grown (fresh : HandsOutAt A busy s.alloc pages) (tables : Tables busy s shared roots)
    (ran : pcalloc A s pages = some (adr, s')) :
    Grown busy shared roots s s' ∧ ∃ first, adr = first * pageSize ∧ Granted busy roots s' first pages := by
  obtain ⟨first, rfl, bound, unused, inUse⟩ := fresh _ _ (pcalloc_eq ran).1
  obtain ⟨slots, apart⟩ := sameSlots_of_pcalloc tables unused ran
  refine ⟨grown_of_slots tables slots fun page used => (inUse page).mpr (Or.inl used), first, rfl,
    fun page low high => (inUse page).mpr (Or.inr ⟨low, high⟩), ?_⟩
  intro root member path table short reached
  rw [(reach_of_slots tables slots).2 root member path short] at reached
  exact apart root member path table short reached

/-- The slots after a page was cleared and an empty slot pointed to it. -/
def LinkStored (mem mem' : Memory) (table : Nat) (index : Fin 512) (frame : Nat) : Prop :=
  ∀ node other, slot mem' node other =
    if node = table ∧ other = index then pageAddress frame ||| 0b111
    else if node = frame then 0 else slot mem node other

private theorem linked_of_stored (bound : frame < 2 ^ 52) (distinct : table ≠ frame)
    (stored : LinkStored mem mem' table index frame) :
    Linked (next mem) (next mem') table index frame := by
  obtain ⟨present, target⟩ := link_entry bound
  refine ⟨?_, fun other => ?_, fun node other apart place => ?_⟩
  · simp only [next, stored table index, and_self, if_true, present, target]
  · have elsewhere : ¬ (frame = table ∧ other = index) := fun place => distinct place.1.symm
    simp only [next, stored frame other, elsewhere, if_false, if_true]
    rfl
  · simp only [next, stored node other, place, apart, if_false]

theorem leafEntry_link (forest : Forest (next mem) 3 shared roots)
    (linkable : Linkable (next mem) 3 roots root path table index frame) (bound : frame < 2 ^ 52)
    (distinct : table ≠ frame) (stored : LinkStored mem mem' table index frame)
    (member : other ∈ roots) (virtualAddress : BitVec 64) :
    leafEntry mem' other virtualAddress = leafEntry mem other virtualAddress := by
  have short := directories_short virtualAddress
  have reached (node : Nat) : reach (next mem') other (directories virtualAddress) = some node ↔ _ :=
    reach_link forest linkable (linked_of_stored bound distinct stored) member short
  unfold leafEntry
  cases before : reach (next mem) other (directories virtualAddress) with
  | some leaf =>
    have notNew : leaf ≠ frame := fun same => linkable.fresh other member _ short (same ▸ before)
    -- the last table is a level below every table that can be extended
    have notParent : leaf ≠ table := by
      intro same
      have way := forest.path_unique member linkable.member short (Nat.le_of_lt linkable.short)
        before (same ▸ linkable.reached)
      have shorter := linkable.short
      rw [← way] at shorter
      exact Nat.lt_irrefl 3 shorter
    rw [(reached leaf).mpr (Or.inl before)]
    simp only [stored leaf, notNew, notParent, false_and, if_false]
  | none =>
    cases after : reach (next mem') other (directories virtualAddress) with
    | none => rfl
    | some leaf =>
      rcases (reached leaf).mp after with old | ⟨_, _, rfl⟩
      · rw [before] at old
        cases old
      · simp only [stored leaf, distinct.symm, false_and, if_false, if_true]

theorem grown_of_linked (tables : Tables busy s shared roots)
    (linkable : Linkable (next s.mem) 3 roots root path table index frame) (bound : frame < 2 ^ 52)
    (unused : ¬ busy s.alloc frame) (inUse : ∀ page, busy s'.alloc page ↔ busy s.alloc page ∨ page = frame)
    (stored : LinkStored s.mem s'.mem table index frame) :
    Grown busy shared roots s s' ∧ reach (next s'.mem) root (path ++ [index]) = some frame := by
  have owned := tables.owned root linkable.member path table (Nat.le_of_lt linkable.short) linkable.reached
  have distinct : table ≠ frame := fun same => unused (same ▸ owned)
  have linked := linked_of_stored bound distinct stored
  have after {other way node} (inside : other ∈ roots) (few : way.length ≤ 3) :
      reach (next s'.mem) other way = some node ↔ _ :=
    reach_link tables.forest linkable linked inside few
  refine ⟨⟨⟨forest_link tables.forest linkable linked, ?_, ?_⟩, ?_, ?_, ?_, ?_⟩, ?_⟩
  · intro other inside way node few arrives
    refine (inUse node).mpr ?_
    rcases (after inside few).mp arrives with old | ⟨_, _, rfl⟩
    · exact Or.inl (tables.owned other inside way node few old)
    · exact Or.inr rfl
  · exact (inUse 0).mpr (Or.inl tables.null)
  · simp_all
  · intro other inside way node few arrives
    grind
  · intro other inside virtualAddress
    rw [translation_eq, translation_eq,
      leafEntry_link tables.forest linkable bound distinct stored inside virtualAddress]
  · exact fun page used => (inUse page).mpr (Or.inl used)
  · refine (after linkable.member ?_).mpr (Or.inr ⟨rfl, linkable.reached, rfl⟩)
    rw [List.length_append]
    exact linkable.short

theorem vmmGetNextLevel_cases (fresh : HandsOut A busy 1) (null : busy s.alloc 0)
    (ran : vmmGetNextLevel A s (table * pageSize) index = some (adr, s')) :
    (isPresent (slot s.mem table index) = true ∧ adr = frameOf (slot s.mem table index) * pageSize ∧
      s' = s) ∨
    (¬ isPresent (slot s.mem table index) = true ∧ ∃ frame, adr = frame * pageSize ∧ frame < 2 ^ 52 ∧
      ¬ busy s.alloc frame ∧ (∀ page, busy s'.alloc page ↔ busy s.alloc page ∨ page = frame) ∧
      s'.mem = storeWord (fill s.mem (frame * pageSize) pageSize 0) (table * pageSize + index * 8)
        (pageAddress frame ||| 0b111)) := by
  unfold vmmGetNextLevel at ran
  by_cases present : isPresent (entryAt s.mem (table * pageSize) index)
  · rw [if_pos present] at ran
    cases ran
    exact Or.inl ⟨present, addressOf_toNat _, rfl⟩
  · rw [if_neg present] at ran
    cases given : pcalloc A s 1 with
    | none => rw [given] at ran; cases ran
    | some reply =>
      obtain ⟨ret, middle⟩ := reply
      obtain ⟨frame, rfl, bound, unused, inUse, cleared⟩ := pcalloc_page fresh null given
      rw [given] at ran
      cases ran
      exact Or.inr ⟨present, frame, rfl, bound, unused, inUse, congrArg (storeWord · _ _) cleared⟩

theorem linkStored_of_fill (mem : Memory) (table : Nat) (index : Fin 512) (frame : Nat) :
    LinkStored mem (storeWord (fill mem (frame * pageSize) pageSize 0) (table * pageSize + index * 8)
      (pageAddress frame ||| 0b111)) table index frame := by
  intro node other
  rw [slot_storeWord, slot_fill_page]

theorem linkable_of_unused (tables : Tables busy s shared roots) (member : root ∈ roots)
    (reached : reach (next s.mem) root path = some table) (short : path.length < 3)
    (absent : ¬ isPresent (slot s.mem table index) = true) (unused : ¬ busy s.alloc frame) :
    Linkable (next s.mem) 3 roots root path table index frame :=
  ⟨member, reached, short, by rw [next, if_neg absent], fun other inside way few arrives =>
    unused (tables.owned other inside way frame few arrives)⟩

theorem vmmGetNextLevel_grown (fresh : HandsOut A busy 1) (tables : Tables busy s shared roots)
    (member : root ∈ roots) (reached : reach (next s.mem) root path = some table)
    (short : path.length < 3) (ran : vmmGetNextLevel A s (table * pageSize) index = some (adr, s')) :
    ∃ child, adr = child * pageSize ∧ Grown busy shared roots s s' ∧
      reach (next s'.mem) root (path ++ [index]) = some child := by
  rcases vmmGetNextLevel_cases fresh tables.null ran with
    ⟨present, rfl, rfl⟩ | ⟨absent, frame, rfl, bound, unused, inUse, stored⟩
  · refine ⟨_, rfl, grown_refl tables, ?_⟩
    rw [reach_snoc, reached, Option.bind_some, next, if_pos present]
  · have linkable := linkable_of_unused tables member reached short absent unused
    grind [grown_of_linked, linkStored_of_fill]

theorem descend_grown (fresh : HandsOut A busy 1) (tables : Tables busy s shared roots)
    (member : root ∈ roots)
    (ran : descend A s (root * pageSize) virtualAddress = some (adr, s')) :
    ∃ leaf, adr = leaf * pageSize ∧ Grown busy shared roots s s' ∧
      reach (next s'.mem) root (directories virtualAddress) = some leaf := by
  simp only [descend, bind_returns, Prod.exists] at ran
  obtain ⟨_, s3, ran3, _, s2, ran2, ran1⟩ := ran
  obtain ⟨pml3, rfl, grown3, reached3⟩ := vmmGetNextLevel_grown fresh tables member
    (reach_nil _ _) (by decide) ran3
  obtain ⟨pml2, rfl, grown2, reached2⟩ := vmmGetNextLevel_grown fresh grown3.tables member
    reached3 (by simp) ran2
  obtain ⟨pml1, rfl, grown1, reached1⟩ := vmmGetNextLevel_grown fresh grown2.tables member
    reached2 (by simp) ran1
  exact ⟨pml1, rfl, grown_trans grown3 (grown_trans grown2 grown1), reached1⟩

section
variable (tables : Tables busy s shared roots) (member : root ∈ roots)
  (reached : reach (next s.mem) root (directories virtualAddress) = some leaf) (entry : BitVec 64)
include tables member reached entry

theorem leafEntry_setEntry :
    Tables busy (s.setEntry (leaf * pageSize) (pmlEntry 12 virtualAddress) entry) shared roots ∧
      (∀ other ∈ roots, ∀ path, path.length ≤ 3 →
        reach (next (s.setEntry (leaf * pageSize) (pmlEntry 12 virtualAddress) entry).mem) other path =
          reach (next s.mem) other path) ∧
      ∀ other ∈ roots, ∀ probe,
        leafEntry (s.setEntry (leaf * pageSize) (pmlEntry 12 virtualAddress) entry).mem other probe =
          if reach (next s.mem) other (directories probe) = some leaf ∧
              pmlEntry 12 probe = pmlEntry 12 virtualAddress then entry
          else leafEntry s.mem other probe := by
  have slots (node : Nat) (index : Fin 512) :
      slot (s.setEntry (leaf * pageSize) (pmlEntry 12 virtualAddress) entry).mem node index =
        if node = leaf ∧ index = pmlEntry 12 virtualAddress then entry else slot s.mem node index := by
    rw [State.setEntry, slot_storeWord]
  obtain ⟨forest, same⟩ := @forest_congr _ _ _
    (next (s.setEntry (leaf * pageSize) (pmlEntry 12 virtualAddress) entry).mem) _ _ _
    tables.forest (by decide) (by
      intro other inside path node index short arrives
      have above : node ≠ leaf := by
        rintro rfl
        have way := tables.forest.path_unique inside member (Nat.le_of_lt short)
          (directories_short _) arrives reached
        rw [way] at short
        exact Nat.lt_irrefl 3 short
      simp only [next, slots, above, false_and, if_false])
  refine ⟨⟨forest, ?_, tables.null⟩, same, ?_⟩
  · intro other inside path node short arrives
    rw [same other inside path short] at arrives
    exact tables.owned other inside path node short arrives
  · grind [leafEntry, directories]

theorem translation_leaf :
    Tables busy (s.setEntry (leaf * pageSize) (pmlEntry 12 virtualAddress) entry) shared roots ∧
      (∀ other ∈ roots, ∀ path, path.length ≤ 3 →
        reach (next (s.setEntry (leaf * pageSize) (pmlEntry 12 virtualAddress) entry).mem) other path =
          reach (next s.mem) other path) ∧
      ∀ other ∈ roots, ∀ probe,
        translation (s.setEntry (leaf * pageSize) (pmlEntry 12 virtualAddress) entry).mem other probe =
          if reach (next s.mem) other (directories probe) = some leaf ∧
              pmlEntry 12 probe = pmlEntry 12 virtualAddress then leafAddress entry
          else translation s.mem other probe := by
  obtain ⟨after, reaches, seen⟩ := leafEntry_setEntry tables member reached entry
  refine ⟨after, reaches, fun other inside probe => ?_⟩
  rw [translation_eq, translation_eq, seen other inside probe, apply_ite leafAddress]

end

theorem reaches_leaf_iff (tables : Tables busy s shared roots) (member : root ∈ roots)
    (inside : other ∈ roots)
    (reached : reach (next s.mem) root (directories virtualAddress) = some leaf) :
    reach (next s.mem) other (directories probe) = some leaf ↔
      directories probe = directories virtualAddress ∧
        (other = root ∨ shared (pmlEntry 39 virtualAddress)) := by
  constructor
  · intro arrives
    have way := tables.forest.path_unique inside member (directories_short _) (directories_short _)
      arrives reached
    refine ⟨way, Classical.or_iff_not_imp_right.mpr fun apart => ?_⟩
    rw [way] at arrives
    exact tables.forest.root_unique inside member apart (directories_short _) arrives reached
  · rintro ⟨way, rfl | common⟩
    · rw [way, reached]
    · rw [way, ← reached]
      exact reach_shared tables.forest inside member common _

end

/-! ### Addresses and pages -/

/-- Bits 12 to 47: the page of an address. -/
def pageOf (virtualAddress : BitVec 64) : BitVec 36 := virtualAddress.extractLsb' 12 36

theorem pmlEntry_val (shift : Nat) (virtualAddress : BitVec 64) (inside : shift + 9 ≤ 64) :
    (pmlEntry shift virtualAddress).val = virtualAddress.toNat / 2 ^ shift % 512 := by
  have fits : 0x1ff <<< shift < 2 ^ 64 := by
    rw [Nat.shiftLeft_eq]
    calc 0x1ff * 2 ^ shift < 2 ^ 9 * 2 ^ shift := Nat.mul_lt_mul_of_pos_right (by decide) (Nat.two_pow_pos _)
      _ = 2 ^ (shift + 9) := by rw [Nat.pow_add, Nat.mul_comm]
      _ ≤ 2 ^ 64 := Nat.pow_le_pow_right (by decide) inside
  have mask : (((0x1ff : BitVec 64) <<< shift) >>> shift).toNat = 0x1ff := by
    simp_all [Nat.mod_eq_of_lt]
  simp only [pmlEntry]
  rw [BitVec.ushiftRight_and_distrib, BitVec.toNat_and, mask, show 0x1ff = 2 ^ 9 - 1 from rfl,
    Nat.and_two_pow_sub_one_eq_mod, BitVec.toNat_ushiftRight, Nat.shiftRight_eq_div_pow, Nat.mod_mod]

theorem pageOf_eq_iff (one other : BitVec 64) :
    pageOf one = pageOf other ↔
      directories one = directories other ∧ pmlEntry 12 one = pmlEntry 12 other := by
  simp only [directories, List.cons.injEq, and_true, Fin.ext_iff,
    pmlEntry_val 39 _ (by decide), pmlEntry_val 30 _ (by decide), pmlEntry_val 21 _ (by decide),
    pmlEntry_val 12 _ (by decide)]
  rw [← BitVec.toNat_inj, pageOf, pageOf, BitVec.extractLsb'_toNat, BitVec.extractLsb'_toNat,
    Nat.shiftRight_eq_div_pow, Nat.shiftRight_eq_div_pow]
  omega

/-! ### The operations -/

/-- An entry was written for a page of one pagemap: the page translates to it
in every pagemap that shares the slot, and nothing else has changed. -/
structure Entered (busy : α → Nat → Prop) (shared : Fin 512 → Prop) (roots : Set Nat)
    (s s' : State α) (root : Nat) (virtualAddress entry : BitVec 64) : Prop where
  tables : Tables busy s' shared roots
  kept : ∀ other ∈ roots, ∀ path table, path.length ≤ 3 →
    reach (next s.mem) other path = some table → reach (next s'.mem) other path = some table
  unused : OnUnused busy roots s s'
  seen : ∀ other ∈ roots, ∀ probe, pageOf probe = pageOf virtualAddress →
    (other = root ∨ shared (pmlEntry 39 virtualAddress)) →
    translation s'.mem other probe = leafAddress entry
  unseen : ∀ other ∈ roots, ∀ probe, ¬ (pageOf probe = pageOf virtualAddress ∧
      (other = root ∨ shared (pmlEntry 39 virtualAddress))) →
    translation s'.mem other probe = translation s.mem other probe
  busy : ∀ page, busy s.alloc page → busy s'.alloc page

section
variable {A : Allocator α} {busy : α → Nat → Prop} {shared : Fin 512 → Prop} {roots : Set Nat}

section
variable (fresh : HandsOut A busy 1) (tables : Tables busy s shared roots) (member : root ∈ roots)
include fresh tables member

private theorem descend_entered (entry : BitVec 64)
    (ran : descend A s (root * pageSize) virtualAddress = some (adr, middle)) :
    Entered busy shared roots s (middle.setEntry adr (pmlEntry 12 virtualAddress) entry) root
      virtualAddress entry := by
  obtain ⟨leaf, rfl, grown, reached⟩ := descend_grown fresh tables member ran
  obtain ⟨after, reaches, effect⟩ := translation_leaf grown.tables member reached entry
  have hit (other : Nat) (inside : other ∈ roots) (probe : BitVec 64) :
      (reach (next middle.mem) other (directories probe) = some leaf ∧
        pmlEntry 12 probe = pmlEntry 12 virtualAddress) ↔
      pageOf probe = pageOf virtualAddress ∧ (other = root ∨ shared (pmlEntry 39 virtualAddress)) := by
    rw [reaches_leaf_iff grown.tables member inside reached, pageOf_eq_iff]
    grind
  refine ⟨after, ?_, ?_, ?_, ?_, grown.busy⟩
  · intro other inside path table short arrives
    rw [reaches other inside path short]
    exact grown.kept other inside path table short arrives
  · intro other inside path table short arrives
    rw [reaches other inside path short] at arrives
    exact grown.unused other inside path table short arrives
  · simp_all
  · intro other inside probe apart
    rw [effect other inside probe, if_neg (fun both => apart ((hit other inside probe).mp both)),
      grown.same other inside]

theorem vmmMapPage_entered (ran : vmmMapPage A s (root * pageSize) physicalAddress virtualAddress flags = some s') :
    Entered busy shared roots s s' root virtualAddress (physicalAddress ||| flags) := by
  grind [vmmMapPage, bind_returns, descend_entered]

theorem vmmUnmapPage_entered (ran : vmmUnmapPage A s (root * pageSize) virtualAddress = some s') :
    Entered busy shared roots s s' root virtualAddress 0 := by
  grind [vmmUnmapPage, bind_returns, descend_entered]

theorem vmmVirtToPhys_grown (ran : vmmVirtToPhys A s (root * pageSize) virtualAddress = some (answer, s')) :
    answer = translation s.mem root virtualAddress ∧ Grown busy shared roots s s' := by
  simp only [vmmVirtToPhys, bind_returns, Prod.exists] at ran
  obtain ⟨adr, middle, descended, answered⟩ := ran
  obtain ⟨leaf, rfl, grown, reached⟩ := descend_grown fresh tables member descended
  cases answered
  refine ⟨?_, grown⟩
  rw [← grown.same root member, translation, reached]
  rfl

end

end

/-- Whatever was done through one top level, only the pages of some addresses
may translate differently, and for other pagemaps only below shared slots. -/
structure Confined (busy : α → Nat → Prop) (shared : Fin 512 → Prop) (roots : Set Nat)
    (s s' : State α) (root : Nat) (touched : BitVec 64 → Prop) : Prop where
  tables : Tables busy s' shared roots
  outside : ∀ other ∈ roots, ∀ probe,
    (∀ virtualAddress, touched virtualAddress → ¬ (pageOf probe = pageOf virtualAddress ∧
      (other = root ∨ shared (pmlEntry 39 virtualAddress)))) →
    translation s'.mem other probe = translation s.mem other probe
  unused : OnUnused busy roots s s'
  busy : ∀ page, busy s.alloc page → busy s'.alloc page

section
variable {busy : α → Nat → Prop} {shared : Fin 512 → Prop} {roots : Set Nat}

theorem confined_of_grown (grown : Grown busy shared roots s s') (root : Nat)
    (touched : BitVec 64 → Prop) : Confined busy shared roots s s' root touched :=
  ⟨grown.tables, fun other inside probe _ => grown.same other inside probe, grown.unused, grown.busy⟩

theorem confined_of_entered (entered : Entered busy shared roots s s' root virtualAddress entry)
    {touched : BitVec 64 → Prop} (touches : touched virtualAddress) :
    Confined busy shared roots s s' root touched :=
  ⟨entered.tables, fun other inside probe outside =>
    entered.unseen other inside probe (outside virtualAddress touches), entered.unused, entered.busy⟩

theorem confined_mono (confined : Confined busy shared roots s s' root touched)
    {touched' : BitVec 64 → Prop} (more : ∀ page, touched page → touched' page) :
    Confined busy shared roots s s' root touched' :=
  ⟨confined.tables, fun other inside probe outside => confined.outside other inside probe
    fun page touches => outside page (more page touches), confined.unused, confined.busy⟩

theorem confined_trans (first : Confined busy shared roots s s' root touched)
    (second : Confined busy shared roots s' s'' root touched) :
    Confined busy shared roots s s'' root touched := by
  refine ⟨second.tables, fun other inside probe outside => ?_,
    onUnused_trans first.unused second.unused first.busy, ?_⟩
  · rw [second.outside other inside probe outside, first.outside other inside probe outside]
  · exact fun page used => second.busy page (first.busy page used)

end

/-! ### Enough memory -/

/-- `spare` says how many more single pages the allocator can hand out. -/
structure Stocked (A : Allocator α) (spare : α → Nat) : Prop where
  serves : ∀ a, 0 < spare a → ∃ reply, A.pmalloc a 1 = some reply
  used : ∀ {a a' adr}, A.pmalloc a 1 = some (adr, a') → spare a ≤ spare a' + 1

section
variable {A : Allocator α} {spare : α → Nat}

section
variable (stocked : Stocked A spare)
include stocked

theorem pcalloc_returns (s : State α) (enough : 0 < spare s.alloc) :
    ∃ adr s', pcalloc A s 1 = some (adr, s') ∧ spare s.alloc ≤ spare s'.alloc + 1 := by
  obtain ⟨⟨ret, alloc⟩, served⟩ := stocked.serves s.alloc enough
  have used := stocked.used served
  by_cases zero : ret = 0
  · simp_all [pcalloc]
  · simp_all [pcalloc]

theorem vmmGetNextLevel_returns (s : State α) (enough : 0 < spare s.alloc) (table : Nat) (index : Fin 512) :
    ∃ adr s', vmmGetNextLevel A s table index = some (adr, s') ∧ spare s.alloc ≤ spare s'.alloc + 1 := by
  unfold vmmGetNextLevel
  split
  · exact ⟨_, _, rfl, Nat.le_succ _⟩
  · obtain ⟨adr, middle, given, used⟩ := pcalloc_returns stocked s enough
    rw [given]
    exact ⟨_, _, rfl, used⟩

section
variable (s : State α) (enough : 3 ≤ spare s.alloc) (top : Nat)
include s enough top

private theorem descend_returns (virtualAddress : BitVec 64) :
    ∃ adr s', descend A s top virtualAddress = some (adr, s') ∧ spare s.alloc ≤ spare s'.alloc + 3 := by
  obtain ⟨pml3, s3, ran3, used3⟩ := vmmGetNextLevel_returns stocked s (by omega) top
    (pmlEntry 39 virtualAddress)
  obtain ⟨pml2, s2, ran2, used2⟩ := vmmGetNextLevel_returns stocked s3 (by omega) pml3
    (pmlEntry 30 virtualAddress)
  obtain ⟨pml1, s1, ran1, used1⟩ := vmmGetNextLevel_returns stocked s2 (by omega) pml2
    (pmlEntry 21 virtualAddress)
  grind [descend]

theorem vmmMapPage_returns (physicalAddress virtualAddress flags : BitVec 64) :
    ∃ s', vmmMapPage A s top physicalAddress virtualAddress flags = some s' ∧
      spare s.alloc ≤ spare s'.alloc + 3 := by
  obtain ⟨adr, middle, descended, used⟩ := descend_returns stocked s enough top virtualAddress
  refine ⟨middle.setEntry adr (pmlEntry 12 virtualAddress) (physicalAddress ||| flags), ?_, used⟩
  simp only [vmmMapPage, descended, bind_returned]

theorem vmmUnmapPage_returns (virtualAddress : BitVec 64) :
    ∃ s', vmmUnmapPage A s top virtualAddress = some s' ∧ spare s.alloc ≤ spare s'.alloc + 3 := by
  obtain ⟨adr, middle, descended, used⟩ := descend_returns stocked s enough top virtualAddress
  refine ⟨middle.setEntry adr (pmlEntry 12 virtualAddress) 0, ?_, used⟩
  simp only [vmmUnmapPage, descended, bind_returned]

theorem vmmVirtToPhys_returns (virtualAddress : BitVec 64) :
    ∃ answer s', vmmVirtToPhys A s top virtualAddress = some (answer, s') ∧
      spare s.alloc ≤ spare s'.alloc + 3 := by
  obtain ⟨adr, middle, descended, used⟩ := descend_returns stocked s enough top virtualAddress
  simp_all [vmmVirtToPhys]

end

end

end

end MandelbrotOS.PageTables
