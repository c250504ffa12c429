import Mathlib.Algebra.Group.Nat.Defs
import Mathlib.Data.List.Basic
import Mathlib.Logic.Function.Basic

/-! The physical page allocator, `mm/pmm.c`. One bit per page, set while the
page is taken; `pmm_bitmap` is a bare pointer, so the bitmap is the bytes from
it on, without a bound of its own. Addresses are `size_t` values: arithmetic
on them wraps at `2 ^ 64`. -/
namespace MandelbrotOS.Pmm

def pageSize : Nat := 0x1000

def wordSize : Nat := 2 ^ 64

/-- `pmm_bitmap` and `highest_page`, the file's two variables. -/
structure State where
  bitmap : Nat → BitVec 8
  highestPage : Nat
  bounded : highestPage < wordSize

theorem sixteenPages_bounded : 0x10000 < wordSize := by decide

def bitSet (bitmap : Nat → BitVec 8) (bit : Nat) : Nat → BitVec 8 :=
  Function.update bitmap (bit / 8) (bitmap (bit / 8) ||| (1#8 <<< (bit % 8)))

def bitClear (bitmap : Nat → BitVec 8) (bit : Nat) : Nat → BitVec 8 :=
  Function.update bitmap (bit / 8) (bitmap (bit / 8) &&& ~~~(1#8 <<< (bit % 8)))

def bitTest (bitmap : Nat → BitVec 8) (bit : Nat) : Bool :=
  (bitmap (bit / 8) >>> (bit % 8)) &&& 1#8 != 0#8

def pmmFreePage (pmm : State) (adr : Nat) : State :=
  { pmm with bitmap := bitClear pmm.bitmap (adr / pageSize) }

def pmmAllocPage (pmm : State) (adr : Nat) : State :=
  { pmm with bitmap := bitSet pmm.bitmap (adr / pageSize) }

def pmmFreePages (pmm : State) (adr pageCount : Nat) : State :=
  (List.range pageCount).foldl
    (fun pmm i => pmmFreePage pmm ((adr + i * pageSize) % wordSize)) pmm

def pmmAllocPages (pmm : State) (adr pageCount : Nat) : State :=
  (List.range pageCount).foldl
    (fun pmm i => pmmAllocPage pmm ((adr + i * pageSize) % wordSize)) pmm

/-- The inner loop of `pmalloc` over `j`: a taken page ends the attempt, the
last turn accepts it. The page it tests is `i`, not `i + j`. -/
def pmallocTries (pmm : State) (pages i : Nat) : List Nat → Bool
  | [] => false
  | j :: rest =>
    if bitTest pmm.bitmap i then false
    else if j = pages - 1 then true
    else pmallocTries pmm pages i rest

/-- `pmalloc`: the address of the first page whose attempt is accepted. When
there is none the function logs and spins forever, which is `none` here. -/
def pmalloc (pmm : State) (pages : Nat) : Option (Nat × State) :=
  ((List.range (pmm.highestPage / pageSize)).find?
    fun i => pmallocTries pmm pages i (List.range pages)).map
    fun i => (i * pageSize, pmmAllocPages pmm (i * pageSize) pages)

/-- A page is taken when its bit is set. -/
def State.Taken (pmm : State) (page : Nat) : Prop := bitTest pmm.bitmap page = true

instance (pmm : State) (page : Nat) : Decidable (pmm.Taken page) :=
  inferInstanceAs (Decidable (_ = true))

/-- `highest_page / PAGE_SIZE`, the bound of the scan. -/
def State.limit (pmm : State) : Nat := pmm.highestPage / pageSize

theorem bitTest_eq_getLsbD (bitmap : Nat → BitVec 8) (bit : Nat) :
    bitTest bitmap bit = (bitmap (bit / 8)).getLsbD (bit % 8) := by
  have lowBit (byte : BitVec 8) : (byte &&& 1#8 != 0#8) = byte.getLsbD 0 := by
    revert byte
    decide
  rw [bitTest, lowBit]
  simp

theorem bitTest_bitSet (bitmap : Nat → BitVec 8) (bit other : Nat) :
    bitTest (bitSet bitmap bit) other = (decide (other = bit) || bitTest bitmap other) := by
  rw [bitTest_eq_getLsbD, bitTest_eq_getLsbD, bitSet]
  grind

theorem bitTest_bitClear (bitmap : Nat → BitVec 8) (bit other : Nat) :
    bitTest (bitClear bitmap bit) other = (decide (other ≠ bit) && bitTest bitmap other) := by
  rw [bitTest_eq_getLsbD, bitTest_eq_getLsbD, bitClear]
  grind

theorem page_of_turn (fits : (first + count) * pageSize ≤ wordSize) (turn : i < count) :
    ((first * pageSize + i * pageSize) % wordSize) / pageSize = first + i := by
  grind [pageSize, wordSize]

theorem overPages_highestPage {body : State → Nat → State}
    (one : ∀ pmm adr, (body pmm adr).highestPage = pmm.highestPage) (pmm : State) (turns : List Nat)
    (page : Nat → Nat) :
    (turns.foldl (fun pmm i => body pmm (page i)) pmm).highestPage = pmm.highestPage := by
  induction turns generalizing pmm with
  | nil => rfl
  | cons i rest ih => exact (ih _).trans (one pmm (page i))

@[simp] theorem pmmAllocPages_highestPage (pmm : State) (adr count : Nat) :
    (pmmAllocPages pmm adr count).highestPage = pmm.highestPage := by
  have one : ∀ pmm adr, (pmmAllocPage pmm adr).highestPage = pmm.highestPage := fun _ _ => rfl
  exact overPages_highestPage one pmm (List.range count) _

@[simp] theorem pmmFreePages_highestPage (pmm : State) (adr count : Nat) :
    (pmmFreePages pmm adr count).highestPage = pmm.highestPage := by
  have one : ∀ pmm adr, (pmmFreePage pmm adr).highestPage = pmm.highestPage := fun _ _ => rfl
  exact overPages_highestPage one pmm (List.range count) _

/-- The pages a loop over some pages from an address on goes through. -/
def InRun (adr count page : Nat) : Prop := ∃ i < count, page = (adr + i * pageSize) % wordSize / pageSize

theorem inRun_succ : InRun adr (count + 1) page ↔
    InRun adr count page ∨ page = (adr + count * pageSize) % wordSize / pageSize := by
  constructor
  · rintro ⟨i, inside, rfl⟩
    rcases Nat.lt_succ_iff_lt_or_eq.mp inside with before | rfl
    · exact Or.inl ⟨i, before, rfl⟩
    · exact Or.inr rfl
  · rintro (⟨i, before, rfl⟩ | rfl)
    · exact ⟨i, Nat.lt_succ_of_lt before, rfl⟩
    · exact ⟨count, Nat.lt_succ_self count, rfl⟩

theorem inRun_iff (fits : (first + count) * pageSize ≤ wordSize) :
    InRun (first * pageSize) count page ↔ first ≤ page ∧ page < first + count := by
  constructor
  · rintro ⟨i, inside, rfl⟩
    rw [page_of_turn fits inside]
    omega
  · rintro ⟨low, high⟩
    refine ⟨page - first, by omega, ?_⟩
    rw [page_of_turn fits (by omega)]
    omega

theorem taken_pmmAllocPage (pmm : State) (adr page : Nat) :
    (pmmAllocPage pmm adr).Taken page ↔ if page = adr / pageSize then True else pmm.Taken page := by
  rw [State.Taken, pmmAllocPage, bitTest_bitSet, Bool.or_eq_true, decide_eq_true_iff]
  split <;> simp [State.Taken, *]

theorem taken_pmmFreePage (pmm : State) (adr page : Nat) :
    (pmmFreePage pmm adr).Taken page ↔ if page = adr / pageSize then False else pmm.Taken page := by
  simp [State.Taken, pmmFreePage, bitTest_bitClear]

theorem taken_pmmAllocPages_iff (pmm : State) :
    (pmmAllocPages pmm adr count).Taken page ↔ pmm.Taken page ∨ InRun adr count page := by
  induction count with
  | zero => simp [pmmAllocPages, InRun]
  | succ count ih =>
    grind [pmmAllocPages, List.range_succ, taken_pmmAllocPage, inRun_succ]

theorem taken_pmmFreePages_iff (pmm : State) :
    (pmmFreePages pmm adr count).Taken page ↔ pmm.Taken page ∧ ¬ InRun adr count page := by
  induction count with
  | zero => simp [pmmFreePages, InRun]
  | succ count ih =>
    grind [pmmFreePages, List.range_succ, taken_pmmFreePage, inRun_succ]

theorem taken_pmmAllocPages (pmm : State) (fits : (first + count) * pageSize ≤ wordSize) :
    (pmmAllocPages pmm (first * pageSize) count).Taken page ↔
      pmm.Taken page ∨ (first ≤ page ∧ page < first + count) := by
  rw [taken_pmmAllocPages_iff, inRun_iff fits]

theorem taken_pmmFreePages (pmm : State) (fits : (first + count) * pageSize ≤ wordSize) :
    (pmmFreePages pmm (first * pageSize) count).Taken page ↔
      pmm.Taken page ∧ ¬ (first ≤ page ∧ page < first + count) := by
  rw [taken_pmmFreePages_iff, inRun_iff fits]

end MandelbrotOS.Pmm
