import MandelbrotOS.Walks

/-! `acpi_gather_madt` of `acpi/acpi.c`: the entries of the MADT go onto the lists of
their types, and the loop gets on by the length byte of each entry. Nothing but that
byte makes it end: an entry of length zero is read again and again, and the length of
an entry that starts in the table's last byte is read behind the table. An allocation
is taken to succeed. -/
namespace MandelbrotOS.AcpiMadt
open Walks

/-! ### The code -/

/-- `sizeof(madt_t)`. -/
def headSize : Nat := 44

/-- `madt_t`, with the bytes in memory from `entries` on. The length counts the whole
table and is not below the size of its head. -/
structure Madt where
  length : BitVec 32
  entries : Nat → BitVec 8
  sized : headSize ≤ length.toNat

/-- The bound of the loop, in `size_t`. -/
def Madt.bound (madt : Madt) : Nat := (madt.length.setWidth 64 - .ofNat 64 headSize).toNat

/-- `header->length`. -/
def Madt.entryLength (madt : Madt) (i : Nat) : Nat := (madt.entries (i + 1)).toNat

/-- The types of entries that are kept. -/
inductive Kind where
  | lapic
  | ioapic
  | iso
  | nmi
  deriving DecidableEq

/-- The cases of the `switch`. -/
def kindOf (id : BitVec 8) : Option Kind :=
  match id.toNat with
  | 0 => some .lapic
  | 1 => some .ioapic
  | 2 => some .iso
  | 4 => some .nmi
  | _ => none

/-- `madt_lapics`, `madt_ioapics`, `madt_isos` and `madt_nmis`, as offsets of entries,
and the offsets at which the loop has read a header. -/
structure Gathered where
  lists : Kind → List Nat := fun _ => []
  headers : List Nat := []

/-- The body of the loop. `vec_push` always has room here: that its capacity is an
`int` is left out. -/
def visit (madt : Madt) (g : Gathered) (i : Nat) : Gathered :=
  { lists := match kindOf (madt.entries i) with
      | some kind => Function.update g.lists kind (g.lists kind ++ [i])
      | none => g.lists
    headers := g.headers ++ [i] }

/-- The loop, for so many turns; `none` is a loop that has not ended by then. -/
def gatherLoop (madt : Madt) : Nat → Nat → Gathered → Option Gathered
  | 0, i, g => if i < madt.bound then none else some g
  | turns + 1, i, g =>
    if i < madt.bound then gatherLoop madt turns (i + madt.entryLength i) (visit madt g i) else some g

def acpiGatherMadt (madt : Madt) (turns : Nat) : Option Gathered := gatherLoop madt turns 0 {}

/-! ### The entries of a table -/

/-- From an entry to the one behind it. -/
def Madt.next (madt : Madt) (i : Nat) : Nat := i + madt.entryLength i

def Madt.inside (madt : Madt) (i : Nat) : Bool := i < madt.bound

/-- The offsets of the entries, one behind the other from the first to the table's end. -/
def Madt.Entries (madt : Madt) (es : List Nat) : Prop := ∃ steps, walk madt.next madt.inside steps 0 = some es

/-- The loop ends, all headers it read are in the table, and each list has the entries
of its type in the order of the table. -/
def Exact (madt : Madt) : Prop :=
  ∃ turns g es, acpiGatherMadt madt turns = some g ∧ madt.Entries es ∧ es.Pairwise (· < ·) ∧
    (∀ i ∈ g.headers, headSize + i + 2 ≤ madt.length.toNat) ∧
    ∀ kind, g.lists kind = es.filter fun i => kindOf (madt.entries i) = some kind

/-- Each entry that starts in the table has its whole header there and a length. -/
def WellFormed (madt : Madt) : Prop :=
  ∀ n, headSize + madt.next^[n] 0 < madt.length.toNat →
    headSize + madt.next^[n] 0 + 2 ≤ madt.length.toNat ∧ madt.entryLength (madt.next^[n] 0) ≠ 0

/-! ### The loop is a walk -/

theorem bound_eq (madt : Madt) : madt.bound = madt.length.toNat - headSize := by
  have sized := madt.sized
  have small := madt.length.isLt
  grind [Madt.bound, BitVec.toNat_setWidth]

theorem inside_iff (madt : Madt) (i : Nat) : madt.inside i = true ↔ headSize + i < madt.length.toNat := by
  have sized := madt.sized
  rw [Madt.inside, decide_eq_true_iff, bound_eq]
  omega

theorem gatherLoop_eq (madt : Madt) (turns i : Nat) (g : Gathered) :
    gatherLoop madt turns i g =
      (walk madt.next madt.inside turns i).map fun es => es.foldl (visit madt) g := by
  induction turns generalizing i g with
  | zero =>
    rw [gatherLoop, walk]
    grind [Madt.inside]
  | succ turns ih =>
    rw [gatherLoop, walk, ih]
    by_cases within : i < madt.bound
    · simp [Madt.inside, Madt.next, within, Function.comp_def]
    · simp [Madt.inside, within]

theorem foldl_visit_headers (madt : Madt) (es : List Nat) (g : Gathered) :
    (es.foldl (visit madt) g).headers = g.headers ++ es := by
  induction es generalizing g with
  | nil => simp
  | cons i es ih => simp [ih, visit]

theorem visit_lists (madt : Madt) (g : Gathered) (i : Nat) (kind : Kind) :
    (visit madt g i).lists kind =
      g.lists kind ++ [i].filter fun i => kindOf (madt.entries i) = some kind := by
  rw [visit]
  cases found : kindOf (madt.entries i) with
  | none => simp [found]
  | some here =>
    grind

theorem foldl_visit_lists (madt : Madt) (es : List Nat) (g : Gathered) (kind : Kind) :
    (es.foldl (visit madt) g).lists kind =
      g.lists kind ++ es.filter fun i => kindOf (madt.entries i) = some kind := by
  induction es generalizing g with
  | nil => simp
  | cons i es ih =>
    rw [List.foldl_cons, ih, visit_lists, List.append_assoc, ← List.filter_append, List.singleton_append]

theorem next_le (madt : Madt) (n k : Nat) : madt.next^[n] 0 ≤ madt.next^[n + k] 0 := by
  induction k with
  | zero => exact Nat.le_refl _
  | succ k ih =>
    rw [← Nat.add_assoc, Function.iterate_succ_apply']
    exact Nat.le_trans ih (Nat.le_add_right _ _)

theorem mem_entries (madt : Madt) (n : Nat) (ran : walk madt.next madt.inside steps 0 = some es)
    (within : madt.inside (madt.next^[n] 0) = true) : madt.next^[n] 0 ∈ es := by
  have early : n < es.length := by
    by_contra late
    obtain ⟨k, rfl⟩ := Nat.exists_eq_add_of_le (Nat.not_lt.mp late)
    have out := walk_out ran
    have past := next_le madt es.length k
    rw [← Bool.not_eq_true, inside_iff] at out
    rw [inside_iff] at within
    omega
  rw [walk_iterate ran]
  grind

theorem walk_of_wellFormed (wellFormed : WellFormed madt) :
    ∃ steps es, walk madt.next madt.inside steps 0 = some es := by
  have grows (n : Nat) : n ≤ madt.next^[n] 0 ∨ madt.length.toNat ≤ headSize + madt.next^[n] 0 := by
    induction n with
    | zero => exact .inl (Nat.zero_le _)
    | succ n ih =>
      rw [Function.iterate_succ_apply']
      have here : madt.next (madt.next^[n] 0) = madt.next^[n] 0 + madt.entryLength (madt.next^[n] 0) := rfl
      by_cases within : headSize + madt.next^[n] 0 < madt.length.toNat
      · have long := (wellFormed n within).2
        omega
      · omega
  have out : madt.inside (madt.next^[madt.length.toNat] 0) = false := by
    have far := grows madt.length.toNat
    rw [← Bool.not_eq_true, inside_iff]
    omega
  obtain ⟨es, ran⟩ := walk_of_iterate out
  exact ⟨_, es, ran⟩

theorem entries_increase (wellFormed : WellFormed madt) (ran : walk madt.next madt.inside steps 0 = some es) :
    es.Pairwise (· < ·) := by
  have alive := walk_live ran
  rw [walk_iterate ran] at alive ⊢
  refine List.pairwise_map.mpr (List.pairwise_lt_range.imp_of_mem fun {i j} early _ less => ?_)
  have within := alive _ (List.mem_map_of_mem early)
  have long := (wellFormed i ((inside_iff madt _).mp within)).2
  have step : madt.next^[i + 1] 0 = madt.next^[i] 0 + madt.entryLength (madt.next^[i] 0) :=
    Function.iterate_succ_apply' madt.next i 0
  obtain ⟨k, rfl⟩ := Nat.exists_eq_add_of_lt less
  have onward := next_le madt (i + 1) k
  grind

theorem entryLength_ne_zero (madt : Madt) (ran : walk madt.next madt.inside steps 0 = some es)
    (within : madt.inside (madt.next^[n] 0) = true) : madt.entryLength (madt.next^[n] 0) ≠ 0 := by
  intro stuck
  have circular : Circular madt.next madt.inside 0 := by
    refine ⟨n, 1, Nat.one_pos, ?_, fun j early => ?_⟩
    · rw [Function.iterate_succ_apply', Madt.next, stuck, Nat.add_zero]
    · grind [Nat.exists_eq_add_of_le, next_le, inside_iff]
  have out := walk_out ran
  rw [circular.alive] at out
  cases out

/-- **The MADT** is gathered exactly when every entry that starts in it has a header in
it and a length. -/
theorem exact_iff (madt : Madt) : Exact madt ↔ WellFormed madt := by
  constructor
  · rintro ⟨turns, g, es, gathered, _, _, headers, _⟩ n within
    rw [← inside_iff] at within
    rw [acpiGatherMadt, gatherLoop_eq] at gathered
    obtain ⟨path, ran, rfl⟩ := Option.map_eq_some_iff.mp gathered
    have read : madt.next^[n] 0 ∈ (path.foldl (visit madt) {}).headers := by
      rw [foldl_visit_headers]
      exact List.mem_append_right _ (mem_entries madt n ran within)
    exact ⟨headers _ read, entryLength_ne_zero madt ran within⟩
  · intro wellFormed
    obtain ⟨steps, es, ran⟩ := walk_of_wellFormed wellFormed
    refine ⟨steps, es.foldl (visit madt) {}, es, ?_, ⟨steps, ran⟩, entries_increase wellFormed ran, ?_, ?_⟩
    · rw [acpiGatherMadt, gatherLoop_eq, ran, Option.map_some]
    · rw [foldl_visit_headers, List.nil_append]
      intro i member
      have alive := walk_live ran i member
      rw [walk_iterate ran] at member
      obtain ⟨n, -, rfl⟩ := List.mem_map.mp member
      exact (wellFormed n ((inside_iff madt _).mp alive)).1
    · intro kind
      rw [foldl_visit_lists, List.nil_append]

/-- A table with one entry of type 0 whose length byte is zero. -/
def zeroLength : Madt := ⟨46, fun _ => 0, by decide⟩

/-- The loop does not come past an entry of length zero. -/
theorem zeroLength_spins : (∀ turns, acpiGatherMadt zeroLength turns = none) ∧ ¬ Exact zeroLength := by
  have within : 0 < zeroLength.bound := by decide
  have spins (turns : Nat) (g : Gathered) : gatherLoop zeroLength turns 0 g = none := by
    induction turns generalizing g with
    | zero => exact if_pos within
    | succ turns ih => exact (if_pos within).trans (ih _)
  refine ⟨fun turns => spins turns {}, ?_⟩
  rintro ⟨turns, g, es, gathered, _⟩
  rw [acpiGatherMadt, spins] at gathered
  cases gathered

end MandelbrotOS.AcpiMadt
