import MandelbrotOS.Pmm
import MandelbrotOS.Runs

/-! Loops over a length in steps of a page, as the mapping code writes them. The
index is a `size_t`: over a length within the last page of the word it wraps
around to 0 and the loop never ends. -/
namespace MandelbrotOS.PageLoops
open Pmm Runs

variable {σ : Type}

/-- `for (size_t i = start; i < length; i += PAGE_SIZE)`, stopped after so many
turns. -/
def forPagesFrom (body : σ → Nat → Option σ) (length : Nat) : Nat → Nat → σ → Option σ
  | 0, i, s => if i < length then none else some s
  | turns + 1, i, s =>
    if i < length then
      (body s i).bind fun s => forPagesFrom body length turns ((i + pageSize) % wordSize) s
    else some s

/-- The same loop from 0. After `2 ^ 52` turns `i` is 0 again: a loop that has
not ended by then never does. -/
def forPages (body : σ → Nat → Option σ) (length : Nat) (s : σ) : Option σ :=
  forPagesFrom body length (2 ^ 52) 0 s

/-- The number of turns of a loop over a length in steps of a page. -/
def pageTurns (length : Nat) : Nat := (length + pageSize - 1) / pageSize

/-- The address is the `i`th byte from `addr` for an index `i` of such a loop. -/
def PagesFrom (addr : BitVec 64) (length : Nat) (virtualAddress : BitVec 64) : Prop :=
  ∃ page < pageTurns length, virtualAddress = addr + BitVec.ofNat 64 (page * pageSize)

variable {body : σ → Nat → Option σ} {length : Nat}

private theorem pageTurns_bounds (length : Nat) :
    pageTurns length * pageSize < length + pageSize ∧ length ≤ pageTurns length * pageSize := by
  simp only [pageTurns, pageSize]
  omega

private theorem forPagesFrom_eq (short : length ≤ wordSize - pageSize)
    (inside : page + left = pageTurns length) (enough : left ≤ turns) :
    forPagesFrom body length turns (page * pageSize) s =
      ((List.range' page left).map (· * pageSize)).foldlM body s := by
  obtain ⟨above, covers⟩ := pageTurns_bounds length
  induction turns generalizing page left s with
  | zero =>
    simp_all [forPagesFrom]
  | succ turns ih =>
    cases left with
    | zero =>
      simp_all [forPagesFrom, if_neg]
    | succ left =>
      have room : (page + 1) * pageSize ≤ pageTurns length * pageSize :=
        Nat.mul_le_mul_right _ (by omega)
      rw [Nat.succ_mul] at room
      have large : pageSize < wordSize := by decide
      have fits : page * pageSize + pageSize < wordSize := by omega
      have onward : (page * pageSize + pageSize) % wordSize = (page + 1) * pageSize := by
        rw [Nat.mod_eq_of_lt fits, Nat.add_mul, Nat.one_mul]
      rw [forPagesFrom, if_pos (by omega : page * pageSize < length), onward, List.range'_succ,
        List.map_cons, List.foldlM_cons]
      exact congrArg (Option.bind _) (funext fun s => ih (by omega) (by omega))

theorem forPages_eq (short : length ≤ wordSize - pageSize) (s : σ) :
    forPages body length s = ((List.range (pageTurns length)).map (· * pageSize)).foldlM body s := by
  have turns := @forPagesFrom_eq _ body length 0 (pageTurns length) (2 ^ 52) s short (Nat.zero_add _) (by
    simp only [wordSize, pageSize] at short
    simp only [pageTurns, pageSize]
    omega)
  simp_all [forPages, List.range_eq_range']

theorem forPages_page (s : σ) : forPages body pageSize s = body s 0 := by
  rw [forPages_eq (by decide)]
  change (body s (0 * pageSize)).bind some = _
  rw [Nat.zero_mul, Option.bind_fun_some]

private theorem forPagesFrom_none (long : wordSize - pageSize < length) (ends : page + turns = 2 ^ 52) :
    forPagesFrom body length turns (page * pageSize % wordSize) s = none := by
  have below : page * pageSize % wordSize < length := by
    simp only [wordSize, pageSize] at long ⊢
    omega
  induction turns generalizing page s with
  | zero => rw [forPagesFrom, if_pos below]
  | succ turns ih =>
    have onward : (page * pageSize % wordSize + pageSize) % wordSize = (page + 1) * pageSize % wordSize := by
      rw [Nat.mod_add_mod, Nat.succ_mul]
    rw [forPagesFrom, if_pos below, onward]
    cases body s (page * pageSize % wordSize) with
    | none => rfl
    | some next =>
      grind [wordSize, pageSize]

theorem forPages_none (long : wordSize - pageSize < length) (s : σ) : forPages body length s = none :=
  @forPagesFrom_none _ body length 0 (2 ^ 52) s long (Nat.zero_add _)

theorem short_of_forPages (ran : forPages body length s = some s') : length ≤ wordSize - pageSize := by
  grind [forPages_none]

theorem forPages_counts {inv : Nat → σ → Prop} (ran : forPages body length s = some s')
    (kept : ∀ page < pageTurns length, ∀ s s', inv page s → body s (page * pageSize) = some s' →
      inv (page + 1) s') (start : inv 0 s) : inv (pageTurns length) s' := by
  rw [forPages_eq (short_of_forPages ran), List.foldlM_map] at ran
  exact foldlM_range_keeps kept start ran

theorem forPages_keeps {inv : σ → Prop} (ran : forPages body length s = some s')
    (kept : ∀ s page s', inv s → page < pageTurns length → body s (page * pageSize) = some s' → inv s')
    (start : inv s) : inv s' := by
  rw [forPages_eq (short_of_forPages ran)] at ran
  refine foldlM_keeps (fun i member s s' holds turned => ?_) start ran
  grind

end MandelbrotOS.PageLoops
