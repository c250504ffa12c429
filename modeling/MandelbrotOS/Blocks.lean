import Mathlib.Data.List.GetD
import MandelbrotOS.ByteMemory

/-! A sequence of bytes kept in blocks of one width that lie anywhere in memory.
Reading the blocks in order gives the sequence; writing a sequence to them
changes them and nothing else. -/
namespace MandelbrotOS.Blocks
open ByteMemory

/-- Where the `k`th byte of the sequence is. -/
def place (starts : List Nat) (width k : Nat) : Nat := starts.getD (k / width) 0 + k % width

/-- No two blocks overlap. -/
def Disjoint (width : Nat) (starts : List Nat) : Prop :=
  starts.Pairwise fun one other => one + width ≤ other ∨ other + width ≤ one

/-- Write the sequence block by block, from its given byte on. -/
def scatter (width : Nat) (bytes : Nat → BitVec 8) : Memory → Nat → List Nat → Memory
  | mem, _, [] => mem
  | mem, offset, start :: rest =>
    scatter width bytes (copy mem start width fun k => bytes (offset + k)) (offset + width) rest

/-- Read the blocks into a buffer, from its given place on. -/
def gather (width : Nat) (mem : Memory) : Memory → Nat → List Nat → Memory
  | buffer, _, [] => buffer
  | buffer, offset, start :: rest =>
    gather width mem (copy buffer offset width fun k => mem (start + k)) (offset + width) rest

theorem place_cons_low (low : k < width) : place (start :: rest) width k = start + k := by
  rw [place, Nat.div_eq_of_lt low, Nat.mod_eq_of_lt low]
  rfl

theorem place_cons_high (positive : 0 < width) (high : width ≤ k) :
    place (start :: rest) width k = place rest width (k - width) := by
  obtain ⟨later, rfl⟩ := Nat.exists_eq_add_of_le high
  simp_all [place]

theorem place_in_block (positive : 0 < width) (inside : k < starts.length * width) :
    ∃ start ∈ starts, start ≤ place starts width k ∧ place starts width k < start + width := by
  have short : k / width < starts.length := Nat.div_lt_of_lt_mul (Nat.mul_comm _ _ ▸ inside)
  refine ⟨starts[k / width], List.getElem_mem short, ?_⟩
  simp_all [Nat.mod_lt, place]

theorem place_of_block (positive : 0 < width) (member : start ∈ starts) (low : start ≤ adr)
    (high : adr < start + width) : ∃ k < starts.length * width, place starts width k = adr := by
  obtain ⟨i, short, rfl⟩ := List.getElem_of_mem member
  refine ⟨i * width + (adr - starts[i]), ?_, ?_⟩
  · calc i * width + (adr - starts[i]) < i * width + width := by omega
      _ = (i + 1) * width := (Nat.succ_mul i width).symm
      _ ≤ starts.length * width := Nat.mul_le_mul_right _ short
  · have block : (i * width + (adr - starts[i])) / width = i := by
      rw [Nat.mul_comm, Nat.mul_add_div positive, Nat.div_eq_of_lt (by omega), Nat.add_zero]
    have rest : (i * width + (adr - starts[i])) % width = adr - starts[i] := by
      rw [Nat.mul_comm, Nat.mul_add_mod, Nat.mod_eq_of_lt (by omega)]
    simp_all [place]

theorem scatter_outside (outside : ∀ start ∈ starts, adr < start ∨ start + width ≤ adr) :
    scatter width bytes mem offset starts adr = mem adr := by
  induction starts generalizing mem offset with
  | nil => rfl
  | cons start rest ih =>
    rw [scatter, ih fun other member => outside other (List.mem_cons_of_mem _ member), copy,
      if_neg (by have := outside start List.mem_cons_self; omega)]

theorem scatter_place (positive : 0 < width) (disjoint : Disjoint width starts)
    (inside : k < starts.length * width) :
    scatter width bytes mem offset starts (place starts width k) = bytes (offset + k) := by
  induction starts generalizing mem offset k with
  | nil =>
    simp_all
  | cons start rest ih =>
    obtain ⟨first, disjoint⟩ := List.pairwise_cons.mp disjoint
    by_cases low : k < width
    · rw [place_cons_low low, scatter, scatter_outside, copy, if_pos (by omega), Nat.add_sub_cancel_left]
      grind
    · have high := Nat.not_lt.mp low
      rw [List.length_cons, Nat.succ_mul] at inside
      rw [place_cons_high positive high, scatter, ih disjoint (by omega)]
      congr 1
      omega

theorem place_injective (positive : 0 < width) (disjoint : Disjoint width starts)
    (inside : k < starts.length * width) (inside' : k' < starts.length * width)
    (same : place starts width k = place starts width k') : k = k' := by
  induction starts generalizing k k' with
  | nil =>
    simp_all
  | cons start rest ih =>
    obtain ⟨first, disjoint⟩ := List.pairwise_cons.mp disjoint
    rw [List.length_cons, Nat.succ_mul] at inside inside'
    have crossed {low high : Nat} (below : low < width) (above : width ≤ high)
        (within : high < rest.length * width + width) :
        place (start :: rest) width low ≠ place (start :: rest) width high := by
      rw [place_cons_low below, place_cons_high positive above]
      obtain ⟨other, member, floor, ceiling⟩ :=
        place_in_block positive (by omega : high - width < rest.length * width)
      have apart := first other member
      omega
    by_cases low : k < width <;> by_cases low' : k' < width
    · simp_all [place_cons_low]
    · simp_all
    · grind
    · have high := Nat.not_lt.mp low
      have high' := Nat.not_lt.mp low'
      rw [place_cons_high positive high, place_cons_high positive high'] at same
      have := ih disjoint (by omega) (by omega) same
      omega

theorem scatter_eq (positive : 0 < width) (disjoint : Disjoint width starts)
    (held : ∀ k < starts.length * width, mem' (place starts width k) = bytes k)
    (outside : ∀ adr, (∀ start ∈ starts, adr < start ∨ start + width ≤ adr) → mem' adr = mem adr) :
    scatter width bytes mem 0 starts = mem' := by
  funext adr
  by_cases apart : ∀ start ∈ starts, adr < start ∨ start + width ≤ adr
  · rw [scatter_outside apart, outside adr apart]
  · simp only [not_forall, not_or, Nat.not_lt, Nat.not_le, exists_prop] at apart
    obtain ⟨start, member, low, high⟩ := apart
    obtain ⟨k, inside, rfl⟩ := place_of_block positive member low high
    simp_all [scatter_place]

theorem gather_below (below : adr < offset) :
    gather width mem buffer offset starts adr = buffer adr := by
  induction starts generalizing buffer offset with
  | nil => rfl
  | cons start rest ih =>
    rw [gather, ih (Nat.lt_add_right width below), copy, if_neg (by omega)]

theorem gather_above (above : offset + starts.length * width ≤ adr) :
    gather width mem buffer offset starts adr = buffer adr := by
  induction starts generalizing buffer offset with
  | nil => rfl
  | cons start rest ih =>
    rw [List.length_cons, Nat.succ_mul] at above
    rw [gather, ih (by omega), copy, if_neg (by omega)]

private theorem gather_offset (positive : 0 < width) (inside : k < starts.length * width)
    (mem buffer : Memory) (offset : Nat) :
    gather width mem buffer offset starts (offset + k) = mem (place starts width k) := by
  induction starts generalizing buffer offset k with
  | nil =>
    simp_all
  | cons start rest ih =>
    by_cases low : k < width
    · rw [place_cons_low low, gather, gather_below (Nat.add_lt_add_left low offset), copy,
        if_pos (by omega), Nat.add_sub_cancel_left]
    · have high := Nat.not_lt.mp low
      rw [List.length_cons, Nat.succ_mul] at inside
      rw [place_cons_high positive high, gather, ← ih (by omega)]
      congr 1
      omega

theorem gather_place (positive : 0 < width) (inside : k < starts.length * width) (mem buffer : Memory) :
    gather width mem buffer 0 starts k = mem (place starts width k) := by
  have read := gather_offset positive inside mem buffer 0
  rwa [Nat.zero_add] at read

theorem gather_congr (same : ∀ start ∈ starts, ∀ k < width, mem' (start + k) = mem (start + k))
    (buffer : Memory) (offset : Nat) :
    gather width mem' buffer offset starts = gather width mem buffer offset starts := by
  induction starts generalizing buffer offset with
  | nil => rfl
  | cons start rest ih =>
    have block : copy buffer offset width (fun k => mem' (start + k)) =
        copy buffer offset width fun k => mem (start + k) := by
      funext adr
      refine if_ctx_congr Iff.rfl (fun inside => ?_) fun _ => rfl
      exact same start List.mem_cons_self _ (by omega)
    simp_all [gather]

end MandelbrotOS.Blocks
