import Mathlib.Tactic.Common

/-! Reading and overwriting a stretch of a list. Transfers cut at block
boundaries are sequences of these; the laws say that the pieces of a cut
transfer add up to the whole one. -/
namespace MandelbrotOS.Splice

variable {α : Type}

/-- The `count` elements from `start` on. -/
def slice (items : List α) (start count : Nat) : List α := (items.drop start).take count

/-- The list with the elements from `start` on overwritten by `patch`. -/
def splice (items : List α) (start : Nat) (patch : List α) : List α :=
  items.take start ++ patch ++ items.drop (start + patch.length)

theorem length_slice (inside : start + count ≤ items.length) :
    (slice items start count).length = count := by
  grind [slice]

theorem length_splice (inside : start + patch.length ≤ items.length) :
    (splice items start patch).length = items.length := by
  grind [splice]

@[simp] theorem slice_zero (items : List α) (start : Nat) : slice items start 0 = [] := by
  simp [slice]

@[simp] theorem splice_nil (items : List α) (start : Nat) : splice items start [] = items := by
  simp [splice]

theorem slice_append (items : List α) (start m n : Nat) :
    slice items start m ++ slice items (start + m) n = slice items start (m + n) := by
  simp [slice, List.take_add]

theorem slice_slice (items : List α) (inside : offset + m ≤ n) :
    slice (slice items start n) offset m = slice items (start + offset) m := by
  grind [slice, List.drop_take, List.drop_drop]

/-- Where an element of an overwritten list comes from. -/
theorem getElem?_splice (inside : start + patch.length ≤ items.length) (index : Nat) :
    (splice items start patch)[index]? =
      if start ≤ index ∧ index < start + patch.length then patch[index - start]?
      else items[index]? := by
  have width : (items.take start).length = start := by
    rw [List.length_take]
    omega
  grind [splice]

theorem splice_append (inside : start + (first ++ second).length ≤ items.length) :
    splice (splice items start first) (start + first.length) second =
      splice items start (first ++ second) := by
  rw [List.length_append] at inside
  have widened : start + first.length + second.length ≤ (splice items start first).length := by
    rw [length_splice (by omega)]
    omega
  apply List.ext_getElem?
  intro index
  rw [getElem?_splice widened, getElem?_splice (by omega),
    getElem?_splice (by rw [List.length_append]; omega), List.length_append, List.getElem?_append]
  grind

theorem splice_slice_splice (inside : start + width ≤ items.length)
    (fits : offset + patch.length ≤ width) :
    splice items start (splice (slice items start width) offset patch) =
      splice items (start + offset) patch := by
  have sliceWidth := length_slice inside
  have patched : (splice (slice items start width) offset patch).length = width := by
    rw [length_splice (by omega), sliceWidth]
  apply List.ext_getElem?
  intro index
  rw [getElem?_splice (by omega), getElem?_splice (by omega), patched,
    getElem?_splice (by omega), slice]
  grind

end MandelbrotOS.Splice
