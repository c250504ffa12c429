import Mathlib.Tactic.Common

/-! Growable arrays: a length, and items that are zero from there on. A write
lays items over the array and makes it as long as it has to be, so that what
lies between the old end and the new items is zero; a change of length cuts the
array or appends zeros. -/
namespace MandelbrotOS.GrowableArrays

variable {α : Type} [Zero α]

structure Growable (α : Type) [Zero α] where
  length : Nat
  item : Nat → α
  beyond : ∀ k, length ≤ k → item k = 0

def Growable.empty : Growable α := ⟨0, fun _ => 0, fun _ _ => rfl⟩

/-- The items laid over the array from `offset` on. -/
def Growable.write (array : Growable α) (offset : Nat) (items : List α) : Growable α where
  length := max array.length (offset + items.length)
  item k := if offset ≤ k ∧ k < offset + items.length then items.getD (k - offset) 0 else array.item k
  beyond k past := by
    rw [if_neg (by omega), array.beyond k (by omega)]

/-- The array cut or lengthened to `size`. -/
def Growable.resize (array : Growable α) (size : Nat) : Growable α where
  length := size
  item k := if k < size then array.item k else 0
  beyond k past := if_neg (by omega)

/-- Up to `count` items from `offset` on, as far as the array goes. -/
def Growable.read (array : Growable α) (offset count : Nat) : List α :=
  (List.range (min count (array.length - offset))).map fun k => array.item (offset + k)

theorem Growable.write_nil (array : Growable α) (within : offset ≤ array.length) :
    array.write offset [] = array := by
  obtain ⟨length, item, beyond⟩ := array
  have nowhere (k : Nat) : ¬ (offset ≤ k ∧ k < offset) := by omega
  simp only [Growable.write, List.length_nil, Nat.add_zero, Nat.max_eq_left within, nowhere, if_false]

theorem Growable.read_eq (array : Growable α) (items : Nat → α) (offset count : Nat)
    (same : ∀ k < min count (array.length - offset), items (offset + k) = array.item (offset + k)) :
    (List.range (min count (array.length - offset))).map (fun k => items (offset + k)) =
      array.read offset count := by
  apply List.map_congr_left
  simp_all

end MandelbrotOS.GrowableArrays
