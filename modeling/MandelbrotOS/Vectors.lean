import Mathlib.Logic.Function.Basic
import Mathlib.Tactic.Common

/-! The growing arrays of `include/vec.h`, with elements of one word. `data` is
all the memory from the array on: the kernel's `memmove` counts words where
`vec_splice_` gives bytes, so it moves eight times as many as it should, and
the slot behind the last element can still be read. -/
namespace MandelbrotOS.Vectors

structure Vec (α : Type) where
  data : Nat → α
  length : Nat

variable {α : Type}

/-- The elements. -/
def Vec.toList (v : Vec α) : List α := (List.range v.length).map v.data

/-- `memmove` to a lower place, in words. -/
def memmove (data : Nat → α) (dest src count : Nat) : Nat → α := fun place =>
  if dest ≤ place ∧ place < dest + count then data (src + (place - dest)) else data place

def vecPush (v : Vec α) (val : α) : Vec α := ⟨Function.update v.data v.length val, v.length + 1⟩

def vecSplice (v : Vec α) (start count : Nat) : Vec α :=
  ⟨memmove v.data start (start + count) ((v.length - start - count) * 8), v.length - count⟩

def vecFind [DecidableEq α] (v : Vec α) (val : α) : Option Nat :=
  (List.range v.length).find? fun idx => v.data idx = val

def vecRemove [DecidableEq α] (v : Vec α) (val : α) : Vec α :=
  match vecFind v val with
  | none => v
  | some idx => vecSplice v idx 1

theorem toList_getElem? (v : Vec α) (idx : Nat) :
    v.toList[idx]? = if idx < v.length then some (v.data idx) else none := by
  rw [Vec.toList, List.getElem?_map]
  grind

theorem toList_vecPush (v : Vec α) (val : α) : (vecPush v val).toList = v.toList ++ [val] := by
  have kept : ∀ idx ∈ List.range v.length, Function.update v.data v.length val idx = v.data idx :=
    fun idx inside => Function.update_of_ne (Nat.ne_of_lt (List.mem_range.mp inside)) _ _
  simp_all [Vec.toList, vecPush, List.range_succ]

theorem toList_vecSplice (v : Vec α) (inside : start < v.length) :
    (vecSplice v start 1).toList = v.toList.eraseIdx start := by
  apply List.ext_getElem?
  intro idx
  have width : (vecSplice v start 1).length = v.length - 1 := rfl
  have moved : (vecSplice v start 1).data idx = if start ≤ idx ∧
      idx < start + (v.length - start - 1) * 8 then v.data (start + 1 + (idx - start)) else v.data idx := rfl
  rw [List.getElem?_eraseIdx, toList_getElem?, toList_getElem?, toList_getElem?, width, moved]
  grind

theorem vecSplice_data (v : Vec α) (inside : start < v.length) :
    (vecSplice v start 1).data start = v.data (if start + 1 < v.length then start + 1 else start) := by
  simp only [vecSplice, memmove]
  grind

end MandelbrotOS.Vectors
