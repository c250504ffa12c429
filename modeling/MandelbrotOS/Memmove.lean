import Mathlib.Tactic.IntervalCases
import MandelbrotOS.ByteMemory
import MandelbrotOS.Vectors

/-! The kernel's `memmove`, `string/string.c`, byte by byte, and the operations of
`include/vec.h` that use it. The loops go in the right direction for every overlap,
but they count words of eight bytes where the callers count bytes. -/
namespace MandelbrotOS.Memmove
open ByteMemory

/-! ### The code -/

/-- `rdest[i] = rsrc[i]`. -/
def moveWord (mem : Memory) (dest src i : Nat) : Memory :=
  storeWord mem (dest + 8 * i) (word mem (src + 8 * i))

/-- The loop from the first word on. -/
def moveUp (mem : Memory) (dest src l : Nat) : Memory :=
  (List.range l).foldl (fun mem i => moveWord mem dest src i) mem

/-- The loop from the last word down. -/
def moveDown (mem : Memory) (dest src : Nat) : Nat → Memory
  | 0 => mem
  | i + 1 => moveDown (moveWord mem dest src i) dest src i

def memmove (mem : Memory) (dest src l : Nat) : Memory :=
  if src > dest then moveUp mem dest src l
  else if src < dest then moveDown mem dest src l
  else mem

/-- A `vec_t`, with the size of its elements. -/
structure ByteVec where
  data : Nat
  length : Nat
  capacity : Nat
  memsz : Nat
  fits : length ≤ capacity

/-- The bytes of an element. -/
def ByteVec.element (v : ByteVec) (mem : Memory) (idx : Nat) : List (BitVec 8) :=
  bytesAt mem (v.data + idx * v.memsz) v.memsz

def vecSplice (mem : Memory) (v : ByteVec) (start count : Nat) : Memory × ByteVec :=
  (memmove mem (v.data + start * v.memsz) (v.data + (start + count) * v.memsz)
      ((v.length - start - count) * v.memsz),
    { v with length := v.length - count, fits := Nat.le_trans (Nat.sub_le _ _) v.fits })

def vecFind (mem : Memory) (v : ByteVec) (val : List (BitVec 8)) : Option Nat :=
  (List.range v.length).find? fun idx => v.element mem idx = val

def vecRemove (mem : Memory) (v : ByteVec) (val : List (BitVec 8)) : Memory × ByteVec :=
  match vecFind mem v val with
  | none => (mem, v)
  | some idx => vecSplice mem v idx 1

/-! ### What is moved -/

theorem byte_of_word (mem : Memory) (adr : Nat) (small : k < 8) :
    (word mem adr >>> (8 * k)).setWidth 8 = mem (adr + k) := by
  apply BitVec.eq_of_getLsbD_eq
  intro i inside
  simp only [word, BitVec.getLsbD_setWidth, BitVec.getLsbD_ushiftRight, BitVec.getLsbD_append]
  interval_cases k <;> grind

theorem moveWord_eq (mem : Memory) (dest src i : Nat) :
    moveWord mem dest src i = copy mem (dest + 8 * i) 8 fun k => mem (src + 8 * i + k) := by
  funext place
  rw [moveWord, storeWord, copy]
  grind [byte_of_word]

theorem moveUp_eq (mem : Memory) (above : dest < src) (l : Nat) :
    moveUp mem dest src l = copy mem dest (8 * l) fun k => mem (src + k) := by
  induction l with
  | zero =>
    funext place
    rw [copy_apart (by omega)]
    rfl
  | succ l ih =>
    have step : moveUp mem dest src (l + 1) = moveWord (moveUp mem dest src l) dest src l := by
      simp [moveUp, List.range_succ]
    rw [step, ih, moveWord_eq]
    funext place
    by_cases last : dest + 8 * l ≤ place ∧ place < dest + 8 * l + 8
    · rw [copy, if_pos last, copy_apart (by omega), copy, if_pos (by omega)]
      congr 1
      omega
    · rw [copy_apart (by omega), copy, copy]
      refine if_congr ?_ rfl rfl
      omega

theorem moveDown_eq (mem : Memory) (below : src < dest) (l : Nat) :
    ∀ i ≤ l, moveDown (copy mem (dest + 8 * i) (8 * (l - i)) fun k => mem (src + 8 * i + k)) dest src i =
      copy mem dest (8 * l) fun k => mem (src + k) := by
  intro i inside
  induction i with
  | zero => rfl
  | succ i ih =>
    rw [moveDown, ← ih (by omega), moveWord_eq]
    congr 1
    funext place
    by_cases last : dest + 8 * i ≤ place ∧ place < dest + 8 * i + 8
    · rw [copy, if_pos last, copy_apart (by omega), copy, if_pos (by omega)]
    · grind [copy]

theorem memmove_eq (mem : Memory) (dest src l : Nat) :
    memmove mem dest src l = copy mem dest (8 * l) fun k => mem (src + k) := by
  rw [memmove]
  split
  next above => exact moveUp_eq mem above l
  next =>
    split
    next below =>
      rw [← moveDown_eq mem below l l (Nat.le_refl l)]
      congr 1
      funext place
      rw [copy_apart (by omega)]
    next =>
      have same : src = dest := by omega
      funext place
      simp_all [copy]

theorem memmove_words (mem : Memory) (base dest src count : Nat) :
    (fun place => word (memmove mem (base + 8 * dest) (base + 8 * src) count) (base + 8 * place)) =
      Vectors.memmove (fun place => word mem (base + 8 * place)) dest src count := by
  funext place
  rw [memmove_eq, Vectors.memmove]
  split
  next inside =>
    refine word_congr fun k small => ?_
    rw [copy, if_pos (by omega)]
    congr 1
    omega
  next => exact word_copy_apart (by omega)

/-- With elements of eight bytes, `vec_splice` in memory is the one of `Vectors`. -/
theorem vecSplice_words (mem : Memory) (v : ByteVec) (words : v.memsz = 8) (start count : Nat) :
    (fun place => word (vecSplice mem v start count).1 (v.data + 8 * place)) =
      (Vectors.vecSplice ⟨fun place => word mem (v.data + 8 * place), v.length⟩ start count).data := by
  rw [vecSplice, words, Nat.mul_comm start, Nat.mul_comm (start + count)]
  exact memmove_words mem v.data start (start + count) _

/-! ### What is asked of it -/

/-- The `l` bytes at `dest` are those that were at `src`, and no other byte changes. -/
def MovesExactly (mem : Memory) (dest src l : Nat) : Prop :=
  (∀ j < l, memmove mem dest src l (dest + j) = mem (src + j)) ∧
    ∀ place, (place < dest ∨ dest + l ≤ place) → memmove mem dest src l place = mem place

/-- Nothing outside the array's allocation changes. -/
def StorageOnly (mem : Memory) (v : ByteVec) (after : Memory) : Prop :=
  ∀ place, (place < v.data ∨ v.data + v.capacity * v.memsz ≤ place) → after place = mem place

/-- The bytes behind the allocation that a splice moves are equal to those they are
moved to. -/
def Unmarked (mem : Memory) (v : ByteVec) (start count : Nat) : Prop :=
  ∀ j < 8 * ((v.length - start - count) * v.memsz),
    v.data + v.capacity * v.memsz ≤ v.data + start * v.memsz + j →
      mem (v.data + (start + count) * v.memsz + j) = mem (v.data + start * v.memsz + j)

/-- The first element with the bytes `val`. -/
def FirstAt (mem : Memory) (v : ByteVec) (val : List (BitVec 8)) (idx : Nat) : Prop :=
  idx < v.length ∧ v.element mem idx = val ∧ ∀ before < idx, v.element mem before ≠ val

theorem movesExactly_iff (mem : Memory) (dest src l : Nat) :
    MovesExactly mem dest src l ↔ ∀ j, l ≤ j → j < 8 * l → mem (src + j) = mem (dest + j) := by
  have moved (j : Nat) (inside : j < 8 * l) : memmove mem dest src l (dest + j) = mem (src + j) := by
    simp_all [memmove_eq, copy]
  constructor
  · rintro ⟨_, others⟩ j past inside
    rw [← moved j inside, others (dest + j) (by omega)]
  · refine fun same => ⟨fun j inside => moved j (by omega), fun place outside => ?_⟩
    by_cases written : dest ≤ place ∧ place < dest + 8 * l
    · grind [Nat.exists_eq_add_of_le]
    · rw [memmove_eq, copy_apart (by omega)]

theorem vecSplice_copies (mem : Memory) (v : ByteVec) (start count : Nat) :
    (vecSplice mem v start count).1 =
      copy mem (v.data + start * v.memsz) (8 * ((v.length - start - count) * v.memsz))
        fun k => mem (v.data + (start + count) * v.memsz + k) := memmove_eq ..

theorem storageOnly_vecSplice_iff (mem : Memory) (v : ByteVec) (start count : Nat) :
    StorageOnly mem v (vecSplice mem v start count).1 ↔ Unmarked mem v start count := by
  rw [vecSplice_copies]
  constructor
  · intro kept j inside behind
    rw [← kept _ (.inr behind), copy, if_pos (by omega), Nat.add_sub_cancel_left]
  · intro unmarked place outside
    rw [copy]
    split
    next written =>
      obtain ⟨j, rfl⟩ := Nat.exists_eq_add_of_le written.1
      rw [Nat.add_sub_cancel_left]
      exact unmarked j (by omega) (by omega)
    next => rfl

theorem vecFind_eq_some_iff : vecFind mem v val = some idx ↔ FirstAt mem v val idx := by
  rw [vecFind, List.find?_range_eq_some, FirstAt]
  grind

theorem storageOnly_vecRemove_iff (mem : Memory) (v : ByteVec) (val : List (BitVec 8)) :
    StorageOnly mem v (vecRemove mem v val).1 ↔ ∀ idx, FirstAt mem v val idx → Unmarked mem v idx 1 := by
  simp only [← vecFind_eq_some_iff, vecRemove]
  cases found : vecFind mem v val with
  | none => exact ⟨fun _ idx absent => by simp at absent, fun _ place _ => rfl⟩
  | some idx => simp only [Option.some.injEq, forall_eq', storageOnly_vecSplice_iff]

/-- **memmove**: a move is exact when the seven times `l` bytes behind the first `l`
are the same at both places, and a splice or a removal leaves the memory behind the
array alone when the bytes it moves there are the same. -/
theorem memmove_exact_iff (mem : Memory) :
    (∀ dest src l, MovesExactly mem dest src l ↔ ∀ j, l ≤ j → j < 8 * l → mem (src + j) = mem (dest + j)) ∧
      (∀ (v : ByteVec) start count, start + count ≤ v.length →
        (StorageOnly mem v (vecSplice mem v start count).1 ↔ Unmarked mem v start count)) ∧
      ∀ v val, StorageOnly mem v (vecRemove mem v val).1 ↔
        ∀ idx, FirstAt mem v val idx → Unmarked mem v idx 1 :=
  ⟨movesExactly_iff mem, fun v start count _ => storageOnly_vecSplice_iff mem v start count,
    storageOnly_vecRemove_iff mem⟩

/-- Two bytes among zeros. -/
def twoBytes : Memory := fun place => if place = 100 then 1 else if place = 101 then 2 else 0

/-- An array at address 0 with two elements of eight bytes and no room for a third. -/
def twoElements : ByteVec := ⟨0, 2, 2, 8, Nat.le_refl 2⟩

theorem twoBytes_moved :
    MovesExactly twoBytes 0 100 2 ∧ StorageOnly twoBytes twoElements (vecSplice twoBytes twoElements 0 1).1 := by
  have zero (place : Nat) (low : place < 100) : twoBytes place = 0 := by
    rw [twoBytes, if_neg (by omega), if_neg (by omega)]
  constructor
  · refine ((memmove_exact_iff twoBytes).1 0 100 2).mpr fun j past inside => ?_
    rw [zero (0 + j) (by omega), twoBytes, if_neg (by omega), if_neg (by omega)]
  · refine ((memmove_exact_iff twoBytes).2.1 twoElements 0 1 (by decide)).mpr fun j inside _ => ?_
    simp only [twoElements] at inside ⊢
    rw [zero _ (by omega), zero _ (by omega)]

/-- Memory in which byte `k` is `k`. -/
def counting : Memory := fun place => .ofNat 8 place

/-- One byte is to be moved to address 0 and eight are; and removing the first of two
elements writes over what stands behind them. -/
theorem neighbour_overwritten :
    memmove counting 0 16 1 1 = 17 ∧ ¬ MovesExactly counting 0 16 1 ∧
      (vecRemove counting twoElements (twoElements.element counting 0)).1 16 = 24 ∧
      ¬ StorageOnly counting twoElements (vecRemove counting twoElements (twoElements.element counting 0)).1 := by
  have second : memmove counting 0 16 1 1 = 17 := by decide
  have behind : (vecRemove counting twoElements (twoElements.element counting 0)).1 16 = 24 := by decide
  refine ⟨second, fun moves => ?_, behind, fun kept => ?_⟩
  · have same := moves.2 1 (.inr (by decide))
    rw [second] at same
    exact absurd same (by decide)
  · have same := kept 16 (.inr (by decide))
    rw [behind] at same
    exact absurd same (by decide)

theorem twoElements_words :
    (fun place => word (vecSplice twoBytes twoElements 0 1).1 (0 + 8 * place)) =
      (Vectors.vecSplice ⟨fun place => word twoBytes (0 + 8 * place), 2⟩ 0 1).data :=
  vecSplice_words twoBytes twoElements rfl 0 1

end MandelbrotOS.Memmove
