import Mathlib.Tactic.Common

/-! Byte-addressed memory with little-endian words of 64 and 32 bits: what a
load sees of a store, a fill and a copy. -/
namespace MandelbrotOS.ByteMemory

abbrev Memory := Nat → BitVec 8

/-- The 64-bit word at an address. -/
def word (mem : Memory) (adr : Nat) : BitVec 64 :=
  mem (adr + 7) ++ mem (adr + 6) ++ mem (adr + 5) ++ mem (adr + 4) ++
    mem (adr + 3) ++ mem (adr + 2) ++ mem (adr + 1) ++ mem adr

/-- The 32-bit word at an address. -/
def halfWord (mem : Memory) (adr : Nat) : BitVec 32 :=
  mem (adr + 3) ++ mem (adr + 2) ++ mem (adr + 1) ++ mem adr

def storeWord (mem : Memory) (adr : Nat) (value : BitVec 64) : Memory := fun place =>
  if adr ≤ place ∧ place < adr + 8 then (value >>> (8 * (place - adr))).setWidth 8 else mem place

/-- `memset` of `count` bytes. -/
def fill (mem : Memory) (adr count : Nat) (byte : BitVec 8) : Memory := fun place =>
  if adr ≤ place ∧ place < adr + count then byte else mem place

/-- `memcpy` of `count` bytes, given by their distance from the first. -/
def copy (mem : Memory) (adr count : Nat) (bytes : Nat → BitVec 8) : Memory := fun place =>
  if adr ≤ place ∧ place < adr + count then bytes (place - adr) else mem place

/-- The bytes from an address on. -/
def bytesAt (mem : Memory) (adr count : Nat) : List (BitVec 8) :=
  (List.range count).map fun k => mem (adr + k)

@[simp] theorem length_bytesAt (mem : Memory) (adr count : Nat) : (bytesAt mem adr count).length = count := by
  simp [bytesAt]

theorem bytesAt_congr {mem mem' : Memory} (same : ∀ k < count, mem (adr + k) = mem' (adr' + k)) :
    bytesAt mem adr count = bytesAt mem' adr' count :=
  List.map_congr_left fun k member => same k (List.mem_range.mp member)

theorem bytesAt_add (mem : Memory) (adr m n : Nat) :
    bytesAt mem adr (m + n) = bytesAt mem adr m ++ bytesAt mem (adr + m) n := by
  simp [bytesAt, List.range_add, Nat.add_assoc]

/-- The words from an address on. -/
def wordsAt (mem : Memory) (adr : Nat) : Nat → List (BitVec 64)
  | 0 => []
  | count + 1 => word mem adr :: wordsAt mem (adr + 8) count

theorem bytesAt_split (mem : Memory) (first : start ≤ middle) (second : middle ≤ stop) :
    bytesAt mem start (stop - start) =
      bytesAt mem start (middle - start) ++ bytesAt mem middle (stop - middle) := by
  have whole := bytesAt_add mem start (middle - start) (stop - middle)
  grind [Nat.add_sub_cancel']

theorem bytesAt_copy_self (mem : Memory) (adr : Nat) (bytes : List (BitVec 8)) :
    bytesAt (copy mem adr bytes.length fun k => bytes.getD k 0) adr bytes.length = bytes := by
  apply List.ext_getElem
  · rw [length_bytesAt]
  · simp_all [bytesAt, copy]

theorem copy_apart (apart : place < adr ∨ adr + count ≤ place) :
    copy mem adr count bytes place = mem place := by
  rw [copy, if_neg (by omega)]

theorem storeWord_apart (apart : place < adr ∨ adr + 8 ≤ place) :
    storeWord mem adr value place = mem place := by
  rw [storeWord, if_neg (by omega)]

theorem fill_apart (apart : place < adr ∨ adr + count ≤ place) :
    fill mem adr count byte place = mem place := by
  rw [fill, if_neg (by omega)]

theorem fill_inside (start : adr ≤ place) (inside : place < adr + count) :
    fill mem adr count byte place = byte := by
  rw [fill, if_pos ⟨start, inside⟩]

theorem word_congr {mem mem' : Memory} (same : ∀ k < 8, mem (adr + k) = mem' (adr' + k)) :
    word mem adr = word mem' adr' := by
  simp only [word, same 7 (by omega), same 6 (by omega), same 5 (by omega), same 4 (by omega),
    same 3 (by omega), same 2 (by omega), same 1 (by omega)]
  rw [show mem adr = mem' adr' from same 0 (by omega)]

theorem wordsAt_congr {mem mem' : Memory} (same : ∀ k < 8 * count, mem (adr + k) = mem' (adr' + k)) :
    wordsAt mem adr count = wordsAt mem' adr' count := by
  induction count generalizing adr adr' with
  | zero => rfl
  | succ count ih =>
    rw [wordsAt, wordsAt, word_congr fun k small => same k (by omega)]
    congr 1
    refine ih fun k small => ?_
    rw [Nat.add_assoc, Nat.add_assoc]
    exact same (8 + k) (by omega)

theorem wordsAt_succ (mem : Memory) (adr count : Nat) :
    wordsAt mem adr (count + 1) = wordsAt mem adr count ++ [word mem (adr + 8 * count)] := by
  induction count generalizing adr with
  | zero => rfl
  | succ count ih =>
    grind [wordsAt]

theorem halfWord_congr {mem mem' : Memory} (same : ∀ k < 4, mem (adr + k) = mem' (adr + k)) :
    halfWord mem adr = halfWord mem' adr := by
  simp only [halfWord, same 3 (by omega), same 2 (by omega), same 1 (by omega)]
  rw [show mem adr = mem' adr from same 0 (by omega)]

theorem halfWord_mod (mem : Memory) (adr : Nat) : (halfWord mem adr).toNat % 256 = (mem adr).toNat := by
  grind [halfWord, BitVec.setWidth_append_eq_right]

theorem halfWord_of_bytes {mem : Memory} {value : BitVec 32}
    (bytes : ∀ k < 4, mem (adr + k) = value.extractLsb' (8 * k) 8) : halfWord mem adr = value := by
  rw [halfWord, bytes 3 (by decide), bytes 2 (by decide), bytes 1 (by decide),
    show mem adr = value.extractLsb' 0 8 from bytes 0 (by decide)]
  apply BitVec.eq_of_getLsbD_eq
  intro i inside
  simp only [BitVec.getLsbD_append, BitVec.getLsbD_extractLsb']
  grind

private theorem bytes_of_word (value : BitVec 64) :
    (value >>> 56).setWidth 8 ++ (value >>> 48).setWidth 8 ++ (value >>> 40).setWidth 8 ++
      (value >>> 32).setWidth 8 ++ (value >>> 24).setWidth 8 ++ (value >>> 16).setWidth 8 ++
      (value >>> 8).setWidth 8 ++ value.setWidth 8 = value := by
  apply BitVec.eq_of_getLsbD_eq
  intro i inside
  simp only [BitVec.getLsbD_append, BitVec.getLsbD_setWidth, BitVec.getLsbD_ushiftRight]
  grind

@[simp] theorem word_storeWord_self (mem : Memory) (adr : Nat) (value : BitVec 64) :
    word (storeWord mem adr value) adr = value := by
  simp [storeWord, word, bytes_of_word]

theorem word_storeWord_apart (apart : other + 8 ≤ adr ∨ adr + 8 ≤ other) :
    word (storeWord mem adr value) other = word mem other :=
  word_congr fun _ _ => storeWord_apart (by omega)

theorem word_fill_apart (apart : other + 8 ≤ adr ∨ adr + count ≤ other) :
    word (fill mem adr count byte) other = word mem other :=
  word_congr fun _ _ => fill_apart (by omega)

theorem word_copy_apart (apart : other + 8 ≤ adr ∨ adr + count ≤ other) :
    word (copy mem adr count bytes) other = word mem other := by
  refine word_congr fun k small => copy_apart (by omega)

theorem word_zero (adr : Nat) : word (fun _ => 0) adr = 0 := by
  rw [word]
  decide

theorem word_fill_zero (start : adr ≤ other) (inside : other + 8 ≤ adr + count) :
    word (fill mem adr count 0) other = 0 := by
  rw [← word_zero other]
  grind [word_congr, fill_inside]

end MandelbrotOS.ByteMemory
