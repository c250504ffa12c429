import MandelbrotOS.Runs
import MandelbrotOS.Splice
import MandelbrotOS.Vfs

/-! `device_read` and `device_write` of `dev/device.c`. A driver is reached
through its two function pointers; `σ` is everything the driver and its
hardware keep. Block drivers count in blocks, character drivers in bytes. The block
that a transfer goes through has the size `kmalloc` was asked for, which holds below
4 GiB. -/
namespace MandelbrotOS.BlockDevice
open Runs Splice Vfs

abbrev Bytes := List UInt8

/-- The fields of `device_t` the two calls use. A driver's `read` returns what
it puts in the buffer, its `write` is given the buffer. -/
structure Device (σ : Type) where
  type : BitVec 64
  blockSize : Nat
  blockCount : Nat
  read : σ → Nat → Nat → Int × Bytes × σ
  write : σ → Nat → Nat → Bytes → Int × σ

def isBlk (type : BitVec 64) : Bool := type &&& sIfmt.setWidth 64 == sIfblk.setWidth 64

def isChr (type : BitVec 64) : Bool := type &&& sIfmt.setWidth 64 == sIfchr.setWidth 64

variable {σ : Type}

/-- The last part of `device_read`: what is left is less than a block. -/
def readEnd (dev : Device σ) (s : σ) (start count : Nat) : Bytes × σ :=
  let last := count % dev.blockSize
  if last ≠ 0 then
    let (_, nbuf, s) := dev.read s (start / dev.blockSize) 1
    (slice nbuf (start % dev.blockSize) last, s)
  else ([], s)

/-- `device_read` from the computation of `blocks` on. -/
def readAligned (dev : Device σ) (s : σ) (start count : Nat) : Bytes × σ :=
  let blocks := count / dev.blockSize
  if blocks ≠ 0 then
    let (_, body, s) := dev.read s (start / dev.blockSize) blocks
    let count := count - blocks * dev.blockSize
    if count = 0 then (body, s)
    else
      let (last, s) := readEnd dev s ((start + blocks * dev.blockSize) % 2 ^ 64) count
      (body ++ last, s)
  else readEnd dev s start count

/-- `device_read`: the value returned, what was put in the buffer, and the
driver's state. -/
def deviceRead (dev : Device σ) (s : σ) (start count : Nat) : Int × Bytes × σ :=
  if isBlk dev.type then
    if start % dev.blockSize ≠ 0 then
      let len := min (dev.blockSize - start % dev.blockSize) count
      let (_, nbuf, s) := dev.read s (start / dev.blockSize) 1
      let first := slice nbuf (start % dev.blockSize) len
      if count - len = 0 then (0, first, s)
      else
        let (rest, s) := readAligned dev s ((start + len) % 2 ^ 64) (count - len)
        (0, first ++ rest, s)
    else (0, readAligned dev s start count)
  else if isChr dev.type then dev.read s start count
  else (1, [], s)

/-- The last part of `device_write`. The new bytes go to the front of the
block: by now `start` is a block boundary. -/
def writeEnd (dev : Device σ) (s : σ) (start count : Nat) (buf : Bytes) : σ :=
  let last := count % dev.blockSize
  if last ≠ 0 then
    let (_, nbuf, s) := dev.read s (start / dev.blockSize) 1
    (dev.write s (start / dev.blockSize) 1 (splice nbuf 0 (buf.take last))).2
  else s

/-- `device_write` from the computation of `blocks` on. -/
def writeAligned (dev : Device σ) (s : σ) (start count : Nat) (buf : Bytes) : σ :=
  let blocks := count / dev.blockSize
  if blocks ≠ 0 then
    let (_, s) := dev.write s (start / dev.blockSize) blocks buf
    let count := count - blocks * dev.blockSize
    if count = 0 then s
    else writeEnd dev s ((start + blocks * dev.blockSize) % 2 ^ 64) count
      (buf.drop (blocks * dev.blockSize))
  else writeEnd dev s start count buf

def deviceWrite (dev : Device σ) (s : σ) (start count : Nat) (buf : Bytes) : Int × σ :=
  if isBlk dev.type then
    if start % dev.blockSize ≠ 0 then
      let len := min (dev.blockSize - start % dev.blockSize) count
      let (_, nbuf, s) := dev.read s (start / dev.blockSize) 1
      let (_, s) := dev.write s (start / dev.blockSize) 1
        (splice nbuf (start % dev.blockSize) (buf.take len))
      if count - len = 0 then (0, s)
      else (0, writeAligned dev s ((start + len) % 2 ^ 64) (count - len) (buf.drop len))
    else (0, writeAligned dev s start count buf)
  else if isChr dev.type then dev.write s start count buf
  else (1, s)

/-! ### Block drivers -/

/-- A block device whose driver transfers exactly the whole blocks it is asked
for; `content` is the concatenation of its blocks. -/
structure BlockDriver (dev : Device σ) (content : σ → Bytes) : Prop where
  block : isBlk dev.type = true
  positive : 0 < dev.blockSize
  size : ∀ s, (content s).length = dev.blockCount * dev.blockSize
  reads : ∀ s first count, 0 < count → first + count ≤ dev.blockCount →
    (dev.read s first count).2.1 =
        slice (content s) (first * dev.blockSize) (count * dev.blockSize) ∧
      content (dev.read s first count).2.2 = content s
  writes : ∀ s first count buf, 0 < count → first + count ≤ dev.blockCount →
    count * dev.blockSize ≤ buf.length →
    content (dev.write s first count buf).2 =
      splice (content s) (first * dev.blockSize) (buf.take (count * dev.blockSize))

/-- A byte range inside the device, with `size_t` addresses. -/
def Inside (dev : Device σ) (start count : Nat) : Prop :=
  start + count ≤ dev.blockCount * dev.blockSize ∧ start + count ≤ 2 ^ 64

instance (dev : Device σ) (start count : Nat) : Decidable (Inside dev start count) :=
  inferInstanceAs (Decidable (_ ∧ _))

section
variable {dev : Device σ} {content : σ → Bytes}

private theorem block_inside (inside : start < dev.blockCount * dev.blockSize) :
    start / dev.blockSize + 1 ≤ dev.blockCount :=
  Nat.div_lt_of_lt_mul (by rwa [Nat.mul_comm] at inside)

private theorem block_start (start size : Nat) : start / size * size + start % size = start := by
  rw [Nat.mul_comm]
  exact Nat.div_add_mod start size

private theorem read_part (driver : BlockDriver dev content) (s : σ)
    (inside : start < dev.blockCount * dev.blockSize)
    (fits : start % dev.blockSize + len ≤ dev.blockSize) :
    slice (dev.read s (start / dev.blockSize) 1).2.1 (start % dev.blockSize) len =
        slice (content s) start len ∧
      content (dev.read s (start / dev.blockSize) 1).2.2 = content s := by
  obtain ⟨bytes, same⟩ := driver.reads s _ 1 Nat.one_pos (block_inside inside)
  simp_all [slice_slice, block_start]

private theorem write_part (driver : BlockDriver dev content) (s : σ) (patch : Bytes)
    (inside : start < dev.blockCount * dev.blockSize)
    (fits : start % dev.blockSize + patch.length ≤ dev.blockSize) :
    content (dev.write (dev.read s (start / dev.blockSize) 1).2.2 (start / dev.blockSize) 1
        (splice (dev.read s (start / dev.blockSize) 1).2.1 (start % dev.blockSize) patch)).2 =
      splice (content s) start patch := by
  have block := block_inside inside
  obtain ⟨bytes, same⟩ := driver.reads s _ 1 Nat.one_pos block
  have room : start / dev.blockSize * dev.blockSize + dev.blockSize ≤ (content s).length := by
    rw [driver.size, ← Nat.succ_mul]
    exact Nat.mul_le_mul_right _ block
  have width : (splice (slice (content s) (start / dev.blockSize * dev.blockSize) dev.blockSize)
      (start % dev.blockSize) patch).length = dev.blockSize := by
    simp_all [length_splice, length_slice]
  rw [bytes, Nat.one_mul, driver.writes _ _ 1 _ Nat.one_pos block (by rw [width]; omega), same,
    Nat.one_mul, List.take_of_length_le (Nat.le_of_eq width), splice_slice_splice room fits, block_start]

private theorem take_split {buf : Bytes} (within : m ≤ n) :
    buf.take n = buf.take m ++ (buf.drop m).take (n - m) := by
  rw [← List.take_add, Nat.add_sub_cancel' within]

section
variable (driver : BlockDriver dev content) (s : σ) (aligned : start % dev.blockSize = 0)
  (short : count < dev.blockSize) (inside : start + count ≤ dev.blockCount * dev.blockSize)
include driver s aligned short inside

private theorem readEnd_eq :
    (readEnd dev s start count).1 = slice (content s) start count ∧
      content (readEnd dev s start count).2 = content s := by
  rw [readEnd, Nat.mod_eq_of_lt short]
  by_cases empty : count = 0
  · subst empty
    simp
  · rw [if_pos empty]
    exact read_part driver s (by omega) (by omega)

private theorem writeEnd_eq (full : count ≤ buf.length) :
    content (writeEnd dev s start count buf) = splice (content s) start (buf.take count) := by
  rw [writeEnd, Nat.mod_eq_of_lt short]
  by_cases empty : count = 0
  · subst empty
    simp
  · have width : (buf.take count).length = count := by
      rw [List.length_take]
      omega
    have written := write_part driver s (buf.take count) (by omega : start < _) (by omega)
    simp_all

end

/-- How a transfer that starts on a block boundary falls into whole blocks and
a rest. -/
private structure Cut (dev : Device σ) (start count : Nat) : Prop where
  origin : start / dev.blockSize * dev.blockSize = start
  split : count / dev.blockSize * dev.blockSize + count % dev.blockSize = count
  blocks : start / dev.blockSize + count / dev.blockSize ≤ dev.blockCount
  rest : (start + count / dev.blockSize * dev.blockSize) % dev.blockSize = 0

private theorem cut_of_inside (positive : 0 < dev.blockSize) (aligned : start % dev.blockSize = 0)
    (inside : start + count ≤ dev.blockCount * dev.blockSize) : Cut dev start count := by
  have origin := block_start start dev.blockSize
  have split := block_start count dev.blockSize
  rw [aligned, Nat.add_zero] at origin
  refine ⟨origin, split, ?_, by rw [Nat.add_mul_mod_self_right, aligned]⟩
  apply Nat.le_of_mul_le_mul_right _ positive
  rw [Nat.add_mul, origin]
  omega

private theorem readAligned_eq (driver : BlockDriver dev content) (s : σ)
    (aligned : start % dev.blockSize = 0) (inside : Inside dev start count) :
    (readAligned dev s start count).1 = slice (content s) start count ∧
      content (readAligned dev s start count).2 = content s := by
  obtain ⟨origin, split, blocks, rest⟩ := cut_of_inside driver.positive aligned inside.1
  obtain ⟨inDevice, inWord⟩ := inside
  have short := Nat.mod_lt count driver.positive
  simp only [readAligned]
  by_cases none : count / dev.blockSize = 0
  · rw [if_neg (not_not_intro none)]
    rw [none, Nat.zero_mul] at split
    exact readEnd_eq driver s aligned (by omega) inDevice
  · obtain ⟨body, same⟩ := driver.reads s _ _ (Nat.pos_of_ne_zero none) blocks
    rw [origin] at body
    rw [if_pos none]
    generalize count / dev.blockSize * dev.blockSize = width at *
    by_cases done : count - width = 0
    · grind
    · rw [if_neg done, Nat.mod_eq_of_lt (by omega : start + width < 2 ^ 64)]
      grind [readEnd_eq, slice_append]

private theorem writeAligned_eq (driver : BlockDriver dev content) (s : σ)
    (aligned : start % dev.blockSize = 0) (inside : Inside dev start count)
    (full : count ≤ buf.length) :
    content (writeAligned dev s start count buf) = splice (content s) start (buf.take count) := by
  obtain ⟨origin, split, blocks, rest⟩ := cut_of_inside driver.positive aligned inside.1
  obtain ⟨inDevice, inWord⟩ := inside
  have short := Nat.mod_lt count driver.positive
  simp only [writeAligned]
  by_cases none : count / dev.blockSize = 0
  · simp_all [writeEnd_eq]
  · have body := driver.writes s (start / dev.blockSize) (count / dev.blockSize) buf
      (Nat.pos_of_ne_zero none) blocks (by omega)
    rw [origin] at body
    rw [if_pos none]
    generalize count / dev.blockSize * dev.blockSize = width at *
    by_cases done : count - width = 0
    · grind
    · have front : (buf.take width).length = width := by
        rw [List.length_take]
        omega
      have back : ((buf.drop width).take (count - width)).length = count - width := by
        grind
      rw [if_neg done, Nat.mod_eq_of_lt (by omega : start + width < 2 ^ 64),
        writeEnd_eq driver _ rest (by omega) (by omega) (by rw [List.length_drop]; omega), body]
      rw [take_split (by omega : width ≤ count),
        ← splice_append (by rw [List.length_append, front, back, driver.size]; omega), front]

private theorem first_piece (positive : 0 < dev.blockSize) (offset : start % dev.blockSize ≠ 0)
    (inside : start + count ≤ dev.blockCount * dev.blockSize) :
    start < dev.blockCount * dev.blockSize ∧
      start % dev.blockSize + min (dev.blockSize - start % dev.blockSize) count ≤ dev.blockSize ∧
      min (dev.blockSize - start % dev.blockSize) count ≤ count ∧
      (count - min (dev.blockSize - start % dev.blockSize) count ≠ 0 →
        (start + min (dev.blockSize - start % dev.blockSize) count) % dev.blockSize = 0) := by
  have below := Nat.mod_lt start positive
  refine ⟨?_, by omega, Nat.min_le_right _ _, fun more => ?_⟩
  · grind [Nat.mul_mod_left]
  · rw [Nat.min_eq_left (by omega)]
    have split := block_start start dev.blockSize
    rw [show start + (dev.blockSize - start % dev.blockSize) =
      start / dev.blockSize * dev.blockSize + dev.blockSize by omega, Nat.add_mod_right,
      Nat.mul_mod_left]

theorem deviceRead_eq (driver : BlockDriver dev content) (s : σ) (inside : Inside dev start count) :
    (deviceRead dev s start count).1 = 0 ∧
      (deviceRead dev s start count).2.1 = slice (content s) start count ∧
      content (deviceRead dev s start count).2.2 = content s := by
  simp only [deviceRead, driver.block, if_true]
  by_cases aligned : start % dev.blockSize = 0
  · rw [if_neg (not_not_intro aligned)]
    grind [readAligned_eq]
  · rw [if_pos aligned]
    obtain ⟨starts, fits, within, boundary⟩ := first_piece driver.positive aligned inside.1
    obtain ⟨inDevice, inWord⟩ := inside
    generalize min (dev.blockSize - start % dev.blockSize) count = len at *
    obtain ⟨first, same⟩ := read_part driver s starts fits
    by_cases done : count - len = 0
    · grind
    · rw [if_neg done, Nat.mod_eq_of_lt (by omega : start + len < 2 ^ 64)]
      grind [readAligned_eq, Inside, slice_append]

theorem deviceWrite_eq (driver : BlockDriver dev content) (s : σ) (inside : Inside dev start count)
    (full : count ≤ buf.length) :
    (deviceWrite dev s start count buf).1 = 0 ∧
      content (deviceWrite dev s start count buf).2 =
        splice (content s) start (buf.take count) := by
  simp only [deviceWrite, driver.block, if_true]
  by_cases aligned : start % dev.blockSize = 0
  · simp_all [writeAligned_eq]
  · rw [if_pos aligned]
    obtain ⟨starts, fits, within, boundary⟩ := first_piece driver.positive aligned inside.1
    obtain ⟨inDevice, inWord⟩ := inside
    generalize min (dev.blockSize - start % dev.blockSize) count = len at *
    have front : (buf.take len).length = len := by
      rw [List.length_take]
      omega
    have first := write_part driver s (buf.take len) starts (by rw [front]; exact fits)
    by_cases done : count - len = 0
    · grind
    · have back : ((buf.drop len).take (count - len)).length = count - len := by
        rw [List.length_take, List.length_drop]
        omega
      rw [if_neg done, Nat.mod_eq_of_lt (by omega : start + len < 2 ^ 64)]
      refine ⟨rfl, ?_⟩
      rw [writeAligned_eq driver _ (boundary done) ⟨by omega, by omega⟩
        (by rw [List.length_drop]; omega), first, take_split within,
        ← splice_append (by rw [List.length_append, front, back, driver.size]; omega), front]

end

/-! ### Sequences of calls -/

inductive Request where
  | read (start count : Nat)
  | write (start : Nat) (buf : Bytes)

/-- A request served by `device_read` or `device_write`; the answer is the
value returned and the bytes read. -/
def serve (dev : Device σ) (s : σ) : Request → (Int × Bytes) × σ
  | .read start count =>
    let (result, bytes, s) := deviceRead dev s start count
    ((result, bytes), s)
  | .write start buf =>
    let (result, s) := deviceWrite dev s start buf.length buf
    ((result, []), s)

/-- The same request on a plain byte array. -/
def onArray (array : Bytes) : Request → (Int × Bytes) × Bytes
  | .read start count => ((0, slice array start count), array)
  | .write start buf => ((0, []), splice array start buf)

/-- The bytes a request touches are inside the device. -/
def Request.Inside (dev : Device σ) : Request → Prop
  | .read start count => BlockDevice.Inside dev start count
  | .write start buf => BlockDevice.Inside dev start buf.length

instance (dev : Device σ) : (request : Request) → Decidable (request.Inside dev)
  | .read _ _ => inferInstanceAs (Decidable (BlockDevice.Inside dev _ _))
  | .write _ _ => inferInstanceAs (Decidable (BlockDevice.Inside dev _ _))

private theorem serve_onArray {dev : Device σ} {content : σ → Bytes}
    (driver : BlockDriver dev content) (s : σ) (request : Request) (inside : request.Inside dev) :
    (serve dev s request).1 = (onArray (content s) request).1 ∧
      content (serve dev s request).2 = (onArray (content s) request).2 := by
  cases request with
  | read start count =>
    obtain ⟨result, bytes, same⟩ := deviceRead_eq driver s inside
    exact ⟨Prod.ext result bytes, same⟩
  | write start buf =>
    obtain ⟨result, written⟩ := deviceWrite_eq driver s inside (Nat.le_refl _)
    rw [List.take_length] at written
    exact ⟨Prod.ext result rfl, written⟩

/-- A block device is a flat byte array: one read returns the bytes of its
range, one write replaces them and nothing else, and any sequence of requests
gives the answers and leaves the content that a plain array would. -/
theorem device_is_byte_array {dev : Device σ} {content : σ → Bytes}
    (driver : BlockDriver dev content) :
    (∀ s start count, Inside dev start count →
      (deviceRead dev s start count).2.1 = slice (content s) start count ∧
        content (deviceRead dev s start count).2.2 = content s) ∧
    (∀ s start count buf, Inside dev start count → count ≤ buf.length →
      content (deviceWrite dev s start count buf).2 =
        splice (content s) start (buf.take count)) ∧
    ∀ s requests, (∀ request ∈ requests, request.Inside dev) →
      (respond (serve dev) s requests).1 = (respond onArray (content s) requests).1 ∧
        content (respond (serve dev) s requests).2 = (respond onArray (content s) requests).2 :=
  ⟨fun s _ _ inside => (deviceRead_eq driver s inside).2,
    fun s _ _ _ inside full => (deviceWrite_eq driver s inside full).2,
    fun _ _ inside => respond_refines (serve_onArray driver) inside⟩

/-- A device of four three-byte blocks kept in memory. -/
def ramDisk : Device {array : Bytes // array.length = 12} where
  type := 0o60000
  blockSize := 3
  blockCount := 4
  read s first count := (0, slice s.1 (first * 3) (count * 3), s)
  write s first count buf :=
    if fits : first * 3 + (buf.take (count * 3)).length ≤ 12 then
      (0, ⟨splice s.1 (first * 3) (buf.take (count * 3)), by rw [length_splice (by omega), s.2]⟩)
    else (1, s)

theorem ramDisk_driver : BlockDriver ramDisk Subtype.val where
  block := by decide
  positive := by decide
  size s := s.2
  reads _ _ _ _ _ := ⟨rfl, rfl⟩
  writes s first count buf _ inside full := by
    have fits : first * 3 + (buf.take (count * 3)).length ≤ 12 := by
      change first + count ≤ 4 at inside
      rw [List.length_take]
      omega
    simp only [ramDisk, dif_pos fits]

theorem ramDisk_is_byte_array :
    (respond (serve ramDisk) ⟨List.replicate 12 0, rfl⟩ [.write 2 [1, 2, 3, 4, 5], .read 1 9]).1 =
      [(0, []), (0, [0, 1, 2, 3, 4, 5, 0, 0, 0])] :=
  ((device_is_byte_array ramDisk_driver).2.2 _ _ (by decide)).1.trans (by decide)

end MandelbrotOS.BlockDevice
