import Mathlib.Data.UInt
import MandelbrotOS.GrowableArrays
import MandelbrotOS.ReadBack
import MandelbrotOS.Runs

/-! A regular tmpfs file against a growable byte array: any sequence of
`tmpfs_write`, `tmpfs_truncate` and `tmpfs_read` on a file just created. Which
sequences go well depends on the offsets and sizes alone, once it has to hold
for any bytes written and any content of new memory. -/
namespace MandelbrotOS.TmpfsArray
open GrowableArrays Kheap ReadBack Runs Tmpfs Vfs

def tmpfsTruncate (file : FsFile) (size : Nat) : FsFile := { file with length := size }

/-- A call on the file. `heap` is what `krealloc` finds in new memory. -/
inductive Call where
  | write (heap : Nat → UInt8) (offset : Nat) (bytes : List UInt8)
  | truncate (size : Nat)
  | read (offset count : Nat)

/-- What a call asks for, without the bytes. -/
inductive Shape where
  | write (offset count : Nat)
  | truncate (size : Nat)
  | read (offset count : Nat)

def Call.shape : Call → Shape
  | .write _ offset bytes => .write offset bytes.length
  | .truncate size => .truncate size
  | .read offset count => .read offset count

/-- What the shapes of the calls so far come to: the length of the file, the
size of its block, and the places written since the file last grew over them. -/
structure Plan where
  length : Nat
  block : Nat
  written : Nat → Bool

def Plan.next (plan : Plan) : Shape → Plan
  | .write offset count =>
    { length := max plan.length (offset + count)
      block := if offset + count > plan.length then offset + count else plan.block
      written := fun k => (decide (offset ≤ k) && decide (k < offset + count)) || plan.written k }
  | .truncate size => { plan with length := size, written := fun k => decide (k < size) && plan.written k }
  | .read _ _ => plan

def planStep (plan : Plan) (shape : Shape) : Option Plan := some (plan.next shape)

/-- The file, the array it stands for, the plan, and the answer of each read
with the one it owed. -/
structure Run where
  file : FsFile
  data : PrivateData
  array : Growable UInt8
  plan : Plan
  answers : List ((Int × List UInt8) × Int × List UInt8)

/-- The bytes there are, and their number. -/
def owed (array : Growable UInt8) (offset count : Nat) : Int × List UInt8 :=
  ((min count (array.length - offset) : Nat), array.read offset count)

def step (run : Run) (call : Call) : Option Run := do
  let plan := run.plan.next call.shape
  match call with
  | .write heap offset bytes =>
    let (_, file, data) ← tmpfsWrite heap run.file run.data bytes offset bytes.length
    some { run with file, data, plan, array := run.array.write offset bytes }
  | .truncate size =>
    some { run with file := tmpfsTruncate run.file size, plan, array := run.array.resize size }
  | .read offset count =>
    let answer ← tmpfsRead run.file run.data offset count
    some { run with plan, answers := run.answers ++ [(answer, owed run.array offset count)] }

/-- The block is as long as the file, and every read answered as it should. -/
structure Sound (run : Run) : Prop where
  backed : run.file.length ≤ blockSize run.data
  answered : ∀ answer ∈ run.answers, answer.1 = answer.2

/-- A file as `tmpfs_create` makes it. -/
def created (file : FsFile) : Run :=
  ⟨{ file with length := 0 }, .null, .empty, ⟨0, 0, fun _ => false⟩, []⟩

/-- Arguments are `size_t` values, and a read starts within the file. -/
def Shape.Valid (plan : Plan) : Shape → Prop
  | .write offset count => offset < 2 ^ 64 ∧ count < 2 ^ 64
  | .truncate size => size < 2 ^ 64
  | .read offset count => offset < 2 ^ 64 ∧ count < 2 ^ 64 ∧ offset ≤ plan.length

/-- A write that makes the file longer makes it no longer than the heap has blocks
for, the length is not set beyond the block, and a read does not wrap, starts at an offset equal to the number of bytes there
are, and takes only places written since the file last grew over them. -/
def Shape.Harmless (plan : Plan) : Shape → Prop
  | .write offset count => plan.length < offset + count → Servable (offset + count)
  | .truncate size => size ≤ plan.block
  | .read offset count => offset + count < 2 ^ 64 ∧ offset = min count (plan.length - offset) ∧
      ∀ k < min count (plan.length - offset), plan.written (offset + k) = true

/-! ### Blocks -/

def byteAt : PrivateData → Nat → UInt8
  | .contents _ bytes, k => bytes k
  | _, _ => 0

/-- What `private_data` of a regular file may be. -/
def IsBlock (data : PrivateData) : Prop := ∀ children, data ≠ .directory children

theorem krealloc_block (block : IsBlock data) (heap : Nat → UInt8) (some : 0 < size) (servable : Servable size) :
    ∃ data', krealloc heap data size = .some data' ∧ IsBlock data' ∧ blockSize data' = size ∧
      ∀ k < size, byteAt data' k = if k < blockSize data then byteAt data k else heap k := by
  have whole := kmallocSize_servable servable
  have nonzero : size ≠ 0 := Nat.ne_of_gt some
  cases data with
  | null =>
    refine ⟨.contents size heap, ?_, nofun, rfl, fun k _ => (if_neg (Nat.not_lt_zero k)).symm⟩
    rw [krealloc, if_neg nonzero, whole]
  | directory children => exact absurd rfl (block children)
  | contents old bytes =>
    by_cases shorter : size ≤ old
    · refine ⟨.contents size bytes, ?_, nofun, rfl, fun k inside => (if_pos ?_).symm⟩
      · rw [krealloc, if_neg nonzero, if_pos shorter]
      · exact Nat.lt_of_lt_of_le inside shorter
    · refine ⟨.contents size fun place => if place < old then bytes place else heap place, ?_, nofun, rfl,
        fun k _ => rfl⟩
      rw [krealloc, if_neg nonzero, if_neg shorter, whole, if_pos (by omega)]

theorem krealloc_cut (refused : ¬ Servable size) (larger : blockSize data < size)
    (ran : krealloc heap data size = some data') : blockSize data' < size := by
  have cut := kmallocSize_short refused
  cases data with
  | null =>
    cases ran
    split
    · exact larger
    · exact cut
  | directory children => cases ran
  | contents old bytes =>
    rw [blockSize] at larger
    rw [krealloc, if_neg (by omega), if_neg (by omega)] at ran
    split at ran
    · cases ran
      exact cut
    · cases ran

theorem krealloc_le (ran : krealloc heap data size = some data') : blockSize data' ≤ size := by
  have most := kmallocSize_le size
  cases data with
  | null =>
    cases ran
    split
    · exact Nat.zero_le _
    · exact most
  | directory children => cases ran
  | contents old bytes =>
    rw [krealloc] at ran
    split_ifs at ran <;> cases ran
    · exact Nat.zero_le _
    · exact Nat.le_refl _
    · exact most

theorem writeBlock_block (block : IsBlock data) (offset : Nat) (bytes : List UInt8)
    (fits : offset + bytes.length ≤ blockSize data) :
    ∃ data', writeBlock data bytes offset bytes.length = some data' ∧ IsBlock data' ∧
      blockSize data' = blockSize data ∧ ∀ k, byteAt data' k =
        if offset ≤ k ∧ k < offset + bytes.length then bytes.getD (k - offset) 0 else byteAt data k := by
  unfold writeBlock
  by_cases none : bytes.length = 0
  · rw [if_pos none]
    simp_all
  · rw [if_neg none]
    cases data with
    | null => exact absurd fits (by simp only [blockSize]; omega)
    | directory children => exact absurd rfl (block children)
    | contents old old' =>
      refine ⟨_, if_pos ⟨fits, Nat.le_refl _⟩, fun children same => ?_, rfl, fun k => rfl⟩
      cases same

theorem writeBlock_past (past : blockSize data < offset + count) (some : 0 < count) (bytes : List UInt8) :
    writeBlock data bytes offset count = none := by
  unfold writeBlock
  rw [if_neg (Nat.ne_of_gt some)]
  cases data with
  | null => rfl
  | directory children => rfl
  | contents old old' => exact if_neg fun fits => Nat.not_lt.mpr fits.1 past

theorem readBlock_inside (inside : offset + count ≤ blockSize data) :
    readBlock data offset count = some ((List.range count).map fun k => byteAt data (offset + k)) := by
  unfold readBlock
  by_cases none : count = 0
  · subst none
    rfl
  · rw [if_neg none]
    cases data with
    | null => exact absurd inside (by simp only [blockSize]; omega)
    | directory children => exact absurd inside (by simp only [blockSize]; omega)
    | contents old old' => exact if_pos inside

theorem readBlock_past (past : blockSize data < offset + count) (some : 0 < count) :
    readBlock data offset count = none := by
  unfold readBlock
  rw [if_neg (Nat.ne_of_gt some)]
  cases data with
  | null => rfl
  | directory children => rfl
  | contents old old' => exact if_neg (Nat.not_le.mpr past)

/-! ### The calls -/

theorem tmpfsWrite_block (heap : Nat → UInt8) (block : IsBlock data) (within : file.length ≤ blockSize data)
    (small : blockSize data < 2 ^ 64) (servable : file.length < offset + bytes.length → Servable (offset + bytes.length)) :
    ∃ data', tmpfsWrite heap file data bytes offset bytes.length = some (ssize bytes.length,
        { file with length := max file.length (offset + bytes.length) }, data') ∧ IsBlock data' ∧
      blockSize data' = (if offset + bytes.length > file.length then offset + bytes.length else blockSize data) ∧
      ∀ k < blockSize data', byteAt data' k =
        if offset ≤ k ∧ k < offset + bytes.length then bytes.getD (k - offset) 0
        else if k < blockSize data then byteAt data k else heap k := by
  have fits : offset + bytes.length < 2 ^ 64 := by
    by_contra wraps
    have within := servable (by omega)
    rw [Servable] at within
    omega
  have total : (bytes.length + offset) % 2 ^ 64 = offset + bytes.length := by
    rw [Nat.add_comm]
    exact Nat.mod_eq_of_lt fits
  by_cases longer : offset + bytes.length > file.length
  · obtain ⟨grown, ran, block', size, same⟩ := krealloc_block block heap (by omega) (servable longer)
    obtain ⟨data', wrote, block'', size', same'⟩ :=
      writeBlock_block block' offset bytes (Nat.le_of_eq size.symm)
    refine ⟨data', ?_, block'', ?_, fun k inside => ?_⟩
    · simp only [tmpfsWrite, tmpfsGrow, total, longer, if_true, ran, Option.map_some, Option.bind_eq_bind,
        Option.bind_some, wrote, Nat.max_eq_right (Nat.le_of_lt longer)]
    · rw [size', size, if_pos longer]
    · rw [same', same k (by omega)]
  · obtain ⟨data', wrote, block'', size', same'⟩ :=
      writeBlock_block block offset bytes (by omega)
    refine ⟨data', ?_, block'', ?_, fun k inside => ?_⟩
    · simp only [tmpfsWrite, tmpfsGrow, total, longer, if_false, Option.bind_eq_bind, Option.bind_some, wrote,
        Nat.max_eq_left (Nat.not_lt.mp longer)]
    · rw [size', if_neg longer]
    · simp_all

theorem tmpfsWrite_beyond (small : Servable (blockSize data)) (within : file.length ≤ blockSize data)
    (longer : file.length < offset + bytes.length) (refused : ¬ Servable (offset + bytes.length))
    (offset_lt : offset < 2 ^ 64)
    (ran : tmpfsWrite heap file data bytes offset bytes.length = some (written, file', data')) :
    blockSize data' < file'.length := by
  rw [Servable] at small refused
  obtain ⟨⟨grown, block⟩, grew, ran⟩ := Option.bind_eq_some_iff.mp ran
  obtain ⟨stored, wrote, same⟩ := Option.bind_eq_some_iff.mp ran
  cases same
  have past (beyond : blockSize block < offset + bytes.length) : bytes.length = 0 := by
    by_contra some
    rw [writeBlock_past beyond (Nat.pos_of_ne_zero some)] at wrote
    cases wrote
  rw [tmpfsGrow] at grew
  split at grew
  · rename_i grows
    obtain ⟨_, moved, same⟩ := Option.map_eq_some_iff.mp grew
    cases same
    have most := krealloc_le moved
    have nothing : bytes.length = 0 := by
      by_cases wraps : offset + bytes.length < 2 ^ 64
      · rw [Nat.add_comm, Nat.mod_eq_of_lt wraps] at moved
        exact past (krealloc_cut refused (by omega) moved)
      · exact past (by omega)
    unfold writeBlock at wrote
    rw [if_pos nothing] at wrote
    cases wrote
    rw [nothing, Nat.zero_add, Nat.mod_eq_of_lt offset_lt] at moved
    rw [nothing, Nat.add_zero] at refused
    have cut := krealloc_cut refused (by omega) moved
    rw [nothing, Nat.zero_add, Nat.mod_eq_of_lt offset_lt]
    exact cut
  · rename_i stays
    cases grew
    have nothing := past (by omega)
    rw [nothing, Nat.zero_add, Nat.mod_eq_of_lt offset_lt] at stays
    omega

theorem tmpfsRead_block (within : file.length ≤ blockSize data) (small : blockSize data < 2 ^ 64)
    (start : offset ≤ file.length) (fits : offset + count < 2 ^ 64) :
    tmpfsRead file data offset count = some (ssize offset,
      (List.range (min count (file.length - offset))).map fun k => byteAt data (offset + k)) := by
  grind [tmpfsRead, readBlock_inside]

theorem tmpfsRead_wraps (within : file.length ≤ blockSize data) (small : blockSize data < 2 ^ 64)
    (start : offset ≤ file.length) (count_lt : count < 2 ^ 64) (wraps : 2 ^ 64 ≤ offset + count) :
    tmpfsRead file data offset count = none := by
  have cut : (if (count + offset) % 2 ^ 64 > file.length then (file.length + 2 ^ 64 - offset) % 2 ^ 64
      else count) = count := by
    rw [if_neg (by omega)]
  grind [tmpfsRead, readBlock_past]

/-! ### Runs -/

theorem step_plan (ran : step run call = some next) : next.plan = run.plan.next call.shape := by
  cases call with
  | write heap offset bytes =>
    obtain ⟨_, -, same⟩ := Option.bind_eq_some_iff.mp ran
    cases same
    rfl
  | truncate size =>
    cases ran
    rfl
  | read offset count =>
    obtain ⟨_, -, same⟩ := Option.bind_eq_some_iff.mp ran
    cases same
    rfl

/-- The file is as the plan says, the places written hold the array's bytes, and
the others are zero in the array. -/
structure Inv (run : Run) : Prop where
  block : IsBlock run.data
  length : run.file.length = run.plan.length
  arrayLength : run.array.length = run.plan.length
  size : blockSize run.data = run.plan.block
  within : run.plan.length ≤ run.plan.block
  small : Servable run.plan.block
  inside : ∀ k, run.plan.written k = true → k < run.plan.length
  kept : ∀ k, run.plan.written k = true → byteAt run.data k = run.array.item k
  fresh : ∀ k, run.plan.written k = false → run.array.item k = 0
  answered : ∀ answer ∈ run.answers, answer.1 = answer.2

theorem Inv.sound (inv : Inv run) : Sound run := by
  refine ⟨?_, inv.answered⟩
  rw [inv.length, inv.size]
  exact inv.within

theorem created_inv (file : FsFile) : Inv (created file) where
  block := nofun
  length := rfl
  arrayLength := rfl
  size := rfl
  within := Nat.le_refl 0
  small := show Servable 0 by decide
  inside _ written := nomatch written
  kept _ written := nomatch written
  fresh _ _ := rfl
  answered _ member := nomatch member

theorem Inv.word (inv : Inv run) : blockSize run.data < 2 ^ 64 := by
  have small := inv.small
  rw [Servable, ← inv.size] at small
  omega

theorem write_step (inv : Inv run) (heap : Nat → UInt8)
    (servable : run.plan.length < offset + bytes.length → Servable (offset + bytes.length)) :
    ∃ next, step run (.write heap offset bytes) = some next ∧ Inv next ∧
      ∀ k < blockSize next.data, byteAt next.data k =
        if offset ≤ k ∧ k < offset + bytes.length then bytes.getD (k - offset) 0
        else if k < blockSize run.data then byteAt run.data k else heap k := by
  have within : run.file.length ≤ blockSize run.data := inv.sound.backed
  obtain ⟨data', ran, block, size, bytes_at⟩ := tmpfsWrite_block heap inv.block within inv.word (inv.length ▸ servable)
  have stepped : step run (.write heap offset bytes) = some { run with
      file := { run.file with length := max run.file.length (offset + bytes.length) }
      data := data', plan := run.plan.next (.write offset bytes.length)
      array := run.array.write offset bytes } := by
    simp only [step, ran, bind_returned, Call.shape]
  refine ⟨_, stepped, ?_, bytes_at⟩
  have length := inv.length
  have size_eq := inv.size
  rw [length] at size
  have room : max run.plan.length (offset + bytes.length) ≤ blockSize data' := by
    rw [size]
    split <;> omega
  refine ⟨block, ?_, ?_, ?_, ?_, ?_, ?_, ?_, ?_, inv.answered⟩
  · simp only [Plan.next, length]
  · simp only [Plan.next, Growable.write, inv.arrayLength]
  · simp only [Plan.next, size, size_eq]
  · simp only [Plan.next]
    split <;> omega
  · simp only [Plan.next]
    split
    · exact servable ‹_›
    · exact inv.small
  · intro k written
    simp only [Plan.next, Bool.or_eq_true, Bool.and_eq_true, decide_eq_true_eq] at written
    simp only [Plan.next]
    rcases written with new | old
    · omega
    · have := inv.inside k old
      omega
  · intro k written
    simp only [Plan.next, Bool.or_eq_true, Bool.and_eq_true, decide_eq_true_eq] at written
    simp only [Growable.write]
    by_cases new : offset ≤ k ∧ k < offset + bytes.length
    · rw [bytes_at k (by omega), if_pos new, if_pos new]
    · have old := written.resolve_left new
      have before := inv.inside k old
      rw [bytes_at k (by omega), if_neg new, if_neg new, if_pos (by omega), inv.kept k old]
  · intro k unwritten
    simp only [Plan.next, Bool.or_eq_false_iff, Bool.and_eq_false_iff, decide_eq_false_iff_not] at unwritten
    simp only [Growable.write]
    rw [if_neg (by omega), inv.fresh k unwritten.2]

theorem truncate_step (inv : Inv run) (fits : size ≤ run.plan.block) :
    ∃ next, step run (.truncate size) = some next ∧ Inv next ∧ next.data = run.data := by
  refine ⟨_, rfl, ?_, rfl⟩
  refine ⟨inv.block, rfl, rfl, inv.size, fits, inv.small, ?_, ?_, ?_, inv.answered⟩
  · simp_all [Plan.next, Call.shape]
  · intro k written
    simp only [Plan.next, Call.shape, Bool.and_eq_true, decide_eq_true_eq] at written
    simp only [Growable.resize, if_pos written.1, inv.kept k written.2]
  · intro k unwritten
    simp only [Plan.next, Call.shape, Bool.and_eq_false_iff, decide_eq_false_iff_not] at unwritten
    simp only [Growable.resize]
    split
    · rename_i before
      exact inv.fresh k (unwritten.resolve_left (not_not_intro before))
    · rfl

theorem read_step (inv : Inv run) (start : offset ≤ run.plan.length) (fits : offset + count < 2 ^ 64) :
    step run (.read offset count) = some { run with
      answers := run.answers ++ [((ssize offset, (List.range (min count (run.array.length - offset))).map
        fun k => byteAt run.data (offset + k)), owed run.array offset count)] } := by
  have ran := tmpfsRead_block inv.sound.backed inv.word (inv.length ▸ start) fits
  rw [inv.length, ← inv.arrayLength] at ran
  grind [step, Call.shape, Plan.next]

theorem harmless_step (inv : Inv run) (valid : call.shape.Valid run.plan) (harmless : call.shape.Harmless run.plan) :
    ∃ next, step run call = some next ∧ Inv next ∧ next.plan = run.plan.next call.shape := by
  cases call with
  | write heap offset bytes =>
    obtain ⟨next, ran, inv', -⟩ := write_step inv heap harmless
    exact ⟨next, ran, inv', step_plan ran⟩
  | truncate size =>
    obtain ⟨next, ran, inv', -⟩ := truncate_step inv harmless
    exact ⟨next, ran, inv', step_plan ran⟩
  | read offset count =>
    obtain ⟨fits, same, written⟩ := harmless
    have ran := read_step inv valid.2.2 fits
    refine ⟨_, ran, { inv with answered := ?_ }, rfl⟩
    intro answer member
    rcases List.mem_append.mp member with old | new
    · exact inv.answered answer old
    · rw [List.mem_singleton] at new
      subst new
      have bytes := run.array.read_eq (byteAt run.data) offset count fun k few => by
        rw [inv.arrayLength] at few
        exact inv.kept _ (written k few)
      rw [owed, bytes, ssize_small (show offset < 2 ^ 63 by omega), inv.arrayLength, ← same]

theorem served_of_harmless (inv : Inv run) {calls : List Call}
    (valid : Along planStep (fun plan shape => shape.Valid plan) run.plan (calls.map Call.shape))
    (harmless : Along planStep (fun plan shape => shape.Harmless plan) run.plan (calls.map Call.shape)) :
    Served step Sound run calls := by
  induction calls generalizing run with
  | nil => exact inv.sound
  | cons call rest ih =>
    obtain ⟨next, ran, inv', planned⟩ := harmless_step inv valid.1 harmless.1
    refine ⟨inv.sound, next, ran, ih inv' ?_ ?_⟩
    · rw [planned]
      exact valid.2 _ rfl
    · rw [planned]
      exact harmless.2 _ rfl

/-! ### Memory that is never zero -/

/-- The call of a shape with no byte zero, neither of the data nor of new memory. -/
def Shape.filled : Shape → Call
  | .write offset count => .write (fun _ => 0xff) offset (List.replicate count 0xff)
  | .truncate size => .truncate size
  | .read offset count => .read offset count

theorem filled_shape (shape : Shape) : shape.filled.shape = shape := by
  cases shape with
  | write offset count => simp [Shape.filled, Call.shape]
  | truncate size => rfl
  | read offset count => rfl

def Ones (run : Run) : Prop := ∀ k < blockSize run.data, byteAt run.data k = 0xff

theorem filled_step {shape : Shape} (inv : Inv run) (ones : Ones run) (valid : shape.Valid run.plan)
    (ran : step run shape.filled = some next) (sound : Sound next) :
    shape.Harmless run.plan ∧ Inv next ∧ Ones next := by
  have within : run.file.length ≤ blockSize run.data := inv.sound.backed
  cases shape with
  | write offset count =>
    have length : (List.replicate count (0xff : UInt8)).length = count := List.length_replicate
    have servable : run.plan.length < offset + (List.replicate count (0xff : UInt8)).length →
        Servable (offset + (List.replicate count (0xff : UInt8)).length) := by
      intro longer
      by_contra refused
      obtain ⟨⟨written, file', data'⟩, wrote, same⟩ := Option.bind_eq_some_iff.mp ran
      cases same
      have short := tmpfsWrite_beyond (inv.size ▸ inv.small) within (inv.length ▸ longer) refused valid.1 wrote
      exact Nat.not_lt.mpr sound.backed short
    obtain ⟨next', ran', inv', bytes⟩ := write_step inv (fun _ => 0xff) servable
    obtain rfl : next' = next := Option.some.inj (ran'.symm.trans ran)
    refine ⟨length ▸ servable, inv', fun k inside => ?_⟩
    rw [bytes k inside]
    split
    · grind
    · split
      · rename_i old
        exact ones k old
      · rfl
  | truncate size =>
    have fits : size ≤ run.plan.block := by
      cases ran
      have backed := sound.backed
      simp only [tmpfsTruncate, inv.size] at backed
      exact backed
    obtain ⟨next', ran', inv', same⟩ := truncate_step inv fits
    obtain rfl : next' = next := Option.some.inj (ran'.symm.trans ran)
    refine ⟨fits, inv', ?_⟩
    rw [Ones, same]
    exact ones
  | read offset count =>
    obtain ⟨offset_lt, count_lt, start⟩ := valid
    have fits : offset + count < 2 ^ 64 := by
      by_contra wraps
      have crashed := tmpfsRead_wraps within inv.word (inv.length ▸ start) count_lt (Nat.not_lt.mp wraps)
      simp_all [Shape.filled, step]
    have ran' := read_step inv start fits
    obtain rfl : _ = next := Option.some.inj (ran'.symm.trans ran)
    have answer := sound.answered _ (List.mem_append_right _ List.mem_cons_self)
    obtain ⟨number, bytes⟩ := Prod.mk.inj answer
    have same := eq_of_ssize offset_lt number
    rw [inv.arrayLength] at same
    refine ⟨⟨fits, same, fun k few => ?_⟩, { inv with answered := sound.answered }, ones⟩
    by_contra unwritten
    have zero := inv.fresh (offset + k) (Bool.eq_false_iff.mpr unwritten)
    have length := inv.arrayLength
    have read := List.map_inj_left.mp bytes k (List.mem_range.mpr (length.symm ▸ few))
    rw [zero, ones (offset + k) (by rw [inv.size]; have := inv.within; omega)] at read
    cases read

theorem harmless_of_served (inv : Inv run) (ones : Ones run) {shapes : List Shape}
    (valid : Along planStep (fun plan shape => shape.Valid plan) run.plan shapes)
    (served : Served step Sound run (shapes.map Shape.filled)) :
    Along planStep (fun plan shape => shape.Harmless plan) run.plan shapes := by
  induction shapes generalizing run with
  | nil => trivial
  | cons shape rest ih =>
    obtain ⟨-, next, ran, served⟩ := served
    obtain ⟨harmless, inv', ones'⟩ := filled_step inv ones valid.1 ran (served_start served)
    refine ⟨harmless, ?_⟩
    rintro _ ⟨⟩
    have planned := step_plan ran
    rw [filled_shape] at planned
    rw [← planned]
    apply ih inv' ones' ?_ served
    rw [planned]
    exact valid.2 _ rfl

/-- **A tmpfs file as a growable byte array.** For every sequence of offsets and
sizes, with reads that start within the file, all bytes written and all contents of
new memory: every call returns, the block always has at least
the length of the file, and every read returns the number of the array's bytes
there are and exactly them, if and only if no write makes the file longer than the
heap has blocks for, no truncation goes beyond the block, and every read ends within
a `size_t`, is at an offset to the number of bytes there are and covers only places written since the file last
grew over them. -/
theorem tmpfs_array_iff (file : FsFile) (shapes : List Shape)
    (valid : Along planStep (fun plan shape => shape.Valid plan) (created file).plan shapes) :
    (∀ calls : List Call, calls.map Call.shape = shapes → Served step Sound (created file) calls) ↔
      Along planStep (fun plan shape => shape.Harmless plan) (created file).plan shapes := by
  constructor
  · intro all
    apply harmless_of_served (created_inv file) (fun k inside => absurd inside (Nat.not_lt_zero k)) valid
    apply all
    rw [List.map_map]
    exact (List.map_congr_left fun shape _ => filled_shape shape).trans (List.map_id _)
  · rintro harmless calls rfl
    exact served_of_harmless (created_inv file) valid harmless

def emptyFile : FsFile := { uid := 0, gid := 0, mode := sIfreg }

theorem last_two_of_four_read : Served step Sound (created emptyFile)
    [.write (fun _ => 7) 0 [1, 2, 3, 4], .read 2 5] := by
  have valid : Along planStep (fun plan shape => shape.Valid plan) (created emptyFile).plan
      [.write 0 4, .read 2 5] := by
    refine ⟨⟨by decide, by decide⟩, ?_⟩
    rintro _ ⟨⟩
    exact ⟨⟨by decide, by decide, by decide⟩, fun _ _ => trivial⟩
  refine (tmpfs_array_iff emptyFile [.write 0 4, .read 2 5] valid).mpr ?_ _ rfl
  refine ⟨fun _ => show Servable (0 + 4) by decide, ?_⟩
  rintro _ ⟨⟩
  exact ⟨⟨by decide, by decide, by decide⟩, fun _ _ => trivial⟩

/-- One byte is written, and reading it from the start of the file returns 0. -/
theorem read_returns_its_offset : ¬ Served step Sound (created emptyFile)
    [.write (fun _ => 7) 0 [1], .read 0 1] := by
  rintro ⟨-, _, ⟨⟩, -, next, ran, sound⟩
  cases ran
  exact absurd (sound.answered _ List.mem_cons_self) (by decide)

end MandelbrotOS.TmpfsArray
