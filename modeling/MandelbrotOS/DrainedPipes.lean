import MandelbrotOS.Pipes

/-! What a pipe takes after a history of writes and reads, `pipe/pipe.c`. The
head only moves forward and is never at the end of the buffer after a write, so
it never goes back to the beginning: the room a pipe has left is what all its
writes together have not used, however much of it has been read. -/
namespace MandelbrotOS.DrainedPipes
open ByteMemory Pipes Pmm Runs

/-- The head lies behind every byte ever accepted. -/
structure Filled (size : Nat) (history : History) : Prop where
  bounded : history.pipe.bufferEnd < wordSize
  span : history.pipe.bufferEnd = history.pipe.buffer + size
  head : history.pipe.head = history.pipe.buffer + history.accepted.length
  room : history.accepted.length < size ∨ history.accepted.length = 0

theorem pipeRead_frame (pipe : Pipe) (count : Nat) :
    ∃ tail, (pipeRead pipe count).2 = { pipe with tail := tail } := by
  unfold pipeRead
  split
  · exact ⟨pipe.tail, rfl⟩
  · split
    · exact ⟨pipe.tail, rfl⟩
    · exact ⟨_, rfl⟩

theorem step_filled (filled : Filled size history) (ran : step history call = some next) :
    Filled size next := by
  cases call with
  | write item =>
    obtain ⟨⟨count, pipe'⟩, wrote, rfl⟩ := Option.map_eq_some_iff.mp ran
    rcases pipeWrite_cases wrote with ⟨rfl, rfl⟩ | ⟨rfl, fits, rfl⟩
    · simp_all
    · have head := filled.head
      have span := filled.span
      refine ⟨filled.bounded, filled.span, ?_, Or.inl ?_⟩
      · grind
      · grind
  | read count =>
    cases ran
    obtain ⟨tail, moved⟩ := pipeRead_frame history.pipe count
    rw [moved]
    exact ⟨filled.bounded, filled.span, filled.head, filled.room⟩

theorem run_filled {mem : Memory} {calls : List Call} (fits : buffer + bufferSize capacity < wordSize)
    (ran : calls.foldlM step ⟨pipeInit mem buffer capacity, [], []⟩ = some history) :
    Filled (bufferSize capacity) history := by
  have whole : (buffer + bufferSize capacity) % wordSize = buffer + bufferSize capacity :=
    Nat.mod_eq_of_lt fits
  have start : Filled (bufferSize capacity) ⟨pipeInit mem buffer capacity, [], []⟩ := by
    refine ⟨?_, whole, rfl, Or.inr rfl⟩
    rw [pipeInit, whole]
    exact fits
  exact foldlM_keeps (fun call _ state next filled stepped => step_filled filled stepped) start ran

/-- A write of any bytes of this number is accepted in full, and the next read
of as many returns them. -/
def Writable (pipe : Pipe) (count : Nat) : Prop :=
  ∀ item : Bytes, item.length = count → ∃ pipe', pipeWrite pipe item = some (count, pipe') ∧
    (item = [] ∨ (pipeRead pipe' count).1 = some item)

/-- The ends have met, and all the bytes ever accepted leave room for this many. -/
def HasRoom (size : Nat) (history : History) (count : Nat) : Prop :=
  history.pipe.tail = history.pipe.head ∧ history.accepted.length + count < size

/-- The pipe after a write that fits. -/
def written (pipe : Pipe) (item : Bytes) : Pipe :=
  { pipe with
    mem := copy pipe.mem pipe.head item.length fun k => item.getD k 0
    head := pipe.head + item.length }

theorem pipeWrite_fits (fits : pipe.head + item.length < pipe.bufferEnd) (bounded : pipe.bufferEnd < wordSize) :
    pipeWrite pipe item = some (item.length, written pipe item) := by
  rw [pipeWrite, if_neg (by omega), if_neg (by omega)]
  dsimp only
  rw [if_neg (by omega)]
  rfl

theorem pipeWrite_refused (full : pipe.bufferEnd ≤ pipe.head + item.length)
    (inside : pipe.head + item.length < wordSize) : pipeWrite pipe item = some (0, pipe) := by
  rw [pipeWrite, if_neg (by omega), if_pos full]

theorem writable_nothing (filled : Filled size history) : Writable history.pipe 0 := by
  intro item empty
  obtain rfl : item = [] := List.eq_nil_of_length_eq_zero empty
  have bounded := filled.bounded
  rcases Nat.lt_or_ge history.pipe.head history.pipe.bufferEnd with before | past
  · simp_all [pipeWrite_fits]
  · have head := filled.head
    have span := filled.span
    have room := filled.room
    have inside : history.pipe.head < wordSize := by omega
    simp_all [pipeWrite_refused]

theorem writable_of_hasRoom (filled : Filled size history) (some : 0 < count)
    (room : HasRoom size history count) : Writable history.pipe count := by
  rintro item rfl
  have bounded := filled.bounded
  have head := filled.head
  have span := filled.span
  obtain ⟨met, left⟩ := room
  have fits : history.pipe.head + item.length < history.pipe.bufferEnd := by omega
  have busy : (written history.pipe item).tail < (written history.pipe item).head := by
    simp only [written]
    omega
  have few : (written history.pipe item).tail + item.length ≤ (written history.pipe item).head := by
    simp only [written]
    omega
  refine ⟨_, pipeWrite_fits fits bounded, Or.inr ?_⟩
  grind [pipeRead_available, written, bytesAt_copy_self]

theorem read_first (some : 0 < count) (delivered : (pipeRead pipe count).1 = .some item) :
    pipe.tail < pipe.head ∧ item.getD 0 0 = pipe.mem (pipe.tail % wordSize) := by
  rcases Nat.lt_or_ge pipe.tail pipe.head with busy | empty
  · refine ⟨busy, ?_⟩
    obtain ⟨count, rfl⟩ := Nat.exists_eq_add_of_lt some
    rw [pipeRead, if_neg (by omega), readLoop_eq busy] at delivered
    cases delivered
    simp [List.range_succ_eq_map]
  · simp_all [pipeRead_empty]

theorem written_behind (behind : place < pipe.head) (item : Bytes) :
    (written pipe item).mem place = pipe.mem place := by
  simp only [written, copy_apart (Or.inl behind)]

theorem written_inside (start : pipe.head ≤ place) (inside : place < pipe.head + item.length) :
    (written pipe item).mem place = item.getD (place - pipe.head) 0 := if_pos ⟨start, inside⟩

/-- Bytes of which only the first is not zero. -/
def marked (mark : BitVec 8) (count : Nat) : Bytes := mark :: List.replicate (count - 1) 0

theorem length_marked (some : 0 < count) (mark : BitVec 8) : (marked mark count).length = count := by
  grind [marked]

theorem marked_later (later : 0 < k) (mark : BitVec 8) (count : Nat) : (marked mark count).getD k 0 = 0 := by
  obtain ⟨k, rfl⟩ := Nat.exists_eq_add_of_lt later
  rw [marked, Nat.zero_add, List.getD_cons_succ]
  grind

theorem hasRoom_of_writable (filled : Filled size history) (some : 0 < count)
    (writable : Writable history.pipe count) : HasRoom size history count := by
  have head := filled.head
  have span := filled.span
  have bounded := filled.bounded
  have first (mark : BitVec 8) : history.pipe.head + count < history.pipe.bufferEnd ∧
      history.pipe.tail < history.pipe.head + count ∧
      mark = (written history.pipe (marked mark count)).mem (history.pipe.tail % wordSize) := by
    have length := length_marked some mark
    obtain ⟨pipe', wrote, back⟩ := writable (marked mark count) length
    have back := back.resolve_left (List.cons_ne_nil _ _)
    rcases pipeWrite_cases wrote with ⟨none, -⟩ | ⟨-, fits, rfl⟩
    · omega
    · obtain ⟨busy, begins⟩ := read_first some back
      exact ⟨length ▸ fits, length ▸ busy, begins⟩
  obtain ⟨fits, before, -⟩ := first 0
  have small : history.pipe.tail % wordSize = history.pipe.tail := Nat.mod_eq_of_lt (by omega)
  refine ⟨?_, by omega⟩
  rcases Nat.lt_trichotomy history.pipe.tail history.pipe.head with behind | met | ahead
  · obtain ⟨-, -, same⟩ := first (history.pipe.mem history.pipe.tail + 1)
    grind [written_behind]
  · exact met
  · obtain ⟨-, -, same⟩ := first 1
    rw [small, written_inside (by omega) (by rw [length_marked some]; exact before),
      marked_later (by omega)] at same
    cases same

/-- **A drained pipe.** From a new pipe of any capacity and after any writes and
reads, any bytes of a given number are accepted in full and read back next, if
and only if there are none, or the ends have met and all the bytes the pipe has
ever accepted leave room for them before the end of the buffer. -/
theorem drained_writable_iff (mem : Memory) (buffer capacity : Nat)
    (fits : buffer + bufferSize capacity < wordSize) (calls : List Call) (history : History)
    (ran : calls.foldlM step ⟨pipeInit mem buffer capacity, [], []⟩ = some history) (count : Nat) :
    Writable history.pipe count ↔ count = 0 ∨ HasRoom (bufferSize capacity) history count := by
  have filled := run_filled fits ran
  constructor
  · intro writable
    rcases Nat.eq_zero_or_pos count with none | some
    · exact Or.inl none
    · exact Or.inr (hasRoom_of_writable filled some writable)
  · rintro (rfl | room)
    · exact writable_nothing filled
    · rcases Nat.eq_zero_or_pos count with rfl | some
      · exact writable_nothing filled
      · exact writable_of_hasRoom filled some room

theorem not_writable_of_refused (refused : (pipeWrite pipe [1]).map Prod.fst = some 0) :
    ¬ Writable pipe 1 := by
  intro writable
  obtain ⟨pipe', wrote, -⟩ := writable [1] rfl
  rw [wrote] at refused
  cases refused

theorem three_leave_room_for_twelve : ∃ history,
    [.write [1, 2, 3], .read 3].foldlM step ⟨pipeInit (fun _ => 0) 0x1000 2, [], []⟩ = some history ∧
      Writable history.pipe 12 := by
  refine ⟨_, rfl, ?_⟩
  exact (drained_writable_iff (fun _ => 0) 0x1000 2 (by decide) [.write [1, 2, 3], .read 3] _ rfl 12).mpr
    (Or.inr ⟨by decide, by decide⟩)

/-- Fifteen bytes are written and read, and not one more is ever taken. -/
theorem drained_pipe_stuck : ∃ history,
    [.write (List.replicate 15 1), .read 15].foldlM step ⟨pipeInit (fun _ => 0) 0x1000 2, [], []⟩ =
      some history ∧ history.delivered = history.accepted ∧
      (pipeWrite history.pipe [1]).map Prod.fst = some 0 ∧ ¬ Writable history.pipe 1 := by
  exact ⟨_, rfl, by decide, by decide, not_writable_of_refused (by decide)⟩

end MandelbrotOS.DrainedPipes
