import MandelbrotOS.ByteMemory
import MandelbrotOS.Pmm
import MandelbrotOS.Runs

/-! Pipes, `pipe/pipe.c`, and whole histories of one. A write that does not fit
before the end of the buffer is refused, so neither end ever wraps. A read
looks at the two ends once and then takes as many bytes as it was asked for,
so a history is that of a queue exactly as long as nobody asks for more bytes
than there are. -/
namespace MandelbrotOS.Pipes
open ByteMemory Pmm Runs

abbrev Bytes := List (BitVec 8)

/-- `pipe_t`, and the memory its pointers point into. -/
structure Pipe where
  mem : Memory
  buffer : Nat
  bufferEnd : Nat
  head : Nat
  tail : Nat

/-- The buffer is `capacity` pointers long. -/
def bufferSize (capacity : Nat) : Nat := capacity * 8 % wordSize

/-- `pipe_init` with the buffer `kmalloc` returned. -/
def pipeInit (mem : Memory) (buffer capacity : Nat) : Pipe :=
  ⟨mem, buffer, (buffer + bufferSize capacity) % wordSize, buffer, buffer⟩

/-- `pipe_write`. A copy over the end of the address space is `none`. -/
def pipeWrite (pipe : Pipe) (item : Bytes) : Option (Nat × Pipe) :=
  let count := item.length
  if pipe.head + count ≥ wordSize then none
  else if pipe.head + count ≥ pipe.bufferEnd then some (0, pipe)
  else
    let head := pipe.head + count
    some (count, { pipe with
      mem := copy pipe.mem pipe.head count fun k => item.getD k 0
      head := if head ≥ pipe.bufferEnd then pipe.buffer else head })

/-- The loop of `pipe_read`, with what it has stored so far; `none` is `-1`. -/
def readLoop (pipe : Pipe) : Nat → Bytes → Option Bytes
  | 0, item => some item
  | count + 1, item =>
    let item := item ++ [pipe.mem ((pipe.tail + item.length) % wordSize)]
    if pipe.tail ≥ pipe.head then none else readLoop pipe count item

/-- `pipe_read`: the bytes delivered, or `none` for `-1`. -/
def pipeRead (pipe : Pipe) (count : Nat) : Option Bytes × Pipe :=
  if pipe.tail ≥ pipe.head then (none, pipe)
  else match readLoop pipe count [] with
    | none => (none, pipe)
    | some item =>
      let tail := (pipe.tail + item.length) % wordSize
      (some item, { pipe with tail := if tail ≥ pipe.bufferEnd then pipe.buffer else tail })

theorem readLoop_eq (busy : pipe.tail < pipe.head) (count : Nat) (item : Bytes) :
    readLoop pipe count item = some (item ++
      (List.range count).map fun k => pipe.mem ((pipe.tail + (item.length + k)) % wordSize)) := by
  induction count generalizing item with
  | zero => simp [readLoop]
  | succ count ih =>
    rw [readLoop, if_neg (by omega), ih, List.range_succ_eq_map]
    simp only [List.length_append, List.length_singleton, List.append_assoc, List.singleton_append,
      List.map_cons, List.map_map, Function.comp_def, Nat.add_zero, Nat.succ_eq_add_one]
    grind

theorem pipeRead_empty (empty : pipe.head ≤ pipe.tail) (count : Nat) : pipeRead pipe count = (none, pipe) := by
  rw [pipeRead, if_pos empty]

theorem pipeRead_length (busy : pipe.tail < pipe.head) (count : Nat) :
    ∃ item pipe', pipeRead pipe count = (some item, pipe') ∧ item.length = count := by
  simp_all [pipeRead, if_neg, readLoop_eq]

theorem pipeWrite_cases (ran : pipeWrite pipe item = some (count, pipe')) :
    (count = 0 ∧ pipe' = pipe) ∨
      (count = item.length ∧ pipe.head + item.length < pipe.bufferEnd ∧ pipe' = { pipe with
        mem := copy pipe.mem pipe.head item.length fun k => item.getD k 0
        head := pipe.head + item.length }) := by
  rw [pipeWrite] at ran
  grind

theorem pipeRead_available (busy : pipe.tail < pipe.head) (few : pipe.tail + count ≤ pipe.head)
    (ends : pipe.head < pipe.bufferEnd) (bounded : pipe.bufferEnd < wordSize) :
    pipeRead pipe count =
      (some (bytesAt pipe.mem pipe.tail count), { pipe with tail := pipe.tail + count }) := by
  have loop : readLoop pipe count [] = some (bytesAt pipe.mem pipe.tail count) := by
    rw [readLoop_eq busy, List.nil_append, bytesAt]
    congr 1
    refine List.map_congr_left fun k member => ?_
    have within := List.mem_range.mp member
    rw [List.length_nil, Nat.zero_add, Nat.mod_eq_of_lt (by omega)]
  rw [pipeRead, if_neg (by omega), loop]
  dsimp only
  rw [length_bytesAt, Nat.mod_eq_of_lt (by omega), if_neg (by omega)]

/-! ### Histories -/

/-- A pipe with the bytes that all its writes accepted and all its reads
delivered. -/
structure History where
  pipe : Pipe
  accepted : Bytes
  delivered : Bytes

inductive Call where
  | write (item : Bytes)
  | read (count : Nat)

def step (history : History) : Call → Option History
  | .write item => (pipeWrite history.pipe item).map fun wrote =>
      { history with pipe := wrote.2, accepted := history.accepted ++ item.take wrote.1 }
  | .read count =>
    let read := pipeRead history.pipe count
    some { history with pipe := read.2, delivered := history.delivered ++ read.1.getD [] }

/-- What one call owes: a read delivers no more than is unread, and one that
fails consumes nothing. -/
def CallSound (history : History) : Call → Prop
  | .write _ => True
  | .read count =>
    (∀ item pipe, pipeRead history.pipe count = (some item, pipe) →
      history.delivered.length + item.length ≤ history.accepted.length) ∧
    ∀ pipe, pipeRead history.pipe count = (none, pipe) → pipe = history.pipe

/-- What was delivered is the beginning of what was accepted. -/
def InOrder (history : History) : Prop := history.delivered <+: history.accepted

/-- The history is that of a queue. -/
def HistoryFifo (start : History) (calls : List Call) : Prop :=
  Along step CallSound start calls ∧ Throughout step InOrder start calls

/-- A read finds nothing, or asks for no more bytes than lie between the ends. -/
def Available (history : History) : Call → Prop
  | .write _ => True
  | .read count => history.pipe.head ≤ history.pipe.tail ∨
      history.pipe.tail + count ≤ history.pipe.head

/-- The bytes accepted lie in the buffer up to `head`, those delivered up to
`tail`. Only a buffer of no bytes has its `head` at the end. -/
structure Inv (history : History) : Prop where
  bounded : history.pipe.bufferEnd < wordSize
  ends : history.pipe.head < history.pipe.bufferEnd ∨ history.pipe.head = history.pipe.buffer
  start : history.pipe.buffer ≤ history.pipe.tail
  order : history.pipe.tail ≤ history.pipe.head
  inside : history.pipe.buffer ≤ history.pipe.bufferEnd
  accepted : history.accepted =
    bytesAt history.pipe.mem history.pipe.buffer (history.pipe.head - history.pipe.buffer)
  delivered : history.delivered =
    bytesAt history.pipe.mem history.pipe.buffer (history.pipe.tail - history.pipe.buffer)

theorem inv_inOrder (inv : Inv history) : InOrder history := by
  rw [InOrder, inv.accepted, inv.delivered, bytesAt_split history.pipe.mem inv.start inv.order]
  exact List.prefix_append _ _

theorem write_keeps (inv : Inv history) (ran : step history (.write item) = some next) : Inv next := by
  obtain ⟨⟨count, pipe'⟩, wrote, rfl⟩ := Option.map_eq_some_iff.mp ran
  have start := inv.start
  have order := inv.order
  rcases pipeWrite_cases wrote with ⟨rfl, rfl⟩ | ⟨rfl, fits, rfl⟩
  · rw [List.take_zero, List.append_nil]
    exact inv
  · rw [List.take_length]
    have kept : ∀ place < history.pipe.head, copy history.pipe.mem history.pipe.head item.length
        (fun k => item.getD k 0) place = history.pipe.mem place :=
      fun place before => copy_apart (Or.inl before)
    refine ⟨inv.bounded, Or.inl fits, inv.start, Nat.le_trans inv.order (Nat.le_add_right _ _),
      inv.inside, ?_, ?_⟩
    · dsimp only
      rw [bytesAt_split _ (Nat.le_trans start order) (Nat.le_add_right _ item.length),
        Nat.add_sub_cancel_left, bytesAt_copy_self, inv.accepted]
      congr 1
      exact bytesAt_congr fun k few => (kept _ (by omega)).symm
    · rw [inv.delivered]
      exact bytesAt_congr fun k few => (kept _ (by omega)).symm

theorem read_keeps (inv : Inv history) (available : Available history (.read count))
    (ran : step history (.read count) = some next) : Inv next := by
  cases ran
  have start := inv.start
  rcases Nat.lt_or_ge history.pipe.tail history.pipe.head with busy | empty
  · have few : history.pipe.tail + count ≤ history.pipe.head := available.resolve_left (by omega)
    have ends : history.pipe.head < history.pipe.bufferEnd := inv.ends.resolve_right (by omega)
    rw [pipeRead_available busy few ends inv.bounded]
    refine ⟨inv.bounded, inv.ends, Nat.le_trans inv.start (Nat.le_add_right _ _), few, inv.inside,
      inv.accepted, ?_⟩
    dsimp only
    rw [bytesAt_split _ start (Nat.le_add_right _ count), Nat.add_sub_cancel_left, inv.delivered,
      Option.getD_some]
  · simp_all [pipeRead_empty]

theorem step_keeps (history : History) (call : Call) (next : History) (inv : Inv history)
    (available : Available history call) (ran : step history call = some next) : Inv next := by
  cases call with
  | write item => exact write_keeps inv ran
  | read count => exact read_keeps inv available ran

theorem callSound_iff (history : History) (call : Call) (inv : Inv history) :
    CallSound history call ↔ Available history call := by
  cases call with
  | write item => exact Iff.rfl
  | read count =>
    have unread : history.accepted.length = history.delivered.length +
        (history.pipe.head - history.pipe.tail) := by
      have := inv.start
      have := inv.order
      rw [inv.accepted, inv.delivered, length_bytesAt, length_bytesAt]
      omega
    rcases Nat.lt_or_ge history.pipe.tail history.pipe.head with busy | empty
    · obtain ⟨item, pipe', ran, length⟩ := pipeRead_length busy count
      constructor
      · rintro ⟨sound, _⟩
        have few := sound item pipe' ran
        exact Or.inr (by omega)
      · intro available
        have few : history.pipe.tail + count ≤ history.pipe.head := available.resolve_left (by omega)
        refine ⟨fun item' pipe'' again => ?_, fun pipe'' failed => ?_⟩
        · grind
        · rw [ran] at failed
          cases failed
    · refine ⟨fun _ => Or.inl empty, fun _ => ⟨fun item pipe' ran => ?_, fun pipe' ran => ?_⟩⟩
      · simp_all [pipeRead_empty]
      · simp_all [pipeRead_empty]

theorem pipeInit_inv (fits : buffer + bufferSize capacity < wordSize) (mem : Memory) :
    Inv ⟨pipeInit mem buffer capacity, [], []⟩ := by
  have whole : (buffer + bufferSize capacity) % wordSize = buffer + bufferSize capacity :=
    Nat.mod_eq_of_lt fits
  refine ⟨?_, Or.inr rfl, Nat.le_refl _, Nat.le_refl _, ?_, ?_, ?_⟩
  · rw [pipeInit, whole]
    exact fits
  · rw [pipeInit, whole]
    exact Nat.le_add_right _ _
  · rw [pipeInit, Nat.sub_self]
    rfl
  · rw [pipeInit, Nat.sub_self]
    rfl

/-- **A pipe is a queue exactly while its readers are modest.** From a new pipe
of any capacity, a history of writes and reads delivers what was accepted, in
order and no more, exactly when each read finds the pipe empty or asks for no
more bytes than are in it. -/
theorem history_fifo_iff (mem : Memory) (buffer capacity : Nat)
    (fits : buffer + bufferSize capacity < wordSize) (calls : List Call) :
    HistoryFifo ⟨pipeInit mem buffer capacity, [], []⟩ calls ↔
      Along step Available ⟨pipeInit mem buffer capacity, [], []⟩ calls := by
  have start := pipeInit_inv fits mem
  have same : Along step CallSound ⟨pipeInit mem buffer capacity, [], []⟩ calls ↔
      Along step Available ⟨pipeInit mem buffer capacity, [], []⟩ calls :=
    along_iff_along callSound_iff step_keeps start
  refine ⟨fun fifo => same.mp fifo.1, fun available => ⟨same.mpr available, ?_⟩⟩
  exact throughout_mono (fun _ inv => inv_inOrder inv) (throughout_of_along step_keeps start available)

theorem modest_readers_fifo : HistoryFifo ⟨pipeInit (fun _ => 0) 0x1000 2, [], []⟩
    [.write [1, 2, 3], .read 2, .read 1, .read 5] := by
  refine (history_fifo_iff (fun _ => 0) 0x1000 2 (by decide) _).mpr ⟨trivial, ?_⟩
  rintro _ ⟨⟩
  refine ⟨Or.inr (by decide), ?_⟩
  rintro _ ⟨⟩
  refine ⟨Or.inr (by decide), ?_⟩
  rintro _ ⟨⟩
  exact ⟨Or.inl (by decide), fun _ _ => trivial⟩

/-- One byte is written and two are read. -/
theorem read_delivers_an_unwritten_byte :
    ¬ HistoryFifo ⟨pipeInit (fun _ => 0) 0x1000 2, [], []⟩ [.write [1], .read 2] := by
  rintro ⟨sound, _⟩
  have few := (sound.2 _ rfl).1.1 _ _ rfl
  revert few
  decide

end MandelbrotOS.Pipes
