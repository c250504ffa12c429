import MandelbrotOS.FatDelete
import MandelbrotOS.FatFiles
import MandelbrotOS.Kheap
import MandelbrotOS.OpenModes
import MandelbrotOS.Tmpfs

/-! Writing to an open file, seeking back and reading: the system calls over
`tmpfs_read`, `tmpfs_write`, `fat_read` and `fat_write`. Both system calls stop
at the length the file has, so a write never makes it longer; and a tmpfs file
answers a read with the offset it was read at. -/
namespace MandelbrotOS.ReadBack
open Descriptors Fat FatChains FatFiles FatLookup Kheap OpenModes Tmpfs Vfs

/-- A `size_t` returned as an `ssize_t`. -/
def ssize (value : Nat) : Int := if value < 2 ^ 63 then value else value - 2 ^ 64

/-! ### tmpfs -/

/-- The bytes `private_data` points to. -/
def blockSize : PrivateData → Nat
  | .contents size _ => size
  | _ => 0

/-- `memcpy` from a place in the block. -/
def readBlock (data : PrivateData) (offset count : Nat) : Option (List UInt8) :=
  if count = 0 then some []
  else match data with
    | .contents size bytes =>
      if offset + count ≤ size then some ((List.range count).map fun k => bytes (offset + k)) else none
    | _ => none

/-- `memcpy` to a place in the block. -/
def writeBlock (data : PrivateData) (buf : List UInt8) (offset count : Nat) : Option PrivateData :=
  if count = 0 then some data
  else match data with
    | .contents size bytes =>
      if offset + count ≤ size ∧ count ≤ buf.length then
        some (.contents size fun place =>
          if offset ≤ place ∧ place < offset + count then buf.getD (place - offset) 0 else bytes place)
      else none
    | _ => none

/-- `krealloc`; new memory is as the heap has it. A block that is large enough stays
where it is, with the new size; else its bytes are copied, beyond the new block if
that was cut. -/
def krealloc (heap : Nat → UInt8) (data : PrivateData) (size : Nat) : Option PrivateData :=
  match data with
  | .null => some (if size = 0 then .null else .contents (kmallocSize size) heap)
  | .contents old bytes =>
    if size = 0 then some .null
    else if size ≤ old then some (.contents size bytes)
    else if old ≤ kmallocSize size then
      some (.contents (kmallocSize size) fun place => if place < old then bytes place else heap place)
    else none
  | .directory _ => none

/-- `tmpfs_read`, which returns its offset. -/
def tmpfsRead (file : FsFile) (data : PrivateData) (offset count : Nat) : Option (Int × List UInt8) :=
  let count := if (count + offset) % 2 ^ 64 > file.length then
      (file.length + 2 ^ 64 - offset) % 2 ^ 64
    else count
  (readBlock data offset count).map (ssize offset, ·)

/-- The part of `tmpfs_write` that makes a file longer. -/
def tmpfsGrow (heap : Nat → UInt8) (file : FsFile) (data : PrivateData) (total : Nat) :
    Option (FsFile × PrivateData) :=
  if total > file.length then (krealloc heap data total).map ({ file with length := total }, ·)
  else some (file, data)

def tmpfsWrite (heap : Nat → UInt8) (file : FsFile) (data : PrivateData) (buf : List UInt8)
    (offset count : Nat) : Option (Int × FsFile × PrivateData) := do
  let (file, data) ← tmpfsGrow heap file data ((count + offset) % 2 ^ 64)
  let data ← writeBlock data buf offset count
  some (ssize count, file, data)

/-! ### The file systems behind the descriptors -/

/-- `file_ops` and `private_data` of a file. -/
inductive Backing where
  | tmpfs (privateData : PrivateData)
  | fat (handle : Handle)

/-- What the file systems keep, the clock, and what new memory holds. -/
structure Store where
  backing : FilePtr → Backing
  volume : Volume
  now : Datetime
  heap : Nat → UInt8

def Store.setBlock (store : Store) (file : FilePtr) (data : PrivateData) : Store :=
  { store with backing := Function.update store.backing file (.tmpfs data) }

theorem Store.setBlock_backing (store : Store) (file : FilePtr) (data : PrivateData) :
    (store.setBlock file data).backing file = .tmpfs data := Function.update_self ..

/-- The store is `none` once something was done that C leaves open. -/
abbrev Files := World (Option Store)

def Files.crash (world : Files) : Files := { world with fs := none }

/-- `vfs_read`. Pipes and devices are elsewhere. -/
def vfsRead (elsewhere : FileOps (Option Store)) (world : Files) (file : FilePtr) (offset count : Nat) :
    (Int × List UInt8) × Files :=
  match world.fs with
  | none => ((0, []), world)
  | some store =>
    if isFifo (world.files file) || isDev (world.files file) then elsewhere.vfsRead world file offset count
    else match store.backing file with
      | .tmpfs data =>
        match tmpfsRead (world.files file) data offset count with
        | none => ((0, []), world.crash)
        | some reply => (reply, world)
      | .fat handle =>
        match fatRead store.volume store.now handle offset count with
        | none => ((0, []), world.crash)
        | some ((read, bytes), volume) =>
          ((ssize read, bytes.map UInt8.ofBitVec), { world with fs := some { store with volume } })

def vfsWrite (elsewhere : FileOps (Option Store)) (world : Files) (file : FilePtr) (buf : List UInt8)
    (offset count : Nat) : Int × Files :=
  match world.fs with
  | none => (0, world)
  | some store =>
    if isFifo (world.files file) || isDev (world.files file) then
      elsewhere.vfsWrite world file buf offset count
    else match store.backing file with
      | .tmpfs data =>
        match tmpfsWrite store.heap (world.files file) data buf offset count with
        | none => (0, world.crash)
        | some (written, fields, data) => (written, { world with
            fs := some (store.setBlock file data)
            files := Function.update world.files file fields })
      | .fat handle =>
        match fatWrite store.volume store.now handle (world.files file).length (buf.map UInt8.toBitVec)
            offset count with
        | none => (0, world.crash)
        | some (written, length, volume) => (ssize written, { world with
            fs := some { store with volume }
            files := Function.update world.files file { world.files file with length } })

/-- Opening, creating and closing files is elsewhere. -/
def storeOps (elsewhere : FileOps (Option Store)) : FileOps (Option Store) :=
  { elsewhere with vfsRead := vfsRead elsewhere, vfsWrite := vfsWrite elsewhere }

def espipe : Nat := 72

def seekSet : Nat := 0
def seekCur : Nat := 1
def seekEnd : Nat := 2

def syscallSeek {Fs : Type} (world : World Fs) (fd : Nat) (offset : Int) (type : Nat) : Reply × World Fs :=
  match world.fds fd with
  | none => (.error ebadf, world)
  | some sfile =>
    let file := world.files sfile.file
    let moved (place : Int) : Reply × World Fs :=
      (.value (place % 2 ^ 64).toNat, world.setOffset sfile.file (place % 2 ^ 64).toNat)
    if isFifo file then (.error espipe, world)
    else if type = seekEnd then moved (file.length + offset)
    else if type = seekCur then
      if ssize file.offset + offset < 0 then (.error einval, world) else moved (file.offset + offset)
    else if type = seekSet then if offset < 0 then (.error einval, world) else moved offset
    else (.error einval, world)

/-! ### Writing and reading back -/

/-- The bytes are written, the file is seeked back to where it was, and as many
are read. -/
def readAgain (ops : FileOps (Option Store)) (world : Files) (id : Nat) (file : FilePtr)
    (data : List UInt8) : (Int × List UInt8) × Files :=
  let world' := (syscallWrite ops world id data data.length).2
  let back := (syscallSeek world' id (ssize (world.files file).offset) seekSet).2
  syscallRead ops back id data.length

/-- All of the data is written, the file is long enough for it, and it is what
is read. -/
structure ReadsBack (ops : FileOps (Option Store)) (world : Files) (id : Nat) (file : FilePtr)
    (data : List UInt8) : Prop where
  written : (syscallWrite ops world id data data.length).1 = data.length
  long : (world.files file).offset + data.length ≤
    ((syscallWrite ops world id data data.length).2.files file).length
  read : (readAgain ops world id file data).1 = ((data.length : Int), data)
  live : (readAgain ops world id file data).2.fs ≠ none

/-- A regular file opened for reading and writing. One on a FAT volume is as
long as its entry says, on a sound volume. -/
structure OpenReadWrite (world : Files) (id : Nat) (sfile : SyscallFile) (store : Store) : Prop where
  slot : world.fds id = some sfile
  flags : has sfile.flags oRdwr = true
  regular : (world.files sfile.file).mode &&& sIfmt = sIfreg
  live : world.fs = some store
  word : (world.files sfile.file).length < 2 ^ 64
  placed : ∀ handle, store.backing sfile.file = .fat handle →
    (world.files sfile.file).length = entrySize handle.dir ∧
      ∃ clusters listing, Placed store.volume handle clusters listing

/-- A FAT file takes what lies within its length. A tmpfs file also has to have
the memory, which `tmpfs_truncate` does not get, and the offset has to be what
is returned for the number of bytes. -/
def Backing.Takes (backing : Backing) (offset count : Nat) : Prop :=
  match backing with
  | .tmpfs data => offset + count ≤ blockSize data ∧ offset = count
  | .fat _ => True

/-- The writes that read back. -/
structure Survives (file : FsFile) (backing : Backing) (count : Nat) : Prop where
  inside : file.offset + count ≤ file.length
  taken : count = 0 ∨ backing.Takes file.offset count

/-! ### Sizes -/

theorem ssize_small (small : value < 2 ^ 63) : ssize value = value := if_pos small

theorem eq_of_ssize {count : Nat} (word : value < 2 ^ 64) (same : ssize value = count) : value = count := by
  rw [ssize] at same
  split at same <;> omega

theorem clippedSize_inside (inside : file.offset + size ≤ file.length) (word : file.length < 2 ^ 64) :
    clippedSize file size = size := by
  have total : (size + file.offset) % 2 ^ 64 = size + file.offset := Nat.mod_eq_of_lt (by omega)
  rw [clippedSize, total, if_neg (by omega)]

theorem clippedSize_outside (regular : file.mode &&& sIfmt = sIfreg)
    (outside : file.length < file.offset + size) (fits : file.offset + size < 2 ^ 64) :
    clippedSize file size ≠ size ∧ clippedSize file size < 2 ^ 64 := by
  have total : (size + file.offset) % 2 ^ 64 = size + file.offset := Nat.mod_eq_of_lt (by omega)
  have kind : isDev file = false ∧ isFifo file = false := by
    rw [isDev, isFifo, regular]
    decide
  rw [clippedSize, total, kind.1, kind.2, if_pos ⟨by omega, rfl, rfl⟩]
  omega

section
variable {elsewhere : FileOps (Option Store)} {world : Files} {id : Nat} {sfile : SyscallFile}
  {store : Store} {data : List UInt8}

section
variable (opened : OpenReadWrite world id sfile store)
include opened

theorem OpenReadWrite.kind :
    isDev (world.files sfile.file) = false ∧ isFifo (world.files sfile.file) = false := by
  rw [isDev, isFifo, opened.regular]
  decide

theorem OpenReadWrite.accepts : writeAccepts sfile.flags = true ∧ readAccepts sfile.flags = true := by
  simp only [writeAccepts, readAccepts, has_or, opened.flags, Bool.or_true, and_self]

/-! ### What the calls come to -/

theorem OpenReadWrite.syscallWrite_eq (nonempty : 0 < data.length) : syscallWrite (storeOps elsewhere) world id data data.length =
      let size := clippedSize (world.files sfile.file) data.length
      let reply := vfsWrite elsewhere world sfile.file data (world.files sfile.file).offset size
      (reply.1, reply.2.setOffset sfile.file (((reply.2.files sfile.file).offset + size) % 2 ^ 64)) := by
  simp only [Descriptors.syscallWrite, opened.slot, opened.accepts.1, Bool.not_true, Bool.false_eq_true,
    if_false, Nat.ne_of_gt nonempty]
  rfl

theorem OpenReadWrite.vfsWrite_count (buf : List UInt8)
    (offset count : Nat) : (vfsWrite elsewhere world sfile.file buf offset count).2.fs = none ∨
      (vfsWrite elsewhere world sfile.file buf offset count).1 = ssize count := by
  simp only [vfsWrite, opened.live, opened.kind, Bool.or_self, Bool.false_eq_true, if_false]
  cases backed : store.backing sfile.file with
  | tmpfs data =>
    dsimp only
    split
    · exact Or.inl rfl
    · grind [tmpfsWrite, Option.bind_eq_some_iff]
  | fat handle =>
    dsimp only
    split
    · exact Or.inl rfl
    · rename_i written _ _ ran
      obtain ⟨-, _, _, placed⟩ := opened.placed handle backed
      rw [fatWrite_count placed.plain ran]
      exact Or.inr rfl

end

theorem syscallRead_dead (dead : world.fs = none) (id size : Nat) :
    (syscallRead (storeOps elsewhere) world id size).2.fs = none := by
  unfold syscallRead
  split
  · exact dead
  · split
    · exact dead
    · split
      · exact dead
      · simp only [storeOps, vfsRead, dead]
        exact dead

theorem syscallSeek_frame (world : Files) (fd : Nat) (offset : Int) (type : Nat) :
    (syscallSeek world fd offset type).2.fs = world.fs ∧
      (syscallSeek world fd offset type).2.fds = world.fds := by
  unfold syscallSeek
  split
  · exact ⟨rfl, rfl⟩
  · dsimp only
    split_ifs <;> exact ⟨rfl, rfl⟩

theorem readAgain_dead (dead : (syscallWrite (storeOps elsewhere) world id data data.length).2.fs = none) :
    (readAgain (storeOps elsewhere) world id file data).2.fs = none := by
  apply syscallRead_dead
  rw [(syscallSeek_frame ..).1]
  exact dead

theorem not_readsBack_outside (opened : OpenReadWrite world id sfile store)
    (fits : (world.files sfile.file).offset + data.length < 2 ^ 64) (nonempty : 0 < data.length)
    (outside : (world.files sfile.file).length < (world.files sfile.file).offset + data.length) :
    ¬ ReadsBack (storeOps elsewhere) world id sfile.file data := by
  intro back
  have written := back.written
  rw [opened.syscallWrite_eq nonempty] at written
  rcases opened.vfsWrite_count data (world.files sfile.file).offset
    (clippedSize (world.files sfile.file) data.length) with dead | count
  · apply back.live
    apply readAgain_dead
    rw [opened.syscallWrite_eq nonempty]
    exact dead
  · obtain ⟨cut, word⟩ := clippedSize_outside opened.regular outside fits
    grind [eq_of_ssize]

/-! ### Within the file -/

/-- Only the store and the offset change in a transfer within the file. -/
def afterwards (world : Files) (file : FilePtr) (store : Store) (place : Nat) : Files :=
  World.setOffset { world with fs := some store } file place

theorem afterwards_offset (world : Files) (file : FilePtr) (store : Store) :
    afterwards world file store (world.files file).offset = { world with fs := some store } := by
  simp [afterwards, World.setOffset]

theorem setOffset_afterwards (world : Files) (file : FilePtr) (store : Store) (first second : Nat) :
    (afterwards world file store first).setOffset file second = afterwards world file store second := by
  simp [afterwards, World.setOffset]

section
variable (opened : OpenReadWrite world id sfile store)
include opened

theorem OpenReadWrite.afterwards_kind (store' : Store)
    (place : Nat) : isDev ((afterwards world sfile.file store' place).files sfile.file) = false ∧
      isFifo ((afterwards world sfile.file store' place).files sfile.file) = false := by
  simp only [afterwards, World.setOffset, Function.update_self]
  exact opened.kind

theorem OpenReadWrite.seek (store' : Store) (later : Nat) (word : place < 2 ^ 64) :
    (syscallSeek (afterwards world sfile.file store' later) id (ssize place) seekSet).2 =
      afterwards world sfile.file store' (if place < 2 ^ 63 then place else later) := by
  simp only [syscallSeek, show (afterwards world sfile.file store' later).fds id = some sfile from opened.slot,
    opened.afterwards_kind, Bool.false_eq_true, if_false, show seekSet ≠ seekEnd by decide,
    show seekSet ≠ seekCur by decide, if_true, ssize]
  by_cases low : place < 2 ^ 63
  · have same : ((place : Int) % 2 ^ 64).toNat = place := by omega
    simp only [low, if_true, show ¬ (place : Int) < 0 by omega, if_false, same, setOffset_afterwards]
  · grind

section
variable (nonempty : 0 < data.length)
  (inside : (world.files sfile.file).offset + data.length ≤ (world.files sfile.file).length)
  (ran : vfsWrite elsewhere world sfile.file data (world.files sfile.file).offset data.length = (ssize data.length, { world with fs := some store' }))
include nonempty inside ran

theorem OpenReadWrite.syscallWrite_inside :
    syscallWrite (storeOps elsewhere) world id data data.length = (ssize data.length,
      afterwards world sfile.file store' ((world.files sfile.file).offset + data.length)) := by
  have word := opened.word
  have total : ((world.files sfile.file).offset + data.length) % 2 ^ 64 =
      (world.files sfile.file).offset + data.length := Nat.mod_eq_of_lt (by omega)
  rw [opened.syscallWrite_eq nonempty]
  grind [clippedSize_inside, afterwards]

theorem OpenReadWrite.readAgain_inside : ∃ place size, ((world.files sfile.file).offset < 2 ^ 63 →
        place = (world.files sfile.file).offset ∧ size = data.length) ∧
      (¬ (world.files sfile.file).offset < 2 ^ 63 →
        place = (world.files sfile.file).offset + data.length) ∧
      (readAgain (storeOps elsewhere) world id sfile.file data).1 =
        (vfsRead elsewhere (afterwards world sfile.file store' place) sfile.file place size).1 ∧
      (readAgain (storeOps elsewhere) world id sfile.file data).2.fs =
        (vfsRead elsewhere (afterwards world sfile.file store' place) sfile.file place size).2.fs := by
  have word := opened.word
  have slot : ∀ place, (afterwards world sfile.file store' place).fds id = some sfile := fun _ => opened.slot
  have fields : ∀ place, (afterwards world sfile.file store' place).files sfile.file =
      { world.files sfile.file with offset := place } := fun place => by
    simp only [afterwards, World.setOffset, Function.update_self]
  have back := opened.seek store' ((world.files sfile.file).offset + data.length)
    (show (world.files sfile.file).offset < 2 ^ 64 by omega)
  generalize sought : (if (world.files sfile.file).offset < 2 ^ 63 then (world.files sfile.file).offset
    else (world.files sfile.file).offset + data.length) = place at back
  refine ⟨place, clippedSize { world.files sfile.file with offset := place } data.length, fun low => ?_,
    fun high => ?_, ?_, ?_⟩
  · simp_all [clippedSize_inside]
  · rw [if_neg high] at sought
    exact sought.symm
  all_goals
    simp only [readAgain, opened.syscallWrite_inside nonempty inside ran, back, syscallRead, slot, opened.accepts.2,
      Bool.not_true, Bool.false_eq_true, if_false, Nat.ne_of_gt nonempty, fields]
    rfl

end

theorem OpenReadWrite.readsBack (store' store'' : Store) (nonempty : 0 < data.length)
    (inside : (world.files sfile.file).offset + data.length ≤ (world.files sfile.file).length)
    (low : (world.files sfile.file).offset < 2 ^ 63) (few : data.length < 2 ^ 63)
    (ran : vfsWrite elsewhere world sfile.file data (world.files sfile.file).offset data.length =
      (ssize data.length, { world with fs := some store' }))
    (answer : vfsRead elsewhere { world with fs := some store' } sfile.file (world.files sfile.file).offset
      data.length = ((ssize data.length, data), { world with fs := some store'' })) :
    ReadsBack (storeOps elsewhere) world id sfile.file data := by
  have called := opened.syscallWrite_inside nonempty inside ran
  obtain ⟨place, size, back, -, reply, live⟩ := opened.readAgain_inside nonempty inside ran
  obtain ⟨rfl, rfl⟩ := back low
  rw [afterwards_offset, answer] at reply live
  refine ⟨?_, ?_, ?_, ?_⟩
  · rw [called]
    exact ssize_small few
  · simp_all [afterwards, World.setOffset]
  · rw [reply, ssize_small few]
  · rw [live]
    exact Option.some_ne_none _

end

theorem map_range_eq {bytes : Nat → UInt8} (same : ∀ k < data.length, bytes k = data.getD k 0) :
    (List.range data.length).map bytes = data := by
  grind [List.ext_getElem, List.length_map]

/-! ### tmpfs files -/

theorem writeBlock_fits (nonempty : 0 < data.length)
    (wrote : writeBlock block data offset data.length = some after) : offset + data.length ≤ blockSize block := by
  unfold writeBlock at wrote
  rw [if_neg (Nat.ne_of_gt nonempty)] at wrote
  cases block with
  | contents size bytes => exact (Option.ite_none_right_eq_some.mp wrote).1.1
  | null => cases wrote
  | directory _ => cases wrote

theorem readBlock_writeBlock (nonempty : 0 < data.length) (fits : offset + data.length ≤ blockSize block) :
    ∃ after, writeBlock block data offset data.length = some after ∧
      readBlock after offset data.length = some data := by
  unfold writeBlock
  rw [if_neg (Nat.ne_of_gt nonempty)]
  cases block with
  | contents size bytes =>
    refine ⟨_, if_pos ⟨fits, Nat.le_refl _⟩, ?_⟩
    unfold readBlock
    rw [if_neg (Nat.ne_of_gt nonempty)]
    refine (if_pos fits).trans (congrArg some (map_range_eq fun k few => ?_))
    simp_all
  | null => exact absurd fits (by simp only [blockSize]; omega)
  | directory _ => exact absurd fits (by simp only [blockSize]; omega)

section
variable (opened : OpenReadWrite world id sfile store)
include opened

theorem OpenReadWrite.vfsWrite_tmpfs (inside : (world.files sfile.file).offset + data.length ≤ (world.files sfile.file).length)
    (backed : store.backing sfile.file = .tmpfs block) :
    vfsWrite elsewhere world sfile.file data (world.files sfile.file).offset data.length =
      match writeBlock block data (world.files sfile.file).offset data.length with
      | none => (0, world.crash)
      | some after => (ssize data.length, { world with fs := some (store.setBlock sfile.file after) }) := by
  have word := opened.word
  have total : (data.length + (world.files sfile.file).offset) % 2 ^ 64 =
      (world.files sfile.file).offset + data.length := by
    omega
  simp only [vfsWrite, opened.live, opened.kind, Bool.or_self, Bool.false_eq_true, if_false, backed, tmpfsWrite,
    tmpfsGrow, total, gt_iff_lt, Nat.not_lt.mpr inside, Option.bind_eq_bind, Option.bind_some]
  grind [Function.update_eq_self]

theorem OpenReadWrite.vfsRead_tmpfs (backed : store'.backing sfile.file = .tmpfs block) (place count : Nat) :
    (vfsRead elsewhere (afterwards world sfile.file store' place) sfile.file place count).2.fs = none ∨
      (vfsRead elsewhere (afterwards world sfile.file store' place) sfile.file place count).1.1 =
        ssize place := by
  simp only [vfsRead, show (afterwards world sfile.file store' place).fs = some store' from rfl,
    opened.afterwards_kind, Bool.or_self, Bool.false_eq_true, if_false, backed]
  split
  · exact Or.inl rfl
  · rename_i reply ran
    obtain ⟨bytes, -, rfl⟩ := Option.map_eq_some_iff.mp ran
    exact Or.inr rfl

section
variable (nonempty : 0 < data.length)
  (inside : (world.files sfile.file).offset + data.length ≤ (world.files sfile.file).length)
include nonempty inside

theorem OpenReadWrite.tmpfs_iff (backed : store.backing sfile.file = .tmpfs block) :
    ReadsBack (storeOps elsewhere) world id sfile.file data ↔
      (world.files sfile.file).offset + data.length ≤ blockSize block ∧
        (world.files sfile.file).offset = data.length := by
  have word := opened.word
  have ran : vfsWrite elsewhere world sfile.file data _ _ = _ := opened.vfsWrite_tmpfs inside backed
  constructor
  · intro back
    cases wrote : writeBlock block data (world.files sfile.file).offset data.length with
    | none =>
      refine absurd (readAgain_dead ?_) back.live
      rw [wrote] at ran
      rw [opened.syscallWrite_eq nonempty]
      simp only [clippedSize_inside inside word, ran]
      rfl
    | some after =>
      refine ⟨writeBlock_fits nonempty wrote, ?_⟩
      rw [wrote] at ran
      obtain ⟨place, size, low, high, reply, live⟩ := opened.readAgain_inside nonempty inside ran
      have count := congrArg Prod.fst (reply.symm.trans back.read)
      rcases opened.vfsRead_tmpfs (store.setBlock_backing ..) place size with dead | answer
      · exact absurd (live.trans dead) back.live
      · by_cases small : (world.files sfile.file).offset < 2 ^ 63
        · obtain ⟨rfl, -⟩ := low small
          exact eq_of_ssize (by omega) (answer.symm.trans count)
        · grind [eq_of_ssize]
  · rintro ⟨fits, same⟩
    obtain ⟨after, wrote, reads⟩ := readBlock_writeBlock nonempty fits
    rw [wrote] at ran
    have total : (data.length + (world.files sfile.file).offset) % 2 ^ 64 =
        (world.files sfile.file).offset + data.length := by
      omega
    refine opened.readsBack _ (store.setBlock sfile.file after) nonempty inside (by omega) (by omega) ran ?_
    simp only [vfsRead, opened.kind, Bool.or_self, Bool.false_eq_true, if_false, Store.setBlock_backing,
      tmpfsRead, total, gt_iff_lt, Nat.not_lt.mpr inside, reads, Option.map_some]
    rw [same]

/-! ### FAT files -/

theorem OpenReadWrite.readsBack_fat (backed : store.backing sfile.file = .fat handle) :
    ReadsBack (storeOps elsewhere) world id sfile.file data := by
  obtain ⟨sized, clusters, listing, placed⟩ := opened.placed handle backed
  have small := entrySize_lt handle.dir
  have within := sized ▸ inside
  obtain ⟨v', wrote, placed', boot, bytes⟩ := placed.fatWrite store.now (world.files sfile.file).length
    nonempty within (show data.length ≤ (data.map UInt8.toBitVec).length by rw [List.length_map])
  obtain ⟨v'', read⟩ := placed'.fatRead store.now within
  refine opened.readsBack { store with volume := v' } { store with volume := v'' } nonempty inside (by omega)
    (by omega) ?_ ?_
  · simp only [vfsWrite, opened.live, opened.kind, Bool.or_self, Bool.false_eq_true, if_false, backed, wrote,
      Function.update_eq_self]
  · have same : ((List.range data.length).map fun k =>
        v'.disk (chainPlace v'.boot clusters ((world.files sfile.file).offset + k))).map UInt8.ofBitVec = data := by
      simp_all [map_range_eq]
    simp only [vfsRead, opened.kind, Bool.or_self, Bool.false_eq_true, if_false, backed, read, same]

end

/-! ### Any write -/

theorem OpenReadWrite.empty_iff (empty : data.length = 0) :
    ReadsBack (storeOps elsewhere) world id sfile.file data ↔
      Survives (world.files sfile.file) (store.backing sfile.file) data.length := by
  have called : syscallWrite (storeOps elsewhere) world id data data.length = (0, world) := by
    simp only [syscallWrite, opened.slot, opened.accepts.1, Bool.not_true, Bool.false_eq_true, if_false, empty,
      if_true]
  have frame := syscallSeek_frame world id (ssize (world.files sfile.file).offset) seekSet
  have again : readAgain (storeOps elsewhere) world id sfile.file data =
      ((0, []), (syscallSeek world id (ssize (world.files sfile.file).offset) seekSet).2) := by
    simp only [readAgain, called]
    simp only [syscallRead, frame.2, opened.slot, opened.accepts.2, Bool.not_true, Bool.false_eq_true, if_false,
      empty, if_true]
  constructor
  · intro back
    have long := back.long
    rw [called] at long
    exact ⟨long, Or.inl empty⟩
  · intro survives
    refine ⟨?_, ?_, ?_, ?_⟩
    · rw [called, empty]
      rfl
    · rw [called]
      exact survives.inside
    · simp_all
    · rw [again, frame.1, opened.live]
      exact Option.some_ne_none _

end

/-- **Write then read back.** For every regular tmpfs or FAT file open for
reading and writing, and every byte string that ends within a `size_t`: writing
it returns its length and leaves the file long enough, and reading as many
bytes from the same offset returns them and their number, if and only if they
end within the length the file had and, where there are any and the file is on
a tmpfs, within the memory it had, at an offset equal to their number. -/
theorem reads_back_iff (opened : OpenReadWrite world id sfile store)
    (fits : (world.files sfile.file).offset + data.length < 2 ^ 64) :
    ReadsBack (storeOps elsewhere) world id sfile.file data ↔
      Survives (world.files sfile.file) (store.backing sfile.file) data.length := by
  rcases Nat.eq_zero_or_pos data.length with empty | nonempty
  · exact opened.empty_iff empty
  · by_cases inside : (world.files sfile.file).offset + data.length ≤ (world.files sfile.file).length
    · cases backed : store.backing sfile.file with
      | tmpfs block =>
        rw [opened.tmpfs_iff nonempty inside backed]
        constructor
        · exact fun taken => ⟨inside, Or.inr taken⟩
        · exact fun survives => survives.taken.resolve_left (Nat.ne_of_gt nonempty)
      | fat handle =>
        constructor
        · exact fun _ => ⟨inside, Or.inr trivial⟩
        · exact fun _ => opened.readsBack_fat nonempty inside backed
    · constructor
      · exact fun back => absurd back (not_readsBack_outside opened fits nonempty (Nat.not_le.mp inside))
      · exact fun survives => absurd survives.inside inside

end

/-- File 0 is open as descriptor 3. -/
def oneOpen (backing : Backing) (length offset : Nat) : Files where
  fs := some ⟨fun _ => backing, FatDelete.oneFile 3, ⟨0, 0, 0, 15, 11, 126⟩, fun _ => 0⟩
  files _ := { uid := 0, gid := 0, mode := sIfreg ||| 0o644, length, offset }
  fds id := if id = 3 then some ⟨0, oRdwr⟩ else none

/-- There is nothing else to open. -/
def nothingElse : FileOps (Option Store) where
  vfsOpen world _ := (none, world)
  vfsCreate world _ _ _ _ := (none, world)
  vfsClose world _ := world
  vfsRead world _ _ _ := ((0, []), world)
  vfsWrite world _ _ _ _ := (0, world)

/-- `/A` on a FAT volume: cluster 3, and four bytes long. -/
def fourBytes : Handle := ⟨fun k => if k = 26 then 3 else if k = 28 then 4 else 0, 0, 3, 2⟩

theorem fourBytes_placed : Placed (FatDelete.oneFile 3) fourBytes [3] [2] where
  tables := Nat.le_refl 1
  plain := rfl
  head := rfl
  data := by decide +kernel
  dataOn := by simp [OnTable, FatDelete.oneFile]
  room := by decide
  directory := by decide +kernel
  directoryOn := by simp [OnTable, FatDelete.oneFile]
  listed := by decide
  apart := by simp

theorem two_of_four_read_back :
    ReadsBack (storeOps nothingElse) (oneOpen (.fat fourBytes) 4 1) 3 0 [7, 8] := by
  have opened : OpenReadWrite (oneOpen (.fat fourBytes) 4 1) 3 ⟨0, oRdwr⟩ _ :=
    ⟨rfl, by decide, by decide, rfl, by decide, by
      rintro handle ⟨⟩
      exact ⟨rfl, [3], [2], fourBytes_placed⟩⟩
  exact (reads_back_iff opened (by decide)).mpr ⟨by decide, Or.inr trivial⟩

/-- A byte written to a file `tmpfs_create` has just made is not taken. -/
theorem new_file_takes_nothing :
    (∃ store, OpenReadWrite (oneOpen (.tmpfs .null) 0 0) 3 ⟨0, oRdwr⟩ store) ∧
      (syscallWrite (storeOps nothingElse) (oneOpen (.tmpfs .null) 0 0) 3 [7] 1).1 = 0 ∧
      ¬ ReadsBack (storeOps nothingElse) (oneOpen (.tmpfs .null) 0 0) 3 0 [7] := by
  have nothing : (syscallWrite (storeOps nothingElse) (oneOpen (.tmpfs .null) 0 0) 3 [7] 1).1 = 0 := rfl
  exact ⟨⟨_, rfl, by decide, by decide, rfl, by decide, fun _ other => nomatch other⟩, nothing,
    fun back => absurd (nothing.symm.trans back.written) (by decide)⟩

end MandelbrotOS.ReadBack
