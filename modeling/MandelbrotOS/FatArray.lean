import Mathlib.Data.BitVec
import MandelbrotOS.FatFiles
import MandelbrotOS.GrowableArrays
import MandelbrotOS.ReadBack
import MandelbrotOS.Runs

/-! A regular file of a FAT volume against a growable byte array: any sequence of
`fat_write` and `fat_read` through one handle. The handle keeps the directory
entry it was opened with. Both calls copy it, change some fields of the copy and
write that to the disk, so the size a read goes by is the one at opening, and a
read puts back what earlier writes have recorded. The block a chain is read to has
all its bytes, as `kmalloc` gives them below 4 GiB. -/
namespace MandelbrotOS.FatArray
open Blocks ByteMemory Fat FatChains FatFiles FatLookup GrowableArrays ReadBack Runs

inductive Call where
  | write (now : Datetime) (offset : Nat) (bytes : List (BitVec 8))
  | read (now : Datetime) (offset count : Nat)

/-- The file's entry in its directory. -/
def diskEntry (v : Volume) (file : Handle) : Option DirEntry :=
  (readDirectory v (orRoot v.boot file.parentCluster)).map fun (entries, _) => entryOf entries file.index

/-- A read: what it returned and what it owed, and the file's entry on the disk
before and after. -/
structure Reading where
  got : Nat × List (BitVec 8)
  owed : Nat × List (BitVec 8)
  before : DirEntry
  after : DirEntry

/-- The volume and the file's length, the array the file stands for, and the
reads so far. -/
structure Run where
  volume : Volume
  length : Nat
  array : Growable (BitVec 8)
  readings : List Reading

/-- The bytes there are, and their number. -/
def owed (array : Growable (BitVec 8)) (offset count : Nat) : Nat × List (BitVec 8) :=
  (min count (array.length - offset), array.read offset count)

def step (file : Handle) (run : Run) : Call → Option Run
  | .write now offset bytes => do
    let (_, length, volume) ← fatWrite run.volume now file run.length bytes offset bytes.length
    some { run with volume := volume, length := length, array := run.array.write offset bytes }
  | .read now offset count => do
    let before ← diskEntry run.volume file
    let (got, volume) ← fatRead run.volume now file offset count
    let after ← diskEntry volume file
    some { run with
      volume := volume
      readings := ⟨got, owed run.array offset count, before, after⟩ :: run.readings }

/-- The fields of an entry other than the date of the last access. -/
def SameButAccess (entry other : DirEntry) : Prop := ∀ k < 32, k ≠ 18 → k ≠ 19 → other k = entry k

/-- Every read returned what it owed and changed no field but the access date. -/
def Sound (run : Run) : Prop :=
  ∀ reading ∈ run.readings, reading.got = reading.owed ∧ SameButAccess reading.before reading.after

/-- What may be asked for: numbers of a `size_t`, and writes that begin within
the array or at its end. -/
def Allowed (run : Run) : Call → Prop
  | .write _ offset bytes => offset ≤ run.array.length ∧ offset + bytes.length < 2 ^ 64
  | .read _ offset count => offset < 2 ^ 64 ∧ count < 2 ^ 64

/-- A write ends within the clusters the file has. -/
def Fits (file : Handle) (run : Run) : Call → Prop
  | .write _ offset bytes => ∀ clusters, fatChainClusterLength run.volume file.cluster = some clusters →
    offset + bytes.length ≤ clusters * clusterBytes run.volume.boot
  | .read _ _ _ => True

/-- A read begins within the size at opening, ends there too unless that is still
the size, and finds the entry of the handle on the disk. -/
def Harmless (file : Handle) (run : Run) : Call → Prop
  | .write _ _ _ => True
  | .read _ offset count =>
    (offset ≤ entrySize file.dir ∧ offset + count < 2 ^ 64) ∧
    (run.array.length = entrySize file.dir ∨ offset + count ≤ entrySize file.dir) ∧
    ∀ entry, diskEntry run.volume file = some entry → SameButAccess entry file.dir

/-! ### The entry on the disk -/

theorem diskEntry_placed (placed : Placed v file clusters listing) :
    ∃ entry, diskEntry v file = some entry ∧
      ∀ k < 32, entry k = v.disk (chainPlace v.boot listing (file.index * 32 + k)) := by
  refine ⟨entryOf (gather (clusterBytes v.boot) v.disk (fun _ => 0) 0 (starts v.boot listing)) file.index,
    ?_, fun k few => ?_⟩
  · rw [diskEntry, readDirectory_eq, placed.directory]
    rfl
  · have listed := placed.listed
    have inside : file.index * 32 + k < (starts v.boot listing).length * clusterBytes v.boot := by
      rw [length_starts]
      omega
    exact gather_place (clusterBytes_pos inside) inside v.disk _

theorem setAccessed_sameButAccess (entry : DirEntry) (day month year : Nat) :
    SameButAccess entry (setAccessed entry day month year) :=
  fun _ _ low high => setField_other entry _ (by omega)

/-! ### The steps -/

/-- The file's clusters hold the array, which is no shorter than the file was. -/
structure Inv (file : Handle) (clusters listing : List Nat) (run : Run) : Prop where
  placed : Placed run.volume file clusters listing
  long : entrySize file.dir ≤ run.array.length
  room : run.array.length ≤ clusters.length * clusterBytes run.volume.boot
  bytes : ∀ k < run.array.length, run.volume.disk (chainPlace run.volume.boot clusters k) = run.array.item k
  sound : Sound run

section
variable {file : Handle} {clusters listing : List Nat} {run : Run}

section
variable (inv : Inv file clusters listing run)
include inv

theorem write_step (now : Datetime)
    (allowed : Allowed run (.write now offset bytes)) (fits : Fits file run (.write now offset bytes)) :
    ∃ next, step file run (.write now offset bytes) = some next ∧ Inv file clusters listing next := by
  obtain ⟨start, small⟩ := allowed
  have room : offset + bytes.length ≤ clusters.length * clusterBytes run.volume.boot :=
    fits clusters.length (by rw [fatChainClusterLength_eq, inv.placed.data]; rfl)
  cases bytes with
  | nil =>
    refine ⟨run, ?_, inv⟩
    simp only [step, FatFiles.fatWrite, List.length_nil, if_true, bind_returned, run.array.write_nil start]
  | cons byte rest =>
    have whole : rest.length + 1 ≤ (byte :: rest).length := Nat.le_refl _
    obtain ⟨v, wrote, placed, boot, stored, -⟩ := inv.placed.fatWrite_room now run.length
      (Nat.succ_pos rest.length) room small whole
    have long := inv.long
    have arrayRoom := inv.room
    generalize (if offset + rest.length.succ > entrySize file.dir then _ else run.length) = length at wrote
    refine ⟨⟨v, length, run.array.write offset (byte :: rest), run.readings⟩, ?_,
      placed, ?_, ?_, ?_, inv.sound⟩
    · simp_all [step]
    · exact Nat.le_trans long (Nat.le_max_left _ _)
    · grind [Growable.write]
    · intro k inside
      dsimp only [Growable.write, List.length_cons] at inside room ⊢
      rw [boot, stored k (by omega)]
      by_cases covered : offset ≤ k ∧ k < offset + (rest.length + 1)
      · rw [if_pos covered, if_pos covered]
      · rw [if_neg covered, if_neg covered]
        exact inv.bytes k (by omega)

theorem read_step (now : Datetime) (start : offset ≤ entrySize file.dir) (small : offset + count < 2 ^ 64) :
    ∃ v before after, diskEntry run.volume file = some before ∧
      step file run (.read now offset count) = some { run with
        volume := v
        readings := ⟨(min count (entrySize file.dir - offset),
            (List.range (min count (entrySize file.dir - offset))).map fun k => run.array.item (offset + k)),
          owed run.array offset count, before, after⟩ :: run.readings } ∧
      SameButAccess file.dir after ∧ Placed v file clusters listing ∧ v.boot = run.volume.boot ∧
      ∀ k < clusters.length * clusterBytes run.volume.boot,
        v.disk (chainPlace run.volume.boot clusters k) =
          run.volume.disk (chainPlace run.volume.boot clusters k) := by
  obtain ⟨v, ran, placed, boot, kept, entry⟩ := inv.placed.fatRead_clipped now start small
  obtain ⟨before, found, -⟩ := diskEntry_placed inv.placed
  obtain ⟨after, found', stored⟩ := diskEntry_placed placed
  refine ⟨v, before, after, found, ?_, fun k few low high => ?_, placed, boot, kept⟩
  · have same : (List.range (min count (entrySize file.dir - offset))).map (fun k =>
        run.volume.disk (chainPlace run.volume.boot clusters (offset + k))) =
        (List.range (min count (entrySize file.dir - offset))).map fun k => run.array.item (offset + k) := by
      apply List.map_congr_left
      intro k few
      have long := inv.long
      have inside := List.mem_range.mp few
      exact inv.bytes (offset + k) (by omega)
    grind [step]
  · rw [stored k few, boot, entry k few]
    exact setAccessed_sameButAccess file.dir _ _ _ k few low high

theorem harmless_step (valid : Allowed run call ∧ Fits file run call) (harmless : Harmless file run call) :
    ∃ next, step file run call = some next ∧ Inv file clusters listing next := by
  cases call with
  | write now offset bytes => exact write_step inv now valid.1 valid.2
  | read now offset count =>
    obtain ⟨⟨start, small⟩, size, clean⟩ := harmless
    obtain ⟨v, before, after, found, ran, same, placed, boot, kept⟩ := read_step inv now start small
    have room := inv.room
    refine ⟨_, ran, placed, inv.long, boot ▸ inv.room, fun k inside => ?_, ?_⟩
    · rw [boot, kept k (by dsimp only at inside; omega)]
      exact inv.bytes k inside
    · intro reading member
      rcases List.mem_cons.mp member with rfl | earlier
      · have long := inv.long
        have count_eq : min count (entrySize file.dir - offset) = min count (run.array.length - offset) := by
          omega
        refine ⟨?_, fun k few low high => ?_⟩
        · simp_all [owed, Growable.read]
        · exact (same k few low high).trans (clean before found k few low high)
      · exact inv.sound reading earlier

theorem harmful_step (allowed : Allowed run call)
    (harmful : ¬ Harmless file run call) (ran : step file run call = some next) : ¬ Sound next := by
  cases call with
  | write now offset bytes => exact absurd trivial harmful
  | read now offset count =>
    obtain ⟨offsetFits, countFits⟩ := allowed
    have inside : offset ≤ entrySize file.dir ∧ offset + count < 2 ^ 64 := by
      by_contra outside
      have none := inv.placed.fatRead_past now offsetFits countFits (by omega)
      simp_all [step]
    obtain ⟨v, before, after, found, returned, same, -⟩ := read_step inv now inside.1 inside.2
    rw [returned] at ran
    cases ran
    intro sound
    obtain ⟨answered, fields⟩ := sound _ List.mem_cons_self
    refine harmful ⟨inside, ?_, fun entry there k few low high => ?_⟩
    · have long := inv.long
      have number := congrArg Prod.fst answered
      dsimp only [owed] at number
      omega
    · rw [found] at there
      cases there
      exact (same k few low high).symm.trans (fields k few low high)

end

/-- The bytes of a file when it is opened. -/
def content (v : Volume) (file : Handle) (clusters : List Nat) : Growable (BitVec 8) where
  length := entrySize file.dir
  item k := if k < entrySize file.dir then v.disk (chainPlace v.boot clusters k) else 0
  beyond _ past := if_neg (Nat.not_lt.mpr past)

def opened (v : Volume) (file : Handle) (clusters : List Nat) : Run :=
  ⟨v, entrySize file.dir, content v file clusters, []⟩

theorem opened_inv (placed : Placed v file clusters listing) :
    Inv file clusters listing (opened v file clusters) where
  placed := placed
  long := Nat.le_refl _
  room := placed.room
  bytes _ inside := (if_pos inside).symm
  sound := nofun

/-- **A FAT file is a byte array as long as it is read as it was opened.** For
every handle of a regular file on a sound volume and every run of writes that
begin within the array and end within the clusters the file has, and reads: all
calls return, every read with the bytes last written and no field of the entry
changed but the access date, if and only if each read begins within the size at
opening, ends there too unless that is still the size, and finds the entry of
the handle on the disk. -/
theorem fat_array_iff (placed : Placed v file clusters listing) (calls : List Call)
    (valid : Along (step file) (fun run call => Allowed run call ∧ Fits file run call)
      (opened v file clusters) calls) :
    Served (step file) Sound (opened v file clusters) calls ↔
      Along (step file) (Harmless file) (opened v file clusters) calls :=
  served_iff_along (fun _ inv => inv.sound)
    (fun _ _ inv fits harmless => harmless_step inv fits harmless)
    (fun _ _ _ inv fits harmful ran => harmful_step inv fits.1 harmful ran) (opened_inv placed) valid

end

/-- `/A`, four bytes long and in cluster 3. -/
def fourByteFile : Volume := ⟨⟨1, 1, 1, 1, 2⟩, Function.update (FatDelete.oneFileDisk 3) 1052 4⟩

def fourByteHandle : Handle := ⟨fun k => fourByteFile.disk (1024 + k), 0, 3, 2⟩

theorem fourByteHandle_placed : Placed fourByteFile fourByteHandle [3] [2] where
  tables := Nat.le_refl 1
  plain := by decide
  head := by decide
  data := by decide +kernel
  dataOn := by simp [OnTable, fourByteFile]
  room := by decide
  directory := by decide +kernel
  directoryOn := by simp [OnTable, fourByteFile]
  listed := by decide
  apart := by simp

/-- The start of 1980, which is stored as it is in a new entry. -/
def epoch : Datetime := ⟨0, 0, 0, 0, 0, 1980⟩

theorem fourByteHandle_valid (first : offset ≤ 4) (last : offset + bytes.length ≤ 5)
    (small : start < 2 ^ 64) (few : count < 2 ^ 64) :
    Along (step fourByteHandle) (fun run call => Allowed run call ∧ Fits fourByteHandle run call)
      (opened fourByteFile fourByteHandle [3]) [.write epoch offset bytes, .read epoch start count] := by
  have room : 1 * clusterBytes fourByteFile.boot = 512 := rfl
  have length : fatChainClusterLength fourByteFile fourByteHandle.cluster = some 1 := by
    rw [fatChainClusterLength_eq, fourByteHandle_placed.data]
    rfl
  refine ⟨⟨⟨first, by omega⟩, fun clusters counted => ?_⟩,
    fun _ _ => ⟨⟨⟨small, few⟩, trivial⟩, fun _ _ => trivial⟩⟩
  grind [opened]

theorem fourByteHandle_write (some : 0 < bytes.length) (last : offset + bytes.length ≤ 5)
    (ran : step fourByteHandle (opened fourByteFile fourByteHandle [3]) (.write epoch offset bytes) =
      .some next) :
    Placed next.volume fourByteHandle [3] [2] ∧
      next.array = (content fourByteFile fourByteHandle [3]).write offset bytes ∧
      ∀ k < 32, next.volume.disk (chainPlace next.volume.boot [2] k) =
        writtenEntry fourByteHandle epoch (offset + bytes.length) k := by
  have inside : offset + bytes.length ≤ [3].length * clusterBytes fourByteFile.boot :=
    Nat.le_trans last (by decide)
  obtain ⟨v, wrote, placed, boot, -, entry⟩ := fourByteHandle_placed.fatWrite_room epoch 4 some inside
    (by omega) (Nat.le_refl _)
  simp only [step] at ran
  rw [show (opened fourByteFile fourByteHandle [3]).volume = fourByteFile from rfl,
    show (opened fourByteFile fourByteHandle [3]).length = 4 from by decide, wrote] at ran
  cases ran
  refine ⟨placed, rfl, fun k few => ?_⟩
  rw [boot]
  have stored := entry k few
  rwa [show fourByteHandle.index * 32 + k = k from Nat.zero_add k] at stored

theorem two_bytes_read_back : Served (step fourByteHandle) Sound (opened fourByteFile fourByteHandle [3])
    [.write epoch 1 [7, 8], .read epoch 0 9] := by
  refine (fat_array_iff fourByteHandle_placed _ (fourByteHandle_valid (by decide) (by decide) (by decide)
    (by decide))).mpr ⟨trivial, fun next ran => ⟨⟨⟨by decide, by decide⟩, Or.inl ?_, ?_⟩, fun _ _ => trivial⟩⟩
  · obtain ⟨-, array, -⟩ := fourByteHandle_write (by decide) (by decide) ran
    rw [array]
    decide
  · intro entry found k few low high
    obtain ⟨placed, -, stored⟩ := fourByteHandle_write (by decide) (by decide) ran
    obtain ⟨same, found', bytes⟩ := diskEntry_placed placed
    rw [found] at found'
    cases found'
    have index : fourByteHandle.index * 32 + k = k := Nat.zero_add k
    have unchanged : ∀ k < 32, k ≠ 18 → k ≠ 19 →
        fourByteHandle.dir k = writtenEntry fourByteHandle epoch 3 k := by decide +kernel
    rw [bytes k few, index, stored k few]
    exact unchanged k few low high

/-- A fifth byte is written, and reading five bytes returns four. -/
theorem fifth_byte_not_read : Placed fourByteFile fourByteHandle [3] [2] ∧
    Along (step fourByteHandle) (fun run call => Allowed run call ∧ Fits fourByteHandle run call)
      (opened fourByteFile fourByteHandle [3]) [.write epoch 4 [7], .read epoch 0 5] ∧
    ¬ Served (step fourByteHandle) Sound (opened fourByteFile fourByteHandle [3])
      [.write epoch 4 [7], .read epoch 0 5] := by
  have valid : Along (step fourByteHandle) (fun run call => Allowed run call ∧ Fits fourByteHandle run call)
      (opened fourByteFile fourByteHandle [3]) [.write epoch 4 [7], .read epoch 0 5] :=
    fourByteHandle_valid (by decide) (by decide) (by decide) (by decide)
  refine ⟨fourByteHandle_placed, valid, ?_⟩
  rintro ⟨-, next, wrote, -, final, read, sound⟩
  obtain ⟨same, returned, inv⟩ := harmless_step (opened_inv fourByteHandle_placed) valid.1 trivial
  rw [wrote] at returned
  cases returned
  obtain ⟨-, array, -⟩ := fourByteHandle_write (by decide) (by decide) wrote
  have allowed : Allowed next (.read epoch 0 5) := ⟨by decide, by decide⟩
  refine harmful_step inv allowed (fun harmless => ?_) read sound
  have size : entrySize fourByteHandle.dir = 4 := by decide
  have longer : next.array.length = 5 := by
    rw [array]
    decide
  rcases harmless.2.1 with shorter | within <;> omega

end MandelbrotOS.FatArray
