import MandelbrotOS.FatArray

/-! Seeking and reading in a file on a FAT volume, by `syscall_seek` and
`syscall_read`. A seek can go to any offset of a `size_t`. `syscall_read` cuts what
it is asked for at the end of the file, in arithmetic that wraps, and `fat_read`
does the same again. Behind the end of the file, and for a size that wraps, the two
cuts come to a copy of nearly `2 ^ 64` bytes. The block of `fat_read` has the size of
the entry, as `kmalloc` gives it below 4 GiB. -/
namespace MandelbrotOS.FileReads
open Descriptors Fat FatArray FatChains FatFiles FatLookup GrowableArrays ReadBack Runs Vfs

inductive Call where
  | seek (fd : Nat) (offset : BitVec 64) (type : Nat)
  | read (fd : Nat) (size : BitVec 64)

def Call.fd : Call → Nat
  | seek fd .. => fd
  | read fd _ => fd

def Call.run (elsewhere : FileOps (Option Store)) (world : Files) : Call → Files
  | seek fd offset type => (syscallSeek world fd offset.toInt type).2
  | read fd size => (syscallRead (storeOps elsewhere) world fd size.toNat).2

/-- The world after a call, unless something was done that C leaves open. -/
def step (elsewhere : FileOps (Option Store)) (world : Files) (call : Call) : Option Files :=
  if (call.run elsewhere world).fs.isSome then some (call.run elsewhere world) else none

/-- A file that is no device and no pipe, open on a FAT volume: as long as its entry
says, with its clusters in place. -/
structure OnFat (world : Files) (file : FilePtr) (store : Store) (handle : Handle) (clusters listing : List Nat) :
    Prop where
  live : world.fs = some store
  backed : store.backing file = .fat handle
  plain : isDev (world.files file) = false ∧ isFifo (world.files file) = false
  length : (world.files file).length = entrySize handle.dir
  offset : (world.files file).offset < 2 ^ 64
  placed : Placed store.volume handle clusters listing

/-- A read that passes the checks returns the bytes of the file there are and their
number, and goes on by that number. -/
def Delivers (elsewhere : FileOps (Option Store)) (file : FilePtr) (array : Growable (BitVec 8)) (world : Files) :
    Call → Prop
  | .seek .. => True
  | .read fd size => ∀ sfile, world.fds fd = some sfile → readAccepts sfile.flags = true →
    let count := min size.toNat (array.length - (world.files file).offset)
    let answer := syscallRead (storeOps elsewhere) world fd size.toNat
    answer.2.fs ≠ none ∧
      answer.1 = ((count : Int), (array.read (world.files file).offset size.toNat).map UInt8.ofBitVec) ∧
      (answer.2.files file).offset = (world.files file).offset + count

/-- A read that passes the checks and asks for something begins within the file or at
its end, and its end is no larger than a `size_t` can be. -/
def Within (file : FilePtr) (world : Files) : Call → Prop
  | .seek .. => True
  | .read fd size => ∀ sfile, world.fds fd = some sfile → readAccepts sfile.flags = true → size ≠ 0 →
    (world.files file).offset ≤ (world.files file).length ∧ (world.files file).offset + size.toNat < 2 ^ 64

instance (file : FilePtr) (world : Files) : (call : Call) → Decidable (Within file world call)
  | .seek .. => inferInstanceAs (Decidable True)
  | .read fd size =>
    match slot : world.fds fd with
    | none => isTrue fun _ found => absurd (slot.symm.trans found) (Option.some_ne_none _).symm
    | some sfile => decidable_of_iff (readAccepts sfile.flags = true → size ≠ 0 →
        (world.files file).offset ≤ (world.files file).length ∧
          (world.files file).offset + size.toNat < 2 ^ 64) (by simp [Within, slot])

/-! ### One call -/

/-- The file is as it was found, apart from its offset. -/
structure Inv (file : FilePtr) (handle : Handle) (clusters listing : List Nat) (array : Growable (BitVec 8))
    (fds : Nat → Option SyscallFile) (world : Files) : Prop where
  fds : world.fds = fds
  size : array.length = entrySize handle.dir
  opened : ∃ store, OnFat world file store handle clusters listing ∧
    ∀ k < array.length, store.volume.disk (chainPlace store.volume.boot clusters k) = array.item k

section
variable {elsewhere : FileOps (Option Store)} {world : Files} {file : FilePtr} {store : Store} {handle : Handle}
  {clusters listing : List Nat} {array : Growable (BitVec 8)} {fds : Nat → Option SyscallFile}

theorem OnFat.afterwards (opened : OnFat world file store handle clusters listing)
    (placed : Placed volume handle clusters listing) (small : place < 2 ^ 64) :
    OnFat (afterwards world file { store with volume } place) file { store with volume } handle clusters
      listing where
  live := rfl
  backed := opened.backed
  plain := by
    simp only [ReadBack.afterwards, World.setOffset, Function.update_self]
    exact opened.plain
  length := by
    simp only [ReadBack.afterwards, World.setOffset, Function.update_self]
    exact opened.length
  offset := by
    simp_all [ReadBack.afterwards, World.setOffset]
  placed := placed

theorem OnFat.seek (opened : OnFat world file store handle clusters listing)
    (own : ∀ sfile, world.fds fd = some sfile → sfile.file = file) (offset : Int) (type : Nat) :
    ∃ place < 2 ^ 64, (syscallSeek world fd offset type).2 = ReadBack.afterwards world file store place := by
  have here : ReadBack.afterwards world file store (world.files file).offset = world := by
    rw [afterwards_offset, ← opened.live]
  have stays : ∃ place < 2 ^ 64, world = ReadBack.afterwards world file store place :=
    ⟨_, opened.offset, here.symm⟩
  have moves (place : Int) : ∃ place' < 2 ^ 64, world.setOffset file (place % 2 ^ 64).toNat =
      ReadBack.afterwards world file store place' := by
    refine ⟨(place % 2 ^ 64).toNat, by omega, ?_⟩
    simp only [ReadBack.afterwards, ← opened.live]
  cases slot : world.fds fd with
  | none =>
    simp only [syscallSeek, slot]
    exact stays
  | some sfile =>
    obtain rfl := own sfile slot
    simp only [syscallSeek, slot, opened.plain, Bool.false_eq_true, if_false]
    split_ifs
    · exact moves _
    · exact stays
    · exact moves _
    · exact stays
    · exact moves _
    · exact stays

theorem syscallRead_eq (slot : world.fds fd = some ⟨file, flags⟩) (accepted : readAccepts flags = true) (asked : size ≠ 0) :
    syscallRead (storeOps elsewhere) world fd size =
      let count := clippedSize (world.files file) size
      let reply := vfsRead elsewhere world file (world.files file).offset count
      (reply.1, reply.2.setOffset file (((reply.2.files file).offset + count) % 2 ^ 64)) := by
  simp only [syscallRead, slot, accepted, Bool.not_true, Bool.false_eq_true, if_false, asked]
  rfl

theorem OnFat.vfsRead_eq (opened : OnFat world file store handle clusters listing) (offset count : Nat) :
    vfsRead elsewhere world file offset count =
      (fatRead store.volume store.now handle offset count).elim ((0, []), world.crash) fun read =>
        ((ssize read.1.1, read.1.2.map UInt8.ofBitVec), { world with fs := some { store with volume := read.2 } }) := by
  simp only [vfsRead, opened.live, opened.plain, Bool.or_self, Bool.false_eq_true, if_false, opened.backed]
  grind

theorem clippedSize_min (plain : isDev fields = false ∧ isFifo fields = false) (start : fields.offset ≤ fields.length)
    (small : fields.offset + size < 2 ^ 64) (short : fields.length < 2 ^ 64) :
    clippedSize fields size = min size (fields.length - fields.offset) := by
  have total : (size + fields.offset) % 2 ^ 64 = size + fields.offset := Nat.mod_eq_of_lt (by omega)
  simp only [clippedSize, total, plain, Bool.not_false, and_self, and_true]
  split <;> omega

theorem clippedSize_past (plain : isDev fields = false ∧ isFifo fields = false) (place : fields.offset < 2 ^ 64)
    (few : size < 2 ^ 64) (short : fields.length < 2 ^ 64)
    (past : fields.length < fields.offset ∨ 2 ^ 64 ≤ fields.offset + size) :
    clippedSize fields size < 2 ^ 64 ∧
      (fields.length < fields.offset ∨ 2 ^ 64 ≤ fields.offset + clippedSize fields size) := by
  simp only [clippedSize, plain, Bool.not_false, and_self, and_true]
  split <;> omega

theorem OnFat.read_within (elsewhere : FileOps (Option Store)) (opened : OnFat world file store handle clusters listing)
    (slot : world.fds fd = some ⟨file, flags⟩) (accepted : readAccepts flags = true) (asked : size ≠ 0)
    (start : (world.files file).offset ≤ (world.files file).length)
    (small : (world.files file).offset + size < 2 ^ 64) :
    ∃ volume, syscallRead (storeOps elsewhere) world fd size =
        ((((min size ((world.files file).length - (world.files file).offset) : Nat) : Int),
            ((List.range (min size ((world.files file).length - (world.files file).offset))).map fun k =>
              store.volume.disk (chainPlace store.volume.boot clusters
                ((world.files file).offset + k))).map UInt8.ofBitVec),
          ReadBack.afterwards world file { store with volume }
            ((world.files file).offset + min size ((world.files file).length - (world.files file).offset))) ∧
      Placed volume handle clusters listing ∧
      ∀ k < entrySize handle.dir, volume.disk (chainPlace volume.boot clusters k) =
        store.volume.disk (chainPlace store.volume.boot clusters k) := by
  have short := entrySize_lt handle.dir
  have length := opened.length
  have room := opened.placed.room
  generalize cut : min size ((world.files file).length - (world.files file).offset) = count
  obtain ⟨volume, read, placed, boot, kept, -⟩ := opened.placed.fatRead_clipped store.now
    (show (world.files file).offset ≤ entrySize handle.dir by omega)
    (show (world.files file).offset + count < 2 ^ 64 by omega)
  rw [Nat.min_eq_left (by omega)] at read
  refine ⟨volume, ?_, placed, fun k inside => ?_⟩
  · have total : ((world.files file).offset + count) % 2 ^ 64 = (world.files file).offset + count :=
      Nat.mod_eq_of_lt (by omega)
    rw [syscallRead_eq slot accepted asked, clippedSize_min opened.plain start small (by omega), cut]
    simp only [opened.vfsRead_eq, read, Option.elim_some, total, ssize_small (show count < 2 ^ 63 by omega),
      ReadBack.afterwards]
  · rw [boot]
    exact kept k (by omega)

theorem OnFat.read_past (opened : OnFat world file store handle clusters listing)
    (slot : world.fds fd = some ⟨file, flags⟩) (accepted : readAccepts flags = true) (asked : size ≠ 0)
    (few : size < 2 ^ 64)
    (past : (world.files file).length < (world.files file).offset ∨ 2 ^ 64 ≤ (world.files file).offset + size) :
    (syscallRead (storeOps elsewhere) world fd size).2.fs = none := by
  have short := entrySize_lt handle.dir
  have length := opened.length
  obtain ⟨countFits, past⟩ := clippedSize_past opened.plain opened.offset few (by omega) past
  rw [length] at past
  rw [syscallRead_eq slot accepted asked]
  simp only [opened.vfsRead_eq, opened.placed.fatRead_past store.now opened.offset countFits past, Option.elim_none]
  rfl

theorem Inv.delivers_iff (inv : Inv file handle clusters listing array fds world) (call : Call)
    (own : ∀ sfile, fds call.fd = some sfile → sfile.file = file) :
    Delivers elsewhere file array world call ↔ Within file world call := by
  cases call with
  | seek fd offset type => exact Iff.rfl
  | read fd size =>
    obtain ⟨store, opened, bytes⟩ := inv.opened
    have length := opened.length
    have few := size.isLt
    refine forall_congr' fun sfile => forall_congr' fun slot => forall_congr' fun accepted => ?_
    obtain rfl := own sfile (inv.fds ▸ slot)
    by_cases empty : size = 0
    · refine iff_of_true ?_ fun asked => absurd empty asked
      subst empty
      have none : syscallRead (storeOps elsewhere) world fd (0#64).toNat = ((0, []), world) := by
        simp_all [syscallRead]
      dsimp only
      rw [show (0 : BitVec 64) = 0#64 from rfl, none]
      simp only [BitVec.toNat_zero, Nat.zero_min, Growable.read, List.range_zero, List.map_nil, opened.live]
      exact ⟨Option.some_ne_none _, rfl, rfl⟩
    · have asked : size.toNat ≠ 0 := fun zero => empty (BitVec.eq_of_toNat_eq zero)
      constructor
      · intro delivered _
        by_contra outside
        exact delivered.1 (opened.read_past slot accepted asked few (by omega))
      · intro within
        obtain ⟨start, small⟩ := within empty
        obtain ⟨volume, ran, -⟩ := opened.read_within elsewhere slot accepted asked start small
        have same := array.read_eq (fun k => store.volume.disk (chainPlace store.volume.boot clusters k))
          (world.files sfile.file).offset size.toNat fun k inside => bytes _ (by omega)
        dsimp only
        rw [ran, ← same, inv.size, ← length]
        refine ⟨Option.some_ne_none _, rfl, ?_⟩
        simp [ReadBack.afterwards, World.setOffset]

theorem Inv.step (inv : Inv file handle clusters listing array fds world) {call : Call}
    (own : ∀ sfile, fds call.fd = some sfile → sfile.file = file) (within : Within file world call)
    (ran : FileReads.step elsewhere world call = some next) :
    Inv file handle clusters listing array fds next := by
  obtain ⟨store, opened, bytes⟩ := inv.opened
  have length := opened.length
  have short := entrySize_lt handle.dir
  have own' : ∀ sfile, world.fds call.fd = some sfile → sfile.file = file := inv.fds ▸ own
  have moved {volume : Volume} {place : Nat} (small : place < 2 ^ 64) (placed : Placed volume handle clusters listing)
      (kept : ∀ k < entrySize handle.dir, volume.disk (chainPlace volume.boot clusters k) =
        store.volume.disk (chainPlace store.volume.boot clusters k)) :
      Inv file handle clusters listing array fds
        (ReadBack.afterwards world file { store with volume } place) :=
    ⟨inv.fds, inv.size, _, opened.afterwards placed small, fun k inside =>
      (kept k (inv.size ▸ inside)).trans (bytes k inside)⟩
  obtain ⟨-, returned⟩ := Option.ite_none_right_eq_some.mp ran
  obtain rfl := Option.some.inj returned
  cases call with
  | seek fd offset type =>
    obtain ⟨place, small, sought⟩ := opened.seek own' offset.toInt type
    rw [Call.run, show (syscallSeek world fd offset.toInt type).2 = _ from sought]
    exact moved small opened.placed fun _ _ => rfl
  | read fd size =>
    rw [Call.run]
    cases slot : world.fds fd with
    | none =>
      simp only [syscallRead, slot]
      exact inv
    | some sfile =>
      obtain rfl := own' sfile slot
      by_cases accepted : readAccepts sfile.flags = true
      · by_cases asked : size.toNat = 0
        · simp_all [syscallRead]
        · obtain ⟨start, small⟩ := within sfile slot accepted fun zero => asked (congrArg BitVec.toNat zero)
          obtain ⟨volume, read, placed, kept⟩ :=
            opened.read_within elsewhere slot accepted asked start small
          grind
      · simp_all [syscallRead]

/-- **Reads stay inside a file exactly when they begin there.** For every file on a
FAT volume that is no device and no pipe, and every sequence of seeks and reads
through its descriptors: each read that passes the checks returns the bytes there
are from the offset on, as many as asked for at most, with their number, and goes on
by that number, if and only if each one that asks for something begins within the
file or at its end and does not ask for more than a `size_t` can count from there. -/
theorem reads_inside_iff (opened : OnFat world file store handle clusters listing) (calls : List Call)
    (own : ∀ call ∈ calls, ∀ sfile, world.fds call.fd = some sfile → sfile.file = file) :
    Along (step elsewhere) (Delivers elsewhere file (content store.volume handle clusters)) world calls ↔
      Along (step elsewhere) (Within file) world calls := by
  have inv : Inv file handle clusters listing (content store.volume handle clusters) world.fds world :=
    ⟨rfl, rfl, store, opened, fun k inside => (if_pos inside).symm⟩
  refine along_iff_along_of_valid ?_ ?_ own inv
  · exact fun _ call inv own => inv.delivers_iff call own
  · exact fun _ _ _ inv own within ran => inv.step own within ran

end

def twoReads : List Call := [.seek 3 1 seekSet, .read 3 2, .read 3 10]

theorem fourBytes_onFat : ∃ store, store.volume = FatDelete.oneFile 3 ∧
    OnFat (oneOpen (.fat fourBytes) 4 0) 0 store fourBytes [3] [2] :=
  ⟨_, rfl, rfl, rfl, ⟨by decide, by decide⟩, by decide, by decide, fourBytes_placed⟩

/-- Two bytes from the second on, and then as many as there are. -/
theorem two_reads_deliver : Along (step nothingElse)
    (Delivers nothingElse 0 (content (FatDelete.oneFile 3) fourBytes [3]))
    (oneOpen (.fat fourBytes) 4 0) twoReads := by
  obtain ⟨store, same, opened⟩ := fourBytes_onFat
  have own : ∀ call ∈ twoReads, ∀ sfile, (oneOpen (.fat fourBytes) 4 0).fds call.fd = some sfile →
      sfile.file = 0 := by
    intro call _ sfile slot
    obtain ⟨-, found⟩ := Option.ite_none_right_eq_some.mp slot
    exact (congrArg SyscallFile.file (Option.some.inj found)).symm
  rw [← same]
  exact (reads_inside_iff opened twoReads own).mpr (by decide +kernel)

/-- A file of four bytes, at some offset. -/
def soughtTo (place : Int) : Files := (syscallSeek (oneOpen (.fat fourBytes) 4 0) 3 place seekSet).2

/-- Behind the end of the file, and for as much as a `size_t` can be from the second
byte on, `fat_read` is asked for `2 ^ 64 - 1` bytes. -/
theorem read_behind_end_overruns :
    (∃ store, store.volume = FatDelete.oneFile 3 ∧
      OnFat (oneOpen (.fat fourBytes) 4 0) 0 store fourBytes [3] [2]) ∧
    (clippedSize ((soughtTo 5).files 0) 1 = 2 ^ 64 - 1 ∧
      (syscallRead (storeOps nothingElse) (soughtTo 5) 3 1).2.fs = none) ∧
    (clippedSize ((soughtTo 1).files 0) (2 ^ 64 - 1) = 2 ^ 64 - 1 ∧
      (syscallRead (storeOps nothingElse) (soughtTo 1) 3 (2 ^ 64 - 1)).2.fs = none) ∧
    ∀ array, ¬ Along (step nothingElse) (Delivers nothingElse 0 array) (oneOpen (.fat fourBytes) 4 0)
      [.seek 3 5 seekSet, .read 3 1] := by
  have dead : (syscallRead (storeOps nothingElse) (soughtTo 5) 3 1).2.fs = none :=
    Option.isNone_iff_eq_none.mp (by decide +kernel)
  refine ⟨fourBytes_onFat, ⟨by decide +kernel, dead⟩,
    ⟨by decide +kernel, Option.isNone_iff_eq_none.mp (by decide +kernel)⟩, fun array delivers => ?_⟩
  have moved : step nothingElse (oneOpen (.fat fourBytes) 4 0) (.seek 3 5 seekSet) = some (soughtTo 5) := rfl
  exact ((delivers.2 _ moved).1 ⟨0, oRdwr⟩ rfl rfl).1 dead

end MandelbrotOS.FileReads
