import MandelbrotOS.FatHoles

/-! The entries of directories on a FAT volume. `fat_set_dir_entry` of `fs/fat32.c`
stores one in its place, and lets an index just behind the last place through. The
times in an entry are written by `fat_create`, `fat_mkdir` and `fat_write`, each in
its own way, and read by `fat_open`: `fat_mkdir` has another idea of the odd second
and `fat_write` of the year. -/
namespace MandelbrotOS.FatEntries
open ByteMemory Fat FatChains FatCreate FatCreateProofs FatFiles FatHoles FatLookup FatSlots FatTable Runs

/-! ### One entry of a directory -/

/-- The place of its buffer that `fat_set_dir_entry` stores to, if it comes to
that, and the number of entries the buffer has room for. -/
def entryStore (v : Volume) (directory index : Nat) : Option (Option Nat × Nat) := do
  let (_, size) ← readDirectory v (orRoot v.boot directory)
  some (if index > size then none else some index, size)

/-- The entry is stored in its place of the directory and nowhere else; for an
index that is none nothing changes, and the buffer is not left. -/
structure EntrySet (v : Volume) (directory : Nat) (clusters : List Nat) (index : Nat) (entry : DirEntry) :
    Prop where
  inside : index < slotCount v.boot clusters → ∃ v', fatSetDirEntry v directory index entry = some v' ∧
    v'.boot = v.boot ∧ (∀ k < 32, slot v' clusters index k = entry k) ∧
    ∀ adr, (∀ k < 32, adr ≠ chainPlace v.boot clusters (index * 32) + k) → v'.disk adr = v.disk adr
  behind : slotCount v.boot clusters ≤ index → fatSetDirEntry v directory index entry = some v
  bounded : ∀ place size, entryStore v directory index = some (some place, size) → place < size

/-- **An entry is set as it should be exactly when its index is not the number of
entries.** The new bytes must not be those of a link of the directory, which they
never are where the chain is in the table. -/
theorem entry_set_iff (ran : chain v (orRoot v.boot directory) = some clusters)
    (kept : index < slotCount v.boot clusters → ∀ x ∈ clusters,
      fatGetNextCluster v.boot (stored v clusters index entry).disk x = fatGetNextCluster v.boot v.disk x) :
    EntrySet v directory clusters index entry ↔ index ≠ slotCount v.boot clusters := by
  have store : entryStore v directory index = some (if index > slotCount v.boot clusters then none
      else some index, slotCount v.boot clusters) := by
    rw [entryStore, readDirectory_eq, ran]
    rfl
  constructor
  · rintro set rfl
    rw [if_neg (Nat.lt_irrefl _)] at store
    exact Nat.lt_irrefl _ (set.bounded _ _ store)
  · intro other
    refine ⟨fun few => ?_, fun behind => ?_, fun place size noted => ?_⟩
    · refine ⟨stored v clusters index entry,
        fatSetDirEntry_links ran ((slotCount_spec _ _).mp few) entry (kept few), rfl, fun k part => ?_,
        fun adr elsewhere => copy_apart ?_⟩
      · rw [slot, stored]
        dsimp only
        rw [copy, if_pos (by omega), Nat.add_sub_cancel_left]
      · by_contra covered
        refine elsewhere (adr - chainPlace v.boot clusters (index * 32)) (by omega) ?_
        omega
    · have beyond : index > clusters.length * v.boot.clusterSize * 512 / 32 :=
        show index > slotCount v.boot clusters by omega
      simp only [fatSetDirEntry, readDirectory_eq, ran, Option.map_some, Option.bind_eq_bind,
        Option.bind_some, beyond, if_true]
    · rw [store] at noted
      split at noted
      · cases noted
      · cases noted
        omega

theorem links_kept (tables : 1 ≤ v.boot.tableCount) (ran : chain v head = some clusters)
    (inside : OnTable v.boot clusters) (few : index < slotCount v.boot clusters) :
    ∀ x ∈ clusters, fatGetNextCluster v.boot (stored v clusters index entry).disk x =
      fatGetNextCluster v.boot v.disk x := by
  intro x member
  have small := inChain_iff.mp (Walks.walk_live ran x member)
  refine link_kept tables rfl (fun adr before => ?_) (inside x member) (by omega)
  refine stored_outside few fun y listed => Or.inl (before y (Walks.walk_live ran y listed))

theorem sixteenth_entry_set : EntrySet twoLinked 3 [3] 15 fun _ => 0x41 := by
  have ran : chain twoLinked (orRoot twoLinked.boot 3) = some [3] := by decide +kernel
  have kept := @links_kept twoLinked 3 [3] 15 (fun _ => 0x41) (by decide) ran (by decide) (by decide)
  exact (entry_set_iff ran fun _ => kept).mpr (by decide)

/-- A cluster of one sector has sixteen entries; one is stored at the index 16. -/
theorem seventeenth_entry_stored : slotCount twoLinked.boot [3] = 16 ∧
    entryStore twoLinked 3 16 = some (some 16, 16) ∧ ¬ EntrySet twoLinked 3 [3] 16 fun _ => 0x41 := by
  have noted : (entryStore twoLinked 3 16) = some (some 16, 16) := by decide +kernel
  refine ⟨by decide, noted, fun set => ?_⟩
  exact Nat.lt_irrefl 16 (set.bounded _ _ noted)

/-! ### The clock -/

structure PosixTime where
  seconds : Nat
  nanoseconds : Nat
  deriving DecidableEq

/-- `get_julian_day` of `drivers/rtc.c`, in `int`. -/
def getJulianDay (days months years : Nat) : Int :=
  (1461 * ((years : Int) + 4800 + Int.tdiv (months - 14) 12)).tdiv 4 +
    (367 * ((months : Int) - 2 - 12 * Int.tdiv (months - 14) 12)).tdiv 12 -
    (3 * ((years : Int) + 4900 + Int.tdiv (months - 14) 12).tdiv 100).tdiv 4 + days - 32075

/-- `rtc_mktime`, in `uint64_t`. -/
def rtcMktime (dt : Datetime) : PosixTime where
  seconds := (((getJulianDay dt.day dt.month dt.year - getJulianDay 1 1 1970) * (60 * 60 * 24) +
    dt.hours * 3600 + dt.minutes * 60 + dt.seconds) % 2 ^ 64).toNat
  nanoseconds := 0

/-- A date-time between 1980 and 2107 as `rtc_get_datetime` reports it, with the
year counted from 1900. -/
structure Datable (now : Datetime) : Prop where
  seconds : now.seconds < 60
  minutes : now.minutes < 60
  hours : now.hours < 24
  day : 1 ≤ now.day ∧ now.day ≤ 31
  month : 1 ≤ now.month ∧ now.month ≤ 12
  year : 80 ≤ now.year ∧ now.year ≤ 207

/-- With the full year. -/
def fullYear (now : Datetime) : Datetime := { now with year := now.year + 1900 }

/-- Rounded down to an even second. -/
def evenSecond (now : Datetime) : Datetime := { now with seconds := now.seconds / 2 * 2 }

/-- The months from March on belong to their year, the others to the one before. -/
def marchShift (months : Nat) : Int := if months ≤ 2 then -1 else 0

theorem getJulianDay_eq (month : 1 ≤ months ∧ months ≤ 12) (days years : Nat) :
    getJulianDay days months years =
      1461 * (years + 4800 + marchShift months) / 4 + 367 * (months - 2 - 12 * marchShift months) / 12 -
        3 * ((years + 4900 + marchShift months) / 100) / 4 + days - 32075 := by
  have shifts : ∀ months : Nat, months < 13 → 1 ≤ months → Int.tdiv ((months : Int) - 14) 12 = marchShift months := by decide
  have which : marchShift months = -1 ∧ months ≤ 2 ∨ marchShift months = 0 ∧ 2 < months := by
    unfold marchShift
    split <;> omega
  rw [getJulianDay, shifts months (by omega) month.1]
  generalize marchShift months = shift at which
  have century : Int.tdiv ((years : Int) + 4900 + shift) 100 = ((years : Int) + 4900 + shift) / 100 := by
    apply Int.tdiv_eq_ediv_of_nonneg
    omega
  grind

theorem rtcMktime_seconds_iff {now : Datetime} (small : now.seconds < 2 ^ 64) (small' : seconds < 2 ^ 64) :
    rtcMktime { now with seconds := seconds } = rtcMktime now ↔ seconds = now.seconds := by
  constructor
  · intro same
    have sum := congrArg PosixTime.seconds same
    simp only [rtcMktime] at sum
    omega
  · rintro rfl
    rfl

theorem getJulianDay_years (month : 1 ≤ months ∧ months ≤ 12) (days years : Nat) :
    (7300 ≤ getJulianDay days months (years + 20) - getJulianDay days months years ∧
      getJulianDay days months (years + 20) - getJulianDay days months years ≤ 7310) ∧
    39440 ≤ getJulianDay days months (years + 108) - getJulianDay days months years ∧
      getJulianDay days months (years + 108) - getJulianDay days months years ≤ 39450 := by
  grind [getJulianDay_eq]

theorem rtcMktime_year_ne {one other : Datetime} (month : 1 ≤ one.month ∧ one.month ≤ 12)
    (same : other = { one with year := other.year })
    (year : other.year = one.year + 20 ∨ other.year + 108 = one.year) : rtcMktime other ≠ rtcMktime one := by
  have twenty := getJulianDay_years month one.day one.year
  have century := getJulianDay_years month one.day other.year
  intro equal
  grind [rtcMktime]

/-! ### The times of an entry -/

/-- Two bytes of an entry, whose bit fields are counted from the low end. -/
def halfAt (entry : DirEntry) (place : Nat) : Nat := (entry (place + 1) ++ entry place).toNat

/-- The `datetime_t` that `fat_open` makes of a date and a time, with what it adds
to the even second. -/
def datetimeAt (entry : DirEntry) (date time odd : Nat) : Datetime where
  seconds := halfAt entry time % 32 * 2 + odd
  minutes := halfAt entry time / 32 % 64
  hours := halfAt entry time / 2048 % 32
  day := halfAt entry date % 32
  month := halfAt entry date / 32 % 16
  year := halfAt entry date / 512 % 128 + 1980

/-- The times of an `fs_file_t`. -/
structure FileTimes where
  lastAccessTime : PosixTime
  lastModificationTime : PosixTime
  lastStatusChangeTime : PosixTime
  creationTime : PosixTime

/-- The times `fat_open` gives a file for its entry. -/
def fileTimes (dir : DirEntry) : FileTimes where
  lastAccessTime := rtcMktime { datetimeAt dir 18 18 0 with seconds := 0, minutes := 0, hours := 0 }
  lastModificationTime := rtcMktime (datetimeAt dir 24 22 0)
  lastStatusChangeTime := rtcMktime (datetimeAt dir 24 22 0)
  creationTime := rtcMktime (datetimeAt dir 16 14 ((dir 13).toNat % 2))

/-- `fat_open` with the times of the file. -/
def fatOpenFile (v : Volume) (path : Path) : Option (Option (Handle × FileTimes)) :=
  (fatOpen v path).map (Option.map fun handle => (handle, fileTimes handle.dir))

theorem halfAt_congr (same : ∀ k < 32, entry k = other k) (inside : place + 1 < 32) :
    halfAt entry place = halfAt other place := by
  grind [halfAt]

theorem halfAt_setField (entry : DirEntry) (place value : Nat) :
    halfAt (setField entry place 2 value) place = value % 65536 := by
  rw [halfAt, setField, copy, copy, if_pos (by omega), if_pos (by omega), FatAlloc.toNat_append_byte,
    Nat.sub_self, Nat.add_sub_cancel_left, BitVec.toNat_ofNat, BitVec.toNat_ofNat]
  omega

theorem halfAt_apart (entry : DirEntry) (value : Nat) (apart : place + 1 < start ∨ start + count ≤ place) :
    halfAt (setField entry start count value) place = halfAt entry place := by
  grind [halfAt, setField_other]

theorem datetimeAt_bits (date' : halfAt entry date = dateBits day month year % 65536)
    (time' : halfAt entry time = timeBits seconds minutes hours % 65536) (odd : Nat) :
    datetimeAt entry date time odd = ⟨seconds % 32 * 2 + odd, minutes % 64, hours % 32, day % 32, month % 16,
      (year + 2 ^ 16 - 1980) % 128 + 1980⟩ := by
  rw [datetimeAt, date', time', dateBits, timeBits, Datetime.mk.injEq]
  omega

/-! ### What the clock becomes -/

/-- The calls that put the time in an entry. -/
inductive Stamping where
  | made (call : Call) (path stale : Path)
  | written (file : Handle) (length : Nat) (buf : List (BitVec 8)) (offset count : Nat)

def Stamping.run (v : Volume) (now : Datetime) : Stamping → Option Volume
  | made call path stale => (call.run v now path stale).map Prod.snd
  | written file length buf offset count => (fatWrite v now file length buf offset count).map (·.2.2)

/-- The entry with the time that the call stores; none when it stores none. -/
def Stamping.entry (v : Volume) (now : Datetime) : Stamping → Option DirEntry
  | made call path stale => do
    let lookup ← fatFind v path
    if lookup.ret ≠ notFound then none
    else
      let slash ← (← strrchr path 0x2f (2 ^ 64) 0 none)
      let long ← isLongFilename path (2 ^ 64) (slash + 1) 0
      let (_, shortPath, w) ← call.prepared long v path stale lookup.parentClusterDir (slash + 1)
      some (call.entry now (FatAlloc.fatFindFreeClusterChain w 1).1 shortPath)
  | written file _ _ offset count =>
    if count = 0 ∨ file.dir.directory then none else some (writtenEntry file now ((offset + count) % 2 ^ 64))

theorem Stamping.entry_made (stamped : (made call path stale).entry v now = some dir) :
    ∃ cluster name, dir = call.entry now cluster name := by
  grind [Stamping.entry, bind_returns]

/-- What is done once the entry is stored: a new directory gets its two. -/
def Stamping.Leads (dir : DirEntry) (after v' : Volume) : Stamping → Prop
  | made call _ _ => ∃ long fresh, call.rest long fresh dir after = some v'
  | written .. => after = v'

theorem Stamping.stored {stamping : Stamping} (ran : stamping.run v now = some v')
    (stamped : stamping.entry v now = some dir) :
    ∃ before directory index after, fatSetDirEntry before directory index dir = some after ∧
      stamping.Leads dir after v' := by
  cases stamping with
  | made call path stale =>
    obtain ⟨⟨file, w⟩, called, rfl⟩ := Option.map_eq_some_iff.mp ran
    rw [call.run_eq, findOrMake] at called
    simp only [Stamping.entry, bind_returns] at stamped
    obtain ⟨lookup, found, stamped⟩ := stamped
    split at stamped
    · cases stamped
    · rename_i absent
      simp only [bind_returns, Prod.exists] at stamped
      obtain ⟨last, sought, slash, rfl, long, measured, index, shortPath, u, prepared, same⟩ := stamped
      cases same
      simp only [found, sought, absent, bind_returned, if_false, bind_returns] at called
      obtain ⟨made, ran, _, _, same⟩ := called
      cases same
      rw [call.named_eq, measured, bind_returned, prepared, bind_returned] at ran
      obtain ⟨after, set, rest⟩ := bind_returns.mp ran
      exact ⟨_, _, _, after, set, _, _, rest⟩
  | written file length buf offset count =>
    obtain ⟨⟨_, _, w⟩, called, rfl⟩ := Option.map_eq_some_iff.mp ran
    have stamps := setAccessed_fields file.dir now.day now.month now.year
    have marks := setModified_fields (setAccessed file.dir now.day now.month now.year) now
    rw [Stamping.entry] at stamped
    split at stamped
    · cases stamped
    · rename_i writes
      cases stamped
      rw [not_or] at writes
      simp only [fatWrite, writes.1, if_false, stamps.directory, writes.2, marks.size, stamps.size,
        Bool.false_eq_true, bind_returns] at called
      obtain ⟨_, _, _, _, _, _, called⟩ := called
      split at called
      · simp only [bind_returns] at called
        obtain ⟨_, _, after, set, same⟩ := called
        cases same
        exact ⟨_, _, _, _, set, rfl⟩
      · cases called

/-- What `fat_open` should report: the time of a new file to the second, and the
time of the last change to the even second. -/
structure Stamping.Reported (stamping : Stamping) (now : Datetime) (times : FileTimes) : Prop where
  created : ∀ call path stale, stamping = made call path stale → times.creationTime = rtcMktime (fullYear now)
  modified : times.lastModificationTime = rtcMktime (evenSecond (fullYear now))

/-- Where that is so. -/
def Stamping.Faithful (now : Datetime) : Stamping → Prop
  | made .create _ _ => True
  | made .mkdir _ _ => now.seconds % 2 = 0
  | written .. => False

section
variable {now : Datetime}

theorem newEntry_halves (now : Datetime) (ticks : Nat) (flags : BitVec 8) (cluster : Nat) (name : Memory) :
    let year := (now.year + 1900) % 2 ^ 16
    let entry := newEntry now ticks flags cluster name
    (halfAt entry 24 = dateBits now.day now.month year % 65536 ∧
      halfAt entry 22 = timeBits (now.seconds / 2) now.minutes now.hours % 65536) ∧
    (halfAt entry 16 = dateBits now.day now.month year % 65536 ∧
      halfAt entry 14 = timeBits (now.seconds / 2) now.minutes now.hours % 65536) ∧
    (entry 13).toNat = ticks % 256 := by
  have named (entry : DirEntry) {place : Nat} (behind : 12 ≤ place) :
      halfAt (copy (Function.update entry 11 flags) 0 11 name) place = halfAt entry place := by
    grind [halfAt, copy_apart]
  dsimp only [newEntry, setModified]
  refine ⟨⟨?_, ?_⟩, ⟨?_, ?_⟩, ?_⟩
  · rw [named _ (by omega), halfAt_setField]
  · simp_all [halfAt_apart, halfAt_setField]
  · simp_all [halfAt_apart, halfAt_setField]
  · simp_all [halfAt_apart, halfAt_setField]
  · simp [setField, copy]

theorem full_year (datable : Datable now) :
    ((now.year + 1900) % 2 ^ 16 + 2 ^ 16 - 1980) % 128 + 1980 = now.year + 1900 := by
  have year := datable.year
  omega

theorem fileTimes_newEntry (datable : Datable now) (ticks : Nat) (flags : BitVec 8) (cluster : Nat) (name : Memory) :
    (fileTimes (newEntry now ticks flags cluster name)).creationTime =
      rtcMktime { fullYear now with seconds := now.seconds / 2 * 2 + ticks % 256 % 2 } ∧
    (fileTimes (newEntry now ticks flags cluster name)).lastModificationTime =
      rtcMktime (evenSecond (fullYear now)) := by
  obtain ⟨⟨date, time⟩, ⟨date', time'⟩, odd⟩ := newEntry_halves now ticks flags cluster name
  have year := full_year datable
  obtain ⟨seconds, minutes, hours, day, month, -⟩ := datable
  simp only [fileTimes, datetimeAt_bits date time, datetimeAt_bits date' time', odd, year]
  constructor <;> congr 1 <;> simp only [fullYear, evenSecond, Datetime.mk.injEq, and_true] <;> omega

theorem fileTimes_writtenEntry (datable : Datable now) (file : Handle) (total : Nat) :
    (fileTimes (writtenEntry file now total)).lastModificationTime ≠ rtcMktime (evenSecond (fullYear now)) := by
  have halves : halfAt (writtenEntry file now total) 24 = dateBits now.day now.month now.year % 65536 ∧
      halfAt (writtenEntry file now total) 22 = timeBits (now.seconds / 2) now.minutes now.hours % 65536 := by
    rw [writtenEntry, setModified]
    grind [halfAt_apart, halfAt_setField]
  obtain ⟨seconds, minutes, hours, day, month, year⟩ := datable
  simp only [fileTimes, datetimeAt_bits halves.1 halves.2]
  refine rtcMktime_year_ne month ?_ ?_
  · simp only [evenSecond, fullYear, Datetime.mk.injEq, and_true]
    omega
  · dsimp only [evenSecond, fullYear]
    omega

theorem made_reported_iff (datable : Datable now) (call : Call) (path stale : Path) (ticks : Nat) (flags : BitVec 8)
    (cluster : Nat) (name : Memory) :
    (Stamping.made call path stale).Reported now (fileTimes (newEntry now ticks flags cluster name)) ↔
      ticks % 256 % 2 = now.seconds % 2 := by
  obtain ⟨created, modified⟩ := fileTimes_newEntry datable ticks flags cluster name
  have exact' : (fileTimes (newEntry now ticks flags cluster name)).creationTime = rtcMktime (fullYear now) ↔
      ticks % 256 % 2 = now.seconds % 2 := by
    have bound := datable.seconds
    grind [fullYear, rtcMktime_seconds_iff]
  constructor
  · exact fun reported => exact'.mp (reported.created call path stale rfl)
  · exact fun same => ⟨fun _ _ _ _ => exact'.mpr same, modified⟩

theorem fileTimes_congr (same : ∀ k < 32, entry k = other k) : fileTimes entry = fileTimes other := by
  have half (place : Nat) (inside : place + 1 < 32) := halfAt_congr same inside
  simp_all [fileTimes, datetimeAt]

/-- **The times go through an entry exactly for `fat_create`, for `fat_mkdir` at an
even second, and never for `fat_write`.** `fat_mkdir` stores 100 for the odd second
and `fat_open` looks at its lowest bit; `fat_write` takes 1980 from a year that is
counted from 1900. -/
theorem times_reported_iff (datable : Datable now) (stamping : Stamping) (ran : stamping.run v now = some v')
    (stamped : stamping.entry v now = some dir) (opened : fatOpenFile w path = some (some (handle, times)))
    (same : ∀ k < 32, handle.dir k = dir k) :
    (∃ before directory index after, fatSetDirEntry before directory index dir = some after ∧
      stamping.Leads dir after v') ∧ (stamping.Reported now times ↔ stamping.Faithful now) := by
  refine ⟨Stamping.stored ran stamped, ?_⟩
  obtain ⟨found, -, shown⟩ := Option.map_eq_some_iff.mp opened
  obtain ⟨_, rfl, shown⟩ := Option.map_eq_some_iff.mp shown
  cases shown
  rw [fileTimes_congr same]
  cases stamping with
  | made call path stale =>
    obtain ⟨cluster, name, rfl⟩ := Stamping.entry_made stamped
    cases call with
    | create =>
      rw [Call.entry, made_reported_iff datable, Stamping.Faithful, iff_true]
      omega
    | mkdir =>
      rw [Call.entry, made_reported_iff datable, Stamping.Faithful]
      -- 100 is even like 0
      rcases Nat.mod_two_eq_zero_or_one now.seconds with even | odd
      · rw [even]
      · rw [odd]
        decide
  | written file length buf offset count =>
    rw [Stamping.entry] at stamped
    split at stamped
    · cases stamped
    · cases stamped
      exact iff_of_false (fun reported => fileTimes_writtenEntry datable file _ reported.modified) id

end

/-- The 15th of November 2026, 12:30 and some seconds. -/
def noon (seconds : Nat) : Datetime := ⟨seconds, 30, 12, 15, 11, 126⟩

/-- A call, and the file opened after it. -/
def reopened (v : Volume) (now : Datetime) (stamping : Stamping) (path : Path) :
    Option (Volume × DirEntry × Handle × FileTimes) := do
  let w ← stamping.run v now
  let dir ← stamping.entry v now
  let (handle, times) ← (← fatOpenFile w path)
  some (w, dir, handle, times)

/-- The seconds of the two times, and whether the entry is the one stored. -/
def reading (opened : Volume × DirEntry × Handle × FileTimes) : Nat × Nat × Bool :=
  (opened.2.2.2.creationTime.seconds, opened.2.2.2.lastModificationTime.seconds,
    (List.range 32).all fun k => opened.2.2.1.dir k == opened.2.1 k)

theorem reopened_spec (read : (reopened v now stamping path).map reading = some (created, modified, true)) :
    ∃ w dir handle times, stamping.run v now = some w ∧ stamping.entry v now = some dir ∧
      fatOpenFile w path = some (some (handle, times)) ∧ (∀ k < 32, handle.dir k = dir k) ∧
      times.creationTime.seconds = created ∧ times.lastModificationTime.seconds = modified := by
  obtain ⟨⟨w, dir, handle, times⟩, found, same⟩ := Option.map_eq_some_iff.mp read
  grind [reopened, bind_returns, reading]

/-- The file `b`, or the directory, in a root directory with one entry. -/
def makeB (call : Call) : Stamping := .made call (inRoot nameB) zeros

theorem created_at_noon : ∃ w handle times, (makeB .create).run (oneEntry 0xf8) (noon 7) = some w ∧
    fatOpenFile w (inRoot nameB) = some (some (handle, times)) ∧ (makeB .create).Reported (noon 7) times := by
  have read : (reopened (oneEntry 0xf8) (noon 7) (makeB .create) (inRoot nameB)).map reading =
      some (1794745807, 1794745806, true) := by decide +kernel
  have datable : Datable (noon 7) := ⟨by decide, by decide, by decide, by decide, by decide, by decide⟩
  obtain ⟨w, dir, handle, times, ran, stamped, opened, same, -⟩ := reopened_spec read
  have reported := times_reported_iff datable (makeB .create) ran stamped opened same
  exact ⟨w, handle, times, ran, opened, reported.2.mpr trivial⟩

/-- The volume with the file `b` and its handle. -/
def withB : Option (Volume × Handle) := do
  let w ← (makeB .create).run (oneEntry 0xf8) (noon 7)
  let (handle, _) ← (← fatOpenFile w (inRoot nameB))
  some (w, handle)

/-- A directory made at 12:30:07 was made at 12:30:06, and a file written to in 2026
was written to in 2046. -/
theorem second_and_year_lost :
    (rtcMktime (fullYear (noon 7))).seconds = 1794745807 ∧
    (∃ w handle times, (makeB .mkdir).run (oneEntry 0xf8) (noon 7) = some w ∧
      fatOpenFile w (inRoot nameB) = some (some (handle, times)) ∧ times.creationTime.seconds = 1794745806 ∧
      ¬ (makeB .mkdir).Reported (noon 7) times) ∧
    ∃ v file w handle times, withB = some (v, file) ∧
      Stamping.run v (noon 7) (.written file 0 [0x41] 0 1) = some w ∧
      fatOpenFile w (inRoot nameB) = some (some (handle, times)) ∧
      times.lastModificationTime.seconds = 2425897806 ∧
      ¬ Stamping.Reported (.written file 0 [0x41] 0 1) (noon 7) times := by
  have clock : (rtcMktime (fullYear (noon 7))).seconds = 1794745807 := by decide +kernel
  have even : (rtcMktime (evenSecond (fullYear (noon 7)))).seconds = 1794745806 := by decide +kernel
  refine ⟨clock, ?_, ?_⟩
  · have read : (reopened (oneEntry 0xf8) (noon 7) (makeB .mkdir) (inRoot nameB)).map reading =
        some (1794745806, 1794745806, true) := by decide +kernel
    obtain ⟨w, dir, handle, times, ran, -, opened, -, created, -⟩ := reopened_spec read
    refine ⟨w, handle, times, ran, opened, created, fun reported => ?_⟩
    rw [reported.created _ _ _ rfl, clock] at created
    cases created
  · have read : (withB.bind fun made => (reopened made.1 (noon 7) (.written made.2 0 [0x41] 0 1)
        (inRoot nameB)).map reading) = some (1794745807, 2425897806, true) := by decide +kernel
    obtain ⟨⟨v, file⟩, made, read⟩ := Option.bind_eq_some_iff.mp read
    obtain ⟨w, dir, handle, times, ran, -, opened, -, -, modified⟩ := reopened_spec read
    refine ⟨v, file, w, handle, times, made, ran, opened, modified, fun reported => ?_⟩
    rw [reported.modified, even] at modified
    cases modified

end MandelbrotOS.FatEntries
