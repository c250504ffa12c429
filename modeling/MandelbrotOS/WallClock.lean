import Mathlib.Tactic.FinCases
import MandelbrotOS.Calendar
import MandelbrotOS.FatEntries
import MandelbrotOS.Tmpfs

/-! The clock of `drivers/rtc.c`. `rtc_mktime` is right for every date-time with
its full year. `rtc_get_datetime` counts years from 1900, so what the two make of
the registers together is 1900 years early. -/
namespace MandelbrotOS.WallClock
open Calendar FatEntries FatFiles Tmpfs

/-- A date-time of the calendar, with the full year. -/
structure IsDatetime (dt : Datetime) : Prop where
  date : IsDate dt.year dt.month dt.day
  year : 1970 ≤ dt.year ∧ dt.year ≤ 65535
  hours : dt.hours < 24
  minutes : dt.minutes < 60
  seconds : dt.seconds < 60

/-- The seconds from 1970-01-01 00:00:00 to a date-time. -/
def posixSeconds (dt : Datetime) : Nat :=
  86400 * daysSince 1970 dt.year dt.month dt.day + 3600 * dt.hours + 60 * dt.minutes + dt.seconds

/-! ### The day number -/

theorem daysBefore_march (year : Nat) (month : Fin 10) : daysBefore year (month + 3) =
    367 * (month + 1) / 12 + 29 + (if isLeap year then 1 else 0) := by
  by_cases leap : isLeap year = true
  · fin_cases month <;> simp [daysBefore, List.range', monthLength, leap]
  · fin_cases month <;> simp [daysBefore, List.range', monthLength, leap]

/-- What a year adds to the day number: its days, less those of the centuries. -/
def yearPart (years : Int) : Int := 1461 * (years + 4800) / 4 - 3 * ((years + 4900) / 100) / 4

theorem fourths_step (year : Nat) : 1461 * ((year : Int) + 4800) / 4 =
    1461 * ((year : Int) - 1 + 4800) / 4 + 365 + (if year % 4 = 0 then 1 else 0) := by
  grind

theorem centuries_step (year : Nat) : 3 * (((year : Int) + 4900) / 100) / 4 =
    3 * (((year : Int) - 1 + 4900) / 100) / 4 + (if year % 100 = 0 ∧ year % 400 ≠ 0 then 1 else 0) := by
  grind

theorem yearPart_step (year : Nat) :
    yearPart year = yearPart ((year : Int) - 1) + 365 + (if isLeap year then 1 else 0) := by
  have leap := isLeap_iff year
  rw [yearPart, yearPart, fourths_step, centuries_step]
  split <;> split <;> split <;> grind

theorem getJulianDay_part (month : 1 ≤ months ∧ months ≤ 12) (days years : Nat) :
    getJulianDay days months years =
      yearPart (years + marchShift months) + 367 * (months - 2 - 12 * marchShift months) / 12 + days - 32075 := by
  grind [getJulianDay_eq, yearPart]

theorem getJulianDay_january (days years : Nat) :
    getJulianDay days 1 years = yearPart ((years : Int) - 1) + 336 + days - 32075 := by
  rw [getJulianDay_part (by decide)]
  rfl

theorem getJulianDay_inYear (inYear : 1 ≤ month ∧ month ≤ 12) (day year : Nat) :
    getJulianDay day month year - getJulianDay 1 1 year = daysBefore year month + day - 1 := by
  have leap := yearPart_step year
  rw [getJulianDay_january, getJulianDay_part inYear, marchShift]
  rcases Nat.lt_or_ge month 3 with early | late
  · rw [if_pos (by omega), ← Int.sub_eq_add_neg]
    obtain rfl | rfl : month = 1 ∨ month = 2 := by omega
    · simp [daysBefore]
    · rw [show daysBefore year 2 = 31 from rfl]
      omega
  · obtain ⟨place, rfl⟩ : ∃ place : Fin 10, month = place + 3 := ⟨⟨month - 3, by omega⟩, by dsimp only; omega⟩
    rw [daysBefore_march, if_neg (by omega), Int.add_zero, leap]
    push_cast
    split <;> omega

theorem getJulianDay_newYear (year : Nat) :
    getJulianDay 1 1 (year + 1) = getJulianDay 1 1 year + yearLength year := by
  have leap := yearPart_step year
  have next : ((year + 1 : Nat) : Int) - 1 = year := by omega
  rw [yearLength_eq, getJulianDay_january, getJulianDay_january, next, leap]
  split <;> push_cast <;> omega

theorem getJulianDay_days (date : IsDate year month day) (later : 1970 ≤ year) :
    getJulianDay day month year - getJulianDay 1 1 1970 = daysSince 1970 year month day := by
  have years := yearDays_unique (fun year _ => getJulianDay_newYear year) later
  have inYear := getJulianDay_inYear date.inYear day year
  have first := date.inMonth.1
  rw [daysSince]
  omega

theorem monthLength_le (year month : Nat) : monthLength year month ≤ 31 := by
  unfold monthLength
  split <;> (try split) <;> decide

/-- **`rtc_mktime` is POSIX time** for every date-time from 1970 on whose year a
`uint16_t` can hold. -/
theorem mktime_exact (valid : IsDatetime dt) : (rtcMktime dt).seconds = posixSeconds dt := by
  have days := getJulianDay_days valid.date valid.year.1
  have month := valid.date.inYear
  have day := valid.date.inMonth
  have long := monthLength_le dt.year dt.month
  obtain ⟨-, ⟨_, lastYear⟩, hours, minutes, seconds⟩ := valid
  have small : getJulianDay dt.day dt.month dt.year - getJulianDay 1 1 1970 < 2 ^ 32 := by
    rw [getJulianDay_part month, getJulianDay_january, yearPart, yearPart, marchShift]
    split <;> omega
  rw [days] at small
  simp only [rtcMktime, posixSeconds, days]
  clear days
  generalize daysSince 1970 dt.year dt.month dt.day = passed at small ⊢
  rw [Int.emod_eq_of_lt (by omega) (by omega)]
  omega

theorem leap_day_exact : (rtcMktime ⟨59, 59, 23, 29, 2, 2000⟩).seconds = 951868799 := by
  have valid : IsDatetime ⟨59, 59, 23, 29, 2, 2000⟩ :=
    ⟨⟨by decide, by decide⟩, by decide, by decide, by decide, by decide⟩
  have posix : posixSeconds ⟨59, 59, 23, 29, 2, 2000⟩ = 951868799 := by decide +kernel
  exact (mktime_exact valid).trans posix

/-! ### The registers -/

/-- The registers of the CMOS clock, which stay as they are while they are read. -/
abbrev Cmos := BitVec 8 → BitVec 8

def rtcIsUpdating (cmos : Cmos) : Bool := cmos 0x0a &&& 0x80 != 0

/-- Bit 2 of status register B; the registers are in BCD while it is clear. -/
def isBinary (cmos : Cmos) : Bool := cmos 0xb &&& 4 != 0

def rtcGetRegister (cmos : Cmos) (regNum : BitVec 8) : BitVec 8 :=
  if !isBinary cmos then (cmos regNum &&& 0xf) + cmos regNum / 16 * 10 else cmos regNum

/-- `rtc_get_datetime`; the year is a `uint16_t`. While the clock is updating, the
function waits. -/
def rtcGetDatetime (cmos : Cmos) (centuryRegister : BitVec 8) : Option Datetime :=
  if rtcIsUpdating cmos then none
  else some {
    hours := (rtcGetRegister cmos 4).toNat
    minutes := (rtcGetRegister cmos 2).toNat
    seconds := (rtcGetRegister cmos 0).toNat
    year := ((rtcGetRegister cmos centuryRegister).toNat * 100 + (rtcGetRegister cmos 9).toNat + 2 ^ 16 - 1900) % 2 ^ 16
    month := (rtcGetRegister cmos 8).toNat
    day := (rtcGetRegister cmos 7).toNat }

/-- `syscall_gettimeofday`: what is stored. -/
def syscallGettimeofday (cmos : Cmos) (centuryRegister : BitVec 8) : Option PosixTime :=
  (rtcGetDatetime cmos centuryRegister).map rtcMktime

/-- `tmpfs_create` with the clock: the times of the new node, if one is made. -/
def tmpfsCreateTimed (cmos : Cmos) (centuryRegister : BitVec 8) (mode : BitVec 32) (uid gid : Int) (fs : Fs)
    (path : Descriptors.Path) : Option (Option NodePtr × Fs × Option FileTimes) := do
  let tim := rtcMktime (← rtcGetDatetime cmos centuryRegister)
  let times := match ← tmpfsFind fs path with
    | .found _ => none
    | .missing _ => some ⟨tim, tim, tim, tim⟩
  let (file, fs) ← tmpfsCreate mode uid gid fs path
  some (file, fs, times)

/-- How the clock keeps a number of a date-time. -/
def encoded (binary : Bool) (value : Nat) : BitVec 8 :=
  BitVec.ofNat 8 (if binary then value else value / 10 * 16 + value % 10)

/-- The registers hold a date-time, with the hours from 0 to 23. -/
structure Encodes (cmos : Cmos) (centuryRegister : BitVec 8) (dt : Datetime) : Prop where
  settled : rtcIsUpdating cmos = false
  wholeDay : cmos 0xb &&& 2 ≠ 0
  range : dt.year / 100 < if isBinary cmos then 256 else 100
  seconds : cmos 0 = encoded (isBinary cmos) dt.seconds
  minutes : cmos 2 = encoded (isBinary cmos) dt.minutes
  hours : cmos 4 = encoded (isBinary cmos) dt.hours
  day : cmos 7 = encoded (isBinary cmos) dt.day
  month : cmos 8 = encoded (isBinary cmos) dt.month
  year : cmos 9 = encoded (isBinary cmos) (dt.year % 100)
  century : cmos centuryRegister = encoded (isBinary cmos) (dt.year / 100)

theorem rtcGetRegister_encoded {cmos : Cmos} (small : value < if isBinary cmos then 256 else 100)
    (held : cmos regNum = encoded (isBinary cmos) value) : (rtcGetRegister cmos regNum).toNat = value := by
  have digits : ∀ value < 100, ((encoded false value &&& 0xf) + encoded false value / 16 * 10).toNat = value := by
    decide
  rw [rtcGetRegister, held]
  cases binary : isBinary cmos with
  | false =>
    rw [binary] at small
    exact digits value small
  | true =>
    rw [binary] at small
    exact (BitVec.toNat_ofNat ..).trans (Nat.mod_eq_of_lt small)

theorem rtcGetDatetime_encodes (valid : IsDatetime dt) (encodes : Encodes cmos centuryRegister dt) :
    rtcGetDatetime cmos centuryRegister = some { dt with year := dt.year - 1900 } := by
  have range (number : Nat) (small : number < 100) : number < if isBinary cmos then 256 else 100 := by
    split <;> omega
  have day := valid.date.inMonth
  have long := monthLength_le dt.year dt.month
  have month := valid.date.inYear
  have century : dt.year / 100 * 100 + dt.year % 100 + 2 ^ 16 - 1900 = dt.year - 1900 + 2 ^ 16 := by
    have year := valid.year
    omega
  have year : (dt.year - 1900 + 2 ^ 16) % 2 ^ 16 = dt.year - 1900 := by
    have year := valid.year
    omega
  rw [rtcGetDatetime, encodes.settled,
    rtcGetRegister_encoded (range _ (Nat.lt_trans valid.seconds (by decide))) encodes.seconds,
    rtcGetRegister_encoded (range _ (Nat.lt_trans valid.minutes (by decide))) encodes.minutes,
    rtcGetRegister_encoded (range _ (Nat.lt_trans valid.hours (by decide))) encodes.hours,
    rtcGetRegister_encoded (range _ (by omega)) encodes.day, rtcGetRegister_encoded (range _ (by omega)) encodes.month,
    rtcGetRegister_encoded (range _ (Nat.mod_lt _ (by decide))) encodes.year,
    rtcGetRegister_encoded encodes.range encodes.century, century, year]
  rfl

theorem early_years (month : 1 ≤ months ∧ months ≤ 12) (later : 1970 ≤ years) (days : Nat) :
    ∃ lost : Nat, (lost = 693960 ∨ lost = 693961) ∧
      getJulianDay days months (years - 1900) = getJulianDay days months years - lost := by
  have less : ((years - 1900 : Nat) : Int) + marchShift months = years + marchShift months - 1900 := by omega
  rw [getJulianDay_part month, getJulianDay_part month, less]
  generalize (years : Int) + marchShift months = year
  have fourths : 1461 * (year + 4800) / 4 = 1461 * (year - 1900 + 4800) / 4 + 693975 := by omega
  have centuries : 3 * ((year + 4900) / 100) / 4 = 3 * ((year - 1900 + 4900) / 100) / 4 + 14 ∨
      3 * ((year + 4900) / 100) / 4 = 3 * ((year - 1900 + 4900) / 100) / 4 + 15 := by
    omega
  grind [yearPart]

theorem rtcMktime_early (valid : IsDatetime dt) : ∃ lost : Nat, (lost = 693960 ∨ lost = 693961) ∧
    (rtcMktime { dt with year := dt.year - 1900 }).seconds = (posixSeconds dt + 2 ^ 64 - 86400 * lost) % 2 ^ 64 := by
  obtain ⟨lost, few, early⟩ := early_years valid.date.inYear valid.year.1 dt.day
  have days := getJulianDay_days valid.date valid.year.1
  grind [rtcMktime, posixSeconds]

theorem early_ne {lost : Nat} (few : lost = 693960 ∨ lost = 693961) (seconds : Nat) :
    (seconds + 2 ^ 64 - 86400 * lost) % 2 ^ 64 ≠ seconds := by
  rcases few with rfl | rfl <;> omega

/-- **The wall clock is never right.** Whatever date-time from 1970 on the registers
hold, the time that is stored for `gettimeofday` and in every node `tmpfs_create` makes
is another. -/
theorem clock_never_right (valid : IsDatetime dt) (encodes : Encodes cmos centuryRegister dt) :
    (∃ time, syscallGettimeofday cmos centuryRegister = some time ∧ time.seconds ≠ posixSeconds dt) ∧
      ∀ mode uid gid fs path file fs' times,
        tmpfsCreateTimed cmos centuryRegister mode uid gid fs path = some (file, fs', some times) →
        times.creationTime.seconds ≠ posixSeconds dt := by
  have read := rtcGetDatetime_encodes valid encodes
  have wrong : (rtcMktime { dt with year := dt.year - 1900 }).seconds ≠ posixSeconds dt := by
    obtain ⟨lost, few, early⟩ := rtcMktime_early valid
    rw [early]
    exact early_ne few _
  refine ⟨⟨_, congrArg (Option.map rtcMktime) read, wrong⟩, ?_⟩
  intro mode uid gid fs path file fs' times made
  simp only [tmpfsCreateTimed, read, Option.bind_eq_bind, Option.bind_some, Option.bind_eq_some_iff, Prod.exists,
    Option.some.injEq, Prod.mk.injEq] at made
  obtain ⟨found, -, _, _, -, -, -, same⟩ := made
  cases found with
  | found node => cases same
  | missing parent =>
    cases same
    exact wrong

/-- The 15th of November 2026, 12:30:07. -/
def autumn : Datetime := ⟨7, 30, 12, 15, 11, 2026⟩

/-- The same in BCD, with the century in register `0x32`. -/
def autumnCmos : Cmos := fun regNum => match regNum.toNat with
  | 0 => 0x07
  | 2 => 0x30
  | 4 => 0x12
  | 7 => 0x15
  | 8 => 0x11
  | 9 => 0x26
  | 0xb => 0x02
  | 0x32 => 0x20
  | _ => 0

theorem autumn_valid : IsDatetime autumn :=
  ⟨⟨by decide, by decide⟩, by decide, by decide, by decide, by decide⟩

theorem autumn_encoded : Encodes autumnCmos 0x32 autumn :=
  ⟨by decide, by decide, by decide, by decide, by decide, by decide, by decide, by decide, by decide, by decide⟩

theorem autumn_not_right :
    ∃ time, syscallGettimeofday autumnCmos 0x32 = some time ∧ time.seconds ≠ posixSeconds autumn :=
  (clock_never_right autumn_valid autumn_encoded).1

/-- `gettimeofday` stores 1794745807 less 693961 days, modulo `2 ^ 64`. -/
theorem autumn_early : IsDatetime autumn ∧ Encodes autumnCmos 0x32 autumn ∧ posixSeconds autumn = 1794745807 ∧
    syscallGettimeofday autumnCmos 0x32 = some ⟨18446744015546067023, 0⟩ :=
  ⟨autumn_valid, autumn_encoded, by decide +kernel, by decide +kernel⟩

end MandelbrotOS.WallClock
