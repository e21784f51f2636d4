import LoraDb.TemporalParsing
import LoraDb.WalCodecRoundTrip

/-!
# Date-Times in Time Zones

A date-time is a wall clock, an offset and, if it has one, a named zone. The zones are those of a
database outside this repository (`TimeZone`): an offset at each instant, and the offsets each
local time has, which agree. `inZone` takes a local time in a gap forward by the gap's length and
one in an overlap at the offset it is asked to keep.

Everything comes down to moving a wall clock (`addFixed`) and to resolving it again; the years the
database lacks have the offset at its edge, and are resolved as well (`localOffset_resolves`).

## Main results

* `addFixed_spec`: what months, days, seconds and nanoseconds do to a wall clock.
* `Built.good`: every date-time that is built is in range, at an offset its zone has then.
* `zoned_good`: and what showing it elsewhere and adding to it keeps and moves.
* `addFixed_isSome_iff`, `tryAddDuration_isSome_iff`: exactly when there is a sum.
-/

open Option (bind_eq_bind bind_eq_some_iff bind_some)
open ByteCodec

namespace LoraDb

/-! ### Time zones -/

/-- The offsets a zone gives a local date-time. -/
inductive LocalOffset where
  | unique (offset : Int32)
  /-- The local time does not exist: clocks jumped forward. -/
  | gap (before after : Int32)
  /-- The local time happens twice: clocks went back. -/
  | overlap (earlier later : Int32)

/-- The first and the last second of the database. -/
def TIMESTAMP_MIN : ℤ := -377705023201
def TIMESTAMP_MAX : ℤ := 253402207200

/-- The widest offset: 25:59:59. -/
def OFFSET_MAX : ℤ := 93599

/-- The local seconds of the years -9999 to 9999. -/
def InDatabase (localSeconds : ℤ) : Prop :=
  TIMESTAMP_MIN - OFFSET_MAX ≤ localSeconds ∧ localSeconds ≤ TIMESTAMP_MAX + OFFSET_MAX

/-- The local seconds show the instant they name at `offset`. -/
def Shows (toOffset : ℤ → Int32) (localSeconds : ℤ) (offset : Int32) : Prop :=
  toOffset (max TIMESTAMP_MIN (min TIMESTAMP_MAX (localSeconds - offset.toInt))) = offset

/-- What the offsets of a zone make of local seconds. -/
def Resolves (toOffset : ℤ → Int32) (localSeconds : ℤ) : LocalOffset → Prop
  | .unique offset => ∀ o, Shows toOffset localSeconds o ↔ o = offset
  | .overlap earlier later => later.toInt < earlier.toInt ∧
    ∀ o, Shows toOffset localSeconds o ↔ o = earlier ∨ o = later
  | .gap before after => before.toInt < after.toInt ∧ (∀ o, ¬ Shows toOffset localSeconds o) ∧
    Shows toOffset (localSeconds + (after.toInt - before.toInt)) after ∧
    Shows toOffset (localSeconds - (after.toInt - before.toInt)) before

/-- A **time zone** of the database, which is outside this repository: its offset at each instant,
and the offsets it gives each local date-time, which are those the instants have. -/
structure TimeZone where
  toOffset : ℤ → Int32
  toAmbiguous : ℤ → LocalOffset
  offset_range : ∀ t, -OFFSET_MAX ≤ (toOffset t).toInt ∧ (toOffset t).toInt ≤ OFFSET_MAX
  resolves : ∀ localSeconds, InDatabase localSeconds →
    Resolves toOffset localSeconds (toAmbiguous localSeconds)

/-- An unsigned field as a signed byte. -/
def asByte (x : UInt32) : ℤ := Int.bmod x.toNat 256

namespace TimeZone

/-- The offset at an instant. Instants beyond the database take the offset at its edge. -/
def offsetAt (z : TimeZone) (epochSeconds : ℤ) : Int32 :=
  z.toOffset (max TIMESTAMP_MIN (min TIMESTAMP_MAX epochSeconds))

def localOffset (z : TimeZone) (year : Int32) (month day hour minute second : UInt32) :
    LocalOffset :=
  let y := year.toInt
  let m := (asByte month).toNat
  let d := (asByte day).toNat
  if -9999 ≤ y ∧ y ≤ 9999 ∧ (1 ≤ m ∧ m ≤ 12 ∧ 1 ≤ d ∧ d ≤ daysInMonth y m) ∧
      (0 ≤ asByte hour ∧ asByte hour ≤ 23) ∧ (0 ≤ asByte minute ∧ asByte minute ≤ 59) ∧
      (0 ≤ asByte second ∧ asByte second ≤ 59) then
    z.toAmbiguous (daysFromCivil y m d * 86400 + asByte hour * 3600 + asByte minute * 60 +
      asByte second)
  else
    -- Out of the database's range: the offset at its edge.
    .unique (z.offsetAt (if y < 0 then -2 ^ 63 else 2 ^ 63 - 1))

end TimeZone

/-! ### Durations -/

namespace LoraDuration

def zero : LoraDuration := ⟨0, 0, 0, 0⟩

def tryNegate (dur : LoraDuration) : Option LoraDuration := do
  let months ← checked (-dur.months.toInt)
  let days ← checked (-dur.days.toInt)
  let seconds ← checked (-dur.seconds.toInt)
  let nanoseconds ← checked (-dur.nanoseconds.toInt)
  some ⟨.ofInt months, .ofInt days, .ofInt seconds, .ofInt nanoseconds⟩

/-- A duration of the calendar, without a clock part. -/
def calendar (dur : LoraDuration) : LoraDuration := ⟨dur.months, dur.days, 0, 0⟩

/-- A duration of the clock, without a calendar part. -/
def clock (dur : LoraDuration) : LoraDuration := ⟨0, 0, dur.seconds, dur.nanoseconds⟩

end LoraDuration

/-! ### Date-times -/

namespace LoraDateTime

def new (year : Int32) (month day hour minute second nanosecond : UInt32)
    (offsetSeconds : Int32) : Except String LoraDateTime := do
  let date ← LoraDate.new year month day
  if 23 < hour.toNat then .error s!"Invalid hour: {hour.toNat}"
  else if 59 < minute.toNat then .error s!"Invalid minute: {minute.toNat}"
  else if 59 < second.toNat then .error s!"Invalid second: {second.toNat}"
  else
    .ok { year := date.year, month := date.month, day := date.day, hour, minute, second,
          nanosecond, offsetSeconds, zone := none }

/-- Whole seconds since 1970 in UTC. -/
def epochSeconds (v : LoraDateTime) : ℤ :=
  daysFromCivil v.year.toInt v.month.toNat v.day.toNat * 86400 +
    daySeconds v.hour v.minute v.second - v.offsetSeconds.toInt

def date (v : LoraDateTime) : LoraDate := ⟨v.year, v.month, v.day⟩

/-- `dur` added to the wall clock at a fixed offset and zone. -/
def addFixed (v : LoraDateTime) (dur : LoraDuration) : Option LoraDateTime := do
  let years ← checked (v.year.toInt * 12)
  let currentMonths ← checked (years + (v.month.toNat - 1))
  let totalMonths ← checked (currentMonths + dur.months.toInt)
  let year := totalMonths / 12
  if ¬ (-2 ^ 31 ≤ year ∧ year < 2 ^ 31) then none
  else
    let newMonth := (totalMonths % 12 + 1).toNat
    let newDay := min v.day.toNat (daysInMonth year newMonth)
    let baseDays ← checked (daysFromCivil year newMonth newDay + dur.days.toInt)
    let hours ← checked (v.hour.toNat * 3600)
    let minutes ← checked (v.minute.toNat * 60)
    let clock ← checked (hours + minutes)
    let daySecs ← checked (clock + v.second.toNat)
    let baseSecs ← checked (daySecs + dur.seconds.toInt)
    let totalNanos ← checked (v.nanosecond.toNat + dur.nanoseconds.toInt)
    let extraSecs := totalNanos / 1000000000
    let finalNanos := totalNanos % 1000000000
    let daysSecs ← checked (baseDays * 86400)
    let sum ← checked (daysSecs + baseSecs)
    let totalSecs ← checked (sum + extraSecs)
    let rem := totalSecs % 86400
    let (y, m, d) ← civilFromDaysChecked (totalSecs / 86400)
    some { v with
      year := y, month := m, day := d,
      hour := .ofNat (rem / 3600).toNat,
      minute := .ofNat (rem % 3600 / 60).toNat,
      second := .ofNat (rem % 60).toNat,
      nanosecond := .ofNat finalNanos.toNat }

/-- The wall clock moved by `seconds`, offset and zone unchanged. -/
def shiftLocalSeconds (v : LoraDateTime) (seconds : ℤ) : Option LoraDateTime :=
  v.addFixed { LoraDuration.zero with seconds := .ofInt seconds }

section Zones

variable (tz : ZoneId → TimeZone)

/-- The local date-time in `zone`, at the offset the zone has then. -/
def inZone (date : LoraDate) (hour minute second nanosecond : UInt32) (zone : ZoneId)
    (prefer : Option Int32) : Except String LoraDateTime :=
  match (tz zone).localOffset date.year date.month date.day hour minute second with
  | .unique offset =>
    (new date.year date.month date.day hour minute second nanosecond offset).map
      fun v => { v with zone := some zone }
  | .overlap earlier later =>
    let offset := if prefer = some later then later else earlier
    (new date.year date.month date.day hour minute second nanosecond offset).map
      fun v => { v with zone := some zone }
  | .gap before after => do
    -- The instant the local time names at the old offset, shown at the new one.
    let v ← new date.year date.month date.day hour minute second nanosecond before
    match v.shiftLocalSeconds (after.toInt - before.toInt) with
    | none => .error "datetime out of range"
    | some moved => .ok { moved with offsetSeconds := after, zone := some zone }

/-- The same instant, shown in `zone`. -/
def toZone (v : LoraDateTime) (zone : ZoneId) : Option LoraDateTime := do
  let offset := (tz zone).offsetAt v.epochSeconds
  let moved ← v.shiftLocalSeconds (offset.toInt - v.offsetSeconds.toInt)
  some { moved with offsetSeconds := offset, zone := some zone }

/-- The same instant at a fixed `offset`, without a named zone. -/
def toOffset (v : LoraDateTime) (offset : Int32) : Option LoraDateTime := do
  let moved ← v.shiftLocalSeconds (offset.toInt - v.offsetSeconds.toInt)
  some { moved with offsetSeconds := offset, zone := none }

/-- This value with the clock set: resolved in its zone again, at its offset when that is still
valid. -/
def withClock (v : LoraDateTime) (hour minute second nanosecond : UInt32) : LoraDateTime :=
  let fixed := { v with hour, minute, second, nanosecond }
  match v.zone with
  | some zone =>
    match inZone tz v.date hour minute second nanosecond zone (some v.offsetSeconds) with
    | .ok w => w
    | .error _ => fixed
  | none => fixed

def truncateToDay (v : LoraDateTime) : LoraDateTime := v.withClock tz 0 0 0 0

def truncateToHour (v : LoraDateTime) : LoraDateTime := v.withClock tz v.hour 0 0 0

/-- The months and days move the wall clock, which is resolved in the zone again. -/
def moveCalendar (v : LoraDateTime) (zone : ZoneId) (dur : LoraDuration) : Option LoraDateTime :=
  if dur.months ≠ 0 ∨ dur.days ≠ 0 then do
    let moved ← v.addFixed dur.calendar
    (inZone tz moved.date moved.hour moved.minute moved.second moved.nanosecond zone
      (some v.offsetSeconds)).toOption
  else some v

/-- The seconds and nanoseconds move the instant. -/
def moveClock (v : LoraDateTime) (zone : ZoneId) (dur : LoraDuration) : Option LoraDateTime :=
  if dur.seconds ≠ 0 ∨ dur.nanoseconds ≠ 0 then do
    let moved ← v.addFixed dur.clock
    moved.toZone tz zone
  else some v

def tryAddDuration (v : LoraDateTime) (dur : LoraDuration) : Option LoraDateTime :=
  match v.zone with
  | none => v.addFixed dur
  | some zone => do
    let out ← v.moveCalendar tz zone dur
    out.moveClock tz zone dur

/-- The first or the last date-time, by the sign of what was added. -/
def clampDurationOverflow (offsetSeconds : Int32) (dur : LoraDuration) : LoraDateTime :=
  if dur.months < 0 ∨ (dur.months = 0 ∧ dur.days < 0) ∨
      (dur.months = 0 ∧ dur.days = 0 ∧ dur.seconds < 0) ∨
      (dur.months = 0 ∧ dur.days = 0 ∧ dur.seconds = 0 ∧ dur.nanoseconds < 0) then
    ⟨Int32.minValue, 1, 1, 0, 0, 0, 0, offsetSeconds, none⟩
  else ⟨Int32.maxValue, 12, 31, 23, 59, 59, 999999999, offsetSeconds, none⟩

def addDuration (v : LoraDateTime) (dur : LoraDuration) : LoraDateTime :=
  (v.tryAddDuration tz dur).getD (clampDurationOverflow v.offsetSeconds dur)

/-- What `-` does: `none` is an error. -/
def trySubDuration (v : LoraDateTime) (dur : LoraDuration) : Option LoraDateTime := do
  let negated ← dur.tryNegate
  v.tryAddDuration tz negated

variable (db : ZoneDb)

/-- Splits a trailing `[Region/City]` off. -/
def splitZoneSuffix (s : Bytes) : Except String (Bytes × Option ZoneId) :=
  if s.getLast? = some 93 then
    let body := s.dropLast
    match body.reverse.dropWhile (· != 91) with
    | [] => .error s!"Invalid time zone in: {text s}"
    | _ :: front =>
      let name := (body.reverse.takeWhile (· != 91)).reverse
      match db.lookup (text name) with
      | none => .error s!"Unknown time zone \x60{text name}\x60"
      | some zone => .ok (front.reverse, some zone)
  else .ok (s, none)

/-- Reads a date-time, which may be in a zone. An offset the zone does not have then is an
error; `none` is an overflow of the date. -/
def parse (s : Bytes) : Option (Except String LoraDateTime) :=
  match splitZoneSuffix db s with
  | .error e => some (.error e)
  | .ok (s, zone) =>
    match s.dropWhile (· != 84) with
    | [] => some (.error s!"Invalid datetime: {text s}")
    | _ :: timePart => do
      let date ← parseDate (s.takeWhile (· != 84))
      some do
        let date ← date
        let (hour, minute, second, nanosecond, offset) ← parseTimeString timePart
        match zone, offset with
        | none, offset =>
          new date.year date.month date.day hour minute second nanosecond (offset.getD 0)
        | some zone, none => inZone tz date hour minute second nanosecond zone none
        | some zone, some offset => do
          let v ← new date.year date.month date.day hour minute second nanosecond offset
          if (tz zone).offsetAt v.epochSeconds ≠ offset then
            .error s!"The offset does not match {db.name zone}: {text s}"
          else .ok { v with zone := some zone }

end Zones

/-! ### Ranges -/

section Specs

variable {α : Type} {v w : LoraDateTime} {dur : LoraDuration}

/-- Seconds of the wall clock. -/
def localSeconds (v : LoraDateTime) : ℤ :=
  v.date.toEpochDays * 86400 + daySeconds v.hour v.minute v.second

/-- Every field is in its range. -/
def InRange (v : LoraDateTime) : Prop :=
  v.date.valid = true ∧ (v.hour.toNat < 24 ∧ v.minute.toNat < 60 ∧ v.second.toNat < 60) ∧
    v.nanosecond.toNat < 1000000000

/-- The day some months later, the day of the month clamped to the month's length. -/
def daysAfter (v : LoraDateTime) (months : ℤ) : ℤ :=
  let total := v.year.toInt * 12 + (v.month.toNat - 1) + months
  let month := (total % 12 + 1).toNat
  daysFromCivil (total / 12) month (min v.day.toNat (daysInMonth (total / 12) month))

theorem epochSeconds_eq (v : LoraDateTime) :
    v.epochSeconds = v.localSeconds - v.offsetSeconds.toInt := rfl

theorem orderNanos_eq (v : LoraDateTime) :
    v.orderNanos = v.epochSeconds * NANOS + v.nanosecond.toNat := rfl

/-- No months later is the same month. -/
theorem sameMonth (hv : v.date.valid = true) :
    (v.year.toInt * 12 + ((v.month.toNat : ℤ) - 1)) / 12 = v.year.toInt ∧
      ((v.year.toInt * 12 + ((v.month.toNat : ℤ) - 1)) % 12 + 1).toNat = v.month.toNat ∧
      min v.day.toNat (daysInMonth v.year.toInt v.month.toNat) = v.day.toNat := by
  obtain ⟨hm1, hm12, -, hd⟩ := LoraDate.valid_iff.mp hv
  simp only [date] at hm1 hm12 hd
  exact ⟨by omega, by omega, min_eq_left hd⟩

theorem daysAfter_zero (hv : v.date.valid = true) : v.daysAfter 0 = v.date.toEpochDays := by
  obtain ⟨hyear, hmonth, hday⟩ := sameMonth hv
  simp only [daysAfter, Int.add_zero, hyear, hmonth, hday]
  rfl

theorem checked_some {x y : ℤ} (h : checked x = some y) : y = x ∧ -2 ^ 63 ≤ x ∧ x < 2 ^ 63 := by
  unfold checked at h
  split at h
  · exact ⟨(Option.some.inj h).symm, ‹_›⟩
  · cases h

theorem checked_bind {x : ℤ} {f : ℤ → Option α} (h : -2 ^ 63 ≤ x ∧ x < 2 ^ 63) :
    (checked x >>= f) = f x := by
  rw [checked_eq h]
  rfl

/-- The clock of a second of the day. -/
theorem daySeconds_ofNat {r : ℤ} (h : 0 ≤ r ∧ r < 86400) :
    ((UInt32.ofNat (r / 3600).toNat).toNat < 24 ∧ (UInt32.ofNat (r % 3600 / 60).toNat).toNat < 60 ∧
      (UInt32.ofNat (r % 60).toNat).toNat < 60) ∧
    daySeconds (.ofNat (r / 3600).toNat) (.ofNat (r % 3600 / 60).toNat)
      (.ofNat (r % 60).toNat) = r := by
  have hh : (UInt32.ofNat (r / 3600).toNat).toNat = (r / 3600).toNat :=
    UInt32.toNat_ofNat_of_lt' (by change _ < 2 ^ 32; omega)
  have hm : (UInt32.ofNat (r % 3600 / 60).toNat).toNat = (r % 3600 / 60).toNat :=
    UInt32.toNat_ofNat_of_lt' (by change _ < 2 ^ 32; omega)
  have hs : (UInt32.ofNat (r % 60).toNat).toNat = (r % 60).toNat :=
    UInt32.toNat_ofNat_of_lt' (by change _ < 2 ^ 32; omega)
  rw [daySeconds, hh, hm, hs]
  omega

/-- A day of the calendar has the second. -/
def OnCalendar (second : ℤ) : Prop :=
  ∃ u : LoraDate, u.valid = true ∧ u.toEpochDays = second / 86400

/-- The second of the wall clock that a duration leads to, where the calendar has it or not. -/
def secondAfter (v : LoraDateTime) (dur : LoraDuration) : ℤ :=
  (v.daysAfter dur.months.toInt + dur.days.toInt) * 86400 +
    (daySeconds v.hour v.minute v.second + dur.seconds.toInt) +
    (v.nanosecond.toNat + dur.nanoseconds.toInt) / 1000000000

/-- The duration can be added to the wall clock: the year after the months fits 32 bits, what the
days, the seconds and the nanoseconds come to on the way fits 64, and the second it leads to is on
the calendar. -/
structure Addable (v : LoraDateTime) (dur : LoraDuration) : Prop where
  year : FitsYear ((v.year.toInt * 12 + (v.month.toNat - 1) + dur.months.toInt) / 12)
  days : -2 ^ 63 ≤ (v.daysAfter dur.months.toInt + dur.days.toInt) * 86400 ∧
    (v.daysAfter dur.months.toInt + dur.days.toInt) * 86400 < 2 ^ 63
  seconds : -2 ^ 63 ≤ daySeconds v.hour v.minute v.second + dur.seconds.toInt ∧
    daySeconds v.hour v.minute v.second + dur.seconds.toInt < 2 ^ 63
  nanos : -2 ^ 63 ≤ v.nanosecond.toNat + dur.nanoseconds.toInt ∧
    v.nanosecond.toNat + dur.nanoseconds.toInt < 2 ^ 63
  date : OnCalendar (v.secondAfter dur)

/-- What `addFixed` needs and what it does: the calendar part moves the date, the clock part the
second. -/
theorem addFixed_sound (h : v.addFixed dur = some w) : v.Addable dur ∧ w.InRange ∧
    w.offsetSeconds = v.offsetSeconds ∧ w.zone = v.zone ∧
    w.localSeconds * NANOS + w.nanosecond.toNat =
      ((v.daysAfter dur.months.toInt + dur.days.toInt) * 86400 +
        daySeconds v.hour v.minute v.second + dur.seconds.toInt) * NANOS +
      v.nanosecond.toNat + dur.nanoseconds.toInt := by
  unfold addFixed at h
  obtain ⟨years, hyears, h⟩ := bind_eq_some_iff.mp h
  obtain ⟨current, hcurrent, h⟩ := bind_eq_some_iff.mp h
  obtain ⟨total, htotal, h⟩ := bind_eq_some_iff.mp h
  dsimp only at h
  split at h
  · cases h
  next hyear =>
    obtain ⟨base, hbase, h⟩ := bind_eq_some_iff.mp h
    obtain ⟨hours, hhours, h⟩ := bind_eq_some_iff.mp h
    obtain ⟨minutes, hminutes, h⟩ := bind_eq_some_iff.mp h
    obtain ⟨clock, hclock, h⟩ := bind_eq_some_iff.mp h
    obtain ⟨day, hday, h⟩ := bind_eq_some_iff.mp h
    obtain ⟨secs, hsecs, h⟩ := bind_eq_some_iff.mp h
    obtain ⟨nanos, hnanos, h⟩ := bind_eq_some_iff.mp h
    obtain ⟨daysSecs, hdaysSecs, h⟩ := bind_eq_some_iff.mp h
    obtain ⟨sum, hsum, h⟩ := bind_eq_some_iff.mp h
    obtain ⟨all, hall, h⟩ := bind_eq_some_iff.mp h
    obtain ⟨⟨y, m, d⟩, hdate, h⟩ := bind_eq_some_iff.mp h
    obtain rfl := Option.some.inj h
    obtain ⟨rfl, -⟩ := checked_some hyears
    obtain ⟨rfl, -⟩ := checked_some hcurrent
    obtain ⟨rfl, -⟩ := checked_some htotal
    obtain ⟨rfl, -⟩ := checked_some hbase
    obtain ⟨rfl, -⟩ := checked_some hhours
    obtain ⟨rfl, -⟩ := checked_some hminutes
    obtain ⟨rfl, -⟩ := checked_some hclock
    obtain ⟨rfl, -⟩ := checked_some hday
    obtain ⟨rfl, hclock'⟩ := checked_some hsecs
    obtain ⟨rfl, hnanos'⟩ := checked_some hnanos
    obtain ⟨rfl, hdays'⟩ := checked_some hdaysSecs
    obtain ⟨rfl, -⟩ := checked_some hsum
    obtain ⟨hall, hrange⟩ := checked_some hall
    rw [← hall] at hrange
    obtain ⟨hvalid, hdays⟩ := (LoraDate.civilFromDaysChecked_iff
      (v := ⟨y, m, d⟩) ⟨by omega, by omega⟩).mp hdate
    obtain ⟨hfields, hclock⟩ := daySeconds_ofNat (r := all % 86400) ⟨by omega, by omega⟩
    have hnano : (UInt32.ofNat ((↑v.nanosecond.toNat + dur.nanoseconds.toInt) %
        1000000000).toNat).toNat =
        ((↑v.nanosecond.toNat + dur.nanoseconds.toInt) % 1000000000).toNat :=
      UInt32.toNat_ofNat_of_lt' (by change _ < 2 ^ 32; omega)
    refine ⟨⟨not_not.mp hyear, hdays', hclock', hnanos', _, hvalid, ?_⟩, ⟨hvalid, hfields, ?_⟩, rfl,
      rfl, ?_⟩
    · rw [hdays, hall]
      rfl
    · rw [hnano]
      omega
    · simp only [localSeconds, date, hdays, hclock, hnano]
      simp only [daysAfter, daySeconds, NANOS] at hall ⊢
      omega

/-- What `addFixed` does. -/
theorem addFixed_spec (h : v.addFixed dur = some w) : w.InRange ∧
    w.offsetSeconds = v.offsetSeconds ∧ w.zone = v.zone ∧
    w.localSeconds * NANOS + w.nanosecond.toNat =
      ((v.daysAfter dur.months.toInt + dur.days.toInt) * 86400 +
        daySeconds v.hour v.minute v.second + dur.seconds.toInt) * NANOS +
      v.nanosecond.toNat + dur.nanoseconds.toInt :=
  (addFixed_sound h).2

/-- The days of a year, at 365.2425 of them each. -/
theorem daysFromCivil_near {y : ℤ} {m d : ℕ} (h : Civil y m d) :
    146097 * y - 288000000 ≤ 400 * daysFromCivil y m d ∧
      400 * daysFromCivil y m d ≤ 146097 * y - 287600000 := by
  obtain ⟨hm1, hm12, hd1, hd⟩ := h
  have hlen := hd.trans (daysInMonth_eq ⟨hm1, hm12⟩ y)
  have hd31 : d ≤ 31 := by
    refine hlen.trans ?_
    split <;> omega
  rw [daysFromCivil_eq y m d rfl]
  split <;> split <;> omega

/-- A day of a year that fits has a date. -/
theorem exists_date_near {n : ℤ} (h : -2 ^ 39 ≤ n ∧ n ≤ 2 ^ 39) :
    ∃ v : LoraDate, v.valid = true ∧ v.toEpochDays = n := by
  obtain ⟨y, m, d, hcivil, rfl⟩ := exists_civil n
  obtain ⟨hlow, hhigh⟩ := daysFromCivil_near hcivil
  obtain ⟨hvalid, hdays, -⟩ := LoraDate.fromEpochDays_of_civil hcivil ⟨by omega, by omega⟩
  exact ⟨_, hvalid, hdays⟩

/-- A day of the calendar is at most 2 ^ 41 days from 1970. -/
theorem toEpochDays_near {u : LoraDate} (hu : u.valid = true) :
    -2 ^ 41 ≤ u.toEpochDays ∧ u.toEpochDays ≤ 2 ^ 41 := by
  obtain ⟨hlow, hhigh⟩ := daysFromCivil_near (LoraDate.valid_iff.mp hu)
  obtain ⟨hy, hy'⟩ := u.fits_year
  simp only [LoraDate.toEpochDays]
  omega

/-- A sum exists exactly where the duration can be added. -/
theorem addFixed_isSome_iff (hv : v.InRange) : (∃ w, v.addFixed dur = some w) ↔ v.Addable dur := by
  refine ⟨fun ⟨w, h⟩ => (addFixed_sound h).1, fun h => ?_⟩
  obtain ⟨hyear, hdays, hseconds, hnanos, u, hu, hday⟩ := h
  obtain ⟨hdate, ⟨hh, hm, hs⟩, hn⟩ := hv
  have hm12 := (LoraDate.valid_iff.mp hdate).2.1
  simp only [date] at hm12
  obtain ⟨hy, hy'⟩ := v.date.fits_year
  simp only [date] at hy hy'
  have hnear := toEpochDays_near hu
  have hcivil := (LoraDate.civilFromDaysChecked_iff ⟨by omega, by omega⟩).mpr ⟨hu, hday⟩
  simp only [secondAfter, daysAfter, daySeconds] at hdays hseconds hday hcivil
  unfold FitsYear at hyear
  rw [addFixed, checked_bind, checked_bind, checked_bind]
  · simp only [if_neg (not_not.mpr hyear)]
    rw [checked_bind, checked_bind, checked_bind, checked_bind, checked_bind, checked_bind,
      checked_bind, checked_bind, checked_bind, checked_bind, hcivil]
    · exact ⟨_, rfl⟩
    all_goals omega
  all_goals omega

/-- A sum exists where its months stay in years that fit, its parts are far from 64 bits and its
day has a date. -/
theorem addFixed_isSome (hv : v.InRange)
    (hyear : FitsYear ((v.year.toInt * 12 + (v.month.toNat - 1) + dur.months.toInt) / 12))
    (hafter : -2 ^ 41 ≤ v.daysAfter dur.months.toInt ∧ v.daysAfter dur.months.toInt ≤ 2 ^ 41)
    (hdays : -2 ^ 42 ≤ dur.days.toInt ∧ dur.days.toInt ≤ 2 ^ 42)
    (hseconds : -2 ^ 61 ≤ dur.seconds.toInt ∧ dur.seconds.toInt ≤ 2 ^ 61)
    (hnanos : -2 ^ 61 ≤ dur.nanoseconds.toInt ∧ dur.nanoseconds.toInt ≤ 2 ^ 61)
    {u : LoraDate} (hu : u.valid = true)
    (hday : u.toEpochDays = ((v.daysAfter dur.months.toInt + dur.days.toInt) * 86400 +
      (v.hour.toNat * 3600 + v.minute.toNat * 60 + v.second.toNat + dur.seconds.toInt) +
      (v.nanosecond.toNat + dur.nanoseconds.toInt) / 1000000000) / 86400) :
    ∃ w, v.addFixed dur = some w := by
  obtain ⟨hh, hm, hs⟩ := hv.2.1
  have hn := hv.2.2
  refine (addFixed_isSome_iff hv).mpr ⟨hyear, by omega, ?_, by omega, u, hu, hday⟩
  rw [daySeconds]
  omega

/-- The sum is at the second the duration leads to. -/
theorem addFixed_localSeconds (h : v.addFixed dur = some w) :
    w.localSeconds = v.secondAfter dur := by
  obtain ⟨hw, -, -, hmoved⟩ := addFixed_spec h
  have hn := hw.2.2
  simp only [NANOS] at hmoved
  rw [secondAfter]
  omega

variable {seconds : ℤ}

/-- Moving the wall clock by seconds leads to the second that far away. -/
theorem secondAfter_shift (hv : v.InRange) (hseconds : -2 ^ 33 ≤ seconds ∧ seconds ≤ 2 ^ 33) :
    v.secondAfter { LoraDuration.zero with seconds := .ofInt seconds } =
      v.localSeconds + seconds := by
  have hint : (Int64.ofInt seconds).toInt = seconds :=
    Int64.toInt_ofInt_of_le (by omega) (by omega)
  have hn := hv.2.2
  simp only [secondAfter, LoraDuration.zero, show (0 : Int64).toInt = 0 from rfl, hint,
    daysAfter_zero hv.1, localSeconds]
  omega

/-- Moving the wall clock by seconds only needs a day for where they lead. -/
theorem shiftLocalSeconds_isSome_iff (hv : v.InRange)
    (hseconds : -2 ^ 33 ≤ seconds ∧ seconds ≤ 2 ^ 33) :
    (∃ w, v.shiftLocalSeconds seconds = some w) ↔ OnCalendar (v.localSeconds + seconds) := by
  have hint : (Int64.ofInt seconds).toInt = seconds :=
    Int64.toInt_ofInt_of_le (by omega) (by omega)
  have hzero : (0 : Int64).toInt = 0 := rfl
  rw [shiftLocalSeconds, addFixed_isSome_iff hv, ← secondAfter_shift hv hseconds]
  refine ⟨Addable.date, fun hdate => ⟨?_, ?_, ?_, ?_, hdate⟩⟩
  · simp only [LoraDuration.zero, hzero, Int.add_zero, (sameMonth hv.1).1]
    exact v.date.fits_year
  · have hnear := toEpochDays_near hv.1
    simp only [LoraDuration.zero, hzero, daysAfter_zero hv.1]
    omega
  · obtain ⟨hh, hm, hs⟩ := hv.2.1
    simp only [hint, daySeconds]
    omega
  · have hn := hv.2.2
    simp only [LoraDuration.zero, hzero]
    omega

/-- A wall clock in the years of the database can be moved by some days. -/
theorem shiftLocalSeconds_isSome (hv : v.InRange)
    (hyear : -9999 ≤ v.year.toInt ∧ v.year.toInt ≤ 9999)
    (hseconds : -200000 ≤ seconds ∧ seconds ≤ 200000) :
    ∃ w, v.shiftLocalSeconds seconds = some w := by
  obtain ⟨hlow, hhigh⟩ := daysFromCivil_near (LoraDate.valid_iff.mp hv.1)
  have hday : v.date.toEpochDays = daysFromCivil v.date.year.toInt v.date.month.toNat
    v.date.day.toNat := rfl
  rw [← hday, show v.date.year = v.year from rfl] at hlow hhigh
  obtain ⟨hh, hm, hs⟩ := hv.2.1
  refine (shiftLocalSeconds_isSome_iff hv (by omega)).mpr (exists_date_near ?_)
  simp only [localSeconds, daySeconds]
  omega

/-! ### Resolving local times -/

theorem yearStart_edges : yearStart (-9999) = -4371587 ∧ yearStart 10000 = 2932897 := by decide

/-- The local seconds of the database's years, and of the years around them. -/
theorem localSeconds_year (hv : v.InRange) :
    (v.year.toInt < -9999 → v.localSeconds < TIMESTAMP_MIN - OFFSET_MAX) ∧
      (9999 < v.year.toInt → TIMESTAMP_MAX + OFFSET_MAX < v.localSeconds) ∧
      (-9999 ≤ v.year.toInt ∧ v.year.toInt ≤ 9999 → InDatabase v.localSeconds) := by
  obtain ⟨hdate, ⟨hh, hm, hs⟩, -⟩ := hv
  obtain ⟨y, hy⟩ : ∃ y, v.year.toInt = y := ⟨_, rfl⟩
  obtain ⟨hstart, hend⟩ := (LoraDate.year_iff hdate y).mp hy
  rw [hy]
  have hmono := fun {a b : ℤ} (h : a ≤ b) => yearStart_strictMono.monotone h
  simp only [localSeconds, InDatabase, TIMESTAMP_MIN, TIMESTAMP_MAX, OFFSET_MAX, daySeconds]
  refine ⟨fun hyear => ?_, fun hyear => ?_, fun ⟨hlow, hhigh⟩ => ?_⟩
  · have hbound := hmono (show y + 1 ≤ -9999 by omega)
    rw [yearStart_edges.1] at hbound
    omega
  · have hbound := hmono (show 10000 ≤ y by omega)
    rw [yearStart_edges.2] at hbound
    omega
  · have hbelow := hmono hlow
    have habove := hmono (show y + 1 ≤ 10000 by omega)
    rw [yearStart_edges.1] at hbelow
    rw [yearStart_edges.2] at habove
    omega

theorem asByte_eq {x : UInt32} (h : x.toNat < 128) : asByte x = x.toNat :=
  Int.bmod_eq_of_le_mul_two (by omega) (by omega)

variable {z : TimeZone}

theorem shows_iff {l : ℤ} {o : Int32} : Shows z.toOffset l o ↔ z.offsetAt (l - o.toInt) = o :=
  Iff.rfl

/-- An offset that shows anything is in range. -/
theorem shows_range {l : ℤ} {o : Int32} (h : Shows z.toOffset l o) :
    -OFFSET_MAX ≤ o.toInt ∧ o.toInt ≤ OFFSET_MAX := by
  have hrange := z.offset_range (max TIMESTAMP_MIN (min TIMESTAMP_MAX (l - o.toInt)))
  rwa [show z.toOffset (max TIMESTAMP_MIN (min TIMESTAMP_MAX (l - o.toInt))) = o from h] at hrange

/-- Every local time is resolved, also outside the years of the database. -/
theorem localOffset_resolves (hv : v.InRange) (z : TimeZone) : Resolves z.toOffset v.localSeconds
      (z.localOffset v.year v.month v.day v.hour v.minute v.second) := by
  obtain ⟨hbelow, habove, hinside⟩ := localSeconds_year hv
  obtain ⟨hdate, ⟨hh, hm, hs⟩, -⟩ := hv
  obtain ⟨hm1, hm12, hd1, hd⟩ := LoraDate.valid_iff.mp hdate
  simp only [date] at hm1 hm12 hd1 hd
  have hd31 := hd.trans (daysInMonth_eq ⟨hm1, hm12⟩ _)
  have hmonth : (asByte v.month).toNat = v.month.toNat := by
    rw [asByte_eq (by omega)]
    rfl
  have hday : (asByte v.day).toNat = v.day.toNat := by
    rw [asByte_eq (by split at hd31 <;> omega)]
    rfl
  have hedge : ∀ edge, (∀ o : Int32, (-OFFSET_MAX ≤ o.toInt ∧ o.toInt ≤ OFFSET_MAX) →
      z.offsetAt (v.localSeconds - o.toInt) = z.offsetAt edge) →
      Resolves z.toOffset v.localSeconds (.unique (z.offsetAt edge)) := fun edge hedge o =>
    ⟨fun hshows => (shows_iff.mp hshows).symm.trans (hedge o (shows_range hshows)), fun heq => by
      subst heq
      exact shows_iff.mpr (hedge _ (z.offset_range _))⟩
  simp only [TimeZone.localOffset, hmonth, hday, asByte_eq (show v.hour.toNat < 128 by omega),
    asByte_eq (show v.minute.toNat < 128 by omega), asByte_eq (show v.second.toNat < 128 by omega)]
  split
  · next hfits =>
    have hlocal : daysFromCivil v.year.toInt v.month.toNat v.day.toNat * 86400 +
        v.hour.toNat * 3600 + v.minute.toNat * 60 + v.second.toNat = v.localSeconds := by
      simp only [localSeconds, LoraDate.toEpochDays, date, daySeconds]
      omega
    rw [hlocal]
    exact z.resolves _ (hinside ⟨hfits.1, hfits.2.1⟩)
  · next hfits =>
    by_cases hyear : v.year.toInt < -9999
    · have hlow := hbelow hyear
      rw [if_pos (by omega)]
      refine hedge _ fun o ho => congrArg z.toOffset ?_
      simp only [TIMESTAMP_MIN, TIMESTAMP_MAX, OFFSET_MAX] at hlow ho ⊢
      omega
    · have hhigh := habove (by
        by_contra hnot
        exact hfits ⟨by omega, by omega, ⟨hm1, hm12, hd1, hd⟩, by omega, by omega, by omega⟩)
      rw [if_neg (by omega)]
      refine hedge _ fun o ho => congrArg z.toOffset ?_
      simp only [TIMESTAMP_MIN, TIMESTAMP_MAX, OFFSET_MAX] at hhigh ho ⊢
      omega

/-! ### Operations -/

variable {tz : ZoneId → TimeZone}

/-- The offset is the zone's at the instant. -/
def KeepsZone (tz : ZoneId → TimeZone) (v : LoraDateTime) : Prop :=
  ∀ zone, v.zone = some zone → v.offsetSeconds = (tz zone).offsetAt v.epochSeconds

variable {offset : Int32}

/-- What `new` accepts, and what it builds. -/
theorem new_eq {year : Int32} {month day hour minute second nanosecond : UInt32}
    (h : new year month day hour minute second nanosecond offset = .ok v) :
    v = ⟨year, month, day, hour, minute, second, nanosecond, offset, none⟩ ∧
      v.date.valid = true ∧ v.hour.toNat < 24 ∧ v.minute.toNat < 60 ∧ v.second.toNat < 60 := by
  unfold new at h
  cases hdate : LoraDate.new year month day with
  | error e =>
    rw [hdate] at h
    cases h
  | ok date =>
    rw [hdate] at h
    obtain ⟨rfl, hvalid⟩ := LoraDate.new_eq hdate
    change (if _ then _ else _) = _ at h
    split at h
    · cases h
    · split at h
      · cases h
      · split at h
        · cases h
        · obtain rfl := Except.ok.inj h
          exact ⟨rfl, hvalid, by simp only; omega, by simp only; omega, by simp only; omega⟩

theorem new_of_inRange (hv : v.InRange) (offset : Int32) :
    new v.year v.month v.day v.hour v.minute v.second v.nanosecond offset =
      .ok { v with offsetSeconds := offset, zone := none } := by
  obtain ⟨hdate, ⟨hh, hm, hs⟩, -⟩ := hv
  have hnew := LoraDate.new_of_valid hdate
  simp only [date] at hnew
  simp only [new, hnew, bind, Except.bind, if_neg (show ¬ 23 < v.hour.toNat by omega),
    if_neg (show ¬ 59 < v.minute.toNat by omega), if_neg (show ¬ 59 < v.second.toNat by omega)]

/-- Moving the wall clock by some seconds, of 64 bits. -/
theorem shiftLocalSeconds_spec (hv : v.InRange)
    (hseconds : -2 ^ 63 ≤ seconds ∧ seconds < 2 ^ 63) (h : v.shiftLocalSeconds seconds = some w) :
    w.InRange ∧ w.localSeconds = v.localSeconds + seconds ∧ w.nanosecond = v.nanosecond := by
  obtain ⟨hw, -, -, hmoved⟩ := addFixed_spec h
  have hint : (Int64.ofInt seconds).toInt = seconds :=
    Int64.toInt_ofInt_of_le hseconds.1 hseconds.2
  simp only [LoraDuration.zero, show (0 : Int64).toInt = 0 from rfl, hint, daysAfter_zero hv.1]
    at hmoved
  have hn := hv.2.2
  have hn' := hw.2.2
  have hlocal : w.localSeconds = v.localSeconds + seconds ∧
      w.nanosecond.toNat = v.nanosecond.toNat := by
    simp only [localSeconds, NANOS] at hmoved ⊢
    omega
  exact ⟨hw, hlocal.1, UInt32.toNat_inj.mp hlocal.2⟩

/-- Two offsets are never far apart. -/
theorem offset_sub_near (a b : Int32) :
    -2 ^ 33 ≤ a.toInt - b.toInt ∧ a.toInt - b.toInt ≤ 2 ^ 33 := by
  have ha := a.le_toInt
  have ha' := a.toInt_lt
  have hb := b.le_toInt
  have hb' := b.toInt_lt
  omega

theorem offset_sub (a b : Int32) : -2 ^ 63 ≤ a.toInt - b.toInt ∧ a.toInt - b.toInt < 2 ^ 63 := by
  have hnear := offset_sub_near a b
  omega

/-- `toOffset` keeps the instant. -/
theorem toOffset_spec (hv : v.InRange) (h : v.toOffset offset = some w) :
    w.InRange ∧ w.zone = none ∧ w.offsetSeconds = offset ∧
      w.epochSeconds = v.epochSeconds ∧ w.nanosecond = v.nanosecond := by
  obtain ⟨moved, hmoved, h⟩ := bind_eq_some_iff.mp h
  obtain rfl := Option.some.inj h
  obtain ⟨hin, hlocal, hnano⟩ := shiftLocalSeconds_spec hv (offset_sub _ _) hmoved
  refine ⟨hin, rfl, rfl, ?_, hnano⟩
  have hepoch : moved.localSeconds - offset.toInt = v.epochSeconds := by
    rw [hlocal, epochSeconds_eq]
    omega
  exact hepoch

variable {zone : ZoneId}

/-- `toZone` keeps the instant, at the offset the zone has then. -/
theorem toZone_spec (hv : v.InRange) (h : v.toZone tz zone = some w) :
    w.InRange ∧ w.KeepsZone tz ∧ w.zone = some zone ∧ w.epochSeconds = v.epochSeconds ∧
      w.nanosecond = v.nanosecond := by
  obtain ⟨moved, hmoved, h⟩ := bind_eq_some_iff.mp h
  obtain rfl := Option.some.inj h
  obtain ⟨hin, hlocal, hnano⟩ := shiftLocalSeconds_spec hv (offset_sub _ _) hmoved
  have hepoch : moved.localSeconds - ((tz zone).offsetAt v.epochSeconds).toInt =
      v.epochSeconds := by
    rw [hlocal, epochSeconds_eq]
    omega
  refine ⟨hin, fun zone' hzone => ?_, rfl, hepoch, hnano⟩
  obtain rfl := Option.some.inj hzone
  exact congrArg (tz zone).offsetAt hepoch.symm

/-- The wall clock is in a gap of the zone, which is as long as `length`. -/
def InGap (tz : ZoneId → TimeZone) (zone : ZoneId) (v : LoraDateTime) (length : ℤ) : Prop :=
  ∃ before after : Int32, length = after.toInt - before.toInt ∧ 0 < length ∧
    (tz zone).localOffset v.year v.month v.day v.hour v.minute v.second = .gap before after

/-- A local time at an offset that shows it. -/
theorem new_inZone {u : LoraDateTime} (hn : u.nanosecond.toNat < 1000000000)
    (h : (new u.year u.month u.day u.hour u.minute u.second u.nanosecond offset).map
      (fun v => { v with zone := some zone }) = .ok w) :
    u.InRange ∧ w = { u with offsetSeconds := offset, zone := some zone } := by
  cases hnew : new u.year u.month u.day u.hour u.minute u.second u.nanosecond offset with
  | error e =>
    rw [hnew] at h
    cases h
  | ok v =>
    rw [hnew] at h
    obtain rfl := Except.ok.inj h
    obtain ⟨rfl, hdate, hclock⟩ := new_eq hnew
    exact ⟨⟨hdate, hclock, hn⟩, rfl⟩

theorem keepsZone_of_shows (hzone : w.zone = some zone)
    (h : Shows (tz zone).toOffset w.localSeconds w.offsetSeconds) : w.KeepsZone tz := by
  intro zone' hzone'
  obtain rfl := Option.some.inj (hzone.symm.trans hzone')
  exact h.symm

/-- `inZone` gives the local time, or the one a gap later, at an offset the zone has then. -/
theorem inZone_spec {u : LoraDateTime} {prefer : Option Int32}
    (hn : u.nanosecond.toNat < 1000000000)
    (h : inZone tz u.date u.hour u.minute u.second u.nanosecond zone prefer = .ok w) :
    u.InRange ∧ w.InRange ∧ w.KeepsZone tz ∧ w.zone = some zone ∧ w.nanosecond = u.nanosecond ∧
      (w.localSeconds = u.localSeconds ∨
        ∃ length, InGap tz zone u length ∧ w.localSeconds = u.localSeconds + length) := by
  have hresolves := fun hu : u.InRange => localOffset_resolves hu (tz zone)
  unfold inZone at h
  simp only [date] at h
  split at h
  · next offset hlocal =>
    obtain ⟨hu, rfl⟩ := new_inZone hn h
    have hshows := hresolves hu
    rw [hlocal] at hshows
    exact ⟨hu, hu, keepsZone_of_shows rfl ((hshows offset).mpr rfl), rfl, rfl, Or.inl rfl⟩
  · next earlier later hlocal =>
    obtain ⟨hu, rfl⟩ := new_inZone hn h
    have hshows := hresolves hu
    rw [hlocal] at hshows
    refine ⟨hu, hu, keepsZone_of_shows rfl ((hshows.2 _).mpr ?_), rfl, rfl, Or.inl rfl⟩
    split
    · exact Or.inr rfl
    · exact Or.inl rfl
  · next before after hlocal =>
    cases hnew : new u.year u.month u.day u.hour u.minute u.second u.nanosecond before with
    | error e =>
      rw [hnew] at h
      cases h
    | ok v =>
      rw [hnew] at h
      obtain ⟨rfl, hdate, hclock⟩ := new_eq hnew
      have hu : u.InRange := ⟨hdate, hclock, hn⟩
      have hbefore : InRange ⟨u.year, u.month, u.day, u.hour, u.minute, u.second, u.nanosecond,
        before, none⟩ := hu
      have hshows := hresolves hu
      rw [hlocal] at hshows
      obtain ⟨hlt, -, hafter, -⟩ := hshows
      change (match shiftLocalSeconds _ _ with | none => _ | some moved => _) = _ at h
      split at h
      · cases h
      · next moved hmoved =>
        obtain rfl := Except.ok.inj h
        obtain ⟨hin, hseconds, hnano⟩ := shiftLocalSeconds_spec hbefore (offset_sub _ _) hmoved
        have hseconds : moved.localSeconds = u.localSeconds + (after.toInt - before.toInt) :=
          hseconds
        refine ⟨hu, hin, keepsZone_of_shows rfl ?_, rfl, hnano,
          Or.inr ⟨_, ⟨before, after, rfl, by omega, hlocal⟩, hseconds⟩⟩
        rw [← hseconds] at hafter
        exact hafter

/-- Gaps are in the years of the database. -/
theorem localOffset_gap {year : Int32} {month day hour minute second : UInt32}
    {before after : Int32}
    (h : z.localOffset year month day hour minute second = .gap before after) :
    -9999 ≤ year.toInt ∧ year.toInt ≤ 9999 := by
  unfold TimeZone.localOffset at h
  dsimp only at h
  split at h
  · next hfits => exact ⟨hfits.1, hfits.2.1⟩
  · cases h

/-- A date-time in range can be resolved in every zone. -/
theorem inZone_isOk {u : LoraDateTime} (hu : u.InRange) (zone : ZoneId) (prefer : Option Int32) :
    ∃ w, inZone tz u.date u.hour u.minute u.second u.nanosecond zone prefer = .ok w := by
  have hnew := new_of_inRange hu
  have hshows := localOffset_resolves hu (tz zone)
  unfold inZone
  simp only [date]
  split
  · exact ⟨_, by rw [hnew]; rfl⟩
  · exact ⟨_, by rw [hnew]; rfl⟩
  · next before after hlocal =>
    rw [hlocal] at hshows
    obtain ⟨-, -, hafter, hbefore⟩ := hshows
    have hwide := shows_range hafter
    have hwide' := shows_range hbefore
    have hyear := localOffset_gap hlocal
    simp only [OFFSET_MAX] at hwide hwide'
    obtain ⟨moved, hmoved⟩ := @shiftLocalSeconds_isSome
      { u with offsetSeconds := before, zone := none } (after.toInt - before.toInt) hu hyear
      (by omega)
    refine ⟨{ moved with offsetSeconds := after, zone := some zone }, ?_⟩
    rw [hnew]
    change (match shiftLocalSeconds _ _ with | none => _ | some moved => _) = _
    rw [hmoved]

/-- The instant, in whole seconds, that the clock part of a duration leads to. -/
def instantAfter (v : LoraDateTime) (dur : LoraDuration) : ℤ :=
  v.secondAfter dur.clock - v.offsetSeconds.toInt

/-- Where a duration can be added. Without a zone, all of it moves the wall clock. In a zone the
calendar part does; from there the clock part moves the instant, and the calendar must have the
second that the zone shows then. -/
def SumExists (tz : ZoneId → TimeZone) (v : LoraDateTime) (dur : LoraDuration) : Prop :=
  match v.zone with
  | none => v.Addable dur
  | some zone =>
    (dur.months = 0 ∧ dur.days = 0 ∨ v.Addable dur.calendar) ∧
    ∀ out, v.moveCalendar tz zone dur = some out → dur.seconds = 0 ∧ dur.nanoseconds = 0 ∨
      out.Addable dur.clock ∧
        OnCalendar (out.instantAfter dur + ((tz zone).offsetAt (out.instantAfter dur)).toInt)

/-- What holds of every date-time that is built. -/
def Good (tz : ZoneId → TimeZone) (v : LoraDateTime) : Prop := v.InRange ∧ v.KeepsZone tz

theorem good_of_zone_none (hv : v.InRange) (hzone : v.zone = none) : v.Good tz :=
  ⟨hv, fun zone hsome => by rw [hzone] at hsome; cases hsome⟩

/-- Setting the clock resolves the date-time again, which never fails. -/
theorem withClock_good (hv : v.InRange) {hour minute second nanosecond : UInt32}
    (hclock : hour.toNat < 24 ∧ minute.toNat < 60 ∧ second.toNat < 60)
    (hn : nanosecond.toNat < 1000000000) :
    (v.withClock tz hour minute second nanosecond).Good tz := by
  have hfixed : InRange { v with hour, minute, second, nanosecond } := ⟨hv.1, hclock, hn⟩
  unfold withClock
  dsimp only
  split
  · next zone hzone =>
    obtain ⟨w, hok⟩ : ∃ w, inZone tz v.date hour minute second nanosecond zone
      (some v.offsetSeconds) = .ok w := inZone_isOk hfixed zone _
    have hspec := inZone_spec (u := { v with hour, minute, second, nanosecond }) hn hok
    rw [hok]
    exact ⟨hspec.2.1, hspec.2.2.1⟩
  · next hzone => exact good_of_zone_none hfixed hzone

/-- The clock part of a duration, in nanoseconds. -/
def clockNanos (dur : LoraDuration) : ℤ := dur.seconds.toInt * NANOS + dur.nanoseconds.toInt

/-- The wall clock moved by months and days, but for a gap it would be in. -/
def MovesWallClock (tz : ZoneId → TimeZone) (v w : LoraDateTime) (months days : ℤ) : Prop :=
  w.nanosecond = v.nanosecond ∧ ∃ u : LoraDateTime, u.InRange ∧
    u.localSeconds = (v.daysAfter months + days) * 86400 + daySeconds v.hour v.minute v.second ∧
    (w.localSeconds = u.localSeconds ∨ ∃ zone length, v.zone = some zone ∧
      InGap tz zone u length ∧ w.localSeconds = u.localSeconds + length)

theorem movesWallClock_refl (hv : v.InRange) : MovesWallClock tz v v 0 0 :=
  ⟨rfl, v, hv, by rw [daysAfter_zero hv.1, localSeconds]; omega, Or.inl rfl⟩

/-- Without a zone, everything moves the wall clock. -/
theorem addFixed_calendar (hv : v.InRange) (hclock : dur.seconds = 0 ∧ dur.nanoseconds = 0)
    (h : v.addFixed dur = some w) : w.InRange ∧ w.nanosecond = v.nanosecond ∧
      w.localSeconds = (v.daysAfter dur.months.toInt + dur.days.toInt) * 86400 +
        daySeconds v.hour v.minute v.second := by
  obtain ⟨hw, -, -, hmoved⟩ := addFixed_spec h
  have hn := hv.2.2
  have hn' := hw.2.2
  rw [hclock.1, hclock.2, show (0 : Int64).toInt = 0 from rfl] at hmoved
  simp only [NANOS] at hmoved
  exact ⟨hw, UInt32.toNat_inj.mp (by omega), by omega⟩

/-- A clock part moves the instant. -/
theorem addFixed_clock (hv : v.InRange) (hcalendar : dur.months = 0 ∧ dur.days = 0)
    (h : v.addFixed dur = some w) : w.orderNanos = v.orderNanos + clockNanos dur := by
  obtain ⟨-, hoffset, -, hmoved⟩ := addFixed_spec h
  rw [hcalendar.1, hcalendar.2, show (0 : Int64).toInt = 0 from rfl, daysAfter_zero hv.1] at hmoved
  rw [orderNanos_eq, orderNanos_eq, epochSeconds_eq, epochSeconds_eq, hoffset, clockNanos]
  simp only [localSeconds, NANOS] at hmoved ⊢
  omega

/-- The calendar part in a zone. -/
theorem tryAddDuration_calendar (hv : v.Good tz) (hzone : v.zone = some zone)
    {moved : LoraDateTime} (hmoved : v.addFixed dur.calendar = some moved)
    (h : (inZone tz moved.date moved.hour moved.minute moved.second moved.nanosecond zone
      (some v.offsetSeconds)).toOption = some w) :
    w.Good tz ∧ w.zone = some zone ∧ MovesWallClock tz v w dur.months.toInt dur.days.toInt := by
  obtain ⟨hin, hnano, hlocal⟩ := addFixed_calendar hv.1 ⟨rfl, rfl⟩ hmoved
  cases hok : inZone tz moved.date moved.hour moved.minute moved.second moved.nanosecond zone
    (some v.offsetSeconds) with
  | error e =>
    rw [hok] at h
    cases h
  | ok w' =>
    rw [hok] at h
    obtain rfl := Option.some.inj h
    obtain ⟨-, hw, hkeeps, hzone', hnano', hshown⟩ := inZone_spec hin.2.2 hok
    refine ⟨⟨hw, hkeeps⟩, hzone', hnano'.trans hnano, moved, hin, hlocal, hshown.imp_right ?_⟩
    rintro ⟨length, hgap, hlength⟩
    exact ⟨zone, length, hzone, hgap, hlength⟩

/-- What `tryAddDuration` does: the calendar part moves the wall clock, and the clock part the
instant. -/
theorem tryAddDuration_spec (hv : v.Good tz) (h : v.tryAddDuration tz dur = some w) : w.Good tz ∧
      (dur.months = 0 ∧ dur.days = 0 → w.orderNanos = v.orderNanos + clockNanos dur) ∧
      (dur.seconds = 0 ∧ dur.nanoseconds = 0 →
        MovesWallClock tz v w dur.months.toInt dur.days.toInt) := by
  unfold tryAddDuration at h
  split at h
  · next hzone =>
    obtain ⟨hw, -, hzone', -⟩ := addFixed_spec h
    refine ⟨good_of_zone_none hw (hzone'.trans hzone), fun hcal => addFixed_clock hv.1 hcal h,
      fun hclock => ?_⟩
    obtain ⟨hin, hnano, hlocal⟩ := addFixed_calendar hv.1 hclock h
    exact ⟨hnano, w, hin, hlocal, Or.inl rfl⟩
  · next zone hzone =>
    obtain ⟨out, hout, h⟩ := bind_eq_some_iff.mp h
    -- The calendar part leaves a date-time of the zone, and itself where there is none.
    have hgood : out.Good tz ∧ (dur.months = 0 ∧ dur.days = 0 → out = v) ∧
        MovesWallClock tz v out dur.months.toInt dur.days.toInt := by
      unfold moveCalendar at hout
      split at hout
      · next hcal =>
        obtain ⟨moved, hmoved, hout⟩ := bind_eq_some_iff.mp hout
        obtain ⟨hgood, -, hmoves⟩ := tryAddDuration_calendar hv hzone hmoved hout
        exact ⟨hgood, fun hzero => absurd hcal (by simp [hzero]), hmoves⟩
      · next hcal =>
        obtain rfl := Option.some.inj hout
        obtain ⟨hmonths, hdays⟩ : dur.months = 0 ∧ dur.days = 0 := by simpa using hcal
        rw [hmonths, hdays]
        exact ⟨hv, fun _ => rfl, movesWallClock_refl hv.1⟩
    obtain ⟨hgood, hsame, hmoves⟩ := hgood
    unfold moveClock at h
    split at h
    · next hclock =>
      obtain ⟨moved, hmoved, h⟩ := bind_eq_some_iff.mp h
      have hin := (addFixed_spec hmoved).1
      obtain ⟨hw, hkeeps, -, hepoch, hnano⟩ := toZone_spec hin h
      refine ⟨⟨hw, hkeeps⟩, fun hcal => ?_, fun hzero => absurd hclock (by simp [hzero])⟩
      rw [orderNanos_eq, hepoch, hnano, ← orderNanos_eq, addFixed_clock hgood.1 ⟨rfl, rfl⟩ hmoved,
        hsame hcal]
      rfl
    · next hclock =>
      obtain rfl := Option.some.inj h
      refine ⟨hgood, fun hcal => ?_, fun _ => hmoves⟩
      obtain ⟨hseconds, hnanos⟩ : dur.seconds = 0 ∧ dur.nanoseconds = 0 := by simpa using hclock
      rw [hsame hcal, clockNanos, hseconds, hnanos]
      simp

/-- The negated parts of a duration. -/
theorem tryNegate_spec {negated : LoraDuration} (h : dur.tryNegate = some negated) :
    negated.months.toInt = -dur.months.toInt ∧ negated.days.toInt = -dur.days.toInt ∧
      clockNanos negated = -clockNanos dur ∧
      (dur.months = 0 ∧ dur.days = 0 → negated.months = 0 ∧ negated.days = 0) ∧
      (dur.seconds = 0 ∧ dur.nanoseconds = 0 → negated.seconds = 0 ∧ negated.nanoseconds = 0) := by
  obtain ⟨months, hmonths, h⟩ := bind_eq_some_iff.mp h
  obtain ⟨days, hdays, h⟩ := bind_eq_some_iff.mp h
  obtain ⟨seconds, hseconds, h⟩ := bind_eq_some_iff.mp h
  obtain ⟨nanos, hnanos, h⟩ := bind_eq_some_iff.mp h
  obtain rfl := Option.some.inj h
  have hint : ∀ {x y : ℤ}, checked x = some y → (Int64.ofInt y).toInt = x := by
    intro x y hx
    obtain ⟨rfl, hlow, hhigh⟩ := checked_some hx
    exact Int64.toInt_ofInt_of_le hlow hhigh
  have hzero : ∀ {a : Int64} {y : ℤ}, checked (-a.toInt) = some y → a = 0 → Int64.ofInt y = 0 := by
    rintro a y hy rfl
    obtain ⟨rfl, -⟩ := checked_some hy
    rfl
  refine ⟨hint hmonths, hint hdays, ?_, fun hcal => ⟨hzero hmonths hcal.1, hzero hdays hcal.2⟩,
    fun hclock => ⟨hzero hseconds hclock.1, hzero hnanos hclock.2⟩⟩
  rw [clockNanos, clockNanos, hint hseconds, hint hnanos]
  simp only [NANOS]
  omega

/-- Some steps give a result exactly when the first one does. -/
theorem exists_bind_some {β : Type} {o : Option α} {f : α → β} :
    (∃ b, (o >>= fun a => some (f a)) = some b) ↔ ∃ a, o = some a := by
  cases o <;> simp

/-- The same instant can be shown in a zone where the calendar has the second it shows. -/
theorem toZone_isSome_iff (hv : v.InRange) : (∃ w, v.toZone tz zone = some w) ↔
      OnCalendar (v.epochSeconds + ((tz zone).offsetAt v.epochSeconds).toInt) := by
  have hsum : v.localSeconds + (((tz zone).offsetAt v.epochSeconds).toInt -
      v.offsetSeconds.toInt) = v.epochSeconds + ((tz zone).offsetAt v.epochSeconds).toInt := by
    rw [epochSeconds_eq]
    omega
  rw [← hsum, ← shiftLocalSeconds_isSome_iff hv (offset_sub_near _ _)]
  exact exists_bind_some

/-- Another offset shows the instant if the calendar has its day there. -/
theorem toOffset_isSome_iff (hv : v.InRange) :
    (∃ w, v.toOffset offset = some w) ↔ OnCalendar (v.epochSeconds + offset.toInt) := by
  have hsum : v.localSeconds + (offset.toInt - v.offsetSeconds.toInt) =
      v.epochSeconds + offset.toInt := by
    rw [epochSeconds_eq]
    omega
  rw [← hsum, ← shiftLocalSeconds_isSome_iff hv (offset_sub_near _ _)]
  exact exists_bind_some

/-- The calendar part: what it needs, and that it leaves a date-time in range. A date-time in
range is resolved in every zone, so only the move can fail. -/
theorem moveCalendar_isSome_iff (hv : v.InRange) : ((∃ out, v.moveCalendar tz zone dur = some out) ↔
      dur.months = 0 ∧ dur.days = 0 ∨ v.Addable dur.calendar) ∧
    ∀ out, v.moveCalendar tz zone dur = some out → out.InRange := by
  by_cases hcal : dur.months = 0 ∧ dur.days = 0
  · rw [moveCalendar, if_neg (by simp [hcal])]
    exact ⟨⟨fun _ => .inl hcal, fun _ => ⟨v, rfl⟩⟩, fun out h => Option.some.inj h ▸ hv⟩
  · rw [moveCalendar, if_pos (not_and_or.mp hcal), ← addFixed_isSome_iff hv, or_iff_right hcal]
    cases hmoved : v.addFixed dur.calendar with
    | none => exact ⟨⟨nofun, nofun⟩, nofun⟩
    | some moved =>
      have hin := (addFixed_spec hmoved).1
      obtain ⟨w, hw⟩ := @inZone_isOk tz moved hin zone (some v.offsetSeconds)
      have hout := (inZone_spec hin.2.2 hw).2.1
      simp only [bind_eq_bind, bind_some, hw, Except.toOption]
      exact ⟨⟨fun _ => ⟨moved, rfl⟩, fun _ => ⟨w, rfl⟩⟩, fun out h => Option.some.inj h ▸ hout⟩

/-- The clock part needs a sum, and a second to show it at. -/
theorem moveClock_isSome_iff (hv : v.InRange) : (∃ w, v.moveClock tz zone dur = some w) ↔
      dur.seconds = 0 ∧ dur.nanoseconds = 0 ∨ v.Addable dur.clock ∧
        OnCalendar (v.instantAfter dur + ((tz zone).offsetAt (v.instantAfter dur)).toInt) := by
  by_cases hclock : dur.seconds = 0 ∧ dur.nanoseconds = 0
  · rw [moveClock, if_neg (by simp [hclock])]
    exact ⟨fun _ => .inl hclock, fun _ => ⟨v, rfl⟩⟩
  · rw [moveClock, if_pos (not_and_or.mp hclock), ← addFixed_isSome_iff hv, or_iff_right hclock]
    cases hmoved : v.addFixed dur.clock with
    | none => exact ⟨nofun, nofun⟩
    | some moved =>
      obtain ⟨hin, hoffset, -⟩ := addFixed_spec hmoved
      have hinstant : moved.epochSeconds = v.instantAfter dur := by
        rw [epochSeconds_eq, addFixed_localSeconds hmoved, hoffset, instantAfter]
      simp only [bind_eq_bind, bind_some]
      rw [toZone_isSome_iff hin, hinstant]
      exact ⟨fun h => ⟨⟨moved, rfl⟩, h⟩, fun h => h.2⟩

/-- A sum exists exactly where every part of it can be added. -/
theorem tryAddDuration_isSome_iff (hv : v.InRange) :
    (∃ w, v.tryAddDuration tz dur = some w) ↔ v.SumExists tz dur := by
  unfold tryAddDuration SumExists
  split
  · exact addFixed_isSome_iff hv
  · next zone hzone =>
    obtain ⟨hiff, hin⟩ := @moveCalendar_isSome_iff v dur tz zone hv
    rw [← hiff]
    cases hmoved : v.moveCalendar tz zone dur with
    | none => exact ⟨nofun, fun h => h.1.elim nofun⟩
    | some out =>
      simp only [bind_eq_bind, bind_some]
      rw [moveClock_isSome_iff (hin out hmoved)]
      refine ⟨fun h => ⟨⟨out, rfl⟩, ?_⟩, fun h => h.2 out rfl⟩
      rintro out' heq
      exact Option.some.inj heq ▸ h

/-- What is negated: every duration but those with a part that is the smallest number. -/
theorem tryNegate_isSome_iff : (∃ negated, dur.tryNegate = some negated) ↔
    dur.months ≠ Int64.minValue ∧ dur.days ≠ Int64.minValue ∧
      dur.seconds ≠ Int64.minValue ∧ dur.nanoseconds ≠ Int64.minValue := by
  have hpart : ∀ x : Int64, (-2 ^ 63 ≤ -x.toInt ∧ -x.toInt < 2 ^ 63) ↔ x ≠ Int64.minValue := by
    intro x
    have hlow := x.le_toInt
    have hhigh := x.toInt_lt
    rw [Ne, ← Int64.toInt_inj, show Int64.minValue.toInt = -2 ^ 63 from rfl]
    omega
  constructor
  · rintro ⟨negated, h⟩
    obtain ⟨months, hmonths, h⟩ := bind_eq_some_iff.mp h
    obtain ⟨days, hdays, h⟩ := bind_eq_some_iff.mp h
    obtain ⟨seconds, hseconds, h⟩ := bind_eq_some_iff.mp h
    obtain ⟨nanos, hnanos, -⟩ := bind_eq_some_iff.mp h
    exact ⟨(hpart _).mp (checked_some hmonths).2, (hpart _).mp (checked_some hdays).2,
      (hpart _).mp (checked_some hseconds).2, (hpart _).mp (checked_some hnanos).2⟩
  · rintro ⟨hmonths, hdays, hseconds, hnanos⟩
    rw [LoraDuration.tryNegate, checked_bind ((hpart _).mpr hmonths),
      checked_bind ((hpart _).mpr hdays), checked_bind ((hpart _).mpr hseconds),
      checked_bind ((hpart _).mpr hnanos)]
    exact ⟨_, rfl⟩

theorem clamp_inRange (offset : Int32) (dur : LoraDuration) :
    (clampDurationOverflow offset dur).InRange ∧
      (clampDurationOverflow offset dur).zone = none := by
  unfold clampDurationOverflow
  split <;> refine ⟨⟨?_, ?_, ?_⟩, rfl⟩ <;> simp only [date] <;> decide

/-! ### Every date-time that is built -/

variable {db : ZoneDb}

/-- The date-times the operations **build**, in any order. -/
inductive Built (tz : ZoneId → TimeZone) (db : ZoneDb) : LoraDateTime → Prop where
  | parse {s : Bytes} {v : LoraDateTime} (h : parse tz db s = some (.ok v)) : Built tz db v
  | inZone {date : LoraDate} {hour minute second nanosecond : UInt32} {zone : ZoneId}
      {prefer : Option Int32} {v : LoraDateTime} (hn : nanosecond.toNat < 1000000000)
      (h : inZone tz date hour minute second nanosecond zone prefer = .ok v) : Built tz db v
  | toZone {v w : LoraDateTime} {zone : ZoneId} (hv : Built tz db v)
      (h : v.toZone tz zone = some w) : Built tz db w
  | toOffset {v w : LoraDateTime} {offset : Int32} (hv : Built tz db v)
      (h : v.toOffset offset = some w) : Built tz db w
  | truncateToDay {v : LoraDateTime} (hv : Built tz db v) : Built tz db (v.truncateToDay tz)
  | truncateToHour {v : LoraDateTime} (hv : Built tz db v) : Built tz db (v.truncateToHour tz)
  | tryAdd {v w : LoraDateTime} {dur : LoraDuration} (hv : Built tz db v)
      (h : v.tryAddDuration tz dur = some w) : Built tz db w
  | trySub {v w : LoraDateTime} {dur : LoraDuration} (hv : Built tz db v)
      (h : v.trySubDuration tz dur = some w) : Built tz db w
  | add {v : LoraDateTime} (hv : Built tz db v) (dur : LoraDuration) :
      Built tz db (v.addDuration tz dur)

/-- What is read is in range, at an offset its zone has. -/
theorem parse_good {s : Bytes} (h : parse tz db s = some (.ok v)) : v.Good tz := by
  unfold parse at h
  split at h
  · cases h
  · next s' zone hsplit =>
    split at h
    · cases h
    · next timePart hT =>
      obtain ⟨date, -, h⟩ := bind_eq_some_iff.mp h
      have h := Option.some.inj h
      cases date with
      | error e => cases h
      | ok date =>
        cases htime : parseTimeString timePart with
        | error e =>
          rw [htime] at h
          cases h
        | ok fields =>
          rw [htime] at h
          obtain ⟨hour, minute, second, nanosecond, offset⟩ := fields
          have hn := parseTimeString_nanosecond htime
          cases zone with
          | none =>
            obtain ⟨rfl, hdate, hclock⟩ := new_eq h
            exact good_of_zone_none ⟨hdate, hclock, hn⟩ rfl
          | some zone =>
            cases offset with
            | none =>
              have hspec := inZone_spec
                (u := ⟨date.year, date.month, date.day, hour, minute, second, nanosecond, 0, none⟩)
                hn h
              exact ⟨hspec.2.1, hspec.2.2.1⟩
            | some offset =>
              change Except.bind (new date.year date.month date.day hour minute second nanosecond
                offset) _ = _ at h
              cases hnew : new date.year date.month date.day hour minute second nanosecond
                offset with
              | error e =>
                rw [hnew] at h
                cases h
              | ok u =>
                rw [hnew] at h
                change (if _ then _ else _) = _ at h
                split at h
                · cases h
                · next hshows =>
                  obtain rfl := Except.ok.inj h
                  obtain ⟨rfl, hdate, hclock⟩ := new_eq hnew
                  refine ⟨⟨hdate, hclock, hn⟩, fun zone' hzone => ?_⟩
                  obtain rfl := Option.some.inj hzone
                  exact (not_not.mp hshows).symm

theorem trySubDuration_spec (hv : v.Good tz) (h : v.trySubDuration tz dur = some w) : w.Good tz ∧
      (dur.months = 0 ∧ dur.days = 0 → w.orderNanos = v.orderNanos - clockNanos dur) ∧
      (dur.seconds = 0 ∧ dur.nanoseconds = 0 →
        MovesWallClock tz v w (-dur.months.toInt) (-dur.days.toInt)) := by
  obtain ⟨negated, hnegate, h⟩ := bind_eq_some_iff.mp h
  obtain ⟨hmonths, hdays, hclock, hcal, hzero⟩ := tryNegate_spec hnegate
  obtain ⟨hw, hinstant, hwall⟩ := tryAddDuration_spec hv h
  rw [hclock] at hinstant
  rw [hmonths, hdays] at hwall
  exact ⟨hw, fun h => hinstant (hcal h), fun h => hwall (hzero h)⟩

/-- Every operation keeps the fields in range and the offset the zone's: the run lemma. -/
theorem Built.good (hv : Built tz db v) : v.Good tz := by
  induction hv with
  | parse h => exact parse_good h
  | @inZone date hour minute second nanosecond zone prefer v hn h =>
    have hspec := inZone_spec
      (u := ⟨date.year, date.month, date.day, hour, minute, second, nanosecond, 0, none⟩) hn h
    exact ⟨hspec.2.1, hspec.2.2.1⟩
  | toZone hv h ih =>
    have hspec := toZone_spec ih.1 h
    exact ⟨hspec.1, hspec.2.1⟩
  | toOffset hv h ih =>
    have hspec := toOffset_spec ih.1 h
    exact good_of_zone_none hspec.1 hspec.2.1
  | truncateToDay hv ih => exact withClock_good ih.1 (by decide) (by decide)
  | truncateToHour hv ih =>
    exact withClock_good ih.1 ⟨ih.1.2.1.1, by decide, by decide⟩ (by decide)
  | tryAdd hv h ih => exact (tryAddDuration_spec ih h).1
  | trySub hv h ih => exact (trySubDuration_spec ih h).1
  | @add v hv dur ih =>
    unfold addDuration
    cases hsum : v.tryAddDuration tz dur with
    | none =>
      obtain ⟨hin, hzone⟩ := clamp_inRange v.offsetSeconds dur
      exact good_of_zone_none hin hzone
    | some w => exact (tryAddDuration_spec ih hsum).1

end Specs

/-! ### A zone with a gap -/

/-- Clocks go forward an hour at 01:00 UTC on 2026-03-29, for good. -/
def summerOffset (t : ℤ) : Int32 := if t < 1774746000 then 3600 else 7200

theorem shows_summerOffset (l : ℤ) (o : Int32) : Shows summerOffset l o ↔
    o = 3600 ∧ l < 1774749600 ∨ o = 7200 ∧ 1774753200 ≤ l := by
  have hwinter : (3600 : Int32).toInt = 3600 := by decide
  have hsummer : (7200 : Int32).toInt = 7200 := by decide
  have hmin : TIMESTAMP_MIN = -377705023201 := rfl
  have hmax : TIMESTAMP_MAX = 253402207200 := rfl
  unfold Shows summerOffset
  by_cases hbefore : max TIMESTAMP_MIN (min TIMESTAMP_MAX (l - o.toInt)) < 1774746000
  · rw [if_pos hbefore]
    constructor
    · rintro rfl
      exact Or.inl ⟨rfl, by omega⟩
    · rintro (⟨rfl, -⟩ | ⟨rfl, hl⟩)
      · rfl
      · omega
  · rw [if_neg hbefore]
    constructor
    · rintro rfl
      exact Or.inr ⟨rfl, by omega⟩
    · rintro (⟨rfl, hl⟩ | ⟨rfl, -⟩)
      · omega
      · rfl

def summerZone : TimeZone where
  toOffset := summerOffset
  toAmbiguous l :=
    if l < 1774749600 then .unique 3600
    else if l < 1774753200 then .gap 3600 7200
    else .unique 7200
  offset_range t := by
    unfold summerOffset
    split <;> decide
  resolves l _ := by
    have hlength : (7200 : Int32).toInt - (3600 : Int32).toInt = 3600 := by decide
    split
    · next hbefore =>
      refine fun o => (shows_summerOffset l o).trans ⟨?_, fun ho => Or.inl ⟨ho, hbefore⟩⟩
      rintro (⟨ho, -⟩ | ⟨-, hl⟩)
      · exact ho
      · omega
    · next hbefore =>
      split
      · next hgap =>
        refine ⟨by decide, fun o ho => ?_, ?_, ?_⟩
        · rcases (shows_summerOffset l o).mp ho with ⟨-, hl⟩ | ⟨-, hl⟩ <;> omega
        · exact (shows_summerOffset _ _).mpr (Or.inr ⟨rfl, by omega⟩)
        · exact (shows_summerOffset _ _).mpr (Or.inl ⟨rfl, by omega⟩)
      · next hgap =>
        refine fun o => (shows_summerOffset l o).trans ⟨?_, fun ho => Or.inr ⟨ho, by omega⟩⟩
        rintro (⟨-, hl⟩ | ⟨ho, -⟩)
        · omega
        · exact ho

/-- Every zone has the same clocks. -/
def summerZones : ZoneId → TimeZone := fun _ => summerZone

/-- The zone of the examples. -/
def summerId : ZoneId := ⟨1, by decide⟩

/-- Half past two a day before the clocks go forward. -/
def beforeGap : LoraDateTime := ⟨2026, 3, 28, 2, 30, 0, 0, 3600, some summerId⟩

/-- The last second of the last year. -/
def lastSecond : LoraDateTime :=
  ⟨Int32.maxValue, 12, 31, 23, 59, 59, 999999999, 7200, some summerId⟩

end LoraDateTime

end LoraDb
