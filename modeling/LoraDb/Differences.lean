import LoraDb.Zoned

/-!
# Differences of Temporals

What `temporal.between` and `duration.between` give for two dates and for two date-times, and when
it leads back: the first with the difference added is the second.

Dates are counted in months of their own lengths (`monthDay`), whose ends clamp the day. Of
date-times, months and days always reach the day that is a whole number of days away
(`completeEnd_eq`), at the time of day of the first; the rest moves the instant. So all depends on
whether the first, in its zone, still has its offset there (`KeepsOffset`).

## Main results

* `fullBetween_spec`: months, then days, then the time, each no further than the second.
* `adds_spec`: the instant of a sum whose months and days reach a day.
* `differences_iff`: when each of the four differences leads back.
-/

namespace LoraDb

/-! ### Adding to dates -/

namespace LoraDate

/-- Months by the calendar, then days. -/
def tryAddDuration (v : LoraDate) (dur : LoraDuration) : Option LoraDate := do
  let years ← checked (v.year.toInt * 12)
  let currentMonths ← checked (years + (v.month.toNat - 1))
  let totalMonths ← checked (currentMonths + dur.months.toInt)
  let year := totalMonths / 12
  if ¬ (-2 ^ 31 ≤ year ∧ year < 2 ^ 31) then none
  else
    let newMonth := (totalMonths % 12 + 1).toNat
    let newDay := min v.day.toNat (daysInMonth year newMonth)
    let epoch ← checked (daysFromCivil year newMonth newDay + dur.days.toInt)
    let (year, month, day) ← civilFromDaysChecked epoch
    some { year, month, day }

def clampDurationOverflow (dur : LoraDuration) : LoraDate :=
  if dur.months < 0 ∨ (dur.months = 0 ∧ dur.days < 0) then ⟨Int32.minValue, 1, 1⟩
  else ⟨Int32.maxValue, 12, 31⟩

def addDuration (v : LoraDate) (dur : LoraDuration) : LoraDate :=
  (v.tryAddDuration dur).getD (clampDurationOverflow dur)

end LoraDate

/-! ### `temporal.between` -/

namespace LoraDuration

/-- The whole months from a date to a later one, and the days left. -/
def monthsAndDays (earlier later : LoraDate) : ℤ × ℤ :=
  let months := (later.year.toInt - earlier.year.toInt) * 12 +
    ((later.month.toNat : ℤ) - earlier.month.toNat)
  -- Apply the months to the earlier date and check if that overshot.
  let intermediate := earlier.addDuration ⟨.ofInt months, 0, 0, 0⟩
  let months := if later.toEpochDays < intermediate.toEpochDays then months - 1 else months
  let intermediate := earlier.addDuration ⟨.ofInt months, 0, 0, 0⟩
  (months, later.toEpochDays - intermediate.toEpochDays)

/-- The duration between two dates in months and days: counted from the earlier, its sign
turned when that is the second. -/
def betweenDates (date1 date2 : LoraDate) : LoraDuration :=
  let forward := (date1.cmp date2).isLE
  let sign : ℤ := if forward then 1 else -1
  let counted := if forward then monthsAndDays date1 date2 else monthsAndDays date2 date1
  ⟨.ofInt (counted.1 * sign), .ofInt (counted.2 * sign), 0, 0⟩

end LoraDuration

/-- Milliseconds since 1970 in UTC. `none` is an overflow of 64 bits. -/
def LoraDateTime.toEpochMillis (v : LoraDateTime) : Option ℤ := do
  let millis ← checked (v.epochSeconds * 1000)
  checked (millis + v.nanosecond.toNat / 1000000)

namespace LoraDuration

/-- The duration between two date-times in days and seconds, through milliseconds. -/
def betweenDatetimes (v w : LoraDateTime) : Option LoraDuration := do
  let toMillis ← w.toEpochMillis
  let fromMillis ← v.toEpochMillis
  let msDiff ← checked (toMillis - fromMillis)
  let totalSecs := msDiff.tdiv 1000
  let remainingMs := msDiff.tmod 1000
  some ⟨0, .ofInt (totalSecs.tdiv 86400), .ofInt (totalSecs.tmod 86400),
    .ofInt (remainingMs * 1000000)⟩

end LoraDuration

/-! ### `duration.between` -/

structure Clock where
  hour : UInt32
  minute : UInt32
  second : UInt32
  nanosecond : UInt32

def NANOS_PER_DAY : ℤ := 86400 * NANOS

namespace Clock

def midnight : Clock := ⟨0, 0, 0, 0⟩

def nanosOfDay (c : Clock) : ℤ := daySeconds c.hour c.minute c.second * NANOS + c.nanosecond.toNat

/-- The clock of a nanosecond within a day. -/
def fromNanosOfDay (nanos : ℤ) : Clock :=
  let secs := nanos.tdiv NANOS
  { hour := .ofNat (secs / 3600).toNat
    minute := .ofNat (secs % 3600 / 60).toNat
    second := .ofNat (secs % 60).toNat
    nanosecond := .ofNat (nanos.tmod NANOS).toNat }

end Clock

/-- The components a temporal value has. -/
structure Parts where
  date : Option LoraDate
  clock : Option Clock
  offset : Option Int32
  zone : Option ZoneId

/-- The days of about 5.8 million years around 1970. -/
def dateFromEpochDays (days : ℤ) : Except String LoraDate :=
  if 2000000000 < days.natAbs then .error "date out of range" else .ok (.fromEpochDays days)

namespace Parts

def ofDate (v : LoraDate) : Parts := ⟨some v, none, none, none⟩

def ofDateTime (v : LoraDateTime) : Parts :=
  ⟨some v.date, some ⟨v.hour, v.minute, v.second, v.nanosecond⟩, some v.offsetSeconds, v.zone⟩

/-- A value moved to a fixed `offset`, keeping its instant. -/
def shiftTo (p : Parts) (offset : Int32) : Except String Parts :=
  match p.offset with
  | none => .ok { p with zone := none, offset := some offset }
  | some current =>
    let delta := (offset.toInt - current.toInt) * NANOS
    let nanos := (p.clock.getD Clock.midnight).nanosOfDay + delta
    let clock := p.clock.map fun _ => Clock.fromNanosOfDay (nanos % NANOS_PER_DAY)
    match p.date with
    | none => .ok { date := none, clock, offset := some offset, zone := none }
    | some date =>
      (dateFromEpochDays (date.toEpochDays + nanos / NANOS_PER_DAY)).map fun date =>
        { date := some date, clock, offset := some offset, zone := none }

end Parts

def DURATION_OUT_OF_RANGE : String := "duration out of range"

/-- A duration of months, days and nanoseconds, where each part fits. -/
def durationOf (months days nanos : ℤ) : Except String LoraDuration :=
  match checked months, checked days, checked (nanos.tdiv NANOS) with
  | some months, some days, some seconds =>
    .ok ⟨.ofInt months, .ofInt days, .ofInt seconds, .ofInt (nanos.tmod NANOS)⟩
  | _, _, _ => .error DURATION_OUT_OF_RANGE

/-- The second date, a day nearer the first when its time of day has not yet reached the
first's. -/
def completeEnd (start : LoraDate) (fromNod : ℤ) (finish : LoraDate) (toNod : ℤ) : ℤ :=
  if start.toEpochDays < finish.toEpochDays ∧ toNod < fromNod then finish.toEpochDays - 1
  else if finish.toEpochDays < start.toEpochDays ∧ fromNod < toNod then finish.toEpochDays + 1
  else finish.toEpochDays

/-- Months and days of a date in one number. -/
def packed (v : LoraDate) : ℤ := (v.year.toInt * 12 + v.month.toNat - 1) * 32 + v.day.toNat

def monthsUntil (start : LoraDate) (fromNod : ℤ) (finish : LoraDate) (toNod : ℤ) : ℤ :=
  (packed (.fromEpochDays (completeEnd start fromNod finish toNod)) - packed start).tdiv 32

def daysUntil (start : LoraDate) (fromNod : ℤ) (finish : LoraDate) (toNod : ℤ) : ℤ :=
  completeEnd start fromNod finish toNod - start.toEpochDays

/-- Months, then days, then the time. -/
def fullBetween (fromDate : LoraDate) (fromNod : ℤ) (toDate : LoraDate) (toNod : ℤ) :
    Except String LoraDuration :=
  let months := monthsUntil fromDate fromNod toDate toNod
  match checked months with
  | none => .error DURATION_OUT_OF_RANGE
  | some whole =>
    match fromDate.tryAddDuration ⟨.ofInt whole, 0, 0, 0⟩ with
    | none => .error DURATION_OUT_OF_RANGE
    | some shifted =>
      let days := daysUntil shifted fromNod toDate toNod
      let fromDay := shifted.toEpochDays + days
      durationOf months days ((toDate.toEpochDays - fromDay) * NANOS_PER_DAY + toNod - fromNod)

/-- What `duration.between` and its `in*` variants measure. -/
inductive Between where
  | full
  | months
  | days
  | seconds

/-- The duration between two values: with both zoned, the second is read at the first's
offset; a value without a time is at midnight. -/
def Parts.between (start finish : Parts) (what : Between) : Except String LoraDuration := do
  let finish ← match start.offset, finish.offset with
    | some offset, some _ => finish.shiftTo offset
    | _, _ => pure finish
  let fromNod := (start.clock.getD Clock.midnight).nanosOfDay
  let toNod := (finish.clock.getD Clock.midnight).nanosOfDay
  match start.date, finish.date with
  | some fromDate, some toDate =>
    let toDay := toDate.toEpochDays
    match what with
    | .months => durationOf (monthsUntil fromDate fromNod toDate toNod) 0 0
    | .days => durationOf 0 (daysUntil fromDate fromNod toDate toNod) 0
    | .seconds =>
      durationOf 0 0 ((toDay - fromDate.toEpochDays) * NANOS_PER_DAY + toNod - fromNod)
    | .full => fullBetween fromDate fromNod toDate toNod
  | _, _ =>
    match what with
    | .full | .seconds => durationOf 0 0 (toNod - fromNod)
    | .months | .days => .ok LoraDuration.zero

/-! ### Months of dates -/

/-- A day of a month, clamped to the month's length. -/
def monthDay (n : ℤ) (d : ℕ) : ℤ := min (monthStart n + d) (monthStart (n + 1))

theorem daysFromCivil_clamped (n : ℤ) (d : ℕ) : daysFromCivil (n / 12) (n % 12 + 1).toNat
      (min d (daysInMonth (n / 12) (n % 12 + 1).toNat)) = monthDay n d := by
  rw [daysFromCivil_day, ← monthStart, monthDay, monthStart_succ]
  push_cast
  omega

theorem monthDay_bounds (n : ℤ) {d : ℕ} (hd : 1 ≤ d) :
    monthStart n < monthDay n d ∧ monthDay n d ≤ monthStart (n + 1) := by
  have hlt := monthStart_strictMono (show n < n + 1 by omega)
  rw [monthDay]
  omega

theorem fitsYear_month {n : ℤ} : FitsYear (n / 12) ↔ -2 ^ 31 * 12 ≤ n ∧ n < 2 ^ 31 * 12 := by
  rw [FitsYear]
  omega

namespace LoraDate

variable {v u : LoraDate} {dur : LoraDuration}

theorem fits_month (hv : v.valid = true) : FitsYear (v.monthIndex / 12) := by
  obtain ⟨hm1, hm12, -⟩ := valid_iff.mp hv
  obtain ⟨hlow, hhigh⟩ := v.fits_year
  rw [fitsYear_month, monthIndex]
  omega

theorem toEpochDays_monthDay (hv : v.valid = true) :
    v.toEpochDays = monthDay v.monthIndex v.day.toNat := by
  obtain ⟨hdays, -, hend⟩ := toEpochDays_eq hv
  rw [monthDay]
  omega

/-- Days of months whose year fits are far from the ends of 64 bits. -/
theorem monthDay_range {n : ℤ} {d : ℕ} (hn : FitsYear (n / 12)) (hd : 1 ≤ d) :
    -2 ^ 40 ≤ monthDay n d ∧ monthDay n d ≤ 2 ^ 40 := by
  have hpos := @daysInMonth_pos (n / 12) (n % 12 + 1).toNat (by omega) (by omega)
  have hcivil : Civil (n / 12) (n % 12 + 1).toNat
      (min d (daysInMonth (n / 12) (n % 12 + 1).toNat)) :=
    ⟨by omega, by omega, by omega, by omega⟩
  obtain ⟨hlow, hhigh⟩ := LoraDateTime.daysFromCivil_near hcivil
  rw [daysFromCivil_clamped] at hlow hhigh
  obtain ⟨hy, hy'⟩ := hn
  omega

/-- The sum of a date and a duration: which date it is, where months stay in years that fit. -/
theorem tryAddDuration_eq_some (hv : v.valid = true)
    (hmonths : FitsYear ((v.monthIndex + dur.months.toInt) / 12))
    (hdays : -2 ^ 62 ≤ dur.days.toInt ∧ dur.days.toInt ≤ 2 ^ 62) :
    v.tryAddDuration dur = some u ↔ u.valid = true ∧
      u.toEpochDays = monthDay (v.monthIndex + dur.months.toInt) v.day.toNat + dur.days.toInt := by
  have hfits := fitsYear_month.mp hmonths
  have hyears := hmonths
  unfold FitsYear at hyears
  obtain ⟨-, hd1, -⟩ := toEpochDays_eq hv
  obtain ⟨hlow, hhigh⟩ := monthDay_range hmonths hd1
  obtain ⟨hy, hy'⟩ := v.fits_year
  have hindex : v.monthIndex = v.year.toInt * 12 + (v.month.toNat - 1) := rfl
  have hm := (valid_iff.mp hv).2.1
  unfold tryAddDuration
  rw [LoraDateTime.checked_bind, LoraDateTime.checked_bind, LoraDateTime.checked_bind, ← hindex]
  · simp only [daysFromCivil_clamped]
    rw [if_neg (not_not.mpr hyears), LoraDateTime.checked_bind ⟨by omega, by omega⟩]
    have hiff := civilFromDaysChecked_iff (v := u)
      (show -2 ^ 63 ≤ monthDay (v.monthIndex + dur.months.toInt) v.day.toNat + dur.days.toInt ∧
        monthDay (v.monthIndex + dur.months.toInt) v.day.toNat + dur.days.toInt < 2 ^ 63 by omega)
    rw [← hiff]
    constructor
    · intro h
      obtain ⟨⟨y, m, d⟩, hdate, h⟩ := Option.bind_eq_some_iff.mp h
      obtain rfl := Option.some.inj h
      exact hdate
    · intro h
      rw [h]
      rfl
  all_goals omega

/-- Months of a date that stay in years that fit. -/
theorem exists_monthDay {n : ℤ} {d : ℕ} (hn : FitsYear (n / 12)) (hd : 1 ≤ d) :
    ∃ u : LoraDate, u.valid = true ∧ u.toEpochDays = monthDay n d := by
  have hpos := @daysInMonth_pos (n / 12) (n % 12 + 1).toNat (by omega) (by omega)
  have hcivil : Civil (n / 12) (n % 12 + 1).toNat
      (min d (daysInMonth (n / 12) (n % 12 + 1).toNat)) :=
    ⟨by omega, by omega, by omega, by omega⟩
  obtain ⟨hvalid, hdays, -⟩ := fromEpochDays_of_civil hcivil hn
  exact ⟨_, hvalid, hdays.trans (daysFromCivil_clamped n d)⟩

/-- A day between two dates is a date. -/
theorem fromEpochDays_between {w : LoraDate} (hv : v.valid = true) (hw : w.valid = true) {e : ℤ}
    (hlow : v.toEpochDays ≤ e) (hhigh : e ≤ w.toEpochDays) :
    (fromEpochDays e).valid = true ∧ (fromEpochDays e).toEpochDays = e := by
  obtain ⟨y, m, d, hcivil, rfl⟩ := exists_civil e
  obtain ⟨hstart, hend⟩ := hcivil.year_iff.mp rfl
  obtain ⟨hvstart, -⟩ := (year_iff hv _).mp rfl
  obtain ⟨-, hwend⟩ := (year_iff hw _).mp rfl
  have hy := yearStart_strictMono.lt_iff_lt.mp (show yearStart v.year.toInt < yearStart (y + 1) by
    omega)
  have hy' := yearStart_strictMono.lt_iff_lt.mp (show yearStart y < yearStart (w.year.toInt + 1) by
    omega)
  have hv' := v.fits_year
  have hw' := w.fits_year
  rw [FitsYear] at hv' hw'
  obtain ⟨hvalid, hdays, -⟩ := fromEpochDays_of_civil hcivil ⟨by omega, by omega⟩
  exact ⟨hvalid, hdays⟩

/-- The date some whole months later, in the years between two dates. -/
theorem addMonths {n : ℤ} (hv : v.valid = true) (hn : FitsYear ((v.monthIndex + n) / 12)) :
    ∃ u, v.tryAddDuration ⟨.ofInt n, 0, 0, 0⟩ = some u ∧ u.valid = true ∧
      u.toEpochDays = monthDay (v.monthIndex + n) v.day.toNat := by
  have hint : (Int64.ofInt n).toInt = n := by
    have hfits := fitsYear_month.mp hn
    have hfits' := fitsYear_month.mp (fits_month hv)
    exact Int64.toInt_ofInt_of_le (by omega) (by omega)
  obtain ⟨u, hu, hdays⟩ := exists_monthDay hn (toEpochDays_eq hv).2.1
  have hzero : -2 ^ 62 ≤ (0 : Int64).toInt ∧ (0 : Int64).toInt ≤ 2 ^ 62 := by decide
  refine ⟨u, (tryAddDuration_eq_some hv ?_ hzero).mpr
    ⟨hu, ?_⟩, hu, hdays⟩
  · rwa [hint]
  · rw [hint, hdays]
    exact (Int.add_zero _).symm

theorem packed_eq (v : LoraDate) : packed v = v.monthIndex * 32 + v.day.toNat := by
  rw [packed, monthIndex]
  omega

theorem day_le (hv : v.valid = true) : v.day.toNat ≤ 31 := by
  obtain ⟨hm1, hm12, -, hd⟩ := valid_iff.mp hv
  refine (hd.trans (daysInMonth_eq ⟨hm1, hm12⟩ _)).trans ?_
  split <;> omega

/-- The months between two dates, of which one that is not complete does not count. -/
theorem months_tdiv {v w : LoraDate} (hv : v.valid = true) (hw : w.valid = true) {k : ℤ}
    (hk : k = (packed w - packed v).tdiv 32) :
    (v.toEpochDays ≤ w.toEpochDays → 0 ≤ k ∧
      k = w.monthIndex - v.monthIndex - if w.day.toNat < v.day.toNat then 1 else 0) ∧
    (w.toEpochDays ≤ v.toEpochDays → k ≤ 0 ∧
      k = w.monthIndex - v.monthIndex + if v.day.toNat < w.day.toNat then 1 else 0) := by
  obtain ⟨hvdays, hv1, hvend⟩ := toEpochDays_eq hv
  obtain ⟨hwdays, hw1, hwend⟩ := toEpochDays_eq hw
  have hv31 := day_le hv
  have hw31 := day_le hw
  have hmono := fun {i j : ℤ} (h : i ≤ j) => monthStart_strictMono.monotone h
  rw [packed_eq, packed_eq] at hk
  constructor
  · intro hle
    have hindex : v.monthIndex ≤ w.monthIndex := by
      by_contra hlt
      have hbefore := hmono (show w.monthIndex + 1 ≤ v.monthIndex by omega)
      omega
    have hsame : v.monthIndex = w.monthIndex → v.day.toNat ≤ w.day.toNat := by
      intro heq
      rw [heq] at hvdays
      omega
    rw [Int.tdiv_eq_ediv_of_nonneg (by omega)] at hk
    refine ⟨by omega, ?_⟩
    split <;> omega
  · intro hle
    have hindex : w.monthIndex ≤ v.monthIndex := by
      by_contra hlt
      have hbefore := hmono (show v.monthIndex + 1 ≤ w.monthIndex by omega)
      omega
    have hsame : v.monthIndex = w.monthIndex → w.day.toNat ≤ v.day.toNat := by
      intro heq
      rw [heq] at hvdays
      omega
    rw [← Int.neg_neg (w.monthIndex * 32 + w.day.toNat - (v.monthIndex * 32 + v.day.toNat)),
      Int.neg_tdiv, Int.tdiv_eq_ediv_of_nonneg (by omega)] at hk
    refine ⟨by omega, ?_⟩
    split <;> omega

/-- A month before another ends before its days. -/
theorem monthDay_lt {n n' : ℤ} {d d' : ℕ} (hd : 1 ≤ d) (hd' : 1 ≤ d') (h : n < n') :
    monthDay n d < monthDay n' d' := by
  have hmono := monthStart_strictMono.monotone (show n + 1 ≤ n' by omega)
  have hend := (monthDay_bounds n hd).2
  have hstart := (monthDay_bounds n' hd').1
  omega

theorem monthDay_mono {n n' : ℤ} {d d' : ℕ} (hd : 1 ≤ d) (hd' : 1 ≤ d')
    (h : n < n' ∨ n = n' ∧ d ≤ d') : monthDay n d ≤ monthDay n' d' := by
  rcases h with hn | ⟨rfl, hle⟩
  · exact (monthDay_lt hd hd' hn).le
  · rw [monthDay, monthDay]
    omega

/-- Whole months between two dates: no further than the second, and their sign. -/
theorem monthsBetween {w : LoraDate} (hv : v.valid = true) (hw : w.valid = true) {k : ℤ}
    (hk : k = (packed w - packed v).tdiv 32) :
    (v.toEpochDays ≤ w.toEpochDays → 0 ≤ k ∧ v.monthIndex + k ≤ w.monthIndex ∧
      v.toEpochDays ≤ monthDay (v.monthIndex + k) v.day.toNat ∧
      monthDay (v.monthIndex + k) v.day.toNat ≤ w.toEpochDays) ∧
    (w.toEpochDays ≤ v.toEpochDays → k ≤ 0 ∧ w.monthIndex ≤ v.monthIndex + k ∧
      monthDay (v.monthIndex + k) v.day.toNat ≤ v.toEpochDays ∧
      w.toEpochDays ≤ monthDay (v.monthIndex + k) v.day.toNat) := by
  obtain ⟨hforward, hback⟩ := months_tdiv hv hw hk
  have hv1 := (toEpochDays_eq hv).2.1
  have hw1 := (toEpochDays_eq hw).2.1
  have hvdays := toEpochDays_monthDay hv
  have hwdays := toEpochDays_monthDay hw
  constructor
  · intro hle
    obtain ⟨hpos, hmonths⟩ := hforward hle
    rw [hvdays, hwdays]
    refine ⟨hpos, ?_, monthDay_mono hv1 hv1 ?_, monthDay_mono hv1 hw1 ?_⟩ <;>
      split at hmonths <;> omega
  · intro hle
    obtain ⟨hneg, hmonths⟩ := hback hle
    rw [hvdays, hwdays]
    refine ⟨hneg, ?_, monthDay_mono hv1 hv1 ?_, monthDay_mono hw1 hv1 ?_⟩ <;>
      split at hmonths <;> omega

end LoraDate

/-! ### Between two dates -/

namespace LoraDuration

/-- No part of a duration has the other sign. -/
def HasSign (dur : LoraDuration) (delta : ℤ) : Prop :=
  ∀ x ∈ [dur.months, dur.days, dur.seconds, dur.nanoseconds],
    (0 < x.toInt → 0 < delta) ∧ (x.toInt < 0 → delta < 0)

theorem hasSign_iff {dur : LoraDuration} {delta : ℤ} : dur.HasSign delta ↔
    ((0 < dur.months.toInt → 0 < delta) ∧ (dur.months.toInt < 0 → delta < 0)) ∧
    ((0 < dur.days.toInt → 0 < delta) ∧ (dur.days.toInt < 0 → delta < 0)) ∧
    ((0 < dur.seconds.toInt → 0 < delta) ∧ (dur.seconds.toInt < 0 → delta < 0)) ∧
    ((0 < dur.nanoseconds.toInt → 0 < delta) ∧ (dur.nanoseconds.toInt < 0 → delta < 0)) := by
  simp [HasSign]

end LoraDuration

variable {fromNod toNod : ℤ}

/-- A day that is complete lies between the two, and the time left over has their sign. -/
theorem completeEnd_between {a b : LoraDate}
    (hfrom : 0 ≤ fromNod ∧ fromNod < NANOS_PER_DAY) (hto : 0 ≤ toNod ∧ toNod < NANOS_PER_DAY) :
    (a.toEpochDays < b.toEpochDays → a.toEpochDays ≤ completeEnd a fromNod b toNod ∧
      completeEnd a fromNod b toNod ≤ b.toEpochDays ∧
      0 ≤ (b.toEpochDays - completeEnd a fromNod b toNod) * NANOS_PER_DAY + toNod - fromNod) ∧
    (b.toEpochDays < a.toEpochDays → b.toEpochDays ≤ completeEnd a fromNod b toNod ∧
      completeEnd a fromNod b toNod ≤ a.toEpochDays ∧
      (b.toEpochDays - completeEnd a fromNod b toNod) * NANOS_PER_DAY + toNod - fromNod ≤ 0) ∧
    (a.toEpochDays = b.toEpochDays → completeEnd a fromNod b toNod = b.toEpochDays) := by
  simp only [NANOS_PER_DAY, NANOS] at hfrom hto ⊢
  simp only [completeEnd]
  refine ⟨fun h => ?_, fun h => ?_, fun h => ?_⟩ <;> split <;> omega

/-- A date on the way is as far from completing the second as the first is. -/
theorem completeEnd_onTheWay {a b u : LoraDate}
    (hforward : a.toEpochDays ≤ b.toEpochDays → u.toEpochDays ≤ completeEnd a fromNod b toNod)
    (hback : b.toEpochDays ≤ a.toEpochDays → completeEnd a fromNod b toNod ≤ u.toEpochDays) :
    completeEnd u fromNod b toNod = completeEnd a fromNod b toNod := by
  simp only [completeEnd] at hforward hback ⊢
  split at hforward <;> split at hback <;> split <;> omega

/-- A duration of nanoseconds has the sign they have, and is as long. -/
theorem durationOf_spec {months days nanos : ℤ} (hmonths : -2 ^ 62 ≤ months ∧ months ≤ 2 ^ 62)
    (hdays : -2 ^ 62 ≤ days ∧ days ≤ 2 ^ 62) (hnanos : -2 ^ 62 ≤ nanos ∧ nanos ≤ 2 ^ 62) :
    ∃ dur, durationOf months days nanos = .ok dur ∧ dur.months.toInt = months ∧
      dur.days.toInt = days ∧ dur.seconds.toInt * NANOS + dur.nanoseconds.toInt = nanos ∧
      (0 ≤ nanos → 0 ≤ dur.seconds.toInt ∧ 0 ≤ dur.nanoseconds.toInt) ∧
      (nanos ≤ 0 → dur.seconds.toInt ≤ 0 ∧ dur.nanoseconds.toInt ≤ 0) ∧
      (-NANOS < dur.nanoseconds.toInt ∧ dur.nanoseconds.toInt < NANOS) := by
  have hmod := Int.tdiv_mul_add_tmod nanos NANOS
  have hpos : 0 ≤ nanos → 0 ≤ nanos.tdiv NANOS ∧ 0 ≤ nanos.tmod NANOS := fun h =>
    ⟨Int.tdiv_nonneg h (by decide), Int.tmod_nonneg _ h⟩
  have hneg : nanos ≤ 0 → nanos.tdiv NANOS ≤ 0 ∧ nanos.tmod NANOS ≤ 0 := fun h => by
    have hdiv := Int.tdiv_nonneg (show 0 ≤ -nanos by omega) (show 0 ≤ NANOS by decide)
    have hrest := Int.tmod_nonneg NANOS (show 0 ≤ -nanos by omega)
    rw [Int.neg_tdiv] at hdiv
    rw [Int.neg_tmod] at hrest
    omega
  have hrange : -2 ^ 62 ≤ nanos.tdiv NANOS ∧ nanos.tdiv NANOS ≤ 2 ^ 62 ∧
      -2 ^ 62 ≤ nanos.tmod NANOS ∧ nanos.tmod NANOS ≤ 2 ^ 62 := by
    simp only [NANOS] at hmod hpos hneg ⊢
    rcases le_total 0 nanos with h | h
    · have hparts := hpos h
      omega
    · have hparts := hneg h
      omega
  have hint : ∀ {x : ℤ}, -2 ^ 62 ≤ x ∧ x ≤ 2 ^ 62 → (Int64.ofInt x).toInt = x := fun {x} h =>
    Int64.toInt_ofInt_of_le (by omega) (by omega)
  refine ⟨⟨.ofInt months, .ofInt days, .ofInt (nanos.tdiv NANOS), .ofInt (nanos.tmod NANOS)⟩, ?_,
    hint hmonths, hint hdays, ?_, ?_, ?_, ?_⟩
  · rw [durationOf, checked_eq (by omega), checked_eq (by omega), checked_eq (by omega)]
  · rw [hint ⟨hrange.1, hrange.2.1⟩, hint hrange.2.2]
    exact hmod
  · rw [hint ⟨hrange.1, hrange.2.1⟩, hint hrange.2.2]
    exact hpos
  · rw [hint ⟨hrange.1, hrange.2.1⟩, hint hrange.2.2]
    exact hneg
  · rw [hint hrange.2.2]
    have hlt := Int.tmod_lt_of_pos nanos (show 0 < NANOS by decide)
    exact ⟨Int.lt_tmod_of_pos nanos (by decide), hlt⟩

/-- The day and the nanoseconds a difference leaves: months, then days, reach the complete
day. -/
theorem fullBetween_spec {a b : LoraDate} (ha : a.valid = true) (hb : b.valid = true)
    (hfrom : 0 ≤ fromNod ∧ fromNod < NANOS_PER_DAY)
    (hto : 0 ≤ toNod ∧ toNod < NANOS_PER_DAY) :
    ∃ dur, fullBetween a fromNod b toNod = .ok dur ∧
      FitsYear ((a.monthIndex + dur.months.toInt) / 12) ∧
      (-2 ^ 42 ≤ dur.days.toInt ∧ dur.days.toInt ≤ 2 ^ 42) ∧
      monthDay (a.monthIndex + dur.months.toInt) a.day.toNat + dur.days.toInt =
        completeEnd a fromNod b toNod ∧
      dur.seconds.toInt * NANOS + dur.nanoseconds.toInt =
        (b.toEpochDays - completeEnd a fromNod b toNod) * NANOS_PER_DAY + toNod - fromNod ∧
      (-2 ^ 32 ≤ dur.seconds.toInt ∧ dur.seconds.toInt ≤ 2 ^ 32) ∧
      (-2 ^ 32 ≤ dur.nanoseconds.toInt ∧ dur.nanoseconds.toInt ≤ 2 ^ 32) ∧
      dur.HasSign ((b.toEpochDays - a.toEpochDays) * NANOS_PER_DAY + toNod - fromNod) := by
  obtain ⟨hforward, hback, hsame⟩ := @completeEnd_between fromNod toNod a b hfrom hto
  obtain ⟨e, he⟩ : ∃ e, completeEnd a fromNod b toNod = e := ⟨_, rfl⟩
  rw [he] at hforward hback hsame ⊢
  -- The complete day has a date.
  have hdate : (LoraDate.fromEpochDays e).valid = true ∧
      (LoraDate.fromEpochDays e).toEpochDays = e := by
    rcases lt_trichotomy a.toEpochDays b.toEpochDays with h | h | h
    · exact LoraDate.fromEpochDays_between ha hb (hforward h).1 (hforward h).2.1
    · exact LoraDate.fromEpochDays_between hb hb (hsame h).ge (hsame h).le
    · exact LoraDate.fromEpochDays_between hb ha (hback h).1 (hback h).2.1
  obtain ⟨k, hk⟩ : ∃ k, monthsUntil a fromNod b toNod = k := ⟨_, rfl⟩
  have hbetween := LoraDate.monthsBetween ha hdate.1 (k := k) (by rw [← hk, monthsUntil, he])
  rw [hdate.2] at hbetween
  have hfits : FitsYear ((a.monthIndex + k) / 12) := by
    have hfa := fitsYear_month.mp (LoraDate.fits_month ha)
    have hfe := fitsYear_month.mp (LoraDate.fits_month hdate.1)
    refine fitsYear_month.mpr ?_
    rcases le_total a.toEpochDays e with h | h
    · have hmonths := hbetween.1 h
      omega
    · have hmonths := hbetween.2 h
      omega
  obtain ⟨u, hshifted, hu, hudays⟩ := LoraDate.addMonths ha hfits
  have hclose : completeEnd u fromNod b toNod = e := by
    rw [← he]
    rw [← hudays] at hbetween
    refine completeEnd_onTheWay (fun h => ?_) (fun h => ?_)
    · rw [he]
      exact (hbetween.1 (by omega)).2.2.2
    · rw [he]
      exact (hbetween.2 (by omega)).2.2.2
  have hrange := LoraDate.monthDay_range hfits (LoraDate.toEpochDays_eq ha).2.1
  have hrange' := LoraDate.monthDay_range (LoraDate.fits_month hdate.1)
    (LoraDate.toEpochDays_eq hdate.1).2.1
  rw [← hudays] at hrange
  rw [← LoraDate.toEpochDays_monthDay hdate.1, hdate.2] at hrange'
  have hmonths : -2 ^ 62 ≤ k ∧ k ≤ 2 ^ 62 := by
    have hfa := fitsYear_month.mp (LoraDate.fits_month ha)
    have hfk := fitsYear_month.mp hfits
    omega
  obtain ⟨nanos, hnanos⟩ : ∃ nanos,
    (b.toEpochDays - e) * NANOS_PER_DAY + toNod - fromNod = nanos := ⟨_, rfl⟩
  have hlen : -2 ^ 62 ≤ nanos ∧ nanos ≤ 2 ^ 62 := by
    simp only [completeEnd] at he
    simp only [NANOS_PER_DAY, NANOS] at hnanos hfrom hto
    split at he <;> omega
  obtain ⟨dur, hdur, hdmonths, hddays, hdnanos, hpos, hneg, hsmall⟩ :=
    @durationOf_spec k (e - u.toEpochDays) nanos hmonths (by omega) hlen
  refine ⟨dur, ?_, by rwa [hdmonths], by omega, ?_, by rw [hdnanos, hnanos], ?_, ?_, ?_⟩
  · have hchecked : checked k = some k := checked_eq (by omega)
    have hfrom : b.toEpochDays - (u.toEpochDays + (e - u.toEpochDays)) = b.toEpochDays - e := by
      omega
    unfold fullBetween
    simp only [hk, hchecked, hshifted, daysUntil, hclose, hfrom]
    rw [hnanos]
    exact hdur
  · rw [hdmonths, hddays, hudays]
    omega
  · have hday : -NANOS_PER_DAY ≤ nanos ∧ nanos ≤ NANOS_PER_DAY := by
      simp only [completeEnd] at he
      simp only [NANOS_PER_DAY, NANOS] at hnanos hfrom hto ⊢
      split at he <;> omega
    simp only [NANOS_PER_DAY, NANOS] at hday hdnanos hsmall
    omega
  · simp only [NANOS] at hsmall
    omega
  · rw [LoraDuration.hasSign_iff, hdmonths, hddays]
    simp only [NANOS_PER_DAY, NANOS] at hnanos hforward hback hfrom hto ⊢
    rcases lt_trichotomy a.toEpochDays b.toEpochDays with h | h | h
    · obtain ⟨hstart, -, hleft⟩ := hforward h
      obtain ⟨hk0, -, -, hu0⟩ := hbetween.1 hstart
      have hparts := hpos (by omega)
      omega
    · have hend := hsame h
      obtain ⟨hk0, -, -, hu0⟩ := hbetween.1 (by omega)
      obtain ⟨hk0', -, -, hu0'⟩ := hbetween.2 (by omega)
      rcases le_total 0 nanos with hn | hn
      · have hparts := hpos hn
        omega
      · have hparts := hneg hn
        omega
    · obtain ⟨-, hstart, hleft⟩ := hback h
      obtain ⟨hk0, -, -, hu0⟩ := hbetween.2 hstart
      have hparts := hneg (by omega)
      omega

/-- A difference of dates is right: added back it gives the second. -/
def DateDifference (a b : LoraDate) (dur : LoraDuration) : Prop :=
  a.tryAddDuration dur = some b ∧ dur.HasSign (b.toEpochDays - a.toEpochDays)

namespace LoraDate

variable {a b : LoraDate}

theorem between_ofDate_eq (a b : LoraDate) :
    Parts.between (.ofDate a) (.ofDate b) .full = fullBetween a 0 b 0 := by
  have hmidnight : Clock.midnight.nanosOfDay = 0 := by decide
  change fullBetween a Clock.midnight.nanosOfDay b Clock.midnight.nanosOfDay = _
  rw [hmidnight]

/-- `duration.between` of two dates is always right. -/
theorem between_ofDate (ha : a.valid = true) (hb : b.valid = true) :
    ∃ dur, Parts.between (.ofDate a) (.ofDate b) .full = .ok dur ∧ DateDifference a b dur := by
  have hzero : (0 : ℤ) ≤ 0 ∧ (0 : ℤ) < NANOS_PER_DAY := by decide
  obtain ⟨dur, hdur, hfits, hdays, hsum, -, -, -, hsign⟩ := fullBetween_spec ha hb hzero hzero
  have hend : completeEnd a 0 b 0 = b.toEpochDays := by
    simp only [completeEnd]
    split <;> omega
  refine ⟨dur, (between_ofDate_eq a b).trans hdur,
    (tryAddDuration_eq_some ha hfits (by omega)).mpr ⟨hb, ?_⟩, ?_⟩
  · rw [hsum, hend]
  · rw [LoraDuration.hasSign_iff] at hsign ⊢
    simp only [NANOS_PER_DAY, NANOS] at hsign
    omega

/-- The days of a month. -/
def monthLength (n : ℤ) : ℕ := daysInMonth (n / 12) (n % 12 + 1).toNat

/-- Counted from the earlier date and taken from the later, months and days lead back: where
no month on the way is too short for the day of the other. -/
def LeadsBack (a b : LoraDate) : Prop :=
  if min b.day.toNat (monthLength a.monthIndex) ≤ a.day.toNat then
    b.day.toNat ≤ monthLength a.monthIndex ∧ a.day.toNat ≤ monthLength b.monthIndex
  else
    ((a.day.toNat : ℤ) - min a.day.toNat (monthLength (b.monthIndex + 1))) +
        ((b.day.toNat : ℤ) - min b.day.toNat (monthLength (a.monthIndex - 1))) =
      (monthLength b.monthIndex : ℤ) - monthLength (a.monthIndex - 1)

instance (a b : LoraDate) : Decidable (LeadsBack a b) := by
  unfold LeadsBack
  infer_instance

/-- Adding whole months with the date they reach. -/
theorem addDuration_months {n : ℤ} (ha : a.valid = true) (hn : FitsYear ((a.monthIndex + n) / 12)) :
    (a.addDuration ⟨.ofInt n, 0, 0, 0⟩).toEpochDays = monthDay (a.monthIndex + n) a.day.toNat := by
  obtain ⟨u, hu, -, hdays⟩ := addMonths ha hn
  rw [addDuration, hu, Option.getD_some, hdays]

/-- What is counted from the earlier date: the last month only when it is complete. -/
theorem monthsAndDays_spec (ha : a.valid = true) (hb : b.valid = true)
    (hle : a.toEpochDays ≤ b.toEpochDays) {months days : ℤ}
    (h : LoraDuration.monthsAndDays a b = (months, days)) :
    0 ≤ months ∧ (0 ≤ days ∧ days ≤ 2 ^ 41) ∧ a.monthIndex + months ≤ b.monthIndex ∧
      monthDay (a.monthIndex + months) a.day.toNat + days = b.toEpochDays ∧
      months = b.monthIndex - a.monthIndex -
        (if min a.day.toNat (monthLength b.monthIndex) ≤ b.day.toNat then 0 else 1) := by
  obtain ⟨hadays, ha1, haend⟩ := toEpochDays_eq ha
  obtain ⟨hbdays, hb1, hbend⟩ := toEpochDays_eq hb
  have hfa := fits_month ha
  have hfb := fits_month hb
  have hspan : (b.year.toInt - a.year.toInt) * 12 + ((b.month.toNat : ℤ) - a.month.toNat) =
      b.monthIndex - a.monthIndex := by
    rw [monthIndex, monthIndex]
    omega
  have hsucc : monthStart (b.monthIndex + 1) = monthStart b.monthIndex + monthLength b.monthIndex :=
    monthStart_succ _
  have hwhole := addDuration_months (n := b.monthIndex - a.monthIndex) ha
    (by rwa [show a.monthIndex + (b.monthIndex - a.monthIndex) = b.monthIndex by omega])
  rw [show a.monthIndex + (b.monthIndex - a.monthIndex) = b.monthIndex by omega] at hwhole
  unfold LoraDuration.monthsAndDays at h
  simp only [hspan, hwhole] at h
  have hindex : a.monthIndex ≤ b.monthIndex := by
    by_contra hlt
    have hbefore := monthStart_strictMono.monotone (show b.monthIndex + 1 ≤ a.monthIndex by omega)
    omega
  have hrange := monthDay_range hfb hb1
  rw [← toEpochDays_monthDay hb] at hrange
  by_cases hover : b.toEpochDays < monthDay b.monthIndex a.day.toNat
  · simp only [if_pos hover] at h
    have hlt : a.monthIndex < b.monthIndex := by
      refine lt_of_le_of_ne hindex fun heq => ?_
      rw [← heq, ← toEpochDays_monthDay ha] at hover
      omega
    have hprev : a.monthIndex + (b.monthIndex - a.monthIndex - 1) = b.monthIndex - 1 := by omega
    have hfits : FitsYear ((b.monthIndex - 1) / 12) := by
      rw [fitsYear_month] at hfa hfb ⊢
      omega
    have hshort := addDuration_months (n := b.monthIndex - a.monthIndex - 1) ha (by rwa [hprev])
    rw [hprev] at hshort
    rw [hshort] at h
    obtain ⟨rfl, rfl⟩ := Prod.mk.inj h
    have hrange' := monthDay_range hfits ha1
    have hend := (monthDay_bounds (b.monthIndex - 1) ha1).2
    rw [Int.sub_add_cancel] at hend
    rw [hprev]
    refine ⟨by omega, ⟨by omega, by omega⟩, by omega, by omega, ?_⟩
    rw [monthDay, hsucc] at hover
    rw [if_neg (by omega)]
  · simp only [if_neg hover] at h
    rw [hwhole] at h
    obtain ⟨rfl, rfl⟩ := Prod.mk.inj h
    have hrange' := monthDay_range hfb ha1
    rw [show a.monthIndex + (b.monthIndex - a.monthIndex) = b.monthIndex by omega]
    refine ⟨by omega, ⟨by omega, by omega⟩, by omega, by omega, ?_⟩
    rw [monthDay, hsucc] at hover
    rw [if_pos (by omega), Int.sub_zero]

/-- Months and days that count something are between different dates. -/
theorem counted_lt (ha : a.valid = true) {months days : ℤ} (hmonths : 0 ≤ months)
    (hsum : monthDay (a.monthIndex + months) a.day.toNat + days = b.toEpochDays) (hdays : 0 ≤ days)
    (hpos : 0 < months ∨ 0 < days) : a.toEpochDays < b.toEpochDays := by
  have ha1 := (toEpochDays_eq ha).2.1
  rw [toEpochDays_monthDay ha]
  rcases hmonths.eq_or_lt with rfl | hlt
  · rw [Int.add_zero] at hsum
    omega
  · have hafter := monthDay_lt ha1 ha1 (show a.monthIndex < a.monthIndex + months by omega)
    omega

/-- From the later date back by whole months: nothing is lost when no month is too short. -/
theorem whole_back {p q days : ℤ} {d e l m : ℕ} (hsum : min (q + e) (q + m) + days = q + d) :
    p + e = min (p + d) (p + l) - days ↔ e ≤ m ∧ d ≤ l := by
  omega

/-- From the later date back, the last month not complete: what the two short months cost is the
difference of the months between. -/
theorem short_back {p q days : ℤ} {d e k l m : ℕ} (hsum : min (q + e) (q + m) + days = q + m + d) :
    p + e = min (p + l + d) (p + l + k) - days ↔
      ((d : ℤ) - min d k) + ((e : ℤ) - min e m) = (l : ℤ) - m := by
  omega

/-- Between dates in order it is right, and against it where months and days lead back. -/
theorem betweenDates_iff (ha : a.valid = true) (hb : b.valid = true) :
    DateDifference a b (LoraDuration.betweenDates a b) ↔
      a.toEpochDays ≤ b.toEpochDays ∨ LeadsBack a b := by
  have hforward : (a.cmp b).isLE = true ↔ a.toEpochDays ≤ b.toEpochDays := by
    rw [cmp_eq ha hb, Int.isLE_compare]
  have hint : ∀ {x : ℤ}, -2 ^ 42 ≤ x ∧ x ≤ 2 ^ 42 → (Int64.ofInt x).toInt = x := fun {x} h =>
    Int64.toInt_ofInt_of_le (by omega) (by omega)
  have hfa := fits_month ha
  have hfb := fits_month hb
  have hfa' := fitsYear_month.mp hfa
  have hfb' := fitsYear_month.mp hfb
  by_cases hle : a.toEpochDays ≤ b.toEpochDays
  · obtain ⟨⟨months, days⟩, hcounted⟩ : ∃ p, LoraDuration.monthsAndDays a b = p := ⟨_, rfl⟩
    obtain ⟨hpos, hdays, hindex, hsum, -⟩ := monthsAndDays_spec ha hb hle hcounted
    have hmonths : (Int64.ofInt (months * 1)).toInt = months := by
      rw [Int.mul_one]
      exact hint (by omega)
    have hdays' : (Int64.ofInt (days * 1)).toInt = days := by
      rw [Int.mul_one]
      exact hint (by omega)
    simp only [LoraDuration.betweenDates, if_pos (hforward.mpr hle), hcounted]
    refine ⟨fun _ => Or.inl hle, fun _ => ⟨(tryAddDuration_eq_some ha ?_ ?_).mpr ⟨hb, ?_⟩, ?_⟩⟩
    · rw [hmonths, fitsYear_month]
      omega
    · rw [hdays']
      omega
    · rw [hmonths, hdays', hsum]
    · rw [LoraDuration.hasSign_iff, hmonths, hdays']
      have hlt := counted_lt ha hpos hsum hdays.1
      simp only [show (0 : Int64).toInt = 0 from rfl]
      omega
  · have hle' : b.toEpochDays ≤ a.toEpochDays := by omega
    obtain ⟨⟨months, days⟩, hcounted⟩ : ∃ p, LoraDuration.monthsAndDays b a = p := ⟨_, rfl⟩
    obtain ⟨hpos, hdays, hindex, hsum, hspan⟩ := monthsAndDays_spec hb ha hle' hcounted
    have hmonths : (Int64.ofInt (months * -1)).toInt = -months := by
      rw [Int.mul_neg_one]
      exact hint (by omega)
    have hdays' : (Int64.ofInt (days * -1)).toInt = -days := by
      rw [Int.mul_neg_one]
      exact hint (by omega)
    obtain ⟨hadays, ha1, haend⟩ := toEpochDays_eq ha
    obtain ⟨hbdays, hb1, hbend⟩ := toEpochDays_eq hb
    have hsign : LoraDuration.HasSign ⟨.ofInt (months * -1), .ofInt (days * -1), 0, 0⟩
        (b.toEpochDays - a.toEpochDays) := by
      rw [LoraDuration.hasSign_iff, hmonths, hdays']
      simp only [show (0 : Int64).toInt = 0 from rfl]
      omega
    have hback : a.tryAddDuration ⟨.ofInt (months * -1), .ofInt (days * -1), 0, 0⟩ = some b ↔
        b.toEpochDays = monthDay (a.monthIndex - months) a.day.toNat - days := by
      rw [tryAddDuration_eq_some ha (by rw [hmonths, fitsYear_month]; omega)
        (by rw [hdays']; omega), hmonths, hdays', ← Int.sub_eq_add_neg, ← Int.sub_eq_add_neg]
      exact and_iff_right hb
    simp only [LoraDuration.betweenDates, if_neg (mt hforward.mp hle), hcounted]
    rw [DateDifference, and_iff_left hsign, hback, or_iff_right hle, LeadsBack]
    have hlen : ∀ n, monthStart (n + 1) = monthStart n + monthLength n := fun n => monthStart_succ n
    by_cases hcomplete : min b.day.toNat (monthLength a.monthIndex) ≤ a.day.toNat
    · rw [if_pos hcomplete] at hspan ⊢
      have hnb : a.monthIndex - months = b.monthIndex := by omega
      have hna : b.monthIndex + months = a.monthIndex := by omega
      rw [hna, monthDay, hlen, hadays] at hsum
      rw [hnb, monthDay, hlen, hbdays]
      exact whole_back hsum
    · rw [if_neg hcomplete] at hspan ⊢
      have hnb : a.monthIndex - months = b.monthIndex + 1 := by omega
      have hna : b.monthIndex + months = a.monthIndex - 1 := by omega
      have hlast := hlen (a.monthIndex - 1)
      rw [Int.sub_add_cancel] at hlast
      have hnext := hlen b.monthIndex
      rw [hna, monthDay, Int.sub_add_cancel, hlast, hadays, hlast] at hsum
      rw [hnb, monthDay, hlen (b.monthIndex + 1), hnext, hbdays]
      exact short_back hsum

end LoraDate

/-! ### Between two date-times -/

/-- A difference of date-times is right: added back it gives the instant of the second. -/
def DateTimeDifference (tz : ZoneId → TimeZone) (v w : LoraDateTime) (dur : LoraDuration) : Prop :=
  (∃ u, v.tryAddDuration tz dur = some u ∧ u.orderNanos = w.orderNanos) ∧
    dur.HasSign (w.orderNanos - v.orderNanos)

/-- A local time still has an offset: it is one the zone gives it, or the one the zone jumps
from. -/
def LocalOffset.Keeps (offset : Int32) : LocalOffset → Prop
  | .unique o => o = offset
  | .overlap earlier later => earlier = offset ∨ later = offset
  | .gap before _ => before = offset

instance (offset : Int32) (o : LocalOffset) : Decidable (o.Keeps offset) := by
  cases o <;> (unfold LocalOffset.Keeps; infer_instance)

namespace LoraDateTime

variable {v w u : LoraDateTime} {dur : LoraDuration} {tz : ZoneId → TimeZone}

/-- The wall clock on another day. -/
def onDay (v : LoraDateTime) (day : ℤ) : LoraDateTime :=
  { v with
    year := (LoraDate.fromEpochDays day).year
    month := (LoraDate.fromEpochDays day).month
    day := (LoraDate.fromEpochDays day).day }

/-- The offset of a date-time is kept on another day, in its zone if it has one. -/
def KeepsOffset (tz : ZoneId → TimeZone) (v : LoraDateTime) (day : ℤ) : Prop :=
  ∀ zone, v.zone = some zone → ((tz zone).localOffset (v.onDay day).year (v.onDay day).month
    (v.onDay day).day v.hour v.minute v.second).Keeps v.offsetSeconds

instance (tz : ZoneId → TimeZone) (v : LoraDateTime) (day : ℤ) : Decidable (KeepsOffset tz v day) :=
  match hzone : v.zone with
  | none => .isTrue fun zone h => absurd (hzone.symm.trans h) (by simp)
  | some zone =>
    decidable_of_iff (((tz zone).localOffset (v.onDay day).year (v.onDay day).month
      (v.onDay day).day v.hour v.minute v.second).Keeps v.offsetSeconds)
      ⟨fun hkeeps zone' h => Option.some.inj (hzone.symm.trans h) ▸ hkeeps,
        fun hkeeps => hkeeps zone hzone⟩

theorem daysAfter_eq (v : LoraDateTime) (months : ℤ) :
    v.daysAfter months = monthDay (v.date.monthIndex + months) v.day.toNat :=
  daysFromCivil_clamped _ _

/-- Wall clocks in range are the same where their seconds are. -/
theorem fields_eq (hv : v.InRange) (hw : w.InRange) (h : v.localSeconds = w.localSeconds) :
    v.date = w.date ∧ v.hour = w.hour ∧ v.minute = w.minute ∧ v.second = w.second := by
  obtain ⟨hdate, ⟨hh, hm, hs⟩, -⟩ := hv
  obtain ⟨hdate', ⟨hh', hm', hs'⟩, -⟩ := hw
  simp only [localSeconds, daySeconds] at h
  have hdays : v.date.toEpochDays = w.date.toEpochDays := by omega
  refine ⟨?_, UInt32.toNat_inj.mp (by omega), UInt32.toNat_inj.mp (by omega),
    UInt32.toNat_inj.mp (by omega)⟩
  rw [← LoraDate.fromEpochDays_toEpochDays hdate, hdays, LoraDate.fromEpochDays_toEpochDays hdate']

variable {zone : ZoneId}

/-- The instant `inZone` gives is that of an offset where the local time keeps it. -/
theorem inZone_keeps {offset : Int32} (hu : u.InRange)
    (h : inZone tz u.date u.hour u.minute u.second u.nanosecond zone (some offset) = .ok w) :
    w.epochSeconds = u.localSeconds - offset.toInt ↔
      ((tz zone).localOffset u.year u.month u.day u.hour u.minute u.second).Keeps offset := by
  have hnew := fun before => new_of_inRange hu before
  have hsame : ∀ o : Int32, u.localSeconds - o.toInt = u.localSeconds - offset.toInt ↔
      o = offset := fun o => by
    rw [← Int32.toInt_inj]
    omega
  unfold inZone at h
  simp only [date, hnew] at h
  split at h
  · next o hlocal =>
    obtain rfl := Except.ok.inj h
    rw [hlocal]
    exact hsame o
  · next earlier later hlocal =>
    obtain rfl := Except.ok.inj h
    rw [hlocal]
    refine (hsame _).trans ?_
    simp only [Option.some.injEq, LocalOffset.Keeps]
    split
    · next heq => exact ⟨fun _ => Or.inr heq.symm, fun _ => heq.symm⟩
    · next hne => exact ⟨Or.inl, fun h => h.resolve_right fun heq => hne heq.symm⟩
  · next before after hlocal =>
    simp only [bind, Except.bind] at h
    cases hmoved : shiftLocalSeconds { u with offsetSeconds := before, zone := none }
        (after.toInt - before.toInt) with
    | none =>
      rw [hmoved] at h
      cases h
    | some moved =>
      rw [hmoved] at h
      obtain rfl := Except.ok.inj h
      have hbefore : InRange { u with offsetSeconds := before, zone := none } := hu
      obtain ⟨-, hseconds, -⟩ := shiftLocalSeconds_spec hbefore (offset_sub _ _) hmoved
      have hseconds : moved.localSeconds = u.localSeconds + (after.toInt - before.toInt) :=
        hseconds
      have hepoch : moved.localSeconds - after.toInt = u.localSeconds - before.toInt := by omega
      rw [hlocal]
      refine Iff.trans ?_ (hsame before)
      rw [← hepoch]
      rfl

/-- A gap is not long. -/
theorem inGap_length {length : ℤ} (hu : u.InRange) (h : InGap tz zone u length) :
    length ≤ 200000 := by
  obtain ⟨before, after, rfl, -, hlocal⟩ := h
  have hshows := localOffset_resolves hu (tz zone)
  rw [hlocal] at hshows
  obtain ⟨-, -, hafter, hbefore⟩ := hshows
  have hwide := shows_range hafter
  have hwide' := shows_range hbefore
  simp only [OFFSET_MAX] at hwide hwide'
  omega

/-- A wall clock on another day, which has a date. -/
theorem onDay_spec (hv : v.InRange) {date : LoraDate} (hdate : date.valid = true) :
    (v.onDay date.toEpochDays).InRange ∧ (v.onDay date.toEpochDays).date = date ∧
      (v.onDay date.toEpochDays).localSeconds =
        date.toEpochDays * 86400 + daySeconds v.hour v.minute v.second := by
  have hsame : (v.onDay date.toEpochDays).date = date :=
    LoraDate.fromEpochDays_toEpochDays hdate
  refine ⟨⟨by rwa [hsame], hv.2⟩, hsame, ?_⟩
  rw [localSeconds, hsame]
  rfl

/-- A date-time keeps its offset on its own day. -/
theorem keepsOffset_self (hv : v.Good tz) : KeepsOffset tz v v.date.toEpochDays := by
  intro zone hzone
  have hresolves := localOffset_resolves hv.1 (tz zone)
  have hshows : Shows (tz zone).toOffset v.localSeconds v.offsetSeconds := (hv.2 zone hzone).symm
  have hday : LoraDate.fromEpochDays v.date.toEpochDays = v.date :=
    LoraDate.fromEpochDays_toEpochDays hv.1.1
  simp only [onDay, hday]
  change LocalOffset.Keeps _
    ((tz zone).localOffset v.year v.month v.day v.hour v.minute v.second)
  cases hlocal : (tz zone).localOffset v.year v.month v.day v.hour v.minute v.second with
  | unique o =>
    rw [hlocal] at hresolves
    exact ((hresolves _).mp hshows).symm
  | overlap earlier later =>
    rw [hlocal] at hresolves
    exact ((hresolves.2 _).mp hshows).imp Eq.symm Eq.symm
  | gap before after =>
    rw [hlocal] at hresolves
    exact absurd hshows (hresolves.2.1 _)

/-- The calendar part of a sum that reaches a day with a date: in a zone, its instant is that of
the old offset where that is kept. -/
theorem moveCalendar_keeps (hv : v.Good tz) (hzone : v.zone = some zone)
    (hyear : FitsYear ((v.date.monthIndex + dur.months.toInt) / 12))
    (hdays : -2 ^ 42 ≤ dur.days.toInt ∧ dur.days.toInt ≤ 2 ^ 42) {date : LoraDate}
    (hdate : date.valid = true)
    (hday : monthDay (v.date.monthIndex + dur.months.toInt) v.day.toNat + dur.days.toInt =
      date.toEpochDays) :
    ∃ out, v.moveCalendar tz zone dur = some out ∧ out.Good tz ∧ out.nanosecond = v.nanosecond ∧
      (date.toEpochDays * 86400 ≤ out.localSeconds ∧
        out.localSeconds ≤ date.toEpochDays * 86400 + 300000) ∧
      (out.epochSeconds = date.toEpochDays * 86400 + daySeconds v.hour v.minute v.second -
        v.offsetSeconds.toInt ↔ KeepsOffset tz v date.toEpochDays) := by
  obtain ⟨hh, hm, hs⟩ := hv.1.2.1
  have hclock : 0 ≤ daySeconds v.hour v.minute v.second ∧
      daySeconds v.hour v.minute v.second < 86400 := by
    rw [daySeconds]
    omega
  unfold moveCalendar
  by_cases hcal : dur.months ≠ 0 ∨ dur.days ≠ 0
  · rw [if_pos hcal]
    have hrange := LoraDate.monthDay_range hyear (LoraDate.toEpochDays_eq hv.1.1).2.1
    rw [show v.date.day = v.day from rfl] at hrange
    have hn := hv.1.2.2
    have hafter := daysAfter_eq v dur.months.toInt
    have hzero : (0 : Int64).toInt = 0 := rfl
    have hsmall : -2 ^ 61 ≤ (0 : Int64).toInt ∧ (0 : Int64).toInt ≤ 2 ^ 61 := by decide
    obtain ⟨moved, hmoved⟩ : ∃ moved, v.addFixed dur.calendar = some moved := by
      refine addFixed_isSome hv.1 hyear ?_ hdays hsmall hsmall hdate ?_
      · change -2 ^ 41 ≤ v.daysAfter dur.months.toInt ∧ v.daysAfter dur.months.toInt ≤ 2 ^ 41
        rw [hafter]
        omega
      · change date.toEpochDays = ((v.daysAfter dur.months.toInt + dur.days.toInt) * 86400 +
          (v.hour.toNat * 3600 + v.minute.toNat * 60 + v.second.toNat + (0 : Int64).toInt) +
          (v.nanosecond.toNat + (0 : Int64).toInt) / 1000000000) / 86400
        rw [hafter, hday, hzero]
        omega
    obtain ⟨hin, hnano, hreached⟩ := addFixed_calendar hv.1 ⟨rfl, rfl⟩ hmoved
    have hlocal : moved.localSeconds =
        date.toEpochDays * 86400 + daySeconds v.hour v.minute v.second := by
      rw [hreached, ← hday, ← hafter]
      rfl
    obtain ⟨out, hout⟩ : ∃ out, inZone tz moved.date moved.hour moved.minute moved.second
      moved.nanosecond zone (some v.offsetSeconds) = .ok out := inZone_isOk hin zone _
    obtain ⟨-, hw, hkeeps, -, hnano', hshown⟩ := inZone_spec hin.2.2 hout
    obtain ⟨honDay, hdate', hlocal'⟩ := onDay_spec hv.1 hdate
    obtain ⟨hsame, hhour, hminute, hsecond⟩ := fields_eq hin honDay (hlocal.trans hlocal'.symm)
    refine ⟨out, ?_, ⟨hw, hkeeps⟩, hnano'.trans hnano, ?_, ?_⟩
    · exact Option.bind_eq_some_iff.mpr ⟨moved, hmoved, by rw [hout]; rfl⟩
    · rcases hshown with h | ⟨length, hgap, h⟩
      · omega
      · have hlong := inGap_length hin hgap
        obtain ⟨-, -, -, hpos, -⟩ := hgap
        omega
    · rw [← hlocal, inZone_keeps hin hout]
      have hyear' : moved.year = (v.onDay date.toEpochDays).year := congrArg LoraDate.year hsame
      have hmonth' : moved.month = (v.onDay date.toEpochDays).month := congrArg LoraDate.month hsame
      have hday' : moved.day = (v.onDay date.toEpochDays).day := congrArg LoraDate.day hsame
      rw [hyear', hmonth', hday', hhour, hminute, hsecond]
      constructor
      · intro h zone' hzone'
        obtain rfl := Option.some.inj (hzone.symm.trans hzone')
        exact h
      · exact fun h => h zone hzone
  · rw [if_neg hcal]
    obtain ⟨hmonths, hzero⟩ : dur.months = 0 ∧ dur.days = 0 := by simpa using hcal
    have hreached : v.date.toEpochDays = date.toEpochDays := by
      rw [← hday, hmonths, hzero, LoraDate.toEpochDays_monthDay hv.1.1]
      simp only [show (0 : Int64).toInt = 0 from rfl, Int.add_zero]
      rfl
    refine ⟨v, rfl, hv, rfl, ?_, ?_⟩
    · rw [← hreached, localSeconds]
      omega
    · rw [← hreached]
      exact ⟨fun _ => keepsOffset_self hv, fun _ => rfl⟩

/-- A clock part can be added to a wall clock in years far from the ends. -/
theorem addClock_isSome (hv : v.InRange)
    (hlocal : -2 ^ 55 ≤ v.localSeconds ∧ v.localSeconds ≤ 2 ^ 55)
    (hcal : dur.months = 0 ∧ dur.days = 0)
    (hseconds : -2 ^ 34 ≤ dur.seconds.toInt ∧ dur.seconds.toInt ≤ 2 ^ 34)
    (hnanos : -2 ^ 34 ≤ dur.nanoseconds.toInt ∧ dur.nanoseconds.toInt ≤ 2 ^ 34) :
    ∃ w, v.addFixed dur = some w := by
  have hzero : (0 : Int64).toInt = 0 := rfl
  have hsmall : -2 ^ 42 ≤ (0 : Int64).toInt ∧ (0 : Int64).toInt ≤ 2 ^ 42 := by decide
  obtain ⟨hh, hm, hs⟩ := hv.2.1
  have hn := hv.2.2
  rw [localSeconds, ← daysAfter_zero hv.1, daySeconds] at hlocal
  obtain ⟨n, hday⟩ : ∃ n, v.daysAfter 0 = n := ⟨_, rfl⟩
  rw [hday] at hlocal
  obtain ⟨u, hu, hreached⟩ := @exists_date_near (((n + 0) * 86400 +
    (v.hour.toNat * 3600 + v.minute.toNat * 60 + v.second.toNat + dur.seconds.toInt) +
    (v.nanosecond.toNat + dur.nanoseconds.toInt) / 1000000000) / 86400) (by omega)
  refine addFixed_isSome hv ?_ ?_ ?_ (by omega) (by omega) hu ?_
  · rw [hcal.1, hzero, Int.add_zero, (sameMonth hv.1).1]
    exact v.date.fits_year
  · rw [hcal.1, hzero, hday]
    omega
  · rw [hcal.2]
    exact hsmall
  · rw [hcal.1, hcal.2, hzero, hday]
    exact hreached

/-- The clock part of a sum moves the instant, also in a zone. -/
theorem moveClock_isSome (hv : v.Good tz)
    (hlocal : -2 ^ 54 ≤ v.localSeconds ∧ v.localSeconds ≤ 2 ^ 54)
    (hseconds : -2 ^ 32 ≤ dur.seconds.toInt ∧ dur.seconds.toInt ≤ 2 ^ 32)
    (hnanos : -2 ^ 32 ≤ dur.nanoseconds.toInt ∧ dur.nanoseconds.toInt ≤ 2 ^ 32) :
    ∃ w, v.moveClock tz zone dur = some w ∧ w.orderNanos = v.orderNanos + clockNanos dur := by
  unfold moveClock
  by_cases hclock : dur.seconds ≠ 0 ∨ dur.nanoseconds ≠ 0
  · rw [if_pos hclock]
    obtain ⟨moved, hmoved⟩ := @addClock_isSome v dur.clock hv.1 (by omega) ⟨rfl, rfl⟩
      (by simp only [LoraDuration.clock]; omega) (by simp only [LoraDuration.clock]; omega)
    obtain ⟨hin, hoffset, -, hlocal'⟩ := addFixed_spec hmoved
    have hsum := addFixed_clock hv.1 ⟨rfl, rfl⟩ hmoved
    have hrange : -2 ^ 55 ≤ moved.localSeconds ∧ moved.localSeconds ≤ 2 ^ 55 := by
      rw [orderNanos_eq, orderNanos_eq, epochSeconds_eq, epochSeconds_eq, hoffset] at hsum
      have hn := hv.1.2.2
      have hn' := hin.2.2
      simp only [clockNanos, LoraDuration.clock, NANOS] at hsum
      omega
    obtain ⟨w, hw⟩ : ∃ w, moved.toZone tz zone = some w := by
      have hoff := ((tz zone).offsetAt moved.epochSeconds).le_toInt
      have hoff' := ((tz zone).offsetAt moved.epochSeconds).toInt_lt
      have hold := moved.offsetSeconds.le_toInt
      have hold' := moved.offsetSeconds.toInt_lt
      have hint : (Int64.ofInt (((tz zone).offsetAt moved.epochSeconds).toInt -
          moved.offsetSeconds.toInt)).toInt =
          ((tz zone).offsetAt moved.epochSeconds).toInt - moved.offsetSeconds.toInt :=
        Int64.toInt_ofInt_of_le (by omega) (by omega)
      obtain ⟨shown, hshown⟩ : ∃ shown, moved.shiftLocalSeconds
          (((tz zone).offsetAt moved.epochSeconds).toInt - moved.offsetSeconds.toInt) =
          some shown := by
        have hsmall : -2 ^ 34 ≤ (0 : Int64).toInt ∧ (0 : Int64).toInt ≤ 2 ^ 34 := by decide
        refine addClock_isSome hin hrange ⟨rfl, rfl⟩ ?_ hsmall
        rw [hint]
        omega
      exact ⟨_, Option.bind_eq_some_iff.mpr ⟨shown, hshown, rfl⟩⟩
    obtain ⟨-, -, -, hepoch, hnano⟩ := toZone_spec hin hw
    refine ⟨w, Option.bind_eq_some_iff.mpr ⟨moved, hmoved, hw⟩, ?_⟩
    rw [orderNanos_eq w, hepoch, hnano, ← orderNanos_eq, hsum]
    rfl
  · rw [if_neg hclock]
    obtain ⟨hzero, hzero'⟩ : dur.seconds = 0 ∧ dur.nanoseconds = 0 := by simpa using hclock
    refine ⟨v, rfl, ?_⟩
    rw [clockNanos, hzero, hzero']
    simp

/-- A sum whose months and days reach a day: its instant, which is that of the old offset where
that is kept. -/
theorem adds_spec (hv : v.Good tz) (hyear : FitsYear ((v.date.monthIndex + dur.months.toInt) / 12))
    (hdays : -2 ^ 42 ≤ dur.days.toInt ∧ dur.days.toInt ≤ 2 ^ 42) {date : LoraDate}
    (hdate : date.valid = true)
    (hday : monthDay (v.date.monthIndex + dur.months.toInt) v.day.toNat + dur.days.toInt =
      date.toEpochDays)
    (hseconds : -2 ^ 32 ≤ dur.seconds.toInt ∧ dur.seconds.toInt ≤ 2 ^ 32)
    (hnanos : -2 ^ 32 ≤ dur.nanoseconds.toInt ∧ dur.nanoseconds.toInt ≤ 2 ^ 32)
    (hfar : -2 ^ 37 ≤ date.toEpochDays ∧ date.toEpochDays ≤ 2 ^ 37) :
    ∃ u x, v.tryAddDuration tz dur = some u ∧
      u.orderNanos = x * NANOS + v.nanosecond.toNat + clockNanos dur ∧
      (x = date.toEpochDays * 86400 + daySeconds v.hour v.minute v.second -
        v.offsetSeconds.toInt ↔ KeepsOffset tz v date.toEpochDays) := by
  obtain ⟨hh, hm, hs⟩ := hv.1.2.1
  have hclock : 0 ≤ daySeconds v.hour v.minute v.second ∧
      daySeconds v.hour v.minute v.second < 86400 := by
    rw [daySeconds]
    omega
  unfold tryAddDuration
  cases hzone : v.zone with
  | none =>
    have hafter := daysAfter_eq v dur.months.toInt
    have hrange := LoraDate.monthDay_range hyear (LoraDate.toEpochDays_eq hv.1.1).2.1
    rw [show v.date.day = v.day from rfl, ← hafter] at hrange
    rw [← hafter] at hday
    have hn := hv.1.2.2
    obtain ⟨reached, hreached, hdate'⟩ := @exists_date_near ((date.toEpochDays * 86400 +
      (v.hour.toNat * 3600 + v.minute.toNat * 60 + v.second.toNat + dur.seconds.toInt) +
      (v.nanosecond.toNat + dur.nanoseconds.toInt) / 1000000000) / 86400) (by omega)
    obtain ⟨u, hu⟩ : ∃ u, v.addFixed dur = some u :=
      addFixed_isSome hv.1 hyear (by omega) hdays (by omega) (by omega) hreached
        (by rw [hday]; exact hdate')
    obtain ⟨-, hoffset, -, hlocal⟩ := addFixed_spec hu
    refine ⟨u, _, hu, ?_, ⟨fun _ zone h => ?_, fun _ => rfl⟩⟩
    · rw [hday] at hlocal
      rw [orderNanos_eq, epochSeconds_eq, hoffset]
      simp only [clockNanos, NANOS] at hlocal ⊢
      omega
    · rw [hzone] at h
      cases h
  | some zone =>
    obtain ⟨out, hout, hgood, hnano, hlocal, hkeeps⟩ :=
      moveCalendar_keeps hv hzone hyear hdays hdate hday
    obtain ⟨u, hu, hmoved⟩ := @moveClock_isSome out dur tz zone hgood (by omega) hseconds hnanos
    refine ⟨u, out.epochSeconds, ?_, ?_, hkeeps⟩
    · exact Option.bind_eq_some_iff.mpr ⟨out, hout, hu⟩
    · rw [hmoved, orderNanos_eq, hnano]

/-- The whole days from one instant to another. -/
def wholeDays (v w : LoraDateTime) : ℤ := (w.orderNanos - v.orderNanos).tdiv NANOS_PER_DAY

/-- The wall clock of the second at the offset of the first, in nanoseconds. -/
def wallNanos (v w : LoraDateTime) : ℤ := w.orderNanos + v.offsetSeconds.toInt * NANOS

/-- What a difference of date-times needs: the instant is reached by the whole days between them,
and by what is left. -/
theorem dateTimeDifference_iff (hv : v.Good tz)
    (hyear : FitsYear ((v.date.monthIndex + dur.months.toInt) / 12))
    (hdays : -2 ^ 42 ≤ dur.days.toInt ∧ dur.days.toInt ≤ 2 ^ 42)
    (hday : monthDay (v.date.monthIndex + dur.months.toInt) v.day.toNat + dur.days.toInt =
      v.date.toEpochDays + wholeDays v w)
    (hseconds : -2 ^ 32 ≤ dur.seconds.toInt ∧ dur.seconds.toInt ≤ 2 ^ 32)
    (hnanos : -2 ^ 32 ≤ dur.nanoseconds.toInt ∧ dur.nanoseconds.toInt ≤ 2 ^ 32)
    (hfar : -2 ^ 37 ≤ v.date.toEpochDays + wholeDays v w ∧
      v.date.toEpochDays + wholeDays v w ≤ 2 ^ 37)
    (hsign : dur.HasSign (w.orderNanos - v.orderNanos))
    (hrest : clockNanos dur = (w.orderNanos - v.orderNanos).tmod NANOS_PER_DAY) :
    DateTimeDifference tz v w dur ↔ KeepsOffset tz v (v.date.toEpochDays + wholeDays v w) := by
  obtain ⟨date, hdate, hdate'⟩ := exists_date_near
    (n := v.date.toEpochDays + wholeDays v w) (by omega)
  rw [← hdate'] at hday hfar
  obtain ⟨u, x, hu, horder, hkeeps⟩ := adds_spec hv hyear hdays hdate hday hseconds hnanos hfar
  rw [DateTimeDifference, and_iff_left hsign, ← hdate', ← hkeeps]
  have hsum := Int.tdiv_mul_add_tmod (w.orderNanos - v.orderNanos) NANOS_PER_DAY
  rw [← hrest] at hsum
  have hvorder := orderNanos_eq v
  rw [epochSeconds_eq, localSeconds] at hvorder
  have hsame : u.orderNanos = w.orderNanos ↔ x = date.toEpochDays * 86400 +
      daySeconds v.hour v.minute v.second - v.offsetSeconds.toInt := by
    rw [horder]
    simp only [wholeDays, NANOS_PER_DAY, NANOS] at hsum hdate' hvorder ⊢
    omega
  rw [← hsame]
  constructor
  · rintro ⟨u', hu', heq⟩
    obtain rfl := Option.some.inj (hu.symm.trans hu')
    exact heq
  · exact fun heq => ⟨u, hu, heq⟩

/-- The complete day is the whole days away. -/
theorem completeEnd_eq {a b : LoraDate} {fromNod toNod : ℤ}
    (hfrom : 0 ≤ fromNod ∧ fromNod < NANOS_PER_DAY) (hto : 0 ≤ toNod ∧ toNod < NANOS_PER_DAY) :
    completeEnd a fromNod b toNod = a.toEpochDays +
      ((b.toEpochDays - a.toEpochDays) * NANOS_PER_DAY + toNod - fromNod).tdiv NANOS_PER_DAY := by
  obtain ⟨delta, hdelta⟩ : ∃ delta,
    (b.toEpochDays - a.toEpochDays) * NANOS_PER_DAY + toNod - fromNod = delta := ⟨_, rfl⟩
  rw [hdelta]
  rcases le_total 0 delta with h | h
  · rw [Int.tdiv_eq_ediv_of_nonneg h]
    simp only [NANOS_PER_DAY, NANOS, completeEnd] at hdelta hfrom hto ⊢
    split <;> omega
  · rw [← Int.neg_neg delta, Int.neg_tdiv, Int.tdiv_eq_ediv_of_nonneg (by omega)]
    simp only [NANOS_PER_DAY, NANOS, completeEnd] at hdelta hfrom hto ⊢
    split <;> omega

def nanosOfDay (v : LoraDateTime) : ℤ := daySeconds v.hour v.minute v.second * NANOS +
  v.nanosecond.toNat

theorem nanosOfDay_range (hv : v.InRange) : 0 ≤ v.nanosOfDay ∧ v.nanosOfDay < NANOS_PER_DAY := by
  obtain ⟨-, ⟨hh, hm, hs⟩, hn⟩ := hv
  simp only [nanosOfDay, daySeconds, NANOS_PER_DAY, NANOS]
  omega

theorem fromNanosOfDay_nanosOfDay {nanos : ℤ} (h : 0 ≤ nanos ∧ nanos < NANOS_PER_DAY) :
    (Clock.fromNanosOfDay nanos).nanosOfDay = nanos := by
  have hsum := Int.tdiv_mul_add_tmod nanos NANOS
  have hdiv := Int.tdiv_nonneg h.1 (show 0 ≤ NANOS by decide)
  have hrest := Int.tmod_nonneg NANOS h.1
  have hlt := Int.tmod_lt_of_pos nanos (show 0 < NANOS by decide)
  simp only [NANOS_PER_DAY, NANOS] at h hsum hdiv hrest hlt
  obtain ⟨-, hclock⟩ := daySeconds_ofNat (r := nanos.tdiv 1000000000) (by omega)
  have hnano : (UInt32.ofNat (nanos.tmod 1000000000).toNat).toNat =
      (nanos.tmod 1000000000).toNat := UInt32.toNat_ofNat_of_lt' (by change _ < 2 ^ 32; omega)
  simp only [Clock.nanosOfDay, Clock.fromNanosOfDay, NANOS, hclock, hnano]
  omega

/-- The second, read at the first's offset, is on a day that is refused. -/
def IsFar (v w : LoraDateTime) : Prop := 2000000000 < (wallNanos v w / NANOS_PER_DAY).natAbs

/-- The second date-time is read at the offset of the first. -/
theorem between_ofDateTime (v w : LoraDateTime) :
    (IsFar v w → Parts.between (.ofDateTime v) (.ofDateTime w) .full = .error "date out of range") ∧
    (¬ IsFar v w → ∃ date : LoraDate,
      date.valid = true ∧ date.toEpochDays = wallNanos v w / NANOS_PER_DAY ∧
      Parts.between (.ofDateTime v) (.ofDateTime w) .full =
        fullBetween v.date v.nanosOfDay date (wallNanos v w % NANOS_PER_DAY)) := by
  obtain ⟨nanos, hnanos⟩ : ∃ nanos, w.nanosOfDay +
    (v.offsetSeconds.toInt - w.offsetSeconds.toInt) * NANOS = nanos := ⟨_, rfl⟩
  have hwall : wallNanos v w = w.date.toEpochDays * NANOS_PER_DAY + nanos := by
    rw [wallNanos, orderNanos_eq, epochSeconds_eq, localSeconds, ← hnanos, nanosOfDay]
    simp only [NANOS_PER_DAY, NANOS]
    omega
  have hday : w.date.toEpochDays + nanos / NANOS_PER_DAY = wallNanos v w / NANOS_PER_DAY := by
    rw [hwall]
    simp only [NANOS_PER_DAY, NANOS]
    omega
  have hnod : nanos % NANOS_PER_DAY = wallNanos v w % NANOS_PER_DAY := by
    rw [hwall]
    simp only [NANOS_PER_DAY, NANOS]
    omega
  have hshift : (Parts.ofDateTime w).shiftTo v.offsetSeconds =
      (dateFromEpochDays (wallNanos v w / NANOS_PER_DAY)).map fun date =>
        ⟨some date, some (.fromNanosOfDay (wallNanos v w % NANOS_PER_DAY)),
          some v.offsetSeconds, none⟩ := by
    rw [← hday, ← hnod, ← hnanos]
    rfl
  have hnod' : 0 ≤ wallNanos v w % NANOS_PER_DAY ∧ wallNanos v w % NANOS_PER_DAY < NANOS_PER_DAY :=
    ⟨Int.emod_nonneg _ (by decide), Int.emod_lt_of_pos _ (by decide)⟩
  constructor
  · intro hfar
    change Except.bind ((Parts.ofDateTime w).shiftTo v.offsetSeconds) _ = _
    have hrefuse : dateFromEpochDays (wallNanos v w / NANOS_PER_DAY) =
      .error "date out of range" := if_pos hfar
    rw [hshift, hrefuse]
    rfl
  · intro hnear
    obtain ⟨date, hdate, hdays⟩ := @exists_date_near (wallNanos v w / NANOS_PER_DAY)
      (by simp only [IsFar] at hnear; omega)
    have hsame : LoraDate.fromEpochDays (wallNanos v w / NANOS_PER_DAY) = date := by
      rw [← hdays, LoraDate.fromEpochDays_toEpochDays hdate]
    refine ⟨date, hdate, hdays, ?_⟩
    change Except.bind ((Parts.ofDateTime w).shiftTo v.offsetSeconds) _ = _
    have hread : dateFromEpochDays (wallNanos v w / NANOS_PER_DAY) =
      .ok (LoraDate.fromEpochDays (wallNanos v w / NANOS_PER_DAY)) := if_neg hnear
    rw [hshift, hread, hsame]
    change fullBetween v.date v.nanosOfDay date
      (Clock.fromNanosOfDay (wallNanos v w % NANOS_PER_DAY)).nanosOfDay = _
    rw [fromNanosOfDay_nanosOfDay hnod']

/-- What `duration.between` gives is right, or the second is refused as too far. -/
def RightOrFar (tz : ZoneId → TimeZone) (v w : LoraDateTime) : Except String LoraDuration → Prop
  | .ok dur => DateTimeDifference tz v w dur
  | .error _ => IsFar v w

/-- `duration.between` of date-times is right where the first keeps its offset. -/
theorem durationBetween_iff (hv : v.Good tz) :
    RightOrFar tz v w (Parts.between (.ofDateTime v) (.ofDateTime w) .full) ↔
    IsFar v w ∨ KeepsOffset tz v (v.date.toEpochDays + wholeDays v w) := by
  obtain ⟨hrefused, hread⟩ := between_ofDateTime v w
  by_cases hfar : IsFar v w
  · rw [hrefused hfar]
    exact ⟨fun _ => Or.inl hfar, fun _ => hfar⟩
  · obtain ⟨date, hdate, hdays, hbetween⟩ := hread hfar
    have hnod : 0 ≤ wallNanos v w % NANOS_PER_DAY ∧ wallNanos v w % NANOS_PER_DAY < NANOS_PER_DAY :=
      ⟨Int.emod_nonneg _ (by decide), Int.emod_lt_of_pos _ (by decide)⟩
    have hvnod := nanosOfDay_range hv.1
    obtain ⟨dur, hdur, hyear, hddays, hday, hnanos, hseconds, hsmall, hsign⟩ :=
      fullBetween_spec hv.1.1 hdate hvnod hnod
    -- Read at one offset, wall clocks are as far apart as instants.
    have hdelta : (date.toEpochDays - v.date.toEpochDays) * NANOS_PER_DAY +
        wallNanos v w % NANOS_PER_DAY - v.nanosOfDay = w.orderNanos - v.orderNanos := by
      rw [hdays, orderNanos_eq v, epochSeconds_eq, localSeconds, nanosOfDay]
      simp only [wallNanos, NANOS_PER_DAY, NANOS]
      omega
    have hend : date.toEpochDays - 1 ≤
        completeEnd v.date v.nanosOfDay date (wallNanos v w % NANOS_PER_DAY) ∧
        completeEnd v.date v.nanosOfDay date (wallNanos v w % NANOS_PER_DAY) ≤
          date.toEpochDays + 1 := by
      simp only [completeEnd]
      split <;> omega
    rw [completeEnd_eq hvnod hnod, hdelta, ← wholeDays] at hday hnanos hend
    rw [hdelta] at hsign
    have hsum := Int.tdiv_mul_add_tmod (w.orderNanos - v.orderNanos) NANOS_PER_DAY
    rw [← wholeDays] at hsum
    rw [hbetween, hdur, or_iff_right hfar]
    refine dateTimeDifference_iff hv hyear (by omega) hday hseconds hsmall ?_ hsign ?_
    · rw [hdays] at hend
      simp only [IsFar] at hfar
      omega
    · rw [clockNanos, hnanos]
      generalize (w.orderNanos - v.orderNanos).tmod NANOS_PER_DAY = rest at hsum ⊢
      generalize wallNanos v w % NANOS_PER_DAY = nod at hdelta ⊢
      simp only [NANOS_PER_DAY, NANOS] at hdelta hsum ⊢
      omega

/-- Milliseconds since 1970, as far as they may be. -/
def millis (v : LoraDateTime) : ℤ := v.epochSeconds * 1000 + v.nanosecond.toNat / 1000000

/-- The milliseconds of two date-times and their difference fit 64 bits. -/
def MillisFit (v w : LoraDateTime) : Prop :=
  ∀ x ∈ [v.epochSeconds * 1000, v.millis, w.epochSeconds * 1000, w.millis, w.millis - v.millis],
    -2 ^ 63 ≤ x ∧ x < 2 ^ 63

/-- Two date-times have the same fraction of a millisecond. -/
def SameFraction (v w : LoraDateTime) : Prop :=
  v.nanosecond.toNat % 1000000 = w.nanosecond.toNat % 1000000

/-- The duration of some milliseconds. -/
def ofMillis (ms : ℤ) : LoraDuration :=
  ⟨0, .ofInt ((ms.tdiv 1000).tdiv 86400), .ofInt ((ms.tdiv 1000).tmod 86400),
    .ofInt (ms.tmod 1000 * 1000000)⟩

theorem checked_bind_eq_some {α : Type} {x : ℤ} {f : ℤ → Option α} {y : α} :
    (checked x).bind f = some y ↔ (-2 ^ 63 ≤ x ∧ x < 2 ^ 63) ∧ f x = some y := by
  rw [Option.bind_eq_some_iff]
  constructor
  · rintro ⟨z, hz, hy⟩
    obtain ⟨rfl, hrange⟩ := checked_some hz
    exact ⟨hrange, hy⟩
  · exact fun ⟨hrange, hy⟩ => ⟨x, checked_eq hrange, hy⟩

theorem betweenDatetimes_eq_some : LoraDuration.betweenDatetimes v w = some dur ↔
    MillisFit v w ∧ dur = ofMillis (w.millis - v.millis) := by
  simp only [LoraDuration.betweenDatetimes, toEpochMillis, bind, Option.bind_assoc,
    checked_bind_eq_some, Option.some.injEq]
  simp only [MillisFit, List.mem_cons, List.not_mem_nil, or_false, forall_eq_or_imp, forall_eq]
  constructor
  · rintro ⟨h1, h2, h3, h4, h5, h6⟩
    exact ⟨⟨h3, h4, h1, h2, h5⟩, h6.symm⟩
  · rintro ⟨⟨h3, h4, h1, h2, h5⟩, h6⟩
    exact ⟨h1, h2, h3, h4, h5, h6.symm⟩

/-- Milliseconds and nanoseconds divide into the same days and rest. -/
theorem ofMillis_split (ms : ℤ) : (ms * 1000000).tdiv NANOS_PER_DAY = (ms.tdiv 1000).tdiv 86400 ∧
    (ms * 1000000).tmod NANOS_PER_DAY =
      (ms.tdiv 1000).tmod 86400 * NANOS + ms.tmod 1000 * 1000000 := by
  have hsplit : ∀ n : ℤ, 0 ≤ n → (n * 1000000).tdiv NANOS_PER_DAY = (n.tdiv 1000).tdiv 86400 ∧
      (n * 1000000).tmod NANOS_PER_DAY =
        (n.tdiv 1000).tmod 86400 * NANOS + n.tmod 1000 * 1000000 := by
    intro n hn
    rw [Int.tdiv_eq_ediv_of_nonneg hn, Int.tdiv_eq_ediv_of_nonneg (by omega),
      Int.tdiv_eq_ediv_of_nonneg (by omega), Int.tmod_eq_emod_of_nonneg (by omega),
      Int.tmod_eq_emod_of_nonneg (by omega), Int.tmod_eq_emod_of_nonneg hn]
    simp only [NANOS_PER_DAY, NANOS]
    omega
  rcases le_total 0 ms with h | h
  · exact hsplit ms h
  · obtain ⟨hdiv, hmod⟩ := hsplit (-ms) (by omega)
    rw [Int.neg_mul] at hdiv hmod
    simp only [Int.neg_tdiv, Int.neg_tmod, Int.neg_mul] at hdiv hmod
    exact ⟨by omega, by omega⟩

/-- The parts milliseconds divide into, and their signs. -/
theorem millis_parts {ms : ℤ} (h : -2 ^ 63 ≤ ms ∧ ms < 2 ^ 63) :
    (-2 ^ 42 ≤ (ms.tdiv 1000).tdiv 86400 ∧ (ms.tdiv 1000).tdiv 86400 ≤ 2 ^ 42) ∧
    (-86400 < (ms.tdiv 1000).tmod 86400 ∧ (ms.tdiv 1000).tmod 86400 < 86400) ∧
    (-1000 < ms.tmod 1000 ∧ ms.tmod 1000 < 1000) ∧
    (0 ≤ ms → 0 ≤ (ms.tdiv 1000).tdiv 86400 ∧ 0 ≤ (ms.tdiv 1000).tmod 86400 ∧ 0 ≤ ms.tmod 1000) ∧
    (ms ≤ 0 → (ms.tdiv 1000).tdiv 86400 ≤ 0 ∧ (ms.tdiv 1000).tmod 86400 ≤ 0 ∧
      ms.tmod 1000 ≤ 0) := by
  have hpos : ∀ n : ℤ, 0 ≤ n → n ≤ 2 ^ 63 → (0 ≤ (n.tdiv 1000).tdiv 86400 ∧
      (n.tdiv 1000).tdiv 86400 ≤ 2 ^ 42) ∧ 0 ≤ (n.tdiv 1000).tmod 86400 ∧ 0 ≤ n.tmod 1000 := by
    intro n hn hlt
    rw [Int.tdiv_eq_ediv_of_nonneg hn, Int.tdiv_eq_ediv_of_nonneg (by omega),
      Int.tmod_eq_emod_of_nonneg (by omega), Int.tmod_eq_emod_of_nonneg hn]
    omega
  have hsecs := Int.tmod_lt_of_pos (ms.tdiv 1000) (show (0 : ℤ) < 86400 by decide)
  have hsecs' := Int.lt_tmod_of_pos (ms.tdiv 1000) (show (0 : ℤ) < 86400 by decide)
  have hrest := Int.tmod_lt_of_pos ms (show (0 : ℤ) < 1000 by decide)
  have hrest' := Int.lt_tmod_of_pos ms (show (0 : ℤ) < 1000 by decide)
  refine ⟨?_, ⟨hsecs', hsecs⟩, ⟨hrest', hrest⟩, fun hn => ?_, fun hn => ?_⟩
  · rcases le_total 0 ms with hn | hn
    · have hparts := hpos ms hn (by omega)
      omega
    · have hparts := hpos (-ms) (by omega) (by omega)
      simp only [Int.neg_tdiv, Int.neg_tmod] at hparts
      omega
  · have hparts := hpos ms hn (by omega)
    omega
  · have hparts := hpos (-ms) (by omega) (by omega)
    simp only [Int.neg_tdiv, Int.neg_tmod] at hparts
    omega

/-- A duration of milliseconds: its parts are small, and all of its sign. -/
theorem ofMillis_spec {ms : ℤ} (h : -2 ^ 63 ≤ ms ∧ ms < 2 ^ 63) :
    (ofMillis ms).days.toInt = (ms.tdiv 1000).tdiv 86400 ∧
    (-2 ^ 42 ≤ (ofMillis ms).days.toInt ∧ (ofMillis ms).days.toInt ≤ 2 ^ 42) ∧
    (-2 ^ 32 ≤ (ofMillis ms).seconds.toInt ∧ (ofMillis ms).seconds.toInt ≤ 2 ^ 32) ∧
    (-2 ^ 32 ≤ (ofMillis ms).nanoseconds.toInt ∧ (ofMillis ms).nanoseconds.toInt ≤ 2 ^ 32) ∧
    clockNanos (ofMillis ms) = (ms * 1000000).tmod NANOS_PER_DAY ∧
    (ofMillis ms).nanoseconds.toInt % 1000000 = 0 ∧ (ofMillis ms).HasSign (ms * 1000000) := by
  obtain ⟨hdays, hsecs, hrest, hpos, hneg⟩ := millis_parts h
  have hint : ∀ {x : ℤ}, -2 ^ 62 ≤ x ∧ x ≤ 2 ^ 62 → (Int64.ofInt x).toInt = x := fun {x} h =>
    Int64.toInt_ofInt_of_le (by omega) (by omega)
  have hd : (ofMillis ms).days.toInt = (ms.tdiv 1000).tdiv 86400 := hint (by omega)
  have hs : (ofMillis ms).seconds.toInt = (ms.tdiv 1000).tmod 86400 := hint (by omega)
  have hn : (ofMillis ms).nanoseconds.toInt = ms.tmod 1000 * 1000000 := hint (by omega)
  refine ⟨hd, by omega, by omega, by omega, ?_, by omega, ?_⟩
  · rw [clockNanos, hs, hn, (ofMillis_split ms).2]
  · rw [LoraDuration.hasSign_iff, hd, hs, hn]
    have hm : (ofMillis ms).months.toInt = 0 := rfl
    rw [hm]
    have hsum := (ofMillis_split ms).1
    rcases lt_trichotomy ms 0 with h' | h' | h'
    · have hparts := hneg h'.le
      omega
    · have hparts := hneg h'.le
      have hparts' := hpos h'.ge
      omega
    · have hparts := hpos h'.le
      omega

/-- `temporal.between` of date-times is right where their milliseconds fit, hold all of the
difference, and the first keeps its offset. -/
theorem betweenDatetimes_iff (hv : v.Good tz) (hw : w.InRange) :
    (∃ dur, LoraDuration.betweenDatetimes v w = some dur ∧ DateTimeDifference tz v w dur) ↔
      MillisFit v w ∧ SameFraction v w ∧ KeepsOffset tz v (v.date.toEpochDays + wholeDays v w) := by
  by_cases hfit : MillisFit v w
  · have hsome := betweenDatetimes_eq_some.mpr ⟨hfit, rfl⟩
    rw [and_iff_right hfit, hsome]
    simp only [Option.some.injEq, exists_eq_left']
    obtain ⟨ms, hms⟩ : ∃ ms, w.millis - v.millis = ms := ⟨_, rfl⟩
    have hrange : -2 ^ 63 ≤ ms ∧ ms < 2 ^ 63 := hms ▸ hfit _ (by simp)
    obtain ⟨hd, hdays, hseconds, hsmall, hclock, hmod, hsign⟩ := ofMillis_spec hrange
    rw [hms]
    have hyear : FitsYear ((v.date.monthIndex + (ofMillis ms).months.toInt) / 12) := by
      rw [show (ofMillis ms).months.toInt = 0 from rfl, Int.add_zero]
      exact LoraDate.fits_month hv.1.1
    have hday : monthDay (v.date.monthIndex + (ofMillis ms).months.toInt) v.day.toNat +
        (ofMillis ms).days.toInt = v.date.toEpochDays + (ms.tdiv 1000).tdiv 86400 := by
      rw [show (ofMillis ms).months.toInt = 0 from rfl, Int.add_zero, hd,
        LoraDate.toEpochDays_monthDay hv.1.1]
      rfl
    have hfar : -2 ^ 37 ≤ v.date.toEpochDays + (ms.tdiv 1000).tdiv 86400 ∧
        v.date.toEpochDays + (ms.tdiv 1000).tdiv 86400 ≤ 2 ^ 37 := by
      -- It is the day of the second, whose milliseconds fit.
      have hfirst := hfit (v.epochSeconds * 1000) (by simp)
      have hsecond := hfit (w.epochSeconds * 1000) (by simp)
      obtain ⟨-, hsecs, hrest, -, -⟩ := millis_parts hrange
      have hquot := Int.tdiv_mul_add_tmod ms 1000
      have hquot' := Int.tdiv_mul_add_tmod (ms.tdiv 1000) 86400
      obtain ⟨hh, hm, hs⟩ := hv.1.2.1
      have hn := hv.1.2.2
      have hn' := hw.2.2
      have hoff := v.offsetSeconds.le_toInt
      have hoff' := v.offsetSeconds.toInt_lt
      have hepoch := epochSeconds_eq v
      simp only [localSeconds, daySeconds] at hepoch
      simp only [millis] at hms
      omega
    by_cases hsame : SameFraction v w
    · rw [and_iff_right hsame]
      have hdelta : w.orderNanos - v.orderNanos = ms * 1000000 := by
        rw [orderNanos_eq, orderNanos_eq, ← hms]
        simp only [SameFraction] at hsame
        simp only [millis, NANOS]
        omega
      have hwhole : wholeDays v w = (ms.tdiv 1000).tdiv 86400 := by
        rw [wholeDays, hdelta, (ofMillis_split ms).1]
      rw [← hwhole] at hday hfar
      rw [← hdelta] at hsign hclock
      exact dateTimeDifference_iff hv hyear hdays hday hseconds hsmall hfar hsign hclock
    · refine ⟨fun h => absurd ?_ hsame, fun h => absurd h.1 hsame⟩
      obtain ⟨⟨u, hu, heq⟩, -⟩ := h
      -- The sum keeps the fraction of the first.
      obtain ⟨date, hdate, hdate'⟩ := exists_date_near
        (n := v.date.toEpochDays + (ms.tdiv 1000).tdiv 86400) (by omega)
      rw [← hdate'] at hday hfar
      obtain ⟨u', x, hu', horder, -⟩ := adds_spec hv hyear hdays hdate hday hseconds hsmall hfar
      obtain rfl := Option.some.inj (hu.symm.trans hu')
      rw [heq, orderNanos_eq, clockNanos] at horder
      simp only [SameFraction]
      simp only [NANOS] at horder
      omega
  · refine ⟨fun h => ?_, fun h => absurd h.1 hfit⟩
    obtain ⟨dur, hdur, -⟩ := h
    exact absurd (betweenDatetimes_eq_some.mp hdur).1 hfit

/-- A fraction of a second into March 2026. -/
def inMarch (nanosecond : UInt32) : LoraDateTime := ⟨2026, 3, 1, 0, 0, 0, nanosecond, 0, none⟩

theorem inMarch_good {nanosecond : UInt32} (h : nanosecond.toNat < 1000000000)
    (tz : ZoneId → TimeZone) : (inMarch nanosecond).Good tz :=
  good_of_zone_none ⟨by simp only [date, inMarch]; decide, by simp only [inMarch]; decide, h⟩ rfl

/-- The day before the clocks go forward, at noon. -/
def springEve : LoraDateTime := ⟨2026, 3, 28, 12, 0, 0, 0, 3600, some summerId⟩

/-- The day after. -/
def springMorrow : LoraDateTime := ⟨2026, 3, 30, 12, 0, 0, 0, 7200, some summerId⟩

end LoraDateTime

end LoraDb
