import LoraDb.Temporal

/-!
# The Calendar

Days counted from 1970-01-01 and the dates they are: by year, month and day, by ISO week, by day
of the year and by day of the quarter. Days are integers here; those of dates are far from the
ends of 64 bits, and only `civilFromDaysChecked` takes others.

An ISO week belongs to the year its Thursday is in. The year after the last of 32 bits does not
exist, but the week of a date in the last year is counted to it: `none` stands for an addition
that overflows.

## Main results

* `civilFromDaysChecked_iff`: the checked conversion inverts the day count wherever the year
  fits.
* `fromOrdinal_ok_iff`, `fromQuarter_ok_iff`: the days a year and a quarter have.
* `calendar_iff`: which weeks are right.
-/

namespace LoraDb

open List Option

/-! ### Dates of days -/

/-- A day of the calendar, in any year. -/
def Civil (y : ℤ) (m d : ℕ) : Prop := 1 ≤ m ∧ m ≤ 12 ∧ 1 ≤ d ∧ d ≤ daysInMonth y m

/-- The date of a day, counted from the start of a cycle of 400 years that begins in March. -/
def civilOfEra (era doe : ℤ) : ℤ × ℤ × ℤ :=
  let yoe := (doe - doe / 1460 + doe / 36524 - doe / 146096) / 365
  let y := yoe + era * 400
  let doy := doe - (365 * yoe + yoe / 4 - yoe / 100)
  let mp := (5 * doy + 2) / 153
  let d := doy - (153 * mp + 2) / 5 + 1
  let m := if mp < 10 then mp + 3 else mp - 9
  (if m ≤ 2 then y + 1 else y, m, d)

/-- The date of a day. A year that does not fit wraps around. -/
def civilFromDays (z : ℤ) : Int32 × UInt32 × UInt32 :=
  let z := z + 719468
  let era := (if 0 ≤ z then z else z - 146096).tdiv 146097
  let (y, m, d) := civilOfEra era (z - era * 146097)
  (Int32.ofInt y, UInt32.ofNat m.toNat, UInt32.ofNat d.toNat)

/-- The result of a checked operation on 64 bits. -/
def checked (x : ℤ) : Option ℤ := if -2 ^ 63 ≤ x ∧ x < 2 ^ 63 then some x else none

def civilFromDaysChecked (days : ℤ) : Option (Int32 × UInt32 × UInt32) := do
  let z ← checked (days + 719468)
  let floor ← (if 0 ≤ z then some z else checked (z - 146096))
  let era := floor.tdiv 146097
  let eraDays ← checked (era * 146097)
  let doe ← checked (z - eraDays)
  if doe < 0 then none
  else
    let eraYears ← checked (era * 400)
    let yoe := (doe - doe / 1460 + doe / 36524 - doe / 146096) / 365
    let start ← checked (yoe + eraYears)
    let (_, m, d) := civilOfEra era doe
    let y ← (if m ≤ 2 then checked (start + 1) else some start)
    if -2 ^ 31 ≤ y ∧ y < 2 ^ 31 then
      some (Int32.ofInt y, UInt32.ofNat m.toNat, UInt32.ofNat d.toNat)
    else none

/-- The year within a cycle, from the day within it. -/
theorem yearOfEra (yoe doy : ℤ) (hyoe : 0 ≤ yoe ∧ yoe < 400) (hdoy : 0 ≤ doy ∧ doy < 366)
    (hleap : doy = 365 → (yoe + 1) % 4 = 0 ∧ ((yoe + 1) % 100 ≠ 0 ∨ (yoe + 1) % 400 = 0))
    {doe : ℤ} (hdoe : doe = yoe * 365 + yoe / 4 - yoe / 100 + doy) :
    (doe - doe / 1460 + doe / 36524 - doe / 146096) / 365 = yoe := by
  -- centuries, leap cycles and years of a leap cycle
  obtain ⟨c, q, s, hc, hq, hs, hy⟩ : ∃ c q s : ℤ, (0 ≤ c ∧ c ≤ 3) ∧ (0 ≤ q ∧ q ≤ 24) ∧
      (0 ≤ s ∧ s ≤ 3) ∧ yoe = 100 * c + 4 * q + s :=
    ⟨yoe / 100, yoe % 100 / 4, yoe % 4, by omega, by omega, by omega, by omega⟩
  have hdays : doe = 36524 * c + 1461 * q + 365 * s + doy := by omega
  have hlast : doy = 365 → s = 3 ∧ (q = 24 → c = 3) := by omega
  clear hleap hdoe
  have hera : doe / 146096 = if c = 3 ∧ q = 24 ∧ s = 3 ∧ doy = 365 then 1 else 0 := by
    split <;> omega
  have hcentury : doe / 36524 = c + if c = 3 ∧ q = 24 ∧ s = 3 ∧ doy = 365 then 1 else 0 := by
    split <;> omega
  have hrest : doe - doe / 1460 + doe / 36524 - doe / 146096 = doe - doe / 1460 + c := by omega
  have hcycle : doe / 1460 = 25 * c + q + (c * 24 + q + 365 * s + doy) / 1460 := by omega
  rw [hrest, hcycle]
  by_cases hbehind : 1460 ≤ c * 24 + q + 365 * s + doy
  · have hone : (c * 24 + q + 365 * s + doy) / 1460 = 1 := by omega
    rw [hone, hdays, hy]
    omega
  · have hzero : (c * 24 + q + 365 * s + doy) / 1460 = 0 := by omega
    rw [hzero, hdays, hy]
    omega

variable {m d : ℕ}

/-- The month and the day within it, from the day within a year from March on. -/
theorem monthOfYear {len : ℕ} (hm : 1 ≤ m ∧ m ≤ 12) (hd : 1 ≤ d ∧ d ≤ len)
    (hlen : len = match m with | 2 => 29 | 4 | 6 | 9 | 11 => 30 | _ => 31) {mp doy : ℤ}
    (hmp : mp = if 2 < m then (m : ℤ) - 3 else m + 9) (hdoy : doy = (153 * mp + 2) / 5 + d - 1) :
    0 ≤ doy ∧ doy < 366 ∧ (5 * doy + 2) / 153 = mp ∧ (if mp < 10 then mp + 3 else mp - 9) = m ∧
      (doy = 365 → m = 2 ∧ d = 29) := by
  obtain ⟨hm1, hm12⟩ := hm
  interval_cases m <;> simp only [] at hlen hmp <;> subst hlen hmp <;> norm_num at hdoy ⊢ <;> omega

theorem floor_cycle (z : ℤ) : (if 0 ≤ z then z else z - 146096).tdiv 146097 = z / 146097 := by
  split
  next h => exact Int.tdiv_eq_ediv_of_nonneg h
  next h =>
    have hsign : Int.sign 146097 = 1 := rfl
    rw [Int.tdiv_eq_ediv, hsign]
    split <;> omega

theorem daysInMonth_eq {m : ℕ} (hm : 1 ≤ m ∧ m ≤ 12) (y : ℤ) : daysInMonth y m ≤
    match m with | 2 => 29 | 4 | 6 | 9 | 11 => 30 | _ => 31 := by
  obtain ⟨hm1, hm12⟩ := hm
  interval_cases m <;> simp [daysInMonth]
  split <;> omega

variable {y : ℤ}

/-- A day of the calendar is the date of its count. -/
theorem civilOfEra_daysFromCivil (h : Civil y m d) :
    civilOfEra ((daysFromCivil y m d + 719468) / 146097)
      ((daysFromCivil y m d + 719468) % 146097) = (y, (m : ℤ), (d : ℤ)) := by
  obtain ⟨hm1, hm12, hd1, hd⟩ := h
  obtain ⟨Y, hY⟩ : ∃ Y, Y = y - if m ≤ 2 then 1 else 0 := ⟨_, rfl⟩
  obtain ⟨mp, hmp⟩ : ∃ mp : ℤ, mp = if 2 < m then (m : ℤ) - 3 else m + 9 := ⟨_, rfl⟩
  obtain ⟨doy, hdoy⟩ : ∃ doy : ℤ, doy = (153 * mp + 2) / 5 + d - 1 := ⟨_, rfl⟩
  obtain ⟨hdoy0, hdoy366, hmonth, hback, hlast⟩ :=
    monthOfYear ⟨hm1, hm12⟩ ⟨hd1, hd.trans (daysInMonth_eq ⟨hm1, hm12⟩ y)⟩ rfl hmp hdoy
  have hdays : daysFromCivil y m d + 719468 =
      Y / 400 * 146097 + (Y % 400 * 365 + Y % 400 / 4 - Y % 400 / 100 + doy) := by
    rw [daysFromCivil_eq y m d hY, ← hmp, ← hdoy]
    omega
  have hera : (daysFromCivil y m d + 719468) / 146097 = Y / 400 := by omega
  have hdoe : (daysFromCivil y m d + 719468) % 146097 =
      Y % 400 * 365 + Y % 400 / 4 - Y % 400 / 100 + doy := by omega
  have hleap : doy = 365 → (Y % 400 + 1) % 4 = 0 ∧
      ((Y % 400 + 1) % 100 ≠ 0 ∨ (Y % 400 + 1) % 400 = 0) := by
    intro hdoy365
    obtain ⟨rfl, rfl⟩ := hlast hdoy365
    have hyear : isLeapYear y = true := by
      by_contra hno
      simp [daysInMonth, hno] at hd
    have hfour := (leap_iff y).mp hyear
    simp only [le_refl, if_true] at hY
    omega
  have hyoe := yearOfEra (Y % 400) doy (by omega) ⟨hdoy0, hdoy366⟩ hleap rfl
  have hrest : Y % 400 * 365 + Y % 400 / 4 - Y % 400 / 100 + doy -
      (365 * (Y % 400) + Y % 400 / 4 - Y % 400 / 100) = doy := by omega
  rw [hera, hdoe]
  simp only [civilOfEra, hyoe, hrest, hmonth, hback]
  refine Prod.ext ?_ (Prod.ext rfl ?_)
  · simp only [hY, Nat.cast_le_ofNat]
    split <;> omega
  · simp only
    omega

/-- Every day falls into some month. -/
theorem exists_month (z : ℤ) : ∃ n, monthStart n < z ∧ z ≤ monthStart (n + 1) := by
  induction z using Int.induction_on with
  | zero => exact ⟨1970 * 12, by decide, by decide⟩
  | succ i ih =>
    obtain ⟨n, hstart, hend⟩ := ih
    rcases Int.lt_or_eq_of_le hend with hlt | heq
    · exact ⟨n, by omega, by omega⟩
    · have hnext := monthStart_strictMono (show n + 1 < n + 1 + 1 by omega)
      exact ⟨n + 1, by omega, by omega⟩
  | pred i ih =>
    obtain ⟨n, hstart, hend⟩ := ih
    by_cases hlt : monthStart n < -i - 1
    · exact ⟨n, hlt, by omega⟩
    · have hprev := monthStart_strictMono (show n - 1 < n by omega)
      refine ⟨n - 1, by omega, ?_⟩
      rw [Int.sub_add_cancel]
      omega

/-- Every day is a day of the calendar. -/
theorem exists_civil (z : ℤ) : ∃ y m d, Civil y m d ∧ daysFromCivil y m d = z := by
  obtain ⟨n, hstart, hend⟩ := exists_month z
  rw [monthStart_succ] at hend
  refine ⟨n / 12, (n % 12 + 1).toNat, (z - monthStart n).toNat, ⟨?_, ?_, ?_, ?_⟩, ?_⟩
  · omega
  · omega
  · omega
  · omega
  · rw [daysFromCivil_day, ← monthStart]
    omega

/-- A day lies in its month; months are numbered on from year 0. -/
theorem Civil.month (h : Civil y m d) : daysFromCivil y m d = monthStart (y * 12 + m - 1) + d ∧
      monthStart (y * 12 + m) = monthStart (y * 12 + m - 1) + daysInMonth y m := by
  obtain ⟨hm1, hm12, hd1, hd⟩ := h
  have hyear : (y * 12 + m - 1) / 12 = y := by omega
  have hmonth : ((y * 12 + m - 1) % 12 + 1).toNat = m := by omega
  refine ⟨?_, ?_⟩
  · rw [monthStart, hyear, hmonth, ← daysFromCivil_day]
  · have hsucc := monthStart_succ (y * 12 + m - 1)
    rwa [hyear, hmonth, Int.sub_add_cancel] at hsucc

/-- Which months a day is between. -/
theorem Civil.between (h : Civil y m d) {a b : ℤ}
    (ha : monthStart a < daysFromCivil y m d) (hb : daysFromCivil y m d ≤ monthStart b) :
    a < y * 12 + m ∧ y * 12 + m ≤ b := by
  obtain ⟨hday, hnext⟩ := h.month
  obtain ⟨-, -, hd1, hd⟩ := h
  refine ⟨monthStart_strictMono.lt_iff_lt.mp (by omega), ?_⟩
  have hlt : y * 12 + m - 1 < b := monthStart_strictMono.lt_iff_lt.mp (by omega)
  omega

/-- The first day of a month. -/
theorem daysFromCivil_first (y : ℤ) {m : ℕ} (hm : 1 ≤ m ∧ m ≤ 12) :
    daysFromCivil y m 1 = monthStart (y * 12 + m - 1) + 1 := by
  have hpos := daysInMonth_pos y hm.1 hm.2
  exact (Civil.month ⟨hm.1, hm.2, le_refl 1, hpos⟩).1

theorem civilFromDays_daysFromCivil (h : Civil y m d) :
    civilFromDays (daysFromCivil y m d) = (Int32.ofInt y, UInt32.ofNat m, UInt32.ofNat d) := by
  have hdoe : ∀ z : ℤ, z - z / 146097 * 146097 = z % 146097 := fun z => by omega
  simp only [civilFromDays, floor_cycle, hdoe, civilOfEra_daysFromCivil h, Int.toNat_natCast]

/-- A year of 32 bits. -/
def FitsYear (y : ℤ) : Prop := -2 ^ 31 ≤ y ∧ y < 2 ^ 31

instance (y : ℤ) : Decidable (FitsYear y) := by
  unfold FitsYear
  infer_instance

/-- The days of 32-bit years are far from the ends of 64 bits. -/
theorem daysFromCivil_bound (h : Civil y m d) (hy : FitsYear y) :
    -2 ^ 62 ≤ daysFromCivil y m d ∧ daysFromCivil y m d < 2 ^ 62 := by
  obtain ⟨hm1, hm12, hd1, hd⟩ := h
  have hlen := hd.trans (daysInMonth_eq ⟨hm1, hm12⟩ y)
  have hd31 : d ≤ 31 := by
    refine hlen.trans ?_
    split <;> omega
  obtain ⟨hlow, hhigh⟩ := hy
  rw [daysFromCivil_eq y m d rfl]
  split <;> split <;> omega

theorem checked_eq {x : ℤ} (h : -2 ^ 63 ≤ x ∧ x < 2 ^ 63) : checked x = some x := if_pos h

/-- The checked conversion of a day, by the year it is in. -/
theorem civilFromDaysChecked_daysFromCivil (h : Civil y m d)
    (hdays : -2 ^ 63 ≤ daysFromCivil y m d ∧ daysFromCivil y m d < 2 ^ 63) :
    civilFromDaysChecked (daysFromCivil y m d) =
      if FitsYear y then some (Int32.ofInt y, UInt32.ofNat m, UInt32.ofNat d) else none := by
  have hdate := civilOfEra_daysFromCivil h
  have hbound := daysFromCivil_bound h
  obtain ⟨z, hz⟩ : ∃ z, daysFromCivil y m d + 719468 = z := ⟨_, rfl⟩
  obtain ⟨days, hday⟩ : ∃ days, daysFromCivil y m d = days := ⟨_, rfl⟩
  rw [hz] at hdate
  rw [hday] at hdays hbound hz ⊢
  by_cases hhigh : z < 2 ^ 63
  · have hstart : checked z = some z := checked_eq ⟨by omega, hhigh⟩
    have hfloor : (if 0 ≤ z then some z else checked (z - 146096)) =
        some (if 0 ≤ z then z else z - 146096) := by
      split
      · rfl
      · exact checked_eq ⟨by omega, by omega⟩
    have hera : checked (z / 146097 * 146097) = some (z / 146097 * 146097) :=
      checked_eq ⟨by omega, by omega⟩
    have hdoe : checked (z - z / 146097 * 146097) = some (z % 146097) := by
      rw [checked_eq ⟨by omega, by omega⟩]
      exact congrArg some (by omega)
    have hyears : checked (z / 146097 * 400) = some (z / 146097 * 400) :=
      checked_eq ⟨by omega, by omega⟩
    have hpos : ¬ z % 146097 < 0 := by omega
    simp only [civilFromDaysChecked, hz, hstart, bind, bind_some, hfloor, floor_cycle, hera,
      hdoe, hyears, if_neg hpos, hdate]
    simp only [civilOfEra, Prod.mk.injEq] at hdate
    obtain ⟨hyear, hmonth, -⟩ := hdate
    obtain ⟨yoe, hyoe⟩ : ∃ yoe, (z % 146097 - z % 146097 / 1460 + z % 146097 / 36524 -
        z % 146097 / 146096) / 365 = yoe := ⟨_, rfl⟩
    rw [hyoe] at hyear ⊢
    rw [hyoe] at hmonth
    rw [hmonth] at hyear
    have hsum : checked (yoe + z / 146097 * 400) = some (yoe + z / 146097 * 400) :=
      checked_eq ⟨by omega, by omega⟩
    have hnext : (if (m : ℤ) ≤ 2 then checked (yoe + z / 146097 * 400 + 1)
        else some (yoe + z / 146097 * 400)) = some y := by
      rw [← hyear]
      split
      · exact checked_eq ⟨by omega, by omega⟩
      · rfl
    simp only [hsum, bind_some, hnext, Int.toNat_natCast]
    rfl
  · have hnone : checked z = none := if_neg fun h => hhigh h.2
    have hfits : ¬ FitsYear y := fun hy => by
      have hlt := (hbound hy).2
      omega
    rw [if_neg hfits]
    simp only [civilFromDaysChecked, hz, hnone]
    rfl

/-! ### Dates -/

/-- The year after, if it fits. -/
def nextYear (year : Int32) : Option Int32 :=
  if year.toInt + 1 < 2 ^ 31 then some (Int32.ofInt (year.toInt + 1)) else none

def previousYear (year : Int32) : Option Int32 :=
  if -2 ^ 31 ≤ year.toInt - 1 then some (Int32.ofInt (year.toInt - 1)) else none

/-- The Monday on or before January 4th: week 1 starts there. -/
def firstMondayOfWeekYear (year : Int32) : ℤ :=
  let jan4 := daysFromCivil year.toInt 1 4
  jan4 - (jan4 + 3) % 7

def weeksInWeekYear (year : Int32) : Option ℕ := do
  let next ← nextYear year
  some ((firstMondayOfWeekYear next - firstMondayOfWeekYear year).tdiv 7).toNat

namespace LoraDate

def fromEpochDays (days : ℤ) : LoraDate :=
  let (year, month, day) := civilFromDays days
  { year, month, day }

/-- The date of ISO week `week`, counted from Monday. -/
def fromIsoWeek (year : Int32) (week dayOfWeek : UInt32) : Option (Except String LoraDate) := do
  let weeks ← weeksInWeekYear year
  if ¬ (1 ≤ week.toNat ∧ week.toNat ≤ weeks) then
    some (.error s!"Invalid week {week.toNat} for week-based year {year.toInt}")
  else if ¬ (1 ≤ dayOfWeek.toNat ∧ dayOfWeek.toNat ≤ 7) then
    some (.error s!"Invalid dayOfWeek: {dayOfWeek.toNat}")
  else
    let days := firstMondayOfWeekYear year + (week.toNat - 1) * 7 + dayOfWeek.toNat - 1
    some (.ok (fromEpochDays days))

def fromOrdinal (year : Int32) (ordinalDay : UInt32) : Except String LoraDate :=
  let len := if isLeapYear year.toInt then 366 else 365
  if ¬ (1 ≤ ordinalDay.toNat ∧ ordinalDay.toNat ≤ len) then
    .error s!"Invalid ordinalDay {ordinalDay.toNat} for {year.toInt}"
  else .ok (fromEpochDays (daysFromCivil year.toInt 1 1 + ordinalDay.toNat - 1))

def fromQuarter (year : Int32) (quarter dayOfQuarter : UInt32) : Except String LoraDate :=
  if ¬ (1 ≤ quarter.toNat ∧ quarter.toNat ≤ 4) then
    .error s!"Invalid quarter: {quarter.toNat}"
  else
    let firstMonth := (quarter.toNat - 1) * 3 + 1
    let len := ((range' firstMonth 3).map (daysInMonth year.toInt)).sum
    if ¬ (1 ≤ dayOfQuarter.toNat ∧ dayOfQuarter.toNat ≤ len) then
      .error s!"Invalid dayOfQuarter {dayOfQuarter.toNat} for {year.toInt}-Q{quarter.toNat}"
    else .ok (fromEpochDays (daysFromCivil year.toInt firstMonth 1 + dayOfQuarter.toNat - 1))

/-- The ISO week-based year and the week of a date. -/
def isoWeek (v : LoraDate) : Option (Int32 × ℕ) := do
  let days := v.toEpochDays
  let next ← nextYear v.year
  let weekYear ←
    (if firstMondayOfWeekYear next ≤ days then some next
    else if days < firstMondayOfWeekYear v.year then previousYear v.year
    else some v.year)
  let week := (days - firstMondayOfWeekYear weekYear).tdiv 7 + 1
  some (weekYear, week.toNat)

def quarter (v : LoraDate) : ℕ := (v.month.toNat - 1) / 3 + 1

def dayOfQuarter (v : LoraDate) : ℕ :=
  let firstMonth := (v.quarter - 1) * 3 + 1
  (v.toEpochDays - daysFromCivil v.year.toInt firstMonth 1).toNat + 1

def dayOfWeek (v : LoraDate) : ℕ := ((v.toEpochDays.tmod 7 + 7 + 3).tmod 7 + 1).toNat

def dayOfYear (v : LoraDate) : ℕ :=
  (range' 1 (v.month.toNat - 1)).foldl (fun doy m => doy + daysInMonth v.year.toInt m) v.day.toNat

/-- The day after, if its year fits. -/
def nextDay (v : LoraDate) : Option LoraDate :=
  if v.day.toNat < daysInMonth v.year.toInt v.month.toNat then some { v with day := v.day + 1 }
  else if v.month.toNat < 12 then some { v with month := v.month + 1, day := 1 }
  else (nextYear v.year).map fun year => { year, month := 1, day := 1 }

variable {v w : LoraDate}

theorem valid_iff : v.valid = true ↔ Civil v.year.toInt v.month.toNat v.day.toNat :=
  decide_eq_true_iff

theorem fits_year (v : LoraDate) : FitsYear v.year.toInt := ⟨v.year.le_toInt, v.year.toInt_lt⟩

/-- A date is that of its own day. -/
theorem fromEpochDays_toEpochDays (hv : v.valid = true) : fromEpochDays v.toEpochDays = v := by
  rw [fromEpochDays, toEpochDays, civilFromDays_daysFromCivil (valid_iff.mp hv)]
  simp

/-- The date of a day whose year fits. -/
theorem fromEpochDays_of_civil {y : ℤ} {m d : ℕ} (h : Civil y m d) (hy : FitsYear y) :
    (fromEpochDays (daysFromCivil y m d)).valid = true ∧
      (fromEpochDays (daysFromCivil y m d)).toEpochDays = daysFromCivil y m d ∧
      (fromEpochDays (daysFromCivil y m d)).year.toInt = y := by
  obtain ⟨hm1, hm12, hd1, hd⟩ := h
  have hlen := daysInMonth_eq ⟨hm1, hm12⟩ y
  have hd31 : d ≤ 31 := by
    refine (hd.trans hlen).trans ?_
    split <;> omega
  have hyear : (Int32.ofInt y).toInt = y := Int32.toInt_ofInt_of_le hy.1 hy.2
  have hmonth : (UInt32.ofNat m).toNat = m := UInt32.toNat_ofNat_of_lt'
    (by simp [UInt32.size]; omega)
  have hday : (UInt32.ofNat d).toNat = d := UInt32.toNat_ofNat_of_lt' (by simp [UInt32.size]; omega)
  simp only [fromEpochDays, civilFromDays_daysFromCivil ⟨hm1, hm12, hd1, hd⟩, valid_iff,
    toEpochDays, hyear, hmonth, hday]
  exact ⟨⟨hm1, hm12, hd1, hd⟩, trivial, trivial⟩

/-- The day after is the next number. -/
theorem nextDay_spec (hv : v.valid = true) (h : v.nextDay = some w) :
    w.valid = true ∧ w.toEpochDays = v.toEpochDays + 1 := by
  have hcivil := valid_iff.mp hv
  obtain ⟨hday, hnext⟩ := hcivil.month
  obtain ⟨hm1, hm12, hd1, hd⟩ := hcivil
  have hone : (1 : UInt32).toNat = 1 := rfl
  unfold nextDay at h
  split at h
  next hlt =>
    obtain rfl := Option.some.inj h
    have hsucc : (v.day + 1).toNat = v.day.toNat + 1 := by
      have hlen := hd.trans (daysInMonth_eq ⟨hm1, hm12⟩ _)
      have h31 : v.day.toNat ≤ 31 := by
        refine hlen.trans ?_
        split <;> omega
      rw [UInt32.toNat_add, hone]
      omega
    refine ⟨valid_iff.mpr ⟨hm1, hm12, ?_, ?_⟩, ?_⟩
    · simp only [hsucc]
      omega
    · simp only [hsucc]
      omega
    · simp only [toEpochDays, hsucc]
      rw [daysFromCivil_day, daysFromCivil_day _ _ v.day.toNat]
      push_cast
      omega
  next hlast =>
    split at h
    next hlt =>
      obtain rfl := Option.some.inj h
      have hsucc : (v.month + 1).toNat = v.month.toNat + 1 := by
        rw [UInt32.toNat_add, hone]
        omega
      have hm : 1 ≤ v.month.toNat + 1 ∧ v.month.toNat + 1 ≤ 12 := by omega
      refine ⟨valid_iff.mpr ?_, ?_⟩
      · simp only [hsucc, hone]
        exact ⟨hm.1, hm.2, le_refl 1, daysInMonth_pos _ hm.1 hm.2⟩
      · simp only [toEpochDays, hsucc, hone]
        rw [daysFromCivil_first _ hm, hday]
        push_cast
        rw [show v.year.toInt * 12 + (v.month.toNat + 1 : ℤ) - 1 =
          v.year.toInt * 12 + v.month.toNat by omega, hnext]
        omega
    next hyear =>
      obtain ⟨year, hfits, rfl⟩ := Option.map_eq_some_iff.mp h
      have htoInt : year.toInt = v.year.toInt + 1 := by
        unfold nextYear at hfits
        split at hfits
        next hlt =>
          rw [← Option.some.inj hfits]
          exact Int32.toInt_ofInt_of_le (by have := v.year.le_toInt; omega) hlt
        next => cases hfits
      refine ⟨valid_iff.mpr ?_, ?_⟩
      · simp only [hone]
        exact ⟨le_refl 1, by omega, le_refl 1, daysInMonth_pos _ (le_refl 1) (by omega)⟩
      · simp only [toEpochDays, hone, htoInt]
        rw [daysFromCivil_first _ ⟨le_refl 1, by omega⟩, hday]
        push_cast
        rw [show (v.year.toInt + 1) * 12 + 1 - 1 = v.year.toInt * 12 + v.month.toNat by omega,
          hnext]
        omega

end LoraDate

/-! ### Years and quarters -/

/-- The first day of a year. -/
def yearStart (y : ℤ) : ℤ := daysFromCivil y 1 1

theorem yearStart_eq (y : ℤ) : yearStart y = monthStart (y * 12) + 1 := by
  rw [yearStart, daysFromCivil_first y ⟨le_refl 1, by omega⟩]
  push_cast
  rw [show y * 12 + 1 - 1 = y * 12 by omega]

/-- Days of a year. -/
theorem yearStart_succ (y : ℤ) :
    yearStart (y + 1) = yearStart y + if isLeapYear y then 366 else 365 := by
  have hleap := leap_iff y
  rw [yearStart, yearStart, daysFromCivil_eq (y + 1) 1 1 rfl, daysFromCivil_eq y 1 1 rfl]
  have hprev : ((y - 1) / 400 = y / 400 - 1 ∧ (y - 1) % 400 = 399 ∧ y % 400 = 0) ∨
      ((y - 1) / 400 = y / 400 ∧ (y - 1) % 400 = y % 400 - 1 ∧ 0 < y % 400) := by omega
  have hcycle : y % 4 = y % 400 % 4 ∧ y % 100 = y % 400 % 100 := by omega
  rw [hcycle.1, hcycle.2] at hleap
  by_cases hl : isLeapYear y = true
  · have hyear := hleap.mp hl
    rw [if_pos hl]
    rcases hprev with ⟨hera, hyoe, hzero⟩ | ⟨hera, hyoe, hpos⟩ <;> norm_num <;>
      rw [hera, hyoe] <;> omega
  · have hyear := mt hleap.mpr hl
    rw [if_neg hl]
    rcases hprev with ⟨hera, hyoe, hzero⟩ | ⟨hera, hyoe, hpos⟩ <;> norm_num <;>
      rw [hera, hyoe] <;> omega

theorem yearStart_strictMono : StrictMono yearStart := by
  refine strictMono_int_of_lt_succ fun y => ?_
  rw [yearStart_succ]
  split <;> omega

/-- A day lies in its year, and in no other. -/
theorem Civil.year_iff {y y' : ℤ} (h : Civil y m d) :
    y = y' ↔ yearStart y' ≤ daysFromCivil y m d ∧ daysFromCivil y m d < yearStart (y' + 1) := by
  rw [yearStart_eq, yearStart_eq]
  have hm := h
  obtain ⟨hday, hnext⟩ := h.month
  obtain ⟨hm1, hm12, hd1, hd⟩ := h
  constructor
  · rintro rfl
    have hlow := monthStart_strictMono.monotone (show y * 12 ≤ y * 12 + m - 1 by omega)
    have hhigh := monthStart_strictMono.monotone (show y * 12 + m ≤ (y + 1) * 12 by omega)
    omega
  · rintro ⟨hlow, hhigh⟩
    obtain ⟨ha, hb⟩ := hm.between (a := y' * 12) (b := (y' + 1) * 12) (by omega) (by omega)
    omega

namespace LoraDate

variable {v : LoraDate}

theorem year_iff (hv : v.valid = true) (y : ℤ) :
    v.year.toInt = y ↔ yearStart y ≤ v.toEpochDays ∧ v.toEpochDays < yearStart (y + 1) :=
  (valid_iff.mp hv).year_iff

/-- The date of a day in a year that fits. -/
theorem fromEpochDays_spec {days : ℤ} {year : Int32} (hlow : yearStart year.toInt ≤ days)
    (hhigh : days < yearStart (year.toInt + 1)) :
    (fromEpochDays days).valid = true ∧ (fromEpochDays days).toEpochDays = days ∧
      (fromEpochDays days).year = year := by
  obtain ⟨y, m, d, hcivil, rfl⟩ := exists_civil days
  obtain rfl := hcivil.year_iff.mpr ⟨hlow, hhigh⟩
  obtain ⟨hvalid, hdays, hyear⟩ := fromEpochDays_of_civil hcivil ⟨year.le_toInt, year.toInt_lt⟩
  exact ⟨hvalid, hdays, Int32.toInt_inj.mp hyear⟩

/-- The day of the year counts from its first day. -/
theorem dayOfYear_eq (hv : v.valid = true) :
    (v.dayOfYear : ℤ) = v.toEpochDays - yearStart v.year.toInt + 1 := by
  have hfold : ∀ k : ℕ, k ≤ 11 → ((range' 1 k).foldl
      (fun doy m => doy + daysInMonth v.year.toInt m) v.day.toNat : ℕ) =
        monthStart (v.year.toInt * 12 + k) - monthStart (v.year.toInt * 12) + v.day.toNat := by
    intro k hk
    induction k with
    | zero => simp
    | succ k ih =>
      have hmonth := monthStart_succ (v.year.toInt * 12 + k)
      have hyear : (v.year.toInt * 12 + k) / 12 = v.year.toInt := by omega
      have hindex : ((v.year.toInt * 12 + k) % 12 + 1).toNat = 1 + k := by omega
      rw [hyear, hindex] at hmonth
      rw [range'_1_concat, foldl_append, foldl_cons, foldl_nil]
      push_cast
      rw [ih (by omega), ← add_assoc, hmonth]
      omega
  have hcivil := valid_iff.mp hv
  obtain ⟨hday, -⟩ := hcivil.month
  obtain ⟨hm1, hm12, -, -⟩ := hcivil
  rw [dayOfYear, hfold _ (by omega), toEpochDays, hday, yearStart_eq,
    show v.year.toInt * 12 + ((v.month.toNat - 1 : ℕ) : ℤ) = v.year.toInt * 12 + v.month.toNat - 1
      by omega]
  omega

/-- The days a year has: `fromOrdinal` accepts them, and `dayOfYear` gives them back. -/
theorem fromOrdinal_ok_iff (year : Int32) (ordinalDay : UInt32) :
    fromOrdinal year ordinalDay = .ok v ↔
      v.valid = true ∧ v.year = year ∧ v.dayOfYear = ordinalDay.toNat := by
  have hlen := yearStart_succ year.toInt
  have hstart : daysFromCivil year.toInt 1 1 = yearStart year.toInt := rfl
  unfold fromOrdinal
  simp only [hstart]
  constructor
  · intro hok
    by_cases hin : 1 ≤ ordinalDay.toNat ∧
        ordinalDay.toNat ≤ if isLeapYear year.toInt then 366 else 365
    · rw [if_neg (not_not.mpr hin)] at hok
      obtain ⟨hlow, hhigh⟩ := hin
      obtain rfl := Except.ok.inj hok
      have hbound : (ordinalDay.toNat : ℤ) ≤ if isLeapYear year.toInt then 366 else 365 := by
        split at hhigh <;> split <;> omega
      obtain ⟨hvalid, hdays, hyear⟩ := @fromEpochDays_spec
        (yearStart year.toInt + ordinalDay.toNat - 1) year (by omega) (by omega)
      refine ⟨hvalid, hyear, ?_⟩
      have heq := dayOfYear_eq hvalid
      rw [hdays, hyear] at heq
      omega
    · rw [if_pos hin] at hok
      cases hok
  · rintro ⟨hvalid, rfl, hday⟩
    have heq := dayOfYear_eq hvalid
    obtain ⟨hlow, hhigh⟩ := (year_iff hvalid _).mp rfl
    have hin : 1 ≤ ordinalDay.toNat ∧ ordinalDay.toNat ≤
        if isLeapYear v.year.toInt then 366 else 365 := by
      split at hlen <;> simp_all <;> omega
    rw [if_neg (not_not.mpr hin), show yearStart v.year.toInt + (ordinalDay.toNat : ℤ) - 1 =
      v.toEpochDays by omega, fromEpochDays_toEpochDays hvalid]

/-- Days of a quarter. -/
theorem quarter_days (y : ℤ) {q : ℕ} (hq : 1 ≤ q ∧ q ≤ 4) :
    daysFromCivil y ((q - 1) * 3 + 1) 1 = monthStart (y * 12 + (q * 3 - 3)) + 1 ∧
      monthStart (y * 12 + q * 3) = monthStart (y * 12 + (q * 3 - 3)) +
        ((range' ((q - 1) * 3 + 1) 3).map (daysInMonth y)).sum := by
  have hmonth : ∀ k : ℕ, k < 12 →
      monthStart (y * 12 + k + 1) = monthStart (y * 12 + k) + daysInMonth y (k + 1) := by
    intro k hk
    have hsucc := monthStart_succ (y * 12 + k)
    have hyear : (y * 12 + (k : ℤ)) / 12 = y := by omega
    have hindex : ((y * 12 + (k : ℤ)) % 12 + 1).toNat = k + 1 := by omega
    rwa [hyear, hindex] at hsucc
  obtain ⟨k, hk⟩ : ∃ k, k = (q - 1) * 3 := ⟨_, rfl⟩
  have hcast : (q : ℤ) * 3 - 3 = k := by omega
  have hlast : (q : ℤ) * 3 = k + 1 + 1 + 1 := by omega
  have h0 := hmonth k (by omega)
  have h1 := hmonth (k + 1) (by omega)
  have h2 := hmonth (k + 1 + 1) (by omega)
  push_cast at h1 h2
  refine ⟨?_, ?_⟩
  · rw [← hk, daysFromCivil_first y (by omega), hcast]
    push_cast
    rw [show y * 12 + ((k : ℤ) + 1) - 1 = y * 12 + k by omega]
  · rw [hcast, hlast, ← hk]
    simp only [range', map_cons, map_nil, sum_cons, sum_nil]
    push_cast
    simp only [← add_assoc] at h0 h1 h2 ⊢
    omega

theorem quarter_iff (hv : v.valid = true) (q : ℕ) : v.quarter = q ↔ (1 ≤ q ∧ q ≤ 4) ∧
      monthStart (v.year.toInt * 12 + (q * 3 - 3)) < v.toEpochDays ∧
        v.toEpochDays ≤ monthStart (v.year.toInt * 12 + q * 3) := by
  have hcivil := valid_iff.mp hv
  obtain ⟨hday, hnext⟩ := hcivil.month
  have hm := hcivil
  obtain ⟨hm1, hm12, hd1, hd⟩ := hm
  unfold quarter
  constructor
  · rintro rfl
    have hlow := monthStart_strictMono.monotone
      (show v.year.toInt * 12 + (((v.month.toNat - 1) / 3 + 1 : ℕ) * 3 - 3) ≤
        v.year.toInt * 12 + v.month.toNat - 1 by omega)
    have hhigh := monthStart_strictMono.monotone
      (show v.year.toInt * 12 + v.month.toNat ≤
        v.year.toInt * 12 + ((v.month.toNat - 1) / 3 + 1 : ℕ) * 3 by omega)
    rw [toEpochDays]
    exact ⟨by omega, by omega, by omega⟩
  · rintro ⟨hq, hlow, hhigh⟩
    obtain ⟨ha, hb⟩ := hcivil.between hlow hhigh
    omega

/-- The days a quarter has: `fromQuarter` accepts them, and `quarter` and `dayOfQuarter` give
them back. -/
theorem fromQuarter_ok_iff (year : Int32) (quarter dayOfQuarter : UInt32) :
    fromQuarter year quarter dayOfQuarter = .ok v ↔ v.valid = true ∧ v.year = year ∧
      v.quarter = quarter.toNat ∧ v.dayOfQuarter = dayOfQuarter.toNat := by
  unfold fromQuarter
  constructor
  · intro hok
    by_cases hq : 1 ≤ quarter.toNat ∧ quarter.toNat ≤ 4
    · obtain ⟨hfirst, hlen⟩ := quarter_days year.toInt hq
      rw [if_neg (not_not.mpr hq)] at hok
      simp only [hfirst] at hok
      by_cases hin : 1 ≤ dayOfQuarter.toNat ∧ dayOfQuarter.toNat ≤
          ((range' ((quarter.toNat - 1) * 3 + 1) 3).map (daysInMonth year.toInt)).sum
      · rw [if_neg (not_not.mpr hin)] at hok
        obtain ⟨hlow, hhigh⟩ := hin
        obtain rfl := Except.ok.inj hok
        have hfirst12 := monthStart_strictMono.monotone
          (show year.toInt * 12 ≤ year.toInt * 12 + (quarter.toNat * 3 - 3) by omega)
        have hlast12 := monthStart_strictMono.monotone
          (show year.toInt * 12 + (quarter.toNat : ℤ) * 3 ≤ (year.toInt + 1) * 12 by omega)
        have hstart := yearStart_eq year.toInt
        have hend := yearStart_eq (year.toInt + 1)
        obtain ⟨hvalid, hdays, hyear⟩ := @fromEpochDays_spec
          (monthStart (year.toInt * 12 + (quarter.toNat * 3 - 3)) + 1 + dayOfQuarter.toNat - 1)
          year (by omega) (by omega)
        have hquarter := (quarter_iff hvalid quarter.toNat).mpr (by
          rw [hyear, hdays]
          exact ⟨hq, by omega, by omega⟩)
        refine ⟨hvalid, hyear, hquarter, ?_⟩
        simp only [LoraDate.dayOfQuarter]
        rw [hquarter, hyear, hdays, hfirst]
        omega
      · rw [if_pos hin] at hok
        cases hok
    · rw [if_pos hq] at hok
      cases hok
  · rintro ⟨hvalid, rfl, hquarter, hday⟩
    obtain ⟨hq, hlow, hhigh⟩ := (quarter_iff hvalid _).mp hquarter
    obtain ⟨hfirst, hlen⟩ := quarter_days v.year.toInt hq
    simp only [LoraDate.dayOfQuarter] at hday
    rw [hquarter, hfirst] at hday
    have hin : 1 ≤ dayOfQuarter.toNat ∧ dayOfQuarter.toNat ≤
        ((range' ((quarter.toNat - 1) * 3 + 1) 3).map (daysInMonth v.year.toInt)).sum := by
      omega
    rw [if_neg (not_not.mpr hq)]
    simp only [hfirst]
    rw [if_neg (not_not.mpr hin), show monthStart (v.year.toInt * 12 + (quarter.toNat * 3 - 3)) +
      1 + (dayOfQuarter.toNat : ℤ) - 1 = v.toEpochDays by omega, fromEpochDays_toEpochDays hvalid]

end LoraDate

/-! ### Weeks -/

/-- Day `dow` of week `week` of the year `y`: the week of the year's `week`-th Thursday. -/
def IsWeekDate (y : ℤ) (week dow : ℕ) (days : ℤ) : Prop :=
  1 ≤ dow ∧ dow ≤ 7 ∧ ∃ thursday : ℤ, thursday % 7 = 0 ∧ yearStart y ≤ thursday ∧
    thursday < yearStart (y + 1) ∧ (week : ℤ) = (thursday - yearStart y) / 7 + 1 ∧
      days = thursday - 3 + (dow - 1)

/-- The Monday before the first Thursday. -/
def firstMonday (y : ℤ) : ℤ := yearStart y + 3 - (yearStart y + 6) % 7

theorem firstMondayOfWeekYear_eq (year : Int32) :
    firstMondayOfWeekYear year = firstMonday year.toInt := by
  have hjan : daysFromCivil year.toInt 1 4 = yearStart year.toInt + 3 := by
    rw [yearStart, daysFromCivil_day, daysFromCivil_day _ 1 1]
    push_cast
    omega
  simp only [firstMondayOfWeekYear, firstMonday, hjan]
  rw [show yearStart year.toInt + 3 + 3 = yearStart year.toInt + 6 by omega]

theorem isWeekDate_iff {week dow : ℕ} {days : ℤ} : IsWeekDate y week dow days ↔
    (1 ≤ dow ∧ dow ≤ 7) ∧ (1 ≤ week ∧ (week : ℤ) ≤ (firstMonday (y + 1) - firstMonday y) / 7) ∧
      days = firstMonday y + (week - 1) * 7 + dow - 1 := by
  have hthis : firstMonday y = yearStart y + 3 - (yearStart y + 6) % 7 := rfl
  have hnext : firstMonday (y + 1) = yearStart (y + 1) + 3 - (yearStart (y + 1) + 6) % 7 := rfl
  constructor
  · rintro ⟨hd1, hd7, thursday, hmod, hlow, hhigh, hweek, hdays⟩
    exact ⟨⟨hd1, hd7⟩, ⟨by omega, by omega⟩, by omega⟩
  · rintro ⟨⟨hd1, hd7⟩, ⟨hw1, hw⟩, hdays⟩
    exact ⟨hd1, hd7, firstMonday y + (week - 1) * 7 + 3, by omega, by omega, by omega, by omega,
      by omega⟩

/-- A day is in one week only. -/
theorem IsWeekDate.unique {y y' : ℤ} {week week' dow dow' : ℕ} {days : ℤ}
    (h : IsWeekDate y week dow days) (h' : IsWeekDate y' week' dow' days) :
    y = y' ∧ week = week' ∧ dow = dow' := by
  obtain ⟨hd1, hd7, t, hmod, hlow, hhigh, hweek, hdays⟩ := h
  obtain ⟨hd1', hd7', t', hmod', hlow', hhigh', hweek', hdays'⟩ := h'
  have ht : t = t' := by omega
  subst ht
  have hyear : y = y' := by
    have hle := yearStart_strictMono.lt_iff_lt.mp (hlow.trans_lt hhigh')
    have hge := yearStart_strictMono.lt_iff_lt.mp (hlow'.trans_lt hhigh)
    omega
  subst hyear
  omega

/-- The week of a day between the starts of two week years. -/
theorem isWeekDate_of_between {y days : ℤ} (hlow : firstMonday y ≤ days)
    (hhigh : days < firstMonday (y + 1)) :
    IsWeekDate y ((days - firstMonday y) / 7 + 1).toNat ((days + 3) % 7 + 1).toNat days := by
  have hthis : firstMonday y = yearStart y + 3 - (yearStart y + 6) % 7 := rfl
  have hnext : firstMonday (y + 1) = yearStart (y + 1) + 3 - (yearStart (y + 1) + 6) % 7 := rfl
  refine isWeekDate_iff.2 ⟨⟨by omega, by omega⟩, ⟨by omega, by omega⟩, by omega⟩

theorem nextYear_eq {year : Int32} (h : year.toInt + 1 < 2 ^ 31) :
    ∃ next, nextYear year = some next ∧ next.toInt = year.toInt + 1 := by
  refine ⟨_, if_pos h, Int32.toInt_ofInt_of_le ?_ h⟩
  have hlow := year.le_toInt
  omega

theorem nextYear_maxValue {year : Int32} (h : ¬ year.toInt + 1 < 2 ^ 31) :
    nextYear year = none := if_neg h

namespace LoraDate

variable {v : LoraDate}

theorem dayOfWeek_eq (v : LoraDate) : v.dayOfWeek = ((v.toEpochDays + 3) % 7 + 1).toNat := by
  have hmod : (v.toEpochDays.tmod 7 + 7 + 3).tmod 7 = (v.toEpochDays + 3) % 7 := by
    have hsmall : -7 < v.toEpochDays.tmod 7 := by
      rw [Int.tmod_eq_emod]
      split <;> simp <;> omega
    rw [Int.tmod_eq_emod_of_nonneg (by omega), Int.tmod_eq_emod]
    split
    · simp
      omega
    · simp
  rw [dayOfWeek, hmod]

/-- Before the last year, the week of a date is right. -/
theorem isoWeek_spec (hv : v.valid = true) (hyear : v.year.toInt + 1 < 2 ^ 31) :
    ∃ y w, v.isoWeek = some (y, w) ∧ IsWeekDate y.toInt w v.dayOfWeek v.toEpochDays := by
  obtain ⟨next, hnext, hsucc⟩ := nextYear_eq hyear
  obtain ⟨hlow, hhigh⟩ := (year_iff hv _).mp rfl
  have hmonday : ∀ y, firstMonday y = yearStart y + 3 - (yearStart y + 6) % 7 := fun _ => rfl
  have hspan := yearStart_strictMono (show v.year.toInt + 1 < v.year.toInt + 1 + 1 by omega)
  have hlen := yearStart_succ (v.year.toInt + 1)
  simp only [isoWeek, hnext, bind, bind_some, firstMondayOfWeekYear_eq, hsucc]
  rw [dayOfWeek_eq]
  by_cases hafter : firstMonday (v.year.toInt + 1) ≤ v.toEpochDays
  · have hend : v.toEpochDays < firstMonday (v.year.toInt + 1 + 1) := by
      have h1 := hmonday (v.year.toInt + 1 + 1)
      have h2 := hmonday (v.year.toInt + 1)
      split at hlen <;> omega
    refine ⟨next, ((v.toEpochDays - firstMonday (v.year.toInt + 1)) / 7 + 1).toNat, ?_, ?_⟩
    · rw [if_pos hafter, bind_some, hsucc, Int.tdiv_eq_ediv_of_nonneg (by omega)]
    · rw [hsucc]
      exact isWeekDate_of_between hafter hend
  · rw [if_neg hafter]
    by_cases hbefore : v.toEpochDays < firstMonday v.year.toInt
    · -- the first year begins with its week 1, so there is a year before
      have hmin : firstMonday (-2 ^ 31) ≤ yearStart (-2 ^ 31) := by decide
      have hlow31 := v.year.le_toInt
      have hprev : -2 ^ 31 ≤ v.year.toInt - 1 := by
        by_contra hlt
        have heq : v.year.toInt = -2 ^ 31 := by omega
        rw [heq] at hbefore hlow
        omega
      have htoInt : (Int32.ofInt (v.year.toInt - 1)).toInt = v.year.toInt - 1 :=
        Int32.toInt_ofInt_of_le hprev (by omega)
      have hlast := yearStart_succ (v.year.toInt - 1)
      rw [Int.sub_add_cancel] at hlast
      have hstart : firstMonday (v.year.toInt - 1) ≤ v.toEpochDays := by
        have h1 := hmonday (v.year.toInt - 1)
        split at hlast <;> omega
      refine ⟨Int32.ofInt (v.year.toInt - 1),
        ((v.toEpochDays - firstMonday (v.year.toInt - 1)) / 7 + 1).toNat, ?_, ?_⟩
      · rw [if_pos hbefore, previousYear, if_pos hprev, bind_some, htoInt,
          Int.tdiv_eq_ediv_of_nonneg (by omega)]
      · rw [htoInt]
        refine isWeekDate_of_between hstart ?_
        rwa [Int.sub_add_cancel]
    · refine ⟨v.year, ((v.toEpochDays - firstMonday v.year.toInt) / 7 + 1).toNat, ?_, ?_⟩
      · rw [if_neg hbefore, bind_some, Int.tdiv_eq_ediv_of_nonneg (by omega)]
      · exact isWeekDate_of_between (by omega) (by omega)

variable {year : Int32}

/-- What `fromIsoWeek` gives where the year after fits. -/
theorem fromIsoWeek_eq (hyear : year.toInt + 1 < 2 ^ 31) (week dow : UInt32) :
    (∃ e, fromIsoWeek year week dow = some (.error e) ∧
      ¬ ∃ days, IsWeekDate year.toInt week.toNat dow.toNat days) ∨
    ∃ days, IsWeekDate year.toInt week.toNat dow.toNat days ∧
      fromIsoWeek year week dow = some (.ok (fromEpochDays days)) := by
  obtain ⟨next, hnext, hsucc⟩ := nextYear_eq hyear
  have hmonday : ∀ y, firstMonday y = yearStart y + 3 - (yearStart y + 6) % 7 := fun _ => rfl
  have hlen := yearStart_succ year.toInt
  have hpos : 0 ≤ firstMonday (year.toInt + 1) - firstMonday year.toInt := by
    have h1 := hmonday (year.toInt + 1)
    have h2 := hmonday year.toInt
    split at hlen <;> omega
  have hweeks : weeksInWeekYear year =
      some ((firstMonday (year.toInt + 1) - firstMonday year.toInt) / 7).toNat := by
    simp only [weeksInWeekYear, hnext, bind, bind_some, firstMondayOfWeekYear_eq, hsucc]
    rw [Int.tdiv_eq_ediv_of_nonneg hpos]
  simp only [fromIsoWeek, hweeks, bind, bind_some, firstMondayOfWeekYear_eq]
  by_cases hweek : 1 ≤ week.toNat ∧
      week.toNat ≤ ((firstMonday (year.toInt + 1) - firstMonday year.toInt) / 7).toNat
  · rw [if_neg (not_not.mpr hweek)]
    by_cases hday : 1 ≤ dow.toNat ∧ dow.toNat ≤ 7
    · rw [if_neg (not_not.mpr hday)]
      exact Or.inr ⟨_, isWeekDate_iff.2 ⟨hday, ⟨hweek.1, by omega⟩, rfl⟩, rfl⟩
    · rw [if_pos hday]
      exact Or.inl ⟨_, rfl, fun ⟨_, hdate⟩ => hday (isWeekDate_iff.1 hdate).1⟩
  · rw [if_pos hweek]
    refine Or.inl ⟨_, rfl, fun ⟨_, hdate⟩ => hweek ?_⟩
    obtain ⟨-, ⟨hw1, hw⟩, -⟩ := isWeekDate_iff.1 hdate
    exact ⟨hw1, by omega⟩

theorem fromIsoWeek_maxValue (hyear : ¬ year.toInt + 1 < 2 ^ 31)
    (week dow : UInt32) : fromIsoWeek year week dow = none := by
  simp only [fromIsoWeek, weeksInWeekYear, nextYear_maxValue hyear, bind, bind_none]

/-! ### What holds -/

/-- A week and a day of it are right: where the year has them, `fromIsoWeek` gives the date,
and `isoWeek` and `dayOfWeek` give them back; where it does not, it gives an error. -/
def WeekRight (year : Int32) (week dow : UInt32) : Prop :=
  (∀ days, IsWeekDate year.toInt week.toNat dow.toNat days →
    ∃ v, fromIsoWeek year week dow = some (.ok v) ∧ v.valid = true ∧ v.toEpochDays = days ∧
      v.isoWeek = some (year, week.toNat) ∧ v.dayOfWeek = dow.toNat) ∧
  ((¬ ∃ days, IsWeekDate year.toInt week.toNat dow.toNat days) →
    ∃ e, fromIsoWeek year week dow = some (.error e))

/-- The week of a date is right, and `fromIsoWeek` gives the date back. -/
def IsoWeekRight (v : LoraDate) : Prop :=
  ∃ y w, v.isoWeek = some (y, w) ∧ IsWeekDate y.toInt w v.dayOfWeek v.toEpochDays ∧
    fromIsoWeek y (UInt32.ofNat w) (UInt32.ofNat v.dayOfWeek) = some (.ok v)

theorem maxValue_iff : year ≠ Int32.maxValue ↔ year.toInt + 1 < 2 ^ 31 := by
  have hhigh := year.toInt_lt
  rw [ne_eq, ← Int32.toInt_inj, show Int32.maxValue.toInt = 2 ^ 31 - 1 from rfl]
  omega

theorem minValue_iff : year = Int32.minValue ↔ year.toInt = -2 ^ 31 := by
  rw [← Int32.toInt_inj, show Int32.minValue.toInt = -2 ^ 31 from rfl]

/-- The last year begins a day after its week 1, and the first before. -/
theorem first_weeks : firstMonday (2 ^ 31 - 1) = yearStart (2 ^ 31 - 1) - 1 ∧
    firstMonday (-2 ^ 31) = yearStart (-2 ^ 31) - 1 := by decide

/-- Where a week ends before the last year, its days are dates. -/
theorem weekDate_bounds (hyear : year.toInt + 1 < 2 ^ 31) {week dow : ℕ} {days : ℤ}
    (hdate : IsWeekDate year.toInt week dow days)
    (hfirst : ¬ (year.toInt = -2 ^ 31 ∧ week = 1 ∧ dow = 1)) :
    yearStart (-2 ^ 31) ≤ days ∧ days < yearStart (2 ^ 31 - 1) := by
  obtain ⟨hmax, hmin⟩ := first_weeks
  obtain ⟨⟨hd1, hd7⟩, ⟨hw1, hw⟩, hdays⟩ := isWeekDate_iff.1 hdate
  have hmonday : ∀ y, firstMonday y = yearStart y + 3 - (yearStart y + 6) % 7 := fun _ => rfl
  have hlow31 := year.le_toInt
  constructor
  · by_cases hyear' : year.toInt = -2 ^ 31
    · rw [hyear'] at hfirst hdays
      have hnot : ¬ (week = 1 ∧ dow = 1) := fun h => hfirst ⟨rfl, h⟩
      omega
    · have hprev := yearStart_succ (year.toInt - 1)
      rw [Int.sub_add_cancel] at hprev
      have hmono := yearStart_strictMono.monotone (show -2 ^ 31 ≤ year.toInt - 1 by omega)
      have h1 := hmonday year.toInt
      split at hprev <;> omega
  · by_cases hyear' : year.toInt + 1 = 2 ^ 31 - 1
    · rw [hyear'] at hw
      omega
    · have hnext := yearStart_succ (year.toInt + 1)
      have hmono := yearStart_strictMono.monotone (show year.toInt + 1 + 1 ≤ 2 ^ 31 - 1 by omega)
      have h1 := hmonday (year.toInt + 1)
      split at hnext <;> omega

/-- A day from the first year to before the last has a date, whose week is right. -/
theorem exists_date {days : ℤ} (hlow : yearStart (-2 ^ 31) ≤ days)
    (hhigh : days < yearStart (2 ^ 31 - 1)) :
    (fromEpochDays days).valid = true ∧ (fromEpochDays days).toEpochDays = days ∧
      ∃ y w, (fromEpochDays days).isoWeek = some (y, w) ∧
        IsWeekDate y.toInt w (fromEpochDays days).dayOfWeek days := by
  obtain ⟨y, m, d, hcivil, rfl⟩ := exists_civil days
  obtain ⟨hstart, hend⟩ := hcivil.year_iff.mp rfl
  have hymin : -2 ^ 31 < y + 1 := yearStart_strictMono.lt_iff_lt.mp (hlow.trans_lt hend)
  have hymax : y < 2 ^ 31 - 1 := yearStart_strictMono.lt_iff_lt.mp (hstart.trans_lt hhigh)
  obtain ⟨hvalid, hdays, hyear⟩ := fromEpochDays_of_civil hcivil ⟨by omega, by omega⟩
  obtain ⟨y', w, hiso, hdate⟩ := isoWeek_spec hvalid (by omega)
  rw [hdays] at hdate
  exact ⟨hvalid, hdays, y', w, hiso, hdate⟩

theorem weekRight_iff (year : Int32) (week dow : UInt32) : WeekRight year week dow ↔
    year ≠ Int32.maxValue ∧ ¬ (year = Int32.minValue ∧ week = 1 ∧ dow = 1) := by
  constructor
  · rintro ⟨haccepts, hrefuses⟩
    constructor
    · intro hmax
      have hnone := fromIsoWeek_maxValue (mt maxValue_iff.mpr (not_not.mpr hmax)) week dow
      by_cases hexists : ∃ days, IsWeekDate year.toInt week.toNat dow.toNat days
      · obtain ⟨days, hdate⟩ := hexists
        obtain ⟨v, hok, -⟩ := haccepts days hdate
        rw [hnone] at hok
        cases hok
      · obtain ⟨e, herror⟩ := hrefuses hexists
        rw [hnone] at herror
        cases herror
    · rintro ⟨rfl, rfl, rfl⟩
      have hmin := first_weeks.2
      have hdate : IsWeekDate (-2 ^ 31) 1 1 (yearStart (-2 ^ 31) - 1) :=
        isWeekDate_iff.2 ⟨⟨le_refl 1, by omega⟩, ⟨le_refl 1, by decide⟩, by omega⟩
      obtain ⟨v, -, hvalid, hdays, -⟩ := haccepts _ hdate
      obtain ⟨hstart, -⟩ := (year_iff hvalid _).mp rfl
      have hmono := yearStart_strictMono.monotone v.year.le_toInt
      omega
  · rintro ⟨hmax, hfirst⟩
    have hyear := maxValue_iff.mp hmax
    have hnot : ¬ (year.toInt = -2 ^ 31 ∧ week.toNat = 1 ∧ dow.toNat = 1) := by
      rintro ⟨hmin, hweek, hdow⟩
      exact hfirst ⟨minValue_iff.mpr hmin, UInt32.toNat_inj.mp hweek, UInt32.toNat_inj.mp hdow⟩
    rcases fromIsoWeek_eq hyear week dow with ⟨e, herror, hnone⟩ | ⟨days, hdate, hok⟩
    · exact ⟨fun days hdate => absurd ⟨days, hdate⟩ hnone, fun _ => ⟨e, herror⟩⟩
    · refine ⟨fun days' hdate' => ?_, fun hnone => absurd ⟨days, hdate⟩ hnone⟩
      obtain ⟨hlow, hhigh⟩ := weekDate_bounds hyear hdate hnot
      obtain ⟨hvalid, hdays, y, w, hiso, hweek⟩ := exists_date hlow hhigh
      obtain ⟨hy, rfl, hdow⟩ := hweek.unique hdate
      obtain rfl := Int32.toInt_inj.mp hy
      have hsame : days' = days := by
        rw [(isWeekDate_iff.1 hdate).2.2, (isWeekDate_iff.1 hdate').2.2]
      exact ⟨_, hok, hvalid, hdays.trans hsame.symm, hiso, hdow⟩

theorem isoWeekRight_iff (hv : v.valid = true) : IsoWeekRight v ↔
    v.year ≠ Int32.maxValue ∧ v ≠ ⟨2147483646, 12, 31⟩ := by
  obtain ⟨hmax, -⟩ := first_weeks
  constructor
  · rintro ⟨y, w, hiso, hdate, hfrom⟩
    constructor
    · intro hyear
      have hnone := nextYear_maxValue (mt maxValue_iff.mpr (not_not.mpr hyear))
      simp only [isoWeek, hnone, bind, bind_none] at hiso
      cases hiso
    · rintro rfl
      have hlast : IsWeekDate (2 ^ 31 - 1) 1 1 (toEpochDays ⟨2147483646, 12, 31⟩) :=
        isWeekDate_iff.2 ⟨⟨le_refl 1, by omega⟩, ⟨le_refl 1, by decide⟩, by decide⟩
      obtain ⟨hy, -, -⟩ := hdate.unique hlast
      rw [fromIsoWeek_maxValue (by omega)] at hfrom
      cases hfrom
  · rintro ⟨hyear, hne⟩
    obtain ⟨y, w, hiso, hdate⟩ := isoWeek_spec hv (maxValue_iff.mp hyear)
    obtain ⟨⟨hd1, hd7⟩, ⟨hw1, hw⟩, hdays⟩ := isWeekDate_iff.1 hdate
    have hfits : y.toInt + 1 < 2 ^ 31 := by
      by_contra hge
      have hylast : y.toInt = 2 ^ 31 - 1 := by
        have hhigh := y.toInt_lt
        omega
      obtain ⟨-, hend⟩ := (year_iff hv _).mp rfl
      have hmono := yearStart_strictMono.monotone
        (show v.year.toInt + 1 ≤ 2 ^ 31 - 1 by have := maxValue_iff.mp hyear; omega)
      rw [hylast] at hdays
      have hday : v.toEpochDays = yearStart (2 ^ 31 - 1) - 1 := by omega
      have hdate' := fromEpochDays_toEpochDays hv
      rw [hday] at hdate'
      exact hne (hdate'.symm.trans (by decide))
    have hsmall : w < 2 ^ 32 := by
      have hlen := yearStart_succ y.toInt
      have h1 : firstMonday y.toInt = yearStart y.toInt + 3 - (yearStart y.toInt + 6) % 7 := rfl
      have h2 : firstMonday (y.toInt + 1) =
        yearStart (y.toInt + 1) + 3 - (yearStart (y.toInt + 1) + 6) % 7 := rfl
      split at hlen <;> omega
    have hweek : (UInt32.ofNat w).toNat = w := UInt32.toNat_ofNat_of_lt' hsmall
    have hdow : (UInt32.ofNat v.dayOfWeek).toNat = v.dayOfWeek :=
      UInt32.toNat_ofNat_of_lt' (by simp [UInt32.size]; omega)
    refine ⟨y, w, hiso, hdate, ?_⟩
    rcases fromIsoWeek_eq hfits (UInt32.ofNat w) (UInt32.ofNat v.dayOfWeek) with
      ⟨e, -, hnone⟩ | ⟨days, hdate', hok⟩
    · rw [hweek, hdow] at hnone
      exact absurd ⟨_, hdate⟩ hnone
    · rw [hweek, hdow] at hdate'
      have hsame : days = v.toEpochDays := by
        rw [(isWeekDate_iff.1 hdate').2.2, (isWeekDate_iff.1 hdate).2.2]
      rw [hok, hsame, fromEpochDays_toEpochDays hv]

/-- The checked conversion inverts the day count wherever the year fits. -/
theorem civilFromDaysChecked_iff {days : ℤ} (hdays : -2 ^ 63 ≤ days ∧ days < 2 ^ 63) :
    civilFromDaysChecked days = some (v.year, v.month, v.day) ↔
      v.valid = true ∧ v.toEpochDays = days := by
  constructor
  · obtain ⟨y, m, d, hcivil, rfl⟩ := exists_civil days
    intro hok
    rw [civilFromDaysChecked_daysFromCivil hcivil hdays] at hok
    split at hok
    next hfits =>
      obtain ⟨hvalid, hday, -⟩ := fromEpochDays_of_civil hcivil hfits
      have hsame : fromEpochDays (daysFromCivil y m d) = v := by
        simp only [fromEpochDays, civilFromDays_daysFromCivil hcivil, Option.some.inj hok]
      rw [← hsame]
      exact ⟨hvalid, hday⟩
    next => cases hok
  · rintro ⟨hvalid, rfl⟩
    rw [toEpochDays, civilFromDaysChecked_daysFromCivil (valid_iff.mp hvalid) hdays,
      if_pos v.fits_year]
    simp

/-- **Days and calendar dates are one and the same**, and so are the days a year and a quarter
have. Weeks are right but at the ends of the years: the last year's weeks overflow, and week 1 of
the first year begins in a year that does not exist. -/
theorem calendar_iff (v w : LoraDate) (days : ℤ) (year : Int32)
    (week dow ordinalDay quarter dayOfQuarter : UInt32) :
    (v.valid = true → w.valid = true → fromEpochDays v.toEpochDays = v ∧
      v.cmp w = compare v.toEpochDays w.toEpochDays ∧
      (v.nextDay = some w → w.toEpochDays = v.toEpochDays + 1) ∧
      (v.dayOfYear : ℤ) = v.toEpochDays - yearStart v.year.toInt + 1) ∧
    (-2 ^ 63 ≤ days ∧ days < 2 ^ 63 → (civilFromDaysChecked days = some (v.year, v.month, v.day) ↔
        v.valid = true ∧ v.toEpochDays = days)) ∧
    (fromOrdinal year ordinalDay = .ok v ↔
      v.valid = true ∧ v.year = year ∧ v.dayOfYear = ordinalDay.toNat) ∧
    (fromQuarter year quarter dayOfQuarter = .ok v ↔ v.valid = true ∧ v.year = year ∧
      v.quarter = quarter.toNat ∧ v.dayOfQuarter = dayOfQuarter.toNat) ∧
    (WeekRight year week dow ↔
      year ≠ Int32.maxValue ∧ ¬ (year = Int32.minValue ∧ week = 1 ∧ dow = 1)) ∧
    (v.valid = true → (IsoWeekRight v ↔ v.year ≠ Int32.maxValue ∧ v ≠ ⟨2147483646, 12, 31⟩)) := by
  refine ⟨fun hv hw => ⟨fromEpochDays_toEpochDays hv, cmp_eq hv hw, fun hnext =>
    (nextDay_spec hv hnext).2, dayOfYear_eq hv⟩, civilFromDaysChecked_iff,
    fromOrdinal_ok_iff year ordinalDay, fromQuarter_ok_iff year quarter dayOfQuarter,
    weekRight_iff year week dow, isoWeekRight_iff⟩

/-- Week 1 of the last year overflows, and so does the week of its dates. Week 1 of the first year
begins with the last day of the last. -/
theorem weeks_wrap : ¬ WeekRight Int32.maxValue 1 1 ∧ ¬ IsoWeekRight ⟨2147483647, 6, 15⟩ ∧
      fromIsoWeek Int32.maxValue 1 1 = none ∧ isoWeek ⟨2147483647, 6, 15⟩ = none ∧
      (fromIsoWeek Int32.minValue 1 1).map Except.toOption = some (some ⟨2147483647, 12, 31⟩) :=
  ⟨fun h => ((weekRight_iff _ _ _).mp h).1 rfl,
    fun h => ((isoWeekRight_iff (by decide)).mp h).1 rfl, by decide, by decide, by decide⟩

end LoraDate

end LoraDb
