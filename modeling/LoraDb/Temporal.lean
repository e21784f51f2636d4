import LoraDb.Value
import LoraDb.Comparing

/-!
# The Order of Temporal Values

The position of a temporal value on its timeline, in nanoseconds: what comparisons and indexes
order by. Dates also order by year, month and day; on calendar dates both are one order.

## Main results

* `LoraDate.cmp_eq_orderNanos`: calendar dates order by year, month and day as they do on the
  timeline.
-/

open Comparing

namespace LoraDb

def isLeapYear (year : ℤ) : Bool :=
  (year.tmod 4 == 0 && year.tmod 100 != 0) || year.tmod 400 == 0

def daysInMonth (year : ℤ) (month : ℕ) : ℕ :=
  match month with
  | 1 => 31
  | 2 => if isLeapYear year then 29 else 28
  | 3 => 31
  | 4 => 30
  | 5 => 31
  | 6 => 30
  | 7 => 31
  | 8 => 31
  | 9 => 30
  | 10 => 31
  | 11 => 30
  | 12 => 31
  | _ => 0

/-- Days since 1970-01-01. Years start in March. -/
def daysFromCivil (y : ℤ) (m d : ℕ) : ℤ :=
  let y := y - if m ≤ 2 then 1 else 0
  let era := (if 0 ≤ y then y else y - 399).tdiv 400
  let yoe := y - era * 400
  let doy := (153 * (if 2 < m then (m : ℤ) - 3 else m + 9) + 2).tdiv 5 + d - 1
  let doe := yoe * 365 + yoe.tdiv 4 - yoe.tdiv 100 + doy
  era * 146097 + doe - 719468

/-- A second, in nanoseconds. -/
def NANOS : ℤ := 1000000000

def daySeconds (hour minute second : UInt32) : ℤ :=
  hour.toNat * 3600 + minute.toNat * 60 + second.toNat

namespace LoraDate

def toEpochDays (v : LoraDate) : ℤ := daysFromCivil v.year.toInt v.month.toNat v.day.toNat

def orderNanos (v : LoraDate) : ℤ := v.toEpochDays * 86400 * NANOS

/-- A date of the calendar: what `new` accepts. -/
def valid (v : LoraDate) : Bool :=
  decide (1 ≤ v.month.toNat ∧ v.month.toNat ≤ 12 ∧
    1 ≤ v.day.toNat ∧ v.day.toNat ≤ daysInMonth v.year.toInt v.month.toNat)

/-- Year, then month, then day. -/
def cmp (v w : LoraDate) : Ordering :=
  ((compare v.year.toInt w.year.toInt).then (compare v.month.toNat w.month.toNat)).then
    (compare v.day.toNat w.day.toNat)

end LoraDate

def LoraDateTime.orderNanos (v : LoraDateTime) : ℤ :=
  (daysFromCivil v.year.toInt v.month.toNat v.day.toNat * 86400 +
    daySeconds v.hour v.minute v.second - v.offsetSeconds.toInt) * NANOS + v.nanosecond.toNat

def LoraLocalDateTime.orderNanos (v : LoraLocalDateTime) : ℤ :=
  (daysFromCivil v.year.toInt v.month.toNat v.day.toNat * 86400 +
    daySeconds v.hour v.minute v.second) * NANOS + v.nanosecond.toNat

def LoraTime.orderNanos (v : LoraTime) : ℤ :=
  (daySeconds v.hour v.minute v.second - v.offsetSeconds.toInt) * NANOS + v.nanosecond.toNat

def LoraLocalTime.orderNanos (v : LoraLocalTime) : ℤ :=
  daySeconds v.hour v.minute v.second * NANOS + v.nanosecond.toNat

/-- A named zone after no zone, and by index. -/
def zoneKey (zone : Option ZoneId) : ℕ := (zone.map fun z => z.index.toNat).getD 0

/-- The instant; the offset and the zone break ties. -/
def LoraDateTime.cmp (v w : LoraDateTime) : Ordering :=
  ((compare v.orderNanos w.orderNanos).then
    (compare v.offsetSeconds.toInt w.offsetSeconds.toInt)).then
      (compare (zoneKey v.zone) (zoneKey w.zone))

def LoraLocalDateTime.cmp (v w : LoraLocalDateTime) : Ordering :=
  compare v.orderNanos w.orderNanos

def LoraTime.cmp (v w : LoraTime) : Ordering :=
  (compare v.orderNanos w.orderNanos).then (compare v.offsetSeconds.toInt w.offsetSeconds.toInt)

def LoraLocalTime.cmp (v w : LoraLocalTime) : Ordering := compare v.orderNanos w.orderNanos

/-! ### Calendar dates -/

/-- The day before the first of a month; months are numbered on from year 0. -/
def monthStart (n : ℤ) : ℤ := daysFromCivil (n / 12) (n % 12 + 1).toNat 0

theorem tdiv_floor (y : ℤ) : (if 0 ≤ y then y else y - 399).tdiv 400 = y / 400 := by
  split
  next h => exact Int.tdiv_eq_ediv_of_nonneg h
  next h =>
    have hsign : Int.sign 400 = 1 := rfl
    rw [Int.tdiv_eq_ediv, hsign]
    split <;> omega

/-- The day count, in divisions that round down. -/
theorem daysFromCivil_eq (y : ℤ) (m d : ℕ) {Y : ℤ} (hY : Y = y - if m ≤ 2 then 1 else 0) :
    daysFromCivil y m d = Y / 400 * 146097 + (Y % 400 * 365 + Y % 400 / 4 - Y % 400 / 100 +
      ((153 * (if 2 < m then (m : ℤ) - 3 else m + 9) + 2) / 5 + d - 1)) - 719468 := by
  have hrest : Y - Y / 400 * 400 = Y % 400 := by omega
  have hmonth : (0 : ℤ) ≤ 153 * (if 2 < m then (m : ℤ) - 3 else m + 9) + 2 := by split <;> omega
  simp only [daysFromCivil, ← hY, tdiv_floor, hrest]
  rw [Int.tdiv_eq_ediv_of_nonneg hmonth, Int.tdiv_eq_ediv_of_nonneg (by omega),
    Int.tdiv_eq_ediv_of_nonneg (by omega)]

theorem daysFromCivil_day (y : ℤ) (m d : ℕ) : daysFromCivil y m d = daysFromCivil y m 0 + d := by
  simp only [daysFromCivil]
  omega

theorem leap_iff (y : ℤ) : isLeapYear y = true ↔ (y % 4 = 0 ∧ y % 100 ≠ 0) ∨ y % 400 = 0 := by
  simp only [isLeapYear, Bool.or_eq_true, Bool.and_eq_true, beq_iff_eq, bne_iff_ne, ne_eq,
    ← Int.dvd_iff_tmod_eq_zero, Int.dvd_iff_emod_eq_zero]

/-- A month starts where the one before it ends. -/
theorem monthStart_succ (n : ℤ) :
    monthStart (n + 1) = monthStart n + daysInMonth (n / 12) (n % 12 + 1).toNat := by
  have hlow : 0 ≤ n % 12 := Int.emod_nonneg n (by decide)
  have hhigh : n % 12 < 12 := Int.emod_lt_of_pos n (by decide)
  have hleap := leap_iff (n / 12)
  rw [monthStart, monthStart]
  rcases lt_or_ge (n % 12) 11 with hk | hk
  · have hyear : (n + 1) / 12 = n / 12 := by omega
    have hmonth : ((n + 1) % 12 + 1).toNat = (n % 12 + 1).toNat + 1 := by omega
    rw [hyear, hmonth]
    generalize n / 12 = y at hleap ⊢
    obtain ⟨m, hm⟩ : ∃ m : ℕ, (n % 12 + 1).toNat = m := ⟨_, rfl⟩
    rw [hm]
    have hm1 : 1 ≤ m := by omega
    have hm11 : m ≤ 11 := by omega
    rw [daysFromCivil_eq y (m + 1) 0 rfl, daysFromCivil_eq y m 0 rfl]
    have hprev : ((y - 1) / 400 = y / 400 - 1 ∧ (y - 1) % 400 = 399 ∧ y % 400 = 0) ∨
        ((y - 1) / 400 = y / 400 ∧ (y - 1) % 400 = y % 400 - 1 ∧ 0 < y % 400) := by omega
    have hcycle : y % 4 = y % 400 % 4 ∧ y % 100 = y % 400 % 100 := by omega
    rw [hcycle.1, hcycle.2] at hleap
    interval_cases m <;> simp [daysInMonth] <;> try omega
    -- February, the only month whose length depends on the year.
    by_cases hl : isLeapYear y = true
    · have hyear := hleap.mp hl
      rw [if_pos hl]
      rcases hprev with ⟨hera, hyoe, hzero⟩ | ⟨hera, hyoe, hpos⟩ <;> rw [hera, hyoe] <;> omega
    · have hyear := mt hleap.mpr hl
      rw [if_neg hl]
      rcases hprev with ⟨hera, hyoe, hzero⟩ | ⟨hera, hyoe, hpos⟩ <;> rw [hera, hyoe] <;> omega
  · have hyear : (n + 1) / 12 = n / 12 + 1 := by omega
    have hmonth : ((n + 1) % 12 + 1).toNat = 1 := by omega
    have hlast : (n % 12 + 1).toNat = 12 := by omega
    rw [hyear, hmonth, hlast, daysFromCivil_eq _ 1 0 rfl, daysFromCivil_eq _ 12 0 rfl]
    simp [daysInMonth]
    omega

theorem daysInMonth_pos (y : ℤ) {m : ℕ} (h : 1 ≤ m) (h' : m ≤ 12) : 0 < daysInMonth y m := by
  interval_cases m <;> simp [daysInMonth]
  split <;> omega

theorem monthStart_strictMono : StrictMono monthStart := by
  refine strictMono_int_of_lt_succ fun n => ?_
  rw [monthStart_succ]
  have hpos := @daysInMonth_pos (n / 12) (n % 12 + 1).toNat (by omega) (by omega)
  omega

namespace LoraDate

variable {v w : LoraDate}

/-- The month of a date, numbered on from year 0. -/
def monthIndex (v : LoraDate) : ℤ := v.year.toInt * 12 + (v.month.toNat - 1)

theorem toEpochDays_eq (hv : v.valid = true) :
    v.toEpochDays = monthStart v.monthIndex + v.day.toNat ∧ 1 ≤ v.day.toNat ∧
      monthStart v.monthIndex + v.day.toNat ≤ monthStart (v.monthIndex + 1) := by
  obtain ⟨hm1, hm12, hd1, hd⟩ := of_decide_eq_true hv
  have hyear : v.monthIndex / 12 = v.year.toInt := by
    rw [monthIndex]
    omega
  have hmonth : (v.monthIndex % 12 + 1).toNat = v.month.toNat := by
    rw [monthIndex]
    omega
  refine ⟨?_, hd1, ?_⟩
  · rw [monthStart, hyear, hmonth, ← daysFromCivil_day]
    rfl
  · rw [monthStart_succ, hyear, hmonth]
    omega

/-- Calendar dates order on the timeline as by year, month and day. -/
theorem cmp_eq (hv : v.valid = true) (hw : w.valid = true) :
    v.cmp w = compare v.toEpochDays w.toEpochDays := by
  obtain ⟨hvday, hv1, hvnext⟩ := toEpochDays_eq hv
  obtain ⟨hwday, hw1, hwnext⟩ := toEpochDays_eq hw
  obtain ⟨hvm, hvm12, -⟩ := of_decide_eq_true hv
  obtain ⟨hwm, hwm12, -⟩ := of_decide_eq_true hw
  have hmonths : (compare v.year.toInt w.year.toInt).then (compare v.month.toNat w.month.toNat) =
      compare v.monthIndex w.monthIndex := by
    have hvi : v.monthIndex = v.year.toInt * 12 + (v.month.toNat - 1) := rfl
    have hwi : w.monthIndex = w.year.toInt * 12 + (w.month.toNat - 1) := rfl
    refine compare_then_congr (fun h => ?_) (fun h => ?_) (fun h => ?_)
    · omega
    · exact compare_congr (fun _ => by omega) (fun _ => by omega) (fun _ => by omega)
    · omega
  rw [cmp, hmonths, hvday, hwday]
  refine compare_then_congr (fun h => ?_) (fun h => ?_) (fun h => ?_)
  · have hnext := monthStart_strictMono.monotone (Int.add_one_le_of_lt h)
    omega
  · rw [h]
    exact compare_congr (fun _ => by omega) (fun _ => by omega) (fun _ => by omega)
  · have hnext := monthStart_strictMono.monotone (Int.add_one_le_of_lt h)
    omega

/-- Nanoseconds order as days do. -/
theorem compare_orderNanos :
    compare v.orderNanos w.orderNanos = compare v.toEpochDays w.toEpochDays := by
  have hv : v.orderNanos = v.toEpochDays * 86400 * 1000000000 := rfl
  have hw : w.orderNanos = w.toEpochDays * 86400 * 1000000000 := rfl
  exact compare_congr (fun _ => by omega) (fun _ => by omega) (fun _ => by omega)

theorem cmp_eq_orderNanos (hv : v.valid = true) (hw : w.valid = true) :
    v.cmp w = compare v.orderNanos w.orderNanos := by
  rw [cmp_eq hv hw, compare_orderNanos]

end LoraDate

end LoraDb
