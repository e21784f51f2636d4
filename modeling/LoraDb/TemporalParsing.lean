import LoraDb.ByteCodec
import LoraDb.Calendar
import Mathlib.Data.List.Induction

/-!
# Reading Dates and Times

The parsers of ISO dates, of clocks and of offsets, over the bytes of a text. A week date may
overflow in the last year, which is `none` here as it is in the calendar.

## Main results

* `parseDate_valid`: a date that is read is one of the calendar.
* `parseTimeString_nanosecond`: the fraction of a clock is less than a second.
-/

open ByteCodec

namespace LoraDb

open List Option

/-- The text of some bytes, for messages. -/
def text (s : Bytes) : String := (String.fromUTF8? ⟨s.toArray⟩).getD ""

def isDigit (c : UInt8) : Bool := 48 ≤ c && c ≤ 57

/-- A run of at most nine digits as a number. -/
def digits (b : Bytes) : Option UInt32 :=
  if b = [] ∨ 9 < b.length then none
  else b.foldlM (fun acc d => if isDigit d then some (acc * 10 + (d - 48).toUInt32) else none) 0

namespace LoraDate

/-- A date of the calendar, by its fields. -/
def new (year : Int32) (month day : UInt32) : Except String LoraDate :=
  if ¬ (1 ≤ month.toNat ∧ month.toNat ≤ 12) then .error s!"Invalid month: {month.toNat}"
  else if day.toNat < 1 ∨ daysInMonth year.toInt month.toNat < day.toNat then
    let padded := if month.toNat < 10 then s!"0{month.toNat}" else s!"{month.toNat}"
    .error s!"Invalid day {day.toNat} for {year.toInt}-{padded}"
  else .ok { year, month, day }

end LoraDate

/-! ### Dates -/

/-- `ww[-D]` or `ww[D]` after the `W`; inside, an overflow of the last year. -/
def weekDate (year : Int32) (s : Bytes) (extended : Bool) :
    Option (Option (Except String LoraDate)) :=
  match s, extended with
  | [w1, w2], _ => (digits [w1, w2]).map fun week => LoraDate.fromIsoWeek year week 1
  | [w1, w2, 45, d], true | [w1, w2, d], false => do
    let week ← digits [w1, w2]
    let dow ← digits [d]
    some (LoraDate.fromIsoWeek year week dow)
  | _, _ => none

/-- `q[-DD]` or `q[DD]` after the `Q`. -/
def quarterDate (year : Int32) (s : Bytes) (extended : Bool) : Option (Except String LoraDate) :=
  match s, extended with
  | [q], _ => (digits [q]).map fun quarter => LoraDate.fromQuarter year quarter 1
  | [q, 45, d1, d2], true | [q, d1, d2], false => do
    let quarter ← digits [q]
    let day ← digits [d1, d2]
    some (LoraDate.fromQuarter year quarter day)
  | _, _ => none

/-- The year its digits and its sign spell, if it fits. -/
def yearOf (negative : Bool) (head : Bytes) : Option Int32 := do
  let y ← head.foldlM (fun acc d => do
    let tens ← checked (acc * 10)
    checked (tens + (d - 48).toNat)) (0 : ℤ)
  let y := if negative then -y else y
  if -2 ^ 31 ≤ y ∧ y < 2 ^ 31 then some (Int32.ofInt y) else none

/-- The forms without a separator: `YYYY`, `YYYYMM`, `YYYYDDD` and `YYYYMMDD`. -/
def basicDate (head : Bytes) : Option (Except String LoraDate) :=
  match head.length with
  | 4 => do
    let year ← yearOf false head
    some (LoraDate.new year 1 1)
  | 6 => do
    let year ← yearOf false (head.take 4)
    let month ← digits (head.drop 4)
    some (LoraDate.new year month 1)
  | 7 => do
    let year ← yearOf false (head.take 4)
    let day ← digits (head.drop 4)
    some (LoraDate.fromOrdinal year day)
  | 8 => do
    let year ← yearOf false (head.take 4)
    let month ← digits ((head.drop 4).take 2)
    let day ← digits (head.drop 6)
    some (LoraDate.new year month day)
  | _ => none

/-- What may follow a year and a `-`, but weeks and quarters: `MM`, `MM-DD` and `DDD`. -/
def extendedDate (year : Int32) (rest : Bytes) : Option (Except String LoraDate) :=
  match rest with
  | [m1, m2] => do
    let month ← digits [m1, m2]
    some (LoraDate.new year month 1)
  | [m1, m2, 45, d1, d2] => do
    let month ← digits [m1, m2]
    let day ← digits [d1, d2]
    some (LoraDate.new year month day)
  | [d1, d2, d3] => do
    let day ← digits [d1, d2, d3]
    some (LoraDate.fromOrdinal year day)
  | _ => none

/-- Whether a text starts with a `-`, and what follows its sign. -/
def splitSign (b : Bytes) : Bool × Bytes :=
  match b with
  | 43 :: rest => (false, rest)
  | 45 :: rest => (true, rest)
  | _ => (false, b)

/-- A date in any of the forms. Refused texts are `none`, and so, inside, are overflows. -/
def dateForms (b : Bytes) : Option (Option (Except String LoraDate)) :=
  let negative := (splitSign b).1
  let unsigned := (splitSign b).2
  let signed := unsigned.length != b.length
  let head := unsigned.takeWhile isDigit
  let rest := unsigned.dropWhile isDigit
  match rest with
  | [] =>
    if signed then
      if 1 ≤ head.length then (yearOf negative head).map fun year => some (LoraDate.new year 1 1)
      else none
    else (basicDate head).map some
  | 45 :: rest =>
    if 4 ≤ head.length ∨ (signed = true ∧ 1 ≤ head.length) then do
      let year ← yearOf negative head
      match rest with
      | 87 :: week => weekDate year week true
      | 81 :: quarter => (quarterDate year quarter true).map some
      | _ => (extendedDate year rest).map some
    else none
  | 87 :: week =>
    if head.length = 4 ∧ signed = false then do
      let year ← yearOf negative head
      weekDate year week false
    else none
  | 81 :: quarter =>
    if head.length = 4 ∧ signed = false then do
      let year ← yearOf negative head
      (quarterDate year quarter false).map some
    else none
  | _ => none

/-- `YYYY-MM-DD`, the common form. -/
def commonDate (b : Bytes) : Option (Except String LoraDate) :=
  match b with
  | [y1, y2, y3, y4, 45, m1, m2, 45, d1, d2] => do
    let year ← digits [y1, y2, y3, y4]
    let month ← digits [m1, m2]
    let day ← digits [d1, d2]
    some (LoraDate.new (Int32.ofNat year.toNat) month day)
  | _ => none

/-- Reads a date. `none` is an overflow. -/
def parseDate (s : Bytes) : Option (Except String LoraDate) :=
  match commonDate s with
  | some date => some date
  | none => (dateForms s).getD (some (.error s!"Invalid date: {text s}"))

/-! ### Times -/

/-- `±HH:MM`, `±HHMM` or `±HH`, at most 18 hours. -/
def parseOffset (s : Bytes) : Except String Int32 :=
  let err := Except.error s!"Invalid offset: {text s}"
  let offset (sign : ℤ) (hm : Option UInt32 × Option UInt32) : Except String Int32 :=
    match hm with
    | (some h, some m) =>
      if m.toNat < 60 ∧ h.toNat * 3600 + m.toNat * 60 ≤ 18 * 3600 then
        .ok (Int32.ofInt (sign * (h.toNat * 3600 + m.toNat * 60)))
      else err
    | _ => err
  let fields (sign : ℤ) (rest : Bytes) : Except String Int32 :=
    match rest with
    | [h1, h2] => offset sign (digits [h1, h2], some 0)
    | [h1, h2, m1, m2] | [h1, h2, 58, m1, m2] =>
      offset sign (digits [h1, h2], digits [m1, m2])
    | _ => err
  match s with
  | 43 :: rest => fields 1 rest
  | 45 :: rest => fields (-1) rest
  | _ => err

/-- The hour, the minute and the second of a clock without its fraction. -/
def clockFields (hms : Bytes) : Option (UInt32 × UInt32 × UInt32) :=
  match hms with
  | [h1, h2] => do
    let hour ← digits [h1, h2]
    some (hour, 0, 0)
  | [h1, h2, m1, m2] | [h1, h2, 58, m1, m2] => do
    let hour ← digits [h1, h2]
    let minute ← digits [m1, m2]
    some (hour, minute, 0)
  | [h1, h2, m1, m2, s1, s2] | [h1, h2, 58, m1, m2, 58, s1, s2] => do
    let hour ← digits [h1, h2]
    let minute ← digits [m1, m2]
    let second ← digits [s1, s2]
    some (hour, minute, second)
  | _ => none

/-- The first nine digits of a fraction, filled up with zeros. -/
def fractionNanos (f : Bytes) : UInt32 :=
  ((f ++ replicate 9 48).take 9).foldl
    (fun (acc : UInt32) (d : UInt8) => acc * 10 + (d - 48).toUInt32) 0

/-- The clock of a time, and its offset if it has one. -/
def splitOffset (s : Bytes) : Except String (Bytes × Option Int32) :=
  if s.getLast? = some 90 then .ok (s.dropLast, some 0)
  -- A clock never contains a sign, so the first one starts the offset.
  else if s.any fun c => c == 43 || c == 45 then
    (parseOffset (s.dropWhile fun c => !(c == 43 || c == 45))).map fun offset =>
      (s.takeWhile fun c => !(c == 43 || c == 45), some offset)
  else .ok (s, none)

/-- Reads a clock and an offset. The clock's range is not checked here. -/
def parseTimeString (s : Bytes) :
    Except String (UInt32 × UInt32 × UInt32 × UInt32 × Option Int32) :=
  if s.any (128 ≤ ·) then .error s!"Invalid time: {text s}"
  else
    match splitOffset s with
    | .error e => .error e
    | .ok (clock, offset) =>
      let hms := clock.takeWhile (· != 46)
      match clockFields hms with
      | none => .error s!"Invalid time: {text s}"
      | some (hour, minute, second) =>
        match clock.dropWhile (· != 46) with
        | [] => .ok (hour, minute, second, 0, offset)
        | _ :: f =>
          if 6 ≤ hms.length ∧ f ≠ [] ∧ f.all isDigit = true then
            .ok (hour, minute, second, fractionNanos f, offset)
          else .error s!"Invalid fractional seconds: {text s}"

/-! ### What is read is in range -/

namespace LoraDate

variable {v : LoraDate}

theorem new_eq {year : Int32} {month day : UInt32} (h : new year month day = .ok v) :
    v = ⟨year, month, day⟩ ∧ v.valid = true := by
  unfold new at h
  split at h
  · cases h
  · next hmonth =>
    split at h
    · cases h
    · next hday =>
      obtain rfl := Except.ok.inj h
      refine ⟨rfl, valid_iff.mpr ⟨?_, ?_, ?_, ?_⟩⟩ <;> simp only at * <;> omega

theorem new_of_valid (hv : v.valid = true) : new v.year v.month v.day = .ok v := by
  obtain ⟨hm1, hm12, hd1, hd⟩ := valid_iff.mp hv
  rw [new, if_neg (not_not.mpr ⟨hm1, hm12⟩), if_neg (by omega)]

theorem fromIsoWeek_valid {year : Int32} {week dow : UInt32}
    (h : fromIsoWeek year week dow = some (.ok v)) : v.valid = true := by
  by_cases hmax : year.toInt + 1 < 2 ^ 31
  · by_cases hfirst : year.toInt = -2 ^ 31 ∧ week.toNat = 1 ∧ dow.toNat = 1
    · obtain ⟨hyear, hweek, hdow⟩ := hfirst
      obtain rfl := minValue_iff.mpr hyear
      obtain rfl := UInt32.toNat_inj.mp (hweek.trans (show 1 = (1 : UInt32).toNat from rfl))
      obtain rfl := UInt32.toNat_inj.mp (hdow.trans (show 1 = (1 : UInt32).toNat from rfl))
      have hlast := weeks_wrap.2.2.2.2
      rw [h] at hlast
      obtain rfl : v = ⟨2147483647, 12, 31⟩ := Option.some.inj (Option.some.inj hlast)
      decide
    · rcases fromIsoWeek_eq hmax week dow with ⟨e, herror, -⟩ | ⟨days, hdate, hok⟩
      · rw [herror] at h
        cases Option.some.inj h
      · obtain ⟨hlow, hhigh⟩ := weekDate_bounds hmax hdate hfirst
        rw [hok] at h
        obtain rfl := Except.ok.inj (Option.some.inj h)
        exact (exists_date hlow hhigh).1
  · rw [fromIsoWeek_maxValue hmax] at h
    cases h

end LoraDate

open LoraDate

variable {year : Int32}

theorem fromOrdinal_valid {v : LoraDate} {day : UInt32}
    (h : fromOrdinal year day = .ok v) : v.valid = true := ((fromOrdinal_ok_iff year day).mp h).1

theorem fromQuarter_valid {v : LoraDate} {quarter day : UInt32}
    (h : fromQuarter year quarter day = .ok v) : v.valid = true :=
  ((fromQuarter_ok_iff year quarter day).mp h).1

theorem weekDate_valid {s : Bytes} {extended : Bool} {v : LoraDate}
    (h : weekDate year s extended = some (some (.ok v))) : v.valid = true := by
  unfold weekDate at h
  split at h <;>
    simp only [bind, map_eq_some_iff, bind_eq_some_iff, Option.some.injEq, reduceCtorEq] at h
  · obtain ⟨week, -, hdate⟩ := h
    exact fromIsoWeek_valid hdate
  all_goals
    obtain ⟨week, -, dow, -, hdate⟩ := h
    exact fromIsoWeek_valid hdate

theorem quarterDate_valid {s : Bytes} {extended : Bool} {v : LoraDate}
    (h : quarterDate year s extended = some (.ok v)) : v.valid = true := by
  unfold quarterDate at h
  split at h <;>
    simp only [bind, map_eq_some_iff, bind_eq_some_iff, Option.some.injEq, reduceCtorEq] at h
  · obtain ⟨quarter, -, hdate⟩ := h
    exact fromQuarter_valid hdate
  all_goals
    obtain ⟨quarter, -, day, -, hdate⟩ := h
    exact fromQuarter_valid hdate

theorem basicDate_valid {head : Bytes} {v : LoraDate} (h : basicDate head = some (.ok v)) :
    v.valid = true := by
  unfold basicDate at h
  split at h <;>
    simp only [bind, bind_eq_some_iff, Option.some.injEq, reduceCtorEq] at h
  · obtain ⟨year, -, hdate⟩ := h
    exact (new_eq hdate).2
  · obtain ⟨year, -, month, -, hdate⟩ := h
    exact (new_eq hdate).2
  · obtain ⟨year, -, day, -, hdate⟩ := h
    exact fromOrdinal_valid hdate
  · obtain ⟨year, -, month, -, day, -, hdate⟩ := h
    exact (new_eq hdate).2

theorem extendedDate_valid {rest : Bytes} {v : LoraDate}
    (h : extendedDate year rest = some (.ok v)) : v.valid = true := by
  unfold extendedDate at h
  split at h <;>
    simp only [bind, bind_eq_some_iff, Option.some.injEq, reduceCtorEq] at h
  · obtain ⟨month, -, hdate⟩ := h
    exact (new_eq hdate).2
  · obtain ⟨month, -, day, -, hdate⟩ := h
    exact (new_eq hdate).2
  · obtain ⟨day, -, hdate⟩ := h
    exact fromOrdinal_valid hdate

theorem commonDate_valid {b : Bytes} {v : LoraDate} (h : commonDate b = some (.ok v)) :
    v.valid = true := by
  unfold commonDate at h
  split at h <;>
    simp only [bind, bind_eq_some_iff, Option.some.injEq, reduceCtorEq] at h
  obtain ⟨year, -, month, -, day, -, hdate⟩ := h
  exact (new_eq hdate).2

/-- What follows the year decides the form, and each form checks its fields. -/
theorem dateForms_valid {b : Bytes} {v : LoraDate} (h : dateForms b = some (some (.ok v))) :
    v.valid = true := by
  unfold dateForms at h
  extract_lets negative unsigned signed head rest at h
  clear_value rest signed head negative
  split at h
  · split at h
    · split at h
      · obtain ⟨year, -, hdate⟩ := Option.map_eq_some_iff.mp h
        exact (new_eq (Option.some.inj hdate)).2
      · cases h
    · obtain ⟨date, hdate, heq⟩ := Option.map_eq_some_iff.mp h
      exact basicDate_valid (hdate.trans (congrArg some (Option.some.inj heq)))
  · split at h
    · obtain ⟨year, -, hdate⟩ := Option.bind_eq_some_iff.mp h
      split at hdate
      · exact weekDate_valid hdate
      · obtain ⟨date, hdate, heq⟩ := Option.map_eq_some_iff.mp hdate
        exact quarterDate_valid (hdate.trans (congrArg some (Option.some.inj heq)))
      · obtain ⟨date, hdate, heq⟩ := Option.map_eq_some_iff.mp hdate
        exact extendedDate_valid (hdate.trans (congrArg some (Option.some.inj heq)))
    · cases h
  · split at h
    · obtain ⟨year, -, hdate⟩ := Option.bind_eq_some_iff.mp h
      exact weekDate_valid hdate
    · cases h
  · split at h
    · obtain ⟨year, -, hdate⟩ := Option.bind_eq_some_iff.mp h
      obtain ⟨date, hdate, heq⟩ := Option.map_eq_some_iff.mp hdate
      exact quarterDate_valid (hdate.trans (congrArg some (Option.some.inj heq)))
    · cases h
  · cases h

/-- A date that is read is one of the calendar. -/
theorem parseDate_valid {s : Bytes} {v : LoraDate} (h : parseDate s = some (.ok v)) :
    v.valid = true := by
  unfold parseDate at h
  split at h
  · next date hcommon =>
    obtain rfl := Option.some.inj h
    exact commonDate_valid hcommon
  · cases hforms : dateForms s with
    | none =>
      rw [hforms] at h
      cases h
    | some date =>
      rw [hforms, getD_some] at h
      subst h
      exact dateForms_valid hforms

/-- A fold of `n` digits is less than `10 ^ n`. -/
theorem foldl_digits_lt (f : Bytes) (hf : f.all isDigit = true) (hlen : f.length ≤ 9) :
    (f.foldl (fun (acc : UInt32) (d : UInt8) => acc * 10 + (d - 48).toUInt32) 0).toNat <
      10 ^ f.length := by
  induction f using reverseRecOn with
  | nil => decide
  | append_singleton f d ih =>
    rw [all_append, Bool.and_eq_true] at hf
    rw [length_append] at hlen ⊢
    have hrest := ih hf.1 (by simp at hlen; omega)
    have hpow : 10 ^ f.length ≤ 10 ^ 8 := Nat.pow_le_pow_right (by omega) (by simp at hlen; omega)
    have hd : d.toNat ≤ 57 ∧ 48 ≤ d.toNat := by
      have hd := hf.2
      simp only [isDigit, all_cons, all_nil, Bool.and_true, Bool.and_eq_true,
        decide_eq_true_eq, UInt8.le_iff_toNat_le] at hd
      exact ⟨hd.2, hd.1⟩
    have hsub : (d - 48).toUInt32.toNat = d.toNat - 48 := by
      rw [UInt8.toNat_toUInt32, UInt8.toNat_sub_of_le _ _ 
        (UInt8.le_iff_toNat_le.mpr (show (48 : UInt8).toNat ≤ d.toNat from hd.2))]
      rfl
    rw [foldl_append, foldl_cons, foldl_nil, UInt32.toNat_add, UInt32.toNat_mul,
      hsub, show (10 : UInt32).toNat = 10 from rfl, length_singleton, pow_succ]
    omega

theorem fractionNanos_lt {f : Bytes} (hf : f.all isDigit = true) :
    (fractionNanos f).toNat < 1000000000 := by
  have hlen : ((f ++ replicate 9 48).take 9).length = 9 := by
    rw [length_take, length_append, length_replicate]
    omega
  have hall : ((f ++ replicate 9 48).take 9).all isDigit = true := by
    refine List.all_eq_true.mpr fun c hc => ?_
    rcases List.mem_append.mp (mem_of_mem_take hc) with hmem | hmem
    · exact List.all_eq_true.mp hf c hmem
    · obtain rfl := eq_of_mem_replicate hmem
      decide
  have hlt := foldl_digits_lt _ hall hlen.le
  rwa [hlen] at hlt

/-- The fraction of a clock is less than a second. -/
theorem parseTimeString_nanosecond {s : Bytes} {hour minute second nanosecond : UInt32}
    {offset : Option Int32}
    (h : parseTimeString s = .ok (hour, minute, second, nanosecond, offset)) :
    nanosecond.toNat < 1000000000 := by
  unfold parseTimeString at h
  split at h
  · cases h
  · split at h
    · cases h
    · next clock offset' hsplit =>
      dsimp only at h
      cases hfields : clockFields (clock.takeWhile (· != 46)) with
      | none =>
        rw [hfields] at h
        cases h
      | some fields =>
        rw [hfields] at h
        obtain ⟨hour', minute', second'⟩ := fields
        dsimp only at h
        split at h
        · cases h
          decide
        · split at h
          · next hfraction =>
            cases h
            exact fractionNanos_lt hfraction.2.2
          · cases h

end LoraDb
