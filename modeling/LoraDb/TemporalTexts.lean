import LoraDb.TemporalParsing

/-!
# The Texts of Dates and Times

Which texts name a date, and which date: the forms a date may have, apart from how they are read.
A form has a year and names a day of it, by month, by number, by week or by quarter. Years have
four digits; where separators tell the year from the rest, it may be longer, and signed.

## Main results

* `dateForms_sound`, `dateForms_complete`: what is read is what a form spells.
* `parseDate_iff`: the texts that are read are those that name a date of the calendar.
* `parseTimeString_iff`: a text is read as the clock and the offset it spells.
-/

open ByteCodec

namespace LoraDb

open List Option

/-! ### Numbers -/

/-- The number some digits spell. -/
def spelled (b : Bytes) : ℕ := b.foldl (fun acc d => acc * 10 + (d.toNat - 48)) 0

/-- A run of `n` digits. -/
def Digits (n : ℕ) (b : Bytes) : Prop := b.length = n ∧ b.all isDigit = true

theorem isDigit_iff {d : UInt8} : isDigit d = true ↔ 48 ≤ d.toNat ∧ d.toNat ≤ 57 := by
  simp only [isDigit, Bool.and_eq_true, decide_eq_true_eq, UInt8.le_iff_toNat_le]
  exact Iff.rfl

theorem toNat_sub_zero {d : UInt8} (hd : isDigit d = true) : (d - 48).toNat = d.toNat - 48 := by
  have hle : (48 : UInt8) ≤ d := UInt8.le_iff_toNat_le.mpr (isDigit_iff.mp hd).1
  rw [UInt8.toNat_sub_of_le _ _ hle]
  rfl

theorem toUInt32_sub_zero {d : UInt8} (hd : isDigit d = true) :
    (d - 48).toUInt32 = UInt32.ofNat (d.toNat - 48) := by
  rw [← UInt32.toNat_inj, UInt8.toNat_toUInt32, toNat_sub_zero hd,
    UInt32.toNat_ofNat_of_lt' (by have := d.toNat_lt; simp [UInt32.size]; omega)]

theorem spelled_append_singleton (b : Bytes) (d : UInt8) :
    spelled (b ++ [d]) = spelled b * 10 + (d.toNat - 48) := by
  rw [spelled, foldl_append]
  rfl

variable {b : Bytes}

theorem spelled_lt (hb : b.all isDigit = true) : spelled b < 10 ^ b.length := by
  induction b using reverseRecOn with
  | nil => decide
  | append_singleton b d ih =>
    rw [all_append, Bool.and_eq_true] at hb
    have hrest := ih hb.1
    have hd := isDigit_iff.mp (List.all_eq_true.mp hb.2 d (mem_singleton_self d))
    rw [spelled_append_singleton, length_append, length_singleton, pow_succ]
    omega

/-- A run of digits, read modulo 32 bits. -/
theorem foldlM_digits (b : Bytes) :
    b.foldlM (fun acc d => if isDigit d then some (acc * 10 + (d - 48).toUInt32) else none) 0 =
      if b.all isDigit = true then some (UInt32.ofNat (spelled b)) else none := by
  induction b using reverseRecOn with
  | nil => rfl
  | append_singleton b d ih =>
    rw [foldlM_append, ih, all_append, all_cons, all_nil, Bool.and_true]
    by_cases hb : b.all isDigit = true
    · by_cases hd : isDigit d = true
      · simp only [hb, hd, if_true, bind, bind_some, Bool.and_self, foldlM_cons,
          foldlM_nil, pure, spelled_append_singleton, UInt32.ofNat_add, UInt32.ofNat_mul,
          toUInt32_sub_zero hd]
        rfl
      · simp [hb, hd]
    · simp [hb]

theorem digits_eq_some {w : UInt32} (h : digits b = some w) :
    b.all isDigit = true ∧ w = UInt32.ofNat (spelled b) := by
  rw [digits, foldlM_digits] at h
  split at h
  · cases h
  · split at h
    · next hall => exact ⟨hall, (Option.some.inj h).symm⟩
    · cases h

variable {n : ℕ}

theorem Digits.read (hb : Digits n b) (hn : 1 ≤ n ∧ n ≤ 9) :
    digits b = some (UInt32.ofNat (spelled b)) := by
  obtain ⟨hlen, hall⟩ := hb
  have hne : ¬ (b = [] ∨ 9 < b.length) := by
    rintro (rfl | hlong)
    · simp at hlen
      omega
    · omega
  rw [digits, if_neg hne, foldlM_digits, if_pos hall]

/-- A number of few digits fits. -/
theorem Digits.toNat (hb : Digits n b) (hn : n ≤ 9) :
    (UInt32.ofNat (spelled b)).toNat = spelled b := by
  obtain ⟨hlen, hall⟩ := hb
  have hlt := spelled_lt hall
  have hpow : 10 ^ b.length ≤ 10 ^ 9 := Nat.pow_le_pow_right (by omega) (by omega)
  exact UInt32.toNat_ofNat_of_lt' (by simp only [UInt32.size]; omega)

/-- A sum that is checked on the way is the one checked at the end: the digits only add. -/
theorem checked_digit (n k : ℕ) : ((checked (n : ℤ)).bind fun acc =>
    (checked (acc * 10)).bind fun tens => checked (tens + (k : ℤ))) = checked (n * 10 + k : ℕ) := by
  by_cases hfits : n * 10 + k < 2 ^ 63
  · rw [checked_eq (by omega), bind_some, checked_eq (by omega), bind_some]
    push_cast
    rfl
  · have hnone : checked (n * 10 + k : ℕ) = none := if_neg (by omega)
    rw [hnone]
    refine Option.bind_eq_none_iff.mpr fun acc hacc =>
      Option.bind_eq_none_iff.mpr fun tens htens => ?_
    rw [checked, ite_none_right_eq_some, Option.some.injEq] at hacc htens
    rw [← htens.2, ← hacc.2]
    exact if_neg (by omega)

theorem foldlM_year (hb : b.all isDigit = true) : b.foldlM (fun acc d => do
      let tens ← checked (acc * 10)
      checked (tens + (d - 48).toNat)) (0 : ℤ) = checked (spelled b) := by
  induction b using reverseRecOn with
  | nil => rfl
  | append_singleton b d ih =>
    rw [all_append, Bool.and_eq_true] at hb
    have hd := List.all_eq_true.mp hb.2 d (mem_singleton_self d)
    rw [foldlM_append, ih hb.1, spelled_append_singleton, ← checked_digit, ← toNat_sub_zero hd]
    simp only [foldlM_cons, foldlM_nil, bind_pure, bind_eq_bind]

/-- A year is read when it fits. -/
theorem yearOf_iff {negative : Bool} (hb : b.all isDigit = true) {year : Int32} :
    yearOf negative b = some year ↔
      year.toInt = if negative then -(spelled b : ℤ) else spelled b := by
  have hlow := year.le_toInt
  have hhigh := year.toInt_lt
  obtain ⟨y, hy⟩ : ∃ y : ℤ, (if negative then -(spelled b : ℤ) else spelled b) = y := ⟨_, rfl⟩
  have habs : (spelled b : ℤ) = |y| := by
    rw [← hy]
    split <;> simp
  rw [yearOf, foldlM_year hb, hy]
  by_cases hfits : (spelled b : ℤ) < 2 ^ 63
  · rw [checked_eq ⟨by omega, hfits⟩]
    change (if -2 ^ 31 ≤ (if negative then -(spelled b : ℤ) else spelled b) ∧
      (if negative then -(spelled b : ℤ) else spelled b) < 2 ^ 31 then _ else _) = _ ↔ _
    rw [hy]
    split
    · next hyear =>
      rw [Option.some.injEq, ← Int32.toInt_inj, Int32.toInt_ofInt_of_le hyear.1 hyear.2]
      exact eq_comm
    · next hyear =>
      refine ⟨fun h => (nomatch h), fun h => absurd ?_ hyear⟩
      rw [← h]
      exact ⟨hlow, hhigh⟩
  · rw [checked, if_neg (fun h => hfits h.2)]
    refine ⟨fun h => (nomatch h), fun h => absurd ?_ hfits⟩
    rw [habs, ← h]
    omega

/-! ### Forms -/

/-- What a date's text names besides its year. -/
inductive DateSpec where
  | day (month day : ℕ)
  | ordinalDay (day : ℕ)
  | week (week dayOfWeek : ℕ)
  | quarter (quarter dayOfQuarter : ℕ)

/-- After the `W`, with the separators of the extended format or without. -/
inductive WeekText : Bool → Bytes → DateSpec → Prop
  | week {extended w} : Digits 2 w → WeekText extended w (.week (spelled w) 1)
  | extended {w d} : Digits 2 w → Digits 1 d →
      WeekText true (w ++ 45 :: d) (.week (spelled w) (spelled d))
  | basic {w d} : Digits 2 w → Digits 1 d → WeekText false (w ++ d) (.week (spelled w) (spelled d))

/-- After the `Q`. -/
inductive QuarterText : Bool → Bytes → DateSpec → Prop
  | quarter {extended q} : Digits 1 q → QuarterText extended q (.quarter (spelled q) 1)
  | extended {q d} : Digits 1 q → Digits 2 d →
      QuarterText true (q ++ 45 :: d) (.quarter (spelled q) (spelled d))
  | basic {q d} : Digits 1 q → Digits 2 d →
      QuarterText false (q ++ d) (.quarter (spelled q) (spelled d))

/-- After a year and a `-`. -/
inductive ExtendedText : Bytes → DateSpec → Prop
  | month {m} : Digits 2 m → ExtendedText m (.day (spelled m) 1)
  | day {m d} : Digits 2 m → Digits 2 d → ExtendedText (m ++ 45 :: d) (.day (spelled m) (spelled d))
  | ordinalDay {d} : Digits 3 d → ExtendedText d (.ordinalDay (spelled d))
  | week {s spec} : WeekText true s spec → ExtendedText (87 :: s) spec
  | quarter {s spec} : QuarterText true s spec → ExtendedText (81 :: s) spec

/-- After the four digits of a year. -/
inductive BasicText : Bytes → DateSpec → Prop
  | year : BasicText [] (.day 1 1)
  | month {m} : Digits 2 m → BasicText m (.day (spelled m) 1)
  | day {m d} : Digits 2 m → Digits 2 d → BasicText (m ++ d) (.day (spelled m) (spelled d))
  | ordinalDay {d} : Digits 3 d → BasicText d (.ordinalDay (spelled d))
  | week {s spec} : WeekText false s spec → BasicText (87 :: s) spec
  | quarter {s spec} : QuarterText false s spec → BasicText (81 :: s) spec

/-- A sign, and the number it stands for. -/
inductive SignText : UInt8 → ℤ → Prop
  | plus : SignText 43 1
  | minus : SignText 45 (-1)

/-- A date's text, its year and what it names of the year. -/
inductive DateText : Bytes → ℤ → DateSpec → Prop
  | basic {y s spec} : Digits 4 y → BasicText s spec → DateText (y ++ s) (spelled y) spec
  | extended {y s spec} : 4 ≤ y.length → y.all isDigit = true → ExtendedText s spec →
      DateText (y ++ 45 :: s) (spelled y) spec
  | signedYear {c sign y} : SignText c sign → 1 ≤ y.length → y.all isDigit = true →
      DateText (c :: y) (sign * spelled y) (.day 1 1)
  | signed {c sign y s spec} : SignText c sign → 1 ≤ y.length → y.all isDigit = true →
      ExtendedText s spec → DateText (c :: (y ++ 45 :: s)) (sign * spelled y) spec

/-- The date of a year's day, if the year has the day. -/
def DateSpec.read (year : Int32) : DateSpec → Option (Except String LoraDate)
  | .day m d => some (LoraDate.new year (UInt32.ofNat m) (UInt32.ofNat d))
  | .ordinalDay d => some (LoraDate.fromOrdinal year (UInt32.ofNat d))
  | .week w d => LoraDate.fromIsoWeek year (UInt32.ofNat w) (UInt32.ofNat d)
  | .quarter q d => some (LoraDate.fromQuarter year (UInt32.ofNat q) (UInt32.ofNat d))

/-! ### Reading the forms -/

theorem Digits.one (hb : Digits 1 b) : ∃ d, b = [d] := List.length_eq_one_iff.mp hb.1

theorem Digits.two (hb : Digits 2 b) : ∃ c d, b = [c, d] := List.length_eq_two.mp hb.1

theorem Digits.three (hb : Digits 3 b) : ∃ c d e, b = [c, d, e] :=
  List.length_eq_three.mp hb.1

/-- Digits that are read are a run. -/
theorem digits_run {w : UInt32} (h : digits b = some w) :
    Digits b.length b ∧ w = UInt32.ofNat (spelled b) := by
  obtain ⟨hall, hw⟩ := digits_eq_some h
  exact ⟨⟨rfl, hall⟩, hw⟩

variable {year : Int32} {s : Bytes} {extended : Bool} {r : Option (Except String LoraDate)}

theorem weekDate_iff :
    weekDate year s extended = some r ↔ ∃ spec, WeekText extended s spec ∧ spec.read year = r := by
  constructor
  · intro h
    unfold weekDate at h
    split at h <;> simp only [bind, map_eq_some_iff, bind_eq_some_iff,
      Option.some.injEq, reduceCtorEq] at h
    · obtain ⟨week, hweek, rfl⟩ := h
      obtain ⟨hw, rfl⟩ := digits_run hweek
      exact ⟨_, .week hw, rfl⟩
    · obtain ⟨week, hweek, dow, hdow, rfl⟩ := h
      obtain ⟨hw, rfl⟩ := digits_run hweek
      obtain ⟨hd, rfl⟩ := digits_run hdow
      exact ⟨_, .extended hw hd, rfl⟩
    · obtain ⟨week, hweek, dow, hdow, rfl⟩ := h
      obtain ⟨hw, rfl⟩ := digits_run hweek
      obtain ⟨hd, rfl⟩ := digits_run hdow
      exact ⟨_, .basic hw hd, rfl⟩
  · rintro ⟨spec, htext, rfl⟩
    cases htext with
    | week hw =>
      obtain ⟨c, d, rfl⟩ := hw.two
      simp [weekDate, hw.read, DateSpec.read]
    | extended hw hd =>
      obtain ⟨c, d, rfl⟩ := hw.two
      obtain ⟨e, rfl⟩ := hd.one
      simp [weekDate, hw.read, hd.read, DateSpec.read]
    | basic hw hd =>
      obtain ⟨c, d, rfl⟩ := hw.two
      obtain ⟨e, rfl⟩ := hd.one
      simp [weekDate, hw.read, hd.read, DateSpec.read]

theorem quarterDate_iff : (quarterDate year s extended).map some = some r ↔
      ∃ spec, QuarterText extended s spec ∧ spec.read year = r := by
  constructor
  · intro h
    obtain ⟨date, hdate, rfl⟩ := Option.map_eq_some_iff.mp h
    unfold quarterDate at hdate
    split at hdate <;> simp only [bind, map_eq_some_iff, bind_eq_some_iff,
      Option.some.injEq, reduceCtorEq] at hdate
    · obtain ⟨quarter, hquarter, rfl⟩ := hdate
      obtain ⟨hq, rfl⟩ := digits_run hquarter
      exact ⟨_, .quarter hq, rfl⟩
    · obtain ⟨quarter, hquarter, day, hday, rfl⟩ := hdate
      obtain ⟨hq, rfl⟩ := digits_run hquarter
      obtain ⟨hd, rfl⟩ := digits_run hday
      exact ⟨_, .extended hq hd, rfl⟩
    · obtain ⟨quarter, hquarter, day, hday, rfl⟩ := hdate
      obtain ⟨hq, rfl⟩ := digits_run hquarter
      obtain ⟨hd, rfl⟩ := digits_run hday
      exact ⟨_, .basic hq hd, rfl⟩
  · rintro ⟨spec, htext, rfl⟩
    cases htext with
    | quarter hq =>
      obtain ⟨c, rfl⟩ := hq.one
      simp [quarterDate, hq.read, DateSpec.read]
    | extended hq hd =>
      obtain ⟨c, rfl⟩ := hq.one
      obtain ⟨d, e, rfl⟩ := hd.two
      simp [quarterDate, hq.read, hd.read, DateSpec.read]
    | basic hq hd =>
      obtain ⟨c, rfl⟩ := hq.one
      obtain ⟨d, e, rfl⟩ := hd.two
      simp [quarterDate, hq.read, hd.read, DateSpec.read]

theorem not_digit_week : isDigit 87 = false := by decide

theorem not_digit_quarter : isDigit 81 = false := by decide

theorem Digits.head {c : UInt8} (hb : Digits n (c :: b)) : isDigit c = true :=
  List.all_eq_true.mp hb.2 c mem_cons_self

variable {date : Except String LoraDate}

theorem extendedDate_sound (h : extendedDate year s = some date) :
    ∃ spec, ExtendedText s spec ∧ spec.read year = some date := by
  unfold extendedDate at h
  split at h <;>
    simp only [bind, bind_eq_some_iff, Option.some.injEq, reduceCtorEq] at h
  · obtain ⟨month, hmonth, rfl⟩ := h
    obtain ⟨hm, rfl⟩ := digits_run hmonth
    exact ⟨_, .month hm, rfl⟩
  · obtain ⟨month, hmonth, day, hday, rfl⟩ := h
    obtain ⟨hm, rfl⟩ := digits_run hmonth
    obtain ⟨hd, rfl⟩ := digits_run hday
    exact ⟨_, .day hm hd, rfl⟩
  · obtain ⟨day, hday, rfl⟩ := h
    obtain ⟨hd, rfl⟩ := digits_run hday
    exact ⟨_, .ordinalDay hd, rfl⟩

/-- What follows a year and a `-`. -/
theorem extendedForms_iff : (match s with
      | 87 :: week => weekDate year week true
      | 81 :: quarter => (quarterDate year quarter true).map some
      | _ => (extendedDate year s).map some) = some r ↔
      ∃ spec, ExtendedText s spec ∧ spec.read year = r := by
  constructor
  · intro h
    split at h
    · obtain ⟨spec, htext, hread⟩ := weekDate_iff.1 h
      exact ⟨spec, .week htext, hread⟩
    · obtain ⟨spec, htext, hread⟩ := quarterDate_iff.1 h
      exact ⟨spec, .quarter htext, hread⟩
    · obtain ⟨date, hdate, rfl⟩ := Option.map_eq_some_iff.mp h
      exact extendedDate_sound hdate
  · rintro ⟨spec, htext, rfl⟩
    cases htext with
    | week htext => exact weekDate_iff.2 ⟨spec, htext, rfl⟩
    | quarter htext => exact quarterDate_iff.2 ⟨spec, htext, rfl⟩
    | month hm =>
      split
      · exact absurd hm.head (by decide)
      · exact absurd hm.head (by decide)
      · obtain ⟨c, d, rfl⟩ := hm.two
        simp [extendedDate, hm.read, DateSpec.read]
    | @day m d hm hd =>
      obtain ⟨c, c', rfl⟩ := hm.two
      obtain ⟨e, e', rfl⟩ := hd.two
      split
      · next heq =>
        rw [(cons.inj heq).1] at hm
        exact absurd hm.head (by decide)
      · next heq =>
        rw [(cons.inj heq).1] at hm
        exact absurd hm.head (by decide)
      · simp [extendedDate, hm.read, hd.read, DateSpec.read]
    | ordinalDay hd =>
      split
      · exact absurd hd.head (by decide)
      · exact absurd hd.head (by decide)
      · obtain ⟨c, d, e, rfl⟩ := hd.three
        simp [extendedDate, hd.read, DateSpec.read]

/-- Some digits of a run. -/
theorem Digits.split {n k : ℕ} (hb : Digits (n + k) b) :
    Digits n (b.take n) ∧ Digits k (b.drop n) := by
  obtain ⟨hlen, hall⟩ := hb
  refine ⟨⟨by rw [length_take]; omega, ?_⟩, ⟨by rw [length_drop]; omega, ?_⟩⟩
  · exact List.all_eq_true.mpr fun d hd => List.all_eq_true.mp hall d (mem_of_mem_take hd)
  · exact List.all_eq_true.mpr fun d hd => List.all_eq_true.mp hall d (mem_of_mem_drop hd)

theorem yearOf_unsigned {y : Bytes} (hy : y.all isDigit = true) {year : Int32} :
    yearOf false y = some year ↔ (spelled y : ℤ) = year.toInt :=
  (yearOf_iff hy).trans eq_comm

/-- Digits only. -/
theorem basicDate_sound {head : Bytes} (hhead : head.all isDigit = true)
    (h : basicDate head = some date) :
    ∃ (year : Int32) (spec : DateSpec), DateText head year.toInt spec ∧
      spec.read year = some date := by
  unfold basicDate at h
  split at h <;>
    simp only [bind, bind_eq_some_iff, Option.some.injEq, reduceCtorEq] at h
  · next hlen =>
    obtain ⟨year, hyear, rfl⟩ := h
    have htext := DateText.basic ⟨hlen, hhead⟩ .year
    rw [append_nil] at htext
    exact ⟨year, _, (yearOf_unsigned hhead).mp hyear ▸ htext, rfl⟩
  · next hlen =>
    obtain ⟨year, hyear, month, hmonth, rfl⟩ := h
    obtain ⟨hy, hm⟩ := @Digits.split head 4 2 ⟨hlen, hhead⟩
    obtain ⟨-, rfl⟩ := digits_run hmonth
    have htext := DateText.basic hy (.month hm)
    rw [take_append_drop] at htext
    exact ⟨year, _, (yearOf_unsigned hy.2).mp hyear ▸ htext, rfl⟩
  · next hlen =>
    obtain ⟨year, hyear, day, hday, rfl⟩ := h
    obtain ⟨hy, hd⟩ := @Digits.split head 4 3 ⟨hlen, hhead⟩
    obtain ⟨-, rfl⟩ := digits_run hday
    have htext := DateText.basic hy (.ordinalDay hd)
    rw [take_append_drop] at htext
    exact ⟨year, _, (yearOf_unsigned hy.2).mp hyear ▸ htext, rfl⟩
  · next hlen =>
    obtain ⟨year, hyear, month, hmonth, day, hday, rfl⟩ := h
    obtain ⟨hy, hrest⟩ := @Digits.split head 4 4 ⟨hlen, hhead⟩
    obtain ⟨hm, hd⟩ := @Digits.split (head.drop 4) 2 2 hrest
    obtain ⟨-, rfl⟩ := digits_run hmonth
    obtain ⟨-, rfl⟩ := digits_run hday
    have htext := DateText.basic hy (.day hm hd)
    rw [take_append_drop, take_append_drop, drop_drop] at htext
    exact ⟨year, _, (yearOf_unsigned hy.2).mp hyear ▸ htext, rfl⟩

/-- The sign of a text, if it has one. -/
theorem splitSign_cases (b : Bytes) : (∃ c sign, SignText c sign ∧ b = c :: (splitSign b).2 ∧
      ∀ n : ℤ, (if (splitSign b).1 then -n else n) = sign * n) ∨ splitSign b = (false, b) := by
  unfold splitSign
  split
  · exact Or.inl ⟨43, 1, .plus, rfl, fun n => (one_mul n).symm⟩
  · exact Or.inl ⟨45, -1, .minus, rfl, fun n => (neg_one_mul n).symm⟩
  · exact Or.inr rfl

/-- What is read is what a form spells. -/
theorem dateForms_sound (h : dateForms b = some r) :
    ∃ (year : Int32) (spec : DateSpec), DateText b year.toInt spec ∧ spec.read year = r := by
  have hsign := splitSign_cases b
  unfold dateForms at h
  extract_lets negative unsigned signed head rest at h
  have hspan : unsigned = head ++ rest := List.takeWhile_append_dropWhile.symm
  have hhead : head.all isDigit = true := all_takeWhile
  have hsigned : (signed = true ∧ ∃ c sign, SignText c sign ∧ b = c :: unsigned ∧
      ∀ n : ℤ, (if negative then -n else n) = sign * n) ∨
        (signed = false ∧ negative = false ∧ b = unsigned) := by
    rcases hsign with ⟨c, sign, hc, hb, hvalue⟩ | hnone
    · refine Or.inl ⟨?_, c, sign, hc, hb, hvalue⟩
      change (unsigned.length != b.length) = true
      rw [hb, length_cons, bne_iff_ne]
      exact (Nat.lt_succ_self _).ne
    · have hunsigned : unsigned = b := congrArg Prod.snd hnone
      refine Or.inr ⟨?_, congrArg Prod.fst hnone, hunsigned.symm⟩
      change (unsigned.length != b.length) = false
      rw [hunsigned, bne_self_eq_false]
  clear hsign
  clear_value rest head signed unsigned negative
  subst hspan
  split at h
  · split at h
    · split at h
      · next hs hlen =>
        obtain ⟨year, hyear, rfl⟩ := Option.map_eq_some_iff.mp h
        rcases hsigned with ⟨-, c, sign, hc, rfl, hvalue⟩ | ⟨hfalse, -, -⟩
        · have hy := (yearOf_iff hhead).mp hyear
          rw [hvalue] at hy
          rw [append_nil]
          exact ⟨year, .day 1 1, hy ▸ .signedYear hc hlen hhead, rfl⟩
        · rw [hs] at hfalse
          cases hfalse
      · cases h
    · next hs =>
      obtain ⟨date, hdate, rfl⟩ := Option.map_eq_some_iff.mp h
      rcases hsigned with ⟨htrue, -⟩ | ⟨-, -, rfl⟩
      · exact absurd htrue hs
      · rw [append_nil]
        exact basicDate_sound hhead hdate
  · next s =>
    split at h
    · next hlen =>
      obtain ⟨year, hyear, hforms⟩ := Option.bind_eq_some_iff.mp h
      obtain ⟨spec, htext, hread⟩ := extendedForms_iff.1 hforms
      rcases hsigned with ⟨-, c, sign, hc, rfl, hvalue⟩ | ⟨rfl, rfl, rfl⟩
      · have hy := (yearOf_iff hhead).mp hyear
        rw [hvalue] at hy
        exact ⟨year, spec, hy ▸ .signed hc (by omega) hhead htext, hread⟩
      · exact ⟨year, spec, (yearOf_unsigned hhead).mp hyear ▸
          .extended (by simpa using hlen) hhead htext, hread⟩
    · cases h
  · split at h
    · next hlen =>
      obtain ⟨year, hyear, hweek⟩ := Option.bind_eq_some_iff.mp h
      obtain ⟨spec, htext, hread⟩ := weekDate_iff.1 hweek
      rcases hsigned with ⟨htrue, -⟩ | ⟨-, rfl, rfl⟩
      · exact absurd (htrue.symm.trans hlen.2) (by decide)
      · exact ⟨year, spec, (yearOf_unsigned hhead).mp hyear ▸
          .basic ⟨hlen.1, hhead⟩ (.week htext), hread⟩
    · cases h
  · split at h
    · next hlen =>
      obtain ⟨year, hyear, hquarter⟩ := Option.bind_eq_some_iff.mp h
      obtain ⟨spec, htext, hread⟩ := quarterDate_iff.1 hquarter
      rcases hsigned with ⟨htrue, -⟩ | ⟨-, rfl, rfl⟩
      · exact absurd (htrue.symm.trans hlen.2) (by decide)
      · exact ⟨year, spec, (yearOf_unsigned hhead).mp hyear ▸
          .basic ⟨hlen.1, hhead⟩ (.quarter htext), hread⟩
    · cases h
  · cases h

/-- A run of digits ends where something else begins. -/
theorem span_digits {y rest : Bytes} (hy : y.all isDigit = true)
    (hrest : ∀ c ∈ rest.head?, isDigit c = false) :
    (y ++ rest).takeWhile isDigit = y ∧ (y ++ rest).dropWhile isDigit = rest := by
  have hin : ∀ d ∈ y, isDigit d = true := List.all_eq_true.mp hy
  rw [takeWhile_append_of_pos hin, dropWhile_append_of_pos hin]
  cases rest with
  | nil => exact ⟨append_nil y, rfl⟩
  | cons c rest =>
    have hc := hrest c rfl
    rw [takeWhile_cons_of_neg (by simp [hc]), dropWhile_cons_of_neg (by simp [hc])]
    exact ⟨append_nil y, rfl⟩

/-- A text that starts with a digit has no sign. -/
theorem splitSign_digit (hb : ∀ c ∈ b.head?, isDigit c = true) : splitSign b = (false, b) := by
  unfold splitSign
  split
  · exact absurd (hb 43 rfl) (by decide)
  · exact absurd (hb 45 rfl) (by decide)
  · rfl

theorem head_digits {y rest : Bytes} (hy : y.all isDigit = true) (hlen : 1 ≤ y.length) :
    ∀ c ∈ (y ++ rest).head?, isDigit c = true := by
  cases y with
  | nil => simp at hlen
  | cons d y =>
    intro c hc
    obtain rfl := Option.some.inj hc
    exact List.all_eq_true.mp hy d mem_cons_self

theorem SignText.split {c : UInt8} {sign : ℤ} (hc : SignText c sign) (u : Bytes) :
    ∃ negative, splitSign (c :: u) = (negative, u) ∧
      ∀ n : ℤ, (if negative then -n else n) = sign * n := by
  cases hc with
  | plus => exact ⟨false, rfl, fun n => (one_mul n).symm⟩
  | minus => exact ⟨true, rfl, fun n => (neg_one_mul n).symm⟩

variable {spec : DateSpec}

/-- The digits of a basic date. -/
theorem basicDate_complete {y s : Bytes} (hy : Digits 4 y)
    (hs : s.all isDigit = true) (htext : BasicText s spec) (hyear : (spelled y : ℤ) = year.toInt) :
    (basicDate (y ++ s)).map some = some (spec.read year) := by
  have hread := (yearOf_unsigned hy.2).mpr hyear
  have htake : (y ++ s).take 4 = y := take_left' hy.1
  have hdrop : (y ++ s).drop 4 = s := drop_left' hy.1
  unfold basicDate
  rw [length_append, hy.1]
  cases htext with
  | year =>
    rw [append_nil]
    simp [hread, DateSpec.read]
  | month hm =>
    rw [hm.1]
    simp only [htake, hdrop, hread, hm.read (by omega), bind, bind_some, DateSpec.read]
    rfl
  | @day m d hm hd =>
    have hm2 : (m ++ d).take 2 = m := take_left' hm.1
    have hd2 : (y ++ (m ++ d)).drop 6 = d := by
      rw [← append_assoc]
      exact drop_left' (by rw [length_append, hy.1, hm.1])
    rw [length_append, hm.1, hd.1]
    simp only [htake, hdrop, hm2, hd2, hread, hm.read (by omega), hd.read (by omega), bind,
      bind_some, DateSpec.read]
    rfl
  | ordinalDay hd =>
    rw [hd.1]
    simp only [htake, hdrop, hread, hd.read (by omega), bind, bind_some, DateSpec.read]
    rfl
  | week => exact absurd (List.all_eq_true.mp hs 87 mem_cons_self) (by decide)
  | quarter => exact absurd (List.all_eq_true.mp hs 81 mem_cons_self) (by decide)

/-- What follows a year of four digits is digits, a week or a quarter. -/
theorem BasicText.split {s : Bytes} (h : BasicText s spec) :
    s.all isDigit = true ∨ (∃ w, s = 87 :: w ∧ WeekText false w spec) ∨
      ∃ q, s = 81 :: q ∧ QuarterText false q spec := by
  cases h with
  | year => exact Or.inl rfl
  | month hm => exact Or.inl hm.2
  | day hm hd => exact Or.inl (by rw [all_append, hm.2, hd.2]; rfl)
  | ordinalDay hd => exact Or.inl hd.2
  | week hw => exact Or.inr (Or.inl ⟨_, rfl, hw⟩)
  | quarter hq => exact Or.inr (Or.inr ⟨_, rfl, hq⟩)

/-- Each form is read. -/
theorem dateForms_complete (htext : DateText b year.toInt spec) :
    dateForms b = some (spec.read year) := by
  generalize hvalue : year.toInt = value at htext
  have hdash : ∀ s : Bytes, ∀ c ∈ (45 :: s : Bytes).head?, isDigit c = false := by
    intro s c hc
    obtain rfl := Option.some.inj hc
    decide
  cases htext with
  | @basic y s _ hy htext =>
    have hread := (yearOf_unsigned hy.2).mpr hvalue.symm
    have hsplit := splitSign_digit (@head_digits y s hy.2 (by rw [hy.1]; decide))
    rcases htext.split with hs | ⟨w, rfl, hw⟩ | ⟨q, rfl, hq⟩
    · have hall : (y ++ s).all isDigit = true := by rw [all_append, hy.2, hs]; rfl
      obtain ⟨htake, hdrop⟩ := @span_digits (y ++ s) [] hall (by simp)
      rw [append_nil] at htake hdrop
      simp only [dateForms, hsplit, htake, hdrop, bne_self_eq_false]
      exact basicDate_complete hy hs htext hvalue.symm
    · obtain ⟨htake, hdrop⟩ := @span_digits y (87 :: w) hy.2 (by simp [not_digit_week])
      simp only [dateForms, hsplit, htake, hdrop, bne_self_eq_false, hread]
      rw [if_pos ⟨hy.1, trivial⟩]
      exact weekDate_iff.2 ⟨spec, hw, rfl⟩
    · obtain ⟨htake, hdrop⟩ := @span_digits y (81 :: q) hy.2 (by simp [not_digit_quarter])
      simp only [dateForms, hsplit, htake, hdrop, bne_self_eq_false, hread]
      rw [if_pos ⟨hy.1, trivial⟩]
      exact quarterDate_iff.2 ⟨spec, hq, rfl⟩
  | @extended y s _ hlen hy htext =>
    have hsplit := splitSign_digit (@head_digits y (45 :: s) hy (by omega))
    obtain ⟨htake, hdrop⟩ := span_digits hy (hdash s)
    simp only [dateForms, hsplit, htake, hdrop]
    rw [if_pos (Or.inl hlen), (yearOf_unsigned hy).mpr hvalue.symm]
    exact extendedForms_iff.2 ⟨spec, htext, rfl⟩
  | @signedYear c sign y hc hlen hy =>
    obtain ⟨negative, hsplit, hsign⟩ := hc.split y
    obtain ⟨htake, hdrop⟩ := @span_digits y [] hy (by simp)
    rw [append_nil] at htake hdrop
    have hread := (@yearOf_iff y negative hy year).mpr (hvalue.trans (hsign _).symm)
    have hlong : (y.length != (c :: y).length) = true := by simp
    simp only [dateForms, hsplit, htake, hdrop, hread]
    rw [hlong, if_pos rfl, if_pos hlen]
    rfl
  | @signed c sign y s _ hc hlen hy htext =>
    obtain ⟨negative, hsplit, hsign⟩ := hc.split (y ++ 45 :: s)
    obtain ⟨htake, hdrop⟩ := span_digits hy (hdash s)
    have hread := (@yearOf_iff y negative hy year).mpr (hvalue.trans (hsign _).symm)
    have hlong : ((y ++ 45 :: s).length != (c :: (y ++ 45 :: s)).length) = true := by simp
    simp only [dateForms, hsplit, htake, hdrop, hread]
    rw [hlong, if_pos (Or.inr ⟨rfl, hlen⟩)]
    exact extendedForms_iff.2 ⟨spec, htext, rfl⟩

/-- The common form is one of the forms. -/
theorem dateForms_of_common (h : commonDate b = some date) : dateForms b = some (some date) := by
  unfold commonDate at h
  split at h
  · next y1 y2 y3 y4 m1 m2 d1 d2 =>
    simp only [bind, bind_eq_some_iff, Option.some.injEq] at h
    obtain ⟨year, hyear, month, hmonth, day, hday, rfl⟩ := h
    obtain ⟨hy, rfl⟩ := digits_run hyear
    obtain ⟨hm, rfl⟩ := digits_run hmonth
    obtain ⟨hd, rfl⟩ := digits_run hday
    have htext := DateText.extended hy.1.ge hy.2 (.day hm hd)
    have hlt := spelled_lt hy.2
    rw [hy.1] at hlt
    rw [hy.toNat (by simp)]
    have hfits : (Int32.ofNat (spelled [y1, y2, y3, y4])).toInt = spelled [y1, y2, y3, y4] :=
      Int32.toInt_ofNat_of_lt (by simp only [List.length] at hlt; omega)
    rw [← hfits] at htext
    exact dateForms_complete htext
  · cases h

theorem parseDate_eq (s : Bytes) : parseDate s =
    (dateForms s).getD (some (.error s!"Invalid date: {text s}")) := by
  cases hcommon : commonDate s with
  | none => simp only [parseDate, hcommon]
  | some date => simp only [parseDate, hcommon, dateForms_of_common hcommon, getD_some]

/-! ### The dates of the forms -/

/-- The date `v` is the day of the year that is named. -/
def DateSpec.Names (year : ℤ) (v : LoraDate) : DateSpec → Prop
  | .day m d => v.year.toInt = year ∧ v.month.toNat = m ∧ v.day.toNat = d
  | .ordinalDay d => v.year.toInt = year ∧ v.dayOfYear = d
  | .week w d => IsWeekDate year w d v.toEpochDays
  | .quarter q d => v.year.toInt = year ∧ v.quarter = q ∧ v.dayOfQuarter = d

/-- No week of the last year, nor the first day of the first, which begins in a year that does
not exist. -/
def DateSpec.Within (year : ℤ) : DateSpec → Prop
  | .week w d => year + 1 < 2 ^ 31 ∧ ¬ (year = -2 ^ 31 ∧ w = 1 ∧ d = 1)
  | _ => True

/-- The numbers of a text fit 32 bits. -/
def DateSpec.Fits : DateSpec → Prop
  | .day m d => m < 2 ^ 32 ∧ d < 2 ^ 32
  | .ordinalDay d => d < 2 ^ 32
  | .week w d => w < 2 ^ 32 ∧ d < 2 ^ 32
  | .quarter q d => q < 2 ^ 32 ∧ d < 2 ^ 32

theorem Digits.fits (hb : Digits n b) (hn : n ≤ 9) : spelled b < 2 ^ 32 := by
  have hlt := spelled_lt hb.2
  have hpow : 10 ^ b.length ≤ 10 ^ 9 := Nat.pow_le_pow_right (by omega) (by rw [hb.1]; exact hn)
  omega

theorem WeekText.fits (h : WeekText extended s spec) : spec.Fits := by
  cases h with
  | week hw => exact ⟨hw.fits (by decide), by decide⟩
  | extended hw hd | basic hw hd => exact ⟨hw.fits (by decide), hd.fits (by decide)⟩

theorem QuarterText.fits (h : QuarterText extended s spec) : spec.Fits := by
  cases h with
  | quarter hq => exact ⟨hq.fits (by decide), by decide⟩
  | extended hq hd | basic hq hd => exact ⟨hq.fits (by decide), hd.fits (by decide)⟩

theorem ExtendedText.fits (h : ExtendedText s spec) : spec.Fits := by
  cases h with
  | month hm => exact ⟨hm.fits (by decide), by decide⟩
  | day hm hd => exact ⟨hm.fits (by decide), hd.fits (by decide)⟩
  | ordinalDay hd => exact hd.fits (by decide)
  | week hw => exact hw.fits
  | quarter hq => exact hq.fits

theorem BasicText.fits (h : BasicText s spec) : spec.Fits := by
  cases h with
  | year => exact ⟨by decide, by decide⟩
  | month hm => exact ⟨hm.fits (by decide), by decide⟩
  | day hm hd => exact ⟨hm.fits (by decide), hd.fits (by decide)⟩
  | ordinalDay hd => exact hd.fits (by decide)
  | week hw => exact hw.fits
  | quarter hq => exact hq.fits

theorem DateText.fits {year : ℤ} (h : DateText s year spec) : spec.Fits := by
  cases h with
  | basic _ hs => exact hs.fits
  | extended _ _ hs => exact hs.fits
  | signedYear => exact ⟨by decide, by decide⟩
  | signed _ _ _ hs => exact hs.fits

/-- A week is written with a `W`. -/
theorem DateText.within {year : ℤ} (hs : 87 ∉ s) (h : DateText s year spec) : spec.Within year := by
  have hquarter : ∀ {extended q}, QuarterText extended q spec → spec.Within year := by
    intro extended q hq
    cases hq <;> trivial
  have hextended : ∀ {t}, ExtendedText t spec → 87 ∉ t → spec.Within year := by
    intro t ht hnot
    cases ht with
    | week => exact absurd mem_cons_self hnot
    | quarter hq => exact hquarter hq
    | month | day | ordinalDay => trivial
  cases h with
  | basic _ ht =>
    cases ht with
    | week => exact absurd (mem_append_right _ mem_cons_self) hs
    | quarter hq => exact hquarter hq
    | year | month | day | ordinalDay => trivial
  | extended _ _ ht =>
    exact hextended ht fun hmem => hs (mem_append_right _ (mem_cons_of_mem _ hmem))
  | signedYear => trivial
  | signed _ _ _ ht =>
    exact hextended ht fun hmem =>
      hs (mem_cons_of_mem _ (mem_append_right _ (mem_cons_of_mem _ hmem)))

theorem toNat_fits (h : n < 2 ^ 32) : (UInt32.ofNat n).toNat = n :=
  UInt32.toNat_ofNat_of_lt' h

/-- A week that is read is the week named. -/
theorem fromIsoWeek_iff {week dow : UInt32} (hyear : year.toInt + 1 < 2 ^ 31)
    (hfirst : ¬ (year.toInt = -2 ^ 31 ∧ week.toNat = 1 ∧ dow.toNat = 1)) :
    ∃ r, LoraDate.fromIsoWeek year week dow = some r ∧ ∀ v, r = .ok v ↔
      v.valid = true ∧ IsWeekDate year.toInt week.toNat dow.toNat v.toEpochDays := by
  rcases LoraDate.fromIsoWeek_eq hyear week dow with ⟨e, herror, hnone⟩ | ⟨days, hdate, hok⟩
  · exact ⟨_, herror, fun v => ⟨fun h => (nomatch h), fun h => absurd ⟨_, h.2⟩ hnone⟩⟩
  · refine ⟨_, hok, fun v => ?_⟩
    obtain ⟨hlow, hhigh⟩ := LoraDate.weekDate_bounds hyear hdate hfirst
    obtain ⟨hvalid, hdays, -⟩ := LoraDate.exists_date hlow hhigh
    constructor
    · intro h
      obtain rfl := Except.ok.inj h
      rw [hdays]
      exact ⟨hvalid, hdate⟩
    · rintro ⟨hv, hdate'⟩
      have hsame : days = v.toEpochDays := by
        rw [(isWeekDate_iff.1 hdate).2.2, (isWeekDate_iff.1 hdate').2.2]
      rw [hsame, LoraDate.fromEpochDays_toEpochDays hv]

theorem new_iff {v : LoraDate} {month day : UInt32} : LoraDate.new year month day = .ok v ↔
    v.valid = true ∧ v.year = year ∧ v.month = month ∧ v.day = day := by
  constructor
  · intro h
    obtain ⟨rfl, hvalid⟩ := LoraDate.new_eq h
    exact ⟨hvalid, rfl, rfl, rfl⟩
  · rintro ⟨hvalid, rfl, rfl, rfl⟩
    exact LoraDate.new_of_valid hvalid

/-- What is read is the day named, where the year has it. -/
theorem DateSpec.read_iff (hfits : spec.Fits) (hwithin : spec.Within year.toInt) :
    ∃ r, spec.read year = some r ∧ ∀ v, r = .ok v ↔ v.valid = true ∧ spec.Names year.toInt v := by
  cases spec with
  | day m d =>
    refine ⟨_, rfl, fun v => new_iff.trans ?_⟩
    rw [← UInt32.toNat_inj, ← UInt32.toNat_inj, toNat_fits hfits.1, toNat_fits hfits.2,
      ← Int32.toInt_inj]
    exact Iff.rfl
  | ordinalDay d =>
    refine ⟨_, rfl, fun v => (LoraDate.fromOrdinal_ok_iff _ _).trans ?_⟩
    rw [toNat_fits hfits, ← Int32.toInt_inj]
    exact Iff.rfl
  | quarter q d =>
    refine ⟨_, rfl, fun v => (LoraDate.fromQuarter_ok_iff _ _ _).trans ?_⟩
    rw [toNat_fits hfits.1, toNat_fits hfits.2, ← Int32.toInt_inj]
    exact Iff.rfl
  | week w d =>
    have hread := @fromIsoWeek_iff year (UInt32.ofNat w) (UInt32.ofNat d) hwithin.1
    rw [toNat_fits hfits.1, toNat_fits hfits.2] at hread
    exact hread hwithin.2

/-- The texts of dates: a text is read as the date it names. -/
theorem parseDate_iff (hwithin : ∀ (year : Int32) spec, DateText s year.toInt spec →
    spec.Within year.toInt) : ∃ r, parseDate s = some r ∧ ∀ v, r = .ok v ↔ v.valid = true ∧
      ∃ (year : Int32) (spec : DateSpec), DateText s year.toInt spec ∧ spec.Names year.toInt v := by
  rw [parseDate_eq]
  cases hforms : dateForms s with
  | none =>
    refine ⟨_, rfl, fun v => ⟨fun h => (nomatch h), ?_⟩⟩
    rintro ⟨-, year, spec, htext, -⟩
    rw [dateForms_complete htext] at hforms
    cases hforms
  | some date =>
    obtain ⟨year, spec, htext, hread⟩ := dateForms_sound hforms
    obtain ⟨r, hr, hiff⟩ := spec.read_iff htext.fits (hwithin year spec htext)
    obtain rfl := hread.symm.trans hr
    refine ⟨r, rfl, fun v => (hiff v).trans (and_congr_right fun hv => ?_)⟩
    constructor
    · exact fun hnames => ⟨year, spec, htext, hnames⟩
    · rintro ⟨year', spec', htext', hnames'⟩
      obtain ⟨r', hr', hiff'⟩ := spec'.read_iff htext'.fits (hwithin year' spec' htext')
      rw [dateForms_complete htext', hr'] at hforms
      obtain rfl := Option.some.inj (Option.some.inj hforms)
      exact ((hiff v).mp ((hiff' v).mpr ⟨hv, hnames'⟩)).2

/-! ### Times -/

/-- A clock with seconds. -/
inductive SecondText : Bytes → ℕ → ℕ → ℕ → Prop
  | basic {h m s} : Digits 2 h → Digits 2 m → Digits 2 s →
      SecondText (h ++ (m ++ s)) (spelled h) (spelled m) (spelled s)
  | extended {h m s} : Digits 2 h → Digits 2 m → Digits 2 s →
      SecondText (h ++ 58 :: (m ++ 58 :: s)) (spelled h) (spelled m) (spelled s)

/-- A clock without a fraction. -/
inductive HmsText : Bytes → ℕ → ℕ → ℕ → Prop
  | hour {h} : Digits 2 h → HmsText h (spelled h) 0 0
  | minute {h m} : Digits 2 h → Digits 2 m → HmsText (h ++ m) (spelled h) (spelled m) 0
  | minuteExtended {h m} : Digits 2 h → Digits 2 m →
      HmsText (h ++ 58 :: m) (spelled h) (spelled m) 0
  | second {c hour minute second} : SecondText c hour minute second → HmsText c hour minute second

/-- A clock, and its nanoseconds: what is left of them below a nanosecond is dropped. -/
inductive ClockText : Bytes → ℕ → ℕ → ℕ → ℕ → Prop
  | whole {c hour minute second} : HmsText c hour minute second → ClockText c hour minute second 0
  | fraction {c hour minute second f} : SecondText c hour minute second → f ≠ [] →
      f.all isDigit = true →
        ClockText (c ++ 46 :: f) hour minute second (spelled f * 10 ^ 9 / 10 ^ f.length)

/-- A signed offset of at most 18 hours. -/
inductive SignedOffset : Bytes → ℤ → Prop
  | hour {c sign h} : SignText c sign → Digits 2 h → spelled h ≤ 18 →
      SignedOffset (c :: h) (sign * (spelled h * 3600))
  | basic {c sign h m} : SignText c sign → Digits 2 h → Digits 2 m → spelled m < 60 →
      spelled h * 3600 + spelled m * 60 ≤ 18 * 3600 →
        SignedOffset (c :: (h ++ m)) (sign * (spelled h * 3600 + spelled m * 60))
  | extended {c sign h m} : SignText c sign → Digits 2 h → Digits 2 m → spelled m < 60 →
      spelled h * 3600 + spelled m * 60 ≤ 18 * 3600 →
        SignedOffset (c :: (h ++ 58 :: m)) (sign * (spelled h * 3600 + spelled m * 60))

/-- What follows a clock. -/
inductive OffsetText : Bytes → Option ℤ → Prop
  | none : OffsetText [] none
  | utc : OffsetText [90] (some 0)
  | signed {s offset} : SignedOffset s offset → OffsetText s (some offset)

/-! ### Reading times -/

theorem spelled_append (a b : Bytes) :
    spelled (a ++ b) = spelled a * 10 ^ b.length + spelled b := by
  induction b using reverseRecOn with
  | nil => simp [spelled]
  | append_singleton b d ih =>
    rw [← append_assoc, spelled_append_singleton, ih, spelled_append_singleton,
      length_append, length_singleton, pow_succ]
    ring

theorem foldl_digits (hb : b.all isDigit = true) :
    b.foldl (fun (acc : UInt32) (d : UInt8) => acc * 10 + (d - 48).toUInt32) 0 =
      UInt32.ofNat (spelled b) := by
  induction b using reverseRecOn with
  | nil => rfl
  | append_singleton b d ih =>
    rw [all_append, Bool.and_eq_true] at hb
    have hd := List.all_eq_true.mp hb.2 d (mem_singleton_self d)
    rw [foldl_append, ih hb.1, spelled_append_singleton, UInt32.ofNat_add, UInt32.ofNat_mul,
      ← toUInt32_sub_zero hd]
    rfl

theorem spelled_zeros (n : ℕ) : spelled (replicate n 48) = 0 := by
  induction n with
  | zero => rfl
  | succ n ih => rw [replicate_succ', spelled_append_singleton, ih]; rfl

/-- Nine digits of a fraction are its nanoseconds. -/
theorem fractionNanos_eq {f : Bytes} (hf : f.all isDigit = true) :
    (fractionNanos f).toNat = spelled f * 10 ^ 9 / 10 ^ f.length := by
  have hall : (f ++ replicate 9 48).all isDigit = true := by
    rw [all_append, hf]
    decide
  have hnine : Digits 9 ((f ++ replicate 9 48).take 9) :=
    (@Digits.split _ 9 f.length ⟨by simp; omega, hall⟩).1
  have hrest : Digits f.length ((f ++ replicate 9 48).drop 9) :=
    (@Digits.split _ 9 f.length ⟨by simp; omega, hall⟩).2
  have hwhole : spelled (f ++ replicate 9 48) = spelled f * 10 ^ 9 := by
    rw [spelled_append, spelled_zeros, length_replicate, Nat.add_zero]
  have hparts := spelled_append ((f ++ replicate 9 48).take 9) ((f ++ replicate 9 48).drop 9)
  rw [take_append_drop, hwhole, hrest.1] at hparts
  have hlt := spelled_lt hrest.2
  rw [hrest.1] at hlt
  rw [fractionNanos, foldl_digits hnine.2, hnine.toNat (by decide), hparts,
    Nat.mul_comm _ (10 ^ f.length), Nat.mul_add_div (Nat.pos_of_ne_zero (by positivity)),
    Nat.div_eq_of_lt hlt, Nat.add_zero]

variable {c : Bytes}

theorem clockFields_iff {hour minute second : UInt32} :
    clockFields c = some (hour, minute, second) ↔
      HmsText c hour.toNat minute.toNat second.toNat := by
  constructor
  · intro h
    unfold clockFields at h
    split at h <;> simp only [bind, bind_eq_some_iff, Option.some.injEq, Prod.mk.injEq,
      reduceCtorEq] at h
    · obtain ⟨_, hhour, rfl, rfl, rfl⟩ := h
      obtain ⟨hh, rfl⟩ := digits_run hhour
      rw [hh.toNat (by simp)]
      exact .hour hh
    · obtain ⟨_, hhour, _, hminute, rfl, rfl, rfl⟩ := h
      obtain ⟨hh, rfl⟩ := digits_run hhour
      obtain ⟨hm, rfl⟩ := digits_run hminute
      rw [hh.toNat (by simp), hm.toNat (by simp)]
      exact .minute hh hm
    · obtain ⟨_, hhour, _, hminute, rfl, rfl, rfl⟩ := h
      obtain ⟨hh, rfl⟩ := digits_run hhour
      obtain ⟨hm, rfl⟩ := digits_run hminute
      rw [hh.toNat (by simp), hm.toNat (by simp)]
      exact .minuteExtended hh hm
    · obtain ⟨_, hhour, _, hminute, _, hsecond, rfl, rfl, rfl⟩ := h
      obtain ⟨hh, rfl⟩ := digits_run hhour
      obtain ⟨hm, rfl⟩ := digits_run hminute
      obtain ⟨hs, rfl⟩ := digits_run hsecond
      rw [hh.toNat (by simp), hm.toNat (by simp), hs.toNat (by simp)]
      exact .second (.basic hh hm hs)
    · obtain ⟨_, hhour, _, hminute, _, hsecond, rfl, rfl, rfl⟩ := h
      obtain ⟨hh, rfl⟩ := digits_run hhour
      obtain ⟨hm, rfl⟩ := digits_run hminute
      obtain ⟨hs, rfl⟩ := digits_run hsecond
      rw [hh.toNat (by simp), hm.toNat (by simp), hs.toNat (by simp)]
      exact .second (.extended hh hm hs)
  · intro h
    have hback : ∀ {w : UInt32} {n : ℕ}, w.toNat = n → UInt32.ofNat n = w :=
      fun hw => hw ▸ UInt32.ofNat_toNat
    generalize hhour : hour.toNat = h' at h
    generalize hminute : minute.toNat = m' at h
    generalize hsecond : second.toNat = s' at h
    have hour0 := hback hhour
    have minute0 := hback hminute
    have second0 := hback hsecond
    subst hour0 minute0 second0
    cases h with
    | hour hh =>
      obtain ⟨c, d, rfl⟩ := hh.two
      simp [clockFields, hh.read]
    | minute hh hm =>
      obtain ⟨c, d, rfl⟩ := hh.two
      obtain ⟨c', d', rfl⟩ := hm.two
      simp [clockFields, hh.read, hm.read]
    | minuteExtended hh hm =>
      obtain ⟨c, d, rfl⟩ := hh.two
      obtain ⟨c', d', rfl⟩ := hm.two
      simp [clockFields, hh.read, hm.read]
    | second hs =>
      cases hs with
      | basic hh hm hs =>
        obtain ⟨c, d, rfl⟩ := hh.two
        obtain ⟨c', d', rfl⟩ := hm.two
        obtain ⟨c'', d'', rfl⟩ := hs.two
        simp [clockFields, hh.read, hm.read, hs.read]
      | extended hh hm hs =>
        obtain ⟨c, d, rfl⟩ := hh.two
        obtain ⟨c', d', rfl⟩ := hm.two
        obtain ⟨c'', d'', rfl⟩ := hs.two
        simp [clockFields, hh.read, hm.read, hs.read]

theorem SignText.fits {c : UInt8} {sign : ℤ} (hc : SignText c sign)
    (hn : n ≤ 18 * 3600) : (Int32.ofInt (sign * n)).toInt = sign * n := by
  cases hc <;> exact Int32.toInt_ofInt_of_le (by omega) (by omega)

theorem parseOffset_sound {n : Int32} (h : parseOffset b = .ok n) : SignedOffset b n.toInt := by
  unfold parseOffset at h
  extract_lets err offset fields at h
  have herr : err ≠ .ok n := by simp only [err, ne_eq, reduceCtorEq, not_false_eq_true]
  have hoffset : ∀ sign hour minute, offset sign (hour, minute) = .ok n → ∃ h m, hour = some h ∧
      minute = some m ∧ m.toNat < 60 ∧ h.toNat * 3600 + m.toNat * 60 ≤ 18 * 3600 ∧
        n = Int32.ofInt (sign * (h.toNat * 3600 + m.toNat * 60 : ℕ)) := by
    intro sign hour minute hok
    cases hour with
    | none => exact absurd hok herr
    | some h =>
      cases minute with
      | none => exact absurd hok herr
      | some m =>
        by_cases hin : m.toNat < 60 ∧ h.toNat * 3600 + m.toNat * 60 ≤ 18 * 3600
        · rw [show offset sign (some h, some m) = _ from if_pos hin] at hok
          exact ⟨h, m, rfl, rfl, hin.1, hin.2, by push_cast; exact (Except.ok.inj hok).symm⟩
        · rw [show offset sign (some h, some m) = _ from if_neg hin] at hok
          exact absurd hok herr
  have hfields : ∀ {c sign rest}, SignText c sign → fields sign rest = .ok n →
      SignedOffset (c :: rest) n.toInt := by
    intro c sign rest hc hok
    simp only [fields] at hok
    split at hok
    · obtain ⟨h, m, hhour, hminute, -, hle, rfl⟩ := hoffset _ _ _ hok
      obtain ⟨hh, rfl⟩ := digits_run hhour
      obtain rfl := Option.some.inj hminute
      rw [hc.fits hle, hh.toNat (by simp)] at *
      have htext := SignedOffset.hour hc hh (by simp at hle; omega)
      simpa using htext
    · obtain ⟨h, m, hhour, hminute, hlt, hle, rfl⟩ := hoffset _ _ _ hok
      obtain ⟨hh, rfl⟩ := digits_run hhour
      obtain ⟨hm, rfl⟩ := digits_run hminute
      rw [hc.fits hle]
      rw [hm.toNat (by simp)] at hlt
      rw [hh.toNat (by simp), hm.toNat (by simp)] at hle ⊢
      exact_mod_cast SignedOffset.basic hc hh hm hlt hle
    · obtain ⟨h, m, hhour, hminute, hlt, hle, rfl⟩ := hoffset _ _ _ hok
      obtain ⟨hh, rfl⟩ := digits_run hhour
      obtain ⟨hm, rfl⟩ := digits_run hminute
      rw [hc.fits hle]
      rw [hm.toNat (by simp)] at hlt
      rw [hh.toNat (by simp), hm.toNat (by simp)] at hle ⊢
      exact_mod_cast SignedOffset.extended hc hh hm hlt hle
    · exact absurd hok herr
  clear_value fields
  split at h
  · exact hfields .plus h
  · exact hfields .minus h
  · exact absurd h herr

theorem parseOffset_complete {n : Int32} (h : SignedOffset b n.toInt) : parseOffset b = .ok n := by
  generalize hvalue : n.toInt = value at h
  have hback : ∀ {c sign} {k : ℕ}, SignText c sign → k ≤ 18 * 3600 → value = sign * k →
      Int32.ofInt (sign * k) = n := by
    intro c sign k hc hk hv
    rw [← Int32.toInt_inj, hc.fits hk, hvalue, hv]
  cases h with
  | @hour c sign h hc hh hle =>
    have hn := hback hc (show spelled h * 3600 ≤ 18 * 3600 by omega) (by push_cast; rfl)
    obtain ⟨c1, c2, rfl⟩ := hh.two
    have hfit := hh.toNat (by decide)
    cases hc <;>
    · simp only [parseOffset, hh.read (by decide), hfit]
      refine (if_pos ⟨by decide, by simp; omega⟩).trans (congrArg Except.ok ?_)
      rw [← hn]
      simp
  | @basic c sign h m hc hh hm hlt hle =>
    have hn := hback hc hle (by push_cast; rfl)
    obtain ⟨c1, c2, rfl⟩ := hh.two
    obtain ⟨c3, c4, rfl⟩ := hm.two
    have hfit := hh.toNat (by decide)
    have hfit' := hm.toNat (by decide)
    cases hc <;>
    · simp only [parseOffset, hh.read (by decide), hm.read (by decide), hfit, hfit',
        cons_append, nil_append]
      refine (if_pos ⟨hlt, hle⟩).trans (congrArg Except.ok ?_)
      rw [← hn]
      push_cast
      rfl
  | @extended c sign h m hc hh hm hlt hle =>
    have hn := hback hc hle (by push_cast; rfl)
    obtain ⟨c1, c2, rfl⟩ := hh.two
    obtain ⟨c3, c4, rfl⟩ := hm.two
    have hfit := hh.toNat (by decide)
    have hfit' := hm.toNat (by decide)
    cases hc <;>
    · simp only [parseOffset, hh.read (by decide), hm.read (by decide), hfit, hfit',
        cons_append, nil_append]
      refine (if_pos ⟨hlt, hle⟩).trans (congrArg Except.ok ?_)
      rw [← hn]
      push_cast
      rfl

theorem Digits.bytes (hb : Digits n b) : ∀ d ∈ b, isDigit d = true ∨ d = 58 :=
  fun d hd => Or.inl (List.all_eq_true.mp hb.2 d hd)

/-- Fields and the colons between them. -/
theorem colon_bytes {a b : Bytes} (ha : ∀ d ∈ a, isDigit d = true ∨ d = 58)
    (hb : ∀ d ∈ b, isDigit d = true ∨ d = 58) : ∀ d ∈ a ++ 58 :: b, isDigit d = true ∨ d = 58 := by
  intro d hd
  rcases List.mem_append.mp hd with hd | hd
  · exact ha d hd
  · rcases List.mem_cons.mp hd with rfl | hd
    · exact Or.inr rfl
    · exact hb d hd

theorem append_bytes {a b : Bytes} (ha : ∀ d ∈ a, isDigit d = true ∨ d = 58)
    (hb : ∀ d ∈ b, isDigit d = true ∨ d = 58) : ∀ d ∈ a ++ b, isDigit d = true ∨ d = 58 :=
  fun d hd => (List.mem_append.mp hd).elim (ha d) (hb d)

variable {hour minute second : ℕ}

theorem SecondText.bytes
    (h : SecondText c hour minute second) : ∀ d ∈ c, isDigit d = true ∨ d = 58 := by
  cases h with
  | basic hh hm hs => exact append_bytes hh.bytes (append_bytes hm.bytes hs.bytes)
  | extended hh hm hs => exact colon_bytes hh.bytes (colon_bytes hm.bytes hs.bytes)

theorem HmsText.bytes (h : HmsText c hour minute second) : ∀ d ∈ c, isDigit d = true ∨ d = 58 := by
  cases h with
  | hour hh => exact hh.bytes
  | minute hh hm => exact append_bytes hh.bytes hm.bytes
  | minuteExtended hh hm => exact colon_bytes hh.bytes hm.bytes
  | second hs => exact hs.bytes

/-- Only clocks with seconds are long. -/
theorem HmsText.second_iff
    (h : HmsText c hour minute second) : 6 ≤ c.length ↔ SecondText c hour minute second := by
  constructor
  · intro hlong
    cases h with
    | hour hh => exact absurd hlong (by rw [hh.1]; decide)
    | minute hh hm => exact absurd hlong (by rw [length_append, hh.1, hm.1]; decide)
    | minuteExtended hh hm =>
      exact absurd hlong (by rw [length_append, length_cons, hh.1, hm.1]; decide)
    | second hs => exact hs
  · intro hs
    cases hs with
    | basic hh hm hs => simp [hh.1, hm.1, hs.1]
    | extended hh hm hs => simp [hh.1, hm.1, hs.1]

theorem ClockText.bytes {hour minute second nanosecond : ℕ}
    (h : ClockText c hour minute second nanosecond) :
    ∀ d ∈ c, isDigit d = true ∨ d = 58 ∨ d = 46 := by
  cases h with
  | whole hc => exact fun d hd => (hc.bytes d hd).imp_right Or.inl
  | fraction hc _ hf =>
    intro d hd
    rcases List.mem_append.mp hd with hd | hd
    · exact (hc.bytes d hd).imp_right Or.inl
    · rcases List.mem_cons.mp hd with rfl | hd
      · exact Or.inr (Or.inr rfl)
      · exact Or.inl (List.all_eq_true.mp hf d hd)

theorem SignedOffset.bytes {offset : ℤ} (h : SignedOffset b offset) :
    ∃ c rest, b = c :: rest ∧ (c = 43 ∨ c = 45) ∧ rest ≠ [] ∧
      ∀ d ∈ rest, isDigit d = true ∨ d = 58 := by
  have hsign : ∀ {c sign}, SignText c sign → c = 43 ∨ c = 45 := by
    intro c sign hc
    cases hc
    · exact Or.inl rfl
    · exact Or.inr rfl
  cases h with
  | hour hc hh _ =>
    exact ⟨_, _, rfl, hsign hc, ne_nil_of_length_pos (by rw [hh.1]; decide), hh.bytes⟩
  | basic hc hh hm _ _ =>
    exact ⟨_, _, rfl, hsign hc, ne_nil_of_length_pos (by simp [hh.1]),
      append_bytes hh.bytes hm.bytes⟩
  | extended hc hh hm _ _ =>
    exact ⟨_, _, rfl, hsign hc, ne_nil_of_length_pos (by simp), colon_bytes hh.bytes hm.bytes⟩

variable {offset : Option Int32}

/-- A text that is split is a clock and its offset. -/
theorem splitOffset_sound {b clock : Bytes} (h : splitOffset b = .ok (clock, offset)) :
    ∃ zone, b = clock ++ zone ∧ OffsetText zone (offset.map Int32.toInt) := by
  unfold splitOffset at h
  split at h
  · next hlast =>
    obtain ⟨rfl, rfl⟩ := Prod.mk.inj (Except.ok.inj h)
    exact ⟨[90], (dropLast_append_getLast? 90 hlast).symm, .utc⟩
  · split at h
    · cases hparse : parseOffset (b.dropWhile fun c => !(c == 43 || c == 45)) with
      | error e =>
        rw [hparse] at h
        cases h
      | ok n =>
        rw [hparse] at h
        obtain ⟨rfl, rfl⟩ := Prod.mk.inj (Except.ok.inj h)
        exact ⟨_, List.takeWhile_append_dropWhile.symm, .signed (parseOffset_sound hparse)⟩
    · obtain ⟨rfl, rfl⟩ := Prod.mk.inj (Except.ok.inj h)
      exact ⟨[], (append_nil _).symm, .none⟩

/-- A byte of a clock is no sign, and not the `Z` of an offset. -/
theorem clock_byte {d : UInt8} (hd : isDigit d = true ∨ d = 58 ∨ d = 46) :
    d < 128 ∧ d ≠ 90 ∧ (d == 43 || d == 45) = false := by
  rcases hd with hd | rfl | rfl
  · obtain ⟨hlow, hhigh⟩ := isDigit_iff.mp hd
    have hne : ∀ c : UInt8, c.toNat < 48 ∨ 57 < c.toNat → d ≠ c := by
      rintro c hc rfl
      omega
    refine ⟨UInt8.lt_iff_toNat_lt.mpr (hhigh.trans_lt (by decide)), hne 90 (by decide), ?_⟩
    rw [Bool.or_eq_false_iff, beq_eq_false_iff_ne, beq_eq_false_iff_ne]
    exact ⟨hne 43 (by decide), hne 45 (by decide)⟩
  · decide
  · decide

theorem splitOffset_complete {clock zone : Bytes}
    (hclock : ∀ d ∈ clock, isDigit d = true ∨ d = 58 ∨ d = 46)
    (hzone : OffsetText zone (offset.map Int32.toInt)) :
    splitOffset (clock ++ zone) = .ok (clock, offset) := by
  have hnone : ∀ d ∈ clock, (!(d == 43 || d == 45)) = true := by
    intro d hd
    rw [(clock_byte (hclock d hd)).2.2]
    rfl
  have hany : (clock.any fun c => c == 43 || c == 45) = false :=
    List.any_eq_false.mpr fun d hd => by simp [(clock_byte (hclock d hd)).2.2]
  generalize hvalue : offset.map Int32.toInt = value at hzone
  unfold splitOffset
  cases hzone with
  | none =>
    obtain rfl := Option.map_eq_none_iff.mp hvalue
    have hlast : ¬ clock.getLast? = some 90 := fun h =>
      (clock_byte (hclock 90 (mem_of_getLast? h))).2.1 rfl
    rw [append_nil, if_neg hlast, if_neg (by rw [hany]; decide)]
  | utc =>
    obtain ⟨n, rfl, hn⟩ := Option.map_eq_some_iff.mp hvalue
    obtain rfl : n = 0 := Int32.toInt_inj.mp hn
    rw [if_pos getLast?_concat, dropLast_concat]
  | @signed zone n hsigned =>
    obtain ⟨n, rfl, rfl⟩ := Option.map_eq_some_iff.mp hvalue
    obtain ⟨c, rest, rfl, hc, hrest, hbytes⟩ := hsigned.bytes
    have hstop : (c == 43 || c == 45) = true := by rcases hc with rfl | rfl <;> rfl
    have hlast : ¬ (clock ++ c :: rest).getLast? = some 90 := by
      rw [getLast?_append_of_ne_nil _ (cons_ne_nil _ _), getLast?_cons_of_ne_nil hrest]
      intro h
      have hd := hbytes 90 (mem_of_getLast? h)
      exact (clock_byte (hd.imp_right Or.inl)).2.1 rfl
    rw [if_neg hlast, if_pos (by rw [any_append, any_cons, hstop]; simp),
      takeWhile_append_of_pos hnone, dropWhile_append_of_pos hnone,
      takeWhile_cons_of_neg (by simp [hstop]), dropWhile_cons_of_neg (by simp [hstop]),
      append_nil, parseOffset_complete hsigned]
    rfl

/-- A point ends the fields of a clock. -/
theorem span_point {c rest : Bytes} (hc : ∀ d ∈ c, isDigit d = true ∨ d = 58)
    (hrest : ∀ d ∈ rest.head?, d = 46) :
    (c ++ rest).takeWhile (· != 46) = c ∧ (c ++ rest).dropWhile (· != 46) = rest := by
  have hin : ∀ d ∈ c, (d != 46) = true := by
    intro d hd
    rw [bne_iff_ne]
    rintro rfl
    rcases hc 46 hd with h | h <;> exact absurd h (by decide)
  rw [takeWhile_append_of_pos hin, dropWhile_append_of_pos hin]
  cases rest with
  | nil => exact ⟨append_nil c, rfl⟩
  | cons d rest =>
    obtain rfl := hrest d rfl
    exact ⟨append_nil c, rfl⟩

/-- A clock's fields and its fraction. -/
theorem parseTimeString_split {b clock : Bytes} {zone : Option Int32}
    (hascii : b.any (128 ≤ ·) = false) (hsplit : splitOffset b = .ok (clock, zone))
    {hour minute second nanosecond : UInt32} :
    parseTimeString b = .ok (hour, minute, second, nanosecond, offset) ↔
      ClockText clock hour.toNat minute.toNat second.toNat nanosecond.toNat ∧ zone = offset := by
  rw [parseTimeString, hascii, hsplit]
  simp only [Bool.false_eq_true, if_false]
  constructor
  · intro h
    cases hfields : clockFields (clock.takeWhile (· != 46)) with
    | none =>
      rw [hfields] at h
      cases h
    | some fields =>
      obtain ⟨hour', minute', second'⟩ := fields
      have hhms := clockFields_iff.mp hfields
      rw [hfields] at h
      have hspan : clock = clock.takeWhile (· != 46) ++ clock.dropWhile (· != 46) :=
        List.takeWhile_append_dropWhile.symm
      have hhead : ∀ d ∈ (clock.dropWhile (· != 46)).head?, d = 46 := by
        intro d hd
        have hnot := head?_dropWhile_not (· != 46) clock
        rw [Option.mem_def.mp hd] at hnot
        simpa using hnot
      revert h hspan hhead
      generalize clock.dropWhile (· != 46) = rest
      intro h hspan hhead
      rw [hspan]
      dsimp only at h
      cases rest with
      | nil =>
        cases h
        rw [append_nil]
        exact ⟨.whole hhms, rfl⟩
      | cons d f =>
        obtain rfl := hhead d rfl
        dsimp only at h
        split at h
        · next hfraction =>
          obtain ⟨hlong, hne, hf⟩ := hfraction
          cases h
          rw [fractionNanos_eq hf]
          exact ⟨.fraction (hhms.second_iff.mp hlong) hne hf, rfl⟩
        · cases h
  · rintro ⟨htext, rfl⟩
    generalize hnanos : nanosecond.toNat = n at htext
    cases htext with
    | whole hc =>
      obtain ⟨htake, hdrop⟩ := @span_point clock [] hc.bytes (by simp)
      rw [append_nil] at htake hdrop
      obtain rfl : nanosecond = 0 := UInt32.toNat_inj.mp hnanos
      rw [htake, clockFields_iff.mpr hc, hdrop]
    | @fraction c _ _ _ f hc hne hf =>
      obtain ⟨htake, hdrop⟩ := @span_point c (46 :: f) hc.bytes (by simp)
      have hfraction : fractionNanos f = nanosecond :=
        UInt32.toNat_inj.mp ((fractionNanos_eq hf).trans hnanos.symm)
      have hhms : HmsText c hour.toNat minute.toNat second.toNat := .second hc
      rw [htake, clockFields_iff.mpr hhms, hdrop]
      dsimp only
      rw [if_pos ⟨hhms.second_iff.mpr hc, hne, hf⟩, hfraction]

/-- The texts of times: a text is read as the clock and the offset it spells. -/
theorem parseTimeString_iff {hour minute second nanosecond : UInt32} :
    parseTimeString b = .ok (hour, minute, second, nanosecond, offset) ↔
      ∃ clock zone, b = clock ++ zone ∧
        ClockText clock hour.toNat minute.toNat second.toNat nanosecond.toNat ∧
        OffsetText zone (offset.map Int32.toInt) := by
  constructor
  · intro h
    cases hascii : b.any (128 ≤ ·) with
    | true =>
      rw [parseTimeString, hascii] at h
      cases h
    | false =>
      cases hsplit : splitOffset b with
      | error e =>
        rw [parseTimeString, hascii, hsplit] at h
        cases h
      | ok parts =>
        obtain ⟨clock, zone⟩ := parts
        obtain ⟨htext, rfl⟩ := (parseTimeString_split hascii hsplit).mp h
        obtain ⟨rest, rfl, hzone⟩ := splitOffset_sound hsplit
        exact ⟨clock, rest, rfl, htext, hzone⟩
  · rintro ⟨clock, zone, rfl, htext, hzone⟩
    have hsplit := splitOffset_complete htext.bytes hzone
    refine (parseTimeString_split ?_ hsplit).mpr ⟨htext, rfl⟩
    have hclock : ∀ d ∈ clock, d < 128 := fun d hd => (clock_byte (htext.bytes d hd)).1
    have hoffset : ∀ d ∈ zone, d < 128 := by
      generalize offset.map Int32.toInt = value at hzone
      cases hzone with
      | none => exact fun d hd => absurd hd not_mem_nil
      | utc =>
        intro d hd
        rw [List.mem_singleton.mp hd]
        decide
      | signed hsigned =>
        obtain ⟨c, rest, rfl, hc, -, hbytes⟩ := hsigned.bytes
        intro d hd
        rcases List.mem_cons.mp hd with rfl | hd
        · rcases hc with rfl | rfl <;> decide
        · exact (clock_byte ((hbytes d hd).imp_right Or.inl)).1
    rw [any_append, Bool.or_eq_false_iff]
    exact ⟨List.any_eq_false.mpr fun d hd => by simpa using hclock d hd,
      List.any_eq_false.mpr fun d hd => by simpa using hoffset d hd⟩

end LoraDb
