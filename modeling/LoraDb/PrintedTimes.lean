import LoraDb.Casts

/-!
# Printed Dates and Times

The texts that dates and times print as, read back.

## Main results

* `printed_read`: a printed date or time reads as itself, if its offset has whole minutes.
-/

open ByteCodec

namespace LoraDb

open List

/-! ### Printed numbers -/

theorem utf8_append (s t : String) : utf8 (s ++ t) = utf8 s ++ utf8 t := by
  rw [utf8, String.toByteArray_append, ByteArray.toList_data_append]
  rfl

theorem utf8_ofList (cs : List Char) :
    utf8 (String.ofList cs) = cs.flatMap String.utf8EncodeChar := by
  rw [utf8, String.toByteArray_ofList, utf8Encode, toList_data_toByteArray]

/-- The byte of an ASCII digit. -/
theorem utf8_digit {c : Char} (hc : c.isDigit = true) :
    String.utf8EncodeChar c = [UInt8.ofNat c.toNat] ∧
      isDigit (UInt8.ofNat c.toNat) = true ∧ (UInt8.ofNat c.toNat).toNat = c.toNat := by
  have hrange : 48 ≤ c.toNat ∧ c.toNat ≤ 57 := by
    simp only [Char.isDigit, Bool.and_eq_true, decide_eq_true_eq, ge_iff_le, UInt32.le_iff_toNat_le]
      at hc
    exact hc
  have hbyte : (UInt8.ofNat c.toNat).toNat = c.toNat := by
    rw [UInt8.toNat_ofNat']
    omega
  refine ⟨if_pos (show c.val.toNat ≤ 0x7f from ?_), isDigit_iff.mpr ?_, hbyte⟩
  · exact le_trans hrange.2 (by omega)
  · rw [hbyte]
    exact hrange

/-- The bytes of a run of digits spell the number the run is. -/
theorem utf8_digits {cs : List Char} (hcs : ∀ c ∈ cs, c.isDigit = true) :
    (utf8 (String.ofList cs)).length = cs.length ∧ (utf8 (String.ofList cs)).all isDigit = true ∧
      spelled (utf8 (String.ofList cs)) = Nat.ofDigitChars 10 cs 0 := by
  rw [utf8_ofList]
  induction cs using reverseRecOn with
  | nil => exact ⟨rfl, rfl, rfl⟩
  | append_singleton cs c ih =>
    obtain ⟨hlen, hall, hspelled⟩ := ih fun d hd => hcs d (mem_append_left _ hd)
    obtain ⟨hencode, hdigit, hbyte⟩ := utf8_digit (hcs c (by simp))
    rw [flatMap_append, flatMap_singleton, hencode]
    refine ⟨by simp [hlen], ?_, ?_⟩
    · rw [all_append, hall]
      simpa using hdigit
    · rw [spelled_append_singleton, hspelled, hbyte, Nat.ofDigitChars_eq_foldl,
        Nat.ofDigitChars_eq_foldl, foldl_append]
      simp [mul_comm]

/-- A printed number: its digits, filled up with zeros. -/
theorem padded_digits (width n : ℕ) :
    (utf8 (padded width n)).all isDigit = true ∧ spelled (utf8 (padded width n)) = n ∧
      width ≤ (utf8 (padded width n)).length ∧ 1 ≤ (utf8 (padded width n)).length ∧
      (1 ≤ width → n < 10 ^ width → Digits width (utf8 (padded width n))) := by
  have htext : padded width n = String.ofList
      (replicate (width - (toString n).length) '0' ++ Nat.toDigits 10 n) := by
    rw [padded, Nat.toString_eq_ofList_toDigits, String.ofList_append]
  have hcs : ∀ c ∈ replicate (width - (toString n).length) '0' ++ Nat.toDigits 10 n,
      c.isDigit = true := by
    intro c hc
    rcases List.mem_append.mp hc with hc | hc
    · rw [eq_of_mem_replicate hc]
      rfl
    · exact Nat.isDigit_of_mem_toDigits (by omega) (by omega) hc
  obtain ⟨hlen, hall, hspelled⟩ := utf8_digits hcs
  have hzeros : ∀ (k : ℕ) (cs : List Char),
      Nat.ofDigitChars 10 (replicate k '0' ++ cs) 0 = Nat.ofDigitChars 10 cs 0 := by
    intro k cs
    induction k with
    | zero => rfl
    | succ k ih =>
      rw [replicate_succ, cons_append, Nat.ofDigitChars_eq_foldl, foldl_cons]
      exact ih
  have hlength : (toString n).length = (Nat.toDigits 10 n).length := by
    rw [Nat.toString_eq_ofList_toDigits, String.length_ofList]
  have hpos : 0 < (Nat.toDigits 10 n).length := Nat.length_toDigits_pos
  rw [← htext] at hlen hall hspelled
  rw [length_append, length_replicate, hlength] at hlen
  rw [hzeros, Nat.ofDigitChars_ten_toDigits] at hspelled
  refine ⟨hall, hspelled, by omega, by omega, fun hwidth hn => ⟨?_, hall⟩⟩
  have hshort := (Nat.length_toDigits_le_iff (by omega) hwidth).mpr hn
  omega

/-! ### Marks -/

theorem utf8_empty : utf8 "" = [] := by rw [utf8]; decide

theorem utf8_dash : utf8 "-" = [45] := by rw [utf8]; decide

theorem utf8_plus : utf8 "+" = [43] := by rw [utf8]; decide

theorem utf8_colon : utf8 ":" = [58] := by rw [utf8]; decide

theorem utf8_point : utf8 "." = [46] := by rw [utf8]; decide

theorem utf8_utc : utf8 "Z" = [90] := by rw [utf8]; decide

theorem utf8_T : utf8 "T" = [84] := by rw [utf8]; decide

/-! ### Dates -/

variable {month day : UInt32}

/-- A printed date spells its year and its day. -/
theorem dateDisplay_text (year : Int32) (hmonth : month.toNat < 100) (hday : day.toNat < 100) :
    DateText (utf8 (dateDisplay year month day)) year.toInt (.day month.toNat day.toNat) := by
  obtain ⟨-, hmonthIs, -, -, hmonthDigits⟩ := padded_digits 2 month.toNat
  obtain ⟨-, hdayIs, -, -, hdayDigits⟩ := padded_digits 2 day.toNat
  have hrest := ExtendedText.day (hmonthDigits (by omega) hmonth) (hdayDigits (by omega) hday)
  rw [hmonthIs, hdayIs] at hrest
  have htext : ∀ head : String, utf8 (head ++ "-" ++ padded 2 month.toNat ++ "-" ++
      padded 2 day.toNat) = utf8 head ++ 45 :: (utf8 (padded 2 month.toNat) ++
        45 :: utf8 (padded 2 day.toNat)) := by
    intro head
    simp only [utf8_append, utf8_dash, append_assoc, cons_append, nil_append]
  rw [dateDisplay, htext, paddedYear]
  split_ifs with hnegative
  · obtain ⟨hall, hspelled, -, hpos, -⟩ := padded_digits 3 year.toInt.natAbs
    have hsigned := DateText.signed .minus hpos hall hrest
    have hyear : -1 * (year.toInt.natAbs : ℤ) = year.toInt := by omega
    rw [hspelled, hyear] at hsigned
    rw [utf8_append, utf8_dash]
    exact hsigned
  · obtain ⟨hall, hspelled, hlen, -, -⟩ := padded_digits 4 year.toInt.natAbs
    have hextended := DateText.extended hlen hall hrest
    have hyear : (year.toInt.natAbs : ℤ) = year.toInt := by omega
    rwa [hspelled, hyear] at hextended

theorem padded_bytes {width n : ℕ} : ∀ b ∈ utf8 (padded width n), isDigit b = true :=
  List.all_eq_true.mp (padded_digits width n).1

theorem dateDisplay_bytes {year : Int32} :
    ∀ b ∈ utf8 (dateDisplay year month day), isDigit b = true ∨ b = 45 := by
  have hdash : ∀ b ∈ utf8 "-", isDigit b = true ∨ b = 45 := by simp [utf8_dash]
  have hdigits : ∀ width n, ∀ b ∈ utf8 (padded width n), isDigit b = true ∨ b = 45 :=
    fun _ _ b hb => .inl (padded_bytes b hb)
  rw [dateDisplay, paddedYear]
  split_ifs <;> simp only [utf8_append, forall_mem_append]
  · exact ⟨⟨⟨⟨⟨hdash, hdigits _ _⟩, hdash⟩, hdigits _ _⟩, hdash⟩, hdigits _ _⟩
  · exact ⟨⟨⟨⟨hdigits _ _, hdash⟩, hdigits _ _⟩, hdash⟩, hdigits _ _⟩

theorem daysInMonth_le (year : ℤ) (month : ℕ) : daysInMonth year month ≤ 31 := by
  unfold daysInMonth
  split
  case h_2 => split <;> omega
  all_goals omega

/-- A printed date reads as itself. -/
theorem display_parseDate {v : LoraDate} (hv : v.valid = true) :
    parseDate (utf8 (dateDisplay v.year v.month v.day)) = some (.ok v) := by
  obtain ⟨-, hm12, -, hd⟩ := LoraDate.valid_iff.mp hv
  have hdays := daysInMonth_le v.year.toInt v.month.toNat
  have htext := @dateDisplay_text v.month v.day v.year (by omega) (by omega)
  have hweek : 87 ∉ utf8 (dateDisplay v.year v.month v.day) := fun hmem => by
    rcases dateDisplay_bytes 87 hmem with h | h <;> cases h
  obtain ⟨r, hr, hiff⟩ := parseDate_iff fun year spec h => h.within hweek
  rw [hr, (hiff v).mpr ⟨hv, v.year, _, htext, rfl, rfl, rfl⟩]

/-! ### Times -/

/-- A printed clock spells its fields, nanoseconds too. -/
theorem clockDisplay_text {hour minute second nanosecond : UInt32} (hhour : hour.toNat < 100)
    (hminute : minute.toNat < 100) (hsecond : second.toNat < 100)
    (hnanosecond : nanosecond.toNat < 1000000000) :
    ClockText (utf8 (clockDisplay hour minute second nanosecond)) hour.toNat minute.toNat
      second.toNat nanosecond.toNat := by
  obtain ⟨-, hhourIs, -, -, hhourDigits⟩ := padded_digits 2 hour.toNat
  obtain ⟨-, hminuteIs, -, -, hminuteDigits⟩ := padded_digits 2 minute.toNat
  obtain ⟨-, hsecondIs, -, -, hsecondDigits⟩ := padded_digits 2 second.toNat
  have hwhole := SecondText.extended (hhourDigits (by omega) hhour)
    (hminuteDigits (by omega) hminute) (hsecondDigits (by omega) hsecond)
  rw [hhourIs, hminuteIs, hsecondIs] at hwhole
  have htext : utf8 (padded 2 hour.toNat ++ ":" ++ padded 2 minute.toNat ++ ":" ++
      padded 2 second.toNat) = utf8 (padded 2 hour.toNat) ++ 58 ::
        (utf8 (padded 2 minute.toNat) ++ 58 :: utf8 (padded 2 second.toNat)) := by
    simp only [utf8_append, utf8_colon, append_assoc, cons_append, nil_append]
  rw [clockDisplay, utf8_append, htext, formatSubsecond]
  generalize utf8 (padded 2 hour.toNat) ++ 58 ::
    (utf8 (padded 2 minute.toNat) ++ 58 :: utf8 (padded 2 second.toNat)) = c at hwhole
  -- A printed fraction of `w` digits is `n` of `10 ^ w` parts of a second.
  have hfraction : ∀ w n : ℕ, 1 ≤ w → n < 10 ^ w → n * 10 ^ 9 / 10 ^ w = nanosecond.toNat →
      ClockText (c ++ utf8 ("." ++ padded w n)) hour.toNat minute.toNat second.toNat
          nanosecond.toNat := by
    intro w n hw hn hvalue
    obtain ⟨hall, hspelled, -, hpos, hdigits⟩ := padded_digits w n
    have htext := ClockText.fraction hwhole (ne_nil_of_length_pos hpos) hall
    rw [hspelled, (hdigits hw hn).1, hvalue] at htext
    rw [utf8_append, utf8_point]
    exact htext
  split_ifs with hzero hmillis
  · rw [hzero, utf8_empty, append_nil]
    exact .whole (.second hwhole)
  · refine hfraction 3 _ (by omega) (by omega) ?_
    norm_num
    omega
  · refine hfraction 9 _ (by omega) hnanosecond ?_
    norm_num

/-- The bytes of printed clocks and offsets. -/
def TimeByte (b : UInt8) : Prop := isDigit b = true ∨ b = 58 ∨ b = 46 ∨ b = 43 ∨ b = 45 ∨ b = 90

theorem TimeByte.ne {b : UInt8} (h : TimeByte b) : b ≠ 91 ∧ b ≠ 93 ∧ b ≠ 84 := by
  refine ⟨?_, ?_, ?_⟩ <;> rintro rfl <;> revert h <;> simp only [TimeByte] <;> decide

theorem padded_timeBytes {width n : ℕ} : ∀ b ∈ utf8 (padded width n), TimeByte b :=
  fun b hb => .inl (padded_bytes b hb)

theorem colon_timeBytes : ∀ b ∈ utf8 ":", TimeByte b := by simp [utf8_colon, TimeByte]

theorem clockDisplay_bytes {hour minute second nanosecond : UInt32} :
    ∀ b ∈ utf8 (clockDisplay hour minute second nanosecond), TimeByte b := by
  have hpoint : ∀ b ∈ utf8 ".", TimeByte b := by simp [utf8_point, TimeByte]
  have hsubsecond : ∀ b ∈ utf8 (formatSubsecond nanosecond), TimeByte b := by
    rw [formatSubsecond]
    split_ifs <;> simp only [utf8_append, utf8_empty, forall_mem_append]
    · exact nofun
    · exact ⟨hpoint, padded_timeBytes⟩
    · exact ⟨hpoint, padded_timeBytes⟩
  simp only [clockDisplay, utf8_append, forall_mem_append]
  exact ⟨⟨⟨⟨⟨padded_timeBytes, colon_timeBytes⟩, padded_timeBytes⟩, colon_timeBytes⟩,
    padded_timeBytes⟩, hsubsecond⟩

variable {offset : Int32}

theorem formatOffset_bytes : ∀ b ∈ utf8 (formatOffset offset), TimeByte b := by
  rw [formatOffset]
  dsimp only
  split_ifs
  · simp [utf8_utc, TimeByte]
  all_goals
    simp only [utf8_append, forall_mem_append]
    refine ⟨⟨⟨?_, padded_timeBytes⟩, colon_timeBytes⟩, padded_timeBytes⟩
  · simp [utf8_plus, TimeByte]
  · simp [utf8_dash, TimeByte]

/-- A printed offset starts with a sign or is the Z. -/
theorem formatOffset_marked : ∃ b ∈ utf8 (formatOffset offset), b = 43 ∨ b = 45 ∨ b = 90 := by
  simp only [formatOffset]
  split_ifs
  · exact ⟨90, by simp [utf8_utc], by simp⟩
  · exact ⟨43, by simp [utf8_append, utf8_plus], by simp⟩
  · exact ⟨45, by simp [utf8_append, utf8_dash], by simp⟩

/-- An offset that a text can give: whole minutes, at most 18 hours. -/
def WholeMinutes (offset : ℤ) : Prop := 60 ∣ offset ∧ |offset| ≤ 64800

/-- An offset of whole minutes is spelled by what it prints as. -/
theorem formatOffset_text (h : WholeMinutes offset.toInt) :
    OffsetText (utf8 (formatOffset offset)) (some offset.toInt) := by
  obtain ⟨hminutes, hrange⟩ := h
  rw [abs_le] at hrange
  obtain ⟨-, hhourIs, -, -, hhour⟩ := padded_digits 2 (offset.toInt.natAbs / 3600)
  obtain ⟨-, hminuteIs, -, -, hminute⟩ := padded_digits 2 (offset.toInt.natAbs % 3600 / 60)
  have hsigned : ∀ {c : UInt8} {sign : ℤ}, SignText c sign →
      sign * (offset.toInt.natAbs : ℤ) = offset.toInt →
      OffsetText (c :: (utf8 (padded 2 (offset.toInt.natAbs / 3600)) ++
        58 :: utf8 (padded 2 (offset.toInt.natAbs % 3600 / 60)))) (some offset.toInt) := by
    intro c sign hsign hvalue
    have htext := SignedOffset.extended hsign (hhour (by omega) (by omega))
      (hminute (by omega) (by omega)) (by omega) (by omega)
    rw [hhourIs, hminuteIs] at htext
    have hsum : ((offset.toInt.natAbs / 3600 : ℕ) : ℤ) * 3600 +
        ((offset.toInt.natAbs % 3600 / 60 : ℕ) : ℤ) * 60 = offset.toInt.natAbs := by omega
    rw [hsum, hvalue] at htext
    exact .signed htext
  simp only [formatOffset]
  split_ifs with hzero hpositive
  · rw [utf8_utc, hzero]
    exact .utc
  · have htext := hsigned .plus (by omega)
    simpa only [utf8_append, utf8_colon, utf8_plus, append_assoc, cons_append,
      nil_append] using htext
  · have htext := hsigned .minus (by omega)
    simpa only [utf8_append, utf8_colon, utf8_dash, append_assoc, cons_append,
      nil_append] using htext

theorem OffsetText.wholeMinutes {b : Bytes} {offset : ℤ} (h : OffsetText b (some offset)) :
    WholeMinutes offset := by
  cases h with
  | utc => exact ⟨by omega, by simp⟩
  | signed hsigned =>
    cases hsigned with
    | hour hsign _ _ => cases hsign <;> exact ⟨by omega, abs_le.mpr (by omega)⟩
    | basic hsign _ _ _ _ => cases hsign <;> exact ⟨by omega, abs_le.mpr (by omega)⟩
    | extended hsign _ _ _ _ => cases hsign <;> exact ⟨by omega, abs_le.mpr (by omega)⟩

/-! ### Reading what is printed -/

/-- The fields of a clock are in range. -/
def InClock (hour minute second nanosecond : UInt32) : Prop :=
  (hour.toNat < 24 ∧ minute.toNat < 60 ∧ second.toNat < 60) ∧ nanosecond.toNat < 1000000000

variable {hour minute second nanosecond hour' minute' second' nanosecond' : UInt32} {s : Bytes}

theorem checkClock_iff : checkClock hour minute second = .ok () ↔
    hour.toNat < 24 ∧ minute.toNat < 60 ∧ second.toNat < 60 := by
  rw [checkClock]
  split_ifs <;> simp <;> omega

theorem display_parseClock (h : InClock hour minute second nanosecond) (offset : Option Int32)
    {zone : Bytes} (hzone : OffsetText zone (offset.map Int32.toInt)) :
    parseTimeString (utf8 (clockDisplay hour minute second nanosecond) ++ zone) =
      .ok (hour, minute, second, nanosecond, offset) := by
  obtain ⟨⟨hhour, hminute, hsecond⟩, hnanosecond⟩ := h
  exact parseTimeString_iff.mpr ⟨_, zone, rfl, clockDisplay_text (by omega) (by omega) (by omega)
    hnanosecond, hzone⟩

/-- What a text of a clock gives is in range, but for the fields of the clock. -/
theorem parseTimeString_gives {offset : Option Int32}
    (h : parseTimeString s = .ok (hour, minute, second, nanosecond, offset)) :
    nanosecond.toNat < 1000000000 ∧ ∀ n, offset = some n → WholeMinutes n.toInt := by
  refine ⟨parseTimeString_nanosecond h, fun n hn => ?_⟩
  obtain ⟨clock, zone, -, -, hzone⟩ := parseTimeString_iff.mp h
  rw [hn] at hzone
  exact hzone.wholeMinutes

variable {db : ZoneDb}

theorem splitZoneSuffix_plain (h : 93 ∉ s) : LoraDateTime.splitZoneSuffix db s = .ok (s, none) :=
  if_neg fun hlast => h (mem_of_getLast? hlast)

/-- What a clock that is checked is made into. -/
theorem checkClock_then {α : Type} {v w : α} :
    (checkClock hour minute second >>= fun _ => .ok w) = .ok v ↔
      (hour.toNat < 24 ∧ minute.toNat < 60 ∧ second.toNat < 60) ∧ w = v := by
  rw [← checkClock_iff]
  cases hcheck : checkClock hour minute second with
  | error e =>
    constructor
    · intro h
      cases h
    · rintro ⟨h, -⟩
      cases h
  | ok _ => exact ⟨fun h => ⟨rfl, Except.ok.inj h⟩, fun h => congrArg Except.ok h.2⟩

/-- A printed local time reads as itself if it is in range. -/
theorem LoraLocalTime.display_read (v : LoraLocalTime) :
    LoraLocalTime.parse (utf8 v.display) = .ok v ↔
      InClock v.hour v.minute v.second v.nanosecond := by
  rw [LoraLocalTime.parse, LoraLocalTime.display]
  constructor
  · intro h
    obtain ⟨⟨hour, minute, second, nanosecond, offset⟩, hread, hnew⟩ := bind_eq_ok.mp h
    cases offset with
    | some offset => cases hnew
    | none =>
      obtain ⟨hrange, rfl⟩ := checkClock_then.mp hnew
      exact ⟨hrange, (parseTimeString_gives hread).1⟩
  · intro h
    have hclock := display_parseClock h none .none
    rw [append_nil] at hclock
    rw [hclock]
    exact checkClock_then.mpr ⟨h.1, rfl⟩

variable {tz : ZoneId → TimeZone}

/-- A time without a zone is its clock and its offset. -/
theorem LoraTime.parse_plain {t : Now} (h : 93 ∉ s) :
    LoraTime.parse tz db t s = parseTimeString s >>= fun parts =>
      LoraTime.new parts.1 parts.2.1 parts.2.2.1 parts.2.2.2.1 (parts.2.2.2.2.getD 0) := by
  rw [LoraTime.parse, splitZoneSuffix_plain h]
  change (parseTimeString s >>= _) = _
  cases parseTimeString s with
  | error e => rfl
  | ok parts =>
    obtain ⟨hour, minute, second, nanosecond, offset⟩ := parts
    cases offset <;> rfl

/-- A printed time reads as itself if it is in range and its offset has whole minutes. -/
theorem LoraTime.display_read (tz : ZoneId → TimeZone) (db : ZoneDb) (t : Now) (v : LoraTime) :
    LoraTime.parse tz db t (utf8 v.display) = .ok v ↔
      InClock v.hour v.minute v.second v.nanosecond ∧ WholeMinutes v.offsetSeconds.toInt := by
  have hplain : 93 ∉ utf8 v.display := fun hmem => by
    rw [LoraTime.display, utf8_append] at hmem
    rcases List.mem_append.mp hmem with hmem | hmem
    · exact (clockDisplay_bytes _ hmem).ne.2.1 rfl
    · exact (formatOffset_bytes _ hmem).ne.2.1 rfl
  rw [LoraTime.parse_plain hplain]
  constructor
  · intro h
    obtain ⟨⟨hour, minute, second, nanosecond, offset⟩, hread, hnew⟩ := bind_eq_ok.mp h
    obtain ⟨hrange, rfl⟩ := checkClock_then.mp hnew
    obtain ⟨hnanosecond, hminutes⟩ := parseTimeString_gives hread
    refine ⟨⟨hrange, hnanosecond⟩, ?_⟩
    cases offset with
    | none => exact ⟨by simp, by simp⟩
    | some offset => exact hminutes offset rfl
  · rintro ⟨hclock, hoffset⟩
    have hread := display_parseClock hclock (some v.offsetSeconds) (formatOffset_text hoffset)
    rw [LoraTime.display, utf8_append, hread]
    exact checkClock_then.mpr ⟨hclock.1, rfl⟩

/-- A printed date reads as itself if it is one. -/
theorem LoraDate.display_read (v : LoraDate) :
    parseDate (utf8 v.display) = some (.ok v) ↔ v.valid = true :=
  ⟨parseDate_valid, display_parseDate⟩

theorem dateDisplay_T {year : Int32} : 84 ∉ utf8 (dateDisplay year month day) := fun hmem => by
  rcases dateDisplay_bytes 84 hmem with h | h <;> cases h

/-- A `T` between a date and a clock. -/
theorem span_T {date rest : Bytes} (h : 84 ∉ date) :
    (date ++ 84 :: rest).takeWhile (· != 84) = date ∧
      (date ++ 84 :: rest).dropWhile (· != 84) = 84 :: rest := by
  have hdate : ∀ b ∈ date, (b != 84) = true := fun b hb =>
    bne_iff_ne.mpr fun heq => h (heq ▸ hb)
  rw [takeWhile_append_of_pos hdate, dropWhile_append_of_pos hdate]
  exact ⟨append_nil date, rfl⟩

theorem Build.bind_eq_ok {α β : Type} {op : Build α} {next : α → Build β} {b : β} :
    (op >>= next).run = some (.ok b) ↔
      ∃ a, op.run = some (.ok a) ∧ (next a).run = some (.ok b) := by
  constructor
  · intro h
    obtain ⟨read, hread, hrest⟩ := Option.bind_eq_some_iff.mp h
    cases read with
    | error e => cases hrest
    | ok a => exact ⟨a, hread, hrest⟩
  · rintro ⟨a, hop, hnext⟩
    exact Option.bind_eq_some_iff.mpr ⟨.ok a, hop, hnext⟩

theorem LoraLocalDateTime.parse_iff {date rest : Bytes} (h : 84 ∉ date) {v : LoraLocalDateTime} :
    (LoraLocalDateTime.parse (date ++ 84 :: rest)).run = some (.ok v) ↔
      ∃ d hour minute second nanosecond, parseDate date = some (.ok d) ∧
        parseTimeString rest = .ok (hour, minute, second, nanosecond, none) ∧
        (hour.toNat < 24 ∧ minute.toNat < 60 ∧ second.toNat < 60) ∧
        v = ⟨d.year, d.month, d.day, hour, minute, second, nanosecond⟩ := by
  rw [LoraLocalDateTime.parse, (span_T h).1, (span_T h).2]
  dsimp only
  constructor
  · intro h
    obtain ⟨d, hdate, h⟩ := Build.bind_eq_ok.mp h
    obtain ⟨⟨hour, minute, second, nanosecond, offset⟩, htime, h⟩ := Build.bind_eq_ok.mp h
    cases offset with
    | some offset => cases h
    | none =>
      obtain ⟨_, hclock, h⟩ := Build.bind_eq_ok.mp h
      cases h
      exact ⟨d, _, _, _, _, hdate, Option.some.inj htime,
        checkClock_iff.mp (Option.some.inj hclock), rfl⟩
  · rintro ⟨d, hour, minute, second, nanosecond, hdate, htime, hrange, rfl⟩
    refine Build.bind_eq_ok.mpr ⟨d, hdate, Build.bind_eq_ok.mpr ⟨_, congrArg some htime, ?_⟩⟩
    exact Build.bind_eq_ok.mpr ⟨(), congrArg some (checkClock_iff.mpr hrange), rfl⟩

/-- A printed local date-time reads as itself if it is in range. -/
theorem LoraLocalDateTime.display_read (v : LoraLocalDateTime) :
    (LoraLocalDateTime.parse (utf8 v.display)).run = some (.ok v) ↔
      (⟨v.year, v.month, v.day⟩ : LoraDate).valid = true ∧
        InClock v.hour v.minute v.second v.nanosecond := by
  have htext : utf8 v.display = utf8 (dateDisplay v.year v.month v.day) ++
      84 :: utf8 (clockDisplay v.hour v.minute v.second v.nanosecond) := by
    simp only [LoraLocalDateTime.display, utf8_append, utf8_T, append_assoc, cons_append,
      nil_append]
  rw [htext, LoraLocalDateTime.parse_iff dateDisplay_T]
  constructor
  · rintro ⟨d, hour, minute, second, nanosecond, hdate, htime, hrange, rfl⟩
    exact ⟨parseDate_valid hdate, hrange, (parseTimeString_gives htime).1⟩
  · rintro ⟨hvalid, hclock⟩
    have hread := display_parseClock hclock none .none
    rw [append_nil] at hread
    have hdate := @display_parseDate ⟨v.year, v.month, v.day⟩ hvalid
    exact ⟨_, _, _, _, _, hdate, hread, hclock.1, rfl⟩

/-! ### Zones -/

theorem text_utf8 (s : String) : text (utf8 s) = s := by
  have h : (⟨(utf8 s).toArray⟩ : ByteArray) = s.toByteArray := by simp [utf8]
  rw [text, h, String.fromUTF8?, dif_pos s.isValidUTF8]
  rfl

/-- A name in brackets is split off. -/
theorem splitZoneSuffix_named {zone : ZoneId} (h : 91 ∉ utf8 (db.name zone)) (front : Bytes) :
    LoraDateTime.splitZoneSuffix db (front ++ 91 :: (utf8 (db.name zone) ++ [93])) =
      .ok (front, some zone) := by
  have hname : ∀ b ∈ (utf8 (db.name zone)).reverse, (b != 91) = true := fun b hb =>
    bne_iff_ne.mpr fun heq => h (heq ▸ List.mem_reverse.mp hb)
  have hbody : (front ++ 91 :: (utf8 (db.name zone) ++ [93])).dropLast =
      front ++ 91 :: utf8 (db.name zone) := by
    rw [← cons_append, ← append_assoc, dropLast_concat]
  have hreverse : (front ++ 91 :: utf8 (db.name zone)).reverse =
      (utf8 (db.name zone)).reverse ++ 91 :: front.reverse := by simp
  have hlast : (front ++ 91 :: (utf8 (db.name zone) ++ [93])).getLast? = some 93 := by
    rw [← cons_append, ← append_assoc, getLast?_concat]
  rw [LoraDateTime.splitZoneSuffix, if_pos hlast]
  simp only [hbody, hreverse]
  rw [takeWhile_append_of_pos hname, dropWhile_append_of_pos hname]
  have hdrop : (91 :: front.reverse).dropWhile (· != 91) = 91 :: front.reverse := rfl
  have htake : (91 :: front.reverse).takeWhile (· != 91) = [] := rfl
  simp only [hdrop, htake, append_nil, reverse_reverse, text_utf8, db.lookup_name]

/-- A clock with its offset printed is not read without one. -/
theorem display_offset {read : Option Int32}
    (h : parseTimeString (utf8 (clockDisplay hour minute second nanosecond) ++
      utf8 (formatOffset offset)) = .ok (hour', minute', second', nanosecond', read)) :
    ∃ n, read = some n ∧ WholeMinutes n.toInt := by
  cases read with
  | some n => exact ⟨n, rfl, (parseTimeString_gives h).2 n rfl⟩
  | none =>
    obtain ⟨clock, zone, htext, hclock, hzone⟩ := parseTimeString_iff.mp h
    cases hzone
    obtain ⟨b, hb, hmark⟩ := @formatOffset_marked offset
    rw [append_nil] at htext
    have hbyte := hclock.bytes b (htext ▸ mem_append_right _ hb)
    rcases hmark with rfl | rfl | rfl <;> exact absurd hbyte (by decide)

theorem LoraDateTime.display_split (hnames : ∀ zone, 91 ∉ utf8 (db.name zone)) (v : LoraDateTime) :
    splitZoneSuffix db (utf8 (v.display db)) = .ok (utf8 (dateDisplay v.year v.month v.day) ++
      84 :: (utf8 (clockDisplay v.hour v.minute v.second v.nanosecond) ++
        utf8 (formatOffset v.offsetSeconds)), v.zone) := by
  have hopen : utf8 "[" = [91] := by rw [utf8]; decide
  have hclose : utf8 "]" = [93] := by rw [utf8]; decide
  have htext : ∀ suffix : String, utf8 (dateDisplay v.year v.month v.day ++ "T" ++
      clockDisplay v.hour v.minute v.second v.nanosecond ++ formatOffset v.offsetSeconds ++
        suffix) = (utf8 (dateDisplay v.year v.month v.day) ++
          84 :: (utf8 (clockDisplay v.hour v.minute v.second v.nanosecond) ++
            utf8 (formatOffset v.offsetSeconds))) ++ utf8 suffix := by
    intro suffix
    simp only [utf8_append, utf8_T, append_assoc, cons_append, nil_append]
  rw [display, htext]
  cases v.zone with
  | none =>
    rw [Option.elim_none, utf8_empty, append_nil]
    refine splitZoneSuffix_plain fun hmem => ?_
    rcases List.mem_append.mp hmem with hmem | hmem
    · rcases dateDisplay_bytes 93 hmem with h | h <;> cases h
    · rcases List.mem_cons.mp hmem with h | hmem
      · cases h
      · rcases List.mem_append.mp hmem with hmem | hmem
        · exact (clockDisplay_bytes _ hmem).ne.2.1 rfl
        · exact (formatOffset_bytes _ hmem).ne.2.1 rfl
  | some zone =>
    have hsuffix : utf8 ("[" ++ db.name zone ++ "]") = 91 :: (utf8 (db.name zone) ++ [93]) := by
      simp only [utf8_append, hopen, hclose, cons_append, nil_append]
    rw [Option.elim_some, hsuffix]
    exact splitZoneSuffix_named (hnames zone) _

/-- A date-time whose text has an offset is that of its date, clock and offset, in its zone. -/
theorem LoraDateTime.parse_iff {date rest : Bytes}
    {zone : Option ZoneId} {v : LoraDateTime} (h : 84 ∉ date)
    (hsplit : splitZoneSuffix db s = .ok (date ++ 84 :: rest, zone))
    (hoffset : ∀ hour minute second nanosecond,
      parseTimeString rest ≠ .ok (hour, minute, second, nanosecond, none)) :
    parse tz db s = some (.ok v) ↔ ∃ d hour minute second nanosecond offset w,
      parseDate date = some (.ok d) ∧
      parseTimeString rest = .ok (hour, minute, second, nanosecond, some offset) ∧
      new d.year d.month d.day hour minute second nanosecond offset = .ok w ∧
      (∀ named, zone = some named → (tz named).offsetAt w.epochSeconds = offset) ∧
      v = { w with zone := zone } := by
  rw [parse, hsplit]
  dsimp only
  rw [(span_T h).1, (span_T h).2]
  dsimp only
  constructor
  · intro hread
    obtain ⟨read, hdate, hrest⟩ := Option.bind_eq_some_iff.mp hread
    obtain ⟨d, rfl, hclock⟩ := bind_eq_ok.mp (Option.some.inj hrest)
    obtain ⟨⟨hour, minute, second, nanosecond, offset⟩, htime, hends⟩ := bind_eq_ok.mp hclock
    cases offset with
    | none => exact absurd htime (hoffset _ _ _ _)
    | some offset =>
      cases zone with
      | none =>
        have hfields := (new_eq hends).1
        exact ⟨d, _, _, _, _, _, v, hdate, htime, hends, nofun, by rw [hfields]⟩
      | some zone =>
        obtain ⟨w, hnew, hkeeps⟩ := bind_eq_ok.mp hends
        split_ifs at hkeeps with hwrong
        cases hkeeps
        refine ⟨d, _, _, _, _, _, w, hdate, htime, hnew, fun named hnamed => ?_, rfl⟩
        cases hnamed
        exact not_not.mp hwrong
  · rintro ⟨d, hour, minute, second, nanosecond, offset, w, hdate, htime, hnew, hkeeps, rfl⟩
    rw [hdate, htime]
    cases zone with
    | none =>
      obtain ⟨rfl, -⟩ := new_eq hnew
      exact congrArg some hnew
    | some zone =>
      change some (new _ _ _ _ _ _ _ _ >>= _) = _
      rw [hnew]
      exact congrArg some (if_neg (not_not.mpr (hkeeps zone rfl)))

/-- A printed date-time reads as itself if it is in range, its offset has whole minutes and is its
zone's then. -/
theorem LoraDateTime.display_read (hnames : ∀ zone, 91 ∉ utf8 (db.name zone)) (v : LoraDateTime) :
    parse tz db (utf8 (v.display db)) = some (.ok v) ↔
      v.InRange ∧ WholeMinutes v.offsetSeconds.toInt ∧ KeepsZone tz v := by
  rw [parse_iff dateDisplay_T (v.display_split hnames) fun _ _ _ _ hread => by
    obtain ⟨n, hnone, -⟩ := display_offset hread
    cases hnone]
  constructor
  · rintro ⟨d, hour, minute, second, nanosecond, offset, w, -, htime, hnew, hkeeps, heq⟩
    obtain ⟨rfl, hvalid, hclock⟩ := new_eq hnew
    obtain ⟨hnanosecond, hminutes⟩ := parseTimeString_gives htime
    have hzone : ∀ named, v.zone = some named → v.offsetSeconds =
        (tz named).offsetAt v.epochSeconds := fun named hnamed => by
      rw [heq]
      exact (hkeeps named hnamed).symm
    rw [heq] at hzone ⊢
    exact ⟨⟨hvalid, hclock, hnanosecond⟩, hminutes offset rfl, hzone⟩
  · rintro ⟨hrange, hminutes, hkeeps⟩
    have hdate := display_parseDate hrange.1
    have htime := display_parseClock hrange.2 (some v.offsetSeconds) (formatOffset_text hminutes)
    have hnew := new_of_inRange hrange v.offsetSeconds
    exact ⟨_, _, _, _, _, _, _, hdate, htime, hnew,
      fun named hnamed => (hkeeps named hnamed).symm, rfl⟩

/-- **Printed dates and times read as themselves**, each exactly if its fields are in range, and
its offset is one of whole minutes and, in a zone, the zone's then. -/
theorem printed_read {tz : ZoneId → TimeZone} {db : ZoneDb}
    (hnames : ∀ zone, 91 ∉ utf8 (db.name zone)) (t : Now) :
    (∀ v : LoraDate, parseDate (utf8 v.display) = some (.ok v) ↔ v.valid = true) ∧
    (∀ v : LoraLocalTime, LoraLocalTime.parse (utf8 v.display) = .ok v ↔
      InClock v.hour v.minute v.second v.nanosecond) ∧
    (∀ v : LoraTime, LoraTime.parse tz db t (utf8 v.display) = .ok v ↔
      InClock v.hour v.minute v.second v.nanosecond ∧ WholeMinutes v.offsetSeconds.toInt) ∧
    (∀ v : LoraLocalDateTime, (LoraLocalDateTime.parse (utf8 v.display)).run = some (.ok v) ↔
      (⟨v.year, v.month, v.day⟩ : LoraDate).valid = true ∧
        InClock v.hour v.minute v.second v.nanosecond) ∧
    ∀ v : LoraDateTime, LoraDateTime.parse tz db (utf8 (v.display db)) = some (.ok v) ↔
      v.InRange ∧ WholeMinutes v.offsetSeconds.toInt ∧ v.KeepsZone tz :=
  ⟨LoraDate.display_read, LoraLocalTime.display_read, LoraTime.display_read tz db t,
    LoraLocalDateTime.display_read, LoraDateTime.display_read hnames⟩

/-- A date-time in a zone. -/
theorem printed_read_zoned : LoraDateTime.parse LoraDateTime.summerZones WalCodec.unaryZones
      (utf8 (LoraDateTime.beforeGap.display WalCodec.unaryZones)) =
        some (.ok LoraDateTime.beforeGap) := by
  have hnames : ∀ zone, 91 ∉ utf8 (WalCodec.unaryZones.name zone) := by
    intro zone hmem
    change 91 ∈ utf8 (String.ofList (replicate zone.index.toNat 'Z')) at hmem
    rw [utf8_ofList, mem_flatMap] at hmem
    obtain ⟨c, hc, hbyte⟩ := hmem
    rw [eq_of_mem_replicate hc] at hbyte
    exact absurd hbyte (by decide)
  refine ((printed_read hnames ⟨0, 0⟩).2.2.2.2 _).2
    ⟨⟨by decide, ⟨by decide, by decide, by decide⟩, by decide⟩, ⟨by decide, by decide⟩, ?_⟩
  intro zone hzone
  cases hzone
  decide

end LoraDb
