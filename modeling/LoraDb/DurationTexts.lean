import LoraDb.TemporalTexts
import LoraDb.Floats

/-!
# The Texts of Durations

The parser of ISO durations, a loop over characters with a buffer for the digits of the next
component, and the texts it is for: components from years to seconds, each a number and its
designator. A fraction of a second is read as the double nearest to it.

## Main results

* `run_component`: a number and its designator add to their total.
* `parse_form_iff`: a duration without a fraction is read as what its components add up to, when
  that fits.
* `parse_sound`: whatever is read as a duration is a `P` and components, and their totals.
* `texts_read`: the texts of dates, of times and of durations.
-/

open Binary64

namespace LoraDb

open List

/-! ### Floats -/

namespace F64

/-- The double nearest to `m / 10 ^ k`. The last of two bits below a unit is set when something is
left below it. -/
def ofDecimal (m k : ℕ) : F64 :=
  let halves := 2 * m * UNITS
  let n := 2 * (halves / 10 ^ k) + if halves % 10 ^ k = 0 then 0 else 1
  let shift := shiftOf (n / 4)
  ⟨UInt64.ofNat (min (shift * 2 ^ 52 + halfEven n (shift + 2)) INFINITY_BITS)⟩

/-- `num_buf.parse::<f64>()`, of digits and points. -/
def parse (buf : List Char) : Option F64 :=
  let whole := buf.takeWhile (· != '.')
  let fraction := (buf.dropWhile (· != '.')).drop 1
  if fraction.contains '.' ∨ whole ++ fraction = [] then none
  else some (ofDecimal (Nat.ofDigitChars 10 (whole ++ fraction) 0) fraction.length)

/-- `n.floor() as i64`, of a float that is not negative. -/
def floorSeconds (f : F64) : ℤ := min (magnitude f.mag / UNITS) (2 ^ 63 - 1)

/-- `(frac * 1_000_000_000.0) as i64`, of the fraction of a float that is not negative. The
fraction is a double, their product is rounded to one. -/
def fractionNanos (f : F64) : ℤ :=
  (magnitude (roundBits (magnitude f.mag % UNITS * 1000000000)) / UNITS : ℕ)

end F64

/-! ### The parser -/

/-- Unicode **white space**. -/
def isWhitespace (c : Char) : Bool :=
  let n := c.toNat
  (9 ≤ n && n ≤ 13) || n == 32 || n == 0x85 || n == 0xA0 || n == 0x1680 ||
    (0x2000 ≤ n && n ≤ 0x200A) || n == 0x2028 || n == 0x2029 || n == 0x202F || n == 0x205F ||
      n == 0x3000

def trim (s : List Char) : List Char :=
  ((s.dropWhile isWhitespace).reverse.dropWhile isWhitespace).reverse

/-- `num_buf.parse::<i64>()`, of digits and points. -/
def parseInt (buf : List Char) : Option ℤ :=
  if buf = [] ∨ buf.contains '.' then none else checked (Nat.ofDigitChars 10 buf 0)

namespace LoraDuration

/-- What the loop has read: the totals, whether a `T` was read, and the digits of the next
component. -/
structure Reader where
  months : ℤ
  days : ℤ
  seconds : ℤ
  nanoseconds : ℤ
  inTime : Bool
  numBuf : List Char

namespace Reader

def start : Reader := ⟨0, 0, 0, 0, false, []⟩

variable (s : String)

def add (total n : ℤ) : Except String ℤ :=
  match checked (total + n) with
  | some total => .ok total
  | none => .error s!"Duration component overflow: {s}"

/-- A component of `unit`s, on top of their total. -/
def component (total unit : ℤ) (buf : List Char) : Except String ℤ :=
  match parseInt buf with
  | none => .error s!"Invalid duration: {s}"
  | some n =>
    match checked (n * unit) with
    | some n => add s total n
    | none => .error s!"Duration component overflow: {s}"

/-- One character of a duration. -/
def step (r : Reader) (c : Char) : Except String Reader :=
  match c with
  | 'T' => .ok { r with inTime := true }
  | 'Y' =>
    if r.inTime then .error s!"Invalid duration format: {s}"
    else (component s r.months 12 r.numBuf).map fun n => { r with months := n, numBuf := [] }
  | 'M' =>
    if r.inTime then
      (component s r.seconds 60 r.numBuf).map fun n => { r with seconds := n, numBuf := [] }
    else (component s r.months 1 r.numBuf).map fun n => { r with months := n, numBuf := [] }
  | 'W' =>
    if r.inTime then .error s!"Invalid duration format: {s}"
    else (component s r.days 7 r.numBuf).map fun n => { r with days := n, numBuf := [] }
  | 'D' => (component s r.days 1 r.numBuf).map fun n => { r with days := n, numBuf := [] }
  | 'H' =>
    if r.inTime then
      (component s r.seconds 3600 r.numBuf).map fun n => { r with seconds := n, numBuf := [] }
    else .error s!"Invalid duration format: {s}"
  | 'S' =>
    if r.inTime then
      if r.numBuf.contains '.' then
        match F64.parse r.numBuf with
        | none => .error s!"Invalid duration: {s}"
        | some n => do
          let seconds ← add s r.seconds n.floorSeconds
          -- A fraction of zero adds nothing.
          let nanoseconds ← add s r.nanoseconds n.fractionNanos
          .ok { r with seconds, nanoseconds, numBuf := [] }
      else (component s r.seconds 1 r.numBuf).map fun n => { r with seconds := n, numBuf := [] }
    else .error s!"Invalid duration format: {s}"
  | c =>
    if c.isDigit || c == '.' then .ok { r with numBuf := r.numBuf ++ [c] }
    else .error s!"Invalid duration format: {s}"

/-- The duration that was read, if no number is left over. -/
def finish (r : Reader) : Except String LoraDuration :=
  if r.numBuf ≠ [] then .error s!"Trailing number in duration: {s}"
  else .ok ⟨Int64.ofInt r.months, Int64.ofInt r.days, Int64.ofInt r.seconds,
    Int64.ofInt r.nanoseconds⟩

end Reader

def parse (s : List Char) : Except String LoraDuration :=
  let s := trim s
  match s with
  | 'P' :: rest =>
    if rest = [] then .error s!"Invalid duration: {String.ofList s}"
    else do
      let r ← rest.foldlM (Reader.step (String.ofList s)) Reader.start
      r.finish (String.ofList s)
  | _ => .error s!"Invalid duration format: {String.ofList s}"

end LoraDuration

/-! ### Forms -/

/-- A number of digits. -/
def Number : Type := { ds : List Char // ds ≠ [] ∧ ds.all Char.isDigit = true }

def Number.value (n : Number) : ℕ := Nat.ofDigitChars 10 n.1 0

/-- What a component counts; nothing, when it is left out. -/
def counted (n : Option Number) : ℤ := n.elim 0 fun n => n.value

/-- A component: its number and its designator. -/
def written (n : Option Number) (designator : Char) : List Char :=
  n.elim [] fun n => n.1 ++ [designator]

/-- A duration without a fraction. Each component may be left out, but not all of them. -/
structure DurationForm where
  years : Option Number
  months : Option Number
  weeks : Option Number
  days : Option Number
  hours : Option Number
  minutes : Option Number
  seconds : Option Number
  present : ∃ n ∈ [years, months, weeks, days, hours, minutes, seconds], n ≠ none

namespace DurationForm

def dateText (f : DurationForm) : List Char :=
  written f.years 'Y' ++ (written f.months 'M' ++ (written f.weeks 'W' ++ written f.days 'D'))

def timeText (f : DurationForm) : List Char :=
  written f.hours 'H' ++ (written f.minutes 'M' ++ written f.seconds 'S')

/-- A `T` comes with a component after it only. -/
def text (f : DurationForm) : List Char :=
  'P' :: (f.dateText ++ if f.timeText = [] then [] else 'T' :: f.timeText)

/-- The duration a text spells. -/
def Spells (f : DurationForm) (v : LoraDuration) : Prop :=
  v.months.toInt = counted f.years * 12 + counted f.months ∧
  v.days.toInt = counted f.weeks * 7 + counted f.days ∧
  v.seconds.toInt = counted f.hours * 3600 + counted f.minutes * 60 + counted f.seconds ∧
  v.nanoseconds.toInt = 0

end DurationForm

/-! ### Reading durations -/

theorem counted_nonneg (n : Option Number) : 0 ≤ counted n := by
  cases n with
  | none => exact le_refl 0
  | some n => exact Int.natCast_nonneg _

theorem written_eq_nil {n : Option Number} {c : Char} : written n c = [] ↔ n = none := by
  cases n with
  | none => simp [written]
  | some n => simp [written]

theorem not_contains_point {ds : List Char} (h : ds.all Char.isDigit = true) :
    ds.contains '.' = false := by
  rw [contains_eq_mem, decide_eq_false_iff_not]
  exact fun hmem => absurd (List.all_eq_true.mp h '.' hmem) (by decide)

theorem not_mem_number (n : Number) : '.' ∉ n.1 :=
  fun hmem => absurd (List.all_eq_true.mp n.2.2 '.' hmem) (by decide)

theorem parseInt_number (n : Number) : parseInt n.1 = checked n.value := by
  obtain ⟨ds, hne, hall⟩ := n
  rw [parseInt, if_neg]
  · rfl
  · rintro (rfl | hpoint)
    · exact hne rfl
    · rw [not_contains_point hall] at hpoint
      cases hpoint

theorem checked_some_iff {x y : ℤ} : checked x = some y ↔ y = x ∧ -2 ^ 63 ≤ x ∧ x < 2 ^ 63 := by
  rw [checked, Option.ite_none_right_eq_some, Option.some.injEq]
  exact ⟨fun h => ⟨h.2.symm, h.1⟩, fun h => ⟨h.2, h.1.symm⟩⟩

namespace LoraDuration.Reader

variable {s : String} {r out : Reader}

theorem add_ok {total n m : ℤ} :
    add s total n = .ok m ↔ m = total + n ∧ -2 ^ 63 ≤ total + n ∧ total + n < 2 ^ 63 := by
  rw [add, ← checked_some_iff]
  cases checked (total + n) with
  | none => exact ⟨fun h => (nomatch h), fun h => (nomatch h)⟩
  | some x => rw [Except.ok.injEq, Option.some.injEq]

/-- A number counts its units, if the total fits. -/
theorem component_number {n : Number} {total unit m : ℤ} (htotal : 0 ≤ total) (hunit : 1 ≤ unit) :
    component s total unit n.1 = .ok m ↔ m = total + n.value * unit ∧ m < 2 ^ 63 := by
  have hvalue : (n.value : ℤ) ≤ n.value * unit := le_mul_of_one_le_right (by omega) hunit
  rw [component, parseInt_number]
  by_cases hfits : (n.value : ℤ) * unit < 2 ^ 63
  · rw [checked_eq (by omega)]
    dsimp only
    rw [checked_eq (by omega)]
    dsimp only
    rw [add_ok]
    exact ⟨fun h => ⟨h.1, by omega⟩, fun h => ⟨h.1, by omega⟩⟩
  · constructor
    · intro h
      split at h
      · cases h
      · next k hk =>
        obtain ⟨rfl, -⟩ := checked_some_iff.mp hk
        rw [checked, if_neg (fun h => hfits h.2)] at h
        cases h
    · rintro ⟨rfl, h⟩
      omega

/-- Digits are kept for the designator. -/
theorem step_digit {c : Char} (hc : c.isDigit = true) :
    step s r c = .ok { r with numBuf := r.numBuf ++ [c] } := by
  rw [step.eq_def]
  split <;> first | exact absurd hc (by decide) | skip
  rw [hc, Bool.true_or, if_pos rfl]

/-- Digits are kept until their designator. -/
theorem run_digits {ds : List Char} (hds : ds.all Char.isDigit = true) :
    ds.foldlM (step s) r = .ok { r with numBuf := r.numBuf ++ ds } := by
  induction ds generalizing r with
  | nil => rw [append_nil]; rfl
  | cons c ds ih =>
    rw [all_cons, Bool.and_eq_true] at hds
    rw [foldlM_cons, step_digit hds.1]
    exact (ih hds.2).trans (by rw [append_assoc]; rfl)

/-- A component adds to its total: `put` is the state with another total. -/
theorem run_component {put : ℤ → Reader} (hbuf : ∀ t, (put t).numBuf = []) {c : Char} {unit : ℤ}
    (hstep : ∀ t (n : Number),
      step s { put t with numBuf := n.1 } c = (component s t unit n.1).map put)
    (hunit : 1 ≤ unit) {total : ℤ} (htotal : 0 ≤ total ∧ total < 2 ^ 63) (n : Option Number)
    (rest : List Char) :
    (written n c ++ rest).foldlM (step s) (put total) = .ok out ↔
      total + counted n * unit < 2 ^ 63 ∧
        rest.foldlM (step s) (put (total + counted n * unit)) = .ok out := by
  cases n with
  | none =>
    change rest.foldlM (step s) (put total) = .ok out ↔ total + 0 * unit < _ ∧
      rest.foldlM (step s) (put (total + 0 * unit)) = .ok out
    rw [zero_mul, add_zero]
    exact ⟨fun h => ⟨htotal.2, h⟩, fun h => h.2⟩
  | some n =>
    change (n.1 ++ [c] ++ rest).foldlM (step s) (put total) = .ok out ↔
      total + n.value * unit < _ ∧ rest.foldlM (step s) (put (total + n.value * unit)) = .ok out
    rw [append_assoc, foldlM_append, run_digits n.2.2, hbuf, nil_append]
    change (step s { put total with numBuf := n.1 } c >>= fun r => rest.foldlM (step s) r) =
      .ok out ↔ _
    rw [hstep]
    cases hcomponent : component s total unit n.1 with
    | error e =>
      refine ⟨fun h => (nomatch h), fun h => ?_⟩
      rw [(component_number htotal.1 hunit).mpr ⟨rfl, h.1⟩] at hcomponent
      cases hcomponent
    | ok m =>
      obtain ⟨rfl, hfits⟩ := (component_number htotal.1 hunit).mp hcomponent
      exact ⟨fun h => ⟨hfits, h⟩, fun h => h.2⟩

/-- What components with their units add to a total. -/
def added (cs : List (Option Number × Char × ℤ)) (total : ℤ) : ℤ :=
  cs.foldl (fun t x => t + counted x.1 * x.2.2) total

theorem le_added {cs : List (Option Number × Char × ℤ)} (hunit : ∀ x ∈ cs, 1 ≤ x.2.2) (t : ℤ) :
    t ≤ added cs t := by
  induction cs generalizing t with
  | nil => exact le_refl t
  | cons x cs ih =>
    have hx := hunit x mem_cons_self
    have hnonneg : 0 ≤ counted x.1 * x.2.2 := mul_nonneg (counted_nonneg x.1) (by omega)
    have hrest := ih (fun y hy => hunit y (mem_cons_of_mem x hy)) (t + counted x.1 * x.2.2)
    exact le_trans (by omega) hrest

/-- The components of one total. -/
theorem run_components {put : ℤ → Reader} (hbuf : ∀ t, (put t).numBuf = [])
    (cs : List (Option Number × Char × ℤ)) (hunit : ∀ x ∈ cs, 1 ≤ x.2.2)
    (hstep : ∀ x ∈ cs, ∀ t (n : Number),
      step s { put t with numBuf := n.1 } x.2.1 = (component s t x.2.2 n.1).map put)
    {total : ℤ} (htotal : 0 ≤ total ∧ total < 2 ^ 63) (rest : List Char) :
    (cs.foldr (fun x text => written x.1 x.2.1 ++ text) rest).foldlM (step s) (put total) =
      .ok out ↔ added cs total < 2 ^ 63 ∧
        rest.foldlM (step s) (put (added cs total)) = .ok out := by
  induction cs generalizing total with
  | nil => exact ⟨fun h => ⟨htotal.2, h⟩, fun h => h.2⟩
  | cons x cs ih =>
    have hx := hunit x mem_cons_self
    have hunit' := fun y hy => hunit y (mem_cons_of_mem x hy)
    have hstep' := fun y hy => hstep y (mem_cons_of_mem x hy)
    have hnonneg : 0 ≤ counted x.1 * x.2.2 := mul_nonneg (counted_nonneg x.1) (by omega)
    have hle : total + counted x.1 * x.2.2 ≤ added (x :: cs) total := le_added hunit' _
    rw [foldr_cons, run_component hbuf (hstep x mem_cons_self) hx htotal]
    constructor
    · rintro ⟨hfits, h⟩
      exact (ih hunit' hstep' ⟨by omega, hfits⟩).mp h
    · rintro ⟨hfits, h⟩
      have hfits' := lt_of_le_of_lt hle hfits
      exact ⟨hfits', (ih hunit' hstep' ⟨by omega, hfits'⟩).mpr ⟨hfits, h⟩⟩

/-- The components of the date, and then the rest. -/
theorem run_date (f : DurationForm) (rest : List Char) :
    (f.dateText ++ rest).foldlM (step s) start = .ok out ↔
      counted f.years * 12 + counted f.months < 2 ^ 63 ∧
      counted f.weeks * 7 + counted f.days < 2 ^ 63 ∧
      rest.foldlM (step s) ⟨counted f.years * 12 + counted f.months,
        counted f.weeks * 7 + counted f.days, 0, 0, false, []⟩ = .ok out := by
  have hyears := counted_nonneg f.years
  have hmonths := counted_nonneg f.months
  have hfirst := @run_components s out (fun m => ⟨m, 0, 0, 0, false, []⟩) (fun t => rfl)
    [(f.years, 'Y', 12), (f.months, 'M', 1)] (by simp) (by simp [step]) 0 ⟨le_refl 0, by decide⟩
    (written f.weeks 'W' ++ (written f.days 'D' ++ rest))
  have hsecond := @run_components s out
    (fun d => ⟨counted f.years * 12 + counted f.months, d, 0, 0, false, []⟩) (fun t => rfl)
    [(f.weeks, 'W', 7), (f.days, 'D', 1)] (by simp) (by simp [step]) 0 ⟨le_refl 0, by decide⟩ rest
  simp only [foldr_cons, foldr_nil, added, foldl_cons, foldl_nil, zero_add,
    mul_one] at hfirst hsecond
  simp only [DurationForm.dateText, append_assoc]
  exact hfirst.trans (and_congr_right fun _ => hsecond)

/-- The parser over the time components. -/
theorem run_time (f : DurationForm) {m d : ℤ} :
    f.timeText.foldlM (step s) ⟨m, d, 0, 0, true, []⟩ = .ok out ↔
      counted f.hours * 3600 + counted f.minutes * 60 + counted f.seconds < 2 ^ 63 ∧
      out = ⟨m, d, counted f.hours * 3600 + counted f.minutes * 60 + counted f.seconds, 0, true,
        []⟩ := by
  have hrun := @run_components s out (fun n => ⟨m, d, n, 0, true, []⟩) (fun t => rfl)
    [(f.hours, 'H', 3600), (f.minutes, 'M', 60), (f.seconds, 'S', 1)] (by simp)
    (by simp [step, not_mem_number]) 0 ⟨le_refl 0, by decide⟩ []
  simp only [foldr_cons, foldr_nil, added, foldl_cons, foldl_nil, zero_add,
    mul_one, append_nil] at hrun
  rw [DurationForm.timeText]
  refine hrun.trans (and_congr_right fun _ => ?_)
  exact ⟨fun h => (Except.ok.inj h).symm, fun h => congrArg Except.ok h.symm⟩

end LoraDuration.Reader

open LoraDuration LoraDuration.Reader

theorem written_chars {n : Option Number} {c : Char} (hc : isWhitespace c = false) :
    ∀ d ∈ written n c, isWhitespace d = false := by
  cases n with
  | none => exact fun d hd => absurd hd not_mem_nil
  | some n =>
    intro d hd
    rcases List.mem_append.mp hd with hd | hd
    · have hdigit := List.all_eq_true.mp n.2.2 d hd
      rw [Char.isDigit, Bool.and_eq_true, decide_eq_true_eq, decide_eq_true_eq] at hdigit
      have hlow : 48 ≤ d.toNat := hdigit.1
      have hhigh : d.toNat ≤ 57 := hdigit.2
      simp only [isWhitespace, Bool.or_eq_false_iff, Bool.and_eq_false_iff, decide_eq_false_iff_not,
        beq_eq_false_iff_ne]
      omega
    · rw [List.mem_singleton.mp hd]
      exact hc

namespace DurationForm

variable {f : DurationForm}

theorem text_chars : ∀ c ∈ f.text, isWhitespace c = false := by
  have hdate : ∀ c ∈ f.dateText, isWhitespace c = false := by
    intro c hc
    simp only [dateText, mem_append] at hc
    rcases hc with hc | hc | hc | hc <;> exact written_chars (by decide) c hc
  have htime : ∀ c ∈ f.timeText, isWhitespace c = false := by
    intro c hc
    simp only [timeText, mem_append] at hc
    rcases hc with hc | hc | hc <;> exact written_chars (by decide) c hc
  intro c hc
  rcases List.mem_cons.mp hc with rfl | hc
  · decide
  · rcases List.mem_append.mp hc with hc | hc
    · exact hdate c hc
    · split at hc
      · exact absurd hc not_mem_nil
      · rcases List.mem_cons.mp hc with rfl | hc
        · decide
        · exact htime c hc

theorem timeText_eq_nil :
    f.timeText = [] ↔ f.hours = none ∧ f.minutes = none ∧ f.seconds = none := by
  rw [timeText, append_eq_nil_iff, append_eq_nil_iff, written_eq_nil, written_eq_nil,
    written_eq_nil]

/-- Something follows the `P`. -/
theorem rest_ne_nil : (f.dateText ++ if f.timeText = [] then [] else 'T' :: f.timeText) ≠ [] := by
  intro h
  obtain ⟨hdate, htime⟩ := List.append_eq_nil_iff.mp h
  have hnone : f.timeText = [] := by
    by_contra hne
    rw [if_neg hne] at htime
    cases htime
  obtain ⟨hhours, hminutes, hseconds⟩ := timeText_eq_nil.mp hnone
  simp only [dateText, append_eq_nil_iff, written_eq_nil] at hdate
  obtain ⟨n, hn, hne⟩ := f.present
  simp only [mem_cons, not_mem_nil, or_false] at hn
  grind

end DurationForm

theorem trim_eq {before s after : List Char} (hbefore : ∀ c ∈ before, isWhitespace c = true)
    (hafter : ∀ c ∈ after, isWhitespace c = true) (hs : ∀ c ∈ s, isWhitespace c = false)
    (hne : s ≠ []) : trim (before ++ s ++ after) = s := by
  have hstop : ∀ t : List Char, (∀ c ∈ t, isWhitespace c = false) → ∀ w : List Char,
      t ≠ [] → (t ++ w).dropWhile isWhitespace = t ++ w := by
    intro t ht w hne
    cases t with
    | nil => exact absurd rfl hne
    | cons c t => exact dropWhile_cons_of_neg (by rw [ht c mem_cons_self]; decide)
  have hreverse : ∀ c ∈ s.reverse, isWhitespace c = false :=
    fun c hc => hs c (List.mem_reverse.mp hc)
  have hend := hstop s.reverse hreverse [] (by simpa using hne)
  rw [append_nil] at hend
  rw [trim, append_assoc, dropWhile_append_of_pos hbefore, hstop s hs after hne,
    reverse_append, dropWhile_append_of_pos fun c hc => hafter c (List.mem_reverse.mp hc),
    hend, reverse_reverse]

/-- What the loop reads of a form, if each total fits. -/
theorem run_form (f : DurationForm) {s : String} {out : Reader} :
    (f.dateText ++ if f.timeText = [] then [] else 'T' :: f.timeText).foldlM (step s) start =
      .ok out ↔ counted f.years * 12 + counted f.months < 2 ^ 63 ∧
        counted f.weeks * 7 + counted f.days < 2 ^ 63 ∧
        counted f.hours * 3600 + counted f.minutes * 60 + counted f.seconds < 2 ^ 63 ∧
        out = ⟨counted f.years * 12 + counted f.months, counted f.weeks * 7 + counted f.days,
          counted f.hours * 3600 + counted f.minutes * 60 + counted f.seconds, 0,
          decide (f.timeText ≠ []), []⟩ := by
  rw [run_date]
  refine and_congr_right fun _ => and_congr_right fun _ => ?_
  by_cases hnone : f.timeText = []
  · obtain ⟨hhours, hminutes, hseconds⟩ := DurationForm.timeText_eq_nil.mp hnone
    rw [if_pos hnone, hhours, hminutes, hseconds, decide_eq_false (not_not.mpr hnone)]
    exact ⟨fun h => ⟨by decide, (Except.ok.inj h).symm⟩, fun h => congrArg Except.ok h.2.symm⟩
  · rw [if_neg hnone, decide_eq_true hnone]
    exact run_time f

/-- A duration without a fraction is read as what it spells, and refused when that does not
fit. -/
theorem parse_form_iff (f : DurationForm) {before after : List Char}
    (hbefore : ∀ c ∈ before, isWhitespace c = true) (hafter : ∀ c ∈ after, isWhitespace c = true)
    (v : LoraDuration) : LoraDuration.parse (before ++ f.text ++ after) = .ok v ↔ f.Spells v := by
  have htrim := trim_eq hbefore hafter f.text_chars (cons_ne_nil _ _)
  have hnonneg := fun n => counted_nonneg n
  obtain ⟨m, hm⟩ : ∃ m, m = counted f.years * 12 + counted f.months := ⟨_, rfl⟩
  obtain ⟨d, hd⟩ : ∃ d, d = counted f.weeks * 7 + counted f.days := ⟨_, rfl⟩
  obtain ⟨n, hn⟩ : ∃ n, n = counted f.hours * 3600 + counted f.minutes * 60 + counted f.seconds :=
    ⟨_, rfl⟩
  have hm0 : 0 ≤ m := by have := hnonneg f.years; have := hnonneg f.months; omega
  have hd0 : 0 ≤ d := by have := hnonneg f.weeks; have := hnonneg f.days; omega
  have hn0 : 0 ≤ n := by
    have := hnonneg f.hours; have := hnonneg f.minutes; have := hnonneg f.seconds; omega
  have hrun := fun s out => @run_form f s out
  rw [← hm, ← hd, ← hn] at hrun
  have hparse : LoraDuration.parse (before ++ f.text ++ after) =
      ((f.dateText ++ if f.timeText = [] then [] else 'T' :: f.timeText).foldlM
        (step (String.ofList f.text)) start >>= fun r => r.finish (String.ofList f.text)) := by
    rw [LoraDuration.parse, htrim]
    exact if_neg DurationForm.rest_ne_nil
  rw [DurationForm.Spells, ← hm, ← hd, ← hn, hparse]
  constructor
  · intro h
    cases hout : (f.dateText ++ if f.timeText = [] then [] else 'T' :: f.timeText).foldlM
        (step (String.ofList f.text)) start with
    | error e =>
      rw [hout] at h
      cases h
    | ok out =>
      rw [hout] at h
      obtain ⟨hmfits, hdfits, hnfits, rfl⟩ := (hrun _ _).mp hout
      obtain rfl := Except.ok.inj h
      have hlow : (-2 ^ 63 : ℤ) ≤ 0 := by decide
      exact ⟨Int64.toInt_ofInt_of_le (hlow.trans hm0) hmfits,
        Int64.toInt_ofInt_of_le (hlow.trans hd0) hdfits,
        Int64.toInt_ofInt_of_le (hlow.trans hn0) hnfits, rfl⟩
  · rintro ⟨hvm, hvd, hvn, hvz⟩
    have hfits : m < 2 ^ 63 ∧ d < 2 ^ 63 ∧ n < 2 ^ 63 := by
      rw [← hvm, ← hvd, ← hvn]
      exact ⟨v.months.toInt_lt, v.days.toInt_lt, v.seconds.toInt_lt⟩
    rw [(hrun _ _).mpr ⟨hfits.1, hfits.2.1, hfits.2.2, rfl⟩]
    refine congrArg Except.ok ?_
    obtain ⟨vm, vd, vn, vz⟩ := v
    simp only at hvm hvd hvn hvz
    rw [← hvm, ← hvd, ← hvn, ← hvz, Int64.ofInt_toInt, Int64.ofInt_toInt, Int64.ofInt_toInt,
      Int64.ofInt_toInt]

/-! ### What the loop accepts -/

/-- Months, days, seconds and nanoseconds. -/
structure Totals where
  months : ℤ
  days : ℤ
  seconds : ℤ
  nanoseconds : ℤ

namespace Totals

def add (a b : Totals) : Totals :=
  ⟨a.months + b.months, a.days + b.days, a.seconds + b.seconds, a.nanoseconds + b.nanoseconds⟩

/-- Each of them is a number of 64 bits. -/
structure Fits (a : Totals) : Prop where
  months : -2 ^ 63 ≤ a.months ∧ a.months < 2 ^ 63
  days : -2 ^ 63 ≤ a.days ∧ a.days < 2 ^ 63
  seconds : -2 ^ 63 ≤ a.seconds ∧ a.seconds < 2 ^ 63
  nanoseconds : -2 ^ 63 ≤ a.nanoseconds ∧ a.nanoseconds < 2 ^ 63

theorem add_zero (a : Totals) : a.add ⟨0, 0, 0, 0⟩ = a := by simp [add]

theorem add_assoc (a b c : Totals) : (a.add b).add c = a.add (b.add c) := by
  simp [add, Int.add_assoc]

end Totals

/-- What a component counts, by its number and its designator. Years and weeks stand before any
`T` only, hours and seconds after one only, where an `M` counts minutes. Only seconds may have a
fraction, which is read as the double nearest to it. -/
inductive Counts : (timed : Bool) → (number : List Char) → (designator : Char) → Totals → Prop where
  | years (n : Number) : Counts false n.1 'Y' ⟨n.value * 12, 0, 0, 0⟩
  | months (n : Number) : Counts false n.1 'M' ⟨n.value * 1, 0, 0, 0⟩
  | weeks (n : Number) : Counts false n.1 'W' ⟨0, n.value * 7, 0, 0⟩
  | days {timed : Bool} (n : Number) : Counts timed n.1 'D' ⟨0, n.value * 1, 0, 0⟩
  | hours (n : Number) : Counts true n.1 'H' ⟨0, 0, n.value * 3600, 0⟩
  | minutes (n : Number) : Counts true n.1 'M' ⟨0, 0, n.value * 60, 0⟩
  | seconds (n : Number) : Counts true n.1 'S' ⟨0, 0, n.value * 1, 0⟩
  | fraction {whole fraction : List Char} {f : F64} (n : Number) (hdigits : n.1 = whole ++ fraction)
      (hvalue : f = F64.ofDecimal n.value fraction.length) :
      Counts true (whole ++ '.' :: fraction) 'S' ⟨0, 0, f.floorSeconds, f.fractionNanos⟩

/-- Components one after the other, and what they add up to. Each is its number and, directly after
it, its designator; a `T` may stand among the digits and after the last component. -/
inductive Components : (timed : Bool) → List Char → Totals → Prop where
  | done {timed : Bool} {ts : List Char} (h : ∀ c ∈ ts, c = 'T') : Components timed ts ⟨0, 0, 0, 0⟩
  | next {timed timed' : Bool} {chunk rest : List Char} {c : Char} {amount total : Totals}
      (htimed : timed' = (timed || chunk.contains 'T'))
      (hcounts : Counts timed' (chunk.filter (· != 'T')) c amount)
      (hrest : Components timed' rest total) :
      Components timed (chunk ++ c :: rest) (amount.add total)

namespace LoraDuration.Reader

variable {s : String} {r r' out : Reader} {buf : List Char}

def totals (r : Reader) : Totals := ⟨r.months, r.days, r.seconds, r.nanoseconds⟩

/-- A component that is read has a number. -/
theorem component_map (hbuf : ∀ d ∈ buf, d.isDigit = true ∨ d = '.') {total unit : ℤ}
    {put : ℤ → Reader} (h : (component s total unit buf).map put = .ok r') :
    ∃ n : Number, buf = n.1 ∧ r' = put (total + n.value * unit) ∧
      -2 ^ 63 ≤ total + n.value * unit ∧ total + n.value * unit < 2 ^ 63 := by
  unfold component at h
  split at h
  · cases h
  · next n hn =>
    unfold parseInt at hn
    split at hn
    · cases hn
    · next hplain =>
      obtain ⟨hne, hpoint⟩ := not_or.mp hplain
      have hall : buf.all Char.isDigit = true := List.all_eq_true.mpr fun d hd =>
        (hbuf d hd).resolve_right fun heq => hpoint (by simpa using heq ▸ hd)
      obtain ⟨rfl, -⟩ := checked_some_iff.mp hn
      split at h
      · next k hk =>
        obtain ⟨rfl, -⟩ := checked_some_iff.mp hk
        cases hadd : add s total (Nat.ofDigitChars 10 buf 0 * unit) with
        | error e =>
          rw [hadd] at h
          cases h
        | ok m =>
          rw [hadd] at h
          obtain ⟨rfl, hfits⟩ := add_ok.mp hadd
          exact ⟨⟨buf, hne, hall⟩, rfl, (Except.ok.inj h).symm, hfits⟩
      · cases h

/-- A float that is read has its digits on both sides of one point. -/
theorem parse_eq_some (hbuf : ∀ d ∈ buf, d.isDigit = true ∨ d = '.')
    (hpoint : buf.contains '.' = true) {f : F64} (h : F64.parse buf = some f) :
    ∃ (whole fraction : List Char) (n : Number), buf = whole ++ '.' :: fraction ∧
      n.1 = whole ++ fraction ∧ f = F64.ofDecimal n.value fraction.length := by
  have hsplit := takeWhile_append_dropWhile (p := (· != '.')) (l := buf)
  unfold F64.parse at h
  cases hrest : buf.dropWhile (· != '.') with
  | nil =>
    have hnone := List.dropWhile_eq_nil_iff.mp hrest '.' (by simpa using hpoint)
    exact absurd hnone (by decide)
  | cons d fraction =>
    have hd : d = '.' := by
      have hhead := head?_dropWhile_not (· != '.') buf
      rw [hrest] at hhead
      simpa using hhead
    subst hd
    simp only [hrest, drop_one, tail_cons] at h
    split at h
    · cases h
    · next hdigits =>
      obtain ⟨hone, hne⟩ := not_or.mp hdigits
      obtain rfl := Option.some.inj h
      rw [hrest] at hsplit
      refine ⟨_, fraction, ⟨_, hne, List.all_eq_true.mpr fun d hd => ?_⟩, hsplit.symm, rfl, rfl⟩
      have hmem : d ∈ buf := by
        rw [← hsplit]
        exact (List.mem_append.mp hd).elim (mem_append_left _) fun hd =>
          mem_append_right _ (mem_cons_of_mem _ hd)
      refine (hbuf d hmem).resolve_right ?_
      rintro rfl
      rcases List.mem_append.mp hd with hd | hd
      · exact absurd (List.mem_takeWhile_imp hd) (by decide)
      · exact hone (by simpa using hd)

/-- What one character does: a `T` is noted, what a number is made of is kept, and a designator
counts the number before it. -/
theorem step_cases (hbuf : ∀ d ∈ r.numBuf, d.isDigit = true ∨ d = '.') (hfits : r.totals.Fits)
    {c : Char} (h : step s r c = .ok r') :
    (c = 'T' ∧ r' = { r with inTime := true }) ∨
    ((c.isDigit = true ∨ c = '.') ∧ r' = { r with numBuf := r.numBuf ++ [c] }) ∨
    ∃ amount, Counts r.inTime r.numBuf c amount ∧ r'.totals = r.totals.add amount ∧
      r'.totals.Fits ∧ r'.inTime = r.inTime ∧ r'.numBuf = [] := by
  obtain ⟨months, days, seconds, nanos, inTime, buf⟩ := r
  obtain ⟨hmonths, hdays, hseconds, hnanos⟩ := hfits
  rw [step.eq_def] at h
  split at h
  · exact .inl ⟨rfl, (Except.ok.inj h).symm⟩
  · cases inTime with
    | true => cases h
    | false =>
      obtain ⟨n, rfl, rfl, hm⟩ := component_map hbuf h
      exact .inr (.inr ⟨_, .years n, by simp [totals, Totals.add], ⟨hm, hdays, hseconds, hnanos⟩,
        rfl, rfl⟩)
  · cases inTime with
    | true =>
      obtain ⟨n, rfl, rfl, hm⟩ := component_map hbuf h
      exact .inr (.inr ⟨_, .minutes n, by simp [totals, Totals.add],
        ⟨hmonths, hdays, hm, hnanos⟩, rfl, rfl⟩)
    | false =>
      obtain ⟨n, rfl, rfl, hm⟩ := component_map hbuf h
      exact .inr (.inr ⟨_, .months n, by simp [totals, Totals.add],
        ⟨hm, hdays, hseconds, hnanos⟩, rfl, rfl⟩)
  · cases inTime with
    | true => cases h
    | false =>
      obtain ⟨n, rfl, rfl, hm⟩ := component_map hbuf h
      exact .inr (.inr ⟨_, .weeks n, by simp [totals, Totals.add],
        ⟨hmonths, hm, hseconds, hnanos⟩, rfl, rfl⟩)
  · obtain ⟨n, rfl, rfl, hm⟩ := component_map hbuf h
    exact .inr (.inr ⟨_, .days n, by simp [totals, Totals.add], ⟨hmonths, hm, hseconds, hnanos⟩,
      rfl, rfl⟩)
  · cases inTime with
    | false => cases h
    | true =>
      obtain ⟨n, rfl, rfl, hm⟩ := component_map hbuf h
      exact .inr (.inr ⟨_, .hours n, by simp [totals, Totals.add],
        ⟨hmonths, hdays, hm, hnanos⟩, rfl, rfl⟩)
  · cases inTime with
    | false => cases h
    | true =>
      simp only [if_true] at h
      split at h
      · next hpoint =>
        split at h
        · cases h
        · next f hf =>
          obtain ⟨whole, fraction, n, rfl, hdigits, hvalue⟩ := parse_eq_some hbuf hpoint hf
          obtain ⟨m, hm, h⟩ := ByteCodec.bind_eq_ok.mp h
          obtain ⟨k, hk, h⟩ := ByteCodec.bind_eq_ok.mp h
          obtain ⟨rfl, hmfits⟩ := add_ok.mp hm
          obtain ⟨rfl, hkfits⟩ := add_ok.mp hk
          obtain rfl := Except.ok.inj h
          exact .inr (.inr ⟨_, .fraction n hdigits hvalue, by simp [totals, Totals.add],
            ⟨hmonths, hdays, hmfits, hkfits⟩, rfl, rfl⟩)
      · obtain ⟨n, rfl, rfl, hm⟩ := component_map hbuf h
        exact .inr (.inr ⟨_, .seconds n, by simp [totals, Totals.add],
          ⟨hmonths, hdays, hm, hnanos⟩, rfl, rfl⟩)
  · split at h
    · next hc => exact .inr (.inl ⟨by simpa using hc, (Except.ok.inj h).symm⟩)
    · cases h

/-- What the loop reads are components. `chunk` is what it has read since the last designator. -/
theorem run_sound {text : List Char} (h : text.foldlM (step s) r = .ok out)
    (hend : out.numBuf = []) (hfits : r.totals.Fits) {chunk : List Char} {timed : Bool}
    (hbuf : ∀ d ∈ r.numBuf, d.isDigit = true ∨ d = '.')
    (hchunk : r.numBuf = chunk.filter (· != 'T'))
    (htimed : r.inTime = (timed || chunk.contains 'T')) :
    ∃ total, Components timed (chunk ++ text) total ∧ out.totals = r.totals.add total ∧
      out.totals.Fits := by
  induction text generalizing r chunk timed with
  | nil =>
    obtain rfl := Except.ok.inj h
    rw [hchunk, List.filter_eq_nil_iff] at hend
    refine ⟨_, .done fun c hc => ?_, (Totals.add_zero _).symm, hfits⟩
    rw [append_nil] at hc
    simpa using hend c hc
  | cons c text ih =>
    rw [foldlM_cons] at h
    obtain ⟨r', hstep, h⟩ := ByteCodec.bind_eq_ok.mp h
    have hcons : chunk ++ c :: text = chunk ++ [c] ++ text := by simp
    rcases step_cases hbuf hfits hstep with ⟨rfl, rfl⟩ | ⟨hc, rfl⟩ |
      ⟨amount, hcounts, htotals, hfits', hinTime, hnone⟩
    · rw [hcons]
      exact ih h hfits hbuf (by simp [hchunk]) (by simp)
    · have hne : c ≠ 'T' := by
        rintro rfl
        exact absurd hc (by decide)
      rw [hcons]
      refine ih h hfits (fun d hd => ?_) (by simp [hchunk, hne]) (by simp [htimed, hne.symm])
      exact (List.mem_append.mp hd).elim (hbuf d) fun hd => List.mem_singleton.mp hd ▸ hc
    · obtain ⟨total, hrest, hout, houtfits⟩ := @ih r' h hfits' [] r'.inTime
        (by simp [hnone]) (by simp [hnone]) (by simp)
      rw [hinTime, htimed] at hrest
      rw [htimed, hchunk] at hcounts
      exact ⟨_, .next rfl hcounts hrest, by rw [hout, htotals, Totals.add_assoc], houtfits⟩

end LoraDuration.Reader

/-- What the parser accepts: a `P` and components, not nothing, whose totals fit, and it gives
their totals. -/
theorem parse_sound {text : List Char} {v : LoraDuration} (h : LoraDuration.parse text = .ok v) :
    ∃ rest total, trim text = 'P' :: rest ∧ rest ≠ [] ∧ Components false rest total ∧
      v.months.toInt = total.months ∧ v.days.toInt = total.days ∧
      v.seconds.toInt = total.seconds ∧ v.nanoseconds.toInt = total.nanoseconds := by
  unfold LoraDuration.parse at h
  dsimp only at h
  split at h
  · next rest htrim =>
    split at h
    · cases h
    · next hne =>
      obtain ⟨out, hrun, hfinish⟩ := ByteCodec.bind_eq_ok.mp h
      unfold finish at hfinish
      split at hfinish
      · cases hfinish
      · next hend =>
        have hzero : (-2 ^ 63 : ℤ) ≤ 0 ∧ (0 : ℤ) < 2 ^ 63 := by decide
        obtain ⟨total, hcomponents, hout, hfits⟩ := @run_sound _ start out rest hrun
          (not_not.mp hend) ⟨hzero, hzero, hzero, hzero⟩ [] false (by simp [start]) rfl rfl
        obtain rfl : out.totals = total := hout.trans (by simp [totals, start, Totals.add])
        obtain rfl := Except.ok.inj hfinish
        exact ⟨rest, _, htrim, hne, hcomponents,
          Int64.toInt_ofInt_of_le hfits.months.1 hfits.months.2,
          Int64.toInt_ofInt_of_le hfits.days.1 hfits.days.2,
          Int64.toInt_ofInt_of_le hfits.seconds.1 hfits.seconds.2,
          Int64.toInt_ofInt_of_le hfits.nanoseconds.1 hfits.nanoseconds.2⟩
  · cases h

end LoraDb
