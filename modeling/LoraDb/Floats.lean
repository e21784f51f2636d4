import LoraDb.Value
import LoraDb.Comparing
import LoraDb.Doubles

/-!
# Numbers

How the store and the queries compare numbers. Floats compare by value, a NaN with nothing;
an integer compares with a float through the float nearest to it, or exactly.

A float's value is counted in units of `2 ^ -1074` (`F64.scaled`), which makes both comparisons
comparisons of integers. `trunc`, the subtraction of a float's whole part and the cast of that
part to an integer are exact for the floats `intFloatCmp` meets, and are computed as such.

## Main results

* `intFloatCmp_eq`: the exact comparison compares values.
* `scaled_ofInt_le`, `le_scaled_ofInt`, `ofInt_mono`: the cast crosses no float, and keeps the
  order.
-/

namespace LoraDb

open Binary64 Comparing

/-- The units of 1. -/
def UNITS : ℕ := 2 ^ 1074

def ONE : ℤ := UNITS

namespace F64

/-- The bits below the sign. -/
def mag (f : F64) : ℕ := f.bits.toNat % 2 ^ 63

def isNegative (f : F64) : Bool := decide (2 ^ 63 ≤ f.bits.toNat)

def isNaN (f : F64) : Bool := decide (INFINITY_BITS < f.mag)

/-- The value of a float, in units. -/
def scaled (f : F64) : ℤ :=
  if f.isNegative then -(magnitude f.mag : ℤ) else magnitude f.mag

/-- The order of two floats; `none` when one is a NaN. -/
def partialCmp (f g : F64) : Option Ordering :=
  if f.isNaN || g.isNaN then none else some (compare f.scaled g.scaled)

/-- `==` of floats: zeros are equal, a NaN is equal to nothing. -/
def eq (f g : F64) : Bool := f.partialCmp g == some .eq

/-- The position of a float in the order of all bit patterns. -/
def totalKey (f : F64) : ℤ := if f.isNegative then -1 - f.mag else f.mag

/-- `f64::total_cmp` -/
def totalCmp (f g : F64) : Ordering := compare f.totalKey g.totalKey

/-- `i as f64` -/
def ofInt (i : Int64) : F64 :=
  let bits := roundBits (i.toInt.natAbs * UNITS)
  ⟨UInt64.ofNat (if i.toInt < 0 then 2 ^ 63 + bits else bits)⟩

/-- The whole part of a float. -/
def trunc (f : F64) : ℤ := f.scaled.tdiv ONE

/-- An integer against a float that is no NaN, exactly. -/
def intFloatCmp (i : Int64) (f : F64) : Ordering :=
  if 2 ^ 63 * ONE ≤ f.scaled then .lt
  else if f.scaled < -(2 ^ 63) * ONE then .gt
  else (compare i.toInt f.trunc).then (compare 0 (f.scaled - f.trunc * ONE))

/-- As `intFloatCmp`; a NaN orders against nothing. -/
def intFloatPartialCmp (i : Int64) (f : F64) : Option Ordering :=
  if f.isNaN then none else some (intFloatCmp i f)

variable {f g : F64} {i j : Int64}

/-! ### Exact comparison -/

theorem ONE_pos : 0 < ONE := by decide +kernel

theorem compare_mul_ONE (x y : ℤ) : compare (x * ONE) (y * ONE) = compare x y :=
  have hone := ONE_pos
  compare_congr (fun h => Int.lt_of_mul_lt_mul_right h hone.le)
    (fun h => Int.eq_of_mul_eq_mul_right hone.ne' h)
    (fun h => Int.lt_of_mul_lt_mul_right h hone.le)

theorem int64_bounds (i : Int64) : -(2 ^ 63) ≤ i.toInt ∧ i.toInt < 2 ^ 63 :=
  ⟨i.le_toInt, i.toInt_lt⟩

/-- An integer compared with a float is compared by value. -/
theorem intFloatCmp_eq : intFloatCmp i f = compare (i.toInt * ONE) f.scaled := by
  have hone := ONE_pos
  obtain ⟨hlow, hhigh⟩ := int64_bounds i
  rw [intFloatCmp]
  split
  next hlarge =>
    refine (compare_lt_iff_lt.mpr (lt_of_lt_of_le ?_ hlarge)).symm
    exact Int.mul_lt_mul_of_pos_right hhigh hone
  next hnotLarge =>
    split
    next hsmall =>
      refine (compare_gt_iff_gt.mpr (lt_of_lt_of_le hsmall ?_)).symm
      exact Int.mul_le_mul_of_nonneg_right hlow hone.le
    next hnotSmall =>
      -- Truncation leaves less than one on either side.
      have hsplit : f.scaled.tdiv ONE * ONE + f.scaled.tmod ONE = f.scaled :=
        Int.tdiv_mul_add_tmod _ _
      have hrest : f.scaled - f.trunc * ONE = f.scaled.tmod ONE := by
        rw [trunc]
        omega
      have hlt : f.scaled.tmod ONE < ONE := Int.tmod_lt_of_pos _ hone
      have hgt : -ONE < f.scaled.tmod ONE := by
        have := Int.lt_tmod_of_pos f.scaled hone
        exact this
      rw [hrest]
      rcases lt_trichotomy i.toInt f.trunc with hcmp | hcmp | hcmp
      · rw [compare_lt_iff_lt.mpr hcmp]
        refine (compare_lt_iff_lt.mpr ?_).symm
        have hmul := Int.mul_le_mul_of_nonneg_right (Int.add_one_le_of_lt hcmp) hone.le
        rw [Int.add_mul, Int.one_mul, trunc] at hmul
        omega
      · rw [compare_eq_iff_eq.mpr hcmp, hcmp]
        change compare 0 (f.scaled.tmod ONE) = _
        have heq : f.trunc * ONE + f.scaled.tmod ONE = f.scaled := hsplit
        rcases lt_trichotomy 0 (f.scaled.tmod ONE) with hr | hr | hr
        · rw [compare_lt_iff_lt.mpr hr, compare_lt_iff_lt.mpr (by omega)]
        · rw [compare_eq_iff_eq.mpr hr, compare_eq_iff_eq.mpr (by omega)]
        · rw [compare_gt_iff_gt.mpr hr, compare_gt_iff_gt.mpr (by omega)]
      · rw [compare_gt_iff_gt.mpr hcmp]
        refine (compare_gt_iff_gt.mpr ?_).symm
        have hmul := Int.mul_le_mul_of_nonneg_right (Int.add_one_le_of_lt hcmp) hone.le
        rw [Int.add_mul, Int.one_mul, trunc] at hmul
        omega

/-! ### The cast -/

theorem natAbs_le (i : Int64) : i.toInt.natAbs ≤ 2 ^ 63 := by
  have := int64_bounds i
  omega

/-- An integer's bits stay below those of infinity. -/
theorem roundBits_int (i : Int64) : roundBits (i.toInt.natAbs * UNITS) < INFINITY_BITS := by
  have hmono := roundBits_mono (Nat.mul_le_mul_right UNITS (natAbs_le i))
  rw [magnitude_le_iff] at hmono
  refine lt_of_le_of_lt hmono ?_
  decide +kernel

theorem toNat_ofInt : (ofInt i).bits.toNat = (if i.toInt < 0 then
    2 ^ 63 + roundBits (i.toInt.natAbs * UNITS) else
    roundBits (i.toInt.natAbs * UNITS)) := by
  have hbits : roundBits (i.toInt.natAbs * UNITS) < 2 ^ 63 :=
    (roundBits_int i).trans (by decide)
  rw [ofInt, UInt64.toNat_ofNat', Nat.mod_eq_of_lt]
  split <;> omega

theorem mag_ofInt : (ofInt i).mag = roundBits (i.toInt.natAbs * UNITS) := by
  have hbits : roundBits (i.toInt.natAbs * UNITS) < 2 ^ 63 :=
    (roundBits_int i).trans (by decide)
  rw [mag, toNat_ofInt]
  split <;> omega

theorem isNegative_ofInt : (ofInt i).isNegative = decide (i.toInt < 0) := by
  have hbits : roundBits (i.toInt.natAbs * UNITS) < 2 ^ 63 :=
    (roundBits_int i).trans (by decide)
  rw [isNegative, toNat_ofInt]
  refine decide_eq_decide.mpr ?_
  split <;> omega

@[simp] theorem isNaN_ofInt : (ofInt i).isNaN = false := by
  rw [isNaN, mag_ofInt]
  exact decide_eq_false (Nat.not_lt.mpr (roundBits_int i).le)

theorem scaled_ofInt : (ofInt i).scaled = if i.toInt < 0 then
    -(magnitude (roundBits (i.toInt.natAbs * UNITS)) : ℤ) else
    magnitude (roundBits (i.toInt.natAbs * UNITS)) := by
  rw [scaled, isNegative_ofInt, mag_ofInt]
  by_cases h : i.toInt < 0 <;> simp [h]

theorem natAbs_mul_ONE (i : Int64) : ((i.toInt.natAbs * UNITS : ℕ) : ℤ) =
    if i.toInt < 0 then -(i.toInt * ONE) else i.toInt * ONE := by
  rw [Nat.cast_mul]
  change (i.toInt.natAbs : ℤ) * ONE = _
  split
  next h =>
    have habs : (i.toInt.natAbs : ℤ) = -i.toInt := by omega
    rw [habs, Int.neg_mul]
  next h =>
    have habs : (i.toInt.natAbs : ℤ) = i.toInt := by omega
    rw [habs]

theorem scaled_cases (f : F64) : (f.isNegative = true ∧ f.scaled = -(magnitude f.mag : ℤ)) ∨
    (f.isNegative = false ∧ f.scaled = magnitude f.mag) := by
  rw [scaled]
  cases f.isNegative <;> simp

/-- A float at least an integer is at least the integer's cast. -/
theorem scaled_ofInt_le (h : i.toInt * ONE ≤ f.scaled) : (ofInt i).scaled ≤ f.scaled := by
  have habs := natAbs_mul_ONE i
  have hone := ONE_pos
  rw [scaled_ofInt]
  split
  next hneg =>
    rw [if_pos hneg] at habs
    rcases scaled_cases f with ⟨-, hf⟩ | ⟨-, hf⟩
    · have hle := le_roundBits (b := f.mag) (n := i.toInt.natAbs * UNITS) (by omega)
      omega
    · omega
  next hpos =>
    rw [if_neg hpos] at habs
    rcases scaled_cases f with ⟨-, hf⟩ | ⟨-, hf⟩
    · have hle := roundBits_le (b := f.mag) (n := i.toInt.natAbs * UNITS) (by omega)
      omega
    · have hle := roundBits_le (b := f.mag) (n := i.toInt.natAbs * UNITS) (by omega)
      omega

/-- A float at most an integer is at most the integer's cast. -/
theorem le_scaled_ofInt (h : f.scaled ≤ i.toInt * ONE) : f.scaled ≤ (ofInt i).scaled := by
  have habs := natAbs_mul_ONE i
  have hone := ONE_pos
  rw [scaled_ofInt]
  split
  next hneg =>
    rw [if_pos hneg] at habs
    have hmul : i.toInt * ONE < 0 := Int.mul_neg_of_neg_of_pos hneg hone
    rcases scaled_cases f with ⟨-, hf⟩ | ⟨-, hf⟩
    · have hle := roundBits_le (b := f.mag) (n := i.toInt.natAbs * UNITS) (by omega)
      omega
    · omega
  next hpos =>
    rw [if_neg hpos] at habs
    rcases scaled_cases f with ⟨-, hf⟩ | ⟨-, hf⟩
    · omega
    · have hle := le_roundBits (b := f.mag) (n := i.toInt.natAbs * UNITS) (by omega)
      omega

/-- The cast keeps the order. -/
theorem ofInt_mono (h : i.toInt ≤ j.toInt) : (ofInt i).scaled ≤ (ofInt j).scaled := by
  rw [scaled_ofInt, scaled_ofInt]
  split
  next hi =>
    split
    next hj =>
      have hle := roundBits_mono (n := j.toInt.natAbs * UNITS) (m := i.toInt.natAbs * UNITS)
        (Nat.mul_le_mul_right _ (by omega))
      omega
    next hj => omega
  next hi =>
    rw [if_neg (by omega)]
    have hle := roundBits_mono (n := i.toInt.natAbs * UNITS) (m := j.toInt.natAbs * UNITS)
      (Nat.mul_le_mul_right _ (by omega))
    omega

/-- Floats that are less come earlier in the order of all bit patterns. -/
theorem totalCmp_lt (h : f.partialCmp g = some .lt) : f.totalCmp g = .lt := by
  have hlt : f.scaled < g.scaled := by
    rw [partialCmp] at h
    split at h
    · cases h
    · exact compare_lt_iff_lt.mp (Option.some_inj.mp h)
  refine compare_lt_iff_lt.mpr ?_
  have hmono : magnitude f.mag < magnitude g.mag ↔ f.mag < g.mag :=
    magnitude_strictMono.lt_iff_lt
  have hmono' : magnitude g.mag < magnitude f.mag ↔ g.mag < f.mag :=
    magnitude_strictMono.lt_iff_lt
  rw [scaled, scaled] at hlt
  rw [totalKey, totalKey]
  revert hlt
  cases f.isNegative <;> cases g.isNegative <;>
    simp only [if_true, if_false, Bool.false_eq_true] <;> omega

end F64

end LoraDb
