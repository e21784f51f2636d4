import LoraDb.ValueCompare

/-!
# Float Arithmetic

Sums, products and quotients of floats, computed exactly and rounded to the nearest float, ties to
even. A float's value is counted in units of `2 ^ -1074`, as elsewhere; a quotient that is no whole
number of units keeps, below its units, the first bit and whether any other is set.

## Main results

* `magnitude_roundBits_units`: a whole number rounds to the whole number `nearest` to it.
* `nearest_eq_iff`: which whole numbers are floats.
* `half_up`: a half on top of a float that is a whole number is rounded off, except where floats
  are one apart.
-/

namespace LoraDb

open Binary64

/-! ### Whole numbers -/

/-- The whole number of 53 bits, shifted, nearest to a number. -/
def nearest (n : ℕ) : ℕ := halfEven n (shiftOf n) * 2 ^ shiftOf n

theorem halfEven_mul_pow (n a shift : ℕ) : halfEven (n * 2 ^ a) (shift + a) = halfEven n shift := by
  have hpos : 0 < 2 ^ a := Nat.two_pow_pos a
  have hdiv : n * 2 ^ a / 2 ^ (shift + a) = n / 2 ^ shift := by
    rw [Nat.pow_add, Nat.mul_div_mul_right _ _ hpos]
  have hmod : n * 2 ^ a % 2 ^ (shift + a) = n % 2 ^ shift * 2 ^ a := by
    rw [Nat.pow_add, Nat.mul_mod_mul_right]
  have hlt : 2 * (n % 2 ^ shift * 2 ^ a) < 2 ^ (shift + a) ↔ 2 * (n % 2 ^ shift) < 2 ^ shift := by
    rw [Nat.pow_add, ← Nat.mul_assoc]
    exact Nat.mul_lt_mul_right hpos
  have heq : 2 * (n % 2 ^ shift * 2 ^ a) = 2 ^ (shift + a) ↔ 2 * (n % 2 ^ shift) = 2 ^ shift := by
    rw [Nat.pow_add, ← Nat.mul_assoc]
    exact Nat.mul_left_inj hpos.ne'
  simp only [halfEven, hdiv, hmod, hlt, heq]

theorem log2_mul_pow {n : ℕ} (hn : n ≠ 0) (a : ℕ) : (n * 2 ^ a).log2 = n.log2 + a := by
  induction a with
  | zero => simp
  | succ a ih =>
    have hne : n * 2 ^ a ≠ 0 := Nat.mul_ne_zero hn (Nat.two_pow_pos a).ne'
    rw [Nat.pow_succ, ← Nat.mul_assoc, Nat.mul_comm (n * 2 ^ a) 2, Nat.log2_two_mul hne, ih]
    rfl

theorem UNITS_eq : UNITS = 2 ^ 1074 := rfl

theorem UNITS_pos : 0 < UNITS := Nat.two_pow_pos 1074

theorem nearest_of_dvd {n : ℕ} (h : 2 ^ shiftOf n ∣ n) : nearest n = n := by
  rw [nearest, halfEven_of_dvd (Nat.mod_eq_zero_of_dvd h), Nat.div_mul_cancel h]

/-- The whole numbers that are floats. -/
theorem nearest_eq_iff {n : ℕ} : nearest n = n ↔ 2 ^ shiftOf n ∣ n :=
  ⟨fun h => ⟨_, by rw [Nat.mul_comm]; exact h.symm⟩, nearest_of_dvd⟩

theorem nearest_of_lt {n : ℕ} (h : n < 2 ^ 53) : nearest n = n := by
  refine nearest_of_dvd ?_
  have hlog : n.log2 < 53 := by
    rcases Nat.eq_zero_or_pos n with rfl | hpos
    · decide
    · exact (Nat.log2_lt hpos.ne').mpr h
  rw [shiftOf, Nat.sub_eq_zero_of_le (by omega), Nat.pow_zero]
  exact one_dvd n

/-- A number of units that a power of two divides is exact when few bits are left. -/
theorem magnitude_roundBits_exact {n a : ℕ} (hn : n < 2 ^ 53) :
    magnitude (roundBits (n * 2 ^ a)) = n * 2 ^ a := by
  rw [magnitude_roundBits]
  have hdvd : 2 ^ shiftOf (n * 2 ^ a) ∣ n * 2 ^ a := by
    rcases Nat.eq_zero_or_pos n with rfl | hpos
    · rw [Nat.zero_mul]
      exact Nat.dvd_zero _
    · have hlog : n.log2 < 53 := (Nat.log2_lt hpos.ne').mpr hn
      refine Dvd.dvd.mul_left (Nat.pow_dvd_pow 2 ?_) n
      rw [shiftOf, log2_mul_pow hpos.ne']
      omega
  rw [halfEven_of_dvd (Nat.mod_eq_zero_of_dvd hdvd), Nat.div_mul_cancel hdvd]

theorem magnitude_roundBits_units (n : ℕ) :
    magnitude (roundBits (n * UNITS)) = nearest n * UNITS := by
  rcases Nat.lt_or_ge n (2 ^ 53) with hsmall | hlarge
  · rw [nearest_of_lt hsmall]
    exact magnitude_roundBits_exact hsmall
  · have hne : n ≠ 0 := by
      rintro rfl
      exact absurd hlarge (by decide)
    have hlog : 53 ≤ n.log2 := (Nat.le_log2 hne).mpr hlarge
    have hshift : shiftOf (n * UNITS) = shiftOf n + 1074 := by
      rw [shiftOf, shiftOf, UNITS_eq, log2_mul_pow hne]
      omega
    rw [magnitude_roundBits, hshift, nearest, UNITS_eq, halfEven_mul_pow, Nat.pow_add,
      Nat.mul_assoc]

theorem nearest_mono {n m : ℕ} (h : n ≤ m) : nearest n ≤ nearest m := by
  have hmono := roundBits_mono (Nat.mul_le_mul_right UNITS h)
  rw [magnitude_roundBits_units, magnitude_roundBits_units] at hmono
  exact Nat.le_of_mul_le_mul_right hmono UNITS_pos

/-- A float rounds to itself. -/
theorem magnitude_roundBits_magnitude (b : ℕ) : magnitude (roundBits (magnitude b)) = magnitude b :=
  Nat.le_antisymm (roundBits_le le_rfl) (le_roundBits le_rfl)

theorem nearest_two_pow_63 : nearest (2 ^ 63) = 2 ^ 63 := nearest_of_dvd (by decide)

/-- A half on top of a whole number: rounded off, but where floats are one apart; there it is a
tie, which goes to the even one. -/
theorem half_up {c : ℕ} (hc : nearest c = c) :
    magnitude (roundBits (c * UNITS + UNITS / 2)) / UNITS =
      if 2 ^ 52 < c ∧ c < 2 ^ 53 ∧ c % 2 = 1 then c + 1 else c := by
  obtain ⟨half, hhalf⟩ : ∃ half, half = 2 ^ 1073 := ⟨_, rfl⟩
  have hpos : 0 < half := hhalf ▸ Nat.two_pow_pos 1073
  have htwo : UNITS = 2 * half := by rw [UNITS_eq, hhalf, Nat.pow_succ, Nat.mul_comm]
  have hunits : c * UNITS + UNITS / 2 = (2 * c + 1) * half := by
    rw [htwo, Nat.mul_div_cancel_left _ (by decide)]
    ring
  rw [hunits]
  rcases Nat.lt_or_ge c (2 ^ 52) with hsmall | hlarge
  · -- halves are floats
    have hexact : magnitude (roundBits ((2 * c + 1) * half)) = (2 * c + 1) * half := by
      rw [hhalf]
      exact magnitude_roundBits_exact (by omega)
    rw [hexact, if_neg (by omega), htwo]
    refine Nat.div_eq_of_lt_le ?_ ?_
    · calc c * (2 * half) = 2 * c * half := by ring
        _ ≤ (2 * c + 1) * half := Nat.mul_le_mul_right _ (Nat.le_succ _)
    · calc (2 * c + 1) * half < (2 * c + 2) * half :=
          Nat.mul_lt_mul_of_pos_right (Nat.lt_succ_self _) hpos
        _ = (c + 1) * (2 * half) := by ring
  · have hne : 2 * c + 1 ≠ 0 := by omega
    have hcne : c ≠ 0 := by omega
    have hlog : (2 * c + 1).log2 = c.log2 + 1 := by
      refine (Nat.log2_eq_iff hne).mpr ⟨?_, ?_⟩
      · have hle := Nat.log2_self_le hcne
        rw [Nat.pow_succ]
        omega
      · have hlt := @Nat.lt_log2_self c
        rw [Nat.pow_succ] at hlt
        rw [Nat.pow_succ, Nat.pow_succ]
        omega
    have hlogc : 52 ≤ c.log2 := (Nat.le_log2 hcne).mpr hlarge
    have hshift : shiftOf ((2 * c + 1) * half) = shiftOf c + 1 + 1073 := by
      rw [shiftOf, shiftOf, hhalf, log2_mul_pow hne, hlog]
      omega
    have hscale : halfEven (2 * c + 1) (shiftOf c + 1) * 2 ^ (shiftOf c + 1 + 1073) / UNITS =
        halfEven (2 * c + 1) (shiftOf c + 1) * 2 ^ shiftOf c := by
      have hsplit : 2 ^ (shiftOf c + 1 + 1073) = 2 ^ shiftOf c * UNITS := by
        rw [htwo, hhalf, Nat.pow_add, Nat.pow_succ, Nat.mul_assoc]
      rw [hsplit, ← Nat.mul_assoc, Nat.mul_div_cancel _ UNITS_pos]
    rw [magnitude_roundBits, hshift]
    rw [hhalf, halfEven_mul_pow, hscale]
    rcases Nat.lt_or_ge c (2 ^ 53) with hnear | hfar
    · -- a tie
      have hzero : shiftOf c = 0 := by
        have hlt : c.log2 < 53 := (Nat.log2_lt hcne).mpr hnear
        rw [shiftOf]
        omega
      rw [hzero]
      simp only [halfEven, Nat.zero_add, Nat.pow_one, Nat.pow_zero, Nat.mul_one]
      split <;> split <;> omega
    · obtain ⟨k, hk⟩ := nearest_eq_iff.mp hc
      have hfour : 1 ≤ shiftOf c := by
        have hge : 53 ≤ c.log2 := (Nat.le_log2 hcne).mpr hfar
        rw [shiftOf]
        omega
      obtain ⟨shift, hs⟩ : ∃ shift, shiftOf c = shift + 1 := ⟨shiftOf c - 1, by omega⟩
      rw [if_neg (by omega), hs]
      rw [hs] at hk
      have hwide : 2 ≤ 2 ^ (shift + 1) := by
        rw [Nat.pow_succ]
        have := Nat.two_pow_pos shift
        omega
      have hdivision : 2 * c + 1 = 2 ^ (shift + 1 + 1) * k + 1 := by
        rw [hk, Nat.pow_succ]
        ring
      have hquotient : (2 * c + 1) / 2 ^ (shift + 1 + 1) = k := by
        rw [hdivision, Nat.mul_add_div (Nat.two_pow_pos _), Nat.div_eq_of_lt (by omega),
          Nat.add_zero]
      have hremainder : (2 * c + 1) % 2 ^ (shift + 1 + 1) = 1 := by
        rw [hdivision, Nat.mul_add_mod, Nat.mod_eq_of_lt (by omega)]
      have hdown : halfEven (2 * c + 1) (shift + 1 + 1) = k := by
        rw [halfEven, hquotient, hremainder]
        exact if_pos (Or.inl (by rw [Nat.pow_succ]; omega))
      rw [hdown, Nat.mul_comm, ← hk]

/-! ### Operations -/

/-- The bits of the float nearest to `n / d` units. -/
def roundRatio (n d : ℕ) : ℕ :=
  let halves := 2 * n
  let m := 2 * (halves / d) + if halves % d = 0 then 0 else 1
  shiftOf (m / 4) * 2 ^ 52 + halfEven m (shiftOf (m / 4) + 2)

theorem roundRatio_mul {n d : ℕ} (hd : 0 < d) : roundRatio (n * d) d = roundBits n := by
  have hdiv : 2 * (n * d) / d = 2 * n := by rw [← Nat.mul_assoc, Nat.mul_div_cancel _ hd]
  have hmod : 2 * (n * d) % d = 0 := by rw [← Nat.mul_assoc, Nat.mul_mod_left]
  have hquarters : 2 * (2 * n) / 4 = n := by omega
  have hhalf : halfEven (2 * (2 * n)) (shiftOf n + 2) = halfEven n (shiftOf n) := by
    rw [show 2 * (2 * n) = n * 2 ^ 2 by ring, halfEven_mul_pow]
  simp only [roundRatio, hdiv, hmod, if_true, Nat.add_zero, hquarters, hhalf, roundBits]

namespace F64

def isFinite (f : F64) : Bool := decide (f.mag < INFINITY_BITS)

def isInfinite (f : F64) : Bool := f.mag == INFINITY_BITS

def NAN : F64 := ⟨0x7FF8000000000000⟩

def ONE_FLOAT : F64 := ⟨0x3FF0000000000000⟩

def HALF : F64 := ⟨0x3FE0000000000000⟩

/-- A float of a sign and the bits below it, at most those of infinity. -/
def signed (negative : Bool) (bits : ℕ) : F64 :=
  ⟨UInt64.ofNat ((if negative then 2 ^ 63 else 0) + min bits INFINITY_BITS)⟩

/-- `-f`: the sign bit, flipped. -/
def neg (f : F64) : F64 := ⟨UInt64.ofNat ((if f.isNegative then 0 else 2 ^ 63) + f.mag)⟩

/-- `f + g` -/
def plus (f g : F64) : F64 :=
  if f.isNaN || g.isNaN then NAN
  else if f.isInfinite then
    if g.isInfinite && f.isNegative != g.isNegative then NAN else f
  else if g.isInfinite then g
  else
    let sum := f.scaled + g.scaled
    signed (if sum = 0 then f.isNegative && g.isNegative else decide (sum < 0))
      (roundBits sum.natAbs)

/-- `f * g` -/
def times (f g : F64) : F64 :=
  let negative := f.isNegative != g.isNegative
  if f.isNaN || g.isNaN then NAN
  else if f.isInfinite || g.isInfinite then
    if f.mag = 0 ∨ g.mag = 0 then NAN else signed negative INFINITY_BITS
  else signed negative (roundRatio (magnitude f.mag * magnitude g.mag) UNITS)

/-- `f / g` -/
def divBy (f g : F64) : F64 :=
  let negative := f.isNegative != g.isNegative
  if f.isNaN || g.isNaN then NAN
  else if f.isInfinite then
    if g.isInfinite then NAN else signed negative INFINITY_BITS
  else if g.isInfinite then signed negative 0
  else if g.mag = 0 then
    if f.mag = 0 then NAN else signed negative INFINITY_BITS
  else signed negative (roundRatio (magnitude f.mag * UNITS) (magnitude g.mag))

/-- A float that is a whole number, of the sign of another: zeros keep it. -/
def integral (f : F64) (whole : ℕ) : F64 :=
  if f.isFinite then signed f.isNegative (roundBits (whole * UNITS)) else f

def floor (f : F64) : F64 := f.integral (f.scaled / ONE).natAbs

def ceil (f : F64) : F64 := f.integral (-f.scaled / ONE).natAbs

def truncate (f : F64) : F64 := f.integral f.trunc.natAbs

def roundTiesEven (f : F64) : F64 := f.integral (halfEven (magnitude f.mag) 1074)

/-- `f as i64`: truncated, and saturated. -/
def castI64 (f : F64) : Int64 :=
  if f.isNaN then 0 else Int64.ofInt (max (-2 ^ 63) (min (2 ^ 63 - 1) f.trunc))

variable {f g : F64}

/-! ### Exact cases -/

theorem toNat_signed (negative : Bool) (bits : ℕ) : (signed negative bits).bits.toNat =
    (if negative then 2 ^ 63 else 0) + min bits INFINITY_BITS := by
  have hbits : min bits INFINITY_BITS < 2 ^ 63 :=
    (Nat.min_le_right _ _).trans_lt (by decide)
  rw [signed, UInt64.toNat_ofNat', Nat.mod_eq_of_lt]
  split <;> omega

theorem mag_signed (negative : Bool) (bits : ℕ) :
    (signed negative bits).mag = min bits INFINITY_BITS := by
  have hbits : min bits INFINITY_BITS < 2 ^ 63 :=
    (Nat.min_le_right _ _).trans_lt (by decide)
  rw [mag, toNat_signed]
  split <;> omega

theorem isNegative_signed (negative : Bool) (bits : ℕ) :
    (signed negative bits).isNegative = negative := by
  have hbits : min bits INFINITY_BITS < 2 ^ 63 :=
    (Nat.min_le_right _ _).trans_lt (by decide)
  rw [isNegative, toNat_signed]
  cases negative with
  | true => exact decide_eq_true (by rw [if_pos rfl]; omega)
  | false => exact decide_eq_false (by rw [if_neg (by decide)]; omega)

theorem eq_of_parts (hneg : f.isNegative = g.isNegative) (hmag : f.mag = g.mag) : f = g := by
  have hf : f.bits.toNat < 2 ^ 64 := f.bits.toNat_lt
  have hg : g.bits.toNat < 2 ^ 64 := g.bits.toNat_lt
  have hsame : f.bits.toNat = g.bits.toNat := by
    rw [isNegative, isNegative, decide_eq_decide] at hneg
    rw [mag, mag] at hmag
    omega
  obtain ⟨fbits⟩ := f
  obtain ⟨gbits⟩ := g
  exact congrArg F64.mk (UInt64.toNat_inj.mp hsame)

/-- A float is a whole number of magnitude `c`. -/
structure IsWhole (f : F64) (negative : Bool) (c : ℕ) : Prop where
  sign : f.isNegative = negative
  value : magnitude f.mag = c * UNITS
  small : c ≤ 2 ^ 64

theorem ONE_eq : ONE = (UNITS : ℤ) := rfl

theorem magnitude_infinity : 2 ^ 65 * UNITS < magnitude INFINITY_BITS := by decide +kernel

theorem lt_infinity {bits c : ℕ} (hvalue : magnitude bits ≤ c * UNITS) (hsmall : c ≤ 2 ^ 65) :
    bits < INFINITY_BITS :=
  magnitude_strictMono.lt_iff_lt.mp
    (hvalue.trans_lt ((Nat.mul_le_mul_right UNITS hsmall).trans_lt magnitude_infinity))

namespace IsWhole

variable {negative : Bool} {c : ℕ}

theorem mag_lt (h : f.IsWhole negative c) : f.mag < INFINITY_BITS :=
  lt_infinity h.value.le (h.small.trans (by decide))

theorem notNaN (h : f.IsWhole negative c) : f.isNaN = false :=
  decide_eq_false (Nat.not_lt.mpr h.mag_lt.le)

theorem finite (h : f.IsWhole negative c) : f.isFinite = true := decide_eq_true h.mag_lt

theorem notInfinite (h : f.IsWhole negative c) : f.isInfinite = false :=
  beq_eq_false_iff_ne.mpr h.mag_lt.ne

theorem scaled_eq (h : f.IsWhole negative c) :
    f.scaled = (if negative then -(c : ℤ) else c) * ONE := by
  rw [scaled, h.sign, h.value, ONE_eq, Nat.cast_mul]
  cases negative with
  | true => rw [if_pos rfl, if_pos rfl, Int.neg_mul]
  | false => rw [if_neg Bool.false_ne_true, if_neg Bool.false_ne_true]

theorem trunc_eq (h : f.IsWhole negative c) : f.trunc = if negative then -(c : ℤ) else c := by
  rw [trunc, h.scaled_eq]
  exact Int.mul_tdiv_cancel _ ONE_pos.ne'

/-- What the magnitude says of the bits. -/
theorem nearest_self (h : f.IsWhole negative c) : nearest c = c := by
  have hself := magnitude_roundBits_magnitude f.mag
  rw [h.value, magnitude_roundBits_units] at hself
  exact Nat.eq_of_mul_eq_mul_right UNITS_pos hself

theorem neg_spec (h : f.IsWhole negative c) : f.neg.IsWhole (!negative) c := by
  have hmag : f.mag < 2 ^ 63 := h.mag_lt.trans_le (by decide)
  have hbits : f.neg.bits.toNat = (if negative then 0 else 2 ^ 63) + f.mag := by
    rw [neg, h.sign, UInt64.toNat_ofNat', Nat.mod_eq_of_lt]
    split <;> omega
  refine ⟨?_, ?_, h.small⟩
  · rw [isNegative, hbits]
    cases negative with
    | true => exact decide_eq_false (by rw [if_pos rfl]; omega)
    | false => exact decide_eq_true (by rw [if_neg Bool.false_ne_true]; omega)
  · have hsame : f.neg.mag = f.mag := by
      rw [mag, hbits]
      split <;> omega
    rw [hsame, h.value]

end IsWhole

theorem signed_whole {negative : Bool} {bits c : ℕ} (hvalue : magnitude bits = c * UNITS)
    (hsmall : c ≤ 2 ^ 64) : (signed negative bits).IsWhole negative c := by
  refine ⟨isNegative_signed _ _, ?_, hsmall⟩
  rw [mag_signed, Nat.min_eq_left (lt_infinity hvalue.le (hsmall.trans (by decide))).le, hvalue]

theorem ofInt_whole (i : Int64) :
    (ofInt i).IsWhole (decide (i.toInt < 0)) (nearest i.toInt.natAbs) := by
  refine ⟨isNegative_ofInt, ?_, ?_⟩
  · rw [mag_ofInt, magnitude_roundBits_units]
  · refine (nearest_mono (natAbs_le i)).trans ?_
    rw [nearest_two_pow_63]
    decide

theorem ONE_FLOAT_whole : ONE_FLOAT.IsWhole false 1 :=
  ⟨by decide, by decide +kernel, by decide⟩

variable {negative : Bool} {c : ℕ}

/-- The bits below the sign round to themselves. -/
theorem signed_magnitude (h : f.IsWhole negative c) :
    signed negative (roundBits (magnitude f.mag)) = f := by
  have hbits : roundBits (magnitude f.mag) = f.mag :=
    magnitude_strictMono.injective (magnitude_roundBits_magnitude f.mag)
  refine eq_of_parts ((isNegative_signed _ _).trans h.sign.symm) ?_
  rw [mag_signed, hbits, Nat.min_eq_left h.mag_lt.le]

/-- Multiplying by one changes nothing. -/
theorem times_one (h : f.IsWhole negative c) : f.times ONE_FLOAT = f := by
  have hone := ONE_FLOAT_whole
  have hvalue : magnitude ONE_FLOAT.mag = UNITS := by rw [hone.value, Nat.one_mul]
  have hsign : (f.isNegative != ONE_FLOAT.isNegative) = negative := by
    rw [h.sign, hone.sign, Bool.bne_false]
  rw [times]
  simp only [h.notNaN, hone.notNaN, h.notInfinite, hone.notInfinite, hsign, Bool.or_self,
    Bool.false_eq_true, if_false, hvalue, roundRatio_mul UNITS_pos]
  exact signed_magnitude h

/-- Dividing by one changes nothing. -/
theorem divBy_one (h : f.IsWhole negative c) : f.divBy ONE_FLOAT = f := by
  have hone := ONE_FLOAT_whole
  have hvalue : magnitude ONE_FLOAT.mag = UNITS := by rw [hone.value, Nat.one_mul]
  have hsign : (f.isNegative != ONE_FLOAT.isNegative) = negative := by
    rw [h.sign, hone.sign, Bool.bne_false]
  have hmag : ONE_FLOAT.mag ≠ 0 := by decide
  rw [divBy]
  simp only [h.notNaN, hone.notNaN, h.notInfinite, hone.notInfinite, hsign, Bool.or_self,
    Bool.false_eq_true, if_false, hvalue, if_neg hmag, roundRatio_mul UNITS_pos]
  exact signed_magnitude h

theorem HALF_spec : HALF.isNaN = false ∧ HALF.isInfinite = false ∧
    HALF.scaled = ((UNITS / 2 : ℕ) : ℤ) := by
  refine ⟨by decide, by decide, ?_⟩
  decide +kernel

/-- A half on top, and the floor of it. -/
theorem half_up_whole (h : f.IsWhole false c) : (f.plus HALF).floor.IsWhole false
    (if 2 ^ 52 < c ∧ c < 2 ^ 53 ∧ c % 2 = 1 then c + 1 else c) := by
  obtain ⟨hnan, hinfinite, hhalf⟩ := HALF_spec
  have hunits := UNITS_pos
  obtain ⟨k, hk⟩ : ∃ k, (if 2 ^ 52 < c ∧ c < 2 ^ 53 ∧ c % 2 = 1 then c + 1 else c) = k := ⟨_, rfl⟩
  have hround := half_up h.nearest_self
  rw [hk] at hround ⊢
  obtain ⟨bits, hbits⟩ : ∃ bits, roundBits (c * UNITS + UNITS / 2) = bits := ⟨_, rfl⟩
  rw [hbits] at hround
  have hscaled : f.scaled + HALF.scaled = ((c * UNITS + UNITS / 2 : ℕ) : ℤ) := by
    rw [h.scaled_eq, hhalf, if_neg Bool.false_ne_true, ONE_eq, Nat.cast_add, Nat.cast_mul]
  have hsum : f.plus HALF = signed false bits := by
    have hne : c * UNITS + UNITS / 2 ≠ 0 := by
      have hle : 2 ≤ UNITS := Nat.pow_le_pow_right (n := 2) Nat.two_pos (by decide : 1 ≤ 1074)
      omega
    rw [plus]
    simp only [h.notNaN, hnan, h.notInfinite, hinfinite, Bool.or_self, Bool.false_eq_true,
      if_false, hscaled, Int.natAbs_natCast, hbits]
    rw [if_neg (by exact_mod_cast hne), decide_eq_false (by omega)]
  have hlt : bits < INFINITY_BITS := by
    have hnext : nearest (c + 1) ≤ 2 ^ 65 :=
      (nearest_mono (show c + 1 ≤ 2 ^ 65 from (Nat.succ_le_succ h.small).trans (by decide))).trans
        (@nearest_of_dvd (2 ^ 65) (by decide)).le
    refine lt_infinity ?_ hnext
    rw [← magnitude_roundBits_units, ← hbits]
    refine roundBits_mono ?_
    have hle : UNITS / 2 ≤ UNITS := Nat.div_le_self _ _
    rw [Nat.add_mul c 1 UNITS, Nat.one_mul]
    exact Nat.add_le_add_left hle _
  have hself : nearest k = k := by
    rw [← hk]
    split
    · rename_i hodd
      rcases Nat.lt_or_ge (c + 1) (2 ^ 53) with hlt53 | hge53
      · exact nearest_of_lt hlt53
      · obtain rfl : c = 2 ^ 53 - 1 := by omega
        exact nearest_of_dvd (by decide)
    · exact h.nearest_self
  have hsmall : k ≤ 2 ^ 64 := by
    have hc := h.small
    rw [← hk]
    split <;> omega
  have hfloor : ((signed false bits).scaled / ONE).natAbs = k := by
    rw [scaled, isNegative_signed, if_neg Bool.false_ne_true, mag_signed,
      Nat.min_eq_left hlt.le, ONE_eq, ← Int.natCast_div, Int.natAbs_natCast, hround]
  have hfinite : (signed false bits).isFinite = true := by
    rw [isFinite, mag_signed, Nat.min_eq_left hlt.le]
    exact decide_eq_true hlt
  rw [hsum, floor, hfloor, integral, if_pos hfinite, isNegative_signed]
  exact signed_whole (by rw [magnitude_roundBits_units, hself]) hsmall

end F64

end LoraDb
