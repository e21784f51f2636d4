import Mathlib.Data.Nat.Log
import Mathlib.Tactic.Ring

/-!
# Binary64 Magnitudes

The magnitude of a double, from the 63 bits below its sign, as a multiple of the smallest
one: every finite double is a whole number of units of `2 ^ -1074`, and read the same way the
bits of infinity are more units than any of them. So doubles compare as whole numbers do, and
an integer rounds to a double by a division.

## Main results

* `magnitude_strictMono`: a double's bits order as its magnitude does.
* `le_roundBits`, `roundBits_le`: rounding a number never crosses a double.
* `roundBits_mono`: rounding keeps the order.
-/

namespace Binary64

/-- The bits of infinity. -/
def INFINITY_BITS : ℕ := 2047 * 2 ^ 52

/-- The units of a double: its significand, shifted by its exponent. -/
def magnitude (bits : ℕ) : ℕ :=
  if bits / 2 ^ 52 = 0 then bits else (2 ^ 52 + bits % 2 ^ 52) * 2 ^ (bits / 2 ^ 52 - 1)

/-- The quotient by `2 ^ shift`, **half to even**. -/
def halfEven (n shift : ℕ) : ℕ :=
  let q := n / 2 ^ shift
  let r := n % 2 ^ shift
  if 2 * r < 2 ^ shift ∨ 2 * r = 2 ^ shift ∧ q % 2 = 0 then q else q + 1

/-- How far a number of units is shifted to leave 53 bits. -/
def shiftOf (n : ℕ) : ℕ := n.log2 - 52

/-- The bits of the double nearest to a number of units. A significand rounded up to
`2 ^ 53` carries into the exponent. -/
def roundBits (n : ℕ) : ℕ := shiftOf n * 2 ^ 52 + halfEven n (shiftOf n)

/-! ### Magnitudes -/

/-- A significand of 53 bits under an exponent. -/
theorem magnitude_pack {shift q : ℕ} (hlow : shift = 0 ∨ 2 ^ 52 ≤ q) (hhigh : q ≤ 2 ^ 53) :
    magnitude (shift * 2 ^ 52 + q) = q * 2 ^ shift := by
  rcases Nat.lt_or_ge q (2 ^ 52) with hsmall | hlarge
  · obtain rfl : shift = 0 := by omega
    have hzero : (0 * 2 ^ 52 + q) / 2 ^ 52 = 0 := by omega
    rw [magnitude, if_pos hzero]
    omega
  · rcases Nat.lt_or_ge q (2 ^ 53) with hlt | hge
    · have hexp : (shift * 2 ^ 52 + q) / 2 ^ 52 = shift + 1 := by omega
      have hfrac : (shift * 2 ^ 52 + q) % 2 ^ 52 = q - 2 ^ 52 := by omega
      rw [magnitude, if_neg (by omega), hexp, hfrac, Nat.add_sub_cancel' hlarge, Nat.add_sub_cancel]
    · obtain rfl : q = 2 ^ 53 := by omega
      have hexp : (shift * 2 ^ 52 + 2 ^ 53) / 2 ^ 52 = shift + 2 := by omega
      have hfrac : (shift * 2 ^ 52 + 2 ^ 53) % 2 ^ 52 = 0 := by omega
      rw [magnitude, if_neg (by omega), hexp, hfrac, Nat.add_zero]
      change 2 ^ 52 * 2 ^ (shift + 1) = 2 ^ 53 * 2 ^ shift
      ring

theorem magnitude_of_lt {bits : ℕ} (h : bits < 2 ^ 52) : magnitude bits = bits := by
  rw [magnitude, if_pos (Nat.div_eq_of_lt h)]

theorem magnitude_eq {bits : ℕ} (h : 2 ^ 52 ≤ bits) : magnitude bits =
    (2 ^ 52 + bits % 2 ^ 52) * 2 ^ (bits / 2 ^ 52 - 1) := by
  rw [magnitude, if_neg]
  have := Nat.div_pos h (by decide)
  omega

theorem magnitude_succ_lt (bits : ℕ) : magnitude bits < magnitude (bits + 1) := by
  rcases Nat.lt_or_ge bits (2 ^ 52) with hsmall | hlarge
  · have hpack : magnitude (0 * 2 ^ 52 + (bits + 1)) = (bits + 1) * 2 ^ 0 :=
      magnitude_pack (Or.inl rfl) (by omega)
    rw [Nat.zero_mul, Nat.zero_add] at hpack
    rw [magnitude_of_lt hsmall, hpack]
    omega
  · -- The next significand, under the same exponent: a carry packs alike.
    have hpos : 0 < 2 ^ (bits / 2 ^ 52 - 1) := Nat.pos_of_ne_zero (by simp)
    have hbits : bits + 1 = (bits / 2 ^ 52 - 1) * 2 ^ 52 + (2 ^ 52 + bits % 2 ^ 52 + 1) := by omega
    have hpack := @magnitude_pack (bits / 2 ^ 52 - 1) (2 ^ 52 + bits % 2 ^ 52 + 1)
      (Or.inr (by omega)) (by omega)
    rw [magnitude_eq hlarge, hbits, hpack, Nat.add_mul _ 1]
    omega

theorem magnitude_strictMono : StrictMono magnitude := strictMono_nat_of_lt_succ magnitude_succ_lt

theorem magnitude_le_iff {b b' : ℕ} : magnitude b ≤ magnitude b' ↔ b ≤ b' :=
  magnitude_strictMono.le_iff_le

/-- A double that reaches the binade of `2 ^ (shift + 52)` is a multiple of its last place. -/
theorem dvd_magnitude {bits shift : ℕ} (h : 2 ^ (shift + 52) ≤ magnitude bits) :
    2 ^ shift ∣ magnitude bits := by
  rcases Nat.lt_or_ge bits (2 ^ 52) with hsmall | hlarge
  · rw [magnitude_of_lt hsmall] at h ⊢
    have hshift : 2 ^ (shift + 52) < 2 ^ 52 := by omega
    have hlt := (Nat.pow_lt_pow_iff_right (by decide)).mp hshift
    omega
  · rw [magnitude_eq hlarge] at h ⊢
    have hlt : 2 ^ (shift + 52) < 2 ^ (53 + (bits / 2 ^ 52 - 1)) := by
      refine lt_of_le_of_lt h ?_
      rw [Nat.pow_add]
      refine Nat.mul_lt_mul_of_pos_right ?_ (Nat.pos_of_ne_zero (by simp))
      omega
    have hexp := (Nat.pow_lt_pow_iff_right (by decide)).mp hlt
    exact Dvd.dvd.mul_left (Nat.pow_dvd_pow 2 (by omega)) _

/-! ### Rounding -/

theorem le_halfEven (n shift : ℕ) : n / 2 ^ shift ≤ halfEven n shift := by
  rw [halfEven]
  split <;> omega

theorem halfEven_le (n shift : ℕ) : halfEven n shift ≤ n / 2 ^ shift + 1 := by
  rw [halfEven]
  split <;> omega

theorem halfEven_of_dvd {n shift : ℕ} (h : n % 2 ^ shift = 0) :
    halfEven n shift = n / 2 ^ shift := by
  have hpos : 0 < 2 ^ shift := Nat.pos_of_ne_zero (by simp)
  rw [halfEven]
  exact if_pos (Or.inl (by omega))

theorem halfEven_mono (shift : ℕ) {n m : ℕ} (h : n ≤ m) : halfEven n shift ≤ halfEven m shift := by
  have hdiv : n / 2 ^ shift ≤ m / 2 ^ shift := Nat.div_le_div_right h
  rcases Nat.lt_or_eq_of_le hdiv with hlt | heq
  · have hn := halfEven_le n shift
    have hm := le_halfEven m shift
    omega
  · have hmod : n % 2 ^ shift ≤ m % 2 ^ shift := by
      have hn := Nat.div_add_mod n (2 ^ shift)
      have hm := Nat.div_add_mod m (2 ^ shift)
      rw [heq] at hn
      omega
    rw [halfEven, halfEven, heq]
    split <;> split <;> omega

/-- A number that is shifted lies in the binade of its first 53 bits. -/
theorem shiftOf_spec {n : ℕ} (h : shiftOf n ≠ 0) :
    2 ^ (shiftOf n + 52) ≤ n ∧ n < 2 ^ (shiftOf n + 53) := by
  rw [shiftOf] at h ⊢
  have hne : n ≠ 0 := by
    rintro rfl
    exact h (by decide)
  have hlog : n.log2 - 52 + 52 = n.log2 := by omega
  constructor
  · rw [hlog]
    exact Nat.log2_self_le hne
  · have hsucc : n.log2 - 52 + 53 = n.log2 + 1 := by omega
    rw [hsucc]
    exact Nat.lt_log2_self

theorem lt_of_shiftOf_eq_zero {n : ℕ} (h : shiftOf n = 0) : n < 2 ^ 53 := by
  rw [shiftOf] at h
  refine lt_of_lt_of_le Nat.lt_log2_self (Nat.pow_le_pow_right (by decide) ?_)
  omega

/-- The first 53 bits of a number. -/
theorem div_shiftOf (n : ℕ) :
    (shiftOf n = 0 ∨ 2 ^ 52 ≤ n / 2 ^ shiftOf n) ∧ n / 2 ^ shiftOf n < 2 ^ 53 := by
  by_cases h : shiftOf n = 0
  · rw [h, Nat.pow_zero, Nat.div_one]
    exact ⟨Or.inl rfl, lt_of_shiftOf_eq_zero h⟩
  · obtain ⟨hlow, hhigh⟩ := shiftOf_spec h
    have hpos : 0 < 2 ^ shiftOf n := Nat.pos_of_ne_zero (by simp)
    constructor
    · refine Or.inr ((Nat.le_div_iff_mul_le hpos).mpr ?_)
      rw [← Nat.pow_add, Nat.add_comm]
      exact hlow
    · refine (Nat.div_lt_iff_lt_mul hpos).mpr ?_
      rw [← Nat.pow_add, Nat.add_comm]
      exact hhigh

theorem magnitude_roundBits (n : ℕ) :
    magnitude (roundBits n) = halfEven n (shiftOf n) * 2 ^ shiftOf n := by
  obtain ⟨hlow, hhigh⟩ := div_shiftOf n
  have hle := le_halfEven n (shiftOf n)
  have hge := halfEven_le n (shiftOf n)
  exact magnitude_pack (hlow.imp_right fun h => h.trans hle) (by omega)

/-- A double below a number is at most what the number rounds to. -/
theorem le_roundBits {b n : ℕ} (h : magnitude b ≤ n) : magnitude b ≤ magnitude (roundBits n) := by
  rw [magnitude_roundBits]
  have hpos : 0 < 2 ^ shiftOf n := Nat.pos_of_ne_zero (by simp)
  refine le_trans ?_ (Nat.mul_le_mul_right _ (le_halfEven n (shiftOf n)))
  rcases Nat.lt_or_ge (magnitude b) (2 ^ (shiftOf n + 52)) with hsmall | hlarge
  · rcases (div_shiftOf n).1 with hzero | hq
    · rw [hzero, Nat.pow_zero, Nat.div_one, Nat.mul_one]
      exact h
    · refine hsmall.le.trans ?_
      rw [Nat.pow_add, Nat.mul_comm]
      exact Nat.mul_le_mul_right _ hq
  · obtain ⟨k, hk⟩ := dvd_magnitude hlarge
    rw [hk, Nat.mul_comm]
    refine Nat.mul_le_mul_right _ ((Nat.le_div_iff_mul_le hpos).mpr ?_)
    rw [Nat.mul_comm, ← hk]
    exact h

/-- A double above a number is at least what the number rounds to. -/
theorem roundBits_le {b n : ℕ} (h : n ≤ magnitude b) : magnitude (roundBits n) ≤ magnitude b := by
  rw [magnitude_roundBits]
  by_cases hdvd : n % 2 ^ shiftOf n = 0
  · rw [halfEven_of_dvd hdvd, Nat.div_mul_cancel (Nat.dvd_of_mod_eq_zero hdvd)]
    exact h
  · have hshift : shiftOf n ≠ 0 := by
      intro hzero
      rw [hzero, Nat.pow_zero] at hdvd
      omega
    obtain ⟨k, hk⟩ := dvd_magnitude ((shiftOf_spec hshift).1.trans h)
    -- `n` lies strictly above its first 53 bits, so the double has the next ones at least.
    have hq : n / 2 ^ shiftOf n < k := by
      by_contra hle
      have hmod := Nat.div_add_mod n (2 ^ shiftOf n)
      have hmul := Nat.mul_le_mul_left (2 ^ shiftOf n) (Nat.le_of_not_lt hle)
      omega
    rw [hk, Nat.mul_comm]
    exact Nat.mul_le_mul_left _ ((halfEven_le n (shiftOf n)).trans hq)

theorem shiftOf_mono {n m : ℕ} (h : n ≤ m) : shiftOf n ≤ shiftOf m := by
  rw [shiftOf, shiftOf, Nat.log2_eq_log_two, Nat.log2_eq_log_two]
  exact Nat.sub_le_sub_right (Nat.log_mono_right h) 52

/-- Rounding keeps the order. -/
theorem roundBits_mono {n m : ℕ} (h : n ≤ m) :
    magnitude (roundBits n) ≤ magnitude (roundBits m) := by
  rw [magnitude_roundBits, magnitude_roundBits]
  rcases Nat.lt_or_eq_of_le (shiftOf_mono h) with hlt | heq
  · -- In a lower binade, the number rounds to the next binade at most.
    have hn : halfEven n (shiftOf n) ≤ 2 ^ 53 := by
      have hle := halfEven_le n (shiftOf n)
      have hq := (div_shiftOf n).2
      omega
    have hm : 2 ^ 52 ≤ halfEven m (shiftOf m) := by
      rcases (div_shiftOf m).1 with hzero | hq
      · omega
      · exact hq.trans (le_halfEven m (shiftOf m))
    calc halfEven n (shiftOf n) * 2 ^ shiftOf n ≤ 2 ^ 53 * 2 ^ shiftOf n :=
          Nat.mul_le_mul_right _ hn
      _ = 2 ^ 52 * 2 ^ (shiftOf n + 1) := by ring
      _ ≤ 2 ^ 52 * 2 ^ shiftOf m :=
          Nat.mul_le_mul_left _ (Nat.pow_le_pow_right (by decide) hlt)
      _ ≤ halfEven m (shiftOf m) * 2 ^ shiftOf m := Nat.mul_le_mul_right _ hm
  · rw [heq]
    exact Nat.mul_le_mul_right _ (halfEven_mono _ h)

end Binary64
