import LoraDb.Softfloat

/-!
# Integer Functions of `math`

`math.min`, `math.max` and `math.round` take integers through floats and back, so they are exact
where the float is; `math.gcd` casts from the unsigned range, which holds one divisor more than the
signed one. `math.abs`, `math.ceil`, `math.floor`, `math.trunc`, `math.lcm` and `math.clamp` have
ways of their own for integers.

## Main results

* `minMax_ints`: among integers, the best one comes back as its float cast back.
* `round_int`: an integer is rounded to the nearest float, one more where that is odd and a half is
  as wide as the last bit.
* `integers_exact_iff`: the arguments on which all the functions are exact.
-/

namespace LoraDb

open Binary64 List

namespace F64

/-- `f > g` -/
def gt (f g : F64) : Bool := f.partialCmp g == some .gt

/-- 2^63, the first float past the integers. -/
def INTEGERS_END : F64 := ⟨0x43E0000000000000⟩

/-- A float cast to an integer, if it lies among them. -/
def toI64 (f : F64) : Option Int64 :=
  if f.isFinite && f.ge (ofInt Int64.minValue) && f.lt INTEGERS_END then some f.castI64 else none

/-- `base.powi(exponent)` -/
def powi (base : F64) (exponent : ℤ) : F64 :=
  let power := (replicate exponent.natAbs base).foldl times ONE_FLOAT
  if exponent < 0 then ONE_FLOAT.divBy power else power

/-- `x.clamp(lo, hi)` -/
def clamp (x lo hi : F64) : F64 :=
  let x := if x.lt lo then lo else x
  if x.gt hi then hi else x

end F64

namespace MathNs

def arg (args : List LoraValue) (i : ℕ) : Option LoraValue := args[i]?

/-! ### Minimum and maximum -/

/-- The better one of the best so far and a candidate. -/
def pick (pickRhs : F64 → F64 → Bool) (best : Option F64) (n : F64) : Option F64 :=
  if best.all (fun current => pickRhs current n) then some n else best

/-- Folds numbers into the best one and whether all were integers. -/
def minMaxLoop (pickRhs : F64 → F64 → Bool) :
    Option F64 → Bool → List LoraValue → Option (Option F64 × Bool)
  | best, allInts, [] => some (best, allInts)
  | best, allInts, .int n :: args => minMaxLoop pickRhs (pick pickRhs best (.ofInt n)) allInts args
  | best, _, .float n :: args =>
    if n.isFinite then minMaxLoop pickRhs (pick pickRhs best n) false args else none
  | _, _, _ :: _ => none

def minMax (pickRhs : F64 → F64 → Bool) (args : List LoraValue) : LoraValue :=
  match minMaxLoop pickRhs none true args with
  | some (some n, true) => .int n.castI64
  | some (some n, false) => .float n
  | _ => .null

def min (args : List LoraValue) : LoraValue :=
  minMax (fun current candidate => candidate.lt current) args

def max (args : List LoraValue) : LoraValue :=
  minMax (fun current candidate => candidate.gt current) args

/-! ### Absolute values and rounding -/

def abs (args : List LoraValue) : LoraValue :=
  match arg args 0 with
  | some (.int i) => if i = Int64.minValue then .null else .int i.abs
  | some (.float f) => .float f.abs
  | _ => .null

/-- Rounds a float to an integer, and leaves integers. -/
def whole (op : F64 → F64) (args : List LoraValue) : LoraValue :=
  match arg args 0 with
  | some (.float f) => (op f).toI64.elim .null .int
  | some (.int i) => .int i
  | _ => .null

def ceil (args : List LoraValue) : LoraValue := whole F64.ceil args

def floor (args : List LoraValue) : LoraValue := whole F64.floor args

def trunc (args : List LoraValue) : LoraValue := whole F64.truncate args

/-- A number of units rounded in a mode; `none` for an unknown one. -/
def roundIn (mode : String) (scaled : F64) : Option F64 :=
  match mode with
  | "ceil" => some scaled.ceil
  | "floor" => some scaled.floor
  | "trunc" => some scaled.truncate
  | "half_up" =>
    some (if scaled.ge (.ofInt 0) then (scaled.plus .HALF).floor
      else (scaled.neg.plus .HALF).floor.neg)
  | "half_even" => some scaled.roundTiesEven
  | _ => none

/-- A rounded number, as an integer when no digits were asked for. -/
def rounded (digitsArg : Option Int64) (result : F64) : LoraValue :=
  match digitsArg with
  | none => result.toI64.elim (.float result) .int
  | some _ => .float result

def round (args : List LoraValue) : LoraValue :=
  match (arg args 0).bind LoraValue.asF64 with
  | none => .null
  | some n =>
    let digitsArg := (arg args 1).bind LoraValue.asI64
    let mode := match arg args 2 with
      | some (.string s) => s.toLower
      | _ => "half_up"
    let digits := Max.max (-400) (Min.min 400 (digitsArg.getD 0).toInt)
    let scale := F64.powi (.ofInt 10) digits
    let scaled := n.times scale
    if n.isFinite && (!scaled.isFinite || scale.eq (.ofInt 0)) then
      rounded digitsArg (if scale.eq (.ofInt 0) then .ofInt 0 else n)
    else
      match roundIn mode scaled with
      | none => .null
      | some r => rounded digitsArg (r.divBy scale)

/-! ### Divisors and multiples -/

def gcdI (a b : ℕ) : ℕ :=
  if b = 0 then a else gcdI b (a % b)
termination_by b
decreasing_by exact Nat.mod_lt a (Nat.pos_of_ne_zero (by assumption))

def gcd (args : List LoraValue) : LoraValue :=
  match (arg args 0).bind LoraValue.asI64, (arg args 1).bind LoraValue.asI64 with
  | some a, some b => .int (.ofNat (gcdI a.toInt.natAbs b.toInt.natAbs))
  | _, _ => .null

def lcm (args : List LoraValue) : LoraValue :=
  match (arg args 0).bind LoraValue.asI64, (arg args 1).bind LoraValue.asI64 with
  | some a, some b =>
    if a = 0 ∨ b = 0 then .int 0
    else
      let g := gcdI a.toInt.natAbs b.toInt.natAbs
      if g = 0 then .null
      else
        let product := a.toInt.natAbs / g * b.toInt.natAbs
        if 2 ^ 128 ≤ product then .null
        else if Int64.maxValue.toInt < product then .null
        else .int (.ofNat product)
  | _, _ => .null

/-! ### Clamping -/

def clampAbove (lo hi : String) : String :=
  "math.clamp lower bound " ++ lo ++ " is above upper bound " ++ hi

/-- `display` is how a float is printed. -/
def clamp (display : F64 → String) (args : List LoraValue) : EvalM LoraValue :=
  match (arg args 0).bind LoraValue.asF64, (arg args 1).bind LoraValue.asF64,
    (arg args 2).bind LoraValue.asF64 with
  | some x, some lo, some hi =>
    match arg args 0, arg args 1, arg args 2 with
    | some (.int x), some (.int lo), some (.int hi) =>
      if hi < lo then (.null, some (clampAbove (toString lo) (toString hi)))
      else pure (.int (if x < lo then lo else if hi < x then hi else x))
    | _, _, _ =>
      if lo.isNaN || hi.isNaN then (.null, some "math.clamp bounds must not be NaN")
      else if lo.gt hi then (.null, some (clampAbove (display lo) (display hi)))
      else pure (.float (x.clamp lo hi))
  | _, _, _ => pure .null

/-! ### Exactness -/

/-- The integer is among the floats. -/
def IsFloat (x : Int64) : Prop := 2 ^ shiftOf x.toInt.natAbs ∣ x.toInt.natAbs

instance (x : Int64) : Decidable (IsFloat x) :=
  inferInstanceAs (Decidable (2 ^ shiftOf x.toInt.natAbs ∣ x.toInt.natAbs))

/-- The **smallest** of some integers. -/
def Smallest (xs : List Int64) (m : Int64) : Prop := m ∈ xs ∧ ∀ x ∈ xs, m.toInt ≤ x.toInt

/-- The **largest** of some integers. -/
def Largest (xs : List Int64) (m : Int64) : Prop := m ∈ xs ∧ ∀ x ∈ xs, x.toInt ≤ m.toInt

theorem gcdI_eq (a b : ℕ) : gcdI a b = a.gcd b := by
  fun_induction gcdI a b with
  | case1 a => exact (Nat.gcd_zero_right a).symm
  | case2 a b hb ih => rw [ih, Nat.gcd_comm b, ← Nat.gcd_rec, Nat.gcd_comm]

end MathNs

namespace F64

variable {f : F64} {negative : Bool} {c : ℕ}

theorem scaled_min : (ofInt Int64.minValue).scaled = -2 ^ 63 * ONE := by
  rw [(ofInt_whole Int64.minValue).scaled_eq]
  have hnearest : nearest Int64.minValue.toInt.natAbs = 2 ^ 63 := nearest_two_pow_63
  rw [hnearest, if_pos (by decide)]
  norm_num

theorem scaled_end : INTEGERS_END.scaled = 2 ^ 63 * ONE := by
  have hwhole : INTEGERS_END.IsWhole false (2 ^ 63) :=
    ⟨by decide, by decide +kernel, by decide⟩
  rw [hwhole.scaled_eq]
  norm_num

theorem ge_iff {g : F64} (hf : f.isNaN = false) (hg : g.isNaN = false) :
    f.ge g = true ↔ g.scaled ≤ f.scaled := by
  rw [ge, partialCmp, hf, hg]
  simp [Ordering.isGE_iff_ne_lt, compare_lt_iff_lt]

theorem lt_iff {g : F64} (hf : f.isNaN = false) (hg : g.isNaN = false) :
    f.lt g = true ↔ f.scaled < g.scaled := by
  rw [lt, partialCmp, hf, hg]
  simp [compare_lt_iff_lt]

theorem gt_iff {g : F64} (hf : f.isNaN = false) (hg : g.isNaN = false) :
    f.gt g = true ↔ g.scaled < f.scaled := by
  rw [gt, partialCmp, hf, hg]
  simp [compare_gt_iff_gt]

namespace IsWhole

/-- A whole number cast to an integer. -/
theorem castI64_eq (h : f.IsWhole negative c) : f.castI64 =
    .ofInt (max (-2 ^ 63) (min (2 ^ 63 - 1) (if negative then -(c : ℤ) else c))) := by
  rw [castI64, if_neg (by rw [h.notNaN]; exact Bool.false_ne_true), h.trunc_eq]

theorem toI64_eq (h : f.IsWhole negative c) : f.toI64 =
    if -2 ^ 63 ≤ (if negative then -(c : ℤ) else c) ∧ (if negative then -(c : ℤ) else c) < 2 ^ 63
    then some (.ofInt (if negative then -(c : ℤ) else c)) else none := by
  obtain ⟨v, hv⟩ : ∃ v, (if negative then -(c : ℤ) else c) = v := ⟨_, rfl⟩
  have hge : f.ge (ofInt Int64.minValue) = decide (-2 ^ 63 ≤ v) := by
    rw [Bool.eq_iff_iff, ge_iff h.notNaN isNaN_ofInt, scaled_min, h.scaled_eq, hv,
      decide_eq_true_iff]
    exact Int.mul_le_mul_right F64.ONE_pos
  have hlt : f.lt INTEGERS_END = decide (v < 2 ^ 63) := by
    rw [Bool.eq_iff_iff, lt_iff h.notNaN (by decide), scaled_end, h.scaled_eq, hv,
      decide_eq_true_iff]
    exact Int.mul_lt_mul_right F64.ONE_pos
  rw [toI64, h.finite, hge, hlt, h.castI64_eq, hv]
  by_cases hin : -2 ^ 63 ≤ v ∧ v < 2 ^ 63
  · rw [if_pos hin, if_pos (by simpa using hin), min_eq_right (by omega), max_eq_right hin.1]
  · rw [if_neg hin, if_neg (by simpa using hin)]

end IsWhole

/-- An integer comes back from its float exactly when it is one, or the largest. -/
theorem castI64_ofInt (x : Int64) :
    (ofInt x).castI64 = x ↔ MathNs.IsFloat x ∨ x = Int64.maxValue := by
  obtain ⟨c, hc⟩ : ∃ c, nearest x.toInt.natAbs = c := ⟨_, rfl⟩
  have hlow : -2 ^ 63 ≤ x.toInt := x.le_toInt
  have hhigh : x.toInt < 2 ^ 63 := x.toInt_lt
  have hbound : c ≤ 2 ^ 63 := hc ▸ (nearest_mono (F64.natAbs_le x)).trans nearest_two_pow_63.le
  have hmax : x.toInt = 2 ^ 63 - 1 → c = 2 ^ 63 := by
    intro hx
    rw [← hc, hx]
    decide +kernel
  rw [MathNs.IsFloat, ← nearest_eq_iff, (ofInt_whole x).castI64_eq, hc, ← Int64.toInt_inj,
    ← Int64.toInt_inj, Int64.toInt_ofInt_of_le (le_max_left _ _) (by omega),
    show Int64.maxValue.toInt = 2 ^ 63 - 1 from rfl]
  by_cases hneg : x.toInt < 0
  · rw [if_pos (decide_eq_true hneg)]
    omega
  · rw [if_neg (by simpa using hneg)]
    omega

end F64

namespace MathNs

variable {xs : List Int64} {m x : Int64}

/-- The best of integers is one whose float no other's is better than. -/
theorem minMaxLoop_ints {pickRhs : F64 → F64 → Bool} {key : F64 → ℤ}
    (hpick : ∀ x y, pickRhs (.ofInt x) (.ofInt y) = true ↔ key (.ofInt y) < key (.ofInt x))
    (b : Int64) (xs : List Int64) : ∃ m ∈ b :: xs,
    (∀ x ∈ b :: xs, key (.ofInt m) ≤ key (.ofInt x)) ∧
      minMaxLoop pickRhs (some (.ofInt b)) true (xs.map .int) = some (some (.ofInt m), true) := by
  induction xs generalizing b with
  | nil => exact ⟨b, mem_singleton_self b, by simp, rfl⟩
  | cons y xs ih =>
    by_cases hbetter : pickRhs (.ofInt b) (.ofInt y) = true
    · obtain ⟨m, hm, hleast, hloop⟩ := ih y
      have hlt := (hpick b y).mp hbetter
      refine ⟨m, mem_cons_of_mem b hm, ?_, ?_⟩
      · rintro x (_ | ⟨_, hx⟩)
        · exact (hleast y mem_cons_self).trans hlt.le
        · exact hleast x hx
      · rw [map_cons, minMaxLoop, pick, Option.all_some, if_pos hbetter, hloop]
    · obtain ⟨m, hm, hleast, hloop⟩ := ih b
      have hle : key (.ofInt b) ≤ key (.ofInt y) := not_lt.mp (mt (hpick b y).mpr hbetter)
      have hb := hleast b mem_cons_self
      refine ⟨m, ?_, ?_, ?_⟩
      · rcases List.mem_cons.mp hm with rfl | hm
        · exact mem_cons_self
        · exact mem_cons_of_mem b (mem_cons_of_mem y hm)
      · rintro x (_ | ⟨_, _ | ⟨_, hx⟩⟩)
        · exact hb
        · exact hb.trans hle
        · exact hleast x (mem_cons_of_mem b hx)
      · rw [map_cons, minMaxLoop, pick, Option.all_some, if_neg hbetter, hloop]

theorem castI64_congr {f g : F64} (hf : f.isNaN = false) (hg : g.isNaN = false)
    (h : f.scaled = g.scaled) : f.castI64 = g.castI64 := by
  rw [F64.castI64, F64.castI64, hf, hg, F64.trunc, F64.trunc, h]

/-- Among integers, the best comes back as its float cast back. -/
theorem minMax_ints {pickRhs : F64 → F64 → Bool} {key : F64 → ℤ}
    (hpick : ∀ x y, pickRhs (.ofInt x) (.ofInt y) = true ↔ key (.ofInt y) < key (.ofInt x))
    (hkey : ∀ f g : F64, key f = key g → f.scaled = g.scaled)
    (hm : m ∈ xs) (hbest : ∀ x ∈ xs, key (.ofInt m) ≤ key (.ofInt x)) :
    minMax pickRhs (xs.map .int) = .int (F64.ofInt m).castI64 := by
  cases xs with
  | nil => exact absurd hm not_mem_nil
  | cons b xs =>
    obtain ⟨k, hk, hleast, hloop⟩ := minMaxLoop_ints hpick b xs
    have hstart : minMaxLoop pickRhs none true ((b :: xs).map .int) =
        some (some (.ofInt k), true) := hloop
    have hsame : key (.ofInt k) = key (.ofInt m) := le_antisymm (hleast m hm) (hbest k hk)
    rw [minMax, hstart]
    exact congrArg LoraValue.int
      (castI64_congr F64.isNaN_ofInt F64.isNaN_ofInt (hkey _ _ hsame))

theorem min_ints (hm : Smallest xs m) : min (xs.map .int) = .int (F64.ofInt m).castI64 :=
  minMax_ints (fun _ _ => F64.lt_iff F64.isNaN_ofInt F64.isNaN_ofInt) (fun _ _ h => h) hm.1
    fun x hx => F64.ofInt_mono (hm.2 x hx)

theorem max_ints (hm : Largest xs m) : max (xs.map .int) = .int (F64.ofInt m).castI64 := by
  refine @minMax_ints xs m _ (fun f => -f.scaled) ?_ (fun _ _ => Int.neg_inj.mp) hm.1 ?_
  · intro x y
    rw [F64.gt_iff F64.isNaN_ofInt F64.isNaN_ofInt, Int.neg_lt_neg_iff]
  · exact fun x hx => Int.neg_le_neg (F64.ofInt_mono (hm.2 x hx))

/-! ### Rounding -/

/-- The whole number an integer's magnitude is rounded to. -/
def halfUp (n : ℕ) : ℕ :=
  if 2 ^ 52 < nearest n ∧ nearest n < 2 ^ 53 ∧ nearest n % 2 = 1 then nearest n + 1 else nearest n

theorem roundIn_halfUp (x : Int64) : ∃ r, roundIn "half_up" (.ofInt x) = some r ∧
    r.IsWhole (decide (x.toInt < 0)) (halfUp x.toInt.natAbs) := by
  have hwhole := F64.ofInt_whole x
  have hzero : (F64.ofInt 0).scaled = 0 := by decide +kernel
  refine ⟨_, rfl, ?_⟩
  by_cases hneg : x.toInt < 0
  · rw [decide_eq_true hneg] at hwhole ⊢
    have hpos : 1 ≤ nearest x.toInt.natAbs :=
      (nearest_of_lt (by decide)).ge.trans (nearest_mono (show 1 ≤ x.toInt.natAbs by omega))
    have hge : ¬ (F64.ofInt x).ge (.ofInt 0) = true := by
      rw [F64.ge_iff hwhole.notNaN F64.isNaN_ofInt, hzero, hwhole.scaled_eq, if_pos rfl, not_le]
      exact Int.mul_neg_of_neg_of_pos (by omega) F64.ONE_pos
    rw [if_neg hge]
    exact (F64.half_up_whole hwhole.neg_spec).neg_spec
  · rw [decide_eq_false hneg] at hwhole ⊢
    have hge : (F64.ofInt x).ge (.ofInt 0) = true := by
      rw [F64.ge_iff hwhole.notNaN F64.isNaN_ofInt, hzero, hwhole.scaled_eq,
        if_neg Bool.false_ne_true]
      exact Int.mul_nonneg (Int.natCast_nonneg _) F64.ONE_pos.le
    rw [if_pos hge]
    exact F64.half_up_whole hwhole

theorem halfUp_le {n : ℕ} (h : n ≤ 2 ^ 63) : halfUp n ≤ 2 ^ 63 := by
  have hle : nearest n ≤ 2 ^ 63 := (nearest_mono h).trans nearest_two_pow_63.le
  rw [halfUp]
  split <;> omega

/-- An integer is rounded as its magnitude is; past the integers the float stays. -/
theorem round_int (x : Int64) : ∃ r, round [.int x] =
    if (if x.toInt < 0 then -(halfUp x.toInt.natAbs : ℤ) else halfUp x.toInt.natAbs) < 2 ^ 63
    then .int (.ofInt (if x.toInt < 0 then -(halfUp x.toInt.natAbs : ℤ) else
      halfUp x.toInt.natAbs))
    else .float r := by
  obtain ⟨r, hr, hwhole⟩ := roundIn_halfUp x
  have hn := F64.ofInt_whole x
  have hle := halfUp_le (F64.natAbs_le x)
  have hscale : F64.powi (.ofInt 10) 0 = .ONE_FLOAT := rfl
  have hone : F64.ONE_FLOAT.eq (.ofInt 0) = false := by decide +kernel
  refine ⟨r, ?_⟩
  have hround : round [.int x] = rounded none r := by
    change (if (F64.ofInt x).isFinite &&
      (!((F64.ofInt x).times (F64.powi (.ofInt 10) 0)).isFinite ||
      (F64.powi (.ofInt 10) 0).eq (.ofInt 0)) then _ else
      match roundIn "half_up" ((F64.ofInt x).times (F64.powi (.ofInt 10) 0)) with
      | none => LoraValue.null
      | some r => rounded none (r.divBy (F64.powi (.ofInt 10) 0))) = _
    rw [hscale, F64.times_one hn, hn.finite, hone, hr, if_neg (by decide)]
    exact congrArg (rounded none) (F64.divBy_one hwhole)
  rw [hround, rounded, hwhole.toI64_eq]
  simp only [decide_eq_true_eq]
  obtain ⟨v, hv⟩ : ∃ v, (if x.toInt < 0 then -(halfUp x.toInt.natAbs : ℤ) else
    halfUp x.toInt.natAbs) = v := ⟨_, rfl⟩
  have hlow : -2 ^ 63 ≤ v := by
    rw [← hv]
    split <;> omega
  rw [hv]
  by_cases hhigh : v < 2 ^ 63
  · rw [if_pos ⟨hlow, hhigh⟩, if_pos hhigh, Option.elim_some]
  · rw [if_neg (fun h => hhigh h.2), if_neg hhigh, Option.elim_none]

/-- The integers that `round` leaves. -/
def RoundKeeps (x : Int64) : Prop :=
  IsFloat x ∧ ¬ (2 ^ 52 < x.toInt.natAbs ∧ x.toInt.natAbs < 2 ^ 53 ∧ x.toInt.natAbs % 2 = 1)

/-- Past 2 ^ 53 floats are even apart: a half is rounded off. -/
theorem halfUp_eq_iff {n : ℕ} : halfUp n = n ↔
    2 ^ shiftOf n ∣ n ∧ ¬ (2 ^ 52 < n ∧ n < 2 ^ 53 ∧ n % 2 = 1) := by
  rw [← nearest_eq_iff]
  rcases Nat.lt_or_ge n (2 ^ 53) with hsmall | hlarge
  · rw [halfUp, nearest_of_lt hsmall]
    split <;> omega
  · have hge : 2 ^ 53 ≤ nearest n :=
      (@nearest_of_dvd (2 ^ 53) (by decide)).ge.trans (nearest_mono hlarge)
    rw [halfUp, if_neg (by omega)]
    omega

theorem round_int_iff (x : Int64) : round [.int x] = .int x ↔ RoundKeeps x := by
  obtain ⟨r, hr⟩ := round_int x
  obtain ⟨k, hk⟩ : ∃ k, halfUp x.toInt.natAbs = k := ⟨_, rfl⟩
  have hle := halfUp_le (F64.natAbs_le x)
  have hlow : -2 ^ 63 ≤ x.toInt := x.le_toInt
  have hhigh : x.toInt < 2 ^ 63 := x.toInt_lt
  rw [RoundKeeps, IsFloat, ← halfUp_eq_iff, hr, hk]
  rw [hk] at hle
  obtain ⟨v, hv⟩ : ∃ v, (if x.toInt < 0 then -(k : ℤ) else k) = v := ⟨_, rfl⟩
  have hvx : v = x.toInt ↔ k = x.toInt.natAbs := by
    rw [← hv]
    split <;> omega
  rw [hv]
  by_cases hin : v < 2 ^ 63
  · have hvlow : -2 ^ 63 ≤ v := by
      rw [← hv]
      split <;> omega
    rw [if_pos hin, LoraValue.int.injEq, ← Int64.toInt_inj, Int64.toInt_ofInt_of_le hvlow hin, hvx]
  · rw [if_neg hin]
    refine ⟨fun h => (nomatch h), fun h => ?_⟩
    have hsame := hvx.mpr h
    omega

/-! ### Absolute values, divisors and multiples -/

/-- A result is the number, where that is an integer, and null elsewhere. -/
def FitsOrNull (result : LoraValue) (n : ℕ) : Prop :=
  result = if n < 2 ^ 63 then .int (.ofNat n) else .null

theorem abs_int (x : Int64) : FitsOrNull (abs [.int x]) x.toInt.natAbs := by
  have hlow : -2 ^ 63 ≤ x.toInt := x.le_toInt
  have hhigh : x.toInt < 2 ^ 63 := x.toInt_lt
  have habs : abs [.int x] = if x = Int64.minValue then .null else .int x.abs := rfl
  rw [FitsOrNull, habs]
  by_cases hmin : x = Int64.minValue
  · rw [if_pos hmin, if_neg]
    rw [hmin]
    decide
  · have hne : x.toInt ≠ -2 ^ 63 := fun h => hmin (Int64.toInt_inj.mp h)
    have hlt : x.toInt.natAbs < 2 ^ 63 := by omega
    have hbits : x.toBitVec ≠ BitVec.intMin 64 := fun h => hmin (Int64.toBitVec_inj.mp h)
    rw [if_neg hmin, if_pos hlt, LoraValue.int.injEq, ← Int64.toInt_inj,
      Int64.toInt_ofNat_of_lt hlt, ← Int64.toInt_toBitVec, Int64.toBitVec_abs,
      BitVec.toInt_abs_eq_natAbs_of_ne_intMin hbits, Int64.toInt_toBitVec]

/-- Each of two integers is zero or the **least**, and not both are zero. -/
def LeastOrZero (a b : Int64) : Prop :=
  (a = 0 ∨ a = Int64.minValue) ∧ (b = 0 ∨ b = Int64.minValue) ∧ ¬ (a = 0 ∧ b = 0)

theorem natAbs_eq_zero_iff : x.toInt.natAbs = 0 ↔ x = 0 := by
  rw [Int.natAbs_eq_zero, ← Int64.toInt_inj]
  rfl

theorem natAbs_eq_min_iff : x.toInt.natAbs = 2 ^ 63 ↔ x = Int64.minValue := by
  have hhigh : x.toInt < 2 ^ 63 := x.toInt_lt
  rw [← Int64.toInt_inj, show Int64.minValue.toInt = -2 ^ 63 from rfl]
  omega

/-- A divisor past the integers divides the least one and zero only. -/
theorem gcd_ge_iff (a b : Int64) :
    2 ^ 63 ≤ a.toInt.natAbs.gcd b.toInt.natAbs ↔ LeastOrZero a b := by
  have hbound : ∀ {x : Int64} {d : ℕ}, d ∣ x.toInt.natAbs → 2 ^ 63 ≤ d →
      x = 0 ∨ x = Int64.minValue := by
    intro x d hdvd hd
    rcases Nat.eq_zero_or_pos x.toInt.natAbs with hzero | hpos
    · exact Or.inl (natAbs_eq_zero_iff.1 hzero)
    · exact Or.inr (natAbs_eq_min_iff.1
        ((F64.natAbs_le x).antisymm (hd.trans (Nat.le_of_dvd hpos hdvd))))
  constructor
  · intro hge
    refine ⟨hbound (Nat.gcd_dvd_left _ _) hge, hbound (Nat.gcd_dvd_right _ _) hge, ?_⟩
    rintro ⟨rfl, rfl⟩
    exact absurd hge (by decide)
  · rintro ⟨rfl | rfl, rfl | rfl, hne⟩
    · exact absurd ⟨rfl, rfl⟩ hne
    all_goals decide +kernel

theorem gcd_int_iff (a b : Int64) :
    FitsOrNull (gcd [.int a, .int b]) (a.toInt.natAbs.gcd b.toInt.natAbs) ↔ ¬ LeastOrZero a b := by
  have hgcd : gcd [.int a, .int b] = .int (.ofNat (gcdI a.toInt.natAbs b.toInt.natAbs)) := rfl
  rw [FitsOrNull, hgcd, gcdI_eq, ← gcd_ge_iff, not_le]
  by_cases hlt : a.toInt.natAbs.gcd b.toInt.natAbs < 2 ^ 63
  · rw [if_pos hlt]
    exact ⟨fun _ => hlt, fun _ => rfl⟩
  · rw [if_neg hlt]
    exact ⟨fun h => (nomatch h), fun h => absurd h hlt⟩

theorem lcm_int (a b : Int64) :
    FitsOrNull (lcm [.int a, .int b]) (a.toInt.natAbs.lcm b.toInt.natAbs) := by
  have hlcm : lcm [.int a, .int b] = if a = 0 ∨ b = 0 then .int 0 else
    if gcdI a.toInt.natAbs b.toInt.natAbs = 0 then .null else
    if 2 ^ 128 ≤ a.toInt.natAbs / gcdI a.toInt.natAbs b.toInt.natAbs * b.toInt.natAbs then .null
    else if Int64.maxValue.toInt <
      (a.toInt.natAbs / gcdI a.toInt.natAbs b.toInt.natAbs * b.toInt.natAbs : ℕ) then .null
    else .int (.ofNat (a.toInt.natAbs / gcdI a.toInt.natAbs b.toInt.natAbs * b.toInt.natAbs)) :=
    rfl
  rw [FitsOrNull, hlcm, gcdI_eq]
  by_cases hzero : a = 0 ∨ b = 0
  · have hnull : a.toInt.natAbs.lcm b.toInt.natAbs = 0 := by
      rcases hzero with rfl | rfl
      · exact Nat.lcm_zero_left _
      · exact Nat.lcm_zero_right _
    rw [if_pos hzero, hnull, if_pos (by decide)]
    rfl
  · have ha : a.toInt.natAbs ≠ 0 := fun h => hzero (Or.inl (natAbs_eq_zero_iff.1 h))
    have hproduct : a.toInt.natAbs / a.toInt.natAbs.gcd b.toInt.natAbs * b.toInt.natAbs =
        a.toInt.natAbs.lcm b.toInt.natAbs := by
      rw [Nat.lcm, Nat.div_mul_right_comm (Nat.gcd_dvd_left _ _)]
    have hgcd : a.toInt.natAbs.gcd b.toInt.natAbs ≠ 0 := by
      rw [Ne, Nat.gcd_eq_zero_iff]
      exact fun h => ha h.1
    rw [if_neg hzero, if_neg hgcd, hproduct]
    obtain ⟨n, hn⟩ : ∃ n, a.toInt.natAbs.lcm b.toInt.natAbs = n := ⟨_, rfl⟩
    have hmax : Int64.maxValue.toInt = 2 ^ 63 - 1 := rfl
    rw [hn, hmax]
    by_cases hlt : n < 2 ^ 63
    · rw [if_pos hlt, if_neg (by omega), if_neg (by omega)]
    · rw [if_neg hlt]
      split
      · rfl
      · rw [if_pos (by omega)]

/-! ### Clamping of integers -/

theorem clamp_int (display : F64 → String) {x lo hi : Int64} (h : lo.toInt ≤ hi.toInt) :
    ∃ y : Int64, y.toInt = Max.max lo.toInt (Min.min x.toInt hi.toInt) ∧
      clamp display [.int x, .int lo, .int hi] = pure (.int y) := by
  have hclamp : clamp display [.int x, .int lo, .int hi] =
    if hi < lo then (LoraValue.null, some (clampAbove (toString lo) (toString hi)))
    else (LoraValue.int (if x < lo then lo else if hi < x then hi else x), none) := rfl
  refine ⟨if x < lo then lo else if hi < x then hi else x, ?_, ?_⟩
  · simp only [Int64.lt_iff_toInt_lt]
    split
    · omega
    · split <;> omega
  · rw [hclamp, if_neg (by rw [Int64.lt_iff_toInt_lt]; omega)]
    rfl

/-! ### All of them -/

/-- The functions are **exact** on integers. -/
structure Exact (display : F64 → String) (xs : List Int64) (x a b lo hi : Int64) : Prop where
  min : ∀ m, Smallest xs m → min (xs.map .int) = .int m
  max : ∀ m, Largest xs m → max (xs.map .int) = .int m
  round : round [.int x] = .int x
  ceil : ceil [.int x] = .int x
  floor : floor [.int x] = .int x
  trunc : trunc [.int x] = .int x
  abs : FitsOrNull (abs [.int x]) x.toInt.natAbs
  gcd : FitsOrNull (gcd [.int a, .int b]) (a.toInt.natAbs.gcd b.toInt.natAbs)
  lcm : FitsOrNull (lcm [.int a, .int b]) (a.toInt.natAbs.lcm b.toInt.natAbs)
  clamp : lo.toInt ≤ hi.toInt → ∃ y : Int64, y.toInt = Max.max lo.toInt (Min.min x.toInt hi.toInt) ∧
      clamp display [.int x, .int lo, .int hi] = pure (.int y)

/-- The integers **survive** the ways of `min`, `max`, `round` and `gcd`. -/
structure Survives (xs : List Int64) (x a b : Int64) : Prop where
  smallest : ∀ m, Smallest xs m → IsFloat m ∨ m = Int64.maxValue
  largest : ∀ m, Largest xs m → IsFloat m ∨ m = Int64.maxValue
  rounded : RoundKeeps x
  divisor : ¬ LeastOrZero a b

/-- **Integers stay exact** exactly if they survive: the smallest and the largest through a float,
the rounded one through its ways, and the least number no `gcd` with itself or zero. -/
theorem integers_exact_iff (display : F64 → String) (xs : List Int64) (x a b lo hi : Int64) :
    Exact display xs x a b lo hi ↔ Survives xs x a b := by
  have hcast : ∀ {result : LoraValue} {m : Int64}, result = .int (F64.ofInt m).castI64 →
      (result = .int m ↔ IsFloat m ∨ m = Int64.maxValue) := by
    intro result m h
    rw [h, LoraValue.int.injEq, F64.castI64_ofInt]
  constructor
  · intro h
    exact
      { smallest := fun m hm => (hcast (min_ints hm)).mp (h.min m hm)
        largest := fun m hm => (hcast (max_ints hm)).mp (h.max m hm)
        rounded := (round_int_iff x).mp h.round
        divisor := (gcd_int_iff a b).mp h.gcd }
  · intro h
    exact
      { min := fun m hm => (hcast (min_ints hm)).mpr (h.smallest m hm)
        max := fun m hm => (hcast (max_ints hm)).mpr (h.largest m hm)
        round := (round_int_iff x).mpr h.rounded
        ceil := rfl
        floor := rfl
        trunc := rfl
        abs := abs_int x
        gcd := (gcd_int_iff a b).mpr h.divisor
        lcm := lcm_int a b
        clamp := clamp_int display }

/-- The integer after 2 ^ 53 comes out of `min` smaller. -/
theorem min_lost : ¬ ∀ xs x a b lo hi, Exact (fun _ => "") xs x a b lo hi := by
  intro h
  have hsmallest : Smallest [9007199254740993] 9007199254740993 :=
    ⟨mem_singleton_self _, fun x hx => by rw [List.mem_singleton.mp hx]⟩
  have hmin := (h [9007199254740993] 0 1 1 0 0).min _ hsmallest
  rw [min_ints hsmallest, LoraValue.int.injEq, F64.castI64_ofInt] at hmin
  revert hmin
  decide +kernel

end MathNs

end LoraDb
