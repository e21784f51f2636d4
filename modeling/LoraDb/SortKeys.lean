import LoraDb.ValueCompare
import Mathlib.Data.List.Sort

/-!
# The Sort Comparator

`compareValuesTotal` orders rows, and picks minima and maxima: kinds by rank, values of a kind
by value or by how they print. Between an integer and a float it goes through the nearest
float, and a NaN ties with every number; so it is an order of some columns only.

How a value and a float print (`{:?}`) is left to `Rendering`: nothing below depends on it.

## Main results

* `OrderlyColumn.keyed`: on an orderly column the comparator compares by a key.
-/

open Classical Comparing

namespace LoraDb

/-- How values print for debugging. -/
structure Rendering where
  value : LoraValue → String
  float : F64 → String

def VectorValues.coordinateType : VectorValues → String
  | .float64 _ => "FLOAT64"
  | .float32 _ => "FLOAT32"
  | .integer64 _ => "INTEGER"
  | .integer32 _ => "INTEGER32"
  | .integer16 _ => "INTEGER16"
  | .integer8 _ => "INTEGER8"

def VectorValues.asF64Vec : VectorValues → List F64
  | .float64 values => values
  | .float32 values => values.map F32.toF64
  | .integer64 values => values.map F64.ofInt
  | .integer32 values => values.map fun v => .ofInt v.toInt64
  | .integer16 values => values.map fun v => .ofInt v.toInt64
  | .integer8 values => values.map fun v => .ofInt v.toInt64

/-- The text a vector is sorted and grouped by. -/
def LoraVector.toKeyString (r : Rendering) (v : LoraVector) : String :=
  v.values.coordinateType ++ "|" ++ toString v.dimension ++ "|" ++
    ",".intercalate (v.values.asF64Vec.map r.float)

namespace LoraValue

/-- The position of a kind; numbers are one. -/
def typeRank : LoraValue → ℕ
  | .null => 0
  | .bool _ => 1
  | .int _ | .float _ => 2
  | .string _ => 3
  | .binary _ => 4
  | .date _ => 5
  | .dateTime _ => 6
  | .localDateTime _ => 7
  | .time _ => 8
  | .localTime _ => 9
  | .duration _ => 10
  | .point _ => 11
  | .vector _ => 12
  | .list _ => 13
  | .map _ => 14
  | .node _ => 15
  | .relationship _ => 16
  | .path _ => 17

end LoraValue

/-- Segments, each as its bytes. -/
def LoraBinary.digits (v : LoraBinary) : List (List ℕ) := v.segments.map (·.map UInt8.toNat)

variable (r : Rendering)

/-- The order of rows: a NaN ties with every number. -/
def compareValuesTotal (a b : LoraValue) : Ordering :=
  match a, b with
  | .bool x, .bool y => compare x y
  | .int x, .int y => compare x.toInt y.toInt
  | .float x, .float y => (x.partialCmp y).getD .eq
  | .int x, .float y => ((F64.ofInt x).partialCmp y).getD .eq
  | .float x, .int y => (x.partialCmp (.ofInt y)).getD .eq
  | .string x, .string y => compare x y
  | .binary x, .binary y => compare x.digits y.digits
  | .node x, .node y => compare (x : ℕ) y
  | .relationship x, .relationship y => compare (x : ℕ) y
  | .date x, .date y => x.cmp y
  | .dateTime x, .dateTime y => x.cmp y
  | .localDateTime x, .localDateTime y => x.cmp y
  | .time x, .time y => x.cmp y
  | .localTime x, .localTime y => x.cmp y
  | .duration x, .duration y => x.cmp y
  | .vector x, .vector y => compare (x.toKeyString r) (y.toKeyString r)
  | a, b => (compare a.typeRank b.typeRank).then (compare (r.value a) (r.value b))

/-! ### Columns -/

def LoraValue.isNumber : LoraValue → Bool
  | .int _ | .float _ => true
  | _ => false

/-- Values of these kinds are ordered by how they print, though `=` looks inside them. -/
def LoraValue.isPrinted : LoraValue → Bool
  | .point _ | .list _ | .map _ => true
  | _ => false

/-- The columns that sort right. -/
structure OrderlyColumn (S : Set LoraValue) : Prop where
  /-- Beside a NaN, no number is less than another. -/
  nan : ∀ f, .float f ∈ S → f.isNaN = true → ∀ a ∈ S, ∀ b ∈ S, a.isNumber = true →
    b.isNumber = true → ¬ OpHolds .lt a b
  /-- An integer that rounds to a float is the float. -/
  casts : ∀ i f, .int i ∈ S → .float f ∈ S → (F64.ofInt i).eq f = true → F64.intFloatCmp i f = .eq
  /-- Equal binaries come in the same segments. -/
  binaries : ∀ x y, .binary x ∈ S → .binary y ∈ S → x.eq y = true → x.segments = y.segments
  vectors : ∀ x y, .vector x ∈ S → .vector y ∈ S → x.eq y = true → x.toKeyString r = y.toKeyString r
  lists : ∀ xs ys, .list xs ∈ S → .list ys ∈ S → compareLists xs ys = some .lt →
    r.value (.list xs) < r.value (.list ys)
  prints : ∀ a ∈ S, ∀ b ∈ S, a.isPrinted = true → valueEq a b = true → r.value a = r.value b

variable {r} {S : Set LoraValue}

/-- A NaN ties with every number. -/
theorem compareValuesTotal_nan {f : F64} (hf : f.isNaN = true) {a : LoraValue}
    (ha : a.isNumber = true) :
    compareValuesTotal r a (.float f) = .eq ∧ compareValuesTotal r (.float f) a = .eq := by
  cases a with
  | int i => simp [compareValuesTotal, F64.partialCmp, hf]
  | float g => simp [compareValuesTotal, F64.partialCmp, hf]
  | _ => cases ha

theorem digits_inj {x y : LoraBinary} (h : x.digits = y.digits) : x.segments = y.segments := by
  refine List.map_injective_iff.mpr (List.map_injective_iff.mpr fun a b hab => ?_) h
  exact UInt8.toNat_inj.mp hab

/-! ### Keys -/

/-- What values are sorted by: rank, up to three numbers, text and bytes, in turn. -/
abbrev SortKey : Type := ℕ ×ₗ ℤ ×ₗ ℤ ×ₗ ℤ ×ₗ String ×ₗ List (List ℕ)

def sortKeyOf (rank : ℕ) (x y z : ℤ) (text : String) (bytes : List (List ℕ)) : SortKey :=
  toLex (rank, toLex (x, toLex (y, toLex (z, toLex (text, bytes)))))

theorem compare_sortKeyOf (k k' : ℕ) (x y z x' y' z' : ℤ) (s s' : String) (bs bs' : List (List ℕ)) :
    compare (sortKeyOf k x y z s bs) (sortKeyOf k' x' y' z' s' bs') =
      (compare k k').then ((compare x x').then ((compare y y').then ((compare z z').then
        ((compare s s').then (compare bs bs'))))) := rfl

/-- The value of a number, in units. -/
def LoraValue.exact : LoraValue → ℤ
  | .int i => i.toInt * ONE
  | .float f => f.scaled
  | _ => 0

def LoraValue.isNaN : LoraValue → Bool
  | .float f => f.isNaN
  | _ => false

/-- The key of a value. In a column with a NaN every number has one. -/
noncomputable def sortKey (r : Rendering) (flat : Prop) (v : LoraValue) : SortKey :=
  match v with
  | .bool b => sortKeyOf 1 (if b then 1 else 0) 0 0 "" []
  | .int _ | .float _ => sortKeyOf 2 (if flat then 0 else v.exact) 0 0 "" []
  | .string s => sortKeyOf 3 0 0 0 s []
  | .binary b => sortKeyOf 4 0 0 0 "" b.digits
  | .date d => sortKeyOf 5 d.year.toInt d.month.toNat d.day.toNat "" []
  | .dateTime d => sortKeyOf 6 d.orderNanos d.offsetSeconds.toInt (zoneKey d.zone) "" []
  | .localDateTime d => sortKeyOf 7 d.orderNanos 0 0 "" []
  | .time t => sortKeyOf 8 t.orderNanos t.offsetSeconds.toInt 0 "" []
  | .localTime t => sortKeyOf 9 t.orderNanos 0 0 "" []
  | .duration d => sortKeyOf 10 d.totalSecondsApprox.totalKey 0 0 "" []
  | .vector v => sortKeyOf 12 0 0 0 (v.toKeyString r) []
  | .node id => sortKeyOf 15 (id : ℕ) 0 0 "" []
  | .relationship id => sortKeyOf 16 (id : ℕ) 0 0 "" []
  | v => sortKeyOf v.typeRank 0 0 0 (r.value v) []

variable {a b : LoraValue}

/-- Numbers that are no NaN compare by value. -/
theorem compareValues_numbers (ha : a.isNumber = true) (hb : b.isNumber = true)
    (hna : a.isNaN = false) (hnb : b.isNaN = false) :
    compareValues a b = some (compare a.exact b.exact) := by
  cases a with
  | int i =>
    cases b with
    | int j =>
      exact congrArg some (F64.compare_mul_ONE _ _).symm
    | float g =>
      have hnan : g.isNaN = false := hnb
      simp [compareValues, F64.intFloatPartialCmp, hnan, F64.intFloatCmp_eq, LoraValue.exact]
    | _ => cases hb
  | float f =>
    have hnan : f.isNaN = false := hna
    cases b with
    | int j =>
      simp only [compareValues, F64.intFloatPartialCmp, hnan, F64.intFloatCmp_eq,
        LoraValue.exact, Option.map_some, Bool.false_eq_true, if_false]
      exact congrArg some Std.OrientedOrd.eq_swap.symm
    | float g =>
      have hnan' : g.isNaN = false := hnb
      simp [compareValues, F64.partialCmp, hnan, hnan', LoraValue.exact]
    | _ => cases hb
  | _ => cases ha

/-- In a column that sorts right, an integer's float compares as the integer does. -/
theorem OrderlyColumn.compare_cast (h : OrderlyColumn r S) {i : Int64} {f : F64} (hi : .int i ∈ S)
    (hf : .float f ∈ S) (hnan : f.isNaN = false) :
    compare (F64.ofInt i).scaled f.scaled = compare (i.toInt * ONE) f.scaled := by
  refine compare_congr (fun hlt => ?_) (fun heq => ?_) (fun hgt => ?_)
  · by_contra hge
    exact absurd (F64.le_scaled_ofInt (not_lt.mp hge)) (not_le.mpr hlt)
  · have hcast : (F64.ofInt i).eq f = true := by
      simp [F64.eq, F64.partialCmp, hnan, heq, Std.ReflOrd.compare_self]
    have hcmp := h.casts i f hi hf hcast
    rw [F64.intFloatCmp_eq] at hcmp
    exact compare_eq_iff_eq.mp hcmp
  · by_contra hle
    exact absurd (F64.scaled_ofInt_le (not_lt.mp hle)) (not_le.mpr hgt)

theorem OrderlyColumn.total_numbers (h : OrderlyColumn r S) (ha : a ∈ S)
    (hb : b ∈ S) (hna : a.isNumber = true) (hnb : b.isNumber = true) (hnan : a.isNaN = false)
    (hnan' : b.isNaN = false) : compareValuesTotal r a b = compare a.exact b.exact := by
  cases a with
  | int i =>
    cases b with
    | int j =>
      exact (F64.compare_mul_ONE _ _).symm
    | float g =>
      have hg : g.isNaN = false := hnan'
      rw [compareValuesTotal, F64.partialCmp, F64.isNaN_ofInt, hg]
      exact h.compare_cast ha hb hg
    | _ => cases hnb
  | float f =>
    have hf : f.isNaN = false := hnan
    cases b with
    | int j =>
      rw [compareValuesTotal, F64.partialCmp, F64.isNaN_ofInt, hf]
      change compare f.scaled (F64.ofInt j).scaled = compare f.scaled (j.toInt * ONE)
      rw [Std.OrientedOrd.eq_swap, h.compare_cast hb ha hf, ← Std.OrientedOrd.eq_swap]
    | float g =>
      have hg : g.isNaN = false := hnan'
      rw [compareValuesTotal, F64.partialCmp, hf, hg]
      rfl
    | _ => cases hnb
  | _ => cases hna

/-- Beside a NaN all numbers tie. -/
theorem OrderlyColumn.total_flat (h : OrderlyColumn r S)
    (hflat : ∃ f, .float f ∈ S ∧ f.isNaN = true) (ha : a ∈ S) (hb : b ∈ S) (hna : a.isNumber = true)
    (hnb : b.isNumber = true) : compareValuesTotal r a b = .eq := by
  obtain ⟨f, hf, hfnan⟩ := hflat
  cases hnan : a.isNaN with
  | true =>
    cases a with
    | float g => exact (compareValuesTotal_nan hnan hnb).2
    | _ => cases hnan
  | false =>
    cases hnan' : b.isNaN with
    | true =>
      cases b with
      | float g => exact (compareValuesTotal_nan hnan' hna).1
      | _ => cases hnan'
    | false =>
      have hab := h.nan f hf hfnan a ha b hb hna hnb
      have hba := h.nan f hf hfnan b hb a ha hnb hna
      rw [opHolds_lt, compareValues_numbers hna hnb hnan hnan', Option.some_inj,
        compare_lt_iff_lt] at hab
      rw [opHolds_lt, compareValues_numbers hnb hna hnan' hnan, Option.some_inj,
        compare_lt_iff_lt] at hba
      rw [h.total_numbers ha hb hna hnb hnan hnan']
      exact compare_eq_iff_eq.mpr (le_antisymm (not_lt.mp hba) (not_lt.mp hab))

theorem OrderlyColumn.keyed_numbers (h : OrderlyColumn r S) (ha : a ∈ S)
    (hb : b ∈ S) (hna : a.isNumber = true) (hnb : b.isNumber = true) :
    compareValuesTotal r a b = compare (if ∃ f, .float f ∈ S ∧ f.isNaN = true then 0 else a.exact)
        (if ∃ f, .float f ∈ S ∧ f.isNaN = true then 0 else b.exact) := by
  by_cases hflat : ∃ f, .float f ∈ S ∧ f.isNaN = true
  · rw [if_pos hflat, if_pos hflat, h.total_flat hflat ha hb hna hnb]
    rfl
  · have hnone : ∀ v ∈ S, v.isNaN = false := by
      intro v hv
      cases v with
      | float f =>
        by_contra hnan
        exact hflat ⟨f, hv, by simpa [LoraValue.isNaN] using hnan⟩
      | _ => rfl
    rw [if_neg hflat, if_neg hflat]
    exact h.total_numbers ha hb hna hnb (hnone a ha) (hnone b hb)

theorem then_compare_self {κ : Type} [Ord κ] [Std.ReflOrd κ] (o : Ordering) (k : κ) :
    o.then (compare k k) = o := by
  rw [Std.ReflOrd.compare_self, Ordering.then_eq]

theorem compare_self_then {κ : Type} [Ord κ] [Std.ReflOrd κ] (o : Ordering) (k : κ) :
    (compare k k).then o = o := by
  rw [Std.ReflOrd.compare_self]
  rfl

theorem sortKey_number {flat : Prop} {a : LoraValue} (h : a.isNumber = true) :
    sortKey r flat a = sortKeyOf 2 (if flat then 0 else a.exact) 0 0 "" [] := by
  cases a <;> first | rfl | cases h

/-- A key starts with the rank. -/
theorem sortKey_rank (flat : Prop) (a : LoraValue) :
    ∃ x y z s bs, sortKey r flat a = sortKeyOf a.typeRank x y z s bs := by
  cases a <;> exact ⟨_, _, _, _, _, rfl⟩

theorem then_compare_of_ne {κ : Type} [LinearOrder κ] {k k' : κ} (h : k ≠ k') (o : Ordering) :
    (compare k k').then o = compare k k' := by
  rcases lt_or_gt_of_ne h with hlt | hgt
  · rw [compare_lt_iff_lt.mpr hlt]
    rfl
  · rw [compare_gt_iff_gt.mpr hgt]
    rfl

theorem compareValuesTotal_of_rank (h : a.typeRank ≠ b.typeRank) :
    compareValuesTotal r a b = compare a.typeRank b.typeRank := by
  rw [compareValuesTotal]
  · exact then_compare_of_ne h _
  all_goals
    rintro x y rfl rfl
    exact h rfl

theorem compare_sortKey_of_rank (flat : Prop) (h : a.typeRank ≠ b.typeRank) :
    compare (sortKey r flat a) (sortKey r flat b) = compare a.typeRank b.typeRank := by
  obtain ⟨x, y, z, s, bs, ha⟩ := sortKey_rank (r := r) flat a
  obtain ⟨x', y', z', s', bs', hb⟩ := sortKey_rank (r := r) flat b
  rw [ha, hb, compare_sortKeyOf]
  exact then_compare_of_ne h _

theorem compare_int_cast (x y : ℕ) : compare (x : ℤ) y = compare x y :=
  compare_congr Int.ofNat_lt.mp Int.ofNat_inj.mp Int.ofNat_lt.mp

theorem isNumber_iff {a : LoraValue} : a.isNumber = true ↔ a.typeRank = 2 := by
  cases a <;> simp [LoraValue.isNumber, LoraValue.typeRank]

theorem dateTime_cmp (x y : LoraDateTime) : x.cmp y = (compare x.orderNanos y.orderNanos).then
    ((compare x.offsetSeconds.toInt y.offsetSeconds.toInt).then
      (compare (zoneKey x.zone) (zoneKey y.zone))) := by
  rw [LoraDateTime.cmp, Ordering.then_assoc]

theorem date_cmp (x y : LoraDate) : x.cmp y = (compare x.year.toInt y.year.toInt).then
    ((compare x.month.toNat y.month.toNat).then (compare x.day.toNat y.day.toNat)) := by
  rw [LoraDate.cmp, Ordering.then_assoc]

theorem compare_sortKeyOf_int (k : ℕ) (x y : ℤ) :
    compare (sortKeyOf k x 0 0 "" []) (sortKeyOf k y 0 0 "" []) = compare x y := by
  simp only [compare_sortKeyOf, then_compare_self, compare_self_then]

/-- Only values of one constructor share a rank, numbers apart. -/
@[elab_as_elim]
theorem LoraValue.sameRank {motive : LoraValue → LoraValue → Prop} (null : motive .null .null)
    (bool : ∀ x y, motive (.bool x) (.bool y)) (string : ∀ x y, motive (.string x) (.string y))
    (binary : ∀ x y, motive (.binary x) (.binary y)) (date : ∀ x y, motive (.date x) (.date y))
    (dateTime : ∀ x y, motive (.dateTime x) (.dateTime y))
    (localDateTime : ∀ x y, motive (.localDateTime x) (.localDateTime y))
    (time : ∀ x y, motive (.time x) (.time y))
    (localTime : ∀ x y, motive (.localTime x) (.localTime y))
    (duration : ∀ x y, motive (.duration x) (.duration y))
    (point : ∀ x y, motive (.point x) (.point y)) (vector : ∀ x y, motive (.vector x) (.vector y))
    (list : ∀ x y, motive (.list x) (.list y)) (map : ∀ x y, motive (.map x) (.map y))
    (node : ∀ x y, motive (.node x) (.node y))
    (relationship : ∀ x y, motive (.relationship x) (.relationship y))
    (path : ∀ x y, motive (.path x) (.path y))
    (hrank : a.typeRank = b.typeRank) (hna : a.isNumber = false) :
    motive a b := by
  cases a <;> cases b <;> first
    | cases hrank; done
    | cases hna; done
    | apply_assumption

theorem localTime_sortKey (flat : Prop) (x y : LoraLocalTime) :
    compareValuesTotal r (.localTime x) (.localTime y) =
      compare (sortKey r flat (.localTime x)) (sortKey r flat (.localTime y)) := by
  have hcmp : x.cmp y = compare x.orderNanos y.orderNanos := LoraLocalTime.cmp.eq_1 x y
  exact hcmp.trans (compare_sortKeyOf_int 9 _ _).symm

/-- Within a kind, numbers apart, the comparator compares by the key. -/
theorem compare_sortKey_same (flat : Prop) (hrank : a.typeRank = b.typeRank)
    (hna : a.isNumber = false) :
    compareValuesTotal r a b = compare (sortKey r flat a) (sortKey r flat b) := by
  refine LoraValue.sameRank ?null ?bool ?_ ?_ ?_ ?_ ?_ ?_ (localTime_sortKey flat) ?_ ?_ ?_ ?_ ?_ ?_
    ?_ ?_ hrank hna
  case null => simp only [sortKey, compareValuesTotal, compare_sortKeyOf, then_compare_self]
  case bool =>
    intro x y
    cases x <;> cases y <;> rfl
  all_goals
    intro x y
    simp only [sortKey, compareValuesTotal, compare_sortKeyOf, then_compare_self,
      compare_self_then, compare_int_cast, date_cmp, dateTime_cmp, LoraLocalDateTime.cmp,
      LoraTime.cmp, LoraDuration.cmp, F64.totalCmp]

theorem compareValues_of_rank (h : a.typeRank ≠ b.typeRank) : compareValues a b = none := by
  rw [compareValues]
  · rw [LoraValue.temporalCmp]
    all_goals
      rintro x y rfl rfl
      exact h rfl
  all_goals
    rintro x y rfl rfl
    exact h rfl

/-- A NaN orders against nothing. -/
theorem compareValues_nan (hna : a.isNumber = true) (hnb : b.isNumber = true)
    (h : a.isNaN = true ∨ b.isNaN = true) : compareValues a b = none := by
  cases a with
  | int i =>
    cases b with
    | int j => cases h <;> contradiction
    | float g =>
      have hg : g.isNaN = true := h.resolve_left Bool.false_ne_true
      simp [compareValues, F64.intFloatPartialCmp, hg]
    | _ => cases hnb
  | float f =>
    cases b with
    | int j =>
      have hf : f.isNaN = true := h.resolve_right Bool.false_ne_true
      simp [compareValues, F64.intFloatPartialCmp, hf]
    | float g =>
      have hor : f.isNaN = true ∨ g.isNaN = true := h
      simp only [compareValues, F64.partialCmp, Bool.or_eq_true, if_pos hor]
    | _ => cases hnb
  | _ => cases hna

/-- The comparator compares by the key. -/
theorem OrderlyColumn.keyed (h : OrderlyColumn r S) :
    Keyed (compareValuesTotal r) S (sortKey r (∃ f, .float f ∈ S ∧ f.isNaN = true)) := by
  intro a ha b hb
  by_cases hrank : a.typeRank = b.typeRank
  · cases hna : a.isNumber with
    | true =>
      have hnb := isNumber_iff.2 (hrank.symm.trans (isNumber_iff.1 hna))
      rw [h.keyed_numbers ha hb hna hnb, sortKey_number hna, sortKey_number hnb]
      simp only [compare_sortKeyOf, then_compare_self, compare_self_then]
    | false => exact compare_sortKey_same _ hrank hna
  · rw [compareValuesTotal_of_rank hrank, compare_sortKey_of_rank _ hrank]

end LoraDb
