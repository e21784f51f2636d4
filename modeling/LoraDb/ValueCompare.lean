import LoraDb.Eval
import LoraDb.Floats
import LoraDb.Temporal

/-!
# Comparing Query Values

What `=` and `<` compute, and the equality of values that lists and maps are compared by. Points
are equal when their coordinates are close. Float arithmetic is Lean's own, on the same bits.

## Main results

* `opHolds_lt`, `opHolds_eq`: when `a < b` and `a = b` evaluate to true.
-/

namespace LoraDb

/-! ### Float arithmetic -/

namespace F64

def toFloat (f : F64) : Float := Float.ofBits f.bits

def ofFloat (x : Float) : F64 := ⟨x.toBits⟩

def add (f g : F64) : F64 := ofFloat (f.toFloat + g.toFloat)

def sub (f g : F64) : F64 := ofFloat (f.toFloat - g.toFloat)

def mul (f g : F64) : F64 := ofFloat (f.toFloat * g.toFloat)

def div (f g : F64) : F64 := ofFloat (f.toFloat / g.toFloat)

def abs (f : F64) : F64 := ⟨f.bits &&& 0x7FFFFFFFFFFFFFFF⟩

/-- `f64::EPSILON`, which is `2 ^ -52`. -/
def EPSILON : F64 := ⟨0x3CB0000000000000⟩

/-- `>=` of floats. -/
def ge (f g : F64) : Bool := (f.partialCmp g).any Ordering.isGE

/-- `<` of floats. -/
def lt (f g : F64) : Bool := f.partialCmp g == some .lt

end F64

namespace F32

def mag (f : F32) : ℕ := f.bits.toNat % 2 ^ 31

def isNaN (f : F32) : Bool := decide (255 * 2 ^ 23 < f.mag)

/-- `==` of floats: zeros are equal, a NaN is equal to nothing. -/
def eq (f g : F32) : Bool :=
  !f.isNaN && !g.isNaN && (f == g || f.mag == 0 && g.mag == 0)

/-- `f as f64` -/
def toF64 (f : F32) : F64 := .ofFloat (Float32.ofBits f.bits).toFloat

end F32

/-! ### Equality -/

/-- A list of floats, compared by `==` at each place. -/
def eqAll {α : Type} (eq : α → α → Bool) : List α → List α → Bool
  | [], [] => true
  | a :: as, b :: bs => eq a b && eqAll eq as bs
  | _, _ => false

def VectorValues.eq : VectorValues → VectorValues → Bool
  | .float64 as, .float64 bs => eqAll F64.eq as bs
  | .float32 as, .float32 bs => eqAll F32.eq as bs
  | .integer64 as, .integer64 bs => as == bs
  | .integer32 as, .integer32 bs => as == bs
  | .integer16 as, .integer16 bs => as == bs
  | .integer8 as, .integer8 bs => as == bs
  | _, _ => false

def LoraVector.eq (v w : LoraVector) : Bool := v.dimension == w.dimension && v.values.eq w.values

/-- The bytes, whatever segments they come in. -/
def LoraBinary.eq (v w : LoraBinary) : Bool := v.segments.flatten == w.segments.flatten

/-- One spatial reference, and coordinates less than `EPSILON` apart. -/
def LoraPoint.eq (v w : LoraPoint) : Bool :=
  if v.srid != w.srid then false
  else if (v.x.sub w.x).abs.ge .EPSILON then false
  else if (v.y.sub w.y).abs.ge .EPSILON then false
  else match v.z, w.z with
    | none, none => true
    | some a, some b => (a.sub b).abs.lt .EPSILON
    | _, _ => false

namespace LoraValue

mutual

/-- `==` of values, constructor by constructor: what the elements of lists and maps are
compared by. -/
def eq : LoraValue → LoraValue → Bool
  | .null, .null => true
  | .bool a, .bool b => a == b
  | .int a, .int b => a == b
  | .float a, .float b => a.eq b
  | .string a, .string b => a == b
  | .binary a, .binary b => a.eq b
  | .list as, .list bs => eqList as bs
  | .map as, .map bs => eqEntries as bs
  | .node a, .node b => a == b
  | .relationship a, .relationship b => a == b
  | .path a, .path b => a == b
  | .date a, .date b => a == b
  | .time a, .time b => a == b
  | .localTime a, .localTime b => a == b
  | .dateTime a, .dateTime b => a == b
  | .localDateTime a, .localDateTime b => a == b
  | .duration a, .duration b => a == b
  | .point a, .point b => a.eq b
  | .vector a, .vector b => a.eq b
  | _, _ => false
termination_by structural a => a

def eqList : List LoraValue → List LoraValue → Bool
  | [], [] => true
  | a :: as, b :: bs => eq a b && eqList as bs
  | _, _ => false
termination_by structural as => as

def eqEntries : List (String × LoraValue) → List (String × LoraValue) → Bool
  | [], [] => true
  | (k, a) :: as, (k', b) :: bs => k == k' && eq a b && eqEntries as bs
  | _, _ => false
termination_by structural as => as

end

end LoraValue

/-- `=`, for values that are not null: numbers of both kinds are compared as floats. -/
def valueEq : LoraValue → LoraValue → Bool
  | .int x, .float y => (F64.ofInt x).eq y
  | .float x, .int y => x.eq (.ofInt y)
  | .path _, .path _ => false
  | a, b => a.eq b

/-! ### Order -/

namespace LoraDuration

/-- About how many seconds: a month counts as 30.4375 days. -/
def totalSecondsApprox (v : LoraDuration) : F64 :=
  ((((F64.ofInt v.months).mul (.ofInt 2629800)).add ((F64.ofInt v.days).mul (.ofInt 86400))).add
    (.ofInt v.seconds)).add ((F64.ofInt v.nanoseconds).div (.ofInt 1000000000))

def cmp (v w : LoraDuration) : Ordering := v.totalSecondsApprox.totalCmp w.totalSecondsApprox

end LoraDuration

/-- Two temporal values of one kind, by the instant; `none` for anything else. -/
def LoraValue.temporalCmp : LoraValue → LoraValue → Option Ordering
  | .date a, .date b => some (compare a.orderNanos b.orderNanos)
  | .dateTime a, .dateTime b => some (compare a.orderNanos b.orderNanos)
  | .localDateTime a, .localDateTime b => some (compare a.orderNanos b.orderNanos)
  | .time a, .time b => some (compare a.orderNanos b.orderNanos)
  | .localTime a, .localTime b => some (compare a.orderNanos b.orderNanos)
  | _, _ => none

mutual

/-- How `a` orders against `b` for `<`, `<=`, `>` and `>=`; `none` when the comparison is
null. -/
def compareValues : LoraValue → LoraValue → Option Ordering
  | .int x, .int y => some (compare x.toInt y.toInt)
  | .int x, .float y => F64.intFloatPartialCmp x y
  | .float x, .int y => (F64.intFloatPartialCmp y x).map Ordering.swap
  | .float x, .float y => x.partialCmp y
  | .string x, .string y => some (compare x y)
  | .bool x, .bool y => some (compare x y)
  | .duration x, .duration y => x.totalSecondsApprox.partialCmp y.totalSecondsApprox
  | .list xs, .list ys => compareLists xs ys
  | a, b => a.temporalCmp b
termination_by structural a => a

/-- The first pair that differs decides; a prefix comes first. -/
def compareLists : List LoraValue → List LoraValue → Option Ordering
  | x :: xs, y :: ys =>
    match compareValues x y with
    | none => none
    | some .eq => compareLists xs ys
    | some decided => some decided
  | xs, ys => some (compare xs.length ys.length)
termination_by structural xs => xs

end

/-- The kind of a temporal value. -/
def LoraValue.temporalKindName : LoraValue → Option String
  | .date _ => some "DATE"
  | .dateTime _ => some "DATETIME"
  | .localDateTime _ => some "LOCAL_DATETIME"
  | .time _ => some "TIME"
  | .localTime _ => some "LOCAL_TIME"
  | _ => none

/-- The error of ordering two temporal values of different kinds. -/
def temporalKindMismatch (a b : LoraValue) : Option String :=
  match a.temporalKindName, b.temporalKindName with
  | some ka, some kb =>
    if ka = kb then none
    else some ("cannot compare a " ++ ka ++ " with a " ++ kb ++ ": temporal values of " ++
      "different types do not order against each other; convert one side first, e.g. " ++
      "date(x) or datetime(x)")
  | _, _ => none

def LoraValue.isNull : LoraValue → Bool
  | .null => true
  | _ => false

def LoraValue.asF64 : LoraValue → Option F64
  | .int i => some (.ofInt i)
  | .float f => some f
  | _ => none

def LoraValue.asI64 : LoraValue → Option Int64
  | .int i => some i
  | _ => none

/-- `=`, `<>`, `<`, `>`, `<=`, `>=` -/
def evalComparison (op : BinaryOp) (lhs rhs : LoraValue) : EvalM LoraValue :=
  let equality (result : Bool → Bool) : EvalM LoraValue :=
    if lhs.isNull || rhs.isNull then pure .null else pure (.bool (result (valueEq lhs rhs)))
  let order (result : Ordering → Bool) : EvalM LoraValue :=
    match compareValues lhs rhs with
    | none => (.null, temporalKindMismatch lhs rhs)
    | some ord => pure (.bool (result ord))
  match op with
  | .eq => equality id
  | .ne => equality not
  | .lt => order Ordering.isLT
  | .gt => order Ordering.isGT
  | .le => order Ordering.isLE
  | .ge => order Ordering.isGE
  | _ => pure .null

/-- An operator evaluates to true. -/
def OpHolds (op : BinaryOp) (lhs rhs : LoraValue) : Prop :=
  (evalComparison op lhs rhs).error = none ∧ (evalComparison op lhs rhs).value = .bool true

theorem opHolds_eq {a b : LoraValue} : OpHolds .eq a b ↔
    (a.isNull = false ∧ b.isNull = false) ∧ valueEq a b = true := by
  rw [OpHolds, evalComparison]
  cases ha : a.isNull <;> cases hb : b.isNull <;> simp

/-- An ordering operator holds when the comparison is not null and comes out as asked. -/
theorem opHolds_order {op : BinaryOp} {result : Ordering → Bool} {a b : LoraValue}
    (hop : evalComparison op a b = match compareValues a b with
      | none => (.null, temporalKindMismatch a b)
      | some ord => pure (.bool (result ord))) :
    OpHolds op a b ↔ ∃ ord, compareValues a b = some ord ∧ result ord = true := by
  rw [OpHolds, hop]
  cases compareValues a b with
  | none =>
    change (_ ∧ LoraValue.null = _) ↔ _
    simp
  | some ord => simp

theorem opHolds_lt {a b : LoraValue} : OpHolds .lt a b ↔ compareValues a b = some .lt := by
  rw [opHolds_order rfl]
  constructor
  · rintro ⟨ord, h, hlt⟩
    cases ord
    · exact h
    · cases hlt
    · cases hlt
  · exact fun h => ⟨.lt, h, rfl⟩

end LoraDb
