import LoraDb.SortOrder

/-!
# Aggregates

The running state of an aggregate, and the same aggregate over collected values. A total keeps
integers, floats and durations apart; a minimum keeps the first of equals, as its collected form
does, and a maximum keeps the first where its collected form keeps the last. Float arithmetic is
left to `FloatOps`: nothing below depends on it.
-/

namespace LoraDb

open Comparing

/-- **Float** arithmetic. -/
structure FloatOps where
  add : F64 → F64 → F64
  mul : F64 → F64 → F64
  div : F64 → F64 → F64
  min : F64 → F64 → F64
  max : F64 → F64 → F64

/-- The result of a checked operation on integers. -/
def checkedI64 (n : ℤ) : Option Int64 := if -2 ^ 63 ≤ n ∧ n < 2 ^ 63 then some (.ofInt n) else none

theorem checkedI64_eq_some {n : ℤ} {i : Int64} : checkedI64 n = some i ↔ n = i.toInt := by
  rw [checkedI64]
  constructor
  · intro h
    split at h
    · rename_i hin
      rw [← Option.some.inj h, Int64.toInt_ofInt_of_le hin.1 hin.2]
    · exact absurd h.symm (Option.some_ne_none i)
  · rintro rfl
    rw [if_pos ⟨i.le_toInt, i.toInt_lt⟩, Int64.ofInt_toInt]

namespace LoraDuration

def tryAdd (v w : LoraDuration) : Option LoraDuration := do
  return { months := ← checkedI64 (v.months.toInt + w.months.toInt)
           days := ← checkedI64 (v.days.toInt + w.days.toInt)
           seconds := ← checkedI64 (v.seconds.toInt + w.seconds.toInt)
           nanoseconds := ← checkedI64 (v.nanoseconds.toInt + w.nanoseconds.toInt) }

def NANOS_PER_SECOND : ℤ := 1000000000

def NANOS_PER_DAY : ℤ := 86400 * NANOS_PER_SECOND

def NANOS_PER_MONTH : ℤ := 2629746 * NANOS_PER_SECOND

/-- Each part divided, what is left carried down to the next. -/
def tryDivInt (v : LoraDuration) (n : Int64) : Option LoraDuration :=
  if n = 0 then none
  else do
    let months ← checkedI64 (v.months.toInt.tdiv n.toInt)
    let monthRest := v.months.toInt.tmod n.toInt
    let dayNanos := (v.days.toInt * NANOS_PER_DAY + monthRest * NANOS_PER_MONTH).tdiv n.toInt
    let days := dayNanos.tdiv NANOS_PER_DAY
    let nanos := (v.seconds.toInt * NANOS_PER_SECOND + v.nanoseconds.toInt).tdiv n.toInt +
      dayNanos.tmod NANOS_PER_DAY
    return { months := months
             days := ← checkedI64 days
             seconds := ← checkedI64 (nanos.tdiv NANOS_PER_SECOND)
             nanoseconds := ← checkedI64 (nanos.tmod NANOS_PER_SECOND) }

end LoraDuration

/-! ### Totals -/

/-- A running **total**, each kind of addend apart. -/
structure Total where
  int : Int64 := 0
  float : F64 := .ofInt 0
  duration : Option LoraDuration := none
  ints : ℕ := 0
  floats : ℕ := 0
  durations : ℕ := 0
  overflowed : Bool := false

/-- Runtime errors of aggregates. -/
inductive AggregateError where
  | overflowed (name : String)
  | mixed (name : String)

def AggregateError.message : AggregateError → String
  | .overflowed name => name ++ "() overflowed"
  | .mixed name => name ++ "() can't add durations and numbers"

namespace Total

variable (F : FloatOps)

def addInt (t : Total) (i : Int64) : Total :=
  match checkedI64 (t.int.toInt + i.toInt) with
  | some sum => { t with int := sum, ints := t.ints + 1 }
  | none => { t with overflowed := true, ints := t.ints + 1 }

def addDuration (t : Total) (d : LoraDuration) : Total :=
  match t.duration.elim (some d) (fun cur => cur.tryAdd d) with
  | some sum => { t with duration := some sum, durations := t.durations + 1 }
  | none => { t with overflowed := true, durations := t.durations + 1 }

def add (t : Total) : LoraValue → Total
  | .int i => t.addInt i
  | .float f => { t with float := F.add t.float f, floats := t.floats + 1 }
  | .duration d => t.addDuration d
  | _ => t

/-- What was added up; `none` for nothing. -/
def total (t : Total) (name : String) : Except AggregateError (Option LoraValue) :=
  if t.overflowed then .error (.overflowed name)
  else
    match t.duration with
    | some d => if 0 < t.ints + t.floats then .error (.mixed name) else .ok (some (.duration d))
    | none =>
      if t.ints + t.floats = 0 then .ok none
      else if t.floats = 0 then .ok (some (.int t.int))
      else .ok (some (.float (F.add (.ofInt t.int) t.float)))

def sum (t : Total) (name : String) : Except AggregateError LoraValue := do
  return (← t.total F name).getD (.int 0)

def avg (t : Total) : Except AggregateError LoraValue := do
  let numbers := F64.ofInt (.ofNat (t.ints + t.floats))
  match ← t.total F "avg" with
  | none => .ok .null
  | some (.duration d) =>
    (d.tryDivInt (.ofNat t.durations)).elim (.error (.overflowed "avg")) fun d =>
      .ok (.duration d)
  | some (.int i) => .ok (.float (F.div (.ofInt i) numbers))
  | some (.float f) => .ok (.float (F.div f numbers))
  | some other => .ok other

end Total

/-! ### States -/

/-- Aggregates that are folds. -/
inductive StreamableAggKind where
  | countAll
  | countField
  | sum
  | min
  | max
  | avg
deriving DecidableEq

inductive AggState where
  | count (n : ℕ)
  | sum (total : Total)
  | min (slot : Option LoraValue)
  | max (slot : Option LoraValue)
  | avg (total : Total)

namespace AggState

variable (F : FloatOps) (r : Rendering)

def seed : StreamableAggKind → AggState
  | .countAll | .countField => .count 0
  | .sum => .sum {}
  | .min => .min none
  | .max => .max none
  | .avg => .avg {}

def fold (kind : StreamableAggKind) (state : AggState) (value : LoraValue) : AggState :=
  match state with
  | .count n =>
    match kind with
    | .countAll => .count (n + 1)
    | .countField => if value.isNull then .count n else .count (n + 1)
    | _ => .count n
  | .sum t => .sum (t.add F value)
  | .avg t => .avg (t.add F value)
  | .min slot => .min (foldExtreme r .lt slot value)
  | .max slot => .max (foldExtreme r .gt slot value)

def finalize (state : AggState) : Except AggregateError LoraValue :=
  match state with
  | .count n => .ok (.int (.ofNat n))
  | .sum t => t.sum F "sum"
  | .min slot | .max slot => .ok (slot.getD .null)
  | .avg t => t.avg F

/-- A kind of aggregate streamed over the values of its argument. -/
def stream (kind : StreamableAggKind) (values : List LoraValue) : Except AggregateError LoraValue :=
  (values.foldl (fold F r kind) (seed kind)).finalize F

end AggState

/-! ### Collected values -/

section Collected

variable (F : FloatOps) (r : Rendering)

/-- `Iterator::min_by`: the first of equals. -/
def minBy (cmp : LoraValue → LoraValue → Ordering) (values : List LoraValue) : Option LoraValue :=
  values.foldl (fun best v => some (best.elim v fun b => if cmp b v = .gt then v else b)) none

/-- `Iterator::max_by`: the last of equals. -/
def maxBy (cmp : LoraValue → LoraValue → Ordering) (values : List LoraValue) : Option LoraValue :=
  values.foldl (fun best v => some (best.elim v fun b => if cmp b v = .gt then b else v)) none

end Collected

end LoraDb
