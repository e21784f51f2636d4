import LoraDb.Casts

/-!
# Folding Calls

A call of a builtin on constant arguments is evaluated when the query is planned, where the builtin
is one of a list, and its value stands in the plan as a literal. Most of them compute from their
arguments alone. A cast to a temporal type may read the clock: of a map of nothing but a `timezone`,
and of a map that moves a time without a date to a named zone.

## Main results

* `foldCall_slot`: folding leaves the pending error as it was.
* `foldCall_right`: a folded call that does not read the clock has the literal's value at every
  later moment.
-/

open ByteCodec Binary64

namespace LoraDb

/-! ### The builtins -/

namespace MathNs

variable (lib : FloatLib)

def unaryF (args : List LoraValue) (f : F64 → F64) : LoraValue :=
  match (arg args 0).bind LoraValue.asF64 with
  | some v => .float (f v)
  | none => .null

/-- A function of part of the floats. -/
def unaryFGuarded (args : List LoraValue) (guarded : F64 → Bool) (f : F64 → F64) : LoraValue :=
  match (arg args 0).bind LoraValue.asF64 with
  | some v => if guarded v then .float (f v) else .null
  | none => .null

def binaryF (args : List LoraValue) (f : F64 → F64 → F64) : LoraValue :=
  match (arg args 0).bind LoraValue.asF64, (arg args 1).bind LoraValue.asF64 with
  | some a, some b => .float (f a b)
  | _, _ => .null

/-- The sign of a float is that of its bit. -/
def sign (args : List LoraValue) : LoraValue :=
  match arg args 0 with
  | some (.int i) => .int (if i < 0 then -1 else if i = 0 then 0 else 1)
  | some (.float f) => if f.isNaN then .null else .int (if f.isNegative then -1 else 1)
  | _ => .null

def logBase (args : List LoraValue) : LoraValue :=
  match (arg args 0).bind LoraValue.asF64, (arg args 1).bind LoraValue.asF64 with
  | some n, some base =>
    if (F64.ofInt 0).ge n || (F64.ofInt 0).ge base || base.eq .ONE_FLOAT then .null
    else .float (lib.binary "log" n base)
  | _, _ => .null

def lerp (args : List LoraValue) : LoraValue :=
  match (arg args 0).bind LoraValue.asF64, (arg args 1).bind LoraValue.asF64,
    (arg args 2).bind LoraValue.asF64 with
  | some a, some b, some t => .float (a.plus ((b.plus a.neg).times t))
  | _, _, _ => .null

/-- `(-1.0..=1.0).contains(&f)` -/
def inUnit (f : F64) : Bool := f.ge (.ofInt (-1)) && F64.ONE_FLOAT.ge f

def PI : F64 := ⟨0x400921FB54442D18⟩

def E : F64 := ⟨0x4005BF0A8B145769⟩

def dispatch (op : String) (args : List LoraValue) : Option (EvalM LoraValue) :=
  let one := F64.ONE_FLOAT
  match op with
  | "min" => some (pure (min args))
  | "max" => some (pure (max args))
  | "round" => some (pure (round args))
  | "trunc" => some (pure (trunc args))
  | "sigmoid" =>
    some (pure (unaryF args fun f => one.divBy (one.plus (lib.unary "exp" f.neg))))
  | "tanh" => some (pure (unaryF args (lib.unary "tanh")))
  | "cosh" => some (pure (unaryF args (lib.unary "cosh")))
  | "sinh" => some (pure (unaryF args (lib.unary "sinh")))
  | "cot" => some (pure (unaryF args fun f => one.divBy (lib.unary "tan" f)))
  | "coth" => some (pure (unaryF args fun f => one.divBy (lib.unary "tanh" f)))
  | "atan2" => some (pure (binaryF args (lib.binary "atan2")))
  | "pow" => some (pure (binaryF args (lib.binary "powf")))
  | "hypot" => some (pure (binaryF args (lib.binary "hypot")))
  | "log_base" => some (pure (logBase lib args))
  | "gcd" => some (pure (gcd args))
  | "lcm" => some (pure (lcm args))
  | "clamp" => some (clamp lib.display args)
  | "lerp" => some (pure (lerp args))
  | "abs" => some (pure (abs args))
  | "ceil" => some (pure (ceil args))
  | "floor" => some (pure (floor args))
  | "sqrt" => some (pure (unaryFGuarded args (fun f => f.ge (.ofInt 0)) (lib.unary "sqrt")))
  | "sign" => some (pure (sign args))
  | "log" | "ln" => some (pure (unaryFGuarded args (fun f => f.gt (.ofInt 0)) (lib.unary "ln")))
  | "log10" => some (pure (unaryFGuarded args (fun f => f.gt (.ofInt 0)) (lib.unary "log10")))
  | "exp" => some (pure (unaryF args (lib.unary "exp")))
  | "sin" => some (pure (unaryF args (lib.unary "sin")))
  | "cos" => some (pure (unaryF args (lib.unary "cos")))
  | "tan" => some (pure (unaryF args (lib.unary "tan")))
  | "asin" => some (pure (unaryFGuarded args inUnit (lib.unary "asin")))
  | "acos" => some (pure (unaryFGuarded args inUnit (lib.unary "acos")))
  | "atan" => some (pure (unaryF args (lib.unary "atan")))
  | "degrees" => some (pure (unaryF args (lib.unary "to_degrees")))
  | "radians" => some (pure (unaryF args (lib.unary "to_radians")))
  | "pi" => some (pure (.float PI))
  | "e" => some (pure (.float E))
  | _ => none

end MathNs

namespace Geo

variable (lib : FloatLib)

/-- A point is passed through. -/
def point (args : List LoraValue) : EvalM LoraValue :=
  match MathNs.arg args 0 with
  | none | some .null => pure .null
  | some (.point p) => pure (.point p)
  | some (.map m) =>
    match PointMap.buildPointFromMap lib m with
    | .ok (some p) => pure (.point p)
    | .ok none => pure .null
    | .error message => (.null, some message)
  | some _ => (.null, some "point() expects a coordinate map")

def cartesianDistance (a b : LoraPoint) : F64 :=
  let dx := a.x.plus b.x.neg
  let dy := a.y.plus b.y.neg
  let dz := match a.z, b.z with
    | some za, some zb => za.plus zb.neg
    | _, _ => .ofInt 0
  lib.unary "sqrt" (((dx.times dx).plus (dy.times dy)).plus (dz.times dz))

/-- Height is ignored. -/
def haversineDistance (a b : LoraPoint) : F64 :=
  let radians := lib.unary "to_radians"
  let half (f : F64) : F64 := F64.powi (lib.unary "sin" (f.divBy (.ofInt 2))) 2
  let dlat := radians (b.y.plus a.y.neg)
  let dlon := radians (b.x.plus a.x.neg)
  let cosines := (lib.unary "cos" (radians a.y)).times (lib.unary "cos" (radians b.y))
  let halves := (half dlat).plus (cosines.times (half dlon))
  let c := (F64.ofInt 2).times (lib.unary "asin" (lib.unary "sqrt" halves))
  (F64.ofInt 6371000).times c

def distance (args : List LoraValue) : EvalM LoraValue :=
  match MathNs.arg args 0, MathNs.arg args 1 with
  | some (.point a), some (.point b) =>
    if a.srid ≠ b.srid then
      (.null, some "Cannot compute distance between points with different SRIDs")
    else if Srid.isGeographic a.srid.toNat then pure (.float (haversineDistance lib a b))
    else pure (.float (cartesianDistance lib a b))
  | _, _ => pure .null

def dispatch (op : String) (args : List LoraValue) : Option (EvalM LoraValue) :=
  match op with
  | "distance" => some (distance lib args)
  | "point" => some (point lib args)
  | _ => none

end Geo

namespace TemporalNs

open TemporalBuild TypeNs

/-- What is built, or null with the error. -/
def report (x : Build LoraValue) : EvalM LoraValue :=
  match x.run with
  | none => overflowed
  | some (.ok v) => pure v
  | some (.error e) => (.null, some e)

/-- What is built, or null. -/
def orNull (x : Build LoraValue) : EvalM LoraValue :=
  match x.run with
  | none => overflowed
  | some (.ok v) => pure v
  | some (.error _) => pure .null

def detectKind (s : String) : String :=
  if s.toList.head? = some 'P' then "duration"
  else if s.toList.contains 'T' then "datetime"
  else "date"

section Clocked

variable (tz : ZoneId → TimeZone) (db : ZoneDb) (t : Now)

def parse (args : List LoraValue) : EvalM LoraValue :=
  match MathNs.arg args 0 with
  | some (.string s) =>
    let kind := match MathNs.arg args 2 with
      | some (.string k) => k.toLower
      | _ => detectKind s
    match kind with
    | "date" => orNull (.date <$> ExceptT.mk (parseDate (utf8 s)))
    | "datetime" => orNull (.dateTime <$> ExceptT.mk (LoraDateTime.parse tz db (utf8 s)))
    | "duration" => orNull (.duration <$> Build.of (LoraDuration.parse s.toList))
    | _ => pure .null
  | _ => pure .null

def add (args : List LoraValue) : LoraValue :=
  match MathNs.arg args 0, MathNs.arg args 1 with
  | some (.date date), some (.duration d) => .date (date.addDuration d)
  | some (.dateTime dt), some (.duration d) => .dateTime (dt.addDuration tz d)
  | _, _ => .null

/-- The map and the type that follow the unit and the value, if they are readable. -/
def truncateRest : List LoraValue → Option (LoraValue × Option Kind)
  | [.string ty] => some (.null, Kind.fromTypeName ty)
  | [map] => some (map, none)
  | [map, .string ty] => some (map, Kind.fromTypeName ty)
  | _ => none

/-- The unit and the value, in either order. -/
def truncatePair : LoraValue → LoraValue → Option (String × LoraValue)
  | .string unit, value => some (unit, value)
  | value, .string unit => some (unit, value)
  | _, _ => none

def truncateTwo (a b : LoraValue) : EvalM LoraValue :=
  match truncatePair a b with
  | none => pure .null
  | some (unit, value) => orNull (truncate tz db t unit value none none)

/-- The unit, the value and the map, or what the call gives without them. -/
def truncateArgs (a b map : LoraValue) :
    Except (EvalM LoraValue) (String × LoraValue × Option (List (String × LoraValue))) :=
  match a, b with
  | .null, _ => .error (pure .null)
  | _, .null => .error (pure .null)
  | .string unit, value =>
    match map with
    | .null => .ok (unit, value, none)
    | .map m => .ok (unit, value, some m)
    | other =>
      .error (.null, some ("truncate components must be a map, got " ++ valueKind other))
  | other, _ => .error (.null, some ("truncate unit must be a string, got " ++ valueKind other))

def truncateWith (a b map : LoraValue) (kind : Option Kind) : EvalM LoraValue :=
  match truncateArgs a b map with
  | .error result => result
  | .ok (unit, value, m) => report (truncate tz db t unit value m kind)

def truncate (args : List LoraValue) : EvalM LoraValue :=
  match args with
  | [a, b] => truncateTwo tz db t a b
  | a :: b :: rest =>
    match truncateRest rest with
    | none => pure .null
    | some (map, kind) => truncateWith tz db t a b map kind
  | _ => pure .null

def durationBetween (args : List LoraValue) (what : Between) : EvalM LoraValue :=
  match MathNs.arg args 0, MathNs.arg args 1 with
  | some .null, _ => pure .null
  | _, some .null => pure .null
  | some a, some b => report (.duration <$> Build.of (TemporalBuild.between a b what))
  | _, _ => pure .null

def fromEpoch (args : List LoraValue) : EvalM LoraValue :=
  match MathNs.arg args 0, MathNs.arg args 1 with
  | some (.int s), some (.int ns) => report (Build.of (TemporalBuild.fromEpoch s ns))
  | some .null, _ => pure .null
  | _, some .null => pure .null
  | _, _ => (.null, some "datetime.fromepoch expects two integers")

def fromEpochMillis (args : List LoraValue) : EvalM LoraValue :=
  match MathNs.arg args 0 with
  | some (.int ms) => report (Build.of (TemporalBuild.fromEpochMillis ms))
  | some .null => pure .null
  | _ => (.null, some "datetime.fromepochmillis expects an integer")

def between (args : List LoraValue) : EvalM LoraValue :=
  match MathNs.arg args 0, MathNs.arg args 1 with
  | some (.date a), some (.date b) => pure (.duration (LoraDuration.betweenDates a b))
  | some (.dateTime a), some (.dateTime b) =>
    report (.duration <$> ExceptT.lift (LoraDuration.betweenDatetimes a b))
  | _, _ => pure .null

/-- Whole days from one date to another. -/
def inDays (args : List LoraValue) : EvalM LoraValue :=
  match MathNs.arg args 0, MathNs.arg args 1 with
  | some (.date a), some (.date b) =>
    pure (.duration ⟨0, .ofInt (b.toEpochDays - a.toEpochDays), 0, 0⟩)
  | _, _ => durationBetween args .days

/-- The operations that never read the clock, of those that can be folded. -/
def dispatchFixed (op : String) (args : List LoraValue) : Option (EvalM LoraValue) :=
  match op with
  | "parse" => some (parse tz db args)
  | "add" => some (pure (add tz args))
  | "between" => some (between args)
  | "in_days" => some (inDays args)
  | "duration_between" => some (durationBetween args .full)
  | "in_months" => some (durationBetween args .months)
  | "in_seconds" => some (durationBetween args .seconds)
  | "from_epoch" => some (fromEpoch args)
  | "from_epoch_millis" => some (fromEpochMillis args)
  | _ => none

def dispatch (op : String) (args : List LoraValue) : Option (EvalM LoraValue) :=
  match op with
  | "truncate" => some (truncate tz db t args)
  | op => dispatchFixed tz db op args

end Clocked

end TemporalNs

section Builtins

variable (lib : FloatLib) (tz : ZoneId → TimeZone) (db : ZoneDb) (t : Now)

def castDispatch (op : String) (args : List LoraValue) : Option (EvalM LoraValue) :=
  match op with
  | "to" => some (TypeNs.castTo lib tz db t args)
  | "try" => some (TypeNs.castTry lib tz db t args)
  | "can" => some (TypeNs.castCan lib tz db t args)
  | _ => none

/-- A name before and after its first point. -/
def splitOnce (name : String) : Option (String × String) :=
  match name.toList.dropWhile (· != '.') with
  | [] => none
  | _ :: op => some (String.ofList (name.toList.takeWhile (· != '.')), String.ofList op)

/-- The builtins that are evaluated without a graph. -/
def dispatchPure (name : String) (args : List LoraValue) : Option (EvalM LoraValue) :=
  match splitOnce name with
  | some ("math", op) => MathNs.dispatch lib op args
  | some ("temporal", op) => TemporalNs.dispatch tz db t op args
  | some ("cast", op) => castDispatch lib tz db t op args
  | some ("geo", op) => Geo.dispatch lib op args
  | _ => none

end Builtins

/-! ### Value limits -/

namespace Limits

def tooDeepMessage : String :=
  s!"value nests lists and maps more than {MAX_VALUE_NESTING} levels deep"

def tooLargeMessage : String :=
  s!"value is larger than the {MAX_VALUE_BYTES / 2 ^ 20} MiB limit for a single value"

/-- A list or map is one level deeper than its deepest item. -/
def checkBuilt (measured : ℕ × ℕ) : Except String Unit :=
  if MAX_VALUE_NESTING ≤ measured.1 then .error tooDeepMessage
  else if MAX_VALUE_BYTES < measured.2 then .error tooLargeMessage
  else .ok ()

/-- The size of a list of scalars and texts. -/
def flatListBytes (items : List LoraValue) : Option ℕ :=
  items.foldlM (fun bytes item => match item with
    | .string s => some (bytes + s.utf8ByteSize)
    | .list _ | .map _ | .binary _ | .path _ | .vector _ => none
    | _ => some bytes) (ELEMENT_BYTES * (items.length + 1))

def checkBuiltList (items : List LoraValue) : Except String Unit :=
  match flatListBytes items with
  | some bytes => if MAX_VALUE_BYTES < bytes then .error tooLargeMessage else .ok ()
  | none => checkBuilt (LoraValue.measureAll items)

/-- The values of a map; its keys are not counted. -/
def checkBuiltMap (entries : List (String × LoraValue)) : Except String Unit :=
  checkBuilt (LoraValue.measureAll (entries.map Prod.snd))

def checkValue (value : LoraValue) : Except String Unit :=
  match value with
  | .list items => checkBuiltList items
  | value =>
    if MAX_VALUE_NESTING < value.measure.1 then .error tooDeepMessage
    else if MAX_VALUE_BYTES < value.measure.2 then .error tooLargeMessage
    else .ok ()

def checkBytes (len : ℕ) : Except String Unit :=
  if len ≤ MAX_VALUE_BYTES then .ok () else .error tooLargeMessage

/-- What a builtin gave, or null with an error when it breaks a limit. -/
def withinLimits (value : LoraValue) (function : String) : EvalM LoraValue :=
  let checked : Except String Unit := match value with
    | .list items => if function = "list.range" then .ok () else checkValue (.list items)
    | .map entries => checkValue (.map entries)
    | .string s => checkBytes s.utf8ByteSize
    | _ => .ok ()
  match checked with
  | .ok () => pure value
  | .error message => (.null, some message)

def builtList (items : List LoraValue) : EvalM LoraValue :=
  match checkBuiltList items with
  | .ok () => pure (.list items)
  | .error message => (.null, some message)

def builtMap (entries : List (String × LoraValue)) : EvalM LoraValue :=
  match checkBuiltMap entries with
  | .ok () => pure (.map entries)
  | .error message => (.null, some message)

theorem builtList_eq {items : List LoraValue} (h : (checkBuiltList items).toBool = true) :
    builtList items = pure (.list items) := by
  rw [builtList]
  cases hcheck : checkBuiltList items with
  | ok u => rfl
  | error e =>
    rw [hcheck] at h
    exact (nomatch h)

theorem builtMap_eq {entries : List (String × LoraValue)}
    (h : (checkBuiltMap entries).toBool = true) : builtMap entries = pure (.map entries) := by
  rw [builtMap]
  cases hcheck : checkBuiltMap entries with
  | ok u => rfl
  | error e =>
    rw [hcheck] at h
    exact (nomatch h)

end Limits

/-! ### Evaluating calls -/

section Evaluation

variable (lib : FloatLib) (tz : ZoneId → TimeZone) (db : ZoneDb)

/-- The operators and builtins at a moment; `rest` are the other operators, and the builtins
that are not pure. -/
def opsAt (rest : ValueOps) (t : Now) : ValueOps :=
  { rest with
    builtList := Limits.builtList
    form := fun form values => match form with
      | .list => Limits.builtList values
      | .map keys => Limits.builtMap (SortedMap.putAll [] (keys.zip values))
      | .function function _ =>
        if function.isAggregate then pure .null
        else do
          let value ← (dispatchPure lib tz db t function.name values).getD (rest.form form values)
          Limits.withinLimits value function.name
      | form => rest.form form values }

/-- What an evaluation gives and leaves in the error slot, with an error already pending. -/
def evalFrom {α : Type} (pending : Option String) (x : EvalM α) : α × Option String :=
  (x.value, x.error.or pending)

end Evaluation

/-! ### Folding -/

/-- A literal of a plan. -/
inductive LiteralValue where
  | null
  | bool (value : Bool)
  | integer (value : Int64)
  | float (value : F64)
  | string (value : String)
  | typeName (value : String)
  | value (value : PropertyValue)

def evalLiteral : LiteralValue → LoraValue
  | .integer v => .int v
  | .float v => .float v
  | .string v => .string v
  | .typeName v => .string v
  | .bool v => .bool v
  | .null => .null
  | .value v => .ofProperty v

namespace Fold

def MAX_FOLDED_STRING : ℕ := 4096

/-- Builtins that are taken to depend on their arguments alone. -/
def FOLDABLE : List String :=
  ["cast.to", "cast.try", "cast.can", "geo.point", "geo.distance", "temporal.parse",
    "temporal.add", "temporal.truncate", "temporal.between", "temporal.duration_between",
    "temporal.in_days", "temporal.in_months", "temporal.in_seconds", "temporal.from_epoch",
    "temporal.from_epoch_millis", "math.min", "math.max", "math.round", "math.trunc",
    "math.sigmoid", "math.tanh", "math.cosh", "math.sinh", "math.cot", "math.coth", "math.atan2",
    "math.pow", "math.hypot", "math.log_base", "math.gcd", "math.lcm", "math.clamp", "math.lerp",
    "math.abs", "math.ceil", "math.floor", "math.sqrt", "math.sign", "math.log", "math.ln",
    "math.log10", "math.exp", "math.sin", "math.cos", "math.tan", "math.asin", "math.acos",
    "math.atan", "math.degrees", "math.radians", "math.pi", "math.e"]

def isFoldable (name : String) : Bool := FOLDABLE.contains name

mutual

/-- The value of a constant: a literal, or a list or map of constants. -/
def constant : ResolvedExpr → Option LoraValue
  | .literal value => some value
  | .apply .list items => (constants items).map .list
  | .apply (.map keys) values =>
    (constants values).map fun values => .map (SortedMap.putAll [] (keys.zip values))
  | _ => none
termination_by structural e => e

def constants : List ResolvedExpr → Option (List LoraValue)
  | [] => some []
  | e :: es => do
    let value ← constant e
    let values ← constants es
    some (value :: values)
termination_by structural es => es

end

/-- A value as a literal. A `TIME` has none, nor has what a call can make large. -/
def literal (value : LoraValue) : Option LiteralValue :=
  match value with
  | .null => some .null
  | .bool b => some (.bool b)
  | .int i => some (.integer i)
  | .float f => some (.float f)
  | .string s => if s.utf8ByteSize ≤ MAX_FOLDED_STRING then some (.string s) else none
  | .date _ | .localTime _ | .dateTime _ | .localDateTime _ | .duration _ | .point _ =>
    some (.value (.ofValue value))
  | _ => none

section Calls

variable (lib : FloatLib) (tz : ZoneId → TimeZone) (db : ZoneDb) (t : Now)

/-- The value of a call as a literal, and what is left in the error slot. -/
def foldCall (slot : Option String) (function : FunctionId) (args : List ResolvedExpr) :
    Option LiteralValue × Option String :=
  if function.isAggregate then (none, slot)
  else if !isFoldable function.name then (none, slot)
  else
    match constants args with
    | none => (none, slot)
    | some args =>
      -- The slot belongs to whatever evaluation is in progress: it is taken and set again.
      let outer := slot
      match dispatchPure lib tz db t function.name args with
      | none => (none, outer)
      | some x =>
        let (value, inner) := evalFrom none x
        if inner.isSome then (none, outer) else (literal value, outer)

/-- The slot is left as it was, whatever the call. -/
theorem foldCall_slot (slot : Option String) (function : FunctionId) (args : List ResolvedExpr) :
    (foldCall lib tz db t slot function args).2 = slot := by
  rw [foldCall]
  split
  · rfl
  · split
    · rfl
    · split
      · rfl
      · dsimp only
        split
        · rfl
        · split <;> rfl

end Calls

end Fold

namespace TemporalNs

open TemporalBuild TypeNs

/-! ### Builtins at two moments -/

section Clocked

variable {tz : ZoneId → TimeZone} {db : ZoneDb} (t t' : Now)

theorem SameEval.report {x y : Build LoraValue} (h : SameButTimes x y) :
    SameEval (report x) (report y) := by
  rcases h with rfl | ⟨v, w, rfl, rfl⟩
  · exact .inl rfl
  · exact .inr ⟨v, w, rfl, rfl⟩

theorem SameEval.orNull {x y : Build LoraValue} (h : SameButTimes x y) :
    SameEval (orNull x) (orNull y) := by
  rcases h with rfl | ⟨v, w, rfl, rfl⟩
  · exact .inl rfl
  · exact .inr ⟨v, w, rfl, rfl⟩

theorem truncateTwo_same (a b : LoraValue) :
    SameEval (truncateTwo tz db t a b) (truncateTwo tz db t' a b) := by
  rw [truncateTwo, truncateTwo]
  cases truncatePair a b with
  | none => exact .inl rfl
  | some pair => exact SameEval.orNull (truncate_same t t' pair.1 pair.2 none none)

theorem truncateWith_same (a b map : LoraValue) (kind : Option Kind) :
    SameEval (truncateWith tz db t a b map kind) (truncateWith tz db t' a b map kind) := by
  rw [truncateWith, truncateWith]
  cases truncateArgs a b map with
  | error result => exact .inl rfl
  | ok parts => exact SameEval.report (truncate_same t t' parts.1 parts.2.1 parts.2.2 kind)

theorem truncate_args_same (args : List LoraValue) :
    SameEval (truncate tz db t args) (truncate tz db t' args) := by
  rw [truncate.eq_def, truncate.eq_def]
  split
  · exact truncateTwo_same t t' _ _
  · split
    · exact .inl rfl
    · exact truncateWith_same t t' _ _ _ _
  · exact .inl rfl

theorem SameEval.rel_refl (x : Option (EvalM LoraValue)) : Option.Rel SameEval x x := by
  cases x with
  | none => exact .none
  | some x => exact .some (.inl rfl)

theorem dispatch_same (op : String) (args : List LoraValue) :
    Option.Rel SameEval (dispatch tz db t op args) (dispatch tz db t' op args) := by
  rw [dispatch.eq_def, dispatch.eq_def]
  split
  · exact .some (truncate_args_same t t' args)
  · exact SameEval.rel_refl _

end Clocked

end TemporalNs

section Clocked

open TypeNs

variable (lib : FloatLib) {tz : ZoneId → TimeZone} {db : ZoneDb} (t t' : Now)

theorem castDispatch_same {args : List LoraValue} (h : callReadsClock tz db t args = false)
    (op : String) :
    Option.Rel SameEval (castDispatch lib tz db t op args) (castDispatch lib tz db t' op args) := by
  by_cases hto : op = "to"
  · subst hto
    exact .some (castTo_same lib t t' h)
  · by_cases htry : op = "try"
    · subst htry
      exact .some (castTry_same lib t t' h)
    · by_cases hcan : op = "can"
      · subst hcan
        exact .some (.inl (castCan_eq lib t t' h))
      · have hnone (t : Now) : castDispatch lib tz db t op args = none := by
          rw [castDispatch.eq_def]
          split
          · exact absurd rfl hto
          · exact absurd rfl htry
          · exact absurd rfl hcan
          · rfl
        rw [hnone, hnone]
        exact .none

theorem dispatchPure_same (name : String) (args : List LoraValue)
    (h : ∀ op, splitOnce name = some ("cast", op) → callReadsClock tz db t args = false) :
    Option.Rel SameEval (dispatchPure lib tz db t name args)
      (dispatchPure lib tz db t' name args) := by
  rw [dispatchPure.eq_def, dispatchPure.eq_def]
  split
  · exact TemporalNs.SameEval.rel_refl _
  · exact TemporalNs.dispatch_same t t' _ args
  · next op hname => exact castDispatch_same lib t t' (h op hname) op
  · exact TemporalNs.SameEval.rel_refl _
  · exact .none

end Clocked

/-! ### Constants -/

theorem EvalM.pure_bind {α β : Type} (a : α) (f : α → EvalM β) :
    ((pure a : EvalM α) >>= f) = f a := by
  change ((f a).1, (f a).2.or none) = f a
  rw [Option.or_none]
  rfl

namespace Fold

mutual

/-- Every list and map of a constant is within the value limits. -/
def withinLimits : ResolvedExpr → Bool
  | .apply .list items =>
    allWithinLimits items &&
      (constants items).all fun values => (Limits.checkBuiltList values).toBool
  | .apply (.map keys) values =>
    allWithinLimits values && (constants values).all fun values =>
      (Limits.checkBuiltMap (SortedMap.putAll [] (keys.zip values))).toBool
  | _ => true
termination_by structural e => e

def allWithinLimits : List ResolvedExpr → Bool
  | [] => true
  | e :: es => withinLimits e && allWithinLimits es
termination_by structural es => es

end

section Sound

variable (lib : FloatLib) (tz : ZoneId → TimeZone) (db : ZoneDb) (t : Now)

/-- A call reads the clock: it is a cast that does. -/
def readsClock (function : FunctionId) (args : List ResolvedExpr) : Bool :=
  match splitOnce function.name, constants args with
  | some ("cast", _), some args => TypeNs.callReadsClock tz db t args
  | _, _ => false

/-- The context of an evaluation at a moment. -/
def contextAt (storage : InMemoryGraph) (params : String → Option LoraValue) (rest : ValueOps) :
    EvalContext := ⟨storage, params, opsAt lib tz db rest t⟩

variable {lib tz db t} {storage : InMemoryGraph} {params : String → Option LoraValue}
  {rest : ValueOps} {row : Row}

mutual

/-- A constant within the limits evaluates to its value, in any row. -/
theorem eval_constant : ∀ (e : ResolvedExpr) {value : LoraValue}, constant e = some value →
    withinLimits e = true → e.eval (contextAt lib tz db t storage params rest) row = pure value
  | .literal _, _, h, _ => by
    rw [constant] at h
    rw [ResolvedExpr.eval, Option.some.inj h]
  | .apply .list items, _, h, hlimits => by
    rw [constant, Option.map_eq_some_iff] at h
    obtain ⟨values, hvalues, rfl⟩ := h
    rw [withinLimits, Bool.and_eq_true, hvalues, Option.all_some] at hlimits
    rw [ResolvedExpr.eval, evalAll_constants items hvalues hlimits.1, EvalM.pure_bind]
    exact Limits.builtList_eq hlimits.2
  | .apply (.map keys) operands, _, h, hlimits => by
    rw [constant, Option.map_eq_some_iff] at h
    obtain ⟨values, hvalues, rfl⟩ := h
    rw [withinLimits, Bool.and_eq_true, hvalues, Option.all_some] at hlimits
    rw [ResolvedExpr.eval, evalAll_constants operands hvalues hlimits.1, EvalM.pure_bind]
    exact Limits.builtMap_eq hlimits.2

theorem evalAll_constants : ∀ (es : List ResolvedExpr) {values : List LoraValue},
    constants es = some values → allWithinLimits es = true →
      ResolvedExpr.evalAll (contextAt lib tz db t storage params rest) es row = pure values
  | [], _, h, _ => by
    rw [constants] at h
    rw [ResolvedExpr.evalAll, Option.some.inj h]
  | e :: es, _, h, hlimits => by
    rw [constants] at h
    obtain ⟨value, hvalue, h⟩ := Option.bind_eq_some_iff.mp h
    obtain ⟨values, hvalues, h⟩ := Option.bind_eq_some_iff.mp h
    rw [allWithinLimits, Bool.and_eq_true] at hlimits
    rw [ResolvedExpr.evalAll, eval_constant e hvalue hlimits.1, EvalM.pure_bind,
      evalAll_constants es hvalues hlimits.2, EvalM.pure_bind, Option.some.inj h]

end

variable {lit : LiteralValue}

/-- What a literal's value is: that of the literal, no `TIME`, and small. -/
theorem literal_spec {value : LoraValue} (h : literal value = some lit) :
    value = evalLiteral lit ∧ (∀ v, value ≠ .time v) ∧
      ∀ function, Limits.withinLimits value function = pure value := by
  cases value with
  | string s =>
    rw [literal] at h
    split at h
    · next hsize =>
      refine ⟨congrArg evalLiteral (Option.some.inj h), fun _ => (nomatch ·), fun function => ?_⟩
      have hbytes : Limits.checkBytes s.utf8ByteSize = .ok () :=
        if_pos (hsize.trans (by decide))
      simp only [Limits.withinLimits, hbytes]
    · exact (nomatch h)
  | null | bool _ | int _ | float _ | date _ | localTime _ | dateTime _ | localDateTime _
  | duration _ | point _ =>
    exact ⟨congrArg evalLiteral (Option.some.inj h), fun _ => (nomatch ·), fun _ => rfl⟩
  | binary _ | list _ | map _ | node _ | relationship _ | path _ | time _ | vector _ =>
    simp [literal] at h

/-- A call that is folded is one of constants that does not fail. -/
theorem foldCall_spec {slot : Option String} {function : FunctionId} {args : List ResolvedExpr}
    (h : (foldCall lib tz db t slot function args).1 = some lit) :
    function.isAggregate = false ∧ isFoldable function.name = true ∧ ∃ values value,
      constants args = some values ∧
      dispatchPure lib tz db t function.name values = some (pure value) ∧
      literal value = some lit := by
  rw [foldCall] at h
  split at h
  · exact (nomatch h)
  · next haggregate =>
    split at h
    · exact (nomatch h)
    · next hfoldable =>
      split at h
      · exact (nomatch h)
      · next values hvalues =>
        dsimp only at h
        split at h
        · exact (nomatch h)
        · next x hx =>
          split at h
          · exact (nomatch h)
          · next herror =>
            refine ⟨by simpa using haggregate, by simpa using hfoldable, values, x.value, hvalues,
              ?_, h⟩
            have hnone : x.error = none := by simpa [evalFrom] using herror
            rw [hx]
            exact congrArg some (Prod.ext rfl hnone)

/-- A folded call has the value of its literal whenever it is evaluated, whatever error is
pending, unless it reads the clock or breaks a value limit on its arguments. -/
theorem foldCall_right {slot : Option String} {function : FunctionId} {args : List ResolvedExpr}
    (h : (foldCall lib tz db t slot function args).1 = some lit)
    (hclock : readsClock tz db t function args = false)
    (hlimits : allWithinLimits args = true) (t' : Now) (pending : Option String)
    (distinct : Bool) :
    evalFrom pending ((ResolvedExpr.call function distinct args).eval
      (contextAt lib tz db t' storage params rest) row) = (evalLiteral lit, pending) := by
  obtain ⟨haggregate, hfoldable, values, value, hvalues, hvalue, hlit⟩ := foldCall_spec h
  obtain ⟨hright, htime, hsmall⟩ := literal_spec hlit
  have hsame := dispatchPure_same lib t t' function.name values fun op hop => by
    rw [readsClock, hop, hvalues] at hclock
    exact hclock
  have hlater : dispatchPure lib tz db t' function.name values = some (pure value) := by
    rw [hvalue] at hsame
    cases hlater : dispatchPure lib tz db t' function.name values with
    | none =>
      rw [hlater] at hsame
      exact (nomatch hsame)
    | some y =>
      rw [hlater] at hsame
      cases hsame with
      | some hsame =>
        rcases hsame with rfl | ⟨v, w, hv, -⟩
        · rfl
        · exact absurd (congrArg Prod.fst hv) (htime v)
  have hbuiltin : function ≠ HAS_LABEL := by
    rintro rfl
    exact absurd hfoldable (by decide)
  have heval : (ResolvedExpr.call function distinct args).eval
      (contextAt lib tz db t' storage params rest) row = pure value := by
    rw [ResolvedExpr.eval, evalAll_constants args hvalues hlimits, EvalM.pure_bind]
    simp only [EvalContext.evalForm, if_neg hbuiltin]
    simp only [contextAt, opsAt, haggregate, Bool.false_eq_true, if_false, hlater,
      Option.getD_some, EvalM.pure_bind, hsmall]
  rw [heval, evalFrom, ← hright]
  rfl

/-- **Folding is invisible** where the clock is not read: it leaves the error slot as it was, and
the value of a folded call is that of its literal at every later moment, whatever error is
pending, if the lists and maps among the arguments are within the value limits. -/
theorem folding_invisible (lib : FloatLib) (tz : ZoneId → TimeZone) (db : ZoneDb) (t : Now)
    (slot : Option String) (function : FunctionId) (args : List ResolvedExpr) :
    (foldCall lib tz db t slot function args).2 = slot ∧
      ∀ lit, (foldCall lib tz db t slot function args).1 = some lit →
        readsClock tz db t function args = false → allWithinLimits args = true →
        ∀ t' pending storage params rest row distinct,
          evalFrom pending ((ResolvedExpr.call function distinct args).eval
            (contextAt lib tz db t' storage params rest) row) = (evalLiteral lit, pending) :=
  ⟨foldCall_slot lib tz db t slot function args,
    fun _ h hclock hlimits t' pending _ _ _ _ distinct =>
      foldCall_right h hclock hlimits t' pending distinct⟩

end Sound

/-! ### Runs -/

open WalCodec LoraDateTime

/-- A library of no floats. -/
def noFloats : FloatLib := ⟨fun _ => "", fun _ => none, fun _ => ⟨0⟩, fun _ f => f, fun _ f _ => f⟩

def castTo : FunctionId := ⟨"cast.to", false⟩

/-- `date({year: 2024, month: 2})` -/
def february : List ResolvedExpr :=
  [.apply (.map ["month", "year"]) [.literal (.int 2), .literal (.int 2024)],
    .literal (.string "DATE")]

/-- `date({timezone: 'Z'})` -/
def today : List ResolvedExpr :=
  [.apply (.map ["timezone"]) [.literal (.string "Z")], .literal (.string "DATE")]

/-- Operators that give null. -/
def nullOps : ValueOps where
  form _ _ := pure .null
  valueEq _ _ := false
  builtList values := pure (.list values)
  mapProjection _ _ _ := pure .null
  slice _ _ _ := pure .null
  subquery _ _ := pure .null
  valueMatches _ _ := false

/-- The call at a moment, without floats. -/
def evalCast (t : Now) (pending : Option String) (args : List ResolvedExpr) :
    LoraValue × Option String :=
  evalFrom pending ((ResolvedExpr.call castTo false args).eval
    (contextAt noFloats summerZones unaryZones t InMemoryGraph.new (fun _ => none)
      nullOps) Row.empty)

theorem folding_invisible_february :
    evalCast ⟨1000000, 0⟩ (some "pending") february = (.date ⟨2024, 2, 1⟩, some "pending") := by
  have hfold : (foldCall noFloats summerZones unaryZones ⟨0, 0⟩ none castTo
      february).1 = some (.value (.date ⟨2024, 2, 1⟩)) := by
    rfl
  exact (folding_invisible noFloats summerZones unaryZones ⟨0, 0⟩ none castTo
    february).2 _ hfold (by rfl) (by rfl) ⟨1000000, 0⟩ (some "pending") _ _ _ _ _

/-- A day later `date({timezone: 'Z'})` is another date, the literal is not. -/
theorem folding_frozen :
    ∃ lit, (foldCall noFloats summerZones unaryZones ⟨0, 0⟩ none castTo today).1 =
        some lit ∧ evalLiteral lit = .date ⟨1970, 1, 1⟩ ∧
      evalCast ⟨86400, 0⟩ none today = (.date ⟨1970, 1, 2⟩, none) := by
  refine ⟨.value (.date ⟨1970, 1, 1⟩), ?_, rfl, ?_⟩
  · rfl
  · rfl

end Fold

end LoraDb
