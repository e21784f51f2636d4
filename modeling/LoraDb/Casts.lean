import LoraDb.SetClause
import LoraDb.TemporalBuild

/-!
# Casts

`cast.to`, `cast.try` and `cast.can`: reading the name of a type, and the value of that type that
another value gives. A cast to a temporal type parses a text, builds a map's value or takes the
components of another temporal, so it may read the clock as those do.

## Main results

* `castValue_same`: a cast that does not read the clock has one result, up to which `TIME` it is.
-/

open ByteCodec Binary64

namespace LoraDb

/-- What the **standard library** computes of floats, and how it prints and reads them. -/
structure FloatLib where
  display : F64 → String
  parse : String → Option F64
  toF32 : F64 → F32
  /-- The unary functions, by their names. -/
  unary : String → F64 → F64
  /-- The binary functions, by their names. -/
  binary : String → F64 → F64 → F64

/-! ### Texts -/

/-- `{:0w}` of a number. -/
def padded (width n : ℕ) : String :=
  let digits := toString n
  String.ofList (List.replicate (width - digits.length) '0') ++ digits

/-- `{:04}` of a year: the sign counts in the width. -/
def paddedYear (year : ℤ) : String :=
  if year < 0 then "-" ++ padded 3 year.natAbs else padded 4 year.natAbs

def dateDisplay (year : Int32) (month day : UInt32) : String :=
  paddedYear year.toInt ++ "-" ++ padded 2 month.toNat ++ "-" ++ padded 2 day.toNat

def formatSubsecond (nanosecond : UInt32) : String :=
  let n := nanosecond.toNat
  if n = 0 then ""
  else if 0 < n / 1000000 ∧ n % 1000000 = 0 then "." ++ padded 3 (n / 1000000)
  else "." ++ padded 9 n

def formatOffset (offset : Int32) : String :=
  if offset.toInt = 0 then "Z"
  else
    let n := offset.toInt.natAbs
    (if 0 ≤ offset.toInt then "+" else "-") ++ padded 2 (n / 3600) ++ ":" ++
      padded 2 (n % 3600 / 60)

def clockDisplay (hour minute second nanosecond : UInt32) : String :=
  padded 2 hour.toNat ++ ":" ++ padded 2 minute.toNat ++ ":" ++ padded 2 second.toNat ++
    formatSubsecond nanosecond

def LoraDate.display (v : LoraDate) : String := dateDisplay v.year v.month v.day

def LoraTime.display (v : LoraTime) : String :=
  clockDisplay v.hour v.minute v.second v.nanosecond ++ formatOffset v.offsetSeconds

def LoraLocalTime.display (v : LoraLocalTime) : String :=
  clockDisplay v.hour v.minute v.second v.nanosecond

def LoraDateTime.display (db : ZoneDb) (v : LoraDateTime) : String :=
  dateDisplay v.year v.month v.day ++ "T" ++ clockDisplay v.hour v.minute v.second v.nanosecond ++
    formatOffset v.offsetSeconds ++ v.zone.elim "" fun zone => "[" ++ db.name zone ++ "]"

def LoraLocalDateTime.display (v : LoraLocalDateTime) : String :=
  dateDisplay v.year v.month v.day ++ "T" ++ clockDisplay v.hour v.minute v.second v.nanosecond

namespace LoraDuration

/-- Seconds and nanoseconds as one signed quantity: whole seconds, the fraction and its
sign. -/
def secondsDisplay (dur : LoraDuration) : ℤ × ℕ × Bool :=
  let nanos := dur.nanoseconds.toInt
  if nanos = 0 then (dur.seconds.toInt, 0, decide (dur.seconds.toInt < 0))
  else
    let secs := max (-2 ^ 63) (min (2 ^ 63 - 1) (dur.seconds.toInt + nanos.tdiv 1000000000))
    let frac := nanos.tmod 1000000000
    let (secs, frac) :=
      if 0 < secs ∧ frac < 0 then (secs - 1, frac + 1000000000)
      else if secs < 0 ∧ 0 < frac then (secs + 1, frac - 1000000000)
      else (secs, frac)
    (secs, frac.natAbs, decide (secs < 0 ∨ frac < 0))

/-- A component with its designator, unless it is zero. -/
def component (n : ℤ) (designator : String) : String :=
  if n = 0 then "" else toString n ++ designator

def display (dur : LoraDuration) : String :=
  let (total, frac, negative) := dur.secondsDisplay
  let secs := total.tmod 60
  let isZero := total = 0 ∧ frac = 0
  let time :=
    if isZero then ""
    else "T" ++ component (total.tdiv 3600) "H" ++ component ((total.tmod 3600).tdiv 60) "M" ++
      (if frac ≠ 0 then
        let digits := (padded 9 frac).toList.reverse.dropWhile (· == '0')
        (if negative then "-" else "") ++ toString secs.natAbs ++ "." ++
          String.ofList digits.reverse ++ "S"
      else component secs "S")
  "P" ++ component (dur.months.toInt.tdiv 12) "Y" ++ component (dur.months.toInt.tmod 12) "M" ++
    component dur.days.toInt "D" ++ time ++
    (if dur.months.toInt = 0 ∧ dur.days.toInt = 0 ∧ isZero then "0D" else "")

end LoraDuration

/-- `s.parse::<i64>()` -/
def parseI64 (s : String) : Option Int64 :=
  let digits (sign : ℤ) (ds : List Char) : Option Int64 :=
    if ds ≠ [] ∧ ds.all Char.isDigit = true then
      (checked (sign * Nat.ofDigitChars 10 ds 0)).map .ofInt
    else none
  match s.toList with
  | '+' :: ds => digits 1 ds
  | '-' :: ds => digits (-1) ds
  | ds => digits 1 ds

/-! ### Vectors -/

inductive VectorCoordinateType where
  | float64
  | float32
  | integer64
  | integer32
  | integer16
  | integer8
deriving DecidableEq

namespace VectorCoordinateType

def asStr : VectorCoordinateType → String
  | .float64 => "FLOAT64"
  | .float32 => "FLOAT32"
  | .integer64 => "INTEGER"
  | .integer32 => "INTEGER32"
  | .integer16 => "INTEGER16"
  | .integer8 => "INTEGER8"

/-- The words of a text, between **white space**. -/
def splitWhitespace (s : List Char) : List String :=
  ((s.splitOnP isWhitespace).filter (· ≠ [])).map String.ofList

/-- Aliases in any case. -/
def parse (name : String) : Option VectorCoordinateType :=
  match (splitWhitespace name.toList).map String.toLower with
  | ["signed", "integer"] => some .integer64
  | ["float"] | ["float64"] => some .float64
  | ["float32"] => some .float32
  | ["integer"] | ["int"] | ["int64"] | ["integer64"] => some .integer64
  | ["integer32"] | ["int32"] => some .integer32
  | ["integer16"] | ["int16"] => some .integer16
  | ["integer8"] | ["int8"] => some .integer8
  | _ => none

end VectorCoordinateType

def VectorValues.coordinateTag : VectorValues → VectorCoordinateType
  | .float64 _ => .float64
  | .float32 _ => .float32
  | .integer64 _ => .integer64
  | .integer32 _ => .integer32
  | .integer16 _ => .integer16
  | .integer8 _ => .integer8

/-- A coordinate before it is coerced. -/
inductive RawCoordinate where
  | int (value : Int64)
  | float (value : F64)

namespace RawCoordinate

def asF64 : RawCoordinate → F64
  | .int v => .ofInt v
  | .float v => v

/-- The coordinate as an integer of a width, if it fits. -/
def coerceToInt (bits : ℕ) (raw : RawCoordinate) : Option ℤ := do
  let n ← match raw with
    | .int v => some v.toInt
    | .float v =>
      if v.gt (.ofInt Int64.maxValue) || v.lt (.ofInt Int64.minValue) then none
      else some v.truncate.castI64.toInt
  if -2 ^ (bits - 1) ≤ n ∧ n < 2 ^ (bits - 1) then some n else none

end RawCoordinate

def MAX_VECTOR_DIMENSION : ℕ := 4096

/-- `f32::MAX as f64` -/
def F32_MAX : F64 := ⟨0x47EFFFFFE0000000⟩

/-- Builds a vector of coordinates that are finite and in the range of its type. -/
def LoraVector.tryNew (lib : FloatLib) (raw : List RawCoordinate) (dimension : ℕ)
    (coordinateType : VectorCoordinateType) : Option LoraVector :=
  if dimension = 0 ∨ MAX_VECTOR_DIMENSION < dimension ∨ raw.length ≠ dimension then none
  else if raw.any fun c => match c with
      | .float v => !v.isFinite
      | .int _ => false then none
  else
    let values : Option VectorValues := match coordinateType with
      | .float64 => some (.float64 (raw.map RawCoordinate.asF64))
      | .float32 =>
        if raw.any fun c => c.asF64.abs.gt F32_MAX then none
        else some (.float32 (raw.map fun c => lib.toF32 c.asF64))
      | .integer64 => (raw.mapM (RawCoordinate.coerceToInt 64)).map fun ns =>
        .integer64 (ns.map .ofInt)
      | .integer32 => (raw.mapM (RawCoordinate.coerceToInt 32)).map fun ns =>
        .integer32 (ns.map .ofInt)
      | .integer16 => (raw.mapM (RawCoordinate.coerceToInt 16)).map fun ns =>
        .integer16 (ns.map .ofInt)
      | .integer8 => (raw.mapM (RawCoordinate.coerceToInt 8)).map fun ns =>
        .integer8 (ns.map .ofInt)
    values.map fun values => { dimension := .ofNat dimension, values }

/-- Reads a text such as `[1.05e+00, 0.123, 5]`. -/
def parseStringValues (lib : FloatLib) (s : String) : Option (List RawCoordinate) :=
  match trim s.toList with
  | '[' :: rest =>
    if rest.getLast? ≠ some ']' then none
    else
      let body := rest.dropLast
      if trim body = [] then some []
      else (body.splitOn ',').mapM fun part =>
        let token := String.ofList (trim part)
        if token = "" then none
        else match parseI64 token with
          | some i => some (.int i)
          | none => do
            let f ← lib.parse token
            if f.isFinite then some (.float f) else none
  | _ => none

/-! ### Types -/

inductive RuntimeType where
  | null
  | boolean
  | integer
  | float
  | string
  | binary
  /-- A list of no type in particular. -/
  | list
  | listOf (element : RuntimeType)
  | map
  | node
  | edge
  | path
  | date
  | time
  | localTime
  | dateTime
  | localDateTime
  | duration
  | point
  | vector (coord : Option VectorCoordinateType) (dimension : Option ℕ)
  | any

namespace RuntimeType

def normalizeTypeName (value : List Char) : List Char :=
  (trim value).map fun ch => if ch = '-' ∨ isWhitespace ch then '_' else ch.toUpper

def named : String → Option RuntimeType
  | "NULL" => some .null
  | "BOOLEAN" | "BOOL" => some .boolean
  | "INTEGER" | "INT" => some .integer
  | "FLOAT" | "REAL" | "DOUBLE" => some .float
  | "STRING" | "TEXT" => some .string
  | "BINARY" | "BYTES" => some .binary
  | "MAP" => some .map
  | "NODE" => some .node
  | "EDGE" | "RELATIONSHIP" => some .edge
  | "PATH" => some .path
  | "DATE" => some .date
  | "TIME" | "ZONED_TIME" => some .time
  | "LOCAL_TIME" => some .localTime
  | "DATETIME" | "DATE_TIME" | "ZONED_DATETIME" | "ZONED_DATE_TIME" => some .dateTime
  | "LOCAL_DATETIME" | "LOCAL_DATE_TIME" => some .localDateTime
  | "DURATION" => some .duration
  | "POINT" => some .point
  | _ => none

/-- The dimension after a `VECTOR<…>`, in brackets. -/
def parseDimension (tail : List Char) : Option ℕ :=
  match tail with
  | '(' :: rest =>
    if rest.getLast? = some ')' then
      let digits := match rest.dropLast with
        | '+' :: ds => ds
        | ds => ds
      if digits ≠ [] ∧ digits.all Char.isDigit = true ∧ Nat.ofDigitChars 10 digits 0 < 2 ^ 64 then
        some (Nat.ofDigitChars 10 digits 0)
      else none
    else none
  | _ => none

/-- `VECTOR<coord>` or `VECTOR<coord>(dimension)`, after the first bracket. -/
def parseVector (rest : List Char) : Option RuntimeType :=
  match rest.dropWhile (· != '>') with
  | [] => none
  | _ :: tail => do
    let coord := (rest.takeWhile (· != '>')).map fun ch => if ch = '_' then ' ' else ch
    let coord ← VectorCoordinateType.parse (String.ofList (trim coord))
    if tail = [] then some (.vector (some coord) none)
    else do
      let dimension ← parseDimension tail
      some (.vector (some coord) (some dimension))

/-- The type a text names; `fuel` is at least the length of the text. -/
def parseWith : ℕ → List Char → Option RuntimeType
  | 0, _ => none
  | fuel + 1, input =>
    let normalized := normalizeTypeName input
    if normalized = "ANY".toList then some .any
    else if normalized = "LIST".toList then some .list
    else if normalized.take 5 = "LIST<".toList ∧ (normalized.drop 5).getLast? = some '>' then
      (parseWith fuel (normalized.drop 5).dropLast).map .listOf
    else if normalized = "VECTOR".toList then some (.vector none none)
    else if normalized.take 7 = "VECTOR<".toList then parseVector (normalized.drop 7)
    else named (String.ofList normalized)

def parse (input : String) : Option RuntimeType := parseWith (input.length + 1) input.toList

def display : RuntimeType → String
  | .null => "NULL"
  | .boolean => "BOOLEAN"
  | .integer => "INTEGER"
  | .float => "FLOAT"
  | .string => "STRING"
  | .binary => "BINARY"
  | .list => "LIST"
  | .listOf element => "LIST<" ++ element.display ++ ">"
  | .map => "MAP"
  | .node => "NODE"
  | .edge => "EDGE"
  | .path => "PATH"
  | .date => "DATE"
  | .time => "TIME"
  | .localTime => "LOCAL_TIME"
  | .dateTime => "DATETIME"
  | .localDateTime => "LOCAL_DATETIME"
  | .duration => "DURATION"
  | .point => "POINT"
  | .vector coord dimension =>
    match coord, dimension with
    | some coord, some dimension => "VECTOR<" ++ coord.asStr ++ ">(" ++ toString dimension ++ ")"
    | some coord, none => "VECTOR<" ++ coord.asStr ++ ">"
    | none, _ => "VECTOR"
  | .any => "ANY"

end RuntimeType

/-! ### Points -/

inductive PointKeyFamily where
  | cartesian
  | geographic
deriving DecidableEq

namespace PointKeyFamily

def asKeyDescription : PointKeyFamily → String
  | .cartesian => "cartesian (x/y)"
  | .geographic => "geographic (longitude/latitude)"

def asSridDescription : PointKeyFamily → String
  | .cartesian => "cartesian"
  | .geographic => "geographic"

end PointKeyFamily

namespace Srid

def CARTESIAN : ℕ := 7203
def CARTESIAN_3D : ℕ := 9157
def WGS84 : ℕ := 4326
def WGS84_3D : ℕ := 4979

def fromCrsName (name : String) : Option ℕ :=
  match name.toLower with
  | "cartesian" => some CARTESIAN
  | "cartesian-3d" => some CARTESIAN_3D
  | "wgs-84" | "wgs-84-2d" => some WGS84
  | "wgs-84-3d" => some WGS84_3D
  | _ => none

def isSupported (srid : ℕ) : Bool :=
  srid == CARTESIAN || srid == CARTESIAN_3D || srid == WGS84 || srid == WGS84_3D

def is3d (srid : ℕ) : Bool := srid == CARTESIAN_3D || srid == WGS84_3D

def isGeographic (srid : ℕ) : Bool := srid == WGS84 || srid == WGS84_3D

def familyOf (srid : ℕ) : PointKeyFamily := if isGeographic srid then .geographic else .cartesian

def dimensions (is3d : Bool) : String := if is3d then "3D" else "2D"

def ofCrs (crs : Option String) : Except String (Option ℕ) :=
  match crs with
  | none => .ok none
  | some name =>
    match fromCrsName name with
    | some srid => .ok (some srid)
    | none => .error ("point() got unsupported crs \x60" ++ name ++
      "\x60 (expected one of cartesian, cartesian-3D, WGS-84, WGS-84-3D)")

def ofNumber (srid : Option Int64) : Except String (Option ℕ) :=
  match srid with
  | none => .ok none
  | some n =>
    if n.toInt < 0 ∨ 2 ^ 32 ≤ n.toInt then .error s!"point() got unsupported srid {n.toInt}"
    else if isSupported n.toInt.toNat then .ok (some n.toInt.toNat)
    else .error (s!"point() got unsupported srid {n.toInt}" ++
      " (expected one of 7203, 9157, 4326, 4979)")

/-- The final SRID of a point, which its `crs` and `srid`, its keys and its dimensions agree
on. -/
def resolve (crs : Option String) (srid : Option Int64) (family : PointKeyFamily)
    (threeD : Bool) : Except String ℕ := do
  let crsSrid ← ofCrs crs
  let explicit ← ofNumber srid
  match crs, crsSrid, explicit with
  | some name, some a, some b =>
    if a ≠ b then throw s!"point() crs \x60{name}\x60 and srid {b} do not agree" else pure ()
  | _, _, _ => pure ()
  match crsSrid.or explicit with
  | none =>
    pure (match family, threeD with
      | .cartesian, false => CARTESIAN
      | .cartesian, true => CARTESIAN_3D
      | .geographic, false => WGS84
      | .geographic, true => WGS84_3D)
  | some s =>
    if familyOf s ≠ family then
      throw (s!"point() coordinates use {family.asKeyDescription} keys but crs/srid is " ++
        (familyOf s).asSridDescription)
    else if is3d s ≠ threeD then
      throw (s!"point() dimensionality mismatch: {dimensions threeD} coordinates but " ++
        s!"{dimensions (is3d s)} crs/srid")
    else pure s

end Srid

namespace PointMap

def KNOWN_KEYS : List String :=
  ["x", "y", "z", "longitude", "latitude", "height", "crs", "srid"]

/-- A slot of a map: `none` when the key is absent, `some none` for a null. -/
def take {α : Type} (read : LoraValue → Option α) (what : String) (map : List (String × LoraValue))
    (key : String) : Except String (Option (Option α)) :=
  match SortedMap.get? key map with
  | none => .ok none
  | some .null => .ok (some none)
  | some other =>
    match read other with
    | some v => .ok (some (some v))
    | none =>
      .error ("CAST( AS POINT) field '" ++ key ++ "' must be " ++ what ++ ", got " ++
        valueKind other)

def takeNumeric : List (String × LoraValue) → String → Except String (Option (Option F64)) :=
  take LoraValue.asF64 "numeric"

def takeString : List (String × LoraValue) → String → Except String (Option (Option String)) :=
  take (fun | .string s => some s | _ => none) "a string"

def takeInteger : List (String × LoraValue) → String → Except String (Option (Option Int64)) :=
  take LoraValue.asI64 "an integer"

/-- The family of the coordinates, and the first two. -/
def coordinates (x y longitude latitude : Option F64) :
    Except String (PointKeyFamily × F64 × F64) :=
  if (x.isSome ∨ y.isSome) ∧ (longitude.isSome ∨ latitude.isSome) then
    .error ("CAST( AS POINT) cannot mix cartesian (x/y) and geographic (longitude/latitude)" ++
      " keys")
  else if longitude.isSome ∨ latitude.isSome then
    match longitude, latitude with
    | some longitude, some latitude => .ok (.geographic, longitude, latitude)
    | none, _ => .error "CAST( AS POINT) is missing longitude"
    | _, none => .error "CAST( AS POINT) is missing latitude"
  else
    match x, y with
    | some x, some y => .ok (.cartesian, x, y)
    | none, none =>
      .error ("CAST( AS POINT) requires coordinates — either \x7bx, y\x7d or " ++
        "\x7blongitude, latitude\x7d")
    | none, _ => .error "CAST( AS POINT) is missing x"
    | _, none => .error "CAST( AS POINT) is missing y"

/-- `-bound ≤ c ≤ bound` -/
def within (bound : Int64) (c : F64) : Bool := c.ge (.ofInt (-bound)) && (F64.ofInt bound).ge c

/-- The checks of a point that is built. -/
def checkPoint (lib : FloatLib) (point : LoraPoint) : Except String LoraPoint :=
  if !(point.x.isFinite && point.y.isFinite && point.z.all F64.isFinite) then
    .error "CAST( AS POINT) coordinates must be finite numbers"
  else if Srid.isGeographic point.srid.toNat then
    if !within 90 point.y then
      .error s!"CAST( AS POINT) latitude must be between -90 and 90, got {lib.display point.y}"
    else if !within 180 point.x then
      .error s!"CAST( AS POINT) longitude must be between -180 and 180, got {lib.display point.x}"
    else .ok point
  else .ok point

/-- The point of a map. `none` when a known key holds a null. -/
def buildPointFromMap (lib : FloatLib) (map : List (String × LoraValue)) :
    Except String (Option LoraPoint) := do
  match map.find? fun entry => !KNOWN_KEYS.any fun known => known == entry.1.toLower with
  | some entry => throw ("CAST( AS POINT) got unknown key '" ++ entry.1 ++ "'")
  | none => pure ()
  let x ← takeNumeric map "x"
  let y ← takeNumeric map "y"
  let z ← takeNumeric map "z"
  let longitude ← takeNumeric map "longitude"
  let latitude ← takeNumeric map "latitude"
  let height ← takeNumeric map "height"
  let crs ← takeString map "crs"
  let srid ← takeInteger map "srid"
  if [x, y, z, longitude, latitude, height].contains (some none) ∨ crs = some none ∨
      srid = some none then pure none
  else do
    let (family, first, second) ←
      coordinates (x.bind id) (y.bind id) (longitude.bind id) (latitude.bind id)
    let third ← match z.bind id, height.bind id with
      | some _, some _ =>
        throw "CAST( AS POINT) cannot specify both 'z' and 'height' — they are aliases"
      | z, height => pure (z.or height)
    let srid ← Srid.resolve (crs.bind id) (srid.bind id) family third.isSome
    let point ← checkPoint lib
      { x := first, y := second, z := if Srid.is3d srid then third else none, srid := .ofNat srid }
    pure (some point)

end PointMap

/-! ### Casts -/

namespace TypeNs

open TemporalBuild

/-- A failed cast has a reason when there is more to say than what it failed on; a cast that is
made may report an error all the same. `none` is an overflow. -/
abbrev CastResult : Type := Option (Except (Option String) (EvalM LoraValue))

def plain (cast : Option LoraValue) : CastResult :=
  some (cast.elim (.error none) fun v => .ok (pure v))

def reasoned (cast : Build LoraValue) : CastResult :=
  cast.run.map fun
    | .ok v => .ok (pure v)
    | .error e => .error (some e)

section Casts

variable (lib : FloatLib) (tz : ZoneId → TimeZone) (db : ZoneDb) (t : Now)

def castString (value : LoraValue) : Option LoraValue :=
  match value with
  | .string s => some (.string s)
  | .int i => some (.string (toString i.toInt))
  | .float f => some (.string (lib.display f))
  | .bool b => some (.string (toString b))
  | .date v => some (.string v.display)
  | .dateTime v => some (.string (v.display db))
  | .localDateTime v => some (.string v.display)
  | .time v => some (.string v.display)
  | .localTime v => some (.string v.display)
  | .duration v => some (.string v.display)
  | _ => none

def castInteger (value : LoraValue) : Option LoraValue :=
  match value with
  | .int i => some (.int i)
  | .float f => f.toI64.map .int
  | .string s => (parseI64 s).map .int
  | .bool b => some (.int (if b then 1 else 0))
  | _ => none

def castFloat (value : LoraValue) : Option LoraValue :=
  match value with
  | .float f => some (.float f)
  | .int i => some (.float (.ofInt i))
  | .string s => (lib.parse s).map .float
  | _ => none

def castBoolean (value : LoraValue) : Option LoraValue :=
  match value with
  | .bool b => some (.bool b)
  | .string s =>
    if s.toLower = "true" then some (.bool true)
    else if s.toLower = "false" then some (.bool false)
    else none
  | .int i => some (.bool (i != 0))
  | _ => none

/-- The second way of reading a text when the first fails, whose error stays. -/
def orRead {α β : Type} (first : Build α) (second : Build β) (f : β → Build α) : Build α :=
  ExceptT.mk (first.run.bind fun
    | .ok v => some (.ok v)
    | .error e => second.run.bind fun
      | .ok w => (f w).run
      | .error _ => some (.error e))

def parseTemporal (s : Bytes) (kind : Kind) : Build LoraValue :=
  let date : Build LoraDate := ExceptT.mk (parseDate s)
  let dateTime : Build LoraDateTime := ExceptT.mk (LoraDateTime.parse tz db s)
  match kind with
  -- The date of a text of a date-time.
  | .date => .date <$> orRead date dateTime fun v => pure v.date
  | .time => Build.of ((LoraTime.parse tz db t s).map .time)
  | .localTime => .localTime <$> Build.of (LoraLocalTime.parse s)
  -- A date alone is midnight UTC.
  | .dateTime => .dateTime <$> orRead dateTime date fun d =>
    LoraDateTime.new d.year d.month d.day 0 0 0 0 0
  | .localDateTime => .localDateTime <$> orRead (LoraLocalDateTime.parse s) date fun d =>
    pure { year := d.year, month := d.month, day := d.day, hour := 0, minute := 0, second := 0,
           nanosecond := 0 }

/-- Another temporal value gives the components the kind has. -/
def castTemporalValue (value : LoraValue) (kind : Kind) : Option LoraValue :=
  match kind, value with
  | .date, .date v => some (.date v)
  | .date, .dateTime v => some (.date v.date)
  | .date, .localDateTime v => some (.date ⟨v.year, v.month, v.day⟩)
  | .time, .time v => some (.time v)
  | .localTime, .localTime v => some (.localTime v)
  | .dateTime, .dateTime v => some (.dateTime v)
  | .localDateTime, .localDateTime v => some (.localDateTime v)
  | kind, other => convert tz t other kind

def castTemporal (value : LoraValue) (kind : Kind) : CastResult :=
  match value with
  | .string s => reasoned (parseTemporal tz db t (utf8 s) kind)
  | .map m => reasoned (fromMap tz db t m kind)
  | other => plain (castTemporalValue tz t other kind)

def castDuration (value : LoraValue) : CastResult :=
  match value with
  | .duration v => plain (some (.duration v))
  | .string s => reasoned (Build.of ((LoraDuration.parse s.toList).map .duration))
  | .map m => reasoned (Build.of ((durationFromMap m).map .duration))
  | _ => plain none

def castPoint (value : LoraValue) (reportErrors : Bool) : CastResult :=
  let failed (message : String) : CastResult :=
    if reportErrors then some (.ok (.null, some message)) else plain none
  match value with
  | .point p => plain (some (.point p))
  | .map m =>
    match PointMap.buildPointFromMap lib m with
    | .ok (some point) => plain (some (.point point))
    | .ok none => plain (some .null)
    | .error message => failed message
  | other => failed ("CAST( AS POINT) requires a map, got " ++ valueKind other)

def coerceListToRawCoords (items : List LoraValue) : Option (List RawCoordinate) :=
  items.mapM fun
    | .int i => some (.int i)
    | .float f => if f.isFinite then some (.float f) else none
    | _ => none

def castVector (value : LoraValue) (coord : Option VectorCoordinateType)
    (dimension : Option ℕ) : Option LoraValue :=
  match value with
  | .vector v =>
    if coord.all (· == v.values.coordinateTag) ∧ dimension.all (· == v.dimension.toNat) then
      some (.vector v)
    else none
  | value => do
    let coord ← coord
    let dimension ← dimension
    let raw ← match value with
      | .list items => coerceListToRawCoords items
      | .string s => parseStringValues lib s
      | _ => none
    (LoraVector.tryNew lib raw dimension coord).map .vector

def castValue (value : Option LoraValue) (target : RuntimeType) (reportErrors : Bool) :
    CastResult :=
  match value with
  | none => plain none
  | some value =>
    match target with
    | .string => plain (castString lib db value)
    | .integer => plain (castInteger value)
    | .float => plain (castFloat lib value)
    | .boolean => plain (castBoolean value)
    | .date => castTemporal tz db t value .date
    | .time => castTemporal tz db t value .time
    | .localTime => castTemporal tz db t value .localTime
    | .dateTime => castTemporal tz db t value .dateTime
    | .localDateTime => castTemporal tz db t value .localDateTime
    | .duration => castDuration value
    | .point => castPoint lib value reportErrors
    | .vector coord dimension => plain (castVector lib value coord dimension)
    | _ => plain none

/-- An overflow that nothing guards ends the evaluation. -/
def overflowed : EvalM LoraValue := (.null, some "arithmetic overflow")

/-- The type a second argument names. -/
def targetOf (args : List LoraValue) : Option RuntimeType :=
  match MathNs.arg args 1 with
  | some (.string target) => RuntimeType.parse target
  | _ => none

def castCan (args : List LoraValue) : EvalM LoraValue :=
  match targetOf args with
  | none => pure .null
  | some target =>
    match castValue lib tz db t (MathNs.arg args 0) target false with
    | none => overflowed
    | some (.ok _) => pure (.bool true)
    | some (.error _) => pure (.bool false)

def castTry (args : List LoraValue) : EvalM LoraValue :=
  match targetOf args with
  | none => pure .null
  | some target =>
    match castValue lib tz db t (MathNs.arg args 0) target false with
    | none => overflowed
    | some (.ok cast) => cast
    | some (.error _) => pure .null

def castToTarget (value : Option LoraValue) (target : RuntimeType) : EvalM LoraValue :=
  match value with
  | none | some .null => pure .null
  | some value =>
    match castValue lib tz db t (some value) target true with
    | none => overflowed
    | some (.ok cast) => cast
    | some (.error reason) =>
      (.null, some (s!"cannot cast {valueKind value} to {target.display}" ++
        reason.elim "" fun r => ": " ++ r))

def castTo (args : List LoraValue) : EvalM LoraValue :=
  match MathNs.arg args 1 with
  | none => (.null, some "cast.to requires a target type")
  | some (.string targetName) =>
    match RuntimeType.parse targetName with
    | none => (.null, some s!"unknown cast target type \x60{targetName}\x60")
    | some target => castToTarget lib tz db t (MathNs.arg args 0) target
  | some other =>
    (.null, some ("cast.to target type must be a type literal or string, got " ++ valueKind other))

end Casts

/-! ### Casts at two moments -/

/-- Two evaluations give one result, or each a `TIME`. -/
def SameEval (x y : EvalM LoraValue) : Prop :=
  x = y ∨ ∃ v w, x = pure (.time v) ∧ y = pure (.time w)

/-- Two casts give one result, or each a `TIME`. -/
def SameCast (x y : CastResult) : Prop :=
  x = y ∨ ∃ v w, x = some (.ok (pure (.time v))) ∧ y = some (.ok (pure (.time w)))

theorem SameCast.reasoned {x y : Build LoraValue} (h : SameButTimes x y) :
    SameCast (reasoned x) (reasoned y) := by
  rcases h with rfl | ⟨v, w, rfl, rfl⟩
  · exact .inl rfl
  · exact .inr ⟨v, w, rfl, rfl⟩

section Clocked

variable (lib : FloatLib) {tz : ZoneId → TimeZone} {db : ZoneDb} (t t' : Now)

theorem parseTemporal_same (s : Bytes) (kind : Kind) :
    SameButTimes (parseTemporal tz db t s kind) (parseTemporal tz db t' s kind) := by
  cases kind with
  | time =>
    rw [parseTemporal, parseTemporal]
    exact (LoraTime.parse_bothRead t t' s).time
  | date => exact .inl (by simp only [parseTemporal])
  | localTime => exact .inl (by simp only [parseTemporal])
  | dateTime => exact .inl (by simp only [parseTemporal])
  | localDateTime => exact .inl (by simp only [parseTemporal])

theorem castTemporalValue_eq (value : LoraValue) (kind : Kind) :
    castTemporalValue tz t value kind = castTemporalValue tz t' value kind := by
  rw [castTemporalValue.eq_def, castTemporalValue.eq_def]
  simp only [convert_eq t t']

theorem castTemporal_same {value : LoraValue} {kind : Kind}
    (h : ∀ m, value = .map m → readsClock tz db t m kind = false) :
    SameCast (castTemporal tz db t value kind) (castTemporal tz db t' value kind) := by
  rw [castTemporal.eq_def, castTemporal.eq_def]
  split
  · exact .reasoned (parseTemporal_same t t' _ kind)
  · exact .reasoned (fromMap_same t t' (h _ rfl))
  · exact .inl (by rw [castTemporalValue_eq t t'])

/-- The kind of a temporal type. -/
def kindOf : RuntimeType → Option Kind
  | .date => some .date
  | .time => some .time
  | .localTime => some .localTime
  | .dateTime => some .dateTime
  | .localDateTime => some .localDateTime
  | _ => none

variable (tz db) in
/-- A cast reads the clock: of a map that does, to the kind it reads it for. -/
def castReadsClock (value : Option LoraValue) (target : RuntimeType) : Bool :=
  match value, kindOf target with
  | some (.map m), some kind => readsClock tz db t m kind
  | _, _ => false

/-- A cast that does not read the clock has one result, up to which `TIME` it is. -/
theorem castValue_same {value : Option LoraValue} {target : RuntimeType}
    (h : castReadsClock tz db t value target = false) (reportErrors : Bool) :
    SameCast (castValue lib tz db t value target reportErrors)
      (castValue lib tz db t' value target reportErrors) := by
  cases value with
  | none => exact .inl rfl
  | some value =>
    have hmap {kind : Kind} (hkind : kindOf target = some kind) (m : List (String × LoraValue))
        (hm : value = .map m) : readsClock tz db t m kind = false := by
      simpa only [castReadsClock, hm, hkind] using h
    cases target with
    | date => exact castTemporal_same t t' (hmap rfl)
    | time => exact castTemporal_same t t' (hmap rfl)
    | localTime => exact castTemporal_same t t' (hmap rfl)
    | dateTime => exact castTemporal_same t t' (hmap rfl)
    | localDateTime => exact castTemporal_same t t' (hmap rfl)
    | _ => exact .inl (by simp only [castValue])

variable (tz db) in
/-- A call of a cast reads the clock. -/
def callReadsClock (args : List LoraValue) : Bool :=
  match targetOf args with
  | some target => castReadsClock tz db t (MathNs.arg args 0) target
  | none => false

variable {args : List LoraValue}

theorem castCan_eq (h : callReadsClock tz db t args = false) :
    castCan lib tz db t args = castCan lib tz db t' args := by
  rw [castCan, castCan]
  rw [callReadsClock] at h
  cases htarget : targetOf args with
  | none => rfl
  | some target =>
    rw [htarget] at h
    dsimp only
    rcases castValue_same lib t t' h false with heq | ⟨v, w, hv, hw⟩
    · rw [heq]
    · rw [hv, hw]

theorem castTry_same (h : callReadsClock tz db t args = false) :
    SameEval (castTry lib tz db t args) (castTry lib tz db t' args) := by
  rw [castTry, castTry]
  rw [callReadsClock] at h
  cases htarget : targetOf args with
  | none => exact .inl rfl
  | some target =>
    rw [htarget] at h
    dsimp only
    rcases castValue_same lib t t' h false with heq | ⟨v, w, hv, hw⟩
    · rw [heq]
      exact .inl rfl
    · rw [hv, hw]
      exact .inr ⟨v, w, rfl, rfl⟩

theorem castToTarget_same {value : Option LoraValue} {target : RuntimeType}
    (h : castReadsClock tz db t value target = false) :
    SameEval (castToTarget lib tz db t value target) (castToTarget lib tz db t' value target) := by
  rw [castToTarget.eq_def, castToTarget.eq_def]
  split
  · exact .inl rfl
  · exact .inl rfl
  · next value _ =>
    rcases castValue_same lib t t' h true with heq | ⟨v, w, hv, hw⟩
    · rw [heq]
      exact .inl rfl
    · rw [hv, hw]
      exact .inr ⟨v, w, rfl, rfl⟩

theorem castTo_same (h : callReadsClock tz db t args = false) :
    SameEval (castTo lib tz db t args) (castTo lib tz db t' args) := by
  rw [castTo.eq_def, castTo.eq_def]
  rw [callReadsClock, targetOf.eq_def] at h
  cases hsecond : MathNs.arg args 1 with
  | none => exact .inl rfl
  | some second =>
    rw [hsecond] at h
    cases second with
    | string name =>
      dsimp only at h ⊢
      cases htarget : RuntimeType.parse name with
      | none => exact .inl rfl
      | some target =>
        rw [htarget] at h
        exact castToTarget_same lib t t' h
    | _ => exact .inl rfl

end Clocked

end TypeNs

end LoraDb
