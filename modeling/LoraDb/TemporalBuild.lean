import LoraDb.DeleteClause
import LoraDb.Differences
import LoraDb.DurationTexts
import LoraDb.IntegerMath

/-!
# Building Temporal Values

The constructors of temporal values: from a map of components, by truncating another temporal, from
an epoch count, and durations from a map. A map of nothing but a `timezone` is the current value in
that zone, and a time in a named zone has the offset the zone has now, so these functions take what
the clock reads.

## Main results

* `parseZone_eq`: a `timezone` is read alike at every moment.
* `fromMap_same`: a map that does not read the clock builds one value, up to which `TIME` it is.
* `truncate_same`: truncation reads the clock for nothing but a `TIME`.
-/

open ByteCodec Binary64

namespace LoraDb

/-! ### The clock -/

/-- What the system clock reads: the time since 1970. -/
structure Now where
  secs : UInt64
  nanos : UInt32

/-- `LoraDateTime::now()`, in UTC. -/
def LoraDateTime.now (t : Now) : LoraDateTime :=
  let daySecs := t.secs.toNat % 86400
  let (year, month, day) := civilFromDays (t.secs.toNat / 86400 : ℕ)
  { year, month, day
    hour := .ofNat (daySecs / 3600)
    minute := .ofNat (daySecs % 3600 / 60)
    second := .ofNat (daySecs % 60)
    nanosecond := t.nanos
    offsetSeconds := 0
    zone := none }

/-! ### Times -/

def checkClock (hour minute second : UInt32) : Except String Unit :=
  if 23 < hour.toNat then .error s!"Invalid hour: {hour.toNat}"
  else if 59 < minute.toNat then .error s!"Invalid minute: {minute.toNat}"
  else if 59 < second.toNat then .error s!"Invalid second: {second.toNat}"
  else .ok ()

/-- The offset is not checked. -/
def LoraTime.new (hour minute second nanosecond : UInt32) (offsetSeconds : Int32) :
    Except String LoraTime := do
  checkClock hour minute second
  pure { hour, minute, second, nanosecond, offsetSeconds }

def LoraLocalTime.new (hour minute second nanosecond : UInt32) : Except String LoraLocalTime := do
  checkClock hour minute second
  pure { hour, minute, second, nanosecond }

/-- Reads a time. In a named zone without an offset it has the zone's offset now. -/
def LoraTime.parse (tz : ZoneId → TimeZone) (db : ZoneDb) (t : Now) (s : Bytes) :
    Except String LoraTime := do
  let (s, zone) ← LoraDateTime.splitZoneSuffix db s
  let (hour, minute, second, nanosecond, offset) ← parseTimeString s
  let offset := match offset, zone with
    | some offset, _ => offset
    | none, some zone => (tz zone).offsetAt t.secs.toInt64.toInt
    | none, none => 0
  LoraTime.new hour minute second nanosecond offset

def LoraLocalTime.parse (s : Bytes) : Except String LoraLocalTime := do
  let (hour, minute, second, nanosecond, offset) ← parseTimeString s
  match offset with
  | none => LoraLocalTime.new hour minute second nanosecond
  | some _ => throw s!"A local time has no offset: {text s}"

/-- What can fail, or overflow in the calendar, which is `none`. -/
abbrev Build : Type → Type := ExceptT String Option

def Build.of {α : Type} (x : Except String α) : Build α := ExceptT.mk (some x)

instance : MonadLift (Except String) Build := ⟨Build.of⟩

def LoraLocalDateTime.parse (s : Bytes) : Build LoraLocalDateTime :=
  match s.dropWhile (· != 84) with
  | [] => throw s!"Invalid localdatetime: {text s}"
  | _ :: timePart => do
    let date ← ExceptT.mk (parseDate (s.takeWhile (· != 84)))
    let (hour, minute, second, nanosecond, offset) ← parseTimeString timePart
    match offset with
    | some _ => throw s!"A local datetime has no offset: {text s}"
    | none => do
      checkClock hour minute second
      pure { year := date.year, month := date.month, day := date.day, hour, minute, second,
             nanosecond }

namespace TemporalBuild

/-! ### Kinds -/

/-- The five temporal instant types. -/
inductive Kind where
  | date
  | time
  | localTime
  | dateTime
  | localDateTime
deriving DecidableEq

namespace Kind

/-- The kind a type name of `cast.to` denotes. -/
def fromTypeName : String → Option Kind
  | "DATE" => some .date
  | "TIME" => some .time
  | "LOCAL_TIME" => some .localTime
  | "DATETIME" => some .dateTime
  | "LOCAL_DATETIME" => some .localDateTime
  | _ => none

def of : LoraValue → Option Kind
  | .date _ => some .date
  | .time _ => some .time
  | .localTime _ => some .localTime
  | .dateTime _ => some .dateTime
  | .localDateTime _ => some .localDateTime
  | _ => none

def name : Kind → String
  | .date => "DATE"
  | .time => "TIME"
  | .localTime => "LOCAL_TIME"
  | .dateTime => "DATETIME"
  | .localDateTime => "LOCAL_DATETIME"

def hasDate : Kind → Bool
  | .date | .dateTime | .localDateTime => true
  | .time | .localTime => false

def hasTime : Kind → Bool
  | .date => false
  | _ => true

def hasZone : Kind → Bool
  | .time | .dateTime => true
  | _ => false

end Kind

/-- The name of a value's type in errors. -/
def typeName (value : LoraValue) : String :=
  match Kind.of value with
  | some kind => kind.name
  | none => (valueKind value).toUpper

/-! ### Components -/

/-- A `timezone`: a fixed offset or a named zone. -/
inductive Zone where
  | offset (offset : Int32)
  | named (zone : ZoneId)

/-- The components of a temporal value. -/
def partsOf : LoraValue → Option Parts
  | .date v => some (.ofDate v)
  | .time v => some ⟨none, some ⟨v.hour, v.minute, v.second, v.nanosecond⟩, some v.offsetSeconds,
    none⟩
  | .localTime v => some ⟨none, some ⟨v.hour, v.minute, v.second, v.nanosecond⟩, none, none⟩
  | .dateTime v => some (.ofDateTime v)
  | .localDateTime v =>
    some ⟨some ⟨v.year, v.month, v.day⟩, some ⟨v.hour, v.minute, v.second, v.nanosecond⟩, none,
      none⟩
  | _ => none

/-- The current instant, in whole seconds. -/
def nowSeconds (t : Now) : ℤ := (LoraDateTime.now t).epochSeconds

section Zones

variable (tz : ZoneId → TimeZone) (t : Now)

/-- The instant of a value with a clock and an offset; without a date it is on the day of the
clock. -/
def instantOf (p : Parts) : Option ℤ :=
  match p.offset, p.clock with
  | some offset, some clock =>
    some ((p.date.elim (nowSeconds t) fun date => date.toEpochDays * 86400) +
      clock.nanosOfDay.tdiv NANOS - offset.toInt)
  | _, _ => none

/-- A value put in a zone: moved there if it is to keep its instant and has one. -/
def setZone (p : Parts) (zone : Zone) (keepInstant : Bool) : Except String Parts :=
  let instant := if keepInstant then instantOf t p else none
  match zone with
  | .offset offset =>
    match instant with
    | some _ => p.shiftTo offset
    | none => .ok { p with offset := some offset, zone := none }
  | .named named => do
    let p ← match instant with
      | some secs => p.shiftTo ((tz named).offsetAt secs)
      | none => .ok { p with offset := none }
    .ok { p with zone := some named }

/-- The value of a kind: a missing clock is midnight, a missing offset UTC. -/
def build (p : Parts) (kind : Kind) : Except String LoraValue :=
  -- A time in a named zone takes the zone's offset now: it has no date.
  let offset := (p.offset.or (p.zone.map fun zone => (tz zone).offsetAt (nowSeconds t))).getD 0
  let date : Except String LoraDate := p.date.elim (.error "a date is required") .ok
  let clock := p.clock.getD Clock.midnight
  if 1000000000 ≤ clock.nanosecond.toNat then
    .error s!"nanosecond out of range: {clock.nanosecond.toNat}"
  else
    match kind with
    | .date => date.map .date
    | .time =>
      (LoraTime.new clock.hour clock.minute clock.second clock.nanosecond offset).map .time
    | .localTime =>
      (LoraLocalTime.new clock.hour clock.minute clock.second clock.nanosecond).map .localTime
    | .dateTime => do
      let d ← date
      match p.zone with
      | some zone =>
        (LoraDateTime.inZone tz d clock.hour clock.minute clock.second clock.nanosecond zone
          p.offset).map .dateTime
      | none =>
        (LoraDateTime.new d.year d.month d.day clock.hour clock.minute clock.second
          clock.nanosecond offset).map .dateTime
    | .localDateTime => do
      let d ← date
      let clock ← LoraLocalTime.new clock.hour clock.minute clock.second clock.nanosecond
      .ok (.localDateTime { year := d.year, month := d.month, day := d.day, hour := clock.hour,
                            minute := clock.minute, second := clock.second,
                            nanosecond := clock.nanosecond })

/-- Another temporal as a kind. `none` when it lacks the date or the time the kind needs. -/
def convert (value : LoraValue) (kind : Kind) : Option LoraValue := do
  let p ← partsOf value
  let fits := if kind.hasDate then p.date.isSome else p.clock.isSome
  if fits then (build tz t p kind).toOption else none

end Zones

/-! ### Component maps -/

inductive Field where
  | year
  | month
  | day
  | week
  | dayOfWeek
  | ordinalDay
  | quarter
  | dayOfQuarter
  | hour
  | minute
  | second
  | millisecond
  | microsecond
  | nanosecond
  | timezone
  | date
  | time
  | dateTime
  | epochSeconds
  | epochMillis
deriving DecidableEq

def FIELDS : List (String × Field) :=
  [("year", .year), ("month", .month), ("day", .day), ("week", .week), ("dayOfWeek", .dayOfWeek),
    ("ordinalDay", .ordinalDay), ("quarter", .quarter), ("dayOfQuarter", .dayOfQuarter),
    ("hour", .hour), ("minute", .minute), ("second", .second), ("millisecond", .millisecond),
    ("microsecond", .microsecond), ("nanosecond", .nanosecond), ("timezone", .timezone),
    ("date", .date), ("time", .time), ("datetime", .dateTime), ("epochSeconds", .epochSeconds),
    ("epochMillis", .epochMillis)]

/-- The entry of a table under a key, exactly or else in another case. -/
def entryOf {α : Type} (table : List (String × α)) (key : String) : Option α :=
  ((table.find? fun entry => entry.1 == key).or
    (table.find? fun entry => entry.1.toLower == key.toLower)).map Prod.snd

namespace Field

def parse (key : String) : Option Field := entryOf FIELDS key

def name (field : Field) : String :=
  ((FIELDS.find? fun entry => entry.2 == field).map Prod.fst).getD ""

def isDate : Field → Bool
  | .year | .month | .day | .week | .dayOfWeek | .ordinalDay | .quarter | .dayOfQuarter => true
  | _ => false

def isClock : Field → Bool
  | .hour | .minute | .second | .millisecond | .microsecond | .nanosecond => true
  | _ => false

def allowed (field : Field) (kind : Kind) (truncating : Bool) : Bool :=
  if field.isDate then kind.hasDate
  else if field.isClock then kind.hasTime
  else match field with
    | .timezone => kind.hasZone
    | .date => !truncating && kind.hasDate
    | .time => !truncating && kind.hasTime
    | .dateTime => !truncating && (kind == .dateTime || kind == .localDateTime)
    | _ => !truncating && kind == .dateTime

end Field

/-- The non-null values a map gives, by field. -/
abbrev Given : Type := Field → Option LoraValue

namespace Given

def collectStep (kind : Kind) (truncating : Bool) (given : Given) (entry : String × LoraValue) :
    Except String Given :=
  match Field.parse entry.1 with
  | none => .error s!"unknown key \x60{entry.1}\x60"
  | some field =>
    if field.allowed kind truncating then
      match entry.2 with
      | .null => .ok given
      | value => .ok (Function.update given field (some value))
    else .error s!"\x60{entry.1}\x60 is not a component of {kind.name}"

def collect (m : List (String × LoraValue)) (kind : Kind) (truncating : Bool) :
    Except String Given :=
  m.foldlM (collectStep kind truncating) fun _ => none

variable (given : Given)

def has (field : Field) : Bool := (given field).isSome

def int (field : Field) : Except String (Option Int64) :=
  match given field with
  | none => .ok none
  | some (.int v) => .ok (some v)
  | some other => .error s!"\x60{field.name}\x60 must be an integer, got {typeName other}"

def u32 (field : Field) : Except String (Option UInt32) := do
  match ← given.int field with
  | none => pure none
  | some v =>
    if 0 ≤ v.toInt ∧ v.toInt < 2 ^ 32 then pure (some (.ofNat v.toInt.toNat))
    else throw s!"\x60{field.name}\x60 out of range: {v.toInt}"

def temporal (field : Field) : Except String (Option Parts) :=
  match given field with
  | none => .ok none
  | some v =>
    match partsOf v with
    | some p => .ok (some p)
    | none => .error s!"\x60{field.name}\x60 must be a temporal value, got {typeName v}"

/-- The first of some fields that the map gives. -/
def firstOf (fields : List Field) : Option Field := fields.find? given.has

end Given

def CALENDAR : List Field := [.month, .day]
def WEEK : List Field := [.week, .dayOfWeek]
def ORDINAL : List Field := [.ordinalDay]
def QUARTER : List Field := [.quarter, .dayOfQuarter]

/-- The group of date components a map uses, by its first field, and the one it gives. -/
def dateGroup (given : Given) : Except String (Option (Field × Field)) :=
  [(Field.month, CALENDAR), (.week, WEEK), (.ordinalDay, ORDINAL), (.quarter, QUARTER)].foldlM
    (fun group (large, fields) =>
      match given.firstOf fields, group with
      | none, group => .ok group
      | some first, none => .ok (some (large, first))
      | some first, some (_, other) =>
        .error s!"cannot combine \x60{first.name}\x60 with \x60{other.name}\x60") none

def resolveYear (given : Given) (baseYear : Option Int32) : Except String Int32 := do
  match ← given.int .year with
  | some y =>
    if -2 ^ 31 ≤ y.toInt ∧ y.toInt < 2 ^ 31 then pure (.ofInt y.toInt)
    else throw s!"\x60year\x60 out of range: {y.toInt}"
  | none => baseYear.elim (throw "\x60year\x60 is required") pure

/-- A smaller component without the larger one, and nothing to take that from. -/
def needs {α : Type} (given : Given) (base : Option α) (small large : Field) : Except String Unit :=
  if base.isNone ∧ given.has small = true ∧ given.has large = false then
    .error s!"\x60{small.name}\x60 needs \x60{large.name}\x60"
  else .ok ()

def resolveDate (given : Given) (base : Option LoraDate) : Build LoraDate := do
  let group ← dateGroup given
  match group.map Prod.fst with
  | some .week => do
    needs given base .dayOfWeek .week
    let baseWeek ← match base with
      | none => pure none
      | some d => ExceptT.lift (d.isoWeek.map some)
    let year ← resolveYear given (baseWeek.map Prod.fst)
    let week ← given.u32 .week
    let dow ← given.u32 .dayOfWeek
    ExceptT.mk (LoraDate.fromIsoWeek year ((week.or (baseWeek.map fun w => .ofNat w.2)).getD 1)
      ((dow.or (base.map fun d => .ofNat d.dayOfWeek)).getD 1))
  | some .ordinalDay => do
    let year ← resolveYear given (base.map LoraDate.year)
    let day ← given.u32 .ordinalDay
    LoraDate.fromOrdinal year (day.getD 1)
  | some .quarter => do
    needs given base .dayOfQuarter .quarter
    let year ← resolveYear given (base.map LoraDate.year)
    let quarter ← given.u32 .quarter
    let day ← given.u32 .dayOfQuarter
    LoraDate.fromQuarter year ((quarter.or (base.map fun d => .ofNat d.quarter)).getD 1)
      ((day.or (base.map fun d => .ofNat d.dayOfQuarter)).getD 1)
  | _ => do
    needs given base .day .month
    let year ← resolveYear given (base.map LoraDate.year)
    let month ← given.u32 .month
    let day ← given.u32 .day
    LoraDate.new year ((month.or (base.map LoraDate.month)).getD 1)
      ((day.or (base.map LoraDate.day)).getD 1)

/-- What a map has to give of a clock that is taken from nothing. -/
def checkClockFields (given : Given) (base : Option Clock) (kind : Kind) : Except String Unit :=
  if base.isSome then .ok ()
  else do
    needs given base .minute .hour
    needs given base .second .minute
    match given.firstOf [.millisecond, .microsecond, .nanosecond] with
    | some small => needs given base small .second
    | none => pure ()
    if !kind.hasDate && !given.has .hour then throw "\x60hour\x60 is required" else pure ()

def resolveClock (given : Given) (base : Option Clock) (kind : Kind) (truncating : Bool) :
    Except String Clock := do
  checkClockFields given base kind
  let clock := base.getD Clock.midnight
  let hour ← given.u32 .hour
  let minute ← given.u32 .minute
  let second ← given.u32 .second
  let clock := { clock with
    hour := hour.getD clock.hour, minute := minute.getD clock.minute,
    second := second.getD clock.second }
  if (given.firstOf [.millisecond, .microsecond, .nanosecond]).isNone then pure clock
  else do
    let milli ← given.u32 .millisecond
    let micro ← given.u32 .microsecond
    let nano ← given.u32 .nanosecond
    let nanos := (milli.getD 0).toNat * 1000000 + (micro.getD 0).toNat * 1000 + (nano.getD 0).toNat
    -- Truncation keeps the sub-second part it left and adds to it.
    let nanos := if truncating then nanos + clock.nanosecond.toNat else nanos
    if 1000000000 ≤ nanos then throw s!"sub-second components add up to {nanos}ns"
    else pure { clock with nanosecond := .ofNat nanos }

/-- A few abbreviations outside the zone database. -/
def timezoneNameToOffset : String → Int32
  | "UTC" | "GMT" | "Z" => 0
  | "Europe/London" => 0
  | "Europe/Amsterdam" | "Europe/Berlin" | "Europe/Paris" | "CET" => 3600
  | "Europe/Moscow" => 10800
  | "US/Eastern" | "America/New_York" | "EST" => -18000
  | "US/Central" | "America/Chicago" | "CST" => -21600
  | "US/Mountain" | "America/Denver" | "MST" => -25200
  | "US/Pacific" | "America/Los_Angeles" | "PST" => -28800
  | "Asia/Tokyo" | "JST" => 32400
  | "Asia/Shanghai" | "Asia/Hong_Kong" => 28800
  | _ => 0

section Maps

variable (tz : ZoneId → TimeZone) (db : ZoneDb) (t : Now)

/-- A text starts with a sign. -/
def startsWithSign (b : Bytes) : Bool := b.head? == some 43 || b.head? == some 45

/-- An offset, or the name of a zone. -/
def parseZone (value : LoraValue) : Except String Zone :=
  match value with
  | .string name =>
    if startsWithSign (utf8 name) || name == "Z" then
      -- `00:00`, and the offset.
      match LoraTime.parse tz db t ([48, 48, 58, 48, 48] ++ utf8 name) with
      | .ok time => .ok (.offset time.offsetSeconds)
      | .error _ => .error s!"invalid time zone offset \x60{name}\x60"
    else
      match db.lookup name with
      | some zone => .ok (.named zone)
      | none =>
        if timezoneNameToOffset name = 0 then .error s!"unknown time zone \x60{name}\x60"
        else .ok (.offset (timezoneNameToOffset name))
  | value => .error s!"\x60timezone\x60 must be a string, got {typeName value}"

/-- The current instant in a zone, as a kind. -/
def nowInZone (zone : Zone) (kind : Kind) : Except String LoraValue :=
  let utc := LoraDateTime.now t
  let here := match zone with
    | .offset offset => utc.toOffset offset
    | .named zone => utc.toZone tz zone
  match here with
  | none => .error "datetime out of range"
  | some here => (convert tz t (.dateTime here) kind).elim (.error "datetime out of range") .ok

/-- The instant some nanoseconds after 1970, shown at an offset. -/
def datetimeFromInstant (nanos : ℤ) (offset : Int32) : Except String LoraDateTime := do
  let shown := nanos + offset.toInt * NANOS
  let date ← dateFromEpochDays (shown / NANOS_PER_DAY)
  let clock := Clock.fromNanosOfDay (shown % NANOS_PER_DAY)
  LoraDateTime.new date.year date.month date.day clock.hour clock.minute clock.second
    clock.nanosecond offset

/-- `datetime({epochSeconds[, nanosecond]})` and `datetime({epochMillis})`, which a `timezone`
may show elsewhere. -/
def fromEpochMap (given : Given) (epoch : Field) : Except String LoraValue := do
  let companion (field : Field) : Bool :=
    field == .timezone || (field == .nanosecond && epoch == .epochSeconds)
  match FIELDS.find? fun entry =>
      entry.2 != epoch && !companion entry.2 && given.has entry.2 with
  | some (_, field) => throw s!"cannot combine \x60{field.name}\x60 with \x60{epoch.name}\x60"
  | none => do
    let count ← given.int epoch
    let count := (count.getD 0).toInt
    let nanos ← match epoch with
      | .epochSeconds => do
        let nanosecond ← given.int .nanosecond
        pure (count * NANOS + (nanosecond.getD 0).toInt)
      | _ => pure (count * 1000000)
    let utc ← datetimeFromInstant nanos 0
    match given .timezone with
    | none => pure (.dateTime utc)
    | some zone => do
      let here := match ← parseZone tz db t zone with
        | .offset offset => utc.toOffset offset
        | .named zone => utc.toZone tz zone
      here.elim (throw "datetime out of range") fun here => pure (.dateTime here)

/-- The components of a map over those to start from. -/
def applyFields (given : Given) (base : Parts) (kind : Kind) (truncating : Bool) :
    Build LoraValue := do
  let date ← if kind.hasDate then some <$> resolveDate given base.date else pure base.date
  let clock ←
    if kind.hasTime then some <$> Build.of (resolveClock given base.clock kind truncating)
    else pure base.clock
  Build.of (build tz t { base with date, clock } kind)

/-- The components a map's `datetime` starts from. -/
def baseDateTime (given : Given) : Except String Parts := do
  match ← given.temporal .dateTime with
  | none => pure ⟨none, none, none, none⟩
  | some datetime =>
    match given.firstOf [.date, .time] with
    | some other => throw s!"cannot combine \x60{other.name}\x60 with \x60datetime\x60"
    | none => pure datetime

/-- The date of a map's `date` over them. -/
def overDate (given : Given) (base : Parts) : Except String Parts := do
  match ← given.temporal .date with
  | none => pure base
  | some date =>
    match date.date with
    | none => throw "\x60date\x60 must have a date"
    | some date => pure { base with date := some date }

/-- The clock and the offset of a map's `time` over them. -/
def overTime (given : Given) (base : Parts) : Except String Parts := do
  match ← given.temporal .time with
  | none => pure base
  | some time =>
    match time.clock with
    | none => throw "\x60time\x60 must have a time"
    | some clock => pure { base with clock := some clock, offset := time.offset }

/-- The components a map starts from. -/
def baseOf (given : Given) : Except String Parts := do
  let base ← baseDateTime given
  let base ← overDate given base
  overTime given base

/-- The `timezone` of a map of nothing else. -/
def onlyTimezone (m : List (String × LoraValue)) : Option LoraValue :=
  match m with
  | [("timezone", .null)] => none
  | [("timezone", zone)] => some zone
  | _ => none

/-- `date({…})`, `datetime({…})` and so on. -/
def fromMap (m : List (String × LoraValue)) (kind : Kind) : Build LoraValue :=
  match onlyTimezone m with
  | some zone => do
    let zone ← parseZone tz db t zone
    nowInZone tz t zone kind
  | none => do
    let given ← Given.collect m kind false
    match given.firstOf [.epochSeconds, .epochMillis] with
    | some epoch => fromEpochMap tz db t given epoch
    | none => do
      let base ← baseOf given
      -- A zoned value given a new zone keeps its instant.
      let base ← match given .timezone with
        | none => pure base
        | some zone => do
          let zone ← parseZone tz db t zone
          setZone tz t base zone true
      applyFields tz t given base kind false

end Maps

/-! ### Truncation -/

inductive TimeUnit where
  | millennium
  | century
  | decade
  | year
  | weekYear
  | quarter
  | month
  | week
  | day
  | hour
  | minute
  | second
  | millisecond
  | microsecond
deriving DecidableEq

namespace TimeUnit

def parse (unit : String) : Option TimeUnit :=
  match unit.toLower with
  | "millennium" => some .millennium
  | "century" => some .century
  | "decade" => some .decade
  | "year" => some .year
  | "weekyear" => some .weekYear
  | "quarter" => some .quarter
  | "month" => some .month
  | "week" => some .week
  | "day" => some .day
  | "hour" => some .hour
  | "minute" => some .minute
  | "second" => some .second
  | "millisecond" => some .millisecond
  | "microsecond" => some .microsecond
  | _ => none

/-- The unit is smaller than a day. -/
def belowDay : TimeUnit → Bool
  | .hour | .minute | .second | .millisecond | .microsecond => true
  | _ => false

/-- The unit is larger than a day. -/
def aboveDay (unit : TimeUnit) : Bool := !unit.belowDay && unit != .day

/-- January 1st of a year divisible by `n`. -/
def yearFloor (d : LoraDate) (n : ℤ) : Build LoraDate :=
  let year := d.year.toInt - d.year.toInt % n
  if -2 ^ 31 ≤ year then LoraDate.new (.ofInt year) 1 1 else ExceptT.mk none

def truncateDate (unit : TimeUnit) (d : LoraDate) : Build LoraDate :=
  match unit with
  | .millennium => yearFloor d 1000
  | .century => yearFloor d 100
  | .decade => yearFloor d 10
  | .year => yearFloor d 1
  | .weekYear => do
    let week ← ExceptT.lift d.isoWeek
    ExceptT.mk (LoraDate.fromIsoWeek week.1 1 1)
  | .quarter => LoraDate.fromQuarter d.year (.ofNat d.quarter) 1
  | .month => pure { d with day := 1 }
  | .week => dateFromEpochDays (d.toEpochDays - ((d.dayOfWeek : ℤ) - 1))
  | _ => pure d

def truncateClock (unit : TimeUnit) (c : Clock) : Clock :=
  match unit with
  | .hour => ⟨c.hour, 0, 0, 0⟩
  | .minute => ⟨c.hour, c.minute, 0, 0⟩
  | .second => ⟨c.hour, c.minute, c.second, 0⟩
  | .millisecond => ⟨c.hour, c.minute, c.second, c.nanosecond / 1000000 * 1000000⟩
  | .microsecond => ⟨c.hour, c.minute, c.second, c.nanosecond / 1000 * 1000⟩
  | _ => Clock.midnight

end TimeUnit

section Truncation

variable (tz : ZoneId → TimeZone) (db : ZoneDb) (t : Now)

/-- What a truncated value is of: the components of the value, cut down to the unit. -/
def cut (unitName : String) (value : LoraValue) (kind : Kind) : Build Parts := do
  let unit ← match TimeUnit.parse unitName with
    | some unit => pure unit
    | none => throw s!"unknown truncation unit \x60{unitName}\x60"
  if (!kind.hasTime && unit.belowDay) || (!kind.hasDate && unit.aboveDay) then
    throw s!"cannot truncate {kind.name} to \x60{unitName}\x60"
  else
    match (partsOf value).filter fun p =>
        (!kind.hasDate || p.date.isSome) && (kind.hasDate || p.clock.isSome) with
    | none => throw s!"cannot truncate {typeName value} to {kind.name}"
    | some p => do
      let date ← match p.date with
        | none => pure none
        | some date => some <$> unit.truncateDate date
      pure { p with date, clock := some (unit.truncateClock (p.clock.getD Clock.midnight)) }

/-- `<type>.truncate(unit, value[, map])`: the value cut down to the unit, and the components of
the map over it. A `timezone` replaces the zone and keeps the local time. -/
def truncate (unit : String) (value : LoraValue) (map : Option (List (String × LoraValue)))
    (kind : Option Kind) : Build LoraValue :=
  match kind.or (Kind.of value) with
  | none => throw s!"cannot truncate {typeName value}"
  | some kind => do
    let parts ← cut unit value kind
    match map.filter fun m => !m.isEmpty with
    | none => Build.of (build tz t parts kind)
    | some m => do
      let given ← Given.collect m kind true
      let parts ← match given .timezone with
        | none => pure parts
        | some zone => do
          let zone ← parseZone tz db t zone
          setZone tz t parts zone false
      applyFields tz t given parts kind true

end Truncation

/-! ### Epochs and differences -/

/-- `datetime.fromepoch(seconds, nanoseconds)`, in UTC. -/
def fromEpoch (seconds nanoseconds : Int64) : Except String LoraValue :=
  (datetimeFromInstant (seconds.toInt * NANOS + nanoseconds.toInt) 0).map .dateTime

/-- `datetime.fromepochmillis(milliseconds)`, in UTC. -/
def fromEpochMillis (millis : Int64) : Except String LoraValue :=
  (datetimeFromInstant (millis.toInt * 1000000) 0).map .dateTime

/-- The duration from one value to another. -/
def between (a b : LoraValue) (what : Between) : Except String LoraDuration :=
  match partsOf a, partsOf b with
  | some start, some finish => start.between finish what
  | none, _ => .error s!"expected a temporal value, got {typeName a}"
  | _, none => .error s!"expected a temporal value, got {typeName b}"

/-! ### Durations -/

end TemporalBuild

namespace F64

/-- `f.fract()` -/
def fract (f : F64) : F64 := f.plus f.truncate.neg

/-- `f.round()`: a half goes away from zero. -/
def round (f : F64) : F64 := f.integral ((2 * magnitude f.mag + UNITS) / (2 * UNITS))

/-- `f as i128`: truncated, and saturated. -/
def castI128 (f : F64) : ℤ := if f.isNaN then 0 else max (-2 ^ 127) (min (2 ^ 127 - 1) f.trunc)

end F64

namespace TemporalBuild

/-- A sum, if it fits in 128 bits. -/
def checkedSum (n : ℤ) : Except String ℤ :=
  if -2 ^ 127 ≤ n ∧ n < 2 ^ 127 then .ok n else .error DURATION_OUT_OF_RANGE

/-- A whole part and a fraction still to cascade into smaller units. -/
structure Amount where
  whole : ℤ
  fraction : F64

namespace Amount

def zero : Amount := ⟨0, .ofInt 0⟩

/-- Far past any duration, and past what an integer of 128 bits keeps. -/
def FAR : F64 := F64.ofDecimal (10 ^ 30) 0

def add (amount : Amount) (key : String) (value : LoraValue) (scale : Int64) :
    Except String Amount :=
  match value with
  | .null => .ok amount
  | .int v => (checkedSum (amount.whole + v.toInt * scale.toInt)).map fun whole =>
    { amount with whole }
  | .float f =>
    if f.isFinite then
      let x := f.times (.ofInt scale)
      if x.abs.ge FAR then .error DURATION_OUT_OF_RANGE
      else (checkedSum (amount.whole + x.truncate.castI128)).map fun whole =>
        { whole, fraction := amount.fraction.plus x.fract }
    else .error s!"\x60{key}\x60 must be a finite number, got {typeName value}"
  | other => .error s!"\x60{key}\x60 must be a finite number, got {typeName other}"

/-- Moves the whole units the fractions added up to into the whole part. -/
def settle (amount : Amount) : Except String Amount :=
  let whole := amount.fraction.truncate
  (checkedSum (amount.whole + whole.castI128)).map fun sum =>
    { whole := sum, fraction := amount.fraction.plus whole.neg }

end Amount

/-- Months, days, seconds and nanoseconds, each summed over its keys. -/
structure Amounts where
  months : Amount
  days : Amount
  seconds : Amount
  nanos : Amount

inductive Slot where
  | months
  | days
  | seconds
  | nanos

/-- Each duration key: the amount it adds to, and how many of that amount one unit is. -/
def DURATION_KEYS : List (String × Slot × Int64) :=
  [("years", .months, 12), ("months", .months, 1), ("weeks", .days, 7), ("days", .days, 1),
    ("hours", .seconds, 3600), ("minutes", .seconds, 60), ("seconds", .seconds, 1),
    ("milliseconds", .nanos, 1000000), ("microseconds", .nanos, 1000), ("nanoseconds", .nanos, 1)]

def Amounts.add (amounts : Amounts) (entry : String × LoraValue) : Except String Amounts :=
  match entryOf DURATION_KEYS entry.1 with
  | none => .error s!"unknown key \x60{entry.1}\x60"
  | some (slot, scale) =>
    match slot with
    | .months =>
      (amounts.months.add entry.1 entry.2 scale).map fun a => { amounts with months := a }
    | .days => (amounts.days.add entry.1 entry.2 scale).map fun a => { amounts with days := a }
    | .seconds =>
      (amounts.seconds.add entry.1 entry.2 scale).map fun a => { amounts with seconds := a }
    | .nanos => (amounts.nanos.add entry.1 entry.2 scale).map fun a => { amounts with nanos := a }

/-- The nanoseconds of an average month, 30.436875 days. -/
def NANOS_PER_AVERAGE_MONTH : F64 := .ofInt 2629746000000000

/-- `duration({…})`: a fraction of a month cascades into days and the rest into seconds, one of a
day or a second into the smaller units. -/
def durationFromMap (m : List (String × LoraValue)) : Except String LoraDuration := do
  let amounts ← m.foldlM Amounts.add ⟨.zero, .zero, .zero, .zero⟩
  let months ← amounts.months.settle
  let monthNanos := (months.fraction.times NANOS_PER_AVERAGE_MONTH).round.castI128
  let wholeDays ← checkedSum (amounts.days.whole + monthNanos.tdiv NANOS_PER_DAY)
  let days ← Amount.settle { amounts.days with whole := wholeDays }
  let parts := [monthNanos.tmod NANOS_PER_DAY,
    (days.fraction.times (.ofInt 86400000000000)).round.castI128,
    amounts.seconds.whole * NANOS,
    (amounts.seconds.fraction.times (.ofInt 1000000000)).round.castI128,
    amounts.nanos.whole,
    amounts.nanos.fraction.round.castI128]
  let nanos ← parts.foldlM (fun sum part => do
    let part ← checkedSum part
    checkedSum (sum + part)) 0
  durationOf months.whole days.whole nanos

/-! ### Reading the clock -/

/-- A time without a date is moved to a named zone by the offset the zone has now. -/
def movesNow (p : Parts) : Zone → Bool
  | .offset _ => false
  | .named _ => p.offset.isSome && p.clock.isSome && p.date.isNone

section Clocked

variable (tz : ZoneId → TimeZone) (db : ZoneDb) (t : Now)

/-- A map that is built from components moves a time to a named zone. -/
def movesByClock (m : List (String × LoraValue)) (kind : Kind) : Except String Bool := do
  let given ← Given.collect m kind false
  if (given.firstOf [.epochSeconds, .epochMillis]).isSome then pure false
  else do
    let base ← baseOf given
    match given .timezone with
    | none => pure false
    | some zone => do
      let zone ← parseZone tz db t zone
      pure (movesNow base zone)

/-- What a map builds depends on the clock: it is nothing but a `timezone`, or it moves a time
without a date to a named zone and does not build a `TIME`. -/
def readsClock (m : List (String × LoraValue)) (kind : Kind) : Bool :=
  match onlyTimezone m with
  | some zone => (parseZone tz db t zone).toBool
  | none => kind != .time && (movesByClock tz db t m kind).toOption.getD false

variable {tz db}

/-! An offset after a clock is read where it stands, whatever zone follows it. -/

theorem splitOffset_isSome {s clock : Bytes} {offset : Option Int32}
    (h : splitOffset s = .ok (clock, offset))
    (hs : s.any (fun c => c == 43 || c == 45) = true) : offset.isSome = true := by
  rw [splitOffset] at h
  split at h
  · obtain ⟨-, rfl⟩ := Prod.mk.inj (Except.ok.inj h)
    rfl
  · cases hp : parseOffset (s.dropWhile fun c => !(c == 43 || c == 45)) with
    | error e =>
      rw [hp] at h
      exact (nomatch h)
    | ok o =>
      rw [hp] at h
      obtain ⟨-, rfl⟩ := Prod.mk.inj (Except.ok.inj h)
      rfl

theorem parseTimeString_isSome {s : Bytes} {hour minute second nanosecond : UInt32}
    {offset : Option Int32}
    (h : parseTimeString s = .ok (hour, minute, second, nanosecond, offset))
    (hs : s.any (fun c => c == 43 || c == 45) = true) : offset.isSome = true := by
  rw [parseTimeString] at h
  split at h
  · cases h
  · split at h
    · cases h
    · next clock offset' hsplit =>
      have hoffset := splitOffset_isSome hsplit hs
      simp only at h
      split at h
      · cases h
      · split at h
        · cases h
          exact hoffset
        · split at h
          · cases h
            exact hoffset
          · cases h

theorem except_bind_congr {α β : Type} {x : Except String α} {f g : α → Except String β}
    (h : ∀ a, x = .ok a → f a = g a) : (x >>= f) = (x >>= g) := by
  cases x with
  | error e => rfl
  | ok a => exact h a rfl

theorem LoraTime.parse_eq (t t' : Now) {s : Bytes}
    (hs : ∀ front zone, LoraDateTime.splitZoneSuffix db s = .ok (front, some zone) →
      front.any (fun c => c == 43 || c == 45) = true) :
    LoraTime.parse tz db t s = LoraTime.parse tz db t' s := by
  rw [LoraTime.parse, LoraTime.parse]
  refine except_bind_congr fun split hsplit => ?_
  obtain ⟨front, zone⟩ := split
  refine except_bind_congr fun fields hfields => ?_
  obtain ⟨hour, minute, second, nanosecond, offset⟩ := fields
  match offset, zone with
  | some _, _ => rfl
  | none, none => rfl
  | none, some zone => exact (nomatch parseTimeString_isSome hfields (hs front zone hsplit))

/-- What precedes a zone is what precedes a bracket. -/
theorem splitZoneSuffix_front {s front : Bytes} {zone : ZoneId}
    (h : LoraDateTime.splitZoneSuffix db s = .ok (front, some zone)) :
    ∃ tail, front ++ 91 :: tail = s := by
  rw [LoraDateTime.splitZoneSuffix] at h
  split at h
  · next hlast =>
    simp only at h
    split at h
    · cases h
    · next b rest hdrop =>
      split at h
      · cases h
      · cases h
        have hb : b = 91 := by
          have hhead := List.head?_dropWhile_not (fun x : UInt8 => x != 91) s.dropLast.reverse
          rw [hdrop] at hhead
          simpa using hhead
        have hsplit := List.takeWhile_append_dropWhile (p := fun x : UInt8 => x != 91)
          (l := s.dropLast.reverse)
        rw [hdrop, hb] at hsplit
        have hbody : s.dropLast = rest.reverse ++
            91 :: (s.dropLast.reverse.takeWhile fun x => x != 91).reverse := by
          have hreverse := congrArg List.reverse hsplit
          rw [List.reverse_reverse, List.reverse_append, List.reverse_cons] at hreverse
          rw [← List.append_cons] at hreverse
          exact hreverse.symm
        refine ⟨(s.dropLast.reverse.takeWhile fun x => x != 91).reverse ++ [93], ?_⟩
        have hs := List.dropLast_append_getLast? 93 hlast
        rw [hbody] at hs
        simpa using hs
  · cases h

/-- What precedes the last bracket of a text keeps a sign that stands before any bracket. -/
theorem any_splitZoneSuffix (pre : Bytes) {rest front : Bytes} {zone : ZoneId} {c : UInt8}
    (hc : (c == 43 || c == 45) = true) (hpre : ∀ b ∈ pre, b ≠ 91)
    (h : LoraDateTime.splitZoneSuffix db (pre ++ c :: rest) = .ok (front, some zone)) :
    front.any (fun c => c == 43 || c == 45) = true := by
  obtain ⟨tail, hfront⟩ := splitZoneSuffix_front h
  suffices hmem : c ∈ front from List.any_eq_true.mpr ⟨c, hmem, hc⟩
  have hne : c ≠ 91 := by
    rintro rfl
    simp at hc
  rcases List.append_eq_append_iff.mp hfront with ⟨between, hpre', hrest⟩ | ⟨between, hpre', hrest⟩
  · -- The bracket would stand in what precedes the sign.
    cases between with
    | nil =>
      rw [List.nil_append] at hrest
      exact absurd (List.cons.inj hrest).1.symm hne
    | cons b between =>
      obtain ⟨rfl, -⟩ := List.cons.inj hrest
      exact absurd rfl (hpre 91 (by rw [hpre']; simp))
  · cases between with
    | nil =>
      rw [List.nil_append] at hrest
      exact absurd (List.cons.inj hrest).1 hne
    | cons b between =>
      obtain ⟨rfl, -⟩ := List.cons.inj hrest
      rw [hpre']
      simp

/-- A `timezone` is read alike at every moment. -/
theorem parseZone_eq (t t' : Now) (value : LoraValue) :
    parseZone tz db t value = parseZone tz db t' value := by
  rw [parseZone.eq_def, parseZone.eq_def]
  split
  · next name =>
    split
    · next hname =>
      rw [LoraTime.parse_eq t t' fun front zone h => ?_]
      rw [Bool.or_eq_true, beq_iff_eq] at hname
      rcases hname with hsign | rfl
      · cases hbytes : utf8 name with
        | nil =>
          rw [hbytes] at hsign
          exact (nomatch hsign)
        | cons c rest =>
          rw [hbytes] at h hsign
          refine any_splitZoneSuffix [48, 48, 58, 48, 48] ?_ ?_ h
          · simpa [startsWithSign] using hsign
          · simp
      · have hnone : LoraDateTime.splitZoneSuffix db ([48, 48, 58, 48, 48] ++ utf8 "Z") =
            .ok ([48, 48, 58, 48, 48] ++ utf8 "Z", none) := rfl
        rw [hnone] at h
        exact (nomatch h)
    · rfl
  · rfl

/-! ### Components at two moments -/

variable {p : Parts}

theorem setZone_eq (t t' : Now) {zone : Zone} {keepInstant : Bool}
    (h : keepInstant = true → movesNow p zone = false) :
    setZone tz t p zone keepInstant = setZone tz t' p zone keepInstant := by
  cases keepInstant with
  | false => simp [setZone]
  | true =>
    cases hoffset : p.offset with
    | none => simp [setZone, instantOf, hoffset]
    | some offset =>
      cases hclock : p.clock with
      | none => simp [setZone, instantOf, hoffset, hclock]
      | some clock =>
        cases hdate : p.date with
        | some date => simp [setZone, instantOf, hoffset, hclock, hdate]
        | none =>
          cases zone with
          | offset other => simp [setZone, instantOf, hoffset, hclock]
          | named zone =>
            have hmoves := h rfl
            simp [movesNow, hoffset, hclock, hdate] at hmoves

variable {kind : Kind}

/-- Only a `TIME` takes the offset its zone has now. -/
theorem build_eq (t t' : Now) (h : kind ≠ .time ∨ p.offset.isSome = true ∨ p.zone = none) :
    build tz t p kind = build tz t' p kind := by
  rcases h with hkind | hoffset | hzone
  · cases kind with
    | time => exact absurd rfl hkind
    | dateTime => cases hzone : p.zone <;> simp [build, hzone]
    | date => simp only [build]
    | localTime => simp only [build]
    | localDateTime => simp only [build]
  · obtain ⟨offset, hoffset⟩ := Option.isSome_iff_exists.mp hoffset
    simp only [build, hoffset, Option.some_or]
  · simp only [build, hzone, Option.map_none]

/-- A temporal value in a zone has an offset. -/
theorem partsOf_offset {value : LoraValue} (h : partsOf value = some p) :
    p.offset.isSome = true ∨ p.zone = none := by
  cases value <;> cases h <;> simp [Parts.ofDate, Parts.ofDateTime]

theorem convert_eq (t t' : Now) (value : LoraValue) (kind : Kind) :
    convert tz t value kind = convert tz t' value kind := by
  rw [convert, convert]
  cases hparts : partsOf value with
  | none => simp only [Option.bind_eq_bind, Option.bind_none]
  | some p =>
    simp only [Option.bind_eq_bind, Option.bind_some, build_eq t t' (.inr (partsOf_offset hparts))]

theorem fromEpochMap_eq (t t' : Now) (given : Given) (epoch : Field) :
    fromEpochMap tz db t given epoch = fromEpochMap tz db t' given epoch := by
  have hzone : parseZone tz db t = parseZone tz db t' := funext (parseZone_eq t t')
  rw [fromEpochMap, fromEpochMap, hzone]

theorem applyFields_eq (t t' : Now) (hkind : kind ≠ .time) (given : Given)
    (base : Parts) (truncating : Bool) :
    applyFields tz t given base kind truncating = applyFields tz t' given base kind truncating := by
  simp only [applyFields, build_eq t t' (Or.inl hkind)]

theorem build_bind_congr {α β : Type} {x : Except String α} {f g : α → Build β}
    (h : ∀ a, x = .ok a → f a = g a) :
    ((liftM x : Build α) >>= f) = ((liftM x : Build α) >>= g) := by
  cases x with
  | error e => rfl
  | ok a => exact h a rfl

variable {m : List (String × LoraValue)}

/-- A map that does not read the clock builds one value. -/
theorem fromMap_eq_of_fixed (t t' : Now)
    (hkind : kind ≠ .time) (h : readsClock tz db t m kind = false) :
    fromMap tz db t m kind = fromMap tz db t' m kind := by
  rw [fromMap, fromMap]
  rw [readsClock] at h
  cases honly : onlyTimezone m with
  | some value =>
    rw [honly] at h
    simp only at h ⊢
    rw [parseZone_eq t' t]
    refine build_bind_congr fun zone hzone => ?_
    rw [hzone] at h
    exact (nomatch h)
  | none =>
    rw [honly] at h
    simp only at h ⊢
    refine build_bind_congr fun given hgiven => ?_
    cases hepoch : given.firstOf [.epochSeconds, .epochMillis] with
    | some epoch =>
      dsimp only
      rw [fromEpochMap_eq t t']
    | none =>
      dsimp only
      refine build_bind_congr fun base hbase => ?_
      cases htimezone : given .timezone with
      | none => rw [pure_bind, pure_bind, applyFields_eq t t' hkind]
      | some value =>
        dsimp only
        rw [parseZone_eq t' t]
        refine build_bind_congr fun zone hzone => ?_
        have hmoves : movesNow base zone = false := by
          have hkind' : (kind != .time) = true := by simpa using hkind
          simpa [movesByClock, hgiven, hepoch, hbase, htimezone, hzone, hkind', bind,
            Except.bind, pure, Except.pure, Except.toOption] using h
        rw [setZone_eq t t' fun _ => hmoves]
        refine build_bind_congr fun base' _ => ?_
        exact applyFields_eq t t' hkind given base' false

/-! ### Times -/

/-- Two results are one, or are both a `TIME`. -/
def SameButTimes (x y : Build LoraValue) : Prop :=
  x = y ∨ ∃ v w, x = pure (.time v) ∧ y = pure (.time w)

/-- Two readings of times are one, or each is read. -/
def BothRead {α : Type} (x y : Except String α) : Prop := x = y ∨ ∃ v w, x = .ok v ∧ y = .ok w

theorem BothRead.bind {α β : Type} {x : Except String α} {f g : α → Except String β}
    (h : ∀ a, BothRead (f a) (g a)) : BothRead (x >>= f) (x >>= g) := by
  cases x with
  | error e => exact .inl rfl
  | ok a => exact h a

theorem BothRead.time {x y : Except String LoraTime} (h : BothRead x y) :
    SameButTimes (Build.of (x.map .time)) (Build.of (y.map .time)) := by
  rcases h with rfl | ⟨v, w, rfl, rfl⟩
  · exact .inl rfl
  · exact .inr ⟨v, w, rfl, rfl⟩

theorem LoraTime.new_bothRead (hour minute second nanosecond : UInt32) (offset offset' : Int32) :
    BothRead (LoraTime.new hour minute second nanosecond offset)
      (LoraTime.new hour minute second nanosecond offset') := by
  rw [LoraTime.new, LoraTime.new]
  exact .bind fun _ => .inr ⟨_, _, rfl, rfl⟩

/-- A text is read as a time at every moment or at none. -/
theorem LoraTime.parse_bothRead (t t' : Now) (s : Bytes) :
    BothRead (LoraTime.parse tz db t s) (LoraTime.parse tz db t' s) := by
  rw [LoraTime.parse, LoraTime.parse]
  exact .bind fun _ => .bind fun _ => LoraTime.new_bothRead _ _ _ _ _ _

/-- Two clocks pass for a time alike: they are one, or each is of the day. -/
def SameClock (c c' : Clock) : Prop :=
  c = c' ∨ (c.nanosecond.toNat < 1000000000 ∧ c'.nanosecond.toNat < 1000000000 ∧
    checkClock c.hour c.minute c.second = checkClock c'.hour c'.minute c'.second)

theorem build_time (t t' : Now) {p p' : Parts}
    (h : SameClock (p.clock.getD Clock.midnight) (p'.clock.getD Clock.midnight)) :
    SameButTimes (Build.of (build tz t p .time)) (Build.of (build tz t' p' .time)) := by
  rcases h with heq | ⟨hnano, hnano', hcheck⟩
  · simp only [build, heq]
    split
    · exact .inl rfl
    · exact (LoraTime.new_bothRead _ _ _ _ _ _).time
  · simp only [build, if_neg (Nat.not_le.mpr hnano), if_neg (Nat.not_le.mpr hnano'),
      LoraTime.new, hcheck]
    generalize checkClock _ _ _ = checked
    cases checked with
    | error e => exact .inl rfl
    | ok u => exact .inr ⟨_, _, rfl, rfl⟩

/-- A clock of the day. -/
def InDay (c : Clock) : Prop :=
  (c.hour.toNat < 24 ∧ c.minute.toNat < 60 ∧ c.second.toNat < 60) ∧ c.nanosecond.toNat < 1000000000

theorem inDay_fromNanosOfDay (nanos : ℤ) :
    InDay (Clock.fromNanosOfDay (nanos % NANOS_PER_DAY)) := by
  have hpos : 0 ≤ nanos % NANOS_PER_DAY := Int.emod_nonneg _ (by decide)
  have hlt : nanos % NANOS_PER_DAY < NANOS_PER_DAY := Int.emod_lt_of_pos _ (by decide)
  generalize nanos % NANOS_PER_DAY = n at hpos hlt
  have hsum := Int.tdiv_mul_add_tmod n NANOS
  have hdiv := Int.tdiv_nonneg hpos (show 0 ≤ NANOS by decide)
  have hrest := Int.tmod_nonneg NANOS hpos
  have hsmall := Int.tmod_lt_of_pos n (show 0 < NANOS by decide)
  simp only [NANOS_PER_DAY, NANOS] at hlt hsum hdiv hrest hsmall
  obtain ⟨hclock, -⟩ := LoraDateTime.daySeconds_ofNat (r := n.tdiv 1000000000) (by omega)
  have hnano : (UInt32.ofNat (n.tmod 1000000000).toNat).toNat = (n.tmod 1000000000).toNat :=
    UInt32.toNat_ofNat_of_lt' (by change _ < 2 ^ 32; omega)
  refine ⟨hclock, ?_⟩
  change (UInt32.ofNat (n.tmod 1000000000).toNat).toNat < _
  omega

theorem checkClock_getD {c c' : Clock} (hc : InDay c) (hc' : InDay c')
    (hour minute second : Option UInt32) :
    checkClock (hour.getD c.hour) (minute.getD c.minute) (second.getD c.second) =
      checkClock (hour.getD c'.hour) (minute.getD c'.minute) (second.getD c'.second) := by
  obtain ⟨⟨hh, hm, hs⟩, -⟩ := hc
  obtain ⟨⟨hh', hm', hs'⟩, -⟩ := hc'
  have hle {n m : ℕ} (h : n < m + 1) : ¬ m < n := by omega
  cases hour <;> cases minute <;> cases second <;>
    simp only [checkClock, Option.getD_none, Option.getD_some, if_neg (hle hh), if_neg (hle hm),
      if_neg (hle hs), if_neg (hle hh'), if_neg (hle hm'), if_neg (hle hs')]

/-- The components of a map go over two clocks of the day alike. -/
theorem resolveClock_inDay {c c' : Clock} (hc : InDay c) (hc' : InDay c') (given : Given)
    (kind : Kind) :
    resolveClock given (some c) kind false = resolveClock given (some c') kind false ∨
      ∃ d d', resolveClock given (some c) kind false = .ok d ∧
        resolveClock given (some c') kind false = .ok d' ∧ SameClock d d' := by
  simp only [resolveClock, checkClockFields, Option.isSome_some, if_true, Option.getD_some,
    Bool.false_eq_true, if_false, bind, Except.bind]
  cases given.u32 .hour with
  | error e => exact .inl rfl
  | ok hour =>
    cases given.u32 .minute with
    | error e => exact .inl rfl
    | ok minute =>
      cases given.u32 .second with
      | error e => exact .inl rfl
      | ok second =>
        have hcheck := checkClock_getD hc hc' hour minute second
        dsimp only
        split
        · exact .inr ⟨_, _, rfl, rfl, .inr ⟨hc.2, hc'.2, hcheck⟩⟩
        · cases given.u32 .millisecond with
          | error e => exact .inl rfl
          | ok milli =>
            cases given.u32 .microsecond with
            | error e => exact .inl rfl
            | ok micro =>
              cases given.u32 .nanosecond with
              | error e => exact .inl rfl
              | ok nano =>
                dsimp only
                split
                · exact .inl rfl
                · next hnanos =>
                  have hnano := UInt32.toNat_ofNat_of_lt' (n := (milli.getD 0).toNat *
                    1000000 + (micro.getD 0).toNat * 1000 + (nano.getD 0).toNat)
                    (by change _ < 2 ^ 32; omega)
                  exact .inr ⟨_, _, rfl, rfl, .inr ⟨by
                    change (UInt32.ofNat _).toNat < _
                    omega, by
                    change (UInt32.ofNat _).toNat < _
                    omega, hcheck⟩⟩

theorem SameButTimes.bind {α : Type} {x : Except String α} {f g : α → Build LoraValue}
    (h : ∀ a, x = .ok a → SameButTimes (f a) (g a)) :
    SameButTimes ((liftM x : Build α) >>= f) ((liftM x : Build α) >>= g) := by
  cases x with
  | error e => exact .inl rfl
  | ok a => exact h a rfl

theorem applyFields_time (t t' : Now) (given : Given) {p p' : Parts} {truncating : Bool}
    (h : resolveClock given p.clock .time truncating =
        resolveClock given p'.clock .time truncating ∨
      ∃ d d', resolveClock given p.clock .time truncating = .ok d ∧
        resolveClock given p'.clock .time truncating = .ok d' ∧ SameClock d d') :
    SameButTimes (applyFields tz t given p .time truncating)
      (applyFields tz t' given p' .time truncating) := by
  have hstep (t : Now) (p : Parts) : applyFields tz t given p .time truncating =
      Build.of (resolveClock given p.clock .time truncating) >>= fun clock =>
        Build.of (build tz t { p with clock := some clock } .time) := by
    simp only [applyFields, Kind.hasDate, Kind.hasTime, Bool.false_eq_true, if_false, if_true,
      pure_bind, map_eq_pure_bind, bind_assoc]
  rw [hstep, hstep]
  rcases h with heq | ⟨d, d', hd, hd', hsame⟩
  · rw [heq]
    exact SameButTimes.bind fun clock _ => build_time t t' (.inl rfl)
  · rw [hd, hd']
    exact build_time t t' hsame

theorem shiftTo_time {current : Int32} {clock : Clock}
    (hoffset : p.offset = some current) (hclock : p.clock = some clock) (hdate : p.date = none)
    (offset : Int32) :
    p.shiftTo offset = .ok ⟨none, some (Clock.fromNanosOfDay
      ((clock.nanosOfDay + (offset.toInt - current.toInt) * NANOS) % NANOS_PER_DAY)),
      some offset, none⟩ := by
  simp only [Parts.shiftTo, hoffset, hclock, hdate, Option.getD_some, Option.map_some]

variable (tz) in
/-- A time that is moved by the clock is one of the day. -/
theorem setZone_moved {zone : Zone} (h : movesNow p zone = true) (t : Now) :
    ∃ c q, setZone tz t p zone true = .ok q ∧ q.clock = some c ∧ InDay c := by
  cases zone with
  | offset offset => exact (nomatch h)
  | named zone =>
    rw [movesNow, Bool.and_eq_true, Bool.and_eq_true, Option.isNone_iff_eq_none] at h
    obtain ⟨⟨hoffset, hclock⟩, hdate⟩ := h
    obtain ⟨offset, hoffset⟩ := Option.isSome_iff_exists.mp hoffset
    obtain ⟨clock, hclock⟩ := Option.isSome_iff_exists.mp hclock
    obtain ⟨secs, hsecs⟩ : ∃ secs, instantOf t p = some secs :=
      ⟨_, by rw [instantOf, hoffset, hclock]⟩
    have hshift := shiftTo_time hoffset hclock hdate ((tz zone).offsetAt secs)
    have hset : setZone tz t p (.named zone) true =
        (p.shiftTo ((tz zone).offsetAt secs)).map fun q => { q with zone := some zone } := by
      simp only [setZone, if_true, hsecs, hshift, bind, Except.bind, Except.map]
    rw [hset, hshift]
    exact ⟨_, _, rfl, rfl, inDay_fromNanosOfDay _⟩

/-- A map builds a `TIME` at every moment or at none. -/
theorem fromMap_time (t t' : Now) (h : readsClock tz db t m .time = false) :
    SameButTimes (fromMap tz db t m .time) (fromMap tz db t' m .time) := by
  rw [fromMap, fromMap]
  rw [readsClock] at h
  cases honly : onlyTimezone m with
  | some value =>
    rw [honly] at h
    simp only at h ⊢
    rw [parseZone_eq t' t]
    refine SameButTimes.bind fun zone hzone => ?_
    rw [hzone] at h
    exact (nomatch h)
  | none =>
    dsimp only
    refine SameButTimes.bind fun given _ => ?_
    cases given.firstOf [.epochSeconds, .epochMillis] with
    | some epoch =>
      dsimp only
      rw [fromEpochMap_eq t t']
      exact .inl rfl
    | none =>
      dsimp only
      refine SameButTimes.bind fun base _ => ?_
      cases given .timezone with
      | none =>
        rw [pure_bind, pure_bind]
        exact applyFields_time t t' given (.inl rfl)
      | some value =>
        dsimp only
        rw [parseZone_eq t' t]
        refine SameButTimes.bind fun zone _ => ?_
        cases hmoves : movesNow base zone with
        | false =>
          rw [setZone_eq t t' fun _ => hmoves]
          refine SameButTimes.bind fun base' _ => ?_
          exact applyFields_time t t' given (.inl rfl)
        | true =>
          obtain ⟨c, q, hq, hclock, hc⟩ := setZone_moved tz hmoves t
          obtain ⟨c', q', hq', hclock', hc'⟩ := setZone_moved tz hmoves t'
          rw [hq, hq']
          refine applyFields_time t t' given ?_
          rw [hclock, hclock']
          exact resolveClock_inDay hc hc' given .time

/-! ### Kinds at two moments -/

theorem SameButTimes.bind_build {α : Type} {x : Build α} {f g : α → Build LoraValue}
    (h : ∀ a, SameButTimes (f a) (g a)) : SameButTimes (x >>= f) (x >>= g) :=
  match x with
  | none => .inl rfl
  | some (.error _) => .inl rfl
  | some (.ok a) => h a

theorem build_same (t t' : Now) (p : Parts) (kind : Kind) :
    SameButTimes (Build.of (build tz t p kind)) (Build.of (build tz t' p kind)) := by
  by_cases hkind : kind = .time
  · rw [hkind]
    exact build_time t t' (.inl rfl)
  · exact .inl (congrArg Build.of (build_eq t t' (.inl hkind)))

theorem applyFields_same (t t' : Now) (given : Given) (p : Parts) (kind : Kind)
    (truncating : Bool) :
    SameButTimes (applyFields tz t given p kind truncating)
      (applyFields tz t' given p kind truncating) := by
  by_cases hkind : kind = .time
  · rw [hkind]
    exact applyFields_time t t' given (.inl rfl)
  · exact .inl (applyFields_eq t t' hkind given p truncating)

/-- A map that does not read the clock builds one value, up to which `TIME` it is. -/
theorem fromMap_same (t t' : Now) (h : readsClock tz db t m kind = false) :
    SameButTimes (fromMap tz db t m kind) (fromMap tz db t' m kind) := by
  by_cases hkind : kind = .time
  · subst hkind
    exact fromMap_time t t' h
  · exact .inl (fromMap_eq_of_fixed t t' hkind h)

/-- Truncation reads the clock for nothing but a `TIME`. -/
theorem truncate_same (t t' : Now) (unit : String) (value : LoraValue)
    (map : Option (List (String × LoraValue))) (kind : Option Kind) :
    SameButTimes (truncate tz db t unit value map kind)
      (truncate tz db t' unit value map kind) := by
  rw [truncate, truncate]
  cases kind.or (Kind.of value) with
  | none => exact .inl rfl
  | some kind =>
    dsimp only
    refine SameButTimes.bind_build fun parts => ?_
    cases map.filter fun m => !m.isEmpty with
    | none => exact build_same t t' parts kind
    | some m =>
      dsimp only
      refine SameButTimes.bind fun given _ => ?_
      cases given .timezone with
      | none =>
        rw [pure_bind, pure_bind]
        exact applyFields_same t t' given parts kind true
      | some value =>
        dsimp only
        rw [parseZone_eq t' t]
        refine SameButTimes.bind fun zone _ => ?_
        have hset : setZone tz t parts zone false = setZone tz t' parts zone false :=
          setZone_eq t t' (nomatch ·)
        rw [hset]
        refine SameButTimes.bind fun parts' _ => ?_
        exact applyFields_same t t' given parts' kind true

end Clocked

end TemporalBuild

end LoraDb
