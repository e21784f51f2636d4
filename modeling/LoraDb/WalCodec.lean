import LoraDb.StoreCodec
import LoraDb.WalError

/-!
# The Log Payload Codec

How mutation events become the payload of a log record. The source has four hand-written
walks over the same vocabulary, and so has this module:

* `encodeEvents` writes the bytes;
* `encodedEventsLen` computes how many there will be, without writing them;
* `decodeEvents` reads them back;
* `validateEvents` walks them without building anything, for replay's first pass.

The reader's measure is the number of containers it may still open, `MAX_VALUE_DEPTH` minus
the depth the source counts. Time zones come from a database outside this repository
(`ZoneDb`), of which one thing is assumed: looking a zone up by its own name finds it.
-/

open ByteCodec

namespace LoraDb

/-- The **time zone database**: the name of a zone, and the zone of a name. -/
structure ZoneDb where
  name : ZoneId → String
  lookup : String → Option ZoneId
  lookup_name : ∀ zone, lookup (name zone) = some zone

namespace WalCodec

/-- Deepest nesting of lists and maps in a logged value, the limit of the store codec. -/
def MAX_VALUE_DEPTH : ℕ := StoreCodec.MAX_VALUE_NESTING

/-- The four bytes every payload starts with: `LW1` and a zero. -/
def PAYLOAD_MAGIC : Bytes := [0x4C, 0x57, 0x31, 0x00]

/-- The errors of the payload codec's primitives. -/
def errors : WireErrors WalError where
  lenTooBig := .encode "length does not fit in u64"
  offsetOverflow := .decode "WAL mutation payload offset overflow"
  truncated := .decode "truncated WAL mutation payload"
  invalidUtf8 := .decode "invalid UTF-8 in WAL payload"
  tooMany label len := .decode s!"{label} count {len} exceeds remaining WAL payload"

abbrev Writer := Except WalError Bytes
abbrev Reader := ByteReader WalError

/-- A step of the size computation: the new running total, or its error. -/
abbrev Sizer := ℕ → Except WalError ℕ

/-- Nesting that the writer refuses, so that the log never holds a record that cannot be
replayed. -/
def nestingMessage : String :=
  s!"property value is nested more than {MAX_VALUE_DEPTH} lists or maps deep"

/-- A list or map given to a walk over the other values. -/
def scalarExpected : WalError := .encode "list or map passed to the scalar value encoder"

/-! ### Writing -/

def writeI8 (value : Int8) : Writer := writeNat 1 value.toUInt8.toNat

def writeI16 (value : Int16) : Writer := writeNat 2 value.toUInt16.toNat

def writeI32 (value : Int32) : Writer := writeNat 4 value.toUInt32.toNat

def writeI64 (value : Int64) : Writer := writeNat 8 value.toUInt64.toNat

def writeU32 (value : UInt32) : Writer := writeNat 4 value.toNat

def writeU64 (value : ℕ) : Writer := writeNat 8 value

def writeF32 (value : F32) : Writer := writeNat 4 value.bits.toNat

def writeF64 (value : F64) : Writer := writeNat 8 value.bits.toNat

def writeLen (len : ℕ) : Writer := writeCount errors len

def writeString (value : String) : Writer := writeText errors value

def writeStringVec (values : List String) : Writer :=
  writeAll [writeLen values.length, writeEach writeString values]

def writeBool (value : Bool) : Writer := writeByte (if value then 1 else 0)

def writeDateFields (year : Int32) (month day : UInt32) : Writer :=
  writeAll [writeI32 year, writeU32 month, writeU32 day]

def writeTimeFields (hour minute second nanosecond : UInt32) : Writer :=
  writeAll [writeU32 hour, writeU32 minute, writeU32 second, writeU32 nanosecond]

/-- One arm of `writeVector`: the coordinate type's tag, the number of coordinates, and the
coordinates. -/
def writeCoordinates {α : Type} (tag : UInt8) (write : α → Writer) (values : List α) : Writer :=
  writeAll [writeByte tag, writeLen values.length, writeEach write values]

/-- The dimension is written as it stands, whatever the number of coordinates. -/
def writeVector (vector : LoraVector) : Writer :=
  writeAll [writeLen vector.dimension.toNat,
    match vector.values with
    | .float64 values => writeCoordinates 1 writeF64 values
    | .float32 values => writeCoordinates 2 writeF32 values
    | .integer64 values => writeCoordinates 3 writeI64 values
    | .integer32 values => writeCoordinates 4 writeI32 values
    | .integer16 values => writeCoordinates 5 writeI16 values
    | .integer8 values => writeCoordinates 6 writeI8 values]

def writeBinarySegments (segments : List Bytes) : Writer :=
  writeAll [writeLen segments.length, writeEach (writeBlock errors) segments]

/-- Depth of the children of a list or map found at `depth`. -/
def enterContainer (depth : ℕ) : Except WalError ℕ :=
  if MAX_VALUE_DEPTH ≤ depth then .error (.encode nestingMessage) else .ok (depth + 1)

section Zones

variable (zones : ZoneDb)

/-- Every value but lists and maps. -/
def writeScalar : PropertyValue → Writer
  | .list _ | .map _ => .error scalarExpected
  | .null => writeByte 0
  | .bool value => writeAll [writeByte 1, writeBool value]
  | .int value => writeAll [writeByte 2, writeI64 value]
  | .float value => writeAll [writeByte 3, writeF64 value]
  | .string value => writeAll [writeByte 4, writeString value]
  | .binary value => writeAll [writeByte 15, writeBinarySegments value.segments]
  | .date value => writeAll [writeByte 7, writeDateFields value.year value.month value.day]
  | .time value =>
    writeAll [writeByte 8, writeTimeFields value.hour value.minute value.second value.nanosecond,
      writeI32 value.offsetSeconds]
  | .localTime value =>
    writeAll [writeByte 9, writeTimeFields value.hour value.minute value.second value.nanosecond]
  | .dateTime value =>
    writeAll [writeByte (if value.zone.isSome then 16 else 10),
      writeAll [writeDateFields value.year value.month value.day,
        writeTimeFields value.hour value.minute value.second value.nanosecond,
        writeI32 value.offsetSeconds],
      match value.zone with
      | some zone => writeString (zones.name zone)
      | none => .ok []]
  | .localDateTime value =>
    writeAll [writeByte 11, writeDateFields value.year value.month value.day,
      writeTimeFields value.hour value.minute value.second value.nanosecond]
  | .duration value =>
    writeAll [writeByte 12, writeI64 value.months, writeI64 value.days,
      writeI64 value.seconds, writeI64 value.nanoseconds]
  | .point value =>
    writeAll [writeByte 13, writeF64 value.x, writeF64 value.y, (match value.z with
      | some z => writeAll [writeByte 1, writeF64 z]
      | none => writeByte 0),
      writeU32 value.srid]
  | .vector value => writeAll [writeByte 14, writeVector value]

mutual

/-- `depth` counts the lists and maps enclosing the value. -/
def writeValueAt (depth : ℕ) : PropertyValue → Writer
  | .list values => do
    let depth ← enterContainer depth
    writeAll [writeByte 5, writeLen values.length, writeValuesAt depth values]
  | .map entries => do
    let depth ← enterContainer depth
    writeAll [writeByte 6, writeLen entries.length, writeEntriesAt depth entries]
  | scalar => writeScalar zones scalar
termination_by structural v => v

def writeValuesAt (depth : ℕ) : List PropertyValue → Writer
  | [] => .ok []
  | v :: vs => writeAll [writeValueAt depth v, writeValuesAt depth vs]
termination_by structural vs => vs

def writeEntriesAt (depth : ℕ) : List (String × PropertyValue) → Writer
  | [] => .ok []
  | (key, v) :: es =>
    writeAll [writeAll [writeString key, writeValueAt depth v], writeEntriesAt depth es]
termination_by structural es => es

end

def writeValue (value : PropertyValue) : Writer := writeValueAt zones 0 value

/-- One property: its key, then its value. -/
def writeProperty (entry : String × PropertyValue) : Writer :=
  writeAll [writeString entry.1, writeValue zones entry.2]

def writeProperties (properties : PropertyMap) : Writer :=
  writeAll [writeLen properties.entries.length, writeEach (writeProperty zones) properties.entries]

/-- A schema request in the store's codec, with the error of the payload codec. -/
def encodeRequest (what : String) (encoded : StoreCodec.Writer) : Writer :=
  encoded.mapError fun e => .encode s!"{what} encode failed: {e.display}"

def writeEvent : MutationEvent → Writer
  | .createNode id labels properties =>
    writeAll [writeByte 1, writeU64 id, writeStringVec labels, writeProperties zones properties]
  | .createRelationship id src dst relType properties =>
    writeAll [writeByte 2, writeU64 id, writeU64 src, writeU64 dst, writeString relType,
      writeProperties zones properties]
  | .setNodeProperty nodeId key value =>
    writeAll [writeByte 3, writeU64 nodeId, writeString key, writeValue zones value]
  | .removeNodeProperty nodeId key =>
    writeAll [writeByte 4, writeU64 nodeId, writeString key]
  | .addNodeLabel nodeId label => writeAll [writeByte 5, writeU64 nodeId, writeString label]
  | .removeNodeLabel nodeId label =>
    writeAll [writeByte 6, writeU64 nodeId, writeString label]
  | .setRelationshipProperty relId key value =>
    writeAll [writeByte 7, writeU64 relId, writeString key, writeValue zones value]
  | .removeRelationshipProperty relId key =>
    writeAll [writeByte 8, writeU64 relId, writeString key]
  | .deleteRelationship relId => writeAll [writeByte 9, writeU64 relId]
  | .deleteNode nodeId => writeAll [writeByte 10, writeU64 nodeId]
  | .detachDeleteNode nodeId => writeAll [writeByte 11, writeU64 nodeId]
  | .clear => writeByte 12
  | .createIndex request ifNotExists => do
    let bytes ← encodeRequest "CreateIndex" (StoreCodec.encodeIndexRequest request)
    writeAll [writeByte 13, writeBlock errors bytes, writeBool ifNotExists]
  | .dropIndex name ifExists => writeAll [writeByte 14, writeString name, writeBool ifExists]
  | .createConstraint request ifNotExists => do
    let bytes ← encodeRequest "CreateConstraint" (StoreCodec.encodeConstraintRequest request)
    writeAll [writeByte 15, writeBlock errors bytes, writeBool ifNotExists]
  | .dropConstraint name ifExists =>
    writeAll [writeByte 16, writeString name, writeBool ifExists]

/-- The payload of a batch: magic, number of events, events. -/
def encodeEventsInto (events : List MutationEvent) : Writer :=
  writeAll [.ok PAYLOAD_MAGIC, writeLen events.length, writeEach (writeEvent zones) events]

/-- The payload of a single event. -/
def encodeEventInto (event : MutationEvent) : Writer :=
  writeAll [.ok PAYLOAD_MAGIC, writeEvent zones event]

end Zones

/-! ### Sizing -/

/-- `add_size`: the total must stay a machine word. -/
def addSize (bytes : ℕ) : Sizer :=
  ByteCodec.addSize (.encode "payload length overflows usize") bytes

def sizeTag : Sizer := addSize 1

def sizeU64 : Sizer := addSize 8

def sizeLen (len : ℕ) : Sizer := fun size =>
  if len < sizeLimit then sizeU64 size else .error (.encode "length does not fit in u64")

def sizeBytes (len : ℕ) : Sizer := fun size => do
  let size ← sizeLen len size
  addSize len size

def sizeString (value : String) : Sizer := sizeBytes (utf8 value).length

def sizeStringVec (values : List String) : Sizer := fun size => do
  let size ← sizeLen values.length size
  sizeEach sizeString values size

def sizeBinarySegments (segments : List Bytes) : Sizer := fun size => do
  let size ← sizeLen segments.length size
  sizeEach (fun segment => sizeBytes segment.length) segments size

def sizeNumericSlice (len elementSize : ℕ) : Sizer := fun size => do
  let size ← sizeLen len size
  if len * elementSize < sizeLimit then addSize (len * elementSize) size
  else .error (.encode "payload length overflows usize")

def sizeVector (vector : LoraVector) : Sizer := fun size => do
  let size ← sizeLen vector.dimension.toNat size
  let size ← sizeTag size
  match vector.values with
  | .float64 values => sizeNumericSlice values.length 8 size
  | .float32 values => sizeNumericSlice values.length 4 size
  | .integer64 values => sizeNumericSlice values.length 8 size
  | .integer32 values => sizeNumericSlice values.length 4 size
  | .integer16 values => sizeNumericSlice values.length 2 size
  | .integer8 values => sizeNumericSlice values.length 1 size

section Zones

variable (zones : ZoneDb)

/-- Payload size of every value but lists and maps, tag excluded. -/
def sizeScalar : PropertyValue → Sizer
  | .list _ | .map _ => fun _ => .error scalarExpected
  | .null => fun size => .ok size
  | .bool _ => addSize 1
  | .int _ | .float _ => addSize 8
  | .string value => sizeString value
  | .binary value => sizeBinarySegments value.segments
  | .date _ => addSize 12
  | .time _ => addSize 20
  | .localTime _ => addSize 16
  | .dateTime value => fun size => do
    let size ← addSize 32 size
    match value.zone with
    | some zone => sizeString (zones.name zone) size
    | none => .ok size
  | .localDateTime _ => addSize 28
  | .duration _ => addSize 32
  | .point value => fun size => do
    let size ← addSize (8 + 8 + 1) size
    let size ← if value.z.isSome then addSize 8 size else .ok size
    addSize 4 size
  | .vector value => sizeVector value

mutual

def sizeValueAt (depth : ℕ) : PropertyValue → Sizer
  | .list values => fun size => do
    let size ← sizeTag size
    let depth ← enterContainer depth
    let size ← sizeLen values.length size
    sizeValuesAt depth values size
  | .map entries => fun size => do
    let size ← sizeTag size
    let depth ← enterContainer depth
    let size ← sizeLen entries.length size
    sizeEntriesAt depth entries size
  | scalar => fun size => do
    let size ← sizeTag size
    sizeScalar zones scalar size
termination_by structural v => v

def sizeValuesAt (depth : ℕ) : List PropertyValue → Sizer
  | [] => fun size => .ok size
  | v :: vs => fun size => do
    let size ← sizeValueAt depth v size
    sizeValuesAt depth vs size
termination_by structural vs => vs

def sizeEntriesAt (depth : ℕ) : List (String × PropertyValue) → Sizer
  | [] => fun size => .ok size
  | (key, v) :: es => fun size => do
    let size ← sizeString key size
    let size ← sizeValueAt depth v size
    sizeEntriesAt depth es size
termination_by structural es => es

end

def sizeValue (value : PropertyValue) : Sizer := sizeValueAt zones 0 value

def sizeProperty (entry : String × PropertyValue) : Sizer := fun size => do
  let size ← sizeString entry.1 size
  sizeValue zones entry.2 size

def sizeProperties (properties : PropertyMap) : Sizer := fun size => do
  let size ← sizeLen properties.entries.length size
  sizeEach (sizeProperty zones) properties.entries size

/-- A schema request: length prefix, payload and flag byte. -/
def sizeRequest (encoded : Writer) : Sizer := fun size => do
  let bytes ← encoded
  let size ← sizeLen bytes.length size
  let size ← addSize bytes.length size
  addSize 1 size

def sizeEvent (event : MutationEvent) : Sizer := fun size => do
  let size ← sizeTag size
  match event with
  | .createNode _ labels properties => do
    let size ← sizeU64 size
    let size ← sizeStringVec labels size
    sizeProperties zones properties size
  | .createRelationship _ _ _ relType properties => do
    let size ← sizeU64 size
    let size ← sizeU64 size
    let size ← sizeU64 size
    let size ← sizeString relType size
    sizeProperties zones properties size
  | .setNodeProperty _ key value | .setRelationshipProperty _ key value => do
    let size ← sizeU64 size
    let size ← sizeString key size
    sizeValue zones value size
  | .removeNodeProperty _ key | .addNodeLabel _ key | .removeNodeLabel _ key
  | .removeRelationshipProperty _ key => do
    let size ← sizeU64 size
    sizeString key size
  | .deleteRelationship _ | .deleteNode _ | .detachDeleteNode _ => sizeU64 size
  | .clear => .ok size
  | .createIndex request _ =>
    sizeRequest (encodeRequest "CreateIndex" (StoreCodec.encodeIndexRequest request)) size
  | .createConstraint request _ =>
    sizeRequest
      (encodeRequest "CreateConstraint" (StoreCodec.encodeConstraintRequest request)) size
  | .dropIndex name _ | .dropConstraint name _ => do
    let size ← sizeString name size
    addSize 1 size

/-- The length of a batch's payload. -/
def encodedEventsLen (events : List MutationEvent) : Except WalError ℕ := do
  let size ← sizeLen events.length PAYLOAD_MAGIC.length
  sizeEach (sizeEvent zones) events size

def encodedEventLen (event : MutationEvent) : Except WalError ℕ :=
  sizeEvent zones event PAYLOAD_MAGIC.length

/-- What an event adds to a batch, beyond the batch's prefix (`batchPayloadLen`). -/
def encodedBatchEventLen (event : MutationEvent) : Except WalError ℕ := sizeEvent zones event 0

/-- The payload length of a batch whose events add `eventsLen` bytes in total. -/
def batchPayloadLen (count eventsLen : ℕ) : Except WalError ℕ := do
  let size ← sizeLen count PAYLOAD_MAGIC.length
  addSize eventsLen size

/-- Encode a batch: size it first, then write it. -/
def encodeEvents (events : List MutationEvent) : Writer := do
  let _ ← encodedEventsLen zones events
  encodeEventsInto zones events

end Zones

/-! ### Reading -/

def readU8 : Reader UInt8 := readByte errors

def readFlag : Reader Bool := (fun b => b != 0) <$> readU8

def readI8 : Reader Int8 := (fun b => b.toInt8) <$> readByte errors

def readI16 : Reader Int16 := (fun n => (UInt16.ofNat n).toInt16) <$> readNat errors 2

def readI32 : Reader Int32 := (fun n => (UInt32.ofNat n).toInt32) <$> readNat errors 4

def readI64 : Reader Int64 := (fun n => (UInt64.ofNat n).toInt64) <$> readNat errors 8

def readU32 : Reader UInt32 := UInt32.ofNat <$> readNat errors 4

def readU64 : Reader ℕ := readNat errors 8

def readF32 : Reader F32 := (fun n => ⟨UInt32.ofNat n⟩) <$> readNat errors 4

def readF64 : Reader F64 := (fun n => ⟨UInt64.ofNat n⟩) <$> readNat errors 8

def readString : Reader String := readText errors

def readStringVec : Reader (List String) := do
  let len ← readCount errors "string"
  readTimes readString len

/-- One entry of a map or property bag. -/
def readEntry (readValue : Reader PropertyValue) : Reader (String × PropertyValue) := do
  let key ← readString
  let value ← readValue
  pure (key, value)

/-- One arm of `readVector`. -/
def readCoordinates {α : Type} (label : String) (read : Reader α)
    (build : List α → VectorValues) : Reader VectorValues := do
  let len ← readCount errors label
  let values ← readTimes read len
  pure (build values)

/-- The coordinates behind their type's tag. -/
def readVectorValues (tag : UInt8) : Reader VectorValues :=
  match tag with
  | 1 => readCoordinates "float64 vector value" readF64 .float64
  | 2 => readCoordinates "float32 vector value" readF32 .float32
  | 3 => readCoordinates "int64 vector value" readI64 .integer64
  | 4 => readCoordinates "int32 vector value" readI32 .integer32
  | 5 => readCoordinates "int16 vector value" readI16 .integer16
  | 6 => readCoordinates "int8 vector value" readI8 .integer8
  | tag => fail (.decode s!"unknown vector value tag {tag}")

/-- A vector whose declared dimension is not its number of coordinates is refused. -/
def finishVector (dimension : ℕ) (values : VectorValues) : Reader LoraVector :=
  if values.len ≠ dimension then
    fail (.decode s!"vector dimension mismatch: declared {dimension}, got {values.len}")
  else pure ⟨UInt64.ofNat dimension, values⟩

def readVector : Reader LoraVector := do
  let dimension ← readU64
  let tag ← readU8
  let values ← readVectorValues tag
  finishVector dimension values

def readBinary : Reader LoraBinary := do
  let len ← readCount errors "binary segment"
  let segments ← readTimes (readBlock errors) len
  pure ⟨segments⟩

/-- A point's third coordinate, behind its presence tag. -/
def readZ : Reader (Option F64) := do
  let tag ← readU8
  match tag with
  | 0 => pure none
  | 1 => some <$> readF64
  | tag => fail (.decode s!"invalid point z-presence tag {tag}")

section Zones

variable (zones : ZoneDb)

/-- The zone behind a zoned date-time. -/
def readZone : Reader ZoneId := do
  let name ← readString
  match zones.lookup name with
  | some zone => pure zone
  | none => fail (.decode s!"unknown time zone `{name}`")

/-- The eight numeric fields of a date-time, without a zone. -/
def readDateTimeFields : Reader LoraDateTime := do
  let year ← readI32
  let month ← readU32
  let day ← readU32
  let hour ← readU32
  let minute ← readU32
  let second ← readU32
  let nanosecond ← readU32
  let offsetSeconds ← readI32
  pure { year, month, day, hour, minute, second, nanosecond, offsetSeconds, zone := none }

def readScalar (tag : UInt8) : Reader PropertyValue :=
  match tag with
  | 0 => pure .null
  | 1 => .bool <$> readFlag
  | 2 => .int <$> readI64
  | 3 => .float <$> readF64
  | 4 => .string <$> readString
  | 15 => .binary <$> readBinary
  | 7 => do
    let year ← readI32
    let month ← readU32
    let day ← readU32
    pure (.date { year, month, day })
  | 8 => do
    let hour ← readU32
    let minute ← readU32
    let second ← readU32
    let nanosecond ← readU32
    let offsetSeconds ← readI32
    pure (.time { hour, minute, second, nanosecond, offsetSeconds })
  | 9 => do
    let hour ← readU32
    let minute ← readU32
    let second ← readU32
    let nanosecond ← readU32
    pure (.localTime { hour, minute, second, nanosecond })
  | 10 => .dateTime <$> readDateTimeFields
  | 16 => do
    let value ← readDateTimeFields
    let zone ← readZone zones
    pure (.dateTime { value with zone := some zone })
  | 11 => do
    let year ← readI32
    let month ← readU32
    let day ← readU32
    let hour ← readU32
    let minute ← readU32
    let second ← readU32
    let nanosecond ← readU32
    pure (.localDateTime { year, month, day, hour, minute, second, nanosecond })
  | 12 => do
    let months ← readI64
    let days ← readI64
    let seconds ← readI64
    let nanoseconds ← readI64
    pure (.duration { months, days, seconds, nanoseconds })
  | 13 => do
    let x ← readF64
    let y ← readF64
    let z ← readZ
    let srid ← readU32
    pure (.point { x, y, z, srid })
  | 14 => .vector <$> readVector
  | tag => fail (.decode s!"unknown WAL property value tag {tag}")

/-- One level of `readValue`. `enter` reads the values inside a list or map; it is `none`
when no further one may be opened. -/
def readValueAt (enter : Option (Reader PropertyValue)) : Reader PropertyValue := do
  let tag ← readU8
  match tag with
  | 5 =>
    match enter with
    | none => fail (.decode nestingMessage)
    | some readValue => do
      let len ← readCount errors "property list value"
      let values ← readTimes readValue len
      pure (.list values)
  | 6 =>
    match enter with
    | none => fail (.decode nestingMessage)
    | some readValue => do
      let len ← readCount errors "property map entry"
      let entries ← readTimes (readEntry readValue) len
      pure (.map (SortedMap.putAll [] entries))
  | tag => readScalar zones tag

/-- `levels` is how many lists and maps may still be opened. -/
def readValueWithin : ℕ → Reader PropertyValue
  | 0 => readValueAt zones none
  | levels + 1 => readValueAt zones (some (readValueWithin levels))

def readValue : Reader PropertyValue := readValueWithin zones MAX_VALUE_DEPTH

def readProperties : Reader PropertyMap := do
  let len ← readCount errors "property"
  let entries ← readTimes (readEntry (readValue zones)) len
  pure (PropertyMap.ofEntries entries)

/-- A length-prefixed schema request. -/
def readRequest {α : Type} (what : String)
    (decode : Bytes → Except StoreCodec.StoreCodecError α) : Reader α := do
  let bytes ← readBlock errors
  match decode bytes with
  | .ok request => pure request
  | .error e => fail (.decode s!"{what} decode failed: {e.display}")

/-- An event behind its tag. -/
def readEventBody (tag : UInt8) : Reader MutationEvent :=
  match tag with
  | 1 => do
    let id ← readU64
    let labels ← readStringVec
    let properties ← readProperties zones
    pure (.createNode id labels properties)
  | 2 => do
    let id ← readU64
    let src ← readU64
    let dst ← readU64
    let relType ← readString
    let properties ← readProperties zones
    pure (.createRelationship id src dst relType properties)
  | 3 => do
    let nodeId ← readU64
    let key ← readString
    let value ← readValue zones
    pure (.setNodeProperty nodeId key value)
  | 4 => do
    let nodeId ← readU64
    let key ← readString
    pure (.removeNodeProperty nodeId key)
  | 5 => do
    let nodeId ← readU64
    let label ← readString
    pure (.addNodeLabel nodeId label)
  | 6 => do
    let nodeId ← readU64
    let label ← readString
    pure (.removeNodeLabel nodeId label)
  | 7 => do
    let relId ← readU64
    let key ← readString
    let value ← readValue zones
    pure (.setRelationshipProperty relId key value)
  | 8 => do
    let relId ← readU64
    let key ← readString
    pure (.removeRelationshipProperty relId key)
  | 9 => .deleteRelationship <$> readU64
  | 10 => .deleteNode <$> readU64
  | 11 => .detachDeleteNode <$> readU64
  | 12 => pure .clear
  | 13 => do
    let request ← readRequest "CreateIndex" StoreCodec.decodeIndexRequest
    let ifNotExists ← readFlag
    pure (.createIndex request ifNotExists)
  | 14 => do
    let name ← readString
    let ifExists ← readFlag
    pure (.dropIndex name ifExists)
  | 15 => do
    let request ← readRequest "CreateConstraint" StoreCodec.decodeConstraintRequest
    let ifNotExists ← readFlag
    pure (.createConstraint request ifNotExists)
  | 16 => do
    let name ← readString
    let ifExists ← readFlag
    pure (.dropConstraint name ifExists)
  | tag => fail (.decode s!"unknown WAL mutation tag {tag}")

def readEvent : Reader MutationEvent := do
  let tag ← readU8
  readEventBody zones tag

/-- Refuse bytes left over after the last event. -/
def trailing (left : ℕ) : WalError :=
  .decode s!"trailing bytes in WAL mutation payload: {left}"

/-- What follows the magic of a payload. -/
def stripMagic (bytes : Bytes) : Except WalError Bytes :=
  if PAYLOAD_MAGIC.isPrefixOf bytes then .ok (bytes.drop PAYLOAD_MAGIC.length)
  else .error (.decode "WAL mutation payload has bad magic")

def decodeEvent (bytes : Bytes) : Except WalError MutationEvent := do
  let payload ← stripMagic bytes
  readAll trailing (readEvent zones) payload

def decodeEvents (bytes : Bytes) : Except WalError (List MutationEvent) := do
  let payload ← stripMagic bytes
  readAll trailing
    (do
      let len ← readCount errors "WAL event"
      readTimes (readEvent zones) len) payload

/-! ### Checking -/

def checkStr : Reader Unit := do
  let _ ← readString
  pure ()

def checkStringVec : Reader Unit := do
  let len ← readCount errors "string"
  checkTimes checkStr len

/-- One level of `checkValue`; see `readValueAt`. -/
def checkValueAt (enter : Option (Reader Unit)) : Reader Unit := do
  let tag ← readU8
  match tag with
  | 5 =>
    match enter with
    | none => fail (.decode nestingMessage)
    | some checkValue => do
      let len ← readCount errors "property list value"
      checkTimes checkValue len
  | 6 =>
    match enter with
    | none => fail (.decode nestingMessage)
    | some checkValue => do
      let len ← readCount errors "property map entry"
      checkTimes (do checkStr; checkValue) len
  | 4 => checkStr
  -- eight four-byte fields are skipped at once
  | 10 => skip errors 32
  | 16 => do
    skip errors 32
    let _ ← readZone zones
    pure ()
  | tag => do
    let _ ← readScalar zones tag
    pure ()

def checkValueWithin : ℕ → Reader Unit
  | 0 => checkValueAt zones none
  | levels + 1 => checkValueAt zones (some (checkValueWithin levels))

def checkValue : Reader Unit := checkValueWithin zones MAX_VALUE_DEPTH

def checkProperties : Reader Unit := do
  let len ← readCount errors "property"
  checkTimes (do checkStr; checkValue zones) len

/-- Schema events and unknown tags are read; the others are only walked. -/
def checkEvent : Reader Unit := do
  let tag ← readU8
  match tag with
  | 1 => do
    let _ ← readU64
    checkStringVec
    checkProperties zones
  | 2 => do
    skip errors 24
    checkStr
    checkProperties zones
  | 3 | 7 => do
    let _ ← readU64
    checkStr
    checkValue zones
  | 4 | 5 | 6 | 8 => do
    let _ ← readU64
    checkStr
  | 9 | 10 | 11 => do
    let _ ← readU64
    pure ()
  | 12 => pure ()
  | tag => do
    let _ ← readEventBody zones tag
    pure ()

/-- Check that a payload decodes; returns the number of its events. -/
def validateEvents (bytes : Bytes) : Except WalError ℕ := do
  let payload ← stripMagic bytes
  readAll trailing
    (do
      let len ← readCount errors "WAL event"
      checkTimes (checkEvent zones) len
      pure len) payload

end Zones

end WalCodec

end LoraDb
