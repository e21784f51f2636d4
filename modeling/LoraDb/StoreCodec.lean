import LoraDb.ByteCodec
import LoraDb.Mutation

/-!
# The Store Codec for Schema Requests

The byte shape of `IndexRequest` and `ConstraintRequest`, which the log stores inside its
schema events. The writers append to a buffer and the readers walk a cursor, one function
for each function of the source.

Option values nest lists and maps at most `MAX_VALUE_NESTING` deep. The writer counts the
containers around a value upwards; the reader counts the levels it may still open
downwards, which is the same limit and gives the recursion its measure. A property-type
term has no such limit: its reader's measure is the number of unread bytes, since every
level takes two of them (`readPropertyTypeTermWithin_reads`).

## Main results

* `decodeIndexRequest_encode`: an encoded index request decodes to itself.
* `decodeConstraintRequest_encode`: so does a constraint request whose backing is `hash`
  only where a backing index exists (`ConstraintRequest.backed`).
* `decodeConstraintRequest_backed`: every decoded constraint request is of that kind.
-/

open List (append_nil length_append)
open ByteCodec

namespace LoraDb.StoreCodec

/-- Deepest nesting of lists and maps a value may have. -/
def MAX_VALUE_NESTING : ℕ := 128

inductive StoreCodecError where
  | encode (message : String)
  | decode (message : String)

/-- The text an error is reported with. -/
def StoreCodecError.display : StoreCodecError → String
  | .encode message => s!"store value encode failed: {message}"
  | .decode message => s!"store value decode failed: {message}"

/-- The errors of the store codec's primitives. -/
def errors : WireErrors StoreCodecError where
  lenTooBig := .encode "length does not fit in u64"
  offsetOverflow := .decode "offset overflow"
  truncated := .decode "truncated input"
  invalidUtf8 := .decode "invalid UTF-8 string"
  tooMany label len := .decode s!"{label} count {len} exceeds remaining input"

/-- The text both halves refuse deeper nesting with. -/
def nestingMessage : String :=
  s!"value nests lists and maps more than {MAX_VALUE_NESTING} deep"

abbrev Writer := Except StoreCodecError Bytes
abbrev Reader := ByteReader StoreCodecError

/-! ### Tags -/

def indexKindTag : StoredIndexKind → UInt8
  | .range => 1
  | .text => 2
  | .point => 3
  | .lookup => 4
  | .vector => 5
  | .fulltext => 6

def indexKindOfTag : UInt8 → Option StoredIndexKind
  | 1 => some .range
  | 2 => some .text
  | 3 => some .point
  | 4 => some .lookup
  | 5 => some .vector
  | 6 => some .fulltext
  | _ => none

def indexEntityTag : StoredIndexEntity → UInt8
  | .node => 1
  | .relationship => 2

def indexEntityOfTag : UInt8 → Option StoredIndexEntity
  | 1 => some .node
  | 2 => some .relationship
  | _ => none

def scalarTag : StoredScalarType → UInt8
  | .boolean => 1
  | .string => 2
  | .integer => 3
  | .float => 4
  | .date => 5
  | .localTime => 6
  | .zonedTime => 7
  | .localDateTime => 8
  | .zonedDateTime => 9
  | .duration => 10
  | .point => 11
  | .map => 12
  | .any => 13

def scalarOfTag : UInt8 → Option StoredScalarType
  | 1 => some .boolean
  | 2 => some .string
  | 3 => some .integer
  | 4 => some .float
  | 5 => some .date
  | 6 => some .localTime
  | 7 => some .zonedTime
  | 8 => some .localDateTime
  | 9 => some .zonedDateTime
  | 10 => some .duration
  | 11 => some .point
  | 12 => some .map
  | 13 => some .any
  | _ => none

def vectorCoordTag : StoredVectorCoordType → UInt8
  | .int8 => 1
  | .int16 => 2
  | .int32 => 3
  | .int64 => 4
  | .float32 => 5
  | .float64 => 6

def vectorCoordOfTag : UInt8 → Option StoredVectorCoordType
  | 1 => some .int8
  | 2 => some .int16
  | 3 => some .int32
  | 4 => some .int64
  | 5 => some .float32
  | 6 => some .float64
  | _ => none

/-- Set on a uniqueness or key tag for a hash-backed constraint. -/
def CONSTRAINT_BACKING_HASH : UInt8 := 0x80

/-! ### Writers -/

def writeString (s : String) : Writer := writeText errors s

def writeStringVec (values : List String) : Writer :=
  writeAll [writeCount errors values.length, writeEach writeString values]

def writeOptionalString : Option String → Writer
  | some value => writeAll [writeByte 1, writeString value]
  | none => writeByte 0

def writeBool (b : Bool) : Writer := writeByte (if b then 1 else 0)

mutual

/-- `depth` counts the lists and maps around the value. -/
def writeConfigValue (depth : ℕ) : IndexConfigValue → Writer
  | .number value => writeAll [writeByte 1, writeNat 8 value.bits.toNat]
  | .integer value => writeAll [writeByte 2, writeNat 8 value.toUInt64.toNat]
  | .string value => writeAll [writeByte 3, writeString value]
  | .bool value => writeAll [writeByte 4, writeBool value]
  | .list values =>
    if MAX_VALUE_NESTING ≤ depth then .error (.encode nestingMessage)
    else writeAll [writeByte 5, writeCount errors values.length,
      writeConfigValues (depth + 1) values]
  | .map entries =>
    if MAX_VALUE_NESTING ≤ depth then .error (.encode nestingMessage)
    else writeAll [writeByte 6, writeCount errors entries.length,
      writeConfigEntries (depth + 1) entries]
  | .null => writeByte 7
termination_by structural v => v

def writeConfigValues (depth : ℕ) : List IndexConfigValue → Writer
  | [] => .ok []
  | v :: vs => writeAll [writeConfigValue depth v, writeConfigValues depth vs]
termination_by structural vs => vs

def writeConfigEntries (depth : ℕ) : List (String × IndexConfigValue) → Writer
  | [] => .ok []
  | (key, v) :: es =>
    writeAll [writeAll [writeString key, writeConfigValue depth v], writeConfigEntries depth es]
termination_by structural es => es

end

def writeConfigMap (options : IndexOptions) : Writer :=
  writeAll [writeCount errors options.entries.length, writeConfigEntries 0 options.entries]

def writeIndexRequest (request : IndexRequest) : Writer :=
  writeAll [writeOptionalString request.explicitName, writeByte (indexKindTag request.kind),
    writeByte (indexEntityTag request.entity),
    writeOptionalString request.label,
    writeStringVec request.additionalLabels,
    writeStringVec request.properties,
    writeConfigMap request.options]

def writePropertyTypeTerm : StoredPropertyTypeTerm → Writer
  | .scalar type => writeAll [writeByte 1, writeByte (scalarTag type)]
  | .list inner notNull =>
    writeAll [writeByte 2, writeBool notNull, writePropertyTypeTerm inner]
  | .vector coord dimension =>
    writeAll [writeByte 3, writeByte (vectorCoordTag coord), writeNat 4 dimension.toNat]

def writePropertyType (type : StoredPropertyType) : Writer :=
  writeAll [writeCount errors type.alternatives.length,
    writeEach writePropertyTypeTerm type.alternatives]

/-- The backing is kept in the tag of a uniqueness or key constraint. The other kinds have
no bit for it. -/
def writeConstraintKind (kind : StoredConstraintKind) (backing : ConstraintBacking) : Writer :=
  let hash := match backing with
    | .range => 0
    | .hash => CONSTRAINT_BACKING_HASH
  match kind with
  | .unique => writeByte (1 ||| hash)
  | .existence => writeByte 2
  | .nodeKey => writeByte (3 ||| hash)
  | .relationshipKey => writeByte (4 ||| hash)
  | .propertyType type => writeAll [writeByte 5, writePropertyType type]

def writeConstraintRequest (request : ConstraintRequest) : Writer :=
  writeAll [writeString request.name, writeConstraintKind request.kind request.backing,
    writeByte (indexEntityTag request.entity),
    writeString request.label,
    writeStringVec request.properties]

def encodeIndexRequest (request : IndexRequest) : Writer := writeIndexRequest request

def encodeConstraintRequest (request : ConstraintRequest) : Writer :=
  writeConstraintRequest request

/-! ### Readers -/

def readString : Reader String := readText errors

def readStringVec : Reader (List String) := do
  let len ← readCount errors "string"
  readTimes readString len

def readOptionalString : Reader (Option String) := do
  let tag ← readByte errors
  match tag with
  | 0 => pure none
  | 1 => some <$> readString
  | tag => fail (.decode s!"invalid optional string tag {tag}")

def readIndexKind : Reader StoredIndexKind :=
  readTagged errors indexKindOfTag fun tag => .decode s!"invalid index kind tag {tag}"

def readIndexEntity : Reader StoredIndexEntity :=
  readTagged errors indexEntityOfTag fun tag => .decode s!"invalid index entity tag {tag}"

def readScalarType : Reader StoredScalarType :=
  readTagged errors scalarOfTag fun tag => .decode s!"invalid scalar type tag {tag}"

def readVectorCoordType : Reader StoredVectorCoordType :=
  readTagged errors vectorCoordOfTag fun tag =>
    .decode s!"invalid vector coord type tag {tag}"

/-- One entry of a map: its key, then its value. -/
def readEntry {α : Type} (readValue : Reader α) : Reader (String × α) := do
  let key ← readString
  let value ← readValue
  pure (key, value)

/-- One level of `readConfigValue`. `enter` reads the values inside a list or map; it is
`none` when no further one may be opened. -/
def readConfigValueAt (enter : Option (Reader IndexConfigValue)) : Reader IndexConfigValue := do
  let tag ← readByte errors
  match tag with
  | 1 => (fun n => .number ⟨UInt64.ofNat n⟩) <$> readNat errors 8
  | 2 => (fun n => .integer (UInt64.ofNat n).toInt64) <$> readNat errors 8
  | 3 => .string <$> readString
  | 4 => (fun b => .bool (b != 0)) <$> readByte errors
  | 5 =>
    match enter with
    | none => fail (.decode nestingMessage)
    | some readValue => do
      let len ← readCount errors "index config list value"
      let values ← readTimes readValue len
      pure (.list values)
  | 6 =>
    match enter with
    | none => fail (.decode nestingMessage)
    | some readValue => do
      let len ← readCount errors "index config map entry"
      let entries ← readTimes (readEntry readValue) len
      pure (.map (SortedMap.putAll [] entries))
  | 7 => pure .null
  | tag => fail (.decode s!"invalid index config value tag {tag}")

/-- `levels` is how many lists and maps may still be opened. -/
def readConfigValue : ℕ → Reader IndexConfigValue
  | 0 => readConfigValueAt none
  | levels + 1 => readConfigValueAt (some (readConfigValue levels))

def readConfigMap : Reader IndexOptions := do
  let len ← readCount errors "index config map entry"
  let entries ← readTimes (readEntry (readConfigValue MAX_VALUE_NESTING)) len
  pure (IndexOptions.ofEntries entries)

def readIndexRequest : Reader IndexRequest := do
  let explicitName ← readOptionalString
  let kind ← readIndexKind
  let entity ← readIndexEntity
  let label ← readOptionalString
  let additionalLabels ← readStringVec
  let properties ← readStringVec
  let options ← readConfigMap
  pure { explicitName, kind, entity, label, additionalLabels, properties, options }

/-- The recursion of `readPropertyTypeTerm`, at most `levels` deep. -/
def readPropertyTypeTermWithin : ℕ → Reader StoredPropertyTypeTerm
  | 0 => fail errors.truncated
  | levels + 1 => do
    let tag ← readByte errors
    match tag with
    | 1 => .scalar <$> readScalarType
    | 2 => do
      let notNull ← readByte errors
      let inner ← readPropertyTypeTermWithin levels
      pure (.list inner (notNull != 0))
    | 3 => do
      let coord ← readVectorCoordType
      let dimension ← readNat errors 4
      pure (.vector coord (UInt32.ofNat dimension))
    | tag => fail (.decode s!"invalid property-type term tag {tag}")

/-- A term never has more levels than there are unread bytes, since each level takes
two. -/
def readPropertyTypeTerm : Reader StoredPropertyTypeTerm := do
  let left ← remaining
  readPropertyTypeTermWithin (left + 1)

def readPropertyType : Reader StoredPropertyType := do
  let len ← readCount errors "property type alternative"
  let alternatives ← readTimes readPropertyTypeTerm len
  pure { alternatives }

def readConstraintKind : Reader (StoredConstraintKind × ConstraintBacking) := do
  let tag ← readByte errors
  let low := tag &&& ~~~CONSTRAINT_BACKING_HASH
  let backing : ConstraintBacking :=
    if tag &&& CONSTRAINT_BACKING_HASH ≠ 0 ∧ (low = 1 ∨ low = 3 ∨ low = 4) then .hash
    else .range
  let tag := match backing with
    | .hash => low
    | .range => tag
  match tag with
  | 1 => pure (.unique, backing)
  | 2 => pure (.existence, backing)
  | 3 => pure (.nodeKey, backing)
  | 4 => pure (.relationshipKey, backing)
  | 5 => (fun type => (.propertyType type, backing)) <$> readPropertyType
  | tag => fail (.decode s!"invalid constraint kind tag {tag}")

def readConstraintRequest : Reader ConstraintRequest := do
  let name ← readString
  let (kind, backing) ← readConstraintKind
  let entity ← readIndexEntity
  let label ← readString
  let properties ← readStringVec
  pure { name, kind, entity, label, properties, backing }

/-- Refuse bytes left over after the request. -/
def trailing (left : ℕ) : StoreCodecError := .decode s!"trailing bytes: {left}"

def decodeIndexRequest (bytes : Bytes) : Except StoreCodecError IndexRequest :=
  readAll trailing readIndexRequest bytes

def decodeConstraintRequest (bytes : Bytes) : Except StoreCodecError ConstraintRequest :=
  readAll trailing readConstraintRequest bytes

/-! ### Round trips of the parts -/

variable {bs : Bytes}

theorem readString_reads {s : String} (h : writeString s = .ok bs) : Reads readString bs s :=
  Reads.of_writeText h

theorem writeString_length {s : String} (h : writeString s = .ok bs) : 8 ≤ bs.length := by
  obtain ⟨-, rfl⟩ := writeText_eq_ok.mp h
  simp

theorem readStringVec_reads {values : List String}
    (h : writeStringVec values = .ok bs) : Reads readStringVec bs values := by
  have hreads :
      Reads (readCount errors "string" >>= fun len => readTimes readString len >>= pure) bs
        values :=
    Reads.collection (fun _ _ _ => readString_reads)
      (fun _ _ _ hw => le_trans (by decide) (writeString_length hw)) (Reads.pure _) h
  simpa only [readStringVec, bind_pure] using hreads

theorem readOptionalString_reads {value : Option String}
    (h : writeOptionalString value = .ok bs) : Reads readOptionalString bs value := by
  cases value with
  | none =>
    obtain rfl := writeByte_eq_ok.mp h
    exact (Reads.byte errors 0).bind_last (Reads.pure none)
  | some value =>
    simp only [writeOptionalString, writeAll_cons, writeAll_nil, writeByte_eq_ok] at h
    obtain ⟨_, rfl, _, ⟨w, hw, _, rfl, rfl⟩, rfl⟩ := h
    rw [append_nil]
    exact (Reads.byte errors 1).bind ((readString_reads hw).map some)

theorem writeBool_eq_ok {b : Bool} (h : writeBool b = .ok bs) : bs = [if b then 1 else 0] :=
  writeByte_eq_ok.mp h

/-- A flag byte is read back as nonzero or not. -/
theorem flag_ne_zero (b : Bool) : ((if b then 1 else 0 : UInt8) != 0) = b := by
  cases b <;> rfl

theorem indexKindOfTag_tag (kind : StoredIndexKind) :
    indexKindOfTag (indexKindTag kind) = some kind := by
  cases kind <;> rfl

theorem indexEntityOfTag_tag (entity : StoredIndexEntity) :
    indexEntityOfTag (indexEntityTag entity) = some entity := by
  cases entity <;> rfl

theorem scalarOfTag_tag (type : StoredScalarType) : scalarOfTag (scalarTag type) = some type := by
  cases type <;> rfl

theorem vectorCoordOfTag_tag (coord : StoredVectorCoordType) :
    vectorCoordOfTag (vectorCoordTag coord) = some coord := by
  cases coord <;> rfl

/-! ### Option values -/

/-- The writer of a map entry. -/
def writeEntry {α : Type} (writeValue : α → Writer) (entry : String × α) : Writer :=
  writeAll [writeString entry.1, writeValue entry.2]

theorem writeConfigValues_eq (depth : ℕ) (values : List IndexConfigValue) :
    writeConfigValues depth values = writeEach (writeConfigValue depth) values := by
  induction values with
  | nil => rfl
  | cons v vs ih => rw [writeConfigValues, ih, writeEach_cons]

theorem writeConfigEntries_eq (depth : ℕ) (entries : List (String × IndexConfigValue)) :
    writeConfigEntries depth entries = writeEach (writeEntry (writeConfigValue depth)) entries := by
  induction entries with
  | nil => rfl
  | cons e es ih =>
    rw [writeConfigEntries, ih, writeEach_cons]
    rfl

theorem readEntry_reads {α : Type} {writeValue : α → Writer} {readValue : Reader α}
    {entry : String × α} (h : writeEntry writeValue entry = .ok bs)
    (hvalue : ∀ w, writeValue entry.2 = .ok w → Reads readValue w entry.2) :
    Reads (readEntry readValue) bs entry := by
  simp only [writeEntry, writeAll_cons, writeAll_nil] at h
  obtain ⟨key, hkey, _, ⟨value, hw, _, rfl, rfl⟩, rfl⟩ := h
  rw [append_nil]
  exact (readString_reads hkey).bind ((hvalue value hw).bind_last (Reads.pure entry))

theorem writeEntry_length {α : Type} {writeValue : α → Writer} {entry : String × α}
    (h : writeEntry writeValue entry = .ok bs) : 1 ≤ bs.length := by
  simp only [writeEntry, writeAll_cons] at h
  obtain ⟨key, hkey, _, -, rfl⟩ := h
  have := writeString_length hkey
  simp only [length_append]
  omega

/-- Every option value takes at least its tag. -/
theorem writeConfigValue_length {depth : ℕ} {v : IndexConfigValue}
    (h : writeConfigValue depth v = .ok bs) : 1 ≤ bs.length := by
  cases v with
  | null =>
    obtain rfl := writeByte_eq_ok.mp h
    simp
  | list values | map entries =>
    simp only [writeConfigValue] at h
    split at h
    · cases h
    · simp only [writeAll_cons, writeByte_eq_ok] at h
      obtain ⟨_, rfl, _, -, rfl⟩ := h
      simp
  | number value | integer value | string value | bool value =>
    simp only [writeConfigValue, writeAll_cons, writeByte_eq_ok] at h
    obtain ⟨_, rfl, _, -, rfl⟩ := h
    simp

/-- At every level, the reader is one level around some inner reader, or none. -/
theorem readConfigValue_eq (levels : ℕ) : readConfigValue levels = readConfigValueAt
      (match levels with
        | 0 => none
        | levels + 1 => some (readConfigValue levels)) := by
  cases levels <;> rfl

/-- An option value written `depth` containers deep is read back with the levels left
at that depth. -/
theorem readConfigValue_reads {v : IndexConfigValue} {depth : ℕ}
    (hkeyed : v.keyed = true) (h : writeConfigValue depth v = .ok bs) :
    Reads (readConfigValue (MAX_VALUE_NESTING - depth)) bs v := by
  induction v generalizing depth bs with
  | list values ih =>
    simp only [writeConfigValue] at h
    split at h
    · cases h
    next hdepth =>
      have hlevels : MAX_VALUE_NESTING - depth = MAX_VALUE_NESTING - (depth + 1) + 1 := by omega
      rw [writeConfigValues_eq, writeAll_cons] at h
      obtain ⟨_, htag, bs, h, rfl⟩ := h
      obtain rfl := writeByte_eq_ok.mp htag
      rw [hlevels, readConfigValue, readConfigValueAt]
      refine (Reads.byte errors 5).bind ?_
      refine Reads.collection (k := fun values => pure (IndexConfigValue.list values)) ?_ ?_
        (Reads.pure _) h
      · exact fun v hv _ => ih v hv (IndexConfigValue.keyedList_iff.mp hkeyed v hv)
      · exact fun _ _ _ => writeConfigValue_length
  | map entries ih =>
    simp only [IndexConfigValue.keyed, Bool.and_eq_true, decide_eq_true_eq] at hkeyed
    obtain ⟨hsorted, hkeyed⟩ := hkeyed
    simp only [writeConfigValue] at h
    split at h
    · cases h
    next hdepth =>
      have hlevels : MAX_VALUE_NESTING - depth = MAX_VALUE_NESTING - (depth + 1) + 1 := by omega
      rw [writeConfigEntries_eq, writeAll_cons] at h
      obtain ⟨_, htag, bs, h, rfl⟩ := h
      obtain rfl := writeByte_eq_ok.mp htag
      rw [hlevels, readConfigValue, readConfigValueAt]
      refine (Reads.byte errors 6).bind ?_
      refine Reads.collection
        (k := fun entries => pure (IndexConfigValue.map (SortedMap.putAll [] entries)))
        ?_ ?_ ?_ h
      · exact fun e he w hw => readEntry_reads hw fun w' =>
          ih e he (IndexConfigValue.keyedEntries_iff.mp hkeyed e he)
      · exact fun _ _ _ => writeEntry_length
      · rw [hsorted.putAll_nil]
        exact Reads.pure _
  | number value =>
    simp only [writeConfigValue, writeAll_cons, writeAll_nil, writeByte_eq_ok, writeNat_eq_ok] at h
    obtain ⟨_, rfl, _, ⟨_, rfl, _, rfl, rfl⟩, rfl⟩ := h
    rw [append_nil, readConfigValue_eq]
    have hread := (Reads.nat errors (k := 8) value.bits.toNat_lt).map
      fun n => IndexConfigValue.number ⟨UInt64.ofNat n⟩
    rw [UInt64.ofNat_toNat] at hread
    exact (Reads.byte errors 1).bind hread
  | integer value =>
    simp only [writeConfigValue, writeAll_cons, writeAll_nil, writeByte_eq_ok, writeNat_eq_ok] at h
    obtain ⟨_, rfl, _, ⟨_, rfl, _, rfl, rfl⟩, rfl⟩ := h
    rw [append_nil, readConfigValue_eq]
    have hread := (Reads.nat errors (k := 8) value.toUInt64.toNat_lt).map
      fun n => IndexConfigValue.integer (UInt64.ofNat n).toInt64
    rw [UInt64.ofNat_toNat] at hread
    exact (Reads.byte errors 2).bind hread
  | string value =>
    simp only [writeConfigValue, writeAll_cons, writeAll_nil, writeByte_eq_ok] at h
    obtain ⟨_, rfl, _, ⟨_, hw, _, rfl, rfl⟩, rfl⟩ := h
    rw [append_nil, readConfigValue_eq]
    exact (Reads.byte errors 3).bind ((readString_reads hw).map _)
  | bool value =>
    simp only [writeConfigValue, writeAll_cons, writeAll_nil, writeByte_eq_ok] at h
    obtain ⟨_, rfl, _, ⟨_, hw, _, rfl, rfl⟩, rfl⟩ := h
    obtain rfl := writeBool_eq_ok hw
    rw [append_nil, readConfigValue_eq]
    have hread := (Reads.byte errors (if value then 1 else 0)).map
      fun b => IndexConfigValue.bool (b != 0)
    rw [flag_ne_zero] at hread
    exact (Reads.byte errors 4).bind hread
  | null =>
    obtain rfl := writeByte_eq_ok.mp h
    rw [readConfigValue_eq]
    exact (Reads.byte errors 7).bind_last (Reads.pure _)

theorem readConfigMap_reads {options : IndexOptions}
    (hkeyed : ∀ e ∈ options.entries, e.2.keyed = true)
    (h : writeConfigMap options = .ok bs) : Reads readConfigMap bs options := by
  rw [writeConfigMap, writeConfigEntries_eq] at h
  have hlast : Reads (pure (IndexOptions.ofEntries options.entries) : Reader IndexOptions) []
      options := by
    rw [options.ofEntries_entries]
    exact Reads.pure options
  refine Reads.collection (k := fun entries => pure (IndexOptions.ofEntries entries)) ?_ ?_
    hlast h
  · exact fun e he w hw => readEntry_reads hw fun w' => readConfigValue_reads (hkeyed e he)
  · exact fun _ _ _ => writeEntry_length

/-! ### Whole requests -/

theorem readIndexRequest_reads {request : IndexRequest}
    (hkeyed : ∀ e ∈ request.options.entries, e.2.keyed = true)
    (h : writeIndexRequest request = .ok bs) : Reads readIndexRequest bs request := by
  simp only [writeIndexRequest, writeAll_cons, writeAll_nil, writeByte_eq_ok] at h
  obtain ⟨_, hname, _, ⟨_, rfl, _, ⟨_, rfl, _, ⟨_, hlabel, _, ⟨_, hmore, _, ⟨_, hprops, _,
    ⟨_, hoptions, _, rfl, rfl⟩, rfl⟩, rfl⟩, rfl⟩, rfl⟩, rfl⟩, rfl⟩ := h
  rw [append_nil]
  refine (readOptionalString_reads hname).bind ?_
  refine (Reads.tagged errors (indexKindOfTag_tag request.kind)).bind ?_
  refine (Reads.tagged errors (indexEntityOfTag_tag request.entity)).bind ?_
  refine (readOptionalString_reads hlabel).bind ?_
  refine (readStringVec_reads hmore).bind ?_
  refine (readStringVec_reads hprops).bind ?_
  exact (readConfigMap_reads hkeyed hoptions).bind_last (Reads.pure request)

variable {term : StoredPropertyTypeTerm}

/-- Every level of a term takes two bytes, so the unread bytes bound its depth. -/
theorem readPropertyTypeTermWithin_reads {levels : ℕ}
    (hlevels : bs.length < levels) (h : writePropertyTypeTerm term = .ok bs) :
    Reads (readPropertyTypeTermWithin levels) bs term := by
  induction term generalizing levels bs with
  | scalar type =>
    obtain ⟨levels, rfl⟩ := Nat.exists_eq_add_one_of_ne_zero (Nat.ne_zero_of_lt hlevels)
    simp only [writePropertyTypeTerm, writeAll_cons, writeAll_nil, writeByte_eq_ok] at h
    obtain ⟨_, rfl, _, ⟨_, rfl, _, rfl, rfl⟩, rfl⟩ := h
    rw [append_nil]
    exact (Reads.byte errors 1).bind
      ((Reads.tagged errors (scalarOfTag_tag type)).map _)
  | list inner notNull ih =>
    obtain ⟨levels, rfl⟩ := Nat.exists_eq_add_one_of_ne_zero (Nat.ne_zero_of_lt hlevels)
    simp only [writePropertyTypeTerm, writeAll_cons, writeAll_nil, writeByte_eq_ok] at h
    obtain ⟨_, rfl, _, ⟨_, hflag, _, ⟨body, hinner, _, rfl, rfl⟩, rfl⟩, rfl⟩ := h
    obtain rfl := writeBool_eq_ok hflag
    rw [append_nil] at hlevels ⊢
    have hrest : Reads (readPropertyTypeTermWithin levels) body inner := by
      refine ih ?_ hinner
      simp only [length_append, List.length_cons, List.length_nil] at hlevels
      omega
    refine (Reads.byte errors 2).bind ((Reads.byte errors _).bind ?_)
    rw [flag_ne_zero]
    exact hrest.bind_last (Reads.pure _)
  | vector coord dimension =>
    obtain ⟨levels, rfl⟩ := Nat.exists_eq_add_one_of_ne_zero (Nat.ne_zero_of_lt hlevels)
    simp only [writePropertyTypeTerm, writeAll_cons, writeAll_nil, writeByte_eq_ok,
      writeNat_eq_ok] at h
    obtain ⟨_, rfl, _, ⟨_, rfl, _, ⟨_, rfl, _, rfl, rfl⟩, rfl⟩, rfl⟩ := h
    rw [append_nil]
    refine (Reads.byte errors 3).bind ?_
    refine (Reads.tagged errors (vectorCoordOfTag_tag coord)).bind ?_
    refine (Reads.nat errors (k := 4) dimension.toNat_lt).bind_last ?_
    rw [UInt32.ofNat_toNat]
    exact Reads.pure _

theorem readPropertyTypeTerm_reads
    (h : writePropertyTypeTerm term = .ok bs) : Reads readPropertyTypeTerm bs term := by
  intro c rest hlt
  refine bind_run_eq_ok.mpr ⟨_, _, rfl, ?_⟩
  have hlevels : bs.length < (bs ++ rest).length + 1 := by
    rw [length_append]
    omega
  exact readPropertyTypeTermWithin_reads hlevels h c rest hlt

theorem writePropertyTypeTerm_length (h : writePropertyTypeTerm term = .ok bs) : 1 ≤ bs.length := by
  cases term with
  | scalar type | list inner notNull | vector coord dimension =>
    simp only [writePropertyTypeTerm, writeAll_cons, writeByte_eq_ok] at h
    obtain ⟨_, rfl, _, -, rfl⟩ := h
    simp

theorem readPropertyType_reads {type : StoredPropertyType}
    (h : writePropertyType type = .ok bs) : Reads readPropertyType bs type :=
  Reads.collection (k := fun alternatives => pure (StoredPropertyType.mk alternatives))
    (fun _ _ _ => readPropertyTypeTerm_reads) (fun _ _ _ => writePropertyTypeTerm_length)
    (Reads.pure type) h

theorem readConstraintKind_reads {kind : StoredConstraintKind} {backing : ConstraintBacking}
    (hbacked : backing = .range ∨ kind.requiresBackingIndex = true)
    (h : writeConstraintKind kind backing = .ok bs) :
    Reads readConstraintKind bs (kind, backing) := by
  cases kind with
  | unique | nodeKey | relationshipKey =>
    cases backing with
    | range | hash =>
      obtain rfl := writeByte_eq_ok.mp h
      exact (Reads.byte errors _).bind_last (Reads.pure _)
  | existence =>
    obtain rfl : backing = .range := by
      simpa [StoredConstraintKind.requiresBackingIndex] using hbacked
    obtain rfl := writeByte_eq_ok.mp h
    exact (Reads.byte errors 2).bind_last (Reads.pure _)
  | propertyType type =>
    obtain rfl : backing = .range := by
      simpa [StoredConstraintKind.requiresBackingIndex] using hbacked
    simp only [writeConstraintKind, writeAll_cons, writeAll_nil, writeByte_eq_ok] at h
    obtain ⟨_, rfl, _, ⟨_, htype, _, rfl, rfl⟩, rfl⟩ := h
    rw [append_nil]
    exact (Reads.byte errors 5).bind ((readPropertyType_reads htype).map _)

variable {request : ConstraintRequest}

theorem readConstraintRequest_reads
    (hbacked : request.backed = true) (h : writeConstraintRequest request = .ok bs) :
    Reads readConstraintRequest bs request := by
  simp only [ConstraintRequest.backed, Bool.or_eq_true, decide_eq_true_eq] at hbacked
  simp only [writeConstraintRequest, writeAll_cons, writeAll_nil, writeByte_eq_ok] at h
  obtain ⟨_, hname, _, ⟨_, hkind, _, ⟨_, rfl, _, ⟨_, hlabel, _, ⟨_, hprops, _, rfl, rfl⟩,
    rfl⟩, rfl⟩, rfl⟩, rfl⟩ := h
  rw [append_nil]
  refine (readString_reads hname).bind ?_
  refine (readConstraintKind_reads hbacked hkind).bind ?_
  refine (Reads.tagged errors (indexEntityOfTag_tag request.entity)).bind ?_
  refine (readString_reads hlabel).bind ?_
  exact (readStringVec_reads hprops).bind_last (Reads.pure request)

/-- An encoded index request decodes to itself. -/
theorem decodeIndexRequest_encode {request : IndexRequest}
    (hkeyed : ∀ e ∈ request.options.entries, e.2.keyed = true)
    (h : encodeIndexRequest request = .ok bs) (hlt : bs.length < sizeLimit) :
    decodeIndexRequest bs = .ok request :=
  (readIndexRequest_reads hkeyed h).readAll hlt trailing

/-- An encoded constraint request decodes to itself, if a `hash` backing has an index to
back. -/
theorem decodeConstraintRequest_encode
    (hbacked : request.backed = true) (h : encodeConstraintRequest request = .ok bs)
    (hlt : bs.length < sizeLimit) : decodeConstraintRequest bs = .ok request :=
  (readConstraintRequest_reads hbacked h).readAll hlt trailing

/-! ### What a decoded constraint request can be -/

theorem readConstraintKind_backed : Yields readConstraintKind
      fun out => out.2 = .range ∨ out.1.requiresBackingIndex = true := by
  refine Yields.after fun tag => ?_
  dsimp only
  split_ifs with hhash
  · -- the tag without the hash bit is one of the three that own an index
    obtain ⟨-, hlow | hlow | hlow⟩ := hhash
    · rw [hlow]
      exact Yields.pure (Or.inr rfl)
    · rw [hlow]
      exact Yields.pure (Or.inr rfl)
    · rw [hlow]
      exact Yields.pure (Or.inr rfl)
  · split
    · exact Yields.pure (Or.inl rfl)
    · exact Yields.pure (Or.inl rfl)
    · exact Yields.pure (Or.inl rfl)
    · exact Yields.pure (Or.inl rfl)
    · exact Yields.map fun type => Or.inl rfl
    · exact Yields.fail

/-- A decoded request asks for a hash backing only with an index to back. -/
theorem decodeConstraintRequest_backed
    (h : decodeConstraintRequest bs = .ok request) : request.backed = true := by
  have hyields : Yields readConstraintRequest fun request => request.backed = true := by
    refine Yields.after fun name => readConstraintKind_backed.bind fun out hout => ?_
    refine Yields.after fun entity => Yields.after fun label => Yields.after fun props => ?_
    exact Yields.pure (by simpa [ConstraintRequest.backed] using hout)
  exact hyields.readAll h

end LoraDb.StoreCodec
