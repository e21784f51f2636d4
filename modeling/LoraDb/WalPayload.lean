import LoraDb.ByteFrames
import LoraDb.WalCodecRoundTrip

/-!
# What the Payload Walks Refuse

Replay's first pass only walks a payload, the second pass decodes it. This module says
what both refuse, and that no loop of either runs without taking bytes.

The refused payloads are described by their framing alone. A `RawEvent` is an event as
bytes lay it out: the tags, lengths and counts are right, but a text is any byte string, a
value is nested to any depth, and a schema request is any block. From such events come the
payloads that go on after their last event, that are cut before its end (so that some length
or some field runs past the end), that nest too deep or that hold a text which is not UTF-8.

## Main results

* `readEvent_judges`: an event is accepted only whole, and only when every text in it is
  UTF-8 and no value is nested past `MAX_VALUE_DEPTH`.
* `validateEvents_refines_decodeEvents`: the two walks accept the same payloads and count
  the same events, both refuse every malformed payload, and each element of each of their
  loops takes a byte.
-/

open ByteCodec

namespace LoraDb

namespace WalCodec

variable {zones : ZoneDb}

/-! ### Every reader is steady -/

theorem readU64_steady : Steady 8 readU64 := Steady.nat errors 8

theorem readU32_steady : Steady 4 readU32 := (Steady.nat errors 4).map _

theorem readI32_steady : Steady 4 readI32 := (Steady.nat errors 4).map _

theorem readI64_steady : Steady 8 readI64 := (Steady.nat errors 8).map _

theorem readF64_steady : Steady 8 readF64 := (Steady.nat errors 8).map _

theorem readF32_steady : Steady 4 readF32 := (Steady.nat errors 4).map _

theorem readI16_steady : Steady 2 readI16 := (Steady.nat errors 2).map _

theorem readI8_steady : Steady 1 readI8 := (Steady.byte errors).map _

theorem readFlag_steady : Steady 1 readFlag := (Steady.byte errors).map _

theorem readString_steady : Steady 8 readString := Steady.text errors

theorem readStringVec_steady : Steady 8 readStringVec :=
  (Steady.count _ _).bind_last fun len => Steady.times (readString_steady.mono (by omega)) len

theorem readEntry_steady {m : ℕ} {readValue : Reader PropertyValue}
    (hread : Steady m readValue) : Steady (8 + m) (readEntry readValue) :=
  readString_steady.bind fun _ => hread.bind_last fun _ => Steady.pure _

theorem readCoordinates_steady {α : Type} {m : ℕ} {label : String} {read : Reader α}
    {build : List α → VectorValues} (hread : Steady m read) :
    Steady 8 (readCoordinates label read build) :=
  Steady.collection errors label (hread.mono (by omega)) build

theorem readVectorValues_steady (tag : UInt8) : Steady 8 (readVectorValues tag) := by
  unfold readVectorValues
  split
  · exact readCoordinates_steady readF64_steady
  · exact readCoordinates_steady readF32_steady
  · exact readCoordinates_steady readI64_steady
  · exact readCoordinates_steady readI32_steady
  · exact readCoordinates_steady readI16_steady
  · exact readCoordinates_steady readI8_steady
  · exact Steady.fail _ _

theorem finishVector_steady (dimension : ℕ) (values : VectorValues) :
    Steady 0 (finishVector dimension values) := by
  unfold finishVector
  split
  · exact Steady.fail _ _
  · exact Steady.pure _

theorem readVector_steady : Steady 0 readVector :=
  readU64_steady.next fun _ => (Steady.byte errors).next fun tag =>
  (readVectorValues_steady tag).next fun _ => finishVector_steady _ _

theorem readBinary_steady : Steady 8 readBinary :=
  Steady.collection errors _ ((Steady.block errors).mono (by omega)) _

theorem readZ_steady : Steady 1 readZ := by
  refine (Steady.byte errors).bind_last fun tag => ?_
  split
  · exact Steady.pure _
  · exact (readF64_steady.map _).mono (by omega)
  · exact Steady.fail _ _

theorem readZone_steady : Steady 8 (readZone zones) := by
  refine readString_steady.bind_last fun name => ?_
  split
  · exact Steady.pure _
  · exact Steady.fail _ _

theorem readDateTimeFields_steady : Steady 32 readDateTimeFields :=
  readI32_steady.bind (n := 28) fun _ => readU32_steady.bind (n := 24) fun _ =>
  readU32_steady.bind (n := 20) fun _ => readU32_steady.bind (n := 16) fun _ =>
  readU32_steady.bind (n := 12) fun _ => readU32_steady.bind (n := 8) fun _ =>
  readU32_steady.bind (n := 4) fun _ => readI32_steady.bind_last fun _ => Steady.pure _

theorem readScalar_steady (tag : UInt8) : Steady 0 (readScalar zones tag) := by
  unfold readScalar
  split
  · exact Steady.pure _
  · exact (readFlag_steady.map _).mono (by omega)
  · exact (readI64_steady.map _).mono (by omega)
  · exact (readF64_steady.map _).mono (by omega)
  · exact (readString_steady.map _).mono (by omega)
  · exact (readBinary_steady.map _).mono (by omega)
  · exact readI32_steady.next fun _ => readU32_steady.next fun _ => readU32_steady.next fun _ =>
      Steady.pure _
  · exact readU32_steady.next fun _ => readU32_steady.next fun _ => readU32_steady.next fun _ =>
      readU32_steady.next fun _ => readI32_steady.next fun _ => Steady.pure _
  · exact readU32_steady.next fun _ => readU32_steady.next fun _ => readU32_steady.next fun _ =>
      readU32_steady.next fun _ => Steady.pure _
  · exact (readDateTimeFields_steady.map _).mono (by omega)
  · exact readDateTimeFields_steady.next fun _ => readZone_steady.next fun _ => Steady.pure _
  · exact readI32_steady.next fun _ => readU32_steady.next fun _ => readU32_steady.next fun _ =>
      readU32_steady.next fun _ => readU32_steady.next fun _ => readU32_steady.next fun _ =>
      readU32_steady.next fun _ => Steady.pure _
  · exact readI64_steady.next fun _ => readI64_steady.next fun _ => readI64_steady.next fun _ =>
      readI64_steady.next fun _ => Steady.pure _
  · exact readF64_steady.next fun _ => readF64_steady.next fun _ => readZ_steady.next fun _ =>
      readU32_steady.next fun _ => Steady.pure _
  · exact readVector_steady.map _
  · exact Steady.fail _ _

theorem readValueAt_steady {enter : Option (Reader PropertyValue)}
    (henter : ∀ read ∈ enter, Steady 1 read) : Steady 1 (readValueAt zones enter) := by
  refine (Steady.byte errors).bind_last fun tag => ?_
  split
  · split
    · exact Steady.fail _ _
    · next read =>
        have hread : Steady 0 read := (henter read rfl).mono (by omega)
        exact (Steady.collection errors _ hread _).mono (Nat.zero_le _)
  · split
    · exact Steady.fail _ _
    · next read =>
        have hentry : Steady 0 (readEntry read) :=
          (readEntry_steady (henter read rfl)).mono (by omega)
        exact (Steady.collection errors _ hentry _).mono (Nat.zero_le _)
  · exact readScalar_steady _

theorem readValueWithin_steady (levels : ℕ) : Steady 1 (readValueWithin zones levels) := by
  induction levels with
  | zero => exact readValueAt_steady (by simp)
  | succ levels ih =>
    refine readValueAt_steady fun read hread => ?_
    obtain rfl := Option.some.inj hread
    exact ih

theorem readProperties_steady : Steady 8 (readProperties zones) :=
  Steady.collection errors _ ((readEntry_steady (readValueWithin_steady _)).mono (by omega)) _

theorem readRequest_steady {α : Type} (what : String)
    (decode : Bytes → Except StoreCodec.StoreCodecError α) :
    Steady 8 (readRequest what decode) := by
  refine (Steady.block errors).bind_last fun bytes => ?_
  split
  · exact Steady.pure _
  · exact Steady.fail _ _

theorem readEventBody_steady (tag : UInt8) : Steady 0 (readEventBody zones tag) := by
  have hvalue : Steady 1 (readValue zones) := readValueWithin_steady _
  unfold readEventBody
  split
  · exact readU64_steady.next fun _ => readStringVec_steady.next fun _ =>
      readProperties_steady.next fun _ => Steady.pure _
  · exact readU64_steady.next fun _ => readU64_steady.next fun _ => readU64_steady.next fun _ =>
      readString_steady.next fun _ => readProperties_steady.next fun _ => Steady.pure _
  · exact readU64_steady.next fun _ => readString_steady.next fun _ => hvalue.next fun _ =>
      Steady.pure _
  · exact readU64_steady.next fun _ => readString_steady.next fun _ => Steady.pure _
  · exact readU64_steady.next fun _ => readString_steady.next fun _ => Steady.pure _
  · exact readU64_steady.next fun _ => readString_steady.next fun _ => Steady.pure _
  · exact readU64_steady.next fun _ => readString_steady.next fun _ => hvalue.next fun _ =>
      Steady.pure _
  · exact readU64_steady.next fun _ => readString_steady.next fun _ => Steady.pure _
  · exact (readU64_steady.map _).mono (by omega)
  · exact (readU64_steady.map _).mono (by omega)
  · exact (readU64_steady.map _).mono (by omega)
  · exact Steady.pure _
  · exact (readRequest_steady _ _).next fun _ => readFlag_steady.next fun _ => Steady.pure _
  · exact readString_steady.next fun _ => readFlag_steady.next fun _ => Steady.pure _
  · exact (readRequest_steady _ _).next fun _ => readFlag_steady.next fun _ => Steady.pure _
  · exact readString_steady.next fun _ => readFlag_steady.next fun _ => Steady.pure _
  · exact Steady.fail _ _

theorem readEvent_steady : Steady 1 (readEvent zones) :=
  (Steady.byte errors).bind_last fun tag => readEventBody_steady tag

/-! ### Payloads as they are framed -/

/-- A length-prefixed field with these bytes, text or not. -/
def field (bytes : Bytes) : Bytes := leBytes 8 bytes.length ++ bytes

/-- A value as its bytes frame it. `plain` is every scalar without a text of its own: a tag
and a body. -/
inductive RawValue where
  | plain (tag : UInt8) (body : Bytes)
  | text (text : Bytes)
  | zoned (fields zone : Bytes)
  | list (values : List RawValue)
  | map (entries : List (Bytes × RawValue))

namespace RawValue

/-- The value of a map entry is smaller than the map. -/
theorem sizeOf_entry_lt {entries : List (Bytes × RawValue)} {entry : Bytes × RawValue}
    (h : entry ∈ entries) : sizeOf entry.2 < sizeOf (map entries) := by
  have hmem := List.sizeOf_lt_of_mem h
  obtain ⟨key, value⟩ := entry
  simp only [Prod.mk.sizeOf_spec, map.sizeOf_spec] at hmem ⊢
  omega

theorem sizeOf_element_lt {values : List RawValue} {value : RawValue} (h : value ∈ values) :
    sizeOf value < sizeOf (list values) := by
  have hmem := List.sizeOf_lt_of_mem h
  simp only [list.sizeOf_spec]
  omega

def bytes : RawValue → Bytes
  | plain tag body => tag :: body
  | text s => 4 :: field s
  | zoned fields zone => 16 :: (fields ++ field zone)
  | list values => 5 :: (leBytes 8 values.length ++ values.flatMap bytes)
  | map entries =>
    6 :: (leBytes 8 entries.length ++ entries.flatMap fun entry => field entry.1 ++ entry.2.bytes)
decreasing_by
  · exact sizeOf_element_lt ‹_›
  · exact sizeOf_entry_lt ‹_›

/-- How many lists and maps are open at the deepest place. -/
def depth : RawValue → ℕ
  | plain _ _ | text _ | zoned _ _ => 0
  | list values => 1 + (values.map depth).foldr max 0
  | map entries => 1 + (entries.map fun entry => entry.2.depth).foldr max 0
decreasing_by
  · exact sizeOf_element_lt ‹_›
  · exact sizeOf_entry_lt ‹_›

/-- The byte strings that stand where a text belongs. -/
def texts : RawValue → List Bytes
  | plain _ _ => []
  | text s => [s]
  | zoned _ zone => [zone]
  | list values => values.flatMap texts
  | map entries => entries.flatMap fun entry => entry.1 :: entry.2.texts
decreasing_by
  · exact sizeOf_element_lt ‹_›
  · exact sizeOf_entry_lt ‹_›

/-- The lengths and counts fit their fields, and a plain scalar's body is one that its own
reader takes whole. -/
def Fits (zones : ZoneDb) : RawValue → Prop
  | plain tag body => ∃ v, readScalar zones tag ⟨0, body⟩ = .ok (v, ⟨body.length, []⟩)
  | text s => s.length < sizeLimit
  | zoned fields zone => fields.length = 32 ∧ zone.length < sizeLimit
  | list values => values.length < sizeLimit ∧ ∀ v ∈ values, v.Fits zones
  | map entries => entries.length < sizeLimit ∧
    ∀ entry ∈ entries, entry.1.length < sizeLimit ∧ entry.2.Fits zones
decreasing_by
  · exact sizeOf_element_lt ‹_›
  · exact sizeOf_entry_lt ‹_›

end RawValue

/-- Every text of the list is UTF-8. -/
def AllUtf8 (texts : List Bytes) : Prop := ∀ text ∈ texts, (ofUtf8 text).isSome

theorem readString_judges {bytes : Bytes} (h : bytes.length < sizeLimit) :
    Judges readString (field bytes) fun _ => (ofUtf8 bytes).isSome :=
  (Judges.text errors h).mono fun s hs => by simp [hs]

theorem readZone_judges {bytes : Bytes} (h : bytes.length < sizeLimit) :
    Judges (readZone zones) (field bytes) fun _ => (ofUtf8 bytes).isSome := by
  refine (readString_judges h).bind_last fun name hname => ?_
  split
  · exact Judges.pure hname
  · exact Judges.fail _ _ _

/-- A key, and behind it a value that is judged. -/
theorem readEntry_judges {readValue : Reader PropertyValue} {key bytes : Bytes} {P : Prop}
    (hkey : key.length < sizeLimit) (hvalue : Judges readValue bytes fun _ => P) :
    Judges (readEntry readValue) (field key ++ bytes) fun _ => (ofUtf8 key).isSome ∧ P :=
  (readString_judges hkey).bind fun _ hk => hvalue.bind_last fun _ hv => Judges.pure ⟨hk, hv⟩

/-- The date-time fields take their 32 bytes, whatever they hold. -/
theorem readDateTimeFields_judges {fields : Bytes} (h : fields.length = 32) :
    Judges readDateTimeFields fields fun _ => True := by
  obtain ⟨⟨⟩, hrun⟩ : ∃ u : Unit, skip errors 32 ⟨0, fields⟩ = .ok (u, ⟨32, []⟩) := by
    refine ⟨(), skip_eq_ok.mpr ⟨by simp [sizeLimit], by rw [h], ?_⟩⟩
    simp [List.drop_eq_nil_of_le (Nat.le_of_eq h)]
  obtain ⟨value, hvalue⟩ := (skip_dateTime _ _).mp hrun
  exact (Judges.of_steady readDateTimeFields_steady hvalue).mono fun _ _ => trivial

theorem foldr_max_le {γ : Type} {f : γ → ℕ} {xs : List γ} {n : ℕ} (h : ∀ x ∈ xs, f x ≤ n) :
    (xs.map f).foldr max 0 ≤ n := by
  induction xs with
  | nil => exact Nat.zero_le n
  | cons x xs ih =>
    obtain ⟨hx, hxs⟩ := List.forall_mem_cons.mp h
    exact max_le hx (ih hxs)

/-- One level of the reader, given how the values inside are judged: only with all their
texts in UTF-8 and one level less of nesting. -/
theorem readValueAt_judges {enter : Option (Reader PropertyValue)} {levels : ℕ}
    (hlevels : enter.isSome → 1 ≤ levels)
    (henter : ∀ read ∈ enter, ∀ raw : RawValue, raw.Fits zones →
      Judges read raw.bytes fun _ => 1 + raw.depth ≤ levels ∧ AllUtf8 raw.texts)
    {raw : RawValue} (hfits : raw.Fits zones) :
    Judges (readValueAt zones enter) raw.bytes fun _ =>
      raw.depth ≤ levels ∧ AllUtf8 raw.texts := by
  cases raw with
  | plain tag body =>
    obtain ⟨v, hv⟩ := by simpa only [RawValue.Fits] using hfits
    simp only [RawValue.bytes, RawValue.depth, RawValue.texts]
    refine Judges.tag errors ?_
    have hscalar := (Judges.of_steady (readScalar_steady tag) hv).mono
      fun _ _ => (⟨Nat.zero_le levels, by simp [AllUtf8]⟩ : 0 ≤ levels ∧ AllUtf8 [])
    split
    · cases hv
    · cases hv
    · exact hscalar
  | text s =>
    simp only [RawValue.Fits] at hfits
    simp only [RawValue.bytes, RawValue.depth, RawValue.texts]
    refine Judges.tag errors ?_
    exact (readString_judges hfits).map fun _ hs => ⟨Nat.zero_le _, by simpa [AllUtf8] using hs⟩
  | zoned fields zone =>
    obtain ⟨hfields, hzone⟩ := by simpa only [RawValue.Fits] using hfits
    simp only [RawValue.bytes, RawValue.depth, RawValue.texts]
    refine Judges.tag errors ?_
    refine (readDateTimeFields_judges hfields).bind fun _ _ => ?_
    refine (readZone_judges hzone).bind_last fun _ hz => Judges.pure ?_
    exact ⟨Nat.zero_le _, by simpa [AllUtf8] using hz⟩
  | list values =>
    obtain ⟨hlen, hvalues⟩ := by simpa only [RawValue.Fits] using hfits
    simp only [RawValue.bytes, RawValue.depth, RawValue.texts]
    refine Judges.tag errors ?_
    cases enter with
    | none => exact Judges.fail _ _ _
    | some read =>
      refine (Judges.collection errors _ hlen fun v hv => henter read rfl v
        (hvalues v hv)).mono fun _ hall => ⟨?_, ?_⟩
      · have hone := hlevels rfl
        have hmax : (values.map RawValue.depth).foldr max 0 ≤ levels - 1 :=
          foldr_max_le fun v hv => by
            have hdepth := (hall v hv).1
            omega
        omega
      · intro t ht
        obtain ⟨v, hv, ht⟩ := List.mem_flatMap.mp ht
        exact (hall v hv).2 t ht
  | map entries =>
    obtain ⟨hlen, hentries⟩ := by simpa only [RawValue.Fits] using hfits
    simp only [RawValue.bytes, RawValue.depth, RawValue.texts]
    refine Judges.tag errors ?_
    cases enter with
    | none => exact Judges.fail _ _ _
    | some read =>
      refine (Judges.collection errors _ hlen fun entry hentry =>
        readEntry_judges (hentries entry hentry).1 (henter read rfl entry.2
          (hentries entry hentry).2)).mono fun _ hall => ⟨?_, ?_⟩
      · have hone := hlevels rfl
        have hmax : (entries.map fun entry => entry.2.depth).foldr max 0 ≤ levels - 1 :=
          foldr_max_le fun entry hentry => by
            have hdepth := (hall entry hentry).2.1
            omega
        omega
      · intro t ht
        obtain ⟨entry, hentry, ht⟩ := List.mem_flatMap.mp ht
        rcases List.mem_cons.mp ht with rfl | ht
        · exact (hall entry hentry).1
        · exact (hall entry hentry).2.2 t ht

/-- A value is accepted only when its nesting is within the levels left. -/
theorem readValueWithin_judges {levels : ℕ} {raw : RawValue} (hfits : raw.Fits zones) :
    Judges (readValueWithin zones levels) raw.bytes fun _ =>
      raw.depth ≤ levels ∧ AllUtf8 raw.texts := by
  induction levels generalizing raw with
  | zero => exact readValueAt_judges (by simp) (by simp) hfits
  | succ levels ih =>
    refine readValueAt_judges (fun _ => by omega) (fun read hread raw hraw => ?_) hfits
    obtain rfl := Option.some.inj hread
    exact (ih hraw).mono fun _ h => ⟨by omega, h.2⟩

/-- An event as its bytes frame it. The source's sixteen kinds have eight layouts; where
several share one, the tag is a field. -/
inductive RawEvent where
  | createNode (id : UInt64) (labels : List Bytes) (properties : List (Bytes × RawValue))
  | createRelationship (id src dst : UInt64) (relType : Bytes)
      (properties : List (Bytes × RawValue))
  | setProperty (tag : UInt8) (id : UInt64) (key : Bytes) (value : RawValue)
  | named (tag : UInt8) (id : UInt64) (name : Bytes)
  | deleted (tag : UInt8) (id : UInt64)
  | clear
  | request (tag : UInt8) (block : Bytes) (flag : UInt8)
  | dropped (tag : UInt8) (name : Bytes) (flag : UInt8)

/-- The bytes of a property bag. -/
def rawProperties (properties : List (Bytes × RawValue)) : Bytes :=
  leBytes 8 properties.length ++ properties.flatMap fun entry => field entry.1 ++ entry.2.bytes

namespace RawEvent

def bytes : RawEvent → Bytes
  | createNode id labels properties =>
    1 :: (leBytes 8 id.toNat ++ ((leBytes 8 labels.length ++ labels.flatMap field) ++
      rawProperties properties))
  | createRelationship id src dst relType properties =>
    2 :: (leBytes 8 id.toNat ++ (leBytes 8 src.toNat ++ (leBytes 8 dst.toNat ++
      (field relType ++ rawProperties properties))))
  | setProperty tag id key value => tag :: (leBytes 8 id.toNat ++ (field key ++ value.bytes))
  | named tag id name => tag :: (leBytes 8 id.toNat ++ field name)
  | deleted tag id => tag :: leBytes 8 id.toNat
  | clear => [12]
  | request tag block flag => tag :: (field block ++ [flag])
  | dropped tag name flag => tag :: (field name ++ [flag])

/-- The property values of an event. -/
def values : RawEvent → List RawValue
  | createNode _ _ properties | createRelationship _ _ _ _ properties => properties.map Prod.snd
  | setProperty _ _ _ value => [value]
  | _ => []

/-- The byte strings of an event that stand where a text belongs. -/
def texts : RawEvent → List Bytes
  | createNode _ labels properties =>
    labels ++ properties.flatMap fun entry => entry.1 :: entry.2.texts
  | createRelationship _ _ _ relType properties =>
    relType :: properties.flatMap fun entry => entry.1 :: entry.2.texts
  | setProperty _ _ key value => key :: value.texts
  | named _ _ name | dropped _ name _ => [name]
  | _ => []

/-- The store codec decodes the **schema request** of an event, if it has one. -/
def Requested : RawEvent → Prop
  | request tag block _ =>
    if tag = 13 then ∃ r, StoreCodec.decodeIndexRequest block = .ok r
    else ∃ r, StoreCodec.decodeConstraintRequest block = .ok r
  | _ => True

/-- The tag is one of the layout's, and the lengths and counts fit their fields. -/
def Fits (zones : ZoneDb) : RawEvent → Prop
  | createNode _ labels properties =>
    labels.length < sizeLimit ∧ (∀ label ∈ labels, label.length < sizeLimit) ∧
      (RawValue.map properties).Fits zones
  | createRelationship _ _ _ relType properties =>
    relType.length < sizeLimit ∧ (RawValue.map properties).Fits zones
  | setProperty tag _ key value =>
    (tag = 3 ∨ tag = 7) ∧ key.length < sizeLimit ∧ value.Fits zones
  | named tag _ name =>
    (tag = 4 ∨ tag = 5 ∨ tag = 6 ∨ tag = 8) ∧ name.length < sizeLimit
  | deleted tag _ => tag = 9 ∨ tag = 10 ∨ tag = 11
  | clear => True
  | request tag block _ => (tag = 13 ∨ tag = 15) ∧ block.length < sizeLimit
  | dropped tag name _ => (tag = 14 ∨ tag = 16) ∧ name.length < sizeLimit

/-- What an accepted event must be. -/
structure Sound (event : RawEvent) : Prop where
  shallow : ∀ value ∈ event.values, value.depth ≤ MAX_VALUE_DEPTH
  utf8 : AllUtf8 event.texts
  requested : event.Requested

end RawEvent

theorem readU64_judges (id : UInt64) : Judges readU64 (leBytes 8 id.toNat) fun _ => True :=
  (Judges.word errors id.toNat_lt).mono fun _ _ => trivial

theorem readFlag_judges (flag : UInt8) : Judges readFlag [flag] fun _ => True :=
  (Judges.byte errors flag).map fun _ _ => trivial

theorem readStringVec_judges {texts : List Bytes} (hlen : texts.length < sizeLimit)
    (htexts : ∀ text ∈ texts, text.length < sizeLimit) :
    Judges readStringVec (leBytes 8 texts.length ++ texts.flatMap field) fun _ =>
      AllUtf8 texts := by
  refine (Judges.count errors _ hlen).bind fun len hcount => ?_
  subst hcount
  exact Judges.times fun text htext => readString_judges (htexts text htext)

theorem readProperties_judges {properties : List (Bytes × RawValue)}
    (hfits : (RawValue.map properties).Fits zones) :
    Judges (readProperties zones) (rawProperties properties) fun _ =>
      (∀ value ∈ properties.map Prod.snd, value.depth ≤ MAX_VALUE_DEPTH) ∧
        AllUtf8 (properties.flatMap fun entry => entry.1 :: entry.2.texts) := by
  obtain ⟨hlen, hentries⟩ := by simpa only [RawValue.Fits] using hfits
  refine (Judges.collection errors _ hlen fun entry hentry => readEntry_judges
    (hentries entry hentry).1 (readValueWithin_judges (hentries entry hentry).2)).mono
    fun _ hall => ⟨?_, ?_⟩
  · intro value hvalue
    obtain ⟨entry, hentry, rfl⟩ := List.mem_map.mp hvalue
    exact (hall entry hentry).2.1
  · intro text htext
    obtain ⟨entry, hentry, htext⟩ := List.mem_flatMap.mp htext
    rcases List.mem_cons.mp htext with rfl | htext
    · exact (hall entry hentry).1
    · exact (hall entry hentry).2.2 text htext

theorem readRequest_judges {α : Type} (what : String)
    {decode : Bytes → Except StoreCodec.StoreCodecError α} {request : Bytes}
    (h : request.length < sizeLimit) :
    Judges (readRequest what decode) (field request) fun _ => ∃ r, decode request = .ok r := by
  refine (Judges.block errors h).bind_last fun bytes hbytes => ?_
  subst hbytes
  split
  · next r hr => exact Judges.pure ⟨r, hr⟩
  · exact Judges.fail _ _ _

/-- An event is accepted only whole, and only when it is sound. -/
theorem readEvent_judges {event : RawEvent} (hfits : event.Fits zones) :
    Judges (readEvent zones) event.bytes fun _ => event.Sound := by
  cases event with
  | createNode id labels properties =>
    obtain ⟨hlen, hlabels, hproperties⟩ := hfits
    refine Judges.tag errors ?_
    refine (readU64_judges id).bind fun _ _ => ?_
    refine (readStringVec_judges hlen hlabels).bind fun _ hl => ?_
    refine (readProperties_judges hproperties).bind_last fun _ hp => Judges.pure ?_
    exact ⟨hp.1, List.forall_mem_append.mpr ⟨hl, hp.2⟩, trivial⟩
  | createRelationship id src dst relType properties =>
    obtain ⟨htype, hproperties⟩ := hfits
    refine Judges.tag errors ?_
    refine (readU64_judges id).bind fun _ _ => (readU64_judges src).bind fun _ _ =>
      (readU64_judges dst).bind fun _ _ => ?_
    refine (readString_judges htype).bind fun _ ht => ?_
    refine (readProperties_judges hproperties).bind_last fun _ hp => Judges.pure ?_
    exact ⟨hp.1, List.forall_mem_cons.mpr ⟨ht, hp.2⟩, trivial⟩
  | setProperty tag id key value =>
    obtain ⟨htag, hkey, hvalue⟩ := hfits
    have hset {build : ℕ → String → PropertyValue → MutationEvent} : Judges (do
            let id ← readU64
            let key ← readString
            let value ← readValue zones
            pure (build id key value))
          (leBytes 8 id.toNat ++ (field key ++ value.bytes))
          fun _ => (RawEvent.setProperty tag id key value).Sound := by
      refine (readU64_judges id).bind fun _ _ => (readString_judges hkey).bind fun _ hk => ?_
      refine (readValueWithin_judges hvalue).bind_last fun _ hv => Judges.pure ?_
      exact ⟨by simpa [RawEvent.values] using hv.1, List.forall_mem_cons.mpr ⟨hk, hv.2⟩, trivial⟩
    rcases htag with rfl | rfl <;> exact Judges.tag errors hset
  | named tag id name =>
    obtain ⟨htag, hname⟩ := hfits
    have hnamed {build : ℕ → String → MutationEvent} : Judges (do
            let id ← readU64
            let name ← readString
            pure (build id name))
          (leBytes 8 id.toNat ++ field name)
          fun _ => (RawEvent.named tag id name).Sound := by
      refine (readU64_judges id).bind fun _ _ => ?_
      refine (readString_judges hname).bind_last fun _ hn => Judges.pure ?_
      exact ⟨by simp [RawEvent.values], by simpa [RawEvent.texts, AllUtf8] using hn, trivial⟩
    rcases htag with rfl | rfl | rfl | rfl <;> exact Judges.tag errors hnamed
  | deleted tag id =>
    have hsound : (RawEvent.deleted tag id).Sound :=
      ⟨by simp [RawEvent.values], by simp [RawEvent.texts, AllUtf8], trivial⟩
    rcases hfits with rfl | rfl | rfl <;>
      exact Judges.tag errors ((readU64_judges id).map fun _ _ => hsound)
  | clear =>
    have hsound : RawEvent.clear.Sound :=
      ⟨by simp [RawEvent.values], by simp [RawEvent.texts, AllUtf8], trivial⟩
    exact Judges.tag errors (Judges.pure hsound)
  | request tag block flag =>
    obtain ⟨htag, hrequest⟩ := hfits
    rcases htag with rfl | rfl
    · refine Judges.tag errors ((readRequest_judges _ hrequest).bind fun _ hr => ?_)
      refine (readFlag_judges flag).bind_last fun _ _ => Judges.pure ?_
      exact ⟨by simp [RawEvent.values], by simp [RawEvent.texts, AllUtf8], by
        simpa [RawEvent.Requested] using hr⟩
    · refine Judges.tag errors ((readRequest_judges _ hrequest).bind fun _ hr => ?_)
      refine (readFlag_judges flag).bind_last fun _ _ => Judges.pure ?_
      exact ⟨by simp [RawEvent.values], by simp [RawEvent.texts, AllUtf8], by
        simpa [RawEvent.Requested] using hr⟩
  | dropped tag name flag =>
    obtain ⟨htag, hname⟩ := hfits
    have hdropped {build : String → Bool → MutationEvent} : Judges (do
            let name ← readString
            let flag ← readFlag
            pure (build name flag))
          (field name ++ [flag])
          fun _ => (RawEvent.dropped tag name flag).Sound := by
      refine (readString_judges hname).bind fun _ hn => ?_
      refine (readFlag_judges flag).bind_last fun _ _ => Judges.pure ?_
      exact ⟨by simp [RawEvent.values], by simpa [RawEvent.texts, AllUtf8] using hn, trivial⟩
    rcases htag with rfl | rfl <;> exact Judges.tag errors hdropped

/-! ### Malformed payloads -/

/-- The payload of a batch of framed events. -/
def rawPayload (events : List RawEvent) : Bytes :=
  PAYLOAD_MAGIC ++ (leBytes 8 events.length ++ events.flatMap RawEvent.bytes)

/-- The events' lengths and counts fit their fields. -/
def Framed (zones : ZoneDb) (events : List RawEvent) : Prop :=
  events.length < sizeLimit ∧ ∀ event ∈ events, event.Fits zones

/-- The byte strings that both walks must refuse. -/
inductive Malformed (zones : ZoneDb) : Bytes → Prop
  /-- Bytes are left over behind the last event. -/
  | leftOver {events : List RawEvent} {extra : Bytes} (hframed : Framed zones events)
      (hextra : extra ≠ []) : Malformed zones (rawPayload events ++ extra)
  /-- The input ends before the payload does, so that a length, a count or a fixed field
  reaches past the end. -/
  | pastEnd {events : List RawEvent} {bytes : Bytes} (hframed : Framed zones events)
      (hpart : bytes <+: rawPayload events) (hne : bytes ≠ rawPayload events) :
      Malformed zones bytes
  /-- A value nests past the cap. -/
  | tooDeep {events : List RawEvent} {event : RawEvent} {value : RawValue}
      (hframed : Framed zones events) (hevent : event ∈ events) (hvalue : value ∈ event.values)
      (hdepth : MAX_VALUE_DEPTH < value.depth) : Malformed zones (rawPayload events)
  /-- A text is not UTF-8. -/
  | notUtf8 {events : List RawEvent} {event : RawEvent} {text : Bytes}
      (hframed : Framed zones events) (hevent : event ∈ events) (htext : text ∈ event.texts)
      (hbad : ofUtf8 text = none) : Malformed zones (rawPayload events)
  /-- A schema request is one that the store codec refuses, for these or other reasons. -/
  | badRequest {events : List RawEvent} {event : RawEvent} (hframed : Framed zones events)
      (hevent : event ∈ events) (hbad : ¬ event.Requested) : Malformed zones (rawPayload events)

/-- Bytes comparable with a framed payload decode only when they are the payload and all
its events are sound. -/
theorem decodeEvents_judged {rawEvents : List RawEvent} (hframed : Framed zones rawEvents)
    {bytes : Bytes} (hcomp : rawPayload rawEvents <+: bytes ∨ bytes <+: rawPayload rawEvents)
    {events : List MutationEvent} (h : decodeEvents zones bytes = .ok events) :
    bytes = rawPayload rawEvents ∧ ∀ event ∈ rawEvents, event.Sound := by
  obtain ⟨payload, hstrip, hrun⟩ := bind_eq_ok.mp h
  unfold stripMagic at hstrip
  split at hstrip
  · next hmagic =>
      obtain ⟨rest, rfl⟩ := List.isPrefixOf_iff_prefix.mp hmagic
      rw [List.drop_left, Except.ok.injEq] at hstrip
      subst hstrip
      simp only [rawPayload, List.prefix_append_right_inj] at hcomp
      have hjudged : Judges (do
            let len ← readCount errors "WAL event"
            readTimes (readEvent zones) len)
          (leBytes 8 rawEvents.length ++ rawEvents.flatMap RawEvent.bytes)
          fun _ => ∀ event ∈ rawEvents, event.Sound := by
        refine (Judges.count errors _ hframed.1).bind fun len hlen => ?_
        subst hlen
        exact Judges.times fun event hevent => readEvent_judges (hframed.2 event hevent)
      obtain ⟨hsound, rfl⟩ := hjudged.readAll hcomp hrun
      exact ⟨rfl, hsound⟩
  · cases hstrip

/-- No malformed payload decodes. -/
theorem Malformed.not_decoded {bytes : Bytes} (h : Malformed zones bytes)
    (events : List MutationEvent) : decodeEvents zones bytes ≠ .ok events := by
  intro hok
  cases h with
  | leftOver hframed hextra =>
    have hwhole := (decodeEvents_judged hframed (.inl (List.prefix_append _ _)) hok).1
    exact hextra (by simpa using hwhole)
  | pastEnd hframed hpart hne =>
    exact hne (decodeEvents_judged hframed (.inr hpart) hok).1
  | tooDeep hframed hevent hvalue hdepth =>
    have hsound := (decodeEvents_judged hframed (.inl (List.prefix_refl _)) hok).2 _ hevent
    exact absurd (hsound.shallow _ hvalue) (Nat.not_le.mpr hdepth)
  | notUtf8 hframed hevent htext hbad =>
    have hsound := (decodeEvents_judged hframed (.inl (List.prefix_refl _)) hok).2 _ hevent
    simpa [hbad] using hsound.utf8 _ htext
  | badRequest hframed hevent hbad =>
    have hsound := (decodeEvents_judged hframed (.inl (List.prefix_refl _)) hok).2 _ hevent
    exact hbad hsound.requested

/-! ### Loops that take bytes -/

/-- Every element of every loop of the two walks takes at least a byte, and only bytes
that are there. A schema request's block is taken whole: the loops that the store codec runs
inside it are not among these. -/
structure LoopsAdvance (zones : ZoneDb) : Prop where
  event : Advances (readEvent zones)
  checkedEvent : Advances (checkEvent zones)
  value : ∀ levels, Advances (readValueWithin zones levels)
  checkedValue : ∀ levels, Advances (checkValueWithin zones levels)
  entry : ∀ levels, Advances (readEntry (readValueWithin zones levels))
  checkedEntry : ∀ levels, Advances (do checkStr; checkValueWithin zones levels)
  text : Advances readString
  checkedText : Advances checkStr
  segment : Advances (readBlock errors)
  float64 : Advances readF64
  float32 : Advances readF32
  integer64 : Advances readI64
  integer32 : Advances readI32
  integer16 : Advances readI16
  integer8 : Advances readI8

theorem loopsAdvance (zones : ZoneDb) : LoopsAdvance zones where
  event := readEvent_steady.advances (by omega)
  checkedEvent := checkEvent_accepts.advances (readEvent_steady.advances (by omega))
  value levels := (readValueWithin_steady levels).advances (by omega)
  checkedValue levels :=
    (checkValueWithin_accepts levels).advances ((readValueWithin_steady levels).advances (by omega))
  entry levels := (readEntry_steady (readValueWithin_steady levels)).advances (by omega)
  checkedEntry levels := (checkEntry_accepts (checkValueWithin_accepts levels)).advances
    ((readEntry_steady (readValueWithin_steady levels)).advances (by omega))
  text := readString_steady.advances (by omega)
  checkedText := checkStr_accepts.advances (readString_steady.advances (by omega))
  segment := (Steady.block errors).advances (by omega)
  float64 := readF64_steady.advances (by omega)
  float32 := readF32_steady.advances (by omega)
  integer64 := readI64_steady.advances (by omega)
  integer32 := readI32_steady.advances (by omega)
  integer16 := readI16_steady.advances (by omega)
  integer8 := readI8_steady.advances (by omega)

/-- **Skipping accepts what decoding does**, and counts the same events; both refuse every
malformed payload, and no loop of their own runs without taking bytes. -/
theorem validateEvents_refines_decodeEvents (zones : ZoneDb) :
    (∀ bytes n, validateEvents zones bytes = .ok n ↔
      ∃ events, decodeEvents zones bytes = .ok events ∧ n = events.length) ∧
    (∀ bytes, Malformed zones bytes → (∀ n, validateEvents zones bytes ≠ .ok n) ∧
      ∀ events, decodeEvents zones bytes ≠ .ok events) ∧
    LoopsAdvance zones := by
  refine ⟨fun _ _ => validateEvents_eq_ok, fun bytes h => ⟨fun n hok => ?_, h.not_decoded⟩,
    loopsAdvance zones⟩
  obtain ⟨events, hevents, -⟩ := validateEvents_eq_ok.mp hok
  exact h.not_decoded events hevents

/-- A label of one byte that is no UTF-8. -/
def invalidLabel : RawEvent := .named 5 1 [0xFF]

theorem invalidLabel_refused :
    (∀ n, validateEvents unaryZones (rawPayload [invalidLabel]) ≠ .ok n) ∧
      ∀ events, decodeEvents unaryZones (rawPayload [invalidLabel]) ≠ .ok events := by
  have hframed : Framed unaryZones [invalidLabel] := by
    refine ⟨by decide, fun event hevent => ?_⟩
    obtain rfl := List.mem_singleton.mp hevent
    exact ⟨by decide, by decide⟩
  exact (validateEvents_refines_decodeEvents unaryZones).2.1 _
    (.notUtf8 hframed (List.mem_singleton_self _) (List.mem_singleton_self _) (by decide))

end WalCodec

end LoraDb
