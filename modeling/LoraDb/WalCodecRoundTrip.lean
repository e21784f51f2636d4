import LoraDb.WalCodecReads

/-!
# Sizes, Checks and the Round Trip of the Payload Codec

The other two walks of the payload codec, and what the four of them amount to together.

* The size walk succeeds exactly when the writer does and the payload stays below
  `sizeLimit`, and then it is the payload's length (`encodedEventsLen_eq_ok`).
* The check walk accepts exactly the payloads that decode (`validateEvents_eq_ok`).

An accepted batch therefore always has the size that was computed for it, and it comes back
from the log exactly when all its events are replayable.

## Main results

* `encodedEventsLen_eq_ok`, `validateEvents_eq_ok`
* `encodeEvents_roundTrip_iff`: an accepted batch decodes to itself, has the computed size
  and passes the check if and only if its events are replayable.
-/

open ByteCodec

namespace LoraDb.WalCodec

/-! ### Sizes of the parts -/

theorem sizeTag_measures (b : UInt8) : Measures sizeTag (writeByte b) :=
  Measures.add _ ⟨[b], rfl, rfl⟩

theorem sizeU64_measures (n : ℕ) : Measures sizeU64 (writeU64 n) :=
  Measures.add _ ⟨_, rfl, leBytes_length 8 n⟩

theorem sizeLen_measures (len : ℕ) : Measures (sizeLen len) (writeLen len) := by
  intro size size' hlt
  unfold sizeLen writeLen writeCount
  split
  · exact sizeU64_measures len size size' hlt
  · simp

theorem sizeBytes_measures (bytes : Bytes) :
    Measures (sizeBytes bytes.length) (writeBlock errors bytes) :=
  (sizeLen_measures bytes.length).cons (Measures.last (Measures.add _ ⟨bytes, rfl, rfl⟩))

theorem sizeString_measures (s : String) : Measures (sizeString s) (writeString s) :=
  sizeBytes_measures (utf8 s)

theorem sizeStringVec_measures (values : List String) :
    Measures (sizeStringVec values) (writeStringVec values) :=
  (sizeLen_measures _).cons (Measures.last (Measures.each fun s _ => sizeString_measures s))

theorem sizeBinarySegments_measures (segments : List Bytes) :
    Measures (sizeBinarySegments segments) (writeBinarySegments segments) :=
  (sizeLen_measures _).cons (Measures.last (Measures.each fun s _ => sizeBytes_measures s))

theorem sizeFlag_measures (b : Bool) : Measures (addSize 1) (writeBool b) :=
  Measures.add _ ⟨_, rfl, rfl⟩

/-- Elements of a fixed width, written one after the other. -/
theorem writeEach_fixed {α : Type} {write : α → Writer} {width : ℕ}
    (h : ∀ x, ∃ bs, write x = .ok bs ∧ bs.length = width) (xs : List α) :
    ∃ bs, writeEach write xs = .ok bs ∧ bs.length = xs.length * width := by
  induction xs with
  | nil => exact ⟨[], rfl, by simp⟩
  | cons x xs ih =>
    obtain ⟨a, ha, hlen⟩ := h x
    obtain ⟨b, hb, hrest⟩ := ih
    refine ⟨a ++ b, ?_, ?_⟩
    · rw [writeEach_cons, writeAll_cons]
      exact ⟨a, ha, b, by rwa [writeAll_singleton], rfl⟩
    · simp [hlen, hrest, Nat.succ_mul, Nat.add_comm]

theorem sizeNumericSlice_measures {α : Type} {write : α → Writer} {width : ℕ}
    (h : ∀ x, ∃ bs, write x = .ok bs ∧ bs.length = width) (xs : List α) :
    Measures (sizeNumericSlice xs.length width)
      (writeAll [writeLen xs.length, writeEach write xs]) := by
  refine (sizeLen_measures _).cons (Measures.last ?_)
  intro size size' hlt
  split
  · exact Measures.add _ (writeEach_fixed h xs) size size' hlt
  · next hover =>
      obtain ⟨bs, hbs, hlen⟩ := writeEach_fixed h xs
      simp only [reduceCtorEq, hbs, Except.ok.injEq, exists_eq_left', false_iff]
      omega

theorem sizeVector_measures (vector : LoraVector) :
    Measures (sizeVector vector) (writeVector vector) := by
  refine (sizeLen_measures _).cons (Measures.last ?_)
  obtain ⟨dimension, values⟩ := vector
  cases values with
  | float64 values | float32 values | integer64 values | integer32 values | integer16 values
  | integer8 values =>
    exact (sizeTag_measures _).cons
      (sizeNumericSlice_measures (fun x => ⟨_, rfl, leBytes_length _ _⟩) values)

section Zones

variable {zones : ZoneDb}

/-- The tag and the payload of a value other than a list or map. -/
theorem sizeScalar_measures {v : PropertyValue} (hlist : ∀ values, v ≠ .list values)
    (hmap : ∀ entries, v ≠ .map entries) :
    Measures (fun size => sizeTag size >>= sizeScalar zones v) (writeScalar zones v) := by
  cases v with
  | list values => exact absurd rfl (hlist values)
  | map entries => exact absurd rfl (hmap entries)
  | null =>
    have h := (sizeTag_measures 0).cons Measures.none
    rwa [writeAll_singleton] at h
  | bool value =>
    exact (sizeTag_measures 1).cons (Measures.last (sizeFlag_measures value))
  | int value | float value | date value | time value | localTime value
  | localDateTime value | duration value =>
    exact (sizeTag_measures _).cons (Measures.add _ ⟨_, rfl, by simp⟩)
  | string value =>
    exact (sizeTag_measures 4).cons (Measures.last (sizeString_measures value))
  | binary value =>
    exact (sizeTag_measures 15).cons (Measures.last (sizeBinarySegments_measures _))
  | dateTime value =>
    refine (sizeTag_measures _).cons (Measures.cons (Measures.add _ ⟨_, rfl, by simp⟩) ?_)
    refine Measures.last ?_
    cases value.zone with
    | none => exact Measures.none
    | some zone => exact sizeString_measures _
  | point value =>
    obtain ⟨x, y, z, srid⟩ := value
    -- the size groups the first two coordinates with the presence tag of the third
    cases z with
    | none =>
      have hgroup : writeScalar zones (.point ⟨x, y, none, srid⟩) =
          writeAll [writeByte 13, writeAll [writeF64 x, writeF64 y, writeByte 0],
            writeU32 srid] := rfl
      rw [hgroup]
      exact (sizeTag_measures 13).cons (Measures.cons (Measures.add _ ⟨_, rfl, by simp⟩)
        (Measures.last (Measures.add _ ⟨_, rfl, by simp⟩)))
    | some z =>
      have hgroup : writeScalar zones (.point ⟨x, y, some z, srid⟩) =
          writeAll [writeByte 13, writeAll [writeF64 x, writeF64 y, writeByte 1],
            writeF64 z, writeU32 srid] := rfl
      rw [hgroup]
      exact (sizeTag_measures 13).cons (Measures.cons (Measures.add _ ⟨_, rfl, by simp⟩)
        (Measures.cons (Measures.add _ ⟨_, rfl, by simp⟩)
          (Measures.last (Measures.add _ ⟨_, rfl, by simp⟩))))
  | vector value =>
    exact (sizeTag_measures 14).cons (Measures.last (sizeVector_measures value))

theorem sizeValuesAt_eq (depth : ℕ) (values : List PropertyValue) :
    sizeValuesAt zones depth values = sizeEach (sizeValueAt zones depth) values := by
  induction values with
  | nil => rfl
  | cons v vs ih =>
    funext size
    simp only [sizeValuesAt, sizeEach, ih]

/-- The sizer of a map entry at some depth. -/
def sizeEntry (zones : ZoneDb) (depth : ℕ) (entry : String × PropertyValue) : Sizer :=
  fun size => sizeString entry.1 size >>= sizeValueAt zones depth entry.2

theorem sizeEntriesAt_eq (depth : ℕ) (entries : List (String × PropertyValue)) :
    sizeEntriesAt zones depth entries = sizeEach (sizeEntry zones depth) entries := by
  induction entries with
  | nil => rfl
  | cons e es ih =>
    funext size
    simp only [sizeEntriesAt, sizeEach, sizeEntry, ih, bind_assoc]

theorem sizeValueAt_measures {v : PropertyValue} (depth : ℕ) :
    Measures (sizeValueAt zones depth v) (writeValueAt zones depth v) := by
  induction v generalizing depth with
  | list values ih =>
    unfold sizeValueAt writeValueAt
    cases henter : enterContainer depth with
    | error e =>
      intro size size' _
      simp only [bind_eq_ok, reduceCtorEq, false_and, exists_false, and_false]
    | ok depth' =>
      refine (sizeTag_measures 5).cons ((sizeLen_measures _).cons (Measures.last ?_))
      rw [sizeValuesAt_eq, writeValuesAt_eq]
      exact Measures.each fun v hv => ih v hv depth'
  | map entries ih =>
    unfold sizeValueAt writeValueAt
    cases henter : enterContainer depth with
    | error e =>
      intro size size' _
      simp only [bind_eq_ok, reduceCtorEq, false_and, exists_false, and_false]
    | ok depth' =>
      refine (sizeTag_measures 6).cons ((sizeLen_measures _).cons (Measures.last ?_))
      rw [sizeEntriesAt_eq, writeEntriesAt_eq]
      exact Measures.each fun e he =>
        (sizeString_measures e.1).cons (Measures.last (ih e he depth'))
  | null | bool _ | int _ | float _ | string _ | binary _ | date _ | time _ | localTime _
  | dateTime _ | localDateTime _ | duration _ | point _ | vector _ =>
    exact sizeScalar_measures (fun _ heq => by cases heq)
      fun _ heq => by cases heq

theorem sizeValue_measures (v : PropertyValue) :
    Measures (sizeValue zones v) (writeValue zones v) :=
  sizeValueAt_measures 0

theorem sizeProperties_measures (properties : PropertyMap) :
    Measures (sizeProperties zones properties) (writeProperties zones properties) :=
  (sizeLen_measures _).cons (Measures.last (Measures.each fun e _ =>
    (sizeString_measures e.1).cons (Measures.last (sizeValue_measures e.2))))

/-- A schema request behind an event tag, with its flag. -/
theorem sizeRequest_measures (tag : UInt8) (encoded : Writer) (flag : Bool) :
    Measures (fun size => sizeTag size >>= sizeRequest encoded) (do
      let bytes ← encoded
      writeAll [writeByte tag, writeBlock errors bytes, writeBool flag]) := by
  cases encoded with
  | error e =>
    intro size size' _
    simp only [sizeRequest, bind_eq_ok, reduceCtorEq, false_and, exists_false, and_false]
  | ok bytes =>
    have hblock := sizeBytes_measures bytes
    have h := (sizeTag_measures tag).cons (hblock.cons (Measures.last (sizeFlag_measures flag)))
    simp only [sizeBytes, bind_assoc] at h
    exact h

theorem sizeEvent_measures (event : MutationEvent) :
    Measures (sizeEvent zones event) (writeEvent zones event) := by
  cases event with
  | createNode id labels properties =>
    exact (sizeTag_measures 1).cons ((sizeU64_measures id).cons
      ((sizeStringVec_measures labels).cons
        (Measures.last (sizeProperties_measures properties))))
  | createRelationship id src dst relType properties =>
    exact (sizeTag_measures 2).cons ((sizeU64_measures id).cons
      ((sizeU64_measures src).cons ((sizeU64_measures dst).cons
        ((sizeString_measures relType).cons
          (Measures.last (sizeProperties_measures properties))))))
  | setNodeProperty id key value | setRelationshipProperty id key value =>
    exact (sizeTag_measures _).cons ((sizeU64_measures id).cons
      ((sizeString_measures key).cons (Measures.last (sizeValue_measures value))))
  | removeNodeProperty id key | addNodeLabel id key | removeNodeLabel id key
  | removeRelationshipProperty id key =>
    exact (sizeTag_measures _).cons ((sizeU64_measures id).cons
      (Measures.last (sizeString_measures key)))
  | deleteRelationship id | deleteNode id | detachDeleteNode id =>
    exact (sizeTag_measures _).cons (Measures.last (sizeU64_measures id))
  | clear =>
    have h := (sizeTag_measures 12).cons Measures.none
    rwa [writeAll_singleton] at h
  | createIndex request flag => exact sizeRequest_measures 13 _ flag
  | createConstraint request flag => exact sizeRequest_measures 15 _ flag
  | dropIndex name flag | dropConstraint name flag =>
    exact (sizeTag_measures _).cons ((sizeString_measures name).cons
      (Measures.last (sizeFlag_measures flag)))

/-- The computed size is the length of the payload; it is refused exactly when the
payload cannot be written or would reach `sizeLimit`. -/
theorem encodedEventsLen_eq_ok {events : List MutationEvent} {n : ℕ} :
    encodedEventsLen zones events = .ok n ↔
      ∃ bs, encodeEventsInto zones events = .ok bs ∧ n = bs.length ∧ n < sizeLimit := by
  have hbody : Measures
      (fun size => sizeLen events.length size >>= sizeEach (sizeEvent zones) events)
      (writeAll [writeLen events.length, writeEach (writeEvent zones) events]) :=
    (sizeLen_measures _).cons (Measures.last (Measures.each fun e _ => sizeEvent_measures e))
  have h := hbody PAYLOAD_MAGIC.length n (by decide)
  rw [encodedEventsLen, h, encodeEventsInto]
  constructor
  · rintro ⟨body, hbody, rfl, hlt⟩
    exact ⟨_, writeAll_cons.mpr ⟨_, rfl, body, hbody, rfl⟩, by simp, hlt⟩
  · rintro ⟨bs, hbs, rfl, hlt⟩
    obtain ⟨_, hmagic, body, hbody, rfl⟩ := writeAll_cons.mp hbs
    obtain rfl := Except.ok.inj hmagic
    exact ⟨body, hbody, by simp, hlt⟩

/-! ### The check walk -/

theorem checkStr_accepts : Accepts checkStr readString := Accepts.drop readString

theorem checkStringVec_accepts : Accepts checkStringVec readStringVec :=
  Accepts.bind_same fun len => checkStr_accepts.times len

theorem checkEntry_accepts {check : Reader Unit} {read : Reader PropertyValue}
    (h : Accepts check read) : Accepts (do checkStr; check) (readEntry read) :=
  checkStr_accepts.bind fun _ => h.bind_pure _

/-- The eight four-byte fields of a date-time are skipped at once. -/
theorem skip_dateTime : Accepts (skip errors 32) readDateTimeFields := by
  have hi32 : Accepts (skip errors 4) readI32 := Accepts.skip_nat errors 4 _
  have hu32 : Accepts (skip errors 4) readU32 := Accepts.skip_nat errors 4 _
  have h : Accepts (skip errors (4 + (4 + (4 + (4 + (4 + (4 + (4 + 4))))))) >>= fun _ => pure ())
      readDateTimeFields := by
    refine Accepts.skip_add hi32 fun year => Accepts.skip_add hu32 fun month => ?_
    refine Accepts.skip_add hu32 fun day => Accepts.skip_add hu32 fun hour => ?_
    refine Accepts.skip_add hu32 fun minute => Accepts.skip_add hu32 fun second => ?_
    refine Accepts.skip_add hu32 fun nanosecond => ?_
    exact hi32.bind fun offset => Accepts.pure _
  simpa only [bind_pure_unit] using h

theorem checkValueAt_accepts {check : Option (Reader Unit)} {enter : Option (Reader PropertyValue)}
    (h : match check, enter with
      | none, none => True
      | some check, some read => Accepts check read
      | _, _ => False) :
    Accepts (checkValueAt zones check) (readValueAt zones enter) := by
  refine Accepts.bind_same fun tag => ?_
  split
  · cases check <;> cases enter
    · exact Accepts.fail _
    · exact absurd h not_false
    · exact absurd h not_false
    · exact Accepts.bind_same fun len => (Accepts.times h len).bind_pure _
  · cases check <;> cases enter
    · exact Accepts.fail _
    · exact absurd h not_false
    · exact absurd h not_false
    · exact Accepts.bind_same fun len => ((checkEntry_accepts h).times len).bind_pure _
  · exact checkStr_accepts.map _
  · exact skip_dateTime.map _
  · exact skip_dateTime.bind fun value => (Accepts.drop _).bind_pure _
  · next hlist hmap _ _ _ =>
      split
      · exact absurd rfl hlist
      · exact absurd rfl hmap
      · exact Accepts.drop _

theorem checkValueWithin_accepts (levels : ℕ) :
    Accepts (checkValueWithin zones levels) (readValueWithin zones levels) := by
  induction levels with
  | zero => exact checkValueAt_accepts trivial
  | succ levels ih => exact checkValueAt_accepts ih

theorem checkProperties_accepts : Accepts (checkProperties zones) (readProperties zones) :=
  Accepts.bind_same fun len =>
    ((checkEntry_accepts (checkValueWithin_accepts _)).times len).bind_pure _

theorem checkEvent_accepts : Accepts (checkEvent zones) (readEvent zones) := by
  refine Accepts.bind_same fun tag => ?_
  have hu64 : Accepts (skip errors 8) readU64 := by
    simpa [readU64] using Accepts.skip_nat errors 8 id
  split
  · exact Accepts.bind_same fun id => checkStringVec_accepts.bind fun labels =>
      checkProperties_accepts.bind_pure _
  · have h : Accepts (skip errors (8 + (8 + 8)) >>= fun _ => do checkStr; checkProperties zones)
        (readEventBody zones 2) := by
      refine Accepts.skip_add hu64 fun id => Accepts.skip_add hu64 fun src => ?_
      refine hu64.bind fun dst => checkStr_accepts.bind fun relType => ?_
      exact checkProperties_accepts.bind_pure _
    exact h
  · exact Accepts.bind_same fun id => checkStr_accepts.bind fun key =>
      (checkValueWithin_accepts _).bind_pure _
  · exact Accepts.bind_same fun id => checkStr_accepts.bind fun key =>
      (checkValueWithin_accepts _).bind_pure _
  · exact Accepts.bind_same fun id => checkStr_accepts.bind_pure _
  · exact Accepts.bind_same fun id => checkStr_accepts.bind_pure _
  · exact Accepts.bind_same fun id => checkStr_accepts.bind_pure _
  · exact Accepts.bind_same fun id => checkStr_accepts.bind_pure _
  · exact (Accepts.drop _).map _
  · exact (Accepts.drop _).map _
  · exact (Accepts.drop _).map _
  · exact Accepts.pure _
  · exact Accepts.drop _

/-- The check walk accepts exactly the payloads that decode, and counts their events. -/
theorem validateEvents_eq_ok {bytes : Bytes} {n : ℕ} : validateEvents zones bytes = .ok n ↔
      ∃ events, decodeEvents zones bytes = .ok events ∧ n = events.length := by
  simp only [validateEvents, decodeEvents, bind_eq_ok, readAll_eq_ok, bind_run_eq_ok, pure_run,
    Except.ok.injEq, Prod.mk.injEq]
  constructor
  · rintro ⟨payload, hstrip, last, len, mid, hlen, ⟨⟩, _, hcheck, rfl, rfl⟩
    obtain ⟨events, hevents⟩ := ((checkEvent_accepts.times len) mid _).mp hcheck
    have hlength := ((Yields.any (readEvent zones)).times len mid _ _ hevents).1
    exact ⟨events, ⟨payload, hstrip, last, len, mid, hlen, hevents⟩, hlength.symm⟩
  · rintro ⟨events, ⟨payload, hstrip, last, len, mid, hlen, hevents⟩, rfl⟩
    have hlength := ((Yields.any (readEvent zones)).times len mid _ _ hevents).1
    have hcheck := ((checkEvent_accepts.times len) mid _).mpr ⟨events, hevents⟩
    exact ⟨payload, hstrip, last, len, mid, hlen, (), _, hcheck, hlength.symm, rfl⟩

/-! ### The round trip -/

theorem encodeEvents_eq_ok {events : List MutationEvent} {bs : Bytes} :
    encodeEvents zones events = .ok bs ↔
      encodeEventsInto zones events = .ok bs ∧ bs.length < sizeLimit := by
  simp only [encodeEvents, bind_eq_ok, encodedEventsLen_eq_ok]
  constructor
  · rintro ⟨_, ⟨bs', hbs', rfl, hlt⟩, hbs⟩
    obtain rfl := Except.ok.inj (hbs'.symm.trans hbs)
    exact ⟨hbs, hlt⟩
  · rintro ⟨hbs, hlt⟩
    exact ⟨_, ⟨bs, hbs, rfl, hlt⟩, hbs⟩

/-- **Round trip.** An accepted batch decodes to itself, has the computed size and passes replay's
check if and only if all its events are replayable: every vector in them, at any depth, declares
the dimension it has, and a constraint request asks for a hash backing only with an index. -/
theorem encodeEvents_roundTrip_iff {events : List MutationEvent} {bs : Bytes}
    (htyped : ∀ event ∈ events, event.WellTyped) (h : encodeEvents zones events = .ok bs) :
    (decodeEvents zones bs = .ok events ∧ encodedEventsLen zones events = .ok bs.length ∧
        validateEvents zones bs = .ok events.length) ↔
      ∀ event ∈ events, event.Replayable := by
  obtain ⟨hbs, hlt⟩ := encodeEvents_eq_ok.mp h
  constructor
  · rintro ⟨hdecode, -, -⟩
    exact decodeEvents_replayable hdecode
  · intro hreplay
    have hdecode := decodeEvents_encode htyped hreplay hbs hlt
    exact ⟨hdecode, encodedEventsLen_eq_ok.mpr ⟨bs, hbs, rfl, hlt⟩,
      validateEvents_eq_ok.mpr ⟨events, hdecode, rfl⟩⟩

end Zones

/-! ### Concrete payloads -/

/-- A zone database with every zone named by a string of its own length. -/
def unaryZones : ZoneDb where
  name zone := String.ofList (List.replicate zone.index.toNat 'Z')
  lookup name :=
    if h : UInt16.ofNat name.length ≠ 0 then some ⟨UInt16.ofNat name.length, h⟩ else none
  lookup_name zone := by
    have hindex : UInt16.ofNat
        (String.ofList (List.replicate zone.index.toNat 'Z')).length = zone.index := by
      simp
    simp only [hindex]
    rw [dif_pos zone.nonzero]

/-- A batch with a value of every nested kind and a hash-backed uniqueness constraint. -/
def sampleEvents : List MutationEvent :=
  [.createNode 7 ["City"] (PropertyMap.ofEntries [("at", .point ⟨⟨1⟩, ⟨2⟩, some ⟨3⟩, 4979⟩),
      ("seen", .dateTime ⟨2024, 2, 29, 12, 0, 0, 0, 3600, some ⟨2, by decide⟩⟩),
      ("tags", .list [.map [("k", .binary ⟨[[1], [2, 3]]⟩)], .vector ⟨2, .integer8 [1, -1]⟩])]),
    .createConstraint ⟨"u", .unique, .node, "City", ["name"], .hash⟩ false]

/-- The payload of `sampleEvents`. -/
def samplePayload : Bytes :=
  match encodeEvents unaryZones sampleEvents with
  | .ok bs => bs
  | .error _ => []

theorem sampleEvents_roundTrip : decodeEvents unaryZones samplePayload = .ok sampleEvents ∧
      encodedEventsLen unaryZones sampleEvents = .ok samplePayload.length ∧
      validateEvents unaryZones samplePayload = .ok sampleEvents.length :=
  (encodeEvents_roundTrip_iff (by decide) (by decide +kernel)).mpr (by decide)

/-- A property edit whose vector declares two dimensions and has one coordinate. -/
def wrongDimension : MutationEvent := .setNodeProperty 1 "v" (.vector ⟨2, .integer8 [1]⟩)

/-- The encoder accepts it, and neither replay's check nor the decoder takes it back. -/
theorem wrongDimension_not_roundTrip : wrongDimension.WellTyped ∧
      ∃ bs, encodeEvents unaryZones [wrongDimension] = .ok bs ∧ validateEvents unaryZones bs =
          .error (.decode "vector dimension mismatch: declared 2, got 1") ∧
        decodeEvents unaryZones bs =
          .error (.decode "vector dimension mismatch: declared 2, got 1") :=
  ⟨by decide, [0x4C, 0x57, 0x31, 0x00, 1, 0, 0, 0, 0, 0, 0, 0, 3, 1, 0, 0, 0, 0, 0, 0, 0,
    1, 0, 0, 0, 0, 0, 0, 0, 118, 14, 2, 0, 0, 0, 0, 0, 0, 0, 6, 1, 0, 0, 0, 0, 0, 0, 0, 1],
    by decide, by decide, by decide⟩

end LoraDb.WalCodec
