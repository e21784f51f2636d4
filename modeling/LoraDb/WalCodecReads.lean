import LoraDb.WalCodec

/-!
# The Payload Reader Undoes the Payload Writer

Every `write` function of the payload codec is undone by its `read` function (`Reads`), from
the numeric fields up to whole batches. Two things a value can hold do not come back as
they were written, and they are exactly the conditions of the event theorem:

* a vector whose declared dimension is not its number of coordinates, which the reader
  refuses (`PropertyValue.dimensioned`);
* a **hash backing** on a constraint that owns no index, which the tag has no bit for
  (`ConstraintRequest.backed`).

`MutationEvent.Replayable` collects both, and `readEvent_replayable` shows that nothing else
is ever read.

## Main results

* `readEvent_reads`: a replayable event is read back.
* `decodeEvents_encode`: a batch of them decodes to itself.
* `decodeEvents_replayable`: whatever decodes is replayable.
-/

open List (append_assoc append_nil forall_mem_map length_append mem_cons_self)
open ByteCodec

namespace LoraDb

/-- An event that replay can read back as it was: every vector in it declares the
dimension it has, and a constraint request asks for a hash backing only with an index. -/
def MutationEvent.Replayable (event : MutationEvent) : Prop :=
  (∀ v ∈ event.values, v.dimensioned = true) ∧
    ∀ request ∈ event.constraintRequests, request.backed = true

instance (event : MutationEvent) : Decidable event.Replayable := by
  unfold MutationEvent.Replayable
  infer_instance

namespace WalCodec

/-! ### Numeric fields -/

theorem readU8_reads (b : UInt8) : Reads readU8 [b] b := Reads.byte errors b

theorem readU64_reads {n : ℕ} {bs : Bytes} (hlt : n < idLimit) (h : writeU64 n = .ok bs) :
    Reads readU64 bs n := by
  obtain rfl := writeNat_eq_ok.mp h
  exact Reads.nat errors (by simpa [idLimit] using hlt)

theorem readU32_reads {n : UInt32} {bs : Bytes} (h : writeU32 n = .ok bs) : Reads readU32 bs n :=
  Reads.of_writeNat n.toNat_lt UInt32.ofNat_toNat h

theorem readF64_reads {x : F64} {bs : Bytes} (h : writeF64 x = .ok bs) : Reads readF64 bs x :=
  Reads.of_writeNat x.bits.toNat_lt (by rw [UInt64.ofNat_toNat]) h

theorem readF32_reads {x : F32} {bs : Bytes} (h : writeF32 x = .ok bs) : Reads readF32 bs x :=
  Reads.of_writeNat x.bits.toNat_lt (by rw [UInt32.ofNat_toNat]) h

theorem readI64_reads {n : Int64} {bs : Bytes} (h : writeI64 n = .ok bs) : Reads readI64 bs n :=
  Reads.of_writeNat n.toUInt64.toNat_lt (by rw [UInt64.ofNat_toNat, Int64.toInt64_toUInt64]) h

theorem readI32_reads {n : Int32} {bs : Bytes} (h : writeI32 n = .ok bs) : Reads readI32 bs n :=
  Reads.of_writeNat n.toUInt32.toNat_lt (by rw [UInt32.ofNat_toNat, Int32.toInt32_toUInt32]) h

theorem readI16_reads {n : Int16} {bs : Bytes} (h : writeI16 n = .ok bs) : Reads readI16 bs n :=
  Reads.of_writeNat n.toUInt16.toNat_lt (by rw [UInt16.ofNat_toNat, Int16.toInt16_toUInt16]) h

theorem readI8_reads {n : Int8} {bs : Bytes} (h : writeI8 n = .ok bs) : Reads readI8 bs n := by
  obtain rfl := writeNat_eq_ok.mp h
  have hbyte : leBytes 1 n.toUInt8.toNat = [n.toUInt8] := by simp [leBytes]
  rw [hbyte]
  have hread := (Reads.byte errors n.toUInt8).map fun b => b.toInt8
  rwa [Int8.toInt8_toUInt8] at hread

/-! ### Texts, flags and collections -/

theorem readString_reads {s : String} {bs : Bytes} (h : writeString s = .ok bs) :
    Reads readString bs s :=
  Reads.of_writeText h

theorem writeString_length {s : String} {bs : Bytes} (h : writeString s = .ok bs) :
    8 ≤ bs.length := by
  obtain ⟨-, rfl⟩ := writeText_eq_ok.mp h
  simp

theorem readStringVec_reads {values : List String} {bs : Bytes}
    (h : writeStringVec values = .ok bs) : Reads readStringVec bs values := by
  have hreads :
      Reads (readCount errors "string" >>= fun len => readTimes readString len >>= pure) bs
        values :=
    Reads.collection (fun _ _ _ => readString_reads)
      (fun _ _ _ hw => le_trans (by decide) (writeString_length hw)) (Reads.pure _) h
  simpa only [readStringVec, bind_pure] using hreads

theorem readFlag_reads {b : Bool} {bs : Bytes} (h : writeBool b = .ok bs) :
    Reads readFlag bs b := by
  obtain rfl := writeByte_eq_ok.mp h
  have hread := (readU8_reads (if b then 1 else 0)).map fun b => b != 0
  rwa [StoreCodec.flag_ne_zero] at hread

theorem writeNat_length {k n : ℕ} {bs : Bytes} (hk : 1 ≤ k)
    (h : (writeNat k n : Writer) = .ok bs) : 1 ≤ bs.length := by
  obtain rfl := writeNat_eq_ok.mp h
  simpa using hk

/-- One arm of a vector, for coordinates of at least a byte each: the tag, and a body
that is read back. -/
theorem writeCoordinates_reads {α : Type} {tag : UInt8} {write : α → Writer}
    {values : List α} {bs : Bytes} {read : Reader α} (label : String)
    (build : List α → VectorValues) (hread : ∀ {x w}, write x = .ok w → Reads read w x)
    (hlen : ∀ {x w}, write x = .ok w → 1 ≤ w.length)
    (h : writeCoordinates tag write values = .ok bs) :
    ∃ body, bs = [tag] ++ body ∧ Reads (readCoordinates label read build) body (build values) := by
  obtain ⟨_, htag, body, hbody, rfl⟩ := writeAll_cons.mp h
  obtain rfl := writeByte_eq_ok.mp htag
  exact ⟨body, rfl, Reads.collection (k := fun values => pure (build values))
    (fun _ _ _ => hread) (fun _ _ _ => hlen) (Reads.pure _) hbody⟩

/-- A vector is read back if its dimension is its number of coordinates. -/
theorem readVector_reads {vector : LoraVector} {bs : Bytes}
    (hdim : vector.dimension.toNat = vector.values.len) (h : writeVector vector = .ok bs) :
    Reads readVector bs vector := by
  obtain ⟨_, hlen, _, hrest, rfl⟩ := writeAll_cons.mp h
  rw [writeAll_singleton] at hrest
  obtain ⟨-, rfl⟩ := writeCount_eq_ok.mp hlen
  have hdimension := Reads.nat errors (k := 8) vector.dimension.toNat_lt
  have hlast : Reads (finishVector vector.dimension.toNat vector.values) [] vector := by
    rw [finishVector, if_neg (by simp [hdim]), UInt64.ofNat_toNat]
    exact Reads.pure vector
  refine hdimension.bind ?_
  obtain ⟨dimension, values⟩ := vector
  cases values with
  | float64 values =>
    obtain ⟨body, rfl, hbody⟩ := writeCoordinates_reads _ _ readF64_reads
      (writeNat_length (by decide)) hrest
    exact (readU8_reads 1).bind (hbody.bind_last hlast)
  | float32 values =>
    obtain ⟨body, rfl, hbody⟩ := writeCoordinates_reads _ _ readF32_reads
      (writeNat_length (by decide)) hrest
    exact (readU8_reads 2).bind (hbody.bind_last hlast)
  | integer64 values =>
    obtain ⟨body, rfl, hbody⟩ := writeCoordinates_reads _ _ readI64_reads
      (writeNat_length (by decide)) hrest
    exact (readU8_reads 3).bind (hbody.bind_last hlast)
  | integer32 values =>
    obtain ⟨body, rfl, hbody⟩ := writeCoordinates_reads _ _ readI32_reads
      (writeNat_length (by decide)) hrest
    exact (readU8_reads 4).bind (hbody.bind_last hlast)
  | integer16 values =>
    obtain ⟨body, rfl, hbody⟩ := writeCoordinates_reads _ _ readI16_reads
      (writeNat_length (by decide)) hrest
    exact (readU8_reads 5).bind (hbody.bind_last hlast)
  | integer8 values =>
    obtain ⟨body, rfl, hbody⟩ := writeCoordinates_reads _ _ readI8_reads
      (writeNat_length (by decide)) hrest
    exact (readU8_reads 6).bind (hbody.bind_last hlast)

theorem readBinary_reads {binary : LoraBinary} {bs : Bytes}
    (h : writeBinarySegments binary.segments = .ok bs) : Reads readBinary bs binary := by
  refine Reads.collection (k := fun segments => pure (LoraBinary.mk segments)) ?_ ?_
    (Reads.pure binary) h
  · exact fun _ _ _ => Reads.of_writeBlock
  · intro segment _ w hw
    obtain ⟨-, rfl⟩ := writeBlock_eq_ok.mp hw
    simp only [length_append, leBytes_length]
    omega

/-! ### Property values -/

section Zones

variable {zones : ZoneDb} {bs : Bytes}

theorem readZone_reads {zone : ZoneId}
    (h : writeString (zones.name zone) = .ok bs) : Reads (readZone zones) bs zone := by
  refine (readString_reads h).bind_last ?_
  rw [zones.lookup_name]
  exact Reads.pure zone

theorem readZ_reads {z : Option F64} (h : (match z with
      | some z => writeAll [writeByte 1, writeF64 z]
      | none => writeByte 0) = Except.ok bs) : Reads readZ bs z := by
  cases z with
  | none =>
    obtain rfl := writeByte_eq_ok.mp h
    exact (readU8_reads 0).bind_last (Reads.pure none)
  | some z =>
    simp only [writeAll_cons, writeAll_nil, writeByte_eq_ok] at h
    obtain ⟨_, rfl, _, ⟨_, hz, _, rfl, rfl⟩, rfl⟩ := h
    rw [append_nil]
    exact (readU8_reads 1).bind ((readF64_reads hz).map some)

/-- The eight numeric fields of a date-time. -/
theorem readDateTimeFields_reads {value : LoraDateTime}
    (h : writeAll [writeDateFields value.year value.month value.day,
      writeTimeFields value.hour value.minute value.second value.nanosecond,
      writeI32 value.offsetSeconds] = .ok bs) :
    Reads readDateTimeFields bs { value with zone := none } := by
  simp only [writeDateFields, writeTimeFields, writeAll_cons, writeAll_nil] at h
  obtain ⟨_, ⟨_, hyear, _, ⟨_, hmonth, _, ⟨_, hday, _, rfl, rfl⟩, rfl⟩, rfl⟩, _,
    ⟨_, ⟨_, hhour, _, ⟨_, hminute, _, ⟨_, hsecond, _, ⟨_, hnano, _, rfl, rfl⟩, rfl⟩, rfl⟩,
    rfl⟩, _, ⟨_, hoffset, _, rfl, rfl⟩, rfl⟩, rfl⟩ := h
  simp only [append_nil, append_assoc]
  refine (readI32_reads hyear).bind ((readU32_reads hmonth).bind ((readU32_reads hday).bind ?_))
  refine (readU32_reads hhour).bind ((readU32_reads hminute).bind ?_)
  refine (readU32_reads hsecond).bind ((readU32_reads hnano).bind ?_)
  exact (readI32_reads hoffset).bind_last (Reads.pure _)

variable {v : PropertyValue}

/-- A value other than a list or map is its tag followed by a body that is read back
behind that tag. -/
theorem writeScalar_reads (hdim : v.dimensioned = true) (h : writeScalar zones v = .ok bs) :
    ∃ tag body, bs = [tag] ++ body ∧ tag ≠ 5 ∧ tag ≠ 6 ∧ Reads (readScalar zones tag) body v := by
  cases v with
  | list values | map entries => cases h
  | null =>
    obtain rfl := writeByte_eq_ok.mp h
    exact ⟨0, [], rfl, by decide, by decide, Reads.pure _⟩
  | bool value =>
    obtain ⟨_, hvalue, rfl⟩ := writeAll_tagged h
    exact ⟨1, _, rfl, by decide, by decide, (readFlag_reads hvalue).map _⟩
  | int value =>
    obtain ⟨_, hvalue, rfl⟩ := writeAll_tagged h
    exact ⟨2, _, rfl, by decide, by decide, (readI64_reads hvalue).map _⟩
  | float value =>
    obtain ⟨_, hvalue, rfl⟩ := writeAll_tagged h
    exact ⟨3, _, rfl, by decide, by decide, (readF64_reads hvalue).map _⟩
  | string value =>
    obtain ⟨_, hvalue, rfl⟩ := writeAll_tagged h
    exact ⟨4, _, rfl, by decide, by decide, (readString_reads hvalue).map _⟩
  | binary value =>
    obtain ⟨_, hvalue, rfl⟩ := writeAll_tagged h
    exact ⟨15, _, rfl, by decide, by decide, (readBinary_reads hvalue).map _⟩
  | date value =>
    simp only [writeScalar, writeDateFields, writeAll_cons, writeAll_nil, writeByte_eq_ok] at h
    obtain ⟨_, rfl, _, ⟨_, ⟨_, hyear, _, ⟨_, hmonth, _, ⟨_, hday, _, rfl, rfl⟩, rfl⟩, rfl⟩,
      _, rfl, rfl⟩, rfl⟩ := h
    simp only [append_nil]
    refine ⟨7, _, rfl, by decide, by decide, ?_⟩
    refine (readI32_reads hyear).bind ((readU32_reads hmonth).bind ?_)
    exact (readU32_reads hday).bind_last (Reads.pure _)
  | time value =>
    simp only [writeScalar, writeTimeFields, writeAll_cons, writeAll_nil, writeByte_eq_ok] at h
    obtain ⟨_, rfl, _, ⟨_, ⟨_, hhour, _, ⟨_, hminute, _, ⟨_, hsecond, _, ⟨_, hnano, _, rfl,
      rfl⟩, rfl⟩, rfl⟩, rfl⟩, _, ⟨_, hoffset, _, rfl, rfl⟩, rfl⟩, rfl⟩ := h
    simp only [append_nil, append_assoc]
    refine ⟨8, _, rfl, by decide, by decide, ?_⟩
    refine (readU32_reads hhour).bind ((readU32_reads hminute).bind ?_)
    refine (readU32_reads hsecond).bind ((readU32_reads hnano).bind ?_)
    exact (readI32_reads hoffset).bind_last (Reads.pure _)
  | localTime value =>
    simp only [writeScalar, writeTimeFields, writeAll_cons, writeAll_nil, writeByte_eq_ok] at h
    obtain ⟨_, rfl, _, ⟨_, ⟨_, hhour, _, ⟨_, hminute, _, ⟨_, hsecond, _, ⟨_, hnano, _, rfl,
      rfl⟩, rfl⟩, rfl⟩, rfl⟩, _, rfl, rfl⟩, rfl⟩ := h
    simp only [append_nil]
    refine ⟨9, _, rfl, by decide, by decide, ?_⟩
    refine (readU32_reads hhour).bind ((readU32_reads hminute).bind ?_)
    exact (readU32_reads hsecond).bind ((readU32_reads hnano).bind_last (Reads.pure _))
  | dateTime value =>
    obtain ⟨_, htag, _, hrest, rfl⟩ := writeAll_cons.mp h
    obtain ⟨_, hfields, _, hzone, rfl⟩ := writeAll_cons.mp hrest
    obtain rfl := writeByte_eq_ok.mp htag
    rw [writeAll_singleton] at hzone
    have hfields := readDateTimeFields_reads hfields
    cases hz : value.zone with
    | none =>
      rw [hz] at hzone
      cases hzone
      rw [← hz] at hfields
      simp only [append_nil, Option.isSome_none, Bool.false_eq_true, if_false]
      exact ⟨10, _, rfl, by decide, by decide, hfields.map _⟩
    | some zone =>
      rw [hz] at hzone
      simp only [Option.isSome_some, if_true]
      refine ⟨16, _, rfl, by decide, by decide, ?_⟩
      refine hfields.bind ((readZone_reads hzone).bind_last ?_)
      rw [← hz]
      exact Reads.pure _
  | localDateTime value =>
    simp only [writeScalar, writeDateFields, writeTimeFields, writeAll_cons, writeAll_nil,
      writeByte_eq_ok] at h
    obtain ⟨_, rfl, _, ⟨_, ⟨_, hyear, _, ⟨_, hmonth, _, ⟨_, hday, _, rfl, rfl⟩, rfl⟩, rfl⟩,
      _, ⟨_, ⟨_, hhour, _, ⟨_, hminute, _, ⟨_, hsecond, _, ⟨_, hnano, _, rfl, rfl⟩, rfl⟩,
      rfl⟩, rfl⟩, _, rfl, rfl⟩, rfl⟩, rfl⟩ := h
    simp only [append_nil, append_assoc]
    refine ⟨11, _, rfl, by decide, by decide, ?_⟩
    refine (readI32_reads hyear).bind ((readU32_reads hmonth).bind ?_)
    refine (readU32_reads hday).bind ((readU32_reads hhour).bind ?_)
    refine (readU32_reads hminute).bind ((readU32_reads hsecond).bind ?_)
    exact (readU32_reads hnano).bind_last (Reads.pure _)
  | duration value =>
    simp only [writeScalar, writeAll_cons, writeAll_nil, writeByte_eq_ok] at h
    obtain ⟨_, rfl, _, ⟨_, hmonths, _, ⟨_, hdays, _, ⟨_, hseconds, _, ⟨_, hnanos, _, rfl,
      rfl⟩, rfl⟩, rfl⟩, rfl⟩, rfl⟩ := h
    simp only [append_nil]
    refine ⟨12, _, rfl, by decide, by decide, ?_⟩
    refine (readI64_reads hmonths).bind ((readI64_reads hdays).bind ?_)
    exact (readI64_reads hseconds).bind ((readI64_reads hnanos).bind_last (Reads.pure _))
  | point value =>
    simp only [writeScalar, writeAll_cons, writeAll_nil, writeByte_eq_ok] at h
    obtain ⟨_, rfl, _, ⟨_, hx, _, ⟨_, hy, _, ⟨_, hz, _, ⟨_, hsrid, _, rfl, rfl⟩, rfl⟩, rfl⟩,
      rfl⟩, rfl⟩ := h
    simp only [append_nil]
    refine ⟨13, _, rfl, by decide, by decide, ?_⟩
    refine (readF64_reads hx).bind ((readF64_reads hy).bind ((readZ_reads hz).bind ?_))
    exact (readU32_reads hsrid).bind_last (Reads.pure _)
  | vector value =>
    obtain ⟨_, hvalue, rfl⟩ := writeAll_tagged h
    refine ⟨14, _, rfl, by decide, by decide, ?_⟩
    exact (readVector_reads (PropertyValue.dimensioned_vector.mp hdim) hvalue).map _

theorem writeValuesAt_eq (depth : ℕ) (values : List PropertyValue) :
    writeValuesAt zones depth values = writeEach (writeValueAt zones depth) values := by
  induction values with
  | nil => rfl
  | cons v vs ih => rw [writeValuesAt, ih, writeEach_cons]

/-- The writer of a map entry at some depth. -/
def writeEntry (zones : ZoneDb) (depth : ℕ) (entry : String × PropertyValue) : Writer :=
  writeAll [writeString entry.1, writeValueAt zones depth entry.2]

theorem writeEntriesAt_eq (depth : ℕ) (entries : List (String × PropertyValue)) :
    writeEntriesAt zones depth entries = writeEach (writeEntry zones depth) entries := by
  induction entries with
  | nil => rfl
  | cons e es ih =>
    rw [writeEntriesAt, ih, writeEach_cons]
    rfl

variable {depth : ℕ}

theorem readEntry_reads {readValue : Reader PropertyValue}
    {entry : String × PropertyValue} (h : writeEntry zones depth entry = .ok bs)
    (hvalue : ∀ w, writeValueAt zones depth entry.2 = .ok w → Reads readValue w entry.2) :
    Reads (readEntry readValue) bs entry := by
  simp only [writeEntry, writeAll_cons, writeAll_nil] at h
  obtain ⟨_, hkey, _, ⟨_, hw, _, rfl, rfl⟩, rfl⟩ := h
  rw [append_nil]
  exact (readString_reads hkey).bind ((hvalue _ hw).bind_last (Reads.pure entry))

theorem writeEntry_length {entry : String × PropertyValue}
    (h : writeEntry zones depth entry = .ok bs) : 1 ≤ bs.length := by
  simp only [writeEntry, writeAll_cons] at h
  obtain ⟨key, hkey, _, -, rfl⟩ := h
  have := writeString_length hkey
  simp only [length_append]
  omega

theorem enterContainer_eq_ok {depth depth' : ℕ} :
    enterContainer depth = .ok depth' ↔ depth < MAX_VALUE_DEPTH ∧ depth' = depth + 1 := by
  unfold enterContainer
  split
  · simp only [reduceCtorEq, false_iff]
    omega
  · simp only [Except.ok.injEq]
    omega

/-- Every value takes at least its tag. -/
theorem writeScalar_length (h : writeScalar zones v = .ok bs) : 1 ≤ bs.length := by
  cases v with
  | list values | map entries => cases h
  | null =>
    obtain rfl := writeByte_eq_ok.mp h
    simp
  | bool value | int value | float value | string value | binary value | date value
  | time value | localTime value | dateTime value | localDateTime value | duration value
  | point value | vector value =>
    simp only [writeScalar, writeAll_cons, writeByte_eq_ok] at h
    obtain ⟨_, rfl, _, -, rfl⟩ := h
    simp

theorem writeValueAt_length (h : writeValueAt zones depth v = .ok bs) : 1 ≤ bs.length := by
  cases v with
  | list values | map entries =>
    obtain ⟨_, -, h⟩ := bind_eq_ok.mp h
    simp only [writeAll_cons, writeByte_eq_ok] at h
    obtain ⟨_, rfl, _, -, rfl⟩ := h
    simp
  | null | bool _ | int _ | float _ | string _ | binary _ | date _ | time _ | localTime _
  | dateTime _ | localDateTime _ | duration _ | point _ | vector _ =>
    simp only [writeValueAt] at h
    exact writeScalar_length h

/-- At every level, the reader is one level around some inner reader, or none. -/
theorem readValueWithin_eq (levels : ℕ) :
    ∃ enter, readValueWithin zones levels = readValueAt zones enter := by
  cases levels with
  | zero => exact ⟨none, rfl⟩
  | succ levels => exact ⟨some (readValueWithin zones levels), rfl⟩

/-- A scalar is read back at any level. -/
theorem readValueWithin_scalar (levels : ℕ)
    (hdim : v.dimensioned = true) (h : writeScalar zones v = .ok bs) :
    Reads (readValueWithin zones levels) bs v := by
  obtain ⟨tag, body, rfl, hlist, hmap, hbody⟩ := writeScalar_reads hdim h
  obtain ⟨enter, heq⟩ : ∃ enter, readValueWithin zones levels = readValueAt zones enter :=
    readValueWithin_eq levels
  rw [heq]
  refine (readU8_reads tag).bind ?_
  split
  · exact absurd rfl hlist
  · exact absurd rfl hmap
  · exact hbody

/-- A value written `depth` containers deep is read back with the levels left at that
depth. -/
theorem readValueWithin_reads (hkeyed : v.keyed = true) (hdim : v.dimensioned = true)
    (h : writeValueAt zones depth v = .ok bs) :
    Reads (readValueWithin zones (MAX_VALUE_DEPTH - depth)) bs v := by
  induction v generalizing depth bs with
  | list values ih =>
    obtain ⟨_, henter, hall⟩ := bind_eq_ok.mp h
    obtain ⟨hdepth, rfl⟩ := enterContainer_eq_ok.mp henter
    have hlevels : MAX_VALUE_DEPTH - depth = MAX_VALUE_DEPTH - (depth + 1) + 1 := by omega
    rw [writeValuesAt_eq, writeAll_cons] at hall
    obtain ⟨_, htag, body, hbody, rfl⟩ := hall
    obtain rfl := writeByte_eq_ok.mp htag
    rw [hlevels, readValueWithin]
    refine (readU8_reads 5).bind ?_
    refine Reads.collection (k := fun values => pure (PropertyValue.list values)) ?_ ?_
      (Reads.pure _) hbody
    · exact fun v hv _ => ih v hv (PropertyValue.keyed_list.mp hkeyed v hv)
        (PropertyValue.dimensioned_list.mp hdim v hv)
    · exact fun _ _ _ => writeValueAt_length
  | map entries ih =>
    obtain ⟨hsorted, hkeyed⟩ := PropertyValue.keyed_map.mp hkeyed
    obtain ⟨_, henter, hall⟩ := bind_eq_ok.mp h
    obtain ⟨hdepth, rfl⟩ := enterContainer_eq_ok.mp henter
    have hlevels : MAX_VALUE_DEPTH - depth = MAX_VALUE_DEPTH - (depth + 1) + 1 := by omega
    rw [writeEntriesAt_eq, writeAll_cons] at hall
    obtain ⟨_, htag, body, hbody, rfl⟩ := hall
    obtain rfl := writeByte_eq_ok.mp htag
    rw [hlevels, readValueWithin]
    refine (readU8_reads 6).bind ?_
    refine Reads.collection
      (k := fun entries => pure (PropertyValue.map (SortedMap.putAll [] entries)))
      ?_ ?_ ?_ hbody
    · exact fun e he w hw => readEntry_reads hw fun w' =>
        ih e he (hkeyed e he) (PropertyValue.dimensioned_map.mp hdim e he)
    · exact fun _ _ _ => writeEntry_length
    · rw [hsorted.putAll_nil]
      exact Reads.pure _
  | null | bool _ | int _ | float _ | string _ | binary _ | date _ | time _ | localTime _
  | dateTime _ | localDateTime _ | duration _ | point _ | vector _ =>
    exact readValueWithin_scalar _ hdim h

theorem readValue_reads (hkeyed : v.keyed = true)
    (hdim : v.dimensioned = true) (h : writeValue zones v = .ok bs) :
    Reads (readValue zones) bs v :=
  readValueWithin_reads hkeyed hdim h

theorem readProperties_reads {properties : PropertyMap}
    (hkeyed : ∀ e ∈ properties.entries, e.2.keyed = true)
    (hdim : ∀ e ∈ properties.entries, e.2.dimensioned = true)
    (h : writeProperties zones properties = .ok bs) :
    Reads (readProperties zones) bs properties := by
  have hlast : Reads (pure (PropertyMap.ofEntries properties.entries) : Reader PropertyMap) []
      properties := by
    rw [properties.ofEntries_entries]
    exact Reads.pure properties
  refine Reads.collection (k := fun entries => pure (PropertyMap.ofEntries entries)) ?_ ?_
    hlast h
  · exact fun e he w hw => readEntry_reads hw fun w' => readValue_reads (hkeyed e he) (hdim e he)
  · exact fun _ _ _ => writeEntry_length

/-! ### Events -/

theorem encodeRequest_eq_ok {what : String} {encoded : StoreCodec.Writer} :
    encodeRequest what encoded = .ok bs ↔ encoded = .ok bs := by
  cases encoded <;> simp [encodeRequest, Except.mapError]

/-- A schema request behind its length prefix. -/
theorem readRequest_reads {α : Type} (what : String) {request : α} {bytes bs : Bytes}
    {decode : Bytes → Except StoreCodec.StoreCodecError α}
    (hdecode : bytes.length < sizeLimit → decode bytes = .ok request)
    (h : writeBlock errors bytes = .ok bs) : Reads (readRequest what decode) bs request := by
  obtain ⟨hlt, -⟩ := writeBlock_eq_ok.mp h
  refine (Reads.of_writeBlock h).bind_last ?_
  rw [hdecode hlt]
  exact Reads.pure request

variable {event : MutationEvent}

/-- A replayable event is read back. -/
theorem readEvent_reads (htyped : event.WellTyped)
    (hreplay : event.Replayable) (h : writeEvent zones event = .ok bs) :
    Reads (readEvent zones) bs event := by
  obtain ⟨hids, hkeyed, hoptions⟩ := htyped
  obtain ⟨hdim, hbacked⟩ := hreplay
  cases event with
  | createNode id labels properties =>
    simp only [writeEvent, writeAll_cons, writeAll_nil, writeByte_eq_ok] at h
    obtain ⟨_, rfl, _, ⟨_, hid, _, ⟨_, hlabels, _, ⟨_, hprops, _, rfl, rfl⟩, rfl⟩, rfl⟩, rfl⟩ := h
    rw [append_nil]
    simp only [MutationEvent.values, forall_mem_map] at hkeyed hdim
    refine (readU8_reads 1).bind ((readU64_reads (hids _ mem_cons_self) hid).bind ?_)
    refine (readStringVec_reads hlabels).bind ?_
    exact (readProperties_reads hkeyed hdim hprops).bind_last (Reads.pure _)
  | createRelationship id src dst relType properties =>
    simp only [writeEvent, writeAll_cons, writeAll_nil, writeByte_eq_ok] at h
    obtain ⟨_, rfl, _, ⟨_, hid, _, ⟨_, hsrc, _, ⟨_, hdst, _, ⟨_, htype, _, ⟨_, hprops, _,
      rfl, rfl⟩, rfl⟩, rfl⟩, rfl⟩, rfl⟩, rfl⟩ := h
    rw [append_nil]
    simp only [MutationEvent.values, forall_mem_map] at hkeyed hdim
    refine (readU8_reads 2).bind ((readU64_reads (hids _ mem_cons_self) hid).bind ?_)
    refine (readU64_reads (hids src (by simp [MutationEvent.ids])) hsrc).bind ?_
    refine (readU64_reads (hids dst (by simp [MutationEvent.ids])) hdst).bind ?_
    refine (readString_reads htype).bind ?_
    exact (readProperties_reads hkeyed hdim hprops).bind_last (Reads.pure _)
  | setNodeProperty nodeId key value =>
    simp only [writeEvent, writeAll_cons, writeAll_nil, writeByte_eq_ok] at h
    obtain ⟨_, rfl, _, ⟨_, hid, _, ⟨_, hkey, _, ⟨_, hvalue, _, rfl, rfl⟩, rfl⟩, rfl⟩, rfl⟩ := h
    rw [append_nil]
    refine (readU8_reads 3).bind ((readU64_reads (hids _ mem_cons_self) hid).bind ?_)
    refine (readString_reads hkey).bind ?_
    exact (readValue_reads (hkeyed value (by simp [MutationEvent.values]))
      (hdim value (by simp [MutationEvent.values])) hvalue).bind_last (Reads.pure _)
  | removeNodeProperty nodeId key =>
    obtain ⟨_, _, hid, hkey, rfl⟩ := writeAll_tagged_two h
    refine (readU8_reads 4).bind ((readU64_reads (hids _ mem_cons_self) hid).bind ?_)
    exact (readString_reads hkey).bind_last (Reads.pure _)
  | addNodeLabel nodeId label =>
    obtain ⟨_, _, hid, hkey, rfl⟩ := writeAll_tagged_two h
    refine (readU8_reads 5).bind ((readU64_reads (hids _ mem_cons_self) hid).bind ?_)
    exact (readString_reads hkey).bind_last (Reads.pure _)
  | removeNodeLabel nodeId label =>
    obtain ⟨_, _, hid, hkey, rfl⟩ := writeAll_tagged_two h
    refine (readU8_reads 6).bind ((readU64_reads (hids _ mem_cons_self) hid).bind ?_)
    exact (readString_reads hkey).bind_last (Reads.pure _)
  | setRelationshipProperty relId key value =>
    simp only [writeEvent, writeAll_cons, writeAll_nil, writeByte_eq_ok] at h
    obtain ⟨_, rfl, _, ⟨_, hid, _, ⟨_, hkey, _, ⟨_, hvalue, _, rfl, rfl⟩, rfl⟩, rfl⟩, rfl⟩ := h
    rw [append_nil]
    refine (readU8_reads 7).bind ((readU64_reads (hids _ mem_cons_self) hid).bind ?_)
    refine (readString_reads hkey).bind ?_
    exact (readValue_reads (hkeyed value (by simp [MutationEvent.values]))
      (hdim value (by simp [MutationEvent.values])) hvalue).bind_last (Reads.pure _)
  | removeRelationshipProperty relId key =>
    obtain ⟨_, _, hid, hkey, rfl⟩ := writeAll_tagged_two h
    refine (readU8_reads 8).bind ((readU64_reads (hids _ mem_cons_self) hid).bind ?_)
    exact (readString_reads hkey).bind_last (Reads.pure _)
  | deleteRelationship relId =>
    obtain ⟨_, hid, rfl⟩ := writeAll_tagged h
    exact (readU8_reads 9).bind ((readU64_reads (hids _ mem_cons_self) hid).map _)
  | deleteNode nodeId =>
    obtain ⟨_, hid, rfl⟩ := writeAll_tagged h
    exact (readU8_reads 10).bind ((readU64_reads (hids _ mem_cons_self) hid).map _)
  | detachDeleteNode nodeId =>
    obtain ⟨_, hid, rfl⟩ := writeAll_tagged h
    exact (readU8_reads 11).bind ((readU64_reads (hids _ mem_cons_self) hid).map _)
  | clear =>
    obtain rfl := writeByte_eq_ok.mp h
    exact (readU8_reads 12).bind_last (Reads.pure _)
  | createIndex request ifNotExists =>
    obtain ⟨bytes, hencode, h⟩ := bind_eq_ok.mp h
    obtain ⟨_, _, hblock, hflag, rfl⟩ := writeAll_tagged_two h
    simp only [MutationEvent.options, forall_mem_map] at hoptions
    have hrequest := readRequest_reads "CreateIndex"
      (StoreCodec.decodeIndexRequest_encode hoptions (encodeRequest_eq_ok.mp hencode)) hblock
    refine (readU8_reads 13).bind (hrequest.bind ?_)
    exact (readFlag_reads hflag).bind_last (Reads.pure _)
  | dropIndex name ifExists =>
    obtain ⟨_, _, hname, hflag, rfl⟩ := writeAll_tagged_two h
    refine (readU8_reads 14).bind ((readString_reads hname).bind ?_)
    exact (readFlag_reads hflag).bind_last (Reads.pure _)
  | createConstraint request ifNotExists =>
    obtain ⟨bytes, hencode, h⟩ := bind_eq_ok.mp h
    obtain ⟨_, _, hblock, hflag, rfl⟩ := writeAll_tagged_two h
    have hrequest := readRequest_reads "CreateConstraint"
      (StoreCodec.decodeConstraintRequest_encode (hbacked request mem_cons_self)
        (encodeRequest_eq_ok.mp hencode)) hblock
    refine (readU8_reads 15).bind (hrequest.bind ?_)
    exact (readFlag_reads hflag).bind_last (Reads.pure _)
  | dropConstraint name ifExists =>
    obtain ⟨_, _, hname, hflag, rfl⟩ := writeAll_tagged_two h
    refine (readU8_reads 16).bind ((readString_reads hname).bind ?_)
    exact (readFlag_reads hflag).bind_last (Reads.pure _)

/-- Every event takes at least its tag. -/
theorem writeEvent_length (h : writeEvent zones event = .ok bs) : 1 ≤ bs.length := by
  cases event with
  | clear =>
    obtain rfl := writeByte_eq_ok.mp h
    simp
  | createIndex request flag | createConstraint request flag =>
    obtain ⟨_, -, h⟩ := bind_eq_ok.mp h
    simp only [writeAll_cons, writeByte_eq_ok] at h
    obtain ⟨_, rfl, _, -, rfl⟩ := h
    simp
  | _ =>
    simp only [writeEvent, writeAll_cons, writeByte_eq_ok] at h
    obtain ⟨_, rfl, _, -, rfl⟩ := h
    simp

/-- A batch of replayable events decodes to itself. -/
theorem decodeEvents_encode {events : List MutationEvent}
    (htyped : ∀ event ∈ events, event.WellTyped)
    (hreplay : ∀ event ∈ events, event.Replayable)
    (h : encodeEventsInto zones events = .ok bs) (hlt : bs.length < sizeLimit) :
    decodeEvents zones bs = .ok events := by
  obtain ⟨_, hmagic, payload, hpayload, rfl⟩ := writeAll_cons.mp h
  obtain rfl := Except.ok.inj hmagic
  have hreads : Reads (readCount errors "WAL event" >>= fun len =>
        readTimes (readEvent zones) len >>= pure) payload events :=
    Reads.collection
      (fun event hmem _ hw => readEvent_reads (htyped event hmem) (hreplay event hmem) hw)
      (fun _ _ _ => writeEvent_length) (Reads.pure _) hpayload
  simp only [bind_pure] at hreads
  rw [length_append] at hlt
  have hdecode := hreads.readAll (by omega) trailing
  simpa [decodeEvents, stripMagic, PAYLOAD_MAGIC, bind, Except.bind] using hdecode

/-! ### What a payload can decode to -/

theorem readVector_dimensioned :
    Yields readVector fun vector => vector.dimension.toNat = vector.values.len := by
  have hdimension : Yields readU64 fun n => n < 2 ^ 64 := by
    intro c n c' h
    obtain ⟨bs, _, hread, heq⟩ := map_run_eq_ok.mp h
    obtain ⟨rfl, -⟩ := Prod.mk.inj heq
    have hlen := readExact_length hread
    simpa [hlen] using leNat_lt bs
  refine hdimension.bind fun dimension hlt => ?_
  refine Yields.after fun tag => Yields.after fun values => ?_
  unfold finishVector
  split
  · exact Yields.fail
  · next heq =>
      refine Yields.pure ?_
      simp only [UInt64.toNat_ofNat', Nat.mod_eq_of_lt hlt]
      exact (not_not.mp heq).symm

/-- No tag but that of a vector yields anything with a dimension to be wrong. -/
theorem readScalar_dimensioned (tag : UInt8) :
    Yields (readScalar zones tag) fun v => v.dimensioned = true := by
  unfold readScalar
  split
  · exact Yields.pure rfl
  · exact Yields.map fun _ => rfl
  · exact Yields.map fun _ => rfl
  · exact Yields.map fun _ => rfl
  · exact Yields.map fun _ => rfl
  · exact Yields.map fun _ => rfl
  · exact Yields.after fun _ => Yields.after fun _ => Yields.after fun _ => Yields.pure rfl
  · exact Yields.after fun _ => Yields.after fun _ => Yields.after fun _ =>
      Yields.after fun _ => Yields.after fun _ => Yields.pure rfl
  · exact Yields.after fun _ => Yields.after fun _ => Yields.after fun _ =>
      Yields.after fun _ => Yields.pure rfl
  · exact Yields.map fun _ => rfl
  · exact Yields.after fun _ => Yields.after fun _ => Yields.pure rfl
  · exact Yields.after fun _ => Yields.after fun _ => Yields.after fun _ =>
      Yields.after fun _ => Yields.after fun _ => Yields.after fun _ => Yields.after fun _ =>
      Yields.pure rfl
  · exact Yields.after fun _ => Yields.after fun _ => Yields.after fun _ =>
      Yields.after fun _ => Yields.pure rfl
  · exact Yields.after fun _ => Yields.after fun _ => Yields.after fun _ =>
      Yields.after fun _ => Yields.pure rfl
  · rw [← bind_pure_comp]
    exact readVector_dimensioned.bind fun v hv =>
      Yields.pure (PropertyValue.dimensioned_vector.mpr hv)
  · exact Yields.fail

theorem readEntry_dimensioned {readValue : Reader PropertyValue}
    (h : Yields readValue fun v => v.dimensioned = true) :
    Yields (readEntry readValue) fun e => e.2.dimensioned = true :=
  Yields.after fun _ => h.bind fun _ hv => Yields.pure hv

/-- One level of the value reader, around an inner reader that yields only dimensioned
values. -/
theorem readValueAt_dimensioned {enter : Option (Reader PropertyValue)}
    (h : ∀ readValue ∈ enter, Yields readValue fun v => v.dimensioned = true) :
    Yields (readValueAt zones enter) fun v => v.dimensioned = true := by
  refine Yields.after fun tag => ?_
  split
  · cases enter with
    | none => exact Yields.fail
    | some readValue =>
      refine Yields.after fun len => ((h readValue rfl).times len).bind fun values hvalues => ?_
      exact Yields.pure (PropertyValue.dimensioned_list.mpr hvalues.2)
  · cases enter with
    | none => exact Yields.fail
    | some readValue =>
      refine Yields.after fun len =>
        ((readEntry_dimensioned (h readValue rfl)).times len).bind fun entries hentries => ?_
      refine Yields.pure (PropertyValue.dimensioned_map.mpr fun e he => ?_)
      rcases SortedMap.mem_putAll he with he | he
      · cases he
      · exact hentries.2 e he
  · exact readScalar_dimensioned _

theorem readValueWithin_dimensioned (levels : ℕ) :
    Yields (readValueWithin zones levels) fun v => v.dimensioned = true := by
  induction levels with
  | zero => exact readValueAt_dimensioned (by simp)
  | succ levels ih =>
    refine readValueAt_dimensioned fun readValue hmem => ?_
    obtain rfl := Option.some.inj hmem
    exact ih

theorem readProperties_dimensioned :
    Yields (readProperties zones) fun m => ∀ e ∈ m.entries, e.2.dimensioned = true := by
  refine Yields.after fun len =>
    ((readEntry_dimensioned (readValueWithin_dimensioned _)).times len).bind
      fun entries hentries => Yields.pure fun e he => ?_
  rcases SortedMap.mem_putAll he with he | he
  · cases he
  · exact hentries.2 e he

/-- An event that carries neither values nor a constraint request is replayable. -/
theorem replayable_of_values_nil (hvalues : event.values = [])
    (hrequests : event.constraintRequests = []) : event.Replayable :=
  ⟨by simp [hvalues], by simp [hrequests]⟩

theorem readConstraint_backed :
    Yields (readRequest "CreateConstraint" StoreCodec.decodeConstraintRequest)
      fun request => request.backed = true := by
  refine Yields.after fun bytes => ?_
  split
  · next heq => exact Yields.pure (StoreCodec.decodeConstraintRequest_backed heq)
  · exact Yields.fail

theorem readEvent_replayable : Yields (readEvent zones) MutationEvent.Replayable := by
  refine Yields.after fun tag => ?_
  unfold readEventBody
  split
  · refine Yields.after fun id => Yields.after fun labels =>
      readProperties_dimensioned.bind fun properties hdim => Yields.pure ⟨?_, nofun⟩
    exact forall_mem_map.mpr hdim
  · refine Yields.after fun id => Yields.after fun src => Yields.after fun dst =>
      Yields.after fun relType =>
        readProperties_dimensioned.bind fun properties hdim => Yields.pure ⟨?_, nofun⟩
    exact forall_mem_map.mpr hdim
  · refine Yields.after fun id => Yields.after fun key =>
      (readValueWithin_dimensioned _).bind fun value hdim => Yields.pure ⟨?_, nofun⟩
    simpa [MutationEvent.values] using hdim
  · exact Yields.after fun _ => Yields.after fun _ =>
      Yields.pure (replayable_of_values_nil rfl rfl)
  · exact Yields.after fun _ => Yields.after fun _ =>
      Yields.pure (replayable_of_values_nil rfl rfl)
  · exact Yields.after fun _ => Yields.after fun _ =>
      Yields.pure (replayable_of_values_nil rfl rfl)
  · refine Yields.after fun id => Yields.after fun key =>
      (readValueWithin_dimensioned _).bind fun value hdim => Yields.pure ⟨?_, nofun⟩
    simpa [MutationEvent.values] using hdim
  · exact Yields.after fun _ => Yields.after fun _ =>
      Yields.pure (replayable_of_values_nil rfl rfl)
  · exact Yields.map fun _ => replayable_of_values_nil rfl rfl
  · exact Yields.map fun _ => replayable_of_values_nil rfl rfl
  · exact Yields.map fun _ => replayable_of_values_nil rfl rfl
  · exact Yields.pure (replayable_of_values_nil rfl rfl)
  · exact Yields.after fun _ => Yields.after fun _ =>
      Yields.pure (replayable_of_values_nil rfl rfl)
  · exact Yields.after fun _ => Yields.after fun _ =>
      Yields.pure (replayable_of_values_nil rfl rfl)
  · refine readConstraint_backed.bind fun request hbacked => Yields.after fun flag =>
      Yields.pure ⟨by simp [MutationEvent.values], ?_⟩
    simpa [MutationEvent.constraintRequests] using hbacked
  · exact Yields.after fun _ => Yields.after fun _ =>
      Yields.pure (replayable_of_values_nil rfl rfl)
  · exact Yields.fail

/-- Whatever decodes is replayable. -/
theorem decodeEvents_replayable {events : List MutationEvent}
    (h : decodeEvents zones bs = .ok events) : ∀ event ∈ events, event.Replayable := by
  obtain ⟨payload, -, h⟩ := bind_eq_ok.mp h
  have hevent : Yields (readEvent zones) MutationEvent.Replayable := readEvent_replayable
  have hyields := Yields.after (r := readCount errors "WAL event") fun len =>
    (hevent.times len).mono fun _ hall => hall.2
  exact hyields.readAll h

end Zones

end WalCodec

end LoraDb
