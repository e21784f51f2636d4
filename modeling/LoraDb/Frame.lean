import LoraDb.Crc32
import LoraDb.WalCodecRoundTrip
import LoraDb.WalRecord

/-!
# Record Frames

A record on disk: its length, its kind, two LSNs, a payload and a checksum over all of
these. Reading a frame is separate from decoding its payload: a frame that does not check
out may be the tail of an interrupted write, but a payload that does not decode inside an
intact frame never is.

## Main results

* `RawRecord.read_append`: a frame reads back, whatever follows it.
* `RawRecord.read_torn`: a proper prefix of a frame is truncated, not anything worse.
-/

open ByteCodec

namespace LoraDb

open List

/-- `length`, `kind`, `lsn` and `tx_begin_lsn`. -/
def RECORD_HEADER_LEN : ℕ := 4 + 1 + 8 + 8

/-- The trailing checksum. -/
def RECORD_TRAILER_LEN : ℕ := 4

/-- The largest record accepted, framing included. -/
def MAX_RECORD_LEN : ℕ := 256 * 1024 * 1024

inductive RecordKind where
  | mutation
  | txBegin
  | txCommit
  | txAbort
  | checkpoint
  | mutationBatch

namespace RecordKind

def toByte : RecordKind → UInt8
  | mutation => 1
  | txBegin => 2
  | txCommit => 3
  | txAbort => 4
  | checkpoint => 5
  | mutationBatch => 6

def fromByte : UInt8 → Except WalError RecordKind
  | 1 => .ok mutation
  | 2 => .ok txBegin
  | 3 => .ok txCommit
  | 4 => .ok txAbort
  | 5 => .ok checkpoint
  | 6 => .ok mutationBatch
  | other => .error (.unknownKind other)

@[simp] theorem fromByte_toByte (kind : RecordKind) : fromByte kind.toByte = .ok kind := by
  cases kind <;> rfl

end RecordKind

/-- Total size of a record with `payloadLen` payload bytes, within the limit. -/
def framedLen (payloadLen : ℕ) : Except WalError ℕ :=
  let total := RECORD_HEADER_LEN + payloadLen + RECORD_TRAILER_LEN
  if sizeLimit ≤ total then .error (.encode "record larger than usize::MAX")
  else if MAX_RECORD_LEN < total then
    .error (.encode s!"record length {total} exceeds maximum {MAX_RECORD_LEN}")
  else .ok total

/-- The bytes a frame's checksum covers. -/
def frameBody (length : ℕ) (kind : UInt8) (lsn txBeginLsn : Lsn) (payload : Bytes) : Bytes :=
  leBytes 4 length ++ (kind :: (leBytes 8 lsn ++ (leBytes 8 txBeginLsn ++ payload)))

/-- Frame a record. `payloadLen` must be the length of the payload. -/
def encodeFrame [Crc32] (kind : RecordKind) (lsn txBeginLsn : Lsn) (payloadLen : ℕ)
    (payload : Except WalError Bytes) : Except WalError Bytes := do
  let total ← framedLen payloadLen
  let payload ← payload
  let body := frameBody total kind.toByte lsn txBeginLsn payload
  if body.length ≠ total - RECORD_TRAILER_LEN then
    .error (.encode "record payload length disagrees with its size estimate")
  else .ok (body ++ leBytes 4 (Crc32.checksum body).toNat)

namespace WalRecord

def kind : WalRecord → RecordKind
  | .mutation _ _ _ => .mutation
  | .mutationBatch _ _ _ => .mutationBatch
  | .txBegin _ => .txBegin
  | .txCommit _ _ => .txCommit
  | .txAbort _ _ => .txAbort
  | .checkpoint _ _ => .checkpoint

/-- What the second LSN of the frame holds: the owning transaction, or the snapshot of a
marker. -/
def txBeginLsn : WalRecord → Lsn
  | .mutation _ t _ | .mutationBatch _ t _ | .txCommit _ t | .txAbort _ t => t
  | .txBegin _ => 0
  | .checkpoint _ snapshotLsn => snapshotLsn

section Zones

variable (zones : ZoneDb)

def encodedPayloadLen : WalRecord → Except WalError ℕ
  | .mutation _ _ event => WalCodec.encodedEventLen zones event
  | .mutationBatch _ _ events => WalCodec.encodedEventsLen zones events
  | .txBegin _ | .txCommit _ _ | .txAbort _ _ | .checkpoint _ _ => .ok 0

def encodePayload : WalRecord → Except WalError Bytes
  | .mutation _ _ event => WalCodec.encodeEventInto zones event
  | .mutationBatch _ _ events => WalCodec.encodeEventsInto zones events
  | .txBegin _ | .txCommit _ _ | .txAbort _ _ | .checkpoint _ _ => .ok []

/-- The frame of a record. -/
def encode [Crc32] (record : WalRecord) : Except WalError Bytes := do
  let payloadLen ← record.encodedPayloadLen zones
  encodeFrame record.kind record.lsn record.txBeginLsn payloadLen (record.encodePayload zones)

end Zones

end WalRecord

/-- A record whose frame checked out and whose payload is not decoded yet. -/
structure RawRecord where
  kind : UInt8
  lsn : Lsn
  txBeginLsn : Lsn
  payload : Bytes

namespace RawRecord

/-- Size of the whole frame. -/
def encodedLen (raw : RawRecord) : ℕ :=
  RECORD_HEADER_LEN + raw.payload.length + RECORD_TRAILER_LEN

/-- Read one frame off the front of `bytes`, with what is left after it; nothing at the end. -/
def read [Crc32] (bytes : Bytes) : Except WalError (Option (RawRecord × Bytes)) :=
  if bytes.length = 0 then .ok none
  else if bytes.length < 4 then .error (.truncated 4 bytes.length)
  else
    let length := leNat (bytes.take 4)
    if length < RECORD_HEADER_LEN + RECORD_TRAILER_LEN then
      .error (.decode s!"record length {length} smaller than fixed framing")
    else if MAX_RECORD_LEN < length then
      .error (.decode s!"record length {length} exceeds maximum {MAX_RECORD_LEN}")
    else if bytes.length < length then
      .error (.truncated (length - 4) (bytes.length - 4))
    else
      let frame := bytes.take length
      let body := frame.take (length - RECORD_TRAILER_LEN)
      let stored := UInt32.ofNat (leNat (frame.drop (length - RECORD_TRAILER_LEN)))
      let actual := Crc32.checksum body
      let lsn := leNat ((frame.drop 5).take 8)
      if stored ≠ actual then .error (.crcMismatch lsn stored actual)
      else .ok (some (⟨(frame.drop 4).headD 0, lsn, leNat ((frame.drop 13).take 8),
        body.drop RECORD_HEADER_LEN⟩, bytes.drop length))

/-- A marker's payload must be empty. -/
def noPayload (raw : RawRecord) (what : String) (record : WalRecord) : Except WalError WalRecord :=
  if raw.payload = [] then .ok record
  else .error (.decode (what ++ " has unexpected payload"))

section Zones

variable (zones : ZoneDb)

def decode (raw : RawRecord) : Except WalError WalRecord := do
  let kind ← RecordKind.fromByte raw.kind
  match kind with
  | .mutation => do
    let event ← WalCodec.decodeEvent zones raw.payload
    .ok (.mutation raw.lsn raw.txBeginLsn event)
  | .mutationBatch => do
    let events ← WalCodec.decodeEvents zones raw.payload
    .ok (.mutationBatch raw.lsn raw.txBeginLsn events)
  | .txBegin => raw.noPayload "TxBegin" (.txBegin raw.lsn)
  | .txCommit => raw.noPayload "TxCommit" (.txCommit raw.lsn raw.txBeginLsn)
  | .txAbort => raw.noPayload "TxAbort" (.txAbort raw.lsn raw.txBeginLsn)
  | .checkpoint => raw.noPayload "Checkpoint" (.checkpoint raw.lsn raw.txBeginLsn)

/-- Decoding for replay checks a batch first, and decodes it when it is applied. -/
def decodeForReplay (raw : RawRecord) : Except WalError WalRecord :=
  if raw.kind ≠ RecordKind.mutationBatch.toByte then raw.decode zones
  else do
    let _ ← WalCodec.validateEvents zones raw.payload
    let events ← WalCodec.decodeEvents zones raw.payload
    .ok (.mutationBatch raw.lsn raw.txBeginLsn events)

end Zones

end RawRecord

/-- A complete frame of a known kind with an LSN above `after` starts at the front of
`bytes`. Replay takes such a frame behind a bad one for more log. -/
def isValidFrameAt [Crc32] (bytes : Bytes) (after : Lsn) : Bool :=
  if bytes.length < RECORD_HEADER_LEN + RECORD_TRAILER_LEN then false
  else
    let length := leNat (bytes.take 4)
    if length < RECORD_HEADER_LEN + RECORD_TRAILER_LEN ∨
        min MAX_RECORD_LEN bytes.length < length then false
    else if (RecordKind.fromByte ((bytes.drop 4).headD 0)).toOption.isNone then false
    else if leNat ((bytes.drop 5).take 8) ≤ after then false
    else
      let body := bytes.take (length - RECORD_TRAILER_LEN)
      let stored := (bytes.drop (length - RECORD_TRAILER_LEN)).take RECORD_TRAILER_LEN
      Crc32.checksum body = UInt32.ofNat (leNat stored)

/-! ### Reading what was framed -/

namespace RawRecord

/-- The frame of a raw record, up to its checksum. -/
def body (raw : RawRecord) : Bytes :=
  frameBody raw.encodedLen raw.kind raw.lsn raw.txBeginLsn raw.payload

/-- The frame of a raw record. -/
def bytes [Crc32] (raw : RawRecord) : Bytes :=
  raw.body ++ leBytes 4 (Crc32.checksum raw.body).toNat

/-- The record can be framed: its LSNs are machine words, and it is within the limit. -/
structure Fits (raw : RawRecord) : Prop where
  lsn : raw.lsn < 256 ^ 8
  txBeginLsn : raw.txBeginLsn < 256 ^ 8
  len : raw.encodedLen ≤ MAX_RECORD_LEN

instance (raw : RawRecord) : Decidable raw.Fits :=
  decidable_of_iff
    (raw.lsn < 256 ^ 8 ∧ raw.txBeginLsn < 256 ^ 8 ∧ raw.encodedLen ≤ MAX_RECORD_LEN)
    ⟨fun ⟨h, h', h''⟩ => ⟨h, h', h''⟩, fun ⟨h, h', h''⟩ => ⟨h, h', h''⟩⟩

@[simp] theorem body_length (raw : RawRecord) :
    raw.body.length = RECORD_HEADER_LEN + raw.payload.length := by
  simp only [body, frameBody, length_append, length_cons, leBytes_length, RECORD_HEADER_LEN]
  omega

@[simp] theorem bytes_length [Crc32] (raw : RawRecord) : raw.bytes.length = raw.encodedLen := by
  simp only [bytes, length_append, body_length, leBytes_length, encodedLen, RECORD_TRAILER_LEN]

theorem encodedLen_pos (raw : RawRecord) :
    RECORD_HEADER_LEN + RECORD_TRAILER_LEN ≤ raw.encodedLen := by
  simp only [encodedLen]
  omega

variable {raw : RawRecord}

/-- Every field of the frame stands where the reader looks for it. -/
theorem bytes_fields [Crc32] (raw : RawRecord) : raw.bytes.take 4 = leBytes 4 raw.encodedLen ∧
      (raw.bytes.drop 4).headD 0 = raw.kind ∧
      (raw.bytes.drop 5).take 8 = leBytes 8 raw.lsn ∧
      (raw.bytes.drop 13).take 8 = leBytes 8 raw.txBeginLsn ∧
      raw.body.drop RECORD_HEADER_LEN = raw.payload := by
  have h5 : leBytes 4 raw.encodedLen ++ [raw.kind] ++ leBytes 8 raw.lsn ++
      leBytes 8 raw.txBeginLsn ++ raw.payload = raw.body := by
    simp [body, frameBody]
  have hb : raw.bytes = leBytes 4 raw.encodedLen ++ ([raw.kind] ++ (leBytes 8 raw.lsn ++
      (leBytes 8 raw.txBeginLsn ++
        (raw.payload ++ leBytes 4 (Crc32.checksum raw.body).toNat)))) := by
    rw [bytes, ← h5]
    simp
  refine ⟨?_, ?_, ?_, ?_, ?_⟩
  · rw [hb, take_left' (leBytes_length 4 _)]
  · rw [hb, drop_left' (leBytes_length 4 _)]
    rfl
  · rw [hb, ← append_assoc (leBytes 4 raw.encodedLen), drop_left' (by simp),
      take_left' (leBytes_length 8 _)]
  · rw [hb, ← append_assoc (leBytes 4 raw.encodedLen), ← append_assoc,
      drop_left' (by simp), take_left' (leBytes_length 8 _)]
  · rw [← h5, drop_left' (by simp [RECORD_HEADER_LEN])]

theorem Fits.leNat_len (h : raw.Fits) : leNat (leBytes 4 raw.encodedLen) = raw.encodedLen :=
  leNat_leBytes (lt_of_le_of_lt h.len (by decide))

theorem checksum_stored (crc : UInt32) : UInt32.ofNat (leNat (leBytes 4 crc.toNat)) = crc := by
  rw [leNat_leBytes (by simpa using crc.toNat_lt)]
  simp

/-- A frame reads back, whatever follows it. -/
theorem read_append [Crc32] (h : raw.Fits) (rest : Bytes) :
    read (raw.bytes ++ rest) = .ok (some (raw, rest)) := by
  obtain ⟨hlen, hkind, hlsn, htx, hpayload⟩ := bytes_fields raw
  have hmin := raw.encodedLen_pos
  have hmin4 : 4 ≤ raw.bytes.length := by
    rw [bytes_length]
    exact le_trans (by decide) hmin
  have hfour : 4 ≤ raw.encodedLen := le_trans (by decide) hmin
  have htotal : (raw.bytes ++ rest).length = raw.encodedLen + rest.length := by simp
  have htake : (raw.bytes ++ rest).take 4 = leBytes 4 raw.encodedLen := by
    rw [take_append_of_le_length hmin4, hlen]
  have hframe : (raw.bytes ++ rest).take raw.encodedLen = raw.bytes :=
    take_left' raw.bytes_length
  have hrest : (raw.bytes ++ rest).drop raw.encodedLen = rest :=
    drop_left' raw.bytes_length
  have hbodyLen : raw.encodedLen - RECORD_TRAILER_LEN = raw.body.length := by simp [encodedLen]
  have hbody : raw.bytes.take (raw.encodedLen - RECORD_TRAILER_LEN) = raw.body := by
    rw [hbodyLen, bytes, take_left' rfl]
  have hcrc : raw.bytes.drop (raw.encodedLen - RECORD_TRAILER_LEN) =
      leBytes 4 (Crc32.checksum raw.body).toNat := by
    rw [hbodyLen, bytes, drop_left' rfl]
  simp only [read, htotal, htake, h.leNat_len, hframe, hrest, hbody, hcrc, hkind, hlsn, htx,
    hpayload, checksum_stored, leNat_leBytes h.lsn, leNat_leBytes h.txBeginLsn]
  rw [if_neg (by omega), if_neg (by omega), if_neg (by omega), if_neg (Nat.not_lt.mpr h.len),
    if_neg (by omega), if_neg (by simp)]

/-- A proper prefix of a frame is truncated. -/
theorem read_torn [Crc32] (h : raw.Fits) {torn : Bytes} (hcut : torn <+: raw.bytes)
    (hne : torn ≠ raw.bytes) (hnil : torn ≠ []) :
    ∃ expected actual, read torn = .error (.truncated expected actual) := by
  obtain ⟨rest, hrest⟩ := hcut
  have hpos : torn.length ≠ 0 := fun h => hnil (List.length_eq_zero_iff.mp h)
  have hlt : torn.length < raw.encodedLen := by
    rw [← bytes_length, ← hrest, length_append]
    have : rest ≠ [] := fun h => hne (by rw [← hrest, h, append_nil])
    have := List.length_pos_iff.mpr this
    omega
  unfold read
  rw [if_neg hpos]
  by_cases hfour : torn.length < 4
  · rw [if_pos hfour]
    exact ⟨_, _, rfl⟩
  · have htake : torn.take 4 = leBytes 4 raw.encodedLen := by
      rw [← (bytes_fields raw).1, ← hrest, take_append_of_le_length (by omega)]
    have hmin := raw.encodedLen_pos
    simp only [htake, h.leNat_len]
    rw [if_neg hfour, if_neg (by omega), if_neg (Nat.not_lt.mpr h.len), if_pos hlt]
    exact ⟨_, _, rfl⟩

end RawRecord

/-! ### The frame of a record -/

/-- A record with its payload encoded. -/
def WalRecord.raw (record : WalRecord) (payload : Bytes) : RawRecord :=
  ⟨record.kind.toByte, record.lsn, record.txBeginLsn, payload⟩

theorem framedLen_eq_ok {payloadLen total : ℕ} : framedLen payloadLen = .ok total ↔
      total = RECORD_HEADER_LEN + payloadLen + RECORD_TRAILER_LEN ∧ total ≤ MAX_RECORD_LEN := by
  have hlimit : MAX_RECORD_LEN < sizeLimit := by decide
  simp only [framedLen]
  split_ifs with hbig hmax
  · simp only [false_iff, not_and]
    omega
  · simp only [false_iff, not_and]
    omega
  · simp only [Except.ok.injEq]
    omega

/-- What is framed is a payload of the announced length, within the limit. -/
theorem encodeFrame_eq_ok [Crc32] {kind : RecordKind} {lsn t : Lsn} {payloadLen : ℕ}
    {payload : Except WalError Bytes} {frame : Bytes} :
    encodeFrame kind lsn t payloadLen payload = .ok frame ↔
      ∃ bs, payload = .ok bs ∧ bs.length = payloadLen ∧
        RawRecord.encodedLen ⟨kind.toByte, lsn, t, bs⟩ ≤ MAX_RECORD_LEN ∧
        frame = RawRecord.bytes ⟨kind.toByte, lsn, t, bs⟩ := by
  have hbody : ∀ (total : ℕ) (bs : Bytes), (frameBody total kind.toByte lsn t bs).length =
      RECORD_HEADER_LEN + bs.length := by
    intro total bs
    simp only [frameBody, length_append, length_cons, leBytes_length, RECORD_HEADER_LEN]
    omega
  simp only [encodeFrame, bind_eq_ok, framedLen_eq_ok, hbody]
  constructor
  · rintro ⟨total, ⟨htotal, hmax⟩, bs, hbs, hframe⟩
    split_ifs at hframe with hlen
    have hlen : bs.length = payloadLen := by
      rw [not_not] at hlen
      omega
    subst hlen
    refine ⟨bs, hbs, rfl, ?_, ?_⟩
    · rw [RawRecord.encodedLen, ← htotal]
      exact hmax
    · rw [Except.ok.injEq] at hframe
      rw [← hframe, RawRecord.bytes, RawRecord.body, RawRecord.encodedLen, ← htotal]
  · rintro ⟨bs, hbs, hlen, hmax, rfl⟩
    subst hlen
    refine ⟨_, ⟨rfl, hmax⟩, bs, hbs, ?_⟩
    rw [if_neg (by rw [not_not]; omega)]
    rfl

section Zones

variable {zones : ZoneDb}

/-- The frame of a record without a payload. -/
theorem encode_marker [Crc32] {record : WalRecord} (hlen : record.encodedPayloadLen zones = .ok 0)
    (hpayload : record.encodePayload zones = .ok []) :
    record.encode zones = .ok (record.raw []).bytes := by
  simp only [WalRecord.encode, hlen, hpayload, bind_eq_ok, encodeFrame_eq_ok]
  exact ⟨0, rfl, [], rfl, rfl, by simp [RawRecord.encodedLen, MAX_RECORD_LEN,
    RECORD_HEADER_LEN, RECORD_TRAILER_LEN], rfl⟩

@[simp] theorem decode_txBegin (lsn : Lsn) :
    ((WalRecord.txBegin lsn).raw []).decodeForReplay zones = .ok (.txBegin lsn) := rfl

@[simp] theorem decode_txCommit (lsn t : Lsn) :
    ((WalRecord.txCommit lsn t).raw []).decodeForReplay zones = .ok (.txCommit lsn t) := rfl

@[simp] theorem decode_checkpoint (lsn snapshotLsn : Lsn) :
    ((WalRecord.checkpoint lsn snapshotLsn).raw []).decodeForReplay zones =
      .ok (.checkpoint lsn snapshotLsn) := rfl

/-- A batch decodes to the events its payload decodes to. -/
theorem decode_mutationBatch {lsn t : Lsn} {events : List MutationEvent} {payload : Bytes}
    (h : WalCodec.decodeEvents zones payload = .ok events) (any : List MutationEvent) :
    ((WalRecord.mutationBatch lsn t any).raw payload).decodeForReplay zones =
      .ok (.mutationBatch lsn t events) := by
  have hvalid := WalCodec.validateEvents_eq_ok.mpr ⟨events, h, rfl⟩
  simp only [RawRecord.decodeForReplay, WalRecord.raw, WalRecord.kind, ne_eq, not_true,
    if_false, hvalid, h, bind, Except.bind]
  rfl

end Zones

end LoraDb
