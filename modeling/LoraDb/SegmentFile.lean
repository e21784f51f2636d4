import LoraDb.Frame

/-!
# Segment Files

A segment is a header followed by frames. The header holds the first LSN of the segment and
whether it is sealed, under its own checksum.

## Main results

* `SegmentHeader.decode_encode`: a header reads back.
* `SegmentHeader.decode_torn_baseLsn`: a header caught while it is being rewritten as sealed
  either does not decode or still names the same first LSN.
-/

open ByteCodec

namespace LoraDb

open List

def SEGMENT_MAGIC : Bytes := [0x4C, 0x4F, 0x52, 0x41, 0x57, 0x41, 0x4C, 0x00]

def SEGMENT_FORMAT_VERSION : ℕ := 1

def SEGMENT_MIN_SUPPORTED_FORMAT_VERSION : ℕ := 1

/-- The header, its checksum included. -/
def SEGMENT_HEADER_LEN : ℕ := 32

def FLAG_SEALED : ℕ := 1

structure SegmentHeader where
  formatVersion : ℕ
  baseLsn : Lsn
  sealed : Bool

variable [Crc32]

namespace SegmentHeader

/-- The header of a new segment. -/
def new (baseLsn : Lsn) : SegmentHeader := ⟨SEGMENT_FORMAT_VERSION, baseLsn, false⟩

/-- The header up to its checksum. -/
def body (h : SegmentHeader) : Bytes :=
  SEGMENT_MAGIC ++ (leBytes 4 h.formatVersion ++ (leBytes 8 h.baseLsn ++
    (leBytes 4 (if h.sealed then FLAG_SEALED else 0) ++ leBytes 4 0)))

def encode (h : SegmentHeader) : Bytes :=
  h.body ++ leBytes 4 (Crc32.checksum h.body).toNat

def decode (bytes : Bytes) : Except WalError SegmentHeader :=
  if bytes.length < SEGMENT_HEADER_LEN then
    .error (.truncated SEGMENT_HEADER_LEN bytes.length)
  else if bytes.take 8 ≠ SEGMENT_MAGIC then .error (.badSegmentHeader "bad magic")
  else
    let storedCrc := UInt32.ofNat (leNat ((bytes.drop 28).take 4))
    if Crc32.checksum (bytes.take 28) ≠ storedCrc then
      .error (.badSegmentHeader "header crc mismatch")
    else
      let formatVersion := leNat ((bytes.drop 8).take 4)
      if formatVersion < SEGMENT_MIN_SUPPORTED_FORMAT_VERSION ∨
          SEGMENT_FORMAT_VERSION < formatVersion then
        .error (.badSegmentHeader "unsupported format version")
      else
        let flags := leNat ((bytes.drop 20).take 4)
        .ok ⟨formatVersion, leNat ((bytes.drop 12).take 8), flags &&& FLAG_SEALED ≠ 0⟩

end SegmentHeader

/-- Open a segment for reading: its header. -/
def readHeader (file : Bytes) : Except WalError SegmentHeader :=
  if file.length < SEGMENT_HEADER_LEN then .error .io
  else SegmentHeader.decode (file.take SEGMENT_HEADER_LEN)

/-- The offset of the first complete frame of a record above `after` that starts after
`offset`, if any. -/
def findValidFrameAfter (file : Bytes) (offset : ℕ) (after : Lsn) : Option ℕ :=
  let tail := file.drop offset
  ((range' 1 (tail.length - 1)).find? fun i => isValidFrameAt (tail.drop i) after).map
    (offset + ·)

namespace SegmentHeader

omit [Crc32] in
@[simp] theorem body_length (h : SegmentHeader) : h.body.length = 28 := by
  simp [body, SEGMENT_MAGIC]

@[simp] theorem encode_length (h : SegmentHeader) : h.encode.length = SEGMENT_HEADER_LEN := by
  simp [encode, SEGMENT_HEADER_LEN]

/-- The part of the header that never changes: magic, version and first LSN. -/
def fixed (h : SegmentHeader) : Bytes :=
  SEGMENT_MAGIC ++ (leBytes 4 h.formatVersion ++ leBytes 8 h.baseLsn)

omit [Crc32] in
@[simp] theorem fixed_length (h : SegmentHeader) : h.fixed.length = 20 := by
  simp [fixed, SEGMENT_MAGIC]

omit [Crc32] in
theorem body_eq (h : SegmentHeader) :
    h.body = h.fixed ++ (leBytes 4 (if h.sealed then FLAG_SEALED else 0) ++ leBytes 4 0) := by
  simp [body, fixed]

theorem encode_take_fixed (h : SegmentHeader) : h.encode.take 20 = h.fixed := by
  rw [encode, body_eq, append_assoc, take_left' h.fixed_length]

/-- A header reads back. -/
theorem decode_encode {h : SegmentHeader} (hversion : h.formatVersion = SEGMENT_FORMAT_VERSION)
    (hbase : h.baseLsn < 256 ^ 8) : decode h.encode = .ok h := by
  have hbody : h.encode.take 28 = h.body := take_left' h.body_length
  have hcrc : (h.encode.drop 28).take 4 = leBytes 4 (Crc32.checksum h.body).toNat := by
    rw [encode, drop_left' h.body_length, take_of_length_le (by simp)]
  have hparts : h.encode = SEGMENT_MAGIC ++ (leBytes 4 h.formatVersion ++ (leBytes 8 h.baseLsn ++
      (leBytes 4 (if h.sealed then FLAG_SEALED else 0) ++ (leBytes 4 0 ++
        leBytes 4 (Crc32.checksum h.body).toNat)))) := by
    simp [encode, body]
  have hmagic : h.encode.take 8 = SEGMENT_MAGIC := by rw [hparts, take_left' (by decide)]
  have hver : (h.encode.drop 8).take 4 = leBytes 4 h.formatVersion := by
    rw [hparts, drop_left' (by decide), take_left' (leBytes_length 4 _)]
  have hlsn : (h.encode.drop 12).take 8 = leBytes 8 h.baseLsn := by
    rw [hparts, ← append_assoc, drop_left' (by simp [SEGMENT_MAGIC]),
      take_left' (leBytes_length 8 _)]
  have hflags : (h.encode.drop 20).take 4 = leBytes 4 (if h.sealed then FLAG_SEALED else 0) := by
    rw [hparts, ← append_assoc, ← append_assoc,
      drop_left' (by simp [SEGMENT_MAGIC]), take_left' (leBytes_length 4 _)]
  have hbit : (leNat (leBytes 4 (if h.sealed then FLAG_SEALED else 0)) &&& FLAG_SEALED ≠ 0) ↔
      h.sealed = true := by
    cases h.sealed <;> decide
  simp only [decode, encode_length, hbody, hcrc, RawRecord.checksum_stored, hmagic, hver, hlsn,
    hflags, hbit, leNat_leBytes hbase, hversion]
  obtain ⟨version, base, isSealed⟩ := h
  subst hversion
  simp [SEGMENT_FORMAT_VERSION, SEGMENT_MIN_SUPPORTED_FORMAT_VERSION,
    leNat_leBytes (show 1 < 256 ^ 4 by decide)]

theorem decode_baseLsn {bytes : Bytes} {h : SegmentHeader} (hdecode : decode bytes = .ok h) :
    h.baseLsn = leNat ((bytes.drop 12).take 8) := by
  unfold decode at hdecode
  dsimp only at hdecode
  split_ifs at hdecode
  rw [Except.ok.injEq] at hdecode
  rw [← hdecode]

end SegmentHeader

/-- A header that was being rewritten, as far as the write got. -/
def tornHeader (k : ℕ) (old new : SegmentHeader) : Bytes := new.encode.take k ++ old.encode.drop k

theorem tornHeader_length (k : ℕ) (old new : SegmentHeader) :
    (tornHeader k old new).length = SEGMENT_HEADER_LEN := by
  simp only [tornHeader, length_append, length_take, length_drop, SegmentHeader.encode_length]
  omega

theorem SegmentHeader.decode_torn_baseLsn {old new h : SegmentHeader} {k : ℕ}
    (hfixed : new.fixed = old.fixed) (hbase : old.baseLsn < 256 ^ 8)
    (hdecode : decode (tornHeader k old new) = .ok h) : h.baseLsn = old.baseLsn := by
  have htake : (tornHeader k old new).take 20 = old.fixed := by
    rw [tornHeader, take_append, length_take, encode_length, take_take]
    rcases Nat.le_total 20 k with hk | hk
    · rw [Nat.min_eq_left hk, encode_take_fixed, hfixed,
        Nat.sub_eq_zero_of_le (by simp only [SEGMENT_HEADER_LEN]; omega), take_zero,
        append_nil]
    · have hsame : new.encode.take k = old.encode.take k := by
        rw [← Nat.min_eq_left hk, ← take_take, ← take_take, encode_take_fixed,
          encode_take_fixed, hfixed]
      rw [Nat.min_eq_right hk, hsame, Nat.min_eq_left (by simp only [SEGMENT_HEADER_LEN]; omega),
        ← take_add, Nat.add_sub_cancel' hk, encode_take_fixed]
  have hfield : ((tornHeader k old new).drop 12).take 8 = leBytes 8 old.baseLsn := by
    rw [take_drop, htake, fixed, ← append_assoc, drop_left' (by simp [SEGMENT_MAGIC])]
  rw [decode_baseLsn hdecode, hfield, leNat_leBytes hbase]

/-- A file that starts with a header opens on it. -/
theorem readHeader_append {bytes rest : Bytes} (hlen : bytes.length = SEGMENT_HEADER_LEN) :
    readHeader (bytes ++ rest) = SegmentHeader.decode bytes := by
  simp only [readHeader, length_append, hlen]
  rw [if_neg (by omega), take_left' hlen]

end LoraDb
