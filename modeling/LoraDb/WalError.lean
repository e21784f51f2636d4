import Mathlib.Data.Nat.Notation

/-!
# Log Sequence Numbers and Log Errors

The types every layer of the write-ahead log shares. An error carries the values its text
is made of; the text of the underlying I/O error is left out, and a path is the number of
the segment file it names.
-/

namespace LoraDb

/-- A **log sequence number**. `0` is before the first record. -/
abbrev Lsn := ℕ

/-- The number a segment file is named by. -/
abbrev SegmentId := ℕ

inductive WalError where
  | io
  | encode (message : String)
  | decode (message : String)
  | crcMismatch (lsn : Lsn) (expected actual : UInt32)
  | truncated (expected actual : ℕ)
  | unknownKind (kind : UInt8)
  | badSegmentHeader (reason : String)
  | malformed (message : String)
  /-- Damage replay must not repair by truncation. -/
  | corrupt (path : SegmentId) (offset : ℕ) (reason : String)
  /-- The log does not reach back to the fence, or misses a segment in the middle. -/
  | gap (message : String)
  | alreadyOpen
  | poisoned
deriving DecidableEq

/-- A number in hexadecimal, of eight digits at least. -/
def hex32 (n : UInt32) : String :=
  let digits := Nat.toDigits 16 n.toNat
  String.ofList (List.replicate (8 - digits.length) '0' ++ digits)

/-- The text an error is shown as. -/
def WalError.message : WalError → String
  | .io => "WAL I/O error"
  | .encode message => s!"WAL record could not be encoded: {message}"
  | .decode message => s!"WAL record could not be decoded: {message}"
  | .crcMismatch lsn expected actual =>
    s!"WAL record CRC mismatch at lsn {lsn}: expected 0x" ++ hex32 expected ++
      ", got 0x" ++ hex32 actual
  | .truncated expected actual =>
    s!"WAL record truncated: expected {expected} bytes, got {actual}"
  | .unknownKind kind => s!"unknown WAL record kind: {kind}"
  | .badSegmentHeader reason => s!"WAL segment header is malformed: {reason}"
  | .malformed message => s!"WAL structure is malformed: {message}"
  | .corrupt path offset reason =>
    s!"WAL segment {path} is corrupt at byte {offset}: {reason}"
  | .gap message => s!"WAL history has a gap: {message}"
  | .alreadyOpen => "database directory is locked by another process or live handle"
  | .poisoned =>
    "WAL is poisoned: a previous append failed and the log is no longer durable"

end LoraDb
