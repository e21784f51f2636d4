import LoraDb.ReplayBudget
import LoraDb.ReplayLog

/-!
# The Log Handle

Opening a log, committing transactions, writing checkpoint markers, rotating and truncating
segments. A handle is modelled together with the directory it writes to.

Every I/O call takes its outcome from a list for its place in the code: it succeeds, or it
fails, a write after some of its bytes have reached the file. An empty list means that
nothing fails there from here on. Cutting a file back after a failed write does not fail.
`visited` collects every content of the directory on the way, within a write too: what a
crash can leave behind.

The background flusher, the growth and durability listeners and their counters are left out:
no log content depends on them.
-/

open ByteCodec

namespace LoraDb

/-- The append side of a segment: bytes that reached the file, and bytes that have not. -/
structure SegmentWriter where
  file : SegmentId
  header : SegmentHeader
  bytesWritten : ℕ
  pending : Bytes

structure WalState where
  nextLsn : Lsn
  durableLsn : Lsn
  activeSegmentId : SegmentId
  activeWriter : SegmentWriter
  oldestSegmentId : SegmentId

/-- The places in the code that make an I/O call. -/
inductive IoSite where
  /-- Pending bytes, before the segment is left. -/
  | rotateWrite
  /-- Pending bytes, between the batches of a large transaction. -/
  | batchWrite
  /-- Pending bytes, at the end of a commit or of the handle. -/
  | commitWrite
  | createFile
  | headerWrite
  /-- The header of a segment, rewritten to seal it. -/
  | sealWrite
  | sync
  | removeFile
deriving DecidableEq

/-- Outcomes of the I/O calls to come: `some k` is a failure after `k` bytes. -/
abbrev Faults := IoSite → List (Option ℕ)

/-- No I/O call fails. -/
def Faults.none : Faults := fun _ => []

/-- A log handle and its directory. -/
structure Wal where
  segmentTargetBytes : ℕ
  batchTargetBytes : ℕ
  state : WalState
  files : SegmentFiles
  faults : Faults
  /-- What the directory held, at any time since the list was emptied. -/
  visited : List SegmentFiles

/-- Code that works on a log handle, and keeps what it did when it fails. -/
abbrev WalM := EStateM WalError Wal

/-! ### I/O calls -/

/-- Overwrite a file from `offset` on. -/
def writeAt (offset : ℕ) (bytes file : Bytes) : Bytes :=
  file.take offset ++ bytes ++ file.drop (offset + bytes.length)

/-- The contents of a segment file. -/
def SegmentFiles.contents (files : SegmentFiles) (id : SegmentId) : Bytes :=
  (SortedMap.get? id files).getD []

variable [Crc32]

namespace Wal

/-- The outcome of the next I/O call at a site. -/
def fault (w : Wal) (site : IoSite) : Option ℕ := (w.faults site).head?.join

/-- The handle after an I/O call at a site. -/
def called (w : Wal) (site : IoSite) : Wal :=
  { w with faults := Function.update w.faults site (w.faults site).tail }

/-- Put the directory into a new state. -/
def withFiles (w : Wal) (files : SegmentFiles) : Wal :=
  { w with files, visited := w.visited ++ [files] }

/-- The directory with the first `k` bytes written to a segment file. -/
def wrote (w : Wal) (id : SegmentId) (offset : ℕ) (bytes : Bytes) (k : ℕ) : SegmentFiles :=
  SortedMap.put id (writeAt offset (bytes.take k) (w.files.contents id)) w.files

/-- Write to a segment file. -/
def write (site : IoSite) (id : SegmentId) (offset : ℕ) (bytes : Bytes) : WalM Unit := fun w =>
  let w' := { w.called site with
    visited := w.visited ++ (List.range bytes.length).map (w.wrote id offset bytes) }
  match w.fault site with
  | some k => .error .io (w'.withFiles (w.wrote id offset bytes k))
  | none => .ok () (w'.withFiles (w.wrote id offset bytes bytes.length))

/-- `fsync` a file or the directory. -/
def sync : WalM Unit := fun w =>
  match w.fault .sync with
  | some _ => .error .io (w.called .sync)
  | none => .ok () (w.called .sync)

/-- Create a segment file, which must not exist. -/
def createFile (id : SegmentId) : WalM Unit := fun w =>
  if (SortedMap.get? id w.files).isSome ∨ (w.fault .createFile).isSome then
    .error .io (w.called .createFile)
  else .ok () ((w.called .createFile).withFiles (SortedMap.put id [] w.files))

def removeFile (id : SegmentId) : WalM Unit := fun w =>
  match w.fault .removeFile with
  | some _ => .error .io (w.called .removeFile)
  | none => .ok () ((w.called .removeFile).withFiles (SortedMap.erase id w.files))

/-- Cut a segment file. -/
def setLen (w : Wal) (id : SegmentId) (len : ℕ) : Wal :=
  w.withFiles (SortedMap.put id ((w.files.contents id).take len) w.files)

/-! ### The active segment -/

/-- The writer of the active segment. -/
def writer (w : Wal) : SegmentWriter := w.state.activeWriter

def withWriter (w : Wal) (writer : SegmentWriter) : Wal :=
  { w with state := { w.state with activeWriter := writer } }

def withNextLsn (w : Wal) (lsn : Lsn) : Wal := { w with state := { w.state with nextLsn := lsn } }

/-- Bytes in the segment, those not written yet included. -/
def bytesWritten (w : Wal) : ℕ := w.writer.bytesWritten + w.writer.pending.length

/-- Write the pending bytes. A write that fails is undone: the file is cut back to what it
held, and the bytes stay pending. -/
def flushBuffer (site : IoSite) : WalM Unit := fun w =>
  if w.writer.pending = [] then .ok () w
  else match write site w.writer.file w.writer.bytesWritten w.writer.pending w with
    | .ok _ w' =>
      .ok () (w'.withWriter { w.writer with
        bytesWritten := w.writer.bytesWritten + w.writer.pending.length
        pending := [] })
    | .error err w' => .error err (w'.setLen w.writer.file w.writer.bytesWritten)

def flushAndSync : WalM Unit := do
  flushBuffer .rotateWrite
  sync

/-- Drop the pending bytes from `len` on. -/
def rollbackPending (w : Wal) (len : ℕ) : Wal :=
  w.withWriter { w.writer with pending := w.writer.pending.take len }

/-- Append framed bytes to the pending ones, unless the segment is sealed. -/
def appendFrame (frame : Except WalError Bytes) : WalM Unit := fun w =>
  if w.writer.header.sealed then .error .poisoned w
  else match frame with
    | .ok bytes => .ok () (w.withWriter { w.writer with pending := w.writer.pending ++ bytes })
    | .error err => .error err w

/-- Create a segment and write its header. -/
def createSegment (id : SegmentId) (baseLsn : Lsn) : WalM SegmentWriter := do
  createFile id
  write .headerWrite id 0 (SegmentHeader.new baseLsn).encode
  sync
  pure ⟨id, SegmentHeader.new baseLsn, SEGMENT_HEADER_LEN, []⟩

/-- Mark the segment sealed, in memory before in the file. -/
def sealSegment : WalM Unit := fun w =>
  if w.writer.header.sealed then .ok () w
  else (do
    flushAndSync
    modify fun w => w.withWriter { w.writer with header := { w.writer.header with sealed := true } }
    let w ← get
    write .sealWrite w.writer.file 0 w.writer.header.encode
    sync : WalM Unit) w

/-- Start a new segment once the active one has reached its target. -/
def maybeRotate : WalM Unit := fun w =>
  if w.bytesWritten < w.segmentTargetBytes then .ok () w
  else (do
    flushAndSync
    let w ← get
    match checkedNext w.state.activeSegmentId with
    | none => throw (.malformed "WAL segment id space is exhausted")
    | some nextId => do
      let writer ← createSegment nextId w.state.nextLsn
      fun w =>
        match (do sync; sealSegment : WalM Unit) w with
        | .ok _ w =>
          .ok () { w with state :=
            { w.state with activeWriter := writer, activeSegmentId := nextId } }
        | .error err w =>
          -- keep appending to the old segment; whether the new one goes is not checked
          match removeFile nextId w with
          | .ok _ w | .error _ w => .error err w : WalM Unit) w

/-! ### Appending -/

/-- Every LSN has a successor, or the space is exhausted. -/
def lsnExhausted : WalError := .malformed "WAL LSN space is exhausted"

def allocLsn : WalM Lsn := fun w =>
  match checkedNext w.state.nextLsn with
  | some next => .ok w.state.nextLsn (w.withNextLsn next)
  | none => .error lsnExhausted w

section Zones

variable (zones : ZoneDb)

def append (record : WalRecord) : WalM Unit := appendFrame (record.encode zones)

/-- The payload length of one planned batch, within the record limit. -/
def batchPayloadLenChecked (count eventsLen : ℕ) : Except WalError ℕ := do
  let payloadLen ← WalCodec.batchPayloadLen count eventsLen
  match framedLen payloadLen with
  | .ok _ => .ok payloadLen
  | .error _ =>
    .error (.encode
      (s!"a single mutation encodes to {payloadLen} bytes, over the " ++
        s!"{MAX_RECORD_LEN}-byte WAL record limit"))

/-- The batch planned so far: where it starts, and the bytes of its events. -/
structure BatchPlan where
  plan : List (ℕ × ℕ)
  start : ℕ
  chunkBytes : ℕ

/-- Close the batch before the event at `index`, if the event would outgrow it. -/
def closeBatch (target index size : ℕ) (b : BatchPlan) : Except WalError BatchPlan :=
  let count := index - b.start
  if 0 < count then do
    let grown ← WalCodec.batchPayloadLen (count + 1) (ReplayState.saturatingAdd b.chunkBytes size)
    match framedLen grown with
    | .ok len =>
      if len ≤ target then .ok b
      else close count
    | .error _ => close count
  else .ok b
where
  close (count : ℕ) : Except WalError BatchPlan := do
    let len ← batchPayloadLenChecked count b.chunkBytes
    .ok ⟨b.plan ++ [(index, len)], index, 0⟩

def planEvents (target : ℕ) : ℕ → BatchPlan → List MutationEvent → Except WalError BatchPlan
  | _, b, [] => .ok b
  | index, b, event :: events => do
    let size ← WalCodec.encodedBatchEventLen zones event
    let b ← closeBatch target index size b
    if sizeLimit ≤ b.chunkBytes + size then
      .error (.encode "transaction payload length overflows usize")
    else planEvents target (index + 1) { b with chunkBytes := b.chunkBytes + size } events

/-- Split events into batches of about `target` bytes: for each, the index after its last
event and the length of its payload. -/
def planBatches (target : ℕ) (events : List MutationEvent) : Except WalError (List (ℕ × ℕ)) := do
  let b ← planEvents zones target 0 ⟨[], 0, 0⟩ events
  let len ← batchPayloadLenChecked (events.length - b.start) b.chunkBytes
  .ok (b.plan ++ [(events.length, len)])

/-- Append the batches from `start` on. All but the first first write what is pending. -/
def appendBatches (events : List MutationEvent) (beginLsn : Lsn) :
    (first : Bool) → ℕ → List (ℕ × ℕ) → WalM Unit
  | _, _, [] => pure ()
  | first, start, (stop, payloadLen) :: batches => do
    if first then pure () else flushBuffer .batchWrite
    let chunk := (events.take stop).drop start
    let lsn ← allocLsn
    appendFrame (encodeFrame .mutationBatch lsn beginLsn payloadLen
      (WalCodec.encodeEventsInto zones chunk))
    appendBatches events beginLsn false stop batches

/-- Append a whole transaction: begin, batches, commit. -/
def appendTx (events : List MutationEvent) (batches : List (ℕ × ℕ)) : WalM Lsn := do
  let beginLsn ← allocLsn
  append zones (.txBegin beginLsn)
  appendBatches zones events beginLsn true 0 batches
  let commitLsn ← allocLsn
  append zones (.txCommit commitLsn beginLsn)
  pure commitLsn

/-- The durability work of a flush. -/
inductive FlushKind where
  | perConfiguredMode
  | forceFsync

def flushInner (kind : FlushKind) : WalM Unit := do
  flushBuffer .commitWrite
  match kind with
  | .perConfiguredMode => pure ()
  | .forceFsync => do
    let w ← get
    let writtenLsn := w.state.nextLsn - 1
    if writtenLsn ≤ w.state.durableLsn then pure ()
    else do
      sync
      modify fun w => { w with state := { w.state with durableLsn := writtenLsn } }

/-- Commit a transaction. A failure while its records are appended takes back what has not
reached the file; then the records are written. -/
def commitTxEvents (events : List MutationEvent) : WalM (Option Lsn) := fun w =>
  if events = [] then .ok none w
  else match planBatches zones w.batchTargetBytes events with
    | .error err => .error err w
    | .ok batches => (do
      maybeRotate
      let w ← get
      let firstLsn := w.state.nextLsn
      let pendingMark := w.writer.pending.length
      let fileMark := w.writer.bytesWritten
      let commitLsn ← (fun w => match appendTx zones events batches w with
        | .ok lsn w => .ok lsn w
        | .error err w =>
          if w.writer.bytesWritten = fileMark then
            .error err ((w.rollbackPending pendingMark).withNextLsn firstLsn)
          else .error err (w.rollbackPending 0) : WalM Lsn)
      flushInner .perConfiguredMode
      pure (some commitLsn) : WalM (Option Lsn)) w

/-- Dropping the handle writes what is pending, if it can. -/
def drop (w : Wal) : Wal :=
  match flushInner .forceFsync w with
  | .ok _ w | .error _ w => w

/-! ### Opening -/

def nextLsnAfter (lsn : Lsn) : Except WalError Lsn :=
  match checkedNext lsn with
  | some next => .ok next
  | none => .error lsnExhausted

/-- A newest segment without a header never held a record, and is removed. -/
def discardUnbornSegment (files : SegmentFiles) : SegmentFiles :=
  match files.getLast? with
  | none => files
  | some (_, file) =>
    if SEGMENT_HEADER_LEN < file.length then files
    else match readHeader file with
      | .ok _ => files
      | .error _ => files.dropLast

section Open

variable (segmentTargetBytes batchTargetBytes : ℕ)

/-- A handle on the segment that was just created or reopened. -/
def handle (files : SegmentFiles) (writer : SegmentWriter) (nextLsn : Lsn) : Wal where
  segmentTargetBytes
  batchTargetBytes
  state :=
    { nextLsn
      durableLsn := nextLsn - 1
      activeSegmentId := writer.file
      activeWriter := writer
      oldestSegmentId := (files.head?.map Prod.fst).getD writer.file }
  files
  faults := .none
  visited := [files]

/-- Create the first segment of a log, above the fence. -/
def openFresh (checkpointLsn : Lsn) : Except WalError Wal := do
  let base ← nextLsnAfter checkpointLsn
  let header := SegmentHeader.new base
  .ok (handle segmentTargetBytes batchTargetBytes [(1, header.encode)]
    ⟨1, header, SEGMENT_HEADER_LEN, []⟩ base)

/-- Reopen the newest segment at the end of its well-formed part. -/
def openForAppendAt (id : SegmentId) (file : Bytes) (offset : ℕ) :
    Except WalError SegmentWriter := do
  if offset < SEGMENT_HEADER_LEN then
    .error (.badSegmentHeader "append offset before segment payload")
  else do
    let header ← readHeader file
    if header.sealed then .error (.badSegmentHeader "segment is sealed; cannot append")
    else if file.length < offset then
      .error (.badSegmentHeader "append offset past end of segment")
    else .ok ⟨id, header, offset, []⟩

/-- Reopen a log: replay it, then go on in its newest segment, or in a new one if that is
sealed. -/
def openExisting (files : SegmentFiles) (checkpointLsn : Lsn) :
    Except WalError (Wal × List MutationEvent) := do
  let (replay, collected) ← (replaySegments zones CollectEvents.step PENDING_BUDGET_BYTES
    checkpointLsn CollectEvents.new files).mapError Prod.fst
  let nextLsn ← nextLsnAfter (max replay.maxLsn checkpointLsn)
  match files.getLast? with
  | none => .error (.malformed "WAL directory has no segments")
  | some (activeId, file) => do
    let header ← readHeader file
    if header.sealed then
      match checkedNext activeId with
      | none => .error (.malformed "WAL segment id space is exhausted")
      | some nextId =>
        let header := SegmentHeader.new nextLsn
        .ok (handle segmentTargetBytes batchTargetBytes
          (SortedMap.put nextId header.encode files)
          ⟨nextId, header, SEGMENT_HEADER_LEN, []⟩ nextLsn, collected.events)
    else do
      let writer ← openForAppendAt activeId file replay.lastGoodOffset
      match replay.tornTail with
      | none =>
        .ok (handle segmentTargetBytes batchTargetBytes files writer nextLsn, collected.events)
      | some torn =>
        if torn.segmentPath ≠ activeId then
          .error (.malformed s!"torn tail found in sealed segment {torn.segmentPath}")
        else
          let files := SortedMap.put activeId (file.take torn.lastGoodOffset) files
          .ok (handle segmentTargetBytes batchTargetBytes files
            { writer with bytesWritten := torn.lastGoodOffset } nextLsn, collected.events)

/-- Open or create a log, with the events replay recovers above the fence. -/
def openLog (files : SegmentFiles) (checkpointLsn : Lsn) :
    Except WalError (Wal × List MutationEvent) := do
  let files := discardUnbornSegment files
  if files = [] then do
    let w ← openFresh segmentTargetBytes batchTargetBytes checkpointLsn
    .ok (w, [])
  else openExisting zones segmentTargetBytes batchTargetBytes files checkpointLsn

end Open

end Zones

end Wal

end LoraDb
