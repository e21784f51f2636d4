import LoraDb.WalRecord

/-!
# The Replay State Machine

Replay reads the log front to back, buffers each open transaction, and hands a transaction
to a sink when its commit is read. A transaction whose buffered records reach a budget
goes to the sink at once, in parts, and stays provisional there: its commit confirms the
parts, and an abort, the end of the log or a record of another transaction takes them back.

The sink is a parameter, as in the source: a function on its own state `σ` that may fail,
and whose failure stops the replay. The sink belongs to the caller and outlives a replay
that fails, so an error carries its state. A batch the source keeps encoded until it is
applied is here the list of its events: replay checks that a batch decodes where it reads it
(`WalCodec.validateEvents_eq_ok`).
-/

namespace LoraDb

/-- Bytes of one transaction that replay buffers before handing its events on. -/
def PENDING_BUDGET_BYTES : ℕ := 4 * 1024 * 1024

/-- What replay hands its sink, in log order. -/
inductive ReplayStep where
  /-- A committed transaction: its events, or the rest of them after parts. -/
  | commit (events : List MutationEvent)
  /-- Events of a transaction whose commit has not been read yet. -/
  | part (events : List MutationEvent)
  /-- The transaction of the preceding parts did not commit: undo them. -/
  | discard

/-- A sink over the state `σ`. -/
abbrev ReplaySink (σ : Type) := σ → ReplayStep → Except (WalError × σ) σ

/-- A transaction read but not yet committed or aborted. -/
structure PendingTx where
  events : List MutationEvent
  /-- Encoded size of the records behind `events`. -/
  bytes : ℕ

structure ReplayState (σ : Type) where
  pending : Lsn → Option PendingTx
  /-- The transaction whose events went to the sink in parts. -/
  streaming : Option Lsn
  /-- Transactions taken back because a record of another one came between theirs. -/
  withdrawn : List Lsn
  sink : σ
  maxLsn : Lsn
  lastLsn : Lsn
  lastSegmentBase : Option Lsn
  checkpointLsnObserved : Option Lsn

/-- The outcome of a step of replay: a failed one leaves the sink. -/
abbrev ReplayResult (σ α : Type) := Except (WalError × σ) α

namespace ReplayState

variable {σ : Type}

/-- Stop with an error of replay's own. -/
def fail {α : Type} (st : ReplayState σ) (err : WalError) : ReplayResult σ α :=
  .error (err, st.sink)

def new (sink : σ) : ReplayState σ where
  pending _ := none
  streaming := none
  withdrawn := []
  sink
  maxLsn := 0
  lastLsn := 0
  lastSegmentBase := none
  checkpointLsnObserved := none

/-- Segment bases ascend, and each lies above the records before it. -/
def validateSegment (st : ReplayState σ) (segmentBase : Lsn) (path : SegmentId) :
    ReplayResult σ (ReplayState σ) :=
  match st.lastSegmentBase with
  | some prevBase =>
    if segmentBase ≤ prevBase then
      st.fail (.malformed
        (s!"segment base_lsn {segmentBase} is not greater than previous base_lsn " ++
          s!"{prevBase} ({path})"))
    else aboveRecords
  | none => aboveRecords
where
  aboveRecords : ReplayResult σ (ReplayState σ) :=
    if st.lastLsn ≠ 0 ∧ segmentBase ≤ st.lastLsn then
      st.fail (.malformed
        (s!"segment base_lsn {segmentBase} is not greater than previous record lsn " ++
          s!"{st.lastLsn} ({path})"))
    else .ok { st with lastSegmentBase := some segmentBase }

def validateRecordLsn (st : ReplayState σ) (lsn segmentBase : Lsn) (path : SegmentId) :
    ReplayResult σ Unit :=
  if lsn < segmentBase then
    st.fail (.malformed s!"record lsn {lsn} is below segment base_lsn {segmentBase} ({path})")
  else if st.lastLsn ≠ 0 ∧ lsn ≤ st.lastLsn then
    st.fail (.malformed
      s!"record lsn {lsn} is not greater than previous lsn {st.lastLsn} ({path})")
  else .ok ()

def observeLsn (st : ReplayState σ) (lsn : Lsn) : ReplayState σ :=
  { st with lastLsn := lsn, maxLsn := if st.maxLsn < lsn then lsn else st.maxLsn }

/-- A record at or below the fence is in the snapshot; an end still drops the bucket. -/
def skipFencedRecord (st : ReplayState σ) : WalRecord → ReplayState σ
  | .txCommit _ t | .txAbort _ t => { st with pending := Function.update st.pending t none }
  | _ => st

end ReplayState

/-- A record of a transaction that is not open. -/
def missingTxBegin (kind : String) (recordLsn txBeginLsn : Lsn) : WalError :=
  .malformed s!"{kind} at lsn {recordLsn} references missing tx begin {txBeginLsn}"

/-- A commit of a transaction whose parts were taken back. -/
def withdrawnCommit (txBeginLsn lsn : Lsn) : WalError :=
  .malformed
    (s!"transaction {txBeginLsn} commits at lsn {lsn} after records of another " ++
      "transaction came between its own, past the replay buffer")

/-- A marker for a snapshot that cannot exist yet. -/
def checkpointInFuture (lsn snapshotLsn : Lsn) : WalError :=
  .malformed s!"checkpoint at lsn {lsn} points to future snapshot lsn {snapshotLsn}"

/-- A marker for a snapshot older than the one before. -/
def checkpointRegressed (snapshotLsn prev : Lsn) : WalError :=
  .malformed
    s!"checkpoint snapshot lsn {snapshotLsn} regressed below previous checkpoint {prev}"

namespace ReplayState

variable {σ : Type}

def beginTransaction (st : ReplayState σ) (lsn : Lsn) : ReplayResult σ (ReplayState σ) :=
  if (st.pending lsn).isSome then st.fail (.malformed s!"duplicate tx begin at lsn {lsn}")
  else .ok { st with pending := Function.update st.pending lsn (some ⟨[], 0⟩) }

def takePending (st : ReplayState σ) (txBeginLsn recordLsn : Lsn) (kind : String) :
    ReplayResult σ (PendingTx × ReplayState σ) :=
  match st.pending txBeginLsn with
  | some pending =>
    .ok (pending, { st with pending := Function.update st.pending txBeginLsn none })
  | none => st.fail (missingTxBegin kind recordLsn txBeginLsn)

def observeCheckpoint (st : ReplayState σ) (lsn snapshotLsn : Lsn) :
    ReplayResult σ (ReplayState σ) :=
  if lsn < snapshotLsn then
    st.fail (checkpointInFuture lsn snapshotLsn)
  else match st.checkpointLsnObserved with
    | some prev =>
      if snapshotLsn < prev then
        st.fail (checkpointRegressed snapshotLsn prev)
      else .ok { st with checkpointLsnObserved := some snapshotLsn }
    | none => .ok { st with checkpointLsnObserved := some snapshotLsn }

section Sink

variable (sink : ReplaySink σ) (budget : ℕ)

/-- A record of a transaction other than the one streaming came: take the streaming one
back, whose events the sink would otherwise hold under the other's. -/
def withdrawOtherThan (st : ReplayState σ) (txBeginLsn : Lsn) : ReplayResult σ (ReplayState σ) :=
  match st.streaming with
  | some streaming =>
    if streaming ≠ txBeginLsn then do
      let s ← sink st.sink .discard
      .ok { st with streaming := none, withdrawn := st.withdrawn ++ [streaming], sink := s }
    else .ok st
  | none => .ok st

/-- Addition that stays at the largest machine word. -/
def saturatingAdd (m n : ℕ) : ℕ := min (m + n) (2 ^ 64 - 1)

/-- Buffer a record's events with its transaction, and hand them on once the transaction has
outgrown the budget. -/
def addEvents (st : ReplayState σ) (txBeginLsn recordLsn : Lsn) (kind : String)
    (encodedLen : ℕ) (events : List MutationEvent) : ReplayResult σ (ReplayState σ) := do
  let st ← st.withdrawOtherThan sink txBeginLsn
  match st.pending txBeginLsn with
  | none => st.fail (missingTxBegin kind recordLsn txBeginLsn)
  | some pending =>
    let events := pending.events ++ events
    let bytes := saturatingAdd pending.bytes encodedLen
    if budget ≤ bytes ∧ txBeginLsn ∉ st.withdrawn then do
      let s ← sink st.sink (.part events)
      .ok { st with
        pending := Function.update st.pending txBeginLsn (some ⟨[], 0⟩)
        streaming := some txBeginLsn
        sink := s }
    else
      .ok { st with
        pending := Function.update st.pending txBeginLsn (some ⟨events, bytes⟩) }

/-- A record above the fence. -/
def applyRecord (st : ReplayState σ) (record : WalRecord) (encodedLen : ℕ) :
    ReplayResult σ (ReplayState σ) :=
  match record with
  | .mutation lsn t event => st.addEvents sink budget t lsn "mutation" encodedLen [event]
  | .mutationBatch lsn t events =>
    st.addEvents sink budget t lsn "mutation batch" encodedLen events
  | .txBegin lsn => do
    let st ← st.withdrawOtherThan sink lsn
    st.beginTransaction lsn
  | .txCommit lsn t => do
    let st ← st.withdrawOtherThan sink t
    let (pending, st) ← st.takePending t lsn "commit"
    if t ∈ st.withdrawn then st.fail (withdrawnCommit t lsn)
    else do
      let s ← sink st.sink (.commit pending.events)
      .ok { st with streaming := none, sink := s }
  | .txAbort lsn t => do
    let (_, st) ← st.takePending t lsn "abort"
    if st.streaming = some t then do
      let s ← sink st.sink .discard
      .ok { st with streaming := none, sink := s }
    else .ok st
  | .checkpoint lsn snapshotLsn => st.observeCheckpoint lsn snapshotLsn

def acceptRecord (st : ReplayState σ) (record : WalRecord) (encodedLen : ℕ)
    (segmentBase checkpointLsn : Lsn) (path : SegmentId) :
    ReplayResult σ (ReplayState σ) := do
  st.validateRecordLsn record.lsn segmentBase path
  let st := st.observeLsn record.lsn
  if record.lsn ≤ checkpointLsn then .ok (st.skipFencedRecord record)
  else st.applyRecord sink budget record encodedLen

/-- The end of the log: a transaction still streaming never committed. -/
def finish (st : ReplayState σ) : ReplayResult σ (ReplayState σ) :=
  match st.streaming with
  | some _ => do
    let s ← sink st.sink .discard
    .ok { st with sink := s }
  | none => .ok st

end Sink

end ReplayState

/-! ### Running over segments -/

/-- A segment whose frames have been read: each record with its encoded size. -/
structure ReadSegment where
  path : SegmentId
  base : Lsn
  records : List (WalRecord × ℕ)

namespace ReplayState

variable {σ : Type} (sink : ReplaySink σ) (budget : ℕ) (fence : Lsn)

def acceptRecords (base : Lsn) (path : SegmentId) :
    ReplayState σ → List (WalRecord × ℕ) → ReplayResult σ (ReplayState σ)
  | st, [] => .ok st
  | st, (record, encodedLen) :: rest => do
    let st ← st.acceptRecord sink budget record encodedLen base fence path
    acceptRecords base path st rest

def acceptSegments : ReplayState σ → List ReadSegment → ReplayResult σ (ReplayState σ)
  | st, [] => .ok st
  | st, s :: rest => do
    let st ← st.validateSegment s.base s.path
    let st ← st.acceptRecords sink budget fence s.base s.path s.records
    acceptSegments st rest

theorem acceptSegments_append (st : ReplayState σ) (segments segments' : List ReadSegment) :
    st.acceptSegments sink budget fence (segments ++ segments') = (do
      let st ← st.acceptSegments sink budget fence segments
      st.acceptSegments sink budget fence segments') := by
  induction segments generalizing st with
  | nil => rfl
  | cons s segments ih =>
    simp only [List.cons_append, acceptSegments, bind, Except.bind]
    cases st.validateSegment s.base s.path with
    | error e => rfl
    | ok st =>
      dsimp only
      cases st.acceptRecords sink budget fence s.base s.path s.records with
      | error e => rfl
      | ok st => exact ih st

end ReplayState

/-- Replay the segments of a log, in order, into a sink. -/
def replayInto {σ : Type} (sink : ReplaySink σ) (budget : ℕ) (fence : Lsn) (init : σ)
    (segments : List ReadSegment) : ReplayResult σ σ := do
  let st ← (ReplayState.new init).acceptSegments sink budget fence segments
  let st ← st.finish sink
  .ok st.sink

/-! ### Collecting the events -/

/-- Collects replayed events into one list. -/
structure CollectEvents where
  events : List MutationEvent
  /-- Where the provisional events of a streaming transaction start. -/
  provisionalFrom : Option ℕ

namespace CollectEvents

def new : CollectEvents := ⟨[], none⟩

def step (c : CollectEvents) : ReplayStep → ReplayResult CollectEvents CollectEvents
  | .commit events => .ok ⟨c.events ++ events, none⟩
  | .part events =>
    .ok ⟨c.events ++ events, some (c.provisionalFrom.getD c.events.length)⟩
  | .discard =>
    match c.provisionalFrom with
    | some start => .ok ⟨c.events.take start, none⟩
    | none => .ok c

end CollectEvents

end LoraDb
