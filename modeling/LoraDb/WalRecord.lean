import LoraDb.Mutation
import LoraDb.WalError
import LoraDb.TxLog

/-!
# Log Records

The records of the write-ahead log and the transaction log they spell (`WalRecord.entry`).
A transaction is named by the LSN of its begin record.
-/

namespace LoraDb

/-- A log record. -/
inductive WalRecord where
  /-- One event, as logs written before batches held them. -/
  | mutation (lsn txBeginLsn : Lsn) (event : MutationEvent)
  | mutationBatch (lsn txBeginLsn : Lsn) (events : List MutationEvent)
  | txBegin (lsn : Lsn)
  | txCommit (lsn txBeginLsn : Lsn)
  | txAbort (lsn txBeginLsn : Lsn)
  /-- A snapshot up to `snapshotLsn` exists. -/
  | checkpoint (lsn snapshotLsn : Lsn)

namespace WalRecord

/-- The record's own LSN. -/
def lsn : WalRecord → Lsn
  | .mutation lsn _ _ | .mutationBatch lsn _ _ | .txBegin lsn | .txCommit lsn _
  | .txAbort lsn _ | .checkpoint lsn _ => lsn

/-- The record as an entry of a transaction log. -/
def entry : WalRecord → TxLog.Entry Lsn MutationEvent
  | .mutation _ t event => .add t [event]
  | .mutationBatch _ t events => .add t events
  | .txBegin lsn => .begin lsn
  | .txCommit _ t => .commit t
  | .txAbort _ t => .abort t
  | .checkpoint _ _ => .mark

end WalRecord

/-- The records above a fence, as a transaction log. -/
def txLog (fence : Lsn) (records : List WalRecord) : List (TxLog.Entry Lsn MutationEvent) :=
  (records.filter (fun r => fence < r.lsn)).map WalRecord.entry

/-- The events a log commits above a fence, in commit order. -/
def committedEvents (fence : Lsn) (records : List WalRecord) : List MutationEvent :=
  TxLog.committed (txLog fence records)

/-- The snapshot LSNs of the checkpoint markers above a fence. -/
def markers (fence : Lsn) (records : List WalRecord) : List Lsn :=
  (records.filter (fun r => fence < r.lsn)).filterMap fun
    | .checkpoint _ snapshotLsn => some snapshotLsn
    | _ => none

section Snoc

variable {fence : Lsn} {records : List WalRecord} {r : WalRecord}

theorem txLog_append (fence : Lsn) (records records' : List WalRecord) :
    txLog fence (records ++ records') = txLog fence records ++ txLog fence records' := by
  simp [txLog]

theorem txLog_snoc (h : fence < r.lsn) :
    txLog fence (records ++ [r]) = txLog fence records ++ [r.entry] := by
  simp [txLog, h]

theorem txLog_snoc_fenced (h : r.lsn ≤ fence) :
    txLog fence (records ++ [r]) = txLog fence records := by
  simp [txLog, Nat.not_lt.mpr h]

/-- While every record is at or below the fence, there is nothing to replay. -/
theorem txLog_eq_nil (h : ∀ r ∈ records, r.lsn ≤ fence) : txLog fence records = [] := by
  simpa [txLog] using h

theorem committedEvents_snoc (h : fence < r.lsn) : committedEvents fence (records ++ [r]) =
      committedEvents fence records ++ r.entry.commits (txLog fence records) := by
  rw [committedEvents, txLog_snoc h, TxLog.committed_snoc, committedEvents]

theorem markers_append (fence : Lsn) (records records' : List WalRecord) :
    markers fence (records ++ records') = markers fence records ++ markers fence records' := by
  simp [markers]

theorem markers_snoc_checkpoint {lsn : Lsn} (snapshotLsn : Lsn) (h : fence < lsn) :
    markers fence (records ++ [.checkpoint lsn snapshotLsn]) =
      markers fence records ++ [snapshotLsn] := by
  have h' : fence < (WalRecord.checkpoint lsn snapshotLsn).lsn := h
  simp [markers, h']

/-- Only a live checkpoint record is a marker. -/
theorem markers_snoc (h : r.lsn ≤ fence ∨ r.entry ≠ .mark) :
    markers fence (records ++ [r]) = markers fence records := by
  by_cases hlive : fence < r.lsn
  · cases r with
    | checkpoint lsn snapshotLsn =>
      rcases h with h | h
      · exact absurd h (Nat.not_le.mpr hlive)
      · exact absurd rfl h
    | mutation | mutationBatch | txBegin | txCommit | txAbort => simp [markers, hlive]
  · simp [markers, hlive]

end Snoc

end LoraDb
