import LoraDb.Transaction
import LoraDb.WalCrash

/-!
# Recovering a Database

Transactions on a log that may crash in a commit.

## Main results

* `Wal.recovers_live`: what is recovered is the graph between two transactions.
-/

namespace LoraDb

namespace Wal

open Session (history start)

/-- Recovered events that lead to a graph. -/
def Rebuilds (first g : InMemoryGraph) (recovered : List MutationEvent) : Prop :=
  ∀ n, replayFrom applyEvent n first.unwatched recovered = .ok g.unwatched

/-- **Recovery.** Opening the log of a database always recovers the live graph or, after a crash
in a commit, the graph as the statements of that transaction left it. -/
theorem recovers_live [Crc32] {zones : ZoneDb} {fence : Lsn} {w w' : Wal} {files : SegmentFiles}
    {segmentTargetBytes batchTargetBytes : ℕ} {created : List MutationEvent} {is : List LogEvent}
    {first : InMemoryGraph} (hfirst : InMemoryGraph.Reachable first)
    (hfiles : discardUnbornSegment files = []) (htarget : SEGMENT_HEADER_LEN < segmentTargetBytes)
    (hopen : openLog zones segmentTargetBytes batchTargetBytes files fence = .ok (w, created))
    (hrun : Moves (Happens zones fence) w is w') :
    ∃ txs, Moves Journal [] is txs ∧ ∀ transactions live log,
      history first [] transactions = some (live, log) → log.flatten = txs.flatten →
      (∀ recovered w'', Happens zones fence w' (.reopened recovered) w'' →
        Rebuilds first live recovered) ∧
      ∀ mode ops s recovered w'', (start live log mode).run ops = some s →
        Happens zones fence w' (.crashed s.inner.buffer recovered) w'' →
          Rebuilds first live recovered ∨ Rebuilds first s.graph recovered := by
  obtain ⟨hlogs, -⟩ := Logs.fresh hfiles htarget hopen
  obtain ⟨txs, hjournal, hlogs'⟩ := hlogs.run hrun
  refine ⟨txs, hjournal, fun transactions live log hhistory hsame => ?_⟩
  obtain ⟨hlive, hlogged⟩ := Session.history_inStep hfirst.intact (fun _ => rfl) hhistory
  have hrebuilds : Rebuilds first live txs.flatten := hsame ▸ hlogged
  refine ⟨fun recovered w'' hreopened => ?_, fun mode ops s recovered w'' hs hcrashed => ?_⟩
  · obtain ⟨_, hstep, -⟩ := hlogs'.step hreopened
    cases hstep
    exact hrebuilds
  · have hinStep := (Session.inStep_start hlive hlogged mode).run hs
    have hbegan : Session.Began live log s :=
      Session.run_invariant Session.Began.step ⟨rfl, fun _ => ⟨rfl, rfl⟩⟩ hs
    obtain ⟨_, hstep, -⟩ := hlogs'.step hcrashed
    cases hstep with
    | lost => exact .inl hrebuilds
    | kept =>
      refine .inr fun n => ?_
      rw [List.flatten_append, List.flatten_singleton, replayFrom_append, hrebuilds n]
      exact hbegan.snapshot ▸ hinStep.replays_graph _

/-- A statement that clears the graph. -/
def clearAll : Statement := ⟨true, fun _ => [.clear], fun _ => false⟩

theorem recovers_live_twoCommits : ∃ live s,
    history .new [] [(.readWrite, [.execute clearAll, .commit true])] = some (live, [[.clear]]) ∧
    (start live [[.clear]] .readWrite).run [.execute clearAll] = some s ∧
    (Rebuilds .new live [.clear] ∨ Rebuilds .new s.graph [.clear]) := by
  obtain ⟨live, hlive⟩ : ∃ live, history .new [] [(.readWrite, [.execute clearAll, .commit true])] =
    some (live, [[.clear]]) := ⟨_, rfl⟩
  obtain ⟨s, hs, hbuffer⟩ : ∃ s, (start live [[.clear]] .readWrite).run [.execute clearAll] =
    some s ∧ s.inner.buffer = [.clear] := ⟨_, rfl, rfl⟩
  obtain ⟨w, hopen⟩ := crashed_opens
  have hcrashed : Happens WalCodec.unaryZones 0 oneCommit (.crashed s.inner.buffer [.clear]) w := by
    rw [hbuffer]
    exact .crashed loggable_clear twoCommits_eq crashed_visited (by decide) hopen
  obtain ⟨txs, hjournal, hrecovers⟩ := recovers_live .new rfl (by decide)
    (rfl : openLog WalCodec.unaryZones 40 1000 [] 0 = .ok (emptyLog, []))
    (.head (.committed loggable_clear oneCommit_eq) (.refl oneCommit))
  have hone : [[MutationEvent.clear]] = txs := by
    cases hjournal with
    | head hfirst hrest =>
      cases hfirst
      cases hrest
      rfl
  exact ⟨live, s, hlive, hs, (hrecovers _ _ _ hlive (congrArg _ hone)).2 _ _ s _ w hs hcrashed⟩

end Wal

end LoraDb
