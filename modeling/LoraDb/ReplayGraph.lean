import LoraDb.ReplayBudget

/-!
# Replaying into a Graph

Opening a database applies each committed transaction to the graph as replay reads it. The
parts of a large transaction are applied at once, over a copy of the graph taken before the
first: a commit drops the copy, a discard puts it back, and an error applying a part counts
only if the transaction commits.

The graph is a parameter here, with the function that applies one event to it.

## Main results

* `replayGraph_budget`: the recovered graph is the committed events applied in order,
  whatever the budget.
-/

open TxLog

namespace LoraDb

/-- The graph being recovered, and what is needed to take a transaction back. -/
structure GraphSink (G : Type) where
  graph : G
  /-- Events applied so far, which number the errors. -/
  applied : ℕ
  /-- The graph before the transaction streaming in parts. -/
  before : Option (G × ℕ)
  /-- The first error applying its parts: it only counts if the transaction commits. -/
  provisionalFailure : Option String

variable {G : Type} (apply : G → ℕ → MutationEvent → Except (String × G) G)

/-- Apply events that follow `first` already applied. A failure leaves the graph as far
as it got. -/
def replayFrom (first : ℕ) (graph : G) : List MutationEvent → Except (String × G) G
  | [] => .ok graph
  | event :: events => do
    let graph ← apply graph first event
    replayFrom (first + 1) graph events

namespace GraphSink

def new (graph : G) : GraphSink G := ⟨graph, 0, none, none⟩

def step : ReplaySink (GraphSink G)
  | s, .part events =>
    let s := { s with before := some (s.before.getD (s.graph, s.applied)) }
    match s.provisionalFailure with
    | some _ => .ok s
    | none =>
      match replayFrom apply s.applied s.graph events with
      | .ok graph => .ok { s with graph, applied := s.applied + events.length }
      | .error (err, graph) => .ok { s with graph, provisionalFailure := some err }
  | s, .commit events =>
    let s := { s with before := none }
    match s.provisionalFailure with
    | some err => .error (.malformed err, { s with provisionalFailure := none })
    | none =>
      match replayFrom apply s.applied s.graph events with
      | .ok graph => .ok { s with graph, applied := s.applied + events.length }
      | .error (err, graph) => .error (.malformed err, { s with graph })
  | s, .discard =>
    match s.before with
    | some (graph, applied) => .ok ⟨graph, applied, none, none⟩
    | none => .ok { s with provisionalFailure := none }

end GraphSink

theorem replayFrom_append (first : ℕ) (graph : G) (events events' : List MutationEvent) :
    replayFrom apply first graph (events ++ events') =
      match replayFrom apply first graph events with
      | .ok graph' => replayFrom apply (first + events.length) graph' events'
      | .error e => .error e := by
  induction events generalizing first graph with
  | nil => rfl
  | cons event events ih =>
    simp only [List.cons_append, replayFrom, Except.bind, bind, List.length_cons]
    cases apply graph first event with
    | error e => rfl
    | ok graph' =>
      dsimp only
      rw [ih, Nat.add_right_comm, Nat.add_assoc]

/-- What the graph sink has in its graph: the committed events, applied to the first
graph. -/
def graphSpec (init : G) : SinkSpec (GraphSink.step apply) where
  Holds s done prov := ∃ graph, replayFrom apply 0 init done = .ok graph ∧
    match prov with
    | none => s = ⟨graph, done.length, none, none⟩
    | some p => s.before = some (graph, done.length) ∧
      match s.provisionalFailure with
      | none => replayFrom apply done.length graph p = .ok s.graph ∧
        s.applied = done.length + p.length
      | some err => ∃ broken, replayFrom apply done.length graph p = .error (err, broken)
  Fails e done := ∃ err broken, e = .malformed err ∧
    replayFrom apply 0 init done = .error (err, broken)
  commit := by
    rintro s done (_ | p) rest ⟨graph, hdone, hs⟩
    · subst hs
      simp only [GraphSink.step, Option.getD_none, List.nil_append]
      cases hrest : replayFrom apply done.length graph rest with
      | ok graph' =>
        refine ⟨graph', ?_, by simp⟩
        simp only [replayFrom_append, hdone, Nat.zero_add, hrest]
      | error e =>
        refine ⟨e.1, e.2, rfl, ?_⟩
        simp only [replayFrom_append, hdone, Nat.zero_add, hrest]
    · obtain ⟨g, applied, before, failure⟩ := s
      obtain ⟨hbefore, hs⟩ := hs
      cases failure with
      | some err =>
        obtain ⟨broken, hp⟩ := hs
        refine ⟨err, broken, rfl, ?_⟩
        simp only [replayFrom_append, hdone, Nat.zero_add, Option.getD_some, hp]
      | none =>
        obtain ⟨hp, happlied⟩ := hs
        dsimp only at hp happlied
        subst happlied
        simp only [GraphSink.step, Option.getD_some]
        cases hrest : replayFrom apply (done.length + p.length) g rest with
        | ok graph' =>
          refine ⟨graph', ?_, by simp [Nat.add_assoc]⟩
          simp only [replayFrom_append, hdone, Nat.zero_add, hp, hrest]
        | error e =>
          refine ⟨e.1, e.2, rfl, ?_⟩
          simp only [replayFrom_append, hdone, Nat.zero_add, hp, hrest]
  part := by
    rintro s done (_ | p) events ⟨graph, hdone, hs⟩
    · subst hs
      simp only [GraphSink.step, Option.getD_none, List.nil_append]
      cases hev : replayFrom apply done.length graph events with
      | ok graph' => exact ⟨_, rfl, graph, hdone, rfl, hev, rfl⟩
      | error e => exact ⟨_, rfl, graph, hdone, rfl, e.2, hev⟩
    · obtain ⟨g, applied, before, failure⟩ := s
      obtain ⟨hbefore, hs⟩ := hs
      dsimp only at hbefore
      subst hbefore
      cases failure with
      | some err =>
        obtain ⟨broken, hp⟩ := hs
        refine ⟨_, rfl, graph, hdone, rfl, broken, ?_⟩
        simp only [replayFrom_append, Option.getD_some, hp]
      | none =>
        obtain ⟨hp, happlied⟩ := hs
        dsimp only at hp happlied
        subst happlied
        simp only [GraphSink.step, Option.getD_some]
        cases hev : replayFrom apply (done.length + p.length) g events with
        | ok graph' =>
          refine ⟨_, rfl, graph, hdone, rfl, ?_, by simp [Nat.add_assoc]⟩
          simp only [replayFrom_append, hp, hev]
        | error e =>
          refine ⟨_, rfl, graph, hdone, rfl, e.2, ?_⟩
          simp only [replayFrom_append, hp, hev]
  discard := by
    rintro s done p ⟨graph, hdone, hbefore, -⟩
    refine ⟨⟨graph, done.length, none, none⟩, ?_, graph, hdone, rfl⟩
    simp only [GraphSink.step, hbefore]

/-- What a prefix of a log commits is a prefix of what the log commits. -/
theorem committedEvents_prefix (fence : Lsn) {pre records : List WalRecord}
    (h : pre <+: records) : committedEvents fence pre <+: committedEvents fence records := by
  obtain ⟨rest, rfl⟩ := h
  simp only [committedEvents, txLog_append, committed, committedFrom_append]
  exact List.prefix_append _ _

/-- **Replay of graphs.** The graph recovered from a serial log is the committed events applied in
order, whatever the budget; and recovery fails just when applying them does. -/
theorem replayGraph_budget {segments : List ReadSegment} {fence : Lsn}
    (hord : LsnOrdered segments) (hserial : Serial (txLog fence (recordsOf segments)))
    (hadm : firstRejection fence [] (recordsOf segments) = none) (budget : ℕ) (init : G) :
    match replayFrom apply 0 init (committedEvents fence (recordsOf segments)),
      replayInto (GraphSink.step apply) budget fence (GraphSink.new init) segments with
    | .ok graph, .ok s => s.graph = graph
    | .error (err, _), .error (e, _) => e = .malformed err
    | _, _ => False := by
  have hout := replayInto_outcome (graphSpec apply init) fence budget hord
    (GraphSink.new init) ⟨init, rfl, rfl⟩
  cases hrun : replayInto (GraphSink.step apply) budget fence (GraphSink.new init) segments with
  | ok s =>
    rw [hrun] at hout
    obtain ⟨-, graph, hgraph, rfl⟩ := hout
    rw [hgraph]
  | error es =>
    rw [hrun] at hout
    cases hout with
    | rejected hrej =>
      rw [hadm] at hrej
      cases hrej
    | withdrawn hinter _ => exact absurd hinter (hserial _)
    | failed hcut _ hfails =>
      obtain ⟨err, broken, rfl, hfail⟩ := hfails
      obtain ⟨rest, hrest⟩ := committedEvents_prefix fence hcut
      rw [← hrest, replayFrom_append, hfail]

/-- Counting the events of a large transaction, which is applied in parts. -/
theorem replayGraph_budget_largeTransaction :
    ∃ s, replayInto (GraphSink.step fun n _ _ => .ok (n + 1)) 40 0 (GraphSink.new 0)
      largeTransaction = .ok s ∧ s.graph = 2 := by
  have hbudget := replayGraph_budget (fun n _ _ => .ok (n + 1)) (by decide)
    largeTransaction_serial (by decide) 40 0
  cases hrun : replayInto (GraphSink.step fun n _ _ => .ok (n + 1)) 40 0 (GraphSink.new 0)
      largeTransaction with
  | ok s =>
    rw [hrun] at hbudget
    exact ⟨s, rfl, hbudget⟩
  | error e =>
    rw [hrun] at hbudget
    exact hbudget.elim

end LoraDb
