import LoraDb.GraphReplay

/-!
# Transactions

A transaction of a database with a log. Its statements write to a staged copy of the graph and
their events to a buffer beside it; a statement that fails, or a stream that is dropped, takes back
its own work by a savepoint; a commit hands the buffer to the log and publishes the staged graph.

Schema statements are left out with the indexes they make. So are a poisoned lock and a log that an
earlier failure has poisoned: a commit with nothing to log, which is done here, is refused there.

## Main results

* `InStep.run`: staged graph and buffer, live graph and log stay in step.
* `transactions_in_step`: in any run of transactions the log replays to the live graph, and what
  fails is taken back.
* `stream_borrows`: a stream keeps the graph it borrows, which only its own pulls change, but for a
  rollback under it.
-/

open Option (bind_eq_some_iff ite_none_right_eq_some map_eq_some_iff map_some)
open List

namespace LoraDb

open InMemoryGraph (unwatched)

inductive TransactionError where
  | alreadyClosed
  | cursorActiveCommit
  | cursorActiveStatement
  | readOnlyMutation

inductive TransactionMode where
  | readOnly
  | readWrite
deriving DecidableEq

inductive TxStreamOutcome where
  | exhausted
  | interrupted
deriving DecidableEq

structure Savepoint where
  staged : Option InMemoryGraph
  bufferLen : ℕ

/-- What a transaction shares with its stream. A recorder on the staged graph writes into
`buffer`; the graph's own list only tells that one is installed. -/
structure TxInner where
  staged : Option InMemoryGraph
  buffer : List MutationEvent
  pendingSavepoint : Option Savepoint
  cursorActive : Bool
  closed : Bool
  mode : TransactionMode
  bufferMutations : Bool

namespace TxInner

variable (inner : TxInner)

def mark : Option (List MutationEvent) :=
  if inner.mode = .readWrite ∧ inner.bufferMutations then some [] else none

/-- A copy of a graph has no recorder until one is installed. -/
def install (g : InMemoryGraph) : InMemoryGraph := { g.unwatched with recorder := inner.mark }

def ensureStaged (live : InMemoryGraph) : TxInner :=
  match inner.staged with
  | some _ => inner
  | none => { inner with staged := some (inner.install live) }

/-- Mutations of the staged graph, with their events in the buffer. -/
def write (mutations : List StoreMutation) : TxInner :=
  match inner.staged with
  | none => inner
  | some g =>
    let g' := (runSteps InMemoryGraph.mutate
      { g with recorder := g.recorder.map fun _ => inner.buffer } mutations).1
    { inner with
      staged := some { g' with recorder := g.recorder }
      buffer := g'.recorder.getD inner.buffer }

def takeSavepoint (cloneStaged : Bool) : Savepoint :=
  ⟨if cloneStaged then inner.staged.map unwatched else none, inner.buffer.length⟩

def applySavepoint (sp : Savepoint) : TxInner :=
  { inner with
    buffer := inner.buffer.take sp.bufferLen
    staged := sp.staged.map inner.install }

/-- A rollback of the whole transaction. -/
def discard : TxInner :=
  { inner with
    pendingSavepoint := none
    cursorActive := false
    staged := none
    buffer := []
    closed := true }

def restorePendingSavepoint : TxInner :=
  match inner.pendingSavepoint with
  | some sp => { inner.applySavepoint sp with pendingSavepoint := none }
  | none => inner

def finalizeStream (outcome : TxStreamOutcome) (rollbackOnDrop : Bool) : TxInner :=
  let inner := { inner with cursorActive := false }
  if inner.closed then inner.discard
  else if outcome = .interrupted ∧ rollbackOnDrop then inner.restorePendingSavepoint
  else { inner with pendingSavepoint := none }

def beginStatement : Except TransactionError Unit :=
  if inner.closed then .error .alreadyClosed
  else if inner.cursorActive then .error .cursorActiveStatement
  else .ok ()

end TxInner

/-- A compiled statement: whether it may write, the mutations it makes of the graph it meets,
and whether it fails after them. -/
structure Statement where
  mutating : Bool
  mutations : InMemoryGraph → List StoreMutation
  fails : InMemoryGraph → Bool

/-- What a call is answered. -/
inductive Answer where
  | done
  | refused (error : TransactionError)
  | failed

/-- A transaction with what it is used by and what it commits to. -/
structure Session where
  inner : TxInner
  /-- The live graph when the transaction began. -/
  snapshot : InMemoryGraph
  live : InMemoryGraph
  log : List (List MutationEvent)
  /-- The caller has not given the transaction up. -/
  handle : Bool
  /-- The caller's stream, and whether it writes. -/
  stream : Option Bool

/-- What a caller may do with a transaction and its stream. -/
inductive TxOp where
  | execute (statement : Statement)
  | openStream (statement : Statement)
  | pull (mutations : List StoreMutation)
  | endStream (outcome : TxStreamOutcome)
  | commit (logOk : Bool)
  | rollback
  | drop

/-- A call that does not give the transaction up, nor the stream. -/
def TxOp.keeps : TxOp → Bool
  | .execute _ | .openStream _ | .pull _ => true
  | .endStream _ | .commit _ | .rollback | .drop => false

namespace Session

/-- A fresh transaction of a database with a log. -/
def start (live : InMemoryGraph) (log : List (List MutationEvent)) (mode : TransactionMode) :
    Session where
  inner := ⟨none, [], none, false, false, mode, true⟩
  snapshot := live
  live := live
  log := log
  handle := true
  stream := none

variable (s : Session)

/-- What the statement finds: the staged graph, or the live one. -/
def graph : InMemoryGraph := s.inner.staged.getD s.snapshot

def execute (statement : Statement) : Session × Answer :=
  match s.inner.beginStatement with
  | .error e => (s, .refused e)
  | .ok () =>
    if s.inner.mode = .readOnly then
      -- the read-only executor refuses every write operator
      (s, if statement.mutating ∨ statement.fails s.snapshot then .failed else .done)
    else if ¬ statement.mutating then
      (s, if statement.fails s.graph then .failed else .done)
    else
      let staged := s.inner.ensureStaged s.snapshot
      let sp := staged.takeSavepoint s.inner.staged.isSome
      let written := staged.write (statement.mutations s.graph)
      if statement.fails s.graph then ({ s with inner := written.applySavepoint sp }, .failed)
      else ({ s with inner := written }, .done)

def prepareStreamStaging (mutating : Bool) : TxInner :=
  let staged := { s.inner.ensureStaged s.snapshot with cursorActive := true }
  { staged with
    pendingSavepoint :=
      if mutating then some (staged.takeSavepoint s.inner.staged.isSome) else none }

/-- Every stream borrows the staged graph, also one that only reads. -/
def openStream (statement : Statement) : Session × Answer :=
  match s.inner.beginStatement with
  | .error e => (s, .refused e)
  | .ok () =>
    if s.inner.mode = .readOnly ∧ statement.mutating then (s, .refused .readOnlyMutation)
    else
      let prepared := s.prepareStreamStaging statement.mutating
      let opened :=
        if statement.mutating then prepared.write (statement.mutations s.graph) else prepared
      if statement.fails s.graph then
        ({ s with inner := opened.finalizeStream .interrupted statement.mutating }, .failed)
      else ({ s with inner := opened, stream := some statement.mutating }, .done)

/-- A transaction given up unfinished. A stream still open keeps the graph it borrows. -/
def giveUp : Session :=
  { s with
    handle := false
    inner :=
      if s.inner.closed then s.inner
      else if s.inner.cursorActive then { s.inner with closed := true }
      else s.inner.discard }

/-- A commit takes the transaction, whatever comes of it. -/
def commit (logOk : Bool) : Session × Answer :=
  if s.inner.cursorActive then (s.giveUp, .refused .cursorActiveCommit)
  else if s.inner.closed then (s.giveUp, .refused .alreadyClosed)
  else
    let taken := { s with
      handle := false
      inner := { s.inner with staged := none, buffer := [], closed := true } }
    if s.inner.mode = .readOnly then (taken, .done)
    else if s.inner.buffer ≠ [] ∧ ¬ logOk then (taken, .failed)
    else ({ taken with
      log := if s.inner.buffer = [] then s.log else s.log ++ [s.inner.buffer]
      live := (s.inner.staged.map unwatched).getD s.live }, .done)

/-- One call. `none` where the caller cannot make it: the transaction is given up, there is no
stream, or the stream's graph is gone. -/
def step : TxOp → Option (Session × Answer)
  | .execute statement => if s.handle then some (s.execute statement) else none
  | .openStream statement => if s.handle then some (s.openStream statement) else none
  | .pull mutations =>
    match s.stream, s.inner.staged with
    | some true, some _ => some ({ s with inner := s.inner.write mutations }, .done)
    | some false, some _ => some (s, .done)
    | _, _ => none
  | .endStream outcome =>
    s.stream.map fun mutating =>
      ({ s with inner := s.inner.finalizeStream outcome mutating, stream := none }, .done)
  | .commit logOk => if s.handle then some (s.commit logOk) else none
  | .rollback =>
    if ¬ s.handle then none
    else if s.inner.closed then some (s.giveUp, .refused .alreadyClosed)
    else some ({ s with handle := false, inner := s.inner.discard }, .done)
  | .drop => if s.handle then some (s.giveUp, .done) else none

def run (s : Session) : List TxOp → Option Session
  | [] => some s
  | op :: ops => do
    let (s', _) ← s.step op
    s'.run ops

/-- What the next statement will find, and what a commit would log. -/
def view : InMemoryGraph × List MutationEvent := (s.graph.unwatched, s.inner.buffer)

variable {s} {s' : Session} {first snapshot g : InMemoryGraph} {buffer : List MutationEvent}
  {answer : Answer}

/-- A staged graph is the graph the transaction began with, and then the buffer. -/
structure Copies (mark : Option (List MutationEvent)) (snapshot g : InMemoryGraph)
    (buffer : List MutationEvent) : Prop where
  intact : g.Intact
  marked : g.recorder = mark
  replays : ∀ n, replayFrom applyEvent n snapshot.unwatched buffer = .ok g.unwatched

/-- The staged graph and the buffer are in step, and so are the live graph and the log. -/
structure InStep (first : InMemoryGraph) (s : Session) : Prop where
  buffered : s.inner.bufferMutations = true
  snapshot : s.snapshot.Intact
  live : s.live.Intact
  logged : ∀ n, replayFrom applyEvent n first.unwatched s.log.flatten = .ok s.live.unwatched
  same : s.handle = true → s.live = s.snapshot
  staged : ∀ g, s.inner.staged = some g → Copies s.inner.mark s.snapshot g s.inner.buffer
  unstaged : s.inner.staged = none → s.inner.buffer = []
  /-- A savepoint is an earlier point of the same work. -/
  pending : ∀ sp, s.inner.pendingSavepoint = some sp → sp.bufferLen ≤ s.inner.buffer.length ∧
    (sp.staged = none → sp.bufferLen = 0) ∧ ∀ g, sp.staged = some g →
      Copies s.inner.mark s.snapshot (s.inner.install g) (s.inner.buffer.take sp.bufferLen)
  idle : s.inner.cursorActive = false → s.inner.pendingSavepoint = none
  writes : s.stream = some true → s.inner.mode = .readWrite

theorem copies_install (inner : TxInner) (h : g.Intact) :
    Copies inner.mark g (inner.install g) [] where
  intact := (h.watch none none).watch _ _
  marked := rfl
  replays _ := rfl

theorem Copies.reinstall {inner : TxInner} (h : Copies inner.mark snapshot g buffer) :
    Copies inner.mark snapshot (inner.install g) buffer where
  intact := (h.intact.watch none none).watch _ _
  marked := rfl
  replays := h.replays

/-- Writing extends the buffer by events that lead to the graph it leaves. -/
theorem Copies.write {inner : TxInner} (h : Copies inner.mark snapshot g inner.buffer)
    (hmode : inner.mode = .readWrite) (hbuffer : inner.bufferMutations = true)
    (hstaged : inner.staged = some g) (mutations : List StoreMutation) :
    ∃ g' events, inner.write mutations =
        { inner with staged := some g', buffer := inner.buffer ++ events } ∧
      Copies inner.mark snapshot g' (inner.buffer ++ events) := by
  have hmark : g.recorder = some [] := by rw [h.marked, TxInner.mark, if_pos ⟨hmode, hbuffer⟩]
  have hstart := h.intact.watch (some inner.buffer) g.deletedSink
  obtain ⟨events, hrecorded, hreplays⟩ := hstart.logged_run mutations
  have hintact := @runSteps_invariant InMemoryGraph StoreMutation Outcome InMemoryGraph.mutate
    InMemoryGraph.Intact mutations (fun _ mutation _ hg => hg.mutate mutation) _ hstart
  refine ⟨{ (runSteps InMemoryGraph.mutate { g with recorder := some inner.buffer } mutations).1
    with recorder := g.recorder }, events, ?_, ⟨hintact.watch _ _, h.marked, fun n => ?_⟩⟩
  · simp only [TxInner.write, hstaged, hmark, map_some, hrecorded, Option.getD_some]
  · rw [replayFrom_append, h.replays n]
    exact hreplays _

variable {outcome : TxStreamOutcome} {mutating : Bool}

/-- The graph a statement that writes works on is there. -/
theorem InStep.ensureStaged (h : InStep first s) :
    InStep first { s with inner := s.inner.ensureStaged s.snapshot } ∧
      (s.inner.ensureStaged s.snapshot).buffer = s.inner.buffer ∧
      ∃ g, (s.inner.ensureStaged s.snapshot).staged = some g := by
  rw [TxInner.ensureStaged]
  cases hstaged : s.inner.staged with
  | some g => exact ⟨h, rfl, g, hstaged⟩
  | none =>
    have hempty := h.unstaged hstaged
    refine ⟨{ h with staged := fun g hg => ?_, unstaged := nofun }, rfl, _, rfl⟩
    cases hg
    exact hempty ▸ copies_install s.inner h.snapshot

theorem InStep.write (h : InStep first s) (hmode : s.inner.mode = .readWrite)
    (hstaged : s.inner.staged = some g) (mutations : List StoreMutation) :
    InStep first { s with inner := s.inner.write mutations } := by
  obtain ⟨g', events, hwrite, hcopies⟩ :=
    (h.staged g hstaged).write hmode h.buffered hstaged mutations
  rw [hwrite]
  refine { h with staged := fun g hg => ?_, unstaged := nofun, pending := fun sp hsp => ?_ }
  · cases hg
    exact hcopies
  · obtain ⟨hlen, hnone, hsome⟩ := h.pending sp hsp
    refine ⟨hlen.trans (by simp), hnone, fun g hg => ?_⟩
    have hpoint := hsome g hg
    rwa [← take_append_of_le_length hlen] at hpoint

/-- A statement's work, taken back to where it began. -/
theorem InStep.takenBack (h : InStep first s) (hmode : s.inner.mode = .readWrite)
    (mutations : List StoreMutation) :
    ((s.inner.ensureStaged s.snapshot).write mutations).applySavepoint
        ((s.inner.ensureStaged s.snapshot).takeSavepoint s.inner.staged.isSome) =
      { s.inner with staged := s.inner.staged.map s.inner.install } := by
  cases hstaged : s.inner.staged with
  | none =>
    obtain ⟨hensured, -, g, hg⟩ := h.ensureStaged
    have hstep : s.inner.ensureStaged s.snapshot =
        { s.inner with staged := some (s.inner.install s.snapshot) } := by
      rw [TxInner.ensureStaged, hstaged]
    rw [hstep] at hensured ⊢
    obtain ⟨g', events, hwrite, -⟩ :=
      (hensured.staged _ rfl).write hmode hensured.buffered rfl mutations
    rw [hwrite]
    simp [TxInner.applySavepoint, TxInner.takeSavepoint]
  | some g =>
    have hstep : s.inner.ensureStaged s.snapshot = s.inner := by rw [TxInner.ensureStaged, hstaged]
    obtain ⟨g', events, hwrite, -⟩ :=
      (h.staged g hstaged).write hmode h.buffered hstaged mutations
    rw [hstep, hwrite]
    simp only [TxInner.applySavepoint, TxInner.takeSavepoint, hstaged, Option.isSome_some,
      if_true, take_left, map_some]
    rfl

theorem InStep.reinstalled (h : InStep first s) : InStep first
    { s with inner := { s.inner with staged := s.inner.staged.map s.inner.install } } := by
  refine { h with staged := fun g hg => ?_, unstaged := fun hnone => ?_ }
  · obtain ⟨g₀, hg₀, rfl⟩ := map_eq_some_iff.mp hg
    exact (h.staged g₀ hg₀).reinstall
  · exact h.unstaged (Option.map_eq_none_iff.mp hnone)

theorem view_reinstalled (s : Session) :
    view { s with inner := { s.inner with staged := s.inner.staged.map s.inner.install } } =
      s.view := by
  rw [view, view, graph, graph]
  cases s.inner.staged <;> rfl

/-- Only a transaction that may write gets this far. -/
theorem readWrite_of_not_readOnly {mode : TransactionMode} (h : ¬ mode = .readOnly) :
    mode = .readWrite := by
  cases mode with
  | readOnly => exact absurd rfl h
  | readWrite => rfl

theorem ensureStaged_mode (inner : TxInner) (live : InMemoryGraph) :
    (inner.ensureStaged live).mode = inner.mode := by
  rw [TxInner.ensureStaged]
  split <;> rfl

/-- A statement keeps the session in step; one that is not done leaves what the next finds. -/
theorem InStep.execute (h : InStep first s) (statement : Statement) :
    InStep first (s.execute statement).1 ∧
      ((s.execute statement).2 ≠ .done → (s.execute statement).1.view = s.view) := by
  rw [Session.execute]
  cases s.inner.beginStatement with
  | error e => exact ⟨h, fun _ => rfl⟩
  | ok _ =>
    by_cases hmode : s.inner.mode = .readOnly
    · rw [if_pos hmode]
      exact ⟨h, fun _ => rfl⟩
    have hwrite := readWrite_of_not_readOnly hmode
    rw [if_neg hmode]
    by_cases hmutating : ¬ statement.mutating
    · rw [if_pos hmutating]
      exact ⟨h, fun _ => rfl⟩
    rw [if_neg hmutating]
    by_cases hfails : statement.fails s.graph
    · simp only [if_pos hfails, h.takenBack hwrite]
      exact ⟨h.reinstalled, fun _ => view_reinstalled s⟩
    · obtain ⟨hensured, -, g, hg⟩ := h.ensureStaged
      simp only [if_neg hfails]
      refine ⟨?_, fun hdone => absurd rfl hdone⟩
      exact hensured.write ((ensureStaged_mode _ _).trans hwrite) hg (statement.mutations s.graph)

/-! ### Streams -/

/-- A stream that writes, with the point it began at. -/
structure Marks (s₀ s : Session) : Prop where
  snapshot : s.snapshot = s₀.snapshot
  active : s.inner.cursorActive = true
  unclosed : s.inner.closed = false
  writes : s.inner.mode = .readWrite
  pending : s.inner.pendingSavepoint = some ⟨s₀.inner.staged.map unwatched, s₀.inner.buffer.length⟩
  buffer : s.inner.buffer.take s₀.inner.buffer.length = s₀.inner.buffer

variable {s₀ : Session}

/-- An interrupted stream that writes takes its work back. -/
theorem Marks.interrupted (h : Marks s₀ s) (stream : Option Bool) :
    view { s with inner := s.inner.finalizeStream .interrupted true, stream } = s₀.view := by
  simp only [view, graph, TxInner.finalizeStream, TxInner.restorePendingSavepoint, h.unclosed,
    h.pending, TxInner.applySavepoint, h.buffer, h.snapshot, and_self, if_true, Bool.false_eq_true,
    if_false]
  cases s₀.inner.staged <;> rfl

/-- What a stream writes comes after the point it began at. -/
theorem Marks.write (h : Marks s₀ s) (hstep : InStep first s)
    (hstaged : s.inner.staged = some g) (mutations : List StoreMutation) :
    Marks s₀ { s with inner := s.inner.write mutations } := by
  obtain ⟨g', events, hwrite, -⟩ :=
    (hstep.staged g hstaged).write h.writes hstep.buffered hstaged mutations
  rw [hwrite]
  refine ⟨h.snapshot, h.active, h.unclosed, h.writes, h.pending, ?_⟩
  have hlen := congrArg length h.buffer
  rw [length_take] at hlen
  change take _ (s.inner.buffer ++ events) = _
  rw [take_append_of_le_length (by omega), h.buffer]

/-- A session with a stream being opened is in step. -/
theorem InStep.prepared (h : InStep first s) (mutating : Bool) :
    InStep first { s with inner := s.prepareStreamStaging mutating } ∧
      ∃ g, (s.prepareStreamStaging mutating).staged = some g := by
  obtain ⟨hensured, hbuffer, g, hg⟩ := h.ensureStaged
  refine ⟨{ hensured with pending := fun sp hsp => ?_, idle := nofun }, g, hg⟩
  rw [prepareStreamStaging] at hsp ⊢
  dsimp only at hsp ⊢
  split_ifs at hsp with hmutating
  cases hsp
  rw [TxInner.takeSavepoint]
  dsimp only
  refine ⟨le_rfl, fun hnone => ?_, fun g' hg' => ?_⟩
  · rw [hbuffer]
    cases hstaged : s.inner.staged with
    | none => rw [h.unstaged hstaged, length_nil]
    | some g₀ => simp [hstaged, hg] at hnone
  · split_ifs at hg' with hsome
    rw [take_length]
    obtain ⟨g₀, hg₀, rfl⟩ := map_eq_some_iff.mp hg'
    exact (hensured.staged g₀ hg₀).reinstall

theorem InStep.marks_prepared (h : InStep first s) (hclosed : s.inner.closed = false)
    (hwrite : s.inner.mode = .readWrite) :
    Marks s { s with inner := s.prepareStreamStaging true } := by
  cases hstaged : s.inner.staged with
  | none =>
    have hempty := h.unstaged hstaged
    constructor <;>
      simp [prepareStreamStaging, TxInner.ensureStaged, TxInner.takeSavepoint, hstaged, hempty,
        hclosed, hwrite]
  | some g =>
    constructor <;>
      simp [prepareStreamStaging, TxInner.ensureStaged, TxInner.takeSavepoint, hstaged, hclosed,
        hwrite]

/-- A stream that ends keeps the session in step, however it ends. -/
theorem InStep.finalize (h : InStep first s) (stream : Option Bool)
    (hstream : stream = some true → s.inner.mode = .readWrite) :
    InStep first { s with inner := s.inner.finalizeStream outcome mutating, stream } := by
  rw [TxInner.finalizeStream]
  dsimp only
  split_ifs with hclosed hrestore
  · exact { h with
      staged := nofun, unstaged := fun _ => rfl, pending := nofun, idle := fun _ => rfl,
      writes := hstream }
  · rw [TxInner.restorePendingSavepoint]
    cases hpending : s.inner.pendingSavepoint with
    | none =>
      exact { h with pending := nofun, idle := fun _ => rfl, writes := hstream }
    | some sp =>
      obtain ⟨hlen, hnone, hsome⟩ := h.pending sp hpending
      refine { h with
        staged := fun g hg => ?_, unstaged := fun hg => ?_, pending := nofun,
        idle := fun _ => rfl, writes := hstream }
      · obtain ⟨g₀, hg₀, rfl⟩ := map_eq_some_iff.mp hg
        exact hsome g₀ hg₀
      · change s.inner.buffer.take sp.bufferLen = []
        rw [hnone (Option.map_eq_none_iff.mp hg), take_zero]
  · exact { h with pending := nofun, idle := fun _ => rfl, writes := hstream }

/-- A reading stream that could not be opened leaves the graph it found. -/
theorem view_unopened (hclosed : s.inner.closed = false) :
    view { s with inner := (s.prepareStreamStaging false).finalizeStream .interrupted false } =
      s.view := by
  cases hstaged : s.inner.staged with
  | none =>
    simp [view, graph, TxInner.finalizeStream, prepareStreamStaging, TxInner.ensureStaged,
      hstaged, hclosed]
    rfl
  | some g =>
    simp [view, graph, TxInner.finalizeStream, prepareStreamStaging, TxInner.ensureStaged,
      hstaged, hclosed]

/-- Opening keeps the session in step; a stream that writes remembers where it began, and one
that could not be opened leaves what the next statement finds. -/
theorem InStep.openStream (h : InStep first s) (statement : Statement) :
    InStep first (s.openStream statement).1 ∧
      ((s.openStream statement).2 = .done → statement.mutating = true →
        Marks s (s.openStream statement).1) ∧
      ((s.openStream statement).2 ≠ .done → (s.openStream statement).1.view = s.view) := by
  rw [Session.openStream]
  cases hbegin : s.inner.beginStatement with
  | error e => exact ⟨h, nofun, fun _ => rfl⟩
  | ok _ =>
    have hclosed : s.inner.closed = false := by
      rw [TxInner.beginStatement] at hbegin
      split_ifs at hbegin with hclosed
      exact Bool.eq_false_iff.mpr hclosed
    by_cases hreadOnly : s.inner.mode = .readOnly ∧ statement.mutating
    · simp only [if_pos hreadOnly]
      exact ⟨h, nofun, fun _ => trivial⟩
    simp only [if_neg hreadOnly]
    cases hmutating : statement.mutating with
    | false =>
      obtain ⟨hprepared, -⟩ := h.prepared false
      simp only [Bool.false_eq_true, if_false]
      split_ifs with hfails
      · exact ⟨hprepared.finalize _ hprepared.writes, nofun, fun _ => view_unopened hclosed⟩
      · refine ⟨{ hprepared with writes := nofun }, nofun, fun hdone => absurd rfl hdone⟩
    | true =>
      have hwrite : s.inner.mode = .readWrite :=
        readWrite_of_not_readOnly fun hmode => hreadOnly ⟨hmode, hmutating⟩
      obtain ⟨hprepared, g, hg⟩ := h.prepared true
      have hmarks := h.marks_prepared hclosed hwrite
      have hopened := hprepared.write hmarks.writes hg (statement.mutations s.graph)
      have hmarked := hmarks.write hprepared hg (statement.mutations s.graph)
      simp only [if_true]
      split_ifs with hfails
      · exact ⟨hopened.finalize _ hopened.writes, nofun, fun _ => hmarked.interrupted _⟩
      · exact ⟨{ hopened with writes := fun _ => hmarked.writes }, fun _ _ => { hmarked with },
          fun hdone => absurd rfl hdone⟩

/-! ### Endings -/

/-- Nothing is left of a transaction that is over. -/
theorem InStep.ended (h : InStep first s) {inner : TxInner}
    (hbuffered : inner.bufferMutations = s.inner.bufferMutations)
    (hmode : inner.mode = s.inner.mode) (hstaged : inner.staged = none)
    (hbuffer : inner.buffer = []) (hpending : inner.pendingSavepoint = none) :
    InStep first { s with inner, handle := false } where
  buffered := hbuffered.trans h.buffered
  snapshot := h.snapshot
  live := h.live
  logged := h.logged
  same := nofun
  staged _ hg := by
    rw [hstaged] at hg
    cases hg
  unstaged _ := hbuffer
  pending _ hsp := by
    rw [hpending] at hsp
    cases hsp
  idle _ := hpending
  writes hstream := hmode.trans (h.writes hstream)

theorem InStep.giveUp (h : InStep first s) : InStep first s.giveUp := by
  rw [Session.giveUp]
  split_ifs
  · exact { h with same := nofun }
  · exact { h with same := nofun }
  · exact h.ended rfl rfl rfl rfl rfl

/-- The buffer leads from the live graph to what the statements find. -/
theorem InStep.replays_graph (h : InStep first s) (n : ℕ) :
    replayFrom applyEvent n s.snapshot.unwatched s.inner.buffer = .ok s.graph.unwatched := by
  rw [graph]
  cases hstaged : s.inner.staged with
  | none =>
    rw [h.unstaged hstaged]
    rfl
  | some g => exact (h.staged g hstaged).replays n

/-- A commit that is done publishes what the statements found and logs what led there. -/
theorem InStep.commit (h : InStep first s) (hhandle : s.handle = true) (logOk : Bool) :
    InStep first (s.commit logOk).1 ∧ ((s.commit logOk).2 = .done → s.inner.mode = .readWrite →
        (s.commit logOk).1.live.unwatched = s.view.1 ∧
          (s.commit logOk).1.log.flatten = s.log.flatten ++ s.view.2) := by
  rw [Session.commit]
  by_cases hactive : s.inner.cursorActive
  · rw [if_pos hactive]
    exact ⟨h.giveUp, nofun⟩
  have hpending := h.idle (Bool.eq_false_iff.mpr hactive)
  rw [if_neg hactive]
  by_cases hclosed : s.inner.closed
  · rw [if_pos hclosed]
    exact ⟨h.giveUp, nofun⟩
  rw [if_neg hclosed]
  have htaken := @InStep.ended _ _ h
    { s.inner with staged := none, buffer := [], closed := true } rfl rfl rfl rfl hpending
  by_cases hmode : s.inner.mode = .readOnly
  · rw [if_pos hmode]
    exact ⟨htaken, fun _ hwrite => absurd (hmode.symm.trans hwrite) nofun⟩
  rw [if_neg hmode]
  by_cases hfailed : s.inner.buffer ≠ [] ∧ ¬ logOk
  · rw [if_pos hfailed]
    exact ⟨htaken, nofun⟩
  rw [if_neg hfailed]
  have hlog : (if s.inner.buffer = [] then s.log else s.log ++ [s.inner.buffer]).flatten =
      s.log.flatten ++ s.inner.buffer := by
    split_ifs with hempty
    · rw [hempty, append_nil]
    · rw [flatten_append, flatten_singleton]
  have hlive : ((s.inner.staged.map unwatched).getD s.live).unwatched = s.graph.unwatched := by
    rw [graph, h.same hhandle]
    cases s.inner.staged <;> rfl
  have hintact : ((s.inner.staged.map unwatched).getD s.live).Intact := by
    cases hstaged : s.inner.staged with
    | none => exact h.live
    | some g => exact (h.staged g hstaged).intact.watch none none
  have hboth : ∀ n, replayFrom applyEvent n first.unwatched (s.log.flatten ++ s.inner.buffer) =
      .ok s.graph.unwatched := by
    intro n
    rw [replayFrom_append, h.logged n, h.same hhandle]
    exact h.replays_graph _
  simp only [← hlog, ← hlive] at hboth
  exact ⟨{ htaken with live := hintact, logged := hboth, same := nofun }, fun _ _ => ⟨hlive, hlog⟩⟩

/-! ### Runs -/

/-- A call that only the holder of the transaction can make. -/
theorem held_eq {result : Session × Answer}
    (h : (if s.handle then some result else none) = some (s', answer)) :
    s.handle = true ∧ s' = result.1 ∧ answer = result.2 := by
  obtain ⟨hhandle, hresult⟩ := ite_none_right_eq_some.mp h
  cases hresult
  exact ⟨hhandle, rfl, rfl⟩

variable {op : TxOp}

/-- One call keeps the session in step. -/
theorem InStep.step (h : InStep first s) (hstep : s.step op = some (s', answer)) :
    InStep first s' := by
  cases op with
  | execute statement =>
    obtain ⟨-, rfl, -⟩ := held_eq hstep
    exact (h.execute statement).1
  | openStream statement =>
    obtain ⟨-, rfl, -⟩ := held_eq hstep
    exact (h.openStream statement).1
  | pull mutations =>
    rw [Session.step] at hstep
    split at hstep
    next hstream hstaged =>
      cases hstep
      exact h.write (h.writes hstream) hstaged mutations
    next =>
      cases hstep
      exact h
    next => cases hstep
  | endStream outcome =>
    obtain ⟨mutating, hstream, hresult⟩ := map_eq_some_iff.mp hstep
    cases hresult
    exact h.finalize none nofun
  | commit logOk =>
    obtain ⟨hhandle, rfl, -⟩ := held_eq hstep
    exact (h.commit hhandle logOk).1
  | rollback =>
    rw [Session.step] at hstep
    split_ifs at hstep <;> cases hstep
    · exact h.giveUp
    · exact h.ended rfl rfl rfl rfl rfl
  | drop =>
    obtain ⟨-, rfl, -⟩ := held_eq hstep
    exact h.giveUp

/-- Statements and streams keep to the transaction. -/
theorem execute_within (s : Session) (statement : Statement) :
    ∃ inner, (s.execute statement).1 = { s with inner } := by
  rw [Session.execute]
  cases s.inner.beginStatement with
  | error e => exact ⟨s.inner, rfl⟩
  | ok _ =>
    dsimp only
    split_ifs <;> exact ⟨_, rfl⟩

theorem openStream_within (s : Session) (statement : Statement) :
    ∃ inner stream, (s.openStream statement).1 = { s with inner, stream } := by
  rw [Session.openStream]
  cases s.inner.beginStatement with
  | error e => exact ⟨s.inner, s.stream, rfl⟩
  | ok _ =>
    dsimp only
    split_ifs <;> exact ⟨_, _, rfl⟩

theorem openStream_done (s : Session) (statement : Statement)
    (h : (s.openStream statement).2 = .done) :
    (s.openStream statement).1.stream = some statement.mutating := by
  rw [Session.openStream] at h ⊢
  cases hbegin : s.inner.beginStatement with
  | error e =>
    rw [hbegin] at h
    cases h
  | ok _ =>
    simp only [hbegin] at h ⊢
    split_ifs at h ⊢
    all_goals rfl

/-- A commit that is not done, or that only read, publishes and logs nothing. -/
theorem commit_idle {logOk : Bool} (h : (s.commit logOk).2 ≠ .done ∨ s.inner.mode = .readOnly) :
    (s.commit logOk).1.live = s.live ∧ (s.commit logOk).1.log = s.log := by
  rw [Session.commit] at h ⊢
  split_ifs at h ⊢ with hactive hclosed hmode hfailed
  · exact ⟨rfl, rfl⟩
  · exact ⟨rfl, rfl⟩
  · exact ⟨rfl, rfl⟩
  · exact ⟨rfl, rfl⟩
  · exact absurd rfl (h.resolve_right hmode)
  · exact absurd rfl (h.resolve_right hmode)

theorem commit_frames (s : Session) (logOk : Bool) :
    (s.commit logOk).1.snapshot = s.snapshot ∧ (s.commit logOk).1.handle = false := by
  rw [Session.commit]
  split_ifs <;> exact ⟨rfl, rfl⟩

/-- What a call leaves alone: all but a commit that is done keep to the transaction, and one
that leaves the transaction with its caller is no commit. -/
theorem step_frames (hstep : s.step op = some (s', answer)) :
    s'.snapshot = s.snapshot ∧ (s'.handle = true → s.handle = true) ∧
      (s'.handle = true ∨ (∀ logOk, op ≠ .commit logOk) ∨ answer ≠ .done ∨
        s.inner.mode = .readOnly → s'.live = s.live ∧ s'.log = s.log) := by
  cases op with
  | execute statement =>
    obtain ⟨-, rfl, -⟩ := held_eq hstep
    obtain ⟨inner, hwithin⟩ := s.execute_within statement
    rw [hwithin]
    exact ⟨rfl, id, fun _ => ⟨rfl, rfl⟩⟩
  | openStream statement =>
    obtain ⟨-, rfl, -⟩ := held_eq hstep
    obtain ⟨inner, stream, hwithin⟩ := s.openStream_within statement
    rw [hwithin]
    exact ⟨rfl, id, fun _ => ⟨rfl, rfl⟩⟩
  | pull mutations =>
    rw [Session.step] at hstep
    split at hstep <;> cases hstep <;> exact ⟨rfl, id, fun _ => ⟨rfl, rfl⟩⟩
  | endStream outcome =>
    obtain ⟨mutating, -, hresult⟩ := map_eq_some_iff.mp hstep
    cases hresult
    exact ⟨rfl, id, fun _ => ⟨rfl, rfl⟩⟩
  | commit logOk =>
    obtain ⟨hhandle, rfl, rfl⟩ := held_eq hstep
    obtain ⟨hsnapshot, hover⟩ := s.commit_frames logOk
    refine ⟨hsnapshot, fun _ => hhandle, fun h => commit_idle ?_⟩
    obtain hheld | hcommit | hrest := h
    · exact absurd (hover.symm.trans hheld) nofun
    · exact absurd rfl (hcommit logOk)
    · exact hrest
  | rollback =>
    rw [Session.step] at hstep
    split_ifs at hstep <;> cases hstep
    · exact ⟨rfl, nofun, fun _ => ⟨rfl, rfl⟩⟩
    · exact ⟨rfl, nofun, fun _ => ⟨rfl, rfl⟩⟩
  | drop =>
    obtain ⟨-, rfl, -⟩ := held_eq hstep
    exact ⟨rfl, nofun, fun _ => ⟨rfl, rfl⟩⟩

/-- A session of a transaction that **began** on a live graph and a log. -/
structure Began (live : InMemoryGraph) (log : List (List MutationEvent)) (s : Session) : Prop where
  snapshot : s.snapshot = live
  held : s.handle = true → s.live = live ∧ s.log = log

variable {live : InMemoryGraph} {log : List (List MutationEvent)} {ops : List TxOp}

theorem Began.step (h : Began live log s) (hstep : s.step op = some (s', answer)) :
    Began live log s' := by
  obtain ⟨hsnapshot, hhandle, hframes⟩ := step_frames hstep
  refine ⟨hsnapshot.trans h.snapshot, fun hheld => ?_⟩
  obtain ⟨hlive, hlog⟩ := hframes (.inl hheld)
  exact hlive ▸ hlog ▸ h.held (hhandle hheld)

/-- What every call keeps, every run keeps. -/
theorem run_invariant {invariant : Session → Prop} (hstep : ∀ {s s' : Session} {op answer},
      invariant s → s.step op = some (s', answer) → invariant s')
    (h : invariant s) (hrun : s.run ops = some s') : invariant s' := by
  induction ops generalizing s with
  | nil =>
    cases hrun
    exact h
  | cons op ops ih =>
    obtain ⟨⟨s₁, answer⟩, hop, hrest⟩ := bind_eq_some_iff.mp hrun
    exact ih (hstep h hop) hrest

theorem InStep.run (h : InStep first s) (hrun : s.run ops = some s') : InStep first s' :=
  run_invariant InStep.step h hrun

/-- A transaction that begins, on a live graph the log leads to. -/
theorem inStep_start (hlive : live.Intact)
    (hlogged : ∀ n, replayFrom applyEvent n first.unwatched log.flatten = .ok live.unwatched)
    (mode : TransactionMode) : InStep first (start live log mode) where
  buffered := rfl
  snapshot := hlive
  live := hlive
  logged := hlogged
  same _ := rfl
  staged := nofun
  unstaged _ := rfl
  pending := nofun
  idle _ := rfl
  writes := nofun

/-- A transaction with a stream refuses a new statement. -/
theorem beginStatement_active (hclosed : s.inner.closed = false)
    (hactive : s.inner.cursorActive = true) :
    s.inner.beginStatement = .error .cursorActiveStatement := by
  simp [TxInner.beginStatement, hclosed, hactive]

/-- A stream that writes is still where it began while the transaction is kept. -/
theorem Marks.step (h : Marks s₀ s) (hinStep : InStep first s)
    (hstream : s.stream = some true) (hkeeps : op.keeps = true)
    (hstep : s.step op = some (s', answer)) : Marks s₀ s' ∧ s'.stream = some true := by
  have hbegin := beginStatement_active h.unclosed h.active
  cases op with
  | execute statement =>
    obtain ⟨-, rfl, -⟩ := held_eq hstep
    rw [Session.execute, hbegin]
    exact ⟨h, hstream⟩
  | openStream statement =>
    obtain ⟨-, rfl, -⟩ := held_eq hstep
    rw [Session.openStream, hbegin]
    exact ⟨h, hstream⟩
  | pull mutations =>
    rw [Session.step] at hstep
    split at hstep
    next hstaged =>
      cases hstep
      exact ⟨h.write hinStep hstaged mutations, hstream⟩
    next =>
      cases hstep
      exact ⟨h, hstream⟩
    next => cases hstep
  | endStream outcome => cases hkeeps
  | commit logOk => cases hkeeps
  | rollback => cases hkeeps
  | drop => cases hkeeps

theorem Marks.run (h : Marks s₀ s) (hinStep : InStep first s)
    (hstream : s.stream = some true) (hkeeps : ∀ op ∈ ops, op.keeps = true)
    (hrun : s.run ops = some s') : Marks s₀ s' ∧ s'.stream = some true := by
  induction ops generalizing s with
  | nil =>
    cases hrun
    exact ⟨h, hstream⟩
  | cons op ops ih =>
    obtain ⟨⟨s₁, answer⟩, hop, hrest⟩ := bind_eq_some_iff.mp hrun
    obtain ⟨hmarks, hstill⟩ := h.step hinStep hstream (hkeeps op mem_cons_self) hop
    exact ih hmarks (hinStep.step hop) hstill
      (fun op hmem => hkeeps op (mem_cons_of_mem _ hmem)) hrest

/-- Transactions one after another: what they leave of the live graph and the log. -/
def history (live : InMemoryGraph) (log : List (List MutationEvent)) :
    List (TransactionMode × List TxOp) → Option (InMemoryGraph × List (List MutationEvent))
  | [] => some (live, log)
  | (mode, ops) :: rest => do
    let s ← (start live log mode).run ops
    history s.live s.log rest

theorem history_inStep {transactions : List (TransactionMode × List TxOp)}
    {live' : InMemoryGraph} {log' : List (List MutationEvent)} (hlive : live.Intact)
    (hlogged : ∀ n, replayFrom applyEvent n first.unwatched log.flatten = .ok live.unwatched)
    (h : history live log transactions = some (live', log')) :
    live'.Intact ∧
      ∀ n, replayFrom applyEvent n first.unwatched log'.flatten = .ok live'.unwatched := by
  induction transactions generalizing live log with
  | nil =>
    cases h
    exact ⟨hlive, hlogged⟩
  | cons transaction transactions ih =>
    obtain ⟨s, hrun, hrest⟩ := bind_eq_some_iff.mp h
    have hinStep := (inStep_start hlive hlogged transaction.1).run hrun
    exact ih hinStep.live hinStep.logged hrest

/-- **Transactions.** In any run of transactions, one after another: the log replays to the live
graph, and the buffer of the open transaction from there to what its statements find; what fails
or is interrupted leaves what the next statement finds; a commit publishes and logs all of it, and
nothing else does. -/
theorem transactions_in_step (hfirst : InMemoryGraph.Reachable first)
    {earlier : List (TransactionMode × List TxOp)}
    (hearlier : history first [] earlier = some (live, log)) {mode : TransactionMode}
    (hrun : (start live log mode).run ops = some s) :
    (∀ n, replayFrom applyEvent n first.unwatched s.log.flatten = .ok s.live.unwatched) ∧
    (∀ n, replayFrom applyEvent n live.unwatched s.view.2 = .ok s.view.1) ∧
    (s.handle = true → s.live = live ∧ s.log = log) ∧
    (∀ op s' answer, s.step op = some (s', answer) →
      ((∀ logOk, op ≠ .commit logOk) ∨ answer ≠ .done ∨ s.inner.mode = .readOnly →
        s'.live = s.live ∧ s'.log = s.log) ∧
      (∀ logOk, op = .commit logOk → answer = .done → s.inner.mode = .readWrite →
        s'.live.unwatched = s.view.1 ∧ s'.log.flatten = s.log.flatten ++ s.view.2) ∧
      (∀ statement, op = .execute statement ∨ op = .openStream statement → answer ≠ .done →
        s'.view = s.view)) ∧
    (∀ statement s₁ between s₂, statement.mutating = true →
      s.step (.openStream statement) = some (s₁, .done) →
      (∀ op ∈ between, op.keeps = true) → s₁.run between = some s₂ →
      ∃ s₃, s₂.step (.endStream .interrupted) = some (s₃, .done) ∧ s₃.view = s.view) := by
  obtain ⟨hlive, hlogged⟩ := history_inStep hfirst.intact (fun _ => rfl) hearlier
  have hinStep := (inStep_start hlive hlogged mode).run hrun
  have hbegan : Began live log s := run_invariant Began.step ⟨rfl, fun _ => ⟨rfl, rfl⟩⟩ hrun
  refine ⟨hinStep.logged, fun n => hbegan.snapshot ▸ hinStep.replays_graph n, hbegan.held,
    fun op s' answer hstep => ⟨fun h => (step_frames hstep).2.2 (.inr h), ?_, ?_⟩, ?_⟩
  · rintro logOk rfl hdone hmode
    obtain ⟨hhandle, rfl, rfl⟩ := held_eq hstep
    exact (hinStep.commit hhandle logOk).2 hdone hmode
  · rintro statement (rfl | rfl) hfailed
    · obtain ⟨-, rfl, rfl⟩ := held_eq hstep
      exact (hinStep.execute statement).2 hfailed
    · obtain ⟨-, rfl, rfl⟩ := held_eq hstep
      exact (hinStep.openStream statement).2.2 hfailed
  · intro statement s₁ between s₂ hmutating hopened hkeeps hbetween
    have hstep := hinStep.step hopened
    obtain ⟨-, rfl, hdone⟩ := held_eq hopened
    have hmarks := (hinStep.openStream statement).2.1 hdone.symm hmutating
    have hwrites := (s.openStream_done statement hdone.symm).trans (congrArg some hmutating)
    obtain ⟨hstill, hstream'⟩ := hmarks.run hstep hwrites hkeeps hbetween
    refine ⟨_, by rw [Session.step, hstream']; rfl, hstill.interrupted none⟩

/-- A statement that creates one node. -/
def createNode : Statement := ⟨true, fun _ => [.tryCreateNode ["A"] .empty], fun _ => false⟩

/-- A node created by one transaction and two by the next, the second by a stream that is
interrupted after its first row. -/
theorem transactions_in_step_interrupted : ∃ live log s s₁ s₂ s₃,
      history .new [] [(.readWrite, [.execute createNode, .commit true])] = some (live, log) ∧
      (start live log .readWrite).run [.execute createNode] = some s ∧
      s.step (.openStream createNode) = some (s₁, .done) ∧
      s₁.run [.pull [.tryCreateNode ["A"] .empty]] = some s₂ ∧
      s₂.step (.endStream .interrupted) = some (s₃, .done) ∧ s₃.view = s.view := by
  have hearlier : ∃ live log,
      history .new [] [(.readWrite, [.execute createNode, .commit true])] = some (live, log) :=
    ⟨_, _, rfl⟩
  obtain ⟨live, log, hearlier⟩ := hearlier
  obtain ⟨s₃, hend, hview⟩ := (transactions_in_step .new hearlier
    (rfl : (start live log .readWrite).run [.execute createNode] = some _)).2.2.2.2 createNode _
      [.pull [.tryCreateNode ["A"] .empty]] _ rfl rfl (by simp [TxOp.keeps]) rfl
  exact ⟨live, log, _, _, _, s₃, hearlier, rfl, rfl, rfl, hend, hview⟩

/-! ### What a stream borrows -/

/-- A stream's graph is there. -/
structure Borrows (s : Session) : Prop where
  active : s.stream.isSome = true → s.inner.cursorActive = true
  staged : s.stream.isSome = true → s.inner.staged.isSome = true
  unclosed : s.handle = true → s.inner.closed = false

theorem Borrows.idle (h : Borrows s) (hactive : ¬ s.inner.cursorActive = true) :
    s.stream.isSome = false :=
  Bool.eq_false_iff.mpr fun hstream => hactive (h.active hstream)

/-- Where there is no stream. -/
theorem Borrows.of_none (hstream : s.stream.isSome = false)
    (hunclosed : s.handle = true → s.inner.closed = false) : Borrows s where
  active hsome := absurd (hstream.symm.trans hsome) nofun
  staged hsome := absurd (hstream.symm.trans hsome) nofun
  unclosed := hunclosed

theorem write_borrows (inner : TxInner) (mutations : List StoreMutation) :
    (inner.write mutations).cursorActive = inner.cursorActive ∧
      (inner.write mutations).closed = inner.closed ∧
      (inner.write mutations).staged.isSome = inner.staged.isSome := by
  rw [TxInner.write]
  split
  next hstaged => exact ⟨rfl, rfl, rfl⟩
  next g hstaged => exact ⟨rfl, rfl, (congrArg Option.isSome hstaged).symm⟩

theorem prepare_borrows (s : Session) (mutating : Bool) :
    (s.prepareStreamStaging mutating).cursorActive = true ∧
      (s.prepareStreamStaging mutating).closed = s.inner.closed ∧
      (s.prepareStreamStaging mutating).staged.isSome = true := by
  rw [prepareStreamStaging, TxInner.ensureStaged]
  split
  next g hstaged => exact ⟨rfl, rfl, congrArg Option.isSome hstaged⟩
  next => exact ⟨rfl, rfl, rfl⟩

/-- A statement that is not refused finds no stream. -/
theorem Borrows.of_begin (h : Borrows s) (hbegin : s.inner.beginStatement = .ok ()) :
    s.inner.closed = false ∧ s.stream.isSome = false := by
  rw [TxInner.beginStatement] at hbegin
  split_ifs at hbegin with hclosed hactive
  exact ⟨Bool.eq_false_iff.mpr hclosed, h.idle hactive⟩

theorem finalize_closed (inner : TxInner) (outcome : TxStreamOutcome) (mutating : Bool) :
    (inner.finalizeStream outcome mutating).closed = inner.closed := by
  rw [TxInner.finalizeStream]
  dsimp only
  split_ifs with hclosed
  · exact hclosed.symm
  · rw [TxInner.restorePendingSavepoint]
    split <;> rfl
  · rfl

theorem Borrows.execute (h : Borrows s) (statement : Statement) :
    Borrows (s.execute statement).1 := by
  rw [Session.execute]
  cases hbegin : s.inner.beginStatement with
  | error e => exact h
  | ok _ =>
    obtain ⟨hclosed, hstream⟩ := h.of_begin hbegin
    have hwritten := (write_borrows (s.inner.ensureStaged s.snapshot)
      (statement.mutations s.graph)).2.1
    have hensured : (s.inner.ensureStaged s.snapshot).closed = false := by
      rw [TxInner.ensureStaged]
      split <;> exact hclosed
    dsimp only
    split_ifs
    any_goals exact h
    · exact .of_none hstream fun _ => hwritten.trans hensured
    · exact .of_none hstream fun _ => hwritten.trans hensured

theorem Borrows.openStream (h : Borrows s) (statement : Statement) :
    Borrows (s.openStream statement).1 := by
  rw [Session.openStream]
  cases hbegin : s.inner.beginStatement with
  | error e => exact h
  | ok _ =>
    obtain ⟨hclosed, hstream⟩ := h.of_begin hbegin
    obtain ⟨hactive, hkept, hstaged⟩ := s.prepare_borrows statement.mutating
    obtain ⟨hactive', hkept', hstaged'⟩ := write_borrows
      (s.prepareStreamStaging statement.mutating) (statement.mutations s.graph)
    have hopened : ∀ opened : TxInner, opened =
        (if statement.mutating then (s.prepareStreamStaging statement.mutating).write
          (statement.mutations s.graph) else s.prepareStreamStaging statement.mutating) →
        opened.cursorActive = true ∧ opened.staged.isSome = true ∧ opened.closed = false := by
      rintro opened rfl
      split_ifs
      · exact ⟨hactive'.trans hactive, hstaged'.trans hstaged, hkept'.trans (hkept.trans hclosed)⟩
      · exact ⟨hactive, hstaged, hkept.trans hclosed⟩
    obtain ⟨hcursor, hgraph, hunclosed⟩ := hopened _ rfl
    by_cases hreadOnly : s.inner.mode = .readOnly ∧ statement.mutating
    · simp only [if_pos hreadOnly]
      exact h
    simp only [if_neg hreadOnly]
    by_cases hfails : statement.fails s.graph
    · simp only [if_pos hfails]
      exact .of_none hstream fun _ => (finalize_closed _ _ _).trans hunclosed
    · simp only [if_neg hfails]
      exact ⟨fun _ => hcursor, fun _ => hgraph, fun _ => hunclosed⟩

/-- A transaction given up leaves its stream the graph. -/
theorem Borrows.giveUp (h : Borrows s) : Borrows s.giveUp := by
  rw [Session.giveUp]
  split_ifs with hclosed hactive
  · exact ⟨h.active, h.staged, nofun⟩
  · exact ⟨h.active, h.staged, nofun⟩
  · exact .of_none (h.idle hactive) nofun

theorem Borrows.commit (h : Borrows s) (logOk : Bool) : Borrows (s.commit logOk).1 := by
  rw [Session.commit]
  by_cases hactive : s.inner.cursorActive
  · rw [if_pos hactive]
    exact h.giveUp
  have hnone := h.idle hactive
  rw [if_neg hactive]
  by_cases hclosed : s.inner.closed
  · rw [if_pos hclosed]
    exact h.giveUp
  rw [if_neg hclosed]
  dsimp only
  split_ifs <;> exact .of_none hnone nofun

/-- Every call but a rollback keeps a stream its graph. -/
theorem Borrows.step (h : Borrows s) (hrollback : op = .rollback → s.stream = none)
    (hstep : s.step op = some (s', answer)) : Borrows s' := by
  cases op with
  | execute statement =>
    obtain ⟨-, rfl, -⟩ := held_eq hstep
    exact h.execute statement
  | openStream statement =>
    obtain ⟨-, rfl, -⟩ := held_eq hstep
    exact h.openStream statement
  | pull mutations =>
    rw [Session.step] at hstep
    split at hstep
    next =>
      cases hstep
      obtain ⟨hactive, hclosed, hstaged⟩ := write_borrows s.inner mutations
      exact ⟨fun hstream => hactive.trans (h.active hstream),
        fun hstream => hstaged.trans (h.staged hstream),
        fun hhandle => hclosed.trans (h.unclosed hhandle)⟩
    next =>
      cases hstep
      exact h
    next => cases hstep
  | endStream outcome =>
    obtain ⟨mutating, -, hresult⟩ := map_eq_some_iff.mp hstep
    cases hresult
    exact ⟨nofun, nofun, fun hhandle => (finalize_closed _ _ _).trans (h.unclosed hhandle)⟩
  | commit logOk =>
    obtain ⟨-, rfl, -⟩ := held_eq hstep
    exact h.commit logOk
  | rollback =>
    have hnone := hrollback rfl
    rw [Session.step] at hstep
    split_ifs at hstep <;> cases hstep
    · exact h.giveUp
    · exact .of_none (congrArg Option.isSome hnone) nofun
  | drop =>
    obtain ⟨-, rfl, -⟩ := held_eq hstep
    exact h.giveUp

theorem Borrows.run (h : Borrows s) (hrun : s.run ops = some s')
    (hrollback : ∀ before after s₁, ops = before ++ .rollback :: after →
      s.run before = some s₁ → s₁.stream = none) : Borrows s' := by
  induction ops generalizing s with
  | nil =>
    cases hrun
    exact h
  | cons op ops ih =>
    obtain ⟨⟨s₁, answer⟩, hop, hrest⟩ := bind_eq_some_iff.mp hrun
    refine ih (h.step (fun hrolled => ?_) hop) hrest fun before after s₂ hsplit hbefore => ?_
    · exact hrollback [] ops s (congrArg (· :: ops) hrolled) rfl
    · refine hrollback (op :: before) after s₂ (congrArg (op :: ·) hsplit) ?_
      rw [Session.run, hop]
      exact hbefore

/-- What is called on a transaction under its stream is refused, but for a rollback, and leaves the
staged graph alone. -/
theorem Borrows.untouched (h : Borrows s) (hstream : s.stream.isSome = true)
    {s' : Session} {answer : Answer} (hstep : s.step op = some (s', answer))
    (hopen : s'.stream.isSome = true) (hrollback : op ≠ .rollback)
    (hpull : ∀ pulled, op ≠ .pull pulled) : s'.inner.staged = s.inner.staged := by
  have hactive := h.active hstream
  have hgiveUp : s.handle = true → s.giveUp.inner.staged = s.inner.staged := fun hhandle => by
    simp [Session.giveUp, h.unclosed hhandle, hactive]
  cases op with
  | pull pulled => exact absurd rfl (hpull pulled)
  | rollback => exact absurd rfl hrollback
  | endStream outcome =>
    obtain ⟨mutating, -, heq⟩ := map_eq_some_iff.mp hstep
    cases heq
    cases hopen
  | execute statement | openStream statement =>
    obtain ⟨hhandle, heq⟩ := ite_none_right_eq_some.mp hstep
    simp only [Session.execute, Session.openStream, TxInner.beginStatement, h.unclosed hhandle,
      hactive, if_true, Bool.false_eq_true, if_false, Option.some.injEq, Prod.mk.injEq] at heq
    rw [← heq.1]
  | commit logOk =>
    obtain ⟨hhandle, heq⟩ := ite_none_right_eq_some.mp hstep
    rw [Session.commit, if_pos hactive] at heq
    cases heq
    exact hgiveUp hhandle
  | drop =>
    obtain ⟨hhandle, heq⟩ := ite_none_right_eq_some.mp hstep
    cases heq
    exact hgiveUp hhandle

/-- **Streams.** A stream can be read on in any run that makes no rollback under it, and while it
is open only its own pulls change the staged graph; a rollback frees the graph it still borrows. -/
theorem stream_borrows {mode : TransactionMode} (hrun : (start live log mode).run ops = some s)
    (hrollback : ∀ before after s₁, ops = before ++ .rollback :: after →
      (start live log mode).run before = some s₁ → s₁.stream = none)
    (mutations : List StoreMutation) (hstream : s.stream.isSome = true) :
    s.inner.staged.isSome = true ∧ (s.step (.pull mutations)).isSome = true ∧
      (s.handle = true → ∃ s', s.step .rollback = some (s', .done) ∧ s'.stream = s.stream ∧
        s'.inner.staged = none ∧ s'.step (.pull mutations) = none) ∧
      ∀ op s' answer, s.step op = some (s', answer) → s'.stream.isSome = true →
        op ≠ .rollback → (∀ pulled, op ≠ .pull pulled) → s'.inner.staged = s.inner.staged := by
  have hborrows : Borrows s :=
    Borrows.run (s := start live log mode) ⟨nofun, nofun, fun _ => rfl⟩ hrun hrollback
  have hstaged := hborrows.staged hstream
  obtain ⟨g, hg⟩ := Option.isSome_iff_exists.mp hstaged
  obtain ⟨mutating, hmutating⟩ := Option.isSome_iff_exists.mp hstream
  refine ⟨hstaged, ?_, fun hhandle => ?_, fun op s' answer hstep hopen hrollback hpull =>
    hborrows.untouched hstream hstep hopen hrollback hpull⟩
  · cases mutating <;> simp [Session.step, hmutating, hg]
  · refine ⟨{ s with handle := false, inner := s.inner.discard }, ?_, rfl, rfl, ?_⟩
    · simp [Session.step, hhandle, hborrows.unclosed hhandle]
    · cases mutating <;> simp [Session.step, hmutating, TxInner.discard]

/-- A stream that writes, after a statement that did. -/
theorem stream_borrows_open :
    ∃ s s', (start .new [] .readWrite).run [.execute createNode, .openStream createNode] = some s ∧
      s.inner.staged.isSome = true ∧ s.step .rollback = some (s', .done) ∧
      s'.inner.staged = none ∧ s'.step (.pull []) = none := by
  have hrun : ∃ s, (start .new [] .readWrite).run
      [.execute createNode, .openStream createNode] = some s ∧ s.stream.isSome = true ∧
        s.handle = true := ⟨_, rfl, rfl, rfl⟩
  obtain ⟨s, hrun, hstream, hhandle⟩ := hrun
  have hnever : TxOp.rollback ∉ [.execute createNode, .openStream createNode] := by simp
  obtain ⟨hstaged, -, hrolled, -⟩ := stream_borrows hrun
    (fun before after s₁ hsplit _ => absurd (hsplit ▸ mem_append_right before mem_cons_self) hnever)
    [] hstream
  obtain ⟨s', hrollback, -, hgone, hpull⟩ := hrolled hhandle
  exact ⟨s, s', hrun, hstaged, hrollback, hgone, hpull⟩

end Session

end LoraDb
