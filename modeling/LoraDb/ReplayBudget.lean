import LoraDb.Replay

/-!
# Replay Does Not Depend on Its Budget

What replay hands its sink depends on how much it may buffer; what the sink *ends up with*
must not. The argument is made once, for every sink that behaves like one (`SinkSpec`): it
can always take provisional parts, and always take them back.

`Inv` relates the state of the machine after some records to the transaction log those
records spell: a bucket exists exactly for an open transaction, a bucket that was neither
streamed nor withdrawn holds all its events, the streaming transaction's parts and bucket
together hold all of its events, and a withdrawn transaction was interrupted by another.

## Main results

* `acceptRecord_inv`, `acceptSegments_inv`: the step and the run lemma, for any sink.
* `replayInto_outcome`: what a sink holds when replay ends, and why it may stop before.
* `replayEvents_budget`: collecting gives the expected result for every budget, or fails
  for an interleaved transaction; the steps of a replay that is not refused are settled.
* `replayGraph_budget`: the graph built while the log is read is the one the committed
  events build.
-/

open TxLog Function

namespace LoraDb

open List

/-! ### What a log is expected to give -/

/-- A record above the fence may follow `pre`: it belongs to an open transaction, or is a
marker that neither points past itself nor regresses. -/
def Admissible (fence : Lsn) (pre : List WalRecord) : WalRecord → Prop
  | .checkpoint lsn snapshotLsn =>
    snapshotLsn ≤ lsn ∧ ∀ prev ∈ (markers fence pre).getLast?, prev ≤ snapshotLsn
  | r => Accepts (txLog fence pre) r.entry

instance (fence : Lsn) (pre : List WalRecord) (r : WalRecord) :
    Decidable (Admissible fence pre r) := by
  cases r <;> unfold Admissible <;> infer_instance

/-- The error for a record that may not follow `pre`. -/
def rejection (fence : Lsn) (pre : List WalRecord) : WalRecord → WalError
  | .mutation lsn t _ => missingTxBegin "mutation" lsn t
  | .mutationBatch lsn t _ => missingTxBegin "mutation batch" lsn t
  | .txCommit lsn t => missingTxBegin "commit" lsn t
  | .txAbort lsn t => missingTxBegin "abort" lsn t
  | .txBegin lsn => .malformed s!"duplicate tx begin at lsn {lsn}"
  | .checkpoint lsn snapshotLsn =>
    if lsn < snapshotLsn then checkpointInFuture lsn snapshotLsn
    else checkpointRegressed snapshotLsn ((markers fence pre).getLast?.getD 0)

/-- The error of the first record above the fence that may not follow the ones before
it. -/
def firstRejection (fence : Lsn) (pre : List WalRecord) : List WalRecord → Option WalError
  | [] => none
  | r :: rest =>
    if fence < r.lsn ∧ ¬ Admissible fence pre r then some (rejection fence pre r)
    else firstRejection fence (pre ++ [r]) rest

theorem firstRejection_append (fence : Lsn) (pre rs rs' : List WalRecord) :
    firstRejection fence pre (rs ++ rs') =
      (firstRejection fence pre rs).or (firstRejection fence (pre ++ rs) rs') := by
  induction rs generalizing pre with
  | nil => simp [firstRejection]
  | cons r rs ih =>
    by_cases h : fence < r.lsn ∧ ¬ Admissible fence pre r
    · simp [firstRejection, h]
    · simp [firstRejection, h, ih]

/-- What a log should replay to: the events of the transactions it commits, unless some
record may not stand where it stands. -/
def expectedEvents (fence : Lsn) (records : List WalRecord) :
    Except WalError (List MutationEvent) :=
  match firstRejection fence [] records with
  | some e => .error e
  | none => .ok (committedEvents fence records)

/-- The LSNs of a log ascend: within a segment, from its base on, and from one segment to the
next. -/
structure LsnOrdered (segments : List ReadSegment) : Prop where
  bases : segments.Pairwise fun s s' => s.base < s'.base ∧ ∀ r ∈ s.records, r.1.lsn < s'.base
  within : ∀ s ∈ segments, ∀ r ∈ s.records, s.base ≤ r.1.lsn
  ascending : ∀ s ∈ segments, s.records.Pairwise fun r r' => r.1.lsn < r'.1.lsn

instance (segments : List ReadSegment) : Decidable (LsnOrdered segments) :=
  decidable_of_iff
    ((segments.Pairwise fun s s' => s.base < s'.base ∧ ∀ r ∈ s.records, r.1.lsn < s'.base) ∧
      (∀ s ∈ segments, ∀ r ∈ s.records, s.base ≤ r.1.lsn) ∧
      ∀ s ∈ segments, s.records.Pairwise fun r r' => r.1.lsn < r'.1.lsn)
    ⟨fun ⟨h, h', h''⟩ => ⟨h, h', h''⟩, fun ⟨h, h', h''⟩ => ⟨h, h', h''⟩⟩

/-- The records of a log, in order. -/
def recordsOf (segments : List ReadSegment) : List WalRecord :=
  segments.flatMap fun s => s.records.map Prod.fst

/-! ### Sinks -/

variable {σ : Type}

/-- What replay may rely on in a sink. `Holds s done prov` says that `s` reflects the events
`done` for good and the events `prov`, if any, provisionally. -/
structure SinkSpec (sink : ReplaySink σ) where
  Holds : σ → List MutationEvent → Option (List MutationEvent) → Prop
  /-- The error a sink may stop replay with, given all the events committed so far. -/
  Fails : WalError → List MutationEvent → Prop
  commit : ∀ {s done prov} (rest : List MutationEvent), Holds s done prov →
    match sink s (.commit rest) with
    | .ok s' => Holds s' (done ++ (prov.getD [] ++ rest)) none
    | .error (e, _) => Fails e (done ++ (prov.getD [] ++ rest))
  part : ∀ {s done prov} (events : List MutationEvent), Holds s done prov →
    ∃ s', sink s (.part events) = .ok s' ∧ Holds s' done (some (prov.getD [] ++ events))
  discard : ∀ {s done prov}, Holds s done (some prov) →
    ∃ s', sink s .discard = .ok s' ∧ Holds s' done none

/-- Why replay may **stop** before the end of a log, and what it then leaves in the sink. -/
inductive Stopped {sink : ReplaySink σ} (S : SinkSpec sink) (fence : Lsn)
    (records : List WalRecord) : WalError × σ → Prop where
  /-- A record may not stand where it stands. -/
  | rejected {e s} : firstRejection fence [] records = some e → Stopped S fence records (e, s)
  /-- A transaction commits whose parts were taken back. -/
  | withdrawn {t lsn s pre} : Interleaved (txLog fence records) t →
      S.Holds s (committedEvents fence pre) none →
      Stopped S fence records (withdrawnCommit t lsn, s)
  /-- The sink failed. -/
  | failed {e s pre} : pre <+: records → firstRejection fence [] pre = none →
      S.Fails e (committedEvents fence pre) → Stopped S fence records (e, s)

/-- What stops replay stops it whatever follows. -/
theorem Stopped.append {sink : ReplaySink σ} {S : SinkSpec sink} {fence : Lsn}
    {records : List WalRecord} {es : WalError × σ} (h : Stopped S fence records es)
    (more : List WalRecord) : Stopped S fence (records ++ more) es := by
  cases h with
  | rejected hrej =>
    refine .rejected ?_
    rw [firstRejection_append, hrej, Option.some_or]
  | withdrawn hinter hholds =>
    refine .withdrawn ?_ hholds
    rw [txLog_append]
    exact hinter.append _
  | failed hcut hrej hfails =>
    exact .failed (hcut.trans (prefix_append _ _)) hrej hfails

/-! ### The buckets -/

/-- What the buckets and the sink say about the log read so far. -/
structure Buckets {sink : ReplaySink σ} (S : SinkSpec sink)
    (log : List (Entry Lsn MutationEvent)) (st : ReplayState σ) : Prop where
  pending : ∀ t, (st.pending t).isSome = true ↔ Open log t
  buffered : ∀ t p, st.pending t = some p → st.streaming ≠ some t → t ∉ st.withdrawn →
    p.events = eventsOf t log
  idle : st.streaming = none → S.Holds st.sink (committed log) none
  streaming : ∀ t, st.streaming = some t → t ∉ st.withdrawn ∧ ∃ p streamed,
    st.pending t = some p ∧ S.Holds st.sink (committed log) (some streamed) ∧
      streamed ++ p.events = eventsOf t log

/-- The state in which the record of `u` that follows `log` is handled: the sink holds no
parts of another transaction. -/
structure Turn {sink : ReplaySink σ} (S : SinkSpec sink)
    (log : List (Entry Lsn MutationEvent)) (u : Lsn) (st : ReplayState σ) : Prop
    extends Buckets S log st where
  alone : st.streaming = none ∨ st.streaming = some u
  taken : ∀ t ∈ st.withdrawn, Interrupted log t ∨ (t ≠ u ∧ .begin t ∈ log)

section Buckets

variable {sink : ReplaySink σ} {S : SinkSpec sink} {log : List (Entry Lsn MutationEvent)}
  {st : ReplayState σ}

/-- The sink's provisional events and the bucket of the one transaction it may be streaming
are together all of that transaction's events. -/
theorem Buckets.holds (h : Buckets S log st) {t : Lsn} {p : PendingTx}
    (hp : st.pending t = some p) (hstream : st.streaming = none ∨ st.streaming = some t)
    (hkept : t ∉ st.withdrawn) :
    ∃ prov, S.Holds st.sink (committed log) prov ∧ prov.getD [] ++ p.events = eventsOf t log := by
  rcases hstream with hnone | hsome
  · refine ⟨none, h.idle hnone, ?_⟩
    rw [h.buffered t p hp (by simp [hnone]) hkept]
    rfl
  · obtain ⟨-, p', streamed, hp', hholds, hall⟩ := h.streaming t hsome
    obtain rfl := Option.some.inj (hp.symm.trans hp')
    exact ⟨some streamed, hholds, hall⟩

/-- Withdrawing always succeeds, and touches neither the buckets nor the counters. -/
theorem Buckets.withdraw (h : Buckets S log st)
    (hint : ∀ t ∈ st.withdrawn, Interrupted log t) (u : Lsn) :
    ∃ st', st.withdrawOtherThan sink u = .ok st' ∧ Turn S log u st' ∧ st'.pending = st.pending ∧
      (st'.lastLsn = st.lastLsn ∧ st'.maxLsn = st.maxLsn) ∧
      st'.checkpointLsnObserved = st.checkpointLsnObserved ∧
      st'.lastSegmentBase = st.lastSegmentBase := by
  have hkeep : ∀ t ∈ st.withdrawn, Interrupted log t ∨ (t ≠ u ∧ .begin t ∈ log) :=
    fun t ht => Or.inl (hint t ht)
  cases hstream : st.streaming with
  | none =>
    refine ⟨st, ?_, ⟨h, Or.inl hstream, hkeep⟩, rfl, ⟨rfl, rfl⟩, rfl, rfl⟩
    simp only [ReplayState.withdrawOtherThan, hstream]
  | some t =>
    by_cases heq : t = u
    · subst heq
      refine ⟨st, ?_, ⟨h, Or.inr hstream, hkeep⟩, rfl, ⟨rfl, rfl⟩, rfl, rfl⟩
      simp only [ReplayState.withdrawOtherThan, hstream, ne_eq, not_true, if_false]
    · obtain ⟨-, p, streamed, hp, hholds, -⟩ := h.streaming t hstream
      obtain ⟨s', hs', hholds'⟩ := S.discard hholds
      refine ⟨{ st with streaming := none, withdrawn := st.withdrawn ++ [t], sink := s' },
        ?_, ⟨⟨h.pending, ?_, fun _ => hholds', nofun⟩, Or.inl rfl, ?_⟩, rfl, ⟨rfl, rfl⟩, rfl, rfl⟩
      · simp only [ReplayState.withdrawOtherThan, hstream, ne_eq, heq, not_false_eq_true,
          if_true, hs']
        rfl
      · intro t' p' hp' _ hkept'
        simp only [mem_append, mem_singleton, not_or] at hkept'
        refine h.buffered t' p' hp' ?_ hkept'.1
        rw [hstream]
        exact fun heq => hkept'.2 (Option.some.inj heq).symm
      · intro t' ht'
        rcases List.mem_append.mp ht' with ht' | ht'
        · exact hkeep t' ht'
        · obtain rfl := List.mem_singleton.mp ht'
          have hopen : Open log t' := (h.pending t').mp (by simp [hp])
          exact Or.inr ⟨heq, hopen.1⟩

variable {e : Entry Lsn MutationEvent}

/-- Once the record is in the log, every withdrawn transaction has been interrupted. -/
theorem Turn.interrupted {u : Lsn} (h : Turn S log u st)
    (he : e.tx = some u) : ∀ t ∈ st.withdrawn, Interrupted (log ++ [e]) t := by
  intro t ht
  rcases h.taken t ht with hint | ⟨hne, hbegin⟩
  · exact hint.append [e]
  · exact interrupted_snoc hbegin he hne.symm

/-- Entries that commit nothing leave the committed events alone. -/
theorem committed_snoc_of_commits_nil
    (he : e.commits log = []) : committed (log ++ [e]) = committed log := by
  rw [committed_snoc, he, append_nil]

/-- The bucket of a new transaction. -/
theorem Turn.begin {l : Lsn} (h : Turn S log l st) (hfresh : ∀ e ∈ log, e.tx ≠ some l) :
    Buckets S (log ++ [.begin l]) { st with pending := update st.pending l (some ⟨[], 0⟩) } := by
  have hclosed : ¬ Open log l := fun hopen => hfresh _ hopen.1 rfl
  have hnone : st.streaming = none := by
    rcases h.alone with hnone | hsome
    · exact hnone
    · obtain ⟨-, p, -, hp, -⟩ := h.streaming l hsome
      exact absurd ((h.pending l).mp (by simp [hp])) hclosed
  have hempty : eventsOf l log = [] := by
    simp only [eventsOf, flatMap_eq_nil_iff]
    exact fun e he => Entry.eventsOf_of_tx_ne (hfresh e he)
  refine ⟨fun t => ?_, fun t p hp _ hkept => ?_, fun _ => ?_, ?_⟩
  · by_cases heq : t = l
    · subst heq
      have hopen : Open (log ++ [.begin t]) t :=
        open_snoc_begin fun e he hends => hfresh e he (Entry.tx_of_ends hends)
      simp [hopen]
    · have hne : (Entry.begin l : Entry Lsn MutationEvent) ≠ .begin t :=
        fun hbegin => heq (Entry.begin.inj hbegin).symm
      rw [open_snoc_iff hne not_false, ← h.pending t]
      simp [update_of_ne heq]
  · by_cases heq : t = l
    · subst heq
      simp only [update_self, Option.some.injEq] at hp
      subst hp
      simp [hempty, Entry.eventsOf]
    · simp only [update_of_ne heq] at hp
      rw [h.buffered t p hp (by simp [hnone]) hkept]
      simp [Entry.eventsOf]
  · rw [committed_snoc_of_commits_nil rfl]
    exact h.idle hnone
  · intro t ht
    simp only [hnone, reduceCtorEq] at ht

/-- Events of an open transaction leave every transaction's openness alone. -/
theorem open_snoc_add {t u : Lsn} {events : List MutationEvent} :
    Open (log ++ [.add u events]) t ↔ Open log t :=
  open_snoc_iff nofun not_false

/-- Events handed on to the sink. -/
theorem Turn.part {u : Lsn} (h : Turn S log u st) {p : PendingTx}
    (hp : st.pending u = some p) (hkept : u ∉ st.withdrawn) (events : List MutationEvent) :
    ∃ s', sink st.sink (.part (p.events ++ events)) = .ok s' ∧ Buckets S (log ++ [.add u events])
        { st with
          pending := update st.pending u (some ⟨[], 0⟩)
          streaming := some u
          sink := s' } := by
  obtain ⟨prov, hholds, hall⟩ := h.holds hp h.alone hkept
  obtain ⟨s', hs', hholds'⟩ := S.part (p.events ++ events) hholds
  refine ⟨s', hs', ⟨fun t => ?_, fun t p' hp' hne hkept' => ?_, nofun, fun t ht => ?_⟩⟩
  · rw [open_snoc_add, ← h.pending t]
    by_cases heq : t = u
    · subst heq
      simp [hp]
    · simp [update_of_ne heq]
  · have heq : t ≠ u := fun heq => hne (congrArg some heq.symm)
    simp only [update_of_ne heq] at hp'
    have hidle : st.streaming ≠ some t := by
      rcases h.alone with hnone | hsome
      · simp [hnone]
      · rw [hsome]
        exact hne
    rw [h.buffered t p' hp' hidle hkept']
    simp [Entry.eventsOf, heq.symm]
  · obtain rfl := Option.some.inj ht
    refine ⟨hkept, ⟨[], 0⟩, prov.getD [] ++ (p.events ++ events), by simp, ?_, ?_⟩
    · rw [committed_snoc_of_commits_nil rfl]
      exact hholds'
    · simp [Entry.eventsOf, ← hall]

/-- Events buffered with their transaction. -/
theorem Turn.buffer {u : Lsn} (h : Turn S log u st) {p : PendingTx}
    (hp : st.pending u = some p) (events : List MutationEvent) (bytes : ℕ) :
    Buckets S (log ++ [.add u events])
      { st with pending := update st.pending u (some ⟨p.events ++ events, bytes⟩) } := by
  refine ⟨fun t => ?_, fun t p' hp' hne hkept => ?_, fun hidle => ?_, fun t ht => ?_⟩
  · rw [open_snoc_add, ← h.pending t]
    by_cases heq : t = u
    · subst heq
      simp [hp]
    · simp [update_of_ne heq]
  · by_cases heq : t = u
    · subst heq
      simp only [update_self, Option.some.injEq] at hp'
      subst hp'
      simp [Entry.eventsOf, h.buffered t p hp hne hkept]
    · simp only [update_of_ne heq] at hp'
      rw [h.buffered t p' hp' hne hkept]
      simp [Entry.eventsOf, Ne.symm heq]
  · rw [committed_snoc_of_commits_nil rfl]
    exact h.idle hidle
  · obtain rfl : t = u := by
      rcases h.alone with hnone | hsome
      · exact absurd (hnone.symm.trans ht) (by simp)
      · exact (Option.some.inj (hsome.symm.trans ht)).symm
    obtain ⟨hkept, p', streamed, hp', hholds, hall⟩ := h.streaming t ht
    obtain rfl := Option.some.inj (hp.symm.trans hp')
    refine ⟨hkept, ⟨p.events ++ events, bytes⟩, streamed, by simp, ?_, ?_⟩
    · rw [committed_snoc_of_commits_nil rfl]
      exact hholds
    · simp [Entry.eventsOf, ← hall]

/-- Dropping the bucket of a transaction that ends. -/
theorem pending_snoc_of_ends (hpending : ∀ t, (st.pending t).isSome = true ↔ Open log t)
    {u : Lsn} (hends : e.Ends u) (hbegin : ∀ t, e ≠ .begin t)
    (t : Lsn) :
    (update st.pending u none t).isSome = true ↔ Open (log ++ [e]) t := by
  by_cases heq : t = u
  · subst heq
    simp [not_open_snoc_of_ends hends]
  · have hends' : ¬ e.Ends t := fun h =>
      heq (Option.some.inj ((Entry.tx_of_ends h).symm.trans (Entry.tx_of_ends hends)))
    rw [open_snoc_iff (hbegin t) hends', ← hpending t]
    simp [update_of_ne heq]

/-- A commit the sink takes. -/
theorem Turn.commit {u : Lsn} (h : Turn S log u st) {s' : σ}
    (hholds : S.Holds s' (committed (log ++ [.commit u])) none) :
    Buckets S (log ++ [.commit u])
      { st with pending := update st.pending u none, streaming := none, sink := s' } := by
  refine ⟨pending_snoc_of_ends h.pending rfl nofun, fun t p hp _ hkept => ?_,
    fun _ => hholds, nofun⟩
  by_cases heq : t = u
  · subst heq
    simp at hp
  · simp only [update_of_ne heq] at hp
    have hidle : st.streaming ≠ some t := by
      rcases h.alone with hnone | hsome
      · simp [hnone]
      · rw [hsome]
        exact fun h => heq (Option.some.inj h).symm
    rw [h.buffered t p hp hidle hkept]
    simp [Entry.eventsOf]

/-- An abort takes back the parts of its own transaction, and leaves another's alone. -/
theorem Buckets.abort (h : Buckets S log st) (u : Lsn) :
    if st.streaming = some u then
      ∃ s', sink st.sink .discard = .ok s' ∧ Buckets S (log ++ [.abort u])
        { st with pending := update st.pending u none, streaming := none, sink := s' }
    else Buckets S (log ++ [.abort u]) { st with pending := update st.pending u none } := by
  have hpending : ∀ t, (update st.pending u none t).isSome = true ↔ Open (log ++ [.abort u]) t :=
    pending_snoc_of_ends h.pending rfl fun _ heq => (by cases heq)
  have hcommitted : committed (log ++ [.abort u]) = committed log :=
    committed_snoc_of_commits_nil rfl
  have hevents : ∀ t, eventsOf t (log ++ [.abort u]) = eventsOf t log := fun t => by
    simp [Entry.eventsOf]
  split_ifs with hstream
  · obtain ⟨-, -, streamed, -, hholds, -⟩ := h.streaming u hstream
    obtain ⟨s', hs', hholds'⟩ := S.discard hholds
    refine ⟨s', hs', hpending, fun t p' hp' _ hkept => ?_, fun _ => ?_, fun _ heq => (by cases heq)⟩
    · have heq : t ≠ u := fun heq => by simp [heq] at hp'
      simp only [update_of_ne heq] at hp'
      rw [hevents]
      refine h.buffered t p' hp' ?_ hkept
      rw [hstream]
      exact fun h => heq (Option.some.inj h).symm
    · rw [hcommitted]
      exact hholds'
  · refine ⟨hpending, fun t p' hp' hne hkept => ?_, fun hidle => ?_, fun t ht => ?_⟩
    · have heq : t ≠ u := fun heq => by simp [heq] at hp'
      simp only [update_of_ne heq] at hp'
      rw [hevents]
      exact h.buffered t p' hp' hne hkept
    · rw [hcommitted]
      exact h.idle hidle
    · obtain ⟨hkept, p', streamed, hp', hholds, hall⟩ := h.streaming t ht
      have heq : t ≠ u := fun heq => hstream (heq ▸ ht)
      refine ⟨hkept, p', streamed, ?_, ?_, ?_⟩
      · simp [update_of_ne heq, hp']
      · rw [hcommitted]
        exact hholds
      · rw [hevents]
        exact hall

/-- An entry of no transaction. -/
theorem Buckets.mark (h : Buckets S log st) : Buckets S (log ++ [.mark]) st := by
  have hopen : ∀ t, Open (log ++ [.mark]) t ↔ Open log t := fun t =>
    open_snoc_iff nofun not_false
  have hevents : ∀ t, eventsOf t (log ++ [.mark]) = eventsOf t log := fun t => by
    simp [Entry.eventsOf]
  have hcommitted : committed (log ++ [.mark]) = committed log :=
    committed_snoc_of_commits_nil rfl
  constructor
  · intro t
    rw [hopen]
    exact h.pending t
  · intro t p hp hne hkept
    rw [hevents]
    exact h.buffered t p hp hne hkept
  · intro hidle
    rw [hcommitted]
    exact h.idle hidle
  · intro t ht
    rw [hcommitted, hevents]
    exact h.streaming t ht

end Buckets

/-! ### One record -/

/-- The LSN of the last record. -/
def lastLsnOf (records : List WalRecord) : Lsn := (records.getLast?.map WalRecord.lsn).getD 0

theorem lastLsnOf_concat (records : List WalRecord) (r : WalRecord) :
    lastLsnOf (records ++ [r]) = r.lsn := by
  simp [lastLsnOf]

theorem lastLsnOf_cases (records : List WalRecord) :
    lastLsnOf records = 0 ∨ ∃ r ∈ records, r.lsn = lastLsnOf records := by
  rcases eq_nil_or_concat records with rfl | ⟨pre, r, rfl⟩
  · exact Or.inl rfl
  · rw [concat_eq_append, lastLsnOf_concat]
    exact Or.inr ⟨r, by simp, rfl⟩

/-- What replay knows after the records `pre`. -/
structure Inv {sink : ReplaySink σ} (S : SinkSpec sink) (fence : Lsn) (base : Option Lsn)
    (pre : List WalRecord) (st : ReplayState σ) : Prop
    extends Buckets S (txLog fence pre) st where
  segment : st.lastSegmentBase = base
  interrupted : ∀ t ∈ st.withdrawn, Interrupted (txLog fence pre) t
  last : st.lastLsn = lastLsnOf pre ∧ st.maxLsn = lastLsnOf pre
  named : ∀ e ∈ txLog fence pre, ∀ t, e.tx = some t → ∃ r ∈ pre, r.lsn = t
  observed : st.checkpointLsnObserved = (markers fence pre).getLast?
  admitted : firstRejection fence [] pre = none

/-- Replay has read `records` and goes on, or has stopped among them. -/
def Continues {sink : ReplaySink σ} (S : SinkSpec sink) (fence : Lsn) (base : Option Lsn)
    (records : List WalRecord) : ReplayResult σ (ReplayState σ) → Prop
  | .ok st => Inv S fence base records st
  | .error es => Stopped S fence records es

/-- The record `r` is about to be handled, and lies above the fence. -/
structure Ready {sink : ReplaySink σ} (S : SinkSpec sink) (fence : Lsn) (base : Option Lsn)
    (pre : List WalRecord) (r : WalRecord) (st : ReplayState σ) : Prop
    extends Buckets S (txLog fence pre) st where
  segment : st.lastSegmentBase = base
  interrupted : ∀ t ∈ st.withdrawn, Interrupted (txLog fence pre) t
  last : st.lastLsn = r.lsn ∧ st.maxLsn = r.lsn
  named : ∀ e ∈ txLog fence pre, ∀ t, e.tx = some t → ∃ r ∈ pre, r.lsn = t
  observed : st.checkpointLsnObserved = (markers fence pre).getLast?
  admitted : firstRejection fence [] pre = none
  live : fence < r.lsn
  above : ∀ p ∈ pre, p.lsn < r.lsn

section Step

variable {sink : ReplaySink σ} {S : SinkSpec sink} {fence : Lsn} {last : Option Lsn}
  {pre : List WalRecord} {r : WalRecord} {st : ReplayState σ}

/-- Only a checkpoint record can be inadmissible without naming a closed transaction. -/
theorem admissible_iff (h : r.entry ≠ .mark) :
    Admissible fence pre r ↔ Accepts (txLog fence pre) r.entry := by
  cases r with
  | checkpoint lsn snapshotLsn => exact absurd rfl h
  | mutation | mutationBatch | txBegin | txCommit | txAbort => exact Iff.rfl

/-- A record that may not stand here stops replay. -/
theorem Ready.reject (h : Ready S fence last pre r st) (hr : ¬ Admissible fence pre r) (s : σ) :
    Stopped S fence (pre ++ [r]) (rejection fence pre r, s) := by
  refine .rejected ?_
  rw [firstRejection_append, h.admitted]
  simp [firstRejection, h.live, hr]

theorem Ready.admitted_snoc (h : Ready S fence last pre r st) (hr : Admissible fence pre r) :
    firstRejection fence [] (pre ++ [r]) = none := by
  rw [firstRejection_append, h.admitted]
  simp [firstRejection, hr]

/-- The transaction of an admissible record is named by a record of the log. -/
theorem Ready.named_snoc (h : Ready S fence last pre r st) (hr : Admissible fence pre r) :
    ∀ e ∈ txLog fence (pre ++ [r]), ∀ t, e.tx = some t → ∃ p ∈ pre ++ [r], p.lsn = t := by
  have hopen : ∀ t, Open (txLog fence pre) t → ∃ p ∈ pre ++ [r], p.lsn = t := by
    intro t hopen
    obtain ⟨p, hp, hlsn⟩ := h.named _ hopen.1 t rfl
    exact ⟨p, mem_append_left _ hp, hlsn⟩
  intro e he t htx
  rw [txLog_snoc h.live] at he
  rcases List.mem_append.mp he with he | he
  · obtain ⟨p, hp, hlsn⟩ := h.named e he t htx
    exact ⟨p, mem_append_left _ hp, hlsn⟩
  · obtain rfl := List.mem_singleton.mp he
    cases r with
    | txBegin lsn => exact ⟨.txBegin lsn, by simp, Option.some.inj htx⟩
    | checkpoint lsn snapshotLsn => simp [WalRecord.entry, Entry.tx] at htx
    | mutation | mutationBatch | txCommit | txAbort =>
      obtain rfl := Option.some.inj htx
      exact hopen _ hr

/-- The state after an admissible record. -/
theorem Ready.inv (h : Ready S fence last pre r st) (hr : Admissible fence pre r)
    {st' : ReplayState σ} (hb : Buckets S (txLog fence pre ++ [r.entry]) st')
    (hint : ∀ t ∈ st'.withdrawn, Interrupted (txLog fence pre ++ [r.entry]) t)
    (hseg : st'.lastSegmentBase = st.lastSegmentBase) 
    (hlast : st'.lastLsn = st.lastLsn ∧ st'.maxLsn = st.maxLsn)
    (hobs : st'.checkpointLsnObserved = (markers fence (pre ++ [r])).getLast?) :
    Inv S fence last (pre ++ [r]) st' := by
  rw [← txLog_snoc h.live] at hb hint
  refine ⟨hb, hseg.trans h.segment, hint, ?_, h.named_snoc hr, hobs, h.admitted_snoc hr⟩
  rw [hlast.1, hlast.2, lastLsnOf_concat]
  exact h.last

/-- No entry of the log belongs to the transaction a record's own LSN would name. -/
theorem Ready.fresh (h : Ready S fence last pre r st) :
    ∀ e ∈ txLog fence pre, e.tx ≠ some r.lsn := by
  intro e he htx
  obtain ⟨p, hp, hlsn⟩ := h.named e he _ htx
  exact absurd hlsn (Nat.ne_of_lt (h.above p hp))

/-- The records that add events. -/
theorem Ready.addEvents (h : Ready S fence last pre r st) {t : Lsn} {events : List MutationEvent}
    (hentry : r.entry = .add t events) {kind : String}
    (hrej : rejection fence pre r = missingTxBegin kind r.lsn t) (budget encodedLen : ℕ) :
    Continues S fence last (pre ++ [r])
      (st.addEvents sink budget t r.lsn kind encodedLen events) := by
  have hmark : r.entry ≠ .mark := by simp [hentry]
  have hadm : Admissible fence pre r ↔ Open (txLog fence pre) t := by
    rw [admissible_iff hmark, hentry]
    exact Iff.rfl
  obtain ⟨st₁, hst₁, hturn, -, hlast, hobs, hseg⟩ :=
    h.toBuckets.withdraw h.interrupted t
  have hobs' : st₁.checkpointLsnObserved = (markers fence (pre ++ [r])).getLast? := by
    rw [hobs, h.observed, markers_snoc (Or.inr hmark)]
  have hint : ∀ u ∈ st₁.withdrawn, Interrupted (txLog fence pre ++ [r.entry]) u :=
    hturn.interrupted (by simp [hentry, Entry.tx])
  simp only [ReplayState.addEvents, hst₁, Except.bind, bind]
  cases hp : st₁.pending t with
  | none =>
    have hclosed : ¬ Admissible fence pre r := by
      rw [hadm, ← hturn.pending t]
      simp [hp]
    rw [← hrej]
    exact h.reject hclosed _
  | some p =>
    have hr : Admissible fence pre r := by
      rw [hadm, ← hturn.pending t]
      simp [hp]
    dsimp only
    split_ifs with hover
    · obtain ⟨s', hs', hb⟩ := hturn.part hp hover.2 events
      simp only [hs']
      refine h.inv hr ?_ hint hseg hlast hobs'
      rw [hentry]
      exact hb
    · refine h.inv hr ?_ hint hseg hlast hobs'
      rw [hentry]
      exact hturn.buffer hp events _

theorem Ready.begin (h : Ready S fence last pre r st) (hr : r = .txBegin r.lsn)
    (budget encodedLen : ℕ) :
    Continues S fence last (pre ++ [r]) (st.applyRecord sink budget r encodedLen) := by
  have hentry : r.entry = .begin r.lsn := by rw [hr]; rfl
  have hmark : r.entry ≠ .mark := by simp [hentry]
  have hadm : Admissible fence pre r := by
    rw [admissible_iff hmark, hentry]
    trivial
  obtain ⟨st₁, hst₁, hturn, -, hlast, hobs, hseg⟩ :=
    h.toBuckets.withdraw h.interrupted r.lsn
  have hclosed : st₁.pending r.lsn = none := by
    have hnot : ¬ Open (txLog fence pre) r.lsn := fun hopen => h.fresh _ hopen.1 rfl
    rw [← hturn.pending] at hnot
    simpa using hnot
  have hstep : st.applyRecord sink budget r encodedLen =
      .ok { st₁ with pending := update st₁.pending r.lsn (some ⟨[], 0⟩) } := by
    rw [hr]
    simp only [ReplayState.applyRecord, ← hr, hst₁, Except.bind, bind,
      ReplayState.beginTransaction, hclosed]
    rfl
  rw [hstep]
  refine h.inv hadm ?_ (hturn.interrupted (by simp [hentry, Entry.tx])) hseg hlast ?_
  · rw [hentry]
    exact hturn.begin h.fresh
  · rw [hobs, h.observed, markers_snoc (Or.inr hmark)]

theorem Ready.commit {lsn t : Lsn} (h : Ready S fence last pre (.txCommit lsn t) st)
    (budget encodedLen : ℕ) :
    Continues S fence last (pre ++ [.txCommit lsn t])
      (st.applyRecord sink budget (.txCommit lsn t) encodedLen) := by
  obtain ⟨st₁, hst₁, hturn, -, hlast, hobs, hseg⟩ :=
    h.toBuckets.withdraw h.interrupted t
  have hobs' : st₁.checkpointLsnObserved = (markers fence (pre ++ [.txCommit lsn t])).getLast? := by
    rw [hobs, h.observed, markers_snoc (Or.inr (by simp [WalRecord.entry]))]
  have hint : ∀ u ∈ st₁.withdrawn, Interrupted (txLog fence pre ++ [.commit t]) u :=
    hturn.interrupted rfl
  simp only [ReplayState.applyRecord, hst₁, Except.bind, bind, ReplayState.takePending]
  cases hp : st₁.pending t with
  | none =>
    refine h.reject ?_ _
    intro hadm
    have hopen := (hturn.pending t).mpr hadm
    simp [hp] at hopen
  | some p =>
    have hr : Open (txLog fence pre) t := (hturn.pending t).mp (by simp [hp])
    dsimp only
    split_ifs with hwithdrawn
    · -- the parts went back when another transaction's record came
      have hidle : st₁.streaming = none := by
        rcases hturn.alone with hnone | hsome
        · exact hnone
        · exact absurd hwithdrawn (hturn.streaming t hsome).1
      have hbefore : Interrupted (txLog fence pre) t := by
        rcases hturn.taken t hwithdrawn with hint | ⟨hne, -⟩
        · exact hint
        · exact absurd rfl hne
      refine .withdrawn ?_ (hturn.idle hidle)
      rw [txLog_snoc h.live]
      exact hbefore.interleaved (List.mem_singleton.mpr rfl)
    · obtain ⟨prov, hholds, hall⟩ := hturn.holds hp hturn.alone hwithdrawn
      have hcommit := S.commit p.events hholds
      have hdone : committed (txLog fence pre) ++ (prov.getD [] ++ p.events) =
          committed (txLog fence pre ++ [.commit t]) := by
        rw [committed_snoc, hall]
        rfl
      rw [hdone] at hcommit
      cases hs : sink st₁.sink (.commit p.events) with
      | ok s' =>
        simp only [hs] at hcommit
        exact h.inv hr (hturn.commit hcommit) hint hseg hlast hobs'
      | error es =>
        simp only [hs] at hcommit
        refine .failed prefix_rfl (h.admitted_snoc hr) ?_
        rw [committedEvents, txLog_snoc h.live]
        exact hcommit

theorem Ready.abort {lsn t : Lsn} (h : Ready S fence last pre (.txAbort lsn t) st)
    (budget encodedLen : ℕ) :
    Continues S fence last (pre ++ [.txAbort lsn t])
      (st.applyRecord sink budget (.txAbort lsn t) encodedLen) := by
  have hobs : st.checkpointLsnObserved = (markers fence (pre ++ [.txAbort lsn t])).getLast? := by
    rw [h.observed, markers_snoc (Or.inr (by simp [WalRecord.entry]))]
  have hint : ∀ u ∈ st.withdrawn, Interrupted (txLog fence pre ++ [.abort t]) u :=
    fun u hu => (h.interrupted u hu).append _
  simp only [ReplayState.applyRecord, Except.bind, bind, ReplayState.takePending]
  cases hp : st.pending t with
  | none =>
    refine h.reject ?_ _
    intro hadm
    have hopen := (h.pending t).mpr hadm
    simp [hp] at hopen
  | some p =>
    have hr : Open (txLog fence pre) t := (h.pending t).mp (by simp [hp])
    have habort := h.toBuckets.abort t
    dsimp only
    split_ifs at habort ⊢ with hstream
    · obtain ⟨s', hs', hb⟩ := habort
      simp only [hs']
      exact h.inv hr hb hint rfl ⟨rfl, rfl⟩ hobs
    · exact h.inv hr habort hint rfl ⟨rfl, rfl⟩ hobs

theorem Ready.checkpoint {lsn snapshotLsn : Lsn}
    (h : Ready S fence last pre (.checkpoint lsn snapshotLsn) st) :
    Continues S fence last (pre ++ [.checkpoint lsn snapshotLsn])
      (st.observeCheckpoint lsn snapshotLsn) := by
  have hdone (hle : snapshotLsn ≤ lsn)
      (hup : ∀ prev ∈ (markers fence pre).getLast?, prev ≤ snapshotLsn) :
      Inv S fence last (pre ++ [.checkpoint lsn snapshotLsn])
        { st with checkpointLsnObserved := some snapshotLsn } := by
    refine h.inv ⟨hle, hup⟩ ?_ (fun t ht => (h.interrupted t ht).append _) rfl ⟨rfl, rfl⟩ ?_
    · have hmark := h.toBuckets.mark
      exact ⟨hmark.pending, hmark.buffered, hmark.idle, hmark.streaming⟩
    · have hlive : fence < lsn := h.live
      rw [markers_snoc_checkpoint snapshotLsn hlive, getLast?_concat]
  simp only [ReplayState.observeCheckpoint]
  split_ifs with hfuture
  · have hrej : rejection fence pre (.checkpoint lsn snapshotLsn) =
        checkpointInFuture lsn snapshotLsn := if_pos hfuture
    rw [← hrej]
    exact h.reject (fun hadm => absurd hadm.1 (Nat.not_le.mpr hfuture)) _
  · have hle : snapshotLsn ≤ lsn := Nat.not_lt.mp hfuture
    rw [h.observed]
    cases hprev : (markers fence pre).getLast? with
    | none => exact hdone hle (by simp [hprev])
    | some prev =>
      dsimp only
      split_ifs with hback
      · have hrej : rejection fence pre (.checkpoint lsn snapshotLsn) =
            checkpointRegressed snapshotLsn prev := by
          simp only [rejection, hfuture, if_false, hprev, Option.getD_some]
        rw [← hrej]
        exact h.reject (fun hadm => absurd (hadm.2 prev hprev) (Nat.not_le.mpr hback)) _
      · refine hdone hle fun prev' hprev' => ?_
        obtain rfl := Option.some.inj (hprev.symm.trans hprev')
        exact Nat.not_lt.mp hback

/-- A record above the fence. -/
theorem Ready.applyRecord (h : Ready S fence last pre r st) (budget encodedLen : ℕ) :
    Continues S fence last (pre ++ [r]) (st.applyRecord sink budget r encodedLen) := by
  cases r with
  | mutation lsn t event => exact h.addEvents rfl rfl budget encodedLen
  | mutationBatch lsn t events => exact h.addEvents rfl rfl budget encodedLen
  | txBegin lsn => exact h.begin rfl budget encodedLen
  | txCommit lsn t => exact h.commit budget encodedLen
  | txAbort lsn t => exact h.abort budget encodedLen
  | checkpoint lsn snapshotLsn => exact h.checkpoint

/-- Every record read moves the counters to its own LSN. -/
theorem Inv.observeLsn (h : Inv S fence last pre st) (habove : ∀ p ∈ pre, p.lsn < r.lsn) :
    (st.observeLsn r.lsn).lastLsn = r.lsn ∧ (st.observeLsn r.lsn).maxLsn = r.lsn := by
  refine ⟨rfl, ?_⟩
  simp only [ReplayState.observeLsn, h.last.2]
  split_ifs with hlt
  · rfl
  · rcases lastLsnOf_cases pre with hzero | ⟨p, hp, hlsn⟩
    · rw [hzero] at hlt ⊢
      exact (Nat.le_zero.mp (Nat.not_lt.mp hlt)).symm
    · exact absurd (hlsn ▸ habove p hp) hlt

/-- A record at or below the fence, which only such records can precede, changes
nothing. -/
theorem Inv.skip (h : Inv S fence last pre st) (hle : r.lsn ≤ fence)
    (habove : ∀ p ∈ pre, p.lsn < r.lsn) :
    Inv S fence last (pre ++ [r]) ((st.observeLsn r.lsn).skipFencedRecord r) := by
  have hnil : txLog fence pre = [] :=
    txLog_eq_nil fun p hp => (habove p hp).le.trans hle
  have hnone : ∀ t, st.pending t = none := by
    intro t
    have hclosed : ¬ Open (txLog fence pre) t := by
      rw [hnil]
      exact fun hopen => absurd hopen.1 not_mem_nil
    rw [← h.pending t] at hclosed
    simpa using hclosed
  have hupdate : ∀ t, update st.pending t none = st.pending := fun t =>
    update_eq_self_iff.mpr (hnone t).symm
  have hskip : (st.observeLsn r.lsn).skipFencedRecord r = st.observeLsn r.lsn := by
    cases r with
    | txCommit lsn t | txAbort lsn t =>
      simp only [ReplayState.skipFencedRecord, ReplayState.observeLsn, hupdate]
    | mutation | mutationBatch | txBegin | checkpoint => rfl
  have hlog : txLog fence (pre ++ [r]) = txLog fence pre := txLog_snoc_fenced hle
  rw [hskip]
  refine ⟨?_, h.segment, ?_, by rw [lastLsnOf_concat]; exact h.observeLsn habove, ?_, ?_, ?_⟩
  · rw [hlog]
    exact ⟨h.pending, h.buffered, h.idle, h.streaming⟩
  · rw [hlog]
    exact h.interrupted
  · rw [hlog, hnil]
    exact fun e he => absurd he not_mem_nil
  · rw [markers_snoc (Or.inl hle)]
    exact h.observed
  · rw [firstRejection_append, h.admitted]
    simp [firstRejection, Nat.not_lt.mpr hle]

/-- The step lemma: after one more record replay still knows what the log says, or has
stopped for a reason the log gives. -/
theorem acceptRecord_inv (h : Inv S fence last pre st) (budget encodedLen : ℕ) {base : Lsn}
    (path : SegmentId) (hbase : base ≤ r.lsn) (habove : ∀ p ∈ pre, p.lsn < r.lsn) :
    Continues S fence last (pre ++ [r])
      (st.acceptRecord sink budget r encodedLen base fence path) := by
  have hvalid : st.validateRecordLsn r.lsn base path = .ok () := by
    have hlast : ¬ (st.lastLsn ≠ 0 ∧ r.lsn ≤ st.lastLsn) := by
      rintro ⟨hzero, hle⟩
      rw [h.last.1] at hzero hle
      obtain ⟨p, hp, hlsn⟩ := (lastLsnOf_cases pre).resolve_left hzero
      exact absurd (hlsn ▸ habove p hp) (Nat.not_lt.mpr hle)
    simp only [ReplayState.validateRecordLsn, Nat.not_lt.mpr hbase, if_false, hlast]
  simp only [ReplayState.acceptRecord, hvalid, Except.bind, bind]
  split_ifs with hfenced
  · exact h.skip hfenced habove
  · have hready : Ready S fence last pre r (st.observeLsn r.lsn) :=
      ⟨⟨h.pending, h.buffered, h.idle, h.streaming⟩, h.segment, h.interrupted,
        h.observeLsn habove, h.named, h.observed, h.admitted, Nat.not_le.mp hfenced, habove⟩
    exact hready.applyRecord budget encodedLen

end Step

/-! ### A whole log -/

section Run

variable {sink : ReplaySink σ} {S : SinkSpec sink} {fence : Lsn} {last : Option Lsn}

variable {pre : List WalRecord} {st : ReplayState σ}

theorem acceptRecords_inv (budget : ℕ) {base : Lsn} (path : SegmentId)
    {records : List (WalRecord × ℕ)}
    (h : Inv S fence last pre st) (hbase : ∀ r ∈ records, base ≤ r.1.lsn)
    (habove : ∀ p ∈ pre, ∀ r ∈ records, p.lsn < r.1.lsn)
    (hasc : records.Pairwise fun r r' => r.1.lsn < r'.1.lsn) :
    Continues S fence last (pre ++ records.map Prod.fst)
      (st.acceptRecords sink budget fence base path records) := by
  induction records generalizing pre st with
  | nil =>
    rw [map_nil, append_nil]
    exact h
  | cons record records ih =>
    obtain ⟨r, encodedLen⟩ := record
    have hstep := acceptRecord_inv h budget encodedLen path (hbase (r, encodedLen) (by simp))
      fun p hp => habove p hp (r, encodedLen) (by simp)
    have happend : pre ++ ((r, encodedLen) :: records).map Prod.fst =
        (pre ++ [r]) ++ records.map Prod.fst := by simp
    rw [happend]
    simp only [ReplayState.acceptRecords, Except.bind, bind]
    cases hst : st.acceptRecord sink budget r encodedLen base fence path with
    | error es =>
      rw [hst] at hstep
      exact hstep.append _
    | ok st' =>
      rw [hst] at hstep
      rw [pairwise_cons] at hasc
      refine ih hstep (fun r' hr' => hbase r' (mem_cons_of_mem _ hr')) ?_ hasc.2
      intro p hp r' hr'
      rcases List.mem_append.mp hp with hp | hp
      · exact habove p hp r' (mem_cons_of_mem _ hr')
      · obtain rfl := List.mem_singleton.mp hp
        exact hasc.1 r' hr'

/-- A segment whose base lies above everything read so far may follow. -/
theorem Inv.validateSegment (h : Inv S fence last pre st) {base : Lsn} (path : SegmentId)
    (hprev : ∀ b ∈ last, b < base) (habove : ∀ p ∈ pre, p.lsn < base) :
    Continues S fence (some base) pre (st.validateSegment base path) := by
  have hlsn : ¬ (st.lastLsn ≠ 0 ∧ base ≤ st.lastLsn) := by
    rintro ⟨hzero, hle⟩
    rw [h.last.1] at hzero hle
    obtain ⟨p, hp, hlsn⟩ := (lastLsnOf_cases pre).resolve_left hzero
    exact absurd (hlsn ▸ habove p hp) (Nat.not_lt.mpr hle)
  have hinv : Inv S fence (some base) pre { st with lastSegmentBase := some base } :=
    ⟨⟨h.pending, h.buffered, h.idle, h.streaming⟩, rfl, h.interrupted, h.last, h.named,
      h.observed, h.admitted⟩
  simp only [ReplayState.validateSegment, ReplayState.validateSegment.aboveRecords, hlsn,
    if_false, h.segment]
  cases last with
  | none => exact hinv
  | some b =>
    have hlt : ¬ base ≤ b := Nat.not_le.mpr (hprev b rfl)
    simp only [hlt, if_false]
    exact hinv

/-- The run lemma. -/
theorem acceptSegments_inv (budget : ℕ) {segments : List ReadSegment}
    (h : Inv S fence last pre st) (hord : LsnOrdered segments)
    (hprev : ∀ b ∈ last, ∀ s ∈ segments, b < s.base)
    (habove : ∀ p ∈ pre, ∀ s ∈ segments, p.lsn < s.base) :
    ∃ last', Continues S fence last' (pre ++ recordsOf segments)
      (st.acceptSegments sink budget fence segments) := by
  induction segments generalizing last pre st with
  | nil =>
    rw [recordsOf, flatMap_nil, append_nil]
    exact ⟨last, h⟩
  | cons s segments ih =>
    have happend : pre ++ recordsOf (s :: segments) =
        (pre ++ s.records.map Prod.fst) ++ recordsOf segments := by simp [recordsOf]
    have hvalid := h.validateSegment s.path (fun b hb => hprev b hb s (by simp))
      fun p hp => habove p hp s (by simp)
    rw [happend]
    simp only [ReplayState.acceptSegments, Except.bind, bind]
    cases hst : st.validateSegment s.base s.path with
    | error es =>
      rw [hst] at hvalid
      exact ⟨none, (hvalid.append _).append _⟩
    | ok st₁ =>
      rw [hst] at hvalid
      have hwithin := hord.within s (by simp)
      have hrun := acceptRecords_inv budget s.path hvalid hwithin
        (fun p hp r hr => (habove p hp s (by simp)).trans_le (hwithin r hr))
        (hord.ascending s (by simp))
      dsimp only
      cases hst₁ : st₁.acceptRecords sink budget fence s.base s.path s.records with
      | error es =>
        rw [hst₁] at hrun
        exact ⟨none, hrun.append _⟩
      | ok st₂ =>
        rw [hst₁] at hrun
        obtain ⟨hnext, hbases⟩ := List.pairwise_cons.mp hord.bases
        refine ih hrun ⟨hbases, fun s' hs' => hord.within s' (mem_cons_of_mem _ hs'),
          fun s' hs' => hord.ascending s' (mem_cons_of_mem _ hs')⟩ ?_ ?_
        · rintro b ⟨⟩ s' hs'
          exact (hnext s' hs').1
        · intro p hp s' hs'
          rcases List.mem_append.mp hp with hp | hp
          · exact habove p hp s' (mem_cons_of_mem _ hs')
          · obtain ⟨r, hr, rfl⟩ := List.mem_map.mp hp
            exact (hnext s' hs').2 r hr

/-- Nothing has been read. -/
theorem Inv.new {init : σ} (hinit : S.Holds init [] none) :
    Inv S fence none [] (ReplayState.new init) := by
  refine ⟨⟨fun t => ?_, nofun, fun _ => hinit, nofun⟩, rfl, nofun, ⟨rfl, rfl⟩, nofun, rfl, rfl⟩
  have hclosed : ¬ Open (txLog fence []) t := fun hopen => absurd hopen.1 not_mem_nil
  simp [ReplayState.new, hclosed]

/-- The end of the log takes back what is still provisional. -/
theorem Inv.finish (h : Inv S fence last pre st) :
    ∃ st', st.finish sink = .ok st' ∧ st'.maxLsn = st.maxLsn ∧
      S.Holds st'.sink (committedEvents fence pre) none := by
  cases hstream : st.streaming with
  | none =>
    refine ⟨st, ?_, rfl, h.idle hstream⟩
    simp only [ReplayState.finish, hstream]
  | some t =>
    obtain ⟨-, _, _, -, hholds, -⟩ := h.streaming t hstream
    obtain ⟨s', hs', hholds'⟩ := S.discard hholds
    refine ⟨{ st with sink := s' }, ?_, rfl, hholds'⟩
    simp only [ReplayState.finish, hstream, hs', Except.bind, bind]

variable (S fence) in
/-- What any sink holds when replay ends, and why replay may stop before. -/
theorem replayInto_outcome (budget : ℕ) {segments : List ReadSegment}
    (hord : LsnOrdered segments) (init : σ) (hinit : S.Holds init [] none) :
    match replayInto sink budget fence init segments with
    | .ok s => firstRejection fence [] (recordsOf segments) = none ∧
      S.Holds s (committedEvents fence (recordsOf segments)) none
    | .error es => Stopped S fence (recordsOf segments) es := by
  have hnew : Inv S fence none [] (ReplayState.new init) := Inv.new hinit
  obtain ⟨last', hrun⟩ := acceptSegments_inv budget hnew hord nofun nofun
  rw [nil_append] at hrun
  simp only [replayInto, Except.bind, bind]
  cases hst : (ReplayState.new init).acceptSegments sink budget fence segments with
  | error es =>
    rw [hst] at hrun
    exact hrun
  | ok st =>
    rw [hst] at hrun
    obtain ⟨st', hfinish, -, hholds⟩ := hrun.finish
    dsimp only
    rw [hfinish]
    exact ⟨hrun.admitted, hholds⟩

end Run

/-! ### Collecting the events -/

/-- What collecting has in its list. -/
def collectSpec : SinkSpec CollectEvents.step where
  Holds c done prov :=
    match prov with
    | none => c = ⟨done, none⟩
    | some p => c = ⟨done ++ p, some done.length⟩
  Fails _ _ := False
  commit := by
    rintro c done (_ | p) rest rfl
    · rfl
    · simp [CollectEvents.step]
  part := by
    rintro c done (_ | p) events rfl
    · exact ⟨_, rfl, by simp⟩
    · exact ⟨_, rfl, by simp⟩
  discard := by
    rintro c done p rfl
    exact ⟨_, rfl, by simp⟩

/-- Replay a log into the list of its events. -/
def replayEvents (budget : ℕ) (fence : Lsn) (segments : List ReadSegment) :
    Except WalError (List MutationEvent) :=
  match replayInto CollectEvents.step budget fence CollectEvents.new segments with
  | .ok c => .ok c.events
  | .error (e, _) => .error e

/-! ### What the sink is told -/

/-- What a list of steps amounts to: the events it leaves for good, and the provisional ones
at its end. Parts are **settled** by a commit, which keeps them, or a discard, which drops
them. -/
inductive Settles : List ReplayStep → List MutationEvent → Option (List MutationEvent) → Prop
  | nil : Settles [] [] none
  | commit {steps done prov} (rest : List MutationEvent) : Settles steps done prov →
      Settles (steps ++ [.commit rest]) (done ++ (prov.getD [] ++ rest)) none
  | part {steps done prov} (events : List MutationEvent) : Settles steps done prov →
      Settles (steps ++ [.part events]) done (some (prov.getD [] ++ events))
  | discard {steps done prov} : Settles steps done (some prov) →
      Settles (steps ++ [.discard]) done none

/-- The sink that only keeps what it is told. -/
def recordSteps : ReplaySink (List ReplayStep) := fun steps step => .ok (steps ++ [step])

def recordSpec : SinkSpec recordSteps where
  Holds := Settles
  Fails _ _ := False
  commit := fun rest h => .commit rest h
  part := fun events h => ⟨_, rfl, .part events h⟩
  discard := fun h => ⟨_, rfl, .discard h⟩

section Budget

variable {segments : List ReadSegment} {fence : Lsn} (fence) in
/-- Collecting gives what is expected, or an interleaved transaction has its commit
refused. -/
theorem replayEvents_cases (hord : LsnOrdered segments) (budget : ℕ) :
    replayEvents budget fence segments = expectedEvents fence (recordsOf segments) ∨
      ∃ t lsn, Interleaved (txLog fence (recordsOf segments)) t ∧
        replayEvents budget fence segments = .error (withdrawnCommit t lsn) := by
  have hout := replayInto_outcome collectSpec fence budget hord CollectEvents.new rfl
  unfold replayEvents expectedEvents
  cases hrun : replayInto CollectEvents.step budget fence CollectEvents.new segments with
  | ok c =>
    rw [hrun] at hout
    obtain ⟨hadm, rfl⟩ := hout
    rw [hadm]
    exact Or.inl rfl
  | error es =>
    rw [hrun] at hout
    cases hout with
    | rejected hrej =>
      rw [hrej]
      exact Or.inl rfl
    | withdrawn hinter _ => exact Or.inr ⟨_, _, hinter, rfl⟩
    | failed _ _ hfails => exact hfails.elim

/-- **Replay does not depend on its memory budget.** For every budget it gives the events of the
transactions committed above the fence, or the error of the first record that may not stand where
it stands, or refuses the commit of a transaction another one was interleaved with; the last never
happens to a serial log. And the steps a sink is told, unless a record may not stand where it
stands, leave nothing provisional: the parts of a transaction that does not commit are discarded. -/
theorem replayEvents_budget (hord : LsnOrdered segments) (budget : ℕ) :
    (replayEvents budget fence segments = expectedEvents fence (recordsOf segments) ∨
      ∃ t lsn, Interleaved (txLog fence (recordsOf segments)) t ∧
        replayEvents budget fence segments = .error (withdrawnCommit t lsn)) ∧
    (Serial (txLog fence (recordsOf segments)) →
      replayEvents budget fence segments = expectedEvents fence (recordsOf segments)) ∧
    match replayInto recordSteps budget fence [] segments with
    | .ok steps => Settles steps (committedEvents fence (recordsOf segments)) none
    | .error (e, steps) => firstRejection fence [] (recordsOf segments) = some e ∨
      ∃ pre, Settles steps (committedEvents fence pre) none := by
  have hcases := replayEvents_cases fence hord budget
  refine ⟨hcases, fun hserial => ?_, ?_⟩
  · rcases hcases with hok | ⟨t, lsn, hinter, -⟩
    · exact hok
    · exact absurd hinter (hserial t)
  · have hout := replayInto_outcome recordSpec fence budget hord [] Settles.nil
    cases hrun : replayInto recordSteps budget fence [] segments with
    | ok steps =>
      rw [hrun] at hout
      exact hout.2
    | error es =>
      rw [hrun] at hout
      cases hout with
      | rejected hrej => exact Or.inl hrej
      | withdrawn _ hsettles => exact Or.inr ⟨_, hsettles⟩
      | failed _ _ hfails => exact hfails.elim

/-- A large transaction with nothing between its records. -/
def largeTransaction : List ReadSegment :=
  [⟨1, 1, [(.txBegin 1, 25), (.mutationBatch 2 1 [.clear], 30),
    (.mutationBatch 3 1 [.deleteNode 7], 40), (.txCommit 4 1, 25)]⟩]

theorem largeTransaction_serial : Serial (txLog 0 (recordsOf largeTransaction)) := by
  rintro t ⟨pre, e, post, u, hlog, hbegin, htx, hne, -⟩
  have hall : ∀ e ∈ txLog 0 (recordsOf largeTransaction), e.tx = some 1 := by decide
  have ht := hall (.begin t) (by rw [hlog]; exact mem_append_left _ hbegin)
  have hu := hall e (by rw [hlog]; simp)
  exact hne (Option.some.inj ((htx.symm.trans hu).trans ht.symm))

theorem replayEvents_budget_largeTransaction :
    replayEvents 40 0 largeTransaction = .ok [.clear, .deleteNode 7] := by
  rw [(replayEvents_budget (by decide) 40).2.1 largeTransaction_serial]
  rfl

/-- The fence splits the transaction: its begin is skipped, and its events are refused,
though nothing was interleaved. -/
theorem largeTransaction_split :
    ¬ ∀ (budget : ℕ) (fence : Lsn) (segments : List ReadSegment), LsnOrdered segments →
      replayEvents budget fence segments = .ok (committedEvents fence (recordsOf segments)) ∨
        ∃ t lsn, Interleaved (txLog fence (recordsOf segments)) t ∧
          replayEvents budget fence segments = .error (withdrawnCommit t lsn) := by
  intro h
  have hrefused : replayEvents PENDING_BUDGET_BYTES 1 largeTransaction =
      .error (missingTxBegin "mutation batch" 2 1) := rfl
  have hnoBegin : ∀ t, .begin t ∉ txLog 1 (recordsOf largeTransaction) := by
    have hlog : txLog 1 (recordsOf largeTransaction) =
        [.add 1 [.clear], .add 1 [.deleteNode 7], .commit 1] := rfl
    simp [hlog]
  rcases h PENDING_BUDGET_BYTES 1 largeTransaction (by decide) with hok | ⟨t, _, hinter, -⟩
  · rw [hrefused] at hok
    cases hok
  · obtain ⟨pre, e, post, u, hlog, hbegin, -⟩ := hinter
    refine hnoBegin t ?_
    rw [hlog]
    exact mem_append_left _ hbegin

end Budget

/-- Two transactions, one within the other: replay refuses them only when the first does
not fit the budget. -/
example :
    let segments : List ReadSegment :=
      [⟨1, 1, [(.txBegin 1, 25), (.mutationBatch 2 1 [.clear], 30), (.txBegin 3, 25),
        (.txCommit 4 3, 25), (.txCommit 5 1, 25)]⟩]
    replayEvents 30 0 segments = .error (withdrawnCommit 1 5) ∧
      replayEvents 31 0 segments = .ok [.clear] :=
  ⟨rfl, rfl⟩

end LoraDb
