import LoraDb.ReplayBudget
import LoraDb.ReplayLog

/-!
# What a Log Handle Writes

A log handle writes each transaction in one piece: its begin, its batches and its commit,
within one segment, with no record of another transaction between them. The transactions
such a log commits can be read off it record by record (`ledger`), each with the place where
its commit record ends; replaying the log gives exactly their events.

## Main results

* `ledger_serial`, `ledger_committed`: the log is serial, and commits its ledger.
* `collect_ledger`: replay collects the events of the ledger.
-/

open Prod (fst snd)
open TxLog

namespace LoraDb

open List

/-- A committed transaction: its events, and where its commit record ends. -/
structure Receipt where
  events : List MutationEvent
  segment : SegmentId
  stop : ℕ

/-- The transactions committed in a run of records that starts at `offset`, inside a
transaction that has written `events`. -/
def receiptsFrom (segment : SegmentId) :
    ℕ → List MutationEvent → List (WalRecord × ℕ) → List Receipt
  | _, _, [] => []
  | offset, _, (.txBegin _, len) :: rs => receiptsFrom segment (offset + len) [] rs
  | offset, events, (.mutation _ _ event, len) :: rs =>
    receiptsFrom segment (offset + len) (events ++ [event]) rs
  | offset, events, (.mutationBatch _ _ batch, len) :: rs =>
    receiptsFrom segment (offset + len) (events ++ batch) rs
  | offset, events, (.txCommit _ _, len) :: rs =>
    ⟨events, segment, offset + len⟩ :: receiptsFrom segment (offset + len) [] rs
  | offset, _, (.txAbort _ _, len) :: rs => receiptsFrom segment (offset + len) [] rs
  | offset, events, (.checkpoint _ _, len) :: rs =>
    receiptsFrom segment (offset + len) events rs

/-- The transactions committed in a segment. -/
def ReadSegment.receipts (s : ReadSegment) : List Receipt :=
  receiptsFrom s.path SEGMENT_HEADER_LEN [] s.records

/-- The transactions committed in a log, in order. -/
def ledger (segments : List ReadSegment) : List Receipt := segments.flatMap ReadSegment.receipts

/-- Every record belongs to the transaction begun last, which has not ended. -/
def Contiguous : Option Lsn → List (WalRecord × ℕ) → Prop
  | _, [] => True
  | _, (.txBegin lsn, _) :: rs => Contiguous (some lsn) rs
  | current, (.mutation _ t _, _) :: rs => current = some t ∧ Contiguous current rs
  | current, (.mutationBatch _ t _, _) :: rs => current = some t ∧ Contiguous current rs
  | current, (.txCommit _ t, _) :: rs => current = some t ∧ Contiguous none rs
  | _, (.txAbort _ _, _) :: _ => False
  | current, (.checkpoint _ _, _) :: rs => Contiguous current rs

/-- The transaction a run of records leaves open. -/
def currentAfter : Option Lsn → List (WalRecord × ℕ) → Option Lsn
  | current, [] => current
  | _, (.txBegin lsn, _) :: rs => currentAfter (some lsn) rs
  | _, (.txCommit _ _, _) :: rs | _, (.txAbort _ _, _) :: rs => currentAfter none rs
  | current, (.mutation _ _ _, _) :: rs | current, (.mutationBatch _ _ _, _) :: rs
  | current, (.checkpoint _ _, _) :: rs => currentAfter current rs

/-- The events the transaction a run of records leaves open has written. -/
def eventsAfter : List MutationEvent → List (WalRecord × ℕ) → List MutationEvent
  | events, [] => events
  | events, (.mutation _ _ event, _) :: rs => eventsAfter (events ++ [event]) rs
  | events, (.mutationBatch _ _ batch, _) :: rs => eventsAfter (events ++ batch) rs
  | events, (.checkpoint _ _, _) :: rs => eventsAfter events rs
  | _, (.txBegin _, _) :: rs | _, (.txCommit _ _, _) :: rs | _, (.txAbort _ _, _) :: rs =>
    eventsAfter [] rs

/-- The size of a run of records. -/
def recordsSize (records : List (WalRecord × ℕ)) : ℕ := (records.map snd).sum

theorem contiguous_append {current : Option Lsn} {rs rs' : List (WalRecord × ℕ)} :
    Contiguous current (rs ++ rs') ↔
      Contiguous current rs ∧ Contiguous (currentAfter current rs) rs' := by
  induction rs generalizing current with
  | nil => simp [Contiguous, currentAfter]
  | cons r rs ih =>
    obtain ⟨r, len⟩ := r
    cases r <;> simp [Contiguous, currentAfter, ih, and_assoc]

theorem receiptsFrom_append (segment : SegmentId) (offset : ℕ) (events : List MutationEvent)
    (rs rs' : List (WalRecord × ℕ)) :
    receiptsFrom segment offset events (rs ++ rs') = receiptsFrom segment offset events rs ++
        receiptsFrom segment (offset + recordsSize rs) (eventsAfter events rs) rs' := by
  induction rs generalizing offset events with
  | nil => simp [receiptsFrom, eventsAfter, recordsSize]
  | cons r rs ih =>
    obtain ⟨r, len⟩ := r
    have hsize : offset + recordsSize ((r, len) :: rs) = offset + len + recordsSize rs := by
      simp [recordsSize, Nat.add_assoc]
    rw [hsize]
    cases r <;> simp [receiptsFrom, eventsAfter, ih]

/-! ### The log of a ledger -/

/-- No marker points past itself or regresses. -/
structure MarkersProper (fence : Lsn) (records : List WalRecord) : Prop where
  past : ∀ lsn snapshotLsn, .checkpoint lsn snapshotLsn ∈ records → snapshotLsn ≤ lsn
  ascending : (markers fence records).Pairwise (· ≤ ·)

/-- What a run of records adds to a log whose last transaction is in one piece. -/
structure Walked (fence : Lsn) (pre : List WalRecord)
    (current : Option (Lsn × List MutationEvent)) :
    Prop where
  tidy : Tidy (txLog fence pre) current
  named : ∀ e ∈ txLog fence pre, ∀ t, e.tx = some t → ∃ p ∈ pre, p.lsn = t

section Walk

variable {fence : Lsn} {pre : List WalRecord} {current : Option (Lsn × List MutationEvent)}

/-- The transaction a record belongs to is named by a record of the log. -/
theorem Walked.named_snoc (h : Walked fence pre current) {r : WalRecord} (hlive : fence < r.lsn)
    (hr : ∀ t, r.entry.tx = some t → t = r.lsn ∨ Open (txLog fence pre) t) :
    ∀ e ∈ txLog fence (pre ++ [r]), ∀ t, e.tx = some t → ∃ p ∈ pre ++ [r], p.lsn = t := by
  intro e he t htx
  rw [txLog_snoc hlive] at he
  have hold : ∀ e ∈ txLog fence pre, e.tx = some t → ∃ p ∈ pre ++ [r], p.lsn = t := by
    intro e he htx
    obtain ⟨p, hp, hlsn⟩ := h.named e he t htx
    exact ⟨p, mem_append_left _ hp, hlsn⟩
  rcases List.mem_append.mp he with he | he
  · exact hold e he htx
  · obtain rfl := List.mem_singleton.mp he
    rcases hr t htx with rfl | hopen
    · exact ⟨r, by simp, rfl⟩
    · exact hold _ hopen.1 rfl

/-- A record of the current transaction: it is open. -/
theorem Walked.current_eq (h : Walked fence pre current) {t : Lsn}
    (ht : current.map fst = some t) :
    ∃ events, current = some (t, events) ∧ Open (txLog fence pre) t := by
  obtain ⟨⟨t', events⟩, rfl, rfl⟩ := Option.map_eq_some_iff.mp ht
  exact ⟨events, rfl, (h.tidy.current t' events rfl).1⟩

/-- What one record does to a log in one piece. -/
structure WalkStep (fence : Lsn) (pre : List WalRecord)
    (current : Option (Lsn × List MutationEvent))
    (r : WalRecord) (len : ℕ) (current' : Option (Lsn × List MutationEvent)) : Prop where
  walked : Walked fence (pre ++ [r]) current'
  next : current'.map fst = currentAfter (current.map fst) [(r, len)]
  written : (current'.map snd).getD [] =
    eventsAfter ((current.map snd).getD []) [(r, len)]
  committed : ∀ segment offset, committedEvents fence (pre ++ [r]) = committedEvents fence pre ++
    (receiptsFrom segment offset ((current.map snd).getD []) [(r, len)]).flatMap
      Receipt.events
  admissible : r.entry ≠ .mark → Admissible fence pre r

/-- One record: the log stays in one piece, and the record may stand where it stands. -/
theorem Walked.step (h : Walked fence pre current) {r : WalRecord} {len : ℕ} (hlive : fence < r.lsn)
    (habove : ∀ p ∈ pre, p.lsn < r.lsn)
    (hcont : Contiguous (current.map fst) [(r, len)]) :
    ∃ current', WalkStep fence pre current r len current' := by
  have hsnoc : txLog fence (pre ++ [r]) = txLog fence pre ++ [r.entry] := txLog_snoc hlive
  have hquiet : r.entry.commits (txLog fence pre) = [] →
      committedEvents fence (pre ++ [r]) = committedEvents fence pre := by
    intro hnil
    rw [committedEvents_snoc hlive, hnil, append_nil]
  cases r with
  | txBegin lsn =>
    have hfresh : ∀ e ∈ txLog fence pre, e.tx ≠ some lsn := by
      intro e he htx
      obtain ⟨p, hp, hlsn⟩ := h.named e he lsn htx
      exact absurd hlsn (Nat.ne_of_lt (habove p hp))
    refine ⟨some (lsn, []), ⟨?_, h.named_snoc hlive ?_⟩, rfl, rfl, fun _ _ => ?_,
      fun _ => trivial⟩
    · rw [hsnoc]
      exact h.tidy.begin hfresh
    · exact fun t ht => Or.inl (Option.some.inj ht).symm
    · rw [hquiet rfl]
      simp [receiptsFrom]
  | mutation lsn t event =>
    obtain ⟨events, rfl, hopen⟩ := h.current_eq hcont.1
    refine ⟨some (t, events ++ [event]), ⟨?_, h.named_snoc hlive ?_⟩, rfl, rfl, fun _ _ => ?_,
      fun _ => hopen⟩
    · rw [hsnoc]
      exact h.tidy.add [event]
    · rintro t' ⟨⟩
      exact Or.inr hopen
    · rw [hquiet rfl]
      simp [receiptsFrom]
  | mutationBatch lsn t batch =>
    obtain ⟨events, rfl, hopen⟩ := h.current_eq hcont.1
    refine ⟨some (t, events ++ batch), ⟨?_, h.named_snoc hlive ?_⟩, rfl, rfl, fun _ _ => ?_,
      fun _ => hopen⟩
    · rw [hsnoc]
      exact h.tidy.add batch
    · rintro t' ⟨⟩
      exact Or.inr hopen
    · rw [hquiet rfl]
      simp [receiptsFrom]
  | txCommit lsn t =>
    obtain ⟨events, rfl, hopen⟩ := h.current_eq hcont.1
    obtain ⟨htidy, hcommitted⟩ := h.tidy.commit
    refine ⟨none, ⟨?_, h.named_snoc hlive ?_⟩, rfl, rfl, fun _ _ => ?_, fun _ => hopen⟩
    · rw [hsnoc]
      exact htidy
    · rintro t' ⟨⟩
      exact Or.inr hopen
    · rw [committedEvents, hsnoc]
      refine Eq.trans hcommitted ?_
      simp [receiptsFrom, committedEvents]
  | txAbort lsn t => exact absurd hcont not_false
  | checkpoint lsn snapshotLsn =>
    refine ⟨current, ⟨?_, h.named_snoc hlive fun _ heq => (by cases heq)⟩, rfl, rfl, fun _ _ => ?_,
      fun hmark => absurd rfl hmark⟩
    · rw [hsnoc]
      exact h.tidy.mark
    · rw [hquiet rfl]
      simp [receiptsFrom]

/-- A marker of a log without improper ones may stand where it stands. -/
theorem MarkersProper.admissible {records rest : List WalRecord} {r : WalRecord}
    (h : MarkersProper fence (records ++ r :: rest)) (hlive : fence < r.lsn)
    (hmark : r.entry = .mark) :
    Admissible fence records r := by
  cases r with
  | checkpoint lsn snapshotLsn =>
    refine ⟨h.past lsn snapshotLsn (by simp), fun prev hprev => ?_⟩
    have hasc := h.ascending
    have hlive' : fence < lsn := hlive
    have hsplit : markers fence (records ++ .checkpoint lsn snapshotLsn :: rest) =
        markers fence records ++ (snapshotLsn :: markers fence rest) := by
      rw [← singleton_append, ← append_assoc, markers_append,
        markers_snoc_checkpoint snapshotLsn hlive', append_assoc, singleton_append]
    rw [hsplit, pairwise_append] at hasc
    exact hasc.2.2 prev (mem_of_getLast? hprev) snapshotLsn mem_cons_self
  | mutation | mutationBatch | txBegin | txCommit | txAbort => cases hmark

/-- A whole run of records. -/
theorem Walked.run {rs : List (WalRecord × ℕ)} (h : Walked fence pre current)
    (hlive : ∀ r ∈ rs, fence < r.1.lsn) (habove : ∀ p ∈ pre, ∀ r ∈ rs, p.lsn < r.1.lsn)
    (hasc : rs.Pairwise fun r r' => r.1.lsn < r'.1.lsn)
    (hcont : Contiguous (current.map fst) rs) (segment : SegmentId) (offset : ℕ) :
    ∃ current', Walked fence (pre ++ rs.map fst) current' ∧
      committedEvents fence (pre ++ rs.map fst) = committedEvents fence pre ++
        (receiptsFrom segment offset ((current.map snd).getD []) rs).flatMap
          Receipt.events ∧
      ∀ rest, MarkersProper fence (pre ++ rs.map fst ++ rest) →
        firstRejection fence pre (rs.map fst) = none := by
  induction rs generalizing pre current offset with
  | nil => exact ⟨current, by simpa using h, by simp [receiptsFrom], fun _ _ => rfl⟩
  | cons r rs ih =>
    obtain ⟨r, len⟩ := r
    rw [← singleton_append, contiguous_append] at hcont
    rw [pairwise_cons] at hasc
    obtain ⟨current₁, hstep⟩ := h.step (hlive _ mem_cons_self)
      (fun p hp => habove p hp _ mem_cons_self) hcont.1
    have happend : pre ++ ((r, len) :: rs).map fst = (pre ++ [r]) ++ rs.map fst := by simp
    obtain ⟨current', hwalked, hcommitted, hadmitted⟩ := ih hstep.walked
      (fun r' hr' => hlive r' (mem_cons_of_mem _ hr'))
      (by
        intro p hp r' hr'
        rcases List.mem_append.mp hp with hp | hp
        · exact habove p hp r' (mem_cons_of_mem _ hr')
        · obtain rfl := List.mem_singleton.mp hp
          exact hasc.1 r' hr')
      hasc.2 (by rw [hstep.next]; exact hcont.2) (offset + recordsSize [(r, len)])
    refine ⟨current', by rw [happend]; exact hwalked, ?_, fun rest hproper => ?_⟩
    swap
    · have hadm : Admissible fence pre r := by
        by_cases hmark : r.entry = .mark
        · have hproper' : MarkersProper fence (pre ++ r :: (rs.map fst ++ rest)) := by
            simpa using hproper
          exact hproper'.admissible (hlive _ mem_cons_self) hmark
        · exact hstep.admissible hmark
      rw [map_cons, firstRejection, if_neg (fun h => h.2 hadm)]
      refine hadmitted rest ?_
      rw [← happend]
      exact hproper
    have hreceipts := receiptsFrom_append segment offset ((current.map snd).getD [])
      [(r, len)] rs
    rw [singleton_append] at hreceipts
    rw [happend, hcommitted, hstep.committed segment offset, hstep.written, hreceipts,
      flatMap_append, append_assoc]

end Walk

section Log

variable {fence : Lsn} {segments : List ReadSegment}

/-- A segment begins outside every transaction. -/
theorem Walked.anew {pre : List WalRecord} {current : Option (Lsn × List MutationEvent)}
    (h : Walked fence pre current) : Walked fence pre none :=
  ⟨⟨h.tidy.serial, nofun⟩, h.named⟩

/-- A log whose segments hold whole transactions commits its ledger. -/
theorem ledger_walked (hord : LsnOrdered segments)
    (hlive : ∀ s ∈ segments, ∀ r ∈ s.records, fence < r.1.lsn)
    (hcont : ∀ s ∈ segments, Contiguous none s.records) {pre : List WalRecord}
    (h : Walked fence pre none) (habove : ∀ p ∈ pre, ∀ s ∈ segments, p.lsn < s.base) :
    Walked fence (pre ++ recordsOf segments) none ∧
      committedEvents fence (pre ++ recordsOf segments) =
        committedEvents fence pre ++ (ledger segments).flatMap Receipt.events ∧
      (MarkersProper fence (pre ++ recordsOf segments) →
        firstRejection fence pre (recordsOf segments) = none) := by
  induction segments generalizing pre with
  | nil => simpa [recordsOf, ledger, firstRejection] using h
  | cons s segments ih =>
    have hwithin := hord.within s mem_cons_self
    obtain ⟨hnext, hbases⟩ := List.pairwise_cons.mp hord.bases
    obtain ⟨current, hwalked, hcommitted, hadmitted⟩ := h.run (hlive s mem_cons_self)
      (fun p hp r hr => (habove p hp s mem_cons_self).trans_le (hwithin r hr))
      (hord.ascending s mem_cons_self) (hcont s mem_cons_self) s.path
      SEGMENT_HEADER_LEN
    have happend : pre ++ recordsOf (s :: segments) =
        (pre ++ s.records.map fst) ++ recordsOf segments := by
      simp [recordsOf]
    obtain ⟨hall, hevents, hrest⟩ := ih
      ⟨hbases, fun s' hs' => hord.within s' (mem_cons_of_mem _ hs'),
        fun s' hs' => hord.ascending s' (mem_cons_of_mem _ hs')⟩
      (fun s' hs' => hlive s' (mem_cons_of_mem _ hs'))
      (fun s' hs' => hcont s' (mem_cons_of_mem _ hs')) hwalked.anew
      (by
        intro p hp s' hs'
        rcases List.mem_append.mp hp with hp | hp
        · exact habove p hp s' (mem_cons_of_mem _ hs')
        · obtain ⟨r, hr, rfl⟩ := List.mem_map.mp hp
          exact (hnext s' hs').2 r hr)
    rw [happend]
    refine ⟨hall, ?_, fun hproper => ?_⟩
    · rw [hevents, hcommitted, append_assoc]
      simp [ledger, ReadSegment.receipts]
    · have hsplit : recordsOf (s :: segments) = s.records.map fst ++ recordsOf segments :=
        rfl
      rw [hsplit, firstRejection_append, hadmitted _ hproper, hrest hproper]
      rfl

/-- A log of whole transactions is serial and commits its **ledger**. -/
theorem ledger_committed (hord : LsnOrdered segments)
    (hlive : ∀ s ∈ segments, ∀ r ∈ s.records, fence < r.1.lsn)
    (hcont : ∀ s ∈ segments, Contiguous none s.records) :
    Serial (txLog fence (recordsOf segments)) ∧
      committedEvents fence (recordsOf segments) = (ledger segments).flatMap Receipt.events ∧
      (MarkersProper fence (recordsOf segments) →
        firstRejection fence [] (recordsOf segments) = none) := by
  have hnil : Walked fence [] none := ⟨tidy_nil, fun _ he => absurd he not_mem_nil⟩
  obtain ⟨hwalked, hcommitted, hadmitted⟩ := ledger_walked hord hlive hcont hnil nofun
  exact ⟨hwalked.tidy.serial, hcommitted, hadmitted⟩

/-- The state a collecting replay is in before it reads a log. -/
abbrev collecting : ReplayState CollectEvents := ReplayState.new CollectEvents.new

/-- Replay collects the events of the ledger, or refuses an improper marker. -/
theorem collect_ledger (hord : LsnOrdered segments)
    (hlive : ∀ s ∈ segments, ∀ r ∈ s.records, fence < r.1.lsn)
    (hcont : ∀ s ∈ segments, Contiguous none s.records) (budget : ℕ) :
    match collecting.acceptSegments CollectEvents.step budget fence segments with
    | .ok st => st.lastLsn = lastLsnOf (recordsOf segments) ∧
      ∃ st', st.finish CollectEvents.step = .ok st' ∧ st'.maxLsn = lastLsnOf (recordsOf segments) ∧
        st'.sink.events = (ledger segments).flatMap Receipt.events
    | .error _ => ¬ MarkersProper fence (recordsOf segments) := by
  obtain ⟨hserial, hcommitted, hadmitted⟩ := ledger_committed hord hlive hcont
  have hnew : Inv collectSpec fence none [] collecting := Inv.new rfl
  obtain ⟨last', hrun⟩ := acceptSegments_inv budget hnew hord nofun nofun
  rw [nil_append] at hrun
  cases hst : collecting.acceptSegments CollectEvents.step budget fence segments with
  | error es =>
    rw [hst] at hrun
    intro hproper
    cases hrun with
    | rejected hrej =>
      rw [hadmitted hproper] at hrej
      cases hrej
    | withdrawn hinter _ => exact hserial _ hinter
    | failed _ _ hfails => exact hfails
  | ok st =>
    rw [hst] at hrun
    obtain ⟨st', hfinish, hmax, hholds⟩ := hrun.finish
    refine ⟨hrun.last.1, st', hfinish, hmax.trans hrun.last.2, ?_⟩
    rw [← hcommitted]
    exact congrArg CollectEvents.events hholds

end Log

end LoraDb
