import LoraDb.ChangeHub
import Mathlib.Order.Nat
import Mathlib.Order.MinMax
import Mathlib.Data.List.Nodup

/-!
# Runs of a Database with a Change Feed

The hub beside what drives it: a log whose durable LSN advances by any steps and reports
each advance later; writers that commit one after the other, each publishing its batch
before the next may start; checkpoint markers and failed commits, which take LSNs too;
restores, which announce themselves outside the log; first openers, which look at the hub
before they take the writer lock; and any number of feeds.

## Main results

* `World.step_inv`, `World.run_inv`: the step and the run lemma.
* `changeFeed_run`: in every run in which no second first opener raises the hub's durable
  LSN over parked batches, no reset is announced ahead of the durable log, and no feed
  reads back a commit that failed, every feed receives the released batches in order,
  durable ones only, and nothing is parked once the log is durable up to the last commit.
-/

open List

namespace LoraDb

variable {C : Type}

/-- A transaction that is complete in the log, and whether its commit succeeded. -/
structure LoggedTx (C : Type) where
  batch : ChangeBatch C
  committed : Bool

/-- A feed with what it has delivered. `past` is what it was to read of the log, and
`since` the LSN from which the hub's batches follow. -/
structure FeedRun (C : Type) where
  feed : ChangeFeed C
  delivered : List (ChangeBatch C)
  past : List (ChangeBatch C)
  since : ℕ

/-- The database. `next` and `durable` are the log's next and durable LSN, `notices` the
durable LSNs it has still to report, `writing` the batch of a writer between its commit and
its publication, and `openers` those that found the hub inactive and are waiting for
the writer lock. `capturedFrom` records the log's end when capture was turned on. -/
structure World (C : Type) where
  hub : HubState C
  feeds : List (FeedRun C)
  next : ℕ
  durable : ℕ
  poisoned : Bool
  log : List (LoggedTx C)
  notices : List ℕ
  writing : Option (ChangeBatch C)
  openers : ℕ
  capturedFrom : ℕ

/-- A database just opened over a log: all of it is durable. -/
def World.opened (log : List (LoggedTx C)) (next : ℕ) : World C where
  hub := HubState.default
  feeds := []
  next := next
  durable := next - 1
  poisoned := false
  log := log
  notices := []
  writing := none
  openers := 0
  capturedFrom := 0

/-- What can happen. -/
inductive Action (C : Type)
  /-- A writer commits: a begin record, `batches + 1` batch records, a commit record. -/
  | commit (batches : ℕ) (changes : List C)
  /-- The writer publishes and lets go of the writer lock. -/
  | publish
  /-- A commit fails, after taking some LSNs. -/
  | commitFails (used : ℕ)
  /-- A commit is reported as failed, but all of its records are in the log. -/
  | commitLands (batches : ℕ) (changes : List C)
  | checkpointMarker
  | fsync (lsn : ℕ)
  | syncFails
  /-- A report of the log reaches the hub. -/
  | notify (i : ℕ)
  | restore
  /-- An opener finds the hub inactive. -/
  | peek
  /-- Such an opener gets the writer lock. -/
  | activate
  /-- A feed is opened; `history` is what it is to read of the log, if that can be planned. -/
  | subscribe (fromLsn : Option ℕ) (bufferSize : ℕ) (history : Option (List (ChangeBatch C)))
  | poll (i : ℕ) (read : Except LoraError Unit)
  | closeFeed (i : ℕ)
  | setRetention (batches : ℕ)
  | setRetentionBytes (bytes : ℕ)
  | shutdown

namespace World

/-- The transactions of the log that a replay of `(after, upto]` turns into batches. -/
def readable (w : World C) (after upto : ℕ) : List (ChangeBatch C) :=
  (w.log.map (fun tx => tx.batch)).filter
    (fun b => after < b.lsn && b.lsn ≤ upto && !b.changes.isEmpty)

/-- The hub with a change to what feed `i` shares with it. -/
def setSub (w : World C) (i : ℕ) (s : SubState C) : HubState C :=
  { w.hub with subs := w.hub.subs.set i s }

variable [DecidableEq C]

/-- A feed opens. Where the past it needs cannot be planned, it is dropped at once. -/
def subscribe (w : World C) (fromLsn : Option ℕ) (bufferSize : ℕ)
    (history : Option (List (ChangeBatch C))) : Option (World C) :=
  match w.hub.subscribe fromLsn bufferSize with
  | .error _ => some w
  | .ok (hub, .ready feed) =>
    some { w with
      hub := hub
      feeds := w.feeds ++
        [{ feed := feed, delivered := [], past := [], since := fromLsn.getD w.hub.lastLsn }] }
  | .ok (hub, .needsHistory feed after upto) =>
    match history with
    | none => some { w with hub := { hub with subs := hub.subs.modify feed.sub SubState.close } }
    | some past =>
      if past.Sublist (w.readable after upto) then
        some { w with
          hub := hub
          feeds := w.feeds ++
            [{ feed := { feed with history := some (past, upto) }
               delivered := [], past := past, since := upto }] }
      else none

/-- A feed is polled. Its history is read only once the log is durable up to its end. -/
def poll (w : World C) (i : ℕ) (read : Except LoraError Unit) : Option (World C) := do
  let run ← w.feeds[i]?
  let sub ← w.hub.subs[run.feed.sub]?
  if read.isOk ∧ run.feed.history.any (fun h => w.durable < h.2) then none
  else
    let polled := run.feed.poll read sub
    some { w with
      hub := w.setSub run.feed.sub polled.2.2
      feeds := w.feeds.set i { run with
        feed := polled.2.1
        delivered := run.delivered ++ ChangeFeed.handed polled.1 } }

variable (bytes : C → ℕ) (reset : C)

/-- One step, if it can be taken. The writer lock is held from a commit to its
publication. -/
def step (w : World C) : Action C → Option (World C)
  | .commit batches changes =>
    if w.writing.isSome ∨ w.poisoned then none
    else
      let b : ChangeBatch C := { lsn := w.next + batches + 2, changes := changes }
      some { w with
        next := b.lsn + 1
        log := w.log ++ [{ batch := b, committed := true }]
        writing := if w.hub.active then some b else none }
  | .publish =>
    w.writing.map (fun b =>
      { w with hub := w.hub.publish bytes (some b.lsn) b.changes, writing := none })
  | .commitFails used =>
    if w.writing.isSome ∨ w.poisoned then none
    else some { w with next := w.next + used }
  | .commitLands batches changes =>
    if w.writing.isSome ∨ w.poisoned then none
    else
      let b : ChangeBatch C := { lsn := w.next + batches + 2, changes := changes }
      some { w with
        next := b.lsn + 1
        log := w.log ++ [{ batch := b, committed := false }] }
  | .checkpointMarker => if w.poisoned then none else some { w with next := w.next + 1 }
  | .fsync lsn =>
    if w.poisoned ∨ lsn ≤ w.durable ∨ w.next ≤ lsn then none
    else some { w with durable := lsn, notices := w.notices ++ [lsn] }
  | .syncFails => some { w with poisoned := true }
  | .notify i =>
    w.notices[i]?.map (fun lsn =>
      { w with
        -- Before the hub is deferred there is no listener.
        hub := if w.hub.deferred then w.hub.onDurable lsn else w.hub
        notices := w.notices.eraseIdx i })
  | .restore =>
    if w.writing.isSome ∨ w.poisoned then none
    else if w.hub.active then
      some { w with hub := w.hub.publishReset bytes reset (some w.next) }
    else some w
  | .peek => if w.hub.active then none else some { w with openers := w.openers + 1 }
  | .activate =>
    if w.writing.isSome ∨ w.openers = 0 then none
    else
      some { w with
        openers := w.openers - 1
        hub := (w.hub.deferUntilDurable w.durable).activate (some (w.next - 1))
        capturedFrom := if w.hub.active then w.capturedFrom else w.next - 1 }
  | .subscribe fromLsn bufferSize history =>
    if w.hub.active then w.subscribe fromLsn bufferSize history else none
  | .poll i read => w.poll i read
  | .closeFeed i =>
    w.feeds[i]?.map (fun run =>
      { w with hub := { w.hub with subs := w.hub.subs.modify run.feed.sub SubState.close } })
  | .setRetention batches => some { w with hub := w.hub.setRetention batches }
  | .setRetentionBytes n => some { w with hub := w.hub.setRetentionBytes n }
  | .shutdown => some { w with hub := w.hub.close }

/-- A run of the database. -/
def run (w : World C) : List (Action C) → Option (World C)
  | [] => some w
  | a :: as => (w.step bytes reset a).bind (fun w => run w as)

end World

/-! ### What a run is to keep -/

/-- The batch of a successful commit. -/
def Committed (log : List (LoggedTx C)) (b : ChangeBatch C) : Prop :=
  { batch := b, committed := true } ∈ log

/-- A replaced graph, announced at an LSN no transaction has, with every transaction before
it at or below `upto`. -/
def Announced (reset : C) (log : List (LoggedTx C)) (upto : ℕ) (b : ChangeBatch C) : Prop :=
  b.changes = [reset] ∧
    ∀ tx ∈ log, tx.batch.lsn ≠ b.lsn ∧ (tx.batch.lsn < b.lsn → tx.batch.lsn ≤ upto)

/-- A batch that may be handed out: its commit succeeded and is durable, or it announces
a replaced graph and the commits before it are. -/
def Released (reset : C) (log : List (LoggedTx C)) (durable : ℕ) (b : ChangeBatch C) : Prop :=
  Committed log b ∧ b.lsn ≤ durable ∨ Announced reset log durable b

/-- A batch that may be **parked**. -/
def ParkedFor (reset : C) (log : List (LoggedTx C)) (durable : ℕ) (p : Parked C) : Prop :=
  Committed log p.batch ∧ p.needs = p.batch.lsn ∨
    Announced reset log p.needs p.batch ∧ p.needs ≤ durable

/-- The batches of a hub, those handed out and those parked. -/
def HubState.batches (h : HubState C) : List (ChangeBatch C) :=
  h.handedOut ++ h.parked.map (fun p => p.batch)

/-- A hub is in order: its batches ascend up to the newest, those handed out up to the
newest of them, and the ring holds the ones past its floor. -/
structure HubState.InOrder (h : HubState C) : Prop where
  ascending : HubState.Ascending h.batches
  assigned : ∀ b ∈ h.batches, b.lsn ≤ h.lastAssigned
  last_le : h.lastLsn ≤ h.lastAssigned
  out_le : ∀ b ∈ h.handedOut, b.lsn ≤ h.lastLsn
  parked_lt : ∀ p ∈ h.parked, h.lastLsn < p.batch.lsn
  ring : h.handedOut.filter (fun b => h.ringFloor < b.lsn) = h.ring.map Prod.fst
  floor_le : h.ringFloor ≤ h.lastLsn
  closed : h.closed → h.parked = []
  inactive : h.active = false → h.batches = []
  deferred : h.active → h.deferred

/-- A feed keeps up: what it delivered and what is pending come, in order, from its past
and what the hub handed out since; all of it, while it is open. -/
structure FeedRun.InStep (reset : C) (log : List (LoggedTx C)) (durable : ℕ) (h : HubState C)
    (r : FeedRun C) (s : SubState C) : Prop where
  taken : r.delivered ++ r.feed.pending s <+ r.past ++ h.handedOut.filter (fun b => r.since < b.lsn)
  kept : s.status = .open → r.feed.errored = false → r.delivered ++ r.feed.pending s =
      r.past ++ h.handedOut.filter (fun b => r.since < b.lsn)
  registered : s.status = .open → h.closed = false → r.feed.sub ∈ h.subscribers
  after : ∀ last ∈ r.feed.lastLsn, ∀ b ∈ r.feed.pending s, last < b.lsn
  live : ∀ b ∈ r.feed.backlog ++ s.queue, b ∈ h.handedOut
  history : ∀ hs upto, r.feed.history = some (hs, upto) → hs ⊆ r.past ∧ upto = r.since
  past_ascending : HubState.Ascending r.past
  past_committed : ∀ b ∈ r.past, Committed log b ∧ b.lsn ≤ r.since
  delivered : ∀ b ∈ r.delivered, Released reset log durable b
  since_le : r.since ≤ h.lastLsn
  last_le : ∀ last ∈ r.feed.lastLsn, last ≤ h.lastLsn

/-- The log ascends below its next LSN, and the durable LSN is in it. -/
structure LogOk (log : List (LoggedTx C)) (next durable : ℕ) (notices : List ℕ) : Prop where
  ascending : log.Pairwise (fun a b => a.batch.lsn < b.batch.lsn)
  lt_next : ∀ tx ∈ log, tx.batch.lsn < next
  durable_lt : durable < next
  noticed : ∀ lsn ∈ notices, lsn ≤ durable

/-- What every reachable state keeps. -/
structure World.Inv (reset : C) (w : World C) : Prop where
  log : LogOk w.log w.next w.durable w.notices
  hub : w.hub.InOrder
  assigned : w.hub.lastAssigned ≤ w.next + 1
  writing : ∀ b ∈ w.writing, w.hub.active ∧ Committed w.log b ∧ w.hub.lastAssigned < b.lsn
  released : ∀ b ∈ w.hub.handedOut, Released reset w.log w.durable b
  parked : ∀ p ∈ w.hub.parked, ParkedFor reset w.log w.durable p
  behind : w.hub.durable ≤ w.durable
  known : w.hub.deferred → w.durable ≤ w.hub.durable ∨ w.durable ∈ w.notices
  captured : w.hub.active → w.hub.closed = false → ∀ b, Committed w.log b → b.changes ≠ [] →
    w.capturedFrom < b.lsn → b ∈ w.hub.batches ∨ b ∈ w.writing
  subs : (w.feeds.map (fun r => r.feed.sub)).Nodup
  feeds : ∀ r ∈ w.feeds, ∃ s, w.hub.subs[r.feed.sub]? = some s ∧
    r.InStep reset w.log w.durable w.hub s
  nofeeds : w.hub.active = false → w.feeds = []

/-- Nothing that is parked is already covered. -/
def HubState.Prompt (h : HubState C) : Prop :=
  ∀ p ∈ h.parked.head?, h.durable < p.needs

/-! ### Handing out and parking -/

section Hub

variable {h : HubState C} {p : Parked C} {ps : List (Parked C)}

theorem HubState.batches_unpark (h : HubState C) : h.unpark.batches = h.batches := by
  unfold HubState.unpark HubState.batches
  cases hp : h.parked with
  | nil => simp [hp]
  | cons p ps => simp

/-- A parked batch is newer than all that were handed out. -/
theorem HubState.InOrder.unpark (hh : h.InOrder) (hp : h.parked = p :: ps) : h.unpark.InOrder := by
  have hbatches := h.batches_unpark
  have hunpark : h.unpark = { h with parked := ps }.release p.batch p.bytes := by
    rw [HubState.unpark, hp]
  have hmem : p.batch ∈ h.batches := by
    rw [HubState.batches, hp]
    exact mem_append_right _ mem_cons_self
  have hasc := hh.ascending
  rw [HubState.batches, hp, map_cons] at hasc
  obtain ⟨hout, htail, hcross⟩ := pairwise_append.mp hasc
  have hlt : h.lastLsn < p.batch.lsn := hh.parked_lt p (hp ▸ mem_cons_self)
  have hring : (h.handedOut ++ [p.batch]).filter (fun b => h.ringFloor < b.lsn) =
      (h.ring ++ [(p.batch, p.bytes)]).map Prod.fst := by
    have hfloor := hh.floor_le
    have hp' : decide (h.ringFloor < p.batch.lsn) = true := decide_eq_true (by omega)
    simp only [filter_append, hh.ring, map_append, filter_cons, hp', if_true, filter_nil, map_cons,
      map_nil]
  have hasc' : HubState.Ascending (h.handedOut ++ [p.batch]) := by
    refine pairwise_append.mpr ⟨hout, pairwise_singleton _ _, fun a ha b hb => ?_⟩
    rw [mem_singleton.mp hb]
    exact hcross a ha _ mem_cons_self
  obtain ⟨htrim, -⟩ := HubState.trim_eq h.retention h.retentionBytes hasc' _ _ hring
  refine ⟨?_, ?_, ?_, ?_, ?_, ?_, ?_, ?_, ?_, ?_⟩
  · rw [hbatches]
    exact hh.ascending
  · rw [hbatches, hunpark]
    exact hh.assigned
  · rw [hunpark]
    exact hh.assigned _ hmem
  · rw [hunpark]
    intro b hb
    rcases mem_append.mp hb with hb | hb
    · exact (Nat.le_of_lt (Nat.lt_of_le_of_lt (hh.out_le b hb) hlt))
    · rw [mem_singleton.mp hb]
      exact Nat.le_refl _
  · rw [hunpark]
    intro q hq
    exact (pairwise_cons.mp htail).1 _ (mem_map_of_mem hq)
  · rw [hunpark]
    exact htrim
  · rw [hunpark]
    have hfloor := hh.floor_le
    rcases HubState.trim_floor h.retention h.retentionBytes
      (h.ring ++ [(p.batch, p.bytes)]) h.ringFloor with hf | ⟨e, he, hf⟩
    · exact hf.le.trans (hfloor.trans hlt.le)
    · refine hf.le.trans ?_
      rcases mem_append.mp he with he | he
      · have hout' : e.1 ∈ h.handedOut := by
          have hmem' : e.1 ∈ h.ring.map Prod.fst := mem_map_of_mem he
          rw [← hh.ring] at hmem'
          exact (mem_filter.mp hmem').1
        exact (hh.out_le e.1 hout').trans hlt.le
      · rw [mem_singleton.mp he]
        exact le_rfl
  · rw [hunpark]
    intro hc
    exact absurd (hh.closed hc) (by rw [hp]; simp)
  · intro hi
    rw [hbatches]
    rw [hunpark] at hi
    exact hh.inactive hi
  · rw [hunpark]
    exact hh.deferred

/-- What a feed shares with the hub after a batch was handed out. -/
theorem HubState.subs_unpark (hp : h.parked = p :: ps) {i : ℕ} {s : SubState C}
    (hs : h.subs[i]? = some s) :
    h.unpark.subs[i]? = some (if h.subscribers.contains i then s.push p.batch else s) := by
  rw [HubState.unpark, hp, HubState.release_subs, HubState.pushAll, getElem?_mapIdx]
  exact congrArg (Option.map _) hs

theorem HubState.mem_subscribers_unpark (hp : h.parked = p :: ps) {i : ℕ} {s : SubState C}
    (hs : h.unpark.subs[i]? = some s) (hopen : s.status = .open) (hi : i ∈ h.subscribers) :
    i ∈ h.unpark.subscribers := by
  have hopen' : HubState.isOpen h.unpark.subs i = true := by
    rw [HubState.isOpen, hs, Option.map_some, Option.getD_some, hopen]
    rfl
  rw [HubState.unpark, hp] at hopen' ⊢
  exact mem_filter.mpr ⟨hi, hopen'⟩

/-- A push never reopens a feed. -/
theorem push_status (b : ChangeBatch C) (s : SubState C) (h : (s.push b).status = .open) :
    s.status = .open ∧ s.push b = { s with queue := s.queue ++ [b] } := by
  unfold SubState.push at h ⊢
  split at h
  next hne => exact absurd h hne
  next heq =>
    split at h
    · exact absurd h (by simp)
    next hroom => exact ⟨by simpa using heq, by rw [if_neg heq, if_neg hroom]⟩

theorem push_queue (b : ChangeBatch C) (s : SubState C) :
    (s.push b).queue = s.queue ∨ (s.push b).queue = s.queue ++ [b] := by
  unfold SubState.push
  split
  · exact Or.inl rfl
  · split
    · exact Or.inl rfl
    · exact Or.inr rfl

variable {reset : C} {log : List (LoggedTx C)} {durable : ℕ} {r : FeedRun C} {s : SubState C}

/-- The hub hands out one batch: a feed that is open gets it or lags. -/
theorem FeedRun.InStep.unpark (hr : r.InStep reset log durable h s)
    (hs : h.subs[r.feed.sub]? = some s) (hh : h.InOrder) (hp : h.parked = p :: ps) :
    ∃ s', h.unpark.subs[r.feed.sub]? = some s' ∧ r.InStep reset log durable h.unpark s' := by
  have hopen : h.closed = false := by
    cases hc : h.closed with
    | false => rfl
    | true => exact absurd (hh.closed hc) (by rw [hp]; simp)
  have hlt : h.lastLsn < p.batch.lsn := hh.parked_lt p (hp ▸ mem_cons_self)
  have hsince : r.since < p.batch.lsn := Nat.lt_of_le_of_lt hr.since_le hlt
  have hout : h.unpark.handedOut = h.handedOut ++ [p.batch] := by
    rw [HubState.unpark, hp]
    rfl
  have hlast : h.unpark.lastLsn = p.batch.lsn := by
    rw [HubState.unpark, hp]
    rfl
  have hclosed : h.unpark.closed = false := by
    rw [HubState.unpark, hp]
    exact hopen
  have hfilter : h.unpark.handedOut.filter (fun b => r.since < b.lsn) =
      h.handedOut.filter (fun b => r.since < b.lsn) ++ [p.batch] := by
    rw [hout, filter_append]
    simp [hsince]
  have hsub := HubState.subs_unpark hp hs
  refine ⟨_, hsub, ?_⟩
  by_cases hreg : h.subscribers.contains r.feed.sub
  · rw [if_pos hreg] at hsub ⊢
    have hreg' : r.feed.sub ∈ h.subscribers := contains_iff_mem.mp hreg
    -- What is pending grows by the batch, or stays.
    have hpending : r.feed.pending (s.push p.batch) = r.feed.pending s ∨
        r.feed.pending (s.push p.batch) = r.feed.pending s ++ [p.batch] := by
      unfold ChangeFeed.pending
      rcases push_queue p.batch s with hq | hq
      · exact Or.inl (by rw [hq])
      · exact Or.inr (by rw [hq, append_assoc, append_assoc])
    refine ⟨?_, ?_, ?_, ?_, ?_, hr.history, hr.past_ascending, hr.past_committed, hr.delivered,
      ?_, ?_⟩
    · rw [hfilter, ← append_assoc]
      rcases hpending with hq | hq
      · rw [hq]
        exact hr.taken.trans (sublist_append_left _ _)
      · rw [hq, ← append_assoc]
        exact hr.taken.append (Sublist.refl _)
    · intro hstatus herr
      obtain ⟨hs', hq⟩ := push_status p.batch s hstatus
      have hkept := hr.kept hs' herr
      have hgrown : r.feed.pending (s.push p.batch) = r.feed.pending s ++ [p.batch] := by
        rw [hq]
        simp [ChangeFeed.pending]
      rw [hfilter, hgrown, ← append_assoc, hkept, append_assoc]
    · intro hstatus _
      exact HubState.mem_subscribers_unpark hp hsub hstatus hreg'
    · intro last hl b hb
      rcases hpending with hq | hq
      · exact hr.after last hl b (hq ▸ hb)
      · rw [hq] at hb
        rcases mem_append.mp hb with hb | hb
        · exact hr.after last hl b hb
        · rw [mem_singleton.mp hb]
          exact Nat.lt_of_le_of_lt (hr.last_le last hl) hlt
    · intro b hb
      rw [hout]
      rcases mem_append.mp hb with hb | hb
      · exact mem_append_left _ (hr.live b (mem_append_left _ hb))
      · rcases push_queue p.batch s with hq | hq
        · rw [hq] at hb
          exact mem_append_left _ (hr.live b (mem_append_right _ hb))
        · rw [hq] at hb
          rcases mem_append.mp hb with hb | hb
          · exact mem_append_left _ (hr.live b (mem_append_right _ hb))
          · exact mem_append_right _ hb
    · rw [hlast]
      exact hsince.le
    · rw [hlast]
      exact fun last hl => (hr.last_le last hl).trans hlt.le
  · rw [if_neg hreg] at hsub ⊢
    have hnotopen : s.status ≠ .open := by
      intro hstatus
      exact hreg (contains_iff_mem.mpr (hr.registered hstatus hopen))
    refine ⟨?_, fun hstatus => absurd hstatus hnotopen, fun hstatus => absurd hstatus hnotopen,
      hr.after, ?_, hr.history, hr.past_ascending, hr.past_committed, hr.delivered, ?_, ?_⟩
    · rw [hfilter, ← append_assoc]
      exact hr.taken.trans (sublist_append_left _ _)
    · intro b hb
      rw [hout]
      exact mem_append_left _ (hr.live b hb)
    · rw [hlast]
      exact hsince.le
    · rw [hlast]
      exact fun last hl => (hr.last_le last hl).trans hlt.le

/-- A feed that is closed has less to deliver. -/
theorem FeedRun.InStep.close (hr : r.InStep reset log durable h s) :
    r.InStep reset log durable h s.close := by
  have hpending : r.feed.pending s.close <+ r.feed.pending s :=
    (Sublist.refl _).append ((Sublist.refl _).append (ChangeFeed.close_queue_sublist s))
  have hclosed : s.close.status ≠ .open := by
    rw [ChangeFeed.close_status]
    decide
  refine { hr with taken := ?_, kept := ?_, registered := ?_, after := ?_, live := ?_ }
  · exact ((Sublist.refl _).append hpending).trans hr.taken
  · exact fun hopen => absurd hopen hclosed
  · exact fun hopen => absurd hopen hclosed
  · exact fun last hl b hb => hr.after last hl b (hpending.subset hb)
  · intro b hb
    rcases mem_append.mp hb with hb | hb
    · exact hr.live b (mem_append_left _ hb)
    · exact hr.live b (mem_append_right _ (ChangeFeed.close_queue s hb))

/-- What a feed delivered and is to deliver ascends. -/
theorem FeedRun.InStep.ascending (hr : r.InStep reset log durable h s) (hh : h.InOrder) :
    HubState.Ascending (r.delivered ++ r.feed.pending s) := by
  refine Pairwise.sublist hr.taken (pairwise_append.mpr ⟨hr.past_ascending, ?_, ?_⟩)
  · exact (pairwise_append.mp hh.ascending).1.sublist filter_sublist
  · intro a ha b hb
    have hb' := of_decide_eq_true (mem_filter.mp hb).2
    exact Nat.lt_of_le_of_lt (hr.past_committed a ha).2 hb'

/-- What a feed delivered is no newer than what the hub handed out. -/
theorem FeedRun.InStep.delivered_le (hr : r.InStep reset log durable h s) (hh : h.InOrder) :
    ∀ b ∈ r.delivered, b.lsn ≤ h.lastLsn := by
  intro b hb
  rcases mem_append.mp (hr.taken.subset (mem_append_left _ hb)) with hb | hb
  · exact (hr.past_committed b hb).2.trans hr.since_le
  · exact hh.out_le b (mem_filter.mp hb).1

/-- A new batch is parked last. -/
theorem HubState.InOrder.park (hh : h.InOrder) (hnew : h.lastAssigned < p.batch.lsn)
    (hopen : h.closed = false) (hactive : h.active = true) : (h.park p).InOrder := by
  have hbatches : (h.park p).batches = h.batches ++ [p.batch] := by
    simp [HubState.batches, HubState.park]
  refine ⟨?_, ?_, ?_, hh.out_le, ?_, hh.ring, hh.floor_le, ?_, ?_, hh.deferred⟩
  · rw [hbatches]
    refine pairwise_append.mpr ⟨hh.ascending, pairwise_singleton _ _, fun a ha b hb => ?_⟩
    rw [mem_singleton.mp hb]
    exact Nat.lt_of_le_of_lt (hh.assigned a ha) hnew
  · rw [hbatches]
    intro b hb
    rcases mem_append.mp hb with hb | hb
    · exact (hh.assigned b hb).trans hnew.le
    · rw [mem_singleton.mp hb]
      exact le_rfl
  · exact hh.last_le.trans hnew.le
  · intro q hq
    rcases mem_append.mp hq with hq | hq
    · exact hh.parked_lt q hq
    · rw [mem_singleton.mp hq]
      exact Nat.lt_of_le_of_lt hh.last_le hnew
  · intro hc
    exact absurd (hopen.symm.trans hc) (by decide)
  · intro hi
    exact absurd (hactive.symm.trans hi) (by decide)

/-- A feed does not see what is parked. -/
theorem FeedRun.InStep.congr {h' : HubState C} (hr : r.InStep reset log durable h s)
    (hout : h'.handedOut = h.handedOut) (hlast : h.lastLsn ≤ h'.lastLsn)
    (hclosed : h'.closed = h.closed) (hsubs : h.subscribers ⊆ h'.subscribers) :
    r.InStep reset log durable h' s := by
  refine ⟨?_, ?_, ?_, hr.after, ?_, hr.history, hr.past_ascending, hr.past_committed,
    hr.delivered, hr.since_le.trans hlast, fun last hl => (hr.last_le last hl).trans hlast⟩
  · rw [hout]
    exact hr.taken
  · rw [hout]
    exact hr.kept
  · rw [hclosed]
    exact fun hopen hc => hsubs (hr.registered hopen hc)
  · rw [hout]
    exact hr.live

end Hub

/-! ### The log grows and becomes durable -/

section Log

variable {reset : C} {log more : List (LoggedTx C)} {durable durable' : ℕ} {b : ChangeBatch C}

theorem Committed.mono (h : Committed log b) (hsub : log ⊆ more) : Committed more b :=
  hsub h

/-- A transaction after the announcement changes nothing for it. -/
theorem Announced.append {upto : ℕ} (h : Announced reset log upto b)
    (hmore : ∀ tx ∈ more, b.lsn < tx.batch.lsn) : Announced reset (log ++ more) upto b := by
  refine ⟨h.1, fun tx htx => ?_⟩
  rcases mem_append.mp htx with htx | htx
  · exact h.2 tx htx
  · have hlt := hmore tx htx
    exact ⟨by omega, fun h => by omega⟩

theorem Released.append (h : Released reset log durable b)
    (hmore : ∀ tx ∈ more, b.lsn < tx.batch.lsn) : Released reset (log ++ more) durable b := by
  rcases h with ⟨hc, hd⟩ | ha
  · exact Or.inl ⟨hc.mono (subset_append_left log more), hd⟩
  · exact Or.inr (ha.append hmore)

theorem ParkedFor.append {p : Parked C} (h : ParkedFor reset log durable p)
    (hmore : ∀ tx ∈ more, p.batch.lsn < tx.batch.lsn) :
    ParkedFor reset (log ++ more) durable p := by
  rcases h with ⟨hc, hn⟩ | ⟨ha, hn⟩
  · exact Or.inl ⟨hc.mono (subset_append_left log more), hn⟩
  · exact Or.inr ⟨ha.append hmore, hn⟩

theorem Released.mono (h : Released reset log durable b) (hle : durable ≤ durable') :
    Released reset log durable' b := by
  rcases h with ⟨hc, hd⟩ | ⟨hr, hl⟩
  · exact Or.inl ⟨hc, hd.trans hle⟩
  · exact Or.inr ⟨hr, fun tx htx => ⟨(hl tx htx).1, fun h => ((hl tx htx).2 h).trans hle⟩⟩

theorem ParkedFor.mono {p : Parked C} (h : ParkedFor reset log durable p)
    (hle : durable ≤ durable') : ParkedFor reset log durable' p :=
  h.imp_right fun h => ⟨h.1, h.2.trans hle⟩

/-- A parked batch whose need is met may be handed out. -/
theorem ParkedFor.released {p : Parked C} (h : ParkedFor reset log durable p)
    (hmet : p.needs ≤ durable) : Released reset log durable p.batch := by
  rcases h with ⟨hc, hn⟩ | ⟨⟨hr, hl⟩, hn⟩
  · exact Or.inl ⟨hc, hn ▸ hmet⟩
  · exact Or.inr ⟨hr, fun tx htx => ⟨(hl tx htx).1, fun h => ((hl tx htx).2 h).trans hn⟩⟩

end Log

section Poll

variable {h : HubState C} {reset : C} {log : List (LoggedTx C)} {durable : ℕ} {r : FeedRun C}
  {s : SubState C}

/-- What a poll leaves of a feed. -/
theorem FeedRun.InStep.polled {h' : HubState C} {s' : SubState C} {read : Except LoraError Unit}
    {out : Except LoraError (ChangePoll C)} {feed' : ChangeFeed C}
    (hr : r.InStep reset log durable h s) (hh : h.InOrder)
    (hstep : ChangeFeed.PollStep read r.feed s out feed' s')
    (hreleased : ∀ b ∈ h.handedOut, Released reset log durable b)
    (hread : read = .ok () → ∀ hs upto, r.feed.history = some (hs, upto) → upto ≤ durable)
    (hout : h'.handedOut = h.handedOut) (hlast : h'.lastLsn = h.lastLsn)
    (hclosed : h'.closed = h.closed) (hsubs : h'.subscribers = h.subscribers) :
    FeedRun.InStep reset log durable h'
      { r with feed := feed', delivered := r.delivered ++ ChangeFeed.handed out } s' := by
  have htaken : r.delivered ++ ChangeFeed.handed out ++ feed'.pending s' <+
      r.delivered ++ r.feed.pending s := by
    rw [append_assoc]
    exact (Sublist.refl _).append hstep.taken
  have hasc := (hr.ascending hh).sublist htaken
  -- A batch handed out is of the log's past, made durable, or the hub's.
  have hhanded : ∀ b ∈ ChangeFeed.handed out, Released reset log durable b ∧ b.lsn ≤ h.lastLsn := by
    intro b hb
    rcases hstep.source b hb with hb | ⟨hs, upto, hhist, hb, hok⟩
    · exact ⟨hreleased b (hr.live b hb), hh.out_le b (hr.live b hb)⟩
    · obtain ⟨hsub, hupto⟩ := hr.history hs upto hhist
      obtain ⟨hc, hle⟩ := hr.past_committed b (hsub hb)
      have hdurable := hread hok hs upto hhist
      exact ⟨Or.inl ⟨hc, by omega⟩, hle.trans hr.since_le⟩
  refine ⟨?_, ?_, ?_, ?_, ?_, ?_, hr.past_ascending, hr.past_committed, ?_, ?_, ?_⟩
  · rw [hout]
    exact htaken.trans hr.taken
  · intro hopen herr
    obtain ⟨hopen', herr', heq⟩ := hstep.kept hopen herr
    rw [hout, append_assoc, heq]
    exact hr.kept hopen' herr'
  · intro hopen hc
    rw [hsubs, hstep.same]
    exact hr.registered (hstep.opened hopen) (hclosed ▸ hc)
  · intro last hl b hb
    dsimp only at hl hb
    rw [hstep.last] at hl
    cases hhand : ChangeFeed.handed out with
    | nil =>
      rw [hhand] at hl
      have htaken' := hstep.taken
      rw [hhand, nil_append] at htaken'
      exact hr.after last hl b (htaken'.subset hb)
    | cons first rest =>
      rw [hhand] at hl hasc
      obtain rfl : first.lsn = last := by simpa using hl
      have hcross := (pairwise_append.mp hasc).2.2
      exact hcross first (mem_append_right _ mem_cons_self) b hb
  · rw [hout]
    exact fun b hb => hr.live b (hstep.live hb)
  · intro hs upto hh'
    obtain ⟨hs', hhist, hsub⟩ := hstep.history hs upto hh'
    obtain ⟨hpast, hupto⟩ := hr.history hs' upto hhist
    exact ⟨fun b hb => hpast (hsub hb), hupto⟩
  · intro b hb
    rcases mem_append.mp hb with hb | hb
    · exact hr.delivered b hb
    · exact (hhanded b hb).1
  · rw [hlast]
    exact hr.since_le
  · rw [hlast]
    intro last hl
    dsimp only at hl
    rw [hstep.last] at hl
    cases hhand : ChangeFeed.handed out with
    | nil =>
      rw [hhand] at hl
      exact hr.last_le last hl
    | cons first rest =>
      rw [hhand] at hl
      obtain rfl : first.lsn = last := by simpa using hl
      exact (hhanded first (hhand ▸ mem_cons_self)).2

end Poll

/-! ### One step -/

namespace World

section Step

variable {reset : C} {w : World C} {p : Parked C} {ps : List (Parked C)}

/-- The first parked batch is handed out, once its need is met. -/
theorem Inv.unpark (hw : w.Inv reset) (hp : w.hub.parked = p :: ps)
    (hmet : p.needs ≤ w.durable) : World.Inv reset { w with hub := w.hub.unpark } := by
  have hunpark : w.hub.unpark = { w.hub with parked := ps }.release p.batch p.bytes := by
    rw [HubState.unpark, hp]
  have hmem : p ∈ w.hub.parked := hp ▸ mem_cons_self
  refine ⟨hw.log, hw.hub.unpark hp, ?_, ?_, ?_, ?_, ?_, ?_, ?_, hw.subs, ?_, ?_⟩
  · rw [hunpark]
    exact hw.assigned
  · rw [hunpark]
    exact hw.writing
  · rw [hunpark]
    intro b hb
    rcases mem_append.mp hb with hb | hb
    · exact hw.released b hb
    · rw [mem_singleton.mp hb]
      exact (hw.parked p hmem).released hmet
  · rw [hunpark]
    exact fun q hq => hw.parked q (hp ▸ mem_cons_of_mem p hq)
  · rw [hunpark]
    exact hw.behind
  · rw [hunpark]
    exact hw.known
  · rw [HubState.batches_unpark, hunpark]
    exact hw.captured
  · intro r hr
    obtain ⟨s, hs, hstep⟩ := hw.feeds r hr
    exact hstep.unpark hs hw.hub hp
  · rw [hunpark]
    exact hw.nofeeds

/-- Handing out the covered front: what is then first is not covered. -/
theorem Inv.releaseCovered {n : ℕ} (ps : List (Parked C)) :
    ∀ {w : World C}, w.Inv reset → w.hub.parked = ps → n ≤ w.durable →
      World.Inv reset { w with hub := HubState.releaseCovered n ps w.hub } ∧
        (∀ q ∈ (HubState.releaseCovered n ps w.hub).parked.head?, n < q.needs) ∧
        (HubState.releaseCovered n ps w.hub).durable = w.hub.durable ∧
        (HubState.releaseCovered n ps w.hub).deferred = w.hub.deferred := by
  induction ps with
  | nil =>
    intro w hw hp _
    have hsame : HubState.releaseCovered n [] w.hub = w.hub := by rw [HubState.releaseCovered, ← hp]
    rw [hsame, hp]
    exact ⟨hw, fun q hq => absurd hq (by simp), rfl, rfl⟩
  | cons p ps ih =>
    intro w hw hp hn
    rw [HubState.releaseCovered_cons _ _ _ _ hp]
    split
    next hmet =>
      have hunpark : w.hub.unpark = { w.hub with parked := ps }.release p.batch p.bytes := by
        rw [HubState.unpark, hp]
      have hstep := @ih { w with hub := w.hub.unpark } (hw.unpark hp (hmet.trans hn))
        (by rw [hunpark]; rfl) hn
      rw [hunpark] at hstep ⊢
      exact hstep
    next hmet =>
      refine ⟨hw, fun q hq => ?_, rfl, rfl⟩
      rw [hp] at hq
      obtain rfl : p = q := by simpa using hq
      omega

/-- A new batch is parked; it is the one the writer committed, if one was writing. -/
theorem Inv.park (hw : w.Inv reset) (hopen : w.hub.closed = false)
    (hactive : w.hub.active = true) (hnew : w.hub.lastAssigned < p.batch.lsn)
    (hle : p.batch.lsn ≤ w.next + 1) (hfor : ParkedFor reset w.log w.durable p)
    (hwriting : ∀ b ∈ w.writing, b = p.batch) :
    World.Inv reset { w with hub := w.hub.park p, writing := none } := by
  refine ⟨hw.log, hw.hub.park hnew hopen hactive, hle, ?_, hw.released, ?_, hw.behind, hw.known,
    ?_, hw.subs, ?_, hw.nofeeds⟩
  · intro b hb
    exact absurd hb (by simp)
  · intro q hq
    rcases mem_append.mp hq with hq | hq
    · exact hw.parked q hq
    · rw [mem_singleton.mp hq]
      exact hfor
  · intro ha hc b hb hne hlt
    have hbatches : (w.hub.park p).batches = w.hub.batches ++ [p.batch] := by
      simp [HubState.batches, HubState.park]
    left
    rw [hbatches]
    rcases hw.captured ha hc b hb hne hlt with hb | hb
    · exact mem_append_left _ hb
    · rw [hwriting b hb]
      exact mem_append_right _ mem_cons_self
  · intro r hr
    obtain ⟨s, hs, hstep⟩ := hw.feeds r hr
    exact ⟨s, hs, hstep.congr rfl le_rfl rfl (Subset.refl _)⟩

/-- A publication: parked, or parked and handed out. -/
theorem Inv.publishWhenDurable {bytes : C → ℕ} {lsn : ℕ} {changes : List C} {needs : ℕ → ℕ}
    (hw : w.Inv reset) (hprompt : w.hub.Prompt) (hactive : w.hub.active = true)
    (hnew : w.hub.lastAssigned < lsn) (hle : lsn ≤ w.next + 1)
    (hfor : ∀ size, ParkedFor reset w.log w.durable
      { needs := needs lsn, batch := { lsn := lsn, changes := changes }, bytes := size })
    (hwriting : ∀ b ∈ w.writing, b = { lsn := lsn, changes := changes }) :
    World.Inv reset { w with
        hub := w.hub.publishWhenDurable bytes (some lsn) changes needs, writing := none } ∧
      (w.hub.publishWhenDurable bytes (some lsn) changes needs).Prompt := by
  have hlsn : max lsn (w.hub.lastAssigned + 1) = lsn := by omega
  have hpark : w.hub.toPark bytes (some lsn) changes needs =
      { needs := needs lsn, batch := { lsn := lsn, changes := changes }
        bytes := (changes.map bytes).sum } := by
    simp only [HubState.toPark, Option.getD_some, hlsn]
  rw [HubState.publishWhenDurable_eq _ _ (hw.hub.deferred hactive), hpark]
  split
  next hnone =>
    refine ⟨⟨hw.log, hw.hub, hw.assigned, fun b hb => absurd hb (by simp), hw.released,
      hw.parked, hw.behind, hw.known, ?_, hw.subs, hw.feeds, hw.nofeeds⟩, hprompt⟩
    intro ha hc b hb hne hlt
    rcases hw.captured ha hc b hb hne hlt with hb' | hb'
    · exact Or.inl hb'
    · rcases hnone with hempty | hclosed
      · rw [hwriting b hb'] at hne
        exact absurd hempty hne
      · exact absurd (hc.symm.trans hclosed) (by decide)
  next hsome =>
    obtain ⟨-, hopen⟩ := not_or.mp hsome
    have hparked := hw.park (Bool.eq_false_iff.mpr hopen) hactive hnew hle
      (hfor (changes.map bytes).sum) hwriting
    split
    next hmet =>
      obtain ⟨hempty, hmet⟩ := hmet
      have hone (p : Parked C) : (w.hub.park p).parked = p :: [] := by simp [HubState.park, hempty]
      refine ⟨hparked.unpark (hone _) (hmet.trans hw.behind), ?_⟩
      intro q hq
      simp [HubState.unpark, HubState.park, hempty] at hq
    next hmet =>
      refine ⟨hparked, fun q hq => ?_⟩
      cases hempty : w.hub.parked with
      | nil =>
        have hlt : w.hub.durable < needs lsn := by
          by_contra hcov
          exact hmet ⟨hempty, Nat.le_of_not_lt hcov⟩
        simp [HubState.park, hempty] at hq
        exact hq ▸ hlt
      | cons first rest =>
        simp [HubState.park, hempty] at hq
        exact hprompt q (by rw [hempty, ← hq]; rfl)

/-- The log grows by transactions the hub has not heard of. -/
theorem Inv.grow {w' : World C} {tx : LoggedTx C} (hw : w.Inv reset)
    (hhub : w'.hub = w.hub) (hfeeds : w'.feeds = w.feeds) (hdurable : w'.durable = w.durable)
    (hnotices : w'.notices = w.notices) (hfrom : w'.capturedFrom = w.capturedFrom)
    (hlog : w'.log = w.log ++ [tx]) (hnext : w'.next = tx.batch.lsn + 1)
    (hlt : w.next + 1 < tx.batch.lsn) (hnone : w.writing = none)
    (hwriting : ∀ b ∈ w'.writing, w.hub.active ∧ tx = { batch := b, committed := true })
    (hcaptured : w.hub.active → tx.committed = true → tx.batch ∈ w'.writing) :
    w'.Inv reset := by
  have hassigned := hw.assigned
  have hsub : w.log ⊆ w'.log := hlog ▸ subset_append_left _ _
  have hafter : ∀ b ∈ w.hub.batches, ∀ tx' ∈ [tx], b.lsn < tx'.batch.lsn := by
    intro b hb tx' htx'
    have hb' := hw.hub.assigned b hb
    rw [mem_singleton.mp htx']
    omega
  refine ⟨⟨?_, ?_, ?_, ?_⟩, ?_, ?_, ?_, ?_, ?_, ?_, ?_, ?_, ?_, ?_, ?_⟩
  · rw [hlog]
    refine pairwise_append.mpr ⟨hw.log.ascending, pairwise_singleton _ _, fun a ha c hc => ?_⟩
    have ha' := hw.log.lt_next a ha
    rw [mem_singleton.mp hc]
    omega
  · intro tx' htx'
    rw [hlog] at htx'
    rcases mem_append.mp htx' with h | h
    · have h' := hw.log.lt_next tx' h
      omega
    · rw [mem_singleton.mp h]
      omega
  · have h := hw.log.durable_lt
    omega
  · rw [hnotices, hdurable]
    exact hw.log.noticed
  · rw [hhub]
    exact hw.hub
  · rw [hhub]
    omega
  · intro b hb
    obtain ⟨hactive, rfl⟩ := hwriting b hb
    rw [hhub]
    refine ⟨hactive, ?_, Nat.lt_of_le_of_lt hassigned hlt⟩
    rw [Committed, hlog]
    exact mem_append_right _ mem_cons_self
  · rw [hhub, hlog, hdurable]
    intro b hb
    exact (hw.released b hb).append (hafter b (mem_append_left _ hb))
  · rw [hhub, hlog, hdurable]
    intro q hq
    exact (hw.parked q hq).append
      (hafter q.batch (mem_append_right _ (mem_map_of_mem hq)))
  · rw [hhub, hdurable]
    exact hw.behind
  · rw [hhub, hdurable, hnotices]
    exact hw.known
  · rw [hhub, hfrom, hlog]
    intro ha hc b hb hne hcap
    rcases mem_append.mp hb with hb | hb
    · left
      rcases hw.captured ha hc b hb hne hcap with h | h
      · exact h
      · exact absurd h (by simp [hnone])
    · right
      obtain rfl := mem_singleton.mp hb
      exact hcaptured ha rfl
  · rw [hfeeds]
    exact hw.subs
  · rw [hfeeds, hhub, hlog, hdurable]
    intro r hr
    obtain ⟨s, hs, hstep⟩ := hw.feeds r hr
    refine ⟨s, hs, { hstep with past_committed := ?_, delivered := ?_ }⟩
    · intro b hb
      exact ⟨(hstep.past_committed b hb).1.mono (subset_append_left _ _),
        (hstep.past_committed b hb).2⟩
    · intro b hb
      refine (hstep.delivered b hb).append ?_
      intro tx' htx'
      have hle := (hstep.delivered_le hw.hub b hb).trans hw.hub.last_le
      rw [mem_singleton.mp htx']
      omega
  · rw [hhub, hfeeds]
    exact hw.nofeeds

theorem inOrder_trimRing {h : HubState C} (hh : h.InOrder) (retention retentionBytes : ℕ) :
    (HubState.trimRing { h with
      retention := retention, retentionBytes := retentionBytes }).InOrder := by
  have hasc : HubState.Ascending h.handedOut := (pairwise_append.mp hh.ascending).1
  refine { hh with ring := ?_, floor_le := ?_ }
  · exact (HubState.trim_eq retention retentionBytes hasc _ _ hh.ring).1
  · rcases HubState.trim_floor retention retentionBytes h.ring h.ringFloor with hf | ⟨e, he, hf⟩
    · exact hf.le.trans hh.floor_le
    · have hmem : e.1 ∈ h.ring.map Prod.fst := mem_map_of_mem he
      rw [← hh.ring] at hmem
      exact hf.le.trans (hh.out_le e.1 (mem_filter.mp hmem).1)

/-- A change to the limits of the ring alone. -/
theorem Inv.trim (hw : w.Inv reset) (retention retentionBytes : ℕ) : World.Inv reset { w with
      hub := HubState.trimRing { w.hub with
        retention := retention, retentionBytes := retentionBytes } } := by
  refine ⟨hw.log, inOrder_trimRing hw.hub retention retentionBytes, hw.assigned, hw.writing,
    hw.released, hw.parked, hw.behind, hw.known, hw.captured, hw.subs, fun r hr => ?_,
    hw.nofeeds⟩
  obtain ⟨s, hs, hstep⟩ := hw.feeds r hr
  exact ⟨s, hs, hstep.congr rfl le_rfl rfl (Subset.refl _)⟩

/-- Closing what one feed shares with the hub. -/
theorem Inv.closeSub (hw : w.Inv reset) (i : ℕ) : World.Inv reset
      { w with hub := { w.hub with subs := w.hub.subs.modify i SubState.close } } := by
  refine ⟨hw.log, { hw.hub with }, hw.assigned, hw.writing, hw.released, hw.parked, hw.behind,
    hw.known, hw.captured, hw.subs, fun r hr => ?_, hw.nofeeds⟩
  obtain ⟨s, hs, hstep⟩ := hw.feeds r hr
  by_cases hi : i = r.feed.sub
  · refine ⟨s.close, ?_, ?_⟩
    · rw [hi, getElem?_modify_eq, hs]
      rfl
    · exact hstep.close.congr rfl le_rfl rfl (Subset.refl _)
  · exact ⟨s, by rw [getElem?_modify_ne _ _ hi]; exact hs, hstep.congr rfl le_rfl rfl
      (Subset.refl _)⟩

/-- The hub is closed. -/
theorem Inv.close (hw : w.Inv reset) : World.Inv reset { w with hub := w.hub.close } := by
  have hbatches : w.hub.close.batches <+ w.hub.batches := by simp [HubState.batches, HubState.close]
  refine ⟨hw.log, ⟨hw.hub.ascending.sublist hbatches, ?_, hw.hub.last_le, hw.hub.out_le, ?_,
    hw.hub.ring, hw.hub.floor_le, fun _ => rfl, ?_, hw.hub.deferred⟩, hw.assigned, hw.writing,
    hw.released, ?_, hw.behind, hw.known, ?_, hw.subs, ?_, hw.nofeeds⟩
  · exact fun b hb => hw.hub.assigned b (hbatches.subset hb)
  · exact fun q hq => absurd hq not_mem_nil
  · exact fun hi => sublist_nil.mp (hw.hub.inactive hi ▸ hbatches)
  · exact fun q hq => absurd hq not_mem_nil
  · exact fun _ hc => absurd hc (by simp [HubState.close])
  · intro r hr
    obtain ⟨s, hs, hstep⟩ := hw.feeds r hr
    have hsub : w.hub.close.subs[r.feed.sub]? =
        some (if w.hub.subscribers.contains r.feed.sub then s.close else s) := by
      rw [HubState.close, getElem?_mapIdx, hs]
      rfl
    refine ⟨_, hsub, ?_⟩
    split
    next hreg =>
      exact { hstep.close with
        registered := fun hopen => by
          rw [ChangeFeed.close_status] at hopen
          exact absurd hopen (by decide) }
    next hreg =>
      exact { hstep with registered := fun _ hc => absurd hc (by simp [HubState.close]) }

/-- Capture is turned on, or a second opener finds it on. -/
theorem Inv.activate (hw : w.Inv reset) (hnone : w.writing = none) (openers : ℕ) :
    World.Inv reset { w with
      openers := openers
      hub := (w.hub.deferUntilDurable w.durable).activate (some (w.next - 1))
      capturedFrom := if w.hub.active then w.capturedFrom else w.next - 1 } := by
  have hbehind := hw.behind
  have hassigned := hw.assigned
  have hlog := hw.log.durable_lt
  cases hactive : w.hub.active with
  | true =>
    have hhub : (w.hub.deferUntilDurable w.durable).activate (some (w.next - 1)) =
        { w.hub with deferred := true, durable := max w.hub.durable w.durable } := by
      simp [HubState.activate, HubState.deferUntilDurable, hactive]
    rw [hhub, if_pos rfl]
    refine ⟨hw.log, { hw.hub with deferred := fun _ => rfl }, hw.assigned, hw.writing,
      hw.released, hw.parked, ?_, ?_, hw.captured, hw.subs, ?_, hw.nofeeds⟩
    · exact max_le hbehind le_rfl
    · exact fun _ => Or.inl (le_max_right _ _)
    · intro r hr
      obtain ⟨s, hs, hstep⟩ := hw.feeds r hr
      exact ⟨s, hs, hstep.congr rfl le_rfl rfl (Subset.refl _)⟩
  | false =>
    have hbatches := hw.hub.inactive hactive
    obtain ⟨hout, hparked⟩ := append_eq_nil_iff.mp hbatches
    have hring : w.hub.ring = [] := by
      have h := hw.hub.ring
      rw [hout] at h
      exact map_eq_nil_iff.mp h.symm
    have hlast := hw.hub.last_le
    set head := max (w.next - 1) w.hub.lastLsn with hhead
    have hle : head ≤ w.next + 1 := max_le (by omega) (by omega)
    have hhub : (w.hub.deferUntilDurable w.durable).activate (some (w.next - 1)) = { w.hub with
          active := true
          deferred := true
          durable := max w.hub.durable w.durable
          lastLsn := head
          lastAssigned := head
          ringFloor := head } := by
      simp [HubState.activate, HubState.deferUntilDurable, hactive, hhead]
    rw [hhub, if_neg (by simp)]
    refine ⟨hw.log, ⟨hw.hub.ascending, ?_, le_rfl, ?_, ?_, ?_, le_rfl, hw.hub.closed, ?_,
      fun _ => rfl⟩, ?_, ?_, hw.released, hw.parked, max_le hbehind le_rfl,
      fun _ => Or.inl (le_max_right _ _), ?_, hw.subs, ?_, ?_⟩
    · intro b hb
      exact absurd (hbatches ▸ hb) not_mem_nil
    · intro b hb
      exact absurd (hout ▸ hb) not_mem_nil
    · intro q hq
      rw [map_eq_nil_iff.mp hparked] at hq
      exact absurd hq not_mem_nil
    · simp [hout, hring]
    · exact fun h => absurd h (by simp)
    · exact hle
    · exact fun b hb => absurd hb (by simp [hnone])
    · intro _ _ b hb _ hlt
      have hb' := hw.log.lt_next _ hb
      dsimp only at hb' hlt
      omega
    · intro r hr
      rw [hw.nofeeds hactive] at hr
      exact absurd hr not_mem_nil
    · exact fun h => absurd h (by simp)

theorem ring_filter {h : HubState C} (hh : h.InOrder) (n : ℕ) :
    (h.ring.map Prod.fst).filter (fun b => n < b.lsn) =
      h.handedOut.filter (fun b => max h.ringFloor n < b.lsn) := by
  rw [← hh.ring, filter_filter]
  refine filter_congr fun b _ => ?_
  rw [Bool.eq_iff_iff]
  simp only [Bool.and_eq_true, decide_eq_true_eq, max_lt_iff]
  exact And.comm

/-- What the hub shares with a feed that was never opened. -/
theorem Inv.register (hw : w.Inv reset) (bufferSize : ℕ) :
    World.Inv reset { w with hub := w.hub.register bufferSize } := by
  refine ⟨hw.log, { hw.hub with }, hw.assigned, hw.writing, hw.released, hw.parked, hw.behind,
    hw.known, hw.captured, hw.subs, fun r hr => ?_, hw.nofeeds⟩
  obtain ⟨s, hs, hstep⟩ := hw.feeds r hr
  have hlt := (List.getElem?_eq_some_iff.mp hs).1
  exact ⟨s, (getElem?_append_left hlt).trans hs,
    hstep.congr rfl le_rfl rfl (subset_append_left _ _)⟩

/-- A feed joins. What it is to deliver is its past and what was handed out since. -/
theorem Inv.join (hw : w.Inv reset) (hactive : w.hub.active = true) {feed : ChangeFeed C}
    {past : List (ChangeBatch C)} {since bufferSize : ℕ} (hsub : feed.sub = w.hub.subs.length)
    (hpending : (feed.history.map Prod.fst).getD [] ++ feed.backlog =
      past ++ w.hub.handedOut.filter (fun b => since < b.lsn))
    (hhistory : ∀ hs upto, feed.history = some (hs, upto) → hs ⊆ past ∧ upto = since)
    (hlive : feed.backlog ⊆ w.hub.handedOut) (hasc : HubState.Ascending past)
    (hpast : ∀ b ∈ past, Committed w.log b ∧ b.lsn ≤ since) (hsince : since ≤ w.hub.lastLsn)
    (hafter : ∀ last ∈ feed.lastLsn, last ≤ w.hub.lastLsn ∧
      ∀ b ∈ past ++ w.hub.handedOut.filter (fun b => since < b.lsn), last < b.lsn) :
    World.Inv reset { w with
      hub := w.hub.register bufferSize
      feeds := w.feeds ++ [{ feed := feed, delivered := [], past := past, since := since }] } := by
  have hlt : ∀ r ∈ w.feeds, r.feed.sub < w.hub.subs.length := by
    intro r hr
    obtain ⟨s, hs, -⟩ := hw.feeds r hr
    exact (List.getElem?_eq_some_iff.mp hs).1
  refine ⟨hw.log, { hw.hub with }, hw.assigned, hw.writing, hw.released, hw.parked, hw.behind,
    hw.known, hw.captured, ?_, ?_, fun h => absurd (hactive.symm.trans h) (by decide)⟩
  · rw [map_append]
    refine nodup_append.mpr ⟨hw.subs, nodup_singleton _, fun a ha b hb => ?_⟩
    obtain ⟨r, hr, rfl⟩ := mem_map.mp ha
    obtain rfl := mem_singleton.mp hb
    have hr' := hlt r hr
    dsimp only
    omega
  · intro r hr
    rcases mem_append.mp hr with hr | hr
    · obtain ⟨s, hs, hstep⟩ := hw.feeds r hr
      exact ⟨s, (getElem?_append_left (hlt r hr)).trans hs,
        hstep.congr rfl le_rfl rfl (subset_append_left _ _)⟩
    · rw [mem_singleton.mp hr]
      have hpend : ∀ s : SubState C, s.queue = [] → feed.pending s =
          past ++ w.hub.handedOut.filter (fun b => since < b.lsn) := by
        intro s hs
        rw [ChangeFeed.pending, hs, append_nil, hpending]
      refine ⟨{ queue := [], capacity := max bufferSize 1, status := .open }, ?_, ?_, ?_, ?_, ?_,
        ?_,
        hhistory, hasc, hpast, fun b hb => absurd hb not_mem_nil, hsince,
        fun last hl => (hafter last hl).1⟩
      · dsimp only
        rw [hsub]
        exact getElem?_concat_length
      · rw [hpend _ rfl]
        exact Sublist.refl _
      · intro _ _
        rw [hpend _ rfl]
        rfl
      · intro _ _
        rw [hsub]
        exact mem_append_right _ mem_cons_self
      · intro last hl b hb
        rw [hpend _ rfl] at hb
        exact (hafter last hl).2 b hb
      · intro b hb
        rw [append_nil] at hb
        exact hlive hb

/-- A poll, whatever comes of it. -/
theorem Inv.poll {w' : World C} {i : ℕ} {read : Except LoraError Unit} (hw : w.Inv reset)
    (hstep : w.poll i read = some w') : w'.Inv reset ∧ w'.hub.parked = w.hub.parked ∧
      w'.hub.durable = w.hub.durable := by
  unfold World.poll at hstep
  cases hrun : w.feeds[i]? with
  | none => simp [hrun] at hstep
  | some run =>
    have hmem : run ∈ w.feeds := mem_of_getElem? hrun
    have hlt : i < w.feeds.length := (List.getElem?_eq_some_iff.mp hrun).1
    obtain ⟨sub, hsub, hin⟩ := hw.feeds run hmem
    simp only [hrun, hsub, Option.bind_eq_bind, Option.bind_some] at hstep
    split at hstep
    · exact absurd hstep (by simp)
    next hguard =>
      obtain rfl := Option.some.inj hstep
      have hread : read = .ok () → ∀ hs upto, run.feed.history = some (hs, upto) →
          upto ≤ w.durable := by
        rintro rfl hs upto hh
        by_contra hlt
        refine hguard ⟨rfl, ?_⟩
        rw [hh]
        exact decide_eq_true (Nat.lt_of_not_le hlt)
      have hpoll := ChangeFeed.poll_step read hin.after
        ((hin.ascending hw.hub).sublist (sublist_append_right _ _))
      refine ⟨⟨hw.log, { hw.hub with }, hw.assigned, hw.writing, hw.released, hw.parked,
        hw.behind, hw.known, hw.captured, ?_, ?_, ?_⟩, rfl, rfl⟩
      · have hmap : (w.feeds.set i { run with
            feed := (run.feed.poll read sub).2.1
            delivered := run.delivered ++ ChangeFeed.handed (run.feed.poll read sub).1 }).map
              (fun r => r.feed.sub) = w.feeds.map (fun r => r.feed.sub) := by
          refine ext_getElem? fun j => ?_
          rw [getElem?_map, getElem?_map]
          by_cases hij : i = j
          · subst hij
            rw [getElem?_set_self hlt, hrun]
            exact congrArg some hpoll.same
          · rw [getElem?_set_ne hij]
        rw [hmap]
        exact hw.subs
      · intro r hr
        obtain ⟨j, hj⟩ := mem_iff_getElem?.mp hr
        by_cases hij : i = j
        · subst hij
          rw [getElem?_set_self hlt] at hj
          obtain rfl := Option.some.inj hj
          refine ⟨(run.feed.poll read sub).2.2, ?_, hin.polled hw.hub hpoll hw.released hread
            rfl rfl rfl rfl⟩
          have hlen := (List.getElem?_eq_some_iff.mp hsub).1
          change (w.hub.subs.set run.feed.sub _)[(run.feed.poll read sub).2.1.sub]? = _
          rw [hpoll.same, getElem?_set_self hlen]
        · rw [getElem?_set_ne hij] at hj
          obtain ⟨s, hs, hother⟩ := hw.feeds r (mem_of_getElem? hj)
          refine ⟨s, ?_, hother.congr rfl le_rfl rfl (Subset.refl _)⟩
          -- Two feeds share nothing.
          have hne : run.feed.sub ≠ r.feed.sub := by
            intro heq
            have hi : i < (w.feeds.map (fun r => r.feed.sub)).length := by rwa [length_map]
            refine hij ((getElem?_inj hi hw.subs).mp ?_)
            rw [getElem?_map, getElem?_map, hrun, hj]
            exact congrArg some heq
          exact (getElem?_set_ne hne).trans hs
      · intro hi
        rw [hw.nofeeds hi]
        rfl

variable [DecidableEq C]

/-- A feed opens. -/
theorem Inv.subscribe {w' : World C} {fromLsn : Option ℕ} {bufferSize : ℕ}
    {history : Option (List (ChangeBatch C))} (hw : w.Inv reset) (hactive : w.hub.active = true)
    (hsafe : ∀ past ∈ history, ∀ tx ∈ w.log, tx.batch ∈ past → tx.committed = true)
    (hstep : w.subscribe fromLsn bufferSize history = some w') :
    w'.Inv reset ∧ w'.hub.parked = w.hub.parked ∧ w'.hub.durable = w.hub.durable := by
  unfold World.subscribe HubState.subscribe at hstep
  by_cases hclosed : w.hub.closed
  · simp only [hclosed, if_true] at hstep
    obtain rfl := Option.some.inj hstep
    exact ⟨hw, rfl, rfl⟩
  simp only [hclosed, Bool.false_eq_true, if_false] at hstep
  match fromLsn with
  | none =>
    obtain rfl := Option.some.inj hstep
    have hnone : w.hub.handedOut.filter (fun b => w.hub.lastLsn < b.lsn) = [] := by
      refine filter_eq_nil_iff.mpr fun b hb => ?_
      have hle := hw.hub.out_le b hb
      simpa using hle
    refine ⟨hw.join hactive rfl ?_ ?_ (nil_subset _) Pairwise.nil ?_ le_rfl ?_, rfl, rfl⟩
    · exact hnone.symm
    · exact fun _ _ h => absurd h (by simp)
    · exact fun b hb => absurd hb not_mem_nil
    · exact fun _ h => absurd h (by simp)
  | some after =>
    by_cases hnew : w.hub.lastLsn < after
    · simp only [hnew, if_true] at hstep
      obtain rfl := Option.some.inj hstep
      exact ⟨hw, rfl, rfl⟩
    have hle : after ≤ w.hub.lastLsn := Nat.le_of_not_lt hnew
    have hbacklog := ring_filter hw.hub after
    have hlive : (w.hub.ring.map Prod.fst).filter (fun b => after < b.lsn) ⊆
        w.hub.handedOut := by
      rw [hbacklog]
      exact filter_sublist.subset
    by_cases hfloor : w.hub.ringFloor ≤ after
    · simp only [hnew, hfloor, if_true, if_false] at hstep
      obtain rfl := Option.some.inj hstep
      rw [max_eq_right hfloor] at hbacklog
      refine ⟨hw.join hactive rfl ?_ ?_ hlive Pairwise.nil ?_ hle ?_, rfl, rfl⟩
      · exact hbacklog
      · exact fun _ _ h => absurd h (by simp)
      · exact fun b hb => absurd hb not_mem_nil
      · intro last hl
        obtain rfl := Option.some.inj hl
        exact ⟨hle, fun b hb => of_decide_eq_true (mem_filter.mp hb).2⟩
    · simp only [hnew, hfloor, if_false] at hstep
      match history with
      | none =>
        obtain rfl := Option.some.inj hstep
        exact ⟨(hw.register bufferSize).closeSub _, rfl, rfl⟩
      | some past =>
        simp only at hstep
        split at hstep
        next hsub =>
          obtain rfl := Option.some.inj hstep
          have hfloor' : after ≤ w.hub.ringFloor := (Nat.lt_of_not_le hfloor).le
          rw [max_eq_left hfloor'] at hbacklog
          have hread : ∀ b ∈ past, (Committed w.log b ∧ b.lsn ≤ w.hub.ringFloor) ∧
              after < b.lsn := by
            intro b hb
            have hb' := mem_filter.mp (hsub.subset hb)
            simp only [Bool.and_eq_true, decide_eq_true_eq] at hb'
            obtain ⟨hlogged, ⟨hlo, hhi⟩, -⟩ := hb'
            obtain ⟨tx, htx, rfl⟩ := mem_map.mp hlogged
            have hok := hsafe past rfl tx htx hb
            refine ⟨⟨?_, hhi⟩, hlo⟩
            obtain ⟨batch, committed⟩ := tx
            obtain rfl : committed = true := hok
            exact htx
          refine ⟨hw.join hactive rfl ?_ ?_ hlive ?_ (fun b hb => (hread b hb).1)
            hw.hub.floor_le ?_, rfl, rfl⟩
          · exact congrArg (past ++ ·) hbacklog
          · intro hs upto hh
            obtain ⟨rfl, rfl⟩ := Prod.mk.inj (Option.some.inj hh)
            exact ⟨Subset.refl _, rfl⟩
          · have hasc : HubState.Ascending (w.log.map (fun tx => tx.batch)) :=
              pairwise_map.mpr hw.log.ascending
            exact (hasc.sublist filter_sublist).sublist hsub
          · intro last hl
            obtain rfl := Option.some.inj hl
            refine ⟨hle, fun b hb => ?_⟩
            rcases mem_append.mp hb with hb | hb
            · exact (hread b hb).2
            · have hb' := of_decide_eq_true (mem_filter.mp hb).2
              exact Nat.lt_of_le_of_lt hfloor' hb'
        next => exact absurd hstep (by simp)

omit [DecidableEq C] in
theorem prompt_of_eq {h h' : HubState C} (hh : h.Prompt) (hparked : h'.parked = h.parked)
    (hdurable : h'.durable = h.durable) : h'.Prompt := by
  unfold HubState.Prompt
  rw [hparked, hdurable]
  exact hh

omit [DecidableEq C] in
theorem activate_fields (h : HubState C) (durable : ℕ) (head : Option ℕ) :
    ((h.deferUntilDurable durable).activate head).parked = h.parked ∧
      ((h.deferUntilDurable durable).activate head).durable = max h.durable durable := by
  unfold HubState.activate
  split
  · exact ⟨rfl, rfl⟩
  · exact ⟨rfl, rfl⟩

omit [DecidableEq C] in
/-- LSNs are taken by what no feed hears of. -/
theorem Inv.skip (hw : w.Inv reset) (used : ℕ) :
    World.Inv reset { w with next := w.next + used } := by
  have hassigned := hw.assigned
  have hdurable := hw.log.durable_lt
  refine { hw with
    log := { hw.log with
      lt_next := fun tx htx => ?_
      durable_lt := by dsimp only; omega }
    assigned := by dsimp only; omega }
  have hlt := hw.log.lt_next tx htx
  dsimp only
  omega

omit [DecidableEq C] in
/-- The log becomes durable further, and is to report it. -/
theorem Inv.fsync {lsn : ℕ} (hw : w.Inv reset) (hnew : w.durable ≤ lsn) (hin : lsn < w.next) :
    World.Inv reset { w with durable := lsn, notices := w.notices ++ [lsn] } := by
  refine { hw with
    log := { hw.log with durable_lt := hin, noticed := fun n hn => ?_ }
    released := fun b hb => (hw.released b hb).mono hnew
    parked := fun q hq => (hw.parked q hq).mono hnew
    behind := hw.behind.trans hnew
    known := fun _ => Or.inr (mem_append_right _ mem_cons_self)
    feeds := fun r hr => ?_ }
  · rcases mem_append.mp hn with hn | hn
    · exact (hw.log.noticed n hn).trans hnew
    · exact (mem_singleton.mp hn).le
  · obtain ⟨s, hs, hstep⟩ := hw.feeds r hr
    exact ⟨s, hs, { hstep with delivered := fun b hb => (hstep.delivered b hb).mono hnew }⟩

omit [DecidableEq C] in
/-- A replaced graph is announced above every transaction of the log. -/
theorem Inv.publishReset {bytes : C → ℕ} (hw : w.Inv reset) (hprompt : w.hub.Prompt)
    (hactive : w.hub.active = true) (hnone : w.writing = none) (hend : w.next ≤ w.durable + 1) :
    World.Inv reset { w with hub := w.hub.publishReset bytes reset (some w.next) } ∧
      (w.hub.publishReset bytes reset (some w.next)).Prompt := by
  unfold HubState.publishReset
  dsimp only
  split
  next hle =>
    have hannounced : Announced reset w.log (w.next - 1)
        { lsn := max w.next (w.hub.lastAssigned + 1), changes := [reset] } := by
      refine ⟨rfl, fun tx htx => ?_⟩
      have hlt := hw.log.lt_next tx htx
      dsimp only
      omega
    have hnew : w.hub.lastAssigned < max w.next (w.hub.lastAssigned + 1) := by omega
    have hneeds : w.next - 1 ≤ w.durable := by omega
    have hpublish := @Inv.publishWhenDurable C reset w bytes _ _ (fun _ => w.next - 1) hw hprompt
      hactive hnew hle (fun size => Or.inr ⟨hannounced, hneeds⟩)
      (fun b hb => absurd hb (by simp [hnone]))
    rw [← hnone] at hpublish
    exact hpublish
  · exact ⟨hw, hprompt⟩

omit [DecidableEq C] in
/-- The hub hears of an advance. -/
theorem Inv.notify {lsn i : ℕ} (hw : w.Inv reset) (hprompt : w.hub.Prompt)
    (hi : w.notices[i]? = some lsn) :
    World.Inv reset { w with
        hub := if w.hub.deferred then w.hub.onDurable lsn else w.hub
        notices := w.notices.eraseIdx i } ∧
      (if w.hub.deferred then w.hub.onDurable lsn else w.hub).Prompt := by
  have hle : lsn ≤ w.durable := hw.log.noticed lsn (mem_of_getElem? hi)
  have hnoticed : ∀ n ∈ w.notices.eraseIdx i, n ≤ w.durable :=
    fun n hn => hw.log.noticed n (mem_of_mem_eraseIdx hn)
  have hlog : LogOk w.log w.next w.durable (w.notices.eraseIdx i) := { hw.log with
    noticed := hnoticed }
  cases hdef : w.hub.deferred with
  | false =>
    refine ⟨{ hw with log := hlog, known := fun h => ?_ }, hprompt⟩
    exact absurd (hdef.symm.trans h) (by decide)
  | true =>
    -- The newest advance is known to the hub now, or is still to be reported.
    have hknown : ∀ n, max w.hub.durable lsn ≤ n →
        w.durable ≤ n ∨ w.durable ∈ w.notices.eraseIdx i := by
      intro n hn
      rcases hw.known hdef with h | h
      · exact Or.inl (h.trans ((le_max_left _ _).trans hn))
      · by_cases heq : lsn = w.durable
        · exact Or.inl (heq ▸ (le_max_right _ _).trans hn)
        · right
          obtain ⟨j, hj⟩ := mem_iff_getElem?.mp h
          refine mem_eraseIdx_iff_getElem?.mpr ⟨j, ?_, hj⟩
          rintro rfl
          exact heq (Option.some.inj (hi.symm.trans hj))
    rw [if_pos rfl]
    unfold HubState.onDurable
    split
    next hold =>
      exact ⟨{ hw with log := hlog, known := fun _ => hknown _ (max_le le_rfl hold) }, hprompt⟩
    next hnew =>
      -- With its durable LSN raised the hub hands out the covered front.
      have hraised : World.Inv reset
          { w with
            hub := { w.hub with durable := lsn }
            notices := w.notices.eraseIdx i } := by
        refine { hw with
          log := hlog
          hub := { hw.hub with }
          behind := hle
          known := fun _ => hknown _ (max_le (Nat.le_of_not_le hnew) le_rfl)
          feeds := fun r hr => ?_ }
        obtain ⟨s, hs, hstep⟩ := hw.feeds r hr
        exact ⟨s, hs, hstep.congr rfl le_rfl rfl (Subset.refl _)⟩
      obtain ⟨hinv, hfront, hdur, -⟩ := hraised.releaseCovered _ rfl hle
      refine ⟨hinv, fun q hq => ?_⟩
      rw [hdur]
      exact hfront q hq

end Step

/-- What keeps a run in order. A second first opener finds no parked batch that the log
already covers; a replaced graph is announced with the log durable up to its end; and a feed
reads back no commit that failed. -/
def Safe (w : World C) : Action C → Prop
  | .activate => ∀ p ∈ w.hub.parked.head?, w.durable < p.needs
  | .restore => w.hub.active → w.next ≤ w.durable + 1
  | .subscribe _ _ history =>
    ∀ past ∈ history, ∀ tx ∈ w.log, tx.batch ∈ past → tx.committed = true
  | _ => True

section Run

variable [DecidableEq C] {bytes : C → ℕ} {reset : C} {w w' : World C}

/-- The step lemma. -/
theorem step_inv {a : Action C} (hw : w.Inv reset) (hprompt : w.hub.Prompt)
    (hsafe : w.Safe a) (hstep : w.step bytes reset a = some w') :
    w'.Inv reset ∧ w'.hub.Prompt := by
  cases a with
  | commit batches changes =>
    obtain ⟨hfree, hstep⟩ := Option.ite_none_left_eq_some.mp hstep
    obtain rfl := Option.some.inj hstep
    have hnone : w.writing = none := by simpa using (not_or.mp hfree).1
    refine ⟨hw.grow rfl rfl rfl rfl rfl rfl rfl (by dsimp only; omega) hnone ?_ ?_, hprompt⟩
    · intro b hb
      cases hactive : w.hub.active <;> simp_all
    · intro hactive _
      simp [hactive]
  | publish =>
    obtain ⟨b, hb, rfl⟩ := Option.map_eq_some_iff.mp hstep
    obtain ⟨hactive, hc, hnew⟩ := hw.writing b hb
    have hlt := hw.log.lt_next _ hc
    refine hw.publishWhenDurable hprompt hactive hnew (Nat.le_succ_of_le hlt.le)
      (fun size => Or.inl ⟨hc, rfl⟩) fun b' hb' => ?_
    exact Option.some.inj (hb'.symm.trans hb)
  | commitFails used =>
    obtain ⟨-, hstep⟩ := Option.ite_none_left_eq_some.mp hstep
    obtain rfl := Option.some.inj hstep
    exact ⟨hw.skip used, hprompt⟩
  | commitLands batches changes =>
    obtain ⟨hfree, hstep⟩ := Option.ite_none_left_eq_some.mp hstep
    obtain rfl := Option.some.inj hstep
    have hnone : w.writing = none := by simpa using (not_or.mp hfree).1
    refine ⟨hw.grow rfl rfl rfl rfl rfl rfl rfl (by dsimp only; omega) hnone ?_ ?_, hprompt⟩
    · intro b hb
      exact absurd hb (by simp [hnone])
    · exact fun _ h => absurd h (by simp)
  | checkpointMarker =>
    obtain ⟨-, hstep⟩ := Option.ite_none_left_eq_some.mp hstep
    obtain rfl := Option.some.inj hstep
    exact ⟨hw.skip 1, hprompt⟩
  | fsync lsn =>
    obtain ⟨hadvance, hstep⟩ := Option.ite_none_left_eq_some.mp hstep
    obtain rfl := Option.some.inj hstep
    obtain ⟨-, hadvance⟩ := not_or.mp hadvance
    obtain ⟨hnew, hin⟩ := not_or.mp hadvance
    exact ⟨hw.fsync (by omega) (by omega), hprompt⟩
  | syncFails =>
    obtain rfl := Option.some.inj hstep
    exact ⟨{ hw with }, hprompt⟩
  | notify i =>
    obtain ⟨lsn, hi, rfl⟩ := Option.map_eq_some_iff.mp hstep
    exact hw.notify hprompt hi
  | restore =>
    obtain ⟨hfree, hstep⟩ := Option.ite_none_left_eq_some.mp hstep
    have hnone : w.writing = none := by simpa using (not_or.mp hfree).1
    split at hstep
    next hactive =>
      obtain rfl := Option.some.inj hstep
      exact hw.publishReset hprompt hactive hnone (hsafe hactive)
    · obtain rfl := Option.some.inj hstep
      exact ⟨hw, hprompt⟩
  | peek =>
    obtain ⟨-, hstep⟩ := Option.ite_none_left_eq_some.mp hstep
    obtain rfl := Option.some.inj hstep
    exact ⟨{ hw with }, hprompt⟩
  | activate =>
    obtain ⟨hfree, hstep⟩ := Option.ite_none_left_eq_some.mp hstep
    obtain rfl := Option.some.inj hstep
    have hnone : w.writing = none := by simpa using (not_or.mp hfree).1
    refine ⟨hw.activate hnone _, fun q hq => ?_⟩
    obtain ⟨hparked, hdurable⟩ := activate_fields w.hub w.durable (some (w.next - 1))
    rw [hparked] at hq
    rw [hdurable]
    exact max_lt (hprompt q hq) (hsafe q hq)
  | subscribe fromLsn bufferSize history =>
    simp only [step] at hstep
    split at hstep
    next hactive =>
      obtain ⟨hinv, hparked, hdurable⟩ := hw.subscribe hactive hsafe hstep
      exact ⟨hinv, prompt_of_eq hprompt hparked hdurable⟩
    · exact absurd hstep (by simp)
  | poll i read =>
    obtain ⟨hinv, hparked, hdurable⟩ := hw.poll hstep
    exact ⟨hinv, prompt_of_eq hprompt hparked hdurable⟩
  | closeFeed i =>
    obtain ⟨run, -, rfl⟩ := Option.map_eq_some_iff.mp hstep
    exact ⟨hw.closeSub _, hprompt⟩
  | setRetention batches =>
    obtain rfl := Option.some.inj hstep
    exact ⟨hw.trim batches w.hub.retentionBytes, hprompt⟩
  | setRetentionBytes n =>
    obtain rfl := Option.some.inj hstep
    exact ⟨hw.trim w.hub.retention n, hprompt⟩
  | shutdown =>
    obtain rfl := Option.some.inj hstep
    exact ⟨hw.close, fun q hq => absurd hq (by simp [HubState.close])⟩

end Run

/-- The states a database gets to from `w₀` by steps that keep it in order. -/
inductive SafeRun [DecidableEq C] (bytes : C → ℕ) (reset : C) (w₀ : World C) : World C → Prop
  | start : SafeRun bytes reset w₀ w₀
  | next {w w' : World C} {a : Action C} : SafeRun bytes reset w₀ w → w.Safe a →
      w.step bytes reset a = some w' → SafeRun bytes reset w₀ w'

theorem opened_inv (reset : C) {log : List (LoggedTx C)} {next : ℕ} (hpos : 0 < next)
    (hasc : log.Pairwise (fun a b => a.batch.lsn < b.batch.lsn))
    (hlt : ∀ tx ∈ log, tx.batch.lsn < next) :
    (World.opened log next).Inv reset ∧ (World.opened log next).hub.Prompt := by
  have hdurable : next - 1 < next := by omega
  refine ⟨⟨⟨hasc, hlt, hdurable, fun n hn => absurd hn not_mem_nil⟩, ?_, Nat.zero_le _, ?_, ?_,
    ?_, Nat.zero_le _, ?_, ?_, nodup_nil, ?_, fun _ => rfl⟩, ?_⟩
  · refine ⟨Pairwise.nil, ?_, le_rfl, ?_, ?_, rfl, le_rfl, fun _ => rfl, fun _ => rfl, ?_⟩
    · exact fun b hb => absurd hb not_mem_nil
    · exact fun b hb => absurd hb not_mem_nil
    · exact fun b hb => absurd hb not_mem_nil
    · exact fun h => absurd h (by simp [World.opened, HubState.default])
  · exact fun b hb => absurd hb (by simp [World.opened])
  · exact fun b hb => absurd hb not_mem_nil
  · exact fun b hb => absurd hb not_mem_nil
  · exact fun h => absurd h (by simp [World.opened, HubState.default])
  · exact fun h => absurd h (by simp [World.opened, HubState.default])
  · exact fun r hr => absurd hr not_mem_nil
  · exact fun q hq => absurd hq (by simp [World.opened, HubState.default])

/-- The run lemma. -/
theorem run_inv [DecidableEq C] {bytes : C → ℕ} {reset : C} {w₀ w : World C}
    (h₀ : w₀.Inv reset ∧ w₀.hub.Prompt) (h : SafeRun bytes reset w₀ w) :
    w.Inv reset ∧ w.hub.Prompt := by
  induction h with
  | start => exact h₀
  | next _ hsafe hstep ih => exact step_inv ih.1 ih.2 hsafe hstep

/-- Once every advance was reported and the log is durable up to the last commit, nothing
is parked. -/
theorem Inv.settled {reset : C} {w : World C} (hw : w.Inv reset) (hprompt : w.hub.Prompt)
    (hreported : w.notices = []) (hcovered : ∀ b, Committed w.log b → b.lsn ≤ w.durable) :
    w.hub.parked = [] := by
  cases hp : w.hub.parked with
  | nil => rfl
  | cons p ps =>
    have hactive : w.hub.active = true := by
      cases ha : w.hub.active with
      | true => rfl
      | false =>
        have hnone := hw.hub.inactive ha
        simp [HubState.batches, hp] at hnone
    have hknown : w.durable ≤ w.hub.durable := by
      rcases hw.known (hw.hub.deferred hactive) with h | h
      · exact h
      · exact absurd h (by simp [hreported])
    have hfront : w.hub.durable < p.needs := hprompt p (by rw [hp]; rfl)
    have hneeds : p.needs ≤ w.durable := by
      rcases hw.parked p (hp ▸ mem_cons_self) with ⟨hc, hn⟩ | ⟨-, hn⟩
      · exact hn ▸ hcovered p.batch hc
      · exact hn
    omega

end World

/-- **Feeds miss nothing.** In every run that keeps the database in order, every feed has received
batches in ascending LSN order, each of a successful commit that is durable or announcing a
replaced graph; an open feed has all of its past and of what was handed out since, or is yet to
get it; and once the log is durable up to the last commit, and has reported it, nothing is parked,
so every captured commit was handed out. -/
theorem changeFeed_run [DecidableEq C] {bytes : C → ℕ} {reset : C} {log : List (LoggedTx C)}
    {next : ℕ} {w : World C} (hpos : 0 < next)
    (hasc : log.Pairwise (fun a b => a.batch.lsn < b.batch.lsn))
    (hlt : ∀ tx ∈ log, tx.batch.lsn < next)
    (h : World.SafeRun bytes reset (World.opened log next) w) :
    (∀ r ∈ w.feeds, HubState.Ascending r.delivered ∧
      (∀ b ∈ r.delivered, Released reset w.log w.durable b) ∧
      ∀ s, w.hub.subs[r.feed.sub]? = some s → s.status = .open → r.feed.errored = false →
        r.delivered ++ r.feed.pending s =
          r.past ++ w.hub.handedOut.filter (fun b => r.since < b.lsn)) ∧
    (w.notices = [] → (∀ b, Committed w.log b → b.lsn ≤ w.durable) → w.hub.parked = [] ∧
        (w.hub.active → w.hub.closed = false → w.writing = none → ∀ b, Committed w.log b →
          b.changes ≠ [] → w.capturedFrom < b.lsn → b ∈ w.hub.handedOut)) := by
  obtain ⟨hw, hprompt⟩ := World.run_inv (World.opened_inv reset hpos hasc hlt) h
  constructor
  · intro r hr
    obtain ⟨s, hs, hstep⟩ := hw.feeds r hr
    refine ⟨(hstep.ascending hw.hub).sublist (sublist_append_left _ _), hstep.delivered, ?_⟩
    intro s' hs' hopen herr
    obtain rfl := Option.some.inj (hs.symm.trans hs')
    exact hstep.kept hopen herr
  · intro hreported hcovered
    have hparked := hw.settled hprompt hreported hcovered
    refine ⟨hparked, fun hactive hclosed hnone b hb hne hfrom => ?_⟩
    rcases hw.captured hactive hclosed b hb hne hfrom with h | h
    · rwa [HubState.batches, hparked, map_nil, append_nil] at h
    · exact absurd h (by simp [hnone])

/-- Two openers find the hub inactive. The second gets the writer lock between the `fsync`
that makes a parked commit durable and the report of it: the hub takes the durable LSN over
and the report finds nothing new, so the batch stays parked and the feed has nothing to
deliver. -/
def secondOpener : List (Action ℕ) :=
  [.peek, .peek, .activate, .subscribe none 1 none, .commit 0 [7], .publish, .fsync 3,
    .activate, .notify 0, .poll 0 (.ok ())]

theorem changeFeed_second_opener : ((World.opened [] 1).run (fun _ => 0) 0 secondOpener).map
        (fun w => (w.notices, w.durable, w.log.map (fun tx => (tx.batch.lsn, tx.committed)),
          w.hub.parked.map (fun p => p.batch.lsn), w.feeds.map (fun r => r.delivered))) =
      some ([], 3, [(3, true)], [3], [[]]) :=
  rfl

/-- One opener, one commit: its batch is parked, handed out when the log reports it durable,
and delivered. -/
theorem changeFeed_run_one :
    ∃ w, World.SafeRun (fun _ => 0) 0 (World.opened ([] : List (LoggedTx ℕ)) 1) w ∧
      w.feeds.map (fun r => r.delivered) = [[{ lsn := 3, changes := [7] }]] ∧
      ((∀ r ∈ w.feeds, HubState.Ascending r.delivered ∧
        (∀ b ∈ r.delivered, Released 0 w.log w.durable b) ∧
        ∀ s, w.hub.subs[r.feed.sub]? = some s → s.status = .open → r.feed.errored = false →
          r.delivered ++ r.feed.pending s =
            r.past ++ w.hub.handedOut.filter (fun b => r.since < b.lsn)) ∧
      (w.notices = [] → (∀ b, Committed w.log b → b.lsn ≤ w.durable) → w.hub.parked = [] ∧
          (w.hub.active → w.hub.closed = false → w.writing = none → ∀ b, Committed w.log b →
            b.changes ≠ [] → w.capturedFrom < b.lsn → b ∈ w.hub.handedOut))) := by
  have h0 : World.SafeRun (fun _ => 0) 0 (World.opened ([] : List (LoggedTx ℕ)) 1) _ := .start
  have h1 := h0.next (a := .peek) trivial rfl
  have h2 := h1.next (a := .activate)
    (fun p hp => absurd hp (by simp [World.opened, HubState.default])) rfl
  have h3 := h2.next (a := .subscribe none 1 none) (fun p hp => absurd hp (by simp)) rfl
  have h4 := h3.next (a := .commit 0 [7]) trivial rfl
  have h5 := h4.next (a := .publish) trivial rfl
  have h6 := h5.next (a := .fsync 3) trivial rfl
  have h7 := h6.next (a := .notify 0) trivial rfl
  have h8 := h7.next (a := .poll 0 (.ok ())) trivial rfl
  exact ⟨_, h8, rfl, changeFeed_run (by decide) Pairwise.nil
    (fun tx htx => absurd htx not_mem_nil) h8⟩

end LoraDb
