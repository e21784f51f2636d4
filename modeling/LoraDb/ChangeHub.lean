import Mathlib

/-!
# The Change Hub

Every committed write is published as a batch of changes into one hub, which hands it to
every open feed and keeps it in a ring for feeds that resume. On a database with a log the
hub is *deferred*: a batch waits, parked, until the log is durable up to what the batch
needs. A commit's batch needs its own LSN; a reset (a graph replaced outside the log) needs
the commits before it.

The changes themselves are of any type `C`, with the bytes one holds (`bytes`) and the one
that stands for a replaced graph (`reset`).

## Main results

* `publishWhenDurable_eq`: a publication is parked, and handed out again at once where
  nothing is parked before it and the log is durable far enough.
* `trim_eq`: the ring holds the batches past its floor, and only the floor moves.
* `ChangeFeed.poll_eq`: a poll that hands out a batch hands out the first one pending.
-/

open List

namespace LoraDb

variable {C : Type}

/-- Every change one committed write made. The LSN is the **resume token**. -/
structure ChangeBatch (C : Type) where
  lsn : ℕ
  changes : List C
  deriving DecidableEq

inductive SubStatus
  | open
  | lagged
  | closed
  deriving DecidableEq

/-- What a feed and the hub share. -/
structure SubState (C : Type) where
  queue : List (ChangeBatch C)
  capacity : ℕ
  status : SubStatus

/-- A full queue makes an open feed lag; it takes no more. -/
def SubState.push (batch : ChangeBatch C) (s : SubState C) : SubState C :=
  if s.status ≠ .open then s
  else if s.capacity ≤ s.queue.length then { s with status := .lagged }
  else { s with queue := s.queue ++ [batch] }

def SubState.close (s : SubState C) : SubState C :=
  if s.status = .closed then s else { s with status := .closed, queue := [] }

/-- A built batch waiting for its commit to become durable. -/
structure Parked (C : Type) where
  needs : ℕ
  batch : ChangeBatch C
  bytes : ℕ

/-- The hub. `ring` pairs each recent batch with its bytes; `subs` holds what every feed
ever opened shares with the hub, `subscribers` the numbers of those still registered.
`handedOut` records every batch ever released, in order; no function reads it. -/
structure HubState (C : Type) where
  active : Bool
  lastLsn : ℕ
  lastAssigned : ℕ
  deferred : Bool
  durable : ℕ
  parked : List (Parked C)
  ring : List (ChangeBatch C × ℕ)
  ringFloor : ℕ
  retention : ℕ
  retentionBytes : ℕ
  subscribers : List ℕ
  subs : List (SubState C)
  closed : Bool
  handedOut : List (ChangeBatch C)

def defaultRetention : ℕ := 1024

def defaultRetentionBytes : ℕ := 64 * 1024 * 1024

/-- A hub nobody has opened a feed on. -/
def HubState.default : HubState C where
  active := false
  lastLsn := 0
  lastAssigned := 0
  deferred := false
  durable := 0
  parked := []
  ring := []
  ringFloor := 0
  retention := defaultRetention
  retentionBytes := defaultRetentionBytes
  subscribers := []
  subs := []
  closed := false
  handedOut := []

namespace HubState

/-- Drop the oldest batches past either limit, and move the floor to the last one
dropped. -/
def trim (retention retentionBytes : ℕ) :
    List (ChangeBatch C × ℕ) → ℕ → List (ChangeBatch C × ℕ) × ℕ
  | [], floor => ([], floor)
  | e :: ring, floor =>
    if retention < (e :: ring).length ∨ retentionBytes < ((e :: ring).map Prod.snd).sum then
      trim retention retentionBytes ring e.1.lsn
    else (e :: ring, floor)

def trimRing (h : HubState C) : HubState C :=
  { h with
    ring := (trim h.retention h.retentionBytes h.ring h.ringFloor).1
    ringFloor := (trim h.retention h.retentionBytes h.ring h.ringFloor).2 }

/-- What the feeds share after a batch was pushed to those registered. -/
def pushAll (h : HubState C) (batch : ChangeBatch C) : List (SubState C) :=
  h.subs.mapIdx (fun i s => if h.subscribers.contains i then s.push batch else s)

/-- Whether a feed is open. -/
def isOpen (subs : List (SubState C)) (i : ℕ) : Bool :=
  (subs[i]?.map (fun s => s.status == .open)).getD false

/-- Hand a batch to the ring and every open feed. -/
def release (h : HubState C) (batch : ChangeBatch C) (bytes : ℕ) : HubState C :=
  let h := trimRing { h with lastLsn := batch.lsn, ring := h.ring ++ [(batch, bytes)] }
  { h with
    handedOut := h.handedOut ++ [batch]
    subs := h.pushAll batch
    subscribers := h.subscribers.filter (isOpen (h.pushAll batch)) }

/-- Turn capture on, from the newest commit of the log on. -/
def activate (h : HubState C) (head : Option ℕ) : HubState C :=
  if h.active then h
  else
    let head := max (head.getD h.lastLsn) h.lastLsn
    { h with active := true, lastLsn := head, lastAssigned := head, ringFloor := head }

/-- Hold batches back until their commit is durable. -/
def deferUntilDurable (h : HubState C) (durable : ℕ) : HubState C :=
  { h with deferred := true, durable := max h.durable durable }

/-- Hand out the parked batches that are covered, from the front. -/
def releaseCovered (durable : ℕ) : List (Parked C) → HubState C → HubState C
  | [], h => { h with parked := [] }
  | p :: ps, h =>
    if p.needs ≤ durable then releaseCovered durable ps (h.release p.batch p.bytes)
    else { h with parked := p :: ps }

/-- The log made every LSN up to `durable` durable. -/
def onDurable (h : HubState C) (durable : ℕ) : HubState C :=
  if durable ≤ h.durable then h
  else releaseCovered durable h.parked { h with durable := durable }

def setRetention (h : HubState C) (batches : ℕ) : HubState C :=
  trimRing { h with retention := batches }

def setRetentionBytes (h : HubState C) (bytes : ℕ) : HubState C :=
  trimRing { h with retentionBytes := bytes }

/-- Publish one committed write, parked until the durable LSN reaches `needs` of its
LSN. -/
def publishWhenDurable (bytes : C → ℕ) (h : HubState C) (lsn : Option ℕ) (changes : List C)
    (needs : ℕ → ℕ) : HubState C :=
  if changes = [] then h
  else if h.closed then h
  else
    let lsn := max (lsn.getD (h.lastAssigned + 1)) (h.lastAssigned + 1)
    let size := (changes.map bytes).sum
    let batch : ChangeBatch C := { lsn := lsn, changes := changes }
    let h := { h with lastAssigned := lsn }
    if h.deferred = false ∨ h.parked = [] ∧ needs lsn ≤ h.durable then h.release batch size
    else
      { h with parked := h.parked ++ [{ needs := needs lsn, batch := batch, bytes := size }] }

def publish (bytes : C → ℕ) (h : HubState C) (lsn : Option ℕ) (changes : List C) : HubState C :=
  h.publishWhenDurable bytes lsn changes (fun lsn => lsn)

/-- Publish a graph replaced outside the log, whose next LSN is `walNextLsn`. The next
commit record takes that plus two; a third reset before it is folded into the second. -/
def publishReset (bytes : C → ℕ) (reset : C) (h : HubState C) (walNextLsn : Option ℕ) :
    HubState C :=
  match walNextLsn with
  | none => h.publish bytes none [reset]
  | some next =>
    let lsn := max next (h.lastAssigned + 1)
    if lsn ≤ next + 1 then
      h.publishWhenDurable bytes (some lsn) [reset] (fun _ => next - 1)
    else h

/-- End every feed. -/
def close (h : HubState C) : HubState C :=
  { h with
    closed := true
    parked := []
    subs := h.subs.mapIdx (fun i s => if h.subscribers.contains i then s.close else s)
    subscribers := [] }

/-! ### What the functions change -/

section Spec

variable (h : HubState C) (b : ChangeBatch C) (n : ℕ)

/-- Batch LSNs **ascend**. -/
def Ascending (bs : List (ChangeBatch C)) : Prop :=
  bs.Pairwise (fun a b => a.lsn < b.lsn)

/-- Trimming moves the floor with what it drops: the ring still holds every batch of `out`
past its floor. -/
theorem trim_eq (retention retentionBytes : ℕ) {out : List (ChangeBatch C)}
    (hout : Ascending out) (ring : List (ChangeBatch C × ℕ)) (floor : ℕ)
    (h : out.filter (fun b => floor < b.lsn) = ring.map Prod.fst) :
    out.filter (fun b => (trim retention retentionBytes ring floor).2 < b.lsn) =
        (trim retention retentionBytes ring floor).1.map Prod.fst ∧
      floor ≤ (trim retention retentionBytes ring floor).2 := by
  induction ring generalizing floor with
  | nil => exact ⟨h, Nat.le_refl _⟩
  | cons e ring ih =>
    unfold trim
    split
    · have hasc : Ascending (e.1 :: ring.map Prod.fst) := by
        have hsub : (out.filter (fun b => floor < b.lsn)) <+ out := filter_sublist
        rw [h] at hsub
        exact hout.sublist hsub
      have he : floor < e.1.lsn := by
        have hmem : e.1 ∈ out.filter (fun b => floor < b.lsn) := by
          rw [h]
          exact mem_cons_self
        exact of_decide_eq_true (mem_filter.mp hmem).2
      have hnext : out.filter (fun b => e.1.lsn < b.lsn) = ring.map Prod.fst := by
        calc out.filter (fun b => e.1.lsn < b.lsn)
            = (out.filter (fun b => floor < b.lsn)).filter (fun b => e.1.lsn < b.lsn) := by
              rw [filter_filter]
              refine filter_congr fun b _ => ?_
              by_cases hb : e.1.lsn < b.lsn
              · simp [hb, Nat.lt_trans he hb]
              · simp [hb]
          _ = (e.1 :: ring.map Prod.fst).filter (fun b => e.1.lsn < b.lsn) := by rw [h]; rfl
          _ = ring.map Prod.fst := by
              rw [filter_cons_of_neg (by simp)]
              exact filter_eq_self.mpr fun b hb =>
                decide_eq_true ((pairwise_cons.mp hasc).1 b hb)
      obtain ⟨hring, hfloor⟩ := ih e.1.lsn hnext
      exact ⟨hring, Nat.le_trans (Nat.le_of_lt he) hfloor⟩
    · exact ⟨h, Nat.le_refl _⟩

theorem trim_floor (retention retentionBytes : ℕ) (ring : List (ChangeBatch C × ℕ))
    (floor : ℕ) : (trim retention retentionBytes ring floor).2 = floor ∨
      ∃ e ∈ ring, (trim retention retentionBytes ring floor).2 = e.1.lsn := by
  induction ring generalizing floor with
  | nil => exact Or.inl rfl
  | cons e ring ih =>
    unfold trim
    split
    · rcases ih e.1.lsn with h | ⟨e', he', h⟩
      · exact Or.inr ⟨e, mem_cons_self, h⟩
      · exact Or.inr ⟨e', mem_cons_of_mem e he', h⟩
    · exact Or.inl rfl

@[simp] theorem release_active : (h.release b n).active = h.active := rfl
@[simp] theorem release_lastLsn : (h.release b n).lastLsn = b.lsn := rfl
@[simp] theorem release_lastAssigned : (h.release b n).lastAssigned = h.lastAssigned := rfl
@[simp] theorem release_deferred : (h.release b n).deferred = h.deferred := rfl
@[simp] theorem release_durable : (h.release b n).durable = h.durable := rfl
@[simp] theorem release_parked : (h.release b n).parked = h.parked := rfl
@[simp] theorem release_closed : (h.release b n).closed = h.closed := rfl
@[simp] theorem release_handedOut : (h.release b n).handedOut = h.handedOut ++ [b] := rfl
@[simp] theorem release_subs : (h.release b n).subs = h.pushAll b := rfl
@[simp] theorem release_subscribers :
    (h.release b n).subscribers = h.subscribers.filter (isOpen (h.pushAll b)) := rfl

/-- The batch takes its place behind the parked ones. -/
def park (p : Parked C) : HubState C :=
  { h with lastAssigned := p.batch.lsn, parked := h.parked ++ [p] }

/-- What a publication parks. -/
def toPark (bytes : C → ℕ) (lsn : Option ℕ) (changes : List C) (needs : ℕ → ℕ) : Parked C :=
  let lsn := max (lsn.getD (h.lastAssigned + 1)) (h.lastAssigned + 1)
  { needs := needs lsn
    batch := { lsn := lsn, changes := changes }
    bytes := (changes.map bytes).sum }

/-- The first parked batch is handed out. -/
def unpark : HubState C :=
  match h.parked with
  | [] => h
  | p :: ps => { h with parked := ps }.release p.batch p.bytes

/-- A publication is parked, and handed out at once where nothing is parked before it
and the log is durable far enough. -/
theorem publishWhenDurable_eq (bytes : C → ℕ) (hd : h.deferred = true) (lsn : Option ℕ)
    (changes : List C) (needs : ℕ → ℕ) :
    h.publishWhenDurable bytes lsn changes needs =
      if changes = [] ∨ h.closed then h
      else if h.parked = [] ∧ (h.toPark bytes lsn changes needs).needs ≤ h.durable then
        (h.park (h.toPark bytes lsn changes needs)).unpark
      else h.park (h.toPark bytes lsn changes needs) := by
  unfold publishWhenDurable
  by_cases hc : changes = []
  · simp [hc]
  by_cases hcl : h.closed
  · simp [hc, hcl]
  by_cases hp : h.parked = []
  · simp only [hc, hcl, hd, hp, if_false, Bool.true_eq_false, false_or, true_and, toPark, park,
      nil_append, unpark]
  · simp only [hc, hcl, hd, hp, if_false, Bool.true_eq_false, false_or, false_and, toPark, park]

theorem releaseCovered_parked (durable : ℕ) (ps qs : List (Parked C)) (h : HubState C) :
    releaseCovered durable ps { h with parked := qs } = releaseCovered durable ps h := by
  induction ps generalizing h with
  | nil => rfl
  | cons p ps ih =>
    unfold releaseCovered
    split
    · exact ih (h.release p.batch p.bytes)
    · rfl

/-- Handing out the covered front is handing out the first, again and again. -/
theorem releaseCovered_cons (durable : ℕ) (p : Parked C) (ps : List (Parked C))
    (hp : h.parked = p :: ps) :
    releaseCovered durable (p :: ps) h =
      if p.needs ≤ durable then releaseCovered durable ps h.unpark else h := by
  rw [releaseCovered]
  split
  · rw [unpark, hp]
    exact (releaseCovered_parked durable ps ps (h.release p.batch p.bytes)).symm
  · rw [← hp]

end Spec

end HubState

/-! ### Feeds -/

inductive LoraErrorCode
  | transactionFailure
  | changesTruncated
  | changesLagged
  | other

/-- An error. What fails while the log is read is of any other code. -/
structure LoraError where
  code : LoraErrorCode
  message : String

/-- A feed. `history` is what is left to read of the log, up to the LSN beside it, before
`backlog`, the retained batches, and then what the hub pushes. -/
structure ChangeFeed (C : Type) where
  sub : ℕ
  backlog : List (ChangeBatch C)
  history : Option (List (ChangeBatch C) × ℕ)
  lastLsn : Option ℕ
  errored : Bool

/-- How a new feed catches up. -/
inductive Resume (C : Type)
  | ready (feed : ChangeFeed C)
  | needsHistory (feed : ChangeFeed C) (after upto : ℕ)

/-- The hub with a new feed registered. -/
def HubState.register (h : HubState C) (bufferSize : ℕ) : HubState C :=
  { h with
    subs := h.subs ++ [{ queue := [], capacity := max bufferSize 1, status := .open }]
    subscribers := h.subscribers ++ [h.subs.length] }

/-- Open a feed. One that resumes gets the retained batches past its LSN, and needs
the log where those do not reach back far enough. -/
def HubState.subscribe (h : HubState C) (fromLsn : Option ℕ) (bufferSize : ℕ) :
    Except LoraError (HubState C × Resume C) :=
  if h.closed then
    .error { code := .transactionFailure, message := "database is closed" }
  else
    let feed : ChangeFeed C :=
      { sub := h.subs.length, backlog := [], history := none, lastLsn := fromLsn
        errored := false }
    match fromLsn with
    | none => .ok (h.register bufferSize, .ready feed)
    | some after =>
      if h.lastLsn < after then
        .error
          { code := .changesTruncated
            message := s!"change feed cannot resume from LSN {after} because the newest " ++
              s!"committed LSN is {h.lastLsn}; start a new feed without `fromLsn` and " ++
              "re-read current state" }
      else
        let feed := { feed with
          backlog := (h.ring.map Prod.fst).filter (fun b => after < b.lsn) }
        if h.ringFloor ≤ after then .ok (h.register bufferSize, .ready feed)
        else .ok (h.register bufferSize, .needsHistory feed after h.ringFloor)

/-- Result of polling a feed. -/
inductive ChangePoll (C : Type)
  | batch (b : ChangeBatch C)
  | pending
  | closed

namespace ChangeFeed

def deliver (feed : ChangeFeed C) (b : ChangeBatch C) : ChangePoll C × ChangeFeed C :=
  (.batch b, { feed with lastLsn := some b.lsn })

def laggedError (feed : ChangeFeed C) (sub : SubState C) : LoraError where
  code := .changesLagged
  message :=
    let hint :=
      match feed.lastLsn with
      | some lsn => s!"resume with `fromLsn` {lsn}"
      | none => "start a new feed and re-read current state"
    s!"change feed fell more than {sub.capacity} batches behind the writers; {hint}"

/-- The backlog from the first batch that was not delivered yet. -/
def fresh (feed : ChangeFeed C) : List (ChangeBatch C) :=
  feed.backlog.dropWhile (fun b => !(feed.lastLsn.all (fun last => last < b.lsn)))

/-- A poll past the history: the backlog, then the queue. -/
def pollLive (feed : ChangeFeed C) (sub : SubState C) :
    Except LoraError (ChangePoll C) × ChangeFeed C × SubState C :=
  match feed.fresh with
  | b :: backlog =>
    let (out, feed) := deliver { feed with backlog := backlog } b
    (.ok out, feed, sub)
  | [] =>
    let feed := { feed with backlog := [] }
    match sub.queue with
    | b :: queue =>
      let (out, feed) := deliver feed b
      (.ok out, feed, { sub with queue := queue })
    | [] =>
      match sub.status with
      | .open => (.ok .pending, feed, sub)
      | .closed => (.ok .closed, feed, sub)
      | .lagged =>
        (.error (laggedError feed sub), { feed with errored := true },
          { sub with status := .closed })

/-- The next batch without blocking. `read` is how reading the history goes: making it
durable, loading its base, and reading the transaction. -/
def poll (read : Except LoraError Unit) (feed : ChangeFeed C) (sub : SubState C) :
    Except LoraError (ChangePoll C) × ChangeFeed C × SubState C :=
  if feed.errored then (.ok .closed, feed, sub)
  else
    match feed.history with
    | none => feed.pollLive sub
    | some (history, upto) =>
      match read with
      | .error e => (.error e, { feed with errored := true }, sub.close)
      | .ok () =>
        -- A closed feed stops reading.
        match if sub.status = .closed then [] else history with
        | b :: rest =>
          -- The ring backlog starts where the history ends.
          let (out, feed) := deliver
            { feed with
              history := some (rest, upto)
              backlog := feed.backlog.filter (fun later => b.lsn < later.lsn) } b
          (.ok out, feed, sub)
        | [] => { feed with history := none }.pollLive sub

/-- What a feed has yet to deliver, in order. -/
def pending (feed : ChangeFeed C) (sub : SubState C) : List (ChangeBatch C) :=
  (feed.history.map Prod.fst).getD [] ++ (feed.backlog ++ sub.queue)

/-- The batch a poll hands out, if it does. -/
def handed : Except LoraError (ChangePoll C) → List (ChangeBatch C)
  | .ok (.batch b) => [b]
  | _ => []

/-- What one poll does: it hands out at most the first pending batch. -/
structure PollStep (read : Except LoraError Unit) (feed : ChangeFeed C) (sub : SubState C)
    (out : Except LoraError (ChangePoll C)) (feed' : ChangeFeed C) (sub' : SubState C) :
    Prop where
  same : feed'.sub = feed.sub
  taken : handed out ++ feed'.pending sub' <+ feed.pending sub
  kept : sub'.status = .open → feed'.errored = false → sub.status = .open ∧ feed.errored = false ∧
      handed out ++ feed'.pending sub' = feed.pending sub
  opened : sub'.status = .open → sub.status = .open
  last : feed'.lastLsn = ((handed out).head?.map (fun b => b.lsn)).or feed.lastLsn
  live : feed'.backlog ++ sub'.queue ⊆ feed.backlog ++ sub.queue
  history : ∀ hs upto, feed'.history = some (hs, upto) →
    ∃ hs', feed.history = some (hs', upto) ∧ hs ⊆ hs'
  source : ∀ b ∈ handed out, b ∈ feed.backlog ++ sub.queue ∨
    ∃ hs upto, feed.history = some (hs, upto) ∧ b ∈ hs ∧ read = .ok ()

variable {feed : ChangeFeed C} {sub : SubState C}

theorem fresh_eq (h : ∀ last ∈ feed.lastLsn, ∀ b ∈ feed.backlog, last < b.lsn) :
    feed.fresh = feed.backlog := by
  unfold fresh
  cases hb : feed.backlog with
  | nil => rfl
  | cons b backlog =>
    rw [dropWhile_cons_of_neg]
    cases hl : feed.lastLsn with
    | none => simp
    | some last => simpa using h last hl b (hb ▸ mem_cons_self)

theorem pollLive_step (read : Except LoraError Unit) (hne : feed.errored = false)
    (hnh : feed.history = none)
    (h : ∀ last ∈ feed.lastLsn, ∀ b ∈ feed.pending sub, last < b.lsn) :
    PollStep read feed sub (feed.pollLive sub).1 (feed.pollLive sub).2.1
      (feed.pollLive sub).2.2 := by
  have hpending : feed.pending sub = feed.backlog ++ sub.queue := by
    simp only [pending, hnh, Option.map_none, Option.getD_none, nil_append]
  have hfresh : feed.fresh = feed.backlog := fresh_eq fun last hl b hb =>
    h last hl b (hpending ▸ mem_append_left _ hb)
  unfold pollLive
  rw [hfresh]
  match hb : feed.backlog, hq : sub.queue, hs : sub.status with
  | b :: backlog, _, _ =>
    simp only [deliver]
    refine ⟨rfl, ?_, ?_, ?_, rfl, ?_, ?_, ?_⟩
    all_goals simp_all [handed, pending]
  | [], b :: queue, _ =>
    simp only [deliver]
    refine ⟨rfl, ?_, ?_, ?_, rfl, ?_, ?_, ?_⟩
    all_goals simp_all [handed, pending]
  | [], [], .open =>
    refine ⟨rfl, ?_, ?_, ?_, rfl, ?_, ?_, ?_⟩
    all_goals simp_all [handed, pending]
  | [], [], .closed =>
    refine ⟨rfl, ?_, ?_, ?_, rfl, ?_, ?_, ?_⟩
    all_goals simp_all [handed, pending]
  | [], [], .lagged =>
    refine ⟨rfl, ?_, ?_, ?_, rfl, ?_, ?_, ?_⟩
    all_goals simp_all [handed, pending]

theorem close_status (sub : SubState C) : sub.close.status = .closed := by
  unfold SubState.close
  split
  · assumption
  · rfl

theorem close_queue (sub : SubState C) : sub.close.queue ⊆ sub.queue := by
  unfold SubState.close
  split
  · exact fun _ hb => hb
  · exact nil_subset _

theorem close_queue_sublist (sub : SubState C) : sub.close.queue <+ sub.queue := by
  unfold SubState.close
  split
  · exact Sublist.refl _
  · exact nil_sublist _

/-- A poll hands out at most the first pending batch, and drops what it skips only once
the feed is closed. -/
theorem poll_step (read : Except LoraError Unit)
    (h : ∀ last ∈ feed.lastLsn, ∀ b ∈ feed.pending sub, last < b.lsn)
    (hasc : HubState.Ascending (feed.pending sub)) :
    PollStep read feed sub (feed.poll read sub).1 (feed.poll read sub).2.1
      (feed.poll read sub).2.2 := by
  obtain ⟨id, backlog, history, lastLsn, errored⟩ := feed
  match errored, history, read with
  | true, _, _ =>
    refine ⟨rfl, Sublist.refl _, ?_, fun h => h, rfl, fun _ hb => hb,
      fun hs upto hh => ⟨hs, hh, fun _ hb => hb⟩, ?_⟩
    · intro _ hne
      exact absurd hne (by simp [poll])
    · intro b hb
      exact absurd hb not_mem_nil
  | false, none, _ => exact pollLive_step _ rfl rfl h
  | false, some (hs, upto), .error e =>
    refine ⟨rfl, ?_, ?_, ?_, rfl, ?_, fun hs upto hh => ⟨hs, hh, fun _ hb => hb⟩, ?_⟩
    · exact (Sublist.refl hs).append ((Sublist.refl backlog).append (close_queue_sublist sub))
    · intro hopen
      exact absurd (hopen.symm.trans (close_status sub)) (by decide)
    · intro hopen
      exact absurd (hopen.symm.trans (close_status sub)) (by decide)
    · exact append_subset.mpr ⟨subset_append_left _ _,
        fun b hb => mem_append_right _ (close_queue sub hb)⟩
    · intro b hb
      exact absurd hb not_mem_nil
  | false, some (hs, upto), .ok () =>
    simp only [poll, Bool.false_eq_true, if_false]
    match hrest : (if sub.status = .closed then [] else hs) with
    | [] =>
      -- The history is over, or the feed is closed and drops what is left of it.
      have hlive := @pollLive_step C ⟨id, backlog, none, lastLsn, false⟩ sub (.ok ()) rfl rfl
        (fun last hl b hb => h last hl b (mem_append_right _ hb))
      refine ⟨hlive.same, ?_, ?_, hlive.opened, hlive.last, hlive.live, ?_, ?_⟩
      · exact hlive.taken.trans (sublist_append_right _ _)
      · intro hopen hne'
        obtain ⟨hsub, -, heq⟩ := hlive.kept hopen hne'
        rw [hsub, if_neg (by decide)] at hrest
        refine ⟨hsub, rfl, heq.trans ?_⟩
        rw [hrest]
        rfl
      · intro hs' upto' hh'
        obtain ⟨hs'', hcontra, -⟩ := hlive.history hs' upto' hh'
        exact absurd hcontra (by simp)
      · intro b hb
        rcases hlive.source b hb with hb | ⟨_, _, hcontra, -⟩
        · exact Or.inl hb
        · exact absurd hcontra (by simp)
    | b :: rest =>
      have hopen : sub.status ≠ .closed := by
        intro hc
        rw [if_pos hc] at hrest
        exact absurd hrest (by simp)
      rw [if_neg hopen] at hrest
      subst hrest
      have hkeep : backlog.filter (fun later => b.lsn < later.lsn) = backlog := by
        refine filter_eq_self.mpr fun later hl => decide_eq_true ?_
        exact (pairwise_cons.mp hasc).1 later (mem_append_right _ (mem_append_left _ hl))
      simp only [deliver, hkeep]
      refine ⟨rfl, Sublist.refl _, fun hs' _ => ⟨hs', rfl, rfl⟩, fun h => h, rfl,
        fun _ hb => hb, ?_, ?_⟩
      · intro hs' upto' hh'
        obtain ⟨rfl, rfl⟩ := Prod.mk.inj (Option.some.inj hh')
        exact ⟨b :: rest, rfl, fun _ hb => mem_cons_of_mem b hb⟩
      · intro b' hb'
        obtain rfl := mem_singleton.mp hb'
        exact Or.inr ⟨_, upto, rfl, mem_cons_self, rfl⟩

end ChangeFeed

end LoraDb
