import LoraDb.Simulation
import LoraDb.WalCommit

/-!
# Crashes

A log over its whole life: commits, crashes in the middle of a commit, and opening it again.
To its callers it is a **journal** of transactions, of which a crash may lose the one that was
being committed, whole, and no other.

## Main results

* `Wal.Logs.step`: what a log does, the journal can do.
* `Wal.crash_safe`: so it is over a run, and what is opened at its end is the journal.
* `Wal.crash_recovers`: when a commit goes through, and when a log opens after a crash in it.
-/

open ByteCodec

namespace LoraDb

/-! ### The journal -/

/-- What the callers of a log see: a commit that returns, and the events that are recovered
after a crash in a commit and when the log is opened again. -/
inductive LogEvent where
  | committed (events : List MutationEvent)
  | crashed (events recovered : List MutationEvent)
  | reopened (recovered : List MutationEvent)

/-- A journal of transactions. Only the one that is being committed in a crash may be lost,
as a whole. -/
inductive Journal : List (List MutationEvent) → LogEvent → List (List MutationEvent) → Prop where
  | committed (txs : List (List MutationEvent)) (events : List MutationEvent) :
      Journal txs (.committed events) (txs ++ [events])
  | lost (txs : List (List MutationEvent)) (events : List MutationEvent) :
      Journal txs (.crashed events txs.flatten) txs
  | kept (txs : List (List MutationEvent)) (events : List MutationEvent) :
      Journal txs (.crashed events (txs ++ [events]).flatten) (txs ++ [events])
  | reopened (txs : List (List MutationEvent)) : Journal txs (.reopened txs.flatten) txs

namespace Wal

variable [Crc32]

/-- What **happens** to a log in which no I/O call fails. A crash of the process stops a commit in
any state the directory goes through, and what was written until then stays; whoever opens the
log may choose its targets anew. -/
inductive Happens (zones : ZoneDb) (fence : Lsn) : Wal → LogEvent → Wal → Prop where
  | committed {w w' : Wal} {events : List MutationEvent} {lsn : Lsn} (loggable : Loggable events)
      (commit : commitTxEvents zones events w = .ok (some lsn) w') :
      Happens zones fence w (.committed events) w'
  | crashed {w mid w' : Wal} {events recovered : List MutationEvent} {lsn : Lsn}
      {files : SegmentFiles} {segmentTargetBytes batchTargetBytes : ℕ} (loggable : Loggable events)
      (commit : commitTxEvents zones events { w with visited := [w.files] } = .ok (some lsn) mid)
      (stopped : files ∈ mid.visited) (target : SEGMENT_HEADER_LEN < segmentTargetBytes)
      (reopen : openLog zones segmentTargetBytes batchTargetBytes files fence =
        .ok (w', recovered)) : Happens zones fence w (.crashed events recovered) w'
  | reopened {w w' : Wal} {recovered : List MutationEvent} {segmentTargetBytes batchTargetBytes : ℕ}
      (target : SEGMENT_HEADER_LEN < segmentTargetBytes)
      (reopen : openLog zones segmentTargetBytes batchTargetBytes w.files fence =
        .ok (w', recovered)) : Happens zones fence w (.reopened recovered) w'

/-- A handle on a log that commits `txs`. -/
def Logs (zones : ZoneDb) (fence : Lsn) (w : Wal) (txs : List (List MutationEvent)) : Prop :=
  SEGMENT_HEADER_LEN < w.segmentTargetBytes ∧ ∃ older active,
    Holds zones fence older active w ∧ committedIn zones (older ++ [active]) = txs

end Wal

section Opening

variable [Crc32] {zones : ZoneDb} {fence : Lsn} {files : SegmentFiles} {older : List Segment}
  {active : Segment} {torn : Bytes} {txs : List (List MutationEvent)}
  {segmentTargetBytes batchTargetBytes : ℕ}

/-- The log that was just created. -/
theorem Layout.fresh (hword : fence + 1 < 2 ^ 64) :
    Layout zones fence [(1, (SegmentHeader.new (fence + 1)).encode)] [] ⟨1, fence + 1, []⟩ [] := by
  have hlsn : Disk.lsnAfter fence ([] ++ [⟨1, fence + 1, []⟩]) = fence + 1 :=
    congrArg Nat.succ (Nat.zero_max fence)
  refine ⟨⟨⟨[], ?_, .nil⟩, Segment.headed_new hword, .inl rfl⟩, ?_, ?_⟩
  · simp [Segment.file]
  · rw [hlsn]
    have hframes : ∀ s ∈ ([] ++ [⟨1, fence + 1, []⟩] : List Segment), s.frames = [] :=
      List.forall_mem_singleton.mpr rfl
    have hnone : ∀ {P : Segment → RawRecord → Prop},
        ∀ s ∈ ([] ++ [⟨1, fence + 1, []⟩] : List Segment), ∀ f ∈ s.frames, P s f :=
      fun s hs f hf => absurd (hframes s hs ▸ hf) List.not_mem_nil
    refine ⟨⟨List.isChain_singleton _, List.pairwise_singleton _ _, hnone, hnone,
      List.forall_mem_singleton.mpr .nil, List.forall_mem_singleton.mpr ⟨le_rfl, by simp⟩,
      List.forall_mem_singleton.mpr (Nat.lt_succ_self fence), hword⟩,
      List.pairwise_singleton _ _, ?_, hnone, List.forall_mem_singleton.mpr trivial, ?_⟩
    · intro s hs
      obtain rfl : (⟨1, fence + 1, []⟩ : Segment) = s := by simpa using hs
      exact le_rfl
    · exact ⟨by simp [recordsOf, Segment.read], .nil⟩
  · exact Nat.succ_le_succ (le_max_right _ _)

theorem Layout.ne_nil (h : Layout zones fence files older active torn) : files ≠ [] := by
  obtain ⟨fs, rfl, -⟩ := h.disk.files
  simp

/-- A log that opens is held by its handle. -/
theorem Layout.opened (h : Layout zones fence files older active torn)
    (hheaders : Disk.Headers files)
    (hintact : Disk.Intact older active (SegmentHeader.new active.base).encode torn)
    (segmentTargetBytes batchTargetBytes : ℕ) :
    ∃ w, Wal.openExisting zones segmentTargetBytes batchTargetBytes files fence =
        .ok (w, (committedIn zones (older ++ [active])).flatten) ∧
      w.segmentTargetBytes = segmentTargetBytes ∧ Wal.Holds zones fence older active w := by
  obtain ⟨fs, hfiles, hfs⟩ := h.disk.files
  have hopen := h.disk.open_unsealed h.sound hheaders hintact (SegmentHeader.decode_new h.base_lt)
    rfl hfiles segmentTargetBytes batchTargetBytes
  rw [List.flatMap_def] at hopen
  have hwhole : Layout zones fence (fs ++ [active.file (SegmentHeader.new active.base).encode []])
      older active [] := ⟨⟨⟨fs, rfl, hfs⟩, h.disk.headed, .inl rfl⟩, h.sound, h.tight⟩
  refine ⟨_, hopen, rfl, ⟨hwhole, ?_, rfl, rfl, rfl, rfl⟩⟩
  refine List.forall_mem_append.mpr ⟨fun entry hentry => ?_, List.forall_mem_singleton.mpr ?_⟩
  · exact hheaders entry (by rw [hfiles]; exact List.mem_append_left _ hentry)
  · exact ⟨_, h.readHeader []⟩

/-- A log opens exactly when every header decodes and the torn frame at its end, if any,
does not pass for one of the log. -/
theorem Layout.opens_iff (h : Layout zones fence (Wal.discardUnbornSegment files) older active torn)
    (segmentTargetBytes batchTargetBytes : ℕ) :
    (∃ out, Wal.openLog zones segmentTargetBytes batchTargetBytes files fence = .ok out) ↔
      Disk.Headers (Wal.discardUnbornSegment files) ∧
        Disk.Intact older active (SegmentHeader.new active.base).encode torn := by
  rw [openLog_eq h.ne_nil]
  constructor
  · rintro ⟨out, hopen⟩
    by_contra hbad
    obtain ⟨e, herror⟩ := h.disk.open_error h.sound hbad segmentTargetBytes batchTargetBytes
    rw [herror] at hopen
    cases hopen
  · rintro ⟨hheaders, hintact⟩
    obtain ⟨w, hopened, -⟩ := h.opened hheaders hintact segmentTargetBytes batchTargetBytes
    exact ⟨_, hopened⟩

/-- What a crash has left of a log opens as what the log commits, or not at all. -/
theorem Leaves.opened (h : Leaves zones fence files txs) {out : Wal × List MutationEvent}
    (htarget : SEGMENT_HEADER_LEN < segmentTargetBytes)
    (hopen : Wal.openLog zones segmentTargetBytes batchTargetBytes files fence = .ok out) :
    Wal.Logs zones fence out.1 txs ∧ out.2 = txs.flatten := by
  obtain ⟨older, active, torn, hlayout, rfl⟩ := h
  obtain ⟨hheaders, hintact⟩ := (hlayout.opens_iff _ _).mp ⟨out, hopen⟩
  obtain ⟨w, hopened, hsame, hholds⟩ := hlayout.opened hheaders hintact segmentTargetBytes
    batchTargetBytes
  rw [openLog_eq hlayout.ne_nil, hopened] at hopen
  obtain rfl := Except.ok.inj hopen
  exact ⟨⟨hsame.symm ▸ htarget, older, active, hholds, rfl⟩, rfl⟩

end Opening

namespace Wal

section Runs

variable [Crc32] {zones : ZoneDb} {fence : Lsn} {w w' : Wal} {txs : List (List MutationEvent)}
  {files : SegmentFiles} {segmentTargetBytes batchTargetBytes : ℕ}

theorem Logs.leaves (h : Logs zones fence w txs) : Leaves zones fence w.files txs := by
  obtain ⟨-, older, active, hholds, rfl⟩ := h
  exact hholds.layout.leaves

/-- A log that was closed opens. -/
theorem Logs.reopen (h : Logs zones fence w txs) (segmentTargetBytes batchTargetBytes : ℕ) :
    ∃ w', openLog zones segmentTargetBytes batchTargetBytes w.files fence =
      .ok (w', txs.flatten) := by
  obtain ⟨-, older, active, hholds, rfl⟩ := h
  have hdiscard := hholds.layout.discard
  obtain ⟨w', hopened, -⟩ := hholds.layout.opened hholds.headers (.inl rfl) segmentTargetBytes
    batchTargetBytes
  refine ⟨w', ?_⟩
  rw [openLog_eq (by rw [hdiscard]; exact hholds.layout.ne_nil), hdiscard, hopened]

variable {events : List MutationEvent}

/-- What a commit that succeeds does, and what a crash in it leaves. -/
theorem Logs.commit (h : Logs zones fence w txs) {lsn : Lsn}
    (hloggable : Loggable events) (hrun : commitTxEvents zones events w = .ok (some lsn) w') :
    Logs zones fence w' (txs ++ [events]) ∧ ∀ files ∈ w'.visited, files ∈ w.visited ∨
      Leaves zones fence files txs ∨ Leaves zones fence files (txs ++ [events]) := by
  obtain ⟨htarget, older, active, hholds, rfl⟩ := h
  obtain ⟨batches, hne, hplan, hroom, hid⟩ := hholds.commit_eq_ok htarget hrun
  obtain ⟨older', active', w₁, hrun₁, hholds₁, hcommitted, hthrough⟩ :=
    hholds.commit hne hloggable hplan hroom htarget hid
  rw [hrun₁] at hrun
  cases hrun
  exact ⟨⟨hthrough.segmentTargetBytes.symm ▸ htarget, older', active', hholds₁, hcommitted⟩,
    hthrough.visited⟩

theorem Logs.forget (h : Logs zones fence w txs) (visited : List SegmentFiles) :
    Logs zones fence { w with visited } txs := by
  obtain ⟨htarget, older, active, hholds, hcommitted⟩ := h
  exact ⟨htarget, older, active, { hholds with }, hcommitted⟩

/-- Every directory a crash in a commit may leave. -/
theorem Logs.crashed (h : Logs zones fence w txs) {lsn : Lsn} (hloggable : Loggable events)
    (hrun : commitTxEvents zones events { w with visited := [w.files] } = .ok (some lsn) w')
    (hfiles : files ∈ w'.visited) :
    Leaves zones fence files txs ∨ Leaves zones fence files (txs ++ [events]) := by
  rcases ((h.forget [w.files]).commit hloggable hrun).2 files hfiles with hmem | hleaves
  · obtain rfl := List.mem_singleton.mp hmem
    exact .inl h.leaves
  · exact hleaves

/-- What happens to a log, the journal follows. -/
theorem Logs.step {i : LogEvent} (hstep : Happens zones fence w i w')
    (h : Logs zones fence w txs) : ∃ txs', Journal txs i txs' ∧ Logs zones fence w' txs' := by
  cases hstep with
  | committed loggable commit =>
    exact ⟨_, .committed txs _, (h.commit loggable commit).1⟩
  | crashed loggable commit stopped target reopen =>
    rcases h.crashed loggable commit stopped with hleaves | hleaves
    · obtain ⟨hlogs, hrecovered⟩ := hleaves.opened target reopen
      cases hrecovered
      exact ⟨_, .lost txs _, hlogs⟩
    · obtain ⟨hlogs, hrecovered⟩ := hleaves.opened target reopen
      cases hrecovered
      exact ⟨_, .kept txs _, hlogs⟩
  | reopened target reopen =>
    obtain ⟨hlogs, hrecovered⟩ := h.leaves.opened target reopen
    cases hrecovered
    exact ⟨_, .reopened txs, hlogs⟩

/-- What happens to a log over a run, the journal follows. -/
theorem Logs.run {is : List LogEvent} (hrun : Moves (Happens zones fence) w is w')
    (h : Logs zones fence w txs) :
    ∃ txs', Moves Journal txs is txs' ∧ Logs zones fence w' txs' := by
  have hfollow : ∀ w i w' txs, Happens zones fence w i w' → Logs zones fence w txs →
      ∃ txs', Journal txs i txs' ∧ Logs zones fence w' txs' :=
    fun _ _ _ _ hstep hlogs => hlogs.step hstep
  exact hrun.simulates hfollow h

/-- The log of a directory in which no segment was born. -/
theorem Logs.fresh (hfiles : discardUnbornSegment files = [])
    (htarget : SEGMENT_HEADER_LEN < segmentTargetBytes) {recovered : List MutationEvent}
    (hopen : openLog zones segmentTargetBytes batchTargetBytes files fence = .ok (w, recovered)) :
    Logs zones fence w [] ∧ recovered = [] := by
  rw [openLog_fresh hfiles, openFresh, nextLsnAfter, checkedNext] at hopen
  by_cases hword : fence + 1 < 2 ^ 64
  · rw [if_pos hword] at hopen
    cases hopen
    refine ⟨⟨htarget, [], ⟨1, fence + 1, []⟩, ?_, rfl⟩, rfl⟩
    have hlayout : Layout zones fence [(1, (SegmentHeader.new (fence + 1)).encode)] []
        ⟨1, fence + 1, []⟩ [] := Layout.fresh hword
    exact ⟨hlayout, List.forall_mem_singleton.mpr ⟨_, hlayout.readHeader []⟩, rfl, rfl, rfl, rfl⟩
  · rw [if_neg hword] at hopen
    cases hopen

/-- What a log needs to take a transaction: events that can be recorded, LSNs for all of its
records, and the number of another segment when the active one is full. -/
def Takes (zones : ZoneDb) (w : Wal) (events : List MutationEvent) : Prop :=
  events ≠ [] ∧ (∃ batches, planBatches zones w.batchTargetBytes events = .ok batches ∧
    w.state.nextLsn + batches.length + 2 < 2 ^ 64) ∧
      (w.bytesWritten < w.segmentTargetBytes ∨ w.state.activeSegmentId + 1 < 2 ^ 64)

theorem Logs.takes_iff (h : Logs zones fence w txs) (hloggable : Loggable events) :
    (∃ lsn w', commitTxEvents zones events w = .ok (some lsn) w') ↔ Takes zones w events := by
  obtain ⟨htarget, older, active, hholds, -⟩ := h
  constructor
  · rintro ⟨lsn, w', hrun⟩
    obtain ⟨batches, hne, hplan, hroom, hid⟩ := hholds.commit_eq_ok htarget hrun
    exact ⟨hne, ⟨batches, hplan, hroom⟩, by rwa [hholds.activeSegmentId]⟩
  · rintro ⟨hne, ⟨batches, hplan, hroom⟩, hid⟩
    rw [hholds.activeSegmentId] at hid
    obtain ⟨-, -, w', hrun, -⟩ := hholds.commit hne hloggable hplan hroom htarget hid
    exact ⟨_, w', hrun⟩

/-- **Crash safety.** Whatever happened to a log since it was created, its callers have seen a
**journal**, and opening it again recovers that journal. -/
theorem crash_safe {recovered : List MutationEvent} {is : List LogEvent}
    (hfiles : discardUnbornSegment files = []) (htarget : SEGMENT_HEADER_LEN < segmentTargetBytes)
    (hopen : openLog zones segmentTargetBytes batchTargetBytes files fence = .ok (w, recovered))
    (hrun : Moves (Happens zones fence) w is w') :
    recovered = [] ∧ ∃ txs, Moves Journal [] is txs ∧ ∀ segmentTargetBytes batchTargetBytes, ∃ w'',
        openLog zones segmentTargetBytes batchTargetBytes w'.files fence =
          .ok (w'', txs.flatten) := by
  obtain ⟨hlogs, hnone⟩ := Logs.fresh hfiles htarget hopen
  obtain ⟨txs, hjournal, hlogs'⟩ := hlogs.run hrun
  exact ⟨hnone, txs, hjournal, hlogs'.reopen⟩

end Runs

/-- A log in which every transaction fills a segment. -/
def emptyLog : Wal :=
  handle 40 1000 [(1, (SegmentHeader.new 1).encode)]
    ⟨1, SegmentHeader.new 1, SEGMENT_HEADER_LEN, []⟩ 1

def oneCommit : Wal := after (commitTxEvents WalCodec.unaryZones [.clear] emptyLog)

/-- The second transaction starts a segment. -/
def twoCommits : Wal :=
  after (commitTxEvents WalCodec.unaryZones [.clear]
    { oneCommit with visited := [oneCommit.files] })

/-- A crash after the first record of the second transaction. -/
def crashed : SegmentFiles := (twoCommits.visited[100]?).getD []

theorem eq_ok_after {α : Type} {r : EStateM.Result WalError Wal α} {a : α}
    (h : (match r with | .ok b _ => some b | .error _ _ => none) = some a) :
    r = .ok a (after r) := by
  cases r with
  | ok b w =>
    cases h
    rfl
  | error err w => cases h

theorem eq_ok_of_snd {r : Except WalError (Wal × List MutationEvent)}
    {recovered : List MutationEvent} (h : r.toOption.map Prod.snd = some recovered) :
    ∃ w, r = .ok (w, recovered) := by
  cases r with
  | ok out =>
    cases h
    exact ⟨out.1, rfl⟩
  | error err => cases h

theorem loggable_clear : Loggable [.clear] := ⟨by decide, by decide⟩

theorem oneCommit_eq :
    commitTxEvents WalCodec.unaryZones [.clear] emptyLog = .ok (some 3) oneCommit :=
  eq_ok_after (by decide +kernel)

theorem twoCommits_eq : commitTxEvents WalCodec.unaryZones [.clear]
    { oneCommit with visited := [oneCommit.files] } = .ok (some 6) twoCommits :=
  eq_ok_after (by decide +kernel)

theorem crashed_visited : crashed ∈ twoCommits.visited := by
  have hvisited : twoCommits.visited[100]? = some crashed := by decide +kernel
  exact List.mem_of_getElem? hvisited

theorem crashed_opens : ∃ w, openLog WalCodec.unaryZones 40 1000 crashed 0 = .ok (w, [.clear]) :=
  eq_ok_of_snd (by decide +kernel)

theorem crash_safe_twoCommits : ∃ w,
    openLog WalCodec.unaryZones 40 1000 crashed 0 = .ok (w, [.clear]) ∧
    ∃ txs, Moves Journal [] [.committed [.clear], .crashed [.clear] [.clear]] txs ∧
      ∀ segmentTargetBytes batchTargetBytes, ∃ w',
        openLog WalCodec.unaryZones segmentTargetBytes batchTargetBytes w.files 0 =
          .ok (w', txs.flatten) := by
  have hfresh : openLog WalCodec.unaryZones 40 1000 [] 0 = .ok (emptyLog, []) := rfl
  obtain ⟨w, hopen⟩ := crashed_opens
  refine ⟨w, hopen, ?_⟩
  exact (crash_safe rfl (by decide) hfresh (.head (.committed loggable_clear oneCommit_eq)
    (.head (.crashed loggable_clear twoCommits_eq crashed_visited (by decide) hopen) (.refl w)))).2

section Recovers

variable [Crc32] {zones : ZoneDb} {fence : Lsn} {w w' : Wal} {files : SegmentFiles}
  {segmentTargetBytes batchTargetBytes : ℕ}

/-- **Crash recovery.** Whatever happened to a log since it was created, the next commit goes
through exactly when the log can take it; a crash in it leaves a log of one transaction more or
not, which opens exactly when its headers decode and its torn frame does not pass for a frame. -/
theorem crash_recovers {recovered : List MutationEvent} {is : List LogEvent}
    (hfiles : discardUnbornSegment files = []) (htarget : SEGMENT_HEADER_LEN < segmentTargetBytes)
    (hopen : openLog zones segmentTargetBytes batchTargetBytes files fence = .ok (w, recovered))
    (hrun : Moves (Happens zones fence) w is w') {events : List MutationEvent}
    (hloggable : Loggable events) :
    ∃ txs, Moves Journal [] is txs ∧
      ((∃ lsn mid, commitTxEvents zones events w' = .ok (some lsn) mid) ↔ Takes zones w' events) ∧
      ∀ lsn mid, commitTxEvents zones events { w' with visited := [w'.files] } =
          .ok (some lsn) mid →
        ∀ stopped ∈ mid.visited, ∃ older active torn,
          Layout zones fence (discardUnbornSegment stopped) older active torn ∧
          (committedIn zones (older ++ [active]) = txs ∨
            committedIn zones (older ++ [active]) = txs ++ [events]) ∧
          ∀ segmentTargetBytes batchTargetBytes,
            (∃ out, openLog zones segmentTargetBytes batchTargetBytes stopped fence = .ok out) ↔
              Disk.Headers (discardUnbornSegment stopped) ∧
                Disk.Intact older active (SegmentHeader.new active.base).encode torn := by
  obtain ⟨hlogs, -⟩ := Logs.fresh hfiles htarget hopen
  obtain ⟨txs, hjournal, hlogs'⟩ := hlogs.run hrun
  refine ⟨txs, hjournal, hlogs'.takes_iff hloggable, fun lsn mid hcommit stopped hstopped => ?_⟩
  rcases hlogs'.crashed hloggable hcommit hstopped with hleaves | hleaves
  · obtain ⟨older, active, torn, hlayout, hcommitted⟩ := hleaves
    exact ⟨older, active, torn, hlayout, .inl hcommitted, hlayout.opens_iff⟩
  · obtain ⟨older, active, torn, hlayout, hcommitted⟩ := hleaves
    exact ⟨older, active, torn, hlayout, .inr hcommitted, hlayout.opens_iff⟩

end Recovers

theorem crash_recovers_twoCommits : Takes WalCodec.unaryZones oneCommit [.clear] ∧
    ∃ older active torn,
      Layout WalCodec.unaryZones 0 (discardUnbornSegment crashed) older active torn ∧
        Disk.Headers (discardUnbornSegment crashed) ∧
          Disk.Intact older active (SegmentHeader.new active.base).encode torn := by
  have hfresh : openLog WalCodec.unaryZones 40 1000 [] 0 = .ok (emptyLog, []) := rfl
  obtain ⟨txs, -, htakes, hcrash⟩ := crash_recovers rfl (by decide) hfresh
    (.head (.committed loggable_clear oneCommit_eq) (.refl oneCommit)) loggable_clear
  obtain ⟨older, active, torn, hlayout, -, hopens⟩ := hcrash _ _ twoCommits_eq _ crashed_visited
  obtain ⟨w, hopen⟩ := crashed_opens
  refine ⟨htakes.mp ⟨6, _, eq_ok_after (by decide +kernel)⟩, older, active, torn, hlayout, ?_⟩
  exact (hopens 40 1000).mp ⟨_, hopen⟩

end Wal

end LoraDb
