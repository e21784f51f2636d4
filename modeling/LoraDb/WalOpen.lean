import LoraDb.WalLayout

/-!
# Opening a Log Directory

What a replay of a directory, and opening it, come to when the directory is a log that some
handle wrote: its segments in order, and perhaps a torn frame at the end of the newest. Only
three things can fail then: a header that a cut write left behind, a torn frame in a sealed
segment, and torn bytes that pass for a frame.

## Main results

* `Disk.replay`: what replay makes of a directory.
* `Disk.open_eq`, `Disk.open_cases`: what opening makes of it.
-/

open ByteCodec

namespace LoraDb

open List

/-! ### Headers -/

section Headers

variable [Crc32] {zones : ZoneDb} {σ : Type} {sink : ReplaySink σ} {budget : ℕ}

/-- Only the newest segment may end in a torn frame. -/
theorem replayFrames_whole {file : Bytes} {base checkpointLsn : Lsn} {path : SegmentId}
    {isSealed : Bool} {fuel position stop : ℕ} {st st' : ReplayState σ}
    {torn : Option TornTailInfo}
    (h : replayFrames zones sink budget file base checkpointLsn path false isSealed fuel
      position st = .ok (st', stop, torn)) : torn = none := by
  induction fuel generalizing position st with
  | zero =>
    simp only [replayFrames, Except.ok.injEq, Prod.mk.injEq] at h
    exact h.2.2.symm
  | succ fuel ih =>
    rw [replayFrames] at h
    split at h
    · simp only [Except.ok.injEq, Prod.mk.injEq] at h
      exact h.2.2.symm
    · split at h
      · cases h
      · obtain ⟨st₁, -, hrest⟩ := bind_eq_ok.mp h
        exact ih hrest
    · cases h
    · cases h

/-- A replay that succeeds has read every header. -/
theorem replayFiles_headers {checkpointLsn : Lsn} {files : SegmentFiles} {offset : ℕ}
    {st : ReplayState σ} {out : ReplayState σ × ℕ × Option TornTailInfo}
    (h : replayFiles zones sink budget checkpointLsn files (st, offset) = .ok out) :
    ∀ entry ∈ files, ∃ header, readHeader entry.2 = .ok header := by
  induction files generalizing st offset with
  | nil => exact fun _ hentry => absurd hentry not_mem_nil
  | cons entry rest ih =>
    obtain ⟨path, file⟩ := entry
    rw [replayFiles] at h
    obtain ⟨header, hheader, h⟩ := bind_eq_ok.mp h
    have hread : ∃ header, readHeader file = .ok header := by
      cases hr : readHeader file with
      | ok header => exact ⟨header, rfl⟩
      | error err =>
        rw [hr] at hheader
        cases hheader
    obtain ⟨st₁, -, h⟩ := bind_eq_ok.mp h
    obtain ⟨⟨st₂, position, torn⟩, hframes, h⟩ := bind_eq_ok.mp h
    intro entry hentry
    rcases List.mem_cons.mp hentry with rfl | hentry
    · exact hread
    · have hmore : rest.isEmpty = false := by
        rw [isEmpty_eq_false_iff]
        exact ne_nil_of_mem hentry
      rw [hmore, Bool.false_and] at hframes
      obtain rfl := replayFrames_whole hframes
      exact ih h entry hentry

/-- The bytes a directory was found with, when replay succeeds, begin with headers. -/
theorem replaySegments_headers {checkpointLsn : Lsn} {init : σ} {files : SegmentFiles}
    {out : ReplayOutcome × σ}
    (h : replaySegments zones sink budget checkpointLsn init files = .ok out) :
    ∀ entry ∈ files, ∃ header, readHeader entry.2 = .ok header := by
  rw [replaySegments] at h
  obtain ⟨-, -, h⟩ := bind_eq_ok.mp h
  obtain ⟨-, -, h⟩ := bind_eq_ok.mp h
  obtain ⟨⟨st, offset, torn⟩, hfiles, -⟩ := bind_eq_ok.mp h
  exact replayFiles_headers hfiles

end Headers

/-! ### Logs in a directory -/

/-- A log started above a fence that replay can read: its LSNs ascend, its transactions are
in one piece, its batches decode and its markers are proper. -/
structure Sound (zones : ZoneDb) (fence : Lsn) (segs : List Segment) (nextLsn : Lsn) : Prop where
  orderly : Orderly fence segs nextLsn
  strict : segs.Pairwise fun s s' => s.base < s'.base
  start : ∀ s ∈ segs.head?, s.base - 1 ≤ fence
  readable : ∀ s ∈ segs, ∀ f ∈ s.frames, f.Readable zones
  contiguous : ∀ s ∈ segs, Contiguous none (s.read zones).records
  proper : MarkersProper fence (recordsOf (segs.map (Segment.read zones)))

/-- The last LSN of a log. -/
def lastLsn (segs : List Segment) : Lsn :=
  ((segs.flatMap Segment.frames).getLast?.map RawRecord.lsn).getD 0

theorem lastLsnOf_read (zones : ZoneDb) (segs : List Segment) :
    lastLsnOf (recordsOf (segs.map (Segment.read zones))) = lastLsn segs := by
  have hrecords : recordsOf (segs.map (Segment.read zones)) =
      (segs.flatMap Segment.frames).map fun f => (recordOf zones f).1 := by
    simp [recordsOf, Segment.read, flatMap_map, map_flatMap, Function.comp_def]
  rw [lastLsnOf, hrecords, getLast?_map, Option.map_map, lastLsn]
  congr 2
  funext f
  exact recordOf_lsn

theorem checkSegmentIdsContiguous_eq_ok {files : SegmentFiles}
    (h : files.IsChain fun entry entry' => checkedNext entry.1 = some entry'.1) :
    checkSegmentIdsContiguous files = .ok () := by
  induction files with
  | nil => rfl
  | cons entry files ih =>
    cases files with
    | nil => rfl
    | cons entry' files =>
      rw [isChain_cons_cons] at h
      rw [checkSegmentIdsContiguous, if_neg (not_not.mpr h.1)]
      exact ih h.2

namespace Disk

variable [Crc32] {zones : ZoneDb} {fence : Lsn} {files : SegmentFiles} {older : List Segment}
  {newest : Segment} {header torn : Bytes} {nextLsn : Lsn}

theorem entries (h : Disk files older newest header torn) :
    Forall₂ (fun s entry => ∃ header torn, s.Headed header ∧ entry = s.file header torn)
      (older ++ [newest]) files := by
  obtain ⟨fs, rfl, hfs⟩ := h.files
  refine rel_append (hfs.imp ?_) (Forall₂.cons ⟨header, torn, h.headed, rfl⟩ .nil)
  rintro s entry ⟨header, hheaded, rfl⟩
  exact ⟨header, [], hheaded, rfl⟩

theorem readHeader_file {s : Segment} {header : Bytes} (h : s.Headed header) (torn : Bytes) :
    readHeader (s.file header torn).2 = SegmentHeader.decode header :=
  readHeader_append h.length

theorem map_fst (h : Disk files older newest header torn) :
    files.map Prod.fst = (older ++ [newest]).map Segment.id := by
  have hall : ∀ {segs : List Segment} {files : SegmentFiles},
      Forall₂ (fun s entry => ∃ header torn, s.Headed header ∧ entry = s.file header torn)
        segs files → files.map Prod.fst = segs.map Segment.id := by
    intro segs files hfiles
    induction hfiles with
    | nil => rfl
    | cons hentry _ ih =>
      obtain ⟨header, torn, -, rfl⟩ := hentry
      rw [map_cons, map_cons, ih]
      rfl
  exact hall h.entries

theorem contiguous (h : Disk files older newest header torn)
    (hord : Orderly fence (older ++ [newest]) nextLsn) :
    checkSegmentIdsContiguous files = .ok () := by
  have hids := hord.ids
  rw [← isChain_map Segment.id (R := fun id id' => checkedNext id = some id'), ← h.map_fst,
    isChain_map] at hids
  exact checkSegmentIdsContiguous_eq_ok hids

/-- Every file starts with a header that decodes. -/
def Headers (files : SegmentFiles) : Prop :=
  ∀ entry ∈ files, ∃ header, readHeader entry.2 = .ok header

theorem oldest (h : Disk files older newest header torn)
    (hstart : ∀ s ∈ (older ++ [newest]).head?, s.base - 1 ≤ fence) (hheaders : Headers files) :
    checkOldest fence files = .ok () := by
  have hentries := h.entries
  generalize older ++ [newest] = segs at hentries hstart
  cases hentries with
  | nil => rfl
  | @cons s entry segs files hentry _ =>
    obtain ⟨header, torn, hheaded, rfl⟩ := hentry
    obtain ⟨head, hhead⟩ := hheaders _ mem_cons_self
    rw [readHeader_file hheaded] at hhead
    have hread : readHeader (s.file header torn).2 = .ok head := by
      rw [readHeader_file hheaded, hhead]
    have hbase := hstart s rfl
    rw [← hheaded.base head hhead] at hbase
    simp only [Segment.file] at hread ⊢
    simp only [checkOldest, hread, bind, Except.bind, checkLogStart, if_neg (Nat.not_lt.mpr hbase)]

theorem fileOf {s : Segment} {header : Bytes} {h : SegmentHeader} (hheaded : s.Headed header)
    (hdecode : SegmentHeader.decode header = .ok h) (hfits : ∀ f ∈ s.frames, f.Fits)
    (hread : ∀ f ∈ s.frames, f.Readable zones) :
    FileOf zones (s.read zones) (s.file header []) := by
  refine ⟨rfl, header, s.frames, h, ?_, hheaded.length, hdecode, hheaded.base h hdecode,
    forall₂_recordOf hfits hread⟩
  rw [Segment.file, append_nil]

/-- The torn frame, if any, is a torn tail: the segment is not sealed, and no bytes of it
pass for a record of the log to come. -/
def Intact (older : List Segment) (newest : Segment) (header torn : Bytes) : Prop :=
  torn = [] ∨ (∀ h, SegmentHeader.decode header = .ok h → h.sealed = false) ∧
    findValidFrameAfter (newest.file header torn).2 newest.size
      (lastLsn (older ++ [newest])) = none

/-- The newest file, read after the others. -/
theorem replay_newest (h : Disk files older newest header torn)
    (hsound : Sound zones fence (older ++ [newest]) nextLsn) {head : SegmentHeader}
    (hdecode : SegmentHeader.decode header = .ok head) {σ : Type} (sink : ReplaySink σ)
    (budget : ℕ) :
    ∃ (cause : WalError) (err : ℕ → WalError), ∀ (st : ReplayState σ) (offset : ℕ),
      replayFiles zones sink budget fence [newest.file header torn] (st, offset) = (do
          let st ← st.acceptSegments sink budget fence [newest.read zones]
          if torn = [] then .ok (st, newest.size, none)
          else if head.sealed then st.fail (err 0)
          else match findValidFrameAfter (newest.file header torn).2 newest.size st.lastLsn with
            | some i => st.fail (err i)
            | none => .ok (st, newest.size, some ⟨newest.id, newest.size, cause⟩)) := by
  have hmem : newest ∈ older ++ [newest] := by simp
  have hfits := hsound.orderly.fits newest hmem
  have hread := hsound.readable newest hmem
  have hsegment : ∀ (st : ReplayState σ),
      st.acceptSegments sink budget fence [newest.read zones] = (do
        let st ← st.validateSegment newest.base newest.id
        st.acceptRecords sink budget fence newest.base newest.id
          (newest.read zones).records) := by
    intro st
    simp only [ReplayState.acceptSegments, Segment.read, bind, Except.bind]
    cases st.validateSegment newest.base newest.id with
    | error e => rfl
    | ok st =>
      dsimp only
      cases st.acceptRecords sink budget fence newest.base newest.id
        (newest.frames.map (recordOf zones)) <;> rfl
  rcases h.torn with rfl | ⟨raw, hraw, hcut, hne, hnil⟩
  · refine ⟨.io, fun _ => .io, fun st offset => ?_⟩
    rw [replayFiles_cons (fileOf h.headed hdecode hfits hread), hsegment]
    have hsize : (newest.file header []).2.length = newest.size := by
      simp [Segment.file, Segment.size, h.headed.length]
    simp only [hsize, if_true, Segment.read, bind, Except.bind]
    cases st.validateSegment newest.base newest.id with
    | error e => rfl
    | ok st =>
      dsimp only
      cases st.acceptRecords sink budget fence newest.base newest.id
        (newest.frames.map (recordOf zones)) <;> rfl
  · obtain ⟨cause, err, htorn⟩ := @replayFiles_torn _ zones σ sink budget fence newest.frames
      (newest.read zones) (newest.file header torn) header torn head rfl rfl h.headed.length hdecode
      (h.headed.base head hdecode) (forall₂_recordOf hfits hread) raw hraw hcut hne hnil
    refine ⟨cause, err, fun st offset => ?_⟩
    rw [htorn, hsegment]
    simp only [Segment.read, bind, Except.bind, if_neg hnil, Segment.size]
    cases st.validateSegment newest.base newest.id <;> rfl

theorem fileOf_all {segs : List Segment} {files : SegmentFiles}
    (hfiles : Forall₂ (fun s entry => ∃ header, s.Headed header ∧
      entry = s.file header []) segs files)
    (hread : ∀ s ∈ segs, (∀ f ∈ s.frames, f.Fits) ∧ ∀ f ∈ s.frames, f.Readable zones)
    (hheaders : Headers files) :
    Forall₂ (FileOf zones) (segs.map (Segment.read zones)) files := by
  induction hfiles with
  | nil => exact .nil
  | @cons s entry segs files hentry _ ih =>
    obtain ⟨header, hheaded, rfl⟩ := hentry
    obtain ⟨head, hhead⟩ := hheaders _ mem_cons_self
    rw [readHeader_file hheaded] at hhead
    obtain ⟨hfits, hreads⟩ := hread s mem_cons_self
    exact .cons (fileOf hheaded hhead hfits hreads) (ih (fun s hs => hread s (mem_cons_of_mem _ hs))
        fun entry hentry => hheaders entry (mem_cons_of_mem _ hentry))

/-- What replay makes of a directory whose headers all decode. -/
theorem replay (h : Disk files older newest header torn)
    (hsound : Sound zones fence (older ++ [newest]) nextLsn) (hheaders : Headers files)
    (budget : ℕ) :
    let out := replaySegments zones CollectEvents.step budget fence CollectEvents.new files
    (Intact older newest header torn → ∃ cause observed sink,
      out = .ok (⟨lastLsn (older ++ [newest]),
        if torn = [] then none else some ⟨newest.id, newest.size, cause⟩, observed,
        newest.size⟩, sink) ∧
      sink.events = (receiptsOf zones (older ++ [newest])).flatMap Receipt.events) ∧
    (¬ Intact older newest header torn → ∃ e, out = .error e) := by
  intro out
  obtain ⟨fs, rfl, hfs⟩ := h.files
  have hhead : ∃ head, SegmentHeader.decode header = .ok head := by
    obtain ⟨head, hhead⟩ := hheaders _ (mem_append_right fs mem_cons_self)
    exact ⟨head, (readHeader_file h.headed torn) ▸ hhead⟩
  obtain ⟨head, hhead⟩ := hhead
  have hfiles : Forall₂ (FileOf zones) (older.map (Segment.read zones)) fs := by
    refine fileOf_all hfs (fun s hs => ?_) fun entry hentry => ?_
    · have hmem : s ∈ older ++ [newest] := mem_append_left _ hs
      exact ⟨hsound.orderly.fits s hmem, hsound.readable s hmem⟩
    · exact hheaders entry (mem_append_left _ hentry)
  obtain ⟨cause, err, hnewest⟩ := h.replay_newest hsound hhead CollectEvents.step budget
  have hcont : ∀ s ∈ (older ++ [newest]).map (Segment.read zones),
      LoraDb.Contiguous none s.records := by
    intro s' hs'
    obtain ⟨s, hs, rfl⟩ := List.mem_map.mp hs'
    exact hsound.contiguous s hs
  have hall := collect_ledger (hsound.orderly.lsnOrdered zones hsound.strict)
    (hsound.orderly.live zones) hcont budget
  rw [lastLsnOf_read] at hall
  cases hst : collecting.acceptSegments CollectEvents.step budget fence
      ((older ++ [newest]).map (Segment.read zones)) with
  | error e =>
    rw [hst] at hall
    exact absurd hsound.proper hall
  | ok st =>
    rw [hst] at hall
    obtain ⟨hlast, st', hfinish, hmax, hevents⟩ := hall
    have hrun : out = (do
        let (st, offset, tail) ← (if torn = [] then .ok (st, newest.size, none)
          else if head.sealed then st.fail (err 0)
          else match findValidFrameAfter (newest.file header torn).2 newest.size st.lastLsn with
            | some i => st.fail (err i)
            | none => .ok (st, newest.size, some ⟨newest.id, newest.size, cause⟩) :
            ReplayResult CollectEvents (ReplayState CollectEvents × ℕ × Option TornTailInfo))
        let st ← st.finish CollectEvents.step
        .ok (⟨st.maxLsn, tail, st.checkpointLsnObserved, offset⟩, st.sink)) := by
      have hids := h.contiguous hsound.orderly
      have hold := h.oldest hsound.start hheaders
      rw [map_append, ReplayState.acceptSegments_append] at hst
      simp only [out, replaySegments, hids, hold, ReplayState.lift, bind, Except.bind]
      rw [replayFiles_append hfiles]
      simp only [bind, Except.bind] at hst ⊢
      cases hfirst : collecting.acceptSegments CollectEvents.step budget fence
          (older.map (Segment.read zones)) with
      | error e =>
        rw [hfirst] at hst
        cases hst
      | ok st₁ =>
        rw [hfirst] at hst
        dsimp only at hst ⊢
        rw [hnewest]
        simp only [map_cons, map_nil] at hst
        simp only [hst, bind, Except.bind]
    have hsealed : (∀ h, SegmentHeader.decode header = .ok h → h.sealed = false) ↔
        head.sealed = false := by
      simp [hhead]
    rw [hrun, hlast]
    refine ⟨fun hintact => ⟨cause, st'.checkpointLsnObserved, st'.sink, ?_, hevents⟩,
      fun hintact => ?_⟩
    · rcases hintact with hnil | ⟨hopen, hfind⟩
      · simp only [if_pos hnil, bind, Except.bind, hfinish, hmax]
      · rw [hsealed.mp hopen, hfind]
        by_cases hnil : torn = []
        · simp only [if_pos hnil, bind, Except.bind, hfinish, hmax]
        · simp only [if_neg hnil, bind, Except.bind, hfinish, hmax, Bool.false_eq_true, if_false]
    · rw [Intact, not_or, not_and, hsealed] at hintact
      rw [if_neg hintact.1]
      by_cases hs : head.sealed = true
      · rw [if_pos hs]
        exact ⟨_, rfl⟩
      · rw [if_neg hs]
        obtain ⟨i, hi⟩ := Option.ne_none_iff_exists'.mp
          (hintact.2 (by simpa using hs))
        rw [hi]
        exact ⟨_, rfl⟩

/-- Opening fails when a header does not decode. -/
theorem openExisting_headers {segmentTargetBytes batchTargetBytes : ℕ}
    {out : Wal × List MutationEvent}
    (h : Wal.openExisting zones segmentTargetBytes batchTargetBytes files fence = .ok out) :
    Headers files := by
  rw [Wal.openExisting] at h
  obtain ⟨replayed, hreplay, -⟩ := bind_eq_ok.mp h
  cases hrun : replaySegments zones CollectEvents.step PENDING_BUDGET_BYTES fence
      CollectEvents.new files with
  | ok out => exact replaySegments_headers hrun
  | error e =>
    rw [hrun] at hreplay
    exact absurd hreplay nofun

theorem older_lt (h : Disk files older newest header torn)
    (hord : Orderly fence (older ++ [newest]) nextLsn) {fs : SegmentFiles}
    (hfiles : files = fs ++ [newest.file header torn]) : ∀ entry ∈ fs, entry.1 < newest.id := by
  have hids := hord.ids_lt
  rw [← pairwise_map, ← h.map_fst, hfiles, map_append, pairwise_append] at hids
  exact fun entry hentry => hids.2.2 entry.1 (mem_map_of_mem hentry) newest.id (by
    simp [Segment.file])

/-- The next LSN of a log that is opened again. -/
def lsnAfter (fence : Lsn) (segs : List Segment) : Lsn := max (lastLsn segs) fence + 1

omit [Crc32] in
theorem lsnAfter_lt (hord : Orderly fence (older ++ [newest]) nextLsn) :
    lsnAfter fence (older ++ [newest]) ≤ nextLsn := by
  have hfence : fence < nextLsn := by
    have hmem : newest ∈ older ++ [newest] := by simp
    exact (hord.above newest hmem).trans_le (hord.below newest hmem).1
  have hlast : lastLsn (older ++ [newest]) < nextLsn := by
    unfold lastLsn
    cases hl : ((older ++ [newest]).flatMap Segment.frames).getLast? with
    | none => exact (Nat.zero_le fence).trans_lt hfence
    | some f =>
      obtain ⟨s, hs, hf⟩ := List.mem_flatMap.mp (mem_of_getLast? hl)
      exact (hord.below s hs).2 f hf
  exact Nat.succ_le_of_lt (max_lt hlast hfence)

/-- Opening a directory whose newest segment goes on: its torn frame, if any, is cut off. -/
theorem open_unsealed (h : Disk files older newest header torn)
    (hsound : Sound zones fence (older ++ [newest]) nextLsn) (hheaders : Headers files)
    (hintact : Intact older newest header torn) {head : SegmentHeader}
    (hhead : SegmentHeader.decode header = .ok head) (hopen : head.sealed = false)
    {fs : SegmentFiles} (hfiles : files = fs ++ [newest.file header torn])
    (segmentTargetBytes batchTargetBytes : ℕ) :
    Wal.openExisting zones segmentTargetBytes batchTargetBytes files fence =
      .ok (Wal.handle segmentTargetBytes batchTargetBytes (fs ++ [newest.file header []])
        ⟨newest.id, head, newest.size, []⟩ (lsnAfter fence (older ++ [newest])),
        (receiptsOf zones (older ++ [newest])).flatMap Receipt.events) := by
  obtain ⟨cause, observed, sink, hreplay, hevents⟩ :=
    (h.replay hsound hheaders PENDING_BUDGET_BYTES).1 hintact
  have hlast : files.getLast? = some (newest.file header torn) := by simp [hfiles]
  have hread : readHeader (newest.file header torn).2 = .ok head := by
    rw [readHeader_file h.headed, hhead]
  have hnext : Wal.nextLsnAfter (max (lastLsn (older ++ [newest])) fence) =
      .ok (lsnAfter fence (older ++ [newest])) := by
    have hlt := (lsnAfter_lt hsound.orderly).trans_lt hsound.orderly.word
    rw [lsnAfter] at hlt
    rw [Wal.nextLsnAfter, checkedNext, if_pos hlt]
    rfl
  have hsize : newest.size ≤ (newest.file header torn).2.length := by
    simp only [Segment.size, Segment.file, length_append, h.headed.length]
    omega
  have hwriter : Wal.openForAppendAt newest.id (newest.file header torn).2 newest.size =
      .ok ⟨newest.id, head, newest.size, []⟩ := by
    have hmin : ¬ newest.size < SEGMENT_HEADER_LEN := by
      rw [Segment.size]
      omega
    simp only [Wal.openForAppendAt, if_neg hmin, hread, hopen, bind, Except.bind,
      Bool.false_eq_true, if_false, if_neg (Nat.not_lt.mpr hsize)]
  have hkept : (newest.file header torn).2.take newest.size = (newest.file header []).2 := by
    simp only [Segment.file, append_nil, ← append_assoc]
    rw [take_left' (by simp [Segment.size, h.headed.length])]
  have hput : SortedMap.put newest.id (newest.file header []).2 files =
      fs ++ [newest.file header []] := by
    rw [hfiles]
    exact SortedMap.put_append_cons _ _ (h.older_lt hsound.orderly hfiles) []
  have hid : (newest.file header torn).1 = newest.id := rfl
  simp only [Wal.openExisting, hreplay, Except.mapError, hnext, hlast, hread, hopen, hwriter,
    bind, Except.bind, Bool.false_eq_true, if_false, hid, hevents]
  by_cases hnil : torn = []
  · subst hnil
    simp only [if_true, hfiles]
  · simp only [if_neg hnil, hkept, hput, ne_eq, not_true, if_false]

/-- Opening fails on a header that does not decode, and on a torn frame that is not a
torn tail. -/
theorem open_error (h : Disk files older newest header torn)
    (hsound : Sound zones fence (older ++ [newest]) nextLsn)
    (hbad : ¬ (Headers files ∧ Intact older newest header torn))
    (segmentTargetBytes batchTargetBytes : ℕ) :
    ∃ e, Wal.openExisting zones segmentTargetBytes batchTargetBytes files fence = .error e := by
  cases hopen : Wal.openExisting zones segmentTargetBytes batchTargetBytes files fence with
  | error e => exact ⟨e, rfl⟩
  | ok out =>
    have hheaders := openExisting_headers hopen
    obtain ⟨e, hreplay⟩ := (h.replay hsound hheaders PENDING_BUDGET_BYTES).2
      fun hintact => hbad ⟨hheaders, hintact⟩
    simp only [Wal.openExisting, hreplay, Except.mapError, bind, Except.bind] at hopen
    cases hopen

end Disk

/-! ### Unborn segments -/

section Unborn

variable [Crc32] {fs : SegmentFiles} {entry : SegmentId × Bytes}

theorem discardUnbornSegment_headed {header : SegmentHeader} (h : readHeader entry.2 = .ok header) :
    Wal.discardUnbornSegment (fs ++ [entry]) = fs ++ [entry] := by
  simp [Wal.discardUnbornSegment, h]

/-- A header that was not written whole. -/
theorem discardUnbornSegment_short (h : entry.2.length < SEGMENT_HEADER_LEN) :
    Wal.discardUnbornSegment (fs ++ [entry]) = fs := by
  have hread : readHeader entry.2 = .error .io := if_pos h
  simp [Wal.discardUnbornSegment, hread, Nat.not_lt.mpr h.le]

variable {zones : ZoneDb} {segmentTargetBytes batchTargetBytes : ℕ} {files : SegmentFiles}
  {fence : Lsn}

theorem openLog_eq (h : Wal.discardUnbornSegment files ≠ []) :
    Wal.openLog zones segmentTargetBytes batchTargetBytes files fence =
      Wal.openExisting zones segmentTargetBytes batchTargetBytes
        (Wal.discardUnbornSegment files) fence := by
  simp only [Wal.openLog, if_neg h]

theorem openLog_fresh (h : Wal.discardUnbornSegment files = []) :
    Wal.openLog zones segmentTargetBytes batchTargetBytes files fence =
      (Wal.openFresh segmentTargetBytes batchTargetBytes fence).map fun w => (w, []) := by
  simp only [Wal.openLog, h, if_true]
  rfl

end Unborn

end LoraDb
