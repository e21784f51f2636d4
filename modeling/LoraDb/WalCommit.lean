import LoraDb.WalGrowth

/-!
# Committing to a Log

What a commit does to the directory when no I/O call fails, and every state the directory is
in on the way. A handle holds a log when its directory is that log and its state says
where the log ends.

## Main results

* `Wal.appendTx_writes`: appending a transaction makes the active file grow byte by byte.
* `Wal.Holds.rotate`: starting a segment loses nothing, wherever a crash stops it.
* `Wal.Holds.commit`: after a commit the handle holds the log with the transaction, and on the
  way the directory is a log with it or without it.
* `Wal.Holds.commit_eq_ok`: what a commit that succeeds has found.
-/

open List (append_assoc append_nil length_append mem_append mem_singleton take_length)
open ByteCodec

namespace LoraDb

/-- A log directory with the log it can go on with: the newest segment is open and has the
header it was made with, and no LSN was left out before it. -/
structure Layout [Crc32] (zones : ZoneDb) (fence : Lsn) (files : SegmentFiles)
    (older : List Segment) (active : Segment) (torn : Bytes) : Prop where
  disk : Disk files older active (SegmentHeader.new active.base).encode torn
  sound : Sound zones fence (older ++ [active]) (Disk.lsnAfter fence (older ++ [active]))
  tight : active.base ≤ Disk.lsnAfter fence older

namespace Wal

/-- A handle **holds** a log, all of it written, and no I/O call fails. -/
structure Holds [Crc32] (zones : ZoneDb) (fence : Lsn) (older : List Segment) (active : Segment)
    (w : Wal) : Prop where
  layout : Layout zones fence w.files older active []
  headers : Disk.Headers w.files
  nextLsn : w.state.nextLsn = Disk.lsnAfter fence (older ++ [active])
  activeSegmentId : w.state.activeSegmentId = active.id
  writer : w.writer = ⟨active.id, SegmentHeader.new active.base, active.size, []⟩
  faults : w.faults = Faults.none

/-! ### Writing -/

/-- The directory with more bytes at the end of the active file. -/
def grown (w : Wal) (more : Bytes) : SegmentFiles :=
  SortedMap.put w.writer.file (w.files.contents w.writer.file ++ more) w.files

/-- On the way from `w` to `w'` the directory is in states of `P` only. -/
structure Through (P : SegmentFiles → Prop) (w w' : Wal) : Prop where
  segmentTargetBytes : w'.segmentTargetBytes = w.segmentTargetBytes
  batchTargetBytes : w'.batchTargetBytes = w.batchTargetBytes
  faults : w'.faults = Faults.none
  visited : ∀ files ∈ w'.visited, files ∈ w.visited ∨ P files

/-- `added` was appended: some of it is still pending, the rest is in the active file, and on
the way the file grew byte by byte. -/
structure Wrote (w : Wal) (added : Bytes) (w' : Wal) : Prop where
  through : Through (fun files => ∃ pre, pre <+: w.writer.pending ++ added ∧ files = w.grown pre)
    w w'
  state : w'.state = { w.state with
    nextLsn := w'.state.nextLsn
    activeWriter := { w.writer with
      bytesWritten := w'.writer.bytesWritten
      pending := w'.writer.pending } }
  moved : ∃ more, w'.writer.bytesWritten = w.writer.bytesWritten + more.length ∧
    w.writer.pending ++ added = more ++ w'.writer.pending ∧ w'.files = w.grown more

variable {w w' w'' : Wal} {added added' : Bytes} {P Q : SegmentFiles → Prop}

theorem Through.refl (hfaults : w.faults = Faults.none) : Through P w w :=
  ⟨rfl, rfl, hfaults, fun _ hfiles => .inl hfiles⟩

theorem Through.mono (h : Through P w w') (hP : ∀ files, P files → Q files) : Through Q w w' :=
  { h with visited := fun files hfiles => (h.visited files hfiles).imp_right (hP files) }

theorem Through.trans (h : Through P w w') (h' : Through P w' w'') : Through P w w'' where
  segmentTargetBytes := h'.segmentTargetBytes.trans h.segmentTargetBytes
  batchTargetBytes := h'.batchTargetBytes.trans h.batchTargetBytes
  faults := h'.faults
  visited files hfiles := (h'.visited files hfiles).elim (h.visited files) .inr

theorem fault_none (h : w.faults = Faults.none) (site : IoSite) : w.fault site = none := by
  rw [fault, h]
  rfl

theorem called_none (h : w.faults = Faults.none) (site : IoSite) : w.called site = w := by
  have hsame : Function.update w.faults site (w.faults site).tail = w.faults := by
    rw [h]
    exact Function.update_eq_self site Faults.none
  rw [called, hsame]

theorem Settled.contents (h : Settled w) :
    SortedMap.get? w.writer.file w.files = some (w.files.contents w.writer.file) ∧
      (w.files.contents w.writer.file).length = w.writer.bytesWritten := by
  obtain ⟨bytes, hbytes, hlen⟩ := h.active
  rw [SegmentFiles.contents, hbytes]
  exact ⟨rfl, hlen⟩

theorem Settled.grown_nil (h : Settled w) : w.grown [] = w.files := by
  rw [grown, append_nil, put_get? h.sorted h.contents.1]

/-- What a write at the end of the active file gets to after `k` bytes. -/
theorem Settled.wrote_end (h : Settled w) (bytes : Bytes) (k : ℕ) :
    w.wrote w.writer.file w.writer.bytesWritten bytes k = w.grown (bytes.take k) := by
  obtain ⟨-, hlen⟩ := h.contents
  rw [wrote, grown, writeAt, ← hlen, take_length,
    List.drop_eq_nil_of_le (Nat.le_add_right _ _), append_nil]

/-- A write that does not fail. -/
theorem write_ok (h : w.faults = Faults.none) (site : IoSite) (id : SegmentId) (offset : ℕ)
    (bytes : Bytes) :
    ∃ w', write site id offset bytes w = .ok () w' ∧
      w'.files = w.wrote id offset bytes bytes.length ∧ w'.state = w.state ∧
      Through (fun files => ∃ k ≤ bytes.length, files = w.wrote id offset bytes k) w w' := by
  refine ⟨{ w with
    files := w.wrote id offset bytes bytes.length
    visited := w.visited ++ (List.range bytes.length).map (w.wrote id offset bytes) ++
      [w.wrote id offset bytes bytes.length] }, ?_, rfl, rfl, rfl, rfl, h, fun files hmem => ?_⟩
  · simp only [write, fault_none h, called_none h, withFiles]
  · simp only [mem_append, mem_singleton, List.mem_map, List.mem_range] at hmem
    rcases hmem with (hmem | ⟨k, hk, rfl⟩) | rfl
    · exact .inl hmem
    · exact .inr ⟨k, hk.le, rfl⟩
    · exact .inr ⟨_, le_rfl, rfl⟩

theorem contents_append_cons {fs rest : SegmentFiles} {id : SegmentId} {file : Bytes}
    (hlt : ∀ entry ∈ fs, entry.1 < id) : (fs ++ (id, file) :: rest).contents id = file :=
  congrArg (Option.getD · []) (SortedMap.get?_append_cons _ hlt rest)

theorem get_run (w : Wal) : (get : WalM Wal) w = .ok w w := rfl

/-- A write to a file that is there. -/
theorem wrote_eq {fs rest : SegmentFiles} {id : SegmentId} {file : Bytes}
    (hfiles : w.files = fs ++ (id, file) :: rest) (hlt : ∀ entry ∈ fs, entry.1 < id) (offset : ℕ)
    (bytes : Bytes) (k : ℕ) :
    w.wrote id offset bytes k = fs ++ (id, writeAt offset (bytes.take k) file) :: rest := by
  rw [wrote, hfiles, contents_append_cons hlt]
  exact SortedMap.put_append_cons _ _ hlt rest

theorem sync_ok (h : w.faults = Faults.none) : sync w = .ok () w := by
  simp only [sync, fault_none h, called_none h]

theorem flushAndSync_ok (h : w.faults = Faults.none) (hpending : w.writer.pending = []) :
    flushAndSync w = .ok () w := by
  rw [flushAndSync, bind_run, flushBuffer, if_pos hpending]
  exact sync_ok h

theorem Wrote.refl (h : Settled w) (hfaults : w.faults = Faults.none) : Wrote w [] w :=
  ⟨.refl hfaults, rfl, [], rfl, append_nil _, h.grown_nil.symm⟩

theorem Wrote.file (h : Wrote w added w') : w'.writer.file = w.writer.file :=
  congrArg (fun s => s.activeWriter.file) h.state

theorem Wrote.header (h : Wrote w added w') : w'.writer.header = w.writer.header :=
  congrArg (fun s => s.activeWriter.header) h.state

theorem Wrote.contents (h : Wrote w added w') {more : Bytes} (hfiles : w'.files = w.grown more) :
    SortedMap.get? w'.writer.file w'.files = some (w.files.contents w.writer.file ++ more) := by
  rw [hfiles, h.file, grown, SortedMap.get?_put, if_pos rfl]

theorem Wrote.settled (h : Wrote w added w') (hw : Settled w) : Settled w' := by
  obtain ⟨more, hwritten, -, hfiles⟩ := h.moved
  refine ⟨?_, _, h.contents hfiles, ?_⟩
  · rw [hfiles]
    exact hw.sorted.put _ _
  · rw [length_append, hw.contents.2, hwritten]

/-- More bytes on top of more. -/
theorem Wrote.grown (h : Wrote w added w') (hw : Settled w) {more : Bytes}
    (hfiles : w'.files = w.grown more) (more' : Bytes) :
    w'.grown more' = w.grown (more ++ more') := by
  have hcontents : w'.files.contents w'.writer.file = w.files.contents w.writer.file ++ more := by
    rw [SegmentFiles.contents, h.contents hfiles, Option.getD_some]
  rw [Wal.grown, hcontents, hfiles, h.file, Wal.grown, Wal.grown, put_put hw.sorted,
    append_assoc]

theorem Wrote.trans (hw : Settled w) (h : Wrote w added w') (h' : Wrote w' added' w'') :
    Wrote w (added ++ added') w'' := by
  obtain ⟨more, hwritten, hpending, hfiles⟩ := h.moved
  obtain ⟨more', hwritten', hpending', hfiles'⟩ := h'.moved
  have hall : w.writer.pending ++ (added ++ added') = more ++ (w'.writer.pending ++ added') := by
    rw [← append_assoc, hpending, append_assoc]
  have hfirst := h.through.mono fun files ⟨pre, hpre, hgrown⟩ =>
    (⟨pre, hpre.trans (append_assoc .. ▸ List.prefix_append _ added'), hgrown⟩ :
      ∃ pre, pre <+: w.writer.pending ++ (added ++ added') ∧ files = w.grown pre)
  refine ⟨hfirst.trans (h'.through.mono ?_), ?_, more ++ more', ?_, ?_, ?_⟩
  · rintro files ⟨pre, hpre, rfl⟩
    refine ⟨more ++ pre, ?_, h.grown hw hfiles pre⟩
    rw [hall]
    exact (List.prefix_append_right_inj more).mpr hpre
  · have hwriter : w'.writer = { w.writer with
        bytesWritten := w'.writer.bytesWritten
        pending := w'.writer.pending } := congrArg WalState.activeWriter h.state
    rw [h'.state, h.state, hwriter]
  · rw [hwritten', hwritten, length_append, Nat.add_assoc]
  · rw [hall, hpending', append_assoc]
  · rw [hfiles', h.grown hw hfiles]

/-- The pending bytes are written. -/
theorem flushBuffer_wrote (h : Settled w) (hfaults : w.faults = Faults.none) (site : IoSite) :
    ∃ w', flushBuffer site w = .ok () w' ∧ Wrote w [] w' ∧ w'.writer.pending = [] ∧
      w'.state.nextLsn = w.state.nextLsn := by
  by_cases hnil : w.writer.pending = []
  · exact ⟨w, by rw [flushBuffer, if_pos hnil], Wrote.refl h hfaults, hnil, rfl⟩
  · obtain ⟨w₁, hrun, hfiles, hstate, hthrough⟩ :=
      write_ok hfaults site w.writer.file w.writer.bytesWritten w.writer.pending
    rw [h.wrote_end, take_length] at hfiles
    refine ⟨w₁.withWriter { w.writer with
      bytesWritten := w.writer.bytesWritten + w.writer.pending.length
      pending := [] }, ?_, ⟨?_, ?_, w.writer.pending, rfl, ?_, hfiles⟩, rfl, ?_⟩
    · rw [flushBuffer, if_neg hnil, hrun]
    · refine Through.mono (P := _) ⟨hthrough.1, hthrough.2, hthrough.3, hthrough.4⟩ ?_
      rintro files ⟨k, -, rfl⟩
      rw [append_nil]
      exact ⟨_, List.take_prefix k _, h.wrote_end _ _⟩
    · rw [withWriter, hstate]
      rfl
    · rw [append_nil]
      exact (append_nil _).symm
    · exact congrArg (fun s => s.nextLsn) hstate

/-- From a handle whose next LSN is `n`, `op` returns `a`, **writes** `added` and leaves the next
LSN `n'`. -/
def Writes {α : Type} (n : Lsn) (op : WalM α) (a : α) (added : Bytes) (n' : Lsn) : Prop :=
  ∀ w, Settled w → w.faults = Faults.none → w.writer.header.sealed = false →
    w.state.nextLsn = n → ∃ w', op w = .ok a w' ∧ Wrote w added w' ∧ w'.state.nextLsn = n'

section Writes

variable {α β : Type} {n n' n'' : Lsn}

theorem Writes.pure (n : Lsn) (a : α) : Writes n (pure a) a [] n :=
  fun w hw hfaults _ hn => ⟨w, rfl, .refl hw hfaults, hn⟩

theorem Writes.bind {op : WalM α} {next : α → WalM β} {a : α} {b : β}
    (h : Writes n op a added n') (h' : Writes n' (next a) b added' n'') :
    Writes n (op >>= next) b (added ++ added') n'' := by
  intro w hw hfaults hopen hn
  obtain ⟨w₁, hrun, hwrote, hlsn⟩ := h w hw hfaults hopen hn
  obtain ⟨w₂, hrun', hwrote', hlsn'⟩ := h' w₁ (hwrote.settled hw) hwrote.through.faults
    (hwrote.header ▸ hopen) hlsn
  refine ⟨w₂, ?_, hwrote.trans hw hwrote', hlsn'⟩
  rw [bind_run, hrun]
  exact hrun'

theorem flushBuffer_writes (n : Lsn) (site : IoSite) : Writes n (flushBuffer site) () [] n := by
  intro w hw hfaults _ hn
  obtain ⟨w', hrun, hwrote, -, hlsn⟩ := flushBuffer_wrote hw hfaults site
  exact ⟨w', hrun, hwrote, hlsn.trans hn⟩

theorem appendFrame_writes (n : Lsn) (bytes : Bytes) :
    Writes n (appendFrame (.ok bytes)) () bytes n := by
  intro w hw hfaults hopen hn
  refine ⟨w.withWriter { w.writer with pending := w.writer.pending ++ bytes }, ?_, ?_, hn⟩
  · simp only [appendFrame, hopen, Bool.false_eq_true, if_false]
  · exact ⟨⟨rfl, rfl, hfaults, fun _ => .inl⟩, rfl, [], rfl, rfl, hw.grown_nil.symm⟩

theorem allocLsn_writes {next : Lsn → WalM β} {b : β} (hroom : n + 1 < 2 ^ 64)
    (h : Writes (n + 1) (next n) b added n'') : Writes n (allocLsn >>= next) b added n'' := by
  refine Writes.bind (?_ : Writes n allocLsn n [] (n + 1)) h
  rintro w hw hfaults - rfl
  have hnext : checkedNext w.state.nextLsn = some (w.state.nextLsn + 1) := if_pos hroom
  refine ⟨w.withNextLsn (w.state.nextLsn + 1), ?_, ?_, rfl⟩
  · rw [allocLsn, hnext]
  · exact ⟨⟨rfl, rfl, hfaults, fun _ => .inl⟩, rfl, [], rfl, append_nil _, hw.grown_nil.symm⟩

end Writes

/-! ### A transaction -/

section Transaction

variable [Crc32] {zones : ZoneDb} {events : List MutationEvent} {batches : List (ℕ × ℕ)} {t n : Lsn}

theorem batchFrame_encode {chunk : List MutationEvent} {len : ℕ} {lsn : Lsn}
    (h : Batch zones chunk len) :
    encodeFrame .mutationBatch lsn t len (WalCodec.encodeEventsInto zones chunk) =
      .ok (batchFrame zones t lsn chunk).bytes := by
  obtain ⟨payload, hpayload, hlen, hmax⟩ := h
  refine encodeFrame_eq_ok.mpr ⟨payload, hpayload, hlen, ?_, ?_⟩
  · rw [RawRecord.encodedLen, hlen]
    exact hmax
  · rw [batchFrame, hpayload]
    rfl

omit [Crc32] in
theorem room_one {n k : ℕ} (h : n + (k + 1) < 2 ^ 64) : n + 1 < 2 ^ 64 := by omega

omit [Crc32] in
theorem room_rest {n k : ℕ} (h : n + (k + 1) < 2 ^ 64) : n + 1 + k < 2 ^ 64 := by omega

/-- The batches are appended, and written up to the last. -/
theorem appendBatches_writes {start stop : ℕ} (hplan : PlanTo zones events start batches stop)
    (hroom : n + batches.length < 2 ^ 64) (first : Bool) :
    Writes n (appendBatches zones events t first start batches) ()
      (framesBytes (batchFrames zones events t n start batches)) (n + batches.length) := by
  induction batches generalizing n start first with
  | nil => exact .pure n ()
  | cons batch batches ih =>
    obtain ⟨mid, len⟩ := batch
    obtain ⟨-, -, hbatch, hrest⟩ := hplan
    have hframe := appendFrame_writes (n + 1)
      (batchFrame zones t n (chunkOf events start mid)).bytes
    rw [← batchFrame_encode hbatch] at hframe
    have hcount : n + ((mid, len) :: batches).length = n + 1 + batches.length :=
      (Nat.succ_add_eq_add_succ _ _).symm
    rw [batchFrames, framesBytes_cons, hcount]
    have hbatches : Writes (n + 1) (_ >>= fun _ => _) () _ _ :=
      hframe.bind (ih hrest (room_rest hroom) false)
    -- the pending bytes are written in front of every batch but the first
    cases first with
    | true => exact allocLsn_writes (room_one hroom) hbatches
    | false =>
      exact (flushBuffer_writes n .batchWrite).bind (allocLsn_writes (room_one hroom) hbatches)

/-- A whole transaction is appended. -/
theorem appendTx_writes (h : Writable zones events batches n) :
    Writes n (appendTx zones events batches) (n + 1 + batches.length)
      (framesBytes (txFrames zones events n batches)) (n + batches.length + 2) := by
  have hroom : n + (batches.length + 1 + 1) < 2 ^ 64 := h.room
  have hmarker : ∀ (record : WalRecord) (n : Lsn), record.encode zones = .ok (record.raw []).bytes →
        Writes n (append zones record) () (record.raw []).bytes n := fun _ n hencode => by
    rw [append, hencode]
    exact appendFrame_writes n _
  have hbatches := appendBatches_writes (t := n) h.planned
    (Nat.lt_of_succ_lt (room_rest hroom)) true
  have hcount : n + 1 + batches.length + 1 = n + batches.length + 2 :=
    congrArg Nat.succ (Nat.succ_add _ _)
  rw [txFrames, framesBytes_cons, framesBytes_append, framesBytes_cons, framesBytes_nil, ← hcount]
  refine allocLsn_writes (room_one hroom) (.bind (hmarker (.txBegin n) _
    (encode_marker rfl rfl)) (.bind hbatches (allocLsn_writes (room_rest hroom) ?_)))
  exact .bind (hmarker (.txCommit (n + 1 + batches.length) n) _ (encode_marker rfl rfl)) (.pure _ _)

end Transaction

end Wal

/-! ### What a crash leaves -/

section Leaves

variable [Crc32] {zones : ZoneDb} {fence : Lsn} {files : SegmentFiles} {older : List Segment}
  {active : Segment} {torn : Bytes}

theorem Layout.base_lt (h : Layout zones fence files older active torn) : active.base < 2 ^ 64 :=
  (h.sound.orderly.below active (by simp)).1.trans_lt h.sound.orderly.word

/-- The header of a new segment reads back. -/
theorem SegmentHeader.decode_new {base : Lsn} (h : base < 2 ^ 64) :
    SegmentHeader.decode (SegmentHeader.new base).encode = .ok (SegmentHeader.new base) :=
  SegmentHeader.decode_encode rfl h

theorem Segment.headed_new {s : Segment} (h : s.base < 2 ^ 64) :
    s.Headed (SegmentHeader.new s.base).encode := by
  refine ⟨SegmentHeader.encode_length _, fun head hhead => ?_, fun head hhead hsealed => ?_⟩
  · rw [SegmentHeader.decode_new h] at hhead
    rw [← Except.ok.inj hhead]
    rfl
  · rw [SegmentHeader.decode_new h] at hhead
    rw [← Except.ok.inj hhead] at hsealed
    cases hsealed

theorem Layout.readHeader (h : Layout zones fence files older active torn) (torn : Bytes) :
    readHeader (active.file (SegmentHeader.new active.base).encode torn).2 =
      .ok (SegmentHeader.new active.base) := by
  rw [Disk.readHeader_file h.disk.headed, SegmentHeader.decode_new h.base_lt]

/-- The newest segment of a layout was born. -/
theorem Layout.discard (h : Layout zones fence files older active torn) :
    Wal.discardUnbornSegment files = files := by
  obtain ⟨fs, rfl, -⟩ := h.disk.files
  exact discardUnbornSegment_headed (h.readHeader torn)

/-- A directory that a crash may leave of a log that commits `txs`: when it is opened, a
segment without a header goes, and the rest is the log, with a torn frame at most. -/
def Leaves (zones : ZoneDb) (fence : Lsn) (files : SegmentFiles)
    (txs : List (List MutationEvent)) : Prop :=
  ∃ older active torn, Layout zones fence (Wal.discardUnbornSegment files) older active torn ∧
    committedIn zones (older ++ [active]) = txs

theorem Layout.leaves (h : Layout zones fence files older active torn) :
    Leaves zones fence files (committedIn zones (older ++ [active])) :=
  ⟨older, active, torn, h.discard.symm ▸ h, rfl⟩

end Leaves

/-! ### Starting a segment -/

namespace Wal

section Rotate

variable [Crc32] {zones : ZoneDb} {fence : Lsn} {older : List Segment} {active : Segment} {w : Wal}
  {id : SegmentId}

theorem Holds.files (h : Holds zones fence older active w) :
    ∃ fs, w.files = fs ++ [active.file (SegmentHeader.new active.base).encode []] ∧
      List.Forall₂ (fun s entry => ∃ header, s.Headed header ∧ entry = s.file header []) older fs ∧
      (∀ entry ∈ fs, entry.1 < active.id) := by
  obtain ⟨fs, hfiles, hfs⟩ := h.layout.disk.files
  exact ⟨fs, hfiles, hfs, h.layout.disk.older_lt h.layout.sound.orderly hfiles⟩

theorem Holds.sorted (h : Holds zones fence older active w) : SortedMap.Sorted w.files := by
  have hids := h.layout.sound.orderly.ids_lt
  rw [← List.pairwise_map, ← h.layout.disk.map_fst] at hids
  exact List.pairwise_map.mp hids

theorem Holds.settled (h : Holds zones fence older active w) : Settled w := by
  obtain ⟨fs, hfiles, -, hlt⟩ := h.files
  refine ⟨h.sorted, (active.file (SegmentHeader.new active.base).encode []).2, ?_, ?_⟩
  · rw [hfiles, h.writer]
    exact SortedMap.get?_append_cons _ hlt []
  · rw [h.writer]
    simp [Segment.file, Segment.size]

/-- A new segment behind the log, whatever a rewrite has made of the header before it. -/
theorem Holds.behind (h : Holds zones fence older active w) (hid : checkedNext active.id = some id)
    (hne : active.frames ≠ []) {header : Bytes} (hheaded : active.Headed header)
    {fs : SegmentFiles} (hfs : List.Forall₂ (fun s entry => ∃ header, s.Headed header ∧
      entry = s.file header []) older fs) :
    Layout zones fence (fs ++ [active.file header []] ++
      [(id, (SegmentHeader.new w.state.nextLsn).encode)]) (older ++ [active])
      ⟨id, w.state.nextLsn, []⟩ [] := by
  have hsound := h.layout.sound
  rw [← h.nextLsn] at hsound
  have hrotated := hsound.rotate hne hid
  have htight : w.state.nextLsn ≤ Disk.lsnAfter fence (older ++ [active]) := h.nextLsn.le
  refine ⟨⟨⟨fs ++ [active.file header []], ?_, ?_⟩, ?_, .inl rfl⟩, ?_, htight⟩
  · simp [Segment.file]
  · exact List.rel_append hfs (.cons ⟨header, hheaded, rfl⟩ .nil)
  · exact Segment.headed_new hsound.orderly.word
  · exact hrotated.tighten htight

/-- The file of the next segment is created. -/
theorem Holds.createSegment (h : Holds zones fence older active w)
    (hid : checkedNext active.id = some id) :
    ∃ w', Wal.createSegment id w.state.nextLsn w =
        .ok ⟨id, SegmentHeader.new w.state.nextLsn, SEGMENT_HEADER_LEN, []⟩ w' ∧
      w'.files = w.files ++ [(id, (SegmentHeader.new w.state.nextLsn).encode)] ∧
      w'.state = w.state ∧ Through (fun files =>
        (∃ bytes : Bytes, bytes.length < SEGMENT_HEADER_LEN ∧ files = w.files ++ [(id, bytes)]) ∨
          files = w.files ++ [(id, (SegmentHeader.new w.state.nextLsn).encode)]) w w' := by
  have hlt : ∀ entry ∈ w.files, entry.1 < id := by
    obtain ⟨fs, hfiles, -, hfs⟩ := h.files
    have hnext : active.id < id := checkedNext_eq_some hid ▸ Nat.lt_succ_self _
    rw [hfiles]
    exact List.forall_mem_append.mpr ⟨fun entry hentry => (hfs entry hentry).trans hnext,
      List.forall_mem_singleton.mpr hnext⟩
  have habsent : SortedMap.get? id w.files = none :=
    SortedMap.get?_eq_none.mpr fun entry hentry => (hlt entry hentry).ne
  have hcreate : createFile id w = .ok () (w.withFiles (w.files ++ [(id, [])])) := by
    simp only [createFile, habsent, fault_none h.faults, called_none h.faults,
      SortedMap.put_of_forall_lt hlt]
    rfl
  set header := (SegmentHeader.new w.state.nextLsn).encode with hheader
  have hlen : header.length = SEGMENT_HEADER_LEN := SegmentHeader.encode_length _
  obtain ⟨w', hrun, hfiles, hstate, hthrough⟩ :=
    write_ok (w := w.withFiles (w.files ++ [(id, [])])) h.faults .headerWrite id 0 header
  have hwrote : ∀ k, (w.withFiles (w.files ++ [(id, [])])).wrote id 0 header k =
      w.files ++ [(id, header.take k)] := fun k => by
    rw [wrote_eq rfl hlt]
    simp [writeAt]
  simp only [hwrote, take_length] at hfiles hthrough
  refine ⟨w', ?_, hfiles, hstate, hthrough.1, hthrough.2, hthrough.3, fun files hmem => ?_⟩
  · rw [Wal.createSegment, bind_run, hcreate]
    simp only [bind_run, ← hheader, hrun, sync_ok hthrough.faults]
    rfl
  · rcases hthrough.visited files hmem with hmem | ⟨k, hk, rfl⟩
    · rcases mem_append.mp hmem with hmem | hmem
      · exact .inl hmem
      · exact .inr (.inl ⟨[], by decide, mem_singleton.mp hmem⟩)
    · refine .inr ?_
      rcases hk.lt_or_eq with hlt | rfl
      · refine .inl ⟨header.take k, ?_, rfl⟩
        rw [List.length_take, ← hlen]
        omega
      · exact .inr (by rw [take_length])

/-- The active segment is sealed, with the next one there already. -/
theorem sealSegment_ok {fs rest : SegmentFiles} {old new : SegmentHeader}
    (hfaults : w.faults = Faults.none)
    (hfiles : w.files = fs ++ active.file old.encode [] :: rest)
    (hlt : ∀ entry ∈ fs, entry.1 < active.id)
    (hwriter : w.writer = ⟨active.id, old, active.size, []⟩) (hopen : old.sealed = false)
    (hnew : new = { old with sealed := true }) :
    ∃ w', sealSegment w = .ok () w' ∧
      w'.files = fs ++ active.file (tornHeader SEGMENT_HEADER_LEN old new) [] :: rest ∧
      w'.state = { w.state with activeWriter := { w.writer with header := new } } ∧
      Through (fun files => ∃ k, files = fs ++ active.file (tornHeader k old new) [] :: rest)
        w w' := by
  have hflush := flushAndSync_ok hfaults (by rw [hwriter])
  have hlen : new.encode.length = SEGMENT_HEADER_LEN := SegmentHeader.encode_length _
  obtain ⟨w₁, hw₁⟩ : ∃ w₁, w₁ = w.withWriter { w.writer with header := new } := ⟨_, rfl⟩
  have hfiles₁ : w₁.files = fs ++ active.file old.encode [] :: rest := by rw [hw₁]; exact hfiles
  obtain ⟨w', hrun, hfiles', hstate, hthrough⟩ :=
    write_ok (w := w₁) (by rw [hw₁]; exact hfaults) .sealWrite active.id 0 new.encode
  have hwrote : ∀ k ≤ SEGMENT_HEADER_LEN, w₁.wrote active.id 0 new.encode k =
      fs ++ active.file (tornHeader k old new) [] :: rest := by
    intro k hk
    have hdrop : (old.encode ++ (framesBytes active.frames ++ [])).drop k =
        old.encode.drop k ++ (framesBytes active.frames ++ []) :=
      List.drop_append_of_le_length (by rw [SegmentHeader.encode_length]; exact hk)
    have htaken : (new.encode.take k).length = k := by
      rw [List.length_take, hlen]
      exact Nat.min_eq_left hk
    rw [wrote_eq hfiles₁ hlt, writeAt, htaken, Nat.zero_add, hdrop]
    simp [Segment.file, tornHeader]
  rw [hlen] at hfiles' hthrough
  rw [hw₁] at hstate hthrough
  refine ⟨w', ?_, hfiles'.trans (hwrote _ le_rfl), hstate,
    hthrough.1, hthrough.2, hthrough.3, fun files hmem => ?_⟩
  · have hmodify : (modify fun w => w.withWriter { w.writer with
        header := { w.writer.header with sealed := true } } : WalM PUnit) w = .ok ⟨⟩ w₁ := by
      have hheader : w.writer.header = old := congrArg (·.header) hwriter
      rw [hw₁, hnew, ← hheader]
      rfl
    have hheader : w₁.writer.header = new := by rw [hw₁]; rfl
    have hfile : w₁.writer.file = active.id := by rw [hw₁]; exact congrArg (·.file) hwriter
    have hunsealed : w.writer.header.sealed = false := by rw [hwriter]; exact hopen
    rw [sealSegment]
    simp only [hunsealed, Bool.false_eq_true, if_false, bind_run, hflush, hmodify, get_run, hheader,
      hfile, hrun, sync_ok hthrough.faults]
  · rcases hthrough.visited files hmem with hmem | ⟨k, hk, rfl⟩
    · exact .inl hmem
    · exact .inr ⟨k, hw₁ ▸ hwrote k hk⟩

theorem tornHeader_len (old new : SegmentHeader) :
    tornHeader SEGMENT_HEADER_LEN old new = new.encode := by
  rw [tornHeader, List.take_of_length_le (SegmentHeader.encode_length new).le,
    List.drop_eq_nil_of_le (SegmentHeader.encode_length old).le, append_nil]

/-- A header caught while it is being sealed is still the segment's. -/
theorem Holds.headed_torn (h : Holds zones fence older active w)
    (hid : checkedNext active.id = some id) (k : ℕ) :
    active.Headed (tornHeader k (SegmentHeader.new active.base)
      { SegmentHeader.new active.base with sealed := true }) := by
  refine ⟨tornHeader_length _ _ _, fun head hhead => ?_, fun _ _ _ => by rw [hid]; rfl⟩
  have hfixed : ({ SegmentHeader.new active.base with sealed := true } : SegmentHeader).fixed =
      (SegmentHeader.new active.base).fixed := rfl
  exact SegmentHeader.decode_torn_baseLsn hfixed h.layout.base_lt hhead

/-- A commit may start in a new segment; a crash on the way loses nothing. -/
theorem Holds.rotate (h : Holds zones fence older active w)
    (htarget : SEGMENT_HEADER_LEN < w.segmentTargetBytes)
    (hid : w.bytesWritten < w.segmentTargetBytes ∨ active.id + 1 < 2 ^ 64) :
    ∃ older' active' w', maybeRotate w = .ok () w' ∧ Holds zones fence older' active' w' ∧
      committedIn zones (older' ++ [active']) = committedIn zones (older ++ [active]) ∧
      w'.state.nextLsn = w.state.nextLsn ∧
      Through (Leaves zones fence · (committedIn zones (older ++ [active]))) w w' := by
  by_cases hfull : w.bytesWritten < w.segmentTargetBytes
  · refine ⟨older, active, w, ?_, h, rfl, rfl, .refl h.faults⟩
    rw [maybeRotate, if_pos hfull]
  · obtain ⟨fs, hfiles, hfs, hlt⟩ := h.files
    have hnext : checkedNext active.id = some (active.id + 1) := if_pos (hid.resolve_left hfull)
    have hne : active.frames ≠ [] := by
      intro hnil
      rw [bytesWritten, h.writer] at hfull
      simp only [Segment.size, hnil, framesBytes_nil, List.length_nil] at hfull
      omega
    have hflush := flushAndSync_ok h.faults (by rw [h.writer])
    obtain ⟨w₁, hrun₁, hfiles₁, hstate₁, hthrough₁⟩ := h.createSegment hnext
    rw [hfiles, append_assoc, List.singleton_append] at hfiles₁
    obtain ⟨w₂, hrun₂, hfiles₂, hstate₂, hthrough₂⟩ := sealSegment_ok hthrough₁.faults hfiles₁ hlt
      ((congrArg WalState.activeWriter hstate₁).trans h.writer) rfl rfl
    have hcommitted : committedIn zones (older ++ [active] ++
        [⟨active.id + 1, w.state.nextLsn, []⟩]) = committedIn zones (older ++ [active]) :=
      committedIn_new ..
    have hbehind : ∀ {header : Bytes}, active.Headed header →
        Layout zones fence (fs ++ active.file header [] ::
          [(active.id + 1, (SegmentHeader.new w.state.nextLsn).encode)]) (older ++ [active])
          ⟨active.id + 1, w.state.nextLsn, []⟩ [] := fun hheaded => by
      have hlayout := h.behind hnext hne hheaded hfs
      rwa [append_assoc, List.singleton_append] at hlayout
    have hleaves : ∀ {header : Bytes}, active.Headed header →
        Leaves zones fence (fs ++ active.file header [] ::
          [(active.id + 1, (SegmentHeader.new w.state.nextLsn).encode)])
          (committedIn zones (older ++ [active])) :=
      fun hheaded => hcommitted ▸ (hbehind hheaded).leaves
    have hcreated := hthrough₁.mono (Q := (Leaves zones fence · (committedIn zones
      (older ++ [active])))) fun files => by
        rintro (⟨bytes, hbytes, rfl⟩ | rfl)
        · have hdiscard : discardUnbornSegment (w.files ++ [(active.id + 1, bytes)]) = w.files :=
            discardUnbornSegment_short hbytes
          exact ⟨older, active, [], hdiscard.symm ▸ h.layout, rfl⟩
        · rw [hfiles, append_assoc]
          exact hleaves (Segment.headed_new h.layout.base_lt)
    have hthrough := hcreated.trans (hthrough₂.mono fun files => by
      rintro ⟨k, rfl⟩
      exact hleaves (h.headed_torn hnext k))
    refine ⟨older ++ [active], ⟨active.id + 1, w.state.nextLsn, []⟩, { w₂ with state :=
      { w₂.state with
        activeWriter := ⟨active.id + 1, SegmentHeader.new w.state.nextLsn, SEGMENT_HEADER_LEN, []⟩
        activeSegmentId := active.id + 1 } }, ?_, ⟨?_, ?_, ?_, rfl, ?_, hthrough.faults⟩,
      hcommitted, ?_, ⟨hthrough.1, hthrough.2, hthrough.3, hthrough.4⟩⟩
    · rw [maybeRotate, if_neg hfull]
      have hsync := sync_ok hthrough₁.faults
      simp only [bind_run, hflush, get_run, h.activeSegmentId, hnext]
      refine (bind_run _ _ w).trans ?_
      simp only [hrun₁, hsync, hrun₂]
    · show Layout zones fence w₂.files _ _ _
      rw [hfiles₂]
      exact hbehind (h.headed_torn hnext _)
    · intro entry hentry
      have hentry : entry ∈ w₂.files := hentry
      rw [hfiles₂, mem_append, List.mem_cons, mem_singleton] at hentry
      rcases hentry with hentry | rfl | rfl
      · exact h.headers entry (by rw [hfiles]; exact List.mem_append_left _ hentry)
      · rw [Disk.readHeader_file (h.headed_torn hnext _), tornHeader_len]
        exact ⟨_, SegmentHeader.decode_encode rfl h.layout.base_lt⟩
      · refine ⟨SegmentHeader.new w.state.nextLsn, ?_⟩
        rw [← append_nil (SegmentHeader.new w.state.nextLsn).encode,
          readHeader_append (SegmentHeader.encode_length _)]
        exact SegmentHeader.decode_new (h.nextLsn ▸ h.layout.sound.orderly.word)
    · show w₂.state.nextLsn = _
      rw [hstate₂, hstate₁, Disk.lsnAfter, lastLsn_append]
      exact h.nextLsn
    · rfl
    · show w₂.state.nextLsn = _
      rw [hstate₂, hstate₁]

end Rotate

/-! ### Committing -/

section Commit

variable [Crc32] {zones : ZoneDb} {fence : Lsn} {older : List Segment} {active : Segment}
  {w w' : Wal} {events : List MutationEvent} {batches : List (ℕ × ℕ)}

theorem Holds.grown_eq (h : Holds zones fence older active w) {fs : SegmentFiles}
    (hfiles : w.files = fs ++ [active.file (SegmentHeader.new active.base).encode []])
    (hlt : ∀ entry ∈ fs, entry.1 < active.id) (more : Bytes) :
    w.grown more = fs ++ [active.file (SegmentHeader.new active.base).encode more] := by
  rw [Wal.grown, h.writer, hfiles, Segment.file, contents_append_cons hlt]
  refine (SortedMap.put_append_cons _ _ hlt []).trans ?_
  simp [Segment.file]

/-- Part of a transaction behind the log, with a torn frame at most. -/
theorem Holds.grown (h : Holds zones fence older active w)
    (hw : Writable zones events batches w.state.nextLsn) {frames : List RawRecord} {torn : Bytes}
    (hp : frames <+: txFrames zones events w.state.nextLsn batches) (htorn : Torn torn) :
    Layout zones fence (w.grown (framesBytes frames ++ torn)) older (active.append frames)
      torn := by
  obtain ⟨fs, hfiles, hfs, hlt⟩ := h.files
  have hsound := h.layout.sound
  rw [← h.nextLsn] at hsound
  have hcut := (hsound.append hw).cut ((List.prefix_append_right_inj active.frames).mpr hp)
  refine ⟨⟨⟨fs, ?_, hfs⟩, ?_, htorn⟩, hcut.tighten h.layout.tight, h.layout.tight⟩
  · rw [h.grown_eq hfiles hlt]
    simp [Segment.file, framesBytes_append]
  · exact Segment.headed_new h.layout.base_lt

/-- Every directory on the way of a write of a transaction. -/
theorem Holds.grown_leaves (h : Holds zones fence older active w)
    (hw : Writable zones events batches w.state.nextLsn) {pre : Bytes}
    (hp : pre <+: framesBytes (txFrames zones events w.state.nextLsn batches)) :
    Leaves zones fence (w.grown pre) (committedIn zones (older ++ [active])) ∨
      Leaves zones fence (w.grown pre) (committedIn zones (older ++ [active]) ++ [events]) := by
  set frames := txFrames zones events w.state.nextLsn batches with hframes
  have hcut := take_framesBytes pre.length frames
  rw [← List.prefix_iff_eq_take.mp hp] at hcut
  have htorn : Torn (tornAfter pre.length frames) := by
    refine (tornAfter_cases pre.length frames).imp_right ?_
    rintro ⟨f, hf, hproper⟩
    exact ⟨f, hw.fits f hf, hproper⟩
  have hwithin := framesWithin_prefix pre.length frames
  have hlayout := (h.grown hw hwithin htorn).leaves
  rw [← hcut] at hlayout
  rcases hw.committedIn_cut hwithin with hall | hnone
  · rw [hall] at hlayout
    exact .inr hlayout
  · rw [hnone] at hlayout
    exact .inl hlayout

/-- The log after a whole transaction was written. -/
theorem Holds.wrote (h : Holds zones fence older active w)
    (hw : Writable zones events batches w.state.nextLsn)
    (hwrote : Wrote w (framesBytes (txFrames zones events w.state.nextLsn batches)) w')
    (hpending : w'.writer.pending = [])
    (hnext : w'.state.nextLsn = w.state.nextLsn + batches.length + 2) :
    Holds zones fence older (active.append (txFrames zones events w.state.nextLsn batches)) w' := by
  obtain ⟨more, hwritten, hmore, hgrown⟩ := hwrote.moved
  rw [h.writer, List.nil_append, hpending, append_nil] at hmore
  have hlayout := h.grown hw List.prefix_rfl (.inl rfl)
  rw [append_nil, hmore, ← hgrown] at hlayout
  refine ⟨hlayout, ?_, ?_, ?_, ?_, hwrote.through.faults⟩
  · obtain ⟨fs, hfiles, -, hlt⟩ := h.files
    have hheaders := h.headers
    rw [hfiles] at hheaders
    rw [hgrown, h.grown_eq hfiles hlt]
    refine List.forall_mem_append.mpr ⟨fun entry hentry =>
      hheaders entry (List.mem_append_left _ hentry), List.forall_mem_singleton.mpr ?_⟩
    exact ⟨_, h.layout.readHeader more⟩
  · have hfence : fence ≤ w.state.nextLsn + 1 + batches.length := by
      have habove := h.layout.sound.orderly.above active (by simp)
      have hbelow := (h.layout.sound.orderly.below active (by simp)).1
      rw [← h.nextLsn] at hbelow
      exact (habove.le.trans hbelow).trans (Nat.le_add_right_of_le (Nat.le_succ _))
    have hlast : lastLsn
        (older ++ [active.append (txFrames zones events w.state.nextLsn batches)]) =
          w.state.nextLsn + 1 + batches.length := by
      rw [lastLsn_append, Segment.append_frames, List.getLast?_append, txFrames_eq,
        List.getLast?_concat]
      rfl
    rw [hnext, Disk.lsnAfter, hlast, Nat.max_eq_left hfence]
    exact congrArg Nat.succ (Nat.succ_add _ _).symm
  · rw [hwrote.state]
    exact h.activeSegmentId
  · have hwriter : w'.writer = _ := congrArg WalState.activeWriter hwrote.state
    rw [hwriter, hwritten, hpending, h.writer]
    simp only [Segment.size, Segment.append_frames, framesBytes_append, length_append, ← hmore,
      Nat.add_assoc]
    rfl

/-- A commit adds its transaction to the log; a crash on the way leaves the log with it or
without it. -/
theorem Holds.commit (h : Holds zones fence older active w) (hne : events ≠ [])
    (hloggable : Loggable events)
    (hplan : Wal.planBatches zones w.batchTargetBytes events = .ok batches)
    (hroom : w.state.nextLsn + batches.length + 2 < 2 ^ 64)
    (htarget : SEGMENT_HEADER_LEN < w.segmentTargetBytes)
    (hid : w.bytesWritten < w.segmentTargetBytes ∨ active.id + 1 < 2 ^ 64) :
    ∃ older' active' w', commitTxEvents zones events w =
        .ok (some (w.state.nextLsn + 1 + batches.length)) w' ∧
      Holds zones fence older' active' w' ∧
      committedIn zones (older' ++ [active']) = committedIn zones (older ++ [active]) ++ [events] ∧
      Through (fun files => Leaves zones fence files (committedIn zones (older ++ [active])) ∨
        Leaves zones fence files (committedIn zones (older ++ [active]) ++ [events])) w w' := by
  obtain ⟨older', active', w₁, hrun₁, h₁, hcommitted, hlsn₁, hthrough₁⟩ := h.rotate htarget hid
  have hwritable : Writable zones events batches w₁.state.nextLsn :=
    ⟨hloggable, (planBatches_planned hplan).1, by rw [hlsn₁]; exact hroom⟩
  have hopen₁ : w₁.writer.header.sealed = false := by rw [h₁.writer]; rfl
  obtain ⟨w₂, hrun₂, hwrote₂, hlsn₂⟩ := appendTx_writes hwritable w₁ h₁.settled h₁.faults hopen₁ rfl
  have hsettled₂ := hwrote₂.settled h₁.settled
  obtain ⟨w₃, hrun₃, hwrote₃, hpending₃, hlsn₃⟩ :=
    flushBuffer_wrote hsettled₂ hwrote₂.through.faults .commitWrite
  have hwrote := hwrote₂.trans h₁.settled hwrote₃
  rw [append_nil] at hwrote
  have h₃ := h₁.wrote hwritable hwrote hpending₃ (hlsn₃.trans hlsn₂)
  refine ⟨older', _, w₃, ?_, h₃, ?_, (hthrough₁.mono fun _ => .inl).trans
    (hwrote.through.mono ?_)⟩
  · have hflush : flushInner .perConfiguredMode w₂ = .ok () w₃ := by
      rw [flushInner, bind_run, hrun₃]
      rfl
    rw [commitTxEvents, if_neg hne, hplan]
    simp only [bind_run, hrun₁, get_run]
    refine (bind_run _ _ w₁).trans ?_
    simp only [hrun₂, hlsn₁, bind_run, hflush]
    rfl
  · rw [hwritable.committedIn_append, hcommitted]
  · rintro files ⟨pre, hpre, rfl⟩
    rw [h₁.writer, List.nil_append] at hpre
    rw [← hcommitted]
    exact h₁.grown_leaves hwritable hpre

/-! ### What a commit that succeeds has found -/

omit [Crc32] in
theorem allocLsn_eq_ok {lsn : Lsn} (h : allocLsn w = .ok lsn w') :
    w'.state.nextLsn = w.state.nextLsn + 1 ∧ w'.state.nextLsn < 2 ^ 64 := by
  rw [allocLsn, checkedNext] at h
  by_cases hroom : w.state.nextLsn + 1 < 2 ^ 64
  · rw [if_pos hroom] at h
    cases h
    exact ⟨rfl, hroom⟩
  · rw [if_neg hroom] at h
    cases h

omit [Crc32] in
theorem appendFrame_eq_ok {frame : Except WalError Bytes} (h : appendFrame frame w = .ok () w') :
    w'.state.nextLsn = w.state.nextLsn := by
  unfold appendFrame at h
  split at h
  · cases h
  · cases frame with
    | error err => cases h
    | ok bytes =>
      cases h
      rfl

omit [Crc32] in
theorem flushBuffer_eq_ok {site : IoSite} (h : flushBuffer site w = .ok () w') :
    w'.state.nextLsn = w.state.nextLsn := by
  unfold flushBuffer at h
  split at h
  · cases h
    rfl
  · rw [write] at h
    cases hfault : w.fault site with
    | some k =>
      rw [hfault] at h
      cases h
    | none =>
      rw [hfault] at h
      cases h
      rfl

omit [Crc32] in
theorem bind_run_eq_ok {α β : Type} {op : WalM α} {next : α → WalM β} {b : β}
    (h : (op >>= next) w = .ok b w') : ∃ a w₁, op w = .ok a w₁ ∧ next a w₁ = .ok b w' := by
  rw [bind_run] at h
  cases hop : op w with
  | error err w₁ =>
    rw [hop] at h
    cases h
  | ok a w₁ =>
    rw [hop] at h
    exact ⟨a, w₁, rfl, h⟩

theorem appendBatches_eq_ok {t : Lsn} {first : Bool} {start : ℕ}
    (h : appendBatches zones events t first start batches w = .ok () w') :
    w'.state.nextLsn = w.state.nextLsn + batches.length := by
  induction batches generalizing w first start with
  | nil =>
    cases h
    rfl
  | cons batch batches ih =>
    obtain ⟨mid, len⟩ := batch
    obtain ⟨w₁, hlsn₁, h⟩ : ∃ w₁, w₁.state.nextLsn = w.state.nextLsn ∧ (do
        let lsn ← allocLsn
        appendFrame (encodeFrame .mutationBatch lsn t len
          (WalCodec.encodeEventsInto zones (chunkOf events start mid)))
        appendBatches zones events t false mid batches : WalM Unit) w₁ = .ok () w' := by
      rw [appendBatches] at h
      cases first with
      | true => exact ⟨w, rfl, h⟩
      | false =>
        obtain ⟨_, w₁, hflush, h⟩ := bind_run_eq_ok h
        exact ⟨w₁, flushBuffer_eq_ok hflush, h⟩
    obtain ⟨lsn, w₂, halloc, h⟩ := bind_run_eq_ok h
    obtain ⟨_, w₃, hframe, h⟩ := bind_run_eq_ok h
    rw [ih h, appendFrame_eq_ok hframe, (allocLsn_eq_ok halloc).1, hlsn₁, List.length_cons]
    exact Nat.succ_add_eq_add_succ _ _

/-- A transaction that was appended had the LSNs for it. -/
theorem appendTx_room {lsn : Lsn} (h : appendTx zones events batches w = .ok lsn w') :
    w.state.nextLsn + batches.length + 2 < 2 ^ 64 := by
  rw [appendTx] at h
  obtain ⟨t, w₁, halloc₁, h⟩ := bind_run_eq_ok h
  obtain ⟨_, w₂, hbegin, h⟩ := bind_run_eq_ok h
  obtain ⟨_, w₃, hbatches, h⟩ := bind_run_eq_ok h
  obtain ⟨_, w₄, halloc₄, -⟩ := bind_run_eq_ok h
  obtain ⟨hlsn₄, hroom⟩ := allocLsn_eq_ok halloc₄
  rw [hlsn₄, appendBatches_eq_ok hbatches, appendFrame_eq_ok hbegin, (allocLsn_eq_ok halloc₁).1]
    at hroom
  exact (congrArg Nat.succ (Nat.succ_add _ _)).symm.trans_lt hroom

/-- What a commit that succeeds has found: something to write, and the numbers for it. -/
theorem Holds.commit_eq_ok (h : Holds zones fence older active w)
    (htarget : SEGMENT_HEADER_LEN < w.segmentTargetBytes) {lsn : Lsn}
    (hrun : commitTxEvents zones events w = .ok (some lsn) w') :
    ∃ batches, events ≠ [] ∧ Wal.planBatches zones w.batchTargetBytes events = .ok batches ∧
      w.state.nextLsn + batches.length + 2 < 2 ^ 64 ∧
      (w.bytesWritten < w.segmentTargetBytes ∨ active.id + 1 < 2 ^ 64) := by
  have hne : events ≠ [] := by
    rintro rfl
    cases hrun
  rw [commitTxEvents, if_neg hne] at hrun
  cases hplan : Wal.planBatches zones w.batchTargetBytes events with
  | error err =>
    rw [hplan] at hrun
    cases hrun
  | ok batches =>
    rw [hplan] at hrun
    obtain ⟨_, w₁, hrotate, hrun⟩ := bind_run_eq_ok hrun
    have hid : w.bytesWritten < w.segmentTargetBytes ∨ active.id + 1 < 2 ^ 64 := by
      by_contra hnone
      obtain ⟨hfull, hid⟩ := not_or.mp hnone
      have hflush := flushAndSync_ok h.faults (by rw [h.writer])
      have hnext : checkedNext active.id = none := if_neg hid
      rw [maybeRotate, if_neg hfull] at hrotate
      simp only [bind_run, hflush, get_run, h.activeSegmentId, hnext] at hrotate
      cases hrotate
    obtain ⟨older', active', w₁', hrotate', -, -, hlsn, -⟩ := h.rotate htarget hid
    obtain rfl : w₁' = w₁ := by
      rw [hrotate'] at hrotate
      cases hrotate
      rfl
    obtain ⟨_, w₂, hget, hrun⟩ := bind_run_eq_ok hrun
    cases hget
    obtain ⟨commitLsn, w₃, happend, -⟩ := bind_run_eq_ok hrun
    refine ⟨batches, hne, rfl, ?_, hid⟩
    rw [← hlsn]
    split at happend
    · next hrun => exact appendTx_room hrun
    · split at happend <;> cases happend

end Commit

end Wal

end LoraDb
