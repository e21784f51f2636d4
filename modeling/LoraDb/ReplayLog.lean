import LoraDb.Replay
import LoraDb.SegmentFile

/-!
# Replaying a Log Directory

Replay reads the segment files of a directory in order, frame by frame, and feeds every
record to the replay state machine. A bad frame is a **torn tail** only in the newest
segment, unsealed, with nothing valid after it; anywhere else it is corruption, and the
replay fails rather than cut off what follows.

## Main results

* `replayFrames_append`: intact frames are records for the state machine.
* `replayFrames_torn`: what a proper prefix of a frame at the end of a file leads to.
-/

open ByteCodec

namespace LoraDb

open List

/-- The segment files of a log directory, in ascending order. -/
abbrev SegmentFiles := List (SegmentId × Bytes)

/-- The successor of a machine word, unless it was the last. -/
def checkedNext (n : ℕ) : Option ℕ := if n + 1 < 2 ^ 64 then some (n + 1) else none

/-- Where the well-formed part of the newest segment ends. -/
structure TornTailInfo where
  segmentPath : SegmentId
  lastGoodOffset : ℕ
  cause : WalError

structure ReplayOutcome where
  maxLsn : Lsn
  tornTail : Option TornTailInfo
  checkpointLsnObserved : Option Lsn
  lastGoodOffset : ℕ

/-- Segments are only ever removed from the front, so a hole in the numbers means one was
lost. -/
def checkSegmentIdsContiguous : SegmentFiles → Except WalError Unit
  | (prev, _) :: (next, file) :: rest =>
    if checkedNext prev ≠ some next then
      .error (.gap
        (s!"segment {prev} is followed by {next}; the segments between them are " ++ "missing"))
    else checkSegmentIdsContiguous ((next, file) :: rest)
  | _ => .ok ()

/-- What lies before the oldest segment must be covered by the snapshot. -/
def checkLogStart (base checkpointLsn : Lsn) (path : SegmentId) : Except WalError Unit :=
  if checkpointLsn < base - 1 then
    .error (.gap
      (s!"the oldest segment {path} starts at LSN {base} but the snapshot covers only up " ++
        s!"to LSN {checkpointLsn}; open with the snapshot taken when the older segments " ++
          "were removed"))
  else .ok ()

/-- Lift an error that leaves the sink as it is. -/
def ReplayState.lift {σ α : Type} (st : ReplayState σ) (x : Except WalError α) : ReplayResult σ α :=
  match x with
  | .ok a => .ok a
  | .error err => st.fail err

section Replay

variable [Crc32] (zones : ZoneDb) {σ : Type} (sink : ReplaySink σ) (budget : ℕ)

/-- Replay the frames of `file` from `position` on. `fuel` bounds how many are left: a frame
takes at least one byte. Gives the offset after the last good frame, and the torn tail if
there is one. -/
def replayFrames (file : Bytes) (base checkpointLsn : Lsn) (path : SegmentId)
    (mayHaveTornTail isSealed : Bool) :
    ℕ → ℕ → ReplayState σ → ReplayResult σ (ReplayState σ × ℕ × Option TornTailInfo)
  | 0, position, st => .ok (st, position, none)
  | fuel + 1, position, st =>
    match RawRecord.read (file.drop position) with
    | .ok none => .ok (st, position, none)
    | .ok (some (raw, _)) =>
      match raw.decodeForReplay zones with
      | .error err => st.fail (.corrupt path position err.message)
      | .ok record => do
        let st ← st.acceptRecord sink budget record raw.encodedLen base checkpointLsn path
        replayFrames file base checkpointLsn path mayHaveTornTail isSealed fuel
          (position + raw.encodedLen) st
    | .error .io => st.fail .io
    | .error cause =>
      if mayHaveTornTail then
        match findValidFrameAfter file position st.lastLsn with
        | some i =>
          st.fail (.corrupt path position
            (cause.message ++ s!"; a valid record follows at byte {i}, " ++
              "so this is not a torn tail"))
        | none => .ok (st, position, some ⟨path, position, cause⟩)
      else
        let place :=
          if isSealed then "a sealed segment" else "a segment that is not the newest"
        st.fail (.corrupt path position (cause.message ++ " in " ++ place))

/-- Replay the files in order; a torn tail ends the log. -/
def replayFiles (checkpointLsn : Lsn) :
    SegmentFiles → ReplayState σ × ℕ → ReplayResult σ (ReplayState σ × ℕ × Option TornTailInfo)
  | [], (st, lastGoodOffset) => .ok (st, lastGoodOffset, none)
  | (path, file) :: rest, (st, _) => do
    let header ← st.lift (readHeader file)
    let st ← st.validateSegment header.baseLsn path
    let (st, position, torn) ← replayFrames zones sink budget file header.baseLsn
      checkpointLsn path (rest.isEmpty && !header.sealed) header.sealed file.length
      SEGMENT_HEADER_LEN st
    match torn with
    | some torn => .ok (st, position, some torn)
    | none => replayFiles checkpointLsn rest (st, position)

/-- The check on the oldest segment, made when its header has been read. -/
def checkOldest (checkpointLsn : Lsn) : SegmentFiles → Except WalError Unit
  | [] => .ok ()
  | (path, file) :: _ => do
    let header ← readHeader file
    checkLogStart header.baseLsn checkpointLsn path

/-- Replay a log directory into a sink. -/
def replaySegments (checkpointLsn : Lsn) (init : σ) (files : SegmentFiles) :
    ReplayResult σ (ReplayOutcome × σ) := do
  let st := ReplayState.new init
  st.lift (checkSegmentIdsContiguous files)
  st.lift (checkOldest checkpointLsn files)
  let (st, lastGoodOffset, tornTail) ← replayFiles zones sink budget checkpointLsn files
    (st, SEGMENT_HEADER_LEN)
  let st ← st.finish sink
  .ok (⟨st.maxLsn, tornTail, st.checkpointLsnObserved, lastGoodOffset⟩, st.sink)

end Replay

/-! ### Intact frames -/

variable [Crc32]

/-- The bytes of a run of frames. -/
def framesBytes (frames : List RawRecord) : Bytes := frames.flatMap RawRecord.bytes

@[simp] theorem framesBytes_nil : framesBytes [] = [] := rfl

@[simp] theorem framesBytes_cons (raw : RawRecord) (frames : List RawRecord) :
    framesBytes (raw :: frames) = raw.bytes ++ framesBytes frames := by
  simp [framesBytes]

@[simp] theorem framesBytes_append (frames frames' : List RawRecord) :
    framesBytes (frames ++ frames') = framesBytes frames ++ framesBytes frames' := by
  simp [framesBytes]

/-- A frame and the record it decodes to, with its size. -/
structure FrameOf (zones : ZoneDb) (raw : RawRecord) (record : WalRecord × ℕ) : Prop where
  fits : raw.Fits
  decodes : raw.decodeForReplay zones = .ok record.1
  len : record.2 = raw.encodedLen

section Intact

variable {zones : ZoneDb} {σ : Type} {sink : ReplaySink σ} {budget : ℕ} {file : Bytes}
  {base checkpointLsn : Lsn} {path : SegmentId} {mayHaveTornTail isSealed : Bool}

theorem framesBytes_length (frames : List RawRecord) :
    frames.length ≤ (framesBytes frames).length := by
  induction frames with
  | nil => simp
  | cons raw frames ih =>
    have hpos := raw.encodedLen_pos
    have htwo : 1 ≤ RECORD_HEADER_LEN := by decide
    simp only [framesBytes_cons, length_append, RawRecord.bytes_length, length_cons]
    omega

variable {frames : List RawRecord} {position fuel : ℕ}

/-- Intact frames are records for the state machine; what follows them is read next. -/
theorem replayFrames_append {records : List (WalRecord × ℕ)}
    (hrec : Forall₂ (FrameOf zones) frames records) {rest : Bytes}
    (hfile : file.drop position = framesBytes frames ++ rest) (st : ReplayState σ) :
    replayFrames zones sink budget file base checkpointLsn path mayHaveTornTail isSealed
        (fuel + frames.length) position st =
      (do
        let st ← st.acceptRecords sink budget checkpointLsn base path records
        replayFrames zones sink budget file base checkpointLsn path mayHaveTornTail isSealed
          fuel (position + (framesBytes frames).length) st) := by
  induction hrec generalizing position st with
  | nil => rfl
  | @cons raw record frames records hraw hrec ih =>
    obtain ⟨record, len⟩ := record
    obtain ⟨hfits, hdecodes, rfl⟩ := hraw
    have hread : RawRecord.read (file.drop position) =
        .ok (some (raw, framesBytes frames ++ rest)) := by
      rw [hfile, framesBytes_cons, append_assoc, RawRecord.read_append hfits]
    have hnext : file.drop (position + raw.encodedLen) = framesBytes frames ++ rest := by
      rw [← drop_drop, hfile, framesBytes_cons, append_assoc, drop_left' raw.bytes_length]
    simp only [length_cons, ← Nat.add_assoc, replayFrames, hread, hdecodes,
      ReplayState.acceptRecords, bind, Except.bind]
    cases st.acceptRecord sink budget record raw.encodedLen base checkpointLsn path with
    | error e => rfl
    | ok st' =>
      dsimp only
      rw [ih hnext st']
      simp only [bind, Except.bind, framesBytes_cons, length_append,
        RawRecord.bytes_length, Nat.add_assoc]

/-- The end of the file. -/
theorem replayFrames_end {position : ℕ} (fuel : ℕ) (hfile : file.drop position = [])
    (st : ReplayState σ) :
    replayFrames zones sink budget file base checkpointLsn path mayHaveTornTail isSealed
      fuel position st = .ok (st, position, none) := by
  cases fuel with
  | zero => rfl
  | succ fuel =>
    have hread : RawRecord.read ([] : Bytes) = .ok none := rfl
    simp only [replayFrames, hfile, hread]

/-- A proper prefix of a frame at the end of the newest segment is a torn tail, unless
bytes of it pass for a record. -/
theorem replayFrames_torn {raw : RawRecord} (hfits : raw.Fits) {torn : Bytes}
    (hcut : torn <+: raw.bytes) (hne : torn ≠ raw.bytes) (hnil : torn ≠ [])
    (hfile : file.drop position = torn) :
    ∃ cause : WalError, ∀ st : ReplayState σ,
      replayFrames zones sink budget file base checkpointLsn path true false (fuel + 1)
          position st =
        match findValidFrameAfter file position st.lastLsn with
        | some i =>
          st.fail (.corrupt path position
            (cause.message ++ s!"; a valid record follows at byte {i}, " ++
              "so this is not a torn tail"))
        | none => .ok (st, position, some ⟨path, position, cause⟩) := by
  obtain ⟨expected, actual, hread⟩ := RawRecord.read_torn hfits hcut hne hnil
  refine ⟨.truncated expected actual, fun st => ?_⟩
  simp only [replayFrames, hfile, hread, if_true]

/-- Anywhere else a proper prefix of a frame is corruption. -/
theorem replayFrames_broken {raw : RawRecord} (hfits : raw.Fits) {torn : Bytes}
    (hcut : torn <+: raw.bytes) (hne : torn ≠ raw.bytes) (hnil : torn ≠ [])
    (hfile : file.drop position = torn) :
    ∃ err : WalError, ∀ st : ReplayState σ,
      replayFrames zones sink budget file base checkpointLsn path false isSealed (fuel + 1)
          position st = st.fail err := by
  obtain ⟨expected, actual, hread⟩ := RawRecord.read_torn hfits hcut hne hnil
  refine ⟨.corrupt path position ((WalError.truncated expected actual).message ++ " in " ++
    if isSealed then "a sealed segment" else "a segment that is not the newest"),
    fun st => ?_⟩
  simp only [replayFrames, hfile, hread, Bool.false_eq_true, if_false]

/-- A file that starts with a header and intact frames. -/
theorem replayFrames_file {header : Bytes} (torn : Bytes)
    {records : List (WalRecord × ℕ)} (hlen : header.length = SEGMENT_HEADER_LEN)
    (hframes : Forall₂ (FrameOf zones) frames records)
    (hfile : file = header ++ (framesBytes frames ++ torn)) (st : ReplayState σ) :
    replayFrames zones sink budget file base checkpointLsn path mayHaveTornTail isSealed
        file.length SEGMENT_HEADER_LEN st =
      (do
        let st ← st.acceptRecords sink budget checkpointLsn base path records
        replayFrames zones sink budget file base checkpointLsn path mayHaveTornTail isSealed
          (file.length - frames.length) (SEGMENT_HEADER_LEN + (framesBytes frames).length)
          st) := by
  have hdrop : file.drop SEGMENT_HEADER_LEN = framesBytes frames ++ torn := by
    rw [hfile, drop_left' hlen]
  have hfuel : file.length = file.length - frames.length + frames.length := by
    have hcount := framesBytes_length frames
    have htotal : file.length = header.length + ((framesBytes frames).length + torn.length) := by
      simp [hfile]
    omega
  conv_lhs => rw [hfuel]
  rw [replayFrames_append hframes hdrop]

/-- A whole file of intact frames: a header, and the frames of a segment's records. -/
structure FileOf (zones : ZoneDb) (s : ReadSegment) (entry : SegmentId × Bytes) : Prop where
  path : entry.1 = s.path
  parts : ∃ header frames h, entry.2 = header ++ framesBytes frames ∧
    header.length = SEGMENT_HEADER_LEN ∧ SegmentHeader.decode header = .ok h ∧
      h.baseLsn = s.base ∧ Forall₂ (FrameOf zones) frames s.records

/-- A file of intact frames is a segment for the state machine. -/
theorem replayFiles_cons {s : ReadSegment} {entry : SegmentId × Bytes}
    (hfile : FileOf zones s entry) (rest : SegmentFiles) (st : ReplayState σ) (offset : ℕ) :
    replayFiles zones sink budget checkpointLsn (entry :: rest) (st, offset) = (do
        let st ← st.validateSegment s.base s.path
        let st ← st.acceptRecords sink budget checkpointLsn s.base s.path s.records
        replayFiles zones sink budget checkpointLsn rest (st, entry.2.length)) := by
  obtain ⟨path, file⟩ := entry
  obtain ⟨hpath, header, frames, h, hparts, hlen, hdecode, hbase, hframes⟩ := hfile
  dsimp only at hpath hparts
  subst hpath hparts
  have hheader : readHeader (header ++ framesBytes frames) = .ok h := by
    rw [readHeader_append hlen, hdecode]
  have hend : (header ++ framesBytes frames).drop
      (SEGMENT_HEADER_LEN + (framesBytes frames).length) = [] := by
    rw [drop_eq_nil_iff, length_append, hlen]
  simp only [replayFiles, hheader, ReplayState.lift, hbase, bind, Except.bind]
  cases st.validateSegment s.base s.path with
  | error e => rfl
  | ok st₁ =>
    dsimp only
    rw [replayFrames_file [] hlen hframes (by rw [append_nil])]
    simp only [bind, Except.bind]
    cases st₁.acceptRecords sink budget checkpointLsn s.base s.path s.records with
    | error e => rfl
    | ok st₂ =>
      dsimp only
      rw [replayFrames_end _ hend]
      simp only [length_append, hlen]

/-- The offset at the end of the last file. -/
def lastOffset (offset : ℕ) (files : SegmentFiles) : ℕ :=
  (files.getLast?.map fun entry => entry.2.length).getD offset

/-- Files of intact frames are a log for the state machine. -/
theorem replayFiles_append {segments : List ReadSegment} {files : SegmentFiles}
    (hfiles : Forall₂ (FileOf zones) segments files) (rest : SegmentFiles)
    (st : ReplayState σ) (offset : ℕ) :
    replayFiles zones sink budget checkpointLsn (files ++ rest) (st, offset) = (do
        let st ← st.acceptSegments sink budget checkpointLsn segments
        replayFiles zones sink budget checkpointLsn rest (st, lastOffset offset files)) := by
  induction hfiles generalizing st offset with
  | nil => rfl
  | @cons s entry segments files hfile hfiles ih =>
    have hlast : ∀ offset, lastOffset entry.2.length files =
      lastOffset offset (entry :: files) := by
      intro offset
      cases files with
      | nil => rfl
      | cons entry' files =>
        have hsome := getLast?_eq_some_getLast (cons_ne_nil entry' files)
        simp only [lastOffset, getLast?_cons_cons, hsome, Option.map_some, Option.getD_some]
    rw [cons_append, replayFiles_cons hfile]
    simp only [ReplayState.acceptSegments, bind, Except.bind]
    cases st.validateSegment s.base s.path with
    | error e => rfl
    | ok st₁ =>
      dsimp only
      cases st₁.acceptRecords sink budget checkpointLsn s.base s.path s.records with
      | error e => rfl
      | ok st₂ =>
        dsimp only
        rw [ih, hlast offset]
        rfl

/-- The newest file, when it ends in a proper prefix of a frame: a torn tail, unless the
segment is sealed or the bytes pass for a record. -/
theorem replayFiles_torn {s : ReadSegment} {entry : SegmentId × Bytes} {header torn : Bytes}
    {h : SegmentHeader} (hpath : entry.1 = s.path)
    (hparts : entry.2 = header ++ (framesBytes frames ++ torn))
    (hlen : header.length = SEGMENT_HEADER_LEN) (hdecode : SegmentHeader.decode header = .ok h)
    (hbase : h.baseLsn = s.base) (hframes : Forall₂ (FrameOf zones) frames s.records)
    {raw : RawRecord} (hfits : raw.Fits) (hcut : torn <+: raw.bytes)
    (hne : torn ≠ raw.bytes) (hnil : torn ≠ []) :
    let stop := SEGMENT_HEADER_LEN + (framesBytes frames).length
    ∃ (cause : WalError) (err : ℕ → WalError), ∀ (st : ReplayState σ) (offset : ℕ),
      replayFiles zones sink budget checkpointLsn [entry] (st, offset) = (do
          let st ← st.validateSegment s.base s.path
          let st ← st.acceptRecords sink budget checkpointLsn s.base s.path s.records
          if h.sealed then st.fail (err 0)
          else match findValidFrameAfter entry.2 stop st.lastLsn with
            | some i => st.fail (err i)
            | none => .ok (st, stop, some ⟨s.path, stop, cause⟩)) := by
  intro stop
  obtain ⟨path, file⟩ := entry
  dsimp only at hpath hparts
  subst hpath
  have hheader : readHeader file = .ok h := by rw [hparts, readHeader_append hlen, hdecode]
  have hdrop : file.drop stop = torn := by
    rw [hparts, ← append_assoc, drop_left' (by simp [hlen, stop])]
  have hfuel : ∃ fuel, file.length - frames.length = fuel + 1 := by
    have hcount := framesBytes_length frames
    have htotal : file.length = header.length + ((framesBytes frames).length + torn.length) := by
      simp [hparts]
    have hpos : 0 < SEGMENT_HEADER_LEN := by decide
    exact ⟨file.length - frames.length - 1, by omega⟩
  obtain ⟨fuel, hfuel⟩ := hfuel
  have hopen : ∀ st : ReplayState σ, ∀ mayTorn, replayFrames zones sink budget file s.base
      checkpointLsn s.path mayTorn h.sealed file.length SEGMENT_HEADER_LEN st = (do
          let st ← st.acceptRecords sink budget checkpointLsn s.base s.path s.records
          replayFrames zones sink budget file s.base checkpointLsn s.path mayTorn h.sealed
            (fuel + 1) stop st) := by
    intro st mayTorn
    rw [replayFrames_file torn hlen hframes hparts, hfuel]
  have hbroken : ∃ err, ∀ st : ReplayState σ, replayFrames zones sink budget file s.base
      checkpointLsn s.path false true (fuel + 1) stop st = st.fail err :=
    replayFrames_broken hfits hcut hne hnil hdrop
  obtain ⟨err, herr⟩ := hbroken
  have htorn : ∃ cause : WalError, ∀ st : ReplayState σ, replayFrames zones sink budget file
      s.base checkpointLsn s.path true false (fuel + 1) stop st =
        match findValidFrameAfter file stop st.lastLsn with
        | some i =>
          st.fail (.corrupt s.path stop
            (cause.message ++ s!"; a valid record follows at byte {i}, " ++
              "so this is not a torn tail"))
        | none => .ok (st, stop, some ⟨s.path, stop, cause⟩) :=
    replayFrames_torn hfits hcut hne hnil hdrop
  obtain ⟨cause, hcause⟩ := htorn
  refine ⟨cause, fun i => if h.sealed then err else .corrupt s.path stop
    (cause.message ++ s!"; a valid record follows at byte {i}, " ++
      "so this is not a torn tail"), fun st offset => ?_⟩
  simp only [replayFiles, hheader, ReplayState.lift, hopen, bind, Except.bind, isEmpty_nil,
    Bool.true_and, hbase]
  cases st.validateSegment s.base s.path with
  | error e => rfl
  | ok st₁ =>
    dsimp only
    cases st₁.acceptRecords sink budget checkpointLsn s.base s.path s.records with
    | error e => rfl
    | ok st₂ =>
      dsimp only
      cases hsealed : h.sealed with
      | true =>
        simp only [Bool.not_true, herr, if_true]
        rfl
      | false =>
        simp only [Bool.not_false, hcause, Bool.false_eq_true, if_false]
        cases findValidFrameAfter file stop st₂.lastLsn <;> rfl

end Intact

end LoraDb
