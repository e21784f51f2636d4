import Mathlib.Data.List.Chain
import LoraDb.Ledger
import LoraDb.Wal

/-!
# The Layout of a Log Directory

A log is a list of segments, each with a number, a first LSN and its frames. `Orderly` says
how their numbers and LSNs follow one another, and `Disk` that a directory holds a log.

## Main results

* `take_framesBytes`: a prefix of some frames is some of them, and a prefix of the next.
* `Orderly.lsnOrdered`: the LSNs of an orderly log ascend for replay.
-/

open ByteCodec

namespace LoraDb

open List

/-- A segment of a log. -/
structure Segment where
  id : SegmentId
  base : Lsn
  frames : List RawRecord

namespace Segment

/-- The segment with more frames. -/
def append (s : Segment) (frames : List RawRecord) : Segment :=
  { s with frames := s.frames ++ frames }

@[simp] theorem append_id (s : Segment) (frames : List RawRecord) :
    (s.append frames).id = s.id := rfl

@[simp] theorem append_base (s : Segment) (frames : List RawRecord) :
    (s.append frames).base = s.base := rfl

@[simp] theorem append_frames (s : Segment) (frames : List RawRecord) :
    (s.append frames).frames = s.frames ++ frames := rfl

/-- Bytes of the segment's file. -/
def size [Crc32] (s : Segment) : ℕ := SEGMENT_HEADER_LEN + (framesBytes s.frames).length

end Segment

/-- How the segments of a log started above a fence follow one another, and where the next
LSN comes from. -/
structure Orderly (fence : Lsn) (segs : List Segment) (nextLsn : Lsn) : Prop where
  ids : segs.IsChain fun s s' => checkedNext s.id = some s'.id
  bases : segs.Pairwise fun s s' => s.base ≤ s'.base ∧ ∀ f ∈ s.frames, f.lsn < s'.base
  within : ∀ s ∈ segs, ∀ f ∈ s.frames, s.base ≤ f.lsn
  fits : ∀ s ∈ segs, ∀ f ∈ s.frames, f.Fits
  ascending : ∀ s ∈ segs, s.frames.Pairwise fun f f' => f.lsn < f'.lsn
  below : ∀ s ∈ segs, s.base ≤ nextLsn ∧ ∀ f ∈ s.frames, f.lsn < nextLsn
  above : ∀ s ∈ segs, fence < s.base
  word : nextLsn < 2 ^ 64

/-- A header of the segment. A rewrite that was cut short may have left bytes that do
not decode. -/
structure Segment.Headed [Crc32] (s : Segment) (header : Bytes) : Prop where
  length : header.length = SEGMENT_HEADER_LEN
  base : ∀ h, SegmentHeader.decode header = .ok h → h.baseLsn = s.base
  next : ∀ h, SegmentHeader.decode header = .ok h → h.sealed = true →
    (checkedNext s.id).isSome = true

/-- The file of a segment, with bytes after its last frame. -/
def Segment.file [Crc32] (s : Segment) (header torn : Bytes) : SegmentId × Bytes :=
  (s.id, header ++ (framesBytes s.frames ++ torn))

/-- Nothing, or a proper prefix of a frame. -/
def Torn [Crc32] (torn : Bytes) : Prop :=
  torn = [] ∨ ∃ f : RawRecord, f.Fits ∧ torn <+: f.bytes ∧ torn ≠ f.bytes ∧ torn ≠ []

/-- A log directory: the files of the segments `older`, whole, and that of the `newest`, which
may end in a torn frame. -/
structure Disk [Crc32] (files : SegmentFiles) (older : List Segment) (newest : Segment)
    (header torn : Bytes) : Prop where
  files : ∃ fs, files = fs ++ [newest.file header torn] ∧
    Forall₂ (fun s entry => ∃ header, s.Headed header ∧ entry = s.file header []) older fs
  headed : newest.Headed header
  torn : Torn torn

/-! ### Cutting a file -/

/-- The frames that lie wholly within the first `n` bytes. -/
def framesWithin : ℕ → List RawRecord → List RawRecord
  | _, [] => []
  | n, f :: frames =>
    if f.encodedLen ≤ n then f :: framesWithin (n - f.encodedLen) frames else []

/-- What is left of the first frame that does not lie within the first `n` bytes. -/
def tornAfter [Crc32] : ℕ → List RawRecord → Bytes
  | _, [] => []
  | n, f :: frames =>
    if f.encodedLen ≤ n then tornAfter (n - f.encodedLen) frames else f.bytes.take n

theorem take_framesBytes [Crc32] (n : ℕ) (frames : List RawRecord) :
    (framesBytes frames).take n = framesBytes (framesWithin n frames) ++ tornAfter n frames := by
  induction frames generalizing n with
  | nil => simp [framesWithin, tornAfter]
  | cons f frames ih =>
    rw [framesBytes_cons, take_append, RawRecord.bytes_length]
    by_cases h : f.encodedLen ≤ n
    · rw [take_of_length_le (by rw [RawRecord.bytes_length]; exact h), ih]
      simp [framesWithin, tornAfter, h]
    · rw [Nat.sub_eq_zero_of_le (Nat.le_of_not_le h), take_zero, append_nil]
      simp [framesWithin, tornAfter, h]

theorem framesWithin_prefix (n : ℕ) (frames : List RawRecord) :
    framesWithin n frames <+: frames := by
  induction frames generalizing n with
  | nil => exact prefix_rfl
  | cons f frames ih =>
    by_cases h : f.encodedLen ≤ n
    · rw [framesWithin, if_pos h]
      exact (prefix_cons_inj f).mpr (ih _)
    · rw [framesWithin, if_neg h]
      exact nil_prefix

/-- What is left at the cut is nothing, or a proper prefix of a frame. -/
theorem tornAfter_cases [Crc32] (n : ℕ) (frames : List RawRecord) :
    tornAfter n frames = [] ∨ ∃ f ∈ frames, tornAfter n frames <+: f.bytes ∧
      tornAfter n frames ≠ f.bytes ∧ tornAfter n frames ≠ [] := by
  induction frames generalizing n with
  | nil => exact Or.inl rfl
  | cons f frames ih =>
    by_cases h : f.encodedLen ≤ n
    · rw [tornAfter, if_pos h]
      refine (ih _).imp_right ?_
      rintro ⟨g, hg, hrest⟩
      exact ⟨g, mem_cons_of_mem _ hg, hrest⟩
    · rw [tornAfter, if_neg h]
      by_cases hnil : f.bytes.take n = []
      · exact Or.inl hnil
      · refine Or.inr ⟨f, mem_cons_self, take_prefix _ _, ?_, hnil⟩
        intro hall
        have hlen := congrArg List.length hall
        rw [length_take, RawRecord.bytes_length] at hlen
        omega

section Replace

variable {fence n : Lsn} {older : List Segment} {s s' : Segment}

theorem forall_mem_replace {P : Segment → Prop} (h : ∀ x ∈ older ++ [s], P x) (hs' : P s') :
    ∀ x ∈ older ++ [s'], P x :=
  List.forall_mem_append.mpr ⟨(List.forall_mem_append.mp h).1, List.forall_mem_singleton.mpr hs'⟩

theorem pairwise_replace {R : Segment → Segment → Prop} (h : (older ++ [s]).Pairwise R)
    (hR : ∀ s₀, R s₀ s → R s₀ s') : (older ++ [s']).Pairwise R := by
  rw [pairwise_append] at h ⊢
  refine ⟨h.1, pairwise_singleton _ _, fun s₀ hs₀ s₁ hs₁ => ?_⟩
  obtain rfl := List.mem_singleton.mp hs₁
  exact hR s₀ (h.2.2 s₀ hs₀ s (mem_singleton_self _))

/-- The newest segment of an orderly log may get other frames. -/
theorem Orderly.replace {n' : Lsn} {frames : List RawRecord} (h : Orderly fence (older ++ [s]) n)
    (hframes : ∀ f ∈ frames, s.base ≤ f.lsn ∧ f.lsn < n' ∧ f.Fits)
    (hascending : frames.Pairwise fun f f' => f.lsn < f'.lsn) (hmore : n ≤ n')
    (hword : n' < 2 ^ 64) : Orderly fence (older ++ [{ s with frames }]) n' := by
  have hmem : s ∈ older ++ [s] := by simp
  have hbelow : ∀ x ∈ older ++ [s], x.base ≤ n' ∧ ∀ f ∈ x.frames, f.lsn < n' := fun x hx =>
    ⟨(h.below x hx).1.trans hmore, fun f hf => ((h.below x hx).2 f hf).trans_le hmore⟩
  refine ⟨?_, pairwise_replace h.bases fun _ hs₀ => hs₀,
    forall_mem_replace h.within fun f hf => (hframes f hf).1,
    forall_mem_replace h.fits fun f hf => (hframes f hf).2.2,
    forall_mem_replace h.ascending hascending,
    forall_mem_replace hbelow ⟨(hbelow s hmem).1, fun f hf => (hframes f hf).2.1⟩,
    forall_mem_replace h.above (h.above s hmem), hword⟩
  have hids := h.ids
  rw [isChain_append] at hids ⊢
  refine ⟨hids.1, isChain_singleton _, fun s₀ hs₀ s₁ hs₁ => ?_⟩
  obtain rfl : { s with frames } = s₁ := by simpa using hs₁
  exact hids.2.2 s₀ hs₀ s rfl

/-- An orderly log stays orderly when frames are lost at its end. -/
theorem Orderly.prefix (h : Orderly fence (older ++ [s]) n) {frames : List RawRecord}
    (hp : frames <+: s.frames) : Orderly fence (older ++ [{ s with frames }]) n := by
  have hmem : s ∈ older ++ [s] := by simp
  refine h.replace (fun f hf => ?_) ((h.ascending s hmem).sublist hp.sublist) le_rfl h.word
  have hf := hp.subset hf
  exact ⟨h.within s hmem f hf, (h.below s hmem).2 f hf, h.fits s hmem f hf⟩

end Replace

/-! ### The records of a log -/

section Records

variable (zones : ZoneDb)

/-- The record a frame decodes to, with its size. Only used on frames that do decode. -/
def recordOf (raw : RawRecord) : WalRecord × ℕ :=
  ((raw.decodeForReplay zones).toOption.getD (.txBegin raw.lsn), raw.encodedLen)

/-- The frame's payload decodes. -/
def RawRecord.Readable (raw : RawRecord) : Prop :=
  ∃ record, raw.decodeForReplay zones = .ok record

/-- The segment as replay reads it. -/
def Segment.read (s : Segment) : ReadSegment := ⟨s.id, s.base, s.frames.map (recordOf zones)⟩

/-- The transactions a log commits. -/
def receiptsOf (segs : List Segment) : List Receipt := ledger (segs.map (Segment.read zones))

end Records

section Records

variable {zones : ZoneDb}

theorem recordOf_frameOf {raw : RawRecord} (hfits : raw.Fits) (h : raw.Readable zones) :
    FrameOf zones raw (recordOf zones raw) := by
  obtain ⟨record, hrecord⟩ := h
  refine ⟨hfits, ?_, rfl⟩
  rw [hrecord, recordOf, hrecord]
  rfl

/-- Decoding keeps the record's own LSN. -/
theorem decodeForReplay_lsn {raw : RawRecord} {record : WalRecord}
    (h : raw.decodeForReplay zones = .ok record) : record.lsn = raw.lsn := by
  have hmarker : ∀ {what : String} {r : WalRecord}, raw.noPayload what r = .ok record →
      record = r := by
    intro what r hr
    rw [RawRecord.noPayload] at hr
    split_ifs at hr
    exact (Except.ok.inj hr).symm
  unfold RawRecord.decodeForReplay at h
  split_ifs at h
  · simp only [RawRecord.decode, bind_eq_ok] at h
    obtain ⟨kind, -, h⟩ := h
    cases kind with
    | mutation =>
      obtain ⟨event, -, h⟩ := bind_eq_ok.mp h
      rw [← Except.ok.inj h]
      rfl
    | mutationBatch =>
      obtain ⟨events, -, h⟩ := bind_eq_ok.mp h
      rw [← Except.ok.inj h]
      rfl
    | txBegin | txCommit | txAbort | checkpoint =>
      rw [hmarker h]
      rfl
  · simp only [bind_eq_ok] at h
    obtain ⟨-, -, events, -, h⟩ := h
    rw [← Except.ok.inj h]
    rfl

theorem recordOf_lsn {raw : RawRecord} : (recordOf zones raw).1.lsn = raw.lsn := by
  unfold recordOf
  cases h : raw.decodeForReplay zones with
  | error e => rfl
  | ok record => exact decodeForReplay_lsn h

theorem forall₂_recordOf {frames : List RawRecord} (hfits : ∀ f ∈ frames, f.Fits)
    (hread : ∀ f ∈ frames, f.Readable zones) :
    Forall₂ (FrameOf zones) frames (frames.map (recordOf zones)) := by
  induction frames with
  | nil => exact Forall₂.nil
  | cons f frames ih =>
    refine Forall₂.cons (recordOf_frameOf (hfits f (by simp)) (hread f (by simp))) ?_
    exact ih (fun g hg => hfits g (mem_cons_of_mem _ hg))
      fun g hg => hread g (mem_cons_of_mem _ hg)

theorem recordsSize_recordOf [Crc32] (frames : List RawRecord) :
    recordsSize (frames.map (recordOf zones)) = (framesBytes frames).length := by
  induction frames with
  | nil => rfl
  | cons f frames ih =>
    simp only [recordsSize, map_cons, map_map, sum_cons] at ih ⊢
    rw [ih, framesBytes_cons, length_append, RawRecord.bytes_length]
    rfl

end Records

/-! ### Orderly logs -/

section Orderly

variable {fence : Lsn} {segs : List Segment} {nextLsn : Lsn} (zones : ZoneDb)

/-- The LSNs of an orderly log ascend for replay, when no two segments start alike. -/
theorem Orderly.lsnOrdered (h : Orderly fence segs nextLsn)
    (hstrict : segs.Pairwise fun s s' => s.base < s'.base) :
    LsnOrdered (segs.map (Segment.read zones)) := by
  have hrecord : ∀ {s : Segment} {r : WalRecord × ℕ}, r ∈ (s.read zones).records →
      ∃ f ∈ s.frames, r.1.lsn = f.lsn := by
    intro s r hr
    obtain ⟨f, hf, rfl⟩ := List.mem_map.mp hr
    exact ⟨f, hf, recordOf_lsn⟩
  refine ⟨?_, ?_, ?_⟩
  · rw [pairwise_map]
    refine (hstrict.and h.bases).imp ?_
    rintro s s' ⟨hlt, -, hbelow⟩
    refine ⟨hlt, fun r hr => ?_⟩
    obtain ⟨f, hf, hlsn⟩ := hrecord hr
    rw [hlsn]
    exact hbelow f hf
  · intro s' hs' r hr
    obtain ⟨s, hs, rfl⟩ := List.mem_map.mp hs'
    obtain ⟨f, hf, hlsn⟩ := hrecord hr
    rw [hlsn]
    exact h.within s hs f hf
  · intro s' hs'
    obtain ⟨s, hs, rfl⟩ := List.mem_map.mp hs'
    refine List.pairwise_map.mpr ((h.ascending s hs).imp fun hlt => ?_)
    rw [recordOf_lsn, recordOf_lsn]
    exact hlt

theorem Orderly.live (h : Orderly fence segs nextLsn) :
    ∀ s ∈ segs.map (Segment.read zones), ∀ r ∈ s.records, fence < r.1.lsn := by
  intro s' hs' r hr
  obtain ⟨s, hs, rfl⟩ := List.mem_map.mp hs'
  obtain ⟨f, hf, rfl⟩ := List.mem_map.mp hr
  rw [recordOf_lsn]
  exact (h.above s hs).trans_le (h.within s hs f hf)

/-- Segment numbers ascend. -/
theorem Orderly.ids_lt (h : Orderly fence segs nextLsn) :
    segs.Pairwise fun s s' => s.id < s'.id := by
  rw [← isChain_iff_pairwise]
  refine h.ids.imp fun s s' hnext => ?_
  rw [checkedNext] at hnext
  split_ifs at hnext
  rw [← Option.some.inj hnext]
  exact Nat.lt_succ_self _

end Orderly

end LoraDb
