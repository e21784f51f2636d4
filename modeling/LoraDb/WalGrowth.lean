import LoraDb.WalAppend
import LoraDb.WalOpen

/-!
# How a Log Grows

A sound log stays sound when a transaction is appended to its newest segment, when frames are
lost at its end, and when a new segment is started. It goes on with the LSN after its last
record.

## Main results

* `Sound.append`, `Sound.cut`, `Sound.rotate`: the log stays sound.
* `Writable.committedIn_cut`: a transaction that is cut anywhere is whole or gone.
-/

open ByteCodec

namespace LoraDb

open List

/-! ### The last record -/

section Last

variable {fence : Lsn} {older : List Segment} {s active : Segment} {n : Lsn}

/-- The LSNs of an orderly log ascend from segment to segment. -/
theorem Orderly.pairwise {segs : List Segment} (h : Orderly fence segs n) :
    (segs.flatMap Segment.frames).Pairwise fun f f' => f.lsn < f'.lsn := by
  rw [pairwise_flatMap]
  refine ⟨h.ascending, h.bases.imp_of_mem ?_⟩
  rintro s s' - hs' ⟨-, hbelow⟩ f hf f' hf'
  exact (hbelow f hf).trans_le (h.within s' hs' f' hf')

/-- No record is after the last. -/
theorem Orderly.le_lastLsn {segs : List Segment} (h : Orderly fence segs n) (hs : s ∈ segs)
    {f : RawRecord} (hf : f ∈ s.frames) : f.lsn ≤ lastLsn segs := by
  have hmem : f ∈ segs.flatMap Segment.frames := List.mem_flatMap.mpr ⟨s, hs, hf⟩
  have hpairwise := h.pairwise
  rw [lastLsn]
  generalize segs.flatMap Segment.frames = frames at hmem hpairwise
  obtain ⟨before, last, rfl⟩ := eq_nil_or_concat'  frames |>.resolve_left
    (ne_nil_of_mem hmem)
  rw [getLast?_concat]
  rcases List.mem_append.mp hmem with hmem | hmem
  · exact ((List.pairwise_append.mp hpairwise).2.2 f hmem last (mem_singleton_self _)).le
  · exact (congrArg RawRecord.lsn (List.mem_singleton.mp hmem)).le

theorem lastLsn_append (older : List Segment) (active : Segment) : lastLsn (older ++ [active]) =
      (active.frames.getLast?.map RawRecord.lsn).getD (lastLsn older) := by
  simp only [lastLsn, flatMap_append, flatMap_singleton]
  cases h : active.frames.getLast? with
  | none =>
    rw [List.getLast?_eq_none_iff.mp h, append_nil]
    rfl
  | some f => simp [getLast?_append, h]

/-- A log with another segment has no earlier last record. -/
theorem Orderly.lastLsn_mono (h : Orderly fence (older ++ [active]) n) :
    lastLsn older ≤ lastLsn (older ++ [active]) := by
  rw [lastLsn]
  cases hlast : (older.flatMap Segment.frames).getLast? with
  | none => exact Nat.zero_le _
  | some f =>
    obtain ⟨s, hs, hf⟩ := List.mem_flatMap.mp (mem_of_getLast? hlast)
    exact h.le_lastLsn (mem_append_left _ hs) hf

theorem Orderly.lsnAfter_mono (h : Orderly fence (older ++ [active]) n) :
    Disk.lsnAfter fence older ≤ Disk.lsnAfter fence (older ++ [active]) :=
  Nat.succ_le_succ (max_le_max_right fence h.lastLsn_mono)

end Last

/-! ### Sound logs -/

section Sound

variable {zones : ZoneDb} {fence : Lsn} {older : List Segment} {active : Segment} {n : Lsn}

/-- A sound log may go on with the LSN after its last record. -/
theorem Sound.tighten (h : Sound zones fence (older ++ [active]) n)
    (htight : active.base ≤ Disk.lsnAfter fence older) :
    Sound zones fence (older ++ [active]) (Disk.lsnAfter fence (older ++ [active])) := by
  have hactive : active.base ≤ Disk.lsnAfter fence (older ++ [active]) :=
    htight.trans h.orderly.lsnAfter_mono
  have hstrict := h.strict
  rw [pairwise_append] at hstrict
  refine ⟨{ h.orderly with
    below := fun s hs => ⟨?_, fun f hf => ?_⟩
    word := (Disk.lsnAfter_lt h.orderly).trans_lt h.orderly.word }, h.strict, h.start, h.readable,
    h.contiguous, h.proper⟩
  · rcases List.mem_append.mp hs with hs | hs
    · exact (hstrict.2.2 s hs active (mem_singleton_self _)).le.trans hactive
    · obtain rfl := List.mem_singleton.mp hs
      exact hactive
  · exact Nat.lt_succ_of_le (le_max_of_le_left (h.orderly.le_lastLsn hs hf))

theorem recordsOf_append (zones : ZoneDb) (older : List Segment) (active : Segment) :
    recordsOf ((older ++ [active]).map (Segment.read zones)) =
      recordsOf (older.map (Segment.read zones)) ++
        (active.frames.map (recordOf zones)).map Prod.fst := by
  simp [recordsOf, Segment.read]

/-- Markers stay proper when records are lost at the end. -/
theorem MarkersProper.left {records rest : List WalRecord}
    (h : MarkersProper fence (records ++ rest)) : MarkersProper fence records := by
  refine ⟨fun lsn snapshotLsn hmem => h.past lsn snapshotLsn (mem_append_left _ hmem), ?_⟩
  have hall := h.ascending
  rw [markers_append, pairwise_append] at hall
  exact hall.1

/-- The newest segment of a sound log is replaced by one with its base. -/
theorem Sound.replace {n' : Lsn} {active' : Segment} (h : Sound zones fence (older ++ [active]) n)
    (horderly : Orderly fence (older ++ [active']) n') (hbase : active'.base = active.base)
    (hreadable : ∀ f ∈ active'.frames, f.Readable zones)
    (hcontiguous : Contiguous none (active'.read zones).records)
    (hproper : MarkersProper fence (recordsOf ((older ++ [active']).map (Segment.read zones)))) :
    Sound zones fence (older ++ [active']) n' := by
  refine ⟨horderly, ?_, ?_, forall_mem_replace h.readable hreadable,
    forall_mem_replace h.contiguous hcontiguous, hproper⟩
  · exact pairwise_replace h.strict fun s hs => hbase ▸ hs
  · cases older with
    | nil =>
      intro s hs
      obtain rfl : active' = s := by simpa using hs
      exact hbase ▸ h.start active rfl
    | cons first older => exact h.start

/-- A sound log stays sound when frames are lost at its end. -/
theorem Sound.cut (h : Sound zones fence (older ++ [active]) n) {frames : List RawRecord}
    (hp : frames <+: active.frames) :
    Sound zones fence (older ++ [{ active with frames }]) n := by
  obtain ⟨rest, hrest⟩ := hp
  have hmem : active ∈ older ++ [active] := by simp
  refine h.replace ( Orderly.prefix h.orderly ⟨rest, hrest⟩) rfl (fun f hf => ?_) ?_ ?_
  · exact h.readable active hmem f (hrest ▸ mem_append_left _ hf)
  · have hall := h.contiguous active hmem
    simp only [Segment.read] at hall ⊢
    rw [← hrest, map_append, contiguous_append] at hall
    exact hall.1
  · have hall := h.proper
    rw [recordsOf_append, ← hrest, map_append, map_append, ← append_assoc] at hall
    rw [recordsOf_append]
    exact hall.left

/-- Records that are no markers keep the markers proper. -/
theorem MarkersProper.append {records rest : List WalRecord} (h : MarkersProper fence records)
    (hrest : ∀ r ∈ rest, r.entry ≠ .mark) : MarkersProper fence (records ++ rest) := by
  have hnone : markers fence rest = [] := by
    rw [markers, filterMap_eq_nil_iff]
    intro r hr
    have hmark := hrest r (mem_of_mem_filter hr)
    cases r with
    | checkpoint lsn snapshotLsn => exact absurd rfl hmark
    | mutation | mutationBatch | txBegin | txCommit | txAbort => rfl
  refine ⟨fun lsn snapshotLsn hmem => ?_, ?_⟩
  · rcases List.mem_append.mp hmem with hmem | hmem
    · exact h.past lsn snapshotLsn hmem
    · exact absurd rfl (hrest _ hmem)
  · rw [markers_append, hnone, append_nil]
    exact h.ascending

variable {events : List MutationEvent} {batches : List (ℕ × ℕ)}

theorem batchFrames_unmarked {t lsn : Lsn} {start stop : ℕ} (h : Loggable events)
    (hplan : PlanTo zones events start batches stop) :
    ∀ f ∈ batchFrames zones events t lsn start batches, (recordOf zones f).1.entry ≠ .mark := by
  induction batches generalizing start lsn with
  | nil => exact fun f hf => absurd hf not_mem_nil
  | cons batch batches ih =>
    obtain ⟨-, -, hbatch, hrest⟩ := hplan
    refine List.forall_mem_cons.mpr ⟨?_, ih hrest⟩
    rw [recordOf_eq (batchFrame_decode (h.chunk _ _) hbatch)]
    rintro ⟨⟩

/-- The records of a transaction are no markers. -/
theorem Writable.unmarked {t : Lsn} (h : Writable zones events batches t) :
    ∀ f ∈ txFrames zones events t batches, (recordOf zones f).1.entry ≠ .mark := by
  intro f hf
  rw [txFrames, mem_cons, mem_append, mem_singleton] at hf
  rcases hf with rfl | hf | rfl
  · rw [recordOf_eq (decode_txBegin t)]
    rintro ⟨⟩
  · exact batchFrames_unmarked h.loggable h.planned f hf
  · rw [recordOf_eq (decode_txCommit _ t)]
    rintro ⟨⟩

theorem txFrames_bounds {t : Lsn} {f : RawRecord} (hf : f ∈ txFrames zones events t batches) :
    t ≤ f.lsn ∧ f.lsn < t + batches.length + 2 := by
  have hmem := mem_map_of_mem (f := RawRecord.lsn) hf
  rwa [txFrames_lsn, mem_range'_1] at hmem

/-- An orderly log takes a whole transaction. -/
theorem Orderly.append (h : Orderly fence (older ++ [active]) n)
    (hw : Writable zones events batches n) :
    Orderly fence (older ++ [active.append (txFrames zones events n batches)])
      (n + batches.length + 2) := by
  have hmem : active ∈ older ++ [active] := by simp
  obtain ⟨hbase, hbelow⟩ := h.below active hmem
  have hmore : n ≤ n + batches.length + 2 := Nat.le_add_right n (batches.length + 2)
  refine h.replace (fun f hf => ?_) ?_ hmore hw.room
  · rcases List.mem_append.mp hf with hf | hf
    · exact ⟨h.within active hmem f hf, (hbelow f hf).trans_le hmore, h.fits active hmem f hf⟩
    · obtain ⟨hfrom, hto⟩ := txFrames_bounds hf
      exact ⟨hbase.trans hfrom, hto, hw.fits f hf⟩
  · have hpairwise : (txFrames zones events n batches).Pairwise fun f f' => f.lsn < f'.lsn := by
      rw [← pairwise_map, txFrames_lsn]
      exact pairwise_lt_range'
    refine List.pairwise_append.mpr ⟨h.ascending active hmem, hpairwise, fun f hf f' hf' => ?_⟩
    exact (hbelow f hf).trans_le (txFrames_bounds hf').1

/-- A sound log takes a whole transaction. -/
theorem Sound.append (h : Sound zones fence (older ++ [active]) n)
    (hw : Writable zones events batches n) :
    Sound zones fence (older ++ [active.append (txFrames zones events n batches)])
      (n + batches.length + 2) := by
  have hmem : active ∈ older ++ [active] := by simp
  refine h.replace (h.orderly.append hw) rfl (fun f hf => ?_) ?_ ?_
  · rcases List.mem_append.mp hf with hf | hf
    · exact h.readable active hmem f hf
    · exact hw.readable f hf
  · simp only [Segment.read, Segment.append_frames, map_append, contiguous_append]
    exact ⟨h.contiguous active hmem, hw.contiguous prefix_rfl _⟩
  · rw [recordsOf_append, Segment.append_frames, map_append, map_append,
      ← append_assoc, ← recordsOf_append]
    refine h.proper.append fun r hr => ?_
    rw [map_map] at hr
    obtain ⟨f, hf, rfl⟩ := List.mem_map.mp hr
    exact hw.unmarked f hf

theorem forall_mem_concat {P : Segment → Prop} (hold : ∀ s ∈ older, P s) (hactive : P active) :
    ∀ s ∈ older ++ [active], P s :=
  List.forall_mem_append.mpr ⟨hold, List.forall_mem_singleton.mpr hactive⟩

/-- A sound log takes a new segment behind one that is not empty. -/
theorem Sound.rotate (h : Sound zones fence (older ++ [active]) n) (hne : active.frames ≠ [])
    {id : SegmentId} (hid : checkedNext active.id = some id) :
    Sound zones fence (older ++ [active] ++ [⟨id, n, []⟩]) n := by
  have hmem : active ∈ older ++ [active] := by simp
  have hlt : ∀ s ∈ older ++ [active], s.base < n := by
    obtain ⟨f, hf⟩ := exists_mem_of_ne_nil _ hne
    have hactive : active.base < n :=
      (h.orderly.within active hmem f hf).trans_lt ((h.orderly.below active hmem).2 f hf)
    have hstrict := h.strict
    rw [pairwise_append] at hstrict
    exact forall_mem_concat
      (fun s hs => (hstrict.2.2 s hs active (mem_singleton_self _)).trans hactive) hactive
  have hnil : ∀ f ∈ (⟨id, n, []⟩ : Segment).frames, False := fun f hf => not_mem_nil hf
  refine ⟨⟨?_, ?_, ?_, ?_, ?_, ?_, ?_, h.orderly.word⟩, ?_, ?_, ?_, ?_, ?_⟩
  · rw [isChain_append]
    refine ⟨h.orderly.ids, isChain_singleton _, fun s hs s' hs' => ?_⟩
    obtain rfl : active = s := by simpa using hs
    obtain rfl : (⟨id, n, []⟩ : Segment) = s' := by simpa using hs'
    exact hid
  · rw [pairwise_append]
    refine ⟨h.orderly.bases, pairwise_singleton _ _, fun s hs s' hs' => ?_⟩
    obtain rfl := List.mem_singleton.mp hs'
    exact h.orderly.below s hs
  · exact forall_mem_concat h.orderly.within fun f hf => (hnil f hf).elim
  · exact forall_mem_concat h.orderly.fits fun f hf => (hnil f hf).elim
  · exact forall_mem_concat h.orderly.ascending .nil
  · exact forall_mem_concat h.orderly.below ⟨le_rfl, fun f hf => (hnil f hf).elim⟩
  · exact forall_mem_concat h.orderly.above ((h.orderly.above active hmem).trans (hlt active hmem))
  · rw [pairwise_append]
    refine ⟨h.strict, pairwise_singleton _ _, fun s hs s' hs' => ?_⟩
    obtain rfl := List.mem_singleton.mp hs'
    exact hlt s hs
  · cases older with
    | nil => exact h.start
    | cons first older => exact h.start
  · exact forall_mem_concat h.readable fun f hf => (hnil f hf).elim
  · exact forall_mem_concat h.contiguous trivial
  · rw [recordsOf_append]
    simpa using h.proper

end Sound

/-! ### Committed transactions -/

section Committed

variable {zones : ZoneDb} {older : List Segment} {active : Segment}
  {events : List MutationEvent} {batches : List (ℕ × ℕ)} {t : Lsn}

/-- The transactions a log commits, in order. -/
def committedIn (zones : ZoneDb) (segs : List Segment) : List (List MutationEvent) :=
  (receiptsOf zones segs).map Receipt.events

theorem committedIn_append (frames : List RawRecord) :
    committedIn zones (older ++ [active.append frames]) = committedIn zones (older ++ [active]) ++
        (receiptsFrom active.id
          (SEGMENT_HEADER_LEN + recordsSize (active.frames.map (recordOf zones)))
          (eventsAfter [] (active.frames.map (recordOf zones)))
          (frames.map (recordOf zones))).map Receipt.events := by
  simp [committedIn, receiptsOf, ledger, ReadSegment.receipts, Segment.read, receiptsFrom_append]

theorem committedIn_new (zones : ZoneDb) (segs : List Segment) (id : SegmentId) (base : Lsn) :
    committedIn zones (segs ++ [⟨id, base, []⟩]) = committedIn zones segs := by
  simp [committedIn, receiptsOf, ledger, ReadSegment.receipts, Segment.read, receiptsFrom]

theorem Writable.committedIn_append (hw : Writable zones events batches t) :
    committedIn zones (older ++ [active.append (txFrames zones events t batches)]) =
      committedIn zones (older ++ [active]) ++ [events] := by
  rw [LoraDb.committedIn_append, hw.receipts]
  rfl

/-- A transaction that is cut anywhere is whole or gone. -/
theorem Writable.committedIn_cut (hw : Writable zones events batches t) {frames : List RawRecord}
    (hp : frames <+: txFrames zones events t batches) :
    committedIn zones (older ++ [active.append frames]) =
        committedIn zones (older ++ [active]) ++ [events] ∨
      committedIn zones (older ++ [active.append frames]) =
        committedIn zones (older ++ [active]) := by
  rw [txFrames_eq, prefix_concat_iff] at hp
  rcases hp with rfl | hp
  · exact .inl hw.committedIn_append
  · refine .inr ?_
    rw [LoraDb.committedIn_append, hw.openFrames_receipts hp, map_nil, append_nil]

end Committed

end LoraDb
