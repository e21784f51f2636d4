import LoraDb.WalLayout

/-!
# Transactions as Frames

The batches a transaction is planned in, and the frames it is written as: its begin, a frame
for each batch, and its commit, with consecutive LSNs.

## Main results

* `planBatches_planned`: a plan cuts the events into batches, each of which encodes to as
  many bytes as planned and fits in a record.
* `txFrames_receipts`: the frames of a transaction commit its events, and a part of them
  without the last commits nothing.
-/

open ByteCodec

namespace LoraDb

open List

/-- The events from one index up to another. -/
def chunkOf (events : List MutationEvent) (start stop : ℕ) : List MutationEvent :=
  (events.take stop).drop start

section Zones

variable (zones : ZoneDb)

/-- A batch that encodes to `len` bytes, within the limit of a record. -/
def Batch (chunk : List MutationEvent) (len : ℕ) : Prop :=
  ∃ payload, WalCodec.encodeEventsInto zones chunk = .ok payload ∧ payload.length = len ∧
    RECORD_HEADER_LEN + len + RECORD_TRAILER_LEN ≤ MAX_RECORD_LEN

/-- The batches cut the events from `start` up to `stop`. -/
def PlanTo (events : List MutationEvent) : ℕ → List (ℕ × ℕ) → ℕ → Prop
  | start, [], stop => start = stop
  | start, (mid, len) :: batches, stop =>
    start ≤ mid ∧ mid ≤ events.length ∧ Batch zones (chunkOf events start mid) len ∧
      PlanTo events mid batches stop

end Zones

section Plan

variable {zones : ZoneDb} {events : List MutationEvent}

theorem PlanTo.append {start mid stop : ℕ} {batches batches' : List (ℕ × ℕ)}
    (h : PlanTo zones events start batches mid) (h' : PlanTo zones events mid batches' stop) :
    PlanTo zones events start (batches ++ batches') stop := by
  induction batches generalizing start with
  | nil =>
    obtain rfl : start = mid := h
    exact h'
  | cons batch batches ih =>
    obtain ⟨hle, hlen, hbatch, hrest⟩ := h
    exact ⟨hle, hlen, hbatch, ih hrest⟩

/-- What `batchPayloadLen` computes is the length of the payload. -/
theorem batchPayloadLen_eq_ok {chunk : List MutationEvent} {body : Bytes} {len : ℕ}
    (hbody : writeEach (WalCodec.writeEvent zones) chunk = .ok body)
    (h : WalCodec.batchPayloadLen chunk.length body.length = .ok len) :
    ∃ payload, WalCodec.encodeEventsInto zones chunk = .ok payload ∧ payload.length = len := by
  obtain ⟨size, hsize, hlen⟩ := bind_eq_ok.mp h
  obtain ⟨pre, hpre, rfl, -⟩ := (WalCodec.sizeLen_measures chunk.length
    WalCodec.PAYLOAD_MAGIC.length size (by decide)).mp hsize
  obtain ⟨rfl, -⟩ := addSize_eq_ok.mp hlen
  refine ⟨WalCodec.PAYLOAD_MAGIC ++ (pre ++ body), ?_, by simp [Nat.add_assoc]⟩
  rw [WalCodec.encodeEventsInto, writeAll_cons]
  refine ⟨_, rfl, pre ++ body, ?_, rfl⟩
  rw [writeAll_cons]
  refine ⟨pre, hpre, body, ?_, rfl⟩
  rw [writeAll_singleton, hbody]

theorem batchPayloadLenChecked_batch {chunk : List MutationEvent} {body : Bytes} {len : ℕ}
    (hbody : writeEach (WalCodec.writeEvent zones) chunk = .ok body)
    (h : Wal.batchPayloadLenChecked chunk.length body.length = .ok len) :
    Batch zones chunk len := by
  obtain ⟨payloadLen, hlen, h⟩ := bind_eq_ok.mp h
  obtain ⟨payload, hpayload, rfl⟩ := batchPayloadLen_eq_ok hbody hlen
  cases hframed : framedLen payload.length with
  | error e =>
    rw [hframed] at h
    exact absurd h nofun
  | ok total =>
    rw [hframed] at h
    obtain rfl := Except.ok.inj h
    obtain ⟨rfl, hmax⟩ := framedLen_eq_ok.mp hframed
    exact ⟨payload, hpayload, rfl, hmax⟩

/-- The plan so far, before the event at `index`. -/
structure Planning (zones : ZoneDb) (events : List MutationEvent) (index : ℕ)
    (b : Wal.BatchPlan) : Prop where
  planned : PlanTo zones events 0 b.plan b.start
  start : b.start ≤ index
  body : ∃ body, writeEach (WalCodec.writeEvent zones) (chunkOf events b.start index) =
    .ok body ∧ b.chunkBytes = body.length

theorem chunkOf_length {start stop : ℕ} (h : stop ≤ events.length) :
    (chunkOf events start stop).length = stop - start := by
  simp [chunkOf, Nat.min_eq_left h]

variable {b b' : Wal.BatchPlan}

theorem Planning.close {index : ℕ}
    (h : Planning zones events index b) (hindex : index ≤ events.length)
    (hclose : Wal.closeBatch.close index b (index - b.start) = .ok b') :
    Planning zones events index b' := by
  obtain ⟨body, hbody, hbytes⟩ := h.body
  obtain ⟨len, hlen, hb⟩ := bind_eq_ok.mp hclose
  obtain rfl := Except.ok.inj hb
  rw [← chunkOf_length hindex, hbytes] at hlen
  refine ⟨h.planned.append ⟨h.start, hindex, batchPayloadLenChecked_batch hbody hlen, rfl⟩,
    le_rfl, [], ?_, rfl⟩
  simp [chunkOf, writeEach, writeAll]

theorem Planning.closeBatch {target index size : ℕ}
    (h : Planning zones events index b) (hindex : index ≤ events.length)
    (hclose : Wal.closeBatch target index size b = .ok b') :
    Planning zones events index b' := by
  rw [Wal.closeBatch] at hclose
  split at hclose
  · obtain ⟨grown, -, hclose⟩ := bind_eq_ok.mp hclose
    split at hclose
    · split at hclose
      · exact Except.ok.inj hclose ▸ h
      · exact h.close hindex hclose
    · exact h.close hindex hclose
  · exact Except.ok.inj hclose ▸ h

theorem chunkOf_succ {start index : ℕ} {event : MutationEvent} (hle : start ≤ index)
    (hevent : events[index]? = some event) :
    chunkOf events start (index + 1) = chunkOf events start index ++ [event] := by
  obtain ⟨hlt, -⟩ := List.getElem?_eq_some_iff.mp hevent
  rw [chunkOf, take_add_one, hevent, drop_append_of_le_length (by
    rw [length_take]
    omega)]
  rfl

theorem writeEach_concat {α : Type} {write : α → Except WalError Bytes} {xs : List α} {x : α}
    {bs : Bytes} :
    writeEach write (xs ++ [x]) = .ok bs ↔
      ∃ a, writeEach write xs = .ok a ∧ ∃ b, write x = .ok b ∧ bs = a ++ b := by
  induction xs generalizing bs with
  | nil =>
    rw [nil_append, writeEach, map_singleton, writeAll_singleton]
    simp [writeEach]
  | cons y xs ih =>
    simp only [cons_append, writeEach_cons, writeAll_cons, writeAll_nil]
    constructor
    · rintro ⟨a, ha, b, ⟨_, hb, _, rfl, rfl⟩, rfl⟩
      obtain ⟨c, hc, d, hd, rfl⟩ := ih.mp hb
      exact ⟨a ++ c, ⟨a, ha, c, ⟨c, hc, [], rfl, by simp⟩, rfl⟩, d, hd, by simp⟩
    · rintro ⟨_, ⟨a, ha, _, ⟨c, hc, _, rfl, rfl⟩, rfl⟩, d, hd, rfl⟩
      exact ⟨a, ha, c ++ d, ⟨c ++ d, ih.mpr ⟨c, hc, d, hd, rfl⟩, [], rfl, by simp⟩, by simp⟩

/-- One more event in the batch. -/
theorem Planning.add {index size : ℕ} {b : Wal.BatchPlan} {event : MutationEvent}
    (h : Planning zones events index b) (hevent : events[index]? = some event)
    (hsize : WalCodec.encodedBatchEventLen zones event = .ok size) :
    Planning zones events (index + 1) { b with chunkBytes := b.chunkBytes + size } := by
  obtain ⟨body, hbody, hbytes⟩ := h.body
  obtain ⟨bs, hbs, hlen, -⟩ :=
    (WalCodec.sizeEvent_measures event 0 size (by decide)).mp hsize
  refine ⟨h.planned, h.start.trans (Nat.le_succ _), body ++ bs, ?_, ?_⟩
  · rw [chunkOf_succ h.start hevent, writeEach_concat]
    exact ⟨body, hbody, bs, hbs, rfl⟩
  · simp only [hbytes, hlen, length_append, Nat.zero_add]

theorem Planning.run {target index : ℕ} {rest : List MutationEvent}
    (h : Planning zones events index b) (hindex : index ≤ events.length)
    (hrest : events.drop index = rest)
    (hplan : Wal.planEvents zones target index b rest = .ok b') :
    Planning zones events events.length b' := by
  induction rest generalizing index b with
  | nil =>
    obtain rfl := Except.ok.inj hplan
    have hend : index = events.length :=
      le_antisymm hindex (List.drop_eq_nil_iff.mp hrest)
    exact hend ▸ h
  | cons event rest ih =>
    obtain ⟨size, hsize, hsized⟩ := bind_eq_ok.mp hplan
    obtain ⟨b₁, hclose, hclosed⟩ := bind_eq_ok.mp hsized
    split at hclosed
    · cases hclosed
    · have hlt : index < events.length := by
        by_contra hge
        rw [drop_eq_nil_of_le (Nat.not_lt.mp hge)] at hrest
        cases hrest
      have hsplit := drop_eq_getElem_cons hlt
      rw [hrest] at hsplit
      obtain ⟨rfl, rfl⟩ := cons.inj hsplit
      exact ih ((h.closeBatch hlt.le hclose).add (getElem?_eq_getElem hlt) hsize) hlt rfl hclosed

/-- A plan cuts the events into batches that encode as planned. -/
theorem planBatches_planned {target : ℕ} {batches : List (ℕ × ℕ)}
    (h : Wal.planBatches zones target events = .ok batches) :
    PlanTo zones events 0 batches events.length ∧ batches ≠ [] := by
  obtain ⟨b, hb, h⟩ := bind_eq_ok.mp h
  obtain ⟨len, hlen, h⟩ := bind_eq_ok.mp h
  obtain rfl := Except.ok.inj h
  have hnew : Planning zones events 0 ⟨[], 0, 0⟩ :=
    ⟨rfl, le_rfl, [], by simp [chunkOf, writeEach, writeAll], rfl⟩
  have hplan := hnew.run (Nat.zero_le _) rfl hb
  obtain ⟨body, hbody, hbytes⟩ := hplan.body
  rw [← chunkOf_length le_rfl, hbytes] at hlen
  exact ⟨hplan.planned.append ⟨hplan.start, le_rfl, batchPayloadLenChecked_batch hbody hlen, rfl⟩,
    by simp⟩

end Plan

/-! ### The frames of a transaction -/

section Frames

variable (zones : ZoneDb) (events : List MutationEvent)

/-- The frame of a batch of the transaction `t`. -/
def batchFrame (t lsn : Lsn) (chunk : List MutationEvent) : RawRecord :=
  (WalRecord.mutationBatch lsn t chunk).raw
    ((WalCodec.encodeEventsInto zones chunk).toOption.getD [])

/-- The frames of the batches from `start` on, from `lsn` on. -/
def batchFrames (t : Lsn) : Lsn → ℕ → List (ℕ × ℕ) → List RawRecord
  | _, _, [] => []
  | lsn, start, (stop, _) :: batches =>
    batchFrame zones t lsn (chunkOf events start stop) :: batchFrames t (lsn + 1) stop batches

/-- The frames of a whole transaction that begins at `t`. -/
def txFrames (t : Lsn) (batches : List (ℕ × ℕ)) : List RawRecord :=
  (WalRecord.txBegin t).raw [] :: (batchFrames zones events t (t + 1) 0 batches ++
    [(WalRecord.txCommit (t + 1 + batches.length) t).raw []])

end Frames

section Frames

variable {zones : ZoneDb} {events : List MutationEvent} {t : Lsn}

theorem batchFrames_lsn (lsn : Lsn) (start : ℕ) (batches : List (ℕ × ℕ)) :
    (batchFrames zones events t lsn start batches).map RawRecord.lsn =
      range' lsn batches.length := by
  induction batches generalizing lsn start with
  | nil => rfl
  | cons batch batches ih =>
    rw [batchFrames, map_cons, ih, length_cons, range'_succ]
    rfl

/-- The LSNs of a transaction are consecutive. -/
theorem txFrames_lsn (batches : List (ℕ × ℕ)) :
    (txFrames zones events t batches).map RawRecord.lsn = range' t (batches.length + 2) := by
  rw [txFrames, map_cons, map_append, batchFrames_lsn, range'_succ, range'_concat, Nat.one_mul]
  rfl

/-- Events whose payload decodes to themselves. -/
structure Loggable (events : List MutationEvent) : Prop where
  typed : ∀ event ∈ events, event.WellTyped
  replayable : ∀ event ∈ events, event.Replayable

theorem Loggable.chunk (h : Loggable events) (start stop : ℕ) :
    Loggable (chunkOf events start stop) := by
  have hsub : ∀ event ∈ chunkOf events start stop, event ∈ events :=
    fun event hevent => mem_of_mem_take (mem_of_mem_drop hevent)
  exact ⟨fun event hevent => h.typed event (hsub event hevent),
    fun event hevent => h.replayable event (hsub event hevent)⟩

theorem batchFrame_decode {chunk : List MutationEvent} {len : ℕ} {lsn : Lsn}
    (h : Loggable chunk) (hbatch : Batch zones chunk len) :
    (batchFrame zones t lsn chunk).decodeForReplay zones = .ok (.mutationBatch lsn t chunk) := by
  obtain ⟨payload, hpayload, rfl, hmax⟩ := hbatch
  have hlt : payload.length < sizeLimit := by
    have hlimit : MAX_RECORD_LEN < sizeLimit := by decide
    omega
  rw [batchFrame, hpayload]
  exact decode_mutationBatch
    (WalCodec.decodeEvents_encode h.typed h.replayable hpayload hlt) chunk

theorem recordOf_eq {raw : RawRecord} {record : WalRecord}
    (h : raw.decodeForReplay zones = .ok record) :
    recordOf zones raw = (record, raw.encodedLen) := by
  rw [recordOf, h]
  rfl

theorem chunkOf_append {start mid stop : ℕ} (h : start ≤ mid) (h' : mid ≤ stop)
    (hlen : mid ≤ events.length) :
    chunkOf events start mid ++ chunkOf events mid stop = chunkOf events start stop := by
  have hsplit : events.take stop = events.take mid ++ (events.take stop).drop mid := by
    conv_lhs => rw [← take_append_drop mid (events.take stop), take_take, Nat.min_eq_left h']
  rw [chunkOf, chunkOf, chunkOf]
  conv_rhs => rw [hsplit]
  rw [drop_append_of_le_length (by rw [length_take]; omega)]

theorem chunkOf_all : chunkOf events 0 events.length = events := by
  simp [chunkOf]

/-- What the batches of a transaction come to when they are read. -/
structure BatchesRead (zones : ZoneDb) (t : Lsn) (chunk : List MutationEvent)
    (frames : List RawRecord) : Prop where
  readable : ∀ f ∈ frames, f.Readable zones
  receipts : ∀ segment offset events,
    receiptsFrom segment offset events (frames.map (recordOf zones)) = []
  written : ∀ events, eventsAfter events (frames.map (recordOf zones)) = events ++ chunk
  contiguous : Contiguous (some t) (frames.map (recordOf zones))
  current : currentAfter (some t) (frames.map (recordOf zones)) = some t
  payload : ∀ f ∈ frames, f.txBeginLsn = t ∧ f.encodedLen ≤ MAX_RECORD_LEN

theorem batchFrames_read {start stop : ℕ} {batches : List (ℕ × ℕ)} {lsn : Lsn}
    (h : Loggable events) (hplan : PlanTo zones events start batches stop)
    (hstop : stop ≤ events.length) :
    start ≤ stop ∧ BatchesRead zones t (chunkOf events start stop)
      (batchFrames zones events t lsn start batches) := by
  induction batches generalizing start lsn with
  | nil =>
    obtain rfl : start = stop := hplan
    have hnone : chunkOf events start start = [] := by simp [chunkOf]
    rw [hnone]
    exact ⟨le_rfl, by simp [batchFrames], fun _ _ _ => rfl, by simp [batchFrames, eventsAfter],
      trivial, rfl, by simp [batchFrames]⟩
  | cons batch batches ih =>
    obtain ⟨mid, len⟩ := batch
    obtain ⟨hle, hmid, hbatch, hrest⟩ := hplan
    obtain ⟨hle', hread⟩ := @ih mid (lsn + 1) hrest
    have hdecode : (batchFrame zones t lsn (chunkOf events start mid)).decodeForReplay zones =
        .ok (.mutationBatch lsn t (chunkOf events start mid)) :=
      batchFrame_decode (h.chunk start mid) hbatch
    have hrecord := recordOf_eq hdecode
    obtain ⟨payload, hpayload, rfl, hmax⟩ := hbatch
    refine ⟨hle.trans hle', ?_, ?_, ?_, ?_, ?_, ?_⟩
    · intro f hf
      rcases List.mem_cons.mp hf with rfl | hf
      · exact ⟨_, hdecode⟩
      · exact hread.readable f hf
    · intro segment offset events'
      rw [batchFrames, map_cons, hrecord, receiptsFrom, hread.receipts]
    · intro events'
      rw [batchFrames, map_cons, hrecord, eventsAfter, hread.written,
        append_assoc, chunkOf_append hle hle' hmid]
    · rw [batchFrames, map_cons, hrecord, Contiguous]
      exact ⟨rfl, hread.contiguous⟩
    · rw [batchFrames, map_cons, hrecord, currentAfter, hread.current]
    · intro f hf
      rcases List.mem_cons.mp hf with rfl | hf
      · refine ⟨rfl, ?_⟩
        rw [RawRecord.encodedLen, batchFrame, hpayload]
        exact hmax
      · exact hread.payload f hf

/-- A transaction that can be written: its batches are planned, and there are LSNs left
for its records. -/
structure Writable (zones : ZoneDb) (events : List MutationEvent) (batches : List (ℕ × ℕ))
    (t : Lsn) : Prop where
  loggable : Loggable events
  planned : PlanTo zones events 0 batches events.length
  room : t + batches.length + 2 < 2 ^ 64

section Writable

variable {batches : List (ℕ × ℕ)}

/-- The frames before the commit. -/
def openFrames (zones : ZoneDb) (events : List MutationEvent) (t : Lsn)
    (batches : List (ℕ × ℕ)) : List RawRecord :=
  (WalRecord.txBegin t).raw [] :: batchFrames zones events t (t + 1) 0 batches

theorem txFrames_eq : txFrames zones events t batches = openFrames zones events t batches ++
    [(WalRecord.txCommit (t + 1 + batches.length) t).raw []] := rfl

theorem Writable.batchesRead (h : Writable zones events batches t) :
    BatchesRead zones t events (batchFrames zones events t (t + 1) 0 batches) := by
  have hread : BatchesRead zones t (chunkOf events 0 events.length)
      (batchFrames zones events t (t + 1) 0 batches) :=
    (batchFrames_read h.loggable h.planned le_rfl).2
  rwa [chunkOf_all] at hread

theorem Writable.fits (h : Writable zones events batches t) :
    ∀ f ∈ txFrames zones events t batches, f.Fits := by
  have hroom : t + (batches.length + 2) < 256 ^ 8 := h.room.trans_le (by norm_num)
  have ht : t < 256 ^ 8 := (Nat.le_add_right _ _).trans_lt hroom
  have hlsn : ∀ f ∈ txFrames zones events t batches, f.lsn < 256 ^ 8 := by
    intro f hf
    have hmem := mem_map_of_mem (f := RawRecord.lsn) hf
    rw [txFrames_lsn, mem_range'_1] at hmem
    exact hmem.2.trans hroom
  have hmarker : ∀ record : WalRecord, record.txBeginLsn < 256 ^ 8 →
      (record.raw []) ∈ txFrames zones events t batches → (record.raw []).Fits := by
    intro record htx hmem
    refine ⟨hlsn _ hmem, htx, ?_⟩
    simp [RawRecord.encodedLen, WalRecord.raw, MAX_RECORD_LEN, RECORD_HEADER_LEN,
      RECORD_TRAILER_LEN]
  intro f hf
  have hall := hf
  rw [txFrames, mem_cons, mem_append, mem_singleton] at hf
  rcases hf with rfl | hf | rfl
  · exact hmarker _ (Nat.pos_of_ne_zero (by norm_num)) hall
  · obtain ⟨htx, hmax⟩ := h.batchesRead.payload f hf
    exact ⟨hlsn f hall, htx ▸ ht, hmax⟩
  · exact hmarker _ ht hall

theorem Writable.readable (h : Writable zones events batches t) :
    ∀ f ∈ txFrames zones events t batches, f.Readable zones := by
  intro f hf
  rw [txFrames, mem_cons, mem_append, mem_singleton] at hf
  rcases hf with rfl | hf | rfl
  · exact ⟨_, decode_txBegin t⟩
  · exact h.batchesRead.readable f hf
  · exact ⟨_, decode_txCommit _ t⟩

theorem openFrames_records (zones : ZoneDb) (events : List MutationEvent) (t : Lsn)
    (batches : List (ℕ × ℕ)) :
    (openFrames zones events t batches).map (recordOf zones) =
      (.txBegin t, ((WalRecord.txBegin t).raw []).encodedLen) ::
        (batchFrames zones events t (t + 1) 0 batches).map (recordOf zones) := rfl

/-- Frames of a transaction without its commit commit nothing. -/
theorem Writable.openFrames_receipts (h : Writable zones events batches t)
    {frames : List RawRecord} (hp : frames <+: openFrames zones events t batches)
    (segment : SegmentId) (offset : ℕ) (before : List MutationEvent) :
    receiptsFrom segment offset before (frames.map (recordOf zones)) = [] := by
  obtain ⟨rest, hrest⟩ := hp
  have hall : receiptsFrom segment offset before
      ((openFrames zones events t batches).map (recordOf zones)) = [] := by
    rw [openFrames_records, receiptsFrom, h.batchesRead.receipts]
  rw [← hrest, map_append, receiptsFrom_append, append_eq_nil_iff] at hall
  exact hall.1

/-- A transaction commits its events. -/
theorem Writable.receipts [Crc32] (h : Writable zones events batches t) (segment : SegmentId)
    (offset : ℕ) (before : List MutationEvent) :
    receiptsFrom segment offset before
      ((txFrames zones events t batches).map (recordOf zones)) = [⟨events, segment,
          offset + (framesBytes (txFrames zones events t batches)).length⟩] := by
  have hsize : recordsSize ((openFrames zones events t batches).map (recordOf zones)) =
      (framesBytes (openFrames zones events t batches)).length := recordsSize_recordOf _
  have hopen := h.openFrames_receipts prefix_rfl segment offset before
  have hwritten : eventsAfter before
      ((openFrames zones events t batches).map (recordOf zones)) = events := by
    rw [openFrames_records, eventsAfter, h.batchesRead.written, nil_append]
  rw [txFrames_eq, map_append, receiptsFrom_append, hopen, hwritten, hsize]
  have hcommit := @recordOf_eq zones _ _ (decode_txCommit (t + 1 + batches.length) t)
  rw [map_singleton, hcommit, receiptsFrom, receiptsFrom, nil_append,
    framesBytes_append, length_append, framesBytes_cons, framesBytes_nil, append_nil,
    RawRecord.bytes_length, Nat.add_assoc]

/-- The records of a transaction are its own. -/
theorem Writable.contiguous (h : Writable zones events batches t) {frames : List RawRecord}
    (hp : frames <+: txFrames zones events t batches) (current : Option Lsn) :
    Contiguous current (frames.map (recordOf zones)) := by
  obtain ⟨rest, hrest⟩ := hp
  have hall : Contiguous current ((txFrames zones events t batches).map (recordOf zones)) := by
    have hcommit := @recordOf_eq zones _ _ (decode_txCommit (t + 1 + batches.length) t)
    rw [txFrames_eq, map_append, contiguous_append, openFrames_records, Contiguous,
      currentAfter, h.batchesRead.current]
    refine ⟨h.batchesRead.contiguous, ?_⟩
    rw [map_cons, map_nil, hcommit]
    exact ⟨rfl, trivial⟩
  rw [← hrest, map_append, contiguous_append] at hall
  exact hall.1

end Writable

end Frames

end LoraDb
