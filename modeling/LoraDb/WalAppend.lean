import LoraDb.WalBatches

/-!
# Appending a Transaction, or Nothing of It

How a transaction is cut into batch records, and what an append that fails leaves behind.

The cut is tight in both directions: a plan exists exactly when each event fits a record of
its own, and then every batch of it is a slice of one event or stays within the target. The
append works on the log's state in memory and writes between batches; as long as nothing of
the transaction was written, a failure takes it all back.

## Main results

* `planBatches_iff`: a plan exists exactly for events that can be recorded one by one.
* `planBatches_cuts`: its batches are non-empty slices that together are the events.
* `commitTxEvents_eq`: a commit is that append, between a rotation and a flush.
* `appendCounted_error`: after a failure, the handle is the one before the append, or the
  transaction's first bytes are in the file without its commit.
-/

open ByteCodec SortedMap

namespace LoraDb

open List

/-! ### The plan -/

/-- The total length of a record with such a payload. -/
def recordLen (payloadLen : ℕ) : ℕ := RECORD_HEADER_LEN + payloadLen + RECORD_TRAILER_LEN

section Plan

variable (zones : ZoneDb)

/-- The event alone fits a record. -/
def Recordable (event : MutationEvent) : Prop := ∃ len, Batch zones [event] len

/-- The slices of the events that a plan names, with their payload lengths. -/
def slicesOf (events : List MutationEvent) : ℕ → List (ℕ × ℕ) → List (List MutationEvent × ℕ)
  | _, [] => []
  | start, (stop, len) :: batches =>
    (chunkOf events start stop, len) :: slicesOf events stop batches

/-- A batch as a plan makes them: some events, encoding to as many bytes as planned within the
record limit, and within the target unless there is only one. -/
structure Planned (target : ℕ) (slice : List MutationEvent × ℕ) : Prop where
  nonempty : slice.1 ≠ []
  batch : Batch zones slice.1 slice.2
  target : slice.1.length = 1 ∨ recordLen slice.2 ≤ target

/-- The batches cut the events from `start` up to `stop` into planned slices. -/
def CutTo (target : ℕ) (events : List MutationEvent) : ℕ → List (ℕ × ℕ) → ℕ → Prop
  | start, [], stop => start = stop
  | start, (mid, len) :: batches, stop =>
    start < mid ∧ mid ≤ events.length ∧ Planned zones target (chunkOf events start mid, len) ∧
      CutTo target events mid batches stop

end Plan

section Plan

variable {zones : ZoneDb} {target : ℕ} {events : List MutationEvent} {batches : List (ℕ × ℕ)}

theorem CutTo.concat {start mid stop len : ℕ}
    (h : CutTo zones target events start batches mid) (hlt : mid < stop)
    (hstop : stop ≤ events.length)
    (hplanned : Planned zones target (chunkOf events mid stop, len)) :
    CutTo zones target events start (batches ++ [(stop, len)]) stop := by
  induction batches generalizing start with
  | nil =>
    obtain rfl : start = mid := h
    exact ⟨hlt, hstop, hplanned, rfl⟩
  | cons batch batches ih =>
    obtain ⟨hlt', hmid, hbatch, hrest⟩ := h
    exact ⟨hlt', hmid, hbatch, ih hrest⟩

theorem CutTo.slices {start stop : ℕ}
    (h : CutTo zones target events start batches stop) (hstop : stop ≤ events.length) :
    start ≤ stop ∧
      ((slicesOf events start batches).map Prod.fst).flatten = chunkOf events start stop ∧
      ∀ slice ∈ slicesOf events start batches, Planned zones target slice := by
  induction batches generalizing start with
  | nil =>
    obtain rfl : start = stop := h
    exact ⟨le_rfl, by simp [slicesOf, chunkOf], by simp [slicesOf]⟩
  | cons batch batches ih =>
    obtain ⟨hlt, hmid, hbatch, hrest⟩ := h
    obtain ⟨hle, hflat, hall⟩ := ih hrest
    refine ⟨by omega, ?_, ?_⟩
    · rw [slicesOf, map_cons, flatten_cons, hflat]
      exact chunkOf_append hlt.le hle hmid
    · exact List.forall_mem_cons.mpr ⟨hbatch, hall⟩

variable {chunk : List MutationEvent}

/-- What a batch's payload takes: its prefix and its events' bytes. -/
theorem batch_iff {len : ℕ} :
    Batch zones chunk len ↔ ∃ body, writeEach (WalCodec.writeEvent zones) chunk = .ok body ∧
      chunk.length < sizeLimit ∧ len = 12 + body.length ∧ recordLen len ≤ MAX_RECORD_LEN := by
  constructor
  · rintro ⟨payload, hpayload, rfl, hmax⟩
    rw [WalCodec.encodeEventsInto, writeAll_cons] at hpayload
    obtain ⟨_, hmagic, rest, hrest, rfl⟩ := hpayload
    obtain ⟨count, hcount, body, hbody, rfl⟩ := writeAll_cons.mp hrest
    obtain rfl := Except.ok.inj hmagic
    obtain ⟨hlt, rfl⟩ := writeCount_eq_ok.mp hcount
    rw [writeAll_singleton] at hbody
    refine ⟨body, hbody, hlt, ?_, hmax⟩
    simp [WalCodec.PAYLOAD_MAGIC]
    omega
  · rintro ⟨body, hbody, hlt, rfl, hmax⟩
    refine ⟨WalCodec.PAYLOAD_MAGIC ++ (leBytes 8 chunk.length ++ body), ?_, ?_, hmax⟩
    · rw [WalCodec.encodeEventsInto, writeAll_cons]
      refine ⟨_, rfl, _, writeAll_cons.mpr ⟨_, writeCount_eq_ok.mpr ⟨hlt, rfl⟩, body, ?_, rfl⟩, rfl⟩
      rw [writeAll_singleton, hbody]
    · simp [WalCodec.PAYLOAD_MAGIC]
      omega

/-- Events of a record are fewer than its bytes. -/
theorem length_lt_of_body {body : Bytes}
    (hbody : writeEach (WalCodec.writeEvent zones) chunk = .ok body)
    (hmax : recordLen (12 + body.length) ≤ MAX_RECORD_LEN) : chunk.length + 1 < sizeLimit := by
  have hone := writeEach_length (m := 1) (fun _ _ _ hw => WalCodec.writeEvent_length hw) hbody
  have hlimit : MAX_RECORD_LEN + 1 < sizeLimit := by decide
  simp only [recordLen] at hmax
  omega

theorem batchPayloadLen_ok {count n : ℕ} (hcount : count < sizeLimit)
    (hlt : 12 + n < sizeLimit) : WalCodec.batchPayloadLen count n = .ok (12 + n) := by
  have hsize : WalCodec.sizeLen count WalCodec.PAYLOAD_MAGIC.length = .ok 12 := by
    simp only [WalCodec.sizeLen, if_pos hcount, WalCodec.sizeU64, WalCodec.addSize,
      ByteCodec.addSize]
    decide
  refine bind_eq_ok.mpr ⟨12, hsize, addSize_eq_ok.mpr ⟨rfl, hlt⟩⟩

theorem recordLen_lt {n : ℕ} (h : recordLen n ≤ MAX_RECORD_LEN) : n < sizeLimit := by
  have hlimit : MAX_RECORD_LEN < sizeLimit := by decide
  simp only [recordLen] at h
  omega

theorem batchPayloadLenChecked_ok {count n : ℕ} (hcount : count < sizeLimit)
    (hmax : recordLen (12 + n) ≤ MAX_RECORD_LEN) :
    Wal.batchPayloadLenChecked count n = .ok (12 + n) := by
  have hframed : framedLen (12 + n) = .ok (recordLen (12 + n)) :=
    framedLen_eq_ok.mpr ⟨rfl, hmax⟩
  rw [Wal.batchPayloadLenChecked]
  refine bind_eq_ok.mpr ⟨12 + n, batchPayloadLen_ok hcount (recordLen_lt hmax), ?_⟩
  rw [hframed]

/-- The plan so far, before the event at `index`: every batch is planned, and the open one
would be if it were closed. -/
structure Filling (zones : ZoneDb) (target : ℕ) (events : List MutationEvent) (index : ℕ)
    (b : Wal.BatchPlan) : Prop where
  cut : CutTo zones target events 0 b.plan b.start
  start : b.start ≤ index
  body : ∃ body, writeEach (WalCodec.writeEvent zones) (chunkOf events b.start index) =
    .ok body ∧ b.chunkBytes = body.length
  planned : b.start < index → Planned zones target (chunkOf events b.start index, 12 + b.chunkBytes)

theorem chunkOf_self (index : ℕ) : chunkOf events index index = [] := by
  simp [chunkOf]

theorem Filling.new : Filling zones target events 0 ⟨[], 0, 0⟩ :=
  ⟨rfl, le_rfl, ⟨[], by simp [chunkOf, writeEach, writeAll], rfl⟩,
    fun h => absurd h (Nat.lt_irrefl 0)⟩

variable {b : Wal.BatchPlan} {index : ℕ}

theorem Filling.closed (h : Filling zones target events index b) (hindex : index ≤ events.length)
    (hlt : b.start < index) :
    CutTo zones target events 0 (b.plan ++ [(index, 12 + b.chunkBytes)]) index :=
  h.cut.concat hlt hindex (h.planned hlt)

/-- A batch with events in it can be closed. -/
theorem Filling.checked (h : Filling zones target events index b) (hindex : index ≤ events.length)
    (hlt : b.start < index) :
    Wal.batchPayloadLenChecked (index - b.start) b.chunkBytes = .ok (12 + b.chunkBytes) := by
  obtain ⟨body, hbody, hcount, -, hmax⟩ := batch_iff.mp (h.planned hlt).batch
  rw [chunkOf_length hindex] at hcount
  exact batchPayloadLenChecked_ok hcount hmax

theorem Filling.close (h : Filling zones target events index b) (hindex : index ≤ events.length)
    (hlt : b.start < index) :
    ∃ b', Wal.closeBatch.close index b (index - b.start) = .ok b' ∧
      Filling zones target events index b' ∧ b'.start = index := by
  refine ⟨_, bind_eq_ok.mpr ⟨_, h.checked hindex hlt, rfl⟩, ⟨h.closed hindex hlt, le_rfl, ⟨[], ?_,
    rfl⟩, ?_⟩, rfl⟩
  · simp [chunkOf_self, writeEach, writeAll]
  · intro hself
    exact absurd hself (Nat.lt_irrefl _)

variable {event : MutationEvent}

/-- The next event starts a batch, which holds it alone. -/
theorem Filling.first {bs : Bytes}
    (h : Filling zones target events index b) (hstart : b.start = index)
    (hevent : events[index]? = some event)
    (hbs : WalCodec.writeEvent zones event = .ok bs)
    (hmax : recordLen (12 + bs.length) ≤ MAX_RECORD_LEN) :
    Filling zones target events (index + 1) { b with chunkBytes := b.chunkBytes + bs.length } := by
  obtain ⟨body, hbody, hbytes⟩ := h.body
  obtain rfl : body = [] := by
    rw [hstart, chunkOf_self] at hbody
    exact writeAll_nil.mp hbody
  have hchunk : chunkOf events b.start (index + 1) = [event] := by
    rw [chunkOf_succ h.start hevent, hstart, chunkOf_self, nil_append]
  have hwrite : writeEach (WalCodec.writeEvent zones) [event] = .ok bs := by
    rw [writeEach, map_singleton, writeAll_singleton, hbs]
  have hzero : b.chunkBytes + bs.length = bs.length := by simp [hbytes]
  refine ⟨h.cut, h.start.trans (Nat.le_succ _), ⟨bs, ?_, hzero⟩, ?_⟩
  · rw [hchunk, hwrite]
  · intro _
    rw [hchunk, hzero]
    exact ⟨cons_ne_nil _ _, batch_iff.mpr ⟨bs, hwrite, by simp [sizeLimit], rfl, hmax⟩, .inl rfl⟩

/-- One more event in a batch that it does not outgrow. -/
theorem Filling.grow {bs : Bytes}
    (h : Filling zones target events index b) (hevent : events[index]? = some event)
    (hbs : WalCodec.writeEvent zones event = .ok bs)
    (hmax : recordLen (12 + (b.chunkBytes + bs.length)) ≤ MAX_RECORD_LEN)
    (htarget : recordLen (12 + (b.chunkBytes + bs.length)) ≤ target) :
    Filling zones target events (index + 1) { b with chunkBytes := b.chunkBytes + bs.length } := by
  obtain ⟨body, hbody, hbytes⟩ := h.body
  have hwrite : writeEach (WalCodec.writeEvent zones) (chunkOf events b.start (index + 1)) =
      .ok (body ++ bs) := by
    rw [chunkOf_succ h.start hevent, writeEach_concat]
    exact ⟨body, hbody, bs, hbs, rfl⟩
  have hlen : b.chunkBytes + bs.length = (body ++ bs).length := by rw [hbytes, length_append]
  rw [hlen] at hmax htarget ⊢
  have hcount := length_lt_of_body hwrite hmax
  refine ⟨h.cut, h.start.trans (Nat.le_succ _), ⟨_, hwrite, rfl⟩,
    fun _ => ⟨?_, ?_, .inr htarget⟩⟩
  · rw [chunkOf_succ h.start hevent]
    exact append_ne_nil_of_right_ne_nil _ (cons_ne_nil _ _)
  · exact batch_iff.mpr ⟨_, hwrite, (Nat.lt_succ_self _).trans hcount, rfl, hmax⟩

/-- One event: its batch is closed before it or takes it, and neither step fails. -/
theorem Filling.step {bs : Bytes}
    (h : Filling zones target events index b) (hevent : events[index]? = some event)
    (hbs : WalCodec.writeEvent zones event = .ok bs)
    (hmax : recordLen (12 + bs.length) ≤ MAX_RECORD_LEN) :
    ∃ b', Wal.closeBatch target index bs.length b = .ok b' ∧
      b'.chunkBytes + bs.length < sizeLimit ∧ b'.start ≤ index ∧
      Filling zones target events (index + 1)
        { b' with chunkBytes := b'.chunkBytes + bs.length } := by
  obtain ⟨hindex, -⟩ := List.getElem?_eq_some_iff.mp hevent
  have hlimit : 12 + (MAX_RECORD_LEN + MAX_RECORD_LEN) < sizeLimit := by decide
  have hown : bs.length ≤ MAX_RECORD_LEN := by
    simp only [recordLen] at hmax
    omega
  -- a batch that was just closed takes the event alone
  have hafter : ∀ b', Filling zones target events index b' → b'.start = index →
      b'.chunkBytes + bs.length < sizeLimit ∧ b'.start ≤ index ∧
        Filling zones target events (index + 1)
          { b' with chunkBytes := b'.chunkBytes + bs.length } := by
    intro b' h' hstart
    obtain ⟨body, hbody, hbytes⟩ := h'.body
    rw [hstart, chunkOf_self] at hbody
    obtain rfl := writeAll_nil.mp hbody
    refine ⟨?_, hstart.le, h'.first hstart hevent hbs hmax⟩
    rw [hbytes, length_nil]
    omega
  by_cases hlt : b.start < index
  · have hbatch := (h.planned hlt).batch
    obtain ⟨body, hbody, hcount, -, hfull⟩ := batch_iff.mp hbatch
    obtain ⟨body', hbody', hbytes⟩ := h.body
    obtain rfl : body = body' := Except.ok.inj (hbody.symm.trans hbody')
    rw [hbytes] at hfull
    have hopen : b.chunkBytes ≤ MAX_RECORD_LEN := by
      simp only [recordLen] at hfull
      omega
    have hsaturating : ReplayState.saturatingAdd b.chunkBytes bs.length =
        b.chunkBytes + bs.length := by
      have hword : sizeLimit = 2 ^ 64 := rfl
      rw [ReplayState.saturatingAdd]
      omega
    have hcount' : index - b.start + 1 < sizeLimit := by
      have hfew := length_lt_of_body hbody hfull
      rwa [chunkOf_length hindex.le] at hfew
    have hgrown : WalCodec.batchPayloadLen (index - b.start + 1)
        (ReplayState.saturatingAdd b.chunkBytes bs.length) =
          .ok (12 + (b.chunkBytes + bs.length)) := by
      rw [hsaturating]
      exact batchPayloadLen_ok hcount' (by omega)
    obtain ⟨closed, hclose, hclosed, hstart⟩ := h.close hindex.le hlt
    rw [Wal.closeBatch]
    simp only [if_pos (Nat.sub_pos_of_lt hlt), hgrown]
    cases hframed : framedLen (12 + (b.chunkBytes + bs.length)) with
    | error e =>
      obtain ⟨hroom, hnext⟩ := hafter closed hclosed hstart
      exact ⟨closed, by simpa [hframed, bind, Except.bind] using hclose, hroom, hnext⟩
    | ok total =>
      obtain ⟨rfl, htotal⟩ := framedLen_eq_ok.mp hframed
      by_cases htarget : recordLen (12 + (b.chunkBytes + bs.length)) ≤ target
      · refine ⟨b, ?_, by omega, h.start, h.grow hevent hbs htotal htarget⟩
        simp only [recordLen] at htarget
        simp [bind, Except.bind, hframed, htarget]
      · obtain ⟨hroom, hnext⟩ := hafter closed hclosed hstart
        refine ⟨closed, ?_, hroom, hnext⟩
        simp only [recordLen] at htarget
        simpa [bind, Except.bind, hframed, htarget] using hclose
  · have hstart : b.start = index := le_antisymm h.start (Nat.not_lt.mp hlt)
    obtain ⟨hroom, hnext⟩ := hafter b h hstart
    refine ⟨b, ?_, hroom, hnext⟩
    rw [Wal.closeBatch]
    simp only [hstart, Nat.sub_self, Nat.lt_irrefl, if_false]

/-- Events that can each be recorded are planned to the end. -/
theorem Filling.run {rest : List MutationEvent}
    (h : Filling zones target events index b) (hindex : index ≤ events.length)
    (hrest : events.drop index = rest) (hfit : ∀ event ∈ rest, Recordable zones event) :
    ∃ b', Wal.planEvents zones target index b rest = .ok b' ∧
      Filling zones target events events.length b' ∧
      (b.start < index ∨ rest ≠ [] → b'.start < events.length) := by
  induction rest generalizing index b with
  | nil =>
    have hend : index = events.length := le_antisymm hindex (List.drop_eq_nil_iff.mp hrest)
    refine ⟨b, rfl, hend ▸ h, fun hopen => ?_⟩
    rcases hopen with hlt | hnil
    · exact hend ▸ hlt
    · exact absurd rfl hnil
  | cons event rest ih =>
    have hlt : index < events.length := by
      by_contra hge
      rw [drop_eq_nil_of_le (Nat.not_lt.mp hge)] at hrest
      cases hrest
    have hsplit := drop_eq_getElem_cons hlt
    rw [hrest] at hsplit
    obtain ⟨rfl, rfl⟩ := cons.inj hsplit
    obtain ⟨len, halone⟩ := hfit events[index] (mem_cons_self ..)
    obtain ⟨bs, hbs, -, rfl, hmax⟩ := batch_iff.mp halone
    rw [writeEach, map_singleton, writeAll_singleton] at hbs
    obtain ⟨b₁, hclose, hroom, hstart, hnext⟩ := h.step (getElem?_eq_getElem hlt) hbs hmax
    obtain ⟨b', hplan, hfilling, hopen⟩ :=
      ih hnext hlt rfl fun e he => hfit e (mem_cons_of_mem _ he)
    have hsize : WalCodec.encodedBatchEventLen zones events[index] = .ok bs.length := by
      refine (WalCodec.sizeEvent_measures _ 0 _ (by decide)).mpr ⟨bs, hbs, by simp, ?_⟩
      have := recordLen_lt hmax
      omega
    refine ⟨b', bind_eq_ok.mpr ⟨_, hsize, bind_eq_ok.mpr ⟨b₁, hclose, ?_⟩⟩, hfilling,
      fun _ => hopen (.inl (Nat.lt_succ_of_le hstart))⟩
    rw [if_neg (Nat.not_le.mpr hroom)]
    exact hplan

/-- Each element of what is written was written, in no more bytes than all of it. -/
theorem writeEach_mem {α : Type} {write : α → Except WalError Bytes} {xs : List α} {bs : Bytes}
    (h : writeEach write xs = .ok bs) {x : α} (hx : x ∈ xs) :
    ∃ w, write x = .ok w ∧ w.length ≤ bs.length := by
  induction xs generalizing bs with
  | nil => cases hx
  | cons y xs ih =>
    obtain ⟨a, ha, b, hb, rfl⟩ := writeAll_cons.mp h
    rw [length_append]
    rcases List.mem_cons.mp hx with rfl | hx
    · exact ⟨a, ha, by omega⟩
    · obtain ⟨w, hw, hle⟩ := ih hb hx
      exact ⟨w, hw, by omega⟩

theorem Batch.recordable {len : ℕ} (h : Batch zones chunk len)
    (hevent : event ∈ chunk) : Recordable zones event := by
  obtain ⟨body, hbody, -, rfl, hmax⟩ := batch_iff.mp h
  obtain ⟨bs, hbs, hle⟩ := writeEach_mem hbody hevent
  refine ⟨12 + bs.length, batch_iff.mpr ⟨bs, ?_, by simp [sizeLimit], rfl, ?_⟩⟩
  · rw [writeEach, map_singleton, writeAll_singleton, hbs]
  · simp only [recordLen] at hmax ⊢
    omega

theorem PlanTo.recordable {start stop : ℕ} (h : PlanTo zones events start batches stop) :
    start ≤ stop ∧ ∀ event ∈ chunkOf events start stop, Recordable zones event := by
  induction batches generalizing start with
  | nil =>
    obtain rfl : start = stop := h
    exact ⟨le_rfl, by simp [chunkOf_self]⟩
  | cons batch batches ih =>
    obtain ⟨hle, hmid, hbatch, hrest⟩ := h
    obtain ⟨hle', hall⟩ := ih hrest
    refine ⟨hle.trans hle', ?_⟩
    rw [← chunkOf_append hle hle' hmid]
    exact List.forall_mem_append.mpr ⟨fun event hevent => hbatch.recordable hevent, hall⟩

/-- Events that can each be recorded are cut into planned batches. -/
theorem planBatches_eq_ok (target : ℕ) (hfit : ∀ event ∈ events, Recordable zones event) :
    ∃ batches, Wal.planBatches zones target events = .ok batches ∧
      (events ≠ [] → CutTo zones target events 0 batches events.length) := by
  have hnew : Filling zones target events 0 ⟨[], 0, 0⟩ := Filling.new
  obtain ⟨b, hplan, h, hopen⟩ := hnew.run (Nat.zero_le _) rfl hfit
  by_cases hlt : b.start < events.length
  · refine ⟨_, bind_eq_ok.mpr ⟨b, hplan, bind_eq_ok.mpr ⟨_, h.checked le_rfl hlt, rfl⟩⟩, fun _ =>
      ?_⟩
    exact h.closed le_rfl hlt
  · have hstart : b.start = events.length := le_antisymm h.start (Nat.not_lt.mp hlt)
    obtain ⟨body, hbody, hbytes⟩ := h.body
    rw [hstart, chunkOf_self] at hbody
    obtain rfl := writeAll_nil.mp hbody
    have hzero : Wal.batchPayloadLenChecked (events.length - b.start) b.chunkBytes = .ok 12 := by
      rw [hstart, Nat.sub_self, hbytes]
      exact batchPayloadLenChecked_ok (by decide) (by decide)
    refine ⟨_, bind_eq_ok.mpr ⟨b, hplan, bind_eq_ok.mpr ⟨_, hzero, rfl⟩⟩, fun hne => ?_⟩
    -- a batch is closed in front of an event, so the last one has events in it
    exact absurd (hopen (.inr hne)) hlt

/-- A plan exists exactly for events that can be recorded one by one. -/
theorem planBatches_iff : (∃ batches, Wal.planBatches zones target events = .ok batches) ↔
      ∀ event ∈ events, Recordable zones event := by
  constructor
  · rintro ⟨batches, hbatches⟩
    have hall := (planBatches_planned hbatches).1.recordable.2
    rwa [chunkOf_all] at hall
  · intro hfit
    obtain ⟨batches, hbatches, -⟩ := planBatches_eq_ok target hfit
    exact ⟨batches, hbatches⟩

/-- The batches of a plan are planned slices that together are the events, in order. -/
theorem planBatches_cuts (hne : events ≠ [])
    (h : Wal.planBatches zones target events = .ok batches) :
    ((slicesOf events 0 batches).map Prod.fst).flatten = events ∧
      ∀ slice ∈ slicesOf events 0 batches, Planned zones target slice := by
  obtain ⟨batches', h', hcut⟩ := planBatches_eq_ok target
    (planBatches_iff.mp ⟨batches, h⟩)
  obtain rfl := Except.ok.inj (h.symm.trans h')
  obtain ⟨-, hflat, hall⟩ := (hcut hne).slices le_rfl
  rw [chunkOf_all] at hflat
  exact ⟨hflat, hall⟩

end Plan

/-! ### The append -/

namespace Wal

variable {α β : Type}

/-- The segment files are in order, and the active one holds exactly the bytes that its writer
has written. -/
structure Settled (w : Wal) : Prop where
  sorted : Sorted w.files
  active : ∃ bytes, get? w.writer.file w.files = some bytes ∧ bytes.length = w.writer.bytesWritten

/-- On disk, `more` was added to the active file of a settled handle, and nothing else. -/
def Moved (w : Wal) (more : Bytes) (w' : Wal) : Prop :=
  Sorted w'.files ∧ ∃ bytes, get? w.writer.file w.files = some bytes ∧
    bytes.length = w.writer.bytesWritten ∧
    w'.files = put w.writer.file (bytes ++ more) w.files

/-- What appending records can change: the next LSN, the pending bytes, and the end of the
active file, onto which pending bytes move. `quiet` is to say that none have moved. -/
structure Appended (quiet : Prop) (w w' : Wal) : Prop where
  segmentTargetBytes : w'.segmentTargetBytes = w.segmentTargetBytes
  batchTargetBytes : w'.batchTargetBytes = w.batchTargetBytes
  state : w'.state = { w.state with
    nextLsn := w'.state.nextLsn
    activeWriter := { w.writer with
      bytesWritten := w'.writer.bytesWritten
      pending := w'.writer.pending } }
  nextLsn : w.state.nextLsn ≤ w'.state.nextLsn
  moved : ∃ more added, w'.writer.bytesWritten = w.writer.bytesWritten + more.length ∧
    w.writer.pending ++ added = more ++ w'.writer.pending ∧ (quiet → more = []) ∧
    (Settled w → Moved w more w')

/-- Putting back what a sorted map holds changes nothing. -/
theorem put_get? {κ γ : Type} [LinearOrder κ] {k : κ} {v : γ} {es : List (κ × γ)}
    (h : Sorted es) (hv : get? k es = some v) :
    put k v es = es := by
  refine (h.put k v).ext h fun k' => ?_
  rw [get?_put]
  split
  · next heq => rw [heq, hv]
  · rfl

theorem put_put {κ γ : Type} [LinearOrder κ] {k : κ} {v v' : γ} {es : List (κ × γ)}
    (h : Sorted es) :
    put k v' (put k v es) = put k v' es := by
  refine ((h.put k v).put k v').ext (h.put k v') fun k' => ?_
  simp only [get?_put]
  split <;> rfl

theorem Moved.refl {w : Wal} (h : Settled w) : Moved w [] w := by
  obtain ⟨bytes, hbytes, hlen⟩ := h.active
  refine ⟨h.sorted, bytes, hbytes, hlen, ?_⟩
  rw [append_nil, put_get? h.sorted hbytes]

theorem Appended.refl (quiet : Prop) (w : Wal) : Appended quiet w w :=
  ⟨rfl, rfl, rfl, le_rfl, [], [], rfl, append_nil _, fun _ => rfl, Moved.refl⟩

variable {quiet : Prop}

theorem Appended.file {w w' : Wal} (h : Appended quiet w w') : w'.writer.file = w.writer.file :=
  congrArg (fun s => s.activeWriter.file) h.state

theorem Appended.trans {w w' w'' : Wal} (h : Appended quiet w w')
    (h' : Appended quiet w' w'') : Appended quiet w w'' := by
  obtain ⟨more, added, hwritten, hpending, hquiet, hmoved⟩ := h.moved
  obtain ⟨more', added', hwritten', hpending', hquiet', hmoved'⟩ := h'.moved
  refine ⟨h'.segmentTargetBytes.trans h.segmentTargetBytes,
    h'.batchTargetBytes.trans h.batchTargetBytes, ?_, h.nextLsn.trans h'.nextLsn,
    more ++ more', added ++ added', ?_, ?_, ?_, fun hw => ?_⟩
  · have hw : w'.writer = { w.writer with
        bytesWritten := w'.writer.bytesWritten
        pending := w'.writer.pending } := congrArg WalState.activeWriter h.state
    rw [h'.state, h.state, hw]
  · rw [hwritten', hwritten, length_append, Nat.add_assoc]
  · rw [← append_assoc, hpending, append_assoc, hpending', append_assoc]
  · intro hq
    rw [hquiet hq, hquiet' hq]
    rfl
  · obtain ⟨hsorted, bytes, hbytes, hlen, hfiles⟩ := hmoved hw
    have hactive : get? w'.writer.file w'.files = some (bytes ++ more) := by
      rw [hfiles, h.file, get?_put, if_pos rfl]
    have hsettled : Settled w' := by
      refine ⟨hsorted, bytes ++ more, hactive, ?_⟩
      rw [hwritten, length_append, hlen]
    obtain ⟨hsorted', bytes', hbytes', -, hfiles'⟩ := hmoved' hsettled
    obtain rfl := Option.some.inj (hactive.symm.trans hbytes')
    refine ⟨hsorted', bytes, hbytes, hlen, ?_⟩
    rw [hfiles', h.file, hfiles, put_put hw.sorted, append_assoc]

/-- Where an operation ends, whether it fails or not. -/
def after : EStateM.Result WalError Wal α → Wal
  | .ok _ w | .error _ w => w

/-- The operation only appends. -/
def Appends (quiet : Prop) (op : WalM α) : Prop := ∀ w, Appended quiet w (after (op w))

theorem bind_run (op : WalM α) (next : α → WalM β) (w : Wal) : (op >>= next) w = match op w with
      | .ok a w' => next a w'
      | .error err w' => .error err w' := by
  rw [show (op >>= next) w = EStateM.bind op next w from rfl, EStateM.bind]
  cases op w <;> rfl

theorem Appends.pure (quiet : Prop) (a : α) : Appends quiet (pure a : WalM α) :=
  fun w => Appended.refl quiet w

theorem Appends.bind {op : WalM α} {next : α → WalM β}
    (hop : Appends quiet op) (hnext : ∀ a, Appends quiet (next a)) :
    Appends quiet (op >>= next) := by
  intro w
  have hfirst := hop w
  rw [bind_run]
  cases hrun : op w with
  | error err w' =>
    rw [hrun] at hfirst
    exact hfirst
  | ok a w' =>
    rw [hrun] at hfirst
    exact hfirst.trans (hnext a w')

theorem checkedNext_eq_some {n next : ℕ} (h : checkedNext n = some next) : next = n + 1 := by
  unfold checkedNext at h
  split at h
  · exact (Option.some.inj h).symm
  · cases h

theorem allocLsn_appends (quiet : Prop) : Appends quiet allocLsn := by
  intro w
  rw [allocLsn]
  cases hnext : checkedNext w.state.nextLsn with
  | none => exact Appended.refl quiet w
  | some next =>
    obtain rfl := checkedNext_eq_some hnext
    exact ⟨rfl, rfl, rfl, Nat.le_succ _, (Appended.refl quiet w).moved⟩

theorem appendFrame_appends (quiet : Prop) (frame : Except WalError Bytes) :
    Appends quiet (appendFrame frame) := by
  intro w
  unfold appendFrame
  split
  · exact Appended.refl quiet w
  · cases frame with
    | error err => exact Appended.refl quiet w
    | ok added => exact ⟨rfl, rfl, rfl, le_rfl, [], added, rfl, rfl, fun _ => rfl, Moved.refl⟩

/-- A write moves all pending bytes, or none when it fails: the file is cut back. -/
theorem flushBuffer_appends (site : IoSite) : Appends False (flushBuffer site) := by
  intro w
  rw [flushBuffer]
  split
  · exact Appended.refl False w
  rw [write]
  cases w.fault site with
  | some k =>
    refine ⟨rfl, rfl, rfl, le_rfl, [], [], rfl, append_nil _, fun h => h.elim, fun hw => ?_⟩
    obtain ⟨bytes, hbytes, hlen⟩ := hw.active
    have hcontents : w.files.contents w.writer.file = bytes := by
      rw [SegmentFiles.contents, hbytes, Option.getD_some]
    have hback : (SegmentFiles.contents (w.wrote w.writer.file w.writer.bytesWritten
        w.writer.pending k) w.writer.file).take w.writer.bytesWritten = bytes := by
      rw [SegmentFiles.contents, wrote, get?_put, if_pos rfl, Option.getD_some,
        hcontents, writeAt, ← hlen, take_length, append_assoc, take_left]
    have hfiles : put w.writer.file bytes (w.wrote w.writer.file
        w.writer.bytesWritten w.writer.pending k) = w.files := by
      rw [wrote, put_put hw.sorted, put_get? hw.sorted hbytes]
    refine ⟨?_, bytes, hbytes, hlen, ?_⟩
    · simp only [after, setLen, withFiles, hback, hfiles]
      exact hw.sorted
    · simp only [after, setLen, withFiles, hback, hfiles, append_nil, put_get? hw.sorted hbytes]
  | none =>
    refine ⟨rfl, rfl, rfl, le_rfl, w.writer.pending, [], rfl, rfl, fun h => h.elim, fun hw => ?_⟩
    obtain ⟨bytes, hbytes, hlen⟩ := hw.active
    have hcontents : w.files.contents w.writer.file = bytes := by
      rw [SegmentFiles.contents, hbytes, Option.getD_some]
    have hfiles : w.wrote w.writer.file w.writer.bytesWritten w.writer.pending
        w.writer.pending.length = put w.writer.file (bytes ++ w.writer.pending) w.files := by
      rw [wrote, take_length, hcontents, writeAt, ← hlen, take_length,
        drop_eq_nil_of_le (by omega), append_nil]
    refine ⟨?_, bytes, hbytes, hlen, hfiles⟩
    simp only [after, withWriter, withFiles, hfiles]
    exact hw.sorted.put _ _

theorem Appends.loud {op : WalM α} (h : Appends quiet op) : Appends False op := by
  intro w
  obtain ⟨hsegment, hbatch, hstate, hlsn, more, added, hwritten, hpending, -, hmoved⟩ := h w
  exact ⟨hsegment, hbatch, hstate, hlsn, more, added, hwritten, hpending, fun hf => hf.elim, hmoved⟩

section Zones

variable [Crc32] (zones : ZoneDb)

/-- Batches are appended; the first one moves nothing. -/
theorem appendBatches_appends (events : List MutationEvent) (beginLsn : Lsn) (first : Bool)
    (start : ℕ) (batches : List (ℕ × ℕ)) :
    Appends (first = true ∧ batches.length ≤ 1)
      (appendBatches zones events beginLsn first start batches) := by
  induction batches generalizing first start with
  | nil => exact Appends.pure _ ()
  | cons batch batches ih =>
    obtain ⟨stop, payloadLen⟩ := batch
    have hrest := ih false stop
    cases first with
    | false =>
      have hloud : Appends False
          (appendBatches zones events beginLsn false start ((stop, payloadLen) :: batches)) :=
        (flushBuffer_appends .batchWrite).bind fun _ => (allocLsn_appends False).bind fun _ =>
          (appendFrame_appends False _).bind fun _ => hrest.loud
      simpa using hloud
    | true =>
      cases batches with
      | nil =>
        rw [appendBatches]
        simp only [if_true]
        exact (allocLsn_appends _).bind fun _ =>
          (appendFrame_appends _ _).bind fun _ => Appends.pure _ ()
      | cons next batches =>
        have hloud : Appends False (appendBatches zones events beginLsn true start
            ((stop, payloadLen) :: next :: batches)) := by
          rw [appendBatches]
          simp only [if_true]
          exact (allocLsn_appends False).bind fun _ =>
            (appendFrame_appends False _).bind fun _ => hrest.loud
        simpa using hloud

theorem appendTx_appends (events : List MutationEvent) (batches : List (ℕ × ℕ)) :
    Appends (batches.length ≤ 1) (appendTx zones events batches) := by
  have hbatches : ∀ beginLsn, Appends (batches.length ≤ 1)
      (appendBatches zones events beginLsn true 0 batches) := fun beginLsn => by
    simpa using appendBatches_appends zones events beginLsn true 0 batches
  exact (allocLsn_appends _).bind fun beginLsn => (appendFrame_appends _ _).bind fun _ =>
    (hbatches beginLsn).bind fun _ => (allocLsn_appends _).bind fun _ =>
    (appendFrame_appends _ _).bind fun _ => Appends.pure _ _

/-- An append that does not even get its first LSN leaves the handle alone; otherwise an
LSN is used. -/
theorem appendTx_nextLsn {events : List MutationEvent} {batches : List (ℕ × ℕ)} {w w' : Wal}
    (hrun : after (appendTx zones events batches w) = w') :
    w' = w ∨ w.state.nextLsn < w'.state.nextLsn := by
  rw [appendTx, bind_run, allocLsn] at hrun
  cases hnext : checkedNext w.state.nextLsn with
  | none =>
    rw [hnext] at hrun
    exact .inl hrun.symm
  | some next =>
    rw [hnext] at hrun
    have hrest : Appends False (do
        append zones (.txBegin w.state.nextLsn)
        appendBatches zones events w.state.nextLsn true 0 batches
        let commitLsn ← allocLsn
        append zones (.txCommit commitLsn w.state.nextLsn)
        pure commitLsn) :=
      (appendFrame_appends _ _).bind fun _ => (appendBatches_appends zones events _ true 0
        batches).loud.bind fun _ => (allocLsn_appends _).bind fun _ =>
        (appendFrame_appends _ _).bind fun _ => Appends.pure _ _
    have happended := hrest (w.withNextLsn next)
    rw [hrun] at happended
    obtain rfl := checkedNext_eq_some hnext
    exact .inr happended.nextLsn

/-- The critical section of a commit, with the log's **growth counter**, which only an append
that succeeds advances: append the records, or take back what has not reached the file. -/
def appendCounted (events : List MutationEvent) (batches : List (ℕ × ℕ)) (appendedBytes : ℕ)
    (w : Wal) : Except WalError Lsn × Wal × ℕ :=
  match appendTx zones events batches w with
  | .ok lsn w' =>
    (.ok lsn, w', (appendedBytes + (w'.bytesWritten - w.bytesWritten)) % 2 ^ 64)
  | .error err w' =>
    if w'.writer.bytesWritten = w.writer.bytesWritten then
      (.error err, (w'.rollbackPending w.writer.pending.length).withNextLsn w.state.nextLsn,
        appendedBytes)
    else (.error err, w'.rollbackPending 0, appendedBytes)

end Zones

/-- Nothing of the append is left: not in memory, and not on disk. -/
structure Restored (w w' : Wal) : Prop where
  segmentTargetBytes : w'.segmentTargetBytes = w.segmentTargetBytes
  batchTargetBytes : w'.batchTargetBytes = w.batchTargetBytes
  state : w'.state = w.state
  files : Settled w → w'.files = w.files

/-- The first batches of the transaction are in the file, without its commit. What was pending
is gone, the LSNs stay used, and nothing else has changed. -/
structure LeftOpen (w w' : Wal) : Prop where
  segmentTargetBytes : w'.segmentTargetBytes = w.segmentTargetBytes
  batchTargetBytes : w'.batchTargetBytes = w.batchTargetBytes
  state : w'.state = { w.state with
    nextLsn := w'.state.nextLsn
    activeWriter := { w.writer with bytesWritten := w'.writer.bytesWritten, pending := [] } }
  nextLsn : w.state.nextLsn < w'.state.nextLsn
  written : w.writer.bytesWritten < w'.writer.bytesWritten
  files : Settled w → ∃ more, w'.writer.bytesWritten = w.writer.bytesWritten + more.length ∧
    Moved w more w'

/-- Taking back the pending bytes and the LSNs restores a handle that moved no bytes. -/
theorem Appended.restored {w w' : Wal} (h : Appended quiet w w')
    (hwritten : w'.writer.bytesWritten = w.writer.bytesWritten) :
    Restored w ((w'.rollbackPending w.writer.pending.length).withNextLsn w.state.nextLsn) := by
  obtain ⟨more, added, hmore, hpending, -, hmoved⟩ := h.moved
  obtain rfl : more = [] := eq_nil_of_length_eq_zero (by omega)
  rw [nil_append] at hpending
  refine ⟨h.segmentTargetBytes, h.batchTargetBytes, ?_, fun hw => ?_⟩
  · have hw' : w'.writer = { w.writer with
        bytesWritten := w.writer.bytesWritten
        pending := w.writer.pending ++ added } := by
      rw [← hwritten, hpending]
      exact congrArg WalState.activeWriter h.state
    dsimp only [rollbackPending, withNextLsn, withWriter]
    rw [hw', take_left, h.state]
    rfl
  · obtain ⟨-, bytes, hbytes, -, hfiles⟩ := hmoved hw
    rw [append_nil, put_get? hw.sorted hbytes] at hfiles
    exact hfiles

/-- Dropping what is pending after bytes have moved. -/
theorem Appended.leftOpen {w w' : Wal} (h : Appended quiet w w')
    (hwritten : w'.writer.bytesWritten ≠ w.writer.bytesWritten)
    (hlsn : w.state.nextLsn < w'.state.nextLsn) : LeftOpen w (w'.rollbackPending 0) := by
  obtain ⟨more, added, hmore, -, -, hmoved⟩ := h.moved
  refine ⟨h.segmentTargetBytes, h.batchTargetBytes, ?_, hlsn, ?_, fun hw =>
    ⟨more, hmore, hmoved hw⟩⟩
  · have hw' : w'.writer = { w.writer with
        bytesWritten := w'.writer.bytesWritten
        pending := w'.writer.pending } := congrArg WalState.activeWriter h.state
    dsimp only [rollbackPending, withWriter]
    rw [hw', take_zero, h.state]
    rfl
  · have hpos : w.writer.bytesWritten + more.length ≠ w.writer.bytesWritten := hmore ▸ hwritten
    show w.writer.bytesWritten < w'.writer.bytesWritten
    omega

section Zones

variable [Crc32] (zones : ZoneDb)

/-- A commit with something to write is the critical section between the rotation and the
flush; the growth counter has no part in what it does to the log. -/
theorem commitTxEvents_eq {events : List MutationEvent} {batches : List (ℕ × ℕ)} {w : Wal}
    (hne : events ≠ []) (hplan : planBatches zones w.batchTargetBytes events = .ok batches)
    (n : ℕ) :
    commitTxEvents zones events w = (do
      maybeRotate
      let lsn ← (fun w => match appendCounted zones events batches n w with
        | (.ok lsn, w', _) => .ok lsn w'
        | (.error err, w', _) => .error err w' : WalM Lsn)
      flushInner .perConfiguredMode
      pure (some lsn) : WalM (Option Lsn)) w := by
  rw [commitTxEvents, if_neg hne, hplan]
  simp only [bind_run]
  cases maybeRotate w with
  | error err w₁ => rfl
  | ok _ w₁ =>
    have hget : (get : WalM Wal) w₁ = .ok w₁ w₁ := rfl
    simp only [hget, appendCounted]
    refine (bind_run _ _ w₁).trans (Eq.trans ?_ (bind_run _ _ w₁).symm)
    cases appendTx zones events batches w₁ with
    | ok lsn w₂ => rfl
    | error err w₂ =>
      by_cases hquiet : w₂.writer.bytesWritten = w₁.writer.bytesWritten
      · simp only [if_pos hquiet]
      · simp only [if_neg hquiet]

/-- After an append that fails the counter has not moved, and the handle is restored or,
once a large transaction has written batches, left open. -/
theorem appendCounted_error {events : List MutationEvent} {batches : List (ℕ × ℕ)} {n n' : ℕ}
    {w w' : Wal} {err : WalError}
    (h : appendCounted zones events batches n w = (.error err, w', n')) :
    n' = n ∧ (w'.writer.bytesWritten = w.writer.bytesWritten → Restored w w') ∧
      (w'.writer.bytesWritten ≠ w.writer.bytesWritten → LeftOpen w w') ∧
      (batches.length ≤ 1 → Restored w w') := by
  have happended := appendTx_appends zones events batches w
  rw [appendCounted] at h
  cases hrun : appendTx zones events batches w with
  | ok lsn mid =>
    rw [hrun] at h
    cases h
  | error e mid =>
    rw [hrun] at h happended
    have hmid : Appended (batches.length ≤ 1) w mid := happended
    by_cases hwritten : mid.writer.bytesWritten = w.writer.bytesWritten
    · simp only [hwritten, if_true, Prod.mk.injEq] at h
      obtain ⟨-, rfl, rfl⟩ := h
      exact ⟨rfl, fun _ => hmid.restored hwritten, fun hne => absurd hwritten hne,
        fun _ => hmid.restored hwritten⟩
    · simp only [hwritten, if_false, Prod.mk.injEq] at h
      obtain ⟨-, rfl, rfl⟩ := h
      have hlsn : w.state.nextLsn < mid.state.nextLsn := by
        rcases appendTx_nextLsn zones (congrArg after hrun) with heq | hlt
        · exact absurd (congrArg (fun w => w.writer.bytesWritten) heq) hwritten
        · exact hlt
      refine ⟨rfl, fun heq => absurd heq hwritten, fun _ => hmid.leftOpen hwritten hlsn,
        fun hone => ?_⟩
      obtain ⟨more, -, hmore, -, hquiet, -⟩ := hmid.moved
      rw [hquiet hone, length_nil, Nat.add_zero] at hmore
      exact absurd hmore hwritten

/-- **Transactions are cut without loss**, and a failed append is taken back: wholly while none of
it is in the file, and otherwise down to batches without a commit. -/
theorem transaction_cut_and_restored :
    (∀ target events, (∃ batches, planBatches zones target events = .ok batches) ↔
      ∀ event ∈ events, Recordable zones event) ∧
    (∀ target events batches, events ≠ [] → planBatches zones target events = .ok batches →
      ((slicesOf events 0 batches).map Prod.fst).flatten = events ∧
      ∀ slice ∈ slicesOf events 0 batches, Planned zones target slice) ∧
    (∀ events batches n w err w' n', appendCounted zones events batches n w = (.error err, w', n') →
      n' = n ∧
      (w'.writer.bytesWritten = w.writer.bytesWritten → Restored w w') ∧
      (w'.writer.bytesWritten ≠ w.writer.bytesWritten → LeftOpen w w') ∧
      (batches.length ≤ 1 → Restored w w')) :=
  ⟨fun _ _ => planBatches_iff, fun _ _ _ hne h => planBatches_cuts hne h,
    fun _ _ _ _ _ _ _ h => appendCounted_error zones h⟩

end Zones

/-- A handle whose second write between batches fails. -/
def interrupted : Wal :=
  { handle 1000 1 [(1, (SegmentHeader.new 1).encode)]
      ⟨1, SegmentHeader.new 1, SEGMENT_HEADER_LEN, []⟩ 1 with
    faults := Function.update Faults.none .batchWrite [none, some 0] }

/-- Three events in a batch each, on that handle. -/
def interruptedAppend : Except WalError Lsn × Wal × ℕ :=
  appendCounted WalCodec.unaryZones [.clear, .clear, .clear] [(1, 13), (2, 13), (3, 13)] 0
    interrupted

/-- The empty list is planned as one empty batch, and an append that fails behind its first
batch keeps the LSNs it used and what it wrote. -/
theorem interruptedAppend_not_restored : planBatches WalCodec.unaryZones 1 [] = .ok [(0, 12)] ∧
      chunkOf ([] : List MutationEvent) 0 0 = [] ∧
      planBatches WalCodec.unaryZones 1 [.clear, .clear, .clear] = .ok [(1, 13), (2, 13), (3, 13)] ∧
      interruptedAppend.1 = .error .io ∧
      interrupted.state.nextLsn = 1 ∧ interruptedAppend.2.1.state.nextLsn = 4 ∧
      interrupted.writer.bytesWritten < interruptedAppend.2.1.writer.bytesWritten := by
  decide +kernel

theorem interruptedAppend_leftOpen :
    Planned WalCodec.unaryZones 1 ([.clear], 13) ∧ LeftOpen interrupted interruptedAppend.2.1 := by
  have hplan := (transaction_cut_and_restored WalCodec.unaryZones).2.1 1 [.clear] [(1, 13)]
    (by decide) (by decide)
  have hrun : interruptedAppend = (.error .io, interruptedAppend.2.1, 0) :=
    Prod.ext (by decide +kernel) (Prod.ext rfl (by decide +kernel))
  have hfailed := (transaction_cut_and_restored WalCodec.unaryZones).2.2 _ _ _ _ _ _ _ hrun
  exact ⟨hplan.2 _ (mem_singleton_self _), hfailed.2.2.1 (by decide +kernel)⟩

end Wal

end LoraDb
