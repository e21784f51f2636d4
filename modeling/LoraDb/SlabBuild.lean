import LoraDb.LeafSound
import LoraDb.RecordSlab

/-!
# Built Leaves

Leaves are built one record at a time: the records of the newest leaf's last segment are still
staged, everything before them is in leaves that are accounted for. A push adds its record
at the end of what the leaves store.

## Main results

* `BuiltLeaves.push_ok`: one record more.
* `BuiltLeaves.build_ok`: the leaves built of ascending records store them, in order.
-/

open List ByteCodec Shared Function

namespace LoraDb

namespace Slab

/-- The records of leaf number `l`, by slot of the slab and in order. -/
def recordsOf (l : ℕ) (m : ℕ → Option Bytes) : List (ℕ × Bytes) :=
  (List.range CHUNK).filterMap fun s => (m s).map fun bytes => (l * CHUNK + s, bytes)

/-- What a leaf at its position reads as. -/
def leafRecords (bufs : List Bytes) (e : ℕ × Leaf) : List (ℕ × Bytes) :=
  recordsOf e.1 (e.2.get bufs)

/-- A leaf at its position, accounted for and with a record. -/
def Complete (bufs : List Bytes) (e : ℕ × Leaf) : Prop :=
  ∃ m, e.2.Ok bufs m 0 0 ∧ recordsOf e.1 m ≠ []

variable {bufs bufs' : List Bytes} {leaf : Leaf} {older : List (ℕ × Leaf)} {e : ℕ × Leaf}
  {m m' : ℕ → Option Bytes} {b : BuiltLeaves} {records : List (ℕ × Bytes)}
  {l i seg slot next : ℕ} {stage bytes : Bytes}

theorem recordsOf_congr (h : ∀ s < CHUNK, m' s = m s) : recordsOf l m' = recordsOf l m := by
  refine filterMap_congr fun s hs => ?_
  rw [h s (mem_range.mp hs)]

theorem leafRecords_eq (h : leaf.Ok bufs m 0 0) : leafRecords bufs (l, leaf) = recordsOf l m :=
  recordsOf_congr fun _ hs => h.get hs

theorem recordsOf_none (h : ∀ s < CHUNK, m s = none) : recordsOf l m = [] := by
  refine filterMap_eq_nil_iff.mpr fun s hs => ?_
  rw [h s (mem_range.mp hs), Option.map_none]

/-- A record above every other comes last. -/
theorem recordsOf_update (hslot : slot < CHUNK) (habove : ∀ s < CHUNK, slot ≤ s → m s = none) :
    recordsOf l (update m slot (some bytes)) = recordsOf l m ++ [(l * CHUNK + slot, bytes)] := by
  have hsplit : List.range CHUNK =
      List.range' 0 slot ++ slot :: List.range' (slot + 1) (CHUNK - slot - 1) := by
    have hone : CHUNK - slot - 1 + 1 = CHUNK - slot := by omega
    have happend := @range'_append_1 0 slot (CHUNK - slot)
    rw [Nat.zero_add, Nat.add_sub_cancel' hslot.le] at happend
    rw [range_eq_range', ← happend, ← range'_succ, hone]
  have hbelow : ∀ s ∈ List.range' 0 slot, update m slot (some bytes) s = m s := by
    intro s hs
    rw [update_of_ne]
    rw [mem_range'_1] at hs
    omega
  have hrest : ∀ s ∈ List.range' (slot + 1) (CHUNK - slot - 1),
      m s = none ∧ update m slot (some bytes) s = none := by
    intro s hs
    rw [mem_range'_1] at hs
    have hnone := habove s (by omega) (by omega)
    exact ⟨hnone, by rw [update_of_ne (by omega), hnone]⟩
  have hnil : ∀ m : ℕ → Option Bytes,
      (∀ s ∈ List.range' (slot + 1) (CHUNK - slot - 1), m s = none) →
      filterMap (fun s => (m s).map fun bytes => (l * CHUNK + s, bytes))
        (List.range' (slot + 1) (CHUNK - slot - 1)) = [] := by
    intro m hm
    refine filterMap_eq_nil_iff.mpr fun s hs => ?_
    rw [hm s hs, Option.map_none]
  rw [recordsOf, recordsOf, hsplit, filterMap_append, filterMap_append,
    filterMap_congr fun s hs => congrArg _ (hbelow s hs), append_assoc]
  refine congrArg _ ?_
  rw [filterMap_cons, filterMap_cons, hnil _ fun s hs => (hrest s hs).1,
    hnil _ fun s hs => (hrest s hs).2, update_self, habove slot hslot le_rfl]
  rfl

/-! ### A segment being staged -/

/-- The leaf is accounted for, its segment `seg` as if `stage` were its buffer. -/
structure Staged (bufs : List Bytes) (leaf : Leaf) (m : ℕ → Option Bytes) (seg : ℕ)
    (stage : Bytes) : Prop where
  sound : Sound (fun slot => if segmentOf slot = seg then stage else leaf.usedBytes bufs slot)
    leaf m 0 0
  segs : ∀ other < SEGMENTS, other ≠ seg →
    (leaf.segment other).Ok bufs (tally inSegment (slotsOf other) leaf.place m)
  none : leaf.segment seg = .none
  length : stage.length = tally inSegment (slotsOf seg) leaf.place m

/-- A staged segment fits its offsets. -/
theorem Staged.length_le (h : Staged bufs leaf m seg stage) (hseg : seg < SEGMENTS) :
    stage.length ≤ SEG_SLOTS * ENTRY_MAX := by
  have hshare : tally inSegment (slotsOf seg) leaf.place m ≤
      tally (fun _ _ => 1) (slotsOf seg) leaf.place m * ENTRY_MAX := by
    refine tally_le_mul fun s hs => ?_
    refine (h.sound.stored s (mem_slotsOf.mp hs).1).share.1.trans (Nat.mul_le_mul_right _ ?_)
    cases leaf.place s <;> simp only [filled] <;> omega
  have hcard : tally (fun _ _ => 1) (slotsOf seg) leaf.place m = SEG_SLOTS := by
    rw [tally, ← Finset.card_eq_sum_ones, card_slotsOf hseg]
  rw [h.length, ← hcard]
  exact hshare

theorem usedBytes_of_none (h : leaf.segment seg = .none) :
    (fun slot => if segmentOf slot = seg then [] else leaf.usedBytes bufs slot) =
      leaf.usedBytes bufs := by
  funext slot
  split
  next heq => rw [Leaf.usedBytes, heq, h, Segment.none, take_zero]
  next => rfl

/-- A segment that holds nothing can be staged. -/
theorem Leaf.Ok.staged (h : leaf.Ok bufs m 0 0) (hnone : leaf.segment seg = .none)
    (hseg : seg < SEGMENTS) : Staged bufs leaf m seg [] := by
  refine ⟨?_, fun other hother _ => h.segs other hother, hnone, ?_⟩
  · rw [usedBytes_of_none hnone]
    exact h.sound
  · have hlive := (h.segs seg hseg).live
    rw [hnone] at hlive
    exact hlive

/-- A segment nothing was staged for is complete as it is. -/
theorem Staged.complete (h : Staged bufs leaf m seg []) : leaf.Ok bufs m 0 0 := by
  have hsound := h.sound
  rw [usedBytes_of_none h.none] at hsound
  refine ⟨hsound, fun other hother => ?_⟩
  by_cases heq : other = seg
  · rw [heq, h.none, ← h.length]
    exact Segment.none_ok
  · exact h.segs other hother heq

/-- The staged bytes become the segment's buffer. -/
theorem Staged.flush (h : Staged bufs leaf m seg stage) (hseg : seg < SEGMENTS) :
    Leaf.Ok (bufs ++ [stage]) { leaf with
      segments := leaf.segments.set seg ⟨some bufs.length, stage.length % 2 ^ 32, 0⟩ } m 0 0 := by
  have hle := h.length_le hseg
  have hmax : SEG_SLOTS * ENTRY_MAX ≤ SEG_MAX := by decide
  have hsegMax := segMax_lt
  have hmod : stage.length % 2 ^ 32 = stage.length := Nat.mod_eq_of_lt (by omega)
  have hlt : seg < leaf.segments.length := by
    rw [h.sound.segments]
    exact hseg
  obtain ⟨hnew, hbytes⟩ := @segment_new bufs stage 0 (by omega)
  rw [replicate_zero, append_nil] at hnew hbytes
  rw [hmod]
  constructor
  · refine { h.sound with segments := (length_set ..).trans h.sound.segments, stored := ?_ }
    intro s hs
    refine (h.sound.stored s hs).mono (prefix_of_eq ?_) fun _ _ => rfl
    refine Eq.trans ?_ (usedBytes_set leaf rfl hlt).symm
    split
    next => rw [hbytes, take_length]
    next hne =>
      have hother := (h.segs _ (segmentOf_lt hs) hne).append_bufs [stage]
      rw [Leaf.usedBytes, Leaf.usedBytes, hother.2]
  · intro other hother
    rw [segment_set leaf rfl hlt]
    split
    next heq =>
      rw [heq]
      exact h.length ▸ hnew
    next hne => exact ((h.segs other hother hne).append_bufs [stage]).1

/-! ### Pushing a record -/

/-- What the leaves store, the newest one's `seg` still staged; slots from `next` on are
empty. -/
structure Building (bufs : List Bytes) (b : BuiltLeaves) (records : List (ℕ × Bytes))
    (next l seg : ℕ) (leaf : Leaf) (older : List (ℕ × Leaf)) (m : ℕ → Option Bytes) : Prop where
  staging : b.staging = some (l, seg)
  leaves : b.leaves = (l, leaf) :: older
  staged : Staged bufs leaf m seg b.stage
  segLt : seg < SEGMENTS
  start : l * CHUNK + seg * SEG_SLOTS ≤ next
  stop : next ≤ l * CHUNK + (seg + 1) * SEG_SLOTS
  complete : ∀ e ∈ older, Complete bufs e
  records : records = older.reverse.flatMap (leafRecords bufs) ++ recordsOf l m
  empty : ∀ s < CHUNK, next ≤ l * CHUNK + s → m s = none
  fresh : ∀ other < SEGMENTS, next ≤ l * CHUNK + other * SEG_SLOTS → leaf.segment other = .none

/-- What the leaves store, with nothing staged. -/
structure Flushed (bufs : List Bytes) (b : BuiltLeaves) (records : List (ℕ × Bytes))
    (next : ℕ) : Prop where
  staging : b.staging = none
  stage : b.stage = []
  complete : ∀ e ∈ b.leaves, Complete bufs e
  records : records = b.leaves.reverse.flatMap (leafRecords bufs)
  empty : ∀ l leaf older, b.leaves = (l, leaf) :: older → ∀ s < CHUNK, next ≤ l * CHUNK + s →
    leaf.place s = .empty
  fresh : ∀ l leaf older, b.leaves = (l, leaf) :: older → ∀ seg < SEGMENTS,
    next ≤ l * CHUNK + seg * SEG_SLOTS → leaf.segment seg = .none

/-- A record is filed: in the stage, or if it is large among the loose records. -/
theorem Building.file (h : Building bufs b records next l seg leaf older m) (hslot : slot < CHUNK)
    (hseg : segmentOf slot = seg) (hnext : next ≤ l * CHUNK + slot) (bytes : Bytes) :
    ∃ leaf', Building bufs (b.file slot bytes) (records ++ [(l * CHUNK + slot, bytes)])
      (l * CHUNK + slot + 1) l seg leaf' older (update m slot (some bytes)) := by
  have hm : m slot = none := h.empty slot hslot hnext
  have hplace : leaf.place slot = .empty := (h.staged.sound.stored slot hslot).empty_iff.mpr hm
  have hlive := h.staged.sound.live
  have hrecords : records ++ [(l * CHUNK + slot, bytes)] = older.reverse.flatMap (leafRecords bufs)
    ++
      recordsOf l (update m slot (some bytes)) := by
    rw [recordsOf_update hslot fun s hs hle => h.empty s hs (by omega), h.records, append_assoc]
  have hempty : ∀ s < CHUNK, l * CHUNK + slot + 1 ≤ l * CHUNK + s →
      update m slot (some bytes) s = none := by
    intro s hs hle
    rw [update_of_ne (by omega)]
    exact h.empty s hs (by omega)
  have hfresh : ∀ other < SEGMENTS, l * CHUNK + slot + 1 ≤ l * CHUNK + other * SEG_SLOTS →
      leaf.segment other = .none := fun other hother hle => h.fresh other hother (by omega)
  have hstart : l * CHUNK + seg * SEG_SLOTS ≤ l * CHUNK + slot + 1 := by
    simp only [← hseg, segmentOf, SEG_SLOTS]
    omega
  have hstop : l * CHUNK + slot + 1 ≤ l * CHUNK + (seg + 1) * SEG_SLOTS := by
    simp only [← hseg, segmentOf, SEG_SLOTS]
    omega
  have hcounted : Sound (fun slot => if segmentOf slot = seg then b.stage
    else leaf.usedBytes bufs slot)
      { leaf with live := leaf.live + 1 } m 1 0 := by
    refine { h.staged.sound with live := ?_ }
    change leaf.live + 1 = tally filled (Finset.range CHUNK) leaf.place m + 1
    omega
  rw [BuiltLeaves.file, h.leaves]
  by_cases hlarge : LARGE_MIN ≤ bytes.length
  · simp only [if_pos hlarge]
    obtain ⟨hsound, hsegments, htally⟩ := @Sound.pushLoose m slot _ _ 0 bytes hcounted hslot hplace
      (by rw [if_neg (not_lt.mpr hlarge)])
    have hsegment : ∀ other, (Leaf.pushLoose { leaf with live := leaf.live + 1 } slot bytes).segment
        other = leaf.segment other := fun other => by rw [Leaf.segment, hsegments, Leaf.segment]
    refine ⟨_, h.staging, rfl, ⟨?_, ?_, ?_, ?_⟩, h.segLt, hstart, hstop, h.complete,
      hrecords, hempty, ?_⟩
    · simp only [Leaf.usedBytes, hsegment]
      exact hsound
    · intro other hother hne
      rw [hsegment, htally]
      exact h.staged.segs other hother hne
    · rw [hsegment]
      exact h.staged.none
    · rw [htally]
      exact h.staged.length
    · intro other hother hle
      rw [hsegment]
      exact hfresh other hother hle
  · simp only [if_neg hlarge]
    have hsmall : bytes.length < LARGE_MIN := not_le.mp hlarge
    have hle := h.staged.length_le h.segLt
    have hmax : SEG_SLOTS * ENTRY_MAX < LOOSE := by decide
    have hloose : LOOSE < 2 ^ 32 := by decide
    have hof : Place.of (b.stage.length % 2 ^ 32) = .segment b.stage.length := by
      rw [Nat.mod_eq_of_lt (by omega)]
      exact Place.of_segment (by omega)
    have hmem : slot ∈ slotsOf seg := mem_slotsOf.mpr ⟨hslot, hseg⟩
    have hupdate : Leaf.place { leaf with
        offsets := leaf.offsets.set slot (b.stage.length % 2 ^ 32), live := leaf.live + 1 } =
          update leaf.place slot (.segment b.stage.length) := by
      rw [← hof]
      exact place_eq_update rfl (by rw [h.staged.sound.offsets]; exact hslot)
    refine ⟨{ leaf with
      offsets := leaf.offsets.set slot (b.stage.length % 2 ^ 32), live := leaf.live + 1 },
      h.staging, rfl, ⟨?_, ?_, h.staged.none, ?_⟩, h.segLt, hstart, hstop, h.complete, hrecords,
      hempty, hfresh⟩
    · refine hcounted.edit hslot rfl rfl ?_ ?_ ?_ ?_ ?_ ?_ hcounted.smallMax ?_ hcounted.looseMax
      · intro s _ _
        split
        next => exact prefix_append _ _
        next => exact prefix_rfl
      · exact fun _ _ _ _ => rfl
      · rw [hof, if_pos hseg]
        refine ⟨hsmall, prefix_of_eq (drop_left' rfl).symm⟩
      · intro s _ index hp
        rw [hof] at hp
        cases hp
      · simp only [hof, filled, show ∀ live, Leaf.place { leaf with live } slot = .empty from
          fun _ => hplace]
      · simp only [hof, smallLoose, show ∀ live, Leaf.place { leaf with live } slot = .empty from
          fun _ => hplace]
      · simp only [hof, isLoose, show ∀ live, Leaf.place { leaf with live } slot = .empty from
          fun _ => hplace]
    · intro other hother hne
      have hnot : slot ∉ slotsOf other := fun hin => hne ((mem_slotsOf.mp hin).2.symm.trans hseg)
      rw [hupdate, tally_update_other hnot]
      exact h.staged.segs other hother hne
    · have htally := @tally_update inSegment _ leaf.place m slot (.segment b.stage.length)
        (some bytes) hmem
      have hbefore : inSegment (leaf.place slot) (m slot) = 0 := by
        rw [hplace, hm]
        rfl
      have hafter : inSegment (.segment b.stage.length) (some bytes) = (entry bytes).length := rfl
      rw [hbefore, hafter, Nat.add_zero] at htally
      rw [hupdate, length_append, htally, h.staged.length]

/-- A complete leaf whose buffers are as they were is complete, and reads as it did. -/
theorem Complete.congr (h : Complete bufs e)
    (hbufs : ∀ b ∈ e.2.pointers, b < bufs.length → read bufs' b = read bufs b) :
    Complete bufs' e ∧ leafRecords bufs' e = leafRecords bufs e := by
  obtain ⟨m, hok, hsome⟩ := h
  have hok' : e.2.Ok bufs' m 0 0 := hok.congr fun b hb => hbufs b hb (hok.pointers_lt b hb)
  exact ⟨⟨m, hok', hsome⟩, (leafRecords_eq hok').trans (leafRecords_eq hok).symm⟩

theorem Complete.append (h : Complete bufs e) (more : List Bytes) :
    Complete (bufs ++ more) e ∧ leafRecords (bufs ++ more) e = leafRecords bufs e := by
  refine h.congr fun b _ hlt => ?_
  obtain ⟨cell, hread⟩ := exists_read hlt
  rw [read_append hread, hread]

theorem flatMap_append_bufs {es : List (ℕ × Leaf)} (h : ∀ e ∈ es, Complete bufs e)
    (more : List Bytes) :
    es.reverse.flatMap (leafRecords (bufs ++ more)) = es.reverse.flatMap (leafRecords bufs) :=
  flatMap_congr fun e he => ((h e (mem_reverse.mp he)).append more).2

/-- Flushing completes the newest leaf. -/
theorem Building.flush (h : Building bufs b records next l seg leaf older m)
    (hfiled : l * CHUNK + seg * SEG_SLOTS < next) (hsome : recordsOf l m ≠ []) :
    ∃ more, (b.flush bufs).1 = bufs ++ more ∧
      Flushed (bufs ++ more) (b.flush bufs).2 records next := by
  have hempty : ∀ s < CHUNK, next ≤ l * CHUNK + s → leaf.place s = .empty := fun s hs hle =>
    (h.staged.sound.stored s hs).empty_iff.mpr (h.empty s hs hle)
  rw [BuiltLeaves.flush, h.staging]
  by_cases hstage : b.stage = []
  · have hok : leaf.Ok bufs m 0 0 := Staged.complete (hstage ▸ h.staged)
    simp only [if_pos hstage]
    refine ⟨[], (append_nil _).symm, ?_⟩
    rw [append_nil]
    refine ⟨rfl, hstage, ?_, ?_, ?_, ?_⟩
    · intro e he
      rw [h.leaves] at he
      rcases mem_cons.mp he with rfl | hold
      · exact ⟨m, hok, hsome⟩
      · exact h.complete e hold
    · rw [h.leaves, reverse_cons, flatMap_append, flatMap_singleton, leafRecords_eq hok, h.records]
    · intro l' leaf' older' heq
      rw [h.leaves] at heq
      cases heq
      exact hempty
    · intro l' leaf' older' heq
      rw [h.leaves] at heq
      cases heq
      exact h.fresh
  · have hok := h.staged.flush h.segLt
    have hlt : seg < leaf.segments.length := by
      rw [h.staged.sound.segments]
      exact h.segLt
    simp only [if_neg hstage, h.leaves]
    refine ⟨[b.stage], rfl, rfl, rfl, ?_, ?_, ?_, ?_⟩
    · intro e he
      rcases mem_cons.mp he with rfl | hold
      · exact ⟨m, hok, hsome⟩
      · exact ((h.complete e hold).append _).1
    · rw [reverse_cons, flatMap_append, flatMap_singleton, leafRecords_eq hok,
        flatMap_append_bufs h.complete, h.records]
    · intro l' leaf' older' heq
      cases heq
      exact hempty
    · intro l' leaf' older' heq other hother hle
      cases heq
      have hne : other ≠ seg := by
        rintro rfl
        omega
      rw [segment_set leaf rfl hlt, if_neg hne]
      exact h.fresh other hother hle

/-- A flush again does nothing. -/
theorem Flushed.flush (h : Flushed bufs b records next) : b.flush bufs = (bufs, b) := by
  rw [BuiltLeaves.flush, h.staging]

/-- A segment above everything stored is staged, in the newest leaf or a new one. -/
theorem Flushed.stageNext (h : Flushed bufs b records next) (hslot : slot < CHUNK)
    (hnext : next ≤ l * CHUNK + segmentOf slot * SEG_SLOTS) {b' : BuiltLeaves}
    (hb' : b' = if b.leaves.head?.map Prod.fst = some l then
        { b with staging := some (l, segmentOf slot) }
      else { b with staging := some (l, segmentOf slot), leaves := (l, .new) :: b.leaves }) :
    ∃ leaf older m, Building bufs b' records (l * CHUNK + slot) l (segmentOf slot)
      leaf older m := by
  have hseg := segmentOf_lt hslot
  have hbefore : l * CHUNK + segmentOf slot * SEG_SLOTS ≤ l * CHUNK + slot := by
    simp only [segmentOf, SEG_SLOTS]
    omega
  have hafter : l * CHUNK + slot ≤ l * CHUNK + (segmentOf slot + 1) * SEG_SLOTS := by
    simp only [segmentOf, SEG_SLOTS]
    omega
  subst hb'
  by_cases hhead : b.leaves.head?.map Prod.fst = some l
  · rw [if_pos hhead]
    obtain ⟨⟨l', leaf⟩, hfirst, rfl⟩ := Option.map_eq_some_iff.mp hhead
    obtain ⟨older, hleaves⟩ := head?_eq_some_iff.mp hfirst
    have hcomplete := h.complete
    rw [hleaves] at hcomplete
    obtain ⟨m, hok, -⟩ := hcomplete _ mem_cons_self
    refine ⟨leaf, older, m, rfl, hleaves, ?_, hseg, hbefore, hafter,
      fun e he => hcomplete e (mem_cons_of_mem _ he), ?_, ?_, ?_⟩
    · rw [h.stage]
      exact hok.staged (h.fresh _ _ _ hleaves _ hseg hnext) hseg
    · rw [h.records, hleaves, reverse_cons, flatMap_append, flatMap_singleton, leafRecords_eq hok]
    · intro s hs hle
      exact (hok.sound.stored s hs).empty_iff.mp 
        (h.empty _ _ _ hleaves s hs (hnext.trans (hbefore.trans hle)))
    · intro other hother hle
      exact h.fresh _ _ _ hleaves other hother (hnext.trans (hbefore.trans hle))
  · rw [if_neg hhead]
    have hok : Leaf.new.Ok bufs (fun _ => none) 0 0 := Leaf.new_ok fun _ _ => rfl
    refine ⟨.new, b.leaves, fun _ => none, rfl, rfl, ?_, hseg, hbefore, hafter, h.complete, ?_, ?_,
      ?_⟩
    · rw [h.stage]
      exact hok.staged segment_new_none hseg
    · rw [recordsOf_none fun _ _ => rfl, append_nil]
      exact h.records
    · exact fun _ _ _ => rfl
    · exact fun _ _ _ => segment_new_none

/-- Built leaves store the records pushed, all of them below `next`. -/
def BuiltLeaves.Ok (bufs : List Bytes) (b : BuiltLeaves) (records : List (ℕ × Bytes))
    (next : ℕ) : Prop :=
  (Flushed bufs b records next ∧ next = 0) ∨
    ∃ l seg leaf older m, Building bufs b records next l seg leaf older m ∧
      l * CHUNK + seg * SEG_SLOTS < next ∧ recordsOf l m ≠ []

theorem BuiltLeaves.Ok.flush (h : b.Ok bufs records next) :
    ∃ more, (b.flush bufs).1 = bufs ++ more ∧
      Flushed (bufs ++ more) (b.flush bufs).2 records next := by
  rcases h with ⟨hflushed, -⟩ | ⟨l, seg, leaf, older, m, hbuilding, hfiled, hsome⟩
  · rw [hflushed.flush]
    exact ⟨[], (append_nil _).symm, by rw [append_nil]; exact hflushed⟩
  · exact hbuilding.flush hfiled hsome

/-- A slot above those of one segment is in it, or in a segment that starts above them. -/
theorem next_le_start (hseg : seg < SEGMENTS) (hstart : l * CHUNK + seg * SEG_SLOTS < next)
    (hstop : next ≤ l * CHUNK + (seg + 1) * SEG_SLOTS) (hi : next ≤ i)
    (hne : ¬ (l = i / CHUNK ∧ seg = segmentOf (i % CHUNK))) :
    next ≤ i / CHUNK * CHUNK + segmentOf (i % CHUNK) * SEG_SLOTS := by
  simp only [segmentOf, SEGMENTS, Nat.mul_comm _ CHUNK, Nat.mul_comm _ SEG_SLOTS] at *
  simp only [CHUNK, SEG_SLOTS] at *
  omega

/-- A push adds its record at the end. -/
theorem BuiltLeaves.push_ok (h : b.Ok bufs records next) (hi : next ≤ i) (bytes : Bytes) :
    ∃ more, (b.push bufs i bytes).1 = bufs ++ more ∧
      BuiltLeaves.Ok (bufs ++ more) (b.push bufs i bytes).2 (records ++ [(i, bytes)]) (i + 1) := by
  have hslot : i % CHUNK < CHUNK := Nat.mod_lt _ (by decide)
  have hsplit : i / CHUNK * CHUNK + i % CHUNK = i := Nat.div_add_mod' i CHUNK
  have hfile : ∀ {bufs b next leaf older m},
      Building bufs b records next (i / CHUNK) (segmentOf (i % CHUNK)) leaf older m → next ≤ i →
      BuiltLeaves.Ok bufs (b.file (i % CHUNK) bytes) (records ++ [(i, bytes)]) (i + 1) := by
    intro bufs b next leaf older m hbuilding hle
    obtain ⟨leaf', hfiled⟩ := hbuilding.file hslot rfl (by rwa [hsplit]) bytes
    rw [hsplit] at hfiled
    refine Or.inr ⟨_, _, leaf', _, _, hfiled, ?_, ?_⟩
    · simp only [segmentOf, SEG_SLOTS]
      omega
    · rw [recordsOf_update hslot fun s hs hs' => hbuilding.empty s hs (by omega)]
      exact append_ne_nil_of_right_ne_nil _ (cons_ne_nil _ _)
  rw [BuiltLeaves.push]
  by_cases hsame : b.staging = some (i / CHUNK, segmentOf (i % CHUNK))
  · rcases h with ⟨hflushed, -⟩ | ⟨l, seg, leaf, older, m, hbuilding, -⟩
    · rw [hflushed.staging] at hsame
      cases hsame
    · have hat := hbuilding.staging
      rw [hsame] at hat
      cases hat
      have hhead : b.leaves.head?.map Prod.fst = some (i / CHUNK) := by
        rw [hbuilding.leaves]
        rfl
      simp only [if_pos hsame, if_pos hhead]
      exact ⟨[], (append_nil _).symm, by rw [append_nil]; exact hfile hbuilding hi⟩
  · obtain ⟨more, hmore, hflushed⟩ := h.flush
    have hnext : next ≤ i / CHUNK * CHUNK + segmentOf (i % CHUNK) * SEG_SLOTS := by
      rcases h with ⟨-, rfl⟩ | ⟨l, seg, leaf, older, m, hbuilding, hfiled, -⟩
      · exact Nat.zero_le _
      · have hne : ¬ (l = i / CHUNK ∧ seg = segmentOf (i % CHUNK)) := by
          rintro ⟨rfl, rfl⟩
          exact hsame hbuilding.staging
        exact next_le_start hbuilding.segLt hfiled hbuilding.stop hi hne
    obtain ⟨leaf, older, m, hbuilding⟩ := hflushed.stageNext hslot hnext rfl
    simp only [if_neg hsame]
    exact ⟨more, hmore, hfile hbuilding hsplit.le⟩

theorem BuiltLeaves.empty_ok : BuiltLeaves.empty.Ok bufs [] 0 :=
  Or.inl ⟨⟨rfl, rfl, fun _ he => absurd he not_mem_nil, rfl, fun _ _ _ heq => (by cases heq),
    fun _ _ _ heq => (by cases heq)⟩, rfl⟩

/-- The leaves built of ascending records store them, in order. -/
theorem BuiltLeaves.build_ok (hsorted : (records.map Prod.fst).Pairwise (· < ·)) :
    ∃ more, (BuiltLeaves.build bufs records).1 = bufs ++ more ∧
      (∀ e ∈ (BuiltLeaves.build bufs records).2, Complete (bufs ++ more) e) ∧
      (BuiltLeaves.build bufs records).2.flatMap (leafRecords (bufs ++ more)) = records := by
  have hrun : ∀ (todo : List (ℕ × Bytes)) (bufs : List Bytes) (b : BuiltLeaves) done next,
      b.Ok bufs done next → (todo.map Prod.fst).Pairwise (· < ·) → (∀ r ∈ todo, next ≤ r.1) →
      ∃ more bufs' b' next',
        todo.foldl (fun st r => st.2.push st.1 r.1 r.2) (bufs, b) = (bufs', b') ∧
        bufs' = bufs ++ more ∧ b'.Ok bufs' (done ++ todo) next' := by
    intro todo
    induction todo with
    | nil =>
      intro bufs b done next h _ _
      exact ⟨[], bufs, b, next, rfl, (append_nil _).symm, by rw [append_nil]; exact h⟩
    | cons r todo ih =>
      intro bufs b done next h hsorted hnext
      obtain ⟨hfirst, hrest⟩ := pairwise_cons.mp hsorted
      obtain ⟨more, hmore, hok⟩ :=
        BuiltLeaves.push_ok h (hnext r mem_cons_self) r.2
      obtain ⟨more', bufs', b', next', hfold, hbufs', hok'⟩ := ih _ _ _ _ hok hrest fun r' hr' =>
        Nat.succ_le_of_lt (hfirst _ (mem_map_of_mem hr'))
      rw [append_assoc] at hbufs' hok'
      refine ⟨more ++ more', bufs', b', next', ?_, hbufs', hok'⟩
      rw [foldl_cons, ← hfold, ← hmore]
  obtain ⟨more, bufs', b', next', hfold, hbufs', hok⟩ :=
    hrun records bufs .empty [] 0 BuiltLeaves.empty_ok hsorted fun _ _ => Nat.zero_le _
  obtain ⟨more', hmore', hflushed⟩ := hok.flush
  refine ⟨more ++ more', ?_, ?_, ?_⟩
  · simp only [BuiltLeaves.build, hfold, BuiltLeaves.intoLeaves]
    rw [hmore', hbufs', append_assoc]
  · simp only [BuiltLeaves.build, hfold, BuiltLeaves.intoLeaves]
    intro e he
    rw [← append_assoc, ← hbufs']
    exact hflushed.complete e (mem_reverse.mp he)
  · simp only [BuiltLeaves.build, hfold, BuiltLeaves.intoLeaves]
    rw [← append_assoc, ← hbufs']
    exact hflushed.records.symm

end Slab

end LoraDb
