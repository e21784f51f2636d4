import LoraDb.Leaf
import Mathlib.Algebra.BigOperators.Ring.Finset

/-!
# Leaves are Sound

What a leaf's offsets say of its slots, and its counters of its offsets. Every operation
re-places one slot, so one lemma (`Sound.edit`) carries them all: a release, an append, a
push onto the loose records, and each step of a rebuild or of a compaction.

## Main results

* `Held.set_ok`: a set never fails, stores the record in the slot and leaves the others.
* `Held.remove_ok`: a remove empties the slot and leaves the others.
-/

open List ByteCodec Shared Function

namespace LoraDb

namespace Slab

/-! ### Offsets -/

theorem Place.of_empty : Place.of EMPTY = .empty := rfl

theorem Place.of_segment {offset : ℕ} (h : offset < LOOSE) : Place.of offset = .segment offset := by
  have hempty : offset ≠ EMPTY := by
    rintro rfl
    simp [EMPTY, LOOSE] at h
  have hbit : offset &&& LOOSE = 0 := by
    rw [LOOSE, Nat.and_two_pow, Nat.testBit_lt_two_pow h]
    rfl
  rw [Place.of, if_neg hempty, hbit]
  rfl

theorem Place.of_loose {index : ℕ} (h : index < LOOSE - 1) :
    Place.of (LOOSE ||| index % 2 ^ 32) = .loose index := by
  have hlt : index < 2 ^ 31 := by
    rw [LOOSE] at h
    omega
  rw [Nat.mod_eq_of_lt (by omega)]
  have hor : LOOSE ||| index = LOOSE + index := by
    have hsum := @Nat.two_pow_add_eq_or_of_lt 31 index hlt 1
    rw [mul_one] at hsum
    exact hsum.symm
  have hempty : LOOSE ||| index ≠ EMPTY := by
    rw [hor]
    simp only [LOOSE, EMPTY] at h ⊢
    omega
  have hbit : (LOOSE ||| index) &&& LOOSE ≠ 0 := by
    have htest : (LOOSE ||| index).testBit 31 = true := by
      rw [Nat.testBit_or, LOOSE, Nat.testBit_two_pow_self, Bool.true_or]
    have hand := Nat.and_two_pow (LOOSE ||| index) 31
    rw [htest] at hand
    rw [show LOOSE = 2 ^ 31 from rfl] at hand ⊢
    rw [hand]
    decide
  have hlow : (LOOSE ||| index) &&& (LOOSE - 1) = index := by
    rw [hor, LOOSE, Nat.and_two_pow_sub_one_eq_mod]
    omega
  rw [Place.of, if_neg hempty, if_pos hbit, hlow]

theorem Place.of_eq_empty {offset : ℕ} : Place.of offset = .empty ↔ offset = EMPTY := by
  constructor
  · intro h
    by_contra hne
    rw [Place.of, if_neg hne] at h
    split at h <;> cases h
  · rintro rfl
    rfl

@[simp] theorem length_entry (record : Bytes) :
    (entry record).length = Varint.len record.length + record.length := by
  rw [entry, length_append, Varint.length_push]

/-- A record that is not large takes little. -/
theorem length_entry_lt {record : Bytes} (h : record.length < LARGE_MIN) :
    (entry record).length ≤ LARGE_MIN + 2 := by
  have hlen : Varint.len record.length ≤ 3 := by
    refine Varint.len_le_three ?_
    rw [LARGE_MIN] at h
    omega
  rw [length_entry]
  omega

theorem length_entry_pos (record : Bytes) : 0 < (entry record).length := by
  have hlen := @Varint.len_pos record.length
  rw [length_entry]
  omega

/-! ### What a slot stores -/

/-- A slot at `place` stores what `held` says, in the bytes used of its segment or in a
loose entry. -/
def Stored (used : Bytes) (loose : List (Option Bytes)) : Place → Option Bytes → Prop
  | .empty, none => True
  | .segment offset, some record =>
    record.length < LARGE_MIN ∧ entry record <+: used.drop offset
  | .loose index, some record => loose[index]? = some (some record)
  | _, _ => False

variable {used used' : Bytes} {loose loose' : List (Option Bytes)} {p : Place} {held : Option Bytes}

/-- More bytes in use leave a stored record stored. -/
theorem Stored.mono (h : Stored used loose p held) (hused : used <+: used')
    (hloose : ∀ index, p = .loose index → loose'[index]? = loose[index]?) :
    Stored used' loose' p held := by
  cases p with
  | empty => cases held <;> exact h
  | segment offset =>
    cases held with
    | none => exact h
    | some record => exact ⟨h.1, h.2.trans (hused.drop offset)⟩
  | loose index =>
    cases held with
    | none => exact h
    | some record => exact (hloose index rfl).trans h

/-- A loose slot is within the entries. -/
theorem Stored.loose_lt (h : Stored used loose p held) {index : ℕ} (hp : p = .loose index) :
    index < loose.length := by
  subst hp
  cases held with
  | none => exact h.elim
  | some record => exact (List.getElem?_eq_some_iff.mp h).1

theorem Stored.empty_iff (h : Stored used loose p held) : p = .empty ↔ held = none := by
  cases p <;> cases held <;> simp_all [Stored]

namespace Segment

variable {s : Segment} {bufs : List Bytes} {offset : ℕ} {record : Bytes}

theorem prefix_drop (h : entry record <+: ((s.bytes bufs).take s.len).drop offset) :
    entry record <+: (s.bytes bufs).drop offset := by
  have htake := take_prefix s.len (s.bytes bufs)
  exact h.trans (htake.drop offset)

/-- A stored record is read. -/
theorem record_of_prefix (h : entry record <+: (s.bytes bufs).drop offset) :
    s.record bufs offset = some record := by
  obtain ⟨rest, hrest⟩ := h
  rw [Segment.record, ← hrest, entry, append_assoc, Varint.read_push]
  simp only [length_append, Nat.le_add_right, if_true, take_left']

/-- A stored record takes its entry. -/
theorem storedLen_of_prefix (h : entry record <+: (s.bytes bufs).drop offset) :
    s.storedLen bufs offset = some (entry record).length := by
  obtain ⟨rest, hrest⟩ := h
  rw [storedLen, ← hrest, entry, append_assoc, Varint.read_push, Option.map_some]
  simp only [length_append, Varint.length_push]
  congr 1
  omega

end Segment

/-! ### Tallies over slots -/

/-- A quantity of each slot, summed. -/
def tally (weight : Place → Option Bytes → ℕ) (slots : Finset ℕ) (place : ℕ → Place)
    (m : ℕ → Option Bytes) : ℕ :=
  ∑ slot ∈ slots, weight (place slot) (m slot)

def filled : Place → Option Bytes → ℕ
  | .empty, _ => 0
  | _, _ => 1

def isLoose : Place → Option Bytes → ℕ
  | .loose _, _ => 1
  | _, _ => 0

/-- The updates among the loose records. -/
def smallLoose : Place → Option Bytes → ℕ
  | .loose _, some record => if record.length < LARGE_MIN then 1 else 0
  | _, _ => 0

/-- Bytes of its segment a slot refers to. -/
def inSegment : Place → Option Bytes → ℕ
  | .segment _, some record => (entry record).length
  | _, _ => 0

variable {weight : Place → Option Bytes → ℕ} {S : Finset ℕ} {place place' : ℕ → Place}
  {m m' : ℕ → Option Bytes} {slot : ℕ} {q : Place} {v : Option Bytes}

/-- Re-placing one slot changes a tally by that slot's weight. -/
theorem tally_update (h : slot ∈ S) : tally weight S (update place slot q) (update m slot v) +
      weight (place slot) (m slot) = tally weight S place m + weight q v := by
  have hold := Finset.add_sum_erase S (fun s => weight (place s) (m s)) h
  have hnew := Finset.add_sum_erase S (fun s => weight (update place slot q s)
    (update m slot v s)) h
  have hrest : ∑ s ∈ S.erase slot, weight (update place slot q s)
      (update m slot v s) = ∑ s ∈ S.erase slot, weight (place s) (m s) := by
    refine Finset.sum_congr rfl fun s hs => ?_
    have hne := Finset.ne_of_mem_erase hs
    rw [update_of_ne hne, update_of_ne hne]
  simp only [update_self] at hnew
  simp only [tally]
  omega

theorem tally_congr (hplace : ∀ s ∈ S, place' s = place s) (hm : ∀ s ∈ S, m' s = m s) :
    tally weight S place' m' = tally weight S place m :=
  Finset.sum_congr rfl fun s hs => by rw [hplace s hs, hm s hs]

theorem tally_insert (h : slot ∉ S) : tally weight (insert slot S) place m =
    weight (place slot) (m slot) + tally weight S place m :=
  Finset.sum_insert h

theorem tally_update_other (h : slot ∉ S) : tally weight S (update place slot q) (update m slot v) =
      tally weight S place m := by
  have hne : ∀ s ∈ S, s ≠ slot := fun s hs heq => h (heq ▸ hs)
  exact tally_congr (fun s hs => update_of_ne (hne s hs) _ _)
    fun s hs => update_of_ne (hne s hs) _ _

theorem weight_le_tally (h : slot ∈ S) : weight (place slot) (m slot) ≤ tally weight S place m :=
  Finset.single_le_sum (f := fun s => weight (place s) (m s)) (fun _ _ => Nat.zero_le _) h

/-- A tally of at most `bound` for each slot counted. -/
theorem tally_le_mul {other : Place → Option Bytes → ℕ} {bound : ℕ}
    (h : ∀ s ∈ S, weight (place s) (m s) ≤ other (place s) (m s) * bound) :
    tally weight S place m ≤ tally other S place m * bound := by
  rw [tally, tally, Finset.sum_mul]
  exact Finset.sum_le_sum h

/-! ### Sound leaves -/

/-- As long as the loose records ever get. -/
def LOOSE_LEN : ℕ := 2 * CHUNK + LOOSE_SLACK + 1

/-- The leaf stores `m`, its slots reading the bytes `used` of their segments, and its counters
equal what its offsets imply: `extra` and `extraSmall` are counted already. -/
structure Sound (used : ℕ → Bytes) (leaf : Leaf) (m : ℕ → Option Bytes)
    (extra extraSmall : ℕ) : Prop where
  offsets : leaf.offsets.length = CHUNK
  segments : leaf.segments.length = SEGMENTS
  stored : ∀ slot < CHUNK, Stored (used slot) leaf.loose (leaf.place slot) (m slot)
  apart : ∀ slot slot' index, leaf.place slot = .loose index → leaf.place slot' = .loose index →
    slot = slot'
  live : leaf.live = tally filled (Finset.range CHUNK) leaf.place m + extra
  small : leaf.looseSmall = tally smallLoose (Finset.range CHUNK) leaf.place m + extraSmall
  smallMax : leaf.looseSmall ≤ LOOSE_MAX
  loose : leaf.loose.length = leaf.looseGarbage + tally isLoose (Finset.range CHUNK) leaf.place m
  looseMax : leaf.loose.length ≤ LOOSE_LEN

variable {used used' : ℕ → Bytes} {leaf leaf' : Leaf} {extra extra' extraSmall extraSmall' : ℕ}
  {offset : ℕ}

/-- Writing one offset re-places one slot. -/
theorem place_eq_update (h : leaf'.offsets = leaf.offsets.set slot offset)
    (hslot : slot < leaf.offsets.length) :
    leaf'.place = update leaf.place slot (.of offset) := by
  funext s
  by_cases hs : s = slot
  · subst hs
    simp [Leaf.place, h, getD_eq_getElem?_getD, hslot]
  · rw [update_of_ne hs]
    simp [Leaf.place, h, getD_eq_getElem?_getD, getElem?_set_ne (Ne.symm hs)]

theorem place_of_ge (h : leaf.offsets.length ≤ slot) : leaf.place slot = .empty := by
  rw [Leaf.place, getD_eq_default _ _ h]
  rfl

/-- Re-placing one slot keeps a leaf sound, if the slot stores what it should, and the
counters change by the slot's weights. -/
theorem Sound.edit (h : Sound used leaf m extra extraSmall) (hslot : slot < CHUNK)
    (hoffsets : leaf'.offsets = leaf.offsets.set slot offset)
    (hsegments : leaf'.segments.length = leaf.segments.length)
    (hused : ∀ s < CHUNK, s ≠ slot → used s <+: used' s)
    (hloose : ∀ s, s ≠ slot → ∀ index, leaf.place s = .loose index →
      leaf'.loose[index]? = leaf.loose[index]?)
    (hstored : Stored (used' slot) leaf'.loose (.of offset) v)
    (hapart : ∀ s, s ≠ slot → ∀ index, Place.of offset = .loose index → leaf.place s ≠ .loose index)
    (hlive : leaf'.live + filled (leaf.place slot) (m slot) + extra =
      leaf.live + filled (.of offset) v + extra')
    (hsmall : leaf'.looseSmall + smallLoose (leaf.place slot) (m slot) + extraSmall =
      leaf.looseSmall + smallLoose (.of offset) v + extraSmall')
    (hsmallMax : leaf'.looseSmall ≤ LOOSE_MAX)
    (hlen : leaf'.loose.length + leaf.looseGarbage + isLoose (leaf.place slot) (m slot) =
      leaf.loose.length + leaf'.looseGarbage + isLoose (.of offset) v)
    (hmax : leaf'.loose.length ≤ LOOSE_LEN) :
    Sound used' leaf' (update m slot v) extra' extraSmall' := by
  have hplace : leaf'.place = update leaf.place slot (.of offset) :=
    place_eq_update hoffsets (by rw [h.offsets]; exact hslot)
  have hmem : slot ∈ Finset.range CHUNK := Finset.mem_range.mpr hslot
  refine ⟨?_, hsegments.trans h.segments, ?_, ?_, ?_, ?_, hsmallMax, ?_, hmax⟩
  · rw [hoffsets, length_set, h.offsets]
  · intro s hs
    rw [hplace]
    by_cases hne : s = slot
    · subst hne
      simpa only [update_self] using hstored
    · rw [update_of_ne hne, update_of_ne hne]
      exact (h.stored s hs).mono (hused s hs hne) fun index => hloose s hne index
  · intro s s' index hs hs'
    rw [hplace] at hs hs'
    by_cases hne : s = slot
    · by_cases hne' : s' = slot
      · rw [hne, hne']
      · subst hne
        rw [update_self] at hs
        rw [update_of_ne hne'] at hs'
        exact absurd hs' (hapart s' hne' index hs)
    · by_cases hne' : s' = slot
      · subst hne'
        rw [update_self] at hs'
        rw [update_of_ne hne] at hs
        exact absurd hs (hapart s hne index hs')
      · rw [update_of_ne hne] at hs
        rw [update_of_ne hne'] at hs'
        exact h.apart s s' index hs hs'
  · have htally := @tally_update filled _ leaf.place m slot (.of offset) v hmem
    have hold := h.live
    rw [hplace]
    omega
  · have htally := @tally_update smallLoose _ leaf.place m slot (.of offset) v hmem
    have hold := h.small
    rw [hplace]
    omega
  · have htally := @tally_update isLoose _ leaf.place m slot (.of offset) v hmem
    have hold := h.loose
    rw [hplace]
    omega

/-- A slot with a record is counted. -/
theorem Sound.filled_le (h : Sound used leaf m extra extraSmall) (hslot : slot < CHUNK) :
    filled (leaf.place slot) (m slot) + extra ≤ leaf.live := by
  have hle := @weight_le_tally filled _ leaf.place m slot (Finset.mem_range.mpr hslot)
  have hlive := h.live
  omega

theorem Sound.smallLoose_le (h : Sound used leaf m extra extraSmall) (hslot : slot < CHUNK) :
    smallLoose (leaf.place slot) (m slot) + extraSmall ≤ leaf.looseSmall := by
  have hle := @weight_le_tally smallLoose _ leaf.place m slot (Finset.mem_range.mpr hslot)
  have hsmall := h.small
  omega

/-! ### Accounts of the segments -/

/-- The slots of a segment. -/
def slotsOf (seg : ℕ) : Finset ℕ := (Finset.range CHUNK).filter fun slot => segmentOf slot = seg

theorem mem_slotsOf {seg : ℕ} : slot ∈ slotsOf seg ↔ slot < CHUNK ∧ segmentOf slot = seg := by
  rw [slotsOf, Finset.mem_filter, Finset.mem_range]

/-- The bytes in use of a slot's segment. -/
def Leaf.usedBytes (leaf : Leaf) (bufs : List Bytes) (slot : ℕ) : Bytes :=
  let s := leaf.segment (segmentOf slot)
  (s.bytes bufs).take s.len

/-- A segment's counters: the bytes in use that are no garbage are those its slots refer
to. -/
structure Segment.Ok (bufs : List Bytes) (s : Segment) (total : ℕ) : Prop where
  garbage : s.garbage ≤ s.len
  len : s.len ≤ (s.bytes bufs).length
  max : (s.bytes bufs).length ≤ SEG_MAX
  live : s.liveBytes = total
  pointer : ∀ b, s.buf = some b → b < bufs.length

/-- The leaf stores `m`, and every counter is exact. -/
structure Leaf.Ok (bufs : List Bytes) (leaf : Leaf) (m : ℕ → Option Bytes)
    (extra extraSmall : ℕ) : Prop where
  sound : Sound (leaf.usedBytes bufs) leaf m extra extraSmall
  segs : ∀ seg < SEGMENTS, (leaf.segment seg).Ok bufs (tally inSegment (slotsOf seg) leaf.place m)

variable {bufs bufs' : List Bytes}

/-- A slot of an exact leaf reads what the leaf stores. -/
theorem Leaf.Ok.get (h : leaf.Ok bufs m extra extraSmall) (hslot : slot < CHUNK) :
    leaf.get bufs slot = m slot := by
  have hstored := h.sound.stored slot hslot
  rw [Leaf.get]
  cases hplace : leaf.place slot with
  | empty =>
    rw [hplace] at hstored
    cases hm : m slot with
    | none => rfl
    | some record => rw [hm] at hstored; exact hstored.elim
  | segment offset =>
    rw [hplace] at hstored
    cases hm : m slot with
    | none => rw [hm] at hstored; exact hstored.elim
    | some record =>
      rw [hm] at hstored
      exact Segment.record_of_prefix (Segment.prefix_drop hstored.2)
  | loose index =>
    rw [hplace] at hstored
    cases hm : m slot with
    | none => rw [hm] at hstored; exact hstored.elim
    | some record =>
      rw [hm] at hstored
      simp only [Leaf.looseAt, show leaf.loose[index]? = some (some record) from hstored,
        Option.join_some]

theorem Leaf.Ok.contains (h : leaf.Ok bufs m extra extraSmall) (hslot : slot < CHUNK) :
    leaf.contains slot = (m slot).isSome := by
  have hempty := (h.sound.stored slot hslot).empty_iff
  rw [Leaf.place, Place.of_eq_empty] at hempty
  cases hm : m slot with
  | none =>
    simp only [Leaf.contains, hempty.mpr hm, bne_self_eq_false, Option.isSome_none]
  | some record =>
    have hne : leaf.offsets.getD slot EMPTY ≠ EMPTY := fun heq => by
      rw [hempty.mp heq] at hm
      cases hm
    simp only [Leaf.contains, Option.isSome_some, bne_iff_ne, ne_eq, hne, not_false_eq_true]

/-- An exact leaf is exact over any store that holds its buffers as they were. -/
theorem Leaf.Ok.congr (h : leaf.Ok bufs m extra extraSmall)
    (hbufs : ∀ b ∈ leaf.pointers, read bufs' b = read bufs b) :
    leaf.Ok bufs' m extra extraSmall := by
  have hread : ∀ seg < SEGMENTS, (leaf.segment seg).bytes bufs' = (leaf.segment seg).bytes bufs ∧
      ∀ b, (leaf.segment seg).buf = some b → read bufs' b = read bufs b := by
    intro seg hseg
    have hpointer : ∀ b, (leaf.segment seg).buf = some b → read bufs' b = read bufs b := by
      intro b hb
      refine hbufs b (mem_filterMap.mpr ⟨leaf.segment seg, ?_, hb⟩)
      rw [Leaf.segment, getD_eq_getElem _ _ (by rw [h.sound.segments]; exact hseg)]
      exact getElem_mem _
    refine ⟨?_, hpointer⟩
    cases hb : (leaf.segment seg).buf with
    | none => simp only [Segment.bytes, hb, Option.bind_none]
    | some b => simp only [Segment.bytes, hb, Option.bind_some, hpointer b hb]
  have hseg : ∀ slot < CHUNK, segmentOf slot < SEGMENTS := by
    intro slot hslot
    exact Nat.div_lt_of_lt_mul (by simpa [SEGMENTS, CHUNK, SEG_SLOTS] using hslot)
  constructor
  · have hused : ∀ slot < CHUNK, leaf.usedBytes bufs' slot = leaf.usedBytes bufs slot := by
      intro slot hslot
      simp only [Leaf.usedBytes, (hread _ (hseg slot hslot)).1]
    refine { h.sound with stored := ?_ }
    intro slot hslot
    rw [hused slot hslot]
    exact h.sound.stored slot hslot
  · intro seg hlt
    obtain ⟨hbytes, hpointer⟩ := hread seg hlt
    obtain ⟨hgarbage, hlen, hmax, hlive, hbuf⟩ := h.segs seg hlt
    refine ⟨hgarbage, ?_, ?_, hlive, ?_⟩
    · rwa [hbytes]
    · rwa [hbytes]
    · intro b hb
      have hsome := hpointer b hb
      rw [Shared.read, Shared.read, getElem?_eq_getElem (hbuf b hb)] at hsome
      exact (List.getElem?_eq_some_iff.mp hsome).1

theorem prefix_of_eq {xs ys : Bytes} (h : xs = ys) : xs <+: ys := by
  rw [h]

theorem segmentOf_lt (h : slot < CHUNK) : segmentOf slot < SEGMENTS :=
  Nat.div_lt_of_lt_mul (by simpa [SEGMENTS, CHUNK, SEG_SLOTS] using h)

/-- Writing one segment leaves the others. -/
theorem segment_set (leaf : Leaf) {leaf' : Leaf} {seg seg' : ℕ} {s : Segment}
    (h : leaf'.segments = leaf.segments.set seg s)
    (hlt : seg < leaf.segments.length) :
    leaf'.segment seg' = if seg' = seg then s else leaf.segment seg' := by
  rw [Leaf.segment, Leaf.segment, h, getD_eq_getElem?_getD, getElem?_set, if_pos hlt]
  split
  next heq => rw [if_pos heq.symm, Option.getD_some]
  next hne => rw [if_neg (Ne.symm hne), getD_eq_getElem?_getD]

theorem usedBytes_set (leaf : Leaf) {leaf' : Leaf} {seg slot : ℕ} {s : Segment}
    (h : leaf'.segments = leaf.segments.set seg s)
    (hlt : seg < leaf.segments.length) :
    leaf'.usedBytes bufs slot =
      if segmentOf slot = seg then (s.bytes bufs).take s.len else leaf.usedBytes bufs slot := by
  simp only [Leaf.usedBytes, segment_set leaf h hlt]
  split <;> rfl

/-- Changing a segment's counters changes no pointer. -/
theorem pointers_set (leaf : Leaf) {leaf' : Leaf} {seg : ℕ} {s : Segment}
    (h : leaf'.segments = leaf.segments.set seg s)
    (hlt : seg < leaf.segments.length) (hbuf : s.buf = (leaf.segment seg).buf) :
    leaf'.pointers = leaf.pointers := by
  have hmap : leaf'.segments.map Segment.buf = leaf.segments.map Segment.buf := by
    rw [h, map_set, hbuf, Leaf.segment, getD_eq_getElem _ _ hlt]
    refine ext_getElem (by rw [length_set]) fun i hi hi' => ?_
    rw [getElem_set]
    split
    next heq =>
      subst heq
      rw [getElem_map]
    next => rfl
  have hfilter : ∀ leaf : Leaf, leaf.pointers = (leaf.segments.map Segment.buf).reduceOption := by
    intro leaf
    exact (@filterMap_map _ _ _ Segment.buf id leaf.segments).symm
  rw [hfilter, hfilter, hmap]

/-- Re-placing one slot is accounted for in its own segment. -/
theorem segs_update (h : ∀ seg < SEGMENTS,
      (leaf.segment seg).Ok bufs (tally inSegment (slotsOf seg) leaf.place m))
    (hplace : leaf'.place = update leaf.place slot q)
    (hothers : ∀ seg < SEGMENTS, seg ≠ segmentOf slot → ∀ total,
      (leaf.segment seg).Ok bufs total → (leaf'.segment seg).Ok bufs' total)
    (hown : ∀ total, (leaf.segment (segmentOf slot)).Ok bufs total →
      total + inSegment q v ≥ inSegment (leaf.place slot) (m slot) →
      (leaf'.segment (segmentOf slot)).Ok bufs'
        (total + inSegment q v - inSegment (leaf.place slot) (m slot)))
    (hslot : slot < CHUNK) :
    ∀ seg < SEGMENTS, (leaf'.segment seg).Ok bufs'
      (tally inSegment (slotsOf seg) leaf'.place (update m slot v)) := by
  intro seg hseg
  rw [hplace]
  by_cases hown' : seg = segmentOf slot
  · have hmem : slot ∈ slotsOf seg := mem_slotsOf.mpr ⟨hslot, hown'.symm⟩
    have htally := @tally_update inSegment _ leaf.place m slot q v hmem
    have hold := h seg hseg
    subst hown'
    have hnew := hown _ hold (by omega)
    have htotal : tally inSegment (slotsOf (segmentOf slot)) leaf.place m + inSegment q v -
        inSegment (leaf.place slot) (m slot) =
          tally inSegment (slotsOf (segmentOf slot)) (update leaf.place slot q)
            (update m slot v) := by omega
    rwa [htotal] at hnew
  · have hnot : slot ∉ slotsOf seg := fun hmem => hown' (mem_slotsOf.mp hmem).2.symm
    rw [tally_update_other hnot]
    exact hothers seg hseg hown' _ (h seg hseg)

/-! ### Releasing a slot -/

/-- The record of a slot is released; every counter follows. -/
theorem Leaf.Ok.release (h : leaf.Ok bufs m extra 0) (hslot : slot < CHUNK) :
    ∃ leaf', leaf.release bufs slot = some leaf' ∧
      leaf'.Ok bufs (update m slot none) extra 0 ∧ leaf'.pointers = leaf.pointers ∧
      leaf'.place slot = .empty := by
  have hstored := h.sound.stored slot hslot
  have hfilled := h.sound.filled_le hslot
  have hsmallLe := h.sound.smallLoose_le hslot
  have hsmallMax := h.sound.smallMax
  have hmax := h.sound.looseMax
  have hlen := h.sound.offsets
  have hseg := segmentOf_lt hslot
  have hseglen : segmentOf slot < leaf.segments.length := by rw [h.sound.segments]; exact hseg
  have hempty : ∀ leaf' : Leaf, leaf'.offsets = leaf.offsets.set slot EMPTY →
      leaf'.place = update leaf.place slot .empty := fun leaf' hset =>
    place_eq_update hset (by rw [hlen]; exact hslot)
  cases hplace : leaf.place slot with
  | empty =>
    have hm : update m slot none = m := by rw [hstored.empty_iff.mp hplace |>.symm, update_eq_self]
    refine ⟨leaf, by rw [Leaf.release, hplace], ?_, rfl, hplace⟩
    rwa [hm]
  | segment offset =>
    cases hm : m slot with
    | none => rw [hplace, hm] at hstored; exact hstored.elim
    | some record =>
      rw [hplace, hm] at hstored
      simp only [hplace, filled] at hfilled
      have hread := Segment.storedLen_of_prefix (Segment.prefix_drop hstored.2)
      refine ⟨{ leaf with
        segments := leaf.segments.set (segmentOf slot) { leaf.segment (segmentOf slot) with
            garbage := (leaf.segment (segmentOf slot)).garbage + (entry record).length }
        offsets := leaf.offsets.set slot EMPTY
        live := leaf.live - 1 }, ?_, ⟨?_, ?_⟩, ?_, ?_⟩
      · simp only [Leaf.release, hplace, hread, Option.map_some]
      · refine h.sound.edit hslot rfl (length_set ..) ?_ ?_ trivial ?_ ?_ ?_ hsmallMax ?_ hmax
        · intro s _ _
          refine IsPrefix.trans ?_ (prefix_of_eq (usedBytes_set leaf rfl hseglen).symm)
          split
          next heq => exact (by rw [Leaf.usedBytes, heq]; exact prefix_rfl)
          next => exact prefix_rfl
        · exact fun _ _ _ _ => rfl
        · exact fun _ _ _ hp => absurd hp (by simp [Place.of_empty])
        · simp only [hplace, filled, Place.of_empty]
          omega
        · simp only [hplace, smallLoose, Place.of_empty]
        · simp only [hplace, isLoose, Place.of_empty]
      · refine segs_update h.segs (hempty _ rfl) ?_ ?_ hslot
        · intro seg _ hne total hok
          rw [segment_set leaf rfl hseglen, if_neg hne]
          exact hok
        · intro total hok hle
          rw [segment_set leaf rfl hseglen, if_pos rfl]
          have hlive := hok.live
          have hgarbage := hok.garbage
          simp only [hplace, hm, inSegment] at hle ⊢
          simp only [Segment.liveBytes] at hlive
          refine ⟨?_, hok.len, hok.max, ?_, hok.pointer⟩
          · simp only
            omega
          · simp only [Segment.liveBytes]
            omega
      · exact pointers_set leaf rfl hseglen rfl
      · rw [hempty _ rfl, update_self]
  | loose index =>
    cases hm : m slot with
    | none => rw [hplace, hm] at hstored; exact hstored.elim
    | some record =>
      rw [hplace, hm] at hstored
      have hentry : leaf.loose[index]? = some (some record) := hstored
      have hlooseAt : leaf.looseAt index = some record := by
        rw [Leaf.looseAt, hentry, Option.join_some]
      simp only [hplace, hm, filled, smallLoose] at hfilled hsmallLe
      refine ⟨{ leaf with
        loose := leaf.loose.set index none
        looseSmall :=
          if record.length < LARGE_MIN then leaf.looseSmall - 1 else leaf.looseSmall
        looseGarbage := leaf.looseGarbage + 1
        offsets := leaf.offsets.set slot EMPTY
        live := leaf.live - 1 }, ?_, ⟨?_, ?_⟩, rfl, ?_⟩
      · simp only [Leaf.release, hplace, hlooseAt, Option.any_some, decide_eq_true_iff]
      · refine h.sound.edit hslot rfl rfl ?_ ?_ trivial ?_ ?_ ?_ ?_ ?_ ?_
        · exact fun _ _ _ => prefix_rfl
        · intro s hne other hs
          have hother : other ≠ index := by
            rintro rfl
            exact hne (h.sound.apart _ _ _ hs hplace)
          exact getElem?_set_ne (Ne.symm hother)
        · exact fun _ _ _ hp => absurd hp (by simp [Place.of_empty])
        · simp only [hplace, filled, Place.of_empty]
          omega
        · simp only [hplace, hm, smallLoose, Place.of_empty]
          split
          next hlt =>
            rw [if_pos hlt] at hsmallLe
            omega
          next => omega
        · change (if record.length < LARGE_MIN then leaf.looseSmall - 1
            else leaf.looseSmall) ≤ LOOSE_MAX
          split
          · omega
          · exact hsmallMax
        · simp only [hplace, isLoose, Place.of_empty, length_set]
          omega
        · rw [length_set]
          exact hmax
      · refine segs_update h.segs (hempty _ rfl) ?_ ?_ hslot
        · exact fun _ _ _ _ hok => hok
        · intro total hok _
          simp only [hplace, inSegment, Nat.add_zero, Nat.sub_zero]
          exact hok
      · rw [hempty _ rfl, update_self]

/-! ### Appending -/

/-- What an operation on one leaf leaves alone: the buffers others point to. -/
structure Frame (others : List Addr) (h h' : Held) : Prop where
  kept : ∀ b ∈ others, b < h.bufs.length → read h'.bufs b = read h.bufs b
  grows : h.bufs.length ≤ h'.bufs.length
  pointers : ∀ b ∈ h'.leaf.pointers, b ∈ h.leaf.pointers ∨ h.bufs.length ≤ b

variable {others : List Addr} {h h' h'' : Held} {record : Bytes}

theorem Frame.refl : Frame others h h := ⟨fun _ _ _ => rfl, le_rfl, fun _ hb => Or.inl hb⟩

theorem Frame.trans (hab : Frame others h h') (hbc : Frame others h' h'') : Frame others h h'' where
  kept b hb hlt := (hbc.kept b hb (hlt.trans_le hab.grows)).trans (hab.kept b hb hlt)
  grows := hab.grows.trans hbc.grows
  pointers b hb := by
    rcases hbc.pointers b hb with hold | hnew
    · exact hab.pointers b hold
    · exact Or.inr (hab.grows.trans hnew)

/-- An operation on the leaf alone. -/
theorem Frame.of_leaf (hleaf : leaf'.pointers = leaf.pointers) :
    Frame others ⟨bufs, leaf⟩ ⟨bufs, leaf'⟩ :=
  ⟨fun _ _ _ => rfl, le_rfl, fun _ hb => Or.inl (hleaf ▸ hb)⟩

variable {b : Addr}

/-- The buffer of a segment is a pointer of the leaf. -/
theorem mem_pointers {seg : ℕ} (hlt : seg < leaf.segments.length)
    (hb : (leaf.segment seg).buf = some b) : b ∈ leaf.pointers := by
  refine mem_filterMap.mpr ⟨leaf.segment seg, ?_, hb⟩
  rw [Leaf.segment, getD_eq_getElem _ _ hlt]
  exact getElem_mem _

theorem segments_eq (leaf : Leaf) :
    leaf.segments = (range leaf.segments.length).map leaf.segment := by
  refine ext_getElem (by simp) fun i hi hi' => ?_
  rw [getElem_map, getElem_range, Leaf.segment, getD_eq_getElem _ _ hi]

/-- A buffer the leaf points to once is of one segment. -/
theorem segment_unique {seg seg' : ℕ} (hcount : leaf.pointers.count b = 1)
    (hlt : seg < leaf.segments.length) (hlt' : seg' < leaf.segments.length)
    (hb : (leaf.segment seg).buf = some b) (hb' : (leaf.segment seg').buf = some b) :
    seg = seg' := by
  have hat : ∀ {seg}, seg < leaf.segments.length → leaf.segments[seg]? =
    some (leaf.segment seg) := by
    intro seg hseg
    rw [getElem?_eq_getElem hseg, Leaf.segment, getD_eq_getElem _ _ hseg]
  rw [Leaf.pointers, filterMap_eq_flatMap_toList] at hcount
  exact owner_unique hcount (hat hlt) (hat hlt') (by rw [hb]; exact mem_singleton_self b)
    (by rw [hb']; exact mem_singleton_self b)

/-- What an append does, when it succeeds. -/
theorem append_cases {need : ℕ} (happend : h.append others slot record need = some h') :
    ∃ b, (h.leaf.segment (segmentOf slot)).buf = some b ∧ (others ++ h.leaf.pointers).count b = 1 ∧
      need ≤ ((h.leaf.segment (segmentOf slot)).bytes h.bufs).length -
        (h.leaf.segment (segmentOf slot)).len ∧
      h' = h.appended slot record b := by
  rw [Held.append] at happend
  cases hb : (h.leaf.segment (segmentOf slot)).buf with
  | none => simp only [hb] at happend; cases happend
  | some b =>
    simp only [hb] at happend
    split at happend
    next hcond => exact ⟨b, rfl, hcond.1, hcond.2, (Option.some.inj happend).symm⟩
    next => cases happend

theorem segMax_lt : SEG_MAX < 2 ^ 31 := by decide

/-- Bytes written after those in use: the segment grows by them. -/
theorem Segment.Ok.append {s : Segment} {total : ℕ} {e : Bytes} (h : s.Ok bufs total)
    (hb : s.buf = some b) (hroom : e.length ≤ (s.bytes bufs).length - s.len)
    (hbufs : bufs' = bufs.set b
      ((s.bytes bufs).take s.len ++ e ++ (s.bytes bufs).drop (s.len + e.length))) :
    Segment.Ok bufs' { s with len := (s.len + e.length) % 2 ^ 32 } (total + e.length) ∧
      (Segment.bytes { s with len := (s.len + e.length) % 2 ^ 32 } bufs').take
          ((s.len + e.length) % 2 ^ 32) = (s.bytes bufs).take s.len ++ e := by
  obtain ⟨hgarbage, hlen, hmax, hlive, hvalid⟩ := h
  have hsize := segMax_lt
  have hmod : (s.len + e.length) % 2 ^ 32 = s.len + e.length := Nat.mod_eq_of_lt (by omega)
  have hbytes : Segment.bytes { s with len := (s.len + e.length) % 2 ^ 32 } bufs' =
      (s.bytes bufs).take s.len ++ e ++ (s.bytes bufs).drop (s.len + e.length) := by
    have hread : read bufs' b = some
        ((s.bytes bufs).take s.len ++ e ++ (s.bytes bufs).drop (s.len + e.length)) := by
      rw [hbufs, read_set_self (hvalid b hb)]
    simp only [Segment.bytes, hb, Option.bind_some, hread, Option.getD_some]
  have htake : ((s.bytes bufs).take s.len).length = s.len := length_take_of_le hlen
  have hlength : (Segment.bytes { s with len := (s.len + e.length) % 2 ^ 32 } bufs').length =
      (s.bytes bufs).length := by
    rw [hbytes, length_append, length_append, htake, length_drop]
    omega
  refine ⟨⟨?_, ?_, ?_, ?_, ?_⟩, ?_⟩
  · simp only
    omega
  · rw [hlength]
    simp only
    omega
  · rwa [hlength]
  · simp only [Segment.liveBytes] at hlive ⊢
    omega
  · intro b' hb'
    rw [hbufs, length_set]
    exact hvalid b' hb'
  · rw [hbytes, hmod]
    refine take_left' ?_
    rw [length_append, htake]

/-- A buffer written to that is not the segment's leaves it as it was. -/
theorem Segment.Ok.set_ne {s : Segment} {total : ℕ} {e : Bytes} (h : s.Ok bufs total)
    (hb : s.buf ≠ some b) :
    Segment.Ok (bufs.set b e) s total ∧ s.bytes (bufs.set b e) = s.bytes bufs := by
  obtain ⟨hgarbage, hlen, hmax, hlive, hvalid⟩ := h
  have hbytes : s.bytes (bufs.set b e) = s.bytes bufs := by
    cases hb' : s.buf with
    | none => simp only [Segment.bytes, hb', Option.bind_none]
    | some b' =>
      have hne : b' ≠ b := by
        rintro rfl
        exact hb hb'
      simp only [Segment.bytes, hb', Option.bind_some, read_set_ne hne]
  refine ⟨⟨hgarbage, ?_, ?_, hlive, ?_⟩, hbytes⟩
  · rwa [hbytes]
  · rwa [hbytes]
  · intro b' hb'
    rw [length_set]
    exact hvalid b' hb'

/-- An append stores the record, and writes to no buffer of another leaf. -/
theorem append_ok (hok : h.leaf.Ok h.bufs m 1 0) (hslot : slot < CHUNK)
    (hempty : h.leaf.place slot = .empty) (hlt : record.length < LARGE_MIN)
    (happend : h.append others slot record (entry record).length = some h') :
    h'.leaf.Ok h'.bufs (update m slot (some record)) 0 0 ∧ Frame others h h' := by
  obtain ⟨b, hb, hcount, hroom, rfl⟩ := append_cases happend
  have hseg := segmentOf_lt hslot
  have hseglen : segmentOf slot < h.leaf.segments.length := by rw [hok.sound.segments]; exact hseg
  have hsegok := hok.segs _ hseg
  have hpos := count_pos_iff.mpr (mem_pointers hseglen hb)
  rw [count_append] at hcount
  have hnotOther : b ∉ others := by
    intro hmem
    have hmore := count_pos_iff.mpr hmem
    omega
  have hapart : ∀ seg < SEGMENTS, seg ≠ segmentOf slot → (h.leaf.segment seg).buf ≠ some b := by
    intro seg hlt' hne hb'
    exact hne (segment_unique (by omega) (by rw [hok.sound.segments]; exact hlt') hseglen hb' hb)
  have hm : m slot = none := (hok.sound.stored slot hslot).empty_iff.mp hempty
  have hsize := segMax_lt
  have hlen := hsegok.len
  have hmax := hsegok.max
  have hplace : Place.of ((h.leaf.segment (segmentOf slot)).len % 2 ^ 32) =
      .segment (h.leaf.segment (segmentOf slot)).len := by
    rw [Nat.mod_eq_of_lt (by omega)]
    refine Place.of_segment ?_
    rw [LOOSE]
    omega
  obtain ⟨hgrown, hused⟩ := hsegok.append hb hroom rfl
  refine ⟨⟨?_, ?_⟩, ?_, ?_, ?_⟩
  · refine hok.sound.edit hslot rfl (length_set ..) ?_ ?_ ?_ ?_ ?_ ?_ hok.sound.smallMax ?_
      hok.sound.looseMax
    · intro s hs _
      refine IsPrefix.trans ?_ (prefix_of_eq (usedBytes_set h.leaf rfl hseglen).symm)
      split
      next heq =>
        rw [Leaf.usedBytes, heq]
        exact (prefix_append _ _).trans (prefix_of_eq hused.symm)
      next hne =>
        have hother := hapart _ (segmentOf_lt hs) hne
        refine prefix_of_eq (congrArg (take _) ?_)
        exact ((hok.segs _ (segmentOf_lt hs)).set_ne hother).2.symm
    · exact fun _ _ _ _ => rfl
    · rw [hplace]
      refine ⟨hlt, ?_⟩
      refine IsPrefix.trans ?_ (prefix_of_eq
        (congrArg (drop _) (usedBytes_set h.leaf rfl hseglen).symm))
      rw [if_pos rfl]
      refine IsPrefix.trans ?_ (prefix_of_eq (congrArg (drop _) hused.symm))
      refine prefix_of_eq (Eq.symm (drop_left' ?_))
      exact length_take_of_le hlen
    · intro s _ index hp
      rw [hplace] at hp
      cases hp
    · simp only [hplace, hempty, filled, Held.appended]
    · simp only [hplace, hempty, smallLoose, Held.appended]
    · simp only [hplace, hempty, isLoose, Held.appended]
  · refine segs_update hok.segs
      (place_eq_update rfl (by rw [hok.sound.offsets]; exact hslot)) ?_ ?_ hslot
    · intro seg hlt' hne total htotal
      rw [segment_set h.leaf rfl hseglen, if_neg hne]
      exact (htotal.set_ne (hapart seg hlt' hne)).1
    · intro total htotal _
      rw [segment_set h.leaf rfl hseglen, if_pos rfl]
      simp only [hplace, hempty, inSegment, Nat.sub_zero]
      exact (htotal.append hb hroom rfl).1
  · intro b' hb' _
    refine read_set_ne ?_
    rintro rfl
    exact hnotOther hb'
  · simp only [Held.appended, length_set, le_refl]
  · intro b' hb'
    have hsame : (h.appended slot record b).leaf.pointers = h.leaf.pointers :=
      pointers_set h.leaf rfl hseglen (by rfl)
    exact Or.inl (hsame ▸ hb')

/-! ### The loose records -/

/-- A slot that is loose in one leaf is loose in the other; any other place is the same. -/
def SameKind (p q : Place) : Prop := p = q ∨ ∃ i j, p = .loose i ∧ q = .loose j

theorem SameKind.weights (h : SameKind p q) :
    filled p held = filled q held ∧ smallLoose p held = smallLoose q held ∧
      isLoose p held = isLoose q held ∧ inSegment p held = inSegment q held := by
  rcases h with rfl | ⟨i, j, rfl, rfl⟩
  · exact ⟨rfl, rfl, rfl, rfl⟩
  · cases held <;> exact ⟨rfl, rfl, rfl, rfl⟩

/-- The first `n` slots have moved to the **compacted** records, and the others are as they
were. -/
structure Compacting (used : ℕ → Bytes) (leaf : Leaf) (m : ℕ → Option Bytes) (n : ℕ)
    (st : Leaf × List (Option Bytes)) : Prop where
  rest : { st.1 with offsets := leaf.offsets, loose := leaf.loose } = leaf
  offsets : st.1.offsets.length = CHUNK
  todo : ∀ slot, n ≤ slot → st.1.place slot = leaf.place slot
  todoLoose : ∀ slot, n ≤ slot → ∀ index, leaf.place slot = .loose index →
    st.1.loose[index]? = leaf.loose[index]?
  kind : ∀ slot, SameKind (st.1.place slot) (leaf.place slot)
  stored : ∀ slot < n, Stored (used slot) st.2 (st.1.place slot) (m slot)
  apart : ∀ slot < n, ∀ slot' < n, ∀ index, st.1.place slot = .loose index →
    st.1.place slot' = .loose index → slot = slot'
  count : st.2.length = tally isLoose (Finset.range n) leaf.place m

theorem tally_range_succ (n : ℕ) : tally weight (Finset.range (n + 1)) place m =
    tally weight (Finset.range n) place m + weight (place n) (m n) :=
  Finset.sum_range_succ _ n

theorem isLoose_le_one : isLoose p held ≤ 1 := by
  cases p <;> simp [isLoose]

theorem tally_isLoose_le (n : ℕ) : tally isLoose (Finset.range n) place m ≤ n := by
  induction n with
  | zero => simp [tally]
  | succ n ih =>
    have hone := @isLoose_le_one (place n) (m n)
    rw [tally_range_succ]
    omega

/-- One slot moves. -/
theorem Compacting.step {n : ℕ} {st : Leaf × List (Option Bytes)}
    (h : Compacting used leaf m n st) (hsound : Sound used leaf m extra extraSmall)
    (hn : n < CHUNK) : Compacting used leaf m (n + 1) (Leaf.compactSlot st n) := by
  have hplace := h.todo n le_rfl
  have hheld := hsound.stored n hn
  have hsame : st.1.place n = leaf.place n → (∀ index, leaf.place n ≠ .loose index) →
      Compacting used leaf m (n + 1) st := by
    intro hplace hkind
    refine ⟨h.rest, h.offsets, fun s hs => h.todo s (by omega), fun s hs =>
      h.todoLoose s (by omega),
      h.kind, ?_, ?_, ?_⟩
    · intro s hs
      by_cases hlt : s < n
      · exact h.stored s hlt
      · obtain rfl : s = n := by omega
        rw [hplace]
        exact hheld.mono prefix_rfl fun index hp => absurd hp (hkind index)
    · intro s hs s' hs' index hp hp'
      have hne : ∀ s, s < n + 1 → st.1.place s = .loose index → s < n := by
        intro s hs hp
        by_contra hge
        obtain rfl : s = n := by omega
        exact hkind index (hplace ▸ hp)
      exact h.apart s (hne s hs hp) s' (hne s' hs' hp') index hp hp'
    · rw [tally_range_succ, h.count]
      cases hp : leaf.place n with
      | empty => rfl
      | segment offset => rfl
      | loose index => exact absurd hp (hkind index)
  cases hp : leaf.place n with
  | empty =>
    rw [Leaf.compactSlot, hplace, hp]
    exact hsame hplace (fun index heq => by rw [hp] at heq; cases heq)
  | segment offset =>
    rw [Leaf.compactSlot, hplace, hp]
    exact hsame hplace (fun index heq => by rw [hp] at heq; cases heq)
  | loose index =>
    have hentry : st.1.loose[index]? = leaf.loose[index]? := h.todoLoose n le_rfl index hp
    obtain ⟨record, hm, hloose⟩ : ∃ record, m n = some record ∧
        leaf.loose[index]? = some (some record) := by
      rw [hp] at hheld
      cases hm : m n with
      | none => rw [hm] at hheld; exact hheld.elim
      | some record => exact ⟨record, rfl, by rw [hm] at hheld; exact hheld⟩
    have hlooseAt : st.1.looseAt index = some record := by
      rw [Leaf.looseAt, hentry, hloose, Option.join_some]
    have hbound : ∀ s < n, ∀ other, st.1.place s = .loose other → other < st.2.length := by
      intro s hs other hother
      exact (h.stored s hs).loose_lt hother
    have hcount := h.count
    have hcountLe := @tally_isLoose_le leaf.place m n
    have hnew : Place.of (LOOSE ||| st.2.length % 2 ^ 32) = .loose st.2.length := by
      refine Place.of_loose ?_
      have hchunk : CHUNK < LOOSE - 1 := by decide
      omega
    rw [Leaf.compactSlot, hplace, hp]
    simp only [hlooseAt]
    have hplace' : Leaf.place { st.1 with
        offsets := st.1.offsets.set n (LOOSE ||| st.2.length % 2 ^ 32)
        loose := st.1.loose.set index none } = update st.1.place n (.loose st.2.length) := by
      rw [← hnew]
      exact place_eq_update rfl (by rw [h.offsets]; exact hn)
    refine ⟨h.rest, by rw [length_set, h.offsets], ?_, ?_, ?_, ?_, ?_, ?_⟩
    · intro s hs
      rw [hplace', update_of_ne (by omega)]
      exact h.todo s (by omega)
    · intro s hs other hother
      have hne : other ≠ index := by
        rintro rfl
        have heq := hsound.apart _ _ _ hother hp
        omega
      rw [getElem?_set_ne (Ne.symm hne)]
      exact h.todoLoose s (by omega) other hother
    · intro s
      rw [hplace']
      by_cases hs : s = n
      · subst hs
        rw [update_self, hp]
        exact Or.inr ⟨_, _, rfl, rfl⟩
      · rw [update_of_ne hs]
        exact h.kind s
    · intro s hs
      rw [hplace']
      by_cases heq : s = n
      · subst heq
        rw [update_self, hm]
        exact getElem?_concat_length
      · rw [update_of_ne heq]
        refine (h.stored s (by omega)).mono prefix_rfl fun other hother => ?_
        exact getElem?_append_left (hbound s (by omega) other hother)
    · intro s hs s' hs' other hother hother'
      rw [hplace'] at hother hother'
      by_cases heq : s = n
      · by_cases heq' : s' = n
        · rw [heq, heq']
        · rw [heq, update_self] at hother
          rw [update_of_ne heq'] at hother'
          have hlt := hbound s' (by omega) other hother'
          cases hother
          omega
      · by_cases heq' : s' = n
        · rw [update_of_ne heq] at hother
          rw [heq', update_self] at hother'
          have hlt := hbound s (by omega) other hother
          cases hother'
          omega
        · rw [update_of_ne heq] at hother
          rw [update_of_ne heq'] at hother'
          exact h.apart s (by omega) s' (by omega) other hother hother'
    · rw [length_append, tally_range_succ, h.count, hp]
      rfl

theorem sameKind_tally (h : ∀ slot, SameKind (place' slot) (place slot)) :
    tally filled S place' m = tally filled S place m ∧
      tally smallLoose S place' m = tally smallLoose S place m ∧
      tally isLoose S place' m = tally isLoose S place m ∧
      tally inSegment S place' m = tally inSegment S place m :=
  ⟨Finset.sum_congr rfl fun s _ => (h s).weights.1,
    Finset.sum_congr rfl fun s _ => (h s).weights.2.1,
    Finset.sum_congr rfl fun s _ => (h s).weights.2.2.1,
    Finset.sum_congr rfl fun s _ => (h s).weights.2.2.2⟩

/-- Compacting keeps a leaf sound, with no released entry left. -/
theorem Sound.compactLoose (h : Sound used leaf m extra extraSmall) :
    Sound used leaf.compactLoose m extra extraSmall ∧ leaf.compactLoose.looseGarbage = 0 ∧
      leaf.compactLoose.segments = leaf.segments ∧
      (∀ slot, SameKind (leaf.compactLoose.place slot) (leaf.place slot)) := by
  have hrun : ∀ n ≤ CHUNK, Compacting used leaf m n
      ((range n).foldl Leaf.compactSlot (leaf, [])) := by
    intro n
    induction n with
    | zero =>
      intro _
      exact ⟨rfl, h.offsets, fun _ _ => rfl, fun _ _ _ _ => rfl, fun _ => Or.inl rfl,
        fun _ hs => absurd hs (Nat.not_lt_zero _), fun _ hs => absurd hs (Nat.not_lt_zero _), rfl⟩
    | succ n ih =>
      intro hn
      rw [range_succ, foldl_append]
      exact (ih (by omega)).step h (by omega)
  obtain ⟨hrest, hoffsets, -, -, hkind, hstored, hapart, hcount⟩ := hrun CHUNK le_rfl
  rw [Leaf.compactLoose]
  cases hst : (range CHUNK).foldl Leaf.compactSlot (leaf, []) with
  | mk leaf' loose =>
    rw [hst] at hrest hoffsets hkind hstored hapart hcount
    obtain ⟨hfilled, hsmall, hisLoose, -⟩ := @sameKind_tally (Finset.range CHUNK) _ _ m hkind
    have hfields : leaf'.segments = leaf.segments ∧ leaf'.live = leaf.live ∧
        leaf'.looseSmall = leaf.looseSmall := by
      rw [← hrest]
      exact ⟨rfl, rfl, rfl⟩
    obtain ⟨hsegments, hlive, hlooseSmall⟩ := hfields
    refine ⟨⟨hoffsets, ?_, hstored, ?_, ?_, ?_, ?_, ?_, ?_⟩, rfl, hsegments, hkind⟩
    · exact (congrArg length hsegments).trans h.segments
    · intro s s' index hp hp'
      have hlt : ∀ s, leaf'.place s = .loose index → s < CHUNK := by
        intro s hs
        by_contra hge
        rw [place_of_ge (hoffsets.le.trans (not_lt.mp hge))] at hs
        cases hs
      exact hapart s (hlt s hp) s' (hlt s' hp') index hp hp'
    · change leaf'.live = tally filled _ leaf'.place m + extra
      rw [hfilled, hlive, h.live]
    · change leaf'.looseSmall = tally smallLoose _ leaf'.place m + extraSmall
      rw [hsmall, hlooseSmall, h.small]
    · change leaf'.looseSmall ≤ LOOSE_MAX
      rw [hlooseSmall]
      exact h.smallMax
    · change loose.length = 0 + tally isLoose _ leaf'.place m
      rw [hisLoose, Nat.zero_add]
      exact hcount
    · have hle := @tally_isLoose_le leaf.place m CHUNK
      change loose.length ≤ LOOSE_LEN
      change loose.length = tally isLoose _ leaf.place m at hcount
      rw [LOOSE_LEN]
      omega

/-- An empty slot leaves room among the loose records. -/
theorem Sound.isLoose_lt (h : Sound used leaf m extra extraSmall) (hslot : slot < CHUNK)
    (hempty : leaf.place slot = .empty) :
    leaf.loose.length < leaf.looseGarbage + CHUNK := by
  have hupdate := @tally_update isLoose _ leaf.place m slot (.loose 0) none
    (Finset.mem_range.mpr hslot)
  have hle := @tally_isLoose_le (update leaf.place slot (.loose 0)) (update m slot none) CHUNK
  have hloose := h.loose
  simp only [hempty, isLoose] at hupdate
  omega

/-- Pushing a loose record stores it in an empty slot, and no segment notices. -/
theorem Sound.pushLoose {bytes : Bytes} (h : Sound used leaf m 1 extraSmall) (hslot : slot < CHUNK)
    (hempty : leaf.place slot = .empty)
    (hsmall : extraSmall = if bytes.length < LARGE_MIN then 1 else 0) :
    Sound used (leaf.pushLoose slot bytes) (update m slot (some bytes)) 0 0 ∧
      (leaf.pushLoose slot bytes).segments = leaf.segments ∧
      ∀ seg, tally inSegment (slotsOf seg) (leaf.pushLoose slot bytes).place
          (update m slot (some bytes)) =
        tally inSegment (slotsOf seg) leaf.place m := by
  obtain ⟨leaf₁, hleaf₁, hsound, hkind, hsegments, hroom⟩ : ∃ leaf₁ : Leaf,
      leaf.pushLoose slot bytes = { leaf₁ with
        offsets := leaf₁.offsets.set slot (LOOSE ||| leaf₁.loose.length % 2 ^ 32)
        loose := leaf₁.loose ++ [some bytes] } ∧
      Sound used leaf₁ m 1 extraSmall ∧ (∀ s, SameKind (leaf₁.place s) (leaf.place s)) ∧
      leaf₁.segments = leaf.segments ∧
      (leaf₁.looseGarbage < LOOSE_SLACK ∨ leaf₁.looseGarbage ≤ leaf₁.loose.length / 2) := by
    rw [Leaf.pushLoose]
    split
    next =>
      obtain ⟨hsound, hgarbage, hsegments, hkind⟩ := h.compactLoose
      exact ⟨_, rfl, hsound, hkind, hsegments, Or.inl (by rw [hgarbage]; decide)⟩
    next hcond => exact ⟨_, rfl, h, fun _ => Or.inl rfl, rfl, by omega⟩
  have hempty₁ : leaf₁.place slot = .empty := by
    rcases hkind slot with heq | ⟨i, j, -, hj⟩
    · rw [heq, hempty]
    · rw [hempty] at hj
      cases hj
  have hlt := hsound.isLoose_lt hslot hempty₁
  have hlen : leaf₁.loose.length < LOOSE_LEN := by
    simp only [LOOSE_LEN, LOOSE_SLACK] at hroom ⊢
    omega
  have hplace : Place.of (LOOSE ||| leaf₁.loose.length % 2 ^ 32) = .loose leaf₁.loose.length := by
    refine Place.of_loose ?_
    have hmax : LOOSE_LEN < LOOSE - 1 := by decide
    omega
  have hm : m slot = none := (hsound.stored slot hslot).empty_iff.mp hempty₁
  have hbound : ∀ s index, leaf₁.place s = .loose index → index < leaf₁.loose.length := by
    intro s index hp
    have hs : s < CHUNK := by
      by_contra hge
      rw [place_of_ge (hsound.offsets.le.trans (not_lt.mp hge))] at hp
      cases hp
    exact (hsound.stored s hs).loose_lt hp
  rw [hleaf₁]
  refine ⟨?_, hsegments, ?_⟩
  · refine hsound.edit hslot rfl rfl ?_ ?_ ?_ ?_ ?_ ?_ hsound.smallMax ?_ ?_
    · exact fun _ _ _ => prefix_rfl
    · intro s _ index hp
      exact getElem?_append_left (hbound s index hp)
    · rw [hplace]
      exact getElem?_concat_length
    · intro s _ index hp hs
      have hindex := hbound s index hs
      rw [hplace] at hp
      cases hp
      omega
    · simp only [hplace, hempty₁, filled]
    · simp only [hplace, hempty₁, smallLoose, hsmall, Nat.add_zero]
    · simp only [hplace, hempty₁, isLoose, length_append, length_singleton]
      omega
    · rw [length_append, length_singleton]
      omega
  · intro seg
    rw [place_eq_update rfl (by rw [hsound.offsets]; exact hslot), hplace,
      ← (sameKind_tally hkind).2.2.2]
    by_cases hmem : slot ∈ slotsOf seg
    · have hupdate := @tally_update inSegment _ leaf₁.place m slot (.loose leaf₁.loose.length)
        (some bytes) hmem
      have hbefore : inSegment (leaf₁.place slot) (m slot) = 0 := by
        rw [hempty₁]
        rfl
      have hafter : inSegment (.loose leaf₁.loose.length) (some bytes) = 0 := rfl
      rw [hbefore, hafter] at hupdate
      exact Nat.add_right_cancel hupdate
    · exact tally_update_other hmem

/-- A leaf with its segments as they were is accounted for as it was. -/
theorem Leaf.Ok.pushLoose {bytes : Bytes} (h : leaf.Ok bufs m 1 extraSmall) (hslot : slot < CHUNK)
    (hempty : leaf.place slot = .empty)
    (hsmall : extraSmall = if bytes.length < LARGE_MIN then 1 else 0) :
    (leaf.pushLoose slot bytes).Ok bufs (update m slot (some bytes)) 0 0 ∧
      (leaf.pushLoose slot bytes).pointers = leaf.pointers := by
  obtain ⟨hsound, hsegments, htally⟩ := h.sound.pushLoose hslot hempty hsmall
  have hsegment : ∀ seg, (leaf.pushLoose slot bytes).segment seg = leaf.segment seg := fun seg => by
    rw [Leaf.segment, Leaf.segment, hsegments]
  have hused : (leaf.pushLoose slot bytes).usedBytes bufs = leaf.usedBytes bufs := by
    funext s
    simp only [Leaf.usedBytes, hsegment]
  refine ⟨⟨hused ▸ hsound, ?_⟩, by rw [Leaf.pointers, Leaf.pointers, hsegments]⟩
  intro seg hseg
  rw [hsegment, htally]
  exact h.segs seg hseg

/-! ### Rebuilding a segment -/

/-- Bytes a rebuild copies from a slot: its record, unless that is large. -/
def moved : Place → Option Bytes → ℕ
  | .segment _, some record => (entry record).length
  | .loose _, some record => if record.length < LARGE_MIN then (entry record).length else 0
  | _, _ => 0

/-- Where the slots of a segment read while the first of them have been copied to `out`, and
those `todo` have not. -/
def splitUsed (used : ℕ → Bytes) (seg : ℕ) (todo : List ℕ) (out : Bytes) (slot : ℕ) : Bytes :=
  if segmentOf slot = seg ∧ slot ∉ todo then out else used slot

/-- The slots of a segment that are not `todo` have been copied to `out`. -/
structure Rebuilding (used : ℕ → Bytes) (leaf₀ : Leaf) (m : ℕ → Option Bytes) (extra seg total : ℕ)
    (todo : List ℕ) (leaf : Leaf) (out : Bytes) : Prop where
  sound : Sound (splitUsed used seg todo out) leaf m extra 0
  segments : leaf.segments = leaf₀.segments
  outside : ∀ slot, segmentOf slot ≠ seg → leaf.place slot = leaf₀.place slot
  empty : ∀ slot, leaf.place slot = .empty ↔ leaf₀.place slot = .empty
  done : out.length = tally inSegment ((slotsOf seg).filter fun slot => slot ∉ todo) leaf.place m
  left : out.length + (todo.map fun slot => moved (leaf.place slot) (m slot)).sum = total

variable {leaf₀ : Leaf} {seg total : ℕ} {todo : List ℕ} {out : Bytes}

theorem filter_todo (hslot : slot ∈ slotsOf seg) : (slotsOf seg).filter (fun s => s ∉ todo) =
      insert slot ((slotsOf seg).filter fun s => s ∉ slot :: todo) ∨ slot ∈ todo := by
  by_cases hmem : slot ∈ todo
  · exact Or.inr hmem
  · refine Or.inl (Finset.ext fun s => ?_)
    simp only [Finset.mem_filter, Finset.mem_insert, mem_cons, not_or]
    constructor
    · rintro ⟨hs, hnot⟩
      by_cases heq : s = slot
      · exact Or.inl heq
      · exact Or.inr ⟨hs, heq, hnot⟩
    · rintro (rfl | ⟨hs, -, hnot⟩)
      · exact ⟨hslot, hmem⟩
      · exact ⟨hs, hnot⟩

/-- A slot's record is copied to the end of the new buffer. -/
theorem Rebuilding.copy {record : Bytes}
    (h : Rebuilding used leaf₀ m extra seg total (slot :: todo) leaf out)
    (hslot : slot ∈ slotsOf seg) (hnot : slot ∉ todo) (htotal : total < LOOSE)
    (hm : m slot = some record) (hsize : record.length < LARGE_MIN)
    (hmoved : moved (leaf.place slot) (m slot) = (entry record).length)
    (hoffsets : leaf'.offsets = leaf.offsets.set slot (out.length % 2 ^ 32))
    (hsegments : leaf'.segments = leaf.segments)
    (hloose : ∀ s, s ≠ slot → ∀ index, leaf.place s = .loose index →
      leaf'.loose[index]? = leaf.loose[index]?)
    (hempty : leaf.place slot ≠ .empty) (hlive : leaf'.live = leaf.live)
    (hsmall : leaf'.looseSmall + smallLoose (leaf.place slot) (m slot) = leaf.looseSmall)
    (hlen : leaf'.loose.length = leaf.loose.length)
    (hgarbage : leaf'.looseGarbage = leaf.looseGarbage + isLoose (leaf.place slot) (m slot)) :
    Rebuilding used leaf₀ m extra seg total todo leaf' (out ++ entry record) := by
  obtain ⟨hlt, hin⟩ := mem_slotsOf.mp hslot
  have hleft := h.left
  rw [map_cons, sum_cons, hmoved] at hleft
  have hoffset : Place.of (out.length % 2 ^ 32) = .segment out.length := by
    have hlt' : out.length < 2 ^ 31 := by
      simp only [LOOSE] at htotal
      omega
    rw [Nat.mod_eq_of_lt (by omega)]
    exact Place.of_segment hlt'
  have hplace : leaf'.place = update leaf.place slot (.segment out.length) := by
    rw [← hoffset]
    exact place_eq_update hoffsets (by rw [h.sound.offsets]; exact hlt)
  have hother : ∀ s, s ≠ slot → leaf'.place s = leaf.place s := fun s hs => by
    rw [hplace, update_of_ne hs]
  have hfilled : filled (leaf.place slot) (m slot) = 1 := by
    cases hp : leaf.place slot with
    | empty => exact absurd hp hempty
    | segment o => rfl
    | loose index => rfl
  have hsame : update m slot (some record) = m := by rw [← hm, update_eq_self]
  have hsmallMax := h.sound.smallMax
  refine ⟨?_, hsegments.trans h.segments, ?_, ?_, ?_, ?_⟩
  · rw [← hsame]
    refine h.sound.edit hlt hoffsets (congrArg length hsegments) ?_ hloose ?_ ?_ ?_ ?_ ?_ ?_ ?_
    · intro s _ hs
      simp only [splitUsed, mem_cons, hs, false_or]
      split
      · exact prefix_append _ _
      · exact prefix_rfl
    · rw [hoffset]
      refine ⟨hsize, ?_⟩
      rw [splitUsed, if_pos ⟨hin, hnot⟩, drop_left]
    · intro s _ index hp
      rw [hoffset] at hp
      cases hp
    · simp only [hoffset, hfilled, hlive]
      rfl
    · simp only [hoffset]
      exact (congrArg (· + 0) hsmall).trans rfl
    · omega
    · simp only [hoffset, hlen, hgarbage]
      simp only [isLoose]
      omega
    · rw [hlen]
      exact h.sound.looseMax
  · intro s hs
    have hne : s ≠ slot := by
      rintro rfl
      exact hs hin
    rw [hother s hne]
    exact h.outside s hs
  · intro s
    rw [← h.empty s]
    by_cases hs : s = slot
    · subst hs
      rw [hplace, update_self]
      exact ⟨fun hp => (by cases hp), fun hp => absurd hp hempty⟩
    · rw [hother s hs]
  · have hfilter : (slotsOf seg).filter (fun s => s ∉ todo) =
        insert slot ((slotsOf seg).filter fun s => s ∉ slot :: todo) :=
      (filter_todo hslot).resolve_right hnot
    have hfresh : slot ∉ (slotsOf seg).filter fun s => s ∉ slot :: todo := by simp
    have hrest : tally inSegment ((slotsOf seg).filter fun s => s ∉ slot :: todo) leaf'.place m =
        tally inSegment ((slotsOf seg).filter fun s => s ∉ slot :: todo) leaf.place m := by
      refine tally_congr (fun s hs => hother s ?_) fun _ _ => rfl
      rintro rfl
      exact hfresh hs
    have hself : leaf'.place slot = .segment out.length := by rw [hplace, update_self]
    have hdone := h.done
    rw [length_append, hfilter, tally_insert hfresh, hrest, hself, hm]
    simp only [inSegment]
    omega
  · have hrest : (todo.map fun s => moved (leaf'.place s) (m s)).sum =
        (todo.map fun s => moved (leaf.place s) (m s)).sum := by
      refine congrArg sum (map_congr_left fun s hs => ?_)
      rw [hother s (fun heq => hnot (heq ▸ hs))]
    rw [hrest, length_append]
    omega

/-- One slot is copied. -/
theorem Rebuilding.step {old : Segment}
    (h : Rebuilding used leaf₀ m extra seg total (slot :: todo) leaf out)
    (hslot : slot ∈ slotsOf seg) (hnot : slot ∉ todo)
    (hused : used slot = (old.bytes bufs).take old.len) (htotal : total < LOOSE) :
    ∃ leaf' out', Leaf.rebuildSlot bufs old (leaf, out) slot = some (leaf', out') ∧
      Rebuilding used leaf₀ m extra seg total todo leaf' out' := by
  obtain ⟨hlt, hin⟩ := mem_slotsOf.mp hslot
  have hstored := h.sound.stored slot hlt
  have hleft := h.left
  rw [map_cons, sum_cons] at hleft
  have hother : ∀ s, s ≠ slot → splitUsed used seg (slot :: todo) out s =
      splitUsed used seg todo out s := by
    intro s hs
    simp only [splitUsed, mem_cons, hs, false_or]
  have hself : splitUsed used seg (slot :: todo) out slot = (old.bytes bufs).take old.len := by
    simp only [splitUsed, mem_cons_self, not_true_eq_false, and_false, if_false, hused]
  have hfilter : (slotsOf seg).filter (fun s => s ∉ todo) =
      insert slot ((slotsOf seg).filter fun s => s ∉ slot :: todo) :=
    (filter_todo hslot).resolve_right hnot
  have hfresh : slot ∉ (slotsOf seg).filter fun s => s ∉ slot :: todo := by simp
  -- a slot that is not copied
  have hstay : (∀ o, leaf.place slot ≠ .segment o) → moved (leaf.place slot) (m slot) = 0 →
      Rebuilding used leaf₀ m extra seg total todo leaf out := by
    intro hplace hmoved
    refine ⟨{ h.sound with stored := ?_ }, h.segments, h.outside, h.empty, ?_, by omega⟩
    · intro s hs
      by_cases heq : s = slot
      · subst heq
        cases hp : leaf.place s with
        | empty =>
          rw [hp] at hstored
          cases hm : m s with
          | none => trivial
          | some record => rw [hm] at hstored; exact hstored.elim
        | segment o => exact absurd hp (hplace o)
        | loose index =>
          rw [hp] at hstored
          cases hm : m s with
          | none => rw [hm] at hstored; exact hstored.elim
          | some record => rw [hm] at hstored; exact hstored
      · rw [← hother s heq]
        exact h.sound.stored s hs
    · rw [hfilter, tally_insert hfresh, h.done]
      have hzero : inSegment (leaf.place slot) (m slot) = 0 := by
        cases hp : leaf.place slot with
        | segment o => exact absurd hp (hplace o)
        | empty => cases m slot <;> rfl
        | loose index => cases m slot <;> rfl
      rw [hzero, Nat.zero_add]
  cases hp : leaf.place slot with
  | empty =>
    refine ⟨leaf, out, by simp only [Leaf.rebuildSlot, hp], hstay ?_ ?_⟩
    · rw [hp]
      exact fun o ho => by cases ho
    · rw [hp]
      rfl
  | segment offset =>
    cases hm : m slot with
    | none => rw [hp, hm] at hstored; exact hstored.elim
    | some record =>
      rw [hp, hm, hself] at hstored
      have hread := Segment.record_of_prefix (Segment.prefix_drop hstored.2)
      refine ⟨{ leaf with offsets := leaf.offsets.set slot (out.length % 2 ^ 32) },
        out ++ entry record, by simp only [Leaf.rebuildSlot, hp, hread, Option.map_some], ?_⟩
      refine h.copy hslot hnot htotal hm hstored.1 ?_ rfl rfl (fun _ _ _ _ => rfl) ?_ rfl ?_
        rfl ?_
      · rw [hp, hm]
        rfl
      · rw [hp]
        exact fun ho => by cases ho
      · rw [hp]
        rfl
      · rw [hp]
        rfl
  | loose index =>
    cases hm : m slot with
    | none => rw [hp, hm] at hstored; exact hstored.elim
    | some record =>
      rw [hp, hm] at hstored
      have hlooseAt : leaf.looseAt index = some record := by
        rw [Leaf.looseAt, show leaf.loose[index]? = some (some record) from hstored,
          Option.join_some]
      by_cases hsize : record.length < LARGE_MIN
      · have hfold : leaf.foldable index = some record := by
          rw [Leaf.foldable, hlooseAt, Option.filter_some, if_pos (by simpa using hsize)]
        have hsmallLe := h.sound.smallLoose_le hlt
        simp only [hp, hm, smallLoose, if_pos hsize] at hsmallLe
        refine ⟨{ leaf with
            offsets := leaf.offsets.set slot (out.length % 2 ^ 32)
            loose := leaf.loose.set index none
            looseSmall := leaf.looseSmall - 1
            looseGarbage := leaf.looseGarbage + 1 },
          out ++ entry record, by simp only [Leaf.rebuildSlot, hp, hfold], ?_⟩
        refine h.copy hslot hnot htotal hm hsize ?_ rfl rfl ?_ ?_ rfl ?_ (length_set ..) ?_
        · simp only [hp, hm, moved, if_pos hsize]
        · intro s hs other hother'
          refine getElem?_set_ne ?_
          rintro rfl
          exact hs (h.sound.apart _ _ _ hother' hp)
        · rw [hp]
          exact fun ho => by cases ho
        · simp only [hp, hm, smallLoose, if_pos hsize]
          omega
        · rw [hp]
          rfl
      · have hfold : leaf.foldable index = none := by
          rw [Leaf.foldable, hlooseAt, Option.filter_some, if_neg (by simpa using hsize)]
        refine ⟨leaf, out, by simp only [Leaf.rebuildSlot, hp, hfold], hstay ?_ ?_⟩
        · rw [hp]
          exact fun o ho => by cases ho
        · simp only [hp, hm, moved, if_neg hsize]

/-- Every slot is copied. -/
theorem Rebuilding.run {old : Segment}
    (h : Rebuilding used leaf₀ m extra seg total todo leaf out) (hnodup : todo.Nodup)
    (hsub : ∀ slot ∈ todo, slot ∈ slotsOf seg)
    (hused : ∀ slot ∈ slotsOf seg, used slot = (old.bytes bufs).take old.len)
    (htotal : total < LOOSE) :
    ∃ leaf' out', todo.foldlM (Leaf.rebuildSlot bufs old) (leaf, out) = some (leaf', out') ∧
      Rebuilding used leaf₀ m extra seg total [] leaf' out' := by
  induction todo generalizing leaf out with
  | nil => exact ⟨leaf, out, rfl, h⟩
  | cons slot todo ih =>
    obtain ⟨hnot, hnodup'⟩ := nodup_cons.mp hnodup
    have hslot := hsub slot mem_cons_self
    obtain ⟨leaf₁, out₁, hstep, h₁⟩ := h.step hslot hnot (hused slot hslot) htotal
    obtain ⟨leaf', out', hrun, h'⟩ := ih h₁ hnodup' fun s hs => hsub s (mem_cons_of_mem _ hs)
    refine ⟨leaf', out', ?_, h'⟩
    rw [foldlM_cons, hstep]
    exact hrun

theorem mem_slots : slot ∈ Leaf.slots seg ↔ segmentOf slot = seg := by
  rw [Leaf.slots, mem_range'_1, segmentOf, SEG_SLOTS]
  omega

theorem slots_nodup : (Leaf.slots seg).Nodup := nodup_range'

theorem slots_toFinset (hseg : seg < SEGMENTS) : (Leaf.slots seg).toFinset = slotsOf seg := by
  ext slot
  rw [mem_toFinset, mem_slots, mem_slotsOf]
  constructor
  · intro h
    refine ⟨?_, h⟩
    simp only [segmentOf, SEG_SLOTS, SEGMENTS, CHUNK] at *
    omega
  · exact fun h => h.2

/-- A sum over the slots of a segment is a tally. -/
theorem sum_slots (hseg : seg < SEGMENTS) :
    ((Leaf.slots seg).map fun slot => weight (place slot) (m slot)).sum =
      tally weight (slotsOf seg) place m := by
  rw [← List.sum_toFinset _ slots_nodup, slots_toFinset hseg]
  rfl

/-- Records a rebuild copies from a slot. -/
def copies : Place → Option Bytes → ℕ
  | .segment _, some _ => 1
  | .loose _, some record => if record.length < LARGE_MIN then 1 else 0
  | _, _ => 0

/-- Bytes a rebuild copies from a slot that is loose. -/
def folded : Place → Option Bytes → ℕ
  | .loose _, some record => if record.length < LARGE_MIN then (entry record).length else 0
  | _, _ => 0

theorem countSlot_eq (h : Sound used leaf m extra extraSmall) (hslot : slot < CHUNK)
    (count : ℕ × ℕ) : leaf.countSlot count slot =
      (count.1 + copies (leaf.place slot) (m slot), count.2 + folded (leaf.place slot)
        (m slot)) := by
  have hstored := h.stored slot hslot
  rw [Leaf.countSlot]
  cases hp : leaf.place slot with
  | empty => cases m slot <;> rfl
  | segment offset =>
    rw [hp] at hstored
    cases hm : m slot with
    | none => rw [hm] at hstored; exact hstored.elim
    | some record => rfl
  | loose index =>
    rw [hp] at hstored
    cases hm : m slot with
    | none => rw [hm] at hstored; exact hstored.elim
    | some record =>
      rw [hm] at hstored
      have hlooseAt : leaf.looseAt index = some record := by
        rw [Leaf.looseAt, show leaf.loose[index]? = some (some record) from hstored,
          Option.join_some]
      by_cases hsize : record.length < LARGE_MIN
      · simp only [Leaf.foldable, hlooseAt, Option.filter_some, hsize, decide_true, if_true,
          copies, folded, length_entry]
      · simp only [Leaf.foldable, hlooseAt, Option.filter_some, hsize, decide_false, copies, folded]
        rfl

/-- A rebuild counts the records it copies and their bytes. -/
theorem count_eq (h : leaf.Ok bufs m extra extraSmall) (hseg : seg < SEGMENTS) :
    (Leaf.slots seg).foldl leaf.countSlot (0, (leaf.segment seg).liveBytes) =
      (tally copies (slotsOf seg) leaf.place m, tally moved (slotsOf seg) leaf.place m) := by
  have hfold : ∀ (slots : List ℕ) (count : ℕ × ℕ), (∀ s ∈ slots, s < CHUNK) →
      slots.foldl leaf.countSlot count =
        (count.1 + (slots.map fun s => copies (leaf.place s) (m s)).sum,
          count.2 + (slots.map fun s => folded (leaf.place s) (m s)).sum) := by
    intro slots
    induction slots with
    | nil => exact fun _ _ => rfl
    | cons s slots ih =>
      intro count hlt
      rw [foldl_cons, countSlot_eq h.sound (hlt s mem_cons_self),
        ih _ fun t ht => hlt t (mem_cons_of_mem _ ht)]
      simp only [map_cons, sum_cons, Nat.add_assoc]
  have hlt : ∀ s ∈ Leaf.slots seg, s < CHUNK := by
    intro s hs
    rw [← mem_toFinset, slots_toFinset hseg] at hs
    exact (mem_slotsOf.mp hs).1
  rw [hfold _ _ hlt, sum_slots hseg, sum_slots hseg, (h.segs seg hseg).live, Nat.zero_add]
  have hsplit : ∀ p held, moved p held = inSegment p held + folded p held := by
    intro p held
    cases p <;> cases held <;> simp [moved, inSegment, folded]
  refine Prod.ext rfl ?_
  simp only [tally, hsplit, Finset.sum_add_distrib]

/-! ### How large a segment gets -/

/-- As much as the entry of a record that is not large takes. -/
def ENTRY_MAX : ℕ := LARGE_MIN + 2

/-- A slot's record takes at most its share. -/
theorem Stored.share {bytes : Bytes} (h : Stored bytes loose p held) :
    inSegment p held ≤ filled p held * ENTRY_MAX ∧ moved p held ≤ copies p held * ENTRY_MAX := by
  cases p with
  | empty => cases held <;> exact ⟨Nat.zero_le _, Nat.zero_le _⟩
  | segment offset =>
    cases held with
    | none => exact h.elim
    | some record =>
      have hle := length_entry_lt h.1
      simp only [inSegment, filled, moved, copies, ENTRY_MAX, Nat.one_mul]
      exact ⟨hle, hle⟩
  | loose index =>
    cases held with
    | none => exact h.elim
    | some record =>
      refine ⟨Nat.zero_le _, ?_⟩
      simp only [moved, copies]
      split
      next hsize =>
        rw [Nat.one_mul]
        exact length_entry_lt hsize
      next => exact Nat.zero_le _

theorem copies_le_one : copies p held ≤ 1 := by
  cases p <;> cases held <;> simp only [copies] <;> (try split) <;> omega

theorem card_slotsOf (hseg : seg < SEGMENTS) : (slotsOf seg).card = SEG_SLOTS := by
  rw [← slots_toFinset hseg, toFinset_card_of_nodup slots_nodup, Leaf.slots, length_range']

/-- A rebuild copies a record for each slot at most. -/
theorem tally_copies_le (hseg : seg < SEGMENTS) :
    tally copies (slotsOf seg) place m ≤ SEG_SLOTS := by
  rw [← card_slotsOf hseg, Finset.card_eq_sum_ones]
  exact Finset.sum_le_sum fun s _ => copies_le_one

/-- An empty slot leaves one less. -/
theorem tally_copies_lt (hseg : seg < SEGMENTS) (hslot : slot ∈ slotsOf seg)
    (hempty : place slot = .empty) : tally copies (slotsOf seg) place m + 1 ≤ SEG_SLOTS := by
  have hupdate := @tally_update copies _ place m slot (.segment 0) (some []) hslot
  have hle := @tally_copies_le (update place slot (.segment 0)) (update m slot (some [])) seg hseg
  have hzero : copies (place slot) (m slot) = 0 := by
    rw [hempty]
    cases m slot <;> rfl
  have hone : copies (.segment 0) (some []) = 1 := rfl
  omega

/-- The bytes the segments refer to are of filled slots. -/
theorem Leaf.Ok.leafBytes_le (h : leaf.Ok bufs m extra extraSmall) :
    (leaf.segments.map Segment.liveBytes).sum ≤ (leaf.live - extra) * ENTRY_MAX := by
  have hsum : (leaf.segments.map Segment.liveBytes).sum =
      ∑ seg ∈ Finset.range SEGMENTS, tally inSegment (slotsOf seg) leaf.place m := by
    have hrange : (range SEGMENTS).toFinset = Finset.range SEGMENTS := by
      ext seg
      rw [mem_toFinset, mem_range, Finset.mem_range]
    rw [segments_eq leaf, map_map, ← List.sum_toFinset _ nodup_range, h.sound.segments, hrange]
    exact Finset.sum_congr rfl fun seg hseg => (h.segs seg (Finset.mem_range.mp hseg)).live
  have hall : ∑ seg ∈ Finset.range SEGMENTS, tally inSegment (slotsOf seg) leaf.place m =
      tally inSegment (Finset.range CHUNK) leaf.place m := by
    refine Finset.sum_fiberwise_of_maps_to ?_ _
    exact fun s hs => Finset.mem_range.mpr (segmentOf_lt (Finset.mem_range.mp hs))
  have hshare : tally inSegment (Finset.range CHUNK) leaf.place m ≤
      tally filled (Finset.range CHUNK) leaf.place m * ENTRY_MAX :=
    tally_le_mul fun s hs => (h.sound.stored s (Finset.mem_range.mp hs)).share.1
  have hlive := h.sound.live
  rw [hsum, hall, hlive, Nat.add_sub_cancel]
  exact hshare

/-- The spare room is for at most a segment of records. -/
theorem Leaf.Ok.spare_le {live liveBytes need : ℕ} (h : leaf.Ok bufs m 1 extraSmall)
    (hlive : live + 1 ≤ SEG_SLOTS) (hbytes : liveBytes ≤ live * ENTRY_MAX)
    (hneed : need ≤ ENTRY_MAX) :
    leaf.spare live liveBytes need ≤ (SEG_SLOTS - 1) * ENTRY_MAX := by
  have hone : 1 ≤ ENTRY_MAX := by decide
  have hempty : SEG_SLOTS - (live + 1) ≤ SEG_SLOTS - 1 := by omega
  by_cases hzero : need = 0
  · rw [Leaf.spare, if_pos hzero]
    exact Nat.zero_le _
  · rw [Leaf.spare, if_neg hzero]
    by_cases hfresh : live = 0 ∧ 0 < leaf.live - 1
    · simp only [if_pos hfresh]
      refine Nat.mul_le_mul hempty (max_le ?_ hone)
      exact Nat.div_le_of_le_mul h.leafBytes_le
    · simp only [if_neg hfresh]
      refine max_le (Nat.mul_le_mul ((min_le_left _ _).trans hempty) ?_) ?_
      · split
        · exact hneed
        · exact Nat.div_le_of_le_mul hbytes
      · have hmul : live * ENTRY_MAX ≤ (SEG_SLOTS - 1) * ENTRY_MAX :=
          Nat.mul_le_mul_right _ (by omega)
        omega

/-! ### A rebuild -/

/-- Buffers allocated later leave a segment as it was. -/
theorem Segment.Ok.append_bufs {s : Segment} (h : s.Ok bufs total) (more : List Bytes) :
    Segment.Ok (bufs ++ more) s total ∧ s.bytes (bufs ++ more) = s.bytes bufs := by
  obtain ⟨hgarbage, hlen, hmax, hlive, hvalid⟩ := h
  have hbytes : s.bytes (bufs ++ more) = s.bytes bufs := by
    cases hb : s.buf with
    | none => simp only [Segment.bytes, hb, Option.bind_none]
    | some b =>
      obtain ⟨cell, hread⟩ := exists_read (hvalid b hb)
      simp only [Segment.bytes, hb, Option.bind_some, read_append hread, hread]
  refine ⟨⟨hgarbage, ?_, ?_, hlive, ?_⟩, hbytes⟩
  · rwa [hbytes]
  · rwa [hbytes]
  · intro b hb
    rw [length_append]
    exact (hvalid b hb).trans_le (Nat.le_add_right _ _)

/-- A segment with a new buffer, the last of the store. -/
theorem segment_new {spare : ℕ} (hmax : out.length + spare ≤ SEG_MAX) :
    Segment.Ok (bufs ++ [out ++ replicate spare 0]) ⟨some bufs.length, out.length, 0⟩ out.length ∧
      Segment.bytes ⟨some bufs.length, out.length, 0⟩ (bufs ++ [out ++ replicate spare 0]) =
        out ++ replicate spare 0 := by
  have hbytes : Segment.bytes ⟨some bufs.length, out.length, 0⟩
      (bufs ++ [out ++ replicate spare 0]) = out ++ replicate spare 0 := by
    simp only [Segment.bytes, Option.bind_some, Shared.read, getElem?_concat_length,
      Option.getD_some]
  refine ⟨⟨Nat.zero_le _, ?_, ?_, rfl, ?_⟩, hbytes⟩
  · rw [hbytes, length_append]
    exact Nat.le_add_right _ _
  · rwa [hbytes, length_append, length_replicate]
  · rintro b hb
    cases hb
    rw [length_append, length_singleton]
    exact Nat.lt_add_one _

/-- The pointers of a leaf with a segment replaced. -/
theorem mem_pointers_set {s : Segment} (h : leaf'.segments = leaf.segments.set seg s)
    (hb : b ∈ leaf'.pointers) : b ∈ leaf.pointers ∨ s.buf = some b := by
  obtain ⟨s', hs', hbuf⟩ := mem_filterMap.mp hb
  rw [h] at hs'
  rcases mem_or_eq_of_mem_set hs' with hold | rfl
  · exact Or.inl (mem_filterMap.mpr ⟨s', hold, hbuf⟩)
  · exact Or.inr hbuf

/-- What a rebuild is asked for: room for nothing, or for a record in an empty slot. -/
def Asked (leaf : Leaf) (extra seg need : ℕ) : Prop :=
  need = 0 ∨ extra = 1 ∧ need ≤ ENTRY_MAX ∧ ∃ slot ∈ slotsOf seg, leaf.place slot = .empty

/-- A rebuilt segment fits the offsets. -/
theorem rebuild_size {need : ℕ} (hok : leaf.Ok bufs m extra 0) (hseg : seg < SEGMENTS)
    (hneed : Asked leaf extra seg need) :
    tally moved (slotsOf seg) leaf.place m + need +
      leaf.spare (tally copies (slotsOf seg) leaf.place m)
        (tally moved (slotsOf seg) leaf.place m) need ≤ SEG_MAX := by
  have hmoved : tally moved (slotsOf seg) leaf.place m ≤
      tally copies (slotsOf seg) leaf.place m * ENTRY_MAX :=
    tally_le_mul fun s hs => (hok.sound.stored s (mem_slotsOf.mp hs).1).share.2
  rcases hneed with rfl | ⟨rfl, hle, slot, hslot, hempty⟩
  · have hall := @tally_copies_le leaf.place m seg hseg
    have hmul := Nat.mul_le_mul_right ENTRY_MAX hall
    have hmax : SEG_SLOTS * ENTRY_MAX ≤ SEG_MAX := by decide
    rw [Leaf.spare, if_pos rfl]
    omega
  · have hlive := @tally_copies_lt leaf.place m slot seg hseg hslot hempty
    have hspare := hok.spare_le hlive hmoved hle
    have hmul := Nat.mul_le_mul_right ENTRY_MAX (Nat.le_sub_of_add_le hlive)
    have hmax : (SEG_SLOTS - 1) * ENTRY_MAX + ENTRY_MAX + (SEG_SLOTS - 1) * ENTRY_MAX ≤
        SEG_MAX := by decide
    omega

/-- A rebuild keeps what the leaf stores, and gives the segment a buffer of its own with
the room asked for. -/
theorem rebuild_ok {need : ℕ} (hok : h.leaf.Ok h.bufs m extra 0) (hseg : seg < SEGMENTS)
    (hneed : Asked h.leaf extra seg need) :
    ∃ h' len, h.rebuild seg need = some h' ∧ h'.leaf.Ok h'.bufs m extra 0 ∧
      (∀ others, Frame others h h') ∧ h'.bufs.length = h.bufs.length + 1 ∧
      h'.leaf.segments = h.leaf.segments.set seg ⟨some h.bufs.length, len, 0⟩ ∧
      need ≤ ((h'.leaf.segment seg).bytes h'.bufs).length - (h'.leaf.segment seg).len ∧
      ∀ slot, h'.leaf.place slot = .empty ↔ h.leaf.place slot = .empty := by
  have hsize := rebuild_size hok hseg hneed
  have hsegMax := segMax_lt
  have hseglen : seg < h.leaf.segments.length := by rw [hok.sound.segments]; exact hseg
  have hstart : Rebuilding (h.leaf.usedBytes h.bufs) h.leaf m extra seg
      (tally moved (slotsOf seg) h.leaf.place m) (Leaf.slots seg) h.leaf [] := by
    have hused : splitUsed (h.leaf.usedBytes h.bufs) seg (Leaf.slots seg) [] =
        h.leaf.usedBytes h.bufs := by
      funext slot
      rw [splitUsed, if_neg]
      exact fun hs => hs.2 (mem_slots.mpr hs.1)
    refine ⟨by rw [hused]; exact hok.sound, rfl, fun _ _ => rfl, fun _ => Iff.rfl, ?_, ?_⟩
    · have hnone : (slotsOf seg).filter (fun s => s ∉ Leaf.slots seg) = ∅ := by
        refine Finset.filter_eq_empty_iff.mpr fun s hs => ?_
        rw [not_not, mem_slots]
        exact (mem_slotsOf.mp hs).2
      rw [hnone]
      rfl
    · rw [length_nil, Nat.zero_add, sum_slots hseg]
  obtain ⟨leaf, out, hrun, hdone⟩ : ∃ leaf out, (Leaf.slots seg).foldlM
      (Leaf.rebuildSlot h.bufs (h.leaf.segment seg)) (h.leaf, []) = some (leaf, out) ∧
      Rebuilding (h.leaf.usedBytes h.bufs) h.leaf m extra seg
        (tally moved (slotsOf seg) h.leaf.place m) [] leaf out := by
    refine hstart.run slots_nodup ?_ ?_ ?_
    · intro s hs
      rwa [← slots_toFinset hseg, mem_toFinset]
    · intro s hs
      rw [Leaf.usedBytes, (mem_slotsOf.mp hs).2]
    · rw [LOOSE]
      omega
  have hlen : out.length = tally moved (slotsOf seg) h.leaf.place m := by
    have hleft := hdone.left
    rwa [map_nil, sum_nil, Nat.add_zero] at hleft
  have hmod : out.length % 2 ^ 32 = out.length := Nat.mod_eq_of_lt (by omega)
  have hrebuild := count_eq hok hseg
  -- the new buffer is the last of the store
  obtain ⟨spare, hspare⟩ : ∃ spare, spare = h.leaf.spare
    (tally copies (slotsOf seg) h.leaf.place m) (tally moved (slotsOf seg) h.leaf.place m) need :=
      ⟨_, rfl⟩
  rw [← hspare] at hsize
  obtain ⟨hnewOk, hnewBytes⟩ := @segment_new h.bufs out (need + spare) (by omega)
  have hseglen' : seg < leaf.segments.length := by rw [hdone.segments]; exact hseglen
  have hsegment : ∀ seg', leaf.segment seg' = h.leaf.segment seg' := fun seg' => by
    rw [Leaf.segment, Leaf.segment, hdone.segments]
  refine ⟨⟨h.bufs ++ [out ++ replicate (need + spare) 0], { leaf with
    segments := leaf.segments.set seg ⟨some h.bufs.length, out.length % 2 ^ 32, 0⟩ }⟩,
    out.length % 2 ^ 32, ?_, ?_, ?_, ?_, ?_, ?_, ?_⟩
  · simp only [Held.rebuild, hrebuild, hrun, ← hspare]
    rw [if_pos (by omega)]
    have hroom : tally moved (slotsOf seg) h.leaf.place m + need + spare - out.length =
        need + spare := by omega
    rw [hroom]
  · refine ⟨{ hdone.sound with segments := ?_, stored := ?_ }, ?_⟩
    · rw [length_set]
      exact hdone.sound.segments
    · intro s hs
      have hstored := hdone.sound.stored s hs
      refine hstored.mono (prefix_of_eq ?_) fun _ _ => rfl
      refine Eq.trans ?_ (usedBytes_set leaf rfl hseglen').symm
      rw [splitUsed]
      split
      next hin =>
        rw [if_pos hin.1, hmod, hnewBytes, take_left]
      next hout =>
        have hne : segmentOf s ≠ seg := fun heq => hout ⟨heq, not_mem_nil⟩
        rw [if_neg hne, Leaf.usedBytes, Leaf.usedBytes, hsegment,
          ((hok.segs _ (segmentOf_lt hs)).append_bufs _).2]
    · intro seg' hseg'
      rw [segment_set leaf rfl hseglen']
      split
      next heq =>
        have hdoneLen := hdone.done
        have hall : (slotsOf seg).filter (fun s => s ∉ ([] : List ℕ)) = slotsOf seg :=
          Finset.filter_true_of_mem fun _ _ => not_mem_nil
        rw [hall] at hdoneLen
        rw [heq, hmod]
        change Segment.Ok _ _ (tally inSegment (slotsOf seg) leaf.place m)
        rw [← hdoneLen]
        exact hnewOk
      next hne =>
        have hsame : tally inSegment (slotsOf seg') leaf.place m =
            tally inSegment (slotsOf seg') h.leaf.place m := by
          refine tally_congr (fun s hs => hdone.outside s ?_) fun _ _ => rfl
          rw [(mem_slotsOf.mp hs).2]
          exact hne
        rw [hsegment]
        refine (Segment.Ok.append_bufs ?_ _).1
        change Segment.Ok _ _ (tally inSegment (slotsOf seg') leaf.place m)
        rw [hsame]
        exact hok.segs seg' hseg'
  · intro others
    refine ⟨?_, ?_, ?_⟩
    · intro b _ hb
      exact getElem?_append_left hb
    · rw [length_append]
      omega
    · intro b hb
      have hsegments : leaf.segments.set seg ⟨some h.bufs.length, out.length % 2 ^ 32, 0⟩ =
          h.leaf.segments.set seg ⟨some h.bufs.length, out.length % 2 ^ 32, 0⟩ := by
        rw [hdone.segments]
      rcases mem_pointers_set hsegments hb with hold | hnew
      · exact Or.inl hold
      · cases hnew
        exact Or.inr le_rfl
  · rw [length_append, length_singleton]
  · simp only [hdone.segments]
  · rw [segment_set leaf rfl hseglen', if_pos rfl, hmod, hnewBytes, length_append, length_replicate]
    exact le_of_le_of_eq (Nat.le_add_right _ spare) (Nat.add_sub_cancel_left _ _).symm
  · intro slot
    exact hdone.empty slot

/-! ### Storing a record -/

/-- A record about to be stored is counted first. -/
theorem Leaf.Ok.count_live (h : leaf.Ok bufs m 0 extraSmall) :
    Leaf.Ok bufs { leaf with live := leaf.live + 1 } m 1 extraSmall := by
  have hlive := h.sound.live
  refine ⟨{ h.sound with live := ?_ }, h.segs⟩
  change leaf.live + 1 = tally filled (Finset.range CHUNK) leaf.place m + 1
  omega

/-- So is an update about to be kept loose. -/
theorem Leaf.Ok.count_small (h : leaf.Ok bufs m extra 0) (hmax : leaf.looseSmall < LOOSE_MAX) :
    Leaf.Ok bufs { leaf with looseSmall := leaf.looseSmall + 1 } m extra 1 := by
  have hsmall := h.sound.small
  refine ⟨{ h.sound with small := ?_, smallMax := hmax }, h.segs⟩
  change leaf.looseSmall + 1 = tally smallLoose (Finset.range CHUNK) leaf.place m + 1
  omega

/-- A rebuilt segment is unshared. -/
theorem count_rebuilt {len : ℕ} (hseg : seg < leaf.segments.length)
    (hsegments : leaf'.segments = leaf.segments.set seg ⟨some bufs.length, len, 0⟩)
    (hothers : ∀ b ∈ others, b < bufs.length) (hown : ∀ b ∈ leaf.pointers, b < bufs.length) :
    (others ++ leaf'.pointers).count bufs.length = 1 := by
  have hfresh : ∀ bs : List Addr, (∀ b ∈ bs, b < bufs.length) → bs.count bufs.length = 0 := by
    intro bs hbs
    exact count_eq_zero.mpr fun hmem => lt_irrefl _ (hbs _ hmem)
  have hperm := (set_perm_cons_eraseIdx hseg (⟨some bufs.length, len, 0⟩ : Segment)).filterMap
    Segment.buf
  have hrest : ∀ b ∈ (leaf.segments.eraseIdx seg).filterMap Segment.buf, b < bufs.length := by
    intro b hb
    obtain ⟨s, hs, hbuf⟩ := mem_filterMap.mp hb
    exact hown b (mem_filterMap.mpr ⟨s, mem_of_mem_eraseIdx hs, hbuf⟩)
  rw [count_append, hfresh others hothers, Leaf.pointers, hsegments, hperm.count_eq,
    show ∀ rest, filterMap Segment.buf (⟨some bufs.length, len, 0⟩ :: rest) =
      bufs.length :: filterMap Segment.buf rest from fun _ => filterMap_cons_some rfl,
    count_cons_self, hfresh _ hrest]

theorem append_of_room {need : ℕ} (hb : (h.leaf.segment (segmentOf slot)).buf = some b)
    (hcount : (others ++ h.leaf.pointers).count b = 1)
    (hroom : need ≤ ((h.leaf.segment (segmentOf slot)).bytes h.bufs).length -
      (h.leaf.segment (segmentOf slot)).len) :
    h.append others slot record need = some (h.appended slot record b) := by
  simp only [Held.append, hb, hcount, true_and]
  rw [if_pos hroom]

theorem Leaf.Ok.pointers_lt (h : leaf.Ok bufs m extra extraSmall) :
    ∀ b ∈ leaf.pointers, b < bufs.length := by
  intro b hb
  obtain ⟨s, hs, hbuf⟩ := mem_filterMap.mp hb
  obtain ⟨seg, hseg, rfl⟩ := getElem_of_mem hs
  refine (h.segs seg (by rw [← h.sound.segments]; exact hseg)).pointer b ?_
  rw [Leaf.segment, getD_eq_getElem _ _ hseg]
  exact hbuf

/-- A set stores the record and leaves every other slot, and the buffers of other leaves.
In particular what does not append after a rebuild never comes up. -/
theorem Held.set_ok (hok : h.leaf.Ok h.bufs m 0 0) (hslot : slot < CHUNK)
    (hothers : ∀ b ∈ others, b < h.bufs.length) (record : Bytes) :
    ∃ h', h.set others slot record = some h' ∧
      h'.leaf.Ok h'.bufs (update m slot (some record)) 0 0 ∧ Frame others h h' := by
  obtain ⟨leaf₁, hrelease, hok₁, hpointers, hempty⟩ := hok.release hslot
  have hcounted := hok₁.count_live
  have hidem : update (update m slot none) slot (some record) =
      update m slot (some record) := update_idem _ _ _
  have hstart : Frame others h ⟨h.bufs, { leaf₁ with live := leaf₁.live + 1 }⟩ :=
    ⟨fun _ _ _ => rfl, le_rfl, fun b hb => Or.inl (hpointers ▸ hb)⟩
  rw [Held.set]
  simp only [hrelease, Option.bind_some]
  by_cases hlarge : LARGE_MIN ≤ record.length
  · rw [if_pos hlarge]
    obtain ⟨hpushed, hsame⟩ := @Leaf.Ok.pushLoose _ slot _ 0 h.bufs record hcounted hslot hempty
      (by rw [if_neg (not_lt.mpr hlarge)])
    rw [hidem] at hpushed
    exact ⟨_, rfl, hpushed, hstart.trans (.of_leaf hsame)⟩
  · have hsmall : record.length < LARGE_MIN := not_le.mp hlarge
    rw [if_neg hlarge, ← length_entry]
    cases happend : Held.append others ⟨h.bufs, { leaf₁ with live := leaf₁.live + 1 }⟩ slot record
        (entry record).length with
    | some h' =>
      obtain ⟨hok', hframe⟩ := append_ok hcounted hslot hempty hsmall happend
      rw [hidem] at hok'
      exact ⟨h', rfl, hok', hstart.trans hframe⟩
    | none =>
      simp only
      split
      next hkeep =>
        have hcounted' := hcounted.count_small hkeep.2
        obtain ⟨hpushed, hsame⟩ := @Leaf.Ok.pushLoose _ slot _ 1 h.bufs record hcounted' hslot
          hempty (by rw [if_pos hsmall])
        rw [hidem] at hpushed
        exact ⟨_, rfl, hpushed, hstart.trans (.of_leaf hsame)⟩
      next =>
        have hmem : slot ∈ slotsOf (segmentOf slot) := mem_slotsOf.mpr ⟨hslot, rfl⟩
        have hasked : Asked { leaf₁ with live := leaf₁.live + 1 } 1 (segmentOf slot)
            (entry record).length :=
          Or.inr ⟨rfl, length_entry_lt hsmall, slot, hmem, hempty⟩
        have hseglen : segmentOf slot < leaf₁.segments.length := by
          rw [hok₁.sound.segments]
          exact segmentOf_lt hslot
        obtain ⟨h₂, len, hrebuild, hok₂, hframe₂, -, hsegments, hroom, hplaces⟩ :=
          @rebuild_ok _ 1 ⟨h.bufs, { leaf₁ with live := leaf₁.live + 1 }⟩ (segmentOf slot)
            (entry record).length hcounted (segmentOf_lt hslot) hasked
        have hone := count_rebuilt hseglen hsegments hothers hok₁.pointers_lt
        have hbuf : (h₂.leaf.segment (segmentOf slot)).buf = some h.bufs.length := by
          rw [segment_set leaf₁ hsegments hseglen, if_pos rfl]
        have happend₂ := @append_of_room slot others h₂ record _ _ hbuf hone hroom
        obtain ⟨hok', hframe'⟩ := append_ok hok₂ hslot ((hplaces slot).mpr hempty) hsmall happend₂
        rw [hidem] at hok'
        rw [hrebuild, Option.bind_some, happend₂]
        exact ⟨_, rfl, hok', hstart.trans ((hframe₂ others).trans hframe')⟩

/-! ### Emptying a slot -/

theorem place_new : Leaf.new.place slot = .empty := by
  rw [Leaf.place, Leaf.new, getD_eq_getElem?_getD, getElem?_replicate]
  split <;> rfl

theorem segment_new_none : Leaf.new.segment seg = .none := by
  rw [Leaf.segment, Leaf.new, getD_eq_getElem?_getD, getElem?_replicate]
  split <;> rfl

theorem Segment.none_ok : Segment.Ok bufs .none 0 :=
  ⟨le_rfl, Nat.zero_le _, Nat.zero_le _, rfl, fun _ hb => by cases hb⟩

/-- A new leaf stores nothing. -/
theorem Leaf.new_ok (h : ∀ slot < CHUNK, m slot = none) : Leaf.new.Ok bufs m 0 0 := by
  have hzero : ∀ {weight : Place → Option Bytes → ℕ} {S : Finset ℕ},
      (∀ held, weight .empty held = 0) → tally weight S Leaf.new.place m = 0 := by
    intro weight S hweight
    refine Finset.sum_eq_zero fun s _ => ?_
    rw [place_new, hweight]
  have hnone : ∀ (weight : Place → Option Bytes → ℕ), weight .empty none = 0 →
      tally weight (Finset.range CHUNK) Leaf.new.place m = 0 := by
    intro weight hweight
    refine Finset.sum_eq_zero fun s hs => ?_
    rw [place_new, h s (Finset.mem_range.mp hs), hweight]
  refine ⟨⟨by rw [Leaf.new, length_replicate], by rw [Leaf.new, length_replicate], ?_, ?_, ?_, ?_,
    Nat.zero_le _, ?_, Nat.zero_le _⟩, ?_⟩
  · intro s hs
    rw [place_new, h s hs]
    trivial
  · intro s s' index hp
    rw [place_new] at hp
    cases hp
  · rw [hzero fun _ => rfl]
    rfl
  · rw [hnone smallLoose rfl]
    rfl
  · rw [hzero fun _ => rfl]
    rfl
  · intro seg _
    rw [segment_new_none, tally, Finset.sum_eq_zero]
    · exact Segment.none_ok
    · intro s hs
      rw [place_new]
      cases m s <;> rfl

/-- A leaf with no live record stores nothing. -/
theorem Leaf.Ok.none_of_live (h : leaf.Ok bufs m 0 extraSmall) (hlive : leaf.live = 0) :
    ∀ slot < CHUNK, m slot = none := by
  intro slot hslot
  have hfilled := h.sound.filled_le hslot
  have hplace : leaf.place slot = .empty := by
    cases hp : leaf.place slot with
    | empty => rfl
    | segment offset =>
      simp only [hp, filled] at hfilled
      omega
    | loose index =>
      simp only [hp, filled] at hfilled
      omega
  exact (h.sound.stored slot hslot).empty_iff.mp hplace

/-- A segment whose bytes are all garbage may be dropped. -/
theorem Leaf.Ok.drop_segment (h : leaf.Ok bufs m extra extraSmall) (hseg : seg < SEGMENTS)
    (hall : (leaf.segment seg).garbage = (leaf.segment seg).len) :
    Leaf.Ok bufs { leaf with segments := leaf.segments.set seg .none } m extra extraSmall := by
  have hseglen : seg < leaf.segments.length := by rw [h.sound.segments]; exact hseg
  have hlive := (h.segs seg hseg).live
  rw [Segment.liveBytes, hall, Nat.sub_self] at hlive
  refine ⟨{ h.sound with segments := ?_, stored := ?_ }, ?_⟩
  · rw [length_set]
    exact h.sound.segments
  · intro s hs
    have hstored := h.sound.stored s hs
    change Stored _ leaf.loose (leaf.place s) (m s)
    cases hp : leaf.place s with
    | empty =>
      rw [hp] at hstored
      cases hm : m s with
      | none => trivial
      | some record => rw [hm] at hstored; exact hstored.elim
    | loose index =>
      rw [hp] at hstored
      cases hm : m s with
      | none => rw [hm] at hstored; exact hstored.elim
      | some record => rw [hm] at hstored; exact hstored
    | segment offset =>
      refine hp ▸ hstored.mono (prefix_of_eq ?_) fun _ _ => rfl
      refine Eq.trans ?_ (usedBytes_set leaf rfl hseglen).symm
      rw [if_neg]
      intro heq
      have hle := @weight_le_tally inSegment (slotsOf seg) leaf.place m s
        (mem_slotsOf.mpr ⟨hs, heq⟩)
      rw [hp] at hstored hle
      cases hm : m s with
      | none => rw [hm] at hstored; exact hstored.elim
      | some record =>
        have hpos := length_entry_pos record
        simp only [hm, inSegment] at hle
        omega
  · intro seg' hseg'
    change Segment.Ok _ _ (tally inSegment (slotsOf seg') leaf.place m)
    rw [segment_set leaf rfl hseglen]
    split
    next heq =>
      rw [heq, ← hlive]
      exact Segment.none_ok
    next => exact h.segs seg' hseg'

/-- A remove empties the slot and leaves every other slot, and the buffers of other
leaves. -/
theorem Held.remove_ok (hok : h.leaf.Ok h.bufs m 0 0) (hslot : slot < CHUNK) :
    ∃ h', h.remove slot = some (h', (m slot).isSome) ∧
      h'.leaf.Ok h'.bufs (update m slot none) 0 0 ∧ ∀ others, Frame others h h' := by
  have hempty := (hok.sound.stored slot hslot).empty_iff
  by_cases hplace : h.leaf.place slot = .empty
  · have hm := hempty.mp hplace
    have hsame : update m slot none = m := by rw [← hm, update_eq_self]
    rw [hsame]
    refine ⟨h, ?_, hok, fun _ => .refl⟩
    rw [Held.remove, if_pos hplace, hm]
    rfl
  · have hsome : (m slot).isSome = true :=
      Option.isSome_iff_ne_none.mpr fun hm => hplace (hempty.mpr hm)
    obtain ⟨leaf₁, hrelease, hok₁, hpointers, -⟩ := hok.release hslot
    have hstart : ∀ others, Frame others h ⟨h.bufs, leaf₁⟩ := fun others =>
      ⟨fun _ _ _ => rfl, le_rfl, fun b hb => Or.inl (hpointers ▸ hb)⟩
    rw [Held.remove, if_neg hplace, hrelease, Option.bind_some, hsome]
    split
    next hlive =>
      refine ⟨_, rfl, Leaf.new_ok (hok₁.none_of_live hlive), fun others => ?_⟩
      refine ⟨fun _ _ _ => rfl, le_rfl, fun b hb => ?_⟩
      have hnone : Leaf.new.pointers = [] := by decide
      rw [hnone] at hb
      exact absurd hb not_mem_nil
    next =>
      have hseg := segmentOf_lt hslot
      cases hp : h.leaf.place slot with
      | empty => exact absurd hp hplace
      | loose index => exact ⟨_, rfl, hok₁, hstart⟩
      | segment offset =>
        simp only
        split
        next hall =>
          refine ⟨_, rfl, hok₁.drop_segment hseg hall, fun others => (hstart others).trans ?_⟩
          refine ⟨fun _ _ _ => rfl, le_rfl, fun b hb => ?_⟩
          rcases mem_pointers_set rfl hb with hold | hnew
          · exact Or.inl hold
          · cases hnew
        next =>
          split
          next =>
            obtain ⟨h₂, len, hrebuild, hok₂, hframe, -⟩ :=
              @rebuild_ok _ 0 ⟨h.bufs, leaf₁⟩ _ 0 hok₁ hseg (Or.inl rfl)
            refine ⟨h₂, ?_, hok₂, fun others => (hstart others).trans (hframe others)⟩
            rw [hrebuild, Option.map_some]
          next => exact ⟨_, rfl, hok₁, hstart⟩

end Slab

end LoraDb
