import LoraDb.Shared
import LoraDb.Varint
import Mathlib.Algebra.Order.BigOperators.Group.Finset

/-!
# Leaves of Records

A leaf stores the records of `CHUNK` consecutive slots. A slot is empty, at an offset of its
segment (one buffer for `SEG_SLOTS` slots, which copies of the leaf share), or loose,
in an entry of its own. A record is never changed in place: a new version is appended to the
segment, or kept loose, or the segment is rebuilt around it.

Buffers are cells of a store: `Held` is a leaf with the store its segments point into, and
`others` are the pointers to buffers that other leaves hold. The functions return nothing
where the code panics.

## Main definitions

* `Held.set`, `Held.remove`: store a record, empty a slot.
* `Held.rebuild`: copy a segment's records, and its slots' loose updates, into a new buffer.
-/

namespace LoraDb

namespace Slab

open ByteCodec Shared

/-! ### Sizes -/

/-- Slots of a leaf. -/
def CHUNK : ℕ := 512

/-- Leaf pointers of an interior node. -/
def FANOUT : ℕ := 128

/-- Slots of a segment. -/
def SEG_SLOTS : ℕ := 64

/-- Segments of a leaf. -/
def SEGMENTS : ℕ := CHUNK / SEG_SLOTS

/-- Offset of an **empty** slot. -/
def EMPTY : ℕ := 2 ^ 32 - 1

/-- Set on the offset of a record held outside the segments. -/
def LOOSE : ℕ := 2 ^ 31

/-- Records at least this long are always loose. -/
def LARGE_MIN : ℕ := 2 ^ 16

/-- Updates a leaf keeps loose, at most. -/
def LOOSE_MAX : ℕ := 32

/-- Released entries the loose records may hold before a push compacts them. -/
def LOOSE_SLACK : ℕ := 8

/-- The most bytes a segment's buffer is ever sized for. -/
def SEG_MAX : ℕ := 2 * (SEG_SLOTS + 1) * (LARGE_MIN + 3)

/-! ### Segments -/

/-- Where a slot's record is. -/
inductive Place
  | empty
  | segment (offset : ℕ)
  | loose (index : ℕ)
deriving DecidableEq

def Place.of (offset : ℕ) : Place :=
  if offset = EMPTY then .empty
  else if offset &&& LOOSE ≠ 0 then .loose (offset &&& (LOOSE - 1))
  else .segment offset

def segmentOf (slot : ℕ) : ℕ := slot / SEG_SLOTS

/-- The records of consecutive slots: a buffer filled from the front, of which `garbage`
bytes in use are of no slot. -/
structure Segment where
  buf : Option Addr
  len : ℕ
  garbage : ℕ

/-- A segment without a buffer. -/
def Segment.none : Segment := ⟨.none, 0, 0⟩

/-- A record behind its length. -/
def entry (record : Bytes) : Bytes := Varint.push record.length ++ record

namespace Segment

variable (s : Segment) (bufs : List Bytes)

def bytes : Bytes := (s.buf.bind (read bufs)).getD []

def liveBytes : ℕ := s.len - s.garbage

/-- The record at byte `offset`. -/
def record (offset : ℕ) : Option Bytes :=
  match Varint.read ((s.bytes bufs).drop offset) with
  | some (len, rest) => if len ≤ rest.length then some (rest.take len) else .none
  | .none => .none

/-- Bytes the record at `offset` takes, its length included. -/
def storedLen (offset : ℕ) : Option ℕ :=
  (Varint.read ((s.bytes bufs).drop offset)).map fun out =>
    ((s.bytes bufs).drop offset).length - out.2.length + out.1

end Segment

/-! ### The leaf -/

structure Leaf where
  /-- Each slot's offset into its segment, or its index among the loose records. -/
  offsets : List ℕ
  segments : List Segment
  loose : List (Option Bytes)
  looseGarbage : ℕ
  looseSmall : ℕ
  live : ℕ

namespace Leaf

def new : Leaf where
  offsets := List.replicate CHUNK EMPTY
  segments := List.replicate SEGMENTS .none
  loose := []
  looseGarbage := 0
  looseSmall := 0
  live := 0

variable (leaf : Leaf) (bufs : List Bytes)

def place (slot : ℕ) : Place := .of (leaf.offsets.getD slot EMPTY)

def segment (seg : ℕ) : Segment := leaf.segments.getD seg .none

/-- The buffers the leaf points to. -/
def pointers : List Addr := leaf.segments.filterMap Segment.buf

def looseAt (index : ℕ) : Option Bytes := leaf.loose[index]?.join

def get (slot : ℕ) : Option Bytes :=
  match leaf.place slot with
  | .empty => none
  | .segment offset => (leaf.segment (segmentOf slot)).record bufs offset
  | .loose index => leaf.looseAt index

def contains (slot : ℕ) : Bool := leaf.offsets.getD slot EMPTY != EMPTY

/-- Account for the record in `slot` becoming unreachable. -/
def release (slot : ℕ) : Option Leaf :=
  match leaf.place slot with
  | .empty => some leaf
  | .segment offset =>
    let s := leaf.segment (segmentOf slot)
    (s.storedLen bufs offset).map fun stored =>
      { leaf with
        segments := leaf.segments.set (segmentOf slot) { s with garbage := s.garbage + stored }
        offsets := leaf.offsets.set slot EMPTY
        live := leaf.live - 1 }
  | .loose index =>
    some { leaf with
      loose := leaf.loose.set index none
      looseSmall :=
        if (leaf.looseAt index).any fun record => record.length < LARGE_MIN then
          leaf.looseSmall - 1
        else leaf.looseSmall
      looseGarbage := leaf.looseGarbage + 1
      offsets := leaf.offsets.set slot EMPTY
      live := leaf.live - 1 }

/-- Move the loose record of `slot`, if it has one, to the end of the compacted ones. -/
def compactSlot (st : Leaf × List (Option Bytes)) (slot : ℕ) : Leaf × List (Option Bytes) :=
  match st.1.place slot with
  | .loose index =>
    ({ st.1 with
        offsets := st.1.offsets.set slot (LOOSE ||| st.2.length % 2 ^ 32)
        loose := st.1.loose.set index none },
      st.2 ++ [st.1.looseAt index])
  | _ => st

/-- Drop the released entries of the loose records. -/
def compactLoose : Leaf :=
  let (leaf, loose) := (List.range CHUNK).foldl compactSlot (leaf, [])
  { leaf with loose, looseGarbage := 0 }

def pushLoose (slot : ℕ) (bytes : Bytes) : Leaf :=
  let leaf :=
    if LOOSE_SLACK ≤ leaf.looseGarbage ∧ leaf.loose.length / 2 < leaf.looseGarbage then
      leaf.compactLoose
    else leaf
  { leaf with
    offsets := leaf.offsets.set slot (LOOSE ||| leaf.loose.length % 2 ^ 32)
    loose := leaf.loose ++ [some bytes] }

/-- The loose record at `index`, if a rebuild folds it back into its segment. -/
def foldable (index : ℕ) : Option Bytes :=
  (leaf.looseAt index).filter fun record => record.length < LARGE_MIN

/-- The slots of a segment. -/
def slots (seg : ℕ) : List ℕ := List.range' (seg * SEG_SLOTS) SEG_SLOTS

/-- Spare room for a rebuilt segment that will hold `live` records in `liveBytes`, and then
one more of `need` bytes. -/
def spare (live liveBytes need : ℕ) : ℕ :=
  if need = 0 then 0
  else
    let empty := SEG_SLOTS - (live + 1)
    let others := leaf.live - 1
    if live = 0 ∧ 0 < others then
      let leafBytes := (leaf.segments.map Segment.liveBytes).sum
      empty * max (leafBytes / others) 1
    else
      let avg := if live = 0 then need else liveBytes / live
      max (min empty (max live 1) * avg) (liveBytes / 8)

/-- The records a rebuild copies from a slot, and their bytes, counted. -/
def countSlot (count : ℕ × ℕ) (slot : ℕ) : ℕ × ℕ :=
  match leaf.place slot with
  | .empty => count
  | .segment _ => (count.1 + 1, count.2)
  | .loose index =>
    match leaf.foldable index with
    | some record => (count.1 + 1, count.2 + (Varint.len record.length + record.length))
    | none => count

/-- Copy the record of `slot` to the end of `out`: from the `old` segment, or a loose one. -/
def rebuildSlot (old : Segment) (st : Leaf × Bytes) (slot : ℕ) : Option (Leaf × Bytes) :=
  match st.1.place slot with
  | .empty => some st
  | .segment offset =>
    (old.record bufs offset).map fun record =>
      ({ st.1 with offsets := st.1.offsets.set slot (st.2.length % 2 ^ 32) }, st.2 ++ entry record)
  | .loose index =>
    match st.1.foldable index with
    | some record =>
      some ({ st.1 with
          offsets := st.1.offsets.set slot (st.2.length % 2 ^ 32)
          loose := st.1.loose.set index none
          looseSmall := st.1.looseSmall - 1
          looseGarbage := st.1.looseGarbage + 1 },
        st.2 ++ entry record)
    | none => some st

end Leaf

/-! ### The leaf and the buffers -/

/-- A leaf, with the store of the buffers its segments point into. -/
structure Held where
  bufs : List Bytes
  leaf : Leaf

namespace Held

variable (others : List Addr) (h : Held) (slot : ℕ) (bytes : Bytes)

/-- The record written to the buffer `b` of the slot's segment, after the bytes in use. -/
def appended (b : Addr) : Held :=
  let s := h.leaf.segment (segmentOf slot)
  let buf := s.bytes h.bufs
  { bufs := h.bufs.set b
      (buf.take s.len ++ entry bytes ++ buf.drop (s.len + (entry bytes).length))
    leaf := { h.leaf with
      segments := h.leaf.segments.set (segmentOf slot)
        { s with len := (s.len + (entry bytes).length) % 2 ^ 32 }
      offsets := h.leaf.offsets.set slot (s.len % 2 ^ 32) } }

/-- Append to the slot's segment, if its buffer is unshared and has room. -/
def append (need : ℕ) : Option Held :=
  let s := h.leaf.segment (segmentOf slot)
  match s.buf with
  | none => none
  | some b =>
    if (others ++ h.leaf.pointers).count b = 1 ∧ need ≤ (s.bytes h.bufs).length - s.len then
      some (h.appended slot bytes b)
    else none

/-- Copy a segment's reachable records, and its slots' loose updates, into a buffer of its
own, with room for `need` more bytes. -/
def rebuild (seg need : ℕ) : Option Held :=
  let s := h.leaf.segment seg
  let count := (Leaf.slots seg).foldl h.leaf.countSlot (0, s.liveBytes)
  let size := count.2 + need + h.leaf.spare count.1 count.2 need
  match (Leaf.slots seg).foldlM (Leaf.rebuildSlot h.bufs s) (h.leaf, []) with
  | none => none
  | some (leaf, out) =>
    if out.length ≤ size then
      some {
        bufs := h.bufs ++ [out ++ List.replicate (size - out.length) 0]
        leaf := { leaf with
          segments := leaf.segments.set seg ⟨some h.bufs.length, out.length % 2 ^ 32, 0⟩ } }
    else none

/-- Store `bytes` in `slot`, replacing what it held. -/
def set : Option Held :=
  let update := h.leaf.contains slot
  (h.leaf.release h.bufs slot).bind fun leaf =>
    let leaf := { leaf with live := leaf.live + 1 }
    let h : Held := ⟨h.bufs, leaf⟩
    if LARGE_MIN ≤ bytes.length then some ⟨h.bufs, leaf.pushLoose slot bytes⟩
    else
      let need := Varint.len bytes.length + bytes.length
      match h.append others slot bytes need with
      | some h => some h
      | none =>
        if update ∧ leaf.looseSmall < LOOSE_MAX then
          let leaf := { leaf with looseSmall := leaf.looseSmall + 1 }
          some ⟨h.bufs, leaf.pushLoose slot bytes⟩
        else
          -- what does not append after a rebuild fails an assertion
          (h.rebuild (segmentOf slot) need).bind fun h => h.append others slot bytes need

/-- Empty `slot`. Returns whether it held a record. -/
def remove : Option (Held × Bool) :=
  if h.leaf.place slot = .empty then some (h, false)
  else
    (h.leaf.release h.bufs slot).bind fun leaf =>
      if leaf.live = 0 then some (⟨h.bufs, .new⟩, true)
      else
        match h.leaf.place slot with
        | .segment _ =>
          let seg := segmentOf slot
          let s := leaf.segment seg
          if s.garbage = s.len then
            some (⟨h.bufs, { leaf with segments := leaf.segments.set seg .none }⟩, true)
          else if 4096 < s.garbage ∧ s.len / 2 < s.garbage then
            (rebuild ⟨h.bufs, leaf⟩ seg 0).map fun h => (h, true)
          else some (⟨h.bufs, leaf⟩, true)
        | _ => some (⟨h.bufs, leaf⟩, true)

end Held

end Slab

end LoraDb
