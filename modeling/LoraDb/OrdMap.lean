import LoraDb.Handles
import LoraDb.SortedRuns
import LoraDb.StrPostings

/-!
# Ordered Maps that Copy on Write

A root table of groups, each a table of partitions, each a sorted array; every group and every
partition is filed under its smallest key. Nodes are shared between clones and copied before
they are written, so a map is its value.

## Main definitions

* `CowOrdMap.insertNew`, `CowOrdMap.remove`: the writes, with splits and merges at two levels.
* `CowOrdMap.fromSorted`: a map of ascending entries, built without the walks.
* `CowOrdMap.floor`, `CowOrdMap.range`: the ordered reads.
-/

open List SortedRuns

namespace LoraDb

namespace OrdMap

open StrIndex (Bound)

variable {K V X : Type} [LinearOrder K]

/-- Most partitions in one group before it splits in two. -/
def GROUP_MAX : ℕ := 128

/-- A group with fewer partitions merges into a neighbour when the two fit. -/
def GROUP_MIN : ℕ := GROUP_MAX / 4

/-- A partition: a sorted run of entries. -/
abbrev SortedPart (K V : Type) := List (K × V)

/-- Partitions in key order, each with its smallest key. -/
abbrev Group (K V : Type) := List (K × SortedPart K V)

/-- Groups in key order, each with its smallest key. -/
abbrev Root (K V : Type) := List (K × Group K V)

structure CowOrdMap (K V : Type) where
  groups : Root K V
  len : ℕ

/-! ### Partitions -/

namespace SortedPart

variable (part : SortedPart K V) (key : K)

def position : Except ℕ ℕ := search Prod.fst key part

def get : Option (Option V) :=
  match position part key with
  | .ok i => (part[i]?).map fun entry => some entry.2
  | .error _ => some none

/-- Insert an entry, replacing the value if the partition holds the key. -/
def insert (value : V) : Option (SortedPart K V) :=
  -- Ascending loads append.
  if part.getLast?.all (fun last => decide (last.1 < key)) then some (part ++ [(key, value)])
  else
    match position part key with
    | .ok i => (part[i]?).map fun entry => part.set i (entry.1, value)
    | .error i => some (part.insertIdx i (key, value))

def remove : Option (SortedPart K V × Option V) :=
  match position part key with
  | .ok i => (part[i]?).map fun entry => (part.eraseIdx i, some entry.2)
  | .error _ => some (part, none)

/-- The value under a key, changed in place. -/
def change (f : V → V) : Option (SortedPart K V × Option V) :=
  match position part key with
  | .ok i => (part[i]?).map fun entry => (part.set i (entry.1, f entry.2), some entry.2)
  | .error _ => some (part, none)

/-- The entries below a key, and those from it on. -/
def splitOff : SortedPart K V × SortedPart K V :=
  let pos := partitionPoint (fun entry => decide (entry.1 < key)) part
  (part.take pos, part.drop pos)

/-- The entries within bounds. -/
def range (lower upper : Bound K) : SortedPart K V :=
  let start := match lower with
    | .included l => partitionPoint (fun entry => decide (entry.1 < l)) part
    | .excluded l => partitionPoint (fun entry => decide (entry.1 ≤ l)) part
    | .unbounded => 0
  let stop := match upper with
    | .included u => partitionPoint (fun entry => decide (entry.1 ≤ u)) part
    | .excluded u => partitionPoint (fun entry => decide (entry.1 < u)) part
    | .unbounded => part.length
  (part.take (max stop start)).drop start

end SortedPart

/-! ### Slots -/

/-- Index of the last slot whose smallest key is at most `key`, or 0 when `key` precedes them
all: the slot that holds, or would receive, `key`. -/
def slotFor (slots : List (K × X)) (key : K) : ℕ :=
  partitionPoint (fun slot => decide (slot.1 ≤ key)) slots - 1

/-- Fold the undersized slot at `pos` into a neighbour when the two fit. -/
def mergeSlot (slots : List (K × List X)) (pos fit : ℕ) : Option (List (K × List X)) := do
  let small := (← slots[pos]?).2.length
  let target :=
    if (slots[pos + 1]?).any (fun next => decide (small + next.2.length ≤ fit)) then some pos
    else if 0 < pos ∧ (slots[pos - 1]?).any (fun prev => decide (small + prev.2.length ≤ fit)) then
      some (pos - 1)
    else none
  match target with
  | none => some slots
  | some target => do
    let next ← slots[target + 1]?
    let slots := slots.eraseIdx (target + 1)
    let kept ← slots[target]?
    some (slots.set target (kept.1, kept.2 ++ next.2))

/-- Slots after a removal from the one at `pos`, which now holds `rest`: it goes, or is
merged, and the smallest key of the slot at `key` is read anew. -/
def afterRemove (slots : List (K × List (K × X))) (pos : ℕ) (rest : List (K × X)) (least fit : ℕ)
    (key : K) : Option (List (K × List (K × X))) :=
  if rest.isEmpty then some (slots.eraseIdx pos)
  else do
    let slot ← slots[pos]?
    let slots := slots.set pos (slot.1, rest)
    let slots ← (if rest.length < least then mergeSlot slots pos fit else some slots)
    let slot ← slots[slotFor slots key]?
    let first ← slot.2.head?
    some (slots.set (slotFor slots key) (first.1, slot.2))

/-! ### Maps -/

namespace CowOrdMap

variable (PART : ℕ) (m : CowOrdMap K V) (key : K)

def empty : CowOrdMap K V := ⟨[], 0⟩

/-- Group and partition that hold, or would hold, a key. -/
def locate : Option (ℕ × ℕ) := do
  let g := slotFor m.groups key
  let group ← m.groups[g]?
  some (g, slotFor group.2 key)

/-- The partition of a place. -/
def partAt (place : ℕ × ℕ) : Option (K × SortedPart K V) := do
  let group ← m.groups[place.1]?
  group.2[place.2]?

def get : Option (Option V) :=
  if m.groups.isEmpty then some none
  else do
    let part ← m.partAt (← m.locate key)
    SortedPart.get part.2 key

/-- Change the value under a key, if there is one. -/
def getMut (f : V → V) : Option (CowOrdMap K V × Option V) := do
  match ← m.get key with
  | none => some (m, none)
  | some _ => do
    let (g, p) ← m.locate key
    let group ← m.groups[g]?
    let part ← group.2[p]?
    let (entries, old) ← SortedPart.change part.2 key f
    some (⟨m.groups.set g (group.1, group.2.set p (part.1, entries)), m.len⟩, old)

/-- Insert a key that is not there. -/
def insertNew (value : V) : Option (CowOrdMap K V) :=
  if m.groups.isEmpty then some ⟨[(key, [(key, [(key, value)])])], m.len + 1⟩
  else do
    let g := slotFor m.groups key
    let group ← m.groups[g]?
    -- A new smallest key becomes the minimum at every level.
    let lowest := decide (key < group.1)
    let p := slotFor group.2 key
    let part ← group.2[p]?
    -- An append past the last key opens a new partition instead of splitting the full one.
    let append := decide (g + 1 = m.groups.length ∧ p + 1 = group.2.length) &&
      part.2.getLast?.any fun last => decide (last.1 < key)
    let entries ← SortedPart.insert part.2 key value
    let groupMin := if lowest then key else group.1
    let partMin := if lowest then key else part.1
    if entries.length ≤ PART then
      some ⟨m.groups.set g (groupMin, group.2.set p (partMin, entries)), m.len + 1⟩
    else do
      let parts ← splitPart group.2 p partMin entries append
      let groups ← splitGroup m.groups g groupMin parts append
      some ⟨groups, m.len + 1⟩
where
  /-- The key of the middle entry, or the new one. -/
  splitKey (part : SortedPart K V) (append : Bool) : Option K :=
    if append then some key else (part[part.length / 2]?).map Prod.fst
  splitPart (group : Group K V) (p : ℕ) (partMin : K) (part : SortedPart K V) (append : Bool) :
      Option (Group K V) := do
    let splitAt ← splitKey part append
    let (lower, upper) := SortedPart.splitOff part splitAt
    some ((group.set p (partMin, lower)).insertIdx (p + 1) (splitAt, upper))
  /-- Where the group has more partitions than fit. -/
  splitGroup (root : Root K V) (g : ℕ) (groupMin : K) (group : Group K V) (append : Bool) :
      Option (Root K V) :=
    if GROUP_MAX < group.length then do
      let pos := if append then group.length - 1 else group.length / 2
      let first ← (group.drop pos).head?
      some ((root.set g (groupMin, group.take pos)).insertIdx (g + 1) (first.1, group.drop pos))
    else some (root.set g (groupMin, group))

/-- The value under a key, inserting `make` first if absent, and then changed. -/
def getOrInsertWith (make : V) (f : V → V) : Option (CowOrdMap K V × Option V) := do
  match ← m.get key with
  | none => (← m.insertNew PART key make).getMut key f
  | some _ => m.getMut key f

/-- Update the value under a key, or insert `make` if absent. -/
def upsert (make : V) (update : V → V) : Option (CowOrdMap K V) := do
  match ← m.get key with
  | some _ => some (← m.getMut key update).1
  | none => m.insertNew PART key make

/-- Remove a key; the value it had. -/
def remove : Option (CowOrdMap K V × Option V) := do
  match ← m.get key with
  | none => some (m, none)
  | some _ => do
    let (g, p) ← m.locate key
    let group ← m.groups[g]?
    let part ← group.2[p]?
    let (entries, removed) ← SortedPart.remove part.2 key
    let parts ← afterRemove group.2 p entries (PART / 4) (PART * 3 / 4) key
    let groups ← afterRemove m.groups g parts GROUP_MIN (GROUP_MAX * 3 / 4) key
    some (⟨groups, m.len - 1⟩, removed)

/-! ### Ascending entries -/

/-- A map in the making: the groups closed, the open group, the open partition. -/
structure Building (K V : Type) where
  groups : Root K V
  group : Group K V
  part : SortedPart K V
  len : ℕ

namespace Building

variable (b : Building K V)

def closePart : Option (Building K V) := do
  let first ← b.part.head?
  some { b with group := b.group ++ [(first.1, b.part)], part := [] }

def closeGroup : Option (Building K V) := do
  let first ← b.group.head?
  some { b with groups := b.groups ++ [(first.1, b.group)], group := [] }

/-- Close the partition when it is full, and then the group. -/
def makeRoom : Option (Building K V) :=
  if b.part.length = PART then do
    let b ← b.closePart
    if b.group.length = GROUP_MAX then b.closeGroup else some b
  else some b

def push (entry : K × V) : Option (Building K V) := do
  let b ← b.makeRoom PART
  some { b with part := b.part ++ [entry], len := b.len + 1 }

def pushAll (entries : List (K × V)) (b : Building K V) : Option (Building K V) :=
  match entries with
  | [] => some b
  | entry :: entries => do pushAll entries (← b.push PART entry)

end Building

/-- A map of entries whose keys ascend: full partitions in full groups. -/
def fromSorted (entries : List (K × V)) : Option (CowOrdMap K V) := do
  let b ← Building.pushAll PART entries ⟨[], [], [], 0⟩
  let b ← (if b.part.isEmpty then some b else b.closePart)
  let b ← (if b.group.isEmpty then some b else b.closeGroup)
  some ⟨b.groups, b.len⟩

/-! ### Ordered reads -/

def iter : List (K × V) := m.groups.flatMap fun group => group.2.flatMap Prod.snd

/-- The entry with the greatest key at most `key`. -/
def floor : Option (Option (K × V)) :=
  if m.groups.isEmpty then some none
  else do
    let part ← m.partAt (← m.locate key)
    let pos := partitionPoint (fun entry => decide (entry.1 ≤ key)) part.2
    if pos = 0 then some none else (part.2[pos - 1]?).map some

/-- Whether no key can be within bounds. -/
def inverted (lower upper : Bound K) : Bool :=
  match lower, upper with
  | .included l, .included u => decide (u < l)
  | .included l, .excluded u => decide (u ≤ l)
  | .excluded l, .included u => decide (u ≤ l)
  | .excluded l, .excluded u => decide (u ≤ l)
  | _, _ => false

/-- Where a lower bound would be. -/
def firstPlace : Bound K → Option (ℕ × ℕ)
  | .included k => m.locate k
  | .excluded k => m.locate k
  | .unbounded => some (0, 0)

/-- Where an upper bound would be. -/
def lastPlace : Bound K → Option (ℕ × ℕ)
  | .included k => m.locate k
  | .excluded k => m.locate k
  | .unbounded => do
    let group ← m.groups[m.groups.length - 1]?
    some (m.groups.length - 1, group.2.length - 1)

/-- The first and the last place a range touches. -/
def span (lower upper : Bound K) : Option (Option ((ℕ × ℕ) × (ℕ × ℕ))) :=
  if inverted lower upper || m.groups.isEmpty then some none
  else do
    let first ← m.firstPlace lower
    let last ← m.lastPlace upper
    let within := decide (first.1 < last.1) || decide (first.1 = last.1 ∧ first.2 ≤ last.2)
    some (if within then some (first, last) else none)

/-- The partitions of a group from one to another; a slice the wrong way round panics. -/
def slice (group : Group K V) (start stop : ℕ) : Option (Group K V) :=
  if start ≤ stop + 1 ∧ stop < group.length then some ((group.take (stop + 1)).drop start) else none

/-- Entries with keys between bounds, in key order. -/
def range (lower upper : Bound K) : Option (List (K × V)) := do
  match ← m.span lower upper with
  | none => some []
  | some (first, last) => do
    let parts ← (List.range' first.1 (last.1 + 1 - first.1)).mapM fun g => do
      let group := (← m.groups[g]?).2
      let start := if g = first.1 then first.2 else 0
      let stop := if g = last.1 then last.2 else group.length - 1
      slice group start stop
    some (parts.flatten.flatMap fun part => SortedPart.range part.2 lower upper)

end CowOrdMap

end OrdMap

end LoraDb
