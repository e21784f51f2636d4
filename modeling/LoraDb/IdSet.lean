import LoraDb.Handles
import LoraDb.IdLayout
import LoraDb.SortedRuns

/-!
# Posting Sets

The entity ids that share one value: one id in a tagged word, a sorted vector, or groups of
sorted chunks. Chunks are shared between clones and copied before they are written, so a set is
its value.

## Main definitions

* `Unpacked.insert`, `Unpacked.remove`: the writes, through all three forms.
* `IdSet`: a set in one word, or behind a pointer.
* `IdSetIter`: the iterator, from either end.
-/

open List SortedRuns

namespace LoraDb

namespace Posting

open StrIndex (View locate)

/-- Largest set kept as a sorted vector. -/
def SMALL_MAX : ℕ := 64

/-- Target ids per chunk. -/
def CHUNK : ℕ := 512

/-- A chunk that grows past this splits in half. -/
def CHUNK_MAX : ℕ := 2 * CHUNK

/-- A chunk that shrinks below this merges into a neighbour when the two fit in one chunk. -/
def CHUNK_MIN : ℕ := CHUNK / 8

/-- Target chunks per group. -/
def GROUP : ℕ := 64

/-- A group that grows past this splits in half. -/
def GROUP_MAX : ℕ := 2 * GROUP

/-- A group that shrinks below this merges into a neighbour when the two fit in one group. -/
def GROUP_MIN : ℕ := GROUP / 4

/-- Non-empty groups of non-empty sorted chunks, and the count of all ids. -/
structure Large where
  groups : List (List (List ℕ))
  len : ℕ

/-- A set taken apart. -/
inductive Unpacked
  | one (id : ℕ)
  | small (ids : List ℕ)
  | large (l : Large)

def binarySearch (ids : List ℕ) (id : ℕ) : Except ℕ ℕ := search (fun x => x) id ids

/-- Fold the small entry at `pos` into a neighbour when the two fit. -/
def mergeSmall {T : Type} (table : List (List T)) (pos fit : ℕ) : Option (List (List T)) := do
  let small := (← table[pos]?).length
  let target :=
    if (table[pos + 1]?).any (fun next => decide (small + next.length ≤ fit)) then some pos
    else if 0 < pos ∧ (table[pos - 1]?).any (fun prev => decide (small + prev.length ≤ fit)) then
      some (pos - 1)
    else none
  match target with
  | none => some table
  | some target => do
    let next ← table[target + 1]?
    let table := table.eraseIdx (target + 1)
    let kept ← table[target]?
    some (table.set target (kept ++ next))

namespace Large

/-- An insertion at the place of the id. -/
def insertAt (l : Large) (id : ℕ) : Option (Large × Bool) := do
  let (g, c) := locate l.groups id
  let group ← l.groups[g]?
  let chunk ← group[c]?
  match binarySearch chunk id with
  | .ok _ => some (l, false)
  | .error pos =>
    let chunk := chunk.insertIdx pos id
    if CHUNK_MAX < chunk.length then
      let half := chunk.length / 2
      let group := (group.set c (chunk.take half)).insertIdx (c + 1) (chunk.drop half)
      if GROUP_MAX < group.length then
        let half := group.length / 2
        some (⟨(l.groups.set g (group.take half)).insertIdx (g + 1) (group.drop half),
          l.len + 1⟩, true)
      else some (⟨l.groups.set g group, l.len + 1⟩, true)
    else some (⟨l.groups.set g (group.set c chunk), l.len + 1⟩, true)

/-- Whether the id is new. -/
def insert (l : Large) (id : ℕ) : Option (Large × Bool) := do
  let last ← l.groups.getLast?
  let tail ← last.getLast?
  let greatest ← tail.getLast?
  if greatest < id then
    -- Append: fill the last chunk, then open a new one, and a new group once the last is full.
    if tail.length < CHUNK then
      some (⟨l.groups.dropLast ++ [last.dropLast ++ [tail ++ [id]]], l.len + 1⟩, true)
    else if last.length < GROUP then
      some (⟨l.groups.dropLast ++ [last ++ [[id]]], l.len + 1⟩, true)
    else some (⟨l.groups ++ [[[id]]], l.len + 1⟩, true)
  else l.insertAt id

/-- A table after a removal from its entry `pos`, which is now `entry`. -/
def afterRemove {T : Type} (table : List (List T)) (pos : ℕ) (entry : List T) (min fit : ℕ) :
    Option (List (List T)) :=
  if entry.isEmpty then some (table.eraseIdx pos)
  else if entry.length < min then mergeSmall (table.set pos entry) pos fit
  else some (table.set pos entry)

/-- Whether the set is now empty. -/
def remove (l : Large) (id : ℕ) : Option (Large × Bool) := do
  let (g, c) := locate l.groups id
  let group ← l.groups[g]?
  let chunk ← group[c]?
  match binarySearch chunk id with
  | .error _ => some (l, false)
  | .ok pos => do
    let group ← afterRemove group c (chunk.eraseIdx pos) CHUNK_MIN CHUNK
    let groups ← afterRemove l.groups g group GROUP_MIN GROUP
    some (⟨groups, l.len - 1⟩, l.len - 1 == 0)

end Large

namespace Unpacked

/-- Insert an id; whether it is new. -/
def insert (id : ℕ) : Unpacked → Option (Unpacked × Bool)
  | .one existing =>
    if existing = id then some (.one existing, false)
    else some (.small (if existing < id then [existing, id] else [id, existing]), true)
  | .small ids =>
    if ids.getLast?.any (fun last => decide (last < id)) then some (grown (ids ++ [id]), true)
    else
      match binarySearch ids id with
      | .ok _ => some (.small ids, false)
      | .error pos => some (grown (ids.insertIdx pos id), true)
  | .large l => (l.insert id).map fun out => (.large out.1, out.2)
where
  grown (ids : List ℕ) : Unpacked :=
    if SMALL_MAX < ids.length then .large ⟨[[ids]], ids.length⟩ else .small ids

/-- Remove an id; whether the set is now empty, for the caller to drop. -/
def remove (id : ℕ) : Unpacked → Option (Unpacked × Bool)
  | .one existing => some (.one existing, existing == id)
  | .small ids =>
    let ids := match binarySearch ids id with
      | .ok pos => ids.eraseIdx pos
      | .error _ => ids
    some (left ids, ids.isEmpty)
  | .large l => (l.remove id).map fun out => (.large out.1, out.2)
where
  left : List ℕ → Unpacked
    | [only] => .one only
    | ids => .small ids

/-- The layout that is read in place. -/
def view : Unpacked → View
  | .one id => .one id
  | .small ids => .small ids
  | .large l => .large l.groups

def len : Unpacked → ℕ
  | .one _ => 1
  | .small ids => ids.length
  | .large l => l.len

end Unpacked

/-! ### In one word -/

/-- A set in one word of 64 bits: an id shifted left with the low bit set, or a pointer. -/
inductive IdSet
  | inline (word : ℕ)
  | vector (ids : List ℕ)
  | shared (l : Large)

/-- Largest id kept inline. -/
def INLINE_MAX : ℕ := (2 ^ 64 - 1) >>> 1

namespace IdSet

def pack : Unpacked → IdSet
  | .one id => if id ≤ INLINE_MAX then .inline ((id <<< 1) % 2 ^ 64 ||| 1) else .vector [id]
  | .small ids => .vector ids
  | .large l => .shared l

def unpack : IdSet → Unpacked
  | .inline word => .one (word >>> 1)
  | .vector ids => .small ids
  | .shared l => .large l

def new (id : ℕ) : IdSet := pack (.one id)

/-- Change a set through its unpacked form. -/
def update {R : Type} (s : IdSet) (change : Unpacked → Option (Unpacked × R)) :
    Option (IdSet × R) :=
  (change s.unpack).map fun out => (pack out.1, out.2)

def insert (s : IdSet) (id : ℕ) : Option (IdSet × Bool) := s.update (Unpacked.insert id)

def remove (s : IdSet) (id : ℕ) : Option (IdSet × Bool) := s.update (Unpacked.remove id)

def len (s : IdSet) : ℕ := s.unpack.len

end IdSet

/-! ### The iterator -/

/-- Ascending from the front, descending from the back. Each end opens a group, then a chunk;
once the groups run out it takes over what the other end opened. -/
structure IdSetIter where
  groups : List (List (List ℕ))
  frontChunks : List (List ℕ)
  backChunks : List (List ℕ)
  front : List ℕ
  back : List ℕ
  one : Option ℕ
  remaining : ℕ

namespace IdSetIter

def ofSlice (ids : List ℕ) : IdSetIter := ⟨[], [], [], ids, [], none, ids.length⟩

def ofOne (id : ℕ) : IdSetIter := { ofSlice [] with one := some id, remaining := 1 }

def ofGroups (groups : List (List (List ℕ))) (len : ℕ) : IdSetIter :=
  ⟨groups, [], [], [], [], none, len⟩

/-- What is not yet opened, for the loops below to end. -/
def unopened (it : IdSetIter) : ℕ :=
  (it.groups.map fun group => group.length + 1).sum + it.frontChunks.length + it.backChunks.length

/-- The next id from the front. -/
def next (it : IdSetIter) : Option ℕ × IdSetIter :=
  match it.front with
  | id :: front => (some id, { it with front := front, remaining := it.remaining - 1 })
  | [] =>
    match hchunks : it.frontChunks with
    | chunk :: chunks => next { it with front := chunk, frontChunks := chunks }
    | [] =>
      match hgroups : it.groups with
      | group :: groups => next { it with frontChunks := group, groups := groups }
      | [] =>
        match hback : it.backChunks with
        | chunk :: chunks => next { it with front := chunk, backChunks := chunks }
        | [] =>
          match it.back with
          | id :: back => (some id, { it with back := back, remaining := it.remaining - 1 })
          | [] =>
            match it.one with
            | some id => (some id, { it with one := none, remaining := it.remaining - 1 })
            | none => (none, it)
termination_by it.unopened
decreasing_by
  · simp only [unopened, hchunks, length_cons]
    omega
  · simp only [unopened, hchunks, hgroups, map_cons, sum_cons, length_nil]
    omega
  · simp only [unopened, hback, length_cons]
    omega

/-- The next id from the back. -/
def nextBack (it : IdSetIter) : Option ℕ × IdSetIter :=
  match it.back.getLast? with
  | some id => (some id, { it with back := it.back.dropLast, remaining := it.remaining - 1 })
  | none =>
    match hchunks : it.backChunks.getLast? with
    | some chunk => nextBack { it with back := chunk, backChunks := it.backChunks.dropLast }
    | none =>
      match hgroups : it.groups.getLast? with
      | some group => nextBack { it with backChunks := group, groups := it.groups.dropLast }
      | none =>
        match hfront : it.frontChunks.getLast? with
        | some chunk => nextBack { it with back := chunk, frontChunks := it.frontChunks.dropLast }
        | none =>
          match it.front.getLast? with
          | some id =>
            (some id, { it with front := it.front.dropLast, remaining := it.remaining - 1 })
          | none =>
            match it.one with
            | some id => (some id, { it with one := none, remaining := it.remaining - 1 })
            | none => (none, it)
termination_by it.unopened
decreasing_by
  · have hlen := congrArg length (dropLast_append_getLast? chunk hchunks)
    rw [length_append, length_singleton] at hlen
    simp only [unopened]
    omega
  · have hnone : it.backChunks = [] := getLast?_eq_none_iff.mp hchunks
    have hsum := congrArg (fun groups => (groups.map fun group => length group + 1).sum)
      (dropLast_append_getLast? group hgroups)
    simp only [map_append, map_cons, map_nil, sum_append, sum_cons, sum_nil] at hsum
    simp only [unopened, hnone, length_nil]
    omega
  · have hlen := congrArg length (dropLast_append_getLast? chunk hfront)
    rw [length_append, length_singleton] at hlen
    simp only [unopened]
    omega

/-- A call from either end, the back for `true`. -/
def pull (it : IdSetIter) (descending : Bool) : Option ℕ × IdSetIter :=
  if descending then it.nextBack else it.next

/-- The answers to calls from either end, in their order. -/
def pulls (it : IdSetIter) : List Bool → List (Option ℕ)
  | [] => []
  | descending :: ds => (it.pull descending).1 :: pulls (it.pull descending).2 ds

end IdSetIter

def Unpacked.iter : Unpacked → IdSetIter
  | .one id => .ofOne id
  | .small ids => .ofSlice ids
  | .large l => .ofGroups l.groups l.len

namespace IdSet

variable (s : IdSet)

def iter : IdSetIter := s.unpack.iter

def toVec : List ℕ := s.unpack.view.ids

/-- The ids strictly after a cursor, in the direction given. -/
def iterAfter (cursor : Option ℕ) (descending : Bool) : List ℕ :=
  s.unpack.view.iterAfter cursor descending

end IdSet

end Posting

end LoraDb
