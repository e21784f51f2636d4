import LoraDb.Handles

/-!
# Hash Tries that Copy on Write

A hash map as a trie of small hash tables. A route, a hash of the key, leads through the
branches field by field from its top bits; a full leaf splits into a branch, and a branch with
few entries left folds into a leaf. Nodes are shared between clones and copied before they are
written, so a map is its value.

## Main definitions

* `CowMap.get`, `CowMap.write`, `CowMap.remove`: the operations.
* `CowMap.withShape`: an empty map, shaped for the routes to come.
* `CowMap.fromSlots`: a map of parts that were built apart.
-/

open List

namespace LoraDb

namespace HashTrie

variable {K V ρ : Type} [DecidableEq K]

/-- Hash bits consumed per level. -/
def BITS : ℕ := 5

/-- Children per branch. -/
def FAN : ℕ := 2 ^ BITS

/-- Deepest level that still splits. -/
def MAX_DEPTH : ℕ := 64 / BITS - 1

/-- A leaf's hash table. Its order is its own; nothing depends on it. -/
abbrev LeafMap (K V : Type) := AList fun _ : K => V

abbrev Entry (K V : Type) := Sigma fun _ : K => V

/-- The child slot a route takes at a depth: successive fields from the top. Past the last field
the shift underflows. -/
def slot (route : UInt64) (depth : ℕ) : Option (Fin FAN) :=
  if BITS * (depth + 1) ≤ 64 then
    some ⟨route.toNat >>> (64 - BITS * (depth + 1)) &&& (FAN - 1),
      Nat.and_lt_two_pow _ (Nat.sub_lt (Nat.two_pow_pos BITS) Nat.one_pos)⟩
  else none

inductive Node (K V : Type)
  | empty
  | leaf (map : LeafMap K V)
  | branch (kids : Fin FAN → Node K V)

namespace Node

def iter : Node K V → List (Entry K V)
  | .empty => []
  | .leaf map => map.entries
  | .branch kids => (finRange FAN).flatMap fun s => iter (kids s)

def count : Node K V → ℕ
  | .empty => 0
  | .leaf map => map.entries.length
  | .branch kids => ((finRange FAN).map fun s => count (kids s)).sum

/-- A leaf, or nothing where its table is empty. -/
def ofMap (map : LeafMap K V) : Node K V :=
  if map.entries.isEmpty then .empty else .leaf map

/-- Put entries into a table one by one. -/
def extend (out : LeafMap K V) (es : List (Entry K V)) : LeafMap K V :=
  es.foldl (fun out e => out.insert e.1 e.2) out

def drainInto : Node K V → LeafMap K V → LeafMap K V
  | .empty, out => out
  | .leaf map, out => extend out map.entries
  | .branch kids, out => (finRange FAN).foldl (fun out s => drainInto (kids s) out) out

/-- Entries under a branch when every child is a leaf or empty. -/
def leafTotal (kids : Fin FAN → Node K V) : Option ℕ :=
  (finRange FAN).foldlM (fun total s =>
    match kids s with
    | .empty => some total
    | .leaf map => some (total + map.entries.length)
    | .branch _ => none) 0

variable (LEAF : ℕ) (route : K → UInt64) (key : K)

/-- Put an entry into the table of its slot. -/
def deal (depth : ℕ) (maps : Fin FAN → LeafMap K V) (e : Entry K V) :
    Option (Fin FAN → LeafMap K V) := do
  let s ← slot (route e.1) depth
  some (Function.update maps s ((maps s).insert e.1 e.2))

/-- A full leaf, redistributed over a branch's children. -/
def split (map : LeafMap K V) (depth : ℕ) : Option (Node K V) := do
  let maps ← map.entries.foldlM (deal route depth) fun _ => ∅
  some (.branch fun s => ofMap (maps s))

def lookupRouted (r : UInt64) : Node K V → ℕ → Option (Option V)
  | .empty, _ => some none
  | .leaf map, _ => some (map.lookup key)
  | .branch kids, depth => (slot r depth).bind fun s => lookupRouted r (kids s) (depth + 1)

/-- Change the value under a key, if there is one. -/
def changeIn (change : V → V) (map : LeafMap K V) : LeafMap K V :=
  match map.lookup key with
  | none => map
  | some v => map.insert key (change v)

def getMutRouted (r : UInt64) (change : V → V) : Node K V → ℕ → Option (Node K V × Option V)
  | .empty, _ => some (.empty, none)
  | .leaf map, _ => some (.leaf (changeIn key change map), map.lookup key)
  | .branch kids, depth => do
    let s ← slot r depth
    let out ← getMutRouted r change (kids s) (depth + 1)
    some (.branch (Function.update kids s out.1), out.2)

/-- Split a leaf that is full of other keys, where the depth still has a field for it. -/
def grow (depth : ℕ) : Node K V → Option (Node K V)
  | .leaf map =>
    if depth ≤ MAX_DEPTH ∧ LEAF ≤ map.entries.length ∧ (map.lookup key).isNone = true then
      split route map depth
    else some (.leaf map)
  | node => some node

/-- Walk to the leaf of a key, splitting full leaves and making the leaf where there is none, and
there do `f`. `fuel` bounds the turns of the loop. -/
def entry (f : LeafMap K V → LeafMap K V × ρ) : ℕ → Node K V → ℕ → Option (Node K V × ρ)
  | 0, _, _ => none
  | fuel + 1, node, depth => do
    match ← grow LEAF route key depth node with
    | .empty => entry f fuel (.leaf ∅) depth
    | .leaf map => some (.leaf (f map).1, (f map).2)
    | .branch kids => do
      let s ← slot (route key) depth
      let out ← entry f fuel (kids s) (depth + 1)
      some (.branch (Function.update kids s out.1), out.2)

/-- A branch one of whose leaves has `left` entries left: folded into one leaf when its
children are leaves that hold few entries together. -/
def folded (kids : Fin FAN → Node K V) (left : ℕ) : Node K V :=
  if left ≤ LEAF / 4 / FAN ∧ (leafTotal kids).any (fun total => decide (total < LEAF / 4)) = true
  then ofMap (drainInto (.branch kids) ∅)
  else .branch kids

def removeAt : Node K V → ℕ → Option (Node K V × Option V)
  | .empty, depth => (slot (route key) depth).map fun _ => (.empty, none)
  | .leaf map, depth =>
    (slot (route key) depth).map fun _ => (.leaf (map.erase key), map.lookup key)
  | .branch kids, depth => do
    let s ← slot (route key) depth
    match kids s with
    | .leaf map =>
      let rest := map.erase key
      some (folded LEAF (Function.update kids s (ofMap rest)) rest.entries.length, map.lookup key)
    | _ => do
      let out ← removeAt (kids s) (depth + 1)
      some (.branch (Function.update kids s out.1), out.2)

/-- The runs of sorted routes that take each of the slots in turn. -/
def cuts (depth : ℕ) : List (Fin FAN) → List UInt64 → List (List UInt64)
  | [], _ => []
  | s :: ss, rest =>
    let mine := rest.takeWhile fun r => decide (slot r depth = some s)
    mine :: cuts depth ss (rest.drop mine.length)

/-- An empty subtree for sorted distinct routes that share their fields above a depth. -/
def shape : ℕ → List UInt64 → ℕ → Option (Node K V)
  | 0, _, _ => none
  | fuel + 1, routes, depth =>
    if routes.isEmpty then some .empty
    else if MAX_DEPTH < depth ∨ routes.length ≤ LEAF then some (.leaf ∅)
    else do
      let kids ← (cuts depth (finRange FAN) routes).mapM fun mine => shape fuel mine (depth + 1)
      some (.branch fun s => kids.getD s .empty)

end Node

structure CowMap (K V : Type) where
  root : Node K V
  len : ℕ

namespace CowMap

variable (LEAF : ℕ) (route : K → UInt64) (m : CowMap K V) (key : K)

def empty : CowMap K V := ⟨.empty, 0⟩

def iter : List (Entry K V) := m.root.iter

def get : Option (Option V) := m.root.lookupRouted key (route key) 0

/-- Change the value under a key, if there is one; a miss copies nothing. -/
def getMut (change : V → V) : Option (CowMap K V × Option V) := do
  match ← m.get route key with
  | none => some (m, none)
  | some _ => do
    let out ← m.root.getMutRouted key (route key) change 0
    some (⟨out.1, m.len⟩, out.2)

/-- Write an entry by what was there; two turns of the walk at each depth are enough. -/
def write (edit : Option V → V) : Option (CowMap K V × Option V) := do
  let out ← m.root.entry LEAF route key
    (fun map => (map.insert key (edit (map.lookup key)), map.lookup key)) (2 * (MAX_DEPTH + 2)) 0
  some (⟨out.1, if out.2.isNone then m.len + 1 else m.len⟩, out.2)

/-- The value under a key, inserting `make` first if absent, and then changed. -/
def getOrInsertWith (make : V) (change : V → V) : Option (CowMap K V × Option V) :=
  m.write LEAF route key fun old => change (old.getD make)

/-- Update the value under a key, or insert `make` if absent. -/
def upsert (make : V) (update : V → V) : Option (CowMap K V × Option V) :=
  m.write LEAF route key fun old => old.elim make update

def insert (value : V) : Option (CowMap K V × Option V) :=
  m.write LEAF route key fun _ => value

/-- Remove a key; the value it had. -/
def remove : Option (CowMap K V × Option V) := do
  match ← m.get route key with
  | none => some (m, none)
  | some _ =>
    if m.len - 1 = 0 then some (.empty, (m.root.drainInto ∅).lookup key)
    else do
      let out ← m.root.removeAt LEAF route key 0
      some (⟨out.1, m.len - 1⟩, out.2)

/-- An empty map shaped for the keys whose routes are given. -/
def withShape (routes : List UInt64) : Option (CowMap K V) := do
  let root ← Node.shape LEAF (MAX_DEPTH + 2) (routes.mergeSort).dedup 0
  some ⟨root, 0⟩

/-! ### Parts -/

/-- A map in the making: its root's children, their entries, and the entries of other slots. -/
structure Grafting (K V : Type) where
  kids : Fin FAN → Node K V
  len : ℕ
  strays : LeafMap K V

namespace Grafting

/-- Deal an entry of a part to the slot the part is for, or to the strays. -/
def sortOut (s : Fin FAN) (acc : LeafMap K V × LeafMap K V) (e : Entry K V) :
    Option (LeafMap K V × LeafMap K V) := do
  let top ← slot (route e.1) 0
  some (if top = s then (acc.1.insert e.1 e.2, acc.2) else (acc.1, acc.2.insert e.1 e.2))

/-- A child of a part's branch: grafted where it is of the part's slot, and drained elsewhere. -/
def graftKid (s : Fin FAN) (kids : Fin FAN → Node K V) (g : Grafting K V) (i : Fin FAN) :
    Grafting K V :=
  if i = s then ⟨Function.update g.kids s (kids i), g.len + (kids i).count, g.strays⟩
  else { g with strays := (kids i).drainInto g.strays }

/-- Graft a part as the root's child of its slot. -/
def graft (g : Grafting K V) (s : Fin FAN) (part : CowMap K V) : Option (Grafting K V) :=
  match part.root with
  | .empty => some g
  | .leaf map => do
    let dealt ← map.entries.foldlM (sortOut route s) (∅, g.strays)
    if dealt.1.entries.isEmpty then some { g with strays := dealt.2 }
    else some ⟨Function.update g.kids s (.leaf dealt.1), g.len + dealt.1.entries.length, dealt.2⟩
  | .branch kids => some ((finRange FAN).foldl (graftKid s kids) g)

end Grafting

/-- A map of the entries of parts, each grafted as the root's child for its slot. A part's keys
of another slot are inserted one by one. -/
def fromSlots (parts : List (Fin FAN × CowMap K V)) : Option (CowMap K V) := do
  let g ← parts.foldlM (fun g part => g.graft route part.1 part.2)
    (⟨fun _ => .empty, 0, ∅⟩ : Grafting K V)
  -- As small a map as one leaf holds is one leaf.
  let root := if g.len ≤ LEAF then Node.ofMap (Node.drainInto (.branch g.kids) ∅)
    else .branch g.kids
  g.strays.entries.foldlM (fun m e => (insert LEAF route m e.1 e.2).map Prod.fst) ⟨root, g.len⟩

end CowMap

end HashTrie

end LoraDb
