import LoraDb.Adjacency
import LoraDb.Slots

/-!
# The In-Memory Graph

Nodes and relationships in slots by identifier, beside what is derived from them: adjacency
lists, the nodes of each label and the relationships of each type, and the number of records
of either kind. Every mutation edits these structures one by one.

A batch delete leaves the edits of long adjacency lists for later: `adjacencyRemove`
notes them down in `PendingAdjRemovals`, and `flushAdjacencyRemovals` makes them.

Records are kept as values here, and their identifiers are numbers without a bound; the
store takes none above `MAX_ENTITY_ID`. Property indexes are left out: they read the graph,
and nothing below reads them.

## Main results

* `list_editAdjacency`, `list_clearAdjacency`: what an edit does to each list.
* `adjacencyRemove_none`: a removal that defers nothing removes the first entry.
-/

open List

namespace LoraDb

/-! ### Records -/

structure NodeRecord where
  id : NodeId
  labels : List String
  properties : PropertyMap
deriving DecidableEq

structure RelationshipRecord where
  id : RelationshipId
  src : NodeId
  dst : NodeId
  relType : String
  properties : PropertyMap
deriving DecidableEq

/-- The endpoint whose list on `side` names the relationship. -/
def RelationshipRecord.endpoint (rel : RelationshipRecord) : Side → NodeId
  | .out => rel.src
  | .into => rel.dst

/-- The endpoint that entry names. -/
def RelationshipRecord.farEnd (rel : RelationshipRecord) : Side → NodeId
  | .out => rel.dst
  | .into => rel.src

/-- A record as a sink for deleted records sees it. -/
inductive DeletedRecord where
  | node (record : NodeRecord)
  | relationship (record : RelationshipRecord)
deriving DecidableEq

/-! ### Names and buckets -/

/-- Names numbered from zero, in first-use order. -/
structure NameDict where
  names : List String
deriving DecidableEq

namespace NameDict

def empty : NameDict := ⟨[]⟩

def idOf (dict : NameDict) (name : String) : Option ℕ := dict.names.idxOf? name

/-- The number of `name`, assigning the next one on first use. -/
def idOrInsert (dict : NameDict) (name : String) : NameDict × ℕ :=
  match dict.idOf name with
  | some id => (dict, id)
  | none => (⟨dict.names ++ [name]⟩, dict.names.length)

end NameDict

/-- Identifiers by name: the nodes of each label, or the relationships of each type. A name
without identifiers has no bucket. -/
structure IdBuckets where
  entries : List (String × Finset ℕ)
  sorted : SortedMap.Sorted entries
  nonempty : ∀ e ∈ entries, e.2 ≠ ∅
deriving DecidableEq

namespace IdBuckets

def empty : IdBuckets := ⟨[], SortedMap.sorted_nil, by simp⟩

/-- The identifiers under `name`. -/
def ids (buckets : IdBuckets) (name : String) : Finset ℕ :=
  (SortedMap.get? name buckets.entries).getD ∅

def insert (buckets : IdBuckets) (id : ℕ) (name : String) : IdBuckets where
  entries := SortedMap.put name (Insert.insert id (buckets.ids name)) buckets.entries
  sorted := buckets.sorted.put _ _
  nonempty := by
    intro e he
    rcases SortedMap.mem_put he with rfl | he
    · exact Finset.insert_ne_empty _ _
    · exact buckets.nonempty e he

/-- A bucket that is left empty is removed. -/
def remove (buckets : IdBuckets) (id : ℕ) (name : String) : IdBuckets :=
  if h : (buckets.ids name).erase id = ∅ then
    { entries := SortedMap.erase name buckets.entries
      sorted := buckets.sorted.erase _
      nonempty := fun e he => buckets.nonempty e (SortedMap.mem_erase he) }
  else
    { entries := SortedMap.put name ((buckets.ids name).erase id) buckets.entries
      sorted := buckets.sorted.put _ _
      nonempty := by
        intro e he
        rcases SortedMap.mem_put he with rfl | he
        · exact h
        · exact buckets.nonempty e he }

theorem ids_insert (buckets : IdBuckets) (id : ℕ) (name name' : String) :
    (buckets.insert id name).ids name' =
      if name' = name then Insert.insert id (buckets.ids name) else buckets.ids name' := by
  simp only [ids, insert, SortedMap.get?_put]
  split <;> rfl

theorem ids_remove (buckets : IdBuckets) (id : ℕ) (name name' : String) :
    (buckets.remove id name).ids name' =
      if name' = name then (buckets.ids name).erase id else buckets.ids name' := by
  unfold remove
  split
  next h =>
    rw [ids, buckets.sorted.get?_erase]
    split
    · rw [h, Option.getD_none]
    · rfl
  next h =>
    rw [ids, SortedMap.get?_put]
    split
    · rfl
    · rfl

end IdBuckets

/-! ### The graph -/

/-- The largest identifier the store accepts. -/
def MAX_ENTITY_ID : ℕ := 2 ^ 34 - 1

/-- Adjacency entries a batch delete still has to remove. -/
abbrev PendingAdjRemovals := List (NodeId × Side × RelationshipId)

/-- Lists up to this many bytes lose an entry at once even in a batch delete. -/
def DEFER_REMOVAL_MIN_BYTES : ℕ := 256

/-- The graph. `recorder` holds the events an installed recorder received, and `deletedSink`
the records an installed sink saw. -/
@[ext] structure InMemoryGraph where
  nextNodeId : NodeId
  nextRelId : RelationshipId
  nodes : Slots NodeRecord
  relationships : Slots RelationshipRecord
  /-- Numbers the relationship types. -/
  types : NameDict
  liveNodeCount : ℕ
  liveRelCount : ℕ
  adjacency : List Adjacency
  nodesByLabel : IdBuckets
  relationshipsByType : IdBuckets
  recorder : Option (List MutationEvent)
  deletedSink : Option (List DeletedRecord)
deriving DecidableEq

namespace InMemoryGraph

/-- The empty graph, with nobody watching. -/
def new : InMemoryGraph where
  nextNodeId := 0
  nextRelId := 0
  nodes := .empty
  relationships := .empty
  types := .empty
  liveNodeCount := 0
  liveRelCount := 0
  adjacency := []
  nodesByLabel := .empty
  relationshipsByType := .empty
  recorder := none
  deletedSink := none

variable (g : InMemoryGraph)

def emit (event : MutationEvent) : InMemoryGraph :=
  { g with recorder := g.recorder.map (· ++ [event]) }

/-- Show a deleted record to the sink. -/
def sinkDeleted (record : DeletedRecord) : InMemoryGraph :=
  { g with deletedSink := g.deletedSink.map (· ++ [record]) }

/-! ### Slots -/

/-- The node in slot `id`. A record is read under the identifier of its slot. -/
def nodeAt (id : NodeId) : Option NodeRecord := (g.nodes.get id).map ({ · with id })

def hasNodeAt (id : NodeId) : Bool := g.nodes.contains id

def relAt (id : RelationshipId) : Option RelationshipRecord :=
  (g.relationships.get id).map ({ · with id })

def hasRelAt (id : RelationshipId) : Bool := g.relationships.contains id

def slotLenForId (id : ℕ) (kind : String) : Except String ℕ :=
  if MAX_ENTITY_ID < id then
    .error s!"{kind} id {id} is above the largest supported id {MAX_ENTITY_ID}"
  else .ok (id + 1)

/-- Grow the node slots, and with them the adjacency lists, to cover `id`. -/
def ensureNodeSlotChecked (id : NodeId) : Except String InMemoryGraph := do
  let target ← slotLenForId id "node"
  if g.nodes.len < target then
    .ok { g with
      nodes := g.nodes.growTo target
      adjacency := g.adjacency ++ replicate (target - g.adjacency.length) Adjacency.empty }
  else .ok g

def ensureRelSlotChecked (id : RelationshipId) : Except String InMemoryGraph := do
  let target ← slotLenForId id "relationship"
  if g.relationships.len < target then
    .ok { g with relationships := g.relationships.growTo target }
  else .ok g

/-- Move the counter past `id`. An identifier the slots cover has a successor in 64 bits. -/
def bumpNextNodeIdPast (id : NodeId) : InMemoryGraph :=
  { g with nextNodeId := max g.nextNodeId (id + 1) }

def bumpNextRelIdPast (id : RelationshipId) : InMemoryGraph :=
  { g with nextRelId := max g.nextRelId (id + 1) }

def tryReserveNextNodeSlot : Option (InMemoryGraph × NodeId) :=
  match g.ensureNodeSlotChecked g.nextNodeId with
  | .ok g' => some (g'.bumpNextNodeIdPast g.nextNodeId, g.nextNodeId)
  | .error _ => none

def tryReserveNextRelSlot : Option (InMemoryGraph × RelationshipId) :=
  match g.ensureRelSlotChecked g.nextRelId with
  | .ok g' => some (g'.bumpNextRelIdPast g.nextRelId, g.nextRelId)
  | .error _ => none

def putNodeAtSlot (idx : ℕ) (node : NodeRecord) : InMemoryGraph :=
  { g with
    nodes := g.nodes.set idx node
    liveNodeCount := if g.nodes.contains idx then g.liveNodeCount else g.liveNodeCount + 1 }

/-- Storing a relationship numbers its type. -/
def putRelAtSlot (idx : ℕ) (rel : RelationshipRecord) : InMemoryGraph :=
  { g with
    types := (g.types.idOrInsert rel.relType).1
    relationships := g.relationships.set idx rel
    liveRelCount := if g.relationships.contains idx then g.liveRelCount else g.liveRelCount + 1 }

/-! ### Adjacency -/

/-- The list of `node` on `side`. -/
def list (node : NodeId) (side : Side) : List AdjEntry :=
  match g.adjacency[node]? with
  | some adj => adj.side side
  | none => []

/-- Edit one list of one node. -/
def editAdjacency (node : NodeId) (edit : Adjacency → Adjacency) : InMemoryGraph :=
  { g with adjacency := g.adjacency.modify node edit }

def adjacencyPush (node : NodeId) (side : Side) (entry : AdjEntry) : InMemoryGraph :=
  match g.ensureNodeSlotChecked node with
  | .ok g => g.editAdjacency node (·.push side entry)
  | .error _ => g

/-- Drop both lists of a node. -/
def clearAdjacency (node : NodeId) : InMemoryGraph :=
  g.editAdjacency node fun _ => Adjacency.empty

/-- Bytes of one list. -/
def listBytes (node : NodeId) (side : Side) : ℕ :=
  match g.adjacency[node]? with
  | some adj => adj.sideBytes side
  | none => 0

/-- Remove `rel` from one list. With `pending`, a long list is left for the flush. -/
def adjacencyRemove (node : NodeId) (side : Side) (rel : RelationshipId)
    (pending : Option PendingAdjRemovals) : InMemoryGraph × Option PendingAdjRemovals :=
  if g.listBytes node side = 0 then (g, pending)
  else
    match pending with
    | some waiting =>
      if DEFER_REMOVAL_MIN_BYTES < g.listBytes node side then
        (g, some (waiting ++ [(node, side, rel)]))
      else (g.editAdjacency node (·.remove side rel), pending)
    | none => (g.editAdjacency node (·.remove side rel), pending)

/-- The order pending removals are flushed in: by node, leaving before entering, by
relationship. -/
def pendingLE (a b : NodeId × Side × RelationshipId) : Bool :=
  a.1 < b.1 ∨ a.1 = b.1 ∧ (a.2.1 = .out ∧ b.2.1 = .into ∨ a.2.1 = b.2.1 ∧ a.2.2 ≤ b.2.2)

/-- Make the removals of one group, all from the same list. -/
def flushGroup (group : PendingAdjRemovals) : InMemoryGraph :=
  match group with
  | [] => g
  | (node, side, _) :: _ =>
    if g.listBytes node side = 0 then g
    else g.editAdjacency node (·.removeAll side (group.map fun entry => entry.2.2))

/-- Make the removals deferred: each list once, keeping the order of its other entries. -/
def flushAdjacencyRemovals (pending : PendingAdjRemovals) : InMemoryGraph :=
  ((pending.mergeSort pendingLE).splitBy fun a b => a.1 == b.1 && a.2.1 == b.2.1).foldl
    flushGroup g

/-! ### Records taken out -/

/-- Take a node out of its slot, and its adjacency lists with it. -/
def takeNode (id : NodeId) : Option (InMemoryGraph × NodeRecord) :=
  match g.nodeAt id with
  | some node =>
    let g := { g with nodes := g.nodes.remove id, liveNodeCount := g.liveNodeCount - 1 }
    some (g.clearAdjacency id, node)
  | none => none

def takeRel (id : RelationshipId) : Option (InMemoryGraph × RelationshipRecord) :=
  match g.relAt id with
  | some rel =>
    some ({ g with
      relationships := g.relationships.remove id
      liveRelCount := g.liveRelCount - 1 }, rel)
  | none => none

/-! ### Labels and types -/

/-- Unicode white space, which trimming removes. -/
def isWhiteSpace (c : Char) : Bool :=
  let n := c.toNat
  (9 ≤ n && n ≤ 13) || n = 0x20 || n = 0x85 || n = 0xA0 || n = 0x1680 ||
    (0x2000 ≤ n && n ≤ 0x200A) || n = 0x2028 || n = 0x2029 || n = 0x202F || n = 0x205F ||
    n = 0x3000

def trim (s : String) : String :=
  String.ofList ((s.toList.dropWhile isWhiteSpace).reverse.dropWhile isWhiteSpace).reverse

/-- Labels trimmed, the empty ones dropped, each once, in first-use order. -/
def normalizeLabels (labels : List String) : List String :=
  labels.foldl (fun out label =>
    if trim label = "" ∨ trim label ∈ out then out else out ++ [trim label]) []

def insertNodeLabelIndex (node : NodeId) (label : String) : InMemoryGraph :=
  { g with nodesByLabel := g.nodesByLabel.insert node label }

def removeNodeLabelIndex (node : NodeId) (label : String) : InMemoryGraph :=
  { g with nodesByLabel := g.nodesByLabel.remove node label }

def insertRelationshipTypeIndex (rel : RelationshipId) (relType : String) : InMemoryGraph :=
  { g with relationshipsByType := g.relationshipsByType.insert rel relType }

def removeRelationshipTypeIndex (rel : RelationshipId) (relType : String) : InMemoryGraph :=
  { g with relationshipsByType := g.relationshipsByType.remove rel relType }

def onNodeCreated (node : NodeRecord) : InMemoryGraph :=
  node.labels.foldl (fun g label => g.insertNodeLabelIndex node.id label) g

def onNodeDeleted (node : NodeRecord) : InMemoryGraph :=
  node.labels.foldl (fun g label => g.removeNodeLabelIndex node.id label) g

/-- List a stored relationship with both its endpoints, and under its type. -/
def attachRelationship (rel : RelationshipRecord) : InMemoryGraph :=
  let (types, typeId) := g.types.idOrInsert rel.relType
  let g := { g with types }
  let g := g.adjacencyPush rel.src .out ⟨typeId, rel.dst, rel.id⟩
  let g := g.adjacencyPush rel.dst .into ⟨typeId, rel.src, rel.id⟩
  g.insertRelationshipTypeIndex rel.id rel.relType

/-- Drop a deleted relationship from both lists and from its type's bucket. -/
def detachRelationshipIndexes (rel : RelationshipRecord) (pending : Option PendingAdjRemovals) :
    InMemoryGraph × Option PendingAdjRemovals :=
  let (g, pending) := g.adjacencyRemove rel.src .out rel.id pending
  let (g, pending) := g.adjacencyRemove rel.dst .into rel.id pending
  (g.removeRelationshipTypeIndex rel.id rel.relType, pending)

/-- The relationships at a node, each once: a self-loop is in both lists. -/
def incidentRelationshipIds (node : NodeId) : List RelationshipId :=
  (g.list node .out).map AdjEntry.rel ++
    ((g.list node .into).filter fun e => e.neighbour != node).map AdjEntry.rel

def hasIncidentRelationships (node : NodeId) : Bool :=
  !(g.list node .out).isEmpty || !(g.list node .into).isEmpty

variable {g} {node node' : NodeId} {side side' : Side} {rel : RelationshipId}

theorem nodeAt_id {record : NodeRecord} (h : g.nodeAt node = some record) : record.id = node := by
  obtain ⟨stored, -, rfl⟩ := Option.map_eq_some_iff.mp h
  rfl

theorem relAt_id {record : RelationshipRecord} (h : g.relAt rel = some record) :
    record.id = rel := by
  obtain ⟨stored, -, rfl⟩ := Option.map_eq_some_iff.mp h
  rfl

/-! ### What edits do to the lists -/

theorem list_editAdjacency {edit : Adjacency → Adjacency} :
    (g.editAdjacency node edit).list node' side =
      match g.adjacency[node']? with
      | some adj => if node' = node then (edit adj).side side else adj.side side
      | none => [] := by
  simp only [list, editAdjacency, getElem?_modify]
  cases g.adjacency[node']? with
  | none => rfl
  | some adj =>
    by_cases hnode : node = node'
    · simp [hnode]
    · simp [hnode, Ne.symm hnode]

/-- Clearing a node's lists leaves the others. -/
theorem list_clearAdjacency :
    (g.clearAdjacency node).list node' side = if node' = node then [] else g.list node' side := by
  rw [clearAdjacency, list_editAdjacency, list]
  cases g.adjacency[node']? with
  | none => simp
  | some adj => simp

theorem listBytes_eq_zero : g.listBytes node side = 0 ↔ g.list node side = [] := by
  unfold listBytes list
  cases g.adjacency[node]? with
  | none => simp
  | some adj => exact Adjacency.sideBytes_eq_zero

/-- A removal that defers nothing removes the first entry. -/
theorem adjacencyRemove_none : g.adjacencyRemove node side rel none =
      (g.editAdjacency node (·.remove side rel), none) := by
  unfold adjacencyRemove
  split
  next hzero =>
    have hempty : g.list node side = [] := listBytes_eq_zero.mp hzero
    have hsame : g.adjacency.modify node (·.remove side rel) = g.adjacency := by
      refine List.ext_getElem? fun i => ?_
      rw [getElem?_modify]
      split
      next hi =>
        subst hi
        cases hadj : g.adjacency[node]? with
        | none => rfl
        | some adj =>
          simp only [list, hadj] at hempty
          refine congrArg some (Adjacency.ext_side fun on => ?_)
          change (adj.edit side _).side on = adj.side on
          rw [Adjacency.side_edit]
          split
          next hon => rw [hon, hempty, eraseP_nil]
          next => rfl
      next => simp
    rw [editAdjacency, hsame]
  next => rfl

end InMemoryGraph

end LoraDb
