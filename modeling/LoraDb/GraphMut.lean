import LoraDb.Graph
import LoraDb.Simulation

/-!
# Mutating the Graph

The mutations of the store. Each edits the records and everything derived from them, then
tells the recorder; one that changes nothing tells it nothing. The replay entry points take
the identifier from a logged event, and `loadSnapshotPayload` replaces the graph by that of
a snapshot.

`delete_relationships` and `detach_delete_nodes` delete a batch: their edits of long
adjacency lists are deferred, and flushed when the whole batch is deleted.
-/

open List

namespace LoraDb

/-- One property of a record set or removed. -/
inductive PropEdit where
  | set (value : PropertyValue)
  | remove

/-- The properties after an edit, with the previous value; `none` where a removal finds
nothing. -/
def editProperty (properties : PropertyMap) (key : String) :
    PropEdit → Option (PropertyMap × Option PropertyValue)
  | .set value => some (properties.insert key value, properties.get key)
  | .remove =>
    match properties.get key with
    | some old => some (properties.remove key, some old)
    | none => none

/-- The edits of one statement, in order; per edit what `editProperty` found. -/
def editProperties (properties : PropertyMap) :
    List (String × Option PropertyValue) → PropertyMap × List (Option (Option PropertyValue))
  | [] => (properties, [])
  | (key, value) :: edits =>
    match editProperty properties key (value.elim .remove .set) with
    | some (properties, old) =>
      let (properties, olds) := editProperties properties edits
      (properties, some old :: olds)
    | none =>
      let (properties, olds) := editProperties properties edits
      (properties, none :: olds)

/-- The parts of a snapshot the graph keeps here. -/
structure SnapshotPayload where
  nextNodeId : NodeId
  nextRelId : RelationshipId
  nodes : List NodeRecord
  relationships : List RelationshipRecord

namespace InMemoryGraph

variable (g : InMemoryGraph)

/-! ### Creating -/

def tryCreateNode (labels : List String) (properties : PropertyMap) :
    InMemoryGraph × Option NodeRecord :=
  match g.tryReserveNextNodeSlot with
  | none => (g, none)
  | some (g, id) =>
    let node : NodeRecord := { id, labels := normalizeLabels labels, properties }
    let g := (g.putNodeAtSlot id node).onNodeCreated node
    (g.emit (.createNode id node.labels properties), some node)

def createRelationship (src dst : NodeId) (relType : String) (properties : PropertyMap) :
    InMemoryGraph × Option RelationshipRecord :=
  if !g.hasNodeAt src || !g.hasNodeAt dst then (g, none)
  else if trim relType = "" then (g, none)
  else
    match g.tryReserveNextRelSlot with
    | none => (g, none)
    | some (g, id) =>
      let rel : RelationshipRecord := { id, src, dst, relType := trim relType, properties }
      let g := (g.putRelAtSlot id rel).attachRelationship rel
      (g.emit (.createRelationship id src dst rel.relType properties), some rel)

/-! ### Properties and labels -/

def editNodeProperty (id : NodeId) (key : String) (edit : PropEdit) :
    Option (InMemoryGraph × Option PropertyValue) :=
  match g.nodeAt id with
  | none => none
  | some node =>
    match editProperty node.properties key edit with
    | none => none
    | some (properties, old) =>
      some ({ g with nodes := g.nodes.set id { node with properties } }, old)

def editRelProperty (id : RelationshipId) (key : String) (edit : PropEdit) :
    Option (InMemoryGraph × Option PropertyValue) :=
  match g.relAt id with
  | none => none
  | some rel =>
    match editProperty rel.properties key edit with
    | none => none
    | some (properties, old) =>
      some ({ g with relationships := g.relationships.set id { rel with properties } }, old)

def setNodeProperty (nodeId : NodeId) (key : String) (value : PropertyValue) :
    InMemoryGraph × Bool :=
  match g.editNodeProperty nodeId key (.set value) with
  | none => (g, false)
  | some (g, _) => (g.emit (.setNodeProperty nodeId key value), true)

def removeNodeProperty (nodeId : NodeId) (key : String) : InMemoryGraph × Bool :=
  match g.editNodeProperty nodeId key .remove with
  | some (g, some _) => (g.emit (.removeNodeProperty nodeId key), true)
  | _ => (g, false)

/-- Tell the recorder of the edits that changed something. -/
def emitEdits (nodeId : NodeId) :
    InMemoryGraph → List ((String × Option PropertyValue) × Option (Option PropertyValue)) →
      InMemoryGraph
  | g, [] => g
  | g, ((_, _), none) :: edits => emitEdits nodeId g edits
  | g, ((key, some value), some _) :: edits =>
    emitEdits nodeId (g.emit (.setNodeProperty nodeId key value)) edits
  | g, ((key, none), some _) :: edits =>
    emitEdits nodeId (g.emit (.removeNodeProperty nodeId key)) edits

def updateNodeProperties (nodeId : NodeId) (edits : List (String × Option PropertyValue)) :
    InMemoryGraph × Bool :=
  match g.nodeAt nodeId with
  | none => (g, false)
  | some node =>
    let (properties, olds) := editProperties node.properties edits
    let changed := olds.any Option.isSome
    let g :=
      if changed then { g with nodes := g.nodes.set nodeId { node with properties } } else g
    (emitEdits nodeId g (edits.zip olds), true)

def setRelationshipProperty (relId : RelationshipId) (key : String) (value : PropertyValue) :
    InMemoryGraph × Bool :=
  match g.editRelProperty relId key (.set value) with
  | none => (g, false)
  | some (g, _) => (g.emit (.setRelationshipProperty relId key value), true)

def removeRelationshipProperty (relId : RelationshipId) (key : String) : InMemoryGraph × Bool :=
  match g.editRelProperty relId key .remove with
  | some (g, some _) => (g.emit (.removeRelationshipProperty relId key), true)
  | _ => (g, false)

def addNodeLabel (nodeId : NodeId) (label : String) : InMemoryGraph × Bool :=
  let label := trim label
  if label = "" then (g, false)
  else
    match g.nodeAt nodeId with
    | none => (g, false)
    | some node =>
      if label ∈ node.labels then (g, false)
      else
        let node := { node with labels := node.labels ++ [label] }
        let g := { g with nodes := g.nodes.set nodeId node }
        ((g.insertNodeLabelIndex nodeId label).emit (.addNodeLabel nodeId label), true)

def removeNodeLabel (nodeId : NodeId) (label : String) : InMemoryGraph × Bool :=
  match g.nodeAt nodeId with
  | none => (g, false)
  | some node =>
    if label ∈ node.labels then
      let node := { node with labels := node.labels.filter fun l => l != label }
      let g := { g with nodes := g.nodes.set nodeId node }
      ((g.removeNodeLabelIndex nodeId label).emit (.removeNodeLabel nodeId label), true)
    else (g, false)

/-! ### Deleting -/

/-- Delete a relationship, leaving the edits of long lists in `pending` when given. -/
def deleteRelationshipDeferring (relId : RelationshipId) (pending : Option PendingAdjRemovals) :
    (InMemoryGraph × Option PendingAdjRemovals) × Bool :=
  match g.takeRel relId with
  | some (g, rel) =>
    let g := g.sinkDeleted (.relationship rel)
    let (g, pending) := g.detachRelationshipIndexes rel pending
    ((g.emit (.deleteRelationship relId), pending), true)
  | none => ((g, pending), false)

def deleteRelationship (relId : RelationshipId) : InMemoryGraph × Bool :=
  let ((g, _), deleted) := g.deleteRelationshipDeferring relId none
  (g, deleted)

/-- Only a node with no relationships is deleted. -/
def deleteNode (nodeId : NodeId) : InMemoryGraph × Bool :=
  if !g.hasNodeAt nodeId then (g, false)
  else if g.hasIncidentRelationships nodeId then (g, false)
  else
    match g.takeNode nodeId with
    | none => (g, false)
    | some (g, node) =>
      let g := g.sinkDeleted (.node node)
      let g := g.onNodeDeleted node
      (g.emit (.deleteNode nodeId), true)

/-- Delete a node with its relationships. Its own lists go first, so that each removal
edits only the far end's list. -/
def detachDeleteDeferring (nodeId : NodeId) (pending : Option PendingAdjRemovals) :
    (InMemoryGraph × Option PendingAdjRemovals) × Bool :=
  if !g.hasNodeAt nodeId then ((g, pending), false)
  else
    let relIds := g.incidentRelationshipIds nodeId
    let (g, pending) := (runSteps (fun (g, pending) relId =>
      deleteRelationshipDeferring g relId pending) (g.clearAdjacency nodeId, pending) relIds).1
    let (g, deleted) := g.deleteNode nodeId
    if deleted then ((g.emit (.detachDeleteNode nodeId), pending), true)
    else ((g, pending), false)

/-- Delete a batch, and flush what it left pending. Returns how many were deleted. -/
def deleteBatch (delete : InMemoryGraph → ℕ → Option PendingAdjRemovals →
      (InMemoryGraph × Option PendingAdjRemovals) × Bool) (ids : List ℕ) :
    InMemoryGraph × ℕ :=
  let ((g, pending), deleted) :=
    runSteps (fun (g, pending) id => delete g id pending) (g, some []) ids
  (g.flushAdjacencyRemovals (pending.getD []), deleted.count true)

def deleteRelationships (relIds : List RelationshipId) : InMemoryGraph × ℕ :=
  g.deleteBatch deleteRelationshipDeferring relIds

def detachDeleteNodes (nodeIds : List NodeId) : InMemoryGraph × ℕ :=
  g.deleteBatch detachDeleteDeferring nodeIds

def detachDeleteNode (nodeId : NodeId) : InMemoryGraph × Bool :=
  let (g, deleted) := g.detachDeleteNodes [nodeId]
  (g, deleted == 1)

/-- Empty the graph. The recorder and the sink stay. -/
def clear : InMemoryGraph :=
  emit { new with recorder := g.recorder, deletedSink := g.deletedSink } .clear

/-! ### Replay and restore -/

/-- Create a node under the identifier a logged event captured. -/
def replayCreateNode (id : NodeId) (labels : List String) (properties : PropertyMap) :
    Except String InMemoryGraph :=
  if g.recorder.isSome then
    .error "cannot replay node creation while a mutation recorder is installed"
  else if g.hasNodeAt id then .error s!"node id {id} already exists"
  else do
    let g ← g.ensureNodeSlotChecked id
    let g := g.bumpNextNodeIdPast id
    let node : NodeRecord := { id, labels := normalizeLabels labels, properties }
    .ok ((g.putNodeAtSlot id node).onNodeCreated node)

def replayCreateRelationship (id : RelationshipId) (src dst : NodeId) (relType : String)
    (properties : PropertyMap) : Except String InMemoryGraph :=
  if g.recorder.isSome then
    .error "cannot replay relationship creation while a mutation recorder is installed"
  else if g.hasRelAt id then .error s!"relationship id {id} already exists"
  else if !g.hasNodeAt src then
    .error s!"relationship {id} references missing source node {src}"
  else if !g.hasNodeAt dst then
    .error s!"relationship {id} references missing target node {dst}"
  else if trim relType = "" then .error s!"relationship {id} has an empty type"
  else do
    let g ← g.ensureRelSlotChecked id
    let g := g.bumpNextRelIdPast id
    let rel : RelationshipRecord := { id, src, dst, relType := trim relType, properties }
    .ok ((g.putRelAtSlot id rel).attachRelationship rel)

def validateSlotId (label : String) (id : ℕ) : Except String Unit :=
  if 2 ^ 64 - 1 ≤ id then .error s!"{label} {id} leaves no valid slab slot" else .ok ()

def validateNextId (kind : String) (nextId : ℕ) : Except String Unit :=
  validateSlotId s!"next {kind} id" nextId

def validateEntityId (kind : String) (id nextId : ℕ) : Except String Unit := do
  validateSlotId kind id
  if nextId ≤ id then .error s!"{kind} id {id} is not below next {kind} id {nextId}"
  else .ok ()

def pushNode (node : NodeRecord) : Except String InMemoryGraph := do
  validateEntityId "node" node.id g.nextNodeId
  if ¬ node.labels.Nodup then .error s!"node {node.id} has a repeated label in snapshot"
  else if g.hasNodeAt node.id then
    .error s!"duplicate node id {node.id} in snapshot payload"
  else
    let g ← g.ensureNodeSlotChecked node.id
    .ok ((g.putNodeAtSlot node.id node).onNodeCreated node)

def pushRelationship (rel : RelationshipRecord) : Except String InMemoryGraph := do
  validateEntityId "relationship" rel.id g.nextRelId
  validateSlotId "relationship source node" rel.src
  validateSlotId "relationship target node" rel.dst
  if g.hasRelAt rel.id then
    .error s!"duplicate relationship id {rel.id} in snapshot payload"
  else if !g.hasNodeAt rel.src then
    .error s!"relationship {rel.id} references missing source node {rel.src}"
  else if !g.hasNodeAt rel.dst then
    .error s!"relationship {rel.id} references missing target node {rel.dst}"
  else
    let g ← g.ensureRelSlotChecked rel.id
    .ok ((g.putRelAtSlot rel.id rel).attachRelationship rel)

/-- The graph of a snapshot. The recorder survives the swap, and the sink does not. -/
def loadSnapshotPayload (payload : SnapshotPayload) : Except String InMemoryGraph := do
  validateNextId "node" payload.nextNodeId
  validateNextId "relationship" payload.nextRelId
  payload.nodes.forM fun node => validateEntityId "node" node.id payload.nextNodeId
  payload.relationships.forM fun rel => do
    validateEntityId "relationship" rel.id payload.nextRelId
    validateSlotId "relationship source node" rel.src
    validateSlotId "relationship target node" rel.dst
  let start := { new with nextNodeId := payload.nextNodeId, nextRelId := payload.nextRelId }
  let withNodes ← payload.nodes.foldlM pushNode start
  let rebuilt ← payload.relationships.foldlM pushRelationship withNodes
  .ok { rebuilt with recorder := g.recorder }

end InMemoryGraph

end LoraDb
