import LoraDb.GraphRuns
import LoraDb.NetEffect
import LoraDb.ReplayGraph

/-!
# Change Batches

The change feed reports a committed transaction as one change for each entity it touched:
created, updated or deleted, in the order of the first touch. The events are folded into an
`Accumulator`, which keeps for each entity whether it was created and deleted, and the last
operation on each of its keys and labels. The records come from the graph: that after the
transaction for what is there, and that before it for what was deleted.

A reader of the feed keeps the records and applies each change of a batch to them.

## Main results

* `applyEvent_turns`: an event changes at most one entity, unless it clears the graph.
* `Accumulator.marks_observe`: the accumulator marks the entities as `Marks.note` does.
* `buildChanges_netEffect`: a batch is the net effect of its events.
-/

open Function (update_of_ne update_self)
open List NetEffect SortedMap

namespace LoraDb

open Option

/-! ### Changes -/

/-- Net effect of a transaction on one entity. -/
inductive Change where
  | nodeCreated (id : NodeId) (labels : List String) (properties : PropertyMap)
  | nodeUpdated (id : NodeId) (labels : List String) (properties : PropertyMap)
      (setKeys removedKeys addedLabels removedLabels : List String)
  | nodeDeleted (id : NodeId) (labels : List String) (properties : PropertyMap)
  | relationshipCreated (id : RelationshipId) (relType : String) (start stop : NodeId)
      (properties : PropertyMap)
  | relationshipUpdated (id : RelationshipId) (relType : String) (start stop : NodeId)
      (properties : PropertyMap) (setKeys removedKeys : List String)
  | relationshipDeleted (id : RelationshipId) (relType : String) (start stop : NodeId)
      (properties : PropertyMap)
  /-- The whole graph was replaced. -/
  | reset
deriving DecidableEq

/-- An entity a transaction touched. -/
inductive Touched where
  | node (id : NodeId)
  | rel (id : RelationshipId)
deriving DecidableEq

/-! ### Images of what is deleted -/

/-- Records of the entities a transaction deletes, as they were before it. -/
structure PreImages where
  nodes : List (NodeId × NodeRecord) := []
  rels : List (RelationshipId × RelationshipRecord) := []

namespace PreImages

/-- Keep the record of what the event deletes, if there is one and it is not kept yet. -/
def captureEvent (graph : InMemoryGraph) (out : PreImages) : MutationEvent → PreImages
  | .deleteNode nodeId | .detachDeleteNode nodeId =>
    match get? nodeId out.nodes, graph.nodeAt nodeId with
    | none, some record => { out with nodes := put nodeId record out.nodes }
    | _, _ => out
  | .deleteRelationship relId =>
    match get? relId out.rels, graph.relAt relId with
    | none, some record => { out with rels := put relId record out.rels }
    | _, _ => out
  | _ => out

def capture (events : List MutationEvent) (graph : InMemoryGraph) : PreImages :=
  events.foldl (captureEvent graph) {}

/-- Whether any event deletes an entity. -/
def neededFor (events : List MutationEvent) : Bool :=
  events.any fun
    | .deleteNode _ | .detachDeleteNode _ | .deleteRelationship _ => true
    | _ => false

def forEvents (events : List MutationEvent) (pre : Option InMemoryGraph) : PreImages :=
  match pre with
  | some pre => if neededFor events then capture events pre else {}
  | none => {}

end PreImages

/-! ### Folding the events -/

structure NodeTouch where
  created : Bool := false
  deleted : Bool := false
  /-- Last operation per property key: set or removed. -/
  keys : List (String × Bool) := []
  /-- Last operation per label: added or removed. -/
  labels : List (String × Bool) := []

structure RelTouch where
  created : Bool := false
  deleted : Bool := false
  keys : List (String × Bool) := []

structure Accumulator where
  reset : Bool := false
  order : List Touched := []
  nodes : List (NodeId × NodeTouch) := []
  rels : List (RelationshipId × RelTouch) := []

namespace Accumulator

variable (acc : Accumulator)

/-- Change the touch of a node. A node not touched yet comes last in the order. -/
def node (id : NodeId) (change : NodeTouch → NodeTouch) : Accumulator :=
  { acc with
    order := if (get? id acc.nodes).isSome then acc.order else acc.order ++ [.node id]
    nodes := put id (change ((get? id acc.nodes).getD {})) acc.nodes }

def rel (id : RelationshipId) (change : RelTouch → RelTouch) : Accumulator :=
  { acc with
    order := if (get? id acc.rels).isSome then acc.order else acc.order ++ [.rel id]
    rels := put id (change ((get? id acc.rels).getD {})) acc.rels }

def observe : MutationEvent → Accumulator
  | .createNode id _ _ => acc.node id ({ · with created := true })
  | .createRelationship id _ _ _ _ => acc.rel id ({ · with created := true })
  | .setNodeProperty nodeId key _ =>
    acc.node nodeId fun touch => { touch with keys := put key true touch.keys }
  | .removeNodeProperty nodeId key =>
    acc.node nodeId fun touch => { touch with keys := put key false touch.keys }
  | .addNodeLabel nodeId label =>
    acc.node nodeId fun touch => { touch with labels := put label true touch.labels }
  | .removeNodeLabel nodeId label =>
    acc.node nodeId fun touch => { touch with labels := put label false touch.labels }
  | .setRelationshipProperty relId key _ =>
    acc.rel relId fun touch => { touch with keys := put key true touch.keys }
  | .removeRelationshipProperty relId key =>
    acc.rel relId fun touch => { touch with keys := put key false touch.keys }
  | .deleteRelationship relId => acc.rel relId ({ · with deleted := true })
  | .deleteNode nodeId | .detachDeleteNode nodeId => acc.node nodeId ({ · with deleted := true })
  -- everything before a clear is gone: the batch starts over
  | .clear => { reset := true }
  | .createIndex .. | .dropIndex .. | .createConstraint .. | .dropConstraint .. => acc

end Accumulator

/-- The keys set last, and those removed last. -/
def splitOps (ops : List (String × Bool)) : List String × List String :=
  ops.foldl (fun (sets, removed) (key, isSet) =>
    if isSet then (sets ++ [key], removed) else (sets, removed ++ [key])) ([], [])

def nodeChange (id : NodeId) (touch : NodeTouch) (pre : PreImages) (post : InMemoryGraph) :
    Option Change :=
  match touch.created, touch.deleted with
  -- created and deleted inside one transaction: never visible
  | true, true => none
  | false, true =>
    let (labels, properties) := ((get? id pre.nodes).map fun record =>
      (record.labels, record.properties)).getD ([], .empty)
    some (.nodeDeleted id labels properties)
  | true, false => (post.nodeAt id).map fun record =>
    .nodeCreated id record.labels record.properties
  | false, false => (post.nodeAt id).map fun record =>
    let (setKeys, removedKeys) := splitOps touch.keys
    let (addedLabels, removedLabels) := splitOps touch.labels
    .nodeUpdated id record.labels record.properties setKeys removedKeys addedLabels removedLabels

def relChange (id : RelationshipId) (touch : RelTouch) (pre : PreImages) (post : InMemoryGraph) :
    Option Change :=
  match touch.created, touch.deleted with
  | true, true => none
  | false, true => (get? id pre.rels).map fun record =>
    .relationshipDeleted id record.relType record.src record.dst record.properties
  | true, false => (post.relAt id).map fun record =>
    .relationshipCreated id record.relType record.src record.dst record.properties
  | false, false => (post.relAt id).map fun record =>
    let (setKeys, removedKeys) := splitOps touch.keys
    .relationshipUpdated id record.relType record.src record.dst record.properties setKeys
      removedKeys

/-- The changes of the entities in `order`, each touch taken out as it is used. -/
def changesInOrder (pre : PreImages) (post : InMemoryGraph) :
    List Touched → List (NodeId × NodeTouch) → List (RelationshipId × RelTouch) → List Change
  | [], _, _ => []
  | .node id :: order, nodes, rels =>
    match get? id nodes with
    | none => changesInOrder pre post order nodes rels
    | some touch =>
      (nodeChange id touch pre post).toList ++
        changesInOrder pre post order (SortedMap.erase id nodes) rels
  | .rel id :: order, nodes, rels =>
    match get? id rels with
    | none => changesInOrder pre post order nodes rels
    | some touch =>
      (relChange id touch pre post).toList ++
        changesInOrder pre post order nodes (SortedMap.erase id rels)

/-- Net changes of one transaction. `post` is the graph after it; `pre` holds the records it
deleted. -/
def buildChanges (events : List MutationEvent) (pre : PreImages) (post : InMemoryGraph) :
    List Change :=
  let acc := events.foldl Accumulator.observe {}
  (if acc.reset then [.reset] else []) ++ changesInOrder pre post acc.order acc.nodes acc.rels

/-! ### Applying the events -/

/-- The graph of a mutation that tells whether it was done. -/
def orMissing (graph : InMemoryGraph) (message : String) :
    InMemoryGraph × Bool → Except (String × InMemoryGraph) InMemoryGraph
  | (graph', true) => .ok graph'
  | (_, false) => .error (message, graph)

/-- The graph of a replayed creation, or its error under the number of the event. -/
def orFailed (graph : InMemoryGraph) (idx : ℕ) :
    Except String InMemoryGraph → Except (String × InMemoryGraph) InMemoryGraph
  | .ok graph' => .ok graph'
  | .error e => .error (s!"WAL replay failed at event {idx}: {e}", graph)

/-- Apply the `idx`-th replayed event. Indexes and constraints are no part of the graph
here. -/
def applyEvent (graph : InMemoryGraph) (idx : ℕ) :
    MutationEvent → Except (String × InMemoryGraph) InMemoryGraph
  | .createNode id labels properties =>
    orFailed graph idx (graph.replayCreateNode id labels properties)
  | .createRelationship id src dst relType properties =>
    orFailed graph idx (graph.replayCreateRelationship id src dst relType properties)
  | .setNodeProperty nodeId key value =>
    orMissing graph
      s!"WAL replay failed at event {idx}: missing node {nodeId} for property set"
      (graph.setNodeProperty nodeId key value)
  | .removeNodeProperty nodeId key =>
    orMissing graph
      s!"WAL replay failed at event {idx}: missing node {nodeId} for property removal"
      (graph.removeNodeProperty nodeId key)
  | .addNodeLabel nodeId label =>
    orMissing graph s!"WAL replay failed at event {idx}: missing node {nodeId} for label add"
      (graph.addNodeLabel nodeId label)
  | .removeNodeLabel nodeId label =>
    orMissing graph s!"WAL replay failed at event {idx}: missing node {nodeId} for label removal"
      (graph.removeNodeLabel nodeId label)
  | .setRelationshipProperty relId key value =>
    orMissing graph
      s!"WAL replay failed at event {idx}: missing relationship {relId} for property set"
      (graph.setRelationshipProperty relId key value)
  | .removeRelationshipProperty relId key =>
    orMissing graph
      s!"WAL replay failed at event {idx}: missing relationship {relId} for property removal"
      (graph.removeRelationshipProperty relId key)
  | .deleteRelationship relId =>
    orMissing graph s!"WAL replay failed at event {idx}: missing relationship {relId} for delete"
      (graph.deleteRelationship relId)
  | .deleteNode nodeId =>
    orMissing graph
      s!"WAL replay failed at event {idx}: missing or attached node {nodeId} for delete"
      (graph.deleteNode nodeId)
  | .detachDeleteNode nodeId => .ok (graph.detachDeleteNode nodeId).1
  | .clear => .ok graph.clear
  | .createIndex .. | .dropIndex .. | .createConstraint .. | .dropConstraint .. => .ok graph

/-! ### What a reader of the feed keeps -/

/-- The record of an entity. -/
inductive EntityRecord where
  | node (record : NodeRecord)
  | relationship (record : RelationshipRecord)

/-- The entity a record is of. -/
def EntityRecord.entity : EntityRecord → Touched
  | .node record => .node record.id
  | .relationship record => .rel record.id

/-- The records of a graph, by entity. -/
def InMemoryGraph.records (g : InMemoryGraph) : Table Touched EntityRecord
  | .node id => (g.nodeAt id).map .node
  | .rel id => (g.relAt id).map .relationship

/-- The entity a change is about; a reset is about none. -/
def Change.entity? : Change → Option Touched
  | .nodeCreated id .. | .nodeUpdated id .. | .nodeDeleted id .. => some (.node id)
  | .relationshipCreated id .. | .relationshipUpdated id .. | .relationshipDeleted id .. =>
    some (.rel id)
  | .reset => none

/-- The record a change tells of: what its entity is, or was before it was deleted. -/
def Change.image : Change → Option EntityRecord
  | .nodeCreated id labels properties | .nodeUpdated id labels properties ..
  | .nodeDeleted id labels properties => some (.node { id, labels, properties })
  | .relationshipCreated id relType start stop properties
  | .relationshipUpdated id relType start stop properties ..
  | .relationshipDeleted id relType start stop properties =>
    some (.relationship { id, src := start, dst := stop, relType, properties })
  | .reset => none

/-- What became of an entity. -/
inductive Fate where
  | created
  | updated
  | deleted

def Change.fate? : Change → Option Fate
  | .nodeCreated .. | .relationshipCreated .. => some .created
  | .nodeUpdated .. | .relationshipUpdated .. => some .updated
  | .nodeDeleted .. | .relationshipDeleted .. => some .deleted
  | .reset => none

/-- A reader's records after a change. -/
def applyChange (records : Table Touched EntityRecord) (change : Change) :
    Table Touched EntityRecord :=
  match change.entity?, change.fate? with
  | some entity, some .deleted => Function.update records entity none
  | some entity, _ => Function.update records entity change.image
  | none, _ => fun _ => none

/-- The change an entity calls for, by its records before and after. -/
structure Change.Tells (change : Change) (entity : Touched) (before after : Option EntityRecord) :
    Prop where
  entity : change.entity? = some entity
  fate : change.fate? = match before, after with
    | none, some _ => some .created
    | some _, some _ => some .updated
    | some _, none => some .deleted
    | none, none => none
  image : change.image = match after with
    | some record => some record
    | none => before

/-! ### What an event changes -/

/-- What an event does to the records. -/
def MutationEvent.effect : MutationEvent → Effect Touched
  | .createNode id _ _ => .create (.node id)
  | .createRelationship id _ _ _ _ => .create (.rel id)
  | .setNodeProperty nodeId _ _ | .removeNodeProperty nodeId _ | .addNodeLabel nodeId _
  | .removeNodeLabel nodeId _ => .edit (.node nodeId)
  | .setRelationshipProperty relId _ _ | .removeRelationshipProperty relId _ => .edit (.rel relId)
  | .deleteRelationship relId => .delete (.rel relId)
  | .deleteNode nodeId => .delete (.node nodeId)
  | .detachDeleteNode nodeId => .drop (.node nodeId)
  | .clear => .clear
  | .createIndex .. | .dropIndex .. | .createConstraint .. | .dropConstraint .. => .keep

namespace InMemoryGraph

variable {g g' : InMemoryGraph} {id : ℕ}

theorem records_nodes {cell : Option NodeRecord}
    (hnodes : ∀ j, g'.nodes.get j = if j = id then cell else g.nodes.get j)
    (hrels : g'.relationships = g.relationships) (hcell : ∀ record ∈ cell, record.id = id) :
    g'.records = Function.update g.records (.node id) (cell.map .node) := by
  funext entity
  cases entity with
  | node j =>
    by_cases hj : j = id
    · subst hj
      rw [update_self]
      cases cell with
      | none => simp [records, nodeAt, hnodes]
      | some record =>
        obtain rfl : record.id = j := hcell record rfl
        simp [records, nodeAt, hnodes]
    · rw [update_of_ne (by simpa using hj)]
      simp [records, nodeAt, hnodes, hj]
  | rel j =>
    rw [update_of_ne (by simp)]
    simp [records, relAt, hrels]

theorem records_rels {cell : Option RelationshipRecord}
    (hrels : ∀ j, g'.relationships.get j = if j = id then cell else g.relationships.get j)
    (hnodes : g'.nodes = g.nodes) (hcell : ∀ record ∈ cell, record.id = id) :
    g'.records = Function.update g.records (.rel id) (cell.map .relationship) := by
  funext entity
  cases entity with
  | node j =>
    rw [update_of_ne (by simp)]
    simp [records, nodeAt, hnodes]
  | rel j =>
    by_cases hj : j = id
    · subst hj
      rw [update_self]
      cases cell with
      | none => simp [records, relAt, hrels]
      | some record =>
        obtain rfl : record.id = j := hcell record rfl
        simp [records, relAt, hrels]
    · rw [update_of_ne (by simpa using hj)]
      simp [records, relAt, hrels, hj]

/-- Filing a node replaces its record. -/
theorem records_setNode {record : NodeRecord} (hnodes : g'.nodes = g.nodes.set id record)
    (hrels : g'.relationships = g.relationships) (hid : id < g.nodes.len)
    (hrecord : record.id = id) :
    g'.records = Function.update g.records (.node id) (some (.node record)) := by
  refine @records_nodes g g' id (some record) (fun j => ?_) hrels ?_
  · rw [hnodes, Slots.get_set hid]
  · simp [hrecord]

theorem records_setRel {record : RelationshipRecord}
    (hrels : g'.relationships = g.relationships.set id record) (hnodes : g'.nodes = g.nodes)
    (hid : id < g.relationships.len) (hrecord : record.id = id) :
    g'.records = Function.update g.records (.rel id) (some (.relationship record)) := by
  refine @records_rels g g' id (some record) (fun j => ?_) hnodes ?_
  · rw [hrels, Slots.get_set hid]
  · simp [hrecord]

theorem Alike.records (h : Alike g g') : g'.records = g.records := by
  funext entity
  cases entity with
  | node id => simp only [InMemoryGraph.records, h.nodeAt]
  | rel id => simp only [InMemoryGraph.records, h.relAt]

theorem records_attachRelationship {record : RelationshipRecord} :
    (g.attachRelationship record).records = g.records := by
  have hpush : ∀ {g : InMemoryGraph} {node side entry},
      (g.adjacencyPush node side entry).records = g.records := by
    intro g node side entry
    unfold adjacencyPush
    split
    next hok => exact (Alike.records (ensureNodeSlotChecked_ok hok).1 :)
    next => rfl
  have hattach : (g.attachRelationship record).records =
      (((g.numberType record.relType).adjacencyPush record.src .out
        ⟨(g.types.idOrInsert record.relType).2, record.dst, record.id⟩).adjacencyPush
          record.dst .into
            ⟨(g.types.idOrInsert record.relType).2, record.src, record.id⟩).records := rfl
  rw [hattach, hpush, hpush]
  rfl

/-! ### Creating -/

/-- Filing a node under a free identifier, once the slots cover it. -/
theorem fileNode_turns {g₁ : InMemoryGraph} {node : NodeRecord} (hnone : g.nodeAt id = none)
    (halike : Alike g g₁) (hlt : id < g₁.nodes.len) (hid : node.id = id)
    (hnodes : g'.nodes = g₁.nodes.set id node) (hrels : g'.relationships = g₁.relationships) :
    (Effect.create (Touched.node id)).Turns g.records g'.records := by
  rw [records_setNode hnodes hrels hlt hid, halike.records]
  exact turns_create (by simp [records, hnone])

theorem fileRel_turns {g₁ : InMemoryGraph} {rel : RelationshipRecord} (hnone : g.relAt id = none)
    (halike : Alike g g₁) (hlt : id < g₁.relationships.len) (hid : rel.id = id)
    (hrels : g'.relationships = g₁.relationships.set id rel) (hnodes : g'.nodes = g₁.nodes) :
    (Effect.create (Touched.rel id)).Turns g.records g'.records := by
  rw [records_setRel hrels hnodes hlt hid, halike.records]
  exact turns_create (by simp [records, hnone])

theorem replayCreateNode_turns {labels : List String} {properties : PropertyMap}
    (hok : g.replayCreateNode id labels properties = .ok g') :
    (Effect.create (Touched.node id)).Turns g.records g'.records := by
  unfold replayCreateNode at hok
  split at hok
  · cases hok
  split at hok
  · cases hok
  next hfree =>
    obtain ⟨g₁, hgrow, hok⟩ := ByteCodec.bind_eq_ok.mp hok
    obtain rfl := Except.ok.inj hok
    obtain ⟨halike, hlt, -⟩ := ensureNodeSlotChecked_ok hgrow
    have hnone : g.nodeAt id = none := hasNodeAt_eq_false.mp (Bool.eq_false_iff.mpr hfree)
    rw [onNodeCreated_eq]
    exact fileNode_turns hnone halike hlt rfl rfl rfl

theorem replayCreateRelationship_turns {src dst : NodeId} {relType : String}
    {properties : PropertyMap}
    (hok : g.replayCreateRelationship id src dst relType properties = .ok g') :
    (Effect.create (Touched.rel id)).Turns g.records g'.records := by
  unfold replayCreateRelationship at hok
  split at hok
  · cases hok
  split at hok
  · cases hok
  next hfree =>
    split at hok
    · cases hok
    split at hok
    · cases hok
    split at hok
    · cases hok
    obtain ⟨g₁, hgrow, hok⟩ := ByteCodec.bind_eq_ok.mp hok
    obtain rfl := Except.ok.inj hok
    obtain ⟨halike, hlt, -⟩ := ensureRelSlotChecked_ok hgrow
    have hnone : g.relAt id = none := hasRelAt_eq_false.mp (Bool.eq_false_iff.mpr hfree)
    rw [records_attachRelationship]
    exact fileRel_turns hnone halike hlt rfl rfl rfl

/-! ### Editing -/

/-- Filing a node again, with something changed. -/
theorem refileNode_turns {node node' : NodeRecord} (hnode : g.nodeAt id = some node)
    (hnodes : g'.nodes = g.nodes.set id node') (hrels : g'.relationships = g.relationships)
    (hid : node'.id = node.id) :
    (Effect.edit (Touched.node id)).Turns g.records g'.records := by
  rw [records_setNode hnodes hrels (lt_of_nodeAt hnode) (hid.trans (nodeAt_id hnode))]
  exact turns_edit ⟨.node node, by simp [records, hnode]⟩

theorem refileRel_turns {rel rel' : RelationshipRecord} (hrel : g.relAt id = some rel)
    (hrels : g'.relationships = g.relationships.set id rel') (hnodes : g'.nodes = g.nodes)
    (hid : rel'.id = rel.id) : (Effect.edit (Touched.rel id)).Turns g.records g'.records := by
  rw [records_setRel hrels hnodes (lt_of_relAt hrel) (hid.trans (relAt_id hrel))]
  exact turns_edit ⟨.relationship rel, by simp [records, hrel]⟩

theorem editNodeProperty_turns {key : String} {edit : PropEdit} {old : Option PropertyValue}
    (hedit : g.editNodeProperty id key edit = some (g', old)) :
    (Effect.edit (Touched.node id)).Turns g.records g'.records := by
  unfold editNodeProperty at hedit
  split at hedit
  · cases hedit
  next node hnode =>
    split at hedit
    · cases hedit
    · cases hedit
      exact refileNode_turns hnode rfl rfl rfl

theorem editRelProperty_turns {key : String} {edit : PropEdit} {old : Option PropertyValue}
    (hedit : g.editRelProperty id key edit = some (g', old)) :
    (Effect.edit (Touched.rel id)).Turns g.records g'.records := by
  unfold editRelProperty at hedit
  split at hedit
  · cases hedit
  next rel hrel =>
    split at hedit
    · cases hedit
    · cases hedit
      exact refileRel_turns hrel rfl rfl rfl

theorem addNodeLabel_turns {label : String} (hdone : g.addNodeLabel id label = (g', true)) :
    (Effect.edit (Touched.node id)).Turns g.records g'.records := by
  simp only [addNodeLabel] at hdone
  split at hdone
  · cases hdone
  split at hdone
  · cases hdone
  next node hnode =>
    split at hdone
    · cases hdone
    · cases hdone
      exact refileNode_turns hnode rfl rfl rfl

theorem removeNodeLabel_turns {label : String} (hdone : g.removeNodeLabel id label = (g', true)) :
    (Effect.edit (Touched.node id)).Turns g.records g'.records := by
  unfold removeNodeLabel at hdone
  split at hdone
  · cases hdone
  next node hnode =>
    split at hdone
    · cases hdone
      exact refileNode_turns hnode rfl rfl rfl
    · cases hdone

/-! ### Deleting -/

/-- Emptying the slot of a node. -/
theorem removeNode_turns {node : NodeRecord} (hnode : g.nodeAt id = some node)
    (hnodes : g'.nodes = g.nodes.remove id) (hrels : g'.relationships = g.relationships) :
    (Effect.delete (Touched.node id)).Turns g.records g'.records := by
  have hrecords := @records_nodes g g' id none (fun j => by rw [hnodes, Slots.get_remove]) hrels
    (by simp)
  rw [hrecords]
  exact turns_delete ⟨.node node, by simp [records, hnode]⟩

theorem removeRel_turns {rel : RelationshipRecord} (hrel : g.relAt id = some rel)
    (hrels : g'.relationships = g.relationships.remove id) (hnodes : g'.nodes = g.nodes) :
    (Effect.delete (Touched.rel id)).Turns g.records g'.records := by
  have hrecords := @records_rels g g' id none (fun j => by rw [hrels, Slots.get_remove]) hnodes
    (by simp)
  rw [hrecords]
  exact turns_delete ⟨.relationship rel, by simp [records, hrel]⟩

theorem deleteRelationship_turns (hdone : g.deleteRelationship id = (g', true)) :
    (Effect.delete (Touched.rel id)).Turns g.records g'.records := by
  cases hrel : g.relAt id with
  | none =>
    simp only [deleteRelationship, deleteRelationshipDeferring, takeRel, hrel] at hdone
    cases hdone
  | some rel =>
    rw [deleteRelationship_of_some hrel] at hdone
    cases hdone
    exact removeRel_turns hrel rfl rfl

theorem deleteNode_turns (hdone : g.deleteNode id = (g', true)) :
    (Effect.delete (Touched.node id)).Turns g.records g'.records := by
  unfold deleteNode takeNode at hdone
  split at hdone
  · cases hdone
  split at hdone
  · cases hdone
  cases hnode : g.nodeAt id with
  | none =>
    rw [hnode] at hdone
    cases hdone
  | some node =>
    rw [hnode] at hdone
    simp only [onNodeDeleted_eq] at hdone
    cases hdone
    exact removeNode_turns hnode rfl rfl

/-- A detached delete of a node that is not there does nothing. -/
theorem detachDeleteNode_of_none (h : g.nodeAt id = none) : (g.detachDeleteNode id).1 = g := by
  have hnode : g.hasNodeAt id = false := hasNodeAt_eq_false.mpr h
  have hskip : g.detachDeleteDeferring id (some []) = ((g, some []), false) := by
    rw [detachDeleteDeferring, hnode]
    rfl
  simp only [detachDeleteNode, detachDeleteNodes, deleteBatch, runSteps_cons, runSteps_nil, hskip]
  simp [flushAdjacencyRemovals]

theorem records_clear : g.clear.records = fun _ => none := by
  funext entity
  cases entity <;> rfl

end InMemoryGraph

open InMemoryGraph

theorem orMissing_eq_ok {g g' : InMemoryGraph} {message : String} {done : InMemoryGraph × Bool} :
    orMissing g message done = .ok g' ↔ done = (g', true) := by
  obtain ⟨g₁, done⟩ := done
  cases done <;> simp [orMissing]

theorem orFailed_eq_ok {g g' : InMemoryGraph} {idx : ℕ} {result : Except String InMemoryGraph} :
    orFailed g idx result = .ok g' ↔ result = .ok g' := by
  cases result <;> simp [orFailed]

/-- An event changes at most one entity, unless it clears the graph. -/
theorem applyEvent_turns {g g' : InMemoryGraph} {idx : ℕ} {event : MutationEvent}
    (hok : applyEvent g idx event = .ok g') : event.effect.Turns g.records g'.records := by
  cases event with
  | createNode id labels properties => exact replayCreateNode_turns (orFailed_eq_ok.mp hok)
  | createRelationship id src dst relType properties =>
    exact replayCreateRelationship_turns (orFailed_eq_ok.mp hok)
  | setNodeProperty nodeId key value =>
    have hdone := orMissing_eq_ok.mp hok
    unfold setNodeProperty at hdone
    split at hdone
    · cases hdone
    next hedit =>
      cases hdone
      exact (editNodeProperty_turns hedit :)
  | removeNodeProperty nodeId key =>
    have hdone := orMissing_eq_ok.mp hok
    unfold removeNodeProperty at hdone
    split at hdone
    next hedit =>
      cases hdone
      exact (editNodeProperty_turns hedit :)
    · cases hdone
  | addNodeLabel nodeId label => exact addNodeLabel_turns (orMissing_eq_ok.mp hok)
  | removeNodeLabel nodeId label => exact removeNodeLabel_turns (orMissing_eq_ok.mp hok)
  | setRelationshipProperty relId key value =>
    have hdone := orMissing_eq_ok.mp hok
    unfold setRelationshipProperty at hdone
    split at hdone
    · cases hdone
    next hedit =>
      cases hdone
      exact (editRelProperty_turns hedit :)
  | removeRelationshipProperty relId key =>
    have hdone := orMissing_eq_ok.mp hok
    unfold removeRelationshipProperty at hdone
    split at hdone
    next hedit =>
      cases hdone
      exact (editRelProperty_turns hedit :)
    · cases hdone
  | deleteRelationship relId => exact deleteRelationship_turns (orMissing_eq_ok.mp hok)
  | deleteNode nodeId => exact deleteNode_turns (orMissing_eq_ok.mp hok)
  | detachDeleteNode nodeId =>
    intro hnone
    obtain rfl := Except.ok.inj hok
    rw [detachDeleteNode_of_none (by simpa [records] using hnone)]
  | clear =>
    obtain rfl := Except.ok.inj hok
    exact records_clear
  | createIndex request ifNotExists => exact congrArg records (Except.ok.inj hok).symm
  | dropIndex name ifExists => exact congrArg records (Except.ok.inj hok).symm
  | createConstraint request ifNotExists => exact congrArg records (Except.ok.inj hok).symm
  | dropConstraint name ifExists => exact congrArg records (Except.ok.inj hok).symm

variable {events : List MutationEvent}

/-- The events of a list that applies, one after another. -/
theorem replayFrom_runs {idx : ℕ} {base post : InMemoryGraph}
    (hok : replayFrom applyEvent idx base events = .ok post) :
    Runs (events.map MutationEvent.effect) base.records post.records := by
  induction events generalizing idx base with
  | nil => exact congrArg records (Except.ok.inj hok).symm
  | cons event events ih =>
    obtain ⟨mid, hstep, hrest⟩ := ByteCodec.bind_eq_ok.mp hok
    exact ⟨mid.records, applyEvent_turns hstep, ih hrest⟩

/-! ### What the accumulator marks -/

namespace Accumulator

variable {acc : Accumulator} {id : ℕ} {entity : Touched}

/-- The entities touched, as created or deleted or neither. -/
def marks (acc : Accumulator) : Marks Touched
  | .node id => (get? id acc.nodes).map fun touch => ⟨touch.created, touch.deleted⟩
  | .rel id => (get? id acc.rels).map fun touch => ⟨touch.created, touch.deleted⟩

theorem marks_node {change : NodeTouch → NodeTouch} (mark : Mark → Mark)
    (hmark : ∀ touch : NodeTouch, Mark.mk (change touch).created (change touch).deleted =
      mark ⟨touch.created, touch.deleted⟩) :
    (acc.node id change).marks = acc.marks.edit (.node id) mark := by
  funext entity
  cases entity with
  | node j =>
    by_cases hj : j = id
    · subst hj
      rw [edit_self]
      simp only [marks, node, get?_put, if_true, map_some, hmark]
      cases get? j acc.nodes <;> rfl
    · rw [edit_of_ne (by simpa using hj)]
      simp only [marks, node, get?_put, if_neg hj]
  | rel j =>
    rw [edit_of_ne (by simp)]
    rfl

theorem marks_rel {change : RelTouch → RelTouch} (mark : Mark → Mark)
    (hmark : ∀ touch : RelTouch, Mark.mk (change touch).created (change touch).deleted =
      mark ⟨touch.created, touch.deleted⟩) :
    (acc.rel id change).marks = acc.marks.edit (.rel id) mark := by
  funext entity
  cases entity with
  | node j =>
    rw [edit_of_ne (by simp)]
    rfl
  | rel j =>
    by_cases hj : j = id
    · subst hj
      rw [edit_self]
      simp only [marks, rel, get?_put, if_true, map_some, hmark]
      cases get? j acc.rels <;> rfl
    · rw [edit_of_ne (by simpa using hj)]
      simp only [marks, rel, get?_put, if_neg hj]

/-- The accumulator marks the entities as the effects of the events do. -/
theorem marks_observe (event : MutationEvent) :
    (acc.observe event).marks = acc.marks.note event.effect := by
  cases event with
  | createNode id labels properties => exact marks_node ({ · with created := true }) fun _ => rfl
  | createRelationship id src dst relType properties =>
    exact marks_rel ({ · with created := true }) fun _ => rfl
  | setNodeProperty nodeId key value => exact marks_node id fun _ => rfl
  | removeNodeProperty nodeId key => exact marks_node id fun _ => rfl
  | addNodeLabel nodeId label => exact marks_node id fun _ => rfl
  | removeNodeLabel nodeId label => exact marks_node id fun _ => rfl
  | setRelationshipProperty relId key value => exact marks_rel id fun _ => rfl
  | removeRelationshipProperty relId key => exact marks_rel id fun _ => rfl
  | deleteRelationship relId => exact marks_rel ({ · with deleted := true }) fun _ => rfl
  | deleteNode nodeId => exact marks_node ({ · with deleted := true }) fun _ => rfl
  | detachDeleteNode nodeId => exact marks_node ({ · with deleted := true }) fun _ => rfl
  | clear =>
    funext entity
    cases entity <;> rfl
  | createIndex request ifNotExists => rfl
  | dropIndex name ifExists => rfl
  | createConstraint request ifNotExists => rfl
  | dropConstraint name ifExists => rfl

theorem marks_foldl {events : List MutationEvent} : (events.foldl observe acc).marks =
      (events.map MutationEvent.effect).foldl Marks.note acc.marks := by
  induction events generalizing acc with
  | nil => rfl
  | cons event events ih => rw [foldl_cons, ih, marks_observe, map_cons, foldl_cons]

/-- The order lists the entities marked, each once, and the maps are maps. -/
structure Ordered (acc : Accumulator) : Prop where
  nodup : acc.order.Nodup
  mem_iff : ∀ {entity}, entity ∈ acc.order ↔ ∃ mark, acc.marks entity = some mark
  nodes : Sorted acc.nodes
  rels : Sorted acc.rels

theorem ordered_start {reset : Bool} : Ordered { reset } where
  nodup := nodup_nil
  mem_iff := by
    intro entity
    cases entity <;> simp [marks]
  nodes := sorted_nil
  rels := sorted_nil

/-- Marking an entity lists it last, unless it is listed already. -/
theorem Ordered.mark {acc' : Accumulator} {mark : Mark → Mark} (h : acc.Ordered)
    (hmarks : acc'.marks = acc.marks.edit entity mark)
    (horder : acc'.order =
      if (acc.marks entity).isSome then acc.order else acc.order ++ [entity])
    (hnodes : Sorted acc'.nodes) (hrels : Sorted acc'.rels) :
    acc'.Ordered where
  nodup := by
    rw [horder]
    split
    · exact h.nodup
    next hnew =>
      have hnot : entity ∉ acc.order := by
        rw [h.mem_iff, ← isSome_iff_exists]
        exact hnew
      simpa [nodup_append] using ⟨h.nodup, fun other hmem heq => hnot (heq ▸ hmem)⟩
  mem_iff := by
    intro other
    by_cases hother : other = entity
    · rw [hother, hmarks, edit_self, horder]
      split
      next hold => simp [h.mem_iff, Option.isSome_iff_exists.mp hold]
      next => simp
    · rw [hmarks, edit_of_ne hother, ← h.mem_iff, horder]
      split <;> simp [hother]
  nodes := hnodes
  rels := hrels

theorem Ordered.node (h : acc.Ordered) {change : NodeTouch → NodeTouch} (mark : Mark → Mark)
    (hmark : ∀ touch : NodeTouch, Mark.mk (change touch).created (change touch).deleted =
      mark ⟨touch.created, touch.deleted⟩) : (acc.node id change).Ordered := by
  refine h.mark (marks_node mark hmark) ?_ (h.nodes.put _ _) h.rels
  simp [Accumulator.node, marks]

theorem Ordered.rel (h : acc.Ordered) {change : RelTouch → RelTouch} (mark : Mark → Mark)
    (hmark : ∀ touch : RelTouch, Mark.mk (change touch).created (change touch).deleted =
      mark ⟨touch.created, touch.deleted⟩) : (acc.rel id change).Ordered := by
  refine h.mark (marks_rel mark hmark) ?_ h.nodes (h.rels.put _ _)
  simp [Accumulator.rel, marks]

theorem Ordered.observe (h : acc.Ordered) (event : MutationEvent) :
    (acc.observe event).Ordered := by
  cases event with
  | createNode id labels properties =>
    rw [Accumulator.observe]
    exact h.node ({ · with created := true }) fun _ => rfl
  | createRelationship id src dst relType properties =>
    rw [Accumulator.observe]
    exact h.rel ({ · with created := true }) fun _ => rfl
  | setNodeProperty nodeId key value =>
    rw [Accumulator.observe]
    exact h.node id fun _ => rfl
  | removeNodeProperty nodeId key =>
    rw [Accumulator.observe]
    exact h.node id fun _ => rfl
  | addNodeLabel nodeId label =>
    rw [Accumulator.observe]
    exact h.node id fun _ => rfl
  | removeNodeLabel nodeId label =>
    rw [Accumulator.observe]
    exact h.node id fun _ => rfl
  | setRelationshipProperty relId key value =>
    rw [Accumulator.observe]
    exact h.rel id fun _ => rfl
  | removeRelationshipProperty relId key =>
    rw [Accumulator.observe]
    exact h.rel id fun _ => rfl
  | deleteRelationship relId =>
    rw [Accumulator.observe]
    exact h.rel ({ · with deleted := true }) fun _ => rfl
  | deleteNode nodeId =>
    rw [Accumulator.observe]
    exact h.node ({ · with deleted := true }) fun _ => rfl
  | detachDeleteNode nodeId =>
    rw [Accumulator.observe]
    exact h.node ({ · with deleted := true }) fun _ => rfl
  | clear => exact ordered_start
  | createIndex request ifNotExists => exact h
  | dropIndex name ifExists => exact h
  | createConstraint request ifNotExists => exact h
  | dropConstraint name ifExists => exact h

theorem Ordered.foldl (h : acc.Ordered) (events : List MutationEvent) :
    (events.foldl Accumulator.observe acc).Ordered := by
  induction events generalizing acc with
  | nil => exact h
  | cons event events ih => exact ih (h.observe event)

end Accumulator

/-! ### Images -/

namespace PreImages

variable {out : PreImages} {g : InMemoryGraph} {entity : Touched}

/-- The image kept of an entity. -/
def image (out : PreImages) : Touched → Option EntityRecord
  | .node id => (get? id out.nodes).map .node
  | .rel id => (get? id out.rels).map .relationship

theorem image_captureEvent (event : MutationEvent) : (captureEvent g out event).image entity =
      if event.effect.removes? = some entity then (out.image entity).or (g.records entity)
      else out.image entity := by
  have hnode : ∀ id, image (match get? id out.nodes, g.nodeAt id with
        | none, some record => { out with nodes := put id record out.nodes }
        | _, _ => out) entity =
      if some (Touched.node id) = some entity then (out.image entity).or (g.records entity)
      else out.image entity := by
    intro id
    by_cases hentity : entity = .node id
    · subst hentity
      cases hold : get? id out.nodes <;> cases hrecord : g.nodeAt id <;>
        simp [image, InMemoryGraph.records, hold, hrecord, get?_put]
    · rw [if_neg (by simpa using Ne.symm hentity)]
      cases get? id out.nodes <;> cases g.nodeAt id <;> cases entity <;>
        simp_all [image, get?_put]
  have hrel : ∀ id, image (match get? id out.rels, g.relAt id with
        | none, some record => { out with rels := put id record out.rels }
        | _, _ => out) entity =
      if some (Touched.rel id) = some entity then (out.image entity).or (g.records entity)
      else out.image entity := by
    intro id
    by_cases hentity : entity = .rel id
    · subst hentity
      cases hold : get? id out.rels <;> cases hrecord : g.relAt id <;>
        simp [image, InMemoryGraph.records, hold, hrecord, get?_put]
    · rw [if_neg (by simpa using Ne.symm hentity)]
      cases get? id out.rels <;> cases g.relAt id <;> cases entity <;>
        simp_all [image, get?_put]
  cases event with
  | deleteNode nodeId => exact hnode nodeId
  | detachDeleteNode nodeId => exact hnode nodeId
  | deleteRelationship relId => exact hrel relId
  | _ => rfl

theorem image_foldl {events : List MutationEvent} (h : out.image entity = g.records entity) :
    (events.foldl (captureEvent g) out).image entity = g.records entity := by
  induction events generalizing out with
  | nil => exact h
  | cons event events ih =>
    refine ih ?_
    rw [image_captureEvent, h]
    split
    · exact Option.or_self
    · rfl

/-- The image of an entity the events remove is its record before them. -/
theorem image_capture {events : List MutationEvent}
    (hremoves : ∃ event ∈ events, event.effect.removes? = some entity) :
    (capture events g).image entity = g.records entity := by
  have hfold : ∀ {out : PreImages}, out.image entity = none →
      (events.foldl (captureEvent g) out).image entity = g.records entity := by
    induction events with
    | nil => simp at hremoves
    | cons event events ih =>
      intro out hnone
      rw [foldl_cons]
      by_cases hevent : event.effect.removes? = some entity
      · refine image_foldl ?_
        rw [image_captureEvent, if_pos hevent, hnone, none_or]
      · refine ih ?_ ?_
        · obtain ⟨other, hmem, hother⟩ := hremoves
          rcases mem_cons.mp hmem with rfl | hmem
          · exact absurd hother hevent
          · exact ⟨other, hmem, hother⟩
        · rw [image_captureEvent, if_neg hevent, hnone]
  refine hfold ?_
  cases entity <;> rfl

theorem image_forEvents {events : List MutationEvent}
    (hremoves : ∃ event ∈ events, event.effect.removes? = some entity) :
    (forEvents events (some g)).image entity = g.records entity := by
  have hneeded : neededFor events = true := by
    obtain ⟨event, hmem, hevent⟩ := hremoves
    refine any_eq_true.mpr ⟨event, hmem, ?_⟩
    cases event <;> first | rfl | cases hevent
  rw [forEvents, if_pos hneeded, image_capture hremoves]

end PreImages

/-! ### The batch -/

section

variable {pre : PreImages} {post : InMemoryGraph} {entity : Touched}

/-- The change of an entity that was touched. -/
def touchedChange (pre : PreImages) (post : InMemoryGraph) (nodes : List (NodeId × NodeTouch))
    (rels : List (RelationshipId × RelTouch)) : Touched → Option Change
  | .node id => (get? id nodes).bind fun touch => nodeChange id touch pre post
  | .rel id => (get? id rels).bind fun touch => relChange id touch pre post

/-- Taking a touch out leaves those of the other entities. -/
theorem changesInOrder_eq {order : List Touched} {nodes : List (NodeId × NodeTouch)}
    {rels : List (RelationshipId × RelTouch)} (horder : order.Nodup)
    (hnodes : Sorted nodes) (hrels : Sorted rels) :
    changesInOrder pre post order nodes rels =
      order.filterMap (touchedChange pre post nodes rels) := by
  induction order generalizing nodes rels with
  | nil => rfl
  | cons first order ih =>
    obtain ⟨hnot, hrest⟩ := nodup_cons.mp horder
    cases first with
    | node id =>
      have hsame : order.filterMap (touchedChange pre post (SortedMap.erase id nodes) rels) =
          order.filterMap (touchedChange pre post nodes rels) := by
        refine filterMap_congr fun other hmem => ?_
        cases other with
        | node j =>
          have hj : j ≠ id := fun heq => hnot (heq ▸ hmem)
          simp only [touchedChange, hnodes.get?_erase, if_neg hj]
        | rel j => rfl
      rw [changesInOrder, filterMap_cons]
      cases htouch : get? id nodes with
      | none => simp only [touchedChange, htouch, bind_none, ih hrest hnodes hrels]
      | some touch =>
        simp only [ih hrest (hnodes.erase id) hrels, hsame]
        simp only [touchedChange, htouch, bind_some]
        cases nodeChange id touch pre post <;> rfl
    | rel id =>
      have hsame : order.filterMap (touchedChange pre post nodes (SortedMap.erase id rels)) =
          order.filterMap (touchedChange pre post nodes rels) := by
        refine filterMap_congr fun other hmem => ?_
        cases other with
        | node j => rfl
        | rel j =>
          have hj : j ≠ id := fun heq => hnot (heq ▸ hmem)
          simp only [touchedChange, hrels.get?_erase, if_neg hj]
      rw [changesInOrder, filterMap_cons]
      cases htouch : get? id rels with
      | none => simp only [touchedChange, htouch, bind_none, ih hrest hnodes hrels]
      | some touch =>
        simp only [ih hrest hnodes (hrels.erase id), hsame]
        simp only [touchedChange, htouch, bind_some]
        cases relChange id touch pre post <;> rfl

/-- The change of a touched entity tells what became of it. One that is in neither graph has
none. -/
theorem touchedChange_spec {acc : Accumulator} {mark : Mark} {before : Option EntityRecord}
    (hmark : acc.marks entity = some mark) (hfits : mark = .of before (post.records entity))
    (hbefore : ∀ record ∈ before, record.entity = entity)
    (himage : mark.deleted = true → mark.created = false → pre.image entity = before) :
    match touchedChange pre post acc.nodes acc.rels entity with
    | some change => change.Tells entity before (post.records entity)
    | none => before = none ∧ post.records entity = none := by
  cases entity with
  | node id =>
    obtain ⟨touch, htouch, rfl⟩ := Option.map_eq_some_iff.mp hmark
    obtain ⟨hcreated, hdeleted⟩ := Mark.mk.inj hfits
    simp only at hcreated hdeleted himage
    simp only [touchedChange, htouch, bind_some, nodeChange]
    cases hpost : post.nodeAt id with
    | none =>
      have hnone : post.records (.node id) = none := by rw [InMemoryGraph.records, hpost]; rfl
      rw [hnone] at hdeleted ⊢
      cases before with
      | none => simp [hcreated, hdeleted]
      | some record =>
        rw [hcreated, hdeleted] at himage ⊢
        obtain ⟨stored, hstored, rfl⟩ := Option.map_eq_some_iff.mp (himage rfl rfl)
        obtain rfl := Touched.node.inj (hbefore _ rfl)
        simp only [hstored]
        exact ⟨rfl, rfl, rfl⟩
    | some stored =>
      have hsome : post.records (.node id) = some (.node stored) := by
        rw [InMemoryGraph.records, hpost]
        rfl
      obtain rfl := InMemoryGraph.nodeAt_id hpost
      rw [hsome] at hdeleted ⊢
      cases before with
      | none =>
        rw [hcreated, hdeleted]
        exact ⟨rfl, rfl, rfl⟩
      | some record =>
        rw [hcreated, hdeleted]
        exact ⟨rfl, rfl, rfl⟩
  | rel id =>
    obtain ⟨touch, htouch, rfl⟩ := Option.map_eq_some_iff.mp hmark
    obtain ⟨hcreated, hdeleted⟩ := Mark.mk.inj hfits
    simp only at hcreated hdeleted himage
    simp only [touchedChange, htouch, bind_some, relChange]
    cases hpost : post.relAt id with
    | none =>
      have hnone : post.records (.rel id) = none := by rw [InMemoryGraph.records, hpost]; rfl
      rw [hnone] at hdeleted ⊢
      cases before with
      | none => simp [hcreated, hdeleted]
      | some record =>
        rw [hcreated, hdeleted] at himage ⊢
        obtain ⟨stored, hstored, rfl⟩ := Option.map_eq_some_iff.mp (himage rfl rfl)
        obtain rfl := Touched.rel.inj (hbefore _ rfl)
        simp only [hstored]
        exact ⟨rfl, rfl, rfl⟩
    | some stored =>
      have hsome : post.records (.rel id) = some (.relationship stored) := by
        rw [InMemoryGraph.records, hpost]
        rfl
      obtain rfl := InMemoryGraph.relAt_id hpost
      rw [hsome] at hdeleted ⊢
      cases before with
      | none =>
        rw [hcreated, hdeleted]
        exact ⟨rfl, rfl, rfl⟩
      | some record =>
        rw [hcreated, hdeleted]
        exact ⟨rfl, rfl, rfl⟩

theorem Change.Tells.apply {change : Change} {before after : Option EntityRecord}
    (h : change.Tells entity before after) (records : Table Touched EntityRecord) :
    applyChange records change = Function.update records entity after := by
  unfold applyChange
  rw [h.entity, h.fate, h.image]
  cases before with
  | none => cases after <;> rfl
  | some record => cases after <;> rfl

/-- The change a function gives for an entity tells what becomes of it; where it gives none,
there is nothing to tell. -/
def Telling (changeOf : Touched → Option Change) (before after : Table Touched EntityRecord)
    (entity : Touched) : Prop :=
  match changeOf entity with
  | some change => change.Tells entity (before entity) (after entity)
  | none => before entity = none ∧ after entity = none

variable {order : List Touched} {changeOf : Touched → Option Change}
  {before after : Table Touched EntityRecord}

/-- Applying the changes brings each entity listed up to date. -/
theorem foldl_applyChange (horder : order.Nodup)
    (htell : ∀ entity ∈ order, Telling changeOf before after entity)
    (records : Table Touched EntityRecord)
    (hrecords : ∀ entity ∈ order, records entity = before entity) :
    (order.filterMap changeOf).foldl applyChange records entity =
      if entity ∈ order then after entity else records entity := by
  induction order generalizing records with
  | nil => rfl
  | cons first order ih =>
    obtain ⟨hnot, hrest⟩ := nodup_cons.mp horder
    have hne : ∀ other ∈ order, other ≠ first := fun other hmem heq => hnot (heq ▸ hmem)
    have hfirst := htell first mem_cons_self
    have htail := fun other hmem => htell other (mem_cons_of_mem _ hmem)
    unfold Telling at hfirst
    rw [filterMap_cons]
    cases hchange : changeOf first with
    | none =>
      rw [hchange] at hfirst
      rw [ih hrest htail records fun other hmem => hrecords other (mem_cons_of_mem _ hmem)]
      by_cases hentity : entity = first
      · rw [hentity, if_neg hnot, if_pos mem_cons_self, hrecords first mem_cons_self, hfirst.1,
          hfirst.2]
      · simp [hentity]
    | some change =>
      rw [hchange] at hfirst
      have hupdated : ∀ other ∈ order,
          Function.update records first (after first) other = before other := by
        intro other hmem
        rw [update_of_ne (hne other hmem)]
        exact hrecords other (mem_cons_of_mem _ hmem)
      rw [foldl_cons, hfirst.apply, ih hrest htail _ hupdated]
      by_cases hentity : entity = first
      · rw [hentity, if_neg hnot, if_pos mem_cons_self, update_self]
      · simp [hentity]

/-- The changes are about the entities listed that are in either graph. -/
theorem entities_filterMap (htell : ∀ entity ∈ order, Telling changeOf before after entity) :
    (order.filterMap changeOf).filterMap Change.entity? =
      order.filter fun entity => (before entity).isSome || (after entity).isSome := by
  induction order with
  | nil => rfl
  | cons first order ih =>
    have hfirst := htell first mem_cons_self
    have htail := ih fun other hmem => htell other (mem_cons_of_mem _ hmem)
    unfold Telling at hfirst
    rw [filterMap_cons, filter_cons]
    cases hchange : changeOf first with
    | none =>
      rw [hchange] at hfirst
      rw [hfirst.1, hfirst.2]
      exact htail
    | some change =>
      rw [hchange] at hfirst
      have hthere : ((before first).isSome || (after first).isSome) = true := by
        have hfate := hfirst.fate
        have hentity := hfirst.entity
        cases hbefore : before first with
        | some record => rfl
        | none =>
          cases hafter : after first with
          | some record => rfl
          | none =>
            rw [hbefore, hafter] at hfate
            cases change <;> cases hfate
            cases hentity
      rw [filterMap_cons, hfirst.entity, if_pos hthere]
      exact congrArg (first :: ·) htail

end

/-- What a batch starts from: the records before the events, or none once they clear the
graph. -/
def startRecords (events : List MutationEvent) (base : InMemoryGraph) :
    Table Touched EntityRecord :=
  if MutationEvent.clear ∈ events then fun _ => none else base.records

theorem clear_mem_effects :
    Effect.clear ∈ events.map MutationEvent.effect ↔ MutationEvent.clear ∈ events := by
  rw [List.mem_map]
  constructor
  · rintro ⟨event, hmem, hclear⟩
    cases event <;> first | exact hmem | cases hclear
  · exact fun hmem => ⟨_, hmem, rfl⟩

theorem reset_foldl {acc : Accumulator} : (events.foldl Accumulator.observe acc).reset =
      (acc.reset || decide (MutationEvent.clear ∈ events)) := by
  induction events generalizing acc with
  | nil => simp
  | cons event events ih =>
    rw [foldl_cons, ih]
    cases event <;> simp [Accumulator.observe, Accumulator.node, Accumulator.rel]

theorem entity_records {g : InMemoryGraph} {entity : Touched} {record : EntityRecord}
    (h : g.records entity = some record) : record.entity = entity := by
  cases entity with
  | node id =>
    obtain ⟨stored, hstored, rfl⟩ := Option.map_eq_some_iff.mp h
    exact congrArg Touched.node (InMemoryGraph.nodeAt_id hstored)
  | rel id =>
    obtain ⟨stored, hstored, rfl⟩ := Option.map_eq_some_iff.mp h
    exact congrArg Touched.rel (InMemoryGraph.relAt_id hstored)

/-- **A batch is the net effect of its events.** Here no event creates an entity again that an
earlier one deleted, and a detached delete of a node follows its delete, as the store records
them. A reader who applies the batch has the records after the events. The batch has at most one
change for each entity, which tells what became of it; it is about the entities the events name
that were there before or are there after. -/
theorem buildChanges_netEffect {events : List MutationEvent} {first : ℕ}
    {base post : InMemoryGraph} (hok : replayFrom applyEvent first base events = .ok post)
    (hsettled : NetEffect.Settled [] (events.map MutationEvent.effect)) :
    let changes := buildChanges events (.forEvents events (some base)) post
    let start := startRecords events base
    changes.foldl applyChange base.records = post.records ∧
      (changes.filterMap Change.entity?).Nodup ∧
      (∀ change ∈ changes, change ≠ .reset →
        ∃ entity, change.Tells entity (start entity) (post.records entity)) ∧
      ∀ entity, entity ∈ changes.filterMap Change.entity? ↔
        (∃ effect ∈ sinceClear (events.map MutationEvent.effect), effect.entry? = some entity) ∧
          (start entity ≠ none ∨ post.records entity ≠ none) := by
  intro changes start
  obtain ⟨acc, hacc⟩ : ∃ acc, events.foldl Accumulator.observe {} = acc := ⟨_, rfl⟩
  have hordered : acc.Ordered := hacc ▸ Accumulator.ordered_start.foldl events
  have hmarks : acc.marks = (events.map MutationEvent.effect).foldl Marks.note fun _ => none := by
    rw [← hacc, Accumulator.marks_foldl]
    congr 1
    funext entity
    cases entity <;> rfl
  have hchanges : changes = (if acc.reset then [.reset] else []) ++
      acc.order.filterMap (touchedChange (.forEvents events (some base))
        post acc.nodes acc.rels) := by
    rw [← changesInOrder_eq hordered.nodup hordered.nodes hordered.rels, ← hacc]
    rfl
  obtain ⟨changeOf, hchangeOf⟩ :
      ∃ changeOf, touchedChange (.forEvents events (some base)) post acc.nodes acc.rels =
        changeOf :=
    ⟨_, rfl⟩
  rw [hchangeOf] at hchanges
  have hstart : start =
      if Effect.clear ∈ events.map MutationEvent.effect then fun _ => none else base.records := by
    simp only [start, startRecords, clear_mem_effects]
  obtain ⟨gone, hfits⟩ := marks_fit Fits.refl (replayFrom_runs hok) hsettled
  rw [← hstart, ← hmarks] at hfits
  have htell : ∀ entity ∈ acc.order, Telling changeOf start post.records entity := by
    intro entity hmem
    obtain ⟨mark, hmark⟩ := hordered.mem_iff.mp hmem
    have hbefore : ∀ record ∈ start entity, record.entity = entity := by
      intro record hrecord
      simp only [start, startRecords] at hrecord
      split at hrecord
      · cases hrecord
      · exact entity_records hrecord
    rw [← hchangeOf]
    refine touchedChange_spec hmark (hfits.marked hmark) hbefore fun hdeleted hcreated => ?_
    -- what was there before was not cleared, and a step removed it
    have hthere : (start entity).isNone = false := by
      rw [hfits.marked hmark] at hcreated
      exact hcreated
    have hkept : start = base.records := by
      rw [hstart] at hthere ⊢
      split at hthere
      · cases hthere
      next hclear => exact if_neg hclear
    rw [hmarks] at hmark
    obtain ⟨effect, hmem, hremoves⟩ := removed_of_marks hmark hdeleted
    obtain ⟨event, hevent, rfl⟩ := mem_map.mp hmem
    rw [hkept]
    exact PreImages.image_forEvents ⟨event, hevent, hremoves⟩
  have hentities : changes.filterMap Change.entity? =
      acc.order.filter fun entity => (start entity).isSome || (post.records entity).isSome := by
    rw [← entities_filterMap htell, hchanges, filterMap_append]
    cases acc.reset <;> rfl
  refine ⟨?_, ?_, ?_, ?_⟩
  · have hrecords : (if acc.reset then [Change.reset] else []).foldl applyChange base.records =
        start := by
      have hreset : acc.reset = decide (MutationEvent.clear ∈ events) := by
        rw [← hacc, reset_foldl, Bool.false_or]
      simp only [start, startRecords, hreset]
      by_cases hclear : MutationEvent.clear ∈ events
      · simp only [hclear, decide_true, if_true]
        rfl
      · simp only [hclear, decide_false, if_false]
        rfl
    rw [hchanges, foldl_append, hrecords]
    funext entity
    rw [foldl_applyChange hordered.nodup htell start fun _ _ => rfl]
    split
    · rfl
    next hnot =>
      refine (hfits.others ?_).symm
      rw [hordered.mem_iff] at hnot
      by_contra hsome
      exact hnot (Option.ne_none_iff_exists'.mp hsome)
  · rw [hentities]
    exact hordered.nodup.filter _
  · intro change hmem hreset
    rw [hchanges, mem_append] at hmem
    rcases hmem with hmem | hmem
    · split at hmem
      · exact absurd (mem_singleton.mp hmem) hreset
      · cases hmem
    · obtain ⟨entity, hentity, hchange⟩ := mem_filterMap.mp hmem
      have htells := htell entity hentity
      rw [Telling, hchange] at htells
      exact ⟨entity, htells⟩
  · intro entity
    rw [hentities, mem_filter, hordered.mem_iff, hmarks, marks_isSome_iff, Bool.or_eq_true,
      isSome_iff_ne_none, isSome_iff_ne_none]

/-- A list that creates a node, edits another so that nothing remains of it, and deletes that
with its relationship. -/
def loopEvents : List MutationEvent :=
  [.createNode 1 ["B"] .empty, .setNodeProperty 0 "k" (.bool true), .removeNodeProperty 0 "k",
    .deleteRelationship 0, .deleteNode 0, .addNodeLabel 1 "C"]

theorem loopEvents_netEffect : ∃ post, replayFrom applyEvent 0 loopGraph loopEvents = .ok post ∧
      (buildChanges loopEvents (.forEvents loopEvents (some loopGraph)) post).foldl applyChange
        loopGraph.records = post.records := by
  have hok : ∃ post, replayFrom applyEvent 0 loopGraph loopEvents = .ok post := ⟨_, rfl⟩
  obtain ⟨post, hpost⟩ := hok
  refine ⟨post, hpost, (buildChanges_netEffect hpost ?_).1⟩
  simp [loopEvents, MutationEvent.effect, NetEffect.Settled]

/-- Edits that cancel out are reported. An entity created again after its delete is left out,
and a detached delete of a node that was never there is reported as one of a node without
labels. -/
theorem cancelled_reported : (replayFrom applyEvent 0 loopGraph
        [.setNodeProperty 0 "k" (.bool true), .removeNodeProperty 0 "k"] = .ok loopGraph ∧
      buildChanges [.setNodeProperty 0 "k" (.bool true), .removeNodeProperty 0 "k"]
        (.forEvents [.setNodeProperty 0 "k" (.bool true), .removeNodeProperty 0 "k"]
          (some loopGraph)) loopGraph = [.nodeUpdated 0 ["A"] .empty [] ["k"] [] []]) ∧
    (∃ post, replayFrom applyEvent 0 InMemoryGraph.new
        [.createNode 0 [] .empty, .deleteNode 0, .createNode 0 [] .empty] = .ok post ∧
      post.nodeAt 0 = some { id := 0, labels := [], properties := .empty } ∧
      buildChanges [.createNode 0 [] .empty, .deleteNode 0, .createNode 0 [] .empty]
        (.forEvents [.createNode 0 [] .empty, .deleteNode 0, .createNode 0 [] .empty]
          (some InMemoryGraph.new)) post = []) ∧
    replayFrom applyEvent 0 InMemoryGraph.new [.detachDeleteNode 7] = .ok InMemoryGraph.new ∧
      buildChanges [.detachDeleteNode 7] (.forEvents [.detachDeleteNode 7] (some InMemoryGraph.new))
        InMemoryGraph.new = [.nodeDeleted 7 [] .empty] := by
  refine ⟨⟨by decide +kernel, by decide +kernel⟩, ⟨_, rfl, rfl, rfl⟩, ?_, by decide +kernel⟩
  simp only [replayFrom, applyEvent, @detachDeleteNode_of_none InMemoryGraph.new 7 rfl]
  rfl

end LoraDb
