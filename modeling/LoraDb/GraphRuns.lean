import LoraDb.ByteCodec
import LoraDb.GraphIntegrity

/-!
# Runs of the Store

The mutations of the store as one type, and the graphs they reach, together with the
replay entry points, restored snapshots and the recorders and sinks that come and go.

## Main results

* `Reachable.intact`: a reachable graph is intact.
* `integrity_of_run`: what is derived from the records agrees with them after every run, and
  identifiers are handed out once between two clears.
* `deletes_one_by_one`: a batch delete is its deletes one by one.
-/

open ByteCodec (bind_eq_ok)
open List

namespace LoraDb

/-- A mutation of the store, with its arguments. -/
inductive StoreMutation where
  | tryCreateNode (labels : List String) (properties : PropertyMap)
  | createRelationship (src dst : NodeId) (relType : String) (properties : PropertyMap)
  | setNodeProperty (nodeId : NodeId) (key : String) (value : PropertyValue)
  | removeNodeProperty (nodeId : NodeId) (key : String)
  | updateNodeProperties (nodeId : NodeId) (edits : List (String × Option PropertyValue))
  | addNodeLabel (nodeId : NodeId) (label : String)
  | removeNodeLabel (nodeId : NodeId) (label : String)
  | setRelationshipProperty (relId : RelationshipId) (key : String) (value : PropertyValue)
  | removeRelationshipProperty (relId : RelationshipId) (key : String)
  | deleteRelationship (relId : RelationshipId)
  | deleteRelationships (relIds : List RelationshipId)
  | deleteNode (nodeId : NodeId)
  | detachDeleteNode (nodeId : NodeId)
  | detachDeleteNodes (nodeIds : List NodeId)
  | clear
deriving DecidableEq

/-- What a mutation returns. -/
inductive Outcome where
  | node (record : Option NodeRecord)
  | relationship (record : Option RelationshipRecord)
  | applied (done : Bool)
  | deleted (count : ℕ)
  | cleared

/-- The node identifier an outcome hands out, if any. -/
def Outcome.nodeId : Outcome → Option NodeId
  | .node (some record) => some record.id
  | _ => none

def Outcome.relId : Outcome → Option RelationshipId
  | .relationship (some record) => some record.id
  | _ => none

namespace InMemoryGraph

variable {g g' : InMemoryGraph} {node node' id rel : ℕ}

/-- A mutation, with its result as an outcome. -/
def returning {α : Type} (outcome : α → Outcome) (r : InMemoryGraph × α) :
    InMemoryGraph × Outcome :=
  (r.1, outcome r.2)

def mutate (g : InMemoryGraph) : StoreMutation → InMemoryGraph × Outcome
  | .tryCreateNode labels properties => returning .node (g.tryCreateNode labels properties)
  | .createRelationship src dst relType properties =>
    returning .relationship (g.createRelationship src dst relType properties)
  | .setNodeProperty nodeId key value =>
    returning .applied (g.setNodeProperty nodeId key value)
  | .removeNodeProperty nodeId key => returning .applied (g.removeNodeProperty nodeId key)
  | .updateNodeProperties nodeId edits =>
    returning .applied (g.updateNodeProperties nodeId edits)
  | .addNodeLabel nodeId label => returning .applied (g.addNodeLabel nodeId label)
  | .removeNodeLabel nodeId label => returning .applied (g.removeNodeLabel nodeId label)
  | .setRelationshipProperty relId key value =>
    returning .applied (g.setRelationshipProperty relId key value)
  | .removeRelationshipProperty relId key =>
    returning .applied (g.removeRelationshipProperty relId key)
  | .deleteRelationship relId => returning .applied (g.deleteRelationship relId)
  | .deleteRelationships relIds => returning .deleted (g.deleteRelationships relIds)
  | .deleteNode nodeId => returning .applied (g.deleteNode nodeId)
  | .detachDeleteNode nodeId => returning .applied (g.detachDeleteNode nodeId)
  | .detachDeleteNodes nodeIds => returning .deleted (g.detachDeleteNodes nodeIds)
  | .clear => (g.clear, .cleared)

/-- The graphs the store **reaches**: through mutations, replayed creations, restored
snapshots, and recorders and sinks installed, cleared or dropped by a copy. -/
inductive Reachable : InMemoryGraph → Prop
  | new : Reachable new
  | mutate {g : InMemoryGraph} (mutation : StoreMutation) (h : Reachable g) :
      Reachable (g.mutate mutation).1
  | replayNode {g g' : InMemoryGraph} {id : NodeId} {labels : List String}
      {properties : PropertyMap} (h : Reachable g)
      (hok : g.replayCreateNode id labels properties = .ok g') : Reachable g'
  | replayRelationship {g g' : InMemoryGraph} {id : RelationshipId} {src dst : NodeId}
      {relType : String} {properties : PropertyMap} (h : Reachable g)
      (hok : g.replayCreateRelationship id src dst relType properties = .ok g') : Reachable g'
  | load {g g' : InMemoryGraph} {payload : SnapshotPayload} (h : Reachable g)
      (hok : g.loadSnapshotPayload payload = .ok g') : Reachable g'
  | watch {g : InMemoryGraph} (recorder : Option (List MutationEvent))
      (deletedSink : Option (List DeletedRecord)) (h : Reachable g) :
      Reachable { g with recorder, deletedSink }

/-! ### One mutation -/

theorem Intact.bumpNode (h : g.Intact) : (g.bumpNextNodeIdPast id).Intact := by
  refine h.alike { Alike.refl with nextNodeId := le_max_left _ _ }

theorem Intact.bumpRel (h : g.Intact) : (g.bumpNextRelIdPast id).Intact := by
  refine h.alike { Alike.refl with nextRelId := le_max_left _ _ }

theorem Intact.tryCreateNode (h : g.Intact) (labels : List String) (properties : PropertyMap) :
    (g.tryCreateNode labels properties).1.Intact := by
  simp only [InMemoryGraph.tryCreateNode, tryReserveNextNodeSlot]
  cases hok : g.ensureNodeSlotChecked g.nextNodeId with
  | error e => exact h
  | ok g₁ =>
    obtain ⟨halike, hlt, hnext⟩ := ensureNodeSlotChecked_ok hok
    have hfresh : g.nodeAt g.nextNodeId = none := by
      cases hrecord : g.nodeAt g.nextNodeId with
      | none => rfl
      | some record => exact absurd (h.nodesBelow _ _ hrecord) (Nat.lt_irrefl _)
    refine (((h.alike halike).bumpNode).putNode hlt ?_ ?_ rfl).emit _
    · exact (halike.nodeAt _).trans hfresh
    · exact Nat.lt_of_lt_of_le (Nat.lt_succ_self _) (le_max_right _ _)

theorem Intact.createRelationship (h : g.Intact) (src dst : NodeId) (relType : String)
    (properties : PropertyMap) : (g.createRelationship src dst relType properties).1.Intact := by
  simp only [InMemoryGraph.createRelationship, tryReserveNextRelSlot]
  split
  · exact h
  next hends =>
    split
    · exact h
    · cases hok : g.ensureRelSlotChecked g.nextRelId with
      | error e => exact h
      | ok g₁ =>
        obtain ⟨halike, hlt, hnext⟩ := ensureRelSlotChecked_ok hok
        have hfresh : g.relAt g.nextRelId = none := by
          cases hrecord : g.relAt g.nextRelId with
          | none => rfl
          | some record => exact absurd (h.relsBelow _ _ hrecord) (Nat.lt_irrefl _)
        simp only [Bool.or_eq_true, Bool.not_eq_true', not_or, Bool.not_eq_false] at hends
        refine (((h.alike halike).bumpRel).putRelationship hlt ?_ ?_ rfl ?_).emit _
        · exact (halike.relAt _).trans hfresh
        · exact Nat.lt_of_lt_of_le (Nat.lt_succ_self _) (le_max_right _ _)
        · intro side
          change ∃ node, g₁.nodeAt _ = some node
          rw [halike.nodeAt]
          cases side with
          | out => exact hasNodeAt_iff.mp hends.1
          | into => exact hasNodeAt_iff.mp hends.2

variable {old : Option PropertyValue} {edit : PropEdit}

variable {key : String}

theorem editNodeProperty_intact
    (h : g.Intact) (hedit : g.editNodeProperty id key edit = some (g', old)) : g'.Intact := by
  unfold editNodeProperty at hedit
  cases hrecord : g.nodeAt id with
  | none =>
    rw [hrecord] at hedit
    cases hedit
  | some record =>
    rw [hrecord] at hedit
    simp only at hedit
    split at hedit
    · cases hedit
    next properties old' hprops =>
      cases hedit
      have hid : record.id = id := nodeAt_id hrecord
      refine h.setNode hrecord hid fun label j => ?_
      split
      next hj => simp [hj, h.labels, hrecord]
      next => rfl

theorem editRelProperty_intact
    (h : g.Intact) (hedit : g.editRelProperty rel key edit = some (g', old)) : g'.Intact := by
  unfold editRelProperty at hedit
  cases hrecord : g.relAt rel with
  | none =>
    rw [hrecord] at hedit
    cases hedit
  | some record =>
    rw [hrecord] at hedit
    simp only at hedit
    split at hedit
    · cases hedit
    · cases hedit
      have hrel : record.id = rel := relAt_id hrecord
      exact h.setRel hrecord hrel rfl rfl rfl

theorem Intact.setNodeProperty (h : g.Intact) (key : String) (value : PropertyValue) :
    (g.setNodeProperty id key value).1.Intact := by
  unfold InMemoryGraph.setNodeProperty
  split
  · exact h
  next hedit => exact (editNodeProperty_intact h hedit).emit _

theorem Intact.removeNodeProperty (h : g.Intact) (key : String) :
    (g.removeNodeProperty id key).1.Intact := by
  unfold InMemoryGraph.removeNodeProperty
  split
  next hedit => exact (editNodeProperty_intact h hedit).emit _
  · exact h

theorem Intact.setRelationshipProperty (h : g.Intact) (key : String) (value : PropertyValue) :
    (g.setRelationshipProperty id key value).1.Intact := by
  unfold InMemoryGraph.setRelationshipProperty
  split
  · exact h
  next hedit => exact (editRelProperty_intact h hedit).emit _

theorem Intact.removeRelationshipProperty (h : g.Intact) (key : String) :
    (g.removeRelationshipProperty id key).1.Intact := by
  unfold InMemoryGraph.removeRelationshipProperty
  split
  next hedit => exact (editRelProperty_intact h hedit).emit _
  · exact h

theorem Intact.emitEdits (h : g.Intact)
    (edits : List ((String × Option PropertyValue) × Option (Option PropertyValue))) :
    (emitEdits id g edits).Intact := by
  induction edits generalizing g with
  | nil => exact h
  | cons edit edits ih =>
    obtain ⟨⟨key, value⟩, old⟩ := edit
    cases old with
    | none =>
      simp only [InMemoryGraph.emitEdits]
      exact ih h
    | some old =>
      cases value with
      | none =>
        simp only [InMemoryGraph.emitEdits]
        exact ih (h.emit _)
      | some value =>
        simp only [InMemoryGraph.emitEdits]
        exact ih (h.emit _)

theorem Intact.updateNodeProperties (h : g.Intact) (edits : List (String × Option PropertyValue)) :
    (g.updateNodeProperties id edits).1.Intact := by
  unfold InMemoryGraph.updateNodeProperties
  cases hrecord : g.nodeAt id with
  | none => exact h
  | some record =>
    simp only
    have hid : record.id = id := nodeAt_id hrecord
    refine Intact.emitEdits ?_ _
    split
    · refine h.setNode hrecord hid fun label j => ?_
      split
      next hj => simp [hj, h.labels, hrecord]
      next => rfl
    · exact h

theorem Intact.addNodeLabel (h : g.Intact) (label : String) :
    (g.addNodeLabel id label).1.Intact := by
  unfold InMemoryGraph.addNodeLabel
  simp only
  split
  · exact h
  cases hrecord : g.nodeAt id with
  | none => exact h
  | some record =>
    simp only
    split
    · exact h
    · have hid : record.id = id := nodeAt_id hrecord
      refine Intact.emit (@Intact.setNode g id (g.nodesByLabel.insert id (trim label)) record
        { record with labels := record.labels ++ [trim label] } h hrecord hid fun name j => ?_) _
      rw [IdBuckets.ids_insert]
      by_cases hj : j = id
      · by_cases hname : name = trim label
        · simp [hj, hname]
        · simp [hj, hname, h.labels, hrecord]
      · by_cases hname : name = trim label
        · simp [hj, hname]
        · simp [hj, hname]

theorem Intact.removeNodeLabel (h : g.Intact) (label : String) :
    (g.removeNodeLabel id label).1.Intact := by
  unfold InMemoryGraph.removeNodeLabel
  cases hrecord : g.nodeAt id with
  | none => exact h
  | some record =>
    simp only
    split
    · have hid : record.id = id := nodeAt_id hrecord
      refine Intact.emit (@Intact.setNode g id (g.nodesByLabel.remove id label) record
        { record with labels := record.labels.filter fun l => l != label } h hrecord hid
        fun name j => ?_) _
      rw [IdBuckets.ids_remove]
      by_cases hj : j = id
      · by_cases hname : name = label
        · simp [hj, hname]
        · simp [hj, hname, h.labels, hrecord]
      · by_cases hname : name = label
        · simp [hj, hname]
        · simp [hj, hname]
    · exact h

theorem Intact.deleteNode (h : g.Intact) : (g.deleteNode id).1.Intact := by
  cases hrecord : g.nodeAt id with
  | none =>
    have hnode : g.hasNodeAt id = false := hasNodeAt_eq_false.mpr hrecord
    simp only [InMemoryGraph.deleteNode, hnode]
    exact h
  | some record =>
    by_cases hlists : ∀ side, g.list id side = []
    · rw [deleteNode_of_isolated hrecord hlists]
      exact (h.dropNode hrecord hlists).emit _
    · have hincident : g.hasIncidentRelationships id = true := by
        by_contra hnone
        simp only [hasIncidentRelationships, Bool.or_eq_true, Bool.not_eq_true', not_or,
          Bool.not_eq_false, List.isEmpty_iff] at hnone
        refine hlists fun side => ?_
        cases side with
        | out => exact hnone.1
        | into => exact hnone.2
      have hnode : g.hasNodeAt id = true := hasNodeAt_iff.mpr ⟨record, hrecord⟩
      simp only [InMemoryGraph.deleteNode, hnode, hincident]
      exact h

/-- Deletes of a batch, one by one. -/
theorem Intact.deleteBatch {delete : InMemoryGraph → ℕ → Option PendingAdjRemovals → Batch × Bool}
    {alone : InMemoryGraph → ℕ → InMemoryGraph × Bool} (h : g.Intact)
    (hdelete : Simulates (fun (batch : Batch) id => delete batch.1 id batch.2) alone settled
      Deferring)
    (halone : ∀ (g : InMemoryGraph) id, g.Intact → (alone g id).1.Intact) (ids : List ℕ) :
    (g.deleteBatch delete ids).1.Intact := by
  rw [deleteBatch_eq hdelete h.once]
  exact runSteps_invariant (fun g id _ hg => halone g id hg) h

theorem intact_clear : g.clear.Intact := (intact_new.watch _ _).emit _

/-- Every mutation keeps the graph intact. -/
theorem Intact.mutate (h : g.Intact) (mutation : StoreMutation) : (g.mutate mutation).1.Intact := by
  cases mutation with
  | tryCreateNode labels properties => exact h.tryCreateNode labels properties
  | createRelationship src dst relType properties =>
    exact h.createRelationship src dst relType properties
  | setNodeProperty nodeId key value => exact h.setNodeProperty key value
  | removeNodeProperty nodeId key => exact h.removeNodeProperty key
  | updateNodeProperties nodeId edits => exact h.updateNodeProperties edits
  | addNodeLabel nodeId label =>
    simp only [InMemoryGraph.mutate, returning]
    exact h.addNodeLabel label
  | removeNodeLabel nodeId label => exact h.removeNodeLabel label
  | setRelationshipProperty relId key value => exact h.setRelationshipProperty key value
  | removeRelationshipProperty relId key => exact h.removeRelationshipProperty key
  | deleteRelationship relId => exact h.deleteRelationship
  | deleteRelationships relIds =>
    exact h.deleteBatch deleteRelationshipDeferring_simulates
      (fun g id hg => hg.deleteRelationship) relIds
  | deleteNode nodeId => exact h.deleteNode
  | detachDeleteNode nodeId =>
    have hdetach : (g.mutate (.detachDeleteNode nodeId)).1 = (g.detachAlone nodeId).1 := by
      rw [← detachDeleteNode_eq h.once]
      rfl
    rw [hdetach]
    exact h.detachAlone
  | detachDeleteNodes nodeIds =>
    exact h.deleteBatch detachDeleteDeferring_simulates (fun g id hg => hg.detachAlone) nodeIds
  | clear => exact intact_clear

/-! ### Replay and restore -/

theorem Intact.replayCreateNode {labels : List String} {properties : PropertyMap} (h : g.Intact)
    (hok : g.replayCreateNode id labels properties = .ok g') : g'.Intact := by
  unfold InMemoryGraph.replayCreateNode at hok
  split at hok
  · cases hok
  split at hok
  · cases hok
  next hfree =>
    obtain ⟨g₁, hgrow, hok⟩ := bind_eq_ok.mp hok
    cases hok
    obtain ⟨halike, hlt, -⟩ := ensureNodeSlotChecked_ok hgrow
    refine ((h.alike halike).bumpNode).putNode hlt ?_ ?_ rfl
    · exact (halike.nodeAt _).trans (hasNodeAt_eq_false.mp (Bool.eq_false_iff.mpr hfree))
    · exact Nat.lt_of_lt_of_le (Nat.lt_succ_self _) (le_max_right _ _)

variable {record : RelationshipRecord}

/-- Filing a relationship under a free identifier, between existing nodes. -/
theorem Intact.fileRelationship {g₁ : InMemoryGraph} (h : g.Intact)
    (hfree : ¬ g.hasRelAt rel = true) (hsrc : ¬ (!g.hasNodeAt record.src) = true)
    (hdst : ¬ (!g.hasNodeAt record.dst) = true) (halike : Alike g g₁)
    (hlt : rel < g₁.relationships.len) (hnext : rel < g₁.nextRelId) (hid : record.id = rel) :
    ((g₁.putRelAtSlot rel record).attachRelationship record).Intact := by
  refine (h.alike halike).putRelationship hlt ?_ hnext hid fun side => ?_
  · exact (halike.relAt _).trans (hasRelAt_eq_false.mp (Bool.eq_false_iff.mpr hfree))
  · rw [halike.nodeAt]
    simp only [Bool.not_eq_true', Bool.not_eq_false] at hsrc hdst
    cases side with
    | out => exact hasNodeAt_iff.mp hsrc
    | into => exact hasNodeAt_iff.mp hdst

theorem Intact.replayCreateRelationship {src dst : NodeId} {relType : String}
    {properties : PropertyMap} (h : g.Intact)
    (hok : g.replayCreateRelationship id src dst relType properties = .ok g') : g'.Intact := by
  unfold InMemoryGraph.replayCreateRelationship at hok
  split at hok
  · cases hok
  split at hok
  · cases hok
  next hfree =>
    split at hok
    · cases hok
    next hsrc =>
      split at hok
      · cases hok
      next hdst =>
        split at hok
        · cases hok
        · obtain ⟨g₁, hgrow, hok⟩ := bind_eq_ok.mp hok
          cases hok
          obtain ⟨halike, hlt, -⟩ := ensureRelSlotChecked_ok hgrow
          have hbump : Alike g (g₁.bumpNextRelIdPast id) :=
            { halike with nextRelId := halike.nextRelId.trans (le_max_left _ _) }
          refine h.fileRelationship hfree hsrc hdst hbump hlt ?_ rfl
          exact Nat.lt_of_lt_of_le (Nat.lt_succ_self _) (le_max_right _ _)

theorem lt_of_validateEntityId {kind : String} {n : ℕ}
    (hok : validateEntityId kind id n = .ok ()) : id < n := by
  obtain ⟨-, -, hok⟩ := bind_eq_ok.mp hok
  split at hok
  · cases hok
  next hlt => exact Nat.not_le.mp hlt

theorem Intact.pushNode {record : NodeRecord} (h : g.Intact)
    (hok : g.pushNode record = .ok g') : g'.Intact := by
  obtain ⟨⟨⟩, hvalid, hok⟩ := bind_eq_ok.mp hok
  split at hok
  · cases hok
  split at hok
  · cases hok
  next hfree =>
    obtain ⟨g₁, hgrow, hok⟩ := bind_eq_ok.mp hok
    cases hok
    obtain ⟨halike, hlt, hnext⟩ := ensureNodeSlotChecked_ok hgrow
    refine (h.alike halike).putNode hlt ?_ ?_ rfl
    · exact (halike.nodeAt _).trans (hasNodeAt_eq_false.mp (Bool.eq_false_iff.mpr hfree))
    · rw [hnext]
      exact lt_of_validateEntityId hvalid

theorem Intact.pushRelationship (h : g.Intact)
    (hok : g.pushRelationship record = .ok g') : g'.Intact := by
  obtain ⟨⟨⟩, hvalid, hok⟩ := bind_eq_ok.mp hok
  obtain ⟨-, -, hok⟩ := bind_eq_ok.mp hok
  obtain ⟨-, -, hok⟩ := bind_eq_ok.mp hok
  split at hok
  · cases hok
  next hfree =>
    split at hok
    · cases hok
    next hsrc =>
      split at hok
      · cases hok
      next hdst =>
        obtain ⟨g₁, hgrow, hok⟩ := bind_eq_ok.mp hok
        cases hok
        obtain ⟨halike, hlt, hnext⟩ := ensureRelSlotChecked_ok hgrow
        refine h.fileRelationship hfree hsrc hdst halike hlt ?_ rfl
        rw [hnext]
        exact lt_of_validateEntityId hvalid

/-- What each successful step keeps, a successful fold keeps. -/
theorem foldlM_invariant {α ε σ : Type} {f : σ → α → Except ε σ} {inv : σ → Prop}
    (hf : ∀ s a s', inv s → f s a = .ok s' → inv s') {as : List α} {s s' : σ} (hs : inv s)
    (hok : as.foldlM f s = .ok s') : inv s' := by
  induction as generalizing s with
  | nil =>
    cases hok
    exact hs
  | cons a as ih =>
    rw [foldlM_cons] at hok
    obtain ⟨s₁, hstep, hok⟩ := bind_eq_ok.mp hok
    exact ih (hf s a s₁ hs hstep) hok

theorem Intact.loadSnapshotPayload {payload : SnapshotPayload}
    (hok : g.loadSnapshotPayload payload = .ok g') : g'.Intact := by
  obtain ⟨-, -, hok⟩ := bind_eq_ok.mp hok
  obtain ⟨-, -, hok⟩ := bind_eq_ok.mp hok
  obtain ⟨-, -, hok⟩ := bind_eq_ok.mp hok
  obtain ⟨-, -, hok⟩ := bind_eq_ok.mp hok
  obtain ⟨withNodes, hnodes, hok⟩ := bind_eq_ok.mp hok
  obtain ⟨rebuilt, hrels, hok⟩ := bind_eq_ok.mp hok
  cases hok
  have hstart : Intact { new with
      nextNodeId := payload.nextNodeId
      nextRelId := payload.nextRelId } :=
    intact_new.alike { Alike.refl with nextNodeId := Nat.zero_le _, nextRelId := Nat.zero_le _ }
  have hwith := foldlM_invariant (fun _ _ _ h hok => h.pushNode hok) hstart hnodes
  exact (foldlM_invariant (fun _ _ _ h hok => h.pushRelationship hok) hwith hrels).watch _ _

/-- A reachable graph is intact. -/
theorem Reachable.intact (h : Reachable g) : g.Intact := by
  induction h with
  | new => exact intact_new
  | mutate mutation _ ih => exact ih.mutate mutation
  | replayNode _ hok ih => exact ih.replayCreateNode hok
  | replayRelationship _ hok ih => exact ih.replayCreateRelationship hok
  | load _ hok _ => exact Intact.loadSnapshotPayload hok
  | watch recorder deletedSink _ ih => exact ih.watch recorder deletedSink

/-- **Batch deletes** of a reachable graph, of any identifiers, are their deletes one by one: the
same graph, with the same events and deleted records, and as many deletes counted. -/
theorem deletes_one_by_one (h : Reachable g) (ids : List ℕ) :
    g.deleteRelationships ids = ((runSteps deleteRelationship g ids).1,
      (runSteps deleteRelationship g ids).2.count true) ∧
    g.detachDeleteNodes ids = ((runSteps detachDeleteNode g ids).1,
      (runSteps detachDeleteNode g ids).2.count true) := by
  have honce : g.Once := h.intact.once
  constructor
  · exact deleteBatch_eq deleteRelationshipDeferring_simulates honce ids
  · have hsame : runSteps detachDeleteNode g ids = runSteps detachAlone g ids := by
      refine @runSteps_congr _ _ _ detachDeleteNode Once detachAlone ?_ ?_ g honce ids
      · exact fun g id hg => detachDeleteNode_eq hg
      · intro g id hg
        rw [detachDeleteNode_eq hg]
        exact detachAlone_once hg
    rw [hsame]
    exact deleteBatch_eq detachDeleteDeferring_simulates honce ids

/-- A node with a relationship to itself. -/
def loopGraph : InMemoryGraph :=
  ((new.mutate (.tryCreateNode ["A"] .empty)).1.mutate (.createRelationship 0 0 "T" .empty)).1

theorem deletes_one_by_one_loop : loopGraph.deleteRelationships [0, 0, 7] =
      ((runSteps deleteRelationship loopGraph [0, 0, 7]).1,
        (runSteps deleteRelationship loopGraph [0, 0, 7]).2.count true) ∧
    loopGraph.detachDeleteNodes [0, 0, 7] = ((runSteps detachDeleteNode loopGraph [0, 0, 7]).1,
        (runSteps detachDeleteNode loopGraph [0, 0, 7]).2.count true) :=
  deletes_one_by_one (.mutate _ (.mutate _ .new)) [0, 0, 7]

/-! ### Identifiers -/

/-- The identifiers next to be handed out. -/
def counters (g : InMemoryGraph) : ℕ × ℕ := (g.nextNodeId, g.nextRelId)

theorem counters_emitEdits
    {edits : List ((String × Option PropertyValue) × Option (Option PropertyValue))} :
    (emitEdits id g edits).counters = g.counters := by
  induction edits generalizing g with
  | nil => rfl
  | cons edit edits ih =>
    obtain ⟨⟨key, value⟩, old⟩ := edit
    cases old with
    | none => exact ih
    | some old =>
      cases value with
      | none => exact ih
      | some value => exact ih

theorem counters_editNodeProperty
    (hedit : g.editNodeProperty id key edit = some (g', old)) : g'.counters = g.counters := by
  unfold editNodeProperty at hedit
  split at hedit
  · cases hedit
  · split at hedit
    · cases hedit
    · cases hedit
      rfl

theorem counters_editRelProperty
    (hedit : g.editRelProperty id key edit = some (g', old)) : g'.counters = g.counters := by
  unfold editRelProperty at hedit
  split at hedit
  · cases hedit
  · split at hedit
    · cases hedit
    · cases hedit
      rfl

theorem counters_deleteRelationship : (g.deleteRelationship rel).1.counters = g.counters := by
  cases hrecord : g.relAt rel with
  | none => rw [deleteRelationship_of_none hrecord]
  | some record =>
    rw [deleteRelationship_of_some hrecord]
    rfl

theorem counters_dropNode {record : NodeRecord} : (g.dropNode id record).counters = g.counters := by
  rw [dropNode, onNodeDeleted_eq]
  rfl

theorem counters_detachAlone : (g.detachAlone id).1.counters = g.counters := by
  rw [detachAlone]
  cases hrecord : g.nodeAt id with
  | none => rw [detachDeleteDeferring_of_none hrecord]
  | some record =>
    rw [detachDeleteDeferring_of_some hrecord, deleteIncident_none]
    have hrun : (runSteps deleteRelationship (g.clearAdjacency id)
        (g.incidentRelationshipIds id)).1.counters = g.counters := by
      refine @runSteps_invariant InMemoryGraph ℕ Bool deleteRelationship
        (fun g' => g'.counters = g.counters) _ (fun g' r _ hg' => ?_) _ rfl
      rw [counters_deleteRelationship, hg']
    exact counters_dropNode.trans hrun

theorem counters_deleteNode : (g.deleteNode id).1.counters = g.counters := by
  unfold deleteNode
  split
  · rfl
  split
  · rfl
  · unfold takeNode
    cases g.nodeAt id with
    | none => rfl
    | some record =>
      simp only [onNodeDeleted_eq]
      rfl

theorem counters_deleteBatch {delete : InMemoryGraph → ℕ → Option PendingAdjRemovals → Batch × Bool}
    {alone : InMemoryGraph → ℕ → InMemoryGraph × Bool} (h : g.Once)
    (hdelete : Simulates (fun (batch : Batch) id => delete batch.1 id batch.2) alone settled
      Deferring)
    (halone : ∀ (g : InMemoryGraph) id, (alone g id).1.counters = g.counters) (ids : List ℕ) :
    (g.deleteBatch delete ids).1.counters = g.counters := by
  rw [deleteBatch_eq hdelete h]
  refine @runSteps_invariant InMemoryGraph ℕ Bool alone (fun g' => g'.counters = g.counters) ids
    (fun g' r _ hg' => ?_) g rfl
  rw [halone, hg']

/-- The next identifier is handed out, and the counter moves past it; or neither. -/
def HandsOut (next next' : ℕ) (handed : Option ℕ) : Prop :=
  handed = none ∧ next' = next ∨ handed = some next ∧ next' = next + 1

theorem counters_ensureNode (hok : g.ensureNodeSlotChecked id = .ok g') :
    g'.counters = g.counters := by
  obtain ⟨target, -, hok⟩ := bind_eq_ok.mp hok
  split at hok
  · cases hok
    rfl
  · cases hok
    rfl

theorem counters_ensureRel (hok : g.ensureRelSlotChecked id = .ok g') :
    g'.counters = g.counters := by
  obtain ⟨target, -, hok⟩ := bind_eq_ok.mp hok
  split at hok
  · cases hok
    rfl
  · cases hok
    rfl

theorem counters_attachRelationship : (g.attachRelationship record).counters = g.counters := by
  have hpush : ∀ {g : InMemoryGraph} {node side entry},
      (g.adjacencyPush node side entry).counters = g.counters := by
    intro g node side entry
    unfold adjacencyPush
    split
    next hok => exact (counters_ensureNode hok :)
    next => rfl
  have hattach : (g.attachRelationship record).counters =
      (((g.numberType record.relType).adjacencyPush record.src .out
        ⟨(g.types.idOrInsert record.relType).2, record.dst, record.id⟩).adjacencyPush
          record.dst .into
            ⟨(g.types.idOrInsert record.relType).2, record.src, record.id⟩).counters := rfl
  rw [hattach, hpush, hpush]
  rfl

/-- A mutation that leaves the counters hands out nothing. -/
theorem handsOut_none {outcome : Outcome} (h : g'.counters = g.counters)
    (hnode : outcome.nodeId = none) (hrel : outcome.relId = none) :
    HandsOut g.nextNodeId g'.nextNodeId outcome.nodeId ∧
      HandsOut g.nextRelId g'.nextRelId outcome.relId :=
  ⟨Or.inl ⟨hnode, congrArg Prod.fst h⟩, Or.inl ⟨hrel, congrArg Prod.snd h⟩⟩

theorem tryCreateNode_handsOut (labels : List String) (properties : PropertyMap) :
    HandsOut g.nextNodeId (g.mutate (.tryCreateNode labels properties)).1.nextNodeId
      (g.mutate (.tryCreateNode labels properties)).2.nodeId ∧
    HandsOut g.nextRelId (g.mutate (.tryCreateNode labels properties)).1.nextRelId
      (g.mutate (.tryCreateNode labels properties)).2.relId := by
  simp only [mutate, returning, tryCreateNode, tryReserveNextNodeSlot]
  cases hok : g.ensureNodeSlotChecked g.nextNodeId with
  | error e => exact handsOut_none rfl rfl rfl
  | ok g₁ =>
    have hcounters := counters_ensureNode hok
    simp only [onNodeCreated_eq]
    refine ⟨Or.inr ⟨rfl, ?_⟩, Or.inl ⟨rfl, congrArg Prod.snd hcounters⟩⟩
    change max g₁.nextNodeId (g.nextNodeId + 1) = g.nextNodeId + 1
    have hnext : g₁.nextNodeId = g.nextNodeId := congrArg Prod.fst hcounters
    rw [hnext]
    exact Nat.max_eq_right (Nat.le_succ _)

theorem createRelationship_handsOut (src dst : NodeId) (relType : String)
    (properties : PropertyMap) :
    HandsOut g.nextNodeId (g.mutate (.createRelationship src dst relType properties)).1.nextNodeId
      (g.mutate (.createRelationship src dst relType properties)).2.nodeId ∧
    HandsOut g.nextRelId (g.mutate (.createRelationship src dst relType properties)).1.nextRelId
      (g.mutate (.createRelationship src dst relType properties)).2.relId := by
  simp only [mutate, returning, createRelationship, tryReserveNextRelSlot]
  split
  · exact handsOut_none rfl rfl rfl
  split
  · exact handsOut_none rfl rfl rfl
  cases hok : g.ensureRelSlotChecked g.nextRelId with
  | error e => exact handsOut_none rfl rfl rfl
  | ok g₁ =>
    have hcounters := counters_ensureRel hok
    have hattach := @counters_attachRelationship
      ((g₁.bumpNextRelIdPast g.nextRelId).putRelAtSlot g.nextRelId
        { id := g.nextRelId, src, dst, relType := trim relType, properties })
      { id := g.nextRelId, src, dst, relType := trim relType, properties }
    have hnext : g₁.nextRelId = g.nextRelId := congrArg Prod.snd hcounters
    refine ⟨Or.inl ⟨rfl, ?_⟩, Or.inr ⟨rfl, ?_⟩⟩
    · exact (congrArg Prod.fst hattach).trans (congrArg Prod.fst hcounters)
    · refine (congrArg Prod.snd hattach).trans ?_
      change max g₁.nextRelId (g.nextRelId + 1) = g.nextRelId + 1
      rw [hnext]
      exact Nat.max_eq_right (Nat.le_succ _)

/-- Beside creations and `clear`, mutations leave the counters. -/
theorem mutate_handsOut (h : g.Once) {mutation : StoreMutation} (hclear : mutation ≠ .clear) :
    HandsOut g.nextNodeId (g.mutate mutation).1.nextNodeId (g.mutate mutation).2.nodeId ∧
      HandsOut g.nextRelId (g.mutate mutation).1.nextRelId (g.mutate mutation).2.relId := by
  cases mutation with
  | tryCreateNode labels properties => exact tryCreateNode_handsOut labels properties
  | createRelationship src dst relType properties =>
    exact createRelationship_handsOut src dst relType properties
  | setNodeProperty nodeId key value =>
    refine handsOut_none ?_ rfl rfl
    simp only [mutate, returning, setNodeProperty]
    split
    · rfl
    next hedit => exact (counters_editNodeProperty hedit :)
  | removeNodeProperty nodeId key =>
    refine handsOut_none ?_ rfl rfl
    simp only [mutate, returning, removeNodeProperty]
    split
    next hedit => exact (counters_editNodeProperty hedit :)
    · rfl
  | updateNodeProperties nodeId edits =>
    refine handsOut_none ?_ rfl rfl
    simp only [mutate, returning, updateNodeProperties]
    split
    · rfl
    · simp only [counters_emitEdits]
      split <;> rfl
  | addNodeLabel nodeId label =>
    refine handsOut_none ?_ rfl rfl
    simp only [mutate, returning, addNodeLabel]
    split
    · rfl
    split
    · rfl
    split <;> rfl
  | removeNodeLabel nodeId label =>
    refine handsOut_none ?_ rfl rfl
    simp only [mutate, returning, removeNodeLabel]
    split
    · rfl
    split <;> rfl
  | setRelationshipProperty relId key value =>
    refine handsOut_none ?_ rfl rfl
    simp only [mutate, returning, setRelationshipProperty]
    split
    · rfl
    next hedit => exact (counters_editRelProperty hedit :)
  | removeRelationshipProperty relId key =>
    refine handsOut_none ?_ rfl rfl
    simp only [mutate, returning, removeRelationshipProperty]
    split
    next hedit => exact (counters_editRelProperty hedit :)
    · rfl
  | deleteRelationship relId => exact handsOut_none counters_deleteRelationship rfl rfl
  | deleteRelationships relIds =>
    exact handsOut_none (counters_deleteBatch h deleteRelationshipDeferring_simulates
      (fun g id => counters_deleteRelationship) relIds) rfl rfl
  | deleteNode nodeId => exact handsOut_none counters_deleteNode rfl rfl
  | detachDeleteNode nodeId =>
    refine handsOut_none ?_ rfl rfl
    simp only [mutate, returning]
    rw [detachDeleteNode_eq h]
    exact counters_detachAlone
  | detachDeleteNodes nodeIds =>
    exact handsOut_none (counters_deleteBatch h detachDeleteDeferring_simulates
      (fun g id => counters_detachAlone) nodeIds) rfl rfl
  | clear => exact absurd rfl hclear

/-- What a counter hands out in a run ascends. -/
theorem ascending_of_handsOut {next : InMemoryGraph → ℕ} {handed : Outcome → Option ℕ}
    {mutations : List StoreMutation}
    (hstep : ∀ g mutation, mutation ∈ mutations → g.Intact →
      HandsOut (next g) (next (g.mutate mutation).1) (handed (g.mutate mutation).2))
    (h : g.Intact) :
    ((runSteps mutate g mutations).2.filterMap handed).Pairwise (· < ·) ∧
      ∀ i ∈ (runSteps mutate g mutations).2.filterMap handed, next g ≤ i := by
  induction mutations generalizing g with
  | nil => exact ⟨Pairwise.nil, by simp⟩
  | cons mutation mutations ih =>
    have hlater := fun g m hm => hstep g m (mem_cons_of_mem _ hm)
    obtain ⟨hasc, hge⟩ := ih hlater (h.mutate mutation)
    rw [runSteps_cons]
    rcases hstep g mutation mem_cons_self h with ⟨hnone, hnext⟩ | ⟨hsome, hnext⟩
    · rw [hnext] at hge
      rw [filterMap_cons_none hnone]
      exact ⟨hasc, hge⟩
    · rw [hnext] at hge
      rw [filterMap_cons_some hsome]
      refine ⟨pairwise_cons.mpr ⟨fun i hi => hge i hi, hasc⟩, ?_⟩
      intro i hi
      rcases mem_cons.mp hi with rfl | hi
      · exact le_rfl
      · exact (Nat.le_succ _).trans (hge i hi)

/-! ### Integrity -/

/-- The redundant structures of a graph say what its records say. -/
structure Integrity (g : InMemoryGraph) : Prop where
  /-- Each stored relationship has exactly one entry at each end, naming its type and the other
  end; and both ends exist. -/
  listed : ∀ id record, g.relAt id = some record → ∀ side,
    (∃ node, g.nodeAt (record.endpoint side) = some node) ∧
      ∃ typeId, g.types.names[typeId]? = some record.relType ∧
        (g.list (record.endpoint side) side).filter (fun e => e.rel == id) =
          [⟨typeId, record.farEnd side, id⟩]
  /-- The lists name nothing else. -/
  nothingElse : ∀ node side, ∀ e ∈ g.list node side,
    ∃ record, g.relAt e.rel = some record ∧ record.endpoint side = node
  labels : ∀ label id, id ∈ g.nodesByLabel.ids label ↔
    ∃ record, g.nodeAt id = some record ∧ label ∈ record.labels
  relTypes : ∀ relType id, id ∈ g.relationshipsByType.ids relType ↔
    ∃ record, g.relAt id = some record ∧ record.relType = relType
  noEmptyBucket : (∀ e ∈ g.nodesByLabel.entries, e.2 ≠ ∅) ∧
    ∀ e ∈ g.relationshipsByType.entries, e.2 ≠ ∅
  counts : g.liveNodeCount = g.nodes.count ∧ g.liveRelCount = g.relationships.count
  below : (∀ id record, g.nodeAt id = some record → id < g.nextNodeId) ∧
    ∀ id record, g.relAt id = some record → id < g.nextRelId

theorem Intact.integrity (h : g.Intact) : g.Integrity where
  listed := by
    intro id record hrecord side
    obtain ⟨typeId, htype⟩ := mem_iff_getElem?.mp (h.typed _ _ hrecord)
    have hmem : (⟨typeId, record.farEnd side, id⟩ : AdjEntry) ∈
        g.list (record.endpoint side) side :=
      (h.entries _ _ _).mpr ⟨record, hrecord, rfl, rfl, htype⟩
    exact ⟨h.endpoints _ _ hrecord side, typeId, htype, ListedOnce.filter_eq (h.once _ _) hmem⟩
  nothingElse := by
    intro node side e he
    obtain ⟨record, hrecord, hend, -⟩ := (h.entries _ _ _).mp he
    exact ⟨record, hrecord, hend⟩
  labels := h.labels
  relTypes := h.relTypes
  noEmptyBucket := ⟨g.nodesByLabel.nonempty, g.relationshipsByType.nonempty⟩
  counts := ⟨h.nodeCount, h.relCount⟩
  below := ⟨h.nodesBelow, h.relsBelow⟩

/-- **Integrity.** After every run of mutations from the empty graph the redundant structures
agree with the records; and a stretch of it without a `clear` hands out each identifier once. -/
theorem integrity_of_run (before after : List StoreMutation)
    (hclear : StoreMutation.clear ∉ after) :
    (runSteps mutate new before).1.Integrity ∧
    ((runSteps mutate (runSteps mutate new before).1 after).2.filterMap Outcome.nodeId).Nodup ∧
    ((runSteps mutate (runSteps mutate new before).1 after).2.filterMap Outcome.relId).Nodup := by
  have hintact : (runSteps mutate new before).1.Intact :=
    runSteps_invariant (fun _ mutation _ h => h.mutate mutation) intact_new
  have hne : ∀ mutation ∈ after, mutation ≠ .clear := by
    rintro mutation hmem rfl
    exact hclear hmem
  have hnodes := @ascending_of_handsOut _ nextNodeId Outcome.nodeId after
    (fun g mutation hm h => (mutate_handsOut h.once (hne mutation hm)).1) hintact
  have hrels := @ascending_of_handsOut _ nextRelId Outcome.relId after
    (fun g mutation hm h => (mutate_handsOut h.once (hne mutation hm)).2) hintact
  exact ⟨hintact.integrity, hnodes.1.imp Nat.ne_of_lt, hrels.1.imp Nat.ne_of_lt⟩

theorem integrity_of_run_loop :
    (runSteps mutate new [.tryCreateNode ["A"] .empty, .clear]).1.Integrity ∧
    ((runSteps mutate (runSteps mutate new [.tryCreateNode ["A"] .empty, .clear]).1
      [.tryCreateNode [] .empty, .createRelationship 0 0 "T" .empty]).2.filterMap
        Outcome.nodeId).Nodup ∧
    ((runSteps mutate (runSteps mutate new [.tryCreateNode ["A"] .empty, .clear]).1
      [.tryCreateNode [] .empty, .createRelationship 0 0 "T" .empty]).2.filterMap
        Outcome.relId).Nodup :=
  integrity_of_run _ _ (by decide)

/-- A cleared graph hands its identifiers out again. -/
theorem nodeIds_after_clear : ¬ ((runSteps mutate new
      [.tryCreateNode [] .empty, .clear, .tryCreateNode [] .empty]).2.filterMap
        Outcome.nodeId).Nodup := by
  decide

end InMemoryGraph

end LoraDb
