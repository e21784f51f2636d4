import LoraDb.ChangeBuild
import Mathlib.Data.List.DropRight

/-!
# Replaying What Was Recorded

The events a recorder received, applied one by one to the graph they started from, give the graph
the mutations left: records, slots, lists, buckets and counters alike.

## Main results

* `Intact.logged_mutate`: what one mutation records, replays.
* `replay_recorded`: what a run records, replays.
-/

open List

namespace LoraDb

namespace InMemoryGraph

variable {g g' g₁ g₂ : InMemoryGraph} {id : ℕ}

/-- The graph with nobody watching. -/
def unwatched (g : InMemoryGraph) : InMemoryGraph :=
  { g with recorder := none, deletedSink := none }

/-- From `g` to `g'` the recorder received `events`, and they replay. -/
structure Logged (g g' : InMemoryGraph) (events : List MutationEvent) : Prop where
  recorded : g'.recorder = g.recorder.map (· ++ events)
  replays : ∀ first, replayFrom applyEvent first g.unwatched events = .ok g'.unwatched

theorem Logged.refl (g : InMemoryGraph) : Logged g g [] where
  recorded := by cases g.recorder <;> simp
  replays _ := rfl

theorem Logged.trans {events events' : List MutationEvent} (h : Logged g g₁ events)
    (h' : Logged g₁ g₂ events') : Logged g g₂ (events ++ events') where
  recorded := by
    rw [h'.recorded, h.recorded, Option.map_map]
    refine congrArg (fun f => g.recorder.map f) (funext fun seen => ?_)
    exact append_assoc seen events events'
  replays first := by
    rw [replayFrom_append, h.replays first]
    exact h'.replays _

/-- A change the recorder did not see, and then one event. -/
theorem Logged.emit {event : MutationEvent} (hrecorder : g₁.recorder = g.recorder)
    (happly : ∀ idx, applyEvent g.unwatched idx event = .ok g₁.unwatched) :
    Logged g (g₁.emit event) [event] where
  recorded := by rw [InMemoryGraph.emit, hrecorder]
  replays first := by
    rw [replayFrom, happly first]
    rfl

/-- An event that changes nothing more. -/
theorem Logged.after {events : List MutationEvent} {event : MutationEvent} (h : Logged g g' events)
    (happly : ∀ idx, applyEvent g'.unwatched idx event = .ok g'.unwatched) :
    Logged g (g'.emit event) (events ++ [event]) :=
  h.trans (.emit rfl happly)

/-! ### Names -/

theorem trim_trim (s : String) : trim (trim s) = trim s := by
  have hends : ∀ l : List Char,
      ((l.dropWhile isWhiteSpace).reverse.dropWhile isWhiteSpace).reverse =
        (l.dropWhile isWhiteSpace).rdropWhile isWhiteSpace := fun _ => rfl
  have hhead : ((s.toList.dropWhile isWhiteSpace).rdropWhile isWhiteSpace).dropWhile isWhiteSpace =
      (s.toList.dropWhile isWhiteSpace).rdropWhile isWhiteSpace := by
    rw [dropWhile_eq_self_iff]
    intro hpos
    have hinit := rdropWhile_prefix isWhiteSpace (s.toList.dropWhile isWhiteSpace)
    have hlong := lt_of_lt_of_le hpos hinit.length_le
    rw [hinit.getElem hpos]
    exact dropWhile_get_zero_not _ _ hlong
  rw [trim, trim, String.toList_ofList, hends, hends, hhead, rdropWhile_idempotent]

/-- Labels that are normal already stay as they are. -/
theorem normalize_normal {labels out : List String} (htrim : ∀ label ∈ labels, trim label = label)
    (hname : ∀ label ∈ labels, label ≠ "") (hnodup : (out ++ labels).Nodup) :
    labels.foldl (fun out label =>
      if trim label = "" ∨ trim label ∈ out then out else out ++ [trim label]) out =
        out ++ labels := by
  induction labels generalizing out with
  | nil => exact (append_nil out).symm
  | cons label labels ih =>
    have hnew : label ∉ out := fun hmem =>
      (nodup_append.mp hnodup).2.2 label hmem label mem_cons_self rfl
    have hsplit : out ++ label :: labels = (out ++ [label]) ++ labels := by simp
    rw [foldl_cons, htrim label mem_cons_self,
      if_neg (not_or.mpr ⟨hname label mem_cons_self, hnew⟩), hsplit]
    exact ih (fun l hl => htrim l (mem_cons_of_mem _ hl))
      (fun l hl => hname l (mem_cons_of_mem _ hl)) (hsplit ▸ hnodup)

theorem normalizeLabels_normal (labels : List String) :
    (∀ label ∈ normalizeLabels labels, trim label = label ∧ label ≠ "") ∧
      (normalizeLabels labels).Nodup := by
  refine foldlRecOn (motive := fun out : List String =>
    (∀ label ∈ out, trim label = label ∧ label ≠ "") ∧ out.Nodup) labels _
      ⟨by simp, nodup_nil⟩ fun out hout label _ => ?_
  split_ifs with hskip
  · exact hout
  · obtain ⟨hname, hnew⟩ := not_or.mp hskip
    refine ⟨fun l hl => ?_, nodup_append.mpr ⟨hout.2, nodup_singleton _, ?_⟩⟩
    · rcases mem_append.mp hl with hl | hl
      · exact hout.1 l hl
      · rw [mem_singleton.mp hl]
        exact ⟨trim_trim label, hname⟩
    · rintro a ha b hb rfl
      exact hnew (mem_singleton.mp hb ▸ ha)

theorem normalizeLabels_idem (labels : List String) :
    normalizeLabels (normalizeLabels labels) = normalizeLabels labels := by
  obtain ⟨hnormal, hnodup⟩ := normalizeLabels_normal labels
  have hfold := normalize_normal (fun l hl => (hnormal l hl).1) (fun l hl => (hnormal l hl).2)
    (show ([] ++ normalizeLabels labels).Nodup from hnodup)
  exact hfold

/-! ### Creating -/

theorem ensureNode_unwatched :
    g.unwatched.ensureNodeSlotChecked id = (g.ensureNodeSlotChecked id).map unwatched := by
  unfold ensureNodeSlotChecked
  cases slotLenForId id "node" with
  | error e => rfl
  | ok target =>
    have hlen : g.unwatched.nodes.len = g.nodes.len := rfl
    simp only [bind, Except.bind, hlen]
    split_ifs <;> rfl

theorem ensureRel_unwatched :
    g.unwatched.ensureRelSlotChecked id = (g.ensureRelSlotChecked id).map unwatched := by
  unfold ensureRelSlotChecked
  cases slotLenForId id "relationship" with
  | error e => rfl
  | ok target =>
    have hlen : g.unwatched.relationships.len = g.relationships.len := rfl
    simp only [bind, Except.bind, hlen]
    split_ifs <;> rfl

variable {record : NodeRecord}

theorem onNodeCreated_unwatched :
    g.unwatched.onNodeCreated record = (g.onNodeCreated record).unwatched := by
  rw [onNodeCreated_eq, onNodeCreated_eq]
  rfl

theorem adjacencyPush_unwatched {side : Side} {entry : AdjEntry} :
    g.unwatched.adjacencyPush id side entry = (g.adjacencyPush id side entry).unwatched := by
  rw [adjacencyPush, adjacencyPush, ensureNode_unwatched]
  cases g.ensureNodeSlotChecked id <;> rfl

theorem adjacencyPush_recorder {side : Side} {entry : AdjEntry} :
    (g.adjacencyPush id side entry).recorder = g.recorder := by
  rw [adjacencyPush]
  cases hok : g.ensureNodeSlotChecked id with
  | error e => rfl
  | ok g₁ => exact (ensureNodeSlotChecked_ok hok).1.recorder

theorem attachRelationship_pushes (g : InMemoryGraph) (record : RelationshipRecord) :
    g.attachRelationship record = ((((g.numberType record.relType).adjacencyPush record.src .out
      ⟨(g.types.idOrInsert record.relType).2, record.dst, record.id⟩).adjacencyPush
        record.dst .into ⟨(g.types.idOrInsert record.relType).2, record.src, record.id⟩)
      ).insertRelationshipTypeIndex record.id record.relType := rfl

theorem attachRelationship_unwatched {record : RelationshipRecord} :
    g.unwatched.attachRelationship record = (g.attachRelationship record).unwatched := by
  have hnumber : g.unwatched.numberType record.relType =
      (g.numberType record.relType).unwatched := rfl
  rw [attachRelationship_pushes, attachRelationship_pushes, hnumber, adjacencyPush_unwatched,
    adjacencyPush_unwatched]
  rfl

theorem attachRelationship_recorder {record : RelationshipRecord} :
    (g.attachRelationship record).recorder = g.recorder := by
  have hindex : ∀ g : InMemoryGraph,
      (g.insertRelationshipTypeIndex record.id record.relType).recorder = g.recorder := fun _ => rfl
  rw [attachRelationship_pushes, hindex, adjacencyPush_recorder, adjacencyPush_recorder]
  rfl

variable {properties : PropertyMap}

/-- A creation under a free identifier replays. -/
theorem replayCreateNode_eq {labels : List String}
    (hfree : g.hasNodeAt id = false) (hok : g.ensureNodeSlotChecked id = .ok g₁) :
    g.unwatched.replayCreateNode id labels properties =
      .ok (((g₁.bumpNextNodeIdPast id).putNodeAtSlot id
        ⟨id, normalizeLabels labels, properties⟩).onNodeCreated
          ⟨id, normalizeLabels labels, properties⟩).unwatched := by
  have hfree' : g.unwatched.hasNodeAt id = false := hfree
  simp only [replayCreateNode, ensureNode_unwatched, hok, hfree', ← onNodeCreated_unwatched]
  rfl

theorem replayCreateRelationship_eq {src dst : NodeId} {relType : String}
    (hfree : g.hasRelAt id = false) (hsrc : g.hasNodeAt src = true)
    (hdst : g.hasNodeAt dst = true) (htype : trim relType ≠ "")
    (hok : g.ensureRelSlotChecked id = .ok g₁) :
    g.unwatched.replayCreateRelationship id src dst relType properties =
      .ok (((g₁.bumpNextRelIdPast id).putRelAtSlot id
        ⟨id, src, dst, trim relType, properties⟩).attachRelationship
          ⟨id, src, dst, trim relType, properties⟩).unwatched := by
  have hfree' : g.unwatched.hasRelAt id = false := hfree
  have hsrc' : g.unwatched.hasNodeAt src = true := hsrc
  have hdst' : g.unwatched.hasNodeAt dst = true := hdst
  simp only [replayCreateRelationship, ensureRel_unwatched, hok, hfree', hsrc', hdst', htype,
    ← attachRelationship_unwatched]
  rfl

theorem Intact.logged_tryCreateNode (h : g.Intact) (labels : List String)
    (properties : PropertyMap) :
    ∃ events, Logged g (g.tryCreateNode labels properties).1 events := by
  simp only [InMemoryGraph.tryCreateNode, tryReserveNextNodeSlot]
  cases hok : g.ensureNodeSlotChecked g.nextNodeId with
  | error e => exact ⟨[], .refl g⟩
  | ok g₁ =>
    have hfree : g.hasNodeAt g.nextNodeId = false := hasNodeAt_eq_false.mpr <| by
      cases hrecord : g.nodeAt g.nextNodeId with
      | none => rfl
      | some record => exact absurd (h.nodesBelow _ _ hrecord) (Nat.lt_irrefl _)
    refine ⟨_, .emit ?_ fun idx => ?_⟩
    · simp only [onNodeCreated_eq]
      exact (ensureNodeSlotChecked_ok hok).1.recorder
    · rw [applyEvent, replayCreateNode_eq hfree hok, normalizeLabels_idem]
      rfl

theorem Intact.logged_createRelationship (h : g.Intact) (src dst : NodeId) (relType : String)
    (properties : PropertyMap) :
    ∃ events, Logged g (g.createRelationship src dst relType properties).1 events := by
  simp only [InMemoryGraph.createRelationship, tryReserveNextRelSlot]
  split_ifs with hends htype
  · exact ⟨[], .refl g⟩
  · exact ⟨[], .refl g⟩
  · cases hok : g.ensureRelSlotChecked g.nextRelId with
    | error e => exact ⟨[], .refl g⟩
    | ok g₁ =>
      have hfree : g.hasRelAt g.nextRelId = false := hasRelAt_eq_false.mpr <| by
        cases hrecord : g.relAt g.nextRelId with
        | none => rfl
        | some record => exact absurd (h.relsBelow _ _ hrecord) (Nat.lt_irrefl _)
      rw [Bool.or_eq_true, Bool.not_eq_true', Bool.not_eq_true', not_or, Bool.not_eq_false,
        Bool.not_eq_false] at hends
      have htype' : trim (trim relType) ≠ "" := (trim_trim relType).symm ▸ htype
      refine ⟨_, .emit ?_ fun idx => ?_⟩
      · rw [attachRelationship_recorder]
        exact (ensureRelSlotChecked_ok hok).1.recorder
      · rw [applyEvent, replayCreateRelationship_eq hfree hends.1 hends.2 htype' hok, trim_trim]
        rfl

/-! ### Editing -/

/-- A mutation that does nothing, or tells one event that does the same again. -/
theorem logged_of_told (mutation : InMemoryGraph → InMemoryGraph × Bool) (event : MutationEvent)
    {message : ℕ → String}
    (happly : ∀ g idx, applyEvent g idx event = orMissing g (message idx) (mutation g))
    (h : mutation g = (g, false) ∨ ∃ g₁ : InMemoryGraph, mutation g = (g₁.emit event, true) ∧
      g₁.recorder = g.recorder ∧ mutation g.unwatched = (g₁.unwatched, true)) :
    ∃ events, Logged g (mutation g).1 events := by
  obtain hidle | ⟨g₁, htold, hrecorder, hsame⟩ := h
  · rw [hidle]
    exact ⟨[], .refl g⟩
  · rw [htold]
    refine ⟨[event], .emit hrecorder fun idx => ?_⟩
    rw [happly, hsame]
    rfl

theorem nodeAt_unwatched : g.unwatched.nodeAt id = g.nodeAt id := rfl

theorem relAt_unwatched : g.unwatched.relAt id = g.relAt id := rfl

theorem logged_setNodeProperty (key : String) (value : PropertyValue) :
    ∃ events, Logged g (g.setNodeProperty id key value).1 events := by
  refine logged_of_told (·.setNodeProperty id key value) (.setNodeProperty id key value)
    (fun _ _ => rfl) ?_
  simp only [setNodeProperty, editNodeProperty, editProperty, nodeAt_unwatched]
  cases g.nodeAt id with
  | none => exact .inl rfl
  | some node => exact .inr ⟨_, rfl, rfl, rfl⟩

theorem logged_setRelationshipProperty (key : String) (value : PropertyValue) :
    ∃ events, Logged g (g.setRelationshipProperty id key value).1 events := by
  refine logged_of_told (·.setRelationshipProperty id key value)
    (.setRelationshipProperty id key value) (fun _ _ => rfl) ?_
  simp only [setRelationshipProperty, editRelProperty, editProperty, relAt_unwatched]
  cases g.relAt id with
  | none => exact .inl rfl
  | some rel => exact .inr ⟨_, rfl, rfl, rfl⟩

theorem logged_removeNodeProperty (key : String) :
    ∃ events, Logged g (g.removeNodeProperty id key).1 events := by
  refine logged_of_told (·.removeNodeProperty id key) (.removeNodeProperty id key)
    (fun _ _ => rfl) ?_
  simp only [removeNodeProperty, editNodeProperty, editProperty, nodeAt_unwatched]
  cases g.nodeAt id with
  | none => exact .inl rfl
  | some node =>
    simp only
    cases node.properties.get key with
    | none => exact .inl rfl
    | some old => exact .inr ⟨_, rfl, rfl, rfl⟩

theorem logged_removeRelationshipProperty (key : String) :
    ∃ events, Logged g (g.removeRelationshipProperty id key).1 events := by
  refine logged_of_told (·.removeRelationshipProperty id key) (.removeRelationshipProperty id key)
    (fun _ _ => rfl) ?_
  simp only [removeRelationshipProperty, editRelProperty, editProperty, relAt_unwatched]
  cases g.relAt id with
  | none => exact .inl rfl
  | some rel =>
    simp only
    cases rel.properties.get key with
    | none => exact .inl rfl
    | some old => exact .inr ⟨_, rfl, rfl, rfl⟩

theorem logged_addTrimmed {label : String} (htrim : trim label = label) :
    ∃ events, Logged g (g.addNodeLabel id label).1 events := by
  refine logged_of_told (·.addNodeLabel id label) (.addNodeLabel id label) (fun _ _ => rfl) ?_
  simp only [addNodeLabel, htrim, nodeAt_unwatched]
  by_cases hname : label = ""
  · simp only [if_pos hname]
    exact .inl trivial
  · simp only [if_neg hname]
    cases g.nodeAt id with
    | none => exact .inl rfl
    | some node =>
      by_cases hlabel : label ∈ node.labels
      · simp only [if_pos hlabel]
        exact .inl trivial
      · simp only [if_neg hlabel]
        exact .inr ⟨_, rfl, rfl, rfl⟩

/-- The event tells the label trimmed. -/
theorem logged_addNodeLabel (label : String) :
    ∃ events, Logged g (g.addNodeLabel id label).1 events := by
  have hsame : g.addNodeLabel id label = g.addNodeLabel id (trim label) := by
    simp only [addNodeLabel, trim_trim]
  rw [hsame]
  exact logged_addTrimmed (trim_trim label)

theorem logged_removeNodeLabel (label : String) :
    ∃ events, Logged g (g.removeNodeLabel id label).1 events := by
  refine logged_of_told (·.removeNodeLabel id label) (.removeNodeLabel id label) (fun _ _ => rfl) ?_
  simp only [removeNodeLabel, nodeAt_unwatched]
  cases g.nodeAt id with
  | none => exact .inl rfl
  | some node =>
    by_cases hlabel : label ∈ node.labels
    · simp only [if_pos hlabel]
      exact .inr ⟨_, rfl, rfl, rfl⟩
    · simp only [if_neg hlabel]
      exact .inl trivial

/-- The graph with a node's properties rewritten. -/
def withProperties (g : InMemoryGraph) (id : NodeId) (node : NodeRecord)
    (properties : PropertyMap) : InMemoryGraph :=
  { g with nodes := g.nodes.set id { node with properties } }

variable {node : NodeRecord}

theorem withProperties_twice {properties properties' : PropertyMap} :
    (g.withProperties id node properties).withProperties id { node with properties } properties' =
      g.withProperties id node properties' := by
  simp only [withProperties, Slots.set, set_set]

theorem nodeAt_withProperties (hnode : g.nodeAt id = some node) :
    (g.withProperties id node properties).nodeAt id = some { node with properties } := by
  have hid : node.id = id := nodeAt_id hnode
  have hset := nodeAt_set (lt_of_nodeAt hnode)
    (show ({ node with properties } : NodeRecord).id = id from hid) id
  rw [withProperties, hset, if_pos rfl]

variable {edits : List (String × Option PropertyValue)}

/-- Edits of which none finds anything leave the properties alone. -/
theorem editProperties_idle (h : (editProperties properties edits).2.any Option.isSome = false) :
    (editProperties properties edits).1 = properties := by
  induction edits with
  | nil => rfl
  | cons edit edits ih =>
    obtain ⟨key, value⟩ := edit
    simp only [editProperties] at h ⊢
    cases hedit : editProperty properties key (value.elim .remove .set) with
    | none =>
      simp only [hedit, any_cons, Option.isSome_none, Bool.false_or] at h ⊢
      exact ih h
    | some edited =>
      simp only [hedit, any_cons, Option.isSome_some, Bool.true_or] at h
      cases h

/-- What the graph holds after the edits of one statement. -/
def edited (g : InMemoryGraph) (id : NodeId) (node : NodeRecord)
    (edits : List (String × Option PropertyValue)) : InMemoryGraph :=
  if (editProperties node.properties edits).2.any Option.isSome then
    g.withProperties id node (editProperties node.properties edits).1
  else g

/-- Past its first edit that changed something, a statement's edits are those of the node that
edit left. -/
theorem edited_cons {key : String} {value : Option PropertyValue} {old : Option PropertyValue}
    (hedit : editProperty node.properties key (value.elim .remove .set) = some (properties, old)) :
    g.edited id node ((key, value) :: edits) =
      (g.withProperties id node properties).edited id { node with properties } edits := by
  simp only [edited, editProperties, hedit, any_cons, Option.isSome_some, Bool.true_or, if_true]
  split_ifs with hany
  · exact withProperties_twice.symm
  · rw [editProperties_idle (Bool.eq_false_iff.mpr hany)]

/-- The edits of one statement, told one by one, replay. -/
theorem logged_edits (hnode : g.nodeAt id = some node) :
    ∃ events, Logged g (emitEdits id (g.edited id node edits)
      (edits.zip (editProperties node.properties edits).2)) events := by
  induction edits generalizing g node with
  | nil => exact ⟨[], .refl g⟩
  | cons edit edits ih =>
    obtain ⟨key, value⟩ := edit
    cases hedit : editProperty node.properties key (value.elim .remove .set) with
    | none =>
      -- Nothing to remove: nothing is told.
      have hedited : g.edited id node ((key, value) :: edits) = g.edited id node edits := by
        simp only [edited, editProperties, hedit, any_cons, Option.isSome_none, Bool.false_or]
      rw [hedited]
      simp only [editProperties, hedit, zip_cons_cons, emitEdits]
      exact ih hnode
    | some found =>
      obtain ⟨properties, old⟩ := found
      rw [edited_cons hedit]
      simp only [editProperties, hedit, zip_cons_cons]
      have hrest : ∀ event, Logged g ((g.withProperties id node properties).emit event) [event] →
          ∃ events, Logged g (emitEdits id
            (((g.withProperties id node properties).edited id { node with properties }
              edits).emit event) (edits.zip (editProperties properties edits).2)) events := by
        intro event hevent
        have hemit : ((g.withProperties id node properties).edited id { node with properties }
            edits).emit event = ((g.withProperties id node properties).emit event).edited id
              { node with properties } edits := by
          simp only [edited]
          split_ifs <;> rfl
        obtain ⟨events, hevents⟩ := @ih ((g.withProperties id node properties).emit event)
          { node with properties } (nodeAt_withProperties hnode)
        rw [hemit]
        exact ⟨_, hevent.trans hevents⟩
      have hrecord : g.unwatched.nodeAt id = some node := hnode
      cases value with
      | none =>
        refine hrest _ (.emit rfl fun idx => ?_)
        simp only [Option.elim, editProperty] at hedit
        cases hget : node.properties.get key with
        | none =>
          rw [hget] at hedit
          cases hedit
        | some previous =>
          rw [hget] at hedit
          cases hedit
          simp only [applyEvent, removeNodeProperty, editNodeProperty, hrecord, editProperty, hget]
          rfl
      | some value =>
        refine hrest _ (.emit rfl fun idx => ?_)
        cases hedit
        simp only [applyEvent, setNodeProperty, editNodeProperty, hrecord, editProperty]
        rfl

theorem logged_updateNodeProperties (edits : List (String × Option PropertyValue)) :
    ∃ events, Logged g (g.updateNodeProperties id edits).1 events := by
  rw [updateNodeProperties]
  cases hnode : g.nodeAt id with
  | none => exact ⟨[], .refl g⟩
  | some node => exact logged_edits hnode

/-! ### Deleting -/

theorem deleteRelationship_unwatched : g.unwatched.deleteRelationship id =
    ((g.deleteRelationship id).1.unwatched, (g.deleteRelationship id).2) := by
  have hrecord : g.unwatched.relAt id = g.relAt id := rfl
  cases hrel : g.relAt id with
  | none => rw [deleteRelationship_of_none hrel, deleteRelationship_of_none (hrecord.trans hrel)]
  | some record =>
    rw [deleteRelationship_of_some hrel, deleteRelationship_of_some (hrecord.trans hrel)]
    rfl

theorem logged_deleteRelationship : ∃ events, Logged g (g.deleteRelationship id).1 events := by
  refine logged_of_told (·.deleteRelationship id) (.deleteRelationship id) (fun _ _ => rfl) ?_
  simp only [deleteRelationship_unwatched]
  cases hrel : g.relAt id with
  | none => exact .inl (deleteRelationship_of_none hrel)
  | some record =>
    rw [deleteRelationship_of_some hrel]
    exact .inr ⟨_, rfl, rfl, rfl⟩

/-- A mutation that keeps the graph intact and tells what replays, over a list. -/
theorem Intact.logged_runSteps {step : InMemoryGraph → ℕ → InMemoryGraph × Bool}
    (hintact : ∀ (g : InMemoryGraph) id, g.Intact → (step g id).1.Intact)
    (hstep : ∀ (g : InMemoryGraph) id, g.Intact → ∃ events, Logged g (step g id).1 events)
    (h : g.Intact) (ids : List ℕ) : ∃ events, Logged g (runSteps step g ids).1 events := by
  induction ids generalizing g with
  | nil => exact ⟨[], .refl g⟩
  | cons id ids ih =>
    obtain ⟨events, hevents⟩ := hstep g id h
    obtain ⟨events', hevents'⟩ := ih (hintact g id h)
    rw [runSteps_cons]
    exact ⟨_, hevents.trans hevents'⟩

theorem dropNode_unwatched : g.unwatched.dropNode id record = (g.dropNode id record).unwatched := by
  rw [dropNode, dropNode, onNodeDeleted_eq, onNodeDeleted_eq]
  rfl

theorem dropNode_recorder : (g.dropNode id record).recorder = g.recorder := by
  rw [dropNode, onNodeDeleted_eq]
  rfl

/-- Dropping an isolated node replays. -/
theorem logged_dropNode (hrecord : g.nodeAt id = some record)
    (hlists : ∀ side, g.list id side = []) :
    Logged g ((g.dropNode id record).emit (.deleteNode id)) [.deleteNode id] := by
  refine .emit dropNode_recorder fun idx => ?_
  have hrecord' : g.unwatched.nodeAt id = some record := hrecord
  have hlists' : ∀ side, g.unwatched.list id side = [] := hlists
  rw [applyEvent, deleteNode_of_isolated hrecord' hlists', dropNode_unwatched]
  rfl

theorem logged_deleteNode : ∃ events, Logged g (g.deleteNode id).1 events := by
  cases hrecord : g.nodeAt id with
  | none =>
    have hnode : g.hasNodeAt id = false := hasNodeAt_eq_false.mpr hrecord
    refine ⟨[], ?_⟩
    simp only [deleteNode, hnode]
    exact .refl g
  | some record =>
    by_cases hlists : ∀ side, g.list id side = []
    · rw [deleteNode_of_isolated hrecord hlists]
      exact ⟨_, logged_dropNode hrecord hlists⟩
    · have hnode : g.hasNodeAt id = true := hasNodeAt_iff.mpr ⟨record, hrecord⟩
      have hincident : g.hasIncidentRelationships id = true := by
        by_contra hnone
        simp only [hasIncidentRelationships, Bool.or_eq_true, Bool.not_eq_true', not_or,
          Bool.not_eq_false, List.isEmpty_iff] at hnone
        exact hlists fun side => by
          cases side with
          | out => exact hnone.1
          | into => exact hnone.2
      refine ⟨[], ?_⟩
      simp only [deleteNode, hnode, hincident]
      exact .refl g

/-- Detaching a node that is gone does nothing. -/
theorem Intact.detach_gone (h : g.Intact) (hgone : g.nodeAt id = none) :
    (g.unwatched.detachDeleteNode id).1 = g.unwatched := by
  have hgone' : g.unwatched.nodeAt id = none := hgone
  have honce : g.unwatched.Once := (h.watch none none).once
  rw [detachDeleteNode_eq honce, InMemoryGraph.detachAlone, detachDeleteDeferring_of_none hgone']

/-- A detach delete tells its relationships, its node and itself, which finds the node
gone. -/
theorem Intact.logged_detachAlone (h : g.Intact) :
    ∃ events, Logged g (g.detachAlone id).1 events := by
  rw [InMemoryGraph.detachAlone]
  cases hrecord : g.nodeAt id with
  | none =>
    rw [detachDeleteDeferring_of_none hrecord]
    exact ⟨[], .refl g⟩
  | some record =>
    rw [detachDeleteDeferring_of_some hrecord, deleteIncident_none, runSteps_clearAdjacency]
    obtain ⟨events, hevents⟩ := h.logged_runSteps (fun g id hg => hg.deleteRelationship)
      (fun g id _ => logged_deleteRelationship) (g.incidentRelationshipIds id)
    have hlists := fun side => @list_runSteps g id side h
    have hnodes := @deleteIncident_nodes (g.incidentRelationshipIds id) (g, none)
    rw [deleteIncident_none] at hnodes
    have hrecord' := hrecord
    rw [nodeAt, ← hnodes] at hrecord'
    have hclear : InMemoryGraph.clearAdjacency
        (runSteps InMemoryGraph.deleteRelationship g (g.incidentRelationshipIds id)).1 id =
          (runSteps InMemoryGraph.deleteRelationship g (g.incidentRelationshipIds id)).1 := by
      refine eq_of_lists rfl ?_ ?_
      · simp [clearAdjacency, editAdjacency]
      · intro node' side
        rw [list_clearAdjacency]
        split
        next hnode => rw [hnode, hlists]
        next => rfl
    rw [hclear]
    have hdrop := hevents.trans (logged_dropNode hrecord' hlists)
    have hintact : Intact
        (runSteps InMemoryGraph.deleteRelationship g (g.incidentRelationshipIds id)).1 :=
      runSteps_invariant (fun _ _ _ hg => hg.deleteRelationship) h
    refine ⟨_, hdrop.after fun idx => ?_⟩
    have hgone := @nodeAt_dropNode (runSteps InMemoryGraph.deleteRelationship g
      (g.incidentRelationshipIds id)).1 id record id
    rw [if_pos rfl] at hgone
    exact congrArg Except.ok
      (((hintact.dropNode hrecord' hlists).emit (.deleteNode id)).detach_gone hgone)

theorem logged_clear : ∃ events, Logged g g.clear events :=
  ⟨[.clear], rfl, fun _ => rfl⟩

/-! ### Runs -/

/-- What one mutation records, replays. -/
theorem Intact.logged_mutate (h : g.Intact) (mutation : StoreMutation) :
    ∃ events, Logged g (g.mutate mutation).1 events := by
  cases mutation with
  | tryCreateNode labels properties => exact h.logged_tryCreateNode labels properties
  | createRelationship src dst relType properties =>
    exact h.logged_createRelationship src dst relType properties
  | setNodeProperty nodeId key value => exact logged_setNodeProperty key value
  | removeNodeProperty nodeId key => exact logged_removeNodeProperty key
  | updateNodeProperties nodeId edits => exact logged_updateNodeProperties edits
  | addNodeLabel nodeId label => exact logged_addNodeLabel label
  | removeNodeLabel nodeId label => exact logged_removeNodeLabel label
  | setRelationshipProperty relId key value => exact logged_setRelationshipProperty key value
  | removeRelationshipProperty relId key => exact logged_removeRelationshipProperty key
  | deleteRelationship relId => exact logged_deleteRelationship
  | deleteRelationships relIds =>
    have hbatch := deleteBatch_eq deleteRelationshipDeferring_simulates h.once relIds
    change ∃ events, Logged g (g.deleteRelationships relIds).1 events
    rw [deleteRelationships, hbatch]
    exact h.logged_runSteps (fun _ _ hg => hg.deleteRelationship)
      (fun _ _ _ => logged_deleteRelationship) relIds
  | deleteNode nodeId => exact logged_deleteNode
  | detachDeleteNode nodeId =>
    change ∃ events, Logged g (g.detachDeleteNode nodeId).1 events
    rw [detachDeleteNode_eq h.once]
    exact h.logged_detachAlone
  | detachDeleteNodes nodeIds =>
    have hbatch := deleteBatch_eq detachDeleteDeferring_simulates h.once nodeIds
    change ∃ events, Logged g (g.detachDeleteNodes nodeIds).1 events
    rw [detachDeleteNodes, hbatch]
    exact h.logged_runSteps (fun _ _ hg => hg.detachAlone)
      (fun _ _ hg => hg.logged_detachAlone) nodeIds
  | clear => exact logged_clear

/-- What a run of mutations records, replays. -/
theorem Intact.logged_run (h : g.Intact) (mutations : List StoreMutation) :
    ∃ events, Logged g (runSteps InMemoryGraph.mutate g mutations).1 events := by
  induction mutations generalizing g with
  | nil => exact ⟨[], .refl g⟩
  | cons mutation mutations ih =>
    obtain ⟨events, hevents⟩ := h.logged_mutate mutation
    obtain ⟨events', hevents'⟩ := ih (h.mutate mutation)
    rw [runSteps_cons]
    exact ⟨_, hevents.trans hevents'⟩

/-- **What was recorded replays.** The events of a run from any reachable graph, applied to a copy
of that graph, give the graph the run left. -/
theorem replay_recorded (h : Reachable g) (mutations : List StoreMutation) :
    ∃ events, (runSteps mutate { g with recorder := some [] } mutations).1.recorder = some events ∧
      ∀ first, replayFrom applyEvent first { g with recorder := none, deletedSink := none } events =
        .ok { (runSteps mutate { g with recorder := some [] } mutations).1 with
          recorder := none, deletedSink := none } := by
  obtain ⟨events, hevents⟩ := (h.intact.watch (some []) g.deletedSink).logged_run mutations
  exact ⟨events, hevents.recorded, hevents.replays⟩

/-- A node with a self-loop, detached: three events tell of it. -/
theorem replay_recorded_loop : ∃ events, (runSteps mutate { new with recorder := some [] }
        [.tryCreateNode ["A"] .empty, .createRelationship 0 0 "R" .empty,
          .detachDeleteNode 0]).1.recorder = some events ∧
      ∀ first, replayFrom applyEvent first { new with recorder := none, deletedSink := none }
        events = .ok { (runSteps mutate { new with recorder := some [] }
          [.tryCreateNode ["A"] .empty, .createRelationship 0 0 "R" .empty,
            .detachDeleteNode 0]).1 with recorder := none, deletedSink := none } :=
  replay_recorded .new _

end InMemoryGraph

end LoraDb
