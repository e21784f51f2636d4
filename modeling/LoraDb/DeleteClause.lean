import LoraDb.GraphRuns
import LoraDb.LoraValue
import Mathlib.Data.Finset.Sort

/-!
# The DELETE Clause

The clause collects what its expressions name, over all rows, validates the whole set and only
then deletes it: relationships first, then nodes, each in a batch. Expressions are functions of
the graph and the row; which they are does not matter here.

## Main results

* `validate_iff`: what validation accepts.
* `deleteTargets_deleted`: what was validated is deleted, and nothing else.
* `delete_all_or_nothing`: the clause fails and leaves the graph as it was, or deletes what is
  named, whatever the order.
-/

open List

namespace LoraDb

/-- A value's kind, as errors name it. -/
def valueKind : LoraValue → String
  | .null => "null"
  | .bool _ => "bool"
  | .int _ => "int"
  | .float _ => "float"
  | .string _ => "string"
  | .binary _ => "binary"
  | .list _ => "list"
  | .map _ => "map"
  | .node _ => "node"
  | .relationship _ => "relationship"
  | .path _ => "path"
  | .date _ => "date"
  | .time _ => "time"
  | .localTime _ => "localtime"
  | .dateTime _ => "datetime"
  | .localDateTime _ => "localdatetime"
  | .duration _ => "duration"
  | .point _ => "point"
  | .vector _ => "vector"

/-- An entity to delete. Nodes come before relationships. -/
inductive DeleteTarget where
  | node (id : NodeId)
  | relationship (id : RelationshipId)
deriving DecidableEq

inductive DeleteError where
  | eval (message : String)
  | invalidDeleteTarget (found : String)
  | deleteRelationshipFailed (relId : RelationshipId)
  | deleteNodeWithRelationships (nodeId : NodeId)

/-- The entities a clause has collected. -/
abbrev DeleteTargets := Finset DeleteTarget

namespace DeleteTargets

def nodeIds (targets : DeleteTargets) : List NodeId :=
  (targets.filterMap (fun t => match t with | .node id => some id | .relationship _ => none)
    (by rintro (a | a) (b | b) c hc hc' <;> simp_all)).sort

def relIds (targets : DeleteTargets) : List RelationshipId :=
  (targets.filterMap (fun t => match t with | .node _ => none | .relationship id => some id)
    (by rintro (a | a) (b | b) c hc hc' <;> simp_all)).sort

/-- The targets in order. -/
def inOrder (targets : DeleteTargets) : List DeleteTarget :=
  targets.nodeIds.map .node ++ targets.relIds.map .relationship

end DeleteTargets

mutual

/-- The entities a value names: itself, or those of its elements at any depth. -/
def collectDeleteTargets (targets : DeleteTargets) : LoraValue → Except DeleteError DeleteTargets
  | .null => .ok targets
  | .node id => .ok (insert (.node id) targets)
  | .relationship id => .ok (insert (.relationship id) targets)
  | .list values => collectDeleteList targets values
  | other => .error (.invalidDeleteTarget (valueKind other))

def collectDeleteList (targets : DeleteTargets) : List LoraValue → Except DeleteError DeleteTargets
  | [] => .ok targets
  | v :: values =>
    match collectDeleteTargets targets v with
    | .error e => .error e
    | .ok targets => collectDeleteList targets values

end

namespace InMemoryGraph

variable (g : InMemoryGraph)

def validateDeleteTarget (targets : DeleteTargets) (detach : Bool) :
    DeleteTarget → Except DeleteError Unit
  | .relationship relId =>
    if g.hasRelAt relId then .ok () else .error (.deleteRelationshipFailed relId)
  | .node nodeId =>
    if detach then .ok ()
    else if !g.hasNodeAt nodeId then .error (.deleteNodeWithRelationships nodeId)
    else if (g.incidentRelationshipIds nodeId).any fun relId => .relationship relId ∉ targets then
      .error (.deleteNodeWithRelationships nodeId)
    else .ok ()

def validateDeleteTargets (targets : DeleteTargets) (detach : Bool) : Except DeleteError Unit :=
  targets.inOrder.forM (g.validateDeleteTarget targets detach)

/-- Nodes deleted one by one, up to one that cannot be. -/
def deleteNodes : InMemoryGraph → List NodeId → InMemoryGraph × Except DeleteError Unit
  | g, [] => (g, .ok ())
  | g, nodeId :: nodeIds =>
    match g.deleteNode nodeId with
    | (g, true) => deleteNodes g nodeIds
    | (g, false) => (g, .error (.deleteNodeWithRelationships nodeId))

def deleteTargets (targets : DeleteTargets) (detach : Bool) :
    InMemoryGraph × Except DeleteError Unit :=
  let (g, _) := g.deleteRelationships targets.relIds
  if detach then ((g.detachDeleteNodes targets.nodeIds).1, .ok ())
  else g.deleteNodes targets.nodeIds

section

variable {E R : Type} (eval : InMemoryGraph → E → R → Except String LoraValue)

/-- What the expressions name on one row. -/
def collectRow (row : R) (targets : DeleteTargets) : List E → Except DeleteError DeleteTargets
  | [] => .ok targets
  | e :: expressions =>
    match eval g e row with
    | .error message => .error (.eval message)
    | .ok v =>
      match collectDeleteTargets targets v with
      | .error e => .error e
      | .ok targets => collectRow row targets expressions

def collectRows (expressions : List E) (targets : DeleteTargets) :
    List R → Except DeleteError DeleteTargets
  | [] => .ok targets
  | row :: rows =>
    match g.collectRow eval row targets expressions with
    | .error e => .error e
    | .ok targets => collectRows expressions targets rows

/-- Delete what the expressions name on the rows, and return the rows. -/
def execDelete (expressions : List E) (detach : Bool) (rows : List R) :
    InMemoryGraph × Except DeleteError (List R) :=
  match g.collectRows eval expressions ∅ rows with
  | .error e => (g, .error e)
  | .ok targets =>
    match g.validateDeleteTargets targets detach with
    | .error e => (g, .error e)
    | .ok () =>
      let (g, deleted) := g.deleteTargets targets detach
      (g, deleted.map fun _ => rows)

end

end InMemoryGraph

/-! ### What a clause names -/

/-- A value names an entity. -/
inductive NamesTarget : LoraValue → DeleteTarget → Prop
  | node (id : NodeId) : NamesTarget (.node id) (.node id)
  | relationship (id : RelationshipId) : NamesTarget (.relationship id) (.relationship id)
  | list {values : List LoraValue} {v : LoraValue} {t : DeleteTarget} (hv : v ∈ values)
      (h : NamesTarget v t) : NamesTarget (.list values) t

/-- Entities, nulls and lists of these. -/
inductive Deletable : LoraValue → Prop
  | null : Deletable .null
  | node (id : NodeId) : Deletable (.node id)
  | relationship (id : RelationshipId) : Deletable (.relationship id)
  | list {values : List LoraValue} (h : ∀ v ∈ values, Deletable v) : Deletable (.list values)

theorem collectDeleteTargets_ok {v : LoraValue} (h : Deletable v) (targets : DeleteTargets) :
    ∃ targets', collectDeleteTargets targets v = .ok targets' ∧
      ∀ t, t ∈ targets' ↔ t ∈ targets ∨ NamesTarget v t := by
  induction h generalizing targets with
  | null => exact ⟨targets, rfl, fun t => ⟨Or.inl, fun h => h.elim id fun h => nomatch h⟩⟩
  | node id =>
    refine ⟨_, rfl, fun t => ?_⟩
    rw [Finset.mem_insert, or_comm]
    exact or_congr_right ⟨fun h => h ▸ .node id, fun h => by cases h; rfl⟩
  | relationship id =>
    refine ⟨_, rfl, fun t => ?_⟩
    rw [Finset.mem_insert, or_comm]
    exact or_congr_right ⟨fun h => h ▸ .relationship id, fun h => by cases h; rfl⟩
  | @list values _ ih =>
    have hlist : ∀ vs, (∀ v ∈ vs, v ∈ values) → ∀ targets, ∃ targets',
        collectDeleteList targets vs = .ok targets' ∧
          ∀ t, t ∈ targets' ↔ t ∈ targets ∨ ∃ v ∈ vs, NamesTarget v t := by
      intro vs hvs
      induction vs with
      | nil => exact fun targets => ⟨targets, rfl, by simp⟩
      | cons v vs ihs =>
        intro targets
        obtain ⟨first, hfirst, hmem⟩ := ih v (hvs v mem_cons_self) targets
        obtain ⟨rest, hrest, hmem'⟩ := ihs (fun w hw => hvs w (mem_cons_of_mem v hw)) first
        refine ⟨rest, ?_, fun t => ?_⟩
        · rw [collectDeleteList, hfirst]
          exact hrest
        · rw [hmem', hmem, or_assoc]
          simp
    obtain ⟨targets', hok, hmem⟩ := hlist values (fun v hv => hv) targets
    refine ⟨targets', hok, fun t => (hmem t).trans (or_congr_right ?_)⟩
    constructor
    · rintro ⟨v, hv, h⟩
      exact .list hv h
    · intro h
      cases h with
      | list hv h => exact ⟨_, hv, h⟩

namespace DeleteTargets

variable {targets : DeleteTargets}

theorem mem_nodeIds {id : NodeId} : id ∈ targets.nodeIds ↔ .node id ∈ targets := by
  rw [nodeIds, Finset.mem_sort, Finset.mem_filterMap]
  constructor
  · rintro ⟨t, ht, hid⟩
    cases t with
    | node a => exact Option.some.inj hid ▸ ht
    | relationship => cases hid
  · exact fun h => ⟨_, h, rfl⟩

theorem mem_relIds {id : RelationshipId} : id ∈ targets.relIds ↔ .relationship id ∈ targets := by
  rw [relIds, Finset.mem_sort, Finset.mem_filterMap]
  constructor
  · rintro ⟨t, ht, hid⟩
    cases t with
    | node => cases hid
    | relationship a => exact Option.some.inj hid ▸ ht
  · exact fun h => ⟨_, h, rfl⟩

theorem mem_inOrder {t : DeleteTarget} : t ∈ targets.inOrder ↔ t ∈ targets := by
  simp only [inOrder, mem_append, mem_map, mem_nodeIds, mem_relIds]
  cases t <;> simp

theorem nodup_nodeIds : targets.nodeIds.Nodup := Finset.sort_nodup _ _

end DeleteTargets

namespace InMemoryGraph

variable {g : InMemoryGraph} {node id rel : ℕ} {side : Side}

section

variable {E R : Type} {eval : InMemoryGraph → E → R → Except String LoraValue}

/-- Some expression on some row names an entity. -/
def Named (g : InMemoryGraph) (eval : InMemoryGraph → E → R → Except String LoraValue)
    (expressions : List E) (rows : List R) (t : DeleteTarget) : Prop :=
  ∃ row ∈ rows, ∃ e ∈ expressions, ∃ v, eval g e row = .ok v ∧ NamesTarget v t

/-- Every expression gives something deletable on every row. -/
def AllDeletable (g : InMemoryGraph) (eval : InMemoryGraph → E → R → Except String LoraValue)
    (expressions : List E) (rows : List R) : Prop :=
  ∀ row ∈ rows, ∀ e ∈ expressions, ∃ v, eval g e row = .ok v ∧ Deletable v

theorem collectRow_ok {row : R} {expressions : List E}
    (h : ∀ e ∈ expressions, ∃ v, eval g e row = .ok v ∧ Deletable v) (targets : DeleteTargets) :
    ∃ targets', g.collectRow eval row targets expressions = .ok targets' ∧ ∀ t, t ∈ targets' ↔
      t ∈ targets ∨ ∃ e ∈ expressions, ∃ v, eval g e row = .ok v ∧ NamesTarget v t := by
  induction expressions generalizing targets with
  | nil => exact ⟨targets, rfl, by simp⟩
  | cons e expressions ih =>
    obtain ⟨v, hv, hdeletable⟩ := h e mem_cons_self
    obtain ⟨first, hfirst, hmem⟩ := collectDeleteTargets_ok hdeletable targets
    obtain ⟨rest, hrest, hmem'⟩ := ih (fun e he => h e (mem_cons_of_mem _ he)) first
    refine ⟨rest, ?_, fun t => ?_⟩
    · rw [collectRow, hv]
      dsimp only
      rw [hfirst]
      exact hrest
    · rw [hmem', hmem, or_assoc]
      simp [hv]

theorem collectRows_ok {expressions : List E} {rows : List R}
    (h : g.AllDeletable eval expressions rows) (targets : DeleteTargets) :
    ∃ targets', g.collectRows eval expressions targets rows = .ok targets' ∧
      ∀ t, t ∈ targets' ↔ t ∈ targets ∨ g.Named eval expressions rows t := by
  induction rows generalizing targets with
  | nil => exact ⟨targets, rfl, by simp [Named]⟩
  | cons row rows ih =>
    obtain ⟨first, hfirst, hmem⟩ := collectRow_ok (h row mem_cons_self) targets
    obtain ⟨rest, hrest, hmem'⟩ := ih (fun row hrow => h row (mem_cons_of_mem _ hrow)) first
    refine ⟨rest, ?_, fun t => ?_⟩
    · rw [collectRows, hfirst]
      exact hrest
    · rw [hmem', hmem, or_assoc]
      simp [Named]

end

/-! ### Validation -/

theorem forM_ok_iff {α ε : Type} {f : α → Except ε Unit} {l : List α} :
    l.forM f = .ok () ↔ ∀ x ∈ l, f x = .ok () := by
  induction l with
  | nil => simp [pure, Except.pure]
  | cons x l ih =>
    rw [forall_mem_cons, ← ih]
    change (f x >>= fun _ => l.forM f) = .ok () ↔ _
    cases hx : f x with
    | error e => exact ⟨fun h => (nomatch h), fun h => (nomatch h.1)⟩
    | ok u => exact ⟨fun h => ⟨rfl, h⟩, fun h => h.2⟩

/-- The relationships at a node are those that end there. -/
theorem mem_incidentRelationshipIds (h : g.Intact) : rel ∈ g.incidentRelationshipIds id ↔
    ∃ record side, g.relAt rel = some record ∧ record.endpoint side = id := by
  rw [incidentRelationshipIds, mem_append, mem_map, mem_map]
  constructor
  · rintro (⟨e, he, rfl⟩ | ⟨e, he, rfl⟩)
    · obtain ⟨record, hrecord, hend, -⟩ := (h.entries _ _ _).mp he
      exact ⟨record, .out, hrecord, hend⟩
    · obtain ⟨record, hrecord, hend, -⟩ := (h.entries _ _ _).mp (mem_filter.mp he).1
      exact ⟨record, .into, hrecord, hend⟩
  · rintro ⟨record, side, hrecord, rfl⟩
    obtain ⟨typeId, htype⟩ := mem_iff_getElem?.mp (h.typed _ _ hrecord)
    have hentry : ∀ side, (⟨typeId, record.farEnd side, rel⟩ : AdjEntry) ∈
        g.list (record.endpoint side) side :=
      fun side => (h.entries _ _ _).mpr ⟨record, hrecord, rfl, rfl, htype⟩
    cases side with
    | out => exact Or.inl ⟨_, hentry .out, rfl⟩
    | into =>
      by_cases hself : record.src = record.dst
      · exact Or.inl ⟨_, by simpa [RelationshipRecord.endpoint, hself] using hentry .out, rfl⟩
      · refine Or.inr ⟨_, mem_filter.mpr ⟨hentry .into, ?_⟩, rfl⟩
        simpa [RelationshipRecord.endpoint, RelationshipRecord.farEnd] using hself

/-- What may be deleted: the relationships named exist; without DETACH so do the nodes, and every
relationship of theirs is named too. -/
structure Valid (g : InMemoryGraph) (named : DeleteTarget → Prop) (detach : Bool) : Prop where
  rels : ∀ rel, named (.relationship rel) → ∃ record, g.relAt rel = some record
  nodes : detach = false → ∀ id, named (.node id) → (∃ record, g.nodeAt id = some record) ∧
    ∀ rel record side, g.relAt rel = some record → record.endpoint side = id →
      named (.relationship rel)

theorem validateDeleteTarget_node {targets : DeleteTargets} {detach : Bool} (h : g.Intact) :
    g.validateDeleteTarget targets detach (.node id) = .ok () ↔ (detach = false →
      (∃ record, g.nodeAt id = some record) ∧ ∀ rel record side, g.relAt rel = some record →
        record.endpoint side = id → .relationship rel ∈ targets) := by
  cases detach with
  | true => simp [validateDeleteTarget]
  | false =>
    have hany : ((g.incidentRelationshipIds id).any fun rel => .relationship rel ∉ targets) =
        false ↔ ∀ rel record side, g.relAt rel = some record → record.endpoint side = id →
          DeleteTarget.relationship rel ∈ targets := by
      rw [any_eq_false]
      constructor
      · intro hall rel record side hrecord hend
        have hrel := hall rel ((mem_incidentRelationshipIds h).mpr ⟨record, side, hrecord, hend⟩)
        simpa using hrel
      · intro hall rel hrel
        obtain ⟨record, side, hrecord, hend⟩ := (mem_incidentRelationshipIds h).mp hrel
        simpa using hall rel record side hrecord hend
    rw [← hany, ← hasNodeAt_iff]
    cases hnode : g.hasNodeAt id with
    | false => simp [validateDeleteTarget, hnode]
    | true =>
      cases hall : (g.incidentRelationshipIds id).any fun rel => .relationship rel ∉ targets <;>
        simp only [validateDeleteTarget, hnode, hall] <;> simp

theorem validate_iff {targets : DeleteTargets} {detach : Bool} (h : g.Intact) :
    g.validateDeleteTargets targets detach = .ok () ↔ g.Valid (· ∈ targets) detach := by
  rw [validateDeleteTargets, forM_ok_iff]
  simp only [DeleteTargets.mem_inOrder]
  constructor
  · intro hall
    refine ⟨fun rel hrel => ?_, fun hdetach id hid => ?_⟩
    · have hok := hall _ hrel
      rw [validateDeleteTarget] at hok
      split at hok
      next hexists => exact hasRelAt_iff.mp hexists
      next => cases hok
    · exact (validateDeleteTarget_node h).mp (hall _ hid) hdetach
  · rintro ⟨hrels, hnodes⟩ t ht
    cases t with
    | relationship rel =>
      rw [validateDeleteTarget, if_pos (hasRelAt_iff.mpr (hrels rel ht))]
    | node id => exact (validateDeleteTarget_node h).mpr fun hdetach => hnodes hdetach id ht

/-! ### Deleting what was validated -/

/-- The relationships that go: those named, and with DETACH those of a node named. -/
def Gone (g : InMemoryGraph) (named : DeleteTarget → Prop) (detach : Bool)
    (rel : RelationshipId) : Prop :=
  named (.relationship rel) ∨ detach = true ∧ ∃ record side, g.relAt rel = some record ∧
    named (.node (record.endpoint side))

/-- What is named is **deleted**, and nothing else. -/
structure Deleted (g g' : InMemoryGraph) (named : DeleteTarget → Prop) (detach : Bool) : Prop where
  reachable : Reachable g'
  nodeGone : ∀ id, named (.node id) → g'.nodeAt id = none
  nodeKept : ∀ id, ¬ named (.node id) → g'.nodeAt id = g.nodeAt id
  relGone : ∀ rel, g.Gone named detach rel → g'.relAt rel = none
  relKept : ∀ rel, ¬ g.Gone named detach rel → g'.relAt rel = g.relAt rel
  counters : g'.counters = g.counters

theorem nodeAt_deleteRelationship : (g.deleteRelationship rel).1.nodeAt id = g.nodeAt id := by
  rw [deleteRelationship_eq, nodeAt, deleteRelationshipDeferring_nodes]
  rfl

/-- Relationships deleted one by one. -/
theorem runSteps_deleteRelationship {ids : List RelationshipId} :
    (runSteps deleteRelationship g ids).1.nodeAt id = g.nodeAt id ∧
      (runSteps deleteRelationship g ids).1.relAt rel =
        if rel ∈ ids then none else g.relAt rel := by
  induction ids generalizing g with
  | nil => simp
  | cons i ids ih =>
    rw [runSteps_cons]
    obtain ⟨hnode, hrel⟩ := @ih (g.deleteRelationship i).1
    refine ⟨hnode.trans nodeAt_deleteRelationship, hrel.trans ?_⟩
    rw [deleteRelationship_eq, deleteRelationshipDeferring_relAt]
    by_cases hi : rel = i
    · simp [hi]
    · simp [hi]

theorem detachAlone_spec (h : g.Intact) :
    (g.detachAlone node).1.nodeAt id = (if id = node then none else g.nodeAt id) ∧
      (g.detachAlone node).1.relAt rel =
        if rel ∈ g.incidentRelationshipIds node then none else g.relAt rel := by
  rw [detachAlone]
  cases hrecord : g.nodeAt node with
  | none =>
    rw [detachDeleteDeferring_of_none hrecord]
    constructor
    · split
      next hid => rw [hid, hrecord]
      next => rfl
    · rw [if_neg]
      intro hrel
      obtain ⟨record, side, hrel, hend⟩ := (mem_incidentRelationshipIds h).mp hrel
      obtain ⟨stored, hstored⟩ := h.endpoints _ _ hrel side
      rw [hend, hrecord] at hstored
      cases hstored
  | some record =>
    rw [detachDeleteDeferring_of_some hrecord, deleteIncident_none, runSteps_clearAdjacency]
    obtain ⟨hnodes, hrels⟩ := @runSteps_deleteRelationship g id rel (g.incidentRelationshipIds node)
    refine ⟨nodeAt_dropNode.trans ?_, relAt_dropNode.trans hrels⟩
    split
    · rfl
    · exact hnodes

/-- Nodes deleted with their relationships, one by one. -/
theorem runSteps_detachAlone (h : g.Intact) {ids : List NodeId} :
    (runSteps detachAlone g ids).1.nodeAt id = (if id ∈ ids then none else g.nodeAt id) ∧
      ((∃ record side, g.relAt rel = some record ∧ record.endpoint side ∈ ids) →
        (runSteps detachAlone g ids).1.relAt rel = none) ∧
      (¬ (∃ record side, g.relAt rel = some record ∧ record.endpoint side ∈ ids) →
        (runSteps detachAlone g ids).1.relAt rel = g.relAt rel) := by
  induction ids generalizing g with
  | nil => simp
  | cons i ids ih =>
    rw [runSteps_cons]
    obtain ⟨hnode, hgone, hkept⟩ := ih (@Intact.detachAlone g i h)
    obtain ⟨hnode', hrel⟩ := @detachAlone_spec g i id rel h
    rw [hnode'] at hnode
    rw [hrel] at hgone hkept
    refine ⟨hnode.trans ?_, ?_, ?_⟩
    · by_cases hid : id = i
      · simp [hid]
      · simp [hid]
    · rintro ⟨record, side, hrecord, hend⟩
      by_cases hincident : rel ∈ g.incidentRelationshipIds i
      · rw [hkept, if_pos hincident]
        rintro ⟨other, -, hother, -⟩
        rw [if_pos hincident] at hother
        cases hother
      · refine hgone ⟨record, side, by rw [if_neg hincident, hrecord], ?_⟩
        refine (mem_cons.mp hend).resolve_left fun heq => hincident ?_
        exact (mem_incidentRelationshipIds h).mpr ⟨record, side, hrecord, heq⟩
    · intro hnot
      have hincident : rel ∉ g.incidentRelationshipIds i := by
        intro hmem
        obtain ⟨record, side, hrecord, hend⟩ := (mem_incidentRelationshipIds h).mp hmem
        exact hnot ⟨record, side, hrecord, hend ▸ mem_cons_self⟩
      rw [if_neg hincident] at hkept
      exact hkept fun ⟨record, side, hrecord, hend⟩ =>
        hnot ⟨record, side, hrecord, mem_cons_of_mem i hend⟩

/-- Nodes without relationships are deleted, and no step fails. -/
theorem deleteNodes_ok {ids : List NodeId} (hnodup : ids.Nodup)
    (hisolated : ∀ id ∈ ids, (∃ record, g.nodeAt id = some record) ∧ ∀ side, g.list id side = []) :
    ∃ g', g.deleteNodes ids = (g', .ok ()) ∧ (Reachable g → Reachable g') ∧
      (∀ id, g'.nodeAt id = if id ∈ ids then none else g.nodeAt id) ∧
      (∀ rel, g'.relAt rel = g.relAt rel) ∧ g'.counters = g.counters := by
  induction ids generalizing g with
  | nil => exact ⟨g, rfl, fun h => h, by simp, fun rel => rfl, rfl⟩
  | cons i ids ih =>
    obtain ⟨hi, hrest⟩ := nodup_cons.mp hnodup
    obtain ⟨⟨record, hrecord⟩, hlists⟩ := hisolated i mem_cons_self
    have hdelete := deleteNode_of_isolated hrecord hlists
    have hnode : ∀ id, ((g.dropNode i record).emit (.deleteNode i)).nodeAt id =
        if id = i then none else g.nodeAt id := fun id => nodeAt_dropNode
    obtain ⟨g', hok, hreach, hnodes, hrels, hcounters⟩ :=
      @ih ((g.dropNode i record).emit (.deleteNode i)) hrest fun j hj => by
        obtain ⟨hstored, hempty⟩ := hisolated j (mem_cons_of_mem i hj)
        refine ⟨?_, fun side => (list_dropNode hlists).trans (hempty side)⟩
        have hne : j ≠ i := by
          rintro rfl
          exact hi hj
        rw [hnode, if_neg hne]
        exact hstored
    refine ⟨g', ?_, fun h => hreach ?_, fun id => ?_, fun rel => ?_, ?_⟩
    · rw [deleteNodes, hdelete]
      exact hok
    · have hmutate := h.mutate (.deleteNode i)
      change Reachable (g.deleteNode i).1 at hmutate
      rwa [hdelete] at hmutate
    · rw [hnodes, hnode]
      by_cases hid : id = i
      · simp [hid]
      · simp [hid]
    · exact (hrels rel).trans relAt_dropNode
    · have hsame := @counters_deleteNode g i
      rw [hdelete] at hsame
      exact hcounters.trans hsame

/-- What was validated is deleted: no step fails, and nothing else goes. -/
theorem deleteTargets_deleted {targets : DeleteTargets} {detach : Bool} (h : Reachable g)
    (hvalid : g.Valid (· ∈ targets) detach) :
    ∃ g', g.deleteTargets targets detach = (g', .ok ()) ∧ g.Deleted g' (· ∈ targets) detach := by
  obtain ⟨hbatch, -⟩ := deletes_one_by_one h targets.relIds
  have hfirst : (g.deleteRelationships targets.relIds).1 =
      (runSteps deleteRelationship g targets.relIds).1 := congrArg Prod.fst hbatch
  obtain ⟨g₁, hg₁⟩ : ∃ g₁, g₁ = (g.deleteRelationships targets.relIds).1 := ⟨_, rfl⟩
  have hreach₁ : Reachable g₁ := hg₁ ▸ h.mutate (.deleteRelationships targets.relIds)
  have hnode₁ : ∀ id, g₁.nodeAt id = g.nodeAt id := by
    intro id
    rw [hg₁, hfirst]
    exact (@runSteps_deleteRelationship g id 0 _).1
  have hrel₁ : ∀ rel, g₁.relAt rel = if .relationship rel ∈ targets then none
      else g.relAt rel := by
    intro rel
    rw [hg₁, hfirst, (@runSteps_deleteRelationship g 0 rel _).2]
    simp only [DeleteTargets.mem_relIds]
  have hcounters₁ : g₁.counters = g.counters := by
    rw [hg₁, hfirst]
    refine @runSteps_invariant _ _ _ deleteRelationship (fun g' => g'.counters = g.counters) _
      (fun g' rel _ hsame => counters_deleteRelationship.trans hsame) g rfl
  have hsplit : g.deleteTargets targets detach = if detach then
      ((g₁.detachDeleteNodes targets.nodeIds).1, .ok ()) else g₁.deleteNodes targets.nodeIds := by
    rw [hg₁]
    rfl
  rw [hsplit]
  cases detach with
  | true =>
    have hbatch :=
      deleteBatch_eq detachDeleteDeferring_simulates hreach₁.intact.once targets.nodeIds
    have hsecond : (g₁.detachDeleteNodes targets.nodeIds).1 =
        (runSteps detachAlone g₁ targets.nodeIds).1 := congrArg Prod.fst hbatch
    have hruns := fun id rel => @runSteps_detachAlone g₁ id rel hreach₁.intact targets.nodeIds
    refine ⟨_, rfl, hreach₁.mutate (.detachDeleteNodes targets.nodeIds), fun id hid => ?_,
      fun id hid => ?_, fun rel hrel => ?_, fun rel hrel => ?_, ?_⟩
    · rw [hsecond, (hruns id 0).1, if_pos (DeleteTargets.mem_nodeIds.mpr hid)]
    · rw [hsecond, (hruns id 0).1, if_neg (mt DeleteTargets.mem_nodeIds.mp hid), hnode₁]
    · rw [hsecond]
      by_cases hnamed : .relationship rel ∈ targets
      · rw [(hruns 0 rel).2.2, hrel₁, if_pos hnamed]
        rintro ⟨record, side, hrecord, -⟩
        rw [hrel₁, if_pos hnamed] at hrecord
        cases hrecord
      · obtain ⟨-, record, side, hrecord, hend⟩ := hrel.resolve_left hnamed
        refine (hruns 0 rel).2.1 ⟨record, side, ?_, DeleteTargets.mem_nodeIds.mpr hend⟩
        rw [hrel₁, if_neg hnamed, hrecord]
    · have hnamed : .relationship rel ∉ targets := fun hnamed => hrel (Or.inl hnamed)
      rw [hsecond, (hruns 0 rel).2.2, hrel₁, if_neg hnamed]
      rintro ⟨record, side, hrecord, hend⟩
      rw [hrel₁, if_neg hnamed] at hrecord
      exact hrel (Or.inr ⟨rfl, record, side, hrecord, DeleteTargets.mem_nodeIds.mp hend⟩)
    · rw [hsecond, ← hcounters₁]
      refine @runSteps_invariant _ _ _ detachAlone (fun g' => g'.counters = g₁.counters) _
        (fun g' id _ hsame => counters_detachAlone.trans hsame) g₁ rfl
  | false =>
    have hisolated : ∀ id ∈ targets.nodeIds, (∃ record, g₁.nodeAt id = some record) ∧
        ∀ side, g₁.list id side = [] := by
      intro id hid
      obtain ⟨hstored, hall⟩ := hvalid.nodes rfl id (DeleteTargets.mem_nodeIds.mp hid)
      refine ⟨by rwa [hnode₁], fun side => eq_nil_iff_forall_not_mem.mpr fun e he => ?_⟩
      obtain ⟨record, hrecord, hend, -⟩ := (hreach₁.intact.entries _ _ _).mp he
      rw [hrel₁] at hrecord
      split at hrecord
      next => cases hrecord
      next hnot => exact hnot (hall _ _ _ hrecord hend)
    obtain ⟨g', hok, hreach, hnodes, hrels, hcounters⟩ :=
      deleteNodes_ok DeleteTargets.nodup_nodeIds hisolated
    refine ⟨g', hok, hreach hreach₁, fun id hid => ?_, fun id hid => ?_, fun rel hrel => ?_,
      fun rel hrel => ?_, hcounters.trans hcounters₁⟩
    · rw [hnodes, if_pos (DeleteTargets.mem_nodeIds.mpr hid)]
    · rw [hnodes, if_neg (mt DeleteTargets.mem_nodeIds.mp hid), hnode₁]
    · obtain hnamed | ⟨hfalse, -⟩ := hrel
      · rw [hrels, hrel₁, if_pos hnamed]
      · cases hfalse
    · rw [hrels, hrel₁, if_neg fun hnamed => hrel (Or.inl hnamed)]

section

variable {E R : Type} {eval : InMemoryGraph → E → R → Except String LoraValue}

/-- What a clause does depends on the entities named only. -/
theorem execDelete_eq {expressions : List E} {rows : List R} {detach : Bool}
    (hrows : g.AllDeletable eval expressions rows) :
    ∃ targets : DeleteTargets, (∀ t, t ∈ targets ↔ g.Named eval expressions rows t) ∧
      g.execDelete eval expressions detach rows =
        match g.validateDeleteTargets targets detach with
        | .error e => (g, .error e)
        | .ok () => ((g.deleteTargets targets detach).1,
          (g.deleteTargets targets detach).2.map fun _ => rows) := by
  obtain ⟨targets, hok, hmem⟩ := collectRows_ok hrows ∅
  refine ⟨targets, fun t => (hmem t).trans (by simp), ?_⟩
  rw [execDelete, hok]

/-- **DELETE is all or nothing**, and free of order: it fails and the graph is as it was, or every
entity named is deleted and nothing else; it succeeds exactly on what is valid; and clauses that
name the same entities, in whatever order and however often, do the same. -/
theorem delete_all_or_nothing (h : Reachable g) (expressions : List E) (rows : List R)
    (detach : Bool) (hrows : g.AllDeletable eval expressions rows) :
    ((∃ e, g.execDelete eval expressions detach rows = (g, .error e)) ∨
      ∃ g', g.execDelete eval expressions detach rows = (g', .ok rows) ∧
        g.Deleted g' (g.Named eval expressions rows) detach) ∧
    ((g.execDelete eval expressions detach rows).2 = .ok rows ↔
      g.Valid (g.Named eval expressions rows) detach) ∧
    ∀ (expressions' : List E) (rows' : List R), g.AllDeletable eval expressions' rows' →
      (∀ t, g.Named eval expressions' rows' t ↔ g.Named eval expressions rows t) →
      (g.execDelete eval expressions' detach rows').1 =
        (g.execDelete eval expressions detach rows).1 ∧
      (g.execDelete eval expressions' detach rows').2.map (fun _ => ()) =
        (g.execDelete eval expressions detach rows).2.map fun _ => () := by
  obtain ⟨targets, hmem, heq⟩ := @execDelete_eq g E R eval expressions rows detach hrows
  have hnamed : g.Named eval expressions rows = (· ∈ targets) :=
    funext fun t => propext (hmem t).symm
  have hvalid := @validate_iff g targets detach h.intact
  rw [hnamed, heq]
  refine ⟨?_, ?_, ?_⟩
  · cases hvalidate : g.validateDeleteTargets targets detach with
    | error e => exact Or.inl ⟨e, rfl⟩
    | ok u =>
      obtain ⟨g', hok, hdeleted⟩ := deleteTargets_deleted h (hvalid.mp hvalidate)
      rw [hok]
      exact Or.inr ⟨g', rfl, hdeleted⟩
  · rw [← hvalid]
    cases hvalidate : g.validateDeleteTargets targets detach with
    | error e => exact ⟨fun h => (nomatch h), fun h => (nomatch h)⟩
    | ok u =>
      obtain ⟨g', hok, -⟩ := deleteTargets_deleted h (hvalid.mp hvalidate)
      rw [hok]
      exact ⟨fun _ => rfl, fun _ => rfl⟩
  · intro expressions' rows' hrows' hsame
    obtain ⟨targets', hmem', heq'⟩ := @execDelete_eq g E R eval expressions' rows' detach hrows'
    obtain rfl : targets' = targets := Finset.ext fun t => by rw [hmem', hsame]
    rw [heq']
    cases g.validateDeleteTargets targets' detach with
    | error e => exact ⟨rfl, rfl⟩
    | ok u =>
      refine ⟨rfl, ?_⟩
      cases (g.deleteTargets targets' detach).2 <;> rfl

end

/-- A node and its relationship to itself, named in one list and the node twice. -/
theorem delete_loop : (loopGraph.execDelete (fun _ v (_ : Unit) => .ok v)
      [.list [.node 0, .null, .relationship 0, .node 0]] false [()]).2 = .ok [()] ↔
    loopGraph.Valid (loopGraph.Named (fun _ v (_ : Unit) => .ok v)
      [.list [.node 0, .null, .relationship 0, .node 0]] [()]) false := by
  have hdeletable : Deletable (.list [.node 0, .null, .relationship 0, .node 0]) := by
    refine .list fun v hv => ?_
    simp only [mem_cons, not_mem_nil, or_false] at hv
    rcases hv with rfl | rfl | rfl | rfl
    · exact .node 0
    · exact .null
    · exact .relationship 0
    · exact .node 0
  refine (delete_all_or_nothing (.mutate _ (.mutate _ .new)) _ [()] false ?_).2.1
  intro row _ e he
  rw [mem_singleton.mp he]
  exact ⟨_, rfl, hdeletable⟩

end InMemoryGraph

end LoraDb
