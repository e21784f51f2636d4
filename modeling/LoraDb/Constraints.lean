import LoraDb.GraphIntegrity
import LoraDb.ValueCompare

/-!
# Constraints

The checks a write makes against the declared constraints before it is stored: a value has the
declared type, a required property stays, and no other record holds the same values for the
properties of a uniqueness or key constraint. Nodes and relationships are checked alike, the
type of a relationship standing for its one label.

A uniqueness check looks for the values through a property index where there is one. The index
only narrows where it looks, and is left out.

## Main results

* `checkSetProperty_congr`, `checkRemoveProperty_congr`: where no constraint spans two
  properties, a check does not depend on the other properties of the record.
-/

namespace LoraDb

/-! ### Stored values -/

mutual

/-- A stored value as a query value. -/
def LoraValue.ofProperty : PropertyValue → LoraValue
  | .null => .null
  | .bool value => .bool value
  | .int value => .int value
  | .float value => .float value
  | .string value => .string value
  | .binary value => .binary value
  | .list values => .list (ofProperties values)
  | .map entries => .map (ofEntries entries)
  | .date value => .date value
  | .time value => .time value
  | .localTime value => .localTime value
  | .dateTime value => .dateTime value
  | .localDateTime value => .localDateTime value
  | .duration value => .duration value
  | .point value => .point value
  | .vector value => .vector value
termination_by structural value => value

def LoraValue.ofProperties : List PropertyValue → List LoraValue
  | [] => []
  | value :: values => ofProperty value :: ofProperties values
termination_by structural values => values

def LoraValue.ofEntries : List (String × PropertyValue) → List (String × LoraValue)
  | [] => []
  | (key, value) :: entries => (key, ofProperty value) :: ofEntries entries
termination_by structural entries => entries

end

/-- `==` of stored values: that of the query values they are. -/
def PropertyValue.eq (a b : PropertyValue) : Bool :=
  LoraValue.eq (.ofProperty a) (.ofProperty b)

/-! ### Property types -/

def StoredScalarType.admits : StoredScalarType → PropertyValue → Bool
  | .boolean, .bool _ => true
  | .string, .string _ => true
  | .integer, .int _ => true
  | .float, .float _ => true
  | .date, .date _ => true
  | .zonedTime, .time _ => true
  | .localTime, .localTime _ => true
  | .zonedDateTime, .dateTime _ => true
  | .localDateTime, .localDateTime _ => true
  | .duration, .duration _ => true
  | .point, .point _ => true
  | _, _ => false

def vectorMatches (vector : LoraVector) (coord : StoredVectorCoordType) (dimension : UInt32) :
    Bool :=
  vector.dimension.toNat == dimension.toNat &&
    match vector.values, coord with
    | .float64 _, .float64 => true
    | .float32 _, .float32 => true
    | .integer64 _, .int64 => true
    | .integer32 _, .int32 => true
    | .integer16 _, .int16 => true
    | .integer8 _, .int8 => true
    | _, _ => false

def valueMatchesTerm : StoredPropertyTypeTerm → PropertyValue → Bool
  | .scalar scalar, value => scalar.admits value
  | .list inner notNull, .list items =>
    items.all fun item =>
      match item with
      | .null => !notNull
      | item => valueMatchesTerm inner item
  | .list _ _, _ => false
  | .vector coord dimension, .vector v => vectorMatches v coord dimension
  | .vector _ _, _ => false

/-- Whether a value satisfies some alternative of a declared type. -/
def valueMatchesPropertyType (value : PropertyValue) (target : StoredPropertyType) : Bool :=
  target.alternatives.any fun term => valueMatchesTerm term value

/-! ### What constraints see -/

/-- A declared constraint. -/
abbrev ConstraintDefinition := ConstraintRequest

/-- The declared constraints, by name. -/
abbrev ConstraintCatalog := List ConstraintDefinition

def StoredConstraintKind.requiresUniqueness : StoredConstraintKind → Bool
  | .unique | .nodeKey | .relationshipKey => true
  | .existence | .propertyType _ => false

def StoredConstraintKind.requiresExistence : StoredConstraintKind → Bool
  | .existence | .nodeKey | .relationshipKey => true
  | .unique | .propertyType _ => false

inductive ConstraintViolation where
  | missingProperty (constraint : String) (entity : StoredIndexEntity) (label property : String)
  | missingPropertiesForKey (constraint : String) (entity : StoredIndexEntity) (label : String)
      (properties : List String)
  | wrongPropertyType (constraint : String) (entity : StoredIndexEntity) (label property : String)
      (expected : StoredPropertyType)
  | uniquenessViolated (constraint : String) (entity : StoredIndexEntity) (label property : String)

/-- A node or a relationship a write goes to. -/
inductive EntityTarget where
  | node (id : NodeId)
  | relationship (id : RelationshipId)

namespace EntityTarget

def entity : EntityTarget → StoredIndexEntity
  | .node _ => .node
  | .relationship _ => .relationship

def id : EntityTarget → ℕ
  | .node id => id
  | .relationship id => id

def ofEntity : StoredIndexEntity → ℕ → EntityTarget
  | .node, id => .node id
  | .relationship, id => .relationship id

end EntityTarget

/-- A record as constraints see it: the labels of a node, or the one type of a
relationship. -/
structure ConstraintRecord where
  names : List String
  properties : PropertyMap

namespace InMemoryGraph

variable (g : InMemoryGraph)

def constraintRecord : EntityTarget → Option ConstraintRecord
  | .node id => (g.nodeAt id).map fun node => ⟨node.labels, node.properties⟩
  | .relationship id => (g.relAt id).map fun rel => ⟨[rel.relType], rel.properties⟩

/-- The records of an entity kind under a label or type. -/
def idsNamed (entity : StoredIndexEntity) (label : String) : Finset ℕ :=
  match entity with
  | .node => g.nodesByLabel.ids label
  | .relationship => g.relationshipsByType.ids label

/-- Whether another record under the label holds these values. -/
def anyOtherWithTuple (target : EntityTarget) (label : String) (keys : List String)
    (tuple : List PropertyValue) : Bool :=
  decide (∃ id ∈ g.idsNamed target.entity label, id ≠ target.id ∧
    (g.constraintRecord (.ofEntity target.entity id)).any (fun record =>
      record.names.contains label &&
        (keys.zip tuple).all fun (key, value) =>
          (record.properties.get key).any fun stored => stored.eq value) = true)

end InMemoryGraph

/-! ### The checks -/

section Checks

variable (catalog : ConstraintCatalog) (g : InMemoryGraph) (target : EntityTarget)

def uniquenessViolation (constraint : ConstraintDefinition) : ConstraintViolation :=
  .uniquenessViolated constraint.name constraint.entity constraint.label
    (", ".intercalate constraint.properties)

def missingPropertyViolation (constraint : ConstraintDefinition) (property : String) :
    ConstraintViolation :=
  if constraint.properties.length = 1 then
    .missingProperty constraint.name constraint.entity constraint.label property
  else
    .missingPropertiesForKey constraint.name constraint.entity constraint.label
      constraint.properties

def checkType (constraint : ConstraintDefinition) (key : String) (value : PropertyValue) :
    Except ConstraintViolation Unit :=
  match constraint.kind with
  | .propertyType expected =>
    if valueMatchesPropertyType value expected then .ok ()
    else .error
      (.wrongPropertyType constraint.name constraint.entity constraint.label key expected)
  | _ => .ok ()

/-- No other record holds the values a record would have, where it would have all of
them. -/
def checkUnique (constraint : ConstraintDefinition) (tuple : Option (List PropertyValue)) :
    Except ConstraintViolation Unit :=
  match tuple with
  | some tuple =>
    if constraint.kind.requiresUniqueness &&
        g.anyOtherWithTuple target constraint.label constraint.properties tuple then
      .error (uniquenessViolation constraint)
    else .ok ()
  | none => .ok ()

def constrainedTupleAfterSet (constraint : ConstraintDefinition) (properties : PropertyMap)
    (key : String) (value : PropertyValue) : Option (List PropertyValue) :=
  constraint.properties.mapM fun property =>
    if property = key then some value else properties.get property

def ConstraintDefinition.covers (constraint : ConstraintDefinition) (record : ConstraintRecord) :
    Bool :=
  constraint.entity = target.entity && record.names.contains constraint.label

/-- What one constraint says to a value about to be set. -/
def checkSetOne (record : ConstraintRecord) (key : String) (value : PropertyValue)
    (constraint : ConstraintDefinition) : Except ConstraintViolation Unit :=
  if !ConstraintDefinition.covers target constraint record then .ok ()
  else if key ∉ constraint.properties then .ok ()
  else do
    checkType constraint key value
    checkUnique g target constraint
      (constrainedTupleAfterSet constraint record.properties key value)

/-- `check_node_set_property`, `check_relationship_set_property` -/
def checkSetProperty (key : String) (value : PropertyValue) : Except ConstraintViolation Unit :=
  match g.constraintRecord target with
  | none => .ok ()
  | some record => catalog.forM (checkSetOne g target record key value)

/-- What one constraint says to a property about to be removed. -/
def checkRemoveOne (record : ConstraintRecord) (key : String)
    (constraint : ConstraintDefinition) : Except ConstraintViolation Unit :=
  if !ConstraintDefinition.covers target constraint record then .ok ()
  else if !constraint.kind.requiresExistence then .ok ()
  else if key ∉ constraint.properties then .ok ()
  else .error (missingPropertyViolation constraint key)

/-- `check_node_remove_property`, `check_relationship_remove_property` -/
def checkRemoveProperty (key : String) : Except ConstraintViolation Unit :=
  match g.constraintRecord target with
  | none => .ok ()
  | some record => catalog.forM (checkRemoveOne target record key)

/-- The existence and type checks of a whole record. -/
def validateRecord (constraint : ConstraintDefinition) (properties : PropertyMap)
    (checkExistence : Bool) : Except ConstraintViolation Unit := do
  if checkExistence && constraint.kind.requiresExistence then
    match constraint.properties.find? fun property => (properties.get property).isNone with
    | some missing => .error (missingPropertyViolation constraint missing)
    | none => .ok ()
  match constraint.properties.head? with
  | some key => ((properties.get key).map (checkType constraint key)).getD (.ok ())
  | none => .ok ()

def checkRecordConstraints (record : ConstraintRecord) (checkExistence : Bool) :
    Except ConstraintViolation Unit :=
  catalog.forM fun constraint =>
    if !ConstraintDefinition.covers target constraint record then .ok ()
    else do
      validateRecord constraint record.properties checkExistence
      checkUnique g target constraint (constraint.properties.mapM record.properties.get)

/-- `check_node_replace_properties` and its counterparts; existence is left unchecked by a
statement that checks it at its end. -/
def checkReplaceProperties (properties : PropertyMap) (checkExistence : Bool) :
    Except ConstraintViolation Unit :=
  match g.constraintRecord target with
  | none => .ok ()
  | some record =>
    checkRecordConstraints catalog g target { record with properties } checkExistence

/-- `check_node_add_label` and its deferring counterpart: the constraints on the new label
start to apply. -/
def checkAddLabel (id : NodeId) (label : String) (checkExistence : Bool) :
    Except ConstraintViolation Unit :=
  match g.constraintRecord (.node id) with
  | none => .ok ()
  | some record =>
    checkRecordConstraints catalog g (.node id) { record with names := [label] } checkExistence

/-- No constraint spans two properties: then several writes of properties may be stored as
one. -/
def combinesPropertyWrites : Bool :=
  catalog.isEmpty || catalog.all fun constraint => constraint.properties.length ≤ 1

end Checks

/-! ### Checks and other properties -/

/-- Two graphs that differ in the properties of one node at most. -/
structure AgreeBut (id : NodeId) (g g' : InMemoryGraph) : Prop where
  buckets : g'.nodesByLabel = g.nodesByLabel
  others : ∀ j, j ≠ id → g'.nodeAt j = g.nodeAt j
  labels : (g'.nodeAt id).map NodeRecord.labels = (g.nodeAt id).map NodeRecord.labels

section Frame

variable {catalog : ConstraintCatalog} {g g' g'' : InMemoryGraph} {id : NodeId}

theorem AgreeBut.refl : AgreeBut id g g := ⟨rfl, fun _ _ => rfl, rfl⟩

theorem AgreeBut.trans (h : AgreeBut id g g') (h' : AgreeBut id g' g'') : AgreeBut id g g'' where
  buckets := h'.buckets.trans h.buckets
  others j hj := (h'.others j hj).trans (h.others j hj)
  labels := h'.labels.trans h.labels

theorem AgreeBut.anyOther (h : AgreeBut id g g') (label : String) (keys : List String)
    (tuple : List PropertyValue) :
    g'.anyOtherWithTuple (.node id) label keys tuple =
      g.anyOtherWithTuple (.node id) label keys tuple := by
  rw [InMemoryGraph.anyOtherWithTuple, InMemoryGraph.anyOtherWithTuple, decide_eq_decide]
  refine exists_congr fun j => ?_
  have hids : g'.idsNamed (EntityTarget.node id).entity label =
      g.idsNamed (EntityTarget.node id).entity label := by
    rw [EntityTarget.entity, InMemoryGraph.idsNamed, InMemoryGraph.idsNamed, h.buckets]
  rw [hids]
  refine and_congr_right fun _ => and_congr_right fun hj => ?_
  have hrecord : g'.constraintRecord (.node j) = g.constraintRecord (.node j) := by
    rw [InMemoryGraph.constraintRecord, InMemoryGraph.constraintRecord, h.others j hj]
  rw [EntityTarget.entity, EntityTarget.ofEntity, hrecord]

theorem combinesPropertyWrites_iff : combinesPropertyWrites catalog = true ↔
      ∀ constraint ∈ catalog, constraint.properties.length ≤ 1 := by
  rw [combinesPropertyWrites]
  cases catalog with
  | nil => simp
  | cons constraint rest => simp

/-- The one property of a constraint that names `key` is `key`. -/
theorem properties_eq {constraint : ConstraintDefinition} {key : String}
    (hlength : constraint.properties.length ≤ 1) (hkey : key ∈ constraint.properties) :
    constraint.properties = [key] := by
  match hproperties : constraint.properties with
  | [] => simp [hproperties] at hkey
  | [property] =>
    rw [hproperties, List.mem_singleton] at hkey
    rw [hkey]
  | _ :: _ :: _ => simp [hproperties] at hlength

/-- The records of one node in two graphs that differ in its properties: of one set of
labels, or of none. -/
theorem AgreeBut.record (h : AgreeBut id g g') :
    g.constraintRecord (.node id) = none ∧ g'.constraintRecord (.node id) = none ∨
      ∃ names properties properties', g.constraintRecord (.node id) = some ⟨names, properties⟩ ∧
        g'.constraintRecord (.node id) = some ⟨names, properties'⟩ := by
  have hlabels := h.labels
  rw [InMemoryGraph.constraintRecord, InMemoryGraph.constraintRecord]
  cases hrecord : g.nodeAt id with
  | none =>
    rw [hrecord, Option.map_none, Option.map_eq_none_iff] at hlabels
    rw [hlabels]
    exact Or.inl ⟨rfl, rfl⟩
  | some node =>
    rw [hrecord, Option.map_some, Option.map_eq_some_iff] at hlabels
    obtain ⟨node', hnode', heq⟩ := hlabels
    rw [hnode', Option.map_some, Option.map_some, heq]
    exact Or.inr ⟨_, _, _, rfl, rfl⟩

theorem forM_congr {ε α : Type} {f f' : α → Except ε Unit} :
    ∀ {xs : List α}, (∀ x ∈ xs, f x = f' x) → xs.forM f = xs.forM f'
  | [], _ => rfl
  | x :: xs, h => by
    have htail : forM xs f = forM xs f' := forM_congr fun y hy => h y (List.mem_cons_of_mem x hy)
    rw [List.forM_eq_forM, List.forM_cons, List.forM_cons, h x List.mem_cons_self, htail]

/-- Setting a property is checked whatever the other properties are. -/
theorem checkSetProperty_congr (hcatalog : combinesPropertyWrites catalog = true)
    (h : AgreeBut id g g') (key : String) (value : PropertyValue) :
    checkSetProperty catalog g' (.node id) key value =
      checkSetProperty catalog g (.node id) key value := by
  rw [checkSetProperty, checkSetProperty]
  obtain ⟨hnone, hnone'⟩ | ⟨names, properties, properties', hsome, hsome'⟩ := h.record
  · rw [hnone, hnone']
  · rw [hsome, hsome']
    refine forM_congr fun constraint hmem => ?_
    rw [checkSetOne, checkSetOne]
    have hcovers : ConstraintDefinition.covers (.node id) constraint ⟨names, properties'⟩ =
        ConstraintDefinition.covers (.node id) constraint ⟨names, properties⟩ := rfl
    rw [hcovers]
    split
    · rfl
    split
    · rfl
    next hkey =>
      have hsingle := properties_eq (combinesPropertyWrites_iff.mp hcatalog _ hmem)
        (not_not.mp hkey)
      have htuple : ∀ properties : PropertyMap,
          constrainedTupleAfterSet constraint properties key value = some [value] := by
        intro properties
        rw [constrainedTupleAfterSet, hsingle]
        simp
      rw [htuple, htuple, checkUnique, checkUnique, h.anyOther]

/-- So is removing one. -/
theorem checkRemoveProperty_congr (h : AgreeBut id g g') (key : String) :
    checkRemoveProperty catalog g' (.node id) key =
      checkRemoveProperty catalog g (.node id) key := by
  rw [checkRemoveProperty, checkRemoveProperty]
  obtain ⟨hnone, hnone'⟩ | ⟨names, properties, properties', hsome, hsome'⟩ := h.record
  · rw [hnone, hnone']
  · rw [hsome, hsome']
    rfl

end Frame

end LoraDb
