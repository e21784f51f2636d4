import LoraDb.Value

/-!
# Mutation Events

The vocabulary a committed write is logged in: one event for each mutation the store
applied, with what is needed to apply it again. Schema events carry the request they were
made with (`IndexRequest`, `ConstraintRequest`).

`MutationEvent.wellTyped` says what the source's types guarantee of an event and the types
here do not: identifiers fit 64 bits, and nested maps have ascending keys.
-/

namespace LoraDb

/-- Identifier of a node. -/
abbrev NodeId := ℕ

/-- Identifier of a relationship. -/
abbrev RelationshipId := ℕ

/-! ### Index requests -/

inductive StoredIndexKind where
  | range
  | text
  | point
  | lookup
  | vector
  | fulltext
deriving DecidableEq

inductive StoredIndexEntity where
  | node
  | relationship
deriving DecidableEq

/-- An index option. -/
inductive IndexConfigValue where
  | number (value : F64)
  | integer (value : Int64)
  | string (value : String)
  | bool (value : Bool)
  | list (values : List IndexConfigValue)
  | map (entries : List (String × IndexConfigValue))
  | null

namespace IndexConfigValue

mutual

/-- Equality of options, constructor by constructor. -/
def same : IndexConfigValue → IndexConfigValue → Bool
  | .number a, .number b => a == b
  | .integer a, .integer b => a == b
  | .string a, .string b => a == b
  | .bool a, .bool b => a == b
  | .list as, .list bs => sameList as bs
  | .map as, .map bs => sameEntries as bs
  | .null, .null => true
  | _, _ => false
termination_by structural a => a

def sameList : List IndexConfigValue → List IndexConfigValue → Bool
  | [], [] => true
  | a :: as, b :: bs => same a b && sameList as bs
  | _, _ => false
termination_by structural as => as

def sameEntries : List (String × IndexConfigValue) → List (String × IndexConfigValue) → Bool
  | [], [] => true
  | (k, a) :: as, (k', b) :: bs => k == k' && same a b && sameEntries as bs
  | _, _ => false
termination_by structural as => as

end

mutual

theorem same_iff : ∀ a b : IndexConfigValue, same a b = true ↔ a = b
  | .list as, b => by cases b <;> simp [same, sameList_iff as]
  | .map as, b => by cases b <;> simp [same, sameEntries_iff as]
  | .number _, b | .integer _, b | .string _, b | .bool _, b | .null, b => by
    cases b <;> simp [same]

theorem sameList_iff : ∀ as bs : List IndexConfigValue, sameList as bs = true ↔ as = bs
  | [], bs => by cases bs <;> simp [sameList]
  | a :: as, bs => by
    cases bs with
    | nil => simp [sameList]
    | cons b bs => simp [sameList, same_iff a b, sameList_iff as bs]

theorem sameEntries_iff :
    ∀ as bs : List (String × IndexConfigValue), sameEntries as bs = true ↔ as = bs
  | [], bs => by cases bs <;> simp [sameEntries]
  | (k, a) :: as, bs => by
    cases bs with
    | nil => simp [sameEntries]
    | cons b bs =>
      obtain ⟨k', b⟩ := b
      simp [sameEntries, same_iff a b, sameEntries_iff as bs]

end

/-- Induction on an option: a list or a map comes with the hypothesis for every option
inside it. -/
@[elab_as_elim, induction_eliminator]
theorem induction {P : IndexConfigValue → Prop}
    (number : ∀ value, P (.number value)) (integer : ∀ value, P (.integer value))
    (string : ∀ value, P (.string value)) (bool : ∀ value, P (.bool value))
    (list : ∀ values, (∀ v ∈ values, P v) → P (.list values))
    (map : ∀ entries, (∀ e ∈ entries, P e.2) → P (.map entries))
    (null : P .null) (v : IndexConfigValue) : P v :=
  @IndexConfigValue.rec P (fun values => ∀ v ∈ values, P v) (fun entries => ∀ e ∈ entries, P e.2)
    (fun e => P e.2)
    number integer string bool list map null
    (by simp) (fun _ _ hv hvs => List.forall_mem_cons.mpr ⟨hv, hvs⟩)
    (by simp) (fun _ _ he hes => List.forall_mem_cons.mpr ⟨he, hes⟩)
    (fun _ _ hv => hv) v

instance : DecidableEq IndexConfigValue := fun a b =>
  decidable_of_iff (same a b = true) (same_iff a b)

mutual

/-- The keys of every map, at every depth, ascend strictly. -/
def keyed : IndexConfigValue → Bool
  | .list values => keyedList values
  | .map entries => decide (SortedMap.Sorted entries) && keyedEntries entries
  | _ => true
termination_by structural v => v

def keyedList : List IndexConfigValue → Bool
  | [] => true
  | v :: vs => keyed v && keyedList vs
termination_by structural vs => vs

def keyedEntries : List (String × IndexConfigValue) → Bool
  | [] => true
  | (_, v) :: es => keyed v && keyedEntries es
termination_by structural es => es

end

theorem keyedList_iff {values : List IndexConfigValue} :
    keyedList values = true ↔ ∀ v ∈ values, keyed v = true := by
  induction values with
  | nil => simp [keyedList]
  | cons v vs ih => simp [keyedList, ih]

theorem keyedEntries_iff {entries : List (String × IndexConfigValue)} :
    keyedEntries entries = true ↔ ∀ e ∈ entries, keyed e.2 = true := by
  induction entries with
  | nil => simp [keyedEntries]
  | cons e es ih => simp [keyedEntries, ih]

end IndexConfigValue

/-- The options of an index, sorted by name. -/
structure IndexOptions where
  entries : List (String × IndexConfigValue)
  sorted : SortedMap.Sorted entries
deriving DecidableEq

namespace IndexOptions

/-- No options. -/
def empty : IndexOptions := ⟨[], SortedMap.sorted_nil⟩

/-- Insert options in order, later ones winning. -/
def ofEntries (entries : List (String × IndexConfigValue)) : IndexOptions :=
  ⟨SortedMap.putAll [] entries, SortedMap.sorted_nil.putAll entries⟩

theorem ofEntries_entries (options : IndexOptions) : ofEntries options.entries = options := by
  cases options with
  | mk entries sorted =>
    have h : SortedMap.putAll [] entries = entries := sorted.putAll_nil
    simp only [ofEntries, h]

end IndexOptions

/-- A request to create an index. -/
structure IndexRequest where
  explicitName : Option String
  kind : StoredIndexKind
  entity : StoredIndexEntity
  label : Option String
  /-- Further labels; only FULLTEXT requests have any. -/
  additionalLabels : List String
  properties : List String
  options : IndexOptions
deriving DecidableEq

/-! ### Constraint requests -/

inductive StoredScalarType where
  | boolean
  | string
  | integer
  | float
  | date
  | localTime
  | zonedTime
  | localDateTime
  | zonedDateTime
  | duration
  | point
  | map
  | any
deriving DecidableEq

inductive StoredVectorCoordType where
  | int8
  | int16
  | int32
  | int64
  | float32
  | float64
deriving DecidableEq

/-- One alternative of a declared property type. -/
inductive StoredPropertyTypeTerm where
  | scalar (type : StoredScalarType)
  | list (inner : StoredPropertyTypeTerm) (notNull : Bool)
  | vector (coord : StoredVectorCoordType) (dimension : UInt32)
deriving DecidableEq

structure StoredPropertyType where
  alternatives : List StoredPropertyTypeTerm
deriving DecidableEq

inductive StoredConstraintKind where
  | unique
  | existence
  | nodeKey
  | relationshipKey
  | propertyType (type : StoredPropertyType)
deriving DecidableEq

/-- The index a uniqueness or key constraint is checked through. -/
inductive ConstraintBacking where
  | range
  | hash
deriving DecidableEq

/-- A request to create a constraint. -/
structure ConstraintRequest where
  name : String
  kind : StoredConstraintKind
  entity : StoredIndexEntity
  label : String
  properties : List String
  backing : ConstraintBacking
deriving DecidableEq

/-- Uniqueness and key constraints own a backing index. -/
def StoredConstraintKind.requiresBackingIndex : StoredConstraintKind → Bool
  | .unique | .nodeKey | .relationshipKey => true
  | .existence | .propertyType _ => false

/-- The backing is `hash` only where there is a backing index to be hashed. -/
def ConstraintRequest.backed (request : ConstraintRequest) : Bool :=
  request.backing = .range || request.kind.requiresBackingIndex

/-! ### Events -/

/-- A mutation the store applied. -/
inductive MutationEvent where
  | createNode (id : NodeId) (labels : List String) (properties : PropertyMap)
  | createRelationship (id : RelationshipId) (src dst : NodeId) (relType : String)
      (properties : PropertyMap)
  | setNodeProperty (nodeId : NodeId) (key : String) (value : PropertyValue)
  | removeNodeProperty (nodeId : NodeId) (key : String)
  | addNodeLabel (nodeId : NodeId) (label : String)
  | removeNodeLabel (nodeId : NodeId) (label : String)
  | setRelationshipProperty (relId : RelationshipId) (key : String) (value : PropertyValue)
  | removeRelationshipProperty (relId : RelationshipId) (key : String)
  | deleteRelationship (relId : RelationshipId)
  | deleteNode (nodeId : NodeId)
  | detachDeleteNode (nodeId : NodeId)
  | clear
  | createIndex (request : IndexRequest) (ifNotExists : Bool)
  | dropIndex (name : String) (ifExists : Bool)
  | createConstraint (request : ConstraintRequest) (ifNotExists : Bool)
  | dropConstraint (name : String) (ifExists : Bool)
deriving DecidableEq

/-- Identifiers are 64-bit numbers. -/
def idLimit : ℕ := 2 ^ 64

namespace MutationEvent

/-- The property values an event carries. -/
def values : MutationEvent → List PropertyValue
  | .createNode _ _ properties => properties.entries.map Prod.snd
  | .createRelationship _ _ _ _ properties => properties.entries.map Prod.snd
  | .setNodeProperty _ _ value => [value]
  | .setRelationshipProperty _ _ value => [value]
  | _ => []

/-- The identifiers an event carries. -/
def ids : MutationEvent → List ℕ
  | .createNode id _ _ => [id]
  | .createRelationship id src dst _ _ => [id, src, dst]
  | .setNodeProperty id _ _ | .removeNodeProperty id _ | .addNodeLabel id _
  | .removeNodeLabel id _ | .setRelationshipProperty id _ _
  | .removeRelationshipProperty id _ | .deleteRelationship id | .deleteNode id
  | .detachDeleteNode id => [id]
  | .clear | .createIndex _ _ | .dropIndex _ _ | .createConstraint _ _
  | .dropConstraint _ _ => []

/-- The index options an event carries. -/
def options : MutationEvent → List IndexConfigValue
  | .createIndex request _ => request.options.entries.map Prod.snd
  | _ => []

/-- The constraint requests an event carries. -/
def constraintRequests : MutationEvent → List ConstraintRequest
  | .createConstraint request _ => [request]
  | _ => []

/-- What the source's types guarantee of an event: identifiers fit 64 bits, and nested maps
have ascending keys. -/
def WellTyped (event : MutationEvent) : Prop :=
  (∀ id ∈ event.ids, id < idLimit) ∧ (∀ v ∈ event.values, v.keyed = true) ∧
    ∀ v ∈ event.options, v.keyed = true

instance (event : MutationEvent) : Decidable event.WellTyped := by
  unfold WellTyped
  infer_instance

end MutationEvent

end LoraDb
