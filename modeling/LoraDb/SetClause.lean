import LoraDb.Constraints
import LoraDb.DeleteClause
import LoraDb.VarLength

/-!
# The SET Clause

How a row applies the items of a `SET`. Consecutive items that write properties of one node
variable make a run, which is stored as one edit of the record where the row allows it: the
variable is bound to a node, and no variable the later values name holds an entity. Where it
does not, and where a constraint spans two properties, the items are applied one by one.

A failure stops the clause. What was written before it stays in the store, which the failing
statement then discards.
-/

namespace LoraDb

/-! ### Values stored as properties -/

mutual

/-- Whether a value is, or holds, a node, relationship or path. -/
def LoraValue.holdsEntity : LoraValue → Bool
  | .node _ | .relationship _ | .path _ => true
  | .list items => anyHoldsEntity items
  | .map entries => anyEntryHoldsEntity entries
  | _ => false
termination_by structural value => value

def LoraValue.anyHoldsEntity : List LoraValue → Bool
  | [] => false
  | value :: values => holdsEntity value || anyHoldsEntity values
termination_by structural values => values

def LoraValue.anyEntryHoldsEntity : List (String × LoraValue) → Bool
  | [] => false
  | (_, value) :: entries => holdsEntity value || anyEntryHoldsEntity entries
termination_by structural entries => entries

end

/-- What a list element, map entry or scalar counts for in `MAX_VALUE_BYTES`. -/
def ELEMENT_BYTES : ℕ := 8

/-- How deep lists and maps may be nested in a value. -/
def MAX_VALUE_NESTING : ℕ := 128

mutual

/-- The nesting depth of a value and its size. -/
def LoraValue.measure : LoraValue → ℕ × ℕ
  | .string s => (0, ELEMENT_BYTES + s.utf8ByteSize)
  | .binary b => (0, ELEMENT_BYTES + b.segments.flatten.length)
  | .path p => (0, ELEMENT_BYTES + (p.nodes.length + p.rels.length) * ELEMENT_BYTES)
  | .vector v => (0, ELEMENT_BYTES + v.dimension.toNat * ELEMENT_BYTES)
  | .list items => ((measureAll items).1 + 1, ELEMENT_BYTES + (measureAll items).2)
  | .map entries => ((measureEntries entries).1 + 1, ELEMENT_BYTES + (measureEntries entries).2)
  | _ => (0, ELEMENT_BYTES)
termination_by structural value => value

def LoraValue.measureAll : List LoraValue → ℕ × ℕ
  | [] => (0, 0)
  | value :: values =>
    (max (measure value).1 (measureAll values).1, (measure value).2 + (measureAll values).2)
termination_by structural values => values

def LoraValue.measureEntries : List (String × LoraValue) → ℕ × ℕ
  | [] => (0, 0)
  | (key, value) :: entries =>
    (max (measure value).1 (measureEntries entries).1,
      key.utf8ByteSize + (measure value).2 + (measureEntries entries).2)
termination_by structural entries => entries

end

inductive PropertyConversionError where
  | nestedVectorInList
  | unsupportedKind (kind : String)
  | limit

mutual

/-- The parts of a value that cannot be stored: entities, and vectors directly in a list. -/
def LoraValue.visit : LoraValue → Bool → Except PropertyConversionError Unit
  | .vector _, true => .error .nestedVectorInList
  | .node _, _ => .error (.unsupportedKind "a node")
  | .relationship _, _ => .error (.unsupportedKind "a relationship")
  | .path _, _ => .error (.unsupportedKind "a path")
  | .list items, _ => visitAll items
  | .map entries, insideList => visitEntries entries insideList
  | _, _ => .ok ()
termination_by structural value => value

def LoraValue.visitAll : List LoraValue → Except PropertyConversionError Unit
  | [] => .ok ()
  | value :: values => do
    visit value true
    visitAll values
termination_by structural values => values

def LoraValue.visitEntries : List (String × LoraValue) → Bool → Except PropertyConversionError Unit
  | [], _ => .ok ()
  | (_, value) :: entries, insideList => do
    visit value insideList
    visitEntries entries insideList
termination_by structural entries => entries

end

mutual

def PropertyValue.ofValue : LoraValue → PropertyValue
  | .null => .null
  | .bool value => .bool value
  | .int value => .int value
  | .float value => .float value
  | .string value => .string value
  | .binary value => .binary value
  | .list values => .list (ofValues values)
  | .map entries => .map (ofEntries entries)
  | .node id => .string s!"node:{id}"
  | .relationship id => .string s!"rel:{id}"
  | .path _ => .null
  | .date value => .date value
  | .time value => .time value
  | .localTime value => .localTime value
  | .dateTime value => .dateTime value
  | .localDateTime value => .localDateTime value
  | .duration value => .duration value
  | .point value => .point value
  | .vector value => .vector value
termination_by structural value => value

def PropertyValue.ofValues : List LoraValue → List PropertyValue
  | [] => []
  | value :: values => ofValue value :: ofValues values
termination_by structural values => values

def PropertyValue.ofEntries : List (String × LoraValue) → List (String × PropertyValue)
  | [] => []
  | (key, value) :: entries => (key, ofValue value) :: ofEntries entries
termination_by structural entries => entries

end

/-- A value as a property, unless it is too large or has a part that cannot be stored. -/
def loraValueToProperty (value : LoraValue) : Except PropertyConversionError PropertyValue := do
  if MAX_VALUE_NESTING < value.measure.1 ∨ MAX_VALUE_BYTES < value.measure.2 then
    .error .limit
  value.visit false
  .ok (.ofValue value)

/-! ### The executor -/

inductive SetError where
  | eval (message : String)
  | constraintViolation (violation : ConstraintViolation)
  | runtimeError (error : PropertyConversionError)
  | unsupportedSetTarget
  | invalidSetTarget (found : String)
  | expectedPropertyMap (found : String)
  | unboundVariableForSet (var : VarId)
  | expectedNodeForSetLabels (found : String)

/-- What the clause changes: the store, and the entities whose required properties are checked
at the end of the statement. -/
@[ext] structure Executor where
  storage : InMemoryGraph
  pendingExistence : List EntityTarget

/-- What it reads. The operators and builtins may read the graph. -/
structure SetContext where
  params : String → Option LoraValue
  ops : InMemoryGraph → ValueOps
  catalog : ConstraintCatalog
  /-- Whether required properties are checked at the end of the statement. -/
  deferExistence : Bool

/-- A failure keeps the state it was met in. -/
abbrev ExecM := EStateM SetError Executor

namespace InMemoryGraph

variable (g : InMemoryGraph)

def setProperty (key : String) (value : PropertyValue) : EntityTarget → InMemoryGraph
  | .node id => (g.setNodeProperty id key value).1
  | .relationship id => (g.setRelationshipProperty id key value).1

def removeProperty (key : String) : EntityTarget → InMemoryGraph
  | .node id => (g.removeNodeProperty id key).1
  | .relationship id => (g.removeRelationshipProperty id key).1

/-- `replace_node_properties`, `replace_relationship_properties`: what is there is removed, one
property after the other, and the new ones are set. -/
def replaceProperties (properties : PropertyMap) (target : EntityTarget) : InMemoryGraph :=
  match g.constraintRecord target with
  | none => g
  | some record =>
    properties.entries.foldl (fun g entry => g.setProperty entry.1 entry.2 target)
      (record.properties.entries.foldl (fun g entry => g.removeProperty entry.1 target) g)

end InMemoryGraph

inductive ResolvedSetItem where
  /-- `SET target = value`, where the target is a property of something. -/
  | setProperty (target value : ResolvedExpr)
  /-- `SET var = value` -/
  | setVariable (var : VarId) (value : ResolvedExpr)
  /-- `SET var += value` -/
  | mutateVariable (var : VarId) (value : ResolvedExpr)
  | setLabels (var : VarId) (labels : List String)

/-- The expression an item evaluates, if any. -/
def ResolvedSetItem.value : ResolvedSetItem → Option ResolvedExpr
  | .setProperty _ value => some value
  | .setVariable _ value => some value
  | .mutateVariable _ value => some value
  | .setLabels _ _ => none

namespace SetContext

variable (ctx : SetContext)

def evalContext (g : InMemoryGraph) : EvalContext := ⟨g, ctx.params, ctx.ops g⟩

/-- The value of an expression on a graph, or the error it left. -/
def evalOn (g : InMemoryGraph) (e : ResolvedExpr) (row : Row) : Except SetError LoraValue :=
  let result := e.eval (ctx.evalContext g) row
  match result.error with
  | some message => .error (.eval message)
  | none => .ok result.value

def ofExcept {α : Type} : Except SetError α → ExecM α
  | .ok a => pure a
  | .error e => throw e

def evalExprResult (e : ResolvedExpr) (row : Row) : ExecM LoraValue := do
  let st ← get
  ofExcept (ctx.evalOn st.storage e row)

def check (test : InMemoryGraph → Except ConstraintViolation Unit) : ExecM Unit := do
  let st ← get
  match test st.storage with
  | .ok () => pure ()
  | .error violation => throw (.constraintViolation violation)

def convert (value : LoraValue) : ExecM PropertyValue :=
  match loraValueToProperty value with
  | .ok property => pure property
  | .error e => throw (.runtimeError e)

def edit (f : InMemoryGraph → InMemoryGraph) : ExecM Unit :=
  modify fun st => { st with storage := f st.storage }

def owe (target : EntityTarget) : ExecM Unit :=
  modify fun st => { st with pendingExistence := st.pendingExistence ++ [target] }

/-! ### One write at a time -/

def removeEntityProperty (target : EntityTarget) (key : String) : ExecM Unit := do
  if ctx.deferExistence then
    edit (·.removeProperty key target)
    owe target
  else
    check fun g => checkRemoveProperty ctx.catalog g target key
    edit (·.removeProperty key target)

/-- Set a property, or remove it where the value is null. -/
def writeProperty (target : EntityTarget) (key : String) (value : LoraValue) : ExecM Unit :=
  match value with
  | .null => ctx.removeEntityProperty target key
  | value => do
    let property ← convert value
    check fun g => checkSetProperty ctx.catalog g target key property
    edit (·.setProperty key property target)

def setPropertyFromExpr (row : Row) (target : ResolvedExpr) (value : LoraValue) : ExecM Unit :=
  match target with
  | .apply (.property key) [expr] => do
    match ← ctx.evalExprResult expr row with
    | .node id => ctx.writeProperty (.node id) key value
    | .relationship id => ctx.writeProperty (.relationship id) key value
    | other => throw (.invalidSetTarget (valueKind other))
  | _ => throw .unsupportedSetTarget

/-! ### Several writes at once -/

/-- The check of one of several writes, and the write it comes to. -/
def checkEdit (id : NodeId) (entry : String × LoraValue) : ExecM (String × Option PropertyValue) :=
  match entry.2 with
  | .null => do
    if ctx.deferExistence then owe (.node id)
    else check fun g => checkRemoveProperty ctx.catalog g (.node id) entry.1
    pure (entry.1, none)
  | value => do
    let property ← convert value
    check fun g => checkSetProperty ctx.catalog g (.node id) entry.1 property
    pure (entry.1, some property)

/-- Every write is checked, and then all are stored as one edit. -/
def writeNodeProperties (id : NodeId) (edits : List (String × LoraValue)) : ExecM Unit := do
  let writes ← edits.mapM (ctx.checkEdit id)
  edit fun g => (g.updateNodeProperties id writes).1

/-! ### The items -/

def entityTargetFromValue (row : Row) (var : VarId) : ExecM EntityTarget :=
  match row var with
  | none => throw (.unboundVariableForSet var)
  | some (.node id) => pure (.node id)
  | some (.relationship id) => pure (.relationship id)
  | some other => throw (.invalidSetTarget (valueKind other))

def overwriteEntityTarget (target : EntityTarget) (value : LoraValue) : ExecM Unit :=
  match value with
  | .map entries => do
    let properties ← (entries.filter fun entry => match entry.2 with
      | .null => false
      | _ => true).mapM fun entry => do
        let property ← convert entry.2
        pure (entry.1, property)
    check fun g => checkReplaceProperties ctx.catalog g target (.ofEntries properties)
      (!ctx.deferExistence)
    edit (·.replaceProperties (.ofEntries properties) target)
    if ctx.deferExistence then owe target
  | other => throw (.expectedPropertyMap (valueKind other))

/-- `combine` is whether several writes to a node may be stored as one. -/
def mutateEntityTarget (combine : Bool) (target : EntityTarget) (patch : LoraValue) : ExecM Unit :=
  match patch with
  | .map entries =>
    match target with
    | .node id =>
      if 1 < entries.length && combine then ctx.writeNodeProperties id entries
      else entries.forM fun entry => ctx.writeProperty target entry.1 entry.2
    | .relationship _ => entries.forM fun entry => ctx.writeProperty target entry.1 entry.2
  | other => throw (.expectedPropertyMap (valueKind other))

def setLabels (row : Row) (var : VarId) (labels : List String) : ExecM Unit :=
  match row var with
  | some (.node id) => do
    labels.forM fun label => do
      check fun g => checkAddLabel ctx.catalog g id label (!ctx.deferExistence)
      edit fun g => (g.addNodeLabel id label).1
    if ctx.deferExistence then owe (.node id)
  | some other => throw (.expectedNodeForSetLabels (valueKind other))
  | none => throw (.unboundVariableForSet var)

def applySetItem (combine : Bool) (row : Row) : ResolvedSetItem → ExecM Unit
  | .setProperty target value => do
    let value ← ctx.evalExprResult value row
    ctx.setPropertyFromExpr row target value
  | .setVariable var value => do
    let target ← entityTargetFromValue row var
    let value ← ctx.evalExprResult value row
    ctx.overwriteEntityTarget target value
  | .mutateVariable var value => do
    let target ← entityTargetFromValue row var
    let patch ← ctx.evalExprResult value row
    ctx.mutateEntityTarget combine target patch
  | .setLabels var labels => ctx.setLabels row var labels

end SetContext

/-! ### Runs -/

/-- Items `start` up to `stop` set properties of `var`; `later` are the variables the values of
all but the first name. -/
structure PropertyRun where
  start : ℕ
  stop : ℕ
  var : VarId
  later : Finset VarId

/-- The variable an item writes a property of. -/
def runTarget : ResolvedSetItem → Option VarId
  | .setProperty (.apply (.property _) [.variable var]) _ => some var
  | _ => none

/-- The variables the values of some items name. -/
def valueVars : List ResolvedSetItem → Finset VarId
  | [] => ∅
  | item :: items => ((item.value.map ResolvedExpr.collectVars).getD ∅) ∪ valueVars items

/-- The runs of two items or more; `i` is the number of items before these. -/
def propertyRuns (i : ℕ) : List ResolvedSetItem → List PropertyRun
  | [] => []
  | item :: items =>
    match runTarget item with
    | none => propertyRuns (i + 1) items
    | some var =>
      let rest := items.takeWhile fun other => runTarget other == some var
      let runs := propertyRuns (i + 1 + rest.length) (items.drop rest.length)
      if rest = [] then runs
      else ⟨i, i + 1 + rest.length, var, valueVars rest⟩ :: runs
termination_by items => items.length
decreasing_by
  · rw [List.length_cons]
    exact Nat.lt_succ_self _
  · rw [List.length_drop, List.length_cons]
    omega

/-- Whether a row allows a run: no variable the later values name holds an entity, or is
unbound. -/
def plainOn (row : Row) (vars : Finset VarId) : Bool :=
  decide (∀ var ∈ vars, (row var).any (fun value => !value.holdsEntity) = true)

namespace SetContext

variable (ctx : SetContext)

/-- The node the row binds the variable of a run to. -/
def runNode (row : Row) (var : VarId) : Option NodeId :=
  match row var with
  | some (.node id) => some id
  | _ => none

/-- Every value of a run, evaluated before any is written. -/
def evalEdits (row : Row) : List ResolvedSetItem → ExecM (List (String × LoraValue))
  | [] => pure []
  | .setProperty (.apply (.property key) _) value :: items => do
    let value ← ctx.evalExprResult value row
    let edits ← evalEdits row items
    pure ((key, value) :: edits)
  | _ :: items => evalEdits row items

def applyPropertyRun (row : Row) (items : List ResolvedSetItem) (id : NodeId) : ExecM Unit := do
  let edits ← ctx.evalEdits row items
  ctx.writeNodeProperties id edits

def applyRun (combine : Bool) (row : Row) (run : PropertyRun) (items : List ResolvedSetItem) :
    ExecM Unit :=
  match runNode row run.var with
  | some id =>
    if plainOn row run.later then ctx.applyPropertyRun row items id
    else items.forM (ctx.applySetItem combine row)
  | none => items.forM (ctx.applySetItem combine row)

/-- The items in order, each run that the row allows as one write; the first `next` are
done. -/
def applySetItems (combine : Bool) (row : Row) (items : List ResolvedSetItem) :
    ℕ → List PropertyRun → ExecM Unit
  | next, [] => (items.drop next).forM (ctx.applySetItem combine row)
  | next, run :: runs => do
    ((items.drop next).take (run.start - next)).forM (ctx.applySetItem combine row)
    ctx.applyRun combine row run ((items.drop run.start).take (run.stop - run.start))
    applySetItems combine row items run.stop runs

/-- The clause for one row: runs are looked for where writes may be combined. -/
def execSet (combine : Bool) (row : Row) (items : List ResolvedSetItem) : ExecM Unit :=
  ctx.applySetItems combine row items 0 (if combine then propertyRuns 0 items else [])

end SetContext

end LoraDb
