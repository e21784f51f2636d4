import LoraDb.Eval
import Mathlib.Data.Finset.Sort

/-!
# Running Pattern Plans

The operators a pattern is planned as, over the in-memory graph: each takes the rows of the
operator before it, in order, and gives its own or fails. Rows come all at once here; what a
pull pipeline gives when it is drained.
-/

namespace LoraDb

inductive ExecutorError where
  | eval (message : String)
  | expectedNodeForExpand (var : VarId) (found : LoraValue)
  | expectedRelationshipForExpand (var : VarId) (found : LoraValue)
  | expectedPropertyMap (found : LoraValue)

/-! ### The graph, as operators read it -/

/-- The entries a traversal by type follows. -/
inductive TypeFilter where
  | any
  | many (ids : List ℕ)
  /-- A type was asked for that no relationship has ever had. -/
  | nothing

def TypeFilter.resolve (dict : NameDict) (types : List String) : TypeFilter :=
  if types = [] then .any
  else match types.filterMap dict.idOf with
    | [] => .nothing
    | ids => .many ids

def TypeFilter.accepts : TypeFilter → ℕ → Bool
  | .any, _ => true
  | .many ids, typeId => ids.contains typeId
  | .nothing, _ => false

namespace InMemoryGraph

variable (g : InMemoryGraph)

/-- The relationships and far ends that one list of a node offers a traversal. -/
def adjacentEntries (node : NodeId) (side : Side) (filter : TypeFilter) (skipSelfLoops : Bool) :
    List (RelationshipId × NodeId) :=
  ((g.list node side).filter fun e =>
    !(skipSelfLoops && e.neighbour == node) && filter.accepts e.typeId).map
      fun e => (e.rel, e.neighbour)

/-- The relationships of some types at a node, each with the node at the other end. -/
def expandIds (node : NodeId) (direction : Direction) (types : List String) :
    List (RelationshipId × NodeId) :=
  if g.hasNodeAt node then
    let filter := TypeFilter.resolve g.types types
    (if direction = .left then [] else g.adjacentEntries node .out filter false) ++
      (if direction = .right then []
        else g.adjacentEntries node .into filter (direction == .undirected))
  else []

def allNodeIds : List NodeId := g.nodes.slots

def nodeIdsByLabel (label : String) : List NodeId := (g.nodesByLabel.ids label).sort (· ≤ ·)

/-- The nodes with a label of one group, each once. -/
def labelGroupCandidateIds (group : List String) : List NodeId :=
  (group.flatMap g.nodeIdsByLabel).foldl
    (fun out id => if id ∈ out then out else out ++ [id]) []

/-- The candidates of the first smallest group. -/
def scanNodeIdsForLabelGroups (groups : List (List String)) : List NodeId :=
  match groups.map g.labelGroupCandidateIds with
  | [] => g.allNodeIds
  | ids :: rest =>
    rest.foldl (fun best ids => if ids.length < best.length then ids else best) ids

end InMemoryGraph

/-- A label of every group. -/
def nodeMatchesLabelGroups (labels : List String) (groups : List (List String)) : Bool :=
  groups.all fun group => group.any fun label => labels.contains label

/-! ### Bindings -/

/-- The node a row binds a variable to, if it binds it: `some none` is a null, which no
node is. -/
def boundNodeIdForExpand (row : Row) (var : VarId) :
    Except ExecutorError (Option (Option NodeId)) :=
  match row var with
  | some (.node id) => .ok (some (some id))
  | some .null => .ok (some none)
  | some other => .error (.expectedNodeForExpand var other)
  | none => .ok none

def boundRelationshipIdForExpand (row : Row) (var : VarId) :
    Except ExecutorError (Option (Option RelationshipId)) :=
  match row var with
  | some (.relationship id) => .ok (some (some id))
  | some .null => .ok (some none)
  | some other => .error (.expectedRelationshipForExpand var other)
  | none => .ok none

/-- An identifier fits a binding: there is none, or it is the one bound. -/
def fits (bound : Option (Option ℕ)) (id : ℕ) : Bool :=
  match bound with
  | some bound => bound == some id
  | none => true

/-- Bind a variable, unless it is bound. -/
def Row.bindNew (row : Row) (var : VarId) (value : LoraValue) : Row :=
  if (row var).isSome then row else row.insert var value

namespace EvalContext

variable (ctx : EvalContext)

/-- Whether a predicate holds in a row, or the error it evaluates to. -/
def evalTruthy (predicate : ResolvedExpr) (row : Row) : Except ExecutorError Bool :=
  match (predicate.eval ctx row).error with
  | some message => .error (.eval message)
  | none => .ok (predicate.eval ctx row).value.isTruthy

/-! ### Operators -/

/-- The rows a node scan gives for one row. A bound variable is only tested. -/
def scanRow (var : VarId) (labels : LabelGroups) (row : Row) : Except ExecutorError (List Row) := do
  let labelsOk := fun id =>
    match ctx.storage.nodeAt id with
    | some record => nodeMatchesLabelGroups record.labels labels.groups
    | none => false
  match ← boundNodeIdForExpand row var with
  | some (some id) => pure (if labelsOk id then [row] else [])
  | some none => pure []
  | none =>
    let ids := ctx.storage.scanNodeIdsForLabelGroups labels.groups
    let ids := if labels.groups.length ≤ 1 then ids else ids.filter labelsOk
    pure (ids.map fun id => row.insert var (.node id))

/-- Whether a relationship has the properties of an inline map. -/
def relMatches (expected : List (String × LoraValue)) (rel : RelationshipId) : Bool :=
  match ctx.storage.relAt rel with
  | some record => expected.all fun (key, value) =>
    match record.properties.get key with
    | some actual => ctx.ops.valueMatches value actual
    | none => false
  | none => false

/-- Bind the relationship variable of a row that `row` was extended to, if it fits what `row`
binds. -/
def bindRelationship (rel : Option VarId) (row extended : Row) (relId : RelationshipId) :
    Except ExecutorError (List Row) :=
  match rel with
  | none => .ok [extended]
  | some var => do
    let bound ← boundRelationshipIdForExpand row var
    pure (if fits bound relId then [extended.bindNew var (.relationship relId)] else [])

/-- The row that one relationship extends a row to, if it fits what the row binds. -/
def expandEdge (rel : Option VarId) (dst : VarId) (row : Row) (relId : RelationshipId)
    (dstId : NodeId) : Except ExecutorError (List Row) := do
  let bound ← boundNodeIdForExpand row dst
  if fits bound dstId then bindRelationship rel row (row.bindNew dst (.node dstId)) relId
  else pure []

/-- The properties an expansion asks of a relationship; evaluated once for a row. -/
def relPropertyFilter (relProperties : Option ResolvedExpr) (row : Row) :
    Except ExecutorError (Option (List (String × LoraValue))) :=
  match relProperties with
  | none => .ok none
  | some expr =>
    match (expr.eval ctx row).value with
    | .map expected => .ok (some expected)
    | found => .error (.expectedPropertyMap found)

def relKept (expected : Option (List (String × LoraValue))) (rel : RelationshipId) : Bool :=
  match expected with
  | some expected => ctx.relMatches expected rel
  | none => true

/-- The rows an expansion gives for one row. -/
def expandRow (src : VarId) (rel : Option VarId) (dst : VarId) (types : List String)
    (direction : Direction) (relProperties : Option ResolvedExpr) (row : Row) :
    Except ExecutorError (List Row) := do
  match ← boundNodeIdForExpand row src with
  | some (some srcId) =>
    let edges := ctx.storage.expandIds srcId direction types
    if edges.isEmpty then pure []
    else
      let expected ← ctx.relPropertyFilter relProperties row
      let kept := edges.filter fun edge => ctx.relKept expected edge.1
      return (← kept.mapM fun edge => expandEdge rel dst row edge.1 edge.2).flatten
  | _ => pure []

/-- The rows an operator gives for one row of its input. -/
def runRow (op : MatchOp) (row : Row) : Except ExecutorError (List Row) :=
  match op with
  | .nodeScan var labels => ctx.scanRow var labels row
  | .expand src rel dst types direction relProperties =>
    ctx.expandRow src rel dst types direction relProperties row
  | .filter predicate => do
    return if ← ctx.evalTruthy predicate row then [row] else []

/-- The rows a plan gives for some rows. -/
def run : List MatchOp → List Row → Except ExecutorError (List Row)
  | [], rows => .ok rows
  | op :: ops, rows => do
    let out ← rows.mapM (ctx.runRow op)
    run ops out.flatten

end EvalContext

end LoraDb
