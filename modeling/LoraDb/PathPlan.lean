import LoraDb.PathBuild

/-!
# Planning Whole Patterns

The parts of a MATCH pattern with all they may have: variable-length relationships, a path
variable, a shortest path. The planner is the one for plain chains; a chain with a
variable-length relationship or a path variable is always walked as written, and a part with a
path variable ends in an operator that builds the path.

The inline map of a variable-length relationship is never read by its operator.
-/

open List

namespace LoraDb

namespace PathPlan

/-! ### Patterns -/

/-- A step of a chain; a relationship with a `range` is of variable length. -/
structure ResolvedStep where
  rel : ResolvedRel
  range : Option RangeLiteral
  node : ResolvedNode

inductive ResolvedElement where
  | node (node : ResolvedNode)
  | nodeChain (head : ResolvedNode) (chain : List ResolvedStep)
  | shortestPath (all : Bool) (head : ResolvedNode) (chain : List ResolvedStep)

structure ResolvedPatternPart where
  /-- The path variable. -/
  binding : Option VarId
  element : ResolvedElement

structure ResolvedPattern where
  parts : List ResolvedPatternPart

def ResolvedStep.vars (step : ResolvedStep) : Finset VarId :=
  step.rel.var.toFinset ∪ {step.node.var}

/-- The variables some steps name. -/
def stepVars : List ResolvedStep → Finset VarId
  | [] => ∅
  | step :: chain => step.vars ∪ stepVars chain

def ResolvedElement.vars : ResolvedElement → Finset VarId
  | .node head => {head.var}
  | .nodeChain head chain | .shortestPath _ head chain => {head.var} ∪ stepVars chain

def ResolvedPatternPart.vars (part : ResolvedPatternPart) : Finset VarId :=
  part.binding.toFinset ∪ part.element.vars

/-- The variables a pattern names. -/
def collectPatternVarSet (pattern : ResolvedPattern) : Finset VarId :=
  pattern.parts.foldr (fun part vars => part.vars ∪ vars) ∅

/-- The variables of a path's nodes, and of its relationships. -/
def collectChainVars : ResolvedElement → List VarId × List VarId
  | .node head => ([head.var], [])
  | .nodeChain head chain | .shortestPath _ head chain =>
    (head.var :: chain.map (·.node.var), chain.filterMap (·.rel.var))

/-! ### Operators -/

/-- A logical operator of a MATCH. -/
inductive PathOp where
  /-- An operator of a plain chain. -/
  | step (op : MatchOp)
  | expandVarLen (src : VarId) (rel : Option VarId) (dst : VarId) (types : List String)
      (direction : Direction) (range : RangeLiteral)
  | pathBuild (output : VarId) (nodeVars relVars : List VarId) (shortestPathAll : Option Bool)

/-! ### Plans -/

/-- The tests and the conjuncts that are ready become one filter. -/
def attachReady (p : PatternPlanner) (checks : List ResolvedExpr) : PatternPlanner × List PathOp :=
  ((p.attachReady checks).1, (p.attachReady checks).2.map .step)

def planNode (p : PatternPlanner) (node : ResolvedNode) : PatternPlanner × List PathOp :=
  ((p.planNode node).1, (p.planNode node).2.map .step)

def planExpand (src : VarId) (step : ResolvedStep) : PathOp :=
  match step.range with
  | some range =>
    .expandVarLen src step.rel.var step.node.var step.rel.types step.rel.direction range
  | none => .step (PatternPlanner.planExpand src ⟨step.rel, step.node⟩)

def planSteps (p : PatternPlanner) (src : VarId) : List ResolvedStep → PatternPlanner × List PathOp
  | [] => (p, [])
  | step :: chain =>
    let (p, ops) := attachReady (p.bindVars step.vars) (PatternPlanner.stepChecks step.node)
    let (p, rest) := planSteps p step.node.var chain
    (p, planExpand src step :: ops ++ rest)

def planNodeChain (p : PatternPlanner) (head : ResolvedNode) (chain : List ResolvedStep) :
    PatternPlanner × List PathOp :=
  let (p, ops) := planNode p head
  let (p, rest) := planSteps p head.var chain
  (p, ops ++ rest)

/-- A chain of plain steps. -/
def plainChain (chain : List ResolvedStep) : List ResolvedChain :=
  chain.map fun step => ⟨step.rel, step.node⟩

def asSteps (chain : List ResolvedChain) : List ResolvedStep :=
  chain.map fun step => ⟨step.rel, none, step.node⟩

/-- A path variable and a variable-length relationship keep the chain as written. -/
def reversible (part : ResolvedPatternPart) (chain : List ResolvedStep) : Bool :=
  part.binding.isNone && !chain.isEmpty && chain.all (·.range.isNone)

/-- Whether a part is walked from its tail. -/
def walksBack (choice : WalkChoice) (p : PatternPlanner) (part : ResolvedPatternPart) : Bool :=
  match part.element with
  | .nodeChain head chain => reversible part chain && choice p head (plainChain chain)
  | _ => false

/-- The operators of a part's element, walked from its tail if `back`. -/
def planElement (back : Bool) (p : PatternPlanner) (part : ResolvedPatternPart) :
    PatternPlanner × List PathOp :=
  match part.element with
  | .node head => planNode p head
  | .shortestPath _ head chain => planNodeChain p head chain
  | .nodeChain head chain =>
    if back then
      planNodeChain p (reverseChain head (plainChain chain)).1
        (asSteps (reverseChain head (plainChain chain)).2)
    else planNodeChain p head chain

def shortestPathAll : ResolvedElement → Option Bool
  | .shortestPath all _ _ => some all
  | _ => none

def planPart (back : Bool) (p : PatternPlanner) (part : ResolvedPatternPart) :
    PatternPlanner × List PathOp :=
  let (p, ops) := planElement back p part
  match part.binding with
  | some pathVar =>
    let (nodeVars, relVars) := collectChainVars part.element
    let (p, rest) := attachReady (p.bindVars {pathVar}) []
    (p, ops ++ .pathBuild pathVar nodeVars relVars (shortestPathAll part.element) :: rest)
  | none => (p, ops)

def planParts (choice : WalkChoice) (p : PatternPlanner) :
    List ResolvedPatternPart → PatternPlanner × List PathOp
  | [] => (p, [])
  | part :: parts =>
    let (p, ops) := planPart (walksBack choice p part) p part
    let (p, rest) := planParts choice p parts
    (p, ops ++ rest)

/-- Which parts a planner walks from their tails. -/
def walks (choice : WalkChoice) (p : PatternPlanner) : List ResolvedPatternPart → List Bool
  | [] => []
  | part :: parts =>
    walksBack choice p part :: walks choice (planPart (walksBack choice p part) p part).1 parts

/-- The planner the parts are planned with: the conjuncts that read pattern variables wait. -/
def patternPlanner (stats : GraphStats) (bound : Finset VarId) (pattern : ResolvedPattern)
    (predicate : Option ResolvedExpr) : PatternPlanner where
  stats := stats
  bound := bound
  pending := (whereConjuncts (collectPatternVarSet pattern) predicate).filter
    fun pending => pending.needs ≠ ∅
  available := ∅

/-- The conjuncts that are applied above the pattern, as one filter. -/
def pushConjuncts (conjuncts : List PendingConjunct) : List PathOp :=
  ((andAll (conjuncts.map PendingConjunct.expr)).map fun e => PathOp.step (.filter e)).toList

/-- The plan of a pattern and its WHERE. -/
def planPatternWithWhere (choice : WalkChoice) (stats : GraphStats) (bound : Finset VarId)
    (pattern : ResolvedPattern) (predicate : Option ResolvedExpr) : List PathOp :=
  let (p, ops) := planParts choice (patternPlanner stats bound pattern predicate) pattern.parts
  let unplaced := (whereConjuncts (collectPatternVarSet pattern) predicate).filter
    fun pending => pending.needs = ∅
  ops ++ pushConjuncts ((unplaced ++ p.pending).mergeSort fun a b => a.order ≤ b.order)

/-- The plan of the parts alone, some of them walked from their tails. -/
def planPattern (p : PatternPlanner) : List Bool → List ResolvedPatternPart → List PathOp
  | back :: walks, part :: parts =>
    let (p, ops) := planPart back p part
    ops ++ planPattern p walks parts
  | _, _ => []

/-- The same pattern, its parts walked alike, with the whole WHERE above it. -/
def planWhereAbove (choice : WalkChoice) (stats : GraphStats) (bound : Finset VarId)
    (pattern : ResolvedPattern) (predicate : Option ResolvedExpr) : List PathOp :=
  planPattern ⟨stats, bound, [], ∅⟩
      (walks choice (patternPlanner stats bound pattern predicate) pattern.parts) pattern.parts ++
    (predicate.map fun e => PathOp.step (.filter e)).toList

/-! ### Running a plan -/

/-- A row with the end of a path bound, and its relationships, which replace what their
variable was bound to. -/
def bindExpansion (rel : Option VarId) (dst : VarId) (row : Row) (result : VarLenResult) : Row :=
  match rel with
  | some rel =>
    (row.insert dst (.node result.dstNodeId)).insert rel
      (.list (result.relIds.map .relationship))
  | none => row.insert dst (.node result.dstNodeId)

/-- The rows a variable-length expansion gives for one row. -/
def expandVarLenRow (ctx : EvalContext) (src : VarId) (rel : Option VarId) (dst : VarId)
    (types : List String) (direction : Direction) (range : RangeLiteral) (row : Row) :
    Except ExecutorError (List Row) := do
  match ← boundNodeIdForExpand row src with
  | some (some srcId) =>
    let boundDst ← boundNodeIdForExpand row dst
    match variableLengthExpand (fun id => ctx.storage.expandIds id direction types)
        (resolveRange range).1 (resolveRange range).2 rel.isSome srcId with
    | .error message => .error (.eval message)
    | .ok expansions =>
      return (expansions.filter fun result => fits boundDst result.dstNodeId).map
        (bindExpansion rel dst row)
  | _ => pure []

def attachPath (storage : InMemoryGraph) (output : VarId) (nodeVars relVars : List VarId)
    (row : Row) : Row :=
  row.insert output (buildPathValue storage row nodeVars relVars)

/-- The rows an operator gives for all rows of its input. -/
def runOp (ctx : EvalContext) (op : PathOp) (rows : List Row) : Except ExecutorError (List Row) :=
  match op with
  | .step op => return (← rows.mapM (ctx.runRow op)).flatten
  | .expandVarLen src rel dst types direction range =>
    return (← rows.mapM (expandVarLenRow ctx src rel dst types direction range)).flatten
  | .pathBuild output nodeVars relVars shortestPathAll =>
    let rows := rows.map (attachPath ctx.storage output nodeVars relVars)
    match shortestPathAll with
    | some all => .ok (shortestPathRows rows output all)
    | none => .ok rows

/-- The rows a plan gives for some rows. -/
def run (ctx : EvalContext) : List PathOp → List Row → Except ExecutorError (List Row)
  | [], rows => .ok rows
  | op :: ops, rows => do
    let out ← runOp ctx op rows
    run ctx ops out

end PathPlan

end LoraDb
