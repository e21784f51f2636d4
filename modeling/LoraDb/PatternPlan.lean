import LoraDb.Resolved

/-!
# Planning Patterns

A MATCH pattern becomes a row of operators: a scan of a chain's first node, an expansion for
each step, and a filter wherever inline maps, labels or conjuncts of the WHERE have everything
they read. A chain may be walked from its last node instead, when that looks cheaper: the
statistics decide (`shouldStartFromTail`), and `reverseChain` turns the chain around.

Counts are natural numbers: a cost stays far below 64 bits unless it is saturated.
-/

namespace LoraDb

/-! ### Statistics -/

/-- The counts of a graph that the pattern planner reads. -/
structure GraphStats where
  nodeCount : ℕ
  relationshipCount : ℕ
  nodesByLabel : String → Option ℕ
  relationshipsByType : String → Option ℕ
  /-- Distinct values by label and key; `none` when no node of the label has the key. -/
  nodeDistinctValues : String → String → Option ℕ

def divCeil (n d : ℕ) : ℕ := (n + d - 1) / d

/-- The nodes of a label that an equality on a key is estimated to find. -/
def GraphStats.estimateNodePropertyEquality (stats : GraphStats) (label key : String) : Option ℕ :=
  (stats.nodesByLabel label).map fun total =>
    match stats.nodeDistinctValues label key with
    | none => 0
    | some distinct => divCeil total (max distinct 1)

def U64_MAX : ℕ := 2 ^ 64 - 1

def saturatingMul (a b : ℕ) : ℕ := min (a * b) U64_MAX

/-! ### Operators -/

/-- A logical operator of a MATCH; its input is the operator before it. -/
inductive MatchOp where
  | nodeScan (var : VarId) (labels : LabelGroups)
  | expand (src : VarId) (rel : Option VarId) (dst : VarId) (types : List String)
      (direction : Direction) (relProperties : Option ResolvedExpr)
  | filter (predicate : ResolvedExpr)

/-- A WHERE conjunct waiting for the pattern variables it reads. -/
structure PendingConjunct where
  order : ℕ
  expr : ResolvedExpr
  needs : Finset VarId

structure PatternPlanner where
  stats : GraphStats
  /-- Variables bound by the clauses planned so far. -/
  bound : Finset VarId
  pending : List PendingConjunct
  /-- Pattern variables bound by the operators planned so far. -/
  available : Finset VarId

/-- The conjuncts of a WHERE, left to right. -/
def splitConjuncts : ResolvedExpr → List ResolvedExpr
  | .and lhs rhs => splitConjuncts lhs ++ splitConjuncts rhs
  | e => [e]

/-- One conjunction of all predicates, or none when there are none. -/
def andAll : List ResolvedExpr → Option ResolvedExpr
  | [] => none
  | e :: es => some (es.foldl .and e)

/-- The builtin that tests a label. -/
def HAS_LABEL : FunctionId := ⟨"node.has_label", false⟩

def hasLabelCall (var : VarId) (label : String) : ResolvedExpr :=
  .call HAS_LABEL false [.variable var, .literal (.string label)]

/-- One of the labels. -/
def anyLabel (var : VarId) : List String → Option ResolvedExpr
  | [] => none
  | label :: labels =>
    some (labels.foldl (fun acc label => .or acc (hasLabelCall var label)) (hasLabelCall var label))

/-- A label of each group, or none when the pattern names no labels. -/
def buildLabelPredicate (var : VarId) (groups : List (List String)) : Option ResolvedExpr :=
  andAll (groups.filterMap (anyLabel var))

/-- The tests of an inline map. -/
def propertyTests (var : VarId) : Option ResolvedExpr → List ResolvedExpr
  | some (.apply (.map keys) values) =>
    (keys.zip values).map fun (key, value) => .binary (.property (.variable var) key) .eq value
  | _ => []

/-- The test of an inline map; anything but a map literal tests nothing. -/
def buildPropertyPredicate (var : VarId) (properties : Option ResolvedExpr) : Option ResolvedExpr :=
  andAll (propertyTests var properties)

namespace PatternPlanner

variable (p : PatternPlanner)

/-! ### Costs -/

def isIdOfVar (expr : ResolvedExpr) (var : VarId) (names : List String) : Bool :=
  match expr with
  | .call function false [.variable v] =>
    v == var && names.any fun name => name.map Char.toLower == function.name.map Char.toLower
  | _ => false

def NODE_ID_FUNCTIONS : List String := ["value.id", "node.id"]

def REL_ID_FUNCTIONS : List String := ["value.id", "edge.id"]

/-- The key, if the expression is a property of the variable. -/
def propertyOf (expr : ResolvedExpr) (var : VarId) : Option String :=
  match expr with
  | .property (.variable v) key => if v = var then some key else none
  | _ => none

/-- A pending conjunct can be evaluated as soon as `var` is bound. -/
def readyWith (pending : PendingConjunct) (var : VarId) : Bool :=
  decide (pending.needs ⊆ insert var p.available)

/-- Whether a pending conjunct fixes the identifier of `var`. -/
def hasPendingIdSeek (var : VarId) (names : List String) : Bool :=
  p.pending.any fun pending =>
    p.readyWith pending var &&
      match pending.expr with
      | .binary lhs .eq rhs => isIdOfVar lhs var names || isIdOfVar rhs var names
      | .binary lhs .in _ => isIdOfVar lhs var names
      | _ => false

/-- Keys of a node that an inline map or a pending conjunct fixes. -/
def seekableKeys (node : ResolvedNode) : List String :=
  (match node.properties with
    | some (.apply (.map keys) _) => keys
    | _ => []) ++
  p.pending.filterMap fun pending =>
    if p.readyWith pending node.var then
      match pending.expr with
      | .binary lhs .eq rhs => (propertyOf lhs node.var).or (propertyOf rhs node.var)
      | .binary lhs .in _ => propertyOf lhs node.var
      | _ => none
    else none

/-- The label that a scan of the node starts from. -/
def scanLabel (node : ResolvedNode) : Option String :=
  match node.labels.groups with
  | [label] :: _ => some label
  | _ => none

/-- Rough number of rows a scan of the node would start with. -/
def startCost (node : ResolvedNode) : ℕ :=
  if node.var ∈ p.available ∨ node.var ∈ p.bound then 0
  else if p.hasPendingIdSeek node.var NODE_ID_FUNCTIONS then 2
  else
    match scanLabel node with
    | none => p.stats.nodeCount + 1
    | some label =>
      (p.seekableKeys node).foldl
        (fun best key =>
          match p.stats.estimateNodePropertyEquality label key with
          | some rows => min best rows
          | none => best)
        ((p.stats.nodesByLabel label).getD 0) + 1

/-- The relationships of some types; `none` when one is not counted. -/
def relCount (types : List String) : Option ℕ :=
  if types = [] then some p.stats.relationshipCount
  else types.foldl
    (fun sum type => match sum, p.stats.relationshipsByType type with
      | some sum, some count => some (sum + count)
      | _, _ => none)
    (some 0)

/-- Average number of relationships at a node like `node`. -/
def fanout (node : ResolvedNode) (rel : ResolvedRel) : ℕ :=
  let nodes := match scanLabel node with
    | some label => p.stats.nodesByLabel label
    | none => some p.stats.nodeCount
  match p.relCount rel.types, nodes with
  | some rels, some nodes => if 0 < nodes then max (divCeil rels nodes) 1 else 1
  | _, _ => 1

/-- Cost of starting at `node` when the relationship next to it can be sought by identifier. -/
def relSeekCost (node : ResolvedNode) (rel : ResolvedRel) : ℕ :=
  match rel.var with
  | none => U64_MAX
  | some var =>
    if node.properties.isSome || rel.properties.isSome then U64_MAX
    else if p.hasPendingIdSeek var REL_ID_FUNCTIONS then 2
    else U64_MAX

/-- Cost of walking from `node` over `rel` first. -/
def walkCost (node : ResolvedNode) (rel : ResolvedRel) : ℕ :=
  min (saturatingMul (p.startCost node) (p.fanout node rel)) (p.relSeekCost node rel)

/-- Whether a chain should be walked from its last node. -/
def shouldStartFromTail (head : ResolvedNode) (chain : List ResolvedChain) : Bool :=
  match chain.head?, chain.getLast? with
  | some first, some last => p.walkCost last.node last.rel < p.walkCost head first.rel
  | _, _ => false

/-! ### Plans -/

/-- Put the checks and every pending conjunct whose variables are all bound into one
filter. -/
def attachReady (checks : List ResolvedExpr) : PatternPlanner × List MatchOp :=
  let ready := p.pending.filter fun pending => pending.needs ⊆ p.available
  let waiting := p.pending.filter fun pending => ¬ pending.needs ⊆ p.available
  ({ p with pending := waiting },
    ((andAll (checks ++ ready.map PendingConjunct.expr)).map MatchOp.filter).toList)

def bindVars (vars : Finset VarId) : PatternPlanner := { p with available := p.available ∪ vars }

def planNode (node : ResolvedNode) : PatternPlanner × List MatchOp :=
  let (p, ops) := (p.bindVars {node.var}).attachReady
    (buildPropertyPredicate node.var node.properties).toList
  (p, .nodeScan node.var node.labels :: ops)

def planExpand (src : VarId) (step : ResolvedChain) : MatchOp :=
  .expand src step.rel.var step.node.var step.rel.types step.rel.direction step.rel.properties

/-- The tests of a step's node: its labels, then its inline map. -/
def stepChecks (node : ResolvedNode) : List ResolvedExpr :=
  (buildLabelPredicate node.var node.labels.groups).toList ++
    (buildPropertyPredicate node.var node.properties).toList

def planSteps (p : PatternPlanner) (src : VarId) :
    List ResolvedChain → PatternPlanner × List MatchOp
  | [] => (p, [])
  | step :: chain =>
    let (p, ops) := (p.bindVars step.vars).attachReady (stepChecks step.node)
    let (p, rest) := planSteps p step.node.var chain
    (p, planExpand src step :: ops ++ rest)

def planNodeChain (head : ResolvedNode) (chain : List ResolvedChain) :
    PatternPlanner × List MatchOp :=
  let (p, ops) := p.planNode head
  let (p, rest) := p.planSteps head.var chain
  (p, ops ++ rest)

end PatternPlanner

def flipDirection : Direction → Direction
  | .left => .right
  | .right => .left
  | .undirected => .undirected

/-- The steps of `chain` from its last node back, ahead of `steps`. -/
def reverseOnto : ResolvedNode → List ResolvedChain → List ResolvedChain →
    ResolvedNode × List ResolvedChain
  | head, [], steps => (head, steps)
  | head, step :: chain, steps =>
    reverseOnto step.node chain
      (⟨{ step.rel with direction := flipDirection step.rel.direction }, head⟩ :: steps)

/-- The same matches, walked from the other end. -/
def reverseChain (head : ResolvedNode) (chain : List ResolvedChain) :
    ResolvedNode × List ResolvedChain :=
  reverseOnto head chain []

/-- Which chains are walked from the tail. -/
abbrev WalkChoice := PatternPlanner → ResolvedNode → List ResolvedChain → Bool

/-- Every chain as written. -/
def asWritten : WalkChoice := fun _ _ _ => false

namespace PatternPlanner

/-- Whether a part is walked from its tail. -/
def walksBack (choice : WalkChoice) (p : PatternPlanner) : ResolvedPatternElement → Bool
  | .node _ => false
  | .nodeChain head chain => !chain.isEmpty && choice p head chain

def planElement (choice : WalkChoice) (p : PatternPlanner) (part : ResolvedPatternElement) :
    PatternPlanner × List MatchOp :=
  match part with
  | .node head => p.planNode head
  | .nodeChain head chain =>
    if p.walksBack choice (.nodeChain head chain) then
      p.planNodeChain (reverseChain head chain).1 (reverseChain head chain).2
    else p.planNodeChain head chain

def planParts (choice : WalkChoice) (p : PatternPlanner) :
    List ResolvedPatternElement → PatternPlanner × List MatchOp
  | [] => (p, [])
  | part :: parts =>
    let (p, ops) := p.planElement choice part
    let (p, rest) := planParts choice p parts
    (p, ops ++ rest)

end PatternPlanner

/-- A conjunct of a WHERE and the pattern variables it reads: none when it has parts that
are not inspected. -/
def conjunctNeeds (patternVars : Finset VarId) (conjunct : ResolvedExpr) : Finset VarId :=
  match conjunct.conjunctVars with
  | some vars => vars ∩ patternVars
  | none => ∅

/-- The conjuncts of a WHERE, in order. -/
def whereConjuncts (patternVars : Finset VarId) (predicate : Option ResolvedExpr) :
    List PendingConjunct :=
  ((predicate.map splitConjuncts).getD []).zipIdx.map fun (conjunct, order) =>
    ⟨order, conjunct, conjunctNeeds patternVars conjunct⟩

/-- The planner a pattern is planned with: the conjuncts that read pattern variables wait. -/
def patternPlanner (stats : GraphStats) (bound : Finset VarId) (pattern : ResolvedPattern)
    (predicate : Option ResolvedExpr) : PatternPlanner where
  stats := stats
  bound := bound
  pending := (whereConjuncts (collectPatternVarSet pattern) predicate).filter
    fun pending => pending.needs ≠ ∅
  available := ∅

/-- The plan of a MATCH. Conjuncts that read no pattern variable, and those never placed, are
applied above the whole pattern. -/
def planMatch (choice : WalkChoice) (stats : GraphStats) (bound : Finset VarId)
    (pattern : ResolvedPattern) (predicate : Option ResolvedExpr) : List MatchOp :=
  let (p, ops) := (patternPlanner stats bound pattern predicate).planParts choice pattern.parts
  let unplaced := (whereConjuncts (collectPatternVarSet pattern) predicate).filter
    fun pending => pending.needs = ∅
  let residual := (unplaced ++ p.pending).mergeSort fun a b => a.order ≤ b.order
  ops ++ ((andAll (residual.map PendingConjunct.expr)).map MatchOp.filter).toList

end LoraDb
