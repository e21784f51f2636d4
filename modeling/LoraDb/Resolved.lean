import LoraDb.LoraValue
import Mathlib.Data.Finset.Option

/-!
# Resolved Expressions and Patterns

Expressions and MATCH patterns as the analyzer hands them to the planner. The forms of an
expression that evaluate every operand, one after the other, and then compute from the values
are one constructor, `apply`; the forms that leave an operand out, evaluate one repeatedly or
bind a variable have one each. A subquery is a name with the variables it reads.

Patterns are node chains without variable-length relationships, path bindings and shortest
paths: a chain with one of these is always walked as written.
-/

namespace LoraDb

/-- A builtin, by its registered name. -/
structure FunctionId where
  name : String
  isAggregate : Bool
deriving DecidableEq

inductive BinaryOp where
  | or | xor | and | eq | ne | lt | gt | le | ge | add | sub | mul | div | mod | pow
  | «in» | startsWith | endsWith | contains | isNull | isNotNull | regexMatch

inductive UnaryOp where
  | not | pos | neg

inductive ListPredicateKind where
  | any | all | none | single

/-- What a map projection takes from its base; `literal` takes the next literal. -/
inductive ResolvedMapSelector where
  | property (key : String)
  | allProperties
  | literal (key : String)

/-- The forms of an expression that evaluate every operand. -/
inductive Form where
  | property (key : String)
  /-- Every operator but `AND` and `OR`. -/
  | binary (op : BinaryOp)
  | unary (op : UnaryOp)
  | function (function : FunctionId) (distinct : Bool)
  | list
  | map (keys : List String)
  | index

inductive ResolvedExpr where
  | variable (var : VarId)
  | literal (value : LoraValue)
  | parameter (name : String)
  | apply (form : Form) (operands : List ResolvedExpr)
  | and (lhs rhs : ResolvedExpr)
  | or (lhs rhs : ResolvedExpr)
  | case (input : Option ResolvedExpr) (alternatives : List (ResolvedExpr × ResolvedExpr))
      (elseExpr : Option ResolvedExpr)
  | listPredicate (kind : ListPredicateKind) (var : VarId) (list predicate : ResolvedExpr)
  | listComprehension (var : VarId) (list : ResolvedExpr) (filter : Option ResolvedExpr)
      (mapExpr : Option ResolvedExpr)
  | reduce (accumulator : VarId) (init : ResolvedExpr) (var : VarId) (list expr : ResolvedExpr)
  | mapProjection (base : ResolvedExpr) (selectors : List ResolvedMapSelector)
      (literals : List ResolvedExpr)
  | slice (expr : ResolvedExpr) (start stop : Option ResolvedExpr)
  /-- An `EXISTS` subquery or a pattern comprehension. -/
  | subquery (query : ℕ) (reads : List VarId)
deriving Inhabited

namespace ResolvedExpr

/-- `expr.property` -/
@[match_pattern] abbrev property (expr : ResolvedExpr) (key : String) : ResolvedExpr :=
  .apply (.property key) [expr]

/-- An operator that evaluates both sides. -/
@[match_pattern] abbrev binary (lhs : ResolvedExpr) (op : BinaryOp) (rhs : ResolvedExpr) :
    ResolvedExpr :=
  .apply (.binary op) [lhs, rhs]

/-- A builtin call. -/
@[match_pattern] abbrev call (function : FunctionId) (distinct : Bool)
    (args : List ResolvedExpr) : ResolvedExpr :=
  .apply (.function function distinct) args

mutual

/-- The variables an expression reads, and with `locals` also those it binds for a part of
itself. -/
def varsWith (locals : Bool) : ResolvedExpr → Finset VarId
  | .variable var => {var}
  | .literal _ => ∅
  | .parameter _ => ∅
  | .apply _ operands => varsWithAll locals operands
  | .and lhs rhs => varsWith locals lhs ∪ varsWith locals rhs
  | .or lhs rhs => varsWith locals lhs ∪ varsWith locals rhs
  | .case input alternatives elseExpr =>
    varsWithOption locals input ∪ varsWithPairs locals alternatives ∪
      varsWithOption locals elseExpr
  | .listPredicate _ var list predicate =>
    (if locals then {var} else ∅) ∪ varsWith locals list ∪ varsWith locals predicate
  | .listComprehension var list filter mapExpr =>
    (if locals then {var} else ∅) ∪ varsWith locals list ∪
      varsWithOption locals filter ∪ varsWithOption locals mapExpr
  | .reduce accumulator init var list expr =>
    (if locals then {accumulator, var} else ∅) ∪ varsWith locals init ∪
      varsWith locals list ∪ varsWith locals expr
  | .mapProjection base _ literals => varsWith locals base ∪ varsWithAll locals literals
  | .slice expr start stop =>
    varsWith locals expr ∪ varsWithOption locals start ∪ varsWithOption locals stop
  | .subquery _ reads => reads.toFinset
termination_by structural e => e

def varsWithAll (locals : Bool) : List ResolvedExpr → Finset VarId
  | [] => ∅
  | e :: es => varsWith locals e ∪ varsWithAll locals es
termination_by structural es => es

def varsWithOption (locals : Bool) : Option ResolvedExpr → Finset VarId
  | none => ∅
  | some e => varsWith locals e
termination_by structural e => e

def varsWithPairs (locals : Bool) : List (ResolvedExpr × ResolvedExpr) → Finset VarId
  | [] => ∅
  | (when, branch) :: es =>
    varsWith locals when ∪ varsWith locals branch ∪ varsWithPairs locals es
termination_by structural es => es

end

/-- Every variable the expression reads or binds. -/
def collectVars : ResolvedExpr → Finset VarId := varsWith true

mutual

/-- No part is a subquery, whose pattern variables the walk does not see, or an aggregate. -/
def inspectable : ResolvedExpr → Bool
  | .variable _ => true
  | .literal _ => true
  | .parameter _ => true
  | .apply form operands =>
    (match form with
      | .function function _ => !function.isAggregate
      | _ => true) && inspectableAll operands
  | .and lhs rhs => inspectable lhs && inspectable rhs
  | .or lhs rhs => inspectable lhs && inspectable rhs
  | .case input alternatives elseExpr =>
    inspectableOption input && inspectablePairs alternatives && inspectableOption elseExpr
  | .listPredicate _ _ list predicate => inspectable list && inspectable predicate
  | .listComprehension _ list filter mapExpr =>
    inspectable list && inspectableOption filter && inspectableOption mapExpr
  | .reduce _ init _ list expr => inspectable init && inspectable list && inspectable expr
  | .mapProjection base _ literals => inspectable base && inspectableAll literals
  | .slice expr start stop =>
    inspectable expr && inspectableOption start && inspectableOption stop
  | .subquery _ _ => false
termination_by structural e => e

def inspectableAll : List ResolvedExpr → Bool
  | [] => true
  | e :: es => inspectable e && inspectableAll es
termination_by structural es => es

def inspectableOption : Option ResolvedExpr → Bool
  | none => true
  | some e => inspectable e
termination_by structural e => e

def inspectablePairs : List (ResolvedExpr × ResolvedExpr) → Bool
  | [] => true
  | (when, branch) :: es => inspectable when && inspectable branch && inspectablePairs es
termination_by structural es => es

end

/-- Every variable the expression reads, or `none` when it holds a subquery or an aggregate. -/
def conjunctVars (e : ResolvedExpr) : Option (Finset VarId) :=
  if e.inspectable then some (e.varsWith false) else none

end ResolvedExpr

/-! ### Patterns -/

inductive Direction where
  | left
  | right
  | undirected
deriving DecidableEq

/-- The labels of a node pattern: groups of alternatives, all of which have to match. -/
structure LabelGroups where
  groups : List (List String)
  /-- A group names at least one label. -/
  nonempty : ∀ group ∈ groups, group ≠ []

def LabelGroups.none : LabelGroups := ⟨[], by simp⟩

/-- A node pattern. The analyzer gives every node a variable. -/
structure ResolvedNode where
  var : VarId
  labels : LabelGroups
  properties : Option ResolvedExpr

structure ResolvedRel where
  var : Option VarId
  types : List String
  direction : Direction
  properties : Option ResolvedExpr

structure ResolvedChain where
  rel : ResolvedRel
  node : ResolvedNode

/-- A part of a pattern: a node, or a chain of nodes. -/
inductive ResolvedPatternElement where
  | node (node : ResolvedNode)
  | nodeChain (head : ResolvedNode) (chain : List ResolvedChain)

structure ResolvedPattern where
  parts : List ResolvedPatternElement

/-- The variables a step names: its relationship's, if it has one, and its node's. -/
def ResolvedChain.vars (step : ResolvedChain) : Finset VarId :=
  step.rel.var.toFinset ∪ {step.node.var}

/-- The variables some steps name. -/
def stepVars : List ResolvedChain → Finset VarId
  | [] => ∅
  | step :: chain => step.vars ∪ stepVars chain

/-- The variables a chain names. -/
def chainVars (head : ResolvedNode) (chain : List ResolvedChain) : Finset VarId :=
  {head.var} ∪ stepVars chain

def ResolvedPatternElement.vars : ResolvedPatternElement → Finset VarId
  | .node head => {head.var}
  | .nodeChain head chain => chainVars head chain

/-- The variables a pattern names. -/
def collectPatternVarSet (pattern : ResolvedPattern) : Finset VarId :=
  pattern.parts.foldr (fun part vars => part.vars ∪ vars) ∅

end LoraDb
