import LoraDb.PatternPlan
import LoraDb.Graph

/-!
# Evaluating Expressions

The dispatcher that evaluates an expression in a row. Evaluation always gives a value; an
error goes to a slot beside it, where a later one replaces it, and whoever asked for the
value looks into the slot. An unbound variable evaluates to null.

What the operators and builtins compute from the values of their operands is left to
`ValueOps`: nothing below depends on it, except for `AND`, `OR` and `node.has_label`, which the
planner builds its own tests from.

## Main results

* `eval_congr`: an expression's value depends on the variables it reads only.
* `passes_and`: a conjunction passes exactly when both sides do.
-/

namespace LoraDb

/-- A value with the error slot beside it. -/
def EvalM (α : Type) : Type := α × Option String

namespace EvalM

variable {α β : Type}

/-- The error that is left after two evaluations: the later one, if it failed. -/
def after (first second : Option String) : Option String := second.or first

instance : Monad EvalM where
  pure a := (a, none)
  bind x f := ((f x.1).1, after x.2 (f x.1).2)

def value (x : EvalM α) : α := x.1

def error (x : EvalM α) : Option String := x.2

@[simp] theorem value_pure (a : α) : value (pure a : EvalM α) = a := rfl

@[simp] theorem error_pure (a : α) : error (pure a : EvalM α) = none := rfl

@[simp] theorem value_bind (x : EvalM α) (f : α → EvalM β) : (x >>= f).value = (f x.value).value :=
  rfl

/-- Nothing failed in a row of evaluations exactly when nothing failed in each. -/
@[simp] theorem error_bind (x : EvalM α) (f : α → EvalM β) :
    (x >>= f).error = none ↔ x.error = none ∧ (f x.value).error = none := by
  change after x.2 (f x.1).2 = none ↔ _
  simp only [after, Option.or_eq_none_iff]
  exact and_comm

end EvalM

/-- What operators and builtins compute from **values**. -/
structure ValueOps where
  form : Form → List LoraValue → EvalM LoraValue
  valueEq : LoraValue → LoraValue → Bool
  builtList : List LoraValue → EvalM LoraValue
  mapProjection : LoraValue → List ResolvedMapSelector → List LoraValue → EvalM LoraValue
  slice : LoraValue → Option LoraValue → Option LoraValue → EvalM LoraValue
  /-- A subquery sees the bindings it reads. -/
  subquery : ℕ → Row → EvalM LoraValue
  /-- Whether a stored value equals an expected one, in an inline property map. -/
  valueMatches : LoraValue → PropertyValue → Bool

structure EvalContext where
  storage : InMemoryGraph
  params : String → Option LoraValue
  ops : ValueOps

/-- `node.has_label(node, label)`: null for anything but a stored node and a string. -/
def hasLabel (storage : InMemoryGraph) : List LoraValue → LoraValue
  | .node id :: .string label :: _ =>
    match storage.nodeAt id with
    | some record => .bool (record.labels.contains label)
    | none => .null
  | _ => .null

/-- A form applied to the values of its operands. -/
def EvalContext.evalForm (ctx : EvalContext) (form : Form) (operands : List LoraValue) :
    EvalM LoraValue :=
  match form with
  | .function function _ =>
    if function = HAS_LABEL then pure (hasLabel ctx.storage operands)
    else ctx.ops.form form operands
  | _ => ctx.ops.form form operands

/-- `AND` of two values, three-valued. -/
def andValues (lhs rhs : LoraValue) : LoraValue :=
  match lhs, rhs with
  | .null, .null => .null
  | .null, rhs => if rhs.isTruthy then .null else .bool false
  | lhs, .null => if lhs.isTruthy then .null else .bool false
  | lhs, rhs => .bool (lhs.isTruthy && rhs.isTruthy)

/-- `OR` of two values, three-valued. -/
def orValues (lhs rhs : LoraValue) : LoraValue :=
  match lhs, rhs with
  | .null, .null => .null
  | .null, rhs => if rhs.isTruthy then .bool true else .null
  | lhs, .null => if lhs.isTruthy then .bool true else .null
  | lhs, rhs => .bool (lhs.isTruthy || rhs.isTruthy)

/-- Whether the left side of an `AND` or `OR` leaves the right side unevaluated. -/
def LoraValue.decidesAnd : LoraValue → Bool
  | .null => false
  | value => !value.isTruthy

def LoraValue.decidesOr : LoraValue → Bool
  | .null => false
  | value => value.isTruthy

/-- The items `any`, `all`, `none` or `single` counts, and whether an item missed `all`. It
stops at the first item that settles the predicate. -/
def listPredicateLoop (kind : ListPredicateKind) (test : LoraValue → EvalM Bool) :
    ℕ → List LoraValue → EvalM (ℕ × Bool)
  | count, [] => pure (count, false)
  | count, item :: items => do
    if ← test item then
      match kind with
      | .any | .none => pure (count + 1, false)
      | .single =>
        if 1 < count + 1 then pure (count + 1, false)
        else listPredicateLoop kind test (count + 1) items
      | .all => listPredicateLoop kind test (count + 1) items
    else
      match kind with
      | .all => pure (count, true)
      | _ => listPredicateLoop kind test count items

def evalListPredicate (kind : ListPredicateKind) (test : LoraValue → EvalM Bool) :
    LoraValue → EvalM LoraValue
  | .list items => do
    let (count, missed) ← listPredicateLoop kind test 0 items
    match kind with
    | .any => pure (.bool (0 < count))
    | .all => pure (.bool (!missed && count == items.length))
    | .none => pure (.bool (count == 0))
    | .single => pure (.bool (count == 1))
  | .null => pure .null
  | _ => pure (.bool false)

/-- The items that pass the filter, each mapped. -/
def comprehensionLoop (item : LoraValue → EvalM (Option LoraValue)) :
    List LoraValue → EvalM (List LoraValue)
  | [] => pure []
  | value :: values => do
    let kept ← item value
    let rest ← comprehensionLoop item values
    pure (kept.toList ++ rest)

def reduceLoop (step : LoraValue → LoraValue → EvalM LoraValue) :
    LoraValue → List LoraValue → EvalM LoraValue
  | acc, [] => pure acc
  | acc, item :: items => do
    let acc ← step acc item
    reduceLoop step acc items

namespace ResolvedExpr

variable (ctx : EvalContext)

mutual

/-- The value of an expression in a row. -/
def eval : ResolvedExpr → Row → EvalM LoraValue
  | .variable var, row => pure ((row var).getD .null)
  | .literal value, _ => pure value
  | .parameter name, _ => pure ((ctx.params name).getD .null)
  | .apply form operands, row => do
    let values ← evalAll operands row
    ctx.evalForm form values
  | .and lhs rhs, row => do
    let l ← eval lhs row
    if l.decidesAnd then pure (.bool false)
    else
      let r ← eval rhs row
      pure (andValues l r)
  | .or lhs rhs, row => do
    let l ← eval lhs row
    if l.decidesOr then pure (.bool true)
    else
      let r ← eval rhs row
      pure (orValues l r)
  | .case input alternatives elseExpr, row => do
    let input ← evalOption input row
    match ← evalCase input alternatives row with
    | some value => pure value
    | none => do
      let other ← evalOption elseExpr row
      pure (other.getD .null)
  | .listPredicate kind var list predicate, row => do
    let items ← eval list row
    evalListPredicate kind
      (fun item => do
        let value ← eval predicate (row.insert var item)
        pure value.isTruthy)
      items
  | .listComprehension var list filter mapExpr, row => do
    match ← eval list row with
    | .list items => do
      let result ← comprehensionLoop
        (fun item => do
          let kept ← evalOption filter (row.insert var item)
          match kept with
          | some value =>
            if value.isTruthy then do
              let mapped ← evalOption mapExpr (row.insert var item)
              pure (some (mapped.getD item))
            else pure none
          | none => do
            let mapped ← evalOption mapExpr (row.insert var item)
            pure (some (mapped.getD item)))
        items
      ctx.ops.builtList result
    | _ => pure .null
  | .reduce accumulator init var list expr, row => do
    let start ← eval init row
    match ← eval list row with
    | .list items =>
      reduceLoop (fun acc item => eval expr ((row.insert accumulator acc).insert var item))
        start items
    | _ => pure .null
  | .mapProjection base selectors literals, row => do
    match ← eval base row with
    | .null => pure .null
    | value => do
      let values ← evalAll literals row
      ctx.ops.mapProjection value selectors values
  | .slice expr start stop, row => do
    match ← eval expr row with
    | .list items => do
      let start ← evalOption start row
      let stop ← evalOption stop row
      ctx.ops.slice (.list items) start stop
    | _ => pure .null
  | .subquery query reads, row =>
    ctx.ops.subquery query fun var => if var ∈ reads then row var else none
termination_by structural e => e

def evalAll : List ResolvedExpr → Row → EvalM (List LoraValue)
  | [], _ => pure []
  | e :: es, row => do
    let value ← eval e row
    let values ← evalAll es row
    pure (value :: values)
termination_by structural es => es

def evalOption : Option ResolvedExpr → Row → EvalM (Option LoraValue)
  | none, _ => pure none
  | some e, row => do
    let value ← eval e row
    pure (some value)
termination_by structural e => e

/-- The value of the first alternative that is taken. -/
def evalCase (input : Option LoraValue) :
    List (ResolvedExpr × ResolvedExpr) → Row → EvalM (Option LoraValue)
  | [], _ => pure none
  | (when, branch) :: es, row => do
    let value ← eval when row
    let taken := match input with
      | some input => ctx.ops.valueEq input value
      | none => value.isTruthy
    if taken then do
      let value ← eval branch row
      pure (some value)
    else evalCase input es row
termination_by structural es => es

end

/-! ### Evaluation reads what it names -/

/-- Two rows bind some variables alike. -/
def AgreeOn (vars : Finset VarId) (row row' : Row) : Prop := ∀ var ∈ vars, row var = row' var

variable {ctx} {row row' : Row} {locals : Bool} {vars vars' : Finset VarId}

theorem AgreeOn.mono (h : AgreeOn vars row row') (hsub : vars' ⊆ vars) : AgreeOn vars' row row' :=
  fun var hvar => h var (hsub hvar)

theorem AgreeOn.left (h : AgreeOn (vars ∪ vars') row row') : AgreeOn vars row row' :=
  h.mono Finset.subset_union_left

theorem AgreeOn.right (h : AgreeOn (vars ∪ vars') row row') : AgreeOn vars' row row' :=
  h.mono Finset.subset_union_right

theorem AgreeOn.insert (h : AgreeOn vars row row') (var : VarId) (value : LoraValue) :
    AgreeOn vars (row.insert var value) (row'.insert var value) := by
  intro var' hvar'
  by_cases heq : var' = var
  · simp [heq]
  · rw [Row.insert_of_ne _ _ heq, Row.insert_of_ne _ _ heq, h var' hvar']

mutual

/-- The value of an expression depends on the variables it reads only. -/
theorem eval_congr : ∀ (e : ResolvedExpr) {row row' : Row},
    AgreeOn (e.varsWith locals) row row' → eval ctx e row = eval ctx e row'
  | .variable var, row, row', h => by rw [eval, eval, h var (by simp [varsWith])]
  | .literal _, _, _, _ => rfl
  | .parameter _, _, _, _ => rfl
  | .apply _ operands, row, row', h => by
    rw [varsWith] at h
    rw [eval, eval, evalAll_congr operands h]
  | .and lhs rhs, row, row', h => by
    rw [varsWith] at h
    rw [eval, eval, eval_congr lhs h.left, eval_congr rhs h.right]
  | .or lhs rhs, row, row', h => by
    rw [varsWith] at h
    rw [eval, eval, eval_congr lhs h.left, eval_congr rhs h.right]
  | .case input alternatives elseExpr, row, row', h => by
    rw [varsWith] at h
    rw [eval, eval, evalOption_congr input h.left.left, evalOption_congr elseExpr h.right]
    simp only [evalCase_congr alternatives h.left.right]
  | .listPredicate kind var list predicate, row, row', h => by
    rw [varsWith] at h
    rw [eval, eval, eval_congr list h.left.right]
    simp only [eval_congr predicate (h.right.insert var _)]
  | .listComprehension var list filter mapExpr, row, row', h => by
    rw [varsWith] at h
    rw [eval, eval, eval_congr list h.left.left.right]
    simp only [evalOption_congr filter (h.left.right.insert var _),
      evalOption_congr mapExpr (h.right.insert var _)]
  | .reduce accumulator init var list expr, row, row', h => by
    rw [varsWith] at h
    rw [eval, eval, eval_congr init h.left.left.right, eval_congr list h.left.right]
    simp only [eval_congr expr ((h.right.insert accumulator _).insert var _)]
  | .mapProjection base selectors literals, row, row', h => by
    rw [varsWith] at h
    rw [eval, eval, eval_congr base h.left, evalAll_congr literals h.right]
  | .slice expr start stop, row, row', h => by
    rw [varsWith] at h
    rw [eval, eval, eval_congr expr h.left.left, evalOption_congr start h.left.right,
      evalOption_congr stop h.right]
  | .subquery query reads, row, row', h => by
    have hrow : (fun var => if var ∈ reads then row var else none) =
        fun var => if var ∈ reads then row' var else none := by
      funext var
      split
      next hvar => exact h var (by simpa [varsWith] using hvar)
      next => rfl
    rw [eval, eval, hrow]

theorem evalAll_congr : ∀ (es : List ResolvedExpr) {row row' : Row},
    AgreeOn (varsWithAll locals es) row row' → evalAll ctx es row = evalAll ctx es row'
  | [], _, _, _ => rfl
  | e :: es, row, row', h => by
    rw [varsWithAll] at h
    rw [evalAll, evalAll, eval_congr e h.left, evalAll_congr es h.right]

theorem evalOption_congr : ∀ (e : Option ResolvedExpr) {row row' : Row},
    AgreeOn (varsWithOption locals e) row row' → evalOption ctx e row = evalOption ctx e row'
  | none, _, _, _ => rfl
  | some e, row, row', h => by
    rw [varsWithOption] at h
    rw [evalOption, evalOption, eval_congr e h]

theorem evalCase_congr {input : Option LoraValue} :
    ∀ (es : List (ResolvedExpr × ResolvedExpr)) {row row' : Row},
    AgreeOn (varsWithPairs locals es) row row' →
      evalCase ctx input es row = evalCase ctx input es row'
  | [], _, _, _ => rfl
  | (when, branch) :: es, row, row', h => by
    rw [varsWithPairs] at h
    rw [evalCase, evalCase, eval_congr when h.left.left, eval_congr branch h.left.right,
      evalCase_congr es h.right]

end

/-! ### Passing a test -/

/-- A predicate **passes** in a row: it evaluates without an error to something truthy. -/
def Passes (ctx : EvalContext) (e : ResolvedExpr) (row : Row) : Prop :=
  (e.eval ctx row).error = none ∧ (e.eval ctx row).value.isTruthy = true

theorem passes_congr {e : ResolvedExpr} (h : AgreeOn (e.varsWith locals) row row') :
    Passes ctx e row ↔ Passes ctx e row' := by
  rw [Passes, Passes, eval_congr e h]

theorem LoraValue.not_isTruthy_of_decidesAnd {value : LoraValue} (h : value.decidesAnd = true) :
    value.isTruthy = false := by
  cases value <;> simp_all [LoraValue.decidesAnd]

@[simp] theorem isTruthy_null : LoraValue.null.isTruthy = false := rfl

@[simp] theorem isTruthy_bool (b : Bool) : (LoraValue.bool b).isTruthy = b := rfl

theorem isTruthy_andValues (l r : LoraValue) :
    (andValues l r).isTruthy = (l.isTruthy && r.isTruthy) := by
  unfold andValues
  split
  next => rfl
  next => cases hr : r.isTruthy <;> simp
  next => cases hl : l.isTruthy <;> simp
  next => simp

theorem isTruthy_orValues (l r : LoraValue) :
    (orValues l r).isTruthy = (l.isTruthy || r.isTruthy) := by
  unfold orValues
  split
  next => rfl
  next => cases hr : r.isTruthy <;> simp
  next => cases hl : l.isTruthy <;> simp
  next => simp

/-- A conjunction passes exactly when both sides do. -/
theorem passes_and (lhs rhs : ResolvedExpr) :
    Passes ctx (.and lhs rhs) row ↔ Passes ctx lhs row ∧ Passes ctx rhs row := by
  rw [Passes, eval]
  by_cases hdecides : (lhs.eval ctx row).value.decidesAnd = true
  · have hfalse := LoraValue.not_isTruthy_of_decidesAnd hdecides
    simp [EvalM.error_bind, hdecides, Passes, hfalse]
  · simp only [EvalM.error_bind, EvalM.value_bind, hdecides, if_false, Bool.false_eq_true,
      EvalM.error_pure, EvalM.value_pure, isTruthy_andValues, Bool.and_eq_true, Passes]
    tauto

/-- A disjunction of tests that do not fail passes exactly when one side does. -/
theorem passes_or {lhs rhs : ResolvedExpr} (hl : (lhs.eval ctx row).error = none)
    (hr : (rhs.eval ctx row).error = none) :
    ((ResolvedExpr.or lhs rhs).eval ctx row).error = none ∧
      (Passes ctx (.or lhs rhs) row ↔ Passes ctx lhs row ∨ Passes ctx rhs row) := by
  rw [Passes, eval]
  by_cases hdecides : (lhs.eval ctx row).value.decidesOr = true
  · have htrue : (lhs.eval ctx row).value.isTruthy = true := by
      revert hdecides
      cases (lhs.eval ctx row).value <;> simp [LoraValue.decidesOr]
    simp [EvalM.error_bind, hdecides, Passes, hl, htrue]
  · simp [EvalM.error_bind, EvalM.value_bind, hdecides, hl, hr, isTruthy_orValues, Passes]

end ResolvedExpr

end LoraDb
