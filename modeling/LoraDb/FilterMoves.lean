import LoraDb.PlacedFilters
import LoraDb.ValueCompare

/-!
# Moving and Folding Filters

Two more things happen to a filter before a plan runs. One right above a projection that passes
nothing on and reads none of its outputs is moved below it. And where the plan is built for
known parameters, a test of a parameter for null is a constant: the `AND`, `OR` and `NOT` over it
are simplified, and the plan records what it assumed of the parameters.

## Main results

* `pushed_eq`: a filter below a projection leaves the rows it leaves above.
* `fold_truth`: a folded predicate is true, false or null where the predicate is.
* `filters_moved`: placing, pushing and folding keep the rows.
-/

open List

namespace LoraDb

namespace PathPlan

/-! ### Filters below projections -/

structure ResolvedProjection where
  expr : ResolvedExpr
  output : VarId

structure Projection where
  distinct : Bool
  items : List ResolvedProjection
  /-- Whether the row's other bindings are kept. -/
  includeExisting : Bool

def Projection.outputs (proj : Projection) : Finset VarId :=
  (proj.items.map ResolvedProjection.output).toFinset

/-- The items are evaluated on `source` and bound in `projected`. -/
def projectItems (ctx : EvalContext) (source : Row) :
    List ResolvedProjection → Row → Except ExecutorError Row
  | [], projected => .ok projected
  | item :: items, projected =>
    match (item.expr.eval ctx source).error with
    | some message => .error (.eval message)
    | none => projectItems ctx source items
      (projected.insert item.output (item.expr.eval ctx source).value)

/-- The items are evaluated and bound in place, each on the row the one before it left. -/
def projectInPlace (ctx : EvalContext) : List ResolvedProjection → Row → Except ExecutorError Row
  | [], row => .ok row
  | item :: items, row =>
    match (item.expr.eval ctx row).error with
    | some message => .error (.eval message)
    | none => projectInPlace ctx items (row.insert item.output (item.expr.eval ctx row).value)

def projectRow (ctx : EvalContext) (proj : Projection) (row : Row) : Except ExecutorError Row :=
  if proj.includeExisting then projectInPlace ctx proj.items row
  else projectItems ctx row proj.items Row.empty

/-- A filter or a projection. -/
inductive RowOp where
  | filter (predicate : ResolvedExpr)
  | projection (proj : Projection)

def runRowOp (ctx : EvalContext) (dedup : List Row → List Row) (op : RowOp) (rows : List Row) :
    Except ExecutorError (List Row) :=
  match op with
  | .filter predicate => runOp ctx (.step (.filter predicate)) rows
  | .projection proj => do
    let out ← rows.mapM (projectRow ctx proj)
    return if proj.distinct then dedup out else out

def runRowOps (ctx : EvalContext) (dedup : List Row → List Row) :
    List RowOp → List Row → Except ExecutorError (List Row)
  | [], rows => .ok rows
  | op :: ops, rows => do
    let out ← runRowOp ctx dedup op rows
    runRowOps ctx dedup ops out

def canPushFilterBelowProjection (predicate : ResolvedExpr) (proj : Projection) : Bool :=
  !proj.distinct && !proj.includeExisting && decide (Disjoint predicate.collectVars proj.outputs)

/-- A projection with a filter above it, or below it if the filter can be pushed. -/
def pushFilterBelowProjection (predicate : ResolvedExpr) (proj : Projection) : List RowOp :=
  if canPushFilterBelowProjection predicate proj then [.filter predicate, .projection proj]
  else [.projection proj, .filter predicate]

/-- A predicate above a projection names outputs of the projection, or what no row binds: its
own variables. -/
def InScope (predicate : ResolvedExpr) (proj : Projection) (rows : List Row) : Prop :=
  ∀ var ∈ predicate.collectVars, var ∉ proj.outputs → ∀ row ∈ rows, row var = none

section Projections

variable {ctx : EvalContext} {dedup : List Row → List Row} {predicate : ResolvedExpr}
  {proj : Projection} {rows out out' : List Row} {row row' : Row}

theorem runOp_filter_eq (h : runOp ctx (.step (.filter predicate)) rows = .ok out) :
    out = rows.filter (passesAll ctx [predicate]) := by
  refine run_filterOps ?_
  rw [filterOps]
  exact run_cons_ok.mpr ⟨out, h, rfl⟩

theorem projectItems_frame {items : List ResolvedProjection} {projected : Row}
    (h : projectItems ctx row items projected = .ok row') {var : VarId}
    (hvar : ∀ item ∈ items, item.output ≠ var) : row' var = projected var := by
  induction items generalizing projected with
  | nil =>
    obtain rfl := Except.ok.inj h
    rfl
  | cons item items ih =>
    rw [projectItems] at h
    split at h
    · cases h
    · rw [ih h fun item' hitem' => hvar item' (mem_cons_of_mem _ hitem')]
      exact Row.insert_of_ne _ _ (hvar item mem_cons_self).symm

/-- A predicate that can be pushed passes on a row exactly when it does on the projected
row. -/
theorem passesAll_projectRow (hpush : canPushFilterBelowProjection predicate proj = true)
    (hscope : InScope predicate proj rows) (hrow : row ∈ rows)
    (h : projectRow ctx proj row = .ok row') :
    passesAll ctx [predicate] row' = passesAll ctx [predicate] row := by
  rw [canPushFilterBelowProjection, Bool.and_eq_true, Bool.and_eq_true] at hpush
  obtain ⟨⟨-, hexisting⟩, hdisjoint⟩ := hpush
  rw [projectRow, if_neg (by simpa using hexisting)] at h
  have hagree : ResolvedExpr.AgreeOn (predicate.varsWith true) row' row := by
    intro var hvar
    have hout : var ∉ proj.outputs := Finset.disjoint_left.mp (of_decide_eq_true hdisjoint) hvar
    rw [hscope var hvar hout row hrow, projectItems_frame h fun item hitem heq => hout ?_]
    · rfl
    · exact mem_toFinset.mpr (mem_map.mpr ⟨item, hitem, heq⟩)
  rw [Bool.eq_iff_iff, passesAll_iff, passesAll_iff, forall_mem_singleton, forall_mem_singleton]
  exact ResolvedExpr.passes_congr hagree

theorem runRowOps_singleton {op : RowOp} :
    runRowOps ctx dedup [op] rows = runRowOp ctx dedup op rows := by
  rw [runRowOps]
  cases runRowOp ctx dedup op rows <;> rfl

theorem runRowOps_pair {op op' : RowOp} : runRowOps ctx dedup [op, op'] rows = .ok out ↔
    ∃ mid, runRowOp ctx dedup op rows = .ok mid ∧ runRowOp ctx dedup op' mid = .ok out := by
  rw [runRowOps]
  cases runRowOp ctx dedup op rows with
  | error err => simp [bind, Except.bind]
  | ok mid =>
    cases h : runRowOp ctx dedup op' mid <;> simp [runRowOps, bind, Except.bind, h]

theorem runRowOp_projection (hdistinct : proj.distinct = false) :
    runRowOp ctx dedup (.projection proj) rows = .ok out ↔
      Forall₂ (fun row row' => projectRow ctx proj row = .ok row') rows out := by
  rw [runRowOp, ← EvalContext.mapM_ok]
  cases rows.mapM (projectRow ctx proj) with
  | error err => simp [bind, Except.bind]
  | ok mid => simp [bind, Except.bind, hdistinct, pure, Except.pure]

/-- Projecting the rows that are left gives what is left of the projected rows. -/
theorem forall₂_filter {q : Row → Bool}
    (hout : Forall₂ (fun row row' => projectRow ctx proj row = .ok row') rows out)
    (hout' : Forall₂ (fun row row' => projectRow ctx proj row = .ok row') (rows.filter q) out')
    (hkeep : ∀ row ∈ rows, ∀ row', projectRow ctx proj row = .ok row' → q row' = q row) :
    out' = out.filter q := by
  induction hout generalizing out' with
  | nil =>
    rw [filter_nil, forall₂_nil_left_iff] at hout'
    rw [hout', filter_nil]
  | @cons row row' rows out hrow _ ih =>
    have hrest := fun out' h => @ih out' h fun row hmem => hkeep row (mem_cons_of_mem _ hmem)
    have hsame := hkeep row mem_cons_self row' hrow
    cases hq : q row with
    | true =>
      rw [filter_cons_of_pos hq] at hout'
      obtain ⟨row'', out'', hrow'', hout'', rfl⟩ := forall₂_cons_left_iff.mp hout'
      rw [hrow] at hrow''
      obtain rfl := Except.ok.inj hrow''
      rw [filter_cons_of_pos (hsame.trans hq), hrest out'' hout'']
    | false =>
      rw [filter_cons_of_neg (by simp [hq])] at hout'
      rw [filter_cons_of_neg (by simp [hsame, hq]), hrest out' hout']

/-- A filter below a projection leaves the rows it leaves above. -/
theorem pushed_eq (hscope : InScope predicate proj rows)
    (hok : runRowOps ctx dedup (pushFilterBelowProjection predicate proj) rows = .ok out)
    (hok' : runRowOps ctx dedup [.projection proj, .filter predicate] rows = .ok out') :
    out = out' := by
  rw [pushFilterBelowProjection] at hok
  split at hok
  next hpush =>
    have hdistinct : proj.distinct = false := by
      rw [canPushFilterBelowProjection, Bool.and_eq_true, Bool.and_eq_true] at hpush
      simpa using hpush.1.1
    obtain ⟨left, hleft, hproj⟩ := runRowOps_pair.mp hok
    obtain ⟨mid, hmid, habove⟩ := runRowOps_pair.mp hok'
    obtain rfl := runOp_filter_eq hleft
    obtain rfl := runOp_filter_eq habove
    exact forall₂_filter ((runRowOp_projection hdistinct).mp hmid)
      ((runRowOp_projection hdistinct).mp hproj)
      fun row hrow row' h => passesAll_projectRow hpush hscope hrow h
  next =>
    rw [hok] at hok'
    exact Except.ok.inj hok'

end Projections

/-! ### Folding the null tests of parameters -/

/-- The parameters that were tested, and whether each was known to be null. -/
abbrev Assumed := List (String × Option Bool)

def boolean : ResolvedExpr → Option Bool
  | .literal (.bool b) => some b
  | _ => none

def lit (b : Bool) : ResolvedExpr := .literal (.bool b)

/-- An `AND`, which `false` decides, or an `OR`, which `true` does. -/
def junction (decides : Bool) (lhs rhs : ResolvedExpr) : ResolvedExpr :=
  if decides then .or lhs rhs else .and lhs rhs

/-- What is left of an `AND` or `OR` once its sides are folded. -/
def simplify (decides : Bool) (lhs rhs : ResolvedExpr) : ResolvedExpr :=
  if boolean lhs = some decides ∨ boolean rhs = some decides then lit decides
  else if (boolean lhs).isSome then rhs
  else if (boolean rhs).isSome then lhs
  else junction decides lhs rhs

/-- What a test of a parameter gives for a null, if the operator is one. -/
def nullTest : BinaryOp → Option Bool
  | .isNull => some true
  | .isNotNull => some false
  | _ => none

/-- Fold the null tests of an expression, and simplify the `AND`, `OR` and `NOT` over them. -/
def fold (nullness : String → Option Bool) : ResolvedExpr → ResolvedExpr × Assumed
  | .apply (.binary op) [.parameter name, rhs] =>
    match nullTest op with
    | some onNull =>
      match nullness name with
      | some isNull => (lit (onNull == isNull), [(name, some isNull)])
      | none => (.binary (.parameter name) op rhs, [(name, none)])
    | none => (.binary (.parameter name) op rhs, [])
  | .and lhs rhs =>
    (simplify false (fold nullness lhs).1 (fold nullness rhs).1,
      (fold nullness lhs).2 ++ (fold nullness rhs).2)
  | .or lhs rhs =>
    (simplify true (fold nullness lhs).1 (fold nullness rhs).1,
      (fold nullness lhs).2 ++ (fold nullness rhs).2)
  | .apply (.unary .not) [expr] =>
    (match boolean (fold nullness expr).1 with
      | some b => lit !b
      | none => .apply (.unary .not) [(fold nullness expr).1],
      (fold nullness expr).2)
  | expr => (expr, [])
termination_by expr => sizeOf expr

def mentionsNullTest : ResolvedExpr → Bool
  | .apply (.binary op) [.parameter _, _] => (nullTest op).isSome
  | .and lhs rhs | .or lhs rhs => mentionsNullTest lhs || mentionsNullTest rhs
  | .apply (.unary .not) [expr] => mentionsNullTest expr
  | _ => false
termination_by expr => sizeOf expr

/-- A filter's predicate, folded if it mentions a null test. -/
def foldParameterNullTests (nullness : String → Option Bool) (predicate : ResolvedExpr) :
    ResolvedExpr × Assumed :=
  if mentionsNullTest predicate then fold nullness predicate else (predicate, [])

/-- What the operators that are folded compute. -/
structure LogicOps (ops : ValueOps) : Prop where
  isNull : ∀ lhs rhs, ops.form (.binary .isNull) [lhs, rhs] = pure (.bool lhs.isNull)
  isNotNull : ∀ lhs rhs, ops.form (.binary .isNotNull) [lhs, rhs] = pure (.bool !lhs.isNull)
  not : ∀ value, ops.form (.unary .not) [value] =
    pure (if value.isNull then .null else .bool !value.isTruthy)

/-- The parameters of a run are null where it was assumed. -/
def Assumed.Holds (assumed : Assumed) (params : String → Option LoraValue) : Prop :=
  ∀ name isNull, (name, some isNull) ∈ assumed → ((params name).getD .null).isNull = isNull

/-- True, false, or `none` for a null. -/
def truth (value : LoraValue) : Option Bool :=
  if value.isNull then none else some value.isTruthy

/-- `AND` and `OR` of truth values. -/
def junct (decides : Bool) (a b : Option Bool) : Option Bool :=
  if a = some decides ∨ b = some decides then some decides
  else if a = none ∨ b = none then none
  else some !decides

/-- The truth that decides nothing leaves the other side. -/
theorem junct_left (decides : Bool) (a : Option Bool) : junct decides (some !decides) a = a := by
  cases decides <;> rcases a with _ | _ | _ <;> rfl

theorem junct_right (decides : Bool) (a : Option Bool) : junct decides a (some !decides) = a := by
  cases decides <;> rcases a with _ | _ | _ <;> rfl

section Fold

variable {ctx : EvalContext} {row : Row} {nullness : String → Option Bool}

theorem truth_bool (b : Bool) : truth (.bool b) = some b := rfl

theorem isTruthy_eq_truth (value : LoraValue) : value.isTruthy = (truth value == some true) := by
  cases value <;> simp [truth, LoraValue.isNull]

theorem truth_null : truth .null = none := rfl

theorem truth_of_ne_null {value : LoraValue} (h : value ≠ .null) :
    truth value = some value.isTruthy := by
  cases value with
  | null => exact absurd rfl h
  | _ => rfl

theorem truth_andValues (l r : LoraValue) :
    truth (andValues l r) = junct false (truth l) (truth r) := by
  rw [andValues.eq_def]
  split
  next => rfl
  next hr =>
    rw [truth_null, truth_of_ne_null hr]
    cases r.isTruthy <;> rfl
  next hl =>
    rw [truth_null, truth_of_ne_null hl]
    cases l.isTruthy <;> rfl
  next hl hr _ =>
    rw [truth_of_ne_null hl, truth_of_ne_null hr, truth_bool]
    cases l.isTruthy <;> cases r.isTruthy <;> rfl

theorem truth_orValues (l r : LoraValue) :
    truth (orValues l r) = junct true (truth l) (truth r) := by
  rw [orValues.eq_def]
  split
  next => rfl
  next hr =>
    rw [truth_null, truth_of_ne_null hr]
    cases r.isTruthy <;> rfl
  next hl =>
    rw [truth_null, truth_of_ne_null hl]
    cases l.isTruthy <;> rfl
  next hl hr _ =>
    rw [truth_of_ne_null hl, truth_of_ne_null hr, truth_bool]
    cases l.isTruthy <;> cases r.isTruthy <;> rfl

/-- The left side decides exactly when its truth does. -/
theorem decidesAnd_iff (value : LoraValue) :
    value.decidesAnd = true ↔ truth value = some false := by
  cases value <;> simp [LoraValue.decidesAnd, truth, LoraValue.isNull]

theorem decidesOr_iff (value : LoraValue) : value.decidesOr = true ↔ truth value = some true := by
  cases value <;> simp [LoraValue.decidesOr, truth, LoraValue.isNull]

/-- An `AND` or `OR` is decided by its sides' truth, and fails where a side it evaluates
does. -/
theorem eval_junction (decides : Bool) (lhs rhs : ResolvedExpr) :
    truth ((junction decides lhs rhs).eval ctx row).value =
        junct decides (truth (lhs.eval ctx row).value) (truth (rhs.eval ctx row).value) ∧
      (((junction decides lhs rhs).eval ctx row).error = none ↔
        (lhs.eval ctx row).error = none ∧ (truth (lhs.eval ctx row).value = some decides ∨
          (rhs.eval ctx row).error = none)) := by
  cases decides with
  | false =>
    rw [junction, if_neg Bool.false_ne_true, ResolvedExpr.eval, EvalM.value_bind, EvalM.error_bind]
    by_cases h : (lhs.eval ctx row).value.decidesAnd = true
    · have htruth := (decidesAnd_iff _).mp h
      rw [if_pos h, htruth]
      simp [junct, truth_bool]
    · have htruth := mt (decidesAnd_iff _).mpr h
      rw [if_neg h]
      simp [htruth, truth_andValues]
  | true =>
    rw [junction, if_pos rfl, ResolvedExpr.eval, EvalM.value_bind, EvalM.error_bind]
    by_cases h : (lhs.eval ctx row).value.decidesOr = true
    · have htruth := (decidesOr_iff _).mp h
      rw [if_pos h, htruth]
      simp [junct, truth_bool]
    · have htruth := mt (decidesOr_iff _).mpr h
      rw [if_neg h]
      simp [htruth, truth_orValues]

/-- `folded` fails nowhere, and has the truth of `e`, where `e` does not fail. -/
def SameTruth (ctx : EvalContext) (row : Row) (folded e : ResolvedExpr) : Prop :=
  (e.eval ctx row).error = none → (folded.eval ctx row).error = none ∧
    truth (folded.eval ctx row).value = truth (e.eval ctx row).value

theorem SameTruth.refl (e : ResolvedExpr) : SameTruth ctx row e e := fun h => ⟨h, rfl⟩

theorem boolean_eq {e : ResolvedExpr} {b : Bool} (h : boolean e = some b) : e = lit b := by
  cases e with
  | literal value =>
    cases value <;> cases h
    rfl
  | _ => cases h

/-- Simplifying an `AND` or `OR` of folded sides. -/
theorem simplify_sameTruth {decides : Bool} {lhs rhs lhs' rhs' : ResolvedExpr}
    (hl : SameTruth ctx row lhs' lhs) (hr : SameTruth ctx row rhs' rhs) :
    SameTruth ctx row (simplify decides lhs' rhs') (junction decides lhs rhs) := by
  intro herror
  obtain ⟨htruth, herrors⟩ := @eval_junction ctx row decides lhs rhs
  obtain ⟨hlok, hrok⟩ := herrors.mp herror
  obtain ⟨hlerror, hltruth⟩ := hl hlok
  -- A side that is folded to a literal has its truth, if it is evaluated.
  have hlit : ∀ b, boolean lhs' = some b → truth (lhs.eval ctx row).value = some b := by
    intro b hb
    rw [← hltruth, boolean_eq hb]
    rfl
  have hrit : ∀ b, boolean rhs' = some b → truth (lhs.eval ctx row).value = some decides ∨
      truth (rhs.eval ctx row).value = some b := by
    intro b hb
    refine hrok.imp_right fun hr' => ?_
    rw [← (hr hr').2, boolean_eq hb]
    rfl
  rw [htruth, simplify]
  split
  next hdecided =>
    refine ⟨rfl, ?_⟩
    have hone : truth (lhs.eval ctx row).value = some decides ∨
        truth (rhs.eval ctx row).value = some decides :=
      hdecided.elim (fun h => Or.inl (hlit decides h)) (hrit decides)
    rw [junct, if_pos hone]
    rfl
  next hundecided =>
    rw [not_or] at hundecided
    split
    next hsome =>
      obtain ⟨b, hb⟩ := Option.isSome_iff_exists.mp hsome
      obtain rfl : b = !decides := Bool.eq_not.mpr fun h => hundecided.1 (h ▸ hb)
      have hltrue := hlit _ hb
      have hnot : truth (lhs.eval ctx row).value ≠ some decides := by
        rw [hltrue]
        cases decides <;> simp
      obtain ⟨hrerror, hrtruth⟩ := hr (hrok.resolve_left hnot)
      refine ⟨hrerror, ?_⟩
      rw [hrtruth, hltrue]
      exact (junct_left decides _).symm
    next =>
      split
      next hsome =>
        obtain ⟨b, hb⟩ := Option.isSome_iff_exists.mp hsome
        obtain rfl : b = !decides := Bool.eq_not.mpr fun h => hundecided.2 (h ▸ hb)
        refine ⟨hlerror, ?_⟩
        rw [hltruth]
        rcases hrit _ hb with h | h
        · rw [h, junct, if_pos (Or.inl rfl)]
        · rw [h]
          exact (junct_right decides _).symm
      next =>
        obtain ⟨htruth', herrors'⟩ := @eval_junction ctx row decides lhs' rhs'
        rw [htruth', herrors', hltruth]
        rcases hrok with h | h
        · exact ⟨⟨hlerror, Or.inl h⟩, by rw [h, junct, junct, if_pos (Or.inl rfl),
            if_pos (Or.inl rfl)]⟩
        · obtain ⟨hrerror, hrtruth⟩ := hr h
          exact ⟨⟨hlerror, Or.inr hrerror⟩, by rw [hrtruth]⟩

/-- `NOT` of what was folded. -/
theorem not_sameTruth (hops : LogicOps ctx.ops) {expr expr' : ResolvedExpr}
    (h : SameTruth ctx row expr' expr) :
    SameTruth ctx row
      (match boolean expr' with
        | some b => lit !b
        | none => .apply (.unary .not) [expr'])
      (.apply (.unary .not) [expr]) := by
  have heval : ∀ e : ResolvedExpr,
      (((ResolvedExpr.apply (.unary .not) [e]).eval ctx row).error = none ↔
        (e.eval ctx row).error = none) ∧
      truth ((ResolvedExpr.apply (.unary .not) [e]).eval ctx row).value =
        (truth (e.eval ctx row).value).map not := by
    intro e
    rw [ResolvedExpr.eval, ResolvedExpr.evalAll, ResolvedExpr.evalAll]
    simp only [EvalM.error_bind, EvalM.value_bind, EvalM.value_pure, EvalM.error_pure, and_true,
      EvalContext.evalForm, hops.not]
    refine ⟨trivial, ?_⟩
    rw [truth, truth]
    cases hnull : (e.eval ctx row).value.isNull <;> rfl
  intro herror
  obtain ⟨herror', htruth⟩ := h ((heval expr).1.mp herror)
  rw [(heval expr).2, ← htruth]
  cases hb : boolean expr' with
  | some b =>
    rw [boolean_eq hb]
    exact ⟨rfl, rfl⟩
  | none => exact ⟨(heval expr').1.mpr herror', (heval expr').2⟩

/-- A test for null of a parameter the plan was built for. -/
theorem nullTest_sameTruth (hops : LogicOps ctx.ops) {op : BinaryOp} {onNull isNull : Bool}
    {name : String} (rhs : ResolvedExpr) (hop : nullTest op = some onNull)
    (hnull : ((ctx.params name).getD .null).isNull = isNull) :
    SameTruth ctx row (lit (onNull == isNull)) (.binary (.parameter name) op rhs) := by
  have hvalue : (ResolvedExpr.eval ctx (.binary (.parameter name) op rhs) row).value =
      .bool (onNull == isNull) := by
    rw [ResolvedExpr.eval, ResolvedExpr.evalAll, ResolvedExpr.evalAll, ResolvedExpr.evalAll]
    simp only [EvalM.value_bind, EvalM.value_pure, ResolvedExpr.eval, EvalContext.evalForm]
    cases op with
    | isNull =>
      obtain rfl := Option.some.inj hop
      rw [hops.isNull, hnull]
      cases isNull <;> rfl
    | isNotNull =>
      obtain rfl := Option.some.inj hop
      rw [hops.isNotNull, hnull]
      cases isNull <;> rfl
    | _ => cases hop
  intro _
  rw [hvalue]
  exact ⟨rfl, rfl⟩

/-- A folded expression has the truth of the expression, where the parameters are as
assumed. -/
theorem fold_truth (hops : LogicOps ctx.ops) (e : ResolvedExpr)
    (hassumed : (fold nullness e).2.Holds ctx.params) :
    SameTruth ctx row (fold nullness e).1 e := by
  fun_induction fold nullness e with
  | case1 op name rhs onNull hop isNull hnull =>
    exact nullTest_sameTruth hops rhs hop (hassumed name isNull (mem_singleton.mpr rfl))
  | case2 op name rhs onNull hop hnull => exact SameTruth.refl _
  | case3 op name rhs hop => exact SameTruth.refl _
  | case4 lhs rhs ihl ihr =>
    exact simplify_sameTruth
      (ihl fun name isNull h => hassumed name isNull (mem_append_left _ h))
      (ihr fun name isNull h => hassumed name isNull (mem_append_right _ h))
  | case5 lhs rhs ihl ihr =>
    exact simplify_sameTruth
      (ihl fun name isNull h => hassumed name isNull (mem_append_left _ h))
      (ihr fun name isNull h => hassumed name isNull (mem_append_right _ h))
  | case6 expr ih => exact not_sameTruth hops (ih hassumed)
  | case7 => exact SameTruth.refl _

theorem foldParameterNullTests_truth (hops : LogicOps ctx.ops) (e : ResolvedExpr)
    (hassumed : (foldParameterNullTests nullness e).2.Holds ctx.params) :
    SameTruth ctx row (foldParameterNullTests nullness e).1 e := by
  rw [foldParameterNullTests] at hassumed ⊢
  split
  next h =>
    rw [if_pos h] at hassumed
    exact fold_truth hops e hassumed
  next => exact SameTruth.refl e

/-- A filter that succeeds fails on no row. -/
theorem runOp_filter_error {e : ResolvedExpr} {rows out : List Row}
    (h : runOp ctx (.step (.filter e)) rows = .ok out) :
    ∀ row ∈ rows, (e.eval ctx row).error = none := by
  obtain ⟨outs, houts, -⟩ := (runOp_eq_ok rfl).mp h
  clear h
  induction houts with
  | nil => simp
  | @cons row out rows outs hrow _ ih =>
    refine forall_mem_cons.mpr ⟨?_, ih⟩
    rw [rowOp, EvalContext.runRow, EvalContext.evalTruthy] at hrow
    cases herror : (e.eval ctx row).error with
    | none => rfl
    | some message =>
      rw [herror] at hrow
      cases hrow

/-- A folded filter leaves the rows the filter leaves. -/
theorem folded_eq (hops : LogicOps ctx.ops) {e : ResolvedExpr}
    (hassumed : (foldParameterNullTests nullness e).2.Holds ctx.params) {rows out out' : List Row}
    (hok : runOp ctx (.step (.filter (foldParameterNullTests nullness e).1)) rows = .ok out)
    (hok' : runOp ctx (.step (.filter e)) rows = .ok out') : out = out' := by
  rw [runOp_filter_eq hok, runOp_filter_eq hok']
  refine filter_congr fun row hrow => ?_
  have herror := runOp_filter_error hok' row hrow
  obtain ⟨herror', htruth⟩ := foldParameterNullTests_truth hops e hassumed herror
  simp only [passesAll, all_cons, all_nil, herror, herror', isTruthy_eq_truth, htruth]

end Fold

/-! ### Moved filters keep the rows -/

/-- **Moved filters keep the rows.** Conjuncts placed among the operators of a pattern that leaves
what they read alone, a filter pushed below a projection whose names it is written over, and a
filter whose null tests are folded for parameters as assumed: each gives the rows of the plan as
written, in their order, where neither fails. -/
theorem filters_moved (ctx : EvalContext) (dedup : List Row → List Row) :
    (∀ (choice : WalkChoice) (stats : GraphStats) (bound : Finset VarId)
      (pattern : ResolvedPattern) (predicate : Option ResolvedExpr) (rows out out' : List Row),
      Movable pattern predicate →
      run ctx (planPatternWithWhere choice stats bound pattern predicate) rows = .ok out →
      run ctx (planWhereAbove choice stats bound pattern predicate) rows = .ok out' →
      out = out') ∧
    (∀ (predicate : ResolvedExpr) (proj : Projection) (rows out out' : List Row),
      InScope predicate proj rows →
      runRowOps ctx dedup (pushFilterBelowProjection predicate proj) rows = .ok out →
      runRowOps ctx dedup [.projection proj, .filter predicate] rows = .ok out' →
      out = out') ∧
    (LogicOps ctx.ops →
      ∀ (nullness : String → Option Bool) (predicate : ResolvedExpr) (rows out out' : List Row),
      (foldParameterNullTests nullness predicate).2.Holds ctx.params →
      runRowOps ctx dedup [.filter (foldParameterNullTests nullness predicate).1] rows = .ok out →
      runRowOps ctx dedup [.filter predicate] rows = .ok out' →
      out = out') := by
  refine ⟨fun choice stats bound pattern predicate rows out out' hmovable hok hok' =>
      placed_eq hmovable hok hok',
    fun predicate proj rows out out' hscope hok hok' => pushed_eq hscope hok hok',
    fun hops nullness predicate rows out out' hassumed hok hok' => ?_⟩
  rw [runRowOps_singleton] at hok hok'
  exact folded_eq hops hassumed hok hok'

/-- The operators that are folded; anything else is null. -/
def logicOps : ValueOps where
  form form operands := pure <| match form, operands with
    | .binary .isNull, [value, _] => .bool value.isNull
    | .binary .isNotNull, [value, _] => .bool !value.isNull
    | .unary .not, [value] => if value.isNull then .null else .bool !value.isTruthy
    | _, _ => .null
  valueEq _ _ := false
  builtList values := pure (.list values)
  mapProjection _ _ _ := pure .null
  slice _ _ _ := pure .null
  subquery _ _ := pure .null
  valueMatches _ _ := false

theorem logicOps_logic : LogicOps logicOps := ⟨fun _ _ => rfl, fun _ _ => rfl, fun _ => rfl⟩

def logicContext : EvalContext := ⟨pairGraph, fun _ => none, logicOps⟩

/-- A step `-[rel*start..stop]->(dst)`. -/
def hopsStep (rel : VarId) (start stop : ℕ) (dst : VarId) : ResolvedStep :=
  ⟨⟨some rel, [], .right, none⟩, some ⟨some start, some stop⟩, ⟨dst, .none, none⟩⟩

/-- `p = shortestPath((a)-[r*0..1]->(b))` -/
def nearPattern : ResolvedPattern :=
  ⟨[⟨some ⟨3⟩, .shortestPath false ⟨⟨0⟩, .none, none⟩ [hopsStep ⟨1⟩ 0 1 ⟨2⟩]⟩]⟩

/-- `a:A AND b:B` -/
def nearWhere : ResolvedExpr := .and (hasLabelCall ⟨0⟩ "A") (hasLabelCall ⟨2⟩ "B")

/-- `(b), (a)-[b*1..1]->(c)` -/
def boundPattern : ResolvedPattern :=
  ⟨[⟨none, .node ⟨⟨0⟩, .none, none⟩⟩, ⟨none, .nodeChain ⟨⟨1⟩, .none, none⟩ [hopsStep ⟨0⟩ 1 1 ⟨2⟩]⟩]⟩

/-- The rows of a pattern with a WHERE, placed, and of the WHERE above the pattern. -/
def bothWays (pattern : ResolvedPattern) (predicate : ResolvedExpr) : Option ℕ × Option ℕ :=
  ((run logicContext (planPatternWithWhere asWritten pairStats ∅ pattern (some predicate))
      [Row.empty]).toOption.map List.length,
    (run logicContext (planWhereAbove asWritten pairStats ∅ pattern (some predicate))
      [Row.empty]).toOption.map List.length)

/-- `MATCH p = shortestPath((a)-[r*0..1]->(b)) WHERE a:A AND b:B` finds the shortest path between
an `:A` and a `:B`; no shortest path of all nodes joins two. And `b:B` is tested in
`MATCH (b), (a)-[b*1..1]->(c)` while `b` is a node, before it is a list. -/
theorem filters_not_moved : bothWays nearPattern nearWhere = (some 1, some 0) ∧
    bothWays boundPattern (hasLabelCall ⟨0⟩ "B") = (some 1, some 0) := by
  decide +kernel

/-- `MATCH (a)-[r*0..1]->(b) WHERE a:A AND b:B` -/
def hopsPattern : ResolvedPattern :=
  ⟨[⟨none, .nodeChain ⟨⟨0⟩, .none, none⟩ [hopsStep ⟨1⟩ 0 1 ⟨2⟩]⟩]⟩

theorem hopsPattern_movable : Movable hopsPattern (some nearWhere) :=
  ⟨⟨fun _ => by decide, trivial⟩, fun _ h => (nomatch h), fun h => (nomatch h), trivial⟩

/-- `WITH 1 AS x WHERE $p IS NULL` -/
def parameterTest : ResolvedExpr := .binary (.parameter "p") .isNull (.literal .null)

def oneItem : Projection := ⟨false, [⟨.literal (.int 1), ⟨0⟩⟩], false⟩

theorem filters_moved_near : (∃ out, run logicContext
        (planPatternWithWhere asWritten pairStats ∅ hopsPattern (some nearWhere)) [Row.empty] =
          .ok out ∧
      run logicContext (planWhereAbove asWritten pairStats ∅ hopsPattern (some nearWhere))
        [Row.empty] = .ok out ∧ out.length = 1) ∧
    (∃ out, runRowOps logicContext id (pushFilterBelowProjection parameterTest oneItem)
        [Row.empty] = .ok out ∧
      runRowOps logicContext id [.projection oneItem, .filter parameterTest] [Row.empty] =
        .ok out ∧ out.length = 1) ∧
    ∃ out, runRowOps logicContext id
        [.filter (foldParameterNullTests (fun _ => some true) parameterTest).1] [Row.empty] =
          .ok out ∧
      runRowOps logicContext id [.filter parameterTest] [Row.empty] = .ok out ∧
      out.length = 1 := by
  have hrun : ∀ {x : Except ExecutorError (List Row)}, x.toOption.map List.length = some 1 →
      ∃ out, x = .ok out ∧ out.length = 1 := by
    intro x hx
    cases x with
    | error err => cases hx
    | ok out => exact ⟨out, rfl, Option.some.inj hx⟩
  obtain ⟨hplaced, hpushed, hfolded⟩ := filters_moved logicContext id
  refine ⟨?_, ?_, ?_⟩
  · obtain ⟨out, hout, hone⟩ := hrun (x := run logicContext
      (planPatternWithWhere asWritten pairStats ∅ hopsPattern (some nearWhere)) [Row.empty])
      (by decide +kernel)
    obtain ⟨out', hout', -⟩ := hrun (x := run logicContext
      (planWhereAbove asWritten pairStats ∅ hopsPattern (some nearWhere)) [Row.empty])
      (by decide +kernel)
    obtain rfl := hplaced _ _ _ _ _ _ _ _ hopsPattern_movable hout hout'
    exact ⟨out, hout, hout', hone⟩
  · obtain ⟨out, hout, hone⟩ := hrun (x := runRowOps logicContext id
      (pushFilterBelowProjection parameterTest oneItem) [Row.empty]) (by decide +kernel)
    obtain ⟨out', hout', -⟩ := hrun (x := runRowOps logicContext id
      [.projection oneItem, .filter parameterTest] [Row.empty]) (by decide +kernel)
    obtain rfl := hpushed parameterTest oneItem _ _ _ (fun var hvar => by cases hvar) hout hout'
    exact ⟨out, hout, hout', hone⟩
  · obtain ⟨out, hout, hone⟩ := hrun (x := runRowOps logicContext id
      [.filter (foldParameterNullTests (fun _ => some true) parameterTest).1] [Row.empty])
      (by decide +kernel)
    obtain ⟨out', hout', -⟩ := hrun (x := runRowOps logicContext id
      [.filter parameterTest] [Row.empty]) (by decide +kernel)
    have hassumed : (foldParameterNullTests (fun _ => some true) parameterTest).2.Holds
        logicContext.params := by
      have hone : (foldParameterNullTests (fun _ => some true) parameterTest).2 =
          [("p", some true)] := by decide +kernel
      intro name isNull h
      rw [hone, mem_singleton, Prod.mk.injEq, Option.some_inj] at h
      rw [h.2]
      rfl
    obtain rfl := hfolded logicOps_logic _ _ _ _ _ hassumed hout hout'
    exact ⟨out, hout, hout', hone⟩

end PathPlan

end LoraDb
