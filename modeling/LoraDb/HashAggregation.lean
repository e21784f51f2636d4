import LoraDb.ListFolds
import LoraDb.GraphRuns
import LoraDb.PatternJoins

/-!
# Hash Aggregation

Rows are grouped by a key, and each group becomes one row. Aggregates that are folds are computed
as the rows come; all others, and those beside them, over the rows of each group collected. A count
over a bare scan is read off the graph.

## Main results

* `compareValuesTotal_swap`: the order of rows, the other way round.
* `bothWays`: both ways give the same groups, or neither gives any.
* `countRows_eq`: the count read off the graph is the number of rows of the scan.
* `aggregates_agree`: where the ways agree, and what does not depend on the order of the rows.
-/

namespace LoraDb

open Option (bind_eq_some_iff elim_some getD_some some_ne_none)
open Comparing SortedMap List

/-! ### Calls -/

inductive AggregateFunction where
  | count
  | collect
  | sum
  | avg
  | min
  | max

/-- An aggregate call, as written. -/
structure AggregateExpr (E : Type) where
  function : AggregateFunction
  distinct : Bool
  args : List E

/-- A fold, and what is evaluated for it in each row. -/
structure StreamableAggSpec (E : Type) where
  kind : StreamableAggKind
  arg : Option E

inductive GroupError where
  | eval (message : String)
  | aggregate (error : AggregateError)
  | tooDeep (message : String)

variable {E ρ κ γ δ : Type}

def streamableSpec (call : AggregateExpr E) : Option (StreamableAggSpec E) :=
  if call.distinct then none
  else
    match call.function, call.args with
    | .count, [] => some ⟨.countAll, none⟩
    | .count, [arg] => some ⟨.countField, some arg⟩
    | .sum, [arg] => some ⟨.sum, some arg⟩
    | .min, [arg] => some ⟨.min, some arg⟩
    | .max, [arg] => some ⟨.max, some arg⟩
    | .avg, [arg] => some ⟨.avg, some arg⟩
    | _, _ => none

/-- The folds of a list of calls, if all are folds. -/
def classifyStreamableAggregates (calls : List (AggregateExpr E)) :
    Option (List (StreamableAggSpec E)) :=
  calls.mapM streamableSpec

/-- What the expressions of an aggregation evaluate to. -/
structure GroupContext (E ρ κ γ δ : Type) where
  eval : E → ρ → Except String LoraValue
  /-- Whether there are grouping items. -/
  grouped : Bool
  noKey : κ
  key : ρ → Except String κ
  noValues : γ
  /-- The grouping items, evaluated for the output. -/
  groupValues : ρ → Except String γ
  /-- What `DISTINCT` compares values by. -/
  valueKey : LoraValue → δ
  checkBuiltNesting : List LoraValue → Except String Unit

namespace GroupContext

variable (ctx : GroupContext E ρ κ γ δ) (F : FloatOps) (r : Rendering)

section Definitions

variable [LinearOrder κ] [DecidableEq δ]

/-! ### Collected rows -/

def evalIn (e : E) (row : ρ) : Except GroupError LoraValue :=
  (ctx.eval e row).mapError .eval

def keyOf (row : ρ) : Except GroupError κ := (ctx.key row).mapError .eval

def valuesOf (row : ρ) : Except GroupError γ := (ctx.groupValues row).mapError .eval

def evalAggregateArgValues (e : E) (rows : List ρ) : Except GroupError (List LoraValue) :=
  rows.mapM (ctx.evalIn e)

/-- Keeps the first of the values with one key. -/
def dedupValues (values : List LoraValue) : List LoraValue :=
  values.foldl (fun out v =>
    if (out.map ctx.valueKey).contains (ctx.valueKey v) then out else out ++ [v]) []

def computeAggregateExpr (call : AggregateExpr E) (rows : List ρ) :
    Except GroupError LoraValue := do
  let unique := fun values => if call.distinct then ctx.dedupValues values else values
  let present := fun values : List LoraValue => values.filter (!·.isNull)
  match call.function, call.args with
  | .count, [] => return .int (.ofNat rows.length)
  | .count, arg :: _ =>
    let values ← ctx.evalAggregateArgValues arg rows
    return .int (.ofNat (unique (present values)).length)
  | .collect, [] => return .list []
  | .collect, arg :: _ =>
    let values ← ctx.evalAggregateArgValues arg rows
    (ctx.checkBuiltNesting (unique (present values))).mapError .tooDeep
    return .list (unique (present values))
  | .sum, arg :: _ =>
    let values ← ctx.evalAggregateArgValues arg rows
    (AggState.stream F r .sum (unique values)).mapError .aggregate
  | .avg, arg :: _ =>
    let values ← ctx.evalAggregateArgValues arg rows
    (AggState.stream F r .avg (unique values)).mapError .aggregate
  | .min, arg :: _ =>
    let values ← ctx.evalAggregateArgValues arg rows
    return (minBy (compareValuesTotal r) (unique (present values))).getD .null
  | .max, arg :: _ =>
    let values ← ctx.evalAggregateArgValues arg rows
    return (maxBy (compareValuesTotal r) (unique (present values))).getD .null
  | _, [] => return .null

/-- Adds a row to the group of its key. -/
def groupStep (groups : List (κ × List ρ)) (row : ρ) : Except GroupError (List (κ × List ρ)) := do
  let key ← ctx.keyOf row
  return put key ((get? key groups).getD [] ++ [row]) groups

def buildGroupRow (calls : List (AggregateExpr E)) (rows : List ρ) :
    Except GroupError (γ × List LoraValue) := do
  let values ← match ctx.grouped, rows.head? with
    | true, some first => ctx.valuesOf first
    | _, _ => pure ctx.noValues
  return (values, ← calls.mapM fun call => ctx.computeAggregateExpr F r call rows)

def aggregateBufferedRows (calls : List (AggregateExpr E)) (rows : List ρ) :
    Except GroupError (List (γ × List LoraValue)) := do
  let groups ← if ctx.grouped then rows.foldlM ctx.groupStep [] else pure [(ctx.noKey, rows)]
  groups.mapM fun group => ctx.buildGroupRow F r calls group.2

/-! ### Rows as they come -/

def foldOne (state : AggState) (spec : StreamableAggSpec E) (row : ρ) :
    Except GroupError AggState := do
  match spec.arg with
  | some arg => return state.fold F r spec.kind (← ctx.evalIn arg row)
  | none => return state.fold F r spec.kind .null

def foldStreamingAggs (specs : List (StreamableAggSpec E)) (states : List AggState) (row : ρ) :
    Except GroupError (List AggState) :=
  (states.zip specs).mapM fun (state, spec) => ctx.foldOne F r state spec row

def seedAggs (specs : List (StreamableAggSpec E)) : List AggState :=
  specs.map fun spec => .seed spec.kind

/-- A group's first row, and its running states. -/
structure StreamingGroup (ρ : Type) where
  firstRow : ρ
  aggs : List AggState

def streamStep (specs : List (StreamableAggSpec E)) (groups : List (κ × StreamingGroup ρ))
    (row : ρ) : Except GroupError (List (κ × StreamingGroup ρ)) := do
  let key ← ctx.keyOf row
  let group := (get? key groups).getD ⟨row, seedAggs specs⟩
  let aggs ← ctx.foldStreamingAggs F r specs group.aggs row
  return put key ⟨group.firstRow, aggs⟩ groups

def finalizeAggs (states : List AggState) : Except GroupError (List LoraValue) :=
  states.mapM fun state => (state.finalize F).mapError .aggregate

def aggregateSingleGroup (specs : List (StreamableAggSpec E)) (rows : List ρ) :
    Except GroupError (List (γ × List LoraValue)) := do
  if specs.all fun spec => spec.kind == .countAll then
    return [(ctx.noValues, specs.map fun _ => .int (.ofNat rows.length))]
  let states ← rows.foldlM (ctx.foldStreamingAggs F r specs) (seedAggs specs)
  return [(ctx.noValues, ← finalizeAggs F states)]

def aggregateStreamableRows (specs : List (StreamableAggSpec E)) (rows : List ρ) :
    Except GroupError (List (γ × List LoraValue)) := do
  if ctx.grouped then
    let groups ← rows.foldlM (ctx.streamStep F r specs) []
    groups.mapM fun group => do
      let values ← ctx.valuesOf group.2.firstRow
      return (values, ← finalizeAggs F group.2.aggs)
  else ctx.aggregateSingleGroup F r specs rows

end Definitions

/-! ### Values -/

/-- What a fold takes from a row. -/
def specValue (spec : StreamableAggSpec E) (row : ρ) : Except GroupError LoraValue :=
  match spec.arg with
  | some arg => ctx.evalIn arg row
  | none => .ok .null

variable {ctx} {F} {r}

theorem foldOne_eq (state : AggState) (spec : StreamableAggSpec E) (row : ρ) :
    ctx.foldOne F r state spec row = do
      return state.fold F r spec.kind (← ctx.specValue spec row) := by
  rw [foldOne, specValue]
  cases spec.arg <;> rfl

/-- Of two of one kind, no different ones tie. -/
def NoTies (r : Rendering) (values : List LoraValue) : Prop :=
  ∀ v ∈ values, ∀ w ∈ values, v.isNull = false → w.isNull = false →
    compareValuesTotal r v w = .eq → v = w

theorem compare_swap {α : Type} [Ord α] [Std.OrientedOrd α] (a b : α) :
    compare b a = (compare a b).swap := Std.OrientedOrd.eq_swap

theorem partialCmp_swap (f g : F64) : (g.partialCmp f).getD .eq =
    ((f.partialCmp g).getD .eq).swap := by
  rw [F64.partialCmp, F64.partialCmp, Bool.or_comm]
  split
  · rfl
  · rw [getD_some, getD_some]
    exact compare_swap _ _

theorem compareValuesTotal_swap (r : Rendering) (a b : LoraValue) :
    compareValuesTotal r b a = (compareValuesTotal r a b).swap := by
  cases a <;> cases b <;>
    simp only [compareValuesTotal, LoraDate.cmp, LoraDateTime.cmp, LoraLocalDateTime.cmp,
      LoraTime.cmp, LoraLocalTime.cmp, LoraDuration.cmp, F64.totalCmp, Ordering.swap_then,
      ← partialCmp_swap, ← compare_swap]

/-- The running minimum is the collected one. -/
theorem stream_min (values : List LoraValue) : AggState.stream F r .min values =
    .ok ((minBy (compareValuesTotal r) (values.filter (!·.isNull))).getD .null) := by
  have hpick : ∀ (best : Option LoraValue) v, pick (compareValuesTotal r) .lt best v =
      some (best.elim v fun b => if compareValuesTotal r b v = .gt then v else b) := by
    intro best v
    cases best with
    | none => rfl
    | some b =>
      rw [pick, compareValuesTotal_swap r b v, elim_some]
      cases compareValuesTotal r b v <;> rfl
  rw [AggState.stream, AggState.seed, ListNs.foldl_min, foldl_foldExtreme, minBy]
  have hfun : pick (compareValuesTotal r) .lt = fun (best : Option LoraValue) v =>
      some (best.elim v fun b => if compareValuesTotal r b v = .gt then v else b) :=
    funext fun best => funext fun v => hpick best v
  rw [hfun]
  rfl

variable {values : List LoraValue}

/-- The running maximum is the collected one, where no two values tie. -/
theorem stream_max (h : NoTies r values) : AggState.stream F r .max values =
      .ok ((maxBy (compareValuesTotal r) (values.filter (!·.isNull))).getD .null) := by
  have hrun : ∀ ys : List LoraValue, (∀ v ∈ ys, v ∈ values ∧ v.isNull = false) →
      ∀ best : Option LoraValue, (∀ v ∈ best, v ∈ values ∧ v.isNull = false) →
      ys.foldl (pick (compareValuesTotal r) .gt) best = ys.foldl (fun best v =>
        some (best.elim v fun b => if compareValuesTotal r b v = .gt then b else v)) best := by
    intro ys
    induction ys with
    | nil => exact fun _ _ _ => rfl
    | cons v ys ih =>
      intro hys best hbest
      obtain ⟨hv, hvnull⟩ := hys v mem_cons_self
      have hstep : pick (compareValuesTotal r) .gt best v =
          some (best.elim v fun b => if compareValuesTotal r b v = .gt then b else v) := by
        cases best with
        | none => rfl
        | some b =>
          obtain ⟨hb, hbnull⟩ := hbest b rfl
          rw [pick, compareValuesTotal_swap r b v, elim_some]
          cases hcmp : compareValuesTotal r b v with
          | eq =>
            obtain rfl := h b hb v hv hbnull hvnull hcmp
            rfl
          | lt => rfl
          | gt => rfl
      rw [foldl_cons, foldl_cons, hstep]
      refine ih (fun w hw => hys w (mem_cons_of_mem v hw)) _ fun w hw => ?_
      obtain rfl := Option.some.inj hw
      cases best with
      | none => exact ⟨hv, hvnull⟩
      | some b =>
        rw [elim_some]
        split
        · exact hbest b rfl
        · exact ⟨hv, hvnull⟩
  rw [AggState.stream, AggState.seed, ListNs.foldl_max, foldl_foldExtreme, maxBy]
  rw [hrun _ (fun v hv => ?_) none fun v hv => absurd hv.symm (some_ne_none v)]
  · rfl
  · obtain ⟨hmem, hnull⟩ := List.mem_filter.mp hv
    exact ⟨hmem, by simpa using hnull⟩

theorem foldl_count (kind : StreamableAggKind) (test : LoraValue → Bool)
    (hfold : ∀ n v, AggState.fold F r kind (.count n) v =
      .count (if test v then n + 1 else n)) (values : List LoraValue) (n : ℕ) :
    values.foldl (AggState.fold F r kind) (.count n) =
      .count (n + (values.filter test).length) := by
  induction values generalizing n with
  | nil => rfl
  | cons v values ih =>
    rw [foldl_cons, hfold, ih]
    cases hv : test v with
    | true =>
      rw [filter_cons_of_pos hv, length_cons, if_pos rfl]
      exact congrArg AggState.count (by omega)
    | false =>
      rw [filter_cons_of_neg (by rw [hv]; exact Bool.false_ne_true), if_neg Bool.false_ne_true]

theorem stream_countAll (values : List LoraValue) :
    AggState.stream F r .countAll values = .ok (.int (.ofNat values.length)) := by
  rw [AggState.stream, AggState.seed, foldl_count .countAll (fun _ => true) (fun _ _ => rfl),
    filter_true, Nat.zero_add]
  rfl

theorem stream_countField (values : List LoraValue) : AggState.stream F r .countField values =
    .ok (.int (.ofNat (values.filter (!·.isNull)).length)) := by
  rw [AggState.stream, AggState.seed, foldl_count .countField (!·.isNull) ?_, Nat.zero_add]
  · rfl
  · intro n v
    rw [AggState.fold]
    cases v.isNull <;> rfl

section MapM

variable {α β ε : Type} {f : α → Except ε β}

theorem mapM_length {xs : List α} {ys : List β} (h : xs.mapM f = .ok ys) :
    ys.length = xs.length := (EvalContext.mapM_ok.mp h).length_eq.symm

theorem mapM_mem {xs : List α} {ys : List β} (h : xs.mapM f = .ok ys) {x : α} (hx : x ∈ xs) :
    ∃ y, f x = .ok y := by
  have hall := EvalContext.mapM_ok.mp h
  induction hall with
  | nil => exact absurd hx not_mem_nil
  | cons hy hrest ih =>
    rcases List.mem_cons.mp hx with rfl | hx
    · exact ⟨_, hy⟩
    · exact ih (EvalContext.mapM_ok.mpr hrest) hx

theorem mapM_of_forall {g : α → β} {xs : List α} (h : ∀ x ∈ xs, f x = .ok (g x)) :
    xs.mapM f = .ok (xs.map g) :=
  EvalContext.mapM_ok.mpr (List.forall₂_map_right_iff.mpr (List.forall₂_same.mpr h))

theorem mapM_forall₂ {α' : Type} {f' : α' → Except ε β} {xs : List α} {xs' : List α'}
    (h : Forall₂ (fun x x' => f x = f' x') xs xs') : xs.mapM f = xs'.mapM f' := by
  induction h with
  | nil => rfl
  | cons hx _ ih => rw [mapM_cons, mapM_cons, hx, ih]

theorem bind_eq_ok {x : Except ε α} {g : α → Except ε β} {b : β} (h : x >>= g = .ok b) :
    ∃ a, x = .ok a ∧ g a = .ok b := by
  cases x with
  | error e => exact absurd h (by simp [bind, Except.bind])
  | ok a => exact ⟨a, rfl, h⟩

end MapM

variable {spec : StreamableAggSpec E} {call : AggregateExpr E}

/-- A call that is a fold, over collected rows: the fold of what it takes from them. -/
theorem compute_eq [DecidableEq δ] (hspec : streamableSpec call = some spec) {rows : List ρ}
    (hvalues : rows.mapM (ctx.specValue spec) = .ok values)
    (hties : spec.kind = .max → NoTies r values) :
    ctx.computeAggregateExpr F r call rows =
      (AggState.stream F r spec.kind values).mapError .aggregate := by
  obtain ⟨function, distinct, args⟩ := call
  rw [streamableSpec] at hspec
  split at hspec
  · exact absurd hspec (some_ne_none spec).symm
  · rename_i hdistinct
    obtain rfl : distinct = false := Bool.eq_false_iff.mpr hdistinct
    match function, args, hspec with
    | .count, [], hspec =>
      obtain rfl := Option.some.inj hspec
      rw [stream_countAll, mapM_length hvalues]
      rfl
    | .count, [arg], hspec =>
      obtain rfl := Option.some.inj hspec
      have harg : rows.mapM (ctx.evalIn arg) = .ok values := hvalues
      rw [stream_countField, computeAggregateExpr]
      simp only [evalAggregateArgValues, harg]
      rfl
    | .sum, [arg], hspec =>
      obtain rfl := Option.some.inj hspec
      have harg : rows.mapM (ctx.evalIn arg) = .ok values := hvalues
      rw [computeAggregateExpr]
      simp only [evalAggregateArgValues, harg]
      rfl
    | .avg, [arg], hspec =>
      obtain rfl := Option.some.inj hspec
      have harg : rows.mapM (ctx.evalIn arg) = .ok values := hvalues
      rw [computeAggregateExpr]
      simp only [evalAggregateArgValues, harg]
      rfl
    | .min, [arg], hspec =>
      obtain rfl := Option.some.inj hspec
      have harg : rows.mapM (ctx.evalIn arg) = .ok values := hvalues
      rw [stream_min, computeAggregateExpr]
      simp only [evalAggregateArgValues, harg]
      rfl
    | .max, [arg], hspec =>
      obtain rfl := Option.some.inj hspec
      have harg : rows.mapM (ctx.evalIn arg) = .ok values := hvalues
      rw [stream_max (hties rfl), computeAggregateExpr]
      simp only [evalAggregateArgValues, harg]
      rfl
    | .collect, [], hspec => exact absurd hspec (some_ne_none spec).symm
    | .collect, [_], hspec => exact absurd hspec (some_ne_none spec).symm

/-- A call that is a fold takes a value from every row. -/
theorem compute_ok [DecidableEq δ]
    (hspec : streamableSpec call = some spec) {rows : List ρ} {v : LoraValue}
    (h : ctx.computeAggregateExpr F r call rows = .ok v) {row : ρ} (hrow : row ∈ rows) :
    ∃ w, ctx.specValue spec row = .ok w := by
  have hargs : ∀ {arg : E} {next : List LoraValue → Except GroupError LoraValue},
      (ctx.evalAggregateArgValues arg rows >>= next) = .ok v → ∃ w, ctx.evalIn arg row = .ok w := by
    intro arg next hnext
    obtain ⟨values, hvalues, -⟩ := bind_eq_ok hnext
    exact mapM_mem hvalues hrow
  obtain ⟨function, distinct, args⟩ := call
  rw [streamableSpec] at hspec
  split at hspec
  · exact absurd hspec (some_ne_none spec).symm
  · match function, args, hspec, h with
    | .count, [], hspec, h =>
      obtain rfl := Option.some.inj hspec
      exact ⟨.null, rfl⟩
    | .count, [arg], hspec, h | .sum, [arg], hspec, h | .avg, [arg], hspec, h
    | .min, [arg], hspec, h | .max, [arg], hspec, h =>
      obtain rfl := Option.some.inj hspec
      exact hargs h
    | .collect, [], hspec, _ => exact absurd hspec (some_ne_none spec).symm
    | .collect, [_], hspec, _ => exact absurd hspec (some_ne_none spec).symm

/-! ### Folds over rows -/

/-- Every fold gets its value from a row. -/
def Evaluates (ctx : GroupContext E ρ κ γ δ) (specs : List (StreamableAggSpec E)) (row : ρ) :
    Prop := ∀ spec ∈ specs, ∃ v, ctx.specValue spec row = .ok v

/-- What a fold takes from a row, where it takes anything. -/
def value (ctx : GroupContext E ρ κ γ δ) (spec : StreamableAggSpec E) (row : ρ) : LoraValue :=
  match ctx.specValue spec row with
  | .ok v => v
  | .error _ => .null

/-- A fold's state after some rows. -/
def stateAfter (ctx : GroupContext E ρ κ γ δ) (F : FloatOps) (r : Rendering) (rows : List ρ)
    (spec : StreamableAggSpec E) : AggState :=
  (rows.map (ctx.value spec)).foldl (AggState.fold F r spec.kind) (.seed spec.kind)

variable {specs : List (StreamableAggSpec E)} {row : ρ} {rows : List ρ}

theorem specValue_eq (h : ∃ v, ctx.specValue spec row = .ok v) :
    ctx.specValue spec row = .ok (ctx.value spec row) := by
  obtain ⟨v, hv⟩ := h
  rw [value, hv]

theorem zip_map_self {α β : Type} (f : α → β) (xs : List α) :
    (xs.map f).zip xs = xs.map fun x => (f x, x) := by
  induction xs with
  | nil => rfl
  | cons x xs ih => exact congrArg ((f x, x) :: ·) ih

theorem foldStreamingAggs_ok (f : StreamableAggSpec E → AggState)
    (h : Evaluates ctx specs row) : ctx.foldStreamingAggs F r specs (specs.map f) row =
      .ok (specs.map fun spec => (f spec).fold F r spec.kind (ctx.value spec row)) := by
  rw [foldStreamingAggs, zip_map_self]
  refine EvalContext.mapM_ok.mpr (List.forall₂_map_left_iff.mpr
    (List.forall₂_map_right_iff.mpr (List.forall₂_same.mpr fun spec hspec => ?_)))
  change ctx.foldOne F r (f spec) spec row = _
  rw [foldOne_eq, specValue_eq (h spec hspec)]
  rfl

theorem evaluates_of_fold {f : StreamableAggSpec E → AggState} {out : List AggState}
    (h : ctx.foldStreamingAggs F r specs (specs.map f) row = .ok out) :
    Evaluates ctx specs row := by
  intro spec hspec
  rw [foldStreamingAggs, zip_map_self] at h
  obtain ⟨state, hstate⟩ := mapM_mem h (List.mem_map.mpr ⟨spec, hspec, rfl⟩)
  have hfold : ctx.foldOne F r (f spec) spec row = .ok state := hstate
  rw [foldOne_eq] at hfold
  obtain ⟨v, hv, -⟩ := bind_eq_ok hfold
  exact ⟨v, hv⟩

theorem stateAfter_concat (rows : List ρ) (row : ρ) (spec : StreamableAggSpec E) :
    stateAfter ctx F r (rows ++ [row]) spec =
      (stateAfter ctx F r rows spec).fold F r spec.kind (ctx.value spec row) := by
  rw [stateAfter, map_append, foldl_append]
  rfl

theorem foldStreamingAggs_after (h : Evaluates ctx specs row) (rows : List ρ) :
    ctx.foldStreamingAggs F r specs (specs.map (stateAfter ctx F r rows)) row =
      .ok (specs.map (stateAfter ctx F r (rows ++ [row]))) := by
  rw [foldStreamingAggs_ok _ h]
  exact congrArg Except.ok
    (map_congr_left fun spec _ => (stateAfter_concat rows row spec).symm)

/-! ### Groups -/

/-- A group of rows and the running group of the same rows. -/
def Runs (ctx : GroupContext E ρ κ γ δ) (F : FloatOps) (r : Rendering)
    (specs : List (StreamableAggSpec E)) (group : κ × List ρ) (running : κ × StreamingGroup ρ) :
    Prop :=
  group.1 = running.1 ∧ group.2.head? = some running.2.firstRow ∧
    running.2.aggs = specs.map (stateAfter ctx F r group.2)

section Related

variable [LinearOrder κ] {α β : Type} {R : κ × α → κ × β → Prop} {es : List (κ × α)} {es' : List
  (κ × β)}

theorem get?_related (hkeys : ∀ e e', R e e' → e.1 = e'.1) (h : Forall₂ R es es') (k : κ) :
    (get? k es = none ∧ get? k es' = none) ∨
      ∃ a b, get? k es = some a ∧ get? k es' = some b ∧ R (k, a) (k, b) := by
  induction h with
  | nil => exact Or.inl ⟨rfl, rfl⟩
  | @cons e e' es es' he _ ih =>
    obtain ⟨k', a⟩ := e
    obtain ⟨k'', b⟩ := e'
    obtain rfl : k' = k'' := hkeys _ _ he
    by_cases hk : k = k'
    · subst hk
      exact Or.inr ⟨a, b, if_pos rfl, if_pos rfl, he⟩
    · rw [get?, get?, if_neg hk, if_neg hk]
      exact ih

theorem put_related (hkeys : ∀ e e', R e e' → e.1 = e'.1) (h : Forall₂ R es es') {k : κ}
    {a : α} {b : β} (hab : R (k, a) (k, b)) : Forall₂ R (put k a es) (put k b es') := by
  induction h with
  | nil => exact .cons hab .nil
  | @cons e e' es es' he hrest ih =>
    obtain ⟨k', a'⟩ := e
    obtain ⟨k'', b'⟩ := e'
    obtain rfl : k' = k'' := hkeys _ _ he
    rw [put, put]
    by_cases hlt : k < k'
    · rw [if_pos hlt, if_pos hlt]
      exact .cons hab (.cons he hrest)
    · by_cases hk : k = k'
      · subst hk
        rw [if_neg hlt, if_neg hlt, if_pos rfl, if_pos rfl]
        exact .cons hab hrest
      · rw [if_neg hlt, if_neg hlt, if_neg hk, if_neg hk]
        exact .cons he ih

end Related

/-- One row on, the groups run alike, or the row has no key or no value for a fold. -/
theorem step_runs [LinearOrder κ] {groups : List (κ × List ρ)} {running : List
    (κ × StreamingGroup ρ)}
    (h : Forall₂ (Runs ctx F r specs) groups running) (row : ρ) :
    (∃ groups' running', ctx.groupStep groups row = .ok groups' ∧
      ctx.streamStep F r specs running row = .ok running' ∧
      Forall₂ (Runs ctx F r specs) groups' running' ∧ Evaluates ctx specs row) ∨
    ((∀ running', ctx.streamStep F r specs running row ≠ .ok running') ∧
      ((∀ groups', ctx.groupStep groups row ≠ .ok groups') ∨ ¬ Evaluates ctx specs row)) := by
  cases hkey : ctx.keyOf row with
  | error e =>
    have hgroup : ctx.groupStep groups row = .error e := by
      rw [groupStep, hkey]
      rfl
    have hstream : ctx.streamStep F r specs running row = .error e := by
      rw [streamStep, hkey]
      rfl
    refine Or.inr ⟨fun _ h => ?_, Or.inl fun _ h => ?_⟩
    · rw [hstream] at h
      cases h
    · rw [hgroup] at h
      cases h
  | ok k =>
    have hgroup : ctx.groupStep groups row =
        .ok (put k ((get? k groups).getD [] ++ [row]) groups) := by
      rw [groupStep, hkey]
      rfl
    obtain ⟨rs, first, hrs, hfirst, hlookup⟩ : ∃ rs first,
        (get? k groups).getD [] = rs ∧ (rs ++ [row]).head? = some first ∧
          (get? k running).getD ⟨row, seedAggs specs⟩ =
            ⟨first, specs.map (stateAfter ctx F r rs)⟩ := by
      rcases get?_related (fun _ _ h => h.1) h k with
        ⟨hnone, hnone'⟩ | ⟨rs, g, hrs, hg, -, hhead, haggs⟩
      · refine ⟨[], row, by rw [hnone]; rfl, rfl, ?_⟩
        rw [hnone']
        rfl
      · refine ⟨rs, g.firstRow, by rw [hrs]; rfl, ?_, ?_⟩
        · rw [head?_append, hhead]
          rfl
        · rw [hg, getD_some, ← haggs]
    have hstream : ctx.streamStep F r specs running row = do
        let aggs ← ctx.foldStreamingAggs F r specs (specs.map (stateAfter ctx F r rs)) row
        return put k (StreamingGroup.mk first aggs) running := by
      rw [streamStep, hkey]
      change (do
        let group := (get? k running).getD ⟨row, seedAggs specs⟩
        let aggs ← ctx.foldStreamingAggs F r specs group.aggs row
        return put k (StreamingGroup.mk group.firstRow aggs) running) = _
      rw [hlookup]
    by_cases heval : Evaluates ctx specs row
    · refine Or.inl ⟨_, put k ⟨first, specs.map (stateAfter ctx F r (rs ++ [row]))⟩ running,
        hgroup, ?_, ?_, heval⟩
      · rw [hstream, foldStreamingAggs_after heval]
        rfl
      · have hnew : Runs ctx F r specs (k, rs ++ [row])
            (k, ⟨first, specs.map (stateAfter ctx F r (rs ++ [row]))⟩) := ⟨rfl, hfirst, rfl⟩
        rw [hrs]
        exact put_related (fun _ _ h => h.1) h hnew
    · refine Or.inr ⟨fun running' hok => heval ?_, Or.inr heval⟩
      rw [hstream] at hok
      obtain ⟨aggs, haggs, -⟩ := bind_eq_ok hok
      exact evaluates_of_fold haggs

theorem run_runs [LinearOrder κ] {groups : List (κ × List ρ)} {running : List
    (κ × StreamingGroup ρ)}
    (h : Forall₂ (Runs ctx F r specs) groups running) (rows : List ρ) :
    (∃ groups' running', rows.foldlM ctx.groupStep groups = .ok groups' ∧
      rows.foldlM (ctx.streamStep F r specs) running = .ok running' ∧
      Forall₂ (Runs ctx F r specs) groups' running' ∧
      ∀ row ∈ rows, Evaluates ctx specs row) ∨
    ((∀ running', rows.foldlM (ctx.streamStep F r specs) running ≠ .ok running') ∧
      ((∀ groups', rows.foldlM ctx.groupStep groups ≠ .ok groups') ∨
        ∃ row ∈ rows, ¬ Evaluates ctx specs row)) := by
  induction rows generalizing groups running with
  | nil => exact Or.inl ⟨groups, running, rfl, rfl, h, fun _ hrow => absurd hrow not_mem_nil⟩
  | cons row rows ih =>
    rw [foldlM_cons, foldlM_cons]
    rcases step_runs h row with ⟨groups', running', hgroup, hstream, hruns, heval⟩ | ⟨hstream, hbad⟩
    · rw [hgroup, hstream]
      rcases ih hruns with ⟨out, out', hout, hout', hruns', hevals⟩ | ⟨hstream', hbad⟩
      · exact Or.inl ⟨out, out', hout, hout', hruns', List.forall_mem_cons.mpr ⟨heval, hevals⟩⟩
      · refine Or.inr ⟨hstream', hbad.imp_right ?_⟩
        rintro ⟨bad, hmem, heval⟩
        exact ⟨bad, mem_cons_of_mem row hmem, heval⟩
    · refine Or.inr ⟨fun running' hok => ?_,
        hbad.imp (fun hgroup groups' hok => ?_) fun heval => ?_⟩
      · obtain ⟨_, hone, -⟩ := bind_eq_ok hok
        exact hstream _ hone
      · obtain ⟨_, hone, -⟩ := bind_eq_ok hok
        exact hgroup _ hone
      · exact ⟨row, mem_cons_self, heval⟩

/-- The groups hold the rows that came, each by its key. -/
structure HoldsRows [LinearOrder κ] (ctx : GroupContext E ρ κ γ δ) (rows : List ρ) (groups : List
    (κ × List ρ)) :
    Prop where
  sorted : Sorted groups
  keyed : ∀ group ∈ groups, ∀ row ∈ group.2, row ∈ rows ∧ ctx.keyOf row = .ok group.1
  all : ∀ row ∈ rows, ∃ group ∈ groups, row ∈ group.2

theorem HoldsRows.step [LinearOrder κ] {groups groups' : List (κ × List ρ)}
    (h : HoldsRows ctx rows groups)
    (hstep : ctx.groupStep groups row = .ok groups') : HoldsRows ctx (rows ++ [row]) groups' := by
  rw [groupStep] at hstep
  obtain ⟨k, hkey, hput⟩ := bind_eq_ok hstep
  obtain rfl := Except.ok.inj hput
  have hnew : ∀ k' rs, get? k' (put k ((get? k groups).getD [] ++ [row]) groups) = some rs ↔
      (k', rs) ∈ put k ((get? k groups).getD [] ++ [row]) groups := fun k' rs =>
    (Sorted.mem_iff (h.sorted.put k _)).symm
  refine ⟨h.sorted.put k _, ?_, ?_⟩
  · rintro ⟨k', rs⟩ hgroup row' hrow'
    rcases mem_put hgroup with heq | hold
    · obtain ⟨rfl, rfl⟩ := Prod.mk.inj heq
      rcases List.mem_append.mp hrow' with hrow' | hrow'
      · cases hget : get? k' groups with
        | none =>
          rw [hget] at hrow'
          exact absurd hrow' not_mem_nil
        | some rs =>
          rw [hget] at hrow'
          obtain ⟨hmem, hk⟩ := h.keyed (k', rs) (get?_mem hget) row' hrow'
          exact ⟨mem_append_left _ hmem, hk⟩
      · obtain rfl := List.mem_singleton.mp hrow'
        exact ⟨mem_append_right _ (mem_singleton_self _), hkey⟩
    · obtain ⟨hmem, hk⟩ := h.keyed _ hold row' hrow'
      exact ⟨mem_append_left _ hmem, hk⟩
  · intro row' hrow'
    have hself : (k, (get? k groups).getD [] ++ [row]) ∈
        put k ((get? k groups).getD [] ++ [row]) groups := by
      rw [← hnew, get?_put, if_pos rfl]
    rcases List.mem_append.mp hrow' with hrow' | hrow'
    · obtain ⟨⟨k', rs⟩, hgroup, hmem⟩ := h.all row' hrow'
      have hget := (Sorted.mem_iff h.sorted).mp hgroup
      by_cases hk : k' = k
      · subst hk
        refine ⟨_, hself, mem_append_left _ ?_⟩
        rw [hget]
        exact hmem
      · refine ⟨(k', rs), ?_, hmem⟩
        rw [← hnew, get?_put, if_neg hk]
        exact hget
    · obtain rfl := List.mem_singleton.mp hrow'
      exact ⟨_, hself, mem_append_right _ (mem_singleton_self _)⟩

theorem HoldsRows.run [LinearOrder κ] {groups groups' : List (κ × List ρ)} {done : List ρ}
    (h : HoldsRows ctx done groups) (hrun : rows.foldlM ctx.groupStep groups = .ok groups') :
    HoldsRows ctx (done ++ rows) groups' := by
  induction rows generalizing groups done with
  | nil =>
    obtain rfl := Except.ok.inj hrun
    rw [append_nil]
    exact h
  | cons row rows ih =>
    rw [foldlM_cons] at hrun
    obtain ⟨next, hstep, hrest⟩ := bind_eq_ok hrun
    rw [append_cons]
    exact ih (h.step hstep) hrest

/-! ### Both ways -/

/-- The folds of a list of calls. -/
def Folds (calls : List (AggregateExpr E)) (specs : List (StreamableAggSpec E)) : Prop :=
  Forall₂ (fun call spec => streamableSpec call = some spec) calls specs

theorem folds_of_classify {calls : List (AggregateExpr E)}
    (h : classifyStreamableAggregates calls = some specs) : Folds calls specs := by
  rw [classifyStreamableAggregates] at h
  induction calls generalizing specs with
  | nil =>
    obtain rfl := Option.some.inj h
    exact .nil
  | cons call calls ih =>
    rw [mapM_cons] at h
    obtain ⟨spec, hspec, hrest⟩ := bind_eq_some_iff.mp h
    obtain ⟨specs', hspecs, hout⟩ := bind_eq_some_iff.mp hrest
    obtain rfl := Option.some.inj hout
    exact .cons hspec (ih hspecs)

/-- Among the values that a `max` takes from rows of one group, no different ones tie. -/
def MaxUntied (ctx : GroupContext E ρ κ γ δ) (r : Rendering) (specs : List (StreamableAggSpec E))
    (rows : List ρ) : Prop :=
  ∀ spec ∈ specs, spec.kind = .max → ∀ row ∈ rows, ∀ row' ∈ rows,
    (ctx.grouped = true → ctx.key row = ctx.key row') → ∀ v w, ctx.specValue spec row = .ok v →
    ctx.specValue spec row' = .ok w → v.isNull = false → w.isNull = false →
    compareValuesTotal r v w = .eq → v = w

/-- The states of a group finish as its rows collected do. -/
theorem finalize_states [DecidableEq δ] {calls : List (AggregateExpr E)}
    (hfolds : Folds calls specs)
    (heval : ∀ row ∈ rows, Evaluates ctx specs row)
    (hties : ∀ spec ∈ specs, spec.kind = .max → NoTies r (rows.map (ctx.value spec))) :
    finalizeAggs F (specs.map (stateAfter ctx F r rows)) =
      calls.mapM fun call => ctx.computeAggregateExpr F r call rows := by
  rw [finalizeAggs]
  refine (mapM_forall₂ (List.forall₂_map_right_iff.mpr ?_)).symm
  induction hfolds with
  | nil => exact .nil
  | @cons call spec calls specs hspec _ ih =>
    refine .cons ?_ (ih (fun row hrow s hs => heval row hrow s (mem_cons_of_mem _ hs))
      fun s hs => hties s (mem_cons_of_mem _ hs))
    have hvalues : rows.mapM (ctx.specValue spec) = .ok (rows.map (ctx.value spec)) :=
      mapM_of_forall fun row hrow => specValue_eq (heval row hrow spec mem_cons_self)
    exact compute_eq hspec hvalues (hties spec mem_cons_self)

/-- Calls that are all folds take a value from every row. -/
theorem evaluates_of_compute [DecidableEq δ] {calls : List (AggregateExpr E)}
    (hfolds : Folds calls specs)
    (h : (calls.mapM fun call => ctx.computeAggregateExpr F r call rows) = .ok values)
    (hrow : row ∈ rows) : Evaluates ctx specs row := by
  induction hfolds generalizing values with
  | nil => exact fun _ hspec => absurd hspec not_mem_nil
  | @cons call spec calls specs hspec _ ih =>
    rw [mapM_cons] at h
    obtain ⟨v, hv, hrest⟩ := bind_eq_ok h
    obtain ⟨vs, hvs, -⟩ := bind_eq_ok hrest
    exact List.forall_mem_cons.mpr ⟨compute_ok hspec hv hrow, ih hvs⟩

theorem noTies_of_untied (hmax : MaxUntied ctx r specs rows) {group : List ρ}
    (hrows : ∀ row ∈ group, row ∈ rows) (heval : ∀ row ∈ rows, Evaluates ctx specs row)
    (hkeys : ctx.grouped = true → ∀ row ∈ group, ∀ row' ∈ group, ctx.key row = ctx.key row') :
    ∀ spec ∈ specs, spec.kind = .max → NoTies r (group.map (ctx.value spec)) := by
  intro spec hspec hkind v hv w hw
  obtain ⟨row, hrow, rfl⟩ := List.mem_map.mp hv
  obtain ⟨row', hrow', rfl⟩ := List.mem_map.mp hw
  exact hmax spec hspec hkind row (hrows row hrow) row' (hrows row' hrow')
    (fun hgrouped => hkeys hgrouped row hrow row' hrow') _ _
    (specValue_eq (heval row (hrows row hrow) spec hspec))
    (specValue_eq (heval row' (hrows row' hrow') spec hspec))

/-- Without groups, the states after some more rows. -/
theorem run_single (done rows : List ρ) : ((∀ row ∈ rows, Evaluates ctx specs row) ∧
      rows.foldlM (ctx.foldStreamingAggs F r specs) (specs.map (stateAfter ctx F r done)) =
        .ok (specs.map (stateAfter ctx F r (done ++ rows)))) ∨
    ((∃ row ∈ rows, ¬ Evaluates ctx specs row) ∧ ∀ out,
      rows.foldlM (ctx.foldStreamingAggs F r specs) (specs.map (stateAfter ctx F r done)) ≠
        .ok out) := by
  induction rows generalizing done with
  | nil =>
    rw [append_nil]
    exact Or.inl ⟨fun _ hrow => absurd hrow not_mem_nil, rfl⟩
  | cons row rows ih =>
    have happend : done ++ row :: rows = done ++ [row] ++ rows := append_cons done row rows
    rw [foldlM_cons, happend]
    by_cases heval : Evaluates ctx specs row
    · rw [foldStreamingAggs_after heval]
      rcases ih (done ++ [row]) with ⟨hevals, hrun⟩ | ⟨⟨bad, hbad, hnot⟩, hrun⟩
      · exact Or.inl ⟨List.forall_mem_cons.mpr ⟨heval, hevals⟩, hrun⟩
      · exact Or.inr ⟨⟨bad, mem_cons_of_mem row hbad, hnot⟩, hrun⟩
    · refine Or.inr ⟨⟨row, mem_cons_self, heval⟩, fun out hok => heval ?_⟩
      obtain ⟨states, hstates, -⟩ := bind_eq_ok hok
      exact evaluates_of_fold hstates

/-- Every row has a key, where there are groups, and a value for every fold. -/
def AllEvaluate (ctx : GroupContext E ρ κ γ δ) (specs : List (StreamableAggSpec E))
    (rows : List ρ) : Prop :=
  ∀ row ∈ rows, Evaluates ctx specs row ∧ (ctx.grouped = true → ∃ k, ctx.keyOf row = .ok k)

variable {calls : List (AggregateExpr E)}

/-- Counting rows takes nothing from them. -/
theorem specValue_countAll (hfolds : Folds calls specs)
    (hspec : spec ∈ specs) (hkind : spec.kind = .countAll) :
    ctx.specValue spec row = .ok .null := by
  induction hfolds with
  | nil => exact absurd hspec not_mem_nil
  | @cons call spec' calls specs hcall _ ih =>
    rcases List.mem_cons.mp hspec with rfl | hspec
    · obtain ⟨function, distinct, args⟩ := call
      rw [streamableSpec] at hcall
      split at hcall
      · exact absurd hcall (some_ne_none spec).symm
      · match function, args, hcall with
        | .count, [], hcall =>
          obtain rfl := Option.some.inj hcall
          rfl
        | .count, [arg], hcall | .sum, [arg], hcall | .avg, [arg], hcall | .min, [arg], hcall
        | .max, [arg], hcall =>
          obtain rfl := Option.some.inj hcall
          cases hkind
        | .collect, [], hcall => exact absurd hcall (some_ne_none spec).symm
        | .collect, [_], hcall => exact absurd hcall (some_ne_none spec).symm
    · exact ih hspec

/-- Both ways come to the same rows or error, or some row does not evaluate and both fail. -/
def BothWays [LinearOrder κ] [DecidableEq δ] (ctx : GroupContext E ρ κ γ δ) (F : FloatOps)
    (r : Rendering)
    (calls : List (AggregateExpr E)) (specs : List (StreamableAggSpec E)) (rows : List ρ) : Prop :=
  ctx.aggregateStreamableRows F r specs rows = ctx.aggregateBufferedRows F r calls rows ∨
    (¬ AllEvaluate ctx specs rows ∧ (∀ out, ctx.aggregateStreamableRows F r specs rows ≠ .ok out) ∧
      ∀ out, ctx.aggregateBufferedRows F r calls rows ≠ .ok out)

theorem bothWays_single [LinearOrder κ] [DecidableEq δ] (hgrouped : ctx.grouped = false)
    (hfolds : Folds calls specs)
    (hmax : MaxUntied ctx r specs rows) : BothWays ctx F r calls specs rows := by
  have hbuffered : ctx.aggregateBufferedRows F r calls rows = do
      let values ← calls.mapM fun call => ctx.computeAggregateExpr F r call rows
      return [(ctx.noValues, values)] := by
    rw [aggregateBufferedRows, hgrouped]
    change (do
      let out ← ctx.buildGroupRow F r calls rows
      return [out]) = _
    rw [buildGroupRow, hgrouped]
    change (do
      let out ← (do
        let values ← calls.mapM fun call => ctx.computeAggregateExpr F r call rows
        return (ctx.noValues, values))
      return [out]) = _
    rw [bind_assoc]
    rfl
  have hstreamed : ctx.aggregateStreamableRows F r specs rows =
      if specs.all fun spec => spec.kind == .countAll then
        .ok [(ctx.noValues, specs.map fun _ => .int (.ofNat rows.length))]
      else do
        let states ← rows.foldlM (ctx.foldStreamingAggs F r specs) (seedAggs specs)
        let values ← finalizeAggs F states
        return [(ctx.noValues, values)] := by
    rw [aggregateStreamableRows, hgrouped]
    rfl
  have hseeds : seedAggs specs = specs.map (stateAfter ctx F r []) := rfl
  rw [BothWays, hbuffered, hstreamed, hseeds]
  rcases @run_single E ρ κ γ δ ctx F r specs [] rows with ⟨heval, hrun⟩ | ⟨hbad, hrun⟩
  · refine Or.inl ?_
    have hties := noTies_of_untied hmax (fun _ hrow => hrow) heval
      fun h => absurd (hgrouped.symm.trans h) Bool.false_ne_true
    have hfinal := finalize_states hfolds heval hties (F := F)
    rw [nil_append] at hrun
    rw [hrun, ← hfinal]
    by_cases hcount : (specs.all fun spec => spec.kind == .countAll) = true
    · rw [if_pos hcount]
      have hvalues : finalizeAggs F (specs.map (stateAfter ctx F r rows)) =
          .ok (specs.map fun _ => .int (.ofNat rows.length)) := by
        refine EvalContext.mapM_ok.mpr (List.forall₂_map_left_iff.mpr
          (List.forall₂_map_right_iff.mpr (List.forall₂_same.mpr fun spec hspec => ?_)))
        have hkind : spec.kind = .countAll := by simpa using List.all_eq_true.mp hcount spec hspec
        have hstream := @stream_countAll F r (rows.map (ctx.value spec))
        rw [length_map] at hstream
        rw [stateAfter, hkind]
        exact congrArg (Except.mapError GroupError.aggregate) hstream
      rw [hvalues]
      rfl
    · rw [if_neg hcount]
      rfl
  · refine Or.inr ⟨fun hall => ?_, fun out hok => ?_, fun out hok => ?_⟩
    · obtain ⟨bad, hmem, hnot⟩ := hbad
      exact hnot (hall bad hmem).1
    · split at hok
      · rename_i hcount
        obtain ⟨bad, -, hnot⟩ := hbad
        exact hnot fun spec hspec => ⟨.null, specValue_countAll hfolds hspec
          (by simpa using List.all_eq_true.mp hcount spec hspec)⟩
      · obtain ⟨states, hstates, -⟩ := bind_eq_ok hok
        exact hrun _ hstates
    · obtain ⟨values, hvalues, -⟩ := bind_eq_ok hok
      obtain ⟨bad, hmem, hnot⟩ := hbad
      exact hnot (evaluates_of_compute hfolds hvalues hmem)

theorem compute_of_build [DecidableEq δ] {out : γ × List LoraValue}
    (h : ctx.buildGroupRow F r calls rows = .ok out) : ∃ values,
      (calls.mapM fun call => ctx.computeAggregateExpr F r call rows) = .ok values := by
  rw [buildGroupRow] at h
  split at h
  all_goals
    obtain ⟨_, -, hvalues⟩ := bind_eq_ok h
    obtain ⟨values, hcompute, -⟩ := bind_eq_ok hvalues
    exact ⟨values, hcompute⟩

theorem groups_total [LinearOrder κ] (h : ∀ row ∈ rows, ∃ k, ctx.keyOf row = .ok k) (groups : List
    (κ × List ρ)) :
    ∃ groups', rows.foldlM ctx.groupStep groups = .ok groups' := by
  induction rows generalizing groups with
  | nil => exact ⟨groups, rfl⟩
  | cons row rows ih =>
    obtain ⟨k, hk⟩ := h row mem_cons_self
    obtain ⟨groups', hrun⟩ := ih (fun row' hrow' => h row' (mem_cons_of_mem row hrow'))
      (put k ((get? k groups).getD [] ++ [row]) groups)
    refine ⟨groups', ?_⟩
    rw [foldlM_cons, groupStep, hk]
    exact hrun

theorem key_eq_of_keyOf {row' : ρ} {k : κ} (h : ctx.keyOf row = .ok k)
    (h' : ctx.keyOf row' = .ok k) : ctx.key row = ctx.key row' := by
  rw [keyOf] at h h'
  cases hkey : ctx.key row with
  | error e =>
    rw [hkey] at h
    cases h
  | ok a =>
    cases hkey' : ctx.key row' with
    | error e =>
      rw [hkey'] at h'
      cases h'
    | ok b =>
      rw [hkey] at h
      rw [hkey'] at h'
      rw [Except.ok.inj h, Except.ok.inj h']

theorem bothWays_grouped [LinearOrder κ] [DecidableEq δ] (hgrouped : ctx.grouped = true)
    (hfolds : Folds calls specs)
    (hmax : MaxUntied ctx r specs rows) : BothWays ctx F r calls specs rows := by
  have hbuffered : ctx.aggregateBufferedRows F r calls rows =
      rows.foldlM ctx.groupStep [] >>= fun groups =>
        groups.mapM fun group => ctx.buildGroupRow F r calls group.2 := by
    rw [aggregateBufferedRows, hgrouped]
    rfl
  have hstreamed : ctx.aggregateStreamableRows F r specs rows =
      rows.foldlM (ctx.streamStep F r specs) [] >>= fun groups => groups.mapM fun group => do
        let values ← ctx.valuesOf group.2.firstRow
        return (values, ← finalizeAggs F group.2.aggs) := by
    rw [aggregateStreamableRows, hgrouped]
    rfl
  have hempty : HoldsRows ctx [] [] :=
    ⟨sorted_nil, fun _ h => absurd h not_mem_nil, fun _ h => absurd h not_mem_nil⟩
  have hnil : Forall₂ (Runs ctx F r specs) [] [] := .nil
  rw [BothWays, hbuffered, hstreamed]
  rcases run_runs hnil rows with
    ⟨groups, running, hgroups, hrunning, hruns, heval⟩ | ⟨hstream, hbad⟩
  · have hholds := hempty.run hgroups
    rw [nil_append] at hholds
    refine Or.inl ?_
    rw [hgroups, hrunning]
    refine (mapM_forall₂ ?_).symm
    have hboth := (forall₂_and_left groups running).mpr ⟨fun _ h => h, hruns⟩
    refine hboth.imp ?_
    rintro ⟨k, group⟩ ⟨k', first, aggs⟩ ⟨hmem, hrun⟩
    have hhead : group.head? = some first := hrun.2.1
    have haggs : aggs = specs.map (stateAfter ctx F r group) := hrun.2.2
    have hrows : ∀ row ∈ group, row ∈ rows := fun row hrow => (hholds.keyed _ hmem row hrow).1
    have hkeys : ∀ row ∈ group, ∀ row' ∈ group, ctx.key row = ctx.key row' :=
      fun row hrow row' hrow' => key_eq_of_keyOf (hholds.keyed _ hmem row hrow).2
        (hholds.keyed _ hmem row' hrow').2
    have hfinal := finalize_states hfolds (fun row hrow => heval row (hrows row hrow))
      (noTies_of_untied hmax hrows heval fun _ => hkeys) (F := F)
    change ctx.buildGroupRow F r calls group = do
      let values ← ctx.valuesOf first
      return (values, ← finalizeAggs F aggs)
    rw [haggs, hfinal, buildGroupRow, hgrouped, hhead]
  · refine Or.inr ⟨fun hall => ?_, fun out hok => ?_, fun out hok => ?_⟩
    · rcases hbad with hgroup | ⟨row, hrow, hnot⟩
      · obtain ⟨groups, hgroups⟩ := groups_total (fun row hrow => (hall row hrow).2 hgrouped) []
        exact hgroup groups hgroups
      · exact hnot (hall row hrow).1
    · obtain ⟨running, hrunning, -⟩ := bind_eq_ok hok
      exact hstream running hrunning
    · obtain ⟨groups, hgroups, hrest⟩ := bind_eq_ok hok
      rcases hbad with hgroup | ⟨row, hrow, hnot⟩
      · exact hgroup groups hgroups
      · obtain ⟨group, hgroup, hmem⟩ := (hempty.run hgroups).all row hrow
        obtain ⟨_, hbuild⟩ := mapM_mem hrest hgroup
        obtain ⟨values, hcompute⟩ := compute_of_build hbuild
        exact hnot (evaluates_of_compute hfolds hcompute hmem)

theorem bothWays [LinearOrder κ] [DecidableEq δ]
    (hclass : classifyStreamableAggregates calls = some specs)
    (hmax : MaxUntied ctx r specs rows) : BothWays ctx F r calls specs rows := by
  have hfolds := folds_of_classify hclass
  cases hgrouped : ctx.grouped with
  | true => exact bothWays_grouped hgrouped hfolds hmax
  | false => exact bothWays_single hgrouped hfolds hmax

/-! ### One call -/

/-- One fold over all rows: its values are taken row by row either way. -/
theorem run_one (spec : StreamableAggSpec E) (rows : List ρ) (state : AggState) :
    rows.foldlM (ctx.foldStreamingAggs F r [spec]) [state] = (rows.mapM (ctx.specValue spec)).map
        fun values => [values.foldl (AggState.fold F r spec.kind) state] := by
  induction rows generalizing state with
  | nil => rfl
  | cons row rows ih =>
    have hstep : ctx.foldStreamingAggs F r [spec] [state] row =
        (ctx.specValue spec row).map fun v => [state.fold F r spec.kind v] := by
      change (do
        let next ← ctx.foldOne F r state spec row
        let rest ← pure []
        pure (next :: rest)) = _
      rw [foldOne_eq]
      cases ctx.specValue spec row <;> rfl
    rw [foldlM_cons, hstep, mapM_cons]
    cases ctx.specValue spec row with
    | error e => rfl
    | ok v =>
      refine (ih (state.fold F r spec.kind v)).trans ?_
      cases rows.mapM (ctx.specValue spec) <;> rfl

theorem compute_error [DecidableEq δ] (hspec : streamableSpec call = some spec) {e : GroupError}
    (herror : rows.mapM (ctx.specValue spec) = .error e) :
    ctx.computeAggregateExpr F r call rows = .error e := by
  obtain ⟨function, distinct, args⟩ := call
  rw [streamableSpec] at hspec
  split at hspec
  · exact absurd hspec (some_ne_none spec).symm
  · match function, args, hspec with
    | .count, [], hspec =>
      obtain rfl := Option.some.inj hspec
      have hok : rows.mapM (ctx.specValue ⟨.countAll, none⟩) = .ok (rows.map fun _ => .null) :=
        mapM_of_forall fun _ _ => rfl
      rw [hok] at herror
      cases herror
    | .count, [arg], hspec | .sum, [arg], hspec | .avg, [arg], hspec | .min, [arg], hspec
    | .max, [arg], hspec =>
      obtain rfl := Option.some.inj hspec
      have harg : ctx.evalAggregateArgValues arg rows = .error e := herror
      rw [computeAggregateExpr]
      simp only [harg]
      rfl
    | .collect, [], hspec => exact absurd hspec (some_ne_none spec).symm
    | .collect, [_], hspec => exact absurd hspec (some_ne_none spec).symm

/-- One call and no groups: the same row or the same error. -/
theorem single_call [LinearOrder κ] [DecidableEq δ]
    (hgrouped : ctx.grouped = false) (hspec : streamableSpec call = some spec)
    (hmax : MaxUntied ctx r [spec] rows) : ctx.aggregateStreamableRows F r [spec] rows =
      ctx.aggregateBufferedRows F r [call] rows := by
  have hfolds : Folds [call] [spec] := .cons hspec .nil
  rcases bothWays_single (F := F) hgrouped hfolds hmax with h | ⟨hall, hstream, hbuffer⟩
  · exact h
  · cases hvalues : rows.mapM (ctx.specValue spec) with
    | ok values =>
      refine absurd (fun row hrow => ⟨?_, ?_⟩) hall
      · rintro s hs
        obtain rfl := List.mem_singleton.mp hs
        exact mapM_mem hvalues hrow
      · exact fun h => absurd (hgrouped.symm.trans h) Bool.false_ne_true
    | error e =>
      have hkind : ([spec].all fun spec => spec.kind == .countAll) = false := by
        by_contra hcount
        have hcountAll : spec.kind = .countAll := by simpa using hcount
        have hok : rows.mapM (ctx.specValue spec) = .ok (rows.map fun _ => .null) :=
          mapM_of_forall fun row _ =>
            specValue_countAll hfolds (mem_singleton_self spec) hcountAll
        rw [hok] at hvalues
        cases hvalues
      have hstreamed : ctx.aggregateStreamableRows F r [spec] rows = .error e := by
        rw [aggregateStreamableRows, hgrouped]
        change ctx.aggregateSingleGroup F r [spec] rows = _
        rw [aggregateSingleGroup, hkind]
        change (do
          let states ← rows.foldlM (ctx.foldStreamingAggs F r [spec]) [.seed spec.kind]
          let values ← finalizeAggs F states
          return [(ctx.noValues, values)]) = _
        rw [run_one, hvalues]
        rfl
      have hbuffered : ctx.aggregateBufferedRows F r [call] rows = .error e := by
        have hcompute := compute_error (F := F) (r := r) hspec hvalues
        rw [aggregateBufferedRows, hgrouped]
        change (do
          let out ← ctx.buildGroupRow F r [call] rows
          return [out]) = _
        rw [buildGroupRow, hgrouped]
        change (do
          let out ← (do
            let values ← (do
              let value ← ctx.computeAggregateExpr F r call rows
              let rest ← pure []
              pure (value :: rest))
            return (ctx.noValues, values))
          return [out]) = _
        rw [hcompute]
        rfl
      rw [hstreamed, hbuffered]

end GroupContext

/-! ### Counting a scan -/

section CountScan

variable {g : InMemoryGraph}

/-- The rows of a scan, counted without them. -/
def countRowsForScan (g : InMemoryGraph) (labels : LabelGroups) : ℕ :=
  match labels.groups with
  | [] => g.liveNodeCount
  | [[label]] => (g.nodesByLabel.ids label).card
  | groups =>
    let ids := g.scanNodeIdsForLabelGroups groups
    if groups.length ≤ 1 then ids.length else (ids.filter (nodeLabelsOk g groups)).length

theorem filter_range_length {α : Type} (cells : List (Option α)) :
    ((List.range cells.length).filter fun i => (cells[i]?.join).isSome).length =
      cells.countP Option.isSome := by
  induction cells using reverseRecOn with
  | nil => rfl
  | append_singleton cells cell ih =>
    have hbefore : (List.range cells.length).filter
        (fun i => ((cells ++ [cell])[i]?.join).isSome) =
          (List.range cells.length).filter fun i => (cells[i]?.join).isSome :=
      filter_congr fun i hi => by rw [getElem?_append_left (List.mem_range.mp hi)]
    rw [length_append, length_singleton, range_succ, filter_append,
      length_append, hbefore, ih, countP_append]
    cases cell <;> simp

theorem slots_length (s : Slots NodeRecord) : s.slots.length = s.count :=
  filter_range_length s.cells

theorem countRows_eq (h : g.Intact) {ctx : EvalContext} (hctx : ctx.storage = g) (var : VarId)
    (labels : LabelGroups) : ∃ rows, ctx.scanRow var labels Row.empty = .ok rows ∧
      rows.length = countRowsForScan g labels ∧
      ∀ row ∈ rows, ∃ id, row var = some (.node id) := by
  obtain ⟨groups, hnonempty⟩ := labels
  have hscan : ctx.scanRow var ⟨groups, hnonempty⟩ Row.empty = .ok
      ((if groups.length ≤ 1 then g.scanNodeIdsForLabelGroups groups
        else (g.scanNodeIdsForLabelGroups groups).filter (nodeLabelsOk g groups)).map
          fun id => Row.empty.insert var (.node id)) := by
    rw [← hctx]
    rfl
  refine ⟨_, hscan, ?_, fun row hrow => ?_⟩
  · rw [length_map]
    match groups with
    | [] =>
      rw [if_pos (by simp)]
      exact (slots_length g.nodes).trans h.nodeCount.symm
    | [[]] => exact absurd rfl (hnonempty [] (mem_singleton_self []))
    | [[label]] =>
      have hids : g.scanNodeIdsForLabelGroups [[label]] = g.labelGroupCandidateIds [label] := rfl
      have hperm : (g.labelGroupCandidateIds [label]).Perm (g.nodeIdsByLabel label) := by
        refine (perm_ext_iff_of_nodup (nodup_labelGroupCandidateIds _)
          (Finset.sort_nodup _ _)).mpr fun id => ?_
        rw [InMemoryGraph.labelGroupCandidateIds, (foldl_dedup nodup_nil).2]
        simp [InMemoryGraph.nodeIdsByLabel]
      rw [if_pos (by simp), hids, hperm.length_eq]
      exact Finset.length_sort _
    | [label :: next :: group] =>
      rw [if_pos (by simp)]
      rfl
    | group :: next :: groups =>
      have hcount : countRowsForScan g ⟨group :: next :: groups, hnonempty⟩ =
          ((g.scanNodeIdsForLabelGroups (group :: next :: groups)).filter
            (nodeLabelsOk g (group :: next :: groups))).length := by
        rw [countRowsForScan]
        simp
      rw [if_neg (by simp), hcount]
  · obtain ⟨id, -, rfl⟩ := List.mem_map.mp hrow
    exact ⟨id, Row.insert_self _ _ _⟩

end CountScan

/-! ### The order of the rows -/

section Order

open ListNs

variable {F : FloatOps} {r : Rendering} {xs ys : List LoraValue}

theorem checkedFold_sum {start out : Int64} {is : List Int64}
    (h : checkedFold (· + ·) start is = some out) :
    out.toInt = start.toInt + (is.map Int64.toInt).sum := by
  induction is generalizing start with
  | nil =>
    obtain rfl := Option.some.inj h
    simp
  | cons i is ih =>
    obtain ⟨next, hnext, hrest⟩ := bind_eq_some_iff.mp h
    rw [ih hrest, ← checkedI64_eq_some.mp hnext, map_cons, sum_cons]
    ring

/-- A sum of integers that comes out is the sum. -/
theorem stream_sum_perm (hxs : ∀ v ∈ xs, IsInt v) (hperm : xs.Perm ys) {v w : LoraValue}
    (hv : AggState.stream F r .sum xs = .ok v) (hw : AggState.stream F r .sum ys = .ok w) :
    v = w := by
  have hsum : ∀ {zs : List LoraValue} {u : LoraValue}, (∀ v ∈ zs, IsInt v) →
      AggState.stream F r .sum zs = .ok u →
        ∃ out : Int64, u = .int out ∧ out.toInt = ((ints zs).map Int64.toInt).sum := by
    intro zs u hzs hu
    have hnumeric : ∀ v ∈ zs, IsNumeric v := by
      intro v hv
      rcases hzs v hv with hnull | ⟨i, rfl⟩
      · exact Or.inl hnull
      · exact Or.inr rfl
    rw [stream_sum F r hnumeric, (present_ints hzs).2] at hu
    cases hfold : checkedFold (· + ·) 0 (ints zs) with
    | none =>
      rw [hfold] at hu
      cases hu
    | some out =>
      rw [hfold] at hu
      refine ⟨out, (Except.ok.inj hu).symm, ?_⟩
      rw [checkedFold_sum hfold]
      exact zero_add _
  obtain ⟨out, rfl, hout⟩ := hsum hxs hv
  obtain ⟨out', rfl, hout'⟩ := hsum (fun v hv => hxs v (hperm.mem_iff.mpr hv)) hw
  have hsame : ((ints xs).map Int64.toInt).sum = ((ints ys).map Int64.toInt).sum :=
    ((hperm.filterMap _).map _).sum_eq
  rw [Int64.toInt_inj.mp (hout.trans (hsame.trans hout'.symm))]

/-- A minimum or maximum in another order ties with it. -/
theorem stream_extreme_perm {kind : StreamableAggKind} {better : Ordering}
    (hbetter : better ≠ .eq) (hstream : ∀ zs, AggState.stream F r kind zs =
      .ok ((zs.foldl (foldExtreme r better) none).getD .null))
    (hcolumn : OrderlyColumn r {v | v ∈ xs}) (hperm : xs.Perm ys) :
    ∃ v w, AggState.stream F r kind xs = .ok v ∧ AggState.stream F r kind ys = .ok w ∧
      compareValuesTotal r v w = .eq := by
  refine ⟨_, _, hstream xs, hstream ys, ?_⟩
  have htied := hcolumn.keyed.pick_perm hbetter
    (fun v hv => (mem_of_mem_filter hv : v ∈ xs)) (hperm.filter fun v => !v.isNull)
  rw [← foldl_foldExtreme, ← foldl_foldExtreme] at htied
  cases hx : xs.foldl (foldExtreme r better) none with
  | none =>
    cases hy : ys.foldl (foldExtreme r better) none with
    | none =>
      have hnull : compareValuesTotal r .null .null =
          (compare 0 0).then (compare (r.value .null) (r.value .null)) := rfl
      rw [Option.getD_none, hnull, Std.ReflOrd.compare_self, Std.ReflOrd.compare_self]
      rfl
    | some w =>
      rw [hx, hy] at htied
      exact htied.elim
  | some v =>
    cases hy : ys.foldl (foldExtreme r better) none with
    | none =>
      rw [hx, hy] at htied
      exact htied.elim
    | some w =>
      rw [hx, hy] at htied
      exact htied

theorem stream_count_perm (hperm : xs.Perm ys) :
    AggState.stream F r .countAll xs = AggState.stream F r .countAll ys ∧
      AggState.stream F r .countField xs = AggState.stream F r .countField ys := by
  rw [GroupContext.stream_countAll, GroupContext.stream_countAll, GroupContext.stream_countField,
    GroupContext.stream_countField, hperm.length_eq, (hperm.filter _).length_eq]
  exact ⟨rfl, rfl⟩

end Order

/-- Where streamed and collected aggregates agree, and what the order of the rows does not
change. -/
structure AggregatesAgree {E ρ κ γ δ : Type} [LinearOrder κ] [DecidableEq δ]
    (ctx : GroupContext E ρ κ γ δ) (F : FloatOps) (r : Rendering) : Prop where
  rows : ∀ calls specs rows, classifyStreamableAggregates calls = some specs →
    ctx.MaxUntied r specs rows → ∀ out, ctx.aggregateStreamableRows F r specs rows = .ok out ↔
      ctx.aggregateBufferedRows F r calls rows = .ok out
  errors : ∀ calls specs rows, classifyStreamableAggregates calls = some specs →
    ctx.MaxUntied r specs rows → ctx.AllEvaluate specs rows →
      ctx.aggregateStreamableRows F r specs rows = ctx.aggregateBufferedRows F r calls rows
  single : ∀ call spec rows, ctx.grouped = false → streamableSpec call = some spec →
    ctx.MaxUntied r [spec] rows →
      ctx.aggregateStreamableRows F r [spec] rows = ctx.aggregateBufferedRows F r [call] rows
  shortcut : ∀ (scan : EvalContext) (var : VarId) (labels : LabelGroups),
    scan.storage.Reachable → ∃ found, scan.scanRow var labels Row.empty = .ok found ∧
      ∀ kind, kind = .countAll ∨ kind = .countField →
        AggState.stream F r kind (found.map fun row => (row var).getD .null) =
          .ok (.int (.ofNat (countRowsForScan scan.storage labels)))
  counts : ∀ xs ys : List LoraValue, xs.Perm ys →
    AggState.stream F r .countAll xs = AggState.stream F r .countAll ys ∧
      AggState.stream F r .countField xs = AggState.stream F r .countField ys
  sums : ∀ xs ys : List LoraValue, (∀ v ∈ xs, ListNs.IsInt v) → xs.Perm ys → ∀ v w,
    AggState.stream F r .sum xs = .ok v → AggState.stream F r .sum ys = .ok w → v = w
  extremes : ∀ xs ys : List LoraValue, OrderlyColumn r {v | v ∈ xs} → xs.Perm ys →
    ∀ kind, kind = .min ∨ kind = .max → ∃ v w, AggState.stream F r kind xs = .ok v ∧
      AggState.stream F r kind ys = .ok w ∧ compareValuesTotal r v w = .eq

/-- **Streamed aggregation is buffered aggregation** where no `max` is tied: with the same rows,
and the same error if every row evaluates. A count of scanned rows is that of the store; and the
order of the values leaves counts as they are, sums of integers unless one overflows, and the
extremes of an orderly column level. -/
theorem aggregates_agree {E ρ κ γ δ : Type} [LinearOrder κ] [DecidableEq δ]
    (ctx : GroupContext E ρ κ γ δ) (F : FloatOps) (r : Rendering) : AggregatesAgree ctx F r where
  rows := fun calls specs rows hclass hmax out => by
    rcases GroupContext.bothWays hclass hmax with h | ⟨-, hstream, hbuffer⟩
    · rw [h]
    · exact ⟨fun h => absurd h (hstream out), fun h => absurd h (hbuffer out)⟩
  errors := fun calls specs rows hclass hmax hall => by
    rcases GroupContext.bothWays hclass hmax with h | ⟨hnot, -⟩
    · exact h
    · exact absurd hall hnot
  single := fun call spec rows hgrouped hspec hmax =>
    GroupContext.single_call hgrouped hspec hmax
  shortcut := fun scan var labels h => by
    obtain ⟨found, hfound, hlength, hbound⟩ := countRows_eq h.intact rfl var labels
    refine ⟨found, hfound, ?_⟩
    rintro kind (rfl | rfl)
    · rw [GroupContext.stream_countAll, length_map, hlength]
    · have hall : ((found.map fun row => (row var).getD .null).filter (!·.isNull)) =
          found.map fun row => (row var).getD .null := by
        refine List.filter_eq_self.mpr fun v hv => ?_
        obtain ⟨row, hrow, rfl⟩ := List.mem_map.mp hv
        obtain ⟨id, hid⟩ := hbound row hrow
        rw [hid]
        rfl
      rw [GroupContext.stream_countField, hall, length_map, hlength]
  counts := fun xs ys hperm => stream_count_perm hperm
  sums := fun xs ys hxs hperm v w hv hw => stream_sum_perm hxs hperm hv hw
  extremes := fun xs ys hcolumn hperm kind hkind => by
    rcases hkind with rfl | rfl
    · refine @stream_extreme_perm F r xs ys .min .lt (by decide) (fun zs => ?_) hcolumn hperm
      rw [AggState.stream, AggState.seed, ListNs.foldl_min]
      rfl
    · refine @stream_extreme_perm F r xs ys .max .gt (by decide) (fun zs => ?_) hcolumn hperm
      rw [AggState.stream, AggState.seed, ListNs.foldl_max]
      rfl

/-- A sum overflows on its way in one order of the rows, and not in another. -/
theorem sum_order : ∃ (F : FloatOps) (r : Rendering) (xs ys : List LoraValue),
    xs.Perm ys ∧ (∀ v ∈ xs, ListNs.IsInt v) ∧
      AggState.stream F r .sum xs = .error (.overflowed "sum") ∧
        AggState.stream F r .sum ys = .ok (.int Int64.maxValue) := by
  have hints : ∀ v ∈ [LoraValue.int Int64.maxValue, .int 1, .int (-1)], ListNs.IsInt v := by
    simp [ListNs.IsInt]
  have hints' : ∀ v ∈ [LoraValue.int 1, .int (-1), .int Int64.maxValue], ListNs.IsNumeric v := by
    simp [ListNs.IsNumeric, LoraValue.isNumber]
  refine ⟨⟨fun f _ => f, fun f _ => f, fun f _ => f, fun f _ => f, fun f _ => f⟩,
    ⟨fun _ => "", fun _ => ""⟩, _, [LoraValue.int 1, .int (-1), .int Int64.maxValue], ?_, hints,
    ?_, ?_⟩
  · exact (perm_append_comm : ([LoraValue.int Int64.maxValue] ++
      [LoraValue.int 1, .int (-1)]).Perm _)
  · rw [ListNs.stream_sum _ _ fun v hv => (hints v hv).imp_right (by rintro ⟨i, rfl⟩; rfl)]
    rfl
  · rw [ListNs.stream_sum _ _ hints']
    rfl

end LoraDb
