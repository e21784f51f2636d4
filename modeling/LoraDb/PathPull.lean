import LoraDb.PlacedFilters
import LoraDb.ValueCompare

/-!
# Pulling Rows through a Pattern Plan

The pull pipeline runs the operators of a plan as the buffered executor does, but for a
variable-length expansion: its source gives one path after another and never runs out of memory
(`pullVarLenRow_eq`).

What an operator binds anew is a path or a list of relationships, so that `==` tells a row
whose variable was rebound to something else.

## Main results

* `varLenSteps_drains`: the rows of a variable-length expansion are those its source gives.
* `pull_of_run`: where the buffered executor gives rows, the pipeline gives the same.
* `pull_rebinds`: what a row of a plan carries of the row it started from.
-/

open List Trails

namespace LoraDb

namespace PathPlan

/-- The walks along a variable-length relationship that end where a row lets them, in the order
the source finds them. -/
def varLenSteps (g : InMemoryGraph) (types : List String) (direction : Direction)
    (range : RangeLiteral) (bound : Option (Option NodeId)) (a : NodeId) : List Steps :=
  (levels (fun v => g.expandIds v direction types) a (resolveRange range).1
    (resolveRange range).2).filter fun es => fits bound (endpoint a es)

/-- The rows of a variable-length expansion for one row. -/
def pullVarLenRow (ctx : EvalContext) (src : VarId) (rel : Option VarId) (dst : VarId)
    (types : List String) (direction : Direction) (range : RangeLiteral) (row : Row) :
    Except ExecutorError (List Row) := do
  match ← boundNodeIdForExpand row src with
  | some (some srcId) =>
    let bound ← boundNodeIdForExpand row dst
    pure ((varLenSteps ctx.storage types direction range bound srcId).map fun es =>
      bindExpansion rel dst row (resultOf rel.isSome srcId es))
  | _ => pure []

def pullOp (ctx : EvalContext) (op : PathOp) (rows : List Row) : Except ExecutorError (List Row) :=
  match op with
  | .expandVarLen src rel dst types direction range => do
    return (← rows.mapM (pullVarLenRow ctx src rel dst types direction range)).flatten
  | op => runOp ctx op rows

/-- The rows a plan gives for some rows, one after another. -/
def pull (ctx : EvalContext) : List PathOp → List Row → Except ExecutorError (List Row)
  | [], rows => .ok rows
  | op :: ops, rows => do
    let out ← pullOp ctx op rows
    pull ctx ops out

section Pull

variable {ctx : EvalContext} {row row' : Row} {rows out : List Row} {direction : Direction}

variable {range : RangeLiteral} {types : List String}

/-- The paths the source gives are these walks. -/
theorem varLenSteps_drains {g : InMemoryGraph} {boundDst : Option NodeId} {a : NodeId} {bind : Bool}
    {found : List VarLenResult} :
    SearchDrains (fun v => g.expandIds v direction types) (resolveRange range).1
        (resolveRange range).2 bind boundDst a (startRow (resolveRange range).1 a) found ↔
      found = (varLenSteps g types direction range (boundDst.map some) a).map
        (resultOf bind a) := by
  have hdrains := @search_drains (fun v => g.expandIds v direction types) (resolveRange range).1
    (resolveRange range).2 bind boundDst a
  have hsame : (((levels (fun v => g.expandIds v direction types) a (resolveRange range).1
      (resolveRange range).2).map (resultOf bind a)).filter fun result =>
        boundDst.all (· == result.dstNodeId)) =
      (varLenSteps g types direction range (boundDst.map some) a).map (resultOf bind a) := by
    rw [filter_map, varLenSteps]
    refine congrArg _ (filter_congr fun es _ => ?_)
    cases boundDst <;> rfl
  rw [hsame] at hdrains
  exact ⟨fun h => h.unique hdrains, fun h => h ▸ hdrains⟩

/-- The buffered expansion gives the same rows, unless its paths do not fit in memory. -/
theorem pullVarLenRow_eq {src dst : VarId} {rel : Option VarId}
    (hok : expandVarLenRow ctx src rel dst types direction range row = .ok out) :
    pullVarLenRow ctx src rel dst types direction range row = .ok out := by
  rw [expandVarLenRow] at hok
  rw [pullVarLenRow]
  cases hsrc : boundNodeIdForExpand row src with
  | error err =>
    rw [hsrc] at hok
    cases hok
  | ok bound =>
    rw [hsrc] at hok
    rcases boundNode_cases hsrc with ⟨srcId, -, rfl⟩ | ⟨-, rfl⟩ | ⟨-, rfl⟩
    · cases hdst : boundNodeIdForExpand row dst with
      | error err =>
        simp only [hdst, bind, Except.bind] at hok
        cases hok
      | ok boundDst =>
        simp only [hdst, bind, Except.bind, variableLengthExpand_eq] at hok ⊢
        split at hok
        · cases hok
        next hfound =>
          split at hfound
          · cases hfound
          · rw [← Except.ok.inj hok, ← Except.ok.inj hfound, filter_map, map_map]
            rfl
    · exact hok
    · exact hok

theorem pull_cons_ok {op : PathOp} {ops : List PathOp} : pull ctx (op :: ops) rows = .ok out ↔
    ∃ mid, pullOp ctx op rows = .ok mid ∧ pull ctx ops mid = .ok out := by
  rw [pull]
  cases pullOp ctx op rows <;> simp [bind, Except.bind]

theorem pull_append_ok {ops ops' : List PathOp} : pull ctx (ops ++ ops') rows = .ok out ↔
    ∃ mid, pull ctx ops rows = .ok mid ∧ pull ctx ops' mid = .ok out := by
  induction ops generalizing rows with
  | nil => simp [pull]
  | cons op ops ih =>
    rw [cons_append, pull_cons_ok]
    simp only [ih, pull_cons_ok]
    constructor
    · rintro ⟨mid, hmid, mid', hmid', hout⟩
      exact ⟨mid', ⟨mid, hmid, hmid'⟩, hout⟩
    · rintro ⟨mid', ⟨mid, hmid, hmid'⟩, hout⟩
      exact ⟨mid, hmid, mid', hmid', hout⟩

theorem pull_filterOps {checks : List ResolvedExpr}
    (h : pull ctx (filterOps checks) rows = .ok out) :
    out = rows.filter (passesAll ctx checks) := by
  cases checks with
  | nil => exact run_filterOps h
  | cons e es => exact @run_filterOps ctx rows out (e :: es) h

/-- Where the buffered executor gives rows, the pipeline gives the same. -/
theorem pull_of_run {ops : List PathOp} (hok : run ctx ops rows = .ok out) :
    pull ctx ops rows = .ok out := by
  induction ops generalizing rows with
  | nil => exact hok
  | cons op ops ih =>
    obtain ⟨mid, hmid, hrest⟩ := run_cons_ok.mp hok
    refine pull_cons_ok.mpr ⟨mid, ?_, ih hrest⟩
    cases op with
    | step op => exact hmid
    | pathBuild output nodeVars relVars shortestPathAll => exact hmid
    | expandVarLen src rel dst types direction range =>
      obtain ⟨outs, houts, rfl⟩ := bind_flatten_ok.mp hmid
      exact bind_flatten_ok.mpr ⟨outs, houts.imp fun _ _ h => pullVarLenRow_eq h, rfl⟩

/-! ### What is rebound -/

/-- A path, or a list of relationships: what a variable is rebound to. -/
def IsTrace (value : LoraValue) : Prop :=
  (∃ path, value = .path path) ∨ ∃ rels : List RelationshipId, value =
    .list (rels.map .relationship)

/-- `==` tells a trace from every other value. -/
theorem IsTrace.eq_iff {value other : LoraValue} (h : IsTrace value) :
    value.eq other = true ↔ value = other := by
  obtain ⟨path, rfl⟩ | ⟨rels, rfl⟩ := h
  · cases other <;> simp [LoraValue.eq]
  · cases other with
    | list items =>
      rw [LoraValue.eq, LoraValue.list.injEq]
      induction rels generalizing items with
      | nil => cases items <;> simp [LoraValue.eqList]
      | cons rel rels ih =>
        cases items with
        | nil => simp [LoraValue.eqList]
        | cons item items =>
          rw [map_cons, LoraValue.eqList, Bool.and_eq_true, ih, cons.injEq]
          cases item <;> simp [LoraValue.eq]
    | _ => simp [LoraValue.eq]

/-- `row'` has the bindings of `row`, but for some variables that are rebound. -/
def CarriesBut (rebound : Finset VarId) (row row' : Row) : Prop :=
  ∀ var value, row var = some value → (var ∉ rebound → row' var = some value) ∧
    (var ∈ rebound → ∃ value', row' var = some value' ∧ IsTrace value')

theorem CarriesBut.trans {rebound rebound' : Finset VarId} {row'' : Row}
    (h : CarriesBut rebound row row') (h' : CarriesBut rebound' row' row'') :
    CarriesBut (rebound ∪ rebound') row row'' := by
  intro var value hvalue
  obtain ⟨hcarried, htrace⟩ := h var value hvalue
  by_cases hvar : var ∈ rebound
  · obtain ⟨trace, hmid, hisTrace⟩ := htrace hvar
    refine ⟨fun hnot => absurd (Finset.mem_union_left _ hvar) hnot, fun _ => ?_⟩
    by_cases hvar' : var ∈ rebound'
    · exact (h' var trace hmid).2 hvar'
    · exact ⟨trace, (h' var trace hmid).1 hvar', hisTrace⟩
  · have hrest := h' var value (hcarried hvar)
    refine ⟨fun hnot => hrest.1 fun hvar' => hnot (Finset.mem_union_right _ hvar'), fun hvar' => ?_⟩
    exact hrest.2 ((Finset.mem_union.mp hvar').resolve_left hvar)

theorem Keeps.carriesBut {op : PathOp} (h : Keeps op row row')
    (htrace : ∀ var ∈ op.rebinds, ∃ value, row' var = some value ∧ IsTrace value) :
    CarriesBut op.rebinds row row' :=
  fun var value hvalue => ⟨fun hvar => (h.carries var hvar (by simp [hvalue])).trans hvalue,
    htrace var⟩

theorem pullVarLenRow_carries {src dst : VarId} {rel : Option VarId}
    (hok : pullVarLenRow ctx src rel dst types direction range row = .ok out)
    (hmem : row' ∈ out) : CarriesBut rel.toFinset row row' := by
  rw [pullVarLenRow] at hok
  cases hsrc : boundNodeIdForExpand row src with
  | error err =>
    rw [hsrc] at hok
    cases hok
  | ok bound =>
    rw [hsrc] at hok
    rcases boundNode_cases hsrc with ⟨srcId, -, rfl⟩ | ⟨-, rfl⟩ | ⟨-, rfl⟩
    · cases hdst : boundNodeIdForExpand row dst with
      | error err =>
        simp only [hdst, bind, Except.bind] at hok
        cases hok
      | ok boundDst =>
        simp only [hdst, bind, Except.bind] at hok
        obtain rfl := Except.ok.inj hok
        obtain ⟨es, hes, rfl⟩ := mem_map.mp hmem
        have hfits := node_of_fits hdst (mem_filter.mp hes).2
        refine Keeps.carriesBut (@keeps_bindExpansion row rel (resultOf rel.isSome srcId es) src
          dst types direction range hfits) fun var hvar => ?_
        obtain rfl := Option.mem_toFinset.mp hvar
        exact ⟨_, Row.insert_self _ _ _, Or.inr ⟨es.map Prod.fst, rfl⟩⟩
    · obtain rfl := Except.ok.inj hok
      cases hmem
    · obtain rfl := Except.ok.inj hok
      cases hmem

/-- An operator changes no variable of a row but those it rebinds. -/
theorem pullOp_rebinds {op : PathOp} (hok : pullOp ctx op rows = .ok out) (hmem : row' ∈ out) :
    ∃ row ∈ rows, CarriesBut op.rebinds row row' := by
  cases op with
  | step op =>
    obtain ⟨outs, houts, rfl⟩ := bind_flatten_ok.mp hok
    obtain ⟨rowOut, hrowOut, hmem⟩ := mem_flatten.mp hmem
    obtain ⟨row, hrow, hrun⟩ := EvalContext.forall₂_mem_right houts hrowOut
    exact ⟨row, hrow, (@rowOp_keeps ctx (.step op) row row' rowOut hrun hmem).carriesBut (by
      simp [PathOp.rebinds])⟩
  | expandVarLen src rel dst types direction range =>
    obtain ⟨outs, houts, rfl⟩ := bind_flatten_ok.mp hok
    obtain ⟨rowOut, hrowOut, hmem⟩ := mem_flatten.mp hmem
    obtain ⟨row, hrow, hrun⟩ := EvalContext.forall₂_mem_right houts hrowOut
    exact ⟨row, hrow, pullVarLenRow_carries hrun hmem⟩
  | pathBuild output nodeVars relVars shortestPathAll =>
    have hrows : row' ∈ rows.map (attachPath ctx.storage output nodeVars relVars) := by
      cases shortestPathAll with
      | none => exact Except.ok.inj hok ▸ hmem
      | some all =>
        obtain rfl := Except.ok.inj hok
        rw [shortestPathRows_eq] at hmem
        exact mem_of_mem_filterShortestPaths hmem
    obtain ⟨row, hrow, rfl⟩ := mem_map.mp hrows
    refine ⟨row, hrow, Keeps.carriesBut (keeps_insert rfl rfl) fun var hvar => ?_⟩
    obtain rfl := Finset.mem_singleton.mp hvar
    refine ⟨_, Row.insert_self _ _ _, Or.inl ?_⟩
    rw [buildPathValue]
    split <;> exact ⟨_, rfl⟩

/-- The variables that the operators of a plan rebind. -/
def reboundVars (ops : List PathOp) : Finset VarId :=
  ops.foldr (fun op vars => op.rebinds ∪ vars) ∅

/-- Every row of a plan carries a row it started from, but for what the operators rebind. -/
theorem pull_rebinds {ops : List PathOp} (hok : pull ctx ops rows = .ok out) (hmem : row' ∈ out) :
    ∃ row ∈ rows, CarriesBut (reboundVars ops) row row' := by
  induction ops generalizing rows with
  | nil =>
    obtain rfl := Except.ok.inj hok
    exact ⟨row', hmem, fun var value hvalue => ⟨fun _ => hvalue, fun hvar => by
      simp [reboundVars] at hvar⟩⟩
  | cons op ops ih =>
    obtain ⟨mid, hmid, hrest⟩ := pull_cons_ok.mp hok
    obtain ⟨between, hbetween, hcarries⟩ := ih hrest
    obtain ⟨row, hrow, hrow'⟩ := pullOp_rebinds hmid hbetween
    exact ⟨row, hrow, hrow'.trans hcarries⟩

end Pull

end PathPlan

end LoraDb
