import LoraDb.PathPlan

/-!
# Placing the Conjuncts of a WHERE

A plan of a pattern is a list of stages: an operator that binds variables, and the tests made
on what it gives. Run with the conjuncts of a WHERE placed among the tests, it gives at every
stage the rows it gives without them, filtered by the conjuncts placed so far: the operators after
a conjunct leave the variables it reads alone. A variable-length relationship and a path
replace what their variable was bound to, and a shortest path is chosen among the rows that
are left.

## Main results

* `run_stages`: what the conjuncts placed so far have filtered out.
* `placed_eq`: the plan gives the rows that pass the whole WHERE above the pattern.
-/

open List

namespace LoraDb

namespace PathPlan

/-! ### Stages -/

/-- An operator, the variables it names, and what is tested on its rows. -/
structure Stage where
  op : PathOp
  vars : Finset VarId
  checks : List ResolvedExpr

/-- The plan of some stages, with the conjuncts placed that get ready. -/
def planStages (p : PatternPlanner) : List Stage → PatternPlanner × List PathOp
  | [] => (p, [])
  | stage :: stages =>
    let (q, ops) := attachReady (p.bindVars stage.vars) stage.checks
    let (q, rest) := planStages q stages
    (q, stage.op :: ops ++ rest)

def nodeStage (node : ResolvedNode) : Stage :=
  ⟨.step (.nodeScan node.var node.labels), {node.var},
    (buildPropertyPredicate node.var node.properties).toList⟩

def stepStages (src : VarId) : List ResolvedStep → List Stage
  | [] => []
  | step :: chain =>
    ⟨planExpand src step, step.vars, PatternPlanner.stepChecks step.node⟩ ::
      stepStages step.node.var chain

def chainStages (head : ResolvedNode) (chain : List ResolvedStep) : List Stage :=
  nodeStage head :: stepStages head.var chain

def elementStages (back : Bool) : ResolvedElement → List Stage
  | .node head => [nodeStage head]
  | .shortestPath _ head chain => chainStages head chain
  | .nodeChain head chain =>
    if back then chainStages (reverseChain head (plainChain chain)).1
      (asSteps (reverseChain head (plainChain chain)).2)
    else chainStages head chain

def pathStage (element : ResolvedElement) (pathVar : VarId) : Stage :=
  ⟨.pathBuild pathVar (collectChainVars element).1 (collectChainVars element).2
    (shortestPathAll element), {pathVar}, []⟩

def partStages (back : Bool) (part : ResolvedPatternPart) : List Stage :=
  elementStages back part.element ++ part.binding.toList.map (pathStage part.element)

def stagesOf : List Bool → List ResolvedPatternPart → List Stage
  | back :: walks, part :: parts => partStages back part ++ stagesOf walks parts
  | _, _ => []

section Stages

variable {p : PatternPlanner} {choice : WalkChoice}

theorem planStages_cons (stage : Stage) (stages : List Stage) : planStages p (stage :: stages) =
      ((planStages (p.after stage.vars) stages).1,
        stage.op :: (attachReady (p.bindVars stage.vars) stage.checks).2 ++
          (planStages (p.after stage.vars) stages).2) := rfl

theorem planStages_append (stages stages' : List Stage) : planStages p (stages ++ stages') =
      ((planStages (planStages p stages).1 stages').1,
        (planStages p stages).2 ++ (planStages (planStages p stages).1 stages').2) := by
  induction stages generalizing p with
  | nil => rfl
  | cons stage stages ih =>
    rw [cons_append, planStages_cons, planStages_cons, ih]
    simp

theorem planNode_eq (node : ResolvedNode) : planNode p node = planStages p [nodeStage node] := by
  rw [planStages_cons]
  simp only [planStages, append_nil]
  rfl

theorem planSteps_eq (src : VarId) (chain : List ResolvedStep) :
    planSteps p src chain = planStages p (stepStages src chain) := by
  induction chain generalizing p src with
  | nil => rfl
  | cons step chain ih =>
    rw [stepStages, planStages_cons, ← ih]
    rfl

theorem planNodeChain_eq (head : ResolvedNode) (chain : List ResolvedStep) :
    planNodeChain p head chain = planStages p (chainStages head chain) := by
  rw [chainStages, ← singleton_append, planStages_append, ← planNode_eq, ← planSteps_eq]
  rfl

/-- The plan of a part is the plan of its stages. -/
theorem planPart_eq (back : Bool) (part : ResolvedPatternPart) :
    planPart back p part = planStages p (partStages back part) := by
  have helement : planElement back p part = planStages p (elementStages back part.element) := by
    rw [planElement]
    cases part.element with
    | node head => exact planNode_eq head
    | shortestPath _ head chain => exact planNodeChain_eq head chain
    | nodeChain head chain =>
      rw [elementStages]
      cases back with
      | true => exact planNodeChain_eq _ _
      | false => exact planNodeChain_eq head chain
  rw [planPart, partStages, planStages_append, ← helement]
  cases part.binding with
  | none => simp [planStages]
  | some pathVar =>
    rw [Option.toList_some, map_singleton, planStages_cons]
    simp only [planStages, append_nil]
    rfl

theorem planParts_eq (parts : List ResolvedPatternPart) :
    planParts choice p parts = planStages p (stagesOf (walks choice p parts) parts) := by
  induction parts generalizing p with
  | nil => rfl
  | cons part parts ih =>
    rw [walks, stagesOf, planStages_append, ← planPart_eq, ← ih]
    rfl

end Stages

/-! ### What an operator does to a row -/

/-- The variables an operator binds. -/
def PathOp.vars : PathOp → Finset VarId
  | .step op => op.vars
  | .expandVarLen _ rel dst _ _ _ => {dst} ∪ rel.toFinset
  | .pathBuild output _ _ _ => {output}

/-- The variables an operator binds anew, bound or not. -/
def PathOp.rebinds : PathOp → Finset VarId
  | .step _ => ∅
  | .expandVarLen _ rel _ _ _ _ => rel.toFinset
  | .pathBuild output _ _ _ => {output}

/-- Whether an operator chooses among all rows. -/
def PathOp.selects : PathOp → Bool
  | .pathBuild _ _ _ shortestPathAll => shortestPathAll.isSome
  | _ => false

/-- The rows an operator gives for one row. -/
def rowOp (ctx : EvalContext) (op : PathOp) (row : Row) : Except ExecutorError (List Row) :=
  match op with
  | .step op => ctx.runRow op row
  | .expandVarLen src rel dst types direction range =>
    expandVarLenRow ctx src rel dst types direction range row
  | .pathBuild output nodeVars relVars _ => .ok [attachPath ctx.storage output nodeVars relVars row]

/-- Whether a row passes every test. -/
def passesAll (ctx : EvalContext) (es : List ResolvedExpr) (row : Row) : Bool :=
  es.all fun e => (e.eval ctx row).error.isNone && (e.eval ctx row).value.isTruthy

section Rows

variable {ctx : EvalContext} {op : PathOp} {row row' : Row}

theorem passesAll_iff {es : List ResolvedExpr} :
    passesAll ctx es row = true ↔ ∀ e ∈ es, ResolvedExpr.Passes ctx e row := by
  simp [passesAll, ResolvedExpr.Passes]

theorem passesAll_append (es es' : List ResolvedExpr) :
    passesAll ctx (es ++ es') row = (passesAll ctx es row && passesAll ctx es' row) := by
  rw [passesAll, all_append]
  rfl

theorem passesAll_perm {es es' : List ResolvedExpr} (h : es.Perm es') :
    passesAll ctx es row = passesAll ctx es' row := h.all_eq

theorem filter_passesAll (es es' : List ResolvedExpr) (rows : List Row) :
    (rows.filter (passesAll ctx es)).filter (passesAll ctx es') =
      rows.filter (passesAll ctx (es ++ es')) := by
  rw [filter_filter]
  refine filter_congr fun row _ => ?_
  rw [passesAll_append, Bool.and_comm]

theorem filter_passesAll_nil (rows : List Row) : rows.filter (passesAll ctx []) = rows :=
  filter_eq_self.mpr fun _ _ => rfl

theorem bind_flatten_ok {f : Row → Except ExecutorError (List Row)} {rows out : List Row} :
    (do return (← rows.mapM f).flatten) = Except.ok out ↔
      ∃ outs, Forall₂ (fun row out => f row = .ok out) rows outs ∧ out = outs.flatten := by
  cases hmap : rows.mapM f with
  | error err =>
    constructor
    · intro h
      cases h
    · rintro ⟨outs, houts, -⟩
      rw [EvalContext.mapM_ok.mpr houts] at hmap
      cases hmap
  | ok outs =>
    constructor
    · intro h
      exact ⟨outs, EvalContext.mapM_ok.mp hmap, (Except.ok.inj h).symm⟩
    · rintro ⟨outs', houts', rfl⟩
      rw [EvalContext.mapM_ok.mpr houts'] at hmap
      rw [Except.ok.inj hmap]
      rfl

/-- An operator that does not select gives what it gives for each row. -/
theorem runOp_eq_ok (h : op.selects = false) {rows out : List Row} : runOp ctx op rows = .ok out ↔
      ∃ outs, Forall₂ (fun row out => rowOp ctx op row = .ok out) rows outs ∧
        out = outs.flatten := by
  cases op with
  | step op => exact bind_flatten_ok
  | expandVarLen src rel dst types direction range => exact bind_flatten_ok
  | pathBuild output nodeVars relVars shortestPathAll =>
    obtain rfl := Option.not_isSome_iff_eq_none.mp (Bool.eq_false_iff.mp h)
    have hrow : ∀ (rows : List Row) outs,
        Forall₂ (fun row out => rowOp ctx (.pathBuild output nodeVars relVars none) row =
          .ok out) rows outs ↔
        outs = rows.map fun row => [attachPath ctx.storage output nodeVars relVars row] := by
      intro rows
      induction rows with
      | nil => simp
      | cons row rows ih =>
        intro outs
        rw [forall₂_cons_left_iff]
        constructor
        · rintro ⟨out, outs', hout, houts', rfl⟩
          rw [(ih outs').mp houts', ← Except.ok.inj hout, map_cons]
        · rintro rfl
          exact ⟨_, _, rfl, (ih _).mpr rfl, rfl⟩
    simp only [hrow, exists_eq_left, runOp, Except.ok.injEq]
    rw [← flatMap_def, ← map_eq_flatMap]
    exact eq_comm

/-- What an operator leaves alone: what it does not name, and what is bound and not bound
anew. -/
structure Keeps (op : PathOp) (row row' : Row) : Prop where
  frame : ∀ var, var ∉ op.vars → row' var = row var
  carries : ∀ var, var ∉ op.rebinds → row var ≠ none → row' var = row var
  grows : ∀ var, row var ≠ none → row' var ≠ none
  binds : ∀ var ∈ op.vars, row' var ≠ none

theorem keeps_insert {var : VarId} {value : LoraValue} (hvars : op.vars = {var})
    (hrebinds : op.rebinds = {var}) : Keeps op row (row.insert var value) := by
  have hne : ∀ v, v ≠ var → row.insert var value v = row v :=
    fun v hv => Row.insert_of_ne _ _ hv
  have hbound : ∀ v, row v ≠ none → row.insert var value v ≠ none := by
    intro v hv
    by_cases heq : v = var
    · simp [heq]
    · rwa [hne v heq]
  refine ⟨fun v hv => hne v (by simpa [hvars] using hv),
    fun v hv _ => hne v (by simpa [hrebinds] using hv), hbound, fun v hv => ?_⟩
  rw [hvars, Finset.mem_singleton] at hv
  simp [hv]

variable {rel : Option VarId} {result : VarLenResult}

theorem bindExpansion_of_notMem {dst var : VarId} (h : var ∉ rel.toFinset) :
    bindExpansion rel dst row result var = row.insert dst (.node result.dstNodeId) var := by
  cases rel with
  | none => rfl
  | some rel => exact Row.insert_of_ne _ _ (by simpa [eq_comm] using h)

theorem bindExpansion_ne_none {dst var : VarId}
    (h : var ∈ rel.toFinset ∨ row.insert dst (.node result.dstNodeId) var ≠ none) :
    bindExpansion rel dst row result var ≠ none := by
  by_cases hmem : var ∈ rel.toFinset
  · cases rel with
    | none => simp at hmem
    | some rel =>
      obtain rfl : rel = var := by simpa [eq_comm] using hmem
      simp [bindExpansion]
  · rw [bindExpansion_of_notMem hmem]
    exact h.resolve_left hmem

theorem keeps_bindExpansion {src dst : VarId} {types : List String}
    {direction : Direction} {range : RangeLiteral}
    (hfits : row dst ≠ none → row dst = some (.node result.dstNodeId)) :
    Keeps (.expandVarLen src rel dst types direction range) row
      (bindExpansion rel dst row result) := by
  have hdst : ∀ var, (var = dst → row var ≠ none) →
      row.insert dst (.node result.dstNodeId) var = row var := by
    intro var hvar
    by_cases heq : var = dst
    · obtain rfl := heq
      rw [Row.insert_self, hfits (hvar rfl)]
    · rw [Row.insert_of_ne _ _ heq]
  refine ⟨fun var hvar => ?_, fun var hvar hbound => ?_, fun var hvar => ?_, fun var hvar => ?_⟩
  · rw [PathOp.vars, Finset.notMem_union, Finset.notMem_singleton] at hvar
    rw [bindExpansion_of_notMem hvar.2, hdst var fun h => absurd h hvar.1]
  · rw [bindExpansion_of_notMem hvar, hdst var fun _ => hbound]
  · refine bindExpansion_ne_none (Or.inr ?_)
    rw [hdst var fun _ => hvar]
    exact hvar
  · rw [PathOp.vars, Finset.mem_union, Finset.mem_singleton] at hvar
    refine bindExpansion_ne_none ?_
    rcases hvar with rfl | hvar
    · exact Or.inr (by simp)
    · exact Or.inl hvar

/-- A destination that is bound is bound to the node the path ends at. -/
theorem node_of_fits {dst : VarId} {bound : Option (Option NodeId)} {node : NodeId}
    (hdst : boundNodeIdForExpand row dst = .ok bound) (hfit : fits bound node = true)
    (hbound : row dst ≠ none) : row dst = some (.node node) := by
  rcases boundNode_cases hdst with ⟨id, hid, rfl⟩ | ⟨-, rfl⟩ | ⟨hnone, -⟩
  · rw [fits, beq_iff_eq, Option.some_inj] at hfit
    rw [hid, hfit]
  · cases hfit
  · exact absurd hnone hbound

theorem expandVarLenRow_keeps {src dst : VarId} {types : List String}
    {direction : Direction} {range : RangeLiteral} {out : List Row}
    (hok : expandVarLenRow ctx src rel dst types direction range row = .ok out)
    (hmem : row' ∈ out) : Keeps (.expandVarLen src rel dst types direction range) row row' := by
  rw [expandVarLenRow] at hok
  cases hsrc : boundNodeIdForExpand row src with
  | error err =>
    rw [hsrc] at hok
    cases hok
  | ok bound =>
    rw [hsrc] at hok
    rcases bound with _ | _ | srcId
    · obtain rfl := Except.ok.inj hok
      cases hmem
    · obtain rfl := Except.ok.inj hok
      cases hmem
    · cases hdst : boundNodeIdForExpand row dst with
      | error err =>
        simp only [hdst, bind, Except.bind] at hok
        cases hok
      | ok boundDst =>
        simp only [hdst, bind, Except.bind] at hok
        split at hok
        · cases hok
        · obtain rfl := Except.ok.inj hok
          obtain ⟨result, hresult, rfl⟩ := mem_map.mp hmem
          exact keeps_bindExpansion (node_of_fits hdst (mem_filter.mp hresult).2)

theorem rowOp_keeps {out : List Row} (hok : rowOp ctx op row = .ok out) (hmem : row' ∈ out) :
    Keeps op row row' := by
  cases op with
  | step op =>
    have hgrows := runRow_grows hok hmem
    refine ⟨hgrows.frame, fun var _ hvar => ?_, hgrows.binds.1, hgrows.binds.2⟩
    obtain ⟨value, hvalue⟩ := Option.ne_none_iff_exists'.mp hvar
    rw [hvalue, hgrows.carries var value hvalue]
  | expandVarLen src rel dst types direction range => exact expandVarLenRow_keeps hok hmem
  | pathBuild output nodeVars relVars shortestPathAll =>
    obtain rfl := Except.ok.inj hok
    obtain rfl := mem_singleton.mp hmem
    exact keeps_insert rfl rfl

end Rows

/-! ### Filters among the stages -/

/-- The tests of a stage, as one filter. -/
def filterOps (checks : List ResolvedExpr) : List PathOp :=
  ((andAll checks).map fun e => PathOp.step (.filter e)).toList

/-- The conjuncts of a planner that are placed once some more variables are bound. -/
def placedBy (p : PatternPlanner) (vars : Finset VarId) : List ResolvedExpr :=
  (p.pending.filter fun c => c.needs ⊆ p.available ∪ vars).map PendingConjunct.expr

/-- The planner of the pattern alone. -/
def bare (p : PatternPlanner) : PatternPlanner := { p with pending := [] }

section Filters

variable {ctx : EvalContext} {p : PatternPlanner} {rows out : List Row}

theorem run_cons_ok {op : PathOp} {ops : List PathOp} : run ctx (op :: ops) rows = .ok out ↔
      ∃ mid, runOp ctx op rows = .ok mid ∧ run ctx ops mid = .ok out := by
  rw [run]
  cases runOp ctx op rows with
  | error err => simp [bind, Except.bind]
  | ok mid => simp [bind, Except.bind]

theorem run_append_ok {ops ops' : List PathOp} : run ctx (ops ++ ops') rows = .ok out ↔
      ∃ mid, run ctx ops rows = .ok mid ∧ run ctx ops' mid = .ok out := by
  induction ops generalizing rows with
  | nil => simp [run]
  | cons op ops ih =>
    rw [cons_append, run_cons_ok]
    simp only [ih, run_cons_ok]
    constructor
    · rintro ⟨mid, hmid, mid', hmid', hout⟩
      exact ⟨mid', ⟨mid, hmid, hmid'⟩, hout⟩
    · rintro ⟨mid', ⟨mid, hmid, hmid'⟩, hout⟩
      exact ⟨mid, hmid, mid', hmid', hout⟩

/-- A filter gives the rows that pass every test. -/
theorem run_filterOps {checks : List ResolvedExpr} (h : run ctx (filterOps checks) rows = .ok out) :
    out = rows.filter (passesAll ctx checks) := by
  cases checks with
  | nil =>
    obtain rfl := Except.ok.inj h
    exact (filter_passesAll_nil _).symm
  | cons e es =>
    obtain ⟨mid, hmid, hout⟩ := run_cons_ok.mp h
    obtain rfl := Except.ok.inj hout
    obtain ⟨outs, houts, rfl⟩ := (runOp_eq_ok rfl).mp hmid
    clear h hmid hout
    induction houts with
    | nil => rfl
    | @cons row out rows outs hrow _ ih =>
      have hone := @run_checks _ _ (e :: es) _ (EvalContext.run_singleton.mpr hrow)
      rw [flatten_cons, ih, filter_cons]
      rcases hone with ⟨rfl, hpass⟩ | ⟨rfl, hfail⟩
      · rw [if_pos (passesAll_iff.mpr hpass), singleton_append]
      · rw [if_neg fun h => hfail (passesAll_iff.mp h), nil_append]

theorem attachReady_ops (vars : Finset VarId) (checks : List ResolvedExpr) :
    (attachReady (p.bindVars vars) checks).2 = filterOps (checks ++ placedBy p vars) := by
  change (((andAll (checks ++ placedBy p vars)).map MatchOp.filter).toList).map PathOp.step = _
  rw [filterOps]
  cases andAll (checks ++ placedBy p vars) <;> rfl

theorem placedBy_bare (vars : Finset VarId) : placedBy (bare p) vars = [] := rfl

theorem bare_after (vars : Finset VarId) : (bare p).after vars = bare (p.after vars) := rfl

end Filters

/-! ### Running the stages -/

/-- A stage names what its operator binds; it binds nothing anew that is named before, and it
selects only while nothing is placed. -/
structure Stage.Movable (needs : List (Finset VarId)) (available : Finset VarId) (stage : Stage) :
    Prop where
  vars : stage.op.vars = stage.vars
  rebinds : Disjoint stage.op.rebinds available
  selects : stage.op.selects = true → ∀ n ∈ needs, ¬ n ⊆ available

def StagesMovable (needs : List (Finset VarId)) (available : Finset VarId) : List Stage → Prop
  | [] => True
  | stage :: stages =>
    stage.Movable needs available ∧ StagesMovable needs (available ∪ stage.vars) stages

/-- The conjuncts placed so far read available pattern variables only. -/
structure Placed (patternVars : Finset VarId) (needs : List (Finset VarId))
    (available : Finset VarId) (es : List ResolvedExpr) : Prop where
  reads : ∀ e ∈ es, e.varsWith false ∩ patternVars ⊆ available
  needed : ∀ e ∈ es, ∃ n ∈ needs, n ⊆ available

section Runs

variable {ctx : EvalContext} {p : PatternPlanner} {rows out out₀ : List Row}
  {patternVars available vars : Finset VarId} {needs : List (Finset VarId)}
  {es : List ResolvedExpr} {op : PathOp}

theorem Placed.mono (h : Placed patternVars needs available es) (hsub : available ⊆ vars) :
    Placed patternVars needs vars es where
  reads e he := (h.reads e he).trans hsub
  needed e he := by
    obtain ⟨n, hn, hneeds⟩ := h.needed e he
    exact ⟨n, hn, hneeds.trans hsub⟩

/-- What an operator does to a row, the conjuncts placed before cannot see. -/
theorem passesAll_of_keeps {row row' : Row} (hplaced : Placed patternVars needs available es)
    (hkeeps : Keeps op row row') (hvars : op.vars ⊆ patternVars)
    (hrebinds : Disjoint op.rebinds available) (hrow : ∀ var ∈ available, row var ≠ none) :
    passesAll ctx es row' = passesAll ctx es row := by
  have hagree : ∀ e ∈ es, ResolvedExpr.AgreeOn (e.varsWith false) row' row := by
    intro e he var hvar
    by_cases hop : var ∈ op.vars
    · have havail : var ∈ available :=
        hplaced.reads e he (Finset.mem_inter.mpr ⟨hvar, hvars hop⟩)
      exact hkeeps.carries var (fun h => Finset.disjoint_left.mp hrebinds h havail)
        (hrow var havail)
    · exact hkeeps.frame var hop
  rw [Bool.eq_iff_iff, passesAll_iff, passesAll_iff]
  exact forall₂_congr fun e he => ResolvedExpr.passes_congr (hagree e he)

/-- An operator gives for the rows that are left what is left of what it gives. -/
theorem flatten_filter {q : Row → Bool} {outs outs' : List (List Row)}
    (houts : Forall₂ (fun row out => rowOp ctx op row = .ok out) rows outs)
    (houts' : Forall₂ (fun row out => rowOp ctx op row = .ok out) (rows.filter q) outs')
    (hkeep : ∀ row ∈ rows, ∀ out, rowOp ctx op row = .ok out → ∀ row' ∈ out, q row' = q row) :
    outs'.flatten = outs.flatten.filter q := by
  induction houts generalizing outs' with
  | nil =>
    rw [filter_nil, forall₂_nil_left_iff] at houts'
    rw [houts']
    rfl
  | @cons row out rows outs hrow _ ih =>
    have hrest := fun outs' h => @ih outs' h fun row hmem => hkeep row (mem_cons_of_mem _ hmem)
    rw [flatten_cons, filter_append]
    cases hq : q row with
    | true =>
      rw [filter_cons_of_pos hq] at houts'
      obtain ⟨out', outs'', hout', houts'', rfl⟩ := forall₂_cons_left_iff.mp houts'
      rw [hrow] at hout'
      obtain rfl := Except.ok.inj hout'
      have hall : out.filter q = out := filter_eq_self.mpr fun row' hrow' => by
        rw [hkeep row mem_cons_self out hrow row' hrow', hq]
      rw [flatten_cons, hrest outs'' houts'', hall]
    | false =>
      rw [filter_cons_of_neg (by simp [hq])] at houts'
      have hnone : out.filter q = [] := filter_eq_nil_iff.mpr fun row' hrow' => by
        rw [hkeep row mem_cons_self out hrow row' hrow', hq]
        exact Bool.false_ne_true
      rw [hrest outs' houts', hnone, nil_append]

/-- One operator, with conjuncts placed below it. -/
theorem runOp_placed (hplaced : Placed patternVars needs available es)
    (hvars : op.vars ⊆ patternVars) (hrebinds : Disjoint op.rebinds available)
    (hselects : op.selects = true → ∀ n ∈ needs, ¬ n ⊆ available)
    (hrows : ∀ row ∈ rows, ∀ var ∈ available, row var ≠ none)
    (hok₀ : runOp ctx op rows = .ok out₀)
    (hok : runOp ctx op (rows.filter (passesAll ctx es)) = .ok out) :
    out = out₀.filter (passesAll ctx es) := by
  cases hsel : op.selects with
  | true =>
    have hnone : es = [] := by
      refine eq_nil_iff_forall_not_mem.mpr fun e he => ?_
      obtain ⟨n, hn, hneeds⟩ := hplaced.needed e he
      exact hselects hsel n hn hneeds
    rw [hnone, filter_passesAll_nil] at hok ⊢
    rw [hok₀] at hok
    exact (Except.ok.inj hok).symm
  | false =>
    obtain ⟨outs₀, houts₀, rfl⟩ := (runOp_eq_ok hsel).mp hok₀
    obtain ⟨outs, houts, rfl⟩ := (runOp_eq_ok hsel).mp hok
    exact flatten_filter houts₀ houts fun row hrow out hout row' hrow' =>
      passesAll_of_keeps hplaced (rowOp_keeps hout hrow') hvars hrebinds (hrows row hrow)

theorem selects_eq_true (h : op.selects = true) :
    ∃ output nodeVars relVars all, op = .pathBuild output nodeVars relVars (some all) := by
  cases op with
  | step op => cases h
  | expandVarLen src rel dst types direction range => cases h
  | pathBuild output nodeVars relVars shortestPathAll =>
    obtain ⟨all, rfl⟩ := Option.isSome_iff_exists.mp h
    exact ⟨output, nodeVars, relVars, all, rfl⟩

theorem mem_of_mem_filterShortestPaths {row : Row} {pathVar : VarId} {all : Bool}
    (h : row ∈ filterShortestPaths rows pathVar all) : row ∈ rows := by
  rw [filterShortestPaths, keepShortest_eq] at h
  split at h
  · exact (mem_least.mp h).1
  · exact (mem_least.mp (mem_of_mem_take h)).1

/-- The rows an operator gives bind what the rows of its input do, and its own variables. -/
theorem runOp_binds (hok : runOp ctx op rows = .ok out)
    (hrows : ∀ row ∈ rows, ∀ var ∈ available, row var ≠ none) :
    ∀ row ∈ out, ∀ var ∈ available ∪ op.vars, row var ≠ none := by
  have hfrom : ∀ row' ∈ out, ∃ row ∈ rows, Keeps op row row' := by
    intro row' hrow'
    cases hsel : op.selects with
    | true =>
      obtain ⟨output, nodeVars, relVars, all, rfl⟩ := selects_eq_true hsel
      obtain rfl := Except.ok.inj hok
      rw [shortestPathRows_eq] at hrow'
      obtain ⟨row, hrow, rfl⟩ := mem_map.mp (mem_of_mem_filterShortestPaths hrow')
      exact ⟨row, hrow, keeps_insert rfl rfl⟩
    | false =>
      obtain ⟨outs, houts, rfl⟩ := (runOp_eq_ok hsel).mp hok
      obtain ⟨rowOut, hrowOut, hmem⟩ := mem_flatten.mp hrow'
      obtain ⟨row, hrow, hrun⟩ := EvalContext.forall₂_mem_right houts hrowOut
      exact ⟨row, hrow, rowOp_keeps hrun hmem⟩
  intro row' hrow' var hvar
  obtain ⟨row, hrow, hkeeps⟩ := hfrom row' hrow'
  rcases Finset.mem_union.mp hvar with hvar | hvar
  · exact hkeeps.grows var (hrows row hrow var hvar)
  · exact hkeeps.binds var hvar

/-- What is placed, and what still waits, is what waited. -/
theorem placedBy_append (p : PatternPlanner) (vars : Finset VarId) :
    (placedBy p vars ++ (p.after vars).pending.map PendingConjunct.expr).Perm
      (p.pending.map PendingConjunct.expr) := by
  have hwaits : (p.after vars).pending =
      p.pending.filter fun c => !decide (c.needs ⊆ p.available ∪ vars) := by
    rw [PatternPlanner.after]
    exact filter_congr fun c _ => by simp
  rw [placedBy, hwaits, ← map_append]
  exact (filter_append_perm _ _).map _

theorem placed_after (hplaced : Placed patternVars needs p.available es)
    (hpending : ∀ c ∈ p.pending, c.expr.varsWith false ∩ patternVars ⊆ c.needs ∧ c.needs ∈ needs) :
    Placed patternVars needs (p.after vars).available (es ++ placedBy p vars) := by
  have hmono : Placed patternVars needs (p.after vars).available es :=
    hplaced.mono Finset.subset_union_left
  refine ⟨fun e he => ?_, fun e he => ?_⟩
  · rcases mem_append.mp he with he | he
    · exact hmono.reads e he
    · obtain ⟨c, hc, rfl⟩ := mem_map.mp he
      obtain ⟨hmem, hready⟩ := mem_filter.mp hc
      exact (hpending c hmem).1.trans (of_decide_eq_true hready)
  · rcases mem_append.mp he with he | he
    · exact hmono.needed e he
    · obtain ⟨c, hc, rfl⟩ := mem_map.mp he
      obtain ⟨hmem, hready⟩ := mem_filter.mp hc
      exact ⟨c.needs, (hpending c hmem).2, of_decide_eq_true hready⟩

/-- The stages of a pattern, with conjuncts placed among them, give the rows that the placed
ones leave of what they give without. -/
theorem run_stages {stages : List Stage} (hplaced : Placed patternVars needs p.available es)
    (hpending : ∀ c ∈ p.pending, c.expr.varsWith false ∩ patternVars ⊆ c.needs ∧ c.needs ∈ needs)
    (hvars : ∀ stage ∈ stages, stage.vars ⊆ patternVars)
    (hmovable : StagesMovable needs p.available stages)
    (hrows : ∀ row ∈ rows, ∀ var ∈ p.available, row var ≠ none)
    (hok₀ : run ctx (planStages (bare p) stages).2 rows = .ok out₀)
    (hok : run ctx (planStages p stages).2 (rows.filter (passesAll ctx es)) = .ok out) :
    ∃ es', out = out₀.filter (passesAll ctx es') ∧
      (es' ++ (planStages p stages).1.pending.map PendingConjunct.expr).Perm
        (es ++ p.pending.map PendingConjunct.expr) := by
  induction stages generalizing p rows es with
  | nil =>
    obtain rfl := Except.ok.inj hok₀
    obtain rfl := Except.ok.inj hok
    exact ⟨es, rfl, Perm.refl _⟩
  | cons stage stages ih =>
    obtain ⟨hstage, hrest⟩ := hmovable
    rw [planStages_cons, cons_append, run_cons_ok] at hok₀ hok
    obtain ⟨mid₀, hmid₀, hok₀⟩ := hok₀
    obtain ⟨mid, hmid, hok⟩ := hok
    have hstageVars := hvars stage mem_cons_self
    have hbelow := runOp_placed hplaced (hstage.vars ▸ hstageVars) hstage.rebinds hstage.selects
      hrows hmid₀ hmid
    subst hbelow
    obtain ⟨left₀, hleft₀, hok₀⟩ := run_append_ok.mp hok₀
    obtain ⟨left, hleft, hok⟩ := run_append_ok.mp hok
    rw [attachReady_ops, placedBy_bare, append_nil] at hleft₀
    rw [attachReady_ops] at hleft
    obtain rfl := run_filterOps hleft₀
    obtain rfl := run_filterOps hleft
    have hsame : (mid₀.filter (passesAll ctx es)).filter
          (passesAll ctx (stage.checks ++ placedBy p stage.vars)) =
        (mid₀.filter (passesAll ctx stage.checks)).filter
          (passesAll ctx (es ++ placedBy p stage.vars)) := by
      rw [filter_passesAll, filter_passesAll]
      refine filter_congr fun row _ => passesAll_perm ?_
      rw [← append_assoc, ← append_assoc]
      exact perm_append_comm.append_right _
    rw [hsame] at hok
    rw [bare_after] at hok₀
    have hplaced' : Placed patternVars needs (p.after stage.vars).available
        (es ++ placedBy p stage.vars) := placed_after hplaced hpending
    have hrows' : ∀ row ∈ mid₀.filter (passesAll ctx stage.checks),
        ∀ var ∈ (p.after stage.vars).available, row var ≠ none := by
      intro row hrow
      change ∀ var ∈ p.available ∪ stage.vars, row var ≠ none
      rw [← hstage.vars]
      exact runOp_binds hmid₀ hrows row (mem_of_mem_filter hrow)
    obtain ⟨es', hout, hperm⟩ := ih (p := p.after stage.vars) hplaced'
      (fun c hc => hpending c (PatternPlanner.after_waits hc).1)
      (fun stage' hstage' => hvars stage' (mem_cons_of_mem _ hstage')) hrest hrows' hok₀ hok
    refine ⟨es', hout, hperm.trans ?_⟩
    rw [append_assoc]
    exact (placedBy_append p stage.vars).append_left es

end Runs

/-! ### Patterns whose conjuncts can be placed -/

/-- A variable-length relationship has a variable that nothing before it names. -/
def StepsFresh (available : Finset VarId) : List ResolvedStep → Prop
  | [] => True
  | step :: chain =>
    (step.range.isSome = true → Disjoint step.rel.var.toFinset available) ∧
      StepsFresh (available ∪ step.vars) chain

def ResolvedElement.Fresh (available : Finset VarId) : ResolvedElement → Prop
  | .node _ => True
  | .nodeChain head chain | .shortestPath _ head chain => StepsFresh (available ∪ {head.var}) chain

/-- Variable-length relationships and paths have variables that nothing before them names, and no
conjunct has all it needs before a shortest path is chosen. -/
def PartsMovable (needs : List (Finset VarId)) (available : Finset VarId) :
    List ResolvedPatternPart → Prop
  | [] => True
  | part :: parts =>
    part.element.Fresh available ∧
      (∀ pathVar ∈ part.binding, pathVar ∉ available ∪ part.element.vars) ∧
      (part.binding.isSome = true → (shortestPathAll part.element).isSome = true →
        ∀ n ∈ needs, ¬ n ⊆ available ∪ part.element.vars) ∧
      PartsMovable needs (available ∪ part.vars) parts

/-- What the conjuncts of a WHERE need, where they need anything of the pattern. -/
def conjunctsNeed (pattern : ResolvedPattern) (predicate : Option ResolvedExpr) :
    List (Finset VarId) :=
  ((whereConjuncts (collectPatternVarSet pattern) predicate).filter fun c => c.needs ≠ ∅).map
    PendingConjunct.needs

def Movable (pattern : ResolvedPattern) (predicate : Option ResolvedExpr) : Prop :=
  PartsMovable (conjunctsNeed pattern predicate) ∅ pattern.parts

/-- The variables some stages name. -/
def stagesVars (stages : List Stage) : Finset VarId :=
  stages.foldr (fun stage vars => stage.vars ∪ vars) ∅

section Patterns

variable {p : PatternPlanner} {choice : WalkChoice} {needs : List (Finset VarId)}
  {available patternVars : Finset VarId} {head : ResolvedNode} {chain : List ResolvedStep}
  {part : ResolvedPatternPart} {parts : List ResolvedPatternPart}

theorem stagesVars_cons (stage : Stage) (stages : List Stage) :
    stagesVars (stage :: stages) = stage.vars ∪ stagesVars stages := rfl

theorem stagesMovable_append {stages stages' : List Stage} :
    StagesMovable needs available (stages ++ stages') ↔ StagesMovable needs available stages ∧
      StagesMovable needs (available ∪ stagesVars stages) stages' := by
  induction stages generalizing available with
  | nil => simp [StagesMovable, stagesVars]
  | cons stage stages ih =>
    rw [cons_append, StagesMovable, StagesMovable, ih, stagesVars_cons, Finset.union_assoc,
      and_assoc]

theorem stagesVars_append (stages stages' : List Stage) :
    stagesVars (stages ++ stages') = stagesVars stages ∪ stagesVars stages' := by
  induction stages with
  | nil => simp [stagesVars]
  | cons stage stages ih =>
    rw [cons_append, stagesVars_cons, stagesVars_cons, ih, Finset.union_assoc]

theorem stagesVars_stepStages (src : VarId) :
    stagesVars (stepStages src chain) = stepVars chain := by
  induction chain generalizing src with
  | nil => rfl
  | cons step chain ih =>
    rw [stepStages, stagesVars_cons, ih]
    rfl

theorem stagesVars_chainStages :
    stagesVars (chainStages head chain) = {head.var} ∪ stepVars chain := by
  change {head.var} ∪ stagesVars (stepStages head.var chain) = _
  rw [stagesVars_stepStages]

theorem planExpand_vars (src : VarId) (step : ResolvedStep) :
    (planExpand src step).vars = step.vars := by
  rw [planExpand, ResolvedStep.vars, Finset.union_comm]
  cases step.range <;> rfl

theorem stepStages_movable {src : VarId} (h : StepsFresh available chain) :
    StagesMovable needs available (stepStages src chain) := by
  induction chain generalizing available src with
  | nil => trivial
  | cons step chain ih =>
    refine ⟨⟨planExpand_vars src step, ?_, ?_⟩, ih h.2⟩
    · change Disjoint (planExpand src step).rebinds available
      rw [planExpand]
      cases hrange : step.range with
      | none => exact Finset.disjoint_empty_left _
      | some range => exact h.1 (by rw [hrange]; rfl)
    · intro hselects
      rw [planExpand] at hselects
      cases hrange : step.range <;> rw [hrange] at hselects <;> cases hselects

theorem nodeStage_movable (node : ResolvedNode) : (nodeStage node).Movable needs available :=
  ⟨rfl, Finset.disjoint_empty_left _, fun h => (nomatch h)⟩

theorem chainStages_movable (h : StepsFresh (available ∪ {head.var}) chain) :
    StagesMovable needs available (chainStages head chain) :=
  ⟨nodeStage_movable head, stepStages_movable h⟩

theorem stepsFresh_asSteps (chain : List ResolvedChain) : StepsFresh available (asSteps chain) := by
  induction chain generalizing available with
  | nil => trivial
  | cons step chain ih => exact ⟨fun h => (nomatch h), ih⟩

theorem stepVars_asSteps (chain : List ResolvedChain) :
    stepVars (asSteps chain) = LoraDb.stepVars chain := by
  induction chain with
  | nil => rfl
  | cons step chain ih =>
    change ResolvedStep.vars _ ∪ stepVars (asSteps chain) = _
    rw [ih]
    rfl

theorem stepVars_plainChain : LoraDb.stepVars (plainChain chain) = stepVars chain := by
  induction chain with
  | nil => rfl
  | cons step chain ih =>
    change ResolvedChain.vars _ ∪ LoraDb.stepVars (plainChain chain) = _
    rw [ih]
    rfl

/-- A chain names the same variables, whichever way it is walked. -/
theorem stagesVars_elementStages (back : Bool) (element : ResolvedElement) :
    stagesVars (elementStages back element) = element.vars := by
  cases element with
  | node head => simp [elementStages, stagesVars, nodeStage, ResolvedElement.vars]
  | shortestPath all head chain => exact stagesVars_chainStages
  | nodeChain head chain =>
    cases back with
    | false => exact stagesVars_chainStages
    | true =>
      change stagesVars (chainStages _ _) = {head.var} ∪ stepVars chain
      rw [stagesVars_chainStages, stepVars_asSteps, ← @stepVars_plainChain chain]
      exact chainVars_reverse

theorem elementStages_movable {back : Bool} {element : ResolvedElement}
    (h : element.Fresh available) : StagesMovable needs available (elementStages back element) := by
  cases element with
  | node head => exact ⟨nodeStage_movable head, trivial⟩
  | shortestPath all head chain => exact chainStages_movable h
  | nodeChain head chain =>
    cases back with
    | false => exact chainStages_movable h
    | true => exact chainStages_movable (stepsFresh_asSteps _)

theorem stagesVars_partStages (back : Bool) : stagesVars (partStages back part) = part.vars := by
  rw [partStages, stagesVars_append, stagesVars_elementStages, ResolvedPatternPart.vars,
    Finset.union_comm]
  cases part.binding with
  | none => rfl
  | some pathVar => simp [stagesVars, pathStage]

theorem stagesOf_movable {walks : List Bool} (h : PartsMovable needs available parts) :
    StagesMovable needs available (stagesOf walks parts) := by
  induction parts generalizing available walks with
  | nil => cases walks <;> trivial
  | cons part parts ih =>
    obtain ⟨hfresh, hpath, hshort, hrest⟩ := h
    cases walks with
    | nil => trivial
    | cons back walks =>
      rw [stagesOf, stagesMovable_append, stagesVars_partStages]
      refine ⟨?_, ih hrest⟩
      rw [partStages, stagesMovable_append, stagesVars_elementStages]
      refine ⟨elementStages_movable hfresh, ?_⟩
      cases hbinding : part.binding with
      | none => trivial
      | some pathVar =>
        rw [hbinding] at hpath hshort
        exact ⟨⟨rfl, Finset.disjoint_singleton_left.mpr (hpath pathVar rfl), hshort rfl⟩, trivial⟩

theorem stagesOf_vars {walks : List Bool} (h : ∀ part ∈ parts, part.vars ⊆ patternVars) :
    ∀ stage ∈ stagesOf walks parts, stage.vars ⊆ patternVars := by
  have hmem : ∀ {stages : List Stage} {stage}, stage ∈ stages → stage.vars ⊆ stagesVars stages := by
    intro stages stage hstage
    induction stages with
    | nil => cases hstage
    | cons first stages ih =>
      rcases mem_cons.mp hstage with rfl | hstage
      · exact Finset.subset_union_left
      · exact (ih hstage).trans Finset.subset_union_right
  induction parts generalizing walks with
  | nil =>
    intro stage hstage
    cases walks <;> cases hstage
  | cons part parts ih =>
    intro stage hstage
    cases walks with
    | nil => cases hstage
    | cons back walks =>
      rcases mem_append.mp hstage with hstage | hstage
      · refine (hmem hstage).trans ?_
        rw [stagesVars_partStages]
        exact h part mem_cons_self
      · exact ih (fun part hpart => h part (mem_cons_of_mem _ hpart)) stage hstage

end Patterns

/-! ### The whole WHERE -/

section Where

variable {ctx : EvalContext} {p : PatternPlanner} {pattern : ResolvedPattern}
  {predicate : Option ResolvedExpr} {stats : GraphStats} {bound : Finset VarId}

theorem planPattern_eq (walks : List Bool) (parts : List ResolvedPatternPart) :
    planPattern p walks parts = (planStages p (stagesOf walks parts)).2 := by
  induction parts generalizing p walks with
  | nil => cases walks <;> rfl
  | cons part parts ih =>
    cases walks with
    | nil => rfl
    | cons back walks =>
      rw [stagesOf, planStages_append, ← planPart_eq, ← ih]
      rfl

/-- A predicate passes exactly when each of its conjuncts does. -/
theorem passes_splitConjuncts (e : ResolvedExpr) (row : Row) :
    (∀ c ∈ splitConjuncts e, ResolvedExpr.Passes ctx c row) ↔ ResolvedExpr.Passes ctx e row := by
  fun_induction splitConjuncts e with
  | case1 lhs rhs ihl ihr =>
    rw [ResolvedExpr.passes_and, ← ihl, ← ihr]
    simp only [mem_append, or_imp, forall_and]
  | case2 e _ => simp

theorem passesAll_where (patternVars : Finset VarId) (predicate : Option ResolvedExpr) (row : Row) :
    passesAll ctx ((whereConjuncts patternVars predicate).map PendingConjunct.expr) row =
      passesAll ctx predicate.toList row := by
  have hexprs : (whereConjuncts patternVars predicate).map PendingConjunct.expr =
      (predicate.map splitConjuncts).getD [] := by
    rw [whereConjuncts, map_map]
    exact zipIdx_map_fst _ _
  rw [hexprs, Bool.eq_iff_iff, passesAll_iff, passesAll_iff]
  cases predicate with
  | none => rfl
  | some e => simpa using passes_splitConjuncts e row

theorem subset_collectPatternVarSet {part : ResolvedPatternPart} (h : part ∈ pattern.parts) :
    part.vars ⊆ collectPatternVarSet pattern := by
  obtain ⟨parts⟩ := pattern
  change part.vars ⊆ parts.foldr (fun part vars => part.vars ∪ vars) ∅
  induction parts with
  | nil => cases h
  | cons part' parts ih =>
    rw [foldr_cons]
    rcases mem_cons.mp h with rfl | h
    · exact Finset.subset_union_left
    · exact (ih h).trans Finset.subset_union_right

theorem pending_needs {c : PendingConjunct}
    (hc : c ∈ (patternPlanner stats bound pattern predicate).pending) :
    c.expr.varsWith false ∩ collectPatternVarSet pattern ⊆ c.needs ∧
      c.needs ∈ conjunctsNeed pattern predicate := by
  obtain ⟨hmem, hneeds⟩ := mem_filter.mp hc
  exact ⟨whereConjuncts_reads hmem (of_decide_eq_true hneeds), mem_map_of_mem hc⟩

/-- Every conjunct is placed or left for the filter above the pattern, once. -/
theorem placed_residual {es : List ResolvedExpr} {pending : List PendingConjunct}
    (hperm : (es ++ pending.map PendingConjunct.expr).Perm
      ([] ++ (patternPlanner stats bound pattern predicate).pending.map PendingConjunct.expr)) :
    (es ++ (((whereConjuncts (collectPatternVarSet pattern) predicate).filter
        (fun c => c.needs = ∅) ++ pending).mergeSort fun a b => a.order ≤ b.order).map
          PendingConjunct.expr).Perm
      ((whereConjuncts (collectPatternVarSet pattern) predicate).map PendingConjunct.expr) := by
  have hall : ((whereConjuncts (collectPatternVarSet pattern) predicate).filter
        (fun c => c.needs = ∅) ++ (patternPlanner stats bound pattern predicate).pending).Perm
      (whereConjuncts (collectPatternVarSet pattern) predicate) := by
    have hsplit := filter_append_perm (fun c : PendingConjunct => decide (c.needs = ∅))
      (whereConjuncts (collectPatternVarSet pattern) predicate)
    simpa [patternPlanner] using hsplit
  refine ((mergeSort_perm _ _).map _ |>.append_left es).trans ?_
  refine Perm.trans ?_ (hall.map PendingConjunct.expr)
  rw [map_append, map_append, ← append_assoc]
  refine (perm_append_comm.append_right _).trans ?_
  rw [append_assoc]
  exact hperm.append_left _

/-- Placing conjuncts. The plan gives the rows it gives with the whole WHERE above the
pattern, in their order. -/
theorem placed_eq {choice : WalkChoice} (h : Movable pattern predicate) {rows out out₀ : List Row}
    (hok : run ctx (planPatternWithWhere choice stats bound pattern predicate) rows = .ok out)
    (hok₀ : run ctx (planWhereAbove choice stats bound pattern predicate) rows = .ok out₀) :
    out = out₀ := by
  obtain ⟨mid, hmid, hrest⟩ := run_append_ok.mp hok
  obtain ⟨mid₀, hmid₀, hrest₀⟩ := run_append_ok.mp hok₀
  rw [planPattern_eq] at hmid₀
  rw [planParts_eq] at hmid hrest
  rw [← @filter_passesAll_nil ctx rows] at hmid
  have hnone : Placed (collectPatternVarSet pattern) (conjunctsNeed pattern predicate)
      (patternPlanner stats bound pattern predicate).available [] := ⟨by simp, by simp⟩
  obtain ⟨es, rfl, hperm⟩ := run_stages hnone (fun c hc => pending_needs hc)
    (stagesOf_vars fun part hpart => subset_collectPatternVarSet hpart) (stagesOf_movable h)
    (by simp [patternPlanner]) hmid₀ hmid
  have habove₀ : out₀ = mid₀.filter (passesAll ctx predicate.toList) := by
    refine run_filterOps ?_
    rw [← hrest₀]
    cases predicate <;> rfl
  rw [run_filterOps hrest, habove₀, filter_passesAll]
  refine filter_congr fun row _ => ?_
  rw [← passesAll_where (collectPatternVarSet pattern)]
  exact passesAll_perm (placed_residual hperm)

end Where

end PathPlan

end LoraDb
