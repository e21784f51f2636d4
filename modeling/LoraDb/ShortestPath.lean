import LoraDb.PathPull

/-!
# Shortest Paths

A `shortestPath` or `allShortestPaths` pattern is planned as its chain, and a `PathBuild` over
the rows of the chain that binds the path variable and keeps the rows whose variables hold the
fewest relationships: the fewest of all rows, whatever input row, start and end they belong
to. Without a path variable there is no `PathBuild`, and every row is kept.

The rows of the chain are the walks of the graph along its steps (`pull_chain`), each walk once.
A step repeats no relationship, but two steps may share one, and a variable-length step does not
look at its inline map: such walks are no matches of the pattern.

## Main results

* `pull_chain`, `mem_walks`: the rows of a chain are the walks of the graph.
* `shortestPath_iff`: when the walks kept are the shortest of each pair of ends.
-/

open List Trails LoraDb.PathPlan

namespace LoraDb

/-! ### Patterns -/

/-- A step of a chain and the tests on its rows: the labels and the inline map of its node, and
the conjuncts of the WHERE that are ready. -/
structure PlannedStep where
  step : ResolvedStep
  tests : List ResolvedExpr

/-- The steps of a chain as they are planned. -/
def plannedSteps (planner : PatternPlanner) : List ResolvedStep → List PlannedStep
  | [] => []
  | step :: chain => ⟨step, PatternPlanner.stepChecks step.node ++ placedBy planner step.vars⟩ ::
    plannedSteps (planner.after step.vars) chain

def stepOps (src : VarId) : List PlannedStep → List PathOp
  | [] => []
  | s :: steps => planExpand src s.step :: filterOps s.tests ++ stepOps s.step.node.var steps

/-- A `shortestPath` pattern, or with `all` an `allShortestPaths`: the planner it is planned with,
its chain and its path variable, if the path is bound. -/
structure ShortestPattern where
  planner : PatternPlanner
  head : ResolvedNode
  chain : List ResolvedStep
  binding : Option VarId
  all : Bool

namespace ShortestPattern

variable (p : ShortestPattern)

def element : ResolvedElement := .shortestPath p.all p.head p.chain

def headTests : List ResolvedExpr :=
  (buildPropertyPredicate p.head.var p.head.properties).toList ++ placedBy p.planner {p.head.var}

def steps : List PlannedStep := plannedSteps (p.planner.after {p.head.var}) p.chain

/-- The operators of the chain. -/
def chainOps : List PathOp := (planElement false p.planner ⟨p.binding, p.element⟩).2

end ShortestPattern

theorem planSteps_ops (planner : PatternPlanner) (src : VarId) (chain : List ResolvedStep) :
    (planSteps planner src chain).2 = stepOps src (plannedSteps planner chain) := by
  induction chain generalizing planner src with
  | nil => rfl
  | cons step chain ih =>
    change planExpand src step :: (PathPlan.attachReady (planner.bindVars step.vars) _).2 ++
      (planSteps (planner.after step.vars) step.node.var chain).2 = _
    rw [attachReady_ops, ih]
    rfl

theorem ShortestPattern.chainOps_eq (p : ShortestPattern) : p.chainOps =
    .step (.nodeScan p.head.var p.head.labels) :: filterOps p.headTests ++
      stepOps p.head.var p.steps := by
  change (.step (.nodeScan p.head.var p.head.labels) ::
    (PathPlan.attachReady (p.planner.bindVars {p.head.var}) _).2) ++
      (planSteps (p.planner.after {p.head.var}) p.head.var p.chain).2 = _
  rw [attachReady_ops, planSteps_ops]
  rfl

/-! ### Walks -/

/-- The walks along some steps from a node: the relationships of each step. -/
abbrev Hops := List Steps

/-- A walk of a pattern: the place of its input row, its start, and its relationships. -/
structure Walk where
  place : ℕ
  start : NodeId
  hops : Hops
deriving DecidableEq

namespace Walk

def stop (w : Walk) : NodeId := endpoint w.start w.hops.flatten

/-- The input row a walk belongs to, and the pair of nodes it joins. -/
def ends (w : Walk) : ℕ × NodeId × NodeId := (w.place, w.start, w.stop)

def length (w : Walk) : ℕ := w.hops.flatten.length

end Walk

/-! ### The walks of a chain -/

section Chain

variable (ctx : EvalContext)

def nodeFits (row : Row) (var : VarId) (id : NodeId) : Bool :=
  match boundNodeIdForExpand row var with
  | .ok bound => fits bound id
  | .error _ => false

def relFits (row : Row) (var : VarId) (id : RelationshipId) : Bool :=
  match boundRelationshipIdForExpand row var with
  | .ok bound => fits bound id
  | .error _ => false

/-- The row that one relationship extends a row to. -/
def hopRow (rel : Option VarId) (dst : VarId) (row : Row) (edge : RelationshipId × NodeId) : Row :=
  match rel with
  | some var => (row.bindNew dst (.node edge.2)).bindNew var (.relationship edge.1)
  | none => row.bindNew dst (.node edge.2)

namespace PathPlan.ResolvedStep

variable (s : ResolvedStep)

/-- A relationship has the properties of the step's inline map. -/
def hasProperties (row : Row) (rel : RelationshipId) : Bool :=
  match ctx.relPropertyFilter s.rel.properties row with
  | .ok expected => ctx.relKept expected rel
  | .error _ => false

/-- The ways along a step, in the order they are found. -/
def found (row : Row) (a : NodeId) : Hops :=
  match s.range with
  | none => ((ctx.storage.expandIds a s.rel.direction s.rel.types).filter fun edge =>
    s.hasProperties ctx row edge.1 &&
      (nodeFits row s.node.var edge.2 && s.rel.var.all (relFits row · edge.1))).map fun edge =>
        [edge]
  | some range => (levels (fun v => ctx.storage.expandIds v s.rel.direction s.rel.types) a
    (resolveRange range).1 (resolveRange range).2).filter fun es =>
      nodeFits row s.node.var (endpoint a es)

/-- The row a way along the step extends a row to. -/
def bind (row : Row) (a : NodeId) (es : Steps) : Row :=
  match s.range with
  | none =>
    match es with
    | [] => row
    | edge :: _ => hopRow s.rel.var s.node.var row edge
  | some _ => bindExpansion s.rel.var s.node.var row (resultOf s.rel.var.isSome a es)

/-- A way along the step in the graph: one relationship, or a path of the range, that fits what
the row binds. -/
def Matches (row : Row) (a : NodeId) (es : Steps) : Prop :=
  nodeFits row s.node.var (endpoint a es) = true ∧
    match s.range with
    | none => ∃ edge, es = [edge] ∧ Hop ctx.storage s.rel.types s.rel.direction a edge ∧
      s.hasProperties ctx row edge.1 = true ∧ ∀ var, s.rel.var = some var →
        relFits row var edge.1 = true
    | some range => PatternPath ctx.storage s.rel.types s.rel.direction range none a es

end PathPlan.ResolvedStep

/-- The walks along some steps, in the order they are found. -/
def hopsFrom (row : Row) (a : NodeId) : List PlannedStep → List Hops
  | [] => [[]]
  | s :: steps => ((s.step.found ctx row a).filter fun es =>
    passesAll ctx s.tests (s.step.bind row a es)).flatMap fun es =>
      (hopsFrom (s.step.bind row a es) (endpoint a es) steps).map (es :: ·)

/-- The row a walk extends a row to. -/
def rowAlong (row : Row) (a : NodeId) : List PlannedStep → Hops → Row
  | s :: steps, es :: hops => rowAlong (s.step.bind row a es) (endpoint a es) steps hops
  | _, _ => row

/-- The walks along some steps in the graph. -/
def IsHops (row : Row) (a : NodeId) : List PlannedStep → Hops → Prop
  | [], [] => True
  | s :: steps, es :: hops => s.step.Matches ctx row a es ∧
    passesAll ctx s.tests (s.step.bind row a es) = true ∧
    IsHops (s.step.bind row a es) (endpoint a es) steps hops
  | _, _ => False

/-- Every relationship of a walk has the properties its step asks for. -/
def HasProperties (row : Row) (a : NodeId) : List PlannedStep → Hops → Prop
  | s :: steps, es :: hops => (∀ edge ∈ es, s.step.hasProperties ctx row edge.1 = true) ∧
    HasProperties (s.step.bind row a es) (endpoint a es) steps hops
  | _, _ => True

variable {ctx} {s : ResolvedStep} {row : Row} {a : NodeId} {src : VarId}

theorem mem_found (hg : ctx.storage.Intact) {es : Steps} :
    es ∈ s.found ctx row a ↔ s.Matches ctx row a es := by
  rw [ResolvedStep.found, ResolvedStep.Matches]
  cases s.range with
  | none =>
    simp only [mem_map, mem_filter, hg.mem_expandIds, Bool.and_eq_true, Option.all_eq_true_iff_get]
    constructor
    · rintro ⟨edge, ⟨hhop, hprops, hnode, hrel⟩, rfl⟩
      refine ⟨hnode, edge, rfl, hhop, hprops, ?_⟩
      rintro var hvar
      simpa [hvar] using hrel
    · rintro ⟨hnode, edge, rfl, hhop, hprops, hrel⟩
      refine ⟨edge, ⟨hhop, hprops, hnode, fun h => ?_⟩, rfl⟩
      exact hrel _ (Option.some_get h).symm
  | some range =>
    rw [mem_filter, mem_levels, and_comm]
    refine and_congr_right fun _ => ?_
    constructor
    · rintro ⟨⟨hwalk, hnodup⟩, hlo, hhi⟩
      exact ⟨(isWalk_expandIds hg).mp hwalk, hnodup, hlo, hhi, by simp⟩
    · rintro ⟨hpath, hnodup, hlo, hhi, -⟩
      exact ⟨⟨(isWalk_expandIds hg).mpr hpath, hnodup⟩, hlo, hhi⟩

theorem nodup_found (hg : ctx.storage.Intact) : (s.found ctx row a).Nodup := by
  rw [ResolvedStep.found]
  cases s.range with
  | none => exact (hg.nodup_expandIds.filter _).map fun _ _ h => by simpa using h
  | some range => exact (nodup_levels (fun _ => hg.nodup_expandIds) _ _).filter _

/-- Hops are found exactly if they are in the graph. -/
theorem mem_hopsFrom (hg : ctx.storage.Intact) {steps : List PlannedStep} {hops : Hops} :
    hops ∈ hopsFrom ctx row a steps ↔ IsHops ctx row a steps hops := by
  induction steps generalizing row a hops with
  | nil => cases hops <;> simp [hopsFrom, IsHops]
  | cons s steps ih =>
    simp only [hopsFrom, mem_flatMap, mem_filter, mem_map, mem_found hg, ih]
    cases hops with
    | nil => simp [IsHops]
    | cons es hops =>
      rw [IsHops]
      constructor
      · rintro ⟨es', ⟨hmatches, hpasses⟩, hops', hrest, heq⟩
        obtain ⟨rfl, rfl⟩ := cons_eq_cons.mp heq
        exact ⟨hmatches, hpasses, hrest⟩
      · rintro ⟨hmatches, hpasses, hrest⟩
        exact ⟨es, ⟨hmatches, hpasses⟩, hops, hrest, rfl⟩

theorem nodup_hopsFrom (hg : ctx.storage.Intact) (row : Row) (a : NodeId)
    (steps : List PlannedStep) : (hopsFrom ctx row a steps).Nodup := by
  induction steps generalizing row a with
  | nil => exact nodup_singleton []
  | cons s steps ih =>
    rw [hopsFrom, nodup_flatMap]
    refine ⟨fun es _ => (ih _ _).map (cons_injective), ((nodup_found hg).filter _).imp ?_⟩
    intro es es' hne hops hhops hhops'
    obtain ⟨_, -, rfl⟩ := mem_map.mp hhops
    obtain ⟨_, -, h⟩ := mem_map.mp hhops'
    exact hne (cons_eq_cons.mp h).1.symm

/-! ### The rows of a chain -/

theorem fits_of_ok {var : VarId} {bound : Option (Option NodeId)} {id : NodeId}
    (h : boundNodeIdForExpand row var = .ok bound) : nodeFits row var id = fits bound id := by
  rw [nodeFits, h]

variable {out : List Row}

/-- The row of one relationship, if it fits. -/
theorem expandEdge_eq_found {rel : Option VarId} {dst : VarId} {edge : RelationshipId × NodeId}
    (hok : EvalContext.expandEdge rel dst row edge.1 edge.2 = .ok out) :
    out = if nodeFits row dst edge.2 && rel.all (relFits row · edge.1) then
      [hopRow rel dst row edge] else [] := by
  rw [EvalContext.expandEdge] at hok
  cases hdst : boundNodeIdForExpand row dst with
  | error err =>
    rw [hdst] at hok
    cases hok
  | ok bound =>
    rw [hdst] at hok
    rw [fits_of_ok hdst]
    change (if fits bound edge.2 = true then _ else _) = _ at hok
    cases hfits : fits bound edge.2 with
    | false =>
      rw [hfits] at hok
      exact (Except.ok.inj hok).symm
    | true =>
      rw [hfits, if_pos rfl] at hok
      cases rel with
      | none => exact (Except.ok.inj hok).symm
      | some var =>
        rw [EvalContext.bindRelationship] at hok
        cases hrel : boundRelationshipIdForExpand row var with
        | error err =>
          rw [hrel] at hok
          cases hok
        | ok boundRel =>
          rw [hrel] at hok
          have hout := Except.ok.inj hok
          simp only [Bool.true_and, Option.all_some, relFits, hrel]
          exact hout.symm

/-- The rows of an operator that is known for each row of its input. -/
theorem flatten_of_rows {α : Type} {f : Row → Except ExecutorError (List Row)} {row : α → Row}
    {given : α → List Row} {xs : List α} {outs : List (List Row)}
    (houts : Forall₂ (fun row out => f row = .ok out) (xs.map row) outs)
    (hf : ∀ x ∈ xs, ∀ rowOut, f (row x) = .ok rowOut → rowOut = given x) :
    outs.flatten = xs.flatMap given := by
  replace houts := forall₂_map_left_iff.mp houts
  induction houts with
  | nil => rfl
  | @cons x rowOut xs outs hx _ ih =>
    rw [flatten_cons, flatMap_cons, hf x mem_cons_self rowOut hx,
      ih fun x' hx' => hf x' (mem_cons_of_mem _ hx')]

theorem flatMap_singleton_if {α β : Type} (p : α → Bool) (f : α → β) (xs : List α) :
    (xs.flatMap fun x => if p x then [f x] else []) = (xs.filter p).map f := by
  induction xs with
  | nil => rfl
  | cons x xs ih => cases h : p x <;> simp [h, ih]

/-- A row **stands** at a node: the variable of the last node binds it, or a list of relationships
that took its place. -/
def Stands (row : Row) (src : VarId) (a : NodeId) : Prop :=
  row src = some (.node a) ∨ ∃ rels, row src = some (.list rels)

theorem bound_of_stands {bound : Option (Option NodeId)} (h : Stands row src a)
    (hok : boundNodeIdForExpand row src = .ok bound) : bound = some (some a) := by
  rw [boundNodeIdForExpand] at hok
  rcases h with h | ⟨rels, h⟩
  · rw [h] at hok
    exact (Except.ok.inj hok).symm
  · rw [h] at hok
    cases hok

theorem expandEdges_found {edges : Steps} {outs : List (List Row)}
    (houts : (edges.mapM fun edge =>
      EvalContext.expandEdge s.rel.var s.node.var row edge.1 edge.2) = .ok outs) :
    outs.flatten = (edges.filter fun edge => nodeFits row s.node.var edge.2 &&
      s.rel.var.all (relFits row · edge.1)).map (hopRow s.rel.var s.node.var row) := by
  rw [← flatMap_singleton_if]
  have hall := EvalContext.mapM_ok.mp houts
  clear houts
  induction hall with
  | nil => rfl
  | cons hedge _ ih => rw [flatten_cons, flatMap_cons, ih, expandEdge_eq_found hedge]

/-- An expansion along one relationship gives the row of each way it finds. -/
theorem expandRow_found (hrange : s.range = none) (hstands : Stands row src a)
    (hok : ctx.expandRow src s.rel.var s.node.var s.rel.types s.rel.direction s.rel.properties row =
      .ok out) :
    out = (s.found ctx row a).map (s.bind row a) := by
  have hbind : (s.bind row a) ∘ (fun edge => [edge]) = hopRow s.rel.var s.node.var row := by
    funext edge
    simp [ResolvedStep.bind, hrange]
  rw [ResolvedStep.found, hrange]
  simp only [map_map, hbind]
  rw [EvalContext.expandRow] at hok
  cases hsrc : boundNodeIdForExpand row src with
  | error err =>
    rw [hsrc] at hok
    cases hok
  | ok bound =>
    obtain rfl := bound_of_stands hstands hsrc
    rw [hsrc] at hok
    cases hempty : (ctx.storage.expandIds a s.rel.direction s.rel.types).isEmpty with
    | true =>
      simp only [Bind.bind, Except.bind, hempty, if_true] at hok
      rw [isEmpty_iff.mp hempty]
      exact (Except.ok.inj hok).symm
    | false =>
      cases hprops : ctx.relPropertyFilter s.rel.properties row with
      | error err =>
        simp only [Bind.bind, Except.bind, hempty, hprops] at hok
        cases hok
      | ok expected =>
        have hkept : ∀ rel, s.hasProperties ctx row rel = ctx.relKept expected rel := by
          intro rel
          rw [ResolvedStep.hasProperties, hprops]
        simp only [Bind.bind, Except.bind, hempty, hprops] at hok
        simp only [hkept]
        cases houts : ((ctx.storage.expandIds a s.rel.direction s.rel.types).filter
            fun edge => ctx.relKept expected edge.1).mapM
              fun edge => EvalContext.expandEdge s.rel.var s.node.var row edge.1 edge.2 with
        | error err =>
          rw [houts] at hok
          cases hok
        | ok outs =>
          rw [houts] at hok
          obtain rfl := Except.ok.inj hok
          rw [expandEdges_found houts, filter_filter]
          refine congrArg _ (filter_congr fun edge _ => ?_)
          rw [Bool.and_comm]

/-- A variable-length step gives a row for each of its hops. -/
theorem pullVarLenRow_found {range : RangeLiteral}
    (hrange : s.range = some range) (hstands : Stands row src a)
    (hok : pullVarLenRow ctx src s.rel.var s.node.var s.rel.types s.rel.direction range row =
      .ok out) :
    out = (s.found ctx row a).map (s.bind row a) := by
  rw [pullVarLenRow] at hok
  cases hsrc : boundNodeIdForExpand row src with
  | error err =>
    rw [hsrc] at hok
    cases hok
  | ok bound =>
    obtain rfl := bound_of_stands hstands hsrc
    rw [hsrc] at hok
    cases hdst : boundNodeIdForExpand row s.node.var with
    | error err =>
      simp only [Bind.bind, Except.bind, hdst] at hok
      cases hok
    | ok boundDst =>
      simp only [Bind.bind, Except.bind, hdst] at hok
      rw [← Except.ok.inj hok, ResolvedStep.found, hrange, varLenSteps]
      simp only [fits_of_ok hdst]
      refine map_congr_left fun es _ => ?_
      simp only [ResolvedStep.bind, hrange]

/-- A node that fits what a row binds is what the variable is bound to. -/
theorem bindNew_of_fits {var : VarId} {id : NodeId} (h : nodeFits row var id = true) :
    (row.bindNew var (.node id)) var = some (.node id) := by
  rw [Row.bindNew]
  split
  next hbound =>
    rw [nodeFits, boundNodeIdForExpand] at h
    cases hrow : row var with
    | none => simp [hrow] at hbound
    | some value =>
      rw [hrow] at h
      cases value <;> simp_all [fits]
  next => exact Row.insert_self _ _ _

theorem stands_bind {es : Steps} (h : s.Matches ctx row a es) :
    Stands (s.bind row a es) s.node.var (endpoint a es) := by
  obtain ⟨hfits, hway⟩ := h
  cases hrange : s.range with
  | none =>
    rw [hrange] at hway
    obtain ⟨edge, rfl, -⟩ := hway
    have hnode := bindNew_of_fits hfits
    refine Or.inl ?_
    rw [ResolvedStep.bind, hrange]
    change hopRow s.rel.var s.node.var row edge s.node.var = _
    cases hrel : s.rel.var with
    | none => exact hnode
    | some var => exact (grows_bindNew _ _ _).carries _ _ hnode
  | some range =>
    simp only [ResolvedStep.bind, hrange, bindExpansion]
    cases hrel : s.rel.var with
    | none => exact Or.inl (Row.insert_self _ _ _)
    | some var =>
      by_cases hvar : s.node.var = var
      · subst hvar
        exact Or.inr ⟨_, Row.insert_self _ _ _⟩
      · exact Or.inl ((Row.insert_of_ne _ _ hvar).trans (Row.insert_self _ _ _))

/-- A step of either kind gives, of each row, the row of each way it finds. -/
theorem planExpand_found {starts : List (Row × NodeId)}
    (hstands : ∀ start ∈ starts, Stands start.1 src start.2)
    (hok : pullOp ctx (planExpand src s) (starts.map Prod.fst) = .ok out) :
    out = starts.flatMap fun start =>
      (s.found ctx start.1 start.2).map (s.bind start.1 start.2) := by
  rw [planExpand] at hok
  cases hrange : s.range with
  | none =>
    rw [hrange] at hok
    obtain ⟨outs, houts, rfl⟩ := bind_flatten_ok.mp hok
    exact flatten_of_rows houts fun start hstart rowOut hrow =>
      expandRow_found hrange (hstands start hstart) hrow
  | some range =>
    rw [hrange] at hok
    obtain ⟨outs, houts, rfl⟩ := bind_flatten_ok.mp hok
    exact flatten_of_rows houts fun start hstart rowOut hrow =>
      pullVarLenRow_found hrange (hstands start hstart) hrow

/-- Along each step, the rows of the chain are those of the walks so far that find a way. -/
theorem pull_stepOps (hg : ctx.storage.Intact) {steps : List PlannedStep}
    {starts : List (Row × NodeId)}
    (hstands : ∀ start ∈ starts, Stands start.1 src start.2)
    (hok : pull ctx (stepOps src steps) (starts.map Prod.fst) = .ok out) :
    out = starts.flatMap fun start =>
      (hopsFrom ctx start.1 start.2 steps).map (rowAlong start.1 start.2 steps) := by
  induction steps generalizing src starts with
  | nil =>
    rw [← Except.ok.inj hok]
    simp only [hopsFrom, map_cons, map_nil, rowAlong]
    exact map_eq_flatMap
  | cons s steps ih =>
    rw [stepOps, cons_append, pull_cons_ok] at hok
    obtain ⟨mid, hmid, hok⟩ := hok
    obtain ⟨kept, hkept, hok⟩ := pull_append_ok.mp hok
    obtain rfl := pull_filterOps hkept
    have hmid' := planExpand_found hstands hmid
    set next : List (Row × NodeId) := starts.flatMap fun start =>
      ((s.step.found ctx start.1 start.2).filter fun es =>
        passesAll ctx s.tests (s.step.bind start.1 start.2 es)).map fun es =>
          (s.step.bind start.1 start.2 es, endpoint start.2 es) with hnext
    have hrows : mid.filter (passesAll ctx s.tests) = next.map Prod.fst := by
      rw [hmid', hnext, map_flatMap, filter_flatMap]
      refine flatMap_congr fun start _ => ?_
      rw [filter_map, map_map]
      rfl
    rw [hrows] at hok
    rw [ih (fun start hstart => ?_) hok, hnext, flatMap_assoc]
    · refine flatMap_congr fun start _ => ?_
      rw [hopsFrom, map_flatMap, flatMap_map]
      refine flatMap_congr fun es _ => ?_
      rw [map_map]
      rfl
    · obtain ⟨before, -, hstart⟩ := mem_flatMap.mp hstart
      obtain ⟨es, hes, rfl⟩ := mem_map.mp hstart
      exact stands_bind ((mem_found hg).mp (mem_filter.mp hes).1)

end Chain

namespace ShortestPattern

variable (p : ShortestPattern) (ctx : EvalContext)

/-- The nodes the scan gives for a row. -/
def scanned (row : Row) : List NodeId :=
  match row p.head.var with
  | some (.node id) => if nodeLabelsOk ctx.storage p.head.labels.groups id then [id] else []
  | none =>
    let ids := ctx.storage.scanNodeIdsForLabelGroups p.head.labels.groups
    if p.head.labels.groups.length ≤ 1 then ids
    else ids.filter (nodeLabelsOk ctx.storage p.head.labels.groups)
  | _ => []

/-- The nodes a walk can start from, in the order they are found. -/
def starts (row : Row) : List NodeId :=
  (p.scanned ctx row).filter fun id =>
    passesAll ctx p.headTests (row.bindNew p.head.var (.node id))

/-- The walks of the chain from the input rows, in the order they are found. -/
def walks (inputRows : List Row) : List Walk :=
  inputRows.zipIdx.flatMap fun input =>
    (p.starts ctx input.1).flatMap fun a =>
      (hopsFrom ctx (input.1.bindNew p.head.var (.node a)) a p.steps).map fun hops =>
        ⟨input.2, a, hops⟩

/-- The row of a walk of the chain. -/
def rowOf (inputRows : List Row) (w : Walk) : Row :=
  match inputRows[w.place]? with
  | some row => rowAlong (row.bindNew p.head.var (.node w.start)) w.start p.steps w.hops
  | none => Row.empty

/-- A walk of the chain in the graph, from one of the input rows. -/
def IsWalk (inputRows : List Row) (w : Walk) : Prop :=
  ∃ row, inputRows[w.place]? = some row ∧
    nodeLabelsOk ctx.storage p.head.labels.groups w.start = true ∧
    nodeFits row p.head.var w.start = true ∧
    passesAll ctx p.headTests (row.bindNew p.head.var (.node w.start)) = true ∧
    IsHops ctx (row.bindNew p.head.var (.node w.start)) w.start p.steps w.hops

/-- A walk that matches the pattern: no relationship twice, and each with the properties its
step asks for. -/
def Proper (inputRows : List Row) (w : Walk) : Prop :=
  (w.hops.flatten.map Prod.fst).Nodup ∧ ∀ row, inputRows[w.place]? = some row →
    HasProperties ctx (row.bindNew p.head.var (.node w.start)) w.start p.steps w.hops

variable {p ctx} {row : Row} {inputRows rows : List Row}

theorem mem_scanned (hg : ctx.storage.Intact) {a : NodeId} : a ∈ p.scanned ctx row ↔
    nodeLabelsOk ctx.storage p.head.labels.groups a = true ∧ nodeFits row p.head.var a = true := by
  have hscan := (hg.scan_perm p.head.labels.groups).mem_iff (a := a)
  have hnode : nodeLabelsOk ctx.storage p.head.labels.groups a = true →
      a ∈ ctx.storage.allNodeIds := by
    intro h
    obtain ⟨record, hrecord, -⟩ := nodeLabelsOk_iff.mp h
    exact mem_allNodeIds.mpr ⟨record, hrecord⟩
  rw [mem_filter] at hscan
  rw [scanned, nodeFits, boundNodeIdForExpand]
  cases hrow : row p.head.var with
  | none =>
    simp only [hscan, fits, and_true]
    exact and_iff_right_of_imp hnode
  | some value =>
    cases value with
    | node id =>
      by_cases hlabels : nodeLabelsOk ctx.storage p.head.labels.groups id = true
      · simp only [hlabels, if_true, mem_singleton, fits, beq_iff_eq, Option.some.injEq]
        constructor
        · rintro rfl
          exact ⟨hlabels, rfl⟩
        · exact fun h => h.2.symm
      · simp only [hlabels, fits, beq_iff_eq, Option.some.injEq]
        constructor
        · intro h
          cases h
        · rintro ⟨h, rfl⟩
          exact absurd h hlabels
    | _ => simp [fits]

theorem nodup_scanned (hg : ctx.storage.Intact) : (p.scanned ctx row).Nodup := by
  rw [scanned]
  split
  · split <;> simp
  · exact (hg.scan_perm p.head.labels.groups).nodup_iff.mpr (nodup_allNodeIds.filter _)
  · exact nodup_nil

theorem scanRow_scanned {out : List Row}
    (hok : ctx.scanRow p.head.var p.head.labels row = .ok out) :
    out = (p.scanned ctx row).map fun a => row.bindNew p.head.var (.node a) := by
  rw [EvalContext.scanRow] at hok
  cases hbound : boundNodeIdForExpand row p.head.var with
  | error err =>
    rw [hbound] at hok
    cases hok
  | ok bound =>
    rw [hbound] at hok
    rw [scanned]
    rcases boundNode_cases hbound with ⟨id, hrow, rfl⟩ | ⟨hrow, rfl⟩ | ⟨hrow, rfl⟩
    · rw [← Except.ok.inj hok, hrow]
      change (if nodeLabelsOk ctx.storage p.head.labels.groups id = true then _ else _) = _
      simp only [apply_ite (map _), map_cons, map_nil, Row.bindNew, hrow, Option.isSome_some,
        if_true]
    · rw [← Except.ok.inj hok, hrow]
      rfl
    · rw [← Except.ok.inj hok, hrow]
      refine map_congr_left fun a _ => ?_
      rw [Row.bindNew, hrow]
      rfl

/-- The walks are those of the pattern in the graph. -/
theorem mem_walks (hg : ctx.storage.Intact) {w : Walk} :
    w ∈ p.walks ctx inputRows ↔ p.IsWalk ctx inputRows w := by
  simp only [walks, starts, mem_flatMap, mem_map, mem_filter, mem_scanned hg, mem_hopsFrom hg,
    IsWalk]
  constructor
  · rintro ⟨⟨row, place⟩, hrow, a, ⟨⟨hlabels, hfits⟩, hpasses⟩, hops, hhops, rfl⟩
    exact ⟨row, mem_zipIdx_iff_getElem?.mp hrow, hlabels, hfits, hpasses, hhops⟩
  · rintro ⟨row, hrow, hlabels, hfits, hpasses, hhops⟩
    exact ⟨(row, w.place), mem_zipIdx_iff_getElem?.mpr hrow, w.start,
      ⟨⟨hlabels, hfits⟩, hpasses⟩, w.hops, hhops, rfl⟩

/-- Each walk is found once. -/
theorem nodup_walks (hg : ctx.storage.Intact) : (p.walks ctx inputRows).Nodup := by
  have hplace : ∀ {row place w}, w ∈ ((p.starts ctx row).flatMap fun a =>
      (hopsFrom ctx (row.bindNew p.head.var (.node a)) a p.steps).map fun hops =>
        Walk.mk place a hops) →
      w.place = place := by
    intro row place w hw
    obtain ⟨a, -, hw⟩ := mem_flatMap.mp hw
    obtain ⟨hops, -, rfl⟩ := mem_map.mp hw
    rfl
  rw [walks, nodup_flatMap]
  refine ⟨fun input _ => ?_, ?_⟩
  · rw [nodup_flatMap]
    refine ⟨fun a _ => (nodup_hopsFrom hg _ _ _).map fun _ _ h => (Walk.mk.inj h).2.2,
      ((nodup_scanned hg).filter _).imp fun {a a'} hne => ?_⟩
    intro w hw hw'
    obtain ⟨_, -, rfl⟩ := mem_map.mp hw
    obtain ⟨_, -, h⟩ := mem_map.mp hw'
    exact hne (Walk.mk.inj h).2.1.symm
  · have hplaces : (inputRows.zipIdx.map Prod.snd).Nodup := by
      rw [zipIdx_map_snd]
      exact nodup_range' ..
    refine (pairwise_map.mp hplaces).imp fun {input input'} hne => ?_
    intro w hw hw'
    exact hne ((hplace hw).symm.trans (hplace hw'))

/-- The rows of the chain are those of its walks. -/
theorem pull_chain (hg : ctx.storage.Intact) (hok : pull ctx p.chainOps inputRows = .ok rows) :
    rows = (p.walks ctx inputRows).map (p.rowOf inputRows) := by
  rw [chainOps_eq, cons_append, pull_cons_ok] at hok
  obtain ⟨mid, hmid, hok⟩ := hok
  obtain ⟨kept, hkept, hok⟩ := pull_append_ok.mp hok
  obtain rfl := pull_filterOps hkept
  obtain ⟨outs, houts, rfl⟩ := bind_flatten_ok.mp hmid
  have hmid' : outs.flatten = inputRows.flatMap fun row =>
      (p.scanned ctx row).map fun a => row.bindNew p.head.var (.node a) := by
    rw [← map_id inputRows] at houts
    exact flatten_of_rows houts fun row _ rowOut hrow => scanRow_scanned hrow
  set starts : List (Row × NodeId) := inputRows.flatMap fun row =>
    (p.starts ctx row).map fun a => (row.bindNew p.head.var (.node a), a) with hstarts
  have hrows : outs.flatten.filter (passesAll ctx p.headTests) = starts.map Prod.fst := by
    rw [hmid', hstarts, map_flatMap, filter_flatMap]
    refine flatMap_congr fun row _ => ?_
    rw [filter_map, map_map]
    rfl
  rw [hrows] at hok
  rw [pull_stepOps hg (fun start hstart => ?_) hok, hstarts, flatMap_assoc, walks, map_flatMap]
  · rw [← zipIdx_map_fst 0 inputRows, flatMap_map]
    simp only [zipIdx_map_fst]
    refine flatMap_congr fun input hinput => ?_
    rw [flatMap_map, map_flatMap]
    refine flatMap_congr fun a _ => ?_
    rw [map_map]
    refine map_congr_left fun hops _ => ?_
    simp [rowOf, mem_zipIdx_iff_getElem?.mp hinput]
  · obtain ⟨row, -, hstart⟩ := mem_flatMap.mp hstart
    obtain ⟨a, ha, rfl⟩ := mem_map.mp hstart
    exact Or.inl (bindNew_of_fits ((mem_scanned hg).mp (mem_filter.mp ha).1).2)

/-! ### The walks that are kept -/

variable (p ctx)

def nodeVars : List VarId := (collectChainVars p.element).1

def relVars : List VarId := (collectChainVars p.element).2

/-- The rows of the pattern, from those of its chain, all at once. -/
def buffered (rows : List Row) : List Row :=
  match p.binding with
  | some pathVar => filterShortestPaths
    (rows.map (attachPath ctx.storage pathVar p.nodeVars p.relVars)) pathVar p.all
  | none => rows

/-- The rows of the pattern, from those of its chain, one after another. -/
def streamed (rows : List Row) : List Row :=
  match p.binding with
  | some pathVar => shortestPathRows
    (rows.map (attachPath ctx.storage pathVar p.nodeVars p.relVars)) pathVar p.all
  | none => rows

/-- A row of the chain, with its path where that is bound. -/
def finish (row : Row) : Row :=
  match p.binding with
  | some pathVar => attachPath ctx.storage pathVar p.nodeVars p.relVars row
  | none => row

/-- The relationships that the variables of a walk's row hold. -/
def count (inputRows : List Row) (w : Walk) : ℕ := relCount p.relVars (p.rowOf inputRows w)

/-- The walks whose rows are kept. -/
def kept (inputRows : List Row) : List Walk :=
  match p.binding with
  | some _ => keepShortest (p.count inputRows) p.all (p.walks ctx inputRows)
  | none => p.walks ctx inputRows

/-- A match of the pattern than which none from the same input row between the same ends is
**shorter**. -/
def Shortest (inputRows : List Row) (w : Walk) : Prop :=
  p.Proper ctx inputRows w ∧ ∀ other ∈ p.walks ctx inputRows, p.Proper ctx inputRows other →
    other.ends = w.ends → w.length ≤ other.length

/-- Of each input row and pair of ends that a match of the pattern joins, every shortest match
or exactly one, and nothing else. -/
structure KeepsShortest (inputRows : List Row) (kept : List Walk) : Prop where
  sublist : kept.Sublist (p.walks ctx inputRows)
  shortest : ∀ w ∈ kept, p.Shortest ctx inputRows w
  every : p.all = true → ∀ w ∈ p.walks ctx inputRows, p.Shortest ctx inputRows w → w ∈ kept
  one : p.all = false → ∀ w ∈ p.walks ctx inputRows, p.Proper ctx inputRows w →
    ∃ v ∈ kept, v.ends = w.ends ∧ ∀ v' ∈ kept, v'.ends = w.ends → v' = v

/-- With a path variable: for `allShortestPaths`, the shortest matches are the walks that hold the
fewest relationships; for `shortestPath`, the first of these is a shortest match, and every match
joins its ends. Without one, every walk is a shortest match, and for `shortestPath` the only one
of its ends. -/
def OneLength (inputRows : List Row) : Prop :=
  match p.binding, p.all with
  | some _, true => ∀ w ∈ p.walks ctx inputRows, p.Shortest ctx inputRows w ↔
    ∀ other ∈ p.walks ctx inputRows, p.count inputRows w ≤ p.count inputRows other
  | some _, false => ∀ w, (least (p.count inputRows) (p.walks ctx inputRows)).head? = some w →
    p.Shortest ctx inputRows w ∧
      ∀ other ∈ p.walks ctx inputRows, p.Proper ctx inputRows other → other.ends = w.ends
  | none, true => ∀ w ∈ p.walks ctx inputRows, p.Shortest ctx inputRows w
  | none, false => ∀ w ∈ p.walks ctx inputRows, p.Shortest ctx inputRows w ∧
    ∀ other ∈ p.walks ctx inputRows, other.ends = w.ends → other = w

variable {p ctx}

/-- Streamed or buffered, the rows are the same. -/
theorem streamed_eq (rows : List Row) : p.streamed ctx rows = p.buffered ctx rows := by
  rw [streamed, buffered]
  cases p.binding with
  | some pathVar => exact shortestPathRows_eq _ _ _
  | none => rfl

/-- The rows that are kept are those of the walks kept. -/
theorem buffered_walks (inputRows : List Row) :
    p.buffered ctx ((p.walks ctx inputRows).map (p.rowOf inputRows)) =
      (p.kept ctx inputRows).map fun w => p.finish ctx (p.rowOf inputRows w) := by
  rw [buffered, kept]
  cases hbinding : p.binding with
  | none => simp only [finish, hbinding]
  | some pathVar =>
    simp only [finish, hbinding]
    rw [map_map, filterShortestPaths, keepShortest_map]
    simp only [Function.comp_apply, attachPath, pathLen_insert]
    rfl

/-- With `allShortestPaths`, the walks that hold the fewest relationships are kept. -/
theorem keepsLeast_all (hall : p.all = true) : p.KeepsShortest ctx inputRows
      (keepShortest (p.count inputRows) true (p.walks ctx inputRows)) ↔
    ∀ w ∈ p.walks ctx inputRows, p.Shortest ctx inputRows w ↔
      ∀ other ∈ p.walks ctx inputRows, p.count inputRows w ≤ p.count inputRows other := by
  rw [keepShortest_eq, if_pos rfl]
  constructor
  · intro h w hw
    exact ⟨fun hshortest => (mem_least.mp (h.every hall w hw hshortest)).2,
      fun hleast => h.shortest w (mem_least.mpr ⟨hw, hleast⟩)⟩
  · intro h
    refine ⟨filter_sublist, fun w hw => ?_, fun _ w hw hshortest => ?_, fun hone => ?_⟩
    · obtain ⟨hw, hleast⟩ := mem_least.mp hw
      exact (h w hw).mpr hleast
    · exact mem_least.mpr ⟨hw, (h w hw).mp hshortest⟩
    · rw [hall] at hone
      cases hone

/-- With `shortestPath`, the first of them is. -/
theorem keepsLeast_one (hall : p.all = false) : p.KeepsShortest ctx inputRows
      (keepShortest (p.count inputRows) false (p.walks ctx inputRows)) ↔
    ∀ w, (least (p.count inputRows) (p.walks ctx inputRows)).head? = some w →
      p.Shortest ctx inputRows w ∧ ∀ other ∈ p.walks ctx inputRows,
        p.Proper ctx inputRows other → other.ends = w.ends := by
  rw [keepShortest_eq, if_neg Bool.false_ne_true]
  cases hleast : least (p.count inputRows) (p.walks ctx inputRows) with
  | nil =>
    have hnil : p.walks ctx inputRows = [] := by
      by_contra hwalks
      exact least_ne_nil hwalks hleast
    constructor
    · rintro - w hw
      cases hw
    · refine fun _ => ⟨nil_sublist _, by simp, ?_, ?_⟩ <;> simp [hnil]
  | cons first rest =>
    have hmem : ∀ {v}, v ∈ (first :: rest).take 1 ↔ v = first := by simp
    constructor
    · rintro h w hw
      obtain rfl : first = w := Option.some.inj hw
      refine ⟨h.shortest first (hmem.mpr rfl), fun other hother hproper => ?_⟩
      obtain ⟨v, hv, hends, -⟩ := h.one hall other hother hproper
      rw [← hends, hmem.mp hv]
    · intro h
      obtain ⟨hshortest, hends⟩ := h first rfl
      refine ⟨?_, fun w hw => hmem.mp hw ▸ hshortest, fun hone => ?_, fun _ w hw hproper => ?_⟩
      · exact (take_sublist _ _).trans (hleast ▸ filter_sublist)
      · rw [hall] at hone
        cases hone
      · exact ⟨first, hmem.mpr rfl, (hends w hw hproper).symm, fun v hv _ => hmem.mp hv⟩

/-- Without a path variable every walk is kept. -/
theorem keepsAll_iff : p.KeepsShortest ctx inputRows (p.walks ctx inputRows) ↔
    (∀ w ∈ p.walks ctx inputRows, p.Shortest ctx inputRows w) ∧
      (p.all = false → ∀ w ∈ p.walks ctx inputRows, ∀ other ∈ p.walks ctx inputRows,
        other.ends = w.ends → other = w) := by
  constructor
  · intro h
    refine ⟨h.shortest, fun hall w hw other hother hends => ?_⟩
    obtain ⟨v, -, -, honly⟩ := h.one hall w hw (h.shortest w hw).1
    exact (honly other hother hends).trans (honly w hw rfl).symm
  · rintro ⟨hshortest, honly⟩
    exact ⟨Sublist.refl _, hshortest, fun _ w hw _ => hw, fun hall w hw _ =>
      ⟨w, hw, rfl, fun v hv => honly hall w hw v hv⟩⟩

/-- When the walks kept are the shortest matches of each pair of ends. -/
theorem keepsShortest_iff : p.KeepsShortest ctx inputRows (p.kept ctx inputRows) ↔
    p.OneLength ctx inputRows := by
  rw [kept, OneLength]
  cases p.binding with
  | some pathVar =>
    cases hall : p.all with
    | true => exact keepsLeast_all hall
    | false => exact keepsLeast_one hall
  | none =>
    rw [keepsAll_iff]
    cases p.all <;> simp [forall_and]

end ShortestPattern

/-- `p = shortestPath((a)-[r]->(b))` -/
def pairPath : ShortestPattern where
  planner := ⟨pairStats, ∅, [], ∅⟩
  head := ⟨⟨0⟩, ⟨[], fun _ h => absurd h not_mem_nil⟩, none⟩
  chain := [⟨⟨some ⟨1⟩, [], .right, none⟩, none,
    ⟨⟨2⟩, ⟨[], fun _ h => absurd h not_mem_nil⟩, none⟩⟩]
  binding := some ⟨3⟩
  all := false

/-- The rows of `UNWIND [1, 2] AS i`. -/
def twoRows : List Row := [Row.empty.insert ⟨4⟩ (.int 1), Row.empty.insert ⟨4⟩ (.int 2)]

theorem pull_pairPath : ∃ rows, pull pairContext pairPath.chainOps twoRows = .ok rows := by
  have hok : (pull pairContext pairPath.chainOps twoRows).isOk = true := by decide +kernel
  cases hrows : pull pairContext pairPath.chainOps twoRows with
  | error err =>
    rw [hrows] at hok
    cases hok
  | ok rows => exact ⟨rows, rfl⟩

end LoraDb
