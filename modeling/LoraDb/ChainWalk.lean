import LoraDb.PatternJoins

/-!
# Walking a Chain

A chain is planned as a scan and one expansion after the other, each followed by the tests
whose variables are bound by then. Where no inline map reads a variable that the chain itself
binds, the rows are those of one join of the chain's triples, tested once everything is bound:
a test made earlier reads nothing that is bound later.

## Main results

* `run_planSteps`: the rows of the steps, as a join.
* `run_planNodeChain`: the rows of a whole chain, as a join.
* `planNodeChain_fst`: what waits, and what is bound, after a chain.
-/

open Classical

namespace LoraDb

open InMemoryGraph Joins ResolvedExpr PatternPlanner List

/-- The nodes of a chain. -/
def chainNodes (head : ResolvedNode) (chain : List ResolvedChain) : List ResolvedNode :=
  head :: chain.map ResolvedChain.node

theorem mem_stepVars {chain : List ResolvedChain} {var : VarId} :
    var ∈ stepVars chain ↔ ∃ step ∈ chain, step.rel.var = some var ∨ var = step.node.var := by
  induction chain with
  | nil => simp [stepVars]
  | cons step chain ih =>
    rw [stepVars, Finset.mem_union, ih, ResolvedChain.vars, Finset.mem_union,
      Option.mem_toFinset, Finset.mem_singleton, exists_mem_cons_iff]
    rfl

theorem mem_chainVars {head : ResolvedNode} {chain : List ResolvedChain} {var : VarId} :
    var ∈ chainVars head chain ↔ (∃ node ∈ chainNodes head chain, var = node.var) ∨
        ∃ step ∈ chain, step.rel.var = some var := by
  simp only [chainVars, Finset.mem_union, Finset.mem_singleton, mem_stepVars, chainNodes,
    mem_cons, mem_map]
  constructor
  · rintro (rfl | ⟨step, hstep, hrel | rfl⟩)
    · exact Or.inl ⟨head, Or.inl rfl, rfl⟩
    · exact Or.inr ⟨step, hstep, hrel⟩
    · exact Or.inl ⟨step.node, Or.inr ⟨step, hstep, rfl⟩, rfl⟩
  · rintro (⟨node, rfl | ⟨step, hstep, rfl⟩, rfl⟩ | ⟨step, hstep, hrel⟩)
    · exact Or.inl rfl
    · exact Or.inr ⟨step, hstep, Or.inr rfl⟩
    · exact Or.inr ⟨step, hstep, Or.inl hrel⟩

/-! ### The planner along a chain -/

namespace PatternPlanner

/-- The planner once some more variables are bound, and what waited for them is placed. -/
def after (p : PatternPlanner) (vars : Finset VarId) : PatternPlanner :=
  { p with
    available := p.available ∪ vars
    pending := p.pending.filter fun c => ¬ c.needs ⊆ p.available ∪ vars }

variable {p : PatternPlanner} {vars vars' : Finset VarId}

theorem after_after : (p.after vars).after vars' = p.after (vars ∪ vars') := by
  simp only [after, Finset.union_assoc, filter_filter]
  congr 1
  refine filter_congr fun c _ => ?_
  by_cases h : c.needs ⊆ p.available ∪ vars
  · have h' : c.needs ⊆ p.available ∪ (vars ∪ vars') :=
      h.trans (Finset.union_subset_union_right Finset.subset_union_left)
    simp [h, h']
  · simp [h]

theorem after_waits {c : PendingConjunct} (hc : c ∈ (p.after vars).pending) :
    c ∈ p.pending ∧ ¬ c.needs ⊆ (p.after vars).available := by
  obtain ⟨hmem, hneeds⟩ := List.mem_filter.mp hc
  exact ⟨hmem, of_decide_eq_true hneeds⟩

variable {chain : List ResolvedChain}

theorem planSteps_cons {src : VarId} {step : ResolvedChain} :
    p.planSteps src (step :: chain) = (((p.after step.vars).planSteps step.node.var chain).1,
        planExpand src step :: (((p.bindVars step.vars).attachReady (stepChecks step.node)).2 ++
          ((p.after step.vars).planSteps step.node.var chain).2)) := rfl

theorem planNodeChain_eq {head : ResolvedNode} :
    p.planNodeChain head chain = (((p.after {head.var}).planSteps head.var chain).1,
        .nodeScan head.var head.labels :: (((p.bindVars {head.var}).attachReady
            (buildPropertyPredicate head.var head.properties).toList).2 ++
          ((p.after {head.var}).planSteps head.var chain).2)) := rfl

theorem planSteps_fst {src : VarId} :
    ((p.after vars).planSteps src chain).1 = p.after (vars ∪ stepVars chain) := by
  induction chain generalizing vars src with
  | nil => simp [planSteps, stepVars]
  | cons step chain ih =>
    rw [planSteps_cons, after_after, ih, stepVars, Finset.union_assoc]

/-- What waits after a chain depends on the variables of the chain only. -/
theorem planNodeChain_fst {head : ResolvedNode} :
    (p.planNodeChain head chain).1 = p.after (chainVars head chain) := by
  rw [planNodeChain_eq, planSteps_fst, chainVars]

end PatternPlanner

/-! ### Runs, row by row -/

section Runs

variable {ctx : EvalContext} {row : Row} {ops : List MatchOp}

/-- A plan gives, as a multiset, what it gives for each row. -/
theorem run_eq_bind {rows out : List Row} {f : Row → Multiset Row}
    (hok : ctx.run ops rows = .ok out)
    (hrow : ∀ row ∈ rows, ∀ out', ctx.run ops [row] = .ok out' → (out' : Multiset Row) = f row) :
    (out : Multiset Row) = (rows : Multiset Row).bind f := by
  obtain ⟨outs, hall, rfl⟩ := EvalContext.run_eq_ok.mp hok
  clear hok
  induction hall with
  | nil => rfl
  | @cons row out' rows outs h _ ih =>
    rw [flatten_cons, ← Multiset.coe_add, ← Multiset.cons_coe, Multiset.cons_bind,
      hrow row mem_cons_self out' h,
      ih fun row' hrow' => hrow row' (mem_cons_of_mem _ hrow')]

/-- The first operator of a plan, and the rest of it. -/
theorem run_cons_row {op : MatchOp} {out : List Row} (hok : ctx.run (op :: ops) [row] = .ok out) :
    ∃ mid, ctx.runRow op row = .ok mid ∧ ctx.run ops mid = .ok out := by
  obtain ⟨mid, hmid, hrest⟩ := EvalContext.run_cons_eq_ok.mp hok
  obtain ⟨mid', rest, h, hnil, rfl⟩ := List.forall₂_cons_left_iff.mp hmid
  obtain rfl := List.forall₂_nil_left_iff.mp hnil
  exact ⟨mid', h, by simpa using hrest⟩

/-- A filter, and the rest of a plan. -/
theorem run_checks_append {checks : List ResolvedExpr} {out : List Row} {m : Multiset Row}
    (hok : ctx.run (((andAll checks).map MatchOp.filter).toList ++ ops) [row] = .ok out)
    (hrest : ∀ out', ctx.run ops [row] = .ok out' → (out' : Multiset Row) = m) :
    (out : Multiset Row) = if ∀ e ∈ checks, Passes ctx e row then m else 0 := by
  obtain ⟨mid, hmid, hok⟩ := EvalContext.run_append.mp hok
  rcases run_checks hmid with ⟨rfl, hpass⟩ | ⟨rfl, hfail⟩
  · rw [if_pos hpass, hrest out hok]
  · rw [EvalContext.run_nil_rows] at hok
    obtain rfl := Except.ok.inj hok
    rw [if_neg hfail]
    rfl

end Runs

/-! ### Settled tests -/

/-- `row` is `start` with some of the variables in `vars` bound that `start` leaves unbound. -/
def Extends (vars : Finset VarId) (start row : Row) : Prop :=
  ∀ var, start var ≠ none ∨ var ∉ vars → row var = start var

/-- What a chain's inline maps and the pending conjuncts may read for its rows not to depend on
the order it is walked in: nothing that the chain binds, but for variables bound before and a
node map's own node. -/
structure Settled (vars known : Finset VarId) (nodes : List ResolvedNode)
    (chain : List ResolvedChain) (pending : List PendingConjunct) : Prop where
  nodeMaps : ∀ node ∈ nodes, ∀ e, node.properties = some e →
    e.collectVars ∩ vars ⊆ known ∪ {node.var}
  relMaps : ∀ step ∈ chain, ∀ e, step.rel.properties = some e → e.collectVars ∩ vars ⊆ known
  /-- No name stands for a node and a relationship. -/
  kinds : ∀ step ∈ chain, ∀ r, step.rel.var = some r → ∀ node ∈ nodes, r ≠ node.var
  conjuncts : ∀ c ∈ pending, c.expr.varsWith false ∩ vars ⊆ c.needs

/-- A node has its pattern's labels and passes its inline map. -/
def NodeOk (ctx : EvalContext) (node : ResolvedNode) (row : Row) : Prop :=
  LabelsOk ctx.storage node.var node.labels.groups row ∧
    ∀ e ∈ propertyTests node.var node.properties, Passes ctx e row

/-- The conjuncts that read no more than some variables pass. -/
def PendingOk (ctx : EvalContext) (pending : List PendingConjunct) (available : Finset VarId)
    (row : Row) : Prop :=
  ∀ c ∈ pending, c.needs ⊆ available → Passes ctx c.expr row

section Settled

variable {ctx : EvalContext} {vars known : Finset VarId} {start row row' : Row}
  {nodes : List ResolvedNode} {chain : List ResolvedChain} {pending : List PendingConjunct}

theorem Extends.trans {row'' : Row} (h : Extends vars row row') (h' : Extends vars row' row'') :
    Extends vars row row'' := by
  intro var hvar
  have hsame := h var hvar
  rw [h' var (by rw [hsame]; exact hvar), hsame]

/-- An expression reads alike in a row and its extension, if the row binds what it reads. -/
theorem Extends.agree {reads : Finset VarId} (h : Extends vars row row')
    (hreads : ∀ var ∈ reads, var ∈ vars → row var ≠ none) : AgreeOn reads row row' := by
  intro var hvar
  by_cases hmem : var ∈ vars
  · exact (h var (Or.inl (hreads var hvar hmem))).symm
  · exact (h var (Or.inr hmem)).symm

theorem extends_of_joins {tables : List (Table VarId LoraValue)} (hmem : row' ∈ joins tables row)
    (hnames : ∀ T ∈ tables, ∀ var, Names T var → var ∈ vars) : Extends vars row row' :=
  fun var hvar => joins_keeps hmem <| hvar.imp_right fun hvar T hT hname =>
    hvar (hnames T hT var hname)

theorem labelsOk_congr {var : VarId} {groups : List (List String)} (h : row' var = row var) :
    LabelsOk ctx.storage var groups row' ↔ LabelsOk ctx.storage var groups row := by
  rw [LabelsOk, LabelsOk, h]

theorem mem_varsWithAll {locals : Bool} {e : ResolvedExpr} {es : List ResolvedExpr} (h : e ∈ es) :
    e.varsWith locals ⊆ varsWithAll locals es := by
  induction es with
  | nil => cases h
  | cons e' es ih =>
    rw [varsWithAll]
    rcases List.mem_cons.mp h with rfl | h
    · exact Finset.subset_union_left
    · exact (ih h).trans Finset.subset_union_right

/-- The tests of an inline map read its node and what the map reads. -/
theorem varsWith_propertyTests {var : VarId} {properties : Option ResolvedExpr}
    {test : ResolvedExpr} (h : test ∈ propertyTests var properties) :
    ∃ e, properties = some e ∧ test.varsWith true ⊆ {var} ∪ e.collectVars := by
  unfold propertyTests at h
  split at h
  next keys values =>
    obtain ⟨⟨key, value⟩, hmem, rfl⟩ := List.mem_map.mp h
    refine ⟨_, rfl, ?_⟩
    have hvalue : value.varsWith true ⊆ varsWithAll true values :=
      mem_varsWithAll (of_mem_zip hmem).2
    intro v hv
    simp only [varsWith, varsWithAll, Finset.union_empty, Finset.mem_union,
      Finset.mem_singleton, collectVars] at hv ⊢
    rcases hv with rfl | hv
    · exact Or.inl rfl
    · exact Or.inr (hvalue hv)
  next => cases h

/-- An inline map tests alike in a row that binds its node and in every extension of it. -/
theorem Settled.passes_test (h : Settled vars known nodes chain pending) {node : ResolvedNode}
    (hnode : node ∈ nodes) (hknown : ∀ var ∈ known, row var ≠ none)
    (hvar : row node.var ≠ none) (hext : Extends vars row row') {test : ResolvedExpr}
    (htest : test ∈ propertyTests node.var node.properties) :
    Passes ctx test row ↔ Passes ctx test row' := by
  obtain ⟨e, he, hreads⟩ := varsWith_propertyTests htest
  refine @passes_congr _ _ _ true _ (hext.agree fun var hmem hin => ?_)
  rcases Finset.mem_union.mp (hreads hmem) with heq | hread
  · obtain rfl := Finset.mem_singleton.mp heq
    exact hvar
  · rcases Finset.mem_union.mp
      (h.nodeMaps node hnode e he (Finset.mem_inter.mpr ⟨hread, hin⟩)) with hk | heq
    · exact hknown var hk
    · obtain rfl := Finset.mem_singleton.mp heq
      exact hvar

/-- A conjunct whose variables are all bound tests alike in every extension. -/
theorem Settled.passes_conjunct (h : Settled vars known nodes chain pending)
    {c : PendingConjunct} (hc : c ∈ pending) (hneeds : ∀ var ∈ c.needs, row var ≠ none)
    (hext : Extends vars row row') : Passes ctx c.expr row ↔ Passes ctx c.expr row' :=
  @passes_congr _ _ _ false _ <| hext.agree fun var hmem hin =>
    hneeds var (h.conjuncts c hc (Finset.mem_inter.mpr ⟨hmem, hin⟩))

/-- A relationship's map asks for the same properties in every extension. -/
theorem Settled.relKept (h : Settled vars known nodes chain pending) {step : ResolvedChain}
    (hstep : step ∈ chain) (hknown : ∀ var ∈ known, start var ≠ none)
    (hext : Extends vars start row) :
    RelKept ctx step.rel.properties row = RelKept ctx step.rel.properties start := by
  funext rel
  refine propext (forall₂_congr fun e he => ?_)
  rw [@eval_congr _ true e _ _ (hext.agree fun var hmem hin =>
    hknown var (h.relMaps step hstep e he (Finset.mem_inter.mpr ⟨hmem, hin⟩)))]

end Settled

/-! ### The rows of a chain -/

/-- The steps of a chain: two nodes, and the relationship between them. -/
def edgesOf (src : VarId) : List ResolvedChain → List (VarId × ResolvedRel × VarId)
  | [] => []
  | step :: chain => (src, step.rel, step.node.var) :: edgesOf step.node.var chain

/-- The triples of one step, whose inline map is evaluated in `start`. -/
noncomputable def tableOf (ctx : EvalContext) (start : Row) (edge : VarId × ResolvedRel × VarId) :
    Table VarId LoraValue :=
  edgeTable ctx.storage edge.1 edge.2.1.var edge.2.2 edge.2.1.types edge.2.1.direction
    (RelKept ctx edge.2.1.properties start)

noncomputable def stepTables (ctx : EvalContext) (start : Row) (src : VarId)
    (chain : List ResolvedChain) : List (Table VarId LoraValue) :=
  (edgesOf src chain).map (tableOf ctx start)

section Walk

variable {ctx : EvalContext} {vars known : Finset VarId} {start row : Row} {p : PatternPlanner}
  {nodes : List ResolvedNode} {chain : List ResolvedChain}

theorem names_tableOf {edge : VarId × ResolvedRel × VarId} {var : VarId}
    (h : Names (tableOf ctx start edge) var) :
    var = edge.1 ∨ var = edge.2.2 ∨ edge.2.1.var = some var := by
  obtain ⟨entry, hentry, e, he, rfl⟩ := h
  rw [tableOf, edgeTable] at hentry
  obtain ⟨t, -, rfl⟩ := Multiset.mem_map.mp hentry
  rcases List.mem_cons.mp he with rfl | he
  · exact Or.inl rfl
  · rcases List.mem_cons.mp he with rfl | he
    · exact Or.inr (Or.inl rfl)
    · obtain ⟨r, hr, rfl⟩ := List.mem_map.mp he
      exact Or.inr (Or.inr (Option.mem_toList.mp hr))

/-- The steps name the variables of the chain. -/
theorem names_stepTables {src var : VarId} {T : Table VarId LoraValue}
    (hT : T ∈ stepTables ctx start src chain) (hname : Names T var) :
    var = src ∨ var ∈ stepVars chain := by
  induction chain generalizing src with
  | nil => cases hT
  | cons step chain ih =>
    rw [stepVars, Finset.mem_union, ResolvedChain.vars, Finset.mem_union, Option.mem_toFinset,
      Finset.mem_singleton]
    rcases List.mem_cons.mp hT with rfl | hT
    · rcases names_tableOf hname with rfl | rfl | hrel
      · exact Or.inl rfl
      · exact Or.inr (Or.inl (Or.inr rfl))
      · exact Or.inr (Or.inl (Or.inl hrel))
    · rcases ih hT with rfl | hmem
      · exact Or.inr (Or.inl (Or.inr rfl))
      · exact Or.inr (Or.inr hmem)

/-- What a triple's row binds. -/
theorem binds_of_mem_table {edge : VarId × ResolvedRel × VarId} {row' : Row}
    (hmem : row' ∈ join (tableOf ctx start edge) row) (hintact : ctx.storage.Intact) :
    (∃ a b record, row' edge.1 = some (.node a) ∧ row' edge.2.2 = some (.node b) ∧
      ctx.storage.nodeAt a ≠ none ∧ ctx.storage.nodeAt b = some record) ∧
      ∀ r, edge.2.1.var = some r → row' r ≠ none := by
  obtain ⟨entry, hentry, hput⟩ := mem_join.mp hmem
  rw [tableOf, edgeTable] at hentry
  obtain ⟨⟨a, e, b⟩, ht, rfl⟩ := Multiset.mem_map.mp hentry
  have hedge := hintact.mem_directedEdges.mp
    (Multiset.mem_coe.mp (Multiset.mem_of_mem_filter ht))
  have hends : (∃ record, ctx.storage.nodeAt a = some record) ∧
      ∃ record, ctx.storage.nodeAt b = some record := by
    rcases hedge with ⟨-, record, hrecord, rfl, rfl, -⟩ | ⟨-, ⟨record, hrecord, rfl, rfl, -⟩, -⟩
    · exact ⟨hintact.endpoints _ _ hrecord .out, hintact.endpoints _ _ hrecord .into⟩
    · exact ⟨hintact.endpoints _ _ hrecord .into, hintact.endpoints _ _ hrecord .out⟩
  obtain ⟨⟨recordA, hrecordA⟩, recordB, hrecordB⟩ := hends
  refine ⟨⟨a, b, recordB, ?_, ?_, by simp [hrecordA], hrecordB⟩, fun r hr => ?_⟩
  · exact putAll_binds hput mem_cons_self
  · exact putAll_binds hput (mem_cons_of_mem _ mem_cons_self)
  · have hbound : row' r = some (.relationship e) := putAll_binds hput
      (mem_cons_of_mem _ (mem_cons_of_mem _
        (List.mem_map.mpr ⟨r, Option.mem_toList.mpr hr, rfl⟩)))
    simp [hbound]

/-- What the tests made at one node, and those made later, come to for a row of the chain. -/
theorem settled_checks (h : Settled vars known nodes chain p.pending) {node : ResolvedNode}
    (hnode : node ∈ nodes) {bound : Finset VarId} (later : Finset VarId)
    {checks : List ResolvedExpr} {row' : Row}
    (hchecks : (∀ e ∈ checks, Passes ctx e row) ↔ NodeOk ctx node row)
    (hknown : ∀ var ∈ known, row var ≠ none) (hvar : row node.var ≠ none)
    (hbound : ∀ var ∈ p.available ∪ bound, row var ≠ none) (hext : Extends vars row row') :
    ((∀ e ∈ checks ++ (p.pending.filter fun c => c.needs ⊆ p.available ∪ bound).map
        PendingConjunct.expr, Passes ctx e row) ∧
      PendingOk ctx (p.after bound).pending ((p.after bound).available ∪ later) row') ↔
    NodeOk ctx node row' ∧ PendingOk ctx p.pending (p.available ∪ (bound ∪ later)) row' := by
  have hnodeOk : NodeOk ctx node row ↔ NodeOk ctx node row' := by
    rw [NodeOk, NodeOk, labelsOk_congr (hext node.var (Or.inl hvar))]
    refine and_congr_right fun _ => forall₂_congr fun e he => ?_
    exact h.passes_test hnode hknown hvar hext he
  have hready : ∀ c ∈ p.pending, c.needs ⊆ p.available ∪ bound →
      (Passes ctx c.expr row ↔ Passes ctx c.expr row') := fun c hc hneeds =>
    h.passes_conjunct hc (fun var hmem => hbound var (hneeds hmem)) hext
  rw [forall_mem_append, hchecks, hnodeOk, and_assoc]
  refine and_congr_right fun _ => ?_
  simp only [forall_mem_map, mem_filter, PendingOk, PatternPlanner.after, Finset.union_assoc,
    decide_eq_true_eq]
  constructor
  · rintro ⟨hnow, hlater⟩ c hc hneeds
    by_cases hready' : c.needs ⊆ p.available ∪ bound
    · exact (hready c hc hready').mp (hnow c ⟨hc, hready'⟩)
    · exact hlater c ⟨hc, hready'⟩ hneeds
  · intro hall
    refine ⟨fun c hc => (hready c hc.1 hc.2).mpr (hall c hc.1 (hc.2.trans ?_)),
      fun c hc => hall c hc.1⟩
    exact Finset.union_subset_union_right Finset.subset_union_left

theorem Settled.after (h : Settled vars known nodes chain p.pending) (bound : Finset VarId) :
    Settled vars known nodes chain (p.after bound).pending :=
  ⟨h.nodeMaps, h.relMaps, h.kinds, fun c hc => h.conjuncts c (after_waits hc).1⟩

theorem stepChecks_iff {node : ResolvedNode} {id : NodeId} {record : NodeRecord}
    (hrow : row node.var = some (.node id)) (hrecord : ctx.storage.nodeAt id = some record) :
    (∀ e ∈ stepChecks node, Passes ctx e row) ↔ NodeOk ctx node row := by
  rw [stepChecks, forall_mem_append, passes_labels hrow hrecord, passes_properties, NodeOk]

theorem known_bound (hknown : ∀ var ∈ known, start var ≠ none) (hext : Extends vars start row) :
    ∀ var ∈ known, row var ≠ none := by
  intro var hvar
  rw [hext var (Or.inl (hknown var hvar))]
  exact hknown var hvar

/-- The rows the steps of a chain give are a join, tested at the end. -/
theorem run_planSteps {steps : List ResolvedChain} (hintact : ctx.storage.Intact)
    (hknown : ∀ var ∈ known, start var ≠ none) {src : VarId} {out : List Row}
    (hsettled : Settled vars known nodes steps p.pending)
    (hsteps : ∀ step ∈ chain, step ∈ steps ∧ step.node ∈ nodes)
    (hsrcIn : src ∈ vars) (hvars : stepVars chain ⊆ vars) (hext : Extends vars start row)
    (hsrc : ∃ a, row src = some (.node a)) (havail : ∀ var ∈ p.available, row var ≠ none)
    (hwait : ∀ c ∈ p.pending, ¬ c.needs ⊆ p.available)
    (hok : ctx.run (p.planSteps src chain).2 [row] = .ok out) :
    (out : Multiset Row) = (joins (stepTables ctx start src chain) row).filter fun u =>
      (∀ step ∈ chain, NodeOk ctx step.node u) ∧
        PendingOk ctx p.pending (p.available ∪ stepVars chain) u := by
  induction chain generalizing p src row out with
  | nil =>
    obtain rfl := Except.ok.inj hok
    have hpass : (∀ step ∈ ([] : List ResolvedChain), NodeOk ctx step.node row) ∧
        PendingOk ctx p.pending (p.available ∪ stepVars []) row := by
      refine ⟨by simp, fun c hc hneeds => absurd ?_ (hwait c hc)⟩
      simpa [stepVars] using hneeds
    change ({row} : Multiset Row) = Multiset.filter _ {row}
    rw [Multiset.filter_singleton, if_pos hpass]
  | cons step chain ih =>
    obtain ⟨a, hsrc⟩ := hsrc
    obtain ⟨hstep, hnode⟩ := hsteps step mem_cons_self
    rw [stepVars] at hvars
    have hstepIn : step.vars ⊆ vars := Finset.subset_union_left.trans hvars
    have hdstIn : step.node.var ∈ vars :=
      hstepIn (Finset.mem_union_right _ (Finset.mem_singleton_self _))
    rw [planSteps_cons] at hok
    obtain ⟨mid, hmid, hok⟩ := run_cons_row hok
    have hmidJoin : (mid : Multiset Row) =
        join (tableOf ctx start (src, step.rel, step.node.var)) row := by
      rw [expandRow_eq_join hsrc (fun r hr => hsettled.kinds step hstep r hr _ hnode) hmid,
        hsettled.relKept hstep hknown hext]
      rfl
    rw [run_eq_bind hok (f := fun row' => (joins (stepTables ctx start step.node.var chain)
      row').filter fun u => (∀ step' ∈ step :: chain, NodeOk ctx step'.node u) ∧
        PendingOk ctx p.pending (p.available ∪ stepVars (step :: chain)) u) ?_,
      hmidJoin, ← Multiset.filter_bind]
    · rfl
    · intro row' hrow' out' hok'
      have hmem : row' ∈ join (tableOf ctx start (src, step.rel, step.node.var)) row := by
        rw [← hmidJoin]
        exact Multiset.mem_coe.mpr hrow'
      obtain ⟨⟨a', b, record, -, hb, -, hrecord⟩, hrel⟩ := binds_of_mem_table hmem hintact
      have hextStep : Extends vars row row' := by
        have hjoins : row' ∈
            joins [tableOf ctx start (src, step.rel, step.node.var)] row := by
          simpa [joins] using hmem
        refine extends_of_joins hjoins fun T hT var hname => ?_
        obtain rfl := List.mem_singleton.mp hT
        rcases names_tableOf hname with rfl | rfl | hname
        · exact hsrcIn
        · exact hdstIn
        · exact hstepIn (Finset.mem_union_left _ (Option.mem_toFinset.mpr hname))
      have hext' := hext.trans hextStep
      have hbound : ∀ var ∈ p.available ∪ step.vars, row' var ≠ none := by
        intro var hvar
        rcases Finset.mem_union.mp hvar with hvar | hvar
        · rw [hextStep var (Or.inl (havail var hvar))]
          exact havail var hvar
        · rcases Finset.mem_union.mp hvar with hvar | hvar
          · exact hrel var (Option.mem_toFinset.mp hvar)
          · obtain rfl := Finset.mem_singleton.mp hvar
            simp [hb]
      have hrest : ∀ out'', ctx.run ((p.after step.vars).planSteps step.node.var chain).2
          [row'] = .ok out'' → (out'' : Multiset Row) = _ := fun out'' hok'' =>
        ih (hsettled.after step.vars)
          (fun step' hstep' => hsteps step' (mem_cons_of_mem _ hstep')) hdstIn
          (Finset.subset_union_right.trans hvars) hext' ⟨b, hb⟩ hbound
          (fun c hc => (after_waits hc).2) hok''
      rw [run_checks_append hok' hrest]
      have hsettles : ∀ u ∈ joins (stepTables ctx start step.node.var chain) row',
          Extends vars row' u := fun u hu => extends_of_joins hu fun T hT var hname => by
        rcases names_stepTables hT hname with rfl | hmem
        · exact hdstIn
        · exact hvars (Finset.mem_union_right _ hmem)
      refine ite_filter fun u hu => ?_
      have hchecks := settled_checks hsettled hnode (stepVars chain)
        (stepChecks_iff hb hrecord) (known_bound hknown hext') (by simp [hb]) hbound
        (hsettles u hu)
      rw [forall_mem_cons, stepVars, and_assoc, and_left_comm, ← hchecks]
      tauto

/-- The rows a whole chain gives are a join with its triples, tested at the end. -/
theorem run_planNodeChain {head : ResolvedNode} (hintact : ctx.storage.Intact)
    (hknown : ∀ var ∈ known, start var ≠ none) {out : List Row}
    (hsettled : Settled (chainVars head chain) known (chainNodes head chain) chain p.pending)
    (havail : ∀ var ∈ p.available, start var ≠ none)
    (hok : ctx.run (p.planNodeChain head chain).2 [start] = .ok out) :
    (out : Multiset Row) = (joins (column head.var (nodeValues ctx.storage) ::
        stepTables ctx start head.var chain) start).filter fun u =>
      (∀ node ∈ chainNodes head chain, NodeOk ctx node u) ∧
        PendingOk ctx p.pending (p.available ∪ chainVars head chain) u := by
  have hhead : head ∈ chainNodes head chain := mem_cons_self
  have hheadIn : head.var ∈ chainVars head chain :=
    Finset.mem_union_left _ (Finset.mem_singleton_self _)
  rw [planNodeChain_eq] at hok
  obtain ⟨mid, hmid, hok⟩ := run_cons_row hok
  have hmidJoin := scanRow_eq_join hintact hmid
  rw [run_eq_bind hok (f := fun row' => (joins (stepTables ctx start head.var chain)
    row').filter fun u => (∀ node ∈ chainNodes head chain, NodeOk ctx node u) ∧
      PendingOk ctx p.pending (p.available ∪ chainVars head chain) u) ?_,
    hmidJoin, Multiset.bind_filter, joins, Multiset.filter_bind]
  · refine Multiset.bind_congr fun row' hrow' => ?_
    obtain ⟨a, -, hput⟩ := mem_join_column.mp hrow'
    refine ite_filter fun u hu => (and_iff_right_of_imp ?_).symm
    rintro ⟨hnodes, -⟩
    have hsame : u head.var = row' head.var := joins_keeps hu (Or.inl (by simp [put_self hput]))
    exact (labelsOk_congr hsame).mp (hnodes head hhead).1
  · intro row' hrow' out' hok'
    have hmem : row' ∈ (join (column head.var (nodeValues ctx.storage)) start).filter
        (LabelsOk ctx.storage head.var head.labels.groups) := by
      rw [← hmidJoin]
      exact Multiset.mem_coe.mpr hrow'
    obtain ⟨hjoin, hlabels⟩ := Multiset.mem_filter.mp hmem
    have hfound := hlabels
    obtain ⟨id, record, hid, hrecord, -⟩ := hfound
    have hext : Extends (chainVars head chain) start row' := by
      obtain ⟨a, -, hput⟩ := mem_join_column.mp hjoin
      intro var hvar
      refine put_keeps hput (hvar.imp_right ?_)
      rintro hnot rfl
      exact hnot hheadIn
    have hbound : ∀ var ∈ p.available ∪ {head.var}, row' var ≠ none := by
      intro var hvar
      rcases Finset.mem_union.mp hvar with hvar | hvar
      · rw [hext var (Or.inl (havail var hvar))]
        exact havail var hvar
      · obtain rfl := Finset.mem_singleton.mp hvar
        simp [hid]
    have hrest : ∀ out'', ctx.run ((p.after {head.var}).planSteps head.var chain).2
        [row'] = .ok out'' → (out'' : Multiset Row) = _ := fun out'' hok'' =>
      run_planSteps hintact hknown (hsettled.after {head.var})
        (fun step hstep => ⟨hstep, mem_cons_of_mem _ (mem_map_of_mem hstep)⟩) hheadIn
        Finset.subset_union_right hext ⟨id, hid⟩ hbound (fun c hc => (after_waits hc).2) hok''
    rw [run_checks_append hok' hrest]
    refine ite_filter fun u hu => ?_
    have hextends : Extends (chainVars head chain) row' u :=
      extends_of_joins hu fun T hT var hname => by
        rcases names_stepTables hT hname with rfl | hmem
        · exact hheadIn
        · exact Finset.mem_union_right _ hmem
    have htests : (∀ e ∈ (buildPropertyPredicate head.var head.properties).toList,
        Passes ctx e row') ↔ NodeOk ctx head row' := by
      rw [passes_properties, NodeOk]
      exact (and_iff_right hlabels).symm
    have hchecks := settled_checks hsettled hhead (stepVars chain) htests
      (known_bound hknown hext) (by simp [hid]) hbound hextends
    rw [chainNodes, forall_mem_cons, forall_mem_map, chainVars, and_assoc, and_left_comm, ← hchecks]
    tauto

end Walk

end LoraDb
