import LoraDb.ChainReverse

/-!
# Pattern Plans That Cannot Fail

A plan fails when a test evaluates to an error, when an inline map of a relationship is no map,
or when a row binds a node's variable to something else. Where none of these can happen, every
plan of the pattern succeeds, whichever way its chains are walked.

## Main results

* `run_total`: a plan of quiet operators succeeds.
* `planMatch_quiet`: the operators of a plan of such a pattern are quiet.
-/

namespace LoraDb

open ResolvedExpr PatternPlanner List

/-- The nodes of a part. -/
def ResolvedPatternElement.nodes : ResolvedPatternElement → List ResolvedNode
  | .node head => [head]
  | .nodeChain head chain => chainNodes head chain

/-- The relationships of a part. -/
def ResolvedPatternElement.rels : ResolvedPatternElement → List ResolvedRel
  | .node _ => []
  | .nodeChain _ chain => chain.map ResolvedChain.rel

def ResolvedPattern.nodes (pattern : ResolvedPattern) : List ResolvedNode :=
  pattern.parts.flatMap ResolvedPatternElement.nodes

def ResolvedPattern.rels (pattern : ResolvedPattern) : List ResolvedRel :=
  pattern.parts.flatMap ResolvedPatternElement.rels

/-- An expression never evaluates to an error. -/
def Quiet (ctx : EvalContext) (e : ResolvedExpr) : Prop := ∀ row, (e.eval ctx row).error = none

/-- A row binds a node's variable to a node or to null, or not at all. -/
def NodeKinded (row : Row) (var : VarId) : Prop :=
  row var = none ∨ row var = some .null ∨ ∃ id, row var = some (.node id)

def RelKinded (row : Row) (var : VarId) : Prop :=
  row var = none ∨ row var = some .null ∨ ∃ id, row var = some (.relationship id)

/-- Nothing in a pattern, its WHERE or the rows it is matched for can fail. -/
structure Unfailing (ctx : EvalContext) (pattern : ResolvedPattern)
    (predicate : Option ResolvedExpr) (rows : List Row) : Prop where
  kinds : ∀ node ∈ pattern.nodes, ∀ rel ∈ pattern.rels, rel.var ≠ some node.var
  nodesKinded : ∀ row ∈ rows, ∀ node ∈ pattern.nodes, NodeKinded row node.var
  relsKinded : ∀ row ∈ rows, ∀ rel ∈ pattern.rels, ∀ var, rel.var = some var → RelKinded row var
  nodeMaps : ∀ node ∈ pattern.nodes, ∀ e ∈ propertyTests node.var node.properties, Quiet ctx e
  relMaps : ∀ rel ∈ pattern.rels, ∀ e, rel.properties = some e →
    ∀ row, ∃ expected, (e.eval ctx row).value = .map expected
  conjuncts : ∀ e, predicate = some e → ∀ c ∈ splitConjuncts e, Quiet ctx c

/-- An operator over the variables of some nodes and relationships that cannot fail. -/
def QuietOp (ctx : EvalContext) (nodes : List ResolvedNode) (rels : List ResolvedRel) :
    MatchOp → Prop
  | .nodeScan var _ => ∃ node ∈ nodes, var = node.var
  | .expand src relVar dst _ _ relProperties =>
    (∃ node ∈ nodes, src = node.var) ∧ (∃ node ∈ nodes, dst = node.var) ∧
      ∃ rel ∈ rels, relVar = rel.var ∧ relProperties = rel.properties
  | .filter predicate => Quiet ctx predicate

section Quiet

variable {ctx : EvalContext} {nodes : List ResolvedNode} {rels : List ResolvedRel} {row row' : Row}

theorem quiet_and {lhs rhs : ResolvedExpr} (hl : Quiet ctx lhs) (hr : Quiet ctx rhs) :
    Quiet ctx (.and lhs rhs) := by
  intro row
  rw [eval]
  by_cases hdecides : (lhs.eval ctx row).value.decidesAnd = true
  · simp [EvalM.error_bind, hdecides, hl row]
  · simp [EvalM.error_bind, hdecides, hl row, hr row]

theorem quiet_or {lhs rhs : ResolvedExpr} (hl : Quiet ctx lhs) (hr : Quiet ctx rhs) :
    Quiet ctx (.or lhs rhs) := fun row => (passes_or (hl row) (hr row)).1

variable {es : List ResolvedExpr}

theorem quiet_foldl_and {e : ResolvedExpr} (he : Quiet ctx e)
    (hes : ∀ e' ∈ es, Quiet ctx e') : Quiet ctx (es.foldl .and e) := by
  induction es generalizing e with
  | nil => exact he
  | cons e' es ih =>
    exact ih (quiet_and he (hes e' mem_cons_self))
      fun e'' he'' => hes e'' (mem_cons_of_mem _ he'')

theorem quiet_andAll (h : ∀ e ∈ es, Quiet ctx e) : ∀ e ∈ (andAll es).toList, Quiet ctx e := by
  cases es with
  | nil => simp [andAll]
  | cons e es =>
    intro e' he'
    obtain rfl : e' = es.foldl .and e := by simpa [andAll] using he'
    exact quiet_foldl_and (h e mem_cons_self) fun e' he' => h e' (mem_cons_of_mem _ he')

theorem quiet_filter (h : ∀ e ∈ es, Quiet ctx e) :
    ∀ op ∈ ((andAll es).map MatchOp.filter).toList, QuietOp ctx nodes rels op := by
  intro op hop
  obtain ⟨e, he, rfl⟩ := Option.map_eq_some_iff.mp (Option.mem_toList.mp hop)
  exact quiet_andAll h e (Option.mem_toList.mpr he)

theorem quiet_hasLabelCall (var : VarId) (label : String) : Quiet ctx (hasLabelCall var label) :=
  fun _ => rfl

variable {var : VarId}

theorem quiet_foldl_or {acc : ResolvedExpr} {labels : List String} (hacc : Quiet ctx acc) :
    Quiet ctx (labels.foldl (fun acc label => .or acc (hasLabelCall var label)) acc) := by
  induction labels generalizing acc with
  | nil => exact hacc
  | cons label labels ih => exact ih (quiet_or hacc (quiet_hasLabelCall var label))

theorem quiet_labels {groups : List (List String)} :
    ∀ e ∈ (buildLabelPredicate var groups).toList, Quiet ctx e := by
  refine quiet_andAll fun e he => ?_
  obtain ⟨group, -, hgroup⟩ := List.mem_filterMap.mp he
  cases group with
  | nil => cases hgroup
  | cons label labels =>
    obtain rfl := Option.some.inj hgroup
    exact quiet_foldl_or (quiet_hasLabelCall var label)

/-! ### Runs that succeed -/

/-- The rows that operators over some nodes and relationships work with. -/
structure Kinded (nodes : List ResolvedNode) (rels : List ResolvedRel) (row : Row) : Prop where
  nodes : ∀ node ∈ nodes, NodeKinded row node.var
  rels : ∀ rel ∈ rels, ∀ var, rel.var = some var → RelKinded row var

theorem boundNode_ok (h : NodeKinded row var) :
    ∃ bound, boundNodeIdForExpand row var = .ok bound := by
  rw [boundNodeIdForExpand]
  rcases h with h | h | ⟨id, h⟩
  · exact ⟨_, by rw [h]⟩
  · exact ⟨_, by rw [h]⟩
  · exact ⟨_, by rw [h]⟩

theorem boundRelationship_ok (h : RelKinded row var) :
    ∃ bound, boundRelationshipIdForExpand row var = .ok bound := by
  rw [boundRelationshipIdForExpand]
  rcases h with h | h | ⟨id, h⟩
  · exact ⟨_, by rw [h]⟩
  · exact ⟨_, by rw [h]⟩
  · exact ⟨_, by rw [h]⟩

variable {node : ResolvedNode}

/-- Binding a node keeps the rows kinded where no name stands for both kinds. -/
theorem Kinded.insertNode (hkinds : ∀ node ∈ nodes, ∀ rel ∈ rels, rel.var ≠ some node.var)
    (h : Kinded nodes rels row) (hnode : node ∈ nodes) (id : NodeId) :
    Kinded nodes rels (row.insert node.var (.node id)) where
  nodes := by
    intro node' hnode'
    by_cases heq : node'.var = node.var
    · exact Or.inr (Or.inr ⟨id, by rw [heq, Row.insert_self]⟩)
    · rw [NodeKinded, Row.insert_of_ne _ _ heq]
      exact h.nodes node' hnode'
  rels := by
    intro rel hrel var hvar
    have hne : var ≠ node.var := by
      rintro rfl
      exact hkinds node hnode rel hrel hvar
    rw [RelKinded, Row.insert_of_ne _ _ hne]
    exact h.rels rel hrel var hvar

theorem Kinded.insertRel (hkinds : ∀ node ∈ nodes, ∀ rel ∈ rels, rel.var ≠ some node.var)
    (h : Kinded nodes rels row) {rel : ResolvedRel} (hrel : rel ∈ rels)
    (hvar : rel.var = some var) (id : RelationshipId) :
    Kinded nodes rels (row.insert var (.relationship id)) where
  nodes := by
    intro node hnode
    have hne : node.var ≠ var := by
      rintro rfl
      exact hkinds node hnode rel hrel hvar
    rw [NodeKinded, Row.insert_of_ne _ _ hne]
    exact h.nodes node hnode
  rels := by
    intro rel' hrel' var' hvar'
    by_cases heq : var' = var
    · exact Or.inr (Or.inr ⟨id, by rw [heq, Row.insert_self]⟩)
    · rw [RelKinded, Row.insert_of_ne _ _ heq]
      exact h.rels rel' hrel' var' hvar'

theorem expandEdge_total (hkinds : ∀ node ∈ nodes, ∀ rel ∈ rels, rel.var ≠ some node.var)
    (h : Kinded nodes rels row) (hnode : node ∈ nodes) {rel : ResolvedRel}
    (hrel : rel ∈ rels) (e : RelationshipId) (b : NodeId) :
    ∃ out, EvalContext.expandEdge rel.var node.var row e b = .ok out ∧
      ∀ row' ∈ out, Kinded nodes rels row' := by
  obtain ⟨bound, hbound⟩ := boundNode_ok (h.nodes node hnode)
  have hnew : Kinded nodes rels (row.bindNew node.var (.node b)) := by
    rw [Row.bindNew]
    split
    · exact h
    · exact h.insertNode hkinds hnode b
  have hrelationship : ∃ out, EvalContext.bindRelationship rel.var row
      (row.bindNew node.var (.node b)) e = .ok out ∧ ∀ row' ∈ out, Kinded nodes rels row' := by
    cases hvar : rel.var with
    | none => exact ⟨_, rfl, by simpa using hnew⟩
    | some var =>
      obtain ⟨boundRel, hboundRel⟩ := boundRelationship_ok (h.rels rel hrel var hvar)
      rw [EvalContext.bindRelationship, hboundRel]
      refine ⟨_, rfl, fun row' hrow' => ?_⟩
      split at hrow'
      · obtain rfl := List.mem_singleton.mp hrow'
        rw [Row.bindNew]
        split
        · exact hnew
        · exact hnew.insertRel hkinds hrel hvar e
      · cases hrow'
  rw [EvalContext.expandEdge, hbound]
  change ∃ out, (if fits bound b = true then _ else _) = _ ∧ _
  split
  · exact hrelationship
  · exact ⟨[], rfl, by simp⟩

theorem mapM_total {α : Type} {f : α → Except ExecutorError (List Row)} (P : Row → Prop)
    (as : List α) (h : ∀ a ∈ as, ∃ out, f a = .ok out ∧ ∀ row ∈ out, P row) :
    ∃ outs, as.mapM f = .ok outs ∧ ∀ row ∈ outs.flatten, P row := by
  induction as with
  | nil => exact ⟨[], rfl, by simp⟩
  | cons a as ih =>
    obtain ⟨out, hout, hP⟩ := h a mem_cons_self
    obtain ⟨outs, houts, hPs⟩ := ih fun a' ha' => h a' (mem_cons_of_mem _ ha')
    refine ⟨out :: outs, ?_, ?_⟩
    · rw [mapM_cons, hout, houts]
      rfl
    · intro row hrow
      rw [flatten_cons] at hrow
      rcases List.mem_append.mp hrow with hrow | hrow
      · exact hP row hrow
      · exact hPs row hrow

theorem runRow_total (hkinds : ∀ node ∈ nodes, ∀ rel ∈ rels, rel.var ≠ some node.var)
    (hmaps : ∀ rel ∈ rels, ∀ e, rel.properties = some e →
      ∀ row, ∃ expected, (e.eval ctx row).value = .map expected)
    {op : MatchOp} (hop : QuietOp ctx nodes rels op) (h : Kinded nodes rels row) :
    ∃ out, ctx.runRow op row = .ok out ∧ ∀ row' ∈ out, Kinded nodes rels row' := by
  cases op with
  | nodeScan var labels =>
    obtain ⟨node, hnode, rfl⟩ := hop
    obtain ⟨bound, hbound⟩ := boundNode_ok (h.nodes node hnode)
    rw [EvalContext.runRow, EvalContext.scanRow, hbound]
    rcases boundNode_cases hbound with ⟨id, -, rfl⟩ | ⟨-, rfl⟩ | ⟨-, rfl⟩
    · refine ⟨_, rfl, fun row' hrow' => ?_⟩
      split at hrow'
      · obtain rfl := List.mem_singleton.mp hrow'
        exact h
      · cases hrow'
    · exact ⟨[], rfl, by simp⟩
    · refine ⟨_, rfl, fun row' hrow' => ?_⟩
      obtain ⟨id, -, rfl⟩ := List.mem_map.mp hrow'
      exact h.insertNode hkinds hnode id
  | expand src relVar dst types direction relProperties =>
    obtain ⟨⟨srcNode, hsrc, rfl⟩, ⟨node, hnode, rfl⟩, rel, hrel, rfl, rfl⟩ := hop
    obtain ⟨bound, hbound⟩ := boundNode_ok (h.nodes srcNode hsrc)
    rw [EvalContext.runRow, EvalContext.expandRow, hbound]
    rcases boundNode_cases hbound with ⟨id, -, rfl⟩ | ⟨-, rfl⟩ | ⟨-, rfl⟩
    · have hfilter : ∃ expected, ctx.relPropertyFilter rel.properties row = .ok expected := by
        cases hprops : rel.properties with
        | none => exact ⟨none, rfl⟩
        | some e =>
          obtain ⟨expected, hexpected⟩ := hmaps rel hrel e hprops row
          exact ⟨some expected, by rw [EvalContext.relPropertyFilter, hexpected]⟩
      obtain ⟨expected, hexpected⟩ := hfilter
      obtain ⟨outs, houts, hall⟩ := mapM_total (Kinded nodes rels)
        ((ctx.storage.expandIds id direction types).filter
          fun edge => ctx.relKept expected edge.1)
        (fun edge _ => expandEdge_total hkinds h hnode hrel edge.1 edge.2)
      cases hedges : (ctx.storage.expandIds id direction types).isEmpty with
      | true =>
        refine ⟨[], ?_, by simp⟩
        simp only [bind, Except.bind, hedges, if_true]
        rfl
      | false =>
        refine ⟨outs.flatten, ?_, hall⟩
        simp only [bind, Except.bind, hedges, hexpected, houts]
        rfl
    · exact ⟨[], rfl, by simp⟩
    · exact ⟨[], rfl, by simp⟩
  | filter predicate =>
    rw [EvalContext.runRow, EvalContext.evalTruthy, hop row]
    refine ⟨_, rfl, fun row' hrow' => ?_⟩
    split at hrow'
    · obtain rfl := List.mem_singleton.mp hrow'
      exact h
    · cases hrow'

/-- A plan of quiet operators succeeds. -/
theorem run_total (hkinds : ∀ node ∈ nodes, ∀ rel ∈ rels, rel.var ≠ some node.var)
    (hmaps : ∀ rel ∈ rels, ∀ e, rel.properties = some e →
      ∀ row, ∃ expected, (e.eval ctx row).value = .map expected)
    {ops : List MatchOp} (hops : ∀ op ∈ ops, QuietOp ctx nodes rels op) {rows : List Row}
    (h : ∀ row ∈ rows, Kinded nodes rels row) : ∃ out, ctx.run ops rows = .ok out := by
  induction ops generalizing rows with
  | nil => exact ⟨rows, rfl⟩
  | cons op ops ih =>
    obtain ⟨outs, houts, hall⟩ := mapM_total (Kinded nodes rels) rows
      fun row hrow => runRow_total hkinds hmaps (hops op mem_cons_self) (h row hrow)
    obtain ⟨out, hout⟩ := ih (fun op' hop' => hops op' (mem_cons_of_mem _ hop')) hall
    refine ⟨out, ?_⟩
    rw [EvalContext.run, houts]
    exact hout

/-! ### Plans of quiet operators -/

variable {p : PatternPlanner}

theorem quiet_attachReady {checks : List ResolvedExpr}
    (hchecks : ∀ e ∈ checks, Quiet ctx e) (hpending : ∀ c ∈ p.pending, Quiet ctx c.expr) :
    ∀ op ∈ (p.attachReady checks).2, QuietOp ctx nodes rels op := by
  refine quiet_filter fun e he => ?_
  rcases List.mem_append.mp he with he | he
  · exact hchecks e he
  · obtain ⟨c, hc, rfl⟩ := List.mem_map.mp he
    exact hpending c (List.mem_filter.mp hc).1

theorem quiet_properties (hmap : ∀ e ∈ propertyTests node.var node.properties, Quiet ctx e) :
    ∀ e ∈ (buildPropertyPredicate node.var node.properties).toList, Quiet ctx e :=
  quiet_andAll hmap

/-- A relationship binds the variable and has the inline map of one of `rels`. -/
def RelOf (rels : List ResolvedRel) (rel : ResolvedRel) : Prop :=
  ∃ rel' ∈ rels, rel.var = rel'.var ∧ rel.properties = rel'.properties

theorem quiet_planSteps {src : VarId} {chain : List ResolvedChain}
    (hmaps : ∀ node ∈ nodes, ∀ e ∈ propertyTests node.var node.properties, Quiet ctx e)
    (hsrc : ∃ node ∈ nodes, src = node.var)
    (hchain : ∀ step ∈ chain, step.node ∈ nodes ∧ RelOf rels step.rel)
    (hpending : ∀ c ∈ p.pending, Quiet ctx c.expr) :
    ∀ op ∈ (p.planSteps src chain).2, QuietOp ctx nodes rels op := by
  induction chain generalizing p src with
  | nil => simp [planSteps]
  | cons step chain ih =>
    obtain ⟨hnode, hrel⟩ := hchain step mem_cons_self
    have hchecks : ∀ e ∈ stepChecks step.node, Quiet ctx e := by
      intro e he
      rcases List.mem_append.mp he with he | he
      · exact quiet_labels e he
      · exact quiet_properties (hmaps _ hnode) e he
    intro op hop
    rw [planSteps_cons] at hop
    rcases List.mem_cons.mp hop with rfl | hop
    · exact ⟨hsrc, ⟨step.node, hnode, rfl⟩, hrel⟩
    · rcases List.mem_append.mp hop with hop | hop
      · exact quiet_attachReady (p := p.bindVars step.vars) hchecks hpending op hop
      · exact ih ⟨step.node, hnode, rfl⟩
          (fun step' hstep' => hchain step' (mem_cons_of_mem _ hstep'))
          (fun c hc => hpending c (after_waits hc).1) op hop

theorem quiet_planNodeChain {head : ResolvedNode} {chain : List ResolvedChain}
    (hmaps : ∀ node ∈ nodes, ∀ e ∈ propertyTests node.var node.properties, Quiet ctx e)
    (hnodes : ∀ node ∈ chainNodes head chain, node ∈ nodes)
    (hrels : ∀ step ∈ chain, RelOf rels step.rel) (hpending : ∀ c ∈ p.pending, Quiet ctx c.expr) :
    ∀ op ∈ (p.planNodeChain head chain).2, QuietOp ctx nodes rels op := by
  have hhead := hnodes head mem_cons_self
  intro op hop
  rw [planNodeChain_eq] at hop
  rcases List.mem_cons.mp hop with rfl | hop
  · exact ⟨head, hhead, rfl⟩
  · rcases List.mem_append.mp hop with hop | hop
    · exact quiet_attachReady (p := p.bindVars {head.var}) (quiet_properties (hmaps _ hhead))
        hpending op hop
    · exact quiet_planSteps hmaps ⟨head, hhead, rfl⟩
        (fun step hstep => ⟨hnodes _ (mem_cons_of_mem _ (mem_map_of_mem hstep)), hrels step hstep⟩)
        (fun c hc => hpending c (after_waits hc).1) op hop

variable {choice : WalkChoice} {part : ResolvedPatternElement}

/-- A part is planned with operators over its own nodes and relationships, whichever way it
is walked. -/
theorem quiet_planElement
    (hmaps : ∀ node ∈ nodes, ∀ e ∈ propertyTests node.var node.properties, Quiet ctx e)
    (hnodes : ∀ node ∈ part.nodes, node ∈ nodes) (hrels : ∀ rel ∈ part.rels, rel ∈ rels)
    (hpending : ∀ c ∈ p.pending, Quiet ctx c.expr) :
    ∀ op ∈ (p.planElement choice part).2, QuietOp ctx nodes rels op := by
  cases part with
  | node head =>
    have hquiet := @quiet_planNodeChain _ _ rels p head [] hmaps hnodes (by simp) hpending
    simpa [planElement, planNodeChain, planSteps] using hquiet
  | nodeChain head chain =>
    have hwritten : ∀ step ∈ chain, RelOf rels step.rel := fun step hstep =>
      ⟨step.rel, hrels _ (mem_map_of_mem hstep), rfl, rfl⟩
    rw [planElement]
    split
    · refine quiet_planNodeChain hmaps
        (fun node hnode => hnodes node (mem_chainNodes_reverse.mp hnode)) ?_ hpending
      intro step hstep
      obtain ⟨step', hstep', heq⟩ := step_of_reverse hstep
      rw [heq]
      exact hwritten step' hstep'
    · exact quiet_planNodeChain hmaps hnodes hwritten hpending

theorem planElement_pending :
    (p.planElement choice part).1 = p.after part.vars := by
  cases part with
  | node head => rfl
  | nodeChain head chain =>
    rw [planElement]
    split
    · rw [planNodeChain_fst, chainVars_reverse]
      rfl
    · rw [planNodeChain_fst]
      rfl

variable {parts : List ResolvedPatternElement}

theorem planParts_cons :
    p.planParts choice (part :: parts) = (((p.after part.vars).planParts choice parts).1,
        (p.planElement choice part).2 ++ ((p.after part.vars).planParts choice parts).2) := by
  rw [← @planElement_pending p choice part]
  rfl

/-- What waits after a pattern does not depend on how its chains are walked. -/
theorem planParts_fst {choice choice' : WalkChoice} :
    (p.planParts choice parts).1 = (p.planParts choice' parts).1 := by
  induction parts generalizing p with
  | nil => rfl
  | cons part parts ih =>
    rw [planParts_cons, planParts_cons]
    exact ih

variable {c : PendingConjunct}

theorem planParts_pending (hc : c ∈ (p.planParts choice parts).1.pending) : c ∈ p.pending := by
  induction parts generalizing p with
  | nil => exact hc
  | cons part parts ih =>
    rw [planParts_cons] at hc
    exact (after_waits (ih hc)).1

theorem quiet_planParts
    (hmaps : ∀ node ∈ nodes, ∀ e ∈ propertyTests node.var node.properties, Quiet ctx e)
    (hparts : ∀ part ∈ parts, (∀ node ∈ part.nodes, node ∈ nodes) ∧ ∀ rel ∈ part.rels, rel ∈ rels)
    (hpending : ∀ c ∈ p.pending, Quiet ctx c.expr) :
    ∀ op ∈ (p.planParts choice parts).2, QuietOp ctx nodes rels op := by
  induction parts generalizing p with
  | nil => simp [planParts]
  | cons part parts ih =>
    intro op hop
    rw [planParts_cons] at hop
    obtain ⟨hnodes, hrels⟩ := hparts part mem_cons_self
    rcases List.mem_append.mp hop with hop | hop
    · exact quiet_planElement hmaps hnodes hrels hpending op hop
    · exact ih (fun part' hpart' => hparts part' (mem_cons_of_mem _ hpart'))
        (fun c hc => hpending c (after_waits hc).1) op hop

variable {predicate : Option ResolvedExpr}

theorem mem_whereConjuncts {vars : Finset VarId} (hc : c ∈ whereConjuncts vars predicate) :
    c.needs = conjunctNeeds vars c.expr ∧ ∃ e, predicate = some e ∧ c.expr ∈ splitConjuncts e := by
  obtain ⟨⟨conjunct, order⟩, hmem, rfl⟩ := List.mem_map.mp hc
  refine ⟨rfl, ?_⟩
  have hconjunct := fst_mem_of_mem_zipIdx hmem
  cases predicate with
  | none => simp at hconjunct
  | some e => exact ⟨e, rfl, by simpa using hconjunct⟩

/-- A conjunct that needs anything names every pattern variable it reads. -/
theorem whereConjuncts_reads {vars : Finset VarId}
    (hc : c ∈ whereConjuncts vars predicate) (hneeds : c.needs ≠ ∅) :
    c.expr.varsWith false ∩ vars ⊆ c.needs := by
  have heq := (mem_whereConjuncts hc).1
  have hne : conjunctNeeds vars c.expr ≠ ∅ := by
    rw [← heq]
    exact hneeds
  rw [heq]
  rw [conjunctNeeds, conjunctVars] at hne ⊢
  by_cases hinspect : c.expr.inspectable = true
  · rw [if_pos hinspect]
  · rw [if_neg hinspect] at hne
    exact absurd rfl hne

/-- A plan of a pattern that cannot fail has quiet operators only. -/
theorem planMatch_quiet {pattern : ResolvedPattern}
    {rows : List Row} (h : Unfailing ctx pattern predicate rows) (choice : WalkChoice)
    (stats : GraphStats) (bound : Finset VarId) :
    ∀ op ∈ planMatch choice stats bound pattern predicate,
      QuietOp ctx pattern.nodes pattern.rels op := by
  have hconjunct : ∀ c ∈ whereConjuncts (collectPatternVarSet pattern) predicate,
      Quiet ctx c.expr := by
    intro c hc
    obtain ⟨-, e, he, hmem⟩ := mem_whereConjuncts hc
    exact h.conjuncts e he _ hmem
  have hpending : ∀ c ∈ (patternPlanner stats bound pattern predicate).pending,
      Quiet ctx c.expr := fun c hc => hconjunct c (List.mem_filter.mp hc).1
  intro op hop
  rcases List.mem_append.mp hop with hop | hop
  · refine quiet_planParts h.nodeMaps (fun part hpart => ⟨fun node hnode => ?_,
      fun rel hrel => ?_⟩) hpending op hop
    · exact List.mem_flatMap.mpr ⟨part, hpart, hnode⟩
    · exact List.mem_flatMap.mpr ⟨part, hpart, hrel⟩
  · refine quiet_filter (fun e he => ?_) op hop
    obtain ⟨c, hc, rfl⟩ := List.mem_map.mp he
    rcases List.mem_append.mp (List.mem_mergeSort.mp hc) with hc | hc
    · exact hconjunct c (List.mem_filter.mp hc).1
    · exact hpending c (planParts_pending hc)

/-- A pattern that cannot fail succeeds, whichever way its chains are walked. -/
theorem planMatch_total {pattern : ResolvedPattern}
    {rows : List Row} (h : Unfailing ctx pattern predicate rows) (choice : WalkChoice)
    (stats : GraphStats) (bound : Finset VarId) :
    ∃ out, ctx.run (planMatch choice stats bound pattern predicate) rows = .ok out :=
  run_total h.kinds h.relMaps (planMatch_quiet h choice stats bound)
    fun row hrow => ⟨h.nodesKinded row hrow, h.relsKinded row hrow⟩

end Quiet

end LoraDb
