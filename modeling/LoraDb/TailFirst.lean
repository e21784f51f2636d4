import LoraDb.PatternBinds
import LoraDb.PatternTotal
import LoraDb.GraphRuns

/-!
# Walking from the Tail

The planner walks a chain from its last node when that looks cheaper. It does not look for an
inline map that reads a variable of the chain itself: walked as written the variable is bound
by then, walked backwards it is still unbound, and evaluates to null. Where no chain that is
turned around has such a map, the plan gives the rows of the plan that walks every chain as
written.

## Main results

* `planned_rows`: both plans give the same rows, where no such map is walked backwards; and
  neither fails, where nothing in the pattern can.
* `planned_rows_differ`: a graph whose own statistics lead to a different answer.
-/

open Classical

namespace LoraDb

open InMemoryGraph ResolvedExpr PatternPlanner List

/-- No inline map of a chain reads a variable that the chain itself binds: only what is bound
before (`known`) and, on a node, the node. -/
structure ReadsNoneOfItsOwn (known : Finset VarId) (head : ResolvedNode)
    (chain : List ResolvedChain) : Prop where
  nodeMaps : ∀ node ∈ chainNodes head chain, ∀ e, node.properties = some e →
    e.collectVars ∩ chainVars head chain ⊆ known ∪ {node.var}
  relMaps : ∀ step ∈ chain, ∀ e, step.rel.properties = some e →
    e.collectVars ∩ chainVars head chain ⊆ known
  /-- No name stands for a node and a relationship of the chain. -/
  kinds : ∀ step ∈ chain, ∀ r, step.rel.var = some r → ∀ node ∈ chainNodes head chain, r ≠ node.var

def ResolvedPatternElement.ReadsNoneOfItsOwn (known : Finset VarId) : ResolvedPatternElement → Prop
  | .node _ => True
  | .nodeChain head chain => LoraDb.ReadsNoneOfItsOwn known head chain

/-- Every part that the planner turns around reads none of its own variables. -/
def TurnsSafely (known : Finset VarId) (choice : WalkChoice) :
    PatternPlanner → List ResolvedPatternElement → Prop
  | _, [] => True
  | p, part :: parts =>
    (p.walksBack choice part = true → part.ReadsNoneOfItsOwn (known ∪ p.available)) ∧
      TurnsSafely known choice (p.after part.vars) parts

section Rows

variable {ctx : EvalContext} {known vars : Finset VarId} {choice : WalkChoice} {p : PatternPlanner}

variable {chain : List ResolvedChain}

theorem vars_of_planSteps {src var : VarId}
    (h : var ∈ stepVars chain) : ∃ op ∈ (p.planSteps src chain).2, var ∈ op.vars := by
  induction chain generalizing p src with
  | nil => cases h
  | cons step chain ih =>
    rw [planSteps_cons]
    rcases Finset.mem_union.mp h with h | h
    · refine ⟨planExpand src step, mem_cons_self, ?_⟩
      rw [planExpand, MatchOp.vars, Finset.union_comm]
      exact h
    · obtain ⟨op, hop, hvar⟩ := ih (p := p.after step.vars) h
      exact ⟨op, mem_cons_of_mem _ (mem_append_right _ hop), hvar⟩

theorem vars_of_planNodeChain {head : ResolvedNode} {var : VarId}
    (h : var ∈ chainVars head chain) : ∃ op ∈ (p.planNodeChain head chain).2, var ∈ op.vars := by
  rw [planNodeChain_eq]
  rcases Finset.mem_union.mp h with h | h
  · exact ⟨_, mem_cons_self, h⟩
  · obtain ⟨op, hop, hvar⟩ := vars_of_planSteps (p := p.after {head.var}) h
    exact ⟨op, mem_cons_of_mem _ (mem_append_right _ hop), hvar⟩

variable {part : ResolvedPatternElement}

/-- The plan of a part binds the variables of the part. -/
theorem vars_of_planElement {var : VarId} (h : var ∈ part.vars) :
    ∃ op ∈ (p.planElement choice part).2, var ∈ op.vars := by
  cases part with
  | node head => exact ⟨_, mem_cons_self, h⟩
  | nodeChain head chain =>
    rw [planElement]
    split
    · refine vars_of_planNodeChain ?_
      rw [chainVars_reverse]
      exact h
    · exact vars_of_planNodeChain h

/-- The rows of a part bind what was bound before, and the part's variables. -/
theorem planElement_binds {rows out : List Row}
    (hok : ctx.run (p.planElement choice part).2 rows = .ok out)
    (hrows : ∀ row ∈ rows, ∀ var ∈ vars, row var ≠ none) :
    ∀ row ∈ out, ∀ var ∈ vars ∪ part.vars, row var ≠ none := by
  intro row hrow var hvar
  obtain ⟨before, hbefore, hgrows, hops⟩ := run_binds hok hrow
  rcases Finset.mem_union.mp hvar with hvar | hvar
  · exact hgrows var (hrows before hbefore var hvar)
  · obtain ⟨op, hop, hvar⟩ := vars_of_planElement hvar
    exact hops op hop var hvar

theorem settled_of_reads {head : ResolvedNode} (h : ReadsNoneOfItsOwn known head chain)
    (hpending : ∀ c ∈ p.pending, c.expr.varsWith false ∩ chainVars head chain ⊆ c.needs) :
    Settled (chainVars head chain) known (chainNodes head chain) chain p.pending :=
  ⟨h.nodeMaps, h.relMaps, h.kinds, hpending⟩

variable {rows rows' out out' : List Row}

/-- A plan gives rearranged rows for rearranged rows. -/
theorem run_perm {ops : List MatchOp} (h : rows.Perm rows')
    (hok : ctx.run ops rows = .ok out) (hok' : ctx.run ops rows' = .ok out') :
    out.Perm out' := by
  have hout : ∀ {rows out : List Row}, ctx.run ops rows = .ok out →
      (out : Multiset Row) = (rows : Multiset Row).bind fun row =>
        ((ctx.run ops [row]).toOption.getD [] : List Row) :=
    fun hok => run_eq_bind hok fun row _ out' hrow => by rw [hrow]; rfl
  refine Multiset.coe_eq_coe.mp ?_
  rw [hout hok, hout hok', Multiset.coe_eq_coe.mpr h]

/-- The plan of one part gives the rows of the part as written. -/
theorem planElement_perm (hintact : ctx.storage.Intact)
    (hpending : ∀ c ∈ p.pending, c.expr.varsWith false ∩ part.vars ⊆ c.needs)
    (hsafe : p.walksBack choice part = true → part.ReadsNoneOfItsOwn (known ∪ p.available))
    (hperm : rows.Perm rows')
    (hrows : ∀ row ∈ rows, ∀ var ∈ known ∪ p.available, row var ≠ none)
    (hok : ctx.run (p.planElement choice part).2 rows = .ok out)
    (hok' : ctx.run (p.planElement asWritten part).2 rows' = .ok out') : out.Perm out' := by
  cases part with
  | node head => exact run_perm hperm hok hok'
  | nodeChain head chain =>
    have hwritten : (p.planElement asWritten (.nodeChain head chain)).2 =
        (p.planNodeChain head chain).2 := by
      rw [planElement, if_neg (by simp [walksBack, asWritten])]
    rw [hwritten] at hok'
    by_cases hback : p.walksBack choice (.nodeChain head chain) = true
    · have hchoice : (p.planElement choice (.nodeChain head chain)).2 =
          (p.planNodeChain (reverseChain head chain).1 (reverseChain head chain).2).2 := by
        rw [planElement, if_pos hback]
      have hne : chain ≠ [] := by
        rintro rfl
        simp [walksBack] at hback
      rw [hchoice] at hok
      have hsettled := settled_of_reads (p := p) (hsafe hback) hpending
      -- Both walks give the same rows for each row, so either may stand for the other.
      obtain ⟨outs, houts, rfl⟩ := EvalContext.run_eq_ok.mp hok'
      have hrow' : ∀ row ∈ rows, ∃ o, ctx.run (p.planNodeChain head chain).2 [row] = .ok o := by
        intro row hrow
        obtain ⟨o, -, ho⟩ := EvalContext.forall₂_mem_right houts.flip (hperm.mem_iff.mp hrow)
        exact ⟨o, ho⟩
      have hleft := run_eq_bind (f := fun row =>
          ((ctx.run (p.planNodeChain head chain).2 [row]).toOption.getD [] : List Row)) hok <| by
        intro row hrow o ho
        obtain ⟨o', ho'⟩ := hrow' row hrow
        rw [run_reverse hintact (hrows row hrow) hsettled (fun var hvar =>
          hrows row hrow var (Finset.mem_union_right _ hvar)) hne ho' ho, ho']
        rfl
      have hright := run_eq_bind (f := fun row =>
          ((ctx.run (p.planNodeChain head chain).2 [row]).toOption.getD [] : List Row)) hok' <| by
        intro row _ o ho
        rw [ho]
        rfl
      refine Multiset.coe_eq_coe.mp ?_
      rw [hleft, hright, Multiset.coe_eq_coe.mpr hperm]
    · have hchoice : (p.planElement choice (.nodeChain head chain)).2 =
          (p.planNodeChain head chain).2 := by
        rw [planElement, if_neg hback]
      rw [hchoice] at hok
      exact run_perm hperm hok hok'

/-- The plan of some parts gives the rows of the parts as written. -/
theorem planParts_perm (hintact : ctx.storage.Intact) {parts : List ResolvedPatternElement}
    (hpending : ∀ c ∈ p.pending, ∀ part ∈ parts, c.expr.varsWith false ∩ part.vars ⊆ c.needs)
    (hsafe : TurnsSafely known choice p parts)
    (hperm : rows.Perm rows')
    (hrows : ∀ row ∈ rows, ∀ var ∈ known ∪ p.available, row var ≠ none)
    (hok : ctx.run (p.planParts choice parts).2 rows = .ok out)
    (hok' : ctx.run (p.planParts asWritten parts).2 rows' = .ok out') : out.Perm out' := by
  induction parts generalizing p rows rows' with
  | nil =>
    obtain rfl := Except.ok.inj hok
    obtain rfl := Except.ok.inj hok'
    exact hperm
  | cons part parts ih =>
    rw [planParts_cons] at hok hok'
    obtain ⟨mid, hmid, hrest⟩ := EvalContext.run_append.mp hok
    obtain ⟨mid', hmid', hrest'⟩ := EvalContext.run_append.mp hok'
    have hmidPerm := planElement_perm hintact
      (fun c hc => hpending c hc part mem_cons_self) hsafe.1 hperm hrows hmid hmid'
    refine ih (fun c hc part' hpart' => hpending c (after_waits hc).1 part'
      (mem_cons_of_mem _ hpart')) hsafe.2 hmidPerm ?_ hrest hrest'
    rw [PatternPlanner.after, ← Finset.union_assoc]
    exact planElement_binds hmid hrows

theorem mem_collectPatternVarSet {pattern : ResolvedPattern}
    (h : part ∈ pattern.parts) : part.vars ⊆ collectPatternVarSet pattern := by
  obtain ⟨parts⟩ := pattern
  change part.vars ⊆ parts.foldr (fun part vars => part.vars ∪ vars) ∅
  induction parts with
  | nil => cases h
  | cons part' parts ih =>
    rw [foldr_cons]
    rcases List.mem_cons.mp h with rfl | h
    · exact Finset.subset_union_left
    · exact (ih h).trans Finset.subset_union_right

/-- A conjunct that waits names every pattern variable it reads. -/
theorem pending_reads {stats : GraphStats} {bound : Finset VarId} {pattern : ResolvedPattern}
    {predicate : Option ResolvedExpr} {c : PendingConjunct}
    (hc : c ∈ (patternPlanner stats bound pattern predicate).pending) :
    c.expr.varsWith false ∩ collectPatternVarSet pattern ⊆ c.needs := by
  obtain ⟨hmem, hneeds⟩ := List.mem_filter.mp hc
  exact whereConjuncts_reads hmem (of_decide_eq_true hneeds)

/-- **Walking from the tail.** Where no chain that is turned around has an inline map that reads a
variable the chain binds, the plan gives the rows of the plan that walks every chain as written;
and where nothing in the pattern can fail, both plans succeed. -/
theorem planned_rows (hreach : Reachable ctx.storage) (stats : GraphStats) (bound : Finset VarId)
    (pattern : ResolvedPattern) (predicate : Option ResolvedExpr) (rows : List Row)
    (hknown : ∀ row ∈ rows, ∀ var ∈ known, row var ≠ none)
    (hsafe : TurnsSafely known shouldStartFromTail (patternPlanner stats bound pattern predicate)
      pattern.parts) :
    (∀ out out', ctx.run (planMatch shouldStartFromTail stats bound pattern predicate) rows =
        .ok out →
      ctx.run (planMatch asWritten stats bound pattern predicate) rows = .ok out' →
      out.Perm out') ∧
    (Unfailing ctx pattern predicate rows →
      (∃ out, ctx.run (planMatch shouldStartFromTail stats bound pattern predicate) rows =
        .ok out) ∧
      ∃ out, ctx.run (planMatch asWritten stats bound pattern predicate) rows = .ok out) := by
  refine ⟨fun out out' hok hok' => ?_, fun h => ⟨planMatch_total h _ stats bound,
    planMatch_total h _ stats bound⟩⟩
  obtain ⟨mid, hmid, hrest⟩ := EvalContext.run_append.mp hok
  obtain ⟨mid', hmid', hrest'⟩ := EvalContext.run_append.mp hok'
  have hperm := planParts_perm hreach.intact
    (fun c hc part hpart => (Finset.inter_subset_inter_left
      (mem_collectPatternVarSet hpart)).trans (pending_reads hc))
    hsafe (List.Perm.refl rows) (by simpa [patternPlanner] using hknown) hmid hmid'
  rw [@planParts_fst _ _ _ asWritten] at hrest
  exact run_perm hperm hrest hrest'

end Rows

/-! ### An inline map that reads its own chain -/

/-- Properties of nodes, and equality of integers; anything else is null. -/
def integerOps (g : InMemoryGraph) : ValueOps where
  form form operands := pure <| match form, operands with
    | .property key, [.node id] =>
      match (g.nodeAt id).bind fun record => record.properties.get key with
      | some (.int value) => .int value
      | _ => .null
    | .binary .eq, [.int lhs, .int rhs] => .bool (lhs == rhs)
    | _, _ => .null
  valueEq _ _ := false
  builtList values := pure (.list values)
  mapProjection _ _ _ := pure .null
  slice _ _ _ := pure .null
  subquery _ _ := pure .null
  valueMatches _ _ := false

/-- `(:A {x: 1})-[:R]->(:B {x: 1})`, and a second `(:A {x: 1})`. -/
def pairGraph : InMemoryGraph :=
  let one : PropertyMap := .insert .empty "x" (.int 1)
  let g := (new.mutate (.tryCreateNode ["A"] one)).1
  let g := (g.mutate (.tryCreateNode ["B"] one)).1
  let g := (g.mutate (.createRelationship 0 1 "R" .empty)).1
  (g.mutate (.tryCreateNode ["A"] one)).1

theorem pairGraph_reachable : Reachable pairGraph :=
  .mutate _ (.mutate _ (.mutate _ (.mutate _ .new)))

/-- What `pairGraph` counts. -/
def pairStats : GraphStats where
  nodeCount := 3
  relationshipCount := 1
  nodesByLabel label := if label = "A" then some 2 else if label = "B" then some 1 else none
  relationshipsByType type := if type = "R" then some 1 else none
  nodeDistinctValues label key :=
    if key = "x" ∧ (label = "A" ∨ label = "B") then some 1 else none

def pairContext : EvalContext := ⟨pairGraph, fun _ => none, integerOps pairGraph⟩

def pairHead : ResolvedNode := ⟨⟨0⟩, ⟨[["A"]], by simp⟩, none⟩

/-- The step `-[r]->(b:B {x: value})`. -/
def pairStep (value : ResolvedExpr) : ResolvedChain :=
  ⟨⟨some ⟨1⟩, [], .right, none⟩, ⟨⟨2⟩, ⟨[["B"]], by simp⟩, some (.apply (.map ["x"]) [value])⟩⟩

/-- `(a:A)-[r]->(b:B {x: value})` -/
def pairPattern (value : ResolvedExpr) : ResolvedPattern :=
  ⟨[.nodeChain pairHead [pairStep value]]⟩

/-- The rows of `MATCH (a:A)-[r]->(b:B {x: value})`. -/
def pairRows (choice : WalkChoice) (value : ResolvedExpr) : Except ExecutorError (List Row) :=
  pairContext.run (planMatch choice pairStats ∅ (pairPattern value) none) [Row.empty]

/-- `{x: 1}` reads nothing. -/
theorem pair_reads (known : Finset VarId) :
    ReadsNoneOfItsOwn known pairHead [pairStep (.literal (.int 1))] where
  nodeMaps node hnode e he := by
    have hvars : e.collectVars = ∅ := by
      rcases List.mem_cons.mp hnode with rfl | hnode
      · cases he
      · obtain rfl := List.mem_singleton.mp hnode
        obtain rfl := Option.some.inj he
        rfl
    simp [hvars]
  relMaps step hstep e he := by
    obtain rfl := List.mem_singleton.mp hstep
    cases he
  kinds step hstep r hr node hnode := by
    obtain rfl := List.mem_singleton.mp hstep
    obtain rfl := Option.some.inj hr
    rcases List.mem_cons.mp hnode with rfl | hnode
    · decide
    · obtain rfl := List.mem_singleton.mp hnode
      decide

theorem pair_unfailing :
    Unfailing pairContext (pairPattern (.literal (.int 1))) none [Row.empty] where
  kinds := by decide
  nodesKinded := by simp [NodeKinded, Row.empty]
  relsKinded := by simp [RelKinded, Row.empty]
  nodeMaps node hnode e he row := by
    rcases List.mem_cons.mp hnode with rfl | hnode
    · cases he
    · obtain rfl := List.mem_singleton.mp hnode
      obtain rfl := List.mem_singleton.mp he
      rfl
  relMaps rel hrel e he := by
    obtain rfl := List.mem_singleton.mp hrel
    cases he
  conjuncts := by simp

theorem planned_rows_pair : ∃ out out', pairRows shouldStartFromTail (.literal (.int 1)) = .ok out ∧
    pairRows asWritten (.literal (.int 1)) = .ok out' ∧ out.Perm out' := by
  have h := @planned_rows pairContext ∅ pairGraph_reachable pairStats ∅
    (pairPattern (.literal (.int 1))) none [Row.empty] (by simp)
    ⟨fun _ => pair_reads _, trivial⟩
  obtain ⟨⟨out, hout⟩, out', hout'⟩ := h.2 pair_unfailing
  exact ⟨out, out', hout, hout', h.1 out out' hout hout'⟩

theorem pairGraph_scan : pairGraph.scanNodeIdsForLabelGroups [["A"]] = [0, 2] ∧
    pairGraph.scanNodeIdsForLabelGroups [["B"]] = [1] := by
  have ha : pairGraph.nodeIdsByLabel "A" = [0, 2] := by
    have hids : pairGraph.nodesByLabel.ids "A" = {0, 2} := by decide +kernel
    rw [nodeIdsByLabel, hids, Finset.sort_insert _ (by simp) (by simp), Finset.sort_singleton]
  have hb : pairGraph.nodeIdsByLabel "B" = [1] := by
    have hids : pairGraph.nodesByLabel.ids "B" = {1} := by decide +kernel
    rw [nodeIdsByLabel, hids, Finset.sort_singleton]
  constructor
  · simp [scanNodeIdsForLabelGroups, labelGroupCandidateIds, ha]
  · simp [scanNodeIdsForLabelGroups, labelGroupCandidateIds, hb]

/-- A plan starts with the nodes of one label. -/
theorem run_scan {ctx : EvalContext} {var : VarId} {labels : LabelGroups} {label : String}
    {ids : List NodeId} (hlabels : labels.groups = [[label]])
    (hids : ctx.storage.scanNodeIdsForLabelGroups [[label]] = ids) (ops : List MatchOp) :
    ctx.run (.nodeScan var labels :: ops) [Row.empty] =
      ctx.run ops (ids.map fun id => Row.empty.insert var (.node id)) := by
  have hscan : ctx.scanRow var labels Row.empty =
      .ok (ids.map fun id => Row.empty.insert var (.node id)) := by
    rw [EvalContext.scanRow, hlabels, hids]
    rfl
  rw [EvalContext.run, mapM_cons, EvalContext.runRow, hscan]
  exact congrArg (ctx.run ops) (append_nil _)

/-- `a.x`, for the first node of the chain. -/
def readsHead : ResolvedExpr := .property (.variable ⟨0⟩) "x"

/-- `(a:A)-[r]->(b:B {x: a.x})` has one match. The counts of the graph have it walked from `b`,
and `a.x` is null there. -/
theorem planned_rows_differ : ∃ out out', pairRows shouldStartFromTail readsHead = .ok out ∧
    pairRows asWritten readsHead = .ok out' ∧
    Reachable pairGraph ∧ ¬ out.Perm out' := by
  have htail : pairRows shouldStartFromTail readsHead =
      pairContext.run (planMatch shouldStartFromTail pairStats ∅ (pairPattern readsHead) none).tail
        ([1].map fun id => Row.empty.insert ⟨2⟩ (.node id)) :=
    @run_scan pairContext _ (pairStep readsHead).node.labels _ _ rfl pairGraph_scan.2 _
  have hhead : pairRows asWritten readsHead =
      pairContext.run (planMatch asWritten pairStats ∅ (pairPattern readsHead) none).tail
        ([0, 2].map fun id => Row.empty.insert ⟨0⟩ (.node id)) :=
    @run_scan pairContext _ pairHead.labels _ _ rfl pairGraph_scan.1 _
  have hnone : (pairRows shouldStartFromTail readsHead).toOption.map List.length = some 0 := by
    rw [htail]
    decide +kernel
  have hone : (pairRows asWritten readsHead).toOption.map List.length = some 1 := by
    rw [hhead]
    decide +kernel
  cases hout : pairRows shouldStartFromTail readsHead with
  | error e => simp [hout, Except.toOption] at hnone
  | ok out =>
    cases hout' : pairRows asWritten readsHead with
    | error e => simp [hout', Except.toOption] at hone
    | ok out' =>
      refine ⟨out, out', rfl, rfl, pairGraph_reachable, fun hperm => ?_⟩
      have hempty : out.length = 0 := by simpa [hout, Except.toOption] using hnone
      have hmatch : out'.length = 1 := by simpa [hout', Except.toOption] using hone
      have hlength := hperm.length_eq
      omega

end LoraDb
