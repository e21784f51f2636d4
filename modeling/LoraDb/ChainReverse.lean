import LoraDb.ChainWalk

/-!
# Turning a Chain Around

A chain walked from its last node joins the same triples in the opposite order, and tests the
same nodes and conjuncts. Its rows are those of the chain as written wherever what is tested
reads nothing that the chain itself binds.

## Main results

* `joins_reverse`: turned around, the steps join the same triples.
* `run_reverse`: both walks give the same rows for a row.
-/

open Classical

namespace LoraDb

open InMemoryGraph Joins ResolvedExpr PatternPlanner List

/-! ### The chain turned around -/

def ResolvedRel.flip (rel : ResolvedRel) : ResolvedRel :=
  { rel with direction := flipDirection rel.direction }

/-- A step read from its other end. -/
def flipEdge (edge : VarId × ResolvedRel × VarId) : VarId × ResolvedRel × VarId :=
  (edge.2.2, edge.2.1.flip, edge.1)

section Reverse

variable {head : ResolvedNode} {chain steps : List ResolvedChain}

theorem chainNodes_reverseOnto :
    chainNodes (reverseOnto head chain steps).1 (reverseOnto head chain steps).2 =
      (chainNodes head chain).reverse ++ steps.map ResolvedChain.node := by
  induction chain generalizing head steps with
  | nil => simp [reverseOnto, chainNodes]
  | cons step chain ih =>
    rw [reverseOnto, ih]
    simp [chainNodes]

theorem edgesOf_reverseOnto :
    edgesOf (reverseOnto head chain steps).1.var (reverseOnto head chain steps).2 =
      ((edgesOf head.var chain).map flipEdge).reverse ++ edgesOf head.var steps := by
  induction chain generalizing head steps with
  | nil => simp [reverseOnto, edgesOf]
  | cons step chain ih =>
    rw [reverseOnto, ih]
    simp [edgesOf, flipEdge, ResolvedRel.flip]

theorem rels_reverseOnto : (reverseOnto head chain steps).2.map ResolvedChain.rel =
      ((chain.map ResolvedChain.rel).map ResolvedRel.flip).reverse ++
        steps.map ResolvedChain.rel := by
  induction chain generalizing head steps with
  | nil => simp [reverseOnto]
  | cons step chain ih =>
    rw [reverseOnto, ih]
    simp [ResolvedRel.flip]

theorem mem_chainNodes_reverse {node : ResolvedNode} :
    node ∈ chainNodes (reverseChain head chain).1 (reverseChain head chain).2 ↔
      node ∈ chainNodes head chain := by
  rw [reverseChain, chainNodes_reverseOnto]
  simp

/-- A step of the chain turned around has the relationship of a step of the chain. -/
theorem step_of_reverse {step : ResolvedChain} (h : step ∈ (reverseChain head chain).2) :
    ∃ step' ∈ chain, step.rel = step'.rel.flip := by
  have hrel : step.rel ∈ (reverseChain head chain).2.map ResolvedChain.rel :=
    mem_map_of_mem h
  rw [reverseChain, rels_reverseOnto] at hrel
  simp only [map_nil, append_nil, mem_reverse, mem_map] at hrel
  obtain ⟨rel, ⟨step', hstep', rfl⟩, heq⟩ := hrel
  exact ⟨step', hstep', heq.symm⟩

/-- A step of the chain is found in the chain turned around. -/
theorem step_in_reverse (head : ResolvedNode) {step : ResolvedChain} (h : step ∈ chain) :
    ∃ step' ∈ (reverseChain head chain).2, step'.rel = step.rel.flip := by
  have hrel : step.rel.flip ∈ (reverseChain head chain).2.map ResolvedChain.rel := by
    rw [reverseChain, rels_reverseOnto]
    simp only [map_nil, append_nil, mem_reverse, map_map]
    exact List.mem_map.mpr ⟨step, h, rfl⟩
  exact List.mem_map.mp hrel

theorem chainVars_reverse :
    chainVars (reverseChain head chain).1 (reverseChain head chain).2 = chainVars head chain := by
  ext var
  rw [mem_chainVars, mem_chainVars]
  refine or_congr (exists_congr fun node => and_congr_left fun _ => mem_chainNodes_reverse) ?_
  constructor
  · rintro ⟨step, hstep, hvar⟩
    obtain ⟨step', hstep', heq⟩ := step_of_reverse hstep
    exact ⟨step', hstep', by rw [heq] at hvar; exact hvar⟩
  · rintro ⟨step, hstep, hvar⟩
    obtain ⟨step', hstep', heq⟩ := step_in_reverse head hstep
    exact ⟨step', hstep', by rw [heq]; exact hvar⟩

theorem settled_reverse {vars known : Finset VarId} {pending : List PendingConjunct}
    (h : Settled vars known (chainNodes head chain) chain pending) :
    Settled vars known (chainNodes (reverseChain head chain).1 (reverseChain head chain).2)
      (reverseChain head chain).2 pending where
  nodeMaps node hnode := h.nodeMaps node (mem_chainNodes_reverse.mp hnode)
  relMaps step hstep e he := by
    obtain ⟨step', hstep', heq⟩ := step_of_reverse hstep
    exact h.relMaps step' hstep' e (by rw [heq] at he; exact he)
  kinds step hstep r hr node hnode := by
    obtain ⟨step', hstep', heq⟩ := step_of_reverse hstep
    exact h.kinds step' hstep' r (by rw [heq] at hr; exact hr) node
      (mem_chainNodes_reverse.mp hnode)
  conjuncts := h.conjuncts

/-! ### The same join -/

variable {ctx : EvalContext} {start row : Row}

theorem join_tableOf_flip (hintact : ctx.storage.Intact) (edge : VarId × ResolvedRel × VarId) :
    join (tableOf ctx start (flipEdge edge)) row = join (tableOf ctx start edge) row :=
  join_edgeTable_flip hintact

theorem joins_map_congr {ι : Type} {f f' : ι → Table VarId LoraValue} {l : List ι}
    (h : ∀ i ∈ l, ∀ row, join (f i) row = join (f' i) row) (row : Row) :
    joins (l.map f) row = joins (l.map f') row := by
  induction l generalizing row with
  | nil => rfl
  | cons i l ih =>
    rw [map_cons, map_cons, joins, joins, h i mem_cons_self]
    exact Multiset.bind_congr fun row' _ => ih (fun j hj => h j (mem_cons_of_mem _ hj)) row'

/-- Turned around, the steps join the same triples. -/
theorem joins_reverse (hintact : ctx.storage.Intact) :
    joins (stepTables ctx start (reverseChain head chain).1.var (reverseChain head chain).2) row =
      joins (stepTables ctx start head.var chain) row := by
  rw [stepTables, stepTables, reverseChain, edgesOf_reverseOnto]
  have hperm : ((((edgesOf head.var chain).map flipEdge).reverse ++ edgesOf head.var []).map
      (tableOf ctx start)).Perm
      (((edgesOf head.var chain).map flipEdge).map (tableOf ctx start)) := by
    rw [edgesOf, append_nil]
    exact (reverse_perm _).map _
  rw [joins_perm hperm, map_map]
  exact joins_map_congr (fun edge _ row => join_tableOf_flip hintact edge) row

/-- The first step binds the first node: scanning it adds nothing. -/
theorem joins_column (hintact : ctx.storage.Intact) (hne : chain ≠ []) :
    joins (column head.var (nodeValues ctx.storage) :: stepTables ctx start head.var chain) row =
      joins (stepTables ctx start head.var chain) row := by
  obtain ⟨step, chain, rfl⟩ := exists_cons_of_ne_nil hne
  rw [stepTables, edgesOf, map_cons]
  rw [joins_perm (Perm.swap _ _ _), joins, joins]
  refine Multiset.bind_congr fun row' hrow' => ?_
  obtain ⟨⟨a, b, record, ha, -, hstored, -⟩, -⟩ := binds_of_mem_table hrow' hintact
  obtain ⟨recordA, hrecordA⟩ := Option.ne_none_iff_exists'.mp hstored
  rw [joins, join_column_of_bound ha (mem_nodeValues.mpr ⟨recordA, hrecordA⟩) nodup_nodeValues,
    Multiset.singleton_bind]

theorem reverse_ne_nil (hne : chain ≠ []) : (reverseChain head chain).2 ≠ [] := by
  obtain ⟨step, chain', rfl⟩ := exists_cons_of_ne_nil hne
  obtain ⟨step', hstep', -⟩ := step_in_reverse head (@mem_cons_self _ step _)
  exact ne_nil_of_mem hstep'

/-- A chain and the chain turned around give the same rows for a row. -/
theorem run_reverse {p : PatternPlanner} {known : Finset VarId} (hintact : ctx.storage.Intact)
    (hknown : ∀ var ∈ known, start var ≠ none)
    (hsettled : Settled (chainVars head chain) known (chainNodes head chain) chain p.pending)
    (havail : ∀ var ∈ p.available, start var ≠ none) (hne : chain ≠ []) {out out' : List Row}
    (hok : ctx.run (p.planNodeChain head chain).2 [start] = .ok out)
    (hok' : ctx.run (p.planNodeChain (reverseChain head chain).1 (reverseChain head chain).2).2
      [start] = .ok out') :
    (out' : Multiset Row) = out := by
  have hsettled' : Settled
      (chainVars (reverseChain head chain).1 (reverseChain head chain).2) known
      (chainNodes (reverseChain head chain).1 (reverseChain head chain).2)
      (reverseChain head chain).2 p.pending := by
    rw [chainVars_reverse]
    exact settled_reverse hsettled
  rw [run_planNodeChain hintact hknown hsettled havail hok,
    run_planNodeChain hintact hknown hsettled' havail hok', joins_column hintact hne,
    joins_column hintact (reverse_ne_nil hne), joins_reverse hintact]
  refine Multiset.filter_congr fun row _ => ?_
  rw [chainVars_reverse]
  refine and_congr_left fun _ => ?_
  exact forall_congr' fun node => by rw [mem_chainNodes_reverse]

end Reverse

end LoraDb
