import LoraDb.PropertyRuns

/-!
# Combined Property Writes

The `SET` clause that stores runs of property writes as one edit each, against the one that
writes property by property.

## Main results

* `combined_writes_agree`: where no later value of a run searches an index, and no parameter
  holds an entity, both leave one state or both fail.
* `combined_writes_apart`: a failure leaves different records, and so does a later value that
  finds the written node through an index or a parameter.
-/

namespace LoraDb

open InMemoryGraph List

/-! ### Runs found -/

/-- The items of a run. -/
def PropertyRun.items (run : PropertyRun) (items : List ResolvedSetItem) : List ResolvedSetItem :=
  (items.drop run.start).take (run.stop - run.start)

/-- Runs in order from `next` on, each of items that write to its variable. -/
def RunsFrom (items : List ResolvedSetItem) : ℕ → List PropertyRun → Prop
  | _, [] => True
  | next, run :: runs =>
    next ≤ run.start ∧ run.start ≤ run.stop ∧
      (∀ item ∈ run.items items, runTarget item = some run.var) ∧
      run.later = valueVars (run.items items).tail ∧ RunsFrom items run.stop runs

theorem RunsFrom.weaken {items : List ResolvedSetItem} {next next' : ℕ} {runs : List PropertyRun}
    (h : RunsFrom items next runs) (hle : next' ≤ next) : RunsFrom items next' runs := by
  cases runs with
  | nil => trivial
  | cons run runs => exact ⟨hle.trans h.1, h.2⟩

/-- The items of the first run the search finds. -/
theorem run_items {items tail rest : List ResolvedSetItem} {item : ResolvedSetItem} {i : ℕ}
    {var : VarId} {later : Finset VarId} (hdrop : items.drop i = item :: tail)
    (hrest : rest <+: tail) :
    (PropertyRun.mk i (i + 1 + rest.length) var later).items items = item :: rest := by
  rw [PropertyRun.items, hdrop]
  have hlength : i + 1 + rest.length - i = rest.length + 1 := by omega
  simp only [hlength, take_succ_cons]
  rw [← List.prefix_iff_eq_take.mp hrest]

theorem runsFrom_propertyRuns {items : List ResolvedSetItem} (i : ℕ)
    (suffix : List ResolvedSetItem) (hdrop : items.drop i = suffix) :
    RunsFrom items i (propertyRuns i suffix) := by
  induction i, suffix using propertyRuns.induct with
  | case1 i =>
    rw [propertyRuns]
    trivial
  | case2 i item tail hnone ih =>
    rw [propertyRuns, hnone]
    refine (ih ?_).weaken (Nat.le_succ i)
    rw [← drop_drop, hdrop, drop_one, tail_cons]
  | case3 i item tail var hvar rest hempty ih =>
    rw [propertyRuns, hvar]
    simp only
    have hrest : (tail.takeWhile fun other => runTarget other == some var) = [] := hempty
    rw [if_pos hrest]
    refine (ih ?_).weaken (by omega)
    rw [Nat.add_assoc, ← drop_drop, hdrop, Nat.add_comm 1, drop_succ_cons]
  | case4 i item tail var hvar rest hempty ih =>
    rw [propertyRuns, hvar]
    simp only
    have hrest : (tail.takeWhile fun other => runTarget other == some var) ≠ [] := hempty
    rw [if_neg hrest]
    have hitems := @run_items items tail (tail.takeWhile fun other => runTarget other == some var)
      item i var (valueVars (tail.takeWhile fun other => runTarget other == some var)) hdrop <|
      takeWhile_prefix _
    refine ⟨le_rfl, by simp only; omega, ?_, ?_, ?_⟩
    · rw [hitems, forall_mem_cons]
      refine ⟨hvar, fun other hother => ?_⟩
      simpa using List.all_eq_true.mp all_takeWhile other hother
    · rw [hitems, tail_cons]
    · refine ih ?_
      rw [Nat.add_assoc, ← drop_drop, hdrop, Nat.add_comm 1, drop_succ_cons]

namespace SetContext

variable {ctx : SetContext} {nodeVars : ℕ → List VarId} {row : Row}

/-! ### Later values -/

theorem plainOn_iff {vars : Finset VarId} :
    plainOn row vars = true ↔ ResolvedExpr.PlainOn vars row := by
  rw [plainOn, decide_eq_true_iff, ResolvedExpr.PlainOn]
  refine forall₂_congr fun var _ => ?_
  cases row var with
  | none => simp
  | some value =>
    simp only [Option.any_some, Bool.not_eq_true', Option.some.injEq, exists_eq_left']
    rfl

variable {items : List ResolvedSetItem}

theorem collectVars_subset {item : ResolvedSetItem}
    (hitem : item ∈ items) {value : ResolvedExpr} (hvalue : value ∈ item.value) :
    value.collectVars ⊆ valueVars items := by
  induction items with
  | nil => cases hitem
  | cons other items ih =>
    rw [valueVars]
    rcases List.mem_cons.mp hitem with rfl | hmem
    · rw [Option.mem_def.mp hvalue]
      exact Finset.subset_union_left
    · exact (ih hmem).trans Finset.subset_union_right

/-- A value whose variables hold no entity, and that searches no index, evaluates alike on
every graph. -/
theorem settled_of_plain (hops : ReadsEntities ctx.ops nodeVars)
    (hparams : ∀ name value, ctx.params name = some value → value.Plain)
    (hplain : ResolvedExpr.PlainOn (valueVars items) row)
    {item : ResolvedSetItem} (hitem : item ∈ items)
    (hnone : ∀ value ∈ item.value, value.searchesNone nodeVars = true) :
    ctx.Settled row item := by
  intro value hvalue g g'
  have hvars : ResolvedExpr.PlainOn (value.varsWith true) row := fun var hvar =>
    hplain var (collectVars_subset hitem hvalue hvar)
  have hfixed : value.eval (ctx.evalContext g) row = value.eval (ctx.evalContext g') row :=
    (ResolvedExpr.eval_fixed hops hparams value (hnone value hvalue) hvars).1 g g'
  rw [evalOn, evalOn, hfixed]

/-! ### The clause -/

/-- No later value of a run searches an index. -/
def LaterSearchNone (nodeVars : ℕ → List VarId) (items : List ResolvedSetItem) : Prop :=
  ∀ run ∈ propertyRuns 0 items, ∀ item ∈ (run.items items).tail, ∀ value ∈ item.value,
    value.searchesNone nodeVars = true

theorem sameOutcome_applyRun (hcatalog : combinesPropertyWrites ctx.catalog = true)
    {run : PropertyRun}
    (htarget : ∀ item ∈ items, runTarget item = some run.var)
    (hsettled : plainOn row run.later = true → ∀ item ∈ items.tail, ctx.Settled row item)
    (st : Executor) :
    ctx.SameOutcome row items st (ctx.applyRun true row run items st) := by
  rw [applyRun]
  cases hnode : runNode row run.var with
  | none => exact sameOutcome_items hcatalog items st
  | some id =>
    have hbound : row run.var = some (.node id) := by
      rw [runNode.eq_def] at hnode
      split at hnode
      next hvar =>
        rw [Option.some.injEq] at hnode
        rw [hvar, hnode]
      next => cases hnode
    simp only
    split
    next hplain => exact sameOutcome_run hcatalog hbound htarget (hsettled hplain) st
    next => exact sameOutcome_items hcatalog items st

theorem sameOutcome_applySetItems (hcatalog : combinesPropertyWrites ctx.catalog = true) :
    ∀ (runs : List PropertyRun) (next : ℕ), RunsFrom items next runs →
      (∀ run ∈ runs, plainOn row run.later = true →
        ∀ item ∈ (run.items items).tail, ctx.Settled row item) → ∀ st : Executor,
      ctx.SameOutcome row (items.drop next) st (ctx.applySetItems true row items next runs st)
  | [], next, _, _, st => sameOutcome_items hcatalog (items.drop next) st
  | run :: runs, next, ⟨hstart, hstop, htarget, _, hruns⟩, hsettled, st => by
    rw [forall_mem_cons] at hsettled
    have hsplit : items.drop next = (items.drop next).take (run.start - next) ++
        (run.items items ++ items.drop run.stop) := by
      have hrest : run.items items ++ items.drop run.stop = items.drop run.start := by
        rw [PropertyRun.items]
        conv_rhs => rw [← take_append_drop (run.stop - run.start) (items.drop run.start)]
        rw [drop_drop, Nat.add_sub_cancel' hstop]
      have hdrop : items.drop run.start = (items.drop next).drop (run.start - next) := by
        rw [drop_drop, Nat.add_sub_cancel' hstart]
      rw [hrest, hdrop, take_append_drop]
    rw [hsplit, applySetItems]
    refine SameOutcome.seq (sameOutcome_items hcatalog _ st) fun s => ?_
    exact SameOutcome.seq (sameOutcome_applyRun hcatalog htarget hsettled.1 s)
      (sameOutcome_applySetItems hcatalog runs run.stop hruns hsettled.2)

theorem execSet_false (items : List ResolvedSetItem) :
    ctx.execSet false row items = ctx.each row items := rfl

end SetContext

open SetContext in
/-- **Combined writes agree** with writes one by one, where no constraint spans two properties, no
later value of a run searches an index, and no parameter holds an entity. -/
theorem combined_writes_agree {ctx : SetContext} {nodeVars : ℕ → List VarId}
    (hops : ReadsEntities ctx.ops nodeVars)
    (hparams : ∀ name value, ctx.params name = some value → value.Plain)
    (hcatalog : combinesPropertyWrites ctx.catalog = true) (items : List ResolvedSetItem)
    (hitems : LaterSearchNone nodeVars items) (row : Row) (st : Executor) :
    ctx.OutcomeAs row items st (ctx.execSet false row items st)
      (ctx.execSet true row items st) := by
  rw [execSet_false]
  have hruns := @runsFrom_propertyRuns items 0 items rfl
  refine sameOutcome_applySetItems hcatalog (propertyRuns 0 items) 0 hruns ?_ st
  intro run hrun hplain item hitem
  refine settled_of_plain hops hparams ?_ hitem (hitems run hrun item hitem)
  have hlater : ∀ (runs : List PropertyRun) (next : ℕ), RunsFrom items next runs → run ∈ runs →
      run.later = valueVars (run.items items).tail := by
    intro runs
    induction runs with
    | nil => intro next _ hmem; cases hmem
    | cons other runs ih =>
      intro next hfrom hmem
      rcases List.mem_cons.mp hmem with rfl | hmem
      · exact hfrom.2.2.2.1
      · exact ih _ hfrom.2.2.2.2 hmem
  rw [← hlater _ 0 hruns hrun]
  exact plainOn_iff.mp hplain

/-! ### At concrete clauses -/

namespace SetDemo

/-- The nodes of the title an index search is for, as `index.fulltext_nodes` lists them. -/
def titleHits (g : InMemoryGraph) (query : String) : LoraValue :=
  .list ((g.nodes.slots.filter fun id => (g.nodeAt id).any fun node =>
    node.properties.get "title" == some (.string query)).map fun id =>
      .map [("node", .node id), ("score", .float ⟨0x3FF0000000000000⟩)])

/-- `index.fulltext_nodes` on titles of one word, `list.size`, and the properties of a node. -/
def ops (g : InMemoryGraph) : ValueOps where
  form form operands :=
    match form, operands with
    | .function f _, [.string _, .string query] =>
      pure (if f.name = "index.fulltext_nodes" then titleHits g query else .null)
    | .function f _, [.list items] =>
      pure (if f.name = "list.size" then .int (.ofNat items.length) else .null)
    | .property key, [.node id] =>
      pure ((((g.nodeAt id).bind fun node => node.properties.get key).map
        LoraValue.ofProperty).getD .null)
    | _, _ => pure .null
  valueEq := valueEq
  builtList items := pure (.list items)
  mapProjection _ _ _ := pure .null
  slice value _ _ := pure value
  subquery _ _ := pure (.bool false)
  valueMatches value property := value.eq (.ofProperty property)

theorem readsEntities (nodeVars : ℕ → List VarId) : ReadsEntities ops nodeVars where
  form form operands hform hplain := by
    simp only [ops]
    split
    next f distinct index query =>
      rw [Form.searchesIndex] at hform
      have hname : f.name ≠ "index.fulltext_nodes" := by
        rintro hname
        rw [hname] at hform
        exact absurd hform (by decide)
      simp only [hname, if_false]
      exact .pure rfl
    next =>
      split
      · exact .pure rfl
      · exact .pure rfl
    next key id => cases hplain (.node id) mem_cons_self
    next => exact .pure rfl
  valueEq _ _ _ _ := rfl
  builtList items h := .pure (ResolvedExpr.plain_list.mpr h)
  mapProjection _ _ _ _ _ := .pure rfl
  slice _ _ _ h _ _ := .pure h
  subquery _ _ _ _ := .pure rfl

/-- The clause context, with one parameter. -/
def ctx (param : LoraValue) (catalog : ConstraintCatalog) : SetContext where
  params name := if name = "p" then some param else none
  ops := ops
  catalog := catalog
  deferExistence := false

/-- One node of label `L`. -/
def graph : InMemoryGraph := (InMemoryGraph.new.tryCreateNode ["L"] .empty).1

/-- `n` is that node. -/
def row : Row := fun var => if var = ⟨0⟩ then some (.node 0) else none

/-- `SET n.title = 'graph', n.b = value` -/
def clause (value : ResolvedExpr) : List ResolvedSetItem :=
  [.setProperty (.apply (.property "title") [.variable ⟨0⟩]) (.literal (.string "graph")),
    .setProperty (.apply (.property "b") [.variable ⟨0⟩]) value]

/-- `b` is an integer. -/
def integerB : ConstraintCatalog :=
  [⟨"b_type", .propertyType ⟨[.scalar .integer]⟩, .node, "L", ["b"], .range⟩]

/-- A property of `n` after the clause, whether it succeeded or failed. -/
def after (combine : Bool) (ctx : SetContext) (value : ResolvedExpr) (key : String) :
    Option PropertyValue :=
  let st := match ctx.execSet combine row (clause value) ⟨graph, []⟩ with
    | .ok _ st => st
    | .error _ st => st
  (st.storage.nodeAt 0).bind fun node => node.properties.get key

/-- `list.size(index.fulltext_nodes('titles', 'graph'))` -/
def hitCount : ResolvedExpr :=
  .apply (.function ⟨"list.size", false⟩ false)
    [.apply (.function ⟨"index.fulltext_nodes", false⟩ false)
      [.literal (.string "titles"), .literal (.string "graph")]]

/-- `$p.title` -/
def paramTitle : ResolvedExpr := .apply (.property "title") [.parameter "p"]

theorem runs (value : ResolvedExpr) :
    propertyRuns 0 (clause value) = [⟨0, 2, ⟨0⟩, value.collectVars⟩] := by
  simp [clause, propertyRuns, runTarget, valueVars, ResolvedSetItem.value]

end SetDemo

open SetDemo in
/-- `SET n.title = 'graph', n.b = 2` -/
theorem combined_writes_two : (ctx .null []).OutcomeAs row (clause (.literal (.int 2))) ⟨graph, []⟩
      ((ctx .null []).execSet false row (clause (.literal (.int 2))) ⟨graph, []⟩)
      ((ctx .null []).execSet true row (clause (.literal (.int 2))) ⟨graph, []⟩) := by
  refine combined_writes_agree (readsEntities fun _ => []) ?_ (by decide) _ ?_ row _
  · intro name value hvalue
    simp only [ctx] at hvalue
    split at hvalue
    · cases hvalue
      rfl
    · cases hvalue
  · rw [SetContext.LaterSearchNone, runs]
    intro run hrun item hitem value hvalue
    rw [mem_singleton] at hrun
    subst hrun
    have hlast : item = .setProperty (.apply (.property "b") [.variable ⟨0⟩])
        (.literal (.int 2)) := by
      simpa [PropertyRun.items, clause] using hitem
    subst hlast
    cases hvalue
    rfl

open SetDemo in
/-- Combined writes and writes one by one come apart where the second write fails: only the
latter leave the first. So they do where the second value finds the written node through an index
or a parameter: only the latter see its title. -/
theorem combined_writes_apart : (combinesPropertyWrites integerB = true ∧
      after true (ctx .null integerB) (.literal (.string "x")) "title" = none ∧
      after false (ctx .null integerB) (.literal (.string "x")) "title" = some (.string "graph")) ∧
    (after true (ctx .null []) hitCount "b" = some (.int 0) ∧
      after false (ctx .null []) hitCount "b" = some (.int 1)) ∧
    (after true (ctx (.node 0) []) paramTitle "b" = none ∧
      after false (ctx (.node 0) []) paramTitle "b" = some (.string "graph")) := by
  simp only [SetDemo.after, SetContext.execSet, if_true, runs]
  decide

end LoraDb
