import LoraDb.SetClause

/-!
# Values That Hold No Entity

An expression reads the graph through the entities it is given: the properties of a node, the
ends of a relationship, the matches of a pattern from a bound node. An expression in a row whose
values hold none has the same value on every graph, unless it searches an index, which needs no
entity to find one.

## Main results

* `eval_fixed`: the value of such an expression is fixed, and holds no entity.
-/

open Bool (and_eq_true)

namespace LoraDb

/-- A value that holds no entity at any depth. -/
def LoraValue.Plain (value : LoraValue) : Prop := value.holdsEntity = false

/-- A computation with one outcome on every graph, a value that satisfies `P`. -/
def Fixed {α : Type} (P : α → Prop) (x : InMemoryGraph → EvalM α) : Prop :=
  (∀ g g', x g = x g') ∧ ∀ g, P (x g).value

namespace Fixed

variable {α β : Type} {P : α → Prop} {Q : β → Prop}

theorem pure {a : α} (h : P a) : Fixed P fun _ => (Pure.pure a : EvalM α) :=
  ⟨fun _ _ => rfl, fun _ => h⟩

theorem bind {x : InMemoryGraph → EvalM α} {f : InMemoryGraph → α → EvalM β} (hx : Fixed P x)
    (hf : ∀ a, P a → Fixed Q fun g => f g a) : Fixed Q fun g => x g >>= f g := by
  refine ⟨fun g g' => ?_, fun g => (hf _ (hx.2 g)).2 g⟩
  change ((f g (x g).1).1, EvalM.after (x g).2 (f g (x g).1).2) = _
  have hnext : f g (x g).1 = f g' (x g).1 := (hf _ (hx.2 g)).1 g g'
  rw [hnext, hx.1 g g']
  rfl

theorem ite {test : InMemoryGraph → Bool} (htest : ∀ g g', test g = test g')
    {x y : InMemoryGraph → EvalM α} (hx : Fixed P x) (hy : Fixed P y) :
    Fixed P fun g => if test g = true then x g else y g := by
  refine ⟨fun g g' => ?_, fun g => ?_⟩
  · simp only [htest g g']
    split
    · exact hx.1 g g'
    · exact hy.1 g g'
  · simp only
    split
    · exact hx.2 g
    · exact hy.2 g

end Fixed

/-- A builtin that finds entities by searching an index. -/
def Form.searchesIndex : Form → Bool
  | .function f _ =>
    ["index.fulltext_nodes", "index.fulltext_relationships", "index.vector_nodes",
      "index.vector_relationships"].contains f.name
  | _ => false

/-- What an expression is given instead of an entity: operators and builtins that read the graph
through entities only. A subquery reads it from the nodes it is given; `nodeVars` are the
variables of its node patterns, of which it has one at least. -/
structure ReadsEntities (ops : InMemoryGraph → ValueOps) (nodeVars : ℕ → List VarId) : Prop where
  form : ∀ form operands, form.searchesIndex = false → (∀ v ∈ operands, v.Plain) →
    Fixed LoraValue.Plain fun g => (ops g).form form operands
  valueEq : ∀ g g' a b, (ops g).valueEq a b = (ops g').valueEq a b
  builtList : ∀ items, (∀ v ∈ items, v.Plain) →
    Fixed LoraValue.Plain fun g => (ops g).builtList items
  mapProjection : ∀ base selectors literals, base.Plain → (∀ v ∈ literals, v.Plain) →
    Fixed LoraValue.Plain fun g => (ops g).mapProjection base selectors literals
  slice : ∀ base start stop, base.Plain → (∀ v ∈ start, v.Plain) → (∀ v ∈ stop, v.Plain) →
    Fixed LoraValue.Plain fun g => (ops g).slice base start stop
  subquery : ∀ query row, (∀ var ∈ nodeVars query, ∃ v, row var = some v ∧ v.Plain) →
    (∀ var v, row var = some v → v.Plain) →
    Fixed LoraValue.Plain fun g => (ops g).subquery query row

namespace ResolvedExpr

variable (nodeVars : ℕ → List VarId)

mutual

/-- An expression as the analyzer makes them, literals being no entities and subqueries listing
the variables of their patterns, that searches no index. -/
def searchesNone : ResolvedExpr → Bool
  | .variable _ => true
  | .literal value => !value.holdsEntity
  | .parameter _ => true
  | .apply form operands => !form.searchesIndex && searchesNoneAll operands
  | .and lhs rhs => searchesNone lhs && searchesNone rhs
  | .or lhs rhs => searchesNone lhs && searchesNone rhs
  | .case input alternatives elseExpr =>
    searchesNoneOption input && searchesNonePairs alternatives && searchesNoneOption elseExpr
  | .listPredicate _ _ list predicate => searchesNone list && searchesNone predicate
  | .listComprehension _ list filter mapExpr =>
    searchesNone list && searchesNoneOption filter && searchesNoneOption mapExpr
  | .reduce _ init _ list expr => searchesNone init && searchesNone list && searchesNone expr
  | .mapProjection base _ literals => searchesNone base && searchesNoneAll literals
  | .slice expr start stop =>
    searchesNone expr && searchesNoneOption start && searchesNoneOption stop
  | .subquery query reads => (nodeVars query).all fun var => reads.contains var
termination_by structural e => e

def searchesNoneAll : List ResolvedExpr → Bool
  | [] => true
  | e :: es => searchesNone e && searchesNoneAll es
termination_by structural es => es

def searchesNoneOption : Option ResolvedExpr → Bool
  | none => true
  | some e => searchesNone e
termination_by structural e => e

def searchesNonePairs : List (ResolvedExpr × ResolvedExpr) → Bool
  | [] => true
  | (when, branch) :: es => searchesNone when && searchesNone branch && searchesNonePairs es
termination_by structural es => es

end

/-! ### Plain rows -/

/-- A row binds some variables, all to values that hold no entity. -/
def PlainOn (vars : Finset VarId) (row : Row) : Prop :=
  ∀ var ∈ vars, ∃ value, row var = some value ∧ value.Plain

section Plain

variable {nodeVars} {vars vars' : Finset VarId} {row : Row}

theorem PlainOn.left (h : PlainOn (vars ∪ vars') row) : PlainOn vars row :=
  fun var hvar => h var (Finset.mem_union_left _ hvar)

theorem PlainOn.right (h : PlainOn (vars ∪ vars') row) : PlainOn vars' row :=
  fun var hvar => h var (Finset.mem_union_right _ hvar)

theorem PlainOn.insert (h : PlainOn vars row) (var : VarId) {value : LoraValue}
    (hvalue : value.Plain) : PlainOn vars (row.insert var value) := by
  intro var' hvar'
  by_cases heq : var' = var
  · exact ⟨value, by rw [heq, Row.insert_self], hvalue⟩
  · rw [Row.insert_of_ne _ _ heq]
    exact h var' hvar'

theorem plain_list {items : List LoraValue} :
    (LoraValue.list items).Plain ↔ ∀ v ∈ items, v.Plain := by
  rw [LoraValue.Plain, LoraValue.holdsEntity]
  induction items with
  | nil => simp [LoraValue.anyHoldsEntity]
  | cons item items ih =>
    rw [LoraValue.anyHoldsEntity, Bool.or_eq_false_iff, ih, List.forall_mem_cons]
    rfl

theorem plain_null : LoraValue.null.Plain := rfl

theorem plain_bool {b : Bool} : (LoraValue.bool b).Plain := rfl

theorem plain_andValues (l r : LoraValue) : (andValues l r).Plain := by
  rw [andValues.eq_def]
  split
  · rfl
  · split
    · rfl
    · rfl
  · split
    · rfl
    · rfl
  · rfl

theorem plain_orValues (l r : LoraValue) : (orValues l r).Plain := by
  rw [orValues.eq_def]
  split
  · rfl
  · split
    · rfl
    · rfl
  · split
    · rfl
    · rfl
  · rfl

/-! ### Loops -/

theorem fixed_listPredicateLoop {kind : ListPredicateKind}
    {test : InMemoryGraph → LoraValue → EvalM Bool}
    (htest : ∀ v, v.Plain → Fixed (fun _ => True) fun g => test g v) :
    ∀ (items : List LoraValue) (count : ℕ), (∀ v ∈ items, v.Plain) →
      Fixed (fun _ => True) fun g => listPredicateLoop kind (test g) count items
  | [], _, _ => .pure trivial
  | item :: items, count, h => by
    rw [List.forall_mem_cons] at h
    simp only [listPredicateLoop]
    refine (htest item h.1).bind fun passed _ => ?_
    have hrest := fun count => @fixed_listPredicateLoop kind test htest items count h.2
    cases passed with
    | true =>
      cases kind with
      | any => exact .pure trivial
      | none => exact .pure trivial
      | all => exact hrest _
      | single =>
        simp only [if_true]
        split
        · exact .pure trivial
        · exact hrest _
    | false =>
      cases kind with
      | any => exact hrest _
      | none => exact hrest _
      | all => exact .pure trivial
      | single => exact hrest _

theorem fixed_evalListPredicate {kind : ListPredicateKind}
    {test : InMemoryGraph → LoraValue → EvalM Bool}
    (htest : ∀ v, v.Plain → Fixed (fun _ => True) fun g => test g v) {value : LoraValue}
    (hvalue : value.Plain) :
    Fixed LoraValue.Plain fun g => evalListPredicate kind (test g) value := by
  cases value with
  | list items =>
    refine (fixed_listPredicateLoop htest items 0 (plain_list.mp hvalue)).bind fun found _ => ?_
    cases kind with
    | any => exact .pure plain_bool
    | all => exact .pure plain_bool
    | none => exact .pure plain_bool
    | single => exact .pure plain_bool
  | null => exact .pure plain_null
  | _ => exact .pure plain_bool

theorem fixed_comprehensionLoop {item : InMemoryGraph → LoraValue → EvalM (Option LoraValue)}
    (hitem : ∀ v, v.Plain → Fixed (fun kept => ∀ v ∈ kept, v.Plain) fun g => item g v) :
    ∀ (items : List LoraValue), (∀ v ∈ items, v.Plain) →
      Fixed (fun kept => ∀ v ∈ kept, v.Plain) fun g => comprehensionLoop (item g) items
  | [], _ => .pure (by simp)
  | value :: values, h => by
    rw [List.forall_mem_cons] at h
    simp only [comprehensionLoop]
    refine (hitem value h.1).bind fun kept hkept => ?_
    refine (fixed_comprehensionLoop hitem values h.2).bind fun rest hrest => .pure ?_
    intro v hv
    rw [List.mem_append, Option.mem_toList] at hv
    exact hv.elim (hkept v) (hrest v)

theorem fixed_reduceLoop {step : InMemoryGraph → LoraValue → LoraValue → EvalM LoraValue}
    (hstep : ∀ acc v, acc.Plain → v.Plain → Fixed LoraValue.Plain fun g => step g acc v) :
    ∀ (items : List LoraValue) (acc : LoraValue), acc.Plain → (∀ v ∈ items, v.Plain) →
      Fixed LoraValue.Plain fun g => reduceLoop (step g) acc items
  | [], _, hacc, _ => .pure hacc
  | item :: items, acc, hacc, h => by
    rw [List.forall_mem_cons] at h
    simp only [reduceLoop]
    exact (hstep acc item hacc h.1).bind fun acc hacc => fixed_reduceLoop hstep items acc hacc h.2

end Plain

/-! ### Evaluation -/

section Evaluation

variable {nodeVars} {ctx : SetContext}

/-- A builtin applied to values that hold no entity: `node.has_label` asks a node only. -/
theorem fixed_evalForm (hops : ReadsEntities ctx.ops nodeVars) {form : Form}
    (hform : form.searchesIndex = false) {operands : List LoraValue}
    (h : ∀ v ∈ operands, v.Plain) :
    Fixed LoraValue.Plain fun g => (ctx.evalContext g).evalForm form operands := by
  have hplain := hops.form form operands hform h
  cases form with
  | function function distinct =>
    simp only [EvalContext.evalForm]
    split
    next =>
      have hlabel : ∀ g, hasLabel g operands = .null := by
        intro g
        rw [hasLabel.eq_def]
        split
        next id label rest =>
          have := h (.node id) List.mem_cons_self
          cases this
        next => rfl
      refine ⟨fun g g' => ?_, fun g => ?_⟩
      · change pure (hasLabel g operands) = (pure (hasLabel g' operands) : EvalM LoraValue)
        rw [hlabel, hlabel]
      · change (hasLabel g operands).Plain
        rw [hlabel]
        rfl
    next => exact hplain
  | property key => exact hplain
  | binary op => exact hplain
  | unary op => exact hplain
  | list => exact hplain
  | map keys => exact hplain
  | index => exact hplain

mutual

/-- The value of an expression that searches no index, in a row that binds what it names to
values that hold no entity, is fixed and holds none. -/
theorem eval_fixed (hops : ReadsEntities ctx.ops nodeVars)
    (hparams : ∀ name value, ctx.params name = some value → value.Plain) :
    ∀ (e : ResolvedExpr) {row : Row}, searchesNone nodeVars e = true →
      PlainOn (e.varsWith true) row → Fixed LoraValue.Plain fun g => e.eval (ctx.evalContext g) row
  | .variable var, row, _, h => by
    obtain ⟨value, hvalue, hplain⟩ := h var (by simp [varsWith])
    simp only [eval, hvalue, Option.getD_some]
    exact .pure hplain
  | .literal value, row, hnone, _ => by
    rw [searchesNone, Bool.not_eq_true'] at hnone
    simp only [eval]
    exact .pure hnone
  | .parameter name, row, _, _ => by
    simp only [eval]
    change Fixed _ fun _ => (Pure.pure ((ctx.params name).getD .null) : EvalM LoraValue)
    refine .pure ?_
    cases hparam : ctx.params name with
    | none => rfl
    | some value => exact hparams name value hparam
  | .apply form operands, row, hnone, h => by
    rw [searchesNone, and_eq_true, Bool.not_eq_true'] at hnone
    rw [varsWith] at h
    simp only [eval]
    exact (evalAll_fixed hops hparams operands hnone.2 h).bind fun values hvalues =>
      fixed_evalForm hops hnone.1 hvalues
  | .and lhs rhs, row, hnone, h => by
    rw [searchesNone, and_eq_true] at hnone
    rw [varsWith] at h
    simp only [eval]
    refine (eval_fixed hops hparams lhs hnone.1 h.left).bind fun l _ => ?_
    split
    · exact .pure rfl
    · exact (eval_fixed hops hparams rhs hnone.2 h.right).bind fun r _ =>
        .pure (plain_andValues l r)
  | .or lhs rhs, row, hnone, h => by
    rw [searchesNone, and_eq_true] at hnone
    rw [varsWith] at h
    simp only [eval]
    refine (eval_fixed hops hparams lhs hnone.1 h.left).bind fun l _ => ?_
    split
    · exact .pure rfl
    · exact (eval_fixed hops hparams rhs hnone.2 h.right).bind fun r _ =>
        .pure (plain_orValues l r)
  | .case input alternatives elseExpr, row, hnone, h => by
    rw [searchesNone, and_eq_true, and_eq_true] at hnone
    rw [varsWith] at h
    simp only [eval]
    refine (evalOption_fixed hops hparams input hnone.1.1 h.left.left).bind fun input _ => ?_
    refine (evalCase_fixed hops hparams alternatives hnone.1.2 h.left.right).bind
      fun found hfound => ?_
    cases found with
    | some value => exact .pure (hfound value rfl)
    | none =>
      refine (evalOption_fixed hops hparams elseExpr hnone.2 h.right).bind
        fun other hother => .pure ?_
      cases other with
      | none => rfl
      | some value => exact hother value rfl
  | .listPredicate kind var list predicate, row, hnone, h => by
    rw [searchesNone, and_eq_true] at hnone
    rw [varsWith] at h
    simp only [eval]
    refine (eval_fixed hops hparams list hnone.1 h.left.right).bind fun items hitems => ?_
    refine fixed_evalListPredicate (fun v hv => ?_) hitems
    exact (eval_fixed hops hparams predicate hnone.2 (h.right.insert var hv)).bind
      fun _ _ => .pure trivial
  | .listComprehension var list filter mapExpr, row, hnone, h => by
    rw [searchesNone, and_eq_true, and_eq_true] at hnone
    rw [varsWith] at h
    simp only [eval]
    refine (eval_fixed hops hparams list hnone.1.1 h.left.left.right).bind fun items hitems => ?_
    have hmapped : ∀ v : LoraValue, v.Plain →
        Fixed (fun kept : Option LoraValue => ∀ v ∈ kept, v.Plain) (fun g => do
          let mapped ← evalOption (ctx.evalContext g) mapExpr (row.insert var v)
          pure (some (mapped.getD v))) := by
      intro v hv
      refine (evalOption_fixed hops hparams mapExpr hnone.2 (h.right.insert var hv)).bind
        fun mapped hmapped => .pure ?_
      intro w hw
      rw [Option.mem_some_iff] at hw
      subst hw
      cases mapped with
      | none => exact hv
      | some value => exact hmapped value rfl
    cases items with
    | list items =>
      refine (fixed_comprehensionLoop (fun v hv => ?_) items (plain_list.mp hitems)).bind
        fun kept hkept => hops.builtList kept hkept
      refine (evalOption_fixed hops hparams filter hnone.1.2
        (h.left.right.insert var hv)).bind fun kept _ => ?_
      cases kept with
      | none => exact hmapped v hv
      | some value =>
        simp only
        split
        · exact hmapped v hv
        · exact .pure (by simp)
    | _ => exact .pure plain_null
  | .reduce accumulator init var list expr, row, hnone, h => by
    rw [searchesNone, and_eq_true, and_eq_true] at hnone
    rw [varsWith] at h
    simp only [eval]
    refine (eval_fixed hops hparams init hnone.1.1 h.left.left.right).bind
      fun start hstart => ?_
    refine (eval_fixed hops hparams list hnone.1.2 h.left.right).bind fun items hitems => ?_
    cases items with
    | list items =>
      exact fixed_reduceLoop (fun acc v hacc hv => eval_fixed hops hparams expr hnone.2
        ((h.right.insert accumulator hacc).insert var hv)) items start hstart
        (plain_list.mp hitems)
    | _ => exact .pure plain_null
  | .mapProjection base selectors literals, row, hnone, h => by
    rw [searchesNone, and_eq_true] at hnone
    rw [varsWith] at h
    simp only [eval]
    refine (eval_fixed hops hparams base hnone.1 h.left).bind fun base hbase => ?_
    have hrest : Fixed LoraValue.Plain (fun g => do
        let values ← evalAll (ctx.evalContext g) literals row
        (ctx.ops g).mapProjection base selectors values) :=
      (evalAll_fixed hops hparams literals hnone.2 h.right).bind fun values hvalues =>
        hops.mapProjection base selectors values hbase hvalues
    cases base with
    | null => exact .pure plain_null
    | _ => exact hrest
  | .slice expr start stop, row, hnone, h => by
    rw [searchesNone, and_eq_true, and_eq_true] at hnone
    rw [varsWith] at h
    simp only [eval]
    refine (eval_fixed hops hparams expr hnone.1.1 h.left.left).bind fun base hbase => ?_
    cases base with
    | list items =>
      refine (evalOption_fixed hops hparams start hnone.1.2 h.left.right).bind
        fun start hstart => ?_
      exact (evalOption_fixed hops hparams stop hnone.2 h.right).bind fun stop hstop =>
        hops.slice _ start stop hbase hstart hstop
    | _ => exact .pure plain_null
  | .subquery query reads, row, hnone, h => by
    rw [searchesNone, List.all_eq_true] at hnone
    have hread : ∀ var ∈ reads, ∃ v, row var = some v ∧ v.Plain := fun var hvar =>
      h var (by simpa [varsWith] using hvar)
    simp only [eval]
    refine hops.subquery query _ (fun var hvar => ?_) fun var v hv => ?_
    · have hmem : var ∈ reads := by simpa using hnone var hvar
      simp only [hmem, if_true]
      exact hread var hmem
    · split at hv
      next hmem =>
        obtain ⟨value, hvalue, hplain⟩ := hread var hmem
        rw [hvalue, Option.some.injEq] at hv
        rwa [← hv]
      next => cases hv

theorem evalAll_fixed (hops : ReadsEntities ctx.ops nodeVars)
    (hparams : ∀ name value, ctx.params name = some value → value.Plain) :
    ∀ (es : List ResolvedExpr) {row : Row}, searchesNoneAll nodeVars es = true →
      PlainOn (varsWithAll true es) row →
      Fixed (fun values => ∀ v ∈ values, v.Plain) fun g => evalAll (ctx.evalContext g) es row
  | [], row, _, _ => by
    simp only [evalAll]
    exact .pure (by simp)
  | e :: es, row, hnone, h => by
    rw [searchesNoneAll, and_eq_true] at hnone
    rw [varsWithAll] at h
    simp only [evalAll]
    refine (eval_fixed hops hparams e hnone.1 h.left).bind fun value hvalue => ?_
    refine (evalAll_fixed hops hparams es hnone.2 h.right).bind fun values hvalues => .pure ?_
    exact List.forall_mem_cons.mpr ⟨hvalue, hvalues⟩

theorem evalOption_fixed (hops : ReadsEntities ctx.ops nodeVars)
    (hparams : ∀ name value, ctx.params name = some value → value.Plain) :
    ∀ (e : Option ResolvedExpr) {row : Row}, searchesNoneOption nodeVars e = true →
      PlainOn (varsWithOption true e) row →
      Fixed (fun value => ∀ v ∈ value, v.Plain) fun g => evalOption (ctx.evalContext g) e row
  | none, row, _, _ => by
    simp only [evalOption]
    exact .pure (by simp)
  | some e, row, hnone, h => by
    rw [searchesNoneOption] at hnone
    rw [varsWithOption] at h
    simp only [evalOption]
    refine (eval_fixed hops hparams e hnone h).bind fun value hvalue => .pure ?_
    intro v hv
    rw [Option.mem_some_iff] at hv
    rwa [← hv]

theorem evalCase_fixed (hops : ReadsEntities ctx.ops nodeVars)
    (hparams : ∀ name value, ctx.params name = some value → value.Plain)
    {input : Option LoraValue} :
    ∀ (es : List (ResolvedExpr × ResolvedExpr)) {row : Row}, searchesNonePairs nodeVars es = true →
      PlainOn (varsWithPairs true es) row →
      Fixed (fun value => ∀ v ∈ value, v.Plain) fun g => evalCase (ctx.evalContext g) input es row
  | [], row, _, _ => by
    simp only [evalCase]
    exact .pure (by simp)
  | (when, branch) :: es, row, hnone, h => by
    rw [searchesNonePairs, and_eq_true, and_eq_true] at hnone
    rw [varsWithPairs] at h
    simp only [evalCase]
    refine (eval_fixed hops hparams when hnone.1.1 h.left.left).bind fun value _ => ?_
    have hbranch : Fixed (fun value : Option LoraValue => ∀ v ∈ value, v.Plain) (fun g => do
        let value ← eval (ctx.evalContext g) branch row
        pure (some value)) := by
      refine (eval_fixed hops hparams branch hnone.1.2 h.left.right).bind
        fun value hvalue => .pure ?_
      intro v hv
      rw [Option.mem_some_iff] at hv
      rwa [← hv]
    have hrest := @evalCase_fixed hops hparams input es row hnone.2 h.right
    cases input with
    | none => exact .ite (fun _ _ => rfl) hbranch hrest
    | some input => exact .ite (fun g g' => hops.valueEq g g' input value) hbranch hrest

end

end Evaluation

end ResolvedExpr

end LoraDb
