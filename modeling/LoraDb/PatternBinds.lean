import LoraDb.PatternJoins

/-!
# What Pattern Operators Bind

A row that comes out of a pattern plan binds what the row it came from binds, unchanged, and every
variable of the operators it passed. A plan that succeeds has bound its whole pattern.

## Main results

* `runRow_grows`: an operator only adds bindings to a row.
* `run_binds`: what a row of a plan that succeeds binds.
-/

namespace LoraDb

/-- The variables an operator binds. -/
def MatchOp.vars : MatchOp → Finset VarId
  | .nodeScan var _ => {var}
  | .expand _ rel dst _ _ _ => {dst} ∪ rel.toFinset
  | .filter _ => ∅

/-- `row'` binds what `row` binds, and some variables more. -/
def Binds (row : Row) (vars : Finset VarId) (row' : Row) : Prop :=
  (∀ var, row var ≠ none → row' var ≠ none) ∧ ∀ var ∈ vars, row' var ≠ none

section Binds

variable {ctx : EvalContext} {row row' : Row} {vars vars' : Finset VarId}

theorem Binds.trans {row'' : Row} (h : Binds row vars row') (h' : Binds row' vars' row'') :
    Binds row (vars ∪ vars') row'' := by
  refine ⟨fun var hvar => h'.1 var (h.1 var hvar), fun var hvar => ?_⟩
  rcases Finset.mem_union.mp hvar with hvar | hvar
  · exact h'.1 var (h.2 var hvar)
  · exact h'.2 var hvar

/-- `row'` has the bindings of `row`, unchanged. -/
def Carries (row row' : Row) : Prop := ∀ var value, row var = some value → row' var = some value

theorem Carries.refl (row : Row) : Carries row row := fun _ _ h => h

theorem Carries.trans {row'' : Row} (h : Carries row row') (h' : Carries row' row'') :
    Carries row row'' :=
  fun var value hvalue => h' var value (h var value hvalue)

/-- `row'` is `row` with some variables bound that `row` did not bind. -/
structure Grows (row : Row) (vars : Finset VarId) (row' : Row) : Prop where
  binds : Binds row vars row'
  carries : Carries row row'
  frame : ∀ var, var ∉ vars → row' var = row var

theorem Grows.trans {row'' : Row} (h : Grows row vars row') (h' : Grows row' vars' row'') :
    Grows row (vars ∪ vars') row'' := by
  refine ⟨h.binds.trans h'.binds, h.carries.trans h'.carries, fun var hvar => ?_⟩
  rw [Finset.notMem_union] at hvar
  exact (h'.frame var hvar.2).trans (h.frame var hvar.1)

/-- What a row already binds adds nothing. -/
theorem grows_bound (h : ∀ var ∈ vars, row var ≠ none) : Grows row vars row :=
  ⟨⟨fun _ h => h, h⟩, Carries.refl row, fun _ _ => rfl⟩

theorem grows_empty (row : Row) : Grows row ∅ row := grows_bound (by simp)

theorem grows_insert {var : VarId} (value : LoraValue) (h : row var = none) :
    Grows row {var} (row.insert var value) := by
  have hne : ∀ v, v ≠ var → row.insert var value v = row v :=
    fun v hv => Row.insert_of_ne _ _ hv
  have hother : ∀ v, row v ≠ none → v ≠ var := by
    rintro v hv rfl
    exact hv h
  refine ⟨⟨fun v hv => ?_, fun v hv => ?_⟩, fun v w hv => ?_, fun v hv => hne v (by simpa using hv)⟩
  · rw [hne v (hother v hv)]
    exact hv
  · obtain rfl := Finset.mem_singleton.mp hv
    simp
  · rw [hne v (hother v (by simp [hv]))]
    exact hv

theorem grows_bindNew (row : Row) (var : VarId) (value : LoraValue) :
    Grows row {var} (row.bindNew var value) := by
  rw [Row.bindNew]
  split
  next h =>
    refine grows_bound fun v hv => ?_
    obtain rfl := Finset.mem_singleton.mp hv
    exact Option.isSome_iff_ne_none.mp h
  next h => exact grows_insert value (by simpa using h)

variable {out : List Row}

theorem scanRow_grows {var : VarId} {labels : LabelGroups}
    (hok : ctx.scanRow var labels row = .ok out) (hmem : row' ∈ out) : Grows row {var} row' := by
  rw [EvalContext.scanRow] at hok
  cases hbound : boundNodeIdForExpand row var with
  | error err =>
    rw [hbound] at hok
    cases hok
  | ok bound =>
    rw [hbound] at hok
    rcases boundNode_cases hbound with ⟨id, hrow, rfl⟩ | ⟨-, rfl⟩ | ⟨hrow, rfl⟩
    · obtain rfl := Except.ok.inj hok
      split at hmem
      · obtain rfl := List.mem_singleton.mp hmem
        refine grows_bound fun v hv => ?_
        obtain rfl := Finset.mem_singleton.mp hv
        simp [hrow]
      · cases hmem
    · obtain rfl := Except.ok.inj hok
      cases hmem
    · obtain rfl := Except.ok.inj hok
      obtain ⟨id, -, rfl⟩ := List.mem_map.mp hmem
      exact grows_insert _ hrow

theorem expandEdge_grows {rel : Option VarId} {dst : VarId} {e : RelationshipId} {b : NodeId}
    (hok : EvalContext.expandEdge rel dst row e b = .ok out) (hmem : row' ∈ out) :
    Grows row ({dst} ∪ rel.toFinset) row' := by
  rw [EvalContext.expandEdge] at hok
  cases hbound : boundNodeIdForExpand row dst with
  | error err =>
    rw [hbound] at hok
    cases hok
  | ok bound =>
    rw [hbound] at hok
    change (if fits bound b = true then _ else _) = _ at hok
    split at hok
    · refine (grows_bindNew row dst (.node b)).trans ?_
      cases rel with
      | none =>
        obtain rfl := Except.ok.inj hok
        obtain rfl := List.mem_singleton.mp hmem
        exact grows_empty _
      | some r =>
        rw [EvalContext.bindRelationship] at hok
        cases hrel : boundRelationshipIdForExpand row r with
        | error err =>
          rw [hrel] at hok
          cases hok
        | ok boundRel =>
          rw [hrel] at hok
          obtain rfl := Except.ok.inj hok
          split at hmem
          · obtain rfl := List.mem_singleton.mp hmem
            simpa using grows_bindNew (row.bindNew dst (.node b)) r (.relationship e)
          · cases hmem
    · obtain rfl := Except.ok.inj hok
      cases hmem

theorem expandRow_grows {src dst : VarId} {rel : Option VarId} {types : List String}
    {direction : Direction} {relProperties : Option ResolvedExpr}
    (hok : ctx.expandRow src rel dst types direction relProperties row = .ok out)
    (hmem : row' ∈ out) : Grows row ({dst} ∪ rel.toFinset) row' := by
  rw [EvalContext.expandRow] at hok
  cases hbound : boundNodeIdForExpand row src with
  | error err =>
    rw [hbound] at hok
    cases hok
  | ok bound =>
    rw [hbound] at hok
    rcases boundNode_cases hbound with ⟨id, -, rfl⟩ | ⟨-, rfl⟩ | ⟨-, rfl⟩
    · cases hedges : (ctx.storage.expandIds id direction types).isEmpty with
      | true =>
        simp only [bind, Except.bind, hedges, if_true] at hok
        obtain rfl := Except.ok.inj hok
        cases hmem
      | false =>
        cases hprops : ctx.relPropertyFilter relProperties row with
        | error err =>
          simp only [bind, Except.bind, hedges, hprops] at hok
          cases hok
        | ok expected =>
          simp only [bind, Except.bind, hedges, hprops] at hok
          cases houts : ((ctx.storage.expandIds id direction types).filter
              fun edge => ctx.relKept expected edge.1).mapM
                fun edge => EvalContext.expandEdge rel dst row edge.1 edge.2 with
          | error err =>
            rw [houts] at hok
            cases hok
          | ok outs =>
            rw [houts] at hok
            obtain rfl := Except.ok.inj hok
            obtain ⟨edgeOut, hedgeOut, hmem⟩ := List.mem_flatten.mp hmem
            obtain ⟨edge, -, hedge⟩ :=
              EvalContext.forall₂_mem_right (EvalContext.mapM_ok.mp houts) hedgeOut
            exact expandEdge_grows hedge hmem
    · obtain rfl := Except.ok.inj hok
      cases hmem
    · obtain rfl := Except.ok.inj hok
      cases hmem

theorem runRow_grows {op : MatchOp} (hok : ctx.runRow op row = .ok out)
    (hmem : row' ∈ out) : Grows row op.vars row' := by
  cases op with
  | nodeScan var labels => exact scanRow_grows hok hmem
  | expand src rel dst types direction relProperties => exact expandRow_grows hok hmem
  | filter predicate =>
    rw [EvalContext.runRow] at hok
    cases htruthy : ctx.evalTruthy predicate row with
    | error err =>
      rw [htruthy] at hok
      cases hok
    | ok b =>
      rw [htruthy] at hok
      obtain rfl := Except.ok.inj hok
      split at hmem
      · obtain rfl := List.mem_singleton.mp hmem
        exact grows_empty _
      · cases hmem

/-- Every row of a plan binds what some row it started from binds, and what its operators
bind. -/
theorem run_binds {ops : List MatchOp} {rows out : List Row} (hok : ctx.run ops rows = .ok out)
    (hmem : row' ∈ out) :
    ∃ row ∈ rows, (∀ var, row var ≠ none → row' var ≠ none) ∧
      ∀ op ∈ ops, ∀ var ∈ op.vars, row' var ≠ none := by
  induction ops generalizing rows with
  | nil =>
    obtain rfl := Except.ok.inj hok
    exact ⟨row', hmem, fun _ h => h, by simp⟩
  | cons op ops ih =>
    obtain ⟨mid, hmid, hrest⟩ := EvalContext.run_cons_eq_ok.mp hok
    obtain ⟨between, hbetween, hgrows, hops⟩ := ih hrest
    obtain ⟨rowOut, hrowOut, hbetween⟩ := List.mem_flatten.mp hbetween
    obtain ⟨row, hrow, hrun⟩ := EvalContext.forall₂_mem_right hmid hrowOut
    have hbinds := (runRow_grows hrun hbetween).binds
    refine ⟨row, hrow, fun var hvar => hgrows var (hbinds.1 var hvar), ?_⟩
    rintro op' hop' var hvar
    rcases List.mem_cons.mp hop' with rfl | hop'
    · exact hgrows var (hbinds.2 var hvar)
    · exact hops op' hop' var hvar

end Binds

end LoraDb
