import LoraDb.PathPull

/-!
# OPTIONAL MATCH

The inner pattern of an OPTIONAL MATCH runs once for each row of its input, seeded with the
row's bindings; a row nothing is found for comes out once, with the pattern's variables null. Each
row that is found is still compared with the input row, column by column, a guard should an
operator rebind a variable. A value that does not equal itself fails that guard.

A plan may rebind variables: the relationships of a variable-length walk and a path replace what
the row held (`pull_rebinds`). A row so changed is no match of the pattern on the input row,
and the guard is there to drop it.

The operator comes twice: the buffered one takes all input rows at once, the source in the pull
pipeline is asked for one row after another.

## Main results

* `stream_eq`, `correlatedOptionalMatchRows_eq`: both operators give the same rows, but for the
  buffered one's cap.
* `optionalMatch_iff`: on which rows they are a left outer join.
-/

open List LoraDb.PathPlan

namespace LoraDb

/-! ### Inner plans -/

/-- A plan that is run seeded with a row, whatever its operators, and the variables they
rebind, to paths or lists of relationships. -/
structure InnerPlan where
  rows : Row → Except ExecutorError (List Row)
  rebound : Finset VarId
  carries : ∀ {row out}, rows row = .ok out → ∀ row' ∈ out, CarriesBut rebound row row'

/-- The inner plan of a pattern and its WHERE. -/
def InnerPlan.ofOps (ctx : EvalContext) (ops : List PathOp) : InnerPlan where
  rows row := pull ctx ops [row]
  rebound := reboundVars ops
  carries hok row' hmem := by
    obtain ⟨row, hrow, hcarries⟩ := pull_rebinds hok hmem
    exact mem_singleton.mp hrow ▸ hcarries

/-! ### The operator -/

/-- An input row: the variables it binds, in order, and which of its values are shared behind
a pointer by every row cloned from it. -/
structure OuterRow where
  values : Row
  vars : List VarId
  mem_vars : ∀ var, var ∈ vars ↔ values var ≠ none
  shared : VarId → Bool

/-- The columns the two rows have in common are equal, or one value behind one pointer: a value
that was rebound is behind a pointer of its own. -/
def optionalRowsCompatible (rebound : Finset VarId) (inputRow : OuterRow) (innerRow : Row) : Bool :=
  inputRow.vars.all fun var =>
    match inputRow.values var, innerRow var with
    | some value, some innerValue =>
      inputRow.shared var && decide (var ∉ rebound) || innerValue.eq value
    | _, _ => true

/-- The input row, with the columns of the inner row that it has not. -/
def mergeOptionalRows (inputRow innerRow : Row) : Row :=
  fun var => (inputRow var).or (innerRow var)

/-- The input row, the pattern's new variables null. -/
def nullExtendOptionalRow (inputRow : Row) (newVars : List VarId) : Row :=
  newVars.foldl (fun row var => row.bindNew var .null) inputRow

theorem nullExtend_cons (row : Row) (newVar : VarId) (newVars : List VarId) :
    nullExtendOptionalRow row (newVar :: newVars) =
      nullExtendOptionalRow (row.bindNew newVar .null) newVars := rfl

theorem nullExtend_bound {row : Row} {newVars : List VarId} {var : VarId} (h : row var ≠ none) :
    nullExtendOptionalRow row newVars var = row var := by
  induction newVars generalizing row with
  | nil => rfl
  | cons newVar newVars ih =>
    obtain ⟨value, hvalue⟩ := Option.ne_none_iff_exists'.mp h
    have hkept := (grows_bindNew row newVar .null).carries var value hvalue
    rw [nullExtend_cons]
    exact (ih (by simp [hkept])).trans (hkept.trans hvalue.symm)

/-- Variables the row binds keep their value, and the new ones become null. -/
theorem nullExtend_apply (row : Row) (newVars : List VarId) (var : VarId) :
    nullExtendOptionalRow row newVars var =
      (row var).or (if var ∈ newVars then some .null else none) := by
  cases hrow : row var with
  | some value => exact (nullExtend_bound (by simp [hrow])).trans hrow
  | none =>
    induction newVars generalizing row with
    | nil => simpa [nullExtendOptionalRow] using hrow
    | cons newVar newVars ih =>
      rw [nullExtend_cons]
      by_cases heq : var = newVar
      · have hbound : row.bindNew newVar .null var = some .null := by
          rw [Row.bindNew, heq]
          simp [← heq, hrow]
        rw [nullExtend_bound (by simp [hbound]), hbound]
        simp [heq]
      · have hfree : row.bindNew newVar .null var = none := by
          rw [Row.bindNew]
          split
          · exact hrow
          · rw [Row.insert_of_ne _ _ heq]
            exact hrow
        rw [ih _ hfree]
        simp [heq]

inductive OptionalError where
  | inner (error : ExecutorError)
  | resultTooLarge (maxRows : ℕ)

variable (plan : InnerPlan) (newVars : List VarId)

/-- The buffered operator, for one input row. -/
def correlatedStep (cap : ℕ) (out : List Row) (inputRow : OuterRow) :
    Except OptionalError (List Row) :=
  if cap < out.length then .error (.resultTooLarge cap)
  else
    match plan.rows inputRow.values with
    | .error error => .error (.inner error)
    | .ok innerRows =>
      match innerRows.filter (optionalRowsCompatible plan.rebound inputRow) with
      | [] => .ok (out ++ [nullExtendOptionalRow inputRow.values newVars])
      | found => .ok (out ++ found.map (mergeOptionalRows inputRow.values))

/-- The buffered operator; it fails once it holds more than `cap` rows. -/
def correlatedOptionalMatchRows (cap : ℕ) (inputRows : List OuterRow) :
    Except OptionalError (List Row) :=
  inputRows.foldlM (correlatedStep plan newVars cap) []

/-- Where the source is between two rows. -/
inductive OptionalMatchState where
  | awaitingInput
  /-- `ownRows` are the inner rows still to look at. -/
  | scanning (inputRow : OuterRow) (ownRows : List Row) (matched : Bool)

/-- The source, with the rows its upstream will give. -/
structure OptionalMatchSource where
  upstream : List OuterRow
  state : OptionalMatchState

/-- The next compatible row, and the rows after it. -/
def nextMatch (inputRow : OuterRow) : List Row → Option (Row × List Row)
  | [] => none
  | innerRow :: rest =>
    if optionalRowsCompatible plan.rebound inputRow innerRow then
      some (mergeOptionalRows inputRow.values innerRow, rest)
    else nextMatch inputRow rest

/-- Start on the next input row: its first match, or the row itself. -/
def nextInput (upstream : List OuterRow) :
    Except ExecutorError (Option (Row × OptionalMatchSource)) :=
  match upstream with
  | [] => .ok none
  | inputRow :: upstream => do
    let ownRows ← plan.rows inputRow.values
    match nextMatch plan inputRow ownRows with
    | some (row, rest) => pure (some (row, ⟨upstream, .scanning inputRow rest true⟩))
    | none => pure (some (nullExtendOptionalRow inputRow.values newVars,
      ⟨upstream, .awaitingInput⟩))

/-- One row of the source, or none when it is done. -/
def nextRow (src : OptionalMatchSource) :
    Except ExecutorError (Option (Row × OptionalMatchSource)) :=
  match src.state with
  | .awaitingInput => nextInput plan newVars src.upstream
  | .scanning inputRow ownRows matched =>
    match nextMatch plan inputRow ownRows with
    | some (row, rest) => .ok (some (row, ⟨src.upstream, .scanning inputRow rest true⟩))
    | none =>
      if matched then nextInput plan newVars src.upstream
      else .ok (some (nullExtendOptionalRow inputRow.values newVars,
        ⟨src.upstream, .awaitingInput⟩))

/-- Pull a source dry. -/
inductive Drains : OptionalMatchSource → Except ExecutorError (List Row) → Prop where
  | done {src : OptionalMatchSource} (h : nextRow plan newVars src = .ok none) : Drains src (.ok [])
  | row {src src' : OptionalMatchSource} {row : Row} {out : Except ExecutorError (List Row)}
      (h : nextRow plan newVars src = .ok (some (row, src'))) (hrest : Drains src' out) :
      Drains src (out.map (row :: ·))
  | fails {src : OptionalMatchSource} {error : ExecutorError}
      (h : nextRow plan newVars src = .error error) : Drains src (.error error)

/-! ### What the operators give -/

/-- The rows that come out for one input row. -/
def optionalRow (inputRow : OuterRow) (innerRows : List Row) : List Row :=
  match innerRows.filter (optionalRowsCompatible plan.rebound inputRow) with
  | [] => [nullExtendOptionalRow inputRow.values newVars]
  | found => found.map (mergeOptionalRows inputRow.values)

/-- The rows of a step for each input row, one after another. -/
def eachRow (step : OuterRow → List Row → List Row) :
    List OuterRow → Except ExecutorError (List Row)
  | [] => .ok []
  | inputRow :: inputRows => do
    let innerRows ← plan.rows inputRow.values
    let out ← eachRow step inputRows
    pure (step inputRow innerRows ++ out)

variable {plan newVars} {inputRow : OuterRow} {innerRows : List Row}

theorem nextMatch_none (h : nextMatch plan inputRow innerRows = none) :
    innerRows.filter (optionalRowsCompatible plan.rebound inputRow) = [] := by
  induction innerRows with
  | nil => rfl
  | cons innerRow innerRows ih =>
    rw [nextMatch] at h
    split at h
    · cases h
    next hcompatible =>
      rw [filter_cons_of_neg hcompatible]
      exact ih h

theorem nextMatch_some {innerRows rest : List Row} {row : Row}
    (h : nextMatch plan inputRow innerRows = some (row, rest)) :
    ∃ innerRow, row = mergeOptionalRows inputRow.values innerRow ∧
      innerRows.filter (optionalRowsCompatible plan.rebound inputRow) =
        innerRow :: rest.filter (optionalRowsCompatible plan.rebound inputRow) := by
  induction innerRows with
  | nil => cases h
  | cons innerRow innerRows ih =>
    rw [nextMatch] at h
    split at h
    next hcompatible =>
      cases h
      exact ⟨innerRow, rfl, filter_cons_of_pos hcompatible⟩
    next hcompatible =>
      rw [filter_cons_of_neg hcompatible]
      exact ih h

theorem Drains.congr {src src' : OptionalMatchSource} {out : Except ExecutorError (List Row)}
    (h : Drains plan newVars src out)
    (hsame : nextRow plan newVars src' = nextRow plan newVars src) :
    Drains plan newVars src' out := by
  cases h with
  | done h => exact .done (hsame.trans h)
  | row h hrest => exact .row (hsame.trans h) hrest
  | fails h => exact .fails (hsame.trans h)

/-- A source gives one list of rows. -/
theorem Drains.unique {src : OptionalMatchSource} {out out' : Except ExecutorError (List Row)}
    (h : Drains plan newVars src out) (h' : Drains plan newVars src out') : out = out' := by
  induction h generalizing out' with
  | done h =>
    cases h' with
    | done _ => rfl
    | row h' _ => cases h.symm.trans h'
    | fails h' => cases h.symm.trans h'
  | row h _ ih =>
    cases h' with
    | done h' => cases h.symm.trans h'
    | row h' hrest' =>
      cases h.symm.trans h'
      rw [ih hrest']
    | fails h' => cases h.symm.trans h'
  | fails h =>
    cases h' with
    | done h' => cases h.symm.trans h'
    | row h' _ => cases h.symm.trans h'
    | fails h' =>
      cases h.symm.trans h'
      rfl

/-- What is left of one input row comes before the input rows after it. -/
theorem drains_scanning {upstream : List OuterRow} {out : Except ExecutorError (List Row)}
    (h : Drains plan newVars ⟨upstream, .awaitingInput⟩ out) :
    Drains plan newVars ⟨upstream, .scanning inputRow innerRows true⟩
      (out.map (((innerRows.filter (optionalRowsCompatible plan.rebound inputRow)).map
        (mergeOptionalRows inputRow.values)) ++ ·)) := by
  induction innerRows with
  | nil =>
    have hout : out.map (([] : List Row) ++ ·) = out := by cases out <;> rfl
    rw [filter_nil, map_nil, hout]
    exact h.congr rfl
  | cons innerRow innerRows ih =>
    cases hcompatible : optionalRowsCompatible plan.rebound inputRow innerRow with
    | true =>
      rw [filter_cons_of_pos hcompatible, map_cons]
      have hnext : nextRow plan newVars
          ⟨upstream, .scanning inputRow (innerRow :: innerRows) true⟩ =
            .ok (some (mergeOptionalRows inputRow.values innerRow,
              ⟨upstream, .scanning inputRow innerRows true⟩)) := by
        simp [nextRow, nextMatch, hcompatible]
      have hrow := Drains.row hnext ih
      cases out <;> exact hrow
    | false =>
      rw [filter_cons_of_neg (by simp [hcompatible])]
      exact ih.congr (by simp [nextRow, nextMatch, hcompatible])

/-- The source, pulled dry. -/
theorem stream_eq (inputRows : List OuterRow) : Drains plan newVars ⟨inputRows, .awaitingInput⟩
      (eachRow plan (optionalRow plan newVars) inputRows) := by
  induction inputRows with
  | nil => exact .done rfl
  | cons inputRow inputRows ih =>
    cases hrows : plan.rows inputRow.values with
    | error error =>
      rw [eachRow, hrows]
      refine .fails ?_
      rw [nextRow, nextInput, hrows]
      rfl
    | ok innerRows =>
      have heach : eachRow plan (optionalRow plan newVars) (inputRow :: inputRows) =
          (eachRow plan (optionalRow plan newVars) inputRows).map
            (optionalRow plan newVars inputRow innerRows ++ ·) := by
        rw [eachRow, hrows]
        cases eachRow plan (optionalRow plan newVars) inputRows <;> rfl
      rw [heach, optionalRow]
      cases hmatch : nextMatch plan inputRow innerRows with
      | none =>
        rw [nextMatch_none hmatch]
        refine .row ?_ ih
        rw [nextRow, nextInput, hrows]
        simp only [bind, Except.bind, hmatch]
        rfl
      | some found =>
        obtain ⟨innerRow, hfound, hfilter⟩ := nextMatch_some hmatch
        rw [hfilter]
        have hnext : nextRow plan newVars ⟨inputRow :: inputRows, .awaitingInput⟩ =
            .ok (some (found.1, ⟨inputRows, .scanning inputRow found.2 true⟩)) := by
          rw [nextRow, nextInput, hrows]
          simp only [bind, Except.bind, hmatch]
          rfl
        have hrow := Drains.row hnext (drains_scanning ih)
        rw [hfound] at hrow
        cases heach' : eachRow plan (optionalRow plan newVars) inputRows <;>
          rw [heach'] at hrow <;> exact hrow

theorem correlatedStep_eq {cap : ℕ} {out : List Row} (hcap : ¬ cap < out.length) :
    correlatedStep plan newVars cap out inputRow =
      match plan.rows inputRow.values with
      | .error error => .error (.inner error)
      | .ok innerRows => .ok (out ++ optionalRow plan newVars inputRow innerRows) := by
  rw [correlatedStep, if_neg hcap]
  cases plan.rows inputRow.values with
  | error error => rfl
  | ok innerRows =>
    simp only [optionalRow]
    cases innerRows.filter (optionalRowsCompatible plan.rebound inputRow) <;> rfl

/-- The rows for the input rows before one of them are more than `cap`, next to those already
held. -/
def Exceeds (plan : InnerPlan) (step : OuterRow → List Row → List Row) (cap held : ℕ)
    (inputRows : List OuterRow) : Prop :=
  ∃ before inputRow after rows, inputRows = before ++ inputRow :: after ∧
    eachRow plan step before = .ok rows ∧ cap < held + rows.length

theorem not_exceeds_nil {step : OuterRow → List Row → List Row} {cap held : ℕ} :
    ¬ Exceeds plan step cap held [] := by
  rintro ⟨before, inputRow, after, rows, hinput, -⟩
  simp at hinput

variable {inputRows : List OuterRow}

/-- Too many rows are held before the first input row, or after it before a later one. -/
theorem exceeds_cons {step : OuterRow → List Row → List Row} {cap held : ℕ}
    : Exceeds plan step cap held (inputRow :: inputRows) ↔
      cap < held ∨ ∃ innerRows, plan.rows inputRow.values = .ok innerRows ∧
        Exceeds plan step cap (held + (step inputRow innerRows).length) inputRows := by
  constructor
  · rintro ⟨before, next, after, rows, hinput, hrows, hcap⟩
    cases before with
    | nil =>
      obtain rfl := Except.ok.inj hrows
      exact Or.inl hcap
    | cons first before =>
      obtain ⟨rfl, hrest⟩ := cons_eq_cons.mp hinput
      rw [eachRow] at hrows
      cases hinner : plan.rows inputRow.values with
      | error error =>
        rw [hinner] at hrows
        cases hrows
      | ok innerRows =>
        rw [hinner] at hrows
        cases hout : eachRow plan step before with
        | error error =>
          simp only [bind, Except.bind, hout] at hrows
          cases hrows
        | ok out =>
          simp only [bind, Except.bind, hout] at hrows
          obtain rfl := Except.ok.inj hrows
          rw [length_append, ← Nat.add_assoc] at hcap
          exact Or.inr ⟨innerRows, rfl, before, next, after, out, hrest, hout, hcap⟩
  · rintro (hcap | ⟨innerRows, hinner, before, next, after, out, rfl, hout, hcap⟩)
    · exact ⟨[], inputRow, inputRows, [], rfl, rfl, hcap⟩
    · refine ⟨inputRow :: before, next, after, step inputRow innerRows ++ out, rfl, ?_, ?_⟩
      · rw [eachRow, hinner]
        simp only [bind, Except.bind, hout]
        rfl
      · rw [length_append, ← Nat.add_assoc]
        exact hcap

/-- What the buffered operator gives: an error when the rows so far exceed the cap, and the rows
of each input row otherwise. -/
def BufferedGives (plan : InnerPlan) (newVars : List VarId)
    (step : OuterRow → List Row → List Row) (cap : ℕ) (out : List Row)
    (inputRows : List OuterRow) : Prop :=
  (Exceeds plan step cap out.length inputRows →
      inputRows.foldlM (correlatedStep plan newVars cap) out = .error (.resultTooLarge cap)) ∧
    (¬ Exceeds plan step cap out.length inputRows →
      inputRows.foldlM (correlatedStep plan newVars cap) out =
        ((eachRow plan step inputRows).map (out ++ ·)).mapError .inner)

/-- The buffered operator gives the rows of each input row in turn, up to its cap. -/
theorem foldlM_correlatedStep (cap : ℕ) (inputRows : List OuterRow) (out : List Row) :
    BufferedGives plan newVars (optionalRow plan newVars) cap out inputRows := by
  induction inputRows generalizing out with
  | nil =>
    refine ⟨fun h => absurd h not_exceeds_nil, fun _ => ?_⟩
    simp [eachRow, Except.map, Except.mapError, pure, Except.pure]
  | cons inputRow inputRows ih =>
    rw [BufferedGives, exceeds_cons, foldlM_cons]
    by_cases hcap : cap < out.length
    · refine ⟨fun _ => ?_, fun h => absurd (Or.inl hcap) h⟩
      rw [correlatedStep, if_pos hcap]
      rfl
    · rw [correlatedStep_eq hcap, eachRow]
      cases hinner : plan.rows inputRow.values with
      | error error =>
        refine ⟨?_, fun _ => rfl⟩
        rintro (h | ⟨innerRows, hrows, -⟩)
        · exact absurd h hcap
        · cases hrows
      | ok innerRows =>
        obtain ⟨hfails, hgives⟩ := ih (out ++ optionalRow plan newVars inputRow innerRows)
        rw [length_append] at hfails hgives
        constructor
        · rintro (h | ⟨innerRows', hrows, h⟩)
          · exact absurd h hcap
          · obtain rfl := Except.ok.inj hrows
            exact hfails h
        · intro h
          refine (hgives fun hexceeds => h (Or.inr ⟨innerRows, rfl, hexceeds⟩)).trans ?_
          cases eachRow plan (optionalRow plan newVars) inputRows with
          | error error => rfl
          | ok rest => exact congrArg Except.ok (append_assoc _ _ _)

/-- The buffered operator gives the same rows, unless they are too many for it. -/
theorem correlatedOptionalMatchRows_eq (cap : ℕ) (inputRows : List OuterRow) :
    BufferedGives plan newVars (optionalRow plan newVars) cap [] inputRows :=
  foldlM_correlatedStep cap inputRows []

/-! ### The left outer join -/

open Classical in
/-- The matches of a pattern on a row: the rows found that leave what it binds as it is. -/
noncomputable def matchesOn (inputRow : OuterRow) (innerRows : List Row) : List Row :=
  innerRows.filter fun row' => decide (Carries inputRow.values row')

/-- A row, extended by each match of the pattern on it; once with nulls when there is none. -/
noncomputable def leftJoinRow (newVars : List VarId) (inputRow : OuterRow)
    (innerRows : List Row) : List Row :=
  match matchesOn inputRow innerRows with
  | [] => [nullExtendOptionalRow inputRow.values newVars]
  | found => found.map (mergeOptionalRows inputRow.values)

/-- Both operators give the **left outer join** of some input rows; the buffered one fails where
the rows for the input rows before one of them exceed its cap. -/
def IsLeftJoin (plan : InnerPlan) (newVars : List VarId) (inputRows : List OuterRow) : Prop :=
  Drains plan newVars ⟨inputRows, .awaitingInput⟩ (eachRow plan (leftJoinRow newVars) inputRows) ∧
    ∀ cap, (Exceeds plan (leftJoinRow newVars) cap 0 inputRows →
        correlatedOptionalMatchRows plan newVars cap inputRows = .error (.resultTooLarge cap)) ∧
      (¬ Exceeds plan (leftJoinRow newVars) cap 0 inputRows →
        correlatedOptionalMatchRows plan newVars cap inputRows =
          (eachRow plan (leftJoinRow newVars) inputRows).mapError .inner)

/-- Every value of the row equals itself, or is shared behind a pointer. -/
def OuterRow.EqualsItself (inputRow : OuterRow) : Prop :=
  ∀ var value, inputRow.values var = some value → inputRow.shared var = true ∨ value.eq value = true

/-- The pattern has no match on the row, or the row equals itself, or the one match binds
nothing but nulls. -/
def Joinable (plan : InnerPlan) (newVars : List VarId) (inputRow : OuterRow) : Prop :=
  ∀ innerRows, plan.rows inputRow.values = .ok innerRows →
    matchesOn inputRow innerRows = [] ∨ inputRow.EqualsItself ∨
      matchesOn inputRow innerRows = [nullExtendOptionalRow inputRow.values newVars]

theorem merge_of_carries {row row' : Row} (h : Carries row row') :
    mergeOptionalRows row row' = row' := by
  funext var
  rw [mergeOptionalRows]
  cases hvar : row var with
  | none => rfl
  | some value => exact (h var value hvar).symm

/-- A row that carries the input row is compared with itself, and one that does not differs from
it in a path or a list of relationships. -/
theorem compatible_iff {row' : Row} (h : CarriesBut plan.rebound inputRow.values row') :
    optionalRowsCompatible plan.rebound inputRow row' = true ↔
      Carries inputRow.values row' ∧ inputRow.EqualsItself := by
  rw [optionalRowsCompatible, all_eq_true]
  constructor
  · intro hall
    have hsame : Carries inputRow.values row' := by
      intro var value hvalue
      by_cases hvar : var ∈ plan.rebound
      · obtain ⟨trace, hrow', hisTrace⟩ := (h var value hvalue).2 hvar
        have hcompared := hall var ((inputRow.mem_vars var).mpr (by simp [hvalue]))
        simp only [hvalue, hrow', hvar, not_true_eq_false, decide_false, Bool.and_false,
          Bool.false_or] at hcompared
        rw [hrow', hisTrace.eq_iff.mp hcompared]
      · exact (h var value hvalue).1 hvar
    refine ⟨hsame, fun var value hvalue => ?_⟩
    have hcompared := hall var ((inputRow.mem_vars var).mpr (by simp [hvalue]))
    simp only [hvalue, hsame var value hvalue, Bool.or_eq_true, Bool.and_eq_true] at hcompared
    exact hcompared.imp_left And.left
  · rintro ⟨hsame, hself⟩ var hvar
    obtain ⟨value, hvalue⟩ := Option.ne_none_iff_exists'.mp ((inputRow.mem_vars var).mp hvar)
    simp only [hvalue, hsame var value hvalue, Bool.or_eq_true, Bool.and_eq_true,
      decide_eq_true_iff]
    by_cases hrebound : var ∈ plan.rebound
    · obtain ⟨trace, hrow', hisTrace⟩ := (h var value hvalue).2 hrebound
      obtain rfl : trace = value := by simpa [hrow'] using hsame var value hvalue
      exact Or.inr (hisTrace.eq_iff.mpr rfl)
    · exact (hself var value hvalue).imp_left fun hshared => ⟨hshared, hrebound⟩

/-- One input row: when its rows are those of the join. -/
theorem optionalRow_eq_iff
    (hcarries : ∀ row' ∈ innerRows, CarriesBut plan.rebound inputRow.values row') :
    optionalRow plan newVars inputRow innerRows = leftJoinRow newVars inputRow innerRows ↔
      matchesOn inputRow innerRows = [] ∨ inputRow.EqualsItself ∨
        matchesOn inputRow innerRows = [nullExtendOptionalRow inputRow.values newVars] := by
  classical
  by_cases hself : inputRow.EqualsItself
  · have hfilter : innerRows.filter (optionalRowsCompatible plan.rebound inputRow) =
        matchesOn inputRow innerRows := by
      refine filter_congr fun row' hrow' => Bool.eq_iff_iff.mpr ?_
      rw [compatible_iff (hcarries row' hrow'), decide_eq_true_iff]
      exact and_iff_left hself
    rw [optionalRow, hfilter, leftJoinRow]
    exact ⟨fun _ => Or.inr (Or.inl hself), fun _ => rfl⟩
  · have hfilter : innerRows.filter (optionalRowsCompatible plan.rebound inputRow) = [] :=
      filter_eq_nil_iff.mpr fun row' hrow' h =>
        hself ((compatible_iff (hcarries row' hrow')).mp h).2
    have hmap : (matchesOn inputRow innerRows).map (mergeOptionalRows inputRow.values) =
        matchesOn inputRow innerRows := by
      refine (map_congr_left fun row' hrow' => merge_of_carries ?_).trans (map_id _)
      exact of_decide_eq_true (mem_filter.mp hrow').2
    rw [optionalRow, hfilter, leftJoinRow]
    cases hmatches : matchesOn inputRow innerRows with
    | nil => simp
    | cons row' rest =>
      rw [hmatches] at hmap
      simp [hmap, hself, eq_comm]

/-- Two steps that agree on the input rows give the same rows. -/
theorem eachRow_congr {step step' : OuterRow → List Row → List Row}
    (h : ∀ inputRow ∈ inputRows, ∀ innerRows, plan.rows inputRow.values = .ok innerRows →
      step inputRow innerRows = step' inputRow innerRows) :
    eachRow plan step inputRows = eachRow plan step' inputRows := by
  induction inputRows with
  | nil => rfl
  | cons inputRow inputRows ih =>
    rw [eachRow, eachRow, ih fun row hrow => h row (mem_cons_of_mem _ hrow)]
    cases hrows : plan.rows inputRow.values with
    | error error => rfl
    | ok innerRows =>
      simp only [bind, Except.bind]
      rw [h inputRow mem_cons_self innerRows hrows]

theorem Exceeds.congr {step step' : OuterRow → List Row → List Row} {cap held : ℕ}
    (h : ∀ inputRow ∈ inputRows, ∀ innerRows, plan.rows inputRow.values = .ok innerRows →
      step inputRow innerRows = step' inputRow innerRows)
    (hexceeds : Exceeds plan step cap held inputRows) :
    Exceeds plan step' cap held inputRows := by
  obtain ⟨before, inputRow, after, rows, rfl, hrows, hcap⟩ := hexceeds
  refine ⟨before, inputRow, after, rows, rfl, ?_, hcap⟩
  rw [← eachRow_congr fun row hrow => h row (mem_append_left _ hrow), hrows]

/-- **OPTIONAL MATCH is a left outer join** of the rows that equal themselves, or that the pattern
has no match on. A row the plan finds but that it rebound a variable in is no match. -/
theorem optionalMatch_iff (plan : InnerPlan) (newVars : List VarId) (S : Set OuterRow) :
    (∀ inputRows, (∀ inputRow ∈ inputRows, inputRow ∈ S) → IsLeftJoin plan newVars inputRows) ↔
      ∀ inputRow ∈ S, Joinable plan newVars inputRow := by
  constructor
  · intro h inputRow hmem innerRows hrows
    have hdrains := (h [inputRow] (by simpa using hmem)).1.unique (stream_eq [inputRow])
    simp only [eachRow, hrows, bind, Except.bind, pure, Except.pure, append_nil,
      Except.ok.injEq] at hdrains
    exact (optionalRow_eq_iff (plan.carries hrows)).mp hdrains.symm
  · intro h inputRows hmem
    have hstep : ∀ inputRow ∈ inputRows, ∀ innerRows, plan.rows inputRow.values = .ok innerRows →
        optionalRow plan newVars inputRow innerRows = leftJoinRow newVars inputRow innerRows :=
      fun inputRow hrow innerRows hrows => (optionalRow_eq_iff (plan.carries hrows)).mpr
        (h inputRow (hmem inputRow hrow) innerRows hrows)
    refine ⟨eachRow_congr hstep ▸ stream_eq inputRows, fun cap => ?_⟩
    obtain ⟨hfails, hgives⟩ := @correlatedOptionalMatchRows_eq plan newVars cap inputRows
    refine ⟨fun hexceeds => hfails (hexceeds.congr fun row hrow inner hinner =>
      (hstep row hrow inner hinner).symm), fun hexceeds => ?_⟩
    rw [← eachRow_congr hstep]
    have hout := hgives fun hoptional => hexceeds (hoptional.congr hstep)
    cases heach : eachRow plan (optionalRow plan newVars) inputRows <;> rw [heach] at hout <;>
      exact hout

/-- The row of `WITH $x AS x`, the parameter a NaN. -/
def nanRow : OuterRow where
  values := Row.empty.insert ⟨0⟩ (.float ⟨0x7FF8000000000000⟩)
  vars := [⟨0⟩]
  mem_vars var := by
    rw [mem_singleton]
    constructor
    · rintro rfl
      simp
    · intro h
      by_contra hne
      exact h (Row.insert_of_ne _ _ hne)
  shared _ := false

/-- `OPTIONAL MATCH (n:B)` finds the one `:B`, and drops it, next to a NaN. -/
theorem nanRow_not_leftJoin :
    (InnerPlan.ofOps pairContext [.step (.nodeScan ⟨1⟩ ⟨[["B"]], by simp⟩)]).rows nanRow.values =
        .ok [nanRow.values.insert ⟨1⟩ (.node 1)] ∧
      ¬ IsLeftJoin (.ofOps pairContext [.step (.nodeScan ⟨1⟩ ⟨[["B"]], by simp⟩)]) [⟨1⟩]
        [nanRow] := by
  have hrows : (InnerPlan.ofOps pairContext [.step (.nodeScan ⟨1⟩ ⟨[["B"]], by simp⟩)]).rows
      nanRow.values = .ok [nanRow.values.insert ⟨1⟩ (.node 1)] := by
    have hscan : pairContext.scanRow ⟨1⟩ ⟨[["B"]], by simp⟩ nanRow.values =
        .ok [nanRow.values.insert ⟨1⟩ (.node 1)] := by
      rw [EvalContext.scanRow]
      simp only [pairContext, pairGraph_scan.2]
      rfl
    change pull pairContext [.step (.nodeScan ⟨1⟩ ⟨[["B"]], by simp⟩)] [nanRow.values] = _
    rw [pull, pullOp, runOp, mapM_cons, EvalContext.runRow, hscan]
    · rfl
    · simp
  refine ⟨hrows, fun h => ?_⟩
  have hfree : nanRow.values ⟨1⟩ = none := by simp [nanRow, Row.insert, Row.empty]
  have hmatch : matchesOn nanRow [nanRow.values.insert ⟨1⟩ (.node 1)] =
      [nanRow.values.insert ⟨1⟩ (.node 1)] := by
    classical
    refine filter_eq_self.mpr fun row' hrow' => decide_eq_true ?_
    rw [mem_singleton.mp hrow']
    exact (grows_insert _ hfree).carries
  have hdrains := h.1.unique (stream_eq [nanRow])
  simp only [eachRow, hrows, bind, Except.bind, pure, Except.pure, append_nil,
    Except.ok.injEq] at hdrains
  have hjoin := (optionalRow_eq_iff (InnerPlan.carries _ hrows)).mp hdrains.symm
  rw [hmatch] at hjoin
  rcases hjoin with h | h | h
  · cases h
  · have hself := h ⟨0⟩ (.float ⟨0x7FF8000000000000⟩) (by simp [nanRow])
    revert hself
    simp only [nanRow]
    decide +kernel
  · have hnode := congrFun (List.head_eq_of_cons_eq h) ⟨1⟩
    rw [nullExtend_apply] at hnode
    simp [nanRow, Row.insert, Row.empty] at hnode

end LoraDb
