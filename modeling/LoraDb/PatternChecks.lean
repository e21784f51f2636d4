import LoraDb.Operators

/-!
# Checks of a Pattern

What the filters of a pattern plan test, read off the rows: a label test reads the record of
the node, a conjunction tests each of its parts, and a plan that succeeds gives the rows its
operators give one row at a time.

## Main results

* `run_eq_ok`: a plan that succeeds gives what it gives for each row.
* `passes_labels`: the label test built for a step agrees with the test of a scan.
-/

namespace LoraDb

open ResolvedExpr List

variable {ctx : EvalContext} {row : Row} {var : VarId}

/-! ### Runs -/

namespace EvalContext

theorem mapM_ok {α β ε : Type} {f : α → Except ε β} {as : List α} {bs : List β} :
    as.mapM f = .ok bs ↔ Forall₂ (fun a b => f a = .ok b) as bs := by
  induction as generalizing bs with
  | nil =>
    cases bs with
    | nil => simp [mapM_nil, pure, Except.pure]
    | cons b bs => simp [mapM_nil, pure, Except.pure]
  | cons a as ih =>
    rw [mapM_cons]
    cases hf : f a with
    | error err =>
      constructor
      · intro h
        cases h
      · rintro (_ | ⟨hab, -⟩)
        rw [hf] at hab
        cases hab
    | ok b =>
      cases hrest : as.mapM f with
      | error err =>
        constructor
        · intro h
          cases h
        · rintro (_ | ⟨-, hall⟩)
          rw [ih.mpr hall] at hrest
          cases hrest
      | ok bs' =>
        have hall : Forall₂ (fun a b => f a = .ok b) as bs' := ih.mp hrest
        constructor
        · intro h
          obtain rfl : b :: bs' = bs := Except.ok.inj h
          exact Forall₂.cons hf hall
        · rintro (_ | ⟨hab, hall'⟩)
          rw [hf] at hab
          obtain rfl := Except.ok.inj hab
          have hsame := ih.mpr hall'
          rw [hrest] at hsame
          obtain rfl := Except.ok.inj hsame
          rfl

theorem forall₂_append_split {α β : Type} {R : α → β → Prop} {as as' : List α} {bs : List β}
    (h : Forall₂ R (as ++ as') bs) :
    ∃ bs₁ bs₂, Forall₂ R as bs₁ ∧ Forall₂ R as' bs₂ ∧ bs = bs₁ ++ bs₂ := by
  induction as generalizing bs with
  | nil => exact ⟨[], bs, Forall₂.nil, h, rfl⟩
  | cons a as ih =>
    obtain ⟨b, bs', hab, hrest, rfl⟩ := List.forall₂_cons_left_iff.mp h
    obtain ⟨bs₁, bs₂, h₁, h₂, rfl⟩ := ih hrest
    exact ⟨b :: bs₁, bs₂, Forall₂.cons hab h₁, h₂, rfl⟩

theorem forall₂_mem_right {α β : Type} {R : α → β → Prop} {as : List α} {bs : List β}
    (h : Forall₂ R as bs) {b : β} (hb : b ∈ bs) : ∃ a ∈ as, R a b := by
  induction h with
  | nil => cases hb
  | cons hab _ ih =>
    rcases List.mem_cons.mp hb with rfl | hb
    · exact ⟨_, mem_cons_self, hab⟩
    · obtain ⟨a, ha, hR⟩ := ih hb
      exact ⟨a, mem_cons_of_mem _ ha, hR⟩

variable {ops : List MatchOp} {rows out : List Row}

theorem run_cons_eq_ok {op : MatchOp} : ctx.run (op :: ops) rows = .ok out ↔
      ∃ mid, Forall₂ (fun row out => ctx.runRow op row = .ok out) rows mid ∧
        ctx.run ops mid.flatten = .ok out := by
  rw [run]
  cases h : rows.mapM (ctx.runRow op) with
  | error err =>
    constructor
    · intro hok
      cases hok
    · rintro ⟨mid, hmid, -⟩
      rw [mapM_ok.2 hmid] at h
      cases h
  | ok mid =>
    constructor
    · intro hok
      exact ⟨mid, mapM_ok.1 h, hok⟩
    · rintro ⟨mid', hmid, hok⟩
      rw [mapM_ok.2 hmid] at h
      obtain rfl := Except.ok.inj h
      exact hok

/-- A plan gives for some rows what it gives for each of them. -/
theorem run_append_rows {rows rows' out out' : List Row}
    (h : ctx.run ops rows = .ok out) (h' : ctx.run ops rows' = .ok out') :
    ctx.run ops (rows ++ rows') = .ok (out ++ out') := by
  induction ops generalizing rows rows' with
  | nil =>
    obtain rfl := Except.ok.inj h
    obtain rfl := Except.ok.inj h'
    rfl
  | cons op ops ih =>
    obtain ⟨mid, hmid, hrest⟩ := run_cons_eq_ok.1 h
    obtain ⟨mid', hmid', hrest'⟩ := run_cons_eq_ok.1 h'
    refine run_cons_eq_ok.2 ⟨mid ++ mid', rel_append hmid hmid', ?_⟩
    rw [flatten_append]
    exact ih hrest hrest'

theorem run_nil_rows (ops : List MatchOp) : ctx.run ops [] = .ok [] := by
  induction ops with
  | nil => rfl
  | cons op ops ih => exact run_cons_eq_ok.2 ⟨[], Forall₂.nil, ih⟩

/-- A plan that succeeds succeeds for a part of the rows. -/
theorem run_split_rows {rows rows' out : List Row} (h : ctx.run ops (rows ++ rows') = .ok out) :
    ∃ out₁ out₂, ctx.run ops rows = .ok out₁ ∧ ctx.run ops rows' = .ok out₂ ∧
      out = out₁ ++ out₂ := by
  induction ops generalizing rows rows' with
  | nil =>
    obtain rfl := Except.ok.inj h
    exact ⟨rows, rows', rfl, rfl, rfl⟩
  | cons op ops ih =>
    obtain ⟨mid, hmid, hrest⟩ := run_cons_eq_ok.1 h
    obtain ⟨mid₁, mid₂, hmid₁, hmid₂, rfl⟩ := forall₂_append_split hmid
    rw [flatten_append] at hrest
    obtain ⟨out₁, out₂, hout₁, hout₂, rfl⟩ := ih hrest
    exact ⟨out₁, out₂, run_cons_eq_ok.2 ⟨mid₁, hmid₁, hout₁⟩,
      run_cons_eq_ok.2 ⟨mid₂, hmid₂, hout₂⟩, rfl⟩

/-- A plan that succeeds gives what it gives for each row. -/
theorem run_eq_ok : ctx.run ops rows = .ok out ↔
      ∃ outs, Forall₂ (fun row out => ctx.run ops [row] = .ok out) rows outs ∧
        out = outs.flatten := by
  constructor
  · intro h
    induction rows generalizing out with
    | nil =>
      rw [run_nil_rows] at h
      obtain rfl := Except.ok.inj h
      exact ⟨[], Forall₂.nil, rfl⟩
    | cons row rows ih =>
      have hsplit : ctx.run ops ([row] ++ rows) = .ok out := h
      obtain ⟨out₁, out₂, h₁, h₂, rfl⟩ := run_split_rows hsplit
      obtain ⟨outs, hall, rfl⟩ := ih h₂
      exact ⟨out₁ :: outs, Forall₂.cons h₁ hall, rfl⟩
  · rintro ⟨outs, hall, rfl⟩
    induction hall with
    | nil => exact run_nil_rows ops
    | cons h _ ih => exact run_append_rows h ih

theorem run_append {ops ops' : List MatchOp} : ctx.run (ops ++ ops') rows = .ok out ↔
      ∃ mid, ctx.run ops rows = .ok mid ∧ ctx.run ops' mid = .ok out := by
  induction ops generalizing rows with
  | nil =>
    constructor
    · intro h
      exact ⟨rows, rfl, h⟩
    · rintro ⟨mid, hmid, h⟩
      obtain rfl := Except.ok.inj hmid
      exact h
  | cons op ops ih =>
    rw [cons_append, run_cons_eq_ok]
    constructor
    · rintro ⟨mid, hmid, hrest⟩
      obtain ⟨out', hout', h⟩ := ih.mp hrest
      exact ⟨out', run_cons_eq_ok.2 ⟨mid, hmid, hout'⟩, h⟩
    · rintro ⟨out', hout', h⟩
      obtain ⟨mid, hmid, hrest⟩ := run_cons_eq_ok.1 hout'
      exact ⟨mid, hmid, ih.mpr ⟨out', hrest, h⟩⟩

theorem run_singleton {op : MatchOp} {out : List Row} :
    ctx.run [op] [row] = .ok out ↔ ctx.runRow op row = .ok out := by
  rw [run_cons_eq_ok]
  constructor
  · rintro ⟨mid, hmid, hok⟩
    obtain ⟨out', mid', h, hnil, rfl⟩ := List.forall₂_cons_left_iff.mp hmid
    obtain rfl := List.forall₂_nil_left_iff.mp hnil
    obtain rfl := Except.ok.inj hok
    simpa using h
  · intro h
    exact ⟨[out], Forall₂.cons h Forall₂.nil, by simp [run]⟩

end EvalContext

/-! ### Filters -/

theorem evalTruthy_eq_ok {e : ResolvedExpr} {b : Bool} (h : ctx.evalTruthy e row = .ok b) :
    b = true ↔ Passes ctx e row := by
  rw [EvalContext.evalTruthy] at h
  rw [Passes]
  cases herror : (e.eval ctx row).error with
  | some message =>
    rw [herror] at h
    cases h
  | none =>
    rw [herror] at h
    obtain rfl := Except.ok.inj h
    simp

theorem passes_foldl_and {e : ResolvedExpr} {es : List ResolvedExpr} :
    Passes ctx (es.foldl .and e) row ↔ ∀ e' ∈ e :: es, Passes ctx e' row := by
  induction es generalizing e with
  | nil => simp
  | cons e' es ih =>
    rw [foldl_cons, ih]
    simp [passes_and, and_assoc]

/-- The filter of a conjunction lets a row pass that passes every test. -/
theorem run_checks {checks : List ResolvedExpr} {out : List Row}
    (h : ctx.run ((andAll checks).map MatchOp.filter).toList [row] = .ok out) :
    (out = [row] ∧ ∀ e ∈ checks, Passes ctx e row) ∨
      out = [] ∧ ¬ ∀ e ∈ checks, Passes ctx e row := by
  cases checks with
  | nil =>
    obtain rfl := Except.ok.inj h
    exact Or.inl ⟨rfl, by simp⟩
  | cons e es =>
    have hrow := EvalContext.run_singleton.mp h
    rw [EvalContext.runRow] at hrow
    cases htruthy : ctx.evalTruthy (es.foldl .and e) row with
    | error err =>
      rw [htruthy] at hrow
      cases hrow
    | ok b =>
      rw [htruthy] at hrow
      obtain rfl := Except.ok.inj hrow
      have hpass := evalTruthy_eq_ok htruthy
      rw [passes_foldl_and] at hpass
      by_cases hb : b = true
      · exact Or.inl ⟨by simp [hb], hpass.mp hb⟩
      · exact Or.inr ⟨by simp [hb], fun hall => hb (hpass.mpr hall)⟩

/-! ### Labels -/

/-- The node a row binds a variable to has a label of each group. -/
def LabelsOk (g : InMemoryGraph) (var : VarId) (groups : List (List String)) (row : Row) : Prop :=
  ∃ id record, row var = some (.node id) ∧ g.nodeAt id = some record ∧
    nodeMatchesLabelGroups record.labels groups = true

variable {record : NodeRecord}

theorem eval_hasLabelCall {id : NodeId} (hrow : row var = some (.node id))
    (hrecord : ctx.storage.nodeAt id = some record) (label : String) :
    (hasLabelCall var label).eval ctx row = pure (.bool (record.labels.contains label)) := by
  have heval : (hasLabelCall var label).eval ctx row =
      ctx.evalForm (.function HAS_LABEL false) [(row var).getD .null, .string label] := rfl
  rw [heval, hrow, EvalContext.evalForm, if_pos rfl]
  simp [hasLabel, hrecord]

/-- The label test built for a step agrees with the test of a scan. -/
theorem passes_anyLabel {id : NodeId} (hrow : row var = some (.node id))
    (hrecord : ctx.storage.nodeAt id = some record) {group : List String} (hne : group ≠ []) :
    ∃ e, anyLabel var group = some e ∧ (e.eval ctx row).error = none ∧
      (Passes ctx e row ↔ group.any (fun label => record.labels.contains label) = true) := by
  obtain ⟨label, labels, rfl⟩ := exists_cons_of_ne_nil hne
  have hcall : ∀ l, (hasLabelCall var l |>.eval ctx row).error = none ∧
      (Passes ctx (hasLabelCall var l) row ↔ record.labels.contains l = true) := by
    intro l
    rw [Passes, eval_hasLabelCall hrow hrecord]
    simp
  refine ⟨_, rfl, ?_⟩
  clear hne
  have hfold : ∀ (acc : ResolvedExpr) (b : Bool), (acc.eval ctx row).error = none →
      (Passes ctx acc row ↔ b = true) →
      ((labels.foldl (fun acc l => ResolvedExpr.or acc (hasLabelCall var l)) acc).eval ctx
        row).error = none ∧
      (Passes ctx (labels.foldl (fun acc l => ResolvedExpr.or acc (hasLabelCall var l)) acc) row ↔
        (b || labels.any fun l => record.labels.contains l) = true) := by
    induction labels with
    | nil =>
      intro acc b herror hpass
      simpa using ⟨herror, hpass⟩
    | cons l labels ih =>
      intro acc b herror hpass
      obtain ⟨herror', hpass'⟩ := passes_or herror (hcall l).1
      have hor : Passes ctx (.or acc (hasLabelCall var l)) row ↔
          (b || record.labels.contains l) = true := by
        rw [hpass', hpass, (hcall l).2, Bool.or_eq_true]
      have hnext := ih (.or acc (hasLabelCall var l)) (b || record.labels.contains l) herror' hor
      simpa [Bool.or_assoc] using hnext
  simpa using hfold (hasLabelCall var label) (record.labels.contains label) (hcall label).1
    (hcall label).2

/-- The tests of a step's labels, together, are the test of a scan. -/
theorem passes_labels {id : NodeId} (hrow : row var = some (.node id))
    (hrecord : ctx.storage.nodeAt id = some record) (labels : LabelGroups) :
    (∀ e ∈ (buildLabelPredicate var labels.groups).toList, Passes ctx e row) ↔
      LabelsOk ctx.storage var labels.groups row := by
  have hscan : LabelsOk ctx.storage var labels.groups row ↔
      nodeMatchesLabelGroups record.labels labels.groups = true := by
    constructor
    · rintro ⟨id', record', hrow', hrecord', hmatch⟩
      rw [hrow] at hrow'
      obtain rfl : id = id' := by simpa using hrow'
      rw [hrecord] at hrecord'
      obtain rfl := Option.some.inj hrecord'
      exact hmatch
    · intro hmatch
      exact ⟨id, record, hrow, hrecord, hmatch⟩
  have hall : (∀ e ∈ labels.groups.filterMap (anyLabel var), Passes ctx e row) ↔
      nodeMatchesLabelGroups record.labels labels.groups = true := by
    simp only [nodeMatchesLabelGroups, all_eq_true, mem_filterMap]
    constructor
    · intro h group hgroup
      obtain ⟨e, he, -, hpass⟩ := passes_anyLabel hrow hrecord (labels.nonempty group hgroup)
      exact hpass.mp (h e ⟨group, hgroup, he⟩)
    · rintro h e ⟨group, hgroup, he⟩
      obtain ⟨e', he', -, hpass⟩ := passes_anyLabel hrow hrecord (labels.nonempty group hgroup)
      rw [he] at he'
      obtain rfl := Option.some.inj he'
      exact hpass.mpr (h group hgroup)
  rw [hscan, ← hall, buildLabelPredicate]
  cases labels.groups.filterMap (anyLabel var) with
  | nil => simp [andAll]
  | cons e es => simp [andAll, passes_foldl_and]

theorem passes_properties {properties : Option ResolvedExpr} :
    (∀ e ∈ (buildPropertyPredicate var properties).toList, Passes ctx e row) ↔
      ∀ e ∈ propertyTests var properties, Passes ctx e row := by
  rw [buildPropertyPredicate]
  cases propertyTests var properties with
  | nil => simp [andAll]
  | cons e es => simp [andAll, passes_foldl_and]

end LoraDb
