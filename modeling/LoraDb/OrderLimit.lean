import LoraDb.SortBuffer

/-!
# `ORDER BY` with `SKIP` and `LIMIT`

A `Limit` node directly above a `Sort` lets the sort keep only the rows the limit can
return. The optimizer writes the bound into the sort: a number when `LIMIT` is a
literal, else the two expressions, which the executor evaluates once per run. The limit
itself then drops the skipped rows and counts off the rest.

The bound must count the skipped rows too. It does when both counts are known at the same
time; a literal `LIMIT` over a `SKIP` that is not one counts none of them, and neither does
a computed `LIMIT` over a `SKIP` that comes out as a whole float.

## Main results

* `annotateTopKSorts_sort`: what the pass writes into the sort under a limit.
* `executeBuffered_eq`, `executePull_eq`: both executors return a slice of the first
  `bound` rows of the stable full sort.
* `orderLimit_iff`: that is the slice of the full sort exactly when the skipped rows are
  counted, or there is nothing to lose.
-/

open List

namespace LoraDb

open Option

/-- What a `SKIP` or `LIMIT` expression evaluates to: an integer, a float with its
whole value if it has one and its text, or the kind of any other value. -/
inductive CountValue
  | int (n : Int64)
  | float (whole : Option Int64) (shown : String)
  | other (kind : String)

/-- A `SKIP` or `LIMIT` expression: an integer literal, or one known at run time only. -/
inductive CountExpr (E : Type)
  | literal (n : Int64)
  | computed (e : E)

/-- The `SKIP` and `LIMIT` of a plan node, over the node `input`. -/
structure Limit (E : Type) where
  input : ℕ
  skip : Option (CountExpr E)
  limit : Option (CountExpr E)

/-- A parent limit's row bound, evaluated at run time. -/
structure SortLimit (E : Type) where
  skip : Option (CountExpr E)
  limit : CountExpr E

/-- The **sort** of a plan, over the node `input`: a bound a parent limit wrote into it, as a
number or as expressions, and how many leading keys its input already arrives ordered by. -/
structure SortOp (R V E : Type) where
  input : ℕ
  items : List (ResolvedSortItem R V)
  topK : Option ℕ
  limit : Option (SortLimit E)
  presorted : ℕ

/-- A node of a plan, as far as the pass tells nodes apart. -/
inductive LogicalOp (R V E : Type)
  | limit (op : Limit E)
  | sort (op : SortOp R V E)
  | other

variable {R V E : Type}

/-! ### The pass -/

def saturatingAdd (a b : ℕ) : ℕ :=
  min (a + b) SortBuffer.usizeMax

/-- The count an expression is known to be at plan time. -/
def staticNonNegativeUsize : CountExpr E → Option ℕ
  | .literal value => some value.toNatClampNeg
  | .computed _ => none

/-- The bound of a limit with a literal `LIMIT`. A `SKIP` that is not a literal counts as
no rows. -/
def staticLimitBound (limit : Limit E) : Option ℕ := do
  let limitRows ← limit.limit.bind staticNonNegativeUsize
  let skipRows := (limit.skip.bind staticNonNegativeUsize).getD 0
  return saturatingAdd skipRows limitRows

def mergeTopKBound (current : Option ℕ) (bound : ℕ) : Option ℕ :=
  some ((current.map (fun current => min current bound)).getD bound)

/-- What a limit writes into the sort under it. -/
def annotateSort (limit : Limit E) (sort : SortOp R V E) : SortOp R V E :=
  match staticLimitBound limit with
  | some bound => { sort with topK := mergeTopKBound sort.topK bound }
  | none =>
    match limit.limit with
    | none => sort
    | some limitExpr =>
      if sort.limit.isNone then
        { sort with limit := some { skip := limit.skip, limit := limitExpr } }
      else sort

/-- Only a sort takes a bound. -/
def annotateOp (limit : Limit E) : LogicalOp R V E → LogicalOp R V E
  | .sort sort => .sort (annotateSort limit sort)
  | op => op

/-- The pass at node `i`. -/
def annotateAt (plan : List (LogicalOp R V E)) (i : ℕ) : List (LogicalOp R V E) :=
  match plan[i]? with
  | some (.limit limit) => plan.modify limit.input (annotateOp limit)
  | _ => plan

def annotateTopKSorts (plan : List (LogicalOp R V E)) : List (LogicalOp R V E) :=
  (List.range plan.length).foldl annotateAt plan

/-! ### What the pass writes -/

variable {plan : List (LogicalOp R V E)}

theorem annotateAt_limit {k i : ℕ} {l : Limit E} :
    (annotateAt plan k)[i]? = some (.limit l) ↔ plan[i]? = some (.limit l) := by
  unfold annotateAt
  split
  next l' _ =>
    rw [getElem?_modify]
    cases plan[i]? with
    | none => simp
    | some op => cases op <;> by_cases h : l'.input = i <;> simp [h, annotateOp]
  · rfl

theorem annotateAt_of_not_reader {k j : ℕ} (h : ∀ l, plan[k]? = some (.limit l) → l.input ≠ j) :
    (annotateAt plan k)[j]? = plan[j]? := by
  unfold annotateAt
  split
  next l hl => exact getElem?_modify_ne _ _ (h l hl)
  · rfl

/-- A limit stays where it is. -/
theorem foldl_annotateAt_limit {i : ℕ} {l : Limit E} (ks : List ℕ) :
    ∀ plan : List (LogicalOp R V E),
      (ks.foldl annotateAt plan)[i]? = some (.limit l) ↔ plan[i]? = some (.limit l) := by
  induction ks with
  | nil => exact fun _ => Iff.rfl
  | cons k ks ih => exact fun plan => (ih _).trans annotateAt_limit

/-- A node no visited limit reads is left as it is. -/
theorem foldl_annotateAt_of_not_reader {j : ℕ} (ks : List ℕ) : ∀ plan : List (LogicalOp R V E),
      (∀ k ∈ ks, ∀ l, plan[k]? = some (.limit l) → l.input ≠ j) →
        (ks.foldl annotateAt plan)[j]? = plan[j]? := by
  induction ks with
  | nil => exact fun _ _ => rfl
  | cons k ks ih =>
    intro plan h
    rw [foldl_cons, ih, annotateAt_of_not_reader (h k mem_cons_self)]
    intro k' hk' l hl
    exact h k' (mem_cons_of_mem k hk') l (annotateAt_limit.1 hl)

/-- The node under a limit, after the pass: a plan is a tree, so one limit reads it. -/
theorem annotateTopKSorts_input {i : ℕ} {l : Limit E} (hl : plan[i]? = some (.limit l))
    (honly : ∀ k l', plan[k]? = some (.limit l') → l'.input = l.input → k = i) :
    (annotateTopKSorts plan)[l.input]? = plan[l.input]?.map (annotateOp l) := by
  have hi : i < plan.length := (List.getElem?_eq_some_iff.mp hl).1
  obtain ⟨n, hn⟩ : ∃ n, plan.length = i + 1 + n := ⟨plan.length - (i + 1), by omega⟩
  have hrange : List.range plan.length = List.range i ++ i :: List.range' (i + 1) n := by
    rw [hn, range_add, range_succ, append_assoc, range'_eq_map_range]
    rfl
  set before := (List.range i).foldl annotateAt plan with hbefore
  have hbefore_input : before[l.input]? = plan[l.input]? := by
    refine foldl_annotateAt_of_not_reader _ plan fun k hk l' hl' hinput => ?_
    have hki := honly k l' hl' hinput
    have hlt := mem_range.mp hk
    omega
  have hbefore_limit : before[i]? = some (.limit l) := (foldl_annotateAt_limit _ plan).mpr hl
  unfold annotateTopKSorts
  rw [hrange, foldl_append, foldl_cons, ← hbefore, foldl_annotateAt_of_not_reader]
  · simp only [annotateAt, hbefore_limit]
    rw [getElem?_modify_eq, hbefore_input]
    rfl
  · intro k hk l' hl' hinput
    have hplan : plan[k]? = some (.limit l') :=
      (foldl_annotateAt_limit _ plan).mp (annotateAt_limit.1 hl')
    have hki := honly k l' hplan hinput
    have hlt := (mem_range'_1.mp hk).1
    omega

/-! ### Running the two nodes -/

/-- `usize` and `i64` counts of a run: the value of each expression that is not a
literal. -/
def evalExpr (env : E → CountValue) : CountExpr E → CountValue
  | .literal n => .int n
  | .computed e => env e

def CountValue.asI64 : CountValue → Option Int64
  | .int n => some n
  | _ => none

def describeCount : CountValue → String
  | .int n => toString n.toInt
  | .float _ shown => shown
  | .other kind => kind

/-- The whole number a value is: of floats, those without a fraction. -/
def CountValue.whole : CountValue → Option Int64
  | .int n => some n
  | .float whole _ => whole
  | .other _ => none

/-- A `SKIP` or `LIMIT` count. Anything but a non-negative whole number is an error. -/
def evalRowCount (env : E → CountValue) (clause : String) (expr : CountExpr E) : Except String ℕ :=
  let value := evalExpr env expr
  match value.whole with
  | some n =>
    if 0 ≤ n then .ok n.toNatClampNeg
    else .error s!"{clause} expects a non-negative integer, got {describeCount value}"
  | none => .error s!"{clause} expects a non-negative integer, got {describeCount value}"

/-- The row bound a sort may apply. A computed `SKIP` counts only when it is an integer
value. -/
def sortRowBound (env : E → CountValue) (topK : Option ℕ) (limit : Option (SortLimit E)) :
    Option ℕ :=
  let dynamic : Option ℕ := do
    let bound ← limit
    let limitRows ← (evalExpr env bound.limit).asI64
    let skipRows := (bound.skip.bind (fun e => (evalExpr env e).asI64)).getD 0
    return saturatingAdd skipRows.toNatClampNeg limitRows.toNatClampNeg
  match topK, dynamic with
  | some a, some b => some (min a b)
  | a, b => a.or b

/-- What `SKIP` counts. -/
def skipCount (env : E → CountValue) (op : Limit E) : Except String ℕ :=
  match op.skip with
  | some e => evalRowCount env "SKIP" e
  | none => .ok 0

/-- What `LIMIT` counts, if there is one. -/
def limitCount (env : E → CountValue) (op : Limit E) : Except String (Option ℕ) :=
  match op.limit with
  | some e => some <$> evalRowCount env "LIMIT" e
  | none => .ok none

/-- The limit of the buffered executors. -/
def limitRows (env : E → CountValue) (op : Limit E) (rows : List R) : Except String (List R) := do
  let limit ← limitCount env op
  let skip ← skipCount env op
  if rows.length ≤ skip then return []
  return (rows.drop skip).take (limit.getD rows.length)

/-- The rows a `LimitSource` of the pull pipeline yields. -/
def limitSource (env : E → CountValue) (op : Limit E) (upstream : List R) :
    Except String (List R) := do
  let skip ← skipCount env op
  let limit ← limitCount env op
  return within limit (upstream.drop skip)

/-- The rows at positions `skip` up to `skip + limit`. -/
def slice (skip : ℕ) (limit : Option ℕ) (rows : List R) : List R :=
  within limit (rows.drop skip)

/-- The bound counts the skipped rows: there is none to count, or the `SKIP` is known
when the bound is made. -/
def SkipCounted (env : E → CountValue) (op : Limit E) : Prop :=
  match op.limit, op.skip with
  | none, _ => True
  | some _, none => True
  | some (.literal _), some (.literal _) => True
  | some (.literal _), some (.computed _) => False
  | some (.computed e), some skip => (env e).asI64.isSome → (evalExpr env skip).asI64.isSome

/-! ### The bound -/

section Bound

variable {env : E → CountValue} {op : Limit E} {skip : ℕ} {limit : Option ℕ} {e : CountExpr E}

theorem evalRowCount_ok {clause : String} {n : ℕ} (h : evalRowCount env clause e = .ok n) :
    ∃ m, (evalExpr env e).whole = some m ∧ m.toNatClampNeg = n := by
  simp only [evalRowCount] at h
  cases hw : (evalExpr env e).whole with
  | none => simp [hw] at h
  | some m =>
    rw [hw] at h
    dsimp only at h
    split at h
    · exact ⟨m, rfl, Except.ok.inj h⟩
    · exact absurd h (by simp)

theorem evalRowCount_lt {clause : String} {n : ℕ}
    (h : evalRowCount env clause e = .ok n) : n < 2 ^ 63 := by
  obtain ⟨m, -, rfl⟩ := evalRowCount_ok h
  exact m.toNatClampNeg_lt

theorem CountValue.whole_of_asI64 {v : CountValue} {m : Int64} (h : v.asI64 = some m) :
    v.whole = some m := by
  cases v with
  | int n => exact h
  | float whole shown => exact absurd h (by simp [CountValue.asI64])
  | other kind => exact absurd h (by simp [CountValue.asI64])

/-- An integer value counts what the bound reads of it. -/
theorem evalRowCount_int {clause : String} {n : ℕ} {m : Int64}
    (h : evalRowCount env clause e = .ok n) (hm : (evalExpr env e).asI64 = some m) :
    m.toNatClampNeg = n := by
  obtain ⟨m', hm', rfl⟩ := evalRowCount_ok h
  rw [CountValue.whole_of_asI64 hm] at hm'
  rw [Option.some.inj hm']

theorem saturatingAdd_counts {a b : ℕ} (ha : a < 2 ^ 63) (hb : b < 2 ^ 63) :
    saturatingAdd a b = a + b := by
  unfold saturatingAdd SortBuffer.usizeMax
  omega

/-- The sort the planner builds: nothing written into it yet. -/
def SortOp.Fresh (sort : SortOp R V E) : Prop :=
  sort.topK = none ∧ sort.limit = none

/-- The bound of the sort under a limit, as the executor comes to it. -/
def boundUnder (env : E → CountValue) (op : Limit E) (sort : SortOp R V E) : Option ℕ :=
  sortRowBound env (annotateSort op sort).topK (annotateSort op sort).limit

theorem boundUnder_literal {sort : SortOp R V E} (hs : sort.Fresh) {m : Int64}
    (hl : op.limit = some (.literal m)) :
    boundUnder env op sort = some (saturatingAdd
      ((op.skip.bind staticNonNegativeUsize).getD 0) m.toNatClampNeg) := by
  have hstatic : staticLimitBound op = some (saturatingAdd
      ((op.skip.bind staticNonNegativeUsize).getD 0) m.toNatClampNeg) := by
    simp only [staticLimitBound, hl]
    rfl
  simp only [boundUnder, annotateSort, hstatic, hs.1, hs.2]
  rfl

theorem boundUnder_computed {sort : SortOp R V E} (hs : sort.Fresh) {e : E}
    (hl : op.limit = some (.computed e)) :
    boundUnder env op sort = (env e).asI64.map (fun m => saturatingAdd
      ((op.skip.bind (fun s => (evalExpr env s).asI64)).getD 0).toNatClampNeg
      m.toNatClampNeg) := by
  have hstatic : staticLimitBound op = none := by
    simp only [staticLimitBound, hl]
    rfl
  simp only [boundUnder, annotateSort, hstatic, hl, hs.1, hs.2, isNone_none, if_true, sortRowBound]
  cases hv : (env e).asI64 with
  | none => simp [evalExpr, hv]
  | some m => simp [evalExpr, hv]

theorem boundUnder_none {sort : SortOp R V E} (hs : sort.Fresh) (hl : op.limit = none) :
    boundUnder env op sort = none := by
  have hstatic : staticLimitBound op = none := by
    simp only [staticLimitBound, hl]
    rfl
  simp only [boundUnder, annotateSort, hstatic, hl, hs.1, hs.2, sortRowBound]
  rfl

theorem limitCount_some (hl : op.limit = some e) (h : limitCount env op = .ok limit) :
    ∃ n, limit = some n ∧ evalRowCount env "LIMIT" e = .ok n := by
  simp only [limitCount, hl] at h
  cases hn : evalRowCount env "LIMIT" e with
  | error err =>
    rw [hn] at h
    exact absurd h (by simp [Functor.map, Except.map])
  | ok n =>
    rw [hn] at h
    exact ⟨n, (Except.ok.inj h).symm, rfl⟩

theorem skipCount_lt (h : skipCount env op = .ok skip) : skip < 2 ^ 63 := by
  unfold skipCount at h
  split at h
  · exact evalRowCount_lt h
  · rw [← Except.ok.inj h]
    decide

/-- A `SKIP` that is an integer counts what the bound reads of it. -/
theorem skipCount_int {s : CountExpr E} {m : Int64} (h : skipCount env op = .ok skip)
    (hs : op.skip = some s) (hm : (evalExpr env s).asI64 = some m) :
    m.toNatClampNeg = skip := by
  simp only [skipCount, hs] at h
  exact evalRowCount_int h hm

/-- Where the skipped rows are counted, a bound is skip and limit. -/
theorem boundUnder_of_counted {sort : SortOp R V E} (hs : sort.Fresh)
    (hskip : skipCount env op = .ok skip) (hlimit : limitCount env op = .ok limit)
    (hc : SkipCounted env op) :
    boundUnder env op sort = none ∨
      ∃ n, limit = some n ∧ boundUnder env op sort = some (skip + n) := by
  have hskip_none : op.skip = none → skip = 0 := by
    intro h
    simp only [skipCount, h] at hskip
    exact (Except.ok.inj hskip).symm
  match hl : op.limit with
  | none => exact Or.inl (boundUnder_none hs hl)
  | some (.literal m) =>
    obtain ⟨n, rfl, hn⟩ := limitCount_some hl hlimit
    have hm : m.toNatClampNeg = n := evalRowCount_int hn rfl
    have hread : (op.skip.bind staticNonNegativeUsize).getD 0 = skip := by
      match hsk : op.skip with
      | none => exact (hskip_none hsk).symm
      | some (.literal k) => exact skipCount_int hskip hsk rfl
      | some (.computed e) => simp [SkipCounted, hl, hsk] at hc
    refine Or.inr ⟨n, rfl, ?_⟩
    rw [boundUnder_literal hs hl, hread, hm,
      saturatingAdd_counts (skipCount_lt hskip) (evalRowCount_lt hn)]
  | some (.computed e) =>
    obtain ⟨n, rfl, hn⟩ := limitCount_some hl hlimit
    rw [boundUnder_computed hs hl]
    cases hv : (env e).asI64 with
    | none => exact Or.inl rfl
    | some m =>
      have hm : m.toNatClampNeg = n := evalRowCount_int hn hv
      have hread : ((op.skip.bind (fun s => (evalExpr env s).asI64)).getD 0).toNatClampNeg =
          skip := by
        cases hsk : op.skip with
        | none => exact (hskip_none hsk).symm
        | some s =>
          simp only [SkipCounted, hl, hsk, hv, isSome_some, forall_const] at hc
          obtain ⟨k, hk⟩ := Option.isSome_iff_exists.mp hc
          simp only [bind_some, hk, getD_some]
          exact skipCount_int hskip hsk hk
      refine Or.inr ⟨n, rfl, ?_⟩
      rw [map_some, hread, hm, saturatingAdd_counts (skipCount_lt hskip) (evalRowCount_lt hn)]

/-- Where they are not, the bound is the limit alone. -/
theorem boundUnder_of_not_counted {sort : SortOp R V E} (hs : sort.Fresh)
    (hlimit : limitCount env op = .ok limit) (hc : ¬ SkipCounted env op) :
    ∃ n, limit = some n ∧ boundUnder env op sort = some n := by
  match hl : op.limit, hsk : op.skip with
  | none, _ => exact absurd (by simp [SkipCounted, hl]) hc
  | some _, none => exact absurd (by simp [SkipCounted, hl, hsk]) hc
  | some (.literal _), some (.literal _) => exact absurd (by simp [SkipCounted, hl, hsk]) hc
  | some (.literal m), some (.computed e) =>
    obtain ⟨n, rfl, hn⟩ := limitCount_some hl hlimit
    have hm : m.toNatClampNeg = n := evalRowCount_int hn rfl
    refine ⟨n, rfl, ?_⟩
    have hread : (op.skip.bind staticNonNegativeUsize).getD 0 = 0 := by
      rw [hsk]
      rfl
    rw [boundUnder_literal hs hl, hread, hm,
      saturatingAdd_counts (by decide) (evalRowCount_lt hn), Nat.zero_add]
  | some (.computed e), some s =>
    obtain ⟨n, rfl, hn⟩ := limitCount_some hl hlimit
    simp only [SkipCounted, hl, hsk, Classical.not_imp] at hc
    obtain ⟨hv, hns⟩ := hc
    obtain ⟨m, hv⟩ := Option.isSome_iff_exists.mp hv
    have hm : m.toNatClampNeg = n := evalRowCount_int hn hv
    refine ⟨n, rfl, ?_⟩
    have hread : (op.skip.bind (fun s => (evalExpr env s).asI64)).getD 0 = 0 := by
      rw [hsk, bind_some, Option.not_isSome_iff_eq_none.mp hns]
      rfl
    have hzero : (0 : Int64).toNatClampNeg = 0 := rfl
    rw [boundUnder_computed hs hl, hv, map_some, hread, hm, hzero,
      saturatingAdd_counts (by decide) (evalRowCount_lt hn), Nat.zero_add]

/-! ### The limit -/

theorem limitRows_eq (hskip : skipCount env op = .ok skip)
    (hlimit : limitCount env op = .ok limit) (rows : List R) :
    limitRows env op rows = .ok (slice skip limit rows) := by
  unfold limitRows
  rw [hskip, hlimit]
  change (if rows.length ≤ skip then Except.ok []
    else Except.ok ((rows.drop skip).take (limit.getD rows.length))) = _
  cases limit with
  | none =>
    rw [getD_none, take_of_length_le (by rw [length_drop]; omega), slice, within_none]
    split
    next h => rw [drop_eq_nil_of_le h]
    · rfl
  | some n =>
    rw [getD_some, slice, within_some]
    split
    next h => rw [drop_eq_nil_of_le h, take_nil]
    · rfl

theorem limitSource_eq (hskip : skipCount env op = .ok skip)
    (hlimit : limitCount env op = .ok limit) (rows : List R) :
    limitSource env op rows = .ok (slice skip limit rows) := by
  unfold limitSource
  rw [hskip, hlimit]
  rfl

/-- A slice of the first `skip + limit` rows is the slice of all. -/
theorem slice_take_add (skip n : ℕ) (rows : List R) :
    slice skip (some n) (rows.take (skip + n)) = slice skip (some n) rows := by
  rw [slice, within_some, drop_take, Nat.add_sub_cancel_left, take_take, min_self]
  rfl

/-- A slice of the first `limit` rows is the slice of all only where nothing is lost. -/
theorem slice_take_iff (skip n : ℕ) (rows : List R) :
    slice skip (some n) (rows.take n) = slice skip (some n) rows ↔
      skip = 0 ∨ rows.length ≤ skip ∨ n = 0 ∨ rows.length ≤ n := by
  constructor
  · intro h
    have hlen := congrArg length h
    simp only [slice, within_some, length_take, length_drop] at hlen
    omega
  · intro h
    rw [slice, within_some, slice, within_some]
    rcases h with rfl | h | rfl | h
    · rw [drop_zero, drop_zero, take_take, min_self]
    · rw [drop_eq_nil_of_le h, drop_eq_nil_of_le (le_trans (length_take_le' n rows) h)]
    · rw [take_zero, take_zero]
    · rw [take_of_length_le h]

end Bound

variable [Ord V]

/-- A limit over a sort over `rows`, run by the buffered executors. -/
def executeBuffered (env : E → CountValue) (limit : Limit E) (sort : SortOp R V E)
    (rows : List R) : Except String (List R) :=
  limitRows env limit
    (sortRowsWithTopK sort.items rows (sortRowBound env sort.topK sort.limit))

/-- A limit over a sort over `rows`, run by the pull pipeline: a partial sort when the
rows arrive in order of the first keys. -/
def executePull (env : E → CountValue) (limit : Limit E) (sort : SortOp R V E)
    (rows : List R) : Except String (List R) :=
  let bound := sortRowBound env sort.topK sort.limit
  limitSource env limit
    (if 0 < sort.presorted then partialSort sort.items sort.presorted bound rows
      else sortSource sort.items bound rows)

/-- Run the limit at node `i` of a plan over the sort under it, on the rows of the sort's
input. -/
def executeAt (exec : Limit E → SortOp R V E → List R → Except String (List R))
    (plan : List (LogicalOp R V E)) (i : ℕ) (rows : List R) :
    Option (Except String (List R)) :=
  match plan[i]? with
  | some (.limit op) =>
    match plan[op.input]? with
    | some (.sort sort) => some (exec op sort rows)
    | _ => none
  | _ => none

/-! ### The slice -/

section Slice

variable {env : E → CountValue} {op : Limit E} {sort : SortOp R V E}
  {skip : ℕ} {limit : Option ℕ} {rows : List R}

omit [Ord V] in
/-- The pass writes bounds only. -/
theorem annotateSort_items (op : Limit E) (sort : SortOp R V E) :
    (annotateSort op sort).items = sort.items ∧
      (annotateSort op sort).presorted = sort.presorted := by
  unfold annotateSort
  split
  · exact ⟨rfl, rfl⟩
  · split
    · exact ⟨rfl, rfl⟩
    · split
      · exact ⟨rfl, rfl⟩
      · exact ⟨rfl, rfl⟩

/-- The slice of the bounded sort is the slice of the full sort, exactly when the
skipped rows are counted or nothing is lost. -/
theorem slice_bounded_iff (hs : sort.Fresh) (hskip : skipCount env op = .ok skip)
    (hlimit : limitCount env op = .ok limit) :
    slice skip limit (within (boundUnder env op sort) (fullSort sort.items rows)) =
        slice skip limit (fullSort sort.items rows) ↔
      SkipCounted env op ∨ skip = 0 ∨ rows.length ≤ skip ∨
        ∃ n, limit = some n ∧ (n = 0 ∨ rows.length ≤ n) := by
  by_cases hc : SkipCounted env op
  · refine iff_of_true ?_ (Or.inl hc)
    rcases boundUnder_of_counted hs hskip hlimit hc with hb | ⟨n, rfl, hb⟩
    · rw [hb, within_none]
    · rw [hb, within_some, slice_take_add]
  · obtain ⟨n, rfl, hb⟩ := boundUnder_of_not_counted hs hlimit hc
    rw [hb, within_some, slice_take_iff, length_fullSort]
    simp [hc]

variable [Std.TransOrd V]

/-- What the buffered executors return. -/
theorem executeBuffered_eq (hskip : skipCount env op = .ok skip)
    (hlimit : limitCount env op = .ok limit) :
    executeBuffered env op (annotateSort op sort) rows =
      .ok (slice skip limit (within (boundUnder env op sort) (fullSort sort.items rows))) := by
  rw [executeBuffered, limitRows_eq hskip hlimit, sortRowsWithTopK_eq,
    (annotateSort_items op sort).1]
  rfl

/-- What the pull pipeline returns. -/
theorem executePull_eq (hskip : skipCount env op = .ok skip)
    (hlimit : limitCount env op = .ok limit)
    (hpre : 0 < sort.presorted → Presorted sort.items sort.presorted rows) :
    executePull env op (annotateSort op sort) rows =
      .ok (slice skip limit (within (boundUnder env op sort) (fullSort sort.items rows))) := by
  simp only [executePull]
  rw [limitSource_eq hskip hlimit, (annotateSort_items op sort).1, (annotateSort_items op sort).2]
  split
  next h =>
    rw [partialSort_eq _ _ _ (hpre h)]
    rfl
  · rw [sortSource_eq]
    rfl

/-- **Top rows.** A limit over a sort of an optimized plan returns the slice of the stable full
sort, from the buffered executors and from the pull pipeline, exactly when the skipped rows are
counted or there is nothing to lose. -/
theorem orderLimit_iff {plan : List (LogicalOp R V E)} {i : ℕ}
    (hop : plan[i]? = some (.limit op)) (hsort : plan[op.input]? = some (.sort sort))
    (honly : ∀ k op', plan[k]? = some (.limit op') → op'.input = op.input → k = i)
    (hs : sort.Fresh) (hskip : skipCount env op = .ok skip)
    (hlimit : limitCount env op = .ok limit)
    (hpre : 0 < sort.presorted → Presorted sort.items sort.presorted rows) :
    (executeAt (executeBuffered env) (annotateTopKSorts plan) i rows =
        some (.ok (slice skip limit (fullSort sort.items rows))) ∧
      executeAt (executePull env) (annotateTopKSorts plan) i rows =
        some (.ok (slice skip limit (fullSort sort.items rows)))) ↔
      SkipCounted env op ∨ skip = 0 ∨ rows.length ≤ skip ∨
        ∃ n, limit = some n ∧ (n = 0 ∨ rows.length ≤ n) := by
  have hlimit' : (annotateTopKSorts plan)[i]? = some (.limit op) :=
    (foldl_annotateAt_limit _ plan).mpr hop
  have hsort' : (annotateTopKSorts plan)[op.input]? = some (.sort (annotateSort op sort)) := by
    rw [annotateTopKSorts_input hop honly, hsort]
    rfl
  simp only [executeAt, hlimit', hsort']
  rw [executeBuffered_eq hskip hlimit, executePull_eq hskip hlimit hpre, and_self,
    Option.some.injEq, Except.ok.injEq]
  exact slice_bounded_iff hs hskip hlimit

end Slice

/-! ### A skipped row that is lost -/

/-- Rows that are numbers, ordered by themselves. -/
def byNumber : List (ResolvedSortItem ℕ ℕ) :=
  [{ expr := some, direction := .asc, nulls := .last }]

/-- `SKIP $s LIMIT 1` over a sort: the skip is known at run time only. -/
def skipComputed : Limit Unit :=
  { input := 1, skip := some (.computed ()), limit := some (.literal 1) }

def sortByNumber : SortOp ℕ ℕ Unit :=
  { input := 0, items := byNumber, topK := none, limit := none, presorted := 0 }

def skipPlan : List (LogicalOp ℕ ℕ Unit) :=
  [.other, .sort sortByNumber, .limit skipComputed]

/-- `$s` is one. -/
def skipOne : Unit → CountValue := fun _ => .int 1

theorem skipPlan_limits (k : ℕ) (op' : Limit Unit) (h : skipPlan[k]? = some (.limit op')) :
    k = 2 := by
  match k with
  | 0 => exact absurd h (by simp [skipPlan])
  | 1 => exact absurd h (by simp [skipPlan])
  | 2 => rfl
  | k + 3 => exact absurd h (by simp [skipPlan])

/-- Of two ordered rows, the second is the slice from position one; the sort was told to
keep one row, which the limit then skips. -/
theorem orderLimit_skip_lost :
    executeAt (executeBuffered skipOne) (annotateTopKSorts skipPlan) 2 [1, 2] = some (.ok []) ∧
      executeAt (executePull skipOne) (annotateTopKSorts skipPlan) 2 [1, 2] = some (.ok []) ∧
      skipCount skipOne skipComputed = .ok 1 ∧
      limitCount skipOne skipComputed = .ok (some 1) ∧
      slice 1 (some 1) (fullSort byNumber [1, 2]) = [2] := by
  have hskip : skipCount skipOne skipComputed = .ok 1 := rfl
  have hlimit : limitCount skipOne skipComputed = .ok (some 1) := rfl
  have hsorted : fullSort byNumber [1, 2] = [1, 2] := mergeSort_of_pairwise (by decide)
  have hslice : slice 1 (some 1) (within (boundUnder skipOne skipComputed sortByNumber)
      (fullSort sortByNumber.items [1, 2])) = ([] : List ℕ) := by
    rw [show fullSort sortByNumber.items [1, 2] = [1, 2] from hsorted]
    rfl
  have hnode : ∀ exec : Limit Unit → SortOp ℕ ℕ Unit → List ℕ → Except String (List ℕ),
      executeAt exec (annotateTopKSorts skipPlan) 2 [1, 2] =
        some (exec skipComputed (annotateSort skipComputed sortByNumber) [1, 2]) :=
    fun exec => rfl
  refine ⟨?_, ?_, hskip, hlimit, ?_⟩
  · rw [hnode, executeBuffered_eq hskip hlimit]
    exact congrArg (fun rows => some (Except.ok rows)) hslice
  · rw [hnode, executePull_eq hskip hlimit fun h => absurd h (by decide)]
    exact congrArg (fun rows => some (Except.ok rows)) hslice
  · rw [hsorted]
    rfl

theorem orderLimit_iff_skipPlan :
    (executeAt (executeBuffered skipOne) (annotateTopKSorts skipPlan) 2 [2] =
        some (.ok (slice 1 (some 1) (fullSort byNumber [2]))) ∧
      executeAt (executePull skipOne) (annotateTopKSorts skipPlan) 2 [2] =
        some (.ok (slice 1 (some 1) (fullSort byNumber [2])))) ↔
      SkipCounted skipOne skipComputed ∨ 1 = 0 ∨ [2].length ≤ 1 ∨
        ∃ n, some 1 = some n ∧ (n = 0 ∨ [2].length ≤ n) :=
  orderLimit_iff rfl (rfl : skipPlan[skipComputed.input]? = some (.sort sortByNumber))
    (fun k op' h _ => skipPlan_limits k op' h) ⟨rfl, rfl⟩ rfl rfl
    (fun h => absurd h (by decide))

end LoraDb
