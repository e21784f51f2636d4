import LoraDb.Aggregates

/-!
# Folds over Lists

`list.sum`, `list.product`, `list.min`, `list.max` and `list.scan`, beside the aggregates over the
rows that a list unwinds to. A list is added up in its order, and changes from integers to floats
where the first float stands; an aggregate adds integers and floats apart.

## Main results

* `scan_ints`: over integers a scan runs through what its fold gives for each prefix.
* `scan_floats`: from a float on a scan runs through the float operation.
* `folds_agree`: where scans, folds and aggregates agree, and what they come to elsewhere.
-/

namespace LoraDb

open Comparing List

namespace ListNs

/-- Why a function ends at null: an error, or nothing to report. -/
abbrev Stop := Option String

def finish (x : Except Stop LoraValue) : EvalM LoraValue :=
  match x with
  | .ok v => pure v
  | .error stop => (.null, stop)

def overflow (name : String) : Stop := some (name ++ " overflowed")

def asList : List LoraValue → Option (List LoraValue)
  | .list xs :: _ => some xs
  | _ => none

/-! ### Sums and products -/

/-- What is folded: over integers, over floats, and from where. -/
structure Arithmetic where
  name : String
  intOp : ℤ → ℤ → ℤ
  floatOp : F64 → F64 → F64
  neutral : Int64

structure Acc where
  int : Int64
  float : F64
  anyFloat : Bool := false
  anyValue : Bool := false

namespace Arithmetic

variable (k : Arithmetic)

def start : Acc := { int := k.neutral, float := .ofInt k.neutral }

def step (acc : Acc) : LoraValue → Except Stop Acc
  | .null => .ok acc
  | .int i =>
    if acc.anyFloat then
      .ok { acc with anyValue := true, float := k.floatOp acc.float (.ofInt i) }
    else
      match checkedI64 (k.intOp acc.int.toInt i.toInt) with
      | some out => .ok { acc with anyValue := true, int := out }
      | none => .error (overflow ("list." ++ k.name))
  | .float f =>
    let float := if acc.anyFloat then acc.float else .ofInt acc.int
    .ok { acc with anyValue := true, anyFloat := true, float := k.floatOp float f }
  | _ => .error none

def value (acc : Acc) : LoraValue :=
  if !acc.anyValue then .int k.neutral
  else if acc.anyFloat then .float acc.float
  else .int acc.int

def run (args : List LoraValue) : EvalM LoraValue :=
  match asList args with
  | none => pure .null
  | some xs => finish ((xs.foldlM k.step k.start).map k.value)

end Arithmetic

section Operations

variable (F : FloatOps)

def sums : Arithmetic := ⟨"sum", (· + ·), F.add, 0⟩

def products : Arithmetic := ⟨"product", (· * ·), F.mul, 1⟩

def sum (args : List LoraValue) : EvalM LoraValue := (sums F).run args

def product (args : List LoraValue) : EvalM LoraValue := (products F).run args

/-! ### Minimum and maximum -/

def compareValues : LoraValue → LoraValue → Option Ordering
  | .int x, .int y => some (compare x.toInt y.toInt)
  | .float x, .float y => x.partialCmp y
  | .int x, .float y => (F64.ofInt x).partialCmp y
  | .float x, .int y => x.partialCmp (.ofInt y)
  | .string x, .string y => some (compare x y)
  | .bool x, .bool y => some (compare x y)
  | .null, .null => some .eq
  | .null, _ => some .lt
  | _, .null => some .gt
  | _, _ => none

/-- The best of the values so far and another, which replaces it when they compare so. -/
def better (replaced : Ordering) (best : Option LoraValue) (v : LoraValue) : Option LoraValue :=
  match best with
  | none => some v
  | some b => if compareValues b v = some replaced then some v else some b

def best (replaced : Ordering) (args : List LoraValue) : EvalM LoraValue :=
  match asList args with
  | none => pure .null
  | some xs => pure (((xs.filter (!·.isNull)).foldl (better replaced) none).getD .null)

def min (args : List LoraValue) : EvalM LoraValue := best .gt args

def max (args : List LoraValue) : EvalM LoraValue := best .lt args

/-! ### Scans -/

structure Scan where
  int : Int64 := 0
  float : F64 := .ofInt 0
  anyFloat : Bool := false
  started : Bool := false

namespace Scan

def value (s : Scan) : LoraValue := if s.anyFloat then .float s.float else .int s.int

def arithmetic (k : Arithmetic) (s : Scan) (v : LoraValue) (value : F64) : Except Stop Scan :=
  if s.anyFloat then .ok { s with float := k.floatOp s.float value }
  else
    match v with
    | .int i =>
      match checkedI64 (k.intOp s.int.toInt i.toInt) with
      | some out => .ok { s with int := out }
      | none => .error (overflow ("list.scan " ++ k.name))
    | _ => .ok { s with anyFloat := true, float := k.floatOp (.ofInt s.int) value }

def extreme (intOp : ℤ → ℤ → ℤ) (floatOp : F64 → F64 → F64) (s : Scan) (v : LoraValue)
    (value : F64) : Scan :=
  if s.anyFloat then { s with float := floatOp s.float value }
  else
    match v with
    | .int i => { s with int := .ofInt (intOp s.int.toInt i.toInt) }
    | _ => s

def combine (op : String) (s : Scan) (v : LoraValue) (value : F64) : Except Stop Scan :=
  match op with
  | "sum" => s.arithmetic (sums F) v value
  | "product" => s.arithmetic (products F) v value
  | "min" => .ok (s.extreme Min.min F.min v value)
  | "max" => .ok (s.extreme Max.max F.max v value)
  | _ => .error none

def advance (op : String) (s : Scan) (v : LoraValue) (value : F64) : Except Stop Scan :=
  if s.started then s.combine F op v value
  else
    match v with
    | .int i => .ok { s with started := true, int := i }
    | _ => .ok { s with started := true, anyFloat := true, float := value }

def step (op : String) (state : Scan × List LoraValue) (v : LoraValue) :
    Except Stop (Scan × List LoraValue) :=
  let push (next : Except Stop Scan) := next.map fun s => (s, state.2 ++ [s.value])
  match v with
  | .null => .ok state
  | .int i => push (state.1.advance F op v (.ofInt i))
  | .float f => push ({ state.1 with anyFloat := true }.advance F op v f)
  | _ => .error none

end Scan

def scan : List LoraValue → EvalM LoraValue
  | .list xs :: .string op :: _ =>
    finish ((xs.foldlM (Scan.step F op) ({}, [])).map fun state => .list state.2)
  | _ => pure .null

end Operations

/-! ### Prefixes -/

/-- What a scan runs. -/
inductive ScanOp where
  | sum
  | product
  | min
  | max

namespace ScanOp

def name : ScanOp → String
  | .sum => "sum"
  | .product => "product"
  | .min => "min"
  | .max => "max"

def fold (F : FloatOps) : ScanOp → List LoraValue → EvalM LoraValue
  | .sum => ListNs.sum F
  | .product => ListNs.product F
  | .min => ListNs.min
  | .max => ListNs.max

end ScanOp

/-- The prefixes that end in a value. -/
def endings (before : List LoraValue) : List LoraValue → List (List LoraValue)
  | [] => []
  | v :: rest =>
    if v.isNull then endings (before ++ [v]) rest
    else (before ++ [v]) :: endings (before ++ [v]) rest

/-- A scan runs through what its fold gives for each prefix, or fails as one of them does. -/
def RunsThrough (F : FloatOps) (op : ScanOp) (xs : List LoraValue) : Prop :=
  ((∀ p ∈ endings [] xs, (op.fold F [.list p]).error = none) ∧ scan F [.list xs, .string op.name] =
      pure (.list ((endings [] xs).map fun p => (op.fold F [.list p]).value))) ∨
  ((∃ p ∈ endings [] xs, op.fold F [.list p] = (.null, overflow ("list." ++ op.name))) ∧
    scan F [.list xs, .string op.name] = (.null, overflow ("list.scan " ++ op.name)))

/-- An integer, or null. -/
def IsInt (v : LoraValue) : Prop := v.isNull = true ∨ ∃ i, v = .int i

variable {F : FloatOps} {op : ScanOp} {xs before : List LoraValue} {s : Scan}

/-- One value on, the scan **follows** its fold. -/
structure Follows (F : FloatOps) (op : ScanOp) (R : List LoraValue → Scan → Prop) : Prop where
  null : ∀ before s, R before s → R (before ++ [.null]) s
  int : ∀ before s i, R before s →
    (∃ s', s.advance F op.name (.int i) (.ofInt i) = .ok s' ∧ R (before ++ [.int i]) s' ∧
      op.fold F [.list (before ++ [.int i])] = pure s'.value) ∨
    (s.advance F op.name (.int i) (.ofInt i) = .error (overflow ("list.scan " ++ op.name)) ∧
      op.fold F [.list (before ++ [.int i])] = (.null, overflow ("list." ++ op.name)))

theorem endings_int {i : Int64} : endings before (.int i :: xs) =
    (before ++ [.int i]) :: endings (before ++ [.int i]) xs := rfl

/-- The run, by what one value does. -/
theorem Follows.run {R : List LoraValue → Scan → Prop} (h : Follows F op R) (out : List LoraValue)
    (hxs : ∀ v ∈ xs, IsInt v) (hR : R before s) :
    ((∀ p ∈ endings before xs, (op.fold F [.list p]).error = none) ∧
      ∃ s', xs.foldlM (Scan.step F op.name) (s, out) =
        .ok (s', out ++ (endings before xs).map fun p => (op.fold F [.list p]).value)) ∨
    ((∃ p ∈ endings before xs, op.fold F [.list p] = (.null, overflow ("list." ++ op.name))) ∧
      xs.foldlM (Scan.step F op.name) (s, out) = .error (overflow ("list.scan " ++ op.name))) := by
  induction xs generalizing before s out with
  | nil => exact Or.inl ⟨fun p hp => absurd hp not_mem_nil, s, by rw [endings]; simp; rfl⟩
  | cons v xs ih =>
    have hrest : ∀ w ∈ xs, IsInt w := fun w hw => hxs w (mem_cons_of_mem v hw)
    rcases hxs v mem_cons_self with hnull | ⟨i, rfl⟩
    · obtain rfl : v = .null := by
        cases v with
        | null => rfl
        | _ => exact absurd hnull Bool.false_ne_true
      exact ih out hrest (h.null before s hR)
    · rw [foldlM_cons, endings_int]
      rcases h.int before s i hR with ⟨s', hstep, hR', hfold⟩ | ⟨hstep, hfold⟩
      · have hpush : Scan.step F op.name (s, out) (.int i) = .ok (s', out ++ [s'.value]) := by
          rw [Scan.step]
          simp only [hstep]
          rfl
        have hvalue : (op.fold F [.list (before ++ [.int i])]).value = s'.value := by
          rw [hfold]
          rfl
        have herror : (op.fold F [.list (before ++ [.int i])]).error = none := by
          rw [hfold]
          rfl
        rw [hpush]
        rcases ih (out ++ [s'.value]) hrest hR' with ⟨hgood, s'', hrun⟩ | ⟨⟨p, hp, hbad⟩, hrun⟩
        · refine Or.inl ⟨List.forall_mem_cons.mpr ⟨herror, hgood⟩, s'', ?_⟩
          rw [map_cons, hvalue]
          exact hrun.trans (by rw [append_assoc]; rfl)
        · exact Or.inr ⟨⟨p, mem_cons_of_mem _ hp, hbad⟩, hrun⟩
      · refine Or.inr ⟨⟨_, mem_cons_self, hfold⟩, ?_⟩
        have hpush : Scan.step F op.name (s, out) (.int i) =
            .error (overflow ("list.scan " ++ op.name)) := by
          rw [Scan.step]
          simp only [hstep]
          rfl
        rw [hpush]
        rfl

theorem Follows.runsThrough {R : List LoraValue → Scan → Prop} (h : Follows F op R)
    (hxs : ∀ v ∈ xs, IsInt v) (hR : R [] {}) : RunsThrough F op xs := by
  rcases h.run [] hxs hR with ⟨hgood, s', hrun⟩ | ⟨hbad, hrun⟩
  · refine Or.inl ⟨hgood, ?_⟩
    rw [scan, hrun]
    rfl
  · refine Or.inr ⟨hbad, ?_⟩
    rw [scan, hrun]
    rfl

/-! ### Over integers -/

/-- A sum or a product is where its scan is. -/
def SameInts (k : Arithmetic) (before : List LoraValue) (s : Scan) : Prop :=
  s.anyFloat = false ∧ ∃ acc, before.foldlM k.step k.start = .ok acc ∧ acc.anyFloat = false ∧
    acc.anyValue = s.started ∧ acc.int = if s.started then s.int else k.neutral

theorem follows_arithmetic {k : Arithmetic} (hname : k.name = op.name)
    (hfold : ∀ args, op.fold F args = k.run args)
    (hcombine : ∀ s v x, Scan.combine F op.name s v x = s.arithmetic k v x)
    (hneutral : ∀ n, k.intOp k.neutral.toInt n = n) : Follows F op (SameInts k) := by
  constructor
  · rintro before s ⟨hint, acc, hacc, hrest⟩
    refine ⟨hint, acc, ?_, hrest⟩
    rw [foldlM_append, hacc]
    rfl
  · rintro before s i ⟨hint, acc, hacc, hfloat, hstarted, hsame⟩
    have hone : (before ++ [LoraValue.int i]).foldlM k.step k.start = k.step acc (.int i) := by
      rw [foldlM_append, hacc]
      exact bind_pure (k.step acc (.int i))
    have hrun : op.fold F [.list (before ++ [.int i])] =
        finish ((k.step acc (.int i)).map k.value) := by
      rw [hfold, Arithmetic.run]
      exact congrArg (fun x => finish (Except.map k.value x)) hone
    have hstep : k.step acc (.int i) = match checkedI64 (k.intOp acc.int.toInt i.toInt) with
        | some out => .ok { acc with anyValue := true, int := out }
        | none => .error (overflow ("list." ++ k.name)) := by
      rw [Arithmetic.step, hfloat]
      rfl
    by_cases hs : s.started = true
    · rw [hs, if_pos rfl] at hsame
      have hadvance : s.advance F op.name (.int i) (.ofInt i) =
          match checkedI64 (k.intOp s.int.toInt i.toInt) with
          | some out => .ok { s with int := out }
          | none => .error (overflow ("list.scan " ++ k.name)) := by
        rw [Scan.advance, if_pos hs, hcombine, Scan.arithmetic, hint]
        rfl
      rw [hsame] at hstep
      cases hsum : checkedI64 (k.intOp s.int.toInt i.toInt) with
      | some out =>
        simp only [hsum] at hadvance hstep
        refine Or.inl ⟨_, hadvance, ⟨hint, _, hone.trans hstep, hfloat, hs.symm, ?_⟩, ?_⟩
        · rw [if_pos hs]
        · rw [hrun, hstep, Scan.value]
          simp [Except.map, finish, Arithmetic.value, hfloat, hint]
      | none =>
        simp only [hsum] at hadvance hstep
        refine Or.inr ⟨by rw [hadvance, hname], ?_⟩
        rw [hrun, hstep, hname]
        rfl
    · rw [if_neg hs] at hsame
      rw [Bool.not_eq_true] at hs
      have hadvance : s.advance F op.name (.int i) (.ofInt i) =
          .ok { s with started := true, int := i } := by
        rw [Scan.advance, if_neg (by rw [hs]; exact Bool.false_ne_true)]
      rw [hsame, hneutral, checkedI64_eq_some.mpr rfl] at hstep
      refine Or.inl ⟨_, hadvance, ⟨hint, _, hone.trans hstep, hfloat, rfl, by rw [if_pos rfl]⟩, ?_⟩
      rw [hrun, hstep, Scan.value]
      simp [Except.map, finish, Arithmetic.value, hfloat, hint]

/-- The best integer is where its scan is. -/
def SameBest (replaced : Ordering) (before : List LoraValue) (s : Scan) : Prop :=
  s.anyFloat = false ∧ (before.filter (!·.isNull)).foldl (better replaced) none =
    if s.started then some (.int s.int) else none

theorem follows_best {replaced : Ordering} {intOp : ℤ → ℤ → ℤ} {floatOp : F64 → F64 → F64}
    (hfold : ∀ args, op.fold F args = best replaced args)
    (hcombine : ∀ s v x, Scan.combine F op.name s v x = .ok (s.extreme intOp floatOp v x))
    (hpick : ∀ n m : ℤ, intOp n m = if compare n m = replaced then m else n) :
    Follows F op (SameBest replaced) := by
  constructor
  · rintro before s ⟨hint, hbest⟩
    refine ⟨hint, ?_⟩
    rw [filter_append, show [LoraValue.null].filter (!·.isNull) = [] from rfl, append_nil]
    exact hbest
  · rintro before s i ⟨hint, hbest⟩
    have hone : ((before ++ [LoraValue.int i]).filter (!·.isNull)).foldl (better replaced) none =
        better replaced (if s.started then some (.int s.int) else none) (.int i) := by
      rw [filter_append, foldl_append, hbest]
      rfl
    have hrun : op.fold F [.list (before ++ [.int i])] = pure ((better replaced
        (if s.started then some (.int s.int) else none) (.int i)).getD .null) := by
      rw [hfold, best]
      exact congrArg (fun x => (pure (Option.getD x .null) : EvalM LoraValue)) hone
    by_cases hs : s.started = true
    · rw [if_pos hs] at hone hrun
      have hnext : better replaced (some (.int s.int)) (.int i) =
          some (.int (.ofInt (intOp s.int.toInt i.toInt))) := by
        rw [better, hpick]
        simp only [compareValues, Option.some.injEq]
        split <;> rw [Int64.ofInt_toInt]
      refine Or.inl ⟨{ s with int := .ofInt (intOp s.int.toInt i.toInt) }, ?_, ⟨hint, ?_⟩, ?_⟩
      · rw [Scan.advance, if_pos hs, hcombine, Scan.extreme, hint]
        rfl
      · rw [hone, hnext, if_pos hs]
      · rw [hrun, hnext, Scan.value, hint]
        rfl
    · rw [if_neg hs] at hone hrun
      refine Or.inl ⟨{ s with started := true, int := i }, ?_, ⟨hint, hone⟩, ?_⟩
      · rw [Scan.advance, if_neg hs]
      · rw [hrun, Scan.value, hint]
        rfl

theorem scan_ints (F : FloatOps) (op : ScanOp) (hxs : ∀ v ∈ xs, IsInt v) : RunsThrough F op xs := by
  cases op with
  | sum =>
    have h : Follows F .sum (SameInts (sums F)) :=
      follows_arithmetic rfl (fun _ => rfl) (fun _ _ _ => rfl) Int.zero_add
    exact h.runsThrough hxs ⟨rfl, _, rfl, rfl, rfl, rfl⟩
  | product =>
    have h : Follows F .product (SameInts (products F)) :=
      follows_arithmetic rfl (fun _ => rfl) (fun _ _ _ => rfl) Int.one_mul
    exact h.runsThrough hxs ⟨rfl, _, rfl, rfl, rfl, rfl⟩
  | min =>
    have h : Follows F .min (SameBest .gt) := by
      refine @follows_best F .min .gt Min.min F.min (fun _ => rfl) (fun _ _ _ => rfl) ?_
      intro n m
      simp only [compare_gt_iff_gt]
      omega
    exact h.runsThrough hxs ⟨rfl, rfl⟩
  | max =>
    have h : Follows F .max (SameBest .lt) := by
      refine @follows_best F .max .lt Max.max F.max (fun _ => rfl) (fun _ _ _ => rfl) ?_
      intro n m
      simp only [compare_lt_iff_lt]
      omega
    exact h.runsThrough hxs ⟨rfl, rfl⟩

/-! ### From a float on -/

/-- The values that are not null. -/
def present (xs : List LoraValue) : List LoraValue := xs.filter (!·.isNull)

/-- Every number, as a float. -/
def numbers (xs : List LoraValue) : List F64 := xs.filterMap LoraValue.asF64

def ScanOp.float (F : FloatOps) : ScanOp → F64 → F64 → F64
  | .sum => F.add
  | .product => F.mul
  | .min => F.min
  | .max => F.max

theorem foldlM_present {β : Type} {step : β → LoraValue → Except Stop β}
    (hnull : ∀ b, step b .null = .ok b) (b : β) (xs : List LoraValue) :
    xs.foldlM step b = (present xs).foldlM step b := by
  induction xs generalizing b with
  | nil => rfl
  | cons v xs ih =>
    cases hv : v.isNull with
    | true =>
      obtain rfl : v = .null := by
        cases v with
        | null => rfl
        | _ => exact absurd hv Bool.false_ne_true
      have hskip : present (.null :: xs) = present xs := rfl
      rw [foldlM_cons, hnull, hskip, ← ih b]
      rfl
    | false =>
      have hkeep : present (v :: xs) = v :: present xs := filter_cons_of_pos (by rw [hv]; rfl)
      rw [hkeep, foldlM_cons, foldlM_cons]
      exact congrArg _ (funext ih)

variable {rest : List LoraValue}

/-- Once floats have come, a scan runs through floats. -/
theorem scan_run_floats (hrest : ∀ v ∈ rest, v.isNumber = true)
    (int : Int64) (float : F64) (out : List LoraValue) :
    ∃ s', rest.foldlM (Scan.step F op.name) (⟨int, float, true, true⟩, out ++ [.float float]) =
      .ok (s', out ++ ((numbers rest).scanl (op.float F) float).map .float) := by
  induction rest generalizing float out with
  | nil => exact ⟨_, rfl⟩
  | cons v rest ih =>
    have hcombine : ∀ v x, Scan.combine F op.name ⟨int, float, true, true⟩ v x =
        .ok ⟨int, op.float F float x, true, true⟩ := by
      intro v x
      cases op <;> rfl
    obtain ⟨x, hx, hstep⟩ : ∃ x, v.asF64 = some x ∧
        Scan.step F op.name (⟨int, float, true, true⟩, out ++ [.float float]) v =
          .ok (⟨int, op.float F float x, true, true⟩,
            out ++ [.float float] ++ [.float (op.float F float x)]) := by
      cases v with
      | int i =>
        refine ⟨.ofInt i, rfl, ?_⟩
        simp only [Scan.step, Scan.advance, if_true, hcombine, Except.map, Scan.value]
      | float f =>
        refine ⟨f, rfl, ?_⟩
        simp only [Scan.step, Scan.advance, if_true, hcombine, Except.map, Scan.value]
      | _ => exact absurd (hrest _ mem_cons_self) Bool.false_ne_true
    obtain ⟨s', hrun⟩ := ih (fun w hw => hrest w (mem_cons_of_mem v hw))
      (op.float F float x) (out ++ [.float float])
    refine ⟨s', ?_⟩
    have hnumbers : numbers (v :: rest) = x :: numbers rest := filterMap_cons_some hx
    rw [foldlM_cons, hstep, hnumbers, scanl_cons]
    refine hrun.trans ?_
    rw [append_assoc]
    rfl

theorem scan_floats (F : FloatOps) (op : ScanOp) {f : F64}
    (hxs : present xs = .float f :: rest) (hrest : ∀ v ∈ rest, v.isNumber = true) :
    scan F [.list xs, .string op.name] =
      pure (.list (((numbers rest).scanl (op.float F) f).map .float)) := by
  obtain ⟨s', hrun⟩ := @scan_run_floats F op rest hrest 0 f []
  have hall : xs.foldlM (Scan.step F op.name) ({}, []) =
      .ok (s', ((numbers rest).scanl (op.float F) f).map .float) := by
    rw [foldlM_present (fun _ => rfl), hxs, foldlM_cons]
    exact hrun
  rw [scan, hall]
  rfl

/-! ### Folds with floats -/

def ints (xs : List LoraValue) : List Int64 := xs.filterMap LoraValue.asI64

/-- Integers folded, unless a result on the way does not fit. -/
def checkedFold (intOp : ℤ → ℤ → ℤ) (start : Int64) (is : List Int64) : Option Int64 :=
  is.foldlM (fun acc i => checkedI64 (intOp acc.toInt i.toInt)) start

variable {k : Arithmetic}

theorem step_int {acc : Acc} (hacc : acc.anyFloat = false) (i : Int64) : k.step acc (.int i) =
    match checkedI64 (k.intOp acc.int.toInt i.toInt) with
    | some out => .ok { acc with anyValue := true, int := out }
    | none => .error (overflow ("list." ++ k.name)) := by
  rw [Arithmetic.step, hacc]
  rfl

/-- Integers first. -/
theorem run_ints (is : List Int64) (rest : List LoraValue) {acc : Acc}
    (hacc : acc.anyFloat = false) : (is.map LoraValue.int ++ rest).foldlM k.step acc =
      match checkedFold k.intOp acc.int is with
      | some out => rest.foldlM k.step
        { acc with anyValue := acc.anyValue || !is.isEmpty, int := out }
      | none => .error (overflow ("list." ++ k.name)) := by
  induction is generalizing acc with
  | nil =>
    have hsame : { acc with anyValue := acc.anyValue || !([] : List Int64).isEmpty } = acc := by
      rw [isEmpty_nil, Bool.not_true, Bool.or_false]
    exact congrArg (fun acc => rest.foldlM k.step acc) hsame.symm
  | cons i is ih =>
    rw [map_cons, cons_append, foldlM_cons, step_int hacc]
    cases hsum : checkedI64 (k.intOp acc.int.toInt i.toInt) with
    | none =>
      have hnone : checkedFold k.intOp acc.int (i :: is) = none := by
        rw [checkedFold, foldlM_cons, hsum]
        rfl
      rw [hnone]
      rfl
    | some out =>
      have hcons : checkedFold k.intOp acc.int (i :: is) = checkedFold k.intOp out is := by
        rw [checkedFold, foldlM_cons, hsum]
        rfl
      rw [hcons]
      refine (@ih { acc with anyValue := true, int := out } hacc).trans ?_
      simp only [Bool.true_or, isEmpty_cons, Bool.not_false, Bool.or_true]

/-- Floats after that. -/
theorem run_floats (hrest : ∀ v ∈ rest, v.isNumber = true) (int : Int64)
    (float : F64) : rest.foldlM k.step ⟨int, float, true, true⟩ =
      .ok ⟨int, (numbers rest).foldl k.floatOp float, true, true⟩ := by
  induction rest generalizing float with
  | nil => rfl
  | cons v rest ih =>
    have hmem := fun w hw => hrest w (mem_cons_of_mem v hw)
    cases v with
    | int i => exact ih hmem (k.floatOp float (.ofInt i))
    | float f => exact ih hmem (k.floatOp float f)
    | _ => exact absurd (hrest _ mem_cons_self) Bool.false_ne_true

theorem run_eq (k : Arithmetic) (xs : List LoraValue) :
    k.run [.list xs] = finish (((present xs).foldlM k.step k.start).map k.value) := by
  rw [Arithmetic.run]
  exact congrArg (fun x => finish (Except.map k.value x)) (foldlM_present (fun _ => rfl) _ xs)

/-- A fold changes to floats at the first float. -/
theorem run_mixed {is : List Int64} {f : F64} (hxs : present xs = is.map .int ++ .float f :: rest)
    (hrest : ∀ v ∈ rest, v.isNumber = true) : k.run [.list xs] =
      match checkedFold k.intOp k.neutral is with
      | some out =>
        pure (.float ((numbers rest).foldl k.floatOp (k.floatOp (.ofInt out) f)))
      | none => (.null, overflow ("list." ++ k.name)) := by
  rw [run_eq, hxs, @run_ints k is _ k.start rfl]
  have hstart : k.start.int = k.neutral := rfl
  rw [hstart]
  cases checkedFold k.intOp k.neutral is with
  | none => rfl
  | some out =>
    have hrun := @run_floats rest k hrest out (k.floatOp (.ofInt out) f)
    exact congrArg (fun x => finish (Except.map k.value x)) hrun

theorem run_only_ints {is : List Int64} (hxs : present xs = is.map .int) : k.run [.list xs] =
    match checkedFold k.intOp k.neutral is with
    | some out => pure (.int out)
    | none => (.null, overflow ("list." ++ k.name)) := by
  have hrun := @run_ints k is [] k.start rfl
  rw [append_nil] at hrun
  rw [run_eq, hxs, hrun]
  have hstart : k.start.int = k.neutral := rfl
  rw [hstart]
  cases hout : checkedFold k.intOp k.neutral is with
  | none => rfl
  | some out =>
    cases is with
    | nil =>
      obtain rfl := Option.some.inj hout
      rfl
    | cons i is => rfl

/-- Of floats alone, the best is what a float operation that picks it comes to. -/
theorem best_floats {replaced : Ordering} {pick : F64 → F64 → F64} {f : F64} {fs : List F64}
    (hxs : present xs = (f :: fs).map .float)
    (hpick : ∀ a ∈ f :: fs, ∀ b ∈ f :: fs,
      pick a b = if a.partialCmp b = some replaced then b else a) :
    best replaced [.list xs] = pure (.float (fs.foldl pick f)) := by
  have hrun : ∀ gs : List F64, ∀ a ∈ f :: fs, (∀ g ∈ gs, g ∈ f :: fs) →
      (gs.map LoraValue.float).foldl (better replaced) (some (.float a)) =
        some (.float (gs.foldl pick a)) := by
    intro gs
    induction gs with
    | nil => exact fun _ _ _ => rfl
    | cons g gs ih =>
      intro a ha hgs
      have hg := hgs g mem_cons_self
      have hstep : better replaced (some (.float a)) (.float g) = some (.float (pick a g)) := by
        rw [better, compareValues, hpick a ha g hg]
        split <;> rfl
      have hin : pick a g ∈ f :: fs := by
        rw [hpick a ha g hg]
        split
        · exact hg
        · exact ha
      rw [map_cons, foldl_cons, hstep, foldl_cons]
      exact ih (pick a g) hin fun h hh => hgs h (mem_cons_of_mem g hh)
  have hall : (present xs).foldl (better replaced) none = some (.float (fs.foldl pick f)) := by
    rw [hxs]
    exact hrun fs f mem_cons_self fun g hg => mem_cons_of_mem f hg
  rw [best]
  exact congrArg (fun x => (pure (Option.getD x .null) : EvalM LoraValue)) hall

/-! ### Rows -/

/-- The floats of a list. -/
def floats (xs : List LoraValue) : List F64 :=
  xs.filterMap fun
    | .float f => some f
    | _ => none

/-- A number, or null. -/
def IsNumeric (v : LoraValue) : Prop := v.isNull = true ∨ v.isNumber = true

/-- What a total of numbers **holds** after some more. -/
structure Holds (F : FloatOps) (xs : List LoraValue) (t t' : Total) : Prop where
  duration : t'.duration = none
  ints : t'.ints = t.ints + (ints xs).length
  floats : t'.floats = t.floats + (floats xs).length
  float : t'.float = (ListNs.floats xs).foldl F.add t.float
  stuck : t.overflowed = true → t'.overflowed = true
  int : t.overflowed = false → match checkedFold (· + ·) t.int (ListNs.ints xs) with
    | some out => t'.overflowed = false ∧ t'.int = out
    | none => t'.overflowed = true

theorem total_holds (hxs : ∀ v ∈ xs, IsNumeric v) (t : Total) (ht : t.duration = none) :
    Holds F xs t (xs.foldl (Total.add F) t) := by
  induction xs generalizing t with
  | nil => exact ⟨ht, rfl, rfl, rfl, id, fun h => ⟨h, rfl⟩⟩
  | cons v xs ih =>
    have hrest := fun w hw => hxs w (mem_cons_of_mem v hw)
    cases v with
    | null =>
      have h := ih hrest t ht
      exact ⟨h.duration, h.ints, h.floats, h.float, h.stuck, h.int⟩
    | float f =>
      have h := ih hrest (t.add F (.float f)) ht
      have hfloats : floats (.float f :: xs) = f :: floats xs := rfl
      exact
        { duration := h.duration
          ints := h.ints
          floats := h.floats.trans (by
            rw [hfloats, length_cons, Nat.add_comm (floats xs).length, ← Nat.add_assoc]
            rfl)
          float := h.float
          stuck := h.stuck
          int := h.int }
    | int i =>
      have hints : ints (.int i :: xs) = i :: ints xs := rfl
      have hcount : t.ints + (ints (.int i :: xs)).length = t.ints + 1 + (ints xs).length := by
        rw [hints, length_cons]
        omega
      have hfold : checkedFold (· + ·) t.int (ints (.int i :: xs)) =
          (checkedI64 (t.int.toInt + i.toInt)).bind
            fun out => checkedFold (· + ·) out (ints xs) := rfl
      rw [foldl_cons, Total.add, Total.addInt]
      cases hsum : checkedI64 (t.int.toInt + i.toInt) with
      | some out =>
        have h := ih hrest { t with int := out, ints := t.ints + 1 } ht
        refine ⟨h.duration, h.ints.trans hcount.symm, h.floats, h.float, h.stuck, ?_⟩
        rw [hfold, hsum]
        exact h.int
      | none =>
        have h := ih hrest { t with overflowed := true, ints := t.ints + 1 } ht
        refine ⟨h.duration, h.ints.trans hcount.symm, h.floats, h.float, fun _ => h.stuck rfl, ?_⟩
        rw [hfold, hsum]
        exact fun _ => h.stuck rfl
    | _ => exact absurd (hxs _ mem_cons_self) (by rintro (h | h) <;> exact Bool.noConfusion h)

theorem foldl_sum (F : FloatOps) (r : Rendering) (xs : List LoraValue) (t : Total) :
    xs.foldl (AggState.fold F r .sum) (.sum t) = .sum (xs.foldl (Total.add F) t) := by
  induction xs generalizing t with
  | nil => rfl
  | cons v xs ih => exact ih (t.add F v)

/-- The sum over rows adds integers and floats apart. -/
theorem stream_sum (F : FloatOps) (r : Rendering) (hxs : ∀ v ∈ xs, IsNumeric v) :
    AggState.stream F r .sum xs = match checkedFold (· + ·) 0 (ints xs) with
      | some out => .ok (if floats xs = [] then .int out
        else .float (F.add (.ofInt out) ((floats xs).foldl F.add (.ofInt 0))))
      | none => .error (.overflowed "sum") := by
  have h := @total_holds F xs hxs {} rfl
  obtain ⟨t, ht⟩ : ∃ t, xs.foldl (Total.add F) {} = t := ⟨_, rfl⟩
  rw [ht] at h
  have hstream : AggState.stream F r .sum xs = t.sum F "sum" := by
    rw [AggState.stream, AggState.seed, foldl_sum, ht, AggState.finalize]
  have hint := h.int rfl
  have hints : t.ints = (ints xs).length := h.ints.trans (Nat.zero_add _)
  have hfloats : t.floats = (floats xs).length := h.floats.trans (Nat.zero_add _)
  rw [hstream, Total.sum, Total.total]
  cases hsum : checkedFold (· + ·) 0 (ints xs) with
  | none =>
    simp only [hsum] at hint
    rw [if_pos hint]
    rfl
  | some out =>
    simp only [hsum] at hint
    obtain ⟨hover, hout⟩ := hint
    rw [if_neg (by rw [hover]; exact Bool.false_ne_true), h.duration]
    have hnil : t.floats = 0 ↔ floats xs = [] := by rw [hfloats, length_eq_zero_iff]
    by_cases hnone : floats xs = []
    · have hzero := hnil.mpr hnone
      by_cases hempty : t.ints + t.floats = 0
      · have hnoints : ints xs = [] := List.length_eq_zero_iff.mp (by omega)
        rw [hnoints] at hsum
        obtain rfl := Option.some.inj hsum
        simp only [hempty, hnone, if_true]
        rfl
      · have hsome : t.ints ≠ 0 := by omega
        simp only [hzero, Nat.add_zero, hsome, if_false, hnone, if_true, hout]
        rfl
    · have hne := mt hnil.mp hnone
      have hempty : t.ints + t.floats ≠ 0 := by omega
      simp only [hempty, if_false, hne, hnone, hout, h.float]
      rfl

/-- Values of one order. -/
def OneOrder (xs : List LoraValue) : Prop :=
  (∀ v ∈ present xs, v.isNumber = true) ∨ (∀ v ∈ present xs, ∃ t, v = .string t) ∨
    (∀ v ∈ present xs, ∃ b, v = .bool b)

theorem partialCmp_swap (f g : F64) : (g.partialCmp f).getD .eq = .lt ↔
    f.partialCmp g = some .gt := by
  rw [F64.partialCmp, F64.partialCmp, Bool.or_comm]
  split
  · simp
  · rw [Option.getD_some, Option.some.injEq, compare_lt_iff_lt, compare_gt_iff_gt]

theorem partialCmp_swap' (f g : F64) : (g.partialCmp f).getD .eq = .gt ↔
    f.partialCmp g = some .lt := by
  rw [F64.partialCmp, F64.partialCmp, Bool.or_comm]
  split
  · simp
  · rw [Option.getD_some, Option.some.injEq, compare_lt_iff_lt, compare_gt_iff_gt]

/-- In one order both comparisons agree. -/
theorem compare_agree (r : Rendering) (hxs : OneOrder xs) {a b : LoraValue} (ha : a ∈ present xs)
    (hb : b ∈ present xs) :
    (compareValuesTotal r b a = .lt ↔ compareValues a b = some .gt) ∧
      (compareValuesTotal r b a = .gt ↔ compareValues a b = some .lt) := by
  rcases hxs with hnumbers | hstrings | hbools
  · have ha' := hnumbers a ha
    have hb' := hnumbers b hb
    cases a with
    | int i =>
      cases b with
      | int j =>
        simp only [compareValuesTotal, compareValues, Option.some.injEq, compare_lt_iff_lt,
          compare_gt_iff_gt, and_self]
      | float g => exact ⟨partialCmp_swap _ _, partialCmp_swap' _ _⟩
      | _ => exact absurd hb' Bool.false_ne_true
    | float f =>
      cases b with
      | int j => exact ⟨partialCmp_swap _ _, partialCmp_swap' _ _⟩
      | float g => exact ⟨partialCmp_swap _ _, partialCmp_swap' _ _⟩
      | _ => exact absurd hb' Bool.false_ne_true
    | _ => exact absurd ha' Bool.false_ne_true
  · obtain ⟨s, rfl⟩ := hstrings a ha
    obtain ⟨t, rfl⟩ := hstrings b hb
    simp only [compareValuesTotal, compareValues, Option.some.injEq, compare_lt_iff_lt,
      compare_gt_iff_gt, and_self]
  · obtain ⟨s, rfl⟩ := hbools a ha
    obtain ⟨t, rfl⟩ := hbools b hb
    simp only [compareValuesTotal, compareValues, Option.some.injEq, compare_lt_iff_lt,
      compare_gt_iff_gt, and_self]

/-- The best of the rows is picked as the best of the list is. -/
theorem pick_best {r : Rendering} {kept replaced : Ordering}
    (h : ∀ a ∈ present xs, ∀ b ∈ present xs,
      compareValuesTotal r b a = kept ↔ compareValues a b = some replaced) :
    xs.foldl (foldExtreme r kept) none = (present xs).foldl (better replaced) none := by
  have hrun : ∀ ys : List LoraValue, (∀ v ∈ ys, v ∈ present xs) →
      ∀ slot : Option LoraValue, (∀ v ∈ slot, v ∈ present xs) →
        ys.foldl (pick (compareValuesTotal r) kept) slot = ys.foldl (better replaced) slot := by
    intro ys
    induction ys with
    | nil => exact fun _ _ _ => rfl
    | cons v ys ih =>
      intro hys slot hslot
      have hmem := hys v mem_cons_self
      have hstep : pick (compareValuesTotal r) kept slot v = better replaced slot v := by
        cases slot with
        | none => rfl
        | some cur =>
          have hiff := h cur (hslot cur rfl) v hmem
          simp only [pick, better, hiff]
      have hnext : ∀ w ∈ better replaced slot v, w ∈ present xs := by
        intro w hw
        cases slot with
        | none =>
          obtain rfl := Option.some.inj hw
          exact hmem
        | some cur =>
          rw [better] at hw
          split at hw
          · obtain rfl := Option.some.inj hw
            exact hmem
          · exact hslot w hw
      rw [foldl_cons, foldl_cons, hstep]
      exact ih (fun w hw => hys w (mem_cons_of_mem v hw)) _ hnext
  rw [foldl_foldExtreme]
  exact hrun (present xs) (fun v hv => hv) none fun v hv => absurd hv.symm (Option.some_ne_none v)

theorem foldl_min (F : FloatOps) (r : Rendering) (xs : List LoraValue) (slot : Option LoraValue) :
    xs.foldl (AggState.fold F r .min) (.min slot) = .min (xs.foldl (foldExtreme r .lt) slot) := by
  induction xs generalizing slot with
  | nil => rfl
  | cons v xs ih => exact ih (foldExtreme r .lt slot v)

theorem foldl_max (F : FloatOps) (r : Rendering) (xs : List LoraValue) (slot : Option LoraValue) :
    xs.foldl (AggState.fold F r .max) (.max slot) = .max (xs.foldl (foldExtreme r .gt) slot) := by
  induction xs generalizing slot with
  | nil => rfl
  | cons v xs ih => exact ih (foldExtreme r .gt slot v)

/-! ### Agreement -/

theorem endings_last {p : List LoraValue} (h : (endings before xs).getLast? = some p) :
    ∃ nulls, before ++ xs = p ++ nulls ∧ present nulls = [] := by
  induction xs generalizing before with
  | nil => exact absurd h.symm (Option.some_ne_none p)
  | cons v xs ih =>
    have hall : before ++ v :: xs = before ++ [v] ++ xs := append_cons before v xs
    rw [hall]
    cases hv : v.isNull with
    | true =>
      rw [endings, if_pos hv] at h
      exact ih h
    | false =>
      rw [endings, if_neg (by rw [hv]; exact Bool.false_ne_true)] at h
      cases hrest : endings (before ++ [v]) xs with
      | cons q qs =>
        rw [hrest, getLast?_cons_cons, ← hrest] at h
        exact ih h
      | nil =>
        rw [hrest] at h
        obtain rfl := Option.some.inj h
        refine ⟨xs, rfl, ?_⟩
        have hempty : ∀ (ys b : List LoraValue), endings b ys = [] → present ys = [] := by
          intro ys
          induction ys with
          | nil => exact fun _ _ => rfl
          | cons w ys ih' =>
            intro b hb
            cases hw : w.isNull with
            | true =>
              rw [endings, if_pos hw] at hb
              exact (filter_cons_of_neg (by rw [hw]; exact Bool.false_ne_true)).trans
                (ih' _ hb)
            | false =>
              rw [endings, if_neg (by rw [hw]; exact Bool.false_ne_true)] at hb
              exact absurd hb (cons_ne_nil _ _)
        exact hempty xs _ hrest

/-- Nulls at the end change no fold. -/
theorem fold_last (F : FloatOps) (op : ScanOp) {p : List LoraValue}
    (h : (endings [] xs).getLast? = some p) : op.fold F [.list xs] = op.fold F [.list p] := by
  obtain ⟨nulls, hxs, hnulls⟩ := endings_last h
  rw [nil_append] at hxs
  have hpresent : present xs = present p := by
    rw [hxs, present, filter_append]
    exact (congrArg (present p ++ ·) hnulls).trans (append_nil _)
  have hrun : ∀ k : Arithmetic, k.run [.list xs] = k.run [.list p] := by
    intro k
    rw [run_eq, run_eq, hpresent]
  have hbest : ∀ replaced, best replaced [.list xs] = best replaced [.list p] := fun replaced =>
    congrArg (fun ys => (pure ((List.foldl (better replaced) none ys).getD .null) :
      EvalM LoraValue)) hpresent
  cases op with
  | sum => exact hrun _
  | product => exact hrun _
  | min => exact hbest _
  | max => exact hbest _

/-- Where scans, folds and aggregates over rows **agree**, and what they come to elsewhere. -/
structure Agree (F : FloatOps) (r : Rendering) (xs : List LoraValue) : Prop where
  scanInts : (∀ v ∈ xs, IsInt v) → ∀ op, RunsThrough F op xs
  last : ∀ (op : ScanOp) p, (endings [] xs).getLast? = some p →
    op.fold F [.list xs] = op.fold F [.list p]
  scanFloats : ∀ f rest, present xs = .float f :: rest → (∀ v ∈ rest, v.isNumber = true) →
    ∀ op : ScanOp, scan F [.list xs, .string op.name] =
      pure (.list (((numbers rest).scanl (op.float F) f).map .float))
  sumFrom : ∀ is f rest, present xs = List.map LoraValue.int is ++ .float f :: rest →
    (∀ v ∈ rest, v.isNumber = true) → sum F [.list xs] =
      match checkedFold (· + ·) 0 is with
      | some out => pure (.float ((numbers rest).foldl F.add (F.add (.ofInt out) f)))
      | none => (.null, overflow "list.sum")
  productFrom : ∀ is f rest, present xs = List.map LoraValue.int is ++ .float f :: rest →
    (∀ v ∈ rest, v.isNumber = true) → product F [.list xs] =
      match checkedFold (· * ·) 1 is with
      | some out => pure (.float ((numbers rest).foldl F.mul (F.mul (.ofInt out) f)))
      | none => (.null, overflow "list.product")
  minFloats : ∀ f fs, present xs = List.map LoraValue.float (f :: fs) →
    (∀ a ∈ f :: fs, ∀ b ∈ f :: fs, F.min a b = if a.partialCmp b = some .gt then b else a) →
    min [.list xs] = pure (.float (fs.foldl F.min f))
  maxFloats : ∀ f fs, present xs = List.map LoraValue.float (f :: fs) →
    (∀ a ∈ f :: fs, ∀ b ∈ f :: fs, F.max a b = if a.partialCmp b = some .lt then b else a) →
    max [.list xs] = pure (.float (fs.foldl F.max f))
  sumRows : (∀ v ∈ xs, IsNumeric v) → AggState.stream F r .sum xs =
    match checkedFold (· + ·) 0 (ints xs) with
    | some out => .ok (if floats xs = [] then .int out
      else .float (F.add (.ofInt out) ((floats xs).foldl F.add (.ofInt 0))))
    | none => .error (.overflowed "sum")
  sumInts : (∀ v ∈ xs, IsInt v) →
    (∃ v, sum F [.list xs] = pure v ∧ AggState.stream F r .sum xs = .ok v) ∨
      (sum F [.list xs] = (.null, overflow "list.sum") ∧
        AggState.stream F r .sum xs = .error (.overflowed "sum"))
  minRows : OneOrder xs → ∃ v, min [.list xs] = pure v ∧ AggState.stream F r .min xs = .ok v
  maxRows : OneOrder xs → ∃ v, max [.list xs] = pure v ∧ AggState.stream F r .max xs = .ok v

theorem present_ints (hxs : ∀ v ∈ xs, IsInt v) :
    present xs = (ints xs).map .int ∧ floats xs = [] := by
  induction xs with
  | nil => exact ⟨rfl, rfl⟩
  | cons v xs ih =>
    obtain ⟨hints, hfloats⟩ := ih fun w hw => hxs w (mem_cons_of_mem v hw)
    cases v with
    | null => exact ⟨hints, hfloats⟩
    | int i => exact ⟨congrArg (LoraValue.int i :: ·) hints, hfloats⟩
    | _ =>
      rcases hxs _ mem_cons_self with h | ⟨i, h⟩
      · exact absurd h Bool.false_ne_true
      · exact absurd h (by simp)

/-- **Scans, folds and aggregates agree** on every list: over integers each scan is its fold of
the prefixes and `sum`, `min` and `max` are those of rows; a float among them makes the rest
floats from there on. -/
theorem folds_agree (F : FloatOps) (r : Rendering) (xs : List LoraValue) : Agree F r xs := by
  refine
    { scanInts := fun hxs op => scan_ints F op hxs
      last := fun op p h => fold_last F op h
      scanFloats := fun f rest hxs hrest op => scan_floats F op hxs hrest
      sumFrom := fun is f rest hxs hrest => run_mixed hxs hrest
      productFrom := fun is f rest hxs hrest => run_mixed hxs hrest
      minFloats := fun f fs hxs hpick => best_floats hxs hpick
      maxFloats := fun f fs hxs hpick => best_floats hxs hpick
      sumRows := fun hxs => stream_sum F r hxs
      sumInts := fun hxs => ?_
      minRows := fun hxs => ⟨_, rfl, ?_⟩
      maxRows := fun hxs => ⟨_, rfl, ?_⟩ }
  · obtain ⟨hpresent, hfloats⟩ := present_ints hxs
    have hnumeric : ∀ v ∈ xs, IsNumeric v := by
      intro v hv
      rcases hxs v hv with hnull | ⟨i, rfl⟩
      · exact Or.inl hnull
      · exact Or.inr rfl
    have hsum : sum F [.list xs] = match checkedFold (· + ·) 0 (ints xs) with
        | some out => pure (.int out)
        | none => (.null, overflow "list.sum") := run_only_ints hpresent
    rw [hsum, stream_sum F r hnumeric, hfloats]
    cases checkedFold (· + ·) 0 (ints xs) with
    | some out => exact Or.inl ⟨_, rfl, rfl⟩
    | none => exact Or.inr ⟨rfl, rfl⟩
  · rw [AggState.stream, AggState.seed, foldl_min,
      pick_best fun a ha b hb => (compare_agree r hxs ha hb).1]
    rfl
  · rw [AggState.stream, AggState.seed, foldl_max,
      pick_best fun a ha b hb => (compare_agree r hxs ha hb).2]
    rfl

/-- A sum of rows fails where the sum of the list went over to floats before. -/
theorem sum_apart : ∃ (F : FloatOps) (r : Rendering) (xs : List LoraValue),
    (∀ v ∈ xs, v.isNumber = true) ∧ (sum F [.list xs]).error = none ∧
      AggState.stream F r .sum xs = .error (.overflowed "sum") := by
  have hrest : ∀ v ∈ [LoraValue.int Int64.maxValue, .int 1], v.isNumber = true := by
    simp [LoraValue.isNumber]
  have hnumbers : ∀ v ∈ [LoraValue.float (.ofInt 1), .int Int64.maxValue, .int 1],
      v.isNumber = true := List.forall_mem_cons.mpr ⟨rfl, hrest⟩
  refine ⟨⟨fun f _ => f, fun f _ => f, fun f _ => f, fun f _ => f, fun f _ => f⟩,
    ⟨fun _ => "", fun _ => ""⟩, _, hnumbers, ?_, ?_⟩
  · exact congrArg EvalM.error (@run_mixed _ _ _ [] _ rfl hrest)
  · rw [stream_sum _ _ fun v hv => Or.inr (hnumbers v hv)]
    rfl

end ListNs

end LoraDb
