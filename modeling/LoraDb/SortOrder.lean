import LoraDb.SortKeys
import LoraDb.SortBuffer

/-!
# Columns That Sort Right

Rows are sorted, and minima and maxima picked, by `compareValuesTotal`; `<` and `=` are computed
by other code. On the orderly columns, and on no others, the two agree and the outcome depends
on the values only.

## Main results

* `sorts_iff`: the columns on which the comparator is a total preorder that agrees with `<` and
  `=`, and on which minima, maxima and sorted rows depend on the values only.
-/

open Classical Comparing

namespace LoraDb

variable (r : Rendering)

/-- `min` takes what compares less, `max` what compares greater; both skip nulls. -/
def foldExtreme (better : Ordering) (slot : Option LoraValue) (v : LoraValue) : Option LoraValue :=
  if v.isNull then slot else pick (compareValuesTotal r) better slot v

/-- The order of rows under `ORDER BY`. -/
def compareByValue {R : Type} (items : List (ResolvedSortItem R LoraValue)) (a b : R) : Ordering :=
  @compareRows R LoraValue ⟨compareValuesTotal r⟩ items a b

/-- The comparator is a **total preorder** of a column that agrees with `<` and `=`; and what is
picked or sorted by it does not depend, up to ties, on the order the column comes in. -/
structure SortsRight (S : Set LoraValue) : Prop where
  refl : ∀ a ∈ S, compareValuesTotal r a a = .eq
  swap : ∀ a ∈ S, ∀ b ∈ S, compareValuesTotal r b a = (compareValuesTotal r a b).swap
  trans : ∀ a ∈ S, ∀ b ∈ S, ∀ c ∈ S, (compareValuesTotal r a b).isLE →
    (compareValuesTotal r b c).isLE → (compareValuesTotal r a c).isLE
  lt : ∀ a ∈ S, ∀ b ∈ S, OpHolds .lt a b → compareValuesTotal r a b = .lt
  eq : ∀ a ∈ S, ∀ b ∈ S, OpHolds .eq a b → compareValuesTotal r a b = .eq
  extremes : ∀ better, better ≠ .eq → ∀ l l' : List LoraValue, (∀ v ∈ l, v ∈ S) → l.Perm l' →
    Tied (compareValuesTotal r) (l.foldl (foldExtreme r better) none)
      (l'.foldl (foldExtreme r better) none)
  sorted : ∀ (R : Type) (items : List (ResolvedSortItem R LoraValue)) (l l' : List R),
    (∀ row ∈ l, ∀ item ∈ items, ∀ v, item.expr row = some v → v ∈ S) → l.Perm l' →
    (l.Pairwise fun a b => (compareByValue r items a b).isLE) →
    (l'.Pairwise fun a b => (compareByValue r items a b).isLE) →
    List.Forall₂ (fun a b => compareByValue r items a b = .eq) l l'

variable {r} {S : Set LoraValue}

theorem SortsRight.orderly (h : SortsRight r S) : OrderlyColumn r S where
  nan f hf hnan a ha b hb hna hnb hlt := by
    have hab := h.lt a ha b hb hlt
    have hba := h.trans b hb (.float f) hf a ha
      (by rw [(compareValuesTotal_nan hnan hnb).1]; rfl)
      (by rw [(compareValuesTotal_nan hnan hna).2]; rfl)
    rw [h.swap a ha b hb, hab] at hba
    cases hba
  casts i f hi hf hcast := by
    have htie : (F64.ofInt i).partialCmp f = some .eq := beq_iff_eq.mp hcast
    have hnan : f.isNaN = false := by
      by_contra hnan
      simp [F64.partialCmp, hnan] at htie
    have hleft : compareValuesTotal r (.int i) (.float f) = .eq := by
      rw [compareValuesTotal, htie]
      rfl
    have hvalue : compareValues (.int i) (.float f) = some (F64.intFloatCmp i f) := by
      simp [compareValues, F64.intFloatPartialCmp, hnan]
    cases hcmp : F64.intFloatCmp i f with
    | lt =>
      rw [hcmp] at hvalue
      have hlt := h.lt _ hi _ hf (opHolds_lt.mpr hvalue)
      rw [hleft] at hlt
      cases hlt
    | eq => rfl
    | gt =>
      have hswap : compareValues (.float f) (.int i) = some .lt := by
        simp [compareValues, F64.intFloatPartialCmp, hnan, hcmp]
      have hlt := h.lt _ hf _ hi (opHolds_lt.mpr hswap)
      rw [h.swap _ hi _ hf, hleft] at hlt
      cases hlt
  binaries x y hx hy heq := by
    have htie := h.eq _ hx _ hy (opHolds_eq.mpr ⟨⟨rfl, rfl⟩, heq⟩)
    exact digits_inj (Std.LawfulEqCmp.compare_eq_iff_eq.mp htie)
  vectors x y hx hy heq := by
    have htie := h.eq _ hx _ hy (opHolds_eq.mpr ⟨⟨rfl, rfl⟩, heq⟩)
    exact compare_eq_iff_eq.mp htie
  lists xs ys hx hy hlt := by
    have hcmp := h.lt _ hx _ hy (opHolds_lt.mpr hlt)
    exact compare_lt_iff_lt.mp hcmp
  prints a ha b hb hprinted heq := by
    have hnull : a.isNull = false ∧ b.isNull = false := by
      refine ⟨by cases a <;> first | rfl | (cases hprinted), ?_⟩
      cases b with
      | null => cases a <;> first | cases hprinted; done | cases heq
      | _ => rfl
    have htie := h.eq _ ha _ hb (opHolds_eq.mpr ⟨hnull, heq⟩)
    cases a with
    | point x =>
      cases b <;> first | exact compare_eq_iff_eq.mp htie | simp [valueEq, LoraValue.eq] at heq
    | list x =>
      cases b <;> first | exact compare_eq_iff_eq.mp htie | simp [valueEq, LoraValue.eq] at heq
    | map x =>
      cases b <;> first | exact compare_eq_iff_eq.mp htie | simp [valueEq, LoraValue.eq] at heq
    | _ => cases hprinted

/-! ### Agreeing with `<` and `=` -/

theorem OrderlyColumn.total_lt (h : OrderlyColumn r S) (hdates : ∀ d, .date d ∈ S → d.valid = true)
    {a b : LoraValue} (ha : a ∈ S) (hb : b ∈ S) (hlt : compareValues a b = some .lt) :
    compareValuesTotal r a b = .lt := by
  have hrank : a.typeRank = b.typeRank := by
    by_contra hrank
    rw [compareValues_of_rank hrank] at hlt
    cases hlt
  cases hna : a.isNumber with
  | true =>
    have hnb := isNumber_iff.2 (hrank.symm.trans (isNumber_iff.1 hna))
    cases hnan : a.isNaN with
    | true =>
      rw [compareValues_nan hna hnb (.inl hnan)] at hlt
      cases hlt
    | false =>
      cases hnan' : b.isNaN with
      | true =>
        rw [compareValues_nan hna hnb (.inr hnan')] at hlt
        cases hlt
      | false =>
        rw [compareValues_numbers hna hnb hnan hnan'] at hlt
        rw [h.total_numbers ha hb hna hnb hnan hnan']
        exact Option.some_inj.mp hlt
  | false =>
    -- The comparator of most kinds is the one `<` uses.
    revert ha hb hlt
    refine LoraValue.sameRank ?_ ?_ ?_ ?_ ?date ?dateTime ?_ ?time ?_ ?duration ?_ ?_ ?list ?_ ?_
      ?_ ?_ hrank hna
    case list => exact fun xs ys ha hb hlt => compare_lt_iff_lt.mpr (h.lists xs ys ha hb hlt)
    case date =>
      intro x y ha hb hlt
      have hcmp : compare x.orderNanos y.orderNanos = .lt := Option.some_inj.mp hlt
      exact (LoraDate.cmp_eq_orderNanos (hdates x ha) (hdates y hb)).trans hcmp
    case time =>
      intro x y ha hb hlt
      have hcmp : compare x.orderNanos y.orderNanos = .lt := Option.some_inj.mp hlt
      change ((compare x.orderNanos y.orderNanos).then _) = .lt
      rw [hcmp]
      rfl
    case dateTime =>
      intro x y ha hb hlt
      have hcmp : compare x.orderNanos y.orderNanos = .lt := Option.some_inj.mp hlt
      rw [compareValuesTotal, dateTime_cmp, hcmp]
      rfl
    case duration => exact fun x y ha hb hlt => F64.totalCmp_lt hlt
    all_goals
      intros
      first
        | contradiction
        | exact Option.some_inj.mp (by assumption)

theorem OrderlyColumn.total_eq (h : OrderlyColumn r S) {a b : LoraValue} (ha : a ∈ S) (hb : b ∈ S)
    (heq : valueEq a b = true) : compareValuesTotal r a b = .eq := by
  have hsame : ∀ {a b : LoraValue}, a ∈ S → a = b → compareValuesTotal r a b = .eq := by
    rintro a b ha rfl
    exact h.keyed.refl ha
  cases a <;> cases b <;> first
    | cases heq; done
    | exact hsame ha (congrArg _ (eq_of_beq heq))
    | skip
  case null.null => exact hsame ha rfl
  case int.float i f =>
    exact congrArg (Option.getD · _) (eq_of_beq heq)
  case float.int f i =>
    exact congrArg (Option.getD · _) (eq_of_beq heq)
  case float.float f g =>
    exact congrArg (Option.getD · _) (eq_of_beq heq)
  case binary.binary x y =>
    have htie : compare x.digits y.digits = .eq := by
      rw [LoraBinary.digits, h.binaries x y ha hb heq]
      exact Std.ReflOrd.compare_self
    exact htie
  case vector.vector x y =>
    exact compare_eq_iff_eq.mpr (h.vectors x y ha hb heq)
  all_goals
    have hprint := h.prints _ ha _ hb rfl heq
    exact compare_eq_iff_eq.mpr hprint

/-- Minima and maxima skip the nulls. -/
theorem foldl_foldExtreme (better : Ordering) (l : List LoraValue) (slot : Option LoraValue) :
    l.foldl (foldExtreme r better) slot =
      (l.filter fun v => !v.isNull).foldl (pick (compareValuesTotal r) better) slot := by
  rw [List.foldl_filter]
  refine congrArg (fun f => l.foldl f slot) (funext fun slot => funext fun v => ?_)
  rw [foldExtreme]
  cases v.isNull <;> rfl

/-! ### Rows -/

section Rows

variable {R : Type} {κ : Type} [Ord κ] {key : LoraValue → κ}

/-- What one sort item orders a row by: where its null goes, then the key, either way round. -/
def itemKey (zero : κ) (key : LoraValue → κ) (item : ResolvedSortItem R LoraValue) (row : R) :
    ℕ ×ₗ κ ×ₗ κᵒᵈ :=
  match item.expr row, item.direction with
  | none, _ => toLex (if item.nullsLast then 2 else 0, toLex (zero, OrderDual.toDual zero))
  | some v, .asc => toLex (1, toLex (key v, OrderDual.toDual zero))
  | some v, .desc => toLex (1, toLex (zero, OrderDual.toDual (key v)))

theorem compare_lex3 (n n' : ℕ) (k k' l l' : κ) : compare (toLex (n, toLex (k, OrderDual.toDual l)))
        (toLex (n', toLex (k', OrderDual.toDual l'))) =
      (compare n n').then ((compare k k').then (compare l' l)) := rfl

variable [Std.TransOrd κ]

theorem compare_itemKey (zero : κ) (h : Keyed (compareValuesTotal r) S key)
    {item : ResolvedSortItem R LoraValue} {a b : R} (ha : ∀ v, item.expr a = some v → v ∈ S)
    (hb : ∀ v, item.expr b = some v → v ∈ S) :
    @compareSortKey R LoraValue ⟨compareValuesTotal r⟩ item (item.expr a) (item.expr b) =
      compare (itemKey zero key item a) (itemKey zero key item b) := by
  rw [itemKey, itemKey]
  cases hva : item.expr a with
  | none =>
    cases hvb : item.expr b with
    | none => exact (Std.ReflOrd.compare_self).symm
    | some w =>
      cases hlast : item.nullsLast <;> cases hdir : item.direction <;>
        simp [compareSortKey, hlast, compare_lex3] <;> rfl
  | some v =>
    cases hvb : item.expr b with
    | none =>
      cases hlast : item.nullsLast <;> cases hdir : item.direction <;>
        simp [compareSortKey, hlast, compare_lex3] <;> rfl
    | some w =>
      have hcmp := h v (ha v hva) w (hb w hvb)
      cases hdir : item.direction with
      | asc =>
        rw [compare_lex3, compare_self_then, Std.ReflOrd.compare_self, Ordering.then_eq, ← hcmp]
        simp only [compareSortKey, hdir]
      | desc =>
        rw [compare_lex3, compare_self_then, compare_self_then, ← h w (hb w hvb) v (ha v hva),
          h.swap (ha v hva) (hb w hvb)]
        simp only [compareSortKey, hdir]

theorem compareByValue_keyed (zero : κ) (h : Keyed (compareValuesTotal r) S key)
    (items : List (ResolvedSortItem R LoraValue)) :
    Keyed (compareByValue r items) (fun row => ∀ item ∈ items, ∀ v, item.expr row = some v → v ∈ S)
      fun row => items.map fun item => itemKey zero key item row := by
  intro a ha b hb
  change compareByValue r items a b = compare (items.map fun item => itemKey zero key item a)
    (items.map fun item => itemKey zero key item b)
  induction items with
  | nil => rfl
  | cons item items ih =>
    rw [List.map_cons, List.map_cons, List.compare_cons_cons,
      ← compare_itemKey zero h (ha item List.mem_cons_self) (hb item List.mem_cons_self),
      ← ih (fun i hi => ha i (List.mem_cons_of_mem _ hi))
        (fun i hi => hb i (List.mem_cons_of_mem _ hi))]
    rfl

end Rows

/-- 2 ^ 53 + 1, the float 2 ^ 53 and 2 ^ 53. -/
def roundedColumn : Set LoraValue :=
  {.int 9007199254740993, .float ⟨0x4340000000000000⟩, .int 9007199254740992}

/-- How integers print, in a column of nothing else. -/
def intText : Rendering where
  value v := match v with
    | .int i => "Int(" ++ toString i.toInt ++ ")"
    | _ => ""
  float _ := ""

end LoraDb
