import LoraDb.Calendar
import LoraDb.SortKeys

/-!
# Coherent Comparisons

Whether `=`, `<` and their like agree with each other, on values nested from a set of scalars:
numbers, strings, booleans and temporals. A value that compares neither less nor greater need not
be equal: two datetimes of one instant differ in their offset, two durations may be about as
long, and an integer equals the float it rounds to. Such pairs are twins.

## Main results

* `compareValues_scalar`: scalars compare by kind and key.
* `compareValues_swap`, `compareValues_chain`: the order is one.
* `comparisons_coherent`: the comparisons cohere when there are no twins.
-/

open List

namespace LoraDb

/-- `IN`: true when an element equals `lhs`; null where the answer is unknown. -/
def evalIn (lhs rhs : LoraValue) : LoraValue :=
  match rhs with
  | .list [] => .bool false
  | .list values =>
    if lhs.isNull then .null
    else if values.any (valueEq lhs) then .bool true
    else if values.any LoraValue.isNull then .null
    else .bool false
  | .null => .null
  | _ => if lhs.isNull then .null else .bool false

/-! ### Scalars -/

/-- Hours, minutes, seconds and nanoseconds of a day. -/
def validClock (hour minute second nanosecond : UInt32) : Bool :=
  decide (hour.toNat < 24 ∧ minute.toNat < 60 ∧ second.toNat < 60 ∧ nanosecond.toNat < 1000000000)

namespace LoraValue

/-- Numbers, strings, booleans and temporals, with their fields in range. -/
def isScalar : LoraValue → Bool
  | .int _ | .string _ | .bool _ | .duration _ => true
  | .float f => !f.isNaN
  | .date d => d.valid
  | .time t => validClock t.hour t.minute t.second t.nanosecond
  | .localTime t => validClock t.hour t.minute t.second t.nanosecond
  | .dateTime d => LoraDate.valid ⟨d.year, d.month, d.day⟩ &&
    validClock d.hour d.minute d.second d.nanosecond
  | .localDateTime d => LoraDate.valid ⟨d.year, d.month, d.day⟩ &&
    validClock d.hour d.minute d.second d.nanosecond
  | _ => false

/-- Scalars of one kind are ordered against each other. -/
def kind : LoraValue → Option ℕ
  | .int _ | .float _ => some 0
  | .string _ => some 1
  | .bool _ => some 2
  | .duration d => if d.totalSecondsApprox.isNaN then none else some 3
  | .date _ => some 4
  | .time _ => some 5
  | .localTime _ => some 6
  | .dateTime _ => some 7
  | .localDateTime _ => some 8
  | _ => none

/-- What scalars of one kind are ordered by. -/
def key : LoraValue → ℤ ×ₗ String
  | .string s => toLex (0, s)
  | .bool b => toLex (if b then 1 else 0, "")
  | .duration d => toLex (d.totalSecondsApprox.scaled, "")
  | .date d => toLex (d.orderNanos, "")
  | .time t => toLex (t.orderNanos, "")
  | .localTime t => toLex (t.orderNanos, "")
  | .dateTime d => toLex (d.orderNanos, "")
  | .localDateTime d => toLex (d.orderNanos, "")
  | v => toLex (v.exact, "")

end LoraValue

open LoraValue

variable {a b c : LoraValue}

theorem compare_key (x y : ℤ) (s t : String) :
    compare (toLex (x, s) : ℤ ×ₗ String) (toLex (y, t)) = (compare x y).then (compare s t) := rfl

theorem compare_key_int (x y : ℤ) :
    compare (toLex (x, "") : ℤ ×ₗ String) (toLex (y, "")) = compare x y := by
  rw [compare_key, show compare "" "" = Ordering.eq from rfl]
  cases compare x y <;> rfl

theorem compare_bool (x y : Bool) :
    compare x y = compare (if x then (1 : ℤ) else 0) (if y then 1 else 0) := by
  cases x <;> cases y <;> rfl

theorem kind_duration {x : LoraDuration} (hsome : (LoraValue.duration x).kind ≠ none) :
    (LoraValue.duration x).kind = some 3 := by
  rw [kind] at hsome ⊢
  split at hsome
  · exact absurd rfl hsome
  next h => rw [if_neg h]

/-- Scalars compare by kind and key. -/
theorem compareValues_scalar (ha : a.isScalar = true) (hb : b.isScalar = true) : compareValues a b =
      if a.kind = b.kind ∧ a.kind ≠ none then some (compare a.key b.key) else none := by
  have hnumbers : a.isNumber = true → b.isNumber = true →
      compareValues a b = some (compare a.exact b.exact) := by
    intro hna hnb
    refine compareValues_numbers hna hnb ?_ ?_
    · cases a <;> simp_all [LoraValue.isNaN, isScalar]
    · cases b <;> simp_all [LoraValue.isNaN, isScalar]
  cases a with
  | int x =>
    cases b with
    | int y => simpa [kind, key, compare_key_int] using hnumbers rfl rfl
    | float y => simpa [kind, key, compare_key_int] using hnumbers rfl rfl
    | _ => first | exact absurd hb Bool.false_ne_true | simp [kind, compareValues, temporalCmp]
  | float x =>
    cases b with
    | int y => simpa [kind, key, compare_key_int] using hnumbers rfl rfl
    | float y => simpa [kind, key, compare_key_int] using hnumbers rfl rfl
    | _ => first | exact absurd hb Bool.false_ne_true | simp [kind, compareValues, temporalCmp]
  | string x =>
    cases b with
    | string y => simp [kind, key, compareValues, compare_key]
    | _ => first | exact absurd hb Bool.false_ne_true | simp [kind, compareValues, temporalCmp]
  | bool x =>
    cases b with
    | bool y => simp [kind, key, compareValues, compare_key_int, compare_bool]
    | _ => first | exact absurd hb Bool.false_ne_true | simp [kind, compareValues, temporalCmp]
  | duration x =>
    cases b with
    | duration y =>
      simp only [kind, key, compareValues, compare_key_int, F64.partialCmp]
      cases x.totalSecondsApprox.isNaN <;> cases y.totalSecondsApprox.isNaN <;> simp
    | _ =>
      first
        | exact absurd hb Bool.false_ne_true
        | rw [if_neg (fun h => absurd ((kind_duration h.2).symm.trans h.1) (by simp [kind]))]
          rfl
  | date x =>
    cases b with
    | date y => simp [kind, key, compareValues, temporalCmp, compare_key_int]
    | _ => first | exact absurd hb Bool.false_ne_true | simp [kind, compareValues, temporalCmp]
  | time x =>
    cases b with
    | time y => simp [kind, key, compareValues, temporalCmp, compare_key_int]
    | _ => first | exact absurd hb Bool.false_ne_true | simp [kind, compareValues, temporalCmp]
  | localTime x =>
    cases b with
    | localTime y => simp [kind, key, compareValues, temporalCmp, compare_key_int]
    | _ => first | exact absurd hb Bool.false_ne_true | simp [kind, compareValues, temporalCmp]
  | dateTime x =>
    cases b with
    | dateTime y => simp [kind, key, compareValues, temporalCmp, compare_key_int]
    | _ => first | exact absurd hb Bool.false_ne_true | simp [kind, compareValues, temporalCmp]
  | localDateTime x =>
    cases b with
    | localDateTime y => simp [kind, key, compareValues, temporalCmp, compare_key_int]
    | _ => first | exact absurd hb Bool.false_ne_true | simp [kind, compareValues, temporalCmp]
  | _ => exact absurd ha Bool.false_ne_true

/-! ### Nested values -/

/-- Values **nested** in lists, from those of a set. -/
inductive Nested (S : Set LoraValue) : LoraValue → Prop where
  | scalar {v : LoraValue} (h : v ∈ S) : Nested S v
  | list {xs : List LoraValue} (h : ∀ x ∈ xs, Nested S x) : Nested S (.list xs)

/-- A set of **scalars**. -/
def Scalars (S : Set LoraValue) : Prop := ∀ v ∈ S, v.isScalar = true

variable {S : Set LoraValue}

theorem compare_scalar_list (ha : a.isScalar = true) (xs : List LoraValue) :
    compareValues a (.list xs) = none ∧ compareValues (.list xs) a = none := by
  cases a <;> first | exact absurd ha Bool.false_ne_true | exact ⟨rfl, rfl⟩

@[simp] theorem compareLists_nil_nil : compareLists [] [] = some .eq := rfl

@[simp] theorem compareLists_nil_cons {y : LoraValue} {ys : List LoraValue} :
    compareLists [] (y :: ys) = some .lt :=
  congrArg some (by simp [compare, compareOfLessAndEq])

@[simp] theorem compareLists_cons_nil {x : LoraValue} {xs : List LoraValue} :
    compareLists (x :: xs) [] = some .gt :=
  congrArg some (by simp [compare, compareOfLessAndEq])

theorem compareLists_swap {xs ys : List LoraValue}
    (h : ∀ x ∈ xs, ∀ y ∈ ys, compareValues y x = (compareValues x y).map Ordering.swap) :
    compareLists ys xs = (compareLists xs ys).map Ordering.swap := by
  induction xs generalizing ys with
  | nil =>
    cases ys with
    | nil => rfl
    | cons y ys => simp
  | cons x xs ih =>
    cases ys with
    | nil => simp
    | cons y ys =>
      have htail := ih fun x' hx' y' hy' =>
        h x' (mem_cons_of_mem _ hx') y' (mem_cons_of_mem _ hy')
      rw [compareLists, compareLists, h x mem_cons_self y mem_cons_self]
      cases compareValues x y with
      | none => rfl
      | some o => cases o <;> first | rfl | exact htail

/-- Turning a comparison around swaps its outcome. -/
theorem compareValues_swap (hS : Scalars S) (ha : Nested S a) (hb : Nested S b) :
    compareValues b a = (compareValues a b).map Ordering.swap := by
  induction ha generalizing b with
  | @scalar v ha =>
    cases hb with
    | scalar hb =>
      rw [compareValues_scalar (hS _ ha) (hS _ hb), compareValues_scalar (hS _ hb) (hS _ ha)]
      by_cases hkind : v.kind = b.kind ∧ v.kind ≠ none
      · have hback : b.kind = v.kind ∧ b.kind ≠ none := ⟨hkind.1.symm, hkind.1 ▸ hkind.2⟩
        rw [if_pos hkind, if_pos hback]
        exact congrArg some Std.OrientedOrd.eq_swap
      · have hback : ¬ (b.kind = v.kind ∧ b.kind ≠ none) := fun h =>
          hkind ⟨h.1.symm, h.1 ▸ h.2⟩
        rw [if_neg hkind, if_neg hback]
        rfl
    | list hb =>
      rw [(compare_scalar_list (hS _ ha) _).1, (compare_scalar_list (hS _ ha) _).2]
      rfl
  | list ha ih =>
    cases hb with
    | scalar hb =>
      rw [(compare_scalar_list (hS _ hb) _).1, (compare_scalar_list (hS _ hb) _).2]
      rfl
    | list hb => exact compareLists_swap fun x hx y hy => ih x hx (hb y hy)

/-- Outcomes that do not contradict each other chain. -/
theorem compare_chain {α : Type} [LinearOrder α] {x y z : α} {o o' : Ordering}
    (h : compare x y = o) (h' : compare y z = o') (hsame : o = .eq ∨ o' = .eq ∨ o = o') :
    compare x z = o.then o' := by
  cases o with
  | eq =>
    obtain rfl := compare_eq_iff_eq.mp h
    exact h'
  | lt =>
    cases o' with
    | eq =>
      obtain rfl := compare_eq_iff_eq.mp h'
      exact h
    | lt =>
      exact compare_lt_iff_lt.mpr ((compare_lt_iff_lt.mp h).trans (compare_lt_iff_lt.mp h'))
    | gt => simp at hsame
  | gt =>
    cases o' with
    | eq =>
      obtain rfl := compare_eq_iff_eq.mp h'
      exact h
    | lt => simp at hsame
    | gt =>
      exact compare_gt_iff_gt.mpr ((compare_gt_iff_gt.mp h').trans (compare_gt_iff_gt.mp h))

/-- Comparing `a` with `b` and `b` with `c` tells how `a` compares with `c`. -/
def Chains (a b c : LoraValue) : Prop :=
  ∀ o o', compareValues a b = some o → compareValues b c = some o' →
    o = .eq ∨ o' = .eq ∨ o = o' → compareValues a c = some (o.then o')

theorem compareLists_chain {xs ys zs : List LoraValue}
    (h : ∀ x ∈ xs, ∀ y ∈ ys, ∀ z ∈ zs, Chains x y z) {o o' : Ordering}
    (hxy : compareLists xs ys = some o) (hyz : compareLists ys zs = some o')
    (hsame : o = .eq ∨ o' = .eq ∨ o = o') : compareLists xs zs = some (o.then o') := by
  induction xs generalizing ys zs with
  | nil =>
    cases ys with
    | nil =>
      obtain rfl := Option.some.inj hxy
      exact hyz
    | cons y ys =>
      rw [compareLists_nil_cons] at hxy
      obtain rfl := Option.some.inj hxy
      cases zs with
      | nil =>
        rw [compareLists_cons_nil] at hyz
        obtain rfl := Option.some.inj hyz
        simp at hsame
      | cons z zs => exact compareLists_nil_cons
  | cons x xs ih =>
    cases ys with
    | nil =>
      rw [compareLists_cons_nil] at hxy
      obtain rfl := Option.some.inj hxy
      cases zs with
      | nil => exact compareLists_cons_nil
      | cons z zs =>
        rw [compareLists_nil_cons] at hyz
        obtain rfl := Option.some.inj hyz
        simp at hsame
    | cons y ys =>
      cases zs with
      | nil =>
        rw [compareLists_cons_nil] at hyz ⊢
        obtain rfl := Option.some.inj hyz
        cases o <;> first | rfl | simp at hsame
      | cons z zs =>
        have hhead := h x mem_cons_self y mem_cons_self z mem_cons_self
        have htail := fun x' hx' y' hy' z' hz' =>
          h x' (mem_cons_of_mem x hx') y' (mem_cons_of_mem y hy') z' (mem_cons_of_mem z hz')
        rw [compareLists] at hxy hyz ⊢
        cases hp : compareValues x y with
        | none =>
          rw [hp] at hxy
          cases hxy
        | some p =>
          cases hq : compareValues y z with
          | none =>
            rw [hq] at hyz
            cases hyz
          | some q =>
            rw [hp] at hxy
            rw [hq] at hyz
            have hchain := hhead p q hp hq
            -- the heads decide, unless both are level
            cases p with
            | eq =>
              cases q with
              | eq =>
                rw [hchain (Or.inl rfl)]
                exact ih htail hxy hyz
              | lt =>
                rw [hchain (Or.inl rfl)]
                obtain rfl := Option.some.inj hyz
                cases o <;> first | rfl | simp at hsame
              | gt =>
                rw [hchain (Or.inl rfl)]
                obtain rfl := Option.some.inj hyz
                cases o <;> first | rfl | simp at hsame
            | lt =>
              obtain rfl := Option.some.inj hxy
              cases q with
              | eq =>
                rw [hchain (Or.inr (Or.inl rfl))]
                rfl
              | lt =>
                rw [hchain (Or.inr (Or.inr rfl))]
                rfl
              | gt =>
                obtain rfl := Option.some.inj hyz
                simp at hsame
            | gt =>
              obtain rfl := Option.some.inj hxy
              cases q with
              | eq =>
                rw [hchain (Or.inr (Or.inl rfl))]
                rfl
              | gt =>
                rw [hchain (Or.inr (Or.inr rfl))]
                rfl
              | lt =>
                obtain rfl := Option.some.inj hyz
                simp at hsame

theorem compareValues_chain (hS : Scalars S) (ha : Nested S a) (hb : Nested S b)
    (hc : Nested S c) : Chains a b c := by
  induction ha generalizing b c with
  | @scalar v ha =>
    intro o o' hab hbc hsame
    cases hb with
    | list hb =>
      rw [(compare_scalar_list (hS _ ha) _).1] at hab
      cases hab
    | scalar hb =>
      cases hc with
      | list hc =>
        rw [(compare_scalar_list (hS _ hb) _).1] at hbc
        cases hbc
      | scalar hc =>
        rw [compareValues_scalar (hS _ ha) (hS _ hb)] at hab
        rw [compareValues_scalar (hS _ hb) (hS _ hc)] at hbc
        split at hab
        next hkind =>
          split at hbc
          next hkind' =>
            rw [compareValues_scalar (hS _ ha) (hS _ hc), if_pos ⟨hkind.1.trans hkind'.1, hkind.2⟩]
            exact congrArg some (compare_chain (Option.some.inj hab) (Option.some.inj hbc) hsame)
          next => cases hbc
        next => cases hab
  | list ha ih =>
    intro o o' hab hbc hsame
    cases hb with
    | scalar hb =>
      rw [(compare_scalar_list (hS _ hb) _).2] at hab
      cases hab
    | list hb =>
      cases hc with
      | scalar hc =>
        rw [(compare_scalar_list (hS _ hc) _).2] at hbc
        cases hbc
      | list hc =>
        exact compareLists_chain (fun x hx y hy z hz => ih x hx (hb y hy) (hc z hz)) hab hbc
          hsame

/-! ### Equality -/

theorem eqList_iff {xs ys : List LoraValue} :
    eqList xs ys = true ↔ Forall₂ (fun x y => x.eq y = true) xs ys := by
  induction xs generalizing ys with
  | nil => cases ys <;> simp [eqList]
  | cons x xs ih =>
    cases ys with
    | nil => simp [eqList]
    | cons y ys => simp [eqList, ih]

theorem eq_scalar_list (ha : a.isScalar = true) (xs : List LoraValue) :
    a.eq (.list xs) = false ∧ LoraValue.eq (.list xs) a = false := by
  cases a <;> first | exact absurd ha Bool.false_ne_true | exact ⟨rfl, rfl⟩

theorem float_eq_iff {f g : F64} (hf : f.isNaN = false) (hg : g.isNaN = false) :
    f.eq g = true ↔ f.scaled = g.scaled := by
  simp [F64.eq, F64.partialCmp, hf, hg]

/-- Scalars are equal when they are the same, floats when they have one value. -/
theorem eq_scalar (ha : a.isScalar = true) (hb : b.isScalar = true) :
    a.eq b = true ↔ a = b ∨ ∃ f g, a = .float f ∧ b = .float g ∧ f.scaled = g.scaled := by
  cases a with
  | float f =>
    cases b with
    | float g =>
      have hf : f.isNaN = false := by simpa [isScalar] using ha
      have hg : g.isNaN = false := by simpa [isScalar] using hb
      rw [LoraValue.eq, float_eq_iff hf hg]
      constructor
      · exact fun h => Or.inr ⟨f, g, rfl, rfl, h⟩
      · rintro (h | ⟨f', g', hf', hg', h⟩)
        · cases h
          rfl
        · cases hf'
          cases hg'
          exact h
    | _ => first | exact absurd hb Bool.false_ne_true | simp [LoraValue.eq]
  | _ =>
    first
      | exact absurd ha Bool.false_ne_true
      | cases b <;> first | exact absurd hb Bool.false_ne_true | simp [LoraValue.eq]

theorem eq_refl_nested (hS : Scalars S) (ha : Nested S a) : a.eq a = true := by
  induction ha with
  | scalar ha => exact (eq_scalar (hS _ ha) (hS _ ha)).mpr (Or.inl rfl)
  | list ha ih => exact eqList_iff.2 (forall₂_same.mpr ih)

theorem eq_symm_nested (hS : Scalars S) (ha : Nested S a) (hb : Nested S b) (h : a.eq b = true) :
    b.eq a = true := by
  induction ha generalizing b with
  | scalar ha =>
    cases hb with
    | scalar hb =>
      rcases (eq_scalar (hS _ ha) (hS _ hb)).mp h with rfl | ⟨f, g, rfl, rfl, hfg⟩
      · exact h
      · exact (eq_scalar (hS _ hb) (hS _ ha)).mpr (Or.inr ⟨g, f, rfl, rfl, hfg.symm⟩)
    | list hb =>
      rw [(eq_scalar_list (hS _ ha) _).1] at h
      cases h
  | @list xs ha ih =>
    cases hb with
    | scalar hb =>
      rw [(eq_scalar_list (hS _ hb) _).2] at h
      cases h
    | @list ys hb =>
      have hpairs : Forall₂ (fun x y => x.eq y = true) xs ys := eqList_iff.1 h
      refine eqList_iff.2 ?_
      clear h
      induction hpairs with
      | nil => exact .nil
      | @cons x y xs ys hxy htail ihtail =>
        refine .cons (ih x mem_cons_self (hb y mem_cons_self) hxy) (ihtail ?_ ?_ ?_)
        · exact fun z hz => ha z (mem_cons_of_mem _ hz)
        · exact fun z hz => ih z (mem_cons_of_mem _ hz)
        · exact fun z hz => hb z (mem_cons_of_mem _ hz)

theorem eq_trans_nested (hS : Scalars S) (ha : Nested S a) (hb : Nested S b) (hc : Nested S c)
    (h : a.eq b = true) (h' : b.eq c = true) : a.eq c = true := by
  induction ha generalizing b c with
  | scalar ha =>
    cases hb with
    | scalar hb =>
      cases hc with
      | scalar hc =>
        rcases (eq_scalar (hS _ ha) (hS _ hb)).mp h with rfl | ⟨f, g, rfl, rfl, hfg⟩
        · exact h'
        · rcases (eq_scalar (hS _ hb) (hS _ hc)).mp h' with rfl | ⟨g', k, hg, rfl, hgk⟩
          · exact h
          · cases hg
            exact (eq_scalar (hS _ ha) (hS _ hc)).mpr
              (Or.inr ⟨f, k, rfl, rfl, hfg.trans hgk⟩)
      | list hc =>
        rw [(eq_scalar_list (hS _ hb) _).1] at h'
        cases h'
    | list hb =>
      rw [(eq_scalar_list (hS _ ha) _).1] at h
      cases h
  | @list xs ha ih =>
    cases hb with
    | scalar hb =>
      rw [(eq_scalar_list (hS _ hb) _).2] at h
      cases h
    | @list ys hb =>
      cases hc with
      | scalar hc =>
        rw [(eq_scalar_list (hS _ hc) _).2] at h'
        cases h'
      | @list zs hc =>
        have hpairs : Forall₂ (fun x y => x.eq y = true) xs ys := eqList_iff.1 h
        have hpairs' : Forall₂ (fun x y => x.eq y = true) ys zs := eqList_iff.1 h'
        refine eqList_iff.2 ?_
        clear h h'
        induction hpairs generalizing zs with
        | nil => exact hpairs'
        | @cons x y xs ys hxy htail ihtail =>
          cases hpairs' with
          | @cons _ z _ zs hyz htail' =>
            refine .cons (ih x mem_cons_self (hb y mem_cons_self) (hc z mem_cons_self)
              hxy hyz) (ihtail ?_ ?_ ?_ ?_ htail')
            · exact fun z hz => ha z (mem_cons_of_mem _ hz)
            · exact fun z hz => ih z (mem_cons_of_mem _ hz)
            · exact fun z hz => hb z (mem_cons_of_mem _ hz)
            · exact fun z hz => hc z (mem_cons_of_mem _ hz)

/-! ### Twins -/

/-- Temporals that compare level are the same. -/
structure NoTwins (S : Set LoraValue) : Prop where
  times : ∀ x y, .time x ∈ S → .time y ∈ S → x.orderNanos = y.orderNanos → x = y
  dateTimes : ∀ x y, .dateTime x ∈ S → .dateTime y ∈ S → x.orderNanos = y.orderNanos → x = y
  durations : ∀ x y, .duration x ∈ S → .duration y ∈ S →
    x.totalSecondsApprox.eq y.totalSecondsApprox = true → x = y

/-- An integer that rounds to a float is the float. -/
def RoundsToItself (S : Set LoraValue) : Prop :=
  ∀ i f, .int i ∈ S → .float f ∈ S → (F64.ofInt i).eq f = true → i.toInt * ONE = f.scaled

/-- No integer rounds to a float. -/
def NoCasts (S : Set LoraValue) : Prop :=
  ∀ i f, .int i ∈ S → .float f ∈ S → (F64.ofInt i).eq f = false

/-- The same value, or one number as an integer and as a float. -/
def SameValue (a b : LoraValue) : Prop :=
  a = b ∨ a.isNumber = true ∧ b.isNumber = true ∧ a.exact = b.exact

theorem clock_inj {h m s n h' m' s' n' : UInt32} (hv : validClock h m s n = true)
    (hv' : validClock h' m' s' n' = true) {d d' : ℤ}
    (heq : (d * 86400 + daySeconds h m s) * NANOS + n.toNat =
      (d' * 86400 + daySeconds h' m' s') * NANOS + n'.toNat) :
    d = d' ∧ h = h' ∧ m = m' ∧ s = s' ∧ n = n' := by
  obtain ⟨hh, hm, hs, hn⟩ := of_decide_eq_true hv
  obtain ⟨hh', hm', hs', hn'⟩ := of_decide_eq_true hv'
  simp only [daySeconds, NANOS] at heq
  refine ⟨by omega, ?_, ?_, ?_, ?_⟩ <;> refine UInt32.toNat_inj.mp ?_ <;> omega

theorem date_inj {x y : LoraDate} (hx : x.valid = true) (hy : y.valid = true)
    (h : x.toEpochDays = y.toEpochDays) : x = y := by
  rw [← LoraDate.fromEpochDays_toEpochDays hx, h, LoraDate.fromEpochDays_toEpochDays hy]

/-- Without twins, scalars that compare level are the same. -/
theorem same_of_key (hS : Scalars S) (hno : NoTwins S) (ha : a ∈ S) (hb : b ∈ S)
    (hkind : a.kind = b.kind) (hsome : a.kind ≠ none) (hkey : a.key = b.key) : SameValue a b := by
  have hva := hS a ha
  have hvb := hS b hb
  have hexact : ∀ {x y : ℤ} {s t : String}, (toLex (x, s) : ℤ ×ₗ String) = toLex (y, t) →
      x = y ∧ s = t := fun h => Prod.mk.inj (toLex_inj.mp h)
  cases a with
  | int i =>
    cases b with
    | int j => exact Or.inr ⟨rfl, rfl, (hexact hkey).1⟩
    | float f => exact Or.inr ⟨rfl, rfl, (hexact hkey).1⟩
    | _ => first | exact absurd hvb Bool.false_ne_true | exact absurd hkind (by simp [kind])
  | float f =>
    cases b with
    | int i => exact Or.inr ⟨rfl, rfl, (hexact hkey).1⟩
    | float g => exact Or.inr ⟨rfl, rfl, (hexact hkey).1⟩
    | _ => first | exact absurd hvb Bool.false_ne_true | exact absurd hkind (by simp [kind])
  | string s =>
    cases b with
    | string t => exact Or.inl (congrArg LoraValue.string (hexact hkey).2)
    | _ => first | exact absurd hvb Bool.false_ne_true | exact absurd hkind (by simp [kind])
  | bool x =>
    cases b with
    | bool y =>
      have h := (hexact hkey).1
      refine Or.inl (congrArg LoraValue.bool ?_)
      cases x <;> cases y <;> first | rfl | cases h
    | _ => first | exact absurd hvb Bool.false_ne_true | exact absurd hkind (by simp [kind])
  | duration x =>
    cases b with
    | duration y =>
      have hnan : ∀ {z : LoraDuration}, (LoraValue.duration z).kind ≠ none →
          z.totalSecondsApprox.isNaN = false := by
        intro z hz
        by_contra h
        exact hz (if_pos (by simpa using h))
      have heq := (float_eq_iff (hnan hsome) (hnan (hkind ▸ hsome))).mpr (hexact hkey).1
      exact Or.inl (congrArg LoraValue.duration (hno.durations x y ha hb heq))
    | _ =>
      first
        | exact absurd hvb Bool.false_ne_true
        | exact absurd ((kind_duration hsome).symm.trans hkind) (by simp [kind])
  | date x =>
    cases b with
    | date y =>
      have h := (hexact hkey).1
      simp only [LoraDate.orderNanos, NANOS] at h
      exact Or.inl (congrArg LoraValue.date (date_inj hva hvb (by omega)))
    | _ => first | exact absurd hvb Bool.false_ne_true | exact absurd hkind (by simp [kind])
  | time x =>
    cases b with
    | time y => exact Or.inl (congrArg LoraValue.time (hno.times x y ha hb (hexact hkey).1))
    | _ => first | exact absurd hvb Bool.false_ne_true | exact absurd hkind (by simp [kind])
  | localTime x =>
    cases b with
    | localTime y =>
      obtain ⟨hour, minute, second, nanosecond⟩ := x
      obtain ⟨hour', minute', second', nanosecond'⟩ := y
      have h := (hexact hkey).1
      obtain ⟨-, rfl, rfl, rfl, rfl⟩ := @clock_inj _ _ _ _ _ _ _ _ hva hvb 0 0 (by
        simpa [LoraLocalTime.orderNanos] using h)
      exact Or.inl rfl
    | _ => first | exact absurd hvb Bool.false_ne_true | exact absurd hkind (by simp [kind])
  | dateTime x =>
    cases b with
    | dateTime y =>
      exact Or.inl (congrArg LoraValue.dateTime (hno.dateTimes x y ha hb (hexact hkey).1))
    | _ => first | exact absurd hvb Bool.false_ne_true | exact absurd hkind (by simp [kind])
  | localDateTime x =>
    cases b with
    | localDateTime y =>
      obtain ⟨year, month, day, hour, minute, second, nanosecond⟩ := x
      obtain ⟨year', month', day', hour', minute', second', nanosecond'⟩ := y
      obtain ⟨hdate, hclock⟩ := Bool.and_eq_true_iff.mp hva
      obtain ⟨hdate', hclock'⟩ := Bool.and_eq_true_iff.mp hvb
      obtain ⟨hdays, rfl, rfl, rfl, rfl⟩ := clock_inj hclock hclock' (hexact hkey).1
      have hsame := date_inj hdate hdate' hdays
      cases hsame
      exact Or.inl rfl
    | _ => first | exact absurd hvb Bool.false_ne_true | exact absurd hkind (by simp [kind])
  | _ => exact absurd hva Bool.false_ne_true

theorem SameValue.trans (h : SameValue a b) (h' : SameValue b c) : SameValue a c := by
  rcases h with rfl | ⟨hna, hnb, hab⟩
  · exact h'
  · rcases h' with rfl | ⟨-, hnc, hbc⟩
    · exact Or.inr ⟨hna, hnb, hab⟩
    · exact Or.inr ⟨hna, hnc, hab.trans hbc⟩

theorem key_of_same (ha : a.isScalar = true) (hb : b.isScalar = true) (h : SameValue a b) :
    a.key = b.key := by
  rcases h with rfl | ⟨hna, hnb, hexact⟩
  · rfl
  · cases a <;> first | exact absurd hna Bool.false_ne_true | skip
    all_goals
      cases b <;>
        first
          | exact absurd hnb Bool.false_ne_true
          | exact congrArg (fun n => toLex (n, "")) hexact

/-- Scalars that compare do so level when they are the same. -/
theorem level_iff_same (hS : Scalars S) (hno : NoTwins S) (ha : a ∈ S) (hb : b ∈ S)
    {o : Ordering} (h : compareValues a b = some o) : o = .eq ↔ SameValue a b := by
  rw [compareValues_scalar (hS a ha) (hS b hb)] at h
  split at h
  next hkind =>
    obtain rfl := Option.some.inj h
    rw [compare_eq_iff_eq]
    exact ⟨same_of_key hS hno ha hb hkind.1 hkind.2, key_of_same (hS a ha) (hS b hb)⟩
  next => cases h

theorem ofInt_eq_of_exact {i : Int64} {f : F64} (hf : f.isNaN = false)
    (h : i.toInt * ONE = f.scaled) : (F64.ofInt i).eq f = true := by
  rw [float_eq_iff F64.isNaN_ofInt hf]
  exact le_antisymm (F64.scaled_ofInt_le h.le) (F64.le_scaled_ofInt h.ge)

theorem int_exact_inj {i j : Int64} (h : i.toInt * ONE = j.toInt * ONE) : i = j :=
  Int64.toInt_inj.mp (Int.eq_of_mul_eq_mul_right F64.ONE_pos.ne' h)

theorem float_eq_comm {f g : F64} : f.eq g = g.eq f := by
  rw [Bool.eq_iff_iff, F64.eq, F64.eq, F64.partialCmp, F64.partialCmp]
  cases f.isNaN <;> cases g.isNaN <;> simp
  exact eq_comm

/-- `=` of scalars, where the casts are exact. -/
theorem valueEq_scalar (hS : Scalars S) (hround : RoundsToItself S) (ha : a ∈ S) (hb : b ∈ S) :
    valueEq a b = true ↔ SameValue a b := by
  have hva := hS a ha
  have hvb := hS b hb
  have hcast : ∀ i f, .int i ∈ S → .float f ∈ S →
      ((F64.ofInt i).eq f = true ↔ i.toInt * ONE = f.scaled) := by
    intro i f hi hf
    have hnan : f.isNaN = false := by simpa [isScalar] using hS _ hf
    exact ⟨hround i f hi hf, ofInt_eq_of_exact hnan⟩
  cases a with
  | int i =>
    cases b with
    | int j =>
      have h : valueEq (.int i) (.int j) = true ↔ i = j := beq_iff_eq
      rw [h]
      constructor
      · rintro rfl
        exact Or.inl rfl
      · rintro (h | ⟨-, -, h⟩)
        · cases h
          rfl
        · exact int_exact_inj h
    | float f =>
      rw [valueEq, hcast i f ha hb]
      constructor
      · exact fun h => Or.inr ⟨rfl, rfl, h⟩
      · rintro (h | ⟨-, -, h⟩)
        · cases h
        · exact h
    | _ =>
      first
        | exact absurd hvb Bool.false_ne_true
        | simp [valueEq, LoraValue.eq, SameValue, isNumber]
  | float f =>
    cases b with
    | int i =>
      rw [valueEq, float_eq_comm, hcast i f hb ha]
      constructor
      · exact fun h => Or.inr ⟨rfl, rfl, h.symm⟩
      · rintro (h | ⟨-, -, h⟩)
        · cases h
        · exact h.symm
    | float g =>
      have hf : f.isNaN = false := by simpa [isScalar] using hva
      have hg : g.isNaN = false := by simpa [isScalar] using hvb
      have h : valueEq (.float f) (.float g) = true ↔ f.scaled = g.scaled := by
        rw [← float_eq_iff hf hg]
        rfl
      rw [h]
      constructor
      · exact fun h => Or.inr ⟨rfl, rfl, h⟩
      · rintro (h | ⟨-, -, h⟩)
        · cases h
          rfl
        · exact h
    | _ =>
      first
        | exact absurd hvb Bool.false_ne_true
        | simp [valueEq, LoraValue.eq, SameValue, isNumber]
  | _ =>
    first
      | exact absurd hva Bool.false_ne_true
      | (cases b <;>
          first
            | exact absurd hvb Bool.false_ne_true
            | simp [valueEq, LoraValue.eq, SameValue, isNumber])

/-- An integer and a float, in either order. -/
def MixedNumbers (a b : LoraValue) : Prop :=
  ∃ i f, a = .int i ∧ b = .float f ∨ a = .float f ∧ b = .int i

/-- But for casts, `=` is the equality that lists compare their elements by. -/
theorem valueEq_cases (hS : Scalars S) (ha : Nested S a) (hb : Nested S b) :
    valueEq a b = a.eq b ∨ MixedNumbers a b := by
  cases ha with
  | list ha => exact Or.inl (by cases b <;> rfl)
  | scalar ha =>
    cases hb with
    | list hb =>
      refine Or.inl ?_
      cases a <;> first | exact absurd (hS _ ha) Bool.false_ne_true | rfl
    | scalar hb =>
      have hvb := hS _ hb
      cases a with
      | int i =>
        cases b with
        | float f => exact Or.inr ⟨i, f, Or.inl ⟨rfl, rfl⟩⟩
        | _ => first | exact absurd hvb Bool.false_ne_true | exact Or.inl rfl
      | float f =>
        cases b with
        | int i => exact Or.inr ⟨i, f, Or.inr ⟨rfl, rfl⟩⟩
        | _ => first | exact absurd hvb Bool.false_ne_true | exact Or.inl rfl
      | _ =>
        first
          | exact absurd (hS _ ha) Bool.false_ne_true
          | exact Or.inl (by cases b <;> rfl)

theorem valueEq_eq (hS : Scalars S) (hcast : NoCasts S) (ha : Nested S a) (hb : Nested S b) :
    valueEq a b = a.eq b := by
  rcases valueEq_cases hS ha hb with h | ⟨i, f, ⟨rfl, rfl⟩ | ⟨rfl, rfl⟩⟩
  · exact h
  · cases ha with
    | scalar ha =>
      cases hb with
      | scalar hb => exact hcast i f ha hb
  · cases ha with
    | scalar ha =>
      cases hb with
      | scalar hb => exact float_eq_comm.trans (hcast i f hb ha)

theorem valueEq_refl (hS : Scalars S) (ha : Nested S a) : valueEq a a = true := by
  rcases valueEq_cases hS ha ha with h | ⟨i, f, ⟨rfl, h⟩ | ⟨rfl, h⟩⟩
  · exact h.trans (eq_refl_nested hS ha)
  · cases h
  · cases h

theorem valueEq_symm (hS : Scalars S) (ha : Nested S a) (hb : Nested S b)
    (h : valueEq a b = true) : valueEq b a = true := by
  rcases valueEq_cases hS hb ha with hback | hback
  · rcases valueEq_cases hS ha hb with hthere | hthere
    · rw [hthere] at h
      exact hback.trans (eq_symm_nested hS ha hb h)
    · obtain ⟨i, f, ⟨rfl, rfl⟩ | ⟨rfl, rfl⟩⟩ := hthere
      · exact float_eq_comm.trans h
      · exact float_eq_comm.trans h
  · obtain ⟨i, f, ⟨rfl, rfl⟩ | ⟨rfl, rfl⟩⟩ := hback
    · exact float_eq_comm.trans h
    · exact float_eq_comm.trans h

theorem NoCasts.roundsToItself (hcast : NoCasts S) : RoundsToItself S := by
  intro i f hi hf h
  rw [hcast i f hi hf] at h
  cases h

/-- Nested values that compare do so level when they are equal. -/
theorem level_iff_eq (hS : Scalars S) (hno : NoTwins S) (hcast : NoCasts S) (ha : Nested S a)
    (hb : Nested S b) {o : Ordering} (h : compareValues a b = some o) :
    o = .eq ↔ a.eq b = true := by
  induction ha generalizing b o with
  | scalar ha =>
    cases hb with
    | scalar hb =>
      rw [← valueEq_eq hS hcast (.scalar ha) (.scalar hb),
        valueEq_scalar hS hcast.roundsToItself ha hb]
      exact level_iff_same hS hno ha hb h
    | list hb =>
      rw [(compare_scalar_list (hS _ ha) _).1] at h
      cases h
  | @list xs ha ih =>
    cases hb with
    | scalar hb =>
      rw [(compare_scalar_list (hS _ hb) _).2] at h
      cases h
    | @list ys hb =>
      change compareLists xs ys = some o at h
      change _ ↔ eqList xs ys = true
      induction xs generalizing ys with
      | nil =>
        cases ys with
        | nil => simp [eqList, ← Option.some.inj h]
        | cons y ys =>
          rw [compareLists_nil_cons] at h
          simp [eqList, ← Option.some.inj h]
      | cons x xs ihtail =>
        cases ys with
        | nil =>
          rw [compareLists_cons_nil] at h
          simp [eqList, ← Option.some.inj h]
        | cons y ys =>
          rw [compareLists] at h
          rw [eqList, Bool.and_eq_true]
          cases hp : compareValues x y with
          | none =>
            rw [hp] at h
            cases h
          | some p =>
            rw [hp] at h
            rw [← ih x mem_cons_self (hb y mem_cons_self) hp]
            cases p with
            | eq =>
              have htail := ihtail (fun z hz => ha z (mem_cons_of_mem _ hz))
                (fun z hz => ih z (mem_cons_of_mem _ hz))
                (fun z hz => hb z (mem_cons_of_mem _ hz)) h
              simpa using htail
            | lt => simp [← Option.some.inj h]
            | gt => simp [← Option.some.inj h]

/-! ### The laws -/

theorem Nested.isNull (hS : Scalars S) (ha : Nested S a) : a.isNull = false := by
  cases ha with
  | scalar ha =>
    cases a <;> first | exact absurd (hS _ ha) Bool.false_ne_true | rfl
  | list _ => rfl

theorem opHolds_eq_nested (hS : Scalars S) (ha : Nested S a) (hb : Nested S b) :
    OpHolds .eq a b ↔ valueEq a b = true := by
  rw [opHolds_eq, ha.isNull hS, hb.isNull hS]
  simp

/-- What the comparisons obey whatever the values: `=` is reflexive and symmetric, `<` a strict
order, the others mirror it, and `IN` asks for an equal element. -/
structure OrderLaws (P : LoraValue → Prop) : Prop where
  eq_refl : ∀ a, P a → OpHolds .eq a a
  eq_symm : ∀ a b, P a → P b → OpHolds .eq a b → OpHolds .eq b a
  lt_irrefl : ∀ a, P a → ¬ OpHolds .lt a a
  lt_trans : ∀ a b c, P a → P b → P c → OpHolds .lt a b → OpHolds .lt b c → OpHolds .lt a c
  gt_iff : ∀ a b, P a → P b → (OpHolds .gt a b ↔ OpHolds .lt b a)
  ge_iff : ∀ a b, P a → P b → (OpHolds .ge a b ↔ OpHolds .le b a)
  mem_iff : ∀ a xs, P a → (∀ x ∈ xs, P x) →
    (evalIn a (.list xs) = .bool true ↔ ∃ x ∈ xs, OpHolds .eq a x)

/-- `<` and `=` also agree with each other, and with the equality of lists. -/
structure Coherent (P : LoraValue → Prop) : Prop extends OrderLaws P where
  eq_trans : ∀ a b c, P a → P b → P c → OpHolds .eq a b → OpHolds .eq b c → OpHolds .eq a c
  exactly_one : ∀ a b, P a → P b → (evalComparison .lt a b).value ≠ .null →
    OpHolds .lt a b ∧ ¬ OpHolds .eq a b ∧ ¬ OpHolds .gt a b ∨
    ¬ OpHolds .lt a b ∧ OpHolds .eq a b ∧ ¬ OpHolds .gt a b ∨
    ¬ OpHolds .lt a b ∧ ¬ OpHolds .eq a b ∧ OpHolds .gt a b
  le_iff : ∀ a b, P a → P b → (evalComparison .lt a b).value ≠ .null →
    (OpHolds .le a b ↔ OpHolds .lt a b ∨ OpHolds .eq a b)
  list_eq_iff : ∀ xs ys, P (.list xs) → P (.list ys) →
    (OpHolds .eq (.list xs) (.list ys) ↔ Forall₂ (OpHolds .eq) xs ys)

theorem opHolds_gt : OpHolds .gt a b ↔ compareValues a b = some .gt := by
  rw [opHolds_order rfl]
  constructor
  · rintro ⟨o, h, hgt⟩
    cases o
    · cases hgt
    · cases hgt
    · exact h
  · exact fun h => ⟨.gt, h, rfl⟩

theorem lt_ne_null : (evalComparison .lt a b).value ≠ .null ↔ ∃ o, compareValues a b = some o := by
  rw [evalComparison]
  cases compareValues a b with
  | none =>
    constructor
    · exact fun h => absurd rfl h
    · rintro ⟨o, h⟩
      cases h
  | some o =>
    constructor
    · exact fun _ => ⟨o, rfl⟩
    · exact fun _ => LoraValue.noConfusion

theorem evalIn_iff (hS : Scalars S) (ha : Nested S a) {xs : List LoraValue}
    (hxs : ∀ x ∈ xs, Nested S x) :
    evalIn a (.list xs) = .bool true ↔ ∃ x ∈ xs, OpHolds .eq a x := by
  have hany : (∃ x ∈ xs, OpHolds .eq a x) ↔ xs.any (valueEq a) = true := by
    rw [any_eq_true]
    exact exists_congr fun x => and_congr_right fun hx => opHolds_eq_nested hS ha (hxs x hx)
  rw [hany]
  cases xs with
  | nil => simp [evalIn]
  | cons x xs =>
    rw [evalIn, ha.isNull hS]
    · cases (x :: xs).any (valueEq a)
      · cases (x :: xs).any LoraValue.isNull <;> simp
      · simp
    · simp

/-- On any nested values. -/
theorem nested_ordered (hS : Scalars S) : OrderLaws (Nested S) where
  eq_refl a ha := (opHolds_eq_nested hS ha ha).mpr (valueEq_refl hS ha)
  eq_symm a b ha hb h := (opHolds_eq_nested hS hb ha).mpr
    (valueEq_symm hS ha hb ((opHolds_eq_nested hS ha hb).mp h))
  lt_irrefl a ha h := by
    have hlt := opHolds_lt.mp h
    have hswap := compareValues_swap hS ha ha
    rw [hlt] at hswap
    cases hswap
  lt_trans a b c ha hb hc h h' := opHolds_lt.mpr
    (compareValues_chain hS ha hb hc _ _ (opHolds_lt.mp h) (opHolds_lt.mp h') (Or.inr (Or.inr rfl)))
  gt_iff a b ha hb := by
    rw [opHolds_gt, opHolds_lt, compareValues_swap hS ha hb]
    cases compareValues a b with
    | none => simp
    | some o => cases o <;> simp
  ge_iff a b ha hb := by
    rw [opHolds_order rfl, opHolds_order rfl, compareValues_swap hS ha hb]
    cases compareValues a b with
    | none => simp
    | some o => cases o <;> simp
  mem_iff a xs ha hxs := evalIn_iff hS ha hxs

theorem OrderLaws.mono {P Q : LoraValue → Prop} (h : OrderLaws P) (hQ : ∀ a, Q a → P a) :
    OrderLaws Q where
  eq_refl a ha := h.eq_refl a (hQ a ha)
  eq_symm a b ha hb := h.eq_symm a b (hQ a ha) (hQ b hb)
  lt_irrefl a ha := h.lt_irrefl a (hQ a ha)
  lt_trans a b c ha hb hc := h.lt_trans a b c (hQ a ha) (hQ b hb) (hQ c hc)
  gt_iff a b ha hb := h.gt_iff a b (hQ a ha) (hQ b hb)
  ge_iff a b ha hb := h.ge_iff a b (hQ a ha) (hQ b hb)
  mem_iff a xs ha hxs := h.mem_iff a xs (hQ a ha) fun x hx => hQ x (hxs x hx)

/-- The comparisons cohere where level means equal. -/
theorem coherent_of_level {P : LoraValue → Prop} (hS : Scalars S) (hP : ∀ a, P a → Nested S a)
    (hlevel : ∀ a b o, P a → P b → compareValues a b = some o → (o = .eq ↔ valueEq a b = true))
    (htrans : ∀ a b c, P a → P b → P c → valueEq a b = true → valueEq b c = true →
      valueEq a c = true)
    (hlist : ∀ xs ys, P (.list xs) → P (.list ys) →
      (OpHolds .eq (.list xs) (.list ys) ↔ Forall₂ (OpHolds .eq) xs ys)) : Coherent P where
  toOrderLaws := (nested_ordered hS).mono hP
  eq_trans a b c ha hb hc h h' := by
    rw [opHolds_eq_nested hS (hP _ ha) (hP _ hb)] at h
    rw [opHolds_eq_nested hS (hP _ hb) (hP _ hc)] at h'
    rw [opHolds_eq_nested hS (hP _ ha) (hP _ hc)]
    exact htrans a b c ha hb hc h h'
  exactly_one a b ha hb hnull := by
    obtain ⟨o, ho⟩ := lt_ne_null.mp hnull
    rw [opHolds_lt, opHolds_gt, opHolds_eq_nested hS (hP _ ha) (hP _ hb),
      ← hlevel a b o ha hb ho, ho]
    cases o <;> simp
  le_iff a b ha hb hnull := by
    obtain ⟨o, ho⟩ := lt_ne_null.mp hnull
    rw [opHolds_lt, opHolds_order rfl, opHolds_eq_nested hS (hP _ ha) (hP _ hb),
      ← hlevel a b o ha hb ho, ho]
    cases o <;> simp
  list_eq_iff := hlist

/-- Twins contradict the trichotomy. -/
theorem noTwins_of_coherent {P : LoraValue → Prop} (hS : Scalars S) (hP : ∀ a ∈ S, P a)
    (h : Coherent P) : NoTwins S := by
  have hsame : ∀ a ∈ S, ∀ b ∈ S, compareValues a b = some .eq → valueEq a b = true := by
    intro a ha b hb hlevel
    have hone := h.exactly_one a b (hP a ha) (hP b hb) (lt_ne_null.mpr ⟨_, hlevel⟩)
    rw [opHolds_lt, opHolds_gt, opHolds_eq_nested hS (.scalar ha) (.scalar hb), hlevel] at hone
    simpa using hone
  refine ⟨?_, ?_, ?_⟩
  · intro x y hx hy heq
    exact of_decide_eq_true (hsame _ hx _ hy (congrArg some (compare_eq_iff_eq.mpr heq)))
  · intro x y hx hy heq
    exact of_decide_eq_true (hsame _ hx _ hy (congrArg some (compare_eq_iff_eq.mpr heq)))
  · intro x y hx hy heq
    exact of_decide_eq_true (hsame _ hx _ hy (beq_iff_eq.mp heq))

/-- **Coherence.** Where the casts of integers to floats are exact, scalars cohere when no two
temporals are level without being the same; where there are no casts, so do the lists nested from
them. -/
theorem comparisons_coherent (hS : Scalars S) : OrderLaws (Nested S) ∧
    (RoundsToItself S → (Coherent (· ∈ S) ↔ NoTwins S)) ∧
    (NoCasts S → (Coherent (Nested S) ↔ NoTwins S)) := by
  refine ⟨nested_ordered hS, fun hround => ⟨noTwins_of_coherent hS fun _ h => h, fun hno => ?_⟩,
    fun hcast => ⟨noTwins_of_coherent hS fun _ => .scalar, fun hno => ?_⟩⟩
  · refine coherent_of_level hS (fun _ => .scalar) ?_ ?_ ?_
    · intro a b o ha hb h
      rw [valueEq_scalar hS hround ha hb]
      exact level_iff_same hS hno ha hb h
    · intro a b c ha hb hc
      rw [valueEq_scalar hS hround ha hb, valueEq_scalar hS hround hb hc,
        valueEq_scalar hS hround ha hc]
      exact SameValue.trans
    · exact fun xs _ hxs => absurd (hS _ hxs) Bool.false_ne_true
  · refine coherent_of_level hS (fun _ => id) ?_ ?_ ?_
    · intro a b o ha hb h
      rw [valueEq_eq hS hcast ha hb]
      exact level_iff_eq hS hno hcast ha hb h
    · intro a b c ha hb hc
      rw [valueEq_eq hS hcast ha hb, valueEq_eq hS hcast hb hc, valueEq_eq hS hcast ha hc]
      exact eq_trans_nested hS ha hb hc
    · intro xs ys hxs hys
      rw [opHolds_eq_nested hS hxs hys]
      change eqList xs ys = true ↔ _
      rw [eqList_iff, forall₂_iff_zip, forall₂_iff_zip]
      cases hxs with
      | scalar h => exact absurd (hS _ h) Bool.false_ne_true
      | list hxs =>
        cases hys with
        | scalar h => exact absurd (hS _ h) Bool.false_ne_true
        | list hys =>
          refine and_congr_right fun _ => forall_congr' fun x => forall_congr' fun y =>
            forall_congr' fun hmem => ?_
          obtain ⟨hx, hy⟩ := of_mem_zip hmem
          rw [opHolds_eq_nested hS (hxs x hx) (hys y hy), valueEq_eq hS hcast (hxs x hx) (hys y hy)]

/-- A number of each kind and a leap day, with the lists nested from them. -/
theorem numbers_coherent :
    Coherent (Nested {v | v ∈ [.int 3, .float ⟨0x4004000000000000⟩, .date ⟨2024, 2, 29⟩]}) := by
  refine ((comparisons_coherent ?_).2.2 ?_).mpr ⟨?_, ?_, ?_⟩
  · exact fun v hv => (show ∀ v ∈ [LoraValue.int 3, .float ⟨0x4004000000000000⟩,
      .date ⟨2024, 2, 29⟩], v.isScalar = true by decide +kernel) v hv
  · intro i f hi hf
    simp only [Set.mem_ofPred_eq, mem_cons, LoraValue.int.injEq, LoraValue.float.injEq,
      reduceCtorEq, not_mem_nil, or_false, false_or] at hi hf
    subst hi hf
    decide +kernel
  · intro x y hx
    simp at hx
  · intro x y hx
    simp at hx
  · intro x y hx
    simp at hx

/-- One instant, told in two offsets: neither earlier, nor later, nor equal. -/
theorem oneInstant_not_coherent :
    let noon : LoraValue := .dateTime ⟨2024, 1, 1, 12, 0, 0, 0, 0, none⟩
    let one : LoraValue := .dateTime ⟨2024, 1, 1, 13, 0, 0, 0, 3600, none⟩
    (noon.isScalar = true ∧ one.isScalar = true) ∧ (evalComparison .lt noon one).value ≠ .null ∧
      ¬ OpHolds .lt noon one ∧ ¬ OpHolds .eq noon one ∧ ¬ OpHolds .gt noon one ∧
      OpHolds .le noon one := by
  intro noon one
  have hlevel : compareValues noon one = some .eq := by decide +kernel
  refine ⟨by decide +kernel, lt_ne_null.mpr ⟨_, hlevel⟩, ?_, ?_, ?_, ?_⟩
  · rw [opHolds_lt, hlevel]
    simp
  · rw [opHolds_eq]
    decide +kernel
  · rw [opHolds_gt, hlevel]
    simp
  · exact (opHolds_order rfl).mpr ⟨_, hlevel, rfl⟩

end LoraDb
