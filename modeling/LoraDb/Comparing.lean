import Mathlib.Data.List.Forall2
import Mathlib.Data.Prod.Lex
import Mathlib.Data.Set.Basic

/-!
# Comparisons

Two comparisons of linear orders agree when each way one can come out forces the other. A
comparator that compares by a key on a set of values is a total preorder there, and what is
picked or sorted with it depends on the values only, up to ties.

## Main results

* `compare_congr`, `compare_then_congr`: a comparison, or two in turn, is another comparison.
* `Keyed.trans`, `Keyed.swap`: comparing by a key is a total preorder.
* `Keyed.pick_perm`, `Keyed.sorted_perm`: the least, the greatest and the sorted values of a
  list, whatever order they come in.
-/

namespace Comparing

open List

section Congr

variable {α β γ : Type} [LinearOrder α] [LinearOrder β] [LinearOrder γ]

theorem compare_congr {a b : α} {c d : β} (hlt : a < b → c < d) (heq : a = b → c = d)
    (hgt : b < a → d < c) : compare a b = compare c d := by
  rcases lt_trichotomy a b with h | h | h
  · rw [compare_lt_iff_lt.mpr h, compare_lt_iff_lt.mpr (hlt h)]
  · rw [compare_eq_iff_eq.mpr h, compare_eq_iff_eq.mpr (heq h)]
  · rw [compare_gt_iff_gt.mpr h, compare_gt_iff_gt.mpr (hgt h)]

/-- The first comparison decides, the second breaks its ties. -/
theorem compare_then_congr {a b : α} {c d : β} {e f : γ} (hlt : a < b → e < f)
    (htie : a = b → compare c d = compare e f) (hgt : b < a → f < e) :
    (compare a b).then (compare c d) = compare e f := by
  rcases lt_trichotomy a b with h | h | h
  · rw [compare_lt_iff_lt.mpr h, compare_lt_iff_lt.mpr (hlt h)]
    rfl
  · rw [compare_eq_iff_eq.mpr h, ← htie h]
    rfl
  · rw [compare_gt_iff_gt.mpr h, compare_gt_iff_gt.mpr (hgt h)]
    rfl

end Congr

/-- Pairs that compare equal component by component are equal. -/
instance lawfulEqOrd_lex {α β : Type} [Ord α] [Ord β] [Std.LawfulEqOrd α] [Std.LawfulEqOrd β] :
    Std.LawfulEqOrd (α ×ₗ β) where
  compare_self {a} := by
    change (compare (ofLex a).1 (ofLex a).1).then (compare (ofLex a).2 (ofLex a).2) = .eq
    rw [Std.ReflOrd.compare_self, Std.ReflOrd.compare_self]
    rfl
  eq_of_compare {a b} h := by
    change (compare (ofLex a).1 (ofLex b).1).then (compare (ofLex a).2 (ofLex b).2) = .eq at h
    obtain ⟨h1, h2⟩ := Ordering.then_eq_eq.mp h
    exact Prod.ext (Std.LawfulEqOrd.eq_of_compare h1) (Std.LawfulEqOrd.eq_of_compare h2)

/-- Compared the other way round. -/
instance transOrd_orderDual {α : Type} [Ord α] [Std.TransOrd α] : Std.TransOrd αᵒᵈ where
  eq_swap {a b} := by
    change compare (OrderDual.ofDual b) (OrderDual.ofDual a) = _
    rw [Std.OrientedOrd.eq_swap]
    rfl
  isLE_trans {a b c} hab hbc := by
    change (compare (OrderDual.ofDual c) (OrderDual.ofDual a)).isLE
    change (compare (OrderDual.ofDual b) (OrderDual.ofDual a)).isLE at hab
    change (compare (OrderDual.ofDual c) (OrderDual.ofDual b)).isLE at hbc
    exact Std.TransCmp.isLE_trans hbc hab

instance lawfulEqOrd_orderDual {α : Type} [Ord α] [Std.LawfulEqOrd α] : Std.LawfulEqOrd αᵒᵈ where
  compare_self {a} := by
    change compare (OrderDual.ofDual a) (OrderDual.ofDual a) = .eq
    exact Std.ReflOrd.compare_self
  eq_of_compare {a b} h := by
    change compare (OrderDual.ofDual b) (OrderDual.ofDual a) = .eq at h
    exact (Std.LawfulEqOrd.eq_of_compare h).symm

section Keyed

variable {α κ : Type}

/-- Keep the value held, unless the next one compares to it as `better`. -/
def pick (cmp : α → α → Ordering) (better : Ordering) : Option α → α → Option α
  | none, v => some v
  | some cur, v => if cmp v cur = better then some v else some cur

/-- Both absent, or present and tied. -/
def Tied (cmp : α → α → Ordering) : Option α → Option α → Prop
  | none, none => True
  | some a, some b => cmp a b = .eq
  | _, _ => False

variable [Ord κ] {cmp : α → α → Ordering} {S : Set α} {key : α → κ}

/-- On a set, `cmp` compares by a key. -/
def Keyed (cmp : α → α → Ordering) (S : Set α) (key : α → κ) : Prop :=
  ∀ a ∈ S, ∀ b ∈ S, cmp a b = compare (key a) (key b)

namespace Keyed

theorem swap [Std.OrientedOrd κ] (h : Keyed cmp S key) {a b : α} (ha : a ∈ S) (hb : b ∈ S) :
    cmp b a = (cmp a b).swap := by
  rw [h b hb a ha, h a ha b hb]
  exact Std.OrientedCmp.eq_swap

theorem refl [Std.ReflOrd κ] (h : Keyed cmp S key) {a : α} (ha : a ∈ S) : cmp a a = .eq := by
  rw [h a ha a ha]
  exact Std.ReflCmp.compare_self

theorem tie_iff [Std.LawfulEqOrd κ] (h : Keyed cmp S key) {a b : α} (ha : a ∈ S) (hb : b ∈ S) :
    cmp a b = .eq ↔ key a = key b := by
  rw [h a ha b hb]
  exact Std.LawfulEqCmp.compare_eq_iff_eq

variable [Std.TransOrd κ]

theorem trans (h : Keyed cmp S key) {a b c : α} (ha : a ∈ S) (hb : b ∈ S) (hc : c ∈ S)
    (hab : (cmp a b).isLE) (hbc : (cmp b c).isLE) : (cmp a c).isLE := by
  rw [h a ha b hb] at hab
  rw [h b hb c hc] at hbc
  rw [h a ha c hc]
  exact Std.TransCmp.isLE_trans hab hbc

/-! ### Picking -/

/-- Nothing compares better than the key `k`, of two. -/
def Beats (better : Ordering) (k k' : κ) : Prop := compare k k' ≠ better.swap

variable {better : Ordering}

omit [Std.TransOrd κ] in
theorem beats_of_not [Std.OrientedOrd κ] {k k' : κ} (h : compare k' k ≠ better) :
    Beats better k k' := by
  rw [Beats, Std.OrientedOrd.eq_swap]
  exact fun heq => h (Ordering.swap_inj.mp heq)

theorem beats_trans (hbetter : better ≠ .eq) {k k' k'' : κ} (h : Beats better k k')
    (h' : Beats better k' k'') : Beats better k k'' := by
  cases better with
  | lt =>
    have hle := Std.TransCmp.isLE_trans (Ordering.ne_gt_iff_isLE.mp h)
      (Ordering.ne_gt_iff_isLE.mp h')
    exact Ordering.ne_gt_iff_isLE.mpr hle
  | eq => exact absurd rfl hbetter
  | gt =>
    have hge := Std.TransCmp.isGE_trans (Ordering.ne_lt_iff_isGE.mp h)
      (Ordering.ne_lt_iff_isGE.mp h')
    exact Ordering.ne_lt_iff_isGE.mpr hge

/-- What is picked was seen, and nothing seen is better. -/
theorem foldl_pick (h : Keyed cmp S key) (hbetter : better ≠ .eq) {l : List α} {cur : α}
    (hcur : cur ∈ S) (hl : ∀ x ∈ l, x ∈ S) :
    ∃ m ∈ cur :: l, l.foldl (pick cmp better) (some cur) = some m ∧
      ∀ x ∈ cur :: l, Beats better (key m) (key x) := by
  induction l generalizing cur with
  | nil =>
    refine ⟨cur, mem_cons_self, rfl, fun x hx => ?_⟩
    obtain rfl := List.mem_singleton.mp hx
    refine beats_of_not ?_
    rw [Std.ReflOrd.compare_self]
    exact hbetter.symm
  | cons v l ih =>
    have hv := hl v mem_cons_self
    have hrest : ∀ x ∈ l, x ∈ S := fun x hx => hl x (mem_cons_of_mem _ hx)
    rw [foldl_cons, pick]
    by_cases hcmp : cmp v cur = better
    · rw [if_pos hcmp]
      obtain ⟨m, hm, hfold, hbeats⟩ := ih hv hrest
      refine ⟨m, mem_cons_of_mem _ hm, hfold, fun x hx => ?_⟩
      rcases List.mem_cons.mp hx with rfl | hx
      · refine beats_trans hbetter (hbeats v mem_cons_self) ?_
        rw [Beats, ← h v hv x hcur, hcmp]
        cases better with
        | lt => decide
        | eq => exact absurd rfl hbetter
        | gt => decide
      · exact hbeats x hx
    · rw [if_neg hcmp]
      obtain ⟨m, hm, hfold, hbeats⟩ := ih hcur hrest
      have hm' : m ∈ cur :: v :: l := by
        rcases List.mem_cons.mp hm with rfl | hm
        · exact mem_cons_self
        · exact mem_cons_of_mem _ (mem_cons_of_mem _ hm)
      refine ⟨m, hm', hfold, fun x hx => ?_⟩
      rcases List.mem_cons.mp hx with rfl | hx
      · exact hbeats x mem_cons_self
      · rcases List.mem_cons.mp hx with rfl | hx
        · refine beats_trans hbetter (hbeats cur mem_cons_self) (beats_of_not ?_)
          rw [← h x hv cur hcur]
          exact hcmp
        · exact hbeats x (mem_cons_of_mem _ hx)

/-- What is picked from a list is tied with what is picked from the list rearranged. -/
theorem pick_perm (h : Keyed cmp S key) (hbetter : better ≠ .eq) {l l' : List α}
    (hl : ∀ x ∈ l, x ∈ S) (hperm : l.Perm l') :
    Tied cmp (l.foldl (pick cmp better) none) (l'.foldl (pick cmp better) none) := by
  cases l with
  | nil =>
    obtain rfl := hperm.nil_eq
    trivial
  | cons a l =>
    cases l' with
    | nil => exact absurd hperm.eq_nil (by simp)
    | cons a' l' =>
      have hl' : ∀ x ∈ a' :: l', x ∈ S := fun x hx => hl x (hperm.mem_iff.mpr hx)
      obtain ⟨m, hm, hfold, hbeats⟩ := foldl_pick h hbetter (hl a mem_cons_self)
        fun x hx => hl x (mem_cons_of_mem _ hx)
      obtain ⟨m', hm', hfold', hbeats'⟩ := foldl_pick h hbetter (hl' a' mem_cons_self)
        fun x hx => hl' x (mem_cons_of_mem _ hx)
      rw [foldl_cons, foldl_cons]
      change Tied cmp (l.foldl _ (some a)) (l'.foldl _ (some a'))
      rw [hfold, hfold', Tied, h m (hl m hm) m' (hl' m' hm')]
      have hle := hbeats m' (hperm.mem_iff.mpr hm')
      have hge := hbeats' m (hperm.mem_iff.mp hm)
      rw [Beats] at hle hge
      rw [Std.OrientedOrd.eq_swap] at hge
      cases better <;> cases hcmp : compare (key m) (key m') <;> simp_all

/-- Two sorted arrangements of the same values are tied place by place. -/
theorem sorted_perm [Std.LawfulEqOrd κ] (h : Keyed cmp S key) {l l' : List α}
    (hl : ∀ x ∈ l, x ∈ S) (hperm : l.Perm l') (hsorted : l.Pairwise fun a b => (cmp a b).isLE)
    (hsorted' : l'.Pairwise fun a b => (cmp a b).isLE) :
    Forall₂ (fun a b => cmp a b = .eq) l l' := by
  have hl' : ∀ x ∈ l', x ∈ S := fun x hx => hl x (hperm.mem_iff.mpr hx)
  have hkeys : ∀ {l : List α}, (∀ x ∈ l, x ∈ S) → (l.Pairwise fun a b => (cmp a b).isLE) →
      (l.map key).Pairwise fun k k' => (compare k k').isLE := by
    intro l hl hsorted
    refine List.pairwise_map.mpr (hsorted.imp_of_mem fun ha hb hle => ?_)
    rw [h _ (hl _ ha) _ (hl _ hb)] at hle
    exact hle
  have hmaps : l.map key = l'.map key := by
    refine Perm.eq_of_pairwise ?_ (hkeys hl hsorted) (hkeys hl' hsorted') (hperm.map key)
    intro k k' _ _ hle hge
    exact Std.LawfulEqCmp.compare_eq_iff_eq.mp (Std.OrientedCmp.isLE_antisymm hle hge)
  refine (List.forall₂_iff_get.mpr ⟨hperm.length_eq, fun i hi hi' => ?_⟩)
  rw [h.tie_iff (hl _ (get_mem _ _)) (hl' _ (get_mem _ _))]
  have hget := congrArg (fun ks : List κ => ks[i]?) hmaps
  simpa [hi, hi'] using hget

end Keyed

end Keyed

end Comparing
