import Mathlib.Data.List.Sort

/-!
# The Best Elements of a List

The first `k` elements of a sorted list, kept while the list grows. A bounded sort need not
hold every element: an element that `k` others beat can be dropped at any time, and
what is dropped never matters again (`best_concat`, `best_concat_of_beaten`).

Sorting is `List.mergeSort`, which is stable; where elements carry their arrival position
no two of them tie (`Untied`) and every sort gives the same list.

## Main results

* `best_concat`: the best `k` of a grown list, from any list with the same best `k`.
* `best_concat_of_beaten`: an element beaten by all of the best `k` changes nothing.
* `mergeSort_append_of_le`: a list in two parts, one before the other, sorts part by part.
-/

open List

namespace TopK

variable {α : Type} {le : α → α → Bool}

/-- A **total preorder**, as a test. -/
structure IsOrder (le : α → α → Bool) : Prop where
  trans : ∀ a b c, le a b → le b c → le a c
  total : ∀ a b, le a b || le b a

/-- No two different members tie. -/
def Untied (le : α → α → Bool) (l : List α) : Prop :=
  ∀ a ∈ l, ∀ b ∈ l, le a b → le b a → a = b

/-- The first `k` elements in order. -/
def best (le : α → α → Bool) (k : ℕ) (l : List α) : List α :=
  (l.mergeSort le).take k

theorem Untied.mono {l m : List α} (h : Untied le l) (hsub : m ⊆ l) : Untied le m :=
  fun a ha b hb => h a (hsub ha) b (hsub hb)

theorem IsOrder.pairwise (hle : IsOrder le) (l : List α) :
    (l.mergeSort le).Pairwise (fun a b => le a b) :=
  pairwise_mergeSort hle.trans hle.total l

theorem mem_best {k : ℕ} {l : List α} {a : α} (h : a ∈ best le k l) : a ∈ l :=
  mem_mergeSort.mp (mem_of_mem_take h)

theorem length_best {k : ℕ} {l : List α} : (best le k l).length = min k l.length := by
  rw [best, length_take, length_mergeSort]

theorem IsOrder.refl (hle : IsOrder le) (a : α) : le a a := by
  have h := hle.total a a
  rwa [Bool.or_self] at h

/-- The best `k` are all not after the last of them. -/
theorem IsOrder.le_worst (hle : IsOrder le) {k : ℕ} {l : List α} {a worst : α}
    (ha : a ∈ best le k l) (hw : (l.mergeSort le)[k - 1]? = some worst) : le a worst := by
  obtain ⟨i, hi, rfl⟩ := mem_iff_getElem.mp ha
  obtain ⟨hk, rfl⟩ := List.getElem?_eq_some_iff.mp hw
  have hik : i < k ∧ i < l.length := by
    rw [length_best] at hi
    omega
  unfold best at hi ⊢
  rw [getElem_take]
  rcases Nat.lt_or_ge i (k - 1) with hlt | hge
  · exact pairwise_iff_getElem.mp (hle.pairwise l) i (k - 1) _ hk hlt
  · have hlast : i = k - 1 := by omega
    subst hlast
    exact hle.refl _

/-! ### Without ties there is one sorted list -/

/-- Two sorted lists of the same untied elements are equal. -/
theorem eq_of_perm_of_pairwise {l m : List α} (hu : Untied le l) (hp : l ~ m)
    (hl : l.Pairwise (fun a b => le a b)) (hm : m.Pairwise (fun a b => le a b)) : l = m := by
  have hanti : ∀ a b, a ∈ l → b ∈ m → le a b = true → le b a = true → a = b := by
    intro a b ha hb hab hba
    exact hu a ha b (hp.mem_iff.mpr hb) hab hba
  exact Perm.eq_of_pairwise hanti hl hm hp

/-- Sorting with one more element inserts it. -/
theorem mergeSort_concat {l : List α} {x : α} (hle : IsOrder le) (hu : Untied le (l ++ [x])) :
    (l ++ [x]).mergeSort le = (l.mergeSort le).orderedInsert (fun a b => le a b) x := by
  have : IsTrans α (fun a b => le a b = true) := ⟨hle.trans⟩
  have : Std.Total (fun a b : α => le a b = true) := by
    refine ⟨fun a b => ?_⟩
    have h := hle.total a b
    rwa [Bool.or_eq_true] at h
  have hperm : (l ++ [x]).mergeSort le ~ (l.mergeSort le).orderedInsert (fun a b => le a b) x := by
    calc (l ++ [x]).mergeSort le ~ l ++ [x] := mergeSort_perm _ _
      _ ~ x :: l := perm_append_singleton x l
      _ ~ x :: l.mergeSort le := ((mergeSort_perm l le).symm.cons x)
      _ ~ _ := (perm_orderedInsert _ x _).symm
  refine eq_of_perm_of_pairwise (hu.mono (mergeSort_perm _ le).subset) hperm (hle.pairwise _) ?_
  exact (hle.pairwise l).orderedInsert x _

/-- What an insertion puts first depends only on what was first. -/
theorem take_orderedInsert (r : α → α → Prop) [DecidableRel r] (x : α) : ∀ (k : ℕ) (l : List α),
      (l.orderedInsert r x).take k = ((l.take k).orderedInsert r x).take k
  | 0, l => by simp
  | k + 1, [] => by simp
  | k + 1, y :: l => by
    rw [take_succ_cons, orderedInsert_cons, orderedInsert_cons]
    split
    · rw [take_succ_cons, take_succ_cons]
      cases k with
      | zero => rfl
      | succ k => rw [take_succ_cons, take_succ_cons, take_take, min_eq_left (by omega)]
    · rw [take_succ_cons, take_succ_cons, take_orderedInsert r x k l]

/-- An element that the first `k` all beat goes behind them. -/
theorem take_orderedInsert_of_beaten (r : α → α → Prop) [DecidableRel r] (x : α) :
    ∀ (k : ℕ) (l : List α), k ≤ l.length → (∀ y ∈ l.take k, ¬ r x y) →
      (l.orderedInsert r x).take k = l.take k
  | 0, l, _, _ => by simp
  | k + 1, [], hk, _ => by simp at hk
  | k + 1, y :: l, hk, h => by
    rw [take_succ_cons] at h
    rw [orderedInsert_cons, if_neg (h y mem_cons_self), take_succ_cons, take_succ_cons]
    rw [take_orderedInsert_of_beaten r x k l (by simpa using hk)]
    exact fun z hz => h z (mem_cons_of_mem y hz)

/-! ### Keeping the best of a growing list -/

section Grow

variable {k : ℕ} {l m : List α} {x : α}

/-- The best `k` of a grown list, from any part of it with the same best `k`. -/
theorem best_concat (hle : IsOrder le) (hu : Untied le (l ++ [x])) (hsub : m ⊆ l)
    (h : best le k m = best le k l) : best le k (m ++ [x]) = best le k (l ++ [x]) := by
  have hum : Untied le (m ++ [x]) := by
    refine hu.mono ?_
    exact append_subset.mpr
      ⟨fun a ha => subset_append_left l [x] (hsub ha), subset_append_right l [x]⟩
  unfold best at h ⊢
  rw [mergeSort_concat hle hu, mergeSort_concat hle hum, take_orderedInsert, h,
    ← take_orderedInsert]

/-- An element beaten by all of the best `k` leaves them as they are. -/
theorem best_concat_of_beaten (hle : IsOrder le) (hu : Untied le (l ++ [x]))
    (hk : k ≤ l.length) (h : ∀ y ∈ best le k l, ¬ le x y) :
    best le k (l ++ [x]) = best le k l := by
  unfold best
  rw [mergeSort_concat hle hu]
  exact take_orderedInsert_of_beaten _ x k _ (by rwa [length_mergeSort]) h

/-- The best of a grown list are old, or the new element. -/
theorem mem_best_concat (hle : IsOrder le) (hu : Untied le (l ++ [x])) {a : α}
    (h : a ∈ best le k (l ++ [x])) : a ∈ best le k l ∨ a = x := by
  unfold best at h
  rw [mergeSort_concat hle hu, take_orderedInsert] at h
  rcases (mem_orderedInsert _).mp (mem_of_mem_take h) with rfl | h
  · exact Or.inr rfl
  · exact Or.inl h

/-- Keeping just the best `k` keeps them. -/
theorem mergeSort_filter_best {p : α → Bool} (hle : IsOrder le) (hu : Untied le l)
    (hnd : l.Nodup) (hp : ∀ a ∈ l, p a ↔ a ∈ best le k l) :
    (l.filter p).mergeSort le = best le k l := by
  have hbest : (best le k l).Nodup :=
    ((mergeSort_perm l le).nodup_iff.mpr hnd).sublist (take_sublist k _)
  have hperm : l.filter p ~ best le k l := by
    refine (perm_ext_iff_of_nodup (hnd.filter p) hbest).mpr fun a => ?_
    rw [mem_filter]
    constructor
    · rintro ⟨ha, hpa⟩
      exact (hp a ha).mp hpa
    · intro ha
      exact ⟨mem_best ha, (hp a (mem_best ha)).mpr ha⟩
  refine eq_of_perm_of_pairwise ?_ ((mergeSort_perm _ le).trans hperm) (hle.pairwise _) ?_
  · refine hu.mono fun a ha => ?_
    exact (mem_filter.mp (mem_mergeSort.mp ha)).1
  · exact (hle.pairwise l).sublist (take_sublist k _)

end Grow

/-! ### Arrival positions -/

theorem le_of_zipIdxLE {a b : α × ℕ} (h : zipIdxLE le a b) : le a.1 b.1 := by
  simp only [zipIdxLE] at h
  split at h
  · assumption
  · exact absurd h Bool.false_ne_true

/-- An arrival position has one element. -/
theorem eq_of_mem_zipIdx {l : List α} {n : ℕ} {a b : α × ℕ} (ha : a ∈ l.zipIdx n)
    (hb : b ∈ l.zipIdx n) (h : a.2 = b.2) : a = b := by
  obtain ⟨x, i⟩ := a
  obtain ⟨y, j⟩ := b
  obtain rfl : i = j := h
  obtain ⟨-, -, hx⟩ := mem_zipIdx ha
  obtain ⟨-, -, hy⟩ := mem_zipIdx hb
  rw [hx, hy]

/-- Arrival positions leave no ties. -/
theorem untied_zipIdx (le : α → α → Bool) (l : List α) (n : ℕ) :
    Untied (zipIdxLE le) (l.zipIdx n) := by
  rintro ⟨a, i⟩ ha ⟨b, j⟩ hb hab hba
  have hij : i = j := by
    simp only [zipIdxLE] at hab hba
    by_cases h1 : le a b
    · by_cases h2 : le b a
      · simp only [h1, h2, if_true, decide_eq_true_eq] at hab hba
        omega
      · simp [h2] at hba
    · simp [h1] at hab
  exact eq_of_mem_zipIdx ha hb hij

theorem nodup_zipIdx (l : List α) (n : ℕ) : (l.zipIdx n).Nodup := by
  refine Nodup.of_map Prod.snd ?_
  rw [zipIdx_map_snd]
  exact nodup_range'

theorem IsOrder.zipIdx (hle : IsOrder le) : IsOrder (zipIdxLE le) :=
  ⟨zipIdxLE_trans hle.trans, zipIdxLE_total hle.total⟩

/-- Where the arrival positions start does not matter. -/
theorem mergeSort_zipIdx_from (le : α → α → Bool) (l : List α) (n : ℕ) :
    ((l.zipIdx n).mergeSort (zipIdxLE le)).map Prod.fst = l.mergeSort le := by
  have hshift : ((l.zipIdx).mergeSort (zipIdxLE le)).map (Prod.map id (· + n)) =
      (l.zipIdx n).mergeSort (zipIdxLE le) := by
    rw [map_mergeSort (s := zipIdxLE le)]
    · rw [map_snd_add_zipIdx_eq_zipIdx, Nat.add_zero]
    · intro a _ b _
      simp [zipIdxLE]
  rw [← hshift, map_map]
  exact mergeSort_zipIdx

/-- A list in two parts, one before the other, sorts part by part. -/
theorem mergeSort_append_of_le {l m : List α} (hle : IsOrder le) (h : ∀ a ∈ l, ∀ b ∈ m, le a b) :
    (l ++ m).mergeSort le = l.mergeSort le ++ m.mergeSort le := by
  rw [← mergeSort_zipIdx_from le (l ++ m) 0, ← mergeSort_zipIdx_from le l 0,
    ← mergeSort_zipIdx_from le m l.length, ← map_append]
  congr 1
  have hu := untied_zipIdx le (l ++ m) 0
  rw [zipIdx_append, Nat.zero_add] at hu ⊢
  refine eq_of_perm_of_pairwise (hu.mono (mergeSort_perm _ _).subset) ?_
    (hle.zipIdx.pairwise _) ?_
  · exact (mergeSort_perm _ _).trans
      ((mergeSort_perm _ _).symm.append (mergeSort_perm _ _).symm)
  · refine pairwise_append.mpr ⟨hle.zipIdx.pairwise _, hle.zipIdx.pairwise _, ?_⟩
    rintro ⟨a, i⟩ ha ⟨b, j⟩ hb
    rw [mem_mergeSort] at ha hb
    obtain ⟨-, hi, hia⟩ := mem_zipIdx ha
    obtain ⟨hj, hj', hjb⟩ := mem_zipIdx hb
    have hab : le a b := by
      refine h a ?_ b ?_
      · rw [hia]
        exact getElem_mem _
      · rw [hjb]
        exact getElem_mem _
    simp only [zipIdxLE, hab, if_true]
    split
    · exact decide_eq_true (by omega)
    · rfl

end TopK
