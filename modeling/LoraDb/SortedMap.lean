import Mathlib

/-!
# Maps as Key-Sorted Entry Lists

A finite map over a linear order, kept as the list of its entries in strictly ascending
key order. Two such lists that answer every lookup alike are equal (`Sorted.ext`), so the
list is a canonical form and equality of maps is equality of lists.

The operations are those of an ordered map: `get?`, `put` (insert or replace) and `erase`.
Each keeps the order and comes with its lookup law.
-/

namespace SortedMap

open List

variable {κ α : Type} [LinearOrder κ]

/-- The keys ascend strictly. -/
def Sorted (es : List (κ × α)) : Prop := es.Pairwise (fun a b => a.1 < b.1)

instance (es : List (κ × α)) : Decidable (Sorted es) := by
  unfold Sorted
  infer_instance

/-- The value at `k`, if there is an entry for it. -/
def get? (k : κ) : List (κ × α) → Option α
  | [] => none
  | (k', v) :: es => if k = k' then some v else get? k es

/-- Insert or replace the entry at `k`. -/
def put (k : κ) (v : α) : List (κ × α) → List (κ × α)
  | [] => [(k, v)]
  | (k', v') :: es =>
    if k < k' then (k, v) :: (k', v') :: es
    else if k = k' then (k', v) :: es
    else (k', v') :: put k v es

/-- Remove the entry at `k`. -/
def erase (k : κ) : List (κ × α) → List (κ × α)
  | [] => []
  | (k', v) :: es => if k = k' then es else (k', v) :: erase k es

/-- Insert every entry of the second list in order, later ones winning. -/
def putAll (es new : List (κ × α)) : List (κ × α) :=
  new.foldl (fun es e => put e.1 e.2 es) es

@[simp] theorem get?_nil (k : κ) : get? k ([] : List (κ × α)) = none := rfl

theorem sorted_nil : Sorted ([] : List (κ × α)) := Pairwise.nil

variable {es : List (κ × α)}

theorem sorted_cons {e : κ × α} : Sorted (e :: es) ↔ (∀ e' ∈ es, e.1 < e'.1) ∧ Sorted es :=
  pairwise_cons

/-- An entry of a `put` is the new one or an old one. -/
theorem mem_put {k : κ} {v : α} {e : κ × α} (h : e ∈ put k v es) : e = (k, v) ∨ e ∈ es := by
  induction es with
  | nil => simpa [put] using h
  | cons head es ih =>
    obtain ⟨k', v'⟩ := head
    simp only [put] at h
    split at h
    · simpa using h
    split at h
    · next heq =>
        subst heq
        rcases List.mem_cons.mp h with h | h
        · exact Or.inl h
        · exact Or.inr (mem_cons_of_mem _ h)
    · rcases List.mem_cons.mp h with h | h
      · exact Or.inr (h ▸ mem_cons_self)
      · exact (ih h).imp_right (mem_cons_of_mem _)

theorem mem_erase {k : κ} {e : κ × α} (h : e ∈ erase k es) : e ∈ es := by
  induction es with
  | nil => exact h
  | cons head es ih =>
    simp only [erase] at h
    split at h
    · exact mem_cons_of_mem _ h
    · rcases List.mem_cons.mp h with h | h
      · exact h ▸ mem_cons_self
      · exact mem_cons_of_mem _ (ih h)

/-- `put` keeps the order. -/
theorem Sorted.put (h : Sorted es) (k : κ) (v : α) : Sorted (put k v es) := by
  induction es with
  | nil => exact pairwise_singleton _ _
  | cons head es ih =>
    obtain ⟨k', v'⟩ := head
    obtain ⟨hhead, htail⟩ := sorted_cons.mp h
    simp only [SortedMap.put]
    split
    · next hlt =>
        refine sorted_cons.mpr ⟨?_, h⟩
        intro e he
        rcases List.mem_cons.mp he with rfl | he
        · exact hlt
        · exact lt_trans hlt (hhead e he)
    split
    · exact sorted_cons.mpr ⟨hhead, htail⟩
    · next hnlt hne =>
        refine sorted_cons.mpr ⟨?_, ih htail⟩
        intro e he
        rcases mem_put he with rfl | he
        · exact lt_of_le_of_ne (not_lt.mp hnlt) (Ne.symm hne)
        · exact hhead e he

theorem Sorted.erase (h : Sorted es) (k : κ) : Sorted (erase k es) := by
  induction es with
  | nil => exact h
  | cons head es ih =>
    obtain ⟨hhead, htail⟩ := sorted_cons.mp h
    simp only [SortedMap.erase]
    split
    · exact htail
    · exact sorted_cons.mpr ⟨fun e he => hhead e (mem_erase he), ih htail⟩

theorem Sorted.putAll (h : Sorted es) (new : List (κ × α)) : Sorted (putAll es new) := by
  induction new generalizing es with
  | nil => exact h
  | cons e new ih => exact ih (h.put e.1 e.2)

theorem mem_putAll {es new : List (κ × α)} {e : κ × α} (h : e ∈ putAll es new) :
    e ∈ es ∨ e ∈ new := by
  induction new generalizing es with
  | nil => exact Or.inl h
  | cons head new ih =>
    rcases ih h with h | h
    · rcases mem_put h with rfl | h
      · exact Or.inr mem_cons_self
      · exact Or.inl h
    · exact Or.inr (mem_cons_of_mem _ h)

/-- A key above every key of the map is appended. -/
theorem put_of_forall_lt {k : κ} {v : α} (h : ∀ e ∈ es, e.1 < k) : put k v es = es ++ [(k, v)] := by
  induction es with
  | nil => rfl
  | cons head es ih =>
    have hlt : head.1 < k := h head mem_cons_self
    simp only [put, if_neg (lt_asymm hlt), if_neg (ne_of_gt hlt), cons_append,
      ih fun e he => h e (mem_cons_of_mem _ he)]

/-- Replacing the value at a key after the smaller ones. -/
theorem put_append_cons {k : κ} (v v' : α) (h : ∀ e ∈ es, e.1 < k)
    (rest : List (κ × α)) : put k v (es ++ (k, v') :: rest) = es ++ (k, v) :: rest := by
  induction es with
  | nil => simp [put]
  | cons head es ih =>
    have hlt : head.1 < k := h head mem_cons_self
    simp only [put, if_neg (lt_asymm hlt), if_neg (ne_of_gt hlt), cons_append,
      ih fun e he => h e (mem_cons_of_mem _ he)]

theorem get?_append_cons {k : κ} (v : α) (h : ∀ e ∈ es, e.1 < k)
    (rest : List (κ × α)) : get? k (es ++ (k, v) :: rest) = some v := by
  induction es with
  | nil => simp [get?]
  | cons head es ih =>
    have hlt : head.1 < k := h head mem_cons_self
    simp only [get?, if_neg (ne_of_gt hlt), cons_append, ih fun e he => h e (mem_cons_of_mem _ he)]

/-- Inserting sorted entries one by one, in order, rebuilds the map. -/
theorem putAll_append {es new : List (κ × α)} (h : Sorted (es ++ new)) :
    putAll es new = es ++ new := by
  induction new generalizing es with
  | nil => simp [putAll]
  | cons e new ih =>
    have hlast : ∀ e' ∈ es, e'.1 < e.1 := by
      intro e' he'
      exact (List.pairwise_append.mp h).2.2 e' he' e mem_cons_self
    have hstep : putAll es (e :: new) = putAll (put e.1 e.2 es) new := rfl
    rw [hstep, put_of_forall_lt hlast, ih (by simpa using h)]
    simp

theorem Sorted.putAll_nil (h : Sorted es) : SortedMap.putAll [] es = es :=
  putAll_append (by simpa using h)

/-! ### Lookup laws -/

theorem get?_eq_none {k : κ} : get? k es = none ↔ ∀ e ∈ es, e.1 ≠ k := by
  induction es with
  | nil => simp
  | cons head es ih =>
    obtain ⟨k', v⟩ := head
    simp only [get?, mem_cons, forall_eq_or_imp]
    split
    · next heq => simp [heq]
    · next hne => simp [ih, Ne.symm hne]

theorem get?_mem {k : κ} {v : α} (h : get? k es = some v) : (k, v) ∈ es := by
  induction es with
  | nil => cases h
  | cons head es ih =>
    obtain ⟨k', v'⟩ := head
    simp only [get?] at h
    split at h
    · next heq =>
        subst heq
        cases h
        exact mem_cons_self
    · exact mem_cons_of_mem _ (ih h)

/-- An entry is in a map iff it is looked up. -/
theorem Sorted.mem_iff (h : Sorted es) {k : κ} {v : α} : (k, v) ∈ es ↔ get? k es = some v := by
  refine ⟨?_, get?_mem⟩
  intro hmem
  induction es with
  | nil => cases hmem
  | cons e es ih =>
    obtain ⟨hhead, htail⟩ := sorted_cons.mp h
    rcases List.mem_cons.mp hmem with rfl | hmem
    · simp [get?]
    · have hne : k ≠ e.1 := ne_of_gt (hhead _ hmem)
      rw [get?, if_neg hne]
      exact ih htail hmem

theorem get?_put (k k' : κ) (v : α) (es : List (κ × α)) :
    get? k (put k' v es) = if k = k' then some v else get? k es := by
  induction es with
  | nil => rfl
  | cons head es ih =>
    obtain ⟨k₀, v₀⟩ := head
    simp only [put]
    split
    · rfl
    split
    · next heq =>
        subst heq
        simp only [get?]
        split <;> rfl
    · next hne =>
        simp only [get?, ih]
        split
        · next heq =>
            subst heq
            rw [if_neg (Ne.symm hne)]
        · rfl

theorem Sorted.get?_erase (h : Sorted es) (k k' : κ) :
    get? k (SortedMap.erase k' es) = if k = k' then none else get? k es := by
  induction es with
  | nil => simp [SortedMap.erase]
  | cons head es ih =>
    obtain ⟨k₀, v₀⟩ := head
    obtain ⟨hhead, htail⟩ := sorted_cons.mp h
    simp only [SortedMap.erase]
    split
    · next heq =>
        subst heq
        have hnone : get? k' es = none :=
          get?_eq_none.mpr fun e he => ne_of_gt (hhead e he)
        simp only [get?]
        split
        · next heq => rw [heq, hnone]
        · rfl
    · next hne =>
        simp only [get?, ih htail]
        split
        · next heq =>
            subst heq
            rw [if_neg (Ne.symm hne)]
        · rfl

/-- A sorted list is determined by its lookups. -/
theorem Sorted.ext {es es' : List (κ × α)} (h : Sorted es) (h' : Sorted es')
    (heq : ∀ k, get? k es = get? k es') : es = es' := by
  induction es generalizing es' with
  | nil =>
    cases es' with
    | nil => rfl
    | cons head es' => simpa [get?] using heq head.1
  | cons head es ih =>
    obtain ⟨k, v⟩ := head
    cases es' with
    | nil => simpa [get?] using heq k
    | cons head' es' =>
      obtain ⟨k', v'⟩ := head'
      obtain ⟨hhead, htail⟩ := sorted_cons.mp h
      obtain ⟨hhead', htail'⟩ := sorted_cons.mp h'
      have hk : k = k' := by
        rcases lt_trichotomy k k' with hlt | rfl | hlt
        · have hnone : get? k es' = none :=
            get?_eq_none.mpr fun e he => ne_of_gt (lt_trans hlt (hhead' e he))
          have hk := heq k
          simp [get?, ne_of_lt hlt, hnone] at hk
        · rfl
        · have hnone : get? k' es = none :=
            get?_eq_none.mpr fun e he => ne_of_gt (lt_trans hlt (hhead e he))
          have hk := heq k'
          simp [get?, ne_of_lt hlt, hnone] at hk
      subst hk
      have hv : v = v' := by simpa [get?] using heq k
      subst hv
      have hes : es = es' := by
        refine ih htail htail' fun j => ?_
        by_cases hj : j = k
        · subst hj
          rw [get?_eq_none.mpr fun e he => ne_of_gt (hhead e he),
            get?_eq_none.mpr fun e he => ne_of_gt (hhead' e he)]
        · simpa [get?, hj] using heq j
      rw [hes]

end SortedMap
