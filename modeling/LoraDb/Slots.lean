import Mathlib.Data.Finset.Basic

/-!
# Slots

A table of values by index in which a slot may be empty: what storage indexed by never
reused identifiers looks like. It grows at the end; setting and emptying a slot leave every
other slot alone.

## Main results

* `get_set`, `get_remove`, `get_growTo`: what each slot holds after each operation.
* `count_set`, `count_remove`: the number of filled slots changes by the slot written.
* `putAll_free`: slots that are empty are all filled, and no others.
-/

/-- A table of **slots**, filled or empty. -/
structure Slots (α : Type) where
  cells : List (Option α)
deriving DecidableEq

namespace Slots

variable {α : Type} {s t : Slots α} {i j n : ℕ} {a : α}

/-- No slots. -/
def empty : Slots α := ⟨[]⟩

/-- Number of slots, filled or not. -/
def len (s : Slots α) : ℕ := s.cells.length

/-- What slot `i` holds. -/
def get (s : Slots α) (i : ℕ) : Option α := s.cells[i]?.join

def contains (s : Slots α) (i : ℕ) : Bool := (s.get i).isSome

/-- Fill slot `i`, replacing what it held. -/
def set (s : Slots α) (i : ℕ) (a : α) : Slots α := ⟨s.cells.set i (some a)⟩

/-- Empty slot `i`. -/
def remove (s : Slots α) (i : ℕ) : Slots α := ⟨s.cells.set i none⟩

/-- Grow to `n` slots, the new ones empty. Never shrinks. -/
def growTo (s : Slots α) (n : ℕ) : Slots α :=
  ⟨s.cells ++ List.replicate (n - s.len) none⟩

/-- Number of filled slots. -/
def count (s : Slots α) : ℕ := s.cells.countP Option.isSome

/-- The filled slots, in order. -/
def slots (s : Slots α) : List ℕ := (List.range s.len).filter s.contains

/-- Fill slots one by one, up to the first that is filled already. Returns that slot, or how
many were filled on top of `n`. -/
def putAll (s : Slots α) : List (ℕ × α) → ℕ → Slots α × Except ℕ ℕ
  | [], n => (s, .ok n)
  | (i, a) :: rest, n =>
    if s.contains i then (s, .error i) else (s.set i a).putAll rest (n + 1)

/-! ### What a slot holds -/

theorem ext (hlen : s.len = t.len) (h : ∀ i, s.get i = t.get i) : s = t := by
  obtain ⟨cells⟩ := s
  obtain ⟨cells'⟩ := t
  have hcells : cells = cells' := by
    refine List.ext_getElem hlen ?_
    intro i hi hi'
    have hget := h i
    rwa [get, get, List.getElem?_eq_getElem hi, List.getElem?_eq_getElem hi', Option.join_some,
      Option.join_some] at hget
  rw [hcells]

@[simp] theorem len_set : (s.set i a).len = s.len := List.length_set

@[simp] theorem len_remove : (s.remove i).len = s.len := List.length_set

@[simp] theorem len_growTo : (s.growTo n).len = max s.len n := by
  simp only [growTo, len, List.length_append, List.length_replicate]
  omega

@[simp] theorem get_empty : (empty : Slots α).get i = none := rfl

/-- A filled slot is within the table. -/
theorem lt_of_get (h : s.get i = some a) : i < s.len := by
  by_contra hge
  rw [get, List.getElem?_eq_none (Nat.not_lt.mp hge)] at h
  cases h

theorem get_set (hi : i < s.len) : (s.set i a).get j = if j = i then some a else s.get j := by
  simp only [get, set, List.getElem?_set]
  by_cases hij : i = j
  · subst hij
    simp [show i < s.cells.length from hi]
  · rw [if_neg hij, if_neg (Ne.symm hij)]

theorem get_remove : (s.remove i).get j = if j = i then none else s.get j := by
  simp only [get, remove, List.getElem?_set]
  by_cases hij : i = j
  · subst hij
    by_cases hi : i < s.cells.length <;> simp [hi]
  · rw [if_neg hij, if_neg (Ne.symm hij)]

@[simp] theorem get_growTo : (s.growTo n).get j = s.get j := by
  simp only [get, growTo, List.getElem?_append]
  split
  next hj => rfl
  next hj =>
    rw [List.getElem?_eq_none (Nat.not_lt.mp hj), List.getElem?_replicate]
    split <;> rfl

theorem contains_iff : s.contains i = true ↔ ∃ a, s.get i = some a := Option.isSome_iff_exists

theorem contains_eq_false : s.contains i = false ↔ s.get i = none := by
  rw [contains, Option.isSome_eq_false_iff, Option.isNone_iff_eq_none]

/-! ### How many are filled -/

theorem count_set (hi : i < s.len) :
    (s.set i a).count + (if s.contains i then 1 else 0) = s.count + 1 := by
  have hi' : i < s.cells.length := hi
  have hget : s.get i = s.cells[i] := by rw [get, List.getElem?_eq_getElem hi', Option.join_some]
  simp only [count, set, contains, hget, List.countP_set hi']
  split
  next h =>
    have hpos : 0 < s.cells.countP Option.isSome :=
      List.countP_pos_iff.mpr ⟨_, List.getElem_mem hi', h⟩
    simp
    omega
  next h => simp

theorem count_remove (h : s.contains i = true) : (s.remove i).count + 1 = s.count := by
  obtain ⟨a, ha⟩ := contains_iff.mp h
  have hi : i < s.cells.length := lt_of_get ha
  have hget : s.cells[i] = some a := by
    rwa [get, List.getElem?_eq_getElem hi, Option.join_some] at ha
  have hpos : 0 < s.cells.countP Option.isSome :=
    List.countP_pos_iff.mpr ⟨_, List.getElem_mem hi, by rw [hget]; rfl⟩
  simp only [count, remove, List.countP_set hi, hget]
  simp
  omega

@[simp] theorem count_growTo : (s.growTo n).count = s.count := by
  simp [count, growTo, List.countP_append, List.countP_replicate]

/-! ### Filling many -/

variable {xs ys : List (ℕ × α)}

@[simp] theorem len_putAll : (s.putAll xs n).1.len = s.len := by
  induction xs generalizing s n with
  | nil => rfl
  | cons x xs ih =>
    rw [putAll]
    split
    next => rfl
    next => rw [ih, len_set]

theorem putAll_append : s.putAll (xs ++ ys) n =
    match s.putAll xs n with
    | (t, .ok n) => t.putAll ys n
    | (t, .error i) => (t, .error i) := by
  induction xs generalizing s n with
  | nil => rfl
  | cons x xs ih =>
    rw [List.cons_append, putAll, putAll]
    split
    next => rfl
    next => exact ih

/-- Slots that are empty are all filled, and no others. -/
theorem putAll_free (hempty : ∀ x ∈ xs, s.get x.1 = none) (hnodup : (xs.map Prod.fst).Nodup)
    (hlt : ∀ x ∈ xs, x.1 < s.len) :
    (s.putAll xs n).2 = .ok (n + xs.length) ∧ (∀ x ∈ xs, (s.putAll xs n).1.get x.1 = some x.2) ∧
      ∀ j, j ∉ xs.map Prod.fst → (s.putAll xs n).1.get j = s.get j := by
  induction xs generalizing s n with
  | nil => exact ⟨rfl, fun _ hx => absurd hx List.not_mem_nil, fun _ _ => rfl⟩
  | cons x xs ih =>
    obtain ⟨hnot, hrest⟩ := List.nodup_cons.mp hnodup
    have hx := hlt x List.mem_cons_self
    have hne : ∀ y ∈ xs, y.1 ≠ x.1 := fun y hy heq =>
      hnot (heq ▸ List.mem_map_of_mem hy)
    obtain ⟨hresult, hfilled, hother⟩ := @ih (s.set x.1 x.2) (n + 1) (fun y hy => by
        rw [get_set hx, if_neg (hne y hy)]
        exact hempty y (List.mem_cons_of_mem _ hy))
      hrest (fun y hy => by
        rw [len_set]
        exact hlt y (List.mem_cons_of_mem _ hy))
    have hstep : s.putAll (x :: xs) n = (s.set x.1 x.2).putAll xs (n + 1) := by
      rw [putAll, if_neg]
      rw [Bool.not_eq_true, contains_eq_false]
      exact hempty x List.mem_cons_self
    rw [hstep]
    refine ⟨?_, ?_, ?_⟩
    · rw [hresult, List.length_cons]
      congr 1
      omega
    · intro y hy
      rcases List.mem_cons.mp hy with rfl | hmem
      · rw [hother _ hnot, get_set hx, if_pos rfl]
      · exact hfilled y hmem
    · intro j hj
      rw [List.map_cons, List.mem_cons, not_or] at hj
      rw [hother j hj.2, get_set hx, if_neg hj.1]

end Slots
