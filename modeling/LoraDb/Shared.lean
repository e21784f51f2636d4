import Mathlib.Data.List.Dedup
import Mathlib.Data.List.Perm.Basic
import Mathlib.Order.Basic

/-!
# Shared Cells

Cells behind counted pointers. A store is the list of the cells ever allocated, and the
address of a cell is its place in it. Owners hold pointers to cells; a cell pointed to
once may be written where it is, and a write to any other makes a copy first.

## Main results

* `owner_unique`, `eq_of_count_eq_one`: there is one way to a cell that is pointed to once.
* `makeMut_read`, `makeMut_other`: making a cell writable changes no cell, and the address to
  write to holds what the cell held.
-/

namespace Shared

open List

variable {α β : Type}

/-- Where a cell is allocated. -/
abbrev Addr := ℕ

/-- Number of pointers to `a` that the `owners` hold. -/
def strongCount (owners : List α) (cells : α → List Addr) (a : Addr) : ℕ :=
  (owners.flatMap cells).count a

/-- What a pointer reads. -/
def read (store : List β) (a : Addr) : Option β := store[a]?

/-- The cell to write instead of `a`: itself when pointed to once, else a copy. -/
def makeMut (store : List β) (count : ℕ) (a : Addr) : Option (List β × Addr) :=
  (read store a).map fun cell =>
    if count = 1 then (store, a) else (store ++ [cell], store.length)

theorem exists_read {store : List β} {a : Addr} (h : a < store.length) :
    ∃ cell, read store a = some cell :=
  ⟨store[a], getElem?_eq_getElem h⟩

/-! ### One way to a cell -/

/-- In a list with one `x` there is one place of it. -/
theorem index_unique [DecidableEq β] {xs : List β} {x : β} {i j : ℕ} (hcount : xs.count x ≤ 1)
    (hi : xs[i]? = some x) (hj : xs[j]? = some x) : i = j := by
  obtain ⟨hlt, hx⟩ := List.getElem?_eq_some_iff.mp hi
  by_contra hne
  have hmem : x ∈ xs.eraseIdx i := by
    rw [mem_eraseIdx_iff_getElem?]
    exact ⟨j, Ne.symm hne, hj⟩
  have hperm := getElem_cons_eraseIdx_perm hlt
  have hsplit := hperm.count_eq x
  rw [hx, count_cons_self] at hsplit
  have hpos := List.count_pos_iff.mpr hmem
  omega

/-- A cell pointed to once is of one of the owners listed. -/
theorem owner_unique {owners : List α} {cells : α → List Addr} {a : Addr} {p q : α} {i j : ℕ}
    (hcount : strongCount owners cells a = 1) (hi : owners[i]? = some p) (hj : owners[j]? = some q)
    (hp : a ∈ cells p) (hq : a ∈ cells q) : i = j := by
  obtain ⟨hlt, hx⟩ := List.getElem?_eq_some_iff.mp hi
  by_contra hne
  have hperm := (getElem_cons_eraseIdx_perm hlt).flatMap_right cells
  have hsplit := hperm.count_eq a
  rw [hx, flatMap_cons, count_append] at hsplit
  rw [strongCount] at hcount
  have hmem : a ∈ (owners.eraseIdx i).flatMap cells := by
    refine List.mem_flatMap.mpr ⟨q, ?_, hq⟩
    rw [mem_eraseIdx_iff_getElem?]
    exact ⟨j, Ne.symm hne, hj⟩
  have hone := List.count_pos_iff.mpr hp
  have hmore := List.count_pos_iff.mpr hmem
  omega

/-- A cell pointed to once is reached from one owner, in one place. -/
theorem eq_of_count_eq_one [DecidableEq α] {owners : List α} {cells : α → List Addr} {a : Addr}
    {p q : α} {i j : ℕ} (hcount : strongCount owners cells a = 1) (hp : p ∈ owners)
    (hq : q ∈ owners) (hi : (cells p)[i]? = some a) (hj : (cells q)[j]? = some a) :
    p = q ∧ i = j := by
  have hsplit := (perm_cons_erase hp).flatMap_right cells
  have hsum := hsplit.count_eq a
  rw [flatMap_cons, count_append] at hsum
  rw [strongCount] at hcount
  have hone : 1 ≤ (cells p).count a := List.count_pos_iff.mpr (mem_of_getElem? hi)
  by_cases hpq : p = q
  · subst hpq
    refine ⟨rfl, index_unique ?_ hi hj⟩
    omega
  · have hmem : a ∈ (owners.erase p).flatMap cells := by
      refine List.mem_flatMap.mpr ⟨q, ?_, mem_of_getElem? hj⟩
      exact (mem_erase_of_ne (Ne.symm hpq)).mpr hq
    have hmore := List.count_pos_iff.mpr hmem
    omega

/-! ### Copying before a write -/

variable {store store' : List β} {count : ℕ} {a b : Addr} {cell : β}

theorem read_lt (h : read store a = some cell) : a < store.length :=
  (List.getElem?_eq_some_iff.mp h).1

/-- Cells allocated later leave the others as they are. -/
theorem read_append (h : read store a = some cell) (more : List β) :
    read (store ++ more) a = some cell := by
  rw [read, getElem?_append_left (read_lt h)]
  exact h

theorem read_set_ne (h : a ≠ b) : read (store.set b cell) a = read store a :=
  getElem?_set_ne (Ne.symm h)

theorem read_set_self (h : a < store.length) : read (store.set a cell) a = some cell :=
  getElem?_set_self h

/-- A cell made writable is the old one, or new. -/
theorem makeMut_cases (h : makeMut store count a = some (store', b)) :
    (count = 1 ∧ store' = store ∧ b = a) ∨
      ∃ cell, read store a = some cell ∧ store' = store ++ [cell] ∧ b = store.length := by
  obtain ⟨cell, hcell, heq⟩ := Option.map_eq_some_iff.mp h
  split at heq
  next hone =>
    obtain ⟨rfl, rfl⟩ := Prod.mk.inj heq
    exact Or.inl ⟨hone, rfl, rfl⟩
  next =>
    obtain ⟨rfl, rfl⟩ := Prod.mk.inj heq
    exact Or.inr ⟨cell, hcell, rfl, rfl⟩

theorem makeMut_isSome (h : read store a = some cell) (count : ℕ) :
    ∃ store' b, makeMut store count a = some (store', b) := by
  rw [makeMut, h, Option.map_some]
  split
  · exact ⟨_, _, rfl⟩
  · exact ⟨_, _, rfl⟩

/-- Making a cell writable leaves every cell as it was. -/
theorem makeMut_other (h : makeMut store count a = some (store', b)) {other : Addr} {held : β}
    (hother : read store other = some held) : read store' other = some held := by
  rcases makeMut_cases h with ⟨-, rfl, -⟩ | ⟨cell, -, rfl, -⟩
  · exact hother
  · exact read_append hother _

/-- The cell to write holds what the cell held. -/
theorem makeMut_read (h : makeMut store count a = some (store', b)) :
    read store' b = read store a := by
  rcases makeMut_cases h with ⟨-, rfl, rfl⟩ | ⟨cell, hcell, rfl, rfl⟩
  · rfl
  · rw [hcell, read, getElem?_append_right (Nat.le_refl _), Nat.sub_self]
    rfl

end Shared
