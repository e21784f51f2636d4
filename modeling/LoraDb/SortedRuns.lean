import LoraDb.SortedMap

/-!
# Searching Sorted Runs

A sorted sequence is kept in runs, and the runs in a table with one key for each. A search
finds the run by those keys and then the element in it; what is before the run it finds is
below the key it looks for, what is behind above.

## Main results

* `search_finds`: a binary search splits a run around the key, or around its element.
* `slotLast_split`, `slotFirst_split`: a table searched by the largest, or by the smallest,
  keys of its runs.
* `SortedMap.found`, `SortedMap.absent`: a map acts where the key is, or would go.
-/

namespace SortedRuns

open List

variable {κ α β : Type} [LinearOrder κ] {key : α → κ} {k : κ} {l : List α}

/-- Index of the first element that fails a test which those before it pass. -/
def partitionPoint (p : α → Bool) (l : List α) : ℕ := (l.takeWhile p).length

theorem partitionPoint_split (p : α → Bool) (l : List α) :
    ∃ as bs, l = as ++ bs ∧ as.length = partitionPoint p l ∧ (∀ a ∈ as, p a = true) ∧
      ∀ b ∈ bs.head?, p b = false :=
  ⟨l.takeWhile p, l.dropWhile p, List.takeWhile_append_dropWhile.symm, rfl,
    fun a ha => List.all_eq_true.mp all_takeWhile a ha, fun b hb => by
      have hnot := head?_dropWhile_not p l
      rw [Option.mem_def] at hb
      rwa [hb] at hnot⟩

/-- A split is the split at the partition point. -/
theorem partitionPoint_eq {p : α → Bool} {as bs : List α} (has : ∀ a ∈ as, p a = true)
    (hbs : ∀ b ∈ bs.head?, p b = false) : partitionPoint p (as ++ bs) = as.length := by
  rw [partitionPoint, takeWhile_append_of_pos has]
  cases bs with
  | nil => rw [takeWhile_nil, append_nil]
  | cons b bs =>
    have hb := hbs b rfl
    rw [takeWhile_cons_of_neg (by simp [hb]), append_nil]

/-! ### Edits at an index -/

section Edits

variable {as bs : List α} {a b : α}

theorem getElem?_mid : (as ++ a :: bs)[as.length]? = some a := by
  rw [getElem?_append_right (Nat.le_refl _), Nat.sub_self, getElem?_cons_zero]

theorem getElem?_mid_succ : (as ++ a :: b :: bs)[as.length + 1]? = some b := by
  rw [getElem?_append_right (Nat.le_add_right _ 1), Nat.add_sub_cancel_left, getElem?_cons_succ,
    getElem?_cons_zero]

theorem set_mid (a' : α) : (as ++ a :: bs).set as.length a' = as ++ a' :: bs := by
  rw [set_append_right _ _ (Nat.le_refl _), Nat.sub_self, set_cons_zero]

theorem insertIdx_mid : (as ++ bs).insertIdx as.length a = as ++ a :: bs := by
  induction as with
  | nil => rfl
  | cons _ as ih => rw [cons_append, length_cons, insertIdx_succ_cons, ih]; rfl

theorem insertIdx_mid_succ : (as ++ a :: bs).insertIdx (as.length + 1) b = as ++ a :: b :: bs := by
  have hcons : as ++ a :: bs = (as ++ [a]) ++ bs := by rw [append_assoc, singleton_append]
  have hlen : as.length + 1 = (as ++ [a]).length := by rw [length_append, length_singleton]
  rw [hcons, hlen, insertIdx_mid, append_assoc, singleton_append]

theorem eraseIdx_mid : (as ++ a :: bs).eraseIdx as.length = as ++ bs := by
  rw [eraseIdx_append_of_length_le (Nat.le_refl _), Nat.sub_self, eraseIdx_cons_zero]

theorem eraseIdx_mid_succ : (as ++ a :: b :: bs).eraseIdx (as.length + 1) = as ++ a :: bs := by
  rw [eraseIdx_append_of_length_le (Nat.le_add_right _ 1), Nat.add_sub_cancel_left,
    eraseIdx_cons_succ, eraseIdx_cons_zero]

theorem exists_mid {n : ℕ} (h : n < l.length) : ∃ as a bs, l = as ++ a :: bs ∧ as.length = n :=
  ⟨l.take n, l[n], l.drop (n + 1), by rw [getElem_cons_drop, take_append_drop],
    length_take_of_le (Nat.le_of_lt h)⟩

theorem exists_mid_succ {n : ℕ} (h : n + 1 < l.length) :
    ∃ as a b bs, l = as ++ a :: b :: bs ∧ as.length = n :=
  ⟨l.take n, l[n], l[n + 1], l.drop (n + 2), by
    rw [getElem_cons_drop, getElem_cons_drop, take_append_drop],
    length_take_of_le (by omega)⟩

end Edits

/-! ### Within a run -/

/-- The keys of a run **ascend**. -/
def Ascends (key : α → κ) (l : List α) : Prop := l.Pairwise (fun a b => key a < key b)

/-- A key put between the smaller and the larger ones. -/
theorem Ascends.insert {as bs : List α} {a : α} (h : Ascends key (as ++ bs))
    (has : ∀ x ∈ as, key x < key a) (hbs : ∀ x ∈ bs, key a < key x) :
    Ascends key (as ++ a :: bs) := by
  obtain ⟨hleft, hright, hcross⟩ := List.pairwise_append.mp h
  refine List.pairwise_append.mpr ⟨hleft, List.pairwise_cons.mpr ⟨hbs, hright⟩, fun x hx y hy => ?_⟩
  rcases List.mem_cons.mp hy with rfl | hy
  · exact has x hx
  · exact hcross x hx y hy

/-- Ascending keys are their set in order. -/
theorem ascends_sort {ks : List κ} (h : ks.Pairwise (· < ·)) : ks = ks.toFinset.sort :=
  ((toFinset_sort (· ≤ ·) h.nodup).mpr (h.imp le_of_lt)).symm

/-- A binary search: the index of the element with the key, or else where it would go. -/
def search (key : α → κ) (k : κ) (l : List α) : Except ℕ ℕ :=
  let pos := partitionPoint (fun a => decide (key a < k)) l
  if (l[pos]?).any (fun a => decide (key a = k)) then .ok pos else .error pos

/-- What a search **finds** in a run that ascends. -/
inductive Finds (key : α → κ) (k : κ) (l : List α) : Except ℕ ℕ → Prop
  | here {as bs : List α} {a : α} (hl : l = as ++ a :: bs) (ha : key a = k)
      (has : ∀ x ∈ as, key x < k) (hbs : ∀ x ∈ bs, k < key x) : Finds key k l (.ok as.length)
  | absent {as bs : List α} (hl : l = as ++ bs) (has : ∀ x ∈ as, key x < k)
      (hbs : ∀ x ∈ bs, k < key x) : Finds key k l (.error as.length)

/-- A search finds the key, or where it would go. -/
theorem search_finds (k : κ) (h : Ascends key l) : Finds key k l (search key k l) := by
  obtain ⟨as, bs, hl, hpos, has, hbs⟩ := partitionPoint_split (fun a => decide (key a < k)) l
  have hbelow : ∀ x ∈ as, key x < k := fun x hx => of_decide_eq_true (has x hx)
  rw [search]
  simp only [← hpos]
  subst hl
  cases bs with
  | nil =>
    rw [getElem?_eq_none (by simp), if_neg (by simp)]
    exact .absent rfl hbelow (fun x hx => absurd hx not_mem_nil)
  | cons b bs =>
    have hge : k ≤ key b := not_lt.mp (of_decide_eq_false (hbs b rfl))
    have hrest : ∀ x ∈ bs, key b < key x :=
      (List.pairwise_cons.mp (List.pairwise_append.mp h).2.1).1
    rw [getElem?_mid]
    split
    next hany =>
      have hb : key b = k := by simpa using hany
      exact .here rfl hb hbelow fun x hx => hb ▸ hrest x hx
    next hany =>
      have hb : key b ≠ k := by simpa using hany
      have hlt : k < key b := lt_of_le_of_ne hge hb.symm
      refine .absent rfl hbelow fun x hx => ?_
      rcases List.mem_cons.mp hx with rfl | hx
      · exact hlt
      · exact hlt.trans (hrest x hx)

/-- `m` is the **largest** key of the run. -/
def Largest (key : α → κ) (m : κ) (l : List α) : Prop := (∃ x ∈ l, key x = m) ∧ ∀ x ∈ l, key x ≤ m

/-- `m` is the **smallest** key of the run. -/
def Smallest (key : α → κ) (m : κ) (l : List α) : Prop := (∃ x ∈ l, key x = m) ∧ ∀ x ∈ l, m ≤ key x

section Largest

variable {m : κ} {as bs : List α} {a a' : α}

theorem Largest.ne_nil (h : Largest key m l) : l ≠ [] := by
  obtain ⟨⟨x, hx, -⟩, -⟩ := h
  exact ne_nil_of_mem hx

theorem Largest.insert (h : Largest key m (as ++ bs)) (ha : key a ≤ m) :
    Largest key m (as ++ a :: bs) := by
  obtain ⟨⟨x, hx, hkey⟩, hle⟩ := h
  refine ⟨⟨x, ?_, hkey⟩, fun y hy => ?_⟩
  · rw [mem_append, mem_cons]
    exact (List.mem_append.mp hx).imp_right .inr
  · rw [mem_append, mem_cons] at hy
    rcases hy with hy | rfl | hy
    · exact hle y (mem_append_left _ hy)
    · exact ha
    · exact hle y (mem_append_right _ hy)

theorem Largest.replace (h : Largest key m (as ++ a :: bs)) (ha : key a' = key a) :
    Largest key m (as ++ a' :: bs) := by
  obtain ⟨⟨x, hx, hkey⟩, hle⟩ := h
  refine ⟨?_, fun y hy => ?_⟩
  · rw [mem_append, mem_cons] at hx
    rcases hx with hx | rfl | hx
    · exact ⟨x, mem_append_left _ hx, hkey⟩
    · exact ⟨a', by simp, ha.trans hkey⟩
    · exact ⟨x, mem_append_right _ (mem_cons_of_mem _ hx), hkey⟩
  · rw [mem_append, mem_cons] at hy
    rcases hy with hy | rfl | hy
    · exact hle y (mem_append_left _ hy)
    · exact ha.trans_le (hle a (by simp))
    · exact hle y (mem_append_right _ (mem_cons_of_mem _ hy))

/-- The largest key of a run is in its later part. -/
theorem Largest.right (h : Largest key m (as ++ bs)) (hasc : Ascends key (as ++ bs))
    (hne : bs ≠ []) :
    Largest key m bs := by
  obtain ⟨b, hb⟩ := exists_mem_of_ne_nil _ hne
  obtain ⟨⟨x, hx, hkey⟩, hle⟩ := h
  refine ⟨?_, fun y hy => hle y (mem_append_right _ hy)⟩
  rcases List.mem_append.mp hx with hx | hx
  · have hlt := (List.pairwise_append.mp hasc).2.2 x hx b hb
    exact absurd (hle b (mem_append_right _ hb)) (not_le.mpr (hkey ▸ hlt))
  · exact ⟨x, hx, hkey⟩

end Largest

/-! ### Tables of runs -/

section Tables

variable {slots : List β} {tag : β → κ} {flat : β → List α}

/-- Of the runs in a table that ascends, those before one are below its elements, those
behind it above. -/
theorem ascends_split {as bs : List β} {s : β} (h : Ascends key ((as ++ s :: bs).flatMap flat)) :
    (∀ x ∈ as.flatMap flat, ∀ y ∈ flat s, key x < key y) ∧
      ∀ x ∈ bs.flatMap flat, ∀ y ∈ flat s, key y < key x := by
  rw [flatMap_append, flatMap_cons] at h
  obtain ⟨-, hrest, hbefore⟩ := List.pairwise_append.mp h
  exact ⟨fun x hx y hy => hbefore x hx y (mem_append_left _ hy),
    fun x hx y hy => (List.pairwise_append.mp hrest).2.2 y hy x hx⟩

/-- The largest key of a table is that of its last run. -/
theorem largest_concat {as : List β} {s : β} (hasc : Ascends key ((as ++ [s]).flatMap flat))
    (hs : Largest key (tag s) (flat s)) : Largest key (tag s) ((as ++ [s]).flatMap flat) := by
  obtain ⟨⟨y, hy, hkey⟩, hle⟩ := hs
  have hbelow := (ascends_split hasc).1
  rw [flatMap_append, flatMap_singleton]
  refine ⟨⟨y, mem_append_right _ hy, hkey⟩, fun x hx => ?_⟩
  rcases List.mem_append.mp hx with hx | hx
  · exact (hbelow x hx y hy).le.trans_eq hkey
  · exact hle x hx

/-- The smallest key of a table is that of its first run. -/
theorem smallest_cons {bs : List β} {s : β} (hasc : Ascends key ((s :: bs).flatMap flat))
    (hs : Smallest key (tag s) (flat s)) : Smallest key (tag s) ((s :: bs).flatMap flat) := by
  obtain ⟨⟨y, hy, hkey⟩, hle⟩ := hs
  have habove := (@ascends_split _ _ _ _ _ _ [] _ _ hasc).2
  rw [flatMap_cons]
  refine ⟨⟨y, mem_append_left _ hy, hkey⟩, fun x hx => ?_⟩
  rcases List.mem_append.mp hx with hx | hx
  · exact hle x hx
  · exact hkey.symm.trans_le (habove x hx y hy).le

/-- The slot that holds a key or would receive it, in a table of largest keys. -/
def slotLast (tag : β → κ) (k : κ) (slots : List β) : ℕ :=
  min (partitionPoint (fun s => decide (tag s < k)) slots) (slots.length - 1)

theorem slotLast_split (hne : slots ≠ []) (htag : ∀ s ∈ slots, Largest key (tag s) (flat s))
    (hasc : Ascends key (slots.flatMap flat)) (k : κ) :
    ∃ as s bs, slots = as ++ s :: bs ∧ slotLast tag k slots = as.length ∧
      (∀ x ∈ as.flatMap flat, key x < k) ∧ (∀ x ∈ bs.flatMap flat, k < key x) ∧
      ((∃ s' ∈ slots, k ≤ tag s') → k ≤ tag s) := by
  obtain ⟨as, bs, hl, hpos, has, hbs⟩ := partitionPoint_split (fun s => decide (tag s < k)) slots
  have hbelow : ∀ x ∈ as.flatMap flat, key x < k := by
    intro x hx
    obtain ⟨s, hs, hx⟩ := List.mem_flatMap.mp hx
    have hmem : s ∈ slots := hl ▸ mem_append_left _ hs
    exact ((htag s hmem).2 x hx).trans_lt (of_decide_eq_true (has s hs))
  rw [slotLast, ← hpos]
  cases bs with
  | cons s bs =>
    have hge : k ≤ tag s := not_lt.mp (of_decide_eq_false (hbs s rfl))
    have hmem : s ∈ slots := by simp [hl]
    obtain ⟨y, hy, hkey⟩ := (htag s hmem).1
    refine ⟨as, s, bs, hl, ?_, hbelow, fun x hx => ?_, fun _ => hge⟩
    · rw [hl, length_append, length_cons]
      exact Nat.min_eq_left (by omega)
    · have habove := (ascends_split (hl ▸ hasc)).2 x hx y hy
      exact (hge.trans_eq hkey.symm).trans_lt habove
  | nil =>
    rw [append_nil] at hl
    subst hl
    obtain ⟨as', s, rfl⟩ := (eq_nil_or_concat' slots).resolve_left hne
    refine ⟨as', s, [], rfl, by simp, fun x hx => ?_, by simp, fun ⟨s', hs', hle⟩ => ?_⟩
    · exact hbelow x (by rw [flatMap_append]; exact mem_append_left _ hx)
    · exact absurd (of_decide_eq_true (has s' hs')) (not_lt.mpr hle)

/-- The slot that holds a key or would receive it, in a table of smallest keys. -/
def slotFirst (tag : β → κ) (k : κ) (slots : List β) : ℕ :=
  partitionPoint (fun s => decide (tag s ≤ k)) slots - 1

theorem slotFirst_split (hne : slots ≠ []) (htag : ∀ s ∈ slots, Smallest key (tag s) (flat s))
    (hasc : Ascends key (slots.flatMap flat)) (k : κ) :
    ∃ as s bs, slots = as ++ s :: bs ∧ slotFirst tag k slots = as.length ∧
      (∀ x ∈ as.flatMap flat, key x < k) ∧ (∀ x ∈ bs.flatMap flat, k < key x) ∧
      (tag s ≤ k ∨ as = []) := by
  obtain ⟨as, bs, hl, hpos, has, hbs⟩ := partitionPoint_split (fun s => decide (tag s ≤ k)) slots
  -- Behind the split every slot is above the key.
  have habove : ∀ x ∈ bs.flatMap flat, k < key x := by
    cases bs with
    | nil => exact fun x hx => absurd hx not_mem_nil
    | cons b bs =>
      have hlt : k < tag b := not_le.mp (of_decide_eq_false (hbs b rfl))
      have hmem : b ∈ slots := by simp [hl]
      obtain ⟨y, hy, hkey⟩ := (htag b hmem).1
      intro x hx
      rw [flatMap_cons] at hx
      rcases List.mem_append.mp hx with hx | hx
      · exact hlt.trans_le ((htag b hmem).2 x hx)
      · exact (hlt.trans_eq hkey.symm).trans ((ascends_split (hl ▸ hasc)).2 x hx y hy)
  rw [slotFirst, ← hpos]
  rcases eq_nil_or_concat' as with rfl | ⟨as', s, rfl⟩
  · obtain ⟨s, bs', rfl⟩ : ∃ s bs', bs = s :: bs' :=
      exists_cons_of_ne_nil fun h => hne (by rw [hl, h]; rfl)
    refine ⟨[], s, bs', hl, rfl, by simp, fun x hx => habove x ?_, .inr rfl⟩
    rw [flatMap_cons]
    exact mem_append_right _ hx
  · have hle : tag s ≤ k := of_decide_eq_true (has s (by simp))
    rw [append_assoc, singleton_append] at hl
    have hmem : s ∈ slots := by simp [hl]
    obtain ⟨y, hy, hkey⟩ := (htag s hmem).1
    refine ⟨as', s, bs, hl, by simp, fun x hx => ?_, habove, .inl hle⟩
    exact ((ascends_split (hl ▸ hasc)).1 x hx y hy).trans_le (hkey.trans_le hle)

end Tables

end SortedRuns

/-! ### A map acts on the run found -/

namespace SortedMap

open List

variable {κ α : Type} [LinearOrder κ] {k : κ} {ps qs es : List (κ × α)}

theorem get?_above (hps : ∀ e ∈ ps, e.1 < k) : get? k (ps ++ es) = get? k es := by
  induction ps with
  | nil => rfl
  | cons e ps ih =>
    have hlt : e.1 < k := hps e mem_cons_self
    rw [cons_append, get?, if_neg (ne_of_gt hlt), ih fun e he => hps e (mem_cons_of_mem _ he)]

theorem put_above (v : α) (hps : ∀ e ∈ ps, e.1 < k) : put k v (ps ++ es) = ps ++ put k v es := by
  induction ps with
  | nil => rfl
  | cons e ps ih =>
    have hlt : e.1 < k := hps e mem_cons_self
    rw [cons_append, put, if_neg (lt_asymm hlt), if_neg (ne_of_gt hlt),
      ih fun e he => hps e (mem_cons_of_mem _ he), cons_append]

theorem erase_above (hps : ∀ e ∈ ps, e.1 < k) : erase k (ps ++ es) = ps ++ erase k es := by
  induction ps with
  | nil => rfl
  | cons e ps ih =>
    have hlt : e.1 < k := hps e mem_cons_self
    rw [cons_append, erase, if_neg (ne_of_gt hlt),
      ih fun e he => hps e (mem_cons_of_mem _ he), cons_append]

theorem get?_below (hqs : ∀ e ∈ qs, k < e.1) : get? k qs = none :=
  get?_eq_none.mpr fun e he => ne_of_gt (hqs e he)

theorem put_below (v : α) (hqs : ∀ e ∈ qs, k < e.1) : put k v qs = (k, v) :: qs := by
  cases qs with
  | nil => rfl
  | cons e qs => rw [put, if_pos (hqs e mem_cons_self)]

theorem erase_below (hqs : ∀ e ∈ qs, k < e.1) : erase k qs = qs := by
  induction qs with
  | nil => rfl
  | cons e qs ih =>
    rw [erase, if_neg (ne_of_lt (hqs e mem_cons_self)), ih fun e he => hqs e (mem_cons_of_mem _ he)]

/-- A key that is there. -/
theorem found {as bs : List (κ × α)} {old : α} (has : ∀ e ∈ as, e.1 < k) :
    get? k (as ++ (k, old) :: bs) = some old ∧
      (∀ v, put k v (as ++ (k, old) :: bs) = as ++ (k, v) :: bs) ∧
      erase k (as ++ (k, old) :: bs) = as ++ bs :=
  ⟨get?_append_cons old has bs, fun v => put_append_cons v old has bs, by
    rw [erase_above has, erase, if_pos rfl]⟩

/-- A key that is not there. -/
theorem absent {as bs : List (κ × α)} (has : ∀ e ∈ as, e.1 < k) (hbs : ∀ e ∈ bs, k < e.1) :
    get? k (as ++ bs) = none ∧ (∀ v, put k v (as ++ bs) = as ++ (k, v) :: bs) ∧
      erase k (as ++ bs) = as ++ bs :=
  ⟨by rw [get?_above has, get?_below hbs], fun v => by rw [put_above v has, put_below v hbs], by
    rw [erase_above has, erase_below hbs]⟩

/-- One entry more where the key was missing. -/
theorem Sorted.length_put (h : Sorted es) (k : κ) (v : α) :
    (SortedMap.put k v es).length = if (get? k es).isNone then es.length + 1 else es.length := by
  have hfinds := SortedRuns.search_finds k (show SortedRuns.Ascends Prod.fst es from h)
  generalize SortedRuns.search Prod.fst k es = out at hfinds
  cases hfinds with
  | @here as bs a hes ha has hbs =>
    obtain ⟨k', old⟩ := a
    obtain rfl : k' = k := ha
    obtain ⟨hget, hput, -⟩ := @found _ _ _ _ as bs old has
    rw [hes, hget, hput]
    simp
  | @absent as bs hes has hbs =>
    obtain ⟨hget, hput, -⟩ := absent has hbs
    rw [hes, hget, hput]
    simp [Nat.add_assoc]

theorem Sorted.length_erase (h : Sorted es) (k : κ) {v : α} (hget : get? k es = some v) :
    (SortedMap.erase k es).length = es.length - 1 := by
  have hfinds := SortedRuns.search_finds k (show SortedRuns.Ascends Prod.fst es from h)
  generalize SortedRuns.search Prod.fst k es = out at hfinds
  cases hfinds with
  | @here as bs a hes ha has hbs =>
    obtain ⟨k', old⟩ := a
    obtain rfl : k' = k := ha
    rw [hes, (@found _ _ _ _ as bs old has).2.2]
    simp
  | @absent as bs hes has hbs =>
    rw [hes, (absent has hbs).1] at hget
    cases hget

theorem Sorted.erase_absent (h : Sorted es) (k : κ) (hget : get? k es = none) :
    SortedMap.erase k es = es := by
  refine Sorted.ext (h.erase k) h fun k' => ?_
  rw [h.get?_erase]
  split_ifs with heq
  · rw [heq, hget]
  · rfl

/-- The last value under a key stays. -/
theorem Sorted.put_put (h : Sorted es) (k : κ) (v v' : α) :
    SortedMap.put k v' (SortedMap.put k v es) = SortedMap.put k v' es := by
  refine Sorted.ext ((h.put k v).put k v') (h.put k v') fun k' => ?_
  rw [get?_put, get?_put, get?_put]
  split_ifs <;> rfl

end SortedMap
