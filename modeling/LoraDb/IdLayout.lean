import LoraDb.StrPostings

/-!
# Layouts of Id Sets

A set of ids lies in memory as one id, as one sorted list, or as groups of sorted chunks. A
scan enters it behind a cursor, from either end.

## Main results

* `View.iterAfter_eq`: the ids behind a cursor, in the direction of the scan, whatever the
  layout.
-/

open List

namespace LoraDb

namespace StrIndex

/-- The layout of an id set. -/
inductive View where
  | one (id : ℕ)
  | small (ids : List ℕ)
  | large (groups : List (List (List ℕ)))

/-- Index of the first element that fails a test which those before it pass. -/
def partitionPoint {α : Type} (p : α → Bool) (l : List α) : ℕ := (l.takeWhile p).length

/-- The chunk that holds `id` or would receive it: the first whose last id is at least `id`,
else the last one. -/
def chunkFor (chunks : List (List ℕ)) (id : ℕ) : ℕ :=
  min (partitionPoint (fun chunk => decide (chunk.getLastD 0 < id)) chunks) (chunks.length - 1)

def lastId (group : List (List ℕ)) : ℕ := (group.getLastD []).getLastD 0

/-- Group and chunk that hold `id` or would receive it. -/
def locate (groups : List (List (List ℕ))) (id : ℕ) : ℕ × ℕ :=
  let g := min (partitionPoint (fun group => decide (lastId group < id)) groups) (groups.length - 1)
  (g, chunkFor (groups.getD g []) id)

namespace View

def ids : View → List ℕ
  | .one id => [id]
  | .small ids => ids
  | .large groups => groups.flatten.flatten

/-- The ids strictly after a cursor in the given direction, in that direction. -/
def iterAfter (view : View) (cursor : Option ℕ) (descending : Bool) : List ℕ :=
  match view, cursor with
  | view, none => if descending then view.ids.reverse else view.ids
  | .one id, some c =>
    if (if descending then decide (id < c) else decide (c < id)) then [id] else []
  | .small ids, some c =>
    if descending then (ids.take (partitionPoint (fun id => decide (id < c)) ids)).reverse
    else ids.drop (partitionPoint (fun id => decide (id ≤ c)) ids)
  | .large groups, some c =>
    let g := (locate groups c).1
    let pos := (locate groups c).2
    let chunks := groups.getD g []
    let chunk := chunks.getD pos []
    if descending then
      (chunk.take (partitionPoint (fun id => decide (id < c)) chunk)).reverse ++
        (((chunks.take pos).reverse ++
          (groups.take g).reverse.flatMap List.reverse).flatMap List.reverse)
    else
      chunk.drop (partitionPoint (fun id => decide (id ≤ c)) chunk) ++
        (chunks.drop (pos + 1) ++ (groups.drop (g + 1)).flatten).flatten

/-- Ids ascend, and no group or chunk is empty. -/
structure Wellformed (view : View) : Prop where
  ascending : view.ids.Pairwise (· < ·)
  full : ∀ groups, view = .large groups → groups ≠ [] ∧
    ∀ chunks ∈ groups, chunks ≠ [] ∧ ∀ chunk ∈ chunks, chunk ≠ []

/-! ### Sorted lists -/

section Sorted

variable {l : List ℕ} {c : ℕ}

theorem take_partitionPoint {α : Type} (p : α → Bool) (l : List α) :
    l.take (partitionPoint p l) = l.takeWhile p := by
  have hsplit := @takeWhile_append_dropWhile _ p l
  have hleft := @take_left _ (l.takeWhile p) (l.dropWhile p)
  rwa [hsplit] at hleft

theorem drop_partitionPoint {α : Type} (p : α → Bool) (l : List α) :
    l.drop (partitionPoint p l) = l.dropWhile p := by
  have hsplit := @takeWhile_append_dropWhile _ p l
  have hleft := @drop_left _ (l.takeWhile p) (l.dropWhile p)
  rwa [hsplit] at hleft

theorem takeWhile_lt (h : l.Pairwise (· < ·)) :
    l.takeWhile (fun id => decide (id < c)) = l.filter fun id => decide (id < c) := by
  induction l with
  | nil => rfl
  | cons id l ih =>
    obtain ⟨hid, hl⟩ := pairwise_cons.mp h
    rw [takeWhile_cons, filter_cons]
    split_ifs with hlt
    · rw [ih hl]
    · refine (filter_eq_nil_iff.mpr fun other hother => ?_).symm
      have hother' := hid other hother
      simp only [decide_eq_true_eq] at hlt ⊢
      omega

theorem dropWhile_le (h : l.Pairwise (· < ·)) :
    l.dropWhile (fun id => decide (id ≤ c)) = l.filter fun id => decide (c < id) := by
  induction l with
  | nil => rfl
  | cons id l ih =>
    obtain ⟨hid, hl⟩ := pairwise_cons.mp h
    rw [dropWhile_cons, filter_cons]
    by_cases hle : id ≤ c
    · rw [if_pos (decide_eq_true hle), if_neg (by simpa using hle), ih hl]
    · rw [if_neg (by simpa using hle), if_pos (decide_eq_true (not_le.mp hle))]
      congr 1
      refine (filter_eq_self.mpr fun other hother => ?_).symm
      have hother' := hid other hother
      simp only [decide_eq_true_eq]
      omega

end Sorted

/-- A layout around a place for `c`: what is before it is below `c`, what is behind above. -/
theorem split_at {as bs cs : List ℕ} {c : ℕ} (has : ∀ id ∈ as, id < c) (hcs : ∀ id ∈ cs, c < id) :
    (as ++ (bs ++ cs)).filter (fun id => decide (c < id)) =
        bs.filter (fun id => decide (c < id)) ++ cs ∧
      (as ++ (bs ++ cs)).filter (fun id => decide (id < c)) =
        as ++ bs.filter fun id => decide (id < c) := by
  have hnone : as.filter (fun id => decide (c < id)) = [] := filter_eq_nil_iff.mpr fun id hid => by
    have hlt := has id hid
    simp only [decide_eq_true_eq]
    omega
  have hnone' : cs.filter (fun id => decide (id < c)) = [] := filter_eq_nil_iff.mpr fun id hid => by
    have hlt := hcs id hid
    simp only [decide_eq_true_eq]
    omega
  have hall : as.filter (fun id => decide (id < c)) = as :=
    filter_eq_self.mpr fun id hid => decide_eq_true (has id hid)
  have hall' : cs.filter (fun id => decide (c < id)) = cs :=
    filter_eq_self.mpr fun id hid => decide_eq_true (hcs id hid)
  simp only [filter_append, hnone, hnone', hall, hall', nil_append, append_nil]
  exact ⟨trivial, trivial⟩

/-- Of lists that ascend from one to the next, the one found by its last element: those
before it are below `c`, those behind it above. -/
theorem partition_split {α : Type} {l : List α} {f : α → List ℕ} {last : α → ℕ} {c : ℕ}
    (hlast : ∀ a ∈ l, last a ∈ f a ∧ ∀ id ∈ f a, id ≤ last a)
    (hasc : (l.flatMap f).Pairwise (· < ·)) (hne : l ≠ []) {n : ℕ}
    (hn : n = min (partitionPoint (fun a => decide (last a < c)) l) (l.length - 1)) :
    ∃ a, l = l.take n ++ a :: l.drop (n + 1) ∧ l[n]? = some a ∧
      (∀ id ∈ (l.take n).flatMap f, id < c) ∧ ∀ id ∈ (l.drop (n + 1)).flatMap f, c < id := by
  have hpos : 0 < l.length := length_pos_iff.mpr hne
  have hlt : n < l.length := by omega
  have hsplit : l = l.take n ++ l[n] :: l.drop (n + 1) := by
    rw [getElem_cons_drop, take_append_drop]
  refine ⟨l[n], hsplit, getElem?_eq_getElem hlt, ?_, ?_⟩
  · intro id hid
    obtain ⟨a, ha, hid⟩ := mem_flatMap.mp hid
    have htake : l.take n = (l.take (partitionPoint (fun a => decide (last a < c)) l)).take n := by
      rw [take_take, min_eq_left (by omega)]
    rw [htake, take_partitionPoint] at ha
    have hpass := all_eq_true.mp all_takeWhile a (mem_of_mem_take ha)
    have hmem : a ∈ l := (takeWhile_sublist _).subset (mem_of_mem_take ha)
    exact lt_of_le_of_lt ((hlast a hmem).2 id hid) (of_decide_eq_true hpass)
  · intro id hid
    rcases Nat.lt_or_ge (n + 1) l.length with hmore | hend
    · have hfound : n = partitionPoint (fun a => decide (last a < c)) l := by omega
      have hfails := head?_dropWhile_not (fun a => decide (last a < c)) l
      rw [← drop_partitionPoint, ← hfound, ← getElem_cons_drop (h := hlt), head?_cons] at hfails
      have hle : c ≤ last l[n] := not_lt.mp (of_decide_eq_false hfails)
      have hpair := hasc
      rw [hsplit, flatMap_append, flatMap_cons] at hpair
      have hgt := (pairwise_append.mp (pairwise_append.mp hpair).2.1).2.2 (last l[n])
        (hlast _ (getElem_mem hlt)).1 id hid
      exact lt_of_le_of_lt hle hgt
    · rw [drop_eq_nil_of_le hend] at hid
      cases hid

theorem last_mem {chunk : List ℕ} (hne : chunk ≠ []) (hasc : chunk.Pairwise (· < ·)) :
    chunk.getLastD 0 ∈ chunk ∧ ∀ id ∈ chunk, id ≤ chunk.getLastD 0 := by
  have hlast : chunk.getLastD 0 = chunk.getLast hne := by
    rw [getLastD_eq_getLast?, getLast?_eq_some_getLast hne, Option.getD_some]
  rw [hlast]
  refine ⟨getLast_mem hne, fun id hid => ?_⟩
  have hsplit := dropLast_append_getLast hne
  rw [← hsplit] at hid hasc
  rcases mem_append.mp hid with hid | hid
  · exact ((pairwise_append.mp hasc).2.2 id hid _ (mem_singleton.mpr rfl)).le
  · exact (mem_singleton.mp hid).le

theorem pairwise_of_mem {ls : List (List ℕ)} {l : List ℕ} (h : ls.flatten.Pairwise (· < ·))
    (hl : l ∈ ls) : l.Pairwise (· < ·) :=
  h.sublist (sublist_flatten_of_mem hl)

theorem lastId_mem {group : List (List ℕ)} (hne : group ≠ []) (hfull : ∀ chunk ∈ group, chunk ≠ [])
    (hasc : group.flatten.Pairwise (· < ·)) :
    lastId group ∈ group.flatten ∧ ∀ id ∈ group.flatten, id ≤ lastId group := by
  have hlast : group.getLastD [] = group.getLast hne := by
    rw [getLastD_eq_getLast?, getLast?_eq_some_getLast hne, Option.getD_some]
  have hmem := getLast_mem hne
  have hchunk := last_mem (hfull _ hmem) (pairwise_of_mem hasc hmem)
  rw [lastId, hlast]
  refine ⟨mem_flatten.mpr ⟨_, hmem, hchunk.1⟩, fun id hid => ?_⟩
  have hsplit := dropLast_append_getLast hne
  rw [← hsplit, flatten_append, flatten_singleton] at hid hasc
  rcases mem_append.mp hid with hid | hid
  · exact ((pairwise_append.mp hasc).2.2 id hid _ hchunk.1).le
  · exact hchunk.2 id hid

/-- The located chunk: the ids before it are below the cursor, those behind it above. -/
theorem locate_spec {groups : List (List (List ℕ))} (hne : groups ≠ [])
    (hfull : ∀ chunks ∈ groups, chunks ≠ [] ∧ ∀ chunk ∈ chunks, chunk ≠ [])
    (hasc : groups.flatten.flatten.Pairwise (· < ·)) (c : ℕ) :
    ∃ chunks chunk as cs, groups.flatten.flatten = as ++ (chunk ++ cs) ∧
      groups[(locate groups c).1]? = some chunks ∧
      chunks[(locate groups c).2]? = some chunk ∧ (∀ id ∈ as, id < c) ∧ (∀ id ∈ cs, c < id) ∧
      ((groups.take (locate groups c).1).flatten ++ chunks.take (locate groups c).2).flatten = as ∧
      (chunks.drop ((locate groups c).2 + 1) ++
        (groups.drop ((locate groups c).1 + 1)).flatten).flatten = cs := by
  have hflat : groups.flatten.flatten = groups.flatMap List.flatten := by
    rw [flatten_flatten, flatMap_def]
  have hasc' : (groups.flatMap List.flatten).Pairwise (· < ·) := hflat ▸ hasc
  have hgroup : ∀ chunks ∈ groups, chunks.flatten.Pairwise (· < ·) := by
    intro chunks hchunks
    rw [flatMap_def] at hasc'
    exact pairwise_of_mem hasc' (mem_map_of_mem hchunks)
  have hlasts : ∀ chunks ∈ groups, lastId chunks ∈ chunks.flatten ∧
      ∀ id ∈ chunks.flatten, id ≤ lastId chunks := fun chunks hchunks =>
    lastId_mem (hfull chunks hchunks).1 (hfull chunks hchunks).2 (hgroup chunks hchunks)
  obtain ⟨chunks, hsplit, hget, hbelow, habove⟩ :=
    partition_split hlasts hasc' hne (rfl : (locate groups c).1 = _)
  have hmem : chunks ∈ groups := mem_of_getElem? hget
  have hpos : (locate groups c).2 = min (partitionPoint
      (fun chunk => decide (chunk.getLastD 0 < c)) chunks) (chunks.length - 1) := by
    have hgetD : groups.getD (locate groups c).1 [] = chunks := by
      rw [List.getD_eq_getElem?_getD, hget, Option.getD_some]
    rw [← hgetD]
    rfl
  have hchunks : (chunks.flatMap id).Pairwise (· < ·) := by
    rw [flatMap_id]
    exact hgroup chunks hmem
  obtain ⟨chunk, hsplit', hget', hbelow', habove'⟩ :=
    partition_split (fun chunk hchunk => last_mem ((hfull chunks hmem).2 chunk hchunk)
      (pairwise_of_mem (hgroup chunks hmem) hchunk)) hchunks (hfull chunks hmem).1 hpos
  refine ⟨chunks, chunk, _, _, ?_, hget, hget', ?_, ?_, rfl, rfl⟩
  · conv_lhs => rw [hsplit, hsplit']
    simp
  · intro id hid
    rw [flatten_append] at hid
    rcases mem_append.mp hid with hid | hid
    · refine hbelow id ?_
      rwa [flatten_flatten, ← flatMap_def] at hid
    · exact hbelow' id (by rwa [flatMap_id'])
  · intro id hid
    rw [flatten_append] at hid
    rcases mem_append.mp hid with hid | hid
    · exact habove' id (by rwa [flatMap_id'])
    · refine habove id ?_
      rwa [flatten_flatten, ← flatMap_def] at hid

theorem reverse_flatten_eq {α : Type} (ls : List (List α)) :
    ls.flatten.reverse = ls.reverse.flatMap List.reverse := by
  induction ls with
  | nil => rfl
  | cons l ls ih =>
    rw [flatten_cons, reverse_append, ih, reverse_cons, flatMap_append, flatMap_cons,
      flatMap_nil, append_nil]

/-- The ids behind a cursor, in the direction of the scan. -/
theorem iterAfter_eq {view : View} (h : view.Wellformed) (cursor : Option ℕ) (descending : Bool) :
    view.iterAfter cursor descending = if descending
      then (view.ids.filter fun id => cursor.all fun c => decide (id < c)).reverse
      else view.ids.filter fun id => cursor.all fun c => decide (c < id) := by
  cases cursor with
  | none =>
    simp only [Option.all_none, filter_true]
    cases view <;> rfl
  | some c =>
    simp only [Option.all_some]
    cases view with
    | one id =>
      cases descending with
      | false => simp only [iterAfter, ids, filter_cons, filter_nil, Bool.false_eq_true, if_false]
      | true =>
        simp only [iterAfter, ids, filter_cons, filter_nil, if_true]
        split_ifs <;> rfl
    | small l =>
      have hasc : l.Pairwise (· < ·) := h.ascending
      rw [iterAfter, take_partitionPoint, drop_partitionPoint, takeWhile_lt hasc, dropWhile_le hasc]
      rfl
    | large groups =>
      obtain ⟨hne, hfull⟩ := h.full groups rfl
      obtain ⟨chunks, chunk, as, cs, hids, hg, hpos, has, hcs, hbefore, hbehind⟩ :=
        locate_spec hne hfull h.ascending c
      obtain ⟨hafter, hbelow⟩ := @split_at as chunk cs c has hcs
      have hasc : chunk.Pairwise (· < ·) := by
        have hall : groups.flatten.flatten.Pairwise (· < ·) := h.ascending
        rw [hids] at hall
        exact (pairwise_append.mp (pairwise_append.mp hall).2.1).1
      simp only [iterAfter, List.getD_eq_getElem?_getD, hg, hpos, Option.getD_some,
        take_partitionPoint, drop_partitionPoint, takeWhile_lt hasc, dropWhile_le hasc]
      rw [show (large groups).ids = as ++ (chunk ++ cs) from hids, hafter, hbelow, ← hbefore,
        ← hbehind]
      cases descending with
      | false => rfl
      | true =>
        simp only [if_true, reverse_append, reverse_flatten_eq]

end View

end StrIndex

end LoraDb
