import LoraDb.TopK
import Mathlib

/-!
# Sorting Rows Under a Bound

`ORDER BY` sorts rows by keys evaluated once per row. Under a bound (`ORDER BY … LIMIT`)
a `SortBuffer` holds about twice that many rows: when full it keeps the best and remembers
the worst of them as its *cutoff*, and a later row that does not sort before the cutoff is
dropped. A `PartialSortSource` reads rows that arrive in order of their first keys and
sorts one run of equal first keys at a time.

`null` is `none`. The other values are a type of their own, whose `Ord` instance stands for
the engine's comparison of two values that are not null.

## Main results

* `push_holds`: the step lemma of the buffer, whatever it dropped before.
* `sortRowsWithTopK_eq`: a bounded sort is the first rows of the stable full sort.
* `partialSort_eq`: so is the partial sort, on rows ordered by their first keys.
-/

open List

namespace LoraDb

inductive SortDirection
  | asc
  | desc
  deriving DecidableEq

inductive NullsOrder
  | first
  | last
  deriving DecidableEq

variable {R V : Type}

/-- One key of an `ORDER BY`: its expression, as what it evaluates to on a row, the
direction, and where nulls go. -/
structure ResolvedSortItem (R V : Type) where
  expr : R → Option V
  direction : SortDirection
  nulls : NullsOrder

def ResolvedSortItem.nullsLast (item : ResolvedSortItem R V) : Bool :=
  item.nulls == .last

variable [Ord V]

/-- Order of two values of one key: nulls where the item puts them, whichever the
direction. -/
def compareSortKey (item : ResolvedSortItem R V) (a b : Option V) : Ordering :=
  let nullFirst : Ordering := if item.nullsLast then .gt else .lt
  match a, b with
  | none, none => .eq
  | none, some _ => nullFirst
  | some _, none => nullFirst.swap
  | some a, some b =>
    match item.direction with
    | .asc => compare a b
    | .desc => (compare a b).swap

/-- The first key that differs decides. -/
def compareKeys : List (ResolvedSortItem R V) → List (Option V) → List (Option V) → Ordering
  | item :: items, a :: as, b :: bs => (compareSortKey item a b).then (compareKeys items as bs)
  | _, _, _ => .eq

/-- The keys of a row. -/
def keysOf (items : List (ResolvedSortItem R V)) (row : R) : List (Option V) :=
  items.map (fun item => item.expr row)

/-- A row held by a buffer, with its keys and its arrival number. -/
structure Slot (R V : Type) where
  row : R
  keys : List (Option V)
  seq : ℕ

/-- Row order of two slots: keys, then arrival. -/
def cmpSlots (items : List (ResolvedSortItem R V)) (a b : Slot R V) : Ordering :=
  (compareKeys items a.keys b.keys).then (compare a.seq b.seq)

/-- Rows being sorted. Without a `bound` every row is kept. `cutoff` holds the keys of the
worst row kept, once the buffer has been cut down. -/
structure SortBuffer (R V : Type) where
  bound : Option ℕ
  slots : List (Slot R V)
  cutoff : Option (List (Option V))
  nextSeq : ℕ

namespace SortBuffer

/-- An empty buffer. -/
def new (bound : Option ℕ) : SortBuffer R V :=
  { bound := bound, slots := [], cutoff := none, nextSeq := 0 }

/-- A buffer over rows already collected: an unbounded sort keeps every row. -/
def fromRows (items : List (ResolvedSortItem R V)) (bound : Option ℕ) (rows : List R) :
    SortBuffer R V :=
  { bound := bound
    slots := rows.zipIdx.map (fun e => ⟨e.1, keysOf items e.1, e.2⟩)
    cutoff := none
    nextSeq := rows.length }

/-- Keep only the best `bound` rows and remember the worst of them. The selection is by
a strict order, so it has one outcome whichever way it is made. -/
def cutTo (items : List (ResolvedSortItem R V)) (b : SortBuffer R V) (bound : ℕ) : SortBuffer R V :=
  if b.slots.length ≤ bound then b
  else
    let order := b.slots.mergeSort (fun s t => (cmpSlots items s t).isLE)
    let keep := (order.take bound).map (fun s => s.seq)
    { b with
      cutoff := order[bound - 1]?.map (fun worst => worst.keys)
      slots := b.slots.filter (fun s => keep.contains s.seq) }

/-- `usize::MAX` on a 64-bit target. -/
def usizeMax : ℕ := 2 ^ 64 - 1

/-- A row arrives. One that does not sort before the cutoff is dropped: a later row
loses every tie. -/
def push (items : List (ResolvedSortItem R V)) (b : SortBuffer R V) (row : R) : SortBuffer R V :=
  let keys := keysOf items row
  match b.bound with
  -- Unbounded, a slot's index is its arrival number.
  | none => { b with slots := b.slots ++ [⟨row, keys, b.slots.length⟩] }
  | some 0 => b
  | some (bound + 1) =>
    let counted := { b with nextSeq := b.nextSeq + 1 }
    if b.cutoff.any (fun cutoff => compareKeys items keys cutoff != .lt) then counted
    else
      let held := { counted with slots := b.slots ++ [⟨row, keys, b.nextSeq⟩] }
      if max (min (2 * (bound + 1)) usizeMax) 64 ≤ held.slots.length then
        held.cutTo items (bound + 1)
      else held

/-- The kept rows, in order. -/
def finish (items : List (ResolvedSortItem R V)) (b : SortBuffer R V) : List R :=
  let sorted (b : SortBuffer R V) : List R :=
    (b.slots.mergeSort (fun s t => (cmpSlots items s t).isLE)).map (fun s => s.row)
  match b.bound with
  | none => sorted b
  | some 0 => []
  | some (bound + 1) => sorted (b.cutTo items (bound + 1))

end SortBuffer

/-- The sort of the buffered executors. -/
def sortRowsWithTopK (items : List (ResolvedSortItem R V)) (rows : List R)
    (topK : Option ℕ) : List R :=
  if topK = none ∧ rows.length < 2 then rows
  else
    match topK with
    -- Under a bound, rows stream through the buffer.
    | some _ => (rows.foldl (SortBuffer.push items) (SortBuffer.new topK)).finish items
    | none => (SortBuffer.fromRows items topK rows).finish items

/-- The rows a `SortSource` of the pull pipeline yields. -/
def sortSource (items : List (ResolvedSortItem R V)) (topK : Option ℕ) (upstream : List R) :
    List R :=
  (upstream.foldl (SortBuffer.push items) (SortBuffer.new topK)).finish items

/-- Two rows belong to one run: their first `presorted` keys are equal. -/
def sameRun (items : List (ResolvedSortItem R V)) (presorted : ℕ) (a b : R) : Bool :=
  (items.take presorted).all
    (fun item => compareSortKey item (item.expr a) (item.expr b) == .eq)

/-- The rows a `PartialSortSource` yields: it reads one run at a time and stops once
`remaining` rows are out. -/
def partialSort (items : List (ResolvedSortItem R V)) (presorted : ℕ) (remaining : Option ℕ) :
    List R → List R
  | [] => []
  | first :: upstream =>
    if remaining = some 0 then []
    else
      -- The first row that is not of the run is looked ahead at, and starts the next.
      let run := first :: upstream.takeWhile (sameRun items presorted first)
      let ready := (run.foldl (SortBuffer.push items) (SortBuffer.new remaining)).finish items
      ready ++ partialSort items presorted (remaining.map (fun r => r - ready.length))
        (upstream.dropWhile (sameRun items presorted first))
termination_by upstream => upstream.length
decreasing_by
  exact Nat.lt_succ_of_le (dropWhile_sublist _).length_le

/-! ### The order of rows -/

/-- Row order by the keys alone. -/
def compareRows (items : List (ResolvedSortItem R V)) (a b : R) : Ordering :=
  compareKeys items (keysOf items a) (keysOf items b)

/-- Not after, by the keys. -/
def rowLE (items : List (ResolvedSortItem R V)) (a b : R) : Bool :=
  (compareRows items a b).isLE

/-- The **stable full sort** of the rows: what `ORDER BY` alone gives. -/
def fullSort (items : List (ResolvedSortItem R V)) (rows : List R) : List R :=
  rows.mergeSort (rowLE items)

/-- The rows within a bound. -/
def within (bound : Option ℕ) (rows : List R) : List R :=
  match bound with
  | none => rows
  | some k => rows.take k

theorem length_fullSort (items : List (ResolvedSortItem R V)) (rows : List R) :
    (fullSort items rows).length = rows.length :=
  length_mergeSort rows

@[simp] theorem within_none (rows : List R) : within none rows = rows := rfl

@[simp] theorem within_some (k : ℕ) (rows : List R) : within (some k) rows = rows.take k := rfl

@[simp] theorem compareRows_nil (a b : R) :
    compareRows ([] : List (ResolvedSortItem R V)) a b = .eq := rfl

theorem compareRows_cons (item : ResolvedSortItem R V) (items : List (ResolvedSortItem R V))
    (a b : R) : compareRows (item :: items) a b =
      (compareSortKey item (item.expr a) (item.expr b)).then (compareRows items a b) := rfl

/-- The keys in two groups: the second decides where the first is equal. -/
theorem compareRows_append (items more : List (ResolvedSortItem R V)) (a b : R) :
    compareRows (items ++ more) a b = (compareRows items a b).then (compareRows more a b) := by
  induction items with
  | nil => rfl
  | cons item items ih =>
    rw [cons_append, compareRows_cons, compareRows_cons, ih, Ordering.then_assoc]

theorem sameRun_iff {items : List (ResolvedSortItem R V)} {presorted : ℕ} {a b : R} :
    sameRun items presorted a b = true ↔ compareRows (items.take presorted) a b = .eq := by
  unfold sameRun
  induction items.take presorted with
  | nil => simp
  | cons item lead ih =>
    rw [all_cons, Bool.and_eq_true, ih, compareRows_cons, Ordering.then_eq_eq, beq_iff_eq]

section Order

variable [Std.TransOrd V] {items : List (ResolvedSortItem R V)}

/-- Descending is ascending the other way round. -/
theorem compareSortKey_some (item : ResolvedSortItem R V) (a b : V) :
    compareSortKey item (some a) (some b) =
      if item.direction = .asc then compare a b else compare b a := by
  cases hd : item.direction with
  | asc => simp only [compareSortKey, hd, if_true]
  | desc =>
    simp only [compareSortKey, hd, reduceCtorEq, if_false]
    exact Std.OrientedCmp.eq_swap.symm

instance (item : ResolvedSortItem R V) : Std.OrientedCmp (compareSortKey item) where
  eq_swap := by
    rintro (_ | a) (_ | b)
    · rfl
    · exact Ordering.swap_swap.symm
    · rfl
    · rw [compareSortKey_some, compareSortKey_some]
      split
      · exact Std.OrientedCmp.eq_swap
      · exact Std.OrientedCmp.eq_swap

instance (item : ResolvedSortItem R V) : Std.TransCmp (compareSortKey item) where
  isLE_trans := by
    rintro (_ | a) (_ | b) (_ | c)
    case some.some.some =>
      rw [compareSortKey_some, compareSortKey_some, compareSortKey_some]
      split
      · exact Std.TransOrd.isLE_trans
      · exact fun hab hbc => Std.TransOrd.isLE_trans hbc hab
    all_goals
      simp only [compareSortKey]
      cases item.nullsLast <;> simp

instance (items : List (ResolvedSortItem R V)) : Std.OrientedCmp (compareRows items) where
  eq_swap := by
    intro a b
    induction items with
    | nil => rfl
    | cons item items ih =>
      rw [compareRows_cons, compareRows_cons, Ordering.swap_then, ← ih, ← Std.OrientedCmp.eq_swap]

instance (items : List (ResolvedSortItem R V)) : Std.TransCmp (compareRows items) where
  isLE_trans := by
    intro a b c hab hbc
    induction items with
    | nil => rfl
    | cons item items ih =>
      rw [compareRows_cons, Ordering.isLE_then_iff_or] at hab hbc ⊢
      rcases hab with hab | ⟨hab, hab'⟩ <;> rcases hbc with hbc | ⟨hbc, hbc'⟩
      · exact Or.inl (Std.TransCmp.lt_trans hab hbc)
      · exact Or.inl (Std.TransCmp.lt_of_lt_of_eq hab hbc)
      · exact Or.inl (Std.TransCmp.lt_of_eq_of_lt hab hbc)
      · exact Or.inr ⟨Std.TransCmp.eq_trans hab hbc, ih hab' hbc'⟩

theorem rowLE_order (items : List (ResolvedSortItem R V)) : TopK.IsOrder (rowLE items) := by
  refine ⟨fun a b c => Std.TransCmp.isLE_trans, fun a b => ?_⟩
  have hswap : compareRows items a b = (compareRows items b a).swap := Std.OrientedCmp.eq_swap
  unfold rowLE
  rw [hswap]
  cases compareRows items b a <;> rfl

end Order

/-! ### What a buffer holds -/

/-- The row of a slot and its arrival number. -/
def Slot.entry (s : Slot R V) : R × ℕ := (s.row, s.seq)

/-- The rows a buffer holds, with their arrival numbers. -/
def SortBuffer.entries (b : SortBuffer R V) : List (R × ℕ) :=
  b.slots.map Slot.entry

/-- The order of rows by keys, then arrival. -/
def arrivalLE (items : List (ResolvedSortItem R V)) : R × ℕ → R × ℕ → Bool :=
  zipIdxLE (rowLE items)

/-- The keys of every slot are those of its row. -/
def SortBuffer.Keyed (items : List (ResolvedSortItem R V)) (b : SortBuffer R V) : Prop :=
  ∀ s ∈ b.slots, s.keys = keysOf items s.row

/-- Every sort of `rows` by keys and arrival is their stable full sort. -/
theorem fullSort_eq (items : List (ResolvedSortItem R V)) (rows : List R) :
    (rows.zipIdx.mergeSort (arrivalLE items)).map Prod.fst = fullSort items rows :=
  TopK.mergeSort_zipIdx_from _ rows 0

/-- What a buffer bounded by `k` holds after `rows`: some of them, the best `k` among them,
and a cutoff that `k` rows held are not after. -/
structure Holds (items : List (ResolvedSortItem R V)) (k : ℕ) (rows : List R)
    (b : SortBuffer R V) : Prop where
  bound : b.bound = some k
  keyed : b.Keyed items
  counted : b.nextSeq = rows.length
  entries : b.entries <+ rows.zipIdx
  best : TopK.best (arrivalLE items) k b.entries = TopK.best (arrivalLE items) k rows.zipIdx
  cutoff : ∀ c, b.cutoff = some c → k ≤ b.entries.length ∧ ∃ worst, c = keysOf items worst ∧
    ∀ e ∈ TopK.best (arrivalLE items) k b.entries, rowLE items e.1 worst

section Buffer

variable {items : List (ResolvedSortItem R V)} {b : SortBuffer R V} {k : ℕ} {rows : List R}

theorem holds_new (items : List (ResolvedSortItem R V)) (k : ℕ) :
    Holds items k [] (SortBuffer.new (some k)) where
  bound := rfl
  keyed := fun _ hs => absurd hs not_mem_nil
  counted := rfl
  entries := Sublist.refl _
  best := rfl
  cutoff := fun c hc => absurd hc (Option.some_ne_none c).symm

theorem zipIdx_concat (rows : List R) (row : R) :
    (rows ++ [row]).zipIdx = rows.zipIdx ++ [(row, rows.length)] := by
  rw [zipIdx_append, Nat.zero_add]
  rfl

theorem untied_concat (items : List (ResolvedSortItem R V)) (rows : List R) (row : R) :
    TopK.Untied (arrivalLE items) (rows.zipIdx ++ [(row, rows.length)]) := by
  rw [← zipIdx_concat]
  exact TopK.untied_zipIdx (rowLE items) (rows ++ [row]) 0

theorem Holds.nodup (h : Holds items k rows b) : b.entries.Nodup :=
  h.entries.nodup (TopK.nodup_zipIdx rows 0)

theorem foldl_push_unbounded (items : List (ResolvedSortItem R V)) (n : ℕ) (more : List R) :
    ∀ rows : List R, more.foldl (SortBuffer.push items)
      ⟨none, rows.zipIdx.map (fun e => ⟨e.1, keysOf items e.1, e.2⟩), none, n⟩ =
        ⟨none, (rows ++ more).zipIdx.map (fun e => ⟨e.1, keysOf items e.1, e.2⟩), none, n⟩ := by
  induction more with
  | nil =>
    intro rows
    rw [append_nil]
    rfl
  | cons row more ih =>
    intro rows
    rw [foldl_cons, append_cons rows row more, ← ih (rows ++ [row])]
    simp only [SortBuffer.push, zipIdx_concat, map_append, length_map, length_zipIdx,
      map_cons, map_nil]

/-- The kept slots are those whose arrival numbers are among the best. -/
theorem Holds.kept (h : Holds items k rows b) :
    ∀ e ∈ b.entries, ((TopK.best (arrivalLE items) k b.entries).map Prod.snd).contains e.2 ↔
      e ∈ TopK.best (arrivalLE items) k b.entries := by
  intro e he
  rw [contains_iff_mem, mem_map]
  constructor
  · rintro ⟨e', he', hseq⟩
    have hsub := h.entries.subset
    rwa [← TopK.eq_of_mem_zipIdx (hsub (TopK.mem_best he')) (hsub he) hseq]
  · exact fun hmem => ⟨e, hmem, rfl⟩

variable [Std.TransOrd V]

theorem arrivalLE_order (items : List (ResolvedSortItem R V)) : TopK.IsOrder (arrivalLE items) :=
  (rowLE_order items).zipIdx

theorem cmpSlots_isLE {s t : Slot R V} (hs : s.keys = keysOf items s.row)
    (ht : t.keys = keysOf items t.row) :
    (cmpSlots items s t).isLE = arrivalLE items s.entry t.entry := by
  have hst : compareKeys items s.keys t.keys = compareRows items s.row t.row := by
    rw [hs, ht, compareRows]
  have hts : compareRows items t.row s.row = (compareRows items s.row t.row).swap :=
    Std.OrientedCmp.eq_swap
  simp only [cmpSlots, arrivalLE, zipIdxLE, rowLE, Slot.entry, hst, hts]
  cases compareRows items s.row t.row with
  | lt => rfl
  | gt => rfl
  | eq =>
    have hseq : (compare s.seq t.seq).isLE = decide (s.seq ≤ t.seq) := by
      rw [Bool.eq_iff_iff, decide_eq_true_eq]
      exact Nat.isLE_compare
    exact hseq

/-- Sorting the slots sorts the entries. -/
theorem SortBuffer.Keyed.entries_mergeSort (h : b.Keyed items) :
    (b.slots.mergeSort (fun s t => (cmpSlots items s t).isLE)).map Slot.entry =
      b.entries.mergeSort (arrivalLE items) :=
  map_mergeSort fun s hs t ht => cmpSlots_isLE (h s hs) (h t ht)

theorem SortBuffer.Keyed.rows_mergeSort (h : b.Keyed items) :
    (b.slots.mergeSort (fun s t => (cmpSlots items s t).isLE)).map (fun s => s.row) =
      (b.entries.mergeSort (arrivalLE items)).map Prod.fst := by
  rw [← h.entries_mergeSort, map_map]
  rfl

theorem Holds.entries_cutTo (h : Holds items k rows b) (hlen : ¬ b.slots.length ≤ k) :
    (b.cutTo items k).entries = b.entries.filter (fun e =>
      ((TopK.best (arrivalLE items) k b.entries).map Prod.snd).contains e.2) := by
  have hkeep : ((b.slots.mergeSort (fun s t => (cmpSlots items s t).isLE)).take k).map
      (fun s => s.seq) = (TopK.best (arrivalLE items) k b.entries).map Prod.snd := by
    rw [TopK.best, ← h.keyed.entries_mergeSort, ← map_take, map_map]
    rfl
  simp only [SortBuffer.cutTo, if_neg hlen, SortBuffer.entries]
  rw [hkeep, filter_map]
  rfl

/-- What is left after cutting down, in order. -/
theorem Holds.mergeSort_cutTo (h : Holds items k rows b) :
    (b.cutTo items k).entries.mergeSort (arrivalLE items) =
      TopK.best (arrivalLE items) k b.entries := by
  by_cases hlen : b.slots.length ≤ k
  · have hlen' : (b.entries.mergeSort (arrivalLE items)).length ≤ k := by
      rwa [length_mergeSort, SortBuffer.entries, length_map]
    rw [SortBuffer.cutTo, if_pos hlen, TopK.best, take_of_length_le hlen']
  · have hu : TopK.Untied (arrivalLE items) b.entries :=
      (TopK.untied_zipIdx (rowLE items) rows 0).mono h.entries.subset
    rw [h.entries_cutTo hlen]
    exact TopK.mergeSort_filter_best (arrivalLE_order items) hu h.nodup h.kept

theorem Holds.best_cutTo (h : Holds items k rows b) :
    TopK.best (arrivalLE items) k (b.cutTo items k).entries =
      TopK.best (arrivalLE items) k b.entries := by
  rw [TopK.best, h.mergeSort_cutTo, TopK.best, take_take, min_self]

/-- Cutting down keeps the best, and finds a cutoff. -/
theorem Holds.cutTo (h : Holds items k rows b) : Holds items k rows (b.cutTo items k) := by
  by_cases hlen : b.slots.length ≤ k
  · rwa [SortBuffer.cutTo, if_pos hlen]
  · have hcut := h.entries_cutTo hlen
    have hbest := h.best_cutTo
    refine ⟨?_, ?_, ?_, ?_, hbest.trans h.best, ?_⟩
    · simp only [SortBuffer.cutTo, if_neg hlen, h.bound]
    · intro s hs
      simp only [SortBuffer.cutTo, if_neg hlen] at hs
      exact h.keyed s (mem_of_mem_filter hs)
    · simp only [SortBuffer.cutTo, if_neg hlen, h.counted]
    · rw [hcut]
      exact filter_sublist.trans h.entries
    · intro c hc
      simp only [SortBuffer.cutTo, if_neg hlen] at hc
      obtain ⟨worst, hworst, rfl⟩ := Option.map_eq_some_iff.mp hc
      constructor
      · rw [← (mergeSort_perm _ (arrivalLE items)).length_eq, h.mergeSort_cutTo, TopK.length_best,
          SortBuffer.entries, length_map]
        omega
      · refine ⟨worst.row, h.keyed worst (mem_mergeSort.mp (mem_of_getElem? hworst)), ?_⟩
        intro e he
        rw [hbest] at he
        have hlast : (b.entries.mergeSort (arrivalLE items))[k - 1]? = some worst.entry := by
          rw [← h.keyed.entries_mergeSort, getElem?_map, hworst]
          rfl
        exact TopK.le_of_zipIdxLE ((arrivalLE_order items).le_worst he hlast)

/-- A row that the cutoff does not reject is held. -/
theorem Holds.hold (h : Holds items k rows b) (row : R)
    (hcut : ∀ c, b.cutoff = some c → compareKeys items (keysOf items row) c = .lt) :
    Holds items k (rows ++ [row]) { b with
        nextSeq := b.nextSeq + 1
        slots := b.slots ++ [⟨row, keysOf items row, b.nextSeq⟩] } := by
  have hentries : (b.slots ++ [(⟨row, keysOf items row, b.nextSeq⟩ : Slot R V)]).map Slot.entry =
      b.entries ++ [(row, rows.length)] := by
    rw [map_append, ← h.counted]
    rfl
  refine ⟨h.bound, ?_, ?_, ?_, ?_, ?_⟩
  · intro s hs
    rcases mem_append.mp hs with hs | hs
    · exact h.keyed s hs
    · rw [mem_singleton.mp hs]
  · rw [length_append, h.counted]
    rfl
  · unfold SortBuffer.entries
    rw [hentries, zipIdx_concat]
    exact h.entries.append (Sublist.refl _)
  · unfold SortBuffer.entries
    rw [hentries, zipIdx_concat]
    exact TopK.best_concat (arrivalLE_order items) (untied_concat items rows row)
      h.entries.subset h.best
  · intro c hc
    obtain ⟨hlen, worst, rfl, hworst⟩ := h.cutoff c hc
    unfold SortBuffer.entries
    rw [hentries]
    refine ⟨by rw [length_append]; omega, worst, rfl, ?_⟩
    intro e he
    have hu : TopK.Untied (arrivalLE items) (b.entries ++ [(row, rows.length)]) :=
      (untied_concat items rows row).mono (h.entries.append (Sublist.refl _)).subset
    rcases TopK.mem_best_concat (arrivalLE_order items) hu he with he | rfl
    · exact hworst e he
    · have hlt : compareRows items row worst = .lt := hcut _ hc
      simp only [rowLE, hlt, Ordering.isLE]

/-- A row the cutoff rejects is not among the best. -/
theorem Holds.reject (h : Holds items k rows b) (row : R) {c : List (Option V)}
    (hc : b.cutoff = some c) (hcut : compareKeys items (keysOf items row) c ≠ .lt) :
    Holds items k (rows ++ [row]) { b with nextSeq := b.nextSeq + 1 } := by
  obtain ⟨hlen, worst, rfl, hworst⟩ := h.cutoff c hc
  refine ⟨h.bound, h.keyed, ?_, ?_, ?_, h.cutoff⟩
  · rw [length_append, h.counted]
    rfl
  · rw [zipIdx_concat]
    exact h.entries.trans (sublist_append_left _ _)
  · rw [zipIdx_concat]
    refine h.best.trans (TopK.best_concat_of_beaten (arrivalLE_order items)
      (untied_concat items rows row) (hlen.trans h.entries.length_le) ?_).symm
    intro e he hle
    rw [← h.best] at he
    have hseq : e.2 < rows.length := by
      obtain ⟨x, i⟩ := e
      obtain ⟨-, hi, -⟩ := mem_zipIdx (h.entries.subset (TopK.mem_best he))
      simpa using hi
    -- `e` is not after the worst, and the worst not after `row`: they tie, and `e` is earlier.
    have hew : (compareRows items e.1 worst).isLE := hworst e he
    have hwr : (compareRows items worst row).isLE := by
      have hswap : compareRows items row worst = (compareRows items worst row).swap :=
        Std.OrientedCmp.eq_swap
      have hcut' : compareRows items row worst ≠ .lt := hcut
      rw [hswap] at hcut'
      cases hr : compareRows items worst row <;> simp_all
    have her : rowLE items e.1 row := Std.TransCmp.isLE_trans hew hwr
    simp only [arrivalLE, zipIdxLE, her, if_true] at hle
    split at hle
    · rw [decide_eq_true_eq] at hle
      omega
    · exact Bool.false_ne_true hle

/-- A row arrives. -/
theorem push_holds (h : Holds items k rows b) (hk : 0 < k) (row : R) :
    Holds items k (rows ++ [row]) (b.push items row) := by
  obtain ⟨bound, rfl⟩ : ∃ bound, k = bound + 1 := ⟨k - 1, by omega⟩
  obtain ⟨bound', slots, cutoff, nextSeq⟩ := b
  obtain rfl : bound' = some (bound + 1) := h.bound
  simp only [SortBuffer.push]
  split
  next hany =>
    obtain ⟨c, hc, hcut⟩ := (Option.any_eq_true _ _).mp hany
    exact h.reject row hc (by simpa using hcut)
  next hany =>
    have hheld := h.hold row (by
      intro c hc
      by_contra hcut
      exact hany ((Option.any_eq_true _ _).mpr ⟨c, hc, by simpa using hcut⟩))
    split
    · exact hheld.cutTo
    · exact hheld

/-- A run of arrivals. -/
theorem foldl_push_holds (hk : 0 < k) (more : List R) :
    ∀ {rows : List R} {b : SortBuffer R V}, Holds items k rows b →
      Holds items k (rows ++ more) (more.foldl (SortBuffer.push items) b) := by
  induction more with
  | nil =>
    intro rows b h
    rwa [append_nil]
  | cons row more ih =>
    intro rows b h
    have h' := ih (push_holds h hk row)
    rwa [append_assoc] at h'

/-- A bounded buffer ends with the first `k` rows of the full sort. -/
theorem Holds.finish_eq (h : Holds items k rows b) :
    b.finish items = (fullSort items rows).take k := by
  rcases Nat.eq_zero_or_pos k with rfl | hk
  · simp only [SortBuffer.finish, h.bound, take_zero]
  · obtain ⟨bound, rfl⟩ : ∃ bound, k = bound + 1 := ⟨k - 1, by omega⟩
    simp only [SortBuffer.finish, h.bound]
    rw [h.cutTo.keyed.rows_mergeSort, h.mergeSort_cutTo, h.best, TopK.best, ← fullSort_eq, map_take]

/-- An unbounded buffer ends with the full sort. -/
theorem finish_fromRows (items : List (ResolvedSortItem R V)) (rows : List R) :
    (SortBuffer.fromRows items none rows).finish items = fullSort items rows := by
  have hentries : (SortBuffer.fromRows items none rows).entries = rows.zipIdx := by
    simp only [SortBuffer.entries, SortBuffer.fromRows, map_map]
    exact map_id _
  have hkeyed : (SortBuffer.fromRows items none rows).Keyed items := by
    intro s hs
    obtain ⟨e, -, rfl⟩ := mem_map.mp hs
    rfl
  rw [← fullSort_eq, ← hentries, ← hkeyed.rows_mergeSort]
  rfl

/-- Every row pushed, and the buffer finished: the rows of the full sort within the
bound. -/
theorem finish_foldl_push (items : List (ResolvedSortItem R V)) (bound : Option ℕ) (rows : List R) :
    (rows.foldl (SortBuffer.push items) (SortBuffer.new bound)).finish items =
      within bound (fullSort items rows) := by
  match bound with
  | none =>
    have hpush : rows.foldl (SortBuffer.push items) (SortBuffer.new none) =
        { SortBuffer.fromRows items none rows with nextSeq := 0 } :=
      foldl_push_unbounded items 0 rows []
    rw [hpush, within_none, ← finish_fromRows]
    rfl
  | some 0 =>
    have hzero : (rows.foldl (SortBuffer.push items) (SortBuffer.new (some 0))) =
        SortBuffer.new (some 0) := by
      induction rows with
      | nil => rfl
      | cons row rows ih => exact ih
    rw [hzero, within_some, take_zero]
    rfl
  | some (k + 1) =>
    have h := foldl_push_holds (Nat.succ_pos k) rows (holds_new items (k + 1))
    rw [nil_append] at h
    exact h.finish_eq

/-- The buffered sort gives the rows of the stable full sort within the bound. -/
theorem sortRowsWithTopK_eq (items : List (ResolvedSortItem R V)) (rows : List R)
    (topK : Option ℕ) : sortRowsWithTopK items rows topK = within topK (fullSort items rows) := by
  unfold sortRowsWithTopK
  split
  next hfew =>
    obtain ⟨rfl, hlen⟩ := hfew
    rw [within_none, fullSort, mergeSort_of_pairwise]
    match rows, hlen with
    | [], _ => exact Pairwise.nil
    | [row], _ => exact pairwise_singleton _ row
  · cases topK with
    | none => exact finish_fromRows items rows
    | some k => exact finish_foldl_push items (some k) rows

theorem sortSource_eq (items : List (ResolvedSortItem R V)) (topK : Option ℕ) (upstream : List R) :
    sortSource items topK upstream = within topK (fullSort items upstream) :=
  finish_foldl_push items topK upstream

/-! ### Rows that arrive ordered by their first keys -/

/-- The rows arrive in order of their first `presorted` keys. -/
def Presorted (items : List (ResolvedSortItem R V)) (presorted : ℕ) (rows : List R) : Prop :=
  rows.Pairwise (fun a b => rowLE (items.take presorted) a b)

/-- A row of one run is not after any row of the runs that follow. -/
theorem rowLE_of_runs {presorted : ℕ} {first a c : R} {upstream : List R}
    (h : Presorted items presorted (first :: upstream))
    (ha : a ∈ first :: upstream.takeWhile (sameRun items presorted first))
    (hc : c ∈ upstream.dropWhile (sameRun items presorted first)) : rowLE items a c := by
  set lead := items.take presorted with hlead
  have hsame : compareRows lead first a = .eq := by
    rcases mem_cons.mp ha with rfl | ha
    · exact Std.ReflCmp.compare_self
    · exact sameRun_iff.mp (mem_takeWhile_imp ha)
  have hafter : compareRows lead first c = .lt := by
    have hfirst := (pairwise_cons.mp h).1
    have hrest : (upstream.dropWhile (sameRun items presorted first)).Pairwise
        (fun a b => rowLE lead a b) :=
      (pairwise_cons.mp h).2.sublist (dropWhile_sublist _)
    cases hdrop : upstream.dropWhile (sameRun items presorted first) with
    | nil =>
      rw [hdrop] at hc
      exact absurd hc not_mem_nil
    | cons d rest =>
      rw [hdrop] at hc hrest
      -- The row looked ahead at is after the run, and the rest are not before it.
      have hne : ¬ sameRun items presorted first d = true := by
        have := head?_dropWhile_not (sameRun items presorted first) upstream
        simpa [hdrop] using this
      have hd : compareRows lead first d = .lt := by
        have hmem : d ∈ upstream := (dropWhile_sublist _).subset (hdrop ▸ mem_cons_self)
        have hle : (compareRows lead first d).isLE := hfirst d hmem
        rw [sameRun_iff] at hne
        cases hcmp : compareRows lead first d <;> simp_all
      have hdc : (compareRows lead d c).isLE := by
        rcases mem_cons.mp hc with rfl | hc
        · exact (rowLE_order lead).refl c
        · exact (pairwise_cons.mp hrest).1 c hc
      exact Std.TransCmp.lt_of_lt_of_isLE hd hdc
  have hac : compareRows lead a c = .lt :=
    Std.TransCmp.lt_of_eq_of_lt (Std.OrientedCmp.eq_symm hsame) hafter
  have hsplit : compareRows items a c =
      (compareRows lead a c).then (compareRows (items.drop presorted) a c) := by
    rw [← compareRows_append, hlead, take_append_drop]
  rw [rowLE, hsplit, hac]
  rfl

theorem fullSort_append {rows more : List R} (h : ∀ a ∈ rows, ∀ c ∈ more, rowLE items a c) :
    fullSort items (rows ++ more) = fullSort items rows ++ fullSort items more :=
  TopK.mergeSort_append_of_le (rowLE_order items) h

/-- The partial sort gives the rows of the stable full sort within the bound, on rows
ordered by their first keys. -/
theorem partialSort_eq (presorted : ℕ) (remaining : Option ℕ) (upstream : List R)
    (h : Presorted items presorted upstream) :
    partialSort items presorted remaining upstream =
      within remaining (fullSort items upstream) := by
  fun_induction partialSort items presorted remaining upstream with
  | case1 remaining =>
    rw [fullSort, mergeSort_nil]
    cases remaining with
    | none => rfl
    | some k => exact take_nil.symm
  | case2 => rw [within_some, take_zero]
  | case3 remaining first upstream _ run ready ih =>
    set rest := upstream.dropWhile (sameRun items presorted first) with hrest
    have hsplit : first :: upstream = run ++ rest := by
      rw [hrest, cons_append, takeWhile_append_dropWhile]
    have hfull : fullSort items (first :: upstream) =
        fullSort items run ++ fullSort items rest := by
      rw [hsplit]
      exact fullSort_append fun a ha c hc => rowLE_of_runs h ha hc
    have hready : ready = within remaining (fullSort items run) :=
      finish_foldl_push items remaining run
    rw [ih ((pairwise_cons.mp h).2.sublist (dropWhile_sublist _)), hfull, hready]
    cases remaining with
    | none => rfl
    | some k =>
      simp only [within_some, Option.map_some, length_take, length_fullSort, take_append]
      congr 2
      omega

end Buffer

end LoraDb
