import LoraDb.SlabPut

/-!
# The Slab is a Persistent Table

Whatever is done to whichever handle, in whatever order, each handle reads as the table to
which its own operations were applied, and every leaf's counters equal what its offsets
imply.

## Main results

* `step_refines`: one operation on one handle changes that handle's table.
* `persistent`: every sequence of operations, clones and writes to clones among them.
-/

open Option (bind_eq_bind bind_eq_some_iff bind_some join_some map_eq_some_iff map_some)
open List ByteCodec Shared

/-! ### Reading a table in order -/

namespace Slots

variable {α : Type}

/-- The filled slots from `start` on, in order. -/
def entriesFrom (s : Slots α) (start : ℕ) : List (ℕ × α) :=
  (List.range' start (s.len - start)).filterMap fun i => (s.get i).map fun a => (i, a)

def slotsFrom (s : Slots α) (start : ℕ) : List ℕ :=
  (List.range' start (s.len - start)).filter s.contains

end Slots

namespace LoraDb

namespace Slab

variable {W W' : World} {h : Handle} {k l n i start len : ℕ} {leaf : Leaf}
  {tables tables' : List (Option (Slots Bytes))} {t : Slots Bytes} {m : ℕ → Option Bytes}
  {bufs : List Bytes} {β : Type}

/-! ### Scans -/

/-- A scan from `start` on, leaf by leaf. -/
theorem filterMap_chunks (g : ℕ → Option β) {first : ℕ} (hfirst : CHUNK * first ≤ start)
    (hstart : start ≤ CHUNK * (first + 1)) (hlen : len ≤ CHUNK * (first + n)) :
    ((List.range' first n).flatMap fun l =>
      (List.range' (if l = first then start - CHUNK * first else 0)
        (min (len - CHUNK * l) CHUNK - if l = first then start - CHUNK * first else 0)).filterMap
          fun s => g (CHUNK * l + s)) =
      (List.range' start (len - start)).filterMap g := by
  induction n generalizing first start with
  | zero =>
    have hnone : len - start = 0 := Nat.sub_eq_zero_of_le (hlen.trans hfirst)
    rw [hnone]
    rfl
  | succ n ih =>
    have hshift : ∀ base low count, (List.range' low count).filterMap (fun s => g (base + s)) =
        (List.range' (base + low) count).filterMap g := by
      intro base low count
      rw [← map_add_range', filterMap_map]
      rfl
    have hrest := @ih (CHUNK * (first + 1)) (first + 1) le_rfl
      (Nat.mul_le_mul_left _ (Nat.le_succ _)) (by rw [Nat.add_right_comm]; exact hlen)
    have hcongr : ∀ l ∈ List.range' (first + 1) n, (if l = first then start - CHUNK * first else 0)
      =
        if l = first + 1 then CHUNK * (first + 1) - CHUNK * (first + 1) else 0 := by
      intro l hl
      rw [mem_range'_1] at hl
      rw [if_neg (by omega), Nat.sub_self, ite_self]
    rw [range'_succ, flatMap_cons, if_pos rfl, hshift,
      flatMap_congr fun l hl => by rw [hcongr l hl], hrest, ← filterMap_append]
    refine congrArg _ ?_
    have hbase : CHUNK * first + (start - CHUNK * first) = start := by omega
    rw [hbase]
    by_cases hlast : len ≤ CHUNK * (first + 1)
    · have hnone : len - CHUNK * (first + 1) = 0 := by omega
      have hcount : min (len - CHUNK * first) CHUNK - (start - CHUNK * first) = len - start := by
        rw [Nat.mul_succ] at hlast
        omega
      rw [hnone, hcount, range'_zero, append_nil]
    · have hcount : start + (min (len - CHUNK * first) CHUNK - (start - CHUNK * first)) =
          CHUNK * (first + 1) := by
        rw [Nat.mul_succ] at hlast hstart ⊢
        omega
      have happend := @range'_append_1 start
        (min (len - CHUNK * first) CHUNK - (start - CHUNK * first)) (len - CHUNK * (first + 1))
      rw [hcount] at happend
      rw [happend]
      generalize min (len - CHUNK * first) CHUNK - (start - CHUNK * first) = count at hcount
      generalize CHUNK * (first + 1) = next at *
      have hall : count + (len - next) = len - start := by omega
      rw [hall]

/-- Scanning a handle's leaves is scanning its table, whatever is read of each slot. -/
theorem scan_ok (hW : W.Ok tables) (ht : tables[k]?.join = some t) (hk : W.handle k = some h)
    (part : ℕ → Leaf → ℕ → Option β) (g : ℕ → Option β)
    (hpart : ∀ l leaf, leaf.Ok W.heap.bufs (fun s => t.get (l * CHUNK + s)) 0 0 →
      ∀ s < CHUNK, part (l * CHUNK) leaf s = g (l * CHUNK + s))
    (hnone : ∀ i, t.get i = none → g i = none) (start : ℕ) :
    ((W.leavesFrom h start).flatMap fun entry =>
        entry.2.2.filterMap (part entry.1 entry.2.1)) =
      (List.range' start (t.len - start)).filterMap g := by
  obtain ⟨hlen, hr, hleaves⟩ := hW.stores k h t hk ht
  have hfirst : CHUNK * (start / CHUNK) ≤ start := Nat.mul_div_le _ _
  have hnext : start ≤ CHUNK * (start / CHUNK + 1) := (Nat.lt_mul_div_succ _ (by decide)).le
  have hcover : t.len ≤ CHUNK * (start / CHUNK + (leavesOf t.len - start / CHUNK)) := by
    have hle := le_leavesOf t.len
    refine hle.trans ?_
    rw [Nat.mul_comm]
    exact Nat.mul_le_mul_left _ (by omega)
  have hmod : start - CHUNK * (start / CHUNK) = start % CHUNK := by
    have hsplit := Nat.mod_add_div start CHUNK
    omega
  have hcount : (h.len + CHUNK - 1) / CHUNK = leavesOf t.len := by rw [hlen]; rfl
  rw [← filterMap_chunks g hfirst hnext hcover, World.leavesFrom, hmod]
  simp only [hcount, filterMap_eq_flatMap_toList _ (List.range' (start / CHUNK) _), flatMap_assoc]
  refine flatMap_congr fun l hl => ?_
  have hl' : l < leavesOf t.len := by
    rw [mem_range'_1] at hl
    omega
  obtain ⟨a, ha⟩ := hr.exists_leafAt (hlen ▸ hl')
  obtain ⟨leaf, hleaf, hok⟩ := hleaves l a ha
  simp only [ha, hlen, Nat.mul_comm CHUNK l]
  have hslot : ∀ low high s, s ∈ List.range' low (min high CHUNK - low) → s < CHUNK := by
    intro low high s hs
    rw [mem_range'_1] at hs
    omega
  by_cases hempty : a = EMPTY_LEAF
  · rw [if_pos hempty, Option.toList_none, flatMap_nil]
    symm
    refine filterMap_eq_nil_iff.mpr fun s hs => hnone _ ?_
    rw [hempty, hW.emptyLeaf] at hleaf
    cases hleaf
    exact hok.none_of_live rfl s (hslot _ _ s hs)
  · rw [if_neg hempty, hleaf, map_some, Option.toList_some, flatMap_singleton]
    exact filterMap_congr fun s hs => hpart l leaf hok s (hslot _ _ s hs)

/-- A handle's records come in its table's order. -/
theorem World.Ok.iterFrom (hW : W.Ok tables) (ht : tables[k]?.join = some t) (start : ℕ) :
    W.iterFrom k start = t.entriesFrom start := by
  obtain ⟨h, hk, -⟩ := hW.exists_handle ht
  rw [World.iterFrom, hk, Slots.entriesFrom]
  refine scan_ok hW ht hk
    (fun base leaf s => (leaf.get W.heap.bufs s).map fun bytes => (base + s, bytes)) _ ?_ ?_ start
  · intro l leaf hok s hs
    rw [hok.get hs]
  · intro i hi
    rw [hi, Option.map_none]

theorem filter_map_add (p : ℕ → Bool) (base : ℕ) (slots : List ℕ) :
    (slots.filter p).map (fun s => base + s) =
      slots.filterMap fun s => if p s = true then some (base + s) else none := by
  induction slots with
  | nil => rfl
  | cons s slots ih =>
    rw [filterMap_cons, filter_cons, ← ih]
    by_cases hs : p s = true
    · rw [if_pos hs, if_pos hs, map_cons]
    · rw [if_neg hs, if_neg hs]

theorem World.Ok.slotsFrom (hW : W.Ok tables) (ht : tables[k]?.join = some t) (start : ℕ) :
    W.slotsFrom k start = t.slotsFrom start := by
  obtain ⟨h, hk, -⟩ := hW.exists_handle ht
  have hspec := filter_map_add t.contains 0 (List.range' start (t.len - start))
  simp only [Nat.zero_add, map_id'] at hspec
  rw [World.slotsFrom, hk, Slots.slotsFrom, hspec]
  simp only [filter_map_add]
  refine scan_ok hW ht hk
    (fun base leaf s => if leaf.contains s = true then some (base + s) else none) _ ?_ ?_ start
  · intro l leaf hok s hs
    rw [hok.contains hs]
    rfl
  · intro i hi
    rw [if_neg]
    rw [Slots.contains, hi]
    exact Bool.false_ne_true

/-! ### Clones -/

theorem join_concat {α : Type} {xs : List (Option α)} {x : Option α} :
    (xs ++ [x])[k]?.join = if k = xs.length then x else xs[k]?.join := by
  rw [getElem?_append]
  split
  next hlt => rw [if_neg (Nat.ne_of_lt hlt)]
  next hge =>
    by_cases heq : k = xs.length
    · rw [if_pos heq, heq, Nat.sub_self]
      rfl
    · rw [if_neg heq, getElem?_eq_none (not_lt.mp hge), getElem?_eq_none]
      rw [length_singleton]
      omega

/-- A clone stores the same table. -/
theorem World.clone_ok (hW : W.Ok tables) (ht : tables[k]?.join = some t) :
    ∃ W', W.clone k = some W' ∧ W'.Ok (tables ++ [some t]) := by
  obtain ⟨h, hk, -⟩ := hW.exists_handle ht
  have hhandle : ∀ k', World.handle { W with handles := W.handles ++ [some h] } k' =
      if k' = tables.length then some h else W.handle k' := by
    intro k'
    rw [World.handle, World.handle, join_concat, hW.length]
  refine ⟨{ W with handles := W.handles ++ [some h] }, ?_, ?_, ?_, ?_, hW.emptyLeaf⟩
  · simp only [World.clone, hk, bind_eq_bind, bind_some]
  · rw [length_append, length_append, hW.length]
    rfl
  · intro k'
    rw [hhandle, join_concat]
    split
    next => rfl
    next => exact hW.alive k'
  · intro k' h' t' hk' ht'
    rw [hhandle] at hk'
    rw [join_concat] at ht'
    have hstores : Stores W h' t' := by
      split at hk'
      next heq =>
        rw [if_pos heq] at ht'
        cases hk'
        cases ht'
        exact hW.stores k h t hk ht
      next hne =>
        rw [if_neg hne] at ht'
        exact hW.stores k' h' t' hk' ht'
    exact ⟨hstores.len, hstores.rooted, hstores.leaves⟩

/-- Dropping a handle leaves the others. -/
theorem World.drop_ok (hW : W.Ok tables) (ht : tables[k]?.join = some t) :
    ∃ W', W.drop k = some W' ∧ W'.Ok (tables.set k none) := by
  obtain ⟨h, hk, -⟩ := hW.exists_handle ht
  have hlt := handle_lt hk
  have hjoin : ∀ {α : Type} {xs : List (Option α)} {k'}, k < xs.length →
      (xs.set k none)[k']?.join = if k' = k then none else xs[k']?.join := by
    intro α xs k' hlt
    rw [getElem?_set, if_pos hlt]
    split
    next heq => rw [if_pos heq.symm, join_some]
    next hne => rw [if_neg (Ne.symm hne)]
  have hhandle : ∀ k', World.handle { W with handles := W.handles.set k none } k' =
      if k' = k then none else W.handle k' := fun k' => hjoin hlt
  refine ⟨{ W with handles := W.handles.set k none }, ?_, ?_, ?_, ?_, hW.emptyLeaf⟩
  · simp only [World.drop, hk, bind_eq_bind, bind_some]
  · rw [length_set, length_set, hW.length]
  · intro k'
    rw [hhandle, hjoin (hW.length ▸ hlt)]
    split
    next => rfl
    next => exact hW.alive k'
  · intro k' h' t' hk' ht'
    rw [hhandle] at hk'
    rw [hjoin (hW.length ▸ hlt)] at ht'
    split at hk'
    next => cases hk'
    next hne =>
      rw [if_neg hne] at ht'
      obtain ⟨hlen, hr, hleaves⟩ := hW.stores k' h' t' hk' ht'
      exact ⟨hlen, hr, hleaves⟩

/-! ### Exact counters -/

namespace Leaf

variable (leaf : Leaf) (bufs : List Bytes) (s : ℕ)

/-- The slot is loose. -/
def looseHere : Bool :=
  match leaf.place s with
  | .loose _ => true
  | _ => false

/-- The slot is loose, and its record an update that is not large. -/
def smallHere : Bool :=
  match leaf.place s with
  | .loose index => (leaf.looseAt index).any fun record => record.length < LARGE_MIN
  | _ => false

/-- Bytes of its segment the slot's offset refers to. -/
def storedHere : ℕ :=
  match leaf.place s with
  | .segment offset => ((leaf.segment (segmentOf s)).storedLen bufs offset).getD 0
  | _ => 0

/-- Every counter of the leaf equals what its offsets imply. -/
structure Exact : Prop where
  live : leaf.live = ((Finset.range CHUNK).filter fun s => leaf.place s ≠ .empty).card
  looseSmall : leaf.looseSmall = ((Finset.range CHUNK).filter fun s => leaf.smallHere s).card
  looseSmallMax : leaf.looseSmall ≤ LOOSE_MAX
  apart : ∀ s s' index, leaf.place s = .loose index → leaf.place s' = .loose index → s = s'
  looseGarbage : leaf.loose.length =
    leaf.looseGarbage + ((Finset.range CHUNK).filter fun s => leaf.looseHere s).card
  garbage : ∀ seg < SEGMENTS, (leaf.segment seg).len =
    (leaf.segment seg).garbage + ∑ s ∈ slotsOf seg, leaf.storedHere bufs s

end Leaf

theorem Leaf.Ok.exact (h : leaf.Ok bufs m 0 0) : leaf.Exact bufs := by
  have hstored : ∀ s ∈ Finset.range CHUNK,
      Stored (leaf.usedBytes bufs s) leaf.loose (leaf.place s) (m s) := fun s hs =>
    h.sound.stored s (Finset.mem_range.mp hs)
  refine ⟨?_, ?_, h.sound.smallMax, h.sound.apart, ?_, ?_⟩
  · rw [h.sound.live, Nat.add_zero, Finset.card_filter]
    refine Finset.sum_congr rfl fun s _ => ?_
    cases leaf.place s <;> rfl
  · rw [h.sound.small, Nat.add_zero, Finset.card_filter]
    refine Finset.sum_congr rfl fun s hs => ?_
    have hs' := hstored s hs
    rw [Leaf.smallHere]
    cases hp : leaf.place s with
    | empty => cases m s <;> rfl
    | segment offset => cases m s <;> rfl
    | loose index =>
      rw [hp] at hs'
      cases hm : m s with
      | none => rw [hm] at hs'; exact hs'.elim
      | some record =>
        rw [hm] at hs'
        have hentry : leaf.loose[index]? = some (some record) := hs'
        simp only [smallLoose, Leaf.looseAt, hentry, join_some, Option.any_some,
          decide_eq_true_iff]
  · rw [h.sound.loose, Finset.card_filter]
    refine congrArg _ (Finset.sum_congr rfl fun s _ => ?_)
    rw [Leaf.looseHere]
    cases leaf.place s <;> rfl
  · intro seg hseg
    have hok := h.segs seg hseg
    have hlive := hok.live
    have hgarbage := hok.garbage
    have hsum : ∑ s ∈ slotsOf seg, leaf.storedHere bufs s =
        tally inSegment (slotsOf seg) leaf.place m := by
      refine Finset.sum_congr rfl fun s hs => ?_
      have hs' := h.sound.stored s (mem_slotsOf.mp hs).1
      rw [Leaf.storedHere]
      cases hp : leaf.place s with
      | empty => cases m s <;> rfl
      | loose index => cases m s <;> rfl
      | segment offset =>
        rw [hp] at hs'
        cases hm : m s with
        | none => rw [hm] at hs'; exact hs'.elim
        | some record =>
          rw [hm] at hs'
          simp only [Segment.storedLen_of_prefix (Segment.prefix_drop hs'.2), Option.getD_some,
            inSegment]
    rw [hsum, ← hlive, Segment.liveBytes]
    omega

/-! ### Runs -/

/-- The table of each handle, while it is alive. -/
abbrev Tables := List (Option (Slots Bytes))

namespace Tables

/-- What an operation says of the tables: it is its handle's that changes. -/
def step (tables : Tables) : SlabOp → Option (Tables × Returned)
  | .growTo k newLen => tables[k]?.join.map fun t =>
    (tables.set k (some (t.growTo newLen)), .nothing)
  | .set k i bytes => tables[k]?.join.bind fun t =>
    if i < t.len then some (tables.set k (some (t.set i bytes)), .flag (!t.contains i)) else none
  | .remove k i => tables[k]?.join.map fun t =>
    (tables.set k (some (t.remove i)), .flag (t.contains i))
  | .putLeaves k records => tables[k]?.join.bind fun t =>
    if (records.map Prod.fst).Pairwise (· < ·) ∧ ∀ r ∈ records, r.1 < t.len then
      some (tables.set k (some (t.putAll records 0).1), .put (t.putAll records 0).2)
    else none
  | .clone k => tables[k]?.join.map fun t => (tables ++ [some t], .nothing)
  | .drop k => tables[k]?.join.map fun _ => (tables.set k none, .nothing)

def run : List SlabOp → Tables → Option (Tables × List Returned)
  | [], tables => some (tables, [])
  | op :: ops, tables => do
    let (tables, returned) ← tables.step op
    let (tables, rest) ← run ops tables
    some (tables, returned :: rest)

end Tables

variable {op : SlabOp} {returned : Returned} {results : List Returned}

/-- One operation refines what it says of the tables. -/
theorem step_refines (hW : W.Ok tables) (h : Tables.step tables op = some (tables', returned)) :
    ∃ W', W.step op = some (W', returned) ∧ W'.Ok tables' := by
  cases op with
  | growTo k newLen =>
    obtain ⟨t, ht, heq⟩ := map_eq_some_iff.mp h
    cases heq
    obtain ⟨W', hgrow, hW'⟩ := World.growTo_ok hW ht newLen
    exact ⟨W', by rw [World.step, hgrow, map_some], hW'⟩
  | set k i bytes =>
    obtain ⟨t, ht, heq⟩ := bind_eq_some_iff.mp h
    split at heq
    next hi =>
      cases heq
      obtain ⟨W', hset, hW'⟩ := World.set_ok hW ht hi bytes
      exact ⟨W', by rw [World.step, hset, map_some], hW'⟩
    next => cases heq
  | remove k i =>
    obtain ⟨t, ht, heq⟩ := map_eq_some_iff.mp h
    cases heq
    obtain ⟨h, hk, -⟩ := hW.exists_handle ht
    obtain ⟨W', hremove, hW'⟩ := World.remove_ok hW ht i
    refine ⟨W', ?_, hW'⟩
    rw [World.step, hk, Option.isSome_some, if_pos rfl, hremove, map_some]
  | putLeaves k records =>
    obtain ⟨t, ht, heq⟩ := bind_eq_some_iff.mp h
    split at heq
    next hrecords =>
      cases heq
      obtain ⟨W', hput, hW'⟩ := World.putLeaves_ok hW ht hrecords.1 hrecords.2
      exact ⟨W', by rw [World.step, hput, map_some], hW'⟩
    next => cases heq
  | clone k =>
    obtain ⟨t, ht, heq⟩ := map_eq_some_iff.mp h
    cases heq
    obtain ⟨W', hclone, hW'⟩ := World.clone_ok hW ht
    exact ⟨W', by rw [World.step, hclone, map_some], hW'⟩
  | drop k =>
    obtain ⟨t, ht, heq⟩ := map_eq_some_iff.mp h
    cases heq
    obtain ⟨W', hdrop, hW'⟩ := World.drop_ok hW ht
    exact ⟨W', by rw [World.step, hdrop, map_some], hW'⟩

theorem run_refines {ops : List SlabOp} (hW : W.Ok tables)
    (h : Tables.run ops tables = some (tables', results)) :
    ∃ W', World.run ops W = some (W', results) ∧ W'.Ok tables' := by
  induction ops generalizing W tables results with
  | nil =>
    cases h
    exact ⟨W, rfl, hW⟩
  | cons op ops ih =>
    simp only [Tables.run, bind_eq_bind, bind_eq_some_iff] at h
    obtain ⟨⟨tables₁, returned⟩, hstep, ⟨tables₂, rest⟩, hrest, heq⟩ := h
    cases heq
    obtain ⟨W₁, hstep₁, hW₁⟩ := step_refines hW hstep
    obtain ⟨W', hrun, hW'⟩ := ih hW₁ hrest
    refine ⟨W', ?_, hW'⟩
    simp only [World.run, hstep₁, hrun, bind_eq_bind, bind_some]

theorem new_ok : World.new.Ok [some .empty] := by
  refine ⟨rfl, ?_, ?_, rfl⟩
  · intro k
    cases k with
    | zero => rfl
    | succ k => rfl
  · intro k h t hk ht
    cases k with
    | zero =>
      cases hk
      cases ht
      refine ⟨rfl, ⟨⟨[], rfl, rfl⟩, ?_⟩, ?_⟩
      · intro j node hj
        cases hj
      · intro l a ha
        cases ha
    | succ k => cases hk

/-- Every handle **reads** as its table. -/
structure World.Reads (W : World) (tables : Tables) : Prop where
  len : ∀ k, (W.handle k).map Handle.len = tables[k]?.join.map Slots.len
  get : ∀ k t, tables[k]?.join = some t → ∀ i, W.get k i = t.get i
  contains : ∀ k t, tables[k]?.join = some t → ∀ i, W.contains k i = t.contains i
  iterFrom : ∀ k t, tables[k]?.join = some t → ∀ start, W.iterFrom k start = t.entriesFrom start
  slotsFrom : ∀ k t, tables[k]?.join = some t → ∀ start, W.slotsFrom k start = t.slotsFrom start

/-- The counters of every leaf a handle can reach are **exact**. -/
def World.Exact (W : World) : Prop :=
  ∀ k h l a leaf, W.handle k = some h → W.heap.leafAt h.root l = some a →
    read W.heap.leaves a = some leaf → leaf.Exact W.heap.bufs

theorem World.Ok.reads (hW : W.Ok tables) : W.Reads tables := by
  refine ⟨?_, fun k t ht => hW.get ht, fun k t ht => hW.contains ht, fun k t ht => hW.iterFrom ht,
    fun k t ht => hW.slotsFrom ht⟩
  intro k
  have halive := hW.alive k
  cases ht : tables[k]?.join with
  | none =>
    rw [ht, Option.isSome_none, Option.isSome_eq_false_iff, Option.isNone_iff_eq_none] at halive
    rw [halive]
    rfl
  | some t =>
    obtain ⟨h, hk, hlen⟩ := hW.exists_handle ht
    rw [hk, map_some, map_some, hlen]

/-- **Persistence.** Every sequence of operations on a slab and its clones: nothing fails, every
handle reads as the table to which its own operations were applied, and every leaf's counters are
exact. -/
theorem persistent {ops : List SlabOp} (h : Tables.run ops [some .empty] = some (tables, results)) :
    ∃ W, World.run ops .new = some (W, results) ∧ W.Reads tables ∧ W.Exact := by
  obtain ⟨W, hrun, hW⟩ := run_refines new_ok h
  refine ⟨W, hrun, hW.reads, ?_⟩
  intro k h l a leaf hk hl hleaf
  obtain ⟨t, ht⟩ := hW.exists_table hk
  obtain ⟨leaf', hleaf', hok⟩ := hW.exists_leaf hk hl ht
  rw [hleaf] at hleaf'
  cases hleaf'
  exact hok.exact

/-- A clone written to on both sides, with built leaves stored over a record that is there. -/
theorem persistent_clone :
    ∃ W, World.run [.growTo 0 3, .set 0 1 [1, 2], .clone 0, .set 1 1 [9], .remove 0 1,
        .putLeaves 0 [(0, [7]), (2, [8])], .putLeaves 1 [(0, [5]), (1, [6])], .drop 0] .new =
        some (W, [.nothing, .flag true, .nothing, .flag false, .flag true, .put (.ok 2),
          .put (.error 1), .nothing]) ∧
      W.Reads [none, some ((((Slots.empty.growTo 3).set 1 [1, 2]).set 1 [9]).set 0 [5])] ∧
      W.Exact :=
  persistent rfl

end Slab

end LoraDb
