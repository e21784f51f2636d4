import LoraDb.StrPostings
import Mathlib.Data.Finset.Basic

/-!
# Runs over String Postings

Handles to string postings, each a clone of another one, are written to in any order. A handle
is an ordered multimap: the set of the pairs filed in it and not removed since.

## Main results

* `Represents.step`: a step of the handles is that step of their multimaps.
* `postings_run`: so is every run; a handle lists its multimap by key, and its ranges and a
  bulk build give the same.
-/

open List SortedMap

namespace LoraDb

namespace StrIndex

namespace IdSet

variable {set : IdSet} {id id' : ℕ}

theorem mem_insert : id' ∈ insert set id ↔ id' = id ∨ id' ∈ set := by
  rw [insert]
  split_ifs with hmem
  · exact ⟨.inr, fun h => h.elim (fun heq => heq ▸ hmem) fun h => h⟩
  · exact mem_orderedInsert (· ≤ ·)

theorem insert_ascending (h : set.Pairwise (· < ·)) : (insert set id).Pairwise (· < ·) := by
  rw [insert]
  split_ifs with hmem
  · exact h
  · induction set with
    | nil => exact pairwise_singleton _ _
    | cons first set ih =>
      obtain ⟨hfirst, hset⟩ := pairwise_cons.mp h
      rw [mem_cons, not_or] at hmem
      rw [orderedInsert_cons]
      split_ifs with hle
      · have hlt : id < first := lt_of_le_of_ne hle hmem.1
        refine pairwise_cons.mpr ⟨fun other hother => ?_, h⟩
        rcases mem_cons.mp hother with rfl | hother
        · exact hlt
        · exact hlt.trans (hfirst other hother)
      · refine pairwise_cons.mpr ⟨fun other hother => ?_, ih hset hmem.2⟩
        rcases (mem_orderedInsert (· ≤ ·)).mp hother with rfl | hother
        · exact not_le.mp hle
        · exact hfirst other hother

theorem mem_remove (h : set.Pairwise (· < ·)) : id' ∈ (remove set id).1 ↔ id' ≠ id ∧ id' ∈ set := by
  have hnodup : set.Nodup := h.imp fun hlt => ne_of_lt hlt
  exact hnodup.mem_erase_iff

theorem remove_ascending (h : set.Pairwise (· < ·)) : (remove set id).1.Pairwise (· < ·) :=
  h.sublist erase_sublist

end IdSet

/-! ### Multimaps -/

/-- The pairs filed in a handle. -/
abbrev Multimap := Finset (Key × ℕ)

/-- Entries that **list** a multimap: its keys in order, each with exactly its ids. -/
structure Lists (es : List (Key × IdSet)) (m : Multimap) : Prop where
  sorted : Sorted es
  ids : ∀ key ids, get? key es = some ids → ids ≠ [] ∧ ids.Pairwise (· < ·)
  mem : ∀ key id, (key, id) ∈ m ↔ ∃ ids, get? key es = some ids ∧ id ∈ ids

/-- The pair is the last one of its key. -/
def Multimap.isLast (m : Multimap) (key : Key) (id : ℕ) : Bool :=
  decide ((key, id) ∈ m ∧ ∀ e ∈ m, e.1 = key → e.2 = id)

namespace Lists

variable {es : List (Key × IdSet)} {m : Multimap}

theorem nil : Lists [] ∅ := by
  refine ⟨Pairwise.nil, ?_, ?_⟩
  · intro key ids hids
    cases hids
  · intro key id
    simp

theorem insertEntry (h : Lists es m) (key : Key) (id : ℕ) :
    Lists (StrPostings.insertEntry es key id) (insert (key, id) m) := by
  refine ⟨h.sorted.put _ _, ?_, ?_⟩
  · intro key' ids hids
    rw [StrPostings.insertEntry, get?_put] at hids
    split_ifs at hids with heq
    · cases hids
      cases hget : get? key es with
      | none => exact ⟨cons_ne_nil _ _, pairwise_singleton _ _⟩
      | some old =>
        refine ⟨ne_nil_of_mem (IdSet.mem_insert.mpr (.inl rfl)), ?_⟩
        exact IdSet.insert_ascending (h.ids key old hget).2
    · exact h.ids key' ids hids
  · intro key' id'
    rw [StrPostings.insertEntry, get?_put, Finset.mem_insert, Prod.mk.injEq, h.mem]
    split_ifs with heq
    · subst heq
      cases hget : get? key' es with
      | none => simp
      | some old => simp [IdSet.mem_insert]
    · simp [heq]

theorem removeEntry (h : Lists es m) (key : Key) (id : ℕ) :
    Lists (StrPostings.removeEntry es key id).1 (m.erase (key, id)) ∧
      (StrPostings.removeEntry es key id).2 = m.isLast key id := by
  have hlast : m.isLast key id = true ↔ ∃ ids, get? key es = some ids ∧ id ∈ ids ∧
      ∀ id' ∈ ids, id' = id := by
    rw [Multimap.isLast, decide_eq_true_eq, h.mem]
    constructor
    · rintro ⟨⟨ids, hget, hid⟩, hall⟩
      exact ⟨ids, hget, hid, fun id' hid' =>
        hall (key, id') ((h.mem key id').mpr ⟨ids, hget, hid'⟩) rfl⟩
    · rintro ⟨ids, hget, hid, hall⟩
      refine ⟨⟨ids, hget, hid⟩, fun e he hkey => ?_⟩
      obtain ⟨ids', hget', hid'⟩ := (h.mem e.1 e.2).mp he
      rw [hkey, hget] at hget'
      cases hget'
      exact hall e.2 hid'
  rw [StrPostings.removeEntry]
  cases hget : get? key es with
  | none =>
    have hnot : (key, id) ∉ m := by
      rw [h.mem, hget]
      rintro ⟨ids, hids, -⟩
      cases hids
    refine ⟨by rwa [Finset.erase_eq_of_notMem hnot], ?_⟩
    exact (Bool.eq_false_iff.mpr fun htrue => hnot (of_decide_eq_true htrue).1).symm
  | some ids =>
    obtain ⟨hne, hasc⟩ := h.ids key ids hget
    have hother : ∀ key' id', key' ≠ key →
        ((key', id') ∈ m.erase (key, id) ↔ ∃ ids, get? key' es = some ids ∧ id' ∈ ids) := by
      intro key' id' hkey
      rw [Finset.mem_erase, h.mem]
      simp [hkey]
    have hsame : ∀ id', (key, id') ∈ m.erase (key, id) ↔ id' ∈ (IdSet.remove ids id).1 := by
      intro id'
      rw [Finset.mem_erase, h.mem, hget, IdSet.mem_remove hasc]
      simp
    by_cases hempty : (IdSet.remove ids id).2 = true
    · have hnil : (IdSet.remove ids id).1 = [] := List.isEmpty_iff.mp hempty
      simp only [if_pos hempty]
      refine ⟨⟨h.sorted.erase key, ?_, ?_⟩, ?_⟩
      · intro key' ids' hids'
        rw [h.sorted.get?_erase] at hids'
        split_ifs at hids' with heq
        exact h.ids key' ids' hids'
      · intro key' id'
        rw [h.sorted.get?_erase]
        split_ifs with heq
        · rw [heq, hsame, hnil]
          simp
        · exact hother key' id' heq
      · obtain ⟨first, rest, rfl⟩ := exists_cons_of_ne_nil hne
        have honly : ∀ id' ∈ first :: rest, id' = id := by
          intro id' hid'
          by_contra hid
          have hmem := (IdSet.mem_remove hasc).mpr ⟨hid, hid'⟩
          rw [hnil] at hmem
          cases hmem
        refine (hlast.mpr ⟨_, hget, ?_, honly⟩).symm
        exact honly first mem_cons_self ▸ mem_cons_self
    · simp only [if_neg hempty]
      refine ⟨⟨h.sorted.put _ _, ?_, ?_⟩, ?_⟩
      · intro key' ids' hids'
        rw [get?_put] at hids'
        split_ifs at hids' with heq
        · cases hids'
          refine ⟨fun hnil => hempty (List.isEmpty_iff.mpr hnil), IdSet.remove_ascending hasc⟩
        · exact h.ids key' ids' hids'
      · intro key' id'
        rw [get?_put]
        split_ifs with heq
        · rw [heq, hsame]
          simp
        · exact hother key' id' heq
      · refine (Bool.eq_false_iff.mpr fun htrue => hempty (List.isEmpty_iff.mpr ?_)).symm
        obtain ⟨ids', hget', -, hall⟩ := hlast.mp htrue
        rw [hget] at hget'
        cases hget'
        refine eq_nil_iff_forall_not_mem.mpr fun id' hid' => ?_
        obtain ⟨hid, hmem⟩ := (IdSet.mem_remove hasc).mp hid'
        exact hid (hall id' hmem)

end Lists

/-! ### Handles -/

/-- A handle is cloned, or written to. -/
inductive Op where
  | clone (handle : ℕ)
  | insert (handle : ℕ) (key : Key) (id : ℕ)
  | remove (handle : ℕ) (key : Key) (id : ℕ)

/-- A step over the handles, and what a remove returned. -/
def step (handles : List StrPostings) : Op → List StrPostings × Option Bool
  | .clone handle => (handles ++ handles[handle]?.toList, none)
  | .insert handle key id => (handles.modify handle (·.insert key id), none)
  | .remove handle key id =>
    match handles[handle]? with
    | none => (handles, none)
    | some idx => (handles.set handle (idx.remove key id).1, some (idx.remove key id).2)

def run (handles : List StrPostings) : List Op → List StrPostings × List (Option Bool)
  | [] => (handles, [])
  | op :: ops =>
    let stepped := step handles op
    let rest := run stepped.1 ops
    (rest.1, stepped.2 :: rest.2)

/-- The same step over multimaps. -/
def Multimap.step (maps : List Multimap) : Op → List Multimap × Option Bool
  | .clone handle => (maps ++ maps[handle]?.toList, none)
  | .insert handle key id => (maps.modify handle (Insert.insert (key, id)), none)
  | .remove handle key id =>
    match maps[handle]? with
    | none => (maps, none)
    | some m => (maps.set handle (m.erase (key, id)), some (m.isLast key id))

def Multimap.run (maps : List Multimap) : List Op → List Multimap × List (Option Bool)
  | [] => (maps, [])
  | op :: ops =>
    let stepped := Multimap.step maps op
    let rest := Multimap.run stepped.1 ops
    (rest.1, stepped.2 :: rest.2)

/-- Every inserted key fits its block. -/
def opFits (handles : List StrPostings) : Op → Bool
  | .insert handle key _ => handles[handle]?.all (·.fits key)
  | _ => true

def runFits (handles : List StrPostings) : List Op → Bool
  | [] => true
  | op :: ops => opFits handles op && runFits (step handles op).1 ops

/-- Postings that hold a multimap. -/
structure Represents (idx : StrPostings) (m : Multimap) : Prop where
  wellformed : StrPostings.Wellformed idx.blocks
  lists : Lists (StrPostings.contents idx.blocks) m

namespace Represents

variable {idx : StrPostings} {m : Multimap} {handles : List StrPostings} {maps : List Multimap}

theorem empty : Represents .empty ∅ := ⟨⟨by simp [StrPostings.empty], Pairwise.nil⟩, .nil⟩

theorem insert (h : Represents idx m) {key : Key} (hfits : idx.fits key = true) (id : ℕ) :
    Represents (idx.insert key id) (Insert.insert (key, id) m) := by
  obtain ⟨hwf, hcontents⟩ := h.wellformed.insert hfits id
  exact ⟨hwf, hcontents ▸ h.lists.insertEntry key id⟩

theorem remove (h : Represents idx m) (key : Key) (id : ℕ) :
    Represents (idx.remove key id).1 (m.erase (key, id)) ∧
      (idx.remove key id).2 = m.isLast key id := by
  obtain ⟨hwf, heq⟩ := h.wellformed.remove key id
  obtain ⟨hlists, hlast⟩ := h.lists.removeEntry key id
  rw [← heq] at hlists hlast
  exact ⟨⟨hwf, hlists⟩, hlast⟩

theorem getElem? (h : Forall₂ Represents handles maps) (handle : ℕ) :
    (handles[handle]? = none ∧ maps[handle]? = none) ∨
      ∃ idx m, handles[handle]? = some idx ∧ maps[handle]? = some m ∧ Represents idx m := by
  induction h generalizing handle with
  | nil => exact .inl ⟨rfl, rfl⟩
  | cons hfirst hrest ih =>
    cases handle with
    | zero => exact .inr ⟨_, _, rfl, rfl, hfirst⟩
    | succ handle => exact ih handle

theorem set (h : Forall₂ Represents handles maps) (hnew : Represents idx m) (handle : ℕ) :
    Forall₂ Represents (handles.set handle idx) (maps.set handle m) := by
  induction h generalizing handle with
  | nil => exact .nil
  | cons hfirst hrest ih =>
    cases handle with
    | zero => exact .cons hnew hrest
    | succ handle => exact .cons hfirst (ih handle)

theorem modify (h : Forall₂ Represents handles maps) {f : StrPostings → StrPostings}
    {g : Multimap → Multimap} {handle : ℕ}
    (hfg : ∀ idx m, handles[handle]? = some idx → Represents idx m → Represents (f idx) (g m)) :
    Forall₂ Represents (handles.modify handle f) (maps.modify handle g) := by
  induction h generalizing handle with
  | nil =>
    rw [modify_nil, modify_nil]
    exact .nil
  | cons hfirst hrest ih =>
    cases handle with
    | zero => exact .cons (hfg _ _ rfl hfirst) hrest
    | succ handle => exact .cons hfirst (ih fun idx m hget => hfg idx m hget)

/-- Every step of the handles is that step of their **multimaps**. -/
theorem step (h : Forall₂ Represents handles maps) {op : Op} (hfits : opFits handles op = true) :
    Forall₂ Represents (StrIndex.step handles op).1 (Multimap.step maps op).1 ∧
      (StrIndex.step handles op).2 = (Multimap.step maps op).2 := by
  cases op with
  | clone handle =>
    refine ⟨?_, rfl⟩
    rw [StrIndex.step, Multimap.step]
    rcases getElem? h handle with ⟨hnone, hnone'⟩ | ⟨idx, m, hget, hget', hidx⟩
    · simpa only [hnone, hnone', Option.toList_none, append_nil] using h
    · simp only [hget, hget', Option.toList_some]
      exact rel_append h (.cons hidx .nil)
  | insert handle key id =>
    refine ⟨modify h fun idx m hget hidx => hidx.insert ?_ id, rfl⟩
    rw [opFits, hget] at hfits
    exact hfits
  | remove handle key id =>
    rw [StrIndex.step, Multimap.step]
    rcases getElem? h handle with ⟨hnone, hnone'⟩ | ⟨idx, m, hget, hget', hidx⟩
    · simp only [hnone, hnone']
      exact ⟨h, trivial⟩
    · simp only [hget, hget']
      obtain ⟨hnew, hlast⟩ := hidx.remove key id
      exact ⟨set h hnew handle, by rw [hlast]⟩

theorem run (h : Forall₂ Represents handles maps) {ops : List Op}
    (hfits : runFits handles ops = true) :
    Forall₂ Represents (StrIndex.run handles ops).1 (Multimap.run maps ops).1 ∧
      (StrIndex.run handles ops).2 = (Multimap.run maps ops).2 := by
  induction ops generalizing handles maps with
  | nil => exact ⟨h, rfl⟩
  | cons op ops ih =>
    rw [runFits, Bool.and_eq_true] at hfits
    obtain ⟨hnext, hout⟩ := step h hfits.1
    obtain ⟨hrest, houts⟩ := ih hnext hfits.2
    exact ⟨hrest, by rw [StrIndex.run, Multimap.run, hout, houts]⟩

end Represents

/-! ### Bulk builds -/

/-- A builder of postings from keys in strictly ascending order, a block at a time. -/
structure StrPostingsBuilder where
  blocks : List (Key × StrBlock)
  keys : List Key
  ids : List IdSet
  len : ℕ

namespace StrPostingsBuilder

def close (b : StrPostingsBuilder) : StrPostingsBuilder :=
  { b with blocks := b.blocks ++ [(b.keys.headD [], .packed b.keys b.ids)], keys := [], ids := [] }

def push (b : StrPostingsBuilder) (key : Key) (ids : IdSet) : StrPostingsBuilder :=
  let b := if b.keys.length = BLOCK_MAX then b.close else b
  { b with keys := b.keys ++ [key], ids := b.ids ++ [ids], len := b.len + 1 }

def finish (b : StrPostingsBuilder) : StrPostings :=
  let closed := if b.keys = [] then b else b.close
  ⟨closed.blocks, b.len⟩

def pushAll (b : StrPostingsBuilder) (es : List (Key × IdSet)) : StrPostingsBuilder :=
  es.foldl (fun b e => b.push e.1 e.2) b

/-- Postings of entries in key order. -/
def build (es : List (Key × IdSet)) : StrPostings := (pushAll ⟨[], [], [], 0⟩ es).finish

/-- Every full block, and the rest behind them, stays below `2 ^ 32` bytes. -/
def buildFits (es : List (Key × IdSet)) : Prop :=
  ∀ n, StrBlock.packedSize (((es.drop (BLOCK_MAX * n)).take BLOCK_MAX).map Prod.fst) < 2 ^ 32

/-- A builder that was given entries: those of its blocks, and the open ones behind them. -/
structure Given (b : StrPostingsBuilder) (filed opened : List (Key × IdSet)) : Prop where
  wellformed : StrPostings.Wellformed b.blocks
  contents : StrPostings.contents b.blocks = filed
  keys : b.keys = opened.map Prod.fst
  ids : b.ids = opened.map Prod.snd
  full : ∃ n, filed.length = BLOCK_MAX * n
  room : opened.length ≤ BLOCK_MAX

variable {b : StrPostingsBuilder} {es filed opened : List (Key × IdSet)}

theorem Given.close (h : Given b filed opened) (hsorted : Sorted (filed ++ opened))
    (hne : opened ≠ []) (hsize : StrBlock.packedSize (opened.map Prod.fst) < 2 ^ 32) :
    StrPostings.Wellformed b.close.blocks ∧
      StrPostings.contents b.close.blocks = filed ++ opened := by
  obtain ⟨first, rest, rfl⟩ := exists_cons_of_ne_nil hne
  obtain ⟨-, hopened, -⟩ := pairwise_append.mp hsorted
  obtain ⟨q, hpacks⟩ := Packs.packed hopened hsize
  have hheld : StrPostings.Held (b.keys.headD []) (.packed b.keys b.ids) (first :: rest) := by
    rw [h.keys, h.ids]
    exact ⟨⟨q, hpacks⟩, rfl⟩
  have heq : StrPostings.contents b.close.blocks = filed ++ first :: rest := by
    rw [StrPostingsBuilder.close, StrPostings.contents_append, h.contents, hheld.single.1]
  refine ⟨⟨?_, heq ▸ hsorted⟩, heq⟩
  intro e he
  rcases mem_append.mp he with he | he
  · exact h.wellformed.held e he
  · exact hheld.single.2 e he

variable {ds : List (Key × IdSet)}

/-- The open entries are the block at their place. -/
theorem chunk_eq (hfits : buildFits (filed ++ opened ++ ds)) {n : ℕ}
    (hfiled : filed.length = BLOCK_MAX * n)
    (hopened : opened.length = BLOCK_MAX ∨ opened.length ≤ BLOCK_MAX ∧ ds = []) :
    StrBlock.packedSize (opened.map Prod.fst) < 2 ^ 32 := by
  have hchunk := hfits n
  rw [← hfiled, append_assoc, drop_left] at hchunk
  rcases hopened with hlen | ⟨hlen, rfl⟩
  · rwa [← hlen, take_left] at hchunk
  · rwa [append_nil, take_of_length_le hlen] at hchunk

theorem Given.push (h : Given b filed opened) {e : Key × IdSet}
    (hsorted : Sorted (filed ++ opened)) (hfits : buildFits (filed ++ opened ++ ds)) :
    ∃ filed' opened', Given (b.push e.1 e.2) filed' (opened' ++ [e]) ∧
      filed' ++ opened' = filed ++ opened := by
  obtain ⟨n, hn⟩ := h.full
  have hlen : b.keys.length = opened.length := by rw [h.keys, length_map]
  rw [StrPostingsBuilder.push]
  by_cases hfull : b.keys.length = BLOCK_MAX
  · have hsize := chunk_eq hfits hn (.inl (hlen ▸ hfull))
    have hne : opened ≠ [] := by
      rintro rfl
      rw [hlen] at hfull
      cases hfull
    obtain ⟨hwf, hcontents⟩ := h.close hsorted hne hsize
    refine ⟨filed ++ opened, [], ?_, append_nil _⟩
    simp only [if_pos hfull]
    refine ⟨hwf, hcontents, rfl, rfl, ⟨n + 1, ?_⟩, by simp [BLOCK_MAX]⟩
    rw [length_append, hn, ← hlen, hfull, Nat.mul_succ]
  · refine ⟨filed, opened, ?_, rfl⟩
    simp only [if_neg hfull]
    refine ⟨h.wellformed, h.contents, by simp [h.keys], by simp [h.ids], h.full, ?_⟩
    have hroom := h.room
    rw [length_append, length_singleton]
    omega

theorem Given.pushAll (h : Given b filed opened)
    (hsorted : Sorted (filed ++ opened ++ ds)) (hfits : buildFits (filed ++ opened ++ ds)) :
    ∃ filed' opened', Given (b.pushAll ds) filed' opened' ∧
      filed' ++ opened' = filed ++ opened ++ ds := by
  induction ds generalizing b filed opened with
  | nil => exact ⟨filed, opened, h, (append_nil _).symm⟩
  | cons e ds ih =>
    obtain ⟨filed', opened', hgiven, heq⟩ := h.push (pairwise_append.mp hsorted).1 hfits (e := e)
    have hall : filed' ++ (opened' ++ [e]) ++ ds = filed ++ opened ++ e :: ds := by
      rw [← append_assoc, heq]
      simp
    obtain ⟨filed₂, opened₂, hgiven', heq'⟩ := ih hgiven (hall ▸ hsorted) (hall ▸ hfits)
    exact ⟨filed₂, opened₂, hgiven', heq'.trans hall⟩

/-- A bulk build holds the entries it was given. -/
theorem build_contents (hsorted : Sorted es) (hfits : buildFits es) :
    StrPostings.Wellformed (build es).blocks ∧ StrPostings.contents (build es).blocks = es := by
  have hstart : Given ⟨[], [], [], 0⟩ [] [] :=
    ⟨⟨by simp, Pairwise.nil⟩, rfl, rfl, rfl, ⟨0, rfl⟩, Nat.zero_le _⟩
  obtain ⟨filed, opened, hgiven, heq⟩ := hstart.pushAll hsorted hfits
  rw [nil_append, nil_append] at heq
  obtain ⟨n, hn⟩ := hgiven.full
  rw [build, finish]
  by_cases hopen : (StrPostingsBuilder.pushAll ⟨[], [], [], 0⟩ es).keys = []
  · have hnil : opened = [] := map_eq_nil_iff.mp (hgiven.keys.symm.trans hopen)
    rw [hnil, append_nil] at heq
    simp only [if_pos hopen]
    exact ⟨hgiven.wellformed, hgiven.contents.trans heq⟩
  · have hne : opened ≠ [] := by
      rintro rfl
      exact hopen hgiven.keys
    have hfits' : buildFits (filed ++ opened ++ []) := by rwa [append_nil, heq]
    have hsize := chunk_eq hfits' hn (.inr ⟨hgiven.room, rfl⟩)
    simp only [if_neg hopen]
    have hclose := hgiven.close (heq ▸ hsorted) hne hsize
    rwa [heq] at hclose

end StrPostingsBuilder

/-! ### Every run -/

/-- Postings that are a multimap: what iteration, ranges and a bulk build give. -/
structure IsMultimap (idx : StrPostings) (m : Multimap) : Prop where
  iter : Lists (idx.range .unbounded .unbounded) m
  range : ∀ lower upper, idx.range lower upper =
    (idx.range .unbounded .unbounded).filter (StrPostings.within lower upper)
  rangeBack : ∀ lower upper, idx.rangeBack lower upper = (idx.range lower upper).reverse
  built : StrPostingsBuilder.buildFits (idx.range .unbounded .unbounded) → ∀ lower upper,
    (StrPostingsBuilder.build (idx.range .unbounded .unbounded)).range lower upper =
      idx.range lower upper

theorem Represents.isMultimap {idx : StrPostings} {m : Multimap} (h : Represents idx m) :
    IsMultimap idx m := by
  have hiter : idx.range .unbounded .unbounded = StrPostings.contents idx.blocks :=
    (h.wellformed.range _ _).1.trans (filter_eq_self.mpr fun _ _ => rfl)
  refine ⟨hiter ▸ h.lists, ?_, fun lower upper => (h.wellformed.range lower upper).2, ?_⟩
  · intro lower upper
    rw [hiter]
    exact (h.wellformed.range lower upper).1
  · intro hfits lower upper
    rw [hiter] at hfits ⊢
    obtain ⟨hwf, hcontents⟩ := StrPostingsBuilder.build_contents h.lists.sorted hfits
    rw [(hwf.range lower upper).1, hcontents, (h.wellformed.range lower upper).1]

/-- **Postings.** Over every run of clones, inserts and removes whose keys fit their blocks, each
handle is the multimap of the pairs filed in it, and a remove says whether it took a key's last
id. -/
theorem postings_run (ops : List Op) (hfits : runFits [.empty] ops = true) :
    (run [.empty] ops).2 = (Multimap.run [∅] ops).2 ∧
      Forall₂ IsMultimap (run [.empty] ops).1 (Multimap.run [∅] ops).1 := by
  obtain ⟨hhandles, hout⟩ := Represents.run (.cons Represents.empty .nil) hfits
  exact ⟨hout, hhandles.imp fun _ _ h => h.isMultimap⟩

/-- Two handles that part after a clone. -/
def partedOps : List Op :=
  [.insert 0 [5, 7] 1, .clone 0, .insert 1 [5] 2, .insert 1 [] 3, .remove 0 [5, 7] 1]

theorem parted_run : (run [.empty] partedOps).2 = (Multimap.run [∅] partedOps).2 ∧
    Forall₂ IsMultimap (run [.empty] partedOps).1 (Multimap.run [∅] partedOps).1 :=
  postings_run partedOps (by decide +kernel)

/-! ### Keys of `2 ^ 32` bytes -/

section Huge

variable {key : Key}

/-- A first key of `2 ^ 32` bytes is read back empty: its offsets are cut to a `u32`. -/
theorem range_huge (hlen : key.length = 2 ^ 32) (id : ℕ) :
    (StrPostings.empty.insert key id).range .unbounded .unbounded = [([], [id])] := by
  have hblocks : (StrPostings.empty.insert key id).blocks = [(key, .packed [key] [[id]])] := rfl
  have hpacked : StrBlock.packed [key] [[id]] = ⟨key, 0, [0], [[id]]⟩ := by
    have hcut : u32 key.length = 0 := by rw [hlen, u32, Nat.mod_self]
    simp [StrBlock.packed, StrBlock.commonOf, StrBlock.ofRests, StrBlock.offsets, hcut]
  rw [StrPostings.range, StrPostings.rangeBlocks, hblocks, hpacked]
  rfl

/-- A key of `2 ^ 32` bytes is not listed, though it was inserted. -/
theorem huge_lost : ¬ Forall₂ IsMultimap
    (run [.empty] [.insert 0 (replicate (2 ^ 32) 0) 1]).1
    (Multimap.run [∅] [.insert 0 (replicate (2 ^ 32) 0) 1]).1 := by
  intro h
  have hiter : Lists ((StrPostings.empty.insert (replicate (2 ^ 32) 0) 1).range .unbounded
      .unbounded) (insert (replicate (2 ^ 32) 0, 1) ∅) := (forall₂_cons.mp h).1.iter
  rw [range_huge length_replicate] at hiter
  obtain ⟨ids, hget, -⟩ := (hiter.mem (replicate (2 ^ 32) 0) 1).mp (Finset.mem_insert_self _ _)
  rw [get?] at hget
  split_ifs at hget with hnil
  · have hlen := congrArg length hnil
    rw [length_replicate] at hlen
    exact absurd hlen (Nat.ne_of_gt (Nat.two_pow_pos 32))
  · cases hget

end Huge

end StrIndex

end LoraDb
