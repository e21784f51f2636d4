import LoraDb.AdjacencyAlloc

/-!
# Shared Adjacency Allocations

A handle on an adjacency is null or points at an allocation that it may share with other
handles: cloning adds to the count in the allocation's header, and a handle copies a shared
allocation before it changes it. A clone past the count's limit copies at once.

The lists a program sees are compared with plain lists, one pair for each handle (`Lists`),
which know nothing of bytes, capacities or sharing.

## Main results

* `Rep`: which pair of lists every handle stands for.
* `step_refines`: one call keeps the representation and answers as the plain lists do.
* `handles_refine`: so does every run, over any calls on any handles.
-/

open Function (update_of_ne update_self)
open ByteCodec List

namespace LoraDb

open Option

namespace AdjBytes

/-- The allocations by address, the first address never used, and the handles; a dropped
handle is a null one. -/
structure AdjHeap where
  mem : ℕ → Option Alloc
  fresh : ℕ
  handles : List (Option ℕ)

namespace AdjHeap

def empty : AdjHeap := ⟨fun _ => none, 0, []⟩

/-- What a handle points at. -/
def ptr (heap : AdjHeap) (h : ℕ) : Option ℕ := heap.handles.getD h none

def alloc (heap : AdjHeap) (h : ℕ) : Option Alloc := (heap.ptr h).bind heap.mem

/-- The written bytes of a side, none for a null handle. -/
def side (heap : AdjHeap) (h : ℕ) (on : Side) : Bytes := (heap.alloc h).elim [] (·.side on)

/-- What iterating a side yields. -/
def entries (heap : AdjHeap) (h : ℕ) (on : Side) : List AdjEntry :=
  AdjBytes.entries (heap.side h on) (on == .into)

def count (heap : AdjHeap) (h : ℕ) (on : Side) : ℕ :=
  AdjBytes.count (heap.side h on) (on == .into)

def store (heap : AdjHeap) (p : ℕ) (a : Option Alloc) : AdjHeap :=
  { heap with mem := Function.update heap.mem p a }

/-- Point a handle at a new allocation. -/
def place (heap : AdjHeap) (h : ℕ) (a : Alloc) : AdjHeap :=
  ⟨Function.update heap.mem heap.fresh (some a), heap.fresh + 1,
    heap.handles.set h (some heap.fresh)⟩

/-- Drop a handle's share; the last one frees the allocation. -/
def free (heap : AdjHeap) (h : ℕ) : AdjHeap :=
  match heap.ptr h with
  | none => heap
  | some p =>
    let left := (heap.mem p).bind fun a =>
      if a.rc = 1 then none else some { a with capRc := a.capRc - 1 }
    { heap.store p left with handles := heap.handles.set h none }

/-- Make a handle the sole owner of its allocation. -/
def makeUnique (heap : AdjHeap) (h min : ℕ) : AdjHeap :=
  match heap.alloc h with
  | none => heap
  | some a => if a.rc = 1 then heap else (heap.free h).place h (a.copyWithCapacity min)

/-- Change the allocation of a handle in place. -/
def modify (heap : AdjHeap) (h : ℕ) (f : Alloc → Alloc) : AdjHeap :=
  match heap.ptr h with
  | none => heap
  | some p => heap.store p ((heap.mem p).map f)

def grow (heap : AdjHeap) (h cap : ℕ) : AdjHeap :=
  match heap.ptr h with
  | none => heap.place h (Alloc.allocate cap)
  | some _ => heap.modify h (·.grow cap)

def capOf (heap : AdjHeap) (h : ℕ) : ℕ := (heap.alloc h).elim 0 Alloc.cap

/-- Add an entry to a side; `none` where the list would exceed four gibibytes. -/
def push (heap : AdjHeap) (h : ℕ) (on : Side) (entry : AdjEntry) : Option AdjHeap :=
  let len := (encode entry (on == .into)).length
  let used := (heap.alloc h).elim 0 Alloc.used
  let cap := heap.capOf h
  if cap < used + len ∧ MAX_CAP < used + len then none
  else
    -- Growing by half.
    let want := if cap < used + len then min (max (used + len) (cap + cap / 2)) MAX_CAP else cap
    let heap := heap.makeUnique h want
    let heap := if heap.capOf h < used + len then heap.grow h (capacityFor want) else heap
    some (heap.modify h (·.write on entry))

/-- Free the allocation once both its lists are empty. -/
def freeIfEmpty (heap : AdjHeap) (h : ℕ) : AdjHeap :=
  if (heap.side h .out).isEmpty && (heap.side h .into).isEmpty then heap.free h else heap

/-- Around the first entry of a side that `p` holds of. -/
def findOn (heap : AdjHeap) (h : ℕ) (on : Side) (p : AdjEntry → Bool) : Option (ℕ × ℕ) :=
  let bytes := heap.side h on
  find bytes (on == .into) p (bytes.length + 1) (startPos bytes (on == .into))

/-- Remove the entry for `rel`; says whether it was present. -/
def remove (heap : AdjHeap) (h : ℕ) (on : Side) (rel : RelationshipId) : AdjHeap × Bool :=
  match heap.findOn h on fun e => e.rel == rel with
  | none => (heap, false)
  | some (before, after) =>
    let heap := (heap.makeUnique h 0).modify h (·.cut on before after)
    (heap.freeIfEmpty h, true)

/-- Remove the entries for every relationship of `rels`, a sorted list, in which the source
searches by halving; says how many entries went. -/
def removeAll (heap : AdjHeap) (h : ℕ) (on : Side) (rels : List RelationshipId) : AdjHeap × ℕ :=
  let gone := fun e : AdjEntry => rels.contains e.rel
  match heap.findOn h on gone with
  | none => (heap, 0)
  | some (first, _) =>
    let heap := heap.makeUnique h 0
    let removed := (heap.alloc h).elim 0 fun a => (a.sweep on gone first).2
    let heap := heap.modify h fun a => (a.sweep on gone first).1
    (heap.freeIfEmpty h, removed)

/-- Another handle on the same allocation, or on a copy where it has the most it can. -/
def clone (heap : AdjHeap) (h : ℕ) : AdjHeap :=
  let next := heap.handles.length
  match heap.ptr h with
  | none => { heap with handles := heap.handles ++ [none] }
  | some p =>
    match heap.mem p with
    | none => { heap with handles := heap.handles ++ [none] }
    | some a =>
      if a.rc = RC_MAX then
        { heap with handles := heap.handles ++ [none] }.place next (a.copyWithCapacity 0)
      else
        { heap.store p (some { a with capRc := a.capRc + 1 }) with
          handles := heap.handles ++ [some p] }

end AdjHeap

/-! ### Calls -/

/-- A call on the handles of a program. -/
inductive Op where
  | create
  | push (h : ℕ) (on : Side) (entry : AdjEntry)
  | remove (h : ℕ) (on : Side) (rel : RelationshipId)
  | removeAll (h : ℕ) (on : Side) (rels : List RelationshipId)
  | clone (h : ℕ)
  | clear (h : ℕ)

/-- What a call answers. -/
inductive Reply where
  | done
  | removed (present : Bool)
  | took (entries : ℕ)
deriving DecidableEq

def AdjHeap.step (heap : AdjHeap) : Op → Option (AdjHeap × Reply)
  | .create => some ({ heap with handles := heap.handles ++ [none] }, .done)
  | .push h on entry => (heap.push h on entry).map (·, .done)
  | .remove h on rel =>
    let (heap, present) := heap.remove h on rel
    some (heap, .removed present)
  | .removeAll h on rels =>
    let (heap, n) := heap.removeAll h on rels
    some (heap, .took n)
  | .clone h => some (heap.clone h, .done)
  | .clear h => some (heap.free h, .done)

def AdjHeap.run (heap : AdjHeap) : List Op → Option (AdjHeap × List Reply)
  | [] => some (heap, [])
  | op :: ops =>
    (heap.step op).bind fun r => (r.1.run ops).map fun s => (s.1, r.2 :: s.2)

/-- The lists every handle shows. -/
def AdjHeap.lists (heap : AdjHeap) : List Adjacency :=
  (range heap.handles.length).map fun h => ⟨heap.entries h .out, heap.entries h .into⟩

/-! ### Plain lists -/

/-- The pair of lists each handle has of its own. -/
abbrev Lists := List Adjacency

namespace Lists

/-- The lists of one handle. -/
def pair (adjs : Lists) (h : ℕ) : Adjacency := adjs.getD h Adjacency.empty

/-- Bytes of both lists. -/
def bytes (adj : Adjacency) : ℕ := adj.sideBytes .out + adj.sideBytes .into

/-- What a call does to plain lists: it changes one side of one handle. -/
def step (adjs : Lists) : Op → Option (Lists × Reply)
  | .create => some (adjs ++ [Adjacency.empty], .done)
  | .push h on entry =>
    let adj := pair adjs h
    if MAX_CAP < bytes adj + entry.entryLen then none
    else some (adjs.set h (adj.push on entry), .done)
  | .remove h on rel =>
    let adj := pair adjs h
    some (adjs.set h (adj.remove on rel), .removed ((adj.side on).any fun e => e.rel == rel))
  | .removeAll h on rels =>
    let adj := pair adjs h
    some (adjs.set h (adj.removeAll on rels),
      .took ((adj.side on).filter fun e => rels.contains e.rel).length)
  | .clone h => some (adjs ++ [pair adjs h], .done)
  | .clear h => some (adjs.set h Adjacency.empty, .done)

def run (adjs : Lists) : List Op → Option (Lists × List Reply)
  | [] => some (adjs, [])
  | op :: ops => (step adjs op).bind fun r => (run r.1 ops).map fun s => (s.1, r.2 :: s.2)

end Lists

/-- A call on one of `n` handles, with an entry of machine numbers. -/
def Op.Allowed (n : ℕ) : Op → Prop
  | .create => True
  | .push h _ entry => h < n ∧ Valid entry
  | .remove h _ _ | .removeAll h _ _ | .clone h | .clear h => h < n

/-- The number of handles after a call. -/
def Op.handles (n : ℕ) : Op → ℕ
  | .create | .clone _ => n + 1
  | _ => n

/-- Calls on handles that exist by then. -/
def AllAllowed : ℕ → List Op → Prop
  | _, [] => True
  | n, op :: ops => op.Allowed n ∧ AllAllowed (op.handles n) ops

/-! ### What a heap represents -/

/-- An allocation that holds two lists. -/
def Stores (a : Alloc) (adj : Adjacency) : Prop :=
  Holds a (bytesOf false adj.outgoing) (bytesOf true adj.incoming)

/-- The lists that every handle stands for, with exact handle counts. -/
structure Rep (heap : AdjHeap) (adjs : Lists) : Prop where
  length : heap.handles.length = adjs.length
  shared : ∀ p, some p ∈ heap.handles →
    ∃ a, heap.mem p = some a ∧ a.rc = heap.handles.count (some p)
  stores : ∀ (h p : ℕ) (a : Alloc) (adj : Adjacency), heap.handles[h]? = some (some p) →
    heap.mem p = some a → adjs[h]? = some adj → Stores a adj
  null : ∀ h : ℕ, heap.handles[h]? = some none → adjs[h]? = some Adjacency.empty
  fresh : ∀ p, heap.fresh ≤ p → some p ∉ heap.handles

section Counting

variable {α : Type} {xs : List α} {h h' : ℕ} {x y z : α}

theorem set_same (hx : xs[h]? = some x) : xs.set h x = xs := by
  apply ext_getElem?
  intro i
  rw [getElem?_set]
  split_ifs with hi hlt
  · subst hi
    exact hx.symm
  · subst hi
    rw [getElem?_eq_none (by omega)]
  · rfl

variable [BEq α]

theorem count_set_add (hx : xs[h]? = some x) : (xs.set h y).count z + (if x == z then 1 else 0) =
      xs.count z + if y == z then 1 else 0 := by
  induction xs generalizing h with
  | nil => simp at hx
  | cons w xs ih =>
    cases h with
    | zero =>
      obtain rfl : w = x := by simpa using hx
      simp only [set_cons_zero, count_cons]
      omega
    | succ h =>
      have hrest := ih (h := h) (by simpa using hx)
      simp only [set_cons_succ, count_cons]
      omega

/-- What occurs once occurs at one index. -/
theorem index_unique [LawfulBEq α] (hcount : xs.count x = 1) (hx : xs[h]? = some x)
    (hx' : xs[h']? = some x)
    (hy : y ≠ x) : h' = h := by
  by_contra hne
  have hcleared : (xs.set h y).count x = 0 := by
    have hset := count_set_add (y := y) (z := x) hx
    rw [if_pos BEq.rfl, if_neg (by simpa using hy)] at hset
    omega
  have hkept : (xs.set h y)[h']? = some x := by
    rw [getElem?_set_ne (Ne.symm hne)]
    exact hx'
  exact count_eq_zero.mp hcleared (mem_of_getElem? hkept)

end Counting

/-! ### The primitives -/

namespace Rep

variable {heap : AdjHeap} {adjs : Lists} {h p : ℕ} {a a' : Alloc} {adj adj' : Adjacency}

theorem ptr_eq {q : Option ℕ} (hq : heap.handles[h]? = some q) : heap.ptr h = q := by
  rw [AdjHeap.ptr, getD_eq_getElem?_getD, hq]
  rfl

theorem alloc_eq (hp : heap.handles[h]? = some (some p)) : heap.alloc h = heap.mem p := by
  rw [AdjHeap.alloc, ptr_eq hp]
  rfl

theorem alloc_null (hp : heap.handles[h]? = some none) : heap.alloc h = none := by
  rw [AdjHeap.alloc, ptr_eq hp]
  rfl

/-- A handle is null and its lists are empty, or it points at an allocation that stores
them. -/
theorem handle (hrep : Rep heap adjs) (hadj : adjs[h]? = some adj) :
    (heap.handles[h]? = some none ∧ adj = Adjacency.empty) ∨
      ∃ p a, heap.handles[h]? = some (some p) ∧ heap.mem p = some a ∧
        a.rc = heap.handles.count (some p) ∧ Stores a adj := by
  have hlt : h < heap.handles.length := by
    rw [hrep.length]
    exact (List.getElem?_eq_some_iff.mp hadj).1
  cases hq : heap.handles[h]? with
  | none =>
    rw [List.getElem?_eq_none_iff] at hq
    omega
  | some q =>
    cases q with
    | none =>
      have hnull := hrep.null h hq
      rw [hadj] at hnull
      exact .inl ⟨rfl, Option.some_inj.mp hnull⟩
    | some p =>
      obtain ⟨a, ha, hrc⟩ := hrep.shared p (mem_of_getElem? hq)
      exact .inr ⟨p, a, rfl, ha, hrc, hrep.stores h p a adj hq ha hadj⟩

/-- Only the handle count of an allocation changes. -/
theorem stores_capRc (hs : Stores a adj) {word : ℕ}
    (hword : word / 16 = a.capRc / 16) : Stores { a with capRc := word } adj := by
  have hcap : Alloc.cap { a with capRc := word } = a.cap := by rw [Alloc.cap, Alloc.cap, hword]
  exact ⟨hs.bytes, hs.outLen, hs.inLen, hs.cap.trans hcap.symm, hcap.trans_le hs.bound⟩

/-- A null handle is pointed at a new allocation. -/
theorem place (hrep : Rep heap adjs) (hnull : heap.handles[h]? = some none)
    (hs : Stores a adj) (hrc : a.rc = 1) : Rep (heap.place h a) (adjs.set h adj) := by
  have hfresh : heap.handles.count (some heap.fresh) = 0 :=
    count_eq_zero.mpr (hrep.fresh heap.fresh le_rfl)
  have hlt : h < heap.handles.length := (List.getElem?_eq_some_iff.mp hnull).1
  have hcount : ∀ q, (heap.handles.set h (some heap.fresh)).count (some q) =
      heap.handles.count (some q) + if heap.fresh = q then 1 else 0 := by
    intro q
    have hset := count_set_add (y := some heap.fresh) (z := some q) hnull
    simpa using hset
  have hold : ∀ q, heap.fresh ≠ q → some q ∈ heap.handles.set h (some heap.fresh) →
      some q ∈ heap.handles := by
    intro q hq hmem
    have hpos := count_pos_iff.mpr hmem
    rw [hcount, if_neg hq] at hpos
    exact count_pos_iff.mp hpos
  refine ⟨?_, ?_, ?_, ?_, ?_⟩
  · simp [AdjHeap.place, hrep.length]
  · intro q hmem
    by_cases hq : heap.fresh = q
    · subst hq
      refine ⟨a, by simp [AdjHeap.place], ?_⟩
      rw [hrc, AdjHeap.place, hcount, hfresh, if_pos rfl]
    · obtain ⟨b, hb, hbrc⟩ := hrep.shared q (hold q hq hmem)
      refine ⟨b, ?_, ?_⟩
      · exact (update_of_ne (Ne.symm hq) ..).trans hb
      · rw [hbrc, AdjHeap.place, hcount, if_neg hq, Nat.add_zero]
  · intro i q b adj' hi hb hadj'
    rw [AdjHeap.place] at hi hb
    by_cases hih : h = i
    · subst hih
      rw [getElem?_set_self hlt, some_inj, some_inj] at hi
      subst hi
      have hb' : a = b := by simpa using hb
      rw [getElem?_set_self (hrep.length ▸ hlt), some_inj] at hadj'
      subst hb' hadj'
      exact hs
    · rw [getElem?_set_ne hih] at hi hadj'
      have hq : q ≠ heap.fresh := by
        rintro rfl
        exact hrep.fresh heap.fresh le_rfl (mem_of_getElem? hi)
      have hb' : heap.mem q = some b := (update_of_ne hq ..).symm.trans hb
      exact hrep.stores i q b adj' hi hb' hadj'
  · intro i hi
    rw [AdjHeap.place] at hi
    by_cases hih : h = i
    · subst hih
      rw [getElem?_set_self hlt, some_inj] at hi
      cases hi
    · rw [getElem?_set_ne hih] at hi ⊢
      exact hrep.null i hi
  · intro q hq hmem
    have hq' : heap.fresh + 1 ≤ q := hq
    exact hrep.fresh q (by omega) (hold q (by omega) hmem)

/-- The sole handle of an allocation changes it in place. -/
theorem store (hrep : Rep heap adjs) (hp : heap.handles[h]? = some (some p))
    (ha : heap.mem p = some a) (hrc : a.rc = 1) (hs : Stores a' adj') (hrc' : a'.rc = 1) :
    Rep (heap.store p (some a')) (adjs.set h adj') := by
  have hlt : h < heap.handles.length := (List.getElem?_eq_some_iff.mp hp).1
  have hcount : heap.handles.count (some p) = 1 := by
    obtain ⟨b, hb, hbrc⟩ := hrep.shared p (mem_of_getElem? hp)
    rw [ha, some_inj] at hb
    rw [← hbrc, ← hb, hrc]
  refine ⟨?_, ?_, ?_, ?_, hrep.fresh⟩
  · rw [length_set]
    exact hrep.length
  · intro q hmem
    by_cases hq : q = p
    · subst hq
      exact ⟨a', update_self .., hrc'.trans hcount.symm⟩
    · obtain ⟨b, hb, hbrc⟩ := hrep.shared q hmem
      exact ⟨b, (update_of_ne hq ..).trans hb, hbrc⟩
  · intro i q b adj hi hb hadj
    by_cases hih : h = i
    · subst hih
      have hq : p = q := by
        have heq := hp.symm.trans hi
        simpa using heq
      subst hq
      have hb' : a' = b := by simpa [AdjHeap.store] using hb
      rw [getElem?_set_self (hrep.length ▸ hlt), some_inj] at hadj
      subst hb' hadj
      exact hs
    · rw [getElem?_set_ne hih] at hadj
      have hq : q ≠ p := by
        rintro rfl
        exact hih (index_unique (y := none) hcount hp hi (by simp)).symm
      have hb' : heap.mem q = some b := (update_of_ne hq ..).symm.trans hb
      exact hrep.stores i q b adj hi hb' hadj
  · intro i hi
    have hih : h ≠ i := by
      rintro rfl
      have heq := hp.symm.trans hi
      simp at heq
    rw [getElem?_set_ne hih]
    exact hrep.null i hi

/-- A dropped handle is null, and the others keep what they show. -/
theorem free (hrep : Rep heap adjs) (hadj : adjs[h]? = some adj) :
    Rep (heap.free h) (adjs.set h Adjacency.empty) ∧ (heap.free h).handles[h]? = some none := by
  obtain ⟨hnull, rfl⟩ | ⟨p, a, hp, ha, hrc, hs⟩ := hrep.handle hadj
  · have hfree : heap.free h = heap := by
      rw [AdjHeap.free, ptr_eq hnull]
    rw [hfree, set_same hadj]
    exact ⟨hrep, hnull⟩
  have hlt : h < heap.handles.length := (List.getElem?_eq_some_iff.mp hp).1
  have hcount : ∀ q, (heap.handles.set h none).count (some q) + (if p = q then 1 else 0) =
      heap.handles.count (some q) := by
    intro q
    have hset := count_set_add (y := none) (z := some q) hp
    simpa using hset
  have hold : ∀ q, some q ∈ heap.handles.set h none → some q ∈ heap.handles := by
    intro q hmem
    have hpos := count_pos_iff.mpr hmem
    have hle := hcount q
    exact count_pos_iff.mp (by omega)
  have hfree : heap.free h =
      { heap.store p (if a.rc = 1 then none else some { a with capRc := a.capRc - 1 }) with
        handles := heap.handles.set h none } := by
    rw [AdjHeap.free, ptr_eq hp]
    simp [ha]
  have hleft : some p ∈ heap.handles.set h none → a.rc ≠ 1 := by
    intro hmem hone
    have hpos := count_pos_iff.mpr hmem
    have hle := hcount p
    rw [if_pos rfl] at hle
    omega
  have hmod : a.rc = a.capRc % 16 := rfl
  refine ⟨⟨?_, ?_, ?_, ?_, ?_⟩, ?_⟩
  · rw [hfree, length_set, length_set]
    exact hrep.length
  · intro q hmem
    rw [hfree] at hmem ⊢
    obtain ⟨b, hb, hbrc⟩ := hrep.shared q (hold q hmem)
    by_cases hq : q = p
    · subst hq
      have hne := hleft hmem
      refine ⟨{ a with capRc := a.capRc - 1 }, ?_, ?_⟩
      · rw [if_neg hne]
        exact update_self ..
      · have hle := hcount q
        rw [if_pos rfl] at hle
        have hrc' : Alloc.rc { a with capRc := a.capRc - 1 } = (a.capRc - 1) % 16 := rfl
        rw [hrc']
        have hpos := count_pos_iff.mpr hmem
        change _ = (heap.handles.set h none).count _
        omega
    · refine ⟨b, (update_of_ne hq ..).trans hb, ?_⟩
      have hle := hcount q
      rw [if_neg (Ne.symm hq), Nat.add_zero] at hle
      exact hbrc.trans hle.symm
  · intro i q b adj' hi hb hadj'
    rw [hfree] at hi hb
    have hih : h ≠ i := by
      rintro rfl
      change (heap.handles.set h none)[h]? = _ at hi
      rw [getElem?_set_self hlt] at hi
      simp at hi
    have hi' : heap.handles[i]? = some (some q) := (getElem?_set_ne hih).symm.trans hi
    rw [getElem?_set_ne hih] at hadj'
    by_cases hq : q = p
    · subst hq
      have hmem : some q ∈ heap.handles.set h none := mem_of_getElem? hi
      have hne := hleft hmem
      have hb' : { a with capRc := a.capRc - 1 } = b := by
        rw [if_neg hne] at hb
        simpa [AdjHeap.store] using hb
      subst hb'
      refine stores_capRc (hrep.stores i q a adj' hi' ha hadj') ?_
      have hpos := count_pos_iff.mpr hmem
      have hle := hcount q
      omega
    · have hb' : heap.mem q = some b := (update_of_ne hq ..).symm.trans hb
      exact hrep.stores i q b adj' hi' hb' hadj'
  · intro i hi
    rw [hfree] at hi
    by_cases hih : h = i
    · subst hih
      exact getElem?_set_self (hrep.length ▸ hlt)
    · rw [getElem?_set_ne hih]
      exact hrep.null i ((getElem?_set_ne hih).symm.trans hi)
  · intro q hq hmem
    rw [hfree] at hq hmem
    exact hrep.fresh q hq (hold q hmem)
  · rw [hfree]
    exact getElem?_set_self hlt

/-- A new null handle. -/
theorem create (hrep : Rep heap adjs) :
    Rep { heap with handles := heap.handles ++ [none] } (adjs ++ [Adjacency.empty]) := by
  have hmem : ∀ q, some q ∈ heap.handles ++ [none] → some q ∈ heap.handles := by
    intro q hq
    simpa using hq
  have hold : ∀ (i q : ℕ), (heap.handles ++ [none])[i]? = some (some q) →
      i < heap.handles.length := by
    intro i q hi
    by_contra hge
    rw [List.getElem?_append_right (Nat.le_of_not_lt hge)] at hi
    cases hdiff : i - heap.handles.length with
    | zero => simp [hdiff] at hi
    | succ n => simp [hdiff] at hi
  refine ⟨?_, ?_, ?_, ?_, ?_⟩
  · simp [hrep.length]
  · intro q hq
    obtain ⟨b, hb, hbrc⟩ := hrep.shared q (hmem q hq)
    exact ⟨b, hb, by simp [hbrc, count_append]⟩
  · intro i q b adj hi hb hadj
    have hlt := hold i q hi
    rw [getElem?_append_left hlt] at hi
    rw [getElem?_append_left (hrep.length ▸ hlt)] at hadj
    exact hrep.stores i q b adj hi hb hadj
  · intro i hi
    by_cases hlt : i < heap.handles.length
    · rw [getElem?_append_left hlt] at hi
      rw [getElem?_append_left (hrep.length ▸ hlt)]
      exact hrep.null i hi
    · have hlast : i = heap.handles.length := by
        have hbound := (List.getElem?_eq_some_iff.mp hi).1
        simp only [length_append, length_singleton] at hbound
        omega
      rw [hlast, hrep.length]
      exact getElem?_concat_length
  · intro q hq hin
    exact hrep.fresh q hq (hmem q hin)

/-- Another handle on an allocation that can have one more. -/
theorem share (hrep : Rep heap adjs) (hadj : adjs[h]? = some adj)
    (hp : heap.handles[h]? = some (some p)) (ha : heap.mem p = some a) (hrc : a.rc ≠ RC_MAX) :
    Rep { heap.store p (some { a with capRc := a.capRc + 1 }) with
      handles := heap.handles ++ [some p] } (adjs ++ [adj]) := by
  have hmod : a.rc = a.capRc % 16 := rfl
  have hmax : RC_MAX = 15 := rfl
  have hcount : ∀ q, (heap.handles ++ [some p]).count (some q) =
      heap.handles.count (some q) + if p = q then 1 else 0 := by
    intro q
    rw [count_append, count_singleton]
    by_cases hq : p = q <;> simp [hq]
  have hpin : some p ∈ heap.handles := mem_of_getElem? hp
  have hmem : ∀ q, some q ∈ heap.handles ++ [some p] → some q ∈ heap.handles := by
    intro q hq
    rcases mem_append.mp hq with hq | hq
    · exact hq
    · obtain rfl : q = p := by simpa using hq
      exact hpin
  have hs := hrep.stores h p a adj hp ha hadj
  refine ⟨?_, ?_, ?_, ?_, ?_⟩
  · simp [hrep.length]
  · intro q hq
    obtain ⟨b, hb, hbrc⟩ := hrep.shared q (hmem q hq)
    by_cases hpq : p = q
    · subst hpq
      refine ⟨{ a with capRc := a.capRc + 1 }, update_self .., ?_⟩
      rw [hcount, if_pos rfl]
      have hb' : a = b := by simpa [ha] using hb
      have hrc' : Alloc.rc { a with capRc := a.capRc + 1 } = (a.capRc + 1) % 16 := rfl
      rw [hrc', ← hbrc, ← hb']
      omega
    · refine ⟨b, (update_of_ne (Ne.symm hpq) ..).trans hb, ?_⟩
      rw [hcount, if_neg hpq, hbrc, Nat.add_zero]
  · intro i q b adj' hi hb hadj'
    have hstore : ∀ (j : ℕ) (adj' : Adjacency), heap.handles[j]? = some (some q) →
        adjs[j]? = some adj' → Stores b adj' := by
      intro j adj' hj hadj'
      by_cases hpq : q = p
      · subst hpq
        have hb' : { a with capRc := a.capRc + 1 } = b := by simpa [AdjHeap.store] using hb
        subst hb'
        refine stores_capRc (hrep.stores j q a adj' hj ha hadj') ?_
        omega
      · have hb' : heap.mem q = some b := (update_of_ne hpq ..).symm.trans hb
        exact hrep.stores j q b adj' hj hb' hadj'
    by_cases hlt : i < heap.handles.length
    · rw [getElem?_append_left hlt] at hi
      rw [getElem?_append_left (hrep.length ▸ hlt)] at hadj'
      exact hstore i adj' hi hadj'
    · have hlast : i = heap.handles.length := by
        have hbound := (List.getElem?_eq_some_iff.mp hi).1
        simp only [length_append, length_singleton] at hbound
        omega
      have hq : some p = some q := by
        rw [hlast, getElem?_concat_length] at hi
        exact Option.some_inj.mp hi
      rw [hlast, hrep.length, getElem?_concat_length] at hadj'
      rw [← Option.some_inj.mp hadj']
      exact hstore h adj (hq ▸ hp) hadj
  · intro i hi
    by_cases hlt : i < heap.handles.length
    · rw [getElem?_append_left hlt] at hi
      rw [getElem?_append_left (hrep.length ▸ hlt)]
      exact hrep.null i hi
    · have hlast : i = heap.handles.length := by
        have hbound := (List.getElem?_eq_some_iff.mp hi).1
        simp only [length_append, length_singleton] at hbound
        omega
      rw [hlast, getElem?_concat_length] at hi
      cases hi
  · intro q hq hin
    exact hrep.fresh q hq (hmem q hin)

/-! ### Allocations of one handle -/

/-- The sole handle of an allocation that stores its lists. -/
structure Sole (heap : AdjHeap) (h p : ℕ) (a : Alloc) (adj : Adjacency) : Prop where
  points : heap.handles[h]? = some (some p)
  mem : heap.mem p = some a
  rc : a.rc = 1
  stores : Stores a adj

theorem place_sole (hlt : h < heap.handles.length) (hs : Stores a adj) (hrc : a.rc = 1) :
    Sole (heap.place h a) h heap.fresh a adj :=
  ⟨getElem?_set_self hlt, update_self .., hrc, hs⟩

theorem Sole.modify (hsole : Sole heap h p a adj) (hrep : Rep heap adjs) (f : Alloc → Alloc)
    (hs : Stores (f a) adj') (hrc : (f a).rc = 1) :
    Rep (heap.modify h f) (adjs.set h adj') ∧ Sole (heap.modify h f) h p (f a) adj' := by
  have heq : heap.modify h f = heap.store p (some (f a)) := by
    rw [AdjHeap.modify, ptr_eq hsole.points]
    exact congrArg (heap.store p) (congrArg (Option.map f) hsole.mem)
  rw [heq]
  exact ⟨hrep.store hsole.points hsole.mem hsole.rc hs hrc,
    ⟨hsole.points, update_self .., hrc, hs⟩⟩

/-- A handle made unique shows what it showed, in an allocation of its own or none. -/
theorem makeUnique (hrep : Rep heap adjs) (hadj : adjs[h]? = some adj) {min : ℕ}
    (hmin : min ≤ MAX_CAP) :
    Rep (heap.makeUnique h min) adjs ∧
      (heap.handles[h]? = some none ∧ heap.makeUnique h min = heap ∨
        ∃ p a, Sole (heap.makeUnique h min) h p a adj ∧ (min ≤ a.cap ∨ a.cap = heap.capOf h)) := by
  obtain ⟨hnull, rfl⟩ | ⟨p, a, hp, ha, hrc, hs⟩ := hrep.handle hadj
  · have heq : heap.makeUnique h min = heap := by
      rw [AdjHeap.makeUnique, alloc_null hnull]
    rw [heq]
    exact ⟨hrep, .inl ⟨hnull, rfl⟩⟩
  have halloc : heap.alloc h = some a := (alloc_eq hp).trans ha
  by_cases hone : a.rc = 1
  · have heq : heap.makeUnique h min = heap := by
      rw [AdjHeap.makeUnique, halloc]
      simp [hone]
    have hcap : a.cap = heap.capOf h := by
      rw [AdjHeap.capOf, halloc]
      rfl
    rw [heq]
    exact ⟨hrep, .inr ⟨p, a, ⟨hp, ha, hone, hs⟩, .inr hcap⟩⟩
  · have heq : heap.makeUnique h min = (heap.free h).place h (a.copyWithCapacity min) := by
      rw [AdjHeap.makeUnique, halloc]
      simp [hone]
    obtain ⟨hfree, hnull⟩ := hrep.free hadj
    obtain ⟨hcopy, hroom, hrc'⟩ := hs.copyWithCapacity hmin
    have hplace := hfree.place hnull hcopy hrc'
    rw [set_set, set_same hadj] at hplace
    have hlt := (List.getElem?_eq_some_iff.mp hnull).1
    rw [heq]
    exact ⟨hplace, .inr ⟨_, _, place_sole hlt hcopy hrc', .inl hroom⟩⟩

/-- Freeing an allocation with empty lists changes nothing that is shown. -/
theorem freeIfEmpty (hrep : Rep heap adjs) (hadj : adjs[h]? = some adj)
    (hside : ∀ on, heap.side h on = bytesOf (on == .into) (adj.side on)) :
    Rep (heap.freeIfEmpty h) adjs := by
  rw [AdjHeap.freeIfEmpty]
  split_ifs with hempty
  · rw [Bool.and_eq_true, List.isEmpty_iff, List.isEmpty_iff, hside, hside] at hempty
    have hnone : adj = Adjacency.empty := by
      apply Adjacency.ext_side
      intro on
      cases on with
      | out => exact bytesOf_eq_nil hempty.1
      | into => exact bytesOf_eq_nil hempty.2
    have hfree := (hrep.free hadj).1
    rw [← hnone, set_same hadj] at hfree
    exact hfree
  · exact hrep

/-- The written bytes of a side are those of the list the handle stands for. -/
theorem side_eq (hrep : Rep heap adjs) (hadj : adjs[h]? = some adj) (on : Side) :
    heap.side h on = bytesOf (on == .into) (adj.side on) := by
  obtain ⟨hnull, rfl⟩ | ⟨p, a, hp, ha, -, hs⟩ := hrep.handle hadj
  · rw [AdjHeap.side, alloc_null hnull]
    cases on <;> rfl
  · rw [AdjHeap.side, alloc_eq hp, ha]
    cases on with
    | out => exact hs.side_out
    | into => exact hs.side_into

theorem bytes_eq (hrep : Rep heap adjs) (hadj : adjs[h]? = some adj) :
    (heap.alloc h).elim 0 Alloc.used = Lists.bytes adj ∧
      Lists.bytes adj ≤ heap.capOf h ∧ heap.capOf h ≤ MAX_CAP := by
  obtain ⟨hnull, rfl⟩ | ⟨p, a, hp, ha, -, hs⟩ := hrep.handle hadj
  · rw [AdjHeap.capOf, alloc_null hnull]
    exact ⟨rfl, le_rfl, Nat.zero_le _⟩
  · have hused := hs.used_eq
    have hle := hs.used_le
    rw [bytesOf_length, bytesOf_length] at hused hle
    rw [AdjHeap.capOf, alloc_eq hp, ha]
    exact ⟨hused, hle, hs.bound⟩

end Rep

/-! ### One allocation, one call -/

namespace Stores

variable {a : Alloc} {adj : Adjacency} {on : Side} {entry : AdjEntry}
  {passed coming : List AdjEntry}

theorem write (hs : Stores a adj) (hroom : Lists.bytes adj + entry.entryLen ≤ a.cap) :
    Stores (a.write on entry) (adj.push on entry) := by
  have hlen : ∀ m, (encode entry m).length = entry.entryLen := encode_length entry
  have hbytes : (bytesOf false adj.outgoing).length + (bytesOf true adj.incoming).length =
      Lists.bytes adj := by
    rw [bytesOf_length, bytesOf_length]
    rfl
  cases on with
  | out =>
    have hfit := hroom
    rw [← hbytes, ← hlen false] at hfit
    have hwrite := hs.write_out hfit
    simpa [Stores, Adjacency.push, Adjacency.edit, bytesOf_append, bytesOf] using hwrite
  | into =>
    have hfit := hroom
    rw [← hbytes, ← hlen true] at hfit
    have hwrite := hs.write_into hfit
    simpa [Stores, Adjacency.push, Adjacency.edit, bytesOf_append, bytesOf] using hwrite

theorem cut (hs : Stores a adj) (hside : adj.side on = passed ++ entry :: coming) :
    Stores (a.cut on (edge (on == .into) passed (entry :: coming))
        (edge (on == .into) (passed ++ [entry]) coming))
      (adj.edit on fun _ => passed ++ coming) := by
  cases on with
  | out =>
    have hside' : adj.outgoing = passed ++ entry :: coming := hside
    have hholds : Holds a (bytesOf false passed ++ (encode entry false ++ bytesOf false coming))
        (bytesOf true adj.incoming) := by
      have hs' : Holds a (bytesOf false adj.outgoing) (bytesOf true adj.incoming) := hs
      simpa [hside', bytesOf_append, bytesOf] using hs'
    have hcut := hholds.cut_out
    simpa [Stores, Adjacency.edit, bytesOf_append, bytesOf, edge] using hcut
  | into =>
    have hside' : adj.incoming = passed ++ entry :: coming := hside
    have hholds : Holds a (bytesOf false adj.outgoing)
        (bytesOf true coming ++ (encode entry true ++ bytesOf true passed)) := by
      have hs' : Holds a (bytesOf false adj.outgoing) (bytesOf true adj.incoming) := hs
      simpa [hside', bytesOf_append, bytesOf] using hs'
    have hcut := hholds.cut_into
    simpa [Stores, Adjacency.edit, bytesOf_append, bytesOf, edge] using hcut

theorem sweep (hs : Stores a adj) (gone : AdjEntry → Bool)
    (hside : adj.side on = passed ++ coming) (hvalid : ∀ e ∈ coming, Valid e) :
    Stores (a.sweep on gone (edge (on == .into) passed coming)).1
        (adj.edit on fun _ => passed ++ stay gone coming) ∧
      (a.sweep on gone (edge (on == .into) passed coming)).2 = (coming.filter gone).length := by
  have hs' : Holds a (bytesOf false adj.outgoing) (bytesOf true adj.incoming) := hs
  cases on with
  | out =>
    have hside' : adj.outgoing = passed ++ coming := hside
    rw [hside'] at hs'
    exact hs'.sweep_out hvalid
  | into =>
    have hside' : adj.incoming = passed ++ coming := hside
    rw [hside'] at hs'
    exact hs'.sweep_into hvalid

end Stores

theorem rc_write (a : Alloc) (on : Side) (entry : AdjEntry) : (a.write on entry).rc = a.rc := by
  cases on <;> rfl

theorem rc_cut (a : Alloc) (on : Side) (before after : ℕ) : (a.cut on before after).rc = a.rc := by
  cases on <;> rfl

theorem rc_sweep (a : Alloc) (on : Side) (gone : AdjEntry → Bool) (first : ℕ) :
    (a.sweep on gone first).1.rc = a.rc := by
  cases on <;> rfl

theorem edit_eq {adj : Adjacency} {on : Side} {f : List AdjEntry → List AdjEntry}
    {l : List AdjEntry} (h : f (adj.side on) = l) : adj.edit on f = adj.edit on fun _ => l := by
  subst h
  cases on <;> rfl

/-! ### One call -/

/-- Every entry of every list has machine numbers. -/
def AllValid (adjs : Lists) : Prop := ∀ adj ∈ adjs, ∀ on, ∀ e ∈ adj.side on, Valid e

section Calls

variable {heap heap' : AdjHeap} {adjs adjs' : Lists} {h : ℕ} {adj : Adjacency} {on : Side}
  {entry : AdjEntry} {p : AdjEntry → Bool}

/-- What a search on a handle finds in the list it stands for. -/
theorem findOn_eq (hrep : Rep heap adjs) (hadj : adjs[h]? = some adj)
    (hvalid : ∀ e ∈ adj.side on, Valid e) :
    (heap.findOn h on p = none ∧ ∀ e ∈ adj.side on, p e = false) ∨
      ∃ passed entry coming, adj.side on = passed ++ entry :: coming ∧
        (∀ e ∈ passed, p e = false) ∧ p entry = true ∧
        heap.findOn h on p = some (edge (on == .into) passed (entry :: coming),
          edge (on == .into) (passed ++ [entry]) coming) := by
  rw [AdjHeap.findOn, hrep.side_eq hadj on]
  exact find_bytesOf hvalid

/-- A handle that shows an entry, made unique, has an allocation of its own. -/
theorem unique_of_mem (hrep : Rep heap adjs) (hadj : adjs[h]? = some adj)
    (hmem : entry ∈ adj.side on) :
    Rep (heap.makeUnique h 0) adjs ∧ ∃ p a, Rep.Sole (heap.makeUnique h 0) h p a adj := by
  obtain ⟨hrep', hnull | ⟨p, a, hsole, -⟩⟩ := hrep.makeUnique hadj (Nat.zero_le _)
  · obtain ⟨-, rfl⟩ | ⟨p, a, hp, -⟩ := hrep.handle hadj
    · rw [Adjacency.side_empty] at hmem
      cases hmem
    · rw [hnull.1] at hp
      simp at hp
  · exact ⟨hrep', p, a, hsole⟩

theorem freeIfEmpty_rep (hrep : Rep heap adjs) (hadj : adjs[h]? = some adj) :
    Rep (heap.freeIfEmpty h) adjs :=
  hrep.freeIfEmpty hadj (hrep.side_eq hadj)

theorem getElem?_set_adj (hadj : adjs[h]? = some adj) (adj' : Adjacency) :
    (adjs.set h adj')[h]? = some adj' :=
  getElem?_set_self (List.getElem?_eq_some_iff.mp hadj).1

/-- A push fails past four gibibytes of entries, and else adds its entry. -/
theorem push_refines (on : Side) (entry : AdjEntry) (hrep : Rep heap adjs)
    (hadj : adjs[h]? = some adj) :
    (MAX_CAP < Lists.bytes adj + entry.entryLen ∧ heap.push h on entry = none) ∨
      (¬ MAX_CAP < Lists.bytes adj + entry.entryLen ∧ ∃ heap', heap.push h on entry = some heap' ∧
          Rep heap' (adjs.set h (adj.push on entry))) := by
  obtain ⟨hused, hle, hbound⟩ := hrep.bytes_eq hadj
  have hpos : 0 < entry.entryLen := by
    rw [AdjEntry.entryLen]
    omega
  rw [AdjHeap.push, hused, encode_length]
  by_cases hover : MAX_CAP < Lists.bytes adj + entry.entryLen
  · exact .inl ⟨hover, if_pos ⟨by omega, hover⟩⟩
  refine .inr ⟨hover, ?_⟩
  rw [if_neg (fun hboth => hover hboth.2)]
  refine ⟨_, rfl, ?_⟩
  let want := if heap.capOf h < Lists.bytes adj + entry.entryLen then
    min (max (Lists.bytes adj + entry.entryLen) (heap.capOf h + heap.capOf h / 2)) MAX_CAP
    else heap.capOf h
  have hwant : want ≤ MAX_CAP ∧ heap.capOf h ≤ want ∧ Lists.bytes adj + entry.entryLen ≤ want := by
    simp only [want]
    split_ifs <;> omega
  obtain ⟨hmax, hcap, hroom⟩ := hwant
  have hfit : want ≤ capacityFor want := le_capacityFor _
  have hfit' : capacityFor want ≤ MAX_CAP := capacityFor_le hmax
  obtain ⟨hrep', hunique⟩ := hrep.makeUnique hadj hmax
  let heap' := heap.makeUnique h want
  -- Whether it had to grow or not, the allocation has room in the end.
  have hready : ∃ p a, Rep.Sole (if heap'.capOf h < Lists.bytes adj + entry.entryLen
        then heap'.grow h (capacityFor want) else heap') h p a adj ∧
      Lists.bytes adj + entry.entryLen ≤ a.cap ∧
      Rep (if heap'.capOf h < Lists.bytes adj + entry.entryLen
        then heap'.grow h (capacityFor want) else heap') adjs := by
    obtain ⟨hnull, hsame⟩ | ⟨p, a, hsole, hgrown⟩ := hunique
    · have hnull' : heap'.handles[h]? = some none := by
        simp only [heap', hsame]
        exact hnull
      have hempty : adj = Adjacency.empty := by
        have hadj' := hrep.null h hnull
        rw [hadj] at hadj'
        exact Option.some_inj.mp hadj'
      obtain ⟨hnew, hnewCap, hrc⟩ := Holds.allocate (capacityFor_low want) hfit'
      have hstores : Stores (Alloc.allocate (capacityFor want)) adj := by
        rw [hempty]
        exact hnew
      have hzero : heap'.capOf h = 0 := by
        rw [AdjHeap.capOf, Rep.alloc_null hnull']
        rfl
      have hgrow : heap'.grow h (capacityFor want) =
          heap'.place h (Alloc.allocate (capacityFor want)) := by
        rw [AdjHeap.grow, Rep.ptr_eq hnull']
      have hplace := hrep'.place hnull' hstores hrc
      rw [set_same hadj] at hplace
      rw [if_pos (by omega), hgrow]
      exact ⟨_, _, Rep.place_sole (List.getElem?_eq_some_iff.mp hnull').1 hstores hrc,
        by omega, hplace⟩
    · have hcapOf : heap'.capOf h = a.cap := by
        rw [AdjHeap.capOf, Rep.alloc_eq hsole.points, hsole.mem]
        rfl
      rw [hcapOf]
      split_ifs with hsmall
      · have hle' : a.cap ≤ capacityFor want := by omega
        obtain ⟨hgrow, hgrowCap, hrc⟩ := hsole.stores.grow (capacityFor_low want) hle' hfit'
        have hstores : Stores (a.grow (capacityFor want)) adj := hgrow
        have hmodify := hsole.modify hrep' (·.grow (capacityFor want)) hstores hrc
        have heq : heap'.grow h (capacityFor want) =
            heap'.modify h (·.grow (capacityFor want)) := by
          rw [AdjHeap.grow, Rep.ptr_eq hsole.points]
        rw [set_same hadj] at hmodify
        rw [heq]
        exact ⟨_, _, hmodify.2, by omega, hmodify.1⟩
      · exact ⟨p, a, hsole, by omega, hrep'⟩
  obtain ⟨p, a, hsole, hcap', hrep''⟩ := hready
  exact (hsole.modify hrep'' (·.write on entry) (hsole.stores.write hcap')
    ((rc_write a on entry).trans hsole.rc)).1

theorem remove_refines (on : Side) (rel : RelationshipId) (hrep : Rep heap adjs)
    (hadj : adjs[h]? = some adj)
    (hvalid : ∀ e ∈ adj.side on, Valid e) :
    Rep (heap.remove h on rel).1 (adjs.set h (adj.remove on rel)) ∧
      (heap.remove h on rel).2 = (adj.side on).any fun e => e.rel == rel := by
  rw [AdjHeap.remove]
  obtain ⟨hfind, hnone⟩ | ⟨passed, entry, coming, hside, hpassed, hentry, hfind⟩ :=
    findOn_eq (p := fun e => e.rel == rel) hrep hadj hvalid
  · have hany : ((adj.side on).any fun e => e.rel == rel) = false := by
      rw [List.any_eq_false]
      intro e he
      simpa using hnone e he
    have hsame : adj.remove on rel = adj := by
      apply Adjacency.ext_side
      intro on'
      rw [Adjacency.remove, Adjacency.side_edit]
      split_ifs with hon
      · rw [hon]
        exact eraseP_of_forall_not fun e he => by simpa using hnone e he
      · rfl
    rw [hfind, hsame, set_same hadj, hany]
    exact ⟨hrep, rfl⟩
  · have hmem : entry ∈ adj.side on := by
      rw [hside]
      exact mem_append_right _ mem_cons_self
    obtain ⟨hrep', p, a, hsole⟩ := unique_of_mem hrep hadj hmem
    have hany : ((adj.side on).any fun e => e.rel == rel) = true :=
      any_eq_true.mpr ⟨entry, hmem, hentry⟩
    have hremove : adj.remove on rel = adj.edit on fun _ => passed ++ coming := by
      refine edit_eq ?_
      rw [hside, eraseP_append_right _ (fun e he => by simpa using hpassed e he),
        eraseP_cons_of_pos (p := fun e : AdjEntry => e.rel == rel) hentry]
    obtain ⟨hcut, -⟩ := hsole.modify hrep'
      (·.cut on (edge (on == .into) passed (entry :: coming))
        (edge (on == .into) (passed ++ [entry]) coming))
      (hsole.stores.cut hside) ((rc_cut a on _ _).trans hsole.rc)
    rw [hfind, hremove, hany]
    exact ⟨freeIfEmpty_rep hcut (getElem?_set_adj hadj _), rfl⟩

theorem removeAll_refines (on : Side) (rels : List RelationshipId) (hrep : Rep heap adjs)
    (hadj : adjs[h]? = some adj)
    (hvalid : ∀ e ∈ adj.side on, Valid e) :
    Rep (heap.removeAll h on rels).1 (adjs.set h (adj.removeAll on rels)) ∧
      (heap.removeAll h on rels).2 =
        ((adj.side on).filter fun e => rels.contains e.rel).length := by
  rw [AdjHeap.removeAll]
  obtain ⟨hfind, hnone⟩ | ⟨passed, entry, coming, hside, hpassed, hentry, hfind⟩ :=
    findOn_eq (p := fun e => rels.contains e.rel) hrep hadj hvalid
  · have hall : ((adj.side on).filter fun e => !rels.contains e.rel) = adj.side on := by
      rw [filter_eq_self]
      intro e he
      rw [hnone e he]
      rfl
    have hno : ((adj.side on).filter fun e => rels.contains e.rel) = [] := by
      rw [filter_eq_nil_iff]
      intro e he
      rw [hnone e he]
      exact Bool.false_ne_true
    have hsame : adj.removeAll on rels = adj := by
      apply Adjacency.ext_side
      intro on'
      rw [Adjacency.removeAll, Adjacency.side_edit]
      split_ifs with hon
      · rw [hon]
        exact hall
      · rfl
    simp only [hfind]
    rw [hsame, set_same hadj, hno]
    exact ⟨hrep, rfl⟩
  · have hmem : entry ∈ adj.side on := by
      rw [hside]
      exact mem_append_right _ mem_cons_self
    have hcoming : ∀ e ∈ entry :: coming, Valid e := by
      intro e he
      refine hvalid e ?_
      rw [hside]
      exact mem_append_right _ he
    obtain ⟨hrep', p, a, hsole⟩ := unique_of_mem hrep hadj hmem
    obtain ⟨hstores, htook⟩ := hsole.stores.sweep (fun e => rels.contains e.rel) hside hcoming
    obtain ⟨hswept, -⟩ := hsole.modify hrep'
      (fun a => (a.sweep on (fun e => rels.contains e.rel)
        (edge (on == .into) passed (entry :: coming))).1)
      hstores ((rc_sweep a on _ _).trans hsole.rc)
    have hstay : (passed.filter fun e => !rels.contains e.rel) = passed := by
      rw [filter_eq_self]
      intro e he
      rw [hpassed e he]
      rfl
    have hwent : (passed.filter fun e => rels.contains e.rel) = [] := by
      rw [filter_eq_nil_iff]
      intro e he
      rw [hpassed e he]
      exact Bool.false_ne_true
    have hremove : adj.removeAll on rels = adj.edit on fun _ =>
        passed ++ stay (fun e => rels.contains e.rel) (entry :: coming) := by
      refine edit_eq ?_
      rw [hside, filter_append, hstay]
      rfl
    have halloc : (heap.makeUnique h 0).alloc h = some a := by
      rw [Rep.alloc_eq hsole.points, hsole.mem]
    simp only [hfind, halloc, elim_some]
    rw [hremove, htook, hside, filter_append, hwent, nil_append]
    exact ⟨freeIfEmpty_rep hswept (getElem?_set_adj hadj _), rfl⟩

theorem clone_refines (hrep : Rep heap adjs) (hadj : adjs[h]? = some adj) :
    Rep (heap.clone h) (adjs ++ [adj]) := by
  rw [AdjHeap.clone]
  obtain ⟨hnull, rfl⟩ | ⟨p, a, hp, ha, -, hs⟩ := hrep.handle hadj
  · rw [Rep.ptr_eq hnull]
    exact hrep.create
  · rw [Rep.ptr_eq hp]
    simp only [ha]
    split_ifs with hfull
    · obtain ⟨hcopy, -, hrc⟩ := hs.copyWithCapacity (Nat.zero_le MAX_CAP)
      have hnew := hrep.create.place getElem?_concat_length hcopy hrc
      rw [hrep.length, set_append_right _ _ le_rfl, Nat.sub_self] at hnew
      rw [hrep.length]
      exact hnew
    · exact hrep.share hadj hp ha hfull

end Calls

/-! ### Every run -/

section Runs

variable {heap : AdjHeap} {adjs : Lists} {h : ℕ} {adj : Adjacency} {op : Op} {ops : List Op}

theorem AllValid.append (hvalid : AllValid adjs) (hadj : ∀ on, ∀ e ∈ adj.side on, Valid e) :
    AllValid (adjs ++ [adj]) := by
  intro adj' hmem
  rcases mem_append.mp hmem with hmem | hmem
  · exact hvalid adj' hmem
  · rw [mem_singleton.mp hmem]
    exact hadj

theorem AllValid.set (hvalid : AllValid adjs) (hadj : ∀ on, ∀ e ∈ adj.side on, Valid e) :
    AllValid (adjs.set h adj) := by
  intro adj' hmem
  rcases mem_or_eq_of_mem_set hmem with hmem | rfl
  · exact hvalid adj' hmem
  · exact hadj

/-- An edited side keeps some of its entries and gains only valid ones. -/
theorem valid_edit {on : Side} {f : List AdjEntry → List AdjEntry}
    (hadj : ∀ on, ∀ e ∈ adj.side on, Valid e)
    (hf : ∀ e ∈ f (adj.side on), e ∈ adj.side on ∨ Valid e) :
    ∀ on', ∀ e ∈ (adj.edit on f).side on', Valid e := by
  intro on' e he
  rw [Adjacency.side_edit] at he
  split_ifs at he with hon
  · exact (hf e he).elim (hadj on e) id
  · exact hadj on' e he

theorem valid_empty : ∀ on, ∀ e ∈ Adjacency.empty.side on, Valid e := by
  intro on e he
  rw [Adjacency.side_empty] at he
  cases he

/-- One call keeps the representation and answers as the plain lists do. -/
theorem step_refines (hrep : Rep heap adjs) (hvalid : AllValid adjs)
    (hop : op.Allowed adjs.length) :
    (heap.step op = none ∧ Lists.step adjs op = none) ∨
      ∃ heap' adjs' reply, heap.step op = some (heap', reply) ∧
        Lists.step adjs op = some (adjs', reply) ∧ Rep heap' adjs' ∧ AllValid adjs' ∧
        adjs'.length = op.handles adjs.length := by
  have hget : ∀ h, h < adjs.length → adjs[h]? = some (Lists.pair adjs h) := by
    intro h hlt
    rw [Lists.pair, getD_eq_getElem?_getD, getElem?_eq_getElem hlt]
    rfl
  have hpair : ∀ h, h < adjs.length → ∀ on, ∀ e ∈ (Lists.pair adjs h).side on, Valid e :=
    fun h hlt => hvalid _ (mem_of_getElem? (hget h hlt))
  cases op with
  | create =>
    exact .inr ⟨_, _, _, rfl, rfl, hrep.create, hvalid.append valid_empty, by simp [Op.handles]⟩
  | push h on entry =>
    obtain ⟨hlt, hentry⟩ := hop
    obtain ⟨hover, hpush⟩ | ⟨hfits, heap', hpush, hrep'⟩ :=
      push_refines on entry hrep (hget h hlt)
    · refine .inl ⟨?_, ?_⟩
      · rw [AdjHeap.step, hpush]
        rfl
      · rw [Lists.step]
        exact if_pos hover
    · refine .inr ⟨heap', _, .done, ?_, ?_, hrep', ?_, by simp [Op.handles]⟩
      · rw [AdjHeap.step, hpush]
        rfl
      · rw [Lists.step]
        exact if_neg hfits
      · refine hvalid.set (valid_edit (hpair h hlt) ?_)
        intro e he
        rcases mem_append.mp he with he | he
        · exact .inl he
        · rw [mem_singleton.mp he]
          exact .inr hentry
  | remove h on rel =>
    have hlt : h < adjs.length := hop
    obtain ⟨hrep', hreply⟩ := remove_refines on rel hrep (hget h hlt) (hpair h hlt on)
    refine .inr ⟨_, _, _, rfl, ?_, hrep', ?_, by simp [Op.handles]⟩
    · rw [Lists.step, ← hreply]
      rfl
    · exact hvalid.set (valid_edit (hpair h hlt) fun e he => .inl (mem_of_mem_eraseP he))
  | removeAll h on rels =>
    have hlt : h < adjs.length := hop
    obtain ⟨hrep', hreply⟩ := removeAll_refines on rels hrep (hget h hlt) (hpair h hlt on)
    refine .inr ⟨_, _, _, rfl, ?_, hrep', ?_, by simp [Op.handles]⟩
    · rw [Lists.step, ← hreply]
      rfl
    · exact hvalid.set (valid_edit (hpair h hlt) fun e he => .inl (mem_of_mem_filter he))
  | clone h =>
    have hlt : h < adjs.length := hop
    exact .inr ⟨_, _, _, rfl, rfl, clone_refines hrep (hget h hlt),
      hvalid.append (hpair h hlt), by simp [Op.handles]⟩
  | clear h =>
    have hlt : h < adjs.length := hop
    exact .inr ⟨_, _, _, rfl, rfl, (hrep.free (hget h hlt)).1, hvalid.set valid_empty,
      by simp [Op.handles]⟩

/-- What a represented heap shows. -/
theorem Rep.entries_eq (hrep : Rep heap adjs) (hvalid : AllValid adjs) (hadj : adjs[h]? = some adj)
    (on : Side) : heap.entries h on = adj.side on ∧ heap.count h on = (adj.side on).length := by
  have hside : ∀ e ∈ adj.side on, Valid e := hvalid adj (mem_of_getElem? hadj) on
  rw [AdjHeap.entries, AdjHeap.count, hrep.side_eq hadj on]
  exact ⟨entries_bytesOf hside, count_bytesOf hside⟩

theorem Rep.lists_eq (hrep : Rep heap adjs) (hvalid : AllValid adjs) : heap.lists = adjs := by
  apply List.ext_getElem
  · simp [AdjHeap.lists, hrep.length]
  · intro h hh hlt
    have hadj : adjs[h]? = some adjs[h] := getElem?_eq_getElem hlt
    simp only [AdjHeap.lists, getElem_map, getElem_range]
    rw [(hrep.entries_eq hvalid hadj .out).1, (hrep.entries_eq hvalid hadj .into).1]
    rfl

theorem rep_empty : Rep AdjHeap.empty [] where
  length := rfl
  shared := by
    intro p hp
    cases hp
  stores := by
    intro h p a adj hh
    cases hh
  null := by
    intro h hh
    cases hh
  fresh := by
    intro p _ hp
    cases hp

/-- A run from a represented heap is the run of the plain lists. -/
theorem run_of_rep (hrep : Rep heap adjs) (hvalid : AllValid adjs)
    (hops : AllAllowed adjs.length ops) :
    (heap.run ops = none ∧ Lists.run adjs ops = none) ∨
      ∃ heap' adjs' replies, heap.run ops = some (heap', replies) ∧
        Lists.run adjs ops = some (adjs', replies) ∧ Rep heap' adjs' ∧ AllValid adjs' := by
  induction ops generalizing heap adjs with
  | nil => exact .inr ⟨heap, adjs, [], rfl, rfl, hrep, hvalid⟩
  | cons op ops ih =>
    obtain ⟨hop, hrest⟩ := hops
    obtain ⟨hnone, hnone'⟩ | ⟨heap', adjs', reply, hstep, hstep', hrep', hvalid', hlen⟩ :=
      step_refines hrep hvalid hop
    · exact .inl ⟨by rw [AdjHeap.run, hnone]; rfl, by rw [Lists.run, hnone']; rfl⟩
    rw [← hlen] at hrest
    obtain ⟨hrun, hrun'⟩ | ⟨heap'', adjs'', replies, hrun, hrun', hrep'', hvalid''⟩ :=
      ih hrep' hvalid' hrest
    · refine .inl ⟨?_, ?_⟩
      · rw [AdjHeap.run, hstep, bind_some, hrun]
        rfl
      · rw [Lists.run, hstep', bind_some, hrun']
        rfl
    · refine .inr ⟨heap'', adjs'', reply :: replies, ?_, ?_, hrep'', hvalid''⟩
      · rw [AdjHeap.run, hstep, bind_some, hrun]
        rfl
      · rw [Lists.run, hstep', bind_some, hrun']
        rfl

/-- **Adjacency refines plain lists.** Every run over any handles answers as the lists do, and
every handle then shows its own; it fails only where they would exceed four gibibytes. -/
theorem handles_refine (hops : AllAllowed 0 ops) :
    (AdjHeap.empty.run ops).map (fun r => (r.1.lists, r.2)) = Lists.run [] ops ∧
      ∀ heap replies, AdjHeap.empty.run ops = some (heap, replies) →
        ∀ h < heap.handles.length, ∀ on, heap.count h on = (heap.entries h on).length := by
  obtain ⟨hrun, hrun'⟩ | ⟨heap, adjs, replies, hrun, hrun', hrep, hvalid⟩ :=
    run_of_rep rep_empty (fun adj hadj => nomatch hadj) hops
  · rw [hrun, hrun']
    exact ⟨rfl, fun heap replies h => nomatch h⟩
  · rw [hrun, hrun']
    refine ⟨by rw [map_some, hrep.lists_eq hvalid], ?_⟩
    intro heap' replies' heq h hh on
    obtain ⟨rfl, rfl⟩ := Prod.mk.inj (Option.some_inj.mp heq)
    have hadj := getElem?_eq_getElem (hrep.length ▸ hh)
    obtain ⟨hentries, hcount⟩ := hrep.entries_eq hvalid hadj on
    rw [hentries, hcount]

/-- Two entries, a clone, and removals on either handle. -/
def shareRun : List Op :=
  [.create, .push 0 .out ⟨1, 70000, 5⟩, .push 0 .into ⟨300, 2, 6⟩, .clone 0, .remove 1 .out 5,
    .removeAll 0 .into [6, 9]]

theorem shareRun_refines : (AdjHeap.empty.run shareRun).map (fun r => (r.1.lists, r.2)) =
      some ([⟨[⟨1, 70000, 5⟩], []⟩, ⟨[], [⟨300, 2, 6⟩]⟩],
        [.done, .done, .done, .done, .removed true, .took 1]) :=
  (@handles_refine shareRun
    ⟨trivial, ⟨by decide, by decide, by decide, by decide⟩,
      ⟨by decide, by decide, by decide, by decide⟩, by unfold Op.Allowed; decide,
      by unfold Op.Allowed; decide, by unfold Op.Allowed; decide, trivial⟩).1.trans
    (by decide +kernel)

end Runs

end AdjBytes

end LoraDb
