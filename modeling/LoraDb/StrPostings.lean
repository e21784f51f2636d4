import LoraDb.StrBlock

/-!
# String Postings

The string keys of an index and their ids, in blocks of neighbours: each block is filed under
its first key.

## Main results

* `Wellformed.insert`, `Wellformed.remove`: an edit of the blocks is that edit of the sorted
  entries they hold.
* `Wellformed.range`: a range over the blocks is the entries within its bounds.
-/

open List SortedMap

namespace LoraDb

open Option

namespace StrIndex

inductive Bound (κ : Type) where
  | included (key : κ)
  | excluded (key : κ)
  | unbounded

section Bounds

variable {κ : Type} [LE κ] [LT κ] [DecidableLE κ] [DecidableLT κ]

/-- A lower bound admits the keys from it on. -/
def Bound.below : Bound κ → κ → Bool
  | .included k, key => decide (k ≤ key)
  | .excluded k, key => decide (k < key)
  | .unbounded, _ => true

/-- An upper bound admits the keys up to it. -/
def Bound.above : Bound κ → κ → Bool
  | .included k, key => decide (key ≤ k)
  | .excluded k, key => decide (key < k)
  | .unbounded, _ => true

end Bounds

/-- The first position whose key is not below a lower bound. -/
def StrBlock.lower (b : StrBlock) : Bound Key → ℕ
  | .unbounded => 0
  | .included key => match b.search key with
    | .inl i => i
    | .inr i => i
  | .excluded key => match b.search key with
    | .inl i => i + 1
    | .inr i => i

/-- The first position past every key an upper bound admits. -/
def StrBlock.upper (b : StrBlock) : Bound Key → ℕ
  | .unbounded => b.len
  | .included key => match b.search key with
    | .inl i => i + 1
    | .inr i => i
  | .excluded key => match b.search key with
    | .inl i => i
    | .inr i => i

/-- String keys and their ids: blocks, each under its first key, and the count of keys. -/
structure StrPostings where
  blocks : List (Key × StrBlock)
  len : ℕ

namespace StrPostings

def empty : StrPostings := ⟨[], 0⟩

/-- The last block whose first key is at most `key`. -/
def floor (key : Key) (blocks : List (Key × StrBlock)) : Option (Key × StrBlock) :=
  (blocks.filter fun e => decide (e.1 ≤ key)).getLast?

/-- The block that holds `key`, or the one it would go to. -/
def blockFor (idx : StrPostings) (key : Key) : Option Key :=
  ((floor key idx.blocks).or idx.blocks.head?).map Prod.fst

/-- File a block under a key no block has. -/
def file (first : Key) (block : StrBlock) (blocks : List (Key × StrBlock)) :
    List (Key × StrBlock) :=
  if (get? first blocks).isSome then blocks else put first block blocks

def insert (idx : StrPostings) (key : Key) (id : ℕ) : StrPostings :=
  match idx.blockFor key with
  | none => ⟨file key (.packed [key] [[id]]) idx.blocks, 1⟩
  | some first =>
    match get? first idx.blocks with
    | none => idx -- not reached: found above
    | some block =>
      match block.search key with
      | .inl pos =>
        let ids := IdSet.insert (block.idsOf pos) id
        { idx with blocks := put first { block with ids := block.ids.set pos ids } idx.blocks }
      | .inr pos =>
        let block := block.insertAt pos key [id]
        let split :=
          if BLOCK_MAX < block.len then some (block.splitOff (block.len / 2)) else none
        let block := split.elim block Prod.fst
        -- a new smallest key: the block moves to it
        let blocks := if pos = 0 then file key block (erase first idx.blocks)
          else put first block idx.blocks
        ⟨split.elim blocks fun halves => file (halves.2.key 0) halves.2 blocks, idx.len + 1⟩

/-- Remove an id from under a key; says whether that key is gone now. -/
def remove (idx : StrPostings) (key : Key) (id : ℕ) : StrPostings × Bool :=
  match floor key idx.blocks with
  | none => (idx, false)
  | some (first, block) =>
    match block.search key with
    | .inr _ => (idx, false)
    | .inl pos =>
      let removed := IdSet.remove (block.idsOf pos) id
      let block := { block with ids := block.ids.set pos removed.1 }
      if removed.2 then
        let block := block.removeAt pos
        let blocks := if block.len = 0 then erase first idx.blocks
          else if pos = 0 then file (block.key 0) block (erase first idx.blocks)
          else put first block idx.blocks
        (⟨blocks, idx.len - 1⟩, true)
      else ({ idx with blocks := put first block idx.blocks }, false)

/-- Bounds that leave nothing between them. -/
def inverted : Bound Key → Bound Key → Bool
  | .included l, .included u => decide (u < l)
  | .included l, .excluded u => decide (u ≤ l)
  | .excluded l, .included u => decide (u ≤ l)
  | .excluded l, .excluded u => decide (u ≤ l)
  | _, _ => false

/-- From the block that would hold the lower bound. -/
def blocksFrom (blocks : List (Key × StrBlock)) : Bound Key → Bound Key
  | .included key => (floor key blocks).elim .unbounded fun e => .included e.1
  | .excluded key => (floor key blocks).elim .unbounded fun e => .included e.1
  | .unbounded => .unbounded

/-- To the last block whose first key is within the upper bound. -/
def blocksTo : Bound Key → Bound Key
  | .included key => .included key
  | .excluded key => .included key
  | .unbounded => .unbounded

/-- The keys of a block within the bounds. -/
def cut (lower upper : Bound Key) (b : StrBlock) : List (Key × IdSet) :=
  let start := b.lower lower
  let stop := max (b.upper upper) start
  (range' start (stop - start)).map fun i => (b.key i, b.idsOf i)

/-- The blocks a range goes over. -/
def rangeBlocks (idx : StrPostings) (lower upper : Bound Key) : List (Key × StrBlock) :=
  if inverted lower upper then []
  else idx.blocks.filter fun e =>
    (blocksFrom idx.blocks lower).below e.1 && (blocksTo upper).above e.1

/-- Keys within the bounds and their ids, in key order. -/
def range (idx : StrPostings) (lower upper : Bound Key) : List (Key × IdSet) :=
  (idx.rangeBlocks lower upper).flatMap fun e => cut lower upper e.2

/-- The range taken from its end: the last block first, and each from its end. -/
def rangeBack (idx : StrPostings) (lower upper : Bound Key) : List (Key × IdSet) :=
  (idx.rangeBlocks lower upper).reverse.flatMap fun e => (cut lower upper e.2).reverse

/-- The keys and ids of all blocks. -/
def contents (blocks : List (Key × StrBlock)) : List (Key × IdSet) :=
  blocks.flatMap fun e => e.2.entries

/-- The block an inserted key goes to stays below `2 ^ 32` bytes. -/
def fits (idx : StrPostings) (key : Key) : Bool :=
  match idx.blockFor key with
  | none => decide (key.length < 2 ^ 32)
  | some first => (get? first idx.blocks).all fun block =>
    decide (key ∈ block.entries.map Prod.fst) || decide (block.grown key < 2 ^ 32)

end StrPostings

/-! ### Between the smaller and the larger keys -/

section Between

variable {α : Type} {k : Key} {v v' : α} {xs ys : List (Key × α)}

theorem get?_between (hxs : ∀ e ∈ xs, e.1 < k) (hys : ∀ e ∈ ys, k < e.1) :
    get? k (xs ++ ys) = none := by
  refine get?_eq_none.mpr fun e he => ?_
  rcases mem_append.mp he with he | he
  · exact ne_of_lt (hxs e he)
  · exact ne_of_gt (hys e he)

theorem put_between (hxs : ∀ e ∈ xs, e.1 < k) (hys : ∀ e ∈ ys, k < e.1) :
    put k v (xs ++ ys) = xs ++ (k, v) :: ys := by
  induction xs with
  | nil =>
    cases ys with
    | nil => rfl
    | cons e ys => rw [nil_append, put, if_pos (hys e mem_cons_self), nil_append]
  | cons e xs ih =>
    have hlt : e.1 < k := hxs e mem_cons_self
    rw [cons_append, put, if_neg (lt_asymm hlt), if_neg (ne_of_gt hlt),
      ih fun e he => hxs e (mem_cons_of_mem _ he), cons_append]

theorem erase_between (hxs : ∀ e ∈ xs, e.1 < k) : erase k (xs ++ (k, v) :: ys) = xs ++ ys := by
  induction xs with
  | nil => simp [erase]
  | cons e xs ih =>
    have hlt : e.1 < k := hxs e mem_cons_self
    rw [cons_append, erase, if_neg (ne_of_gt hlt),
      ih fun e he => hxs e (mem_cons_of_mem _ he), cons_append]

theorem file_between {b : StrBlock} {xs ys : List (Key × StrBlock)} (hxs : ∀ e ∈ xs, e.1 < k)
    (hys : ∀ e ∈ ys, k < e.1) : StrPostings.file k b (xs ++ ys) = xs ++ (k, b) :: ys := by
  rw [StrPostings.file, get?_between hxs hys]
  exact put_between hxs hys

end Between

/-! ### Blocks that hold sorted entries -/

namespace StrPostings

variable {blocks xs ys : List (Key × StrBlock)} {first key : Key} {b : StrBlock} {id : ℕ}
  {es : List (Key × IdSet)} {idx : StrPostings}

/-- A block, filed under the first key of its entries. -/
def Held (first : Key) (b : StrBlock) (es : List (Key × IdSet)) : Prop :=
  (∃ p, Packs b p es) ∧ es.head?.map Prod.fst = some first

theorem Held.entries_eq (h : Held first b es) : b.entries = es := h.1.choose_spec.entries_eq

theorem Held.mem (h : Held first b es) : ∃ e ∈ es, e.1 = first := by
  obtain ⟨-, hhead⟩ := h
  cases es with
  | nil => cases hhead
  | cons e es => exact ⟨e, mem_cons_self, Option.some.inj hhead⟩

/-- Every block is held, and their entries ascend from block to block. -/
structure Wellformed (blocks : List (Key × StrBlock)) : Prop where
  held : ∀ e ∈ blocks, Held e.1 e.2 e.2.entries
  sorted : Sorted (contents blocks)

theorem contents_append : contents (xs ++ ys) = contents xs ++ contents ys := flatMap_append

theorem contents_split (hheld : Held first b es) :
    contents (xs ++ (first, b) :: ys) = contents xs ++ (es ++ contents ys) := by
  have hcons : contents ((first, b) :: ys) = b.entries ++ contents ys := flatMap_cons
  rw [contents_append, hcons, hheld.entries_eq]

variable {e : Key × StrBlock}

theorem mem_contents (hheld : Held e.1 e.2 e.2.entries) (he : e ∈ blocks) :
    ∃ entry ∈ contents blocks, entry.1 = e.1 := by
  obtain ⟨entry, hentry, heq⟩ := hheld.mem
  exact ⟨entry, mem_flatMap.mpr ⟨e, he, hentry⟩, heq⟩

theorem Wellformed.firsts_lt (h : Wellformed blocks) (hlt : ∀ e ∈ contents blocks, e.1 < key) :
    ∀ e ∈ blocks, e.1 < key := by
  intro e he
  obtain ⟨entry, hentry, heq⟩ := mem_contents (h.held e he) he
  exact heq ▸ hlt entry hentry

theorem Wellformed.lt_firsts (h : Wellformed blocks) (hlt : ∀ e ∈ contents blocks, key < e.1) :
    ∀ e ∈ blocks, key < e.1 := by
  intro e he
  obtain ⟨entry, hentry, heq⟩ := mem_contents (h.held e he) he
  exact heq ▸ hlt entry hentry

theorem Wellformed.left (h : Wellformed (xs ++ ys)) : Wellformed xs := by
  refine ⟨fun e he => h.held e (mem_append_left _ he), ?_⟩
  have hsorted := h.sorted
  rw [contents_append] at hsorted
  exact (pairwise_append.mp hsorted).1

theorem Wellformed.right (h : Wellformed (xs ++ ys)) : Wellformed ys := by
  refine ⟨fun e he => h.held e (mem_append_right _ he), ?_⟩
  have hsorted := h.sorted
  rw [contents_append] at hsorted
  exact (pairwise_append.mp hsorted).2.1

/-- The block at the floor of a key, between those below it and those above. -/
theorem floor_spec (h : Sorted blocks) (hfloor : floor key blocks = some e) :
    ∃ xs ys, blocks = xs ++ e :: ys ∧ e.1 ≤ key ∧ ∀ e' ∈ ys, key < e'.1 := by
  induction blocks with
  | nil => cases hfloor
  | cons head blocks ih =>
    obtain ⟨hhead, htail⟩ := sorted_cons.mp h
    rw [floor, filter_cons] at hfloor
    by_cases hle : head.1 ≤ key
    · rw [if_pos (decide_eq_true hle)] at hfloor
      rcases hrest : floor key blocks with _ | last
      · rw [floor, getLast?_eq_none_iff] at hrest
        rw [hrest] at hfloor
        cases hfloor
        refine ⟨[], blocks, rfl, hle, fun e' he' => ?_⟩
        have hnot := filter_eq_nil_iff.mp hrest e' he'
        exact not_le.mp fun hle => hnot (decide_eq_true hle)
      · have hlast : last = e := by
          rw [floor] at hrest
          rw [getLast?_cons, hrest] at hfloor
          exact Option.some.inj hfloor
        obtain ⟨xs, ys, heq, hkey, habove⟩ := ih htail (hlast ▸ hrest)
        exact ⟨head :: xs, ys, by rw [heq, cons_append], hkey, habove⟩
    · rw [if_neg (by simpa using hle)] at hfloor
      obtain ⟨xs, ys, heq, hkey, -⟩ := ih htail hfloor
      have hlt := hhead e (heq ▸ mem_append_right _ mem_cons_self)
      exact absurd (hlt.le.trans hkey) hle

theorem floor_none (hfloor : floor key blocks = none) : ∀ e ∈ blocks, key < e.1 := by
  intro e he
  rw [floor, getLast?_eq_none_iff] at hfloor
  have hnot := filter_eq_nil_iff.mp hfloor e he
  exact not_le.mp fun hle => hnot (decide_eq_true hle)

theorem Wellformed.blocks_sorted (h : Wellformed blocks) : Sorted blocks := by
  induction blocks with
  | nil => exact Pairwise.nil
  | cons e blocks ih =>
    have htail : Wellformed blocks := @right [e] blocks h
    refine sorted_cons.mpr ⟨htail.lt_firsts fun entry hentry => ?_, ih htail⟩
    obtain ⟨mine, hmine, heq⟩ := (h.held e mem_cons_self).mem
    have hsorted := h.sorted
    rw [contents, flatMap_cons] at hsorted
    exact heq ▸ (pairwise_append.mp hsorted).2.2 mine hmine entry hentry

/-- The entries of later blocks are not before a key that their first keys are after. -/
theorem Wellformed.contents_gt (h : Wellformed blocks) (hlt : ∀ e ∈ blocks, key < e.1) :
    ∀ e ∈ contents blocks, key < e.1 := by
  intro entry hentry
  obtain ⟨e, he, hmem⟩ := mem_flatMap.mp hentry
  obtain ⟨-, hhead⟩ := h.held e he
  have hsorted : Sorted e.2.entries := by
    have hsub : e.2.entries.Sublist (contents blocks) := sublist_flatten_of_mem (mem_map_of_mem he)
    exact h.sorted.sublist hsub
  cases hes : e.2.entries with
  | nil =>
    rw [hes] at hmem
    cases hmem
  | cons mine rest =>
    rw [hes] at hmem hhead hsorted
    have heq : mine.1 = e.1 := Option.some.inj hhead
    rcases mem_cons.mp hmem with rfl | hmem
    · exact heq ▸ hlt e he
    · exact (heq ▸ hlt e he).trans ((sorted_cons.mp hsorted).1 entry hmem)

/-- Where a key belongs: a block, with smaller keys before it and larger ones behind. -/
structure Located (blocks : List (Key × StrBlock)) (key first : Key) (b : StrBlock)
    (xs ys : List (Key × StrBlock)) : Prop where
  eq : blocks = xs ++ (first, b) :: ys
  below : ∀ e ∈ contents xs, e.1 < key
  above : ∀ e ∈ contents ys, key < e.1

theorem Wellformed.floor (h : Wellformed blocks)
    (hfloor : StrPostings.floor key blocks = some (first, b)) :
    ∃ xs ys, Located blocks key first b xs ys := by
  obtain ⟨xs, ys, rfl, hkey, habove⟩ := floor_spec h.blocks_sorted hfloor
  refine ⟨xs, ys, rfl, ?_, (@right [(first, b)] ys h.right).contents_gt habove⟩
  intro e he
  obtain ⟨mine, hmine, heq⟩ := (h.held (first, b) (by simp)).mem
  have hsorted := h.sorted
  rw [contents_append] at hsorted
  have hlt := (pairwise_append.mp hsorted).2.2 e he mine
    (mem_flatMap.mpr ⟨(first, b), mem_cons_self, hmine⟩)
  exact lt_of_lt_of_le (heq ▸ hlt) hkey

theorem Wellformed.blockFor (h : Wellformed idx.blocks) (hblock : idx.blockFor key = some first) :
    ∃ b xs ys, Located idx.blocks key first b xs ys := by
  rw [StrPostings.blockFor] at hblock
  rcases hfloor : StrPostings.floor key idx.blocks with _ | e
  · rw [hfloor, none_or] at hblock
    rcases hblocks : idx.blocks with _ | ⟨e, rest⟩
    · rw [hblocks] at hblock
      cases hblock
    · rw [hblocks] at hblock
      have hfirst : e.1 = first := Option.some.inj hblock
      have hall := floor_none hfloor
      rw [hblocks] at hall h
      refine ⟨e.2, [], rest, ?_, by simp [contents], ?_⟩
      · rw [← hfirst]
        rfl
      · exact (@right [e] rest h).contents_gt fun e' he' => hall e' (mem_cons_of_mem _ he')
  · rw [hfloor, some_or] at hblock
    have hfirst : e.1 = first := Option.some.inj hblock
    obtain ⟨xs, ys, hlocated⟩ := h.floor (hfloor.trans (congrArg some (Prod.mk.eta.symm)))
    rw [hfirst] at hlocated
    exact ⟨e.2, xs, ys, hlocated⟩

theorem blockFor_none (hblock : idx.blockFor key = none) : idx.blocks = [] := by
  rw [blockFor, map_eq_none_iff, or_eq_none_iff] at hblock
  exact head?_eq_none_iff.mp hblock.2

/-! ### Edits of the entries -/

/-- An id filed under a key. -/
def insertEntry {κ : Type} [LinearOrder κ] (es : List (κ × IdSet)) (key : κ) (id : ℕ) :
    List (κ × IdSet) :=
  put key ((get? key es).elim [id] fun ids => IdSet.insert ids id) es

/-- An id removed from under a key, and the key with its last id. -/
def removeEntry {κ : Type} [LinearOrder κ] (es : List (κ × IdSet)) (key : κ) (id : ℕ) :
    List (κ × IdSet) × Bool :=
  match get? key es with
  | none => (es, false)
  | some ids =>
    if (IdSet.remove ids id).2 then (erase key es, true)
    else (put key (IdSet.remove ids id).1 es, false)

section Located

variable {as cs : List (Key × IdSet)} {ids : IdSet}

theorem Located.below_append (h : Located blocks key first b xs ys)
    (hlt : ∀ e ∈ as, e.1 < key) : ∀ e ∈ contents xs ++ as, e.1 < key := by
  intro e he
  rcases mem_append.mp he with he | he
  · exact h.below e he
  · exact hlt e he

theorem Located.above_append (h : Located blocks key first b xs ys)
    (hlt : ∀ e ∈ cs, key < e.1) : ∀ e ∈ cs ++ contents ys, key < e.1 := by
  intro e he
  rcases mem_append.mp he with he | he
  · exact hlt e he
  · exact h.above e he

theorem Wellformed.at (h : Wellformed blocks) (hloc : Located blocks key first b xs ys) :
    Held first b b.entries ∧ Sorted b.entries ∧
      contents blocks = contents xs ++ (b.entries ++ contents ys) := by
  obtain ⟨rfl, -, -⟩ := hloc
  have hheld := h.held (first, b) (by simp)
  have hcontents := @contents_split xs ys first b _ hheld
  refine ⟨hheld, ?_, hcontents⟩
  have hsorted := h.sorted
  rw [hcontents] at hsorted
  exact (pairwise_append.mp (pairwise_append.mp hsorted).2.1).1

theorem Wellformed.get?_first (h : Wellformed blocks)
    (hloc : Located blocks key first b xs ys) : get? first blocks = some b ∧
      (∀ e ∈ xs, e.1 < first) ∧ ∀ e ∈ ys, first < e.1 := by
  obtain ⟨rfl, -, -⟩ := hloc
  have hsorted := h.blocks_sorted
  obtain ⟨-, htail, hbefore⟩ := pairwise_append.mp hsorted
  have hlt : ∀ e ∈ xs, e.1 < first := fun e he => hbefore e he (first, b) mem_cons_self
  exact ⟨get?_append_cons b hlt ys, hlt, (sorted_cons.mp htail).1⟩

/-- Blocks in the place of one, with its edited entries. -/
theorem Wellformed.edit (h : Wellformed blocks) (hloc : Located blocks key first b xs ys)
    (zs : List (Key × StrBlock)) (es : List (Key × IdSet))
    (hheld : ∀ e ∈ zs, Held e.1 e.2 e.2.entries) (hcontents : contents zs = es)
    (hsorted : Sorted (contents xs ++ (es ++ contents ys))) :
    Wellformed (xs ++ (zs ++ ys)) ∧ contents (xs ++ (zs ++ ys)) =
      contents xs ++ (es ++ contents ys) := by
  have hxs : Wellformed xs := by
    obtain ⟨rfl, -, -⟩ := hloc
    exact h.left
  have hys : Wellformed ys := by
    obtain ⟨rfl, -, -⟩ := hloc
    exact @right [(first, b)] ys h.right
  have heq : contents (xs ++ (zs ++ ys)) = contents xs ++ (es ++ contents ys) := by
    rw [contents_append, contents_append, hcontents]
  refine ⟨⟨?_, heq ▸ hsorted⟩, heq⟩
  intro e he
  rcases mem_append.mp he with he | he
  · exact hxs.held e he
  · rcases mem_append.mp he with he | he
    · exact hheld e he
    · exact hys.held e he

theorem head?_replace (as cs : List (Key × IdSet)) (ids ids' : IdSet) :
    (as ++ (key, ids') :: cs).head?.map Prod.fst = (as ++ (key, ids) :: cs).head?.map Prod.fst := by
  cases as with
  | nil => rfl
  | cons e as => rfl

/-- A key whose ids change stays where it is. -/
theorem Wellformed.setIds (h : Wellformed blocks) (hloc : Located blocks key first b xs ys)
    (hentries : b.entries = as ++ (key, ids) :: cs) (ids' : IdSet) :
    Wellformed (put first { b with ids := b.ids.set as.length ids' } blocks) ∧
      contents (put first { b with ids := b.ids.set as.length ids' } blocks) =
        put key ids' (contents blocks) ∧ get? key (contents blocks) = some ids ∧
      b.idsOf as.length = ids := by
  obtain ⟨hheld, hsorted, hcontents⟩ := h.at hloc
  obtain ⟨-, hfirsts, -⟩ := h.get?_first hloc
  obtain ⟨p, hpacks⟩ := hheld.1
  rw [hentries] at hpacks hsorted hcontents
  have has : ∀ e ∈ as, e.1 < key := fun e he =>
    (pairwise_append.mp hsorted).2.2 e he (key, ids) mem_cons_self
  have hnew := hpacks.setIds ids'
  have hheld' : Held first { b with ids := b.ids.set as.length ids' } (as ++ (key, ids') :: cs) :=
    ⟨⟨p, hnew⟩, by rw [head?_replace as cs ids ids', ← hentries]; exact hheld.2⟩
  have hput : put first { b with ids := b.ids.set as.length ids' } blocks =
      xs ++ ([(first, { b with ids := b.ids.set as.length ids' })] ++ ys) := by
    rw [hloc.eq, put_append_cons _ _ hfirsts]
    rfl
  have hbelow := hloc.below_append has
  have hall : contents xs ++ (as ++ (key, ids) :: cs ++ contents ys) =
      (contents xs ++ as) ++ (key, ids) :: (cs ++ contents ys) := by simp
  have hall' : contents xs ++ (as ++ (key, ids') :: cs ++ contents ys) =
      (contents xs ++ as) ++ (key, ids') :: (cs ++ contents ys) := by simp
  have hputs : put key ids' (contents blocks) =
      contents xs ++ (as ++ (key, ids') :: cs ++ contents ys) := by
    rw [hcontents, hall, put_append_cons _ _ hbelow, hall']
  have hedit := h.edit hloc [(first, { b with ids := b.ids.set as.length ids' })]
    (as ++ (key, ids') :: cs)
    (fun e he => by
      rw [mem_singleton.mp he]
      exact hheld'.entries_eq.symm ▸ hheld')
    (by rw [contents, flatMap_cons, flatMap_nil, append_nil, hheld'.entries_eq])
    (hputs ▸ h.sorted.put key ids')
  rw [hput]
  refine ⟨hedit.1, hedit.2.trans hputs.symm, ?_, hpacks.key_eq.2⟩
  rw [hcontents, hall]
  exact get?_append_cons ids hbelow _

theorem Held.single (h : Held first b es) : contents [(first, b)] = es ∧
    ∀ e ∈ [(first, b)], Held e.1 e.2 e.2.entries := by
  refine ⟨?_, ?_⟩
  · rw [contents, flatMap_cons, flatMap_nil, append_nil, h.entries_eq]
  · intro e he
    rw [mem_singleton.mp he]
    exact h.entries_eq.symm ▸ h

/-- A block under the first key of its edited entries, in the place it had. -/
theorem Wellformed.refile (h : Wellformed blocks) (hloc : Located blocks key first b xs ys)
    {low : StrBlock} {pos : ℕ} {moved : Key}
    (hmoved : pos = 0 → (∀ e ∈ contents xs, e.1 < moved) ∧ ∀ e ∈ contents ys, moved < e.1) :
    (if pos = 0 then file moved low (erase first blocks) else put first low blocks) =
      xs ++ (if pos = 0 then moved else first, low) :: ys := by
  obtain ⟨-, hfirsts, -⟩ := h.get?_first hloc
  have hxs : Wellformed xs := by
    obtain ⟨rfl, -, -⟩ := hloc
    exact h.left
  have hys : Wellformed ys := by
    obtain ⟨rfl, -, -⟩ := hloc
    exact @right [(first, b)] ys h.right
  rw [hloc.eq]
  split_ifs with hpos
  · obtain ⟨hbelow, habove⟩ := hmoved hpos
    rw [erase_between hfirsts]
    exact file_between (hxs.firsts_lt hbelow) (hys.lt_firsts habove)
  · exact put_append_cons _ _ hfirsts ys

/-- The key of a block's first entry. -/
theorem key_zero {q : Key} (hpacks : Packs b q es) (hhead : es.head?.map Prod.fst = some first) :
    b.key 0 = first := by
  cases es with
  | nil => cases hhead
  | cons e es =>
    have hkey := (@Packs.key_eq b q e.1 [] es e.2 hpacks).1
    exact hkey.trans (Option.some.inj hhead)

/-- The halves of a split block, each under its own first key. -/
theorem Wellformed.halves (h : Wellformed blocks) (hloc : Located blocks key first b xs ys)
    {block : StrBlock} {q moved : Key} (hpacks : Packs block q es)
    (hhead : es.head?.map Prod.fst = some moved) (hmany : 64 < es.length)
    (hsorted : Sorted (contents xs ++ (es ++ contents ys))) :
    let halves := block.splitOff (es.length / 2)
    let result := file (halves.2.key 0) halves.2 (xs ++ (moved, halves.1) :: ys)
    Wellformed result ∧ contents result = contents xs ++ (es ++ contents ys) := by
  obtain ⟨low, high, heq, hlen⟩ : ∃ low high, es = low ++ high ∧ low.length = es.length / 2 :=
    ⟨es.take (es.length / 2), es.drop (es.length / 2), (take_append_drop _ _).symm,
      length_take_of_le (by omega)⟩
  intro halves result
  obtain ⟨-, htail, hbefore⟩ := pairwise_append.mp hsorted
  obtain ⟨hes, -, hbehind⟩ := pairwise_append.mp htail
  have hhalves : halves = block.splitOff low.length := by rw [hlen]
  have hlens := congrArg length heq
  rw [length_append] at hlens
  subst heq
  obtain ⟨⟨p₁, hlow⟩, p₂, hhigh⟩ := hpacks.splitOff hes
  rw [← hhalves] at hlow hhigh
  obtain ⟨firstLow, low, rfl⟩ := exists_cons_of_ne_nil (l := low) (by
    rintro rfl
    simp only [length_nil] at hlen
    omega)
  obtain ⟨firstHigh, high, rfl⟩ := exists_cons_of_ne_nil (l := high) (by
    rintro rfl
    simp only [length_nil] at hlens
    omega)
  have hmoved : firstLow.1 = moved := Option.some.inj hhead
  have hheldLow : Held moved halves.1 (firstLow :: low) := ⟨⟨p₁, hlow⟩, hhead⟩
  have hheldHigh : Held firstHigh.1 halves.2 (firstHigh :: high) := ⟨⟨p₂, hhigh⟩, rfl⟩
  have hkey : halves.2.key 0 = firstHigh.1 := key_zero hhigh rfl
  have hmem : firstHigh ∈ firstLow :: low ++ firstHigh :: high :=
    mem_append_right _ mem_cons_self
  have hxs : Wellformed xs := by
    obtain ⟨rfl, -, -⟩ := hloc
    exact h.left
  have hys : Wellformed ys := by
    obtain ⟨rfl, -, -⟩ := hloc
    exact @right [(first, b)] ys h.right
  have hbelow : ∀ e ∈ xs ++ [(moved, halves.1)], e.1 < firstHigh.1 := by
    intro e he
    rcases mem_append.mp he with he | he
    · exact hxs.firsts_lt (fun e' he' => hbefore e' he' firstHigh (mem_append_left _ hmem)) e he
    · rw [mem_singleton.mp he]
      exact hmoved ▸ (pairwise_append.mp hes).2.2 firstLow mem_cons_self firstHigh mem_cons_self
  have habove : ∀ e ∈ ys, firstHigh.1 < e.1 :=
    hys.lt_firsts fun e' he' => hbehind firstHigh hmem e' he'
  have hresult : result = xs ++ ([(moved, halves.1), (firstHigh.1, halves.2)] ++ ys) := by
    rw [show result = file (halves.2.key 0) halves.2 (xs ++ (moved, halves.1) :: ys) from rfl,
      hkey, show xs ++ (moved, halves.1) :: ys = (xs ++ [(moved, halves.1)]) ++ ys by simp,
      file_between hbelow habove]
    simp
  rw [hresult]
  refine h.edit hloc _ _ ?_ ?_ hsorted
  · intro e he
    rcases mem_cons.mp he with rfl | he
    · exact hheldLow.single.2 _ mem_cons_self
    · exact hheldHigh.single.2 e he
  · have hall := @contents_append [(moved, halves.1)] [(firstHigh.1, halves.2)]
    rw [hheldLow.single.1, hheldHigh.single.1] at hall
    exact hall

/-- A new key goes between the smaller and the larger ones; a full block splits there. -/
theorem Wellformed.insertNew (h : Wellformed blocks) (hloc : Located blocks key first b xs ys)
    (hentries : b.entries = as ++ cs) (has : ∀ e ∈ as, e.1 < key) (hcs : ∀ e ∈ cs, key < e.1)
    (hroom : b.grown key < 2 ^ 32) :
    let block := b.insertAt as.length key [id]
    let split := if BLOCK_MAX < block.len then some (block.splitOff (block.len / 2)) else none
    let low := split.elim block Prod.fst
    let filed := if as.length = 0 then file key low (erase first blocks) else put first low blocks
    let result := split.elim filed fun halves => file (halves.2.key 0) halves.2 filed
    Wellformed result ∧ contents result = put key [id] (contents blocks) ∧
      get? key (contents blocks) = none := by
  obtain ⟨hheld, hsorted, hcontents⟩ := h.at hloc
  obtain ⟨p, hpacks⟩ := hheld.1
  have hhead := hheld.2
  rw [hentries] at hpacks hsorted hcontents hhead
  obtain ⟨q, hnew⟩ : ∃ q, Packs (b.insertAt as.length key [id]) q (as ++ (key, [id]) :: cs) :=
    hpacks.insertAt hroom
  have hbelow := hloc.below_append has
  have habove := hloc.above_append hcs
  have hold : contents blocks = (contents xs ++ as) ++ (cs ++ contents ys) := by
    rw [hcontents]
    simp
  have hput : put key [id] (contents blocks) =
      contents xs ++ ((as ++ (key, [id]) :: cs) ++ contents ys) := by
    rw [hold, put_between hbelow habove]
    simp
  have hnone : get? key (contents blocks) = none := by
    rw [hold]
    exact get?_between hbelow habove
  have hsorted' : Sorted (contents xs ++ ((as ++ (key, [id]) :: cs) ++ contents ys)) :=
    hput ▸ h.sorted.put key [id]
  have hfirst : (as ++ (key, [id]) :: cs).head?.map Prod.fst =
      some (if as.length = 0 then key else first) := by
    cases as with
    | nil => rfl
    | cons e as =>
      rw [if_neg (by simp)]
      exact hhead
  have hmoved : as.length = 0 → (∀ e ∈ contents xs, e.1 < key) ∧ ∀ e ∈ contents ys, key < e.1 :=
    fun _ => ⟨hloc.below, hloc.above⟩
  intro block split low filed result
  have hfiled : filed = xs ++ (if as.length = 0 then key else first, low) :: ys :=
    h.refile hloc hmoved
  by_cases hfull : BLOCK_MAX < block.len
  · have hsplit : split = some (block.splitOff (block.len / 2)) := if_pos hfull
    have hlen : block.len = (as ++ (key, [id]) :: cs).length := hnew.len_eq
    have hlow : low = (block.splitOff (block.len / 2)).1 := by
      rw [show low = split.elim block Prod.fst from rfl, hsplit]
      rfl
    rw [hlen] at hlow
    have hhalves := h.halves hloc hnew hfirst (hlen ▸ hfull) hsorted'
    have hresult : result = file ((block.splitOff ((as ++ (key, [id]) :: cs).length / 2)).2.key 0)
        (block.splitOff ((as ++ (key, [id]) :: cs).length / 2)).2
        (xs ++ (if as.length = 0 then key else first,
          (block.splitOff ((as ++ (key, [id]) :: cs).length / 2)).1) :: ys) := by
      rw [show result = split.elim filed _ from rfl, hsplit, elim_some, hfiled, hlow, hlen]
    rw [hresult]
    exact ⟨hhalves.1, hhalves.2.trans hput.symm, hnone⟩
  · have hsplit : split = none := if_neg hfull
    have hlow : low = block := by rw [show low = split.elim block Prod.fst from rfl, hsplit]; rfl
    have hresult : result = xs ++ ([(if as.length = 0 then key else first, block)] ++ ys) := by
      rw [show result = split.elim filed _ from rfl, hsplit, elim_none, hfiled, hlow]
      rfl
    have hheld' : Held (if as.length = 0 then key else first) block (as ++ (key, [id]) :: cs) :=
      ⟨⟨q, hnew⟩, hfirst⟩
    have hedit := h.edit hloc _ _ hheld'.single.2 hheld'.single.1 hsorted'
    rw [hresult]
    exact ⟨hedit.1, hedit.2.trans hput.symm, hnone⟩

/-- A key is removed with its last id, and a block with its last key. -/
theorem Wellformed.removeKey (h : Wellformed blocks) (hloc : Located blocks key first b xs ys)
    (hentries : b.entries = as ++ (key, ids) :: cs) (ids' : IdSet) :
    let block := { b with ids := b.ids.set as.length ids' }.removeAt as.length
    let result := if block.len = 0 then erase first blocks
      else if as.length = 0 then file (block.key 0) block (erase first blocks)
      else put first block blocks
    Wellformed result ∧ contents result = erase key (contents blocks) := by
  obtain ⟨hheld, hsorted, hcontents⟩ := h.at hloc
  obtain ⟨-, hfirsts, -⟩ := h.get?_first hloc
  obtain ⟨p, hpacks⟩ := hheld.1
  have hhead := hheld.2
  rw [hentries] at hpacks hsorted hcontents hhead
  have hnew := (hpacks.setIds ids').removeAt
  obtain ⟨-, hcsorted, hsides⟩ := pairwise_append.mp hsorted
  have has : ∀ e ∈ as, e.1 < key := fun e he => hsides e he (key, ids) mem_cons_self
  have hcs : ∀ e ∈ cs, key < e.1 := (sorted_cons.mp hcsorted).1
  have hold : contents blocks = (contents xs ++ as) ++ (key, ids) :: (cs ++ contents ys) := by
    rw [hcontents]
    simp
  have herase : erase key (contents blocks) = contents xs ++ ((as ++ cs) ++ contents ys) := by
    rw [hold, erase_between (hloc.below_append has)]
    simp
  have hsorted' : Sorted (contents xs ++ ((as ++ cs) ++ contents ys)) :=
    herase ▸ h.sorted.erase key
  intro block result
  have hlen : block.len = (as ++ cs).length := hnew.len_eq
  by_cases hempty : block.len = 0
  · have hnil : as ++ cs = [] := length_eq_zero_iff.mp (hlen.symm.trans hempty)
    have hresult : result = xs ++ ([] ++ ys) := by
      rw [show result = if block.len = 0 then _ else _ from rfl, if_pos hempty, hloc.eq,
        erase_between hfirsts, nil_append]
    have hedit := h.edit hloc [] (as ++ cs) (by simp) (by rw [hnil]; rfl) hsorted'
    rw [hresult]
    exact ⟨hedit.1, hedit.2.trans herase.symm⟩
  · obtain ⟨moved, hmoved⟩ : ∃ moved, (as ++ cs).head?.map Prod.fst = some moved := by
      rcases hes : as ++ cs with _ | ⟨e, es⟩
      · rw [hes] at hlen
        exact absurd hlen hempty
      · exact ⟨e.1, rfl⟩
    have hkey : block.key 0 = moved := key_zero hnew hmoved
    have hplace : as.length = 0 →
        (∀ e ∈ contents xs, e.1 < block.key 0) ∧ ∀ e ∈ contents ys, block.key 0 < e.1 := by
      intro hzero
      obtain ⟨e, he, heq⟩ := (show Held moved block (as ++ cs) from ⟨⟨p, hnew⟩, hmoved⟩).mem
      obtain ⟨-, hrest, hbefore⟩ := pairwise_append.mp hsorted'
      rw [hkey, ← heq]
      exact ⟨fun e' he' => hbefore e' he' e (mem_append_left _ he),
        fun e' he' => (pairwise_append.mp hrest).2.2 e he e' he'⟩
    have hfirst : (as ++ cs).head?.map Prod.fst =
        some (if as.length = 0 then block.key 0 else first) := by
      cases as with
      | nil =>
        rw [hkey]
        exact hmoved
      | cons e as =>
        rw [if_neg (by simp)]
        exact hhead
    have hresult : result =
        xs ++ ([(if as.length = 0 then block.key 0 else first, block)] ++ ys) := by
      rw [show result = if block.len = 0 then _ else _ from rfl, if_neg hempty]
      exact h.refile hloc hplace
    have hheld' : Held (if as.length = 0 then block.key 0 else first) block (as ++ cs) :=
      ⟨⟨p, hnew⟩, hfirst⟩
    have hedit := h.edit hloc _ _ hheld'.single.2 hheld'.single.1 hsorted'
    rw [hresult]
    exact ⟨hedit.1, hedit.2.trans herase.symm⟩

end Located

theorem Wellformed.insert (h : Wellformed idx.blocks) (hfits : idx.fits key = true) (id : ℕ) :
    Wellformed (idx.insert key id).blocks ∧
      contents (idx.insert key id).blocks = insertEntry (contents idx.blocks) key id := by
  rcases hblock : idx.blockFor key with _ | first
  · have hnil := blockFor_none hblock
    rw [fits, hblock] at hfits
    have hkey : key.length < 2 ^ 32 := of_decide_eq_true hfits
    have hsize : StrBlock.packedSize [key] < 2 ^ 32 := by
      simpa [StrBlock.packedSize, StrBlock.commonOf] using hkey
    obtain ⟨q, hpacks⟩ := @Packs.packed [(key, [id])] (pairwise_singleton _ _) hsize
    have hheld : Held key (.packed [key] [[id]]) [(key, [id])] := ⟨⟨q, hpacks⟩, rfl⟩
    have hresult : (idx.insert key id).blocks = [(key, .packed [key] [[id]])] := by
      rw [StrPostings.insert, hblock, hnil]
      rfl
    rw [hresult, hnil]
    refine ⟨⟨hheld.single.2, ?_⟩, hheld.single.1⟩
    rw [hheld.single.1]
    exact pairwise_singleton _ _
  · obtain ⟨b, xs, ys, hloc⟩ := h.blockFor hblock
    obtain ⟨hget, -, -⟩ := h.get?_first hloc
    obtain ⟨hheld, hsorted, -⟩ := h.at hloc
    obtain ⟨p, hpacks⟩ := hheld.1
    rcases hpacks.search hsorted key with
      ⟨as, ids, cs, heq, hfound⟩ | ⟨as, cs, heq, hplace, has, hcs⟩
    · obtain ⟨hwf, hcontents, hids, hmine⟩ := h.setIds hloc heq (IdSet.insert ids id)
      have hresult : (idx.insert key id).blocks = put first
          { b with ids := b.ids.set as.length (IdSet.insert ids id) } idx.blocks := by
        rw [StrPostings.insert, hblock]
        simp only [hget, hfound, hmine]
      rw [hresult]
      refine ⟨hwf, hcontents.trans ?_⟩
      rw [insertEntry, hids, elim_some]
    · have hroom : b.grown key < 2 ^ 32 := by
        simp only [fits, hblock, hget, all_some, Bool.or_eq_true, decide_eq_true_eq] at hfits
        refine hfits.resolve_left fun hmem => ?_
        obtain ⟨e, he, hkey⟩ := mem_map.mp hmem
        rw [heq] at he
        rcases mem_append.mp he with he | he
        · exact absurd hkey (ne_of_lt (has e he))
        · exact absurd hkey (ne_of_gt (hcs e he))
      have hnew := @insertNew _ _ _ _ _ _ id as cs h hloc heq has hcs hroom
      have hresult : (idx.insert key id).blocks =
          let block := b.insertAt as.length key [id]
          let split := if BLOCK_MAX < block.len then some (block.splitOff (block.len / 2)) else none
          let low := split.elim block Prod.fst
          let filed := if as.length = 0 then file key low (erase first idx.blocks)
            else put first low idx.blocks
          split.elim filed fun halves => file (halves.2.key 0) halves.2 filed := by
        rw [StrPostings.insert, hblock]
        simp only [hget, hplace]
      rw [hresult]
      refine ⟨hnew.1, hnew.2.1.trans ?_⟩
      rw [insertEntry, hnew.2.2, elim_none]

theorem Wellformed.remove (h : Wellformed idx.blocks) (key : Key) (id : ℕ) :
    Wellformed (idx.remove key id).1.blocks ∧
      (contents (idx.remove key id).1.blocks, (idx.remove key id).2) =
        removeEntry (contents idx.blocks) key id := by
  rcases hfloor : StrPostings.floor key idx.blocks with _ | ⟨first, b⟩
  · have hnone : get? key (contents idx.blocks) = none :=
      get?_eq_none.mpr fun e he => ne_of_gt (h.contents_gt (floor_none hfloor) e he)
    rw [StrPostings.remove, hfloor, removeEntry, hnone]
    exact ⟨h, rfl⟩
  · obtain ⟨xs, ys, hloc⟩ := h.floor hfloor
    obtain ⟨hheld, hsorted, hcontents⟩ := h.at hloc
    obtain ⟨p, hpacks⟩ := hheld.1
    rcases hpacks.search hsorted key with
      ⟨as, ids, cs, heq, hfound⟩ | ⟨as, cs, heq, hplace, has, hcs⟩
    · obtain ⟨hwf, hset, hids, hmine⟩ := h.setIds hloc heq (IdSet.remove ids id).1
      rw [StrPostings.remove, hfloor, removeEntry, hids]
      simp only [hfound, hmine]
      by_cases hempty : (IdSet.remove ids id).2 = true
      · rw [if_pos hempty, if_pos hempty]
        have hremoved := h.removeKey hloc heq (IdSet.remove ids id).1
        exact ⟨hremoved.1, Prod.ext hremoved.2 rfl⟩
      · rw [if_neg hempty, if_neg hempty]
        exact ⟨hwf, Prod.ext hset rfl⟩
    · have hnone : get? key (contents idx.blocks) = none := by
        rw [hcontents, heq, append_assoc, ← append_assoc]
        exact get?_between (hloc.below_append has) (hloc.above_append hcs)
      rw [StrPostings.remove, hfloor, removeEntry, hnone]
      simp only [hplace]
      exact ⟨h, trivial⟩

/-! ### Ranges -/

/-- Within both bounds. -/
def within (lower upper : Bound Key) (e : Key × IdSet) : Bool := lower.below e.1 && upper.above e.1

theorem lower_spec {p : Key} (h : Packs b p es) (hsorted : Sorted es) (lower : Bound Key) :
    ∃ as cs, es = as ++ cs ∧ b.lower lower = as.length ∧ (∀ e ∈ as, lower.below e.1 = false) ∧
      ∀ e ∈ cs, lower.below e.1 = true := by
  cases lower with
  | unbounded => exact ⟨[], es, rfl, rfl, by simp, fun _ _ => rfl⟩
  | included key =>
    rcases h.search hsorted key with ⟨as, ids, cs, rfl, hfound⟩ | ⟨as, cs, rfl, hplace, has, hcs⟩
    · obtain ⟨-, hcsorted, hsides⟩ := pairwise_append.mp hsorted
      refine ⟨as, (key, ids) :: cs, rfl, by rw [StrBlock.lower, hfound], ?_, ?_⟩
      · exact fun e he => decide_eq_false (not_le.mpr (hsides e he _ mem_cons_self))
      · intro e he
        rcases mem_cons.mp he with rfl | he
        · exact decide_eq_true le_rfl
        · exact decide_eq_true ((sorted_cons.mp hcsorted).1 e he).le
    · exact ⟨as, cs, rfl, by rw [StrBlock.lower, hplace],
        fun e he => decide_eq_false (not_le.mpr (has e he)),
        fun e he => decide_eq_true (hcs e he).le⟩
  | excluded key =>
    rcases h.search hsorted key with ⟨as, ids, cs, rfl, hfound⟩ | ⟨as, cs, rfl, hplace, has, hcs⟩
    · obtain ⟨-, hcsorted, hsides⟩ := pairwise_append.mp hsorted
      refine ⟨as ++ [(key, ids)], cs, by simp, by rw [StrBlock.lower, hfound]; simp, ?_, ?_⟩
      · intro e he
        rcases mem_append.mp he with he | he
        · exact decide_eq_false (lt_asymm (hsides e he _ mem_cons_self))
        · rw [mem_singleton.mp he]
          exact decide_eq_false (lt_irrefl key)
      · exact fun e he => decide_eq_true ((sorted_cons.mp hcsorted).1 e he)
    · exact ⟨as, cs, rfl, by rw [StrBlock.lower, hplace],
        fun e he => decide_eq_false (lt_asymm (has e he)),
        fun e he => decide_eq_true (hcs e he)⟩

theorem upper_spec {p : Key} (h : Packs b p es) (hsorted : Sorted es) (upper : Bound Key) :
    ∃ as cs, es = as ++ cs ∧ b.upper upper = as.length ∧ (∀ e ∈ as, upper.above e.1 = true) ∧
      ∀ e ∈ cs, upper.above e.1 = false := by
  cases upper with
  | unbounded => exact ⟨es, [], by simp, h.len_eq, fun _ _ => rfl, by simp⟩
  | included key =>
    rcases h.search hsorted key with ⟨as, ids, cs, rfl, hfound⟩ | ⟨as, cs, rfl, hplace, has, hcs⟩
    · obtain ⟨-, hcsorted, hsides⟩ := pairwise_append.mp hsorted
      refine ⟨as ++ [(key, ids)], cs, by simp, by rw [StrBlock.upper, hfound]; simp, ?_, ?_⟩
      · intro e he
        rcases mem_append.mp he with he | he
        · exact decide_eq_true (hsides e he _ mem_cons_self).le
        · rw [mem_singleton.mp he]
          exact decide_eq_true le_rfl
      · exact fun e he => decide_eq_false (not_le.mpr ((sorted_cons.mp hcsorted).1 e he))
    · exact ⟨as, cs, rfl, by rw [StrBlock.upper, hplace],
        fun e he => decide_eq_true (has e he).le,
        fun e he => decide_eq_false (not_le.mpr (hcs e he))⟩
  | excluded key =>
    rcases h.search hsorted key with ⟨as, ids, cs, rfl, hfound⟩ | ⟨as, cs, rfl, hplace, has, hcs⟩
    · obtain ⟨-, hcsorted, hsides⟩ := pairwise_append.mp hsorted
      refine ⟨as, (key, ids) :: cs, rfl, by rw [StrBlock.upper, hfound], ?_, ?_⟩
      · exact fun e he => decide_eq_true (hsides e he _ mem_cons_self)
      · intro e he
        rcases mem_cons.mp he with rfl | he
        · exact decide_eq_false (lt_irrefl key)
        · exact decide_eq_false (lt_asymm ((sorted_cons.mp hcsorted).1 e he))
    · exact ⟨as, cs, rfl, by rw [StrBlock.upper, hplace],
        fun e he => decide_eq_true (has e he),
        fun e he => decide_eq_false (lt_asymm (hcs e he))⟩

/-- Positions of a block read one after another are a stretch of its entries. -/
theorem map_range' {p : Key} (h : Packs b p es) {start n : ℕ} (hn : start + n ≤ es.length) :
    ((range' start n).map fun i => (b.key i, b.idsOf i)) = (es.drop start).take n := by
  apply ext_getElem
  · simp
    omega
  · intro i hi hi'
    have hin : start + i < es.length := by
      rw [length_map, length_range'] at hi
      omega
    obtain ⟨hkey, hids, -⟩ := h.keyAt hin
    simp only [getElem_map, getElem_range', getElem_take, getElem_drop, Nat.one_mul, hkey, hids]

/-- A cut of a block is its entries within the bounds. -/
theorem cut_eq {p : Key} (h : Packs b p es) (hsorted : Sorted es) (lower upper : Bound Key) :
    cut lower upper b = es.filter (within lower upper) := by
  obtain ⟨as, cs, heq, hlower, has, hcs⟩ := lower_spec h hsorted lower
  obtain ⟨as', cs', heq', hupper, has', hcs'⟩ := upper_spec h hsorted upper
  have hlen := congrArg length heq
  have hlen' := congrArg length heq'
  rw [length_append] at hlen hlen'
  have hwithin : es.filter (within lower upper) = cs.filter fun e => upper.above e.1 := by
    rw [heq, filter_append, filter_eq_nil_iff.mpr fun e he => by simp [within, has e he],
      nil_append]
    exact filter_congr fun e he => by simp [within, hcs e he]
  have hdrop : cs = as'.drop as.length ++ cs'.drop (as.length - as'.length) := by
    rw [← drop_append, ← heq', heq, drop_left]
  rw [cut, map_range' h (by omega), hwithin, hlower, hupper]
  rw [show es.drop as.length = cs by rw [heq, drop_left], hdrop, filter_append]
  rw [filter_eq_self.mpr fun e he => has' e (mem_of_mem_drop he)]
  rw [filter_eq_nil_iff.mpr fun e he => by simp [hcs' e (mem_of_mem_drop he)], append_nil]
  exact take_left' (by rw [length_drop]; omega)

theorem flatMap_filter {α β : Type} {f : α → List β} {q : α → Bool} {l : List α}
    (hskip : ∀ a ∈ l, q a = false → f a = []) : (l.filter q).flatMap f = l.flatMap f := by
  induction l with
  | nil => rfl
  | cons a l ih =>
    have hrest := ih fun b hb => hskip b (mem_cons_of_mem _ hb)
    rw [filter_cons, flatMap_cons]
    split_ifs with hq
    · rw [flatMap_cons, hrest]
    · rw [hskip a mem_cons_self (Bool.eq_false_iff.mpr hq), nil_append, hrest]

theorem inverted_within {lower upper : Bound Key} (h : inverted lower upper = true)
    (e : Key × IdSet) : within lower upper e = false := by
  rw [within, Bool.and_eq_false_iff]
  by_contra hboth
  rw [not_or, Bool.not_eq_false, Bool.not_eq_false] at hboth
  obtain ⟨hbelow, habove⟩ := hboth
  cases lower <;> cases upper <;> simp only [inverted, Bound.below, Bound.above,
    decide_eq_true_eq, Bool.false_eq_true] at h hbelow habove
  · exact absurd (hbelow.trans habove) (not_le.mpr h)
  · exact absurd (hbelow.trans_lt habove) (not_lt.mpr h)
  · exact absurd (hbelow.trans_le habove) (not_lt.mpr h)
  · exact absurd (hbelow.trans habove) (not_lt.mpr h)

/-- A block before the one that would hold the lower bound has no key within. -/
theorem Wellformed.before_from (h : Wellformed blocks) (he : e ∈ blocks)
    {lower : Bound Key} (hbefore : (blocksFrom blocks lower).below e.1 = false) :
    ∀ entry ∈ e.2.entries, lower.below entry.1 = false := by
  have hfloored : ∀ key, ((StrPostings.floor key blocks).elim (Bound.unbounded : Bound Key)
      fun e => .included e.1).below e.1 = false → ∀ entry ∈ e.2.entries, entry.1 < key := by
    intro key hkey
    rcases hfloor : StrPostings.floor key blocks with _ | ⟨first, b⟩
    · rw [hfloor] at hkey
      cases hkey
    · rw [hfloor] at hkey
      have hlt : e.1 < first := not_le.mp (of_decide_eq_false hkey)
      obtain ⟨xs, ys, hloc⟩ := h.floor hfloor
      obtain ⟨-, -, habove⟩ := h.get?_first hloc
      rw [hloc.eq] at he
      rcases mem_append.mp he with he | he
      · exact fun entry hentry => hloc.below entry (mem_flatMap.mpr ⟨e, he, hentry⟩)
      · rcases mem_cons.mp he with rfl | he
        · exact absurd hlt (lt_irrefl _)
        · exact absurd (hlt.trans (habove e he)) (lt_irrefl _)
  intro entry hentry
  cases lower with
  | unbounded => cases hbefore
  | included key => exact decide_eq_false (not_le.mpr (hfloored key hbefore entry hentry))
  | excluded key => exact decide_eq_false (lt_asymm (hfloored key hbefore entry hentry))

theorem Wellformed.after_to (h : Wellformed blocks) (he : e ∈ blocks)
    {upper : Bound Key} (hafter : (blocksTo upper).above e.1 = false) :
    ∀ entry ∈ e.2.entries, upper.above entry.1 = false := by
  have hgt : ∀ key, key < e.1 → ∀ entry ∈ e.2.entries, key < entry.1 := by
    intro key hkey entry hentry
    have hone : Wellformed [e] := by
      obtain ⟨xs, ys, rfl⟩ := append_of_mem he
      exact @left [e] ys h.right
    exact hone.contents_gt (fun e' he' => mem_singleton.mp he' ▸ hkey) entry
      (mem_flatMap.mpr ⟨e, mem_cons_self, hentry⟩)
  intro entry hentry
  cases upper with
  | unbounded => cases hafter
  | included key =>
    have hkey := not_le.mp (of_decide_eq_false hafter)
    exact decide_eq_false (not_le.mpr (hgt key hkey entry hentry))
  | excluded key =>
    have hkey := not_le.mp (of_decide_eq_false hafter)
    exact decide_eq_false (lt_asymm (hgt key hkey entry hentry))

/-- A range is the entries within its bounds, taken from either end. -/
theorem Wellformed.range (h : Wellformed idx.blocks) (lower upper : Bound Key) :
    idx.range lower upper = (contents idx.blocks).filter (within lower upper) ∧
      idx.rangeBack lower upper = (idx.range lower upper).reverse := by
  refine ⟨?_, ?_⟩
  · rw [StrPostings.range, rangeBlocks]
    split_ifs with hinverted
    · rw [flatMap_nil, filter_eq_nil_iff.mpr]
      exact fun e _ => by simp [inverted_within hinverted e]
    · have hcut : ∀ e ∈ idx.blocks,
          cut lower upper e.2 = e.2.entries.filter (within lower upper) := by
        intro e he
        obtain ⟨xs, ys, hblocks⟩ := append_of_mem he
        have hone : Wellformed [e] := by
          rw [hblocks] at h
          exact @left [e] ys h.right
        have hsorted : Sorted e.2.entries := by
          have hsorted := hone.sorted
          rwa [contents, flatMap_cons, flatMap_nil, append_nil] at hsorted
        exact cut_eq (h.held e he).1.choose_spec hsorted lower upper
      rw [flatMap_filter, contents, filter_flatMap]
      · exact flatMap_congr hcut
      · intro e he hskip
        rw [hcut e he, filter_eq_nil_iff]
        intro entry hentry
        rcases Bool.and_eq_false_iff.mp hskip with hskip | hskip
        · simp [within, h.before_from he hskip entry hentry]
        · simp [within, h.after_to he hskip entry hentry]
  · rw [StrPostings.range, rangeBack, reverse_flatMap]
    rfl

end StrPostings

end StrIndex

end LoraDb
