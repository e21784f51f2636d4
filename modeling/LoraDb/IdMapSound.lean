import LoraDb.IdMap

/-!
# The Posting Map Is a Sorted Map

A search in the groups ends at a place: a chunk, with smaller ids before it and larger ones
behind. A write replaces what is at the place and repairs the largest ids on the way up.

## Main results

* `insertLarge_ok`, `removeLarge_ok`: what a write does to the entries, and that the largest
  ids stay true.
* `idMap_refines`: over every run the maps answer as sorted maps, clones apart.
-/

open Prod (fst snd)
open List SortedRuns

namespace LoraDb

open Option

namespace IdMap

variable {V : Type} {root : Root V} {id cap : ℕ}

/-! ### Places -/

/-- The entries of a group. -/
def flat (group : Group V) : List (ℕ × V) := group.flatMap snd

def entriesOf (root : Root V) : List (ℕ × V) := root.flatMap fun s => flat s.2

@[simp] theorem flat_nil : flat ([] : Group V) = [] := rfl

@[simp] theorem flat_cons (c : ℕ × Chunk V) (cs : Group V) : flat (c :: cs) = c.2 ++ flat cs :=
  flatMap_cons

@[simp] theorem flat_append (cs cs' : Group V) : flat (cs ++ cs') = flat cs ++ flat cs' :=
  flatMap_append

@[simp] theorem entriesOf_nil : entriesOf ([] : Root V) = [] := rfl

@[simp] theorem entriesOf_cons (s : ℕ × Group V) (gs : Root V) :
    entriesOf (s :: gs) = flat s.2 ++ entriesOf gs := flatMap_cons

@[simp] theorem entriesOf_append (gs gs' : Root V) :
    entriesOf (gs ++ gs') = entriesOf gs ++ entriesOf gs' := flatMap_append

/-- The largest id recorded for every chunk of a group is its true largest id. -/
def ChunksTrue (group : Group V) : Prop := ∀ c ∈ group, Largest fst c.1 c.2

/-- Groups whose recorded largest ids are true, with entries in order. -/
structure RootOk (root : Root V) : Prop where
  groups : ∀ s ∈ root, Largest fst s.1 (flat s.2)
  chunks : ∀ s ∈ root, ChunksTrue s.2
  sorted : SortedMap.Sorted (entriesOf root)

/-- Where `id` is, or would go: a chunk with smaller ids before it and larger ones behind. -/
structure Place (root : Root V) (id : ℕ) where
  gs : Root V
  rootMax : ℕ
  cs : Group V
  groupMax : ℕ
  chunk : Chunk V
  cs' : Group V
  gs' : Root V
  root_eq : root = gs ++ (rootMax, cs ++ (groupMax, chunk) :: cs') :: gs'
  slot_root : slotFor root id = gs.length
  slot_group : slotFor (cs ++ (groupMax, chunk) :: cs') id = cs.length
  below : ∀ e ∈ entriesOf gs ++ flat cs, e.1 < id
  above : ∀ e ∈ flat cs' ++ entriesOf gs', id < e.1
  reach : (∃ s ∈ root, id ≤ s.1) → id ≤ groupMax

namespace Place

variable (p : Place root id)

/-- The entries before the chunk of the place. -/
def before : List (ℕ × V) := entriesOf p.gs ++ flat p.cs

/-- The entries behind the chunk of the place. -/
def behind : List (ℕ × V) := flat p.cs' ++ entriesOf p.gs'

/-- The root with other groups at the place. -/
def put (news : Root V) : Root V := p.gs ++ (news ++ p.gs')

theorem entries : entriesOf root = p.before ++ (p.chunk ++ p.behind) := by
  refine (congrArg entriesOf p.root_eq).trans ?_
  simp only [entriesOf_append, entriesOf_cons, flat_append, flat_cons, append_assoc, before, behind]

theorem get_root : root[slotFor root id]? =
    some (p.rootMax, p.cs ++ (p.groupMax, p.chunk) :: p.cs') := by
  rw [p.slot_root]
  exact (congrArg (fun r : Root V => r[p.gs.length]?) p.root_eq).trans getElem?_mid

theorem get_group : (p.cs ++ (p.groupMax, p.chunk) :: p.cs')[slotFor
    (p.cs ++ (p.groupMax, p.chunk) :: p.cs') id]? = some (p.groupMax, p.chunk) := by
  rw [p.slot_group]
  exact getElem?_mid

theorem set_group (c : ℕ × Chunk V) : (p.cs ++ (p.groupMax, p.chunk) :: p.cs').set
    (slotFor (p.cs ++ (p.groupMax, p.chunk) :: p.cs') id) c = p.cs ++ c :: p.cs' := by
  rw [p.slot_group]
  exact set_mid c

theorem set_root (s : ℕ × Group V) : root.set (slotFor root id) s = p.put [s] := by
  rw [p.slot_root]
  exact (congrArg (fun r : Root V => r.set p.gs.length s) p.root_eq).trans (set_mid s)

theorem insert_group (c c' : ℕ × Chunk V) : (p.cs ++ c :: p.cs').insertIdx
    (slotFor (p.cs ++ (p.groupMax, p.chunk) :: p.cs') id + 1) c' = p.cs ++ c :: c' :: p.cs' := by
  rw [p.slot_group]
  exact insertIdx_mid_succ

theorem insert_root (s s' : ℕ × Group V) :
    (p.put [s]).insertIdx (slotFor root id + 1) s' = p.put [s, s'] := by
  rw [p.slot_root]
  exact insertIdx_mid_succ

theorem erase_root : root.eraseIdx (slotFor root id) = p.put [] := by
  rw [p.slot_root]
  exact (congrArg (fun r : Root V => r.eraseIdx p.gs.length) p.root_eq).trans eraseIdx_mid

theorem chunk_sorted (h : RootOk root) : SortedMap.Sorted p.chunk := by
  have hsorted := h.sorted
  rw [p.entries] at hsorted
  exact (pairwise_append.mp (pairwise_append.mp hsorted).2.1).1

theorem mem_root : (p.rootMax, p.cs ++ (p.groupMax, p.chunk) :: p.cs') ∈ root := by
  have hmem : (p.rootMax, p.cs ++ (p.groupMax, p.chunk) :: p.cs') ∈
      p.gs ++ (p.rootMax, p.cs ++ (p.groupMax, p.chunk) :: p.cs') :: p.gs' :=
    mem_append_right _ mem_cons_self
  rwa [← p.root_eq] at hmem

theorem group_largest (h : RootOk root) :
    Largest fst p.rootMax (flat p.cs ++ (p.chunk ++ flat p.cs')) := by
  have hgroup := h.groups _ p.mem_root
  rwa [flat_append, flat_cons] at hgroup

theorem chunks_true (h : RootOk root) : ChunksTrue p.cs ∧
    Largest fst p.groupMax p.chunk ∧ ChunksTrue p.cs' := by
  have hchunks := h.chunks _ p.mem_root
  exact ⟨fun c hc => hchunks c (mem_append_left _ hc),
    hchunks (p.groupMax, p.chunk) (mem_append_right _ mem_cons_self),
    fun c hc => hchunks c (mem_append_right _ (mem_cons_of_mem _ hc))⟩

/-- Groups put at a place keep the root as it should be when they are. -/
theorem put_ok (h : RootOk root) {news : Root V} {es : List (ℕ × V)}
    (hentries : entriesOf news = flat p.cs ++ (es ++ flat p.cs'))
    (hgroups : ∀ s ∈ news, Largest fst s.1 (flat s.2)) (hchunks : ∀ s ∈ news, ChunksTrue s.2)
    (hsorted : SortedMap.Sorted (p.before ++ (es ++ p.behind))) :
    RootOk (p.put news) ∧ entriesOf (p.put news) = p.before ++ (es ++ p.behind) := by
  have hall : entriesOf (p.put news) = p.before ++ (es ++ p.behind) := by
    simp only [put, entriesOf_append, hentries, before, behind, append_assoc]
  have hold : ∀ s ∈ p.gs ++ p.gs', s ∈ root := by
    intro s hs
    have hmem : s ∈ p.gs ++ (p.rootMax, p.cs ++ (p.groupMax, p.chunk) :: p.cs') :: p.gs' :=
      mem_append.mpr ((mem_append.mp hs).imp_right (mem_cons_of_mem _))
    rwa [← p.root_eq] at hmem
  have hcases : ∀ s ∈ p.put news, s ∈ news ∨ s ∈ root := by
    intro s hs
    simp only [put, mem_append] at hs
    rcases hs with hs | hs | hs
    · exact .inr (hold s (mem_append_left _ hs))
    · exact .inl hs
    · exact .inr (hold s (mem_append_right _ hs))
  refine ⟨⟨fun s hs => ?_, fun s hs => ?_, hall ▸ hsorted⟩, hall⟩
  · exact (hcases s hs).elim (hgroups s) (h.groups s)
  · exact (hcases s hs).elim (hchunks s) (h.chunks s)

end Place

theorem RootOk.group_sorted (h : RootOk root) {s : ℕ × Group V} (hs : s ∈ root) :
    SortedMap.Sorted (flat s.2) := by
  have hmem : flat s.2 ∈ root.map fun s => flat s.2 := mem_map.mpr ⟨s, hs, rfl⟩
  exact Pairwise.sublist (sublist_flatten_of_mem hmem) h.sorted

/-- A search in the groups ends at a place. -/
theorem RootOk.place (h : RootOk root) (hne : root ≠ []) (id : ℕ) : Nonempty (Place root id) := by
  obtain ⟨gs, ⟨rootMax, group⟩, gs', hroot, hslot, hbelow, habove, hreach⟩ :=
    slotLast_split hne h.groups h.sorted id
  have hmem : (rootMax, group) ∈ root := by simp [hroot]
  have hgroup := h.groups _ hmem
  have hne' : group ≠ [] := by
    rintro rfl
    exact hgroup.ne_nil rfl
  obtain ⟨cs, ⟨groupMax, chunk⟩, cs', hgroup', hslot', hbelow', habove', hreach'⟩ :=
    slotLast_split hne' (h.chunks _ hmem) (h.group_sorted hmem) id
  subst hgroup'
  refine ⟨gs, rootMax, cs, groupMax, chunk, cs', gs', hroot, hslot, hslot', ?_, ?_, fun hle => ?_⟩
  · intro e he
    exact (mem_append.mp he).elim (hbelow e) (hbelow' e)
  · intro e he
    exact (mem_append.mp he).elim (habove' e) (habove e)
  · -- The largest id of the group is that of one of its chunks.
    refine hreach' ?_
    obtain ⟨⟨e, he, hkey⟩, -⟩ := hgroup
    obtain ⟨c, hc, he⟩ := mem_flatMap.mp he
    exact ⟨c, hc, (hreach hle).trans (hkey ▸ (h.chunks _ hmem c hc).2 e he)⟩

/-! ### A chunk -/

variable {chunk es : List (ℕ × V)} {m : ℕ} {v : V}

theorem largest_append {l : List (ℕ × V)} (h : ∀ e ∈ l, e.1 < id) :
    Largest fst id (l ++ [(id, v)]) := by
  refine ⟨⟨(id, v), by simp, rfl⟩, fun e he => ?_⟩
  rcases mem_append.mp he with he | he
  · exact (h e he).le
  · rw [mem_singleton.mp he]

/-- The last entry of a chunk has its largest id. -/
theorem largest_last (h : SortedMap.Sorted (es ++ [(m, v)])) :
    Largest fst m (es ++ [(m, v)]) :=
  largest_append fun e he => (pairwise_append.mp h).2.2 e he _ (mem_singleton.mpr rfl)

theorem chunkMax_largest (h : SortedMap.Sorted chunk) (hne : chunk ≠ []) :
    ∃ m, chunkMax chunk = some m ∧ Largest fst m chunk := by
  obtain ⟨es, ⟨m, v⟩, rfl⟩ := (eq_nil_or_concat' chunk).resolve_left hne
  exact ⟨m, by rw [chunkMax, getLast?_concat]; rfl, largest_last h⟩

theorem groupMax_largest {group : Group V} (h : SortedMap.Sorted (flat group))
    (hchunks : ChunksTrue group) (hne : group ≠ []) :
    ∃ m, groupMax group = some m ∧ Largest fst m (flat group) := by
  obtain ⟨cs, c, rfl⟩ := (eq_nil_or_concat' group).resolve_left hne
  exact ⟨c.1, by rw [groupMax, getLast?_concat]; rfl, largest_concat h (hchunks c (by simp))⟩

theorem ChunksTrue.append {cs cs' : Group V} (h : ChunksTrue cs) (h' : ChunksTrue cs') :
    ChunksTrue (cs ++ cs') := fun c hc => (mem_append.mp hc).elim (h c) (h' c)

theorem ChunksTrue.cons {c : ℕ × Chunk V} {cs : Group V} (hc : Largest fst c.1 c.2)
    (h : ChunksTrue cs) : ChunksTrue (c :: cs) := fun c' hc' => by
  rcases mem_cons.mp hc' with rfl | hc'
  · exact hc
  · exact h c' hc'

theorem ChunksTrue.sublist {cs cs' : Group V} (h : ChunksTrue cs') (hsub : cs <+ cs') :
    ChunksTrue cs := fun c hc => h c (hsub.subset hc)

theorem chunksTrue_singleton {c : ℕ × Chunk V} (hc : Largest fst c.1 c.2) : ChunksTrue [c] :=
  ChunksTrue.cons hc fun _ h => absurd h not_mem_nil

/-! ### Insertion -/

/-- Behind the largest id of all, the entries are appended to. -/
theorem append_ok (h : RootOk root) {gs : Root V} {rootMax groupMax : ℕ} {cs : Group V}
    {tail : Chunk V} (hroot : root = gs ++ [(rootMax, cs ++ [(groupMax, tail)])])
    (hlt : rootMax < id) (v : V) : (∀ e ∈ entriesOf root, e.1 < id) ∧
      ∀ {news : Root V}, entriesOf (gs ++ news) = entriesOf root ++ [(id, v)] →
        (∀ s ∈ news, Largest fst s.1 (flat s.2) ∧ ChunksTrue s.2) → RootOk (gs ++ news) := by
  subst hroot
  have hmax := largest_concat h.sorted (h.groups _ (mem_append_right _ mem_cons_self))
  have hbelow : ∀ e ∈ entriesOf (gs ++ [(rootMax, cs ++ [(groupMax, tail)])]), e.1 < id :=
    fun e he => (hmax.2 e he).trans_lt hlt
  refine ⟨hbelow, fun {news} hentries hnews => ⟨fun s hs => ?_, fun s hs => ?_, ?_⟩⟩
  · rcases mem_append.mp hs with hs | hs
    · exact h.groups s (mem_append_left _ hs)
    · exact (hnews s hs).1
  · rcases mem_append.mp hs with hs | hs
    · exact h.chunks s (mem_append_left _ hs)
    · exact (hnews s hs).2
  · rw [hentries, ← SortedMap.put_of_forall_lt hbelow]
    exact h.sorted.put id v

theorem insertLarge_append (h : RootOk root) {gs : Root V} {rootMax groupMax : ℕ} {cs : Group V}
    {tail : Chunk V} (hroot : root = gs ++ [(rootMax, cs ++ [(groupMax, tail)])])
    (hlt : rootMax < id) (cap : ℕ) (v : V) :
    ∃ root', insertLarge root id v cap = some (root', none) ∧ RootOk root' ∧
      entriesOf root' = entriesOf root ++ [(id, v)] := by
  obtain ⟨hbelow, hok⟩ := append_ok h hroot hlt v
  have hlast : ChunksTrue (cs ++ [(groupMax, tail)]) := h.chunks (rootMax, _) (by simp [hroot])
  have hfirst : ChunksTrue cs := hlast.sublist (sublist_append_left _ _)
  have hone : Largest fst id [(id, v)] := largest_append (fun e he => absurd he not_mem_nil)
  have hflat : ∀ e ∈ flat cs ++ tail, e.1 < id := fun e he => hbelow e (by
    simp only [hroot, entriesOf_append, entriesOf_cons, flat_append, flat_cons, flat_nil,
      append_nil]
    exact mem_append_right _ (mem_append_left _ he))
  have hentries : entriesOf root = entriesOf gs ++ (flat cs ++ tail) := by
    simp only [hroot, entriesOf_append, entriesOf_cons, entriesOf_nil, flat_append, flat_cons,
      flat_nil, append_nil]
  rw [insertLarge]
  simp only [hroot, getLast?_concat, dropLast_concat, bind_eq_bind, bind_some, if_pos hlt]
  rw [← hroot]
  split_ifs
  · -- A group of its own.
    refine ⟨_, rfl, ?_⟩
    have hroot' : root ++ [(id, [(id, [(id, v)])])] =
        gs ++ [(rootMax, cs ++ [(groupMax, tail)]), (id, [(id, [(id, v)])])] := by
      rw [hroot, append_assoc, singleton_append]
    have hall : entriesOf (root ++ [(id, [(id, [(id, v)])])]) = entriesOf root ++ [(id, v)] := by
      simp
    refine ⟨?_, hall⟩
    rw [hroot'] at hall ⊢
    refine hok hall fun s hs => ?_
    rcases mem_cons.mp hs with rfl | hs
    · exact ⟨h.groups _ (by simp [hroot]), hlast⟩
    · rw [mem_singleton.mp hs]
      exact ⟨by simpa using hone, chunksTrue_singleton hone⟩
  · -- A chunk of its own.
    refine ⟨_, rfl, ?_⟩
    have hall : entriesOf (gs ++ [(id, cs ++ [(groupMax, tail)] ++ [(id, [(id, v)])])]) =
        entriesOf root ++ [(id, v)] := by
      rw [hentries]
      simp
    refine ⟨hok hall fun s hs => ?_, hall⟩
    rw [mem_singleton.mp hs]
    refine ⟨?_, hlast.append (chunksTrue_singleton hone)⟩
    have hmax := largest_append (v := v) hflat
    simpa using hmax
  · -- The last chunk has room.
    refine ⟨_, rfl, ?_⟩
    have hall : entriesOf (gs ++ [(id, cs ++ [(id, tail ++ [(id, v)])])]) =
        entriesOf root ++ [(id, v)] := by
      rw [hentries]
      simp
    refine ⟨hok hall fun s hs => ?_, hall⟩
    rw [mem_singleton.mp hs]
    refine ⟨?_, hfirst.append (chunksTrue_singleton
      (largest_append fun e he => hflat e (mem_append_right _ he)))⟩
    have hmax := largest_append (v := v) hflat
    simpa using hmax

namespace Place

variable (p : Place root id) {as bs : List (ℕ × V)} {old : V}

theorem below' (has : ∀ e ∈ as, e.1 < id) : ∀ e ∈ p.before ++ as, e.1 < id := fun e he =>
  (mem_append.mp he).elim (p.below e) (has e)

theorem behind' (hbs : ∀ e ∈ bs, id < e.1) : ∀ e ∈ bs ++ p.behind, id < e.1 := fun e he =>
  (mem_append.mp he).elim (hbs e) (p.above e)

/-- An id in the chunk of its place. -/
theorem found (hchunk : p.chunk = as ++ (id, old) :: bs) (has : ∀ e ∈ as, e.1 < id) :
    SortedMap.get? id (entriesOf root) = some old ∧ (∀ v, SortedMap.put id v (entriesOf root) =
        p.before ++ ((as ++ (id, v) :: bs) ++ p.behind)) ∧
      SortedMap.erase id (entriesOf root) = p.before ++ ((as ++ bs) ++ p.behind) := by
  have hentries : entriesOf root = (p.before ++ as) ++ ((id, old) :: (bs ++ p.behind)) := by
    rw [p.entries, hchunk]
    simp only [append_assoc, cons_append]
  obtain ⟨hget, hput, herase⟩ := @SortedMap.found _ _ _ _ _ (bs ++ p.behind) old (p.below' has)
  rw [hentries]
  refine ⟨hget, fun v => (hput v).trans ?_, herase.trans ?_⟩ <;>
    simp only [append_assoc, cons_append]

/-- An id that is not there. -/
theorem absent (hchunk : p.chunk = as ++ bs) (has : ∀ e ∈ as, e.1 < id) (hbs : ∀ e ∈ bs, id < e.1) :
    SortedMap.get? id (entriesOf root) = none ∧ (∀ v, SortedMap.put id v (entriesOf root) =
        p.before ++ ((as ++ (id, v) :: bs) ++ p.behind)) ∧
      SortedMap.erase id (entriesOf root) = entriesOf root := by
  have hentries : entriesOf root = (p.before ++ as) ++ (bs ++ p.behind) := by
    rw [p.entries, hchunk]
    simp only [append_assoc]
  obtain ⟨hget, hput, herase⟩ := SortedMap.absent (p.below' has) (p.behind' hbs)
  rw [hentries]
  refine ⟨hget, fun v => (hput v).trans ?_, herase⟩
  simp only [append_assoc, cons_append]

/-- A chunk written at a place, the largest ids unchanged. -/
theorem write_ok (h : RootOk root) {chunk : Chunk V} (hchunk : Largest fst p.groupMax chunk)
    (hgroup : Largest fst p.rootMax (flat p.cs ++ (chunk ++ flat p.cs')))
    (hsorted : SortedMap.Sorted (p.before ++ (chunk ++ p.behind))) :
    RootOk (p.put [(p.rootMax, p.cs ++ (p.groupMax, chunk) :: p.cs')]) ∧
      entriesOf (p.put [(p.rootMax, p.cs ++ (p.groupMax, chunk) :: p.cs')]) =
        p.before ++ (chunk ++ p.behind) := by
  obtain ⟨hcs, -, hcs'⟩ := p.chunks_true h
  refine p.put_ok h (by simp) (fun s hs => ?_) (fun s hs => ?_) hsorted
  · rw [mem_singleton.mp hs]
    simpa using hgroup
  · rw [mem_singleton.mp hs]
    exact hcs.append (.cons hchunk hcs')

/-- Replacing the value at an id. -/
theorem replace_ok (h : RootOk root) (hchunk : p.chunk = as ++ (id, old) :: bs)
    (has : ∀ e ∈ as, e.1 < id) (v : V) :
    RootOk (p.put [(p.rootMax, p.cs ++ (p.groupMax, as ++ (id, v) :: bs) :: p.cs')]) ∧
      entriesOf (p.put [(p.rootMax, p.cs ++ (p.groupMax, as ++ (id, v) :: bs) :: p.cs')]) =
        SortedMap.put id v (entriesOf root) := by
  have hput := (p.found hchunk has).2.1 v
  have hlargest := (p.chunks_true h).2.1
  have hgroup := p.group_largest h
  rw [hchunk] at hlargest hgroup
  rw [append_assoc, cons_append, ← append_assoc] at hgroup
  have hgroup' := hgroup.replace (show (id, v).1 = (id, old).1 from rfl)
  rw [hput]
  refine p.write_ok h (hlargest.replace rfl) ?_ (hput ▸ h.sorted.put id v)
  simpa only [append_assoc, cons_append] using hgroup'

end Place

/-- A new entry at a place, where its chunk and then its group are split when they outgrow
their bounds. -/
theorem insertLarge_middle (h : RootOk root) (p : Place root id) {as bs : List (ℕ × V)} (v : V)
    (hreach : id ≤ p.groupMax) (hchunk : p.chunk = as ++ bs) (has : ∀ e ∈ as, e.1 < id)
    (hbs : ∀ e ∈ bs, id < e.1) :
    let chunk := as ++ (id, v) :: bs
    (RootOk (p.put [(p.rootMax, p.cs ++ (p.groupMax, chunk) :: p.cs')]) ∧
      entriesOf (p.put [(p.rootMax, p.cs ++ (p.groupMax, chunk) :: p.cs')]) =
        SortedMap.put id v (entriesOf root)) ∧
    ∀ n, 0 < n → n < chunk.length → ∃ lower, chunkMax (chunk.take n) = some lower ∧
      let group := p.cs ++ (lower, chunk.take n) :: (p.groupMax, chunk.drop n) :: p.cs'
      (RootOk (p.put [(p.rootMax, group)]) ∧
        entriesOf (p.put [(p.rootMax, group)]) = SortedMap.put id v (entriesOf root)) ∧
      ∀ n, 0 < n → n < group.length → ∃ lower, groupMax (group.take n) = some lower ∧
        RootOk (p.put [(lower, group.take n), (p.rootMax, group.drop n)]) ∧
        entriesOf (p.put [(lower, group.take n), (p.rootMax, group.drop n)]) =
          SortedMap.put id v (entriesOf root) := by
  intro chunk
  obtain ⟨hcs, hlargest, hcs'⟩ := p.chunks_true h
  have hgroup := p.group_largest h
  have hput := (p.absent hchunk has hbs).2.1 v
  have hsorted : SortedMap.Sorted (p.before ++ (chunk ++ p.behind)) := hput ▸ h.sorted.put id v
  have hchunkSorted : SortedMap.Sorted chunk :=
    (pairwise_append.mp (pairwise_append.mp hsorted).2.1).1
  rw [hchunk] at hlargest hgroup
  have hlargest' : Largest fst p.groupMax chunk := hlargest.insert hreach
  have hgroup' : Largest fst p.rootMax (flat p.cs ++ (chunk ++ flat p.cs')) := by
    have hle : id ≤ p.rootMax := by
      obtain ⟨⟨e, he, hkey⟩, -⟩ := hlargest
      exact hreach.trans (hkey ▸ hgroup.2 e (mem_append_right _ (mem_append_left _ he)))
    rw [append_assoc, ← append_assoc] at hgroup
    simpa only [chunk, append_assoc, cons_append] using
      hgroup.insert (show (id, v).1 ≤ p.rootMax from hle)
  rw [hput]
  refine ⟨p.write_ok h hlargest' hgroup' hsorted, fun n hn hlen => ?_⟩
  have hsplit : chunk.take n ++ chunk.drop n = chunk := take_append_drop n chunk
  have htake : chunk.take n ≠ [] := by
    rw [ne_eq, take_eq_nil_iff]
    rintro (h0 | h0)
    · omega
    · simp [h0] at hlen
  have hdrop : chunk.drop n ≠ [] := by
    rw [ne_eq, drop_eq_nil_iff]
    omega
  obtain ⟨lower, hlower, hlowest⟩ :=
    chunkMax_largest (Pairwise.sublist (take_sublist n chunk) hchunkSorted) htake
  have hupper : Largest fst p.groupMax (chunk.drop n) :=
    (hsplit.symm ▸ hlargest' : Largest fst p.groupMax (chunk.take n ++ chunk.drop n)).right
      (hsplit.symm ▸ hchunkSorted) hdrop
  refine ⟨lower, hlower, ?_⟩
  intro group
  have hflat : flat group = flat p.cs ++ (chunk ++ flat p.cs') := by
    simp only [group, flat_append, flat_cons]
    rw [← append_assoc (chunk.take n), hsplit]
  have hchunks : ChunksTrue group := hcs.append (.cons hlowest (.cons hupper hcs'))
  refine ⟨p.put_ok h (by rw [entriesOf_cons, hflat, entriesOf_nil, append_nil]) (fun s hs => ?_)
    (fun s hs => ?_) hsorted, fun n hn hlen => ?_⟩
  · rw [mem_singleton.mp hs, hflat]
    exact hgroup'
  · rw [mem_singleton.mp hs]
    exact hchunks
  have hgsplit : group.take n ++ group.drop n = group := take_append_drop n group
  have hgflat : flat (group.take n) ++ flat (group.drop n) = flat group := by
    rw [← flat_append, hgsplit]
  have hgsorted : SortedMap.Sorted (flat group) := by
    have hok := (p.write_ok h hlargest' hgroup' hsorted).1
    have hflat' := hok.group_sorted (mem_append_right _ mem_cons_self)
    rwa [flat_append, flat_cons, ← hflat] at hflat'
  have hgtake : group.take n ≠ [] := by
    rw [ne_eq, take_eq_nil_iff]
    rintro (h0 | h0)
    · omega
    · simp [h0] at hlen
  have hgdrop : flat (group.drop n) ≠ [] := by
    obtain ⟨c, hc⟩ := exists_mem_of_ne_nil (group.drop n) (by rw [ne_eq, drop_eq_nil_iff]; omega)
    obtain ⟨e, he⟩ := exists_mem_of_ne_nil _ (hchunks c (mem_of_mem_drop hc)).ne_nil
    exact ne_nil_of_mem (mem_flatMap.mpr ⟨c, hc, he⟩)
  obtain ⟨lower', hlower', hlowest'⟩ := groupMax_largest
    (Pairwise.sublist (by rw [← hgflat]; exact sublist_append_left _ _) hgsorted)
    (hchunks.sublist (take_sublist n group)) hgtake
  have hgupper : Largest fst p.rootMax (flat (group.drop n)) := by
    rw [← hflat, ← hgflat] at hgroup'
    exact hgroup'.right (hgflat ▸ hgsorted) hgdrop
  refine ⟨lower', hlower', p.put_ok h ?_ (fun s hs => ?_) (fun s hs => ?_) hsorted⟩
  · rw [entriesOf_cons, entriesOf_cons, entriesOf_nil, append_nil, hgflat, hflat]
  · rcases mem_cons.mp hs with rfl | hs
    · exact hlowest'
    · rw [mem_singleton.mp hs]
      exact hgupper
  · rcases mem_cons.mp hs with rfl | hs
    · exact hchunks.sublist (take_sublist n group)
    · rw [mem_singleton.mp hs]
      exact hchunks.sublist (drop_sublist n group)

/-- An insertion into the groups. -/
theorem insertLarge_ok (h : RootOk root) (hne : root ≠ []) (hcap : 0 < cap) (v : V) :
    ∃ root', insertLarge root id v cap = some (root', SortedMap.get? id (entriesOf root)) ∧
      RootOk root' ∧ entriesOf root' = SortedMap.put id v (entriesOf root) := by
  obtain ⟨gs, ⟨rootMax, last⟩, hroot⟩ := (eq_nil_or_concat' root).resolve_left hne
  have hlast : last ≠ [] := by
    rintro rfl
    exact (h.groups (rootMax, []) (by simp [hroot])).ne_nil rfl
  obtain ⟨cs, ⟨groupMax, tail⟩, rfl⟩ := (eq_nil_or_concat' last).resolve_left hlast
  by_cases hlt : rootMax < id
  · obtain ⟨root', hroot', hok, hentries⟩ := insertLarge_append h hroot hlt cap v
    have hbelow := (append_ok h hroot hlt v).1
    refine ⟨root', ?_, hok, ?_⟩
    · rw [hroot', SortedMap.get?_eq_none.mpr fun e he => (hbelow e he).ne]
    · rw [hentries, SortedMap.put_of_forall_lt hbelow]
  · obtain ⟨p⟩ := h.place hne id
    have hreach : id ≤ p.groupMax :=
      p.reach ⟨(rootMax, _), by rw [hroot]; exact mem_append_right _ mem_cons_self, not_lt.mp hlt⟩
    have hfinds := search_finds id (p.chunk_sorted h)
    rw [insertLarge]
    have hgl : root.getLast? = some (rootMax, cs ++ [(groupMax, tail)]) := by
      rw [hroot, getLast?_concat]
    simp only [hgl, getLast?_concat, bind_eq_bind, bind_some, if_neg hlt, p.get_root,
      p.get_group, binarySearch]
    generalize hout : search fst id p.chunk = out at hfinds ⊢
    cases hfinds with
    | @here as bs a hchunk ha has hbs =>
      obtain ⟨k, old⟩ := a
      obtain rfl : k = id := ha
      refine ⟨_, ?_, p.replace_ok h hchunk has v⟩
      simp only [hchunk, getElem?_mid, bind_some, set_mid, (p.found hchunk has).1]
      rw [← hchunk, p.set_group, p.set_root]
    | @absent as bs hchunk has hbs =>
      obtain ⟨hplain, hsplit⟩ := insertLarge_middle h p v hreach hchunk has hbs
      rw [(p.absent hchunk has hbs).1]
      simp only [hchunk, insertIdx_mid]
      rw [← hchunk]
      by_cases hlong : 2 * cap < (as ++ (id, v) :: bs).length
      · obtain ⟨lower, hlower, hgroup, hwhole⟩ := hsplit _
          (show 0 < (as ++ (id, v) :: bs).length / 2 by omega) (by omega)
        simp only [if_pos hlong, hlower, bind_some, p.set_group, p.insert_group]
        split_ifs with hwide
        · obtain ⟨lower', hlower', hroot'⟩ := hwhole _ (show 0 < (p.cs ++ (lower,
            (as ++ (id, v) :: bs).take ((as ++ (id, v) :: bs).length / 2)) :: (p.groupMax,
            (as ++ (id, v) :: bs).drop ((as ++ (id, v) :: bs).length / 2)) :: p.cs').length / 2 by
              rw [GROUP_MAX, GROUP] at hwide
              omega) (by omega)
          simp only [hlower', bind_some, p.set_root, p.insert_root]
          exact ⟨_, rfl, hroot'⟩
        · rw [p.set_root]
          exact ⟨_, rfl, hgroup⟩
      · simp only [if_neg hlong, p.set_group, p.set_root]
        exact ⟨_, rfl, hplain⟩

/-! ### Removal -/

section Merge

variable {T : Type} {slots : List (ℕ × List T)} {maxOf : List T → Option ℕ}
  {f : List T → List (ℕ × V)}

/-- Two neighbours made one. -/
theorem merge_pair {as bs : List (ℕ × List T)} {a b : ℕ × List T}
    (hslots : ∀ s ∈ as ++ a :: b :: bs, Largest fst s.1 (f s.2))
    (hmax : Largest fst m (f (a.2 ++ b.2))) :
    (as ++ (m, a.2 ++ b.2) :: bs).flatMap snd = (as ++ a :: b :: bs).flatMap snd ∧
      ∀ s ∈ as ++ (m, a.2 ++ b.2) :: bs, Largest fst s.1 (f s.2) := by
  refine ⟨by simp, fun s hs => ?_⟩
  rw [mem_append, mem_cons] at hs
  rcases hs with hs | rfl | hs
  · exact hslots s (mem_append_left _ hs)
  · exact hmax
  · exact hslots s (mem_append_right _ (mem_cons_of_mem _ (mem_cons_of_mem _ hs)))

/-- Merging moves nothing and keeps the largest ids true. -/
theorem mergeSmall_ok {pos : ℕ} (fit : ℕ) (hpos : pos < slots.length)
    (hslots : ∀ s ∈ slots, Largest fst s.1 (f s.2))
    (hmerge : ∀ as a b bs, slots = as ++ a :: b :: bs →
      ∃ m, maxOf (a.2 ++ b.2) = some m ∧ Largest fst m (f (a.2 ++ b.2))) :
    ∃ slots', mergeSmall slots pos fit maxOf = some slots' ∧
      slots'.flatMap snd = slots.flatMap snd ∧
        ∀ s ∈ slots', Largest fst s.1 (f s.2) := by
  obtain ⟨s, hs⟩ : ∃ s, slots[pos]? = some s := ⟨_, getElem?_eq_getElem hpos⟩
  rw [mergeSmall, hs]
  simp only [bind_eq_bind, bind_some]
  split_ifs with hnext hprev
  · -- Into the next.
    have hlt : pos + 1 < slots.length := by
      by_contra hlast
      rw [getElem?_eq_none (by omega)] at hnext
      cases hnext
    obtain ⟨as, a, b, bs, hl, rfl⟩ := exists_mid_succ hlt
    obtain ⟨m, hm, hlargest⟩ := hmerge as a b bs hl
    subst hl
    refine ⟨_, ?_, merge_pair hslots hlargest⟩
    simp only [getElem?_mid_succ, eraseIdx_mid_succ, getElem?_mid, set_mid, hm, bind_some]
  · -- Into the previous.
    obtain ⟨as, a, b, bs, hl, hlen⟩ := exists_mid_succ (show pos - 1 + 1 < slots.length by omega)
    obtain ⟨m, hm, hlargest⟩ := hmerge as a b bs hl
    subst hl
    refine ⟨_, ?_, merge_pair hslots hlargest⟩
    simp only [← hlen, getElem?_mid_succ, eraseIdx_mid_succ, getElem?_mid, set_mid, hm, bind_some]
  · exact ⟨slots, rfl, rfl, hslots⟩

end Merge

theorem flat_eq (root : Root V) : entriesOf root = flat (root.flatMap snd) := by
  induction root with
  | nil => rfl
  | cons s root ih => rw [entriesOf_cons, flatMap_cons, flat_append, ih]

/-- A group after a removal from one of its chunks. -/
theorem afterRemove_ok {cs cs' : Group V} (old : ℕ × Chunk V) (cap : ℕ) (hcs : ChunksTrue cs)
    (hcs' : ChunksTrue cs') (hsorted : SortedMap.Sorted (flat cs ++ (chunk ++ flat cs'))) :
    ∃ group, afterRemove (cs ++ old :: cs') cs.length chunk cap = some group ∧
      flat group = flat cs ++ (chunk ++ flat cs') ∧ ChunksTrue group := by
  rcases eq_nil_or_concat' chunk with rfl | ⟨es, ⟨max, v⟩, rfl⟩
  · exact ⟨cs ++ cs', by rw [afterRemove, getLast?_nil, eraseIdx_mid], flat_append _ _,
      hcs.append hcs'⟩
  have hchunk : SortedMap.Sorted (es ++ [(max, v)]) :=
    (pairwise_append.mp (pairwise_append.mp hsorted).2.1).1
  have htrue : ChunksTrue (cs ++ (max, es ++ [(max, v)]) :: cs') :=
    hcs.append (.cons (largest_last hchunk) hcs')
  have hflat : flat (cs ++ (max, es ++ [(max, v)]) :: cs') =
      flat cs ++ (es ++ [(max, v)] ++ flat cs') := by
    rw [flat_append, flat_cons]
  rw [afterRemove, getLast?_concat]
  simp only [set_mid]
  split_ifs
  · have hmerge : ∀ as a b bs, cs ++ (max, es ++ [(max, v)]) :: cs' = as ++ a :: b :: bs →
        ∃ m, chunkMax (a.2 ++ b.2) = some m ∧ Largest fst m (a.2 ++ b.2) := by
      intro as a b bs hl
      refine chunkMax_largest ?_ ?_
      · rw [← hflat, hl] at hsorted
        simp only [flat_append, flat_cons, ← append_assoc a.2] at hsorted
        exact (pairwise_append.mp (pairwise_append.mp hsorted).2.1).1
      · have ha := htrue a (by simp [hl])
        simp [ha.ne_nil]
    obtain ⟨group, hgroup, hsame, hall⟩ := mergeSmall_ok (f := fun l => l) cap
      (show cs.length < (cs ++ (max, es ++ [(max, v)]) :: cs').length by simp) htrue hmerge
    exact ⟨group, hgroup, hsame.trans hflat, hall⟩
  · exact ⟨_, rfl, hflat, htrue⟩

/-- A root after a removal from one of its groups. -/
theorem afterRemoveGroup_ok (h : RootOk root) (p : Place root id) {group : Group V}
    {es : List (ℕ × V)} (hflat : flat group = flat p.cs ++ (es ++ flat p.cs'))
    (hchunks : ChunksTrue group) (hsorted : SortedMap.Sorted (p.before ++ (es ++ p.behind))) :
    ∃ root', afterRemoveGroup root (slotFor root id) group = some root' ∧ RootOk root' ∧
      entriesOf root' = p.before ++ (es ++ p.behind) := by
  rcases eq_nil_or_concat' group with rfl | ⟨cs, ⟨max, chunk⟩, rfl⟩
  · refine ⟨p.put [], by rw [afterRemoveGroup, getLast?_nil, p.erase_root],
      p.put_ok h hflat ?_ ?_ hsorted⟩
    · exact fun s hs => absurd hs not_mem_nil
    · exact fun s hs => absurd hs not_mem_nil
  have hgroup : SortedMap.Sorted (flat (cs ++ [(max, chunk)])) := by
    rw [hflat]
    rw [Place.before, Place.behind] at hsorted
    have hassoc : entriesOf p.gs ++ flat p.cs ++ (es ++ (flat p.cs' ++ entriesOf p.gs')) =
        entriesOf p.gs ++ ((flat p.cs ++ (es ++ flat p.cs')) ++ entriesOf p.gs') := by
      simp only [append_assoc]
    rw [hassoc] at hsorted
    exact (pairwise_append.mp (pairwise_append.mp hsorted).2.1).1
  have hlargest : Largest fst max (flat (cs ++ [(max, chunk)])) :=
    largest_concat hgroup (hchunks (max, chunk) (by simp))
  obtain ⟨hok, hentries⟩ := @Place.put_ok _ _ _ p h [(max, cs ++ [(max, chunk)])] _
    (by rw [entriesOf_cons, entriesOf_nil, append_nil, hflat])
    (fun s hs => by rwa [mem_singleton.mp hs]) (fun s hs => by rwa [mem_singleton.mp hs]) hsorted
  rw [afterRemoveGroup, getLast?_concat]
  simp only [p.set_root]
  split_ifs
  · have hmerge : ∀ as a b bs, p.put [(max, cs ++ [(max, chunk)])] = as ++ a :: b :: bs →
        ∃ m, groupMax (a.2 ++ b.2) = some m ∧ Largest fst m (flat (a.2 ++ b.2)) := by
      intro as a b bs hl
      have ha : a ∈ p.put [(max, cs ++ [(max, chunk)])] := by simp [hl]
      have hb : b ∈ p.put [(max, cs ++ [(max, chunk)])] := by simp [hl]
      refine groupMax_largest ?_ ((hok.chunks a ha).append (hok.chunks b hb)) fun hnil => ?_
      · have hall := hok.sorted
        rw [hl] at hall
        simp only [entriesOf_append, entriesOf_cons, ← append_assoc (flat a.2),
          ← flat_append] at hall
        exact (pairwise_append.mp (pairwise_append.mp hall).2.1).1
      · refine (hok.groups a ha).ne_nil ?_
        rw [(append_eq_nil_iff.mp hnil).1]
        rfl
    have hpos : slotFor root id < (p.put [(max, cs ++ [(max, chunk)])]).length := by
      rw [p.slot_root, Place.put]
      simp
    obtain ⟨root', hroot', hsame, hall⟩ := mergeSmall_ok GROUP hpos hok.groups hmerge
    have hsame' : entriesOf root' = entriesOf (p.put [(max, cs ++ [(max, chunk)])]) := by
      rw [flat_eq, flat_eq, hsame]
    refine ⟨root', hroot', ⟨hall, fun s hs c hc => ?_, hsame' ▸ hok.sorted⟩, hsame'.trans hentries⟩
    have hmem : c ∈ root'.flatMap snd := mem_flatMap.mpr ⟨s, hs, hc⟩
    rw [hsame] at hmem
    obtain ⟨s', hs', hc⟩ := mem_flatMap.mp hmem
    exact hok.chunks s' hs' c hc
  · exact ⟨_, rfl, hok, hentries⟩

/-- A removal from the groups. -/
theorem removeLarge_ok (h : RootOk root) (hne : root ≠ []) (id cap : ℕ) :
    ∃ out, removeLarge root id cap = some out ∧
      (out = none → SortedMap.get? id (entriesOf root) = none) ∧
      ∀ root' v, out = some (root', v) → SortedMap.get? id (entriesOf root) = some v ∧
        RootOk root' ∧ entriesOf root' = SortedMap.erase id (entriesOf root) := by
  obtain ⟨p⟩ := h.place hne id
  have hfinds := search_finds id (p.chunk_sorted h)
  rw [removeLarge]
  simp only [bind_eq_bind, p.get_root, bind_some, p.get_group, binarySearch]
  generalize hout : search fst id p.chunk = out at hfinds ⊢
  cases hfinds with
  | @absent as bs hchunk has hbs =>
    exact ⟨none, rfl, fun _ => (p.absent hchunk has hbs).1, fun _ _ heq => (by cases heq)⟩
  | @here as bs a hchunk ha has hbs =>
    obtain ⟨k, old⟩ := a
    obtain rfl : k = id := ha
    obtain ⟨hget, -, herase⟩ := p.found hchunk has
    obtain ⟨hcs, -, hcs'⟩ := p.chunks_true h
    have hsorted : SortedMap.Sorted (p.before ++ ((as ++ bs) ++ p.behind)) :=
      herase ▸ h.sorted.erase k
    have hgroup : SortedMap.Sorted (flat p.cs ++ ((as ++ bs) ++ flat p.cs')) := by
      have hsub : flat p.cs ++ ((as ++ bs) ++ flat p.cs') <+
          flat p.cs ++ (p.chunk ++ flat p.cs') := by
        rw [hchunk]
        refine ((Sublist.refl as).append (sublist_cons_self _ bs)).append_right _ |>.append_left _
      have hall := h.group_sorted p.mem_root
      rw [flat_append, flat_cons] at hall
      exact Pairwise.sublist hsub hall
    obtain ⟨group, hafter, hflat, hchunks⟩ :=
      afterRemove_ok (p.groupMax, p.chunk) cap hcs hcs' hgroup
    obtain ⟨root', hafter', hok, hentries⟩ := afterRemoveGroup_ok h p hflat hchunks hsorted
    refine ⟨some (root', old), ?_, fun heq => (by cases heq), fun root'' v heq => ?_⟩
    · rw [p.slot_group]
      conv_lhs => simp only [hchunk, getElem?_mid, eraseIdx_mid, bind_some]
      rw [← hchunk, hafter, bind_some, hafter', bind_some]
    · obtain ⟨rfl, rfl⟩ := Prod.mk.inj (Option.some.inj heq)
      exact ⟨hget, hok, herase ▸ hentries⟩

end IdMap

end LoraDb
