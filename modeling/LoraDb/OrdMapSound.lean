import LoraDb.OrdMap

/-!
# The Ordered Map's Tables

Every recorded smallest key stays the true one, whatever is inserted or removed.

## Main results

* `RootOk.place`: a search in the tables ends at a place, with smaller keys before it and
  larger ones behind.
* `CowOrdMap.insertNew_ok`: a new entry, with the splits it may cause.
* `afterRemove_ok`: slots after a removal.
-/

open Prod (fst snd)
open List SortedRuns

namespace LoraDb

open Option

namespace OrdMap

variable {K V X : Type}

/-! ### Tables -/

def flat (group : Group K V) : List (K × V) := group.flatMap snd

def entriesOf (root : Root K V) : List (K × V) := root.flatMap fun slot => flat slot.2

@[simp] theorem flat_nil : flat ([] : Group K V) = [] := rfl

@[simp] theorem flat_cons (slot : K × SortedPart K V) (group : Group K V) :
    flat (slot :: group) = slot.2 ++ flat group := rfl

@[simp] theorem flat_append (group group' : Group K V) :
    flat (group ++ group') = flat group ++ flat group' := flatMap_append

@[simp] theorem entriesOf_nil : entriesOf ([] : Root K V) = [] := rfl

@[simp] theorem entriesOf_cons (slot : K × Group K V) (root : Root K V) :
    entriesOf (slot :: root) = flat slot.2 ++ entriesOf root := rfl

@[simp] theorem entriesOf_append (root root' : Root K V) :
    entriesOf (root ++ root') = entriesOf root ++ entriesOf root' := flatMap_append

theorem flat_flatMap (root : Root K V) : flat (root.flatMap snd) = entriesOf root := by
  induction root with
  | nil => rfl
  | cons slot root ih => rw [flatMap_cons, flat_append, ih, entriesOf_cons]

variable [LinearOrder K] {key : K}

/-! ### Smallest keys -/

section Smallest

variable {α : Type} {κ : α → K} {m : K} {as bs : List α} {a : α}

theorem Smallest.ne_nil {l : List α} (h : Smallest κ m l) : l ≠ [] := by
  obtain ⟨⟨x, hx, -⟩, -⟩ := h
  exact ne_nil_of_mem hx

/-- The head of ascending elements has the smallest key. -/
theorem smallest_head (h : Ascends κ (a :: as)) : Smallest κ (κ a) (a :: as) := by
  refine ⟨⟨a, mem_cons_self, rfl⟩, fun x hx => ?_⟩
  rcases mem_cons.mp hx with rfl | hx
  · exact le_rfl
  · exact ((pairwise_cons.mp h).1 x hx).le

theorem Smallest.insert (h : Smallest κ m (as ++ bs)) (ha : m ≤ κ a) :
    Smallest κ m (as ++ a :: bs) := by
  obtain ⟨⟨x, hx, hkey⟩, hle⟩ := h
  refine ⟨⟨x, ?_, hkey⟩, fun y hy => ?_⟩
  · rw [mem_append, mem_cons]
    exact (mem_append.mp hx).imp_right .inr
  · rw [mem_append, mem_cons] at hy
    rcases hy with hy | rfl | hy
    · exact hle y (mem_append_left _ hy)
    · exact ha
    · exact hle y (mem_append_right _ hy)

/-- Another element with the same key. -/
theorem Smallest.replace {a' : α} (h : Smallest κ m (as ++ a :: bs)) (ha : κ a' = κ a) :
    Smallest κ m (as ++ a' :: bs) := by
  obtain ⟨⟨x, hx, hkey⟩, hle⟩ := h
  refine ⟨?_, fun y hy => ?_⟩
  · rw [mem_append, mem_cons] at hx
    rcases hx with hx | rfl | hx
    · exact ⟨x, mem_append_left _ hx, hkey⟩
    · exact ⟨a', by simp, ha.trans hkey⟩
    · exact ⟨x, mem_append_right _ (mem_cons_of_mem _ hx), hkey⟩
  · rw [mem_append, mem_cons] at hy
    rcases hy with hy | rfl | hy
    · exact hle y (mem_append_left _ hy)
    · exact (hle a (by simp)).trans_eq ha.symm
    · exact hle y (mem_append_right _ (mem_cons_of_mem _ hy))

/-- A key below the smallest is the smallest. -/
theorem Smallest.lower (h : Smallest κ m (as ++ bs)) (ha : κ a < m) :
    Smallest κ (κ a) (as ++ a :: bs) := by
  refine ⟨⟨a, by simp, rfl⟩, fun y hy => ?_⟩
  rw [mem_append, mem_cons] at hy
  rcases hy with hy | rfl | hy
  · exact (ha.trans_le (h.2 y (mem_append_left _ hy))).le
  · exact le_rfl
  · exact (ha.trans_le (h.2 y (mem_append_right _ hy))).le

/-- The smallest key is in the earlier part. -/
theorem Smallest.left (h : Smallest κ m (as ++ bs)) (hasc : Ascends κ (as ++ bs)) (hne : as ≠ []) :
    Smallest κ m as := by
  obtain ⟨a, ha⟩ := exists_mem_of_ne_nil _ hne
  obtain ⟨⟨x, hx, hkey⟩, hle⟩ := h
  refine ⟨?_, fun y hy => hle y (mem_append_left _ hy)⟩
  rcases mem_append.mp hx with hx | hx
  · exact ⟨x, hx, hkey⟩
  · have hlt := (pairwise_append.mp hasc).2.2 a ha x hx
    exact absurd (hle a (mem_append_left _ ha)) (not_le.mpr (hkey ▸ hlt))

end Smallest

/-- Every partition is filed under its smallest key. -/
def PartsTrue (group : Group K V) : Prop := ∀ slot ∈ group, Smallest fst slot.1 slot.2

/-- Every recorded smallest key is the true one, and the entries are in order. -/
structure RootOk (root : Root K V) : Prop where
  groups : ∀ slot ∈ root, Smallest fst slot.1 (flat slot.2)
  parts : ∀ slot ∈ root, PartsTrue slot.2
  sorted : SortedMap.Sorted (entriesOf root)

/-- Where a key is, or would go. -/
structure Place (root : Root K V) (key : K) where
  gs : Root K V
  groupMin : K
  ps : Group K V
  partMin : K
  part : SortedPart K V
  ps' : Group K V
  gs' : Root K V
  root_eq : root = gs ++ (groupMin, ps ++ (partMin, part) :: ps') :: gs'
  group_slot : slotFor root key = gs.length
  part_slot : slotFor (ps ++ (partMin, part) :: ps') key = ps.length
  below : ∀ e ∈ entriesOf gs ++ flat ps, e.1 < key
  above : ∀ e ∈ flat ps' ++ entriesOf gs', key < e.1
  group_least : groupMin ≤ key ∨ gs = []
  part_least : groupMin ≤ key → partMin ≤ key

theorem RootOk.group_sorted {root : Root K V} (h : RootOk root) {slot : K × Group K V}
    (hslot : slot ∈ root) : SortedMap.Sorted (flat slot.2) := by
  have hmem : flat slot.2 ∈ root.map fun slot => flat slot.2 := mem_map.mpr ⟨slot, hslot, rfl⟩
  exact Pairwise.sublist (sublist_flatten_of_mem hmem) h.sorted

/-- A search in the tables ends at a place. -/
theorem RootOk.place {root : Root K V} (h : RootOk root) (hne : root ≠ []) (key : K) :
    Nonempty (Place root key) := by
  obtain ⟨gs, ⟨groupMin, group⟩, gs', hroot, hslot, hbelow, habove, hleast⟩ :=
    slotFirst_split hne h.groups h.sorted key
  have hmem : (groupMin, group) ∈ root := by simp [hroot]
  have hgroup := h.groups _ hmem
  have hne' : group ≠ [] := by
    rintro rfl
    exact Smallest.ne_nil hgroup rfl
  obtain ⟨ps, ⟨partMin, part⟩, ps', hgroup', hslot', hbelow', habove', hleast'⟩ :=
    slotFirst_split hne' (h.parts _ hmem) (h.group_sorted hmem) key
  have hsorted := h.group_sorted hmem
  have hparts := h.parts _ hmem
  subst hgroup'
  refine ⟨gs, groupMin, ps, partMin, part, ps', gs', hroot, hslot, hslot', ?_, ?_, hleast,
    fun hle => ?_⟩
  · intro e he
    exact (mem_append.mp he).elim (hbelow e) (hbelow' e)
  · intro e he
    exact (mem_append.mp he).elim (habove' e) (habove e)
  · rcases hleast' with hleast' | rfl
    · exact hleast'
    · -- The smallest key of a group is that of its first partition.
      have hpart : Smallest fst partMin part := hparts _ mem_cons_self
      have hfirst : Smallest fst partMin (flat ((partMin, part) :: ps')) :=
        @smallest_cons _ _ _ _ _ fst snd _ (partMin, part) hsorted hpart
      obtain ⟨⟨e, he, hkey⟩, -⟩ := hgroup
      exact (hfirst.2 e he).trans (hkey.trans_le hle)

namespace Place

variable {root : Root K V} (p : Place root key)

/-- The entries before the partition of the place. -/
def before : List (K × V) := entriesOf p.gs ++ flat p.ps

/-- The entries behind the partition of the place. -/
def behind : List (K × V) := flat p.ps' ++ entriesOf p.gs'

/-- The root with other groups at the place. -/
def put (news : Root K V) : Root K V := p.gs ++ (news ++ p.gs')

theorem entries : entriesOf root = p.before ++ (p.part ++ p.behind) := by
  refine (congrArg entriesOf p.root_eq).trans ?_
  simp [before, behind]

theorem get_root : root[slotFor root key]? =
    some (p.groupMin, p.ps ++ (p.partMin, p.part) :: p.ps') := by
  rw [p.group_slot]
  exact (congrArg (fun l : Root K V => l[p.gs.length]?) p.root_eq).trans getElem?_mid

theorem get_group : (p.ps ++ (p.partMin, p.part) :: p.ps')[slotFor
    (p.ps ++ (p.partMin, p.part) :: p.ps') key]? = some (p.partMin, p.part) := by
  rw [p.part_slot]
  exact getElem?_mid

theorem set_root (slot : K × Group K V) : root.set (slotFor root key) slot = p.put [slot] := by
  rw [p.group_slot]
  exact (congrArg (fun l : Root K V => l.set p.gs.length slot) p.root_eq).trans (set_mid slot)

theorem insert_root (slot slot' : K × Group K V) :
    (p.put [slot]).insertIdx (slotFor root key + 1) slot' = p.put [slot, slot'] := by
  rw [p.group_slot]
  exact insertIdx_mid_succ

theorem mem_root : (p.groupMin, p.ps ++ (p.partMin, p.part) :: p.ps') ∈ root := by
  have hmem : (p.groupMin, p.ps ++ (p.partMin, p.part) :: p.ps') ∈
      p.gs ++ (p.groupMin, p.ps ++ (p.partMin, p.part) :: p.ps') :: p.gs' :=
    mem_append_right _ mem_cons_self
  rwa [← p.root_eq] at hmem

theorem part_sorted (h : RootOk root) : SortedMap.Sorted p.part := by
  have hall := h.sorted
  rw [p.entries] at hall
  exact (pairwise_append.mp (pairwise_append.mp hall).2.1).1

theorem group_smallest (h : RootOk root) :
    Smallest fst p.groupMin (flat p.ps ++ (p.part ++ flat p.ps')) := by
  have hgroup := h.groups _ p.mem_root
  rwa [flat_append, flat_cons] at hgroup

theorem parts_true (h : RootOk root) : PartsTrue p.ps ∧ Smallest fst p.partMin p.part ∧
    PartsTrue p.ps' := by
  have hparts := h.parts _ p.mem_root
  exact ⟨fun s hs => hparts s (mem_append_left _ hs),
    hparts (p.partMin, p.part) (mem_append_right _ mem_cons_self),
    fun s hs => hparts s (mem_append_right _ (mem_cons_of_mem _ hs))⟩

theorem groups_true (h : RootOk root) : ∀ slot ∈ p.gs ++ p.gs',
    Smallest fst slot.1 (flat slot.2) ∧ PartsTrue slot.2 := by
  intro slot hslot
  have hmem : slot ∈ p.gs ++ (p.groupMin, p.ps ++ (p.partMin, p.part) :: p.ps') :: p.gs' :=
    mem_append.mpr ((mem_append.mp hslot).imp_right (mem_cons_of_mem _))
  rw [← p.root_eq] at hmem
  exact ⟨h.groups slot hmem, h.parts slot hmem⟩

/-- Groups put at a place keep the root as it should be when they are. -/
theorem put_ok (h : RootOk root) {news : Root K V} {es : List (K × V)}
    (hentries : entriesOf news = flat p.ps ++ (es ++ flat p.ps'))
    (hnews : ∀ slot ∈ news, Smallest fst slot.1 (flat slot.2) ∧ PartsTrue slot.2)
    (hsorted : SortedMap.Sorted (p.before ++ (es ++ p.behind))) :
    RootOk (p.put news) ∧ entriesOf (p.put news) = p.before ++ (es ++ p.behind) := by
  have hall : entriesOf (p.put news) = p.before ++ (es ++ p.behind) := by
    simp only [put, entriesOf_append, hentries, before, behind, append_assoc]
  have htrue : ∀ slot ∈ p.put news, Smallest fst slot.1 (flat slot.2) ∧ PartsTrue slot.2 := by
    intro slot hslot
    simp only [put, mem_append] at hslot
    rcases hslot with hslot | hslot | hslot
    · exact p.groups_true h slot (mem_append_left _ hslot)
    · exact hnews slot hslot
    · exact p.groups_true h slot (mem_append_right _ hslot)
  exact ⟨⟨fun slot hslot => (htrue slot hslot).1, fun slot hslot => (htrue slot hslot).2,
    hall ▸ hsorted⟩, hall⟩

end Place

/-! ### Insertion -/

theorem PartsTrue.append {ps ps' : Group K V} (h : PartsTrue ps) (h' : PartsTrue ps') :
    PartsTrue (ps ++ ps') := fun s hs => (mem_append.mp hs).elim (h s) (h' s)

theorem PartsTrue.cons {s : K × SortedPart K V} {ps : Group K V} (hs : Smallest fst s.1 s.2)
    (h : PartsTrue ps) : PartsTrue (s :: ps) := fun s' hs' => by
  rcases mem_cons.mp hs' with rfl | hs'
  · exact hs
  · exact h s' hs'

theorem PartsTrue.sublist {ps ps' : Group K V} (h : PartsTrue ps') (hsub : ps <+ ps') :
    PartsTrue ps := fun s hs => h s (hsub.subset hs)

theorem PartsTrue.flat_ne_nil {ps : Group K V} (h : PartsTrue ps) (hne : ps ≠ []) :
    flat ps ≠ [] := by
  obtain ⟨s, ps, rfl⟩ := exists_cons_of_ne_nil hne
  rw [flat_cons]
  exact append_ne_nil_of_left_ne_nil (Smallest.ne_nil (h s mem_cons_self)) _

/-- A partition splits at the key of one of its entries. -/
theorem split_part {as bs : SortedPart K V} {m : K} {e : K × V}
    (hsorted : SortedMap.Sorted (as ++ e :: bs)) (hpart : Smallest fst m (as ++ e :: bs))
    (hne : as ≠ []) : SortedPart.splitOff (as ++ e :: bs) e.1 = (as, e :: bs) ∧
      Smallest fst m as ∧ Smallest fst e.1 (e :: bs) := by
  obtain ⟨-, hright, hcross⟩ := pairwise_append.mp hsorted
  have hpos : partitionPoint (fun entry => decide (entry.1 < e.1)) (as ++ e :: bs) = as.length := by
    refine partitionPoint_eq (fun a ha => decide_eq_true (hcross a ha e mem_cons_self)) fun b hb =>
      ?_
    rw [← Option.mem_some.mp hb]
    exact decide_eq_false (lt_irrefl _)
  refine ⟨?_, Smallest.left hpart hsorted hne, smallest_head hright⟩
  rw [SortedPart.splitOff, hpos, take_left, drop_left]

namespace Place

variable {root : Root K V} (p : Place root key) {part : SortedPart K V} {m : K} {group : Group K V}

/-- One group at a place. -/
theorem put_group (h : RootOk root) (hgroup : PartsTrue group)
    (hflat : flat group = flat p.ps ++ (part ++ flat p.ps'))
    (hleast : Smallest fst m (flat p.ps ++ (part ++ flat p.ps')))
    (hsorted : SortedMap.Sorted (p.before ++ (part ++ p.behind))) :
    RootOk (p.put [(m, group)]) ∧ entriesOf (p.put [(m, group)]) = p.before ++
      (part ++ p.behind) := by
  refine p.put_ok h (by rw [entriesOf_cons, entriesOf_nil, append_nil, hflat]) (fun s hs => ?_)
    hsorted
  rw [mem_singleton.mp hs]
  exact ⟨hflat.symm ▸ hleast, hgroup⟩

/-- Two groups at a place, where one splits. -/
theorem put_groups (h : RootOk root) (hgroup : PartsTrue group)
    (hflat : flat group = flat p.ps ++ (part ++ flat p.ps'))
    (hleast : Smallest fst m (flat p.ps ++ (part ++ flat p.ps')))
    (hsorted : SortedMap.Sorted (p.before ++ (part ++ p.behind))) {n : ℕ} (hn : 0 < n)
    (hlt : n < group.length) : ∃ first, (group.drop n).head? = some first ∧
      RootOk (p.put [(m, group.take n), (first.1, group.drop n)]) ∧
      entriesOf (p.put [(m, group.take n), (first.1, group.drop n)]) =
        p.before ++ (part ++ p.behind) := by
  have hdrop : group.drop n = group[n] :: group.drop (n + 1) := (getElem_cons_drop ..).symm
  have hne : group.take n ≠ [] := ne_nil_of_length_pos (by rw [length_take]; omega)
  have hhalves : flat (group.take n) ++ flat (group.drop n) = flat p.ps ++
    (part ++ flat p.ps') := by
    rw [← flat_append, take_append_drop, hflat]
  have hleft : PartsTrue (group.take n) := hgroup.sublist (take_sublist n group)
  have hright : PartsTrue (group.drop n) := hgroup.sublist (drop_sublist n group)
  have hgroupSorted : SortedMap.Sorted (flat (group.take n) ++ flat (group.drop n)) := by
    rw [hhalves]
    have hassoc : p.before ++ (part ++ p.behind) =
        entriesOf p.gs ++ ((flat p.ps ++ (part ++ flat p.ps')) ++ entriesOf p.gs') := by
      simp only [before, behind, append_assoc]
    rw [hassoc] at hsorted
    exact (pairwise_append.mp (pairwise_append.mp hsorted).2.1).1
  refine ⟨group[n], by rw [hdrop, head?_cons], p.put_ok h ?_ (fun s hs => ?_) hsorted⟩
  · rw [entriesOf_cons, entriesOf_cons, entriesOf_nil, append_nil, hhalves]
  · rcases mem_cons.mp hs with rfl | hs
    · rw [← hhalves] at hleast
      exact ⟨Smallest.left hleast hgroupSorted (hleft.flat_ne_nil hne), hleft⟩
    · rw [mem_singleton.mp hs]
      refine ⟨?_, hright⟩
      have hrest := (pairwise_append.mp hgroupSorted).2.1
      rw [hdrop] at hrest hright ⊢
      exact @smallest_cons _ _ _ _ _ fst snd _ group[n] hrest (hright _ mem_cons_self)

end Place

/-- Inserting a new key into a partition. -/
theorem SortedPart.insert_new {part as bs : SortedPart K V} (hsorted : SortedMap.Sorted part)
    (hpart : part = as ++ bs) (has : ∀ e ∈ as, e.1 < key) (hbs : ∀ e ∈ bs, key < e.1) (v : V) :
    SortedPart.insert part key v = some (as ++ (key, v) :: bs) := by
  rw [SortedPart.insert]
  split_ifs with hlast
  · rcases eq_nil_or_concat' bs with rfl | ⟨bs, e, rfl⟩
    · rw [hpart, append_nil]
    · rw [hpart, ← append_assoc, getLast?_concat, all_some] at hlast
      exact absurd (of_decide_eq_true hlast) (lt_asymm (hbs e (by simp)))
  · have hfinds := search_finds key (show Ascends fst part from hsorted)
    rw [SortedPart.position]
    generalize search fst key part = out at hfinds ⊢
    cases hfinds with
    | @here as' bs' e hl he has' hbs' =>
      have hmem : e ∈ as ++ bs := by rw [← hpart, hl]; simp
      rcases mem_append.mp hmem with hmem | hmem
      · exact absurd he (ne_of_lt (has e hmem))
      · exact absurd he (ne_of_gt (hbs e hmem))
    | @absent as' bs' hl has' hbs' =>
      have hput := (SortedMap.absent has hbs).2.1 v
      have hput' := (SortedMap.absent has' hbs').2.1 v
      rw [← hpart] at hput
      rw [← hl, hput] at hput'
      simp only [hl, insertIdx_mid, hput']

/-- The smallest keys above a new entry. -/
theorem Place.least_ok {root : Root K V} (p : Place root key) (h : RootOk root)
    {as bs : SortedPart K V} (hpart : p.part = as ++ bs) (v : V) :
    Smallest fst (if key < p.groupMin then key else p.groupMin)
        (flat p.ps ++ ((as ++ (key, v) :: bs) ++ flat p.ps')) ∧
      Smallest fst (if key < p.groupMin then key else p.partMin) (as ++ (key, v) :: bs) := by
  have hgroup := p.group_smallest h
  obtain ⟨-, hleast, -⟩ := p.parts_true h
  have hpartMin : p.groupMin ≤ p.partMin := by
    obtain ⟨⟨e, he, hkey⟩, -⟩ := hleast
    exact (hgroup.2 e (mem_append_right _ (mem_append_left _ he))).trans_eq hkey
  rw [hpart] at hgroup hleast
  rw [append_assoc, ← append_assoc] at hgroup
  rw [append_assoc, cons_append, ← append_assoc]
  split_ifs with hlowest
  · exact ⟨Smallest.lower (a := (key, v)) hgroup hlowest,
      Smallest.lower (a := (key, v)) hleast (hlowest.trans_le hpartMin)⟩
  · have hle := not_lt.mp hlowest
    exact ⟨Smallest.insert (a := (key, v)) hgroup hle,
      Smallest.insert (a := (key, v)) hleast (p.part_least hle)⟩

section Split

variable {root : Root K V} (p : Place root key) {as bs : SortedPart K V} {v : V}
    {partMin groupMin : K}
  {append : Bool}

open CowOrdMap.insertNew

/-- The partition splits, at the new entry or in the middle. -/
theorem Place.splitPart_ok (hps : PartsTrue p.ps) (hps' : PartsTrue p.ps')
    (hsorted : SortedMap.Sorted (as ++ (key, v) :: bs))
    (hleast : Smallest fst partMin (as ++ (key, v) :: bs)) (happend : append = true → bs = [])
    (hlen : 2 < (as ++ (key, v) :: bs).length) :
    ∃ group, splitPart key (p.ps ++ (p.partMin, p.part) :: p.ps')
        (slotFor (p.ps ++ (p.partMin, p.part) :: p.ps') key) partMin (as ++ (key, v) :: bs) append =
          some group ∧ 2 ≤ group.length ∧ PartsTrue group ∧
      flat group = flat p.ps ++ ((as ++ (key, v) :: bs) ++ flat p.ps') := by
  -- The entry that the upper half starts with.
  obtain ⟨ls, e, us, hl, hne, he⟩ : ∃ ls e us, as ++ (key, v) :: bs = ls ++ e :: us ∧ ls ≠ [] ∧
      splitKey key (as ++ (key, v) :: bs) append = some e.1 := by
    rw [splitKey]
    cases append with
    | true =>
      obtain rfl := happend rfl
      refine ⟨as, (key, v), [], rfl, ?_, rfl⟩
      rintro rfl
      simp at hlen
    | false =>
      generalize as ++ (key, v) :: bs = part at hlen ⊢
      obtain ⟨ls, e, us, rfl, hls⟩ := exists_mid (show part.length / 2 < part.length by omega)
      refine ⟨ls, e, us, rfl, ne_nil_of_length_pos (by omega), ?_⟩
      rw [← hls, getElem?_mid]
      rfl
  rw [hl] at hsorted hleast
  obtain ⟨hsplit, hlower, hupper⟩ := split_part hsorted hleast hne
  refine ⟨p.ps ++ (partMin, ls) :: (e.1, e :: us) :: p.ps', ?_, by simp; omega, hps.append
    (.cons hlower (.cons hupper hps')), by rw [hl]; simp⟩
  rw [splitPart, he]
  simp only [bind_eq_bind, bind_some, hl, hsplit, p.part_slot, set_mid, insertIdx_mid_succ]

/-- The group splits too where it is too long. -/
theorem Place.splitGroup_ok (h : RootOk root) {group : Group K V} (hlen : 2 ≤ group.length)
    (hgroup : PartsTrue group) {part : SortedPart K V}
    (hflat : flat group = flat p.ps ++ (part ++ flat p.ps'))
    (hleast : Smallest fst groupMin (flat p.ps ++ (part ++ flat p.ps')))
    (hsorted : SortedMap.Sorted (p.before ++ (part ++ p.behind))) (append : Bool) :
    ∃ root', splitGroup root (slotFor root key) groupMin group append = some root' ∧
      RootOk root' ∧ entriesOf root' = p.before ++ (part ++ p.behind) := by
  rw [splitGroup]
  by_cases hlong : GROUP_MAX < group.length
  · obtain ⟨n, hn, hpos, hlt⟩ : ∃ n, (if append then group.length - 1 else group.length / 2) = n ∧
        0 < n ∧ n < group.length := by
      refine ⟨_, rfl, ?_, ?_⟩ <;> split_ifs <;> omega
    obtain ⟨first, hfirst, hok⟩ := p.put_groups h hgroup hflat hleast hsorted hpos hlt
    simp only [if_pos hlong, hn, hfirst, bind_eq_bind, bind_some, p.set_root, p.insert_root]
    exact ⟨_, rfl, hok⟩
  · rw [if_neg hlong, p.set_root]
    exact ⟨_, rfl, p.put_group h hgroup hflat hleast hsorted⟩

end Split

/-- Insertion of a new key, with the splits it causes. -/
theorem CowOrdMap.insertNew_ok {m : CowOrdMap K V} {PART : ℕ} (hPART : 2 ≤ PART)
    (h : RootOk m.groups) (hnew : SortedMap.get? key (entriesOf m.groups) = none) (v : V) :
    ∃ root, m.insertNew PART key v = some ⟨root, m.len + 1⟩ ∧ RootOk root ∧
      entriesOf root = SortedMap.put key v (entriesOf m.groups) := by
  obtain ⟨groups, len⟩ := m
  simp only at h hnew ⊢
  rw [insertNew]
  rcases eq_or_ne groups [] with rfl | hne
  · have hone : Smallest fst key [(key, v)] := smallest_head (pairwise_singleton _ _)
    have hgroup : Smallest fst key (flat [(key, [(key, v)])]) := hone
    refine ⟨_, rfl, ⟨fun s hs => ?_, fun s hs => ?_, pairwise_singleton _ _⟩, rfl⟩
    · rwa [mem_singleton.mp hs]
    · rw [mem_singleton.mp hs]
      exact .cons hone fun s hs => absurd hs not_mem_nil
  obtain ⟨p⟩ := h.place hne key
  have hpartSorted := p.part_sorted h
  -- The key is absent from its partition.
  obtain ⟨as, bs, hpart, has, hbs⟩ : ∃ as bs, p.part = as ++ bs ∧ (∀ e ∈ as, e.1 < key) ∧
      ∀ e ∈ bs, key < e.1 := by
    have hfinds := search_finds key (show Ascends fst p.part from hpartSorted)
    generalize search fst key p.part = out at hfinds
    cases hfinds with
    | @here as bs e hl he has hbs =>
      refine absurd he (SortedMap.get?_eq_none.mp hnew e ?_)
      rw [p.entries, hl]
      simp
    | @absent as bs hl has hbs => exact ⟨as, bs, hl, has, hbs⟩
  have hput : SortedMap.put key v (entriesOf groups) =
      p.before ++ ((as ++ (key, v) :: bs) ++ p.behind) := by
    have hbelow : ∀ e ∈ p.before ++ as, e.1 < key := fun e he =>
      (mem_append.mp he).elim (p.below e) (has e)
    have habove : ∀ e ∈ bs ++ p.behind, key < e.1 := fun e he =>
      (mem_append.mp he).elim (hbs e) (p.above e)
    have hentries : entriesOf groups = (p.before ++ as) ++ (bs ++ p.behind) := by
      rw [p.entries, hpart]
      simp only [append_assoc]
    rw [hentries, (SortedMap.absent hbelow habove).2.1 v]
    simp only [append_assoc, cons_append]
  have hsorted := hput ▸ h.sorted.put key v
  obtain ⟨hgroupLeast, hpartLeast⟩ := p.least_ok h hpart v
  obtain ⟨hps, -, hps'⟩ := p.parts_true h
  have hnonempty : groups.isEmpty = false := isEmpty_eq_false_iff.mpr hne
  have hinsert := SortedPart.insert_new hpartSorted hpart has hbs v
  simp only [hnonempty, Bool.false_eq_true, if_false, p.get_root, p.get_group, hinsert,
    bind_eq_bind, bind_some, decide_eq_true_eq]
  rw [hput]
  have hlast : (decide (slotFor groups key + 1 = groups.length ∧
      slotFor (p.ps ++ (p.partMin, p.part) :: p.ps') key + 1 =
        (p.ps ++ (p.partMin, p.part) :: p.ps').length) &&
      p.part.getLast?.any fun last => decide (last.1 < key)) = true → bs = [] := by
    intro happend
    rcases eq_nil_or_concat' bs with rfl | ⟨bs, e, rfl⟩
    · rfl
    · have hlt := (Bool.and_eq_true_iff.mp happend).2
      rw [hpart, ← append_assoc, getLast?_concat, any_some] at hlt
      exact absurd (of_decide_eq_true hlt) (lt_asymm (hbs e (by simp)))
  generalize (decide (slotFor groups key + 1 = groups.length ∧
      slotFor (p.ps ++ (p.partMin, p.part) :: p.ps') key + 1 =
        (p.ps ++ (p.partMin, p.part) :: p.ps').length) &&
      p.part.getLast?.any fun last => decide (last.1 < key)) = append at hlast ⊢
  generalize (if key < p.groupMin then key else p.groupMin) = groupMin at hgroupLeast ⊢
  generalize (if key < p.groupMin then key else p.partMin) = partMin at hpartLeast ⊢
  have hentries : SortedMap.Sorted (as ++ (key, v) :: bs) :=
    (pairwise_append.mp (pairwise_append.mp hsorted).2.1).1
  split_ifs with hroom
  · -- The partition has room.
    have hparts : PartsTrue (p.ps ++ (partMin, as ++ (key, v) :: bs) :: p.ps') :=
      hps.append (.cons hpartLeast hps')
    rw [p.part_slot, set_mid, p.set_root]
    exact ⟨_, rfl, p.put_group h hparts (by simp) hgroupLeast hsorted⟩
  · obtain ⟨group, hgroup, hlen, hparts, hflat⟩ := p.splitPart_ok hps hps' hentries hpartLeast hlast
      (by omega)
    obtain ⟨root, hroot, hok⟩ := p.splitGroup_ok h hlen hparts hflat hgroupLeast hsorted append
    rw [hgroup]
    simp only [bind_some, hroot]
    exact ⟨_, rfl, hok⟩

/-! ### Removal -/

section Removal

/-- The slots of a table around the one at a key: those before it are below the key, those
behind it above, and `f` is what they hold. -/
structure Around (f : List (K × X) → List (K × V)) (good : K × X → Prop) (key : K)
    (as : List (K × List (K × X))) (m : K) (rest : List (K × X)) (bs : List (K × List (K × X))) :
    Prop where
  true : ∀ s ∈ as ++ bs, Smallest fst s.1 (f s.2)
  good : ∀ x ∈ as.flatMap snd ++ (rest ++ bs.flatMap snd), good x
  least : m ≤ key
  below : ∀ s ∈ as, ∀ e ∈ f s.2, e.1 < key
  above : ∀ s ∈ bs, ∀ e ∈ f s.2, key < e.1
  sorted : SortedMap.Sorted (f (as.flatMap snd ++ (rest ++ bs.flatMap snd)))

variable {f : List (K × X) → List (K × V)} {good : K × X → Prop} {as bs : List (K × List (K × X))}
  {m : K} {rest : List (K × X)}

/-- An undersized slot stays, or goes into a neighbour. -/
theorem mergeSlot_ok (h : Around f good key as m rest bs) (hrest : rest ≠ []) (fit : ℕ) :
    ∃ as' m' rest' bs', mergeSlot (as ++ (m, rest) :: bs) as.length fit =
        some (as' ++ (m', rest') :: bs') ∧ rest' ≠ [] ∧ Around f good key as' m' rest' bs' ∧
      as'.flatMap snd ++ (rest' ++ bs'.flatMap snd) =
        as.flatMap snd ++ (rest ++ bs.flatMap snd) := by
  rw [mergeSlot]
  simp only [getElem?_mid, bind_eq_bind, bind_some]
  split_ifs with hnext hprev
  · -- The next goes into it.
    obtain ⟨b, bs', rfl⟩ : ∃ b bs', bs = b :: bs' := by
      cases bs with
      | nil => simp at hnext
      | cons b bs' => exact ⟨b, bs', rfl⟩
    have hsame : as.flatMap snd ++ (rest ++ b.2 ++ bs'.flatMap snd) =
        as.flatMap snd ++ (rest ++ (b :: bs').flatMap snd) := by simp
    simp only [getElem?_mid_succ, eraseIdx_mid_succ, getElem?_mid, set_mid, bind_some]
    refine ⟨as, m, rest ++ b.2, bs', rfl, by simp [hrest], ⟨fun s hs => h.true s ?_,
      hsame ▸ h.good, h.least, h.below, fun s hs => h.above s (mem_cons_of_mem _ hs),
      hsame ▸ h.sorted⟩, hsame⟩
    exact mem_append.mpr ((mem_append.mp hs).imp_right (mem_cons_of_mem _))
  · -- It goes into the previous.
    obtain ⟨as', a, rfl⟩ := (eq_nil_or_concat' as).resolve_left (by rintro rfl; simp at hprev)
    have hlen : (as' ++ [a]).length - 1 = as'.length := by simp
    have hsame : as'.flatMap snd ++ (a.2 ++ rest ++ bs.flatMap snd) =
        (as' ++ [a]).flatMap snd ++ (rest ++ bs.flatMap snd) := by simp
    simp only [hlen, append_assoc, singleton_append, getElem?_mid_succ, eraseIdx_mid_succ,
      getElem?_mid, set_mid, bind_some]
    refine ⟨as', a.1, a.2 ++ rest, bs, rfl, by simp [hrest], ⟨fun s hs => h.true s ?_,
      hsame ▸ h.good, ?_, fun s hs => h.below s (mem_append_left _ hs), h.above,
      hsame ▸ h.sorted⟩, hsame⟩
    · exact mem_append.mpr ((mem_append.mp hs).imp_left (mem_append_left _))
    · obtain ⟨⟨e, he, hkey⟩, -⟩ := h.true a (by simp)
      exact (hkey.symm.trans_lt (h.below a (by simp) e he)).le
  · exact ⟨as, m, rest, bs, rfl, hrest, h, rfl⟩

/-- Slots after a removal are under their true smallest keys again. -/
theorem afterRemove_ok (hf : ∀ xs ys, f (xs ++ ys) = f xs ++ f ys)
    (hhead : ∀ x xs, (∀ y ∈ x :: xs, good y) → SortedMap.Sorted (f (x :: xs)) →
      Smallest fst x.1 (f (x :: xs)))
    (h : Around f good key as m rest bs) (old : List (K × X)) (least fit : ℕ) :
    ∃ slots, afterRemove (as ++ (m, old) :: bs) as.length rest least fit key = some slots ∧
      slots.flatMap snd = as.flatMap snd ++ (rest ++ bs.flatMap snd) ∧
      ∀ s ∈ slots, Smallest fst s.1 (f s.2) := by
  rw [afterRemove, eraseIdx_mid]
  rcases eq_or_ne rest [] with rfl | hne
  · exact ⟨_, rfl, by simp, h.true⟩
  have hmerge : ∃ as' m' rest' bs', (if rest.length < least then
      mergeSlot (as ++ (m, rest) :: bs) as.length fit else some (as ++ (m, rest) :: bs)) =
        some (as' ++ (m', rest') :: bs') ∧ rest' ≠ [] ∧ Around f good key as' m' rest' bs' ∧
      as'.flatMap snd ++ (rest' ++ bs'.flatMap snd) =
        as.flatMap snd ++ (rest ++ bs.flatMap snd) := by
    split_ifs
    · exact mergeSlot_ok h hne fit
    · exact ⟨as, m, rest, bs, rfl, hne, h, rfl⟩
  obtain ⟨as', m', rest', bs', hmerge, hne', h', hsame⟩ := hmerge
  have hfalse : rest.isEmpty = false := isEmpty_eq_false_iff.mpr hne
  -- The key leads back to the slot.
  have hslot : slotFor (as' ++ (m', rest') :: bs') key = as'.length := by
    have hcons : as' ++ (m', rest') :: bs' = (as' ++ [(m', rest')]) ++ bs' := by
      rw [append_assoc, singleton_append]
    rw [slotFor, hcons, partitionPoint_eq (fun s hs => decide_eq_true ?_) (fun s hs => ?_),
      length_append, length_singleton, Nat.add_sub_cancel]
    · rcases mem_append.mp hs with hs | hs
      · obtain ⟨⟨e, he, hkey⟩, -⟩ := h'.true s (mem_append_left _ hs)
        exact (hkey.symm.trans_lt (h'.below s hs e he)).le
      · rw [mem_singleton.mp hs]
        exact h'.least
    · have hmem : s ∈ bs' := mem_of_mem_head? hs
      obtain ⟨⟨e, he, hkey⟩, -⟩ := h'.true s (mem_append_right _ hmem)
      exact decide_eq_false (not_le.mpr ((h'.above s hmem e he).trans_eq hkey))
  obtain ⟨x, xs, rfl⟩ := exists_cons_of_ne_nil hne'
  have hfirst : Smallest fst x.1 (f (x :: xs)) := by
    refine hhead x xs (fun y hy => h'.good y ?_) ?_
    · exact mem_append_right _ (mem_append_left _ hy)
    · have hsorted := h'.sorted
      rw [hf, hf] at hsorted
      exact (pairwise_append.mp (pairwise_append.mp hsorted).2.1).1
  refine ⟨as' ++ (x.1, x :: xs) :: bs', ?_, ?_, fun s hs => ?_⟩
  · simp only [hfalse, Bool.false_eq_true, if_false, getElem?_mid, bind_eq_bind,
      bind_some, set_mid, hmerge, hslot, head?_cons]
  · rw [← hsame]
    simp
  · simp only [mem_append, mem_cons] at hs
    rcases hs with hs | rfl | hs
    · exact h'.true s (mem_append_left _ hs)
    · exact hfirst
    · exact h'.true s (mem_append_right _ hs)

end Removal

end OrdMap

end LoraDb
