import LoraDb.IdSet

/-!
# The Posting Set Is an Ordered Set

A write to the chunks changes one place, with smaller ids before it and larger ones behind.

## Main results

* `GroupsOk.place`: a search in the groups ends at a place.
* `Large.insert_ok`, `Large.remove_ok`: what a write does to the ids.
-/

open Option (bind_eq_bind bind_some)
open List SortedRuns

namespace LoraDb

namespace Posting

open StrIndex (View locate lastId)

variable {id : ℕ} {groups : List (List (List ℕ))} {ids ids' : List ℕ}

/-! ### Writes to the ids -/

/-- An id more, between the smaller and the larger ones. -/
def Inserted (id : ℕ) (ids ids' : List ℕ) : Prop :=
  ∃ as bs, ids = as ++ bs ∧ ids' = as ++ id :: bs ∧ (∀ x ∈ as, x < id) ∧ ∀ x ∈ bs, id < x

/-- An id less. -/
def Erased (id : ℕ) (ids ids' : List ℕ) : Prop :=
  ∃ as bs, ids = as ++ id :: bs ∧ ids' = as ++ bs

namespace Inserted

variable (h : Inserted id ids ids')
include h

theorem ascending (hids : ids.Pairwise (· < ·)) : ids'.Pairwise (· < ·) := by
  obtain ⟨as, bs, rfl, rfl, has, hbs⟩ := h
  exact Ascends.insert (show Ascends (fun x => x) (as ++ bs) from hids) has hbs

theorem length : ids'.length = ids.length + 1 := by
  obtain ⟨as, bs, rfl, rfl, -, -⟩ := h
  rw [length_append, length_append, length_cons, Nat.add_assoc]

theorem toFinset : ids'.toFinset = insert id ids.toFinset := by
  obtain ⟨as, bs, rfl, rfl, -, -⟩ := h
  ext x
  simp only [mem_toFinset, Finset.mem_insert, mem_append, mem_cons]
  tauto

theorem new : id ∉ ids := by
  obtain ⟨as, bs, rfl, rfl, has, hbs⟩ := h
  intro hid
  rcases mem_append.mp hid with hid | hid
  · exact lt_irrefl _ (has id hid)
  · exact lt_irrefl _ (hbs id hid)

/-- Within a longer list. -/
theorem within {before behind : List ℕ} (hbefore : ∀ x ∈ before, x < id)
    (hbehind : ∀ x ∈ behind, id < x) :
    Inserted id (before ++ (ids ++ behind)) (before ++ (ids' ++ behind)) := by
  obtain ⟨as, bs, rfl, rfl, has, hbs⟩ := h
  refine ⟨before ++ as, bs ++ behind, by simp, by simp, fun x hx => ?_, fun x hx => ?_⟩
  · exact (mem_append.mp hx).elim (hbefore x) (has x)
  · exact (mem_append.mp hx).elim (hbs x) (hbehind x)

end Inserted

namespace Erased

variable (h : Erased id ids ids')
include h

theorem sublist : ids' <+ ids := by
  obtain ⟨as, bs, rfl, rfl⟩ := h
  exact (Sublist.refl as).append (sublist_cons_self id bs)

theorem length : ids.length = ids'.length + 1 := by
  obtain ⟨as, bs, rfl, rfl⟩ := h
  rw [length_append, length_append, length_cons, Nat.add_assoc]

theorem toFinset (hids : ids.Pairwise (· < ·)) : ids'.toFinset = ids.toFinset.erase id := by
  obtain ⟨as, bs, rfl, rfl⟩ := h
  obtain ⟨-, hbs, has⟩ := pairwise_append.mp hids
  have hleft : id ∉ as := fun hid => lt_irrefl _ (has id hid id mem_cons_self)
  have hright : id ∉ bs := fun hid => lt_irrefl _ ((pairwise_cons.mp hbs).1 id hid)
  ext x
  simp only [mem_toFinset, Finset.mem_erase, mem_append, mem_cons]
  constructor
  · rintro (hx | hx)
    · exact ⟨fun heq => hleft (heq ▸ hx), .inl hx⟩
    · exact ⟨fun heq => hright (heq ▸ hx), .inr (.inr hx)⟩
  · rintro ⟨hne, hx | rfl | hx⟩
    · exact .inl hx
    · exact absurd rfl hne
    · exact .inr hx

theorem old : id ∈ ids := by
  obtain ⟨as, bs, rfl, rfl⟩ := h
  exact mem_append_right _ mem_cons_self

theorem within (before behind : List ℕ) :
    Erased id (before ++ (ids ++ behind)) (before ++ (ids' ++ behind)) := by
  obtain ⟨as, bs, rfl, rfl⟩ := h
  exact ⟨before ++ as, bs ++ behind, by simp, by simp⟩

end Erased

/-! ### Places -/

/-- Ids in order in chunks of which none is empty, nor a group. -/
structure GroupsOk (groups : List (List (List ℕ))) : Prop where
  full : ∀ group ∈ groups, group ≠ [] ∧ ∀ chunk ∈ group, chunk ≠ []
  ascending : groups.flatten.flatten.Pairwise (· < ·)

/-- Where `id` is, or would go. -/
structure Place (groups : List (List (List ℕ))) (id : ℕ) where
  gs : List (List (List ℕ))
  cs : List (List ℕ)
  chunk : List ℕ
  cs' : List (List ℕ)
  gs' : List (List (List ℕ))
  groups_eq : groups = gs ++ (cs ++ chunk :: cs') :: gs'
  slot : locate groups id = (gs.length, cs.length)
  below : ∀ x ∈ (gs.flatten ++ cs).flatten, x < id
  above : ∀ x ∈ (cs' ++ gs'.flatten).flatten, id < x

namespace Place

variable (p : Place groups id)

/-- The ids before the chunk of the place. -/
def before : List ℕ := (p.gs.flatten ++ p.cs).flatten

/-- The ids behind the chunk of the place. -/
def behind : List ℕ := (p.cs' ++ p.gs'.flatten).flatten

/-- The groups with others at the place. -/
def put (news : List (List (List ℕ))) : List (List (List ℕ)) := p.gs ++ (news ++ p.gs')

theorem put_self : p.put [p.cs ++ p.chunk :: p.cs'] = groups := p.groups_eq.symm

theorem ids_put {news : List (List (List ℕ))} {es : List ℕ}
    (h : news.flatten.flatten = p.cs.flatten ++ (es ++ p.cs'.flatten)) :
    (p.put news).flatten.flatten = p.before ++ (es ++ p.behind) := by
  simp only [put, flatten_append, h, before, behind, append_assoc]

theorem ids_eq : groups.flatten.flatten = p.before ++ (p.chunk ++ p.behind) := by
  conv_lhs => rw [← p.put_self]
  exact p.ids_put (by simp)

theorem get_group : groups[(locate groups id).1]? = some (p.cs ++ p.chunk :: p.cs') := by
  rw [p.slot]
  exact (congrArg (fun l : List (List (List ℕ)) => l[p.gs.length]?) p.groups_eq).trans getElem?_mid

theorem get_chunk : (p.cs ++ p.chunk :: p.cs')[(locate groups id).2]? = some p.chunk := by
  rw [p.slot]
  exact getElem?_mid

theorem set_chunk (chunk : List ℕ) : (p.cs ++ p.chunk :: p.cs').set (locate groups id).2 chunk =
    p.cs ++ chunk :: p.cs' := by
  rw [p.slot]
  exact set_mid chunk

theorem insert_chunk (chunk chunk' : List ℕ) : (p.cs ++ chunk :: p.cs').insertIdx
    ((locate groups id).2 + 1) chunk' = p.cs ++ chunk :: chunk' :: p.cs' := by
  rw [p.slot]
  exact insertIdx_mid_succ

theorem set_group (group : List (List ℕ)) : groups.set (locate groups id).1 group =
    p.put [group] := by
  rw [p.slot]
  exact (congrArg (fun l : List (List (List ℕ)) => l.set p.gs.length group) p.groups_eq).trans
    (set_mid group)

theorem insert_group (group group' : List (List ℕ)) :
    (p.put [group]).insertIdx ((locate groups id).1 + 1) group' = p.put [group, group'] := by
  rw [p.slot]
  exact insertIdx_mid_succ

theorem mem_groups : p.cs ++ p.chunk :: p.cs' ∈ groups := by
  have hmem : p.cs ++ p.chunk :: p.cs' ∈ p.gs ++ (p.cs ++ p.chunk :: p.cs') :: p.gs' :=
    mem_append_right _ mem_cons_self
  rwa [← p.groups_eq] at hmem

theorem chunk_ascending (h : GroupsOk groups) : p.chunk.Pairwise (· < ·) := by
  have hall := h.ascending
  rw [p.ids_eq] at hall
  exact (pairwise_append.mp (pairwise_append.mp hall).2.1).1

/-- No chunk of the place's group is empty. -/
theorem full (h : GroupsOk groups) : (∀ chunk ∈ p.cs, chunk ≠ []) ∧ p.chunk ≠ [] ∧
    ∀ chunk ∈ p.cs', chunk ≠ [] := by
  have hfull := (h.full _ p.mem_groups).2
  exact ⟨fun c hc => hfull c (mem_append_left _ hc),
    hfull p.chunk (mem_append_right _ mem_cons_self),
    fun c hc => hfull c (mem_append_right _ (mem_cons_of_mem _ hc))⟩

theorem put_ok (h : GroupsOk groups) {news : List (List (List ℕ))}
    (hnews : ∀ group ∈ news, group ≠ [] ∧ ∀ chunk ∈ group, chunk ≠ [])
    (hids : (p.put news).flatten.flatten.Pairwise (· < ·)) : GroupsOk (p.put news) := by
  refine ⟨fun group hgroup => ?_, hids⟩
  have hold : ∀ group ∈ p.gs ++ p.gs', group ∈ groups := by
    intro group hgroup
    have hmem : group ∈ p.gs ++ (p.cs ++ p.chunk :: p.cs') :: p.gs' :=
      mem_append.mpr ((mem_append.mp hgroup).imp_right (mem_cons_of_mem _))
    rwa [← p.groups_eq] at hmem
  simp only [put, mem_append] at hgroup
  rcases hgroup with hgroup | hgroup | hgroup
  · exact h.full group (hold group (mem_append_left _ hgroup))
  · exact hnews group hgroup
  · exact h.full group (hold group (mem_append_right _ hgroup))

end Place

/-- A search in the groups ends at a place. -/
theorem GroupsOk.place (h : GroupsOk groups) (hne : groups ≠ []) (id : ℕ) :
    Nonempty (Place groups id) := by
  have hflat : groups.flatten.flatten = groups.flatMap List.flatten := by
    rw [flatten_flatten, flatMap_def]
  have hasc : Ascends (fun x => x) (groups.flatMap List.flatten) := hflat ▸ h.ascending
  have hgroup : ∀ group ∈ groups, group.flatten.Pairwise (· < ·) := by
    intro group hgroup
    have hall := h.ascending
    rw [flatten_flatten] at hall
    exact View.pairwise_of_mem hall (mem_map_of_mem hgroup)
  have hlast : ∀ group ∈ groups, Largest (fun x => x) (lastId group) group.flatten := by
    intro group hmem
    have hlast := View.lastId_mem (h.full group hmem).1 (h.full group hmem).2 (hgroup group hmem)
    exact ⟨⟨_, hlast.1, rfl⟩, hlast.2⟩
  obtain ⟨gs, group, gs', hgroups, hslot, hbelow, habove, -⟩ := slotLast_split hne hlast hasc id
  have hmem : group ∈ groups := by simp [hgroups]
  have hchunk : ∀ chunk ∈ group, Largest (fun x => x) (chunk.getLastD 0) chunk := by
    intro chunk hchunk
    have hlast := View.last_mem ((h.full group hmem).2 chunk hchunk)
      (View.pairwise_of_mem (hgroup group hmem) hchunk)
    exact ⟨⟨_, hlast.1, rfl⟩, hlast.2⟩
  have hasc' : Ascends (fun x => x) (group.flatMap fun chunk => chunk) := by
    rw [flatMap_id']
    exact hgroup group hmem
  obtain ⟨cs, chunk, cs', hchunks, hslot', hbelow', habove', -⟩ :=
    slotLast_split (h.full group hmem).1 hchunk hasc' id
  rw [flatMap_id'] at hbelow' habove'
  subst hchunks
  have hfirst : (locate groups id).1 = gs.length := hslot
  have hgetD : groups.getD (locate groups id).1 [] = cs ++ chunk :: cs' := by
    rw [hfirst, List.getD_eq_getElem?_getD, hgroups, getElem?_mid, Option.getD_some]
  have hsecond : (locate groups id).2 = cs.length := by
    rw [← hslot', ← hgetD]
    rfl
  refine ⟨gs, cs, chunk, cs', gs', hgroups, Prod.ext hfirst hsecond, fun x hx => ?_, fun x hx => ?_⟩
  · rw [flatten_append, flatten_flatten, ← flatMap_def] at hx
    exact (mem_append.mp hx).elim (hbelow x) (hbelow' x)
  · rw [flatten_append, flatten_flatten, ← flatMap_def] at hx
    exact (mem_append.mp hx).elim (habove' x) (habove x)

/-! ### Insertion -/

/-- What an insertion answers, and the ids behind it. -/
inductive Insertion (id : ℕ) (ids : List ℕ) : List ℕ → Bool → Prop
  | new {ids' : List ℕ} (h : Inserted id ids ids') : Insertion id ids ids' true
  | old (h : id ∈ ids) : Insertion id ids ids false

/-- What a removal answers: whether the last id is gone, and else the ids left. -/
inductive Removal (id : ℕ) (ids : List ℕ) : List ℕ → Bool → Prop
  | last {ids' : List ℕ} (h : ids = [id]) : Removal id ids ids' true
  | erased {ids' : List ℕ} (h : Erased id ids ids') (hne : ids' ≠ []) : Removal id ids ids' false
  | absent (h : id ∉ ids) : Removal id ids ids false

/-- A search in ascending ids. -/
theorem binarySearch_spec (id : ℕ) (h : ids.Pairwise (· < ·)) :
    (∃ pos, binarySearch ids id = .ok pos ∧ Erased id ids (ids.eraseIdx pos)) ∨
      ∃ pos, binarySearch ids id = .error pos ∧ id ∉ ids ∧
        Inserted id ids (ids.insertIdx pos id) := by
  have hfinds := search_finds id (show Ascends (fun x => x) ids from h)
  rw [binarySearch]
  generalize search (fun x => x) id ids = out at hfinds ⊢
  cases hfinds with
  | @here as bs a hl ha has hbs =>
    obtain rfl : a = id := ha
    exact .inl ⟨_, rfl, as, bs, hl, by rw [hl, eraseIdx_mid]⟩
  | @absent as bs hl has hbs =>
    have hin : Inserted id ids (ids.insertIdx as.length id) :=
      ⟨as, bs, hl, by rw [hl, insertIdx_mid], has, hbs⟩
    exact .inr ⟨_, rfl, hin.new, hin⟩

namespace Large

variable {l : Large}

/-- Non-empty groups, counted. -/
structure Ok (l : Large) : Prop where
  groups : GroupsOk l.groups
  nonempty : l.groups ≠ []
  len : l.len = l.groups.flatten.flatten.length

def all (l : Large) : List ℕ := l.groups.flatten.flatten

/-- Chunks none of which is empty, whatever the groups. -/
theorem full_iff : (∀ group ∈ groups, group ≠ [] ∧ ∀ chunk ∈ group, chunk ≠ []) ↔
    (∀ group ∈ groups, group ≠ []) ∧ ∀ chunk ∈ groups.flatten, chunk ≠ [] := by
  refine ⟨fun h => ⟨fun group hgroup => (h group hgroup).1, fun chunk hchunk => ?_⟩,
    fun h group hgroup => ⟨h.1 group hgroup, fun chunk hchunk => ?_⟩⟩
  · obtain ⟨group, hgroup, hchunk⟩ := mem_flatten.mp hchunk
    exact (h group hgroup).2 chunk hchunk
  · exact h.2 chunk (mem_flatten.mpr ⟨group, hgroup, hchunk⟩)

theorem Ok.inserted (h : l.Ok) (hne : groups ≠ [])
    (hfull : ∀ group ∈ groups, group ≠ [] ∧ ∀ chunk ∈ group, chunk ≠ [])
    (hin : Inserted id l.all groups.flatten.flatten) : Ok ⟨groups, l.len + 1⟩ :=
  ⟨⟨hfull, hin.ascending h.groups.ascending⟩, hne, by rw [hin.length, h.len]; rfl⟩

/-- Behind the greatest id, an id is appended. -/
theorem append_ok (h : l.Ok) {gs : List (List (List ℕ))} {last : List (List ℕ)}
    (hgroups : l.groups = gs ++ [last]) (hid : ∀ x ∈ l.all, x < id) {news : List (List (List ℕ))}
    (hne : news ≠ []) (hnews : (gs ++ news).flatten.flatten = l.all ++ [id])
    (hfull : ∀ group ∈ news, group ≠ [] ∧ ∀ chunk ∈ group, chunk ≠ []) :
    Ok ⟨gs ++ news, l.len + 1⟩ ∧ Insertion id l.all (gs ++ news).flatten.flatten true := by
  have hin : Inserted id l.all (gs ++ news).flatten.flatten :=
    ⟨l.all, [], (append_nil _).symm, hnews, hid, fun x hx => absurd hx not_mem_nil⟩
  refine ⟨h.inserted (by simp [hne]) (fun group hgroup => ?_) hin, .new hin⟩
  rcases mem_append.mp hgroup with hgroup | hgroup
  · exact h.groups.full group (hgroups ▸ mem_append_left _ hgroup)
  · exact hfull group hgroup

/-- Groups put at the place of a new id. -/
theorem Ok.put (h : l.Ok) (p : Place l.groups id) {chunk : List ℕ} (hin : Inserted id p.chunk chunk)
    {news : List (List (List ℕ))} (hne : news ≠ [])
    (hnews : news.flatten.flatten = p.cs.flatten ++ (chunk ++ p.cs'.flatten))
    (hfull : (∀ group ∈ news, group ≠ []) ∧ ∀ chunk ∈ news.flatten, chunk ≠ []) :
    Ok ⟨p.put news, l.len + 1⟩ ∧ Insertion id l.all (p.put news).flatten.flatten true := by
  have hall : Inserted id l.all (p.put news).flatten.flatten := by
    rw [all, p.ids_put hnews]
    exact p.ids_eq.symm ▸ hin.within p.below p.above
  have hasc := hall.ascending h.groups.ascending
  exact ⟨h.inserted (by simp [Place.put, hne]) (p.put_ok h.groups (full_iff.mpr hfull) hasc).full
    hall, .new hall⟩

/-- A long list splits into parts of which none is empty. -/
theorem split_ne_nil {T : Type} {l : List T} {n : ℕ} (h : n < l.length) (hn : 0 < n) :
    l.take (l.length / 2) ≠ [] ∧ l.drop (l.length / 2) ≠ [] := by
  constructor
  · exact ne_nil_of_length_pos (by rw [length_take]; omega)
  · exact ne_nil_of_length_pos (by rw [length_drop]; omega)

/-- A group around a chunk that splits. -/
theorem split_group {cs cs' : List (List ℕ)} {chunk : List ℕ} {n : ℕ}
    (hcs : ∀ chunk ∈ cs, chunk ≠ []) (hcs' : ∀ chunk ∈ cs', chunk ≠ [])
    (hsplit : chunk.take n ≠ [] ∧ chunk.drop n ≠ []) :
    (cs ++ chunk.take n :: chunk.drop n :: cs').flatten = cs.flatten ++ (chunk ++ cs'.flatten) ∧
      ∀ c ∈ cs ++ chunk.take n :: chunk.drop n :: cs', c ≠ [] := by
  constructor
  · rw [flatten_append, flatten_cons, flatten_cons, ← append_assoc (chunk.take n), take_append_drop]
  · intro c hc
    simp only [mem_append, mem_cons] at hc
    rcases hc with hc | rfl | rfl | hc
    · exact hcs c hc
    · exact hsplit.1
    · exact hsplit.2
    · exact hcs' c hc

/-- An id within the groups: its chunk, and then its group, split when they outgrow their
bounds. -/
theorem insertAt_ok (h : l.Ok) (id : ℕ) :
    ∃ l' isNew, l.insertAt id = some (l', isNew) ∧ l'.Ok ∧ Insertion id l.all l'.all isNew := by
  obtain ⟨p⟩ := h.groups.place h.nonempty id
  obtain ⟨hcs, -, hcs'⟩ := p.full h.groups
  rw [insertAt]
  simp only [p.get_group, p.get_chunk, bind_eq_bind, bind_some]
  rcases binarySearch_spec id (p.chunk_ascending h.groups) with
    ⟨pos, hpos, herased⟩ | ⟨pos, hpos, -, hin⟩
  · simp only [hpos]
    refine ⟨l, false, rfl, h, .old ?_⟩
    rw [all, p.ids_eq]
    exact mem_append_right _ (mem_append_left _ herased.old)
  simp only [hpos]
  have hlen := hin.length
  generalize p.chunk.insertIdx pos id = chunk at hin hlen ⊢
  have hchunk : chunk ≠ [] := ne_nil_of_length_eq_add_one hlen
  split_ifs with hlong hwide
  · -- The chunk splits, and then the group.
    rw [p.set_chunk, p.insert_chunk] at hwide ⊢
    have hgroup := split_group hcs hcs' (split_ne_nil hlong (by decide))
    generalize p.cs ++ chunk.take (chunk.length / 2) :: chunk.drop (chunk.length / 2) :: p.cs' =
      group at hwide hgroup ⊢
    obtain ⟨hleft, hright⟩ := split_ne_nil hwide (by decide)
    rw [p.set_group, p.insert_group]
    refine ⟨_, true, rfl, h.put p hin (cons_ne_nil _ _) ?_ ⟨?_, ?_⟩⟩
    · rw [flatten_cons, flatten_singleton, take_append_drop, hgroup.1]
    · simp only [mem_cons, not_mem_nil, or_false]
      rintro _ (rfl | rfl)
      · exact hleft
      · exact hright
    · rw [flatten_cons, flatten_singleton, take_append_drop]
      exact hgroup.2
  · -- The chunk splits.
    rw [p.set_chunk, p.insert_chunk, p.set_group]
    have hgroup := split_group hcs hcs' (split_ne_nil hlong (by decide))
    refine ⟨_, true, rfl, h.put p hin (cons_ne_nil _ _) ?_ ⟨by simp, ?_⟩⟩
    · rw [flatten_singleton, hgroup.1]
    · rw [flatten_singleton]
      exact hgroup.2
  · rw [p.set_chunk, p.set_group]
    refine ⟨_, true, rfl, h.put p hin (cons_ne_nil _ _) (by simp) ⟨?_, ?_⟩⟩
    · simp
    · intro c hc
      simp only [flatten_singleton, mem_append, mem_cons] at hc
      rcases hc with hc | rfl | hc
      · exact hcs c hc
      · exact hchunk
      · exact hcs' c hc

/-- Insertion into the groups. -/
theorem insert_ok (h : l.Ok) (id : ℕ) :
    ∃ l' isNew, l.insert id = some (l', isNew) ∧ l'.Ok ∧ Insertion id l.all l'.all isNew := by
  obtain ⟨gs, last, hlast⟩ := (eq_nil_or_concat' l.groups).resolve_left h.nonempty
  have hfull := h.groups.full last (by simp [hlast])
  obtain ⟨cs, tail, rfl⟩ := (eq_nil_or_concat' last).resolve_left hfull.1
  obtain ⟨es, m, htail⟩ := (eq_nil_or_concat' tail).resolve_left (hfull.2 tail (by simp))
  have hids : l.all = gs.flatten.flatten ++ (cs.flatten ++ tail) := by
    rw [all, hlast]
    simp
  have hbelow : m < id → ∀ x ∈ l.all, x < id := by
    intro hlt x hx
    have hasc : l.all.Pairwise (· < ·) := h.groups.ascending
    rw [hids, htail, ← append_assoc, ← append_assoc] at hx hasc
    rcases mem_append.mp hx with hx | hx
    · exact ((pairwise_append.mp hasc).2.2 x hx m (mem_singleton.mpr rfl)).trans hlt
    · exact (mem_singleton.mp hx).trans_lt hlt
  rw [insert]
  simp only [hlast, getLast?_concat, dropLast_concat, bind_eq_bind, bind_some,
    show tail.getLast? = some m by rw [htail, getLast?_concat]]
  rw [← hlast]
  split_ifs with hlt htail' hcs'
  · -- The last chunk has room.
    have hok := append_ok h hlast (hbelow hlt) (cons_ne_nil (cs ++ [tail ++ [id]]) [])
      (by rw [hids]; simp) fun group hgroup => by
        rw [mem_singleton.mp hgroup]
        exact ⟨by simp, fun chunk hchunk => (mem_append.mp hchunk).elim
          (fun hc => hfull.2 chunk (mem_append_left _ hc)) fun hc => by simp [mem_singleton.mp hc]⟩
    exact ⟨_, true, rfl, hok⟩
  · -- A chunk of its own.
    have hok := append_ok h hlast (hbelow hlt) (cons_ne_nil (cs ++ [tail] ++ [[id]]) [])
      (by rw [hids]; simp) fun group hgroup => by
        rw [mem_singleton.mp hgroup]
        exact ⟨by simp, fun chunk hchunk => (mem_append.mp hchunk).elim (hfull.2 chunk)
          fun hc => by simp [mem_singleton.mp hc]⟩
    exact ⟨_, true, rfl, hok⟩
  · -- A group of its own.
    have hok := append_ok h hlast (hbelow hlt) (cons_ne_nil (cs ++ [tail]) [[[id]]])
      (by rw [hids]; simp) fun group hgroup => by
        rcases mem_cons.mp hgroup with rfl | hgroup
        · exact hfull
        · simp [mem_singleton.mp hgroup]
    have hgroups : l.groups ++ [[[id]]] = gs ++ [cs ++ [tail], [[id]]] := by
      rw [hlast, append_assoc, singleton_append]
    exact ⟨_, true, rfl, hgroups ▸ hok⟩
  · exact insertAt_ok h id

/-! ### Removal -/

section Merge

variable {T : Type} {as bs : List (List T)} {entry : List T}

/-- Merging keeps what the entries hold, and leaves none empty. -/
theorem mergeSmall_ok (hfull : ∀ e ∈ as ++ entry :: bs, e ≠ []) (fit : ℕ) :
    ∃ table, mergeSmall (as ++ entry :: bs) as.length fit = some table ∧
      table.flatten = as.flatten ++ (entry ++ bs.flatten) ∧ ∀ e ∈ table, e ≠ [] := by
  have hsame : (as ++ entry :: bs).flatten = as.flatten ++ (entry ++ bs.flatten) := by
    rw [flatten_append, flatten_cons]
  rw [mergeSmall]
  simp only [getElem?_mid, bind_eq_bind, bind_some]
  split_ifs with hnext hprev
  · -- Into the next.
    obtain ⟨b, bs', rfl⟩ : ∃ b bs', bs = b :: bs' := by
      cases bs with
      | nil => simp at hnext
      | cons b bs' => exact ⟨b, bs', rfl⟩
    simp only [getElem?_mid_succ, eraseIdx_mid_succ, getElem?_mid, set_mid, bind_some]
    refine ⟨_, rfl, by simp, fun e he => ?_⟩
    simp only [mem_append, mem_cons] at he hfull
    rcases he with he | rfl | he
    · exact hfull e (.inl he)
    · simp [hfull entry (.inr (.inl rfl))]
    · exact hfull e (.inr (.inr (.inr he)))
  · -- Into the previous.
    obtain ⟨as', a, rfl⟩ := (eq_nil_or_concat' as).resolve_left (by rintro rfl; simp at hprev)
    have hlen : (as' ++ [a]).length - 1 = as'.length := by simp
    simp only [hlen, append_assoc, singleton_append, getElem?_mid_succ, eraseIdx_mid_succ,
      getElem?_mid, set_mid, bind_some]
    refine ⟨_, rfl, by simp, fun e he => ?_⟩
    simp only [mem_append, mem_cons] at he hfull
    rcases he with he | rfl | he
    · exact hfull e (.inl (.inl he))
    · simp [hfull a (.inl (.inr (.inl rfl)))]
    · exact hfull e (.inr (.inr he))
  · exact ⟨_, rfl, hsame, hfull⟩

/-- A table after a removal keeps what is left. -/
theorem afterRemove_ok {old : List T} (hfull : ∀ e ∈ as ++ old :: bs, e ≠ []) (entry : List T)
    (min fit : ℕ) : ∃ table, afterRemove (as ++ old :: bs) as.length entry min fit = some table ∧
      table.flatten = as.flatten ++ (entry ++ bs.flatten) ∧ ∀ e ∈ table, e ≠ [] := by
  have hrest : ∀ e, e ∈ as ∨ e ∈ bs → e ≠ [] := fun e he =>
    hfull e (mem_append.mpr (he.imp_right (mem_cons_of_mem _)))
  rw [afterRemove, eraseIdx_mid, set_mid]
  split_ifs with hnil
  · obtain rfl := isEmpty_iff.mp hnil
    exact ⟨_, rfl, by simp, fun e he => hrest e (mem_append.mp he)⟩
  all_goals
    have hentry : ∀ e ∈ as ++ entry :: bs, e ≠ [] := by
      intro e he
      simp only [mem_append, mem_cons] at he
      rcases he with he | rfl | he
      · exact hrest e (.inl he)
      · exact fun heq => hnil (isEmpty_iff.mpr heq)
      · exact hrest e (.inr he)
  · exact mergeSmall_ok hentry fit
  · exact ⟨_, rfl, by rw [flatten_append, flatten_cons], hentry⟩

end Merge

/-- Removal from the groups. -/
theorem remove_ok (h : l.Ok) (id : ℕ) :
    ∃ l' last, l.remove id = some (l', last) ∧ (last = false → l'.Ok) ∧
      Removal id l.all l'.all last := by
  obtain ⟨p⟩ := h.groups.place h.nonempty id
  rw [remove]
  simp only [p.get_group, p.get_chunk, bind_eq_bind, bind_some]
  rcases binarySearch_spec id (p.chunk_ascending h.groups) with
    ⟨pos, hpos, herased⟩ | ⟨pos, hpos, hnot, -⟩
  · have hgroup := afterRemove_ok (h.groups.full _ p.mem_groups).2 (p.chunk.eraseIdx pos) CHUNK_MIN
      CHUNK
    obtain ⟨group, hgroup, hflat, hchunks⟩ := hgroup
    have hall : ∀ g ∈ p.gs ++ (p.cs ++ p.chunk :: p.cs') :: p.gs', g ≠ [] :=
      fun g hg => (h.groups.full g (p.groups_eq ▸ hg)).1
    have hgroups := afterRemove_ok hall group GROUP_MIN GROUP
    obtain ⟨groups, hgroups, hflat', hne⟩ := hgroups
    rw [← p.groups_eq] at hgroups
    have hslot : locate l.groups id = (p.gs.length, p.cs.length) := p.slot
    have hids : groups.flatten.flatten = p.before ++ (p.chunk.eraseIdx pos ++ p.behind) := by
      rw [hflat', flatten_append, flatten_append, hflat]
      simp only [Place.before, Place.behind, flatten_append, append_assoc]
    have hall : Erased id l.all groups.flatten.flatten := by
      have hold : l.all = p.before ++ (p.chunk ++ p.behind) := p.ids_eq
      rw [hids, hold]
      exact herased.within p.before p.behind
    have hlen : l.len - 1 = groups.flatten.flatten.length := by
      rw [h.len]
      exact Nat.sub_eq_of_eq_add hall.length
    simp only [hpos, hslot, hgroup, hgroups, bind_some]
    refine ⟨_, _, rfl, fun hlast => ?_, ?_⟩
    · refine ⟨⟨full_iff.mpr ⟨hne, fun chunk hchunk => ?_⟩, h.groups.ascending.sublist hall.sublist⟩,
        fun hnil => ?_, hlen⟩
      · rw [hflat'] at hchunk
        simp only [mem_append] at hchunk
        have hold := (full_iff.mp h.groups.full).2 chunk
        rw [p.groups_eq, flatten_append, flatten_cons] at hold
        rcases hchunk with hchunk | hchunk | hchunk
        · exact hold (mem_append_left _ hchunk)
        · exact hchunks chunk hchunk
        · exact hold (mem_append_right _ (mem_append_right _ hchunk))
      · rw [hlen, show groups = [] from hnil] at hlast
        cases hlast
    · cases hzero : l.len - 1 == 0 with
      | false =>
        refine .erased hall fun hnil => ?_
        rw [hlen, show groups.flatten.flatten = [] from hnil] at hzero
        cases hzero
      | true =>
        rw [beq_iff_eq, hlen, length_eq_zero_iff] at hzero
        rw [hzero] at hall
        obtain ⟨as, bs, hids, hnil⟩ := hall
        obtain ⟨rfl, rfl⟩ := append_eq_nil_iff.mp hnil.symm
        exact .last hids
  · simp only [hpos]
    refine ⟨l, false, rfl, fun _ => h, .absent fun hid => ?_⟩
    rw [all, p.ids_eq] at hid
    simp only [mem_append] at hid
    rcases hid with hid | hid | hid
    · exact lt_irrefl _ (p.below id hid)
    · exact hnot hid
    · exact lt_irrefl _ (p.above id hid)

end Large

end Posting

end LoraDb
