import LoraDb.IdSetSound

/-!
# Runs of Posting Sets

Sets are made of one id, cloned, read and written, up to a removal that takes the last id.
Whatever the order, they answer as **finite sets** do, and no operation meets a table it takes
for granted to be non-empty and is not.

## Main results

* `IdSetIter.pull_spec`: a call takes an id from one end of those that are left.
* `idSet_refines`: a run.
-/

open List SortedRuns Handles

namespace LoraDb

namespace Posting

open StrIndex (View)

variable {id : ℕ}

/-! ### A set -/

namespace Unpacked

variable {s : Unpacked}

/-- Ids in order, counted, and at least one. -/
structure Ok (s : Unpacked) : Prop where
  wellformed : s.view.Wellformed
  len : s.len = s.view.ids.length
  nonempty : s.view.ids ≠ []

theorem ok_small {ids : List ℕ} (h : ids.Pairwise (· < ·)) (hne : ids ≠ []) : Ok (.small ids) :=
  ⟨⟨h, fun _ heq => (by cases heq)⟩, rfl, hne⟩

theorem ok_one (id : ℕ) : Ok (.one id) :=
  ⟨⟨pairwise_singleton _ _, fun _ heq => (by cases heq)⟩, rfl, cons_ne_nil _ _⟩

theorem ok_large {l : Large} (h : l.Ok) : Ok (.large l) := by
  refine ⟨⟨h.groups.ascending, fun groups heq => ?_⟩, h.len, fun hnil => ?_⟩
  · obtain rfl := View.large.inj heq
    exact ⟨h.nonempty, h.groups.full⟩
  · obtain ⟨group, hgroup⟩ := exists_mem_of_ne_nil _ h.nonempty
    obtain ⟨hne, hfull⟩ := h.groups.full group hgroup
    obtain ⟨chunk, hchunk⟩ := exists_mem_of_ne_nil _ hne
    have hmem : chunk ∈ l.groups.flatten := mem_flatten.mpr ⟨group, hgroup, hchunk⟩
    exact hfull chunk hchunk (flatten_eq_nil_iff.mp hnil chunk hmem)

theorem Ok.large {l : Large} (h : Ok (.large l)) : l.Ok := by
  obtain ⟨hne, hfull⟩ := h.wellformed.full _ rfl
  exact ⟨⟨hfull, h.wellformed.ascending⟩, hne, h.len⟩

/-- A vector that outgrows its bound is the first chunk of a large set. -/
theorem grown_ok {ids : List ℕ} (h : ids.Pairwise (· < ·)) (hne : ids ≠ []) :
    (insert.grown ids).Ok ∧ (insert.grown ids).view.ids = ids := by
  rw [insert.grown]
  split_ifs
  · have hflat : [[ids]].flatten.flatten = ids := by simp
    refine ⟨ok_large ⟨⟨by simp [hne], by rwa [hflat]⟩, cons_ne_nil _ _, ?_⟩, hflat⟩
    rw [hflat]
  · exact ⟨ok_small h hne, rfl⟩

theorem grown_inserted {ids ids' : List ℕ} (h : ids.Pairwise (· < ·)) (hin : Inserted id ids ids') :
    (insert.grown ids').Ok ∧ Insertion id ids (insert.grown ids').view.ids true := by
  obtain ⟨hok, hids⟩ := grown_ok (hin.ascending h) (ne_nil_of_length_eq_add_one hin.length)
  exact ⟨hok, hids.symm ▸ .new hin⟩

theorem insert_ok (h : s.Ok) (id : ℕ) : ∃ s' isNew, s.insert id = some (s', isNew) ∧ s'.Ok ∧
      Insertion id s.view.ids s'.view.ids isNew := by
  cases s with
  | one existing =>
    rw [insert]
    split_ifs with heq hlt
    · exact ⟨_, false, rfl, h, .old (by simp [view, View.ids, heq])⟩
    · have hin : Inserted id [existing] [existing, id] :=
        ⟨[existing], [], rfl, rfl, by simpa using hlt, by simp⟩
      exact ⟨_, true, rfl, ok_small (hin.ascending (pairwise_singleton _ _)) (cons_ne_nil _ _),
        .new hin⟩
    · have hin : Inserted id [existing] [id, existing] :=
        ⟨[], [existing], rfl, rfl, by simp, by simp; omega⟩
      exact ⟨_, true, rfl, ok_small (hin.ascending (pairwise_singleton _ _)) (cons_ne_nil _ _),
        .new hin⟩
  | small ids =>
    have hasc : ids.Pairwise (· < ·) := h.wellformed.ascending
    rw [insert]
    split_ifs with hlast
    · have hin : Inserted id ids (ids ++ [id]) := by
        refine ⟨ids, [], (append_nil _).symm, rfl, fun x hx => ?_, by simp⟩
        have hmax := View.last_mem (ne_nil_of_mem hx) hasc
        obtain ⟨m, hm⟩ := Option.isSome_iff_exists.mp (getLast?_isSome.mpr (ne_nil_of_mem hx))
        rw [getLastD_eq_getLast?, hm, Option.getD_some] at hmax
        rw [hm, Option.any_some] at hlast
        exact (hmax.2 x hx).trans_lt (of_decide_eq_true hlast)
      exact ⟨_, true, rfl, grown_inserted hasc hin⟩
    · rcases binarySearch_spec id hasc with ⟨pos, hpos, herased⟩ | ⟨pos, hpos, -, hin⟩
      · simp only [hpos]
        exact ⟨_, false, rfl, h, .old herased.old⟩
      · simp only [hpos]
        exact ⟨_, true, rfl, grown_inserted hasc hin⟩
  | large l =>
    obtain ⟨l', isNew, hl', hok, hin⟩ := Large.insert_ok h.large id
    exact ⟨.large l', isNew, by rw [insert, hl']; rfl, ok_large hok, hin⟩

/-- What is left of a vector, kept as one id where it is one. -/
theorem left_ok {ids : List ℕ} (h : ids.Pairwise (· < ·)) :
    (remove.left ids).view.ids = ids ∧ (ids.isEmpty = false → (remove.left ids).Ok) := by
  rcases ids with _ | ⟨only, _ | ⟨next, ids⟩⟩
  · exact ⟨rfl, fun heq => by cases heq⟩
  · exact ⟨rfl, fun _ => ok_one only⟩
  · exact ⟨rfl, fun _ => ok_small h (cons_ne_nil _ _)⟩

theorem remove_ok (h : s.Ok) (id : ℕ) :
    ∃ s' last, s.remove id = some (s', last) ∧ (last = false → s'.Ok) ∧
      Removal id s.view.ids s'.view.ids last := by
  cases s with
  | one existing =>
    refine ⟨.one existing, existing == id, rfl, fun _ => h, ?_⟩
    cases heq : existing == id with
    | true =>
      obtain rfl := beq_iff_eq.mp heq
      exact .last rfl
    | false =>
      have hne : existing ≠ id := beq_eq_false_iff_ne.mp heq
      exact .absent fun hid => hne (mem_singleton.mp hid).symm
  | small ids =>
    have hasc : ids.Pairwise (· < ·) := h.wellformed.ascending
    rw [remove]
    rcases binarySearch_spec id hasc with ⟨pos, hpos, herased⟩ | ⟨pos, hpos, hnot, -⟩
    · simp only [hpos]
      obtain ⟨hids, hsmall⟩ := left_ok (hasc.sublist herased.sublist)
      refine ⟨_, _, rfl, hsmall, ?_⟩
      rw [hids]
      cases hnil : (ids.eraseIdx pos).isEmpty with
      | false => exact .erased herased fun heq => by rw [heq] at hnil; cases hnil
      | true =>
        rw [isEmpty_iff.mp hnil] at herased
        obtain ⟨as, bs, heq, hempty⟩ := herased
        obtain ⟨rfl, rfl⟩ := append_eq_nil_iff.mp hempty.symm
        exact .last heq
    · simp only [hpos]
      obtain ⟨hids, hsmall⟩ := left_ok hasc
      have hfalse : ids.isEmpty = false := isEmpty_eq_false_iff.mpr h.nonempty
      refine ⟨_, _, rfl, hsmall, ?_⟩
      rw [hids, hfalse]
      exact .absent hnot
  | large l =>
    obtain ⟨l', last, hl', hok, hremoval⟩ := Large.remove_ok h.large id
    exact ⟨.large l', last, by rw [remove, hl']; rfl, fun hlast => ok_large (hok hlast), hremoval⟩

end Unpacked

/-! ### The word -/

/-- An id comes out of the word as it went in. -/
theorem inline_round (h : id ≤ INLINE_MAX) : ((id <<< 1) % 2 ^ 64 ||| 1) >>> 1 = id := by
  have hmax : INLINE_MAX = 2 ^ 63 - 1 := by decide
  have hlt : id * 2 < 2 ^ 64 := by omega
  have heven : Even (id * 2) := even_two.mul_left id
  rw [Nat.shiftLeft_eq, pow_one, Nat.mod_eq_of_lt hlt, Nat.shiftRight_eq_div_pow, pow_one]
  have hor : id * 2 ||| 1 = id * 2 + 1 := by
    have hshift := Nat.shiftLeft_add_eq_or_of_lt (b := 1) (i := 1) (by decide) id
    rw [Nat.shiftLeft_eq, pow_one] at hshift
    exact hshift.symm
  omega

theorem unpack_pack {s : Unpacked} (h : s.Ok) :
    (IdSet.pack s).unpack.Ok ∧ (IdSet.pack s).unpack.view.ids = s.view.ids := by
  cases s with
  | one id =>
    rw [IdSet.pack]
    split_ifs with hid
    · rw [IdSet.unpack, inline_round hid]
      exact ⟨h, rfl⟩
    · exact ⟨Unpacked.ok_small (pairwise_singleton _ _) (cons_ne_nil _ _), rfl⟩
  | small ids => exact ⟨h, rfl⟩
  | large l => exact ⟨h, rfl⟩

/-! ### The iterator -/

namespace IdSetIter

variable {it : IdSetIter}

/-- The ids left in slices, ascending. -/
def slices (it : IdSetIter) : List ℕ :=
  it.front ++ (it.frontChunks.flatten ++ (it.groups.flatten.flatten ++
    (it.backChunks.flatten ++ it.back)))

/-- The ids left, ascending. -/
def content (it : IdSetIter) : List ℕ := it.slices ++ it.one.toList

/-- A lone id is all there is, and the ids left are counted. -/
structure Ok (it : IdSetIter) : Prop where
  alone : it.slices = [] ∨ it.one = none
  remaining : it.remaining = it.content.length

/-- What an end of some ids is, the back for `true`. -/
def endOf (descending : Bool) (ids : List ℕ) : Option ℕ :=
  if descending then ids.getLast? else ids.head?

/-- The ids without that end. -/
def rest (descending : Bool) (ids : List ℕ) : List ℕ :=
  if descending then ids.dropLast else ids.tail

/-- A call takes an end of the ids left. -/
def Takes (descending : Bool) (it : IdSetIter) (out : Option ℕ × IdSetIter) : Prop :=
  out.1 = endOf descending it.content ∧ out.2.content = rest descending it.content ∧ out.2.Ok

/-- Opening a group or a chunk leaves the ids as they are. -/
theorem Ok.opened {it' : IdSetIter} {out : Option ℕ × IdSetIter} {descending : Bool} (h : it.Ok)
    (ih : it'.Ok → Takes descending it' out) (hslices : it'.slices = it.slices)
    (hone : it'.one = it.one) (hremaining : it'.remaining = it.remaining) :
    Takes descending it out := by
  have hcontent : it'.content = it.content := by rw [content, hslices, hone, content]
  have hok : it'.Ok := ⟨by rw [hslices, hone]; exact h.alone, by
    rw [hremaining, h.remaining, hcontent]⟩
  have htakes := ih hok
  rwa [Takes, hcontent] at htakes

/-- An id out of a slice. -/
theorem Ok.sliced {it' : IdSetIter} {descending : Bool} (h : it.Ok) (hone : it'.one = it.one)
    (hremaining : it'.remaining = it.remaining - 1)
    (hslices : it.slices = if descending then it'.slices ++ [id] else id :: it'.slices) :
    Takes descending it (some id, it') := by
  have hnone : it.one = none := h.alone.resolve_left fun hnil => by
    rw [hnil] at hslices
    cases descending <;> simp at hslices
  have hold : it.content = it.slices := by rw [content, hnone, Option.toList_none, append_nil]
  have hnew : it'.content = it'.slices := by
    rw [content, hone, hnone, Option.toList_none, append_nil]
  refine ⟨?_, ?_, .inr (hone.trans hnone), ?_⟩
  · rw [hold, hslices]
    cases descending <;> simp [endOf]
  · rw [hold, hnew, hslices]
    cases descending <;> simp [rest]
  · rw [hremaining, h.remaining, hold, hnew, hslices]
    cases descending <;> simp

/-- The lone id. -/
theorem Ok.lone (h : it.Ok) (descending : Bool) (hone : it.one = some id) :
    Takes descending it (some id, { it with one := none, remaining := it.remaining - 1 }) := by
  have hnil : it.slices = [] := h.alone.resolve_right (by rw [hone]; exact Option.some_ne_none _)
  have hold : it.content = [id] := by rw [content, hnil, hone]; rfl
  have hnew : content { it with one := none, remaining := it.remaining - 1 } = [] := by
    rw [content]
    exact append_eq_nil_iff.mpr ⟨hnil, rfl⟩
  refine ⟨?_, ?_, .inr rfl, ?_⟩
  · rw [hold]
    cases descending <;> rfl
  · rw [hold, hnew]
    cases descending <;> rfl
  · rw [hnew]
    exact (congrArg (· - 1) (h.remaining.trans (congrArg length hold)))

/-- Nothing is left. -/
theorem Ok.over (h : it.Ok) (descending : Bool) (hslices : it.slices = []) (hone : it.one = none) :
    Takes descending it (none, it) := by
  have hnil : it.content = [] := by rw [content, hslices, hone]; rfl
  refine ⟨?_, ?_, h⟩
  · rw [hnil]
    cases descending <;> rfl
  · rw [hnil]
    cases descending <;> rfl

theorem next_spec (h : it.Ok) : Takes false it it.next := by
  fun_induction next it with
  | case1 it id front hfront => exact h.sliced rfl rfl (by simp [slices, hfront])
  | case2 it hfront chunk chunks hchunks ih =>
    exact h.opened ih (by simp [slices, hfront, hchunks]) rfl rfl
  | case3 it hfront hchunks group groups hgroups ih =>
    exact h.opened ih (by simp [slices, hfront, hchunks, hgroups]) rfl rfl
  | case4 it hfront hchunks hgroups chunk chunks hback ih =>
    exact h.opened ih (by simp [slices, hfront, hchunks, hgroups, hback]) rfl rfl
  | case5 it hfront hchunks hgroups hback id back hid =>
    exact h.sliced rfl rfl (by simp [slices, hfront, hchunks, hgroups, hback, hid])
  | case6 it hfront hchunks hgroups hback hid id hone => exact h.lone false hone
  | case7 it hfront hchunks hgroups hback hid hone =>
    exact h.over false (by simp [slices, hfront, hchunks, hgroups, hback, hid]) hone

theorem nextBack_spec (h : it.Ok) : Takes true it it.nextBack := by
  fun_induction nextBack it with
  | case1 it id hback =>
    refine h.sliced rfl rfl ?_
    obtain ⟨ids, hids⟩ := getLast?_eq_some_iff.mp hback
    simp [slices, hids]
  | case2 it hback chunk hchunks ih =>
    refine h.opened ih ?_ rfl rfl
    obtain ⟨chunks, hsplit⟩ := getLast?_eq_some_iff.mp hchunks
    simp [slices, getLast?_eq_none_iff.mp hback, hsplit]
  | case3 it hback hchunks group hgroups ih =>
    refine h.opened ih ?_ rfl rfl
    obtain ⟨groups, hsplit⟩ := getLast?_eq_some_iff.mp hgroups
    simp [slices, getLast?_eq_none_iff.mp hback, getLast?_eq_none_iff.mp hchunks, hsplit]
  | case4 it hback hchunks hgroups chunk hfront ih =>
    refine h.opened ih ?_ rfl rfl
    obtain ⟨chunks, hsplit⟩ := getLast?_eq_some_iff.mp hfront
    simp [slices, getLast?_eq_none_iff.mp hback, getLast?_eq_none_iff.mp hchunks,
      getLast?_eq_none_iff.mp hgroups, hsplit]
  | case5 it hback hchunks hgroups hfront id hid =>
    refine h.sliced rfl rfl ?_
    obtain ⟨ids, hids⟩ := getLast?_eq_some_iff.mp hid
    simp [slices, getLast?_eq_none_iff.mp hback, getLast?_eq_none_iff.mp hchunks,
      getLast?_eq_none_iff.mp hgroups, getLast?_eq_none_iff.mp hfront, hids]
  | case6 it hback hchunks hgroups hfront hid id hone => exact h.lone true hone
  | case7 it hback hchunks hgroups hfront hid hone =>
    refine h.over true ?_ hone
    simp [slices, getLast?_eq_none_iff.mp hback, getLast?_eq_none_iff.mp hchunks,
      getLast?_eq_none_iff.mp hgroups, getLast?_eq_none_iff.mp hfront,
      getLast?_eq_none_iff.mp hid]

/-- A call from either end. -/
theorem pull_spec (h : it.Ok) (descending : Bool) : Takes descending it (it.pull descending) := by
  cases descending with
  | false => exact next_spec h
  | true => exact nextBack_spec h

/-- The ends of some ids, taken one after the other. -/
def takes : List Bool → List ℕ → List (Option ℕ)
  | [], _ => []
  | descending :: ds, ids => endOf descending ids :: takes ds (rest descending ids)

theorem pulls_eq (h : it.Ok) (ds : List Bool) : it.pulls ds = takes ds it.content := by
  induction ds generalizing it with
  | nil => rfl
  | cons descending ds ih =>
    obtain ⟨hend, hrest, hok⟩ := pull_spec h descending
    rw [pulls, takes, ih hok, hend, hrest]

/-- Some ids are an end of theirs and the rest. -/
theorem perm_end (descending : Bool) {ids : List ℕ} (hne : ids ≠ []) :
    ∃ id, endOf descending ids = some id ∧ id :: rest descending ids ~ ids := by
  cases descending with
  | false =>
    obtain ⟨id, ids, rfl⟩ := exists_cons_of_ne_nil hne
    exact ⟨id, rfl, .refl _⟩
  | true =>
    obtain ⟨ids, id, rfl⟩ := (eq_nil_or_concat' ids).resolve_left hne
    refine ⟨id, getLast?_concat, ?_⟩
    rw [rest, if_pos rfl, dropLast_concat]
    exact (perm_append_singleton id ids).symm

/-- Each id is taken once: as many as there are calls, then all of them. -/
theorem takes_once (ds : List Bool) (ids : List ℕ) :
    ∃ left, (takes ds ids).reduceOption ++ left ~ ids ∧ left.length = ids.length - ds.length := by
  induction ds generalizing ids with
  | nil => exact ⟨ids, .refl _, rfl⟩
  | cons descending ds ih =>
    rw [takes]
    rcases eq_or_ne ids [] with rfl | hne
    · obtain ⟨left, hperm, hlen⟩ := ih []
      have hrest : rest descending ([] : List ℕ) = [] := by cases descending <;> rfl
      have hend : endOf descending ([] : List ℕ) = none := by cases descending <;> rfl
      rw [hrest, hend, reduceOption_cons_of_none]
      exact ⟨left, hperm, by rw [hlen, length_nil, Nat.zero_sub, Nat.zero_sub]⟩
    · obtain ⟨id, hend, hids⟩ := perm_end descending hne
      obtain ⟨left, hperm, hlen⟩ := ih (rest descending ids)
      rw [hend, reduceOption_cons_of_some]
      refine ⟨left, (hperm.cons id).trans hids, ?_⟩
      rw [hlen, ← hids.length_eq, length_cons, length_cons, Nat.add_sub_add_right]

end IdSetIter

theorem iter_ok {s : Unpacked} (h : s.Ok) : s.iter.Ok ∧ s.iter.content = s.view.ids := by
  cases s with
  | one id => exact ⟨⟨.inl rfl, rfl⟩, rfl⟩
  | small ids =>
    have hcontent : (IdSetIter.ofSlice ids).content = ids := by
      simp [IdSetIter.content, IdSetIter.slices, IdSetIter.ofSlice]
    exact ⟨⟨.inr rfl, congrArg length hcontent.symm⟩, hcontent⟩
  | large l =>
    have hcontent : (IdSetIter.ofGroups l.groups l.len).content = l.groups.flatten.flatten := by
      simp [IdSetIter.content, IdSetIter.slices, IdSetIter.ofGroups]
    exact ⟨⟨.inr rfl, h.large.len.trans (congrArg length hcontent.symm)⟩, hcontent⟩

/-! ### Runs -/

/-- An operation on a set. -/
inductive SetOp
  | insert (id : ℕ)
  | remove (id : ℕ)
  | len
  | toVec
  | iterAfter (cursor : Option ℕ) (descending : Bool)
  | pulls (ds : List Bool)

/-- What an operation **answers**. -/
inductive Answer
  | flag (b : Bool)
  | count (n : ℕ)
  | ids (ids : List ℕ)
  | taken (ids : List (Option ℕ))

def make : ℕ → Option IdSet := fun id => some (.new id)

/-- The caller drops a set whose removal says so. -/
def step : SetOp → IdSet → Option (Option IdSet × Answer)
  | .insert id, s => (s.insert id).map fun out => (some out.1, .flag out.2)
  | .remove id, s =>
    (s.remove id).map fun out => (if out.2 then none else some out.1, .flag out.2)
  | .len, s => some (some s, .count s.len)
  | .toVec, s => some (some s, .ids s.toVec)
  | .iterAfter cursor descending, s => some (some s, .ids (s.iterAfter cursor descending))
  | .pulls ds, s => some (some s, .taken (s.iter.pulls ds))

/-- A finite set. -/
def specMake : ℕ → Option (Finset ℕ) := fun id => some {id}

/-- The ids strictly past a cursor. -/
def past (cursor : Option ℕ) (descending : Bool) (a : Finset ℕ) : Finset ℕ :=
  a.filter fun id => cursor.all fun c => if descending then decide (id < c) else decide (c < id)

def specStep : SetOp → Finset ℕ → Option (Option (Finset ℕ) × Answer)
  | .insert id, a => some (some (insert id a), .flag (decide (id ∉ a)))
  | .remove id, a =>
    some (if a = {id} then none else some (a.erase id), .flag (decide (a = {id})))
  | .len, a => some (some a, .count a.card)
  | .toVec, a => some (some a, .ids a.sort)
  | .iterAfter cursor descending, a =>
    let ids := (past cursor descending a).sort
    some (some a, .ids (if descending then ids.reverse else ids))
  | .pulls ds, a => some (some a, .taken (IdSetIter.takes ds a.sort))

/-- A set that is a finite set. -/
structure Refines (s : IdSet) (a : Finset ℕ) : Prop where
  ok : s.unpack.Ok
  ids : s.unpack.view.ids = a.sort

theorem sort_toFinset {ids : List ℕ} (h : ids.Pairwise (· < ·)) : ids = ids.toFinset.sort :=
  ((toFinset_sort (· ≤ ·) h.nodup).mpr (h.imp le_of_lt)).symm

section Step

variable {s : IdSet} {a : Finset ℕ}

theorem Refines.toFinset (h : Refines s a) : s.unpack.view.ids.toFinset = a := by
  rw [h.ids, Finset.sort_toFinset]

/-- A set as it comes out of a write. -/
theorem refines_pack {u : Unpacked} (h : u.Ok) (hids : u.view.ids.toFinset = a) :
    Refines (.pack u) a := by
  obtain ⟨hok, hsame⟩ := unpack_pack h
  refine ⟨hok, ?_⟩
  rw [hsame, ← hids]
  exact sort_toFinset h.wellformed.ascending

theorem refines_new (id : ℕ) : Refines (.new id) {id} :=
  refines_pack (Unpacked.ok_one id) (by simp [Unpacked.view, View.ids])

theorem mem_ids (h : Refines s a) (id : ℕ) : id ∈ s.unpack.view.ids ↔ id ∈ a := by
  rw [← h.toFinset, mem_toFinset]

theorem insert_refines (h : Refines s a) (id : ℕ) :
    ∃ s', s.insert id = some (s', decide (id ∉ a)) ∧ Refines s' (insert id a) := by
  obtain ⟨u, isNew, hu, hok, hin⟩ := Unpacked.insert_ok h.ok id
  have hmem := mem_ids h id
  generalize hids' : u.view.ids = ids' at hin
  cases hin with
  | new hin =>
    have hnot : id ∉ a := fun hid => hin.new (hmem.mpr hid)
    refine ⟨.pack u, ?_, refines_pack hok ?_⟩
    · rw [IdSet.insert, IdSet.update, hu, decide_eq_true hnot]
      rfl
    · rw [hids', hin.toFinset, h.toFinset]
  | old hid =>
    have hid' : id ∈ a := hmem.mp hid
    refine ⟨.pack u, ?_, refines_pack hok ?_⟩
    · rw [IdSet.insert, IdSet.update, hu, decide_eq_false (not_not_intro hid')]
      rfl
    · rw [hids', h.toFinset, Finset.insert_eq_of_mem hid']

theorem remove_refines (h : Refines s a) (id : ℕ) :
    ∃ s', s.remove id = some (s', decide (a = {id})) ∧ (a ≠ {id} → Refines s' (a.erase id)) := by
  obtain ⟨u, last, hu, hok, hremoval⟩ := Unpacked.remove_ok h.ok id
  have hasc := h.ok.wellformed.ascending
  have hsum := h.toFinset
  generalize hids' : u.view.ids = ids' at hremoval
  cases hremoval with
  | last hids =>
    have ha : a = {id} := by rw [← hsum, hids]; rfl
    refine ⟨.pack u, ?_, fun hne => absurd ha hne⟩
    rw [IdSet.remove, IdSet.update, hu, decide_eq_true ha]
    rfl
  | erased herased hne =>
    have ha : a ≠ {id} := by
      rintro rfl
      have hlen := herased.length
      rw [h.ids, Finset.length_sort, Finset.card_singleton] at hlen
      exact hne (length_eq_zero_iff.mp (by omega))
    refine ⟨.pack u, ?_, fun _ => refines_pack (hok rfl) ?_⟩
    · rw [IdSet.remove, IdSet.update, hu, decide_eq_false ha]
      rfl
    · rw [hids', herased.toFinset hasc, hsum]
  | absent hnot =>
    have hid : id ∉ a := fun hid => hnot ((mem_ids h id).mpr hid)
    have ha : a ≠ {id} := by
      rintro rfl
      exact hid (Finset.mem_singleton_self id)
    refine ⟨.pack u, ?_, fun _ => refines_pack (hok rfl) ?_⟩
    · rw [IdSet.remove, IdSet.update, hu, decide_eq_false ha]
      rfl
    · rw [hids', hsum, Finset.erase_eq_of_notMem hid]

theorem iterAfter_refines (h : Refines s a) (cursor : Option ℕ) (descending : Bool) :
    s.iterAfter cursor descending = if descending then (past cursor descending a).sort.reverse
      else (past cursor descending a).sort := by
  have hasc := h.ok.wellformed.ascending
  have hpast : ∀ p : ℕ → Bool, s.unpack.view.ids.filter p = (a.filter fun id => p id).sort := by
    intro p
    rw [sort_toFinset (hasc.filter p), toFinset_filter, h.toFinset]
  rw [IdSet.iterAfter, View.iterAfter_eq h.ok.wellformed, hpast, hpast, past]
  cases descending <;> rfl

theorem pulls_refines (h : Refines s a) (ds : List Bool) :
    s.iter.pulls ds = IdSetIter.takes ds a.sort := by
  obtain ⟨hok, hcontent⟩ := iter_ok h.ok
  rw [IdSet.iter, IdSetIter.pulls_eq hok, hcontent, h.ids]

theorem step_refines (op : SetOp) (s : IdSet) (a : Finset ℕ) (h : Refines s a) :
    ∃ s' a' answer, step op s = some (s', answer) ∧ specStep op a = some (a', answer) ∧
      Option.Rel Refines s' a' := by
  cases op with
  | insert id =>
    obtain ⟨s', hs', hrefines⟩ := insert_refines h id
    exact ⟨_, _, _, by rw [step, hs']; rfl, rfl, .some hrefines⟩
  | remove id =>
    obtain ⟨s', hs', hrefines⟩ := remove_refines h id
    refine ⟨_, _, _, by rw [step, hs']; rfl, rfl, ?_⟩
    by_cases ha : a = {id}
    · simp only [decide_eq_true ha, if_pos ha, if_true]
      exact .none
    · simp only [decide_eq_false ha, if_neg ha, Bool.false_eq_true, if_false]
      exact .some (hrefines ha)
  | len =>
    refine ⟨_, _, _, rfl, ?_, .some h⟩
    rw [specStep, IdSet.len, h.ok.len, h.ids, Finset.length_sort]
  | toVec => exact ⟨_, _, _, rfl, by rw [specStep, IdSet.toVec, h.ids], .some h⟩
  | iterAfter cursor descending =>
    exact ⟨_, _, _, rfl, by rw [specStep, iterAfter_refines h], .some h⟩
  | pulls ds => exact ⟨_, _, _, rfl, by rw [specStep, pulls_refines h], .some h⟩

end Step

/-- **Posting sets refine finite sets** in every run; and either end of an iterator pulled in any
order, each id comes once. -/
theorem idSet_refines (ops : List (HandleOp ℕ SetOp)) :
    ∃ vs ws answers, run make step ops [] = some (vs, answers) ∧
      run specMake specStep ops [] = some (ws, answers) ∧ Alike Refines vs ws ∧
      ∀ s a, Refines s a → ∀ ds : List Bool, a.card ≤ ds.length →
        (s.iter.pulls ds).reduceOption ~ a.sort := by
  have hmake : ∀ id, ∃ s a, make id = some s ∧ specMake id = some a ∧ Refines s a :=
    fun id => ⟨_, _, rfl, rfl, refines_new id⟩
  obtain ⟨vs, ws, answers, hrun, hspec, halike⟩ := run_alike hmake step_refines ops .nil
  refine ⟨vs, ws, answers, hrun, hspec, halike, fun s a h ds hds => ?_⟩
  obtain ⟨left, hperm, hlen⟩ := IdSetIter.takes_once ds a.sort
  have hnil : left = [] := length_eq_zero_iff.mp (by rw [hlen, Finset.length_sort]; omega)
  rw [pulls_refines h]
  rwa [hnil, append_nil] at hperm

end Posting

end LoraDb
