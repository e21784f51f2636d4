import LoraDb.OrdMapWrites

/-!
# Ordered Reads

A floor or a range of the tables is that of the sorted entries they hold.

## Main results

* `CowOrdMap.floor_ok`: the entry with the greatest key at most some key.
* `CowOrdMap.range_ok`: the entries within bounds.
-/

open Prod (fst snd)
open Option (bind_eq_bind bind_some)
open List SortedRuns

namespace LoraDb

namespace OrdMap

open StrIndex (Bound)

variable {K V : Type}

namespace CowOrdMap

/-! ### Places of a range -/

/-- A partition of the tables, by the index of its group and its index there. -/
structure At (root : Root K V) (place : ℕ × ℕ) where
  gs : Root K V
  least : K
  group : Group K V
  gs' : Root K V
  root_eq : root = gs ++ (least, group) :: gs'
  group_at : place.1 = gs.length
  part_lt : place.2 < group.length

namespace At

variable {root : Root K V} {place first last : ℕ × ℕ}

/-- Index among all partitions. -/
def index (a : At root place) : ℕ := (a.gs.flatMap snd).length + place.2

theorem parts_eq (a : At root place) :
    root.flatMap snd = a.gs.flatMap snd ++ (a.group ++ a.gs'.flatMap snd) := by
  conv_lhs => rw [a.root_eq]
  rw [flatMap_append, flatMap_cons]

theorem take_index (a : At root place) :
    (root.flatMap snd).take a.index = a.gs.flatMap snd ++ a.group.take place.2 := by
  rw [a.parts_eq, index, take_length_add_append, take_append_of_le_length a.part_lt.le]

theorem take_succ (a : At root place) : (root.flatMap snd).take (a.index + 1) =
    a.gs.flatMap snd ++ a.group.take (place.2 + 1) := by
  rw [a.parts_eq, index, Nat.add_assoc, take_length_add_append,
    take_append_of_le_length (Nat.succ_le_of_lt a.part_lt)]

theorem drop_succ (a : At root place) : (root.flatMap snd).drop (a.index + 1) =
    a.group.drop (place.2 + 1) ++ a.gs'.flatMap snd := by
  rw [a.parts_eq, index, Nat.add_assoc, drop_length_add_append,
    drop_append_of_le_length (Nat.succ_le_of_lt a.part_lt)]

/-- Two places: the second may be in an earlier group, the same one, or a later one. -/
theorem compare (a : At root first) (b : At root last) :
    (∃ mid, b.gs = a.gs ++ (a.least, a.group) :: mid) ∨
      (a.gs = b.gs ∧ a.group = b.group ∧ a.gs' = b.gs') ∨
      ∃ mid, a.gs = b.gs ++ (b.least, b.group) :: mid := by
  have heq := a.root_eq.symm.trans b.root_eq
  rcases append_eq_append_iff.mp heq with ⟨mid, hgs, hmid⟩ | ⟨mid, hgs, hmid⟩
  · cases mid with
    | nil =>
      rw [nil_append, cons.injEq, Prod.mk.injEq] at hmid
      exact .inr (.inl ⟨by rw [hgs, append_nil], hmid.1.2, hmid.2⟩)
    | cons slot mid =>
      rw [cons_append, cons.injEq] at hmid
      exact .inl ⟨mid, by rw [hgs, hmid.1]⟩
  · cases mid with
    | nil =>
      rw [nil_append, cons.injEq, Prod.mk.injEq] at hmid
      exact .inr (.inl ⟨by rw [hgs, append_nil], hmid.1.2.symm, hmid.2.symm⟩)
    | cons slot mid =>
      rw [cons_append, cons.injEq] at hmid
      exact .inr (.inr ⟨mid, by rw [hgs, hmid.1]⟩)

theorem get_root (a : At root place) : root[place.1]? = some (a.least, a.group) := by
  rw [a.group_at]
  exact (congrArg (·[a.gs.length]?) a.root_eq).trans getElem?_mid

/-- Nothing lies between places the wrong way round. -/
theorem index_lt (a : At root first) (b : At root last)
    (hle : ¬(first.1 < last.1 ∨ first.1 = last.1 ∧ first.2 ≤ last.2)) : b.index < a.index := by
  rw [not_or, not_and, not_lt, not_le] at hle
  have hfirst := a.group_at
  have hlast := b.group_at
  have hpart := b.part_lt
  rw [index, index]
  rcases a.compare b with ⟨mid, hgs⟩ | ⟨hgs, -, -⟩ | ⟨mid, hgs⟩
  · have hlen := congrArg length hgs
    rw [length_append, length_cons] at hlen
    omega
  · have hsame : first.1 = last.1 := by rw [hfirst, hlast, hgs]
    have hlt := hle.2 hsame
    rw [hgs]
    omega
  · simp only [hgs, flatMap_append, flatMap_cons, length_append]
    omega

end At

theorem mapM_slots {X Y : Type} {F : ℕ → Option Y} {G : X → Y} (xs mid zs : List X)
    (hF : ∀ i x, xs.length ≤ i → i < xs.length + mid.length →
      (xs ++ (mid ++ zs))[i]? = some x → x ∈ mid → F i = some (G x)) :
    (List.range' xs.length mid.length).mapM F = some (mid.map G) := by
  induction mid generalizing xs with
  | nil => rfl
  | cons x mid ih =>
    have hhead : F xs.length = some (G x) :=
      hF _ x le_rfl (by simp) (by simp) mem_cons_self
    have htail := ih (xs ++ [x]) fun i y hge hlt hget hy => by
      rw [length_append, length_singleton] at hge hlt
      refine hF i y (by omega) (by rw [length_cons]; omega) ?_ (mem_cons_of_mem _ hy)
      rwa [append_assoc, singleton_append] at hget
    rw [length_append, length_singleton] at htail
    rw [length_cons, List.range'_succ, mapM_cons, hhead, htail]
    rfl

/-- What a range walks over. -/
def pieces (root : Root K V) (first last : ℕ × ℕ) : Option (List (Group K V)) :=
  (List.range' first.1 (last.1 + 1 - first.1)).mapM fun g => do
    let group := (← root[g]?).2
    let start := if g = first.1 then first.2 else 0
    let stop := if g = last.1 then last.2 else group.length - 1
    slice group start stop

/-- A range walks over the partitions from its first place to its last. -/
theorem pieces_ok {root : Root K V} (hne : ∀ slot ∈ root, slot.2 ≠ []) {first last : ℕ × ℕ}
    (a : At root first) (b : At root last)
    (hle : first.1 < last.1 ∨ first.1 = last.1 ∧ first.2 ≤ last.2) :
    ∃ parts, pieces root first last = some parts ∧
      parts.flatten = ((root.flatMap snd).take (b.index + 1)).drop a.index := by
  have hfirst := a.group_at
  have hlast := b.group_at
  have hroot := a.get_root
  have hroot' := b.get_root
  have hpart := a.part_lt
  have hpart' := b.part_lt
  rw [b.take_succ, At.index, pieces]
  rcases a.compare b with ⟨mid, hgs⟩ | ⟨hgs, hgroup, -⟩ | ⟨mid, hgs⟩
  · -- Later groups: the rest of the first, those between whole, the start of the last.
    have hlen := congrArg length hgs
    rw [length_append, length_cons] at hlen
    have hsteps : List.range' first.1 (last.1 + 1 - first.1) =
        [first.1] ++ (List.range' (a.gs ++ [(a.least, a.group)]).length mid.length ++
          [last.1]) := by
      have hcount : last.1 + 1 - first.1 = 1 + (mid.length + 1) := by omega
      rw [hcount, ← List.range'_append_1, ← List.range'_append_1, length_append, length_singleton,
        ← hfirst]
      have hend : first.1 + 1 + mid.length = last.1 := by omega
      rw [hend]
      rfl
    have hroot_eq : root = (a.gs ++ [(a.least, a.group)]) ++
      (mid ++ (b.least, b.group) :: b.gs') := by
      conv_lhs => rw [b.root_eq, hgs]
      simp only [append_assoc, cons_append, nil_append]
    have hmid := mapM_slots (F := fun g => do
        let group := (← root[g]?).2
        let start := if g = first.1 then first.2 else 0
        let stop := if g = last.1 then last.2 else group.length - 1
        slice group start stop) (G := snd) (a.gs ++ [(a.least, a.group)]) mid
        ((b.least, b.group) :: b.gs') fun i slot hge hlt hget hmem => by
      rw [length_append, length_singleton] at hge hlt
      have hsome : slot.2 ≠ [] := hne slot (by
        rw [hroot_eq]
        exact mem_append_right _ (mem_append_left _ hmem))
      have hpos := length_pos_of_ne_nil hsome
      rw [← hroot_eq] at hget
      have hnot : i ≠ first.1 := by omega
      have hnot' : i ≠ last.1 := by omega
      simp only [hget, bind_eq_bind, bind_some, if_neg hnot, if_neg hnot']
      rw [slice, if_pos ⟨by omega, by omega⟩, Nat.sub_add_cancel hpos, take_length, drop_zero]
    refine ⟨[a.group.drop first.2] ++ (mid.map snd ++ [b.group.take (last.2 + 1)]), ?_, ?_⟩
    · have hnot : first.1 ≠ last.1 := by omega
      rw [hsteps, mapM_append, mapM_append, hmid]
      simp only [mapM_cons, mapM_nil, hroot, hroot', bind_eq_bind, bind_some, if_true,
        if_neg hnot, if_neg hnot.symm]
      rw [slice, if_pos ⟨by omega, by omega⟩, slice, if_pos ⟨by omega, by omega⟩,
        Nat.sub_add_cancel (by omega : 1 ≤ a.group.length), take_length, drop_zero]
      rfl
    · rw [hgs, flatMap_append, flatMap_cons, append_assoc, drop_length_add_append, append_assoc,
        drop_append_of_le_length hpart.le]
      simp only [flatten_append, flatten_cons, flatten_nil, append_nil, flatMap_def]
  · -- The same group.
    have hsame : first.1 = last.1 := by rw [hfirst, hlast, hgs]
    have hcount : last.1 + 1 - first.1 = 1 := by omega
    have hparts : first.2 ≤ last.2 := by omega
    refine ⟨[(b.group.take (last.2 + 1)).drop first.2], ?_, ?_⟩
    · rw [hcount, List.range'_one, mapM_cons, mapM_nil, hroot]
      simp only [bind_eq_bind, bind_some, if_true, if_pos hsame]
      rw [slice, hgroup, if_pos ⟨by omega, by omega⟩]
      rfl
    · rw [hgs, drop_length_add_append, flatten_singleton]
  · have hlen := congrArg length hgs
    rw [length_append, length_cons] at hlen
    omega

theorem first_at {root : Root K V} (hsome : ∀ slot ∈ root, slot.2 ≠ []) (hne : root ≠ []) :
    ∃ a : At root (0, 0), a.index = 0 := by
  cases root with
  | nil => exact absurd rfl hne
  | cons slot root =>
    exact ⟨⟨[], slot.1, slot.2, root, rfl, rfl, length_pos_of_ne_nil (hsome slot mem_cons_self)⟩,
      rfl⟩

theorem last_at {root : Root K V} (hsome : ∀ slot ∈ root, slot.2 ≠ []) (hne : root ≠ []) :
    ∃ slot, root[root.length - 1]? = some slot ∧ ∃ a : At root (root.length - 1, slot.2.length - 1),
        (root.flatMap snd).drop (a.index + 1) = [] := by
  obtain ⟨gs, slot, rfl⟩ := eq_nil_or_concat' root |>.resolve_left hne
  have hpos := length_pos_of_ne_nil (hsome slot (mem_append_right _ mem_cons_self))
  have hlen : (gs ++ [slot]).length - 1 = gs.length := by simp
  let a : At (gs ++ [slot]) ((gs ++ [slot]).length - 1, slot.2.length - 1) :=
    ⟨gs, slot.1, slot.2, [], rfl, hlen, Nat.sub_lt hpos Nat.one_pos⟩
  refine ⟨slot, by rw [hlen, getElem?_mid], a, ?_⟩
  rw [a.drop_succ, Nat.sub_add_cancel hpos, drop_length]
  rfl

/-- Of partitions, those between two cuts hold all that passes a test. -/
theorem filter_between {parts : Group K V} {q : K × V → Bool} {n n' : ℕ}
    (hbefore : ∀ e ∈ flat (parts.take n), q e = false)
    (hafter : ∀ e ∈ flat (parts.drop n'), q e = false) :
    (flat parts).filter q = ((parts.take n').drop n).flatMap fun part => part.2.filter q := by
  have hnone : ∀ group : Group K V, (∀ e ∈ flat group, q e = false) → (flat group).filter q = [] :=
    fun group hout => filter_eq_nil_iff.mpr fun e he => by
      rw [hout e he]
      exact Bool.false_ne_true
  have hstart : ∀ e ∈ flat ((parts.take n').take n), q e = false := by
    intro e he
    rw [take_take, min_comm, ← take_take] at he
    obtain ⟨part, hpart, he⟩ := mem_flatMap.mp he
    exact hbefore e (mem_flatMap.mpr ⟨part, mem_of_mem_take hpart, he⟩)
  have hparts : flat parts = flat ((parts.take n').take n) ++
      (flat ((parts.take n').drop n) ++ flat (parts.drop n')) := by
    rw [← flat_append, ← flat_append, ← append_assoc, take_append_drop, take_append_drop]
  rw [hparts, filter_append, filter_append, hnone _ hstart, hnone _ hafter, nil_append, append_nil,
    flat, filter_flatMap]

end CowOrdMap

variable [LinearOrder K] {key : K}

/-! ### Bounds -/

/-- Whether an entry is within bounds. -/
def within (lower upper : Bound K) (e : K × V) : Bool := lower.below e.1 && upper.above e.1

/-- Of ascending entries, those before the partition point of a test that no larger key
passes again. -/
theorem partitionPoint_sorted {es : List (K × V)} (h : SortedMap.Sorted es) {p : K → Bool}
    (hp : ∀ a b, a < b → p b = true → p a = true) :
    ∃ as bs, es = as ++ bs ∧ partitionPoint (fun e => p e.1) es = as.length ∧
      (∀ e ∈ as, p e.1 = true) ∧ ∀ e ∈ bs, p e.1 = false := by
  obtain ⟨as, bs, hl, hpos, has, hbs⟩ := partitionPoint_split (fun e : K × V => p e.1) es
  refine ⟨as, bs, hl, hpos.symm, has, fun e he => ?_⟩
  rw [hl] at h
  have hright := (pairwise_append.mp h).2.1
  cases bs with
  | nil => cases he
  | cons b bs =>
    have hfirst : p b.1 = false := hbs b rfl
    rcases mem_cons.mp he with rfl | he
    · exact hfirst
    · have hlt := (pairwise_cons.mp hright).1 e he
      refine Bool.eq_false_iff.mpr fun hpass => ?_
      rw [hp b.1 e.1 hlt hpass] at hfirst
      cases hfirst

theorem below_mono (lower : Bound K) (a b : K) (h : a < b) (hb : (!lower.below b) = true) :
    (!lower.below a) = true := by
  cases lower with
  | included l =>
    simp only [Bound.below, Bool.not_eq_true', decide_eq_false_iff_not, not_le] at hb ⊢
    exact h.trans hb
  | excluded l =>
    simp only [Bound.below, Bool.not_eq_true', decide_eq_false_iff_not, not_lt] at hb ⊢
    exact h.le.trans hb
  | unbounded => exact hb

theorem above_mono (upper : Bound K) (a b : K) (h : a < b) (hb : upper.above b = true) :
    upper.above a = true := by
  cases upper with
  | included u => exact decide_eq_true (h.le.trans (of_decide_eq_true hb))
  | excluded u => exact decide_eq_true (h.trans (of_decide_eq_true hb))
  | unbounded => rfl

namespace SortedPart

/-- The ends of a range are partition points. -/
theorem range_points (part : SortedPart K V) (lower upper : Bound K) : range part lower upper =
      (part.take (max (partitionPoint (fun e => upper.above e.1) part)
        (partitionPoint (fun e => !lower.below e.1) part))).drop
        (partitionPoint (fun e => !lower.below e.1) part) := by
  have hall : partitionPoint (fun _ : K × V => true) part = part.length := by
    rw [partitionPoint, takeWhile_eq_self_iff.mpr fun _ _ => rfl]
  have hnone : partitionPoint (fun _ : K × V => false) part = 0 := by
    rw [partitionPoint, takeWhile_eq_nil_iff.mpr fun _ => Bool.false_ne_true, length_nil]
  rw [range.eq_def]
  cases lower <;> cases upper <;>
    simp only [Bound.below, Bound.above, ← decide_not, not_le, not_lt, Bool.not_true, hall, hnone]

/-- A range of a partition is the entries within its bounds. -/
theorem range_eq {part : SortedPart K V} (h : SortedMap.Sorted part) (lower upper : Bound K) :
    range part lower upper = part.filter (within lower upper) := by
  obtain ⟨as, cs, hl, hstart, has, hcs⟩ := partitionPoint_sorted h (below_mono lower)
  obtain ⟨as', cs', hl', hstop, has', hcs'⟩ := partitionPoint_sorted h (above_mono upper)
  rw [range_points, hstart, hstop, drop_take]
  have hlen : max as'.length as.length - as.length = as'.length - as.length := by omega
  have hdrop : part.drop as.length = cs := by rw [hl, drop_left]
  have hkept : ∀ e ∈ cs.take (as'.length - as.length), upper.above e.1 = true := by
    intro e he
    rw [← hdrop, ← drop_take, hl', take_left] at he
    exact has' e (mem_of_mem_drop he)
  have hcut : ∀ e ∈ cs.drop (as'.length - as.length), upper.above e.1 = false := by
    intro e he
    have hmem : e ∈ (part.drop as'.length).drop (as.length - as'.length) := by
      rw [← hdrop, drop_drop] at he
      rw [drop_drop]
      have hsame : as'.length + (as.length - as'.length) =
          as.length + (as'.length - as.length) := by omega
      rwa [hsame]
    rw [hl', drop_left] at hmem
    exact hcs' e (mem_of_mem_drop hmem)
  have hleft : as.filter (within lower upper) = [] := filter_eq_nil_iff.mpr fun e he hin => by
    have hout := has e he
    rw [Bool.not_eq_true'] at hout
    rw [within, hout] at hin
    cases hin
  have hright : cs.filter (within lower upper) = cs.take (as'.length - as.length) := by
    have hcut' : (cs.drop (as'.length - as.length)).filter (within lower upper) = [] :=
      filter_eq_nil_iff.mpr fun e he hin => by
        rw [within, hcut e he, Bool.and_false] at hin
        cases hin
    have hkept' : (cs.take (as'.length - as.length)).filter (within lower upper) =
        cs.take (as'.length - as.length) :=
      filter_eq_self.mpr fun e he => by
        have hin := hcs e (mem_of_mem_take he)
        rw [Bool.not_eq_false'] at hin
        rw [within, hin, hkept e he, Bool.and_true]
    conv_lhs => rw [← take_append_drop (as'.length - as.length) cs]
    rw [filter_append, hkept', hcut', append_nil]
  rw [hlen, hdrop, hl, filter_append, hleft, nil_append, hright]

end SortedPart

theorem RootOk.groups_ne_nil {root : Root K V} (h : RootOk root) : ∀ slot ∈ root, slot.2 ≠ [] := by
  intro slot hslot hnil
  refine Smallest.ne_nil (h.groups slot hslot) ?_
  rw [hnil]
  rfl

theorem RootOk.part_sorted {root : Root K V} (h : RootOk root) {part : K × SortedPart K V}
    (hpart : part ∈ root.flatMap snd) : SortedMap.Sorted part.2 := by
  have hsorted := h.sorted
  obtain ⟨xs, ys, hparts⟩ := append_of_mem hpart
  rw [← flat_flatMap, hparts, flat_append, flat_cons] at hsorted
  exact (pairwise_append.mp (pairwise_append.mp hsorted).2.1).1

namespace CowOrdMap

variable {m : CowOrdMap K V}

theorem floor_ok (h : RootOk m.groups) (key : K) : m.floor key =
    some ((entriesOf m.groups).filter fun e => decide (e.1 ≤ key)).getLast? := by
  rw [floor]
  rcases eq_or_ne m.groups [] with hnil | hne
  · rw [hnil]
    rfl
  obtain ⟨p⟩ := h.place hne key
  have hfalse : m.groups.isEmpty = false := isEmpty_eq_false_iff.mpr hne
  have hle : ∀ a b : K, a < b → decide (b ≤ key) = true → decide (a ≤ key) = true :=
    fun a b hlt hb => decide_eq_true (hlt.le.trans (of_decide_eq_true hb))
  obtain ⟨as, bs, hpart, hpos, has, hbs⟩ := partitionPoint_sorted (p.part_sorted h) hle
  have hfilter : (entriesOf m.groups).filter (fun e => decide (e.1 ≤ key)) = p.before ++ as := by
    have hbefore : p.before.filter (fun e => decide (e.1 ≤ key)) = p.before :=
      filter_eq_self.mpr fun e he => decide_eq_true (p.below e he).le
    have hbehind : p.behind.filter (fun e => decide (e.1 ≤ key)) = [] :=
      filter_eq_nil_iff.mpr fun e he hle =>
        absurd (of_decide_eq_true hle) (not_le.mpr (p.above e he))
    have hbs' : bs.filter (fun e => decide (e.1 ≤ key)) = [] :=
      filter_eq_nil_iff.mpr fun e he => by rw [hbs e he]; exact Bool.false_ne_true
    rw [p.entries, hpart, filter_append, filter_append, filter_append, hbefore, hbehind, hbs',
      filter_eq_self.mpr has, append_nil, append_nil]
  simp only [hfalse, Bool.false_eq_true, if_false, locate_place p, partAt_place p,
    bind_eq_bind, bind_some, hpos]
  rw [hfilter]
  rcases eq_nil_or_concat' as with rfl | ⟨as, e, rfl⟩
  · -- Nothing in the partition, and then nothing before it.
    have hnone : p.before = [] := by
      by_contra hsome
      obtain ⟨e, he⟩ := exists_mem_of_ne_nil _ hsome
      have hgroupMin : p.groupMin ≤ key := by
        rcases p.group_least with hleast | hgs
        · exact hleast
        · rw [Place.before, hgs] at he
          have hmem : e ∈ flat p.ps ++ (p.part ++ flat p.ps') := mem_append_left _ he
          exact ((p.group_smallest h).2 e hmem).trans (p.below e (by
            rw [hgs]
            exact he)).le
      obtain ⟨⟨e', he', hkey⟩, -⟩ := (p.parts_true h).2.1
      have hgt := hbs e' (by rwa [hpart, nil_append] at he')
      rw [hkey] at hgt
      exact absurd (p.part_least hgroupMin) (of_decide_eq_false hgt)
    rw [hnone]
    rfl
  · have hlen : (as ++ [e]).length - 1 = as.length := by simp
    rw [if_neg (by simp), ← append_assoc, getLast?_concat, hlen, hpart, append_assoc,
      singleton_append, getElem?_mid]
    rfl

/-! ### Ranges -/

theorem place_at {root : Root K V} (p : Place root key) : ∃ a : At root (p.gs.length, p.ps.length),
      (∀ e ∈ flat ((root.flatMap snd).take a.index), e.1 < key) ∧
        ∀ e ∈ flat ((root.flatMap snd).drop (a.index + 1)), key < e.1 := by
  let a : At root (p.gs.length, p.ps.length) :=
    ⟨p.gs, p.groupMin, p.ps ++ (p.partMin, p.part) :: p.ps', p.gs', p.root_eq, rfl, by simp⟩
  have hdrop : (p.ps ++ (p.partMin, p.part) :: p.ps').drop (p.ps.length + 1) = p.ps' := by
    rw [drop_length_add_append]
    rfl
  refine ⟨a, fun e he => p.below e ?_, fun e he => p.above e ?_⟩
  · rw [a.take_index, flat_append, flat_flatMap] at he
    simpa only [a, take_left] using he
  · rw [a.drop_succ, flat_append, flat_flatMap] at he
    simpa only [a, hdrop] using he

/-- What a range reads, from the places it spans. -/
theorem range_of_span (h : RootOk m.groups) {lower upper : Bound K} {first last : ℕ × ℕ}
    (a : At m.groups first) (b : At m.groups last)
    (hspan : m.span lower upper = some (if decide (first.1 < last.1) ||
      decide (first.1 = last.1 ∧ first.2 ≤ last.2) then some (first, last) else none))
    (hlower : ∀ e ∈ flat ((m.groups.flatMap snd).take a.index), lower.below e.1 = false)
    (hupper : ∀ e ∈ flat ((m.groups.flatMap snd).drop (b.index + 1)),
      upper.above e.1 = false) :
    m.range lower upper = some ((entriesOf m.groups).filter (within lower upper)) := by
  have hfilter := filter_between (q := within lower upper)
    (fun e he => by rw [within, hlower e he, Bool.false_and])
    (fun e he => by rw [within, hupper e he, Bool.and_false])
  rw [flat_flatMap] at hfilter
  rw [hfilter, range, hspan]
  by_cases hle : first.1 < last.1 ∨ first.1 = last.1 ∧ first.2 ≤ last.2
  · obtain ⟨parts, hpieces, hflatten⟩ := pieces_ok h.groups_ne_nil a b hle
    rw [pieces] at hpieces
    have htest : (decide (first.1 < last.1) || decide (first.1 = last.1 ∧ first.2 ≤ last.2)) =
      true := by
      rw [Bool.or_eq_true, decide_eq_true_eq, decide_eq_true_eq]
      exact hle
    rw [if_pos htest]
    simp only [bind_eq_bind, bind_some] at hpieces ⊢
    rw [hpieces, bind_some, hflatten]
    refine congrArg some (flatMap_congr fun part hpart => ?_)
    exact SortedPart.range_eq (h.part_sorted (mem_of_mem_take (mem_of_mem_drop hpart))) lower upper
  · have htest : ¬(decide (first.1 < last.1) ||
        decide (first.1 = last.1 ∧ first.2 ≤ last.2)) = true := by
      rw [Bool.or_eq_true, decide_eq_true_eq, decide_eq_true_eq]
      exact hle
    rw [if_neg htest, drop_eq_nil_of_le]
    · rfl
    · rw [length_take]
      exact (min_le_left _ _).trans (a.index_lt b hle)

/-- Before where a lower bound would be, nothing is in range. -/
theorem firstPlace_ok (h : RootOk m.groups) (hne : m.groups ≠ []) (lower : Bound K) :
    ∃ first, m.firstPlace lower = some first ∧ ∃ a : At m.groups first,
      ∀ e ∈ flat ((m.groups.flatMap snd).take a.index), lower.below e.1 = false := by
  cases lower with
  | included k =>
    obtain ⟨p⟩ := h.place hne k
    obtain ⟨a, hbelow, -⟩ := place_at p
    exact ⟨_, locate_place p, a, fun e he => decide_eq_false (not_le.mpr (hbelow e he))⟩
  | excluded k =>
    obtain ⟨p⟩ := h.place hne k
    obtain ⟨a, hbelow, -⟩ := place_at p
    exact ⟨_, locate_place p, a, fun e he => decide_eq_false (hbelow e he).asymm⟩
  | unbounded =>
    obtain ⟨a, hindex⟩ := first_at h.groups_ne_nil hne
    refine ⟨_, rfl, a, fun e he => ?_⟩
    rw [hindex] at he
    cases he

/-- Behind where an upper bound would be, nothing is in range. -/
theorem lastPlace_ok (h : RootOk m.groups) (hne : m.groups ≠ []) (upper : Bound K) :
    ∃ last, m.lastPlace upper = some last ∧ ∃ b : At m.groups last,
      ∀ e ∈ flat ((m.groups.flatMap snd).drop (b.index + 1)), upper.above e.1 = false := by
  cases upper with
  | included k =>
    obtain ⟨p⟩ := h.place hne k
    obtain ⟨b, -, habove⟩ := place_at p
    exact ⟨_, locate_place p, b, fun e he => decide_eq_false (not_le.mpr (habove e he))⟩
  | excluded k =>
    obtain ⟨p⟩ := h.place hne k
    obtain ⟨b, -, habove⟩ := place_at p
    exact ⟨_, locate_place p, b, fun e he => decide_eq_false (habove e he).asymm⟩
  | unbounded =>
    obtain ⟨slot, hslot, b, hdrop⟩ := last_at h.groups_ne_nil hne
    refine ⟨_, ?_, b, fun e he => ?_⟩
    · rw [lastPlace, hslot]
      rfl
    · rw [hdrop] at he
      cases he

/-- Bounds the wrong way round leave nothing between them. -/
theorem inverted_empty {lower upper : Bound K} (hinv : inverted lower upper = true) (k : K) :
    (lower.below k && upper.above k) = false := by
  refine Bool.eq_false_iff.mpr fun hin => ?_
  rw [Bool.and_eq_true] at hin
  cases lower <;> cases upper <;>
    simp only [inverted, Bool.false_eq_true, decide_eq_true_eq, Bound.below,
      Bound.above] at hinv hin
  · exact absurd (hin.1.trans hin.2) (not_le.mpr hinv)
  · exact absurd (hin.1.trans_lt hin.2) (not_lt.mpr hinv)
  · exact absurd (hin.1.trans_le hin.2) (not_lt.mpr hinv)
  · exact absurd (hin.1.trans hin.2) (not_lt.mpr hinv)

/-- A range is the entries within its bounds. -/
theorem range_ok (h : RootOk m.groups) (lower upper : Bound K) :
    m.range lower upper = some ((entriesOf m.groups).filter (within lower upper)) := by
  by_cases hinv : inverted lower upper = true
  · have hnone : (entriesOf m.groups).filter (within lower upper) = [] :=
      filter_eq_nil_iff.mpr fun e _ => by
        rw [within, inverted_empty hinv]
        exact Bool.false_ne_true
    rw [range, span, hinv, hnone]
    rfl
  rcases eq_or_ne m.groups [] with hnil | hne
  · rw [range, span, hnil, isEmpty_nil, Bool.or_true]
    rfl
  have hguard : (inverted lower upper || m.groups.isEmpty) = false := by
    rw [Bool.eq_false_iff.mpr hinv, isEmpty_eq_false_iff.mpr hne]
    rfl
  obtain ⟨first, hfirst, a, hlower⟩ := firstPlace_ok h hne lower
  obtain ⟨last, hlast, b, hupper⟩ := lastPlace_ok h hne upper
  refine range_of_span h a b ?_ hlower hupper
  rw [span, hguard, hfirst, hlast]
  rfl

end CowOrdMap

end OrdMap

end LoraDb
