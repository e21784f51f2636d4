import LoraDb.IdBitmapSound

/-!
# Runs of Id Bitmaps

Bitmaps are made empty, cloned, read and written. Whatever the order, they answer as **finite
sets** do, and each block stays in the form its size calls for.

## Main results

* `IdBitmapIter.pulls_eq`, `iterFrom_left`: what an iterator yields.
* `idBitmap_refines`: a run.
-/

open Option (any_some bind_eq_bind bind_some elim_some)
open List SortedRuns Handles

namespace LoraDb

namespace Bitmap

variable {id : ℕ}

/-! ### Ids -/

theorem split_spec (id : ℕ) : (split id).1 * 2 ^ 16 + (split id).2.val = id := by
  rw [split, BLOCK_SHIFT, Nat.shiftRight_eq_div_pow]
  exact Nat.div_add_mod' id (2 ^ 16)

/-- The id of some low bits in a block. -/
def idOf (high : ℕ) (low : Low) : ℕ := high * 2 ^ 16 + low.val

theorem idOf_inj {high high' : ℕ} {low low' : Low} :
    idOf high low = idOf high' low' ↔ high = high' ∧ low = low' := by
  rw [idOf, idOf, Fin.ext_iff]
  omega

theorem idOf_lt {high high' : ℕ} (low low' : Low) (h : high < high') :
    idOf high low < idOf high' low' := by
  rw [idOf, idOf]
  omega

theorem shift_or (high : ℕ) (low : Low) : high <<< BLOCK_SHIFT ||| low.val = idOf high low := by
  rw [BLOCK_SHIFT, ← Nat.shiftLeft_add_eq_or_of_lt low.isLt, Nat.shiftLeft_eq, idOf]

/-- The ids of an entry, ascending. -/
def Entry.ids (e : Entry) : List ℕ := e.block.lows.map (idOf e.high)

def idsOf (blocks : List Entry) : List ℕ := blocks.flatMap Entry.ids

variable {blocks : List Entry}

theorem mem_idsOf : id ∈ idsOf blocks ↔
    ∃ e ∈ blocks, e.high = (split id).1 ∧ (split id).2 ∈ e.block.lows := by
  have hid : ∀ e : Entry, id ∈ e.ids ↔ e.high = (split id).1 ∧ (split id).2 ∈ e.block.lows := by
    intro e
    have hsplit : idOf (split id).1 (split id).2 = id := split_spec id
    rw [Entry.ids, mem_map]
    constructor
    · rintro ⟨low, hlow, heq⟩
      obtain ⟨hhigh, rfl⟩ := idOf_inj.mp (heq.trans hsplit.symm)
      exact ⟨hhigh, hlow⟩
    · rintro ⟨hhigh, hlow⟩
      exact ⟨_, hlow, hhigh ▸ hsplit⟩
  rw [idsOf, mem_flatMap]
  exact exists_congr fun e => and_congr_right fun _ => hid e

/-- Entries in order, none of them empty, each counted and in the form its size calls for. -/
structure BlocksOk (blocks : List Entry) : Prop where
  highs : Ascends Entry.high blocks
  entries : ∀ e ∈ blocks, e.block.Ok e.count
  full : ∀ e ∈ blocks, e.block.lows ≠ []

theorem BlocksOk.ascending (h : BlocksOk blocks) : (idsOf blocks).Pairwise (· < ·) := by
  refine pairwise_flatMap.mpr ⟨fun e he => ?_, h.highs.imp fun hlt x hx y hy => ?_⟩
  · rw [Entry.ids, pairwise_map]
    refine (h.entries e he).ascending.imp fun hlt => ?_
    rw [idOf, idOf]
    rw [Fin.lt_def] at hlt
    omega
  · obtain ⟨low, -, rfl⟩ := mem_map.mp hx
    obtain ⟨low', -, rfl⟩ := mem_map.mp hy
    exact idOf_lt low low' hlt

/-! ### The iterator -/

namespace IdBitmapIter

variable {it : IdBitmapIter}

/-- The ids left, `high` being the high bits of the open block. -/
def left (high : ℕ) (it : IdBitmapIter) : List ℕ :=
  it.block.elim [] (fun block => block.left.map (idOf high)) ++ idsOf it.rest

/-- The high bits of the open block. -/
structure At (high : ℕ) (it : IdBitmapIter) : Prop where
  base : it.base = high <<< BLOCK_SHIFT
  rest : ∀ e ∈ it.rest, e.block.lows.Pairwise (· < ·)
  through : it.block = none → it.rest = []

theorem next_spec {high : ℕ} (h : it.At high) : ∃ high', it.next.2.At high' ∧
    it.next.1 = (it.left high).head? ∧ it.next.2.left high' = (it.left high).tail := by
  fun_induction next it generalizing high with
  | case1 it hblock =>
    have hnil : it.left high = [] := by
      rw [left, hblock, h.through hblock]
      rfl
    exact ⟨high, h, by rw [hnil]; rfl, by rw [hnil]; rfl⟩
  | case2 it block hblock low block' hnext =>
    rcases BlockIter.next_spec block with ⟨-, hnone⟩ | ⟨low', it', hsome, hleft⟩
    · rw [hnone] at hnext
      cases hnext
    · rw [hsome] at hnext
      obtain ⟨rfl, rfl⟩ := Prod.mk.inj (Option.some.inj hnext)
      have hall : it.left high = idOf high low' :: (it'.left.map (idOf high) ++ idsOf it.rest) := by
        rw [left, hblock, elim_some, hleft, map_cons, cons_append]
      refine ⟨high, ⟨h.base, h.rest, fun heq => by cases heq⟩, ?_, ?_⟩
      · rw [hall, h.base, shift_or]
        rfl
      · rw [hall]
        rfl
  | case3 it block hblock hnext hrest =>
    rcases BlockIter.next_spec block with ⟨hleft, -⟩ | ⟨low', it', hsome, -⟩
    · have hnil : it.left high = [] := by
        rw [left, hblock, elim_some, hleft, hrest]
        rfl
      refine ⟨0, ⟨rfl, fun e he => absurd he not_mem_nil, fun _ => rfl⟩, by rw [hnil]; rfl, ?_⟩
      rw [hnil]
      rfl
    · rw [hsome] at hnext
      cases hnext
  | case4 it block hblock hnext entry rest hrest ih =>
    rcases BlockIter.next_spec block with ⟨hleft, -⟩ | ⟨low', it', hsome, -⟩
    · have hasc := h.rest entry (hrest ▸ mem_cons_self)
      have hsame : left entry.high ⟨rest, entry.high <<< BLOCK_SHIFT,
          some (.new entry.block 0)⟩ = it.left high := by
        rw [left, left, hblock, elim_some, elim_some, hleft, hrest,
          BlockIter.new_left hasc, filter_eq_self.mpr fun l _ => decide_eq_true (Fin.zero_le l),
          map_nil, nil_append, idsOf, idsOf, flatMap_cons, Entry.ids]
      rw [← hsame]
      exact ih ⟨rfl, fun e he => h.rest e (hrest ▸ mem_cons_of_mem _ he),
        fun heq => by cases heq⟩
    · rw [hsome] at hnext
      cases hnext

/-- The calls yield the ids left, one after the other, and then nothing. -/
theorem pulls_eq {high : ℕ} (h : it.At high) (n : ℕ) :
    it.pulls n = (range n).map fun i => (it.left high)[i]? := by
  induction n generalizing it high with
  | zero => rfl
  | succ n ih =>
    obtain ⟨high', hat, hhead, htail⟩ := next_spec h
    rw [pulls, ih hat, htail, hhead, range_succ_eq_map, map_cons, map_map]
    refine congrArg₂ cons (by rw [head?_eq_getElem?]) (map_congr_left fun i _ => ?_)
    rw [getElem?_tail]
    rfl

end IdBitmapIter

section From

variable {start high : ℕ} {low : Low} (hstart : idOf high low = start)
include hstart

/-- An entry that is not before the start. -/
theorem ids_filter {e : Entry} (he : high ≤ e.high) : e.ids.filter (fun id => decide (start ≤ id)) =
      (e.block.lows.filter fun l => decide ((if e.high = high then low else 0) ≤ l)).map
        (idOf e.high) := by
  rw [Entry.ids, filter_map]
  refine congrArg (map (idOf e.high)) (filter_congr fun l _ => ?_)
  have hiff : start ≤ idOf e.high l ↔ (if e.high = high then low else 0) ≤ l := by
    rw [← hstart]
    split_ifs with heq
    · rw [heq, idOf, idOf, Fin.le_def]
      omega
    · exact iff_of_true (idOf_lt low l (lt_of_le_of_ne he (Ne.symm heq))).le (Fin.zero_le l)
  simp only [Function.comp_apply, hiff]

theorem idsOf_before {blocks : List Entry} (h : ∀ e ∈ blocks, e.high < high) :
    (idsOf blocks).filter (fun id => decide (start ≤ id)) = [] := by
  refine filter_eq_nil_iff.mpr fun id hid hle => ?_
  obtain ⟨e, he, hid⟩ := mem_flatMap.mp hid
  obtain ⟨l, -, rfl⟩ := mem_map.mp hid
  have hlt := idOf_lt l low (h e he)
  exact absurd (of_decide_eq_true hle) (not_le.mpr (hlt.trans_eq hstart))

theorem idsOf_behind {blocks : List Entry} (h : ∀ e ∈ blocks, high < e.high) :
    (idsOf blocks).filter (fun id => decide (start ≤ id)) = idsOf blocks := by
  refine filter_eq_self.mpr fun id hid => decide_eq_true ?_
  obtain ⟨e, he, hid⟩ := mem_flatMap.mp hid
  obtain ⟨l, -, rfl⟩ := mem_map.mp hid
  exact hstart ▸ (idOf_lt low l (h e he)).le

end From

/-- From some id on, a bitmap has the ids not below it. -/
theorem iterFrom_left {m : IdBitmap} (h : BlocksOk m.blocks) (start : ℕ) :
    ∃ high, (m.iterFrom start).At high ∧
      (m.iterFrom start).left high = (idsOf m.blocks).filter fun id => decide (start ≤ id) := by
  have hstart : idOf (split start).1 (split start).2 = start := split_spec start
  rw [IdBitmap.iterFrom]
  generalize split start = parts at hstart ⊢
  obtain ⟨high, low⟩ := parts
  simp only at hstart ⊢
  obtain ⟨as, bs, hblocks, hpos, has, hbs⟩ :=
    partitionPoint_split (fun e : Entry => decide (e.high < high)) m.blocks
  have hbefore := idsOf_before hstart fun e he => of_decide_eq_true (has e he)
  rw [← hpos, hblocks, drop_left, idsOf, flatMap_append, filter_append]
  rw [idsOf] at hbefore
  rw [hbefore, nil_append]
  cases bs with
  | nil => exact ⟨0, ⟨rfl, fun e he => absurd he not_mem_nil, fun _ => rfl⟩, rfl⟩
  | cons first rest =>
    have hfirst : high ≤ first.high := not_lt.mp (of_decide_eq_false (hbs first rfl))
    have hhighs := (pairwise_append.mp (hblocks ▸ h.highs)).2.1
    have hbehind := idsOf_behind hstart fun e he =>
      hfirst.trans_lt ((pairwise_cons.mp hhighs).1 e he)
    have hasc : ∀ e ∈ first :: rest, e.block.lows.Pairwise (· < ·) := fun e he =>
      (h.entries e (hblocks ▸ mem_append_right _ he)).ascending
    refine ⟨first.high, ⟨rfl, fun e he => hasc e (mem_cons_of_mem _ he),
      fun heq => by cases heq⟩, ?_⟩
    rw [IdBitmapIter.left, elim_some, BlockIter.new_left (hasc first mem_cons_self),
      flatMap_cons, filter_append, ids_filter hstart hfirst]
    exact congrArg (_ ++ ·) hbehind.symm

/-! ### Writes -/

/-- A bitmap that is a finite set. -/
structure Refines (m : IdBitmap) (a : Finset ℕ) : Prop where
  blocks : BlocksOk m.blocks
  ids : idsOf m.blocks = a.sort
  len : m.len = a.card

theorem contains_eq {e : Entry} (h : e.block.lows.Pairwise (· < ·)) (low : Low) :
    e.contains low = decide (low ∈ e.block.lows) := by
  obtain ⟨high, count, block⟩ := e
  rw [Entry.contains]
  cases block with
  | array lows =>
    have hasc : Ascends (fun l => l) lows := h
    have hfinds := search_finds low hasc
    simp only [Block.lows]
    split_ifs with hlast
    · refine (decide_eq_false fun hlow => ?_).symm
      obtain ⟨ls, last, rfl⟩ := (eq_nil_or_concat' lows).resolve_left (ne_nil_of_mem hlow)
      rw [getLast?_concat, any_some] at hlast
      have hlt := of_decide_eq_true hlast
      rcases mem_append.mp hlow with hlow | hlow
      · exact lt_asymm hlt ((pairwise_append.mp hasc).2.2 low hlow last (mem_singleton.mpr rfl))
      · exact absurd hlt (mem_singleton.mp hlow ▸ lt_irrefl _)
    · rw [binarySearch]
      generalize search (fun l => l) low lows = out at hfinds ⊢
      cases hfinds with
      | @here as bs l hl hkey has hbs =>
        obtain rfl : l = low := hkey
        exact (decide_eq_true (hl ▸ mem_append_right _ mem_cons_self)).symm
      | @absent as bs hl has hbs =>
        refine (decide_eq_false fun hlow => ?_).symm
        rw [hl] at hlow
        rcases mem_append.mp hlow with hlow | hlow
        · exact lt_irrefl _ (has low hlow)
        · exact lt_irrefl _ (hbs low hlow)
  | bits words =>
    have hiff : low ∈ (Block.bits words).lows ↔ held words low = true := Block.mem_lows_bits
    simp only [hiff]
    have hzero := @and_mask_eq_zero low words
    cases hheld : held words low with
    | true => exact bne_iff_ne.mpr fun heq => by rw [hzero.mp heq] at hheld; cases hheld
    | false => simp only [hzero.mpr hheld]; rfl

theorem locate_eq (h : Ascends Entry.high blocks) (high : ℕ) :
    IdBitmap.locate blocks high = search Entry.high high blocks := by
  have hfinds := search_finds high h
  rw [IdBitmap.locate]
  rcases eq_nil_or_concat' blocks with rfl | ⟨es, last, rfl⟩
  · rfl
  rw [getLast?_concat]
  simp only
  split_ifs with hlast hbefore
  · -- At the last entry.
    generalize search Entry.high high (es ++ [last]) = out at hfinds ⊢
    cases hfinds with
    | @here as bs e hl he has hbs =>
      rcases eq_nil_or_concat' bs with rfl | ⟨bs, e', rfl⟩
      · rw [hl, length_append, length_singleton, Nat.add_sub_cancel]
      · have hends := congrArg getLast? hl
        rw [getLast?_concat, ← cons_append, ← append_assoc, getLast?_concat] at hends
        have hgt := hbs e' (by simp)
        rw [← Option.some.inj hends, hlast] at hgt
        exact absurd hgt (lt_irrefl _)
    | @absent as bs hl has hbs =>
      have hmem : last ∈ as ++ bs := hl ▸ mem_append_right _ (mem_singleton.mpr rfl)
      rcases mem_append.mp hmem with hmem | hmem
      · exact absurd hlast (ne_of_lt (has last hmem))
      · exact absurd hlast (ne_of_gt (hbs last hmem))
  · rfl
  · -- Behind them all.
    have hgt : last.high < high := lt_of_le_of_ne (not_lt.mp hbefore) hlast
    have hall : ∀ e ∈ es ++ [last], e.high < high := by
      intro e he
      rcases mem_append.mp he with he | he
      · exact ((pairwise_append.mp h).2.2 e he last (mem_singleton.mpr rfl)).trans hgt
      · rwa [mem_singleton.mp he]
    generalize search Entry.high high (es ++ [last]) = out at hfinds ⊢
    cases hfinds with
    | @here as bs e hl he has hbs =>
      have hlt := hall e (hl ▸ mem_append_right _ mem_cons_self)
      exact absurd he (ne_of_lt hlt)
    | @absent as bs hl has hbs =>
      cases bs with
      | nil => rw [hl, append_nil]
      | cons e bs =>
        have hlt := hall e (hl ▸ mem_append_right _ mem_cons_self)
        exact absurd (hbs e mem_cons_self) (lt_asymm hlt)

section Write

variable {m : IdBitmap} {a : Finset ℕ}

theorem Refines.mem (h : Refines m a) : id ∈ a ↔
    ∃ e ∈ m.blocks, e.high = (split id).1 ∧ (split id).2 ∈ e.block.lows := by
  rw [← mem_idsOf, h.ids, Finset.mem_sort]

/-- Entries with the ids of a set. -/
theorem refines_of_mem {blocks : List Entry} (h : BlocksOk blocks)
    (hmem : ∀ id, id ∈ idsOf blocks ↔ id ∈ a) : Refines ⟨blocks, a.card⟩ a := by
  have hset : (idsOf blocks).toFinset = a := by
    ext id
    rw [mem_toFinset, hmem]
  exact ⟨h, hset ▸ ascends_sort h.ascending, rfl⟩

section Entries

variable {as bs : List Entry} {e : Entry}

/-- Entries around one that is written. -/
theorem BlocksOk.around (h : BlocksOk (as ++ bs)) (has : ∀ x ∈ as, x.high < e.high)
    (hbs : ∀ x ∈ bs, e.high < x.high) (hok : e.block.Ok e.count) (hfull : e.block.lows ≠ []) :
    BlocksOk (as ++ e :: bs) := by
  have hall : ∀ x ∈ as ++ e :: bs, x = e ∨ x ∈ as ++ bs := by
    intro x hx
    simp only [mem_append, mem_cons] at hx ⊢
    tauto
  refine ⟨h.highs.insert has hbs, fun x hx => ?_, fun x hx => ?_⟩
  · rcases hall x hx with rfl | hx
    · exact hok
    · exact h.entries x hx
  · rcases hall x hx with rfl | hx
    · exact hfull
    · exact h.full x hx

theorem BlocksOk.without (h : BlocksOk (as ++ e :: bs)) : BlocksOk (as ++ bs) := by
  have hsub : as ++ bs <+ as ++ e :: bs := (Sublist.refl as).append (sublist_cons_self e bs)
  exact ⟨h.highs.sublist hsub, fun x hx => h.entries x (hsub.subset hx),
    fun x hx => h.full x (hsub.subset hx)⟩

theorem mem_idsOf_around : id ∈ idsOf (as ++ e :: bs) ↔
    id ∈ idsOf (as ++ bs) ∨ e.high = (split id).1 ∧ (split id).2 ∈ e.block.lows := by
  rw [mem_idsOf, mem_idsOf]
  constructor
  · rintro ⟨x, hx, hid⟩
    simp only [mem_append, mem_cons] at hx
    rcases hx with hx | rfl | hx
    · exact .inl ⟨x, mem_append_left _ hx, hid⟩
    · exact .inr hid
    · exact .inl ⟨x, mem_append_right _ hx, hid⟩
  · rintro (⟨x, hx, hid⟩ | hid)
    · refine ⟨x, ?_, hid⟩
      simp only [mem_append, mem_cons] at hx ⊢
      exact hx.imp_right .inr
    · exact ⟨e, mem_append_right _ mem_cons_self, hid⟩

theorem split_inj {id' : ℕ} : id = id' ↔ (split id).1 = (split id').1 ∧
    (split id).2 = (split id').2 := by
  refine ⟨fun h => h ▸ ⟨rfl, rfl⟩, fun ⟨hhigh, hlow⟩ => ?_⟩
  rw [← split_spec id, ← split_spec id', hhigh, hlow]

/-- Writing new low bits into an entry. -/
theorem put_ok (hrest : BlocksOk (as ++ bs)) (hok : e.block.Ok e.count)
    (hhigh : e.high = (split id).1) (hnew : (split id).2 ∉ e.block.lows)
    (has : ∀ x ∈ as, x.high < e.high) (hbs : ∀ x ∈ bs, e.high < x.high)
    (hmem : ∀ x, x ∈ idsOf (as ++ e :: bs) ↔ x ∈ a) (hlen : m.len = a.card) :
    id ∉ a ∧ ∃ m', IdBitmap.insert.put m (as ++ e :: bs) as.length (split id).2 = some (m', true) ∧
      Refines m' (insert id a) := by
  obtain ⟨block', hblock, hok', hlows⟩ := Block.insert_ok hok hnew
  have hid : id ∉ a := by
    intro hid
    rcases mem_idsOf_around.mp ((hmem id).mpr hid) with hid | ⟨-, hid⟩
    · obtain ⟨x, hx, hxhigh, -⟩ := mem_idsOf.mp hid
      rcases mem_append.mp hx with hx | hx
      · exact absurd (hxhigh.trans hhigh.symm) (ne_of_lt (has x hx))
      · exact absurd (hxhigh.trans hhigh.symm) (ne_of_gt (hbs x hx))
    · exact hnew hid
  have hfull : block'.lows ≠ [] := ne_nil_of_mem ((hlows _).mpr (.inl rfl))
  have hblocks := hrest.around (e := ⟨e.high, e.count + 1, block'⟩) has hbs hok' hfull
  have hrefines := @refines_of_mem (insert id a) _ hblocks fun x => by
    rw [mem_idsOf_around, Finset.mem_insert, ← hmem, mem_idsOf_around]
    simp only [hlows, hhigh]
    rw [@split_inj x id]
    have hcomm : (split id).1 = (split x).1 ↔ (split x).1 = (split id).1 := eq_comm
    tauto
  rw [Finset.card_insert_of_notMem hid, ← hlen] at hrefines
  refine ⟨hid, _, ?_, hrefines⟩
  rw [IdBitmap.insert.put]
  simp only [getElem?_mid, hblock, set_mid, bind_eq_bind, bind_some, guard_true]
  rfl

end Entries

theorem insert_refines (h : Refines m a) (id : ℕ) :
    ∃ m', m.insert id = some (m', decide (id ∉ a)) ∧ Refines m' (insert id a) := by
  have hmem : id ∈ a ↔ _ := h.mem
  have hids : ∀ x, x ∈ idsOf m.blocks ↔ x ∈ a := fun x => by rw [h.ids, Finset.mem_sort]
  have hfinds := search_finds (split id).1 h.blocks.highs
  rw [IdBitmap.insert]
  simp only [locate_eq h.blocks.highs]
  generalize search Entry.high (split id).1 m.blocks = out at hfinds ⊢
  cases hfinds with
  | @here as bs e hl he has hbs =>
    have hblocks : BlocksOk (as ++ e :: bs) := hl ▸ h.blocks
    have hok : e.block.Ok e.count := hblocks.entries e (by simp)
    simp only [Except.toOption, bind_some, hl, getElem?_mid, any_some,
      contains_eq hok.ascending]
    split_ifs with hlow
    · have hid : id ∈ a := hmem.mpr ⟨e, by simp [hl], he, of_decide_eq_true hlow⟩
      refine ⟨m, by rw [decide_eq_false (not_not_intro hid)], ?_⟩
      rwa [Finset.insert_eq_of_mem hid]
    · have hnew : (split id).2 ∉ e.block.lows := fun hin => hlow (decide_eq_true hin)
      obtain ⟨hid, hput⟩ := put_ok hblocks.without hok he hnew (he ▸ has) (he ▸ hbs) (hl ▸ hids)
        h.len
      rwa [decide_eq_true hid]
  | @absent as bs hl has hbs =>
    have hblocks : BlocksOk (as ++ bs) := hl ▸ h.blocks
    have hnil : (Entry.empty (split id).1).block.lows = [] := rfl
    have hempty : ∀ x, x ∈ idsOf (as ++ Entry.empty (split id).1 :: bs) ↔ x ∈ a := by
      intro x
      rw [mem_idsOf_around, ← hids, hl, hnil]
      exact or_iff_left fun hx => not_mem_nil hx.2
    have hok : (Entry.empty (split id).1).block.Ok (Entry.empty (split id).1).count :=
      Block.ok_array .nil rfl (Nat.zero_le _)
    obtain ⟨hid, hput⟩ := put_ok hblocks hok rfl (hnil ▸ not_mem_nil) has hbs hempty h.len
    simp only [Except.toOption, Option.bind_none, Option.any_none, Bool.false_eq_true, if_false,
      hl, insertIdx_mid]
    rwa [decide_eq_true hid]

theorem remove_refines (h : Refines m a) (id : ℕ) :
    ∃ m', m.remove id = some (m', decide (id ∈ a)) ∧ Refines m' (a.erase id) := by
  have hmem : id ∈ a ↔ _ := h.mem
  have hids : ∀ x, x ∈ idsOf m.blocks ↔ x ∈ a := fun x => by rw [h.ids, Finset.mem_sort]
  have hfinds := search_finds (split id).1 h.blocks.highs
  rw [IdBitmap.remove]
  simp only
  generalize search Entry.high (split id).1 m.blocks = out at hfinds ⊢
  cases hfinds with
  | @here as bs e hl he has hbs =>
    have hblocks : BlocksOk (as ++ e :: bs) := hl ▸ h.blocks
    have hok : e.block.Ok e.count := hblocks.entries e (by simp)
    have hiff : id ∈ a ↔ (split id).2 ∈ e.block.lows := by
      rw [← hids, hl, mem_idsOf_around]
      refine ⟨fun hid => hid.elim (fun hid => ?_) And.right, fun hlow => .inr ⟨he, hlow⟩⟩
      obtain ⟨x, hx, hhigh, -⟩ := mem_idsOf.mp hid
      rcases mem_append.mp hx with hx | hx
      · exact absurd hhigh (ne_of_lt (has x hx))
      · exact absurd hhigh (ne_of_gt (hbs x hx))
    -- Ids of the other entries stay.
    have hothers : ∀ x, x ∈ idsOf (as ++ bs) → x ≠ id := by
      rintro x hx rfl
      obtain ⟨y, hy, hhigh, -⟩ := mem_idsOf.mp hx
      rcases mem_append.mp hy with hy | hy
      · exact absurd hhigh (ne_of_lt (has y hy))
      · exact absurd hhigh (ne_of_gt (hbs y hy))
    simp only [hl, getElem?_mid, bind_eq_bind, bind_some, contains_eq hok.ascending,
      eraseIdx_mid, set_mid, decide_eq_true_eq]
    by_cases hlow : (split id).2 ∈ e.block.lows
    · have hid := hiff.mpr hlow
      rw [if_pos hlow, decide_eq_true hid]
      have hlen : m.len - 1 = (a.erase id).card := by rw [h.len, Finset.card_erase_of_mem hid]
      split_ifs with hone
      · -- The entry goes with its last id.
        obtain ⟨only, honly⟩ := length_eq_one_iff.mp (hok.counted.symm.trans hone)
        rw [honly, mem_singleton] at hlow
        refine ⟨_, rfl, ?_⟩
        rw [hlen]
        refine refines_of_mem hblocks.without fun x => ?_
        rw [Finset.mem_erase, ← hids, hl, mem_idsOf_around, honly, mem_singleton, ← hlow]
        have hx := @split_inj x id
        refine ⟨fun hin => ⟨hothers x hin, .inl hin⟩, fun ⟨hne, hin⟩ => hin.resolve_right ?_⟩
        rintro ⟨hhigh, hlow'⟩
        exact hne (hx.mpr ⟨(he.symm.trans hhigh).symm, hlow'⟩)
      · obtain ⟨block', hblock, hok', hlows⟩ := Block.remove_ok hok hlow
        have hfull : block'.lows ≠ [] := by
          intro hnil
          have hcount := hok'.counted
          rw [hnil, length_nil] at hcount
          have hpos := length_pos_of_mem hlow
          rw [← hok.counted] at hpos
          omega
        rw [hblock]
        refine ⟨_, rfl, ?_⟩
        rw [hlen]
        have hblocks' := hblocks.without.around (e := ⟨e.high, e.count - 1, block'⟩) (he ▸ has)
          (he ▸ hbs) hok' hfull
        refine refines_of_mem hblocks' fun x => ?_
        rw [mem_idsOf_around, Finset.mem_erase, ← hids, hl, mem_idsOf_around]
        simp only [hlows]
        have hx := @split_inj x id
        constructor
        · rintro (hin | ⟨hhigh, hin, hne⟩)
          · exact ⟨hothers x hin, .inl hin⟩
          · exact ⟨fun heq => hne (hx.mp heq).2, .inr ⟨hhigh, hin⟩⟩
        · rintro ⟨hne, hin | ⟨hhigh, hin⟩⟩
          · exact .inl hin
          · exact .inr ⟨hhigh, hin, fun heq => hne (hx.mpr ⟨(he.symm.trans hhigh).symm, heq⟩)⟩
    · have hid : id ∉ a := fun hid => hlow (hiff.mp hid)
      rw [if_neg hlow, decide_eq_false hid, Finset.erase_eq_of_notMem hid]
      exact ⟨m, rfl, h⟩
  | @absent as bs hl has hbs =>
    have hid : id ∉ a := by
      intro hid
      obtain ⟨e, he, hhigh, -⟩ := hmem.mp hid
      rw [hl] at he
      rcases mem_append.mp he with he | he
      · exact absurd hhigh (ne_of_lt (has e he))
      · exact absurd hhigh (ne_of_gt (hbs e he))
    rw [decide_eq_false hid, Finset.erase_eq_of_notMem hid]
    exact ⟨m, rfl, h⟩

end Write

/-! ### Runs -/

/-- An operation on a bitmap. -/
inductive BitmapOp
  | insert (id : ℕ)
  | remove (id : ℕ)
  | len
  | iter (n : ℕ)
  | iterFrom (start n : ℕ)

/-- What an operation **answers**. -/
inductive Answer
  | flag (b : Bool)
  | count (n : ℕ)
  | ids (ids : List (Option ℕ))

def make : Unit → Option IdBitmap := fun _ => some .new

/-- An iterator is called `n` times. -/
def step : BitmapOp → IdBitmap → Option (Option IdBitmap × Answer)
  | .insert id, m => (m.insert id).map fun out => (some out.1, .flag out.2)
  | .remove id, m => (m.remove id).map fun out => (some out.1, .flag out.2)
  | .len, m => some (some m, .count m.len)
  | .iter n, m => some (some m, .ids (m.iter.pulls n))
  | .iterFrom start n, m => some (some m, .ids ((m.iterFrom start).pulls n))

/-- A finite set. -/
def specMake : Unit → Option (Finset ℕ) := fun _ => some ∅

/-- The answers to `n` calls: the ids of a set in order, and then nothing. -/
def listed (a : Finset ℕ) (n : ℕ) : List (Option ℕ) := (range n).map fun i => a.sort[i]?

def specStep : BitmapOp → Finset ℕ → Option (Option (Finset ℕ) × Answer)
  | .insert id, a => some (some (insert id a), .flag (decide (id ∉ a)))
  | .remove id, a => some (some (a.erase id), .flag (decide (id ∈ a)))
  | .len, a => some (some a, .count a.card)
  | .iter n, a => some (some a, .ids (listed a n))
  | .iterFrom start n, a => some (some a, .ids (listed (a.filter fun id => start ≤ id) n))

theorem refines_new : Refines .new ∅ :=
  refines_of_mem ⟨.nil, fun _ he => absurd he not_mem_nil, fun _ he => absurd he not_mem_nil⟩
    fun id => iff_of_false not_mem_nil (Finset.notMem_empty id)

theorem iterFrom_refines {m : IdBitmap} {a : Finset ℕ} (h : Refines m a) (start n : ℕ) :
    (m.iterFrom start).pulls n = listed (a.filter fun id => start ≤ id) n := by
  obtain ⟨high, hat, hleft⟩ := iterFrom_left h.blocks start
  have hset : ((idsOf m.blocks).filter fun id => decide (start ≤ id)).toFinset =
      a.filter fun id => start ≤ id := by
    rw [toFinset_filter, h.ids, Finset.sort_toFinset]
    simp only [decide_eq_true_eq]
  rw [IdBitmapIter.pulls_eq hat, hleft, listed, ← hset,
    ← ascends_sort (h.blocks.ascending.filter _)]

theorem iter_refines {m : IdBitmap} {a : Finset ℕ} (h : Refines m a) (n : ℕ) :
    m.iter.pulls n = listed a n := by
  rw [IdBitmap.iter, iterFrom_refines h, Finset.filter_true_of_mem fun id _ => Nat.zero_le id]

theorem step_refines (op : BitmapOp) (m : IdBitmap) (a : Finset ℕ) (h : Refines m a) :
    ∃ m' a' answer, step op m = some (m', answer) ∧ specStep op a = some (a', answer) ∧
      Option.Rel Refines m' a' := by
  cases op with
  | insert id =>
    obtain ⟨m', hm', hrefines⟩ := insert_refines h id
    exact ⟨_, _, _, by rw [step, hm']; rfl, rfl, .some hrefines⟩
  | remove id =>
    obtain ⟨m', hm', hrefines⟩ := remove_refines h id
    exact ⟨_, _, _, by rw [step, hm']; rfl, rfl, .some hrefines⟩
  | len => exact ⟨_, _, _, rfl, by rw [specStep, h.len], .some h⟩
  | iter n => exact ⟨_, _, _, rfl, by rw [specStep, iter_refines h], .some h⟩
  | iterFrom start n => exact ⟨_, _, _, rfl, by rw [specStep, iterFrom_refines h], .some h⟩

/-- **Id bitmaps refine finite sets** in every run, and every block of every bitmap is non-empty,
counted, and in the form its size calls for. -/
theorem idBitmap_refines (ops : List (HandleOp Unit BitmapOp)) :
    ∃ vs ws answers, run make step ops [] = some (vs, answers) ∧
      run specMake specStep ops [] = some (ws, answers) ∧ Alike Refines vs ws :=
  run_alike (fun _ => ⟨_, _, rfl, rfl, refines_new⟩) step_refines ops .nil

end Bitmap

end LoraDb
