import LoraDb.SlabBuild
import LoraDb.SlabWrites

/-!
# Storing Built Leaves

Built leaves go where a leaf position has no records as they are, and elsewhere record by
record: either way the table gets the records one by one, up to the first slot that holds
one already.

## Main results

* `World.putLeaves_ok`: the records of built leaves, stored.
-/

open Option (bind_eq_bind bind_eq_some_iff bind_some)
open List ByteCodec Shared

namespace LoraDb

namespace Slab

variable {W W' : World} {h : Handle} {k l n : ℕ} {a node : Addr} {leaf : Leaf}
  {tables : List (Option (Slots Bytes))} {t : Slots Bytes} {m : ℕ → Option Bytes}
  {bufs : List Bytes} {waiting : List Addr} {out : World × Addr}

/-! ### Nothing but the way changes -/

theorem rootMut_bufs (h : W.rootMut k = some out) : out.1.heap.bufs = W.heap.bufs := by
  simp only [World.rootMut, bind_eq_bind, bind_eq_some_iff] at h
  obtain ⟨_, -, _, -, hout⟩ := h
  cases hout
  rfl

theorem nodeMut_bufs (h : W.nodeMut k l = some out) : out.1.heap.bufs = W.heap.bufs := by
  simp only [World.nodeMut, bind_eq_bind, bind_eq_some_iff] at h
  obtain ⟨_, hroot, _, -, _, -, hout⟩ := h
  cases hout
  have hbufs := rootMut_bufs hroot
  exact hbufs

theorem leafMut_bufs (h : W.leafMut k l = some out) : out.1.heap.bufs = W.heap.bufs := by
  simp only [World.leafMut, bind_eq_bind, bind_eq_some_iff] at h
  obtain ⟨_, hnode, _, -, _, -, hout⟩ := h
  cases hout
  have hbufs := nodeMut_bufs hnode
  exact hbufs

/-- A leaf allocated is no handle's yet. -/
theorem alloc_ok (hW : W.Ok tables) (leaf : Leaf) :
    World.Ok { W with heap := { W.heap with leaves := W.heap.leaves ++ [leaf] } } tables := by
  refine ⟨hW.length, hW.alive, ?_, read_append hW.emptyLeaf _⟩
  intro k h t hk ht
  obtain ⟨hlen, hr, hleaves⟩ := hW.stores k h t hk ht
  refine ⟨hlen, hr.congr rfl rfl fun _ _ => rfl, ?_⟩
  intro l a ha
  obtain ⟨leaf', hleaf', hok⟩ := hleaves l a ha
  exact ⟨leaf', read_append hleaf' _, hok⟩

/-- So are buffers allocated. -/
theorem allocBufs_ok (hW : W.Ok tables) (more : List Bytes) :
    World.Ok { W with heap := { W.heap with bufs := W.heap.bufs ++ more } } tables := by
  refine ⟨hW.length, hW.alive, ?_, hW.emptyLeaf⟩
  intro k h t hk ht
  obtain ⟨hlen, hr, hleaves⟩ := hW.stores k h t hk ht
  refine ⟨hlen, hr.congr rfl rfl fun _ _ => rfl, ?_⟩
  intro l a ha
  obtain ⟨leaf, hleaf, hok⟩ := hleaves l a ha
  refine ⟨leaf, hleaf, hok.congr fun b hb => ?_⟩
  obtain ⟨cell, hread⟩ := exists_read (hok.pointers_lt b hb)
  rw [hread]
  exact read_append hread _

/-! ### Record by record -/

/-- The records of some slots of leaf number `l`. -/
def slotRecords (l : ℕ) (m : ℕ → Option Bytes) (slots : List ℕ) : List (ℕ × Bytes) :=
  slots.filterMap fun s => (m s).map fun bytes => (l * CHUNK + s, bytes)

/-- The records of a built leaf go one by one, and the buffers that wait stay. -/
theorem putSlots_ok {slots : List ℕ} (hW : W.Ok tables) (honly : OnlyLeaf W k l a)
    (ht : tables[k]?.join = some t) (hleaf : leaf.Ok W.heap.bufs m 0 0)
    (hpointers : ∀ b ∈ leaf.pointers, b ∈ waiting) (hwaiting : ∀ b ∈ waiting, b <
    W.heap.bufs.length)
    (hslots : ∀ s ∈ slots, s < CHUNK) (hlt : ∀ r ∈ slotRecords l m slots, r.1 < t.len) :
    ∃ W', World.putSlots waiting a leaf (l * CHUNK) slots W n =
        some (W', (t.putAll (slotRecords l m slots) n).2) ∧
      W'.Ok (tables.set k (some (t.putAll (slotRecords l m slots) n).1)) ∧
      ∀ b ∈ waiting, read W'.heap.bufs b = read W.heap.bufs b := by
  induction slots generalizing W tables t n with
  | nil =>
    refine ⟨W, rfl, ?_, fun _ _ => rfl⟩
    rw [slotRecords, filterMap_nil, Slots.putAll, tables_set_self ht]
    exact hW
  | cons s slots ih =>
    have hs := hslots s mem_cons_self
    have hrest := fun s' hs' => hslots s' (mem_cons_of_mem _ hs')
    rw [World.putSlots, hleaf.get hs]
    cases hm : m s with
    | none =>
      have hskip : slotRecords l m (s :: slots) = slotRecords l m slots := by
        rw [slotRecords, filterMap_cons, hm]
        rfl
      rw [hskip] at hlt ⊢
      exact ih hW honly ht hleaf hwaiting hrest hlt
    | some bytes =>
      have htake : slotRecords l m (s :: slots) =
          (l * CHUNK + s, bytes) :: slotRecords l m slots := by
        rw [slotRecords, filterMap_cons, hm]
        rfl
      rw [htake] at hlt ⊢
      have hi : l * CHUNK + s < t.len := hlt _ mem_cons_self
      obtain ⟨h, hk, hway⟩ := honly.way
      obtain ⟨target, htarget, hok⟩ := hW.exists_leaf hk hway ht
      have hcontains : target.contains s = t.contains (l * CHUNK + s) := hok.contains hs
      simp only [htarget, bind_eq_bind, bind_some, hcontains, Slots.putAll]
      by_cases hfull : t.contains (l * CHUNK + s) = true
      · simp only [if_pos hfull]
        refine ⟨W, rfl, ?_, fun _ _ => rfl⟩
        rw [tables_set_self ht]
        exact hW
      · simp only [if_neg hfull]
        obtain ⟨held, hset, hheld, hframe⟩ := @Held.set_ok _ s (W.othersThan a ++ waiting)
          ⟨W.heap.bufs, target⟩ hok hs (fun b hb => by
            rcases mem_append.mp hb with hother | hwait
            · exact othersThan_lt hW b hother
            · exact hwaiting b hwait) bytes
        have hkept : ∀ b ∈ waiting, read held.bufs b = read W.heap.bufs b := fun b hb =>
          hframe.kept b (mem_append_right _ hb) (hwaiting b hb)
        have hsame : SameBut l t (t.set (l * CHUNK + s) bytes) := by
          have hset := @sameBut_set (l * CHUNK + s) t bytes hi
          rwa [mul_add_div_chunk hs] at hset
        have hheld' : held.leaf.Ok held.bufs
            (fun s' => (t.set (l * CHUNK + s) bytes).get (l * CHUNK + s')) 0 0 := by
          refine hheld.congr_slots fun s' _ => ?_
          rw [Slots.get_set hi, Function.update_apply]
          simp only [Nat.add_left_cancel_iff]
        have hstored := store_ok hW honly ht htarget hframe
          (fun b hb => mem_append_left _ hb) hsame hheld'
        have ht' : (tables.set k (some (t.set (l * CHUNK + s) bytes)))[k]?.join =
            some (t.set (l * CHUNK + s) bytes) := by
          rw [tables_set ht, if_pos rfl]
        obtain ⟨W', hrun, hW', hbufs⟩ := @ih (W.store a held) (n + 1) _ _ hstored
          ⟨honly.way, honly.only, honly.ne_empty⟩ ht'
          (hleaf.congr fun b hb => hkept b (hpointers b hb))
          (fun b hb => (hwaiting b hb).trans_le hframe.grows) hrest (fun r hr => by
            rw [Slots.len_set]
            exact hlt r (mem_cons_of_mem _ hr))
        rw [tables_set_set] at hW'
        refine ⟨W', ?_, hW', fun b hb => (hbufs b hb).trans (hkept b hb)⟩
        rw [hset, bind_some, hrun]

/-! ### Leaf by leaf -/

theorem length_slotRecords : (slotRecords l m (List.range n)).length =
    ∑ s ∈ Finset.range n, if (m s).isSome = true then 1 else 0 := by
  induction n with
  | zero => rfl
  | succ n ih =>
    rw [Finset.sum_range_succ, ← ih, range_succ, slotRecords, filterMap_append, length_append]
    refine congrArg _ ?_
    cases hm : m n <;> simp [hm]

/-- The live records of a leaf are all it stores. -/
theorem Leaf.Ok.live_eq (h : leaf.Ok bufs m 0 0) : leaf.live = (recordsOf l m).length := by
  have hfilled : ∀ s ∈ Finset.range CHUNK,
      filled (leaf.place s) (m s) = if (m s).isSome = true then 1 else 0 := by
    intro s hs
    have hempty := (h.sound.stored s (Finset.mem_range.mp hs)).empty_iff
    cases hm : m s with
    | none =>
      rw [hempty.mpr hm]
      rfl
    | some bytes =>
      cases hplace : leaf.place s with
      | empty =>
        rw [hempty.mp hplace] at hm
        cases hm
      | segment offset => rfl
      | loose index => rfl
  have hrecords := @length_slotRecords l CHUNK m
  rw [h.sound.live, tally, Finset.sum_congr rfl hfilled, Nat.add_zero, ← hrecords, slotRecords,
    recordsOf]

theorem mem_recordsOf {r : ℕ × Bytes} : r ∈ recordsOf l m ↔
    ∃ s < CHUNK, m s = some r.2 ∧ l * CHUNK + s = r.1 := by
  rw [recordsOf, mem_filterMap]
  constructor
  · rintro ⟨s, hs, hr⟩
    obtain ⟨bytes, hm, rfl⟩ := Option.map_eq_some_iff.mp hr
    exact ⟨s, mem_range.mp hs, hm, rfl⟩
  · rintro ⟨s, hs, hm, hr⟩
    exact ⟨s, mem_range.mpr hs, by rw [hm, Option.map_some, hr]⟩

theorem nodup_recordsOf : ((recordsOf l m).map Prod.fst).Nodup := by
  rw [recordsOf, map_filterMap]
  refine Nodup.filterMap ?_ nodup_range
  intro s s' i hi hi'
  simp only [Option.map_map, Option.mem_def, Option.map_eq_some_iff] at hi hi'
  obtain ⟨_, -, hi⟩ := hi
  obtain ⟨_, -, hi'⟩ := hi'
  exact Nat.add_left_cancel (hi.trans hi'.symm)

/-- A leaf's slots that are empty take all of a built leaf's records. -/
theorem putAll_recordsOf (hempty : ∀ s < CHUNK, t.get (l * CHUNK + s) = none)
    (hlt : ∀ r ∈ recordsOf l m, r.1 < t.len) :
    ∃ t', t.putAll (recordsOf l m) n = (t', .ok (n + (recordsOf l m).length)) ∧ SameBut l t t' ∧
      ∀ s < CHUNK, t'.get (l * CHUNK + s) = m s := by
  obtain ⟨hresult, hfilled, hother⟩ := @Slots.putAll_free _ t n (recordsOf l m) (fun r hr => by
      obtain ⟨s, hs, -, hr⟩ := mem_recordsOf.mp hr
      rw [← hr]
      exact hempty s hs) nodup_recordsOf hlt
  refine ⟨(t.putAll (recordsOf l m) n).1, ?_, ⟨Slots.len_putAll, ?_⟩, ?_⟩
  · rw [← hresult]
  · intro i hi
    refine hother i fun hmem => ?_
    obtain ⟨r, hr, rfl⟩ := mem_map.mp hmem
    obtain ⟨s, hs, -, hr⟩ := mem_recordsOf.mp hr
    rw [← hr, mul_add_div_chunk hs] at hi
    exact hi rfl
  · intro s hs
    cases hm : m s with
    | some bytes => exact hfilled (l * CHUNK + s, bytes) (mem_recordsOf.mpr ⟨s, hs, hm, rfl⟩)
    | none =>
      rw [hother, hempty s hs]
      intro hmem
      obtain ⟨r, hr, heq⟩ := mem_map.mp hmem
      obtain ⟨s', -, hm', hr⟩ := mem_recordsOf.mp hr
      obtain rfl : s' = s := Nat.add_left_cancel (hr.trans heq)
      rw [hm] at hm'
      cases hm'

/-- What storing built leaves comes to, position by position. -/
theorem putBuilt_ok {built : List (ℕ × Leaf)} (hW : W.Ok tables) (ht : tables[k]?.join = some t)
    (hbuilt : ∀ e ∈ built, Complete W.heap.bufs e)
    (hlt : ∀ r ∈ built.flatMap (leafRecords W.heap.bufs), r.1 < t.len) :
    ∃ W', World.putBuilt k built W n =
        some (W', (t.putAll (built.flatMap (leafRecords W.heap.bufs)) n).2) ∧
      W'.Ok (tables.set k (some (t.putAll (built.flatMap (leafRecords W.heap.bufs)) n).1)) := by
  induction built generalizing W tables t n with
  | nil =>
    refine ⟨W, rfl, ?_⟩
    rw [flatMap_nil, Slots.putAll, tables_set_self ht]
    exact hW
  | cons e built ih =>
    obtain ⟨l, leaf⟩ := e
    obtain ⟨h, hk, hlen⟩ := hW.exists_handle ht
    obtain ⟨m, hleaf, hsome⟩ := hbuilt (l, leaf) mem_cons_self
    have hrecords : leafRecords W.heap.bufs (l, leaf) = recordsOf l m := leafRecords_eq hleaf
    rw [flatMap_cons, hrecords] at hlt ⊢
    have hfits : ∀ r ∈ recordsOf l m, r.1 < t.len := fun r hr => hlt r (mem_append_left _ hr)
    have hposition : l * CHUNK < t.len := by
      obtain ⟨r, hr⟩ := exists_mem_of_ne_nil _ hsome
      obtain ⟨s, -, -, heq⟩ := mem_recordsOf.mp hr
      exact (heq ▸ Nat.le_add_right _ s).trans_lt (hfits r hr)
    have hl : l < leavesOf t.len := by
      have hdiv := div_lt_leavesOf hposition
      rwa [Nat.mul_div_cancel l (show 0 < CHUNK by decide)] at hdiv
    obtain ⟨W₁, node, hmut, hview, honly⟩ := nodeMut_ok hW hk (hlen ▸ hl)
    have hW₁ := hW.congr hview
    obtain ⟨h₁, hk₁, hway⟩ := honly.way
    have hlen₁ := (hW₁.stores k h₁ t hk₁ ht).len
    obtain ⟨a, ha⟩ := (hW₁.rooted hk₁).exists_leafAt (hlen₁ ▸ hl)
    obtain ⟨old, hold, holdOk⟩ := hW₁.exists_leaf hk₁ ha ht
    have hcell : (W₁.heap.nodeCell node)[l % FANOUT]? = some a := by
      obtain ⟨node', hnode', hcell⟩ := leafAt_eq_some.mp ha
      rw [hway] at hnode'
      cases hnode'
      exact hcell
    have hbufs₁ : W₁.heap.bufs = W.heap.bufs := hview.bufs
    have hcomplete : ∀ e ∈ built, Complete W.heap.bufs e := fun e he =>
      hbuilt e (mem_cons_of_mem _ he)
    rw [World.putBuilt]
    simp only [hk, bind_eq_bind, bind_some, hlen, if_neg (not_le.mpr hposition), hmut,
      hcell, hold]
    by_cases hfree : a = EMPTY_LEAF ∨ old.live = 0
    · simp only [if_pos hfree]
      have hlive : old.live = 0 := by
        rcases hfree with rfl | hlive
        · rw [hW₁.emptyLeaf] at hold
          cases hold
          rfl
        · exact hlive
      obtain ⟨t', hput, hsame, hget⟩ := @putAll_recordsOf l n t m (holdOk.none_of_live hlive) hfits
      rw [← show leaf.live = (recordsOf l m).length from hleaf.live_eq] at hput
      have hread : read (W₁.heap.leaves ++ [leaf]) ((W₁.heap.leaves ++ [leaf]).length - 1) =
          some leaf := by
        rw [length_append, length_singleton, Nat.add_sub_cancel]
        exact getElem?_concat_length
      have hplaced := place_ok (alloc_ok hW₁ leaf) ⟨honly.way, honly.only⟩ ht hl hsame hread (by
        change leaf.Ok W₁.heap.bufs _ 0 0
        rw [hbufs₁]
        exact hleaf.congr_slots hget)
      have ht' : (tables.set k (some t'))[k]?.join = some t' := by rw [tables_set ht, if_pos rfl]
      have hrest : ∀ r ∈ built.flatMap (leafRecords W₁.heap.bufs), r.1 < t'.len := by
        rw [hbufs₁, hsame.1]
        exact fun r hr => hlt r (mem_append_right _ hr)
      obtain ⟨W', hrun, hW'⟩ := @ih _ (n + leaf.live) _ t' hplaced ht' (hbufs₁ ▸ hcomplete) hrest
      change _ = some (W', (t'.putAll (built.flatMap (leafRecords W₁.heap.bufs)) _).2) at hrun
      change W'.Ok ((tables.set k (some t')).set k
        (some (t'.putAll (built.flatMap (leafRecords W₁.heap.bufs)) _).1)) at hW'
      rw [hbufs₁] at hrun
      rw [hbufs₁, tables_set_set] at hW'
      rw [Slots.putAll_append, hput]
      exact ⟨W', hrun, hW'⟩
    · simp only [if_neg hfree]
      obtain ⟨W₂, a₂, target, hmut₂, hW₂, honly₂, -, -⟩ := leafMut_stores hW₁ ht hl
      have hbufs₂ : W₂.heap.bufs = W.heap.bufs := (leafMut_bufs hmut₂).trans hbufs₁
      have hwaiting : ∀ b ∈ ((l, leaf) :: built).flatMap fun e => e.2.pointers,
          b < W₂.heap.bufs.length := by
        intro b hb
        obtain ⟨e, he, hpointer⟩ := mem_flatMap.mp hb
        obtain ⟨m, hok, -⟩ := hbuilt e he
        rw [hbufs₂]
        exact hok.pointers_lt b hpointer
      obtain ⟨W₃, hrun₃, hW₃, hkept⟩ := @putSlots_ok W₂ k l n a₂ leaf tables t m _
        (List.range CHUNK) hW₂ honly₂ ht (hbufs₂ ▸ hleaf)
        (fun b hb => mem_flatMap.mpr ⟨(l, leaf), mem_cons_self, hb⟩) hwaiting
        (fun s hs => mem_range.mp hs) hfits
      have hslots : slotRecords l m (List.range CHUNK) = recordsOf l m := rfl
      rw [hslots] at hrun₃ hW₃
      simp only [hmut₂, bind_some, hrun₃]
      rw [Slots.putAll_append]
      have hlen₃ := @Slots.len_putAll _ t n (recordsOf l m)
      cases hput : t.putAll (recordsOf l m) n with
      | mk t₃ result =>
        rw [hput] at hW₃ hlen₃
        cases result with
        | error slot => exact ⟨W₃, rfl, hW₃⟩
        | ok stored =>
          have ht₃ : (tables.set k (some t₃))[k]?.join = some t₃ := by
            rw [tables_set ht, if_pos rfl]
          have hkeep : ∀ e ∈ built, Complete W₃.heap.bufs e ∧
              leafRecords W₃.heap.bufs e = leafRecords W.heap.bufs e := by
            intro e he
            refine (hcomplete e he).congr fun b hb _ => ?_
            rw [← hbufs₂]
            exact hkept b (mem_flatMap.mpr ⟨e, mem_cons_of_mem _ he, hb⟩)
          have hsame : built.flatMap (leafRecords W₃.heap.bufs) =
              built.flatMap (leafRecords W.heap.bufs) :=
            flatMap_congr fun e he => (hkeep e he).2
          obtain ⟨W', hrun, hW'⟩ := @ih W₃ stored _ t₃ hW₃ ht₃ (fun e he => (hkeep e he).1) (by
              rw [hsame, hlen₃]
              exact fun r hr => hlt r (mem_append_right _ hr))
          rw [hsame] at hrun hW'
          rw [tables_set_set] at hW'
          exact ⟨W', hrun, hW'⟩

/-- Storing built leaves: their records go in one by one, up to the first slot that holds
one. -/
theorem World.putLeaves_ok {records : List (ℕ × Bytes)} (hW : W.Ok tables)
    (ht : tables[k]?.join = some t) (hsorted : (records.map Prod.fst).Pairwise (· < ·))
    (hlt : ∀ r ∈ records, r.1 < t.len) :
    ∃ W', W.putLeaves k records = some (W', (t.putAll records 0).2) ∧
      W'.Ok (tables.set k (some (t.putAll records 0).1)) := by
  obtain ⟨more, hbufs, hcomplete, hrecords⟩ := @BuiltLeaves.build_ok W.heap.bufs records hsorted
  cases hbuild : BuiltLeaves.build W.heap.bufs records with
  | mk bufs built =>
    rw [hbuild] at hbufs hcomplete hrecords
    simp only at hbufs hcomplete hrecords
    have hstored := @putBuilt_ok _ k 0 tables t built (allocBufs_ok hW more) ht hcomplete (by
      rw [hrecords]
      exact hlt)
    change ∃ W', World.putBuilt k built _ 0 =
      some (W', (t.putAll (built.flatMap (leafRecords (W.heap.bufs ++ more))) 0).2) ∧
        W'.Ok (tables.set k
          (some (t.putAll (built.flatMap (leafRecords (W.heap.bufs ++ more))) 0).1)) at hstored
    rw [hrecords] at hstored
    simp only [World.putLeaves, hbuild, hbufs]
    exact hstored

end Slab

end LoraDb
