import LoraDb.SlabWorld

/-!
# Writes to a Slab

Each write to one handle does to the table it stores what it says, and to no other handle's
anything.

## Main results

* `World.get`, `World.contains`: a handle reads as its table.
* `World.set_ok`, `World.remove_ok`, `World.growTo_ok`: one write.
-/

open Option (any_some bind_eq_bind bind_none bind_some getD_some isSome_iff_exists map_some)
open Slots (get_growTo get_remove get_set len_growTo lt_of_get)
open List ByteCodec Shared

namespace LoraDb

namespace Slab

variable {W W' : World} {h h' : Handle} {k k' l l' i : ℕ} {a node : Addr} {leaf : Leaf}
  {tables : List (Option (Slots Bytes))} {t t' : Slots Bytes} {m m' : ℕ → Option Bytes}
  {bufs : List Bytes} {held : Held}

/-! ### One leaf changed -/

/-- What a leaf stores is of its own slots. -/
theorem Leaf.Ok.congr_slots {extra extraSmall : ℕ} (h : leaf.Ok bufs m extra extraSmall)
    (hm : ∀ s < CHUNK, m' s = m s) : leaf.Ok bufs m' extra extraSmall := by
  have htally : ∀ weight, tally weight (Finset.range CHUNK) leaf.place m' =
      tally weight (Finset.range CHUNK) leaf.place m := fun weight =>
    tally_congr (fun _ _ => rfl) fun s hs => hm s (Finset.mem_range.mp hs)
  refine ⟨{ h.sound with stored := ?_, live := ?_, small := ?_, loose := ?_ }, ?_⟩
  · intro s hs
    rw [hm s hs]
    exact h.sound.stored s hs
  · rw [htally]
    exact h.sound.live
  · rw [htally]
    exact h.sound.small
  · rw [htally]
    exact h.sound.loose
  · intro seg hseg
    rw [tally_congr (fun _ _ => rfl) fun s hs => hm s (mem_slotsOf.mp hs).1]
    exact h.segs seg hseg

/-- A table that differs in the slots of one leaf is elsewhere the same. -/
def SameBut (l : ℕ) (t t' : Slots Bytes) : Prop :=
  t'.len = t.len ∧ ∀ i, i / CHUNK ≠ l → t'.get i = t.get i

theorem tables_set (hk : tables[k]?.join = some t) :
    (tables.set k (some t'))[k']?.join = if k' = k then some t' else tables[k']?.join := by
  have hlt : k < tables.length := by
    by_contra hge
    rw [getElem?_eq_none (not_lt.mp hge)] at hk
    cases hk
  rw [getElem?_set, if_pos hlt]
  split
  next heq => rw [if_pos heq.symm, Option.join_some]
  next hne => rw [if_neg (Ne.symm hne)]

/-- A world in which one leaf of one handle is another. -/
theorem World.Ok.edit (hW : W.Ok tables) (ht : tables[k]?.join = some t) (hsame : SameBut l t t')
    (hhandles : W'.handles = W.handles)
    (hrooted : ∀ k h, W'.handle k = some h → Rooted W'.heap h)
    (hempty : read W'.heap.leaves EMPTY_LEAF = some .new)
    (hself : ∀ h b, W.handle k = some h → W'.heap.leafAt h.root l = some b →
      ∃ leaf, read W'.heap.leaves b = some leaf ∧
        leaf.Ok W'.heap.bufs (fun s => t'.get (l * CHUNK + s)) 0 0)
    (hother : ∀ k' h' l' b, W.handle k' = some h' → ¬ (k' = k ∧ l' = l) →
      W'.heap.leafAt h'.root l' = some b → W.heap.leafAt h'.root l' = some b ∧
        ∀ leaf m, read W.heap.leaves b = some leaf → leaf.Ok W.heap.bufs m 0 0 →
          read W'.heap.leaves b = some leaf ∧ leaf.Ok W'.heap.bufs m 0 0) :
    W'.Ok (tables.set k (some t')) := by
  have hhandle : ∀ k', W'.handle k' = W.handle k' := fun k' => by
    rw [World.handle, World.handle, hhandles]
  refine ⟨?_, ?_, ?_, hempty⟩
  · rw [hhandles, length_set]
    exact hW.length
  · intro k'
    rw [hhandle, hW.alive, tables_set ht]
    split
    next heq => rw [heq, ht]; rfl
    next => rfl
  · intro k' h' t'' hk' ht'
    have hr := hrooted k' h' hk'
    rw [hhandle] at hk'
    rw [tables_set ht] at ht'
    split at ht'
    next heq =>
      cases heq
      cases ht'
      obtain ⟨hlen, -, hleaves⟩ := hW.stores k h' t hk' ht
      refine ⟨hlen.trans hsame.1.symm, hr, ?_⟩
      intro l' b hb
      by_cases hl : l' = l
      · subst hl
        exact hself h' b hk' hb
      · obtain ⟨hold, hkeep⟩ := hother k h' l' b hk' (fun heq => hl heq.2) hb
        obtain ⟨leaf, hleaf, hok⟩ := hleaves l' b hold
        obtain ⟨hleaf', hok'⟩ := hkeep leaf _ hleaf hok
        refine ⟨leaf, hleaf', hok'.congr_slots fun s hs => hsame.2 _ ?_⟩
        rw [Nat.mul_comm, Nat.mul_add_div (by decide), Nat.div_eq_of_lt hs, Nat.add_zero]
        exact hl
    next hne =>
      obtain ⟨hlen, -, hleaves⟩ := hW.stores k' h' t'' hk' ht'
      refine ⟨hlen, hr, ?_⟩
      intro l' b hb
      obtain ⟨hold, hkeep⟩ := hother k' h' l' b hk' (fun heq => hne heq.1) hb
      obtain ⟨leaf, hleaf, hok⟩ := hleaves l' b hold
      exact ⟨leaf, hkeep leaf _ hleaf hok⟩

/-- The buffers of every other live leaf are others'. -/
theorem mem_othersThan {b c : Addr} (hk : W.handle k = some h)
    (hb : W.heap.leafAt h.root l = some b)
    (hne : b ≠ a) (hleaf : read W.heap.leaves b = some leaf) (hc : c ∈ leaf.pointers) :
    c ∈ W.othersThan a := by
  rw [World.othersThan, mem_flatMap]
  refine ⟨b, mem_filter.mpr ⟨mem_liveLeaves hk hb, by simpa using hne⟩, ?_⟩
  rw [hleaf, map_some, getD_some]
  exact hc

/-- A leaf is written back: its handle's table changes in that leaf, and no other. -/
theorem store_ok {others : List Addr} (hW : W.Ok tables) (honly : OnlyLeaf W k l a)
    (ht : tables[k]?.join = some t) (hleaf : read W.heap.leaves a = some leaf)
    (hframe : Frame others ⟨W.heap.bufs, leaf⟩ held) (hothers : ∀ b ∈ W.othersThan a, b ∈ others)
    (hsame : SameBut l t t')
    (hok : held.leaf.Ok held.bufs (fun s => t'.get (l * CHUNK + s)) 0 0) :
    (W.store a held).Ok (tables.set k (some t')) := by
  have hself : read (W.store a held).heap.leaves a = some held.leaf := read_set_self (read_lt hleaf)
  have hread : ∀ b, b ≠ a → read (W.store a held).heap.leaves b = read W.heap.leaves b :=
    fun b hb => read_set_ne hb
  refine hW.edit ht hsame rfl (fun k' h' hk' => ?_) ?_ ?_ ?_
  · exact (hW.rooted hk').congr rfl rfl fun _ _ => rfl
  · rw [hread _ (Ne.symm honly.ne_empty)]
    exact hW.emptyLeaf
  · intro h₁ b hk₁ hb
    obtain ⟨h₀, hk₀, hway⟩ := honly.way
    rw [hk₀] at hk₁
    cases hk₁
    have hb' : W.heap.leafAt h₁.root l = some b := hb
    rw [hway] at hb'
    cases hb'
    exact ⟨held.leaf, hself, hok⟩
  · intro k' h₁ l' b hk₁ hne hb
    have hb' : W.heap.leafAt h₁.root l' = some b := hb
    have hne' : b ≠ a := by
      rintro rfl
      exact hne (honly.only k' h₁ l' hk₁ hb')
    refine ⟨hb', ?_⟩
    intro leaf' m hleaf' hok'
    refine ⟨(hread b hne').trans hleaf', hok'.congr ?_⟩
    intro c hc
    refine hframe.kept c ?_ (hok'.pointers_lt c hc)
    exact hothers c (mem_othersThan hk₁ hb' hne' hleaf' hc)

/-- A position is pointed at another leaf: its handle's table changes in that leaf, and no
other. -/
theorem place_ok (hW : W.Ok tables) (honly : OnlyNode W k (l / FANOUT) node)
    (ht : tables[k]?.join = some t) (hl : l < leavesOf t.len) (hsame : SameBut l t t')
    (hleaf : read W.heap.leaves a = some leaf)
    (hok : leaf.Ok W.heap.bufs (fun s => t'.get (l * CHUNK + s)) 0 0) :
    (W.place node l a).Ok (tables.set k (some t')) := by
  obtain ⟨h₀, hk₀, hway⟩ := honly.way
  have hlen := (hW.stores k h₀ t hk₀ ht).len
  obtain ⟨hrooted, hleafAt⟩ := @leafAt_place W h₀ k l node a honly hk₀ hW.rooted (hlen ▸ hl)
  refine hW.edit ht hsame rfl hrooted hW.emptyLeaf ?_ ?_
  · intro h₁ b hk₁ hb
    rw [hleafAt k h₁ l hk₁, if_pos ⟨rfl, rfl⟩] at hb
    cases hb
    exact ⟨leaf, hleaf, hok⟩
  · intro k' h₁ l' b hk₁ hne hb
    rw [hleafAt k' h₁ l' hk₁, if_neg hne] at hb
    exact ⟨hb, fun _ _ hleaf' hok' => ⟨hleaf', hok'⟩⟩

/-! ### One record -/

theorem mul_add_div_chunk {s : ℕ} (hs : s < CHUNK) : (l * CHUNK + s) / CHUNK = l := by
  rw [Nat.mul_comm, Nat.mul_add_div (by decide), Nat.div_eq_of_lt hs, Nat.add_zero]

theorem div_lt_leavesOf {len : ℕ} (h : i < len) : i / CHUNK < leavesOf len := by
  simp only [leavesOf, CHUNK]
  omega

theorem sameBut_set {bytes : Bytes} (hi : i < t.len) : SameBut (i / CHUNK) t (t.set i bytes) := by
  refine ⟨t.len_set, fun j hj => ?_⟩
  rw [get_set hi, if_neg]
  rintro rfl
  exact hj rfl

theorem sameBut_remove : SameBut (i / CHUNK) t (t.remove i) := by
  refine ⟨t.len_remove, fun j hj => ?_⟩
  rw [get_remove, if_neg]
  rintro rfl
  exact hj rfl

/-- The slot of `i` in its leaf is the only one written. -/
theorem slot_eq {s : ℕ} : i / CHUNK * CHUNK + s = i ↔ s = i % CHUNK := by
  have hsplit := Nat.div_add_mod' i CHUNK
  omega

/-- A handle's leaf for a slot reads the table. -/
theorem World.Ok.get (hW : W.Ok tables) (ht : tables[k]?.join = some t) (i : ℕ) :
    W.get k i = t.get i := by
  obtain ⟨h, hk⟩ : ∃ h, W.handle k = some h :=
    isSome_iff_exists.mp (by rw [hW.alive k, ht]; rfl)
  obtain ⟨hlen, hr, hleaves⟩ := hW.stores k h t hk ht
  rw [World.get, hk, bind_some]
  split
  next hlt =>
    obtain ⟨a, ha⟩ := hr.exists_leafAt (div_lt_leavesOf hlt)
    obtain ⟨leaf, hleaf, hok⟩ := hleaves _ a ha
    have hmod : i % CHUNK < CHUNK := Nat.mod_lt _ (by decide)
    rw [World.leaf, ha, bind_some, hleaf, bind_some, hok.get hmod, slot_eq.mpr rfl]
  next hge =>
    symm
    rw [← Option.not_isSome_iff_eq_none]
    intro hsome
    obtain ⟨bytes, hbytes⟩ := isSome_iff_exists.mp hsome
    exact hge (hlen ▸ lt_of_get hbytes)

theorem World.Ok.contains (hW : W.Ok tables) (ht : tables[k]?.join = some t) (i : ℕ) :
    W.contains k i = t.contains i := by
  obtain ⟨h, hk⟩ : ∃ h, W.handle k = some h :=
    isSome_iff_exists.mp (by rw [hW.alive k, ht]; rfl)
  obtain ⟨hlen, hr, hleaves⟩ := hW.stores k h t hk ht
  rw [World.contains, hk, any_some]
  by_cases hlt : i < h.len
  · obtain ⟨a, ha⟩ := hr.exists_leafAt (div_lt_leavesOf hlt)
    obtain ⟨leaf, hleaf, hok⟩ := hleaves _ a ha
    have hmod : i % CHUNK < CHUNK := Nat.mod_lt _ (by decide)
    rw [World.leaf, ha, bind_some, hleaf, any_some, hok.contains hmod,
      slot_eq.mpr rfl, decide_eq_true hlt, Bool.true_and]
    rfl
  · rw [decide_eq_false hlt, Bool.false_and]
    symm
    rw [Slots.contains_eq_false, ← Option.not_isSome_iff_eq_none]
    intro hsome
    obtain ⟨bytes, hbytes⟩ := isSome_iff_exists.mp hsome
    exact hlt (hlen ▸ lt_of_get hbytes)

theorem World.Ok.exists_handle (hW : W.Ok tables) (ht : tables[k]?.join = some t) :
    ∃ h, W.handle k = some h ∧ h.len = t.len := by
  obtain ⟨h, hk⟩ : ∃ h, W.handle k = some h :=
    isSome_iff_exists.mp (by rw [hW.alive k, ht]; rfl)
  exact ⟨h, hk, (hW.stores k h t hk ht).len⟩

/-- A leaf made unshared stores its part of the table. -/
theorem leafMut_stores (hW : W.Ok tables) (ht : tables[k]?.join = some t)
    (hl : l < leavesOf t.len) :
    ∃ W' a leaf, W.leafMut k l = some (W', a) ∧ W'.Ok tables ∧ OnlyLeaf W' k l a ∧
      read W'.heap.leaves a = some leaf ∧
      leaf.Ok W'.heap.bufs (fun s => t.get (l * CHUNK + s)) 0 0 := by
  obtain ⟨h, hk, hlen⟩ := hW.exists_handle ht
  obtain ⟨W', a, hmut, hW', honly⟩ := leafMut_ok hW hk (hlen ▸ hl)
  obtain ⟨h', hk', hway⟩ := honly.way
  obtain ⟨leaf, hleaf, hok⟩ := hW'.exists_leaf hk' hway ht
  exact ⟨W', a, leaf, hmut, hW', honly, hleaf, hok⟩

/-- The buffers others point to are allocated. -/
theorem othersThan_lt (hW : W.Ok tables) : ∀ b ∈ W.othersThan a, b < W.heap.bufs.length := by
  intro b hb
  obtain ⟨other, hother, hpointer⟩ := mem_flatMap.mp hb
  obtain ⟨k, h, l, hk, hl⟩ := exists_of_mem_liveLeaves hW (mem_filter.mp hother).1
  obtain ⟨t, ht⟩ := hW.exists_table hk
  obtain ⟨leaf, hleaf, hok⟩ := hW.exists_leaf hk hl ht
  rw [hleaf, map_some, getD_some] at hpointer
  exact hok.pointers_lt b hpointer

/-- Storing a record: its slot in its handle's table is set. -/
theorem World.set_ok (hW : W.Ok tables) (ht : tables[k]?.join = some t) (hi : i < t.len)
    (bytes : Bytes) :
    ∃ W', W.set k i bytes = some (W', !t.contains i) ∧
      W'.Ok (tables.set k (some (t.set i bytes))) := by
  obtain ⟨h, hk, hlen⟩ := hW.exists_handle ht
  obtain ⟨W₁, a, leaf, hmut, hW₁, honly, hleaf, hok⟩ := leafMut_stores hW ht (div_lt_leavesOf hi)
  have hmod : i % CHUNK < CHUNK := Nat.mod_lt _ (by decide)
  obtain ⟨held, hset, hheld, hframe⟩ := @Held.set_ok _ (i % CHUNK) (W₁.othersThan a)
    ⟨W₁.heap.bufs, leaf⟩ hok hmod (othersThan_lt hW₁) bytes
  refine ⟨W₁.store a held, ?_, ?_⟩
  · have hge : ¬ h.len ≤ i := by omega
    have hcontains : leaf.contains (i % CHUNK) = t.contains i := by
      rw [hok.contains hmod, slot_eq.mpr rfl]
      rfl
    simp only [World.set, hk, bind_eq_bind, bind_some, if_neg hge, hmut, hleaf, hset,
      hcontains]
  · refine store_ok hW₁ honly ht hleaf hframe (fun _ hb => hb) (sameBut_set hi) ?_
    refine hheld.congr_slots fun s _ => ?_
    rw [get_set hi, Function.update_apply]
    simp only [slot_eq]

/-- A slot outside every record is removed already. -/
theorem remove_of_none (h : t.get i = none) : t.remove i = t := by
  refine Slots.ext t.len_remove fun j => ?_
  rw [get_remove]
  split
  next heq => rw [heq, h]
  next => rfl

theorem tables_set_self (ht : tables[k]?.join = some t) : tables.set k (some t) = tables := by
  refine ext_getElem? fun j => ?_
  rw [getElem?_set]
  split
  next heq =>
    subst heq
    rw [Option.join_eq_some_iff] at ht
    rw [ht, if_pos (List.getElem?_eq_some_iff.mp ht).1]
  next => rfl

theorem tables_set_set {t₁ t₂ : Slots Bytes} :
    (tables.set k (some t₁)).set k (some t₂) = tables.set k (some t₂) := set_set ..

/-- Emptying a slot: its handle's table loses the record. -/
theorem World.remove_ok (hW : W.Ok tables) (ht : tables[k]?.join = some t) (i : ℕ) :
    ∃ W', W.remove k i = some (W', t.contains i) ∧ W'.Ok (tables.set k (some (t.remove i))) := by
  rw [World.remove, hW.contains ht]
  by_cases hcontains : t.contains i = true
  · obtain ⟨bytes, hget⟩ := Slots.contains_iff.mp hcontains
    have hi := lt_of_get hget
    obtain ⟨W₁, a, leaf, hmut, hW₁, honly, hleaf, hok⟩ := leafMut_stores hW ht (div_lt_leavesOf hi)
    have hmod : i % CHUNK < CHUNK := Nat.mod_lt _ (by decide)
    obtain ⟨held, hremove, hheld, hframe⟩ := @Held.remove_ok _ (i % CHUNK)
      ⟨W₁.heap.bufs, leaf⟩ hok hmod
    have hheld' : held.leaf.Ok held.bufs
        (fun s => (t.remove i).get (i / CHUNK * CHUNK + s)) 0 0 := by
      refine hheld.congr_slots fun s _ => ?_
      rw [get_remove, Function.update_apply]
      simp only [slot_eq]
    have hstored := store_ok hW₁ honly ht hleaf (hframe (W₁.othersThan a)) (fun _ hb => hb)
      sameBut_remove hheld'
    have hremoved : (t.get (i / CHUNK * CHUNK + i % CHUNK)).isSome = true := by
      rw [slot_eq.mpr rfl, hget]
      rfl
    rw [hremoved] at hremove
    have ht' : (tables.set k (some (t.remove i)))[k]?.join = some (t.remove i) := by
      rw [tables_set ht, if_pos rfl]
    by_cases hlive : held.leaf.live = 0
    · obtain ⟨h', hk', hlen'⟩ := hstored.exists_handle ht'
      have hl : i / CHUNK < leavesOf h'.len := by
        rw [hlen', Slots.len_remove]
        exact div_lt_leavesOf hi
      obtain ⟨W₂, node, hnode, hview, honlyNode⟩ := nodeMut_ok hstored hk' hl
      have hW₂ := hstored.congr hview
      refine ⟨W₂.place node (i / CHUNK) EMPTY_LEAF, ?_, ?_⟩
      · simp only [hcontains, if_true, hmut, hleaf, hremove, hlive, hnode, bind_eq_bind,
          bind_some]
      · have hplaced := place_ok hW₂ honlyNode ht' (hlen' ▸ hl) ⟨rfl, fun _ _ => rfl⟩
          hW₂.emptyLeaf (Leaf.new_ok (hheld'.none_of_live hlive))
        rwa [tables_set_set] at hplaced
    · refine ⟨W₁.store a held, ?_, hstored⟩
      simp only [hcontains, if_true, hmut, hleaf, hremove, if_neg hlive, bind_eq_bind,
        bind_some]
  · have hnone : t.get i = none := Slots.contains_eq_false.mp (by simpa using hcontains)
    refine ⟨W, ?_, ?_⟩
    · rw [if_neg hcontains]
      simp only [hcontains]
    · rw [remove_of_none hnone, tables_set_self ht]
      exact hW

/-! ### Growing -/

theorem get_of_le (h : t.len ≤ i) : t.get i = none := by
  rw [← Option.not_isSome_iff_eq_none]
  intro hsome
  obtain ⟨bytes, hbytes⟩ := isSome_iff_exists.mp hsome
  exact absurd (lt_of_get hbytes) (not_lt.mpr h)

/-- A position more, at the end, for the empty leaf. -/
theorem World.Ok.grow {n : ℕ} (hW : W.Ok tables) (ht : tables[k]?.join = some t)
    (hk : W.handle k = some h)
    (hleaves : W'.heap.leaves = W.heap.leaves) (hbufs : W'.heap.bufs = W.heap.bufs)
    (hlength : W'.handles.length = W.handles.length)
    (hhandle : ∀ k', W'.handle k' = if k' = k then some h' else W.handle k')
    (hlen : h'.len = n) (hn : t.len ≤ n)
    (hrooted : ∀ k' h', W'.handle k' = some h' → Rooted W'.heap h')
    (hself : ∀ l, W'.heap.leafAt h'.root l =
      if l = leavesOf t.len then some EMPTY_LEAF else W.heap.leafAt h.root l)
    (hother : ∀ k' h' l, k' ≠ k → W.handle k' = some h' →
      W'.heap.leafAt h'.root l = W.heap.leafAt h'.root l) :
    W'.Ok (tables.set k (some (t.growTo n))) := by
  refine ⟨?_, ?_, ?_, ?_⟩
  · rw [hlength, length_set]
    exact hW.length
  · intro k'
    rw [hhandle, tables_set ht]
    split
    next => rfl
    next => exact hW.alive k'
  · intro k' h₁ t₁ hk₁ ht₁
    have hr := hrooted k' h₁ hk₁
    rw [hhandle] at hk₁
    rw [tables_set ht] at ht₁
    split at hk₁
    next heq =>
      rw [if_pos heq] at ht₁
      cases hk₁
      cases ht₁
      refine ⟨?_, hr, ?_⟩
      · rw [len_growTo, hlen, Nat.max_eq_right hn]
      · intro l a ha
        rw [hself] at ha
        rw [hleaves, hbufs]
        split at ha
        next hl =>
          cases ha
          refine ⟨.new, hW.emptyLeaf, Leaf.new_ok fun s hs => ?_⟩
          rw [get_growTo, hl]
          refine get_of_le ?_
          have hceil : t.len ≤ leavesOf t.len * CHUNK := by
            simp only [leavesOf, CHUNK]
            omega
          omega
        next =>
          obtain ⟨leaf, hleaf, hok⟩ := (hW.stores k h t hk ht).leaves l a ha
          refine ⟨leaf, hleaf, ?_⟩
          simp only [get_growTo]
          exact hok
    next hne =>
      rw [if_neg hne] at ht₁
      obtain ⟨hlen₁, -, hstores⟩ := hW.stores k' h₁ t₁ hk₁ ht₁
      refine ⟨hlen₁, hr, ?_⟩
      intro l a ha
      rw [hother k' h₁ l hne hk₁] at ha
      rw [hleaves, hbufs]
      exact hstores l a ha
  · rw [hleaves]
    exact hW.emptyLeaf

theorem le_leavesOf (len : ℕ) : len ≤ leavesOf len * CHUNK := by
  simp only [leavesOf, CHUNK]
  omega

theorem leavesOf_grown (len : ℕ) : leavesOf (leavesOf len * CHUNK + 1) = leavesOf len + 1 := by
  simp only [leavesOf, CHUNK]
  omega

/-- A position more under a new root and node. -/
theorem growLeaf_root (hW : W.Ok tables) (ht : tables[k]?.join = some t)
    (hspan : leavesOf t.len * CHUNK % (CHUNK * FANOUT) = 0) :
    ∃ W', W.growLeaf k = some W' ∧
      W'.Ok (tables.set k (some (t.growTo (leavesOf t.len * CHUNK + 1)))) := by
  obtain ⟨h, hk, hlen⟩ := hW.exists_handle ht
  have hr := hW.rooted hk
  obtain ⟨cell, hcell, hclen⟩ := hr.root
  rw [hlen] at hclen
  have hfull : cell.length = leavesOf t.len / FANOUT ∧ leavesOf t.len % FANOUT = 0 := by
    simp only [CHUNK, FANOUT] at hspan hclen ⊢
    omega
  obtain ⟨W', hW'⟩ : ∃ W' : World, W' = {
      heap := { W.heap with
        roots := W.heap.roots ++ [cell ++ [W.heap.nodes.length]]
        nodes := W.heap.nodes ++ [[EMPTY_LEAF]] }
      handles := W.handles.set k
        (some ⟨W.heap.roots.length, leavesOf t.len * CHUNK + 1⟩) } := ⟨_, rfl⟩
  have hhandle : ∀ k', W'.handle k' = if k' = k then
      some ⟨W.heap.roots.length, leavesOf t.len * CHUNK + 1⟩ else W.handle k' := fun k' => by
    rw [hW']
    exact handle_set (handle_lt hk)
  have hroot : ∀ {r c}, read W.heap.roots r = some c → read W'.heap.roots r = some c := by
    intro r c hr
    rw [hW']
    exact read_append hr _
  have hnode : ∀ {n c}, read W.heap.nodes n = some c → read W'.heap.nodes n = some c := by
    intro n c hn
    rw [hW']
    exact read_append hn _
  have hnewRoot : read W'.heap.roots W.heap.roots.length = some
    (cell ++ [W.heap.nodes.length]) := by
    rw [hW']
    exact getElem?_concat_length
  have hnewNode : read W'.heap.nodes W.heap.nodes.length = some [EMPTY_LEAF] := by
    rw [hW']
    exact getElem?_concat_length
  have hold : ∀ {k' h'}, W.handle k' = some h' → ∀ n ∈ W.heap.rootCell h'.root,
      read W'.heap.nodes n = read W.heap.nodes n := by
    intro k' h' hk' n hn
    obtain ⟨j, hj⟩ := mem_iff_getElem?.mp hn
    obtain ⟨c, hc, -⟩ := (hW.rooted hk').nodes j n hj
    rw [hnode hc, hc]
  refine ⟨W', ?_, hW.grow ht hk ?_ ?_ ?_ hhandle rfl ?_ ?_ ?_ ?_⟩
  · have hleaves : (h.len + CHUNK - 1) / CHUNK = leavesOf t.len := by rw [hlen]; rfl
    simp only [World.growLeaf, hk, bind_eq_bind, bind_some, hleaves, if_pos hspan,
      rootCell_of_read hcell, hW']
  · rw [hW']
  · rw [hW']
  · rw [hW', length_set]
  · exact (le_leavesOf _).trans (Nat.le_succ _)
  · intro k' h' hk'
    rw [hhandle] at hk'
    split at hk'
    next heq =>
      cases hk'
      refine ⟨⟨_, hnewRoot, ?_⟩, ?_⟩
      · rw [length_append, length_singleton, hfull.1, leavesOf_grown]
        simp only [FANOUT] at hfull ⊢
        omega
      · intro j n hj
        rw [rootCell_of_read hnewRoot] at hj
        simp only [leavesOf_grown]
        by_cases hlt : j < cell.length
        · rw [getElem?_append_left hlt] at hj
          obtain ⟨c, hc, hclen'⟩ := hr.nodes j n (by rw [rootCell_of_read hcell]; exact hj)
          refine ⟨c, hnode hc, hclen'.trans ?_⟩
          rw [hlen]
          simp only [FANOUT] at hfull ⊢
          omega
        · have hj' : j = cell.length := by
            have hjlt := (List.getElem?_eq_some_iff.mp hj).1
            rw [length_append, length_singleton] at hjlt
            omega
          rw [hj', getElem?_concat_length] at hj
          cases hj
          refine ⟨_, hnewNode, ?_⟩
          rw [length_singleton, hj']
          simp only [FANOUT] at hfull ⊢
          omega
    next =>
      obtain ⟨c, hc, -⟩ := (hW.rooted hk').root
      exact (hW.rooted hk').congr rfl ((hroot hc).trans hc.symm) (hold hk')
  · intro l
    rw [Heap.leafAt, Heap.leafAt, rootCell_of_read hnewRoot, rootCell_of_read hcell]
    by_cases hlt : l / FANOUT < cell.length
    · have hne : l ≠ leavesOf t.len := by
        rintro rfl
        rw [hfull.1] at hlt
        exact lt_irrefl _ hlt
      rw [if_neg hne, getElem?_append_left hlt, getElem?_eq_getElem hlt, bind_some,
        bind_some, Heap.nodeCell, Heap.nodeCell,
        hold hk _ (by rw [rootCell_of_read hcell]; exact getElem_mem hlt)]
    · rw [getElem?_eq_none (not_lt.mp hlt), bind_none]
      by_cases heq : l / FANOUT = cell.length
      · rw [heq, getElem?_concat_length, bind_some, nodeCell_of_read hnewNode]
        by_cases hl : l = leavesOf t.len
        · rw [if_pos hl, hl, hfull.2]
          rfl
        · rw [if_neg hl, getElem?_eq_none]
          rw [length_singleton]
          simp only [FANOUT] at hfull heq ⊢
          omega
      · have hl : l ≠ leavesOf t.len := by
          rintro rfl
          exact heq hfull.1.symm
        rw [if_neg hl, getElem?_eq_none, bind_none]
        rw [length_append, length_singleton]
        omega
  · intro k' h' l _ hk'
    obtain ⟨c, hc, -⟩ := (hW.rooted hk').root
    refine leafAt_congr ?_ fun n hn => ?_
    · rw [rootCell_of_read (hroot hc), rootCell_of_read hc]
    · rw [Heap.nodeCell, Heap.nodeCell, hold hk' n hn]

/-- A position more under the last node. -/
theorem growLeaf_node (hW : W.Ok tables) (ht : tables[k]?.join = some t)
    (hspan : leavesOf t.len * CHUNK % (CHUNK * FANOUT) ≠ 0) :
    ∃ W', W.growLeaf k = some W' ∧
      W'.Ok (tables.set k (some (t.growTo (leavesOf t.len * CHUNK + 1)))) := by
  obtain ⟨h, hk, hlen⟩ := hW.exists_handle ht
  obtain ⟨W₁, root, hmut, hview, honly, hk₁, -, -⟩ := rootMut_ok hW hk
  have hW₁ := hW.congr hview
  have hr := hW₁.rooted hk₁
  obtain ⟨cell, hcell, hclen⟩ := hr.root
  simp only [hlen] at hclen
  have hunfilled : cell.length = leavesOf t.len / FANOUT + 1 ∧ leavesOf t.len % FANOUT ≠ 0 := by
    simp only [CHUNK, FANOUT] at hspan hclen ⊢
    omega
  have hlastLt : cell.length - 1 < cell.length :=
    Nat.sub_lt (by rw [hunfilled.1]; exact Nat.succ_pos _) Nat.one_pos
  have hlast : cell[cell.length - 1]? = some cell[cell.length - 1] := getElem?_eq_getElem hlastLt
  obtain ⟨c, hc, hclen'⟩ := hr.nodes (cell.length - 1) cell[cell.length - 1]
    (by rw [rootCell_of_read hcell]; exact hlast)
  have hclenEq : c.length = leavesOf t.len % FANOUT := by
    simp only [hlen] at hclen'
    simp only [FANOUT] at hclen' hunfilled ⊢
    omega
  obtain ⟨W', hW'⟩ : ∃ W' : World, W' = {
      heap := { W₁.heap with
        roots := W₁.heap.roots.set root (cell.set (cell.length - 1) W₁.heap.nodes.length)
        nodes := W₁.heap.nodes ++ [c ++ [EMPTY_LEAF]] }
      handles := W₁.handles.set k (some ⟨root, leavesOf t.len * CHUNK + 1⟩) } := ⟨_, rfl⟩
  have hhandle : ∀ k', W'.handle k' = if k' = k then
      some ⟨root, leavesOf t.len * CHUNK + 1⟩ else W₁.handle k' := fun k' => by
    rw [hW']
    exact handle_set (handle_lt hk₁)
  have hself : read W'.heap.roots root =
      some (cell.set (cell.length - 1) W₁.heap.nodes.length) := by
    rw [hW']
    exact read_set_self (read_lt hcell)
  have hroot : ∀ r, r ≠ root → read W'.heap.roots r = read W₁.heap.roots r := by
    intro r hr
    rw [hW']
    exact read_set_ne hr
  have hnode : ∀ {n c}, read W₁.heap.nodes n = some c → read W'.heap.nodes n = some c := by
    intro n c hn
    rw [hW']
    exact read_append hn _
  have hnewNode : read W'.heap.nodes W₁.heap.nodes.length = some (c ++ [EMPTY_LEAF]) := by
    rw [hW']
    exact getElem?_concat_length
  have hold : ∀ {k' h'}, W₁.handle k' = some h' → ∀ n ∈ W₁.heap.rootCell h'.root,
      read W'.heap.nodes n = read W₁.heap.nodes n := by
    intro k' h' hk' n hn
    obtain ⟨j, hj⟩ := mem_iff_getElem?.mp hn
    obtain ⟨c, hc, -⟩ := (hW₁.rooted hk').nodes j n hj
    rw [hnode hc, hc]
  have hother : ∀ {k' h'}, k' ≠ k → W₁.handle k' = some h' → h'.root ≠ root :=
    fun hne hk' heq => hne (honly.2 _ _ hk' heq)
  refine ⟨W', ?_, hW₁.grow ht hk₁ ?_ ?_ ?_ hhandle rfl ?_ ?_ ?_ ?_⟩
  · have hleaves : (h.len + CHUNK - 1) / CHUNK = leavesOf t.len := by rw [hlen]; rfl
    simp only [World.growLeaf, hk, bind_eq_bind, bind_some, hleaves, if_neg hspan, hmut,
      rootCell_of_read hcell, hlast, nodeCell_of_read hc, hW']
  · rw [hW']
  · rw [hW']
  · rw [hW', length_set]
  · exact (le_leavesOf _).trans (Nat.le_succ _)
  · intro k' h' hk'
    rw [hhandle] at hk'
    split at hk'
    next heq =>
      cases hk'
      refine ⟨⟨_, hself, ?_⟩, ?_⟩
      · rw [length_set, hunfilled.1, leavesOf_grown]
        simp only [FANOUT] at hunfilled ⊢
        omega
      · intro j n hj
        rw [rootCell_of_read hself, getElem?_set, if_pos hlastLt] at hj
        simp only [leavesOf_grown]
        split at hj
        next hj' =>
          cases hj
          refine ⟨_, hnewNode, ?_⟩
          rw [length_append, length_singleton, hclenEq, ← hj']
          simp only [FANOUT] at hunfilled ⊢
          omega
        next hne =>
          have hjlt := (List.getElem?_eq_some_iff.mp hj).1
          obtain ⟨c', hc', hclen''⟩ := hr.nodes j n (by rw [rootCell_of_read hcell]; exact hj)
          refine ⟨c', hnode hc', hclen''.trans ?_⟩
          simp only [hlen]
          simp only [FANOUT] at hunfilled ⊢
          omega
    next hne =>
      exact (hW₁.rooted hk').congr rfl (hroot _ (hother hne hk')) (hold hk')
  · intro l
    rw [Heap.leafAt, Heap.leafAt, rootCell_of_read hself, rootCell_of_read hcell, getElem?_set,
      if_pos hlastLt]
    split
    next hl =>
      rw [bind_some, nodeCell_of_read hnewNode, ← hl, hlast, bind_some,
        nodeCell_of_read hc]
      by_cases heq : l = leavesOf t.len
      · rw [if_pos heq, heq, ← hclenEq, getElem?_concat_length]
      · rw [if_neg heq]
        by_cases hlt : l % FANOUT < c.length
        · rw [getElem?_append_left hlt]
        · rw [getElem?_eq_none (not_lt.mp hlt), getElem?_eq_none]
          rw [length_append, length_singleton, hclenEq]
          rw [hclenEq] at hlt
          simp only [FANOUT] at hunfilled hl hlt ⊢
          omega
    next hne =>
      have heq : l ≠ leavesOf t.len := by
        rintro rfl
        exact hne (by rw [hunfilled.1, Nat.add_sub_cancel])
      rw [if_neg heq]
      cases hn : cell[l / FANOUT]? with
      | none => rfl
      | some n =>
        have hmem : n ∈ W₁.heap.rootCell root := by
          rw [rootCell_of_read hcell]
          exact mem_of_getElem? hn
        rw [bind_some, bind_some, Heap.nodeCell, Heap.nodeCell, hold hk₁ n hmem]
  · intro k' h' l hne hk'
    refine leafAt_congr ?_ fun n hn => ?_
    · rw [Heap.rootCell, Heap.rootCell, hroot _ (hother hne hk')]
    · rw [Heap.nodeCell, Heap.nodeCell, hold hk' n hn]

theorem growLeaf_ok (hW : W.Ok tables) (ht : tables[k]?.join = some t) :
    ∃ W', W.growLeaf k = some W' ∧
      W'.Ok (tables.set k (some (t.growTo (leavesOf t.len * CHUNK + 1)))) := by
  by_cases hspan : leavesOf t.len * CHUNK % (CHUNK * FANOUT) = 0
  · exact growLeaf_root hW ht hspan
  · exact growLeaf_node hW ht hspan

theorem growTo_growTo {n n' : ℕ} : (t.growTo n).growTo n' = t.growTo (max n n') := by
  refine Slots.ext ?_ fun i => ?_
  · simp only [len_growTo, Nat.max_assoc]
  · simp only [get_growTo]

/-- The positions a growth adds, one by one. -/
theorem growLeaves_ok {newLen n : ℕ} (hW : W.Ok tables) (ht : tables[k]?.join = some t)
    (hn : leavesOf t.len + n ≤ leavesOf newLen) :
    ∃ W' grown, World.growLeaves k n W = some W' ∧ W'.Ok (tables.set k (some (t.growTo grown))) ∧
      grown ≤ newLen ∧ leavesOf (max t.len grown) = leavesOf t.len + n := by
  induction n generalizing W tables t with
  | zero =>
    refine ⟨W, 0, rfl, ?_, Nat.zero_le _, by rw [Nat.max_eq_left (Nat.zero_le _)]; rfl⟩
    have hsame : t.growTo 0 = t := by
      refine Slots.ext ?_ fun i => get_growTo
      rw [len_growTo, Nat.max_eq_left (Nat.zero_le _)]
    rw [hsame, tables_set_self ht]
    exact hW
  | succ n ih =>
    obtain ⟨W₁, hgrow, hW₁⟩ := growLeaf_ok hW ht
    have hlen : (t.growTo (leavesOf t.len * CHUNK + 1)).len = leavesOf t.len * CHUNK + 1 := by
      rw [len_growTo, Nat.max_eq_right ((le_leavesOf _).trans (Nat.le_succ _))]
    have ht₁ : (tables.set k (some (t.growTo (leavesOf t.len * CHUNK + 1))))[k]?.join =
        some (t.growTo (leavesOf t.len * CHUNK + 1)) := by
      rw [tables_set ht, if_pos rfl]
    obtain ⟨W', grown, hrun, hW', hle, hleaves⟩ := ih hW₁ ht₁ (by
      rw [hlen, leavesOf_grown]
      omega)
    refine ⟨W', max (leavesOf t.len * CHUNK + 1) grown, ?_, ?_, ?_, ?_⟩
    · rw [World.growLeaves, hgrow, bind_some, hrun]
    · rw [tables_set_set, growTo_growTo] at hW'
      exact hW'
    · refine max_le ?_ hle
      simp only [leavesOf, CHUNK] at hn ⊢
      omega
    · rw [hlen, leavesOf_grown] at hleaves
      rw [← Nat.max_assoc, Nat.max_eq_right ((le_leavesOf t.len).trans (Nat.le_succ _)), hleaves]
      omega

/-- A length within the positions there are. -/
theorem setLen_ok {n : ℕ} (hW : W.Ok tables) (ht : tables[k]?.join = some t)
    (hk : W.handle k = some h) (hn : t.len ≤ n) (hleaves : leavesOf n = leavesOf t.len) :
    World.Ok { W with handles := W.handles.set k (some { h with len := n }) }
      (tables.set k (some (t.growTo n))) := by
  have hhandle : ∀ k', World.handle { W with handles := W.handles.set k (some { h with len := n }) }
    k' =
      if k' = k then some { h with len := n } else W.handle k' := fun k' =>
    handle_set (handle_lt hk)
  obtain ⟨hlen, hr, hstores⟩ := hW.stores k h t hk ht
  refine ⟨?_, ?_, ?_, hW.emptyLeaf⟩
  · rw [length_set, length_set]
    exact hW.length
  · intro k'
    rw [hhandle, tables_set ht]
    split
    next => rfl
    next => exact hW.alive k'
  · intro k' h₁ t₁ hk₁ ht₁
    rw [hhandle] at hk₁
    rw [tables_set ht] at ht₁
    split at hk₁
    next heq =>
      rw [if_pos heq] at ht₁
      cases hk₁
      cases ht₁
      refine ⟨?_, ?_, ?_⟩
      · rw [len_growTo, Nat.max_eq_right hn]
      · obtain ⟨cell, hcell, hclen⟩ := hr.root
        refine ⟨⟨cell, hcell, ?_⟩, ?_⟩
        · simp only [hleaves]
          rwa [hlen] at hclen
        · intro j node hj
          simp only [hleaves]
          rw [← hlen]
          exact hr.nodes j node hj
      · intro l a ha
        obtain ⟨leaf, hleaf, hok⟩ := hstores l a ha
        refine ⟨leaf, hleaf, ?_⟩
        simp only [get_growTo]
        exact hok
    next hne =>
      rw [if_neg hne] at ht₁
      obtain ⟨hlen₁, hr₁, hstores₁⟩ := hW.stores k' h₁ t₁ hk₁ ht₁
      exact ⟨hlen₁, hr₁, hstores₁⟩

/-- Growing: its handle's table gets empty slots. -/
theorem World.growTo_ok (hW : W.Ok tables) (ht : tables[k]?.join = some t) (newLen : ℕ) :
    ∃ W', W.growTo k newLen = some W' ∧ W'.Ok (tables.set k (some (t.growTo newLen))) := by
  obtain ⟨h, hk, hlen⟩ := hW.exists_handle ht
  obtain ⟨W₁, grown, hrun, hW₁, hle, hleaves⟩ : ∃ W' grown,
      World.growLeaves k (leavesOf newLen - leavesOf h.len) W = some W' ∧
      W'.Ok (tables.set k (some (t.growTo grown))) ∧ grown ≤ newLen ∧
      leavesOf (max t.len grown) = leavesOf t.len + (leavesOf newLen - leavesOf t.len) := by
    rw [hlen]
    by_cases hmore : leavesOf t.len ≤ leavesOf newLen
    · exact growLeaves_ok hW ht (by omega)
    · have hzero : leavesOf newLen - leavesOf t.len = 0 := by omega
      refine ⟨W, 0, ?_, ?_, Nat.zero_le _, ?_⟩
      · rw [hzero, World.growLeaves]
      · have hsame : t.growTo 0 = t := by
          refine Slots.ext ?_ fun i => get_growTo
          rw [len_growTo, Nat.max_eq_left (Nat.zero_le _)]
        rw [hsame, tables_set_self ht]
        exact hW
      · rw [hzero, Nat.max_eq_left (Nat.zero_le _), Nat.add_zero]
  have ht₁ : (tables.set k (some (t.growTo grown)))[k]?.join = some (t.growTo grown) := by
    rw [tables_set ht, if_pos rfl]
  obtain ⟨h₁, hk₁, hlen₁⟩ := hW₁.exists_handle ht₁
  rw [len_growTo] at hlen₁
  have hsame : leavesOf (max h₁.len newLen) = leavesOf h₁.len := by
    rcases Nat.le_total newLen h₁.len with hcase | hcase
    · rw [Nat.max_eq_left hcase]
    · rw [Nat.max_eq_right hcase]
      rw [← hlen₁] at hleaves
      have hmono : leavesOf h₁.len ≤ leavesOf newLen := by
        simp only [leavesOf, CHUNK]
        omega
      omega
  have hset := @setLen_ok W₁ h₁ k _ (t.growTo grown) (max h₁.len newLen) hW₁ ht₁ hk₁
    (by rw [len_growTo, ← hlen₁]; exact le_max_left _ _)
    (by rw [len_growTo, ← hlen₁]; exact hsame)
  have htable : (t.growTo grown).growTo (max h₁.len newLen) = t.growTo newLen := by
    refine Slots.ext ?_ fun i => by simp only [get_growTo]
    simp only [len_growTo, hlen₁]
    omega
  rw [tables_set_set, htable] at hset
  refine ⟨_, ?_, hset⟩
  have hpositions : (newLen + CHUNK - 1) / CHUNK - (h.len + CHUNK - 1) / CHUNK =
      leavesOf newLen - leavesOf h.len := rfl
  simp only [World.growTo, hk, bind_eq_bind, bind_some, hpositions, hrun, hk₁]

end Slab

end LoraDb
