import LoraDb.LeafSound
import LoraDb.RecordSlab
import LoraDb.Slots

/-!
# The Way to a Leaf

What every handle keeps of the tree under its root, and what a write makes of the way to one
leaf: after `nodeMut` one handle in one place points to the node, after `leafMut` to the leaf,
and every handle still finds the leaves it found before.

## Main results

* `nodeMut_ok`, `leafMut_ok`: the way is made unshared, and no handle's view changes.
* `leafAt_place`: pointing one position at another leaf changes that position only.
-/

open List ByteCodec Shared

namespace LoraDb

open Option

namespace Slab

/-- Leaf positions of a slab. -/
def leavesOf (len : ℕ) : ℕ := (len + CHUNK - 1) / CHUNK

/-- The tree under a root is packed from the front. -/
structure Rooted (H : Heap) (h : Handle) : Prop where
  root : ∃ cell, read H.roots h.root = some cell ∧
    cell.length = (leavesOf h.len + FANOUT - 1) / FANOUT
  nodes : ∀ j node, (H.rootCell h.root)[j]? = some node →
    ∃ cell, read H.nodes node = some cell ∧ cell.length = min FANOUT (leavesOf h.len - j * FANOUT)

/-- A handle **stores** the records of `t`. -/
structure Stores (W : World) (h : Handle) (t : Slots Bytes) : Prop where
  len : h.len = t.len
  rooted : Rooted W.heap h
  leaves : ∀ l a, W.heap.leafAt h.root l = some a → ∃ leaf, read W.heap.leaves a = some leaf ∧
    leaf.Ok W.heap.bufs (fun s => t.get (l * CHUNK + s)) 0 0

/-- Every handle alive stores the records of its table. -/
structure World.Ok (W : World) (tables : List (Option (Slots Bytes))) : Prop where
  length : W.handles.length = tables.length
  alive : ∀ k, (W.handle k).isSome = (tables[k]?.join).isSome
  stores : ∀ k h t, W.handle k = some h → tables[k]?.join = some t → Stores W h t
  emptyLeaf : read W.heap.leaves EMPTY_LEAF = some .new

variable {W W' : World} {H H' : Heap} {h h' : Handle} {k k' l l' : ℕ} {node leaf : Addr}
  {tables : List (Option (Slots Bytes))} {t : Slots Bytes}

/-! ### The tree -/

theorem rootCell_of_read {root : Addr} {cell : List Addr} (h : read H.roots root = some cell) :
    H.rootCell root = cell := by
  rw [Heap.rootCell, h, getD_some]

theorem nodeCell_of_read {cell : List Addr} (h : read H.nodes node = some cell) :
    H.nodeCell node = cell := by
  rw [Heap.nodeCell, h, getD_some]

/-- There is a leaf at every position, and at no other. -/
theorem Rooted.leafAt_isSome (hr : Rooted H h) :
    (H.leafAt h.root l).isSome = true ↔ l < leavesOf h.len := by
  obtain ⟨cell, hcell, hlen⟩ := hr.root
  rw [Heap.leafAt]
  cases hnode : (H.rootCell h.root)[l / FANOUT]? with
  | none =>
    rw [rootCell_of_read hcell, getElem?_eq_none_iff, hlen] at hnode
    simp only [bind_none, isSome_none, Bool.false_eq_true, false_iff, FANOUT] at *
    omega
  | some node =>
    obtain ⟨c, hc, hclen⟩ := hr.nodes _ _ hnode
    have hlt : l / FANOUT < (leavesOf h.len + FANOUT - 1) / FANOUT := by
      rw [rootCell_of_read hcell] at hnode
      rw [← hlen]
      exact (List.getElem?_eq_some_iff.mp hnode).1
    rw [bind_some, nodeCell_of_read hc, isSome_getElem?, hclen]
    simp only [FANOUT] at *
    omega

theorem Rooted.exists_leafAt (hr : Rooted H h) (hl : l < leavesOf h.len) :
    ∃ a, H.leafAt h.root l = some a :=
  Option.isSome_iff_exists.mp (hr.leafAt_isSome.mpr hl)

theorem leafAt_eq_some {root a : Addr} : H.leafAt root l = some a ↔
    ∃ node, (H.rootCell root)[l / FANOUT]? = some node ∧ (H.nodeCell node)[l % FANOUT]? =
      some a := by
  rw [Heap.leafAt, bind_eq_some_iff]

theorem handle_set {handles : List (Option Handle)} {x : Option Handle} (hk : k < handles.length) :
    (World.mk H (handles.set k x)).handle k' = if k' = k then x
      else (World.mk H' handles).handle k' := by
  rw [World.handle, World.handle, getElem?_set, if_pos hk]
  split
  next heq => rw [if_pos heq.symm, join_some]
  next hne => rw [if_neg (Ne.symm hne)]

theorem handle_lt (h : W.handle k = some h') : k < W.handles.length := by
  by_contra hge
  rw [World.handle, getElem?_eq_none (not_lt.mp hge)] at h
  cases h

theorem handle_eq_some : W.handle k = some h ↔ W.handles[k]? = some (some h) := by
  rw [World.handle, join_eq_some_iff]

theorem mem_liveRoots {root : Addr} :
    root ∈ W.liveRoots ↔ ∃ k h, W.handle k = some h ∧ h.root = root := by
  rw [World.liveRoots, mem_filterMap]
  constructor
  · rintro ⟨x, hmem, hx⟩
    obtain ⟨h, rfl, hroot⟩ := Option.map_eq_some_iff.mp hx
    obtain ⟨k, hk⟩ := mem_iff_getElem?.mp hmem
    exact ⟨k, h, handle_eq_some.mpr hk, hroot⟩
  · rintro ⟨k, h, hk, hroot⟩
    refine ⟨some h, mem_of_getElem? (handle_eq_some.mp hk), ?_⟩
    rw [map_some, hroot]

/-- A root pointed to once is of one handle. -/
theorem handle_unique (hcount : W.rootCount h.root = 1) (hk : W.handle k = some h)
    (hk' : W.handle k' = some h') (hroot : h'.root = h.root) : k' = k := by
  rw [World.rootCount, World.liveRoots, filterMap_eq_flatMap_toList] at hcount
  refine owner_unique hcount (handle_eq_some.mp hk') (handle_eq_some.mp hk) ?_ ?_
  · rw [map_some, hroot]
    exact mem_singleton_self _
  · rw [map_some]
    exact mem_singleton_self _

/-- A tree that reads alike is rooted alike. -/
theorem Rooted.congr (hr : Rooted H h) (hlen : h'.len = h.len)
    (hroot : read H'.roots h'.root = read H.roots h.root)
    (hnodes : ∀ node ∈ H.rootCell h.root, read H'.nodes node = read H.nodes node) :
    Rooted H' h' := by
  obtain ⟨cell, hcell, hclen⟩ := hr.root
  have hsame : H'.rootCell h'.root = H.rootCell h.root := by
    rw [Heap.rootCell, Heap.rootCell, hroot]
  refine ⟨⟨cell, hroot.trans hcell, by rw [hlen]; exact hclen⟩, ?_⟩
  intro j node hnode
  rw [hsame] at hnode
  rw [hnodes node (mem_of_getElem? hnode), hlen]
  exact hr.nodes j node hnode

theorem leafAt_congr {root root' : Addr} (hroot : H'.rootCell root' = H.rootCell root)
    (hnodes : ∀ node ∈ H.rootCell root, H'.nodeCell node = H.nodeCell node) :
    H'.leafAt root' l = H.leafAt root l := by
  rw [Heap.leafAt, Heap.leafAt, hroot]
  cases hnode : (H.rootCell root)[l / FANOUT]? with
  | none => rfl
  | some node => rw [bind_some, bind_some, hnodes node (mem_of_getElem? hnode)]

/-! ### Views -/

/-- Every handle finds the leaves it found before. -/
structure SameView (W W' : World) : Prop where
  leaves : W'.heap.leaves = W.heap.leaves
  bufs : W'.heap.bufs = W.heap.bufs
  length : W'.handles.length = W.handles.length
  len : ∀ k, (W'.handle k).map Handle.len = (W.handle k).map Handle.len
  rooted : ∀ k h, W'.handle k = some h → Rooted W'.heap h
  leafAt : ∀ k h h', W.handle k = some h → W'.handle k = some h' →
    ∀ l, W'.heap.leafAt h'.root l = W.heap.leafAt h.root l

theorem SameView.trans {W'' : World} (hab : SameView W W') (hbc : SameView W' W'') :
    SameView W W'' where
  leaves := hbc.leaves.trans hab.leaves
  bufs := hbc.bufs.trans hab.bufs
  length := hbc.length.trans hab.length
  len k := (hbc.len k).trans (hab.len k)
  rooted := hbc.rooted
  leafAt k h h'' hk hk'' l := by
    have hlen := hab.len k
    rw [hk, map_some] at hlen
    obtain ⟨h', hk', -⟩ := Option.map_eq_some_iff.mp hlen
    exact (hbc.leafAt k h' h'' hk' hk'' l).trans (hab.leafAt k h h' hk hk' l)

/-- What the tables say of a world, they say of any with the same view. -/
theorem World.Ok.congr (hW : W.Ok tables) (hview : SameView W W') : W'.Ok tables where
  length := hview.length.trans hW.length
  alive k := by rw [← hW.alive k, ← isSome_map, hview.len k, isSome_map]
  stores k h' t hk' ht := by
    have hlen := hview.len k
    rw [hk', map_some] at hlen
    obtain ⟨h, hk, hlen'⟩ := Option.map_eq_some_iff.mp hlen.symm
    obtain ⟨hlen, -, hleaves⟩ := hW.stores k h t hk ht
    refine ⟨hlen'.symm.trans hlen, hview.rooted k h' hk', ?_⟩
    intro l a ha
    rw [hview.leafAt k h h' hk hk' l] at ha
    rw [hview.leaves, hview.bufs]
    exact hleaves l a ha
  emptyLeaf := by
    rw [hview.leaves]
    exact hW.emptyLeaf

/-- A handle alive has a table. -/
theorem World.Ok.exists_table (hW : W.Ok tables) (hk : W.handle k = some h) :
    ∃ t, tables[k]?.join = some t :=
  Option.isSome_iff_exists.mp (by rw [← hW.alive k, hk]; rfl)

theorem World.Ok.rooted (hW : W.Ok tables) (hk : W.handle k = some h) : Rooted W.heap h := by
  obtain ⟨t, ht⟩ := hW.exists_table hk
  exact (hW.stores k h t hk ht).rooted

/-! ### The root -/

/-- One handle alone points to the root. -/
def OnlyRoot (W : World) (k : ℕ) (root : Addr) : Prop :=
  (∃ h, W.handle k = some h ∧ h.root = root) ∧
    ∀ k' h', W.handle k' = some h' → h'.root = root → k' = k

/-- A handle's root is made unshared. -/
theorem rootMut_ok (hW : W.Ok tables) (hk : W.handle k = some h) :
    ∃ W' root, W.rootMut k = some (W', root) ∧ SameView W W' ∧ OnlyRoot W' k root ∧
      W'.handle k = some { h with root } ∧ W'.heap.nodes = W.heap.nodes ∧
      W'.heap.rootCell root = W.heap.rootCell h.root := by
  obtain ⟨cell, hcell, hlen⟩ := (hW.rooted hk).root
  obtain ⟨roots, root, hmut⟩ := makeMut_isSome hcell (W.rootCount h.root)
  have hklt := handle_lt hk
  have hroot : ∀ k' h', W.handle k' = some h' → read roots h'.root = read W.heap.roots h'.root := by
    intro k' h' hk'
    obtain ⟨cell', hcell', -⟩ := (hW.rooted hk').root
    rw [makeMut_other hmut hcell', hcell']
  obtain ⟨W', hW'⟩ : ∃ W' : World, W' =
    ⟨{ W.heap with roots }, W.handles.set k (some { h with root })⟩ :=
    ⟨_, rfl⟩
  have hhandle : ∀ k', W'.handle k' = if k' = k then some { h with root } else W.handle k' := by
    intro k'
    rw [hW']
    exact handle_set hklt
  have hself : W'.handle k = some { h with root } := by rw [hhandle, if_pos rfl]
  have hread : read roots root = read W.heap.roots h.root := makeMut_read hmut
  have hcellEq : W'.heap.rootCell root = W.heap.rootCell h.root := by
    rw [Heap.rootCell, Heap.rootCell, hW', hread]
  refine ⟨W', root, ?_, ⟨?_, ?_, ?_, ?_, ?_, ?_⟩, ⟨⟨_, hself, rfl⟩, ?_⟩, hself, ?_, hcellEq⟩
  · simp only [World.rootMut, hk, hmut, bind_eq_bind, bind_some, hW']
  · rw [hW']
  · rw [hW']
  · rw [hW', length_set]
  · intro k'
    rw [hhandle]
    split
    next heq => rw [heq, hk]; rfl
    next => rfl
  · intro k' h' hk'
    rw [hhandle] at hk'
    split at hk'
    next heq =>
      cases hk'
      refine (hW.rooted hk).congr rfl ?_ fun _ _ => ?_
      · rw [hW']
        exact hread
      · rw [hW']
    next =>
      refine (hW.rooted hk').congr rfl ?_ fun _ _ => ?_
      · rw [hW']
        exact hroot k' h' hk'
      · rw [hW']
  · intro k' h₁ h₂ hk₁ hk₂ l
    rw [hhandle] at hk₂
    split at hk₂
    next heq =>
      subst heq
      cases hk₂
      rw [hk] at hk₁
      cases hk₁
      exact leafAt_congr hcellEq fun _ _ => by rw [hW']; rfl
    next =>
      rw [hk₁] at hk₂
      cases hk₂
      refine leafAt_congr ?_ fun _ _ => by rw [hW']; rfl
      rw [Heap.rootCell, Heap.rootCell, hW', hroot k' h₁ hk₁]
  · intro k' h' hk' heq
    rw [hhandle] at hk'
    by_contra hne
    rw [if_neg hne] at hk'
    rcases makeMut_cases hmut with ⟨hone, -, rfl⟩ | ⟨-, -, -, hfresh⟩
    · exact hne (handle_unique hone hk hk' heq)
    · obtain ⟨cell', hcell', -⟩ := (hW.rooted hk').root
      have hlt := read_lt hcell'
      rw [heq, hfresh] at hlt
      exact lt_irrefl _ hlt
  · rw [hW']

/-! ### The node -/

/-- One handle alone, in one place, points to the node. -/
structure OnlyNode (W : World) (k j : ℕ) (node : Addr) : Prop where
  way : ∃ h, W.handle k = some h ∧ (W.heap.rootCell h.root)[j]? = some node
  only : ∀ k' h' j', W.handle k' = some h' → (W.heap.rootCell h'.root)[j']? = some node →
    k' = k ∧ j' = j

/-- A node pointed to once, under a root of one handle alone. -/
theorem node_unique {root : Addr} {j j' : ℕ} (hcount : W.nodeCount node = 1)
    (honly : OnlyRoot W k root) (hj : (W.heap.rootCell root)[j]? = some node)
    (hk' : W.handle k' = some h') (hj' : (W.heap.rootCell h'.root)[j']? = some node) :
    k' = k ∧ j' = j := by
  obtain ⟨⟨h, hk, hroot⟩, halone⟩ := honly
  have hmem : ∀ {root}, root ∈ W.liveRoots.dedup ↔ ∃ k h, W.handle k = some h ∧ h.root = root := by
    intro root
    rw [mem_dedup, mem_liveRoots]
  obtain ⟨heq, hindex⟩ := eq_of_count_eq_one hcount (hmem.mpr ⟨k', h', hk', rfl⟩)
    (hmem.mpr ⟨k, h, hk, hroot⟩) hj' hj
  exact ⟨halone k' h' hk' heq, hindex⟩

/-- An interior node is made unshared. -/
theorem nodeMut_ok (hW : W.Ok tables) (hk : W.handle k = some h) (hl : l < leavesOf h.len) :
    ∃ W' node, W.nodeMut k l = some (W', node) ∧ SameView W W' ∧
      OnlyNode W' k (l / FANOUT) node := by
  obtain ⟨W₁, root, hmut, hview, honly, hk₁, hnodes, hcell₁⟩ := rootMut_ok hW hk
  have hW₁ := hW.congr hview
  have hr₁ := hW₁.rooted hk₁
  obtain ⟨cell, hcell, hlen⟩ := hr₁.root
  obtain ⟨a, ha⟩ := hr₁.exists_leafAt hl
  obtain ⟨node, hnode, -⟩ := leafAt_eq_some.mp ha
  obtain ⟨c, hc, hclen⟩ := hr₁.nodes _ _ hnode
  obtain ⟨nodes, node', hmutNode⟩ := makeMut_isSome hc (W₁.nodeCount node)
  have hnodeCell : (cell)[l / FANOUT]? = some node := by rwa [rootCell_of_read hcell] at hnode
  obtain ⟨W', hW'⟩ : ∃ W' : World, W' = { W₁ with heap := { W₁.heap with
      nodes, roots := W₁.heap.roots.set root (cell.set (l / FANOUT) node') } } := ⟨_, rfl⟩
  have hhandle : ∀ k', W'.handle k' = W₁.handle k' := fun k' => by rw [hW']; rfl
  have hself : read W'.heap.roots root = some (cell.set (l / FANOUT) node') := by
    rw [hW']
    exact read_set_self (read_lt hcell)
  have hother : ∀ r, r ≠ root → read W'.heap.roots r = read W₁.heap.roots r := by
    intro r hr
    rw [hW']
    exact read_set_ne hr
  have hkept : ∀ {n c}, read W₁.heap.nodes n = some c → read W'.heap.nodes n = some c := by
    intro n c hn
    rw [hW']
    exact makeMut_other hmutNode hn
  have hnew : read W'.heap.nodes node' = some c := by
    rw [hW']
    exact (makeMut_read hmutNode).trans hc
  have hsame : ∀ {k' h'}, W₁.handle k' = some h' → ∀ n ∈ W₁.heap.rootCell h'.root,
      read W'.heap.nodes n = read W₁.heap.nodes n := by
    intro k' h' hk' n hn
    obtain ⟨j, hj⟩ := mem_iff_getElem?.mp hn
    obtain ⟨c', hc', -⟩ := (hW₁.rooted hk').nodes j n hj
    rw [hkept hc', hc']
  refine ⟨W', node', ?_, hview.trans ⟨?_, ?_, ?_, ?_, ?_, ?_⟩, ⟨?_, ?_⟩⟩
  · simp only [World.nodeMut, hmut, bind_eq_bind, bind_some, rootCell_of_read hcell,
      hnodeCell, hmutNode, hW']
  · rw [hW']
  · rw [hW']
  · rw [hW']
  · intro k'
    rw [hhandle]
  · intro k' h' hk'
    rw [hhandle] at hk'
    by_cases hroot : h'.root = root
    · obtain rfl : k' = k := honly.2 k' h' hk' hroot
      rw [hk₁] at hk'
      cases hk'
      refine ⟨⟨_, hself, by rw [length_set]; exact hlen⟩, ?_⟩
      intro j n hj
      rw [rootCell_of_read hself, getElem?_set] at hj
      split at hj
      next heq =>
        split at hj
        next =>
          cases hj
          rw [← heq]
          exact ⟨c, hnew, hclen⟩
        next => cases hj
      next =>
        obtain ⟨c', hc', hclen'⟩ := hr₁.nodes j n (by rw [rootCell_of_read hcell]; exact hj)
        exact ⟨c', hkept hc', hclen'⟩
    · exact (hW₁.rooted hk').congr rfl (hother _ hroot) (hsame hk')
  · intro k' h₁ h₂ hk₁' hk₂ l'
    rw [hhandle, hk₁'] at hk₂
    cases hk₂
    by_cases hroot : h₁.root = root
    · rw [Heap.leafAt, Heap.leafAt, hroot, rootCell_of_read hself, rootCell_of_read hcell,
        getElem?_set]
      split
      next heq =>
        rw [← heq, hnodeCell, if_pos (List.getElem?_eq_some_iff.mp hnodeCell).1, bind_some,
          bind_some, nodeCell_of_read hnew, nodeCell_of_read hc]
      next =>
        cases hn : cell[l' / FANOUT]? with
        | none => rfl
        | some n =>
          have hmem : n ∈ W₁.heap.rootCell h₁.root := by
            rw [hroot, rootCell_of_read hcell]
            exact mem_of_getElem? hn
          rw [bind_some, bind_some, Heap.nodeCell, Heap.nodeCell, hsame hk₁' n hmem]
    · refine leafAt_congr ?_ fun n hn => ?_
      · rw [Heap.rootCell, Heap.rootCell, hother _ hroot]
      · rw [Heap.nodeCell, Heap.nodeCell, hsame hk₁' n hn]
  · refine ⟨_, (hhandle k).trans hk₁, ?_⟩
    rw [rootCell_of_read hself, getElem?_set_self (List.getElem?_eq_some_iff.mp hnodeCell).1]
  · intro k' h' j' hk' hj'
    rw [hhandle] at hk'
    -- a node pointed to before the write, or by the root just written
    have hcases : (W₁.heap.rootCell h'.root)[j']? = some node' ∨ k' = k ∧ j' = l / FANOUT := by
      by_cases hroot : h'.root = root
      · rw [hroot, rootCell_of_read hself, getElem?_set] at hj'
        split at hj'
        next heq => exact Or.inr ⟨honly.2 k' h' hk' hroot, heq.symm⟩
        next =>
          refine Or.inl ?_
          rw [hroot, rootCell_of_read hcell]
          exact hj'
      · rw [Heap.rootCell, hother _ hroot] at hj'
        exact Or.inl hj'
    rcases hcases with hold | hdone
    · rcases makeMut_cases hmutNode with ⟨hone, -, rfl⟩ | ⟨-, -, -, hfresh⟩
      · exact node_unique hone honly hnode hk' hold
      · obtain ⟨c', hc', -⟩ := (hW₁.rooted hk').nodes j' node' hold
        have hlt := read_lt hc'
        rw [hfresh] at hlt
        exact absurd hlt (lt_irrefl _)
    · exact hdone

/-! ### A leaf position -/

variable {a : Addr}

/-- Pointing one position at another leaf changes that position only. -/
theorem leafAt_place (honly : OnlyNode W k (l / FANOUT) node) (hk : W.handle k = some h)
    (hr : ∀ {k' h'}, W.handle k' = some h' → Rooted W.heap h') (hl : l < leavesOf h.len) :
    (∀ k' h', W.handle k' = some h' → Rooted (W.place node l a).heap h') ∧
      ∀ k' h' l', W.handle k' = some h' → (W.place node l a).heap.leafAt h'.root l' =
        if k' = k ∧ l' = l then some a else W.heap.leafAt h'.root l' := by
  obtain ⟨⟨h₀, hk₀, hway⟩, halone⟩ := honly
  rw [hk] at hk₀
  cases hk₀
  obtain ⟨cell, hcell, hlen⟩ := (hr hk).nodes _ _ hway
  have hpos : l % FANOUT < cell.length := by
    rw [hlen]
    simp only [FANOUT]
    omega
  have hself : read (W.place node l a).heap.nodes node = some (cell.set (l % FANOUT) a) := by
    rw [World.place, nodeCell_of_read hcell]
    exact read_set_self (read_lt hcell)
  have hother : ∀ n, n ≠ node → read (W.place node l a).heap.nodes n = read W.heap.nodes n :=
    fun n hn => read_set_ne hn
  constructor
  · intro k' h' hk'
    obtain ⟨rc, hrc, hrclen⟩ := (hr hk').root
    refine ⟨⟨rc, hrc, hrclen⟩, ?_⟩
    intro j n hj
    obtain ⟨c, hc, hclen⟩ := (hr hk').nodes j n hj
    by_cases hn : n = node
    · subst hn
      rw [hcell] at hc
      cases hc
      exact ⟨_, hself, by rw [length_set]; exact hclen⟩
    · exact ⟨c, (hother n hn).trans hc, hclen⟩
  · intro k' h' l' hk'
    have hroots : (W.place node l a).heap.rootCell h'.root = W.heap.rootCell h'.root := rfl
    rw [Heap.leafAt, Heap.leafAt, hroots]
    cases hj : (W.heap.rootCell h'.root)[l' / FANOUT]? with
    | none =>
      rw [if_neg, bind_none, bind_none]
      rintro ⟨rfl, rfl⟩
      rw [hk] at hk'
      cases hk'
      rw [hway] at hj
      cases hj
    | some n =>
      rw [bind_some, bind_some]
      by_cases hn : n = node
      · subst hn
        obtain ⟨rfl, hdiv⟩ := halone k' h' _ hk' hj
        rw [nodeCell_of_read hself, nodeCell_of_read hcell, getElem?_set, if_pos hpos]
        by_cases hl' : l' = l
        · rw [if_pos (by rw [hl']), if_pos ⟨rfl, hl'⟩]
        · rw [if_neg, if_neg fun heq => hl' heq.2]
          intro hmod
          simp only [FANOUT] at hmod hdiv
          omega
      · rw [Heap.nodeCell, hother n hn, if_neg, Heap.nodeCell]
        rintro ⟨rfl, rfl⟩
        rw [hk] at hk'
        cases hk'
        rw [hway] at hj
        cases hj
        exact hn rfl

/-- One handle alone, in one place, points to the leaf. -/
structure OnlyLeaf (W : World) (k l : ℕ) (a : Addr) : Prop where
  way : ∃ h, W.handle k = some h ∧ W.heap.leafAt h.root l = some a
  only : ∀ k' h' l', W.handle k' = some h' → W.heap.leafAt h'.root l' = some a → k' = k ∧ l' = l
  ne_empty : a ≠ EMPTY_LEAF

theorem mem_liveNodes : node ∈ W.liveNodes ↔ ∃ (k : ℕ) (h : Handle) (j : ℕ), W.handle k = some h ∧
      (W.heap.rootCell h.root)[j]? = some node := by
  rw [World.liveNodes, mem_dedup, mem_flatMap]
  constructor
  · rintro ⟨root, hroot, hnode⟩
    obtain ⟨k, h, hk, rfl⟩ := mem_liveRoots.mp hroot
    obtain ⟨j, hj⟩ := mem_iff_getElem?.mp hnode
    exact ⟨k, h, j, hk, hj⟩
  · rintro ⟨k, h, j, hk, hj⟩
    exact ⟨h.root, mem_liveRoots.mpr ⟨k, h, hk, rfl⟩, mem_of_getElem? hj⟩

theorem mem_liveLeaves (hk : W.handle k = some h) (ha : W.heap.leafAt h.root l = some a) :
    a ∈ W.liveLeaves := by
  obtain ⟨node, hnode, hleaf⟩ := leafAt_eq_some.mp ha
  rw [World.liveLeaves, mem_dedup, mem_flatMap]
  exact ⟨node, mem_liveNodes.mpr ⟨k, h, _, hk, hnode⟩, mem_of_getElem? hleaf⟩

/-- A live leaf is at some handle's position. -/
theorem exists_of_mem_liveLeaves (hW : W.Ok tables) (ha : a ∈ W.liveLeaves) :
    ∃ (k : ℕ) (h : Handle) (l : ℕ), W.handle k = some h ∧ W.heap.leafAt h.root l = some a := by
  rw [World.liveLeaves, mem_dedup, mem_flatMap] at ha
  obtain ⟨node, hnode, hleaf⟩ := ha
  obtain ⟨k, h, j, hk, hj⟩ := mem_liveNodes.mp hnode
  obtain ⟨p, hp⟩ := mem_iff_getElem?.mp hleaf
  obtain ⟨cell, hcell, hlen⟩ := (hW.rooted hk).nodes j node hj
  have hlt : p < FANOUT := by
    have hp' := hp
    rw [nodeCell_of_read hcell] at hp'
    have hplen := (List.getElem?_eq_some_iff.mp hp').1
    omega
  refine ⟨k, h, j * FANOUT + p, hk, leafAt_eq_some.mpr ⟨node, ?_, ?_⟩⟩
  · rw [Nat.mul_comm, Nat.mul_add_div (by decide), Nat.div_eq_of_lt hlt, Nat.add_zero]
    exact hj
  · rw [Nat.mul_comm, Nat.mul_add_mod, Nat.mod_eq_of_lt hlt]
    exact hp

/-- A leaf pointed to once, under a node of one handle alone. -/
theorem leaf_unique (hcount : W.leafCount a = 1) (honly : OnlyNode W k (l / FANOUT) node)
    (ha : (W.heap.nodeCell node)[l % FANOUT]? = some a) (hk' : W.handle k' = some h')
    (ha' : W.heap.leafAt h'.root l' = some a) : k' = k ∧ l' = l ∧ a ≠ EMPTY_LEAF := by
  obtain ⟨⟨h, hk, hway⟩, halone⟩ := honly
  obtain ⟨node', hnode', hleaf'⟩ := leafAt_eq_some.mp ha'
  have hmem : node ∈ W.liveNodes := mem_liveNodes.mpr ⟨k, h, _, hk, hway⟩
  have hmem' : node' ∈ W.liveNodes := mem_liveNodes.mpr ⟨k', h', _, hk', hnode'⟩
  have hpos : 1 ≤ strongCount W.liveNodes W.heap.nodeCell a :=
    count_pos_iff.mpr (mem_flatMap.mpr ⟨node, hmem, mem_of_getElem? ha⟩)
  have hne : a ≠ EMPTY_LEAF := by
    intro hempty
    rw [World.leafCount, if_pos hempty] at hcount
    omega
  rw [World.leafCount, if_neg hne, Nat.add_zero] at hcount
  obtain ⟨rfl, hmod⟩ := eq_of_count_eq_one hcount hmem' hmem hleaf' ha
  obtain ⟨rfl, hdiv⟩ := halone k' h' _ hk' hnode'
  refine ⟨rfl, ?_, hne⟩
  simp only [FANOUT] at hmod hdiv
  omega

/-- A handle whose position is known has a leaf there. -/
theorem World.Ok.exists_leaf (hW : W.Ok tables) (hk : W.handle k = some h)
    (ha : W.heap.leafAt h.root l = some a) (ht : tables[k]?.join = some t) :
    ∃ leaf, read W.heap.leaves a = some leaf ∧
      leaf.Ok W.heap.bufs (fun s => t.get (l * CHUNK + s)) 0 0 :=
  (hW.stores k h t hk ht).leaves l a ha

/-- A leaf is made unshared. -/
theorem leafMut_ok (hW : W.Ok tables) (hk : W.handle k = some h) (hl : l < leavesOf h.len) :
    ∃ W' a, W.leafMut k l = some (W', a) ∧ W'.Ok tables ∧ OnlyLeaf W' k l a := by
  obtain ⟨W₁, node, hmut, hview, honly⟩ := nodeMut_ok hW hk hl
  have hW₁ := hW.congr hview
  obtain ⟨h₁, hk₁, hway⟩ := honly.way
  have hlen₁ : h₁.len = h.len := by
    have hlen := hview.len k
    rw [hk₁, hk] at hlen
    exact Option.some.inj hlen
  obtain ⟨a₀, ha₀⟩ := (hW₁.rooted hk₁).exists_leafAt (hlen₁ ▸ hl)
  obtain ⟨t, ht⟩ := hW₁.exists_table hk₁
  obtain ⟨leaf, hleaf, hok⟩ := hW₁.exists_leaf hk₁ ha₀ ht
  have hcell : (W₁.heap.nodeCell node)[l % FANOUT]? = some a₀ := by
    obtain ⟨node', hnode', hat⟩ := leafAt_eq_some.mp ha₀
    rw [hway] at hnode'
    cases hnode'
    exact hat
  obtain ⟨leaves, a, hmutLeaf⟩ := makeMut_isSome hleaf (W₁.leafCount a₀)
  obtain ⟨W₂, hW₂⟩ : ∃ W₂ : World, W₂ = { W₁ with heap := { W₁.heap with leaves } } := ⟨_, rfl⟩
  have hhandle : ∀ k', W₂.handle k' = W₁.handle k' := fun k' => by rw [hW₂]; rfl
  have hplace : W₂.handle k = some h₁ → (∀ k' h', W₂.handle k' = some h' →
      Rooted (W₂.place node l a).heap h') ∧
      ∀ k' h' l', W₂.handle k' = some h' → (W₂.place node l a).heap.leafAt h'.root l' =
        if k' = k ∧ l' = l then some a else W₂.heap.leafAt h'.root l' := by
    intro hk₂
    refine leafAt_place ⟨⟨h₁, hk₂, ?_⟩, ?_⟩ hk₂ ?_ (hlen₁ ▸ hl)
    · rw [hW₂]
      exact hway
    · rw [hW₂]
      exact honly.only
    · intro k' h' hk'
      rw [hhandle] at hk'
      exact (hW₁.rooted hk').congr rfl (by rw [hW₂]) fun _ _ => by rw [hW₂]
  obtain ⟨hrooted, hleafAt⟩ := hplace ((hhandle k).trans hk₁)
  have hsame : ∀ root l', W₂.heap.leafAt root l' = W₁.heap.leafAt root l' := fun _ _ => by
    rw [hW₂]
    rfl
  have hread : ∀ {b leaf'}, read W₁.heap.leaves b = some leaf' → read leaves b = some leaf' :=
    fun hb => makeMut_other hmutLeaf hb
  have hstored : read leaves a = some leaf := (makeMut_read hmutLeaf).trans hleaf
  have hshape : (W₂.place node l a).heap.leaves = leaves ∧ (W₂.place node l a).heap.bufs =
      W₁.heap.bufs ∧ (W₂.place node l a).handles = W₁.handles := by
    rw [hW₂]
    exact ⟨rfl, rfl, rfl⟩
  obtain ⟨hleavesEq, hbufsEq, hhandlesEq⟩ := hshape
  have hhandle' : ∀ k', (W₂.place node l a).handle k' = W₁.handle k' := fun k' => by
    rw [World.handle, World.handle, hhandlesEq]
  refine ⟨W₂.place node l a, a, ?_, ⟨?_, ?_, ?_, ?_⟩, ⟨?_, ?_, ?_⟩⟩
  · simp only [World.leafMut, hmut, bind_eq_bind, bind_some, hcell, hmutLeaf, hW₂]
  · rw [hhandlesEq]
    exact hW₁.length
  · intro k'
    rw [hhandle']
    exact hW₁.alive k'
  · intro k' h' t' hk' ht'
    rw [hhandle'] at hk'
    obtain ⟨hlen', -, hleaves'⟩ := hW₁.stores k' h' t' hk' ht'
    refine ⟨hlen', hrooted k' h' ((hhandle k').trans hk'), ?_⟩
    intro l' b hb
    rw [hleafAt k' h' l' ((hhandle k').trans hk'), hsame] at hb
    rw [hleavesEq, hbufsEq]
    split at hb
    next heq =>
      obtain ⟨rfl, rfl⟩ := heq
      cases hb
      rw [ht] at ht'
      cases ht'
      exact ⟨leaf, hstored, hok⟩
    next =>
      obtain ⟨leaf', hleaf', hok'⟩ := hleaves' l' b hb
      exact ⟨leaf', hread hleaf', hok'⟩
  · rw [hleavesEq]
    exact hread hW₁.emptyLeaf
  · refine ⟨h₁, (hhandle' k).trans hk₁, ?_⟩
    rw [hleafAt k h₁ l ((hhandle k).trans hk₁), if_pos ⟨rfl, rfl⟩]
  · intro k' h' l' hk' hb
    rw [hhandle'] at hk'
    rw [hleafAt k' h' l' ((hhandle k').trans hk'), hsame] at hb
    split at hb
    next heq => exact heq
    next =>
      rcases makeMut_cases hmutLeaf with ⟨hone, -, rfl⟩ | ⟨-, -, -, hfresh⟩
      · obtain ⟨heq, heq', -⟩ := leaf_unique hone honly hcell hk' hb
        exact ⟨heq, heq'⟩
      · obtain ⟨t', ht'⟩ := hW₁.exists_table hk'
        obtain ⟨leaf', hleaf', -⟩ := hW₁.exists_leaf hk' hb ht'
        have hlt := read_lt hleaf'
        rw [hfresh] at hlt
        exact absurd hlt (lt_irrefl _)
  · rcases makeMut_cases hmutLeaf with ⟨hone, -, rfl⟩ | ⟨-, -, -, hfresh⟩
    · exact (leaf_unique hone honly hcell hk₁ ha₀).2.2
    · intro hempty
      have hlt := read_lt hW₁.emptyLeaf
      rw [← hempty, hfresh] at hlt
      exact absurd hlt (lt_irrefl _)

end Slab

end LoraDb
