import LoraDb.Hnsw

/-!
# Links of the Vector Graph

What the two operations on neighbour lists do to a graph that is well linked: setting one list,
and the walk that strips a removed node. Vectors and levels never change here, only lists.

## Main definitions

* `Linked stale degree nodes`: every list of the graph is free of repeats, within its degree,
  and names only nodes stored in its layer, or ids that are `stale`.

## Main results

* `Linked.setLinks`: a list with the same three properties may be put in.
* `strip_linksAt`: the walk over a removed node's own lists takes its id out of the lists of
  the nodes it names, and of no others.
-/

open GreedySearch SortedMap

namespace LoraDb

open List

namespace HnswNodes

variable {V : Type}

/-- The vector and the level of a node. -/
def shape (nodes : HnswNodes V) (id : ℕ) : Option (V × ℕ) :=
  (get? id nodes).map fun node => (node.vector, node.level)

/-- The node is stored, and in this layer. -/
def Stored (nodes : HnswNodes V) (layer id : ℕ) : Prop :=
  ∃ node, get? id nodes = some node ∧ layer ≤ node.level

variable {nodes : HnswNodes V}

theorem stored_iff {layer id : ℕ} :
    nodes.Stored layer id ↔ ∃ vector level, nodes.shape id = some (vector, level) ∧
      layer ≤ level := by
  constructor
  · rintro ⟨node, hnode, hle⟩
    exact ⟨node.vector, node.level, by rw [shape, hnode]; rfl, hle⟩
  · rintro ⟨vector, level, hshape, hle⟩
    obtain ⟨node, hnode, heq⟩ := Option.map_eq_some_iff.mp hshape
    exact ⟨node, hnode, hle.trans (congrArg Prod.snd heq).ge⟩

theorem Stored.of_shape {nodes nodes' : HnswNodes V} {layer id : ℕ} (h : nodes.Stored layer id)
    (hshape : nodes'.shape = nodes.shape) : nodes'.Stored layer id := by
  rw [stored_iff, hshape]
  exact stored_iff.mp h

theorem Stored.mono {layer layer' id : ℕ} (h : nodes.Stored layer id)
    (hle : layer' ≤ layer) : nodes.Stored layer' id := by
  obtain ⟨node, hnode, hlevel⟩ := h
  exact ⟨node, hnode, hle.trans hlevel⟩

theorem linksAt_eq {id : ℕ} {node : HnswNode V} (h : get? id nodes = some node) (layer : ℕ) :
    nodes.linksAt layer id = (node.neighbors[layer]?).getD [] := by
  rw [linksAt, h, Option.bind_some]

/-- What a list names is named by a node that is stored. -/
theorem stored_of_mem {layer id x : ℕ} (h : x ∈ nodes.linksAt layer id) :
    ∃ node, get? id nodes = some node := by
  cases hnode : get? id nodes with
  | none => simp [linksAt, hnode] at h
  | some node => exact ⟨node, rfl⟩

theorem setLinks_shape (target layer : ℕ) (links : List ℕ) (nodes : HnswNodes V) :
    (nodes.setLinks target layer links).shape = nodes.shape := by
  funext id
  unfold setLinks
  split
  · rfl
  · next node hnode =>
      rw [shape, shape, get?_put]
      split
      · next heq => rw [heq, hnode]; rfl
      · rfl

/-- Only the one list changes, and it does where the target has that layer. -/
theorem setLinks_linksAt (target layer : ℕ) (links : List ℕ) (nodes : HnswNodes V) (layer' id : ℕ) :
    (nodes.setLinks target layer links).linksAt layer' id = nodes.linksAt layer' id ∨
      (id = target ∧ layer' = layer ∧
        (nodes.setLinks target layer links).linksAt layer' id = links) := by
  unfold setLinks
  split
  · exact .inl rfl
  · next node hnode =>
      by_cases hid : id = target
      · subst hid
        have hput : get? id (put id
            { node with neighbors := node.neighbors.set layer links } nodes) =
              some { node with neighbors := node.neighbors.set layer links } := by
          rw [get?_put, if_pos rfl]
        rw [linksAt_eq hput, linksAt_eq hnode]
        by_cases hlayer : layer' = layer
        · subst hlayer
          by_cases hlt : layer' < node.neighbors.length
          · refine .inr ⟨rfl, rfl, ?_⟩
            simp [getElem?_set_self hlt]
          · left
            rw [set_eq_of_length_le (Nat.not_lt.mp hlt)]
        · left
          rw [getElem?_set_ne (Ne.symm hlayer)]
      · left
        rw [linksAt, linksAt, get?_put, if_neg hid]

/-- A list that is there is replaced. -/
theorem setLinks_linksAt_self {target layer : ℕ} {links : List ℕ} {x : ℕ}
    (h : x ∈ nodes.linksAt layer target) :
    (nodes.setLinks target layer links).linksAt layer target = links := by
  obtain ⟨node, hnode⟩ := stored_of_mem h
  rw [linksAt_eq hnode] at h
  have hlt : layer < node.neighbors.length := by
    by_contra hge
    rw [getElem?_eq_none (Nat.not_lt.mp hge)] at h
    cases h
  have hput : get? target (nodes.setLinks target layer links) =
      some { node with neighbors := node.neighbors.set layer links } := by
    rw [setLinks, hnode]
    simp only
    rw [get?_put, if_pos rfl]
  rw [linksAt_eq hput]
  simp [getElem?_set_self hlt]

/-- What a list may be: no repeats, within its degree, and naming only other nodes of its
layer, or stale ids. -/
structure LinksOk (stale : ℕ → Prop) (degree : ℕ → ℕ) (nodes : HnswNodes V) (id layer : ℕ)
    (links : List ℕ) : Prop where
  nodup : links.Nodup
  bounded : links.length ≤ degree layer
  linked : ∀ x ∈ links, stale x ∨ (x ≠ id ∧ nodes.Stored layer x)

/-- Every node has a list for each of its layers, and every list is as it may be. -/
structure Linked (stale : ℕ → Prop) (degree : ℕ → ℕ) (nodes : HnswNodes V) : Prop where
  sorted : Sorted nodes
  layers : ∀ id node, get? id nodes = some node → node.neighbors.length = node.level + 1
  links : ∀ id layer, LinksOk stale degree nodes id layer (nodes.linksAt layer id)

variable {degree : ℕ → ℕ} {stale : ℕ → Prop}

theorem LinksOk.nil {id layer : ℕ} : LinksOk stale degree nodes id layer [] :=
  ⟨nodup_nil, Nat.zero_le _, by simp⟩

theorem LinksOk.of_shape {nodes nodes' : HnswNodes V}
    {id layer : ℕ} {links : List ℕ} (h : LinksOk stale degree nodes id layer links)
    (hshape : nodes'.shape = nodes.shape) : LinksOk stale degree nodes' id layer links :=
  ⟨h.nodup, h.bounded, fun x hx => (h.linked x hx).imp_right fun hstored =>
    ⟨hstored.1, hstored.2.of_shape hshape⟩⟩

theorem LinksOk.sublist
    {id layer : ℕ} {links links' : List ℕ} (h : LinksOk stale degree nodes id layer links)
    (hsub : links'.Sublist links) : LinksOk stale degree nodes id layer links' :=
  ⟨h.nodup.sublist hsub, hsub.length_le.trans h.bounded, fun x hx => h.linked x (hsub.subset hx)⟩

/-- A list as it may be can be put in. -/
theorem Linked.setLinks {target layer : ℕ} {links : List ℕ} (h : Linked stale degree nodes)
    (hlinks : LinksOk stale degree nodes target layer links) :
    Linked stale degree (nodes.setLinks target layer links) := by
  have hshape := setLinks_shape target layer links nodes
  refine ⟨?_, fun id node hnode => ?_, fun id layer' => ?_⟩
  · unfold HnswNodes.setLinks
    split
    · exact h.sorted
    · exact h.sorted.put _ _
  · unfold HnswNodes.setLinks at hnode
    split at hnode
    · exact h.layers id node hnode
    · next old hold =>
        rw [get?_put] at hnode
        split at hnode
        · obtain rfl := Option.some.inj hnode
          rw [length_set]
          exact h.layers _ _ hold
        · exact h.layers id node hnode
  · rcases setLinks_linksAt target layer links nodes layer' id with heq | ⟨rfl, rfl, heq⟩
    · rw [heq]
      exact (h.links id layer').of_shape hshape
    · rw [heq]
      exact hlinks.of_shape hshape

/-! ### Stripping a removed node -/

theorem unlink_linksAt (id layer : ℕ) (nodes : HnswNodes V) (nid layer' y : ℕ) :
    (unlink id layer nodes nid).linksAt layer' y =
      if (layer', y) = (layer, nid) then (nodes.linksAt layer' y).filter (· ≠ id)
      else nodes.linksAt layer' y := by
  unfold unlink
  split
  · next hmem =>
      split
      · next heq =>
          obtain ⟨rfl, rfl⟩ := Prod.mk.inj heq
          exact setLinks_linksAt_self hmem
      · next hne =>
          rcases setLinks_linksAt nid layer ((nodes.linksAt layer nid).filter (· ≠ id)) nodes
            layer' y with heq | ⟨rfl, rfl, -⟩
          · exact heq
          · exact absurd rfl hne
  · next hmem =>
      split
      · next heq =>
          obtain ⟨rfl, rfl⟩ := Prod.mk.inj heq
          refine (List.filter_eq_self.mpr fun x hx => ?_).symm
          simp only [ne_eq, decide_not, Bool.not_eq_true', decide_eq_false_iff_not]
          rintro rfl
          exact hmem hx
      · rfl

theorem unlink_shape (id layer : ℕ) (nodes : HnswNodes V) (nid : ℕ) :
    (unlink id layer nodes nid).shape = nodes.shape := by
  unfold unlink
  split
  · exact setLinks_shape _ _ _ _
  · rfl

theorem Linked.unlink (h : Linked stale degree nodes) (id layer nid : ℕ) :
    Linked stale degree (unlink id layer nodes nid) := by
  unfold HnswNodes.unlink
  split
  · exact h.setLinks ((h.links nid layer).sublist filter_sublist)
  · exact h

/-- Strip `id` from each of the listed lists: pairs of a layer and a node. -/
def strip (id : ℕ) (nodes : HnswNodes V) (pairs : List (ℕ × ℕ)) : HnswNodes V :=
  pairs.foldl (fun nodes pair => unlink id pair.1 nodes pair.2) nodes

/-- The pairs a node's own lists name. -/
def pairsOf (neighbors : List (List ℕ)) : List (ℕ × ℕ) :=
  neighbors.zipIdx.flatMap fun list => list.1.map fun nid => (list.2, nid)

theorem foldl_eq_strip (id : ℕ) (nodes : HnswNodes V) (neighbors : List (List ℕ)) :
    neighbors.zipIdx.foldl (fun nodes (list : List ℕ × ℕ) =>
      list.1.foldl (unlink id list.2) nodes) nodes = strip id nodes (pairsOf neighbors) := by
  rw [strip, pairsOf, foldl_flatMap]
  simp only [foldl_map]

theorem mem_pairsOf {neighbors : List (List ℕ)} {layer nid : ℕ} :
    (layer, nid) ∈ pairsOf neighbors ↔ nid ∈ (neighbors[layer]?).getD [] := by
  simp only [pairsOf, mem_flatMap, mem_map, Prod.mk.injEq, Prod.exists]
  constructor
  · rintro ⟨list, layer', hlist, nid', hmem, rfl, rfl⟩
    rw [mem_zipIdx_iff_getElem?] at hlist
    rw [hlist]
    exact hmem
  · intro hmem
    cases hlist : neighbors[layer]? with
    | none => simp [hlist] at hmem
    | some list =>
      rw [hlist] at hmem
      exact ⟨list, layer, List.mem_zipIdx_iff_getElem?.mpr hlist, nid, hmem, rfl, rfl⟩

/-- Stripping takes the id out of the listed lists, and leaves all others alone. -/
theorem strip_linksAt (id : ℕ) (nodes : HnswNodes V) (pairs : List (ℕ × ℕ)) (layer y : ℕ) :
    (strip id nodes pairs).linksAt layer y =
      if (layer, y) ∈ pairs then (nodes.linksAt layer y).filter (· ≠ id)
      else nodes.linksAt layer y := by
  induction pairs generalizing nodes with
  | nil => rfl
  | cons pair pairs ih =>
    obtain ⟨layer', nid⟩ := pair
    rw [show strip id nodes ((layer', nid) :: pairs) =
      strip id (unlink id layer' nodes nid) pairs from rfl, ih, unlink_linksAt]
    by_cases hhead : (layer, y) = (layer', nid)
    · simp only [hhead, if_true, mem_cons, true_or, filter_filter, Bool.and_self, ite_self]
    · simp only [hhead, if_false, mem_cons, false_or]

theorem strip_shape (id : ℕ) (nodes : HnswNodes V) (pairs : List (ℕ × ℕ)) :
    (strip id nodes pairs).shape = nodes.shape := by
  induction pairs generalizing nodes with
  | nil => rfl
  | cons pair pairs ih => exact (ih _).trans (unlink_shape _ _ _ _)

theorem Linked.strip (h : Linked stale degree nodes) (id : ℕ) (pairs : List (ℕ × ℕ)) :
    Linked stale degree (strip id nodes pairs) := by
  induction pairs generalizing nodes with
  | nil => exact h
  | cons pair pairs ih => exact ih (h.unlink id pair.1 pair.2)

/-! ### Storing and dropping a node -/

theorem put_linksAt {id : ℕ} {node : HnswNode V} (layer y : ℕ) :
    HnswNodes.linksAt (put id node nodes) layer y =
      if y = id then (node.neighbors[layer]?).getD [] else nodes.linksAt layer y := by
  rw [linksAt, get?_put]
  split
  · rfl
  · rfl

/-- Storing a node with empty lists keeps a graph linked. -/
theorem Linked.put {id : ℕ}
    (h : Linked stale degree nodes) (hnew : get? id nodes = none) (vector : V)
    (level : ℕ) :
    Linked stale degree
      (SortedMap.put id ⟨vector, level, replicate (level + 1) []⟩ nodes) := by
  have hstored : ∀ {layer x}, nodes.Stored layer x → HnswNodes.Stored
      (SortedMap.put id ⟨vector, level, replicate (level + 1) []⟩ nodes) layer x := by
    rintro layer x ⟨node, hnode, hle⟩
    refine ⟨node, ?_, hle⟩
    rw [get?_put, if_neg, hnode]
    rintro rfl
    rw [hnew] at hnode
    cases hnode
  refine ⟨h.sorted.put _ _, fun y node hnode => ?_, fun y layer => ?_⟩
  · rw [get?_put] at hnode
    split at hnode
    · obtain rfl := Option.some.inj hnode
      exact length_replicate
    · exact h.layers y node hnode
  · rw [put_linksAt]
    split
    · have hnil : ((replicate (level + 1) ([] : List ℕ))[layer]?).getD [] = [] := by
        rw [getElem?_replicate]
        split <;> rfl
      rw [hnil]
      exact LinksOk.nil
    · exact ⟨(h.links y layer).nodup, (h.links y layer).bounded, fun x hx =>
        ((h.links y layer).linked x hx).imp_right fun hx => ⟨hx.1, hstored hx.2⟩⟩

theorem erase_linksAt (h : Sorted nodes) (id layer y : ℕ) :
    HnswNodes.linksAt (SortedMap.erase id nodes) layer y =
      if y = id then [] else nodes.linksAt layer y := by
  rw [linksAt, h.get?_erase]
  split <;> rfl

/-- Dropping a node makes its id stale. -/
theorem Linked.erase (h : Linked (fun _ => False) degree nodes) (id : ℕ) :
    Linked (· = id) degree (SortedMap.erase id nodes) := by
  refine ⟨h.sorted.erase id, fun y node hnode => ?_, fun y layer => ?_⟩
  · rw [h.sorted.get?_erase] at hnode
    split at hnode
    · cases hnode
    · exact h.layers y node hnode
  · rw [erase_linksAt h.sorted]
    split
    · exact LinksOk.nil
    · have hlinks := h.links y layer
      refine ⟨hlinks.nodup, hlinks.bounded, fun x hx => ?_⟩
      obtain hfalse | ⟨hne, node, hnode, hle⟩ := hlinks.linked x hx
      · exact hfalse.elim
      by_cases hid : x = id
      · exact .inl hid
      · refine .inr ⟨hne, node, ?_, hle⟩
        rw [h.sorted.get?_erase, if_neg hid, hnode]

/-- Once no list names a stale id, none is stale. -/
theorem Linked.fresh (h : Linked stale degree nodes)
    (hfresh : ∀ id layer, ∀ x ∈ nodes.linksAt layer id, ¬ stale x) :
    Linked (fun _ => False) degree nodes :=
  ⟨h.sorted, h.layers, fun id layer => ⟨(h.links id layer).nodup, (h.links id layer).bounded,
    fun x hx => ((h.links id layer).linked x hx).imp_left (hfresh id layer x hx)⟩⟩

end HnswNodes

end LoraDb
