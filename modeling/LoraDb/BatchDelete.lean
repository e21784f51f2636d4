import LoraDb.GraphMut
import Mathlib.Data.List.SplitBy

/-!
# Batch Deletes

Between the deletes of one batch a long adjacency list still holds entries of relationships
that are gone. `settle` is the graph as if the pending removals had been made: what a
batch delete does, settled, is what a delete that defers nothing does to the settled graph.
The flush settles the graph for good.

The entries pending are of deleted relationships only (`Waiting`), and no list names a
relationship twice (`Once`): these carry the argument from one delete to the next.

## Main results

* `flush_eq_settle`: flushing the pending removals settles the graph.
* `deleteRelationshipDeferring_simulates`, `detachDeleteDeferring_simulates`: one deferring
  delete, settled, is one immediate delete of the settled graph.
* `deleteBatch_eq`: a batch is its deletes one by one.
-/

open Option (getD_some isSome_iff_exists)
open List

namespace LoraDb

namespace InMemoryGraph

variable {g : InMemoryGraph} {node node' : NodeId} {side side' : Side} {rel : RelationshipId}
  {p p' : PendingAdjRemovals}

/-! ### The settled graph -/

/-- The lists of a node without the entries pending. -/
def settleAdjacency (p : PendingAdjRemovals) (node : NodeId) (adj : Adjacency) : Adjacency where
  outgoing := adj.outgoing.filter fun e => (node, .out, e.rel) ∉ p
  incoming := adj.incoming.filter fun e => (node, .into, e.rel) ∉ p

/-- The graph as if the pending removals had been made. -/
def settle (g : InMemoryGraph) (p : PendingAdjRemovals) : InMemoryGraph :=
  { g with adjacency := g.adjacency.mapIdx (settleAdjacency p) }

theorem side_settleAdjacency {adj : Adjacency} : (settleAdjacency p node adj).side side =
      (adj.side side).filter fun e => (node, side, e.rel) ∉ p := by
  cases side <;> rfl

theorem list_settle :
    (g.settle p).list node side = (g.list node side).filter fun e => (node, side, e.rel) ∉ p := by
  simp only [list, settle, getElem?_mapIdx]
  cases g.adjacency[node]? with
  | none => rfl
  | some adj => exact side_settleAdjacency

/-- Graphs that agree beside their adjacency, and on every list, are equal. -/
theorem eq_of_lists {g' : InMemoryGraph} (h : { g with adjacency := g'.adjacency } = g')
    (hlen : g.adjacency.length = g'.adjacency.length)
    (hlists : ∀ node side, g.list node side = g'.list node side) : g = g' := by
  have hadj : g.adjacency = g'.adjacency := by
    refine List.ext_getElem hlen ?_
    intro i hi hi'
    refine Adjacency.ext_side fun on => ?_
    have hlist := hlists i on
    simpa only [list, getElem?_eq_getElem hi, getElem?_eq_getElem hi'] using hlist
  rw [← h, ← hadj]

/-- With nothing pending the graph is settled. -/
theorem settle_nil : g.settle [] = g := by
  refine eq_of_lists rfl ?_ ?_
  · simp [settle]
  · intro node side
    simp [list_settle]

theorem settle_congr (h : ∀ entry, entry ∈ p ↔ entry ∈ p') : g.settle p = g.settle p' := by
  refine eq_of_lists rfl ?_ ?_
  · simp [settle]
  · intro node side
    simp only [list_settle, h]

theorem settle_append : g.settle (p ++ p') = (g.settle p).settle p' := by
  refine eq_of_lists rfl ?_ ?_
  · simp [settle]
  · intro node side
    simp only [list_settle, filter_filter, mem_append, not_or, Bool.decide_and, Bool.and_comm]

/-- An edit and the edit it settles to. -/
theorem settle_editAdjacency {edit edit' : Adjacency → Adjacency}
    (h : ∀ adj, g.adjacency[node]? = some adj →
      settleAdjacency p' node (edit adj) = edit' (settleAdjacency p node adj))
    (hothers : ∀ other ≠ node, ∀ side rel, (other, side, rel) ∈ p' ↔ (other, side, rel) ∈ p) :
    (g.editAdjacency node edit).settle p' = (g.settle p).editAdjacency node edit' := by
  have hadj : (g.adjacency.modify node edit).mapIdx (settleAdjacency p') =
      (g.adjacency.mapIdx (settleAdjacency p)).modify node edit' := by
    refine List.ext_getElem? fun i => ?_
    simp only [getElem?_mapIdx, getElem?_modify]
    cases hi : g.adjacency[i]? with
    | none => simp
    | some adj =>
      by_cases hnode : node = i
      · subst hnode
        simp [h adj hi]
      · have hsame : settleAdjacency p' i adj = settleAdjacency p i adj := by
          simp only [settleAdjacency, hothers i (Ne.symm hnode)]
        simp [hnode, hsame]
  simp only [editAdjacency, settle, hadj]

theorem settle_emit {event : MutationEvent} :
    (g.emit event).settle p = (g.settle p).emit event := rfl

theorem settle_clearAdjacency :
    (g.clearAdjacency node).settle p = (g.settle p).clearAdjacency node := by
  refine settle_editAdjacency ?_ fun _ _ _ _ => Iff.rfl
  intro adj _
  rfl

/-! ### What every list keeps -/

/-- No list names a relationship twice. -/
def Once (g : InMemoryGraph) : Prop := ∀ node side, ListedOnce (g.list node side)

/-- What is pending is of relationships that are gone. -/
def Waiting (g : InMemoryGraph) (p : PendingAdjRemovals) : Prop :=
  ∀ entry ∈ p, g.relAt entry.2.2 = none

/-- An edit that only removes entries. -/
theorem list_editAdjacency_sublist {edit : Adjacency → Adjacency}
    (h : ∀ adj side, (edit adj).side side <+ adj.side side) :
    (g.editAdjacency node edit).list node' side <+ g.list node' side := by
  rw [list_editAdjacency, list]
  cases g.adjacency[node']? with
  | none => exact Sublist.refl _
  | some adj =>
    by_cases hnode : node' = node
    · simpa [hnode] using h adj side
    · simp [hnode]

theorem Adjacency.remove_sublist (adj : Adjacency) (on side : Side) (rel : RelationshipId) :
    (adj.remove on rel).side side <+ adj.side side := by
  rw [Adjacency.remove, Adjacency.side_edit]
  split
  next h =>
    rw [h]
    exact eraseP_sublist
  next => exact Sublist.refl _

theorem Once.sublist {g' : InMemoryGraph} (h : g.Once)
    (hsub : ∀ node side, g'.list node side <+ g.list node side) : g'.Once :=
  fun node side => (h node side).sublist (hsub node side)

/-! ### One removal -/

theorem list_remove : (g.editAdjacency node (·.remove side rel)).list node' side' =
      if node' = node ∧ side' = side then (g.list node' side').eraseP fun e => e.rel == rel
      else g.list node' side' := by
  rw [list_editAdjacency, list]
  cases g.adjacency[node']? with
  | none => simp
  | some adj =>
    by_cases hnode : node' = node
    · by_cases hside : side' = side
      · simp [hnode, hside, Adjacency.remove, Adjacency.side_edit]
      · simp [hnode, hside, Adjacency.remove, Adjacency.side_edit]
    · simp [hnode]

/-- The entries a removal leaves pending: those before, or one more. -/
theorem adjacencyRemove_pending {g' : InMemoryGraph} {left : Option PendingAdjRemovals}
    (h : g.adjacencyRemove node side rel (some p) = (g', left)) :
    left = some p ∨ left = some (p ++ [(node, side, rel)]) := by
  unfold adjacencyRemove at h
  split at h
  · exact Or.inl (Prod.ext_iff.mp h).2.symm
  · simp only at h
    split at h
    · exact Or.inr (Prod.ext_iff.mp h).2.symm
    · exact Or.inl (Prod.ext_iff.mp h).2.symm

variable {pending : Option PendingAdjRemovals}

theorem adjacencyRemove_sublist :
    (g.adjacencyRemove node side rel pending).1.list node' side' <+ g.list node' side' := by
  have hedit : (g.editAdjacency node (·.remove side rel)).list node' side' <+ g.list node' side' :=
    list_editAdjacency_sublist fun adj on => Adjacency.remove_sublist adj side on rel
  unfold adjacencyRemove
  split
  · exact Sublist.refl _
  · cases pending with
    | none => exact hedit
    | some waiting =>
      simp only
      split
      · exact Sublist.refl _
      · exact hedit

/-- A removal, made or deferred, settles to the immediate one. -/
theorem settle_adjacencyRemove (hp : (node, side, rel) ∉ p)
    (honce : ListedOnce ((g.settle p).list node side)) :
    (g.adjacencyRemove node side rel (some p)).1.settle
        ((g.adjacencyRemove node side rel (some p)).2.getD []) =
      ((g.settle p).adjacencyRemove node side rel none).1 := by
  rw [adjacencyRemove_none]
  have hmade : (g.editAdjacency node (·.remove side rel)).settle p =
      (g.settle p).editAdjacency node (·.remove side rel) := by
    refine settle_editAdjacency ?_ fun _ _ _ _ => Iff.rfl
    intro adj _
    refine Adjacency.ext_side fun on => ?_
    simp only [side_settleAdjacency, Adjacency.remove, Adjacency.side_edit]
    split
    next hon =>
      subst hon
      refine filter_remove ?_
      rintro e rfl
      simpa using hp
    next => rfl
  unfold adjacencyRemove
  split
  next hzero =>
    -- an empty list has nothing to remove, now or later
    have hnone : g.editAdjacency node (·.remove side rel) = g := by
      have hremove := congrArg Prod.fst (@adjacencyRemove_none g node side rel)
      rw [adjacencyRemove, if_pos hzero] at hremove
      exact hremove.symm
    rw [← hmade, hnone, getD_some]
  next =>
    simp only
    split
    next =>
      refine eq_of_lists rfl ?_ ?_
      · simp [settle, editAdjacency]
      · intro node' side'
        rw [getD_some, settle_append, list_settle, list_remove]
        split
        next hsame =>
          obtain ⟨rfl, rfl⟩ := hsame
          rw [honce.remove_eq]
          refine filter_congr fun e _ => ?_
          simp [bne, Bool.beq_eq_decide_eq]
        next hother =>
          refine filter_eq_self.mpr fun e _ => ?_
          simp only [mem_singleton, Prod.mk.injEq, decide_not, Bool.not_eq_true',
            decide_eq_false_iff_not]
          exact fun h => hother ⟨h.1, h.2.1⟩
    next => exact hmade

/-! ### The flush -/

theorem flushGroup_eq_settle {group : PendingAdjRemovals}
    (hgroup : group.IsChain fun a b => a.1 == b.1 && a.2.1 == b.2.1) :
    g.flushGroup group = g.settle group := by
  cases group with
  | nil => exact settle_nil.symm
  | cons first group =>
    obtain ⟨node, side, rel⟩ := first
    have hsame : ∀ entry ∈ (node, side, rel) :: group, entry.1 = node ∧ entry.2.1 = side := by
      have htrans : IsTrans (NodeId × Side × RelationshipId)
          fun a b => (a.1 == b.1 && a.2.1 == b.2.1) = true := by
        refine ⟨fun a b c hab hbc => ?_⟩
        simp only [Bool.and_eq_true, beq_iff_eq] at hab hbc ⊢
        exact ⟨hab.1.trans hbc.1, hab.2.trans hbc.2⟩
      intro entry hentry
      rcases mem_cons.mp hentry with rfl | hentry
      · exact ⟨rfl, rfl⟩
      · have hrel := rel_of_pairwise_cons hgroup.pairwise hentry
        simp only [Bool.and_eq_true, beq_iff_eq] at hrel
        exact ⟨hrel.1.symm, hrel.2.symm⟩
    have hmem : ∀ r, (node, side, r) ∈ (node, side, rel) :: group ↔
        r ∈ ((node, side, rel) :: group).map fun entry => entry.2.2 := by
      intro r
      rw [mem_map]
      constructor
      · exact fun h => ⟨_, h, rfl⟩
      · rintro ⟨⟨n, s, r⟩, hentry, rfl⟩
        obtain ⟨hn, hs⟩ := hsame _ hentry
        simp only at hn hs
        rwa [hn, hs] at hentry
    have hlists : ∀ node' side', (g.settle ((node, side, rel) :: group)).list node' side' =
        if node' = node ∧ side' = side then (g.list node' side').filter fun e =>
          !(((node, side, rel) :: group).map fun entry => entry.2.2).contains e.rel
        else g.list node' side' := by
      intro node' side'
      rw [list_settle]
      split
      next h =>
        obtain ⟨rfl, rfl⟩ := h
        refine filter_congr fun e _ => ?_
        rw [decide_not, contains_eq_mem]
        simp only [hmem]
      next h =>
        refine filter_eq_self.mpr fun e _ => ?_
        rw [decide_eq_true_iff]
        exact fun hentry => h (hsame _ hentry)
    refine eq_of_lists ?_ ?_ ?_
    · simp only [flushGroup]
      split <;> rfl
    · simp only [flushGroup]
      split <;> simp [settle, editAdjacency]
    · intro node' side'
      rw [hlists]
      simp only [flushGroup]
      split
      next hzero =>
        split
        next h =>
          obtain ⟨rfl, rfl⟩ := h
          rw [listBytes_eq_zero.mp hzero, filter_nil]
        next => rfl
      next =>
        rw [list_editAdjacency, list]
        cases g.adjacency[node']? with
        | none => simp
        | some adj =>
          by_cases hnode : node' = node
          · by_cases hside : side' = side
            · simp [hnode, hside, Adjacency.removeAll, Adjacency.side_edit]
            · simp [hnode, hside, Adjacency.removeAll, Adjacency.side_edit]
          · simp [hnode]

/-- Flushing the pending removals settles the graph. -/
theorem flush_eq_settle : g.flushAdjacencyRemovals p = g.settle p := by
  have hgroups : ∀ (groups : List PendingAdjRemovals) (g : InMemoryGraph),
      (∀ group ∈ groups, group.IsChain fun a b => a.1 == b.1 && a.2.1 == b.2.1) →
      groups.foldl flushGroup g = g.settle groups.flatten := by
    intro groups
    induction groups with
    | nil => exact fun g _ => settle_nil.symm
    | cons group groups ih =>
      intro g hchain
      rw [foldl_cons, flushGroup_eq_settle (hchain group mem_cons_self), flatten_cons,
        settle_append]
      exact ih _ fun other hother => hchain other (mem_cons_of_mem _ hother)
  rw [flushAdjacencyRemovals, hgroups _ _ fun group => isChain_of_mem_splitBy, flatten_splitBy]
  exact settle_congr fun entry => (mergeSort_perm p pendingLE).mem_iff

/-! ### One delete -/

/-- What a batch delete carries from one delete to the next: the graph, and what is
pending. -/
abbrev Batch := InMemoryGraph × Option PendingAdjRemovals

/-- The graph of a batch as if nothing were pending. -/
def settled (batch : Batch) : InMemoryGraph := batch.1.settle (batch.2.getD [])

/-- What is pending is of relationships gone, and the settled lists name none twice. -/
structure Deferring (batch : Batch) : Prop where
  pending : batch.2.isSome = true
  waiting : batch.1.Waiting (batch.2.getD [])
  once : (settled batch).Once

variable {record : RelationshipRecord}

/-- Both removals of a deleted relationship settle to the immediate ones. -/
theorem settle_detachRelationshipIndexes
    (hp : ∀ node side, (node, side, record.id) ∉ p) (honce : (g.settle p).Once) :
    settled (g.detachRelationshipIndexes record (some p)) =
      ((g.settle p).detachRelationshipIndexes record none).1 := by
  have hout := settle_adjacencyRemove (hp record.src .out) (honce record.src .out)
  cases hfirst : g.adjacencyRemove record.src .out record.id (some p) with
  | mk g₁ left =>
    rw [hfirst] at hout
    obtain ⟨p₁, rfl, hp₁⟩ : ∃ p₁, left = some p₁ ∧ (record.dst, Side.into, record.id) ∉ p₁ := by
      rcases adjacencyRemove_pending hfirst with rfl | rfl
      · exact ⟨p, rfl, hp _ _⟩
      · refine ⟨_, rfl, ?_⟩
        simp [hp]
    rw [getD_some] at hout
    have honce₁ : ListedOnce ((g₁.settle p₁).list record.dst .into) := by
      rw [hout]
      exact (honce _ _).sublist adjacencyRemove_sublist
    have hinto := settle_adjacencyRemove hp₁ honce₁
    cases hsecond : g₁.adjacencyRemove record.dst .into record.id (some p₁) with
    | mk g₂ left =>
      rw [hsecond, hout] at hinto
      simp only [detachRelationshipIndexes, hfirst, hsecond, settled]
      rw [adjacencyRemove_none] at hinto ⊢
      simp only [adjacencyRemove_none] at hinto ⊢
      rw [← hinto]
      rfl

/-- A removal edits nothing beside the adjacency. -/
theorem adjacencyRemove_frame :
    ∃ adj, (g.adjacencyRemove node side rel pending).1 = { g with adjacency := adj } := by
  unfold adjacencyRemove
  split
  · exact ⟨_, rfl⟩
  · cases pending with
    | none => exact ⟨_, rfl⟩
    | some waiting =>
      simp only
      split <;> exact ⟨_, rfl⟩

theorem detachRelationshipIndexes_frame :
    ∃ adj, (g.detachRelationshipIndexes record pending).1 =
      removeRelationshipTypeIndex { g with adjacency := adj } record.id record.relType := by
  obtain ⟨adj, hfirst⟩ := @adjacencyRemove_frame g record.src .out record.id pending
  obtain ⟨adj', hsecond⟩ :=
    @adjacencyRemove_frame { g with adjacency := adj } record.dst .into record.id
      (g.adjacencyRemove record.src .out record.id pending).2
  refine ⟨adj', ?_⟩
  simp only [detachRelationshipIndexes, hfirst, hsecond]

/-- Both removals, one after the other. -/
theorem detachRelationshipIndexes_eq :
    g.detachRelationshipIndexes record pending =
      let first := g.adjacencyRemove record.src .out record.id pending
      let second := first.1.adjacencyRemove record.dst .into record.id first.2
      (second.1.removeRelationshipTypeIndex record.id record.relType, second.2) := rfl

theorem list_emit {event : MutationEvent} : (g.emit event).list node side = g.list node side :=
  rfl

theorem detachRelationshipIndexes_sublist :
    (g.detachRelationshipIndexes record pending).1.list node side <+ g.list node side := by
  have hfirst := @adjacencyRemove_sublist g record.src node .out side record.id pending
  have hsecond := @adjacencyRemove_sublist
    (g.adjacencyRemove record.src .out record.id pending).1 record.dst node .into side record.id
    (g.adjacencyRemove record.src .out record.id pending).2
  have hindex : ∀ (g : InMemoryGraph) (id : RelationshipId) (relType : String),
      (g.removeRelationshipTypeIndex id relType).list node side = g.list node side :=
    fun _ _ _ => rfl
  rw [detachRelationshipIndexes_eq, hindex]
  exact hsecond.trans hfirst

/-- A delete leaves pending what was, and entries of the relationship deleted. -/
theorem detachRelationshipIndexes_pending :
    ∃ p', (g.detachRelationshipIndexes record (some p)).2 = some p' ∧
      ∀ entry ∈ p', entry ∈ p ∨ entry.2.2 = record.id := by
  have hstep : ∀ {g : InMemoryGraph} {p : PendingAdjRemovals} {node : NodeId} {side : Side},
      ∃ p', (g.adjacencyRemove node side record.id (some p)).2 = some p' ∧
        ∀ entry ∈ p', entry ∈ p ∨ entry.2.2 = record.id := by
    intro g p node side
    have hsplit := Prod.eta (g.adjacencyRemove node side record.id (some p))
    rcases adjacencyRemove_pending hsplit.symm with h | h
    · exact ⟨p, h, fun entry hentry => Or.inl hentry⟩
    · refine ⟨_, h, fun entry hentry => ?_⟩
      rcases mem_append.mp hentry with hentry | hentry
      · exact Or.inl hentry
      · exact Or.inr (by rw [mem_singleton.mp hentry])
  obtain ⟨p₁, hp₁, hmem₁⟩ := @hstep g p record.src .out
  obtain ⟨p₂, hp₂, hmem₂⟩ :=
    @hstep (g.adjacencyRemove record.src .out record.id (some p)).1 p₁ record.dst .into
  refine ⟨p₂, ?_, fun entry hentry => ?_⟩
  · simp only [detachRelationshipIndexes, hp₁, hp₂]
  · rcases hmem₂ entry hentry with h | h
    · exact hmem₁ entry h
    · exact Or.inr h

/-- The graph with a relationship out of its slot, and shown to the sink. -/
def dropRel (g : InMemoryGraph) (rel : RelationshipId) (record : RelationshipRecord) :
    InMemoryGraph :=
  sinkDeleted { g with
    relationships := g.relationships.remove rel
    liveRelCount := g.liveRelCount - 1 } (.relationship record)

theorem settle_dropRel : (g.dropRel rel record).settle p = (g.settle p).dropRel rel record := rfl

theorem deleteRelationshipDeferring_of_none (h : g.relAt rel = none) :
    g.deleteRelationshipDeferring rel pending = ((g, pending), false) := by
  simp only [deleteRelationshipDeferring, takeRel, h]

theorem deleteRelationshipDeferring_of_some (h : g.relAt rel = some record) :
    g.deleteRelationshipDeferring rel pending =
      ((((g.dropRel rel record).detachRelationshipIndexes record pending).1.emit
          (.deleteRelationship rel),
        ((g.dropRel rel record).detachRelationshipIndexes record pending).2), true) := by
  simp only [deleteRelationshipDeferring, takeRel, h]
  rfl

theorem deleteRelationshipDeferring_relAt {other : RelationshipId} :
    (g.deleteRelationshipDeferring rel pending).1.1.relAt other =
      if other = rel then none else g.relAt other := by
  cases h : g.relAt rel with
  | none =>
    rw [deleteRelationshipDeferring_of_none h]
    split
    next hrel => rw [hrel, h]
    next => rfl
  | some record =>
    rw [deleteRelationshipDeferring_of_some h]
    obtain ⟨adj, hframe⟩ :=
      @detachRelationshipIndexes_frame (g.dropRel rel record) pending record
    have hrels : (((g.dropRel rel record).detachRelationshipIndexes record pending).1.emit
        (.deleteRelationship rel)).relationships = g.relationships.remove rel := by
      rw [emit, hframe]
      rfl
    simp only [relAt, hrels, Slots.get_remove]
    split <;> rfl

theorem deleteRelationshipDeferring_sublist :
    (g.deleteRelationshipDeferring rel pending).1.1.list node side <+ g.list node side := by
  cases h : g.relAt rel with
  | none =>
    rw [deleteRelationshipDeferring_of_none h]
  | some record =>
    rw [deleteRelationshipDeferring_of_some h, list_emit]
    exact @detachRelationshipIndexes_sublist (g.dropRel rel record) node side pending record

theorem deleteRelationship_eq : g.deleteRelationship rel =
      ((g.deleteRelationshipDeferring rel none).1.1,
        (g.deleteRelationshipDeferring rel none).2) := rfl

theorem deleteRelationship_once (h : g.Once) : (g.deleteRelationship rel).1.Once := by
  rw [deleteRelationship_eq]
  exact h.sublist fun _ _ => deleteRelationshipDeferring_sublist

/-- A delete leaves pending what was, and entries of the relationship deleted. -/
theorem deleteRelationshipDeferring_pending :
    ∃ p', (g.deleteRelationshipDeferring rel (some p)).1.2 = some p' ∧
      ∀ entry ∈ p', entry ∈ p ∨ entry.2.2 = rel := by
  cases h : g.relAt rel with
  | none =>
    rw [deleteRelationshipDeferring_of_none h]
    exact ⟨p, rfl, fun entry hentry => Or.inl hentry⟩
  | some record =>
    obtain ⟨p', hp', hmem⟩ :=
      @detachRelationshipIndexes_pending (g.dropRel rel record) p record
    rw [relAt_id h] at hmem
    rw [deleteRelationshipDeferring_of_some h]
    exact ⟨p', hp', hmem⟩

theorem deleteRelationship_of_none (h : g.relAt rel = none) :
    g.deleteRelationship rel = (g, false) := by
  rw [deleteRelationship_eq, deleteRelationshipDeferring_of_none h]

/-- A deferring delete, settled, is an immediate delete of the settled graph. -/
theorem settle_deleteRelationship (hwaiting : g.Waiting p) (honce : (g.settle p).Once) :
    settled (g.deleteRelationshipDeferring rel (some p)).1 =
      ((g.settle p).deleteRelationship rel).1 := by
  have hsettled : (g.settle p).relAt rel = g.relAt rel := rfl
  cases h : g.relAt rel with
  | none =>
    rw [deleteRelationshipDeferring_of_none h, deleteRelationship_of_none (hsettled.trans h)]
    rfl
  | some record =>
    have hgone : ∀ node side, (node, side, record.id) ∉ p := by
      intro node side hmem
      have hnone : g.relAt record.id = none := hwaiting _ hmem
      rw [relAt_id h, h] at hnone
      cases hnone
    have honce' : ((g.dropRel rel record).settle p).Once := honce
    have hdetach := settle_detachRelationshipIndexes hgone honce'
    rw [deleteRelationship_eq, deleteRelationshipDeferring_of_some h,
      deleteRelationshipDeferring_of_some (hsettled.trans h)]
    rw [settle_dropRel] at hdetach
    rw [← hdetach]
    exact settle_emit

theorem deleteRelationshipDeferring_result {pending pending' : Option PendingAdjRemovals}
    {g' : InMemoryGraph} (h : g'.relAt rel = g.relAt rel) :
    (g.deleteRelationshipDeferring rel pending).2 =
      (g'.deleteRelationshipDeferring rel pending').2 := by
  cases hrel : g.relAt rel with
  | none =>
    rw [deleteRelationshipDeferring_of_none hrel,
      deleteRelationshipDeferring_of_none (h.trans hrel)]
  | some record =>
    rw [deleteRelationshipDeferring_of_some hrel,
      deleteRelationshipDeferring_of_some (h.trans hrel)]

/-- One deferring delete after another is the immediate deletes, settled. -/
theorem deleteRelationshipDeferring_simulates :
    Simulates (fun (batch : Batch) relId => batch.1.deleteRelationshipDeferring relId batch.2)
      deleteRelationship settled Deferring where
  state := by
    rintro ⟨g, pending⟩ relId hbatch
    obtain ⟨p, rfl⟩ := isSome_iff_exists.mp hbatch.pending
    exact settle_deleteRelationship hbatch.waiting hbatch.once
  result := by
    rintro ⟨g, pending⟩ relId -
    rw [deleteRelationship_eq]
    exact @deleteRelationshipDeferring_result g relId pending none (settled (g, pending)) rfl
  keeps := by
    rintro ⟨g, pending⟩ relId hbatch
    obtain ⟨p, rfl⟩ := isSome_iff_exists.mp hbatch.pending
    obtain ⟨p', hp', hmem⟩ := @deleteRelationshipDeferring_pending g relId p
    have hp'' : (g.deleteRelationshipDeferring relId (some p)).1.2.getD [] = p' := by
      rw [hp', getD_some]
    refine ⟨by simp only [hp', Option.isSome_some], ?_, ?_⟩
    · intro entry hentry
      simp only [hp''] at hentry
      simp only [deleteRelationshipDeferring_relAt]
      split
      next => rfl
      next hne =>
        rcases hmem entry hentry with hold | hnew
        · exact hbatch.waiting entry hold
        · exact absurd hnew hne
    · have hsettle := @settle_deleteRelationship g relId p hbatch.waiting hbatch.once
      simp only [hsettle]
      exact @deleteRelationship_once (g.settle p) relId hbatch.once

/-! ### Detaching a node -/

theorem deleteRelationshipDeferring_nodes :
    (g.deleteRelationshipDeferring rel pending).1.1.nodes = g.nodes := by
  cases h : g.relAt rel with
  | none => rw [deleteRelationshipDeferring_of_none h]
  | some record =>
    rw [deleteRelationshipDeferring_of_some h]
    obtain ⟨adj, hframe⟩ :=
      @detachRelationshipIndexes_frame (g.dropRel rel record) pending record
    simp only [emit]
    rw [hframe]
    rfl

/-- A node out of its slot, with its lists cleared and its labels' buckets without it. -/
def dropNode (g : InMemoryGraph) (node : NodeId) (record : NodeRecord) : InMemoryGraph :=
  onNodeDeleted (sinkDeleted (clearAdjacency { g with
    nodes := g.nodes.remove node
    liveNodeCount := g.liveNodeCount - 1 } node) (.node record)) record

/-- A deleted node leaves the buckets of its labels; nothing else changes. -/
theorem onNodeDeleted_eq {record : NodeRecord} : g.onNodeDeleted record = { g with
      nodesByLabel :=
        record.labels.foldl (fun buckets label => buckets.remove record.id label)
          g.nodesByLabel } := by
  unfold onNodeDeleted
  induction record.labels generalizing g with
  | nil => rfl
  | cons label labels ih =>
    rw [foldl_cons, foldl_cons, ih]
    rfl

theorem settle_onNodeDeleted {record : NodeRecord} :
    (g.onNodeDeleted record).settle p = (g.settle p).onNodeDeleted record := by
  rw [onNodeDeleted_eq, onNodeDeleted_eq]
  rfl

theorem settle_sinkDeleted {record : DeletedRecord} :
    (g.sinkDeleted record).settle p = (g.settle p).sinkDeleted record := rfl

theorem settle_dropNode {record : NodeRecord} :
    (g.dropNode node record).settle p = (g.settle p).dropNode node record := by
  rw [dropNode, settle_onNodeDeleted, settle_sinkDeleted, settle_clearAdjacency]
  rfl

theorem deleteNode_of_isolated {record : NodeRecord} (h : g.nodeAt node = some record)
    (hlists : ∀ side, g.list node side = []) :
    g.deleteNode node = ((g.dropNode node record).emit (.deleteNode node), true) := by
  have hnode : g.hasNodeAt node = true := by
    obtain ⟨stored, hstored, -⟩ := Option.map_eq_some_iff.mp h
    exact Slots.contains_iff.mpr ⟨stored, hstored⟩
  simp only [deleteNode, hnode, hasIncidentRelationships, hlists, takeNode, h]
  rfl

/-- The deletes of a node's relationships, one after another. -/
def deleteIncident (batch : Batch) (ids : List RelationshipId) : Batch :=
  (runSteps (fun (batch : Batch) relId => batch.1.deleteRelationshipDeferring relId batch.2)
    batch ids).1

variable {ids : List RelationshipId}

theorem deleteIncident_nodes {batch : Batch} :
    (deleteIncident batch ids).1.nodes = batch.1.nodes := by
  refine @runSteps_invariant Batch RelationshipId Bool _ (fun b => b.1.nodes = batch.1.nodes)
    ids ?_ batch rfl
  exact fun b relId _ h => deleteRelationshipDeferring_nodes.trans h

theorem deleteIncident_sublist {batch : Batch} :
    (deleteIncident batch ids).1.list node side <+ batch.1.list node side := by
  refine @runSteps_invariant Batch RelationshipId Bool _
    (fun b => b.1.list node side <+ batch.1.list node side) ids ?_ batch (Sublist.refl _)
  exact fun b relId _ h => deleteRelationshipDeferring_sublist.trans h

/-- A detach delete clears the node's lists, deletes the relationships they named, and drops
the node. -/
theorem detachDeleteDeferring_of_some {record : NodeRecord} (h : g.nodeAt node = some record) :
    g.detachDeleteDeferring node pending =
      let batch := deleteIncident (g.clearAdjacency node, pending) (g.incidentRelationshipIds node)
      ((((batch.1.dropNode node record).emit (.deleteNode node)).emit (.detachDeleteNode node),
        batch.2), true) := by
  have hnode : g.hasNodeAt node = true := by
    obtain ⟨stored, hstored, -⟩ := Option.map_eq_some_iff.mp h
    exact Slots.contains_iff.mpr ⟨stored, hstored⟩
  have hstill : (deleteIncident (g.clearAdjacency node, pending)
      (g.incidentRelationshipIds node)).1.nodeAt node = some record := by
    rw [nodeAt, deleteIncident_nodes]
    exact h
  have hlists : ∀ side, (deleteIncident (g.clearAdjacency node, pending)
      (g.incidentRelationshipIds node)).1.list node side = [] := by
    intro side
    have hsub := @deleteIncident_sublist node side (g.incidentRelationshipIds node)
      (g.clearAdjacency node, pending)
    rw [list_clearAdjacency, if_pos rfl] at hsub
    exact sublist_nil.mp hsub
  have hdelete := deleteNode_of_isolated hstill hlists
  simp only [deleteIncident] at hdelete ⊢
  simp only [detachDeleteDeferring, hnode, hdelete]
  rfl

theorem deleteRelationshipDeferring_none_pending :
    (g.deleteRelationshipDeferring rel none).1.2 = none := by
  cases h : g.relAt rel with
  | none => rw [deleteRelationshipDeferring_of_none h]
  | some record =>
    rw [deleteRelationshipDeferring_of_some h]
    simp only [detachRelationshipIndexes, adjacencyRemove_none]

/-- With nothing deferred, the deletes are the immediate ones. -/
theorem deleteIncident_none :
    deleteIncident (g, none) ids = ((runSteps deleteRelationship g ids).1, none) := by
  induction ids generalizing g with
  | nil => rfl
  | cons relId ids ih =>
    have hpair : (g.deleteRelationshipDeferring relId none).1 =
        ((g.deleteRelationshipDeferring relId none).1.1, none) :=
      Prod.ext rfl deleteRelationshipDeferring_none_pending
    rw [deleteIncident, runSteps_cons, runSteps_cons, deleteRelationship_eq, ← ih, hpair,
      deleteIncident]

/-- Deleting what is gone changes nothing. -/
theorem runSteps_deleteRelationship_stored : (runSteps deleteRelationship g ids).1 =
      (runSteps deleteRelationship g (ids.filter g.hasRelAt)).1 := by
  have hgone : ∀ (ids : List RelationshipId) (g : InMemoryGraph) (keep : RelationshipId → Bool),
      (∀ r ∈ ids, keep r = false → g.relAt r = none) →
      (runSteps deleteRelationship g ids).1 =
        (runSteps deleteRelationship g (ids.filter keep)).1 := by
    intro ids
    induction ids with
    | nil => exact fun _ _ _ => rfl
    | cons r ids ih =>
      intro g keep h
      have hrest : ∀ r' ∈ ids, keep r' = false → (g.deleteRelationship r).1.relAt r' = none := by
        intro r' hr' hkeep
        rw [deleteRelationship_eq, deleteRelationshipDeferring_relAt]
        split
        · rfl
        · exact h r' (mem_cons_of_mem _ hr') hkeep
      rw [runSteps_cons, ih _ keep hrest]
      cases hkeep : keep r with
      | true => rw [filter_cons_of_pos hkeep, runSteps_cons]
      | false =>
        rw [filter_cons_of_neg (by rw [hkeep]; decide),
          deleteRelationship_of_none (h r mem_cons_self hkeep)]
  refine hgone ids g g.hasRelAt fun r _ hr => ?_
  rw [hasRelAt, Slots.contains_eq_false] at hr
  rw [relAt, hr]
  rfl

/-- A settled node names the stored relationships the node names. -/
theorem incidentRelationshipIds_settle (hwaiting : g.Waiting p) :
    ((g.settle p).incidentRelationshipIds node).filter g.hasRelAt =
      (g.incidentRelationshipIds node).filter g.hasRelAt := by
  have hfilter : ∀ (side : Side) (entries : List AdjEntry),
      ((entries.filter fun e => (node, side, e.rel) ∉ p).map AdjEntry.rel).filter g.hasRelAt =
        (entries.map AdjEntry.rel).filter g.hasRelAt := by
    intro side entries
    rw [filter_map, filter_map, filter_filter]
    refine congrArg _ (filter_congr fun e _ => ?_)
    by_cases hmem : (node, side, e.rel) ∈ p
    · have hgone : g.relAt e.rel = none := hwaiting _ hmem
      have hstored : g.hasRelAt e.rel = false := by
        rw [hasRelAt, Slots.contains_eq_false]
        simpa [relAt] using hgone
      simp [hstored]
    · simp [hmem]
  have hswap : ((g.list node .into).filter fun e => (node, Side.into, e.rel) ∉ p).filter
      (fun e => e.neighbour != node) =
        ((g.list node .into).filter fun e => e.neighbour != node).filter
          fun e => (node, Side.into, e.rel) ∉ p := by
    simp only [filter_filter, Bool.and_comm]
  simp only [incidentRelationshipIds, list_settle, filter_append]
  rw [hswap, hfilter, hfilter]

theorem detachDeleteDeferring_of_none (h : g.nodeAt node = none) :
    g.detachDeleteDeferring node pending = ((g, pending), false) := by
  have hnode : g.hasNodeAt node = false := by
    rw [hasNodeAt, Slots.contains_eq_false]
    simpa [nodeAt] using h
  simp only [detachDeleteDeferring, hnode]
  rfl

theorem dropNode_sublist {record : NodeRecord} :
    (g.dropNode node record).list node' side <+ g.list node' side := by
  have hlist : (g.dropNode node record).list node' side =
      (g.clearAdjacency node).list node' side := by
    rw [dropNode, onNodeDeleted_eq]
    rfl
  rw [hlist, list_clearAdjacency]
  split
  · exact nil_sublist _
  · exact Sublist.refl _

theorem clearAdjacency_sublist : (g.clearAdjacency node).list node' side <+ g.list node' side := by
  rw [list_clearAdjacency]
  split
  · exact nil_sublist _
  · exact Sublist.refl _

theorem detachDeleteDeferring_sublist :
    (g.detachDeleteDeferring node pending).1.1.list node' side <+ g.list node' side := by
  cases h : g.nodeAt node with
  | none => rw [detachDeleteDeferring_of_none h]
  | some record =>
    rw [detachDeleteDeferring_of_some h]
    have hincident := @deleteIncident_sublist node' side (g.incidentRelationshipIds node)
      (g.clearAdjacency node, pending)
    exact dropNode_sublist.trans (hincident.trans clearAdjacency_sublist)

/-- Deleting a node and its relationships with nothing deferred. -/
def detachAlone (g : InMemoryGraph) (node : NodeId) : InMemoryGraph × Bool :=
  ((g.detachDeleteDeferring node none).1.1, (g.detachDeleteDeferring node none).2)

theorem detachAlone_once (h : g.Once) : (g.detachAlone node).1.Once :=
  h.sublist fun _ _ => detachDeleteDeferring_sublist

theorem Deferring.clearAdjacency (h : Deferring (g, some p)) :
    Deferring (g.clearAdjacency node, some p) where
  pending := rfl
  waiting := h.waiting
  once := by
    rw [settled, getD_some, settle_clearAdjacency]
    exact Once.sublist h.once fun _ _ => clearAdjacency_sublist

/-- The relationships of a node, deleted with deferral and settled, are deleted as the
settled graph deletes them. -/
theorem settled_deleteIncident (h : Deferring (g, some p)) :
    settled (deleteIncident (g.clearAdjacency node, some p) (g.incidentRelationshipIds node)) =
      (deleteIncident ((g.settle p).clearAdjacency node, none)
        ((g.settle p).incidentRelationshipIds node)).1 := by
  obtain ⟨hrun, -, -⟩ := deleteRelationshipDeferring_simulates.run h.clearAdjacency
    (g.incidentRelationshipIds node)
  have hstart : settled (g.clearAdjacency node, some p) = (g.settle p).clearAdjacency node :=
    settle_clearAdjacency
  have hstored : ((g.settle p).clearAdjacency node).hasRelAt = g.hasRelAt := rfl
  have hwaiting : g.Waiting p := h.waiting
  rw [hstart] at hrun
  rw [deleteIncident, hrun, deleteIncident_none, runSteps_deleteRelationship_stored,
    @runSteps_deleteRelationship_stored _ ((g.settle p).incidentRelationshipIds node), hstored,
    incidentRelationshipIds_settle hwaiting]

/-- One deferring detach delete after another is the detach deletes, settled. -/
theorem detachDeleteDeferring_simulates :
    Simulates (fun (batch : Batch) nodeId => batch.1.detachDeleteDeferring nodeId batch.2)
      detachAlone settled Deferring := by
  have hstate : ∀ (batch : Batch) nodeId, Deferring batch →
      settled (batch.1.detachDeleteDeferring nodeId batch.2).1 =
        ((settled batch).detachAlone nodeId).1 := by
    rintro ⟨g, pending⟩ nodeId hbatch
    obtain ⟨p, rfl⟩ := isSome_iff_exists.mp hbatch.pending
    have hnodeAt : (g.settle p).nodeAt nodeId = g.nodeAt nodeId := rfl
    cases h : g.nodeAt nodeId with
    | none =>
      simp only [detachAlone, settled, getD_some]
      rw [detachDeleteDeferring_of_none h, detachDeleteDeferring_of_none (hnodeAt.trans h)]
      rfl
    | some record =>
      have hincident := @settled_deleteIncident g nodeId p hbatch
      simp only [detachAlone, settled, getD_some] at hincident ⊢
      rw [detachDeleteDeferring_of_some h, detachDeleteDeferring_of_some (hnodeAt.trans h)]
      simp only [settle_emit, settle_dropNode, hincident]
  refine ⟨hstate, ?_, ?_⟩
  · rintro ⟨g, pending⟩ nodeId -
    have hnodeAt : (settled (g, pending)).nodeAt nodeId = g.nodeAt nodeId := rfl
    cases h : g.nodeAt nodeId with
    | none =>
      simp only [detachAlone]
      rw [detachDeleteDeferring_of_none h, detachDeleteDeferring_of_none (hnodeAt.trans h)]
    | some record =>
      simp only [detachAlone]
      rw [detachDeleteDeferring_of_some h, detachDeleteDeferring_of_some (hnodeAt.trans h)]
  · rintro ⟨g, pending⟩ nodeId hbatch
    have honce : (settled (g.detachDeleteDeferring nodeId pending).1).Once := by
      rw [hstate (g, pending) nodeId hbatch]
      exact detachAlone_once hbatch.once
    obtain ⟨p, rfl⟩ := isSome_iff_exists.mp hbatch.pending
    cases h : g.nodeAt nodeId with
    | none =>
      simp only
      rw [detachDeleteDeferring_of_none h]
      exact hbatch
    | some record =>
      obtain ⟨-, -, hrun⟩ := deleteRelationshipDeferring_simulates.run
        (@Deferring.clearAdjacency g nodeId p hbatch) (g.incidentRelationshipIds nodeId)
      simp only at honce ⊢
      rw [detachDeleteDeferring_of_some h] at honce ⊢
      refine ⟨hrun.pending, ?_, honce⟩
      intro entry hentry
      have hgone := hrun.waiting entry hentry
      simp only [dropNode, onNodeDeleted_eq]
      exact hgone

/-! ### The batch -/

/-- A batch delete is its deletes one by one. -/
theorem deleteBatch_eq {delete : InMemoryGraph → ℕ → Option PendingAdjRemovals → Batch × Bool}
    {alone : InMemoryGraph → ℕ → InMemoryGraph × Bool}
    (h : Simulates (fun (batch : Batch) id => delete batch.1 id batch.2) alone settled Deferring)
    (honce : g.Once) (ids : List ℕ) :
    g.deleteBatch delete ids = ((runSteps alone g ids).1, (runSteps alone g ids).2.count true) := by
  have hstart : Deferring (g, some []) := by
    refine ⟨rfl, fun entry hentry => absurd hentry not_mem_nil, ?_⟩
    rw [settled, getD_some, settle_nil]
    exact honce
  obtain ⟨hstate, hresults, -⟩ := h.run hstart ids
  have hsettled : settled (g, some []) = g := settle_nil
  rw [hsettled] at hstate hresults
  rw [← hstate, ← hresults]
  simp only [deleteBatch, flush_eq_settle]
  rfl

/-- Detaching one node defers nothing in the end. -/
theorem detachDeleteNode_eq (h : g.Once) : g.detachDeleteNode node = g.detachAlone node := by
  have hbatch := deleteBatch_eq detachDeleteDeferring_simulates h [node]
  rw [detachDeleteNode, detachDeleteNodes, hbatch, runSteps_cons, runSteps_nil]
  cases hresult : (g.detachAlone node).2 with
  | true => exact Prod.ext rfl hresult.symm
  | false => exact Prod.ext rfl hresult.symm

end InMemoryGraph

end LoraDb
