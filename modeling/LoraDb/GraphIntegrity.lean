import LoraDb.BatchDelete

/-!
# Integrity of the Graph

The graph keeps every fact several times: a relationship is a record, an entry in the lists
of both its endpoints and a member of its type's bucket, and a node is in the bucket of each
of its labels. `Intact` says that what is derived agrees with the records.

Every mutation keeps a graph intact, a batch delete as the deletes it stands for, and so do
the replay entry points and a restored snapshot: every reachable graph is intact.

## Main results

* `Reachable.intact`: a reachable graph is intact.
* `deletes_one_by_one`: a batch delete of a reachable graph is its deletes one by one.
-/

open List

namespace LoraDb

namespace NameDict

variable {dict : NameDict} {name : String}

/-- Numbering a name leaves the earlier numbers. -/
theorem idOrInsert_prefix : dict.names <+: (dict.idOrInsert name).1.names := by
  unfold idOrInsert
  cases dict.idOf name with
  | some id => exact prefix_rfl
  | none => exact prefix_append _ _

/-- The number assigned names the name. -/
theorem idOrInsert_getElem? :
    (dict.idOrInsert name).1.names[(dict.idOrInsert name).2]? = some name := by
  unfold idOrInsert
  cases h : dict.idOf name with
  | some id =>
    obtain ⟨hlt, hget, -⟩ := findIdx?_eq_some_iff_getElem.mp h
    simp only
    rw [getElem?_eq_getElem hlt, beq_iff_eq.mp hget]
  | none => simp

theorem idOrInsert_nodup (h : dict.names.Nodup) : (dict.idOrInsert name).1.names.Nodup := by
  unfold idOrInsert
  cases hid : dict.idOf name with
  | some id => exact h
  | none =>
    have hnot : name ∉ dict.names := by
      intro hmem
      have hnone : ∀ x ∈ dict.names, ¬ (x == name) = true := by
        simpa using findIdx?_eq_none_iff.mp hid
      exact hnone name hmem (beq_self_eq_true name)
    rw [nodup_append]
    refine ⟨h, nodup_singleton _, fun a ha b hb => ?_⟩
    rintro rfl
    exact hnot (mem_singleton.mp hb ▸ ha)

/-- Two numbers of one name are equal. -/
theorem eq_of_getElem? {names : List String} {i j : ℕ} (h : names.Nodup)
    (hi : names[i]? = some name) (hj : names[j]? = some name) : i = j := by
  obtain ⟨hlt, -⟩ := List.getElem?_eq_some_iff.mp hi
  exact (getElem?_inj hlt h).mp (hi.trans hj.symm)

/-- A number keeps its name as more names are assigned numbers. -/
theorem getElem?_of_prefix {names names' : List String} {i : ℕ} (h : names <+: names')
    (hi : names[i]? = some name) : names'[i]? = some name := by
  obtain ⟨rest, rfl⟩ := h
  obtain ⟨hlt, -⟩ := List.getElem?_eq_some_iff.mp hi
  rwa [getElem?_append_left hlt]

end NameDict

namespace InMemoryGraph

variable {g g' : InMemoryGraph} {node node' id rel : ℕ} {side side' : Side} {entry : AdjEntry}

/-! ### Agreement -/

/-- What is derived from the records agrees with them. -/
structure Intact (g : InMemoryGraph) : Prop where
  /-- Every node slot has its lists. -/
  lockstep : g.adjacency.length = g.nodes.len
  bounded : g.nodes.len ≤ MAX_ENTITY_ID + 1
  /-- A list names the stored relationships at its node, and nothing else. -/
  entries : ∀ node side e, e ∈ g.list node side ↔
    ∃ record, g.relAt e.rel = some record ∧ record.endpoint side = node ∧
      record.farEnd side = e.neighbour ∧ g.types.names[e.typeId]? = some record.relType
  once : g.Once
  typed : ∀ id record, g.relAt id = some record → record.relType ∈ g.types.names
  numbered : g.types.names.Nodup
  endpoints : ∀ id record, g.relAt id = some record →
    ∀ side, ∃ node, g.nodeAt (record.endpoint side) = some node
  labels : ∀ label id, id ∈ g.nodesByLabel.ids label ↔
    ∃ record, g.nodeAt id = some record ∧ label ∈ record.labels
  relTypes : ∀ relType id, id ∈ g.relationshipsByType.ids relType ↔
    ∃ record, g.relAt id = some record ∧ record.relType = relType
  nodeCount : g.liveNodeCount = g.nodes.count
  relCount : g.liveRelCount = g.relationships.count
  nodesBelow : ∀ id record, g.nodeAt id = some record → id < g.nextNodeId
  relsBelow : ∀ id record, g.relAt id = some record → id < g.nextRelId

theorem intact_new : new.Intact where
  lockstep := rfl
  bounded := Nat.zero_le _
  entries := by simp [list, new, relAt]
  once := fun _ _ => nodup_nil
  typed := by simp [new, relAt]
  numbered := nodup_nil
  endpoints := by simp [new, relAt]
  labels := by simp [new, nodeAt, IdBuckets.empty, IdBuckets.ids]
  relTypes := by simp [new, relAt, IdBuckets.empty, IdBuckets.ids]
  nodeCount := rfl
  relCount := rfl
  nodesBelow := by simp [new, nodeAt]
  relsBelow := by simp [new, relAt]

/-- Who watches does not matter. -/
theorem Intact.watch (h : g.Intact) (recorder : Option (List MutationEvent))
    (deletedSink : Option (List DeletedRecord)) : Intact { g with recorder, deletedSink } :=
  ⟨h.lockstep, h.bounded, h.entries, h.once, h.typed, h.numbered, h.endpoints, h.labels,
    h.relTypes, h.nodeCount, h.relCount, h.nodesBelow, h.relsBelow⟩

theorem Intact.emit (h : g.Intact) (event : MutationEvent) : (g.emit event).Intact :=
  h.watch _ _

theorem hasNodeAt_iff : g.hasNodeAt id = true ↔ ∃ record, g.nodeAt id = some record := by
  rw [hasNodeAt, Slots.contains_iff, nodeAt]
  simp [Option.map_eq_some_iff]

theorem hasRelAt_iff : g.hasRelAt rel = true ↔ ∃ record, g.relAt rel = some record := by
  rw [hasRelAt, Slots.contains_iff, relAt]
  simp [Option.map_eq_some_iff]

theorem hasRelAt_eq_false : g.hasRelAt rel = false ↔ g.relAt rel = none := by
  rw [← Bool.not_eq_true, hasRelAt_iff]
  cases g.relAt rel <;> simp

theorem hasNodeAt_eq_false : g.hasNodeAt id = false ↔ g.nodeAt id = none := by
  rw [← Bool.not_eq_true, hasNodeAt_iff]
  cases g.nodeAt id <;> simp

/-- The relationships a node's list names are stored. -/
theorem Intact.stored (h : g.Intact) (hmem : entry ∈ g.list node side) :
    ∃ record, g.relAt entry.rel = some record := by
  obtain ⟨record, hrecord, -⟩ := (h.entries _ _ _).mp hmem
  exact ⟨record, hrecord⟩

/-! ### Growing -/

/-- Graphs with the same records and the same lists, names and buckets; one may have more
slots, and counters further on. -/
structure Alike (g g' : InMemoryGraph) : Prop where
  lockstep : g.adjacency.length = g.nodes.len → g'.adjacency.length = g'.nodes.len
  bounded : g.nodes.len ≤ MAX_ENTITY_ID + 1 → g'.nodes.len ≤ MAX_ENTITY_ID + 1
  list : ∀ node side, g'.list node side = g.list node side
  nodeAt : ∀ id, g'.nodeAt id = g.nodeAt id
  relAt : ∀ id, g'.relAt id = g.relAt id
  types : g'.types = g.types
  nodesByLabel : g'.nodesByLabel = g.nodesByLabel
  relationshipsByType : g'.relationshipsByType = g.relationshipsByType
  liveNodeCount : g'.liveNodeCount = g.liveNodeCount
  liveRelCount : g'.liveRelCount = g.liveRelCount
  nodeCount : g'.nodes.count = g.nodes.count
  relCount : g'.relationships.count = g.relationships.count
  nextNodeId : g.nextNodeId ≤ g'.nextNodeId
  nextRelId : g.nextRelId ≤ g'.nextRelId
  recorder : g'.recorder = g.recorder

theorem Intact.alike (h : g.Intact) (halike : Alike g g') : g'.Intact where
  lockstep := halike.lockstep h.lockstep
  bounded := halike.bounded h.bounded
  entries := by simpa only [halike.list, halike.relAt, halike.types] using h.entries
  once := by simpa only [Once, halike.list] using h.once
  typed := by simpa only [halike.relAt, halike.types] using h.typed
  numbered := by simpa only [halike.types] using h.numbered
  endpoints := by simpa only [halike.relAt, halike.nodeAt] using h.endpoints
  labels := by simpa only [halike.nodesByLabel, halike.nodeAt] using h.labels
  relTypes := by simpa only [halike.relationshipsByType, halike.relAt] using h.relTypes
  nodeCount := by rw [halike.liveNodeCount, halike.nodeCount, h.nodeCount]
  relCount := by rw [halike.liveRelCount, halike.relCount, h.relCount]
  nodesBelow := by
    intro id record hrecord
    rw [halike.nodeAt] at hrecord
    exact (h.nodesBelow id record hrecord).trans_le halike.nextNodeId
  relsBelow := by
    intro id record hrecord
    rw [halike.relAt] at hrecord
    exact (h.relsBelow id record hrecord).trans_le halike.nextRelId

theorem Alike.refl : Alike g g := by
  constructor <;>
    first | exact fun _ _ => rfl | exact fun _ => rfl | exact id | exact le_rfl | rfl

theorem slotLenForId_ok {kind : String} {target : ℕ} (h : slotLenForId id kind = .ok target) :
    target = id + 1 ∧ id ≤ MAX_ENTITY_ID := by
  unfold slotLenForId at h
  split at h
  · cases h
  next hle =>
    cases h
    exact ⟨rfl, Nat.not_lt.mp hle⟩

/-- Growing the node slots keeps everything alike. -/
theorem ensureNodeSlotChecked_ok (hok : g.ensureNodeSlotChecked id = .ok g') :
    Alike g g' ∧ id < g'.nodes.len ∧ g'.nextNodeId = g.nextNodeId := by
  unfold ensureNodeSlotChecked at hok
  cases htarget : slotLenForId id "node" with
  | error e =>
    rw [htarget] at hok
    cases hok
  | ok target =>
    obtain ⟨rfl, hid⟩ := slotLenForId_ok htarget
    rw [htarget] at hok
    simp only [bind, Except.bind] at hok
    split at hok
    next hlt =>
      cases hok
      refine ⟨⟨?_, ?_, ?_, fun _ => ?_, fun _ => rfl, rfl, rfl, rfl, rfl, rfl,
        Slots.count_growTo, rfl, le_rfl, le_rfl, rfl⟩, ?_, rfl⟩
      · intro hlen
        simp only [length_append, length_replicate, Slots.len_growTo]
        omega
      · intro hlen
        simp only [Slots.len_growTo]
        omega
      · intro node side
        unfold list
        by_cases hnode : node < g.adjacency.length
        · rw [getElem?_append_left hnode]
        · have hge : g.adjacency.length ≤ node := Nat.not_lt.mp hnode
          rw [getElem?_append_right hge, getElem?_eq_none hge, getElem?_replicate]
          by_cases hnew : node - g.adjacency.length < id + 1 - g.adjacency.length
          · rw [if_pos hnew]
            exact Adjacency.side_empty
          · rw [if_neg hnew]
      · simp only [nodeAt, Slots.get_growTo]
      · simp only [Slots.len_growTo]
        omega
    next hge =>
      cases hok
      exact ⟨Alike.refl, by omega, rfl⟩

theorem ensureRelSlotChecked_ok (hok : g.ensureRelSlotChecked rel = .ok g') :
    Alike g g' ∧ rel < g'.relationships.len ∧ g'.nextRelId = g.nextRelId := by
  unfold ensureRelSlotChecked at hok
  cases htarget : slotLenForId rel "relationship" with
  | error e =>
    rw [htarget] at hok
    cases hok
  | ok target =>
    obtain ⟨rfl, hid⟩ := slotLenForId_ok htarget
    rw [htarget] at hok
    simp only [bind, Except.bind] at hok
    split at hok
    next hlt =>
      cases hok
      refine ⟨⟨id, id, fun _ _ => rfl, fun _ => rfl, fun _ => ?_, rfl, rfl, rfl, rfl, rfl, rfl,
        Slots.count_growTo, le_rfl, le_rfl, rfl⟩, ?_, rfl⟩
      · simp only [relAt, Slots.get_growTo]
      · simp only [Slots.len_growTo]
        omega
    next hge =>
      cases hok
      exact ⟨Alike.refl, by omega, rfl⟩

/-- A slot that is there is not grown. -/
theorem ensureNodeSlotChecked_of_lt (h : g.nodes.len ≤ MAX_ENTITY_ID + 1)
    (hid : id < g.nodes.len) : g.ensureNodeSlotChecked id = .ok g := by
  have hmax : ¬ MAX_ENTITY_ID < id := by omega
  have hlen : ¬ g.nodes.len < id + 1 := by omega
  simp only [ensureNodeSlotChecked, slotLenForId, if_neg hmax, bind, Except.bind, if_neg hlen]

/-! ### Creating a node -/

variable {buckets : IdBuckets}

theorem mem_ids_foldl_insert {names : List String} {name : String} {i : ℕ} :
    i ∈ (names.foldl (fun buckets name => buckets.insert id name) buckets).ids name ↔
      i ∈ buckets.ids name ∨ i = id ∧ name ∈ names := by
  induction names generalizing buckets with
  | nil => simp
  | cons first names ih =>
    rw [foldl_cons, ih, IdBuckets.ids_insert, mem_cons]
    by_cases hname : name = first
    · subst hname
      simp
      tauto
    · simp [hname]

theorem mem_ids_foldl_remove {names : List String} {name : String} {i : ℕ} :
    i ∈ (names.foldl (fun buckets name => buckets.remove id name) buckets).ids name ↔
      i ∈ buckets.ids name ∧ ¬ (i = id ∧ name ∈ names) := by
  induction names generalizing buckets with
  | nil => simp
  | cons first names ih =>
    rw [foldl_cons, ih, IdBuckets.ids_remove, mem_cons]
    by_cases hname : name = first
    · subst hname
      simp
      tauto
    · simp [hname]

theorem onNodeCreated_eq {record : NodeRecord} : g.onNodeCreated record = { g with
      nodesByLabel :=
        record.labels.foldl (fun buckets label => buckets.insert record.id label)
          g.nodesByLabel } := by
  unfold onNodeCreated
  induction record.labels generalizing g with
  | nil => rfl
  | cons label labels ih =>
    rw [foldl_cons, foldl_cons, ih]
    rfl

/-- What slot `j` holds once a node is filed under `id`. -/
theorem nodeAt_set {record : NodeRecord} (hid : id < g.nodes.len) (hrecord : record.id = id)
    (j : ℕ) : nodeAt { g with nodes := g.nodes.set id record } j =
      if j = id then some record else g.nodeAt j := by
  simp only [nodeAt, Slots.get_set hid]
  split
  next hj =>
    subst hj
    cases record
    simp only at hrecord
    simp [hrecord]
  next => rfl

variable {record : RelationshipRecord}

theorem relAt_set (hrel : rel < g.relationships.len) (hrecord : record.id = rel) (j : ℕ) :
    relAt { g with relationships := g.relationships.set rel record } j =
      if j = rel then some record else g.relAt j := by
  simp only [relAt, Slots.get_set hrel]
  split
  next hj =>
    subst hj
    cases record
    simp only at hrecord
    simp [hrecord]
  next => rfl

theorem lt_of_nodeAt {record : NodeRecord} (h : g.nodeAt id = some record) : id < g.nodes.len := by
  obtain ⟨stored, hstored, -⟩ := Option.map_eq_some_iff.mp h
  exact Slots.lt_of_get hstored

theorem lt_of_relAt (h : g.relAt rel = some record) : rel < g.relationships.len := by
  obtain ⟨stored, hstored, -⟩ := Option.map_eq_some_iff.mp h
  exact Slots.lt_of_get hstored

/-- Filing a new node keeps the graph intact. -/
theorem Intact.putNode {record : NodeRecord} (h : g.Intact) (hid : id < g.nodes.len)
    (hnone : g.nodeAt id = none) (hnext : id < g.nextNodeId) (hrecord : record.id = id) :
    ((g.putNodeAtSlot id record).onNodeCreated record).Intact := by
  rw [onNodeCreated_eq]
  have hcontains : g.nodes.contains id = false := hasNodeAt_eq_false.mpr hnone
  have hnodeAt := @nodeAt_set g id record hid hrecord
  refine ⟨?_, ?_, h.entries, h.once, h.typed, h.numbered, ?_, ?_, h.relTypes, ?_, h.relCount,
    ?_, h.relsBelow⟩
  · exact h.lockstep.trans Slots.len_set.symm
  · exact le_of_eq_of_le Slots.len_set h.bounded
  · intro j other hother side
    obtain ⟨node, hnode⟩ := h.endpoints j other hother side
    change ∃ node, nodeAt { g with nodes := g.nodes.set id record } _ = some node
    rw [hnodeAt]
    split
    · exact ⟨record, rfl⟩
    · exact ⟨node, hnode⟩
  · intro label j
    change _ ↔ ∃ r, nodeAt { g with nodes := g.nodes.set id record } j = some r ∧ label ∈ r.labels
    simp only [putNodeAtSlot, mem_ids_foldl_insert, h.labels, hnodeAt, hrecord]
    by_cases hj : j = id
    · subst hj
      simp [hnone]
    · simp [hj]
  · have hcount := @Slots.count_set _ g.nodes id record hid
    rw [hcontains] at hcount
    simp only [putNodeAtSlot, hcontains]
    simp only [Bool.false_eq_true, if_false] at hcount ⊢
    rw [h.nodeCount]
    omega
  · intro j other hother
    change nodeAt { g with nodes := g.nodes.set id record } j = some other at hother
    rw [hnodeAt] at hother
    split at hother
    next hj => exact hj ▸ hnext
    next => exact h.nodesBelow j other hother

/-! ### Creating a relationship -/

theorem list_push (hnode : node < g.adjacency.length) :
    (g.editAdjacency node (·.push side entry)).list node' side' =
      g.list node' side' ++ if node' = node ∧ side' = side then [entry] else [] := by
  rw [list_editAdjacency, list]
  by_cases hsame : node' = node
  · subst hsame
    rw [getElem?_eq_getElem hnode]
    by_cases hside : side' = side
    · simp [hside, Adjacency.push, Adjacency.side_edit]
    · simp [hside, Adjacency.push, Adjacency.side_edit]
  · cases g.adjacency[node']? with
    | none => simp [hsame]
    | some adj => simp [hsame]

/-- The graph with a type numbered. -/
def numberType (g : InMemoryGraph) (relType : String) : InMemoryGraph :=
  { g with types := (g.types.idOrInsert relType).1 }

/-- Between existing nodes, a relationship is pushed onto both lists. -/
theorem attachRelationship_eq
    (hbounded : g.nodes.len ≤ MAX_ENTITY_ID + 1) (hsrc : record.src < g.nodes.len)
    (hdst : record.dst < g.nodes.len) :
    g.attachRelationship record = insertRelationshipTypeIndex
        (editAdjacency
          (editAdjacency (g.numberType record.relType) record.src
            (·.push .out ⟨(g.types.idOrInsert record.relType).2, record.dst, record.id⟩))
          record.dst
            (·.push .into ⟨(g.types.idOrInsert record.relType).2, record.src, record.id⟩))
        record.id record.relType := by
  have hpush : ∀ {g : InMemoryGraph} {node side entry}, g.nodes.len ≤ MAX_ENTITY_ID + 1 →
      node < g.nodes.len → g.adjacencyPush node side entry =
        g.editAdjacency node (·.push side entry) := by
    intro g node side entry hbounded hnode
    rw [adjacencyPush, ensureNodeSlotChecked_of_lt hbounded hnode]
  have hfirst := @hpush (g.numberType record.relType) record.src .out
    ⟨(g.types.idOrInsert record.relType).2, record.dst, record.id⟩ hbounded hsrc
  have hsecond := fun adjust => @hpush ((g.numberType record.relType).editAdjacency record.src
    adjust) record.dst .into ⟨(g.types.idOrInsert record.relType).2, record.src, record.id⟩
    hbounded hdst
  rw [← hsecond, ← hfirst]
  rfl

theorem list_attachRelationship
    (hbounded : g.nodes.len ≤ MAX_ENTITY_ID + 1) (hsrc : record.src < g.nodes.len)
    (hdst : record.dst < g.nodes.len) (hlen : g.adjacency.length = g.nodes.len) :
    (g.attachRelationship record).list node side = g.list node side ++
      if node = record.endpoint side then
        [⟨(g.types.idOrInsert record.relType).2, record.farEnd side, record.id⟩]
      else [] := by
  rw [attachRelationship_eq hbounded hsrc hdst]
  have hsrc' : record.src < (g.numberType record.relType).adjacency.length := hlen ▸ hsrc
  have hdst' : ∀ edit, record.dst <
      ((g.numberType record.relType).editAdjacency record.src edit).adjacency.length := by
    intro edit
    rw [editAdjacency, length_modify]
    exact hlen ▸ hdst
  have hlist : ∀ {g : InMemoryGraph} {id name node side},
      (g.insertRelationshipTypeIndex id name).list node side = g.list node side := rfl
  rw [hlist, list_push (hdst' _), list_push hsrc']
  have hnumber : (g.numberType record.relType).list node side = g.list node side := rfl
  rw [hnumber]
  cases side with
  | out =>
    by_cases hnode : node = record.src
    · simp [RelationshipRecord.endpoint, RelationshipRecord.farEnd, hnode]
    · simp [RelationshipRecord.endpoint, hnode]
  | into =>
    by_cases hnode : node = record.dst
    · simp [RelationshipRecord.endpoint, RelationshipRecord.farEnd, hnode]
    · simp [RelationshipRecord.endpoint, hnode]

/-- Filing and listing a new relationship keeps the graph intact. -/
theorem Intact.putRelationship (h : g.Intact)
    (hrel : rel < g.relationships.len) (hnone : g.relAt rel = none)
    (hnext : rel < g.nextRelId) (hrecord : record.id = rel)
    (hends : ∀ side, ∃ node, g.nodeAt (record.endpoint side) = some node) :
    ((g.putRelAtSlot rel record).attachRelationship record).Intact := by
  have hcontains : g.relationships.contains rel = false := hasRelAt_eq_false.mpr hnone
  have hsrc : record.src < g.nodes.len := lt_of_nodeAt (hends .out).choose_spec
  have hdst : record.dst < g.nodes.len := lt_of_nodeAt (hends .into).choose_spec
  have hrelAt := @relAt_set g rel record hrel hrecord
  have hlist := fun node side =>
    @list_attachRelationship (g.putRelAtSlot rel record) node side record h.bounded hsrc hdst
      h.lockstep
  have heq := @attachRelationship_eq (g.putRelAtSlot rel record) record h.bounded hsrc hdst
  have hrelAt' : ∀ j, ((g.putRelAtSlot rel record).attachRelationship record).relAt j =
      if j = rel then some record else g.relAt j := by
    intro j
    rw [heq]
    exact hrelAt j
  have hnodeAt' : ∀ j, ((g.putRelAtSlot rel record).attachRelationship record).nodeAt j =
      g.nodeAt j := by
    intro j
    rw [heq]
    rfl
  -- the type is numbered when the record is stored, and again when it is listed
  obtain ⟨dict, typeId, htypes, hpre, hget, hnumbered⟩ : ∃ (dict : NameDict) (typeId : ℕ),
      (g.putRelAtSlot rel record).types.idOrInsert record.relType = (dict, typeId) ∧
        g.types.names <+: dict.names ∧ dict.names[typeId]? = some record.relType ∧
          dict.names.Nodup := by
    refine ⟨_, _, rfl, ?_, NameDict.idOrInsert_getElem?, ?_⟩
    · exact NameDict.idOrInsert_prefix.trans NameDict.idOrInsert_prefix
    · exact NameDict.idOrInsert_nodup (NameDict.idOrInsert_nodup h.numbered)
  have htypes' : ((g.putRelAtSlot rel record).attachRelationship record).types = dict := by
    rw [heq]
    exact congrArg Prod.fst htypes
  have hlist' : ∀ node side,
      ((g.putRelAtSlot rel record).attachRelationship record).list node side =
        g.list node side ++ if node = record.endpoint side then
        [⟨typeId, record.farEnd side, record.id⟩] else [] := by
    intro node side
    rw [hlist, htypes]
    rfl
  have hfresh : ∀ node side, ∀ e ∈ g.list node side, e.rel ≠ rel := by
    rintro node side e he rfl
    obtain ⟨other, hother⟩ := h.stored he
    rw [hnone] at hother
    cases hother
  constructor
  case lockstep =>
    rw [heq]
    simp only [insertRelationshipTypeIndex, editAdjacency, length_modify]
    exact h.lockstep
  case bounded =>
    rw [heq]
    exact h.bounded
  case entries =>
    intro node side e
    rw [hlist', mem_append, hrelAt', htypes']
    by_cases hnew : e.rel = rel
    · rw [if_pos hnew]
      constructor
      · rintro (hold | hentry)
        · exact absurd hnew (hfresh node side e hold)
        · split at hentry
          next hnode =>
            obtain rfl := mem_singleton.mp hentry
            exact ⟨record, rfl, hnode.symm, rfl, hget⟩
          next => cases hentry
      · rintro ⟨_, hsome, hend, hfar, hname⟩
        cases hsome
        right
        rw [if_pos hend.symm, mem_singleton]
        have htypeId : e.typeId = typeId := NameDict.eq_of_getElem? hnumbered hname hget
        cases e
        simp only [AdjEntry.mk.injEq] at *
        exact ⟨htypeId, hfar.symm, hnew.trans hrecord.symm⟩
    · rw [if_neg hnew]
      have hentry : e ∉ (if node = record.endpoint side then
          [(⟨typeId, record.farEnd side, record.id⟩ : AdjEntry)] else []) := by
        intro hmem
        split at hmem
        next => exact hnew (mem_singleton.mp hmem ▸ hrecord)
        next => cases hmem
      rw [or_iff_left hentry, h.entries]
      constructor
      · rintro ⟨other, hother, hend, hfar, hname⟩
        exact ⟨other, hother, hend, hfar, NameDict.getElem?_of_prefix hpre hname⟩
      · rintro ⟨other, hother, hend, hfar, hname⟩
        refine ⟨other, hother, hend, hfar, ?_⟩
        obtain ⟨k, hk⟩ := mem_iff_getElem?.mp (h.typed _ _ hother)
        have hk' := NameDict.getElem?_of_prefix hpre hk
        rwa [← NameDict.eq_of_getElem? hnumbered hk' hname]
  case once =>
    intro node side
    rw [hlist', ListedOnce, map_append, nodup_append]
    refine ⟨h.once node side, ?_, ?_⟩
    · split <;> simp
    · intro r hr r' hr'
      obtain ⟨e, he, rfl⟩ := mem_map.mp hr
      split at hr'
      next =>
        rw [mem_singleton.mp hr']
        exact fun heq => hfresh node side e he (heq.trans hrecord)
      next => cases hr'
  case typed =>
    intro id other hother
    rw [hrelAt'] at hother
    rw [htypes']
    split at hother
    · cases hother
      exact mem_of_getElem? hget
    · exact hpre.subset (h.typed _ _ hother)
  case numbered =>
    rw [htypes']
    exact hnumbered
  case endpoints =>
    intro id other hother side
    rw [hrelAt'] at hother
    rw [hnodeAt']
    split at hother
    · cases hother
      exact hends side
    · exact h.endpoints _ _ hother side
  case labels =>
    intro label id
    rw [hnodeAt', ← h.labels, heq]
    rfl
  case relTypes =>
    intro relType id
    have hids : ((g.putRelAtSlot rel record).attachRelationship record).relationshipsByType =
        g.relationshipsByType.insert record.id record.relType := by
      rw [heq]
      rfl
    rw [hrelAt', hids, IdBuckets.ids_insert, hrecord]
    by_cases hnew : id = rel
    · subst hnew
      have hnot : ∀ name, id ∉ g.relationshipsByType.ids name := by
        intro name hmem
        obtain ⟨other, hother, -⟩ := (h.relTypes _ _).mp hmem
        rw [hnone] at hother
        cases hother
      by_cases hname : relType = record.relType
      · simp [hname]
      · simp [hname, hnot, Ne.symm hname]
    · by_cases hname : relType = record.relType
      · subst hname
        simp [hnew, h.relTypes]
      · simp [hnew, hname, h.relTypes]
  case nodeCount =>
    rw [heq]
    exact h.nodeCount
  case relCount =>
    rw [heq]
    have hcount := @Slots.count_set _ g.relationships rel record hrel
    rw [hcontains] at hcount
    change (if g.relationships.contains rel then g.liveRelCount else g.liveRelCount + 1) =
      (g.relationships.set rel record).count
    simp only [hcontains, Bool.false_eq_true, if_false] at hcount ⊢
    rw [h.relCount]
    omega
  case nodesBelow =>
    intro id other hother
    rw [hnodeAt'] at hother
    rw [heq]
    exact h.nodesBelow id other hother
  case relsBelow =>
    intro id other hother
    rw [hrelAt'] at hother
    rw [heq]
    split at hother
    next hid => exact hid ▸ hnext
    next => exact h.relsBelow id other hother

/-! ### Editing records -/

/-- A node's record may be replaced, if its labels' buckets follow. -/
theorem Intact.setNode {old record : NodeRecord} (h : g.Intact)
    (hold : g.nodeAt id = some old) (hrecord : record.id = id)
    (hbuckets : ∀ label j, j ∈ buckets.ids label ↔
      if j = id then label ∈ record.labels else j ∈ g.nodesByLabel.ids label) :
    Intact { g with nodes := g.nodes.set id record, nodesByLabel := buckets } := by
  have hid : id < g.nodes.len := lt_of_nodeAt hold
  have hcontains : g.nodes.contains id = true := hasNodeAt_iff.mpr ⟨old, hold⟩
  have hnodeAt := @nodeAt_set g id record hid hrecord
  refine ⟨?_, ?_, h.entries, h.once, h.typed, h.numbered, ?_, ?_, h.relTypes, ?_, h.relCount,
    ?_, h.relsBelow⟩
  · exact h.lockstep.trans Slots.len_set.symm
  · exact le_of_eq_of_le Slots.len_set h.bounded
  · intro j other hother side
    obtain ⟨node, hnode⟩ := h.endpoints j other hother side
    change ∃ node, nodeAt { g with nodes := g.nodes.set id record } _ = some node
    rw [hnodeAt]
    split
    · exact ⟨record, rfl⟩
    · exact ⟨node, hnode⟩
  · intro label j
    change _ ↔ ∃ r, nodeAt { g with nodes := g.nodes.set id record } j = some r ∧ label ∈ r.labels
    rw [hbuckets, hnodeAt]
    split
    · simp
    · exact h.labels label j
  · have hcount := @Slots.count_set _ g.nodes id record hid
    rw [if_pos hcontains] at hcount
    exact h.nodeCount.trans (Nat.succ_injective hcount).symm
  · intro j other hother
    change nodeAt { g with nodes := g.nodes.set id record } j = some other at hother
    rw [hnodeAt] at hother
    split at hother
    next hj => exact hj ▸ h.nodesBelow id old hold
    next => exact h.nodesBelow j other hother

/-- A relationship's record may be replaced by one of the same type between the same
nodes. -/
theorem Intact.setRel {old record : RelationshipRecord} (h : g.Intact)
    (hold : g.relAt rel = some old) (hrecord : record.id = rel) (hsrc : record.src = old.src)
    (hdst : record.dst = old.dst) (htype : record.relType = old.relType) :
    Intact { g with relationships := g.relationships.set rel record } := by
  have hrel : rel < g.relationships.len := lt_of_relAt hold
  have hcontains : g.relationships.contains rel = true := hasRelAt_iff.mpr ⟨old, hold⟩
  have hrelAt := @relAt_set g rel record hrel hrecord
  have hend : ∀ side, record.endpoint side = old.endpoint side := by
    intro side
    cases side <;> simp [RelationshipRecord.endpoint, hsrc, hdst]
  have hfar : ∀ side, record.farEnd side = old.farEnd side := by
    intro side
    cases side <;> simp [RelationshipRecord.farEnd, hsrc, hdst]
  refine ⟨h.lockstep, h.bounded, ?_, h.once, ?_, h.numbered, ?_, h.labels, ?_, h.nodeCount, ?_,
    h.nodesBelow, ?_⟩
  · intro node side e
    refine (h.entries node side e).trans ?_
    rw [hrelAt]
    split
    next he =>
      rw [he, hold]
      simp [hend, hfar, htype]
    next => rfl
  · intro j other hother
    rw [hrelAt] at hother
    split at hother
    · cases hother
      exact htype ▸ h.typed rel old hold
    · exact h.typed j other hother
  · intro j other hother side
    rw [hrelAt] at hother
    split at hother
    · cases hother
      exact hend side ▸ h.endpoints rel old hold side
    · exact h.endpoints j other hother side
  · intro relType j
    refine (h.relTypes relType j).trans ?_
    rw [hrelAt]
    split
    next hj =>
      rw [hj, hold]
      simp [htype]
    next => rfl
  · have hcount := @Slots.count_set _ g.relationships rel record hrel
    rw [if_pos hcontains] at hcount
    exact h.relCount.trans (Nat.succ_injective hcount).symm
  · intro j other hother
    rw [hrelAt] at hother
    split at hother
    next hj => exact hj ▸ h.relsBelow rel old hold
    next => exact h.relsBelow j other hother

/-! ### Deleting -/

/-- What an immediate delete of a stored relationship does, edit by edit. -/
theorem deleteRelationship_of_some (h : g.relAt rel = some record) : g.deleteRelationship rel =
      (((((g.dropRel rel record).editAdjacency record.src (·.remove .out record.id)).editAdjacency
        record.dst (·.remove .into record.id)).removeRelationshipTypeIndex
          record.id record.relType).emit (.deleteRelationship rel), true) := by
  rw [deleteRelationship_eq, deleteRelationshipDeferring_of_some h]
  simp only [detachRelationshipIndexes, adjacencyRemove_none]

/-- Both endpoints' lists lose a deleted relationship. -/
theorem list_deleteRelationship (h : g.Once) (hrecord : g.relAt rel = some record) :
    (g.deleteRelationship rel).1.list node side =
      if node = record.endpoint side then (g.list node side).filter fun e => e.rel != rel
      else g.list node side := by
  have hlist : (g.deleteRelationship rel).1.list node side =
      (((g.dropRel rel record).editAdjacency record.src
        (·.remove .out record.id)).editAdjacency record.dst
          (·.remove .into record.id)).list node side := by
    rw [deleteRelationship_of_some hrecord]
    rfl
  have hdrop : (g.dropRel rel record).list node side = g.list node side := rfl
  rw [hlist, list_remove, list_remove, hdrop, relAt_id hrecord]
  cases side with
  | out =>
    by_cases hnode : node = record.src
    · simp [RelationshipRecord.endpoint, hnode, (h record.src .out).remove_eq]
    · simp [RelationshipRecord.endpoint, hnode]
  | into =>
    by_cases hnode : node = record.dst
    · simp [RelationshipRecord.endpoint, hnode, (h record.dst .into).remove_eq]
    · simp [RelationshipRecord.endpoint, hnode]

theorem Intact.deleteRelationship (h : g.Intact) : (g.deleteRelationship rel).1.Intact := by
  cases hrecord : g.relAt rel with
  | none => rwa [deleteRelationship_of_none hrecord]
  | some record =>
    have hcontains : g.relationships.contains rel = true := hasRelAt_iff.mpr ⟨record, hrecord⟩
    have hrelAt : ∀ j, (g.deleteRelationship rel).1.relAt j =
        if j = rel then none else g.relAt j := by
      intro j
      rw [deleteRelationship_eq, deleteRelationshipDeferring_relAt]
    have hstored : ∀ {j other}, (g.deleteRelationship rel).1.relAt j = some other →
        j ≠ rel ∧ g.relAt j = some other := by
      intro j other hother
      rw [hrelAt] at hother
      split at hother
      · cases hother
      next hne => exact ⟨hne, hother⟩
    have hlist := fun node side =>
      @list_deleteRelationship g node rel side record h.once hrecord
    have honce : (g.deleteRelationship rel).1.Once := deleteRelationship_once h.once
    rw [deleteRelationship_of_some hrecord] at hrelAt hstored hlist honce ⊢
    refine ⟨?_, h.bounded, ?_, honce, ?_, h.numbered, ?_, h.labels, ?_, h.nodeCount, ?_,
      h.nodesBelow, ?_⟩
    · change ((g.adjacency.modify record.src _).modify record.dst _).length = g.nodes.len
      rw [length_modify, length_modify]
      exact h.lockstep
    · intro node side e
      have hentries := h.entries node side e
      rw [hlist, hrelAt]
      by_cases he : e.rel = rel
      · have hnot : e ∉ if node = record.endpoint side then
            (g.list node side).filter fun e => e.rel != rel else g.list node side := by
          split
          next => simp [he]
          next hnode =>
            intro hmem
            obtain ⟨other, hother, hend, -⟩ := (h.entries _ _ _).mp hmem
            rw [he, hrecord] at hother
            cases hother
            exact hnode hend.symm
        simp [he, hnot]
      · rw [if_neg he]
        refine Iff.trans ?_ hentries
        split
        next => simp [he]
        next => rfl
    · exact fun j other hother => h.typed j other (hstored hother).2
    · exact fun j other hother => h.endpoints j other (hstored hother).2
    · intro relType j
      rw [hrelAt]
      change j ∈ (g.relationshipsByType.remove record.id record.relType).ids relType ↔ _
      rw [IdBuckets.ids_remove, relAt_id hrecord]
      by_cases hj : j = rel
      · subst hj
        have hnot : j ∉ if relType = record.relType then
            (g.relationshipsByType.ids record.relType).erase j
              else g.relationshipsByType.ids relType := by
          split
          next => simp
          next hname =>
            intro hmem
            obtain ⟨other, hother, htype⟩ := (h.relTypes _ _).mp hmem
            rw [hrecord] at hother
            cases hother
            exact hname htype.symm
        simp [hnot]
      · rw [if_neg hj, ← h.relTypes]
        split
        next hname => simp [hj, hname]
        next => rfl
    · have hcount := Slots.count_remove hcontains
      change g.liveRelCount - 1 = (g.relationships.remove rel).count
      rw [h.relCount, ← hcount, Nat.add_sub_cancel]
    · exact fun j other hother => h.relsBelow j other (hstored hother).2

theorem nodeAt_dropNode {record : NodeRecord} {j : NodeId} :
    (g.dropNode id record).nodeAt j = if j = id then none else g.nodeAt j := by
  rw [dropNode, onNodeDeleted_eq]
  simp only [nodeAt, sinkDeleted, clearAdjacency, editAdjacency, Slots.get_remove]
  split <;> rfl

theorem relAt_dropNode {record : NodeRecord} : (g.dropNode id record).relAt rel = g.relAt rel := by
  rw [dropNode, onNodeDeleted_eq]
  rfl

theorem list_dropNode {record : NodeRecord} (hlists : ∀ side, g.list id side = []) :
    (g.dropNode id record).list node side = g.list node side := by
  have hclear : (g.dropNode id record).list node side = (g.clearAdjacency id).list node side := by
    rw [dropNode, onNodeDeleted_eq]
    rfl
  rw [hclear, list_clearAdjacency]
  split
  next hnode => rw [hnode, hlists]
  next => rfl

/-- Dropping a node that no relationship names keeps the graph intact. -/
theorem Intact.dropNode {record : NodeRecord} (h : g.Intact) (hrecord : g.nodeAt id = some record)
    (hlists : ∀ side, g.list id side = []) : (g.dropNode id record).Intact := by
  have hcontains : g.nodes.contains id = true := hasNodeAt_iff.mpr ⟨record, hrecord⟩
  have hnodeAt : ∀ j, (g.dropNode id record).nodeAt j =
      if j = id then none else g.nodeAt j := fun j => nodeAt_dropNode
  have hlist : ∀ node side, (g.dropNode id record).list node side = g.list node side :=
    fun node side => list_dropNode hlists
  have hfree : ∀ j other, g.relAt j = some other → ∀ side, other.endpoint side ≠ id := by
    rintro j other hother side rfl
    obtain ⟨k, hk⟩ := mem_iff_getElem?.mp (h.typed _ _ hother)
    have hmem : (⟨k, other.farEnd side, j⟩ : AdjEntry) ∈ g.list (other.endpoint side) side :=
      (h.entries _ _ _).mpr ⟨other, hother, rfl, rfl, hk⟩
    rw [hlists] at hmem
    cases hmem
  have hframe : ∃ adj buckets, adj.length = g.adjacency.length ∧ (∀ label j,
      j ∈ buckets.ids label ↔ j ∈ g.nodesByLabel.ids label ∧ ¬ (j = id ∧ label ∈ record.labels)) ∧
      g.dropNode id record = { g with
        nodes := g.nodes.remove id
        liveNodeCount := g.liveNodeCount - 1
        adjacency := adj
        nodesByLabel := buckets
        deletedSink := (g.dropNode id record).deletedSink } := by
    refine ⟨g.adjacency.modify id fun _ => Adjacency.empty,
      record.labels.foldl (fun buckets label => buckets.remove id label) g.nodesByLabel,
      length_modify _ _ _, fun label j => mem_ids_foldl_remove, ?_⟩
    rw [InMemoryGraph.dropNode, onNodeDeleted_eq, nodeAt_id hrecord]
    rfl
  obtain ⟨adj, buckets, hlen, hbuckets, heq⟩ := hframe
  constructor
  case lockstep =>
    rw [heq]
    exact hlen.trans (h.lockstep.trans Slots.len_remove.symm)
  case bounded =>
    rw [heq]
    exact le_of_eq_of_le Slots.len_remove h.bounded
  case entries =>
    intro node side e
    rw [hlist, heq]
    exact h.entries node side e
  case once =>
    intro node side
    rw [hlist]
    exact h.once node side
  case typed =>
    rw [heq]
    exact h.typed
  case numbered =>
    rw [heq]
    exact h.numbered
  case endpoints =>
    intro j other hother side
    have hother' : g.relAt j = some other := by
      rw [heq] at hother
      exact hother
    rw [hnodeAt, if_neg (hfree j other hother' side)]
    exact h.endpoints j other hother' side
  case labels =>
    intro label j
    rw [hnodeAt]
    have hids : j ∈ (g.dropNode id record).nodesByLabel.ids label ↔
        j ∈ g.nodesByLabel.ids label ∧ ¬ (j = id ∧ label ∈ record.labels) := by
      rw [heq]
      exact hbuckets label j
    rw [hids, h.labels]
    split
    next hj =>
      subst hj
      simp [hrecord]
    next hj => simp [hj]
  case relTypes =>
    rw [heq]
    exact h.relTypes
  case nodeCount =>
    have hcount := Slots.count_remove hcontains
    rw [heq]
    change g.liveNodeCount - 1 = (g.nodes.remove id).count
    rw [h.nodeCount, ← hcount, Nat.add_sub_cancel]
  case relCount =>
    rw [heq]
    exact h.relCount
  case nodesBelow =>
    intro j other hother
    rw [hnodeAt] at hother
    rw [heq]
    split at hother
    · cases hother
    · exact h.nodesBelow j other hother
  case relsBelow =>
    rw [heq]
    exact h.relsBelow

/-- Clearing a node's lists commutes with deleting a relationship. -/
theorem deleteRelationship_clearAdjacency : (g.clearAdjacency node).deleteRelationship rel =
      ((g.deleteRelationship rel).1.clearAdjacency node, (g.deleteRelationship rel).2) := by
  have hclear : (g.clearAdjacency node).relAt rel = g.relAt rel := rfl
  cases hrecord : g.relAt rel with
  | none =>
    rw [deleteRelationship_of_none hrecord, deleteRelationship_of_none (hclear.trans hrecord)]
  | some record =>
    rw [deleteRelationship_of_some hrecord, deleteRelationship_of_some (hclear.trans hrecord)]
    refine Prod.ext ?_ rfl
    refine eq_of_lists rfl ?_ ?_
    · simp [emit, removeRelationshipTypeIndex, editAdjacency, clearAdjacency, dropRel, sinkDeleted]
    · intro node' side
      have hleft : ∀ {g : InMemoryGraph} {id name event},
          ((g.removeRelationshipTypeIndex id name).emit event).list node' side =
            g.list node' side := rfl
      have hdrop : ∀ {g : InMemoryGraph}, (g.dropRel rel record).list node' side =
          g.list node' side := rfl
      rw [hleft, list_clearAdjacency, hleft]
      simp only [list_remove, hdrop, list_clearAdjacency]
      by_cases hnode : node' = node
      · simp [hnode]
      · simp [hnode]

theorem runSteps_clearAdjacency {ids : List ℕ} :
    (runSteps deleteRelationship (g.clearAdjacency node) ids).1 =
      (runSteps deleteRelationship g ids).1.clearAdjacency node := by
  induction ids generalizing g with
  | nil => rfl
  | cons rel ids ih =>
    rw [runSteps_cons, runSteps_cons, deleteRelationship_clearAdjacency]
    exact ih

/-- Once its relationships are deleted, a node's lists are empty. -/
theorem list_runSteps (h : g.Intact) :
    (runSteps deleteRelationship g (g.incidentRelationshipIds id)).1.list id side = [] := by
  have hintact : (runSteps deleteRelationship g (g.incidentRelationshipIds id)).1.Intact :=
    runSteps_invariant (fun _ _ _ hg => hg.deleteRelationship) h
  have hgone : ∀ rel ∈ g.incidentRelationshipIds id,
      (runSteps deleteRelationship g (g.incidentRelationshipIds id)).1.relAt rel = none := by
    intro rel hrel
    obtain ⟨before, after, hsplit⟩ := append_of_mem hrel
    rw [hsplit, runSteps_append, runSteps_cons]
    refine @runSteps_invariant InMemoryGraph ℕ Bool deleteRelationship
      (fun g => g.relAt rel = none) after (fun g r _ hg => ?_) _ ?_
    · rw [deleteRelationship_eq, deleteRelationshipDeferring_relAt]
      split
      · rfl
      · exact hg
    · rw [deleteRelationship_eq, deleteRelationshipDeferring_relAt, if_pos rfl]
  have hsub : (runSteps deleteRelationship g (g.incidentRelationshipIds id)).1.list id side <+
      g.list id side := by
    refine @runSteps_invariant InMemoryGraph ℕ Bool deleteRelationship
      (fun g' => g'.list id side <+ g.list id side) _ ?_ g (Sublist.refl _)
    intro g' r _ hg'
    rw [deleteRelationship_eq]
    exact deleteRelationshipDeferring_sublist.trans hg'
  refine eq_nil_iff_forall_not_mem.mpr fun e he => ?_
  obtain ⟨record, hrecord⟩ := hintact.stored he
  have hincident : e.rel ∈ g.incidentRelationshipIds id := by
    have hentry : e ∈ g.list id side := hsub.subset he
    rw [incidentRelationshipIds, mem_append]
    cases side with
    | out => exact Or.inl (mem_map_of_mem hentry)
    | into =>
      by_cases hself : e.neighbour = id
      · -- a self-loop is in the other list
        obtain ⟨other, hother, hend, hfar, hname⟩ := (h.entries _ _ _).mp hentry
        have hout : (⟨e.typeId, other.dst, e.rel⟩ : AdjEntry) ∈ g.list id .out :=
          (h.entries _ _ _).mpr ⟨other, hother, hfar.trans hself, rfl, hname⟩
        exact Or.inl (mem_map.mpr ⟨_, hout, rfl⟩)
      · refine Or.inr (mem_map_of_mem (mem_filter.mpr ⟨hentry, ?_⟩))
        simpa using hself
  rw [hgone _ hincident] at hrecord
  cases hrecord

/-- Deleting a node and its relationships keeps the graph intact. -/
theorem Intact.detachAlone (h : g.Intact) : (g.detachAlone id).1.Intact := by
  rw [InMemoryGraph.detachAlone]
  cases hrecord : g.nodeAt id with
  | none => rwa [detachDeleteDeferring_of_none hrecord]
  | some record =>
    rw [detachDeleteDeferring_of_some hrecord, deleteIncident_none, runSteps_clearAdjacency]
    have hlists := fun side => @list_runSteps g id side h
    have hintact : Intact
        (runSteps InMemoryGraph.deleteRelationship g (g.incidentRelationshipIds id)).1 :=
      runSteps_invariant (fun _ _ _ hg => hg.deleteRelationship) h
    have hnodes := @deleteIncident_nodes (g.incidentRelationshipIds id) (g, none)
    rw [deleteIncident_none] at hnodes
    have hrecord' := hrecord
    rw [nodeAt, ← hnodes] at hrecord'
    have hclear : InMemoryGraph.clearAdjacency
        (runSteps InMemoryGraph.deleteRelationship g (g.incidentRelationshipIds id)).1 id =
          (runSteps InMemoryGraph.deleteRelationship g (g.incidentRelationshipIds id)).1 := by
      refine eq_of_lists rfl ?_ ?_
      · simp [clearAdjacency, editAdjacency]
      · intro node' side
        rw [list_clearAdjacency]
        split
        next hnode => rw [hnode, hlists]
        next => rfl
    rw [hclear]
    exact ((hintact.dropNode hrecord' hlists).emit _).emit _

end InMemoryGraph

end LoraDb
