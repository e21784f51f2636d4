import LoraDb.PatternChecks
import LoraDb.GraphIntegrity
import LoraDb.Joins

/-!
# Pattern Operators as Joins

On a graph whose indexes agree with its records, a node scan joins a row with the nodes, and an
expansion joins it with the relationships read in one direction, a triple of a node, a
relationship and a node for each. Read in the opposite direction the triples are the same,
turned around (`triples_flip`): that is all a plan walked backwards changes.

## Main results

* `scanRow_eq_join`, `expandRow_eq_join`: the operators that bind variables are joins.
* `join_edgeTable_flip`: an expansion is the same join from either end.
-/

open Classical

namespace LoraDb

open InMemoryGraph Joins List

variable {ctx : EvalContext} {g : InMemoryGraph} {row : Row} {var : VarId} {id : NodeId}

/-! ### Nodes -/

/-- Every stored node, as a value. -/
def nodeValues (g : InMemoryGraph) : Multiset LoraValue :=
  (g.allNodeIds.map LoraValue.node : List _)

theorem mem_allNodeIds : id ∈ g.allNodeIds ↔ ∃ record, g.nodeAt id = some record := by
  rw [← hasNodeAt_iff, allNodeIds, Slots.slots, mem_filter, hasNodeAt]
  refine and_iff_right_of_imp fun h => ?_
  obtain ⟨a, ha⟩ := Slots.contains_iff.mp h
  exact List.mem_range.mpr (Slots.lt_of_get ha)

theorem nodup_allNodeIds : g.allNodeIds.Nodup := List.nodup_range.filter _

theorem mem_nodeValues :
    LoraValue.node id ∈ nodeValues g ↔ ∃ record, g.nodeAt id = some record := by
  rw [nodeValues, Multiset.mem_coe, mem_map_of_injective fun _ _ h => LoraValue.node.inj h,
    mem_allNodeIds]

theorem nodup_nodeValues : (nodeValues g).Nodup :=
  Multiset.coe_nodup.mpr (nodup_allNodeIds.map fun _ _ h => LoraValue.node.inj h)

/-! ### Candidates of a scan -/

theorem foldl_dedup {ids out : List NodeId} (hout : out.Nodup) :
    (ids.foldl (fun out id => if id ∈ out then out else out ++ [id]) out).Nodup ∧
      ∀ id, id ∈ ids.foldl (fun out id => if id ∈ out then out else out ++ [id]) out ↔
        id ∈ out ∨ id ∈ ids := by
  induction ids generalizing out with
  | nil => simpa using hout
  | cons i ids ih =>
    rw [foldl_cons]
    by_cases hi : i ∈ out
    · rw [if_pos hi]
      refine ⟨(ih hout).1, fun id => ?_⟩
      rw [(ih hout).2, mem_cons]
      constructor
      · rintro (h | h)
        · exact Or.inl h
        · exact Or.inr (Or.inr h)
      · rintro (h | rfl | h)
        · exact Or.inl h
        · exact Or.inl hi
        · exact Or.inr h
    · rw [if_neg hi]
      have hnodup : (out ++ [i]).Nodup := by
        rw [nodup_append]
        refine ⟨hout, nodup_singleton i, ?_⟩
        rintro a ha b hb rfl
        obtain rfl := List.mem_singleton.mp hb
        exact hi ha
      refine ⟨(ih hnodup).1, fun id => ?_⟩
      rw [(ih hnodup).2]
      simp [or_assoc]

theorem InMemoryGraph.Intact.mem_labelGroupCandidateIds (h : g.Intact) {group : List String} :
    id ∈ g.labelGroupCandidateIds group ↔ ∃ record, g.nodeAt id = some record ∧
        group.any (fun label => record.labels.contains label) = true := by
  rw [labelGroupCandidateIds, (foldl_dedup nodup_nil).2]
  simp only [not_mem_nil, false_or, mem_flatMap, nodeIdsByLabel, Finset.mem_sort,
    h.labels, any_eq_true, contains_iff_mem]
  constructor
  · rintro ⟨label, hlabel, record, hrecord, hmem⟩
    exact ⟨record, hrecord, label, hlabel, hmem⟩
  · rintro ⟨record, hrecord, label, hlabel, hmem⟩
    exact ⟨label, hlabel, record, hrecord, hmem⟩

theorem nodup_labelGroupCandidateIds (group : List String) :
    (g.labelGroupCandidateIds group).Nodup := (foldl_dedup nodup_nil).1

/-- The candidates of a scan of several groups are those of one of them. -/
theorem scanNodeIds_mem (group : List String) (groups : List (List String)) :
    ∃ group' ∈ group :: groups, g.scanNodeIdsForLabelGroups (group :: groups) =
      g.labelGroupCandidateIds group' := by
  rw [scanNodeIdsForLabelGroups, map_cons]
  change ∃ group' ∈ group :: groups, ((groups.map g.labelGroupCandidateIds).foldl
      (fun best ids => if ids.length < best.length then ids else best)
      (g.labelGroupCandidateIds group)) = g.labelGroupCandidateIds group'
  induction groups generalizing group with
  | nil => exact ⟨group, by simp, rfl⟩
  | cons next groups ih =>
    rw [map_cons, foldl_cons]
    split
    · obtain ⟨group', hmem, heq⟩ := ih next
      exact ⟨group', mem_cons_of_mem _ hmem, heq⟩
    · obtain ⟨group', hmem, heq⟩ := ih group
      refine ⟨group', ?_, heq⟩
      rcases List.mem_cons.mp hmem with rfl | hmem
      · exact mem_cons_self
      · exact mem_cons_of_mem _ (mem_cons_of_mem _ hmem)

/-- Whether the scan's test of a node's labels holds. -/
def nodeLabelsOk (g : InMemoryGraph) (groups : List (List String)) (id : NodeId) : Bool :=
  match g.nodeAt id with
  | some record => nodeMatchesLabelGroups record.labels groups
  | none => false

theorem nodeLabelsOk_iff {groups : List (List String)} : nodeLabelsOk g groups id = true ↔
    ∃ record, g.nodeAt id = some record ∧ nodeMatchesLabelGroups record.labels groups = true := by
  rw [nodeLabelsOk]
  cases g.nodeAt id <;> simp

/-- What a scan visits is every node that has the labels, once. -/
theorem InMemoryGraph.Intact.scan_perm (h : g.Intact) (groups : List (List String)) :
    (if groups.length ≤ 1 then g.scanNodeIdsForLabelGroups groups
      else (g.scanNodeIdsForLabelGroups groups).filter (nodeLabelsOk g groups)).Perm
        (g.allNodeIds.filter (nodeLabelsOk g groups)) := by
  have hall : ∀ {ids : List NodeId}, ids.Nodup →
      (∀ id, id ∈ ids ↔ ∃ record, g.nodeAt id = some record ∧
        nodeMatchesLabelGroups record.labels groups = true) →
      ids.Perm (g.allNodeIds.filter (nodeLabelsOk g groups)) := by
    intro ids hnodup hmem
    refine (perm_ext_iff_of_nodup hnodup (nodup_allNodeIds.filter _)).mpr fun id => ?_
    rw [hmem, mem_filter, mem_allNodeIds, nodeLabelsOk_iff]
    constructor
    · rintro ⟨record, hrecord, hmatch⟩
      exact ⟨⟨record, hrecord⟩, record, hrecord, hmatch⟩
    · rintro ⟨-, h⟩
      exact h
  match groups with
  | [] =>
    rw [if_pos (by simp)]
    refine hall nodup_allNodeIds fun id => ?_
    change id ∈ g.allNodeIds ↔ _
    rw [mem_allNodeIds]
    simp [nodeMatchesLabelGroups]
  | [group] =>
    rw [if_pos (by simp)]
    refine hall (nodup_labelGroupCandidateIds group) fun id => ?_
    change id ∈ g.labelGroupCandidateIds group ↔ _
    rw [h.mem_labelGroupCandidateIds]
    simp [nodeMatchesLabelGroups]
  | group :: next :: groups =>
    rw [if_neg (by simp)]
    obtain ⟨group', hgroup', heq⟩ := @scanNodeIds_mem g group (next :: groups)
    rw [heq]
    refine hall ((nodup_labelGroupCandidateIds group').filter _) fun id => ?_
    rw [mem_filter, nodeLabelsOk_iff, h.mem_labelGroupCandidateIds]
    constructor
    · rintro ⟨-, hok⟩
      exact hok
    · rintro ⟨record, hrecord, hmatch⟩
      exact ⟨⟨record, hrecord, List.all_eq_true.mp hmatch group' hgroup'⟩, record, hrecord, hmatch⟩

theorem boundNode_cases {bound : Option (Option NodeId)}
    (h : boundNodeIdForExpand row var = .ok bound) :
    (∃ id, row var = some (.node id) ∧ bound = some (some id)) ∨
      (row var = some .null ∧ bound = some none) ∨ row var = none ∧ bound = none := by
  rw [boundNodeIdForExpand] at h
  split at h
  next id hid =>
    obtain rfl := Except.ok.inj h
    exact Or.inl ⟨id, hid, rfl⟩
  next hnull =>
    obtain rfl := Except.ok.inj h
    exact Or.inr (Or.inl ⟨hnull, rfl⟩)
  next => cases h
  next hnone =>
    obtain rfl := Except.ok.inj h
    exact Or.inr (Or.inr ⟨hnone, rfl⟩)

/-- A node scan joins with the nodes and selects by label. -/
theorem scanRow_eq_join (h : ctx.storage.Intact) {labels : LabelGroups} {out : List Row}
    (hok : ctx.scanRow var labels row = .ok out) :
    (out : Multiset Row) = (join (column var (nodeValues ctx.storage)) row).filter
      (LabelsOk ctx.storage var labels.groups) := by
  rw [EvalContext.scanRow] at hok
  cases hbound : boundNodeIdForExpand row var with
  | error err =>
    rw [hbound] at hok
    cases hok
  | ok bound =>
    rw [hbound] at hok
    rcases boundNode_cases hbound with ⟨id, hrow, rfl⟩ | ⟨hrow, rfl⟩ | ⟨hrow, rfl⟩
    · obtain rfl := Except.ok.inj hok
      change ((if nodeLabelsOk ctx.storage labels.groups id = true then [row] else [] : List Row) :
        Multiset Row) = _
      cases hrecord : ctx.storage.nodeAt id with
      | none =>
        have hempty : join (column var (nodeValues ctx.storage)) row = 0 := by
          refine Multiset.eq_zero_iff_forall_notMem.mpr fun u hu => ?_
          obtain ⟨a, ha, hput⟩ := mem_join_column.mp hu
          rw [put_of_some hrow] at hput
          by_cases hid : LoraValue.node id = a
          · subst hid
            obtain ⟨record, hsome⟩ := mem_nodeValues.mp ha
            rw [hrecord] at hsome
            cases hsome
          · rw [if_neg hid] at hput
            cases hput
        rw [hempty]
        simp [nodeLabelsOk, hrecord]
      | some record =>
        rw [join_column_of_bound hrow (mem_nodeValues.mpr ⟨record, hrecord⟩) nodup_nodeValues,
          Multiset.filter_singleton]
        have hlabels : LabelsOk ctx.storage var labels.groups row ↔
            nodeLabelsOk ctx.storage labels.groups id = true := by
          rw [nodeLabelsOk_iff]
          constructor
          · rintro ⟨id', record', hrow', hrecord', hmatch⟩
            rw [hrow] at hrow'
            obtain rfl : id = id' := by simpa using hrow'
            exact ⟨record', hrecord', hmatch⟩
          · rintro ⟨record', hrecord', hmatch⟩
            exact ⟨id, record', hrow, hrecord', hmatch⟩
        by_cases hlabel : nodeLabelsOk ctx.storage labels.groups id = true
        · rw [if_pos hlabel, if_pos (hlabels.mpr hlabel)]
          rfl
        · rw [if_neg hlabel, if_neg fun hok => hlabel (hlabels.mp hok)]
          rfl
    · obtain rfl := Except.ok.inj hok
      refine Eq.symm (Multiset.eq_zero_iff_forall_notMem.mpr fun u hu => ?_)
      obtain ⟨a, ha, hput⟩ := mem_join_column.mp (Multiset.mem_of_mem_filter hu)
      rw [put_of_some hrow] at hput
      obtain ⟨id, -, rfl⟩ := List.mem_map.mp (Multiset.mem_coe.mp ha)
      simp at hput
    · obtain rfl := Except.ok.inj hok
      have hjoin : join (column var (nodeValues ctx.storage)) row =
          ((ctx.storage.allNodeIds.map fun id => row.insert var (.node id) : List Row) :
            Multiset Row) := by
        have hput : ∀ a : LoraValue, putAll [(var, a)] row = some (row.insert var a) := by
          intro a
          change (put var a row).bind some = _
          rw [put_of_none hrow]
          rfl
        rw [join, column, Multiset.bind_map]
        simp only [hput, ofOption_some, Multiset.bind_singleton]
        rw [nodeValues, Multiset.map_coe, map_map]
        rfl
      have hlabels : ∀ id, LabelsOk ctx.storage var labels.groups (row.insert var (.node id)) ↔
          nodeLabelsOk ctx.storage labels.groups id = true := by
        intro id
        rw [nodeLabelsOk_iff]
        constructor
        · rintro ⟨id', record', hrow', hrecord', hmatch⟩
          rw [Row.insert_self] at hrow'
          obtain rfl : id = id' := by simpa using hrow'
          exact ⟨record', hrecord', hmatch⟩
        · rintro ⟨record', hrecord', hmatch⟩
          exact ⟨id, record', Row.insert_self _ _ _, hrecord', hmatch⟩
      rw [hjoin, Multiset.filter_coe, filter_map]
      refine Multiset.coe_eq_coe.mpr (((Intact.scan_perm h labels.groups).map _).trans ?_)
      refine Perm.of_eq (congrArg _ (filter_congr fun id _ => ?_))
      simp [hlabels]

/-! ### Relationships -/

/-- A traversal by type follows relationships of a type. -/
def Follows (g : InMemoryGraph) (types : List String) (relType : String) : Prop :=
  ∃ typeId, g.types.names[typeId]? = some relType ∧
    (TypeFilter.resolve g.types types).accepts typeId = true

/-- A stored relationship from `a` to `b` that a traversal follows. -/
def Edge (g : InMemoryGraph) (types : List String) (a : NodeId) (e : RelationshipId)
    (b : NodeId) : Prop :=
  ∃ record, g.relAt e = some record ∧ record.src = a ∧ record.dst = b ∧
    Follows g types record.relType

/-- What a traversal meets: relationships with the node it comes from and the one it goes to. -/
def directedEdges (g : InMemoryGraph) (types : List String) (direction : Direction) :
    List (NodeId × RelationshipId × NodeId) :=
  g.allNodeIds.flatMap fun a =>
    (g.expandIds a direction types).map fun edge => (a, edge.1, edge.2)

section Edges

variable {types : List String} {direction : Direction} {a b : NodeId} {e : RelationshipId}

theorem InMemoryGraph.Intact.mem_adjacentEntries (h : g.Intact) {side : Side} {skip : Bool} :
    (e, b) ∈ g.adjacentEntries a side (TypeFilter.resolve g.types types) skip ↔
      (∃ record, g.relAt e = some record ∧ record.endpoint side = a ∧ record.farEnd side = b ∧
        Follows g types record.relType) ∧ ¬ (skip = true ∧ b = a) := by
  simp only [adjacentEntries, mem_map, mem_filter, h.entries, Prod.mk.injEq,
    Bool.and_eq_true, Bool.not_eq_true', Bool.and_eq_false_iff, beq_eq_false_iff_ne]
  constructor
  · rintro ⟨entry, ⟨⟨record, hrecord, hnear, hfar, htype⟩, hskip, haccepts⟩, rfl, rfl⟩
    refine ⟨⟨record, hrecord, hnear, hfar, _, htype, haccepts⟩, ?_⟩
    rintro ⟨hs, hb⟩
    rcases hskip with hskip | hskip
    · rw [hs] at hskip
      cases hskip
    · exact hskip hb
  · rintro ⟨⟨record, hrecord, hnear, hfar, typeId, htype, haccepts⟩, hskip⟩
    refine ⟨⟨typeId, b, e⟩, ⟨⟨record, hrecord, hnear, hfar, htype⟩, ?_, haccepts⟩, rfl, rfl⟩
    cases skip with
    | false => exact Or.inl rfl
    | true => exact Or.inr fun hb => hskip ⟨rfl, hb⟩

theorem InMemoryGraph.Intact.nodup_adjacentEntries (h : g.Intact) {side : Side}
    {filter : TypeFilter} {skip : Bool} : (g.adjacentEntries a side filter skip).Nodup := by
  have hrels : ((g.adjacentEntries a side filter skip).map Prod.fst).Nodup := by
    rw [adjacentEntries, map_map]
    exact ((filter_sublist).map _).nodup (h.once a side)
  exact Nodup.of_map _ hrels

/-- Which triples a traversal meets. -/
theorem InMemoryGraph.Intact.mem_directedEdges (h : g.Intact) :
    (a, e, b) ∈ directedEdges g types direction ↔ (direction ≠ .left ∧ Edge g types a e b) ∨
        (direction ≠ .right ∧ Edge g types b e a ∧ ¬ (direction = .undirected ∧ b = a)) := by
  have hmem : (a, e, b) ∈ directedEdges g types direction ↔
      (∃ record, g.nodeAt a = some record) ∧ (e, b) ∈ g.expandIds a direction types := by
    rw [← mem_allNodeIds]
    simp only [directedEdges, mem_flatMap, mem_map, Prod.mk.injEq]
    constructor
    · rintro ⟨a', ha', edge, hedge, rfl, rfl, rfl⟩
      exact ⟨ha', hedge⟩
    · rintro ⟨ha, hedge⟩
      exact ⟨a, ha, (e, b), hedge, rfl, rfl, rfl⟩
  have hstored : ∀ side {record}, g.relAt e = some record → record.endpoint side = a →
      ∃ node, g.nodeAt a = some node := by
    intro side record hrecord hend
    rw [← hend]
    exact h.endpoints _ _ hrecord side
  rw [hmem, expandIds]
  constructor
  · rintro ⟨hnode, hedge⟩
    rw [if_pos (hasNodeAt_iff.mpr hnode)] at hedge
    rcases List.mem_append.mp hedge with hedge | hedge
    · by_cases hleft : direction = .left
      · rw [if_pos hleft] at hedge
        cases hedge
      · rw [if_neg hleft, h.mem_adjacentEntries] at hedge
        exact Or.inl ⟨hleft, hedge.1⟩
    · by_cases hright : direction = .right
      · rw [if_pos hright] at hedge
        cases hedge
      · rw [if_neg hright, h.mem_adjacentEntries] at hedge
        obtain ⟨⟨record, hrecord, hnear, hfar, hfollows⟩, hskip⟩ := hedge
        refine Or.inr ⟨hright, ⟨record, hrecord, hfar, hnear, hfollows⟩, ?_⟩
        rintro ⟨rfl, hb⟩
        exact hskip ⟨rfl, hb⟩
  · rintro (⟨hleft, hedge⟩ | ⟨hright, hedge, hskip⟩)
    · obtain ⟨record, hrecord, hsrc, hdst, hfollows⟩ := hedge
      have hnode := hstored .out hrecord hsrc
      refine ⟨hnode, ?_⟩
      rw [if_pos (hasNodeAt_iff.mpr hnode)]
      refine mem_append_left _ ?_
      rw [if_neg hleft]
      exact h.mem_adjacentEntries.mpr ⟨⟨record, hrecord, hsrc, hdst, hfollows⟩, by simp⟩
    · obtain ⟨record, hrecord, hsrc, hdst, hfollows⟩ := hedge
      have hnode := hstored .into hrecord hdst
      refine ⟨hnode, ?_⟩
      rw [if_pos (hasNodeAt_iff.mpr hnode)]
      refine mem_append_right _ ?_
      rw [if_neg hright]
      refine h.mem_adjacentEntries.mpr ⟨⟨record, hrecord, hdst, hsrc, hfollows⟩, ?_⟩
      rintro ⟨hdir, hb⟩
      exact hskip ⟨by simpa using hdir, hb⟩

theorem InMemoryGraph.Intact.nodup_expandIds (h : g.Intact) :
    (g.expandIds a direction types).Nodup := by
  rw [expandIds]
  split
  · refine List.nodup_append'.mpr ⟨?_, ?_, ?_⟩
    · split
      · exact nodup_nil
      · exact h.nodup_adjacentEntries
    · split
      · exact nodup_nil
      · exact h.nodup_adjacentEntries
    · rintro ⟨e, b⟩ hout hinto
      by_cases hleft : direction = .left
      · rw [if_pos hleft] at hout
        cases hout
      · by_cases hright : direction = .right
        · rw [if_pos hright] at hinto
          cases hinto
        · rw [if_neg hleft, h.mem_adjacentEntries] at hout
          rw [if_neg hright, h.mem_adjacentEntries] at hinto
          obtain ⟨⟨record, hrecord, hnear, hfar, -⟩, -⟩ := hout
          obtain ⟨⟨record', hrecord', hnear', hfar', -⟩, hskip⟩ := hinto
          rw [hrecord] at hrecord'
          obtain rfl := Option.some.inj hrecord'
          refine hskip ⟨?_, ?_⟩
          · cases direction <;> simp_all
          · change record.src = b at hfar'
            change record.src = a at hnear
            exact hfar'.symm.trans hnear
  · exact nodup_nil

theorem InMemoryGraph.Intact.nodup_directedEdges (h : g.Intact) :
    (directedEdges g types direction).Nodup := by
  refine List.nodup_flatMap.mpr ⟨fun a _ => ?_, ?_⟩
  · refine h.nodup_expandIds.map ?_
    rintro ⟨e, b⟩ ⟨e', b'⟩ heq
    simpa using heq
  · refine nodup_allNodeIds.imp ?_
    intro a a' hne t ht ht'
    obtain ⟨_, -, rfl⟩ := List.mem_map.mp ht
    obtain ⟨_, -, heq⟩ := List.mem_map.mp ht'
    exact hne (Prod.mk.inj heq).1.symm

/-- Read from the other end, the triples are the same, turned around. -/
theorem InMemoryGraph.Intact.triples_flip (h : g.Intact) :
    (directedEdges g types (flipDirection direction)).Perm
      ((directedEdges g types direction).map fun t => (t.2.2, t.2.1, t.1)) := by
  have hinj : Function.Injective
      fun t : NodeId × RelationshipId × NodeId => (t.2.2, t.2.1, t.1) := by
    rintro ⟨a, e, b⟩ ⟨a', e', b'⟩ heq
    simp only [Prod.mk.injEq] at heq
    obtain ⟨rfl, rfl, rfl⟩ := heq
    rfl
  refine (perm_ext_iff_of_nodup h.nodup_directedEdges
    (h.nodup_directedEdges.map hinj)).mpr ?_
  rintro ⟨a, e, b⟩
  have hmap : (a, e, b) ∈ (directedEdges g types direction).map (fun t => (t.2.2, t.2.1, t.1)) ↔
      (b, e, a) ∈ directedEdges g types direction :=
    mem_map_of_injective hinj (a := (b, e, a))
  rw [hmap, h.mem_directedEdges, h.mem_directedEdges]
  cases direction with
  | left => simp [flipDirection]
  | right => simp [flipDirection]
  | undirected =>
    by_cases hab : a = b
    · subst hab
      simp [flipDirection]
    · simp [flipDirection, hab, Ne.symm hab, or_comm]

end Edges

/-! ### Expansions -/

/-- What a triple binds. -/
def edgeEntry (src : VarId) (rel : Option VarId) (dst : VarId)
    (t : NodeId × RelationshipId × NodeId) : List (VarId × LoraValue) :=
  (src, .node t.1) :: (dst, .node t.2.2) :: rel.toList.map fun rel => (rel, .relationship t.2.1)

/-- The triples of a traversal whose relationship passes a test, as a table. -/
noncomputable def edgeTable (g : InMemoryGraph) (src : VarId) (rel : Option VarId) (dst : VarId)
    (types : List String) (direction : Direction) (keep : RelationshipId → Prop) :
    Table VarId LoraValue :=
  ((Multiset.ofList (directedEdges g types direction)).filter fun t => keep t.2.1).map
    (edgeEntry src rel dst)

/-- Whether a relationship has the properties an inline map evaluates to in a row. -/
def RelKept (ctx : EvalContext) (relProperties : Option ResolvedExpr) (row : Row)
    (rel : RelationshipId) : Prop :=
  ∀ expr, relProperties = some expr →
    ∃ expected, (expr.eval ctx row).value = .map expected ∧ ctx.relMatches expected rel = true

section Expand

variable {src dst : VarId} {rel : Option VarId} {types : List String} {direction : Direction}
  {keep : RelationshipId → Prop} {a b : NodeId} {e : RelationshipId}

/-- An expansion is the same join from either end. -/
theorem join_edgeTable_flip (h : g.Intact) :
    join (edgeTable g dst rel src types (flipDirection direction) keep) row =
      join (edgeTable g src rel dst types direction keep) row := by
  have hflip : Multiset.ofList (directedEdges g types (flipDirection direction)) =
      (Multiset.ofList (directedEdges g types direction)).map fun t => (t.2.2, t.2.1, t.1) :=
    Multiset.coe_eq_coe.mpr h.triples_flip
  rw [join, join, edgeTable, edgeTable, hflip, Multiset.filter_map, Multiset.map_map,
    Multiset.bind_map, Multiset.bind_map]
  refine Multiset.bind_congr fun t _ => congrArg ofOption ?_
  exact putAll_perm (Perm.swap _ _ _) row

theorem bind_eq_of_unique {α β : Type} {s : Multiset α} {f : α → Multiset β} {x : α}
    (hs : s.Nodup) (hx : x ∈ s) (hzero : ∀ y ∈ s, y ≠ x → f y = 0) : s.bind f = f x := by
  obtain ⟨rest, rfl⟩ := Multiset.exists_cons_of_mem hx
  have hrest : rest.bind f = rest.bind fun _ => 0 := by
    refine Multiset.bind_congr fun y hy => hzero y (Multiset.mem_cons_of_mem hy) ?_
    rintro rfl
    exact (Multiset.nodup_cons.mp hs).1 hy
  rw [Multiset.cons_bind, hrest, Multiset.bind_zero, add_zero]

/-- A row that binds the source joins with the triples from that node. -/
theorem join_edgeTable (hrow : row src = some (.node a)) :
    join (edgeTable g src rel dst types direction keep) row =
      ((Multiset.ofList (g.expandIds a direction types)).filter fun edge => keep edge.1).bind
        fun edge => ofOption (putAll (edgeEntry src rel dst (a, edge.1, edge.2)) row) := by
  have hput : ∀ {t : NodeId × RelationshipId × NodeId}, t.1 ≠ a →
      putAll (edgeEntry src rel dst t) row = none := by
    intro t hne
    change (put src (.node t.1) row).bind _ = none
    rw [put_of_some hrow, if_neg fun heq => hne (LoraValue.node.inj heq).symm]
    rfl
  have hfrom : ∀ a', ((Multiset.ofList ((g.expandIds a' direction types).map
        fun edge => (a', edge.1, edge.2))).filter fun t => keep t.2.1).bind
          (fun t => ofOption (putAll (edgeEntry src rel dst t) row)) =
      ((Multiset.ofList (g.expandIds a' direction types)).filter fun edge => keep edge.1).bind
        fun edge => ofOption (putAll (edgeEntry src rel dst (a', edge.1, edge.2)) row) := by
    intro a'
    rw [← Multiset.map_coe, Multiset.filter_map, Multiset.bind_map]
    rfl
  rw [join, edgeTable, Multiset.bind_map, directedEdges, ← Multiset.coe_bind, Multiset.filter_bind,
    Multiset.bind_assoc]
  by_cases ha : a ∈ g.allNodeIds
  · rw [bind_eq_of_unique (Multiset.coe_nodup.mpr nodup_allNodeIds) (Multiset.mem_coe.mpr ha) ?_,
      hfrom]
    intro a' _ hne
    rw [hfrom]
    rw [Multiset.bind_congr fun edge _ =>
      congrArg ofOption (hput (t := (a', edge.1, edge.2)) hne), ofOption_none, Multiset.bind_zero]
  · have hnone : g.expandIds a direction types = [] := by
      rw [expandIds, if_neg fun hnode => ha (mem_allNodeIds.mpr (hasNodeAt_iff.mp hnode))]
    rw [hnone]
    refine Eq.trans (Multiset.bind_congr fun a' ha' => ?_) (Multiset.bind_zero _)
    have hne : a' ≠ a := by
      rintro rfl
      exact ha (Multiset.mem_coe.mp ha')
    rw [hfrom, Multiset.bind_congr fun edge _ =>
      congrArg ofOption (hput (t := (a', edge.1, edge.2)) hne), ofOption_none, Multiset.bind_zero]

theorem put_node_of_bound {bound : Option (Option NodeId)}
    (h : boundNodeIdForExpand row dst = .ok bound) (b : NodeId) :
    put dst (.node b) row = if fits bound b then some (row.bindNew dst (.node b)) else none := by
  rcases boundNode_cases h with ⟨id, hrow, rfl⟩ | ⟨hrow, rfl⟩ | ⟨hrow, rfl⟩
  · rw [put_of_some hrow]
    by_cases hid : id = b
    · simp [hid, Row.bindNew, hrow, fits]
    · simp [hid, fits]
  · rw [put_of_some hrow]
    simp [fits]
  · rw [put_of_none hrow]
    simp [Row.bindNew, hrow, Row.insert, fits]

theorem put_relationship_of_bound {var : VarId} {bound : Option (Option RelationshipId)}
    (h : boundRelationshipIdForExpand row var = .ok bound) (e : RelationshipId) {row' : Row}
    (hsame : row' var = row var) :
    put var (.relationship e) row' =
      if fits bound e then some (row'.bindNew var (.relationship e)) else none := by
  rw [boundRelationshipIdForExpand] at h
  split at h
  next id hid =>
    obtain rfl := Except.ok.inj h
    rw [put_of_some (hsame.trans hid)]
    by_cases hide : id = e
    · simp [hide, Row.bindNew, hsame.trans hid, fits]
    · simp [hide, fits]
  next hnull =>
    obtain rfl := Except.ok.inj h
    rw [put_of_some (hsame.trans hnull)]
    simp [fits]
  next => cases h
  next hnone =>
    obtain rfl := Except.ok.inj h
    rw [put_of_none (hsame.trans hnone)]
    simp [Row.bindNew, hsame.trans hnone, Row.insert, fits]

theorem bindRelationship_eq {extended : Row} (hsame : ∀ r, rel = some r → extended r = row r)
    {out : List Row} (hok : EvalContext.bindRelationship rel row extended e = .ok out) :
    (out : Multiset Row) = ofOption (putAll
      (rel.toList.map fun rel => (rel, .relationship e)) extended) := by
  cases rel with
  | none =>
    obtain rfl := Except.ok.inj hok
    rfl
  | some r =>
    rw [EvalContext.bindRelationship] at hok
    cases hbound : boundRelationshipIdForExpand row r with
    | error err =>
      rw [hbound] at hok
      cases hok
    | ok bound =>
      rw [hbound] at hok
      obtain rfl := Except.ok.inj hok
      change _ = ofOption ((put r (.relationship e) extended).bind some)
      rw [Option.bind_fun_some, put_relationship_of_bound hbound e (hsame r rfl)]
      cases fits bound e with
      | true => rfl
      | false => rfl

/-- One relationship extends a row to at most one. -/
theorem expandEdge_eq (hne : ∀ r, rel = some r → r ≠ dst) {out : List Row}
    (hok : EvalContext.expandEdge rel dst row e b = .ok out) :
    (out : Multiset Row) = ofOption (putAll
      ((dst, .node b) :: rel.toList.map fun rel => (rel, .relationship e)) row) := by
  rw [EvalContext.expandEdge] at hok
  cases hbound : boundNodeIdForExpand row dst with
  | error err =>
    rw [hbound] at hok
    cases hok
  | ok bound =>
    rw [hbound] at hok
    change (if fits bound b = true then _ else _) = _ at hok
    change _ = ofOption ((put dst (.node b) row).bind _)
    rw [put_node_of_bound hbound b]
    by_cases hfits : fits bound b = true
    · rw [if_pos hfits] at hok
      rw [if_pos hfits]
      refine bindRelationship_eq (fun r hr => ?_) hok
      rw [Row.bindNew]
      split
      · rfl
      · exact Row.insert_of_ne _ _ (hne r hr)
    · rw [if_neg hfits] at hok
      obtain rfl := Except.ok.inj hok
      rw [if_neg hfits]
      rfl

/-- An expansion joins with the triples whose relationship has the properties asked for. -/
theorem expandRow_eq_join {relProperties : Option ResolvedExpr} (hrow : row src = some (.node a))
    (hne : ∀ r, rel = some r → r ≠ dst) {out : List Row}
    (hok : ctx.expandRow src rel dst types direction relProperties row = .ok out) :
    (out : Multiset Row) = join (edgeTable ctx.storage src rel dst types direction
      (RelKept ctx relProperties row)) row := by
  have hbound : boundNodeIdForExpand row src = .ok (some (some a)) := by
    rw [boundNodeIdForExpand, hrow]
  rw [EvalContext.expandRow, hbound] at hok
  rw [join_edgeTable hrow]
  have hentry : ∀ edge : RelationshipId × NodeId,
      putAll (edgeEntry src rel dst (a, edge.1, edge.2)) row =
        putAll ((dst, .node edge.2) :: rel.toList.map fun rel => (rel, .relationship edge.1))
          row := by
    intro edge
    change (put src (.node a) row).bind _ = _
    rw [put_of_some hrow, if_pos rfl]
    rfl
  have hall : ∀ {kept : List (RelationshipId × NodeId)} {outs : List (List Row)},
      Forall₂ (fun edge out => EvalContext.expandEdge rel dst row edge.1 edge.2 = .ok out)
        kept outs →
      (outs.flatten : Multiset Row) = (Multiset.ofList kept).bind fun edge =>
        ofOption (putAll (edgeEntry src rel dst (a, edge.1, edge.2)) row) := by
    intro kept outs h
    induction h with
    | nil => rfl
    | cons h _ ih =>
      rw [flatten_cons, ← Multiset.coe_add, ih, expandEdge_eq hne h, ← Multiset.cons_coe,
        Multiset.cons_bind, hentry]
  cases hedges : (ctx.storage.expandIds a direction types).isEmpty with
  | true =>
    simp only [bind, Except.bind, hedges, if_true] at hok
    obtain rfl := Except.ok.inj hok
    rw [List.isEmpty_iff.mp hedges]
    rfl
  | false =>
    cases hprops : ctx.relPropertyFilter relProperties row with
    | error err =>
      simp only [bind, Except.bind, hedges, hprops] at hok
      cases hok
    | ok expected =>
      have hkept : ∀ e, RelKept ctx relProperties row e ↔ ctx.relKept expected e = true := by
        intro e
        cases relProperties with
        | none =>
          obtain rfl := Except.ok.inj hprops
          simp [RelKept, EvalContext.relKept]
        | some expr =>
          rw [EvalContext.relPropertyFilter] at hprops
          split at hprops
          next m hm =>
            obtain rfl := Except.ok.inj hprops
            simp [RelKept, EvalContext.relKept, hm]
          next => cases hprops
      simp only [bind, Except.bind, hedges, hprops] at hok
      cases houts : ((ctx.storage.expandIds a direction types).filter
          fun edge => ctx.relKept expected edge.1).mapM
            fun edge => EvalContext.expandEdge rel dst row edge.1 edge.2 with
      | error err =>
        rw [houts] at hok
        cases hok
      | ok outs =>
        rw [houts] at hok
        obtain rfl := Except.ok.inj hok
        rw [hall (EvalContext.mapM_ok.mp houts), Multiset.filter_coe]
        refine congrArg (fun kept => Multiset.bind (Multiset.ofList kept) _)
          (filter_congr fun edge _ => ?_)
        simp [hkept]

end Expand

end LoraDb
