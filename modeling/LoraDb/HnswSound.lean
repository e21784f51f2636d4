import LoraDb.HnswLinks

/-!
# Soundness of the Vector Graph Index

The invariant of the index over whole runs, and what a query gives on any index.

Links are pruned on one side only, so a node may be named by one that it does not name. When
such a node is removed, the walk over its own lists misses that link: `Mutual` is the condition
that there is none. A query starts at the entry point, and finds nothing when that vector
does not score, whatever the others do.

## Main results

* `Sound.remove`, `Sound.insert`: the invariant, from one operation to the next.
* `query_sound`, `query_nil`: what a query returns, and when it returns nothing.
* `run_sound`: over a run whose steps all meet the condition.
-/

open GreedySearch SortedMap

namespace LoraDb

open List

namespace HnswNodes

variable {V : Type}

theorem mem_get? {κ α : Type} [LinearOrder κ] {es : List (κ × α)} (h : Sorted es)
    {e : κ × α} (he : e ∈ es) : get? e.1 es = some e.2 := by
  induction es with
  | nil => cases he
  | cons head es ih =>
    obtain ⟨hhead, htail⟩ := sorted_cons.mp h
    rcases List.mem_cons.mp he with rfl | he
    · simp [get?]
    · rw [get?, if_neg (ne_of_gt (hhead e he))]
      exact ih htail he

/-- The highest node is one of them, and none is higher. -/
theorem highest_spec (nodes : HnswNodes V) : (highest nodes = none ↔ nodes = []) ∧
      ∀ top, highest nodes = some top → top ∈ nodes ∧ ∀ e ∈ nodes, e.2.level ≤ top.2.level := by
  have hfold : ∀ step : Option (ℕ × HnswNode V) → ℕ × HnswNode V → Option (ℕ × HnswNode V),
      (∀ b e, step (some b) e = if b.2.level ≤ e.2.level then some e else some b) →
      ∀ (rest : HnswNodes V) (best : ℕ × HnswNode V),
        ∃ top, rest.foldl step (some best) = some top ∧ (top = best ∨ top ∈ rest) ∧
          best.2.level ≤ top.2.level ∧ ∀ e ∈ rest, e.2.level ≤ top.2.level := by
    intro step hstep rest
    induction rest with
    | nil => exact fun best => ⟨best, rfl, .inl rfl, le_rfl, by simp⟩
    | cons entry rest ih =>
      intro best
      rw [foldl_cons, hstep]
      by_cases hle : best.2.level ≤ entry.2.level
      · obtain ⟨top, htop, hmem, hentry, hrest⟩ := ih entry
        simp only [if_pos hle]
        refine ⟨top, htop, .inr ?_, hle.trans hentry, ?_⟩
        · rcases hmem with rfl | hmem
          · exact mem_cons_self
          · exact mem_cons_of_mem _ hmem
        · exact List.forall_mem_cons.mpr ⟨hentry, hrest⟩
      · obtain ⟨top, htop, hmem, hbest, hrest⟩ := ih best
        simp only [if_neg hle]
        refine ⟨top, htop, hmem.imp_right (mem_cons_of_mem _), hbest, ?_⟩
        exact List.forall_mem_cons.mpr ⟨(Nat.not_le.mp hle).le.trans hbest, hrest⟩
  cases nodes with
  | nil => exact ⟨by simp [highest], by simp [highest]⟩
  | cons entry nodes =>
    obtain ⟨top, hhighest, hmem, hbest, hrest⟩ : ∃ top, highest (entry :: nodes) = some top ∧
        (top = entry ∨ top ∈ nodes) ∧ entry.2.level ≤ top.2.level ∧
          ∀ e ∈ nodes, e.2.level ≤ top.2.level := hfold _ (fun _ _ => rfl) nodes entry
    refine ⟨by simp [hhighest], fun top' htop' => ?_⟩
    obtain rfl := Option.some.inj (hhighest.symm.trans htop')
    refine ⟨?_, List.forall_mem_cons.mpr ⟨hbest, hrest⟩⟩
    rcases hmem with rfl | hmem
    · exact mem_cons_self
    · exact mem_cons_of_mem _ hmem

end HnswNodes

namespace HnswBackend

variable {V G S : Type}

/-- The invariant: the graph is linked, and the entry point is a stored node of the highest
level, unless nothing is stored. -/
structure Sound (b : HnswBackend V G) : Prop where
  linked : HnswNodes.Linked (fun _ => False) b.mMax b.nodes
  entry : ∀ e, b.entryPoint = some e → ∃ node, get? e b.nodes = some node ∧ node.level = b.maxLevel
  empty : b.entryPoint = none ↔ b.nodes = []
  level : ∀ id node, get? id b.nodes = some node → node.level ≤ b.maxLevel

/-- Every node that names `id` is one that `id` names, in the same layer. -/
def Mutual (b : HnswBackend V G) (id : ℕ) : Prop :=
  ∀ layer y, id ∈ b.nodes.linksAt layer y → y ∈ b.nodes.linksAt layer id

theorem sound_new (params : HnswParams) (rngState : G) :
    Sound (new params rngState : HnswBackend V G) :=
  ⟨⟨sorted_nil, by simp [new], fun _ _ => HnswNodes.LinksOk.nil⟩, by simp [new],
    by simp [new], by simp [new]⟩

/-- What is left of a mutually linked node is a linked graph, of the other nodes. -/
theorem Sound.stripped {b : HnswBackend V G} (h : b.Sound) {id : ℕ} (hmutual : b.Mutual id)
    {node : HnswNode V} (hnode : get? id b.nodes = some node) :
    HnswNodes.Linked (fun _ => False) b.mMax (HnswNodes.strip id (SortedMap.erase id b.nodes)
      (HnswNodes.pairsOf node.neighbors)) := by
  refine ((h.linked.erase id).strip id _).fresh fun y layer x hx hid => ?_
  subst hid
  have hpair : (layer, y) ∈ HnswNodes.pairsOf node.neighbors ↔ y ∈ b.nodes.linksAt layer x := by
    rw [HnswNodes.mem_pairsOf, HnswNodes.linksAt_eq hnode]
  rw [HnswNodes.strip_linksAt] at hx
  split at hx
  · simp at hx
  · next hnot =>
      rw [HnswNodes.erase_linksAt h.linked.sorted] at hx
      split at hx
      · cases hx
      · exact hnot (hpair.mpr (hmutual layer y hx))

theorem shape_get? {nodes nodes' : HnswNodes V} (hshape : nodes'.shape = nodes.shape) {id : ℕ}
    {node : HnswNode V} (h : get? id nodes = some node) :
    ∃ node', get? id nodes' = some node' ∧ node'.vector = node.vector ∧
      node'.level = node.level := by
  have heq := congrFun hshape id
  rw [HnswNodes.shape, HnswNodes.shape, h] at heq
  obtain ⟨node', hnode', hpair⟩ := Option.map_eq_some_iff.mp heq
  obtain ⟨hvector, hlevel⟩ := Prod.mk.inj hpair
  exact ⟨node', hnode', hvector, hlevel⟩

/-- Removal keeps the invariant when the removed node's links are mutual. -/
theorem Sound.remove {b : HnswBackend V G} (h : b.Sound) {id : ℕ} (hmutual : b.Mutual id) :
    (b.remove id).Sound ∧ get? id (b.remove id).nodes = none := by
  unfold HnswBackend.remove
  cases hnode : get? id b.nodes with
  | none => exact ⟨h, hnode⟩
  | some node =>
    simp only [HnswNodes.foldl_eq_strip]
    have hlinked := h.stripped hmutual hnode
    have hshape := HnswNodes.strip_shape id (SortedMap.erase id b.nodes)
      (HnswNodes.pairsOf node.neighbors)
    generalize hstrip : HnswNodes.strip id (SortedMap.erase id b.nodes)
      (HnswNodes.pairsOf node.neighbors) = nodes at hlinked hshape
    -- what is stored now was stored before, under another id
    have hold : ∀ x n, get? x nodes = some n → x ≠ id ∧
        ∃ n', get? x b.nodes = some n' ∧ n'.level = n.level := by
      intro x n hn
      obtain ⟨n', hn', -, hlevel⟩ := shape_get? hshape.symm hn
      rw [h.linked.sorted.get?_erase] at hn'
      split at hn'
      · cases hn'
      · next hne => exact ⟨hne, n', hn', hlevel⟩
    have hgone : get? id nodes = none := by
      cases hid : get? id nodes with
      | none => rfl
      | some n => exact absurd rfl (hold id n hid).1
    split_ifs with hentry
    · obtain ⟨hnone, htop⟩ := HnswNodes.highest_spec nodes
      cases hhighest : HnswNodes.highest nodes with
      | none =>
        obtain rfl := hnone.mp hhighest
        exact ⟨⟨hlinked, by simp, by simp, by simp⟩, rfl⟩
      | some top =>
        obtain ⟨newId, new⟩ := top
        obtain ⟨hmem, hmax⟩ := htop _ hhighest
        refine ⟨⟨hlinked, fun e he => ?_, ?_, fun x n hn => ?_⟩, hgone⟩
        · obtain rfl := Option.some.inj he
          exact ⟨new, HnswNodes.mem_get? hlinked.sorted hmem, rfl⟩
        · simp only [reduceCtorEq, false_iff]
          rintro rfl
          cases hmem
        · exact hmax _ (get?_mem hn)
    · refine ⟨⟨hlinked, fun e he => ?_, ?_, fun x n hn => ?_⟩, hgone⟩
      · obtain ⟨n, hn, hlevel⟩ := h.entry e he
        have hne : e ≠ id := by
          rintro rfl
          exact hentry he
        have herased : get? e (SortedMap.erase id b.nodes) = some n := by
          rw [h.linked.sorted.get?_erase, if_neg hne, hn]
        obtain ⟨n', hn', -, hlevel'⟩ := shape_get? hshape herased
        exact ⟨n', hn', hlevel'.trans hlevel⟩
      · constructor
        · intro hnone
          rw [h.empty.mp hnone] at hnode
          cases hnode
        · intro hnil
          cases he : b.entryPoint with
          | none => exact he
          | some e =>
            obtain ⟨n, hn, -⟩ := h.entry e he
            have hne : e ≠ id := by
              rintro rfl
              exact hentry he
            have herased : get? e (SortedMap.erase id b.nodes) = some n := by
              rw [h.linked.sorted.get?_erase, if_neg hne, hn]
            obtain ⟨n', hn', -⟩ := shape_get? hshape herased
            have hnil' : nodes = [] := hnil
            rw [hnil'] at hn'
            cases hn'
      · obtain ⟨-, n', hn', hlevel⟩ := hold x n hn
        exact hlevel ▸ h.level x n' hn'

/-! ### Insertion -/

/-- Another node of the layer. -/
def Peer (nodes : HnswNodes V) (id layer x : ℕ) : Prop := x ≠ id ∧ nodes.Stored layer x

/-- No list of the layer names `id`. -/
def Unnamed (nodes : HnswNodes V) (id layer : ℕ) : Prop := ∀ y, id ∉ nodes.linksAt layer y

section Search

variable [LinearOrder S] {score : V → V → Option S} {nodes : HnswNodes V} {degree : ℕ → ℕ}
  {id layer : ℕ}

/-- From a peer, a layer's search finds peers, each with its own distance. -/
theorem greedySearchLayerAgainst_mem (h : HnswNodes.Linked (fun _ => False) degree nodes)
    (hid : Unnamed nodes id layer) {query : V} {entry ef : ℕ} (hentry : Peer nodes id layer entry)
    {c : Candidate Sᵒᵈ}
    (hc : c ∈ greedySearchLayerAgainst score nodes query entry layer ef) :
    Peer nodes id layer c.id := by
  refine (search_mem (P := Peer nodes id layer) hentry (fun y x hx => ⟨?_, ?_⟩) hc).2
  · rintro rfl
    exact hid y hx
  · exact ((h.links y layer).linked x hx).resolve_left not_false |>.2

/-- The search of a layer ends by itself: more steps than stored nodes change nothing. -/
theorem greedySearchLayerAgainst_fuel (nodes : HnswNodes V) (query : V) (entry ef : ℕ) {fuel : ℕ}
    (h : nodes.length + 1 ≤ fuel) :
    search (dist score nodes query) (nodes.linksAt layer) ef fuel entry =
      greedySearchLayerAgainst score nodes query entry layer ef := by
  have hstored : ∀ x, dist score nodes query x ≠ none → x ∈ nodes.map Prod.fst := by
    intro x hx
    cases hnode : get? x nodes with
    | none => simp [dist, hnode] at hx
    | some node => exact mem_map_of_mem (get?_mem hnode)
  have hlen : (nodes.map Prod.fst).length = nodes.length := length_map _
  refine (search_fuel hstored (hlen ▸ h)).trans ?_
  rw [hlen, greedySearchLayerAgainst]

variable {candidates : List (Candidate Sᵒᵈ)}

theorem mem_selectClosest {m : ℕ} {c : Candidate Sᵒᵈ}
    (h : c ∈ selectClosest candidates m) : c ∈ candidates :=
  (mem_insertionSort (· ≤ ·)).mp (mem_of_mem_take h)

theorem selectClosest_nodup (m : ℕ) (h : (candidates.map Candidate.id).Nodup) :
    ((selectClosest candidates m).map Candidate.id).Nodup := by
  have hsorted : ((candidates.insertionSort (· ≤ ·)).map Candidate.id).Nodup :=
    ((perm_insertionSort (· ≤ ·) candidates).map Candidate.id).nodup_iff.mpr h
  exact hsorted.sublist ((take_sublist _ _).map _)

theorem selectClosest_length (candidates : List (Candidate Sᵒᵈ)) (m : ℕ) :
    ((selectClosest candidates m).map Candidate.id).length ≤ m := by
  rw [length_map, selectClosest, length_take]
  exact Nat.min_le_left _ _

variable (score) in
/-- A back link to a stored peer is as a link may be. -/
theorem addBackLink_linked (h : HnswNodes.Linked (fun _ => False) degree nodes) {target : ℕ}
    (hid : nodes.Stored layer id) (hne : id ≠ target) :
    HnswNodes.Linked (fun _ => False) degree
      (addBackLink score target layer id (degree layer) nodes) := by
  unfold addBackLink
  split
  · exact h
  next node hnode =>
    split
    · exact h
    · refine h.setLinks ⟨selectClosest_nodup _ ?_, selectClosest_length _ _, ?_⟩
      · -- the ids of the candidates are those of the old list without `id`, and then `id`
        have hids : ∀ xs : List ℕ, (xs.filterMap fun x =>
            (dist score nodes node.vector x).map fun d => Candidate.mk d x).map Candidate.id =
              xs.filter fun x => (dist score nodes node.vector x).isSome := by
          intro xs
          induction xs with
          | nil => rfl
          | cons x xs ih =>
            cases hd : dist score nodes node.vector x with
            | none => simp [hd, ih]
            | some d => simp [hd, ih]
        rw [map_append, hids]
        have hold : (((nodes.linksAt layer target).filter (· ≠ id)).filter
            fun x => (dist score nodes node.vector x).isSome).Nodup :=
          ((h.links target layer).nodup.sublist filter_sublist).sublist filter_sublist
        refine hold.append ?_ ?_
        · cases hd : dist score nodes node.vector id <;> simp [hd]
        · intro x hx hlast
          have hxid : x = id := by
            cases hd : dist score nodes node.vector id with
            | none => simp [hd] at hlast
            | some d => simpa [hd] using hlast
          subst hxid
          simp at hx
      · intro x hx
        obtain ⟨c, hc, rfl⟩ := List.mem_map.mp hx
        rcases List.mem_append.mp (mem_selectClosest hc) with hc | hc
        · obtain ⟨y, hy, hcand⟩ := List.mem_filterMap.mp hc
          obtain ⟨d, -, rfl⟩ := Option.map_eq_some_iff.mp hcand
          exact (h.links target layer).linked y (mem_of_mem_filter hy)
        · obtain ⟨d, -, rfl⟩ := Option.map_eq_some_iff.mp (Option.mem_toList.mp hc)
          exact .inr ⟨hne, hid⟩

variable (score) in
theorem addBackLink_shape (target source mMax : ℕ) :
    (addBackLink score target layer source mMax nodes).shape = nodes.shape := by
  unfold addBackLink
  split
  · rfl
  split
  · rfl
  · exact HnswNodes.setLinks_shape _ _ _ _

variable (score) in
/-- Only the lists of one layer change. -/
theorem addBackLink_linksAt (target source mMax : ℕ) {layer' : ℕ} (hne : layer' ≠ layer)
    (y : ℕ) : (addBackLink score target layer source mMax nodes).linksAt layer' y =
      nodes.linksAt layer' y := by
  unfold addBackLink
  split
  · rfl
  split
  · rfl
  · rcases HnswNodes.setLinks_linksAt target layer _ nodes layer' y with heq | ⟨-, heq, -⟩
    · exact heq
    · exact absurd heq hne

variable (score) in
/-- Back links from a list of peers. -/
theorem backLinks_linked {selected : List (Candidate Sᵒᵈ)}
    (h : HnswNodes.Linked (fun _ => False) degree nodes) (hid : nodes.Stored layer id)
    (hsel : ∀ c ∈ selected, c.id ≠ id) :
    let linked := selected.foldl (fun nodes c =>
      addBackLink score c.id layer id (degree layer) nodes) nodes
    HnswNodes.Linked (fun _ => False) degree linked ∧ linked.shape = nodes.shape ∧
      ∀ layer', layer' ≠ layer → ∀ y, linked.linksAt layer' y = nodes.linksAt layer' y := by
  induction selected generalizing nodes with
  | nil => exact ⟨h, rfl, fun _ _ _ => rfl⟩
  | cons c selected ih =>
    obtain ⟨hc, hrest⟩ := List.forall_mem_cons.mp hsel
    have hlinked := addBackLink_linked score h hid hc.symm
    have hshape : (addBackLink score c.id layer id (degree layer) nodes).shape = nodes.shape :=
      addBackLink_shape score c.id id (degree layer)
    obtain ⟨hall, hshapes, hothers⟩ := ih hlinked (hid.of_shape hshape) hrest
    refine ⟨hall, hshapes.trans hshape, fun layer' hne y => ?_⟩
    exact (hothers layer' hne y).trans (addBackLink_linksAt score c.id id (degree layer) hne y)

theorem Peer.mono {layer' x : ℕ} (h : Peer nodes id layer x) (hle : layer' ≤ layer) :
    Peer nodes id layer' x := ⟨h.1, h.2.mono hle⟩

theorem Peer.of_shape {nodes' : HnswNodes V} {x : ℕ} (h : Peer nodes id layer x)
    (hshape : nodes'.shape = nodes.shape) : Peer nodes' id layer x :=
  ⟨h.1, h.2.of_shape hshape⟩

omit [LinearOrder S] in
theorem head?_mem {P : ℕ → Prop} {nearest : ℕ}
    (h : ∀ c ∈ candidates, P c.id) (hnearest : P nearest) :
    P ((candidates.head?.map Candidate.id).getD nearest) := by
  cases candidates with
  | nil => exact hnearest
  | cons c candidates => exact h c mem_cons_self

/-- The walk down ends at a peer of the layer it stops above. -/
theorem zoom_peer (h : HnswNodes.Linked (fun _ => False) degree nodes)
    (hid : ∀ layer, Unnamed nodes id layer) {query : V} {level nearest : ℕ}
    (hnearest : Peer nodes id layer nearest) :
    Peer nodes id (min level layer) (zoom score nodes query level layer nearest) := by
  induction layer generalizing nearest with
  | zero => simpa [zoom] using hnearest
  | succ layer ih =>
    rw [zoom]
    split
    · exact hnearest.mono (Nat.min_le_right _ _)
    · next hlevel =>
        have hsearch : ∀ c ∈ greedySearchLayerAgainst score nodes query nearest (layer + 1) 1,
            Peer nodes id (layer + 1) c.id :=
          fun c hc => greedySearchLayerAgainst_mem h (hid (layer + 1)) hnearest hc
        have hnext := (head?_mem hsearch hnearest).mono (Nat.le_succ layer)
        have hmin : min level (layer + 1) = min level layer := by omega
        rw [hmin]
        exact ih hnext

variable {b : HnswBackend V G}

variable (score) in
/-- One layer of linking: the graph stays linked, lower layers stay as they are, and the
next search starts at a peer. -/
theorem linkLayer_linked (h : HnswNodes.Linked (fun _ => False) b.mMax b.nodes)
    (hid : b.nodes.Stored layer id) (hfresh : Unnamed b.nodes id layer) {nearest : ℕ}
    (hnearest : Peer b.nodes id layer nearest) :
    HnswNodes.Linked (fun _ => False) b.mMax (linkLayer score id b nearest layer).1 ∧
      (linkLayer score id b nearest layer).1.shape = b.nodes.shape ∧
      (∀ layer', layer' ≠ layer → ∀ y,
        (linkLayer score id b nearest layer).1.linksAt layer' y = b.nodes.linksAt layer' y) ∧
      Peer b.nodes id layer (linkLayer score id b nearest layer).2 := by
  have hcandidates : ∀ c ∈ greedySearchLayer score b.nodes id nearest layer
      b.params.efConstruction, Peer b.nodes id layer c.id := by
    intro c hc
    unfold greedySearchLayer at hc
    split at hc
    · cases hc
    · exact greedySearchLayerAgainst_mem h hfresh hnearest hc
  have hnodup : ((greedySearchLayer score b.nodes id nearest layer
      b.params.efConstruction).map Candidate.id).Nodup := by
    unfold greedySearchLayer
    split
    · exact nodup_nil
    · exact search_nodup _ _
  unfold linkLayer
  generalize greedySearchLayer score b.nodes id nearest layer b.params.efConstruction =
    candidates at hcandidates hnodup
  have hselected : ∀ c ∈ selectClosest candidates b.params.m, Peer b.nodes id layer c.id :=
    fun c hc => hcandidates c (mem_selectClosest hc)
  have hdegree : b.params.m ≤ b.mMax layer := by
    unfold mMax
    split <;> omega
  have hforward : HnswNodes.Linked (fun _ => False) b.mMax (b.nodes.setLinks id layer
      ((selectClosest candidates b.params.m).map Candidate.id)) := by
    refine h.setLinks ⟨selectClosest_nodup _ hnodup, (selectClosest_length _ _).trans hdegree,
      fun x hx => ?_⟩
    obtain ⟨c, hc, rfl⟩ := List.mem_map.mp hx
    exact .inr (hselected c hc)
  have hshape := HnswNodes.setLinks_shape id layer
    ((selectClosest candidates b.params.m).map Candidate.id) b.nodes
  obtain ⟨hlinked, hshapes, hothers⟩ := backLinks_linked score hforward
    (hid.of_shape hshape) fun c hc => (hselected c hc).1
  refine ⟨hlinked, hshapes.trans hshape, fun layer' hne y => ?_, head?_mem hselected hnearest⟩
  refine (hothers layer' hne y).trans ?_
  rcases HnswNodes.setLinks_linksAt id layer _ b.nodes layer' y with heq | ⟨-, heq, -⟩
  · exact heq
  · exact absurd heq hne

variable (score) in
/-- Linking in the layers below `layer` keeps everything but lists. -/
theorem linkDown_linked (h : HnswNodes.Linked (fun _ => False) b.mMax b.nodes)
    (hid : ∀ l < layer, b.nodes.Stored l id) (hfresh : ∀ l < layer, Unnamed b.nodes id l)
    {nearest : ℕ} (hnearest : ∀ l < layer, Peer b.nodes id l nearest) :
    HnswNodes.Linked (fun _ => False) b.mMax (linkDown score id layer b nearest).nodes ∧
      (linkDown score id layer b nearest).nodes.shape = b.nodes.shape ∧
      linkDown score id layer b nearest =
        b.withNodes (linkDown score id layer b nearest).nodes := by
  induction layer generalizing b nearest with
  | zero => exact ⟨h, rfl, rfl⟩
  | succ layer ih =>
    obtain ⟨hlinked, hshape, hothers, hnext⟩ := linkLayer_linked score h
      (hid layer (Nat.lt_succ_self _)) (hfresh layer (Nat.lt_succ_self _))
      (hnearest layer (Nat.lt_succ_self _))
    rw [linkDown]
    simp only
    generalize linkLayer score id b nearest layer = step at hlinked hshape hothers hnext
    have hlinked' : HnswNodes.Linked (fun _ => False) (b.withNodes step.1).mMax
        (b.withNodes step.1).nodes := hlinked
    obtain ⟨hall, hshapes, hsame⟩ := ih hlinked'
      (fun l hl => (hid l (Nat.lt_succ_of_lt hl)).of_shape hshape)
      (fun l hl y => by
        show id ∉ step.1.linksAt l y
        rw [hothers l (Nat.ne_of_lt hl) y]
        exact hfresh l (Nat.lt_succ_of_lt hl) y)
      (fun l hl => (hnext.mono (Nat.le_of_lt hl)).of_shape hshape)
    exact ⟨hall, hshapes.trans hshape, hsame⟩

variable {quantize : V → Option V} {sampleLevel : G → ℕ × G}

/-- Storing a vector under an id that is not stored. -/
def insertNew (score : V → V → Option S) (sampleLevel : G → ℕ × G) (b : HnswBackend V G)
    (id : ℕ) (vector : V) : HnswBackend V G :=
  let (level, rngState) := sampleLevel b.rngState
  let node : HnswNode V := ⟨vector, level, replicate (level + 1) []⟩
  let b := { b with nodes := put id node b.nodes, rngState }
  match b.entryPoint with
  | none => { b with entryPoint := some id, maxLevel := level }
  | some entry =>
    let nearest := zoom score b.nodes vector level b.maxLevel entry
    let linked := linkDown score id (min level b.maxLevel + 1) b nearest
    if b.maxLevel < level then
      { linked with maxLevel := level, entryPoint := some id }
    else linked

theorem insert_eq (id : ℕ) (vector : V) : b.insert score quantize sampleLevel id vector =
      match quantize vector with
      | none => if (get? id b.nodes).isSome then b.remove id else b
      | some vector => insertNew score sampleLevel
        (if (get? id b.nodes).isSome then b.remove id else b) id vector := by
  unfold insert
  cases quantize vector <;> rfl

theorem put_ne_nil {κ α : Type} [LinearOrder κ] (k : κ) (v : α) (es : List (κ × α)) :
    put k v es ≠ [] := by
  intro h
  have hget := get?_put k k v es
  rw [h, if_pos rfl] at hget
  cases hget

/-- Storing under a new id keeps the invariant. -/
theorem Sound.insertNew (h : b.Sound) (hnew : get? id b.nodes = none) (vector : V) :
    (insertNew score sampleLevel b id vector).Sound := by
  unfold HnswBackend.insertNew
  obtain ⟨level, rngState⟩ := sampleLevel b.rngState
  simp only
  have hlinked := h.linked.put hnew vector level
  have hself : get? id (put id
      (⟨vector, level, replicate (level + 1) []⟩ : HnswNode V) b.nodes) =
        some ⟨vector, level, replicate (level + 1) []⟩ := by
    rw [get?_put, if_pos rfl]
  have hother : ∀ x ≠ id, get? x (put id
      (⟨vector, level, replicate (level + 1) []⟩ : HnswNode V) b.nodes) =
        get? x b.nodes := fun x hx => by rw [get?_put, if_neg hx]
  have hfresh : ∀ layer, Unnamed (put id
      (⟨vector, level, replicate (level + 1) []⟩ : HnswNode V) b.nodes) id layer := by
    intro layer y hy
    rw [HnswNodes.put_linksAt] at hy
    split at hy
    · rw [getElem?_replicate] at hy
      split at hy <;> cases hy
    · obtain ⟨-, n, hn, -⟩ := ((h.linked.links y layer).linked id hy).resolve_left not_false
      rw [hnew] at hn
      cases hn
  have hne : put id
      (⟨vector, level, replicate (level + 1) []⟩ : HnswNode V) b.nodes ≠ [] :=
    put_ne_nil _ _ _
  generalize put id
    (⟨vector, level, replicate (level + 1) []⟩ : HnswNode V) b.nodes = nodes at *
  cases hentry : b.entryPoint with
  | none =>
    refine ⟨hlinked, fun e he => ?_, by simp [hne], fun x n hn => ?_⟩
    · obtain rfl := Option.some.inj he
      exact ⟨_, hself, rfl⟩
    · by_cases hx : x = id
      · subst hx
        rw [hself] at hn
        obtain rfl := Option.some.inj hn
        exact le_rfl
      · have hn' : get? x nodes = some n := hn
        rw [hother x hx, h.empty.mp hentry] at hn'
        cases hn'
  | some entry =>
    obtain ⟨old, hold, hmax⟩ := h.entry entry hentry
    have hentryNe : entry ≠ id := by
      rintro rfl
      rw [hnew] at hold
      cases hold
    have hnearest : Peer nodes id b.maxLevel entry :=
      ⟨hentryNe, old, (hother entry hentryNe).trans hold, hmax.ge⟩
    have hzoom : Peer nodes id (min level b.maxLevel)
        (zoom score nodes vector level b.maxLevel entry) := zoom_peer hlinked hfresh hnearest
    dsimp only
    generalize zoom score nodes vector level b.maxLevel entry = nearest at hzoom ⊢
    have hstart : HnswNodes.Linked (fun _ => False)
        (HnswBackend.mMax { b with nodes, rngState, entryPoint := some entry }) nodes := hlinked
    have hstored : ∀ l < min level b.maxLevel + 1, HnswNodes.Stored nodes l id :=
      fun l hl => ⟨_, hself, by simp only; omega⟩
    have hpeer : ∀ l < min level b.maxLevel + 1, Peer nodes id l nearest :=
      fun l hl => hzoom.mono (by omega)
    obtain ⟨hall, hshape, hsame⟩ := linkDown_linked score hstart hstored
      (fun l _ => hfresh l) hpeer
    generalize linkDown score id (min level b.maxLevel + 1)
      { b with nodes, rngState, entryPoint := some entry } nearest = linked at hall hshape hsame ⊢
    rw [hsame]
    generalize linked.nodes = final at hall hshape
    have hlevel : ∀ x n, get? x final = some n →
        (x = id ∧ n.level = level) ∨ n.level ≤ b.maxLevel := by
      intro x n hn
      obtain ⟨n', hn', -, heq⟩ := shape_get? hshape.symm hn
      by_cases hx : x = id
      · subst hx
        rw [hself] at hn'
        obtain rfl := Option.some.inj hn'
        exact .inl ⟨rfl, heq.symm⟩
      · rw [hother x hx] at hn'
        exact .inr (heq ▸ h.level x n' hn')
    obtain ⟨own, hown, -, hownLevel⟩ := shape_get? hshape hself
    have hfinal : final ≠ [] := by
      rintro rfl
      cases hown
    split_ifs with hhigher
    · refine ⟨hall, fun e he => ?_, by simp [withNodes, hfinal], fun x n hn => ?_⟩
      · obtain rfl := Option.some.inj he
        exact ⟨own, hown, hownLevel⟩
      · rcases hlevel x n hn with ⟨-, heq⟩ | hle
        · exact heq.le
        · exact hle.trans (Nat.le_of_lt hhigher)
    · refine ⟨hall, fun e he => ?_, by simp [withNodes, hfinal], fun x n hn => ?_⟩
      · obtain rfl := Option.some.inj he
        obtain ⟨n, hn, -, heq⟩ := shape_get? hshape ((hother entry hentryNe).trans hold)
        exact ⟨n, hn, heq.trans hmax⟩
      · rcases hlevel x n hn with ⟨-, heq⟩ | hle
        · exact heq.trans_le (Nat.not_lt.mp hhigher)
        · exact hle

/-- Storing under any id keeps the invariant, when a node it replaces is mutually linked. -/
theorem Sound.insert (h : b.Sound) (hmutual : b.Mutual id) (vector : V) :
    (b.insert score quantize sampleLevel id vector).Sound := by
  have hbase : (if (get? id b.nodes).isSome then b.remove id else b).Sound ∧ get? id
        (if (get? id b.nodes).isSome then b.remove id else b).nodes = none := by
    split_ifs with hold
    · exact h.remove hmutual
    · exact ⟨h, Option.not_isSome_iff_eq_none.mp hold⟩
  rw [insert_eq]
  cases quantize vector with
  | none => exact hbase.1
  | some stored => exact hbase.1.insertNew hbase.2 stored

/-! ### Queries -/

/-- The entry point's vector scores against the query, as the query is represented. -/
def EntryScores (score : V → V → Option S) (quantize : V → Option V) (b : HnswBackend V G)
    (query : V) : Prop :=
  ∃ e node q, b.entryPoint = some e ∧ get? e b.nodes = some node ∧
    quantize query = some q ∧ (score q node.vector).isSome

/-- Some stored vector scores against the query. -/
def SomeScores (score : V → V → Option S) (quantize : V → Option V) (b : HnswBackend V G)
    (query : V) : Prop :=
  ∃ id node q, get? id b.nodes = some node ∧ quantize query = some q ∧ (score q node.vector).isSome

/-- The walk down stays at a node that scores, or never leaves one that does not. -/
theorem zoom_scores (query : V) (level nearest : ℕ) :
    (dist score nodes query (zoom score nodes query level layer nearest)).isSome =
      (dist score nodes query nearest).isSome := by
  induction layer generalizing nearest with
  | zero => rfl
  | succ layer ih =>
    rw [zoom]
    split
    · rfl
    rw [ih]
    cases hfound : greedySearchLayerAgainst score nodes query nearest (layer + 1) 1 with
    | nil => rfl
    | cons c found =>
      have hscored := (search_mem (P := fun _ => True) trivial (fun _ _ _ => trivial)
        (hfound ▸ mem_cons_self : c ∈ greedySearchLayerAgainst score nodes query nearest
          (layer + 1) 1)).1
      have hstart : dist score nodes query nearest ≠ none := by
        intro hnone
        have hempty : greedySearchLayerAgainst score nodes query nearest (layer + 1) 1 = [] :=
          (search_eq_nil (Nat.le_refl 1)).mpr hnone
        rw [hempty] at hfound
        cases hfound
      have hnearest : (dist score nodes query nearest).isSome :=
        Option.isSome_iff_ne_none.mpr hstart
      simp only [head?_cons, Option.map_some, Option.getD_some, hscored,
        Option.isSome_some, hnearest]

/-- What a query returns: at most `k` different ids, best first, each of a stored vector
with its own score, and each among those asked for. -/
structure Answer (score : V → V → Option S) (quantize : V → Option V) (b : HnswBackend V G)
    (query : V) (k : ℕ) (restrictTo : Option (List ℕ)) (hits : List (ℕ × S)) : Prop where
  length : hits.length ≤ k
  distinct : (hits.map Prod.fst).Nodup
  ordered : hits.Pairwise fun hit hit' => hit'.2 ≤ hit.2
  scored : ∀ hit ∈ hits, ∃ node q, get? hit.1 b.nodes = some node ∧
    quantize query = some q ∧ score q node.vector = some hit.2
  allowed : ∀ hit ∈ hits, ∀ ids ∈ restrictTo, hit.1 ∈ ids

theorem Answer.nil {query : V} {k : ℕ} {restrictTo : Option (List ℕ)} :
    Answer score quantize b query k restrictTo [] :=
  ⟨Nat.zero_le _, nodup_nil, Pairwise.nil, by simp, by simp⟩

/-- The first `k` of some candidates a search found are an answer. -/
theorem Answer.of_found {query q : V} {k entry ef : ℕ} {restrictTo : Option (List ℕ)}
    (hq : quantize query = some q) {kept : List (Candidate Sᵒᵈ)}
    (hsub : kept.Sublist (greedySearchLayerAgainst score b.nodes q entry 0 ef))
    (hallowed : ∀ c ∈ kept, ∀ ids ∈ restrictTo, c.id ∈ ids) :
    Answer score quantize b query k restrictTo
      ((kept.take k).map fun c => (c.id, OrderDual.ofDual c.dist)) := by
  have htaken := (take_sublist k kept).trans hsub
  refine ⟨?_, ?_, ?_, fun hit hhit => ?_, fun hit hhit => ?_⟩
  · rw [length_map, length_take]
    exact Nat.min_le_left _ _
  · rw [map_map]
    exact (search_nodup _ _).sublist (htaken.map _)
  · rw [pairwise_map]
    exact ((search_sorted _ _).sublist htaken).imp fun hle => Candidate.dist_le hle
  · obtain ⟨c, hc, rfl⟩ := List.mem_map.mp hhit
    have hscored := (search_mem (P := fun _ => True) trivial (fun _ _ _ => trivial)
      (htaken.subset hc)).1
    obtain ⟨node, hnode, hmap⟩ := Option.bind_eq_some_iff.mp hscored
    obtain ⟨s, hs, heq⟩ := Option.map_eq_some_iff.mp hmap
    exact ⟨node, q, hnode, hq, heq ▸ hs⟩
  · obtain ⟨c, hc, rfl⟩ := List.mem_map.mp hhit
    exact hallowed c (mem_of_mem_take hc)

theorem query_answer (b : HnswBackend V G) (query : V) (k : ℕ) (restrictTo : Option (List ℕ)) :
    Answer score quantize b query k restrictTo
      (b.query score quantize query k restrictTo) := by
  unfold HnswBackend.query
  split
  · exact Answer.nil
  split
  · exact Answer.nil
  split
  · exact Answer.nil
  next entry _ _ _ q hq =>
    cases restrictTo with
    | none => exact Answer.of_found hq (Sublist.refl _) (by simp)
    | some ids =>
      refine Answer.of_found hq filter_sublist fun c hc ids' hids => ?_
      obtain rfl := Option.some.inj hids
      simpa using (List.mem_filter.mp hc).2

/-- An unfiltered query finds something exactly when the entry point scores. -/
theorem query_ne_nil (b : HnswBackend V G) (query : V) {k : ℕ} (hk : 1 ≤ k) :
    b.query score quantize query k none ≠ [] ↔ EntryScores score quantize b query := by
  unfold HnswBackend.query EntryScores
  cases hentry : b.entryPoint with
  | none => simp
  | some entry =>
    cases hq : quantize query with
    | none => simp
    | some q =>
      by_cases hnil : b.nodes = []
      · simp [hnil]
      have hwidth : 1 ≤ b.searchWidth k false := by
        simp only [searchWidth, Bool.false_eq_true, if_false]
        exact hk.trans (Nat.le_max_right _ _)
      have hfound : greedySearchLayerAgainst score b.nodes q
          (zoom score b.nodes q 0 b.maxLevel entry) 0 (b.searchWidth k false) = [] ↔
            dist score b.nodes q (zoom score b.nodes q 0 b.maxLevel entry) = none :=
        search_eq_nil hwidth
      have hscores : (dist score b.nodes q
          (zoom score b.nodes q 0 b.maxLevel entry)).isSome =
            (dist score b.nodes q entry).isSome := zoom_scores q 0 entry
      have hk' : ¬ k = 0 := by omega
      simp only [hk', hnil, or_self, if_false, Option.isSome_none, ne_eq, map_eq_nil_iff,
        take_eq_nil_iff, false_or, hfound]
      rw [← ne_eq, ← Option.isSome_iff_ne_none, hscores]
      simp only [dist, Option.some.injEq]
      cases hnode : get? entry b.nodes with
      | none => simp [hnode]
      | some node => simp [hnode]

end Search

/-! ### Runs -/

/-- The writes an index takes. -/
inductive Op (V : Type) where
  | insert (id : ℕ) (vector : V)
  | remove (id : ℕ)

/-- The id that a write is about. -/
def Op.id : Op V → ℕ
  | .insert id _ | .remove id => id

section Runs

variable [LinearOrder S] (score : V → V → Option S) (quantize : V → Option V)
  (sampleLevel : G → ℕ × G)

def step (b : HnswBackend V G) : Op V → HnswBackend V G
  | .insert id vector => b.insert score quantize sampleLevel id vector
  | .remove id => b.remove id

def run (b : HnswBackend V G) (ops : List (Op V)) : HnswBackend V G :=
  ops.foldl (step score quantize sampleLevel) b

/-- In front of each write, the node it drops, if any, is mutually linked. -/
def CleanRun (b : HnswBackend V G) : List (Op V) → Prop
  | [] => True
  | op :: ops => b.Mutual op.id ∧ CleanRun (step score quantize sampleLevel b op) ops

/-- What an index is to be: the entry point, the lists, and the answers to every query. An
unfiltered query that some stored vector scores against finds one, if the entry point does. -/
structure Correct (b : HnswBackend V G) : Prop where
  entry : b.entryPoint.isSome ↔ b.nodes ≠ []
  highest : ∀ e, b.entryPoint = some e → ∃ node, get? e b.nodes = some node ∧
    ∀ id other, get? id b.nodes = some other → other.level ≤ node.level
  links : ∀ id node, get? id b.nodes = some node → node.neighbors.length = node.level + 1 ∧
    ∀ layer links, node.neighbors[layer]? = some links → links.Nodup ∧ links.length ≤ b.mMax layer ∧
      ∀ x ∈ links, x ≠ id ∧ b.nodes.Stored layer x
  answers : ∀ query k restrictTo, Answer score quantize b query k restrictTo
    (b.query score quantize query k restrictTo)
  found : ∀ query k, 1 ≤ k →
    ((SomeScores score quantize b query → b.query score quantize query k none ≠ []) ↔
      (EntryScores score quantize b query ∨ ¬ SomeScores score quantize b query))

variable {score quantize sampleLevel}

theorem Sound.correct {b : HnswBackend V G} (h : b.Sound) : Correct score quantize b := by
  refine ⟨?_, fun e he => ?_, fun id node hnode => ⟨h.linked.layers id node hnode, ?_⟩,
    query_answer b, fun query k hk => ?_⟩
  · rw [Option.isSome_iff_ne_none, ne_eq, h.empty]
  · obtain ⟨node, hnode, hmax⟩ := h.entry e he
    exact ⟨node, hnode, fun id other hother => hmax ▸ h.level id other hother⟩
  · intro layer links hlinks
    have hok := h.linked.links id layer
    rw [HnswNodes.linksAt_eq hnode, hlinks, Option.getD_some] at hok
    exact ⟨hok.nodup, hok.bounded, fun x hx => (hok.linked x hx).resolve_left not_false⟩
  · rw [query_ne_nil b query hk]
    constructor
    · intro hfound
      by_cases hsome : SomeScores score quantize b query
      · exact .inl (hfound hsome)
      · exact .inr hsome
    · rintro (hentry | hnone) hsome
      · exact hentry
      · exact absurd hsome hnone

theorem Sound.step {b : HnswBackend V G} (h : b.Sound) {op : Op V} (hmutual : b.Mutual op.id) :
    (step score quantize sampleLevel b op).Sound := by
  cases op with
  | insert id vector => exact h.insert hmutual vector
  | remove id => exact (h.remove hmutual).1

theorem Sound.run {b : HnswBackend V G} (h : b.Sound) {ops : List (Op V)}
    (hclean : CleanRun score quantize sampleLevel b ops) :
    (run score quantize sampleLevel b ops).Sound := by
  induction ops generalizing b with
  | nil => exact h
  | cons op ops ih =>
    obtain ⟨hmutual, hrest⟩ := hclean
    exact ih (h.step hmutual) hrest

/-- **Correctness of runs.** In a run that only drops mutually linked nodes, the index is correct
throughout, up to queries against which the entry point does not score. -/
theorem run_correct (params : HnswParams) (rngState : G) (ops : List (Op V))
    (hclean : CleanRun score quantize sampleLevel (new params rngState) ops) :
    Correct score quantize (run score quantize sampleLevel (new params rngState) ops) :=
  ((sound_new params rngState).run hclean).correct

end Runs

/-! ### A run that is not clean -/

/-- Points on a line, where `none` is a vector that scores against nothing. -/
def lineScore : Option ℤ → Option ℤ → Option ℤ
  | some x, some y => some (-((x - y).natAbs : ℤ))
  | _, _ => none

/-- Every node is of level zero. -/
def groundLevel : Unit → ℕ × Unit := fun s => (0, s)

def lineRun (ops : List (Op (Option ℤ))) : HnswBackend (Option ℤ) Unit :=
  run lineScore some groundLevel (new ⟨2, 10, 10⟩ ()) ops

/-- The closest four neighbours of node `0` are not the one that links to it from afar. -/
def crowded : List (Op (Option ℤ)) :=
  [.insert 0 (some 0), .insert 1 (some 10), .insert 2 (some 1), .insert 3 (some (-1)),
    .insert 4 (some 2), .insert 5 (some (-2))]

/-- A removed node is still named, one that comes back names itself, and behind an entry point
that does not score nothing is found. -/
theorem lineRun_not_correct : get? 0 (lineRun (crowded ++ [.remove 0])).nodes = none ∧
      0 ∈ (lineRun (crowded ++ [.remove 0])).nodes.linksAt 0 1 ∧
      0 ∈ (lineRun (crowded ++ [.remove 0, .insert 0 (some 11)])).nodes.linksAt 0 0 ∧
      (lineRun [.insert 1 none, .insert 2 (some 0)]).query lineScore some (some 0) 1 none = [] ∧
      lineScore (some 0) (some 0) = some 0 := by
  decide +kernel

/-- The two nodes of this run name each other, and either may go. -/
theorem lineRun_correct : Correct lineScore some
    (lineRun [.insert 0 (some 0), .insert 1 (some 10), .remove 0]) := by
  have hone : (lineRun [.insert 0 (some 0)]).nodes = [(0, ⟨some 0, 0, [[]]⟩)] := by decide +kernel
  have htwo : (lineRun [.insert 0 (some 0), .insert 1 (some 10)]).nodes =
      [(0, ⟨some 0, 0, [[1]]⟩), (1, ⟨some 10, 0, [[0]]⟩)] := by
    decide +kernel
  refine run_correct _ _ _ ⟨fun layer y hy => ?_, fun layer y hy => ?_, fun layer y hy => ?_,
    trivial⟩
  · cases hy
  · have hnone : ∀ layer y, (lineRun [.insert 0 (some 0)]).nodes.linksAt layer y = [] := by
      intro layer y
      rw [hone, HnswNodes.linksAt]
      rcases layer with _ | layer <;> by_cases hy : y = 0 <;> simp [get?, hy]
    have hy' : 1 ∈ (lineRun [.insert 0 (some 0)]).nodes.linksAt layer y := hy
    rw [hnone] at hy'
    cases hy'
  · have hlinks : y = 1 ∧ layer = 0 := by
      have hy' : 0 ∈ (lineRun [.insert 0 (some 0), .insert 1 (some 10)]).nodes.linksAt layer y :=
        hy
      rw [htwo] at hy'
      rcases layer with _ | layer <;> by_cases h0 : y = 0 <;> by_cases h1 : y = 1 <;>
        simp_all [HnswNodes.linksAt, get?]
    obtain ⟨rfl, rfl⟩ := hlinks
    have hback : 1 ∈ (lineRun [.insert 0 (some 0), .insert 1 (some 10)]).nodes.linksAt 0 0 := by
      decide +kernel
    exact hback

end HnswBackend

end LoraDb
