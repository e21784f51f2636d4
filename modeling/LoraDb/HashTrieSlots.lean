import LoraDb.HashTrieRuns

/-!
# Hash Maps of Parts

Parts built apart, each for the keys of one top slot, are grafted under one root. The map holds
what it would had all the writes been made to it, one after the other.

## Main results

* `fromSlots_refines`: parts put together.
* `cowMap_refines`: a run.
-/

open Function (update_of_ne update_self)
open List Handles

namespace LoraDb

namespace HashTrie

variable {K V : Type} [DecidableEq K] {route : K → UInt64}

/-! ### Writes, key by key -/

/-- What writes leave under a key. -/
def valueOf (k : K) (ws : List (Write K V)) (old : Option V) : Option V :=
  ws.foldl (fun old w => if w.key = k then w.effect old else old) old

theorem valueOf_append (k : K) (ws ws' : List (Write K V)) (old : Option V) :
    valueOf k (ws ++ ws') old = valueOf k ws' (valueOf k ws old) := foldl_append

/-- Writes to other keys leave a key alone. -/
theorem valueOf_other {k : K} {ws : List (Write K V)} (h : ∀ w ∈ ws, w.key ≠ k) (old : Option V) :
    valueOf k ws old = old := by
  induction ws with
  | nil => rfl
  | cons w ws ih =>
    rw [valueOf, foldl_cons, if_neg (h w mem_cons_self)]
    exact ih fun w hw => h w (mem_cons_of_mem _ hw)

theorem lookup_foldl_spec (k : K) (ws : List (Write K V)) (table : Table K V) :
    (ws.foldl (fun table w => w.spec table) table).lookup k = valueOf k ws (table.lookup k) := by
  induction ws generalizing table with
  | nil => rfl
  | cons w ws ih =>
    rw [foldl_cons, ih, lookup_spec, valueOf, valueOf, foldl_cons]
    congr 1
    rcases eq_or_ne w.key k with rfl | hne
    · rw [if_pos rfl]
    · rw [if_neg hne, if_neg hne.symm]

/-! ### Grafting -/

omit [DecidableEq K] in
theorem Node.count_eq (node : Node K V) : node.count = node.iter.length := by
  induction node with
  | empty => rfl
  | leaf map => rfl
  | branch kids ih =>
    rw [count, iter, length_flatMap]
    exact congrArg sum (map_congr_left fun s _ => ih s)

/-- A child under its slot. -/
def Fits (route : K → UInt64) (s : Fin FAN) (node : Node K V) : Prop :=
  node.Ok route 1 fun k => True ∧ slot (route k) 0 = some s

variable {s : Fin FAN}

theorem Fits.find_none {node : Node K V} (h : Fits route s node) {k : K}
    (hk : slot (route k) 0 ≠ some s) : node.find k = none := by
  cases hget : node.find k with
  | none => rfl
  | some v => exact absurd (Node.Ok.of_find h hget).2 hk

theorem foldl_idle {X Y : Type} {f : X → Y → X} {ys : List Y} {x : X} (h : ∀ y ∈ ys, f x y = x) :
    ys.foldl f x = x := by
  induction ys with
  | nil => rfl
  | cons y ys ih =>
    rw [foldl_cons, h y mem_cons_self]
    exact ih fun y hy => h y (mem_cons_of_mem _ hy)

/-- Entries that are all of one slot are dealt to one side. -/
theorem foldlM_sortOut {es : List (Entry K V)}
    (h : ∀ e ∈ es, slot (route e.1) 0 = some s) (mine strays : LeafMap K V) :
    es.foldlM (CowMap.Grafting.sortOut route s) (mine, strays) =
      some (Node.extend mine es, strays) := by
  induction es generalizing mine with
  | nil => rfl
  | cons e es ih =>
    have hone : CowMap.Grafting.sortOut route s (mine, strays) e =
        some (mine.insert e.1 e.2, strays) := by
      simp only [CowMap.Grafting.sortOut, h e mem_cons_self, Option.bind_eq_bind,
        Option.bind_some, if_true]
    rw [foldlM_cons, hone]
    exact ih (fun e he => h e (mem_cons_of_mem _ he)) _

variable {g : CowMap.Grafting K V}

/-- A part of keys of its own slot is grafted there, where there was nothing. -/
theorem graft_ok {part : CowMap K V} {table : Table K V}
    (hg : (g.kids s).iter = []) (h : Refines route part table)
    (hown : ∀ e ∈ part.root.iter, slot (route e.1) 0 = some s) :
    ∃ kid, g.graft route s part = some ⟨Function.update g.kids s kid, g.len + kid.count, g.strays⟩ ∧
      (Fits route s (g.kids s) → Fits route s kid) ∧ ∀ k, kid.find k = part.root.find k := by
  obtain ⟨root, len⟩ := part
  have hok := h.root
  have hkeep : g = ⟨Function.update g.kids s (g.kids s), g.len + (g.kids s).count, g.strays⟩ := by
    rw [Function.update_eq_self, Node.count_eq, hg]
    rfl
  have hnothing : ∀ k, (g.kids s).find k = none := fun k => by rw [Node.find, hg]; rfl
  cases root with
  | empty => exact ⟨g.kids s, congrArg some hkeep, id, hnothing⟩
  | leaf map =>
    have hall : ∀ e ∈ map.entries, slot (route e.1) 0 = some s := hown
    have hmine : ∀ k, (Node.extend ∅ map.entries).lookup k = map.lookup k := fun k => by
      rw [Node.lookup_extend map.nodupKeys, AList.lookup_empty, Option.or_none]
      rfl
    have hgraft : g.graft route s ⟨.leaf map, len⟩ =
        if (Node.extend ∅ map.entries).entries.isEmpty then some g
        else some ⟨Function.update g.kids s (.leaf (Node.extend ∅ map.entries)),
          g.len + (Node.extend ∅ map.entries).entries.length, g.strays⟩ := by
      simp only [CowMap.Grafting.graft, foldlM_sortOut hall, Option.bind_eq_bind, Option.bind_some]
    rw [hgraft]
    split_ifs with hempty
    · refine ⟨g.kids s, congrArg some hkeep, id, fun k => ?_⟩
      have hnone : (Node.extend ∅ map.entries).lookup k = none := by
        rw [AList.lookup, isEmpty_iff.mp hempty]
        rfl
      exact (hnothing k).trans (hnone.symm.trans (hmine k))
    · refine ⟨.leaf (Node.extend ∅ map.entries), rfl, fun _ e he => ⟨trivial, ?_⟩, hmine⟩
      have hfind := Node.mem_entries_iff.mp he
      rw [hmine] at hfind
      exact hall e (Node.mem_entries_iff.mpr hfind)
  | branch kids =>
    have hother : ∀ i ≠ s, (kids i).iter = [] := by
      intro i hi
      refine eq_nil_iff_forall_not_mem.mpr fun e he => ?_
      have htop := hown e (mem_flatMap.mpr ⟨i, mem_finRange i, he⟩)
      rw [((hok.2 i).mem he).2] at htop
      exact hi (Option.some.inj htop)
    obtain ⟨as, bs, hsplit⟩ := append_of_mem (mem_finRange s)
    have hnodup := nodup_finRange FAN
    rw [hsplit, nodup_append, nodup_cons] at hnodup
    have hidle : ∀ (g : CowMap.Grafting K V), ∀ i ≠ s, g.graftKid s kids i = g := by
      intro g i hi
      rw [CowMap.Grafting.graftKid, if_neg hi, Node.drainInto_eq, hother i hi]
      rfl
    have hfold : (finRange FAN).foldl (CowMap.Grafting.graftKid s kids) g =
        g.graftKid s kids s := by
      rw [hsplit, foldl_append, foldl_cons,
        foldl_idle fun i hi => hidle g i (hnodup.2.2 i hi s mem_cons_self)]
      exact foldl_idle fun i hi => hidle _ i fun heq => hnodup.2.1.1 (heq ▸ hi)
    refine ⟨kids s, ?_, fun _ => hok.2 s, fun k => ?_⟩
    · rw [CowMap.Grafting.graft]
      refine (congrArg some hfold).trans ?_
      rw [CowMap.Grafting.graftKid, if_pos rfl]
    · obtain ⟨s', hs'⟩ := exists_slot (route k) hok.1
      rw [hok.find_branch hs']
      rcases eq_or_ne s' s with rfl | hne
      · rfl
      · have hnone : (kids s').find k = none := by
          rw [Node.find, hother s' hne]
          rfl
        rw [hnone]
        refine Fits.find_none (hok.2 s) fun hs => hne ?_
        exact Option.some.inj (hs'.symm.trans hs)

omit [DecidableEq K] in
/-- The entries of a branch with another child, where there was nothing. -/
theorem count_update {kids : Fin FAN → Node K V} (h : (kids s).iter = [])
    (kid : Node K V) : Node.count (.branch (Function.update kids s kid)) =
      Node.count (.branch kids) + kid.count := by
  have hzero : (kids s).count = 0 := by rw [Node.count_eq, h, length_nil]
  have hupdate : (fun i => (Function.update kids s kid i).count) =
      Function.update (fun i => (kids i).count) s kid.count := by
    funext i
    rcases eq_or_ne i s with rfl | hne
    · rw [update_self, update_self]
    · rw [update_of_ne hne, update_of_ne hne]
  rw [Node.count, Node.count, hupdate, ← Fin.sum_univ_def, ← Fin.sum_univ_def,
    Finset.sum_update_of_mem (Finset.mem_univ s), Finset.sdiff_singleton_eq_erase,
    ← Finset.add_sum_erase Finset.univ (fun i => (kids i).count) (Finset.mem_univ s), hzero,
    Nat.zero_add, Nat.add_comm]

/-! ### Parts in turn -/

/-- What the parts so far have made. -/
structure Grafted (route : K → UInt64) (g : CowMap.Grafting K V) (parts : List (Part K V)) :
    Prop where
  fits : ∀ s, Fits route s (g.kids s)
  find : ∀ s k, slot (route k) 0 = some s → (g.kids s).find k = valueOf k (allWrites parts) none
  rest : ∀ s ∉ parts.map Part.slot, (g.kids s).iter = []
  len : g.len = Node.count (.branch g.kids)
  strays : g.strays = ∅

/-- A part built holds keys of its slot only. -/
theorem build_ok (LEAF : ℕ) {part : Part K V}
    (hown : ∀ w ∈ part.writes, slot (route w.key) 0 = some part.slot) :
    ∃ m, build LEAF route part = some (part.slot, m) ∧
      (∃ table, Refines route m table) ∧ (∀ k, m.root.find k = valueOf k part.writes none) ∧
      ∀ e ∈ m.root.iter, slot (route e.1) 0 = some part.slot := by
  obtain ⟨m₀, hm₀, h₀⟩ := withShape_refines (V := V) route LEAF part.routes
  obtain ⟨m, hm, h⟩ := h₀.applyAll LEAF part.writes
  have hfind : ∀ k, m.root.find k = valueOf k part.writes none := fun k => by
    rw [h.find, lookup_foldl_spec, Finmap.lookup_empty]
  refine ⟨m, ?_, ⟨_, h⟩, hfind, fun e he => ?_⟩
  · rw [build, hm₀]
    simp only [Option.bind_eq_bind, Option.bind_some, hm]
  · have hget := h.root.mem_iff.mp he
    rw [hfind] at hget
    by_contra hslot
    have hother : ∀ w ∈ part.writes, w.key ≠ e.1 := fun w hw heq => hslot (heq ▸ hown w hw)
    rw [valueOf_other hother] at hget
    cases hget

/-- One part more. -/
theorem Grafted.step {parts : List (Part K V)} (h : Grafted route g parts)
    {part : Part K V} (hnew : part.slot ∉ parts.map Part.slot)
    (hown : ∀ w ∈ part.writes, slot (route w.key) 0 = some part.slot) {m : CowMap K V}
    (hm : ∃ table, Refines route m table) (hfind : ∀ k, m.root.find k = valueOf k part.writes none)
    (hall : ∀ e ∈ m.root.iter, slot (route e.1) 0 = some part.slot) :
    ∃ g', g.graft route part.slot m = some g' ∧ Grafted route g' (parts ++ [part]) := by
  obtain ⟨table, hm⟩ := hm
  have hnothing := h.rest part.slot hnew
  obtain ⟨kid, hgraft, hfits, hkid⟩ := graft_ok hnothing hm hall
  refine ⟨_, hgraft, fun s => ?_, fun s k hs => ?_, fun s hs => ?_, ?_, h.strays⟩ <;> dsimp only
  · rcases eq_or_ne s part.slot with rfl | hne
    · rw [update_self]
      exact hfits (h.fits _)
    · rw [update_of_ne hne]
      exact h.fits s
  · have hwrites : allWrites (parts ++ [part]) = allWrites parts ++ part.writes := by
      rw [allWrites, flatMap_append, flatMap_singleton]
      rfl
    rw [hwrites, valueOf_append, ← h.find s k hs]
    rcases eq_or_ne s part.slot with rfl | hne
    · rw [update_self, hkid, hfind, Node.find, hnothing]
      rfl
    · rw [update_of_ne hne, valueOf_other fun w hw heq => hne ?_]
      exact Option.some.inj (hs.symm.trans (heq ▸ hown w hw))
  · rw [map_append, mem_append, not_or] at hs
    have hne : s ≠ part.slot := fun heq => hs.2 (by rw [heq]; exact mem_cons_self)
    rw [update_of_ne hne]
    exact h.rest s hs.1
  · rw [count_update hnothing, h.len]

theorem grafts_ok (LEAF : ℕ) {parts ps : List (Part K V)} (hsplit : Split route (parts ++ ps))
    (h : Grafted route g parts) :
    ∃ maps g', ps.mapM (build LEAF route) = some maps ∧
      maps.foldlM (fun g part => g.graft route part.1 part.2) g = some g' ∧
      Grafted route g' (parts ++ ps) := by
  induction ps generalizing parts g with
  | nil => exact ⟨[], g, rfl, rfl, by rwa [append_nil]⟩
  | cons part ps ih =>
    have hown := hsplit.own part (mem_append_right _ mem_cons_self)
    have hnew : part.slot ∉ parts.map Part.slot := fun hmem => by
      have hapart := hsplit.apart
      rw [map_append, map_cons, nodup_append] at hapart
      exact hapart.2.2 _ hmem _ mem_cons_self rfl
    obtain ⟨m, hbuild, hm, hfind, hall⟩ := build_ok LEAF hown
    obtain ⟨g₁, hg₁, h₁⟩ := h.step hnew hown hm hfind hall
    have hassoc : parts ++ part :: ps = (parts ++ [part]) ++ ps := by
      rw [append_assoc, singleton_append]
    obtain ⟨maps, g₂, hmaps, hg₂, h₂⟩ := ih (hassoc ▸ hsplit) h₁
    refine ⟨(part.slot, m) :: maps, g₂, ?_, ?_, hassoc ▸ h₂⟩
    · rw [mapM_cons, hbuild, hmaps]
      rfl
    · rw [foldlM_cons, hg₁]
      exact hg₂

/-- Parts put together hold what one map would after all their writes. -/
theorem fromSlots_refines (LEAF : ℕ) {parts : List (Part K V)} (hsplit : Split route parts) :
    ∃ maps m, parts.mapM (build LEAF route) = some maps ∧
      CowMap.fromSlots LEAF route maps = some m ∧
      Refines route m ((allWrites parts).foldl (fun table w => w.spec table) ∅) := by
  have hstart : Grafted route (⟨fun _ => .empty, 0, ∅⟩ : CowMap.Grafting K V) [] := by
    refine ⟨fun _ => trivial, fun _ _ _ => rfl, fun _ _ => rfl, ?_, rfl⟩
    rw [Node.count_eq]
    exact (congrArg length (flatMap_eq_nil_iff.mpr fun _ _ => rfl)).symm
  obtain ⟨maps, g, hmaps, hg, h⟩ := grafts_ok LEAF (show Split route ([] ++ _) from hsplit) hstart
  rw [nil_append] at h
  have hok : Node.Ok route (.branch g.kids) 0 fun _ => True := ⟨Nat.zero_le _, h.fits⟩
  have hfind : ∀ k, Node.find (.branch g.kids) k =
      ((allWrites parts).foldl (fun table w => w.spec table) (∅ : Table K V)).lookup k := by
    intro k
    obtain ⟨s, hs⟩ := exists_slot (route k) (Nat.zero_le MAX_DEPTH)
    rw [hok.find_branch hs, h.find s k hs, lookup_foldl_spec, Finmap.lookup_empty]
  generalize (allWrites parts).foldl (fun table w => w.spec table) (∅ : Table K V) =
    table at hfind ⊢
  have hlen : g.len = table.keys.card := by
    have hiter := (Refines.of_find hok hfind).iter
    rw [h.len, Node.count_eq]
    exact (congrArg Multiset.card hiter).trans (Multiset.card_map _ _).symm
  refine ⟨maps, ⟨if g.len ≤ LEAF then Node.ofMap (Node.drainInto (.branch g.kids) ∅)
    else .branch g.kids, g.len⟩, hmaps, ?_, ?_⟩
  · rw [CowMap.fromSlots, hg]
    simp only [Option.bind_eq_bind, Option.bind_some, h.strays]
    rfl
  · split_ifs
    · refine ⟨Node.ok_ofMap fun _ _ => trivial, fun k => ?_, hlen⟩
      rw [Node.find, Node.iter_ofMap, ← hfind k, ← hok.lookup_drainInto]
      rfl
    · exact ⟨hok, hfind, hlen⟩

/-! ### Runs -/

theorem make_refines (LEAF : ℕ) (init : Init K V route) :
    ∃ m table, make LEAF route init = some m ∧ specMake init = some table ∧
      Refines route m table := by
  cases init with
  | empty =>
    refine ⟨.empty, ∅, rfl, rfl, trivial, fun k => ?_, rfl⟩
    rw [Finmap.lookup_empty]
    rfl
  | withShape routes =>
    obtain ⟨m, hm, h⟩ := withShape_refines (V := V) route LEAF routes
    exact ⟨m, ∅, hm, rfl, h⟩
  | fromSlots parts hsplit =>
    obtain ⟨maps, m, hmaps, hm, h⟩ := fromSlots_refines LEAF hsplit
    refine ⟨m, _, ?_, rfl, h⟩
    rw [make, hmaps]
    exact hm

theorem step_refines (LEAF : ℕ) (op : MapOp K V) (m : CowMap K V) (table : Table K V)
    (h : Refines route m table) : ∃ m' table' answer, step LEAF route op m = some (m', answer) ∧
      specStep op table = some (table', answer) ∧ Option.Rel (Refines route) m' table' := by
  cases op with
  | get key => exact ⟨_, _, _, by rw [step, h.get]; rfl, rfl, .some h⟩
  | len => exact ⟨_, _, _, rfl, by rw [specStep, ← h.len], .some h⟩
  | iter => exact ⟨_, _, _, rfl, by rw [specStep, ← h.iter], .some h⟩
  | write w =>
    obtain ⟨m', hm', h'⟩ := h.apply LEAF w
    exact ⟨_, _, _, by rw [step, hm']; rfl, rfl, .some h'⟩

/-- **The hash trie refines a finite map.** Whatever the routes of the keys and the size of a
leaf, in every run of maps made empty, shaped or of parts, cloned, read and written, all answers
are those of finite maps, the maps hold what those hold, and no hash is asked for a field it does
not have. -/
theorem cowMap_refines (LEAF : ℕ) (route : K → UInt64)
    (ops : List (HandleOp (Init K V route) (MapOp K V))) :
    ∃ ms tables answers, run (make LEAF route) (step LEAF route) ops [] = some (ms, answers) ∧
      run specMake specStep ops [] = some (tables, answers) ∧
      Alike (Refines route) ms tables :=
  run_alike (make_refines LEAF) (step_refines LEAF) ops .nil

end HashTrie

end LoraDb
