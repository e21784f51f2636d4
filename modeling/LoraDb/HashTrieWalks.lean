import LoraDb.HashTrieSound

/-!
# Walks in a Hash Trie

Each walk follows a key's route to its leaf, and ends: no branch lies below the last field of a
hash, and a leaf that may not split further takes every key that comes.

## Main results

* `Node.lookupRouted_ok`, `Node.getMutRouted_ok`, `Node.entry_ok`, `Node.removeAt_ok`: the walks.
* `Node.shape_ok`: a shaped tree is in order and empty.
-/

open List

namespace LoraDb

open Option

namespace HashTrie

namespace Node

variable {K V : Type} {route : K → UInt64} {key : K} {p : K → Prop} {depth : ℕ} {node : Node K V}
  {map : LeafMap K V}

/-- Turns the loop still takes from a node: one for its depth, one more to make a leaf. -/
def turns (depth : ℕ) : Node K V → ℕ
  | .empty => 2 * (MAX_DEPTH + 1 - depth) + 2
  | _ => 2 * (MAX_DEPTH + 1 - depth) + 1

theorem turns_le (depth : ℕ) (node : Node K V) :
    turns depth node ≤ 2 * (MAX_DEPTH + 1 - depth) + 2 := by
  cases node with
  | empty => exact le_rfl
  | leaf map => exact Nat.le_succ _
  | branch kids => exact Nat.le_succ _

/-! ### Shapes -/

theorem exists_mapM {X Y : Type} {f : X → Option Y} {P : Y → Prop} {l : List X}
    (h : ∀ x ∈ l, ∃ y, f x = some y ∧ P y) : ∃ ys, l.mapM f = some ys ∧ ∀ y ∈ ys, P y := by
  induction l with
  | nil => exact ⟨[], rfl, fun _ hy => absurd hy not_mem_nil⟩
  | cons x l ih =>
    obtain ⟨y, hy, hP⟩ := h x mem_cons_self
    obtain ⟨ys, hys, hall⟩ := ih fun x hx => h x (mem_cons_of_mem _ hx)
    refine ⟨y :: ys, ?_, fun y' hy' => ?_⟩
    · rw [mapM_cons, hy, hys]
      rfl
    · rcases mem_cons.mp hy' with rfl | hy'
      · exact hP
      · exact hall y' hy'

/-- Empty and in order for whatever keys are to come. -/
def Blank (route : K → UInt64) (depth : ℕ) (node : Node K V) : Prop :=
  (∀ p, Ok route node depth p) ∧ node.iter = []

/-- A shaped tree is in order and empty, and the shaping ends. -/
theorem shape_ok (LEAF : ℕ) (routes : List UInt64) {fuel : ℕ} (hfuel : MAX_DEPTH + 2 ≤ fuel + depth)
    (hlast : depth ≤ MAX_DEPTH + 1) :
    ∃ node : Node K V, shape LEAF fuel routes depth = some node ∧ Blank route depth node := by
  induction fuel generalizing routes depth with
  | zero => omega
  | succ fuel ih =>
    rw [shape]
    split_ifs with hnil hfits
    · exact ⟨.empty, rfl, fun _ => trivial, rfl⟩
    · exact ⟨.leaf ∅, rfl, fun _ e he => absurd he not_mem_nil, rfl⟩
    · have hdepth : depth ≤ MAX_DEPTH := not_lt.mp fun hlt => hfits (.inl hlt)
      obtain ⟨ys, hys, hall⟩ := exists_mapM (P := Blank route (depth + 1))
        (l := cuts depth (finRange FAN) routes) fun mine _ => ih mine (by omega) (by omega)
      have hkids : ∀ s : Fin FAN, Blank route (depth + 1) (ys.getD s .empty) := by
        intro s
        rw [getD_eq_getElem?_getD]
        cases hget : ys[s.val]? with
        | none => exact ⟨fun _ => trivial, rfl⟩
        | some kid => exact hall kid (mem_of_getElem? hget)
      refine ⟨.branch fun s => ys.getD s .empty, ?_, fun p => ⟨hdepth, fun s => (hkids s).1 _⟩, ?_⟩
      · rw [hys]
        rfl
      · exact flatMap_eq_nil_iff.mpr fun s _ => (hkids s).2

variable [DecidableEq K]

theorem lookupRouted_ok (h : Ok route node depth p) :
    node.lookupRouted key (route key) depth = some (node.find key) := by
  induction node generalizing depth p with
  | empty => rfl
  | leaf map => rfl
  | branch kids ih =>
    obtain ⟨s, hs⟩ := exists_slot (route key) h.1
    rw [lookupRouted, hs, bind_some, ih s (h.2 s), h.find_branch hs]

/-! ### Writes to a leaf -/

/-- A key put into a leaf. -/
theorem leaf_insert (h : Ok route (.leaf map) depth p) (hkey : p key) (v : V) :
    Ok route (.leaf (map.insert key v)) depth p ∧
      Puts (.leaf map) (.leaf (map.insert key v)) key (some v) := by
  have hputs : Puts (.leaf map) (.leaf (map.insert key v)) key (some v) := by
    intro k
    rcases eq_or_ne k key with rfl | hne
    · exact (AList.lookup_insert map).trans (if_pos rfl).symm
    · exact (AList.lookup_insert_ne hne).trans (if_neg hne).symm
  refine ⟨fun e he => ?_, hputs⟩
  have hfind := (hputs e.1).symm.trans (mem_entries_iff.mp he)
  split_ifs at hfind with heq
  · rwa [heq]
  · exact h.of_find hfind

/-- A key taken out of a table. -/
theorem lookup_erase (map : LeafMap K V) (key k : K) :
    (map.erase key).lookup k = if k = key then none else map.lookup k := by
  rcases eq_or_ne k key with rfl | hne
  · rw [AList.lookup_erase, if_pos rfl]
  · rw [AList.lookup_erase_ne hne, if_neg hne]

theorem mem_erase {e : Entry K V} (he : e ∈ (map.erase key).entries) : e ∈ map.entries := by
  have hfind := mem_entries_iff.mp he
  rw [lookup_erase] at hfind
  split_ifs at hfind
  exact mem_entries_iff.mpr hfind

theorem Puts.self (h : node.find key = none) : Puts node node key none := by
  intro k
  split_ifs with heq
  · rw [heq, h]
  · rfl

/-- Changing a value changes it and nothing else. -/
theorem getMutRouted_ok (h : Ok route node depth p) (change : V → V) :
    ∃ node', node.getMutRouted key (route key) change depth = some (node', node.find key) ∧
      Ok route node' depth p ∧ Puts node node' key ((node.find key).map change) := by
  induction node generalizing depth p with
  | empty => exact ⟨.empty, rfl, trivial, .self rfl⟩
  | leaf map =>
    refine ⟨.leaf (changeIn key change map), rfl, ?_⟩
    cases hget : map.lookup key with
    | none =>
      have hfind : (Node.leaf map).find key = none := hget
      rw [hfind, changeIn, hget]
      exact ⟨h, .self hfind⟩
    | some v =>
      have hfind : (Node.leaf map).find key = some v := hget
      rw [hfind, changeIn, hget]
      exact leaf_insert h (h.of_find hfind) (change v)
  | branch kids ih =>
    obtain ⟨s, hs⟩ := exists_slot (route key) h.1
    obtain ⟨node', hnode, hok, hputs⟩ := ih s (h.2 s)
    rw [h.find_branch hs]
    refine ⟨_, ?_, h.update hs hok hputs⟩
    simp only [getMutRouted, hs, hnode, bind_eq_bind, bind_some]

/-! ### The entry of a key -/

/-- Growing changes no entry, and leaves no branch below the last field. -/
theorem grow_ok (LEAF : ℕ) (h : Ok route node depth p) :
    ∃ node', grow LEAF route key depth node = some node' ∧ Ok route node' depth p ∧
      (∀ k, node'.find k = node.find k) ∧ (node = .empty ↔ node' = .empty) := by
  cases node with
  | empty => exact ⟨.empty, rfl, h, fun _ => rfl, Iff.rfl⟩
  | branch kids => exact ⟨.branch kids, rfl, h, fun _ => rfl, Iff.rfl⟩
  | leaf map =>
    rw [grow]
    split_ifs with hfull
    · obtain ⟨node', hsplit, hok, hfind, kids, rfl⟩ := split_ok hfull.1 h
      exact ⟨_, hsplit, hok, hfind, by simp⟩
    · exact ⟨.leaf map, rfl, h, fun _ => rfl, by simp⟩

/-- Writing an entry: the walk makes and splits what it has to, and ends in time. -/
theorem entry_ok (LEAF : ℕ) (edit : Option V → V) (hkey : p key) {fuel : ℕ}
    (h : Ok route node depth p) (hfuel : turns depth node ≤ fuel) :
    ∃ node', node.entry LEAF route key
        (fun map => (map.insert key (edit (map.lookup key)), map.lookup key)) fuel depth =
          some (node', node.find key) ∧
      Ok route node' depth p ∧ Puts node node' key (some (edit (node.find key))) := by
  induction fuel generalizing node depth p with
  | zero => cases node <;> cases hfuel
  | succ fuel ih =>
    obtain ⟨grown, hgrow, hok, hfind, hempty⟩ := @grow_ok _ _ route key _ _ _ _ LEAF h
    have hputs : ∀ {node' : Node K V} {v : Option V}, Puts grown node' key v →
        Puts node node' key v := fun hp k => by rw [hp k, hfind]
    rw [entry, hgrow, ← hfind key]
    cases grown with
    | empty =>
      -- The leaf is made, and the loop turns again at this depth.
      have hnode := hempty.mpr rfl
      rw [hnode, turns] at hfuel
      obtain ⟨node', hnode', hok', hputs'⟩ := ih hkey
        (show Ok route (.leaf ∅) depth p from fun e he => absurd he not_mem_nil)
        (Nat.le_of_succ_le_succ hfuel)
      exact ⟨node', hnode', hok', hputs hputs'⟩
    | leaf map => exact ⟨_, rfl, (leaf_insert hok hkey _).1, hputs (leaf_insert hok hkey _).2⟩
    | branch kids =>
      obtain ⟨s, hs⟩ := exists_slot (route key) hok.1
      have hne : node ≠ .empty := fun heq => by cases hempty.mp heq
      have hturns : turns (depth + 1) (kids s) ≤ fuel := by
        have hlast := hok.1
        have hle := turns_le (depth + 1) (kids s)
        have hhere : turns depth node = 2 * (MAX_DEPTH + 1 - depth) + 1 := by
          cases node with
          | empty => exact absurd rfl hne
          | leaf map => rfl
          | branch kids => rfl
        omega
      obtain ⟨kid, hkid, hok', hputs'⟩ := ih ⟨hkey, hs⟩ (hok.2 s) hturns
      obtain ⟨hbranch, hall⟩ := hok.update hs hok' hputs'
      rw [hok.find_branch hs]
      refine ⟨_, ?_, hbranch, hputs hall⟩
      simp only [hs, hkid, bind_eq_bind, bind_some]

/-! ### Removal -/

/-- Removing a key that is there; a leaf at the last depth is reached through its branch. -/
theorem removeAt_ok (LEAF : ℕ) (h : Ok route node depth p) {v : V} (hget : node.find key = some v)
    (hdepth : ∀ map, node = .leaf map → depth ≤ MAX_DEPTH) :
    ∃ node', node.removeAt LEAF route key depth = some (node', some v) ∧
      Ok route node' depth p ∧ Puts node node' key none := by
  induction node generalizing depth p with
  | empty => cases hget
  | leaf map =>
    obtain ⟨s, hs⟩ := exists_slot (route key) (hdepth map rfl)
    have hlookup : map.lookup key = some v := hget
    refine ⟨.leaf (map.erase key), ?_, fun e he => h e (mem_erase he), lookup_erase map key⟩
    rw [removeAt, hs, hlookup]
    rfl
  | branch kids ih =>
    obtain ⟨s, hs⟩ := exists_slot (route key) h.1
    have hkid : (kids s).find key = some v := (h.find_branch hs).symm.trans hget
    have hok := h.2 s
    simp only [removeAt, hs, bind_eq_bind, bind_some]
    cases hcase : kids s with
    | empty =>
      rw [hcase] at hkid
      cases hkid
    | leaf map =>
      rw [hcase] at hkid hok
      have hlookup : map.lookup key = some v := hkid
      have herased : Puts (kids s) (ofMap (map.erase key)) key none := fun k => by
        rw [hcase, find, iter_ofMap]
        exact lookup_erase map key k
      obtain ⟨hok', hputs⟩ := h.update hs (ok_ofMap fun e he => hok e (mem_erase he)) herased
      obtain ⟨hfolded, hsame⟩ := hok'.folded LEAF (map.erase key).entries.length
      exact ⟨_, by simp only [hlookup], hfolded, fun k => (hsame k).trans (hputs k)⟩
    | branch kids' =>
      obtain ⟨kid, hremove, hok', hputs⟩ := ih s hok hkid fun map heq => by
        rw [hcase] at heq
        cases heq
      refine ⟨_, ?_, h.update hs hok' hputs⟩
      rw [hcase] at hremove
      simp only [hremove, bind_some]

end Node

end HashTrie

end LoraDb
