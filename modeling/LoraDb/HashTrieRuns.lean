import LoraDb.HashTrieWalks

/-!
# Runs of Hash Maps

Maps are made empty, shaped, or of parts built apart; they are cloned, read and written. Whatever
the routes of the keys and the size of a leaf, they answer as **finite maps** do, and no walk ever
asks a hash for more fields than it has.

## Main results

* `Refines.write`, `Refines.getMut`, `Refines.remove`: one operation.
* `fromSlots_refines`: parts put together.
* `cowMap_refines`: a run.
-/

open List Handles

namespace LoraDb

namespace HashTrie

variable {K V : Type} [DecidableEq K]

/-- A finite map. -/
abbrev Table (K V : Type) := Finmap fun _ : K => V

/-- A write to a map. -/
inductive Write (K V : Type)
  | insert (key : K) (value : V)
  | getOrInsertWith (key : K) (make : V) (change : V → V)
  | upsert (key : K) (make : V) (update : V → V)
  | getMut (key : K) (change : V → V)
  | remove (key : K)

namespace Write

def key : Write K V → K
  | insert key _ => key
  | getOrInsertWith key _ _ => key
  | upsert key _ _ => key
  | getMut key _ => key
  | remove key => key

/-- The value after a write, of the one before. -/
def effect : Write K V → Option V → Option V
  | insert _ value, _ => some value
  | getOrInsertWith _ make change, old => some (change (old.getD make))
  | upsert _ make update, old => some (old.elim make update)
  | getMut _ change, old => old.map change
  | remove _, _ => none

/-- What a write answers: for `getOrInsertWith`, the value its reference is to. -/
def answer : Write K V → Option V → Option V
  | insert _ _, old => old
  | getOrInsertWith _ make _, old => some (old.getD make)
  | upsert _ _ _, _ => none
  | getMut _ _, old => old
  | remove _, old => old

def apply (LEAF : ℕ) (route : K → UInt64) (w : Write K V) (m : CowMap K V) :
    Option (CowMap K V × Option V) :=
  match w with
  | insert key value => m.insert LEAF route key value
  | getOrInsertWith key make change =>
    (m.getOrInsertWith LEAF route key make change).map fun out => (out.1, some (out.2.getD make))
  | upsert key make update =>
    (m.upsert LEAF route key make update).map fun out => (out.1, none)
  | getMut key change => m.getMut route key change
  | remove key => m.remove LEAF route key

/-- A write to a finite map. -/
def spec (w : Write K V) (table : Table K V) : Table K V :=
  match w.effect (table.lookup w.key) with
  | none => table.erase w.key
  | some v => table.insert w.key v

end Write

/-- A part of a map to come: its slot, the routes it is shaped for, and the writes that fill it. -/
structure Part (K V : Type) where
  slot : Fin FAN
  routes : List UInt64
  writes : List (Write K V)

/-- Parts **split** by the top slot of their keys. -/
structure Split (route : K → UInt64) (parts : List (Part K V)) : Prop where
  apart : (parts.map Part.slot).Nodup
  own : ∀ part ∈ parts, ∀ w ∈ part.writes, slot (route w.key) 0 = some part.slot

/-- How a map is made. -/
inductive Init (K V : Type) (route : K → UInt64)
  | empty
  | withShape (routes : List UInt64)
  | fromSlots (parts : List (Part K V)) (split : Split route parts)

/-- An operation on a map. -/
inductive MapOp (K V : Type)
  | get (key : K)
  | len
  | iter
  | write (w : Write K V)

/-- What an operation answers. The order of an iteration is unspecified. -/
inductive Answer (K V : Type)
  | value (v : Option V)
  | count (n : ℕ)
  | entries (es : Multiset (Entry K V))

section Steps

variable (LEAF : ℕ) (route : K → UInt64)

def applyAll (ws : List (Write K V)) (m : CowMap K V) : Option (CowMap K V) :=
  ws.foldlM (fun m w => (w.apply LEAF route m).map Prod.fst) m

def build (part : Part K V) : Option (Fin FAN × CowMap K V) := do
  let m ← CowMap.withShape LEAF part.routes
  let m ← applyAll LEAF route part.writes m
  some (part.slot, m)

def make : Init K V route → Option (CowMap K V)
  | .empty => some .empty
  | .withShape routes => CowMap.withShape LEAF routes
  | .fromSlots parts _ => do CowMap.fromSlots LEAF route (← parts.mapM (build LEAF route))

def step : MapOp K V → CowMap K V → Option (Option (CowMap K V) × Answer K V)
  | .get key, m => (m.get route key).map fun v => (some m, .value v)
  | .len, m => some (some m, .count m.len)
  | .iter, m => some (some m, .entries m.iter)
  | .write w, m => (w.apply LEAF route m).map fun out => (some out.1, .value out.2)

end Steps

/-- All writes of all parts, one after the other. -/
def allWrites (parts : List (Part K V)) : List (Write K V) := parts.flatMap Part.writes

def specMake {route : K → UInt64} : Init K V route → Option (Table K V)
  | .empty => some ∅
  | .withShape _ => some ∅
  | .fromSlots parts _ => some ((allWrites parts).foldl (fun table w => w.spec table) ∅)

def specStep : MapOp K V → Table K V → Option (Option (Table K V) × Answer K V)
  | .get key, table => some (some table, .value (table.lookup key))
  | .len, table => some (some table, .count table.keys.card)
  | .iter, table => some (some table, .entries table.entries)
  | .write w, table => some (some (w.spec table), .value (w.answer (table.lookup w.key)))

/-! ### Finite maps -/

theorem lookup_spec (w : Write K V) (table : Table K V) (k : K) : (w.spec table).lookup k =
      if k = w.key then w.effect (table.lookup w.key) else table.lookup k := by
  rw [Write.spec]
  cases w.effect (table.lookup w.key) with
  | none =>
    split_ifs with heq
    · rw [heq, Finmap.lookup_erase]
    · rw [Finmap.lookup_erase_ne heq]
  | some v =>
    split_ifs with heq
    · rw [heq, Finmap.lookup_insert]
    · rw [Finmap.lookup_insert_of_ne _ heq]

theorem keys_insert (table : Table K V) (key : K) (v : V) :
    (table.insert key v).keys = insert key table.keys := by
  ext k
  rw [Finset.mem_insert, Finmap.mem_keys, Finmap.mem_keys, Finmap.mem_insert]

theorem mem_of_lookup {table : Table K V} {key : K} {v : V} (h : table.lookup key = some v) :
    key ∈ table.keys := Finmap.mem_keys.mpr (Finmap.mem_of_lookup_eq_some h)

theorem notMem_of_lookup {table : Table K V} {key : K} (h : table.lookup key = none) :
    key ∉ table.keys := fun hmem => Finmap.lookup_eq_none.mp h (Finmap.mem_keys.mp hmem)

/-- A map holds what a finite map does, every key on its route. -/
structure Refines (route : K → UInt64) (m : CowMap K V) (table : Table K V) : Prop where
  root : m.root.Ok route 0 fun _ => True
  find : ∀ k, m.root.find k = table.lookup k
  len : m.len = table.keys.card

namespace Refines

variable {route : K → UInt64} {m : CowMap K V} {table : Table K V}

/-- Each entry once. -/
theorem iter (h : Refines route m table) : (m.iter : Multiset (Entry K V)) = table.entries := by
  have hsame : (AList.mk m.iter h.root.nodupKeys).toFinmap = table :=
    Finmap.ext_lookup fun k => (Finmap.lookup_toFinmap k _).trans (h.find k)
  exact congrArg Finmap.entries hsame

theorem get (h : Refines route m table) (key : K) : m.get route key = some (table.lookup key) := by
  rw [CowMap.get, Node.lookupRouted_ok h.root, h.find]

theorem of_find {node : Node K V} {table' : Table K V} (hok : node.Ok route 0 fun _ => True)
    (hfind : ∀ k, node.find k = table'.lookup k) : Refines route ⟨node, table'.keys.card⟩ table' :=
  ⟨hok, hfind, rfl⟩

/-- An entry written. -/
theorem write (h : Refines route m table) (LEAF : ℕ) (key : K) (edit : Option V → V) :
    ∃ m', m.write LEAF route key edit = some (m', table.lookup key) ∧
      Refines route m' (table.insert key (edit (table.lookup key))) := by
  obtain ⟨node, hnode, hok, hputs⟩ := @Node.entry_ok _ _ _ key _ _ _ _ LEAF edit trivial
    (2 * (MAX_DEPTH + 2)) h.root (Node.turns_le 0 m.root)
  rw [h.find] at hnode hputs
  refine ⟨⟨node, if (table.lookup key).isNone then m.len + 1 else m.len⟩, ?_, hok, fun k => ?_, ?_⟩
  · rw [CowMap.write, hnode]
    rfl
  · rw [hputs k, h.find]
    split_ifs with heq
    · rw [heq, Finmap.lookup_insert]
    · rw [Finmap.lookup_insert_of_ne _ heq]
  · rw [keys_insert, h.len]
    cases hget : table.lookup key with
    | none =>
      rw [Finset.card_insert_of_notMem (notMem_of_lookup hget)]
      rfl
    | some v =>
      rw [Finset.insert_eq_of_mem (mem_of_lookup hget)]
      rfl

theorem getMut (h : Refines route m table) (key : K) (change : V → V) :
    ∃ m', m.getMut route key change = some (m', table.lookup key) ∧
      Refines route m' ((Write.getMut key change).spec table) := by
  rw [CowMap.getMut, h.get, Write.spec]
  cases hget : table.lookup key with
  | none =>
    have hkeep : ∀ k, table.lookup k = (table.erase key).lookup k := fun k => by
      rcases eq_or_ne k key with rfl | hne
      · rw [hget, Finmap.lookup_erase]
      · rw [Finmap.lookup_erase_ne hne]
    have hsame : (Write.getMut key change).effect (table.lookup key) = none := by
      rw [hget]
      rfl
    refine ⟨m, rfl, ?_⟩
    simp only [Write.key, hsame]
    rw [← Finmap.ext_lookup hkeep]
    exact h
  | some v =>
    obtain ⟨node, hnode, hok, hputs⟩ := @Node.getMutRouted_ok _ _ _ key _ _ _ _ h.root change
    rw [h.find, hget] at hnode hputs
    have hsome : (Write.getMut key change).effect (table.lookup key) = some (change v) := by
      rw [hget]
      rfl
    refine ⟨⟨node, m.len⟩, ?_, ?_⟩
    · simp only [Option.bind_eq_bind, Option.bind_some, hnode]
    · simp only [Write.key, hsome]
      refine ⟨hok, fun k => ?_, ?_⟩
      · rw [hputs k, h.find]
        split_ifs with heq
        · rw [heq, Finmap.lookup_insert]
          rfl
        · rw [Finmap.lookup_insert_of_ne _ heq]
      · rw [keys_insert, Finset.insert_eq_of_mem (mem_of_lookup hget), h.len]

theorem remove (h : Refines route m table) (LEAF : ℕ) (key : K) :
    ∃ m', m.remove LEAF route key = some (m', table.lookup key) ∧
      Refines route m' (table.erase key) := by
  rw [CowMap.remove, h.get]
  have hlookup : ∀ k, (table.erase key).lookup k = if k = key then none else table.lookup k := by
    intro k
    split_ifs with heq
    · rw [heq, Finmap.lookup_erase]
    · rw [Finmap.lookup_erase_ne heq]
  have hcard := congrArg Finset.card (Finmap.keys_erase key table)
  cases hget : table.lookup key with
  | none =>
    rw [Finset.erase_eq_of_notMem (notMem_of_lookup hget)] at hcard
    refine ⟨m, rfl, h.root, fun k => ?_, h.len.trans hcard.symm⟩
    rw [hlookup, h.find]
    split_ifs with heq
    · rw [heq, hget]
    · rfl
  | some v =>
    rw [Finset.card_erase_of_mem (mem_of_lookup hget), ← h.len] at hcard
    have hfind : m.root.find key = some v := (h.find key).trans hget
    simp only [Option.bind_eq_bind, Option.bind_some]
    split_ifs with hlast
    · -- The last entry: whatever branches are left go.
      rw [hlast, Finset.card_eq_zero] at hcard
      refine ⟨.empty, ?_, trivial, fun k => ?_, ?_⟩
      · rw [h.root.lookup_drainInto, hfind]
      · exact (Finmap.lookup_eq_none.mpr fun hmem =>
          Finset.notMem_empty k (hcard ▸ Finmap.mem_keys.mpr hmem)).symm
      · rw [hcard]
        rfl
    · obtain ⟨node, hnode, hok, hputs⟩ :=
        Node.removeAt_ok LEAF h.root hfind fun _ _ => Nat.zero_le _
      refine ⟨⟨node, m.len - 1⟩, by rw [hnode]; rfl, hok, fun k => ?_, hcard.symm⟩
      rw [hputs k, h.find, hlookup]

/-- Any write. -/
theorem apply (h : Refines route m table) (LEAF : ℕ) (w : Write K V) :
    ∃ m', w.apply LEAF route m = some (m', w.answer (table.lookup w.key)) ∧
      Refines route m' (w.spec table) := by
  cases w with
  | insert key value => exact h.write LEAF key fun _ => value
  | getOrInsertWith key make change =>
    obtain ⟨m', hm', h'⟩ := h.write LEAF key fun old => change (old.getD make)
    exact ⟨m', by rw [Write.apply, CowMap.getOrInsertWith, hm']; rfl, h'⟩
  | upsert key make update =>
    obtain ⟨m', hm', h'⟩ := h.write LEAF key fun old => old.elim make update
    exact ⟨m', by rw [Write.apply, CowMap.upsert, hm']; rfl, h'⟩
  | getMut key change => exact h.getMut key change
  | remove key => exact h.remove LEAF key

theorem applyAll (h : Refines route m table) (LEAF : ℕ) (ws : List (Write K V)) :
    ∃ m', HashTrie.applyAll LEAF route ws m = some m' ∧
      Refines route m' (ws.foldl (fun table w => w.spec table) table) := by
  induction ws generalizing m table with
  | nil => exact ⟨m, rfl, h⟩
  | cons w ws ih =>
    obtain ⟨m₁, hm₁, h₁⟩ := h.apply LEAF w
    obtain ⟨m₂, hm₂, h₂⟩ := ih h₁
    refine ⟨m₂, ?_, h₂⟩
    rw [HashTrie.applyAll, foldlM_cons, hm₁]
    exact hm₂

end Refines

theorem withShape_refines (route : K → UInt64) (LEAF : ℕ) (routes : List UInt64) :
    ∃ m : CowMap K V, CowMap.withShape LEAF routes = some m ∧ Refines route m ∅ := by
  obtain ⟨root, hroot, hok, hiter⟩ :=
    @Node.shape_ok K V route 0 LEAF (routes.mergeSort).dedup (MAX_DEPTH + 2) le_rfl (Nat.zero_le _)
  refine ⟨⟨root, 0⟩, ?_, hok _, fun k => ?_, rfl⟩
  · rw [CowMap.withShape, hroot]
    rfl
  · rw [Node.find, hiter, Finmap.lookup_empty]
    rfl

end HashTrie

end LoraDb
