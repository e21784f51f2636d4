import LoraDb.OrdMapReads

/-!
# Runs of Ordered Maps

Maps are made empty or from ascending entries, cloned, read and written. Whatever the order, they
answer as **sorted maps** do, and no operation meets a table it takes for granted to be non-empty
and is not.

## Main results

* `step_refines`: one operation.
* `cowOrdMap_refines`: a run.
-/

open List SortedRuns Handles SortedMap

namespace LoraDb

namespace OrdMap

open StrIndex (Bound)

variable {K V : Type} [LinearOrder K]

/-- How a map is made. -/
inductive Init (K V : Type) [LinearOrder K]
  | empty
  | fromSorted (es : List (K × V)) (ascending : Sorted es)

/-- An operation on a map. -/
inductive OrdMapOp (K V : Type)
  | get (key : K)
  | getMut (key : K) (change : V → V)
  | getOrInsertWith (key : K) (make : V) (change : V → V)
  | upsert (key : K) (make : V) (update : V → V)
  | remove (key : K)
  | len
  | iter
  | floor (key : K)
  | range (lower upper : Bound K) (descending : Bool)

/-- What an operation **answers**. -/
inductive Answer (K V : Type)
  | value (v : Option V)
  | count (n : ℕ)
  | entry (e : Option (K × V))
  | entries (es : List (K × V))
  | done

/-- Entries from either end. -/
def directed (descending : Bool) (es : List (K × V)) : List (K × V) :=
  if descending then es.reverse else es

def make (PART : ℕ) : Init K V → Option (CowOrdMap K V)
  | .empty => some .empty
  | .fromSorted es _ => CowOrdMap.fromSorted PART es

def step (PART : ℕ) : OrdMapOp K V → CowOrdMap K V → Option (Option (CowOrdMap K V) × Answer K V)
  | .get key, m => (m.get key).map fun v => (some m, .value v)
  | .getMut key change, m => (m.getMut key change).map fun out => (some out.1, .value out.2)
  | .getOrInsertWith key make change, m =>
    (m.getOrInsertWith PART key make change).map fun out => (some out.1, .value out.2)
  | .upsert key make update, m => (m.upsert PART key make update).map fun m => (some m, .done)
  | .remove key, m => (m.remove PART key).map fun out => (some out.1, .value out.2)
  | .len, m => some (some m, .count m.len)
  | .iter, m => some (some m, .entries m.iter)
  | .floor key, m => (m.floor key).map fun e => (some m, .entry e)
  | .range lower upper descending, m =>
    (m.range lower upper).map fun es => (some m, .entries (directed descending es))

/-- A sorted map, as its entries. -/
def specMake : Init K V → Option (List (K × V))
  | .empty => some []
  | .fromSorted es _ => some es

def specStep : OrdMapOp K V → List (K × V) → Option (Option (List (K × V)) × Answer K V)
  | .get key, es => some (some es, .value (get? key es))
  | .getMut key change, es =>
    some (some ((get? key es).elim es fun v => SortedMap.put key (change v) es),
      .value (get? key es))
  | .getOrInsertWith key make change, es =>
    let old := (get? key es).getD make
    some (some (SortedMap.put key (change old) es), .value (some old))
  | .upsert key make update, es =>
    some (some (SortedMap.put key ((get? key es).elim make update) es), .done)
  | .remove key, es => some (some (SortedMap.erase key es), .value (get? key es))
  | .len, es => some (some es, .count es.length)
  | .iter, es => some (some es, .entries es)
  | .floor key, es => some (some es, .entry (es.filter fun e => decide (e.1 ≤ key)).getLast?)
  | .range lower upper descending, es =>
    some (some es, .entries (directed descending (es.filter (within lower upper))))

/-- A map holds what a sorted map does, and its recorded smallest keys are true. -/
structure Refines (m : CowOrdMap K V) (es : List (K × V)) : Prop where
  root : RootOk m.groups
  entries : entriesOf m.groups = es
  len : m.len = es.length

namespace Refines

variable {m : CowOrdMap K V} {es : List (K × V)}

theorem sorted (h : Refines m es) : Sorted es := h.entries ▸ h.root.sorted

theorem iter (h : Refines m es) : m.iter = es := h.entries

theorem insertNew {PART : ℕ} (hPART : 2 ≤ PART) (h : Refines m es) {key : K}
    (hnew : get? key es = none) (v : V) :
    ∃ m', m.insertNew PART key v = some m' ∧ Refines m' (SortedMap.put key v es) := by
  obtain ⟨root, hroot, hok, hentries⟩ :=
    CowOrdMap.insertNew_ok hPART h.root (by rwa [h.entries]) v
  refine ⟨_, hroot, hok, by rw [hentries, h.entries], ?_⟩
  rw [h.sorted.length_put, hnew, h.len]
  rfl

theorem getMut (h : Refines m es) (key : K) (change : V → V) :
    ∃ m', m.getMut key change = some (m', get? key es) ∧
      Refines m' ((get? key es).elim es fun v => SortedMap.put key (change v) es) := by
  obtain ⟨root, hroot, hok, hentries⟩ := CowOrdMap.getMut_ok h.root key change
  rw [h.entries] at hroot hentries
  refine ⟨_, hroot, hok, hentries, ?_⟩
  rw [h.len]
  cases hget : get? key es with
  | none => rfl
  | some v =>
    rw [Option.elim_some, h.sorted.length_put, hget]
    rfl

theorem getOrInsertWith {PART : ℕ} (hPART : 2 ≤ PART) (h : Refines m es) (key : K) (make : V)
    (change : V → V) :
    ∃ m', m.getOrInsertWith PART key make change = some (m', some ((get? key es).getD make)) ∧
      Refines m' (SortedMap.put key (change ((get? key es).getD make)) es) := by
  rw [CowOrdMap.getOrInsertWith, CowOrdMap.get_ok h.root, h.entries]
  cases hget : get? key es with
  | none =>
    obtain ⟨m', hm', h'⟩ := h.insertNew hPART hget make
    obtain ⟨m'', hm'', h''⟩ := h'.getMut key change
    rw [get?_put, if_pos rfl] at hm'' h''
    rw [Option.elim_some, h.sorted.put_put] at h''
    refine ⟨m'', ?_, h''⟩
    simp only [Option.bind_eq_bind, Option.bind_some, hm', hm'', Option.getD_none]
  | some v =>
    obtain ⟨m', hm', h'⟩ := h.getMut key change
    rw [hget] at hm' h'
    exact ⟨m', hm', h'⟩

theorem upsert {PART : ℕ} (hPART : 2 ≤ PART) (h : Refines m es) (key : K) (make : V)
    (update : V → V) :
    ∃ m', m.upsert PART key make update = some m' ∧
      Refines m' (SortedMap.put key ((get? key es).elim make update) es) := by
  rw [CowOrdMap.upsert, CowOrdMap.get_ok h.root, h.entries]
  cases hget : get? key es with
  | none => exact h.insertNew hPART hget make
  | some v =>
    obtain ⟨m', hm', h'⟩ := h.getMut key update
    rw [hget] at hm' h'
    refine ⟨m', ?_, h'⟩
    simp only [Option.bind_eq_bind, Option.bind_some, hm']

theorem remove (h : Refines m es) (PART : ℕ) (key : K) :
    ∃ m', m.remove PART key = some (m', get? key es) ∧ Refines m' (SortedMap.erase key es) := by
  obtain ⟨m', hm', hok, hentries, hlen⟩ := CowOrdMap.remove_ok h.root PART key
  rw [h.entries] at hm' hentries hlen
  refine ⟨m', hm', hok, hentries, ?_⟩
  rw [hlen, h.len]
  cases hget : get? key es with
  | none =>
    rw [h.sorted.erase_absent key hget]
    rfl
  | some v =>
    rw [h.sorted.length_erase key hget]
    rfl

end Refines

theorem make_refines {PART : ℕ} (hPART : 2 ≤ PART) (init : Init K V) :
    ∃ m es, make PART init = some m ∧ specMake init = some es ∧ Refines m es := by
  cases init with
  | empty =>
    exact ⟨.empty, [], rfl, rfl,
      ⟨fun _ hs => absurd hs not_mem_nil, fun _ hs => absurd hs not_mem_nil, .nil⟩, rfl, rfl⟩
  | fromSorted es hsorted =>
    obtain ⟨m, hm, hok, hentries, hlen⟩ :=
      CowOrdMap.fromSorted_ok (Nat.lt_of_lt_of_le Nat.zero_lt_two hPART) hsorted
    exact ⟨m, es, hm, rfl, hok, hentries, hlen⟩

theorem step_refines {PART : ℕ} (hPART : 2 ≤ PART) (op : OrdMapOp K V) (m : CowOrdMap K V)
    (es : List (K × V)) (h : Refines m es) :
    ∃ m' es' answer, step PART op m = some (m', answer) ∧
      specStep op es = some (es', answer) ∧ Option.Rel Refines m' es' := by
  cases op with
  | get key =>
    exact ⟨_, _, _, by rw [step, CowOrdMap.get_ok h.root, h.entries]; rfl, rfl, .some h⟩
  | getMut key change =>
    obtain ⟨m', hm', h'⟩ := h.getMut key change
    exact ⟨_, _, _, by rw [step, hm']; rfl, rfl, .some h'⟩
  | getOrInsertWith key make change =>
    obtain ⟨m', hm', h'⟩ := h.getOrInsertWith hPART key make change
    exact ⟨_, _, _, by rw [step, hm']; rfl, rfl, .some h'⟩
  | upsert key make update =>
    obtain ⟨m', hm', h'⟩ := h.upsert hPART key make update
    exact ⟨_, _, _, by rw [step, hm']; rfl, rfl, .some h'⟩
  | remove key =>
    obtain ⟨m', hm', h'⟩ := h.remove PART key
    exact ⟨_, _, _, by rw [step, hm']; rfl, rfl, .some h'⟩
  | len => exact ⟨_, _, _, rfl, by rw [specStep, ← h.len], .some h⟩
  | iter => exact ⟨_, _, _, rfl, by rw [specStep, ← h.iter], .some h⟩
  | floor key =>
    exact ⟨_, _, _, by rw [step, CowOrdMap.floor_ok h.root, h.entries]; rfl, rfl, .some h⟩
  | range lower upper descending =>
    exact ⟨_, _, _, by rw [step, CowOrdMap.range_ok h.root, h.entries]; rfl, rfl, .some h⟩

/-- **The ordered map refines a sorted map.** In every run of maps made empty or from ascending
entries, cloned, read and written, whatever the size of a partition, all answers are those of
sorted maps, the maps hold what those hold, and every recorded smallest key is the true one. -/
theorem cowOrdMap_refines (PART : ℕ) (hPART : 2 ≤ PART)
    (ops : List (HandleOp (Init K V) (OrdMapOp K V))) :
    ∃ ms es answers, run (make PART) (step PART) ops [] = some (ms, answers) ∧
      run specMake specStep ops [] = some (es, answers) ∧ Alike Refines ms es :=
  run_alike (make_refines hPART) (step_refines hPART) ops .nil

/-- A new smallest key, splits, a clone and a range the wrong way round. -/
theorem cowOrdMap_refines_two : ∃ ms es answers, run (make 2) (step 2)
        [.make .empty, .on 0 (.upsert 3 "c" id), .on 0 (.upsert 1 "a" id), .on 0 (.upsert 2 "b" id),
          .clone 0, .on 0 (.remove 1), .on 1 (.range (.included 1) (.excluded 3) true),
          .on 1 (.range (.included 3) (.included 1) false)] [] = some (ms, answers) ∧
      run specMake specStep
        [.make .empty, .on 0 (.upsert 3 "c" id), .on 0 (.upsert 1 "a" id), .on 0 (.upsert 2 "b" id),
          .clone 0, .on 0 (.remove 1), .on 1 (.range (.included 1) (.excluded 3) true),
          .on 1 (.range (.included 3) (.included 1) false)] [] = some (es, answers) ∧
      Alike (Refines (K := ℕ) (V := String)) ms es :=
  cowOrdMap_refines 2 (by decide) _

end OrdMap

end LoraDb
