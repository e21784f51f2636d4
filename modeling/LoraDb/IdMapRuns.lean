import LoraDb.IdMapSound

/-!
# Runs of Posting Maps

Maps are made empty, cloned, read and written. Whatever the order, they answer as **sorted
maps** do, and no operation meets a table it takes for granted to be non-empty and is not.

## Main results

* `CowIdMap.insert_ok`, `CowIdMap.getMut_ok`, `CowIdMap.remove_ok`: one operation.
* `idMap_refines`: a run.
-/

open Option (bind_eq_bind bind_some elim_none elim_some map_some)
open List SortedRuns Handles SortedMap

namespace LoraDb

namespace IdMap

variable {V : Type}

/-- An operation on a map. -/
inductive IdMapOp (V : Type)
  | get (id : ℕ)
  | len
  | iter
  | insert (id : ℕ) (value : V)
  | getMut (id : ℕ) (change : V → V)
  | remove (id : ℕ)

/-- What an operation **answers**. -/
inductive Answer (V : Type)
  | value (v : Option V)
  | count (n : ℕ)
  | entries (es : List (ℕ × V))

def make : Unit → Option (CowIdMap V) := fun _ => some .empty

def step (size : ℕ) : IdMapOp V → CowIdMap V → Option (Option (CowIdMap V) × Answer V)
  | .get id, m => (m.get id).map fun v => (some m, .value v)
  | .len, m => some (some m, .count m.len)
  | .iter, m => some (some m, .entries m.iter)
  | .insert id value, m => (m.insert size id value).map fun out => (some out.1, .value out.2)
  | .getMut id change, m => (m.getMut id change).map fun out => (some out.1, .value out.2)
  | .remove id, m => (m.remove size id).map fun out => (some out.1, .value out.2)

/-- A sorted map from ids, as its entries. -/
def specMake : Unit → Option (List (ℕ × V)) := fun _ => some []

def specStep : IdMapOp V → List (ℕ × V) → Option (Option (List (ℕ × V)) × Answer V)
  | .get id, es => some (some es, .value (get? id es))
  | .len, es => some (some es, .count es.length)
  | .iter, es => some (some es, .entries es)
  | .insert id value, es => some (some (SortedMap.put id value es), .value (get? id es))
  | .getMut id change, es =>
    some (some ((get? id es).elim es fun v => SortedMap.put id (change v) es), .value (get? id es))
  | .remove id, es => some (some (SortedMap.erase id es), .value (get? id es))

/-- In the large form every recorded largest id is the true one. -/
def LargestTrue (m : CowIdMap V) : Prop :=
  ∀ root, m.repr = .large root → ∀ s ∈ root, Largest Prod.fst s.1 (flat s.2) ∧ ChunksTrue s.2

/-- A map that is a sorted map. -/
structure Refines (m : CowIdMap V) (es : List (ℕ × V)) : Prop where
  iter : m.iter = es
  sorted : Sorted es
  len : m.len = es.length
  nonempty : ∀ root, m.repr = .large root → root ≠ []
  largest : LargestTrue m

theorem refines_empty : Refines (.empty : CowIdMap V) [] :=
  ⟨rfl, sorted_nil, rfl, fun _ heq => (by cases heq), fun _ heq => (by cases heq)⟩

theorem iter_large (root : Root V) (n : ℕ) : CowIdMap.iter ⟨.large root, n⟩ = entriesOf root :=
  (flat_eq root).symm

theorem refines_large {root : Root V} {n : ℕ} (h : RootOk root) (hne : root ≠ [])
    (hn : n = (entriesOf root).length) : Refines ⟨.large root, n⟩ (entriesOf root) := by
  refine ⟨iter_large root n, h.sorted, hn, fun root' heq => ?_, fun root' heq s hs => ?_⟩
  · exact Repr.large.inj heq ▸ hne
  · obtain rfl := Repr.large.inj heq
    exact ⟨h.groups s hs, h.chunks s hs⟩

theorem refines_small {chunk : Chunk V} {n : ℕ} (h : Sorted chunk)
    (hn : n = chunk.length) : Refines ⟨.small chunk, n⟩ chunk :=
  ⟨rfl, h, hn, fun _ heq => (by cases heq), fun _ heq => (by cases heq)⟩

theorem root_ne_nil {root : Root V} (h : entriesOf root ≠ []) : root ≠ [] := by
  rintro rfl
  exact h rfl

theorem put_ne_nil (id : ℕ) (v : V) (es : List (ℕ × V)) : SortedMap.put id v es ≠ [] := by
  intro hnil
  have hget := get?_put id id v es
  rw [hnil, if_pos rfl] at hget
  cases hget

namespace CowIdMap

variable {m : CowIdMap V} {es : List (ℕ × V)} {chunk : Chunk V}

theorem lookup_ok (id : ℕ) (h : Sorted chunk) : get.lookup id chunk = some (get? id chunk) := by
  have hfinds := search_finds id (show Ascends Prod.fst chunk from h)
  rw [get.lookup, binarySearch]
  generalize search Prod.fst id chunk = out at hfinds ⊢
  cases hfinds with
  | @here as bs a hes ha has hbs =>
    obtain ⟨k, old⟩ := a
    obtain rfl : k = id := ha
    have hget := (@SortedMap.found _ _ _ _ as bs old has).1
    simp only [hes, getElem?_mid, hget, map_some]
  | @absent as bs hes has hbs =>
    simp only [hes, (SortedMap.absent has hbs).1]

theorem changeIn_ok (id : ℕ) (change : V → V) (h : Sorted chunk) :
    getMut.changeIn id change chunk = some ((get? id chunk).elim chunk
      fun v => SortedMap.put id (change v) chunk, get? id chunk) := by
  have hfinds := search_finds id (show Ascends Prod.fst chunk from h)
  rw [getMut.changeIn, binarySearch]
  generalize search Prod.fst id chunk = out at hfinds ⊢
  cases hfinds with
  | @here as bs a hes ha has hbs =>
    obtain ⟨k, old⟩ := a
    obtain rfl : k = id := ha
    obtain ⟨hget, hput, -⟩ := @SortedMap.found _ _ _ _ as bs old has
    simp only [hes, getElem?_mid, set_mid, hget, hput, map_some, elim_some]
  | @absent as bs hes has hbs =>
    simp only [hes, (SortedMap.absent has hbs).1, elim_none]

/-- The entries of a map, and how they are kept. -/
@[elab_as_elim]
theorem Refines.cases {motive : CowIdMap V → List (ℕ × V) → Prop} (h : Refines m es)
    (empty : ∀ n, n = 0 → motive ⟨.empty, n⟩ [])
    (small : ∀ chunk n, Sorted chunk → n = chunk.length → motive ⟨.small chunk, n⟩ chunk)
    (large : ∀ root n, RootOk root → root ≠ [] → n = (entriesOf root).length →
      motive ⟨.large root, n⟩ (entriesOf root)) : motive m es := by
  obtain ⟨hiter, hsorted, hlen, hnonempty, hlargest⟩ := h
  obtain ⟨repr, n⟩ := m
  cases repr with
  | empty =>
    obtain rfl : [] = es := hiter
    exact empty n hlen
  | small chunk =>
    obtain rfl : chunk = es := hiter
    exact small chunk n hsorted hlen
  | large root =>
    obtain rfl : entriesOf root = es := (iter_large root n).symm.trans hiter
    exact large root n ⟨fun s hs => (hlargest root rfl s hs).1,
      fun s hs => (hlargest root rfl s hs).2, hsorted⟩ (hnonempty root rfl) hlen

theorem get_ok (h : Refines m es) (id : ℕ) : m.get id = some (get? id es) := by
  refine Refines.cases h (fun _ _ => rfl) (fun chunk _ hsorted _ => lookup_ok id hsorted)
    fun root _ hok hne _ => ?_
  obtain ⟨p⟩ := hok.place hne id
  have hchunk : get? id (entriesOf root) = get? id p.chunk := by
    rw [p.entries, SortedMap.get?_above (show ∀ e ∈ p.before, e.1 < id from p.below)]
    have hfinds := search_finds id (p.chunk_sorted hok)
    generalize search Prod.fst id p.chunk = out at hfinds
    cases hfinds with
    | @here as bs a hes ha has hbs =>
      obtain ⟨k, old⟩ := a
      obtain rfl : k = id := ha
      rw [hes, append_assoc, cons_append, (SortedMap.found has).1, (SortedMap.found has).1]
    | @absent as bs hes has hbs =>
      rw [hes, append_assoc, (SortedMap.absent has (p.behind' hbs)).1, (SortedMap.absent has hbs).1]
  rw [get, hchunk]
  simp only [p.get_root, p.get_group, bind_eq_bind, bind_some]
  exact lookup_ok id (p.chunk_sorted hok)

theorem chunkLen_pos (size : ℕ) : 32 ≤ chunkLen size := by
  rw [chunkLen]
  generalize 4096 / (if size = 0 then 1 else size) = fit
  split_ifs <;> omega

theorem intoLarge_ok {root : Root V} (size id : ℕ) (v : V) (hok : RootOk root) (hne : root ≠ [])
    (hlen : m.len = (entriesOf root).length) :
    ∃ m', insert.intoLarge size m id v root = some (m', get? id (entriesOf root)) ∧
      Refines m' (SortedMap.put id v (entriesOf root)) := by
  have hcap : 0 < chunkLen size := lt_of_lt_of_le (by decide) (chunkLen_pos size)
  obtain ⟨root', hroot', hok', hentries⟩ := @insertLarge_ok _ _ id _ hok hne hcap v
  rw [insert.intoLarge, hroot']
  refine ⟨_, rfl, ?_⟩
  rw [← hentries]
  refine refines_large hok' (root_ne_nil ?_) ?_
  · rw [hentries]
    exact put_ne_nil id v _
  · rw [hentries, hok.sorted.length_put id v, hlen]

/-- Insertion is that of a sorted map. -/
theorem insert_ok (h : Refines m es) (size id : ℕ) (v : V) :
    ∃ m', m.insert size id v = some (m', get? id es) ∧ Refines m' (SortedMap.put id v es) := by
  refine Refines.cases h (fun n hn => ?_) (fun chunk n hsorted hn => ?_)
    fun root n hok hne hn => intoLarge_ok size id v hok hne hn
  · exact ⟨_, rfl, refines_small (pairwise_singleton _ _) rfl⟩
  have hfinds := search_finds id (show Ascends Prod.fst chunk from hsorted)
  have hput := hsorted.put id v
  have hlen := hsorted.length_put id v
  rw [insert]
  dsimp only [binarySearch]
  generalize search Prod.fst id chunk = out at hfinds ⊢
  cases hfinds with
  | @here as bs a hes ha has hbs =>
    obtain ⟨k, old⟩ := a
    obtain rfl : k = id := ha
    obtain ⟨hget, hplace, -⟩ := @SortedMap.found _ _ _ _ as bs old has
    subst hes
    rw [hplace] at hput
    rw [hget, hplace]
    simp only [getElem?_mid, set_mid, bind_eq_bind, bind_some]
    refine ⟨_, rfl, refines_small hput (hn.trans ?_)⟩
    rw [length_append, length_append, length_cons, length_cons]
  | @absent as bs hes has hbs =>
    obtain ⟨hget, hplace, -⟩ := SortedMap.absent has hbs
    rw [hes, hplace] at hput hlen
    simp only [hes, insertIdx_mid]
    split_ifs with hroom
    · refine ⟨_, by rw [hget], ?_⟩
      rw [hplace]
      refine refines_small hput ?_
      rw [hlen, hget, hn, hes]
      rfl
    · -- The full chunk is one of a large map.
      have hfull : chunk ≠ [] := by
        rintro rfl
        have hcap := chunkLen_pos size
        rw [← hes] at hroom
        exact hroom (lt_of_lt_of_le (Nat.zero_lt_succ 31) hcap)
      obtain ⟨max, hmax, hlargest⟩ := chunkMax_largest hsorted hfull
      have hentries : entriesOf [(max, [(max, chunk)])] = chunk := by simp
      have hok : RootOk [(max, [(max, chunk)])] := by
        refine ⟨fun s hs => ?_, fun s hs => ?_, by rwa [hentries]⟩
        · rw [mem_singleton.mp hs]
          simpa using hlargest
        · rw [mem_singleton.mp hs]
          exact chunksTrue_singleton hlargest
      have hin := @intoLarge_ok _ ⟨.small chunk, n⟩ _ size id v hok (cons_ne_nil _ _)
        (by rw [hentries]; exact hn)
      rw [hentries, hes] at hin
      rw [← hes] at hin ⊢
      rw [hmax]
      exact hin

/-- Writing through a reference changes the value there and nothing else. -/
theorem getMut_ok (h : Refines m es) (id : ℕ) (change : V → V) :
    ∃ m', m.getMut id change = some (m', get? id es) ∧
      Refines m' ((get? id es).elim es fun v => SortedMap.put id (change v) es) := by
  refine Refines.cases h (fun n hn => ?_) (fun chunk n hsorted hn => ?_)
    fun root n hok hne hn => ?_
  · exact ⟨_, rfl, hn ▸ refines_empty⟩
  · rw [getMut]
    simp only [changeIn_ok id change hsorted, bind_eq_bind, bind_some]
    refine ⟨_, rfl, ?_⟩
    cases hget : get? id chunk with
    | none => exact refines_small hsorted hn
    | some v =>
      refine refines_small (hsorted.put id _) (hn.trans ?_)
      rw [elim_some, hsorted.length_put id, hget]
      rfl
  · obtain ⟨p⟩ := hok.place hne id
    have hchange := changeIn_ok id change (p.chunk_sorted hok)
    rw [getMut]
    simp only [p.get_root, p.get_group, bind_eq_bind, bind_some, hchange,
      p.set_group, p.set_root]
    have hfinds := search_finds id (p.chunk_sorted hok)
    generalize search Prod.fst id p.chunk = out at hfinds
    cases hfinds with
    | @here as bs a hes ha has hbs =>
      obtain ⟨k, old⟩ := a
      obtain rfl : k = id := ha
      obtain ⟨hget, hplace, -⟩ := @SortedMap.found _ _ _ _ as bs old has
      obtain ⟨hok', hentries⟩ := p.replace_ok hok hes has (change old)
      have hget' := (p.found hes has).1
      refine ⟨_, by rw [hes, hget, hget'], ?_⟩
      rw [hget', elim_some, elim_some, hplace, ← hentries]
      refine refines_large hok' (root_ne_nil ?_) ?_
      · rw [hentries]
        exact put_ne_nil k _ _
      · rw [hentries, hok.sorted.length_put k, hget', hn]
        rfl
    | @absent as bs hes has hbs =>
      have hget := (SortedMap.absent has hbs).1
      have hget' := (p.absent hes has hbs).1
      refine ⟨_, by rw [hes, hget, hget'], ?_⟩
      rw [hget', elim_none, elim_none, ← hes]
      have hsame : p.put [(p.rootMax, p.cs ++ (p.groupMax, p.chunk) :: p.cs')] = root :=
        p.root_eq.symm
      rw [hsame]
      exact refines_large hok hne hn

/-- Removal is that of a sorted map. -/
theorem remove_ok (h : Refines m es) (size id : ℕ) :
    ∃ m', m.remove size id = some (m', get? id es) ∧ Refines m' (SortedMap.erase id es) := by
  refine Refines.cases h (fun n hn => ?_) (fun chunk n hsorted hn => ?_)
    fun root n hok hne hn => ?_
  · exact ⟨_, rfl, hn ▸ refines_empty⟩
  · have hfinds := search_finds id (show Ascends Prod.fst chunk from hsorted)
    have herase := hsorted.erase id
    rw [remove]
    dsimp only [binarySearch]
    generalize search Prod.fst id chunk = out at hfinds ⊢
    cases hfinds with
    | @here as bs a hes ha has hbs =>
      obtain ⟨k, old⟩ := a
      obtain rfl : k = id := ha
      obtain ⟨hget, -, hplace⟩ := @SortedMap.found _ _ _ _ as bs old has
      rw [hes, hplace] at herase
      rw [hes, hget, hplace]
      simp only [getElem?_mid, eraseIdx_mid, bind_eq_bind, bind_some]
      refine ⟨_, rfl, ?_⟩
      have hcount : n - 1 = (as ++ bs).length := by
        rw [hn, hes]
        simp
      rw [remove.shrunk]
      split_ifs with hzero
      · rw [hcount, length_eq_zero_iff] at hzero
        rw [hzero, hcount, hzero]
        exact refines_empty
      · exact refines_small herase hcount
    | @absent as bs hes has hbs =>
      obtain ⟨hget, -, hplace⟩ := SortedMap.absent has hbs
      refine ⟨_, by rw [hes, hget], ?_⟩
      rw [hes, hplace, ← hes]
      exact refines_small hsorted hn
  · obtain ⟨out, hout, hnone, hsome⟩ := removeLarge_ok hok hne id (chunkLen size)
    rw [remove]
    simp only [hout, bind_eq_bind, bind_some]
    cases out with
    | none =>
      have hget := hnone rfl
      refine ⟨_, by rw [hget], ?_⟩
      rw [hok.sorted.erase_absent id hget]
      exact refines_large hok hne hn
    | some out =>
      obtain ⟨root', removed⟩ := out
      obtain ⟨hget, hok', hentries⟩ := hsome root' removed rfl
      refine ⟨_, by rw [hget], ?_⟩
      have hcount : n - 1 = (entriesOf root').length := by
        rw [hentries, hok.sorted.length_erase id hget, hn]
      rw [← hentries, remove.shrunk]
      split_ifs with hzero
      · rw [hcount, length_eq_zero_iff] at hzero
        rw [hzero, hcount, hzero]
        exact refines_empty
      · refine refines_large hok' (root_ne_nil fun hnil => hzero ?_) hcount
        rw [hcount, hnil]
        rfl

end CowIdMap

theorem step_refines (size : ℕ) (op : IdMapOp V) (m : CowIdMap V) (es : List (ℕ × V))
    (h : Refines m es) : ∃ m' es' answer, step size op m = some (m', answer) ∧
      specStep op es = some (es', answer) ∧ Option.Rel Refines m' es' := by
  cases op with
  | get id => exact ⟨_, _, _, by rw [step, CowIdMap.get_ok h]; rfl, rfl, .some h⟩
  | len => exact ⟨_, _, _, rfl, by rw [specStep, ← h.len], .some h⟩
  | iter => exact ⟨_, _, _, rfl, by rw [specStep, ← h.iter], .some h⟩
  | insert id value =>
    obtain ⟨m', hm', h'⟩ := CowIdMap.insert_ok h size id value
    exact ⟨_, _, _, by rw [step, hm']; rfl, rfl, .some h'⟩
  | getMut id change =>
    obtain ⟨m', hm', h'⟩ := CowIdMap.getMut_ok h id change
    exact ⟨_, _, _, by rw [step, hm']; rfl, rfl, .some h'⟩
  | remove id =>
    obtain ⟨m', hm', h'⟩ := CowIdMap.remove_ok h size id
    exact ⟨_, _, _, by rw [step, hm']; rfl, rfl, .some h'⟩

/-- **The posting map refines a sorted map.** In every run of maps made empty, cloned, read and
written, whatever the size of their entries, all answers are those of sorted maps, the maps hold
what those hold, and in the large form every recorded largest id is the true one. -/
theorem idMap_refines (size : ℕ) (ops : List (HandleOp Unit (IdMapOp V))) :
    ∃ ms es answers, run make (step size) ops [] = some (ms, answers) ∧
      run specMake specStep ops [] = some (es, answers) ∧ Alike Refines ms es :=
  run_alike (fun _ => ⟨_, _, rfl, rfl, refines_empty⟩) (step_refines size) ops .nil

end IdMap

end LoraDb
