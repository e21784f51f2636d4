import LoraDb.VarLength

/-!
# Building Paths

The value a path variable is bound to is built from the variables of its chain, and a shortest
path is chosen by the number of relationships in it. The choice is made twice: the buffered
operator looks at all rows at once, and the streaming one holds the best rows so far.

## Main results

* `keepShortest_eq`: the entries of the least length, or the first of them.
* `shortestPathRows_eq`: the streaming and the buffered operator keep the same rows.
-/

open List

namespace LoraDb

/-! ### Building paths -/

/-- The nodes and relationships that the variables of a chain bind in a row, and whether a
variable is bound to a list of relationships. -/
def pathBindings (row : Row) (nodeVars relVars : List VarId) :
    List NodeId × List RelationshipId × Bool :=
  (nodeVars.flatMap fun var =>
      match row var with
      | some (.node id) => [id]
      | some (.list items) => items.filterMap fun
        | .node id => some id
        | _ => none
      | _ => [],
    relVars.flatMap fun var =>
      match row var with
      | some (.relationship id) => [id]
      | some (.list items) => items.filterMap fun
        | .relationship id => some id
        | _ => none
      | _ => [],
    relVars.any fun var =>
      match row var with
      | some (.list _) => true
      | _ => false)

/-- The nodes along some relationships; one that is gone is passed over. -/
def reconstructVarLenNodes (storage : InMemoryGraph) (start : NodeId) :
    List RelationshipId → List NodeId
  | [] => [start]
  | rel :: rels =>
    match storage.relAt rel with
    | some record =>
      start :: reconstructVarLenNodes storage
        (if record.src = start then record.dst else record.src) rels
    | none => reconstructVarLenNodes storage start rels

def buildPathValue (storage : InMemoryGraph) (row : Row) (nodeVars relVars : List VarId) :
    LoraValue :=
  match pathBindings row nodeVars relVars with
  | ([start, stop], rels, true) =>
    .path ⟨if rels = [] then [start, stop] else reconstructVarLenNodes storage start rels, rels⟩
  | (nodes, rels, _) => .path ⟨nodes, rels⟩

/-- The relationships that the variables of a chain hold in a row. -/
def relCount (relVars : List VarId) (row : Row) : ℕ := (pathBindings row [] relVars).2.1.length

/-! ### Keeping the shortest -/

section Filter

variable {α β : Type} (length : α → ℕ) (all : Bool)

/-- The entries of the least length, or the first of them, from all of them at once. -/
def keepShortest (entries : List α) : List α :=
  let minLen := ((entries.map length).min?).getD (2 ^ 64 - 1)
  let result := entries.filter fun entry => length entry == minLen
  if !all && decide (1 < result.length) then result.take 1 else result

/-- One entry of the streaming filter, which holds the least length so far and its entries. -/
def keepShortestStep (best : Option ℕ × List α) (entry : α) : Option ℕ × List α :=
  match best.1 with
  | none => (some (length entry), best.2 ++ [entry])
  | some current =>
    if length entry < current then (some (length entry), [entry])
    else if length entry = current ∧ all = true then (best.1, best.2 ++ [entry])
    else best

/-- The entries of the least length. -/
def least (entries : List α) : List α :=
  entries.filter fun entry => decide (∀ other ∈ entries, length entry ≤ length other)

variable {length all} {entries : List α}

theorem mem_least {entry : α} : entry ∈ least length entries ↔
    entry ∈ entries ∧ ∀ other ∈ entries, length entry ≤ length other := by
  rw [least, mem_filter, decide_eq_true_iff]

theorem least_map {entries : List β} {f : β → α} :
    least length (entries.map f) = (least (fun entry => length (f entry)) entries).map f := by
  rw [least, least, filter_map]
  refine congrArg _ (filter_congr fun entry _ => decide_eq_decide.mpr ?_)
  simp only [forall_mem_map]

theorem least_of_min {n : ℕ} (h : (entries.map length).min? = some n) :
    least length entries = entries.filter fun entry => length entry == n := by
  rw [min?_eq_some_iff] at h
  refine filter_congr fun entry hentry => ?_
  rw [Bool.eq_iff_iff, beq_iff_eq, decide_eq_true_iff]
  constructor
  · intro hall
    obtain ⟨other, hother, hlen⟩ := mem_map.mp h.1
    exact le_antisymm (hlen ▸ hall other hother) (h.2 _ (mem_map_of_mem hentry))
  · rintro rfl other hother
    exact h.2 _ (mem_map_of_mem hother)

theorem least_ne_nil (h : entries ≠ []) : least length entries ≠ [] := by
  obtain ⟨n, hn⟩ : ∃ n, (entries.map length).min? = some n :=
    Option.ne_none_iff_exists'.mp (by simpa using h)
  rw [least_of_min hn]
  obtain ⟨other, hother, hlen⟩ := mem_map.mp (min?_eq_some_iff.mp hn).1
  exact ne_nil_of_mem (mem_filter.mpr ⟨hother, beq_iff_eq.mpr hlen⟩)

theorem keepShortest_eq (entries : List α) : keepShortest length all entries =
    if all then least length entries else (least length entries).take 1 := by
  have hleast : (entries.filter fun entry =>
      length entry == ((entries.map length).min?).getD (2 ^ 64 - 1)) = least length entries := by
    cases hmin : (entries.map length).min? with
    | none =>
      obtain rfl : entries = [] := by simpa using hmin
      rfl
    | some n => exact (least_of_min hmin).symm
  rw [keepShortest]
  simp only [hleast]
  cases all with
  | true => simp
  | false =>
    simp only [Bool.not_false, Bool.true_and, Bool.false_eq_true, if_false]
    split
    · rfl
    next h => rw [take_of_length_le (by simpa using h)]

theorem keepShortest_map (entries : List β) (f : β → α) : keepShortest length all (entries.map f) =
      (keepShortest (fun entry => length (f entry)) all entries).map f := by
  rw [keepShortest_eq, keepShortest_eq, least_map]
  cases all with
  | true => rfl
  | false => simp

theorem min?_concat {lengths : List ℕ} {m n : ℕ} (h : lengths.min? = some m) :
    (lengths ++ [n]).min? = some (min m n) := by
  rw [min?_eq_some_iff] at h ⊢
  refine ⟨?_, fun k hk => ?_⟩
  · rcases le_total m n with hle | hle
    · rw [min_eq_left hle]
      exact mem_append_left _ h.1
    · rw [min_eq_right hle]
      exact mem_append_right _ mem_cons_self
  · rcases mem_append.mp hk with hk | hk
    · exact (min_le_left _ _).trans (h.2 k hk)
    · exact (min_le_right _ _).trans (mem_singleton.mp hk).ge

/-- One more entry beats the least so far, joins them, or is passed over. -/
theorem least_concat {entry : α} {n : ℕ}
    (h : (entries.map length).min? = some n) : least length (entries ++ [entry]) =
      if length entry < n then [entry]
      else if length entry = n then least length entries ++ [entry]
      else least length entries := by
  have hmin : ((entries ++ [entry]).map length).min? = some (min n (length entry)) := by
    rw [map_append]
    exact min?_concat h
  rw [least_of_min hmin, least_of_min h, filter_append]
  rw [min?_eq_some_iff] at h
  split
  next hlt =>
    rw [min_eq_right hlt.le, filter_eq_nil_iff.mpr]
    · simp
    · intro other hother heq
      exact absurd (h.2 _ (mem_map_of_mem hother)) (by rw [beq_iff_eq.mp heq]; omega)
  next hge =>
    rw [min_eq_left (by omega)]
    split
    next heq => simp [heq]
    next hne => simp [hne]

/-- What the streaming filter holds after some entries. -/
theorem foldl_keepShortestStep (entries : List α) :
    entries.foldl (keepShortestStep length all) (none, []) = ((entries.map length).min?,
        if all then least length entries else (least length entries).take 1) := by
  induction entries using reverseRecOn with
  | nil => cases all <;> rfl
  | append_singleton entries entry ih =>
    rw [foldl_append, ih, foldl_cons, foldl_nil, keepShortestStep]
    cases hmin : (entries.map length).min? with
    | none =>
      obtain rfl : entries = [] := by simpa using hmin
      cases all <;> simp [least]
    | some n =>
      have hentries : least length entries ≠ [] := least_ne_nil fun hnil => by
        rw [hnil] at hmin
        cases hmin
      rw [least_concat hmin, map_append, map_singleton, min?_concat hmin]
      rcases lt_trichotomy (length entry) n with hlt | heq | hgt
      · simp [hlt, hlt.le]
      · cases all with
        | true => simp [heq]
        | false =>
          obtain ⟨first, rest, hfirst⟩ := exists_cons_of_ne_nil hentries
          simp [heq, hfirst]
      · simp [hgt.ne', hgt.le, not_lt.mpr hgt.le]

end Filter

def pathLen (pathVar : VarId) (row : Row) : ℕ :=
  match row pathVar with
  | some (.path path) => path.rels.length
  | _ => 2 ^ 64 - 1

/-- The buffered filter. -/
def filterShortestPaths (rows : List Row) (pathVar : VarId) (all : Bool) : List Row :=
  keepShortest (pathLen pathVar) all rows

/-- The streaming filter. -/
def shortestPathRows (rows : List Row) (pathVar : VarId) (all : Bool) : List Row :=
  (rows.foldl (keepShortestStep (pathLen pathVar) all) (none, [])).2

/-- The streaming and the buffered operator keep the same rows. -/
theorem shortestPathRows_eq (rows : List Row) (pathVar : VarId) (all : Bool) :
    shortestPathRows rows pathVar all = filterShortestPaths rows pathVar all := by
  rw [shortestPathRows, foldl_keepShortestStep, filterShortestPaths, keepShortest_eq]

theorem pathLen_insert (storage : InMemoryGraph) (nodeVars relVars : List VarId)
    (output : VarId) (row : Row) :
    pathLen output (row.insert output (buildPathValue storage row nodeVars relVars)) =
      relCount relVars row := by
  have hbuild : ∃ nodes, buildPathValue storage row nodeVars relVars =
      .path ⟨nodes, (pathBindings row nodeVars relVars).2.1⟩ := by
    rw [buildPathValue]
    split
    next start stop rels h => exact ⟨_, by rw [h]⟩
    next nodes rels _ _ h => exact ⟨nodes, by rw [h]⟩
  obtain ⟨nodes, hnodes⟩ := hbuild
  rw [pathLen, hnodes, Row.insert_self]
  rfl

end LoraDb
