import Mathlib.Data.List.Sort
import Mathlib.Data.Prod.Lex

/-!
# Greedy Search on a Graph

Best-first search from one vertex, with a distance that need not be defined everywhere:
the frontier holds vertices still to be expanded, the results the closest ones so far, at most
`ef` of them. Vertices are numbers; the graph is a function from a vertex to its neighbours,
about which nothing is assumed.

## Main results

* `search_mem`: what is found has the distance it is listed with, and is the start or a
  neighbour of something.
* `search_sorted`, `search_nodup`: closest first, each vertex once.
* `search_eq_nil`: nothing is found exactly when the start has no distance.
* `search_fuel`: the search ends by itself.
-/

namespace GreedySearch

open List

variable {D : Type} [LinearOrder D]

/-- A vertex with its distance; the closer is the smaller, ties go to the smaller vertex. -/
abbrev Candidate (D : Type) := D ×ₗ ℕ

namespace Candidate

def mk (dist : D) (id : ℕ) : Candidate D := toLex (dist, id)

def dist (c : Candidate D) : D := (ofLex c).1

def id (c : Candidate D) : ℕ := (ofLex c).2

omit [LinearOrder D] in
@[simp] theorem dist_mk (dist : D) (id : ℕ) : (mk dist id).dist = dist := rfl

omit [LinearOrder D] in
@[simp] theorem id_mk (dist : D) (id : ℕ) : (mk dist id).id = id := rfl

theorem dist_le {c c' : Candidate D} (h : c ≤ c') : c.dist ≤ c'.dist := by
  rcases Prod.Lex.le_iff.mp h with hlt | ⟨heq, -⟩
  · exact hlt.le
  · exact heq.le

end Candidate

/-- Where a search is: the vertices seen, those to expand, and the closest so far; both lists
closest first. -/
structure Progress (D : Type) where
  visited : List ℕ
  frontier : List (Candidate D)
  results : List (Candidate D)

/-- Add a candidate in its place. -/
def push (c : Candidate D) (cs : List (Candidate D)) : List (Candidate D) :=
  cs.orderedInsert (· ≤ ·) c

/-- Take a new candidate while there is room, or in place of the farthest result. -/
def offer (ef : ℕ) (c : Candidate D) (p : Progress D) : Progress D :=
  if p.results.length < ef then
    { p with frontier := push c p.frontier, results := push c p.results }
  else match p.results.getLast? with
    | some worst =>
      if c.dist < worst.dist then
        { p with frontier := push c p.frontier, results := push c p.results.dropLast }
      else p
    | none => p

section Search

variable (dist : ℕ → Option D) (next : ℕ → List ℕ) (ef : ℕ)

/-- Look at a neighbour, unless it was seen before. -/
def visit (p : Progress D) (id : ℕ) : Progress D :=
  if id ∈ p.visited then p
  else
    let p := { p with visited := id :: p.visited }
    match dist id with
    | none => p
    | some d => offer ef (Candidate.mk d id) p

/-- The results are full, and the nearest unexplored vertex is farther than all of them. -/
def exhausted (c : Candidate D) (results : List (Candidate D)) : Bool :=
  ef ≤ results.length && (results.getLast?.map fun worst => decide (worst.dist < c.dist)).getD false

/-- Expand the nearest vertex of the frontier, at most `fuel` times. -/
def loop : ℕ → Progress D → Progress D
  | 0, p => p
  | fuel + 1, p =>
    match p.frontier with
    | [] => p
    | c :: frontier =>
      if exhausted ef c p.results then p
      else loop fuel ((next c.id).foldl (visit dist ef) { p with frontier })

/-- The closest candidates reached from `entry`. -/
def search (fuel entry : ℕ) : List (Candidate D) :=
  match dist entry with
  | none => []
  | some d =>
    let start := Candidate.mk d entry
    (loop dist next ef fuel ⟨[entry], [start], [start]⟩).results.take ef

end Search

/-! ### What the search keeps -/

/-- A candidate that was seen, with its own distance, at a vertex of which `P` holds. -/
structure Known (dist : ℕ → Option D) (P : ℕ → Prop) (visited : List ℕ) (c : Candidate D) :
    Prop where
  seen : c.id ∈ visited
  scored : dist c.id = some c.dist
  reached : P c.id

/-- The invariant of the search. -/
structure Good (dist : ℕ → Option D) (P : ℕ → Prop) (ef : ℕ) (p : Progress D) : Prop where
  frontier : ∀ c ∈ p.frontier, Known dist P p.visited c
  results : ∀ c ∈ p.results, Known dist P p.visited c
  nodup : (p.results.map Candidate.id).Nodup
  sorted : p.results.Pairwise (· ≤ ·)
  nonempty : p.results ≠ []

section Search

variable {dist : ℕ → Option D} {next : ℕ → List ℕ} {P : ℕ → Prop} {ef : ℕ} {c : Candidate D}

omit [LinearOrder D] in
theorem Known.mono {visited visited' : List ℕ} (h : Known dist P visited c)
    (hsub : ∀ id ∈ visited, id ∈ visited') : Known dist P visited' c :=
  ⟨hsub _ h.seen, h.scored, h.reached⟩

variable {cs : List (Candidate D)}

theorem mem_push {c c' : Candidate D} : c' ∈ push c cs ↔ c' = c ∨ c' ∈ cs :=
  mem_orderedInsert (· ≤ ·)

theorem push_perm (c : Candidate D) (cs : List (Candidate D)) : (push c cs).Perm (c :: cs) :=
  perm_orderedInsert (· ≤ ·) c cs

theorem push_sorted (h : cs.Pairwise (· ≤ ·)) : (push c cs).Pairwise (· ≤ ·) :=
  Pairwise.orderedInsert c cs h

theorem push_ne_nil (c : Candidate D) (cs : List (Candidate D)) : push c cs ≠ [] := by
  intro h
  have hmem : c ∈ push c cs := mem_push.mpr (.inl rfl)
  rw [h] at hmem
  cases hmem

theorem push_nodup (h : (cs.map Candidate.id).Nodup) (hnew : ∀ c' ∈ cs, c'.id ≠ c.id) :
    ((push c cs).map Candidate.id).Nodup := by
  rw [((push_perm c cs).map Candidate.id).nodup_iff, map_cons, nodup_cons]
  refine ⟨fun hmem => ?_, h⟩
  obtain ⟨c', hc', heq⟩ := List.mem_map.mp hmem
  exact hnew c' hc' heq

theorem push_length (c : Candidate D) (cs : List (Candidate D)) :
    (push c cs).length = cs.length + 1 := by
  rw [(push_perm c cs).length_eq, length_cons]

variable {p : Progress D}

/-- Some of the results may be dropped, and a new candidate pushed. -/
theorem Good.replace {kept : List (Candidate D)}
    (h : Good dist P ef p) (hc : Known dist P p.visited c) (hnew : ∀ c' ∈ p.results, c'.id ≠ c.id)
    (hkept : kept.Sublist p.results) :
    Good dist P ef { p with frontier := push c p.frontier, results := push c kept } := by
  refine ⟨fun c' hc' => ?_, fun c' hc' => ?_, ?_, ?_, push_ne_nil _ _⟩
  · rcases mem_push.mp hc' with rfl | hc'
    · exact hc
    · exact h.frontier c' hc'
  · rcases mem_push.mp hc' with rfl | hc'
    · exact hc
    · exact h.results c' (hkept.subset hc')
  · exact push_nodup (h.nodup.sublist (hkept.map _)) fun c' hc' => hnew c' (hkept.subset hc')
  · exact push_sorted (h.sorted.sublist hkept)

theorem Good.offer (h : Good dist P ef p)
    (hc : Known dist P p.visited c) (hnew : ∀ c' ∈ p.results, c'.id ≠ c.id) :
    Good dist P ef (offer ef c p) := by
  unfold GreedySearch.offer
  split
  · exact h.replace hc hnew (Sublist.refl _)
  split
  · split
    · exact h.replace hc hnew (dropLast_sublist _)
    · exact h
  · exact h

/-- A neighbour of which `P` holds keeps the invariant. -/
theorem Good.visit {id : ℕ} (h : Good dist P ef p) (hid : P id) :
    Good dist P ef (visit dist ef p id) := by
  unfold GreedySearch.visit
  split
  · exact h
  next hfresh =>
    have hseen : Good dist P ef { p with visited := id :: p.visited } :=
      ⟨fun c hc => (h.frontier c hc).mono fun _ => mem_cons_of_mem _,
        fun c hc => (h.results c hc).mono fun _ => mem_cons_of_mem _,
        h.nodup, h.sorted, h.nonempty⟩
    simp only
    split
    · exact hseen
    · next d hd =>
        refine hseen.offer ⟨mem_cons_self, hd, hid⟩ fun c hc heq => hfresh ?_
        rw [← show c.id = id from heq]
        exact (h.results c hc).seen

theorem Good.foldl {ids : List ℕ} (h : Good dist P ef p)
    (hids : ∀ id ∈ ids, P id) : Good dist P ef (ids.foldl (GreedySearch.visit dist ef) p) := by
  induction ids generalizing p with
  | nil => exact h
  | cons id ids ih =>
    exact ih (h.visit (hids id (by simp))) fun id' hid' => hids id' (by simp [hid'])

/-- A run of the loop, when `P` holds of every neighbour of anything. -/
theorem Good.loop (fuel : ℕ) (h : Good dist P ef p)
    (hnext : ∀ id, ∀ id' ∈ next id, P id') : Good dist P ef (loop dist next ef fuel p) := by
  induction fuel generalizing p with
  | zero => exact h
  | succ fuel ih =>
    rw [GreedySearch.loop]
    split
    · exact h
    next c frontier hfrontier =>
      split
      · exact h
      · have hpopped : Good dist P ef { p with frontier } :=
          ⟨fun c' hc' => h.frontier c' (by rw [hfrontier]; exact mem_cons_of_mem _ hc'),
            h.results, h.nodup, h.sorted, h.nonempty⟩
        exact ih (hpopped.foldl (hnext c.id))

theorem Good.start {entry : ℕ} {d : D} (hd : dist entry = some d) (hentry : P entry) :
    Good dist P ef ⟨[entry], [Candidate.mk d entry], [Candidate.mk d entry]⟩ := by
  have hknown : Known dist P [entry] (Candidate.mk d entry) :=
    ⟨mem_singleton_self _, hd, hentry⟩
  refine ⟨fun c hc => ?_, fun c hc => ?_, by simp, by simp, by simp⟩
  · rwa [List.mem_singleton.mp hc]
  · rwa [List.mem_singleton.mp hc]

/-- What is found has the listed distance, and satisfies what holds of the start and of all
neighbours. -/
theorem search_mem {fuel entry : ℕ} (hentry : P entry) (hnext : ∀ id, ∀ id' ∈ next id, P id')
    (hc : c ∈ search dist next ef fuel entry) :
    dist c.id = some c.dist ∧ P c.id := by
  unfold search at hc
  split at hc
  · cases hc
  · next d hd =>
      have hstart : Good dist P ef _ := Good.start hd hentry
      have hgood := hstart.loop fuel hnext
      have hknown := hgood.results c (mem_of_mem_take hc)
      exact ⟨hknown.scored, hknown.reached⟩

theorem search_sorted (fuel entry : ℕ) : (search dist next ef fuel entry).Pairwise (· ≤ ·) := by
  unfold search
  split
  · exact Pairwise.nil
  · next d hd =>
      have hstart : Good dist (fun _ => True) ef _ := Good.start hd trivial
      exact (hstart.loop fuel fun _ _ _ => trivial).sorted.sublist (take_sublist _ _)

theorem search_nodup (fuel entry : ℕ) :
    ((search dist next ef fuel entry).map Candidate.id).Nodup := by
  unfold search
  split
  · exact nodup_nil
  · next d hd =>
      have hstart : Good dist (fun _ => True) ef _ := Good.start hd trivial
      exact (hstart.loop fuel fun _ _ _ => trivial).nodup.sublist ((take_sublist _ _).map _)

/-- Nothing is found exactly when the start has no distance. -/
theorem search_eq_nil {fuel entry : ℕ} (hef : 1 ≤ ef) :
    search dist next ef fuel entry = [] ↔ dist entry = none := by
  unfold search
  split
  · next hd => simp [hd]
  · next d hd =>
      have hstart : Good dist (fun _ => True) ef _ := Good.start hd trivial
      have hgood : Good dist (fun _ => True) ef (loop dist next ef fuel _) :=
        hstart.loop fuel fun _ _ _ => trivial
      have hne := hgood.nonempty
      simp only [take_eq_nil_iff, hne, hd, reduceCtorEq, or_false, iff_false]
      omega

/-! ### The search ends -/

/-- Vertices that can still be pushed, and those that already were. -/
def work (vertices : List ℕ) (p : Progress D) : ℕ :=
  p.frontier.length + (vertices.filter fun id => id ∉ p.visited).length

omit [LinearOrder D] in
/-- Seeing a vertex for the first time leaves less to see. -/
theorem filter_visited_lt {vertices visited : List ℕ} {id : ℕ} (hid : id ∈ vertices)
    (hfresh : id ∉ visited) :
    (vertices.filter fun x => x ∉ id :: visited).length <
      (vertices.filter fun x => x ∉ visited).length := by
  have hsplit : (vertices.filter fun x => x ∉ id :: visited) =
      (vertices.filter fun x => x ∉ visited).filter fun x => x ≠ id := by
    rw [filter_filter]
    congr 1
    funext x
    simp
  rw [hsplit]
  refine List.length_filter_lt_length_iff_exists.mpr ⟨id, ?_, by simp⟩
  simpa using ⟨hid, hfresh⟩

omit [LinearOrder D] in
theorem filter_visited_le (vertices visited : List ℕ) (id : ℕ) :
    (vertices.filter fun x => x ∉ id :: visited).length ≤
      (vertices.filter fun x => x ∉ visited).length := by
  refine (monotone_filter_right vertices fun x hx => ?_).length_le
  simp only [mem_cons, not_or, decide_eq_true_eq] at hx ⊢
  exact hx.2

theorem offer_frontier (c : Candidate D) (p : Progress D) :
    (offer ef c p).frontier.length ≤ p.frontier.length + 1 ∧
      (offer ef c p).visited = p.visited := by
  unfold offer
  split
  · exact ⟨(push_length c p.frontier).le, rfl⟩
  split
  · split
    · exact ⟨(push_length c p.frontier).le, rfl⟩
    · exact ⟨Nat.le_succ _, rfl⟩
  · exact ⟨Nat.le_succ _, rfl⟩

variable {vertices : List ℕ}

theorem visit_work (hdist : ∀ id, dist id ≠ none → id ∈ vertices)
    (p : Progress D) (id : ℕ) : work vertices (visit dist ef p id) ≤ work vertices p := by
  unfold visit
  split
  · exact le_rfl
  next hfresh =>
    simp only
    split
    · exact Nat.add_le_add_left (filter_visited_le vertices p.visited id) _
    · next d hd =>
        obtain ⟨hlen, hvisited⟩ : (offer ef (Candidate.mk d id)
            { p with visited := id :: p.visited }).frontier.length ≤ p.frontier.length + 1 ∧
            (offer ef (Candidate.mk d id) { p with visited := id :: p.visited }).visited =
              id :: p.visited := offer_frontier _ _
        have hless := filter_visited_lt (hdist id (by simp [hd])) hfresh
        simp only [work, hvisited] at hlen ⊢
        omega

theorem foldl_work (hdist : ∀ id, dist id ≠ none → id ∈ vertices) (ids : List ℕ) (p : Progress D) :
    work vertices (ids.foldl (visit dist ef) p) ≤ work vertices p := by
  induction ids generalizing p with
  | nil => exact le_rfl
  | cons id ids ih => exact (ih _).trans (visit_work hdist p id)

/-- Once the fuel covers the work left, more of it changes nothing. -/
theorem loop_fuel (hdist : ∀ id, dist id ≠ none → id ∈ vertices)
    {fuel fuel' : ℕ} (h : work vertices p ≤ fuel) (h' : fuel ≤ fuel') :
    loop dist next ef fuel' p = loop dist next ef fuel p := by
  induction fuel generalizing fuel' p with
  | zero =>
    have hnil : p.frontier = [] := eq_nil_of_length_eq_zero (by simp only [work] at h; omega)
    cases fuel' with
    | zero => rfl
    | succ fuel' => rw [loop, loop, hnil]
  | succ fuel ih =>
    obtain ⟨fuel', rfl⟩ : ∃ k, fuel' = k + 1 := ⟨fuel' - 1, by omega⟩
    rw [loop, loop]
    split
    · rfl
    next c frontier hfrontier =>
      split
      · rfl
      · refine ih ((foldl_work hdist _ _).trans ?_) (by omega)
        simp only [work, hfrontier, length_cons] at h ⊢
        omega

/-- The search ends by itself: fuel beyond the number of vertices is never used. -/
theorem search_fuel (hdist : ∀ id, dist id ≠ none → id ∈ vertices)
    {fuel entry : ℕ} (h : vertices.length + 1 ≤ fuel) :
    search dist next ef fuel entry = search dist next ef (vertices.length + 1) entry := by
  unfold search
  split
  · rfl
  · next d hd =>
      simp only
      rw [loop_fuel hdist ?_ h]
      have hle := length_filter_le (fun id => id ∉ [entry]) vertices
      simp only [work, length_singleton]
      omega

end Search

end GreedySearch
