import LoraDb.FulltextText
import LoraDb.TopK

/-!
# The Full-Text Index

An inverted index: every term with the entities that hold it and how often, and every entity
with its terms, so that indexing it anew takes back what it had before.

The documents are the abstract state: every entity that has terms, with their counts.

## Main results

* `Reflects`: the postings and the documents say the same.
* `Reflects.reindexEntity`, `Reflects.removeEntity`, `reflects_run`: indexing and removing keep
  it, and so does every run.
-/

open List

/-! ### Maps filtered by key -/

namespace SortedMap

variable {κ α β : Type} [LinearOrder κ]

/-- Keep the entries that `f` gives a new value. -/
def mapValues (f : κ → α → Option β) (es : List (κ × α)) : List (κ × β) :=
  es.filterMap fun e => (f e.1 e.2).map (e.1, ·)

variable {es : List (κ × α)}

theorem Sorted.mapValues (h : Sorted es) (f : κ → α → Option β) : Sorted (mapValues f es) := by
  refine Pairwise.filterMap _ ?_ h
  intro a b hlt a' ha b' hb
  obtain ⟨v, -, rfl⟩ := Option.map_eq_some_iff.mp ha
  obtain ⟨w, -, rfl⟩ := Option.map_eq_some_iff.mp hb
  exact hlt

theorem Sorted.get?_mapValues (h : Sorted es) (f : κ → α → Option β)
    (k : κ) : get? k (SortedMap.mapValues f es) = (get? k es).bind (f k) := by
  induction es with
  | nil => rfl
  | cons e es ih =>
    obtain ⟨k', v⟩ := e
    obtain ⟨hhead, htail⟩ := sorted_cons.mp h
    have hcons : SortedMap.mapValues f ((k', v) :: es) =
        ((f k' v).map (k', ·)).toList ++ SortedMap.mapValues f es := by
      rw [SortedMap.mapValues, filterMap_cons]
      cases f k' v <;> rfl
    rw [hcons]
    by_cases hk : k = k'
    · subst hk
      have hrest : get? k (SortedMap.mapValues f es) = none := by
        rw [ih htail, get?_eq_none.mpr fun e he => ne_of_gt (hhead e he)]
        rfl
      cases hf : f k v <;> simp [get?, hf, hrest]
    · cases hf : f k' v <;> simp [get?, hk, ih htail]

/-- The entries at a key are the one looked up. -/
theorem Sorted.filter_key [BEq κ] [LawfulBEq κ] (h : Sorted es) (k : κ) :
    (es.filter fun e => e.1 == k).map Prod.snd = (get? k es).toList := by
  induction es with
  | nil => rfl
  | cons e es ih =>
    obtain ⟨k', v⟩ := e
    obtain ⟨hhead, htail⟩ := sorted_cons.mp h
    by_cases hk : k = k'
    · subst hk
      have hrest : es.filter (fun e => e.1 == k) = [] := by
        rw [filter_eq_nil_iff]
        intro e he
        simpa using ne_of_gt (hhead e he)
      simp [get?, hrest]
    · rw [filter_cons_of_neg (by simpa using Ne.symm hk), ih htail, get?, if_neg hk]

end SortedMap

namespace LoraDb

namespace Fulltext

open SortedMap

/-- The counts of an entity's terms; every count is a `u32`. -/
structure TermCounts where
  entries : List (Term × ℕ)
  sorted : Sorted entries
  bounded : ∀ e ∈ entries, e.2 ≤ U32_MAX

/-- How often every entity holds a term. -/
abbrev Bucket := List (ℕ × ℕ)

structure FulltextIndex where
  postings : List (Term × Bucket)
  entityTerms : List (ℕ × List Term)

namespace FulltextIndex

def empty : FulltextIndex := ⟨[], []⟩

/-- Take an entity out of a term's posting list, which goes when it becomes empty. -/
def dropTerm (id : ℕ) (postings : List (Term × Bucket)) (term : Term) : List (Term × Bucket) :=
  match get? term postings with
  | none => postings
  | some bucket =>
    let bucket := erase id bucket
    if bucket.isEmpty then erase term postings else put term bucket postings

def addTerm (id : ℕ) (postings : List (Term × Bucket)) (entry : Term × ℕ) : List (Term × Bucket) :=
  put entry.1 (put id entry.2 ((get? entry.1 postings).getD [])) postings

def removeEntity (idx : FulltextIndex) (id : ℕ) : FulltextIndex :=
  match get? id idx.entityTerms with
  | none => idx
  | some terms => ⟨terms.foldl (dropTerm id) idx.postings, erase id idx.entityTerms⟩

/-- Replace what an entity contributes by `terms`. -/
def reindexEntity (idx : FulltextIndex) (id : ℕ) (terms : TermCounts) : FulltextIndex :=
  let idx := idx.removeEntity id
  if terms.entries.isEmpty then idx
  else
    ⟨terms.entries.foldl (addTerm id) idx.postings,
      put id (terms.entries.map Prod.fst) idx.entityTerms⟩

end FulltextIndex

/-- A call on the index. -/
inductive Op where
  | reindex (id : ℕ) (terms : TermCounts)
  | remove (id : ℕ)

def FulltextIndex.step (idx : FulltextIndex) : Op → FulltextIndex
  | .reindex id terms => idx.reindexEntity id terms
  | .remove id => idx.removeEntity id

def FulltextIndex.run (ops : List Op) : FulltextIndex := ops.foldl .step .empty

/-- The documents: what every entity with terms holds. -/
abbrev Docs := List (ℕ × List (Term × ℕ))

namespace Docs

def step (docs : Docs) : Op → Docs
  | .reindex id terms =>
    if terms.entries.isEmpty then erase id docs else put id terms.entries docs
  | .remove id => erase id docs

def run (ops : List Op) : Docs := ops.foldl step []

/-- How often an entity holds a term. -/
def count (docs : Docs) (term : Term) (id : ℕ) : Option ℕ := (get? id docs).bind (get? term)

end Docs

/-! ### The postings -/

/-- Posting lists that are sorted, and none that is empty. -/
structure Wellformed (postings : List (Term × Bucket)) : Prop where
  sorted : Sorted postings
  buckets : ∀ e ∈ postings, Sorted e.2 ∧ e.2 ≠ []

/-- How often an entity holds a term, by the postings. -/
def posted (postings : List (Term × Bucket)) (term : Term) (id : ℕ) : Option ℕ :=
  (get? term postings).bind (get? id)

section Postings

variable {postings : List (Term × Bucket)} {id id' : ℕ} {term term' : Term} {tf : ℕ}

theorem Wellformed.bucket (h : Wellformed postings) {bucket : Bucket}
    (hget : get? term postings = some bucket) : Sorted bucket ∧ bucket ≠ [] :=
  h.buckets _ (get?_mem hget)

theorem Wellformed.put (h : Wellformed postings) {bucket : Bucket} (hsorted : Sorted bucket)
    (hne : bucket ≠ []) : Wellformed (put term bucket postings) := by
  refine ⟨h.sorted.put _ _, ?_⟩
  intro e he
  rcases mem_put he with rfl | he
  · exact ⟨hsorted, hne⟩
  · exact h.buckets e he

theorem Wellformed.erase (h : Wellformed postings) : Wellformed (erase term postings) :=
  ⟨h.sorted.erase _, fun e he => h.buckets e (mem_erase he)⟩

theorem Wellformed.dropTerm (h : Wellformed postings) (id : ℕ) (term : Term) :
    Wellformed (FulltextIndex.dropTerm id postings term) := by
  rw [FulltextIndex.dropTerm]
  cases hget : get? term postings with
  | none => exact h
  | some bucket =>
    by_cases hempty : SortedMap.erase id bucket = []
    · simp only [hempty, isEmpty_nil, if_true]
      exact h.erase
    · have hempty' : (SortedMap.erase id bucket).isEmpty = false := by
        rw [Bool.eq_false_iff]
        exact fun hnil => hempty (List.isEmpty_iff.mp hnil)
      simp only [hempty', Bool.false_eq_true, if_false]
      exact h.put ((h.bucket hget).1.erase id) hempty

/-- Dropping a term takes away that term of that entity, and nothing else. -/
theorem posted_dropTerm (h : Wellformed postings) :
    posted (FulltextIndex.dropTerm id postings term) term' id' =
      if term' = term ∧ id' = id then none else posted postings term' id' := by
  rw [FulltextIndex.dropTerm]
  cases hget : get? term postings with
  | none =>
    by_cases hterm : term' = term
    · subst hterm
      simp [posted, hget]
    · simp [posted, hterm]
  | some bucket =>
    have hbucket := (h.bucket hget).1.get?_erase id' id
    by_cases hempty : SortedMap.erase id bucket = []
    · simp only [hempty, isEmpty_nil, if_true, posted, h.sorted.get?_erase]
      by_cases hterm : term' = term
      · subst hterm
        rw [hempty, get?_nil] at hbucket
        rw [if_pos rfl, hget]
        by_cases hid : id' = id
        · simp [hid]
        · rw [if_neg hid] at hbucket
          simp [hid, ← hbucket]
      · simp [hterm]
    · have hempty' : (SortedMap.erase id bucket).isEmpty = false := by
        rw [Bool.eq_false_iff]
        exact fun hnil => hempty (List.isEmpty_iff.mp hnil)
      simp only [hempty', Bool.false_eq_true, if_false, posted, get?_put]
      by_cases hterm : term' = term
      · subst hterm
        rw [if_pos rfl, hget, Option.bind_some, Option.bind_some, hbucket]
        by_cases hid : id' = id <;> simp [hid]
      · simp [hterm]

theorem Wellformed.addTerm (h : Wellformed postings) (id : ℕ) (entry : Term × ℕ) :
    Wellformed (FulltextIndex.addTerm id postings entry) := by
  have hbucket : Sorted ((get? entry.1 postings).getD []) := by
    cases hget : get? entry.1 postings with
    | none => exact sorted_nil
    | some bucket => exact (h.bucket hget).1
  refine h.put (hbucket.put _ _) ?_
  intro hnil
  have hget := get?_put id id entry.2 ((get? entry.1 postings).getD [])
  rw [hnil] at hget
  simp at hget

theorem posted_addTerm : posted (FulltextIndex.addTerm id postings (term, tf)) term' id' =
      if term' = term ∧ id' = id then some tf else posted postings term' id' := by
  rw [FulltextIndex.addTerm, posted, get?_put]
  by_cases hterm : term' = term
  · subst hterm
    rw [if_pos rfl, Option.bind_some, get?_put]
    by_cases hid : id' = id
    · simp [hid]
    · rw [if_neg hid, if_neg (fun h => hid h.2), posted]
      cases get? term' postings <;> rfl
  · simp [posted, hterm]

/-- Dropping all the terms of an entity. -/
theorem posted_dropTerms (id : ℕ) (h : Wellformed postings) (terms : List Term) :
    Wellformed (terms.foldl (FulltextIndex.dropTerm id) postings) ∧
      ∀ term' id', posted (terms.foldl (FulltextIndex.dropTerm id) postings) term' id' =
        if term' ∈ terms ∧ id' = id then none else posted postings term' id' := by
  induction terms generalizing postings with
  | nil => exact ⟨h, fun _ _ => by simp⟩
  | cons term terms ih =>
    obtain ⟨hwell, hposted⟩ := ih (h.dropTerm id term)
    refine ⟨hwell, ?_⟩
    intro term' id'
    rw [foldl_cons, hposted, posted_dropTerm h]
    by_cases hid : id' = id
    · by_cases hterm : term' = term
      · simp [hid, hterm]
      · simp [hid, hterm]
    · simp [hid]

/-- Adding all the terms of an entity. -/
theorem posted_addTerms (id : ℕ) (h : Wellformed postings) {entries : List (Term × ℕ)}
    (hsorted : Sorted entries) :
    Wellformed (entries.foldl (FulltextIndex.addTerm id) postings) ∧
      ∀ term' id', posted (entries.foldl (FulltextIndex.addTerm id) postings) term' id' =
        if id' = id then (get? term' entries).or (posted postings term' id')
        else posted postings term' id' := by
  induction entries generalizing postings with
  | nil => exact ⟨h, fun _ _ => by simp⟩
  | cons entry entries ih =>
    obtain ⟨term, tf⟩ := entry
    obtain ⟨hhead, htail⟩ := sorted_cons.mp hsorted
    obtain ⟨hwell, hposted⟩ := ih (h.addTerm id (term, tf)) htail
    refine ⟨hwell, ?_⟩
    intro term' id'
    rw [foldl_cons, hposted, posted_addTerm]
    by_cases hid : id' = id
    · by_cases hterm : term' = term
      · have hnone : get? term entries = none :=
          get?_eq_none.mpr fun e he => ne_of_gt (hhead e he)
        subst hterm
        simp [hid, get?, hnone]
      · simp [hid, hterm, get?]
    · simp [hid]

end Postings

/-! ### The index and the documents -/

/-- The postings, the terms of every entity and the documents say the same. -/
structure Reflects (idx : FulltextIndex) (docs : Docs) : Prop where
  wellformed : Wellformed idx.postings
  posted : ∀ term id, posted idx.postings term id = docs.count term id
  sortedTerms : Sorted idx.entityTerms
  entityTerms : ∀ id, get? id idx.entityTerms = (get? id docs).map (·.map Prod.fst)
  sortedDocs : Sorted docs
  counts : ∀ e ∈ docs, Sorted e.2 ∧ ∀ c ∈ e.2, c.2 ≤ U32_MAX

theorem reflects_empty : Reflects .empty [] :=
  ⟨⟨sorted_nil, fun _ h => nomatch h⟩, fun _ _ => rfl, sorted_nil, fun _ => rfl, sorted_nil,
    fun _ h => nomatch h⟩

namespace Reflects

variable {idx : FulltextIndex} {docs : Docs}

theorem removeEntity (h : Reflects idx docs) (id : ℕ) :
    Reflects (idx.removeEntity id) (SortedMap.erase id docs) := by
  have hterms := h.entityTerms id
  have herase := h.sortedDocs.get?_erase
  rw [FulltextIndex.removeEntity]
  cases hget : get? id docs with
  | none =>
    rw [hget, Option.map_none] at hterms
    simp only [hterms]
    have hsame : ∀ id', get? id' (SortedMap.erase id docs) = get? id' docs := by
      intro id'
      rw [herase]
      split_ifs with hid
      · rw [hid, hget]
      · rfl
    refine ⟨h.wellformed, ?_, h.sortedTerms, ?_, h.sortedDocs.erase id,
      fun e he => h.counts e (mem_erase he)⟩
    · intro term id'
      rw [h.posted, Docs.count, Docs.count, hsame]
    · intro id'
      rw [h.entityTerms, hsame]
  | some entries =>
    rw [hget, Option.map_some] at hterms
    simp only [hterms]
    obtain ⟨hwell, hposted⟩ := posted_dropTerms id h.wellformed (entries.map Prod.fst)
    refine ⟨hwell, ?_, h.sortedTerms.erase id, ?_, h.sortedDocs.erase id,
      fun e he => h.counts e (mem_erase he)⟩
    · intro term id'
      rw [hposted, h.posted, Docs.count, Docs.count, herase]
      by_cases hid : id' = id
      · subst hid
        rw [if_pos rfl, hget, Option.bind_some, Option.bind_none]
        by_cases hmem : term ∈ entries.map Prod.fst
        · rw [if_pos ⟨hmem, rfl⟩]
        · rw [if_neg (fun hboth => hmem hboth.1)]
          refine get?_eq_none.mpr ?_
          intro e he heq
          exact hmem (mem_map.mpr ⟨e, he, heq⟩)
      · rw [if_neg hid, if_neg (fun hboth => hid hboth.2)]
    · intro id'
      rw [h.sortedTerms.get?_erase, herase, h.entityTerms]
      split_ifs <;> rfl

theorem reindexEntity (h : Reflects idx docs) (id : ℕ) (terms : TermCounts) :
    Reflects (idx.reindexEntity id terms) (docs.step (.reindex id terms)) := by
  have hremoved := h.removeEntity id
  rw [FulltextIndex.reindexEntity, Docs.step]
  by_cases hempty : terms.entries.isEmpty = true
  · rw [if_pos hempty, if_pos hempty]
    exact hremoved
  rw [if_neg hempty, if_neg hempty]
  obtain ⟨hwell, hposted⟩ := posted_addTerms id hremoved.wellformed terms.sorted
  refine ⟨hwell, ?_, hremoved.sortedTerms.put _ _, ?_, h.sortedDocs.put _ _, ?_⟩
  · intro term id'
    rw [hposted, hremoved.posted, Docs.count, Docs.count, h.sortedDocs.get?_erase, get?_put]
    by_cases hid : id' = id
    · simp [hid]
    · simp [hid]
  · intro id'
    rw [get?_put, get?_put, hremoved.entityTerms, h.sortedDocs.get?_erase]
    split_ifs <;> rfl
  · intro e he
    rcases mem_put he with rfl | he
    · exact ⟨terms.sorted, terms.bounded⟩
    · exact h.counts e he

theorem step (h : Reflects idx docs) (op : Op) : Reflects (idx.step op) (docs.step op) := by
  cases op with
  | reindex id terms => exact h.reindexEntity id terms
  | remove id => exact h.removeEntity id

end Reflects

/-- After every run the index reflects the documents. -/
theorem reflects_run (ops : List Op) : Reflects (FulltextIndex.run ops) (Docs.run ops) := by
  have hfrom : ∀ (ops : List Op) (idx : FulltextIndex) (docs : Docs), Reflects idx docs →
      Reflects (ops.foldl .step idx) (ops.foldl Docs.step docs) := by
    intro ops
    induction ops with
    | nil => exact fun _ _ h => h
    | cons op ops ih => exact fun idx docs h => ih _ _ (h.step op)
  exact hfrom ops _ _ reflects_empty

end Fulltext

end LoraDb
