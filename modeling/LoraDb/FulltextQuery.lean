import LoraDb.FulltextIndex

/-!
# Full-Text Queries

A query resolves each of its terms to a posting list, its own or the merged lists of all terms
that start with it, intersects the lists from the shortest on and ranks what is left. It is
compared with a scan of the documents, which looks at every entity.

## Main results

* `range_eq`: in the sorted postings the terms with a common start are next to each other.
* `mergedHits_answers`, `resolve_answers`: a posting list says how often every entity holds its
  term.
* `query_eq_scan`: after every run, every query answers as the scan.
-/

open Option (bind_eq_some_iff bind_some)
open List SortedMap

namespace LoraDb

namespace Fulltext

/-! ### The query -/

def saturatingAdd (a b : ℕ) : ℕ := min (a + b) U32_MAX

/-- `dedup_by`: the counts of neighbours with one id, summed into the first. -/
def sumRunsFrom (kept : ℕ × ℕ) : Bucket → Bucket
  | [] => [kept]
  | hit :: hits =>
    if hit.1 = kept.1 then sumRunsFrom (kept.1, saturatingAdd kept.2 hit.2) hits
    else kept :: sumRunsFrom hit hits

def sumRuns : Bucket → Bucket
  | [] => []
  | hit :: hits => sumRunsFrom hit hits

/-- The postings of every term that starts with `token`, as one list in id order. -/
def mergedHits (postings : List (Term × Bucket)) (token : Term) : Bucket :=
  let range := (postings.dropWhile fun e => decide (e.1 < token)).takeWhile
    fun e => token.isPrefixOf e.1
  sumRuns ((range.flatMap Prod.snd).mergeSort fun a b => a.1 ≤ b.1)

/-- A query term's posting list: straight from the index, or merged. -/
inductive Posting where
  | index (entries : Bucket)
  | merged (entries : Bucket)

namespace Posting

def entries : Posting → Bucket
  | index entries => entries
  | merged entries => entries

def len (p : Posting) : ℕ := p.entries.length

def get (p : Posting) (id : ℕ) : Option ℕ := get? id p.entries

end Posting

/-- The posting lists of a query's exact terms and of its other ones; none where a term has
no postings. -/
def resolve (postings : List (Term × Bucket)) :
    List (Term × Bool) → Option (List Posting × List Posting)
  | [] => some ([], [])
  | (token, true) :: tokens =>
    let hits := mergedHits postings token
    if hits.isEmpty then none
    else (resolve postings tokens).map fun r => (r.1, .merged hits :: r.2)
  | (token, false) :: tokens =>
    match get? token postings with
    | none => none
    | some p => (resolve postings tokens).map fun r => (.index p :: r.1, r.2)

/-- Intersect with the posting lists in turn, summing the counts. -/
def intersect (results : Bucket) : List Posting → Bucket
  | [] => results
  | p :: ps =>
    let results := mapValues (fun id acc => (p.get id).map (saturatingAdd acc)) results
    if results.isEmpty then [] else intersect results ps

/-- Descending score, ascending id for ties. -/
def order (a b : ℕ × ℕ) : Bool := b.2 < a.2 || (a.2 == b.2 && a.1 ≤ b.1)

/-- The best `k` results, selected before they are sorted. -/
def selectBest (k : ℕ) (results : Bucket) : Bucket := (results.mergeSort order).take k

def rank (results : Bucket) (limit : Option ℕ) : Bucket :=
  let results :=
    match limit with
    | some k => if k < results.length then selectBest k results else results
    | none => results
  results.mergeSort order

/-- The entities that contain all terms of a query, with their scores. -/
def FulltextIndex.query (u : UnicodeData) (idx : FulltextIndex) (queryText : Text)
    (limit : Option ℕ) : Bucket :=
  let tokens := analyze u queryText true
  if tokens.isEmpty || limit == some 0 then []
  else
    match resolve idx.postings tokens with
    | none => []
    | some (exact, merged) =>
      match (exact ++ merged).mergeSort fun p q => p.len ≤ q.len with
      | [] => []
      | seed :: rest => rank (intersect seed.entries rest) limit

/-! ### The scan -/

/-- How often an entity holds what a query term asks for, term by term. -/
def hits (terms : List (Term × ℕ)) (token : Term × Bool) : List ℕ :=
  (terms.filter fun e => if token.2 then token.1.isPrefixOf e.1 else e.1 == token.1).map Prod.snd

/-- The score of an entity that holds every query term. -/
def score (terms : List (Term × ℕ)) (tokens : List (Term × Bool)) : Option ℕ :=
  if tokens.all fun q => !(hits terms q).isEmpty then
    some (min (tokens.map fun q => (hits terms q).sum).sum U32_MAX)
  else none

/-- Score every document, and sort them. -/
def Docs.scan (docs : Docs) (tokens : List (Term × Bool)) (limit : Option ℕ) : Bucket :=
  let all := (mapValues (fun _ terms => score terms tokens) docs).mergeSort order
  limit.elim all all.take

/-! ### Terms with a common start -/

section Range

variable {token : Term}

theorem le_of_isPrefix {term : Term} (h : token <+: term) : token ≤ term := by
  obtain ⟨rest, rfl⟩ := h
  induction token with
  | nil => exact not_lt.mp (List.not_lt_nil _)
  | cons c token ih =>
    rw [cons_append, ← not_lt, List.cons_lt_cons_iff]
    rintro (hlt | ⟨-, hlt⟩)
    · exact absurd hlt (lt_irrefl c)
    · exact absurd hlt (not_lt.mpr ih)

/-- Between a term and one that starts with it, every term starts with it. -/
theorem isPrefix_of_between {a b : Term} (ha : token ≤ a) (hab : a ≤ b) (hb : token <+: b) :
    token <+: a := by
  induction token generalizing a b with
  | nil => exact nil_prefix
  | cons c token ih =>
    obtain ⟨rest, rfl⟩ := hb
    cases a with
    | nil => exact absurd (List.nil_lt_cons c token) (not_lt.mpr ha)
    | cons d a =>
      rw [cons_append] at hab
      rw [← not_lt, List.cons_lt_cons_iff] at ha hab
      rw [not_or] at ha hab
      have hdc : d = c := le_antisymm (not_lt.mp hab.1) (not_lt.mp ha.1)
      subst hdc
      have ha' : token ≤ a := not_lt.mp fun hlt => ha.2 ⟨rfl, hlt⟩
      have hab' : a ≤ token ++ rest := not_lt.mp fun hlt => hab.2 ⟨rfl, hlt⟩
      exact (prefix_cons_inj d).mpr (ih ha' hab' (prefix_append token rest))

theorem takeWhile_eq {es : List (Term × Bucket)} (h : Sorted es) (hle : ∀ e ∈ es, token ≤ e.1) :
    es.takeWhile (fun e => token.isPrefixOf e.1) = es.filter fun e => token.isPrefixOf e.1 := by
  induction es with
  | nil => rfl
  | cons e es ih =>
    obtain ⟨hhead, htail⟩ := sorted_cons.mp h
    have hrest := ih htail fun e he => hle e (mem_cons_of_mem _ he)
    by_cases hstart : token.isPrefixOf e.1 = true
    · rw [takeWhile_cons, filter_cons, hstart, hrest]
      rfl
    · have hnone : (e :: es).filter (fun e => token.isPrefixOf e.1) = [] := by
        rw [filter_eq_nil_iff]
        intro e' he' hstart'
        rcases mem_cons.mp he' with rfl | he'
        · exact hstart hstart'
        · rw [ isPrefixOf_iff_prefix] at hstart hstart'
          exact hstart (isPrefix_of_between (hle e mem_cons_self) (hhead e' he').le hstart')
      rw [takeWhile_cons, if_neg hstart, hnone]

/-- The range that a query walks holds all the terms that start with its token. -/
theorem range_eq {es : List (Term × Bucket)} (h : Sorted es) :
    (es.dropWhile fun e => decide (e.1 < token)).takeWhile (fun e => token.isPrefixOf e.1) =
      es.filter fun e => token.isPrefixOf e.1 := by
  induction es with
  | nil => rfl
  | cons e es ih =>
    obtain ⟨hhead, htail⟩ := sorted_cons.mp h
    by_cases hlt : e.1 < token
    · have hno : ¬ token.isPrefixOf e.1 = true := by
        rw [ isPrefixOf_iff_prefix]
        exact fun hstart => absurd hlt (not_lt.mpr (le_of_isPrefix hstart))
      rw [dropWhile_cons_of_pos (by simpa using hlt), filter_cons, if_neg hno, ih htail]
    · rw [dropWhile_cons_of_neg (by simpa using hlt)]
      refine takeWhile_eq h ?_
      intro e' he'
      rcases mem_cons.mp he' with rfl | he'
      · exact not_lt.mp hlt
      · exact (not_lt.mp hlt).trans (hhead e' he').le

end Range

/-! ### Summing counts -/

/-- The counts of an entity in a list of hits. -/
def countsOf (id : ℕ) (hits : Bucket) : List ℕ := (hits.filter fun e => e.1 == id).map Prod.snd

/-- The saturated total of the counts, if there are any. -/
def total (counts : List ℕ) : Option ℕ :=
  if counts.isEmpty then none else some (min counts.sum U32_MAX)

theorem total_perm {xs ys : List ℕ} (h : xs ~ ys) : total xs = total ys := by
  rw [total, total, h.sum_nat]
  cases xs with
  | nil => rw [nil_perm.mp h]
  | cons x xs =>
    cases ys with
    | nil => exact absurd h.length_eq (by simp)
    | cons y ys => rfl

theorem sorted_sumRunsFrom {kept : ℕ × ℕ} {hits : Bucket}
    (h : (kept :: hits).Pairwise fun a b => a.1 ≤ b.1) :
    Sorted (sumRunsFrom kept hits) ∧ ∀ e ∈ sumRunsFrom kept hits, kept.1 ≤ e.1 := by
  induction hits generalizing kept with
  | nil =>
    refine ⟨pairwise_singleton _ _, ?_⟩
    intro e he
    rw [mem_singleton.mp he]
  | cons hit hits ih =>
    obtain ⟨hkept, hrest⟩ := pairwise_cons.mp h
    rw [sumRunsFrom]
    split_ifs with hid
    · refine ih (pairwise_cons.mpr ⟨?_, (pairwise_cons.mp hrest).2⟩)
      exact fun e he => hkept e (mem_cons_of_mem _ he)
    · obtain ⟨hsorted, hle⟩ := ih hrest
      have hlt : kept.1 < hit.1 := lt_of_le_of_ne (hkept hit mem_cons_self) (Ne.symm hid)
      refine ⟨sorted_cons.mpr ⟨fun e he => hlt.trans_le (hle e he), hsorted⟩, ?_⟩
      intro e he
      rcases mem_cons.mp he with rfl | he
      · exact le_rfl
      · exact hlt.le.trans (hle e he)

/-- The summed list says how often each entity was hit in all. -/
theorem get?_sumRunsFrom {kept : ℕ × ℕ} {hits : Bucket} (id : ℕ)
    (h : (kept :: hits).Pairwise fun a b => a.1 ≤ b.1)
    (hmax : ∀ e ∈ kept :: hits, e.2 ≤ U32_MAX) :
    get? id (sumRunsFrom kept hits) = total (countsOf id (kept :: hits)) := by
  induction hits generalizing kept with
  | nil =>
    have hle : kept.2 ≤ U32_MAX := hmax kept mem_cons_self
    by_cases hid : id = kept.1
    · subst hid
      simp [sumRunsFrom, get?, countsOf, total, hle]
    · simp [sumRunsFrom, get?, countsOf, total, hid, Ne.symm hid]
  | cons hit hits ih =>
    obtain ⟨hkept, hrest⟩ := pairwise_cons.mp h
    have hmax' : ∀ e ∈ hits, e.2 ≤ U32_MAX := fun e he =>
      hmax e (mem_cons_of_mem _ (mem_cons_of_mem _ he))
    rw [sumRunsFrom]
    split_ifs with hsame
    · have hsum := @ih (kept.1, saturatingAdd kept.2 hit.2)
        (pairwise_cons.mpr ⟨fun e he => hkept e (mem_cons_of_mem _ he), (pairwise_cons.mp hrest).2⟩)
        (by
          intro e he
          rcases mem_cons.mp he with rfl | he
          · exact min_le_right _ _
          · exact hmax' e he)
      rw [hsum]
      by_cases hid : kept.1 = id
      · have hhit : hit.1 = id := hsame.trans hid
        simp only [countsOf, hid, hhit, BEq.rfl, filter_cons_of_pos, map_cons, total,
          isEmpty_cons, Bool.false_eq_true, if_false, sum_cons, saturatingAdd]
        congr 1
        omega
      · have hhit : ¬ hit.1 = id := fun heq => hid (hsame ▸ heq)
        simp [countsOf, hid, hhit]
    · have hlt : kept.1 < hit.1 := lt_of_le_of_ne (hkept hit mem_cons_self) (Ne.symm hsame)
      have hsum := ih hrest fun e he => hmax e (mem_cons_of_mem _ he)
      by_cases hid : id = kept.1
      · have hothers : (hit :: hits).filter (fun e => e.1 == id) = [] := by
          rw [filter_eq_nil_iff]
          intro e he
          have hge : hit.1 ≤ e.1 := by
            rcases mem_cons.mp he with rfl | he
            · exact le_rfl
            · exact (pairwise_cons.mp hrest).1 e he
          have hne : e.1 ≠ id := by omega
          simpa using hne
        have hle : kept.2 ≤ U32_MAX := hmax kept mem_cons_self
        rw [get?, if_pos hid, countsOf, filter_cons_of_pos (by simpa using hid.symm), hothers]
        simp [total, hle]
      · have hother : ¬ (kept.1 == id) = true := by simpa using Ne.symm hid
        rw [get?, if_neg hid, hsum, countsOf, countsOf, filter_cons (x := kept), if_neg hother]

/-! ### What a posting list answers -/

/-- How often an entity holds what a query term asks for. -/
def tokenHits (docs : Docs) (token : Term × Bool) (id : ℕ) : Option ℕ :=
  (get? id docs).bind fun terms => total (hits terms token)

/-- A posting list in id order that says so for every entity. -/
structure Answers (docs : Docs) (token : Term × Bool) (p : Posting) : Prop where
  sorted : Sorted p.entries
  get : ∀ id, p.get id = tokenHits docs token id

theorem total_le {counts : List ℕ} {n : ℕ} (h : total counts = some n) : n ≤ U32_MAX := by
  rw [total] at h
  split_ifs at h
  rw [← Option.some_inj.mp h]
  exact min_le_right _ _

theorem tokenHits_le {docs : Docs} {token : Term × Bool} {id n : ℕ}
    (h : tokenHits docs token id = some n) : n ≤ U32_MAX := by
  obtain ⟨terms, -, htotal⟩ := bind_eq_some_iff.mp h
  exact total_le htotal

section Answering

variable {idx : FulltextIndex} {docs : Docs} {token : Term}

theorem count_le (h : Reflects idx docs) {term : Term} {id n : ℕ}
    (hcount : docs.count term id = some n) : n ≤ U32_MAX := by
  obtain ⟨terms, hterms, hget⟩ := bind_eq_some_iff.mp hcount
  exact (h.counts _ (get?_mem hterms)).2 _ (get?_mem hget)

theorem hits_exact {terms : List (Term × ℕ)} (h : Sorted terms) (token : Term) :
    hits terms (token, false) = (get? token terms).toList := by
  rw [← h.filter_key, hits]
  simp

/-- The posting list of an exact term. -/
theorem index_answers (h : Reflects idx docs) {bucket : Bucket}
    (hget : get? token idx.postings = some bucket) :
    Answers docs (token, false) (.index bucket) := by
  refine ⟨(h.wellformed.bucket hget).1, ?_⟩
  intro id
  have hposted := h.posted token id
  rw [posted, hget, bind_some] at hposted
  rw [Posting.get, Posting.entries, hposted, Docs.count, tokenHits]
  cases hdoc : get? id docs with
  | none => rfl
  | some terms =>
    have hsorted : Sorted terms := (h.counts _ (get?_mem hdoc)).1
    have hhits := hits_exact hsorted token
    rw [bind_some, bind_some, hhits]
    cases hterm : get? token terms with
    | none => rfl
    | some tf =>
      have hle : tf ≤ U32_MAX := (h.counts _ (get?_mem hdoc)).2 _ (get?_mem hterm)
      simp [total, hle]

/-- A term without a posting list is held by no entity. -/
theorem tokenHits_of_get?_none (h : Reflects idx docs) (hget : get? token idx.postings = none)
    (id : ℕ) : tokenHits docs (token, false) id = none := by
  have hposted := h.posted token id
  rw [posted, hget, Option.bind_none, Docs.count] at hposted
  rw [tokenHits]
  cases hdoc : get? id docs with
  | none => rfl
  | some terms =>
    have hsorted : Sorted terms := (h.counts _ (get?_mem hdoc)).1
    have hhits := hits_exact hsorted token
    rw [hdoc, bind_some] at hposted
    rw [bind_some, hhits, ← hposted]
    rfl

theorem mapValues_filter {es : List (Term × Bucket)} (p : Term → Bool) :
    es.filter (fun e => p e.1) = mapValues (fun k v => if p k then some v else none) es := by
  induction es with
  | nil => rfl
  | cons e es ih =>
    rw [mapValues, filterMap_cons]
    cases hp : p e.1 <;> simp [hp, ih, mapValues]

/-- The counts an entity has in the lists of the terms that start with a token are those of
its own terms that do. -/
theorem countsOf_range (h : Reflects idx docs) (id : ℕ) :
    countsOf id ((idx.postings.filter fun e => token.isPrefixOf e.1).flatMap Prod.snd) =
      ((get? id docs).map fun terms => hits terms (token, true)).getD [] := by
  let range := idx.postings.filter fun e => token.isPrefixOf e.1
  have hbuckets : ∀ e ∈ range, Sorted e.2 := fun e he =>
    (h.wellformed.buckets e (mem_of_mem_filter he)).1
  -- One list holds an entity at most once.
  have hflat : ∀ es : List (Term × Bucket), (∀ e ∈ es, Sorted e.2) →
      countsOf id (es.flatMap Prod.snd) =
        (mapValues (fun _ bucket => get? id bucket) es).map Prod.snd := by
    intro es
    induction es with
    | nil => exact fun _ => rfl
    | cons e es ih =>
      intro hes
      have hrest := ih fun e he => hes e (mem_cons_of_mem _ he)
      have hfirst := (hes e mem_cons_self).filter_key id
      rw [countsOf] at hrest ⊢
      rw [flatMap_cons, filter_append, map_append, hrest, hfirst, mapValues, mapValues,
        filterMap_cons]
      cases get? id e.2 <;> rfl
  have hsortedRange : Sorted range := h.wellformed.sorted.filter _
  have hget : ∀ term, get? term (mapValues (fun _ bucket => get? id bucket) range) =
      if token.isPrefixOf term then docs.count term id else none := by
    intro term
    rw [hsortedRange.get?_mapValues, ← h.posted, posted]
    simp only [range]
    rw [mapValues_filter (fun t => token.isPrefixOf t), h.wellformed.sorted.get?_mapValues]
    cases get? term idx.postings with
    | none => simp
    | some bucket => by_cases hp : token.isPrefixOf term = true <;> simp [hp]
  rw [hflat range hbuckets]
  cases hdoc : get? id docs with
  | none =>
    have hnil : mapValues (fun _ bucket => get? id bucket) range = [] := by
      refine (hsortedRange.mapValues _).ext sorted_nil ?_
      intro term
      rw [hget, Docs.count, hdoc]
      split_ifs <;> rfl
    rw [hnil]
    rfl
  | some terms =>
    have hsorted : Sorted terms := (h.counts _ (get?_mem hdoc)).1
    have hsortedKept : Sorted (terms.filter fun e => token.isPrefixOf e.1) := hsorted.filter _
    have hsame : mapValues (fun _ bucket => get? id bucket) range =
        terms.filter fun e => token.isPrefixOf e.1 := by
      refine (hsortedRange.mapValues _).ext hsortedKept ?_
      intro term
      rw [hget, Docs.count, hdoc, bind_some]
      by_cases hp : token.isPrefixOf term = true
      · rw [if_pos hp]
        cases hterm : get? term terms with
        | none =>
          refine (get?_eq_none.mpr ?_).symm
          intro e he
          exact get?_eq_none.mp hterm e (mem_filter.mp he).1
        | some tf =>
          have hkept : (term, tf) ∈ terms.filter fun e => token.isPrefixOf e.1 :=
            mem_filter.mpr ⟨get?_mem hterm, hp⟩
          exact (hsortedKept.mem_iff.mp hkept).symm
      · rw [if_neg hp]
        refine (get?_eq_none.mpr ?_).symm
        rintro e he rfl
        exact hp (mem_filter.mp he).2
    rw [hsame]
    simp [hits]

/-- The merged posting lists of a prefix term. -/
theorem mergedHits_answers (token : Term) (h : Reflects idx docs) :
    Answers docs (token, true) (.merged (mergedHits idx.postings token)) := by
  let gathered := (idx.postings.filter fun e => token.isPrefixOf e.1).flatMap Prod.snd
  let sorted := gathered.mergeSort fun a b => a.1 ≤ b.1
  have heq : mergedHits idx.postings token = sumRuns sorted := by
    rw [mergedHits, range_eq h.wellformed.sorted]
  have hperm : sorted ~ gathered := mergeSort_perm _ _
  have hpairwise : sorted.Pairwise fun a b => a.1 ≤ b.1 := by
    have hle : TopK.IsOrder fun a b : ℕ × ℕ => decide (a.1 ≤ b.1) := by
      constructor
      · intro a b c hab hbc
        simp only [decide_eq_true_eq] at *
        omega
      · intro a b
        simp only [Bool.or_eq_true, decide_eq_true_eq]
        omega
    exact (hle.pairwise gathered).imp fun hab => by simpa using hab
  have hmax : ∀ e ∈ sorted, e.2 ≤ U32_MAX := by
    intro e he
    obtain ⟨entry, hentry, hmem⟩ := mem_flatMap.mp (hperm.mem_iff.mp he)
    have hin := mem_of_mem_filter hentry
    have hget := (h.wellformed.sorted.mem_iff (k := entry.1) (v := entry.2)).mp hin
    have hposted := h.posted entry.1 e.1
    rw [posted, hget, bind_some,
      ((h.wellformed.buckets entry hin).1.mem_iff (k := e.1) (v := e.2)).mp hmem] at hposted
    exact count_le h hposted.symm
  have hcounts : ∀ id, total (countsOf id sorted) = tokenHits docs (token, true) id := by
    intro id
    have hsame : countsOf id sorted ~ countsOf id gathered := (hperm.filter _).map _
    rw [total_perm hsame, countsOf_range h id, tokenHits]
    cases get? id docs <;> rfl
  rw [heq]
  cases hcase : sorted with
  | nil =>
    refine ⟨sorted_nil, ?_⟩
    intro id
    rw [← hcounts id, hcase]
    rfl
  | cons hit hits =>
    rw [hcase] at hpairwise hmax hcounts
    exact ⟨(sorted_sumRunsFrom hpairwise).1, fun id =>
      (get?_sumRunsFrom id hpairwise hmax).trans (hcounts id)⟩

/-- The posting lists of a query hold what its terms ask for, in some order. -/
theorem resolve_answers (h : Reflects idx docs) (tokens : List (Term × Bool)) :
    (resolve idx.postings tokens = none ∧ ∃ q ∈ tokens, ∀ id, tokenHits docs q id = none) ∨
      ∃ exact merged, resolve idx.postings tokens = some (exact, merged) ∧
        (∀ p ∈ exact ++ merged, ∃ q, Answers docs q p) ∧
        ∀ id, (exact ++ merged).map (·.get id) ~ tokens.map (tokenHits docs · id) := by
  induction tokens with
  | nil => exact .inr ⟨[], [], rfl, by simp, fun _ => .nil⟩
  | cons q tokens ih =>
    obtain ⟨token, starts⟩ := q
    obtain ⟨hrest, q, hq, hnone⟩ | ⟨exact, merged, hrest, hanswers, hperm⟩ := ih
    · refine .inl ⟨?_, q, mem_cons_of_mem _ hq, hnone⟩
      cases starts with
      | true =>
        rw [resolve, hrest]
        exact ite_self _
      | false =>
        rw [resolve, hrest]
        cases get? token idx.postings <;> rfl
    cases starts with
    | true =>
      have hmerged := mergedHits_answers token h
      by_cases hempty : (mergedHits idx.postings token).isEmpty = true
      · refine .inl ⟨?_, (token, true), mem_cons_self, ?_⟩
        · rw [resolve]
          exact if_pos hempty
        · intro id
          rw [← hmerged.get id, Posting.get, Posting.entries, List.isEmpty_iff.mp hempty]
          rfl
      · refine .inr ⟨exact, .merged (mergedHits idx.postings token) :: merged, ?_, ?_, ?_⟩
        · rw [resolve, hrest]
          exact if_neg hempty
        · intro p hp
          rcases mem_append.mp hp with hp | hp
          · exact hanswers p (mem_append_left _ hp)
          · rcases mem_cons.mp hp with rfl | hp
            · exact ⟨_, hmerged⟩
            · exact hanswers p (mem_append_right _ hp)
        · intro id
          have hmiddle : exact ++ .merged (mergedHits idx.postings token) :: merged ~
              .merged (mergedHits idx.postings token) :: (exact ++ merged) := perm_middle
          refine (hmiddle.map _).trans ?_
          rw [map_cons, map_cons, hmerged.get id]
          exact (hperm id).cons _
    | false =>
      cases hget : get? token idx.postings with
      | none =>
        refine .inl ⟨?_, (token, false), mem_cons_self, tokenHits_of_get?_none h hget⟩
        rw [resolve, hget]
      | some bucket =>
        have hindex := index_answers h hget
        refine .inr ⟨.index bucket :: exact, merged, ?_, ?_, ?_⟩
        · rw [resolve, hget, hrest]
          rfl
        · intro p hp
          rcases mem_cons.mp hp with rfl | hp
          · exact ⟨_, hindex⟩
          · exact hanswers p hp
        · intro id
          rw [cons_append, map_cons, map_cons, hindex.get id]
          exact (hperm id).cons _

end Answering

/-! ### The intersection -/

/-- What an entity scores that has all of some counts. -/
def combine (counts : List (Option ℕ)) : Option ℕ :=
  if none ∈ counts then none else some (min (counts.map (·.getD 0)).sum U32_MAX)

theorem combine_perm {xs ys : List (Option ℕ)} (h : xs ~ ys) : combine xs = combine ys := by
  have hmem : none ∈ xs ↔ none ∈ ys := h.mem_iff
  have hsum : (xs.map (·.getD 0)).sum = (ys.map (·.getD 0)).sum := (h.map _).sum_nat
  simp only [combine, hmem, hsum]

/-- Two counts are combined first, or with the others. -/
theorem combine_cons (x y : Option ℕ) (counts : List (Option ℕ)) : combine (x :: y :: counts) =
      combine ((x.bind fun a => y.map (saturatingAdd a)) :: counts) := by
  cases x with
  | none => simp [combine]
  | some a =>
    cases y with
    | none => simp [combine]
    | some b =>
      by_cases hnone : none ∈ counts
      · simp [combine, hnone]
      · have hsum : min (a + (b + (counts.map (·.getD 0)).sum)) U32_MAX =
            min (min (a + b) U32_MAX + (counts.map (·.getD 0)).sum) U32_MAX := by omega
        simp [combine, hnone, saturatingAdd, hsum]

theorem combine_singleton {x : Option ℕ} (h : ∀ n, x = some n → n ≤ U32_MAX) : combine [x] = x := by
  cases x with
  | none => rfl
  | some n => simp [combine, h n rfl]

/-- Intersecting keeps the entities that every list has, with their combined counts. -/
theorem intersect_get {results : Bucket} (hsorted : Sorted results)
    (hmax : ∀ id n, get? id results = some n → n ≤ U32_MAX) (ps : List Posting) :
    Sorted (intersect results ps) ∧ ∀ id, get? id (intersect results ps) =
        combine (get? id results :: ps.map (·.get id)) := by
  induction ps generalizing results with
  | nil => exact ⟨hsorted, fun id => (combine_singleton (hmax id)).symm⟩
  | cons p ps ih =>
    let kept := mapValues (fun id acc => (p.get id).map (saturatingAdd acc)) results
    have hkept : Sorted kept := hsorted.mapValues _
    have hget : ∀ id, get? id kept =
        (get? id results).bind fun a => (p.get id).map (saturatingAdd a) :=
      fun id => hsorted.get?_mapValues _ id
    have hkeptMax : ∀ id n, get? id kept = some n → n ≤ U32_MAX := by
      intro id n hn
      rw [hget] at hn
      obtain ⟨a, -, hn⟩ := bind_eq_some_iff.mp hn
      obtain ⟨b, -, rfl⟩ := Option.map_eq_some_iff.mp hn
      exact min_le_right _ _
    obtain ⟨hrest, hrestGet⟩ := ih hkept hkeptMax
    rw [intersect]
    by_cases hempty : kept.isEmpty = true
    · rw [if_pos hempty]
      refine ⟨sorted_nil, ?_⟩
      intro id
      have hnone : get? id kept = none := by
        rw [List.isEmpty_iff.mp hempty]
        rfl
      rw [map_cons, combine_cons, ← hget, hnone]
      simp [combine]
    · rw [if_neg hempty]
      refine ⟨hrest, ?_⟩
      intro id
      rw [hrestGet, map_cons, combine_cons, ← hget]

/-- The scan scores an entity by the same counts. -/
theorem score_eq {docs : Docs} {tokens : List (Term × Bool)} (hne : tokens ≠ []) (id : ℕ) :
    combine (tokens.map (tokenHits docs · id)) =
      (get? id docs).bind fun terms => score terms tokens := by
  cases hdoc : get? id docs with
  | none =>
    obtain ⟨q, tokens, rfl⟩ := exists_cons_of_ne_nil hne
    simp [combine, tokenHits, hdoc]
  | some terms =>
    have hhits : ∀ q, tokenHits docs q id = total (hits terms q) := by
      intro q
      rw [tokenHits, hdoc, bind_some]
    have hmem : none ∈ tokens.map (tokenHits docs · id) ↔
        ¬ (tokens.all fun q => !(hits terms q).isEmpty) = true := by
      rw [mem_map, all_eq_true]
      simp only [hhits, total]
      constructor
      · rintro ⟨q, hq, hnone⟩ hall
        have hfull := hall q hq
        split_ifs at hnone with hempty
        rw [hempty] at hfull
        cases hfull
      · intro hnot
        push Not at hnot
        obtain ⟨q, hq, hempty⟩ := hnot
        refine ⟨q, hq, if_pos ?_⟩
        simpa using hempty
    have hsum : ∀ tokens : List (Term × Bool), (∀ q ∈ tokens, (hits terms q).isEmpty = false) →
        min ((tokens.map (tokenHits docs · id)).map (·.getD 0)).sum U32_MAX =
          min (tokens.map fun q => (hits terms q).sum).sum U32_MAX := by
      intro tokens
      induction tokens with
      | nil => exact fun _ => rfl
      | cons q tokens ih =>
        intro hfull
        have hrest := ih fun q hq => hfull q (mem_cons_of_mem _ hq)
        have hfirst : (tokenHits docs q id).getD 0 = min (hits terms q).sum U32_MAX := by
          rw [hhits, total, hfull q mem_cons_self]
          rfl
        simp only [map_cons, sum_cons, hfirst]
        omega
    rw [bind_some, combine, score]
    by_cases hall : (tokens.all fun q => !(hits terms q).isEmpty) = true
    · rw [if_neg (fun hnone => hmem.mp hnone hall), if_pos hall]
      refine congrArg some (hsum tokens ?_)
      intro q hq
      simpa using all_eq_true.mp hall q hq
    · rw [if_pos (hmem.mpr hall), if_neg hall]

/-! ### Ranking -/

theorem order_isOrder : TopK.IsOrder order := by
  constructor
  · intro a b c hab hbc
    simp only [order, Bool.or_eq_true, Bool.and_eq_true, decide_eq_true_eq, beq_iff_eq] at *
    omega
  · intro a b
    simp only [order, Bool.or_eq_true, Bool.and_eq_true, decide_eq_true_eq, beq_iff_eq]
    omega

/-- Selecting the best before sorting gives the first of the sorted list. -/
theorem rank_eq (results : Bucket) (limit : Option ℕ) :
    rank results limit = limit.elim (results.mergeSort order) (results.mergeSort order).take := by
  cases limit with
  | none => rfl
  | some k =>
    simp only [rank, Option.elim_some]
    split_ifs with hk
    · have hsorted : ((results.mergeSort order).take k).Pairwise fun a b => order a b :=
        (order_isOrder.pairwise results).sublist (take_sublist k _)
      exact mergeSort_of_pairwise hsorted
    · rw [take_of_length_le]
      rw [length_mergeSort]
      omega

/-! ### Queries and scans -/

/-- A query on an index that reflects the documents scans them. -/
theorem query_of_reflects {idx : FulltextIndex} {docs : Docs} (h : Reflects idx docs)
    (u : UnicodeData) (queryText : Text) (limit : Option ℕ) :
    idx.query u queryText limit =
      if (analyze u queryText true).isEmpty then []
      else docs.scan (analyze u queryText true) limit := by
  rw [FulltextIndex.query]
  let tokens := analyze u queryText true
  change (if (tokens.isEmpty || limit == some 0) = true then [] else _) =
    if tokens.isEmpty = true then [] else docs.scan tokens limit
  by_cases hempty : tokens.isEmpty = true
  · rw [if_pos hempty, hempty, Bool.true_or, if_pos rfl]
  have hne : tokens ≠ [] := fun hnil => hempty (List.isEmpty_iff.mpr hnil)
  rw [if_neg hempty]
  by_cases hzero : limit = some 0
  · rw [hzero]
    simp [Docs.scan]
  have hguard : ¬ (tokens.isEmpty || limit == some 0) = true := by simp [hne, hzero]
  rw [if_neg hguard]
  have hscan : ∀ id, get? id (mapValues (fun _ terms => score terms tokens) docs) =
      combine (tokens.map (tokenHits docs · id)) := by
    intro id
    rw [h.sortedDocs.get?_mapValues, score_eq hne]
  have hsortedScan : Sorted (mapValues (fun _ terms => score terms tokens) docs) :=
    h.sortedDocs.mapValues _
  obtain ⟨hresolve, q, hq, hnone⟩ | ⟨exact, merged, hresolve, hanswers, hperm⟩ :=
    resolve_answers h tokens
  · have hnil : mapValues (fun _ terms => score terms tokens) docs = [] := by
      refine hsortedScan.ext sorted_nil ?_
      intro id
      have hmem : none ∈ tokens.map (tokenHits docs · id) := mem_map.mpr ⟨q, hq, hnone id⟩
      rw [hscan, combine, if_pos hmem]
      rfl
    rw [hresolve, Docs.scan, hnil]
    cases limit <;> simp
  · rw [hresolve]
    let postings := (exact ++ merged).mergeSort fun p q => p.len ≤ q.len
    have hsort : postings ~ exact ++ merged := mergeSort_perm _ _
    have hall : ∀ id, postings.map (·.get id) ~ tokens.map (tokenHits docs · id) :=
      fun id => (hsort.map _).trans (hperm id)
    change (match postings with
      | [] => []
      | seed :: rest => rank (intersect seed.entries rest) limit) = _
    cases hcase : postings with
    | nil =>
      have hlen := (hall 0).length_eq
      rw [hcase, length_map, length_map] at hlen
      exact absurd (length_eq_zero_iff.mp hlen.symm) hne
    | cons seed rest =>
      obtain ⟨q, hseed⟩ := hanswers seed
        (hsort.mem_iff.mp (by rw [hcase]; exact mem_cons_self))
      have hmax : ∀ id n, get? id seed.entries = some n → n ≤ U32_MAX := by
        intro id n hn
        exact tokenHits_le ((hseed.get id).symm.trans hn)
      obtain ⟨hsorted, hget⟩ := intersect_get hseed.sorted hmax rest
      have hsame : intersect seed.entries rest =
          mapValues (fun _ terms => score terms tokens) docs := by
        refine hsorted.ext hsortedScan ?_
        intro id
        have hcombine := combine_perm (hall id)
        rw [hcase, map_cons] at hcombine
        rw [hget, hscan, ← hcombine]
        rfl
      rw [Docs.scan, ← hsame]
      exact rank_eq _ limit

/-- **The index is a scan of its documents.** After every run, every query with a term answers as
a scan of the documents does, and a query without terms answers nothing. The counts of a document
are those of its tokens, which do not depend on how a text without loose marks is composed. -/
theorem fulltext_eq_scan (u : UnicodeData) (hu : u.Laws) (ops : List Op) :
    (∀ queryText limit, (FulltextIndex.run ops).query u queryText limit =
      if (analyze u queryText true).isEmpty then []
      else (Docs.run ops).scan (analyze u queryText true) limit) ∧
    (∀ text term, get? term (tokenizeToTermCounts u text) =
      if term ∈ standardAnalyzer u text
      then some ((standardAnalyzer u text).count term % 2 ^ 32) else none) ∧
    ∀ s t, Composed u s → Composed u t → CanonicallyEquivalent u s t →
      standardAnalyzer u s = standardAnalyzer u t :=
  ⟨query_of_reflects (reflects_run ops) u, get?_tokenizeToTermCounts u,
    fun _ _ => standardAnalyzer_congr hu⟩

/-! ### Letters with a ring -/

/-- The tables for ASCII, the letter a with a ring and its mark. -/
def ringed : UnicodeData where
  alphanumeric c := c.isAlphanum || c == 'Å' || c == 'å' || c == '\u212B'
  lower c := if c = 'Å' ∨ c = '\u212B' then ['å'] else [c.toLower]
  decompose c :=
    if c = 'Å' ∨ c = '\u212B' then ['A', '\u030A']
    else if c = 'å' then ['a', '\u030A']
    else [c]
  combiningClass c := if isDiacritical c then 230 else 0

theorem ringed_cases (c : Char) : c = 'Å' ∨ c = '\u212B' ∨ c = 'å' ∨ ringed.decompose c = [c] := by
  by_cases hupper : c = 'Å' ∨ c = '\u212B'
  · tauto
  · by_cases hlower : c = 'å'
    · tauto
    · simp [ringed, hupper, hlower]

theorem ringed_laws : ringed.Laws where
  ordered := by
    intro c
    obtain rfl | rfl | rfl | hc := ringed_cases c
    · decide
    · decide
    · decide
    · rw [hc]
      rfl
  ascii := by
    intro c hascii
    obtain rfl | rfl | rfl | hc := ringed_cases c
    · exact absurd hascii (by decide)
    · exact absurd hascii (by decide)
    · exact absurd hascii (by decide)
    · exact hc
  mapped := by
    intro c hmapped
    obtain rfl | rfl | rfl | hc := ringed_cases c
    · exact absurd hmapped (by decide)
    · exact absurd hmapped (by decide)
    · exact absurd hmapped (by decide)
    · exact hc
  alphanumeric := by
    intro c _ d hd hstarter
    obtain rfl | rfl | rfl | hc := ringed_cases c
    · obtain rfl | rfl : d = 'A' ∨ d = '\u030A' := by simpa [ringed] using hd
      · decide
      · exact absurd hstarter (by decide)
    · obtain rfl | rfl : d = 'A' ∨ d = '\u030A' := by simpa [ringed] using hd
      · decide
      · exact absurd hstarter (by decide)
    · obtain rfl | rfl : d = 'a' ∨ d = '\u030A' := by simpa [ringed] using hd
      · decide
      · exact absurd hstarter (by decide)
    · rw [hc, mem_singleton] at hd
      rw [hd]
  lower := by
    intro c
    obtain rfl | rfl | rfl | hc := ringed_cases c
    · decide
    · decide
    · decide
    · rw [hc]
      simp

/-- None of these letters hides one of the table. -/
theorem ringed_whole {c d : Char} {ds : Text} (hc : ringed.decompose c = d :: ds)
    (hstarter : ringed.combiningClass d = 0) : Whole ringed c := by
  refine ⟨⟨d, ds, hc, hstarter⟩, ?_⟩
  intro l _ d hd hmapped
  obtain rfl | rfl | rfl | hl := ringed_cases l
  · obtain rfl | rfl : d = 'A' ∨ d = '\u030A' := by simpa [ringed] using hd
    · exact absurd hmapped (by decide)
    · exact absurd hmapped (by decide)
  · obtain rfl | rfl : d = 'A' ∨ d = '\u030A' := by simpa [ringed] using hd
    · exact absurd hmapped (by decide)
    · exact absurd hmapped (by decide)
  · obtain rfl | rfl : d = 'a' ∨ d = '\u030A' := by simpa [ringed] using hd
    · exact absurd hmapped (by decide)
    · exact absurd hmapped (by decide)
  · rw [hl, mem_singleton] at hd
    exact hd.symm

theorem ringed_tokens :
    standardAnalyzer ringed ['\u212B', 'r'] = standardAnalyzer ringed ['Å', 'r'] := by
  have hr : Whole ringed 'r' := by
    have hdec : ringed.decompose 'r' = ['r'] := by decide
    exact ringed_whole hdec (by decide)
  have hring : ∀ c, ringed.decompose c = ['A', '\u030A'] → Composed ringed [c, 'r'] := by
    intro c hc c' hc'
    rcases mem_cons.mp hc' with rfl | hc'
    · exact ringed_whole hc (by decide)
    · rw [mem_singleton.mp hc']
      exact hr
  exact (fulltext_eq_scan ringed ringed_laws []).2.2 _ _ (hring '\u212B' (by decide))
    (hring 'Å' (by decide)) (by unfold CanonicallyEquivalent; decide)

/-- A loose mark ends its token, and a query without terms does not match every document. -/
theorem looseMark_splits :
    (ringed.Laws ∧ CanonicallyEquivalent ringed ['Å', 'r'] ['A', '\u030A', 'r'] ∧
      standardAnalyzer ringed ['Å', 'r'] ≠ standardAnalyzer ringed ['A', '\u030A', 'r']) ∧
    (FulltextIndex.run [.reindex 1 ⟨[(['a'], 1)], by decide, by decide⟩]).query ringed [] none ≠
      (Docs.run [.reindex 1 ⟨[(['a'], 1)], by decide, by decide⟩]).scan [] none := by
  refine ⟨⟨ringed_laws, by unfold CanonicallyEquivalent; decide, by decide⟩, ?_⟩
  have hquery : ∀ idx : FulltextIndex, idx.query ringed [] none = [] := fun _ => rfl
  rw [hquery]
  simp [Docs.scan, Docs.run, Docs.step, put, mapValues, score]

end Fulltext

end LoraDb
