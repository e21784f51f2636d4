import LoraDb.SortedMap

/-!
# Text as Terms

What a full-text index and a query make of a text: runs of alphanumeric characters, each
lowercased and folded, character by character, to its letters without accents.

The Unicode tables are those of the language and of its normalisation library; what is used of
them is assumed by name (`UnicodeData.Laws`).

## Main results

* `get?_tokenizeToTermCounts`: the counts of a text are how often its tokens occur.
* `standardAnalyzer_congr`: canonically equivalent texts written without loose marks have the
  same tokens.
-/

open List

namespace LoraDb

namespace Fulltext

abbrev Text := List Char

/-- A token, as it is indexed. -/
abbrev Term := List Char

/-- The largest `u32`. -/
def U32_MAX : ℕ := 2 ^ 32 - 1

/-- The tables of Unicode: which characters are alphanumeric, their lower case, their full
canonical decomposition and their combining class. -/
structure UnicodeData where
  alphanumeric : Char → Bool
  lower : Char → Text
  decompose : Char → Text
  combiningClass : Char → ℕ

/-! ### The analyzer -/

def isAscii (ch : Char) : Bool := ch.toNat < 0x80

/-- A combining diacritical mark. -/
def isDiacritical (ch : Char) : Bool := 0x300 ≤ ch.toNat && ch.toNat ≤ 0x36F

/-- Letters without a decomposition that have a conventional spelling. -/
def mapped (ch : Char) : Option Text :=
  match ch with
  | 'ø' => some ['o']
  | 'æ' => some ['a', 'e']
  | 'œ' => some ['o', 'e']
  | 'ß' => some ['s', 's']
  | 'đ' | 'ð' => some ['d']
  | 'ł' => some ['l']
  | 'þ' => some ['t', 'h']
  | 'ı' => some ['i']
  | 'ħ' => some ['h']
  | _ => none

section Analyzer

variable (u : UnicodeData)

/-- What `push_folded` appends for a character. -/
def folded (ch : Char) : Text :=
  if isAscii ch then [ch]
  else
    match mapped ch with
    | some s => s
    | none => (u.decompose ch).filter fun c => !isDiacritical c

/-- The loop of `analyze`, with the token it is in so far. -/
def analyzeFrom (keepPrefixMarker : Bool) : Text → Term → List (Term × Bool)
  | [], buf => if buf.isEmpty then [] else [(buf, false)]
  | ch :: text, buf =>
    if u.alphanumeric ch then
      analyzeFrom keepPrefixMarker text (buf ++ (u.lower ch).flatMap (folded u))
    else if buf.isEmpty then analyzeFrom keepPrefixMarker text []
    else (buf, keepPrefixMarker && ch == '*') :: analyzeFrom keepPrefixMarker text []

/-- The tokens of a text; a query marks those before a star as prefixes. -/
def analyze (text : Text) (keepPrefixMarker : Bool) : List (Term × Bool) :=
  analyzeFrom u keepPrefixMarker text []

def standardAnalyzer (text : Text) : List Term := (analyze u text false).map Prod.fst

/-- How often each token occurs, wrapping as a `u32` does. -/
def countTerms (tokens : List Term) : List (Term × ℕ) :=
  tokens.foldl
    (fun out tok => SortedMap.put tok (((SortedMap.get? tok out).getD 0 + 1) % 2 ^ 32) out) []

def tokenizeToTermCounts (text : Text) : List (Term × ℕ) := countTerms (standardAnalyzer u text)

end Analyzer

/-! ### Counts -/

theorem get?_countTerms (tokens : List Term) (term : Term) :
    SortedMap.get? term (countTerms tokens) =
      if term ∈ tokens then some (tokens.count term % 2 ^ 32) else none := by
  induction tokens using List.reverseRecOn with
  | nil => rfl
  | append_singleton tokens tok ih =>
    have hstep : countTerms (tokens ++ [tok]) =
        SortedMap.put tok (((SortedMap.get? tok (countTerms tokens)).getD 0 + 1) % 2 ^ 32)
          (countTerms tokens) := by
      rw [countTerms, foldl_append]
      rfl
    rw [hstep, SortedMap.get?_put]
    by_cases heq : term = tok
    · subst heq
      have hold : (SortedMap.get? term (countTerms tokens)).getD 0 =
          tokens.count term % 2 ^ 32 := by
        rw [ih]
        by_cases hmem : term ∈ tokens
        · rw [if_pos hmem]
          rfl
        · rw [if_neg hmem, count_eq_zero.mpr hmem]
          rfl
      rw [if_pos rfl, if_pos (by simp), hold, count_append, count_singleton_self, Nat.mod_add_mod]
    · have hcount : (tokens ++ [tok]).count term = tokens.count term := by
        rw [count_append, count_singleton, if_neg (by simpa using Ne.symm heq), Nat.add_zero]
      have hmem : term ∈ tokens ++ [tok] ↔ term ∈ tokens := by simp [heq]
      simp only [heq, if_false, ih, hcount, hmem]

/-- A text holds a term exactly as often as the term is one of its tokens. -/
theorem get?_tokenizeToTermCounts (u : UnicodeData) (text : Text) (term : Term) :
    SortedMap.get? term (tokenizeToTermCounts u text) =
      if term ∈ standardAnalyzer u text
      then some ((standardAnalyzer u text).count term % 2 ^ 32) else none :=
  get?_countTerms _ term

/-! ### Canonical equivalence -/

/-- Move a mark behind those of smaller class that follow it. -/
def placeMark (u : UnicodeData) (c : Char) : Text → Text
  | [] => [c]
  | d :: text =>
    if u.combiningClass c ≠ 0 ∧ u.combiningClass d ≠ 0 ∧
        u.combiningClass d < u.combiningClass c then
      d :: placeMark u c text
    else c :: d :: text

/-- The canonical ordering of the marks of a text. -/
def canonicalOrder (u : UnicodeData) (text : Text) : Text := text.foldr (placeMark u) []

/-- The normal form D of a text. -/
def nfd (u : UnicodeData) (text : Text) : Text := canonicalOrder u (text.flatMap u.decompose)

def CanonicallyEquivalent (u : UnicodeData) (s t : Text) : Prop := nfd u s = nfd u t

/-- A character that begins its decomposition and does not hide a letter of the table. -/
structure Whole (u : UnicodeData) (c : Char) : Prop where
  starter : ∃ d ds, u.decompose c = d :: ds ∧ u.combiningClass d = 0
  mapped : ∀ l ∈ u.lower c, ∀ d ∈ u.decompose l, (Fulltext.mapped d).isSome → l = d

/-- No combining mark on its own. -/
def Composed (u : UnicodeData) (text : Text) : Prop := ∀ c ∈ text, Whole u c

/-- What Unicode promises of its tables. -/
structure UnicodeData.Laws (u : UnicodeData) : Prop where
  /-- Decompositions are in canonical order. -/
  ordered : ∀ c, canonicalOrder u (u.decompose c) = u.decompose c
  ascii : ∀ c, isAscii c → u.decompose c = [c]
  /-- The letters of the table have no decomposition. -/
  mapped : ∀ c, (mapped c).isSome → u.decompose c = [c]
  /-- Decomposing keeps what is a letter. -/
  alphanumeric : ∀ c, Whole u c → ∀ d ∈ u.decompose c, u.combiningClass d = 0 →
    u.alphanumeric d = u.alphanumeric c
  /-- Lowercasing commutes with decomposing. -/
  lower : ∀ c, (u.lower c).flatMap u.decompose =
    (u.decompose c).flatMap fun d => (u.lower d).flatMap u.decompose

section Equivalence

variable {u : UnicodeData}

/-- What is appended for one character of a decomposition. -/
def foldedPart (c : Char) : Text :=
  if isAscii c then [c]
  else
    match mapped c with
    | some s => s
    | none => if isDiacritical c then [] else [c]

def loweredPart (u : UnicodeData) (d : Char) : Text :=
  ((u.lower d).flatMap u.decompose).flatMap foldedPart

theorem not_isDiacritical_of_isAscii {c : Char} (h : isAscii c = true) :
    isDiacritical c = false := by
  simp only [isAscii, isDiacritical, decide_eq_true_eq, Bool.and_eq_false_iff,
    decide_eq_false_iff_not] at *
  omega

/-- Folding is folding each part of the decomposition, where no part is in the table. -/
theorem folded_eq (hu : u.Laws) {l : Char} (hl : ∀ d ∈ u.decompose l, (mapped d).isSome → l = d) :
    folded u l = (u.decompose l).flatMap foldedPart := by
  rw [folded]
  by_cases hascii : isAscii l = true
  · rw [if_pos hascii, hu.ascii l hascii]
    simp [foldedPart, hascii]
  rw [if_neg hascii]
  cases hmap : mapped l with
  | some s =>
    have hsome : (mapped l).isSome := by rw [hmap]; rfl
    rw [hu.mapped l hsome]
    simp [foldedPart, hascii, hmap]
  | none =>
    have hpart : ∀ d ∈ u.decompose l, foldedPart d = if isDiacritical d then [] else [d] := by
      intro d hd
      have hnone : mapped d = none := by
        by_contra hsome
        have heq := hl d hd (Option.isSome_iff_ne_none.mpr hsome)
        exact hsome (heq ▸ hmap)
      rw [foldedPart, hnone]
      split_ifs with ha hdia
      · rw [not_isDiacritical_of_isAscii ha] at hdia
        cases hdia
      · rfl
      · rfl
      · rfl
    have hfilter : ∀ ds : Text, (∀ d ∈ ds, foldedPart d = if isDiacritical d then [] else [d]) →
        (ds.filter fun c => !isDiacritical c) = ds.flatMap foldedPart := by
      intro ds
      induction ds with
      | nil => exact fun _ => rfl
      | cons d ds ih =>
        intro h
        have hrest := ih fun d hd => h d (mem_cons_of_mem _ hd)
        rw [flatMap_cons, h d mem_cons_self, ← hrest]
        cases hdia : isDiacritical d <;> simp [hdia]
    exact hfilter _ hpart

/-- What is appended for a character is told by its decomposition. -/
theorem lower_folded_eq (hu : u.Laws) {c : Char} (hc : Whole u c) :
    (u.lower c).flatMap (folded u) = (u.decompose c).flatMap (loweredPart u) := by
  have hlower : (u.lower c).flatMap (folded u) =
      (u.lower c).flatMap fun l => (u.decompose l).flatMap foldedPart :=
    flatMap_congr fun l hl => folded_eq hu (hc.mapped l hl)
  have hparts : (u.decompose c).flatMap (loweredPart u) =
      ((u.decompose c).flatMap fun d => (u.lower d).flatMap u.decompose).flatMap foldedPart := by
    rw [flatMap_assoc]
    rfl
  rw [hlower, hparts, ← hu.lower, flatMap_assoc]

/-- The tokens of a decomposed text: a mark belongs to the letter before it. -/
def tokensFrom (u : UnicodeData) : Text → Term → Bool → List Term
  | [], buf, _ => if buf.isEmpty then [] else [buf]
  | d :: ds, buf, inside =>
    if u.combiningClass d = 0 then
      if u.alphanumeric d then tokensFrom u ds (buf ++ loweredPart u d) true
      else if buf.isEmpty then tokensFrom u ds [] false
      else buf :: tokensFrom u ds [] false
    else if inside then tokensFrom u ds (buf ++ loweredPart u d) true
    else tokensFrom u ds buf false

theorem tokensFrom_letter (rest : Text) {ds : Text} (buf : Term)
    (hds : ∀ d ∈ ds, u.combiningClass d = 0 → u.alphanumeric d = true) :
    tokensFrom u (ds ++ rest) buf true =
      tokensFrom u rest (buf ++ ds.flatMap (loweredPart u)) true := by
  induction ds generalizing buf with
  | nil => simp
  | cons d ds ih =>
    have hrest := ih (buf ++ loweredPart u d) fun d hd => hds d (mem_cons_of_mem _ hd)
    rw [cons_append, tokensFrom, flatMap_cons, ← append_assoc, ← hrest]
    by_cases hclass : u.combiningClass d = 0
    · rw [if_pos hclass, if_pos (hds d mem_cons_self hclass)]
    · rw [if_neg hclass, if_pos rfl]

theorem tokensFrom_other (rest : Text) {ds : Text}
    (hds : ∀ d ∈ ds, u.combiningClass d = 0 → u.alphanumeric d = false) :
    tokensFrom u (ds ++ rest) [] false = tokensFrom u rest [] false := by
  induction ds with
  | nil => rfl
  | cons d ds ih =>
    have hrest := ih fun d hd => hds d (mem_cons_of_mem _ hd)
    rw [cons_append, tokensFrom, ← hrest]
    by_cases hclass : u.combiningClass d = 0
    · have halpha : ¬ u.alphanumeric d = true := by
        rw [hds d mem_cons_self hclass]
        exact Bool.false_ne_true
      rw [if_pos hclass, if_neg halpha]
      rfl
    · rw [if_neg hclass, if_neg Bool.false_ne_true]

/-- Analyzing a text is analyzing its decomposition. -/
theorem analyzeFrom_eq (hu : u.Laws) {text : Text} (htext : Composed u text) (buf : Term)
    (inside : Bool) :
    (analyzeFrom u false text buf).map Prod.fst =
      tokensFrom u (text.flatMap u.decompose) buf inside := by
  induction text generalizing buf inside with
  | nil =>
    rw [analyzeFrom, flatMap_nil, tokensFrom]
    split_ifs <;> rfl
  | cons c text ih =>
    have hc : Whole u c := htext c mem_cons_self
    have hrest := fun buf inside => ih (fun c hc => htext c (mem_cons_of_mem _ hc)) buf inside
    have hsame := hu.alphanumeric c hc
    have hlower := lower_folded_eq hu hc
    obtain ⟨d, ds, hdec, hstarter⟩ := hc.starter
    rw [hdec] at hsame hlower
    rw [analyzeFrom, flatMap_cons, hdec, cons_append, tokensFrom, if_pos hstarter,
      hsame d mem_cons_self hstarter]
    split_ifs with halpha hempty
    · have hletter := tokensFrom_letter (text.flatMap u.decompose)
        (buf ++ loweredPart u d) fun d hd hclass =>
          (hsame d (mem_cons_of_mem _ hd) hclass).trans halpha
      rw [hletter, hrest, hlower, flatMap_cons, append_assoc]
    · have hother := tokensFrom_other (text.flatMap u.decompose) fun d hd hclass =>
          (hsame d (mem_cons_of_mem _ hd) hclass).trans (by simpa using halpha)
      rw [hother, hrest]
    · have hother := tokensFrom_other (text.flatMap u.decompose) fun d hd hclass =>
          (hsame d (mem_cons_of_mem _ hd) hclass).trans (by simpa using halpha)
      rw [map_cons, hother, hrest]

theorem placeMark_append {c d : Char} (hd : u.combiningClass d = 0) (xs ys : Text) :
    placeMark u c (xs ++ d :: ys) = placeMark u c xs ++ d :: ys := by
  induction xs with
  | nil =>
    simp [placeMark, hd]
  | cons x xs ih =>
    rw [cons_append, placeMark, placeMark, ih]
    split_ifs <;> rfl

/-- Ordering the marks of a text does not move any across a starter. -/
theorem canonicalOrder_append {d : Char} (hd : u.combiningClass d = 0) (xs ds ys : Text)
    (hds : canonicalOrder u ys = d :: ds) :
    canonicalOrder u (xs ++ ys) = canonicalOrder u xs ++ canonicalOrder u ys := by
  induction xs with
  | nil => rfl
  | cons x xs ih =>
    have hcons : ∀ zs, canonicalOrder u (x :: zs) = placeMark u x (canonicalOrder u zs) :=
      fun _ => rfl
    rw [cons_append, hcons, hcons, ih, hds, placeMark_append hd]

/-- The normal form of a composed text is its decomposition, as it is. -/
theorem nfd_composed (hu : u.Laws) {text : Text} (htext : Composed u text) :
    nfd u text = text.flatMap u.decompose := by
  rw [nfd]
  induction text with
  | nil => rfl
  | cons c text ih =>
    have hrest := ih fun c hc => htext c (mem_cons_of_mem _ hc)
    rw [flatMap_cons]
    cases text with
    | nil => rw [flatMap_nil, append_nil, hu.ordered]
    | cons c' text =>
      obtain ⟨d, ds, hdec, hstarter⟩ := (htext c' (by simp)).starter
      have hhead : canonicalOrder u ((c' :: text).flatMap u.decompose) =
          d :: (ds ++ text.flatMap u.decompose) := by
        rw [hrest, flatMap_cons, hdec, cons_append]
      rw [canonicalOrder_append hstarter _ _ _ hhead, hu.ordered, hrest]

/-- Canonically equivalent texts without loose marks have the same tokens. -/
theorem standardAnalyzer_congr (hu : u.Laws) {s t : Text} (hs : Composed u s)
    (ht : Composed u t) (hst : CanonicallyEquivalent u s t) :
    standardAnalyzer u s = standardAnalyzer u t := by
  have hsame : s.flatMap u.decompose = t.flatMap u.decompose := by
    rw [← nfd_composed hu hs, ← nfd_composed hu ht]
    exact hst
  rw [standardAnalyzer, standardAnalyzer, analyze, analyze, analyzeFrom_eq hu hs [] false,
    analyzeFrom_eq hu ht [] false, hsame]

end Equivalence

end Fulltext

end LoraDb
