import LoraDb.IndexKeys
import LoraDb.IdLayout
import LoraDb.StrRuns

/-!
# Ordered Scans of a Sorted Index

A scope of a sorted index keeps string keys packed and every other key in an ordered map. A
scan takes a page of ids at a time, in key order and by id within a key; the next page starts
behind the last id of the page before it.

## Main results

* `SortedScope.entries_eq`: the entries between two bounds, strings spliced between the keys
  before and after them.
* `SortedScope.orderedChunk_eq`: a page is the next ids of the whole walk.
* `SortedScope.Indexes.update`: an indexed change of a value keeps the scope the index of the
  values.
* `SortedScope.pages_enumerate`: the pages, one after another, are every id once, in order.
-/

open Prod (fst snd)
open Option (all_some bind_eq_bind bind_some filter_some map_some)
open List SortedMap

namespace LoraDb

open StrIndex

/-- A key read from a scope: one of the map's, or a packed string. -/
inductive KeyRef where
  | key (key : PropertyIndexKey)
  | str (text : Key)

namespace KeyRef

/-- Whether this is a key. -/
def isKey : KeyRef → PropertyIndexKey → Bool
  | .key k, other => decide (k = other)
  | .str s, .string t => decide (s = t)
  | .str _, _ => false

def toKey : KeyRef → PropertyIndexKey
  | .key k => k
  | .str s => .string s

theorem isKey_eq (ref : KeyRef) (other : PropertyIndexKey) :
    ref.isKey other = decide (ref.toKey = other) := by
  cases ref with
  | key k => rfl
  | str s =>
    cases other with
    | string t =>
      refine decide_eq_decide.mpr ⟨fun h => h ▸ rfl, fun h => ?_⟩
      exact PropertyIndexKey.string.inj h
    | _ => exact (decide_eq_false (by rintro ⟨⟩)).symm

end KeyRef

/-- The entries of an indexed property: string keys packed, every other key in a map. -/
structure SortedScope where
  byValue : List (PropertyIndexKey × IdSet)
  strings : StrPostings

/-- The smallest string key. -/
def firstString : PropertyIndexKey := .string []

/-- The smallest key after every string. -/
def afterStrings : PropertyIndexKey := .binary []

/-- Where a key sorts against the strings: before, among or after them. -/
def againstStrings : PropertyIndexKey → Ordering
  | .string _ => .eq
  | key => if key < firstString then .lt else .gt

/-- A bound on the strings, if it lets any through. -/
def stringBound (bound : Bound PropertyIndexKey) (lower : Bool) : Option (Bound Key) :=
  match bound with
  | .unbounded => some .unbounded
  | .included (.string s) => some (.included s)
  | .excluded (.string s) => some (.excluded s)
  | .included key | .excluded key =>
    if againstStrings key = .lt then (if lower then some .unbounded else none)
    else (if lower then none else some .unbounded)

/-- The entries of a map between two bounds. -/
def rangeBy (lower upper : Bound PropertyIndexKey) (es : List (PropertyIndexKey × IdSet)) :
    List (PropertyIndexKey × IdSet) :=
  es.filter fun e => lower.below e.1 && upper.above e.1

namespace SortedScope

def belowUpper (upper : Bound PropertyIndexKey) : Bound PropertyIndexKey :=
  match upper with
  | .included u => if againstStrings u = .lt then upper else .excluded firstString
  | .excluded u => if againstStrings u = .lt then upper else .excluded firstString
  | .unbounded => .excluded firstString

def aboveLower (lower : Bound PropertyIndexKey) : Bound PropertyIndexKey :=
  match lower with
  | .included l => if againstStrings l = .gt then lower else .included afterStrings
  | .excluded l => if againstStrings l = .gt then lower else .included afterStrings
  | .unbounded => .included afterStrings

/-- The entries between two bounds, in key order: the map's keys below the strings, the
strings, then the rest. -/
def entries (scope : SortedScope) (lower upper : Bound PropertyIndexKey) : List (KeyRef × IdSet) :=
  let strings := match stringBound lower true, stringBound upper false with
    | some l, some u => scope.strings.range l u
    | _, _ => []
  (rangeBy lower (belowUpper upper) scope.byValue).map (fun e => (.key e.1, e.2)) ++
    (strings.map (fun e => (.str e.1, e.2)) ++
      (rangeBy (aboveLower lower) upper scope.byValue).map fun e => (.key e.1, e.2))

/-- All entries of a scope, in key order. -/
def contents (scope : SortedScope) : List (PropertyIndexKey × IdSet) :=
  scope.byValue.filter (fun e => decide (e.1 < firstString)) ++
    ((StrPostings.contents scope.strings.blocks).map (fun e => (.string e.1, e.2)) ++
      scope.byValue.filter fun e => decide (afterStrings ≤ e.1))

end SortedScope

/-- Bounds for an inclusive probe; `none` when a bound is not indexed. A one-sided range of
a temporal or numeric key ends with its kind. -/
def probeBounds (lo hi : Option PropertyValue) :
    Option (Bound PropertyIndexKey × Bound PropertyIndexKey) := do
  let loKey ← match lo with
    | some v => (PropertyIndexKey.rangeLower v).map some
    | none => some none
  let hiKey ← match hi with
    | some v => (PropertyIndexKey.rangeUpper v).map some
    | none => some none
  let keys := match loKey, hiKey with
    | some l, none => (some l, l.kindCeiling)
    | none, some h => (h.kindFloor, some h)
    | l, h => (l, h)
  some (keys.1.elim .unbounded .included, keys.2.elim .unbounded .included)

/-- Ids are pushed onto a page until it is full. -/
def pushIds (max : ℕ) : List ℕ → List ℕ → List ℕ × Bool
  | out, [] => (out, decide (max ≤ out.length))
  | out, id :: ids => if max ≤ out.length then (out, true) else pushIds max (out ++ [id]) ids

def pushBuckets (max : ℕ) (ids : KeyRef × IdSet → List ℕ) : List ℕ → List (KeyRef × IdSet) → List ℕ
  | out, [] => out
  | out, e :: es =>
    let pushed := pushIds max out (ids e)
    if pushed.2 then pushed.1 else pushBuckets max ids pushed.1 es

namespace SortedScope

/-- Both bounds inclusive, and the lower one above the upper one. -/
def isInverted (lower upper : Bound PropertyIndexKey) : Bool :=
  match lower, upper with
  | .included l, .included u => decide (u < l)
  | _, _ => false

/-- Ids whose value may be between two bounds. -/
def rangeCandidates (scope : SortedScope) (lo hi : Option PropertyValue) : Option (List ℕ) := do
  let (lower, upper) ← probeBounds lo hi
  if isInverted lower upper then some []
  else some ((scope.entries lower upper).flatMap snd)

/-- The next ids between two bounds, at most `max`, strictly after the cursor. A bucket's
ids lie in memory as `layout` says. -/
def orderedChunk (scope : SortedScope) (layout : PropertyIndexKey → View)
    (lo hi : Option PropertyValue) (descending : Bool) (after : Option (PropertyValue × ℕ))
    (max : ℕ) : Option (List ℕ) := do
  let after := after.bind fun cursor =>
    (PropertyIndexKey.fromValue cursor.1).map fun key => (key, cursor.2)
  let (lower, upper) ← probeBounds lo hi
  -- narrow the range to start at the cursor's value
  let upper := if descending then after.elim upper fun cursor => .included cursor.1 else upper
  let lower := if descending then lower else after.elim lower fun cursor => .included cursor.1
  if isInverted lower upper then some []
  else
    let ids := fun e : KeyRef × IdSet =>
      (layout e.1.toKey).iterAfter
        ((after.filter fun cursor => e.1.isKey cursor.1).map snd) descending
    let range := scope.entries lower upper
    some (pushBuckets max ids [] (if descending then range.reverse else range))

/-- A scan: pages until one is empty, each behind the last id of the page before it. -/
def pages (scope : SortedScope) (layout : PropertyIndexKey → View) (value : ℕ → PropertyValue)
    (lo hi : Option PropertyValue) (descending : Bool) (max : ℕ) :
    ℕ → Option (PropertyValue × ℕ) → Option (List (List ℕ))
  | 0, _ => none
  | fuel + 1, after => do
    let page ← scope.orderedChunk layout lo hi descending after max
    match page.getLast? with
    | none => some []
    | some last =>
      let rest ← scope.pages layout value lo hi descending max fuel (some (value last, last))
      some (page :: rest)

end SortedScope

/-! ### Pushing -/

theorem pushIds_eq {max : ℕ} {out ids : List ℕ} (h : out.length ≤ max) :
    pushIds max out ids = ((out ++ ids).take max, decide (max ≤ (out ++ ids).length)) := by
  induction ids generalizing out with
  | nil => rw [pushIds, append_nil, take_of_length_le h]
  | cons id ids ih =>
    rw [pushIds]
    split_ifs with hfull
    · have hlen : max = out.length := le_antisymm hfull h
      rw [hlen, take_left, decide_eq_true (by simp)]
    · rw [ih (by simp; omega), append_assoc, singleton_append]

theorem pushBuckets_eq {max : ℕ} {ids : KeyRef × IdSet → List ℕ} {out : List ℕ}
    {es : List (KeyRef × IdSet)} (h : out.length ≤ max) :
    pushBuckets max ids out es = (out ++ es.flatMap ids).take max := by
  induction es generalizing out with
  | nil => rw [pushBuckets, flatMap_nil, append_nil, take_of_length_le h]
  | cons e es ih =>
    rw [pushBuckets, pushIds_eq h, flatMap_cons, ← append_assoc]
    by_cases hfull : max ≤ (out ++ ids e).length
    · simp only [decide_eq_true hfull, if_true]
      rw [take_append_of_le_length hfull]
    · have hshort : (out ++ ids e).length ≤ max := Nat.le_of_not_le hfull
      simp only [decide_eq_false hfull, Bool.false_eq_true, if_false]
      rw [take_of_length_le hshort, ih hshort]

/-! ### Strings among the keys -/

section Strings

variable {k : PropertyIndexKey} {s t : Key}

theorem compare_key_lt : compare s t = .lt ↔ s < t := by
  induction s generalizing t with
  | nil =>
    cases t with
    | nil => exact ⟨fun h => (by cases h), fun h => absurd h (lt_irrefl _)⟩
    | cons y t => exact ⟨fun _ => nil_lt_cons y t, fun _ => rfl⟩
  | cons x s ih =>
    cases t with
    | nil => exact ⟨fun h => (by cases h), fun h => absurd h (List.not_lt_nil _)⟩
    | cons y t =>
      rw [List.compare_cons_cons, Ordering.then_eq_lt, ih, cons_lt_cons_iff, compare_lt_iff_lt,
        compare_eq_iff_eq]

theorem string_lt : PropertyIndexKey.string s < .string t ↔ s < t := compare_key_lt

theorem string_le : PropertyIndexKey.string s ≤ .string t ↔ s ≤ t := by
  rw [← not_lt, string_lt, not_lt]

theorem firstString_le : firstString ≤ .string s :=
  string_le.mpr (not_lt.mp (List.not_lt_nil s))

theorem string_lt_after : PropertyIndexKey.string s < afterStrings :=
  PropertyIndexKey.lt_of_tag (by simp [PropertyIndexKey.tag, afterStrings])

/-- A key is before all strings, a string, or after them all. -/
theorem against_spec (k : PropertyIndexKey) :
    (againstStrings k = .lt ∧ k < firstString) ∨ (∃ s, k = .string s) ∨
      (againstStrings k = .gt ∧ afterStrings ≤ k) := by
  have hbefore : ∀ {k : PropertyIndexKey}, k.tag < 4 →
      againstStrings k = (if k < firstString then .lt else .gt) →
        againstStrings k = .lt ∧ k < firstString := by
    intro k htag hagainst
    have hlt : k < firstString := @PropertyIndexKey.lt_of_tag k firstString htag
    exact ⟨by rw [hagainst, if_pos hlt], hlt⟩
  have hbehind : ∀ {k : PropertyIndexKey}, 5 ≤ k.tag → afterStrings ≤ k →
      againstStrings k = (if k < firstString then .lt else .gt) →
        againstStrings k = .gt ∧ afterStrings ≤ k := by
    intro k htag hle hagainst
    have hnot : ¬ k < firstString := fun hlt => by
      have hle := PropertyIndexKey.tag_le hlt.le
      have hfour : firstString.tag = 4 := rfl
      omega
    exact ⟨by rw [hagainst, if_neg hnot], hle⟩
  have hlater : ∀ {k : PropertyIndexKey}, 5 < k.tag → afterStrings ≤ k := fun htag =>
    (@PropertyIndexKey.lt_of_tag afterStrings _ htag).le
  cases k with
  | null => exact .inl (hbefore (by simp [PropertyIndexKey.tag]) rfl)
  | bool _ => exact .inl (hbefore (by simp [PropertyIndexKey.tag]) rfl)
  | int _ => exact .inl (hbefore (by simp [PropertyIndexKey.tag]) rfl)
  | float _ => exact .inl (hbefore (by simp [PropertyIndexKey.tag]) rfl)
  | string s => exact .inr (.inl ⟨s, rfl⟩)
  | binary bytes =>
    refine .inr (.inr (hbehind (by simp [PropertyIndexKey.tag]) ?_ rfl))
    refine not_lt.mp fun hlt => ?_
    exact List.not_lt_nil bytes (compare_key_lt.mp hlt)
  | list _ | map _ | temporal _ _ _ _ =>
    exact .inr (.inr (hbehind (by simp [PropertyIndexKey.tag])
      (hlater (by simp [PropertyIndexKey.tag])) rfl))

theorem against_lt : againstStrings k = .lt ↔ k < firstString := by
  rcases against_spec k with ⟨heq, hlt⟩ | ⟨s, rfl⟩ | ⟨heq, hle⟩
  · exact ⟨fun _ => hlt, fun _ => heq⟩
  · exact ⟨fun h => (by cases h), fun h => absurd h (not_lt.mpr firstString_le)⟩
  · refine ⟨fun h => (by rw [heq] at h; cases h), fun h => ?_⟩
    have hnil : firstString < afterStrings := string_lt_after
    exact absurd (h.trans hnil) (not_lt.mpr hle)

theorem against_gt : againstStrings k = .gt ↔ afterStrings ≤ k := by
  rcases against_spec k with ⟨heq, hlt⟩ | ⟨s, rfl⟩ | ⟨heq, hle⟩
  · have hnil : firstString < afterStrings := string_lt_after
    exact ⟨fun h => (by rw [heq] at h; cases h), fun h => absurd (hlt.trans hnil) (not_lt.mpr h)⟩
  · exact ⟨fun h => (by cases h), fun h => absurd string_lt_after (not_lt.mpr h)⟩
  · exact ⟨fun _ => hle, fun _ => heq⟩

theorem belowUpper_above (upper : Bound PropertyIndexKey) : (SortedScope.belowUpper upper).above k =
      (decide (k < firstString) && upper.above k) := by
  rw [Bool.eq_iff_iff, Bool.and_eq_true, decide_eq_true_eq]
  cases upper with
  | unbounded => simp [SortedScope.belowUpper, Bound.above]
  | included u =>
    rw [SortedScope.belowUpper]
    split_ifs with hu
    · have hlt := against_lt.mp hu
      simp only [Bound.above, decide_eq_true_eq]
      exact ⟨fun hle => ⟨lt_of_le_of_lt hle hlt, hle⟩, And.right⟩
    · have hle := not_lt.mp (mt against_lt.mpr hu)
      simp only [Bound.above, decide_eq_true_eq]
      exact ⟨fun hlt => ⟨hlt, (lt_of_lt_of_le hlt hle).le⟩, And.left⟩
  | excluded u =>
    rw [SortedScope.belowUpper]
    split_ifs with hu
    · have hlt := against_lt.mp hu
      simp only [Bound.above, decide_eq_true_eq]
      exact ⟨fun hle => ⟨hle.trans hlt, hle⟩, And.right⟩
    · have hle := not_lt.mp (mt against_lt.mpr hu)
      simp only [Bound.above, decide_eq_true_eq]
      exact ⟨fun hlt => ⟨hlt, lt_of_lt_of_le hlt hle⟩, And.left⟩

theorem aboveLower_below (lower : Bound PropertyIndexKey) : (SortedScope.aboveLower lower).below k =
      (decide (afterStrings ≤ k) && lower.below k) := by
  rw [Bool.eq_iff_iff, Bool.and_eq_true, decide_eq_true_eq]
  cases lower with
  | unbounded => simp [SortedScope.aboveLower, Bound.below]
  | included l =>
    rw [SortedScope.aboveLower]
    split_ifs with hl
    · have hle := against_gt.mp hl
      simp only [Bound.below, decide_eq_true_eq]
      exact ⟨fun hk => ⟨hle.trans hk, hk⟩, And.right⟩
    · have hlt := not_le.mp (mt against_gt.mpr hl)
      simp only [Bound.below, decide_eq_true_eq]
      exact ⟨fun hk => ⟨hk, (lt_of_lt_of_le hlt hk).le⟩, And.left⟩
  | excluded l =>
    rw [SortedScope.aboveLower]
    split_ifs with hl
    · have hle := against_gt.mp hl
      simp only [Bound.below, decide_eq_true_eq]
      exact ⟨fun hk => ⟨(lt_of_le_of_lt hle hk).le, hk⟩, And.right⟩
    · have hlt := not_le.mp (mt against_gt.mpr hl)
      simp only [Bound.below, decide_eq_true_eq]
      exact ⟨fun hk => ⟨hk, lt_of_lt_of_le hlt hk⟩, And.left⟩

theorem not_string_of_lt (h : k < firstString) : ∀ s, k ≠ .string s := by
  rintro s rfl
  exact absurd h (not_lt.mpr firstString_le)

theorem not_string_of_le (h : afterStrings ≤ k) : ∀ s, k ≠ .string s := by
  rintro s rfl
  exact absurd string_lt_after (not_lt.mpr h)

theorem stringBound_other (hk : ∀ s, k ≠ .string s) (lower : Bool) :
    stringBound (.included k) lower = (if againstStrings k = .lt
        then (if lower then some .unbounded else none)
        else (if lower then none else some .unbounded)) ∧
      stringBound (.excluded k) lower = (if againstStrings k = .lt
        then (if lower then some .unbounded else none)
        else (if lower then none else some .unbounded)) := by
  cases k with
  | string s => exact absurd rfl (hk s)
  | _ => exact ⟨rfl, rfl⟩

/-- A lower bound on the strings admits what the bound itself does. -/
theorem stringBound_lower (lower : Bound PropertyIndexKey) (s : Key) :
    (stringBound lower true).any (·.below s) = lower.below (.string s) := by
  have hbound : ∀ k, ((∃ t, k = .string t) ∨
      ((stringBound (.included k) true).any (·.below s) = decide (k ≤ .string s) ∧
        (stringBound (.excluded k) true).any (·.below s) = decide (k < .string s))) := by
    intro k
    rcases against_spec k with ⟨hagainst, hlt⟩ | ⟨t, rfl⟩ | ⟨hagainst, hle⟩
    · have hs : k < .string s := lt_of_lt_of_le hlt firstString_le
      obtain ⟨hin, hex⟩ := stringBound_other (not_string_of_lt hlt) true
      right
      rw [hin, hex, if_pos hagainst, decide_eq_true hs, decide_eq_true hs.le]
      exact ⟨rfl, rfl⟩
    · exact .inl ⟨t, rfl⟩
    · have hs : PropertyIndexKey.string s < k := lt_of_lt_of_le string_lt_after hle
      obtain ⟨hin, hex⟩ := stringBound_other (not_string_of_le hle) true
      right
      rw [hin, hex, hagainst, decide_eq_false (not_lt.mpr hs.le), decide_eq_false (not_le.mpr hs)]
      exact ⟨rfl, rfl⟩
  cases lower with
  | unbounded => rfl
  | included k =>
    rcases hbound k with ⟨t, rfl⟩ | ⟨hin, -⟩
    · exact decide_eq_decide.mpr string_le.symm
    · exact hin
  | excluded k =>
    rcases hbound k with ⟨t, rfl⟩ | ⟨-, hex⟩
    · exact decide_eq_decide.mpr string_lt.symm
    · exact hex

theorem stringBound_upper (upper : Bound PropertyIndexKey) (s : Key) :
    (stringBound upper false).any (·.above s) = upper.above (.string s) := by
  have hbound : ∀ k, ((∃ t, k = .string t) ∨
      ((stringBound (.included k) false).any (·.above s) = decide (.string s ≤ k) ∧
        (stringBound (.excluded k) false).any (·.above s) = decide (.string s < k))) := by
    intro k
    rcases against_spec k with ⟨hagainst, hlt⟩ | ⟨t, rfl⟩ | ⟨hagainst, hle⟩
    · have hs : k < .string s := lt_of_lt_of_le hlt firstString_le
      obtain ⟨hin, hex⟩ := stringBound_other (not_string_of_lt hlt) false
      right
      rw [hin, hex, if_pos hagainst, decide_eq_false (not_lt.mpr hs.le),
        decide_eq_false (not_le.mpr hs)]
      exact ⟨rfl, rfl⟩
    · exact .inl ⟨t, rfl⟩
    · have hs : PropertyIndexKey.string s < k := lt_of_lt_of_le string_lt_after hle
      obtain ⟨hin, hex⟩ := stringBound_other (not_string_of_le hle) false
      right
      rw [hin, hex, hagainst, decide_eq_true hs, decide_eq_true hs.le]
      exact ⟨rfl, rfl⟩
  cases upper with
  | unbounded => rfl
  | included k =>
    rcases hbound k with ⟨t, rfl⟩ | ⟨hin, -⟩
    · exact decide_eq_decide.mpr string_le.symm
    · exact hin
  | excluded k =>
    rcases hbound k with ⟨t, rfl⟩ | ⟨-, hex⟩
    · exact decide_eq_decide.mpr string_lt.symm
    · exact hex

end Strings

/-! ### Entries between two bounds -/

namespace SortedScope

/-- A key between two bounds. -/
def between (lower upper : Bound PropertyIndexKey) (k : PropertyIndexKey) : Bool :=
  lower.below k && upper.above k

/-- Keys ascend in both parts, the strings are apart, and every id set ascends. -/
structure Wellformed (scope : SortedScope) : Prop where
  sorted : Sorted scope.byValue
  apart : ∀ e ∈ scope.byValue, ∀ s, e.1 ≠ .string s
  strings : StrPostings.Wellformed scope.strings.blocks
  ids : ∀ e ∈ scope.contents, e.2.Pairwise (· < ·)

variable {scope : SortedScope} {lower upper : Bound PropertyIndexKey}

theorem contents_sorted (h : scope.Wellformed) : Sorted scope.contents := by
  have hnil : firstString < afterStrings := string_lt_after
  refine pairwise_append.mpr
    ⟨h.sorted.filter _, pairwise_append.mpr ⟨?_, h.sorted.filter _, ?_⟩, ?_⟩
  · exact pairwise_map.mpr (h.strings.sorted.imp fun hlt => string_lt.mpr hlt)
  · intro e he e' he'
    obtain ⟨entry, -, rfl⟩ := mem_map.mp he
    exact lt_of_lt_of_le string_lt_after (of_decide_eq_true (mem_filter.mp he').2)
  · intro e he e' he'
    have hlt : e.1 < firstString := of_decide_eq_true (mem_filter.mp he).2
    rcases mem_append.mp he' with he' | he'
    · obtain ⟨entry, -, rfl⟩ := mem_map.mp he'
      exact lt_of_lt_of_le hlt firstString_le
    · exact (hlt.trans hnil).trans_le (of_decide_eq_true (mem_filter.mp he').2)

/-- The strings between two bounds, whatever kind of key bounds them. -/
theorem strings_eq (h : scope.Wellformed) :
    (match stringBound lower true, stringBound upper false with
      | some l, some u => scope.strings.range l u
      | _, _ => []) = (StrPostings.contents scope.strings.blocks).filter
        fun e => between lower upper (.string e.1) := by
  have hbetween : ∀ e : Key × IdSet, between lower upper (.string e.1) =
      ((stringBound lower true).any (·.below e.1) &&
        (stringBound upper false).any (·.above e.1)) := fun e => by
    rw [stringBound_lower, stringBound_upper, between]
  rw [filter_congr fun e _ => hbetween e]
  rcases stringBound lower true with _ | l
  · exact (filter_eq_nil_iff.mpr fun e _ => by simp).symm
  · rcases stringBound upper false with _ | u
    · exact (filter_eq_nil_iff.mpr fun e _ => by simp).symm
    · exact (h.strings.range l u).1

/-- The entries between two bounds are those of the whole scope. -/
theorem entries_eq (h : scope.Wellformed) :
    (scope.entries lower upper).map (fun e => (e.1.toKey, e.2)) =
      scope.contents.filter fun e => between lower upper e.1 := by
  have hlow : rangeBy lower (belowUpper upper) scope.byValue =
      (scope.byValue.filter fun e => decide (e.1 < firstString)).filter
        fun e => between lower upper e.1 := by
    rw [filter_filter, rangeBy]
    refine filter_congr fun e _ => ?_
    rw [belowUpper_above, between]
    cases decide (e.1 < firstString) <;> simp
  have hhigh : rangeBy (aboveLower lower) upper scope.byValue =
      (scope.byValue.filter fun e => decide (afterStrings ≤ e.1)).filter
        fun e => between lower upper e.1 := by
    rw [filter_filter, rangeBy]
    refine filter_congr fun e _ => ?_
    rw [aboveLower_below, between]
    cases decide (afterStrings ≤ e.1) <;> simp
  rw [entries, contents, strings_eq h, hlow, hhigh]
  simp only [map_append, filter_append, map_map, filter_map, Function.comp_def, KeyRef.toKey,
    Prod.mk.eta, map_id']

/-! ### The whole walk -/

/-- Every id with its key, in key order and by id within a key. -/
def walk (scope : SortedScope) : List (PropertyIndexKey × ℕ) :=
  scope.contents.flatMap fun e => e.2.map fun id => (e.1, id)

theorem walk_sorted (h : scope.Wellformed) : scope.walk.Pairwise fun a b => toLex a < toLex b := by
  refine pairwise_flatMap.mpr ⟨fun e he => ?_, ?_⟩
  · refine pairwise_map.mpr ((h.ids e he).imp ?_)
    intro a b hlt
    exact Prod.Lex.toLex_lt_toLex.mpr (.inr ⟨rfl, hlt⟩)
  · refine (contents_sorted h).imp fun hlt a ha b hb => ?_
    obtain ⟨id, -, rfl⟩ := mem_map.mp ha
    obtain ⟨id', -, rfl⟩ := mem_map.mp hb
    exact Prod.Lex.toLex_lt_toLex.mpr (.inl hlt)

/-- Whether a scan has the pair ahead of a cursor. -/
def ahead (descending : Bool) (cursor p : PropertyIndexKey × ℕ) : Bool :=
  if descending then decide (toLex p < toLex cursor) else decide (toLex cursor < toLex p)

/-- The pairs between two bounds, in the direction of a scan. -/
def course (scope : SortedScope) (lower upper : Bound PropertyIndexKey) (descending : Bool) :
    List (PropertyIndexKey × ℕ) :=
  let pairs := scope.walk.filter fun p => between lower upper p.1
  if descending then pairs.reverse else pairs

theorem course_sorted (h : scope.Wellformed) (descending : Bool) :
    (scope.course lower upper descending).Pairwise fun a b => ahead descending a b = true := by
  have hpairs := (walk_sorted h).filter fun p => between lower upper p.1
  cases descending with
  | false => exact hpairs.imp fun hlt => decide_eq_true hlt
  | true => exact pairwise_reverse.mpr (hpairs.imp fun hlt => decide_eq_true hlt)

theorem walk_filter (P : PropertyIndexKey × ℕ → Bool) (es : List (PropertyIndexKey × IdSet)) :
    ((es.flatMap fun e => e.2.map fun id => (e.1, id)).filter P).map snd =
      es.flatMap fun e => e.2.filter fun id => P (e.1, id) := by
  induction es with
  | nil => rfl
  | cons e es ih =>
    rw [flatMap_cons, flatMap_cons, filter_append, map_append, ih]
    congr 1
    rw [filter_map, map_map]
    exact map_id' _

theorem filter_flatMap_eq {α β : Type} {q : α → Bool} {g f : α → List β} {l : List α}
    (h : ∀ a ∈ l, (if q a then g a else []) = f a) : (l.filter q).flatMap g = l.flatMap f := by
  induction l with
  | nil => rfl
  | cons a l ih =>
    have hrest := ih fun b hb => h b (mem_cons_of_mem _ hb)
    rw [filter_cons, flatMap_cons, ← h a mem_cons_self]
    split_ifs with hq
    · rw [flatMap_cons, hrest]
    · rw [nil_append, hrest]

section Chunk

variable {layout : PropertyIndexKey → View} {descending : Bool} {max : ℕ}
  {after : Option (PropertyIndexKey × ℕ)}

/-- Every bucket's layout holds its ids. -/
def LaidOut (scope : SortedScope) (layout : PropertyIndexKey → View) : Prop :=
  ∀ e ∈ scope.contents, (layout e.1).Wellformed ∧ (layout e.1).ids = e.2

/-- The lower and the upper bound of a page behind a cursor. -/
def narrowed (lower upper : Bound PropertyIndexKey) (descending : Bool)
    (after : Option (PropertyIndexKey × ℕ)) : Bound PropertyIndexKey × Bound PropertyIndexKey :=
  (if descending then lower else after.elim lower fun cursor => .included cursor.1,
    if descending then after.elim upper fun cursor => .included cursor.1 else upper)

theorem below_mono {a b : PropertyIndexKey} (ha : lower.below a = true) (hab : a ≤ b) :
    lower.below b = true := by
  cases lower with
  | unbounded => rfl
  | included l => exact decide_eq_true ((of_decide_eq_true ha).trans hab)
  | excluded l => exact decide_eq_true (lt_of_lt_of_le (of_decide_eq_true ha) hab)

theorem above_mono {a b : PropertyIndexKey} (hb : upper.above b = true) (hab : a ≤ b) :
    upper.above a = true := by
  cases upper with
  | unbounded => rfl
  | included u => exact decide_eq_true (hab.trans (of_decide_eq_true hb))
  | excluded u => exact decide_eq_true (lt_of_le_of_lt hab (of_decide_eq_true hb))

variable {cursor : PropertyIndexKey × ℕ}

theorem ahead_of_lt {k : PropertyIndexKey} (hk : k < cursor.1)
    (id : ℕ) : ahead descending cursor (k, id) = descending := by
  have hlt : toLex (k, id) < toLex cursor := Prod.Lex.toLex_lt_toLex.mpr (.inl hk)
  cases descending with
  | false => exact decide_eq_false (lt_asymm hlt)
  | true => exact decide_eq_true hlt

theorem ahead_of_gt {k : PropertyIndexKey} (hk : cursor.1 < k)
    (id : ℕ) : ahead descending cursor (k, id) = !descending := by
  have hlt : toLex cursor < toLex (k, id) := Prod.Lex.toLex_lt_toLex.mpr (.inl hk)
  cases descending with
  | false => exact decide_eq_true hlt
  | true => exact decide_eq_false (lt_asymm hlt)

theorem ahead_same (id : ℕ) : ahead descending cursor (cursor.1, id) =
      if descending then decide (id < cursor.2) else decide (cursor.2 < id) := by
  have hiff : ∀ a b : ℕ, toLex (cursor.1, a) < toLex (cursor.1, b) ↔ a < b := fun a b => by
    rw [Prod.Lex.toLex_lt_toLex]
    exact ⟨fun h => h.elim (absurd · (lt_irrefl _)) And.right, fun h => .inr ⟨rfl, h⟩⟩
  cases descending with
  | false => exact decide_eq_decide.mpr (hiff cursor.2 id)
  | true => exact decide_eq_decide.mpr (hiff id cursor.2)

/-- The ids of one bucket that a page may take. -/
theorem bucket_eq {k : PropertyIndexKey} {ids : IdSet} (hview : (layout k).Wellformed)
    (hids : (layout k).ids = ids)
    (hafter : ∀ cursor, after = some cursor → between lower upper cursor.1 = true) :
    (if between (narrowed lower upper descending after).1
          (narrowed lower upper descending after).2 k
        then (layout k).iterAfter
          ((after.filter fun cursor => decide (k = cursor.1)).map snd) descending
        else []) =
      let kept := ids.filter fun id =>
        between lower upper k && after.all fun cursor => ahead descending cursor (k, id)
      if descending then kept.reverse else kept := by
  cases after with
  | none =>
    have hnarrowed : narrowed lower upper descending none = (lower, upper) := by
      cases descending <;> rfl
    rw [hnarrowed, View.iterAfter_eq hview, hids]
    cases between lower upper k <;> cases descending <;> simp
  | some cursor =>
    have hcursor := hafter cursor rfl
    obtain ⟨hbelow, habove⟩ := Bool.and_eq_true_iff.mp hcursor
    rw [View.iterAfter_eq hview, hids]
    rcases lt_trichotomy k cursor.1 with hlt | heq | hgt
    · have hne : decide (k = cursor.1) = false := decide_eq_false (ne_of_lt hlt)
      have habove' := above_mono habove hlt.le
      have hout : (Bound.included cursor.1).below k = false := decide_eq_false (not_le.mpr hlt)
      have hin : (Bound.included cursor.1).above k = true := decide_eq_true hlt.le
      simp only [ahead_of_lt hlt, all_some, filter_some, hne, between, habove']
      cases descending with
      | false => simp [narrowed, hout]
      | true => cases hlower : lower.below k <;> simp [narrowed, hin, hlower]
    · subst heq
      have hin : (Bound.included cursor.1).below cursor.1 = true := decide_eq_true le_rfl
      have hin' : (Bound.included cursor.1).above cursor.1 = true := decide_eq_true le_rfl
      simp only [ahead_same, all_some, filter_some, between, hbelow, habove]
      cases descending with
      | false => simp [narrowed, hin, habove]
      | true => simp [narrowed, hin', hbelow]
    · have hne : decide (k = cursor.1) = false := decide_eq_false (ne_of_gt hgt)
      have hbelow' := below_mono hbelow hgt.le
      have hout : (Bound.included cursor.1).above k = false := decide_eq_false (not_le.mpr hgt)
      have hin : (Bound.included cursor.1).below k = true := decide_eq_true hgt.le
      simp only [ahead_of_gt hgt, all_some, filter_some, hne, between, hbelow']
      cases descending with
      | false => cases hupper : upper.above k <;> simp [narrowed, hin, hupper]
      | true => simp [narrowed, hout]

theorem course_filter (a : PropertyIndexKey × ℕ → Bool) (descending : Bool) :
    ((scope.course lower upper descending).filter a).map snd =
      let kept := (scope.walk.filter fun p => between lower upper p.1 && a p).map snd
      if descending then kept.reverse else kept := by
  have hboth : (scope.walk.filter fun p => between lower upper p.1).filter a =
      scope.walk.filter fun p => between lower upper p.1 && a p := by
    rw [filter_filter]
    exact filter_congr fun p _ => Bool.and_comm _ _
  cases descending with
  | false => exact congrArg (map snd) hboth
  | true =>
    change map snd (filter a (filter _ _).reverse) = (map snd _).reverse
    rw [filter_reverse, hboth, map_reverse]

/-- The ids of every bucket that a page may take, one bucket after another. -/
theorem buckets_eq (h : scope.Wellformed) (hlaid : LaidOut scope layout)
    (hafter : ∀ cursor, after = some cursor → between lower upper cursor.1 = true) :
    let bounds := narrowed lower upper descending after
    let range := scope.entries bounds.1 bounds.2
    ((if descending then range.reverse else range).flatMap fun e =>
        (layout e.1.toKey).iterAfter
          ((after.filter fun cursor => e.1.isKey cursor.1).map snd) descending) =
      ((scope.course lower upper descending).filter
        fun p => after.all fun cursor => ahead descending cursor p).map snd := by
  intro bounds range
  have hkeyed : range.map (fun e => (e.1.toKey, e.2)) =
      scope.contents.filter fun e => between bounds.1 bounds.2 e.1 := entries_eq h
  have hflat : ∀ l : List (KeyRef × IdSet), (l.flatMap fun e => (layout e.1.toKey).iterAfter
      ((after.filter fun cursor => e.1.isKey cursor.1).map snd) descending) =
        (l.map fun e => (e.1.toKey, e.2)).flatMap fun e => (layout e.1).iterAfter
          ((after.filter fun cursor => decide (e.1 = cursor.1)).map snd) descending := by
    intro l
    rw [flatMap_map]
    simp only [KeyRef.isKey_eq]
  have hbucket : ∀ e ∈ scope.contents, _ := fun e he =>
    @bucket_eq lower upper layout descending after e.1 e.2 (hlaid e he).1 (hlaid e he).2 hafter
  have hwalk := walk_filter (fun p => between lower upper p.1 &&
    after.all fun cursor => ahead descending cursor p) scope.contents
  rw [hflat, course_filter]
  cases descending with
  | false =>
    simp only [Bool.false_eq_true, if_false] at hbucket ⊢
    rw [hkeyed, filter_flatMap_eq hbucket]
    exact hwalk.symm
  | true =>
    simp only [if_true] at hbucket ⊢
    rw [map_reverse, hkeyed, ← filter_reverse,
      filter_flatMap_eq fun e he => hbucket e (mem_reverse.mp he)]
    have hreverse : ∀ (f : PropertyIndexKey × IdSet → List ℕ) (l : List (PropertyIndexKey × IdSet)),
        (l.reverse.flatMap fun e => (f e).reverse) = (l.flatMap f).reverse := fun f l => by
      rw [reverse_flatMap]
      rfl
    rw [hreverse]
    exact congrArg List.reverse hwalk.symm

theorem entries_inverted (h : scope.Wellformed) (hinverted : isInverted lower upper = true) :
    scope.entries lower upper = [] := by
  have hnone : ∀ e ∈ scope.contents, ¬ between lower upper e.1 = true := by
    intro e _ hbetween
    obtain ⟨hbelow, habove⟩ := Bool.and_eq_true_iff.mp hbetween
    cases lower with
    | included l => cases upper with
      | included u =>
        have hlt : u < l := of_decide_eq_true hinverted
        exact absurd ((of_decide_eq_true hbelow).trans (of_decide_eq_true habove)) (not_le.mpr hlt)
      | _ => cases hinverted
    | _ => cases hinverted
  have hentries := @entries_eq scope lower upper h
  rw [filter_eq_nil_iff.mpr hnone] at hentries
  exact map_eq_nil_iff.mp hentries

variable {lo hi : Option PropertyValue}

/-- A page is the next ids of the course, behind its cursor. -/
theorem orderedChunk_eq (h : scope.Wellformed) (hlaid : LaidOut scope layout)
    (hbounds : probeBounds lo hi = some (lower, upper)) {cursor : Option (PropertyValue × ℕ)}
    (hcursor : after = cursor.bind fun cursor =>
      (PropertyIndexKey.fromValue cursor.1).map fun key => (key, cursor.2))
    (hafter : ∀ cursor, after = some cursor → between lower upper cursor.1 = true) :
    scope.orderedChunk layout lo hi descending cursor max =
      some ((((scope.course lower upper descending).filter
        fun p => after.all fun cursor => ahead descending cursor p).map snd).take max) := by
  have hbuckets := @buckets_eq scope lower upper layout descending after h hlaid hafter
  have hpages : ∀ es : List (KeyRef × IdSet), pushBuckets max (fun e =>
      (layout e.1.toKey).iterAfter
        ((after.filter fun cursor => e.1.isKey cursor.1).map snd) descending) [] es = _ :=
    fun es => pushBuckets_eq (Nat.zero_le max)
  rw [orderedChunk, ← hcursor]
  simp only [hbounds, bind_eq_bind, bind_some]
  change (if isInverted (narrowed lower upper descending after).1
    (narrowed lower upper descending after).2 = true then some [] else some _) = _
  rw [← hbuckets]
  by_cases hinverted : isInverted (narrowed lower upper descending after).1
      (narrowed lower upper descending after).2 = true
  · rw [if_pos hinverted, entries_inverted h hinverted]
    cases descending <;> simp
  · rw [if_neg hinverted, hpages, nil_append]
    rfl

/-- The ids of a range are those of the course. -/
theorem rangeCandidates_eq (h : scope.Wellformed)
    (hbounds : probeBounds lo hi = some (lower, upper)) :
    scope.rangeCandidates lo hi = some ((scope.course lower upper false).map snd) := by
  have hentries : (scope.entries lower upper).flatMap snd =
      (scope.course lower upper false).map snd := by
    have hkeyed : (scope.entries lower upper).flatMap snd =
        ((scope.entries lower upper).map fun e => (e.1.toKey, e.2)).flatMap snd := by
      rw [flatMap_map]
    rw [hkeyed, entries_eq h]
    refine (filter_flatMap_eq fun e _ => ?_).trans
      (walk_filter (fun p => between lower upper p.1) scope.contents).symm
    cases hbetween : between lower upper e.1 <;> simp [hbetween]
  rw [rangeCandidates]
  simp only [hbounds, bind_eq_bind, bind_some]
  by_cases hinverted : isInverted lower upper = true
  · rw [if_pos hinverted, ← hentries, entries_inverted h hinverted]
    rfl
  · rw [if_neg hinverted, hentries]

/-! ### Pages -/

variable {value : ℕ → PropertyValue}

theorem ahead_asymm {a b : PropertyIndexKey × ℕ} (h : ahead descending a b = true) :
    ahead descending b a = false := by
  cases descending with
  | false => exact decide_eq_false (lt_asymm (of_decide_eq_true h))
  | true => exact decide_eq_false (lt_asymm (of_decide_eq_true h))

variable {xs ys : List (PropertyIndexKey × ℕ)}

/-- What a course has ahead of one of its pairs is what follows it. -/
theorem filter_ahead {p : PropertyIndexKey × ℕ}
    (h : (xs ++ p :: ys).Pairwise fun a b => ahead descending a b = true) :
    (xs ++ p :: ys).filter (ahead descending p) = ys := by
  obtain ⟨-, htail, hbefore⟩ := pairwise_append.mp h
  have hself : ahead descending p p = false := by
    cases descending <;> exact decide_eq_false (lt_irrefl _)
  rw [filter_append, filter_cons, hself, filter_eq_nil_iff.mpr, filter_eq_self.mpr]
  · rfl
  · exact (pairwise_cons.mp htail).1
  · intro a ha
    rw [ahead_asymm (hbefore a ha p mem_cons_self)]
    exact Bool.false_ne_true

/-- The key every id is filed under is the key of its value. -/
def Filed (scope : SortedScope) (value : ℕ → PropertyValue) : Prop :=
  ∀ p ∈ scope.walk, PropertyIndexKey.fromValue (value p.2) = some p.1

theorem mem_course {p : PropertyIndexKey × ℕ} :
    p ∈ scope.course lower upper descending ↔ p ∈ scope.walk ∧ between lower upper p.1 = true := by
  cases descending with
  | false => exact mem_filter
  | true => exact mem_reverse.trans mem_filter

/-- The page behind the pairs that are done is the next ones. -/
theorem page_eq (h : scope.Wellformed) (hlaid : LaidOut scope layout)
    (hfiled : scope.Filed value) (hbounds : probeBounds lo hi = some (lower, upper))
    (hcourse : scope.course lower upper descending = xs ++ ys) :
    scope.orderedChunk layout lo hi descending (xs.getLast?.map fun p => (value p.2, p.2)) max =
      some ((ys.take max).map snd) := by
  rcases eq_nil_or_concat xs with rfl | ⟨init, p, rfl⟩
  · rw [orderedChunk_eq h hlaid hbounds rfl (by rintro cursor ⟨⟩), hcourse, map_take]
    simp
  · rw [concat_eq_append, append_assoc, singleton_append] at hcourse
    have hmem : p ∈ scope.course lower upper descending :=
      hcourse ▸ mem_append_right _ mem_cons_self
    obtain ⟨hwalk, hbetween⟩ := mem_course.mp hmem
    have hcursor : some p = ((init.concat p).getLast?.map fun p => (value p.2, p.2)).bind
        fun cursor => (PropertyIndexKey.fromValue cursor.1).map fun key => (key, cursor.2) := by
      rw [concat_eq_append, getLast?_append_cons, getLast?_singleton, map_some,
        bind_some, hfiled p hwalk, map_some]
    rw [orderedChunk_eq h hlaid hbounds hcursor (fun cursor hp => Option.some.inj hp ▸ hbetween),
      hcourse, map_take]
    have hsorted := @course_sorted scope lower upper h descending
    rw [hcourse] at hsorted
    simp only [all_some]
    rw [filter_ahead hsorted]

/-- From a cursor on, pages are the rest of the course. -/
theorem pages_rest (h : scope.Wellformed) (hlaid : LaidOut scope layout)
    (hfiled : scope.Filed value) (hbounds : probeBounds lo hi = some (lower, upper))
    (hmax : 1 ≤ max) (n : ℕ)
    (hcourse : scope.course lower upper descending = xs ++ ys) (hn : ys.length ≤ n) :
    ∃ pages, pages.flatten = ys.map snd ∧ ∀ fuel, n < fuel →
      scope.pages layout value lo hi descending max fuel
        (xs.getLast?.map fun p => (value p.2, p.2)) = some pages := by
  induction n generalizing xs ys with
  | zero =>
    have hnil : ys = [] := length_eq_zero_iff.mp (Nat.le_zero.mp hn)
    refine ⟨[], by rw [hnil]; rfl, fun fuel hfuel => ?_⟩
    obtain ⟨fuel, rfl⟩ := Nat.exists_eq_succ_of_ne_zero (Nat.ne_of_gt hfuel)
    rw [pages, page_eq h hlaid hfiled hbounds hcourse, hnil]
    simp
  | succ n ih =>
    rcases eq_nil_or_concat (ys.take max) with hnil | ⟨init, q, hpage⟩
    · have hys : ys = [] := by
        rcases take_eq_nil_iff.mp hnil with hzero | hys
        · omega
        · exact hys
      refine ⟨[], by rw [hys]; rfl, fun fuel hfuel => ?_⟩
      obtain ⟨fuel, rfl⟩ := Nat.exists_eq_succ_of_ne_zero (Nat.ne_of_gt (Nat.zero_lt_of_lt hfuel))
      rw [pages, page_eq h hlaid hfiled hbounds hcourse, hnil]
      simp
    · have hpos : 0 < (ys.take max).length := by
        rw [hpage]
        simp
      rw [length_take] at hpos
      have hnext : scope.course lower upper descending = (xs ++ ys.take max) ++ ys.drop max := by
        rw [append_assoc, take_append_drop, hcourse]
      obtain ⟨rest, hflat, hpages⟩ := ih hnext (by rw [length_drop]; omega)
      refine ⟨(ys.take max).map snd :: rest, ?_, fun fuel hfuel => ?_⟩
      · rw [flatten_cons, hflat, ← map_append, take_append_drop]
      · obtain ⟨fuel, rfl⟩ :=
          Nat.exists_eq_succ_of_ne_zero (Nat.ne_of_gt (Nat.zero_lt_of_lt hfuel))
        have hlast : ((ys.take max).map snd).getLast? = some q.2 := by
          rw [hpage, concat_eq_append, map_append, map_singleton, getLast?_append_cons,
            getLast?_singleton]
        have hcursor : (xs ++ ys.take max).getLast?.map (fun p => (value p.2, p.2)) =
            some (value q.2, q.2) := by
          rw [hpage, concat_eq_append, ← append_assoc, getLast?_append_cons,
            getLast?_singleton, map_some]
        have hrest := hpages fuel (Nat.lt_of_succ_lt_succ hfuel)
        rw [hcursor] at hrest
        rw [pages, page_eq h hlaid hfiled hbounds hcourse]
        simp only [bind_eq_bind, bind_some, hlast, hrest]

end Chunk

/-- Ids in the order of a scan: by the key of their values, and by id within a key. -/
def InOrder (value : ℕ → PropertyValue) (descending : Bool) (id id' : ℕ) : Prop :=
  ∃ k k', PropertyIndexKey.fromValue (value id) = some k ∧
    PropertyIndexKey.fromValue (value id') = some k' ∧ ahead descending (k, id) (k', id') = true

/-! ### Scopes that are maintained -/

def empty : SortedScope := ⟨[], .empty⟩

/-- Index an id under a key. -/
def insertId (scope : SortedScope) (key : PropertyIndexKey) (id : ℕ) : SortedScope :=
  match key with
  | .string s => { scope with strings := scope.strings.insert s id }
  | key => { scope with byValue := StrPostings.insertEntry scope.byValue key id }

/-- Remove an id from under a key. -/
def removeFromScope (scope : SortedScope) (key : PropertyIndexKey) (id : ℕ) : SortedScope :=
  match key with
  | .string s => { scope with strings := (scope.strings.remove s id).1 }
  | key => { scope with byValue := (StrPostings.removeEntry scope.byValue key id).1 }

/-- Take an entity's old value out. -/
def unindex (scope : SortedScope) (id : ℕ) (old : Option PropertyValue) : SortedScope :=
  (old.bind PropertyIndexKey.fromValue).elim scope fun key => scope.removeFromScope key id

/-- Put an entity's new value in. -/
def index (scope : SortedScope) (id : ℕ) (new : Option PropertyValue) : SortedScope :=
  (new.bind PropertyIndexKey.fromValue).elim scope fun key => scope.insertId key id

/-- Index a change of an entity's value. -/
def update (scope : SortedScope) (id : ℕ) (old new : Option PropertyValue) : SortedScope :=
  (scope.unindex id old).index id new

/-- A new string fits the block of packed strings it goes to. -/
def fits (scope : SortedScope) (new : Option PropertyValue) : Bool :=
  match new.bind PropertyIndexKey.fromValue with
  | some (.string s) => scope.strings.fits s
  | _ => true

end SortedScope

section Buckets

variable {κ : Type} [LinearOrder κ] {es : List (κ × IdSet)} {key k : κ} {id i : ℕ}

/-- An id filed under a key. -/
def FiledIn (es : List (κ × IdSet)) (k : κ) (id : ℕ) : Prop :=
  ∃ ids, get? k es = some ids ∧ id ∈ ids

theorem filedIn_insert : FiledIn (StrPostings.insertEntry es key id) k i ↔
    (k = key ∧ i = id) ∨ FiledIn es k i := by
  rw [FiledIn, FiledIn, StrPostings.insertEntry, get?_put]
  split_ifs with heq
  · subst heq
    cases hget : get? k es with
    | none => simp
    | some old => simp [IdSet.mem_insert]
  · simp [heq]

theorem filedIn_remove (hsorted : Sorted es) (hids : ∀ e ∈ es, e.2.Pairwise (· < ·)) :
    FiledIn (StrPostings.removeEntry es key id).1 k i ↔ ¬ (k = key ∧ i = id) ∧ FiledIn es k i := by
  rw [StrPostings.removeEntry]
  cases hget : get? key es with
  | none =>
    refine ⟨fun h => ⟨?_, h⟩, And.right⟩
    rintro ⟨rfl, -⟩
    obtain ⟨ids, hids, -⟩ := h
    rw [hget] at hids
    cases hids
  | some old =>
    have hasc := hids (key, old) (get?_mem hget)
    have hmem : ∀ j, j ∈ (IdSet.remove old id).1 ↔ j ≠ id ∧ j ∈ old := fun j =>
      IdSet.mem_remove hasc
    by_cases hempty : (IdSet.remove old id).2 = true
    · have hnil : (IdSet.remove old id).1 = [] := List.isEmpty_iff.mp hempty
      simp only [if_pos hempty, FiledIn, hsorted.get?_erase]
      split_ifs with heq
      · subst heq
        have hall : ∀ j ∈ old, j = id := fun j hj => by
          by_contra hne
          have hin := (hmem j).mpr ⟨hne, hj⟩
          rw [hnil] at hin
          cases hin
        rw [hget]
        simp only [Option.some.injEq, exists_eq_left', false_and, exists_false, false_iff,
          not_and, true_and]
        exact fun hne hi => hne (hall i hi)
      · simp [heq]
    · simp only [if_neg hempty, FiledIn, get?_put]
      split_ifs with heq
      · subst heq
        rw [hget]
        simp [hmem]
      · simp [heq]

theorem ascending_insert (hids : ∀ e ∈ es, e.2.Pairwise (· < ·)) :
    ∀ e ∈ StrPostings.insertEntry es key id, e.2.Pairwise (· < ·) := by
  intro e he
  rcases mem_put he with rfl | he
  · cases hget : get? key es with
    | none => exact pairwise_singleton _ _
    | some old => exact IdSet.insert_ascending (hids _ (get?_mem hget))
  · exact hids e he

theorem ascending_remove (hids : ∀ e ∈ es, e.2.Pairwise (· < ·)) :
    ∀ e ∈ (StrPostings.removeEntry es key id).1, e.2.Pairwise (· < ·) := by
  rw [StrPostings.removeEntry]
  cases hget : get? key es with
  | none => exact hids
  | some old =>
    by_cases hempty : (IdSet.remove old id).2 = true
    · simp only [if_pos hempty]
      exact fun e he => hids e (mem_erase he)
    · simp only [if_neg hempty]
      intro e he
      rcases mem_put he with rfl | he
      · exact IdSet.remove_ascending (hids _ (get?_mem hget))
      · exact hids e he

theorem sorted_remove (hsorted : Sorted es) : Sorted (StrPostings.removeEntry es key id).1 := by
  rw [StrPostings.removeEntry]
  cases get? key es with
  | none => exact hsorted
  | some old =>
    by_cases hempty : (IdSet.remove old id).2 = true
    · simp only [if_pos hempty]
      exact hsorted.erase key
    · simp only [if_neg hempty]
      exact hsorted.put key _

theorem key_mem_insert {e : κ × IdSet} (he : e ∈ StrPostings.insertEntry es key id) :
    e.1 = key ∨ ∃ e' ∈ es, e'.1 = e.1 := by
  rcases mem_put he with rfl | he
  · exact .inl rfl
  · exact .inr ⟨e, he, rfl⟩

theorem key_mem_remove {e : κ × IdSet} (he : e ∈ (StrPostings.removeEntry es key id).1) :
    ∃ e' ∈ es, e'.1 = e.1 := by
  rw [StrPostings.removeEntry] at he
  cases hget : get? key es with
  | none =>
    rw [hget] at he
    exact ⟨e, he, rfl⟩
  | some old =>
    rw [hget] at he
    by_cases hempty : (IdSet.remove old id).2 = true
    · simp only [if_pos hempty] at he
      exact ⟨e, mem_erase he, rfl⟩
    · simp only [if_neg hempty] at he
      rcases mem_put he with rfl | he
      · exact ⟨_, get?_mem hget, rfl⟩
      · exact ⟨e, he, rfl⟩

end Buckets

namespace SortedScope

variable {scope : SortedScope} {key k : PropertyIndexKey} {id i : ℕ}
  {values : ℕ → Option PropertyValue}

/-- What maintenance keeps of a scope. -/
structure Kept (scope : SortedScope) : Prop where
  sorted : Sorted scope.byValue
  apart : ∀ e ∈ scope.byValue, ∀ s, e.1 ≠ .string s
  strings : StrPostings.Wellformed scope.strings.blocks
  ids : ∀ e ∈ scope.byValue, e.2.Pairwise (· < ·)
  stringIds : ∀ e ∈ StrPostings.contents scope.strings.blocks, e.2.Pairwise (· < ·)

/-- An id filed under a key, in the part of the scope the key belongs to. -/
def IsFiled (scope : SortedScope) (k : PropertyIndexKey) (id : ℕ) : Prop :=
  match k with
  | .string s => FiledIn (StrPostings.contents scope.strings.blocks) s id
  | k => FiledIn scope.byValue k id

theorem isFiled_other (hk : ∀ s, k ≠ .string s) :
    scope.IsFiled k i = FiledIn scope.byValue k i := by
  cases k with
  | string s => exact absurd rfl (hk s)
  | _ => rfl

theorem insertId_other (hkey : ∀ s, key ≠ .string s) : scope.insertId key id =
    { scope with byValue := StrPostings.insertEntry scope.byValue key id } := by
  cases key with
  | string s => exact absurd rfl (hkey s)
  | _ => rfl

theorem removeFromScope_other (hkey : ∀ s, key ≠ .string s) : scope.removeFromScope key id =
    { scope with byValue := (StrPostings.removeEntry scope.byValue key id).1 } := by
  cases key with
  | string s => exact absurd rfl (hkey s)
  | _ => rfl

theorem string_or (k : PropertyIndexKey) : (∃ s, k = .string s) ∨ ∀ s, k ≠ .string s := by
  by_cases h : ∃ s, k = .string s
  · exact .inl h
  · exact .inr (not_exists.mp h)

namespace Kept

theorem wellformed (h : scope.Kept) : scope.Wellformed := by
  refine ⟨h.sorted, h.apart, h.strings, fun e he => ?_⟩
  rcases mem_append.mp he with he | he
  · exact h.ids e (mem_filter.mp he).1
  · rcases mem_append.mp he with he | he
    · obtain ⟨entry, hentry, rfl⟩ := mem_map.mp he
      exact h.stringIds entry hentry
    · exact h.ids e (mem_filter.mp he).1

/-- The walk has an id under the key it is filed under. -/
theorem mem_walk (h : scope.Kept) : (k, i) ∈ scope.walk ↔ scope.IsFiled k i := by
  have hwalk : (k, i) ∈ scope.walk ↔ ∃ ids, (k, ids) ∈ scope.contents ∧ i ∈ ids := by
    refine mem_flatMap.trans ⟨?_, ?_⟩
    · rintro ⟨e, he, hmem⟩
      obtain ⟨id, hid, heq⟩ := mem_map.mp hmem
      cases heq
      exact ⟨e.2, he, hid⟩
    · rintro ⟨ids, he, hid⟩
      exact ⟨(k, ids), he, mem_map_of_mem hid⟩
  rw [hwalk]
  rcases string_or k with ⟨s, rfl⟩ | hk
  · refine exists_congr fun ids => and_congr_left fun _ => ?_
    rw [← Sorted.mem_iff h.strings.sorted]
    constructor
    · intro hmem
      rcases mem_append.mp hmem with hmem | hmem
      · exact absurd rfl (h.apart _ (mem_filter.mp hmem).1 s)
      · rcases mem_append.mp hmem with hmem | hmem
        · obtain ⟨entry, hentry, heq⟩ := mem_map.mp hmem
          cases heq
          exact hentry
        · exact absurd rfl (h.apart _ (mem_filter.mp hmem).1 s)
    · intro hmem
      exact mem_append_right _ (mem_append_left _ (mem_map.mpr ⟨(s, ids), hmem, rfl⟩))
  · rw [isFiled_other hk]
    refine exists_congr fun ids => and_congr_left fun _ => ?_
    rw [← Sorted.mem_iff h.sorted]
    constructor
    · intro hmem
      rcases mem_append.mp hmem with hmem | hmem
      · exact (mem_filter.mp hmem).1
      · rcases mem_append.mp hmem with hmem | hmem
        · obtain ⟨entry, -, heq⟩ := mem_map.mp hmem
          cases heq
          exact absurd rfl (hk entry.1)
        · exact (mem_filter.mp hmem).1
    · intro hmem
      rcases against_spec k with ⟨-, hlt⟩ | ⟨s, rfl⟩ | ⟨-, hle⟩
      · exact mem_append_left _ (mem_filter.mpr ⟨hmem, decide_eq_true hlt⟩)
      · exact absurd rfl (hk s)
      · exact mem_append_right _
          (mem_append_right _ (mem_filter.mpr ⟨hmem, decide_eq_true hle⟩))

theorem insertId (h : scope.Kept) (hfits : ∀ s, key = .string s → scope.strings.fits s = true)
    (id : ℕ) : (scope.insertId key id).Kept ∧
      ∀ k i, (scope.insertId key id).IsFiled k i ↔ (k = key ∧ i = id) ∨ scope.IsFiled k i := by
  rcases string_or key with ⟨s, rfl⟩ | hkey
  · obtain ⟨hwf, hcontents⟩ := h.strings.insert (hfits s rfl) id
    refine ⟨⟨h.sorted, h.apart, hwf, h.ids, ?_⟩, fun k i => ?_⟩
    · rw [SortedScope.insertId, hcontents]
      exact ascending_insert h.stringIds
    · rcases string_or k with ⟨t, rfl⟩ | hk
      · rw [IsFiled, SortedScope.insertId, hcontents]
        refine filedIn_insert.trans (or_congr_left (and_congr_left fun _ => ?_))
        exact ⟨fun heq => heq ▸ rfl, PropertyIndexKey.string.inj⟩
      · rw [isFiled_other hk, isFiled_other hk]
        exact ⟨.inr, fun hor => hor.resolve_left fun hsame => hk s hsame.1⟩
  · rw [insertId_other hkey]
    refine ⟨⟨h.sorted.put _ _, ?_, h.strings, ascending_insert h.ids, h.stringIds⟩, fun k i => ?_⟩
    · intro e he s
      rcases key_mem_insert he with heq | ⟨e', he', heq⟩
      · exact heq ▸ hkey s
      · exact heq ▸ h.apart e' he' s
    · rcases string_or k with ⟨t, rfl⟩ | hk
      · exact ⟨.inr, fun hor => hor.resolve_left fun hsame => hkey t hsame.1.symm⟩
      · rw [isFiled_other hk, isFiled_other hk]
        exact filedIn_insert

theorem removeFromScope (h : scope.Kept) (key : PropertyIndexKey) (id : ℕ) :
    (scope.removeFromScope key id).Kept ∧ ∀ k i, (scope.removeFromScope key id).IsFiled k i ↔
      ¬ (k = key ∧ i = id) ∧ scope.IsFiled k i := by
  rcases string_or key with ⟨s, rfl⟩ | hkey
  · obtain ⟨hwf, hcontents⟩ := h.strings.remove s id
    have hcontents := congrArg fst hcontents
    dsimp only at hcontents
    refine ⟨⟨h.sorted, h.apart, hwf, h.ids, ?_⟩, fun k i => ?_⟩
    · rw [SortedScope.removeFromScope, hcontents]
      exact ascending_remove h.stringIds
    · rcases string_or k with ⟨t, rfl⟩ | hk
      · rw [IsFiled, SortedScope.removeFromScope, hcontents]
        refine (filedIn_remove h.strings.sorted h.stringIds).trans
          (and_congr_left fun _ => not_congr (and_congr_left fun _ => ?_))
        exact ⟨fun heq => heq ▸ rfl, PropertyIndexKey.string.inj⟩
      · rw [isFiled_other hk, isFiled_other hk]
        exact ⟨fun hfiled => ⟨fun hsame => hk s hsame.1, hfiled⟩, And.right⟩
  · rw [removeFromScope_other hkey]
    refine ⟨⟨sorted_remove h.sorted, ?_, h.strings, ascending_remove h.ids, h.stringIds⟩,
      fun k i => ?_⟩
    · intro e he s
      obtain ⟨e', he', heq⟩ := key_mem_remove he
      exact heq ▸ h.apart e' he' s
    · rcases string_or k with ⟨t, rfl⟩ | hk
      · exact ⟨fun hfiled => ⟨fun hsame => hkey t hsame.1.symm, hfiled⟩, And.right⟩
      · rw [isFiled_other hk, isFiled_other hk]
        exact filedIn_remove h.sorted h.ids

end Kept

/-- A scope that has every id under the key of its value, and under no other. -/
structure Indexes (scope : SortedScope) (values : ℕ → Option PropertyValue) : Prop where
  kept : scope.Kept
  filed : ∀ k i, scope.IsFiled k i ↔ ∃ v, values i = some v ∧ PropertyIndexKey.fromValue v = some k

namespace Indexes

theorem empty : Indexes .empty fun _ => none := by
  refine ⟨⟨Pairwise.nil, by simp [SortedScope.empty], ⟨by simp [SortedScope.empty,
    StrPostings.empty], Pairwise.nil⟩, by simp [SortedScope.empty], by simp [SortedScope.empty,
    StrPostings.empty, StrPostings.contents]⟩, fun k i => ?_⟩
  rcases string_or k with ⟨s, rfl⟩ | hk
  · constructor
    · rintro ⟨_, hids, -⟩
      cases hids
    · rintro ⟨_, hv, -⟩
      cases hv
  · rw [isFiled_other hk]
    constructor
    · rintro ⟨_, hids, -⟩
      cases hids
    · rintro ⟨_, hv, -⟩
      cases hv

/-- An indexed change of a value keeps the scope the index of the values. -/
theorem update (h : Indexes scope values) (id : ℕ) (new : Option PropertyValue)
    (hfits : (scope.unindex id (values id)).fits new = true) :
    Indexes (scope.update id (values id) new) (Function.update values id new) := by
  have hout : (scope.unindex id (values id)).Kept ∧
      ∀ k i, (scope.unindex id (values id)).IsFiled k i ↔ i ≠ id ∧ scope.IsFiled k i := by
    rw [unindex]
    cases hold : (values id).bind PropertyIndexKey.fromValue with
    | none =>
      refine ⟨h.kept, fun k i => ⟨fun hk => ⟨?_, hk⟩, And.right⟩⟩
      rintro rfl
      obtain ⟨v, hv, hkey⟩ := (h.filed k i).mp hk
      rw [hv, bind_some, hkey] at hold
      cases hold
    | some key =>
      obtain ⟨hkept, hfiled⟩ := h.kept.removeFromScope key id
      refine ⟨hkept, fun k i => (hfiled k i).trans ⟨fun ⟨hne, hk⟩ => ⟨?_, hk⟩,
        fun ⟨hne, hk⟩ => ⟨fun hsame => hne hsame.2, hk⟩⟩⟩
      rintro rfl
      obtain ⟨v, hv, hkey⟩ := (h.filed k i).mp hk
      rw [hv, bind_some, hkey] at hold
      exact hne ⟨Option.some.inj hold, rfl⟩
  obtain ⟨hkept, hfiled⟩ := hout
  have hvalues : ∀ k i, (∃ v, Function.update values id new i = some v ∧
      PropertyIndexKey.fromValue v = some k) ↔
        (i = id ∧ new.bind PropertyIndexKey.fromValue = some k) ∨ (i ≠ id ∧ scope.IsFiled k i) := by
    intro k i
    rw [Function.update_apply]
    split_ifs with hi
    · simp [hi, Option.bind_eq_some_iff]
    · simp [hi, h.filed]
  rw [SortedScope.update, index]
  cases hnew : new.bind PropertyIndexKey.fromValue with
  | none =>
    refine ⟨hkept, fun k i => (hfiled k i).trans ((hvalues k i).trans ?_).symm⟩
    rw [hnew]
    simp
  | some key =>
    rw [fits, hnew] at hfits
    have hstring : ∀ s, key = .string s → (scope.unindex id (values id)).strings.fits s = true := by
      rintro s rfl
      exact hfits
    obtain ⟨hkept', hfiled'⟩ := hkept.insertId hstring id
    refine ⟨hkept', fun k i => (hfiled' k i).trans ((hvalues k i).trans ?_).symm⟩
    rw [hnew, hfiled, Option.some.injEq, and_comm, @eq_comm _ key k]

end Indexes

/-- The value an id is read with; every id of an index has one. -/
def valueOf (values : ℕ → Option PropertyValue) (id : ℕ) : PropertyValue :=
  (values id).getD .null

theorem Indexes.isFiled (h : scope.Indexes values) : scope.Filed (valueOf values) := by
  rintro ⟨k, id⟩ hp
  obtain ⟨v, hv, hkey⟩ := (h.filed k id).mp (h.kept.mem_walk.mp hp)
  rw [valueOf, hv]
  exact hkey

/-- **Pages enumerate.** The pages of a scan, one after another, are every id of the range once,
in order: the ids with a key between the bounds. -/
theorem pages_enumerate (scope : SortedScope) (values : ℕ → Option PropertyValue)
    (hindexes : scope.Indexes values) (layout : PropertyIndexKey → View)
    (hlaid : scope.LaidOut layout) (lo hi : Option PropertyValue)
    (hbounds : (probeBounds lo hi).isSome = true) (descending : Bool) (max : ℕ) (hmax : 1 ≤ max) :
    ∃ pages ids n, scope.rangeCandidates lo hi = some ids ∧ (∀ fuel, n < fuel →
        scope.pages layout (valueOf values) lo hi descending max fuel none = some pages) ∧
      pages.flatten.Nodup ∧ (∀ id, id ∈ pages.flatten ↔ id ∈ ids) ∧
      pages.flatten.Pairwise (InOrder (valueOf values) descending) ∧
      ∀ id, id ∈ pages.flatten ↔ ∃ lower upper v key, probeBounds lo hi = some (lower, upper) ∧
        values id = some v ∧ PropertyIndexKey.fromValue v = some key ∧
        between lower upper key = true := by
  obtain ⟨⟨lower, upper⟩, hbounds⟩ := Option.isSome_iff_exists.mp hbounds
  have h := hindexes.kept.wellformed
  have hfiled := hindexes.isFiled
  obtain ⟨pages, hflat, hpages⟩ := @pages_rest scope lower upper layout descending max lo hi
    (valueOf values) [] _ h hlaid hfiled hbounds hmax _ (nil_append _).symm le_rfl
  have horder : pages.flatten.Pairwise (InOrder (valueOf values) descending) := by
    rw [hflat]
    refine pairwise_map.mpr ((course_sorted h descending).imp_of_mem ?_)
    intro a b ha hb hahead
    exact ⟨a.1, b.1, hfiled a (mem_course.mp ha).1, hfiled b (mem_course.mp hb).1, hahead⟩
  refine ⟨pages, _, _, rangeCandidates_eq h hbounds, hpages, ?_, ?_, horder, ?_⟩
  · refine horder.imp ?_
    rintro id id' ⟨k, k', hk, hk', hahead⟩ rfl
    rw [hk] at hk'
    cases hk'
    rw [ahead_asymm hahead] at hahead
    cases hahead
  · intro id
    rw [hflat, mem_map, mem_map]
    simp only [mem_course]
  · intro id
    rw [hflat, mem_map]
    constructor
    · rintro ⟨⟨k, id⟩, hmem, rfl⟩
      obtain ⟨hwalk, hbetween⟩ := mem_course.mp hmem
      obtain ⟨v, hv, hkey⟩ := (hindexes.filed k id).mp (hindexes.kept.mem_walk.mp hwalk)
      exact ⟨lower, upper, v, k, hbounds, hv, hkey, hbetween⟩
    · rintro ⟨lower', upper', v, k, hbounds', hv, hkey, hbetween⟩
      obtain ⟨rfl, rfl⟩ := Prod.mk.inj (Option.some.inj (hbounds.symm.trans hbounds'))
      have hwalk := hindexes.kept.mem_walk.mpr ((hindexes.filed k id).mpr ⟨v, hv, hkey⟩)
      exact ⟨(k, id), mem_course.mpr ⟨hwalk, hbetween⟩, rfl⟩

/-- Two entities of value 1, one of 1.0 and one of a text. -/
def onesAndText : ℕ → Option PropertyValue :=
  Function.update (Function.update (Function.update (Function.update (fun _ => none)
    4 (some (.int 1))) 9 (some (.int 1))) 2 (some (.float ⟨0x3FF0000000000000⟩)))
    7 (some (.string "A"))

def onesAndTextScope : SortedScope :=
  (((empty.update 4 none (some (.int 1))).update 9 none (some (.int 1))).update
    2 none (some (.float ⟨0x3FF0000000000000⟩))).update 7 none (some (.string "A"))

theorem onesAndText_indexes : onesAndTextScope.Indexes onesAndText := by
  have hone := Indexes.empty.update 4 (some (.int 1)) rfl
  have htwo := hone.update 9 (some (.int 1)) rfl
  have hthree := htwo.update 2 (some (.float ⟨0x3FF0000000000000⟩)) (by decide +kernel)
  exact hthree.update 7 (some (.string "A")) (by decide +kernel)

def onesAndTextLayout (k : PropertyIndexKey) : View :=
  if k = .int 1 then .small [4, 9] else if k.tag = 2 then .one 2 else .one 7

theorem onesAndText_laidOut : onesAndTextScope.LaidOut onesAndTextLayout := by
  have hcontents : onesAndTextScope.contents = [(.int 1, [4, 9]),
      (.float (F64.sortableBits ⟨0x3FF0000000000000⟩), [2]), (.string [65], [7])] := by
    decide +kernel
  have hint : onesAndTextLayout (.int 1) = .small [4, 9] := if_pos rfl
  have hfloat : onesAndTextLayout (.float (F64.sortableBits ⟨0x3FF0000000000000⟩)) = .one 2 :=
    (if_neg (by decide +kernel)).trans (if_pos rfl)
  have hstring : onesAndTextLayout (.string [65]) = .one 7 :=
    (if_neg (by decide +kernel)).trans (if_neg (by decide))
  intro e he
  rw [hcontents] at he
  simp only [mem_cons, not_mem_nil, or_false] at he
  rcases he with rfl | rfl | rfl
  · rw [hint]
    exact ⟨⟨by decide, by rintro groups ⟨⟩⟩, rfl⟩
  · rw [hfloat]
    exact ⟨⟨pairwise_singleton _ _, by rintro groups ⟨⟩⟩, rfl⟩
  · rw [hstring]
    exact ⟨⟨pairwise_singleton _ _, by rintro groups ⟨⟩⟩, rfl⟩

theorem onesAndText_pages : ∃ pages ids n, onesAndTextScope.rangeCandidates none none = some ids ∧
    (∀ fuel, n < fuel → onesAndTextScope.pages onesAndTextLayout (valueOf onesAndText) none none
      true 1 fuel none = some pages) ∧
    pages.flatten.Nodup ∧ (∀ id, id ∈ pages.flatten ↔ id ∈ ids) ∧
    pages.flatten.Pairwise (InOrder (valueOf onesAndText) true) ∧
    ∀ id, id ∈ pages.flatten ↔ ∃ lower upper v key, probeBounds none none = some (lower, upper) ∧
      onesAndText id = some v ∧ PropertyIndexKey.fromValue v = some key ∧
      between lower upper key = true :=
  pages_enumerate onesAndTextScope onesAndText onesAndText_indexes onesAndTextLayout
    onesAndText_laidOut none none rfl true 1 le_rfl

end SortedScope

end LoraDb
