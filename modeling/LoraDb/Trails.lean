import Mathlib.Data.List.Nodup
import Mathlib.Data.List.Perm.Basic
import Mathlib.Tactic.Ring

/-!
# Trails

Walks in a graph given by the edges that leave each vertex; a trail repeats no edge. The trails
from a vertex form a tree, each growing out of the trail one edge shorter, and a search walks
that tree level by level or depth first: `level` and `below` list what it meets.

## Main results

* `mem_level`, `nodup_level`: a level holds every trail of its length once.
* `mem_below`, `nodup_below`: so does a subtree, for the trails that continue its root.
-/

open List

namespace Trails

variable {V E : Type} (edges : V → List (E × V))

/-- Where a walk from a vertex ends. -/
def endpoint (a : V) : List (E × V) → V
  | [] => a
  | (_, b) :: es => endpoint b es

def IsWalk : V → List (E × V) → Prop
  | _, [] => True
  | a, (e, b) :: es => (e, b) ∈ edges a ∧ IsWalk b es

/-- A walk whose edges are distinct. -/
structure IsTrail (a : V) (es : List (E × V)) : Prop where
  isWalk : IsWalk edges a es
  nodup : (es.map Prod.fst).Nodup

variable {edges} {a : V} {es fs : List (E × V)} {n : ℕ}

@[simp] theorem endpoint_cons (a : V) (e : E × V) (es : List (E × V)) :
    endpoint a (e :: es) = endpoint e.2 es := rfl

@[simp] theorem isWalk_nil : IsWalk edges a [] := trivial

@[simp] theorem isWalk_cons {e : E × V} :
    IsWalk edges a (e :: es) ↔ e ∈ edges a ∧ IsWalk edges e.2 es := Iff.rfl

theorem endpoint_append (a : V) (es fs : List (E × V)) :
    endpoint a (es ++ fs) = endpoint (endpoint a es) fs := by
  induction es generalizing a with
  | nil => rfl
  | cons e es ih => exact ih e.2

@[simp] theorem endpoint_concat (a : V) (es : List (E × V)) (e : E × V) :
    endpoint a (es ++ [e]) = e.2 := by
  rw [endpoint_append]
  rfl

theorem isWalk_append : IsWalk edges a (es ++ fs) ↔
    IsWalk edges a es ∧ IsWalk edges (endpoint a es) fs := by
  induction es generalizing a with
  | nil => exact (and_iff_right isWalk_nil).symm
  | cons e es ih => simp [ih, and_assoc]

theorem isTrail_of_append (h : IsTrail edges a (es ++ fs)) : IsTrail edges a es :=
  ⟨(isWalk_append.mp h.isWalk).1, (nodup_append.mp (map_append ▸ h.nodup)).1⟩

variable [DecidableEq E] (edges)

/-- The edges a trail can be continued by. -/
def onward (a : V) (es : List (E × V)) : List (E × V) :=
  (edges (endpoint a es)).filter fun e => decide (e.1 ∉ es.map Prod.fst)

/-- The trails one edge longer. -/
def extensions (a : V) (es : List (E × V)) : List (List (E × V)) :=
  (onward edges a es).map fun e => es ++ [e]

/-- The trails of one length, breadth first. -/
def level (a : V) : ℕ → List (List (E × V))
  | 0 => [[]]
  | n + 1 => (level a n).flatMap (extensions edges a)

/-- A trail and those that continue it by at most `n` edges, depth first. -/
def below (a : V) : ℕ → List (E × V) → List (List (E × V))
  | 0, es => [es]
  | n + 1, es => es :: (extensions edges a es).flatMap (below a n)

variable {edges}

theorem mem_onward {e : E × V} :
    e ∈ onward edges a es ↔ e ∈ edges (endpoint a es) ∧ e.1 ∉ es.map Prod.fst := by
  simp only [onward, mem_filter, decide_eq_true_iff]

/-- A trail grows by one edge that leaves its end and is not on it. -/
theorem isTrail_concat {e : E × V} : IsTrail edges a (es ++ [e]) ↔
    IsTrail edges a es ∧ e ∈ onward edges a es := by
  rw [mem_onward]
  constructor
  · rintro ⟨hwalk, hnodup⟩
    rw [isWalk_append] at hwalk
    rw [map_append, nodup_append] at hnodup
    exact ⟨⟨hwalk.1, hnodup.1⟩, hwalk.2.1, fun h => hnodup.2.2 _ h _ mem_cons_self rfl⟩
  · rintro ⟨⟨hwalk, hnodup⟩, hmem, hnew⟩
    refine ⟨isWalk_append.mpr ⟨hwalk, hmem, trivial⟩, ?_⟩
    rw [map_append, nodup_append]
    refine ⟨hnodup, nodup_singleton _, fun x hx y hy => ?_⟩
    rintro rfl
    rw [map_singleton, mem_singleton] at hy
    exact hnew (hy ▸ hx)

theorem mem_extensions : fs ∈ extensions edges a es ↔ ∃ e ∈ onward edges a es, fs = es ++ [e] :=
  mem_map.trans (exists_congr fun _ => and_congr_right fun _ => eq_comm)

/-! ### Levels -/

theorem level_zero (a : V) : level edges a 0 = [[]] := rfl

theorem level_succ (a : V) (n : ℕ) :
    level edges a (n + 1) = (level edges a n).flatMap (extensions edges a) := rfl

/-- A level holds every trail of its length. -/
theorem mem_level : es ∈ level edges a n ↔ IsTrail edges a es ∧ es.length = n := by
  induction n generalizing es with
  | zero =>
    rw [level_zero, mem_singleton]
    constructor
    · rintro rfl
      exact ⟨⟨trivial, nodup_nil⟩, rfl⟩
    · exact fun h => length_eq_zero_iff.mp h.2
  | succ n ih =>
    rw [level_succ, mem_flatMap]
    constructor
    · rintro ⟨fs, hfs, hes⟩
      obtain ⟨htrail, hlength⟩ := ih.mp hfs
      obtain ⟨e, he, rfl⟩ := mem_extensions.mp hes
      exact ⟨isTrail_concat.mpr ⟨htrail, he⟩, by simp [hlength]⟩
    · rintro ⟨htrail, hlength⟩
      obtain ⟨fs, e, rfl⟩ := (eq_nil_or_concat es).resolve_left (by
        rintro rfl
        cases hlength)
      rw [concat_eq_append] at htrail hlength ⊢
      rw [isTrail_concat] at htrail
      exact ⟨fs, ih.mpr ⟨htrail.1, by simpa using hlength⟩, mem_extensions.mpr ⟨e, htrail.2, rfl⟩⟩

theorem nodup_extensions (hedges : ∀ v, (edges v).Nodup) (es : List (E × V)) :
    (extensions edges a es).Nodup :=
  ((hedges _).filter _).map fun _ _ h => by simpa using h

/-- Once each. -/
theorem nodup_level (hedges : ∀ v, (edges v).Nodup) (n : ℕ) : (level edges a n).Nodup := by
  induction n with
  | zero => exact nodup_singleton []
  | succ n ih =>
    rw [level_succ, nodup_flatMap]
    refine ⟨fun es _ => nodup_extensions hedges es, ih.imp fun {es es'} hne => ?_⟩
    intro fs hfs hfs'
    obtain ⟨e, -, rfl⟩ := mem_extensions.mp hfs
    obtain ⟨e', -, h⟩ := mem_extensions.mp hfs'
    exact hne (append_inj h (by simpa using congrArg length h)).1

/-- Trails of lengths from `lo` to `hi`, shortest first. -/
def levels (edges : V → List (E × V)) (a : V) (lo hi : ℕ) : List (List (E × V)) :=
  (range (hi + 1)).flatMap fun n => if lo ≤ n then level edges a n else []

theorem mem_levels {lo hi : ℕ} : es ∈ levels edges a lo hi ↔
    IsTrail edges a es ∧ lo ≤ es.length ∧ es.length ≤ hi := by
  rw [levels, mem_flatMap]
  constructor
  · rintro ⟨n, hn, hes⟩
    split at hes
    next hlo =>
      obtain ⟨htrail, rfl⟩ := mem_level.mp hes
      exact ⟨htrail, hlo, by simpa [Nat.lt_succ_iff] using hn⟩
    next => cases hes
  · rintro ⟨htrail, hlo, hhi⟩
    refine ⟨es.length, by simpa [Nat.lt_succ_iff] using hhi, ?_⟩
    rw [if_pos hlo]
    exact mem_level.mpr ⟨htrail, rfl⟩

theorem nodup_levels (hedges : ∀ v, (edges v).Nodup) (lo hi : ℕ) :
    (levels edges a lo hi).Nodup := by
  rw [levels, nodup_flatMap]
  refine ⟨fun n _ => ?_, nodup_range.imp fun {n m} hne => ?_⟩
  · split
    · exact nodup_level hedges n
    · exact nodup_nil
  · intro es hes hes'
    have hlength : ∀ {n}, es ∈ (if lo ≤ n then level edges a n else []) → es.length = n := by
      intro n h
      split at h
      · exact (mem_level.mp h).2
      · cases h
    exact hne ((hlength hes).symm.trans (hlength hes'))

/-! ### Subtrees -/

theorem below_zero (a : V) (es : List (E × V)) : below edges a 0 es = [es] := rfl

theorem below_succ (a : V) (n : ℕ) (es : List (E × V)) :
    below edges a (n + 1) es = es :: (extensions edges a es).flatMap (below edges a n) := rfl

/-- A subtree holds every trail that continues its root. -/
theorem mem_below (hes : IsTrail edges a es) : fs ∈ below edges a n es ↔
    IsTrail edges a fs ∧ es <+: fs ∧ fs.length ≤ es.length + n := by
  induction n generalizing es with
  | zero =>
    rw [below_zero, mem_singleton]
    constructor
    · rintro rfl
      exact ⟨hes, prefix_refl _, le_rfl⟩
    · rintro ⟨-, hstart, hlength⟩
      exact (hstart.eq_of_length_le hlength).symm
  | succ n ih =>
    rw [below_succ, mem_cons, mem_flatMap]
    constructor
    · rintro (rfl | ⟨gs, hgs, hfs⟩)
      · exact ⟨hes, prefix_refl _, Nat.le_add_right _ _⟩
      · obtain ⟨e, he, rfl⟩ := mem_extensions.mp hgs
        obtain ⟨htrail, hstart, hlength⟩ := (ih (isTrail_concat.mpr ⟨hes, he⟩)).mp hfs
        refine ⟨htrail, (prefix_append _ _).trans hstart, ?_⟩
        rw [length_append, length_singleton] at hlength
        omega
    · rintro ⟨htrail, ⟨rest, rfl⟩, hlength⟩
      cases rest with
      | nil => exact Or.inl (append_nil _)
      | cons e rest =>
        refine Or.inr ⟨es ++ [e], ?_, ?_⟩
        · have hgrown : IsTrail edges a (es ++ [e]) := isTrail_of_append (by
            rw [append_assoc]
            exact htrail)
          exact mem_extensions.mpr ⟨e, (isTrail_concat.mp hgrown).2, rfl⟩
        · have hgrown : IsTrail edges a (es ++ [e]) := isTrail_of_append (by
            rw [append_assoc]
            exact htrail)
          refine (ih hgrown).mpr ⟨htrail, ⟨rest, by simp⟩, ?_⟩
          simp only [length_append, length_cons, length_nil] at hlength ⊢
          omega

theorem nodup_below (hedges : ∀ v, (edges v).Nodup) (hes : IsTrail edges a es) (n : ℕ) :
    (below edges a n es).Nodup := by
  induction n generalizing es with
  | zero => exact nodup_singleton es
  | succ n ih =>
    have hgrown : ∀ gs ∈ extensions edges a es, IsTrail edges a gs ∧ es.length < gs.length := by
      intro gs hgs
      obtain ⟨e, he, rfl⟩ := mem_extensions.mp hgs
      exact ⟨isTrail_concat.mpr ⟨hes, he⟩, by simp⟩
    rw [below_succ, nodup_cons, nodup_flatMap]
    refine ⟨fun h => ?_, fun gs hgs => ih (hgrown gs hgs).1, ?_⟩
    · obtain ⟨gs, hgs, hmem⟩ := mem_flatMap.mp h
      obtain ⟨-, hstart, -⟩ := (mem_below (hgrown gs hgs).1).mp hmem
      exact absurd hstart.length_le (not_le.mpr (hgrown gs hgs).2)
    · refine (nodup_extensions hedges es).imp_of_mem fun {gs gs'} hgs hgs' hne => ?_
      intro fs hfs hfs'
      obtain ⟨-, hstart, -⟩ := (mem_below (hgrown gs hgs).1).mp hfs
      obtain ⟨-, hstart', -⟩ := (mem_below (hgrown gs' hgs').1).mp hfs'
      obtain ⟨e, -, rfl⟩ := mem_extensions.mp hgs
      obtain ⟨e', -, rfl⟩ := mem_extensions.mp hgs'
      exact hne (prefix_of_prefix_length_le hstart hstart' (by simp) |>.eq_of_length (by simp))

end Trails
