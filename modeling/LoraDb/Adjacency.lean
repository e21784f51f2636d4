import LoraDb.Mutation

/-!
# Adjacency Lists

A node keeps two lists, of the relationships that leave it and of those that enter it. An
entry names the relationship, its type and the node at the far end, in as many bytes as the
numbers need, so a list has a length in bytes (`sideBytes`) beside its number of entries.
The byte length only decides whether a batch delete edits the list at once or later.

## Main results

* `sideBytes_eq_zero`: only an empty list takes no bytes.
* `filter_remove`, `filter_remove_eq`: removing one entry commutes with filtering out
  others, and is filtering where no relationship is listed twice.
-/

open List

namespace LoraDb

/-- An entry of an adjacency list. -/
structure AdjEntry where
  typeId : ℕ
  neighbour : NodeId
  rel : RelationshipId
deriving DecidableEq

/-- One of a node's two lists: leaving it, or entering it. -/
inductive Side where
  | out
  | into
deriving DecidableEq

/-- Bytes a number is stored in. -/
def width (value : ℕ) : ℕ := max ((value.size + 7) / 8) 1

/-- Bytes a type number is stored in. -/
def typeWidth (typeId : ℕ) : ℕ :=
  if typeId ≤ 0xFF then 1 else if typeId ≤ 0xFFFF then 2 else 4

/-- Bytes of an entry, its header byte included. -/
def AdjEntry.entryLen (entry : AdjEntry) : ℕ :=
  1 + typeWidth entry.typeId + width entry.neighbour + width entry.rel

/-- Both lists of one node, oldest entry first. -/
structure Adjacency where
  outgoing : List AdjEntry
  incoming : List AdjEntry
deriving DecidableEq

namespace Adjacency

variable {adj adj' : Adjacency} {on on' : Side}

/-- No relationships. -/
def empty : Adjacency := ⟨[], []⟩

def side (adj : Adjacency) : Side → List AdjEntry
  | .out => adj.outgoing
  | .into => adj.incoming

/-- Edit the list on one side. -/
def edit (adj : Adjacency) (side : Side) (f : List AdjEntry → List AdjEntry) : Adjacency :=
  match side with
  | .out => { adj with outgoing := f adj.outgoing }
  | .into => { adj with incoming := f adj.incoming }

def isEmpty (adj : Adjacency) : Bool := adj.outgoing.isEmpty && adj.incoming.isEmpty

def push (adj : Adjacency) (side : Side) (entry : AdjEntry) : Adjacency :=
  adj.edit side (· ++ [entry])

/-- Remove the first entry for `rel`. -/
def remove (adj : Adjacency) (side : Side) (rel : RelationshipId) : Adjacency :=
  adj.edit side (·.eraseP fun e => e.rel == rel)

/-- Remove every entry for a relationship of `rels`. -/
def removeAll (adj : Adjacency) (side : Side) (rels : List RelationshipId) : Adjacency :=
  adj.edit side (·.filter fun e => !rels.contains e.rel)

/-- Bytes of the list on one side. -/
def sideBytes (adj : Adjacency) (side : Side) : ℕ :=
  ((adj.side side).map AdjEntry.entryLen).sum

theorem ext_side (h : ∀ on, adj.side on = adj'.side on) : adj = adj' := by
  obtain ⟨out, into⟩ := adj
  obtain ⟨out', into'⟩ := adj'
  have hout : out = out' := h .out
  have hinto : into = into' := h .into
  rw [hout, hinto]

@[simp] theorem side_empty : empty.side on = [] := by cases on <;> rfl

theorem side_edit {f : List AdjEntry → List AdjEntry} :
    (adj.edit on f).side on' = if on' = on then f (adj.side on) else adj.side on' := by
  cases on <;> cases on' <;> rfl

/-- Only an empty list takes no bytes. -/
theorem sideBytes_eq_zero : adj.sideBytes on = 0 ↔ adj.side on = [] := by
  constructor
  · intro h
    cases hlist : adj.side on with
    | nil => rfl
    | cons entry entries =>
      rw [sideBytes, hlist, map_cons, sum_cons, AdjEntry.entryLen] at h
      omega
  · intro h
    rw [sideBytes, h, map_nil, sum_nil]

end Adjacency

/-! ### Removing entries -/

variable {entries : List AdjEntry} {rel : RelationshipId} {keep : AdjEntry → Bool}

/-- No relationship is listed twice. -/
def ListedOnce (entries : List AdjEntry) : Prop := (entries.map AdjEntry.rel).Nodup

theorem ListedOnce.sublist {entries' : List AdjEntry} (h : ListedOnce entries)
    (hsub : entries' <+ entries) : ListedOnce entries' :=
  Nodup.sublist (hsub.map _) h

/-- Removing an entry commutes with filtering out entries of other relationships. -/
theorem filter_remove (hkeep : ∀ e, e.rel = rel → keep e = true) :
    (entries.eraseP fun e => e.rel == rel).filter keep =
      (entries.filter keep).eraseP fun e => e.rel == rel := by
  induction entries with
  | nil => rfl
  | cons e entries ih =>
    by_cases hrel : e.rel = rel
    · simp [hrel, hkeep e hrel]
    · by_cases hk : keep e = true
      · simp [hrel, hk, ih]
      · simp [hrel, hk, ih]

/-- Where no relationship is listed twice, removing its entry is filtering it out. -/
theorem ListedOnce.remove_eq (h : ListedOnce entries) :
    (entries.eraseP fun e => e.rel == rel) = entries.filter fun e => e.rel != rel := by
  induction entries with
  | nil => rfl
  | cons e entries ih =>
    have hcons : e.rel ∉ entries.map AdjEntry.rel ∧ ListedOnce entries := nodup_cons.mp h
    obtain ⟨hfirst, hrest⟩ := hcons
    by_cases hrel : e.rel = rel
    · have hothers : ∀ e' ∈ entries, (e'.rel != rel) = true := by
        intro e' he'
        rw [bne_iff_ne]
        rintro rfl
        exact hfirst (mem_map.mpr ⟨e', he', hrel.symm⟩)
      simp [hrel, filter_eq_self.mpr hothers]
    · simp [hrel, ih hrest]

/-- Where no relationship is listed twice, an entry of a list is its relationship's only
one there. -/
theorem ListedOnce.filter_eq {entry : AdjEntry} (h : ListedOnce entries)
    (hmem : entry ∈ entries) : entries.filter (fun e => e.rel == entry.rel) = [entry] := by
  induction entries with
  | nil => cases hmem
  | cons e entries ih =>
    have hcons : e.rel ∉ entries.map AdjEntry.rel ∧ ListedOnce entries := nodup_cons.mp h
    obtain ⟨hfirst, hrest⟩ := hcons
    rcases mem_cons.mp hmem with rfl | hmem
    · have hothers : ∀ e ∈ entries, ¬ (e.rel == entry.rel) = true := by
        intro e he heq
        exact hfirst (mem_map.mpr ⟨e, he, beq_iff_eq.mp heq⟩)
      simp [filter_eq_nil_iff.mpr hothers]
    · have hne : e.rel ≠ entry.rel := fun heq => hfirst (mem_map.mpr ⟨entry, hmem, heq.symm⟩)
      rw [filter_cons_of_neg (by simpa using hne), ih hrest hmem]

end LoraDb
