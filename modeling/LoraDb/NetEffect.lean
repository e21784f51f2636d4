import Mathlib.Data.List.Induction
import Mathlib.Logic.Function.Basic

/-!
# Net Effects

Steps that create, edit and delete the entries of a table, and the marks left on the
entries they name: whether an entry was created, and whether it was deleted. A mark says
nothing of the order or the number of steps, yet it tells whether the entry was there before
the steps, and whether it is there after them.

This needs entries not to come back: in a `Settled` list no deleted entry is created again,
and what is dropped a second time was deleted before. Clearing the table starts over.

## Main results

* `marks_fit`: each mark says whether its entry was there before and after the steps.
* `marks_isSome_iff`: the entries marked are those named since the table was last cleared.
-/

open Function (update_of_ne update_self)

namespace NetEffect

open List

variable {ε ρ : Type}

/-- What one step does to the table: at most one entry changes, unless all go. -/
inductive Effect (ε : Type) where
  | create (entry : ε)
  | edit (entry : ε)
  | delete (entry : ε)
  /-- Delete what may be gone already. -/
  | drop (entry : ε)
  | clear
  | keep
deriving DecidableEq

/-- A table: the value of each entry that is there. -/
abbrev Table (ε ρ : Type) := ε → Option ρ

namespace Effect

/-- The entry a step names. -/
def entry? : Effect ε → Option ε
  | .create entry | .edit entry | .delete entry | .drop entry => some entry
  | .clear | .keep => none

/-- The entry a step removes. -/
def removes? : Effect ε → Option ε
  | .delete entry | .drop entry => some entry
  | .create _ | .edit _ | .clear | .keep => none

/-- What a step may turn a table into. Dropping an entry that is there is left open. -/
def Turns : Effect ε → Table ε ρ → Table ε ρ → Prop
  | .create e, t, t' => t e = none ∧ (∃ a, t' e = some a) ∧ ∀ e' ≠ e, t' e' = t e'
  | .edit e, t, t' => (∃ a, t e = some a) ∧ (∃ a, t' e = some a) ∧ ∀ e' ≠ e, t' e' = t e'
  | .delete e, t, t' => (∃ a, t e = some a) ∧ t' e = none ∧ ∀ e' ≠ e, t' e' = t e'
  | .drop e, t, t' => t e = none → t' = t
  | .clear, _, t' => t' = fun _ => none
  | .keep, t, t' => t' = t

end Effect

/-- Steps one after another. -/
def Runs : List (Effect ε) → Table ε ρ → Table ε ρ → Prop
  | [], t, t' => t' = t
  | step :: steps, t, t' => ∃ mid, step.Turns t mid ∧ Runs steps mid t'

/-- No entry deleted is created again, and what is dropped was deleted before. `gone` holds
the entries deleted since the table was last cleared. -/
def Settled : List ε → List (Effect ε) → Prop
  | _, [] => True
  | gone, .create e :: steps => e ∉ gone ∧ Settled gone steps
  | gone, .edit _ :: steps => Settled gone steps
  | gone, .delete e :: steps => Settled (e :: gone) steps
  | gone, .drop e :: steps => e ∈ gone ∧ Settled gone steps
  | _, .clear :: steps => Settled [] steps
  | gone, .keep :: steps => Settled gone steps

/-- The steps after the last that clears the table. -/
def sinceClear (steps : List (Effect ε)) : List (Effect ε) :=
  steps.foldl (fun kept step => match step with | .clear => [] | step => kept ++ [step]) []

/-! ### Marks -/

/-- What was done to an entry. -/
@[ext] structure Mark where
  created : Bool
  deleted : Bool
deriving DecidableEq

/-- The entries marked. -/
abbrev Marks (ε : Type) := ε → Option Mark

/-- The mark of an entry that had the first value before and has the second now. -/
def Mark.of (before after : Option ρ) : Mark := ⟨before.isNone, after.isNone⟩

/-- Entries marked are marked right, the others are as they were, and `gone` holds those
marked as deleted. -/
structure Fits (start now : Table ε ρ) (gone : List ε) (marks : Marks ε) : Prop where
  marked : ∀ {e mark}, marks e = some mark → mark = .of (start e) (now e)
  others : ∀ {e}, marks e = none → now e = start e
  deleted : ∀ {e mark}, marks e = some mark → (mark.deleted = true ↔ e ∈ gone)
  named : ∀ {e}, e ∈ gone → ∃ mark, marks e = some mark

variable {start now now' : Table ε ρ} {gone : List ε} {marks : Marks ε} {e : ε}

theorem Fits.refl : Fits start start [] (fun _ => none) where
  marked := nofun
  others _ := rfl
  deleted := nofun
  named h := absurd h not_mem_nil

/-- A mark as it is expected of an entry, whether there is one yet or not. -/
theorem Fits.getD (h : Fits start now gone marks) (hnow : ∃ a, now e = some a) :
    (marks e).getD ⟨false, false⟩ = .of (start e) (now e) := by
  cases hmark : marks e with
  | some mark => exact h.marked hmark
  | none =>
    obtain ⟨a, ha⟩ := hnow
    rw [← h.others hmark, ha]
    rfl

/-- An entry that is there is not among those gone. -/
theorem Fits.not_gone (h : Fits start now gone marks) (hnow : ∃ a, now e = some a) : e ∉ gone := by
  intro hgone
  obtain ⟨mark, hmark⟩ := h.named hgone
  obtain ⟨a, ha⟩ := hnow
  have hdeleted := (h.deleted hmark).mpr hgone
  rw [h.marked hmark, ha] at hdeleted
  cases hdeleted

section

variable [DecidableEq ε]

/-- Change the mark of one entry; an entry without one starts with a blank mark. -/
def Marks.edit (marks : Marks ε) (e : ε) (change : Mark → Mark) : Marks ε :=
  Function.update marks e (some (change ((marks e).getD ⟨false, false⟩)))

def Marks.note (marks : Marks ε) : Effect ε → Marks ε
  | .create e => marks.edit e ({ · with created := true })
  | .edit e => marks.edit e id
  | .delete e | .drop e => marks.edit e ({ · with deleted := true })
  | .clear => fun _ => none
  | .keep => marks

@[simp] theorem edit_self {change : Mark → Mark} :
    marks.edit e change e = some (change ((marks e).getD ⟨false, false⟩)) :=
  update_self ..

theorem edit_of_ne {e' : ε} {change : Mark → Mark} (h : e' ≠ e) :
    marks.edit e change e' = marks e' :=
  update_of_ne h ..

theorem turns_create {t : Table ε ρ} {a : ρ} (h : t e = none) :
    (Effect.create e).Turns t (Function.update t e (some a)) :=
  ⟨h, ⟨a, update_self ..⟩, fun _ he => update_of_ne he ..⟩

theorem turns_edit {t : Table ε ρ} {a : ρ} (h : ∃ b, t e = some b) :
    (Effect.edit e).Turns t (Function.update t e (some a)) :=
  ⟨h, ⟨a, update_self ..⟩, fun _ he => update_of_ne he ..⟩

theorem turns_delete {t : Table ε ρ} (h : ∃ b, t e = some b) :
    (Effect.delete e).Turns t (Function.update t e none) :=
  ⟨h, update_self .., fun _ he => update_of_ne he ..⟩

/-- Editing one mark: the table may change at that entry. -/
theorem Fits.edit (h : Fits start now gone marks) (change : Mark → Mark) {gone' : List ε}
    (hmark : change ((marks e).getD ⟨false, false⟩) = .of (start e) (now' e))
    (hgone : now' e = none ↔ e ∈ gone') (hother : ∀ e' ≠ e, now' e' = now e')
    (hothers : ∀ e' ≠ e, e' ∈ gone' ↔ e' ∈ gone) :
    Fits start now' gone' (marks.edit e change) where
  marked := by
    intro e' mark hmark'
    by_cases he : e' = e
    · rw [he, edit_self] at hmark'
      rw [he, ← hmark, Option.some.inj hmark']
    · rw [edit_of_ne he] at hmark'
      rw [hother e' he]
      exact h.marked hmark'
  others := by
    intro e' hnone
    by_cases he : e' = e
    · rw [he, edit_self] at hnone
      cases hnone
    · rw [edit_of_ne he] at hnone
      rw [hother e' he]
      exact h.others hnone
  deleted := by
    intro e' mark hmark'
    by_cases he : e' = e
    · rw [he, edit_self] at hmark'
      rw [he, ← Option.some.inj hmark', hmark, ← hgone, Mark.of, Option.isNone_iff_eq_none]
    · rw [edit_of_ne he] at hmark'
      rw [hothers e' he]
      exact h.deleted hmark'
  named := by
    intro e' hmem
    by_cases he : e' = e
    · rw [he, edit_self]
      exact ⟨_, rfl⟩
    · rw [edit_of_ne he]
      exact h.named ((hothers e' he).mp hmem)

variable {steps : List (Effect ε)}

/-- Each step is noted right. After one that clears, the table starts over. -/
theorem Fits.note (h : Fits start now gone marks) {step : Effect ε}
    (hstep : step.Turns now now') (hsettled : Settled gone (step :: steps)) :
    ∃ gone', Settled gone' steps ∧
      Fits (if step = .clear then fun _ => none else start) now' gone' (marks.note step) := by
  by_cases hclear : step = .clear
  · rw [hclear] at hstep hsettled ⊢
    rw [show now' = fun _ => none from hstep]
    exact ⟨[], hsettled, Fits.refl⟩
  simp only [if_neg hclear]
  cases step with
  | create e =>
    obtain ⟨hnone, ⟨a, ha⟩, hother⟩ := hstep
    obtain ⟨hfree, hrest⟩ := hsettled
    -- a mark would be that of a deleted entry, which does not come back
    have hunmarked : marks e = none := by
      by_contra hsome
      obtain ⟨mark, hmark⟩ := Option.ne_none_iff_exists'.mp hsome
      refine hfree ((h.deleted hmark).mp ?_)
      rw [h.marked hmark, hnone]
      rfl
    refine ⟨gone, hrest, h.edit ({ · with created := true }) ?_ ?_ hother fun _ _ => Iff.rfl⟩
    · rw [hunmarked, ha, ← h.others hunmarked, hnone]
      rfl
    · simp [ha, hfree]
  | edit e =>
    obtain ⟨hnow, ⟨a, ha⟩, hother⟩ := hstep
    refine ⟨gone, hsettled, h.edit id ?_ ?_ hother fun _ _ => Iff.rfl⟩
    · obtain ⟨b, hb⟩ := hnow
      rw [h.getD ⟨b, hb⟩, ha, hb]
      rfl
    · simp [ha, h.not_gone hnow]
  | delete e =>
    obtain ⟨hnow, hnone, hother⟩ := hstep
    refine ⟨e :: gone, hsettled, h.edit ({ · with deleted := true }) ?_ ?_ hother fun e' he => ?_⟩
    · rw [h.getD hnow, hnone]
      rfl
    · simp [hnone]
    · simp [he]
  | drop e =>
    obtain ⟨hgone, hrest⟩ := hsettled
    obtain ⟨mark, hmark⟩ := h.named hgone
    have hdeleted := (h.deleted hmark).mpr hgone
    have hnone : now e = none := by
      rw [h.marked hmark] at hdeleted
      exact Option.isNone_iff_eq_none.mp hdeleted
    refine ⟨gone, hrest, h.edit ({ · with deleted := true }) ?_ ?_ ?_ fun _ _ => Iff.rfl⟩
    · rw [hstep hnone, hmark, ← h.marked hmark]
      exact Mark.ext rfl hdeleted.symm
    · simp [hstep hnone, hnone, hgone]
    · rw [hstep hnone]
      exact fun _ _ => rfl
  | clear => exact absurd rfl hclear
  | keep =>
    rw [show now' = now from hstep]
    exact ⟨gone, hsettled, h⟩

/-- Each mark says whether its entry was there before and after the steps. Where one
clears the table, before it is empty. -/
theorem marks_fit (h : Fits start now gone marks)
    (hrun : Runs steps now now') (hsettled : Settled gone steps) :
    ∃ gone', Fits (if .clear ∈ steps then fun _ => none else start) now' gone'
      (steps.foldl Marks.note marks) := by
  induction steps generalizing start now gone marks with
  | nil =>
    rw [show now' = now from hrun]
    exact ⟨gone, h⟩
  | cons step steps ih =>
    obtain ⟨mid, hstep, hrest⟩ := hrun
    obtain ⟨gone', hsettled', hfits⟩ := h.note hstep hsettled
    obtain ⟨last, hlast⟩ := ih hfits hrest hsettled'
    refine ⟨last, ?_⟩
    have hstart : (if Effect.clear ∈ steps then fun _ => none
        else if step = .clear then fun _ => none else start) =
        if Effect.clear ∈ step :: steps then fun _ => none else start := by
      by_cases hclear : step = .clear
      · simp [hclear]
      · simp [hclear, Ne.symm hclear]
    rw [← hstart]
    exact hlast

/-- Only a step that removes the entry marks it as deleted. -/
theorem note_deleted {step : Effect ε} {mark : Mark} (h : marks.note step e = some mark)
    (hdeleted : mark.deleted = true) :
    (∃ old, marks e = some old ∧ old.deleted = true) ∨ step.removes? = some e := by
  have hedit : ∀ (e' : ε) (change : Mark → Mark), (∀ m, (change m).deleted = m.deleted) →
      marks.edit e' change e = some mark → ∃ old, marks e = some old ∧ old.deleted = true := by
    intro e' change hsame hmark
    by_cases he : e = e'
    · rw [he, edit_self] at hmark
      rw [← Option.some.inj hmark, hsame] at hdeleted
      rw [he]
      cases hold : marks e' with
      | none =>
        rw [hold] at hdeleted
        cases hdeleted
      | some old =>
        rw [hold] at hdeleted
        exact ⟨old, rfl, hdeleted⟩
    · rw [edit_of_ne he] at hmark
      exact ⟨mark, hmark, hdeleted⟩
  have hremove : ∀ (e' : ε) (change : Mark → Mark), marks.edit e' change e = some mark →
      (∃ old, marks e = some old ∧ old.deleted = true) ∨ some e' = some e := by
    intro e' change hmark
    by_cases he : e = e'
    · exact Or.inr (congrArg some he.symm)
    · rw [edit_of_ne he] at hmark
      exact Or.inl ⟨mark, hmark, hdeleted⟩
  cases step with
  | create e' => exact Or.inl (hedit e' ({ · with created := true }) (fun _ => rfl) h)
  | edit e' => exact Or.inl (hedit e' id (fun _ => rfl) h)
  | delete e' => exact hremove e' ({ · with deleted := true }) h
  | drop e' => exact hremove e' ({ · with deleted := true }) h
  | clear => cases h
  | keep => exact Or.inl ⟨mark, h, hdeleted⟩

theorem removed_of_marks {mark : Mark}
    (h : steps.foldl Marks.note (fun _ => none) e = some mark) (hdeleted : mark.deleted = true) :
    ∃ step ∈ steps, step.removes? = some e := by
  induction steps using reverseRecOn generalizing mark with
  | nil => cases h
  | append_singleton steps step ih =>
    rw [foldl_append, foldl_cons, foldl_nil] at h
    rcases note_deleted h hdeleted with ⟨old, hold, holdDeleted⟩ | hremoves
    · obtain ⟨earlier, hmem, hremoves⟩ := ih hold holdDeleted
      exact ⟨earlier, mem_append_left _ hmem, hremoves⟩
    · exact ⟨step, by simp, hremoves⟩

/-- The entries marked are those named since the table was last cleared. -/
theorem marks_isSome_iff : (∃ mark, steps.foldl Marks.note (fun _ => none) e = some mark) ↔
      ∃ step ∈ sinceClear steps, step.entry? = some e := by
  induction steps using reverseRecOn with
  | nil => simp [sinceClear]
  | append_singleton steps step ih =>
    have hedit : ∀ (marks : Marks ε) (e' : ε) change, (∃ mark, marks.edit e' change e = some mark) ↔
          (∃ mark, marks e = some mark) ∨ e' = e := by
      intro marks e' change
      by_cases he : e = e'
      · simp [he]
      · simp [edit_of_ne he, Ne.symm he]
    have hsince : sinceClear (steps ++ [step]) =
        match step with
        | .clear => []
        | step => sinceClear steps ++ [step] := by
      simp only [sinceClear, foldl_append, foldl_cons, foldl_nil]
    rw [foldl_append, foldl_cons, foldl_nil, hsince]
    cases step with
    | clear => simp [Marks.note]
    | keep => simp [Marks.note, ih, Effect.entry?]
    | create e' => simp [Marks.note, hedit, ih, Effect.entry?, or_and_right, exists_or]
    | edit e' => simp [Marks.note, hedit, ih, Effect.entry?, or_and_right, exists_or]
    | delete e' => simp [Marks.note, hedit, ih, Effect.entry?, or_and_right, exists_or]
    | drop e' => simp [Marks.note, hedit, ih, Effect.entry?, or_and_right, exists_or]

end

end NetEffect
