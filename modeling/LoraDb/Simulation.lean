import Mathlib.Data.List.Basic

/-!
# Runs and Simulations

A machine takes a step for every argument and returns a result with each. A map from its
states to those of another machine is a simulation when steps commute with it and return
alike, from every state that meets an invariant the steps keep. Runs then commute with the
map too, and the machine may replace the other.

## Main results

* `runSteps_invariant`: what every step keeps, a run keeps.
* `Simulates.run`: a simulation of steps is one of runs.
* `runSteps_congr`: machines that step alike run alike.
-/

variable {σ τ α ρ : Type}

/-- Run `step` on every argument in order, collecting what each step returns. -/
def runSteps (step : σ → α → σ × ρ) : σ → List α → σ × List ρ
  | s, [] => (s, [])
  | s, a :: as =>
    let (s, r) := step s a
    let (s, rs) := runSteps step s as
    (s, r :: rs)

variable {step : σ → α → σ × ρ} {step' : τ → α → τ × ρ} {abs : σ → τ} {inv : σ → Prop}

@[simp] theorem runSteps_nil (s : σ) : runSteps step s [] = (s, []) := rfl

theorem runSteps_cons (s : σ) (a : α) (as : List α) : runSteps step s (a :: as) =
      ((runSteps step (step s a).1 as).1, (step s a).2 :: (runSteps step (step s a).1 as).2) :=
  rfl

theorem runSteps_append (s : σ) (as bs : List α) : runSteps step s (as ++ bs) =
      ((runSteps step (runSteps step s as).1 bs).1,
        (runSteps step s as).2 ++ (runSteps step (runSteps step s as).1 bs).2) := by
  induction as generalizing s with
  | nil => rfl
  | cons a as ih => simp only [List.cons_append, runSteps_cons, ih]

/-- What every step on an argument of the run keeps, the run keeps. -/
theorem runSteps_invariant {as : List α} (hstep : ∀ s a, a ∈ as → inv s → inv (step s a).1)
    {s : σ} (hs : inv s) : inv (runSteps step s as).1 := by
  induction as generalizing s with
  | nil => exact hs
  | cons a as ih =>
    rw [runSteps_cons]
    have hrest : ∀ s b, b ∈ as → inv s → inv (step s b).1 := by
      intro s b hb
      exact hstep s b (List.mem_cons_of_mem _ hb)
    exact ih hrest (hstep s a List.mem_cons_self hs)

/-- Steps commute with `abs` and return alike, under an invariant they keep. -/
structure Simulates (step : σ → α → σ × ρ) (step' : τ → α → τ × ρ) (abs : σ → τ)
    (inv : σ → Prop) : Prop where
  state : ∀ s a, inv s → abs (step s a).1 = (step' (abs s) a).1
  result : ∀ s a, inv s → (step s a).2 = (step' (abs s) a).2
  keeps : ∀ s a, inv s → inv (step s a).1

/-- A simulation of steps is one of runs. -/
theorem Simulates.run (h : Simulates step step' abs inv) {s : σ} (hs : inv s) (as : List α) :
    abs (runSteps step s as).1 = (runSteps step' (abs s) as).1 ∧
      (runSteps step s as).2 = (runSteps step' (abs s) as).2 ∧ inv (runSteps step s as).1 := by
  induction as generalizing s with
  | nil => exact ⟨rfl, rfl, hs⟩
  | cons a as ih =>
    obtain ⟨hstate, hresults, hinv⟩ := ih (h.keeps s a hs)
    rw [h.state s a hs] at hstate hresults
    simp only [runSteps_cons]
    exact ⟨hstate, by rw [hresults, h.result s a hs], hinv⟩

/-- Machines that step alike under an invariant run alike. -/
theorem runSteps_congr {other : σ → α → σ × ρ} (h : ∀ s a, inv s → step s a = other s a)
    (hkeeps : ∀ s a, inv s → inv (step s a).1) {s : σ} (hs : inv s) (as : List α) :
    runSteps step s as = runSteps other s as := by
  induction as generalizing s with
  | nil => rfl
  | cons a as ih =>
    rw [runSteps_cons, runSteps_cons, ih (hkeeps s a hs), h s a hs]

/-! ### Steps that may go several ways -/

section Relations

variable {ι : Type} {move : σ → ι → σ → Prop} {move' : τ → ι → τ → Prop} {s s' s'' : σ}

/-- Steps in order, with what each of them shows. -/
inductive Moves (move : σ → ι → σ → Prop) : σ → List ι → σ → Prop where
  | refl (s : σ) : Moves move s [] s
  | head {s s' s'' : σ} {i : ι} {is : List ι} (first : move s i s') (rest : Moves move s' is s'') :
      Moves move s (i :: is) s''

/-- When every step can be followed, so can every run. -/
theorem Moves.simulates {rel : σ → τ → Prop}
    (hstep : ∀ s i s' t, move s i s' → rel s t → ∃ t', move' t i t' ∧ rel s' t') {is : List ι}
    (h : Moves move s is s') {t : τ} (hrel : rel s t) :
    ∃ t', Moves move' t is t' ∧ rel s' t' := by
  induction h generalizing t with
  | refl s => exact ⟨t, .refl t, hrel⟩
  | head first _ ih =>
    obtain ⟨t', hfirst, hrel⟩ := hstep _ _ _ _ first hrel
    obtain ⟨t'', hrest, hrel⟩ := ih hrel
    exact ⟨t'', .head hfirst hrest, hrel⟩

end Relations
