import Mathlib

/-!
# Values behind Handles

A program makes values, works on them and clones them; a clone and its original are then
worked on apart. An operation may end its value. Two implementations of the values that agree
operation by operation agree over whole runs.

## Main results

* `run_alike`: related implementations answer every run alike, and end related.
-/

namespace Handles

/-- An operation on the values of a program, `k` numbering the values in the order they came. -/
inductive HandleOp (ι o : Type)
  | make (init : ι)
  | on (k : ℕ) (op : o)
  | clone (k : ℕ)

section Run

variable {σ ι o ρ : Type} (make : ι → Option σ) (step : o → σ → Option (Option σ × ρ))

/-- One operation and its answer. A step gives nothing where the program panics, and no value
where the value ends; nothing happens to a value that has ended. -/
def apply : HandleOp ι o → List (Option σ) → Option (List (Option σ) × Option ρ)
  | .make init, vs => do
    let v ← make init
    some (vs ++ [some v], none)
  | .on k op, vs =>
    match vs[k]?.join with
    | none => some (vs, none)
    | some v => do
      let (v', answer) ← step op v
      some (vs.set k v', some answer)
  | .clone k, vs => some (vs ++ [vs[k]?.join], none)

def run : List (HandleOp ι o) → List (Option σ) → Option (List (Option σ) × List (Option ρ))
  | [], vs => some (vs, [])
  | op :: ops, vs => do
    let (vs, answer) ← apply make step op vs
    let (vs, answers) ← run ops vs
    some (vs, answer :: answers)

end Run

section Refinement

variable {σ τ ι o ρ : Type} {make : ι → Option σ} {make' : ι → Option τ}
  {step : o → σ → Option (Option σ × ρ)} {step' : o → τ → Option (Option τ × ρ)}
  {R : σ → τ → Prop} {vs : List (Option σ)} {ws : List (Option τ)}

/-- What ended on one side ended on the other, and what lives is related. -/
def Alike (R : σ → τ → Prop) : List (Option σ) → List (Option τ) → Prop :=
  List.Forall₂ (Option.Rel R)

theorem Alike.get (h : Alike R vs ws) (k : ℕ) : Option.Rel R vs[k]?.join ws[k]?.join := by
  induction h generalizing k with
  | nil => exact .none
  | cons hv _ ih =>
    cases k with
    | zero => exact hv
    | succ k => exact ih k

theorem Alike.set (h : Alike R vs ws) (k : ℕ) {v : Option σ} {w : Option τ}
    (hvw : Option.Rel R v w) :
    Alike R (vs.set k v) (ws.set k w) := by
  induction h generalizing k with
  | nil => exact .nil
  | cons hv hrest ih =>
    cases k with
    | zero => exact .cons hvw hrest
    | succ k => exact .cons hv (ih k)

theorem Alike.append (h : Alike R vs ws) {v : Option σ} {w : Option τ} (hvw : Option.Rel R v w) :
    Alike R (vs ++ [v]) (ws ++ [w]) :=
  List.rel_append h (.cons hvw .nil)

variable (hmake : ∀ init, ∃ v w, make init = some v ∧ make' init = some w ∧ R v w)
  (hstep : ∀ op v w, R v w → ∃ v' w' answer, step op v = some (v', answer) ∧
    step' op w = some (w', answer) ∧ Option.Rel R v' w')
include hmake hstep

theorem apply_alike (op : HandleOp ι o) (h : Alike R vs ws) :
    ∃ vs' ws' answer, apply make step op vs = some (vs', answer) ∧
      apply make' step' op ws = some (ws', answer) ∧ Alike R vs' ws' := by
  cases op with
  | make init =>
    obtain ⟨v, w, hv, hw, hvw⟩ := hmake init
    exact ⟨_, _, none, by rw [apply, hv]; rfl, by rw [apply, hw]; rfl, h.append (.some hvw)⟩
  | clone k => exact ⟨_, _, none, rfl, rfl, h.append (h.get k)⟩
  | on k op =>
    have hget := h.get k
    rw [apply, apply]
    generalize vs[k]?.join = v at hget
    generalize ws[k]?.join = w at hget
    cases hget with
    | none => exact ⟨_, _, none, rfl, rfl, h⟩
    | some hvw =>
      obtain ⟨v', w', answer, hv, hw, hvw'⟩ := hstep op _ _ hvw
      exact ⟨_, _, some answer, by simp only [hv]; rfl, by simp only [hw]; rfl, h.set k hvw'⟩

/-- Implementations that agree on each operation agree over every run. -/
theorem run_alike (ops : List (HandleOp ι o)) (h : Alike R vs ws) :
    ∃ vs' ws' answers, run make step ops vs = some (vs', answers) ∧
      run make' step' ops ws = some (ws', answers) ∧ Alike R vs' ws' := by
  induction ops generalizing vs ws with
  | nil => exact ⟨vs, ws, [], rfl, rfl, h⟩
  | cons op ops ih =>
    obtain ⟨vs₁, ws₁, answer, hv, hw, h₁⟩ := apply_alike hmake hstep op h
    obtain ⟨vs₂, ws₂, answers, hv', hw', h₂⟩ := ih h₁
    refine ⟨vs₂, ws₂, answer :: answers, ?_, ?_, h₂⟩
    · simp only [run, hv, hv', Option.bind_eq_bind, Option.bind_some]
    · simp only [run, hw, hw', Option.bind_eq_bind, Option.bind_some]

end Refinement

end Handles
