import Mathlib.Data.List.Basic

/-! # Runs of labelled systems

A system goes from state to state, and each step has a label. One system simulates another one
through a relation of their states if it can follow each step. -/

namespace LispDos.Foundation

variable {σ τ ℓ ℓ' : Type*}

/-- The labels of a finite run. -/
inductive Run (step : σ → ℓ → σ → Prop) : σ → List ℓ → σ → Prop where
  | nil (s : σ) : Run step s [] s
  | cons {s s' s'' : σ} {l : ℓ} {ls : List ℓ} (first : step s l s') (rest : Run step s' ls s'') :
      Run step s (l :: ls) s''

namespace Run

variable {step : σ → ℓ → σ → Prop} {step' : τ → ℓ' → τ → Prop} {s s' : σ} {t : τ} {ls : List ℓ}

theorem append {s'' : σ} {ls' : List ℓ} (h : Run step s ls s') (h' : Run step s' ls' s'') :
    Run step s (ls ++ ls') s'' := by
  induction h with
  | nil s => exact h'
  | cons first _ ih => exact .cons first (ih h')

/-- What each step with a good label preserves, a run of them preserves. -/
theorem preserves {P : σ → Prop} {good : ℓ → Prop}
    (hstep : ∀ s l s', P s → step s l s' → good l → P s') (h : Run step s ls s') (hs : P s)
    (hgood : ∀ l ∈ ls, good l) : P s' := by
  induction h with
  | nil s => exact hs
  | cons first _ ih =>
      rw [List.forall_mem_cons] at hgood
      exact ih (hstep _ _ _ hs first hgood.1) hgood.2

/-- A run is followed, as long as its labels are those of steps that can be followed. -/
theorem simulate (rel : σ → τ → Prop) (label : ℓ → ℓ') (good : ℓ → Prop)
    (hstep : ∀ s l s' t, rel s t → step s l s' → good l → ∃ t', step' t (label l) t' ∧ rel s' t')
    (h : Run step s ls s') (hrel : rel s t) (hgood : ∀ l ∈ ls, good l) :
    ∃ t', Run step' t (ls.map label) t' ∧ rel s' t' := by
  induction h generalizing t with
  | nil s => exact ⟨t, .nil t, hrel⟩
  | cons first _ ih =>
      rw [List.forall_mem_cons] at hgood
      obtain ⟨u, hu, hrel'⟩ := hstep _ _ _ _ hrel first hgood.1
      obtain ⟨t', ht', hrel''⟩ := ih hrel' hgood.2
      exact ⟨t', .cons hu ht', hrel''⟩

end Run

end LispDos.Foundation
