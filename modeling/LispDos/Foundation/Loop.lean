import Mathlib.Logic.Basic
import Mathlib.Data.Nat.Notation
import Mathlib.Tactic.TypeStar

/-! # Loops

The body of a loop takes a state to the state of the next round, or leaves the loop with a
result. A loop returns if finitely many rounds lead to a result. -/

namespace LispDos.Foundation

/-- One round of a loop. -/
inductive LoopStep (σ ρ : Type*) where
  | leave (r : ρ)
  | next (s : σ)

/-- The loop that starts in a state returns a result. -/
inductive LoopReturns {σ ρ : Type*} (body : σ → LoopStep σ ρ) : σ → ρ → Prop where
  | leave {s r} : body s = .leave r → LoopReturns body s r
  | next {s t r} : body s = .next t → LoopReturns body t r → LoopReturns body s r

variable {σ ρ : Type*} {body : σ → LoopStep σ ρ} {s : σ} {r r' : ρ}

namespace LoopReturns

theorem unique (h : LoopReturns body s r) (h' : LoopReturns body s r') : r = r' := by
  induction h with
  | leave hs =>
      cases h' with
      | leave hs' =>
          rw [hs] at hs'
          exact LoopStep.leave.inj hs'
      | next hs' =>
          rw [hs] at hs'
          cases hs'
  | next hs _ ih =>
      cases h' with
      | leave hs' =>
          rw [hs] at hs'
          cases hs'
      | next hs' ht =>
          rw [hs] at hs'
          obtain rfl := LoopStep.next.inj hs'
          exact ih ht

/-- A loop that returns has no infinite run. -/
theorem no_infinite_run (h : LoopReturns body s r) (run : ℕ → σ) (hstart : run 0 = s)
    (hrun : ∀ i, body (run i) = .next (run (i + 1))) : False := by
  induction h generalizing run with
  | leave hs =>
      have hzero := hrun 0
      rw [hstart, hs] at hzero
      cases hzero
  | next hs _ ih =>
      have hzero := hrun 0
      rw [hstart, hs] at hzero
      have htail : ∀ i, body (run (i + 1)) = .next (run (i + 1 + 1)) := fun i => hrun (i + 1)
      exact ih (fun i => run (i + 1)) (LoopStep.next.inj hzero).symm htail

/-- A property of the state that every round keeps holds when the loop is left. -/
theorem of_invariant (h : LoopReturns body s r) (inv : σ → Prop) (post : ρ → Prop) (hs : inv s)
    (hnext : ∀ s t, inv s → body s = .next t → inv t)
    (hleave : ∀ s r, inv s → body s = .leave r → post r) : post r := by
  induction h with
  | leave hbody => exact hleave _ _ hs hbody
  | next hbody _ ih => exact ih (hnext _ _ hs hbody)

end LoopReturns

/-- A loop returns if every round that goes on decreases a measure. -/
theorem exists_loopReturns (measure : σ → ℕ)
    (hdecr : ∀ s t, body s = .next t → measure t < measure s) (s : σ) :
    ∃ r, LoopReturns body s r := by
  induction hm : measure s using Nat.strongRecOn generalizing s with
  | _ m ih =>
      cases hs : body s with
      | leave r => exact ⟨r, .leave hs⟩
      | next t =>
          obtain ⟨r, hr⟩ := ih (measure t) (by rw [← hm]; exact hdecr s t hs) t rfl
          exact ⟨r, .next hs hr⟩

end LispDos.Foundation
