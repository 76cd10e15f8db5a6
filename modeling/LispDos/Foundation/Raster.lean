import Mathlib.Data.List.Basic
import Mathlib.Data.Nat.Notation
import Mathlib.Logic.Function.Basic
import Mathlib.Tactic.Common
import Mathlib.Tactic.Linarith

/-! # Pictures in linear memory

A picture in rows of `stride` pixels, stored one row after the other, and the picture that a
sequence of stores leaves. -/

namespace LispDos.Foundation

variable {γ : Type*} {px : ℕ → γ} {stores : List (ℕ × γ)} {stride y x y' x' i : ℕ} {c : γ}

/-- The memory after a sequence of stores. -/
def paint (px : ℕ → γ) (stores : List (ℕ × γ)) : ℕ → γ :=
  stores.foldl (fun px s => Function.update px s.1 s.2) px

@[simp] theorem paint_nil (px : ℕ → γ) : paint px [] = px := rfl

theorem paint_append (px : ℕ → γ) (s t : List (ℕ × γ)) : paint px (s ++ t) = paint (paint px s) t :=
  List.foldl_append

/-- A cell that is not stored to keeps its value. -/
theorem paint_of_forall_ne (h : ∀ s ∈ stores, s.1 ≠ i) : paint px stores i = px i := by
  induction stores generalizing px with
  | nil => rfl
  | cons s stores ih =>
      rw [List.forall_mem_cons] at h
      have hrest : paint (Function.update px s.1 s.2) stores i = Function.update px s.1 s.2 i := ih h.2
      rw [Function.update_of_ne h.1.symm] at hrest
      exact hrest

/-- A cell to which all stores bring the same value has it in the end. -/
theorem paint_of_forall_eq (hall : ∀ s ∈ stores, s.1 = i → s.2 = c) (hmem : ∃ s ∈ stores, s.1 = i) :
    paint px stores i = c := by
  induction stores generalizing px with
  | nil =>
      obtain ⟨s, hs, _⟩ := hmem
      cases hs
  | cons s stores ih =>
      rw [List.forall_mem_cons] at hall
      by_cases hlater : ∃ t ∈ stores, t.1 = i
      · have hrest : paint (Function.update px s.1 s.2) stores i = c := ih hall.2 hlater
        exact hrest
      · obtain ⟨t, ht, hti⟩ := hmem
        have hts : t = s := by
          rcases List.mem_cons.mp ht with rfl | ht
          · rfl
          · exact (hlater ⟨t, ht, hti⟩).elim
        subst hts
        have hkeep : paint (Function.update px t.1 t.2) stores i = Function.update px t.1 t.2 i :=
          paint_of_forall_ne fun u hu heq => hlater ⟨u, hu, heq⟩
        calc paint px (t :: stores) i = Function.update px t.1 t.2 i := hkeep
          _ = c := by rw [← hti, Function.update_self, hall.1 hti]

/-! ## Rows -/

/-- A row and a column below the stride are found again from the index. -/
theorem row_major_injective (hx : x < stride) (hx' : x' < stride)
    (h : y * stride + x = y' * stride + x') : y = y' ∧ x = x' := by
  have hy : y = y' := by
    rcases Nat.lt_trichotomy y y' with hlt | heq | hlt
    · have := Nat.mul_le_mul_right stride (Nat.succ_le_of_lt hlt)
      rw [Nat.succ_mul] at this
      omega
    · exact heq
    · have := Nat.mul_le_mul_right stride (Nat.succ_le_of_lt hlt)
      rw [Nat.succ_mul] at this
      omega
  subst hy
  exact ⟨rfl, by omega⟩

/-- The stores paint exactly the pixels of a partial picture. -/
structure Paints (stride : ℕ) (stores : List (ℕ × γ)) (picture : ℕ → ℕ → Option γ) : Prop where
  pixel : ∀ s ∈ stores, ∃ y x, x < stride ∧ s.1 = y * stride + x ∧ picture y x = some s.2
  complete : ∀ y x c, x < stride → picture y x = some c → (y * stride + x, c) ∈ stores

/-- What is on a pixel afterwards: the picture, or what was there before. -/
theorem Paints.paint_eq {picture : ℕ → ℕ → Option γ} (h : Paints stride stores picture)
    (hx : x < stride) :
    paint px stores (y * stride + x) = (picture y x).getD (px (y * stride + x)) := by
  have hat : ∀ s ∈ stores, s.1 = y * stride + x → picture y x = some s.2 := by
    intro s hs heq
    obtain ⟨y', x', hx', hindex, hpicture⟩ := h.pixel s hs
    obtain ⟨rfl, rfl⟩ := row_major_injective hx' hx (hindex.symm.trans heq)
    exact hpicture
  cases hpicture : picture y x with
  | none =>
      refine paint_of_forall_ne ?_
      intro s hs heq
      rw [hat s hs heq] at hpicture
      cases hpicture
  | some c =>
      refine paint_of_forall_eq ?_ ⟨_, h.complete y x c hx hpicture, rfl⟩
      intro s hs heq
      rw [hat s hs heq] at hpicture
      exact Option.some.inj hpicture

theorem Paints.nil (stride : ℕ) : Paints stride ([] : List (ℕ × γ)) fun _ _ => none where
  pixel := by simp
  complete := by simp

end LispDos.Foundation
