import Mathlib.Data.Finset.Basic
import Mathlib.Data.Finset.Disjoint
import Mathlib.Data.List.Pairwise

/-! # Ownership of disjoint blocks

A resource is handed out in blocks. Elements are given back one at a time, by whoever
holds them, and leave every block they are in. -/

namespace LispDos.Foundation

variable {α : Type*} {blocks : List (Finset α)} {x y : α}

/-- The element is in one of the blocks. -/
def Owned (blocks : List (Finset α)) (y : α) : Prop := ∃ block ∈ blocks, y ∈ block

@[simp] theorem not_owned_nil : ¬ Owned [] y := by
  simp [Owned]

@[simp] theorem owned_cons {block : Finset α} :
    Owned (block :: blocks) y ↔ y ∈ block ∨ Owned blocks y := by
  simp [Owned]

/-- A block of elements that nobody owns is apart from all others. -/
theorem pairwise_disjoint_cons {block : Finset α} (h : blocks.Pairwise Disjoint)
    (hfree : ∀ z ∈ block, ¬ Owned blocks z) : (block :: blocks).Pairwise Disjoint := by
  refine List.pairwise_cons.mpr ⟨?_, h⟩
  intro other hmem
  apply Finset.disjoint_left.mpr
  intro z hz hz'
  exact hfree z hz ⟨other, hmem, hz'⟩

section Release

variable [DecidableEq α]

/-- The blocks after `x` is given back. -/
def release (x : α) (blocks : List (Finset α)) : List (Finset α) :=
  blocks.map fun block => block.erase x

@[simp] theorem owned_release : Owned (release x blocks) y ↔ y ≠ x ∧ Owned blocks y := by
  simp only [Owned, release, List.mem_map]
  constructor
  · rintro ⟨_, ⟨block, hmem, rfl⟩, hy⟩
    obtain ⟨hne, hy⟩ := Finset.mem_erase.mp hy
    exact ⟨hne, block, hmem, hy⟩
  · rintro ⟨hne, block, hmem, hy⟩
    exact ⟨_, ⟨block, hmem, rfl⟩, Finset.mem_erase.mpr ⟨hne, hy⟩⟩

theorem pairwise_disjoint_release (x : α) (h : blocks.Pairwise Disjoint) :
    (release x blocks).Pairwise Disjoint := by
  apply List.Pairwise.map _ _ h
  intro a b hab
  exact hab.mono (Finset.erase_subset x a) (Finset.erase_subset x b)

end Release

end LispDos.Foundation
