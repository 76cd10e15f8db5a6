import Mathlib.Data.List.Pairwise
import Mathlib.Data.Set.BooleanAlgebra
import Mathlib.Data.Set.Disjoint
import Mathlib.Order.CompletePartialOrder

/-! # Blocks from a reserve

Cells are handed out in blocks. A block is cut from a reserve of spare cells, or placed on cells
that nobody has had so far, from which the reserve can be renewed too. -/

namespace LispDos.Foundation

/-- The blocks handed out, the last one first, and the cells in reserve. -/
structure Reserve (α : Type*) where
  blocks : List (Set α)
  spare : Set α
  disjoint : blocks.Pairwise Disjoint
  apart : ∀ block ∈ blocks, Disjoint block spare

namespace Reserve

variable {α : Type*} {block rest fresh : Set α}

/-- Nothing has been handed out, and nothing is in reserve. -/
def empty : Reserve α := ⟨[], ∅, .nil, nofun⟩

/-- A block is cut from the reserve, which keeps some of what is left. -/
def cut (r : Reserve α) (hblock : block ⊆ r.spare) (hrest : rest ⊆ r.spare)
    (hdisjoint : Disjoint block rest) : Reserve α where
  blocks := block :: r.blocks
  spare := rest
  disjoint := List.pairwise_cons.mpr
    ⟨fun other hmem => ((r.apart other hmem).mono_right hblock).symm, r.disjoint⟩
  apart := by
    intro other hmem
    rcases List.mem_cons.mp hmem with rfl | hmem
    · exact hdisjoint
    · exact (r.apart other hmem).mono_right hrest

/-- A block of cells that are neither handed out nor in reserve. -/
def place (r : Reserve α) (hblocks : ∀ other ∈ r.blocks, Disjoint block other)
    (hspare : Disjoint block r.spare) : Reserve α where
  blocks := block :: r.blocks
  spare := r.spare
  disjoint := List.pairwise_cons.mpr ⟨hblocks, r.disjoint⟩
  apart := by
    intro other hmem
    rcases List.mem_cons.mp hmem with rfl | hmem
    · exact hspare
    · exact r.apart other hmem

/-- The reserve is given up for cells that are not handed out. -/
def renew (r : Reserve α) (hfresh : ∀ block ∈ r.blocks, Disjoint block fresh) : Reserve α where
  blocks := r.blocks
  spare := fresh
  disjoint := r.disjoint
  apart := hfresh

end Reserve

end LispDos.Foundation
