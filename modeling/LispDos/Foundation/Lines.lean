import Mathlib.Algebra.BigOperators.Group.List.Basic
import Mathlib.Algebra.GroupWithZero.Nat
import Mathlib.Data.Nat.Init
import Mathlib.Order.Nat
import Mathlib.Tactic.Common

/-! # Places in lines

A list cut at a separator, and its positions as places: a line and a column in it. -/

namespace LispDos.Foundation

variable {α : Type*} {sep : α} {lines : List (List α)} {row : ℕ}

/-! ## Lines of a list -/

/-- Where a line starts in the list: every line before it has a separator after it. -/
def lineStart (lines : List (List α)) (row : ℕ) : ℕ :=
  ((lines.take row).map fun line => line.length + 1).sum

/-- The list up to the start of a line. -/
def linesBefore (sep : α) (lines : List (List α)) (row : ℕ) : List α :=
  (lines.take row).flatMap (· ++ [sep])

/-- The list from the end of a line on. -/
def linesAfter (sep : α) (lines : List (List α)) (row : ℕ) : List α :=
  (lines.drop (row + 1)).flatMap (sep :: ·)

@[simp] theorem linesBefore_zero (sep : α) (lines : List (List α)) :
    linesBefore sep lines 0 = [] := rfl

theorem linesBefore_succ (sep : α) (h : row < lines.length) :
    linesBefore sep lines (row + 1) = linesBefore sep lines row ++ (lines[row] ++ [sep]) := by
  rw [linesBefore, List.take_succ_eq_append_getElem h, List.flatMap_append, List.flatMap_singleton,
    linesBefore]

@[simp] theorem linesBefore_length (sep : α) (lines : List (List α)) (row : ℕ) :
    (linesBefore sep lines row).length = lineStart lines row := by
  simp [linesBefore, lineStart, List.length_flatMap]

theorem lineStart_succ (h : row < lines.length) :
    lineStart lines (row + 1) = lineStart lines row + lines[row].length + 1 := by
  rw [lineStart, List.take_succ_eq_append_getElem h, List.map_append, List.sum_append, lineStart,
    List.map_singleton, List.sum_singleton, Nat.add_assoc]

theorem linesAfter_last (sep : α) (h : lines.length = row + 1) : linesAfter sep lines row = [] := by
  rw [linesAfter, List.drop_eq_nil_of_le (Nat.le_of_eq h), List.flatMap_nil]

theorem linesAfter_succ (sep : α) (h : row + 1 < lines.length) :
    linesAfter sep lines row = sep :: (lines[row + 1] ++ linesAfter sep lines (row + 1)) := by
  rw [linesAfter, List.drop_eq_getElem_cons h, List.flatMap_cons, List.cons_append, linesAfter]

/-- The joined lines around one of them. -/
theorem intercalate_eq_around (sep : α) (h : row < lines.length) :
    [sep].intercalate lines =
      linesBefore sep lines row ++ (lines[row] ++ linesAfter sep lines row) := by
  induction row with
  | zero =>
      obtain ⟨line, rest, rfl⟩ := List.exists_cons_of_length_pos h
      rw [linesBefore_zero, List.nil_append, linesAfter, List.drop_one, List.tail_cons,
        List.getElem_cons_zero]
      clear h
      induction rest generalizing line with
      | nil => simp
      | cons next rest ih => rw [List.intercalate_cons_cons, ih]; simp
  | succ row ih =>
      have hrow : row < lines.length := by omega
      rw [ih hrow, linesBefore_succ sep hrow, linesAfter_succ sep h]
      simp

/-- No line of a list cut at a separator has the separator in it. -/
theorem not_mem_of_mem_splitOn [BEq α] [LawfulBEq α] {xs line : List α}
    (h : line ∈ xs.splitOn sep) : sep ∉ line := by
  induction xs generalizing line with
  | nil =>
      rw [List.splitOn_nil, List.mem_singleton] at h
      rw [h]
      exact List.not_mem_nil
  | cons x xs ih =>
      rw [List.splitOn_cons_eq_if_modifyHead] at h
      by_cases hx : (x == sep) = true
      · rw [if_pos hx] at h
        cases h with
        | head => exact List.not_mem_nil
        | tail _ h => exact ih h
      · obtain ⟨first, rest, hsplit⟩ := List.exists_cons_of_ne_nil (List.splitOn_ne_nil sep xs)
        rw [if_neg hx, hsplit, List.modifyHead_cons] at h
        cases h with
        | head =>
            rw [List.mem_cons, not_or]
            refine ⟨?_, ih (by rw [hsplit]; exact List.mem_cons_self)⟩
            intro heq
            exact hx (beq_iff_eq.mpr heq.symm)
        | tail _ h => exact ih (by rw [hsplit]; exact List.mem_cons_of_mem _ h)

/-! ## Places -/

/-- A line and a column in it; the end of a line is a place too. -/
@[ext] structure Place (lines : List (List α)) where
  row : ℕ
  col : ℕ
  row_lt : row < lines.length
  col_le : col ≤ lines[row].length

namespace Place

/-- The position in the list. -/
def position (p : Place lines) : ℕ := lineStart lines p.row + p.col

/-- The line of a place. -/
def line (p : Place lines) : List α :=
  have := p.row_lt
  lines[p.row]

/-- The joined lines before a place. -/
def before (sep : α) (p : Place lines) : List α :=
  linesBefore sep lines p.row ++ p.line.take p.col

/-- The joined lines from a place on. -/
def after (sep : α) (p : Place lines) : List α :=
  p.line.drop p.col ++ linesAfter sep lines p.row

/-- To the same column of the line above, or to its end. -/
def up : Place lines → Place lines
  | ⟨0, col, hrow, hcol⟩ => ⟨0, col, hrow, hcol⟩
  | ⟨row + 1, col, hrow, _⟩ =>
      have hrow : row < lines.length := Nat.lt_of_succ_lt hrow
      ⟨row, min col lines[row].length, hrow, Nat.min_le_right _ _⟩

/-- To the same column of the line below, or to its end. -/
def down (p : Place lines) : Place lines :=
  if h : p.row + 1 < lines.length then
    ⟨p.row + 1, min p.col lines[p.row + 1].length, h, Nat.min_le_right _ _⟩
  else p

theorem line_mem (p : Place lines) : p.line ∈ lines := List.getElem_mem p.row_lt

theorem col_le_line (p : Place lines) : p.col ≤ p.line.length := p.col_le

theorem before_append_after (sep : α) (p : Place lines) :
    p.before sep ++ p.after sep = [sep].intercalate lines := by
  calc p.before sep ++ p.after sep
      = linesBefore sep lines p.row ++
          ((p.line.take p.col ++ p.line.drop p.col) ++ linesAfter sep lines p.row) := by
        simp only [before, after, List.append_assoc]
    _ = [sep].intercalate lines := by
        rw [List.take_append_drop, intercalate_eq_around sep p.row_lt, line]

@[simp] theorem before_length (sep : α) (p : Place lines) :
    (p.before sep).length = p.position := by
  rw [before, List.length_append, linesBefore_length, List.length_take,
    Nat.min_eq_left p.col_le_line, position]

theorem lineStart_lt (h : row < lines.length) {next : ℕ} (hnext : row < next)
    (hlength : next ≤ lines.length) :
    lineStart lines row + lines[row].length < lineStart lines next := by
  induction next, hnext using Nat.le_induction with
  | base => rw [Nat.succ_eq_add_one, lineStart_succ h]; omega
  | succ next hnext ih =>
      have hlast : next < lines.length := by omega
      have hbefore := ih hlast.le
      rw [lineStart_succ hlast]
      omega

/-- Different places have different positions. -/
theorem position_injective : Function.Injective (position : Place lines → ℕ) := by
  intro p q h
  have hp := p.col_le
  have hq := q.col_le
  unfold position at h
  have hrow : p.row = q.row := by
    apply le_antisymm
    · by_contra hlt
      have := lineStart_lt q.row_lt (not_le.mp hlt) p.row_lt.le
      omega
    · by_contra hlt
      have := lineStart_lt p.row_lt (not_le.mp hlt) q.row_lt.le
      omega
  rw [hrow] at h
  exact Place.ext hrow (by omega)

/-- A place in the lines after the first one. -/
def next (line : List α) (p : Place lines) : Place (line :: lines) :=
  ⟨p.row + 1, p.col, Nat.succ_lt_succ p.row_lt, p.col_le⟩

theorem position_next (line : List α) (p : Place lines) :
    (p.next line).position = line.length + 1 + p.position := by
  simp only [position, next, lineStart, List.take_succ_cons, List.map_cons, List.sum_cons]
  omega

/-- Every position of the joined lines, their end included, is that of a place. -/
theorem exists_position (sep : α) (hlines : lines ≠ []) {n : ℕ}
    (hn : n ≤ ([sep].intercalate lines).length) : ∃ p : Place lines, p.position = n := by
  induction lines generalizing n with
  | nil => exact absurd rfl hlines
  | cons line rest ih =>
      by_cases hline : n ≤ line.length
      · exact ⟨⟨0, n, Nat.succ_pos _, hline⟩, Nat.zero_add n⟩
      · have hrest : rest ≠ [] := by
          intro hnil
          rw [hnil, List.intercalate_singleton] at hn
          exact hline hn
        rw [List.intercalate_cons_of_ne_nil hrest, List.length_append, List.length_append,
          List.length_singleton] at hn
        obtain ⟨p, hp⟩ := ih hrest (n := n - (line.length + 1)) (by omega)
        refine ⟨p.next line, ?_⟩
        rw [position_next, hp]
        omega

/-! ## Up and down -/

theorem down_last (p : Place lines) (h : lines.length = p.row + 1) : p.down = p :=
  dif_neg (by omega)

/-- Up and then down is the same place, if the line above reaches the column. -/
theorem down_up (p : Place lines) (h : row < lines.length) (hrow : p.row = row + 1)
    (hcol : p.col ≤ lines[row].length) : p.up.down = p := by
  obtain ⟨_, col, hlt, hle⟩ := p
  subst hrow
  have hup : (Place.mk (row + 1) col hlt hle).up = ⟨row, col, h, hcol⟩ :=
    Place.ext rfl (Nat.min_eq_left hcol)
  rw [hup]
  unfold down
  rw [dif_pos hlt]
  exact Place.ext rfl (Nat.min_eq_left hle)

/-- Down and then up is the same place, if the line below reaches the column. -/
theorem up_down (p : Place lines) (hrow : p.row + 1 < lines.length)
    (hcol : p.col ≤ lines[p.row + 1].length) : p.down.up = p := by
  have hdown : p.down = ⟨p.row + 1, p.col, hrow, hcol⟩ := by
    unfold down
    rw [dif_pos hrow]
    exact Place.ext rfl (Nat.min_eq_left hcol)
  rw [hdown]
  exact Place.ext rfl (Nat.min_eq_left p.col_le)

end Place

end LispDos.Foundation
