import Mathlib.Data.List.Basic
import Mathlib.Data.Nat.Notation
import Mathlib.Tactic.Common

/-! # Text screens

A grid of cells with a cursor that goes on to the next row at the end of a row, and back to the
top after the last one; and where a text typed on it comes to stand. -/

namespace LispDos.Foundation

variable {γ : Type*} {rows cols : ℕ}

/-- The cells by row and column, and a cursor on the screen. -/
structure TextGrid (γ : Type*) (rows cols : ℕ) where
  cell : ℕ → ℕ → γ
  row : ℕ
  col : ℕ
  row_lt : row < rows
  col_lt : col < cols

namespace TextGrid

variable (g : TextGrid γ rows cols)

theorem rows_pos (g : TextGrid γ rows cols) : 0 < rows := Nat.zero_lt_of_lt g.row_lt

theorem cols_pos (g : TextGrid γ rows cols) : 0 < cols := Nat.zero_lt_of_lt g.col_lt

/-! ## Operations -/

/-- A cell is stored at the cursor. -/
def store (c : γ) : TextGrid γ rows cols :=
  { g with cell := fun r k => if r = g.row ∧ k = g.col then c else g.cell r k }

/-- To the start of the next row, or of the first one. -/
def newline : TextGrid γ rows cols :=
  if h : g.row + 1 < rows then ⟨g.cell, g.row + 1, 0, h, g.cols_pos⟩
  else ⟨g.cell, 0, 0, g.rows_pos, g.cols_pos⟩

/-- One cell on. -/
def advance : TextGrid γ rows cols :=
  if h : g.col + 1 < cols then { g with col := g.col + 1, col_lt := h } else g.newline

/-- One cell back, over the start of a row. -/
def back : TextGrid γ rows cols :=
  if 0 < g.col then { g with col := g.col - 1, col_lt := Nat.lt_of_le_of_lt (Nat.sub_le _ _) g.col_lt }
  else if 0 < g.row then
    { g with
      row := g.row - 1
      col := cols - 1
      row_lt := Nat.lt_of_le_of_lt (Nat.sub_le _ _) g.row_lt
      col_lt := Nat.sub_lt g.cols_pos Nat.one_pos }
  else g

def put (c : γ) : TextGrid γ rows cols := (g.store c).advance

def erase (c : γ) : TextGrid γ rows cols := g.back.store c

/-- The cursor at a cell of the screen. -/
def moveTo (r k : ℕ) : TextGrid γ rows cols :=
  if h : r < rows ∧ k < cols then ⟨g.cell, r, k, h.1, h.2⟩ else g

/-- All cells the same, and the cursor at the top. -/
def fill (c : γ) : TextGrid γ rows cols := ⟨fun _ _ => c, 0, 0, g.rows_pos, g.cols_pos⟩

@[simp] theorem store_row (c : γ) : (g.store c).row = g.row := rfl

@[simp] theorem store_col (c : γ) : (g.store c).col = g.col := rfl

theorem store_cell (c : γ) (r k : ℕ) :
    (g.store c).cell r k = if r = g.row ∧ k = g.col then c else g.cell r k := rfl

@[simp] theorem newline_cell : g.newline.cell = g.cell := by
  unfold newline
  split <;> rfl

@[simp] theorem advance_cell : g.advance.cell = g.cell := by
  unfold advance
  split
  · rfl
  · exact g.newline_cell

@[simp] theorem back_cell : g.back.cell = g.cell := by
  unfold back
  split
  · rfl
  · split <;> rfl

@[simp] theorem moveTo_cell (r k : ℕ) : (g.moveTo r k).cell = g.cell := by
  unfold moveTo
  split <;> rfl

/-! ## Typing a text -/

/-- A cell, or nothing for the end of a line. -/
def type : TextGrid γ rows cols → List (Option γ) → TextGrid γ rows cols
  | g, [] => g
  | g, none :: xs => g.newline.type xs
  | g, some c :: xs => (g.put c).type xs

theorem type_append (xs ys : List (Option γ)) : g.type (xs ++ ys) = (g.type xs).type ys := by
  induction xs generalizing g with
  | nil => rfl
  | cons x xs ih =>
      cases x with
      | none => exact ih g.newline
      | some c => exact ih (g.put c)

end TextGrid

/-! ## Places -/

/-- The place behind a cell or the end of a line, on a screen without a last row. -/
def nextPlace (cols : ℕ) (p : ℕ × ℕ) : Option γ → ℕ × ℕ
  | none => (p.1 + 1, 0)
  | some _ => if p.2 + 1 < cols then (p.1, p.2 + 1) else (p.1 + 1, 0)

/-- The place behind a text. -/
def placeAfter (cols : ℕ) (p : ℕ × ℕ) (xs : List (Option γ)) : ℕ × ℕ := xs.foldl (nextPlace cols) p

/-- What a text puts on the screen, from a place on. -/
def typed (cols : ℕ) : ℕ × ℕ → List (Option γ) → ℕ → ℕ → Option γ
  | _, [], _, _ => none
  | p, x :: xs, r, k => if x.isSome ∧ (r, k) = p then x else typed cols (nextPlace cols p x) xs r k

/-- The first place comes before the second. -/
def PlaceLt (p q : ℕ × ℕ) : Prop := p.1 < q.1 ∨ p.1 = q.1 ∧ p.2 < q.2

variable {p q : ℕ × ℕ} {x : Option γ} {xs : List (Option γ)} {c : γ} {r k i : ℕ}

theorem placeLt_next (cols : ℕ) (p : ℕ × ℕ) (x : Option γ) : PlaceLt p (nextPlace cols p x) := by
  cases x with
  | none => exact .inl (Nat.lt_succ_self _)
  | some c =>
      simp only [nextPlace]
      split
      · exact .inr ⟨rfl, Nat.lt_succ_self _⟩
      · exact .inl (Nat.lt_succ_self _)

theorem PlaceLt.trans {a : ℕ × ℕ} (h : PlaceLt p q) (h' : PlaceLt q a) : PlaceLt p a := by
  unfold PlaceLt at *
  omega

theorem PlaceLt.ne (h : PlaceLt p q) : p ≠ q := by
  rintro rfl
  unfold PlaceLt at h
  omega

/-- A text puts nothing before the place where it starts. -/
theorem typed_of_lt (h : PlaceLt (r, k) p) : typed cols p xs r k = none := by
  induction xs generalizing p with
  | nil => rfl
  | cons x xs ih =>
      rw [typed, if_neg fun hx => h.ne hx.2]
      exact ih (h.trans (placeLt_next cols p x))

theorem fst_le_placeAfter (cols : ℕ) (p : ℕ × ℕ) (xs : List (Option γ)) :
    p.1 ≤ (placeAfter cols p xs).1 := by
  induction xs generalizing p with
  | nil => exact Nat.le_refl _
  | cons x xs ih =>
      have hnext : p.1 ≤ (nextPlace cols p x).1 := by
        rcases placeLt_next cols p x with h | h
        · exact Nat.le_of_lt h
        · exact Nat.le_of_eq h.1
      exact Nat.le_trans hnext (ih _)

/-- Everything that a text puts on the screen is an entry at its place. -/
theorem exists_of_typed (h : typed cols p xs r k = some c) :
    ∃ i, xs[i]? = some (some c) ∧ placeAfter cols p (xs.take i) = (r, k) := by
  induction xs generalizing p with
  | nil => cases h
  | cons x xs ih =>
      rw [typed] at h
      split at h
      · rename_i hx
        exact ⟨0, by rw [List.getElem?_cons_zero, h], hx.2.symm⟩
      · obtain ⟨i, hi, hplace⟩ := ih h
        exact ⟨i + 1, by rwa [List.getElem?_cons_succ], by rwa [List.take_succ_cons]⟩

/-- A text puts nothing below the row where it ends. -/
theorem typed_below (h : (placeAfter cols p xs).1 < r) : typed cols p xs r k = none := by
  cases htyped : typed cols p xs r k with
  | none => rfl
  | some c =>
      obtain ⟨i, -, hi⟩ := exists_of_typed htyped
      have hmono := fst_le_placeAfter cols (placeAfter cols p (xs.take i)) (xs.drop i)
      rw [placeAfter, placeAfter, ← List.foldl_append, List.take_append_drop, ← placeAfter,
        ← placeAfter, hi] at hmono
      omega

namespace TextGrid

variable {g : TextGrid γ rows cols}

theorem put_place (h : (nextPlace cols (g.row, g.col) (some c)).1 < rows) :
    ((g.put c).row, (g.put c).col) = nextPlace cols (g.row, g.col) (some c) := by
  unfold put advance
  by_cases hcol : g.col + 1 < cols
  · rw [dif_pos (by exact hcol), nextPlace, if_pos hcol]
    rfl
  · rw [nextPlace, if_neg hcol] at h
    rw [dif_neg (by exact hcol), nextPlace, if_neg hcol, newline, dif_pos (by exact h)]
    rfl

theorem newline_place (h : g.row + 1 < rows) :
    (g.newline.row, g.newline.col) = (g.row + 1, 0) := by
  simp only [newline, dif_pos h]

/-- A text that ends on the screen stands at its places, and nothing else has changed. -/
theorem type_spec (g : TextGrid γ rows cols) (xs : List (Option γ))
    (h : (placeAfter cols (g.row, g.col) xs).1 < rows) :
    ((g.type xs).row, (g.type xs).col) = placeAfter cols (g.row, g.col) xs ∧
      ∀ r k, (g.type xs).cell r k = (typed cols (g.row, g.col) xs r k).getD (g.cell r k) := by
  induction xs generalizing g with
  | nil => exact ⟨rfl, fun _ _ => rfl⟩
  | cons x xs ih =>
      have hnext : (nextPlace cols (g.row, g.col) x).1 < rows :=
        Nat.lt_of_le_of_lt (fst_le_placeAfter cols _ xs) h
      cases x with
      | none =>
          have hplace := newline_place (g := g) hnext
          have hrest : (placeAfter cols (g.newline.row, g.newline.col) xs).1 < rows := by
            rw [hplace]
            exact h
          obtain ⟨hcursor, hcells⟩ := ih _ hrest
          rw [hplace] at hcursor hcells
          refine ⟨hcursor, fun r k => ?_⟩
          rw [type, hcells, newline_cell, typed, if_neg (by simp)]
          rfl
      | some c =>
          have hplace := put_place (g := g) (c := c) hnext
          have hrest : (placeAfter cols ((g.put c).row, (g.put c).col) xs).1 < rows := by
            rw [hplace]
            exact h
          obtain ⟨hcursor, hcells⟩ := ih _ hrest
          rw [hplace] at hcursor hcells
          refine ⟨hcursor, fun r k => ?_⟩
          rw [type, hcells, typed, put, advance_cell, store_cell]
          by_cases hat : (r, k) = (g.row, g.col)
          · have hlt : PlaceLt (r, k) (nextPlace cols (g.row, g.col) (some c)) := by
              rw [hat]
              exact placeLt_next cols _ _
            obtain ⟨rfl, rfl⟩ := Prod.mk.inj hat
            rw [typed_of_lt hlt, if_pos ⟨rfl, rfl⟩, if_pos ⟨rfl, rfl⟩]
            rfl
          · have hcursor : ¬ (r = g.row ∧ k = g.col) := fun hx => hat (by rw [hx.1, hx.2])
            rw [if_neg hcursor, if_neg fun hx => hat hx.2]

end TextGrid

end LispDos.Foundation
