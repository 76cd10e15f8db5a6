import LispDos.Verification.Console.Legible
import LispDos.Verification.Editor.Refinement

/-! # What the editor shows

After every key the screen shows the text with the cursor in inverse colours, and below it the
mode and the last key. -/

namespace LispDos.Edit

open Foundation Console

/-! ## The drawing -/

/-- A character that a text of the editor may have. -/
def Plain (c : UInt8) : Prop := Printable c ∨ c = newline

def black : UInt32 := 0x000000

def green : UInt32 := 0x00AA00

/-- The cells of a text, with the ends of its lines. -/
def glyphs (fg bg : UInt32) (cs : List UInt8) : List (Option Cell) :=
  cs.map fun c => if c = newline then none else some (.glyph c fg bg)

/-- The cursor on the text behind it; at the end of a line it is a space. -/
def cursorCells : List UInt8 → List (Option Cell)
  | [] => [some (.glyph 0x20 black green)]
  | c :: _ =>
      if c = newline then [some (.glyph 0x20 black green), none] else [some (.glyph c black green)]

/-- The text with its cursor, when it is drawn in the given colours. -/
def drawing (fg bg : UInt32) (t : Text) : List (Option Cell) :=
  glyphs fg bg t.before ++ (cursorCells t.after ++ glyphs green black t.after.tail)

def statusLine (e : Editor) : List UInt8 :=
  if e.insertMode then ascii "-- INSERT -- [ESC: Normal, Setas: Navegar]"
  else ascii "-- NORMAL -- [i: Insert, w: Salvar, q: Sair, Setas: Navegar]"

def keyLine (e : Editor) : List UInt8 :=
  if !e.insertMode && e.lastCmdKey != 0 then
    ascii "Tecla Pressionada: " ++
      if 32 ≤ e.lastCmdKey ∧ e.lastCmdKey ≤ 126 then [e.lastCmdKey] else []
  else []

/-- A cell of a row that shows a line of text. -/
def rowCell (fg bg : UInt32) (cs : List UInt8) (k : ℕ) : Cell :=
  cs[k]?.elim (.blank bg) fun c => .glyph c fg bg

/-- What the editor is to show in a cell. -/
def editorCell (rows cols : ℕ) (fg bg : UInt32) (e : Editor) (t : Text) (r k : ℕ) : Cell :=
  if r + 2 < rows then (typed cols (0, 0) (drawing fg bg t) r k).getD (.blank bg)
  else if r + 2 = rows then rowCell fg bg (statusLine e) k
  else rowCell fg bg (keyLine e) k

/-! ## Lines on the screen -/

variable {rows cols : ℕ} {s : Screen rows cols} {e : Editor} {t : Text} {slack : List UInt8}
  {cs : List UInt8} {c : UInt8} {fg bg : UInt32}

theorem Plain.ne (h : Plain c) : c ≠ 0 ∧ c ≠ 0x08 := by
  rcases h with h | rfl
  · exact ⟨h.ne.1, h.ne.2.1⟩
  · decide

/-- Characters printed one by one are typed on the screen. -/
theorem run_putchars (s : Screen rows cols) (h : ∀ c ∈ cs, Plain c) :
    s.run (cs.map .putchar) =
      { s with grid := s.grid.type (glyphs s.fgColor s.bgColor cs) } := by
  induction cs generalizing s with
  | nil => rfl
  | cons c cs ih =>
      rw [List.forall_mem_cons] at h
      have hback := h.1.ne.2
      show (s.putchar c).run (cs.map .putchar) = _
      rw [ih _ h.2]
      unfold Screen.putchar glyphs
      by_cases hline : c = newline
      · have hline' : c = 0x0A := hline
        simp only [if_neg hback, if_pos hline', List.map_cons, if_pos hline, TextGrid.type]
      · have hline' : ¬ c = 0x0A := hline
        simp only [if_neg hback, if_neg hline', List.map_cons, if_neg hline, TextGrid.type]

theorem print_eq (s : Screen rows cols) (h : ∀ c ∈ cs, c ≠ 0) :
    s.print cs = s.run (cs.map .putchar) := by
  induction cs generalizing s with
  | nil => rfl
  | cons c cs ih =>
      rw [List.forall_mem_cons] at h
      rw [Screen.print, if_neg h.1]
      exact ih _ h.2

theorem glyphs_of_printable (h : ∀ c ∈ cs, Printable c) :
    glyphs fg bg cs = cs.map fun c => some (.glyph c fg bg) := by
  refine List.map_congr_left ?_
  intro c hc
  exact if_neg (h c hc).ne.2.2

/-- A text that fits its row stays in it. -/
theorem placeAfter_row {γ : Type} (xs : List γ) {r k : ℕ} (h : k + xs.length < cols) :
    placeAfter cols (r, k) (xs.map some) = (r, k + xs.length) := by
  induction xs generalizing k with
  | nil => rfl
  | cons x xs ih =>
      rw [List.length_cons] at h ⊢
      have hnext : nextPlace cols (r, k) (some x) = (r, k + 1) := by
        rw [nextPlace, if_pos (by simp only; omega)]
      rw [List.map_cons, placeAfter, List.foldl_cons, hnext]
      refine (ih (k := k + 1) (by omega)).trans ?_
      rw [Nat.add_assoc, Nat.add_comm 1]

theorem typed_row {γ : Type} (xs : List γ) {r k j : ℕ} (h : k + xs.length < cols) :
    typed cols (r, k) (xs.map some) r (k + j) = xs[j]? := by
  induction xs generalizing k j with
  | nil => rfl
  | cons x xs ih =>
      rw [List.length_cons] at h
      have hnext : nextPlace cols (r, k) (some x) = (r, k + 1) := by
        rw [nextPlace, if_pos (by simp only; omega)]
      rw [List.map_cons, typed, hnext]
      cases j with
      | zero => rw [if_pos ⟨rfl, rfl⟩, List.getElem?_cons_zero]
      | succ j =>
          have hne : ¬ ((r, k + (j + 1)) = (r, k)) := by
            intro heq
            have := (Prod.mk.inj heq).2
            omega
          rw [if_neg fun hx => hne hx.2, List.getElem?_cons_succ]
          have hrest := ih (k := k + 1) (j := j) (by omega)
          rwa [show k + (j + 1) = k + 1 + j by omega]

/-- A line printed at the start of a row. -/
theorem type_line (g : TextGrid Cell rows cols) {row : ℕ} (hrow : row < rows)
    (hcs : ∀ c ∈ cs, Printable c) (hlen : cs.length < cols) (r k : ℕ) :
    ((g.moveTo row 0).type (glyphs fg bg cs)).cell r k =
      if r = row then (cs[k]?.map fun c => .glyph c fg bg).getD (g.cell r k) else g.cell r k := by
  have hmove : g.moveTo row 0 = ⟨g.cell, row, 0, hrow, g.cols_pos⟩ := by
    rw [TextGrid.moveTo, dif_pos ⟨hrow, g.cols_pos⟩]
  have hglyphs : glyphs fg bg cs = (cs.map fun c => Cell.glyph c fg bg).map some := by
    rw [glyphs_of_printable hcs, List.map_map]
    rfl
  have hlen' : 0 + (cs.map fun c => Cell.glyph c fg bg).length < cols := by
    rw [List.length_map]
    omega
  rw [hglyphs, hmove]
  have hplace := placeAfter_row (r := row) _ hlen'
  obtain ⟨-, hcells⟩ := TextGrid.type_spec ⟨g.cell, row, 0, hrow, g.cols_pos⟩
    ((cs.map fun c => Cell.glyph c fg bg).map some) (by rw [hplace]; exact hrow)
  rw [hcells]
  by_cases hr : r = row
  · subst hr
    have htyped := typed_row (r := r) (j := k) _ hlen'
    rw [Nat.zero_add] at htyped
    rw [if_pos rfl, htyped, List.getElem?_map]
  · rw [if_neg hr]
    rcases Nat.lt_or_gt_of_ne hr with hlt | hgt
    · rw [typed_of_lt (.inl hlt)]
      rfl
    · cases htyped : typed cols (row, 0) ((cs.map fun c => Cell.glyph c fg bg).map some) r k with
      | none => rfl
      | some x =>
          obtain ⟨i, -, hi⟩ := exists_of_typed htyped
          have hle : 0 + ((cs.map fun c => Cell.glyph c fg bg).take i).length < cols := by
            rw [List.length_take]
            omega
          rw [← List.map_take, placeAfter_row _ hle] at hi
          exact absurd (Prod.mk.inj hi).1.symm hr

/-! ## Drawing the text -/

theorem drawText_step {n i : ℕ} (hi : i ≠ e.cursor) (hlen : i < e.len) (hload : load e.buffer i = some c) :
    drawText e (n + 1) i = (drawText e n (i + 1)).map ([.putchar c] ++ ·) := by
  rw [drawText, if_neg hi, if_pos hlen, hload]
  cases drawText e n (i + 1) <;> rfl

/-- The part of the text that the cursor is not in. -/
theorem drawText_part (xs : List UInt8) {n i : ℕ}
    (hload : ∀ j c, xs[j]? = some c → load e.buffer (i + j) = some c) (hlen : i + xs.length ≤ e.len)
    (hcursor : i + xs.length ≤ e.cursor ∨ e.cursor < i) :
    drawText e (xs.length + n) i =
      (drawText e n (i + xs.length)).map (xs.map .putchar ++ ·) := by
  induction xs generalizing i with
  | nil =>
      rw [List.length_nil, Nat.zero_add, Nat.add_zero]
      cases drawText e n i <;> rfl
  | cons x xs ih =>
      rw [List.length_cons] at hlen hcursor ⊢
      have hrest := ih (i := i + 1) (fun j c hj => by
        have := hload (j + 1) c (by rwa [List.getElem?_cons_succ])
        rwa [show i + 1 + j = i + (j + 1) by omega]) (by omega) (by omega)
      have hx : load e.buffer i = some x := hload 0 x rfl
      rw [show xs.length + 1 + n = xs.length + n + 1 by omega,
        drawText_step (by omega) (by omega) hx, hrest,
        show i + 1 + xs.length = i + (xs.length + 1) by omega]
      cases drawText e n (i + (xs.length + 1)) <;> rfl

/-- The operations that draw the cursor. -/
def cursorOps : List UInt8 → List Op
  | [] => [.setColor 0 2, .putchar 0x20, .setColor 2 0]
  | c :: _ =>
      if c = newline then [.setColor 0 2, .putchar 0x20, .setColor 2 0, .putchar newline]
      else [.setColor 0 2, .putchar c, .setColor 2 0]

theorem Shows.drawText (h : Shows e t slack) :
    drawText e (e.len + 1) 0 =
      some (t.before.map .putchar ++ (cursorOps t.after ++ t.after.tail.map .putchar)) := by
  have hlen := h.len
  have hcursor := h.cursor
  have hload : ∀ j c, (t.before ++ t.after)[j]? = some c → load e.buffer j = some c := by
    intro j c hj
    have hlt := (List.getElem?_eq_some_iff.mp hj).1
    rw [load, h.buffer, ← List.append_assoc, List.getElem?_append_left hlt, hj]
  have hbefore := drawText_part (e := e) t.before (n := t.after.length + 1) (i := 0)
    (fun j c hj => by
      rw [Nat.zero_add]
      refine hload j c ?_
      rw [List.getElem?_append_left (List.getElem?_eq_some_iff.mp hj).1, hj])
    (by omega) (by omega)
  rw [show e.len + 1 = t.before.length + (t.after.length + 1) by omega, hbefore, Nat.zero_add]
  cases hafter : t.after with
  | nil =>
      rw [hafter, List.length_nil] at hlen
      rw [List.length_nil, Nat.zero_add, Edit.drawText, if_pos hcursor.symm, if_pos (by omega)]
      rfl
  | cons x xs =>
      rw [hafter, List.length_cons] at hlen
      have hx : load e.buffer t.before.length = some x := by
        refine hload _ _ ?_
        rw [hafter, List.getElem?_append_right le_rfl, Nat.sub_self, List.getElem?_cons_zero]
      have hrest := drawText_part (e := e) xs (n := 1) (i := t.before.length + 1)
        (fun j c hj => by
          refine hload _ _ ?_
          rw [hafter, List.getElem?_append_right (by omega),
            show t.before.length + 1 + j - t.before.length = j + 1 by omega, List.getElem?_cons_succ, hj])
        (by omega) (by omega)
      -- the last round is behind the text, and the cursor is not there
      have hend : Edit.drawText e 1 (t.before.length + 1 + xs.length) = some [] := by
        rw [Edit.drawText, if_neg (by omega), if_neg (by omega)]
        rfl
      rw [List.length_cons, Edit.drawText, if_pos hcursor.symm, if_neg (by omega), hx, hrest, hend]
      by_cases hline : x = newline
      · simp [cursorOps, hline]
      · simp [cursorOps, hline]

/-- A text with its cursor is typed on the screen. -/
theorem run_drawText (s : Screen rows cols) (hplain : ∀ c ∈ t.all, Plain c) :
    s.run (t.before.map .putchar ++ (cursorOps t.after ++ t.after.tail.map .putchar)) =
      { s with
        grid := s.grid.type (drawing s.fgColor s.bgColor t)
        fgColor := green
        bgColor := black } := by
  have hbefore : ∀ c ∈ t.before, Plain c := fun c hc => hplain c (List.mem_append_left _ hc)
  have htail : ∀ c ∈ t.after.tail, Plain c := fun c hc =>
    hplain c (List.mem_append_right _ (List.mem_of_mem_tail hc))
  have hcursor : ∀ s : Screen rows cols, s.run (cursorOps t.after) =
      { s with grid := s.grid.type (cursorCells t.after), fgColor := green, bgColor := black } := by
    intro s
    cases hafter : t.after with
    | nil => rfl
    | cons c cs =>
        by_cases hline : c = newline
        · subst hline
          rfl
        · have hback : c ≠ 0x08 := (hplain c (by
            rw [Text.all, hafter]
            exact List.mem_append_right _ List.mem_cons_self)).ne.2
          have hline' : ¬ c = 0x0A := hline
          rw [cursorOps, cursorCells, if_neg hline, if_neg hline]
          simp only [Screen.run, List.foldl_cons, List.foldl_nil, Screen.exec, Screen.putchar,
            if_neg hback, if_neg hline']
          rfl
  unfold Screen.run at hcursor ⊢
  rw [List.foldl_append, List.foldl_append]
  have hfirst := run_putchars s hbefore
  unfold Screen.run at hfirst
  rw [hfirst, hcursor]
  have hlast := run_putchars (⟨(s.grid.type (glyphs s.fgColor s.bgColor t.before)).type (cursorCells t.after),
    green, black, s.margin⟩ : Screen rows cols) htail
  unfold Screen.run at hlast
  rw [hlast, drawing, TextGrid.type_append, TextGrid.type_append]

/-! ## The whole screen -/

theorem statusLine_fits (e : Editor) :
    (∀ c ∈ statusLine e, Printable c) ∧ (statusLine e).length < 64 := by
  unfold statusLine Printable
  split <;> decide +kernel

theorem keyLine_fits (e : Editor) : (∀ c ∈ keyLine e, Printable c) ∧ (keyLine e).length < 64 := by
  have htext : (∀ c ∈ ascii "Tecla Pressionada: ", Printable c) ∧
      (ascii "Tecla Pressionada: ").length = 19 := by
    unfold Printable
    decide +kernel
  unfold keyLine
  split_ifs with hshown hkey
  · refine ⟨?_, by rw [List.length_append, htext.2, List.length_singleton]; decide⟩
    intro c hc
    rcases List.mem_append.mp hc with hc | hc
    · exact htext.1 c hc
    · rw [List.mem_singleton] at hc
      rw [hc]
      exact hkey
  · refine ⟨?_, by rw [List.append_nil, htext.2]; decide⟩
    rw [List.append_nil]
    exact htext.1
  · exact ⟨by simp, by decide⟩

/-- The operations that show the last key. -/
def keyOps (e : Editor) : List Op :=
  if !e.insertMode && e.lastCmdKey != 0 then
    .print (ascii "Tecla Pressionada: ") ::
      if 32 ≤ e.lastCmdKey ∧ e.lastCmdKey ≤ 126 then [.putchar e.lastCmdKey] else []
  else []

/-- The operations of `draw_editor_ui`. -/
def screenOps (maxRows : Size) (e : Editor) (t : Text) : List Op :=
  [.clear, .setCursor (maxRows - 2) 0] ++ ([.print (statusLine e), .setCursor (maxRows - 1) 0] ++
    (keyOps e ++ ([.setCursor 0 0] ++
      (t.before.map .putchar ++ (cursorOps t.after ++ t.after.tail.map .putchar)))))

theorem Shows.drawEditorUi (h : Shows e t slack) (maxRows : Size) :
    drawEditorUi maxRows e = some (screenOps maxRows e t) := by
  have happend : screenOps maxRows e t =
      [.clear, .setCursor (maxRows - 2) 0, .print (statusLine e), .setCursor (maxRows - 1) 0] ++
        keyOps e ++ [.setCursor 0 0] ++
        (t.before.map .putchar ++ (cursorOps t.after ++ t.after.tail.map .putchar)) := by
    simp [screenOps]
  rw [Edit.drawEditorUi, h.drawText, happend]
  rfl

theorem plain_of_printable (h : ∀ c ∈ cs, Printable c) : ∀ c ∈ cs, Plain c := fun c hc => .inl (h c hc)

theorem print_printable (s : Screen rows cols) (h : ∀ c ∈ cs, Printable c) :
    s.print cs = { s with grid := s.grid.type (glyphs s.fgColor s.bgColor cs) } := by
  rw [print_eq s fun c hc => (h c hc).ne.1, run_putchars s (plain_of_printable h)]

/-- The line of the last key is printed like a text. -/
theorem run_keyOps (s : Screen rows cols) (e : Editor) :
    s.run (keyOps e) =
      { s with grid := s.grid.type (glyphs s.fgColor s.bgColor (keyLine e)) } := by
  have hline := (keyLine_fits e).1
  unfold keyLine at hline ⊢
  unfold keyOps
  split_ifs with hshown hkey
  · rw [if_pos hshown, if_pos hkey, List.forall_mem_append] at hline
    have hfirst := print_printable s hline.1
    have hsecond := run_putchars
      (⟨s.grid.type (glyphs s.fgColor s.bgColor (ascii "Tecla Pressionada: ")), s.fgColor, s.bgColor,
        s.margin⟩ : Screen rows cols) (plain_of_printable hline.2)
    show (s.print (ascii "Tecla Pressionada: ")).run ([e.lastCmdKey].map .putchar) = _
    rw [hfirst, hsecond, glyphs, glyphs, glyphs, List.map_append, TextGrid.type_append]
  · rw [if_pos hshown, if_neg hkey, List.append_nil] at hline
    rw [List.append_nil]
    exact print_printable s hline
  · rfl

/-- The two lines at the bottom. -/
def headerGrid (g : TextGrid Cell rows cols) (fg bg : UInt32) (e : Editor) : TextGrid Cell rows cols :=
  let g := ((g.fill (.blank bg)).moveTo (rows - 2) 0).type (glyphs fg bg (statusLine e))
  (g.moveTo (rows - 1) 0).type (glyphs fg bg (keyLine e))

theorem toNat_lastRows {maxRows : Size} (hrows : 2 ≤ rows) (hmax : maxRows.toNat = rows) :
    (maxRows - 2).toNat = rows - 2 ∧ (maxRows - 1).toNat = rows - 1 := by
  have htwo : (2 : Size).toNat = 2 := rfl
  have hone : (1 : Size).toNat = 1 := rfl
  constructor
  · rw [BitVec.toNat_sub_of_le (by rw [BitVec.le_def, htwo]; omega), htwo, hmax]
  · rw [BitVec.toNat_sub_of_le (by rw [BitVec.le_def, hone]; omega), hone, hmax]

/-- The screen after `draw_editor_ui`. -/
theorem run_screenOps {maxRows : Size} (hrows : 3 ≤ rows) (hmax : maxRows.toNat = rows)
    (hplain : ∀ c ∈ t.all, Plain c) (s : Screen rows cols) (e : Editor) :
    s.run (screenOps maxRows e t) =
      { grid := ((headerGrid s.grid s.fgColor s.bgColor e).moveTo 0 0).type
          (drawing s.fgColor s.bgColor t)
        fgColor := green
        bgColor := black
        margin := s.bgColor } := by
  have hzero : (0 : Size).toNat = 0 := rfl
  obtain ⟨hrow₂, hrow₁⟩ := toNat_lastRows (by omega) hmax
  let g₀ := (s.grid.fill (.blank s.bgColor)).moveTo (rows - 2) 0
  let g₁ := (g₀.type (glyphs s.fgColor s.bgColor (statusLine e))).moveTo (rows - 1) 0
  have hclear : s.run [.clear, .setCursor (maxRows - 2) 0] =
      ⟨g₀, s.fgColor, s.bgColor, s.bgColor⟩ := by
    simp only [Screen.run, List.foldl_cons, List.foldl_nil, Screen.exec, hrow₂, hzero]
    rfl
  have hline : (⟨g₀, s.fgColor, s.bgColor, s.bgColor⟩ : Screen rows cols).run
      [.print (statusLine e), .setCursor (maxRows - 1) 0] =
        ⟨g₁, s.fgColor, s.bgColor, s.bgColor⟩ := by
    have hprinted := print_printable
      (⟨g₀, s.fgColor, s.bgColor, s.bgColor⟩ : Screen rows cols) (statusLine_fits e).1
    simp only [Screen.run, List.foldl_cons, List.foldl_nil, Screen.exec, hrow₁, hzero, hprinted]
    rfl
  have hkeys := run_keyOps (⟨g₁, s.fgColor, s.bgColor, s.bgColor⟩ : Screen rows cols) e
  have htext := run_drawText (⟨(headerGrid s.grid s.fgColor s.bgColor e).moveTo 0 0, s.fgColor,
    s.bgColor, s.bgColor⟩ : Screen rows cols) hplain
  rw [screenOps, Screen.run_append, hclear, Screen.run_append, hline, Screen.run_append, hkeys,
    Screen.run_append]
  exact htext

/-- The cells, if the text leaves the last two rows free. -/
theorem screenOps_cell {g : TextGrid Cell rows cols} (hrows : 3 ≤ rows) (hcols : 64 ≤ cols)
    (hfits : (placeAfter cols (0, 0) (drawing fg bg t)).1 + 2 < rows) {r k : ℕ} (hr : r < rows) :
    (((headerGrid g fg bg e).moveTo 0 0).type (drawing fg bg t)).cell r k =
      editorCell rows cols fg bg e t r k := by
  obtain ⟨hstatus, hstatusLen⟩ := statusLine_fits e
  obtain ⟨hkey, hkeyLen⟩ := keyLine_fits e
  have hmove : (headerGrid g fg bg e).moveTo 0 0 =
      ⟨(headerGrid g fg bg e).cell, 0, 0, by omega, by omega⟩ := by
    rw [TextGrid.moveTo, dif_pos ⟨by omega, by omega⟩]
  obtain ⟨-, hcells⟩ := TextGrid.type_spec ((headerGrid g fg bg e).moveTo 0 0) (drawing fg bg t)
    (by rw [hmove]; simp only; omega)
  rw [hcells, TextGrid.moveTo_cell, hmove]
  have hheader : (headerGrid g fg bg e).cell r k =
      if r = rows - 1 then rowCell fg bg (keyLine e) k
      else if r = rows - 2 then rowCell fg bg (statusLine e) k
      else .blank bg := by
    have hcell : ∀ cs : List UInt8, (cs[k]?.map fun c => Cell.glyph c fg bg).getD (.blank bg) =
        rowCell fg bg cs k := by
      intro cs
      unfold rowCell
      cases cs[k]? <;> rfl
    unfold headerGrid
    rw [type_line _ (by omega) hkey (by omega), type_line _ (by omega) hstatus (by omega)]
    by_cases hlast : r = rows - 1
    · rw [if_pos hlast, if_pos hlast, if_neg (by omega)]
      exact hcell _
    · rw [if_neg hlast, if_neg hlast]
      by_cases hstatusRow : r = rows - 2
      · rw [if_pos hstatusRow, if_pos hstatusRow]
        exact hcell _
      · rw [if_neg hstatusRow, if_neg hstatusRow]
        rfl
  unfold editorCell
  by_cases htext : r + 2 < rows
  · rw [if_pos htext, hheader, if_neg (by omega), if_neg (by omega)]
  · -- below the text nothing has been typed
    have hbelow : typed cols (0, 0) (drawing fg bg t) r k = none := typed_below (by omega)
    rw [if_neg htext, hbelow, Option.getD_none, hheader]
    by_cases hlast : r = rows - 1
    · rw [if_pos hlast, if_neg (by omega)]
    · rw [if_neg hlast, if_pos (by omega), if_pos (by omega)]

/-! ## Sessions -/

/-- The editor after some keys, and all that it has drawn for them, as long as it goes on. -/
def Editor.draws (maxRows : Size) : Editor → List UInt8 → Option (Editor × List Op)
  | e, [] => some (e, [])
  | e, c :: cs => do
      match ← e.key maxRows c with
      | .draws e screen =>
          let (e, rest) ← e.draws maxRows cs
          some (e, screen ++ rest)
      | _ => none

/-- What is drawn after a key is the editor that the key leads to. -/
theorem key_draws {maxRows : Size} {e' : Editor} {screen : List Op}
    (h : e.key maxRows c = some (.draws e' screen)) : drawEditorUi maxRows e' = some screen := by
  have hgo : ∀ {e₁ : Editor}, (Edit.drawEditorUi maxRows e₁).map (Next.draws e₁) =
      some (.draws e' screen) → drawEditorUi maxRows e' = some screen := by
    intro e₁ hmap
    obtain ⟨ops, hops, heq⟩ := Option.map_eq_some_iff.mp hmap
    injection heq with he hscreen
    rw [← he, ← hscreen, hops]
  have hbind : ∀ {o : Option Editor},
      (o.bind fun e₁ => (Edit.drawEditorUi maxRows e₁).map (Next.draws e₁)) =
        some (.draws e' screen) → drawEditorUi maxRows e' = some screen := by
    intro o ho
    obtain ⟨e₁, -, hmap⟩ := Option.bind_eq_some_iff.mp ho
    exact hgo hmap
  unfold Editor.key at h
  dsimp only at h
  split_ifs at h with hesc harrow hinsert hi hw hq
  · exact hgo h
  · exact hbind h
  · exact hbind h
  · exact hgo h
  · obtain ⟨buffer, -, heq⟩ := Option.bind_eq_some_iff.mp h
    cases heq
  · cases h
  · exact hgo h

/-- Typing keeps the text plain. -/
theorem Text.key_plain {t' : Text} {room : ℕ} (hplain : ∀ c ∈ t.all, Plain c)
    (h : t.key room c = .editing t') : ∀ x ∈ t'.all, Plain x := by
  have hmove : ∀ p, ∀ x ∈ (t.moveTo p).all, Plain x := by
    intro p x hx
    rw [Text.moveTo, Text.all, List.take_append_drop] at hx
    exact hplain x hx
  unfold Text.key at h
  split_ifs at h with h₁ h₂ h₃ h₄ h₅ h₆ h₇ h₈ h₉
  · cases h
    exact hplain
  · cases h
    unfold Text.up
    split
    · exact hmove _
    · exact hplain
  · cases h
    unfold Text.down
    split
    · exact hmove _
    · exact hplain
  · cases h
    unfold Text.left
    split
    · exact hplain
    · exact hmove _
  · cases h
    unfold Text.right
    split
    · exact hplain
    · exact hmove _
  · cases h
    unfold Text.type
    split_ifs with hback htype
    · intro x hx
      rcases List.mem_append.mp hx with hx | hx
      · exact hplain x (List.mem_append_left _ (List.mem_of_mem_dropLast hx))
      · exact hplain x (List.mem_append_right _ hx)
    · intro x hx
      rcases List.mem_append.mp hx with hx | hx
      · rcases List.mem_append.mp hx with hx | hx
        · exact hplain x (List.mem_append_left _ hx)
        · rw [List.mem_singleton.mp hx]
          exact htype.2
      · exact hplain x (List.mem_append_right _ hx)
    · exact hplain
  · cases h
    exact hplain
  · cases h
    exact hplain

variable {fb : Framebuffer} {t' : Text} {maxRows : Size} {keys : List UInt8}

theorem toNat_vgaGetMaxRows (fb : Framebuffer) : (vgaGetMaxRows fb).toNat = fb.rows :=
  toNat_cells fb.height

theorem Plain.tidy (h : Plain c) : c < 0x80 := by
  rcases h with h | rfl
  · exact UInt8.lt_of_le_of_lt h.2 (by decide)
  · decide

theorem tidy_print (h : ∀ c ∈ cs, Printable c) : (Op.print cs).Tidy fb := fun c hc =>
  Plain.tidy (.inl (h c ((List.takeWhile_prefix _).subset hc)))

theorem tidy_putchars (h : ∀ c ∈ cs, Plain c) : ∀ op ∈ cs.map Op.putchar, op.Tidy fb := by
  rw [List.forall_mem_map]
  exact fun c hc => (h c hc).tidy

theorem tidy_keyOps (e : Editor) : ∀ op ∈ keyOps e, op.Tidy fb := by
  have hline := (keyLine_fits e).1
  unfold keyLine at hline
  unfold keyOps
  split_ifs with hshown hkey
  · rw [if_pos hshown, if_pos hkey, List.forall_mem_append] at hline
    rw [List.forall_mem_cons, List.forall_mem_singleton]
    exact ⟨tidy_print hline.1, Plain.tidy (.inl hkey)⟩
  · rw [if_pos hshown, if_neg hkey, List.append_nil] at hline
    rw [List.forall_mem_singleton]
    exact tidy_print hline
  · simp

theorem tidy_cursorOps (h : ∀ c ∈ cs, Plain c) : ∀ op ∈ cursorOps cs, op.Tidy fb := by
  cases cs with
  | nil =>
      simp only [cursorOps, List.forall_mem_cons, Op.Tidy, List.not_mem_nil, false_imp_iff,
        implies_true, and_true, true_and]
      decide
  | cons c cs =>
      have hc := (List.forall_mem_cons.mp h).1.tidy
      by_cases hline : c = newline
      · simp only [cursorOps, if_pos hline, List.forall_mem_cons, Op.Tidy, List.not_mem_nil,
          false_imp_iff, implies_true, and_true, true_and]
        decide
      · simp only [cursorOps, if_neg hline, List.forall_mem_cons, Op.Tidy, List.not_mem_nil,
          false_imp_iff, implies_true, and_true, true_and]
        exact hc

/-- Drawing a plain text keeps the cursor on the screen. -/
theorem tidy_screenOps (hrows : 3 ≤ fb.rows) (hcols : 0 < fb.cols) (hplain : ∀ c ∈ t.all, Plain c)
    (e : Editor) : ∀ op ∈ screenOps (vgaGetMaxRows fb) e t, op.Tidy fb := by
  obtain ⟨hrow₂, hrow₁⟩ := toNat_lastRows (show 2 ≤ fb.rows by omega) (toNat_vgaGetMaxRows fb)
  have hrow : ∀ row : Size, row.toNat < fb.rows → OnScreen fb row 0 := fun row hrow => ⟨hrow, hcols⟩
  unfold screenOps
  simp only [List.forall_mem_append, List.forall_mem_cons, List.not_mem_nil, false_imp_iff,
    implies_true, and_true]
  refine ⟨⟨trivial, hrow _ ?_⟩, ⟨tidy_print (statusLine_fits e).1, hrow _ ?_⟩, tidy_keyOps e,
    hrow _ (by rw [show (0 : Size).toNat = 0 from rfl]; omega), tidy_putchars fun c hc => ?_,
    tidy_cursorOps fun c hc => ?_, tidy_putchars fun c hc => ?_⟩
  · exact hrow₂.trans_lt (by omega)
  · exact hrow₁.trans_lt (by omega)
  · exact hplain c (List.mem_append_left _ hc)
  · exact hplain c (List.mem_append_right _ hc)
  · exact hplain c (List.mem_append_right _ (List.mem_of_mem_tail hc))

/-- The colours that the text is drawn in: the editor leaves its own behind. -/
def textColors (s : Screen rows cols) (keys : List UInt8) : UInt32 × UInt32 :=
  if keys = [] then (s.fgColor, s.bgColor) else (green, black)

/-- After any keys the last thing drawn is the ideal text. -/
theorem Shows.draws_run (hrows : 3 ≤ fb.rows) (hcols : 0 < fb.cols) (h : Shows e t slack)
    (hplain : ∀ c ∈ t.all, Plain c) (hrun : t.run (e.bufferMax - 1) keys = .editing t')
    (s : Screen fb.rows fb.cols) :
    ∃ (e' : Editor) (ops : List Op) (slack' : List UInt8) (s' : Screen fb.rows fb.cols),
      e.draws (vgaGetMaxRows fb) keys = some (e', ops) ∧ Shows e' t' slack' ∧
      (∀ c ∈ t'.all, Plain c) ∧ (∀ op ∈ ops, op.Tidy fb) ∧
      s.run (screenOps (vgaGetMaxRows fb) e t ++ ops) = s'.run (screenOps (vgaGetMaxRows fb) e' t') ∧
      (s'.fgColor, s'.bgColor) = textColors s keys := by
  induction keys generalizing e t slack s with
  | nil =>
      cases hrun
      exact ⟨e, [], slack, s, rfl, h, hplain, by simp, by rw [List.append_nil], rfl⟩
  | cons c cs ih =>
      obtain ⟨next, hnext, hleads⟩ := h.key (vgaGetMaxRows fb) c
      unfold Text.run at hrun
      cases hkey : t.key (e.bufferMax - 1) c with
      | saved text => rw [hkey] at hrun; cases hrun
      | closed => rw [hkey] at hrun; cases hrun
      | editing t₁ =>
          rw [hkey] at hrun hleads
          cases next with
          | saves data => exact hleads.elim
          | quits => exact hleads.elim
          | draws e₁ screen =>
              obtain ⟨hroom, slack₁, hshows⟩ := hleads
              have hplain₁ := Text.key_plain hplain hkey
              have hscreen : screen = screenOps (vgaGetMaxRows fb) e₁ t₁ :=
                Option.some.inj ((key_draws hnext).symm.trans (hshows.drawEditorUi _))
              obtain ⟨e', ops, slack', s', hdraws, hshows', hplain', htidy, hlast, hcolors⟩ :=
                ih hshows hplain₁ (by rw [hroom]; exact hrun)
                  (s.run (screenOps (vgaGetMaxRows fb) e t))
              refine ⟨e', screenOps (vgaGetMaxRows fb) e₁ t₁ ++ ops, slack', s', ?_, hshows', hplain',
                List.forall_mem_append.mpr ⟨tidy_screenOps hrows hcols hplain₁ e₁, htidy⟩, ?_, ?_⟩
              · rw [Editor.draws, hnext, ← hscreen]
                simp [hdraws]
              · rw [Screen.run_append, hlast]
              · -- the colours of the text before are those of the editor
                rw [hcolors, run_screenOps hrows (toNat_vgaGetMaxRows fb) hplain, textColors, textColors,
                  if_neg (List.cons_ne_nil c cs)]
                exact ite_self _

variable {b : Bpb} {d : Disk} {filename : List UInt8} {result : ℤ} {stores : List Store}

/-- From a plain file that fits the pool, after any keys, and whatever was on the screen before,
the pixels of every cell are those of the ideal text with its cursor, and of the two lines below,
as long as the text leaves these lines free. -/
theorem editor_displays_text (hfits : Fits fb) (hpacked : fb.stride = fb.width.toNat)
    (hrows : 3 ≤ fb.rows) (hcols : 64 ≤ fb.cols)
    (hread : fat16ReadFile b d filename = some (result, stores))
    (hpool : (fat16GetFileSize b d filename : ℤ) + 8192 ≤ poolSize)
    (hplain : ∀ c ∈ fileText (fat16GetFileSize b d filename) stores, Plain c)
    (hrun : Text.run (fat16GetFileSize b d filename + 8191)
      ⟨[], fileText (fat16GetFileSize b d filename) stores, false⟩ keys = .editing t)
    {ops : List Op} (hops : ∀ op ∈ ops, op.Tidy fb) (font : ℕ → ℕ → UInt8) (px : ℕ → UInt32) :
    ∃ e screen e' drawn, editorStart b d filename = some e ∧
      drawEditorUi (vgaGetMaxRows fb) e = some screen ∧
      e.draws (vgaGetMaxRows fb) keys = some (e', drawn) ∧ e'.insertMode = t.insertMode ∧
      ∀ fg bg, (fg, bg) = textColors ((Screen.start hfits).run ops) keys →
        (placeAfter fb.cols (0, 0) (drawing fg bg t)).1 + 2 < fb.rows →
        ∀ r < fb.rows, ∀ k < fb.cols, ∀ y < 16, ∀ x < 16,
          paint px (Console.stores (consoleRun fb font (ops ++ (screen ++ drawn))))
              ((r * 16 + y) * fb.stride + (k * 16 + x)) =
            (editorCell fb.rows fb.cols fg bg e' t r k).color font y x := by
  obtain ⟨e, slack, hstart, hmax, hshows⟩ := editorStart_shows hread hpool
  obtain ⟨e', drawn, slack', s', hdraws, hshows', hplain', htidy, hlast, hcolors⟩ :=
    hshows.draws_run hrows (by omega) hplain (by rw [hmax]; exact hrun) ((Screen.start hfits).run ops)
  refine ⟨e, _, e', drawn, hstart, hshows.drawEditorUi _, hdraws, hshows'.mode, ?_⟩
  intro fg bg hfgbg hplace r hr k hk y hy x hx
  have htidyStart := tidy_screenOps hrows (by omega)
    (t := ⟨[], fileText (fat16GetFileSize b d filename) stores, false⟩) hplain e
  have htidyAll := List.forall_mem_append.mpr ⟨hops, List.forall_mem_append.mpr ⟨htidyStart, htidy⟩⟩
  have hdims : r * 16 + y < fb.height.toNat ∧ k * 16 + x < fb.width.toNat := by
    unfold Framebuffer.rows at hr
    unfold Framebuffer.cols at hk
    omega
  obtain ⟨hfg, hbg⟩ := Prod.mk.inj (hfgbg.trans hcolors.symm)
  rw [displays_run hfits hpacked font px htidyAll _ hdims.1 _ hdims.2, Screen.run_append, hlast,
    run_screenOps hrows (toNat_vgaGetMaxRows fb) hplain', ← hfg,
    ← hbg, Screen.pixel, show (r * 16 + y) / 16 = r by omega, show (k * 16 + x) / 16 = k by omega,
    show (r * 16 + y) % 16 = y by omega, show (k * 16 + x) % 16 = x by omega, if_pos ⟨hr, hk⟩]
  exact congrArg (fun cell => cell.color font y x) (screenOps_cell hrows hcols hplace hr)

/-- A screen of 48 rows of 64 cells. -/
def wideMode : Framebuffer := ⟨1024, 768, 4096⟩

/-- In a new file the letter `A` is typed on an empty screen. -/
theorem editor_displays_text_letter :
    ∃ e screen e' drawn, editorStart (Fat16.smallBpb 6) Fat16.blankDisk [0x41] = some e ∧
      drawEditorUi (vgaGetMaxRows wideMode) e = some screen ∧
      e.draws (vgaGetMaxRows wideMode) [0x69, 0x41] = some (e', drawn) ∧
      ∀ y < 16, ∀ x < 16,
        paint (fun _ => 0) (Console.stores (consoleRun wideMode fontRow ([] ++ (screen ++ drawn))))
            ((0 * 16 + y) * wideMode.stride + (0 * 16 + x)) =
          (Cell.glyph 0x41 green black).color fontRow y x := by
  have hfits : Fits wideMode := ⟨⟨by decide, by decide, by decide⟩, by decide⟩
  obtain ⟨hread, hsize⟩ : fat16ReadFile (Fat16.smallBpb 6) Fat16.blankDisk [0x41] = some (0, []) ∧
      fat16GetFileSize (Fat16.smallBpb 6) Fat16.blankDisk [0x41] = 0 := by
    decide +kernel
  have hrun : Text.run (fat16GetFileSize (Fat16.smallBpb 6) Fat16.blankDisk [0x41] + 8191)
      ⟨[], fileText (fat16GetFileSize (Fat16.smallBpb 6) Fat16.blankDisk [0x41]) [], false⟩
      [0x69, 0x41] = .editing ⟨[0x41], [], true⟩ := by rw [hsize]; rfl
  obtain ⟨e, screen, e', drawn, hstart, hscreen, hdraws, -, hpixels⟩ :=
    editor_displays_text hfits (by decide) (by decide) (by decide) hread (by rw [hsize]; decide)
      (by rw [hsize]; simp [fileText]) hrun
      (show ∀ op ∈ [], Op.Tidy wideMode op by simp) fontRow (fun _ => 0)
  refine ⟨e, screen, e', drawn, hstart, hscreen, hdraws, ?_⟩
  exact hpixels green black rfl (by decide) 0 (by decide) 0 (by decide)

end LispDos.Edit
