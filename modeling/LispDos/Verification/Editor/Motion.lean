import LispDos.Foundation.Lines
import LispDos.Verification.Editor.Loops

/-! # The cursor between the lines

The text is cut into lines at its newlines and the cursor is a place in these. The arrows up and
down take it to the place above and below. -/

namespace LispDos.Edit

open Foundation

variable {e : Editor} {lines : List (List UInt8)} {row : ℕ}

/-! ## The scans between lines -/

theorem lastLine_linesBefore (lines : List (List UInt8)) (row : ℕ) :
    lastLine (linesBefore newline lines row) = [] := by
  cases row with
  | zero => rfl
  | succ row =>
      by_cases h : row < lines.length
      · rw [linesBefore_succ newline h, ← List.append_assoc, lastLine_concat_newline rfl]
      · rw [linesBefore, List.take_of_length_le (by omega)]
        induction lines using List.reverseRecOn with
        | nil => rfl
        | append_singleton lines line ih =>
            rw [List.flatMap_append, List.flatMap_singleton, ← List.append_assoc,
              lastLine_concat_newline rfl]

theorem lastLine_append {xs ys : List UInt8} (hxs : lastLine xs = []) (hys : newline ∉ ys) :
    lastLine (xs ++ ys) = ys := by
  induction ys using List.reverseRecOn with
  | nil => rw [List.append_nil, hxs]
  | append_singleton ys y ih =>
      rw [List.mem_append, List.mem_singleton, not_or] at hys
      rw [← List.append_assoc, lastLine_concat_of_ne (Ne.symm hys.2), ih hys.1]

theorem firstLine_linesAfter (lines : List (List UInt8)) (row : ℕ) :
    firstLine (linesAfter newline lines row) = [] := by
  unfold linesAfter
  cases lines.drop (row + 1) with
  | nil => rfl
  | cons line rest => exact firstLine_cons_newline rfl _

theorem firstLine_append_nil {xs ys : List UInt8} (hxs : newline ∉ xs) (hys : firstLine ys = []) :
    firstLine (xs ++ ys) = xs := by
  induction xs with
  | nil => exact hys
  | cons x xs ih =>
      rw [List.mem_cons, not_or] at hxs
      rw [List.cons_append, firstLine_cons_of_ne (Ne.symm hxs.1), ih hxs.2]

/-- The scan back finds the column and the start of the line. -/
theorem scanBack_place (hlines : ∀ line ∈ lines, newline ∉ line) (p : Place lines)
    (slack : List UInt8) :
    scanBack ([newline].intercalate lines ++ slack) p.position =
      some (p.col, lineStart lines p.row) := by
  have hmem : newline ∉ p.line.take p.col :=
    fun h => hlines p.line p.line_mem (List.mem_of_mem_take h)
  have hlast : lastLine (p.before newline) = p.line.take p.col :=
    lastLine_append (lastLine_linesBefore lines p.row) hmem
  have hscan := scanBack_eq (p.before newline) (p.after newline ++ slack)
  rw [hlast, List.length_take, Nat.min_eq_left p.col_le_line, Place.before_length,
    ← List.append_assoc, Place.before_append_after] at hscan
  rw [hscan, Place.position, Nat.add_sub_cancel]

/-- The scan forward finds the end of the line. -/
theorem scanForward_place (hlines : ∀ line ∈ lines, newline ∉ line) (p : Place lines)
    (slack : List UInt8) :
    scanForward ([newline].intercalate lines ++ slack)
        (([newline].intercalate lines).length - p.position) p.position =
      some (lineStart lines p.row + p.line.length) := by
  have hmem : newline ∉ p.line.drop p.col :=
    fun h => hlines p.line p.line_mem (List.mem_of_mem_drop h)
  have hfirst : firstLine (p.after newline) = p.line.drop p.col :=
    firstLine_append_nil hmem (firstLine_linesAfter lines p.row)
  have hlength : ([newline].intercalate lines).length - p.position = (p.after newline).length := by
    rw [← Place.before_append_after newline p, List.length_append, Place.before_length,
      Nat.add_sub_cancel_left]
  have hscan := scanForward_eq (p.before newline) (p.after newline) slack
  rw [hfirst, Place.before_append_after, Place.before_length, List.length_drop] at hscan
  have hcol := p.col_le_line
  rw [hlength, hscan, Place.position]
  congr 1
  omega

/-! ## The arrows -/

/-- The text of the editor is the joined lines, and its cursor is at a place in them. -/
structure CursorAt (e : Editor) (p : Place lines) (slack : List UInt8) : Prop where
  lines_mem : ∀ line ∈ lines, newline ∉ line
  buffer : e.buffer = [newline].intercalate lines ++ slack
  len : e.len = ([newline].intercalate lines).length
  cursor : e.cursor = p.position

variable {p : Place lines} {slack : List UInt8}

theorem CursorAt.cursorUp (h : CursorAt e p slack) : cursorUp e = some p.up.position := by
  have hscan := scanBack_place h.lines_mem p slack
  unfold Edit.cursorUp
  rw [h.buffer, h.cursor, hscan]
  simp only [Option.bind_eq_bind, Option.bind_some]
  obtain ⟨row, col, hrow, hcol⟩ := p
  cases row with
  | zero => rfl
  | succ row =>
      have hlt : row < lines.length := Nat.lt_of_succ_lt hrow
      -- the newline before the line is at the end of the line above
      let last : Place lines := ⟨row, lines[row].length, hlt, le_rfl⟩
      have hstart : lineStart lines (row + 1) = last.position + 1 := lineStart_succ hlt
      have hprev := scanBack_place h.lines_mem last slack
      simp only [hstart, Nat.add_one_ne_zero, if_false, Nat.add_sub_cancel, hprev,
        Option.bind_some]
      rw [stepTo_eq last.position col _ (Nat.le_add_right _ _)]
      exact congrArg some (Nat.add_min_add_left _ _ _)

theorem CursorAt.cursorDown (h : CursorAt e p slack) : cursorDown e = some p.down.position := by
  have hscan := scanBack_place h.lines_mem p slack
  have hforward := scanForward_place h.lines_mem p slack
  unfold Edit.cursorDown
  rw [h.buffer, h.cursor, h.len, hscan]
  simp only [Option.bind_eq_bind, Option.bind_some, hforward]
  by_cases hrow : p.row + 1 < lines.length
  · -- the line below starts after the newline that the scan has found
    let first : Place lines := ⟨p.row + 1, 0, hrow, Nat.zero_le _⟩
    have hnext : lineStart lines p.row + p.line.length + 1 = first.position :=
      (lineStart_succ p.row_lt).symm
    have hfirst : firstLine (first.after newline) = first.line :=
      firstLine_append_nil (h.lines_mem _ first.line_mem) (firstLine_linesAfter lines _)
    have htext := Place.before_append_after newline first
    have hlength := congrArg List.length htext
    rw [List.length_append, Place.before_length] at hlength
    have hstep := stepLine_eq (first.before newline) (first.after newline) slack p.col
    rw [hfirst, htext, Place.before_length, hlength] at hstep
    rw [if_pos (by omega), hnext, hstep, Place.down, dif_pos hrow]
    rfl
  · have hlast : lines.length = p.row + 1 := by
      have := p.row_lt
      omega
    have hlength := congrArg List.length (intercalate_eq_around newline p.row_lt)
    rw [linesAfter_last newline hlast, List.append_nil, List.length_append,
      linesBefore_length] at hlength
    rw [if_neg (by rw [hlength]; exact lt_irrefl _), p.down_last hlast]

theorem CursorAt.moveTo (h : CursorAt e p slack) (q : Place lines) :
    CursorAt { e with cursor := q.position } q slack :=
  ⟨h.lines_mem, h.buffer, h.len, rfl⟩

theorem CursorAt.arrow_up (h : CursorAt e p slack) :
    arrowKey e 128 = some { e with cursor := p.up.position } := by
  rw [arrowKey, if_neg (by decide), if_neg (by decide), if_pos rfl, h.cursorUp, Option.map_some]

theorem CursorAt.arrow_down (h : CursorAt e p slack) :
    arrowKey e 129 = some { e with cursor := p.down.position } := by
  rw [arrowKey, if_neg (by decide), if_neg (by decide), if_neg (by decide), h.cursorDown,
    Option.map_some]

theorem CursorAt.ofPosition (h : CursorAt e p slack) :
    ({ e with cursor := p.position } : Editor) = e := by
  rw [← h.cursor]

/-! ## Every text -/

/-- The lines of the text of the editor. -/
def Editor.textLines (e : Editor) : List (List UInt8) := (e.buffer.take e.len).splitOn newline

/-- The cursor is at a place in the lines of the text. -/
theorem exists_cursorAt (hcursor : e.cursor ≤ e.len) (hlen : e.len ≤ e.buffer.length) :
    ∃ p : Place e.textLines, CursorAt e p (e.buffer.drop e.len) := by
  have htext : [newline].intercalate e.textLines = e.buffer.take e.len :=
    List.intercalate_splitOn newline
  have hlength : ([newline].intercalate e.textLines).length = e.len := by
    rw [htext, List.length_take, Nat.min_eq_left hlen]
  obtain ⟨p, hp⟩ := Place.exists_position newline (List.splitOn_ne_nil newline _)
    (hcursor.trans hlength.ge)
  refine ⟨p, fun line => not_mem_of_mem_splitOn, ?_, hlength.symm, hp.symm⟩
  rw [htext, List.take_append_drop]

/-- In every text and from every position the arrows up and down take the cursor to the line
above and below, in the same column or at the end of a shorter line, and change nothing else. The
one takes back the other if the line between them reaches the column. -/
theorem arrows_keep_column (e : Editor) (hcursor : e.cursor ≤ e.len)
    (hlen : e.len ≤ e.buffer.length) :
    ∃ p : Place e.textLines, p.position = e.cursor ∧ (∀ q, q.position = e.cursor → q = p) ∧
      arrowKey e 128 = some { e with cursor := p.up.position } ∧
      arrowKey e 129 = some { e with cursor := p.down.position } ∧
      (∀ row, (h : row < e.textLines.length) → p.row = row + 1 → p.col ≤ e.textLines[row].length →
        (arrowKey e 128).bind (arrowKey · 129) = some e) ∧
      ∀ h : p.row + 1 < e.textLines.length, p.col ≤ e.textLines[p.row + 1].length →
        (arrowKey e 129).bind (arrowKey · 128) = some e := by
  obtain ⟨p, hp⟩ := exists_cursorAt hcursor hlen
  refine ⟨p, hp.cursor.symm, ?_, hp.arrow_up, hp.arrow_down, ?_, ?_⟩
  · intro q hq
    exact Place.position_injective (hq.trans hp.cursor)
  · intro row hlt hrow hcol
    rw [hp.arrow_up, Option.bind_some, (hp.moveTo p.up).arrow_down, Place.down_up p hlt hrow hcol]
    exact congrArg some hp.ofPosition
  · intro hrow hcol
    rw [hp.arrow_down, Option.bind_some, (hp.moveTo p.down).arrow_up, Place.up_down p hrow hcol]
    exact congrArg some hp.ofPosition

/-- From the end of the second line of `A`, newline, `BC`. -/
theorem arrows_keep_column_short :
    ∃ p : Place (Editor.mk [0x41, 0x0A, 0x42, 0x43, 0] 5 4 4 false 0).textLines,
      p.position = 4 ∧ p.up.position = 1 ∧
        arrowKey ⟨[0x41, 0x0A, 0x42, 0x43, 0], 5, 4, 4, false, 0⟩ 128 =
          some ⟨[0x41, 0x0A, 0x42, 0x43, 0], 5, 4, 1, false, 0⟩ := by
  obtain ⟨p, hposition, _, hup, _⟩ := arrows_keep_column
    ⟨[0x41, 0x0A, 0x42, 0x43, 0], 5, 4, 4, false, 0⟩ (by decide) (by decide)
  have hkey : arrowKey ⟨[0x41, 0x0A, 0x42, 0x43, 0], 5, 4, 4, false, 0⟩ 128 =
      some ⟨[0x41, 0x0A, 0x42, 0x43, 0], 5, 4, 1, false, 0⟩ := rfl
  have hone : p.up.position = 1 := by
    rw [hkey] at hup
    exact (congrArg Editor.cursor (Option.some_inj.mp hup)).symm
  exact ⟨p, hposition, hone, hkey⟩

end LispDos.Edit
