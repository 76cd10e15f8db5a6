import LispDos.Verification.Editor.Loops
import LispDos.Verification.Fat16.RoundTrip

/-! # The editor as a text with a cursor

The array with its two indices shows the text before and the text after the cursor, and every
key does to the array what the ideal editor does to these two. -/

namespace LispDos.Edit

open Console

/-! ## The ideal editor -/

/-- The text before and after the cursor, and the mode. -/
structure Text where
  before : List UInt8
  after : List UInt8
  insertMode : Bool

def Text.all (t : Text) : List UInt8 := t.before ++ t.after

/-- The cursor at a position of the text. -/
def Text.moveTo (t : Text) (p : ℕ) : Text :=
  { t with before := t.all.take p, after := t.all.drop p }

/-- The column of the cursor. -/
def Text.column (t : Text) : ℕ := (lastLine t.before).length

/-- To the same column of the line above, or its end. -/
def Text.up (t : Text) : Text :=
  if newline ∈ t.before then
    let above := linesAbove t.before
    let line := lastLine above
    t.moveTo (above.length - line.length + min t.column line.length)
  else t

/-- To the same column of the line below, or its end. -/
def Text.down (t : Text) : Text :=
  if newline ∈ t.after then
    let line := firstLine (linesBelow t.after)
    t.moveTo (t.before.length + (firstLine t.after).length + 1 + min t.column line.length)
  else t

def Text.left (t : Text) : Text := if t.before = [] then t else t.moveTo (t.before.length - 1)

def Text.right (t : Text) : Text := if t.after = [] then t else t.moveTo (t.before.length + 1)

/-- A printable character or a newline goes before the cursor, unless there are `room`
characters already. -/
def Text.type (room : ℕ) (t : Text) (c : UInt8) : Text :=
  if c = 0x08 then { t with before := t.before.dropLast }
  else if t.all.length < room ∧ ((32 ≤ c ∧ c ≤ 126) ∨ c = newline) then
    { t with before := t.before ++ [c] }
  else t

/-- Where a key leads in the ideal editor. -/
inductive Ideal where
  | editing (t : Text)
  | saved (text : List UInt8)
  | closed

/-- A key: escape, an arrow, and then what the mode makes of it. -/
def Text.key (room : ℕ) (t : Text) (c : UInt8) : Ideal :=
  if c = 27 then .editing { t with insertMode := false }
  else if c = 128 then .editing t.up
  else if c = 129 then .editing t.down
  else if c = 130 then .editing t.left
  else if c = 131 then .editing t.right
  else if t.insertMode then .editing (t.type room c)
  else if c = 0x69 then .editing { t with insertMode := true }
  else if c = 0x77 then .saved t.all
  else if c = 0x71 then .closed
  else .editing t

def Text.run (room : ℕ) : Text → List UInt8 → Ideal
  | t, [] => .editing t
  | t, c :: cs =>
      match t.key room c with
      | .editing t => t.run room cs
      | .saved text => .saved text
      | .closed => .closed

/-! ## What the array shows -/

variable {e : Editor} {t : Text} {slack : List UInt8} {maxRows : Size} {c : UInt8} {p : ℕ}

/-- The array is the text before the cursor, the text after it, and at least one more cell. -/
structure Shows (e : Editor) (t : Text) (slack : List UInt8) : Prop where
  buffer : e.buffer = t.before ++ (t.after ++ slack)
  cursor : e.cursor = t.before.length
  len : e.len = t.before.length + t.after.length
  mode : e.insertMode = t.insertMode
  bufferMax : e.bufferMax = e.buffer.length
  slack_ne : slack ≠ []

theorem Shows.length (h : Shows e t slack) : e.bufferMax = e.len + slack.length := by
  rw [h.bufferMax, h.buffer, h.len, List.length_append, List.length_append, Nat.add_assoc]

theorem Shows.len_lt (h : Shows e t slack) : e.len < e.buffer.length := by
  have hpos := List.length_pos_of_ne_nil h.slack_ne
  rw [← h.bufferMax, h.length]
  omega

theorem all_length (t : Text) : t.all.length = t.before.length + t.after.length :=
  List.length_append

/-- The cursor may be put anywhere in the text. -/
theorem Shows.moveTo (h : Shows e t slack) (hp : p ≤ e.len) :
    Shows { e with cursor := p } (t.moveTo p) slack := by
  have hall := all_length t
  have hlen := h.len
  refine ⟨?_, ?_, ?_, h.mode, h.bufferMax, h.slack_ne⟩
  · rw [Text.moveTo, ← List.append_assoc, List.take_append_drop, Text.all, List.append_assoc]
    exact h.buffer
  · simp only [Text.moveTo, List.length_take]
    omega
  · simp only [Text.moveTo, List.length_take, List.length_drop]
    omega

/-- Drawing reads the text only. -/
theorem drawText_isSome (h : e.len ≤ e.buffer.length) (n i : ℕ) (hi : n + i ≤ e.len + 1) :
    (drawText e n i).isSome = true := by
  have hload : ∀ i < e.len, ∃ c, load e.buffer i = some c := by
    intro i hlt
    exact ⟨_, List.getElem?_eq_getElem (by omega)⟩
  induction n generalizing i with
  | zero => rfl
  | succ n ih =>
      obtain ⟨rest, hrest⟩ := Option.isSome_iff_exists.mp (ih (i + 1) (by omega))
      rw [drawText, hrest]
      by_cases hcursor : i = e.cursor
      · by_cases hend : i = e.len
        · rw [if_pos hcursor, if_pos hend]
          rfl
        · obtain ⟨c, hc⟩ := hload i (by omega)
          rw [if_pos hcursor, if_neg hend, hc]
          by_cases hline : c = newline <;> simp [hline]
      · by_cases hlt : i < e.len
        · obtain ⟨c, hc⟩ := hload i hlt
          rw [if_neg hcursor, if_pos hlt, hc]
          rfl
        · rw [if_neg hcursor, if_neg hlt]
          rfl

theorem Shows.draws (h : Shows e t slack) (maxRows : Size) :
    ∃ screen, drawEditorUi maxRows e = some screen := by
  obtain ⟨text, htext⟩ := Option.isSome_iff_exists.mp
    (drawText_isSome h.len_lt.le (e.len + 1) 0 (by omega))
  unfold drawEditorUi
  rw [htext]
  exact ⟨_, rfl⟩

/-! ## Keys -/

theorem Shows.up (h : Shows e t slack) :
    ∃ p, cursorUp e = some p ∧ Shows { e with cursor := p } t.up slack := by
  have hcol : (lastLine t.before).length ≤ t.before.length :=
    (List.rtakeWhile_suffix _ t.before).length_le
  have hlen := h.len
  have hscan : scanBack e.buffer e.cursor =
      some (t.column, t.before.length - (lastLine t.before).length) := by
    rw [h.buffer, h.cursor, scanBack_eq, Text.column]
  by_cases hline : newline ∈ t.before
  · -- the newline before the line of the cursor
    have hsplit := linesAbove_append hline
    have hlength := congrArg List.length hsplit
    rw [List.length_append, List.length_cons] at hlength
    have hstart : t.before.length - (lastLine t.before).length =
        (linesAbove t.before).length + 1 := by omega
    have hprev : (lastLine (linesAbove t.before)).length ≤ (linesAbove t.before).length :=
      (List.rtakeWhile_suffix _ _).length_le
    have habove : e.buffer = linesAbove t.before ++
        (newline :: lastLine t.before ++ (t.after ++ slack)) := by
      rw [h.buffer, ← List.append_assoc (linesAbove t.before), hsplit]
    have hpos : min ((linesAbove t.before).length - (lastLine (linesAbove t.before)).length +
        t.column) (linesAbove t.before).length =
          (linesAbove t.before).length - (lastLine (linesAbove t.before)).length +
            min t.column (lastLine (linesAbove t.before)).length := by omega
    refine ⟨(linesAbove t.before).length - (lastLine (linesAbove t.before)).length +
      min t.column (lastLine (linesAbove t.before)).length, ?_, ?_⟩
    · unfold cursorUp
      rw [hscan, hstart, habove]
      simp only [Option.bind_eq_bind, Option.bind_some, if_neg (Nat.succ_ne_zero _),
        Nat.add_sub_cancel, scanBack_eq]
      rw [stepTo_eq _ _ _ (Nat.sub_le _ _), hpos]
    · rw [Text.up, if_pos hline]
      exact h.moveTo (by omega)
  · refine ⟨e.cursor, ?_, ?_⟩
    · unfold cursorUp
      rw [hscan, lastLine_of_not_mem hline, Nat.sub_self]
      rfl
    · rw [Text.up, if_neg hline]
      exact h

theorem Shows.down (h : Shows e t slack) :
    ∃ p, cursorDown e = some p ∧ Shows { e with cursor := p } t.down slack := by
  have hlen := h.len
  have hrest : e.len - e.cursor = t.after.length := by
    rw [hlen, h.cursor]
    omega
  have hscan : scanBack e.buffer e.cursor =
      some (t.column, t.before.length - (lastLine t.before).length) := by
    rw [h.buffer, h.cursor, scanBack_eq, Text.column]
  have hforward : scanForward e.buffer (e.len - e.cursor) e.cursor =
      some (t.before.length + (firstLine t.after).length) := by
    rw [hrest, h.buffer, h.cursor, ← List.append_assoc, scanForward_eq]
  by_cases hline : newline ∈ t.after
  · have hsplit := firstLine_append hline
    have hlength := congrArg List.length hsplit
    rw [List.length_append, List.length_cons] at hlength
    have hbelow : e.buffer =
        (t.before ++ (firstLine t.after ++ [newline])) ++ linesBelow t.after ++ slack := by
      calc e.buffer = t.before ++ (t.after ++ slack) := h.buffer
        _ = t.before ++ ((firstLine t.after ++ newline :: linesBelow t.after) ++ slack) := by
            rw [hsplit]
        _ = _ := by simp
    have hnext : t.before.length + (firstLine t.after).length + 1 =
        (t.before ++ (firstLine t.after ++ [newline])).length := by
      simp only [List.length_append, List.length_singleton]
      omega
    have hend : e.len = (t.before ++ (firstLine t.after ++ [newline])).length +
        (linesBelow t.after).length := by
      rw [← hnext]
      omega
    have hfirst : (firstLine (linesBelow t.after)).length ≤ (linesBelow t.after).length :=
      (List.takeWhile_prefix _).length_le
    refine ⟨t.before.length + (firstLine t.after).length + 1 +
      min t.column (firstLine (linesBelow t.after)).length, ?_, ?_⟩
    · unfold cursorDown
      rw [hscan, hforward]
      simp only [Option.bind_eq_bind, Option.bind_some]
      rw [if_pos (by omega), hbelow, hnext, hend, stepLine_eq]
    · rw [Text.down, if_pos hline]
      exact h.moveTo (by omega)
  · refine ⟨e.cursor, ?_, ?_⟩
    · unfold cursorDown
      rw [hscan, hforward, firstLine_of_not_mem hline]
      simp only [Option.bind_eq_bind, Option.bind_some]
      rw [if_neg (by omega)]
    · rw [Text.down, if_neg hline]
      exact h

theorem Shows.arrow (h : Shows e t slack) (hc : 128 ≤ c ∧ c ≤ 131) (room : ℕ) :
    ∃ e' t', arrowKey e c = some e' ∧ t.key room c = .editing t' ∧ Shows e' t' slack := by
  have hcursor := h.cursor
  have hlen := h.len
  unfold arrowKey Text.key
  by_cases h130 : c = 130
  · subst h130
    refine ⟨_, t.left, rfl, rfl, ?_⟩
    unfold Text.left
    by_cases hnil : t.before = []
    · rw [if_pos hnil, if_neg (by rw [hcursor, hnil]; decide)]
      exact h
    · have hpos := List.length_pos_of_ne_nil hnil
      rw [if_neg hnil, if_pos (by omega), ← hcursor]
      exact h.moveTo (by omega)
  by_cases h131 : c = 131
  · subst h131
    refine ⟨_, t.right, rfl, rfl, ?_⟩
    unfold Text.right
    by_cases hnil : t.after = []
    · rw [if_pos hnil, if_neg (by rw [hlen, hcursor, hnil, List.length_nil]; omega)]
      exact h
    · have hpos := List.length_pos_of_ne_nil hnil
      rw [if_neg hnil, if_pos (by omega), ← hcursor]
      exact h.moveTo (by omega)
  by_cases h128 : c = 128
  · subst h128
    obtain ⟨p, hp, hshows⟩ := h.up
    refine ⟨_, t.up, ?_, rfl, hshows⟩
    rw [if_neg (by decide), if_neg (by decide), if_pos rfl, hp, Option.map_some]
  · have h129 : c = 129 := by
      rw [UInt8.le_iff_toNat_le, UInt8.le_iff_toNat_le] at hc
      rw [← UInt8.toNat_inj] at h130 h131 h128 ⊢
      have hvalues : (128 : UInt8).toNat = 128 ∧ (129 : UInt8).toNat = 129 ∧
          (130 : UInt8).toNat = 130 ∧ (131 : UInt8).toNat = 131 := by decide
      omega
    subst h129
    obtain ⟨p, hp, hshows⟩ := h.down
    refine ⟨_, t.down, ?_, rfl, hshows⟩
    rw [if_neg h130, if_neg h131, if_neg h128, hp, Option.map_some]

theorem Shows.type (h : Shows e t slack) (c : UInt8) :
    ∃ e' slack', insertKey e c = some e' ∧ e'.bufferMax = e.bufferMax ∧
      Shows e' (t.type (e.bufferMax - 1) c) slack' := by
  have hlen := h.len
  have hcursor := h.cursor
  have hbufferMax := h.bufferMax
  have hall := all_length t
  have hrest : e.len - e.cursor = t.after.length := by omega
  unfold insertKey Text.type
  by_cases hback : c = 0x08
  · rw [if_pos hback, if_pos hback]
    by_cases hnil : t.before = []
    · rw [if_neg (by rw [hcursor, hnil]; decide), hnil, List.dropLast_nil]
      exact ⟨e, slack, rfl, rfl, by rw [← hnil]; exact h⟩
    · -- the character before the cursor is the last one of the text before it
      obtain ⟨xs, x, hsnoc⟩ := (List.eq_nil_or_concat' t.before).resolve_left hnil
      obtain ⟨c', hshift⟩ := shiftLeft_eq xs x t.after slack
      have hxs : t.before.length = xs.length + 1 := by rw [hsnoc, List.length_append]; rfl
      have hbuffer : e.buffer = xs ++ x :: (t.after ++ slack) := by
        rw [h.buffer, hsnoc, List.append_assoc, List.singleton_append]
      rw [if_pos (by omega), hrest, hcursor, hxs, hbuffer, hshift]
      refine ⟨_, c' :: slack, rfl, rfl, ?_⟩
      rw [hsnoc, List.dropLast_concat]
      refine ⟨rfl, rfl, ?_, h.mode, ?_, by simp⟩
      · simp only
        omega
      · rw [hbufferMax, hbuffer]
        simp only [List.length_append, List.length_cons]
        omega
  · rw [if_neg hback, if_neg hback, hall, ← hlen]
    by_cases htype : e.len < e.bufferMax - 1 ∧ ((32 ≤ c ∧ c ≤ 126) ∨ c = newline)
    · obtain ⟨z, zs, hslack⟩ := List.exists_cons_of_ne_nil h.slack_ne
      have hlength := h.length
      have hzs : zs ≠ [] := by
        rintro rfl
        rw [hslack, List.length_singleton] at hlength
        omega
      obtain ⟨c', hshift⟩ := shiftRight_eq t.before t.after z zs
      have hbuffer : e.buffer = t.before ++ (t.after ++ z :: zs) := by rw [h.buffer, hslack]
      rw [if_pos htype, if_pos htype, hrest, hlen, hcursor, hbuffer, hshift]
      simp only [Option.bind_eq_bind, Option.bind_some, store_append]
      refine ⟨_, zs, rfl, rfl, ?_⟩
      refine ⟨by simp, by simp, ?_, h.mode, ?_, hzs⟩
      · simp only [List.length_append, List.length_singleton]
        omega
      · rw [hbufferMax, hbuffer]
        simp only [List.length_append, List.length_cons]
        omega
    · rw [if_neg htype, if_neg htype]
      exact ⟨e, slack, rfl, rfl, h⟩

/-- What a key leads to in the editor and in the ideal editor. -/
def Leads (room : ℕ) : Next → Ideal → Prop
  | .draws e _, .editing t => e.bufferMax - 1 = room ∧ ∃ slack, Shows e t slack
  | .saves data, .saved text => data = text
  | .quits, .closed => True
  | _, _ => False

theorem arrowKey_bufferMax {e' : Editor} (h : arrowKey e c = some e') :
    e'.bufferMax = e.bufferMax := by
  unfold arrowKey at h
  split_ifs at h
  · rw [← Option.some_inj.mp h]
  · rw [← Option.some_inj.mp h]
  · rw [← Option.some_inj.mp h]
  · rw [← Option.some_inj.mp h]
  · obtain ⟨p, _, rfl⟩ := Option.map_eq_some_iff.mp h
    rfl
  · obtain ⟨p, _, rfl⟩ := Option.map_eq_some_iff.mp h
    rfl

/-- One key. -/
theorem Shows.key (h : Shows e t slack) (maxRows : Size) (c : UInt8) :
    ∃ next, e.key maxRows c = some next ∧ Leads (e.bufferMax - 1) next (t.key (e.bufferMax - 1) c) := by
  have hdraw : ∀ {e' : Editor} {t' : Text} {slack' : List UInt8}, Shows e' t' slack' →
      e'.bufferMax = e.bufferMax → ∃ next, (drawEditorUi maxRows e').map (Next.draws e') = some next ∧
        Leads (e.bufferMax - 1) next (.editing t') := by
    intro e' t' slack' h' hmax
    obtain ⟨screen, hscreen⟩ := h'.draws maxRows
    exact ⟨.draws e' screen, by rw [hscreen, Option.map_some], by rw [hmax], slack', h'⟩
  have hmode : ∀ (mode : Bool) (key : UInt8),
      Shows { e with insertMode := mode, lastCmdKey := key } { t with insertMode := mode } slack :=
    fun _ _ => ⟨h.buffer, h.cursor, h.len, rfl, h.bufferMax, h.slack_ne⟩
  unfold Editor.key
  by_cases hesc : c = 27
  · subst hesc
    exact hdraw (hmode false 0) rfl
  by_cases harrow : 128 ≤ c ∧ c ≤ 131
  · obtain ⟨e', t', he', ht', hshows⟩ := h.arrow harrow (e.bufferMax - 1)
    simp only [if_neg hesc, if_pos harrow, he', Option.bind_some, ht']
    exact hdraw hshows (arrowKey_bufferMax he')
  · have hother : c ≠ 128 ∧ c ≠ 129 ∧ c ≠ 130 ∧ c ≠ 131 := by
      refine ⟨?_, ?_, ?_, ?_⟩ <;> rintro rfl <;> exact harrow (by decide)
    obtain ⟨h128, h129, h130, h131⟩ := hother
    unfold Text.key
    simp only [if_neg hesc, if_neg harrow, if_neg h128, if_neg h129, if_neg h130, if_neg h131]
    cases hinsert : t.insertMode with
    | true =>
        obtain ⟨e', slack', he', hmax, hshows⟩ := h.type c
        simp only [h.mode, hinsert, if_true, he', Option.bind_some]
        exact hdraw hshows hmax
    | false =>
        simp only [h.mode, hinsert, Bool.false_eq_true, if_false]
        by_cases hi : c = 0x69
        · rw [if_pos hi, if_pos hi]
          exact hdraw (hmode true 0) rfl
        by_cases hw : c = 0x77
        · have hstore : store e.buffer e.len 0 = some (e.buffer.set e.len 0) := if_pos h.len_lt
          rw [if_neg hi, if_neg hi, if_pos hw, if_pos hw, hstore]
          refine ⟨_, rfl, ?_⟩
          have htake : e.buffer.take e.len = t.all := by
            rw [h.buffer, h.len, ← List.append_assoc, ← List.length_append, List.take_left]
            rfl
          show (e.buffer.set e.len 0).take e.len = t.all
          rw [List.take_set_of_le le_rfl, htake]
        by_cases hq : c = 0x71
        · rw [if_neg hi, if_neg hi, if_neg hw, if_neg hw, if_pos hq, if_pos hq]
          exact ⟨_, rfl, trivial⟩
        · rw [if_neg hi, if_neg hi, if_neg hw, if_neg hw, if_neg hq, if_neg hq]
          have hshows : Shows { e with insertMode := false, lastCmdKey := c } t slack :=
            ⟨h.buffer, h.cursor, h.len, hinsert.symm, h.bufferMax, h.slack_ne⟩
          exact hdraw hshows rfl

/-! ## Sessions -/

/-- A session of the editor against one of the ideal editor: the indices are in range, the part
of the array in use with the cursor is the text, and what is saved is the text. -/
def Session.Refines (room : ℕ) : Session → Ideal → Prop
  | .open e, .editing t =>
      (e.cursor ≤ e.len ∧ e.len ≤ e.bufferMax - 1 ∧ e.bufferMax - 1 = room ∧
          e.bufferMax = e.buffer.length) ∧
        (e.buffer.take e.len).take e.cursor = t.before ∧
        (e.buffer.take e.len).drop e.cursor = t.after ∧ e.insertMode = t.insertMode
  | .saved data, .saved text => data = text
  | .closed, .closed => True
  | _, _ => False

theorem Shows.refines (h : Shows e t slack) :
    Session.Refines (e.bufferMax - 1) (.open e) (.editing t) := by
  have hlen := h.len
  have hcursor := h.cursor
  have hlt := h.len_lt
  have hmax := h.bufferMax
  have htake : e.buffer.take e.len = t.before ++ t.after := by
    rw [h.buffer, hlen, ← List.append_assoc, ← List.length_append, List.take_left]
  refine ⟨⟨by omega, by omega, rfl, hmax⟩, ?_, ?_, h.mode⟩
  · rw [htake, hcursor, List.take_left]
  · rw [htake, hcursor, List.drop_left]

theorem Shows.run (h : Shows e t slack) (maxRows : Size) (keys : List UInt8) :
    ∃ session, e.run maxRows keys = some session ∧
      session.Refines (e.bufferMax - 1) (t.run (e.bufferMax - 1) keys) := by
  induction keys generalizing e t slack with
  | nil => exact ⟨.open e, rfl, h.refines⟩
  | cons c keys ih =>
      obtain ⟨next, hkey, hleads⟩ := h.key maxRows c
      rw [Editor.run, hkey, Text.run]
      cases hideal : t.key (e.bufferMax - 1) c with
      | editing t' =>
          rw [hideal] at hleads
          cases next with
          | draws e' screen =>
              obtain ⟨hroom, slack', hshows⟩ := hleads
              rw [← hroom]
              exact ih hshows
          | saves data => exact hleads.elim
          | quits => exact hleads.elim
      | saved text =>
          rw [hideal] at hleads
          cases next with
          | draws e' screen => exact hleads.elim
          | saves data => exact ⟨.saved data, rfl, hleads⟩
          | quits => exact hleads.elim
      | closed =>
          rw [hideal] at hleads
          cases next with
          | draws e' screen => exact hleads.elim
          | saves data => exact hleads.elim
          | quits => exact ⟨.closed, rfl, trivial⟩

/-! ## The loaded file -/

variable {b : Bpb} {d : Disk} {filename : List UInt8} {result : ℤ} {stores : List Store}

theorem foldl_set_range (f : ℕ → UInt8) (n : ℕ) (stores : List Store) :
    stores.foldl (fun buffer s => buffer.set s.1 s.2) ((List.range n).map f) =
      (List.range n).map (applyStores f stores) := by
  induction stores generalizing f with
  | nil => rfl
  | cons s stores ih =>
      have hset : ((List.range n).map f).set s.1 s.2 =
          (List.range n).map (Function.update f s.1 s.2) := by
        apply List.ext_getElem
        · simp
        · intro i hi hi'
          rw [List.getElem_set, List.getElem_map, List.getElem_map, List.getElem_range,
            Function.update_apply]
          simp only [eq_comm]
      rw [List.foldl_cons, hset, ih]
      rfl

/-- The first `size` bytes of cleared memory after the reader has filled it. -/
def fileText (size : ℕ) (stores : List Store) : List UInt8 :=
  (List.range size).map (applyStores (fun _ => 0) stores)

/-- The editor starts on the text of the file with the cursor before it, in normal mode. -/
theorem editorStart_shows (hread : fat16ReadFile b d filename = some (result, stores))
    (hfits : (fat16GetFileSize b d filename : ℤ) + 8192 ≤ poolSize) :
    ∃ e slack, editorStart b d filename = some e ∧
      e.bufferMax = fat16GetFileSize b d filename + 8192 ∧
      Shows e ⟨[], fileText (fat16GetFileSize b d filename) stores, false⟩ slack := by
  generalize hsize : fat16GetFileSize b d filename = size at *
  have hpool : poolSize = 1048576 := rfl
  have hint : toInt32 size = size := Fat16.toInt32_of_lt (by omega)
  have hresult : result = size := by rw [Fat16.fat16ReadFile_result hread, hsize, hint]
  have hmax : ((size : ℤ) + 8192).toNat = size + 8192 := by omega
  have hclear : List.replicate (size + 8192) (0 : UInt8) =
      (List.range (size + 8192)).map fun _ => 0 := by
    rw [List.map_const', List.length_range]
  unfold editorStart
  simp only [hsize, hint, hmax]
  rw [if_neg (by omega)]
  by_cases hpos : 0 < (size : ℤ)
  · rw [if_pos hpos, hread, Option.map_some, hclear, foldl_set_range, hresult, if_pos hpos]
    refine ⟨_, (List.range 8192).map fun i => applyStores (fun _ => 0) stores (size + i), rfl, rfl,
      ?_⟩
    refine ⟨?_, rfl, ?_, rfl, ?_, by simp⟩
    · rw [List.range_add, List.map_append, List.map_map]
      rfl
    · show (size : ℤ).toNat = _
      rw [fileText, List.length_map, List.length_range, List.length_nil]
      omega
    · simp
  · obtain rfl : size = 0 := by omega
    rw [if_neg hpos]
    refine ⟨_, List.replicate 8192 0, rfl, rfl, ?_⟩
    refine ⟨rfl, rfl, rfl, rfl, List.length_replicate.symm, ?_⟩
    exact List.ne_nil_of_length_pos (by rw [List.length_replicate]; decide)

/-- From a file that fits the pool, after any keys the array with its cursor is the text of the
ideal editor, no access has left the array, and what is saved is the ideal text. -/
theorem editor_refines_text (hread : fat16ReadFile b d filename = some (result, stores))
    (hfits : (fat16GetFileSize b d filename : ℤ) + 8192 ≤ poolSize) (maxRows : Size)
    (keys : List UInt8) :
    ∃ e screen session, editorStart b d filename = some e ∧
      e.bufferMax = fat16GetFileSize b d filename + 8192 ∧
      drawEditorUi maxRows e = some screen ∧ e.run maxRows keys = some session ∧
      session.Refines (e.bufferMax - 1) (Text.run (e.bufferMax - 1)
        ⟨[], fileText (fat16GetFileSize b d filename) stores, false⟩ keys) := by
  obtain ⟨e, slack, hstart, hmax, hshows⟩ := editorStart_shows hread hfits
  obtain ⟨screen, hscreen⟩ := hshows.draws maxRows
  obtain ⟨session, hrun, hrefines⟩ := hshows.run maxRows keys
  exact ⟨e, screen, session, hstart, hmax, hscreen, hrun, hrefines⟩

/-- A new file, the letters `A` and `B`, one step to the left, `C`, and the text is saved. -/
theorem editor_refines_text_new :
    ∃ e session, editorStart (Fat16.smallBpb 6) Fat16.blankDisk [0x41] = some e ∧
      e.run 25 [0x69, 0x41, 0x42, 130, 0x43, 27, 0x77] = some session ∧
      session.Refines 8191 (.saved [0x41, 0x43, 0x42]) := by
  obtain ⟨hread, hsize⟩ : fat16ReadFile (Fat16.smallBpb 6) Fat16.blankDisk [0x41] = some (0, []) ∧
      fat16GetFileSize (Fat16.smallBpb 6) Fat16.blankDisk [0x41] = 0 := by
    decide +kernel
  obtain ⟨e, _, session, hstart, hmax, _, hrun, hrefines⟩ := editor_refines_text hread
    (by rw [hsize]; decide) 25 [0x69, 0x41, 0x42, 130, 0x43, 27, 0x77]
  rw [hmax, hsize] at hrefines
  exact ⟨e, session, hstart, hrun, hrefines⟩

end LispDos.Edit
