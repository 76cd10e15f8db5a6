import LispDos.Kernel.Shell
import Mathlib.Data.List.Basic
import Mathlib.Data.List.TakeWhile

/-! # Command lines

What the shell makes of the keys of a line: the line in `command`, and its two words in
`cmd_name` and `args`. -/

namespace LispDos.Shell

variable {a xs ys zs dst line : List UInt8} {l : Line} {c : UInt8}

/-! ## Copies -/

theorem put_append (xs : List UInt8) (x c : UInt8) (ys : List UInt8) :
    put (xs ++ x :: ys) xs.length c = some (xs ++ c :: ys) := by
  rw [put, if_pos (by simp), List.set_append_right _ _ le_rfl, Nat.sub_self, List.set_cons_zero]

theorem put_end (xs : List UInt8) (c : UInt8) : put xs xs.length c = none :=
  if_neg (lt_irrefl _)

theorem getElem?_length_append (xs : List UInt8) (c : UInt8) (ys : List UInt8) :
    (xs ++ c :: ys)[xs.length]? = some c := by
  rw [List.getElem?_append_right le_rfl, Nat.sub_self, List.getElem?_cons_zero]

/-- A copy that fits. -/
theorem copyLoop_eq_some (xs ys zs dst rest : List UInt8) (h : ys.length ≤ rest.length) :
    copyLoop (xs ++ (ys ++ zs)) ys.length xs.length dst.length (dst ++ rest) =
      some (dst ++ (ys ++ rest.drop ys.length)) := by
  induction ys generalizing xs dst rest with
  | nil => rfl
  | cons y ys ih =>
      cases rest with
      | nil => simp at h
      | cons x rest =>
          rw [List.length_cons, List.length_cons] at h
          have htail := ih (xs ++ [y]) (dst ++ [y]) rest (by omega)
          simp only [List.length_append, List.length_singleton, List.append_assoc,
            List.singleton_append] at htail
          rw [List.length_cons, copyLoop, List.cons_append, getElem?_length_append]
          simp only [Option.bind_eq_bind, Option.bind_some, put_append, htail,
            List.drop_succ_cons, List.cons_append]

/-- A copy that does not fit. -/
theorem copyLoop_eq_none (xs ys zs dst rest : List UInt8) (h : rest.length < ys.length) :
    copyLoop (xs ++ (ys ++ zs)) ys.length xs.length dst.length (dst ++ rest) = none := by
  induction ys generalizing xs dst rest with
  | nil => simp at h
  | cons y ys ih =>
      rw [List.length_cons, copyLoop, List.cons_append, getElem?_length_append]
      cases rest with
      | nil => simp only [Option.bind_eq_bind, Option.bind_some, List.append_nil, put_end,
          Option.bind_none]
      | cons x rest =>
          rw [List.length_cons, List.length_cons] at h
          have htail := ih (xs ++ [y]) (dst ++ [y]) rest (by omega)
          simp only [List.length_append, List.length_singleton, List.append_assoc,
            List.singleton_append] at htail
          simp only [Option.bind_eq_bind, Option.bind_some, put_append, htail]

/-- A word and its terminator are stored exactly if both fit. -/
theorem copyWord_eq (xs ys zs dst : List UInt8) :
    copyWord (xs ++ (ys ++ zs)) ys.length xs.length dst =
      if ys.length < dst.length then some (ys ++ 0 :: dst.drop (ys.length + 1)) else none := by
  unfold copyWord
  by_cases hle : ys.length ≤ dst.length
  · have hcopy := copyLoop_eq_some xs ys zs [] dst hle
    rw [List.nil_append, List.nil_append, List.length_nil] at hcopy
    rw [hcopy]
    simp only [Option.bind_eq_bind, Option.bind_some]
    split_ifs with hlt
    · rw [List.drop_eq_getElem_cons hlt, put_append]
    · have hend : dst.length = ys.length := by omega
      rw [List.drop_eq_nil_of_le hend.le, List.append_nil, put_end]
  · have hcopy := copyLoop_eq_none xs ys zs [] dst (by omega)
    rw [List.nil_append, List.length_nil] at hcopy
    rw [hcopy, if_neg (by omega)]
    rfl

theorem cString_append (h : 0 ∉ ys) (zs : List UInt8) : cString (ys ++ 0 :: zs) = ys := by
  have hall : ∀ c ∈ ys, decide (c ≠ 0) = true := by
    intro c hc
    exact decide_eq_true fun heq => h (heq ▸ hc)
  rw [cString, List.takeWhile_append_of_pos hall, List.takeWhile_cons_of_neg (by decide),
    List.append_nil]

/-! ## Splitting -/

theorem findSpace_eq (xs ys zs : List UInt8) :
    findSpace (xs ++ (ys ++ zs)) ys.length xs.length =
      some (if 0x20 ∈ ys then some (xs.length + ys.idxOf 0x20) else none) := by
  induction ys generalizing xs with
  | nil => simp [findSpace]
  | cons y ys ih =>
      rw [List.length_cons, findSpace, List.cons_append, getElem?_length_append]
      simp only [Option.bind_eq_bind, Option.bind_some]
      by_cases hy : y = 0x20
      · rw [if_pos hy, if_pos (by simp [hy]), hy, List.idxOf_cons_self, Nat.add_zero]
      · have htail := ih (xs ++ [y])
        rw [List.length_append, List.length_singleton, List.append_assoc, List.singleton_append]
          at htail
        have hmem : 0x20 ∈ y :: ys ↔ 0x20 ∈ ys := by
          rw [List.mem_cons]
          exact or_iff_right (Ne.symm hy)
        rw [if_neg hy, htail, List.idxOf_cons_ne _ hy]
        simp only [hmem, Nat.add_assoc, Nat.add_comm 1]

theorem put_zero (h : 0 < a.length) (c : UInt8) :
    ∃ a', put a 0 c = some a' ∧ a'.length = a.length := by
  refine ⟨a.set 0 c, if_pos h, List.length_set⟩

/-- The command word is cut off at 31 characters. -/
theorem copyWord_name (w rest : List UInt8) (hdst : dst.length = 32) :
    ∃ p, copyWord (w ++ rest) (if w.length < 31 then w.length else 31) 0 dst =
      some (w.take 31 ++ 0 :: p) := by
  have hlength : (w.take 31).length = if w.length < 31 then w.length else 31 := by
    rw [List.length_take]
    split_ifs <;> omega
  have hfits : (w.take 31).length < dst.length := by
    rw [List.length_take]
    omega
  have hcopy := copyWord_eq [] (w.take 31) (w.drop 31 ++ rest) dst
  rw [List.nil_append, ← List.append_assoc, List.take_append_drop, List.length_nil, if_pos hfits,
    hlength] at hcopy
  exact ⟨_, hcopy⟩

/-- A line with a space is split into the word before it and the rest behind it, if the rest
fits `args`. -/
theorem split_space {w r : List UInt8} (rest cmdName args : List UInt8) (hw : 0x20 ∉ w)
    (hname : cmdName.length = 32) (hargs : args.length = 224) :
    (r.length < 224 → ∃ p q, split (w ++ 0x20 :: r ++ rest) (w ++ 0x20 :: r).length cmdName args =
      some (w.take 31 ++ 0 :: p, r ++ 0 :: q)) ∧
    (224 ≤ r.length → split (w ++ 0x20 :: r ++ rest) (w ++ 0x20 :: r).length cmdName args =
      none) := by
  have hfind := findSpace_eq [] (w ++ 0x20 :: r) rest
  rw [List.nil_append, List.length_nil, if_pos (by simp), List.idxOf_append_of_notMem hw,
    List.idxOf_cons_self, Nat.add_zero, Nat.zero_add] at hfind
  obtain ⟨cmdName', hput, hname'⟩ := put_zero (a := cmdName) (by omega) 0
  obtain ⟨args', hput', hargs'⟩ := put_zero (a := args) (by omega) 0
  obtain ⟨p, hcopy⟩ := copyWord_name w (0x20 :: r ++ rest) (hname'.trans hname)
  have hcount : (w ++ 0x20 :: r).length - (w.length + 1) = r.length := by
    simp only [List.length_append, List.length_cons]
    omega
  have hrest := copyWord_eq (w ++ [0x20]) r rest args'
  rw [List.length_append, List.length_singleton, hargs', hargs] at hrest
  simp only [List.append_assoc, List.singleton_append] at hrest
  have hshape : w ++ 0x20 :: r ++ rest = w ++ 0x20 :: (r ++ rest) := by simp
  rw [List.cons_append] at hcopy
  unfold split
  rw [hfind, hput, hput']
  simp only [Option.bind_eq_bind, Option.bind_some, hcount, hshape, hcopy, hrest]
  constructor
  · intro hfits
    rw [if_pos hfits]
    exact ⟨_, _, rfl⟩
  · intro hlong
    rw [if_neg (by omega)]
    rfl

/-- A line without a space is the command word. -/
theorem split_word {w : List UInt8} (rest cmdName args : List UInt8) (hw : 0x20 ∉ w)
    (hname : cmdName.length = 32) (hargs : args.length = 224) :
    ∃ p q, split (w ++ rest) w.length cmdName args = some (w.take 31 ++ 0 :: p, 0 :: q) := by
  have hfind := findSpace_eq [] w rest
  rw [List.nil_append, List.length_nil, if_neg hw] at hfind
  obtain ⟨cmdName', hput, hname'⟩ := put_zero (a := cmdName) (by omega) 0
  obtain ⟨p, hcopy⟩ := copyWord_name w rest (hname'.trans hname)
  obtain ⟨x, xs, rfl⟩ := List.exists_cons_of_length_pos (l := args) (by omega)
  have hput' : put (x :: xs) 0 0 = some (0 :: xs) := if_pos (Nat.succ_pos _)
  unfold split
  rw [hfind, hput, hput']
  simp only [Option.bind_eq_bind, Option.bind_some, hcopy]
  exact ⟨p, xs, rfl⟩

/-! ## Editing -/

/-- The line that a key leaves. -/
def editKey (line : List UInt8) (c : UInt8) : List UInt8 :=
  if c = 0x08 then line.dropLast else if line.length < 255 then line ++ [c] else line

/-- The line that keys leave. -/
def editLine (keys : List UInt8) : List UInt8 := keys.foldl editKey []

/-- The array holds the line. -/
structure Holds (l : Line) (line : List UInt8) : Prop where
  size : l.command.length = 256
  cmdLen : l.cmdLen = line.length
  room : line.length ≤ 255
  text : line <+: l.command

theorem Holds.key (h : Holds l line) (c : UInt8) :
    ∃ l', l.key c = some l' ∧ Holds l' (editKey line c) := by
  obtain ⟨rest, hrest⟩ := h.text
  have hlen := h.cmdLen
  have hroom := h.room
  unfold Line.key editKey
  by_cases hback : c = 0x08
  · rw [if_pos hback, if_pos hback]
    refine ⟨_, rfl, ?_⟩
    have hdrop := (List.dropLast_prefix line).trans h.text
    split_ifs with hpos
    · refine ⟨h.size, ?_, ?_, hdrop⟩
      · rw [List.length_dropLast, hlen]
      · rw [List.length_dropLast]
        omega
    · have hnil : line = [] := List.eq_nil_of_length_eq_zero (by omega)
      rw [hnil, List.dropLast_nil, ← hnil]
      exact h
  · rw [if_neg hback, if_neg hback]
    dsimp only
    rw [hlen]
    split_ifs with hlt
    · have hsize := h.size
      rw [← hrest, List.length_append] at hsize
      obtain ⟨x, xs, rfl⟩ := List.exists_cons_of_length_pos (l := rest) (by omega)
      rw [← hrest, put_append]
      refine ⟨_, rfl, ?_, ?_, ?_, ?_⟩
      · simpa using hsize
      · simp
      · simp
        omega
      · exact ⟨xs, by simp⟩
    · exact ⟨_, rfl, h.size, rfl, hroom, h.text⟩

theorem Holds.finish (h : Holds l line) : ∃ l', l.finish = some l' ∧ Holds l' line := by
  obtain ⟨rest, hrest⟩ := h.text
  have hsize := h.size
  have hroom := h.room
  rw [← hrest, List.length_append] at hsize
  obtain ⟨x, xs, rfl⟩ := List.exists_cons_of_length_pos (l := rest) (by omega)
  unfold Line.finish
  rw [h.cmdLen, ← hrest, put_append]
  refine ⟨_, rfl, ?_, rfl, hroom, ⟨0 :: xs, rfl⟩⟩
  simpa using hsize

/-- The keys of a line, and the newline. -/
theorem Holds.read {keys : List UInt8} (h : Holds l line) (hkeys : 0x0A ∉ keys) :
    ∃ l', l.read (keys ++ [0x0A]) = some (some l') ∧ Holds l' (keys.foldl editKey line) := by
  induction keys generalizing l line with
  | nil =>
      obtain ⟨l', hfinish, hholds⟩ := h.finish
      refine ⟨l', ?_, hholds⟩
      rw [List.nil_append, Line.read, if_pos rfl, hfinish, Option.map_some]
  | cons c keys ih =>
      rw [List.mem_cons, not_or] at hkeys
      obtain ⟨l₁, hkey, hholds⟩ := h.key c
      obtain ⟨l', hread, hfinal⟩ := ih hholds hkeys.2
      refine ⟨l', ?_, hfinal⟩
      rw [List.cons_append, Line.read, if_neg (Ne.symm hkeys.1), hkey]
      exact hread

/-! ## Rounds -/

/-- A line is handled: no store leaves an array, and a line with a space behind a command word of
at most 31 characters is the two words with the space between them. -/
def Handled (keys : List UInt8) : Prop :=
  ∀ a : Arrays, ∃ cmd, readCommand a (keys ++ [0x0A]) = some (some cmd) ∧
    cmd.line = editLine keys ∧
    ∀ words, cmd.words = some words → 0x20 ∈ cmd.line → cmd.line.idxOf 0x20 ≤ 31 →
      cString words.1 ++ 0x20 :: cString words.2 = cmd.line

theorem editKey_subset (line : List UInt8) (c : UInt8) :
    ∀ x ∈ editKey line c, x ∈ line ∨ x = c := by
  intro x hx
  unfold editKey at hx
  split_ifs at hx
  · exact .inl ((List.dropLast_prefix line).subset hx)
  · simpa using hx
  · exact .inl hx

theorem mem_foldl_editKey (keys line : List UInt8) :
    ∀ x ∈ keys.foldl editKey line, x ∈ line ∨ x ∈ keys := by
  induction keys generalizing line with
  | nil => exact fun x hx => .inl hx
  | cons c keys ih =>
      intro x hx
      cases ih _ x hx with
      | inl hline =>
          cases editKey_subset line c x hline with
          | inl hold => exact .inl hold
          | inr hnew => exact .inr (hnew ▸ List.mem_cons_self)
      | inr hkeys => exact .inr (List.mem_cons_of_mem _ hkeys)

/-- Without a backspace and with room for all the keys these are the line. -/
theorem foldl_editKey_of_room {keys : List UInt8} (line : List UInt8) (hback : 0x08 ∉ keys)
    (hroom : line.length + keys.length ≤ 255) : keys.foldl editKey line = line ++ keys := by
  induction keys generalizing line with
  | nil => rw [List.foldl_nil, List.append_nil]
  | cons c keys ih =>
      rw [List.mem_cons, not_or] at hback
      rw [List.length_cons] at hroom
      have hkey : editKey line c = line ++ [c] := by
        rw [editKey, if_neg (Ne.symm hback.1), if_pos (by omega)]
      rw [List.foldl_cons, hkey, ih _ hback.2 (by simp; omega), List.append_assoc,
        List.singleton_append]

theorem holds_start (a : Arrays) (screen : List Console.Op) : Holds ⟨a.command, 0, screen⟩ [] :=
  ⟨a.command_length, rfl, Nat.zero_le _, List.nil_prefix⟩

/-- A round in which the line is split. -/
theorem readCommand_eq (a : Arrays) {keys : List UInt8} (hkeys : 0x0A ∉ keys)
    (hline : editLine keys ≠ []) :
    ∃ rest, readCommand a (keys ++ [0x0A]) =
      (split (editLine keys ++ rest) (editLine keys).length a.cmdName a.args).map
        fun words => some ⟨editLine keys, some words⟩ := by
  obtain ⟨l, hread, hholds⟩ := (holds_start a [.print (Console.kernelText "C:\\> ")]).read hkeys
  obtain ⟨rest, hrest⟩ := hholds.text
  have hlen := hholds.cmdLen
  have hpos := List.length_pos_of_ne_nil hline
  refine ⟨rest, ?_⟩
  unfold readCommand
  rw [hread]
  simp only [Option.bind_eq_bind, Option.bind_some]
  rw [hlen, if_neg (by unfold editLine at hpos; omega), ← hrest, List.take_left, Option.map_eq_bind]
  rfl

/-- An empty line is not split. -/
theorem readCommand_empty (a : Arrays) {keys : List UInt8} (hkeys : 0x0A ∉ keys)
    (hline : editLine keys = []) : readCommand a (keys ++ [0x0A]) = some (some ⟨[], none⟩) := by
  obtain ⟨l, hread, hholds⟩ := (holds_start a [.print (Console.kernelText "C:\\> ")]).read hkeys
  have hlen := hholds.cmdLen
  rw [← editLine, hline, List.length_nil] at hlen
  unfold readCommand
  rw [hread]
  simp only [Option.bind_eq_bind, Option.bind_some]
  rw [if_pos hlen, hlen, List.take_zero]

/-- The arrays of a shell that has just started, cleared. -/
def Arrays.clear : Arrays where
  command := List.replicate 256 0
  cmdName := List.replicate 32 0
  args := List.replicate 224 0
  command_length := List.length_replicate
  cmdName_length := List.length_replicate
  args_length := List.length_replicate

/-- A line with a space. -/
theorem handled_space {keys w r : List UInt8} (hzero : 0 ∉ keys) (hkeys : 0x0A ∉ keys)
    (hline : editLine keys = w ++ 0x20 :: r) (hw : 0x20 ∉ w) : Handled keys ↔ r.length ≤ 223 := by
  have hne : editLine keys ≠ [] := by
    rw [hline]
    exact List.append_ne_nil_of_right_ne_nil w (List.cons_ne_nil _ r)
  have hchars : ∀ x ∈ w ++ 0x20 :: r, x ≠ 0 := by
    intro x hx heq
    rw [← hline, editLine] at hx
    cases mem_foldl_editKey keys [] x hx with
    | inl hnil => exact List.not_mem_nil hnil
    | inr hmem => exact hzero (heq ▸ hmem)
  constructor
  · intro h
    obtain ⟨cmd, hcmd, _⟩ := h Arrays.clear
    obtain ⟨rest, hread⟩ := readCommand_eq Arrays.clear hkeys hne
    by_contra hlong
    rw [hread, hline, (split_space rest _ _ hw Arrays.clear.cmdName_length
      Arrays.clear.args_length).2 (by omega)] at hcmd
    cases hcmd
  · intro hfits a
    obtain ⟨rest, hread⟩ := readCommand_eq a hkeys hne
    obtain ⟨p, q, hsplit⟩ := (split_space rest _ _ hw a.cmdName_length a.args_length).1
      (show r.length < 224 by omega)
    rw [hread, hline, hsplit]
    refine ⟨_, rfl, rfl, ?_⟩
    intro words hwords _ hshort
    rw [← Option.some_inj.mp hwords]
    dsimp only at hshort ⊢
    rw [List.idxOf_append_of_notMem hw, List.idxOf_cons_self, Nat.add_zero] at hshort
    rw [List.take_of_length_le hshort]
    rw [cString_append, cString_append]
    · exact fun hmem => hchars 0 (by simp [hmem]) rfl
    · exact fun hmem => hchars 0 (by simp [hmem]) rfl

/-- A line without a space. -/
theorem handled_word {keys : List UInt8} (hkeys : 0x0A ∉ keys) (hw : 0x20 ∉ editLine keys) :
    Handled keys := by
  intro a
  by_cases hne : editLine keys = []
  · refine ⟨_, readCommand_empty a hkeys hne, hne.symm, ?_⟩
    intro words hwords
    cases hwords
  · obtain ⟨rest, hread⟩ := readCommand_eq a hkeys hne
    obtain ⟨p, q, hsplit⟩ := split_word rest _ _ hw a.cmdName_length a.args_length
    rw [hread, hsplit]
    exact ⟨_, rfl, rfl, fun _ _ hmem => absurd hmem hw⟩

/-- A line is handled exactly if at most 223 characters stand behind its first space. -/
theorem handled_iff (keys : List UInt8) (hzero : 0 ∉ keys) (hkeys : 0x0A ∉ keys) :
    Handled keys ↔ (editLine keys).length ≤ (editLine keys).idxOf 0x20 + 224 := by
  by_cases hspace : 0x20 ∈ editLine keys
  · obtain ⟨w, r, hline, hw⟩ := List.eq_append_cons_of_mem hspace
    rw [handled_space hzero hkeys hline hw, hline, List.idxOf_append_of_notMem hw,
      List.idxOf_cons_self, List.length_append, List.length_cons]
    omega
  · rw [List.idxOf_eq_length hspace]
    exact iff_of_true (handled_word hkeys hspace) (Nat.le_add_right _ _)

/-- The keys `a`, space, and 224 times `b`. -/
def longLine : List UInt8 := 0x61 :: 0x20 :: List.replicate 224 0x62

theorem longLine_not_mem {c : UInt8} (h : c ≠ 0x61 ∧ c ≠ 0x20 ∧ c ≠ 0x62) : c ∉ longLine := by
  rw [longLine, List.mem_cons, List.mem_cons, not_or, not_or]
  exact ⟨h.1, h.2.1, fun hmem => h.2.2 (List.eq_of_mem_replicate hmem)⟩

/-- The terminator behind 224 characters is stored behind `args`. -/
theorem not_handled_longLine : 0 ∉ longLine ∧ 0x0A ∉ longLine ∧ ¬ Handled longLine := by
  have hzero : 0 ∉ longLine := longLine_not_mem (by decide)
  have hnewline : 0x0A ∉ longLine := longLine_not_mem (by decide)
  have hline : editLine longLine = [0x61] ++ 0x20 :: List.replicate 224 0x62 :=
    foldl_editKey_of_room [] (longLine_not_mem (by decide)) (by
      rw [longLine, List.length_cons, List.length_cons, List.length_replicate]
      decide)
  refine ⟨hzero, hnewline, ?_⟩
  rw [handled_space hzero hnewline hline (by decide), List.length_replicate]
  decide

/-- The keys `a`, space, `b`. -/
theorem handled_iff_short :
    Handled [0x61, 0x20, 0x62] ↔
      (editLine [0x61, 0x20, 0x62]).length ≤ (editLine [0x61, 0x20, 0x62]).idxOf 0x20 + 224 :=
  handled_iff [0x61, 0x20, 0x62] (by decide) (by decide)

end LispDos.Shell
