import LispDos.Verification.Shell.Ideal

/-! # The words of a line

What the shell shows while a line is typed, and the command that it chooses, are read off the line
alone. -/

namespace LispDos.Shell

open Console

variable {a xs ys p cmdName args line keys : List UInt8} {l l' : Line} {c : UInt8}
  {builtin : Builtin} {table : List (String × Builtin)}

/-! ## The screen -/

theorem Holds.key_screen (h : Holds l line) (hkey : l.key c = some l') :
    l'.screen = l.screen ++ Ideal.echoKey line c := by
  have hline : line = [] ↔ l.cmdLen = 0 := by rw [h.cmdLen, List.length_eq_zero_iff]
  rw [Line.key] at hkey
  simp only [Ideal.echoKey, hline]
  by_cases hback : c = 0x08
  · rw [if_pos hback] at hkey
    obtain rfl := Option.some.inj hkey
    by_cases hempty : l.cmdLen = 0
    · rw [if_neg (by omega), if_pos ⟨hback, hempty⟩, List.append_nil]
    · rw [if_pos (by omega), if_neg fun hand => hempty hand.2, hback]
  · rw [if_neg hback] at hkey
    rw [if_neg fun hand => hback hand.1]
    dsimp only at hkey
    split_ifs at hkey with hroom
    · obtain ⟨command, -, hsome⟩ := Option.bind_eq_some_iff.mp hkey
      obtain rfl := Option.some.inj hsome
      rfl
    · obtain rfl := Option.some.inj hkey
      rfl

/-- The keys of a line are shown one after the other. -/
theorem Holds.read_screen (h : Holds l line) (hkeys : 0x0A ∉ keys)
    (hread : l.read (keys ++ [0x0A]) = some (some l')) :
    l'.screen = l.screen ++ (Ideal.echoKeys line keys ++ [.putchar 0x0A]) ∧
      Holds l' (keys.foldl editKey line) := by
  induction keys generalizing l line with
  | nil =>
      obtain ⟨m, hm, hholds⟩ := h.finish
      rw [List.nil_append, Line.read, if_pos rfl, hm] at hread
      obtain rfl : m = l' := by simpa using hread
      refine ⟨?_, hholds⟩
      rw [Line.finish] at hm
      obtain ⟨command, -, hsome⟩ := Option.bind_eq_some_iff.mp hm
      obtain rfl := Option.some.inj hsome
      rfl
  | cons c keys ih =>
      rw [List.mem_cons, not_or] at hkeys
      obtain ⟨m, hm, hholds⟩ := h.key c
      rw [List.cons_append, Line.read, if_neg (Ne.symm hkeys.1), hm] at hread
      obtain ⟨hscreen, hfinal⟩ := ih hholds hkeys.2 hread
      refine ⟨?_, hfinal⟩
      rw [hscreen, h.key_screen hm, Ideal.echoKeys, List.append_assoc, List.append_assoc]

/-! ## The words -/

theorem zero_not_mem_cString (a : List UInt8) : 0 ∉ cString a := by
  intro hzero
  simpa using List.mem_takeWhile_imp hzero

/-- The string ends at the terminator, or before it. -/
theorem cString_terminated (xs p : List UInt8) : cString (xs ++ 0 :: p) = cString xs := by
  induction xs with
  | nil => rfl
  | cons x xs ih =>
      rw [cString, cString, List.cons_append, List.takeWhile_cons, List.takeWhile_cons]
      split
      · exact congrArg (x :: ·) ih
      · rfl

/-- A line up to its first space, and behind it. -/
theorem eq_of_space_mem (h : 0x20 ∈ line) : line =
    line.takeWhile (· ≠ 0x20) ++ 0x20 :: (line.dropWhile (· ≠ 0x20)).drop 1 := by
  have hne : line.dropWhile (· ≠ 0x20) ≠ [] := by
    intro hnil
    have hall := List.dropWhile_eq_nil_iff.mp hnil 0x20 h
    simp at hall
  obtain ⟨x, r, hx⟩ := List.exists_cons_of_ne_nil hne
  have hhead : x = 0x20 := by
    have hnot := List.head_dropWhile_not (p := fun y : UInt8 => decide (y ≠ 0x20)) (l := line) hne
    simp only [hx, List.head_cons] at hnot
    simpa using hnot
  have hsplit := List.takeWhile_append_dropWhile (p := fun y : UInt8 => decide (y ≠ 0x20)) (l := line)
  rw [hx, hhead] at hsplit
  rw [hx, List.drop_one, List.tail_cons]
  exact hsplit.symm

theorem space_not_mem_takeWhile (line : List UInt8) : 0x20 ∉ line.takeWhile (· ≠ 0x20) := by
  intro hspace
  simpa using List.mem_takeWhile_imp hspace

/-- The arrays hold the command word and the argument of the line. -/
theorem words_of_split {rest : List UInt8} (hname : cmdName.length = 32) (hargs : args.length = 224)
    {name arg : List UInt8} (h : split (line ++ rest) line.length cmdName args = some (name, arg)) :
    (∃ xs p, name = xs ++ 0 :: p ∧ cString xs = Ideal.commandWord line) ∧
      cString arg = Ideal.argument line := by
  have hw := space_not_mem_takeWhile line
  rw [Ideal.commandWord, Ideal.argument]
  by_cases hspace : 0x20 ∈ line
  · have heq := eq_of_space_mem hspace
    generalize line.takeWhile (· ≠ 0x20) = w at heq hw ⊢
    generalize (line.dropWhile (· ≠ 0x20)).drop 1 = r at heq ⊢
    subst heq
    obtain ⟨hfits, hlong⟩ := split_space (r := r) rest cmdName args hw hname hargs
    rcases Nat.lt_or_ge r.length 224 with hlt | hge
    · obtain ⟨p, q, hsplit⟩ := hfits hlt
      rw [hsplit] at h
      cases h
      exact ⟨⟨_, p, rfl, rfl⟩, cString_terminated r q⟩
    · rw [hlong hge] at h
      cases h
  · obtain ⟨p, q, hsplit⟩ := split_word rest cmdName args hspace hname hargs
    have hall : ∀ y ∈ line, decide (y ≠ 0x20) = true := fun y hy =>
      decide_eq_true fun heq => hspace (heq ▸ hy)
    rw [hsplit] at h
    cases h
    rw [List.takeWhile_eq_self_iff.mpr hall, List.dropWhile_eq_nil_iff.mpr hall]
    exact ⟨⟨_, p, rfl, rfl⟩, rfl⟩

/-! ## The command -/

/-- `strcmp` tells whether the string in the array is the other one. -/
theorem strcmp_eq (xs p : List UInt8) (hys : 0 ∉ ys) : ∃ v, strcmp (xs ++ 0 :: p) (ys ++ [0]) = some v ∧
    (v = 0 ↔ cString xs = ys) := by
  induction ys generalizing xs with
  | nil =>
      cases xs with
      | nil => exact ⟨0, rfl, iff_of_true rfl rfl⟩
      | cons x xs =>
          refine ⟨_, if_neg fun h => h.1 h.2, ?_⟩
          rw [cString, List.takeWhile_cons]
          by_cases hx : x = 0
          · simp [hx]
          · have hnat : x.toNat ≠ 0 := fun h => hx (UInt8.toNat_inj.mp h)
            simp [hx, hnat]
  | cons y ys ih =>
      rw [List.mem_cons, not_or] at hys
      cases xs with
      | nil =>
          refine ⟨_, if_neg fun h => h.1 rfl, iff_of_false ?_ (List.cons_ne_nil y ys).symm⟩
          intro hv
          have hnat : y.toNat = 0 := by simpa using hv
          exact hys.1 (UInt8.toNat_inj.mp hnat.symm)
      | cons x xs =>
          by_cases heq : x ≠ 0 ∧ x = y
          · obtain ⟨v, hv, hiff⟩ := ih xs hys.2
            refine ⟨v, (if_pos heq).trans hv, ?_⟩
            rw [hiff, cString, cString, List.takeWhile_cons, if_pos (decide_eq_true heq.1), heq.2]
            simp
          · refine ⟨_, if_neg heq, iff_of_false ?_ ?_⟩
            · intro hv
              have hnat : x.toNat = y.toNat := by omega
              have hxy := UInt8.toNat_inj.mp hnat
              exact heq ⟨hxy ▸ Ne.symm hys.1, hxy⟩
            · intro hstring
              rw [cString, List.takeWhile_cons] at hstring
              split at hstring
              · rename_i hx
                exact heq ⟨by simpa using hx, (List.cons.inj hstring).1⟩
              · cases hstring

/-- The chain of comparisons takes the first name that is the command word. -/
theorem select_eq (hnames : ∀ entry ∈ table, 0 ∉ kernelText entry.1) :
    select (xs ++ 0 :: p) table =
      some (((table.find? fun entry => kernelText entry.1 = cString xs).map Prod.snd).getD .invalid) := by
  induction table with
  | nil => rfl
  | cons entry table ih =>
      rw [List.forall_mem_cons] at hnames
      obtain ⟨v, hv, hiff⟩ := strcmp_eq xs p hnames.1
      rw [select, hv, Option.bind_eq_bind, Option.bind_some, List.find?_cons]
      by_cases heq : cString xs = kernelText entry.1
      · rw [if_pos (hiff.mpr heq), decide_eq_true heq.symm]
        rfl
      · rw [if_neg (mt hiff.mp heq), decide_eq_false (Ne.symm heq)]
        exact ih hnames.2

theorem select_comparisons (h : select (xs ++ 0 :: p) comparisons = some builtin) :
    builtin = Ideal.builtin (cString xs) := by
  rw [select_eq (by decide)] at h
  exact (Option.some.inj h).symm

end LispDos.Shell
