import LispDos.Tools.Editor
import Mathlib.Data.List.DropRight
import Mathlib.Data.List.Induction
import Mathlib.Data.List.TakeWhile

/-! # The loops of the editor

What the scans find in the text, and what the two shifts do to it. -/

namespace LispDos.Edit

variable {buffer xs ys zs : List UInt8} {c : UInt8} {n p : ℕ}

/-! ## Accesses -/

theorem load_append (xs : List UInt8) (c : UInt8) (ys : List UInt8) :
    load (xs ++ c :: ys) xs.length = some c := by
  rw [load, List.getElem?_append_right le_rfl, Nat.sub_self, List.getElem?_cons_zero]

theorem store_append (xs : List UInt8) (c c' : UInt8) (ys : List UInt8) :
    store (xs ++ c :: ys) xs.length c' = some (xs ++ c' :: ys) := by
  rw [store, if_pos (by simp), List.set_append_right _ _ le_rfl, Nat.sub_self, List.set_cons_zero]

/-! ## Lines -/

/-- The part of a line before a position. -/
def lastLine (xs : List UInt8) : List UInt8 := xs.rtakeWhile (· ≠ newline)

/-- The rest of a line from a position on. -/
def firstLine (xs : List UInt8) : List UInt8 := xs.takeWhile (· ≠ newline)

/-- The text before the newline that precedes the last line. -/
def linesAbove (xs : List UInt8) : List UInt8 := (xs.rdropWhile (· ≠ newline)).dropLast

/-- The text after the newline that ends the first line. -/
def linesBelow (xs : List UInt8) : List UInt8 := (xs.dropWhile (· ≠ newline)).tail

theorem lastLine_of_not_mem (h : newline ∉ xs) : lastLine xs = xs := by
  rw [lastLine, List.rtakeWhile_eq_self_iff]
  intro c hc
  simpa using fun he : c = newline => h (he ▸ hc)

theorem linesAbove_append (h : newline ∈ xs) : linesAbove xs ++ newline :: lastLine xs = xs := by
  have hne : xs.rdropWhile (· ≠ newline) ≠ [] := by
    rw [ne_eq, List.rdropWhile_eq_nil_iff]
    intro hall
    simpa using hall newline h
  have hlast : (xs.rdropWhile (· ≠ newline)).getLast hne = newline := by
    simpa using List.rdropWhile_last_not (· ≠ newline) xs hne
  have hsplit := List.dropLast_append_getLast hne
  rw [hlast] at hsplit
  calc linesAbove xs ++ newline :: lastLine xs
      = linesAbove xs ++ [newline] ++ lastLine xs := by simp
    _ = xs.rdropWhile (· ≠ newline) ++ lastLine xs := by rw [linesAbove, hsplit]
    _ = xs := List.rdropWhile_append_rtakeWhile

theorem firstLine_append (h : newline ∈ xs) : firstLine xs ++ newline :: linesBelow xs = xs := by
  have hne : xs.dropWhile (· ≠ newline) ≠ [] := by
    rw [ne_eq, List.dropWhile_eq_nil_iff]
    intro hall
    simpa using hall newline h
  obtain ⟨c, cs, hdrop⟩ := List.exists_cons_of_ne_nil hne
  have hc : c = newline := by
    have hhead := List.head_dropWhile_not (· ≠ newline) hne
    simp only [hdrop, List.head_cons] at hhead
    simpa using hhead
  calc firstLine xs ++ newline :: linesBelow xs
      = xs.takeWhile (· ≠ newline) ++ xs.dropWhile (· ≠ newline) := by
        rw [firstLine, linesBelow, hdrop, List.tail_cons, hc]
    _ = xs := List.takeWhile_append_dropWhile

theorem firstLine_of_not_mem (h : newline ∉ xs) : firstLine xs = xs := by
  rw [firstLine, List.takeWhile_eq_self_iff]
  intro c hc
  simpa using fun he : c = newline => h (he ▸ hc)

theorem firstLine_cons_newline {c : UInt8} (hc : c = newline) (ys : List UInt8) :
    firstLine (c :: ys) = [] :=
  List.takeWhile_cons_of_neg (by simpa using hc)

theorem firstLine_cons_of_ne {c : UInt8} (hc : c ≠ newline) (ys : List UInt8) :
    firstLine (c :: ys) = c :: firstLine ys :=
  List.takeWhile_cons_of_pos (by simpa using hc)

theorem lastLine_concat_newline {c : UInt8} (hc : c = newline) (xs : List UInt8) :
    lastLine (xs ++ [c]) = [] := by
  rw [lastLine, List.rtakeWhile_concat_neg _ _ _ (by simpa using hc)]

theorem lastLine_concat_of_ne {c : UInt8} (hc : c ≠ newline) (xs : List UInt8) :
    lastLine (xs ++ [c]) = lastLine xs ++ [c] := by
  rw [lastLine, List.rtakeWhile_concat_pos _ _ _ (by simpa using hc)]
  rfl

/-! ## Scans -/

theorem scanBack_eq (xs ys : List UInt8) :
    scanBack (xs ++ ys) xs.length =
      some ((lastLine xs).length, xs.length - (lastLine xs).length) := by
  induction xs using List.reverseRecOn generalizing ys with
  | nil => simp [scanBack, lastLine]
  | append_singleton xs c ih =>
      rw [List.length_append, List.length_singleton, scanBack, List.append_assoc,
        List.singleton_append, load_append]
      by_cases hc : c = newline
      · rw [lastLine_concat_newline hc]
        simp [hc]
      · have hle : (lastLine xs).length ≤ xs.length := (List.rtakeWhile_suffix _ xs).length_le
        rw [lastLine_concat_of_ne hc, List.length_append, List.length_singleton]
        simp only [Option.bind_eq_bind, Option.bind_some, if_neg hc, ih (c :: ys)]
        congr 2
        omega

theorem scanForward_eq (xs ys zs : List UInt8) :
    scanForward (xs ++ ys ++ zs) ys.length xs.length =
      some (xs.length + (firstLine ys).length) := by
  induction ys generalizing xs with
  | nil => rfl
  | cons c ys ih =>
      rw [List.length_cons, scanForward, List.append_assoc, List.cons_append, load_append]
      by_cases hc : c = newline
      · rw [firstLine_cons_newline hc]
        simp [hc]
      · have hrest := ih (xs ++ [c])
        simp only [List.length_append, List.length_singleton, List.append_assoc,
          List.cons_append, List.nil_append] at hrest
        simp only [Option.bind_eq_bind, Option.bind_some, if_neg hc, hrest,
          firstLine_cons_of_ne hc, List.length_cons]
        congr 1
        omega

theorem stepTo_eq (p : ℕ) : ∀ n newPos, newPos ≤ p → stepTo p n newPos = min (newPos + n) p := by
  intro n
  induction n with
  | zero =>
      intro newPos h
      rw [stepTo]
      omega
  | succ n ih =>
      intro newPos h
      rw [stepTo]
      split_ifs with hp
      · omega
      · rw [ih _ (by omega)]
        omega

theorem stepLine_eq (xs ys zs : List UInt8) (n : ℕ) :
    stepLine (xs ++ ys ++ zs) (xs.length + ys.length) n xs.length =
      some (xs.length + min n (firstLine ys).length) := by
  induction n generalizing xs ys with
  | zero => simp [stepLine]
  | succ n ih =>
      rw [stepLine]
      cases ys with
      | nil => simp [firstLine]
      | cons c ys =>
          rw [if_neg (by simp), List.append_assoc, List.cons_append, load_append]
          by_cases hc : c = newline
          · rw [firstLine_cons_newline hc]
            simp [hc]
          · have hrest := ih (xs ++ [c]) ys
            have hlength : xs.length + 1 + ys.length = xs.length + (c :: ys).length := by
              rw [List.length_cons]
              omega
            simp only [List.length_append, List.length_singleton, List.append_assoc,
              List.cons_append, List.nil_append, hlength] at hrest
            simp only [Option.bind_eq_bind, Option.bind_some, if_neg hc, hrest,
              firstLine_cons_of_ne hc]
            congr 1
            rw [List.length_cons]
            omega

/-! ## Shifts -/

/-- The last character is there twice after the shift. -/
theorem shiftLeft_eq (xs : List UInt8) (c : UInt8) (ys zs : List UInt8) :
    ∃ c', shiftLeft ys.length (xs.length + 1) (xs ++ c :: (ys ++ zs)) =
      some (xs ++ (ys ++ c' :: zs)) := by
  induction ys generalizing xs c with
  | nil => exact ⟨c, rfl⟩
  | cons y ys ih =>
      obtain ⟨c', hrest⟩ := ih (xs ++ [y]) y
      refine ⟨c', ?_⟩
      have hload : load (xs ++ c :: (y :: ys ++ zs)) (xs.length + 1) = some y := by
        have := load_append (xs ++ [c]) y (ys ++ zs)
        simpa using this
      rw [List.length_cons, shiftLeft, hload]
      simp only [Option.bind_eq_bind, Option.bind_some, Nat.add_sub_cancel, store_append]
      simpa using hrest

/-- The first character is there twice after the shift. -/
theorem shiftRight_eq (xs ys : List UInt8) (z : UInt8) (zs : List UInt8) :
    ∃ c', shiftRight ys.length (xs.length + ys.length) (xs ++ (ys ++ z :: zs)) =
      some (xs ++ c' :: (ys ++ zs)) := by
  induction ys using List.reverseRecOn generalizing z zs with
  | nil => exact ⟨z, rfl⟩
  | append_singleton ys y ih =>
      obtain ⟨c', hrest⟩ := ih y (y :: zs)
      refine ⟨c', ?_⟩
      have hload : load (xs ++ (ys ++ [y] ++ z :: zs)) (xs.length + ys.length) = some y := by
        have := load_append (xs ++ ys) y (z :: zs)
        simpa using this
      have hstore : store (xs ++ (ys ++ [y] ++ z :: zs)) (xs.length + (ys.length + 1)) y =
          some (xs ++ (ys ++ y :: y :: zs)) := by
        have := store_append (xs ++ ys ++ [y]) z y zs
        simpa [Nat.add_assoc] using this
      rw [List.length_append, List.length_singleton, shiftRight, ← Nat.add_assoc,
        Nat.add_sub_cancel, hload, Nat.add_assoc]
      simp only [Option.bind_eq_bind, Option.bind_some, hstore]
      simpa using hrest

end LispDos.Edit
