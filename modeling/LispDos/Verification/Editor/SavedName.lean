import LispDos.Tools.Editor
import LispDos.Verification.Fat16.Names

/-! # The file that the editor saves

The file is loaded under the whole argument and saved under a copy of 31 characters at most. -/

namespace LispDos.Edit

open Fat16

variable {filename : List UInt8} {args : Option (List UInt8)} {n i : ℕ}

theorem copyString_eq_take (h : 0 ∉ filename) (n : ℕ) :
    copyString n filename = filename.take n := by
  induction filename generalizing n with
  | nil => cases n <;> rfl
  | cons c cs ih =>
      rw [List.mem_cons, not_or] at h
      cases n with
      | zero => rfl
      | succ n => rw [copyString, if_neg (Ne.symm h.1), ih h.2, List.take_succ_cons]

/-- The name that is loaded is a string. -/
theorem startFilename_not_mem (h : ∀ s ∈ args, 0 ∉ s) : 0 ∉ startFilename args := by
  have hdefault : 0 ∉ ascii "buffer.txt" := by decide
  cases args with
  | none => exact hdefault
  | some s =>
      cases s with
      | nil => exact hdefault
      | cons c cs =>
          have hmem := h _ rfl
          have hc : c ≠ 0 := fun heq => hmem (heq ▸ List.mem_cons_self)
          rw [startFilename, if_pos hc]
          exact hmem

/-! ## A name cut off -/

theorem idxOf_take (s : List UInt8) (c : UInt8) (n : ℕ) :
    (s.take n).idxOf c = min (s.idxOf c) n := by
  induction s generalizing n with
  | nil => simp
  | cons x s ih =>
      cases n with
      | zero => simp
      | succ n =>
          rw [List.take_succ_cons, List.idxOf_cons, List.idxOf_cons]
          by_cases hx : (x == c) = true
          · rw [hx]
            rfl
          · rw [Bool.eq_false_iff.mpr hx]
            simp only [cond_false, ih, Nat.add_min_add_right]

theorem nameBase_take (s : List UInt8) (n : ℕ) : nameBase (s.take n) = (nameBase s).take n := by
  rw [nameBase, idxOf_take, List.take_take, nameBase, List.take_take]
  congr 1
  omega

/-- A character of the extension stands in the name behind the dot. -/
theorem getD_nameExt (s : List UInt8) (i : ℕ) :
    (nameExt s).getD i 0x20 = s.getD (s.idxOf 0x2E + 1 + i) 0x20 := by
  rw [List.getD_eq_getElem?_getD, List.getD_eq_getElem?_getD, nameExt, List.getElem?_drop]

theorem getD_nameExt_take (s : List UInt8) (n i : ℕ) :
    (nameExt (s.take n)).getD i 0x20 =
      if s.idxOf 0x2E + 1 + i < n then s.getD (s.idxOf 0x2E + 1 + i) 0x20 else 0x20 := by
  rw [getD_nameExt, idxOf_take, List.getD_eq_getElem?_getD, List.getD_eq_getElem?_getD]
  split_ifs with hin
  · rw [Nat.min_eq_left (by omega), List.getElem?_take_of_lt hin]
  · rw [List.getElem?_eq_none, Option.getD_none]
    rw [List.length_take]
    omega

/-- The first 31 characters give the same directory name exactly if the extension does not reach
behind them, spaces apart. -/
theorem formatFatName_take_iff (h : 0 ∉ filename) (hn : 8 ≤ n) :
    formatFatName (filename.take n) = formatFatName filename ↔
      ∀ i, filename.idxOf 0x2E < i → i ≤ filename.idxOf 0x2E + 3 → n ≤ i →
        filename.getD i 0x20 = 0x20 := by
  have htake : 0 ∉ filename.take n := fun hmem => h (List.mem_of_mem_take hmem)
  have hbase : field 8 (nameBase (filename.take n)) = field 8 (nameBase filename) := by
    rw [nameBase_take, field, List.take_take, Nat.min_eq_left hn, field]
  have hspace : fatUpper 0x20 = 0x20 := by decide
  rw [formatFatName_eq htake, formatFatName_eq h, hbase, List.append_cancel_left_eq, field_eq_iff]
  constructor
  · intro hext i hdot hlast hout
    have hi := hext (i - (filename.idxOf 0x2E + 1)) (by omega)
    have hplace : filename.idxOf 0x2E + 1 + (i - (filename.idxOf 0x2E + 1)) = i := by omega
    rw [getD_nameExt_take, getD_nameExt, hplace, if_neg (by omega), hspace] at hi
    exact fatUpper_eq_space_iff.mp hi.symm
  · intro hspaces i hi
    rw [getD_nameExt_take, getD_nameExt]
    split_ifs with hin
    · rfl
    · rw [hspaces _ (by omega) (by omega) (by omega)]

/-! ## Loading and saving -/

/-- The editor saves to the directory name that it has loaded from. -/
def SavesOpened (args : Option (List UInt8)) : Prop :=
  formatFatName (currentFilename args) = formatFatName (startFilename args)

/-- The editor saves the file that it has opened exactly if none of the three characters behind
the first dot stands behind the 31st character of the name, spaces apart. -/
theorem savesOpened_iff (args : Option (List UInt8)) (h : ∀ s ∈ args, 0 ∉ s) :
    SavesOpened args ↔
      ∀ i, (startFilename args).idxOf 0x2E < i → i ≤ (startFilename args).idxOf 0x2E + 3 → 31 ≤ i →
        (startFilename args).getD i 0x20 = 0x20 := by
  have hname := startFilename_not_mem h
  unfold SavesOpened currentFilename kstrncpy
  rw [copyString_eq_take hname]
  exact formatFatName_take_iff hname (by decide)

/-- Thirty-one times the letter `A`, and then `.T`. -/
def longName : List UInt8 := List.replicate 31 0x41 ++ [0x2E, 0x54]

/-- The file `AAAAAAAA.T` is opened, and saved as `AAAAAAAA`. -/
theorem not_savesOpened_longName :
    longName.length < 224 ∧ 0 ∉ longName ∧ ¬ SavesOpened (some longName) := by
  refine ⟨by decide, by decide, ?_⟩
  unfold SavesOpened
  decide

/-- The name `A.T`. -/
theorem savesOpened_iff_short : SavesOpened (some [0x41, 0x2E, 0x54]) ↔
    ∀ i, (startFilename (some [0x41, 0x2E, 0x54])).idxOf 0x2E < i →
      i ≤ (startFilename (some [0x41, 0x2E, 0x54])).idxOf 0x2E + 3 → 31 ≤ i →
        (startFilename (some [0x41, 0x2E, 0x54])).getD i 0x20 = 0x20 := by
  refine savesOpened_iff (some [0x41, 0x2E, 0x54]) ?_
  intro s hs
  rw [← Option.some_inj.mp hs]
  decide

end LispDos.Edit
