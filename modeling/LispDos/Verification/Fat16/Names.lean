import LispDos.Verification.Fat16.Slots
import Mathlib.Data.List.TakeWhile

/-! # Directory names

What `format_fat_name` makes of a C string: the eight characters of the base and the three of the
extension, each in upper case and padded with spaces. -/

namespace LispDos.Fat16

variable {s t : List UInt8} {width n i : ℕ}

/-! ## Fields -/

/-- A field of a directory name. -/
def field (width : ℕ) (s : List UInt8) : List UInt8 := padName width ((s.take width).map fatUpper)

theorem length_field (width : ℕ) (s : List UInt8) : (field width s).length = width :=
  length_padName width _

/-- Each character stands at its place, and spaces behind the last one. -/
theorem getElem?_field (s : List UInt8) (hi : i < width) :
    (field width s)[i]? = some (fatUpper (s.getD i 0x20)) := by
  have hspace : fatUpper 0x20 = 0x20 := by decide
  rw [field, padName, List.getElem?_take_of_lt hi]
  by_cases hs : i < s.length
  · rw [List.getElem?_append_left (by simp; omega), List.getElem?_map,
      List.getElem?_take_of_lt hi, List.getD_eq_getElem?_getD, List.getElem?_eq_getElem hs]
    rfl
  · rw [List.getElem?_append_right (by simp; omega), List.getElem?_replicate,
      if_pos (by simp; omega), List.getD_eq_getElem?_getD, List.getElem?_eq_none (by omega),
      Option.getD_none, hspace]

theorem field_eq_iff : field width s = field width t ↔
    ∀ i < width, fatUpper (s.getD i 0x20) = fatUpper (t.getD i 0x20) := by
  constructor
  · intro h i hi
    have hget := congrArg (·[i]?) h
    simp only [getElem?_field _ hi] at hget
    exact Option.some_inj.mp hget
  · intro h
    apply List.ext_getElem?
    intro i
    by_cases hi : i < width
    · rw [getElem?_field s hi, getElem?_field t hi, h i hi]
    · rw [List.getElem?_eq_none (by rw [length_field]; omega),
        List.getElem?_eq_none (by rw [length_field]; omega)]

theorem toNat_fatUpper (c : UInt8) : (fatUpper c).toNat =
    if 97 ≤ c.toNat ∧ c.toNat ≤ 122 then c.toNat - 32 else c.toNat := by
  have hsmall : (0x61 : UInt8) ≤ c ∧ c ≤ 0x7A ↔ 97 ≤ c.toNat ∧ c.toNat ≤ 122 :=
    and_congr UInt8.le_iff_toNat_le UInt8.le_iff_toNat_le
  unfold fatUpper
  simp only [hsmall]
  split_ifs with hc
  · have hle : (32 : UInt8) ≤ c := UInt8.le_iff_toNat_le.mpr (le_trans (by decide) hc.1)
    exact UInt8.toNat_sub_of_le _ _ hle
  · rfl

/-- Nothing but the character itself becomes a character below the capital letters. -/
theorem fatUpper_eq_iff {c x : UInt8} (hx : x.toNat < 65) : fatUpper c = x ↔ c = x := by
  rw [← UInt8.toNat_inj, ← UInt8.toNat_inj, toNat_fatUpper]
  split_ifs with hc
  · omega
  · exact Iff.rfl

/-- Only a space becomes a space. -/
theorem fatUpper_eq_space_iff {c : UInt8} : fatUpper c = 0x20 ↔ c = 0x20 :=
  fatUpper_eq_iff (by decide)

theorem fatUpper_fatUpper (c : UInt8) : fatUpper (fatUpper c) = fatUpper c := by
  rw [← UInt8.toNat_inj, toNat_fatUpper, if_neg]
  rw [toNat_fatUpper]
  split_ifs
  · omega
  · assumption

/-! ## The parts of a name -/

/-- The characters before the first dot. -/
def nameBase (s : List UInt8) : List UInt8 := s.take (s.idxOf 0x2E)

/-- The characters behind the first dot. -/
def nameExt (s : List UInt8) : List UInt8 := s.drop (s.idxOf 0x2E + 1)

/-- A loop of `format_fat_name` copies the characters before the first one that stops it. -/
theorem formatChars_eq (stop : UInt8 → Bool) (h : 0 ∉ s) :
    formatChars stop n s =
      (((s.takeWhile fun c => !stop c).take n).map fatUpper,
        s.drop (min n (s.takeWhile fun c => !stop c).length)) := by
  induction s generalizing n with
  | nil => cases n <;> rfl
  | cons c s ih =>
      rw [List.mem_cons, not_or] at h
      cases n with
      | zero => rw [formatChars, List.take_zero, List.map_nil, Nat.zero_min, List.drop_zero]
      | succ n =>
          rw [formatChars]
          by_cases hstop : stop c = true
          · rw [if_pos (.inr hstop), List.takeWhile_cons_of_neg (by simpa using hstop)]
            rfl
          · have hgo : ¬ (c = 0 ∨ stop c = true) := by
              rw [not_or]
              exact ⟨Ne.symm h.1, hstop⟩
            rw [if_neg hgo, ih h.2, List.takeWhile_cons_of_pos (by simpa using hstop)]
            simp only [List.length_cons, List.take_succ_cons, List.map_cons,
              Nat.add_min_add_right, List.drop_succ_cons]

theorem dropWhile_drop (p : UInt8 → Bool) (hn : n ≤ (s.takeWhile p).length) :
    (s.drop n).dropWhile p = s.dropWhile p := by
  induction n generalizing s with
  | zero => rw [List.drop_zero]
  | succ n ih =>
      cases s with
      | nil => rfl
      | cons c s =>
          by_cases hc : p c = true
          · rw [List.takeWhile_cons_of_pos hc, List.length_cons] at hn
            rw [List.drop_succ_cons, ih (by omega), List.dropWhile_cons_of_pos hc]
          · rw [List.takeWhile_cons_of_neg hc, List.length_nil] at hn
            omega

theorem takeWhile_dot (s : List UInt8) :
    (s.takeWhile fun c => !(decide (c = 0x2E))) = nameBase s := by
  rw [nameBase, List.takeWhile_eq_take_findIdx_not, List.idxOf]
  simp only [Bool.not_not, beq_eq_decide]

theorem dropWhile_dot (s : List UInt8) :
    (s.dropWhile fun c => !(decide (c = 0x2E))) = s.drop (s.idxOf 0x2E) := by
  rw [List.dropWhile_eq_drop_findIdx_not, List.idxOf]
  simp only [Bool.not_not, beq_eq_decide]

theorem dropWhile_congr {p q : UInt8 → Bool} (h : ∀ c ∈ s, p c = q c) :
    s.dropWhile p = s.dropWhile q := by
  induction s with
  | nil => rfl
  | cons c s ih =>
      have hc := h c List.mem_cons_self
      have htail := ih fun c hc => h c (List.mem_cons_of_mem _ hc)
      rw [List.dropWhile_cons, List.dropWhile_cons, hc, htail]

/-- The name of a C string. -/
theorem formatFatName_eq (h : 0 ∉ s) :
    formatFatName s = field 8 (nameBase s) ++ field 3 (nameExt s) := by
  have hbase := formatChars_eq (n := 8) (fun c => decide (c = 0x2E)) h
  have hrest : ∀ c ∈ s, (decide (c ≠ 0 ∧ c ≠ 0x2E)) = !(decide (c = 0x2E)) := by
    intro c hc
    have hzero : c ≠ 0 := fun heq => h (heq ▸ hc)
    simp [hzero]
  rw [takeWhile_dot] at hbase
  -- the rest of the base is skipped
  have hskip : (s.drop (min 8 (nameBase s).length)).dropWhile
      (fun c => decide (c ≠ 0 ∧ c ≠ 0x2E)) = s.drop (s.idxOf 0x2E) := by
    have hmem : ∀ c ∈ s.drop (min 8 (nameBase s).length),
        (decide (c ≠ 0 ∧ c ≠ 0x2E)) = !(decide (c = 0x2E)) :=
      fun c hc => hrest c (List.mem_of_mem_drop hc)
    rw [dropWhile_congr hmem, dropWhile_drop _ (by rw [takeWhile_dot]; exact Nat.min_le_right _ _),
      dropWhile_dot]
  unfold formatFatName
  rw [hbase]
  simp only [hskip]
  rw [field, field]
  refine congrArg (padName 8 (((nameBase s).take 8).map fatUpper) ++ padName 3 ·) ?_
  cases hdot : s.drop (s.idxOf 0x2E) with
  | nil =>
      have hnil : nameExt s = [] := by
        rw [nameExt, ← List.drop_drop, hdot, List.drop_nil]
      rw [hnil]
      rfl
  | cons c cs =>
      have hext : nameExt s = cs := by
        rw [nameExt, ← List.drop_drop, hdot]
        rfl
      have hlt : s.idxOf 0x2E < s.length := by
        by_contra hge
        rw [List.drop_eq_nil_of_le (not_lt.mp hge)] at hdot
        exact List.cons_ne_nil c cs hdot.symm
      have hc : c = 0x2E := by
        rw [List.drop_eq_getElem_cons hlt] at hdot
        rw [← (List.cons.inj hdot).1]
        exact List.getElem_idxOf hlt
      have hcs : 0 ∉ cs := by
        intro hmem
        apply h
        rw [← hext] at hmem
        exact List.mem_of_mem_drop hmem
      have htake : cs.takeWhile (fun _ => true) = cs :=
        List.takeWhile_eq_self_iff.mpr fun _ _ => rfl
      simp only [hc, if_true, formatChars_eq _ hcs, Bool.not_false, htake, hext]

end LispDos.Fat16
