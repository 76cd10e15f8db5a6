import LispDos.Tools.LispEval
import LispDos.Verification.Lisp.Atoms

/-! # Printed numbers

`print_int` stores the digits of a number in reverse and prints them from the end. What it
prints is a literal of the number, except for the smallest one. -/

namespace LispDos.Lisp

variable {n : ℕ} {x : BitVec 32}

/-! ## The digit loop -/

theorem storeDigits_pos (hn : 0 < n) (buf : List UInt8) :
    storeDigits n buf = storeDigits (n / 10) (buf ++ [UInt8.ofNat (n % 10 + 0x30)]) := by
  rw [storeDigits, if_neg (by omega)]

theorem storeDigits_zero (buf : List UInt8) : storeDigits 0 buf = buf := by
  rw [storeDigits, if_pos rfl]

theorem storeDigits_append (n : ℕ) (buf : List UInt8) :
    storeDigits n buf = buf ++ storeDigits n [] := by
  induction n using Nat.strong_induction_on generalizing buf with
  | _ n ih =>
      rcases Nat.eq_zero_or_pos n with rfl | hn
      · rw [storeDigits_zero, storeDigits_zero, List.append_nil]
      · have hlt : n / 10 < n := Nat.div_lt_self hn (by decide)
        rw [storeDigits_pos hn, storeDigits_pos hn [], ih _ hlt, ih _ hlt ([] ++ _),
          List.nil_append, List.append_assoc]

/-- The digits as they are printed. -/
def printedDigits (n : ℕ) : List UInt8 := (storeDigits n []).reverse

theorem printedDigits_pos (hn : 0 < n) :
    printedDigits n = printedDigits (n / 10) ++ [UInt8.ofNat (n % 10 + 0x30)] := by
  rw [printedDigits, storeDigits_pos hn, storeDigits_append, List.nil_append, List.reverse_append]
  rfl

theorem digitChar_facts : ∀ d < 10, UInt8.ofNat (Nat.digitChar d).toNat = UInt8.ofNat (d + 0x30) ∧
    isDigit (UInt8.ofNat (d + 0x30)) = true ∧ (UInt8.ofNat (d + 0x30)).toNat - 0x30 = d := by
  decide

/-- What is printed is the decimal notation. -/
theorem printedDigits_eq (hn : 0 < n) :
    (Nat.toDigits 10 n).map (fun c => UInt8.ofNat c.toNat) = printedDigits n := by
  induction n using Nat.strong_induction_on with
  | _ n ih =>
      obtain ⟨hchar, _, _⟩ := digitChar_facts (n % 10) (Nat.mod_lt n (by decide))
      rw [printedDigits_pos hn, Nat.toDigits_eq_if (by decide)]
      by_cases hsmall : n < 10
      · have hzero : n / 10 = 0 := Nat.div_eq_of_lt hsmall
        rw [Nat.mod_eq_of_lt hsmall] at hchar ⊢
        rw [if_pos hsmall, List.map_singleton, hchar, hzero, printedDigits, storeDigits_zero]
        rfl
      · rw [if_neg hsmall, List.map_append, List.map_singleton, hchar,
          ih (n / 10) (Nat.div_lt_self hn (by decide)) (by omega)]

theorem decimalValue_printedDigits (n : ℕ) : decimalValue (printedDigits n) = n := by
  induction n using Nat.strong_induction_on with
  | _ n ih =>
      rcases Nat.eq_zero_or_pos n with rfl | hn
      · rw [printedDigits, storeDigits_zero]
        rfl
      · obtain ⟨_, _, hvalue⟩ := digitChar_facts (n % 10) (Nat.mod_lt n (by decide))
        rw [printedDigits_pos hn, decimalValue_append, ih _ (Nat.div_lt_self hn (by decide)),
          List.length_singleton, decimalValue, List.foldl_cons, List.foldl_nil, hvalue]
        omega

theorem printedDigits_digit (n : ℕ) : ∀ c ∈ printedDigits n, isDigit c = true := by
  induction n using Nat.strong_induction_on with
  | _ n ih =>
      rcases Nat.eq_zero_or_pos n with rfl | hn
      · simp [printedDigits, storeDigits_zero]
      · intro c hc
        rw [printedDigits_pos hn] at hc
        rcases List.mem_append.mp hc with hc | hc
        · exact ih _ (Nat.div_lt_self hn (by decide)) c hc
        · rw [List.mem_singleton.mp hc]
          exact (digitChar_facts (n % 10) (Nat.mod_lt n (by decide))).2.1

/-- A number below `10 ^ k` takes `k` places of the buffer at most. -/
theorem length_storeDigits {k : ℕ} (h : n < 10 ^ k) : (storeDigits n []).length ≤ k := by
  induction k generalizing n with
  | zero =>
      obtain rfl : n = 0 := by omega
      rw [storeDigits_zero]
      rfl
  | succ k ih =>
      rcases Nat.eq_zero_or_pos n with rfl | hn
      · rw [storeDigits_zero]
        exact Nat.zero_le _
      · rw [Nat.pow_succ] at h
        have hrest := ih (n := n / 10) (by omega)
        rw [storeDigits_pos hn, storeDigits_append, List.nil_append, List.length_append,
          List.length_singleton]
        omega

/-! ## Numbers -/

/-- The number whose digits are printed. -/
def magnitude (x : BitVec 32) : BitVec 32 := if x.toInt < 0 then -x else x

/-- What a call of `print_int` stores in its buffer. -/
def digitBuffer (x : BitVec 32) : List UInt8 := storeDigits (magnitude x).toInt.toNat []

theorem magnitude_eq_zero : magnitude x = 0 ↔ x = 0 := by
  rw [magnitude]
  split
  · exact BitVec.neg_eq_zero_iff
  · rfl

theorem toInt_eq_toNat (h : 0 ≤ x.toInt) : x.toInt = x.toNat := by
  apply BitVec.toInt_eq_toNat_of_lt
  by_contra hge
  have hneg := BitVec.toInt_neg_iff.mpr (Nat.le_of_not_lt hge)
  omega

/-- What is printed is the sign, and the buffer from its end. -/
theorem printInt_eq (x : BitVec 32) :
    printInt x = (if x.toInt < 0 then [0x2D] else []) ++
      (if x = 0 then [0x30] else (digitBuffer x).reverse) := by
  have hprint : printInt x = if magnitude x = 0 then (if x.toInt < 0 then [0x2D] else []) ++ [0x30]
      else if (magnitude x).toInt < 0 then (if x.toInt < 0 then [0x2D] else [])
      else (if x.toInt < 0 then [0x2D] else []) ++
        (Nat.toDigits 10 (magnitude x).toNat).map fun c => UInt8.ofNat c.toNat := rfl
  rw [hprint, digitBuffer]
  by_cases hzero : x = 0
  · rw [if_pos (magnitude_eq_zero.mpr hzero), if_pos hzero]
  · rw [if_neg fun h => hzero (magnitude_eq_zero.mp h), if_neg hzero]
    by_cases hneg : (magnitude x).toInt < 0
    · rw [if_pos hneg, Int.toNat_of_nonpos hneg.le, storeDigits_zero, List.reverse_nil,
        List.append_nil]
    · have hvalue := toInt_eq_toNat (Int.not_lt.mp hneg)
      have hpos : 0 < (magnitude x).toNat := by
        rw [Nat.pos_iff_ne_zero]
        intro h
        exact hzero (magnitude_eq_zero.mp (BitVec.eq_of_toNat_eq h))
      rw [if_neg hneg, printedDigits_eq hpos, hvalue, Int.toNat_natCast]
      rfl

theorem length_digitBuffer (x : BitVec 32) : (digitBuffer x).length ≤ 10 := by
  apply length_storeDigits
  have hrange := toInt_range (magnitude x)
  omega

/-- The buffer holds the digits of the absolute value. -/
theorem digitBuffer_eq (h : x ≠ BitVec.intMin 32) :
    (digitBuffer x).reverse = printedDigits x.toInt.natAbs := by
  rw [digitBuffer, printedDigits, magnitude]
  by_cases hneg : x.toInt < 0
  · rw [if_pos hneg, BitVec.toInt_neg_of_ne_intMin h]
    congr 2
    omega
  · rw [if_neg hneg]
    congr 2
    omega

/-- What is printed is a literal of the number. -/
theorem printInt_literal (h : x ≠ BitVec.intMin 32) : Literal (printInt x) x.toInt := by
  have hdigits := digitBuffer_eq h
  rw [printInt_eq]
  by_cases hzero : x = 0
  · subst hzero
    exact .plus [0x30] (by decide) (List.forall_mem_singleton.mpr (by decide))
  · have hne : x.toInt.natAbs ≠ 0 := by
      intro h
      exact hzero (BitVec.eq_of_toInt_eq (Int.natAbs_eq_zero.mp h))
    have hvalue := decimalValue_printedDigits x.toInt.natAbs
    have hprinted : printedDigits x.toInt.natAbs ≠ [] := by
      intro h
      rw [h] at hvalue
      exact hne hvalue.symm
    rw [if_neg hzero, hdigits]
    by_cases hneg : x.toInt < 0
    · have hlit := Literal.minus _ hprinted (printedDigits_digit x.toInt.natAbs)
      rw [hvalue, Int.ofNat_natAbs_of_nonpos hneg.le, Int.neg_neg] at hlit
      rw [if_pos hneg]
      exact hlit
    · have hlit := Literal.plus _ hprinted (printedDigits_digit x.toInt.natAbs)
      rw [hvalue, Int.natAbs_of_nonneg (Int.not_lt.mp hneg)] at hlit
      rw [if_neg hneg]
      exact hlit

theorem length_printInt (x : BitVec 32) : (printInt x).length ≤ 11 := by
  have hbuffer := length_digitBuffer x
  rw [printInt_eq]
  split <;> split <;> simp only [List.length_append, List.length_reverse, List.length_cons,
    List.length_nil] <;> omega

/-! ## Reading back -/

/-- What is printed is read back as the number, up to the delimiter that follows. -/
def ReadsBack (x : BitVec 32) : Prop :=
  ∀ rest s, isDelim (cur rest) = true → s.src = printInt x ++ rest →
    readAtom s = newLvalNum x { s with src := rest }

theorem readsBack_of_ne (h : x ≠ BitVec.intMin 32) : ReadsBack x := by
  intro rest s hdelim hsrc
  have hlit := printInt_literal h
  have hlen := length_printInt x
  rw [readAtom_run hlit.ne_nil hlit.not_delim hdelim hsrc, hlit.atomNode (by omega),
    BitVec.ofInt_toInt]
  rfl

/-- The smallest number is printed as a sign alone, which is a symbol. -/
theorem intMin_not_readsBack : ¬ ReadsBack (BitVec.intMin 32) := by
  intro h
  have hread := h [] ⟨[0x2D], 0, [], []⟩ rfl (by decide)
  exact absurd hread (by decide)

/-- Printing and reading are inverse for every number but the smallest one, and the digits
always fit in the buffer of 16 characters. -/
theorem print_read_inverse_iff (x : BitVec 32) :
    (ReadsBack x ↔ x ≠ BitVec.intMin 32) ∧
      printInt x = (if x.toInt < 0 then [0x2D] else []) ++
        (if x = 0 then [0x30] else (digitBuffer x).reverse) ∧ (digitBuffer x).length ≤ 16 := by
  refine ⟨⟨?_, readsBack_of_ne⟩, printInt_eq x, (length_digitBuffer x).trans (by decide)⟩
  intro h hmin
  rw [hmin] at h
  exact intMin_not_readsBack h

/-- The smallest number is not read back. -/
theorem print_read_fails : ¬ ∀ x, ReadsBack x ∧ (digitBuffer x).length ≤ 16 := by
  intro h
  exact intMin_not_readsBack (h (BitVec.intMin 32)).1

end LispDos.Lisp
