import LispDos.Verification.Lisp.Reading
import Mathlib.Tactic.Ring

/-! # Atoms of any length

An atom keeps its first 31 characters, and a number is accumulated in 32 bits. Both limits
decide which atoms are read as what is written. -/

namespace LispDos.Lisp

variable {s : Interp} {a p rest : List UInt8} {v w : ℤ} {n : ℕ}

/-! ## Literals -/

theorem decimalValue_append (xs ys : List UInt8) :
    decimalValue (xs ++ ys) = decimalValue xs * 10 ^ ys.length + decimalValue ys := by
  have hfold : ∀ (ys : List UInt8) (m : ℕ), ys.foldl (fun n c => n * 10 + (c.toNat - 0x30)) m =
      m * 10 ^ ys.length + decimalValue ys := by
    intro ys
    induction ys with
    | nil => simp [decimalValue]
    | cons y ys ih =>
        intro m
        rw [decimalValue, List.foldl_cons, List.foldl_cons, ih, ih, List.length_cons]
        ring
  rw [decimalValue, List.foldl_append, hfold]
  rfl

theorem not_digit_minus (digits : List UInt8) : ¬ ∀ c ∈ 0x2D :: digits, isDigit c = true := by
  intro h
  exact absurd (h 0x2D (by simp)) (by decide)

/-- A text is a literal of one number at most. -/
theorem Literal.unique (hv : Literal a v) (hw : Literal a w) : v = w := by
  cases hv with
  | plus _ _ hdig =>
      cases hw with
      | plus => rfl
      | minus digits => exact absurd hdig (not_digit_minus digits)
  | minus digits =>
      cases hw with
      | plus _ _ hdig => exact absurd hdig (not_digit_minus digits)
      | minus => rfl

theorem take_ne_nil (hn : 0 < n) (hlen : n < a.length) : a.take n ≠ [] := by
  rw [← List.length_pos_iff, List.length_take]
  omega

/-- The digits that are dropped from a literal multiply its value by ten at least. -/
theorem Literal.take (h : Literal a v) (hn : 2 ≤ n) (hlen : n < a.length) :
    ∃ w, Literal (a.take n) w ∧ 10 * w.natAbs ≤ v.natAbs := by
  have hdropped : ∀ (digits : List UInt8) (k : ℕ), k < digits.length →
      10 * decimalValue (digits.take k) ≤ decimalValue digits := by
    intro digits k hk
    have hpow : 10 ≤ 10 ^ (digits.drop k).length := by
      apply Nat.le_self_pow
      rw [List.length_drop]
      omega
    have hmul := Nat.mul_le_mul_left (decimalValue (digits.take k)) hpow
    have hvalue := decimalValue_append (digits.take k) (digits.drop k)
    rw [List.take_append_drop] at hvalue
    omega
  cases h with
  | plus _ hne hdig =>
      refine ⟨_, .plus (a.take n) (take_ne_nil (by omega) hlen)
        fun c hc => hdig c (List.mem_of_mem_take hc), ?_⟩
      rw [Int.natAbs_natCast, Int.natAbs_natCast]
      exact hdropped a n hlen
  | minus digits hne hdig =>
      obtain ⟨k, rfl⟩ : ∃ k, n = k + 1 := Nat.exists_eq_add_one.mpr (by omega)
      rw [List.length_cons] at hlen
      rw [List.take_succ_cons]
      refine ⟨_, .minus (digits.take k) (take_ne_nil (by omega) (by omega))
        fun c hc => hdig c (List.mem_of_mem_take hc), ?_⟩
      rw [Int.natAbs_neg, Int.natAbs_neg, Int.natAbs_natCast, Int.natAbs_natCast]
      exact hdropped digits k (by omega)

/-! ## Faithful readings -/

/-- The text of an atom stands at the cursor, up to the delimiter after it. -/
structure AtomText (a rest : List UInt8) (s : Interp) : Prop where
  ne_nil : a ≠ []
  chars : ∀ c ∈ a, isDelim c = false
  delim : isDelim (cur rest) = true
  src : s.src = a ++ rest

/-- The nodes that an atom may be read as: the symbol of that spelling, the number that it
denotes, or an error. -/
inductive Faithful (a : List UInt8) : Node → Prop where
  | sym : Faithful a (.sym a)
  | num (n : BitVec 32) (hlit : Literal a n.toInt) : Faithful a (.num n)
  | err (m : List UInt8) : Faithful a (.err m)

/-- The atom is consumed, and read faithfully. -/
def ReadsFaithfully (a rest : List UInt8) (s : Interp) : Prop :=
  ∃ node s', readAtom s = .ok node s' ∧ s'.src = rest ∧ Faithful a node

/-- The atoms that fit: a symbol of 31 characters at most, or a literal of an `int` that is
no longer than that unless it is zero. -/
inductive Fits (a : List UInt8) : Prop where
  | sym (hlit : ∀ v, ¬ Literal a v) (hlen : a.length ≤ 31) : Fits a
  | num (v : ℤ) (hlit : Literal a v) (hlow : -2 ^ 31 ≤ v) (hhigh : v < 2 ^ 31)
      (hlen : a.length ≤ 31 ∨ v = 0) : Fits a

theorem toInt_ofInt (hlow : -2 ^ 31 ≤ v) (hhigh : v < 2 ^ 31) : (BitVec.ofInt 32 v).toInt = v := by
  rw [BitVec.toInt_ofInt]
  exact Int.bmod_eq_of_le (by omega) (by omega)

theorem toInt_range (n : BitVec 32) : -2 ^ 31 ≤ n.toInt ∧ n.toInt < 2 ^ 31 :=
  ⟨BitVec.le_toInt n, BitVec.toInt_lt⟩

/-- A literal whose value is cut off is not read faithfully. -/
theorem faithful_num_iff (hlit : Literal a v) (n : BitVec 32) :
    Faithful a (.num n) ↔ n.toInt = v := by
  constructor
  · intro h
    cases h with
    | num _ hlit' => exact hlit'.unique hlit
  · intro h
    apply Faithful.num
    rwa [h]

theorem faithful_short (hne : a ≠ []) (hlen : a.length ≤ 31) :
    Faithful a (atomNode a) ↔ Fits a := by
  by_cases hex : ∃ v, Literal a v
  · rcases hex with ⟨v, hlit⟩
    rw [hlit.atomNode hlen, faithful_num_iff hlit]
    constructor
    · intro h
      have hrange := toInt_range (BitVec.ofInt 32 v)
      rw [h] at hrange
      exact .num v hlit hrange.1 hrange.2 (.inl hlen)
    · intro h
      cases h with
      | sym hnot => exact absurd hlit (hnot v)
      | num v' hlit' hlow hhigh =>
          obtain rfl := hlit.unique hlit'
          exact toInt_ofInt hlow hhigh
  · have hnot : ∀ v, ¬ Literal a v := fun v hlit => hex ⟨v, hlit⟩
    rw [atomNode_sym hne hnot hlen]
    exact iff_of_true .sym (.sym hnot hlen)

theorem faithful_long (hlen : 31 < a.length) : Faithful a (atomNode a) ↔ Fits a := by
  have hne : a.take 31 ≠ [] := take_ne_nil (by decide) hlen
  rw [atomNode]
  constructor
  · intro h
    by_cases hnum : isNum (a.take 31) = true
    · rw [if_pos hnum] at h
      obtain ⟨w, hstart⟩ := (isNum_iff hne).mp hnum
      rw [hstart.numValue] at h
      cases h with
      | num _ hlit =>
          -- the kept digits are those of a small number, so nothing was cut off
          obtain ⟨w', hstart', hten⟩ := hlit.take (by decide) hlen
          obtain rfl := hstart'.unique hstart
          obtain ⟨hlow, hhigh⟩ := toInt_range (BitVec.ofInt 32 w')
          have hsame := toInt_ofInt (v := w') (by omega) (by omega)
          rw [hsame] at hten hlit
          exact .num w' hlit (by omega) (by omega) (.inr (by omega))
    · rw [if_neg hnum] at h
      generalize hsym : Node.sym (a.take 31) = node at h
      cases h with
      | sym =>
          have hlength := congrArg List.length (Node.sym.inj hsym)
          rw [List.length_take] at hlength
          omega
      | num => cases hsym
      | err => cases hsym
  · intro h
    cases h with
    | sym _ hshort => omega
    | num v hlit _ _ hzero =>
        obtain rfl := hzero.resolve_left (by omega)
        obtain ⟨w, hstart, hten⟩ := hlit.take (by decide) hlen
        obtain rfl : w = 0 := by
          rw [Int.natAbs_zero] at hten
          omega
        rw [if_pos ((isNum_iff hne).mpr ⟨0, hstart⟩), hstart.numValue]
        exact .num _ hlit

theorem faithful_iff (hne : a ≠ []) : Faithful a (atomNode a) ↔ Fits a := by
  by_cases hlen : a.length ≤ 31
  · exact faithful_short hne hlen
  · exact faithful_long (Nat.lt_of_not_le hlen)

/-! ## Reading -/

theorem AtomText.readAtom (h : AtomText a rest s) :
    readAtom s = allocNode (atomNode a) { s with src := rest } :=
  readAtom_run h.ne_nil h.chars h.delim h.src

theorem AtomText.node {node : Node} {s' : Interp} (h : AtomText a rest s)
    (hread : Lisp.readAtom s = .ok node s') : node = atomNode a ∧ s'.src = rest ∧
      s.pool + nodeSize ≤ poolSize := by
  rw [h.readAtom, allocNode] at hread
  split at hread
  · cases hread
  · rename_i hroom
    obtain ⟨rfl, rfl⟩ := Outcome.ok.inj hread
    exact ⟨rfl, rfl, Nat.le_of_not_lt hroom⟩

theorem AtomText.faithful_iff (h : AtomText a rest s) :
    ReadsFaithfully a rest s ↔ s.pool + nodeSize ≤ poolSize ∧ Fits a := by
  rw [← Lisp.faithful_iff h.ne_nil]
  constructor
  · intro hread
    rcases hread with ⟨node, s', hread, _, hfaithful⟩
    obtain ⟨rfl, _, hroom⟩ := h.node hread
    exact ⟨hroom, hfaithful⟩
  · intro hfits
    refine ⟨atomNode a, { s with src := rest, pool := s.pool + nodeSize }, ?_, rfl, hfits.2⟩
    rw [h.readAtom]
    exact allocNode_ok _ hfits.1

/-- What the first characters of an atom are read as: a symbol, or the number that they
denote if it is in range. -/
theorem atomNode_cases (a : List UInt8) (hne : a ≠ []) :
    ((∀ v, ¬ Literal (a.take 31) v) → atomNode a = .sym (a.take 31)) ∧
      ∀ v, Literal (a.take 31) v → -2 ^ 31 ≤ v → v < 2 ^ 31 →
        ∃ n, atomNode a = .num n ∧ n.toInt = v := by
  have hkept : a.take 31 ≠ [] := by
    rw [Ne, List.take_eq_nil_iff]
    simpa using hne
  refine ⟨?_, ?_⟩
  · intro hlit
    have hnum : ¬ isNum (a.take 31) = true := by
      rw [isNum_iff hkept]
      simpa using hlit
    rw [atomNode, if_neg hnum]
  · intro v hlit hlow hhigh
    refine ⟨BitVec.ofInt 32 v, ?_, toInt_ofInt hlow hhigh⟩
    rw [atomNode, if_pos ((isNum_iff hkept).mpr ⟨v, hlit⟩), hlit.numValue]

theorem atomNode_eq_sym (hsym : atomNode a = .sym p) : a.take 31 = p := by
  rw [atomNode] at hsym
  split at hsym
  · cases hsym
  · exact Node.sym.inj hsym

/-- If the pool has room for a node, an atom is consumed and its first 31 characters are read:
as the symbol of that spelling or, if they are a literal in range, as the number that they
denote. So atoms that are read as the same symbol have the same first 31 characters, and a
literal of that length in range is read as no other number. -/
theorem read_atom_keeps_start (a rest : List UInt8) (s : Interp) (h : AtomText a rest s) :
    (s.pool + nodeSize ≤ poolSize → ∃ node s', readAtom s = .ok node s' ∧ s'.src = rest ∧
      ((∀ v, ¬ Literal (a.take 31) v) → node = .sym (a.take 31)) ∧
      ∀ v, Literal (a.take 31) v → -2 ^ 31 ≤ v → v < 2 ^ 31 → ∃ n, node = .num n ∧ n.toInt = v) ∧
    (poolSize < s.pool + nodeSize → ∃ t, readAtom s = .exit t) ∧
    (∀ b rest' s' p t t', AtomText b rest' s' → readAtom s = .ok (.sym p) t →
      readAtom s' = .ok (.sym p) t' → a.take 31 = b.take 31) ∧
    ∀ v n t, Literal a v → a.length ≤ 31 → -2 ^ 31 ≤ v → v < 2 ^ 31 →
      readAtom s = .ok (.num n) t → n.toInt = v := by
  refine ⟨?_, ?_, ?_, ?_⟩
  · intro hroom
    refine ⟨atomNode a, { s with src := rest, pool := s.pool + nodeSize }, ?_, rfl, ?_⟩
    · rw [h.readAtom]
      exact allocNode_ok _ hroom
    · exact atomNode_cases a h.ne_nil
  · intro hfull
    rw [h.readAtom, allocNode, if_pos hfull]
    exact ⟨_, rfl⟩
  · intro b rest' s' p t t' hb hread hread'
    rw [atomNode_eq_sym (h.node hread).1.symm, atomNode_eq_sym (hb.node hread').1.symm]
  · intro v n t hlit hlen hlow hhigh hread
    have hfaithful := (Lisp.faithful_iff h.ne_nil).mpr (.num v hlit hlow hhigh (.inl hlen))
    rw [← (h.node hread).1] at hfaithful
    exact (faithful_num_iff hlit n).mp hfaithful

/-- A symbol of 32 characters. -/
def longSymbol : List UInt8 := List.replicate 32 0x61

theorem longSymbol_text : AtomText longSymbol [] ⟨longSymbol, 0, [], []⟩ := by
  refine ⟨by decide, ?_, by decide, by decide⟩
  intro c hc
  rw [List.eq_of_mem_replicate hc]
  decide

theorem longSymbol_not_literal (v : ℤ) : ¬ Literal longSymbol v := by
  intro hlit
  exact absurd ((isNum_iff (by decide)).mpr ⟨v, hlit⟩) (by decide)

theorem read_atom_keeps_start_long : ∃ node s',
    readAtom ⟨longSymbol, 0, [], []⟩ = .ok node s' ∧ s'.src = [] ∧
      ((∀ v, ¬ Literal (longSymbol.take 31) v) → node = .sym (longSymbol.take 31)) ∧
      ∀ v, Literal (longSymbol.take 31) v → -2 ^ 31 ≤ v → v < 2 ^ 31 →
        ∃ n, node = .num n ∧ n.toInt = v :=
  (read_atom_keeps_start longSymbol [] ⟨longSymbol, 0, [], []⟩ longSymbol_text).1 (by decide)

/-- The last character of the symbol is dropped. -/
theorem long_symbol_cut : ¬ ∀ a rest s, AtomText a rest s → s.pool + nodeSize ≤ poolSize →
    ReadsFaithfully a rest s := by
  intro h
  have hfits := (longSymbol_text.faithful_iff.mp (h _ _ _ longSymbol_text (by decide))).2
  cases hfits with
  | sym _ hlen => exact absurd hlen (by decide)
  | num v hlit => exact longSymbol_not_literal v hlit

end LispDos.Lisp
