import LispDos.Tools.LispReader
import Mathlib.Data.Int.Notation

/-! # Reading what was written

S-expressions, the texts that write them down, and the reader as an inverse of writing. -/

namespace LispDos.Lisp

variable {s : Interp} {a cs ws u rest buf : List UInt8} {c : UInt8} {n fuel : ℕ}

/-! ## Characters -/

theorem not_delim_of_digit (h : isDigit c = true) : isDelim c = false := by
  simp only [isDigit, Bool.and_eq_true, decide_eq_true_eq] at h
  obtain ⟨h₁, h₂⟩ := h
  simp only [isDelim, isSpace, Bool.or_eq_false_iff, beq_eq_false_iff_ne]
  refine ⟨⟨⟨?_, ⟨⟨?_, ?_⟩, ?_⟩, ?_⟩, ?_⟩, ?_⟩ <;> (rintro rfl; revert h₁ h₂; decide)

theorem not_delim_iff : isDelim c = false ↔
    c ≠ 0 ∧ isSpace c = false ∧ c ≠ 0x28 ∧ c ≠ 0x29 := by
  simp only [isDelim, Bool.or_eq_false_iff, beq_eq_false_iff_ne]
  tauto

theorem no_space : ∀ c ∈ ([] : List UInt8), isSpace c = true := by simp

theorem skipSpace_append (hws : ∀ c ∈ ws, isSpace c = true) (hcs : isSpace (cur cs) = false) :
    skipSpace (ws ++ cs) = cs := by
  rw [skipSpace, List.dropWhile_append_of_pos (by simpa using hws)]
  cases cs with
  | nil => rfl
  | cons c cs => rw [List.dropWhile_cons_of_neg (by simpa [cur] using hcs)]

/-! ## S-expressions -/

inductive SExpr where
  | num (n : BitVec 32)
  | sym (s : List UInt8)
  | list (items : List SExpr)

mutual

/-- The tree of an S-expression: a list is a chain of `LVAL_LIST` nodes that ends in an
`LVAL_NIL` node. -/
def SExpr.tree : SExpr → Node
  | .num n => .num n
  | .sym s => .sym s
  | .list items => itemsTree items

def itemsTree : List SExpr → Node
  | [] => .nil
  | e :: es => .list e.tree (itemsTree es)

end

/-- The nodes of a tree. -/
def Node.nodes : Node → ℕ
  | .list first rest => first.nodes + rest.nodes + 1
  | _ => 1

/-- The number that a row of digits stands for. -/
def decimalValue (digits : List UInt8) : ℕ :=
  digits.foldl (fun n c => n * 10 + (c.toNat - 0x30)) 0

/-- An integer literal: digits, or a minus sign and digits. -/
inductive Literal : List UInt8 → ℤ → Prop where
  | plus (digits : List UInt8) (hne : digits ≠ []) (hdig : ∀ c ∈ digits, isDigit c = true) :
      Literal digits (decimalValue digits)
  | minus (digits : List UInt8) (hne : digits ≠ []) (hdig : ∀ c ∈ digits, isDigit c = true) :
      Literal (0x2D :: digits) (-decimalValue digits)

/-- The atoms and their spellings. A number is the value of its literal in 32 bits. -/
inductive Atom : SExpr → List UInt8 → Prop where
  | num (a : List UInt8) (v : ℤ) (hlit : Literal a v) (hlen : a.length ≤ 31) :
      Atom (.num (BitVec.ofInt 32 v)) a
  | sym (a : List UInt8) (hne : a ≠ []) (hlen : a.length ≤ 31)
      (hchars : ∀ c ∈ a, isDelim c = false) (hlit : ∀ v, ¬ Literal a v) : Atom (.sym a) a

/-- The texts that write the elements of a list, up to and including its closing
parenthesis. White space may stand before every element and before the parenthesis, and
a delimiter has to follow an atom. -/
inductive Items : List SExpr → List UInt8 → Prop where
  | nil (ws : List UInt8) (hws : ∀ c ∈ ws, isSpace c = true) : Items [] (ws ++ [0x29])
  | atom (ws a u : List UInt8) (e : SExpr) (es : List SExpr)
      (hws : ∀ c ∈ ws, isSpace c = true) (hatom : Atom e a) (hdelim : isDelim (cur u) = true)
      (hitems : Items es u) : Items (e :: es) (ws ++ a ++ u)
  | list (ws t u : List UInt8) (is es : List SExpr) (hws : ∀ c ∈ ws, isSpace c = true)
      (hinner : Items is t) (hitems : Items es u) :
      Items (.list is :: es) (ws ++ 0x28 :: t ++ u)

/-- The texts that write an S-expression. -/
inductive Written : SExpr → List UInt8 → Prop where
  | atom (e : SExpr) (a : List UInt8) (hatom : Atom e a) : Written e a
  | list (is : List SExpr) (t : List UInt8) (hitems : Items is t) :
      Written (.list is) (0x28 :: t)

/-! ## Atoms -/

theorem digitsValue_eq (digits : List UInt8) :
    digitsValue digits = BitVec.ofNat 32 (decimalValue digits) := by
  have hfold : ∀ (ds : List UInt8) (m : ℕ),
      ds.foldl (fun n c => n * 10 + BitVec.ofNat 32 (c.toNat - 0x30)) (BitVec.ofNat 32 m) =
        BitVec.ofNat 32 (ds.foldl (fun n c => n * 10 + (c.toNat - 0x30)) m) := by
    intro ds
    induction ds with
    | nil => exact fun _ => rfl
    | cons d ds ih =>
        intro m
        rw [List.foldl_cons, List.foldl_cons, ← ih, BitVec.ofNat_add, BitVec.ofNat_mul]
        rfl
  exact hfold digits 0

theorem Literal.ne_nil {v : ℤ} (h : Literal a v) : a ≠ [] := by
  cases h with
  | plus _ hne _ => exact hne
  | minus => exact List.cons_ne_nil _ _

theorem Literal.not_delim {v : ℤ} (h : Literal a v) : ∀ c ∈ a, isDelim c = false := by
  cases h with
  | plus _ _ hdig => exact fun c hc => not_delim_of_digit (hdig c hc)
  | minus digits _ hdig =>
      intro c hc
      rcases List.mem_cons.mp hc with rfl | hc
      · decide
      · exact not_delim_of_digit (hdig c hc)

/-- The test of the reader recognises the literals. -/
theorem isNum_iff (hne : a ≠ []) : isNum a = true ↔ ∃ v, Literal a v := by
  cases a with
  | nil => exact (hne rfl).elim
  | cons c cs =>
      simp only [isNum, Bool.and_eq_true, Bool.or_eq_true, List.all_eq_true, beq_iff_eq,
        Bool.not_eq_true', List.isEmpty_eq_false_iff]
      constructor
      · rintro ⟨⟨rfl, hcs⟩ | hc, hdig⟩
        · exact ⟨_, .minus cs hcs hdig⟩
        · exact ⟨_, .plus (c :: cs) hne (List.forall_mem_cons.mpr ⟨hc, hdig⟩)⟩
      · rintro ⟨v, hlit⟩
        cases hlit with
        | plus _ _ hdig =>
            obtain ⟨hc, hcs⟩ := List.forall_mem_cons.mp hdig
            exact ⟨.inr hc, hcs⟩
        | minus _ hcs hdig => exact ⟨.inl ⟨rfl, hcs⟩, hdig⟩

theorem Literal.numValue {v : ℤ} (h : Literal a v) : numValue a = BitVec.ofInt 32 v := by
  cases h with
  | plus _ hne hdig =>
      cases a with
      | nil => exact (hne rfl).elim
      | cons c cs =>
          have hc : c ≠ 0x2D := by
            rintro rfl
            exact absurd (hdig 0x2D (by simp)) (by decide)
          rw [Lisp.numValue, if_neg hc, digitsValue_eq, BitVec.ofInt_natCast]
  | minus digits _ hdig =>
      have hneg : (-1 : BitVec 32) = -1#32 := rfl
      rw [Lisp.numValue, if_pos rfl, digitsValue_eq, BitVec.ofInt_neg, BitVec.ofInt_natCast, hneg,
        BitVec.mul_neg, BitVec.mul_one]

theorem Atom.not_delim {e : SExpr} (h : Atom e a) : ∀ c ∈ a, isDelim c = false := by
  cases h with
  | num _ v hlit _ => exact hlit.not_delim
  | sym _ _ _ hchars _ => exact hchars

theorem Atom.ne_nil {e : SExpr} (h : Atom e a) : a ≠ [] := by
  cases h with
  | num _ v hlit _ => exact hlit.ne_nil
  | sym _ hne _ _ _ => exact hne

theorem Atom.not_delim_cur {e : SExpr} (h : Atom e a) (cs : List UInt8) :
    isDelim (cur (a ++ cs)) = false := by
  obtain ⟨c, ds, rfl⟩ := List.exists_cons_of_ne_nil h.ne_nil
  exact h.not_delim c (by simp)

theorem Atom.nodes {e : SExpr} (h : Atom e a) : e.tree.nodes = 1 := by
  cases h <;> simp [SExpr.tree, Node.nodes]

theorem allocNode_ok (n : Node) (h : s.pool + nodeSize ≤ poolSize) :
    allocNode n s = .ok n { s with pool := s.pool + nodeSize } := by
  rw [allocNode, if_neg (by omega)]

/-- The node of an atom: its first 31 characters decide which one it is. -/
def atomNode (a : List UInt8) : Node :=
  if isNum (a.take 31) then .num (numValue (a.take 31)) else .sym (a.take 31)

/-- A run of characters is read up to the delimiter after it. -/
theorem readAtom_run (hne : a ≠ []) (hchars : ∀ c ∈ a, isDelim c = false)
    (hdelim : isDelim (cur rest) = true) (hsrc : s.src = a ++ rest) :
    readAtom s = allocNode (atomNode a) { s with src := rest } := by
  have htake : (a ++ rest).takeWhile (fun c => !isDelim c) = a := by
    rw [List.takeWhile_append_of_pos (by simpa using hchars)]
    cases rest with
    | nil => simp
    | cons c cs => rw [List.takeWhile_cons_of_neg (by simpa [cur] using hdelim), List.append_nil]
  have hdrop : (a ++ rest).dropWhile (fun c => !isDelim c) = rest := by
    rw [List.dropWhile_append_of_pos (by simpa using hchars)]
    cases rest with
    | nil => rfl
    | cons c cs => rw [List.dropWhile_cons_of_neg (by simpa [cur] using hdelim)]
  have hempty : (a.take 31).isEmpty = false := by
    rw [List.isEmpty_eq_false_iff, Ne, List.take_eq_nil_iff]
    simpa using hne
  simp only [readAtom, hsrc, htake, hdrop, hempty, Bool.false_eq_true, if_false]
  by_cases hnum : isNum (a.take 31) = true
  · rw [if_pos hnum, atomNode, if_pos hnum]
    rfl
  · rw [if_neg hnum, atomNode, if_neg hnum]
    rfl

theorem Literal.atomNode {v : ℤ} (h : Literal a v) (hlen : a.length ≤ 31) :
    atomNode a = .num (BitVec.ofInt 32 v) := by
  rw [Lisp.atomNode, List.take_of_length_le hlen, if_pos ((isNum_iff h.ne_nil).mpr ⟨v, h⟩),
    h.numValue]

theorem atomNode_sym (hne : a ≠ []) (hlit : ∀ v, ¬ Literal a v) (hlen : a.length ≤ 31) :
    atomNode a = .sym a := by
  have hnum : ¬ isNum a = true := by
    rw [isNum_iff hne]
    simpa using hlit
  rw [atomNode, List.take_of_length_le hlen, if_neg hnum]

theorem Atom.atomNode {e : SExpr} (h : Atom e a) : atomNode a = e.tree := by
  cases h with
  | num _ v hlit hlen => rw [hlit.atomNode hlen, SExpr.tree]
  | sym _ hne hlen _ hlit => rw [atomNode_sym hne hlit hlen, SExpr.tree]

/-- An atom is read up to the delimiter after it. -/
theorem readAtom_atom {e : SExpr} (h : Atom e a) (hdelim : isDelim (cur rest) = true)
    (hsrc : s.src = a ++ rest) (hpool : s.pool + nodeSize ≤ poolSize) :
    readAtom s = .ok e.tree { s with src := rest, pool := s.pool + nodeSize } := by
  rw [readAtom_run h.ne_nil h.not_delim hdelim hsrc, h.atomNode]
  exact allocNode_ok _ hpool

/-! ## Lists -/

theorem SExpr.tree_ne_null (e : SExpr) : e.tree ≠ .null := by
  cases e with
  | num n => simp [SExpr.tree]
  | sym s => simp [SExpr.tree]
  | list is => cases is <;> simp [SExpr.tree, itemsTree]

theorem SExpr.tree_ne_err (e : SExpr) (m : List UInt8) : e.tree ≠ .err m := by
  cases e with
  | num n => simp [SExpr.tree]
  | sym s => simp [SExpr.tree]
  | list is => cases is <;> simp [SExpr.tree, itemsTree]

theorem Items.cur_append {es : List SExpr} (h : Items es u) (rest : List UInt8) :
    cur (u ++ rest) = cur u := by
  have hne : u ≠ [] := by
    cases h with
    | nil ws _ => simp
    | atom ws a u e es _ hatom _ _ => simp [hatom.ne_nil]
    | list => simp
  obtain ⟨c, cs, rfl⟩ := List.exists_cons_of_ne_nil hne
  rfl

/-- After an element that is no error the rest of the list is read. -/
theorem readListN_first {t : List UInt8} {first : Node} {s₁ : Interp}
    (hsrc : skipSpace s.src = t) (hcur : cur t ≠ 0x29)
    (hfirst : readExprN n { s with src := t } = .ok first s₁) (hnull : first ≠ .null)
    (herr : ∀ m, first ≠ .err m) :
    readListN (n + 1) s = (readListN n >>= newLvalList first) s₁ := by
  simp only [readListN, hsrc, if_neg hcur]
  rw [bind_ok hfirst]
  cases first with
  | null => exact (hnull rfl).elim
  | err m => exact (herr m rfl).elim
  | num v => rfl
  | sym v => rfl
  | list f g => rfl
  | nil => rfl
  | func f g => rfl

/-- One element of a list and what follows it. -/
theorem readListN_cons {t : List UInt8} {first r : Node} {s₁ s₂ : Interp}
    (hsrc : skipSpace s.src = t) (hcur : cur t ≠ 0x29)
    (hfirst : readExprN n { s with src := t } = .ok first s₁) (hnull : first ≠ .null)
    (herr : ∀ m, first ≠ .err m) (hrest : readListN n s₁ = .ok r s₂) :
    readListN (n + 1) s = newLvalList first r s₂ := by
  rw [readListN_first hsrc hcur hfirst hnull herr]
  exact bind_ok hrest

theorem readExprN_atom {e : SExpr} (hatom : Atom e a) (hdelim : isDelim (cur rest) = true)
    (hws : ∀ c ∈ ws, isSpace c = true) (hsrc : s.src = ws ++ a ++ rest)
    (hpool : s.pool + nodeSize ≤ poolSize) :
    readExprN (n + 1) s = .ok e.tree { s with src := rest, pool := s.pool + nodeSize } := by
  have hskip : skipSpace s.src = a ++ rest := by
    rw [hsrc, List.append_assoc]
    exact skipSpace_append hws (not_delim_iff.mp (hatom.not_delim_cur rest)).2.1
  obtain ⟨hzero, _, hopen, hclose⟩ := not_delim_iff.mp (hatom.not_delim_cur rest)
  simp only [readExprN, hskip, if_neg hzero, if_neg hopen, if_neg hclose]
  exact readAtom_atom hatom hdelim rfl hpool

theorem readExprN_paren {t : List UInt8} (hws : ∀ c ∈ ws, isSpace c = true)
    (hsrc : s.src = ws ++ 0x28 :: t) :
    readExprN (n + 1) s = readListN n { s with src := t } := by
  have hskip : skipSpace s.src = 0x28 :: t := by
    rw [hsrc]
    exact skipSpace_append hws rfl
  simp only [readExprN, hskip]
  rfl

/-- The text of the elements of a list is read to its tree, up to what follows. -/
theorem readListN_items {es : List SExpr} (h : Items es u) (rest : List UInt8) (s : Interp)
    (fuel : ℕ) (hsrc : s.src = u ++ rest) (hfuel : 2 * u.length ≤ fuel)
    (hpool : s.pool + nodeSize * (itemsTree es).nodes ≤ poolSize) :
    readListN fuel s = .ok (itemsTree es)
      { s with src := rest, pool := s.pool + nodeSize * (itemsTree es).nodes } := by
  induction h generalizing rest s fuel with
  | nil ws hws =>
      obtain ⟨n, rfl⟩ : ∃ n, fuel = n + 1 := Nat.exists_eq_add_one.mpr (by simp at hfuel; omega)
      have hskip : skipSpace s.src = 0x29 :: rest := by
        rw [hsrc, List.append_assoc]
        exact skipSpace_append hws rfl
      simp only [readListN, hskip]
      simp only [itemsTree, Node.nodes, Nat.mul_one] at hpool ⊢
      exact allocNode_ok _ hpool
  | atom ws a u e es hws hatom hdelim hitems ih =>
      have hne : 0 < a.length := List.length_pos_iff.mpr hatom.ne_nil
      have hnodes := hatom.nodes
      simp only [List.length_append] at hfuel
      simp only [itemsTree, Node.nodes, hnodes, nodeSize] at hpool
      obtain ⟨n, rfl⟩ : ∃ n, fuel = n + 2 := ⟨fuel - 2, by omega⟩
      have hcur : isDelim (cur (u ++ rest)) = true := by rw [hitems.cur_append, hdelim]
      have hskip : skipSpace s.src = a ++ (u ++ rest) := by
        rw [hsrc, List.append_assoc, List.append_assoc]
        exact skipSpace_append hws (not_delim_iff.mp (hatom.not_delim_cur _)).2.1
      have hfirst := readExprN_atom (s := { s with src := a ++ (u ++ rest) }) (n := n) hatom hcur
        no_space rfl (by simp only [nodeSize]; omega)
      have hrest := ih rest { s with src := u ++ rest, pool := s.pool + nodeSize } (n + 1) rfl
        (by omega) (by simp only [nodeSize]; omega)
      rw [readListN_cons hskip (not_delim_iff.mp (hatom.not_delim_cur _)).2.2.2 hfirst e.tree_ne_null e.tree_ne_err hrest,
        newLvalList, allocNode_ok _ (by simp only [nodeSize]; omega)]
      simp only [itemsTree, Node.nodes, hnodes, nodeSize]
      congr 2
      omega
  | list ws t u is es hws hinner hitems ih₁ ih₂ =>
      simp only [List.length_append, List.length_cons] at hfuel
      simp only [itemsTree, SExpr.tree, Node.nodes, nodeSize] at hpool
      obtain ⟨n, rfl⟩ : ∃ n, fuel = n + 2 := ⟨fuel - 2, by omega⟩
      have hskip : skipSpace s.src = 0x28 :: (t ++ (u ++ rest)) := by
        rw [hsrc, List.append_assoc, List.append_assoc]
        exact skipSpace_append hws rfl
      have hinner := ih₁ (u ++ rest) { s with src := t ++ (u ++ rest) } n rfl (by omega)
        (by simp only [nodeSize]; omega)
      have hfirst := (readExprN_paren (s := { s with src := 0x28 :: (t ++ (u ++ rest)) }) (n := n)
        no_space rfl).trans hinner
      have hrest := ih₂ rest { s with
        src := u ++ rest, pool := s.pool + nodeSize * (itemsTree is).nodes } (n + 1) rfl
        (by omega) (by simp only [nodeSize]; omega)
      rw [readListN_cons hskip (by simp [cur]) hfirst (SExpr.list is).tree_ne_null
        (SExpr.list is).tree_ne_err hrest, newLvalList,
        allocNode_ok _ (by simp only [nodeSize]; omega)]
      simp only [itemsTree, SExpr.tree, Node.nodes, nodeSize]
      congr 2
      omega

/-- Reading inverts writing: the reader returns the tree of the expression that is
written at the cursor, and leaves the cursor behind it. -/
theorem read_expr_inverts_writing (e : SExpr) (t : List UInt8) (h : Written e t)
    (ws rest : List UInt8) (hws : ∀ c ∈ ws, isSpace c = true)
    (hrest : rest = [] ∨ ∃ c cs, rest = c :: cs ∧ isDelim c = true) (s : Interp)
    (hsrc : s.src = ws ++ t ++ rest) (hpool : s.pool + nodeSize * e.tree.nodes ≤ poolSize) :
    readExpr s = .ok e.tree
      { s with src := rest, pool := s.pool + nodeSize * e.tree.nodes } := by
  have hdelim : isDelim (cur rest) = true := by
    obtain rfl | ⟨c, cs, rfl, hc⟩ := hrest
    · rfl
    · exact hc
  rw [readExpr]
  cases h with
  | atom _ _ hatom =>
      rw [hatom.nodes, Nat.mul_one] at hpool ⊢
      exact readExprN_atom hatom hdelim hws hsrc hpool
  | list is t hitems =>
      have hsrc' : s.src = ws ++ 0x28 :: (t ++ rest) := by rw [hsrc, List.append_assoc]; rfl
      rw [readExprN_paren hws hsrc']
      refine readListN_items hitems rest { s with src := t ++ rest } _ rfl ?_ hpool
      rw [hsrc']
      simp only [List.length_append, List.length_cons]
      omega

/-- The text `(+ -1 ())` and a line break. -/
theorem read_expr_inverts_writing_sum :
    readExpr ⟨text "(+ -1 ())\n", 0, [], []⟩ =
      .ok (.list (.sym (text "+")) (.list (.num (-1)) (.list .nil .nil))) ⟨text "\n", 392, [], []⟩ := by
  have hplus : Atom (.sym (text "+")) (text "+") :=
    .sym _ (by decide) (by decide +kernel) (by decide +kernel)
      (fun v hv => absurd ((isNum_iff (by decide)).mpr ⟨v, hv⟩) (by decide))
  have hone : Atom (.num (BitVec.ofInt 32 (-decimalValue (text "1")))) (text "-1") :=
    .num _ _ (.minus (text "1") (by decide) (by decide +kernel)) (by decide)
  have hitems : Items [.sym (text "+"), .num (BitVec.ofInt 32 (-decimalValue (text "1"))), .list []]
      (text "+ -1 ())") :=
    .atom [] (text "+") (text " -1 ())") _ _ (by simp) hplus (by decide)
      (.atom (text " ") (text "-1") (text " ())") _ _ (by decide +kernel) hone (by decide)
        (.list (text " ") (text ")") (text ")") [] [] (by decide +kernel) (.nil [] (by simp))
          (.nil [] (by simp))))
  exact read_expr_inverts_writing _ _ (.list _ _ hitems) [] (text "\n") (by simp)
    (.inr ⟨_, _, rfl, by decide⟩) ⟨text "(+ -1 ())\n", 0, [], []⟩ (by decide) (by decide)

end LispDos.Lisp
