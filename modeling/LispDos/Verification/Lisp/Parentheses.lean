import LispDos.Verification.Lisp.Reading

/-! # Parentheses

The lists that a text leaves open, and what the reader makes of any text, complete or
not. -/

namespace LispDos.Lisp

variable {s s' : Interp} {src src' cs : List UInt8} {v : Node} {n : ℕ}

/-! ## Open lists -/

/-- An element has been read: the innermost open list is no longer empty. -/
def mark : List Bool → List Bool
  | [] => []
  | _ :: st => true :: st

/-- The innermost open list is closed and becomes an element of the next one. -/
def closeList : List Bool → Option (List Bool)
  | [] => none
  | _ :: st => some (mark st)

/-- The lists still open at the end of the text, the innermost first, each with whether
an element of it is complete. There are none to speak of when a closing parenthesis is
unmatched. -/
def openLists : List UInt8 → List Bool → Option (List Bool)
  | [], st => some st
  | c :: cs, st =>
      if c = 0 then some st
      else if isSpace c then openLists cs st
      else if c = 0x28 then openLists cs (false :: st)
      else if c = 0x29 then (closeList st).bind (openLists cs)
      else openLists cs (mark st)

/-- The text is not a sequence of complete expressions: a parenthesis is never closed or
a closing one is unmatched. -/
def Malformed (src : List UInt8) : Prop := openLists src [] ≠ some []

instance (src : List UInt8) : Decidable (Malformed src) :=
  inferInstanceAs (Decidable (openLists src [] ≠ some []))

/-- No list that is still open at the end of the text has a complete element. -/
def OpenListsEmpty (src : List UInt8) : Prop := ∀ st, openLists src [] = some st → true ∉ st

/-- An `LVAL_ERR` node somewhere in the tree. -/
def Node.hasErr : Node → Bool
  | .err _ => true
  | .list first rest => first.hasErr || rest.hasErr
  | .func params body => params.hasErr || body.hasErr
  | _ => false

@[simp] theorem mark_cons (b : Bool) (st : List Bool) : mark (b :: st) = true :: st := rfl

@[simp] theorem mark_mark (st : List Bool) : mark (mark st) = mark st := by
  cases st <;> rfl

theorem openLists_skipSpace (src : List UInt8) (st : List Bool) :
    openLists (skipSpace src) st = openLists src st := by
  induction src with
  | nil => rfl
  | cons c cs ih =>
      by_cases hc : isSpace c = true
      · have hzero : c ≠ 0 := by
          rintro rfl
          exact absurd hc (by decide)
        rw [skipSpace, List.dropWhile_cons_of_pos hc]
        rw [openLists, if_neg hzero, if_pos hc]
        exact ih
      · rw [skipSpace, List.dropWhile_cons_of_neg hc]

theorem openLists_end (h : cur (skipSpace src) = 0) (st : List Bool) :
    openLists src st = some st := by
  rw [← openLists_skipSpace]
  cases hskip : skipSpace src with
  | nil => rfl
  | cons c cs =>
      rw [hskip] at h
      have hc : c = 0 := h
      rw [openLists, if_pos hc]

theorem openLists_open (h : cur src = 0x28) (st : List Bool) :
    openLists src st = openLists src.tail (false :: st) := by
  cases src with
  | nil => exact absurd h (by decide)
  | cons c cs =>
      have hc : c = 0x28 := h
      subst hc
      rfl

theorem openLists_close (h : cur src = 0x29) (b : Bool) (st : List Bool) :
    openLists src (b :: st) = openLists src.tail (mark st) := by
  cases src with
  | nil => exact absurd h (by decide)
  | cons c cs =>
      have hc : c = 0x29 := h
      subst hc
      rfl

theorem openLists_unmatched (h : cur src = 0x29) : openLists src [] = none := by
  cases src with
  | nil => exact absurd h (by decide)
  | cons c cs =>
      have hc : c = 0x29 := h
      subst hc
      rfl

/-- The rest of an atom changes nothing once the list is marked. -/
theorem openLists_atom_rest (src : List UInt8) (st : List Bool) :
    openLists src (mark st) = openLists (src.dropWhile fun c => !isDelim c) (mark st) := by
  induction src with
  | nil => rfl
  | cons c cs ih =>
      by_cases hc : isDelim c = true
      · rw [List.dropWhile_cons_of_neg (by simpa using hc)]
      · obtain ⟨hzero, hspace, hopen, hclose⟩ := not_delim_iff.mp (Bool.not_eq_true _ ▸ hc)
        rw [List.dropWhile_cons_of_pos (by simpa using hc), openLists, if_neg hzero,
          if_neg (by simp [hspace]), if_neg hopen, if_neg hclose, mark_mark]
        exact ih

theorem openLists_atom (h : isDelim (cur src) = false) (st : List Bool) :
    openLists src st = openLists (src.dropWhile fun c => !isDelim c) (mark st) := by
  cases src with
  | nil => exact absurd h (by decide)
  | cons c cs =>
      have hc : isDelim c = false := h
      obtain ⟨hzero, hspace, hopen, hclose⟩ := not_delim_iff.mp hc
      rw [List.dropWhile_cons_of_pos (by simpa using hc), openLists, if_neg hzero,
        if_neg (by simp [hspace]), if_neg hopen, if_neg hclose]
      exact openLists_atom_rest cs st

/-! ## What the reader returns -/

/-- A result of `read_expr`, against the open lists: a complete expression is an element of
the list around it, an error comes from lists that are open and empty, and a tree with an
error inside from an open list that has an element. -/
inductive ReadsExpr (src : List UInt8) : Node → List UInt8 → Prop where
  | eof (src' : List UInt8) (hend : cur (skipSpace src) = 0) (hle : src'.length ≤ src.length)
      (hend' : cur (skipSpace src') = 0) : ReadsExpr src .null src'
  | unmatched (m src' : List UInt8) (hclose : cur (skipSpace src) = 0x29) :
      ReadsExpr src (.err m) src'
  | error (m src' : List UInt8) (k : ℕ) (hle : src'.length ≤ src.length)
      (hend : cur (skipSpace src') = 0)
      (hopen : ∀ st, openLists src st = some (List.replicate k false ++ st)) :
      ReadsExpr src (.err m) src'
  | complete (v : Node) (src' : List UInt8) (hnull : v ≠ .null) (herr : v.hasErr = false)
      (hlt : src'.length < src.length)
      (hopen : ∀ st, openLists src st = openLists src' (mark st)) : ReadsExpr src v src'
  | broken (v : Node) (src' : List UInt8) (hne : ∀ m, v ≠ .err m) (herr : v.hasErr = true)
      (hlt : src'.length < src.length) (hend : cur (skipSpace src') = 0)
      (hopen : ∀ st, ∃ ext, true ∈ ext ∧ openLists src st = some (ext ++ st)) :
      ReadsExpr src v src'

/-- A result of `read_list`, inside a list that has or does not have an element yet. -/
inductive ReadsList (src : List UInt8) : Node → List UInt8 → Prop where
  | error (m src' : List UInt8) (k : ℕ) (hle : src'.length ≤ src.length)
      (hend : cur (skipSpace src') = 0)
      (hopen : ∀ b st, openLists src (b :: st) = some (List.replicate k false ++ b :: st)) :
      ReadsList src (.err m) src'
  | complete (v : Node) (src' : List UInt8) (hnull : v ≠ .null) (herr : v.hasErr = false)
      (hle : src'.length ≤ src.length)
      (hopen : ∀ b st, openLists src (b :: st) = openLists src' (mark st)) : ReadsList src v src'
  | broken (v : Node) (src' : List UInt8) (hne : ∀ m, v ≠ .err m) (herr : v.hasErr = true)
      (hle : src'.length ≤ src.length) (hend : cur (skipSpace src') = 0)
      (hopen : ∀ b st, ∃ ext, true ∈ ext ∧ openLists src (b :: st) = some (ext ++ st)) :
      ReadsList src v src'

theorem allocNode_eq_ok {a : Node} (h : allocNode a s = .ok v s') : v = a ∧ s'.src = s.src := by
  rw [allocNode] at h
  split at h
  · cases h
  · cases h
    exact ⟨rfl, rfl⟩

/-- An atom takes characters away and is one node, which is no error. -/
theorem readAtom_alloc (hdelim : isDelim (cur s.src) = false) :
    ∃ a, a ≠ .null ∧ a.hasErr = false ∧
      (s.src.dropWhile fun c => !isDelim c).length < s.src.length ∧
      readAtom s = allocNode a { s with src := s.src.dropWhile fun c => !isDelim c } := by
  obtain ⟨c, cs, hsrc⟩ : ∃ c cs, s.src = c :: cs := by
    cases hsrc : s.src with
    | nil =>
        rw [hsrc] at hdelim
        exact absurd hdelim (by decide)
    | cons c cs => exact ⟨c, cs, rfl⟩
  have hc : isDelim c = false := by rwa [hsrc] at hdelim
  have hlt : (s.src.dropWhile fun c => !isDelim c).length < s.src.length := by
    rw [hsrc, List.dropWhile_cons_of_pos (by simpa using hc)]
    exact Nat.lt_succ_of_le (List.dropWhile_suffix _).length_le
  have hne : ((s.src.takeWhile fun c => !isDelim c).take 31).isEmpty = false := by
    rw [hsrc, List.takeWhile_cons_of_pos (by simpa using hc)]
    rfl
  simp only [readAtom, hne]
  split
  · contradiction
  · split
    · exact ⟨_, by simp, rfl, hlt, rfl⟩
    · exact ⟨_, by simp, rfl, hlt, rfl⟩

/-- An atom is complete. -/
theorem readAtom_reads (hdelim : isDelim (cur s.src) = false) (h : readAtom s = .ok v s') :
    ReadsExpr s.src v s'.src := by
  obtain ⟨a, hnull, herr, hlt, hread⟩ := readAtom_alloc hdelim
  obtain ⟨rfl, hsrc⟩ := allocNode_eq_ok (hread ▸ h)
  rw [hsrc]
  exact .complete _ _ hnull herr hlt fun st => openLists_atom hdelim st

/-- A list that was opened is read like the rest of the list. -/
theorem ReadsList.expr (h : ReadsList src v src') (hlt : src.length < cs.length)
    (hsrc : ∀ st, openLists cs st = openLists src (false :: st)) : ReadsExpr cs v src' := by
  cases h with
  | error m _ k hle hend hopen =>
      refine .error m _ (k + 1) (by omega) hend fun st => ?_
      rw [hsrc, hopen, List.replicate_succ', List.append_assoc]
      rfl
  | complete _ _ hnull herr hle hopen =>
      exact .complete _ _ hnull herr (by omega) fun st => (hsrc st).trans (hopen false st)
  | broken _ _ hne herr hle hend hopen =>
      refine .broken _ _ hne herr (by omega) hend fun st => ?_
      rw [hsrc]
      exact hopen false st

theorem skipSpace_length_le (src : List UInt8) : (skipSpace src).length ≤ src.length :=
  (List.dropWhile_suffix _).length_le

@[simp] theorem skipSpace_skipSpace (src : List UInt8) :
    skipSpace (skipSpace src) = skipSpace src := by
  induction src with
  | nil => rfl
  | cons c cs ih =>
      by_cases hc : isSpace c = true
      · simpa only [skipSpace, List.dropWhile_cons_of_pos hc] using ih
      · simp only [skipSpace, List.dropWhile_cons_of_neg hc]

theorem ReadsExpr.of_skipSpace (h : ReadsExpr (skipSpace src) v src') : ReadsExpr src v src' := by
  have hlen := skipSpace_length_le src
  cases h with
  | eof _ hend hle hend' => exact .eof _ (by simpa using hend) (by omega) hend'
  | unmatched m _ hclose => exact .unmatched m _ (by simpa using hclose)
  | error m _ k hle hend hopen =>
      exact .error m _ k (by omega) hend (by simpa only [openLists_skipSpace] using hopen)
  | complete _ _ hnull herr hlt hopen =>
      exact .complete _ _ hnull herr (by omega) (by simpa only [openLists_skipSpace] using hopen)
  | broken _ _ hne herr hlt hend hopen =>
      exact .broken _ _ hne herr (by omega) hend (by simpa only [openLists_skipSpace] using hopen)

theorem ReadsList.of_skipSpace (h : ReadsList (skipSpace src) v src') : ReadsList src v src' := by
  have hlen := skipSpace_length_le src
  cases h with
  | error m _ k hle hend hopen =>
      exact .error m _ k (by omega) hend (by simpa only [openLists_skipSpace] using hopen)
  | complete _ _ hnull herr hle hopen =>
      exact .complete _ _ hnull herr (by omega) (by simpa only [openLists_skipSpace] using hopen)
  | broken _ _ hne herr hle hend hopen =>
      exact .broken _ _ hne herr (by omega) hend (by simpa only [openLists_skipSpace] using hopen)

/-- At the end of the text the rest of a list is not complete. -/
theorem ReadsList.at_end (h : ReadsList src v src') (hend : cur (skipSpace src) = 0) :
    v.hasErr = true ∧ src'.length ≤ src.length ∧ cur (skipSpace src') = 0 := by
  cases h with
  | error m _ k hle hend' _ => exact ⟨rfl, hle, hend'⟩
  | complete _ _ _ _ _ hopen =>
      have h₁ := hopen true []
      have h₂ := hopen false []
      rw [openLists_end hend, ← h₂, openLists_end hend] at h₁
      exact absurd h₁ (by simp)
  | broken _ _ _ herr hle hend' _ => exact ⟨herr, hle, hend'⟩

/-- A nonempty list: what the element and the rest of the list were read to decides. -/
theorem ReadsExpr.cons {mid : List UInt8} {first rest : Node} (hfirst : ReadsExpr src first mid)
    (hnull : first ≠ .null) (herr : ∀ m, first ≠ .err m) (hrest : ReadsList mid rest src') :
    ReadsList src (.list first rest) src' := by
  cases hfirst with
  | eof => exact (hnull rfl).elim
  | unmatched m _ _ => exact (herr m rfl).elim
  | error m _ _ _ _ _ => exact (herr m rfl).elim
  | complete _ _ _ hfree hlt hopen =>
      cases hrest with
      | error m _ k hle hend hrest =>
          refine .broken _ _ (by simp) (by simp [Node.hasErr]) (by omega) hend ?_
          intro b st
          refine ⟨List.replicate k false ++ [true], by simp, ?_⟩
          rw [hopen, mark_cons, hrest, List.append_assoc]
          rfl
      | complete _ _ _ hfree' hle hrest =>
          refine .complete _ _ (by simp) (by simp [Node.hasErr, hfree, hfree']) (by omega) ?_
          intro b st
          rw [hopen, mark_cons, hrest]
      | broken _ _ _ herr' hle hend hrest =>
          refine .broken _ _ (by simp) (by simp [Node.hasErr, herr']) (by omega) hend ?_
          intro b st
          rw [hopen, mark_cons]
          exact hrest true st
  | broken _ _ _ herr hlt hend hopen =>
      -- the text is at its end, so that the rest of the list is an error
      obtain ⟨_, hle, hend'⟩ := hrest.at_end hend
      refine .broken _ _ (by simp) (by simp [Node.hasErr, herr]) (by omega) hend' ?_
      intro b st
      obtain ⟨ext, hmem, hext⟩ := hopen (b :: st)
      refine ⟨ext ++ [b], by simp [hmem], ?_⟩
      rw [hext, List.append_assoc]
      rfl

theorem cur_tail_length (h : cur src ≠ 0) : src.tail.length < src.length := by
  cases src with
  | nil => exact absurd rfl h
  | cons c cs => exact Nat.lt_succ_self _

theorem isSpace_cur_skipSpace (src : List UInt8) : isSpace (cur (skipSpace src)) = false := by
  induction src with
  | nil => rfl
  | cons c cs ih =>
      by_cases hc : isSpace c = true
      · rw [skipSpace, List.dropWhile_cons_of_pos hc]
        exact ih
      · rw [skipSpace, List.dropWhile_cons_of_neg hc]
        exact Bool.not_eq_true _ ▸ hc

/-- The reader's results are those described, whatever the bound on nested calls. -/
theorem readN_reads (n : ℕ) :
    (∀ s v s', readExprN n s = .ok v s' → ReadsExpr s.src v s'.src) ∧
    (∀ s v s', readListN n s = .ok v s' → ReadsList s.src v s'.src) := by
  induction n with
  | zero =>
      constructor
      · intro s v s' h
        cases h
      · intro s v s' h
        cases h
  | succ n ih =>
      obtain ⟨ihExpr, ihList⟩ := ih
      constructor
      · intro s v s' h
        refine .of_skipSpace ?_
        simp only [readExprN] at h
        split at h
        case isTrue hcur =>
          cases h
          exact .eof _ (by simpa using hcur) (Nat.le_refl _) (by simpa using hcur)
        case isFalse hzero =>
          split at h
          case isTrue hcur =>
            exact (ihList _ _ _ h).expr (cur_tail_length hzero) fun st => openLists_open hcur st
          case isFalse hopen =>
            split at h
            case isTrue hcur =>
              obtain ⟨rfl, _⟩ := allocNode_eq_ok h
              exact .unmatched _ _ (by simpa using hcur)
            case isFalse hclose =>
              have hdelim := not_delim_iff.mpr ⟨hzero, isSpace_cur_skipSpace _, hopen, hclose⟩
              exact readAtom_reads (s := { s with src := skipSpace s.src }) hdelim h
      · intro s v s' h
        refine .of_skipSpace ?_
        by_cases hcur : cur (skipSpace s.src) = 0x29
        · simp only [readListN, if_pos hcur] at h
          obtain ⟨rfl, hsrc⟩ := allocNode_eq_ok h
          rw [hsrc]
          exact .complete _ _ (by simp) rfl (by simp) fun b st => openLists_close hcur b st
        · have hbind := h
          simp only [readListN, if_neg hcur] at hbind
          obtain ⟨first, t, hfirst, hmatch⟩ := bind_eq_ok hbind
          have hread := ihExpr _ _ _ hfirst
          by_cases hnull : first = .null
          · subst hnull
            obtain ⟨rfl, hsrc⟩ := allocNode_eq_ok hmatch
            rw [hsrc]
            cases hread with
            | eof _ hend hle hend' =>
                exact .error _ _ 0 hle hend' fun b st => openLists_end hend _
            | complete _ _ hne _ _ _ => exact (hne rfl).elim
            | broken _ _ _ herr _ _ _ => cases herr
          · by_cases herr : ∃ m, first = .err m
            · obtain ⟨m, rfl⟩ := herr
              cases hmatch
              cases hread with
              | unmatched _ _ hclose => exact (hcur (by simpa using hclose)).elim
              | error _ _ k hle hend hopen =>
                  exact .error _ _ k hle hend fun b st => hopen (b :: st)
              | complete _ _ _ herr _ _ => cases herr
              | broken _ _ hne _ _ _ _ => exact (hne m rfl).elim
            · have herr : ∀ m, first ≠ .err m := fun m hm => herr ⟨m, hm⟩
              rw [readListN_first rfl hcur hfirst hnull herr] at h
              obtain ⟨rest, u, hrest, hlist⟩ := bind_eq_ok h
              obtain ⟨rfl, hsrc⟩ := allocNode_eq_ok hlist
              rw [hsrc]
              exact hread.cons hnull herr (ihList _ _ _ hrest)

theorem ReadsExpr.length_lt (h : ReadsExpr src v src') (hnull : v ≠ .null)
    (herr : ∀ m, v ≠ .err m) : src'.length < src.length := by
  cases h with
  | eof => exact (hnull rfl).elim
  | unmatched m _ _ => exact (herr m rfl).elim
  | error m _ _ _ _ _ => exact (herr m rfl).elim
  | complete _ _ _ _ hlt _ => exact hlt
  | broken _ _ _ _ hlt _ _ => exact hlt

/-! ## The reader returns -/

/-- The pool that a text of this length can take up, two nodes for each character. -/
def cost (s : Interp) : ℕ := s.pool + nodeSize * (2 * s.src.length)

/-- What a result of `read_expr` may cost beyond the characters it takes away: a value
leaves a node of their price over, and the end of the text comes for free. -/
def extra : Node → ℕ
  | .null => nodeSize
  | .err _ => 2 * nodeSize
  | _ => 0

/-- The call returns within its price, or the pool is too small for the text. -/
def ReturnsExpr (c : ℕ) (o : Outcome Node) : Prop :=
  (∃ v s', o = .ok v s' ∧ cost s' + nodeSize ≤ c + extra v) ∨
    (∃ s', o = .exit s' ∧ poolSize < c + nodeSize)

def ReturnsList (c : ℕ) (o : Outcome Node) : Prop :=
  (∃ v s', o = .ok v s' ∧ cost s' ≤ c + nodeSize) ∨
    (∃ s', o = .exit s' ∧ poolSize < c + nodeSize)

theorem extra_value (hnull : v ≠ .null) (herr : ∀ m, v ≠ .err m) : extra v = 0 := by
  cases v with
  | null => exact (hnull rfl).elim
  | err m => exact (herr m rfl).elim
  | num => rfl
  | sym => rfl
  | list => rfl
  | nil => rfl
  | func => rfl

theorem allocNode_returns (a : Node) {c : ℕ} (h : cost s ≤ c) : ReturnsList c (allocNode a s) := by
  rw [allocNode]
  split
  case isTrue hfull =>
    refine .inr ⟨_, rfl, ?_⟩
    simp only [cost] at h
    omega
  case isFalse =>
    refine .inl ⟨_, _, rfl, ?_⟩
    simp only [cost] at h ⊢
    omega

theorem ReturnsList.expr {c d : ℕ} {o : Outcome Node} (h : ReturnsList c o)
    (hc : c + 2 * nodeSize ≤ d) : ReturnsExpr d o := by
  obtain ⟨v, t, hread, hle⟩ | ⟨t, hread, hpool⟩ := h
  · exact .inl ⟨v, t, hread, by omega⟩
  · exact .inr ⟨t, hread, by omega⟩

theorem readExprN_returns (ih : ∀ s, 2 * s.src.length + 2 ≤ n → ReturnsList (cost s) (readListN n s))
    (s : Interp) (hn : 2 * s.src.length + 1 ≤ n + 1) :
    ReturnsExpr (cost s) (readExprN (n + 1) s) := by
  have hlen := skipSpace_length_le s.src
  simp only [readExprN]
  split
  case isTrue =>
    refine .inl ⟨_, _, rfl, ?_⟩
    simp only [extra, cost, nodeSize]
    omega
  case isFalse hzero =>
    have htail := cur_tail_length hzero
    split
    case isTrue =>
      refine (ih { s with src := (skipSpace s.src).tail } (by simp only at *; omega)).expr ?_
      simp only [cost, nodeSize] at *
      omega
    case isFalse hopen =>
      split
      case isTrue =>
        obtain ⟨v, t, hread, hle⟩ | ⟨t, hread, hpool⟩ := allocNode_returns
          (.err (text "Unexpected ')'")) (Nat.le_refl (cost { s with src := skipSpace s.src }))
        · obtain ⟨rfl, _⟩ := allocNode_eq_ok hread
          refine .inl ⟨_, t, hread, ?_⟩
          simp only [extra, cost, nodeSize] at *
          omega
        · refine .inr ⟨t, hread, ?_⟩
          simp only [cost, nodeSize] at *
          omega
      case isFalse hclose =>
        have hdelim := not_delim_iff.mpr ⟨hzero, isSpace_cur_skipSpace _, hopen, hclose⟩
        obtain ⟨a, _, _, hlt, hread⟩ :=
          readAtom_alloc (s := { s with src := skipSpace s.src }) hdelim
        rw [hread]
        refine (allocNode_returns a (Nat.le_refl _)).expr ?_
        simp only [cost, nodeSize] at *
        omega

theorem readListN_returns
    (ihExpr : ∀ s, 2 * s.src.length + 1 ≤ n → ReturnsExpr (cost s) (readExprN n s))
    (ihList : ∀ s, 2 * s.src.length + 2 ≤ n → ReturnsList (cost s) (readListN n s))
    (s : Interp) (hn : 2 * s.src.length + 2 ≤ n + 1) :
    ReturnsList (cost s) (readListN (n + 1) s) := by
  have hlen := skipSpace_length_le s.src
  have hcost : cost { s with src := skipSpace s.src } ≤ cost s := by
    simp only [cost, nodeSize]
    omega
  by_cases hcur : cur (skipSpace s.src) = 0x29
  · simp only [readListN, if_pos hcur]
    refine allocNode_returns _ ?_
    simp only [cost, nodeSize, List.length_tail]
    omega
  · obtain ⟨first, t, hfirst, hle⟩ | ⟨t, hexit, hpool⟩ :=
      ihExpr { s with src := skipSpace s.src } (by simp only; omega)
    · by_cases hnull : first = .null
      · subst hnull
        simp only [readListN, if_neg hcur]
        rw [bind_ok hfirst]
        refine allocNode_returns _ ?_
        simp only [extra] at hle
        omega
      · by_cases herr : ∃ m, first = .err m
        · obtain ⟨m, rfl⟩ := herr
          simp only [readListN, if_neg hcur]
          rw [bind_ok hfirst]
          refine .inl ⟨_, t, rfl, ?_⟩
          simp only [extra] at hle
          omega
        · have herr : ∀ m, first ≠ .err m := fun m hm => herr ⟨m, hm⟩
          have hlt := ((readN_reads n).1 _ _ _ hfirst).length_lt hnull herr
          rw [extra_value hnull herr] at hle
          rw [readListN_first rfl hcur hfirst hnull herr]
          obtain ⟨rest, u, hrest, hle'⟩ | ⟨u, hexit, hpool⟩ := ihList t (by simp only at *; omega)
          · rw [bind_ok hrest]
            exact allocNode_returns _ (by omega)
          · exact .inr ⟨u, bind_exit hexit, by omega⟩
    · simp only [readListN, if_neg hcur]
      exact .inr ⟨t, bind_exit hexit, by omega⟩

theorem readN_returns (n : ℕ) :
    (∀ s, 2 * s.src.length + 1 ≤ n → ReturnsExpr (cost s) (readExprN n s)) ∧
    (∀ s, 2 * s.src.length + 2 ≤ n → ReturnsList (cost s) (readListN n s)) := by
  induction n with
  | zero => exact ⟨fun s h => by omega, fun s h => by omega⟩
  | succ n ih => exact ⟨readExprN_returns ih.2, readListN_returns ih.1 ih.2⟩

theorem readExpr_returns (s : Interp) : ReturnsExpr (cost s) (readExpr s) :=
  (readN_returns _).1 s (by omega)

/-- A value costs no more than the characters it takes away. -/
theorem readExpr_cost_le (hnull : v ≠ .null) (herr : ∀ m, v ≠ .err m)
    (h : readExpr { s with src := skipSpace s.src } = .ok v s') : cost s' ≤ cost s := by
  have hlen := skipSpace_length_le s.src
  obtain ⟨w, t, hread, hle⟩ | ⟨t, hread, _⟩ := readExpr_returns { s with src := skipSpace s.src }
  · rw [h] at hread
    cases hread
    rw [extra_value hnull herr] at hle
    simp only [cost, nodeSize] at *
    omega
  · rw [h] at hread
    cases hread

theorem readExpr_reads (h : readExpr s = .ok v s') : ReadsExpr s.src v s'.src :=
  (readN_reads _).1 s v s' h

end LispDos.Lisp
