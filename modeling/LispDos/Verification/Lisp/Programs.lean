import LispDos.Tools.LispRun
import LispDos.Verification.Lisp.BigStep
import LispDos.Verification.Lisp.Reading

/-! # The meaning of a script

A script writes a sequence of expressions. The loop of `_start` reads and evaluates one after the
other, and its end is the meaning of the sequence, as long as the pool has room for the trees
and the values together. -/

namespace LispDos.Lisp

/-! ## Scripts and their meaning -/

/-- The texts that write a sequence of expressions. -/
inductive ScriptText : List SExpr → List UInt8 → Prop where
  | nil (ws : List UInt8) (hws : ∀ c ∈ ws, isSpace c = true) : ScriptText [] ws
  | atom (ws a u : List UInt8) (e : SExpr) (es : List SExpr) (hws : ∀ c ∈ ws, isSpace c = true)
      (hatom : Atom e a) (hdelim : isDelim (cur u) = true) (others : ScriptText es u) :
      ScriptText (e :: es) (ws ++ (a ++ u))
  | list (ws t u : List UInt8) (is es : List SExpr) (hws : ∀ c ∈ ws, isSpace c = true)
      (hinner : Items is t) (others : ScriptText es u) :
      ScriptText (.list is :: es) (ws ++ (0x28 :: t ++ u))

/-- The end of a script, and the message of the error that ended it early. -/
inductive Verdict where
  | finished (last : Option Node)
  | evalError (m : List UInt8)

def Verdict.scriptEnd : Verdict → Interp → ScriptEnd
  | .finished last, s => .finished last { s with src := [] }
  | .evalError m, s => .evalError (s.say (text "LISP EVAL ERROR: " ++ m ++ text "\n"))

/-- A sequence of expressions, after the value `last` and among global variables, evaluates the
trees, ends, leaves global variables, prints a text and takes a number of nodes. -/
inductive ScriptMeans : List SExpr → Option Node → List EnvVar → List Node → Verdict →
    List EnvVar → List UInt8 → ℕ → Prop where
  | finished {last g} : ScriptMeans [] last g [] (.finished last) g [] 0
  | evalError {e es last g m g' out k} (value : Evals (.node e.tree) [] g (.err m) g' out k) :
      ScriptMeans (e :: es) last g [e.tree] (.evalError m) g' out (e.tree.nodes + k)
  | next {e es last g v g₁ out₁ k₁ trees r g₂ out₂ k₂} (ne_null : v ≠ .null) (not_err : ¬ IsErr v)
      (value : Evals (.node e.tree) [] g v g₁ out₁ k₁)
      (others : ScriptMeans es (some v) g₁ trees r g₂ out₂ k₂) :
      ScriptMeans (e :: es) last g (e.tree :: trees) r g₂ (out₁ ++ out₂) (e.tree.nodes + k₁ + k₂)

variable {e : SExpr} {es is : List SExpr} {u a t rest : List UInt8} {n fuel index : ℕ}
  {g g' g₁ g₂ : List EnvVar} {out out₁ out₂ : List UInt8} {k k₁ k₂ : ℕ} {s s' : Interp} {v : Node}
  {last : Option Node} {trees : List Node} {r : Verdict}

theorem Atom.of_not_isNum (hne : a ≠ []) (hlen : a.length ≤ 31) (hchars : ∀ c ∈ a, isDelim c = false)
    (hnum : isNum a = false) : Atom (.sym a) a := by
  refine .sym a hne hlen hchars fun v hv => ?_
  rw [(isNum_iff hne).mpr ⟨v, hv⟩] at hnum
  cases hnum

/-! ## Reading into a full pool -/

theorem allocNode_full (v : Node) (h : poolSize < s.pool + nodeSize) :
    ∃ s', allocNode v s = .exit s' := by
  rw [allocNode, if_pos h]
  exact ⟨_, rfl⟩

theorem readListN_exit {s₁ : Interp} (hsrc : skipSpace s.src = t) (hcur : cur t ≠ 0x29)
    (hfirst : readExprN n { s with src := t } = .exit s₁) : readListN (n + 1) s = .exit s₁ := by
  simp only [readListN, hsrc, if_neg hcur]
  exact bind_exit hfirst

theorem readExprN_full (hatom : Atom e a) (hdelim : isDelim (cur rest) = true)
    (hsrc : skipSpace s.src = a ++ rest) (hfull : poolSize < s.pool + nodeSize) :
    ∃ s', readExprN (n + 1) s = .exit s' := by
  obtain ⟨hzero, _, hopen, hclose⟩ := not_delim_iff.mp (hatom.not_delim_cur rest)
  simp only [readExprN, hsrc, if_neg hzero, if_neg hopen, if_neg hclose]
  rw [readAtom_run hatom.ne_nil hatom.not_delim hdelim rfl]
  exact allocNode_full _ hfull

/-- A list that does not fit in the pool ends the process. -/
theorem readListN_full (h : Items es u) (rest : List UInt8) (s : Interp) (fuel : ℕ)
    (hsrc : s.src = u ++ rest) (hfuel : 2 * u.length ≤ fuel)
    (hfull : poolSize < s.pool + nodeSize * (itemsTree es).nodes) :
    ∃ s', readListN fuel s = .exit s' := by
  induction h generalizing rest s fuel with
  | nil ws hws =>
      obtain ⟨n, rfl⟩ : ∃ n, fuel = n + 1 := Nat.exists_eq_add_one.mpr (by simp at hfuel; omega)
      have hskip : skipSpace s.src = 0x29 :: rest := by
        rw [hsrc, List.append_assoc]
        exact skipSpace_append hws rfl
      simp only [itemsTree, Node.nodes, Nat.mul_one] at hfull
      simp only [readListN, hskip]
      exact allocNode_full _ hfull
  | atom ws a u e es hws hatom hdelim hitems ih =>
      have hne : 0 < a.length := List.length_pos_iff.mpr hatom.ne_nil
      simp only [List.length_append] at hfuel
      simp only [itemsTree, Node.nodes, hatom.nodes, nodeSize] at hfull
      obtain ⟨n, rfl⟩ : ∃ n, fuel = n + 2 := ⟨fuel - 2, by omega⟩
      have hcur : isDelim (cur (u ++ rest)) = true := by rw [hitems.cur_append, hdelim]
      have hskip : skipSpace s.src = a ++ (u ++ rest) := by
        rw [hsrc, List.append_assoc, List.append_assoc]
        exact skipSpace_append hws (not_delim_iff.mp (hatom.not_delim_cur _)).2.1
      have hclose := (not_delim_iff.mp (hatom.not_delim_cur (u ++ rest))).2.2.2
      by_cases hfirst : poolSize < s.pool + nodeSize
      · have hagain : skipSpace (a ++ (u ++ rest)) = a ++ (u ++ rest) :=
          skipSpace_append no_space (not_delim_iff.mp (hatom.not_delim_cur _)).2.1
        obtain ⟨s', hs'⟩ := readExprN_full (s := { s with src := a ++ (u ++ rest) }) (n := n) hatom hcur
          hagain hfirst
        exact ⟨s', readListN_exit hskip hclose hs'⟩
      · have hread := readExprN_atom (s := { s with src := a ++ (u ++ rest) }) (n := n) hatom hcur
          no_space rfl (Nat.le_of_not_lt hfirst)
        rw [readListN_first hskip hclose hread e.tree_ne_null e.tree_ne_err]
        by_cases htail : poolSize < s.pool + nodeSize + nodeSize * (itemsTree es).nodes
        · obtain ⟨s', hs'⟩ := ih rest { s with src := u ++ rest, pool := s.pool + nodeSize } (n + 1) rfl
            (by omega) htail
          exact ⟨s', bind_exit hs'⟩
        · rw [bind_ok (readListN_items hitems rest { s with src := u ++ rest, pool := s.pool + nodeSize }
            (n + 1) rfl (by omega) (Nat.le_of_not_lt htail))]
          exact allocNode_full _ (by simp only [nodeSize] at *; omega)
  | list ws t u is es hws hinner hitems ih₁ ih₂ =>
      simp only [List.length_append, List.length_cons] at hfuel
      simp only [itemsTree, SExpr.tree, Node.nodes, nodeSize] at hfull
      obtain ⟨n, rfl⟩ : ∃ n, fuel = n + 2 := ⟨fuel - 2, by omega⟩
      have hskip : skipSpace s.src = 0x28 :: (t ++ (u ++ rest)) := by
        rw [hsrc, List.append_assoc, List.append_assoc]
        exact skipSpace_append hws rfl
      have hparen := readExprN_paren (s := { s with src := 0x28 :: (t ++ (u ++ rest)) }) (n := n)
        no_space rfl
      by_cases hfirst : poolSize < s.pool + nodeSize * (itemsTree is).nodes
      · obtain ⟨s', hs'⟩ := ih₁ (u ++ rest) { s with src := t ++ (u ++ rest) } n rfl (by omega) hfirst
        exact ⟨s', readListN_exit hskip (by simp [cur]) (hparen.trans hs')⟩
      · have hread := hparen.trans (readListN_items hinner (u ++ rest)
          { s with src := t ++ (u ++ rest) } n rfl (by omega) (Nat.le_of_not_lt hfirst))
        rw [readListN_first hskip (by simp [cur]) hread (SExpr.list is).tree_ne_null
          (SExpr.list is).tree_ne_err]
        by_cases htail : poolSize <
            s.pool + nodeSize * (itemsTree is).nodes + nodeSize * (itemsTree es).nodes
        · obtain ⟨s', hs'⟩ := ih₂ rest
            { s with src := u ++ rest, pool := s.pool + nodeSize * (itemsTree is).nodes } (n + 1) rfl
            (by omega) htail
          exact ⟨s', bind_exit hs'⟩
        · rw [bind_ok (readListN_items hitems rest
            { s with src := u ++ rest, pool := s.pool + nodeSize * (itemsTree is).nodes } (n + 1) rfl
            (by omega) (Nat.le_of_not_lt htail))]
          exact allocNode_full _ (by simp only [nodeSize] at *; omega)

/-! ## The expressions of a script -/

theorem ScriptText.skipSpace_nil (h : ScriptText [] u) : skipSpace u = [] := by
  cases h with
  | nil _ hws =>
      rw [← skipSpace_append hws (show isSpace (cur []) = false from rfl), List.append_nil]

/-- The reader takes the first expression of a script, or the pool is full. -/
theorem ScriptText.first (h : ScriptText (e :: es) u) :
    ∃ rest, ScriptText es rest ∧ cur (skipSpace u) ≠ 0 ∧ ∀ s : Interp, s.src = skipSpace u →
      if s.pool + nodeSize * e.tree.nodes ≤ poolSize then
        readExpr s = .ok e.tree { s with src := rest, pool := s.pool + nodeSize * e.tree.nodes }
      else ∃ s', readExpr s = .exit s' := by
  cases h with
  | atom ws a rest _ _ hws hatom hdelim others =>
      obtain ⟨hzero, hspace, -⟩ := not_delim_iff.mp (hatom.not_delim_cur rest)
      have hskip : skipSpace (ws ++ (a ++ rest)) = a ++ rest := skipSpace_append hws hspace
      rw [hskip]
      refine ⟨rest, others, hzero, fun s hsrc => ?_⟩
      rw [hatom.nodes, Nat.mul_one]
      split_ifs with hfits
      · exact readExprN_atom hatom hdelim no_space hsrc hfits
      · exact readExprN_full hatom hdelim (by rw [hsrc]; exact skipSpace_append no_space hspace)
          (Nat.lt_of_not_le hfits)
  | list ws t rest is _ hws hinner others =>
      have hskip : skipSpace (ws ++ (0x28 :: t ++ rest)) = 0x28 :: (t ++ rest) :=
        skipSpace_append hws rfl
      rw [hskip]
      refine ⟨rest, others, by simp [cur], fun s hsrc => ?_⟩
      rw [readExpr, readExprN_paren no_space hsrc]
      have hfuel : 2 * t.length ≤ 2 * s.src.length + 1 := by
        rw [hsrc]
        simp only [List.length_cons, List.length_append]
        omega
      split_ifs with hfits
      · exact readListN_items hinner rest { s with src := t ++ rest } _ rfl hfuel hfits
      · exact readListN_full hinner rest { s with src := t ++ rest } _ rfl hfuel
          (Nat.lt_of_not_le hfits)

/-! ## The loop -/

/-- What a round makes of the outcome of `eval`. -/
def afterEval (ast : Node) (next : Option Node → Interp → List Node × ScriptEnd) :
    Outcome Node → List Node × ScriptEnd
  | .ok .null _ => ([ast], .evalStopped)
  | .ok (.err m) s => ([ast], .evalError (s.say (text "LISP EVAL ERROR: " ++ m ++ text "\n")))
  | .ok v s => (ast :: (next (some v) s).1, (next (some v) s).2)
  | _ => ([ast], .evalStopped)

theorem afterEval_next (ast : Node) (next : Option Node → Interp → List Node × ScriptEnd)
    (s : Interp) (ne_null : v ≠ .null) (not_err : ¬ IsErr v) :
    afterEval ast next (.ok v s) = (ast :: (next (some v) s).1, (next (some v) s).2) := by
  cases v with
  | null => exact absurd rfl ne_null
  | err m => exact absurd ⟨m, rfl⟩ not_err
  | _ => rfl

/-- A round of the loop. -/
theorem scriptLoop_first (n : ℕ) (last : Option Node) (htext : ScriptText (e :: es) s.src)
    (hfits : s.pool + nodeSize * e.tree.nodes ≤ poolSize) :
    ∃ rest, ScriptText es rest ∧
      scriptLoop (fun e => evaluate e []) (n + 1) last s =
        afterEval e.tree (scriptLoop (fun e => evaluate e []) n)
          (evaluate e.tree [] ⟨rest, s.pool + nodeSize * e.tree.nodes, s.globals, s.output⟩) := by
  obtain ⟨rest, hothers, hcur, hread⟩ := htext.first
  have hfirst := hread { s with src := skipSpace s.src } rfl
  rw [if_pos hfits] at hfirst
  refine ⟨rest, hothers, ?_⟩
  rw [scriptLoop_read hcur e.tree_ne_null e.tree_ne_err hfirst]
  rfl

theorem scriptLoop_full (n : ℕ) (last : Option Node) (htext : ScriptText (e :: es) s.src)
    (hfull : ¬ s.pool + nodeSize * e.tree.nodes ≤ poolSize) :
    ∃ s', scriptLoop (fun e => evaluate e []) (n + 1) last s = ([], .readExited s') := by
  obtain ⟨rest, -, hcur, hread⟩ := htext.first
  have hexit := hread { s with src := skipSpace s.src } rfl
  rw [if_neg hfull] at hexit
  obtain ⟨s', hs'⟩ := hexit
  exact ⟨s', by rw [scriptLoop, if_neg hcur, hs']⟩

theorem scriptLoop_end (htext : ScriptText [] s.src) :
    scriptLoop (fun e => evaluate e []) (n + 1) last s =
      ([], .finished last ⟨[], s.pool, s.globals, s.output⟩) := by
  simp only [scriptLoop, htext.skipSpace_nil]
  rfl

theorem Evals.evaluate_at {e : Node} {src output : List UInt8} {p : ℕ}
    (h : Evals (.node e) [] g v g' out k) (hfits : p + nodeSize * k ≤ poolSize) :
    evaluate e [] ⟨src, p, g, output⟩ = .ok v ⟨src, p + nodeSize * k, g', output ++ out⟩ :=
  h.spends.ok ⟨src, p, g, output⟩ rfl hfits

/-- The loop hands the trees of a meaning to `eval`, and ends as it says. -/
theorem ScriptMeans.loop_eq (h : ScriptMeans es last s.globals trees r g' out k)
    (htext : ScriptText es s.src) (hn : es.length < n) (hfits : s.pool + nodeSize * k ≤ poolSize) :
    ∃ src, scriptLoop (fun e => evaluate e []) n last s =
      (trees, r.scriptEnd ⟨src, s.pool + nodeSize * k, g', s.output ++ out⟩) := by
  obtain ⟨n, rfl⟩ : ∃ m, n = m + 1 := Nat.exists_eq_add_one.mpr (by omega)
  generalize hg : s.globals = g at h
  induction h generalizing n s with
  | finished =>
      subst hg
      exact ⟨[], by rw [scriptLoop_end htext, List.append_nil]; rfl⟩
  | evalError value =>
      subst hg
      rw [Nat.mul_add, ← Nat.add_assoc] at hfits ⊢
      obtain ⟨rest, -, hround⟩ := scriptLoop_first _ _ htext (Nat.le_of_add_right_le hfits)
      refine ⟨rest, ?_⟩
      rw [hround, value.evaluate_at hfits]
      rfl
  | next ne_null not_err value others ih =>
      rename_i out₁ _ _ _ _ _ _
      subst hg
      rw [Nat.mul_add, Nat.mul_add, ← Nat.add_assoc, ← Nat.add_assoc] at hfits ⊢
      obtain ⟨n, rfl⟩ : ∃ m, n = m + 1 := Nat.exists_eq_add_one.mpr (by simp at hn; omega)
      obtain ⟨rest, hothers, hround⟩ := scriptLoop_first _ _ htext (by omega)
      obtain ⟨src, hloop⟩ := ih (s := ⟨rest, _, _, s.output ++ out₁⟩) hothers hfits n
        (by simpa using hn) rfl
      refine ⟨src, ?_⟩
      rw [hround, value.evaluate_at (by omega), afterEval_next _ _ _ ne_null not_err, hloop,
        List.append_assoc]

/-- The loop read the whole script, or it printed the error of an evaluation. -/
def Ended : ScriptEnd → Prop
  | .finished _ _ => True
  | .evalError _ => True
  | _ => False

/-- A loop that ends comes to the meaning. -/
theorem scriptMeans_of_loop {ending : ScriptEnd} (hended : Ended ending)
    (htext : ScriptText es s.src) (hpool : s.pool ≤ poolSize) (hn : es.length < n)
    (h : scriptLoop (fun e => evaluate e []) n last s = (trees, ending)) :
    ∃ r g' out k src, ScriptMeans es last s.globals trees r g' out k ∧
      s.pool + nodeSize * k ≤ poolSize ∧
      ending = r.scriptEnd ⟨src, s.pool + nodeSize * k, g', s.output ++ out⟩ := by
  induction es generalizing n s last trees with
  | nil =>
      obtain ⟨n, rfl⟩ : ∃ m, n = m + 1 := Nat.exists_eq_add_one.mpr (by simpa using hn)
      rw [scriptLoop_end htext] at h
      cases h
      exact ⟨_, _, [], 0, [], .finished, hpool, by rw [List.append_nil]; rfl⟩
  | cons e es ih =>
      obtain ⟨n, rfl⟩ : ∃ m, n = m + 1 := Nat.exists_eq_add_one.mpr (by omega)
      by_cases hread : s.pool + nodeSize * e.tree.nodes ≤ poolSize
      · obtain ⟨rest, hothers, hround⟩ := scriptLoop_first n last htext hread
        rw [hround] at h
        cases heval : evaluate e.tree [] ⟨rest, s.pool + nodeSize * e.tree.nodes, s.globals, s.output⟩ with
        | ok v t =>
            rw [heval] at h
            obtain ⟨out₁, k₁, hevals, hfits, ht⟩ := (evaluate_ok_iff e.tree [] hread).mp heval
            by_cases hnull : v = .null
            · subst hnull
              cases h
              cases hended
            by_cases herr : IsErr v
            · obtain ⟨m, rfl⟩ := herr
              cases h
              refine ⟨.evalError m, _, out₁, e.tree.nodes + k₁, rest, .evalError hevals, ?_, ?_⟩
              · rwa [Nat.mul_add, ← Nat.add_assoc]
              · rw [ht, Nat.mul_add, ← Nat.add_assoc]
                rfl
            rw [afterEval_next _ _ _ hnull herr] at h
            cases h
            obtain ⟨r, g', out₂, k₂, src, hmeans, hfits₂, hend⟩ :=
              ih (s := t) (by rwa [ht]) (by rwa [ht]) (by simpa using hn) rfl
            have hpool₁ : t.pool = s.pool + nodeSize * e.tree.nodes + nodeSize * k₁ := by rw [ht]
            have hout₁ : t.output = s.output ++ out₁ := by rw [ht]
            rw [hpool₁] at hfits₂ hend
            refine ⟨r, g', out₁ ++ out₂, e.tree.nodes + k₁ + k₂, src, .next hnull herr hevals hmeans,
              ?_, ?_⟩
            · rwa [Nat.mul_add, Nat.mul_add, ← Nat.add_assoc, ← Nat.add_assoc]
            · rw [hend, hout₁, Nat.mul_add, Nat.mul_add, ← Nat.add_assoc, ← Nat.add_assoc,
                List.append_assoc]
        | _ =>
            rw [heval] at h
            cases h
            cases hended
      · obtain ⟨s', hs'⟩ := scriptLoop_full n last htext hread
        rw [hs'] at h
        cases h
        cases hended

/-- A script finishes, or fails in an evaluation, exactly as the sequence of its expressions means,
and exactly if the pool has room for the nodes of the trees and of the values together. -/
theorem script_ends_iff (htext : ScriptText es s.src) (hpool : s.pool ≤ poolSize)
    (hn : es.length < n) (last : Option Node) (trees : List Node) :
    (∀ v t, scriptLoop (fun e => evaluate e []) n last s = (trees, .finished v t) ↔
      ∃ out k, ScriptMeans es last s.globals trees (.finished v) t.globals out k ∧
        s.pool + nodeSize * k ≤ poolSize ∧
        t = ⟨[], s.pool + nodeSize * k, t.globals, s.output ++ out⟩) ∧
    ∀ p g' output,
      (∃ src, scriptLoop (fun e => evaluate e []) n last s = (trees, .evalError ⟨src, p, g', output⟩)) ↔
        ∃ m out k, ScriptMeans es last s.globals trees (.evalError m) g' out k ∧
          p = s.pool + nodeSize * k ∧ p ≤ poolSize ∧
          output = s.output ++ out ++ (text "LISP EVAL ERROR: " ++ m ++ text "\n") := by
  refine ⟨fun v t => ⟨fun h => ?_, ?_⟩, fun p g' output => ⟨?_, ?_⟩⟩
  · obtain ⟨r, g', out, k, src, hmeans, hfits, hend⟩ :=
      scriptMeans_of_loop (show Ended (.finished v t) from trivial) htext hpool hn h
    cases r with
    | finished =>
        cases hend
        exact ⟨out, k, hmeans, hfits, rfl⟩
    | evalError => cases hend
  · rintro ⟨out, k, hmeans, hfits, ht⟩
    obtain ⟨src, hloop⟩ := hmeans.loop_eq htext hn hfits
    rw [hloop, ht]
    rfl
  · rintro ⟨src, h⟩
    obtain ⟨r, g', out, k, src, hmeans, hfits, hend⟩ :=
      scriptMeans_of_loop (show Ended (.evalError _) from trivial) htext hpool hn h
    cases r with
    | finished => cases hend
    | evalError m =>
        cases hend
        exact ⟨m, out, k, hmeans, rfl, hfits, rfl⟩
  · rintro ⟨m, out, k, hmeans, rfl, hfits, rfl⟩
    obtain ⟨src, hloop⟩ := hmeans.loop_eq htext hn hfits
    exact ⟨src, hloop⟩

/-- A script that sets a variable and names it finishes with its value. -/
theorem script_ends_iff_setq :
    scriptLoop (fun e => evaluate e []) 3 none ⟨text "(setq x 7)\nx", 0, [], []⟩ =
      ([.list (.sym (text "setq")) (.list (.sym (text "x")) (.list (.num 7) .nil)), .sym (text "x")],
        .finished (some (.num 7)) ⟨[], 448, [⟨text "x", .num 7⟩], []⟩) := by
  have hsetq : Atom (.sym (text "setq")) (text "setq") :=
    .of_not_isNum (by decide) (by decide) (by decide +kernel) (by decide)
  have hx : Atom (.sym (text "x")) (text "x") :=
    .of_not_isNum (by decide) (by decide) (by decide +kernel) (by decide)
  have hseven : Atom (.num (BitVec.ofInt 32 (decimalValue (text "7")))) (text "7") :=
    .num _ _ (.plus (text "7") (by decide) (by decide +kernel)) (by decide)
  have hitems : Items [.sym (text "setq"), .sym (text "x"),
      .num (BitVec.ofInt 32 (decimalValue (text "7")))] (text "setq x 7)") :=
    .atom [] (text "setq") (text " x 7)") _ _ (by simp) hsetq (by decide)
      (.atom (text " ") (text "x") (text " 7)") _ _ (by decide +kernel) hx (by decide)
        (.atom (text " ") (text "7") (text ")") _ _ (by decide +kernel) hseven (by decide)
          (.nil [] (by simp))))
  have htext : ScriptText [.list [.sym (text "setq"), .sym (text "x"),
      .num (BitVec.ofInt 32 (decimalValue (text "7")))], .sym (text "x")]
      (text "(setq x 7)\nx") :=
    .list [] (text "setq x 7)") (text "\nx") _ _ (by simp) hitems
      (.atom (text "\n") (text "x") [] _ _ (by decide +kernel) hx (by decide) (.nil [] (by simp)))
  have hvalue : Evals (.node (SExpr.tree (.list [.sym (text "setq"), .sym (text "x"),
      .num (BitVec.ofInt 32 (decimalValue (text "7")))]))) [] [] (.num 7)
      (store [] ⟨text "x", .num 7⟩) [] 0 :=
    .setq rfl rfl rfl rfl (.num 7)
  have hlast : Evals (.node (SExpr.tree (.sym (text "x")))) [] (store [] ⟨text "x", .num 7⟩) (.num 7)
      (store [] ⟨text "x", .num 7⟩) [] 0 := .variable (by decide)
  have hmeans : ScriptMeans _ none _ _ _ _ _ _ := .next (by simp) (by simp [IsErr]) hvalue
    (.next (by simp) (by simp [IsErr]) hlast .finished)
  have hends := script_ends_iff (s := ⟨text "(setq x 7)\nx", 0, [], []⟩) (n := 3) htext (by decide)
    (by decide) none [.list (.sym (text "setq")) (.list (.sym (text "x")) (.list (.num 7) .nil)),
      .sym (text "x")]
  exact (hends.1 (some (.num 7)) ⟨[], 448, [⟨text "x", .num 7⟩], []⟩).mpr
    ⟨_, _, hmeans, by decide, rfl⟩

/-! ## What is seen -/

/-- The last lines of a script. -/
def Verdict.closing : Verdict → List UInt8
  | .finished last => resultText last
  | .evalError m => text "LISP EVAL ERROR: " ++ m ++ text "\n"

theorem Verdict.shows_scriptEnd (r : Verdict) (s : Interp) :
    (r.scriptEnd s).shows = some (s.output ++ r.closing) := by
  cases r with
  | finished last => rfl
  | evalError m => rfl

/-- A process whose pool has room for the script prints that it starts, what the script means, and
the value of the last expression or the error that stopped it. -/
theorem script_shows {buffer : List UInt8} {index : ℕ} (htext : ScriptText es buffer)
    (hn : es.length < n) (hmeans : ScriptMeans es none [] trees r g' out k)
    (hfits : index + nodeSize * k ≤ poolSize) :
    (runScript (fun e => evaluate e []) n buffer index).shows =
      some (text "Executando Script LISP...\n" ++ out ++ r.closing) := by
  obtain ⟨src, hloop⟩ :=
    hmeans.loop_eq (s := ⟨buffer, index, [], text "Executando Script LISP...\n"⟩) htext hn hfits
  rw [runScript, hloop, Verdict.shows_scriptEnd]

theorem script_shows_number :
    (runScript (fun e => evaluate e []) 2 (text "7") 2).shows =
      some (text "Executando Script LISP...\nResultado: 7\n") := by
  have hseven : Atom (.num (BitVec.ofInt 32 (decimalValue (text "7")))) (text "7") :=
    .num _ _ (.plus (text "7") (by decide) (by decide +kernel)) (by decide)
  have htext : ScriptText [.num (BitVec.ofInt 32 (decimalValue (text "7")))] (text "7") :=
    .atom [] (text "7") [] _ _ (by simp) hseven (by decide) (.nil [] (by simp))
  have hvalue : Evals (.node (SExpr.tree (.num (BitVec.ofInt 32 (decimalValue (text "7")))))) [] []
      (.num (BitVec.ofInt 32 (decimalValue (text "7")))) [] [] 0 := .num _
  have hmeans : ScriptMeans _ none [] _ _ _ _ _ :=
    .next (by simp) (by simp [IsErr]) hvalue .finished
  exact (script_shows htext (show 1 < 2 by decide) hmeans (show 2 + _ ≤ poolSize by decide)).trans (by decide)

end LispDos.Lisp
