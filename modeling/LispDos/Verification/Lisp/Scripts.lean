import LispDos.Verification.Lisp.Closure
import LispDos.Verification.Lisp.Parentheses

/-! # Malformed scripts

The loop of `_start` on scripts whose parentheses do not match. -/

namespace LispDos.Lisp

variable {s s' : Interp} {src src' : List UInt8} {v : Node} {n : ℕ}

/-! ## The loop -/

/-- Evaluation does not move the cursor of the reader. -/
def KeepsSource (ev : Node → Run Node) : Prop := ∀ e s v s', ev e s = .ok v s' → s'.src = s.src

/-- The script was left inside or after an evaluation, or for want of memory. -/
def LeftEarly : ScriptEnd → Prop
  | .evalError _ => True
  | .evalStopped => True
  | .readExited _ => True
  | _ => False

/-- No tree with an error node is handed to `eval`, and a malformed script that is not left
early ends with the message of a parse error. -/
def Rejects (src : List UInt8) (r : List Node × ScriptEnd) : Prop :=
  (∀ e ∈ r.1, e.hasErr = false) ∧
    (Malformed src → (∃ t, r.2 = .parseError t) ∨ LeftEarly r.2)

/-- One round of the loop. -/
inductive Round (ev : Node → Run Node) (n : ℕ) (s : Interp) : List Node × ScriptEnd → Prop where
  | finished (last : Option Node) (t : Interp) (hend : cur (skipSpace s.src) = 0) :
      Round ev n s ([], .finished last t)
  | parseError (m : List UInt8) (t u : Interp)
      (hread : readExpr { s with src := skipSpace s.src } = .ok (.err m) t) :
      Round ev n s ([], .parseError u)
  | readExited (t : Interp) (hread : readExpr { s with src := skipSpace s.src } = .exit t)
      (hpool : poolSize < cost s + nodeSize) : Round ev n s ([], .readExited t)
  | evalStopped (e : Node) (t : Interp) (hnull : e ≠ .null) (herr : ∀ m, e ≠ .err m)
      (hread : readExpr { s with src := skipSpace s.src } = .ok e t)
      (heval : ∀ w u, ev e t = .ok w u → w = .null) : Round ev n s ([e], .evalStopped)
  | evalError (e : Node) (m : List UInt8) (t u u' : Interp) (hnull : e ≠ .null)
      (herr : ∀ m, e ≠ .err m) (hread : readExpr { s with src := skipSpace s.src } = .ok e t)
      (heval : ev e t = .ok (.err m) u) : Round ev n s ([e], .evalError u')
  | next (e w : Node) (t u : Interp) (hnull : e ≠ .null) (herr : ∀ m, e ≠ .err m)
      (hread : readExpr { s with src := skipSpace s.src } = .ok e t) (heval : ev e t = .ok w u) :
      Round ev n s (e :: (scriptLoop ev n (some w) u).1, (scriptLoop ev n (some w) u).2)

/-- A round that evaluates an expression. -/
theorem scriptLoop_read {ev : Node → Run Node} {last : Option Node} {e : Node} {t : Interp}
    (hcur : cur (skipSpace s.src) ≠ 0) (hnull : e ≠ .null) (herr : ∀ m, e ≠ .err m)
    (hread : readExpr { s with src := skipSpace s.src } = .ok e t) :
    scriptLoop ev (n + 1) last s =
      match ev e t with
      | .ok .null _ => ([e], .evalStopped)
      | .ok (.err m) s =>
          ([e], .evalError (s.say (text "LISP EVAL ERROR: " ++ m ++ text "\n")))
      | .ok v s => (e :: (scriptLoop ev n (some v) s).1, (scriptLoop ev n (some v) s).2)
      | _ => ([e], .evalStopped) := by
  rw [scriptLoop, if_neg hcur, hread]
  cases e with
  | null => exact (hnull rfl).elim
  | err m => exact (herr m rfl).elim
  | num => rfl
  | sym => rfl
  | list => rfl
  | nil => rfl
  | func => rfl

theorem scriptLoop_eval {ev : Node → Run Node} {last : Option Node} {e : Node} {t : Interp}
    (hcur : cur (skipSpace s.src) ≠ 0) (hnull : e ≠ .null) (herr : ∀ m, e ≠ .err m)
    (hread : readExpr { s with src := skipSpace s.src } = .ok e t) :
    Round ev n s (scriptLoop ev (n + 1) last s) := by
  rw [scriptLoop_read hcur hnull herr hread]
  split
  case h_1 heval =>
    refine .evalStopped e t hnull herr hread fun w u h => ?_
    rw [heval] at h
    cases h
    rfl
  case h_2 heval => exact .evalError e _ t _ _ hnull herr hread heval
  case h_3 heval => exact .next e _ t _ hnull herr hread heval
  case h_4 hne =>
    refine .evalStopped e t hnull herr hread fun w u h => ?_
    exact (hne w u h).elim

theorem scriptLoop_round (ev : Node → Run Node) (n : ℕ) (last : Option Node) (s : Interp) :
    Round ev n s (scriptLoop ev (n + 1) last s) := by
  by_cases hcur : cur (skipSpace s.src) = 0
  · simp only [scriptLoop, if_pos hcur]
    exact .finished last _ hcur
  · obtain ⟨e, t, hread, _⟩ | ⟨t, hread, hpool⟩ :=
      readExpr_returns { s with src := skipSpace s.src }
    · by_cases hnull : e = .null
      · subst hnull
        cases readExpr_reads hread with
        | eof _ hend _ _ => exact (hcur (by simpa using hend)).elim
        | complete _ _ hne _ _ _ => exact (hne rfl).elim
        | broken _ _ _ herr _ _ _ => cases herr
      · by_cases herr : ∃ m, e = .err m
        · obtain ⟨m, rfl⟩ := herr
          simp only [scriptLoop, if_neg hcur, hread]
          exact .parseError m t _ hread
        · exact scriptLoop_eval hcur hnull (fun m hm => herr ⟨m, hm⟩) hread
    · simp only [scriptLoop, if_neg hcur, hread]
      refine .readExited t hread ?_
      have hlen := skipSpace_length_le s.src
      simp only [cost, nodeSize] at *
      omega

/-- An expression at the top of the script is complete, or it is an open list that has an
element. -/
theorem ReadsExpr.value_cases (h : ReadsExpr src v src') (hnull : v ≠ .null)
    (herr : ∀ m, v ≠ .err m) :
    (v.hasErr = false ∧ openLists src [] = openLists src' []) ∨
      (v.hasErr = true ∧ ∃ st, openLists src [] = some st ∧ true ∈ st) := by
  cases h with
  | eof => exact (hnull rfl).elim
  | unmatched m _ _ => exact (herr m rfl).elim
  | error m _ _ _ _ _ => exact (herr m rfl).elim
  | complete _ _ _ hfree _ hopen => exact .inl ⟨hfree, hopen []⟩
  | broken _ _ _ herr _ _ hopen =>
      obtain ⟨ext, hmem, hext⟩ := hopen []
      exact .inr ⟨herr, ext, by simpa using hext, hmem⟩

/-- An error is reported for texts without elements in their open lists only. -/
theorem ReadsExpr.error_openListsEmpty {m : List UInt8} (h : ReadsExpr src (.err m) src') :
    OpenListsEmpty src := by
  intro st hst
  cases h with
  | unmatched _ _ hclose =>
      rw [← openLists_skipSpace, openLists_unmatched hclose] at hst
      cases hst
  | error _ _ k _ _ hopen =>
      rw [hopen] at hst
      cases hst
      simp
  | complete _ _ _ herr _ _ => cases herr
  | broken _ _ hne _ _ _ _ => exact (hne m rfl).elim

theorem openListsEmpty_skipSpace : OpenListsEmpty (skipSpace src) ↔ OpenListsEmpty src := by
  rw [OpenListsEmpty, OpenListsEmpty]
  simp only [openLists_skipSpace]

section Loop

variable {ev : Node → Run Node}

/-- Texts whose open lists are empty are rejected as they should be. -/
theorem rejects_of_openListsEmpty (hev : KeepsSource ev) (n : ℕ) (last : Option Node) (s : Interp)
    (hn : s.src.length < n) (hempty : OpenListsEmpty s.src) :
    Rejects s.src (scriptLoop ev n last s) := by
  induction n generalizing last s with
  | zero => omega
  | succ n ih =>
      have hlen := skipSpace_length_le s.src
      have hcomplete : ∀ e t, e ≠ .null → (∀ m, e ≠ .err m) →
          readExpr { s with src := skipSpace s.src } = .ok e t →
          e.hasErr = false ∧ t.src.length < s.src.length ∧
            openLists s.src [] = openLists t.src [] := by
        intro e t hnull herr hread
        have hreads := readExpr_reads hread
        have hlt : t.src.length < (skipSpace s.src).length := hreads.length_lt hnull herr
        obtain ⟨hfree, hopen⟩ | ⟨_, st, hst, hmem⟩ := hreads.value_cases hnull herr
        · rw [openLists_skipSpace] at hopen
          exact ⟨hfree, by omega, hopen⟩
        · rw [openLists_skipSpace] at hst
          exact (hempty st hst hmem).elim
      have hround := scriptLoop_round ev n last s
      generalize scriptLoop ev (n + 1) last s = r at hround ⊢
      cases hround with
      | finished last t hend =>
          refine ⟨by simp, fun hbad => ?_⟩
          exact (hbad (openLists_end hend [])).elim
      | parseError m t u hread => exact ⟨by simp, fun _ => .inl ⟨u, rfl⟩⟩
      | readExited t hread hpool => exact ⟨by simp, fun _ => .inr trivial⟩
      | evalStopped e t hnull herr hread _ =>
          refine ⟨?_, fun _ => .inr trivial⟩
          simpa using (hcomplete e t hnull herr hread).1
      | evalError e m t u u' hnull herr hread _ =>
          refine ⟨?_, fun _ => .inr trivial⟩
          simpa using (hcomplete e t hnull herr hread).1
      | next e w t u hnull herr hread heval =>
          obtain ⟨hfree, hlt, hopen⟩ := hcomplete e t hnull herr hread
          have hsrc := hev e t w u heval
          rw [← hsrc] at hlt hopen
          have hrest := ih (some w) u (by omega) (by rwa [OpenListsEmpty, ← hopen])
          refine ⟨List.forall_mem_cons.mpr ⟨hfree, hrest.1⟩, fun hbad => ?_⟩
          exact hrest.2 (by rwa [Malformed, ← hopen])

/-- A loop that is not left early reaches an open list that has an element, and hands its
tree to `eval`. -/
theorem openListsEmpty_of_rejects (hev : KeepsSource ev) (n : ℕ) (last : Option Node) (s : Interp)
    (hn : s.src.length < n) (hearly : ¬ LeftEarly (scriptLoop ev n last s).2)
    (h : ∀ e ∈ (scriptLoop ev n last s).1, e.hasErr = false) : OpenListsEmpty s.src := by
  induction n generalizing last s with
  | zero => omega
  | succ n ih =>
      have hlen := skipSpace_length_le s.src
      have hround := scriptLoop_round ev n last s
      generalize scriptLoop ev (n + 1) last s = r at hround hearly h
      cases hround with
      | finished last t hend =>
          intro st hst
          rw [openLists_end hend] at hst
          cases hst
          simp
      | parseError m t u hread =>
          exact openListsEmpty_skipSpace.mp (readExpr_reads hread).error_openListsEmpty
      | readExited t hread hfull => exact (hearly trivial).elim
      | evalStopped e t hnull herr hread heval => exact (hearly trivial).elim
      | evalError e m t u u' hnull herr hread heval => exact (hearly trivial).elim
      | next e w t u hnull herr hread heval =>
          obtain ⟨hfree, hrest⟩ := List.forall_mem_cons.mp h
          have hreads := readExpr_reads hread
          have hlt : t.src.length < (skipSpace s.src).length := hreads.length_lt hnull herr
          have hsrc := hev e t w u heval
          obtain ⟨_, hopen⟩ | ⟨htrue, _⟩ := hreads.value_cases hnull herr
          · have htail := ih (some w) u (by rw [hsrc]; omega) hearly hrest
            rw [openLists_skipSpace] at hopen
            rwa [OpenListsEmpty, hopen, ← hsrc]
          · rw [hfree] at htrue
            cases htrue

/-- An evaluator that accepts every tree. -/
def acceptAll : Node → Run Node := fun _ => pure .nil

/-- With room for the text in the pool, only an evaluation can end the loop early. -/
theorem acceptAll_not_leftEarly (n : ℕ) (last : Option Node) (s : Interp)
    (hpool : cost s + nodeSize ≤ poolSize) : ¬ LeftEarly (scriptLoop acceptAll n last s).2 := by
  induction n generalizing last s with
  | zero => exact id
  | succ n ih =>
      have hround := scriptLoop_round acceptAll n last s
      generalize scriptLoop acceptAll (n + 1) last s = r at hround ⊢
      cases hround with
      | finished last t hend => exact id
      | parseError m t u hread => exact id
      | readExited t hread hfull => omega
      | evalStopped e t hnull herr hread heval => cases heval _ _ rfl
      | evalError e m t u u' hnull herr hread heval => cases heval
      | next e w t u hnull herr hread heval =>
          cases heval
          have hcost := readExpr_cost_le hnull herr hread
          exact ih (some .nil) t (by omega)

end Loop

/-! ## Evaluation keeps the cursor -/

/-- A call that returns leaves the cursor of the reader where it is. -/
def Keeps {α : Type} (x : Run α) : Prop := ∀ s a s', x s = .ok a s' → s'.src = s.src

theorem keeps_allocNode (a : Node) : Keeps (allocNode a) := fun _ _ _ h => (allocNode_eq_ok h).2

theorem keeps_envSet (sym : List UInt8) (val : Node) : Keeps (envSet sym val) := by
  intro s a s' h
  rw [envSet] at h
  split at h
  · cases h
    rfl
  · split at h
    · cases h
      rfl
    · cases h
      rfl

theorem keeps_envGet (sym : List UInt8) (locals : List EnvVar) : Keeps (envGet sym locals) := by
  intro s a s' h
  rw [envGet] at h
  split at h
  · cases h
    rfl
  · split at h
    · cases h
      rfl
    · split at h
      · exact keeps_allocNode _ _ _ _ h
      · exact keeps_allocNode _ _ _ _ h

/-- What is not the reader does not touch the cursor. -/
theorem closed_keeps : Closed fun {α : Type} (x : Unit → Run α) => Keeps (x ()) where
  pure a := by
    intro s b s' h
    cases h
    rfl
  fault := by
    intro α s a s' h
    cases h
  bind := by
    intro α β x f hx hf s b s' h
    obtain ⟨a, t, hxa, hfa⟩ := bind_eq_ok h
    exact (hf a t b s' hfa).trans (hx s a t hxa)
  allocNode := keeps_allocNode
  print cs := by
    intro s a s' h
    cases h
    rfl
  envSet := keeps_envSet
  envGet := keeps_envGet

/-- `eval` does not touch the cursor. -/
theorem keeps_eval (fuel : ℕ) (e : Node) (locals : List EnvVar) : Keeps (eval fuel e locals) := by
  refine closed_keeps.eval ?_ fuel e locals
  intro s a s' h
  cases h

/-! ## Rejection -/

/-- A script is rejected as it should be exactly when no list that it leaves open has an
element. This is so whatever the evaluations do, and in each run of the interpreter that
is not left early. -/
theorem malformed_rejected_iff (s : Interp) (n : ℕ) (hn : s.src.length < n) :
    (∀ fuel, OpenListsEmpty s.src →
      Rejects s.src (scriptLoop (fun e => eval fuel e []) n none s)) ∧
    (∀ fuel, ¬ LeftEarly (scriptLoop (fun e => eval fuel e []) n none s).2 →
      (Rejects s.src (scriptLoop (fun e => eval fuel e []) n none s) ↔ OpenListsEmpty s.src)) ∧
    (cost s + nodeSize ≤ poolSize →
      ((∀ ev, KeepsSource ev → Rejects s.src (scriptLoop ev n none s)) ↔
        OpenListsEmpty s.src)) := by
  have hkeeps (fuel : ℕ) : KeepsSource fun e => eval fuel e [] := fun e => keeps_eval fuel e []
  refine ⟨?_, ?_, ?_⟩
  · intro fuel hempty
    exact rejects_of_openListsEmpty (hkeeps fuel) n none s hn hempty
  · intro fuel hearly
    refine ⟨fun h => ?_, rejects_of_openListsEmpty (hkeeps fuel) n none s hn⟩
    exact openListsEmpty_of_rejects (hkeeps fuel) n none s hn hearly h.1
  · intro hpool
    refine ⟨fun h => ?_, fun hempty ev hev => rejects_of_openListsEmpty hev n none s hn hempty⟩
    have haccept : KeepsSource acceptAll := fun _ => closed_keeps.pure Node.nil
    exact openListsEmpty_of_rejects haccept n none s hn (acceptAll_not_leftEarly n none s hpool)
      (h acceptAll haccept).1

/-- Two open lists without an element are rejected, a list that has its operator is not. -/
theorem malformed_rejected_iff_open :
    Rejects (text "1 ((") (scriptLoop (fun e => eval 4 e []) 8 none ⟨text "1 ((", 0, [], []⟩) ∧
    ¬ (∀ ev, KeepsSource ev →
      Rejects (text "(+ 1 2") (scriptLoop ev 8 none ⟨text "(+ 1 2", 0, [], []⟩)) := by
  constructor
  · refine (malformed_rejected_iff ⟨text "1 ((", 0, [], []⟩ 8 (by decide)).1 4 ?_
    intro st hst
    have hopen : openLists (text "1 ((") [] = some [false, false] := by decide
    rw [hopen] at hst
    cases hst
    decide
  · intro h
    have hempty := ((malformed_rejected_iff ⟨text "(+ 1 2", 0, [], []⟩ 8 (by decide)).2.2
      (by decide)).mp h
    exact hempty [true] (by decide) (by decide)

/-- The script `(+ 1 2` is malformed, but the tree of its open list is evaluated, and the
loop ends with the result 3. -/
theorem open_sum_evaluated :
    Malformed (text "(+ 1 2") ∧
    scriptLoop (fun e => eval 4 e []) 8 none ⟨text "(+ 1 2", 0, [], []⟩ =
      ([.list (.sym (text "+")) (.list (.num 1) (.list (.num 2) (.err (text "EOF"))))],
        .finished (some (.num 3)) ⟨[], 504, [], []⟩) ∧
    ¬ Rejects (text "(+ 1 2")
      (scriptLoop (fun e => eval 4 e []) 8 none ⟨text "(+ 1 2", 0, [], []⟩) := by
  have hrun : scriptLoop (fun e => eval 4 e []) 8 none ⟨text "(+ 1 2", 0, [], []⟩ =
      ([.list (.sym (text "+")) (.list (.num 1) (.list (.num 2) (.err (text "EOF"))))],
        .finished (some (.num 3)) ⟨[], 504, [], []⟩) := by decide +kernel
  refine ⟨by decide, hrun, ?_⟩
  rw [hrun]
  intro h
  exact absurd (h.1 _ (List.mem_singleton.mpr rfl)) (by decide)

end LispDos.Lisp
