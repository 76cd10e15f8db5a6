import LispDos.Verification.Lisp.Programs

/-! # Variables that a script leaves alone

Code is only in the trees of the script and in the functions that they define. A variable that no
form of them names to set keeps its value, whatever is called. -/

namespace LispDos.Lisp

open Foundation

/-- A `defun` or `setq` form for the variable is in the code. -/
def Node.Sets (x : List UInt8) : Node → Prop
  | .list first rest =>
      (Special first ∧ rest.first?.bind Node.sym? = some x) ∨ first.Sets x ∨ rest.Sets x
  | .func params body => params.Sets x ∨ body.Sets x
  | _ => False

/-- No value of the environment has code that sets the variable. -/
def Leaves (x : List UInt8) (env : List EnvVar) : Prop := ∀ v ∈ env, ¬ v.val.Sets x

/-- No part of a phrase sets the variable. -/
def Phrase.Leaves (x : List UInt8) : {α : Type} → Phrase α → Prop
  | _, .node e => ¬ e.Sets x
  | _, .args e _ => ¬ e.Sets x

/-- No part of what it gives sets the variable. -/
def Phrase.Gives (x : List UInt8) : {α : Type} → Phrase α → α → Prop
  | _, .node _, v => ¬ v.Sets x
  | _, .args _ _, vs => ∀ v ∈ vs, ¬ v.Sets x

variable {α : Type} {x y name : List UInt8} {e v rest params body : Node} {vs : List Node}
  {g g' locals env : List EnvVar} {out : List UInt8} {k n : ℕ} {s t : Interp}

theorem not_sets_first (h : ¬ e.Sets x) (hv : e.first? = some v) : ¬ v.Sets x := by
  cases e with
  | null => cases hv
  | list first rest =>
      cases hv
      exact fun hsets => h (.inr (.inl hsets))
  | func params body =>
      cases hv
      exact fun hsets => h (.inl hsets)
  | _ =>
      cases hv
      exact id

theorem not_sets_rest (h : ¬ e.Sets x) (hv : e.rest? = some v) : ¬ v.Sets x := by
  cases e with
  | null => cases hv
  | list first rest =>
      cases hv
      exact fun hsets => h (.inr (.inr hsets))
  | func params body =>
      cases hv
      exact fun hsets => h (.inr hsets)
  | _ =>
      cases hv
      exact id

theorem leaves_store {b : EnvVar} (hg : Leaves x g) (hb : ¬ b.val.Sets x) : Leaves x (store g b) := by
  intro w hw
  rcases mem_tablePut hw with hmem | rfl
  · exact hg w hmem
  · exact hb

theorem find_store_ne {b : EnvVar} (hne : x ≠ b.sym) :
    tableFind EnvVar.sym (store g b) x = tableFind EnvVar.sym g x :=
  tableFind_put_ne hne

theorem leaves_lookup (hlocals : Leaves x locals) (hg : Leaves x g)
    (h : lookupVar locals g y = some v) : ¬ v.Sets x := by
  obtain ⟨w, hw, rfl⟩ := Option.map_eq_some_iff.mp h
  rcases Option.or_eq_some_iff.mp hw with hfind | ⟨-, hfind⟩
  · exact hlocals w (List.mem_of_find?_eq_some hfind)
  · exact hg w (List.mem_of_find?_eq_some hfind)

theorem leaves_bindAll (hvs : ∀ v ∈ vs, ¬ v.Sets x) (h : bindAll params vs = some env) :
    Leaves x env := by
  induction params generalizing vs env with
  | list param params _ ih =>
      cases vs with
      | nil =>
          cases h
          exact fun v hv => nomatch hv
      | cons v vs =>
          obtain ⟨name, -, h⟩ := Option.bind_eq_some_iff.mp h
          obtain ⟨tail, htail, h⟩ := Option.bind_eq_some_iff.mp h
          cases h
          intro w hw
          rcases List.mem_cons.mp hw with rfl | hmem
          · exact hvs v List.mem_cons_self
          · exact ih (fun w hw => hvs w (List.mem_cons_of_mem _ hw)) htail w hmem
  | _ =>
      cases h
      exact fun v hv => nomatch hv

theorem not_sets_divNums (h : divNums vs = some v) : ¬ v.Sets x := by
  match vs, h with
  | [], h => cases h; exact id
  | [_], h => cases h; exact id
  | a :: b :: _, h =>
      obtain ⟨divisor, -, h⟩ := Option.bind_eq_some_iff.mp h
      split_ifs at h
      · obtain ⟨dividend, -, h⟩ := Option.bind_eq_some_iff.mp h
        split_ifs at h
        cases h
        exact id
      · cases h
        exact id

/-- A form sets another variable. -/
theorem ne_of_special {first name : Node} (h : ¬ (Node.list first rest).Sets x)
    (special : Special first) (hname : rest.first? = some name) (hy : name.sym? = some y) :
    x ≠ y := by
  rintro rfl
  exact h (.inl ⟨special, by rw [hname]; exact hy⟩)

/-- A builtin function returns no code. -/
theorem not_sets_applyBuiltin (h : applyBuiltin name vs = some (v, out)) : ¬ v.Sets x := by
  rw [applyBuiltin] at h
  split_ifs at h
  iterate 3
    · obtain ⟨n, -, hn⟩ := Option.map_eq_some_iff.mp h
      cases hn
      exact id
  · obtain ⟨w, hw, hv⟩ := Option.map_eq_some_iff.mp h
    cases hv
    exact not_sets_divNums hw
  · obtain ⟨cs, -, hv⟩ := Option.map_eq_some_iff.mp h
    cases hv
    exact id
  · cases h
    exact id

/-- An evaluation among code that does not set the variable leaves it alone, and gives no code
that sets it. -/
theorem Evals.leaves {u : Phrase α} {a : α} (h : Evals u locals g a g' out k) (hu : u.Leaves x)
    (hlocals : Leaves x locals) (hg : Leaves x g) :
    u.Gives x a ∧ Leaves x g' ∧ tableFind EnvVar.sym g' x = tableFind EnvVar.sym g x := by
  induction h with
  | null => exact ⟨id, hg, rfl⟩
  | num n => exact ⟨id, hg, rfl⟩
  | nil => exact ⟨id, hg, rfl⟩
  | «variable» value => exact ⟨leaves_lookup hlocals hg value, hg, rfl⟩
  | builtin => exact ⟨id, hg, rfl⟩
  | unset => exact ⟨id, hg, rfl⟩
  | err m => exact ⟨id, hg, rfl⟩
  | func params body => exact ⟨id, hg, rfl⟩
  | defun hname hrest hparams hrest' hbody hx =>
      have htail := not_sets_rest (not_sets_rest hu rfl) hrest
      have hparams' := not_sets_first htail hparams
      have hbody' := not_sets_first (not_sets_rest htail hrest') hbody
      refine ⟨id, leaves_store hg ?_, find_store_ne (ne_of_special hu (.inl rfl) hname hx)⟩
      exact fun hsets => hsets.elim hparams' hbody'
  | setq hname hrest hvalue hx _ ih =>
      have hexpr := not_sets_first (not_sets_rest (not_sets_rest hu rfl) hrest) hvalue
      obtain ⟨hv, hg', hfind⟩ := ih hexpr hlocals hg
      have hne := ne_of_special hu (.inr rfl) hname hx
      exact ⟨hv, leaves_store hg' hv, (find_store_ne hne).trans hfind⟩
  | headErr ne_null not_special _ ih => exact ih (not_sets_first hu rfl) hlocals hg
  | callBuiltin ne_null not_special _ _ result ihHead ihArgs =>
      obtain ⟨-, hg₁, hfind₁⟩ := ihHead (not_sets_first hu rfl) hlocals hg
      obtain ⟨-, hg₂, hfind₂⟩ := ihArgs (not_sets_rest hu rfl) hlocals hg₁
      exact ⟨not_sets_applyBuiltin result, hg₂, hfind₂.trans hfind₁⟩
  | callFunc ne_null not_special _ _ bound _ ihHead ihArgs ihResult =>
      obtain ⟨hf, hg₁, hfind₁⟩ := ihHead (not_sets_first hu rfl) hlocals hg
      obtain ⟨hvs, hg₂, hfind₂⟩ := ihArgs (not_sets_rest hu rfl) hlocals hg₁
      obtain ⟨hv, hg₃, hfind₃⟩ := ihResult (not_sets_rest hf rfl) (leaves_bindAll hvs bound) hg₂
      exact ⟨hv, hg₃, hfind₃.trans (hfind₂.trans hfind₁)⟩
  | callOther ne_null not_special _ hf _ ihHead ihArgs =>
      obtain ⟨-, hg₁, hfind₁⟩ := ihHead (not_sets_first hu rfl) hlocals hg
      obtain ⟨-, hg₂, hfind₂⟩ := ihArgs (not_sets_rest hu rfl) hlocals hg₁
      exact ⟨id, hg₂, hfind₂.trans hfind₁⟩
  | argsEnd last => exact ⟨by simp [Phrase.Gives], hg, rfl⟩
  | argsNext room _ _ ihValue ihOthers =>
      obtain ⟨hv, hg₁, hfind₁⟩ := ihValue (not_sets_first hu rfl) hlocals hg
      obtain ⟨hvs, hg₂, hfind₂⟩ := ihOthers (not_sets_rest hu rfl) hlocals hg₁
      exact ⟨List.forall_mem_cons.mpr ⟨hv, hvs⟩, hg₂, hfind₂.trans hfind₁⟩

/-- The expressions of a script leave a variable alone together. -/
theorem ScriptMeans.leaves {es : List SExpr} {last : Option Node} {trees : List Node} {r : Verdict}
    (h : ScriptMeans es last g trees r g' out k) (hes : ∀ e ∈ es, ¬ e.tree.Sets x)
    (hg : Leaves x g) : Leaves x g' ∧ tableFind EnvVar.sym g' x = tableFind EnvVar.sym g x := by
  induction h with
  | finished => exact ⟨hg, rfl⟩
  | evalError value =>
      exact (value.leaves (hes _ List.mem_cons_self) (by simp [Leaves]) hg).2
  | next ne_null not_err value others ih =>
      obtain ⟨-, hg₁, hfind₁⟩ := value.leaves (hes _ List.mem_cons_self) (by simp [Leaves]) hg
      obtain ⟨hg₂, hfind₂⟩ := ih (fun e he => hes e (List.mem_cons_of_mem _ he)) hg₁
      exact ⟨hg₂, hfind₂.trans hfind₁⟩

/-- The state in which the loop ends by itself. -/
def ScriptEnd.state? : ScriptEnd → Option Interp
  | .finished _ s => some s
  | .evalError s => some s
  | _ => none

theorem Verdict.state?_scriptEnd (r : Verdict) (s : Interp) :
    ∃ u, (r.scriptEnd s).state? = some u ∧ u.globals = s.globals := by
  cases r with
  | finished => exact ⟨_, rfl, rfl⟩
  | evalError => exact ⟨_, rfl, rfl⟩

/-- A variable that no form of the script sets, nor one of a function that is there before, is the
same after the script as before it. -/
theorem script_leaves_variable {es : List SExpr} {last : Option Node}
    (htext : ScriptText es s.src) (hpool : s.pool ≤ poolSize) (hn : es.length < n)
    (hes : ∀ e ∈ es, ¬ e.tree.Sets x) (hg : Leaves x s.globals)
    (h : (scriptLoop (fun e => evaluate e []) n last s).2.state? = some t) :
    tableFind EnvVar.sym t.globals x = tableFind EnvVar.sym s.globals x := by
  have hended : Ended (scriptLoop (fun e => evaluate e []) n last s).2 := by
    revert h
    cases (scriptLoop (fun e => evaluate e []) n last s).2 <;> simp [ScriptEnd.state?, Ended]
  obtain ⟨r, g', out, k, src, hmeans, -, hend⟩ := scriptMeans_of_loop hended htext hpool hn rfl
  obtain ⟨u, hu, hglobals⟩ := r.state?_scriptEnd ⟨src, s.pool + nodeSize * k, g', s.output ++ out⟩
  rw [hend, hu] at h
  cases h
  rw [hglobals]
  exact (hmeans.leaves hes hg).2

/-- The function `() -> (setq y 3)`. -/
def setsY : Node :=
  .func .nil (.list (.sym (text "setq")) (.list (.sym (text "y")) (.list (.num 3) .nil)))

theorem setsY_not_sets : ¬ setsY.Sets (text "x") := by
  simp only [setsY, Node.Sets, Special, Node.first?]
  decide

/-- A call of a function that sets `y` leaves `x` as it is. -/
theorem script_leaves_variable_call :
    ∃ t, (scriptLoop (fun e => evaluate e []) 2 none
        ⟨text "(f)", 0, [⟨text "f", setsY⟩, ⟨text "x", .num 5⟩], []⟩).2.state? = some t ∧
      tableFind EnvVar.sym t.globals (text "x") = some ⟨text "x", .num 5⟩ := by
  have hf : Atom (.sym (text "f")) (text "f") :=
    .of_not_isNum (by decide) (by decide) (by decide +kernel) (by decide)
  have htext : ScriptText [.list [.sym (text "f")]] (text "(f)") :=
    .list [] (text "f)") [] _ _ (by simp)
      (.atom [] (text "f") (text ")") _ _ (by simp) hf (by decide) (.nil [] (by simp))) (.nil [] (by simp))
  have hhead : Evals (.node (.sym (text "f"))) [] [⟨text "f", setsY⟩, ⟨text "x", .num 5⟩] setsY
      [⟨text "f", setsY⟩, ⟨text "x", .num 5⟩] [] 0 := .variable rfl
  have hbody : Evals (.node (.list (.sym (text "setq")) (.list (.sym (text "y"))
      (.list (.num 3) .nil)))) [] [⟨text "f", setsY⟩, ⟨text "x", .num 5⟩] (.num 3)
      (store [⟨text "f", setsY⟩, ⟨text "x", .num 5⟩] ⟨text "y", .num 3⟩) [] 0 :=
    .setq rfl rfl rfl rfl (.num 3)
  have hcall : Evals (.node (SExpr.tree (.list [.sym (text "f")]))) []
      [⟨text "f", setsY⟩, ⟨text "x", .num 5⟩] (.num 3)
      (store [⟨text "f", setsY⟩, ⟨text "x", .num 5⟩] ⟨text "y", .num 3⟩) [] 0 :=
    .callFunc (by simp) (by simp [Special]; decide) hhead (.argsEnd (by simp [itemsTree, IsList])) rfl hbody
  have hmeans : ScriptMeans _ none _ _ _ _ _ _ :=
    .next (by simp) (by simp [IsErr]) hcall .finished
  obtain ⟨src, hloop⟩ := hmeans.loop_eq (n := 2)
    (s := ⟨text "(f)", 0, [⟨text "f", setsY⟩, ⟨text "x", .num 5⟩], []⟩) htext (by decide) (by decide)
  have hstate := congrArg (fun r => r.2.state?) hloop
  refine ⟨_, hstate, ?_⟩
  refine (script_leaves_variable htext (by decide) (by decide) ?_ ?_ hstate).trans (by decide)
  · simp [SExpr.tree, itemsTree, Node.Sets, Special]
    decide
  · simp [Leaves, setsY_not_sets, Node.Sets]

end LispDos.Lisp
