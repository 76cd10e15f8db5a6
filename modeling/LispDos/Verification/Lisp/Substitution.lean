import LispDos.Verification.Lisp.Evaluation

/-! # Calls as substitution

A body without special forms is evaluated the same whether its parameters are looked up in
the local environment or have been replaced by their values. -/

namespace LispDos.Lisp

variable {e first rest body : Node} {locals σ : List EnvVar} {s t : Interp} {f : List UInt8}
  {args : List Node} {vs : List (BitVec 32)} {out : List UInt8}

/-! ## Expressions -/

mutual

/-- The expression contains no `defun` or `setq` form. -/
def Node.formFree : Node → Prop
  | .list first rest => ¬ Special first ∧ first.formFree ∧ rest.elementsFormFree
  | _ => True

def Node.elementsFormFree : Node → Prop
  | .list first rest => first.formFree ∧ rest.elementsFormFree
  | _ => True

end

/-- The list with these elements. -/
def Node.ofList : List Node → Node
  | [] => .nil
  | e :: es => .list e (ofList es)

/-- Every symbol that the environment binds is replaced by its value. -/
def Node.subst (σ : List EnvVar) : Node → Node
  | .sym x => ((σ.find? fun v => v.sym = x).map EnvVar.val).getD (.sym x)
  | .list first rest => .list (first.subst σ) (rest.subst σ)
  | e => e

/-- The parameters with their values. -/
def bindings (params : List (List UInt8)) (vs : List (BitVec 32)) : List EnvVar :=
  List.zipWith (fun p v => ⟨p, .num v⟩) params vs

/-- All values are numbers. -/
def Numeric (σ : List EnvVar) : Prop := ∀ v ∈ σ, ∃ n, v.val = .num n

theorem numeric_bindings (params : List (List UInt8)) (vs : List (BitVec 32)) :
    Numeric (bindings params vs) := by
  induction params generalizing vs with
  | nil => simp [Numeric, bindings]
  | cons p params ih =>
      cases vs with
      | nil => simp [Numeric, bindings]
      | cons v vs =>
          intro x hx
          rcases List.mem_cons.mp hx with rfl | hx
          · exact ⟨v, rfl⟩
          · exact ih vs x hx

/-! ## Evaluating a substituted expression -/

/-- A symbol is left as it is or becomes a number. -/
theorem subst_sym (hσ : Numeric σ) (x : List UInt8) :
    (σ.find? (fun v => v.sym = x) = none ∧ (Node.sym x).subst σ = .sym x) ∨
      ∃ v n, σ.find? (fun v => v.sym = x) = some v ∧ v.val = .num n ∧
        (Node.sym x).subst σ = .num n := by
  rw [Node.subst]
  cases hfind : σ.find? fun v => v.sym = x with
  | none => exact .inl ⟨rfl, rfl⟩
  | some v =>
      obtain ⟨n, hn⟩ := hσ v (List.mem_of_find?_eq_some hfind)
      exact .inr ⟨v, n, rfl, hn, hn⟩

theorem subst_eq_null (hσ : Numeric σ) : e.subst σ = .null ↔ e = .null := by
  cases e with
  | sym x => rcases subst_sym hσ x with ⟨_, h⟩ | ⟨_, _, _, _, h⟩ <;> simp [h]
  | _ => simp [Node.subst]

theorem subst_eq_sym (hσ : Numeric σ) {x : List UInt8} (h : e.subst σ = .sym x) : e = .sym x := by
  cases e with
  | sym y =>
      rcases subst_sym hσ y with ⟨_, heq⟩ | ⟨_, _, _, _, heq⟩
      · rw [← h, heq]
      · rw [heq] at h
        cases h
  | _ => simp [Node.subst] at h

theorem envGet_local {x : List UInt8} {v : EnvVar}
    (h : locals.find? (fun v => v.sym = x) = some v) (s : Interp) :
    envGet x locals s = .ok v.val s := by
  unfold envGet
  rw [h]

theorem envGet_not_local {x : List UInt8} (h : locals.find? (fun v => v.sym = x) = none)
    (s : Interp) : envGet x locals s = envGet x [] s := by
  unfold envGet
  rw [h]
  rfl

theorem evalArgs_subst {ev ev' : Node → Run Node} (hσ : Numeric σ)
    (hev : ∀ e : Node, e.formFree → ev e = ev' (e.subst σ)) (hrest : rest.elementsFormFree) (ac : ℕ) :
    evalArgs ev rest ac = evalArgs ev' (rest.subst σ) ac := by
  induction rest generalizing ac with
  | list first rest _ ih =>
      obtain ⟨hfirst, hrest⟩ := hrest
      rw [Node.subst, evalArgs, evalArgs, hev first hfirst, ih hrest]
  | sym x => rcases subst_sym hσ x with ⟨_, h⟩ | ⟨_, _, _, _, h⟩ <;> rw [h] <;> rfl
  | _ => rfl

/-- Looking the parameters up is replacing them. -/
theorem eval_subst (hσ : Numeric σ) (he : e.formFree) (n : ℕ) :
    eval n e σ = eval n (e.subst σ) [] := by
  induction n generalizing e with
  | zero => rfl
  | succ n ih =>
      cases e with
      | sym x =>
          funext s
          rcases subst_sym hσ x with ⟨hfind, h⟩ | ⟨v, m, hfind, hval, h⟩
          · rw [h]
            exact envGet_not_local hfind s
          · rw [h]
            show envGet x σ s = .ok (.num m) s
            rw [envGet_local hfind, hval]
      | list first rest =>
          obtain ⟨hspecial, hfirst, hrest⟩ := he
          have hspecial' : ¬ Special (first.subst σ) := by
            rintro (h | h)
            · exact hspecial (.inl (subst_eq_sym hσ h))
            · exact hspecial (.inr (subst_eq_sym hσ h))
          rw [Special, not_or] at hspecial hspecial'
          have hargs : evalArgs (fun e => eval n e σ) rest 0 =
              evalArgs (fun e => eval n e []) (rest.subst σ) 0 :=
            evalArgs_subst hσ (fun e he => ih he) hrest 0
          have hcall : ∀ g : Node, evalCall (eval n) g rest σ =
              evalCall (eval n) g (rest.subst σ) [] := by
            intro g
            unfold evalCall
            rw [hargs]
          rw [Node.subst]
          show evalList (eval n) first rest σ =
            evalList (eval n) (first.subst σ) (rest.subst σ) []
          unfold evalList
          rw [if_neg hspecial.1, if_neg hspecial.2, if_neg hspecial'.1, if_neg hspecial'.2,
            ih hfirst, funext hcall]
          exact if_congr (subst_eq_null hσ).symm rfl rfl
      | _ => rfl

theorem evaluate_subst (hσ : Numeric σ) (he : e.formFree) :
    evaluate e σ = evaluate (e.subst σ) [] := by
  funext s
  simp only [evaluate, eval_subst hσ he]

/-! ## Results -/

/-- The evaluation ends with the value `v`, leaves the global variables `globals` and prints
`out`. -/
def Gives (e : Node) (locals : List EnvVar) (s : Interp) (v : Node) (globals : List EnvVar)
    (out : List UInt8) : Prop :=
  ∃ fuel s', eval fuel e locals s = .ok v s' ∧ s'.globals = globals ∧ s'.output = s.output ++ out

/-- The evaluation follows a null pointer, leaves an array or traps. -/
def Faults (e : Node) (locals : List EnvVar) (s : Interp) : Prop :=
  ∃ fuel, eval fuel e locals s = .fault

/-- The pool has room for the evaluation. -/
def HasRoom (e : Node) (locals : List EnvVar) (s : Interp) : Prop :=
  ∀ fuel s', eval fuel e locals s ≠ .exit s'

/-- Each argument gives a number and leaves the global variables as they are; in order they
print `out`. -/
inductive ArgsGive (locals : List EnvVar) (s : Interp) :
    List Node → List (BitVec 32) → List UInt8 → Prop where
  | nil : ArgsGive locals s [] [] []
  | cons {a : Node} {v : BitVec 32} {out : List UInt8} {args : List Node} {vs : List (BitVec 32)}
      {outs : List UInt8} (ha : Gives a locals s (.num v) s.globals out)
      (hargs : ArgsGive locals s args vs outs) :
      ArgsGive locals s (a :: args) (v :: vs) (out ++ outs)

theorem gives_iff {v : Node} {globals : List EnvVar} : Gives e locals s v globals out ↔
    ∃ s', evaluate e locals s = .ok v s' ∧ s'.globals = globals ∧ s'.output = s.output ++ out := by
  constructor
  · rintro ⟨n, s', heval, h⟩
    exact ⟨s', evaluate_eq (by simp) heval, h⟩
  · rintro ⟨s', heval, h⟩
    obtain ⟨n, hn⟩ := (evaluate_eq_iff (by simp)).mp heval
    exact ⟨n, s', hn, h⟩

theorem faults_iff : Faults e locals s ↔ evaluate e locals s = .fault :=
  (evaluate_eq_iff (by simp)).symm

theorem HasRoom.evaluate_ne (h : HasRoom e locals s) (s' : Interp) :
    evaluate e locals s ≠ .exit s' := by
  intro heval
  obtain ⟨n, hn⟩ := (evaluate_eq_iff (by simp)).mp heval
  exact h n s' hn

/-- A result does not depend on the state beyond the global variables. -/
theorem Gives.at_state {v : Node} {globals : List EnvVar} (h : Gives e locals s v globals out)
    (hglobals : t.globals = s.globals) :
    (∃ t', evaluate e locals t = .exit t') ∨
      ∃ t', evaluate e locals t = .ok v t' ∧ t'.globals = globals ∧
        t'.output = t.output ++ out := by
  obtain ⟨s', heval, hafter, hout⟩ := gives_iff.mp h
  have hagree := uniform_evaluate e locals s t hglobals.symm
  rw [heval] at hagree
  generalize evaluate e locals t = o at hagree
  cases hagree with
  | ok _ _ t' out' globals left right =>
      refine .inr ⟨t', rfl, globals.symm.trans hafter, ?_⟩
      rw [right, List.append_cancel_left (left.symm.trans hout)]
  | exitRight t' => exact .inl ⟨t', rfl⟩

/-! ## The call -/

theorem evalArgs_gives (h : ArgsGive locals s args vs out) (ac : ℕ) (hac : ac + args.length ≤ 16)
    (hglobals : t.globals = s.globals) :
    (∃ t', evalArgs (fun e => evaluate e locals) (Node.ofList args) ac t = .exit t') ∨
      ∃ t', evalArgs (fun e => evaluate e locals) (Node.ofList args) ac t =
          .ok (vs.map .num) t' ∧ t'.globals = s.globals ∧ t'.output = t.output ++ out := by
  induction h generalizing ac t with
  | nil => exact .inr ⟨t, rfl, hglobals, (List.append_nil _).symm⟩
  | @cons a v out args vs outs ha _ ih =>
      rw [List.length_cons] at hac
      have hlt : ac < 16 := by omega
      simp only [Node.ofList, evalArgs, hlt, if_true]
      rcases ha.at_state hglobals with ⟨t', hexit⟩ | ⟨t', hok, hglobals', hout⟩
      · exact .inl ⟨t', bind_exit hexit⟩
      · rw [bind_ok hok]
        rcases ih (ac + 1) (by omega) hglobals' with ⟨t₂, hexit⟩ | ⟨t₂, hok₂, hglobals₂, hout₂⟩
        · exact .inl ⟨t₂, bind_exit hexit⟩
        · rw [bind_ok hok₂]
          refine .inr ⟨t₂, rfl, hglobals₂, ?_⟩
          rw [hout₂, hout, List.append_assoc]

theorem bindParams_eq (params : List (List UInt8)) (vs : List (BitVec 32))
    (hlen : params.length = vs.length) (s : Interp) :
    bindParams (Node.ofList (params.map .sym)) (vs.map .num) s = .ok (bindings params vs) s := by
  induction params generalizing vs with
  | nil =>
      cases vs with
      | nil => rfl
      | cons v vs => simp at hlen
  | cons p params ih =>
      cases vs with
      | nil => simp at hlen
      | cons v vs =>
          have hrest := ih vs (by simpa using hlen)
          have hsym : (Node.sym p).getSym s = .ok p s := rfl
          rw [List.map_cons, List.map_cons, Node.ofList, bindParams, bind_ok hsym, bind_ok hrest]
          rfl

theorem ArgsGive.length_eq (h : ArgsGive locals s args vs out) : vs.length = args.length := by
  induction h with
  | nil => rfl
  | cons _ _ ih => rw [List.length_cons, List.length_cons, ih]

/-- The call of a global function, once its arguments have been evaluated. -/
theorem evaluate_call {params : Node}
    (hglobal : s.globals.find? (fun v => v.sym = f) = some ⟨f, .func params body⟩)
    (hlocal : ∀ v ∈ locals, v.sym ≠ f) (hname : f ≠ text "defun" ∧ f ≠ text "setq") (rest : Node) :
    evaluate (.list (.sym f) rest) locals s =
      (evalArgs (fun e => evaluate e locals) rest 0 >>= fun vals =>
        bindParams params vals >>= fun env => evaluate body env) s := by
  have hfind : locals.find? (fun v => v.sym = f) = none := by
    rw [List.find?_eq_none]
    intro v hv
    simpa using hlocal v hv
  have hhead : evaluate (.sym f) locals s = .ok (.func params body) s := by
    rw [evaluate_atom (by simp)]
    show envGet f locals s = _
    rw [envGet_not_local hfind]
    unfold envGet
    rw [List.find?_nil, hglobal]
  have hdefun : Node.sym f ≠ .sym (text "defun") := fun h => hname.1 (Node.sym.inj h)
  have hsetq : Node.sym f ≠ .sym (text "setq") := fun h => hname.2 (Node.sym.inj h)
  rw [evaluate_list, evalList, if_neg (by simp), if_neg hdefun, if_neg hsetq, bind_ok hhead]
  rfl

/-- A call of a global function is its body with the parameters replaced by the values of the
arguments. The arguments are evaluated first, and what they print comes first; the other local
variables of the caller do not matter. -/
theorem call_is_substitution {params : List (List UInt8)}
    (hglobal : s.globals.find? (fun v => v.sym = f) =
      some ⟨f, .func (Node.ofList (params.map .sym)) body⟩)
    (hlocal : ∀ v ∈ locals, v.sym ≠ f) (hname : f ≠ text "defun" ∧ f ≠ text "setq")
    (hbody : body.formFree) (hparams : params.length = args.length) (hlen : args.length ≤ 16)
    (hargs : ArgsGive locals s args vs out)
    (hroom : HasRoom (.list (.sym f) (Node.ofList args)) locals s)
    (hroom' : HasRoom (body.subst (bindings params vs)) [] s) :
    (∀ v globals printed,
      Gives (.list (.sym f) (Node.ofList args)) locals s v globals printed ↔
        ∃ rest, printed = out ++ rest ∧
          Gives (body.subst (bindings params vs)) [] s v globals rest) ∧
    (Faults (.list (.sym f) (Node.ofList args)) locals s ↔
      Faults (body.subst (bindings params vs)) [] s) := by
  have hcall := evaluate_call hglobal hlocal hname (Node.ofList args)
  rcases evalArgs_gives hargs 0 (by omega) rfl with ⟨t, hexit⟩ | ⟨t, hok, hglobals, hout⟩
  · rw [bind_exit hexit] at hcall
    exact (hroom.evaluate_ne t hcall).elim
  · rw [bind_ok hok, bind_ok (bindParams_eq params vs (hparams.trans hargs.length_eq.symm) t),
      evaluate_subst (numeric_bindings params vs) hbody] at hcall
    have hagree := uniform_evaluate (body.subst (bindings params vs)) [] s t hglobals.symm
    rw [← hcall] at hagree
    have hno := hroom.evaluate_ne
    have hno' := hroom'.evaluate_ne
    simp only [gives_iff, faults_iff]
    generalize evaluate (.list (.sym f) (Node.ofList args)) locals s = o,
      evaluate (body.subst (bindings params vs)) [] s = o' at hagree hno hno'
    cases hagree with
    | ok a s' t' printed hsame left right =>
        refine ⟨?_, by simp⟩
        intro v globals printed'
        constructor
        · rintro ⟨t₂, heq, rfl, hprinted⟩
          cases heq
          refine ⟨printed, ?_, s', rfl, hsame, left⟩
          have hsplit : s.output ++ printed' = s.output ++ (out ++ printed) := by
            rw [← hprinted, right, hout, List.append_assoc]
          exact List.append_cancel_left hsplit
        · rintro ⟨rest, rfl, s₂, heq, rfl, hprinted⟩
          cases heq
          refine ⟨t', rfl, hsame.symm, ?_⟩
          rw [right, hout, List.append_assoc, List.append_cancel_left (left.symm.trans hprinted)]
    | exitLeft s' => exact (hno' s' rfl).elim
    | exitRight t' => exact (hno t' rfl).elim
    | fault => exact ⟨by simp, by simp⟩
    | timeout => exact ⟨by simp, by simp⟩

theorem HasRoom.of_eval {n : ℕ} {v : Node} {s' : Interp} (h : eval n e locals s = .ok v s') :
    HasRoom e locals s := by
  intro m t ht
  have hok := evaluate_eq (by simp) h
  rw [evaluate_eq (by simp) ht] at hok
  cases hok

/-- The interpreter after `(defun square (x) (* x x))`. -/
def squareState : Interp where
  src := []
  pool := 0
  globals := [⟨text "square", .func (Node.ofList [.sym (text "x")])
    (Node.ofList [.sym (text "*"), .sym (text "x"), .sym (text "x")])⟩]
  output := []

/-- The square of a local variable. -/
theorem call_is_substitution_square :
    Gives (.list (.sym (text "square")) (Node.ofList [.sym (text "y")])) [⟨text "y", .num 3⟩]
      squareState (.num 9) squareState.globals [] := by
  have hcall : eval 3 (.list (.sym (text "square")) (Node.ofList [.sym (text "y")]))
      [⟨text "y", .num 3⟩] squareState = .ok (.num 9) { squareState with pool := 112 } := by
    decide +kernel
  have hbody : eval 2 ((Node.ofList [.sym (text "*"), .sym (text "x"), .sym (text "x")]).subst
      (bindings [text "x"] [3])) [] squareState = .ok (.num 9) { squareState with pool := 112 } := by
    decide +kernel
  have harg : ArgsGive [⟨text "y", .num 3⟩] squareState [.sym (text "y")] [3] [] :=
    .cons ⟨1, squareState, by decide +kernel, rfl, rfl⟩ .nil
  have hfree : (Node.ofList [.sym (text "*"), .sym (text "x"), .sym (text "x")]).formFree := by
    refine ⟨?_, trivial, trivial, trivial, trivial⟩
    rintro (h | h) <;> exact absurd h (by decide)
  have hglobal : squareState.globals.find? (fun v => v.sym = text "square") =
      some ⟨text "square", .func (Node.ofList ([text "x"].map .sym))
        (Node.ofList [.sym (text "*"), .sym (text "x"), .sym (text "x")])⟩ := by
    decide
  refine ((call_is_substitution hglobal (by decide) (by decide) hfree rfl (by decide) harg
    (.of_eval hcall) (.of_eval hbody)).1 _ _ _).mpr ?_
  exact ⟨[], rfl, 2, _, hbody, rfl, rfl⟩

/-- A local variable of the caller hides the function, and arguments print on their own. -/
theorem call_is_not_body :
    ¬ (∀ v globals out,
      Gives (.list (.sym (text "square")) (Node.ofList [.num 1])) [⟨text "square", .num 5⟩]
          squareState v globals out ↔
        Gives ((Node.ofList [.sym (text "*"), .sym (text "x"), .sym (text "x")]).subst
          (bindings [text "x"] [1])) [] squareState v globals out) ∧
    ¬ (∀ v globals out,
      Gives (.list (.sym (text "square")) (Node.ofList [Node.ofList [.sym (text "+"),
          Node.ofList [.sym (text "print"), .num 7], .num 1]])) [] squareState v globals out ↔
        Gives ((Node.ofList [.sym (text "*"), .sym (text "x"), .sym (text "x")]).subst
          (bindings [text "x"] [1])) [] squareState v globals out) := by
  have hbody : eval 2 ((Node.ofList [.sym (text "*"), .sym (text "x"), .sym (text "x")]).subst
      (bindings [text "x"] [1])) [] squareState = .ok (.num 1) { squareState with pool := 112 } := by
    decide +kernel
  constructor
  · intro h
    have hcall : eval 2 (.list (.sym (text "square")) (Node.ofList [.num 1]))
        [⟨text "square", .num 5⟩] squareState =
          .ok (.err (text "Nao e uma funcao valida")) { squareState with pool := 56 } := by
      decide +kernel
    obtain ⟨s', heval, _⟩ := gives_iff.mp
      ((h (.num 1) squareState.globals []).mpr ⟨2, _, hbody, rfl, rfl⟩)
    rw [evaluate_eq (by simp) hcall] at heval
    cases heval
  · intro h
    have hcall : eval 4 (.list (.sym (text "square")) (Node.ofList [Node.ofList [.sym (text "+"),
        Node.ofList [.sym (text "print"), .num 7], .num 1]])) [] squareState =
          .ok (.num 1) { squareState with pool := 336, output := text "7 \n" } := by
      decide +kernel
    obtain ⟨s', heval, _, hout⟩ := gives_iff.mp
      ((h (.num 1) squareState.globals (text "7 \n")).mp ⟨4, _, hcall, rfl, rfl⟩)
    rw [evaluate_eq (by simp) hbody] at heval
    cases heval
    exact absurd hout (by decide)

end LispDos.Lisp
