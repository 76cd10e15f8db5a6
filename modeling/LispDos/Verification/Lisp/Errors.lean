import LispDos.Verification.Lisp.Calls
import LispDos.Verification.Lisp.Scripts

/-! # Errors in operands

An error comes up where a variable is looked up that holds none, or where a call fails by
itself. Only the head of a list is tested for it; the builtin functions take an error among
their operands for the number 0. -/

namespace LispDos.Lisp

open Relation

variable {f v w : Node} {s t t₁ : Interp} {vs : List Node} {n : ℕ} {c d : Call}
  {name : List UInt8}

/-! ## Calls that fail by themselves -/

/-- The operands of `/` for which there is no quotient. -/
def ZeroDivisor : List Node → Prop
  | _ :: b :: _ => b ≠ .null ∧ ∀ n, b = .num n → n = 0
  | _ => True

/-- The application is an error, whatever the functions do. -/
def Fails : Node → List Node → Prop
  | .sym name, vs => name ∉ builtins ∨ (name = text "/" ∧ ZeroDivisor vs)
  | .func _ _, _ => False
  | _, _ => True

theorem allocNode_err {a : Node} (h : allocNode a s = .ok v t) : IsErr v ↔ IsErr a := by
  rw [(allocNode_eq_ok h).1]

theorem not_isErr_num (m : BitVec 32) : ¬ IsErr (.num m) := by
  rintro ⟨_, h⟩
  cases h

theorem isErr_err (m : List UInt8) : IsErr (.err m) := ⟨m, rfl⟩

theorem callSub_ok (h : callSub vs s = .ok v t) : ¬ IsErr v := by
  rcases vs with _ | ⟨a, _ | ⟨b, vs⟩⟩
  · cases h
  · obtain ⟨_, _, _, h⟩ := bind_eq_ok h
    exact (allocNode_err h).not.mpr (not_isErr_num _)
  · obtain ⟨_, _, _, h⟩ := bind_eq_ok h
    obtain ⟨_, _, _, h⟩ := bind_eq_ok h
    exact (allocNode_err h).not.mpr (not_isErr_num _)

theorem callDiv_ok (h : callDiv vs s = .ok v t) : IsErr v ↔ ZeroDivisor vs := by
  rcases vs with _ | ⟨a, _ | ⟨b, vs⟩⟩
  · exact iff_of_true ((allocNode_err h).mpr (isErr_err _)) trivial
  · exact iff_of_true ((allocNode_err h).mpr (isErr_err _)) trivial
  · obtain ⟨divisor, t₁, hdivisor, h⟩ := bind_eq_ok h
    have hzero : ZeroDivisor (a :: b :: vs) ↔ divisor = 0 := by
      cases b with
      | null => cases hdivisor
      | num m =>
          cases hdivisor
          simp [ZeroDivisor]
      | _ =>
          cases hdivisor
          simp [ZeroDivisor]
    rw [hzero]
    by_cases hne : divisor = 0
    · subst hne
      exact iff_of_true ((allocNode_err h).mpr (isErr_err _)) rfl
    · rw [if_pos hne] at h
      obtain ⟨dividend, t₂, _, h⟩ := bind_eq_ok h
      refine iff_of_false ?_ hne
      split at h
      · cases h
      · exact (allocNode_err h).not.mpr (not_isErr_num _)

/-- A builtin function returns an error exactly when the call fails by itself. -/
theorem callBuiltin_ok (h : callBuiltin name vs s = .ok v t) :
    IsErr v ↔ Fails (.sym name) vs := by
  have hbuiltin : ∀ {other : List UInt8}, other ∈ builtins → other ≠ text "/" →
      ¬ Fails (.sym other) vs := by
    rintro other hmem hne (hnot | ⟨heq, _⟩)
    · exact hnot hmem
    · exact hne heq
  unfold callBuiltin at h
  split at h
  · rename_i hname
    subst hname
    obtain ⟨_, _, _, h⟩ := bind_eq_ok h
    exact iff_of_false ((allocNode_err h).not.mpr (not_isErr_num _))
      (hbuiltin (by decide) (by decide))
  split at h
  · rename_i hname
    subst hname
    exact iff_of_false (callSub_ok h) (hbuiltin (by decide) (by decide))
  split at h
  · rename_i hname
    subst hname
    obtain ⟨_, _, _, h⟩ := bind_eq_ok h
    exact iff_of_false ((allocNode_err h).not.mpr (not_isErr_num _))
      (hbuiltin (by decide) (by decide))
  split at h
  · rename_i hname
    subst hname
    have hmem : text "/" ∈ builtins := by decide
    rw [callDiv_ok h, Fails]
    exact ⟨fun hzero => .inr ⟨rfl, hzero⟩, fun hfail => (hfail.resolve_left (not_not.mpr hmem)).2⟩
  split at h
  · rename_i hname
    subst hname
    obtain ⟨_, _, _, h⟩ := bind_eq_ok h
    obtain ⟨_, _, _, h⟩ := bind_eq_ok h
    refine iff_of_false ((allocNode_err h).not.mpr ?_) (hbuiltin (by decide) (by decide))
    rintro ⟨_, h⟩
    cases h
  · rename_i hadd hsub hmul hdiv hprint
    refine iff_of_true ((allocNode_err h).mpr (isErr_err _)) (.inl ?_)
    simp [builtins, hadd, hsub, hmul, hdiv, hprint]

/-! ## Where errors come up -/

/-- The evaluation itself comes to an error: it looks up a variable that holds one or none, or
its application fails. -/
inductive Raises (c : Call) : Prop where
  | atom (v : Node) (t : Interp) (expr : ¬ IsList c.expr) (returns : c.Returns v t)
      (isErr : IsErr v)
  | fails (f : Node) (vs : List Node) (t : Interp) (applies : Applies c f vs t)
      (fails : Fails f vs)

/-- An error comes up in the evaluation or in one of the calls that it makes. -/
def MeetsError (c : Call) : Prop := ∃ d, ReflTransGen Calls c d ∧ Raises d

/-- An application with an error among its operands fails, or an error comes up in the body of
the function. -/
def Heeds (f : Node) (vs : List Node) (t : Interp) : Prop :=
  (∃ x ∈ vs, IsErr x) →
    match f with
    | .sym name => Fails (.sym name) vs
    | .func params body =>
        ∀ env t', bindParams params vs t = .ok env t' → MeetsError ⟨body, env, t'⟩
    | _ => True

/-- Every application of the evaluation heeds errors. -/
def AllHeed (c : Call) : Prop :=
  ∀ d, ReflTransGen Calls c d → ∀ f vs t, Applies d f vs t → Heeds f vs t

theorem AllHeed.of_calls (h : AllHeed c) (hcalls : Calls c d) : AllHeed d :=
  fun e he => h e (.head hcalls he)

/-- What an evaluation that returns comes to is an error only if one has come up in it. -/
theorem meetsError_of_isErr (h : eval n c.expr c.locals c.state = .ok v t) (hv : IsErr v) :
    MeetsError c := by
  induction n generalizing c v t with
  | zero => cases h
  | succ n ih =>
      by_cases hlist : IsList c.expr
      · obtain ⟨first, rest, hexpr⟩ := hlist
        have hcall : ∀ {d : Call} {t' : Interp}, Calls c d →
            eval n d.expr d.locals d.state = .ok v t' → MeetsError c := by
          intro d t' hcalls hd
          obtain ⟨e, he, hraises⟩ := ih hd hv
          exact ⟨e, .head hcalls he, hraises⟩
        cases listReturns hexpr h with
        | defun _ result =>
            rw [result] at hv
            obtain ⟨_, hv⟩ := hv
            cases hv
        | setq r e t' name hrest hfirst value =>
            exact hcall (.value rest r e (by rw [hexpr, name]) hrest hfirst) value
        | err value ne_null not_special _ =>
            exact hcall (.head first rest hexpr ne_null not_special) value
        | applied f vs t₀ t₁ head value args result =>
            have happlies := head.applies args
            cases f with
            | sym name =>
                exact ⟨c, .refl, .fails _ vs t₁ happlies ((callBuiltin_ok result).mp hv)⟩
            | func params body =>
                obtain ⟨env, t₂, hbound, hbody⟩ := bind_eq_ok result
                exact hcall (.body params body vs env t₁ t₂ happlies hbound) hbody
            | _ => exact ⟨c, .refl, .fails _ vs t₁ happlies trivial⟩
      · exact ⟨c, .refl, .atom v t hlist ⟨n + 1, h⟩ hv⟩

/-! ## How errors go on -/

/-- A call made by an evaluation that returns has returned, and if it was with an error the
evaluation does so too or comes to an application with an error among its operands. -/
theorem Calls.returns (h : Calls c d) (hc : eval (n + 1) c.expr c.locals c.state = .ok v t) :
    ∃ w t', eval n d.expr d.locals d.state = .ok w t' ∧
      (IsErr w → IsErr v ∨ ∃ f vs t₁, Applies c f vs t₁ ∧ finish (eval n) f vs t₁ = .ok v t ∧
        ∃ x ∈ vs, IsErr x) := by
  cases h with
  | value rest r e expr hrest hfirst =>
      cases listReturns expr hc with
      | defun name _ => exact absurd name (by decide)
      | setq r' e' t' _ hrest' hfirst' value =>
          rw [hrest] at hrest'
          cases hrest'
          rw [hfirst] at hfirst'
          cases hfirst'
          exact ⟨v, t', value, .inl⟩
      | err _ _ not_special _ => exact (not_special (.inr rfl)).elim
      | applied f vs t₀ t₁ head _ _ _ => exact (head.not_special (.inr rfl)).elim
  | head first rest expr ne_null not_special =>
      cases listReturns expr hc with
      | defun name _ => exact (not_special (.inl name)).elim
      | setq _ _ _ name _ _ _ => exact (not_special (.inr name)).elim
      | err value _ _ _ => exact ⟨v, t, value, .inl⟩
      | applied f vs t₀ t₁ head value _ _ =>
          exact ⟨f, t₀, value, fun hf => (head.not_err hf).elim⟩
  | arg first rest f e tail vs t₀ t' head args =>
      obtain ⟨_, t₁, hargs, result⟩ := head.returns hc
      obtain ⟨us, hus, rfl⟩ := args.evalArgs_ok hargs
      simp only [evalArgs] at hus
      obtain ⟨w, t'', hw, hus⟩ := bind_eq_ok hus
      refine ⟨w, t'', hw, fun herr => .inr ⟨f, _, t₁, head.applies hargs, result, w, ?_, herr⟩⟩
      split at hus
      · obtain ⟨us', _, _, hpure⟩ := bind_eq_ok hus
        cases hpure
        simp
      · cases hus
  | body params body vs env t' t'' applies bound =>
      obtain ⟨first, rest, tail, t₀, head, args, last⟩ := applies
      obtain ⟨_, result⟩ := head.result args last hc
      obtain ⟨env', t₂, hbound, hbody⟩ := bind_eq_ok result
      rw [bound] at hbound
      cases hbound
      exact ⟨v, t, hbody, .inl⟩

/-- An application that heeds the error among its operands returns an error, provided that the
body of the function does whenever an error comes up in it. -/
theorem isErr_of_heeds (hheeds : Heeds f vs t₁) (herr : ∃ x ∈ vs, IsErr x)
    (hfinish : finish (eval n) f vs t₁ = .ok v t)
    (hbody : ∀ params body env t', f = .func params body → bindParams params vs t₁ = .ok env t' →
      MeetsError ⟨body, env, t'⟩ → eval n body env t' = .ok v t → IsErr v) : IsErr v := by
  have hstep := hheeds herr
  cases f with
  | sym name => exact (callBuiltin_ok hfinish).mpr hstep
  | func params body =>
      obtain ⟨env, t', hbound, hvalue⟩ := bind_eq_ok hfinish
      exact hbody params body env t' rfl hbound (hstep env t' hbound) hvalue
  | _ => exact (allocNode_err hfinish).mpr (isErr_err _)

theorem isErr_of_raises (h : Raises c) (hc : c.Returns v t) : IsErr v := by
  cases h with
  | atom w t' _ returns isErr =>
      obtain ⟨rfl, _⟩ := returns.unique hc
      exact isErr
  | fails f vs t₁ applies hfails =>
      have hfinish := applies.evaluate_eq.symm.trans (returns_iff.mp hc)
      cases f with
      | sym name => exact (callBuiltin_ok hfinish).mpr hfails
      | func => exact hfails.elim
      | _ => exact (allocNode_err hfinish).mpr (isErr_err _)

/-- If every application heeds errors, an error that comes up anywhere is the result. -/
theorem isErr_of_meetsError (hc : eval n c.expr c.locals c.state = .ok v t) (hheed : AllHeed c)
    (hmeets : MeetsError c) : IsErr v := by
  induction n generalizing c v t with
  | zero => cases hc
  | succ n ih =>
      obtain ⟨d, hreach, hraises⟩ := hmeets
      rcases ReflTransGen.cases_head hreach with rfl | ⟨b, hcalls, hrest⟩
      · exact isErr_of_raises hraises ⟨n + 1, hc⟩
      · obtain ⟨w, t', hb, hgoes⟩ := hcalls.returns hc
        rcases hgoes (ih hb (hheed.of_calls hcalls) ⟨d, hrest, hraises⟩) with
          hv | ⟨f, vs, t₁, happlies, hfinish, herr⟩
        · exact hv
        · refine isErr_of_heeds (hheed c .refl f vs t₁ happlies) herr hfinish ?_
          rintro params body env t₂ rfl hbound hmeets hbody
          have hcall : Calls c ⟨body, env, t₂⟩ := .body params body vs env t₁ t₂ happlies hbound
          exact ih hbody (hheed.of_calls hcall) hmeets

/-! ## The law -/

/-- `d` evaluates an operand of the call `c`. -/
def Operand (c d : Call) : Prop :=
  ∃ first rest f e tail vs t₀ t, Head c first rest f t₀ ∧ Args c.locals rest t₀ vs (.list e tail) t ∧
    d = ⟨e, c.locals, t⟩

/-- The evaluation makes a call with an operand that is evaluated to an error. -/
def OperandError (c : Call) : Prop :=
  ∃ b d v t, ReflTransGen Calls c b ∧ Operand b d ∧ d.Returns v t ∧ IsErr v

/-- An error of an operand at any depth is the result of the whole evaluation. -/
def Propagates (c : Call) : Prop := OperandError c → ∀ v t, c.Returns v t → IsErr v

theorem OperandError.meetsError (h : OperandError c) : MeetsError c := by
  obtain ⟨b, d, v, t, hreach, ⟨first, rest, f, e, tail, vs, t₀, t₁, head, args, rfl⟩, ⟨n, hn⟩, hv⟩ := h
  obtain ⟨d', hreach', hraises⟩ := meetsError_of_isErr hn hv
  exact ⟨d', (hreach.tail (.arg first rest f e tail vs t₀ t₁ head args)).trans hreach', hraises⟩

/-- A call at any depth of an evaluation that returns has returned. -/
theorem returns_of_reach (h : ReflTransGen Calls c d) (hc : c.Returns v t) :
    ∃ w t', d.Returns w t' := by
  induction h with
  | refl => exact ⟨v, t, hc⟩
  | tail _ hcalls ih =>
      obtain ⟨w, t', n, hn⟩ := ih
      obtain ⟨w', t'', hd, _⟩ := hcalls.returns (eval_succ_ok hn)
      exact ⟨w', t'', n, hd⟩

/-- The values of the operands are what the calls for them return. -/
theorem Args.operand {locals : List EnvVar} {rest tail x : Node} (h : Args locals rest s vs tail t)
    (hx : x ∈ vs) : ∃ e tail' vs' t' t'', Args locals rest s vs' (.list e tail') t' ∧
      Call.Returns ⟨e, locals, t'⟩ x t'' := by
  induction h with
  | start => simp at hx
  | @next vs first tail t v t' before room value ih =>
      rcases List.mem_append.mp hx with hx | hx
      · exact ih hx
      · obtain rfl := List.mem_singleton.mp hx
        exact ⟨first, tail, vs, t, t', before, value⟩

/-- In an evaluation all of whose calls have the law, every application heeds errors. -/
theorem allHeed_of_propagates (hc : c.Returns v t)
    (hlaw : ∀ d, ReflTransGen Calls c d → Propagates d) : AllHeed c := by
  rintro d hreach f vs t₁ happlies ⟨x, hx, herr⟩
  obtain ⟨w, t', hd⟩ := returns_of_reach hreach hc
  have hoperand : OperandError d := by
    obtain ⟨first, rest, tail, t₀, head, args, last⟩ := happlies
    obtain ⟨e, tail', vs', t₂, t₃, args', hreturns⟩ := args.operand hx
    exact ⟨d, _, x, t₃, .refl, ⟨first, rest, f, e, tail', vs', t₀, t₂, head, args', rfl⟩, hreturns, herr⟩
  have hw := hlaw d hreach hoperand w t' hd
  have hfinish := happlies.evaluate_eq.symm.trans (returns_iff.mp hd)
  cases f with
  | sym name => exact (callBuiltin_ok hfinish).mp hw
  | func params body =>
      intro env t₂ hbound
      obtain ⟨env', t₃, hbound', hbody⟩ := bind_eq_ok hfinish
      rw [hbound] at hbound'
      cases hbound'
      obtain ⟨n, hn⟩ := (returns_iff (c := ⟨body, env, t₂⟩)).mpr hbody
      exact meetsError_of_isErr hn hw
  | _ => trivial

/-- Errors propagate in an evaluation whose applications all heed them, and if the evaluation
returns, only then. The loop over a script reports such an error. -/
theorem errors_propagate_iff (c : Call) :
    (AllHeed c → ∀ d, ReflTransGen Calls c d → Propagates d) ∧
    (∀ v t, c.Returns v t → ((∀ d, ReflTransGen Calls c d → Propagates d) ↔ AllHeed c)) ∧
    ∀ (ast : Node) (t : Interp), c = ⟨ast, [], t⟩ → AllHeed c → OperandError c →
      ∀ (fuel n : ℕ) (last : Option Node) (s : Interp),
        readExpr { s with src := skipSpace s.src } = .ok ast t → cur (skipSpace s.src) ≠ 0 →
        ast ≠ .null → ¬ IsErr ast → (∃ v t', eval fuel ast [] t = .ok v t') →
        ∃ s', scriptLoop (fun e => eval fuel e []) (n + 1) last s = ([ast], .evalError s') := by
  have hlaw : AllHeed c → ∀ d, ReflTransGen Calls c d → Propagates d := by
    rintro hheed d hreach hoperand v t ⟨n, hn⟩
    exact isErr_of_meetsError hn (fun e he => hheed e (hreach.trans he)) hoperand.meetsError
  refine ⟨hlaw, fun v t hc => ⟨allHeed_of_propagates hc, hlaw⟩, ?_⟩
  rintro ast t rfl hheed hoperand fuel n last s hread hcur hnull herr ⟨v, t', heval⟩
  obtain ⟨m, rfl⟩ := hlaw hheed _ .refl hoperand v t' ⟨fuel, heval⟩
  rw [scriptLoop_read hcur hnull (fun m hm => herr ⟨m, hm⟩) hread, heval]
  exact ⟨_, rfl⟩

/-- `(+ 1 x)`, where no variable is defined. -/
def sumOfUndefined : Call where
  expr := .list (.sym (text "+")) (.list (.num 1) (.list (.sym (text "x")) .nil))
  locals := []
  state := ⟨[], 0, [], []⟩

theorem sumOfUndefined_returns : sumOfUndefined.Returns (.num 1) ⟨[], 168, [], []⟩ :=
  ⟨2, by decide +kernel⟩

theorem sumOfUndefined_operandError : OperandError sumOfUndefined := by
  have hhead : Head sumOfUndefined (.sym (text "+")) (.list (.num 1) (.list (.sym (text "x")) .nil))
      (.sym (text "+")) ⟨[], 56, [], []⟩ := by
    refine ⟨rfl, by simp, ?_, ⟨1, by decide +kernel⟩, by simp, ?_⟩
    · rintro (h | h) <;> exact absurd h (by decide)
    · rintro ⟨_, h⟩
      cases h
  have hargs : Args [] (.list (.num 1) (.list (.sym (text "x")) .nil)) ⟨[], 56, [], []⟩ [.num 1]
      (.list (.sym (text "x")) .nil) ⟨[], 56, [], []⟩ :=
    Args.start.next (by decide) ⟨1, by decide +kernel⟩
  exact ⟨sumOfUndefined, _, .err (text "Variavel/Funcao nao definida"), ⟨[], 112, [], []⟩, .refl,
    ⟨_, _, _, _, _, _, _, _, hhead, hargs, rfl⟩, ⟨1, by decide +kernel⟩, isErr_err _⟩

/-- The undefined variable counts as 0, and the script prints the sum. -/
theorem error_lost_in_sum :
    ¬ Propagates sumOfUndefined ∧
      (scriptLoop (fun e => eval 4 e []) 8 none ⟨text "(print (+ 1 x))", 0, [], []⟩).2 =
        .finished (some .nil) ⟨[], 896, [], text "1 \n"⟩ := by
  refine ⟨?_, by decide +kernel⟩
  intro h
  exact not_isErr_num 1 (h sumOfUndefined_operandError (.num 1) _ sumOfUndefined_returns)

/-- The sum does not heed its operand. -/
theorem errors_propagate_iff_sum : ¬ AllHeed sumOfUndefined := by
  intro hheed
  have hlaw := ((errors_propagate_iff sumOfUndefined).2.1 _ _ sumOfUndefined_returns).mpr hheed
  exact not_isErr_num 1
    (hlaw sumOfUndefined .refl sumOfUndefined_operandError (.num 1) _ sumOfUndefined_returns)

end LispDos.Lisp
