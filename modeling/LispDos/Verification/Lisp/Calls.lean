import LispDos.Verification.Lisp.Evaluation
import LispDos.Verification.Lisp.Trees
import Mathlib.Logic.Relation

/-! # The calls of an evaluation

An evaluation calls `eval` again for the value of `setq`, for the head of a list, for its
arguments in turn and for the body of a function. These calls are described here without a
bound on their depth, and related to the computation. -/

namespace LispDos.Lisp

open Relation

variable {e f first rest tail v w : Node} {locals env : List EnvVar} {s t t₀ t₁ : Interp}
  {vs ws : List Node} {n : ℕ}

/-! ## Fields -/

/-- `p->first`, if `p` is not null. -/
def Node.first? : Node → Option Node
  | .null => none
  | .list first _ => some first
  | .func params _ => some params
  | _ => some .null

/-- `p->rest`, if `p` is not null. -/
def Node.rest? : Node → Option Node
  | .null => none
  | .list _ rest => some rest
  | .func _ body => some body
  | _ => some .null

theorem getFirst_eq (e : Node) : e.getFirst = e.first?.elim fault pure := by
  cases e <;> rfl

theorem getRest_eq (e : Node) : e.getRest = e.rest?.elim fault pure := by
  cases e <;> rfl

/-! ## Calls -/

/-- Where an evaluation begins. -/
structure Call where
  expr : Node
  locals : List EnvVar
  state : Interp

/-- The evaluation returns `v`. -/
def Call.Returns (c : Call) (v : Node) (t : Interp) : Prop :=
  ∃ fuel, eval fuel c.expr c.locals c.state = .ok v t

/-- The arguments `rest` have been evaluated up to `tail`; the values so far are `vs`. -/
inductive Args (locals : List EnvVar) (rest : Node) (s : Interp) :
    List Node → Node → Interp → Prop where
  | start : Args locals rest s [] rest s
  | next {vs : List Node} {first tail : Node} {t : Interp} {v : Node} {t' : Interp}
      (before : Args locals rest s vs (.list first tail) t) (room : vs.length < 16)
      (value : Call.Returns ⟨first, locals, t⟩ v t') : Args locals rest s (vs ++ [v]) tail t'

/-- The head of the list has been evaluated to something that takes arguments. -/
structure Head (c : Call) (first rest f : Node) (t : Interp) : Prop where
  expr : c.expr = .list first rest
  ne_null : first ≠ .null
  not_special : ¬ Special first
  value : Call.Returns ⟨first, c.locals, c.state⟩ f t
  value_ne_null : f ≠ .null
  not_err : ¬ IsErr f

/-- The list has come to the application of `f` to the values `vs`. -/
inductive Applies (c : Call) (f : Node) (vs : List Node) (t : Interp) : Prop where
  | intro (first rest tail : Node) (t₀ : Interp) (head : Head c first rest f t₀)
      (args : Args c.locals rest t₀ vs tail t) (last : ¬ IsList tail)

/-- The evaluation `c` calls `eval` directly. -/
inductive Calls (c : Call) : Call → Prop where
  | value (rest r e : Node) (expr : c.expr = .list (.sym (text "setq")) rest)
      (hrest : rest.rest? = some r) (hfirst : r.first? = some e) : Calls c ⟨e, c.locals, c.state⟩
  | head (first rest : Node) (expr : c.expr = .list first rest) (ne_null : first ≠ .null)
      (not_special : ¬ Special first) : Calls c ⟨first, c.locals, c.state⟩
  | arg (first rest f e tail : Node) (vs : List Node) (t₀ t : Interp)
      (head : Head c first rest f t₀) (args : Args c.locals rest t₀ vs (.list e tail) t) :
      Calls c ⟨e, c.locals, t⟩
  | body (params body : Node) (vs : List Node) (env : List EnvVar) (t t' : Interp)
      (applies : Applies c (.func params body) vs t) (bound : bindParams params vs t = .ok env t') :
      Calls c ⟨body, env, t'⟩

/-! ## What the calls compute -/

theorem returns_iff {c : Call} : c.Returns v t ↔ evaluate c.expr c.locals c.state = .ok v t :=
  (evaluate_eq_iff (by simp)).symm

theorem Call.Returns.unique {c : Call} (h : c.Returns v t) (h' : c.Returns w s) : v = w ∧ t = s := by
  have heq := (returns_iff.mp h).symm.trans (returns_iff.mp h')
  cases heq
  exact ⟨rfl, rfl⟩

/-- The end of a call, once the head has been evaluated to `f` and the arguments to `args`. -/
def finish (ev : Node → List EnvVar → Run Node) (f : Node) (args : List Node) : Run Node :=
  match f with
  | .sym name => callBuiltin name args
  | .func params body => bindParams params args >>= ev body
  | _ => newLvalErr (text "Nao e uma funcao valida")

theorem evalCall_eq {ev : Node → List EnvVar → Run Node} (hnull : f ≠ .null) (herr : ¬ IsErr f) :
    evalCall ev f rest locals = evalArgs (fun e => ev e locals) rest 0 >>= finish ev f := by
  cases f with
  | null => exact (hnull rfl).elim
  | err m => exact (herr ⟨m, rfl⟩).elim
  | _ => rfl

theorem evalList_eq {ev : Node → List EnvVar → Run Node} (hnull : first ≠ .null)
    (hspecial : ¬ Special first) :
    evalList ev first rest locals = ev first locals >>= fun f => evalCall ev f rest locals := by
  rw [Special, not_or] at hspecial
  rw [evalList, if_neg hnull, if_neg hspecial.1, if_neg hspecial.2]

/-- Outcomes with another value. -/
def Outcome.map {α β : Type} (g : α → β) : Outcome α → Outcome β
  | .ok a t => .ok (g a) t
  | .exit t => .exit t
  | .fault => .fault
  | .timeout => .timeout

/-- The loop over the arguments goes on where the values so far end. -/
theorem Args.evalArgs_eq (h : Args locals rest s vs tail t) :
    evalArgs (fun e => evaluate e locals) rest 0 s =
      (evalArgs (fun e => evaluate e locals) tail vs.length t).map (vs ++ ·) := by
  induction h with
  | start =>
      cases evalArgs (fun e => evaluate e locals) rest 0 s <;> rfl
  | @next vs first tail t v t' before room value ih =>
      have hfirst : evaluate first locals t = .ok v t' := returns_iff.mp value
      rw [ih, List.length_append, List.length_singleton]
      simp only [evalArgs]
      rw [bind_ok hfirst, if_pos room, bind_apply, Run.bind]
      cases evalArgs (fun e => evaluate e locals) tail (vs.length + 1) t' with
      | ok ws t₂ => simp [Outcome.map]
      | exit => rfl
      | fault => rfl
      | timeout => rfl

/-- The same for a bounded evaluation of all arguments that returns. -/
theorem Args.evalArgs_ok (h : Args locals rest s vs tail t)
    (hargs : evalArgs (fun e => eval n e locals) rest 0 s = .ok ws t₁) :
    ∃ us, evalArgs (fun e => eval n e locals) tail vs.length t = .ok us t₁ ∧ ws = vs ++ us := by
  induction h with
  | start => exact ⟨ws, hargs, rfl⟩
  | @next vs first tail t v t' before room value ih =>
      obtain ⟨us, hus, rfl⟩ := ih
      simp only [evalArgs] at hus
      obtain ⟨v', t₂, hfirst, hus⟩ := bind_eq_ok hus
      obtain ⟨rfl, rfl⟩ := Call.Returns.unique ⟨n, hfirst⟩ value
      rw [if_pos room] at hus
      obtain ⟨us', t₃, hrest, hpure⟩ := bind_eq_ok hus
      cases hpure
      refine ⟨us', ?_, by simp⟩
      rw [List.length_append, List.length_singleton]
      exact hrest

/-- The values that a bounded evaluation of the arguments returns. -/
theorem Args.of_evalArgs (h : Args locals rest s vs tail t)
    (hargs : evalArgs (fun e => eval n e locals) tail vs.length t = .ok ws t₁) :
    ∃ last, Args locals rest s (vs ++ ws) last t₁ ∧ ¬ IsList last := by
  induction tail generalizing vs t ws with
  | list first tail _ ih =>
      simp only [evalArgs] at hargs
      obtain ⟨v, t', hfirst, hargs⟩ := bind_eq_ok hargs
      by_cases hroom : vs.length < 16
      · rw [if_pos hroom] at hargs
        obtain ⟨us, t₂, hrest, hpure⟩ := bind_eq_ok hargs
        cases hpure
        have hlen : (vs ++ [v]).length = vs.length + 1 := by simp
        rw [← hlen] at hrest
        obtain ⟨last, hlast, hnot⟩ := ih (h.next hroom ⟨n, hfirst⟩) hrest
        rw [List.append_assoc] at hlast
        exact ⟨last, hlast, hnot⟩
      · rw [if_neg hroom] at hargs
        cases hargs
  | _ =>
      cases hargs
      refine ⟨_, by rwa [List.append_nil], ?_⟩
      rintro ⟨_, _, h⟩
      cases h

theorem Args.length_le (h : Args locals rest s vs tail t) : vs.length ≤ 16 := by
  cases h with
  | start => exact Nat.zero_le _
  | next _ room _ =>
      rw [List.length_append, List.length_singleton]
      exact room

theorem evalArgs_last {ev : Node → Run Node} (hlast : ¬ IsList tail) (ac : ℕ) (s : Interp) :
    evalArgs ev tail ac s = .ok [] s := by
  cases tail with
  | list first rest => exact (hlast ⟨first, rest, rfl⟩).elim
  | _ => rfl

theorem Head.evaluate_eq {c : Call} (h : Head c first rest f t) :
    evaluate c.expr c.locals c.state =
      (evalArgs (fun e => evaluate e c.locals) rest 0 >>= finish evaluate f) t := by
  rw [h.expr, evaluate_list, evalList_eq h.ne_null h.not_special,
    bind_ok (returns_iff.mp h.value), evalCall_eq h.value_ne_null h.not_err]

theorem Applies.evaluate_eq {c : Call} (h : Applies c f vs t) :
    evaluate c.expr c.locals c.state = finish evaluate f vs t := by
  obtain ⟨first, rest, tail, t₀, head, args, last⟩ := h
  have hargs := args.evalArgs_eq
  rw [evalArgs_last last, Outcome.map, List.append_nil] at hargs
  rw [head.evaluate_eq, bind_ok hargs]

/-- How a list comes to return. -/
inductive ListReturns (n : ℕ) (c : Call) (first rest v : Node) (t : Interp) : Prop where
  | defun (name : first = .sym (text "defun")) (result : v = .sym (text "ok"))
  | setq (r e : Node) (t' : Interp) (name : first = .sym (text "setq")) (hrest : rest.rest? = some r)
      (hfirst : r.first? = some e) (value : eval n e c.locals c.state = .ok v t')
  | err (value : eval n first c.locals c.state = .ok v t) (ne_null : first ≠ .null)
      (not_special : ¬ Special first) (isErr : IsErr v)
  | applied (f : Node) (vs : List Node) (t₀ t₁ : Interp) (head : Head c first rest f t₀)
      (value : eval n first c.locals c.state = .ok f t₀)
      (args : evalArgs (fun e => eval n e c.locals) rest 0 t₀ = .ok vs t₁)
      (result : finish (eval n) f vs t₁ = .ok v t)

theorem getFirst_ok {r : Node} (h : e.getFirst s = .ok r t) : e.first? = some r ∧ t = s := by
  rw [getFirst_eq] at h
  cases hfirst : e.first? with
  | none =>
      rw [hfirst] at h
      cases h
  | some r' =>
      rw [hfirst] at h
      cases h
      exact ⟨rfl, rfl⟩

theorem getRest_ok {r : Node} (h : e.getRest s = .ok r t) : e.rest? = some r ∧ t = s := by
  rw [getRest_eq] at h
  cases hrest : e.rest? with
  | none =>
      rw [hrest] at h
      cases h
  | some r' =>
      rw [hrest] at h
      cases h
      exact ⟨rfl, rfl⟩

theorem evalDefun_ok (h : evalDefun rest s = .ok v t) : v = .sym (text "ok") := by
  obtain ⟨_, _, _, h⟩ := bind_eq_ok h
  obtain ⟨_, _, _, h⟩ := bind_eq_ok h
  obtain ⟨_, _, _, h⟩ := bind_eq_ok h
  obtain ⟨_, _, _, h⟩ := bind_eq_ok h
  obtain ⟨_, _, _, h⟩ := bind_eq_ok h
  obtain ⟨_, _, _, h⟩ := bind_eq_ok h
  obtain ⟨_, _, _, h⟩ := bind_eq_ok h
  obtain ⟨_, _, _, h⟩ := bind_eq_ok h
  unfold newLvalSym allocNode at h
  split at h
  · cases h
  · cases h
    rfl

theorem evalSetq_ok {ev : Node → Run Node} (h : evalSetq ev rest s = .ok v t) :
    ∃ r e t', rest.rest? = some r ∧ r.first? = some e ∧ ev e s = .ok v t' := by
  obtain ⟨_, _, hname, h₁⟩ := bind_eq_ok h
  obtain ⟨r, _, hrest, h₂⟩ := bind_eq_ok h₁
  obtain ⟨e, _, hfirst, h₃⟩ := bind_eq_ok h₂
  obtain ⟨_, t', hvalue, h₄⟩ := bind_eq_ok h₃
  obtain ⟨_, _, _, h₅⟩ := bind_eq_ok h₄
  obtain ⟨_, _, _, h₆⟩ := bind_eq_ok h₅
  obtain ⟨_, rfl⟩ := getFirst_ok hname
  obtain ⟨hrest', rfl⟩ := getRest_ok hrest
  obtain ⟨hfirst', rfl⟩ := getFirst_ok hfirst
  cases h₆
  exact ⟨r, e, t', hrest', hfirst', hvalue⟩

theorem listReturns {c : Call} (hexpr : c.expr = .list first rest)
    (h : eval (n + 1) c.expr c.locals c.state = .ok v t) : ListReturns n c first rest v t := by
  rw [hexpr] at h
  replace h : evalList (eval n) first rest c.locals c.state = .ok v t := h
  by_cases hnull : first = .null
  · subst hnull
    cases h
  by_cases hspecial : Special first
  · rcases hspecial with rfl | rfl
    · exact .defun rfl (evalDefun_ok h)
    · obtain ⟨r, e, t', hrest, hfirst, hvalue⟩ := evalSetq_ok h
      exact .setq r e t' rfl hrest hfirst hvalue
  · rw [evalList_eq hnull hspecial] at h
    obtain ⟨f, t₀, hvalue, h⟩ := bind_eq_ok h
    by_cases herr : IsErr f
    · obtain ⟨m, rfl⟩ := herr
      cases h
      exact .err hvalue hnull hspecial ⟨m, rfl⟩
    · have hfnull : f ≠ .null := by
        rintro rfl
        cases h
      rw [evalCall_eq hfnull herr] at h
      obtain ⟨vs, t₁, hargs, hfinish⟩ := bind_eq_ok h
      exact .applied f vs t₀ t₁ ⟨hexpr, hnull, hspecial, ⟨n, hvalue⟩, hfnull, herr⟩ hvalue hargs hfinish

/-- A list that returns after its arguments has come to the application. -/
theorem Head.applies {c : Call} (h : Head c first rest f t)
    (hargs : evalArgs (fun e => eval n e c.locals) rest 0 t = .ok vs t₁) : Applies c f vs t₁ := by
  obtain ⟨last, hlast, hnot⟩ := Args.start.of_evalArgs hargs
  exact ⟨first, rest, last, t, h, hlast, hnot⟩

/-- An evaluation that returns, and whose head has a value, has applied it to the values of the
operands. -/
theorem Head.returns {c : Call} (head : Head c first rest f t₀)
    (hc : eval (n + 1) c.expr c.locals c.state = .ok v t) :
    ∃ vs t₁, evalArgs (fun e => eval n e c.locals) rest 0 t₀ = .ok vs t₁ ∧
      finish (eval n) f vs t₁ = .ok v t := by
  cases listReturns head.expr hc with
  | defun name _ => exact (head.not_special (.inl name)).elim
  | setq _ _ _ name _ _ _ => exact (head.not_special (.inr name)).elim
  | err value _ _ isErr =>
      obtain ⟨rfl, _⟩ := Call.Returns.unique head.value ⟨n, value⟩
      exact (head.not_err isErr).elim
  | applied f' vs t₀' t₁ head' value hargs result =>
      obtain ⟨rfl, rfl⟩ := Call.Returns.unique head.value ⟨n, value⟩
      exact ⟨vs, t₁, hargs, result⟩

/-- The same with the values of the operands that are known. -/
theorem Head.result {c : Call} (head : Head c first rest f t₀)
    (args : Args c.locals rest t₀ vs tail t₁) (last : ¬ IsList tail)
    (hc : eval (n + 1) c.expr c.locals c.state = .ok v t) :
    evalArgs (fun e => eval n e c.locals) rest 0 t₀ = .ok vs t₁ ∧
      finish (eval n) f vs t₁ = .ok v t := by
  obtain ⟨_, _, hargs, result⟩ := head.returns hc
  obtain ⟨us, hus, rfl⟩ := args.evalArgs_ok hargs
  rw [evalArgs_last last] at hus
  cases hus
  rw [List.append_nil] at hargs result
  exact ⟨hargs, result⟩

end LispDos.Lisp
