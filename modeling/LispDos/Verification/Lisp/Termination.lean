import LispDos.Verification.Lisp.BigStep
import LispDos.Verification.Lisp.Errors

/-! # Evaluations that come back

An evaluation whose steps are safe may still end in the allocator, which leaves the interpreter
when the pool is full, or never. It returns exactly if its calls are not nested without end, and
the pool has room for every node that it and its calls take. -/

namespace LispDos.Lisp

open Relation

variable {e f first rest tail v : Node} {s t t₀ : Interp} {vs : List Node} {n k : ℕ} {c d : Call}
  {name : List UInt8}

/-! ## Nodes -/

/-- The evaluation takes nodes for itself, with the pool as it is then. -/
inductive Call.Takes (c : Call) : ℕ → Interp → Prop where
  | null (expr : c.expr = .null) : c.Takes 1 c.state
  | unset (x : List UInt8) (expr : c.expr = .sym x)
      (unset : lookupVar c.locals c.state.globals x = none) : c.Takes 1 c.state
  | err (m : List UInt8) (expr : c.expr = .err m) : c.Takes 1 c.state
  | func (params body : Node) (expr : c.expr = .func params body) : c.Takes 1 c.state
  | defun (rest : Node) (expr : c.expr = .list (.sym (text "defun")) rest) : c.Takes 2 c.state
  | builtin (name : List UInt8) (vs : List Node) (t : Interp) (applies : Applies c (.sym name) vs t) :
      c.Takes 1 t
  | noFunction (f : Node) (vs : List Node) (t : Interp) (applies : Applies c f vs t)
      (hf : NoFunction f) : c.Takes 1 t

/-- The pool has room for the nodes that the evaluation takes for itself. -/
def Call.HasRoom (c : Call) : Prop := ∀ k t, c.Takes k t → t.pool + nodeSize * k ≤ poolSize

/-- There is no infinite chain of nested calls. -/
def Call.Ends (c : Call) : Prop := Acc (fun d c => Calls c d) c

/-- The evaluation and all its calls are safe, and the pool has room for their nodes. -/
def Call.Sound (c : Call) : Prop :=
  ∀ d, ReflTransGen Calls c d → (∀ st, Does d st → st.Safe) ∧ d.HasRoom

theorem Call.Sound.of_calls (h : c.Sound) (hcalls : Calls c d) : d.Sound :=
  fun _ hreach => h _ (.head hcalls hreach)

theorem allocNode_room (h : s.pool + nodeSize ≤ poolSize) (e : Node) :
    allocNode e s = .ok e { s with pool := s.pool + nodeSize } := by
  rw [allocNode, if_neg (Nat.not_lt.mpr h)]

theorem room_of_allocNode (h : allocNode e s = .ok v t) :
    s.pool + nodeSize ≤ poolSize ∧ t.pool = s.pool + nodeSize := by
  rw [allocNode] at h
  split at h
  · cases h
  · cases h
    exact ⟨by omega, rfl⟩

/-! ## Evaluations that return -/

/-- The arguments of a call are evaluated, if each of them is. -/
theorem Args.applies (hsafe : ∀ st, Does c st → st.Safe)
    (hcalls : ∀ d, Calls c d → ∃ v t, d.Returns v t) (hhead : Head c first rest f t₀)
    (hargs : Args c.locals rest t₀ vs tail t) : ∃ ws u, Applies c f ws u := by
  induction tail generalizing vs t with
  | list e tail _ ih =>
      obtain ⟨v, t', hv⟩ := hcalls _ (.arg first rest f e tail vs t₀ t hhead hargs)
      have hroom : vs.length < 16 := hsafe _ (.store first rest f e tail vs v t₀ t t' hhead hargs hv)
      exact ih (hargs.next hroom hv)
  | _ => exact ⟨vs, t, first, rest, _, t₀, hhead, hargs, by simp [IsList]⟩

/-- A builtin function returns on safe operands, if there is room for its result. -/
theorem exists_callBuiltin (hsafe : (Step.apply name vs).Safe) (hvs : ∀ x ∈ vs, Value x)
    (hroom : s.pool + nodeSize ≤ poolSize) : ∃ v t, callBuiltin name vs s = .ok v t := by
  have hsafely : Safely (¬ (Step.apply name vs).Safe) (Result s) (callBuiltin name vs s) :=
    callBuiltin_safely hvs
  rw [callBuiltin_eq] at hsafely ⊢
  cases happly : applyBuiltin name vs with
  | none =>
      rw [happly] at hsafely
      exact absurd hsafe hsafely
  | some r =>
      have hnode := allocNode_room (s := s.say r.2) hroom r.1
      exact ⟨_, _, (bind_ok rfl).trans hnode⟩

theorem exists_evalDefun (hrest : Tail rest) (hsafe : (Step.defun rest).Safe)
    (hroom : s.pool + nodeSize * 2 ≤ poolSize) : ∃ v t, evalDefun rest s = .ok v t := by
  cases hrest with
  | nil => exact absurd hsafe (Nat.not_succ_le_zero 1)
  | err => exact absurd hsafe (Nat.not_succ_le_zero 1)
  | @list name r hname hr =>
      cases hr with
      | nil => exact absurd hsafe (by simp [Step.Safe, Node.elements])
      | err => exact absurd hsafe (by simp [Step.Safe, Node.elements])
      | @list params r' hparams hr' =>
          obtain ⟨body, hbody, -⟩ := hr'.getFirst s
          obtain ⟨x, hx⟩ := hname.getSym s
          have hspends : Spends (evalDefun (.list name (.list params r'))) s.globals _ _ _ _ :=
            spends_evalDefun rfl rfl rfl rfl (getFirst_ok hbody).1 (getSym_ok hx) s.globals
          exact ⟨_, _, hspends.ok s rfl hroom⟩

theorem exists_evalSetq {ev : Node → Run Node} (hrest : Tail rest) (hsafe : (Step.setq rest).Safe)
    (hev : ∀ r e, rest.rest? = some r → r.first? = some e → ∃ v t, ev e s = .ok v t) :
    ∃ v t, evalSetq ev rest s = .ok v t := by
  cases hrest with
  | nil => exact absurd hsafe (Nat.not_succ_le_zero 0)
  | err => exact absurd hsafe (Nat.not_succ_le_zero 0)
  | @list name r hname hr =>
      obtain ⟨e, he, -⟩ := hr.getFirst s
      obtain ⟨v, t, hv⟩ := hev r e rfl (getFirst_ok he).1
      obtain ⟨x, hx⟩ := hname.getSym t
      refine ⟨v, { t with globals := store t.globals ⟨x, v⟩ }, ?_⟩
      show (r.getFirst >>= fun e => ev e >>= fun val => name.getSym >>= fun sym =>
        envSet sym val >>= fun _ => pure val) s = _
      rw [bind_ok he, bind_ok hv, bind_ok hx, bind_ok (envSet_eq x v t)]
      rfl

/-- A node that is not a list returns if there is room for the node that it may take. -/
theorem exists_returns_atom (hc : Proper c) (hlist : ¬ IsList c.expr) (hroom : c.HasRoom) :
    ∃ v t, c.Returns v t := by
  obtain ⟨expr, locals, s⟩ := c
  rcases hc.code with hnull | hexpr
  · obtain rfl : expr = .null := hnull
    exact ⟨_, _, 1, allocNode_room (hroom 1 s (.null rfl)) .nil⟩
  · replace hexpr : Expr expr := hexpr
    cases hexpr with
    | num m => exact ⟨.num m, s, 1, rfl⟩
    | nil => exact ⟨.nil, s, 1, rfl⟩
    | list _ _ => exact absurd ⟨_, _, rfl⟩ hlist
    | sym x =>
        cases hvalue : lookupVar locals s.globals x with
        | some v => exact ⟨v, s, 1, envGet_set hvalue⟩
        | none =>
            have hone := hroom 1 s (.unset x rfl hvalue)
            by_cases hname : x ∈ builtins
            · exact ⟨_, _, 1, ((envGet_unset hvalue).trans (if_pos hname)).trans
                (allocNode_room hone (.sym x))⟩
            · exact ⟨_, _, 1, ((envGet_unset hvalue).trans (if_neg hname)).trans
                (allocNode_room hone (.err (text "Variavel/Funcao nao definida")))⟩

/-- An application returns if the body of the function does. -/
theorem Applies.exists_returns (happ : Applies c f vs t) (hc : Proper c)
    (hsafe : ∀ st, Does c st → st.Safe) (hroom : c.HasRoom)
    (hcalls : ∀ d, Calls c d → ∃ v t, d.Returns v t) : ∃ v u, c.Returns v u := by
  obtain ⟨first, rest, tail, t₀, head, args, last⟩ := id happ
  obtain ⟨hrest, hf, ht₀⟩ := head.good hc
  obtain ⟨-, ht, hvs⟩ := args.good hc.locals hc.room hrest ht₀
  simp only [returns_iff, happ.evaluate_eq]
  cases hf with
  | sym name =>
      exact exists_callBuiltin (hsafe _ (.apply name vs t happ)) hvs
        (hroom 1 t (.builtin name vs t happ))
  | @func params body hparams hbody =>
      obtain ⟨env, henv, -, -⟩ := bindParams_safely (.inl hparams) hvs t
      obtain ⟨v, u, hbody⟩ := hcalls _ (.body params body vs env t t happ henv)
      refine ⟨v, u, ?_⟩
      show (bindParams params vs >>= evaluate body) t = _
      rw [bind_ok henv]
      exact returns_iff.mp hbody
  | num m => exact ⟨_, _, allocNode_room (hroom 1 t (.noFunction _ vs t happ (.num m))) _⟩
  | nil => exact ⟨_, _, allocNode_room (hroom 1 t (.noFunction _ vs t happ .nil)) _⟩
  | err m => exact absurd ⟨m, rfl⟩ head.not_err

/-- An evaluation returns if it is safe, has room, and its calls return. -/
theorem exists_returns_step (hc : Proper c) (hsafe : ∀ st, Does c st → st.Safe) (hroom : c.HasRoom)
    (hcalls : ∀ d, Calls c d → ∃ v t, d.Returns v t) : ∃ v t, c.Returns v t := by
  by_cases hlist : IsList c.expr
  · obtain ⟨first, rest, hexpr⟩ := hlist
    obtain ⟨hfirst, hrest⟩ := hc.list hexpr
    by_cases hdefun : first = .sym (text "defun")
    · subst hdefun
      simp only [returns_iff, hexpr, evaluate_list, evalList_defun]
      exact exists_evalDefun hrest (hsafe _ (.defun rest hexpr)) (hroom 2 c.state (.defun rest hexpr))
    by_cases hsetq : first = .sym (text "setq")
    · subst hsetq
      simp only [returns_iff, hexpr, evaluate_list, evalList_setq]
      refine exists_evalSetq hrest (hsafe _ (.setq rest hexpr)) ?_
      intro r e hr he
      obtain ⟨v, t, hv⟩ := hcalls _ (.value rest r e hexpr hr he)
      exact ⟨v, t, returns_iff.mp hv⟩
    have hspecial : ¬ Special first := by
      rintro (h | h)
      · exact hdefun h
      · exact hsetq h
    have hhead := Calls.head first rest hexpr hfirst.ne_null hspecial
    obtain ⟨f, t, hf⟩ := hcalls _ hhead
    by_cases herr : IsErr f
    · obtain ⟨m, rfl⟩ := herr
      refine ⟨.err m, t, returns_iff.mpr ?_⟩
      rw [hexpr, evaluate_list, evalList_eq hfirst.ne_null hspecial, bind_ok (returns_iff.mp hf)]
      rfl
    have hhead' : Head c first rest f t := ⟨hexpr, hfirst.ne_null, hspecial, hf,
      (hf.good (hc.of_calls hhead)).1.ne_null, herr⟩
    obtain ⟨vs, u, happ⟩ := Args.start.applies hsafe hcalls hhead'
    exact happ.exists_returns hc hsafe hroom hcalls
  · exact exists_returns_atom hc hlist hroom

/-- By induction on the nested calls. -/
theorem Call.Ends.exists_returns (h : c.Ends) (hc : Proper c) (hsound : c.Sound) :
    ∃ v t, c.Returns v t := by
  induction h with
  | intro c _ ih =>
      obtain ⟨hsafe, hroom⟩ := hsound c .refl
      exact exists_returns_step hc hsafe hroom fun d hcalls =>
        ih d hcalls (hc.of_calls hcalls) (hsound.of_calls hcalls)

/-! ## What an evaluation that returns has met -/

/-- The calls of an evaluation that returns within a bound return within a smaller one. -/
theorem Call.Returns.ends (h : c.Returns v t) : c.Ends := by
  obtain ⟨n, hn⟩ := h
  induction n generalizing c v t with
  | zero => cases hn
  | succ n ih =>
      refine .intro c ?_
      intro d hcalls
      obtain ⟨w, t', hd, -⟩ := hcalls.returns hn
      exact ih hd

theorem evalDefun_room (h : evalDefun rest s = .ok v t) : s.pool + nodeSize * 2 ≤ poolSize := by
  obtain ⟨_, _, hname, h₁⟩ := bind_eq_ok h
  obtain ⟨_, _, htail, h₂⟩ := bind_eq_ok h₁
  obtain ⟨_, _, hargs, h₃⟩ := bind_eq_ok h₂
  obtain ⟨_, _, hrest, h₄⟩ := bind_eq_ok h₃
  obtain ⟨_, _, hbody, h₅⟩ := bind_eq_ok h₄
  obtain ⟨func, t₁, hfunc, h₆⟩ := bind_eq_ok h₅
  obtain ⟨x, t₂, hsym, h₇⟩ := bind_eq_ok h₆
  obtain ⟨_, t₃, hset, h₈⟩ := bind_eq_ok h₇
  obtain ⟨_, rfl⟩ := getFirst_ok hname
  obtain ⟨_, rfl⟩ := getRest_ok htail
  obtain ⟨_, rfl⟩ := getFirst_ok hargs
  obtain ⟨_, rfl⟩ := getRest_ok hrest
  obtain ⟨_, rfl⟩ := getFirst_ok hbody
  obtain ⟨_, hpool₁⟩ := room_of_allocNode hfunc
  have hpool₂ : t₂.pool = t₁.pool := by
    rw [getSym_eq] at hsym
    cases hx : Node.sym? _ with
    | none => rw [hx] at hsym; cases hsym
    | some x => rw [hx] at hsym; cases hsym; rfl
  have hpool₃ : t₃.pool = t₂.pool := by
    rw [envSet_eq] at hset
    cases hset
    rfl
  have hlast := (room_of_allocNode h₈).1
  omega

theorem callBuiltin_room (h : callBuiltin name vs s = .ok v t) : s.pool + nodeSize ≤ poolSize := by
  rw [callBuiltin_eq] at h
  cases happly : applyBuiltin name vs with
  | none => rw [happly] at h; cases h
  | some r =>
      rw [happly] at h
      obtain ⟨_, u, hprint, hnode⟩ := bind_eq_ok h
      cases hprint
      exact (room_of_allocNode hnode).1

theorem Call.Returns.hasRoom (h : c.Returns v t) : c.HasRoom := by
  have heval := returns_iff.mp h
  intro k u htakes
  cases htakes with
  | null expr =>
      rw [expr, evaluate_atom (by simp)] at heval
      exact (room_of_allocNode heval).1
  | unset x expr unset =>
      rw [expr, evaluate_atom (by simp)] at heval
      replace heval := (envGet_unset unset).symm.trans heval
      split at heval
      · exact (room_of_allocNode heval).1
      · exact (room_of_allocNode heval).1
  | err m expr =>
      rw [expr, evaluate_atom (by simp)] at heval
      exact (room_of_allocNode heval).1
  | func params body expr =>
      rw [expr, evaluate_atom (by simp)] at heval
      exact (room_of_allocNode heval).1
  | defun rest expr =>
      rw [expr, evaluate_list, evalList_defun] at heval
      exact evalDefun_room heval
  | builtin name vs t applies =>
      rw [applies.evaluate_eq] at heval
      exact callBuiltin_room heval
  | noFunction f vs t applies hf =>
      rw [applies.evaluate_eq, hf.finish_eq] at heval
      exact (room_of_allocNode heval).1

theorem Call.Returns.sound (h : c.Returns v t) (hc : Proper c) : c.Sound := by
  intro d hreach
  obtain ⟨w, u, hd⟩ := returns_of_reach hreach h
  refine ⟨?_, hd.hasRoom⟩
  intro st hdoes
  by_contra hst
  have hfault := hdoes.fault (hc.of_reach hreach) hst
  rw [returns_iff.mp hd] at hfault
  cases hfault

/-! ## Scripts -/

/-- No bound lets the evaluation fault exactly if all steps are safe. -/
theorem forall_ne_fault_iff (hc : Proper c) :
    (∀ fuel, eval fuel c.expr c.locals c.state ≠ .fault) ↔
      ∀ d, ReflTransGen Calls c d → ∀ st, Does d st → st.Safe := by
  have hiff := exists_fault_iff hc
  constructor
  · intro hnever d hreach st hdoes
    by_contra hst
    obtain ⟨fuel, hfault⟩ := hiff.mpr ⟨d, hreach, st, hdoes, hst⟩
    exact hnever fuel hfault
  · intro hsafe fuel hfault
    obtain ⟨d, hreach, st, hdoes, hst⟩ := hiff.mp ⟨fuel, hfault⟩
    exact hst (hsafe d hreach st hdoes)

/-- What the loop of a script hands to `eval` is evaluated to a value or an error, without a fault
on the way, exactly if every step is safe, the pool has room for every node, and the calls are not
nested without end. A fault comes exactly from an unsafe step. The tables are never left, and what
is returned is a value or an error. -/
theorem eval_in_bounds_iff {start : Interp} {ast : Node} (hstart : start.globals = [])
    (hs : Reached start s) (hreads : Reads s ast t) :
    (((∃ v u, Call.Returns ⟨ast, [], t⟩ v u ∧ Value v) ∧ ∀ fuel, eval fuel ast [] t ≠ .fault) ↔
      (∀ d, ReflTransGen Calls ⟨ast, [], t⟩ d → (∀ st, Does d st → st.Safe) ∧ d.HasRoom) ∧
        Call.Ends ⟨ast, [], t⟩) ∧
    ((∀ fuel, eval fuel ast [] t ≠ .fault) ↔
      ∀ d, ReflTransGen Calls ⟨ast, [], t⟩ d → ∀ st, Does d st → st.Safe) ∧
    ∀ d, ReflTransGen Calls ⟨ast, [], t⟩ d →
      d.locals.length ≤ 16 ∧ d.state.globals.length ≤ 128 ∧
        ∀ v u, d.Returns v u → Value v ∧ u.globals.length ≤ 128 := by
  have hc := hreads.proper (hs.sane hstart)
  refine ⟨?_, forall_ne_fault_iff hc, ?_⟩
  · constructor
    · rintro ⟨⟨v, u, hreturns, -⟩, -⟩
      exact ⟨hreturns.sound hc, hreturns.ends⟩
    · rintro ⟨hsound, hends⟩
      obtain ⟨v, u, hreturns⟩ := hends.exists_returns hc hsound
      refine ⟨⟨v, u, hreturns, (hreturns.good hc).1⟩, (forall_ne_fault_iff hc).mpr ?_⟩
      exact fun d hreach => (hsound d hreach).1
  · intro d hreach
    have hd := hc.of_reach hreach
    refine ⟨hd.room, hd.state.length_le, ?_⟩
    intro v u hreturns
    obtain ⟨hv, hu⟩ := hreturns.good hd
    exact ⟨hv, hu.length_le⟩

theorem reads_sub : Reads ⟨text "(-)", 0, [], []⟩ (.list (.sym (text "-")) .nil) ⟨[], 168, [], []⟩ := by
  refine ⟨by decide, by decide +kernel, by simp, ?_⟩
  rintro ⟨_, h⟩
  cases h

/-- Without an operand `-` reads a slot of its array that has not been set. -/
theorem sub_without_operand :
    ∃ s ast t, Reached ⟨text "(-)", 0, [], []⟩ s ∧ Reads s ast t ∧ eval 2 ast [] t = .fault :=
  ⟨_, _, _, .start, reads_sub, by decide +kernel⟩

theorem eval_in_bounds_iff_sub :
    ¬ ∀ d, ReflTransGen Calls ⟨.list (.sym (text "-")) .nil, [], ⟨[], 168, [], []⟩⟩ d →
      ∀ st, Does d st → st.Safe := by
  intro hsafe
  have hnever := (eval_in_bounds_iff rfl .start reads_sub).2.1.mpr hsafe
  exact hnever 2 (by decide +kernel)

end LispDos.Lisp
