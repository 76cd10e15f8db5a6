import LispDos.Verification.Lisp.Calls
import LispDos.Verification.Lisp.Scripts

/-! # Accesses of the evaluator

The evaluator checks neither that the operands of a special form are there, nor that the
arguments fit its array, nor the operands of `-` and one case of `/`. On trees of the reader
it leaves memory or traps exactly where one of these is missing. -/

namespace LispDos.Lisp

open Relation

variable {α β : Type} {bad : Prop} {a e f first rest tail v : Node} {locals : List EnvVar}
  {s t t₀ : Interp} {vs : List Node} {n : ℕ} {c d : Call} {name : List UInt8}

/-! ## Outcomes -/

/-- The outcome is a fault only if `bad`, and what is returned has the property `Q`. -/
def Safely (bad : Prop) (Q : α → Interp → Prop) : Outcome α → Prop
  | .ok a t => Q a t
  | .exit _ => True
  | .fault => bad
  | .timeout => True

theorem Safely.bind {x : Run α} {g : α → Run β} {Q : α → Interp → Prop} {R : β → Interp → Prop}
    (hx : Safely bad Q (x s)) (hg : ∀ a t, x s = .ok a t → Q a t → Safely bad R (g a t)) :
    Safely bad R ((x >>= g) s) := by
  simp only [bind_apply, Run.bind]
  cases hfirst : x s with
  | ok a t =>
      rw [hfirst] at hx
      exact hg a t hfirst hx
  | exit => trivial
  | fault =>
      rw [hfirst] at hx
      exact hx
  | timeout => trivial

theorem Safely.mono {bad' : Prop} {Q R : α → Interp → Prop} {o : Outcome α} (h : Safely bad Q o)
    (hbad : bad → bad') (hQ : ∀ a t, Q a t → R a t) : Safely bad' R o := by
  cases o with
  | ok a t => exact hQ a t h
  | exit => trivial
  | fault => exact hbad h
  | timeout => trivial

theorem safely_allocNode {Q : Node → Interp → Prop} (h : ∀ t, t.globals = s.globals → Q a t) :
    Safely bad Q (allocNode a s) := by
  unfold allocNode
  split
  · trivial
  · exact h _ rfl

/-! ## Steps -/

/-- What an evaluation does that may leave memory: it takes a special form apart, it stores the
value of an argument, or it applies a builtin function. -/
inductive Step where
  | defun (rest : Node)
  | setq (rest : Node)
  | store (ac : ℕ)
  | apply (name : List UInt8) (args : List Node)

/-- The elements of a list. -/
def Node.elements : Node → List Node
  | .list first rest => first :: rest.elements
  | _ => []

/-- The operands of the one division that overflows. -/
def Overflows : List Node → Prop
  | a :: b :: _ => a = .num (BitVec.intMin 32) ∧ b = .num (-1)
  | _ => False

/-- `defun` has a name and parameters, `setq` has a name, there is room for the argument, `-` has
an operand, and the division does not overflow. -/
def Step.Safe : Step → Prop
  | .defun rest => 2 ≤ rest.elements.length
  | .setq rest => 1 ≤ rest.elements.length
  | .store ac => ac < 16
  | .apply name args =>
      ¬ (name = text "-" ∧ args = []) ∧ ¬ (name = text "/" ∧ Overflows args)

/-- The evaluation does a step. -/
inductive Does (c : Call) : Step → Prop where
  | defun (rest : Node) (expr : c.expr = .list (.sym (text "defun")) rest) : Does c (.defun rest)
  | setq (rest : Node) (expr : c.expr = .list (.sym (text "setq")) rest) : Does c (.setq rest)
  | store (first rest f e tail : Node) (vs : List Node) (v : Node) (t₀ t t' : Interp)
      (head : Head c first rest f t₀) (args : Args c.locals rest t₀ vs (.list e tail) t)
      (value : Call.Returns ⟨e, c.locals, t⟩ v t') : Does c (.store vs.length)
  | apply (name : List UInt8) (vs : List Node) (t : Interp) (applies : Applies c (.sym name) vs t) :
      Does c (.apply name vs)

/-- The evaluation, or one that it calls, does a step that is not safe. -/
def Unsafe (c : Call) : Prop := ∃ d, ReflTransGen Calls c d ∧ ∃ st, Does d st ∧ ¬ st.Safe

theorem Unsafe.of_calls (h : Calls c d) (hd : Unsafe d) : Unsafe c := by
  obtain ⟨e, hreach, hstep⟩ := hd
  exact ⟨e, .head h hreach, hstep⟩

/-! ## Builtin functions -/

/-- The field `num` of a node. -/
def numOf : Node → BitVec 32
  | .num n => n
  | _ => 0

theorem getNum_value (ha : Value a) (s : Interp) : a.getNum s = .ok (numOf a) s := by
  cases ha <;> rfl

theorem foldArgs_values (op : BitVec 32 → BitVec 32 → BitVec 32) (hvs : ∀ x ∈ vs, Value x)
    (res : BitVec 32) (s : Interp) : ∃ m, foldArgs op vs res s = .ok m s := by
  induction vs generalizing res with
  | nil => exact ⟨res, rfl⟩
  | cons x vs ih =>
      obtain ⟨m, hm⟩ := ih (fun y hy => hvs y (List.mem_cons_of_mem _ hy)) (op res (numOf x))
      refine ⟨m, ?_⟩
      unfold foldArgs at hm ⊢
      rw [List.foldlM_cons]
      have hfirst : (do return op res (← x.getNum) : Run (BitVec 32)) s =
          .ok (op res (numOf x)) s := by
        rw [bind_ok (getNum_value (hvs x (by simp)) s)]
        rfl
      rw [bind_ok hfirst, hm]

theorem printArgs_values (hvs : ∀ x ∈ vs, Value x) (s : Interp) :
    ∃ t, printArgs vs s = .ok () t ∧ t.globals = s.globals := by
  induction vs generalizing s with
  | nil => exact ⟨s, rfl, rfl⟩
  | cons x vs ih =>
      have hfirst : ∃ t, printArg x s = .ok () t ∧ t.globals = s.globals := by
        cases hvs x (by simp) <;> exact ⟨_, rfl, rfl⟩
      obtain ⟨t, ht, hglobals⟩ := hfirst
      have hspace : print [0x20] t = .ok () (t.say [0x20]) := rfl
      obtain ⟨t', ht', hglobals'⟩ := ih (fun y hy => hvs y (List.mem_cons_of_mem _ hy)) (t.say [0x20])
      refine ⟨t', ?_, hglobals'.trans hglobals⟩
      rw [printArgs, bind_ok ht, bind_ok hspace, ht']

/-- What a builtin function returns. -/
def Result (s : Interp) (v : Node) (t : Interp) : Prop := Value v ∧ t.globals = s.globals

theorem safely_num (m : BitVec 32) : Safely bad (Result s) (newLvalNum m s) :=
  safely_allocNode fun _ h => ⟨.num m, h⟩

theorem safely_err (m : List UInt8) : Safely bad (Result s) (newLvalErr m s) :=
  safely_allocNode fun _ h => ⟨.err m, h⟩

theorem callSub_safely (hvs : ∀ x ∈ vs, Value x) :
    Safely (vs = []) (Result s) (callSub vs s) := by
  rcases vs with _ | ⟨x, _ | ⟨y, vs⟩⟩
  · exact rfl
  · rw [callSub, bind_ok (getNum_value (hvs x (by simp)) s)]
    exact safely_num _
  · obtain ⟨m, hm⟩ := foldArgs_values (· - ·)
      (fun z hz => hvs z (List.mem_cons_of_mem _ hz)) (numOf x) s
    rw [callSub, bind_ok (getNum_value (hvs x (by simp)) s), bind_ok hm]
    · exact safely_num _
    · simp

theorem callDiv_safely (hvs : ∀ x ∈ vs, Value x) :
    Safely (Overflows vs) (Result s) (callDiv vs s) := by
  rcases vs with _ | ⟨x, _ | ⟨y, vs⟩⟩
  · exact safely_err _
  · exact safely_err _
  · have hx := hvs x (by simp)
    have hy := hvs y (by simp)
    rw [callDiv, bind_ok (getNum_value hy s)]
    by_cases hzero : numOf y = 0
    · rw [if_neg (not_not.mpr hzero)]
      exact safely_err _
    · rw [if_pos hzero, bind_ok (getNum_value hx s)]
      by_cases hover : numOf x = BitVec.intMin 32 ∧ numOf y = -1
      · rw [if_pos hover]
        have hmin : (0 : BitVec 32) ≠ BitVec.intMin 32 := by decide
        have hneg : (0 : BitVec 32) ≠ -1 := by decide
        refine ⟨?_, ?_⟩
        · cases hx with
          | num m => exact congrArg Node.num hover.1
          | _ => exact absurd hover.1 hmin
        · cases hy with
          | num m => exact congrArg Node.num hover.2
          | _ => exact absurd hover.2 hneg
      · rw [if_neg hover]
        exact safely_num _

/-- The builtin functions fault on the operands that are not safe only. -/
theorem callBuiltin_safely (hvs : ∀ x ∈ vs, Value x) :
    Safely (¬ (Step.apply name vs).Safe) (Result s) (callBuiltin name vs s) := by
  obtain ⟨m, hadd⟩ := foldArgs_values (· + ·) hvs 0 s
  obtain ⟨m', hmul⟩ := foldArgs_values (· * ·) hvs 1 s
  unfold callBuiltin
  split
  · rw [bind_ok hadd]
    exact safely_num _
  split
  · rename_i hname
    exact (callSub_safely hvs).mono (fun hnil hsafe => hsafe.1 ⟨hname, hnil⟩) fun _ _ h => h
  split
  · rw [bind_ok hmul]
    exact safely_num _
  split
  · rename_i hname
    exact (callDiv_safely hvs).mono (fun hover hsafe => hsafe.2 ⟨hname, hover⟩) fun _ _ h => h
  split
  · obtain ⟨t, ht, hglobals⟩ := printArgs_values hvs s
    have hline : print (text "\n") t = .ok () (t.say (text "\n")) := rfl
    rw [bind_ok ht, bind_ok hline]
    exact safely_allocNode fun _ h => ⟨.nil, h.trans hglobals⟩
  · exact safely_err _

/-! ## Evaluations -/

/-- An expression of the reader, at most 16 local variables that hold values, and a sane state. -/
structure Proper (c : Call) : Prop where
  code : Code c.expr
  locals : Holds c.locals
  room : c.locals.length ≤ 16
  state : Sane c.state

/-- What an evaluation returns. -/
def Good (v : Node) (t : Interp) : Prop := Value v ∧ Sane t

theorem Sane.of_globals (h : Sane s) (hglobals : t.globals = s.globals) : Sane t :=
  ⟨hglobals ▸ h.holds, hglobals ▸ h.length_le⟩

theorem Sane.alloc (h : Sane s) (ha : Value a) : Safely bad Good (allocNode a s) :=
  safely_allocNode fun _ hglobals => ⟨ha, h.of_globals hglobals⟩

theorem Expr.getSym (h : Expr e) (s : Interp) : ∃ x, e.getSym s = .ok x s := by
  cases h <;> exact ⟨_, rfl⟩

/-- Setting a variable to a value is safe. -/
theorem safely_envSet {Q : Unit → Interp → Prop} {sym : List UInt8} (h : Sane s) (hv : Value v)
    (hQ : ∀ t, Sane t → Q () t) : Safely bad Q (envSet sym v s) := by
  obtain ⟨t, ht, hsane⟩ := h.envSet sym hv
  rw [ht]
  exact hQ t hsane

/-- The first element of a tail; a missing one is the null pointer. -/
theorem Tail.getFirst (h : Tail rest) (s : Interp) : ∃ e, rest.getFirst s = .ok e s ∧ Code e := by
  cases h with
  | nil => exact ⟨.null, rfl, .inl rfl⟩
  | err => exact ⟨.null, rfl, .inl rfl⟩
  | list hfirst _ => exact ⟨_, rfl, .inr hfirst⟩

theorem evalDefun_safely (hrest : Tail rest) (hs : Sane s) :
    Safely (¬ (Step.defun rest).Safe) Good (evalDefun rest s) := by
  cases hrest with
  | nil => exact fun h => absurd h (Nat.not_succ_le_zero 1)
  | err => exact fun h => absurd h (Nat.not_succ_le_zero 1)
  | @list name r hname hr =>
      cases hr with
      | nil => exact fun h => absurd h (Nat.not_succ_le_self 1)
      | err => exact fun h => absurd h (Nat.not_succ_le_self 1)
      | @list params r hparams hr =>
          obtain ⟨body, hbody, hcode⟩ := hr.getFirst s
          have hpre : evalDefun (.list name (.list params r)) s =
              (newLvalFunc params body >>= fun func => name.getSym >>= fun sym =>
                envSet sym func >>= fun _ => newLvalSym (text "ok")) s := by
            show (r.getFirst >>= fun body => newLvalFunc params body >>= fun func =>
              name.getSym >>= fun sym => envSet sym func >>= fun _ => newLvalSym (text "ok")) s = _
            rw [bind_ok hbody]
          rw [hpre]
          refine Safely.bind (Q := fun func t => func = .func params body ∧ Sane t)
            (safely_allocNode fun t h => ⟨rfl, hs.of_globals h⟩) ?_
          rintro _ t _ ⟨rfl, ht⟩
          obtain ⟨sym, hsym⟩ := hname.getSym t
          rw [bind_ok hsym]
          refine Safely.bind (Q := fun _ t => Sane t)
            (safely_envSet ht (.func hparams hcode) fun _ h => h) ?_
          intro _ t' _ ht'
          exact ht'.alloc (.sym _)

theorem evalSetq_safely {ev : Node → Run Node} (hrest : Tail rest)
    (hshort : ¬ (Step.setq rest).Safe → bad)
    (hev : ∀ r e, rest.rest? = some r → r.first? = some e → Code e → Safely bad Good (ev e s)) :
    Safely bad Good (evalSetq ev rest s) := by
  cases hrest with
  | nil => exact hshort (Nat.not_succ_le_zero 0)
  | err => exact hshort (Nat.not_succ_le_zero 0)
  | @list name r hname hr =>
      obtain ⟨e, he, hcode⟩ := hr.getFirst s
      have hpre : evalSetq ev (.list name r) s =
          (ev e >>= fun val => name.getSym >>= fun sym => envSet sym val >>= fun _ => pure val) s := by
        show (r.getFirst >>= fun e => ev e >>= fun val => name.getSym >>= fun sym =>
          envSet sym val >>= fun _ => pure val) s = _
        rw [bind_ok he]
      rw [hpre]
      refine Safely.bind (hev r e rfl (getFirst_ok he).1 hcode) ?_
      rintro v t _ ⟨hv, ht⟩
      obtain ⟨sym, hsym⟩ := hname.getSym t
      rw [bind_ok hsym]
      refine Safely.bind (Q := fun _ t => Sane t) (safely_envSet ht hv fun _ h => h) ?_
      intro _ t' _ ht'
      exact ⟨hv, ht'⟩

/-- The binding of parameters stops at what is no list. -/
theorem bindParams_stop {params : Node} (hp : ¬ IsList params) (vs : List Node) (s : Interp) :
    bindParams params vs s = .ok [] s := by
  cases params with
  | list param params => exact (hp ⟨param, params, rfl⟩).elim
  | _ => cases vs <;> rfl

/-- The parameters of a function are bound to values. -/
theorem bindParams_safely {params : Node} (hparams : Expr params ∨ Tail params)
    (hvs : ∀ x ∈ vs, Value x) (s : Interp) :
    ∃ env, bindParams params vs s = .ok env s ∧ Holds env ∧ env.length ≤ vs.length := by
  induction vs generalizing params with
  | nil => cases params <;> exact ⟨[], rfl, holds_nil, Nat.le_refl _⟩
  | cons v vs ih =>
      by_cases hlist : IsList params
      · obtain ⟨param, ps, rfl⟩ := hlist
        have hshape : Expr param ∧ Tail ps := by
          rcases hparams with h | h <;> cases h with
          | list hfirst hrest => exact ⟨hfirst, hrest⟩
        obtain ⟨sym, hsym⟩ := hshape.1.getSym s
        obtain ⟨env, henv, hholds, hlen⟩ := ih (.inr hshape.2)
          fun x hx => hvs x (List.mem_cons_of_mem _ hx)
        refine ⟨⟨sym, v⟩ :: env, ?_, hholds.cons (hvs v (by simp)), Nat.succ_le_succ hlen⟩
        rw [bindParams, bind_ok hsym, bind_ok henv]
        rfl
      · exact ⟨[], bindParams_stop hlist _ s, holds_nil, Nat.zero_le _⟩

theorem Unsafe.of_does {st : Step} (h : Does c st) (hst : ¬ st.Safe) : Unsafe c :=
  ⟨c, .refl, st, h, hst⟩

theorem Applies.length_le (h : Applies c f vs t) : vs.length ≤ 16 := by
  obtain ⟨_, _, _, _, _, hargs, _⟩ := h
  exact hargs.length_le

theorem evalList_defun {ev : Node → List EnvVar → Run Node} :
    evalList ev (.sym (text "defun")) rest locals = evalDefun rest := by
  rw [evalList, if_neg (by simp), if_pos rfl]

theorem evalList_setq {ev : Node → List EnvVar → Run Node} :
    evalList ev (.sym (text "setq")) rest locals = evalSetq (fun e => ev e locals) rest := by
  have hname : Node.sym (text "setq") ≠ .sym (text "defun") := by decide
  rw [evalList, if_neg (by simp), if_neg hname, if_pos rfl]

section Nested

variable (ih : ∀ d : Call, Proper d → Safely (Unsafe d) Good (eval n d.expr d.locals d.state))

include ih

theorem nested_safely {expr : Node} (hcall : Calls c ⟨expr, locals, s⟩)
    (hd : Proper ⟨expr, locals, s⟩) : Safely (Unsafe c) Good (eval n expr locals s) :=
  (ih _ hd).mono (Unsafe.of_calls hcall) fun _ _ h => h

/-- The arguments are evaluated to values; a store behind the array is unsafe. -/
theorem evalArgs_safely (hc : Proper c) (hhead : Head c first rest f t₀)
    (hargs : Args c.locals rest t₀ vs tail t) (htail : Tail tail) (ht : Sane t) :
    Safely (Unsafe c) (fun ws u => (∀ x ∈ ws, Value x) ∧ Sane u)
      (evalArgs (fun e => eval n e c.locals) tail vs.length t) := by
  induction tail generalizing vs t with
  | list e tail _ ihTail =>
      cases htail with
      | list he htail =>
      simp only [evalArgs]
      refine Safely.bind (nested_safely ih (.arg first rest f e tail vs t₀ t hhead hargs)
        ⟨.inr he, hc.locals, hc.room, ht⟩) ?_
      rintro v t' hv ⟨hvalue, ht'⟩
      by_cases hroom : vs.length < 16
      · rw [if_pos hroom]
        have hnext := ihTail (hargs.next hroom ⟨n, hv⟩) htail ht'
        rw [List.length_append, List.length_singleton] at hnext
        refine Safely.bind hnext ?_
        rintro ws u _ ⟨hws, hu⟩
        refine ⟨?_, hu⟩
        intro x hx
        rcases List.mem_cons.mp hx with rfl | hx
        · exact hvalue
        · exact hws x hx
      · rw [if_neg hroom]
        exact .of_does (.store first rest f e tail vs v t₀ t t' hhead hargs ⟨n, hv⟩) hroom
  | _ => exact ⟨by simp, ht⟩

/-- An application of a value to values. -/
theorem finish_safely (happ : Applies c f vs t) (hf : Value f) (hvs : ∀ x ∈ vs, Value x)
    (ht : Sane t) : Safely (Unsafe c) Good (finish (eval n) f vs t) := by
  cases hf with
  | num => exact ht.alloc (.err _)
  | nil => exact ht.alloc (.err _)
  | err => exact ht.alloc (.err _)
  | sym name =>
      refine (callBuiltin_safely hvs).mono (fun hst => .of_does (.apply name vs t happ) hst) ?_
      rintro v u ⟨hv, hglobals⟩
      exact ⟨hv, ht.of_globals hglobals⟩
  | @func params body hparams hbody =>
      obtain ⟨env, henv, hholds, hlen⟩ := bindParams_safely (.inl hparams) hvs t
      have hroom : env.length ≤ 16 := hlen.trans happ.length_le
      show Safely _ _ ((bindParams params vs >>= eval n body) t)
      rw [bind_ok henv]
      exact nested_safely ih (.body params body vs env t t happ henv) ⟨hbody, hholds, hroom, ht⟩

theorem evalList_safely (hc : Proper c) (hexpr : c.expr = .list first rest) (hfirst : Expr first)
    (hrest : Tail rest) : Safely (Unsafe c) Good (evalList (eval n) first rest c.locals c.state) := by
  by_cases hspecial : Special first
  · rcases hspecial with rfl | rfl
    · rw [evalList_defun]
      exact (evalDefun_safely hrest hc.state).mono (.of_does (.defun rest hexpr)) fun _ _ h => h
    · rw [evalList_setq]
      refine evalSetq_safely hrest (.of_does (.setq rest hexpr)) ?_
      intro r e hr he hcode
      exact nested_safely ih (.value rest r e hexpr hr he) ⟨hcode, hc.locals, hc.room, hc.state⟩
  · rw [evalList_eq hfirst.ne_null hspecial]
    refine Safely.bind (nested_safely ih (.head first rest hexpr hfirst.ne_null hspecial)
      ⟨.inr hfirst, hc.locals, hc.room, hc.state⟩) ?_
    rintro f t hf ⟨hvalue, ht⟩
    by_cases herr : IsErr f
    · obtain ⟨m, rfl⟩ := herr
      exact ⟨hvalue, ht⟩
    · have hhead : Head c first rest f t :=
        ⟨hexpr, hfirst.ne_null, hspecial, ⟨n, hf⟩, hvalue.ne_null, herr⟩
      rw [evalCall_eq hvalue.ne_null herr]
      refine Safely.bind (evalArgs_safely ih hc hhead .start hrest ht) ?_
      rintro vs u hargs ⟨hvs, hu⟩
      exact finish_safely ih (hhead.applies hargs) hvalue hvs hu

end Nested

/-- An evaluation faults only if it does an unsafe step, and it returns a value. -/
theorem eval_safely (n : ℕ) (c : Call) (hc : Proper c) :
    Safely (Unsafe c) Good (eval n c.expr c.locals c.state) := by
  induction n generalizing c with
  | zero => trivial
  | succ n ih =>
      obtain ⟨e, locals, s⟩ := c
      rcases hc.code with rfl | he
      · exact hc.state.alloc .nil
      · cases he with
        | num m => exact ⟨.num m, hc.state⟩
        | nil => exact ⟨.nil, hc.state⟩
        | sym x =>
            show Safely _ _ (envGet x locals s)
            rcases hc.state.envGet x hc.locals with ⟨t, ht⟩ | ⟨v, t, ht, hv, hglobals⟩
            · rw [ht]
              trivial
            · rw [ht]
              exact ⟨hv, hc.state.of_globals hglobals⟩
        | list hfirst hrest => exact evalList_safely ih hc rfl hfirst hrest

theorem Call.Returns.good (h : c.Returns v t) (hc : Proper c) : Good v t := by
  obtain ⟨n, hn⟩ := h
  have hsafe := eval_safely n c hc
  rwa [hn] at hsafe

/-- The arguments so far have left a tail and a sane state, and they are values. -/
theorem Args.good {s : Interp} (h : Args locals rest s vs tail t) (hlocals : Holds locals)
    (hroom : locals.length ≤ 16) (hrest : Tail rest) (hs : Sane s) :
    Tail tail ∧ Sane t ∧ ∀ x ∈ vs, Value x := by
  induction h with
  | start => exact ⟨hrest, hs, by simp⟩
  | @next vs first tail t v t' _ _ value ih =>
      obtain ⟨htail, ht, hvs⟩ := ih
      cases htail with
      | list hfirst htail =>
      obtain ⟨hv, ht'⟩ := value.good ⟨.inr hfirst, hlocals, hroom, ht⟩
      refine ⟨htail, ht', ?_⟩
      intro x hx
      rcases List.mem_append.mp hx with hx | hx
      · exact hvs x hx
      · obtain rfl := List.mem_singleton.mp hx
        exact hv

/-- A list that is evaluated comes from the reader. -/
theorem Proper.list (hc : Proper c) (hexpr : c.expr = .list first rest) :
    Expr first ∧ Tail rest := by
  have hcode := hc.code
  rw [hexpr] at hcode
  rcases hcode with h | h
  · cases h
  · cases h with
    | list hfirst hrest => exact ⟨hfirst, hrest⟩

theorem Head.good (h : Head c first rest f t) (hc : Proper c) :
    Tail rest ∧ Value f ∧ Sane t := by
  obtain ⟨hfirst, hrest⟩ := hc.list h.expr
  obtain ⟨hf, ht⟩ := h.value.good ⟨.inr hfirst, hc.locals, hc.room, hc.state⟩
  exact ⟨hrest, hf, ht⟩

/-- What an evaluation calls is proper again. -/
theorem Proper.of_calls (hc : Proper c) (h : Calls c d) : Proper d := by
  cases h with
  | value rest r e expr hrest hfirst =>
      obtain ⟨_, htail⟩ := hc.list expr
      refine ⟨?_, hc.locals, hc.room, hc.state⟩
      cases htail with
      | nil =>
          cases hrest
          cases hfirst
      | err =>
          cases hrest
          cases hfirst
      | @list name r' _ hr =>
          cases hrest
          obtain ⟨e', he', hcode⟩ := hr.getFirst c.state
          have heq := (getFirst_ok he').1
          rw [hfirst] at heq
          cases heq
          exact hcode
  | head first rest expr ne_null not_special =>
      exact ⟨.inr (hc.list expr).1, hc.locals, hc.room, hc.state⟩
  | arg first rest f e tail vs t₀ t head args =>
      obtain ⟨hrest, _, ht₀⟩ := head.good hc
      obtain ⟨htail, ht, _⟩ := args.good hc.locals hc.room hrest ht₀
      cases htail with
      | list he _ => exact ⟨.inr he, hc.locals, hc.room, ht⟩
  | body params body vs env t t' applies bound =>
      have hlen := applies.length_le
      obtain ⟨first, rest, tail, t₀, head, args, last⟩ := applies
      obtain ⟨hrest, hf, ht₀⟩ := head.good hc
      obtain ⟨_, ht, hvs⟩ := args.good hc.locals hc.room hrest ht₀
      cases hf with
      | func hparams hbody =>
      obtain ⟨env', henv, hholds, hle⟩ := bindParams_safely (.inl hparams) hvs t
      rw [bound] at henv
      cases henv
      exact ⟨hbody, hholds, hle.trans hlen, ht⟩

theorem Proper.of_reach (hc : Proper c) (h : ReflTransGen Calls c d) : Proper d := by
  induction h with
  | refl => exact hc
  | tail _ hcalls ih => exact ih.of_calls hcalls

/-! ## Faults -/

theorem bind_fault {x : Run α} {g : α → Run β} (h : x s = .fault) : (x >>= g) s = .fault := by
  simp only [bind_apply, Run.bind, h]

/-- The fault of a call is the fault of its caller. -/
theorem Calls.fault (h : Calls c d) (hd : evaluate d.expr d.locals d.state = .fault) :
    evaluate c.expr c.locals c.state = .fault := by
  cases h with
  | value rest r e expr hrest hfirst =>
      rw [expr, evaluate_list, evalList_setq]
      have hname : ∃ name, rest.getFirst c.state = .ok name c.state := by
        cases rest with
        | null => cases hrest
        | _ => exact ⟨_, rfl⟩
      obtain ⟨name, hname⟩ := hname
      have hr : rest.getRest c.state = .ok r c.state := by
        rw [getRest_eq, hrest]
        rfl
      have he : r.getFirst c.state = .ok e c.state := by
        rw [getFirst_eq, hfirst]
        rfl
      rw [evalSetq, bind_ok hname, bind_ok hr, bind_ok he]
      exact bind_fault hd
  | head first rest expr ne_null not_special =>
      rw [expr, evaluate_list, evalList_eq ne_null not_special]
      exact bind_fault hd
  | arg first rest f e tail vs t₀ t head args =>
      have hargs := args.evalArgs_eq
      simp only [evalArgs] at hargs
      rw [bind_fault hd, Outcome.map] at hargs
      rw [head.evaluate_eq]
      exact bind_fault hargs
  | body params body vs env t t' applies bound =>
      rw [applies.evaluate_eq]
      show (bindParams params vs >>= evaluate body) t = .fault
      rw [bind_ok bound]
      exact hd

/-- An unsafe step faults. -/
theorem Does.fault {st : Step} (h : Does c st) (hc : Proper c) (hst : ¬ st.Safe) :
    evaluate c.expr c.locals c.state = .fault := by
  cases h with
  | defun rest expr =>
      obtain ⟨_, hrest⟩ := hc.list expr
      rw [expr, evaluate_list, evalList_defun]
      cases hrest with
      | nil => rfl
      | err => rfl
      | @list name r _ hr =>
          cases hr with
          | nil => rfl
          | err => rfl
          | @list params r _ _ =>
              exact absurd (Nat.le_add_left 2 r.elements.length) hst
  | setq rest expr =>
      obtain ⟨_, hrest⟩ := hc.list expr
      rw [expr, evaluate_list, evalList_setq]
      cases hrest with
      | nil => rfl
      | err => rfl
      | @list name r _ _ => exact absurd (Nat.le_add_left 1 r.elements.length) hst
  | store first rest f e tail vs v t₀ t t' head args value =>
      have hvalue : evaluate e c.locals t = .ok v t' := returns_iff.mp value
      have hfull : ¬ vs.length < 16 := hst
      have hargs := args.evalArgs_eq
      simp only [evalArgs] at hargs
      rw [bind_ok hvalue, if_neg hfull] at hargs
      rw [head.evaluate_eq]
      exact bind_fault hargs
  | apply name vs t applies =>
      rw [applies.evaluate_eq]
      show callBuiltin name vs t = .fault
      by_cases hsub : name = text "-" ∧ vs = []
      · obtain ⟨rfl, rfl⟩ := hsub
        rfl
      · have hdiv : name = text "/" ∧ Overflows vs := by
          by_contra hdiv
          exact hst ⟨hsub, hdiv⟩
        obtain ⟨rfl, hover⟩ := hdiv
        match vs, hover with
        | _ :: _ :: _, ⟨ha, hb⟩ =>
            subst ha
            subst hb
            rfl

theorem Unsafe.fault (h : Unsafe c) (hc : Proper c) :
    evaluate c.expr c.locals c.state = .fault := by
  obtain ⟨d, hreach, st, hdoes, hst⟩ := h
  have hd := hdoes.fault (hc.of_reach hreach) hst
  induction hreach using ReflTransGen.head_induction_on with
  | refl => exact hd
  | head hcalls _ ih => exact hcalls.fault (ih (hc.of_calls hcalls))

/-- An evaluation faults with some bound exactly if it does an unsafe step. -/
theorem exists_fault_iff (hc : Proper c) :
    (∃ fuel, eval fuel c.expr c.locals c.state = .fault) ↔ Unsafe c := by
  constructor
  · rintro ⟨fuel, h⟩
    have hsafe := eval_safely fuel c hc
    rwa [h] at hsafe
  · intro h
    exact (evaluate_eq_iff (by simp)).mp (h.fault hc)

/-! ## Scripts -/

/-- The loop of a script reads `ast` at `s` and hands it to `eval` in the state `t`. -/
structure Reads (s : Interp) (ast : Node) (t : Interp) : Prop where
  more : cur (skipSpace s.src) ≠ 0
  read : readExpr { s with src := skipSpace s.src } = .ok ast t
  ne_null : ast ≠ .null
  not_err : ¬ IsErr ast

/-- The states to which the loop comes from `start`. -/
inductive Reached (start : Interp) : Interp → Prop where
  | start : Reached start start
  | next (s : Interp) (ast : Node) (t : Interp) (v : Node) (u : Interp) (before : Reached start s)
      (reads : Reads s ast t) (value : Call.Returns ⟨ast, [], t⟩ v u) (not_err : ¬ IsErr v) :
      Reached start u

theorem Reads.proper {ast : Node} (h : Reads s ast t) (hs : Sane s) : Proper ⟨ast, [], t⟩ := by
  obtain ⟨htree, hglobals⟩ := readExpr_tree h.read
  refine ⟨?_, holds_nil, Nat.zero_le _, hs.of_globals hglobals⟩
  rcases htree with hnull | herr | hexpr
  · exact (h.ne_null hnull).elim
  · exact (h.not_err herr).elim
  · exact .inr hexpr

theorem Reached.sane {start : Interp} (h : Reached start s) (hstart : start.globals = []) :
    Sane s := by
  induction h with
  | start =>
      refine ⟨?_, ?_⟩
      · rw [hstart]
        exact holds_nil
      · rw [hstart]
        exact Nat.zero_le _
  | next s ast t v u _ reads value _ ih => exact (value.good (reads.proper ih)).2

/-- The trees that the loop evaluates are read at states to which it comes. -/
theorem scriptLoop_reads {start : Interp} {fuel : ℕ} {last : Option Node} {ast : Node}
    (hs : Reached start s) (hast : ast ∈ (scriptLoop (fun e => eval fuel e []) n last s).1) :
    ∃ s' t, Reached start s' ∧ Reads s' ast t := by
  induction n generalizing s last with
  | zero => simp [scriptLoop] at hast
  | succ n ih =>
      by_cases hcur : cur (skipSpace s.src) = 0
      · simp [scriptLoop, if_pos hcur] at hast
      obtain ⟨e, t, hread, _⟩ | ⟨t, hread, _⟩ := readExpr_returns { s with src := skipSpace s.src }
      · by_cases hnull : e = .null
        · subst hnull
          simp [scriptLoop, if_neg hcur, hread] at hast
        by_cases herr : IsErr e
        · obtain ⟨m, rfl⟩ := herr
          simp [scriptLoop, if_neg hcur, hread] at hast
        have hreads : Reads s e t := ⟨hcur, hread, hnull, herr⟩
        rw [scriptLoop_read hcur hnull (fun m hm => herr ⟨m, hm⟩) hread] at hast
        split at hast
        case h_1 =>
          obtain rfl := List.mem_singleton.mp hast
          exact ⟨s, t, hs, hreads⟩
        case h_2 =>
          obtain rfl := List.mem_singleton.mp hast
          exact ⟨s, t, hs, hreads⟩
        case h_3 v u _ hne hvalue =>
          rcases List.mem_cons.mp hast with rfl | hast
          · exact ⟨s, t, hs, hreads⟩
          · refine ih (.next s e t v u hs hreads ⟨fuel, hvalue⟩ ?_) hast
            rintro ⟨m, rfl⟩
            exact hne m rfl
        case h_4 =>
          obtain rfl := List.mem_singleton.mp hast
          exact ⟨s, t, hs, hreads⟩
      · simp [scriptLoop, if_neg hcur, hread] at hast

end LispDos.Lisp
