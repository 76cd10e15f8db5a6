import LispDos.Foundation.Table
import LispDos.Verification.Lisp.Calls

/-! # The assignments of an evaluation

The calls of `env_set` that an evaluation makes, in their order and at any depth, and what
they do to the table of global variables. -/

namespace LispDos.Lisp

open Foundation

variable {c : Call} {e f first rest tail v w : Node} {locals : List EnvVar} {s t t₀ t₁ : Interp}
  {vs ws : List Node} {h : List EnvVar} {n ac : ℕ}

/-! ## The table -/

/-- The table after `env_set`. -/
def store (table : List EnvVar) (b : EnvVar) : List EnvVar := tablePut EnvVar.sym 128 table b

theorem setFirst_eq (sym : List UInt8) (val : Node) (table : List EnvVar) :
    envSet.setFirst sym val table = tableReplace EnvVar.sym ⟨sym, val⟩ table := by
  induction table with
  | nil => rfl
  | cons b bs ih =>
      rw [envSet.setFirst, tableReplace, ih]
      split
      · rename_i hb
        rw [hb]
      · rfl

theorem envSet_eq (sym : List UInt8) (val : Node) (s : Interp) :
    envSet sym val s = .ok () { s with globals := store s.globals ⟨sym, val⟩ } := by
  have hany : s.globals.any (fun v => v.sym = sym) = true ↔ sym ∈ s.globals.map EnvVar.sym := by
    simp
  rw [envSet, store, tablePut, setFirst_eq]
  by_cases hmem : sym ∈ s.globals.map EnvVar.sym
  · rw [if_pos (hany.mpr hmem), if_pos hmem]
  · rw [if_neg fun h => hmem (hany.mp h), if_neg hmem]
    split <;> rfl

/-! ## The order of the assignments -/

/-- `p->sym`, if `p` is not null. -/
def Node.sym? : Node → Option (List UInt8)
  | .null => none
  | .sym s => some s
  | .err s => some s
  | _ => some []

theorem getSym_eq (e : Node) : e.getSym = e.sym?.elim fault pure := by
  cases e <;> rfl

/-- An evaluation, or that of the arguments `rest` of a call. -/
inductive Task where
  | call (c : Call)
  | args (locals : List EnvVar) (rest : Node) (s : Interp)

/-- The assignments of a task, the earliest one first. -/
inductive Assigns : Task → List EnvVar → Prop where
  | atom (c : Call) (hlist : ¬ IsList c.expr) : Assigns (.call c) []
  | defun (c : Call) (rest name r params r' body : Node) (x : List UInt8)
      (expr : c.expr = .list (.sym (text "defun")) rest) (hname : rest.first? = some name)
      (hsym : name.sym? = some x) (hrest : rest.rest? = some r) (hparams : r.first? = some params)
      (hrest' : r.rest? = some r') (hbody : r'.first? = some body) :
      Assigns (.call c) [⟨x, .func params body⟩]
  | setq (c : Call) (rest name r e v : Node) (t : Interp) (x : List UInt8) (h : List EnvVar)
      (expr : c.expr = .list (.sym (text "setq")) rest) (hname : rest.first? = some name)
      (hsym : name.sym? = some x) (hrest : rest.rest? = some r) (hfirst : r.first? = some e)
      (value : Call.Returns ⟨e, c.locals, c.state⟩ v t)
      (inner : Assigns (.call ⟨e, c.locals, c.state⟩) h) : Assigns (.call c) (h ++ [⟨x, v⟩])
  | err (c : Call) (first rest v : Node) (t : Interp) (h : List EnvVar)
      (expr : c.expr = .list first rest) (ne_null : first ≠ .null) (not_special : ¬ Special first)
      (value : Call.Returns ⟨first, c.locals, c.state⟩ v t) (isErr : IsErr v)
      (inner : Assigns (.call ⟨first, c.locals, c.state⟩) h) : Assigns (.call c) h
  | builtin (c : Call) (first rest f : Node) (t₀ : Interp) (h hs : List EnvVar)
      (head : Head c first rest f t₀) (inner : Assigns (.call ⟨first, c.locals, c.state⟩) h)
      (args : Assigns (.args c.locals rest t₀) hs) (other : ∀ params body, f ≠ .func params body) :
      Assigns (.call c) (h ++ hs)
  | func (c : Call) (first rest params body tail : Node) (vs : List Node) (env : List EnvVar)
      (t₀ t₁ t₂ : Interp) (h hs h' : List EnvVar) (head : Head c first rest (.func params body) t₀)
      (inner : Assigns (.call ⟨first, c.locals, c.state⟩) h)
      (args : Assigns (.args c.locals rest t₀) hs) (values : Args c.locals rest t₀ vs tail t₁)
      (last : ¬ IsList tail) (bound : bindParams params vs t₁ = .ok env t₂)
      (body : Assigns (.call ⟨body, env, t₂⟩) h') :
      Assigns (.call c) (h ++ hs ++ h')
  | last (locals : List EnvVar) (rest : Node) (s : Interp) (hlist : ¬ IsList rest) :
      Assigns (.args locals rest s) []
  | next (locals : List EnvVar) (first tail v : Node) (s t : Interp) (h hs : List EnvVar)
      (value : Call.Returns ⟨first, locals, s⟩ v t) (inner : Assigns (.call ⟨first, locals, s⟩) h)
      (others : Assigns (.args locals tail t) hs) :
      Assigns (.args locals (.list first tail) s) (h ++ hs)

/-- Where a task begins. -/
def Task.start : Task → Interp
  | .call c => c.state
  | .args _ _ s => s

/-- Where it ends, if it returns. -/
def Task.Ends : Task → Interp → Prop
  | .call c, t => ∃ v, c.Returns v t
  | .args locals rest s, t =>
      ∃ n ac vs, evalArgs (fun e => eval n e locals) rest ac s = .ok vs t

/-! ## Calls that assign nothing -/

/-- The call does not change the global variables. -/
def KeepsGlobals {α : Type} (x : Run α) : Prop := ∀ s a s', x s = .ok a s' → s'.globals = s.globals

section Keeps

variable {α β : Type}

theorem keepsGlobals_pure (a : α) : KeepsGlobals (pure a) := by
  intro s a s' h
  cases h
  rfl

theorem keepsGlobals_fault : KeepsGlobals (fault : Run α) := by
  intro s a s' h
  cases h

theorem KeepsGlobals.bind {x : Run α} {f : α → Run β} (hx : KeepsGlobals x)
    (hf : ∀ a, KeepsGlobals (f a)) : KeepsGlobals (x >>= f) := by
  intro s b s' h
  obtain ⟨a, t, hfirst, hrest⟩ := bind_eq_ok h
  exact (hf a t b s' hrest).trans (hx s a t hfirst)

theorem keepsGlobals_allocNode (e : Node) : KeepsGlobals (allocNode e) :=
  fun _ _ _ h => allocNode_globals h

theorem keepsGlobals_print (cs : List UInt8) : KeepsGlobals (print cs) := by
  intro s a s' h
  cases h
  rfl

theorem keepsGlobals_getNum (e : Node) : KeepsGlobals e.getNum := by
  cases e <;> first | exact keepsGlobals_fault | exact keepsGlobals_pure _

theorem keepsGlobals_getSym (e : Node) : KeepsGlobals e.getSym := by
  cases e <;> first | exact keepsGlobals_fault | exact keepsGlobals_pure _

theorem keepsGlobals_foldArgs (op : BitVec 32 → BitVec 32 → BitVec 32) (args : List Node)
    (res : BitVec 32) : KeepsGlobals (foldArgs op args res) := by
  rw [foldArgs]
  induction args generalizing res with
  | nil => exact keepsGlobals_pure res
  | cons arg args ih =>
      exact ((keepsGlobals_getNum arg).bind fun n => keepsGlobals_pure (op res n)).bind ih

theorem keepsGlobals_printArgs (args : List Node) : KeepsGlobals (printArgs args) := by
  induction args with
  | nil => exact keepsGlobals_pure ()
  | cons arg args ih =>
      refine KeepsGlobals.bind ?_ fun _ => (keepsGlobals_print _).bind fun _ => ih
      cases arg <;> first
        | exact keepsGlobals_fault
        | exact keepsGlobals_print _
        | exact keepsGlobals_pure _

theorem keepsGlobals_callSub (args : List Node) : KeepsGlobals (callSub args) := by
  match args with
  | [] => exact keepsGlobals_fault
  | [arg] => exact (keepsGlobals_getNum arg).bind fun n => keepsGlobals_allocNode _
  | arg :: b :: args =>
      exact (keepsGlobals_getNum arg).bind fun n =>
        (keepsGlobals_foldArgs _ _ _).bind fun r => keepsGlobals_allocNode _

theorem keepsGlobals_callDiv (args : List Node) : KeepsGlobals (callDiv args) := by
  match args with
  | [] => exact keepsGlobals_allocNode _
  | [_] => exact keepsGlobals_allocNode _
  | a :: b :: _ =>
      rw [callDiv]
      refine (keepsGlobals_getNum b).bind fun n => ?_
      split
      · refine (keepsGlobals_getNum a).bind fun m => ?_
        split
        · exact keepsGlobals_fault
        · exact keepsGlobals_allocNode _
      · exact keepsGlobals_allocNode _

theorem keepsGlobals_callBuiltin (name : List UInt8) (args : List Node) :
    KeepsGlobals (callBuiltin name args) := by
  rw [callBuiltin]
  split
  · exact (keepsGlobals_foldArgs _ args _).bind fun r => keepsGlobals_allocNode _
  · split
    · exact keepsGlobals_callSub args
    · split
      · exact (keepsGlobals_foldArgs _ args _).bind fun r => keepsGlobals_allocNode _
      · split
        · exact keepsGlobals_callDiv args
        · split
          · exact (keepsGlobals_printArgs args).bind fun _ => (keepsGlobals_print _).bind fun _ =>
              keepsGlobals_allocNode _
          · exact keepsGlobals_allocNode _

theorem keepsGlobals_bindParams (params : Node) (args : List Node) :
    KeepsGlobals (bindParams params args) := by
  induction params generalizing args with
  | list param params _ ih =>
      cases args with
      | nil => exact keepsGlobals_pure []
      | cons arg args =>
          exact (keepsGlobals_getSym param).bind fun sym => (ih args).bind fun env =>
            keepsGlobals_pure _
  | _ => exact keepsGlobals_pure []

theorem keepsGlobals_envGet (sym : List UInt8) (locals : List EnvVar) :
    KeepsGlobals (envGet sym locals) := by
  intro s a s' h
  rw [envGet] at h
  split at h
  · cases h
    rfl
  · split at h
    · cases h
      rfl
    · split at h
      · exact allocNode_globals h
      · exact allocNode_globals h

/-- An evaluation of anything but a list assigns nothing. -/
theorem keepsGlobals_eval (hlist : ¬ IsList e) (n : ℕ) (locals : List EnvVar) :
    KeepsGlobals (eval n e locals) := by
  cases n with
  | zero =>
      intro s a s' h
      cases h
  | succ n =>
      cases e with
      | null => exact keepsGlobals_allocNode _
      | err m => exact keepsGlobals_allocNode _
      | num v => exact keepsGlobals_pure _
      | sym x => exact keepsGlobals_envGet x locals
      | list first rest => exact (hlist ⟨first, rest, rfl⟩).elim
      | nil => exact keepsGlobals_pure _
      | func params body => exact keepsGlobals_allocNode _

/-- An application of anything but a function of the script assigns nothing. -/
theorem keepsGlobals_finish (hother : ∀ params body, f ≠ .func params body)
    (ev : Node → List EnvVar → Run Node) (args : List Node) : KeepsGlobals (finish ev f args) := by
  cases f with
  | sym name => exact keepsGlobals_callBuiltin name args
  | func params body => exact (hother params body rfl).elim
  | _ => exact keepsGlobals_allocNode _

end Keeps

/-! ## The special forms -/

section Forms

variable {name r r' params body : Node} {x : List UInt8}

theorem getFirst_of_some (h : e.first? = some f) (s : Interp) : e.getFirst s = .ok f s := by
  rw [getFirst_eq, h]
  rfl

theorem getRest_of_some (h : e.rest? = some f) (s : Interp) : e.getRest s = .ok f s := by
  rw [getRest_eq, h]
  rfl

theorem getSym_of_some (h : e.sym? = some x) (s : Interp) : e.getSym s = .ok x s := by
  rw [getSym_eq, h]
  rfl

theorem getSym_ok (h : e.getSym s = .ok x t) : e.sym? = some x := by
  cases e <;> cases h <;> rfl

theorem evalDefun_globals (hname : rest.first? = some name) (hsym : name.sym? = some x)
    (hrest : rest.rest? = some r) (hparams : r.first? = some params) (hrest' : r.rest? = some r')
    (hbody : r'.first? = some body) (h : evalDefun rest s = .ok v t) :
    t.globals = store s.globals ⟨x, .func params body⟩ := by
  rw [evalDefun, bind_ok (getFirst_of_some hname s), bind_ok (getRest_of_some hrest s),
    bind_ok (getFirst_of_some hparams s), bind_ok (getRest_of_some hrest' s),
    bind_ok (getFirst_of_some hbody s)] at h
  obtain ⟨f, s₁, hfunc, h⟩ := bind_eq_ok h
  have hglobals : s₁.globals = s.globals := allocNode_globals hfunc
  obtain rfl : f = .func params body := by
    rw [newLvalFunc, allocNode] at hfunc
    split at hfunc
    · cases hfunc
    · cases hfunc
      rfl
  rw [bind_ok (getSym_of_some hsym s₁), bind_ok (envSet_eq x _ s₁)] at h
  rw [allocNode_globals h, hglobals]

theorem evalSetq_globals {ev : Node → Run Node} (hname : rest.first? = some name)
    (hsym : name.sym? = some x) (hrest : rest.rest? = some r) (hfirst : r.first? = some e)
    (hvalue : ev e s = .ok w t₀) (h : evalSetq ev rest s = .ok v t) :
    t.globals = store t₀.globals ⟨x, w⟩ := by
  rw [evalSetq, bind_ok (getFirst_of_some hname s), bind_ok (getRest_of_some hrest s),
    bind_ok (getFirst_of_some hfirst s), bind_ok hvalue, bind_ok (getSym_of_some hsym t₀),
    bind_ok (envSet_eq x w t₀)] at h
  cases h
  rfl

/-- The parts of a `defun` form that returns. -/
theorem evalDefun_parts (h : evalDefun rest s = .ok v t) : ∃ name r params r' body x,
    rest.first? = some name ∧ name.sym? = some x ∧ rest.rest? = some r ∧ r.first? = some params ∧
      r.rest? = some r' ∧ r'.first? = some body := by
  obtain ⟨name, _, hname, h⟩ := bind_eq_ok h
  obtain ⟨r, _, hr, h⟩ := bind_eq_ok h
  obtain ⟨params, _, hparams, h⟩ := bind_eq_ok h
  obtain ⟨r', _, hr', h⟩ := bind_eq_ok h
  obtain ⟨body, _, hbody, h⟩ := bind_eq_ok h
  obtain ⟨f, _, _, h⟩ := bind_eq_ok h
  obtain ⟨x, _, hsym, _⟩ := bind_eq_ok h
  exact ⟨name, r, params, r', body, x, (getFirst_ok hname).1, getSym_ok hsym, (getRest_ok hr).1,
    (getFirst_ok hparams).1, (getRest_ok hr').1, (getFirst_ok hbody).1⟩

/-- The parts of a `setq` form that returns. -/
theorem evalSetq_parts {ev : Node → Run Node} (h : evalSetq ev rest s = .ok v t) :
    ∃ name r e x t₀, rest.first? = some name ∧ name.sym? = some x ∧ rest.rest? = some r ∧
      r.first? = some e ∧ ev e s = .ok v t₀ := by
  obtain ⟨r, e, t₀, hrest, hfirst, hvalue⟩ := evalSetq_ok h
  obtain ⟨name, s₁, hname, hrun⟩ := bind_eq_ok h
  obtain ⟨hsome, rfl⟩ := getFirst_ok hname
  rw [bind_ok (getRest_of_some hrest _), bind_ok (getFirst_of_some hfirst _),
    bind_ok hvalue] at hrun
  obtain ⟨x, _, hsym, _⟩ := bind_eq_ok hrun
  exact ⟨name, r, e, x, t₀, hsome, getSym_ok hsym, hrest, hfirst, hvalue⟩

end Forms

/-! ## What an evaluation does to the table -/

theorem eval_defun (n : ℕ) (rest : Node) (locals : List EnvVar) :
    eval (n + 1) (.list (.sym (text "defun")) rest) locals = evalDefun rest := rfl

theorem eval_setq (n : ℕ) (rest : Node) (locals : List EnvVar) :
    eval (n + 1) (.list (.sym (text "setq")) rest) locals =
      evalSetq (fun e => eval n e locals) rest := rfl

theorem eval_succ_of_ok (h : eval n e locals s = .ok v t) : ∃ m, n = m + 1 := by
  cases n with
  | zero => cases h
  | succ m => exact ⟨m, rfl⟩

/-- The value and the state of an evaluation do not depend on its bound. -/
theorem Call.Returns.eval_eq {c : Call} (hc : c.Returns v t)
    (h : eval n c.expr c.locals c.state = .ok w s) : w = v ∧ s = t :=
  Call.Returns.unique ⟨n, h⟩ hc

/-- The table after a task is the one before it with the assignments in their order. -/
theorem Assigns.globals {k : Task} (ha : Assigns k h) :
    ∀ t, k.Ends t → t.globals = h.foldl store k.start.globals := by
  induction ha with
  | atom c hlist =>
      intro t hends
      obtain ⟨v, n, heval⟩ := hends
      exact keepsGlobals_eval hlist n c.locals c.state v t heval
  | defun c rest name r params r' body x expr hname hsym hrest hparams hrest' hbody =>
      intro t hends
      obtain ⟨v, n, heval⟩ := hends
      obtain ⟨m, rfl⟩ := eval_succ_of_ok heval
      rw [expr, eval_defun] at heval
      exact evalDefun_globals hname hsym hrest hparams hrest' hbody heval
  | setq c rest name r e w t₀ x h expr hname hsym hrest hfirst value _ ih =>
      intro t hends
      obtain ⟨v, n, heval⟩ := hends
      obtain ⟨m, rfl⟩ := eval_succ_of_ok heval
      rw [expr, eval_setq] at heval
      obtain ⟨_, _, e', _, t₁, _, _, hrest', hfirst', hvalue⟩ := evalSetq_parts heval
      obtain rfl : r = _ := Option.some_inj.mp (hrest.symm.trans hrest')
      obtain rfl : e = e' := Option.some_inj.mp (hfirst.symm.trans hfirst')
      obtain ⟨rfl, rfl⟩ := value.eval_eq hvalue
      rw [evalSetq_globals hname hsym hrest hfirst hvalue heval, List.foldl_append,
        ih t₁ ⟨v, value⟩]
      rfl
  | err c first rest w t₀ h expr ne_null not_special value isErr _ ih =>
      intro t hends
      obtain ⟨v, n, heval⟩ := hends
      obtain ⟨m, rfl⟩ := eval_succ_of_ok heval
      cases listReturns expr heval with
      | defun name _ => exact (not_special (.inl name)).elim
      | setq _ _ _ name _ _ _ => exact (not_special (.inr name)).elim
      | err value' _ _ _ => exact ih t ⟨v, m, value'⟩
      | applied f vs t₀' t₁ head value' _ _ =>
          obtain ⟨rfl, _⟩ := value.eval_eq value'
          exact (head.not_err isErr).elim
  | builtin c first rest f t₀ h hs head _ _ other ih₁ ih₂ =>
      intro t hends
      obtain ⟨v, n, heval⟩ := hends
      obtain ⟨m, rfl⟩ := eval_succ_of_ok heval
      obtain ⟨vs, t₁, hargs, hfinish⟩ := head.returns heval
      have hhead := ih₁ t₀ ⟨f, head.value⟩
      have hrest := ih₂ t₁ ⟨m, 0, vs, hargs⟩
      rw [keepsGlobals_finish other (eval m) vs t₁ v t hfinish, hrest, List.foldl_append]
      exact congrArg (hs.foldl store) hhead
  | func c first rest params body tail vs env t₀ t₁ t₂ h hs h' head _ _ values last bound _
      ih₁ ih₂ ih₃ =>
      intro t hends
      obtain ⟨v, n, heval⟩ := hends
      obtain ⟨m, rfl⟩ := eval_succ_of_ok heval
      obtain ⟨hargs, hfinish⟩ := head.result values last heval
      obtain ⟨env', t₂', hbound, hbody⟩ := bind_eq_ok hfinish
      rw [bound] at hbound
      cases hbound
      have hhead : t₀.globals = h.foldl store c.state.globals := ih₁ t₀ ⟨_, head.value⟩
      have hrest : t₁.globals = hs.foldl store t₀.globals := ih₂ t₁ ⟨m, 0, vs, hargs⟩
      have hkeep : t₂.globals = t₁.globals := keepsGlobals_bindParams params vs t₁ env t₂ bound
      have hlast : t.globals = h'.foldl store t₂.globals := ih₃ t ⟨v, m, hbody⟩
      rw [hlast, hkeep, hrest, hhead, List.foldl_append, List.foldl_append]
      rfl
  | last locals rest s hlist =>
      intro t hends
      obtain ⟨n, ac, vs, hargs⟩ := hends
      rw [evalArgs_last hlist] at hargs
      cases hargs
      rfl
  | next locals first tail v s t₀ h hs value _ _ ih₁ ih₂ =>
      intro t hends
      obtain ⟨n, ac, vs, hargs⟩ := hends
      simp only [evalArgs] at hargs
      obtain ⟨w, t₁, hfirst, hargs⟩ := bind_eq_ok hargs
      obtain ⟨rfl, rfl⟩ := value.eval_eq hfirst
      have hhead := ih₁ t₁ ⟨w, n, hfirst⟩
      split at hargs
      · obtain ⟨ws, t₂, hrest, hpure⟩ := bind_eq_ok hargs
        cases hpure
        rw [ih₂ t ⟨n, ac + 1, ws, hrest⟩, List.foldl_append]
        exact congrArg (hs.foldl store) hhead
      · cases hargs

/-! ## Every evaluation that returns has assignments -/

theorem assigns_args (heval : ∀ e s v t, eval n e locals s = .ok v t →
      ∃ h, Assigns (.call ⟨e, locals, s⟩) h)
    (hargs : evalArgs (fun e => eval n e locals) rest ac s = .ok vs t) :
    ∃ hs, Assigns (.args locals rest s) hs := by
  induction rest generalizing ac s vs with
  | list first tail _ ih =>
      simp only [evalArgs] at hargs
      obtain ⟨v, t₁, hfirst, hrest⟩ := bind_eq_ok hargs
      obtain ⟨h, hh⟩ := heval first s v t₁ hfirst
      split at hrest
      · obtain ⟨ws, t₂, htail, hpure⟩ := bind_eq_ok hrest
        cases hpure
        obtain ⟨hs, hhs⟩ := ih htail
        exact ⟨h ++ hs, .next locals first tail v s t₁ h hs ⟨n, hfirst⟩ hh hhs⟩
      · cases hrest
  | _ =>
      refine ⟨[], .last locals _ s ?_⟩
      rintro ⟨_, _, h⟩
      cases h

theorem assigns_of_eval (n : ℕ) (e : Node) (locals : List EnvVar) (s : Interp) (v : Node)
    (t : Interp) (heval : eval n e locals s = .ok v t) :
    ∃ h, Assigns (.call ⟨e, locals, s⟩) h := by
  induction n generalizing e locals s v t with
  | zero => cases heval
  | succ n ih =>
      by_cases hlist : IsList e
      · rcases hlist with ⟨first, rest, rfl⟩
        by_cases hspecial : Special first
        · rcases hspecial with rfl | rfl
          · rw [eval_defun] at heval
            obtain ⟨name, r, params, r', body, x, hname, hsym, hrest, hparams, hrest', hbody⟩ :=
              evalDefun_parts heval
            exact ⟨_, .defun ⟨_, locals, s⟩ rest name r params r' body x rfl hname hsym hrest
              hparams hrest' hbody⟩
          · rw [eval_setq] at heval
            obtain ⟨name, r, e, x, t₀, hname, hsym, hrest, hfirst, hvalue⟩ := evalSetq_parts heval
            obtain ⟨h, hh⟩ := ih e locals s v t₀ hvalue
            exact ⟨_, .setq ⟨_, locals, s⟩ rest name r e v t₀ x h rfl hname hsym hrest hfirst
              ⟨n, hvalue⟩ hh⟩
        · cases listReturns (c := ⟨.list first rest, locals, s⟩) rfl heval with
          | defun name _ => exact (hspecial (.inl name)).elim
          | setq _ _ _ name _ _ _ => exact (hspecial (.inr name)).elim
          | err value ne_null _ isErr =>
              obtain ⟨h, hh⟩ := ih first locals s v t value
              exact ⟨h, .err ⟨_, locals, s⟩ first rest v t h rfl ne_null hspecial ⟨n, value⟩ isErr hh⟩
          | applied f vs t₀ t₁ head value args result =>
              obtain ⟨h, hh⟩ := ih first locals s f t₀ value
              obtain ⟨hs, hhs⟩ := assigns_args (fun e => ih e locals) args
              by_cases hfunc : ∃ params body, f = .func params body
              · rcases hfunc with ⟨params, body, rfl⟩
                obtain ⟨last, hvalues, hlast⟩ := Args.start.of_evalArgs args
                obtain ⟨env, t₂, hbound, hbody⟩ := bind_eq_ok result
                obtain ⟨h', hh'⟩ := ih body env t₂ v t hbody
                exact ⟨_, .func ⟨_, locals, s⟩ first rest params body last vs env t₀ t₁ t₂ h hs h'
                  head hh hhs hvalues hlast hbound hh'⟩
              · refine ⟨_, .builtin ⟨_, locals, s⟩ first rest f t₀ h hs head hh hhs ?_⟩
                intro params body hf
                exact hfunc ⟨params, body, hf⟩
      · exact ⟨[], .atom ⟨e, locals, s⟩ hlist⟩

end LispDos.Lisp
