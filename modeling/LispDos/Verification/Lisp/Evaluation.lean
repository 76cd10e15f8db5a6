import LispDos.Verification.Lisp.Closure

/-! # Evaluation without a bound

The limit of `eval` satisfies the recursion of the source, and what it gives depends on the
global variables only, as long as the pool has room. -/

namespace LispDos.Lisp

open Foundation

variable {α β : Type} {e first rest : Node} {locals : List EnvVar} {s t : Interp} {n : ℕ}

/-! ## The bound -/

/-- A larger bound does not change what is returned. -/
theorem closed_settles : Closed fun {α : Type} (x : Bool → Run α) =>
    ∀ s, x false s ≠ .timeout → x true s = x false s where
  pure _ _ _ := rfl
  fault _ _ := rfl
  bind := by
    intro α β x f hx hf s h
    simp only [bind_apply, Run.bind] at h ⊢
    cases hfirst : x false s with
    | ok a t =>
        simp only [hfirst] at h
        rw [hx s (by rw [hfirst]; simp), hfirst]
        exact hf a t h
    | exit t => rw [hx s (by rw [hfirst]; simp), hfirst]
    | fault => rw [hx s (by rw [hfirst]; simp), hfirst]
    | timeout =>
        rw [hfirst] at h
        exact (h rfl).elim
  allocNode _ _ _ := rfl
  print _ _ _ := rfl
  envSet _ _ _ _ := rfl
  envGet _ _ _ _ := rfl

theorem eval_settles (e : Node) (locals : List EnvVar) (s : Interp) :
    Settles .timeout fun n => eval n e locals s := by
  intro n
  dsimp only
  induction n generalizing e locals s with
  | zero => exact fun h => (h rfl).elim
  | succ n ih =>
      exact closed_settles.eval_succ (fun i => cond i (n + 1) n) ih e locals s

theorem eval_succ_ok {v : Node} (h : eval n e locals s = .ok v t) :
    eval (n + 1) e locals s = .ok v t :=
  (eval_settles e locals s n (by simp [h])).trans h

/-- What `eval` gives without a bound on the nested calls. -/
noncomputable def evaluate (e : Node) (locals : List EnvVar) : Run Node := fun s =>
  limit .timeout fun n => eval n e locals s

theorem evaluate_eq_iff {o : Outcome Node} (ho : o ≠ .timeout) :
    evaluate e locals s = o ↔ ∃ n, eval n e locals s = o :=
  (eval_settles e locals s).limit_eq_iff ho

theorem evaluate_eq {o : Outcome Node} (ho : o ≠ .timeout) (h : eval n e locals s = o) :
    evaluate e locals s = o :=
  (evaluate_eq_iff ho).mpr ⟨n, h⟩

/-- The calls of a family come to what they are in the limit. -/
theorem closed_limit : Closed fun {α : Type} (x : Option ℕ → Run α) =>
    ∀ s, ∃ N, ∀ n, N ≤ n → x (some n) s = x none s where
  pure _ _ := ⟨0, fun _ _ => rfl⟩
  fault _ := ⟨0, fun _ _ => rfl⟩
  bind := by
    intro α β x f hx hf s
    obtain ⟨N, hN⟩ := hx s
    cases hlimit : x none s with
    | ok a t =>
        obtain ⟨M, hM⟩ := hf a t
        refine ⟨max N M, fun n hn => ?_⟩
        have hfirst : x (some n) s = .ok a t := (hN n (by omega)).trans hlimit
        show (x (some n) >>= f (some n)) s = (x none >>= f none) s
        rw [bind_ok hfirst, bind_ok hlimit]
        exact hM n (by omega)
    | exit t =>
        refine ⟨N, fun n hn => ?_⟩
        simp only [bind_apply, Run.bind, hN n hn, hlimit]
    | fault =>
        refine ⟨N, fun n hn => ?_⟩
        simp only [bind_apply, Run.bind, hN n hn, hlimit]
    | timeout =>
        refine ⟨N, fun n hn => ?_⟩
        simp only [bind_apply, Run.bind, hN n hn, hlimit]
  allocNode _ _ := ⟨0, fun _ _ => rfl⟩
  print _ _ := ⟨0, fun _ _ => rfl⟩
  envSet _ _ _ := ⟨0, fun _ _ => rfl⟩
  envGet _ _ _ := ⟨0, fun _ _ => rfl⟩

/-- The head of a `defun` or `setq` form. -/
def Special (e : Node) : Prop := e = .sym (text "defun") ∨ e = .sym (text "setq")

/-- The recursion of `eval`, for lists. -/
theorem evaluate_list (first rest : Node) (locals : List EnvVar) :
    evaluate (.list first rest) locals = evalList evaluate first rest locals := by
  funext s
  obtain ⟨N, hN⟩ := closed_limit.evalList (fun i => i.elim evaluate eval)
    (fun e locals s => (eval_settles e locals s).exists_eq_limit) first rest locals s
  refine limit_eq_of_eventually (m := N + 1) (eval_settles _ locals s) ?_
  intro n hn
  obtain ⟨n, rfl⟩ := Nat.exists_eq_add_of_le hn
  rw [Nat.add_right_comm]
  exact hN (N + n) (Nat.le_add_right _ _)

/-- A node that is not a list takes no nested call. -/
theorem evaluate_atom (hlist : ∀ first rest, e ≠ .list first rest) :
    evaluate e locals = eval 1 e locals := by
  funext s
  refine limit_eq_of_eventually (m := 1) (eval_settles _ locals s) ?_
  intro n hn
  obtain ⟨n, rfl⟩ := Nat.exists_eq_add_of_le' hn
  cases e with
  | list first rest => exact (hlist first rest rfl).elim
  | null => rfl
  | err => rfl
  | num => rfl
  | sym => rfl
  | nil => rfl
  | func => rfl

/-! ## The state -/

/-- Two outcomes from states with the same global variables: the same value, the same text
printed and the same global variables after it, or the pool is full on one side. -/
inductive Agree (s t : Interp) : Outcome α → Outcome α → Prop where
  | ok (a : α) (s' t' : Interp) (out : List UInt8) (globals : s'.globals = t'.globals)
      (left : s'.output = s.output ++ out) (right : t'.output = t.output ++ out) :
      Agree s t (.ok a s') (.ok a t')
  | exitLeft (s' : Interp) (o : Outcome α) : Agree s t (.exit s') o
  | exitRight (t' : Interp) (o : Outcome α) : Agree s t o (.exit t')
  | fault : Agree s t .fault .fault
  | timeout : Agree s t .timeout .timeout

/-- Only the global variables matter. -/
def Uniform (x : Run α) : Prop := ∀ s t, s.globals = t.globals → Agree s t (x s) (x t)

theorem Agree.trans_ok {s₁ t₁ : Interp} {o o' : Outcome α} {out : List UInt8}
    (hs : s₁.output = s.output ++ out) (ht : t₁.output = t.output ++ out)
    (h : Agree s₁ t₁ o o') : Agree s t o o' := by
  cases h with
  | ok a s' t' out' globals left right =>
      refine .ok a s' t' (out ++ out') globals ?_ ?_
      · rw [left, hs, List.append_assoc]
      · rw [right, ht, List.append_assoc]
  | exitLeft s' => exact .exitLeft s' _
  | exitRight t' => exact .exitRight t' _
  | fault => exact .fault
  | timeout => exact .timeout

theorem Uniform.bind {x : Run α} {f : α → Run β} (hx : Uniform x) (hf : ∀ a, Uniform (f a)) :
    Uniform (x >>= f) := by
  intro s t hglobals
  have hfirst := hx s t hglobals
  simp only [bind_apply, Run.bind]
  generalize x s = o, x t = o' at hfirst
  cases hfirst with
  | ok a s' t' out globals left right => exact (hf a s' t' globals).trans_ok left right
  | exitLeft s' => exact .exitLeft s' _
  | exitRight t' => exact .exitRight t' _
  | fault => exact .fault
  | timeout => exact .timeout

theorem uniform_allocNode (e : Node) : Uniform (allocNode e) := by
  intro s t hglobals
  unfold allocNode
  split
  · exact .exitLeft _ _
  · split
    · exact .exitRight _ _
    · exact .ok e _ _ [] hglobals (List.append_nil _).symm (List.append_nil _).symm

theorem uniform_envSet (sym : List UInt8) (val : Node) : Uniform (envSet sym val) := by
  intro s t hglobals
  have hok : ∀ {globals globals' : List EnvVar}, globals = globals' →
      Agree s t (.ok () { s with globals := globals }) (.ok () { t with globals := globals' }) := by
    rintro globals _ rfl
    exact .ok () _ _ [] rfl (List.append_nil _).symm (List.append_nil _).symm
  simp only [envSet, hglobals]
  split
  · exact hok rfl
  · split
    · exact hok rfl
    · exact .ok () _ _ [] hglobals (List.append_nil _).symm (List.append_nil _).symm

theorem uniform_envGet (sym : List UInt8) (locals : List EnvVar) : Uniform (envGet sym locals) := by
  intro s t hglobals
  have hok : ∀ e : Node, Agree s t (.ok e s) (.ok e t) := fun e =>
    .ok e _ _ [] hglobals (List.append_nil _).symm (List.append_nil _).symm
  simp only [envGet, hglobals]
  split
  · exact hok _
  · split
    · exact hok _
    · split
      · exact uniform_allocNode _ s t hglobals
      · exact uniform_allocNode _ s t hglobals

theorem closed_uniform : Closed fun {α : Type} (x : Unit → Run α) => Uniform (x ()) where
  pure a _ _ hglobals :=
    .ok a _ _ [] hglobals (List.append_nil _).symm (List.append_nil _).symm
  fault _ _ _ := .fault
  bind := Uniform.bind
  allocNode := uniform_allocNode
  print cs _ _ hglobals := .ok () _ _ cs hglobals rfl rfl
  envSet := uniform_envSet
  envGet := uniform_envGet

theorem uniform_eval (n : ℕ) (e : Node) (locals : List EnvVar) : Uniform (eval n e locals) :=
  closed_uniform.eval (fun _ _ _ => .timeout) n e locals

theorem uniform_evaluate (e : Node) (locals : List EnvVar) : Uniform (evaluate e locals) := by
  intro s t hglobals
  obtain ⟨N, hN⟩ := (eval_settles e locals s).exists_eq_limit
  obtain ⟨M, hM⟩ := (eval_settles e locals t).exists_eq_limit
  have hagree := uniform_eval (max N M) e locals s t hglobals
  rwa [hN _ (le_max_left _ _), hM _ (le_max_right _ _)] at hagree

end LispDos.Lisp
