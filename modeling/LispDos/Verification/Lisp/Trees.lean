import LispDos.Tools.LispEval
import LispDos.Verification.Lisp.Parentheses

/-! # Trees and values

The trees that the reader builds, the values that the evaluator builds from them, and states
whose variables hold such values. -/

namespace LispDos.Lisp

variable {e first rest v : Node} {s s' : Interp} {sym : List UInt8}

/-- The node is an error. -/
def IsErr (v : Node) : Prop := ∃ m, v = .err m

/-- The node is a cell of a list. -/
def IsList (e : Node) : Prop := ∃ first rest, e = .list first rest

mutual

/-- An expression as the reader builds it. -/
inductive Expr : Node → Prop where
  | num (n : BitVec 32) : Expr (.num n)
  | sym (x : List UInt8) : Expr (.sym x)
  | nil : Expr .nil
  | list {first rest : Node} (hfirst : Expr first) (hrest : Tail rest) : Expr (.list first rest)

/-- The rest of a list; it ends with an error if the text has ended. -/
inductive Tail : Node → Prop where
  | nil : Tail .nil
  | err (m : List UInt8) : Tail (.err m)
  | list {first rest : Node} (hfirst : Expr first) (hrest : Tail rest) : Tail (.list first rest)

end

/-- An expression, or the null pointer in place of a missing one. -/
def Code (e : Node) : Prop := e = .null ∨ Expr e

/-- What `eval` returns. -/
inductive Value : Node → Prop where
  | num (n : BitVec 32) : Value (.num n)
  | sym (x : List UInt8) : Value (.sym x)
  | nil : Value .nil
  | err (m : List UInt8) : Value (.err m)
  | func {params body : Node} (hparams : Expr params) (hbody : Code body) :
      Value (.func params body)

/-- All variables hold values. -/
def Holds (env : List EnvVar) : Prop := ∀ v ∈ env, Value v.val

/-- The global variables hold values, and the table has room for them. -/
structure Sane (s : Interp) : Prop where
  holds : Holds s.globals
  length_le : s.globals.length ≤ 128

theorem Expr.ne_null (h : Expr e) : e ≠ .null := by
  cases h <;> simp

theorem Value.ne_null (h : Value v) : v ≠ .null := by
  cases h <;> simp

/-! ## The reader -/

theorem allocNode_globals {a : Node} (h : allocNode a s = .ok v s') : s'.globals = s.globals := by
  rw [allocNode] at h
  split at h
  · cases h
  · cases h
    rfl

/-- What has been read as a list is an error or an expression. -/
theorem Tail.expr (h : Tail v) : IsErr v ∨ Expr v := by
  cases h with
  | nil => exact .inr .nil
  | err m => exact .inl ⟨m, rfl⟩
  | list hfirst hrest => exact .inr (.list hfirst hrest)

theorem readAtom_tree (h : readAtom s = .ok v s') :
    (v = .null ∨ Expr v) ∧ s'.globals = s.globals := by
  simp only [readAtom] at h
  split at h
  · cases h
    exact ⟨.inl rfl, rfl⟩
  · split at h
    · have hglobals := allocNode_globals h
      obtain ⟨rfl, _⟩ := allocNode_eq_ok h
      exact ⟨.inr (.num _), hglobals⟩
    · have hglobals := allocNode_globals h
      obtain ⟨rfl, _⟩ := allocNode_eq_ok h
      exact ⟨.inr (.sym _), hglobals⟩

/-- The trees of the reader, whatever the bound on nested calls; the variables stay as they
are. -/
theorem readN_tree (n : ℕ) :
    (∀ s v s', readExprN n s = .ok v s' →
      (v = .null ∨ IsErr v ∨ Expr v) ∧ s'.globals = s.globals) ∧
    (∀ s v s', readListN n s = .ok v s' → Tail v ∧ s'.globals = s.globals) := by
  induction n with
  | zero =>
      constructor
      · intro s v s' h
        cases h
      · intro s v s' h
        cases h
  | succ n ih =>
      obtain ⟨ihExpr, ihList⟩ := ih
      constructor
      · intro s v s' h
        simp only [readExprN] at h
        split at h
        · cases h
          exact ⟨.inl rfl, rfl⟩
        · split at h
          · obtain ⟨htail, hglobals⟩ := ihList _ _ _ h
            exact ⟨.inr htail.expr, hglobals⟩
          · split at h
            · have hglobals := allocNode_globals h
              obtain ⟨rfl, _⟩ := allocNode_eq_ok h
              exact ⟨.inr (.inl ⟨_, rfl⟩), hglobals⟩
            · obtain ⟨htree, hglobals⟩ := readAtom_tree h
              exact ⟨htree.imp_right .inr, hglobals⟩
      · intro s v s' h
        by_cases hcur : cur (skipSpace s.src) = 0x29
        · simp only [readListN, if_pos hcur] at h
          have hglobals := allocNode_globals h
          obtain ⟨rfl, _⟩ := allocNode_eq_ok h
          exact ⟨.nil, hglobals⟩
        · have hbind := h
          simp only [readListN, if_neg hcur] at hbind
          obtain ⟨first, t, hfirst, hmatch⟩ := bind_eq_ok hbind
          obtain ⟨htree, hglobals⟩ := ihExpr _ _ _ hfirst
          rcases htree with rfl | ⟨m, rfl⟩ | hexpr
          · obtain ⟨rfl, _⟩ := allocNode_eq_ok hmatch
            exact ⟨.err _, (allocNode_globals hmatch).trans hglobals⟩
          · cases hmatch
            exact ⟨.err m, hglobals⟩
          · have herr : ∀ m, first ≠ .err m := by
              rintro m rfl
              cases hexpr
            rw [readListN_first rfl hcur hfirst hexpr.ne_null herr] at h
            obtain ⟨rest, u, hrest, hlist⟩ := bind_eq_ok h
            obtain ⟨htail, hglobals'⟩ := ihList _ _ _ hrest
            obtain ⟨rfl, _⟩ := allocNode_eq_ok hlist
            exact ⟨.list hexpr htail,
              (allocNode_globals hlist).trans (hglobals'.trans hglobals)⟩

theorem readExpr_tree (h : readExpr s = .ok v s') :
    (v = .null ∨ IsErr v ∨ Expr v) ∧ s'.globals = s.globals :=
  (readN_tree _).1 s v s' h

/-! ## Variables -/

theorem Holds.cons {env : List EnvVar} (h : Holds env) (hv : Value v) : Holds (⟨sym, v⟩ :: env) := by
  intro x hx
  rcases List.mem_cons.mp hx with rfl | hx
  · exact hv
  · exact h x hx

theorem holds_nil : Holds [] := by
  intro x hx
  cases hx

theorem Holds.setFirst {env : List EnvVar} (h : Holds env) (sym : List UInt8) (hv : Value v) :
    Holds (envSet.setFirst sym v env) ∧ (envSet.setFirst sym v env).length = env.length := by
  induction env with
  | nil => exact ⟨holds_nil, rfl⟩
  | cons x env ih =>
      have hx : Value x.val := h x (by simp)
      obtain ⟨hrest, hlen⟩ := ih fun y hy => h y (List.mem_cons_of_mem _ hy)
      rw [envSet.setFirst]
      split
      · exact ⟨Holds.cons (fun y hy => h y (List.mem_cons_of_mem _ hy)) hv, rfl⟩
      · exact ⟨hrest.cons hx, by rw [List.length_cons, hlen, List.length_cons]⟩

/-- Setting a variable to a value keeps the table sane. -/
theorem Sane.envSet (h : Sane s) (sym : List UInt8) (hv : Value v) :
    ∃ s', envSet sym v s = .ok () s' ∧ Sane s' := by
  unfold Lisp.envSet
  split
  · obtain ⟨hholds, hlen⟩ := h.holds.setFirst sym hv
    exact ⟨_, rfl, hholds, hlen ▸ h.length_le⟩
  · split
    · rename_i hroom
      refine ⟨_, rfl, ?_, ?_⟩
      · intro x hx
        rcases List.mem_append.mp hx with hx | hx
        · exact h.holds x hx
        · obtain rfl := List.mem_singleton.mp hx
          exact hv
      · rw [List.length_append, List.length_singleton]
        exact hroom
    · exact ⟨s, rfl, h⟩

/-- A variable has a value; if there is none, the result is a new node. -/
theorem Sane.envGet (h : Sane s) (sym : List UInt8) {locals : List EnvVar} (hlocals : Holds locals) :
    (∃ s', envGet sym locals s = .exit s') ∨
      ∃ v s', envGet sym locals s = .ok v s' ∧ Value v ∧ s'.globals = s.globals := by
  have halloc : ∀ {a : Node}, Value a → (∃ s', allocNode a s = .exit s') ∨
      ∃ v s', allocNode a s = .ok v s' ∧ Value v ∧ s'.globals = s.globals := by
    intro a ha
    unfold allocNode
    split
    · exact .inl ⟨_, rfl⟩
    · exact .inr ⟨a, _, rfl, ha, rfl⟩
  unfold Lisp.envGet
  split
  · rename_i x hx
    exact .inr ⟨_, _, rfl, hlocals x (List.mem_of_find?_eq_some hx), rfl⟩
  · split
    · rename_i x hx
      exact .inr ⟨_, _, rfl, h.holds x (List.mem_of_find?_eq_some hx), rfl⟩
    · split
      · exact halloc (.sym _)
      · exact halloc (.err _)

end LispDos.Lisp
