import LispDos.Tools.LispEval
import LispDos.Verification.Lisp.Reading
import Mathlib.Algebra.BigOperators.Group.List.Basic
import Mathlib.Tactic.Ring

/-! # Arithmetic expressions

Expressions of integers and the four operators, their value, and what `eval` makes of
their trees. -/

namespace LispDos.Lisp

inductive Op where
  | add | sub | mul | div
  deriving DecidableEq

def Op.name : Op → List UInt8
  | .add => text "+"
  | .sub => text "-"
  | .mul => text "*"
  | .div => text "/"

/-- The result of an operator on integers, before it is taken to 32 bits. -/
def Op.result : Op → List ℤ → ℤ
  | .add, vs => vs.sum
  | .sub, [v] => -v
  | .sub, v :: vs => vs.foldl (· - ·) v
  | .sub, [] => 0
  | .mul, vs => vs.prod
  | .div, [a, b] => a.tdiv b
  | .div, _ => 0

/-- The operands that an operator is meant for. -/
def Op.Takes : Op → List (BitVec 32) → Prop
  | .add, vs => vs.length ≤ 16
  | .sub, vs => 1 ≤ vs.length ∧ vs.length ≤ 16
  | .mul, vs => vs.length ≤ 16
  | .div, [a, b] => b ≠ 0 ∧ ¬ (a.toInt = -2 ^ 31 ∧ b.toInt = -1)
  | .div, _ => False

inductive Arith where
  | lit (n : BitVec 32)
  | call (op : Op) (args : List Arith)

mutual

/-- The value of an expression, bottom up in 32 bits. -/
def Arith.value : Arith → BitVec 32
  | .lit n => n
  | .call op args => BitVec.ofInt 32 (op.result ((values args).map BitVec.toInt))

def values : List Arith → List (BitVec 32)
  | [] => []
  | e :: es => e.value :: values es

end

mutual

/-- Every operator has operands that it is meant for. -/
def Arith.Valid : Arith → Prop
  | .lit _ => True
  | .call op args => op.Takes (values args) ∧ AllValid args

def AllValid : List Arith → Prop
  | [] => True
  | e :: es => e.Valid ∧ AllValid es

end

mutual

def Arith.tree : Arith → Node
  | .lit n => .num n
  | .call op args => .list (.sym op.name) (argsTree args)

def argsTree : List Arith → Node
  | [] => .nil
  | e :: es => .list e.tree (argsTree es)

end

mutual

/-- The number of calls in an expression. -/
def Arith.calls : Arith → ℕ
  | .lit _ => 0
  | .call _ args => callsOf args + 1

def callsOf : List Arith → ℕ
  | [] => 0
  | e :: es => e.calls + callsOf es

end

mutual

/-- How deep the calls are nested. -/
def Arith.depth : Arith → ℕ
  | .lit _ => 0
  | .call _ args => depthOf args + 1

def depthOf : List Arith → ℕ
  | [] => 0
  | e :: es => max e.depth (depthOf es)

end

/-- None of the operators is bound. -/
def OperatorsFree (env : List EnvVar) : Prop := ∀ v ∈ env, ∀ op : Op, v.sym ≠ op.name

/-! ## Calls that take a known part of the pool -/

section Takes

variable {α β : Type} {x : Run α} {f : α → Run β} {a : α} {b : β} {c d : ℕ} {s : Interp}

/-- The call returns `a` and takes `c` bytes of the pool, or leaves the interpreter when
they are not there. -/
def Yields (x : Run α) (a : α) (c : ℕ) (s : Interp) : Prop :=
  (c = 0 ∨ s.pool + c ≤ poolSize → x s = .ok a { s with pool := s.pool + c }) ∧
    (0 < c → poolSize < s.pool + c → ∃ t, x s = .exit t)

theorem yields_pure (a : α) (s : Interp) : Yields (pure a) a 0 s :=
  ⟨fun _ => rfl, fun h => absurd h (by omega)⟩

theorem yields_allocNode (e : Node) (s : Interp) : Yields (allocNode e) e nodeSize s := by
  constructor
  · intro h
    exact allocNode_ok e (by simp only [nodeSize] at *; omega)
  · intro _ h
    rw [allocNode, if_pos h]
    exact ⟨_, rfl⟩

theorem Yields.bind (hx : Yields x a c s) (hf : Yields (f a) b d { s with pool := s.pool + c }) :
    Yields (x >>= f) b (c + d) s := by
  constructor
  · intro h
    rw [bind_ok (hx.1 (by omega)), hf.1 (by simp only; omega)]
    simp only [Nat.add_assoc]
  · intro hpos hfull
    by_cases hc : c = 0 ∨ s.pool + c ≤ poolSize
    · rw [bind_ok (hx.1 hc)]
      exact hf.2 (by omega) (by simp only; omega)
    · obtain ⟨t, ht⟩ := hx.2 (by omega) (by omega)
      exact ⟨t, bind_exit ht⟩

theorem Yields.cast (hx : Yields x a c s) (h : c = d) : Yields x a d s := h ▸ hx

end Takes

/-! ## The builtin functions on numbers -/

variable {s : Interp} {vs : List (BitVec 32)}

theorem foldl_add_eq (vs : List (BitVec 32)) (r : BitVec 32) :
    vs.foldl (· + ·) r = r + BitVec.ofInt 32 (vs.map BitVec.toInt).sum := by
  induction vs generalizing r with
  | nil => simp
  | cons v vs ih =>
      rw [List.foldl_cons, ih, List.map_cons, List.sum_cons, BitVec.ofInt_add, BitVec.ofInt_toInt,
        BitVec.add_assoc]

theorem foldl_mul_eq (vs : List (BitVec 32)) (r : BitVec 32) :
    vs.foldl (· * ·) r = r * BitVec.ofInt 32 (vs.map BitVec.toInt).prod := by
  induction vs generalizing r with
  | nil => simp
  | cons v vs ih =>
      rw [List.foldl_cons, ih, List.map_cons, List.prod_cons, BitVec.ofInt_mul, BitVec.ofInt_toInt,
        BitVec.mul_assoc]

theorem foldl_sub_eq (vs : List (BitVec 32)) (r : ℤ) :
    vs.foldl (· - ·) (BitVec.ofInt 32 r) =
      BitVec.ofInt 32 ((vs.map BitVec.toInt).foldl (· - ·) r) := by
  induction vs generalizing r with
  | nil => rfl
  | cons v vs ih =>
      have hsub : BitVec.ofInt 32 r - v = BitVec.ofInt 32 (r - v.toInt) := by
        rw [Int.sub_eq_add_neg, BitVec.ofInt_add, BitVec.ofInt_neg, BitVec.ofInt_toInt,
          BitVec.sub_eq_add_neg]
      rw [List.foldl_cons, hsub, ih]
      rfl

theorem sdiv_eq_ofInt (a b : BitVec 32) : a.sdiv b = BitVec.ofInt 32 (a.toInt.tdiv b.toInt) := by
  apply BitVec.eq_of_toInt_eq
  rw [BitVec.toInt_sdiv, BitVec.toInt_ofInt]

theorem foldArgs_nums (op : BitVec 32 → BitVec 32 → BitVec 32) (vs : List (BitVec 32))
    (r : BitVec 32) (s : Interp) : foldArgs op (vs.map .num) r s = .ok (vs.foldl op r) s := by
  induction vs generalizing r with
  | nil => rfl
  | cons v vs ih => exact ih (op r v)

/-- A subtraction takes away all operands from the first one. -/
theorem callBuiltin_sub (a b : BitVec 32) (vs : List (BitVec 32)) (s : Interp) :
    callBuiltin (Op.sub).name ((a :: b :: vs).map .num) s =
      newLvalNum ((b :: vs).foldl (· - ·) a) s := by
  rw [callBuiltin, Op.name, if_neg (by decide), if_pos rfl]
  calc callSub ((a :: b :: vs).map .num) s
      = (foldArgs (· - ·) ((b :: vs).map .num) a >>= newLvalNum) s := rfl
    _ = newLvalNum ((b :: vs).foldl (· - ·) a) s := bind_ok (foldArgs_nums _ (b :: vs) a s)

/-- A division looks at the first two operands. -/
theorem callBuiltin_div (a b : BitVec 32) (hb : b ≠ 0)
    (hfits : ¬ (a.toInt = -2 ^ 31 ∧ b.toInt = -1)) (vs : List (BitVec 32)) (s : Interp) :
    callBuiltin (Op.div).name ((a :: b :: vs).map .num) s = newLvalNum (a.sdiv b) s := by
  have hmin : ¬ (a = BitVec.intMin 32 ∧ b = -1) := by
    rintro ⟨rfl, rfl⟩
    exact hfits (by decide)
  rw [callBuiltin, Op.name, if_neg (by decide), if_neg (by decide), if_neg (by decide),
    if_pos rfl]
  simp only [List.map_cons, callDiv, Node.getNum]
  rw [bind_ok (pure_apply b s), if_pos hb, bind_ok (pure_apply a s), if_neg hmin]

/-- A builtin function on numbers that it is meant for returns its result. -/
theorem callBuiltin_nums (op : Op) (h : op.Takes vs) (s : Interp) :
    callBuiltin op.name (vs.map .num) s =
      newLvalNum (BitVec.ofInt 32 (op.result (vs.map BitVec.toInt))) s := by
  cases op with
  | add =>
      have hsum : vs.foldl (· + ·) 0 = BitVec.ofInt 32 (vs.map BitVec.toInt).sum := by
        rw [foldl_add_eq]
        exact BitVec.zero_add _
      rw [callBuiltin, Op.name, if_pos rfl, bind_ok (foldArgs_nums _ vs 0 s), hsum]
      rfl
  | mul =>
      have hprod : vs.foldl (· * ·) 1 = BitVec.ofInt 32 (vs.map BitVec.toInt).prod := by
        rw [foldl_mul_eq]
        exact BitVec.one_mul _
      rw [callBuiltin, Op.name, if_neg (by decide), if_neg (by decide), if_pos rfl,
        bind_ok (foldArgs_nums _ vs 1 s), hprod]
      rfl
  | sub =>
      match vs, h with
      | [v], _ =>
          have hneg : -v = BitVec.ofInt 32 (-v.toInt) := by
            rw [BitVec.ofInt_neg, BitVec.ofInt_toInt]
          rw [callBuiltin, Op.name, if_neg (by decide), if_pos rfl]
          exact congrArg (fun r => newLvalNum r s) hneg
      | v :: w :: vs, _ =>
          have hdiff := foldl_sub_eq (w :: vs) v.toInt
          rw [BitVec.ofInt_toInt] at hdiff
          rw [callBuiltin_sub, hdiff]
          rfl
  | div =>
      match vs, h with
      | [a, b], ⟨hb, hfits⟩ =>
          rw [callBuiltin_div a b hb hfits, sdiv_eq_ofInt]
          rfl

/-! ## Evaluation -/

theorem OperatorsFree.find? {env : List EnvVar} (h : OperatorsFree env) (op : Op) :
    env.find? (fun v => v.sym = op.name) = none := by
  rw [List.find?_eq_none]
  intro v hv
  simpa using h v hv op

theorem envGet_operator {locals : List EnvVar} (hlocals : OperatorsFree locals)
    (hglobals : OperatorsFree s.globals) (op : Op) :
    envGet op.name locals s = newLvalSym op.name s := by
  have hmem : op.name ∈ builtins := by
    cases op <;> decide
  rw [envGet, hlocals.find? op, hglobals.find? op]
  exact if_pos hmem

theorem Op.name_ne_special (op : Op) :
    Node.sym op.name ≠ .sym (text "defun") ∧ Node.sym op.name ≠ .sym (text "setq") := by
  cases op <;> decide

theorem Op.Takes.length_le {op : Op} (h : op.Takes vs) : vs.length ≤ 16 := by
  cases op with
  | add => exact h
  | sub => exact h.2
  | mul => exact h
  | div =>
      match vs, h with
      | [a, b], _ => simp

theorem values_length (es : List Arith) : (values es).length = es.length := by
  induction es with
  | nil => rfl
  | cons e es ih => simp [values, ih]

/-- The call of an operator, once its operands are evaluated. -/
theorem evalList_builtin {ev : Node → List EnvVar → Run Node} {locals : List EnvVar} {op : Op}
    {rest : Node} {c : ℕ} {r : BitVec 32}
    (hbuiltin : ∀ s, callBuiltin op.name (vs.map .num) s = newLvalNum r s)
    (hop : ∀ s, OperatorsFree s.globals → ev (.sym op.name) locals s = newLvalSym op.name s)
    (hargs : ∀ s, OperatorsFree s.globals →
      Yields (evalArgs (fun e => ev e locals) rest 0) (vs.map .num) c s)
    (hglobals : OperatorsFree s.globals) :
    Yields (evalList ev (.sym op.name) rest locals) (.num r) (c + 2 * nodeSize) s := by
  have hcall : Yields (evalCall ev (.sym op.name) rest locals) (.num r) (c + nodeSize)
      { s with pool := s.pool + nodeSize } := by
    refine (hargs { s with pool := s.pool + nodeSize } hglobals).bind ?_
    have hres := yields_allocNode (.num r) { s with pool := s.pool + nodeSize + c }
    rw [Yields, hbuiltin]
    exact hres
  have hsym : Yields (ev (.sym op.name) locals) (.sym op.name) nodeSize s := by
    rw [Yields, hop s hglobals]
    exact yields_allocNode _ _
  rw [evalList, if_neg (by simp), if_neg op.name_ne_special.1, if_neg op.name_ne_special.2]
  exact (hsym.bind hcall).cast (by omega)

/-- A call of an operator, one level below the bound. -/
theorem eval_call_yields {locals : List EnvVar} (hlocals : OperatorsFree locals) (op : Op)
    (args : List Arith) {r : BitVec 32} (n : ℕ)
    (hbuiltin : ∀ s, callBuiltin op.name ((values args).map .num) s = newLvalNum r s)
    (hargs : ∀ s, OperatorsFree s.globals →
      Yields (evalArgs (fun e => eval (n + 1) e locals) (argsTree args) 0) ((values args).map .num)
        (nodeSize * (2 * callsOf args)) s)
    (s : Interp) (hglobals : OperatorsFree s.globals) :
    Yields (eval (n + 2) (Arith.call op args).tree locals) (.num r)
      (nodeSize * (2 * (Arith.call op args).calls)) s := by
  simp only [Arith.tree, Arith.calls]
  refine (evalList_builtin hbuiltin (fun t ht => ?_) hargs hglobals).cast ?_
  · exact envGet_operator hlocals ht op
  · simp only [nodeSize]
    omega

mutual

/-- An expression is evaluated to its value, with two nodes for each call. -/
theorem eval_yields {locals : List EnvVar} (hlocals : OperatorsFree locals) (e : Arith)
    (he : e.Valid) (fuel : ℕ) (hfuel : e.depth < fuel) (s : Interp)
    (hglobals : OperatorsFree s.globals) :
    Yields (eval fuel e.tree locals) (.num e.value) (nodeSize * (2 * e.calls)) s := by
  obtain ⟨n, rfl⟩ : ∃ n, fuel = n + 1 := ⟨fuel - 1, by omega⟩
  match e with
  | .lit v => exact (yields_pure (Node.num v) s).cast (by simp [Arith.calls])
  | .call op args =>
      simp only [Arith.depth, Arith.Valid] at hfuel he
      have hlen := he.1.length_le
      rw [values_length] at hlen
      obtain ⟨m, rfl⟩ : ∃ m, n = m + 1 := ⟨n - 1, by omega⟩
      exact eval_call_yields hlocals op args m (callBuiltin_nums op he.1) (fun t ht =>
        evalArgs_yields hlocals args he.2 (m + 1) (by omega) 0 (by omega) t ht) s hglobals

theorem evalArgs_yields {locals : List EnvVar} (hlocals : OperatorsFree locals)
    (es : List Arith) (hes : AllValid es) (fuel : ℕ) (hfuel : depthOf es < fuel) (ac : ℕ) (hac : ac + es.length ≤ 16) (s : Interp)
    (hglobals : OperatorsFree s.globals) :
    Yields (evalArgs (fun e => eval fuel e locals) (argsTree es) ac) ((values es).map .num)
      (nodeSize * (2 * callsOf es)) s := by
  match es with
  | [] => exact (yields_pure [] s).cast (by simp [callsOf])
  | e :: es =>
      simp only [depthOf, AllValid, List.length_cons] at hfuel hes hac
      have hfirst := eval_yields hlocals e hes.1 fuel (by omega) s hglobals
      have hrest := evalArgs_yields hlocals es hes.2 fuel (by omega) (ac + 1) (by omega)
        { s with pool := s.pool + nodeSize * (2 * e.calls) } hglobals
      have hcons : Yields (do
          let v ← eval fuel e.tree locals
          let vs ← evalArgs (fun e => eval fuel e locals) (argsTree es) (ac + 1)
          return v :: vs) (Node.num e.value :: (values es).map .num)
          (nodeSize * (2 * e.calls) + (nodeSize * (2 * callsOf es) + 0)) s :=
        hfirst.bind (hrest.bind (yields_pure _ _))
      have hac' : ac < 16 := by omega
      simp only [argsTree, evalArgs, hac', if_true, values, callsOf, List.map_cons]
      exact hcons.cast (by simp only [nodeSize]; omega)

end

/-- Arithmetic is right: `eval` returns the value of the expression and leaves the globals
as they are, provided that the pool has room for two nodes for each call. Otherwise the
interpreter says so and exits. -/
theorem eval_arithmetic (e : Arith) (he : e.Valid) (fuel : ℕ) (hfuel : e.depth < fuel)
    (locals : List EnvVar) (hlocals : OperatorsFree locals) (s : Interp)
    (hglobals : OperatorsFree s.globals) :
    (s.pool + nodeSize * (2 * e.calls) ≤ poolSize →
      eval fuel e.tree locals s =
        .ok (.num e.value) { s with pool := s.pool + nodeSize * (2 * e.calls) }) ∧
    (0 < e.calls → poolSize < s.pool + nodeSize * (2 * e.calls) →
      ∃ t, eval fuel e.tree locals s = .exit t) := by
  obtain ⟨hok, hexit⟩ := eval_yields hlocals e he fuel hfuel s hglobals
  exact ⟨fun h => hok (.inr h), fun hpos => hexit (by simp only [nodeSize]; omega)⟩

/-- The expression `(- (* 3 4) (/ -7 2) 20)`. -/
def sample : Arith :=
  .call .sub [.call .mul [.lit 3, .lit 4], .call .div [.lit (-7), .lit 2], .lit 20]

theorem eval_arithmetic_sample :
    eval 3 sample.tree [] ⟨[], 0, [⟨text "x", .nil⟩], []⟩ =
      .ok (.num (-5)) ⟨[], 336, [⟨text "x", .nil⟩], []⟩ := by
  have hvalid : sample.Valid := by
    simp only [sample, Arith.Valid, AllValid, values, Arith.value, Op.Takes]
    decide
  have hfree : OperatorsFree [⟨text "x", .nil⟩] := by
    intro v hv op
    rw [List.mem_singleton] at hv
    subst hv
    cases op <;> decide
  exact (eval_arithmetic sample hvalid 3 (by decide) [] (by simp [OperatorsFree])
    ⟨[], 0, [⟨text "x", .nil⟩], []⟩ hfree).1 (by decide)

/-- With a full pool no bound on nested calls makes `(+ 1 2)` return a number. -/
theorem full_pool_exits :
    (Arith.call .add [.lit 1, .lit 2]).Valid ∧
    ∀ fuel v t, eval fuel (Arith.call .add [.lit 1, .lit 2]).tree [] ⟨[], poolSize, [], []⟩ ≠
      .ok (.num v) t := by
  have hvalid : (Arith.call .add [.lit 1, .lit 2]).Valid := by
    simp [Arith.Valid, AllValid, values, Op.Takes]
  refine ⟨hvalid, fun fuel v t h => ?_⟩
  match fuel with
  | 0 => cases h
  | 1 => cases h
  | n + 2 =>
      have hyields := @eval_yields [] (by simp [OperatorsFree])
        (.call .add [.lit 1, .lit 2]) hvalid (n + 2) (by simp [Arith.depth, depthOf])
        ⟨[], poolSize, [], []⟩ (by simp [OperatorsFree])
      obtain ⟨u, hu⟩ := hyields.2 (by decide) (by decide)
      rw [h] at hu
      cases hu

end LispDos.Lisp
