import LispDos.Verification.Lisp.Assignments
import LispDos.Verification.Lisp.Safety

/-! # The meaning of the language

What an expression evaluates to, apart from the pool, the reader and the bound on nested calls:
its value, the global variables that it leaves, what it prints and how many nodes it takes. The
evaluator returns exactly these, if the pool has room for the nodes. -/

namespace LispDos.Lisp

/-! ## Calls without memory -/

/-- `p->num`, if `p` is not null. -/
def Node.num? : Node → Option (BitVec 32)
  | .null => none
  | .num n => some n
  | _ => some 0

/-- The value of a variable. -/
def lookupVar (locals globals : List EnvVar) (x : List UInt8) : Option Node :=
  ((locals.find? fun v => v.sym = x).or (globals.find? fun v => v.sym = x)).map EnvVar.val

def bindAll : Node → List Node → Option (List EnvVar)
  | .list param params, arg :: args => do
      let x ← param.sym?
      let env ← bindAll params args
      return ⟨x, arg⟩ :: env
  | _, _ => some []

/-- What `print` shows of an argument. -/
def shown : Node → Option (List UInt8)
  | .null => none
  | .num n => some (printInt n)
  | .sym s => some s
  | _ => some []

def printed : List Node → Option (List UInt8)
  | [] => some []
  | arg :: args => do
      let cs ← shown arg
      let rest ← printed args
      return cs ++ 0x20 :: rest

def foldNums (op : BitVec 32 → BitVec 32 → BitVec 32) : List Node → BitVec 32 → Option (BitVec 32)
  | [], res => some res
  | arg :: args, res => do foldNums op args (op res (← arg.num?))

def subNums : List Node → Option (BitVec 32)
  | [] => none
  | [arg] => do return -(← arg.num?)
  | arg :: args => do foldNums (· - ·) args (← arg.num?)

def divNums : List Node → Option Node
  | a :: b :: _ => do
      let divisor ← b.num?
      if divisor ≠ 0 then
        let dividend ← a.num?
        if dividend = BitVec.intMin 32 ∧ divisor = -1 then none
        else return .num (dividend.sdiv divisor)
      else return .err (text "Divisao por zero")
  | _ => return .err (text "Divisao por zero")

/-- What a builtin function returns and prints. -/
def applyBuiltin (name : List UInt8) (args : List Node) : Option (Node × List UInt8) :=
  if name = text "+" then (foldNums (· + ·) args 0).map fun n => (.num n, [])
  else if name = text "-" then (subNums args).map fun n => (.num n, [])
  else if name = text "*" then (foldNums (· * ·) args 1).map fun n => (.num n, [])
  else if name = text "/" then (divNums args).map fun v => (v, [])
  else if name = text "print" then (printed args).map fun cs => (.nil, cs ++ text "\n")
  else some (.err (text "Nao e uma funcao valida"), [])

/-! ## The meaning -/

/-- An expression to evaluate, or the rest of the arguments of a call, of which there are `ac`
already. -/
inductive Phrase : Type → Type 1
  | node (e : Node) : Phrase Node
  | args (e : Node) (ac : ℕ) : Phrase (List Node)

/-- A value that cannot be called. -/
inductive NoFunction : Node → Prop where
  | num (n : BitVec 32) : NoFunction (.num n)
  | nil : NoFunction .nil
  | list (first rest : Node) : NoFunction (.list first rest)

/-- A phrase, among the local and global variables, has a value, leaves global variables, prints a
text and takes a number of nodes. -/
inductive Evals : {α : Type} → Phrase α → List EnvVar → List EnvVar → α → List EnvVar →
    List UInt8 → ℕ → Prop where
  | null {locals g} : Evals (.node .null) locals g .nil g [] 1
  | num {locals g} (n) : Evals (.node (.num n)) locals g (.num n) g [] 0
  | nil {locals g} : Evals (.node .nil) locals g .nil g [] 0
  | variable {locals g x v} (value : lookupVar locals g x = some v) :
      Evals (.node (.sym x)) locals g v g [] 0
  | builtin {locals g x} (unset : lookupVar locals g x = none) (name : x ∈ builtins) :
      Evals (.node (.sym x)) locals g (.sym x) g [] 1
  | unset {locals g x} (unset : lookupVar locals g x = none) (name : x ∉ builtins) :
      Evals (.node (.sym x)) locals g (.err (text "Variavel/Funcao nao definida")) g [] 1
  | err {locals g} (m) : Evals (.node (.err m)) locals g (.err (text "Erro de avaliacao")) g [] 1
  | func {locals g} (params body) :
      Evals (.node (.func params body)) locals g (.err (text "Erro de avaliacao")) g [] 1
  | defun {locals g rest name r params r' body x} (hname : rest.first? = some name)
      (hrest : rest.rest? = some r) (hparams : r.first? = some params) (hrest' : r.rest? = some r')
      (hbody : r'.first? = some body) (hx : name.sym? = some x) :
      Evals (.node (.list (.sym (text "defun")) rest)) locals g (.sym (text "ok"))
        (store g ⟨x, .func params body⟩) [] 2
  | setq {locals g rest name r e x v g' out k} (hname : rest.first? = some name)
      (hrest : rest.rest? = some r) (hvalue : r.first? = some e) (hx : name.sym? = some x)
      (value : Evals (.node e) locals g v g' out k) :
      Evals (.node (.list (.sym (text "setq")) rest)) locals g v (store g' ⟨x, v⟩) out k
  | headErr {locals g first rest m g' out k} (ne_null : first ≠ .null) (not_special : ¬ Special first)
      (head : Evals (.node first) locals g (.err m) g' out k) :
      Evals (.node (.list first rest)) locals g (.err m) g' out k
  | callBuiltin {locals g first rest name g₁ out₁ k₁ vs g₂ out₂ k₂ v out₃} (ne_null : first ≠ .null)
      (not_special : ¬ Special first) (head : Evals (.node first) locals g (.sym name) g₁ out₁ k₁)
      (args : Evals (.args rest 0) locals g₁ vs g₂ out₂ k₂)
      (result : applyBuiltin name vs = some (v, out₃)) :
      Evals (.node (.list first rest)) locals g v g₂ (out₁ ++ (out₂ ++ out₃)) (k₁ + (k₂ + 1))
  | callFunc {locals g first rest params body g₁ out₁ k₁ vs g₂ out₂ k₂ env v g₃ out₃ k₃}
      (ne_null : first ≠ .null) (not_special : ¬ Special first)
      (head : Evals (.node first) locals g (.func params body) g₁ out₁ k₁)
      (args : Evals (.args rest 0) locals g₁ vs g₂ out₂ k₂) (bound : bindAll params vs = some env)
      (result : Evals (.node body) env g₂ v g₃ out₃ k₃) :
      Evals (.node (.list first rest)) locals g v g₃ (out₁ ++ (out₂ ++ out₃)) (k₁ + (k₂ + k₃))
  | callOther {locals g first rest f g₁ out₁ k₁ vs g₂ out₂ k₂} (ne_null : first ≠ .null)
      (not_special : ¬ Special first) (head : Evals (.node first) locals g f g₁ out₁ k₁)
      (hf : NoFunction f)
      (args : Evals (.args rest 0) locals g₁ vs g₂ out₂ k₂) :
      Evals (.node (.list first rest)) locals g (.err (text "Nao e uma funcao valida")) g₂
        (out₁ ++ out₂) (k₁ + (k₂ + 1))
  | argsEnd {locals g e ac} (last : ¬ IsList e) : Evals (.args e ac) locals g [] g [] 0
  | argsNext {locals g first rest ac v g₁ out₁ k₁ vs g₂ out₂ k₂} (room : ac < 16)
      (value : Evals (.node first) locals g v g₁ out₁ k₁)
      (others : Evals (.args rest (ac + 1)) locals g₁ vs g₂ out₂ k₂) :
      Evals (.args (.list first rest) ac) locals g (v :: vs) g₂ (out₁ ++ out₂) (k₁ + k₂)

variable {α β : Type} {e first rest f v : Node} {locals g g' g₁ g₂ g₃ : List EnvVar}
  {out out₁ out₂ out₃ x : List UInt8} {k k₁ k₂ k₃ n : ℕ} {s t : Interp} {vs : List Node}

/-- The call of the evaluator for a phrase. -/
noncomputable def Phrase.run : Phrase α → List EnvVar → Run α
  | .node e, locals => evaluate e locals
  | .args e ac, locals => evalArgs (fun e => evaluate e locals) e ac

/-! ## Calls and what they spend -/

/-- What `alloc_node` prints when the pool is full. -/
def poolMessage : List UInt8 := text "Erro: AST estourou o Memory Pool do LISP (1 MB).\n"

/-- The call returns `a`, leaves the global variables, prints and takes the nodes; if the pool is
too small, it prints a part of it and the message, and exits. -/
structure Spends (x : Run α) (g : List EnvVar) (a : α) (g' : List EnvVar) (out : List UInt8)
    (k : ℕ) : Prop where
  ok : ∀ s, s.globals = g → s.pool + nodeSize * k ≤ poolSize →
    x s = .ok a ⟨s.src, s.pool + nodeSize * k, g', s.output ++ out⟩
  exit : ∀ s, s.globals = g → s.pool ≤ poolSize → poolSize < s.pool + nodeSize * k →
    ∃ t cs, x s = .exit t ∧ cs <+: out ∧ t.output = s.output ++ (cs ++ poolMessage)

theorem spends_pure (a : α) (g : List EnvVar) : Spends (pure a) g a g [] 0 where
  ok := by
    rintro s rfl -
    rw [pure_apply, List.append_nil]
    rfl
  exit := by
    intro s _ hle hlt
    omega

theorem spends_allocNode (e : Node) (g : List EnvVar) : Spends (allocNode e) g e g [] 1 where
  ok := by
    rintro s rfl hfits
    rw [allocNode, if_neg (by omega), Nat.mul_one, List.append_nil]
  exit := by
    intro s _ _ hlt
    refine ⟨_, [], by rw [allocNode, if_pos (by omega)], List.nil_prefix, rfl⟩

theorem spends_print (cs : List UInt8) (g : List EnvVar) : Spends (print cs) g () g cs 0 where
  ok := by
    rintro s rfl -
    rfl
  exit := by
    intro s _ hle hlt
    omega

theorem spends_envSet (x : List UInt8) (v : Node) (g : List EnvVar) :
    Spends (envSet x v) g () (store g ⟨x, v⟩) [] 0 where
  ok := by
    rintro s rfl -
    rw [envSet_eq, List.append_nil]
    rfl
  exit := by
    intro s _ hle hlt
    omega

theorem Spends.bind {x : Run α} {h : α → Run β} {a : α} {b : β} (hx : Spends x g a g₁ out₁ k₁)
    (hf : Spends (h a) g₁ b g₂ out₂ k₂) : Spends (x >>= h) g b g₂ (out₁ ++ out₂) (k₁ + k₂) where
  ok := by
    intro s hs hfits
    rw [Nat.mul_add, ← Nat.add_assoc] at hfits ⊢
    have hfirst := hx.ok s hs (by omega)
    rw [bind_ok hfirst, hf.ok _ rfl hfits, List.append_assoc]
  exit := by
    intro s hs hle hlt
    rw [Nat.mul_add, ← Nat.add_assoc] at hlt
    by_cases hfits : s.pool + nodeSize * k₁ ≤ poolSize
    · have hfirst := hx.ok s hs hfits
      obtain ⟨t, cs, hexit, hcs, hout⟩ :=
        hf.exit ⟨s.src, s.pool + nodeSize * k₁, g₁, s.output ++ out₁⟩ rfl hfits hlt
      refine ⟨t, out₁ ++ cs, by rw [bind_ok hfirst, hexit], ?_, ?_⟩
      · rwa [List.prefix_append_right_inj]
      · rw [hout, List.append_assoc, List.append_assoc]
    · obtain ⟨t, cs, hexit, hcs, hout⟩ := hx.exit s hs hle (Nat.lt_of_not_le hfits)
      exact ⟨t, cs, bind_exit hexit, hcs.trans (List.prefix_append out₁ out₂), hout⟩

/-- A call that neither prints nor takes nodes comes first. -/
theorem Spends.after {x : Run α} {h : α → Run β} {a : α} {b : β} (hx : Spends x g a g [] 0)
    (hf : Spends (h a) g b g₂ out k) : Spends (x >>= h) g b g₂ out k := by
  have hbind := hx.bind hf
  rwa [List.nil_append, Nat.zero_add] at hbind

/-- A call that neither prints nor takes nodes comes last. -/
theorem Spends.before {x : Run α} {h : α → Run β} {a : α} {b : β} (hx : Spends x g a g₁ out k)
    (hf : Spends (h a) g₁ b g₂ [] 0) : Spends (x >>= h) g b g₂ out k := by
  have hbind := hx.bind hf
  rwa [List.append_nil, Nat.add_zero] at hbind

/-! ## What the calls of the source spend -/

theorem spends_getFirst (h : e.first? = some v) (g : List EnvVar) : Spends e.getFirst g v g [] 0 := by
  rw [getFirst_eq, h]
  exact spends_pure v g

theorem spends_getRest (h : e.rest? = some v) (g : List EnvVar) : Spends e.getRest g v g [] 0 := by
  rw [getRest_eq, h]
  exact spends_pure v g

theorem getNum_eq (e : Node) : e.getNum = e.num?.elim fault pure := by
  cases e <;> rfl

theorem spends_getSym (h : e.sym? = some x) (g : List EnvVar) : Spends e.getSym g x g [] 0 := by
  rw [getSym_eq, h]
  exact spends_pure x g

theorem bindParams_eq_bindAll (params : Node) (args : List Node) :
    bindParams params args = (bindAll params args).elim fault pure := by
  induction params generalizing args with
  | list param params _ ih =>
      cases args with
      | nil => rfl
      | cons arg args =>
          rw [bindParams, bindAll, getSym_eq]
          cases param.sym? with
          | none => rfl
          | some x =>
              show (bindParams params args >>= fun env => pure (⟨x, arg⟩ :: env)) = _
              rw [ih]
              cases bindAll params args <;> rfl
  | _ => rfl

theorem foldArgs_eq (op : BitVec 32 → BitVec 32 → BitVec 32) (args : List Node) (res : BitVec 32) :
    foldArgs op args res = (foldNums op args res).elim fault pure := by
  induction args generalizing res with
  | nil => rfl
  | cons arg args ih =>
      show ((arg.getNum >>= fun m => pure (op res m)) >>= fun res => foldArgs op args res) = _
      rw [getNum_eq, foldNums]
      cases arg.num? with
      | none => rfl
      | some m => exact ih (op res m)

/-- Printing nothing changes nothing. -/
theorem print_nil_bind (h : Run β) : (print [] >>= fun _ => h) = h := by
  funext s
  have hprint : print [] s = .ok () s := by rw [print, Interp.say, List.append_nil]
  rw [bind_ok hprint]

theorem print_bind (cs ds : List UInt8) (h : Run β) :
    (print cs >>= fun _ => print ds >>= fun _ => h) = (print (cs ++ ds) >>= fun _ => h) := by
  funext s
  show h ((s.say cs).say ds) = h (s.say (cs ++ ds))
  rw [Interp.say, Interp.say, Interp.say, List.append_assoc]

theorem printArg_eq (e : Node) : printArg e = (shown e).elim fault print := by
  have hnil : (pure () : Run Unit) = print [] := by
    funext s
    rw [print, Interp.say, List.append_nil, pure_apply]
  cases e with
  | null => rfl
  | num => rfl
  | sym => rfl
  | _ => exact hnil

theorem bind_bind {γ : Type} (x : Run α) (h : α → Run β) (h' : β → Run γ) :
    (x >>= h >>= h') = (x >>= fun a => h a >>= h') := by
  funext s
  simp only [bind_apply, Run.bind]
  cases x s <;> rfl

theorem printArgs_bind (args : List Node) (h : Run β) :
    (printArgs args >>= fun _ => h) = (printed args).elim fault fun cs => print cs >>= fun _ => h := by
  induction args with
  | nil => exact (print_nil_bind h).symm
  | cons arg args ih =>
      rw [printArgs, bind_bind]
      simp only [bind_bind, ih]
      rw [printArg_eq, printed]
      cases shown arg with
      | none => rfl
      | some cs =>
          show (print cs >>= fun _ => print [0x20] >>= fun _ => _) = _
          cases printed args with
          | none => rfl
          | some rest =>
              show (print cs >>= fun _ => print [0x20] >>= fun _ => print rest >>= fun _ => h) = _
              rw [print_bind [0x20], print_bind]
              rfl

theorem callSub_eq (args : List Node) :
    callSub args = (subNums args).elim fault pure >>= newLvalNum := by
  cases args with
  | nil => rfl
  | cons arg args =>
      cases args with
      | nil =>
          rw [callSub, getNum_eq, subNums]
          cases arg.num? <;> rfl
      | cons b args =>
          have hsub : subNums (arg :: b :: args) =
              arg.num?.bind fun m => foldNums (· - ·) (b :: args) m := rfl
          show (arg.getNum >>= fun first => foldArgs (· - ·) (b :: args) first >>= newLvalNum) = _
          simp only [foldArgs_eq, getNum_eq, hsub]
          cases arg.num? <;> rfl

theorem callDiv_eq (args : List Node) : callDiv args = (divNums args).elim fault allocNode := by
  match args with
  | [] => rfl
  | [_] => rfl
  | a :: b :: args =>
      rw [callDiv, divNums, getNum_eq, getNum_eq]
      cases b.num? with
      | none => rfl
      | some divisor =>
          show (if divisor ≠ 0 then _ else _) = ((if divisor ≠ 0 then _ else _) : Option Node).elim _ _
          split_ifs with hzero
          · cases a.num? with
            | none => rfl
            | some dividend =>
                show (if dividend = BitVec.intMin 32 ∧ divisor = -1 then _ else _) =
                  ((if dividend = BitVec.intMin 32 ∧ divisor = -1 then _ else _) : Option Node).elim _ _
                split_ifs <;> rfl
          · rfl

/-- A builtin function prints, and then it takes the node of its result. -/
theorem callBuiltin_eq (name : List UInt8) (args : List Node) :
    callBuiltin name args =
      (applyBuiltin name args).elim fault fun r => print r.2 >>= fun _ => allocNode r.1 := by
  have hnums : ∀ o : Option (BitVec 32),
      (o.elim (fault : Run _) pure >>= newLvalNum) =
        (o.map fun n => (Node.num n, ([] : List UInt8))).elim fault
          fun r => print r.2 >>= fun _ => allocNode r.1 := by
    intro o
    cases o with
    | none => rfl
    | some n => exact (print_nil_bind (newLvalNum n)).symm
  unfold callBuiltin applyBuiltin
  split_ifs with hadd hsub hmul hdiv hprint
  · rw [foldArgs_eq]
    exact hnums _
  · rw [callSub_eq]
    exact hnums _
  · rw [foldArgs_eq]
    exact hnums _
  · rw [callDiv_eq]
    cases divNums args with
    | none => rfl
    | some v => exact (print_nil_bind (allocNode v)).symm
  · rw [printArgs_bind]
    cases printed args with
    | none => rfl
    | some cs => exact print_bind cs (text "\n") newLvalNil
  · exact (print_nil_bind _).symm

theorem spends_callBuiltin {name : List UInt8} (h : applyBuiltin name vs = some (v, out))
    (g : List EnvVar) : Spends (callBuiltin name vs) g v g out 1 := by
  rw [callBuiltin_eq, h]
  have hbind : Spends (print out >>= fun _ => allocNode v) g v g (out ++ []) (0 + 1) :=
    (spends_print out g).bind (spends_allocNode v g)
  rwa [List.append_nil, Nat.zero_add] at hbind

theorem spends_evalDefun {rest name r params r' body : Node} (hname : rest.first? = some name)
    (hrest : rest.rest? = some r) (hparams : r.first? = some params) (hrest' : r.rest? = some r')
    (hbody : r'.first? = some body) (hx : name.sym? = some x) (g : List EnvVar) :
    Spends (evalDefun rest) g (.sym (text "ok")) (store g ⟨x, .func params body⟩) [] 2 := by
  refine (spends_getFirst hname g).after ((spends_getRest hrest g).after
    ((spends_getFirst hparams g).after ((spends_getRest hrest' g).after
      ((spends_getFirst hbody g).after ?_))))
  have hok : Spends (newLvalSym (text "ok")) (store g ⟨x, .func params body⟩) (.sym (text "ok"))
      (store g ⟨x, .func params body⟩) [] 1 := spends_allocNode _ _
  have hset : Spends (envSet x (.func params body) >>= fun _ => newLvalSym (text "ok")) g
      (.sym (text "ok")) (store g ⟨x, .func params body⟩) ([] ++ []) (0 + 1) :=
    (spends_envSet x _ g).bind hok
  have hstore : Spends (name.getSym >>= fun x => envSet x (.func params body) >>= fun _ =>
      newLvalSym (text "ok")) g (.sym (text "ok")) (store g ⟨x, .func params body⟩) [] 1 :=
    (spends_getSym hx g).after hset
  exact Spends.bind (h := fun func => name.getSym >>= fun x => envSet x func >>= fun _ =>
    newLvalSym (text "ok")) (spends_allocNode (.func params body) g) hstore

theorem spends_evalSetq {ev : Node → Run Node} {rest name r : Node} (hname : rest.first? = some name)
    (hrest : rest.rest? = some r) (hvalue : r.first? = some e) (hx : name.sym? = some x)
    (value : Spends (ev e) g v g' out k) : Spends (evalSetq ev rest) g v (store g' ⟨x, v⟩) out k := by
  refine (spends_getFirst hname g).after ((spends_getRest hrest g).after
    ((spends_getFirst hvalue g).after (value.before ?_)))
  exact (spends_getSym hx g').after ((spends_envSet x v g').before (spends_pure v _))

/-- A variable without a value is a builtin function, or an error. -/
theorem envGet_unset (hunset : lookupVar locals s.globals x = none) :
    envGet x locals s =
      if x ∈ builtins then newLvalSym x s
      else newLvalErr (text "Variavel/Funcao nao definida") s := by
  rw [lookupVar, Option.map_eq_none_iff, Option.or_eq_none_iff] at hunset
  rw [envGet, hunset.1, hunset.2]

theorem envGet_set (hset : lookupVar locals s.globals x = some v) : envGet x locals s = .ok v s := by
  rw [lookupVar, Option.map_eq_some_iff] at hset
  obtain ⟨w, hw, rfl⟩ := hset
  rw [envGet]
  cases hlocal : locals.find? fun v => v.sym = x with
  | some w' =>
      rw [hlocal, Option.some_or] at hw
      cases hw
      rfl
  | none =>
      rw [hlocal, Option.none_or] at hw
      rw [hw]

/-! ## What has a meaning is evaluated -/

theorem spends_variable (hset : lookupVar locals g x = some v) :
    Spends (envGet x locals) g v g [] 0 where
  ok := by
    rintro s rfl hfits
    exact (envGet_set hset).trans ((spends_pure v s.globals).ok s rfl hfits)
  exit := by
    intro s _ hle hlt
    omega

theorem spends_unset (hunset : lookupVar locals g x = none) : Spends (envGet x locals) g
    (if x ∈ builtins then .sym x else .err (text "Variavel/Funcao nao definida")) g [] 1 := by
  have hcall : ∀ s, s.globals = g → envGet x locals s = allocNode
      (if x ∈ builtins then .sym x else .err (text "Variavel/Funcao nao definida")) s := by
    rintro s rfl
    rw [envGet_unset hunset]
    split_ifs <;> rfl
  constructor
  · intro s hs hfits
    rw [hcall s hs]
    exact (spends_allocNode _ g).ok s hs hfits
  · intro s hs hle hlt
    rw [hcall s hs]
    exact (spends_allocNode _ g).exit s hs hle hlt

theorem NoFunction.ne_null (h : NoFunction f) : f ≠ .null := by
  cases h <;> simp

theorem NoFunction.not_err (h : NoFunction f) : ¬ IsErr f := by
  cases h <;> simp [IsErr]

theorem NoFunction.finish_eq (h : NoFunction f) {ev : Node → List EnvVar → Run Node} :
    finish ev f vs = newLvalErr (text "Nao e uma funcao valida") := by
  cases h <;> rfl

theorem NoFunction.spends_finish (h : NoFunction f) (vs : List Node) (g : List EnvVar) :
    Spends (finish evaluate f vs) g (.err (text "Nao e uma funcao valida")) g [] 1 := by
  rw [h.finish_eq]
  exact spends_allocNode _ g

/-- A call of something that takes arguments. -/
theorem spends_call (ne_null : first ≠ .null) (not_special : ¬ Special first) (hf : f ≠ .null)
    (herr : ¬ IsErr f) (head : Spends (evaluate first locals) g f g₁ out₁ k₁)
    (args : Spends (evalArgs (fun e => evaluate e locals) rest 0) g₁ vs g₂ out₂ k₂)
    (result : Spends (finish evaluate f vs) g₂ v g₃ out₃ k₃) :
    Spends (evaluate (.list first rest) locals) g v g₃ (out₁ ++ (out₂ ++ out₃))
      (k₁ + (k₂ + k₃)) := by
  rw [evaluate_list, evalList_eq ne_null not_special]
  refine head.bind ?_
  rw [evalCall_eq hf herr]
  exact args.bind result

theorem spends_atom (hlist : ¬ IsList e) (h : Spends (eval 1 e locals) g v g' out k) :
    Spends ((Phrase.node e).run locals) g v g' out k := by
  rw [Phrase.run, evaluate_atom fun first rest heq => hlist ⟨first, rest, heq⟩]
  exact h

/-- The evaluator returns the meaning, and spends its nodes. -/
theorem Evals.spends {t : Phrase α} {a : α} (h : Evals t locals g a g' out k) :
    Spends (t.run locals) g a g' out k := by
  induction h with
  | null =>
      exact spends_atom (by simp [IsList]) (spends_allocNode .nil _)
  | num n =>
      exact spends_atom (by simp [IsList]) (spends_pure (Node.num n) _)
  | nil =>
      exact spends_atom (by simp [IsList]) (spends_pure Node.nil _)
  | «variable» value =>
      exact spends_atom (by simp [IsList]) (spends_variable value)
  | builtin unset name =>
      refine spends_atom (by simp [IsList]) ?_
      have hspends := spends_unset unset
      rwa [if_pos name] at hspends
  | unset unset name =>
      refine spends_atom (by simp [IsList]) ?_
      have hspends := spends_unset unset
      rwa [if_neg name] at hspends
  | err m =>
      exact spends_atom (by simp [IsList]) (spends_allocNode _ _)
  | func params body =>
      exact spends_atom (by simp [IsList]) (spends_allocNode _ _)
  | defun hname hrest hparams hrest' hbody hx =>
      rw [Phrase.run, evaluate_list, evalList_defun]
      exact spends_evalDefun hname hrest hparams hrest' hbody hx _
  | setq hname hrest hvalue hx _ ih =>
      rw [Phrase.run, evaluate_list, evalList_setq]
      exact spends_evalSetq hname hrest hvalue hx ih
  | headErr ne_null not_special _ ih =>
      rw [Phrase.run, evaluate_list, evalList_eq ne_null not_special]
      exact ih.before (spends_pure _ _)
  | callBuiltin ne_null not_special _ _ result ihHead ihArgs =>
      exact spends_call ne_null not_special (by simp) (by simp [IsErr]) ihHead ihArgs
        (spends_callBuiltin result _)
  | callFunc ne_null not_special _ _ bound _ ihHead ihArgs ihResult =>
      refine spends_call ne_null not_special (by simp) (by simp [IsErr]) ihHead ihArgs ?_
      rw [finish, bindParams_eq_bindAll, bound]
      exact (spends_pure _ _).after ihResult
  | callOther ne_null not_special _ hf _ ihHead ihArgs =>
      have hcall := spends_call ne_null not_special hf.ne_null hf.not_err ihHead ihArgs
        (hf.spends_finish _ _)
      rwa [List.append_nil] at hcall
  | argsEnd last =>
      rename_i e ac
      cases e with
      | list first rest => exact absurd ⟨first, rest, rfl⟩ last
      | _ => exact spends_pure [] _
  | argsNext room _ _ ihValue ihOthers =>
      refine ihValue.bind ?_
      rw [if_pos room]
      exact ihOthers.before (spends_pure _ _)

/-! ## What is evaluated has a meaning -/

/-- A call that returns something returns nothing else. -/
theorem Spends.inv {x : Run α} {a b : α} (h : Spends x s.globals a g' out k)
    (hpool : s.pool ≤ poolSize) (hx : x s = .ok b t) :
    b = a ∧ s.pool + nodeSize * k ≤ poolSize ∧
      t = ⟨s.src, s.pool + nodeSize * k, g', s.output ++ out⟩ := by
  by_cases hfits : s.pool + nodeSize * k ≤ poolSize
  · have hok := h.ok s rfl hfits
    rw [hx] at hok
    cases hok
    exact ⟨rfl, hfits, rfl⟩
  · obtain ⟨u, cs, hexit, -⟩ := h.exit s rfl hpool (Nat.lt_of_not_le hfits)
    rw [hx] at hexit
    cases hexit

/-- The phrase has a meaning that leads to the state, with room in the pool. -/
def Means (t : Phrase α) (locals : List EnvVar) (s : Interp) (a : α) (s' : Interp) : Prop :=
  ∃ out k, Evals t locals s.globals a s'.globals out k ∧ s'.pool ≤ poolSize

theorem Evals.means {u : Phrase α} {a b : α} (h : Evals u locals s.globals a g' out k)
    (hpool : s.pool ≤ poolSize) (hx : u.run locals s = .ok b t) : Means u locals s b t := by
  obtain ⟨rfl, hfits, rfl⟩ := h.spends.inv hpool hx
  exact ⟨out, k, h, hfits⟩

/-- The fields that `defun` reads. -/
theorem evalDefun_fields {rest : Node} (h : evalDefun rest s = .ok v t) :
    ∃ name r params r' body x, rest.first? = some name ∧ rest.rest? = some r ∧
      r.first? = some params ∧ r.rest? = some r' ∧ r'.first? = some body ∧ name.sym? = some x := by
  obtain ⟨name, s₁, hname, h⟩ := bind_eq_ok h
  obtain ⟨r, s₂, hrest, h⟩ := bind_eq_ok h
  obtain ⟨params, s₃, hparams, h⟩ := bind_eq_ok h
  obtain ⟨r', s₄, hrest', h⟩ := bind_eq_ok h
  obtain ⟨body, s₅, hbody, h⟩ := bind_eq_ok h
  obtain ⟨func, s₆, -, h⟩ := bind_eq_ok h
  obtain ⟨x, s₇, hx, -⟩ := bind_eq_ok h
  exact ⟨name, r, params, r', body, x, (getFirst_ok hname).1, (getRest_ok hrest).1,
    (getFirst_ok hparams).1, (getRest_ok hrest').1, (getFirst_ok hbody).1, getSym_ok hx⟩

/-- The fields that `setq` reads, and its value. -/
theorem evalSetq_fields {ev : Node → Run Node} {rest : Node} (h : evalSetq ev rest s = .ok v t) :
    ∃ name r e x u, rest.first? = some name ∧ rest.rest? = some r ∧ r.first? = some e ∧
      name.sym? = some x ∧ ev e s = .ok v u := by
  obtain ⟨name, _, hname, h₁⟩ := bind_eq_ok h
  obtain ⟨r, _, hrest, h₂⟩ := bind_eq_ok h₁
  obtain ⟨e, _, hfirst, h₃⟩ := bind_eq_ok h₂
  obtain ⟨w, u, hvalue, h₄⟩ := bind_eq_ok h₃
  obtain ⟨x, _, hx, h₅⟩ := bind_eq_ok h₄
  obtain ⟨_, _, _, h₆⟩ := bind_eq_ok h₅
  obtain ⟨hname', rfl⟩ := getFirst_ok hname
  obtain ⟨hrest', rfl⟩ := getRest_ok hrest
  obtain ⟨hfirst', rfl⟩ := getFirst_ok hfirst
  cases h₆
  exact ⟨name, r, e, x, u, hname', hrest', hfirst', getSym_ok hx, hvalue⟩

theorem evalArgs_means
    (ih : ∀ e s v t, s.pool ≤ poolSize → eval n e locals s = .ok v t → Means (.node e) locals s v t)
    (e : Node) (ac : ℕ) (s : Interp) (vs : List Node) (t : Interp) (hpool : s.pool ≤ poolSize)
    (h : evalArgs (fun e => eval n e locals) e ac s = .ok vs t) :
    Means (.args e ac) locals s vs t := by
  induction e generalizing ac s vs with
  | list first rest _ ihrest =>
      rw [evalArgs] at h
      obtain ⟨v, s₁, hvalue, h⟩ := bind_eq_ok h
      obtain ⟨out₁, k₁, hv, hpool₁⟩ := ih first s v s₁ hpool hvalue
      by_cases hroom : ac < 16
      · rw [if_pos hroom] at h
        obtain ⟨ws, s₂, hothers, h⟩ := bind_eq_ok h
        cases h
        obtain ⟨out₂, k₂, hws, hpool₂⟩ := ihrest (ac + 1) s₁ ws hpool₁ hothers
        exact ⟨out₁ ++ out₂, k₁ + k₂, .argsNext hroom hv hws, hpool₂⟩
      · rw [if_neg hroom] at h
        cases h
  | _ =>
      cases h
      exact ⟨[], 0, .argsEnd (by simp [IsList]), hpool⟩

/-- What a bounded evaluation returns is the meaning. -/
theorem eval_means (n : ℕ) (e : Node) (locals : List EnvVar) (s : Interp) (v : Node) (t : Interp)
    (hpool : s.pool ≤ poolSize) (h : eval n e locals s = .ok v t) : Means (.node e) locals s v t := by
  have hrun : (Phrase.node e).run locals s = .ok v t := evaluate_eq (by simp) h
  induction n generalizing e locals s v t with
  | zero => cases h
  | succ n ih =>
      have ih' : ∀ e locals s v t, s.pool ≤ poolSize → eval n e locals s = .ok v t →
          Means (.node e) locals s v t := fun e locals s v t hpool h =>
        ih e locals s v t hpool h (evaluate_eq (by simp) h)
      cases e with
      | null => exact (Evals.null).means hpool hrun
      | num m => exact (Evals.num m).means hpool hrun
      | nil => exact (Evals.nil).means hpool hrun
      | err m => exact (Evals.err m).means hpool hrun
      | func params body => exact (Evals.func params body).means hpool hrun
      | sym x =>
          cases hvalue : lookupVar locals s.globals x with
          | some w => exact (Evals.variable hvalue).means hpool hrun
          | none =>
              by_cases hname : x ∈ builtins
              · exact (Evals.builtin hvalue hname).means hpool hrun
              · exact (Evals.unset hvalue hname).means hpool hrun
      | list first rest =>
          replace h : evalList (eval n) first rest locals s = .ok v t := h
          by_cases hnull : first = .null
          · subst hnull
            cases h
          by_cases hspecial : Special first
          · rcases hspecial with rfl | rfl
            · obtain ⟨name, r, params, r', body, x, hname, hrest, hparams, hrest', hbody, hx⟩ :=
                evalDefun_fields h
              exact (Evals.defun hname hrest hparams hrest' hbody hx).means hpool hrun
            · obtain ⟨name, r, e, x, u, hname, hrest, hfirst, hx, hvalue⟩ := evalSetq_fields h
              obtain ⟨out, k, hvalue', -⟩ := ih' e locals s v u hpool hvalue
              exact (Evals.setq hname hrest hfirst hx hvalue').means hpool hrun
          rw [evalList_eq hnull hspecial] at h
          obtain ⟨f, s₁, hhead, hcall⟩ := bind_eq_ok h
          obtain ⟨out₁, k₁, hf, hpool₁⟩ := ih' first locals s f s₁ hpool hhead
          by_cases herr : IsErr f
          · obtain ⟨m, rfl⟩ := herr
            exact (Evals.headErr hnull hspecial hf).means hpool hrun
          have hfnull : f ≠ .null := by
            rintro rfl
            cases hcall
          rw [evalCall_eq hfnull herr] at hcall
          obtain ⟨vs, s₂, hargs, hfinish⟩ := bind_eq_ok hcall
          obtain ⟨out₂, k₂, hvs, hpool₂⟩ :=
            evalArgs_means (fun e => ih' e locals) rest 0 s₁ vs s₂ hpool₁ hargs
          cases f with
          | null => exact absurd rfl hfnull
          | err m => exact absurd ⟨m, rfl⟩ herr
          | num m => exact (Evals.callOther hnull hspecial hf (.num m) hvs).means hpool hrun
          | nil => exact (Evals.callOther hnull hspecial hf .nil hvs).means hpool hrun
          | list a b => exact (Evals.callOther hnull hspecial hf (.list a b) hvs).means hpool hrun
          | sym name =>
              replace hfinish : callBuiltin name vs s₂ = .ok v t := hfinish
              rw [callBuiltin_eq] at hfinish
              cases happly : applyBuiltin name vs with
              | none => rw [happly] at hfinish; cases hfinish
              | some r =>
                  exact (Evals.callBuiltin hnull hspecial hf hvs happly).means hpool hrun
          | func params body =>
              replace hfinish : (bindParams params vs >>= eval n body) s₂ = .ok v t := hfinish
              rw [bindParams_eq_bindAll] at hfinish
              cases hbound : bindAll params vs with
              | none => rw [hbound] at hfinish; cases hfinish
              | some env =>
                  rw [hbound] at hfinish
                  obtain ⟨out₃, k₃, hbody, -⟩ := ih' body env s₂ v t hpool₂ hfinish
                  exact (Evals.callFunc hnull hspecial hf hvs hbound hbody).means hpool hrun

/-- The evaluator returns what an expression means, and nothing else: this is so exactly if the
pool has room for the nodes that the meaning takes. -/
theorem evaluate_ok_iff (e : Node) (locals : List EnvVar) (hpool : s.pool ≤ poolSize) :
    evaluate e locals s = .ok v t ↔
      ∃ out k, Evals (.node e) locals s.globals v t.globals out k ∧
        s.pool + nodeSize * k ≤ poolSize ∧
        t = ⟨s.src, s.pool + nodeSize * k, t.globals, s.output ++ out⟩ := by
  constructor
  · intro h
    obtain ⟨n, hn⟩ := (evaluate_eq_iff (by simp)).mp h
    obtain ⟨out, k, hevals, -⟩ := eval_means n e locals s v t hpool hn
    obtain ⟨-, hfits, ht⟩ := hevals.spends.inv hpool h
    exact ⟨out, k, hevals, hfits, ht⟩
  · rintro ⟨out, k, hevals, hfits, ht⟩
    rw [ht]
    exact hevals.spends.ok s rfl hfits

/-- The sum of a variable and a number takes one node for the operator and one for the result. -/
theorem evaluate_ok_iff_sum :
    evaluate (.list (.sym (text "+")) (.list (.sym (text "x")) (.list (.num 2) .nil))) []
        ⟨[], 0, [⟨text "x", .num 1⟩], []⟩ =
      .ok (.num 3) ⟨[], 112, [⟨text "x", .num 1⟩], []⟩ := by
  have hhead : Evals (.node (.sym (text "+"))) [] [⟨text "x", .num 1⟩] (.sym (text "+"))
      [⟨text "x", .num 1⟩] [] 1 := .builtin (by decide) (by decide)
  have hx : Evals (.node (.sym (text "x"))) [] [⟨text "x", .num 1⟩] (.num 1)
      [⟨text "x", .num 1⟩] [] 0 := .variable (by decide)
  have hargs : Evals (.args (.list (.sym (text "x")) (.list (.num 2) .nil)) 0) []
      [⟨text "x", .num 1⟩] [.num 1, .num 2] [⟨text "x", .num 1⟩] [] 0 :=
    .argsNext (by decide) hx (.argsNext (by decide) (.num 2) (.argsEnd (by simp [IsList])))
  refine (evaluate_ok_iff _ _ (by decide)).mpr ⟨[], 2, ?_, by decide, rfl⟩
  exact .callBuiltin (by simp) (by simp [Special]; decide) hhead hargs rfl

/-- An expression that means something returns it if the pool has room, and otherwise prints a part
of what it would print, and the message, and exits. -/
theorem evaluate_of_evals (h : Evals (.node e) locals g v g' out k) (s : Interp)
    (hs : s.globals = g) (hpool : s.pool ≤ poolSize) :
    (s.pool + nodeSize * k ≤ poolSize ∧
      evaluate e locals s = .ok v ⟨s.src, s.pool + nodeSize * k, g', s.output ++ out⟩) ∨
    (poolSize < s.pool + nodeSize * k ∧ ∃ t cs, evaluate e locals s = .exit t ∧ cs <+: out ∧
      t.output = s.output ++ (cs ++ poolMessage)) := by
  rcases Nat.lt_or_ge poolSize (s.pool + nodeSize * k) with hfull | hfits
  · exact .inr ⟨hfull, h.spends.exit s hs hpool hfull⟩
  · exact .inl ⟨hfits, h.spends.ok s hs hfits⟩

/-- A number is printed when the pool has no room for the list that `print` returns. -/
theorem evaluate_of_evals_print :
    ∃ t, evaluate (.list (.sym (text "print")) (.list (.num 7) .nil)) []
        ⟨[], poolSize - nodeSize, [], []⟩ = .exit t ∧ poolMessage <:+ t.output := by
  have hhead : Evals (.node (.sym (text "print"))) [] [] (.sym (text "print")) [] [] 1 :=
    .builtin (by decide) (by decide)
  have hargs : Evals (.args (.list (.num 7) .nil) 0) [] [] [.num 7] [] [] 0 :=
    .argsNext (by decide) (.num 7) (.argsEnd (by simp [IsList]))
  have hevals : Evals (.node (.list (.sym (text "print")) (.list (.num 7) .nil))) [] [] .nil []
      (text "7 \n") 2 :=
    .callBuiltin (by simp) (by simp [Special]; decide) hhead hargs (by decide)
  rcases evaluate_of_evals hevals ⟨[], poolSize - nodeSize, [], []⟩ rfl (by decide) with
    ⟨hfits, -⟩ | ⟨-, t, cs, hexit, -, hout⟩
  · exact absurd hfits (by decide)
  · exact ⟨t, hexit, cs, by rw [hout]; rfl⟩

end LispDos.Lisp
