import LispDos.Tools.LispReader

/-! # The evaluator of the Lisp interpreter

The second half of `tools/lisp.c`: the environments, `eval` and the loop of `_start` that
reads and evaluates a script. -/

namespace LispDos.Lisp

/-! ## Fields of a node -/

/-- `p->first`. -/
def Node.getFirst : Node → Run Node
  | .null => fault
  | .list first _ => pure first
  | .func params _ => pure params
  | _ => pure .null

/-- `p->rest`. -/
def Node.getRest : Node → Run Node
  | .null => fault
  | .list _ rest => pure rest
  | .func _ body => pure body
  | _ => pure .null

/-- `p->sym`. -/
def Node.getSym : Node → Run (List UInt8)
  | .null => fault
  | .sym s => pure s
  | .err s => pure s
  | _ => pure []

/-- `p->num`. -/
def Node.getNum : Node → Run (BitVec 32)
  | .null => fault
  | .num n => pure n
  | _ => pure 0

/-! ## Environments -/

/-- `env_set`; a new variable is dropped when the table is full. -/
def envSet (sym : List UInt8) (val : Node) : Run Unit := fun s =>
  if s.globals.any (fun v => v.sym = sym) then
    .ok () { s with globals := setFirst s.globals }
  else if s.globals.length < 128 then
    .ok () { s with globals := s.globals ++ [⟨sym, val⟩] }
  else .ok () s
where
  setFirst : List EnvVar → List EnvVar
    | [] => []
    | v :: vs => if v.sym = sym then ⟨v.sym, val⟩ :: vs else v :: setFirst vs

/-- The names that stand for themselves. -/
def builtins : List (List UInt8) := [text "+", text "-", text "*", text "/", text "print"]

/-- `env_get`. -/
def envGet (sym : List UInt8) (locals : List EnvVar) : Run Node := fun s =>
  match locals.find? fun v => v.sym = sym with
  | some v => .ok v.val s
  | none =>
      match s.globals.find? fun v => v.sym = sym with
      | some v => .ok v.val s
      | none =>
          if sym ∈ builtins then newLvalSym sym s
          else newLvalErr (text "Variavel/Funcao nao definida") s

/-! ## Builtin functions -/

/-- The loop of `print_int` that stores the digits of `n` in `buf`, the last one first. -/
def storeDigits (n : ℕ) (buf : List UInt8) : List UInt8 :=
  if n = 0 then buf else storeDigits (n / 10) (buf ++ [UInt8.ofNat (n % 10 + 0x30)])
termination_by n
decreasing_by omega

/-- `print_int`; the smallest number has no digits. -/
def printInt (n : BitVec 32) : List UInt8 :=
  let sign : List UInt8 := if n.toInt < 0 then [0x2D] else []
  let n := if n.toInt < 0 then -n else n
  if n = 0 then sign ++ [0x30]
  else if n.toInt < 0 then sign
  else sign ++ (Nat.toDigits 10 n.toNat).map fun c => UInt8.ofNat c.toNat

def printArg : Node → Run Unit
  | .null => fault
  | .num n => print (printInt n)
  | .sym s => print s
  | _ => pure ()

/-- The loop of `print` over its arguments. -/
def printArgs : List Node → Run Unit
  | [] => pure ()
  | arg :: args => do
      printArg arg
      print [0x20]
      printArgs args

/-- The loops of `+`, `-` and `*`. -/
def foldArgs (op : BitVec 32 → BitVec 32 → BitVec 32) (args : List Node) (res : BitVec 32) :
    Run (BitVec 32) :=
  args.foldlM (fun res arg => do return op res (← arg.getNum)) res

def callSub : List Node → Run Node
  -- the slot `args_eval[0]` has not been set
  | [] => fault
  | [arg] => do newLvalNum (-(← arg.getNum))
  | arg :: args => do
      let first ← arg.getNum
      let res ← foldArgs (· - ·) args first
      newLvalNum res

def callDiv : List Node → Run Node
  | a :: b :: _ => do
      let divisor ← b.getNum
      if divisor ≠ 0 then
        let dividend ← a.getNum
        -- the processor traps on the one quotient that does not fit
        if dividend = BitVec.intMin 32 ∧ divisor = -1 then fault
        else newLvalNum (dividend.sdiv divisor)
      else newLvalErr (text "Divisao por zero")
  | _ => newLvalErr (text "Divisao por zero")

/-- The calls of the builtin functions, for the name and the `ac` arguments. -/
def callBuiltin (name : List UInt8) (args : List Node) : Run Node :=
  if name = text "+" then do
    let res ← foldArgs (· + ·) args 0
    newLvalNum res
  else if name = text "-" then callSub args
  else if name = text "*" then do
    let res ← foldArgs (· * ·) args 1
    newLvalNum res
  else if name = text "/" then callDiv args
  else if name = text "print" then do
    printArgs args
    print (text "\n")
    newLvalNil
  else newLvalErr (text "Nao e uma funcao valida")

/-! ## Evaluation -/

/-- The loop over the arguments of a call. There is room to store 16 of them. -/
def evalArgs (ev : Node → Run Node) : Node → ℕ → Run (List Node)
  | .list first rest, ac => do
      let v ← ev first
      if ac < 16 then
        let vs ← evalArgs ev rest (ac + 1)
        return v :: vs
      else fault
  | _, _ => pure []

/-- The loop that binds the parameters of a function to its arguments. -/
def bindParams : Node → List Node → Run (List EnvVar)
  | .list param params, arg :: args => do
      let sym ← param.getSym
      let env ← bindParams params args
      return ⟨sym, arg⟩ :: env
  | _, _ => pure []

/-- `defun`. -/
def evalDefun (rest : Node) : Run Node := do
  let name ← rest.getFirst
  let tail ← rest.getRest
  let args ← tail.getFirst
  let body ← (← tail.getRest).getFirst
  let func ← newLvalFunc args body
  envSet (← name.getSym) func
  newLvalSym (text "ok")

/-- `setq`. -/
def evalSetq (ev : Node → Run Node) (rest : Node) : Run Node := do
  let name ← rest.getFirst
  let val ← ev (← (← rest.getRest).getFirst)
  envSet (← name.getSym) val
  return val

/-- The call of a function, once the first element has been evaluated to it. -/
def evalCall (ev : Node → List EnvVar → Run Node) (f rest : Node) (locals : List EnvVar) :
    Run Node :=
  match f with
  | .null => fault
  | .err m => pure (.err m)
  | .sym name => do
      let args ← evalArgs (fun e => ev e locals) rest 0
      callBuiltin name args
  | .func params body => do
      let args ← evalArgs (fun e => ev e locals) rest 0
      ev body (← bindParams params args)
  | _ => do
      let _ ← evalArgs (fun e => ev e locals) rest 0
      newLvalErr (text "Nao e uma funcao valida")

/-- `eval` of a list, where `ev` stands for the nested calls. -/
def evalList (ev : Node → List EnvVar → Run Node) (first rest : Node) (locals : List EnvVar) :
    Run Node :=
  if first = .null then fault
  else if first = .sym (text "defun") then evalDefun rest
  else if first = .sym (text "setq") then evalSetq (fun e => ev e locals) rest
  else do
    let f ← ev first locals
    evalCall ev f rest locals

/-- `eval`, for at most `fuel` nested calls. -/
def eval : ℕ → Node → List EnvVar → Run Node
  | 0, _, _ => timeout
  | fuel + 1, ast, locals =>
      match ast with
      | .null => newLvalNil
      | .num n => pure (.num n)
      | .sym s => envGet s locals
      | .nil => pure .nil
      | .list first rest => evalList (eval fuel) first rest locals
      | _ => newLvalErr (text "Erro de avaliacao")

/-! ## The script -/

/-- How the loop of `_start` ends: at the end of the text, with a message about an
expression that could not be read or evaluated, because the reader filled the pool, or
inside a call of `eval` that does not return. The last case is a loop cut off by the
model. -/
inductive ScriptEnd where
  | finished (last : Option Node) (state : Interp)
  | parseError (state : Interp)
  | evalError (state : Interp)
  | readExited (state : Interp)
  | evalStopped
  | timeout
  deriving DecidableEq

/-- The loop of `_start`, for at most `n` expressions: the trees that it hands to `eval`,
and how it ends. -/
def scriptLoop (ev : Node → Run Node) : ℕ → Option Node → Interp → List Node × ScriptEnd
  | 0, _, _ => ([], .timeout)
  | n + 1, last, s =>
      let s := { s with src := skipSpace s.src }
      if cur s.src = 0 then ([], .finished last s)
      else
        match readExpr s with
        | .ok .null s => ([], .finished last s)
        | .ok (.err m) s =>
            ([], .parseError (s.say (text "LISP PARSE ERROR: " ++ m ++ text "\n")))
        | .ok ast s =>
            match ev ast s with
            | .ok .null _ => ([ast], .evalStopped)
            | .ok (.err m) s =>
                ([ast], .evalError (s.say (text "LISP EVAL ERROR: " ++ m ++ text "\n")))
            | .ok v s =>
                let r := scriptLoop ev n (some v) s
                (ast :: r.1, r.2)
            | _ => ([ast], .evalStopped)
        | .exit s => ([], .readExited s)
        | _ => ([], .timeout)

end LispDos.Lisp
