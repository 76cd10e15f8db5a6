import Mathlib.Data.List.Basic
import Mathlib.Tactic.Common

/-! # The nodes and the reader of the Lisp interpreter

The first half of `tools/lisp.c`: the node pool, the constructors and the recursive
descent reader over the cursor `lisp_src`. -/

namespace LispDos.Lisp

/-- The bytes of a C string, without the terminator. -/
def text (s : String) : List UInt8 := s.toList.map fun c => UInt8.ofNat c.toNat

/-! ## Nodes -/

/-- A pointer to a `LispNode`. Nodes do not change once they are built, so a pointer is
the tree below it. Fields that a constructor does not set are zero like the pool. -/
inductive Node where
  | null
  | err (sym : List UInt8)
  | num (num : BitVec 32)
  | sym (sym : List UInt8)
  | list (first rest : Node)
  | nil
  | func (params body : Node)
  deriving DecidableEq

structure EnvVar where
  sym : List UInt8
  val : Node
  deriving DecidableEq

/-- The statics of the interpreter and what it has printed. -/
structure Interp where
  src : List UInt8
  pool : ℕ
  globals : List EnvVar
  output : List UInt8
  deriving DecidableEq

/-- The state after `vga_print(cs)`. -/
def Interp.say (s : Interp) (cs : List UInt8) : Interp := { s with output := s.output ++ cs }

/-- How a call ends: it returns, the process ends by `sys_exit`, or it follows a null
pointer, leaves an array or traps. The last case is a recursion cut off by the model. -/
inductive Outcome (α : Type) where
  | ok (value : α) (state : Interp)
  | exit (state : Interp)
  | fault
  | timeout
  deriving DecidableEq

/-- A function of the interpreter. -/
def Run (α : Type) : Type := Interp → Outcome α

def Run.bind {α β : Type} (x : Run α) (f : α → Run β) : Run β := fun s =>
  match x s with
  | .ok a s => f a s
  | .exit s => .exit s
  | .fault => .fault
  | .timeout => .timeout

instance : Monad Run where
  pure a := fun s => .ok a s
  bind := Run.bind

section Run

variable {α β : Type} {x : Run α} {f : α → Run β} {s : Interp}

@[simp] theorem pure_apply (a : α) (s : Interp) : (pure a : Run α) s = .ok a s := rfl

theorem bind_apply : (x >>= f) s = Run.bind x f s := rfl

/-- A call that returns hands its result and its state on. -/
theorem bind_ok {a : α} {s' : Interp} (h : x s = .ok a s') : (x >>= f) s = f a s' := by
  rw [bind_apply, Run.bind, h]

theorem bind_exit {s' : Interp} (h : x s = .exit s') : (x >>= f) s = .exit s' := by
  rw [bind_apply, Run.bind, h]

/-- What a sequence of two calls does is known from the first one. -/
theorem bind_eq_ok {b : β} {s' : Interp} (h : (x >>= f) s = .ok b s') :
    ∃ a t, x s = .ok a t ∧ f a t = .ok b s' := by
  rw [bind_apply, Run.bind] at h
  cases hx : x s with
  | ok a t =>
      rw [hx] at h
      exact ⟨a, t, rfl, h⟩
  | exit t =>
      rw [hx] at h
      cases h
  | fault =>
      rw [hx] at h
      cases h
  | timeout =>
      rw [hx] at h
      cases h

end Run

def fault {α : Type} : Run α := fun _ => .fault

def timeout {α : Type} : Run α := fun _ => .timeout

/-- `vga_print`. -/
def print (cs : List UInt8) : Run Unit := fun s => .ok () (s.say cs)

/-- `MEMORY_POOL_SIZE`. -/
def poolSize : ℕ := 1024 * 1024

/-- `sizeof(LispNode)`. -/
def nodeSize : ℕ := 56

/-- `alloc_node` and the stores of a constructor. -/
def allocNode (n : Node) : Run Node := fun s =>
  if s.pool + nodeSize > poolSize then
    .exit (s.say (text "Erro: AST estourou o Memory Pool do LISP (1 MB).\n"))
  else .ok n { s with pool := s.pool + nodeSize }

def newLvalNum (num : BitVec 32) : Run Node := allocNode (.num num)

def newLvalErr (m : List UInt8) : Run Node := allocNode (.err m)

def newLvalSym (s : List UInt8) : Run Node := allocNode (.sym s)

def newLvalList (first rest : Node) : Run Node := allocNode (.list first rest)

def newLvalNil : Run Node := allocNode .nil

def newLvalFunc (params body : Node) : Run Node := allocNode (.func params body)

/-! ## The reader -/

/-- The characters that `peek` skips. -/
def isSpace (c : UInt8) : Bool := c == 0x20 || c == 0x0A || c == 0x09 || c == 0x0D

/-- The characters that end an atom; the terminator is one of them. -/
def isDelim (c : UInt8) : Bool := c == 0 || isSpace c || c == 0x28 || c == 0x29

/-- `*lisp_src`; the text ends at its terminator. -/
def cur (src : List UInt8) : UInt8 := src.headD 0

/-- `peek` leaves the cursor here, and returns the character at it. -/
def skipSpace (src : List UInt8) : List UInt8 := src.dropWhile isSpace

/-- `buf[j] >= '0' && buf[j] <= '9'`. -/
def isDigit (c : UInt8) : Bool := 0x30 ≤ c && c ≤ 0x39

/-- The loop that computes `is_num`. -/
def isNum (buf : List UInt8) : Bool :=
  match buf with
  | [] => true
  | c :: cs => ((c == 0x2D && !cs.isEmpty) || isDigit c) && cs.all isDigit

/-- The loop `n = n*10 + (*p - '0')`. -/
def digitsValue (digits : List UInt8) : BitVec 32 :=
  digits.foldl (fun n c => n * 10 + BitVec.ofNat 32 (c.toNat - 0x30)) 0

/-- The value `n * sign`. -/
def numValue (buf : List UInt8) : BitVec 32 :=
  match buf with
  | [] => 0
  | c :: cs => if c = 0x2D then digitsValue cs * (-1) else digitsValue buf

/-- `read_atom`; at most 31 characters of an atom are kept. -/
def readAtom : Run Node := fun s =>
  let atom := s.src.takeWhile fun c => !isDelim c
  let buf := atom.take 31
  let s := { s with src := s.src.dropWhile fun c => !isDelim c }
  if buf.isEmpty then .ok .null s
  else if isNum buf then newLvalNum (numValue buf) s
  else newLvalSym buf s

mutual

/-- `read_expr`, for at most `n` nested calls. -/
def readExprN : ℕ → Run Node
  | 0 => timeout
  | n + 1 => fun s =>
      let s := { s with src := skipSpace s.src }
      if cur s.src = 0 then .ok .null s
      else if cur s.src = 0x28 then readListN n { s with src := s.src.tail }
      else if cur s.src = 0x29 then newLvalErr (text "Unexpected ')'") s
      else readAtom s

/-- `read_list`. An error in the first element is returned as it is; one in the rest of
the list is not looked at. -/
def readListN : ℕ → Run Node
  | 0 => timeout
  | n + 1 => fun s =>
      let s := { s with src := skipSpace s.src }
      if cur s.src = 0x29 then newLvalNil { s with src := s.src.tail }
      else
        (do
          let first ← readExprN n
          match first with
          | .null => newLvalErr (text "EOF")
          | .err m => pure (.err m)
          | first =>
              let rest ← readListN n
              newLvalList first rest : Run Node) s

end

/-- `read_expr`: no call nests deeper than twice the text. -/
def readExpr : Run Node := fun s => readExprN (2 * s.src.length + 2) s

end LispDos.Lisp
