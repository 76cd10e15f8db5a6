import LispDos.Tools.LispEval

/-! # The run of a script

The last part of `_start` of `tools/lisp.c`: the script is in its buffer, and the process prints
what it evaluates to. -/

namespace LispDos.Lisp

/-- The value after "Resultado: ". -/
def resultValue : Node → List UInt8
  | .num n => printInt n
  | .sym s => s
  | .nil => text "nil"
  | .func _ _ => text "#<function>"
  | _ => []

def resultText : Option Node → List UInt8
  | none => []
  | some v => text "Resultado: " ++ resultValue v ++ text "\n"

/-- `_start` after the script has been read to `buffer`, with `index` bytes of the pool in use:
no global variables are left, and the loop reads the script. -/
def runScript (ev : Node → Run Node) (n : ℕ) (buffer : List UInt8) (index : ℕ) : ScriptEnd :=
  (scriptLoop ev n none ⟨buffer, index, [], text "Executando Script LISP...\n"⟩).2

/-- What the process has printed when `_start` calls `sys_exit`. -/
def ScriptEnd.shows : ScriptEnd → Option (List UInt8)
  | .finished last s => some (s.output ++ resultText last)
  | .parseError s => some s.output
  | .evalError s => some s.output
  | _ => none

end LispDos.Lisp
