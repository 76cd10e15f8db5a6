import LispDos.Tools.LispReader
import Mathlib.Data.Int.Notation

/-! # The start of the Lisp interpreter

The part of `_start` of `tools/lisp.c` that loads the script into the node pool. An `int` is
a word of 32 bits. -/

namespace LispDos.Lisp

/-- The results of the system calls 10 and 8, as `int`s. A read gives the size of the file,
0 or -1. -/
structure Volume where
  fileSize : List UInt8 → BitVec 32
  readFile : List UInt8 → BitVec 32
  outcome : ∀ filename, readFile filename = fileSize filename ∨ readFile filename = 0 ∨
    readFile filename = -1

/-- `lisp_malloc`: the index of the block in `memory_pool`, and `memory_pool_index`. -/
def lispMalloc (index size : BitVec 32) : Option (BitVec 32) × BitVec 32 :=
  if (poolSize : ℤ) < (index + size).toInt then (none, index) else (some index, index + size)

/-- The script in the pool: the index of `buffer`, the index of the byte that
`buffer[size] = 0` stores to, and `memory_pool_index`. -/
structure Script where
  fsize : BitVec 32
  buffer : BitVec 32
  terminator : ℤ
  index : BitVec 32

/-- The name of the script. -/
def scriptName : Option (List UInt8) → List UInt8
  | some (c :: cs) => c :: cs
  | _ => text "lisp.txt"

/-- `_start` up to the loop over the script, or the message before it exits. -/
def loadScript (v : Volume) (args : Option (List UInt8)) : Except (List UInt8) Script :=
  let filename := scriptName args
  let fsize := v.fileSize filename
  if fsize = 0 then .error (text "Erro: Arquivo nao encontrado ou vazio no HD.\n")
  else
    let block := lispMalloc 0 (fsize + 1)
    match block.1 with
    | none => .error (text "Erro: Script muito grande para o Memory Pool (1 MB).\n")
    | some buffer =>
        let size := v.readFile filename
        if size = 0 then .error (text "Erro ao ler arquivo do HD.\n")
        else .ok ⟨fsize, buffer, buffer.toInt + size.toInt, block.2⟩

end LispDos.Lisp
