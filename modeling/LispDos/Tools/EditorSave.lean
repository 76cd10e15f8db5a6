import LispDos.Kernel.Syscall
import LispDos.Tools.Editor

/-! # Saving from the editor

The `w` command of `tools/editor.c`, through the wrapper of `tools/syscalls.h` and the
system call. -/

namespace LispDos.Edit

open Console Memory Syscall

/-- The conversion of a returned register to `int`. -/
def toInt (v : Word) : ℤ := (v.setWidth 32).toInt

/-- `sys_fat16_write_file`: what the program receives, if the call returns. -/
def sysFat16WriteFile (k : Kernel) (dev : Devices) (filename buffer : Word) (size : UInt32) :
    Option (ℤ × Kernel) :=
  let run := syscallHandlerC k dev 9#64 filename buffer (BitVec.ofNat 64 size.toNat)
  match run.ending with
  | .returns value => some (toInt value, run.kernel)
  | .exits => none
  | .stuck => none

/-- What the editor prints after the call. -/
def saveMessage (written : ℤ) : List UInt8 :=
  if 0 < written then ascii "Arquivo salvo no HD (FAT16).\n"
  else ascii "Erro ao salvar o arquivo.\n"

/-- The `w` command from the call on: what is drawn before the editor exits. -/
def save (k : Kernel) (dev : Devices) (filename buffer : Word) (size : UInt32) :
    Option (List Op × Kernel) :=
  (sysFat16WriteFile k dev filename buffer size).map fun (written, k) =>
    ([.clear, .print (saveMessage written)], k)

end LispDos.Edit
