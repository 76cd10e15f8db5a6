import LispDos.Foundation.Loop
import LispDos.Hal.Vga
import LispDos.Kernel.Tarfs

/-! # The walks over the ramdisk

The four functions of `tarfs.c` with every access to the ramdisk checked: a read at an offset
from `ramdisk_size` on gives nothing, and the function that makes it gives nothing. -/

namespace LispDos.Tarfs

open Console Foundation

/-! ## Accesses -/

/-- A byte of the ramdisk. -/
def Ramdisk.read (r : Ramdisk) (offset : ℕ) : Option UInt8 :=
  if offset < r.size then some (r.bytes offset) else none

/-- `octal_to_int` with checked accesses. -/
def octalToIntIn (r : Ramdisk) : ℕ → ℕ → ℕ → Option ℕ
  | _, 0, n => some n
  | offset, size + 1, n => do
      let c ← r.read offset
      if c = 0 then some n
      else
        octalToIntIn r (offset + 1) size
          (if 0x30 ≤ c ∧ c ≤ 0x37 then n * 8 + (c.toNat - 0x30) else n)

/-- `strcmp(header->name, filename) == 0` with checked accesses. -/
def sameNameIn (r : Ramdisk) : ℕ → List UInt8 → Option Bool
  | offset, [] => do
      let c ← r.read offset
      some (c == 0)
  | offset, d :: filename => do
      let c ← r.read offset
      if c = d then sameNameIn r (offset + 1) filename else some false

/-- The characters that `vga_print(header->name)` prints, up to a zero. Each access moves on, so
that after `n` more of them the ramdisk has ended. -/
def printedIn (r : Ramdisk) : ℕ → ℕ → Option (List UInt8)
  | 0, _ => none
  | n + 1, offset => do
      let c ← r.read offset
      if c = 0 then some []
      else
        let rest ← printedIn r n (offset + 1)
        some (c :: rest)

/-- The data of a file, byte after byte. -/
def dataIn (r : Ramdisk) : ℕ → ℕ → Option (List UInt8)
  | _, 0 => some []
  | offset, size + 1 => do
      let c ← r.read offset
      let rest ← dataIn r (offset + 1) size
      some (c :: rest)

/-! ## The loop -/

/-- `offset`, and what has been printed. -/
structure Walk where
  offset : ℕ
  screen : List Op

/-- A round of a walk. What it does with a header of a given size is `visit`: it prints, and may
leave the loop with a result. The loop is also left at the end of the archive, and nothing comes
of an access outside of the ramdisk. -/
def tarRound {β : Type} (r : Ramdisk) (visit : ℕ → ℕ → Option (List Op × Option β)) (w : Walk) :
    LoopStep Walk (Option (List Op × Option β)) :=
  if w.offset < r.size then
    match r.read w.offset with
    | none => .leave none
    | some c =>
        if c = 0 then .leave (some (w.screen, none))
        else
          match octalToIntIn r (w.offset + sizeField) 11 0 with
          | none => .leave none
          | some size =>
              match visit w.offset size with
              | none => .leave none
              | some (ops, some x) => .leave (some (w.screen ++ ops, some x))
              | some (ops, none) =>
                  .next ⟨(w.offset + (512 + (size + 511) / 512 * 512)) % 2 ^ 64, w.screen ++ ops⟩
  else .leave (some (w.screen, none))

/-- The walk from the first header on comes to an end within the ramdisk. -/
def WalkReturns {β : Type} (r : Ramdisk) (visit : ℕ → ℕ → Option (List Op × Option β))
    (screen : List Op) (result : Option β) : Prop :=
  LoopReturns (tarRound r visit) ⟨0, []⟩ (some (screen, result))

/-! ## The four functions -/

/-- The offset of `typeflag` in a header. -/
def typeField : ℕ := 156

/-- The body of `tarfs_dir`. -/
def visitDir (r : Ramdisk) (offset _size : ℕ) : Option (List Op × Option Unit) := do
  let typeflag ← r.read (offset + typeField)
  if typeflag ≠ 0x35 then
    let name ← printedIn r (r.size - offset) offset
    some ([.print name, .print (kernelText "    <ARQUIVO>\n")], none)
  else some ([], none)

/-- The body of `tarfs_type`. -/
def visitType (r : Ramdisk) (filename : List UInt8) (offset size : ℕ) :
    Option (List Op × Option Unit) := do
  if ← sameNameIn r offset filename then
    let data ← dataIn r (offset + 512) size
    some ((data.filter (· ≠ 0x0D)).map .putchar ++ [.print (kernelText "\n")], some ())
  else some ([], none)

/-- The body of `tarfs_get_file_size`. -/
def visitSize (r : Ramdisk) (filename : List UInt8) (offset size : ℕ) :
    Option (List Op × Option ℕ) := do
  if ← sameNameIn r offset filename then some ([], some size) else some ([], none)

/-- The body of `tarfs_read_file`: the bytes that it stores in the buffer. -/
def visitRead (r : Ramdisk) (filename : List UInt8) (offset size : ℕ) :
    Option (List Op × Option (List UInt8)) := do
  if ← sameNameIn r offset filename then
    let data ← dataIn r (offset + 512) size
    some ([], some data)
  else some ([], none)

/-- The argument of `type` without the spaces before it. -/
def skipSpaces (filename : List UInt8) : List UInt8 := filename.dropWhile (· = 0x20)

/-- `tarfs_dir` returns and has printed that. -/
def TarfsDir (r : Ramdisk) (printed : List Op) : Prop :=
  ∃ screen left, WalkReturns r (visitDir r) screen left ∧
    printed = .print (kernelText "\n Pasta de C:\\\n\n") ::
      (screen ++ if screen.length = 0 then [.print (kernelText "Arquivo nao encontrado\n")]
        else [.print (kernelText "\n")])

/-- `tarfs_type` returns and has printed that. -/
def TarfsType (r : Ramdisk) (filename : List UInt8) (printed : List Op) : Prop :=
  ∃ screen found, WalkReturns r (visitType r (skipSpaces filename)) screen found ∧
    printed = if found.isSome then screen
      else screen ++ [.print (kernelText "O sistema nao pode encontrar o arquivo especificado.\n")]

/-- `tarfs_get_file_size` returns that size. -/
def TarfsGetFileSize (r : Ramdisk) (filename : List UInt8) (size : ℕ) : Prop :=
  ∃ screen found, WalkReturns r (visitSize r filename) screen found ∧ size = found.getD 0

/-- `tarfs_read_file` returns that, and has stored the data in the buffer. -/
def TarfsReadFile (r : Ramdisk) (filename : List UInt8) (result : ℤ × List UInt8) : Prop :=
  ∃ screen found, WalkReturns r (visitRead r filename) screen found ∧
    result = (toInt32 (found.getD []).length, found.getD [])

end LispDos.Tarfs
