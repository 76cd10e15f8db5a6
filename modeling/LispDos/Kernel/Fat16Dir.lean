import LispDos.Hal.Vga
import LispDos.Kernel.Fat16
import Mathlib.Data.Nat.Digits.Defs

/-! # Listing the root directory

`fat16_dir` of `kernel/fat16.c`, as what it prints. -/

namespace LispDos

open Console

/-- The loops `if (name[j] != ' ') vga_putchar(name[j])`. -/
def visible (s : List UInt8) : List UInt8 := s.filter (· ≠ 0x20)

/-- The name that is printed for an entry. -/
def dirName (e : DirEntry) : List UInt8 :=
  visible (e.name.take 8) ++
    if (e.name.drop 8).headD 0x20 ≠ 0x20 then 0x2E :: visible (e.name.drop 8) else []

/-- The digits of `sz`, the last one first: the contents of `b`. -/
def sizeDigits (sz : ℕ) : List UInt8 := (Nat.digits 10 sz).map fun n => UInt8.ofNat (n + 0x30)

/-- What is printed for an entry. -/
def dirLine (e : DirEntry) : List Op :=
  (dirName e).map .putchar ++
    if e.attributes &&& 0x10 ≠ 0 then [.print (kernelText "\t<DIR>\n")]
    else
      .print (kernelText "\t<ARQUIVO>\t") ::
        ((if e.fileSize = 0 then [.print (kernelText "0")]
          else (sizeDigits e.fileSize).reverse.map .putchar) ++
            [.print (kernelText " bytes\n")])

/-- The body of the loops over the entries: those that are printed. -/
def dirLoop : List DirEntry → List DirEntry
  | [] => []
  | e :: es =>
      if e.mark = 0 then []
      else if e.mark = 0xE5 then dirLoop es
      else if e.attributes = 0x0F then dirLoop es
      else e :: dirLoop es

/-- The entries of the root directory in the order of the two loops. -/
def rootEntries (b : Bpb) (d : Disk) : List DirEntry :=
  (List.range b.rootDirSize).flatMap fun sec =>
    let rootSec := ataReadSector d (b.rootDirSector + sec)
    (List.range 16).map (dirEntryAt rootSec)

/-- The entries that `fat16_dir` prints. -/
def listed (b : Bpb) (d : Disk) : List DirEntry := dirLoop (rootEntries b d)

/-- `fat16_dir`. -/
def fat16Dir (b : Bpb) (d : Disk) : List Op :=
  .print (kernelText "\n Pasta do HD (FAT16):\n\n") :: ((listed b d).flatMap dirLine ++
    ((if (listed b d).length = 0 then
        [.print (kernelText "Nenhum arquivo encontrado no HD.\n")] else []) ++
      [.print (kernelText "\n")]))

end LispDos
