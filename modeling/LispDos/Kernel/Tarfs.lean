import LispDos.Kernel.Fat16

/-! # The initial ramdisk

Look-ups in the archive of `tarfs.c`. The archive is read through a pointer, so a
malformed one is read beyond its end. -/

namespace LispDos.Tarfs

/-- The memory from `ramdisk_base` on and `ramdisk_size`. A module that the boot loader
has placed lies in physical memory. -/
structure Ramdisk where
  bytes : ℕ → UInt8
  size : ℕ
  physical : size ≤ 2 ^ 52

/-- `octal_to_int` for a field at `offset`; other characters than digits are skipped. -/
def octalToInt (bytes : ℕ → UInt8) : ℕ → ℕ → ℕ → ℕ
  | _, 0, n => n
  | offset, size + 1, n =>
      let c := bytes offset
      if c = 0 then n
      else
        octalToInt bytes (offset + 1) size
          (if 0x30 ≤ c ∧ c ≤ 0x37 then n * 8 + (c.toNat - 0x30) else n)

/-- `strcmp(header->name, filename) == 0` for a name at `offset`. -/
def sameName (bytes : ℕ → UInt8) : ℕ → List UInt8 → Bool
  | offset, [] => bytes offset == 0
  | offset, c :: cs => bytes offset == c && sameName bytes (offset + 1) cs

/-- The offset of the size field of a header. -/
def sizeField : ℕ := 124

/-- The walk over the archive, for at most `n` headers: the offset of the header with the
name and its size. A header takes 512 bytes and its data whole blocks. -/
def findEntry (r : Ramdisk) (filename : List UInt8) : ℕ → ℕ → Option (ℕ × ℕ)
  | 0, _ => none
  | n + 1, offset =>
      if offset < r.size then
        if r.bytes offset = 0 then none
        else
          let size := octalToInt r.bytes (offset + sizeField) 11 0
          if sameName r.bytes offset filename then some (offset, size)
          else findEntry r filename n (offset + (512 + (size + 511) / 512 * 512))
      else none

/-- The entry of that name; each round of the walk moves on by a header at least. -/
def lookup (ramdisk : Option Ramdisk) (filename : List UInt8) : Option (ℕ × ℕ) :=
  ramdisk.bind fun r => findEntry r filename (r.size / 512 + 1) 0

/-- `tarfs_get_file_size`. -/
def tarfsGetFileSize (ramdisk : Option Ramdisk) (filename : List UInt8) : ℕ :=
  ((lookup ramdisk filename).map Prod.snd).getD 0

/-- `tarfs_read_file`: the result and the stores into the buffer. -/
def tarfsReadFile (ramdisk : Option Ramdisk) (filename : List UInt8) : ℤ × List Store :=
  match ramdisk, lookup ramdisk filename with
  | some r, some (offset, size) =>
      (toInt32 size, (List.range size).map fun i => (i, r.bytes (offset + 512 + i)))
  | _, _ => (0, [])

end LispDos.Tarfs
