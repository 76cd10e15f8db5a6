import LispDos.Kernel.Fat16
import LispDos.Kernel.Vmm

/-! # Bytes of physical memory

Accesses of the kernel through byte pointers. A word holds eight bytes, the least
significant one first. -/

namespace LispDos.Memory

/-- Byte `k` of a word. -/
def wordByte (w : Word) (k : ℕ) : UInt8 := UInt8.ofBitVec ((w >>> (8 * k)).setWidth 8)

/-- The word after a store to its byte `k`. -/
def setWordByte (w : Word) (k : ℕ) (x : UInt8) : Word :=
  w &&& ~~~(0xFF#64 <<< (8 * k)) ||| x.toBitVec.setWidth 64 <<< (8 * k)

/-- The byte at a physical address. -/
def loadByte (mem : PhysMem) (a : ℕ) : UInt8 := wordByte (mem (a / 4096) (a % 4096 / 8)) (a % 8)

def storeByte (mem : PhysMem) (a : ℕ) (x : UInt8) : PhysMem :=
  writeWord mem (a / 4096) (a % 4096 / 8)
    (setWordByte (mem (a / 4096) (a % 4096 / 8)) (a % 8) x)

/-- The byte at an offset from a pointer. -/
def byteAt (mem : PhysMem) (base : Word) (i : ℕ) : UInt8 :=
  loadByte mem (base + BitVec.ofNat 64 i).toNat

/-- `memcpy`: one byte after the other, each read just before it is stored. -/
def memcpy (mem : PhysMem) (dest src : Word) (n : ℕ) : PhysMem :=
  (List.range n).foldl (fun mem i =>
    storeByte mem (dest + BitVec.ofNat 64 i).toNat (byteAt mem src i)) mem

/-- Stores through a pointer, at offsets from it. -/
def storeAt (mem : PhysMem) (base : Word) (stores : List Store) : PhysMem :=
  stores.foldl (fun mem s => storeByte mem (base + BitVec.ofNat 64 s.1).toNat s.2) mem

/-- A little-endian field of `n` bytes, `n` at most 8. -/
def leField (f : ℕ → UInt8) : ℕ → Word
  | 0 => 0#64
  | n + 1 => (f 0).toBitVec.setWidth 64 ||| leField (fun i => f (i + 1)) n <<< 8

def loadField (mem : PhysMem) (base : Word) (n : ℕ) : Word := leField (byteAt mem base) n

/-- The call `pmm_alloc_pages(count)`. -/
def Machine.allocPages (m : Machine) (count : Word) : Word × Machine :=
  ((pmmAllocPages m.pmm count).1,
    { m with
      pmm := (pmmAllocPages m.pmm count).2
      cursor := (pmmAllocPages_cases m.cursor count).cursor m.cursor
      physical := (pmmAllocPages_cases m.cursor count).highest ▸ m.physical })

@[simp] theorem Machine.allocPages_pmm (m : Machine) (count : Word) :
    (m.allocPages count).2.pmm = (pmmAllocPages m.pmm count).2 := rfl

@[simp] theorem Machine.allocPages_mem (m : Machine) (count : Word) :
    (m.allocPages count).2.mem = m.mem := rfl

@[simp] theorem Machine.allocPages_kernelPml4 (m : Machine) (count : Word) :
    (m.allocPages count).2.kernelPml4 = m.kernelPml4 := rfl

end LispDos.Memory
