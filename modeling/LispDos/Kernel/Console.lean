import LispDos.Hal.Vga
import LispDos.Kernel.Raw
import LispDos.Kernel.UserMemory
import LispDos.Kernel.Fat16

/-! # The kernel and its console

The console stores pixels through a pointer to the framebuffer. What lies in the framebuffer is
memory of the display; a pixel beside it is stored wherever the tables of the active address space
lead. -/

namespace LispDos.Syscall

open Console Memory

/-- An access of the kernel to the memory of the program, or the store of a byte of a pixel. -/
inductive Access where
  | read (a : Word)
  | write (a : Word)
  deriving DecidableEq

def reads (as : List Word) : List Access := as.map .read

def writes (as : List Word) : List Access := as.map .write

/-- The framebuffer and its address, `font8x8_basic` with what lies behind it, and the variables of
`vga.c`. -/
structure Display where
  fb : Framebuffer
  address : Word
  font : ℕ → ℕ → UInt8
  terminal : Terminal

/-- The pixels of the framebuffer. -/
def Display.pixels (s : Display) : ℕ := s.fb.height.toNat * (s.fb.pitch.toNat / 4)

/-- The addresses of the bytes of `fb_ptr[index]`. -/
def Display.bytes (s : Display) (index : Size) : List Word := addresses (s.address + 4#64 * index) 4

/-- The machine with the physical address in CR3, the display, and the mounted volume. -/
structure Kernel where
  machine : Raw.Machine
  cr3 : Word
  display : Display
  bpb : Bpb
  disk : Disk

namespace Kernel

variable (k : Kernel)

/-- The page of the active PML4. -/
def root : ℕ := k.cr3.toNat / 4096

/-- The byte at an address of the active address space. -/
def load (v : Word) : UInt8 := loadVirt k.machine.mem k.root v

def store (v : Word) (x : UInt8) : Kernel :=
  { k with machine := { k.machine with mem := storeVirt k.machine.mem k.root v x } }

/-- `fb_ptr[index] = color`. -/
def setPixel (index : Size) (color : UInt32) : Kernel :=
  if index.toNat < k.display.pixels then k
  else
    (List.range 4).foldl (fun k i => k.store (k.display.address + 4#64 * index + BitVec.ofNat 64 i)
      (UInt8.ofNat (color.toNat / 256 ^ i))) k

def draw : Draw → Kernel
  | .pixel index color => k.setPixel index color
  | .glyph _ => k

def setTerminal (t : Terminal) : Kernel := { k with display := { k.display with terminal := t } }

end Kernel

/-- The bytes that are stored. -/
def Display.stores (s : Display) : Draw → List Access
  | .pixel index _ => writes (s.bytes index)
  | .glyph _ => []

/-- The kernel after a part of its work, and the accesses in it. -/
structure Work where
  kernel : Kernel
  log : List Access

/-- An operation of the console. -/
def Kernel.show (k : Kernel) (op : Op) : Work :=
  let r := op.exec k.display.fb k.display.font k.display.terminal
  ⟨(r.2.foldl Kernel.draw k).setTerminal r.1, r.2.flatMap k.display.stores⟩

def Kernel.showAll (k : Kernel) : List Op → Work
  | [] => ⟨k, []⟩
  | op :: ops =>
      let first := k.show op
      let rest := first.kernel.showAll ops
      ⟨rest.kernel, first.log ++ rest.log⟩

/-- A string that has been printed from memory. -/
structure Printed extends Work where
  data : List UInt8

/-- `vga_print` on a pointer of the program. Each character is read when those before it have been
drawn. -/
def Kernel.vgaPrint (k : Kernel) (v : Word) : Printed :=
  if _hv : v < lowerLimit then
    let c := k.load v
    if c = 0 then ⟨⟨k, [.read v]⟩, []⟩
    else
      let first := k.show (.putchar c)
      let rest := first.kernel.vgaPrint (v + 1#64)
      ⟨⟨rest.kernel, .read v :: (first.log ++ rest.log)⟩, c :: rest.data⟩
  else ⟨⟨k, [.read v]⟩, []⟩
termination_by 2 ^ 64 - v.toNat
decreasing_by exact rest_lt _hv

end LispDos.Syscall
