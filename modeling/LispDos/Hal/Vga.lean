import Mathlib.Data.List.Basic
import Mathlib.Tactic.Ring

/-! # The console

`hal/vga.c` with a framebuffer: the cursor in cells of 16 by 16 pixels, the two colours, and
the accesses that the functions make to the framebuffer and to the font. -/

namespace LispDos.Console

/-- `size_t` and `uint64_t`. -/
abbrev Size := BitVec 64

/-- The fields of `struct limine_framebuffer` that the console reads. -/
structure Framebuffer where
  width : Size
  height : Size
  pitch : Size

/-- `terminal_row`, `terminal_column`, `fg_color` and `bg_color`. -/
structure Terminal where
  row : Size
  column : Size
  fgColor : UInt32
  bgColor : UInt32

/-- The values of the statics before `vga_init`. -/
def Terminal.start : Terminal := ⟨0, 0, 0x00FF00, 0x000000⟩

/-- A store to `fb_ptr[index]`, or an access to a row of `font8x8_basic`. -/
inductive Draw where
  | pixel (index : Size) (color : UInt32)
  | glyph (row : ℕ)
  deriving DecidableEq

section

variable (fb : Framebuffer) (t : Terminal)

/-- `vga_clear`. -/
def vgaClear : Terminal × List Draw :=
  ({ t with row := 0, column := 0 },
    (List.range (fb.width * fb.height).toNat).map fun i => .pixel (BitVec.ofNat 64 i) t.bgColor)

/-- `vga_set_cursor`. -/
def vgaSetCursor (row col : Size) : Terminal × List Draw := ({ t with row := row, column := col }, [])

/-- The table of `vga_set_color`. -/
def colors : List UInt32 :=
  [0x000000, 0x0000AA, 0x00AA00, 0x00AAAA, 0xAA0000, 0xAA00AA, 0xAA5500, 0xAAAAAA,
    0x555555, 0x5555FF, 0x55FF55, 0x55FFFF, 0xFF5555, 0xFF55FF, 0xFFFF55, 0xFFFFFF]

/-- `vga_set_color`. -/
def vgaSetColor (fg bg : UInt8) : Terminal × List Draw :=
  ({ t with
    fgColor := colors.getD (fg &&& 0x0F).toNat 0
    bgColor := colors.getD (bg &&& 0x0F).toNat 0 }, [])

/-- The index of a pixel of the cell at the cursor. -/
def pixelIndex (y x : ℕ) : Size :=
  (t.row * 16 + BitVec.ofNat 64 y) * (fb.pitch / 4) + (t.column * 16 + BitVec.ofNat 64 x)

/-- `++terminal_row`, back to the top after the last row. -/
def nextRow : Size := if fb.height / 16 ≤ t.row + 1 then 0 else t.row + 1

/-- One step back, over the start of a row. -/
def stepBack : Terminal :=
  if 0 < t.column then { t with column := t.column - 1 }
  else if 0 < t.row then { t with row := t.row - 1, column := fb.width / 16 - 1 }
  else t

/-- One step forward. -/
def stepForward : Terminal :=
  if fb.width / 16 ≤ t.column + 1 then { t with row := nextRow fb t, column := 0 }
  else { t with column := t.column + 1 }

/-- The loops that clear the cell at the cursor. -/
def clearCell : List Draw :=
  (List.range 16).flatMap fun y =>
    (List.range 16).map fun x => .pixel (pixelIndex fb t y x) t.bgColor

/-- The loops that draw a glyph in double size, for the table `font8x8_basic`. -/
def drawGlyph (font : ℕ → ℕ → UInt8) (c : UInt8) : List Draw :=
  (List.range 8).flatMap fun y =>
    .glyph c.toNat :: (List.range 8).flatMap fun x =>
      let color :=
        if (font c.toNat y).toNat.testBit x then t.fgColor else t.bgColor
      (List.range 2).flatMap fun sy =>
        (List.range 2).map fun sx => .pixel (pixelIndex fb t (y * 2 + sy) (x * 2 + sx)) color

/-- `vga_putchar`. -/
def vgaPutchar (font : ℕ → ℕ → UInt8) (c : UInt8) : Terminal × List Draw :=
  if c = 0x08 then
    let t := stepBack fb t
    (t, clearCell fb t)
  else if c = 0x0A then ({ t with row := nextRow fb t, column := 0 }, [])
  else (stepForward fb t, drawGlyph fb t font c)

/-- `vga_print`, up to the terminator. -/
def vgaPrint (font : ℕ → ℕ → UInt8) : Terminal → List UInt8 → Terminal × List Draw
  | t, [] => (t, [])
  | t, c :: cs =>
      if c = 0 then (t, [])
      else
        let (t, draws) := vgaPutchar fb t font c
        let (t, rest) := vgaPrint font t cs
        (t, draws ++ rest)

end

/-- `vga_get_max_rows`. -/
def vgaGetMaxRows (fb : Framebuffer) : Size := fb.height / 16

/-! ## Runs -/

/-- The bytes of a text that the kernel prints. -/
def kernelText (s : String) : List UInt8 := s.toList.map fun c => UInt8.ofNat c.toNat

/-- What programs reach through the system calls 1 to 5, and the kernel directly. -/
inductive Op where
  | print (data : List UInt8)
  | clear
  | setCursor (row col : Size)
  | putchar (c : UInt8)
  | setColor (fg bg : UInt8)

def Op.exec (fb : Framebuffer) (font : ℕ → ℕ → UInt8) (t : Terminal) : Op → Terminal × List Draw
  | .print data => vgaPrint fb font t data
  | .clear => vgaClear fb t
  | .setCursor row col => vgaSetCursor t row col
  | .putchar c => vgaPutchar fb t font c
  | .setColor fg bg => vgaSetColor t fg bg

/-- The digits that `vga_print_hex` puts into its buffer. -/
def hexDigits (n : ℕ) : List UInt8 :=
  if h : n = 0 then []
  else
    (if n % 16 < 10 then 0x30 + UInt8.ofNat (n % 16) else 0x41 + UInt8.ofNat (n % 16 - 10)) ::
      hexDigits (n / 16)
termination_by n
decreasing_by exact Nat.div_lt_self (Nat.pos_of_ne_zero h) (by decide)

/-- `vga_print_hex`. -/
def vgaPrintHex (n : Size) : List Op :=
  .print (kernelText "0x") ::
    (if n = 0 then [0x30] else (hexDigits n.toNat).reverse).map .putchar

/-- The accesses of a sequence of operations. -/
def execAll (fb : Framebuffer) (font : ℕ → ℕ → UInt8) : Terminal → List Op → Terminal × List Draw
  | t, [] => (t, [])
  | t, op :: ops =>
      let (t, draws) := op.exec fb font t
      let (t, rest) := execAll fb font t ops
      (t, draws ++ rest)

/-- The accesses from `vga_init` on. -/
def consoleRun (fb : Framebuffer) (font : ℕ → ℕ → UInt8) (ops : List Op) : List Draw :=
  (execAll fb font .start (.clear :: ops)).2

end LispDos.Console
