import LispDos.Foundation.Assembly

/-! # Segments and gates

The tables that `gdt_init` of `hal/gdt.c` and `idt_init` of `hal/idt.c` fill, as they lie in memory:
the first field of an entry has the least bits. -/

namespace LispDos.Descriptors

open Foundation.Assembly

/-! ## `gdt.c` -/

structure GdtEntry where
  limitLow : BitVec 16
  baseLow : BitVec 16
  baseMiddle : BitVec 8
  access : BitVec 8
  granularity : BitVec 8
  baseHigh : BitVec 8

def GdtEntry.bits (e : GdtEntry) : BitVec 64 :=
  e.baseHigh ++ e.granularity ++ e.access ++ e.baseMiddle ++ e.baseLow ++ e.limitLow

/-- `gdt_set_gate`. -/
def gdtSetGate (base limit : Word) (access gran : BitVec 8) : GdtEntry where
  baseLow := (base &&& 0xFFFF).setWidth 16
  baseMiddle := (base >>> 16 &&& 0xFF).setWidth 8
  baseHigh := (base >>> 24 &&& 0xFF).setWidth 8
  limitLow := (limit &&& 0xFFFF).setWidth 16
  granularity := (limit >>> 16 &&& 0x0F).setWidth 8 ||| gran &&& 0xF0
  access := access

/-- The size of `struct tss_entry`. -/
def tssSize : Word := 104

/-- `gdt` after `gdt_init`, with the address of `tss`. -/
def gdtInit (tssBase : Word) : List GdtEntry :=
  [gdtSetGate 0 0 0 0, gdtSetGate 0 0xFFFFF 0x9A 0xAF, gdtSetGate 0 0xFFFFF 0x92 0xAF,
    gdtSetGate 0 0xFFFFF 0xF2 0xAF, gdtSetGate 0 0xFFFFF 0xFA 0xAF,
    gdtSetGate tssBase (tssSize - 1) 0x89 0x00,
    { limitLow := (tssBase >>> 32 &&& 0xFFFF).setWidth 16
      baseLow := (tssBase >>> 48 &&& 0xFFFF).setWidth 16
      baseMiddle := 0
      access := 0
      granularity := 0
      baseHigh := 0 }]

/-! ## `idt.c` -/

structure IdtEntry where
  isrLow : BitVec 16
  kernelCs : BitVec 16
  ist : BitVec 8
  attributes : BitVec 8
  isrMid : BitVec 16
  isrHigh : BitVec 32
  reserved : BitVec 32

def IdtEntry.bits (e : IdtEntry) : BitVec 128 :=
  e.reserved ++ e.isrHigh ++ e.isrMid ++ e.attributes ++ e.ist ++ e.kernelCs ++ e.isrLow

/-- `idt_set_descriptor`. -/
def idtSetDescriptor (idt : ℕ → IdtEntry) (vector : ℕ) (isr : Word) (flags : BitVec 8) :
    ℕ → IdtEntry :=
  Function.update idt vector
    { isrLow := (isr &&& 0xFFFF).setWidth 16
      kernelCs := 0x08
      ist := 0
      attributes := flags
      isrMid := (isr >>> 16 &&& 0xFFFF).setWidth 16
      isrHigh := (isr >>> 32 &&& 0xFFFFFFFF).setWidth 32
      reserved := 0 }

/-- `idt_init`, with the addresses of `isr0` to `isr31` and of `isr_keyboard`. -/
def idtInit (isrs : ℕ → Word) (isrKeyboard : Word) (idt : ℕ → IdtEntry) : ℕ → IdtEntry :=
  let idt := (List.range 256).foldl (fun idt vector => idtSetDescriptor idt vector (isrs 0) 0x8E) idt
  let idt := (List.range 32).foldl (fun idt i => idtSetDescriptor idt i (isrs i) 0x8E) idt
  idtSetDescriptor idt 33 isrKeyboard 0x8E

end LispDos.Descriptors
