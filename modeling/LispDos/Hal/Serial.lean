import LispDos.Foundation.Ports

/-! # The serial port

`hal/serial.c` over any device behind the ports of COM1. A string is what stands before its
terminator. -/

namespace LispDos.Serial

open Foundation

def port : UInt16 := 0x3F8

variable {σ : Type*} (bus : Bus σ)

def serialInit (s : σ) : σ :=
  [(port + 1, 0x00), (port + 3, 0x80), (port + 0, 0x03), (port + 1, 0x00), (port + 3, 0x03),
    (port + 2, 0xC7), (port + 4, 0x0B)].foldl (fun s (w : UInt16 × UInt8) => bus.outb w.1 w.2 s) s

/-- `is_transmit_empty`. -/
def isTransmitEmpty (s : σ) : UInt8 × σ :=
  let r := bus.inb (port + 5) s
  (r.1 &&& 0x20, r.2)

/-- One round of the loop of `serial_putchar`. -/
def emptyRound (s : σ) : LoopStep σ σ :=
  let r := isTransmitEmpty bus s
  if r.1 = 0 then .next r.2 else .leave r.2

/-- `serial_putchar` returns. -/
inductive SerialPutchar (a : UInt8) (s : σ) : σ → Prop where
  | intro (t : σ) (empty : LoopReturns (emptyRound bus) s t) : SerialPutchar a s (bus.outb port a t)

/-- `serial_print` returns. -/
inductive SerialPrint : List UInt8 → σ → σ → Prop where
  | done (s : σ) : SerialPrint [] s s
  | char {a str s t u} (first : SerialPutchar bus a s t) (others : SerialPrint str t u) :
      SerialPrint (a :: str) s u

/-- A row of calls of `serial_print`. -/
inductive SerialPrints : List (List UInt8) → σ → σ → Prop where
  | done (s : σ) : SerialPrints [] s s
  | print {str strs s t u} (first : SerialPrint bus str s t) (others : SerialPrints strs t u) :
      SerialPrints (str :: strs) s u

end LispDos.Serial
