import Mathlib.Data.List.Basic
import Mathlib.Logic.Function.Basic
import Mathlib.Tactic.Common

/-! # The keyboard driver

`hal/keyboard.c`: the interrupt handler that decodes scancodes into a buffer of 256
characters, and the function that takes characters out of it. -/

namespace LispDos.Input

/-! ## Tables -/

def ascii (s : String) : List UInt8 := s.toList.map fun c => UInt8.ofNat c.toNat

/-- `scancode_to_ascii`. -/
def scancodeToAscii : List UInt8 :=
  [0, 27] ++ ascii "1234567890-=" ++ [0x08, 0x09] ++ ascii "qwertyuiop[]" ++ [0x0A, 0] ++
    ascii "asdfghjkl;'" ++ [0x60, 0] ++ ascii "\\zxcvbnm,./" ++ [0] ++ ascii "*" ++ [0] ++ ascii " "

/-- `scancode_to_ascii_shift`. -/
def scancodeToAsciiShift : List UInt8 :=
  [0, 27] ++ ascii "!@#$%^&*()_+" ++ [0x08, 0x09] ++ ascii "QWERTYUIOP\x7b\x7d" ++ [0x0A, 0] ++
    ascii "ASDFGHJKL:" ++ [0x22, 0x7E, 0] ++ ascii "|ZXCVBNM<>?" ++ [0] ++ ascii "*" ++ [0] ++
    ascii " "

/-- The character of a make code, zero beyond the end of the table. -/
def tableChar (shift : Bool) (scancode : UInt8) : UInt8 :=
  if scancode.toNat < scancodeToAscii.length then
    (if shift then scancodeToAsciiShift else scancodeToAscii).getD scancode.toNat 0
  else 0

/-- The codes of the arrow keys, zero for other keys. -/
def arrowChar (scancode : UInt8) : UInt8 :=
  if scancode = 0x48 then 128
  else if scancode = 0x50 then 129
  else if scancode = 0x4B then 130
  else if scancode = 0x4D then 131
  else 0

/-! ## The interrupt handler -/

/-- The variables of the driver: `keyboard_buffer` with `kbd_head` and `kbd_tail`, and the
flags `shift_pressed` and `e0_pressed`. -/
structure Keyboard where
  buffer : ℕ → UInt8
  head : ℕ
  tail : ℕ
  shiftPressed : Bool
  e0Pressed : Bool

/-- The variables at the start of the kernel. -/
def Keyboard.start : Keyboard := ⟨fun _ => 0, 0, 0, false, false⟩

/-- The flags after a scancode, and the character that it gives, zero for none. -/
def decode (k : Keyboard) (scancode : UInt8) : Keyboard × UInt8 :=
  if scancode = 0xE0 then ({ k with e0Pressed := true }, 0)
  else if scancode = 0x2A ∨ scancode = 0x36 then ({ k with shiftPressed := true }, 0)
  else if scancode = 0xAA ∨ scancode = 0xB6 then ({ k with shiftPressed := false }, 0)
  else if scancode &&& 0x80 = 0 then
    if k.e0Pressed then ({ k with e0Pressed := false }, arrowChar scancode)
    else (k, tableChar k.shiftPressed scancode)
  -- the release of a key
  else ({ k with e0Pressed := false }, 0)

/-- `if (c) { keyboard_buffer[kbd_head] = c; … }`. -/
def Keyboard.store (k : Keyboard) (c : UInt8) : Keyboard :=
  if c ≠ 0 then
    { k with buffer := Function.update k.buffer k.head c, head := (k.head + 1) % 256 }
  else k

/-- `keyboard_handler`, for the byte that the controller has, if its status shows one. -/
def keyboardHandler (k : Keyboard) : Option UInt8 → Keyboard
  | none => k
  | some scancode =>
      let (k, c) := decode k scancode
      k.store c

/-! ## The reader -/

/-- Where `keyboard_getchar` is: before the test of the indices, before the access to the
buffer, or before the store to `kbd_tail`, with the character that it is going to return. -/
inductive Getchar where
  | test
  | read
  | advance (c : UInt8)
  deriving DecidableEq

/-- The driver, the state of `keyboard_getchar`, and the characters that the handler has
stored and that `keyboard_getchar` has returned so far. -/
structure System where
  keyboard : Keyboard
  getchar : Getchar
  stored : List UInt8
  returned : List UInt8

/-- What happens next: an interrupt of the keyboard, or a step of `keyboard_getchar`. -/
inductive Event where
  | interrupt (input : Option UInt8)
  | getchar

/-- The character that the handler stores for an input. -/
def storedChar (k : Keyboard) : Option UInt8 → List UInt8
  | none => []
  | some scancode =>
      let c := (decode k scancode).2
      if c ≠ 0 then [c] else []

/-- One step of `keyboard_getchar`. The test is repeated until there is a character. -/
def getcharStep (s : System) : System :=
  match s.getchar with
  | .test => if s.keyboard.head ≠ s.keyboard.tail then { s with getchar := .read } else s
  | .read => { s with getchar := .advance (s.keyboard.buffer s.keyboard.tail) }
  | .advance c => { s with
      keyboard := { s.keyboard with tail := (s.keyboard.tail + 1) % 256 }
      getchar := .test
      returned := s.returned ++ [c] }

def System.step (s : System) : Event → System
  | .interrupt input => { s with
      keyboard := keyboardHandler s.keyboard input
      stored := s.stored ++ storedChar s.keyboard input }
  | .getchar => getcharStep s

/-- The system after the events, in any order. -/
def run (events : List Event) : System :=
  events.foldl System.step ⟨Keyboard.start, .test, [], []⟩

end LispDos.Input
