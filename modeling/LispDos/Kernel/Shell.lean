import LispDos.Hal.Vga

/-! # The shell

The loop of `_start` in `kernel/main.c`: a command line is read key by key into `command`, and
split at its first space into `cmd_name` and `args`. The length of a list is the size of the
array; a store behind the end gives nothing. -/

namespace LispDos.Shell

open Console

/-- `a[i] = c`. -/
def put (a : List UInt8) (i : ℕ) (c : UInt8) : Option (List UInt8) :=
  if i < a.length then some (a.set i c) else none

/-! ## Reading a line -/

/-- `command`, `cmd_len`, and what has been printed for the keys. -/
structure Line where
  command : List UInt8
  cmdLen : ℕ
  screen : List Op

/-- A key other than the newline. -/
def Line.key (l : Line) (c : UInt8) : Option Line :=
  if c = 0x08 then
    some (if 0 < l.cmdLen then
      { l with cmdLen := l.cmdLen - 1, screen := l.screen ++ [.putchar 0x08] } else l)
  else
    let l := { l with screen := l.screen ++ [.putchar c] }
    if l.cmdLen < 255 then do
      let command ← put l.command l.cmdLen c
      some { l with command := command, cmdLen := l.cmdLen + 1 }
    else some l

/-- The newline: `command` is ended with a zero. -/
def Line.finish (l : Line) : Option Line := do
  let command ← put l.command l.cmdLen 0
  some { l with command := command, screen := l.screen ++ [.putchar 0x0A] }

/-- The inner loop: the line at the newline, or no line yet when the keys run out. -/
def Line.read : Line → List UInt8 → Option (Option Line)
  | _, [] => some none
  | l, c :: keys =>
      if c = 0x0A then l.finish.map some
      else do
        let l ← l.key c
        l.read keys

/-! ## Splitting the line -/

/-- `for (i = 0; i < cmd_len; i++) if (command[i] == ' ') { space_idx = i; break; }`, entered at
`i` with `n` rounds to go. -/
def findSpace (command : List UInt8) : ℕ → ℕ → Option (Option ℕ)
  | 0, _ => some none
  | n + 1, i => do
      let c ← command[i]?
      if c = 0x20 then some (some i) else findSpace command n (i + 1)

/-- `dst[j++] = src[i++]`, `n` times. -/
def copyLoop (src : List UInt8) : ℕ → ℕ → ℕ → List UInt8 → Option (List UInt8)
  | 0, _, _, dst => some dst
  | n + 1, i, j, dst => do
      let c ← src[i]?
      let dst ← put dst j c
      copyLoop src n (i + 1) (j + 1) dst

/-- A copy with a terminator behind it. -/
def copyWord (src : List UInt8) (n i : ℕ) (dst : List UInt8) : Option (List UInt8) := do
  let dst ← copyLoop src n i 0 dst
  put dst n 0

/-- The lines from the search for a space to the call of `strcmp`: `cmd_name` and `args`. -/
def split (command : List UInt8) (cmdLen : ℕ) (cmdName args : List UInt8) :
    Option (List UInt8 × List UInt8) := do
  let spaceIdx ← findSpace command cmdLen 0
  let cmdName ← put cmdName 0 0
  let args ← put args 0 0
  match spaceIdx with
  | some spaceIdx =>
      let cmdName ← copyWord command (if spaceIdx < 31 then spaceIdx else 31) 0 cmdName
      let args ← copyWord command (cmdLen - (spaceIdx + 1)) (spaceIdx + 1) args
      some (cmdName, args)
  | none =>
      let cmdName ← copyWord command (if cmdLen < 31 then cmdLen else 31) 0 cmdName
      some (cmdName, args)

/-- The arrays of the shell with whatever is in them. -/
structure Arrays where
  command : List UInt8
  cmdName : List UInt8
  args : List UInt8
  command_length : command.length = 256
  cmdName_length : cmdName.length = 32
  args_length : args.length = 224

/-- What a round of the shell works with: the line, and the two words unless it is empty. -/
structure Command where
  line : List UInt8
  words : Option (List UInt8 × List UInt8)

/-- A round of the shell up to the first `strcmp`, if the keys reach that far. -/
def readCommand (a : Arrays) (keys : List UInt8) : Option (Option Command) := do
  match ← Line.read ⟨a.command, 0, [.print (kernelText "C:\\> ")]⟩ keys with
  | none => some none
  | some l =>
      let line := l.command.take l.cmdLen
      if l.cmdLen = 0 then some (some ⟨line, none⟩)
      else do
        let words ← split l.command l.cmdLen a.cmdName a.args
        some (some ⟨line, some words⟩)

/-- The C string in an array. -/
def cString (a : List UInt8) : List UInt8 := a.takeWhile (· ≠ 0)

end LispDos.Shell
