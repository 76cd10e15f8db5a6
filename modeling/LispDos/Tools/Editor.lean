import LispDos.Hal.Vga
import LispDos.Kernel.Fat16

/-! # The text editor

`tools/editor.c`: one array with the text, a cursor into it and two modes. Every access to
`edit_buffer` is checked; nothing is returned for an index outside of the allocation. -/

namespace LispDos.Edit

open Console

/-! ## Accesses to the buffer -/

/-- `edit_buffer[i]`. -/
def load (buffer : List UInt8) (i : ℕ) : Option UInt8 := buffer[i]?

/-- `edit_buffer[i] = c`. -/
def store (buffer : List UInt8) (i : ℕ) (c : UInt8) : Option (List UInt8) :=
  if i < buffer.length then some (buffer.set i c) else none

/-- `'\n'`. -/
def newline : UInt8 := 0x0A

/-- `for (i = cursor_pos; i < buffer_len; i++) edit_buffer[i-1] = edit_buffer[i]`, entered with
`n` rounds to go. -/
def shiftLeft : ℕ → ℕ → List UInt8 → Option (List UInt8)
  | 0, _, buffer => some buffer
  | n + 1, i, buffer => do
      let c ← load buffer i
      let buffer ← store buffer (i - 1) c
      shiftLeft n (i + 1) buffer

/-- `for (i = buffer_len; i > cursor_pos; i--) edit_buffer[i] = edit_buffer[i-1]`, entered with
`n` rounds to go. -/
def shiftRight : ℕ → ℕ → List UInt8 → Option (List UInt8)
  | 0, _, buffer => some buffer
  | n + 1, i, buffer => do
      let c ← load buffer (i - 1)
      let buffer ← store buffer i c
      shiftRight n (i - 1) buffer

/-- The scan back for a newline that starts before position `p`: the number of characters it
passes, and the position after the newline or the start of the text. -/
def scanBack (buffer : List UInt8) : ℕ → Option (ℕ × ℕ)
  | 0 => some (0, 0)
  | p + 1 => do
      let c ← load buffer p
      if c = newline then some (0, p + 1)
      else
        let (col, start) ← scanBack buffer p
        some (col + 1, start)

/-- The scan forward for a newline from position `i`, with `n` positions to go. -/
def scanForward (buffer : List UInt8) : ℕ → ℕ → Option ℕ
  | 0, i => some i
  | n + 1, i => do
      let c ← load buffer i
      if c = newline then some i else scanForward buffer n (i + 1)

/-- `for (i = 0; i < col; i++) { if (new_pos == p) break; new_pos++; }`. -/
def stepTo (p : ℕ) : ℕ → ℕ → ℕ
  | 0, newPos => newPos
  | n + 1, newPos => if newPos = p then newPos else stepTo p n (newPos + 1)

/-- The same loop for the next line, which ends at a newline or at the end of the text. -/
def stepLine (buffer : List UInt8) (len : ℕ) : ℕ → ℕ → Option ℕ
  | 0, newPos => some newPos
  | n + 1, newPos =>
      if len ≤ newPos then some newPos
      else do
        let c ← load buffer newPos
        if c = newline then some newPos else stepLine buffer len n (newPos + 1)

/-! ## The screen -/

/-- The statics of the editor. The length of `buffer` is what has been allocated. -/
structure Editor where
  buffer : List UInt8
  bufferMax : ℕ
  len : ℕ
  cursor : ℕ
  insertMode : Bool
  lastCmdKey : UInt8

def ascii (s : String) : List UInt8 := s.toList.map fun c => UInt8.ofNat c.toNat

/-- The loop of `draw_editor_ui` over the text, with `n` rounds to go. -/
def drawText (e : Editor) : ℕ → ℕ → Option (List Op)
  | 0, _ => some []
  | n + 1, i => do
      let ops ←
        if i = e.cursor then
          if i = e.len then some [.setColor 0 2, .putchar 0x20, .setColor 2 0]
          else do
            let c ← load e.buffer i
            if c = newline then
              some [.setColor 0 2, .putchar 0x20, .setColor 2 0, .putchar newline]
            else some [.setColor 0 2, .putchar c, .setColor 2 0]
        else if i < e.len then do
          let c ← load e.buffer i
          some [.putchar c]
        else some []
      let rest ← drawText e n (i + 1)
      some (ops ++ rest)

/-- `draw_editor_ui`, on a screen of `maxRows` rows. -/
def drawEditorUi (maxRows : Size) (e : Editor) : Option (List Op) := do
  let status :=
    if e.insertMode then ascii "-- INSERT -- [ESC: Normal, Setas: Navegar]"
    else ascii "-- NORMAL -- [i: Insert, w: Salvar, q: Sair, Setas: Navegar]"
  let key :=
    if !e.insertMode && e.lastCmdKey != 0 then
      .print (ascii "Tecla Pressionada: ") ::
        if 32 ≤ e.lastCmdKey ∧ e.lastCmdKey ≤ 126 then [.putchar e.lastCmdKey] else []
    else []
  let text ← drawText e (e.len + 1) 0
  some ([.clear, .setCursor (maxRows - 2) 0, .print status, .setCursor (maxRows - 1) 0] ++ key ++
    [.setCursor 0 0] ++ text)

/-! ## Keys -/

/-- The cursor one line up. -/
def cursorUp (e : Editor) : Option ℕ := do
  let (col, start) ← scanBack e.buffer e.cursor
  if start = 0 then some e.cursor
  else
    -- the newline before the line of the cursor is at `start - 1`
    let (_, prevStart) ← scanBack e.buffer (start - 1)
    some (stepTo (start - 1) col prevStart)

/-- The cursor one line down. -/
def cursorDown (e : Editor) : Option ℕ := do
  let (col, _) ← scanBack e.buffer e.cursor
  let next ← scanForward e.buffer (e.len - e.cursor) e.cursor
  if next < e.len then stepLine e.buffer e.len col (next + 1)
  else some e.cursor

/-- The keys 128 to 131. -/
def arrowKey (e : Editor) (c : UInt8) : Option Editor :=
  if c = 130 then some (if 0 < e.cursor then { e with cursor := e.cursor - 1 } else e)
  else if c = 131 then some (if e.cursor < e.len then { e with cursor := e.cursor + 1 } else e)
  else if c = 128 then (cursorUp e).map fun p => { e with cursor := p }
  else (cursorDown e).map fun p => { e with cursor := p }

/-- A key in insert mode. -/
def insertKey (e : Editor) (c : UInt8) : Option Editor :=
  if c = 0x08 then
    if 0 < e.cursor then do
      let buffer ← shiftLeft (e.len - e.cursor) e.cursor e.buffer
      some { e with buffer := buffer, cursor := e.cursor - 1, len := e.len - 1 }
    else some e
  else if e.len < e.bufferMax - 1 ∧ ((32 ≤ c ∧ c ≤ 126) ∨ c = newline) then do
    let buffer ← shiftRight (e.len - e.cursor) e.len e.buffer
    let buffer ← store buffer e.cursor c
    some { e with buffer := buffer, cursor := e.cursor + 1, len := e.len + 1 }
  else some e

/-- What a key leads to: the editor goes on, with what it draws, or it ends with the bytes that
it hands to `fat16_write_file`, or without. -/
inductive Next where
  | draws (e : Editor) (screen : List Op)
  | saves (data : List UInt8)
  | quits

/-- A round of the loop of `_start`. -/
def Editor.key (maxRows : Size) (e : Editor) (c : UInt8) : Option Next :=
  let go := fun e => (drawEditorUi maxRows e).map (Next.draws e)
  if c = 27 then go { e with insertMode := false, lastCmdKey := 0 }
  else if 128 ≤ c ∧ c ≤ 131 then (arrowKey e c).bind go
  else if e.insertMode then (insertKey e c).bind go
  else
    let e := { e with lastCmdKey := c }
    if c = 0x69 then go { e with insertMode := true, lastCmdKey := 0 }
    else if c = 0x77 then do
      let buffer ← store e.buffer e.len 0
      some (.saves (buffer.take e.len))
    else if c = 0x71 then some .quits
    else go e

/-- Where a sequence of keys leads; the keys after the end are not read. -/
inductive Session where
  | open (e : Editor)
  | saved (data : List UInt8)
  | closed

def Editor.run (maxRows : Size) : Editor → List UInt8 → Option Session
  | e, [] => some (.open e)
  | e, c :: cs => do
      match ← e.key maxRows c with
      | .draws e _ => e.run maxRows cs
      | .saves data => some (.saved data)
      | .quits => some .closed

/-! ## Start -/

/-- The loop of `kstrncpy`: the characters that it stores, with room for `n` of them. -/
def copyString : ℕ → List UInt8 → List UInt8
  | 0, _ => []
  | _ + 1, [] => []
  | n + 1, c :: src => if c = 0 then [] else c :: copyString n src

/-- `kstrncpy`: the string in `dest`. -/
def kstrncpy (src : List UInt8) (maxLen : ℕ) : List UInt8 := copyString (maxLen - 1) src

/-- `filename` of `_start`, from the argument: no pointer, or a string. -/
def startFilename : Option (List UInt8) → List UInt8
  | some (c :: args) => if c ≠ 0 then c :: args else ascii "buffer.txt"
  | _ => ascii "buffer.txt"

/-- `current_filename`, which has 32 bytes. -/
def currentFilename (args : Option (List UInt8)) : List UInt8 := kstrncpy (startFilename args) 32

/-- `MEMORY_POOL_SIZE`. -/
def poolSize : ℤ := 1024 * 1024

/-- The start of `_start` up to the loop: the buffer is cleared memory of the pool, and the file
is read into it. Nothing if the pool has no room, or the reader does not come back. -/
def editorStart (b : Bpb) (d : Disk) (filename : List UInt8) : Option Editor :=
  let fsize := toInt32 (fat16GetFileSize b d filename)
  if poolSize < fsize + 8192 then none
  else
    let bufferMax := (fsize + 8192).toNat
    let buffer := List.replicate bufferMax 0
    if 0 < fsize then
      (fat16ReadFile b d filename).map fun (size, stores) =>
        ⟨stores.foldl (fun buffer s => buffer.set s.1 s.2) buffer, bufferMax,
          if 0 < size then size.toNat else 0, 0, false, 0⟩
    else some ⟨buffer, bufferMax, 0, 0, false, 0⟩

end LispDos.Edit
