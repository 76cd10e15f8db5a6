import LispDos.Kernel.Process
import LispDos.Kernel.Raw

/-! # Starting a program, with the bitmap in memory

`process_exec` on the memory that holds the bitmap. What reads and writes no memory is as
in the model whose allocator lies apart. -/

namespace LispDos.Raw

open Memory Process

/-- A read of a header field of `length` bytes at an offset of the file buffer, a `memcpy`
of `length` bytes from such an offset on, or a call of `vmm_map_page` and the machine it
was made on. -/
inductive Event where
  | field (offset : Word) (length : ℕ)
  | copy (offset : Word) (length : ℕ)
  | map (before : Machine) (map vaddr : Word)

structure Loader where
  machine : Machine
  log : List Event

/-- A part of the loading either goes on or ends the call. -/
inductive Step where
  | go (l : Loader)
  | stop (exit : ExecExit) (l : Loader)

def Step.andThen (s : Step) (f : Loader → Step) : Step :=
  match s with
  | .go l => f l
  | .stop exit l => .stop exit l

/-! ## Headers -/

/-- The field of `n` bytes at an offset of the file buffer. -/
def Loader.field (l : Loader) (phys offset : Word) (n : ℕ) : Word × Loader :=
  (loadField l.machine.mem (phys + offset) n, { l with log := l.log ++ [.field offset n] })

/-- The comparisons with the magic bytes, up to the first that fails. -/
def checkMagic (phys : Word) : List (Word × Word) → Loader → Bool × Loader
  | [], l => (true, l)
  | (offset, c) :: rest, l =>
      let x := l.field phys offset 1
      if x.1 = c then checkMagic phys rest x.2 else (false, x.2)

/-- The checks of the ELF header, and the early return if one of them fails. -/
def checkHeader (phys : Word) (size : ℕ) (l : Loader) : Option ExecExit × Loader :=
  let ident := checkMagic phys elfMagic l
  if ident.1 = false then (some .badMagic, ident.2)
  else
    let phoff := ident.2.field phys 32#64 8
    if size ≤ phoff.1.toNat then (some .badPhdr, phoff.2)
    else
      let phnum := phoff.2.field phys 56#64 2
      if size < (phoff.1 + phnum.1 * 56#64).toNat then (some .badPhdr, phnum.2)
      else
        let entry := phnum.2.field phys 24#64 8
        (if userLimit ≤ entry.1 then some .badEntry else none, entry.2)

/-! ## Segments -/

/-- The body of the loop over the pages of a segment. The size of a copy that does not fit
into its page has wrapped around: such a copy runs through the whole address space and
ends in an exception. -/
def loadPage (phys map : Word) (seg : Segment) (j : ℕ) (l : Loader) : Step :=
  let page := pmmAllocPage l.machine
  if page.1 = 0#64 then .stop .noMemory { l with machine := page.2 }
  else
    let m := vmmMapPage page.2 map (seg.page j) page.1 userFlags
    let cleared := clearTable m.mem (page.1.toNat / 4096)
    let log := l.log ++ [.map page.2 map (seg.page j)]
    match seg.copy j with
    | none => .go ⟨{ m with mem := cleared }, log⟩
    | some (start, src, size) =>
        let copied : Loader :=
          ⟨{ m with mem := memcpy cleared (page.1 + start) (phys + src) size.toNat },
            log ++ [.copy src size.toNat]⟩
        if 4096 < start.toNat + size.toNat then .stop .copyFaults copied else .go copied

/-- The loop over the pages of a segment, with `n` rounds to go. -/
def loadPages (phys map : Word) (seg : Segment) : ℕ → ℕ → Loader → Step
  | 0, _, l => .go l
  | n + 1, j, l => (loadPage phys map seg j l).andThen (loadPages phys map seg n (j + 1))

/-- The reads of a program header of type `PT_LOAD`. -/
def readSegment (phys h : Word) (l : Loader) : Segment × Loader :=
  let vaddr := l.field phys (h + 16#64) 8
  let memsz := vaddr.2.field phys (h + 40#64) 8
  let filesz := memsz.2.field phys (h + 32#64) 8
  let offset := filesz.2.field phys (h + 8#64) 8
  (⟨vaddr.1, memsz.1, filesz.1, offset.1⟩, offset.2)

/-- The body of the loop over the program headers, for the one at offset `h`. -/
def loadHeader (phys map h : Word) (l : Loader) : Step :=
  let type := l.field phys h 4
  if type.1 = 1#64 then
    let seg := readSegment phys h type.2
    if userLimit ≤ seg.1.vaddr then .stop .kernelSegment seg.2
    else loadPages phys map seg.1 seg.1.pageCount 0 seg.2
  else .go type.2

/-- The loop over the program headers. `e_phnum` is read again before each round, and has
16 bits, so there are at most `n = 65535` rounds to go. -/
def loadHeaders (phys map phoff : Word) : ℕ → ℕ → Loader → Step
  | 0, _, l => .go l
  | n + 1, i, l =>
      let phnum := l.field phys 56#64 2
      if i < phnum.1.toNat then
        (loadHeader phys map (phoff + BitVec.ofNat 64 i * 56#64) phnum.2).andThen
          (loadHeaders phys map phoff n (i + 1))
      else .go phnum.2

/-! ## The call -/

/-- The loops that free the pages of the file buffer. -/
def freeFile (phys : Word) (pages : ℕ) (m : Machine) : Machine :=
  (List.range pages).foldl (fun m i => pmmFreePage m (phys + BitVec.ofNat 64 i * 4096#64)) m

/-- The stack page with its arguments, once it has been allocated. -/
def mapStack (map page : Word) (args : Option (List UInt8)) (m : Machine) : Machine :=
  let m := vmmMapPage m map userStack page userFlags
  match args with
  | none => m
  | some args => { m with mem := storeArgs m.mem page args }

/-- The end of the call, from the allocation of the stack on. `e_entry` is read from the
buffer after its pages have been freed. -/
def enter (phys : Word) (pages : ℕ) (map : Word) (args : Option (List UInt8)) (l : Loader) :
    ExecExit × Loader :=
  let page := pmmAllocPage l.machine
  if page.1 = 0#64 then
    (.noStack, { l with machine := vmmFreePagemap (freeFile phys pages page.2) map })
  else
    let m := freeFile phys pages (mapStack map page.1 args page.2)
    let entry := Loader.field ⟨m, l.log ++ [.map page.2 map userStack]⟩ phys 24#64 8
    (.entered map entry.1 (stackPointer args), entry.2)

/-- The part of the call after the file has been read. `e_phoff` is read again once there is
a page map. -/
def execElf (phys : Word) (size : ℕ) (args : Option (List UInt8)) (m : Machine) :
    ExecExit × Loader :=
  let pages := filePages size
  let header := checkHeader phys size ⟨m, []⟩
  match header.1 with
  | some exit => (exit, { header.2 with machine := freeFile phys pages header.2.machine })
  | none =>
      let map := vmmNewPagemap header.2.machine
      if map.1 = 0#64 then
        (.noPagemap, { header.2 with machine := freeFile phys pages map.2 })
      else
        let phoff := Loader.field { header.2 with machine := map.2 } phys 32#64 8
        match loadHeaders phys map.1 phoff.1 65536 0 phoff.2 with
        | .stop .copyFaults l => (.copyFaults, l)
        | .stop exit l =>
            (exit, { l with machine := vmmFreePagemap (freeFile phys pages l.machine) map.1 })
        | .go l => enter phys pages map.1 args l

/-- `process_exec`. -/
def processExec (fs : Files) (filename : List UInt8) (args : Option (List UInt8)) (m : Machine) :
    ExecExit × Loader :=
  let file := fileSize fs filename
  if file.1 = 0 then (.notFound, ⟨m, []⟩)
  else
    let buf := pmmAllocPages m (BitVec.ofNat 64 (filePages file.1))
    if buf.1 = 0#64 then (.noFileMemory, ⟨buf.2, []⟩)
    else
      match readFile fs filename file.2 with
      | none => (.readHangs, ⟨buf.2, []⟩)
      | some (bytesRead, stores) =>
          let m := { buf.2 with mem := storeAt buf.2.mem buf.1 stores }
          if bytesRead ≤ 0 then (.readFailed, ⟨freeFile buf.1 (filePages file.1) m, []⟩)
          else execElf buf.1 file.1 args m

end LispDos.Raw
