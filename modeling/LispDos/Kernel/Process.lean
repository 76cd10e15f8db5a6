import LispDos.Kernel.Bytes
import LispDos.Kernel.Tarfs

/-! # Starting a program

`process_exec` of `process.c`: a file is read into a buffer of contiguous pages, its ELF
headers are checked, and its segments and a stack page are mapped into a new address
space. The model keeps a log of the accesses to the buffer and of the mappings. -/

namespace LispDos.Process

open Memory

/-! ## Files -/

/-- Where programs are read from: the mounted volume and the ramdisk. -/
structure Files where
  bpb : Bpb
  disk : Disk
  ramdisk : Option Tarfs.Ramdisk

/-- The variables `file_size`, a `uint32_t`, and `use_tarfs`. -/
def fileSize (fs : Files) (filename : List UInt8) : ℕ × Bool :=
  let size := fat16GetFileSize fs.bpb fs.disk filename
  if size = 0 then (Tarfs.tarfsGetFileSize fs.ramdisk filename % 2 ^ 32, true) else (size, false)

/-- The result of the read function and its stores into the buffer. -/
def readFile (fs : Files) (filename : List UInt8) (useTarfs : Bool) :
    Option (ℤ × List Store) :=
  if useTarfs then some (Tarfs.tarfsReadFile fs.ramdisk filename)
  else fat16ReadFile fs.bpb fs.disk filename

/-- `(file_size + 4095) / 4096` in 32 bits. -/
def filePages (size : ℕ) : ℕ := (size + 4095) % 2 ^ 32 / 4096

/-! ## Outcomes -/

/-- How a call ends: one of the early returns, a read or a copy that does not return, or the
jump to user mode with the page map, the entry point and the stack pointer. -/
inductive ExecExit where
  | notFound
  | noFileMemory
  | readHangs
  | readFailed
  | badMagic
  | badPhdr
  | badEntry
  | noPagemap
  | kernelSegment
  | noMemory
  | copyFaults
  | noStack
  | entered (map entry stack : Word)
  deriving DecidableEq

/-- What is printed before the return or the jump. -/
def ExecExit.message : ExecExit → String
  | .notFound => "Exec: Arquivo nao encontrado ou vazio!\n"
  | .noFileMemory => "Exec: Memoria insuficiente para ler arquivo!\n"
  | .readHangs => ""
  | .readFailed => ""
  | .badMagic => "Exec: Formato ELF invalido!\n"
  | .badPhdr => "Exec: Limites do ELF Phdr invalidos (Risco de Seguranca)!\n"
  | .badEntry => "Exec: Entry point invalido (Acesso Restrito ao Kernel)!\n"
  | .noPagemap => "Exec: Erro ao criar Page Map!\n"
  | .kernelSegment => "Exec: p_vaddr invalido (Kernel Space)!\n"
  | .noMemory => "Exec: Falta de memoria fisica!\n"
  | .copyFaults => ""
  | .noStack => "Exec: Falta de memoria para stack!\n"
  | .entered _ _ _ => "Exec: Entrando no Ring 3...\n"

/-- A read of a header field of `length` bytes at an offset of the file buffer, a `memcpy`
of `length` bytes from such an offset on, or a call of `vmm_map_page` and the machine it
was made on. -/
inductive Event where
  | field (offset : Word) (length : ℕ)
  | copy (offset : Word) (length : ℕ)
  | map (before : Machine) (map vaddr : Word)

structure Loader where
  machine : Machine
  log : List Event

/-- A part of the loading either goes on or ends the call. -/
inductive Step where
  | go (l : Loader)
  | stop (exit : ExecExit) (l : Loader)

def Step.andThen (s : Step) (f : Loader → Step) : Step :=
  match s with
  | .go l => f l
  | .stop exit l => .stop exit l

/-- The registers in which a program starts: `%rip`, `%rsp`, and `%rdi` with the argument of its
`_start`. -/
structure UserRegisters where
  rip : Word
  rsp : Word
  rdi : Word

/-- `jump_usermode`. -/
def jumpUsermode (entryPoint userStack argsString : Word) : UserRegisters :=
  ⟨entryPoint, userStack, argsString⟩

/-- The jump at the end of the call, `jump_usermode(e_entry, user_stack_ptr, user_stack_ptr)`. -/
def ExecExit.registers : ExecExit → Option UserRegisters
  | .entered _ entry stack => some (jumpUsermode entry stack stack)
  | _ => none

/-! ## Headers -/

/-- The field of `n` bytes at an offset of the file buffer. -/
def Loader.field (l : Loader) (phys offset : Word) (n : ℕ) : Word × Loader :=
  (loadField l.machine.mem (phys + offset) n, { l with log := l.log ++ [.field offset n] })

/-- The bytes of `e_ident` that are compared. -/
def elfMagic : List (Word × Word) :=
  [(0#64, 0x7F#64), (1#64, 0x45#64), (2#64, 0x4C#64), (3#64, 0x46#64)]

/-- The comparisons with the magic bytes, up to the first that fails. -/
def checkMagic (phys : Word) : List (Word × Word) → Loader → Bool × Loader
  | [], l => (true, l)
  | (offset, c) :: rest, l =>
      let x := l.field phys offset 1
      if x.1 = c then checkMagic phys rest x.2 else (false, x.2)

/-- `0x0000800000000000`. -/
def userLimit : Word := 0x0000800000000000#64

/-- The checks of the ELF header. The result is `e_phoff`. -/
def checkHeader (phys : Word) (size : ℕ) (l : Loader) : Except ExecExit Word × Loader :=
  let ident := checkMagic phys elfMagic l
  if ident.1 = false then (.error .badMagic, ident.2)
  else
    let phoff := ident.2.field phys 32#64 8
    if size ≤ phoff.1.toNat then (.error .badPhdr, phoff.2)
    else
      let phnum := phoff.2.field phys 56#64 2
      if size < (phoff.1 + phnum.1 * 56#64).toNat then (.error .badPhdr, phnum.2)
      else
        let entry := phnum.2.field phys 24#64 8
        if userLimit ≤ entry.1 then (.error .badEntry, entry.2) else (.ok phoff.1, entry.2)

/-! ## Segments -/

/-- The fields of a program header that are used. -/
structure Segment where
  vaddr : Word
  memsz : Word
  filesz : Word
  offset : Word
  deriving DecidableEq

/-- `vaddr_aligned + j * 4096`. -/
def Segment.page (seg : Segment) (j : ℕ) : Word :=
  (seg.vaddr &&& ~~~0xFFF#64) + BitVec.ofNat 64 j * 4096#64

/-- `page_count`. -/
def Segment.pageCount (seg : Segment) : ℕ :=
  (seg.memsz + (seg.vaddr &&& 0xFFF#64) + 4095#64).toNat / 4096

/-- The copy into page `j`, if there is one: where it starts in the page, the offset in
the file and the number of bytes. -/
def Segment.copy (seg : Segment) (j : ℕ) : Option (Word × Word × Word) :=
  let current := seg.page j
  if seg.vaddr < current + 4096#64 ∧ current < seg.vaddr + seg.filesz then
    let start := if current < seg.vaddr then seg.vaddr &&& 0xFFF#64 else 0#64
    let src := seg.offset + (current + start - seg.vaddr)
    let size := 4096#64 - start
    if seg.vaddr + seg.filesz < current + start + size then
      some (start, src, seg.vaddr + seg.filesz - (current + start))
    else some (start, src, size)
  else none

/-- The flags `PAGE_USER | PAGE_WRITE`. -/
def userFlags : Word := 6#64

/-- The body of the loop over the pages of a segment. The size of a copy that does not fit
into its page has wrapped around: such a copy runs through the whole address space and
ends in an exception. -/
def loadPage (phys map : Word) (seg : Segment) (j : ℕ) (l : Loader) : Step :=
  let page := l.machine.allocPage
  if page.1 = 0#64 then .stop .noMemory { l with machine := page.2 }
  else
    let m := vmmMapPage page.2 map (seg.page j) page.1 userFlags
    let cleared := clearTable m.mem (page.1.toNat / 4096)
    let log := l.log ++ [.map page.2 map (seg.page j)]
    match seg.copy j with
    | none => .go ⟨{ m with mem := cleared }, log⟩
    | some (start, src, size) =>
        let copied : Loader :=
          ⟨{ m with mem := memcpy cleared (page.1 + start) (phys + src) size.toNat },
            log ++ [.copy src size.toNat]⟩
        if 4096 < start.toNat + size.toNat then .stop .copyFaults copied else .go copied

/-- The loop over the pages of a segment, with `n` rounds to go. -/
def loadPages (phys map : Word) (seg : Segment) : ℕ → ℕ → Loader → Step
  | 0, _, l => .go l
  | n + 1, j, l => (loadPage phys map seg j l).andThen (loadPages phys map seg n (j + 1))

/-- The reads of a program header of type `PT_LOAD`. -/
def readSegment (phys h : Word) (l : Loader) : Segment × Loader :=
  let vaddr := l.field phys (h + 16#64) 8
  let memsz := vaddr.2.field phys (h + 40#64) 8
  let filesz := memsz.2.field phys (h + 32#64) 8
  let offset := filesz.2.field phys (h + 8#64) 8
  (⟨vaddr.1, memsz.1, filesz.1, offset.1⟩, offset.2)

/-- The body of the loop over the program headers, for the one at offset `h`. -/
def loadHeader (phys map h : Word) (l : Loader) : Step :=
  let type := l.field phys h 4
  if type.1 = 1#64 then
    let seg := readSegment phys h type.2
    if userLimit ≤ seg.1.vaddr then .stop .kernelSegment seg.2
    else loadPages phys map seg.1 seg.1.pageCount 0 seg.2
  else .go type.2

/-- The loop over the program headers. `e_phnum` is read again before each round, and has
16 bits, so there are at most `n = 65535` rounds to go. -/
def loadHeaders (phys map phoff : Word) : ℕ → ℕ → Loader → Step
  | 0, _, l => .go l
  | n + 1, i, l =>
      let phnum := l.field phys 56#64 2
      if i < phnum.1.toNat then
        (loadHeader phys map (phoff + BitVec.ofNat 64 i * 56#64) phnum.2).andThen
          (loadHeaders phys map phoff n (i + 1))
      else .go phnum.2

/-! ## The call -/

/-- The loops that free the pages of the file buffer. -/
def freeFile (phys : Word) (pages : ℕ) (m : Machine) : Machine :=
  (List.range pages).foldl (fun m i => m.freePage (phys + BitVec.ofNat 64 i * 4096#64)) m

/-- The page of the user stack. -/
def userStack : Word := 0x700000000000#64

/-- The bytes of the argument string with its terminator. -/
def argBytes (args : List UInt8) : List UInt8 := args ++ [0]

/-- The argument string at the end of the stack page. -/
def storeArgs (mem : PhysMem) (stack : Word) (args : List UInt8) : PhysMem :=
  storeAt mem (stack + 4096#64 - BitVec.ofNat 64 (argBytes args).length)
    ((argBytes args).zipIdx.map Prod.swap)

/-- The stack pointer at the start of the program. -/
def stackPointer : Option (List UInt8) → Word
  | none => userStack + 4096#64
  | some args => userStack + 4096#64 - BitVec.ofNat 64 (argBytes args).length

/-- The stack page with its arguments, once it has been allocated. -/
def mapStack (map page : Word) (args : Option (List UInt8)) (m : Machine) : Machine :=
  let m := vmmMapPage m map userStack page userFlags
  match args with
  | none => m
  | some args => { m with mem := storeArgs m.mem page args }

/-- The end of the call, from the allocation of the stack on. `e_entry` is read from the
buffer after its pages have been freed. -/
def enter (phys : Word) (pages : ℕ) (map : Word) (args : Option (List UInt8)) (l : Loader) :
    ExecExit × Loader :=
  let page := l.machine.allocPage
  if page.1 = 0#64 then
    (.noStack, { l with machine := vmmFreePagemap (freeFile phys pages page.2) map })
  else
    let m := freeFile phys pages (mapStack map page.1 args page.2)
    let entry := Loader.field ⟨m, l.log ++ [.map page.2 map userStack]⟩ phys 24#64 8
    (.entered map entry.1 (stackPointer args), entry.2)

/-- The part of the call after the file has been read. -/
def execElf (phys : Word) (size : ℕ) (args : Option (List UInt8)) (m : Machine) :
    ExecExit × Loader :=
  let pages := filePages size
  let header := checkHeader phys size ⟨m, []⟩
  match header.1 with
  | .error exit => (exit, { header.2 with machine := freeFile phys pages header.2.machine })
  | .ok phoff =>
      let map := vmmNewPagemap header.2.machine
      if map.1 = 0#64 then
        (.noPagemap, { header.2 with machine := freeFile phys pages map.2 })
      else
        match loadHeaders phys map.1 phoff 65536 0 { header.2 with machine := map.2 } with
        | .stop .copyFaults l => (.copyFaults, l)
        | .stop exit l =>
            (exit, { l with machine := vmmFreePagemap (freeFile phys pages l.machine) map.1 })
        | .go l => enter phys pages map.1 args l

/-- `process_exec`. -/
def processExec (fs : Files) (filename : List UInt8) (args : Option (List UInt8)) (m : Machine) :
    ExecExit × Loader :=
  let file := fileSize fs filename
  if file.1 = 0 then (.notFound, ⟨m, []⟩)
  else
    let buf := m.allocPages (BitVec.ofNat 64 (filePages file.1))
    if buf.1 = 0#64 then (.noFileMemory, ⟨buf.2, []⟩)
    else
      match readFile fs filename file.2 with
      | none => (.readHangs, ⟨buf.2, []⟩)
      | some (bytesRead, stores) =>
          let m := { buf.2 with mem := storeAt buf.2.mem buf.1 stores }
          if bytesRead ≤ 0 then (.readFailed, ⟨freeFile buf.1 (filePages file.1) m, []⟩)
          else execElf buf.1 file.1 args m

end LispDos.Process
