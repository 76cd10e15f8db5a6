import LispDos.Kernel.Console
import LispDos.Kernel.RawProcess

/-! # System calls

`syscall_handler_c` of `syscall.c`. The model keeps a log of the addresses at which the
handler and the functions it calls access the memory of the program, and of those at which pixels
are stored. -/

namespace LispDos.Syscall

open Console Memory

/-! ## What `fat16.c` reads through its pointers -/

/-- The index of the last character that `format_fat_name` looks at; it has looked at all
before it. The end of the list is the terminator. -/
def formatLast (filename : List UInt8) : ℕ :=
  let rest := (formatChars (· = 0x2E) 8 filename).2.dropWhile fun c => c ≠ 0 ∧ c ≠ 0x2E
  match rest with
  | [] => filename.length
  | c :: cs =>
      if c = 0x2E then filename.length - (formatChars (fun _ => false) 3 cs).2.length
      else filename.length - rest.length

/-- The offsets that `fillBuf` reads. -/
def fillReads (size : ℕ) : ℕ → ℕ → List ℕ
  | 0, _ => []
  | n + 1, written => if written < size then written :: fillReads size n (written + 1) else []

/-- The offsets that `writeSectors` reads. -/
def sectorReads (buffer : ℕ → UInt8) (size : ℕ) : ℕ → ℕ → List ℕ
  | 0, _ => []
  | n + 1, written =>
      fillReads size 512 written ++
        sectorReads buffer size n (fillBuf buffer size 512 Sector.zero written).2

/-- The offsets that `writeLoop` reads. -/
def loopReads (b : Bpb) (buffer : ℕ → UInt8) (size : ℕ) (d : Disk)
    (first current written : ℕ) : List ℕ :=
  if written < size ∨ (size = 0 ∧ first = 0) then
    match _halloc : fat16AllocCluster b d with
    | none => []
    | some (newC, d) =>
        if newC = 0 then []
        else
          let d := if first = 0 then d else fat16SetFatEntry b d current newC
          let first := if first = 0 then newC else first
          let out := writeSectors buffer size b.spc (b.clusterSector newC) d written
          let reads := sectorReads buffer size b.spc written
          if size = 0 then reads else reads ++ loopReads b buffer size out.1 first newC out.2
  else []
termination_by size - written
decreasing_by
  have hspc := spc_pos_of_alloc _halloc
  have hlt : written < size := by omega
  rw [writeSectors_snd _ _ _ _ _ _ hlt.le]
  omega

/-- The offsets of the data that `fat16_write_file` reads. -/
def writeReads (b : Bpb) (d : Disk) (filename : List UInt8) (buffer : ℕ → UInt8)
    (size : UInt32) : List ℕ :=
  match writeSlot b d (formatFatName filename) with
  | .existing sec idx =>
      let old := dirEntryAt (ataReadSector d (b.rootDirSector + sec)) idx
      loopReads b buffer size.toNat (freeChain b d old.firstCluster) 0 0 0
  | .free (some _) => loopReads b buffer size.toNat d 0 0 0
  | .free none => []

/-! ## The handler -/

/-- A call returns a value to the program, ends the program, or does not come back. -/
inductive SyscallEnd where
  | returns (value : Word)
  | exits
  | stuck
  deriving DecidableEq

/-- The end of a call, the accesses in it, and what it puts on the console. -/
structure SyscallRun where
  ending : SyscallEnd
  kernel : Kernel
  log : List Access
  shown : List Op

/-- `(uint64_t)-1`. -/
def failed : Word := -1#64

section Handlers

variable (k : Kernel)

/-- The result of `vmm_check_user_string` on the active address space. -/
def Kernel.checkString (v : Word) : Bool × List Word := vmmCheckUserString k.machine.mem k.root v

def Kernel.checkPtr (v size : Word) (writeRequired : Bool) : Bool :=
  vmmCheckUserPtr k.machine.mem k.root v size writeRequired

def Kernel.string (v : Word) : List UInt8 := cString k.machine.mem k.root v

/-- The reads of `format_fat_name` at a pointer. -/
def Kernel.nameReads (v : Word) : List Access :=
  reads (addresses v (formatLast (k.string v) + 1))

/-- System call 1. -/
def sysWrite (arg2 : Word) : SyscallRun :=
  let check := k.checkString arg2
  if check.1 = false then ⟨.returns failed, k, reads check.2, []⟩
  else
    let printed := k.vgaPrint arg2
    ⟨.returns 0#64, printed.kernel, reads check.2 ++ printed.log, [.print printed.data]⟩

/-- The system calls 2 to 5, which are operations of the console. -/
def sysConsole (op : Op) : SyscallRun :=
  let shown := k.show op
  ⟨.returns 0#64, shown.kernel, shown.log, [op]⟩

/-- What the system call 8 shows if the buffer is refused. -/
def refusedRead (arg2 : Word) (size : ℕ) : List Op :=
  .print (kernelText "Syscall Read: Check User Ptr Failed! arg2=0x") ::
    (vgaPrintHex arg2 ++ .print (kernelText " size=") ::
      (vgaPrintHex (BitVec.ofNat 64 size) ++ [.print (kernelText "\n")]))

/-- System call 8. -/
def sysFat16ReadFile (arg1 arg2 : Word) : SyscallRun :=
  let check := k.checkString arg1
  if check.1 = false then ⟨.returns failed, k, reads check.2, []⟩
  else
    let size := fat16GetFileSize k.bpb k.disk (k.string arg1)
    let log := reads check.2 ++ k.nameReads arg1
    if size = 0 then ⟨.returns 0#64, k, log, []⟩
    else if k.checkPtr arg2 (BitVec.ofNat 64 size) true = false then
      let shown := k.showAll (refusedRead arg2 size)
      ⟨.returns failed, shown.kernel, log ++ shown.log, refusedRead arg2 size⟩
    else
      let log := log ++ k.nameReads arg1
      match fat16ReadFile k.bpb k.disk (k.string arg1) with
      | none => ⟨.stuck, k, log, []⟩
      | some (result, stores) =>
          let mem := stores.foldl (fun mem s =>
            storeVirt mem k.root (arg2 + BitVec.ofNat 64 s.1) s.2) k.machine.mem
          ⟨.returns (BitVec.ofInt 64 result), { k with machine := { k.machine with mem := mem } },
            log ++ writes (stores.map fun s => arg2 + BitVec.ofNat 64 s.1), []⟩

/-- System call 9. -/
def sysFat16WriteFile (arg1 arg2 arg3 : Word) : SyscallRun :=
  let check := k.checkString arg1
  if check.1 = false then ⟨.returns failed, k, reads check.2, []⟩
  else
    let size := UInt32.ofNat arg3.toNat
    if k.checkPtr arg2 (BitVec.ofNat 64 size.toNat) false = false then
      ⟨.returns failed, k, reads check.2, []⟩
    else
      let data := fun i => loadVirt k.machine.mem k.root (arg2 + BitVec.ofNat 64 i)
      let run := fat16WriteFile k.bpb k.disk (k.string arg1) data size
      let offsets := writeReads k.bpb k.disk (k.string arg1) data size
      ⟨run.1.elim .stuck fun _ => .returns 0#64, { k with disk := run.2 },
        reads check.2 ++ k.nameReads arg1 ++ reads (offsets.map fun i => arg2 + BitVec.ofNat 64 i), []⟩

/-- System call 10. -/
def sysFat16GetFileSize (arg1 : Word) : SyscallRun :=
  let check := k.checkString arg1
  if check.1 = false then ⟨.returns failed, k, reads check.2, []⟩
  else
    ⟨.returns (BitVec.ofNat 64 (fat16GetFileSize k.bpb k.disk (k.string arg1))), k,
      reads check.2 ++ k.nameReads arg1, []⟩

/-- System call 60: back to the address space of the kernel, and the one of the program is
freed. -/
def sysExit : SyscallRun :=
  ⟨.exits, { k with
    machine := Raw.vmmFreePagemap k.machine k.cr3
    cr3 := pageAddr k.machine.kernelPml4 }, [], []⟩

/-- What `keyboard_getchar` returns. -/
structure Devices where
  char : Word

/-- `syscall_handler_c`. -/
def syscallHandlerC (dev : Devices) (num arg1 arg2 arg3 : Word) : SyscallRun :=
  if num = 1#64 then sysWrite k arg2
  else if num = 2#64 then sysConsole k .clear
  else if num = 3#64 then sysConsole k (.setCursor arg1 arg2)
  else if num = 4#64 then sysConsole k (.putchar (UInt8.ofNat arg1.toNat))
  else if num = 5#64 then
    sysConsole k (.setColor (UInt8.ofNat arg1.toNat) (UInt8.ofNat arg2.toNat))
  else if num = 6#64 then ⟨.returns (vgaGetMaxRows k.display.fb), k, [], []⟩
  else if num = 7#64 then ⟨.returns dev.char, k, [], []⟩
  else if num = 8#64 then sysFat16ReadFile k arg1 arg2
  else if num = 9#64 then sysFat16WriteFile k arg1 arg2 arg3
  else if num = 10#64 then sysFat16GetFileSize k arg1
  else if num = 60#64 then sysExit k
  else ⟨.returns 0#64, k, [], []⟩

end Handlers

end LispDos.Syscall
