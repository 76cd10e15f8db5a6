import LispDos.Foundation.Simulation
import LispDos.Kernel.Syscall
import LispDos.Verification.Console.Bounds
import LispDos.Verification.Syscall.Checks

/-! # The life of a process

From a call of `process_exec` to the return to the shell: the jump to user mode, what the
program does there, and the two ways in which the kernel takes it down. -/

namespace LispDos.Process

open Console Foundation Memory Syscall

/-! ## In user mode -/

/-- What a program does: it stores a byte, or makes a system call that returns a value. -/
inductive UserEvent where
  | store (v : Word) (x : UInt8)
  | call (num arg1 arg2 arg3 value : Word)

/-- What a program does that changes memory, the display or the volume: it stores a byte in a page
that is open to user mode, or makes a system call that comes back. -/
inductive UserStep (k : Kernel) : UserEvent → Kernel → Prop where
  | store (v : Word) (p : ℕ × Word) (x : UInt8) (low : v.toNat < 2 ^ 47)
      (walk : userWalk k.machine.mem k.root v = some p)
      (writable : PageWritable k.machine.mem k.root v) :
      UserStep k (.store v x) { k with
        machine := { k.machine with mem := storeByte k.machine.mem (physAddr p.1 p.2 v) x } }
  | call (dev : Devices) (num arg1 arg2 arg3 value : Word)
      (returns : (syscallHandlerC k dev num arg1 arg2 arg3).ending = .returns value) :
      UserStep k (.call num arg1 arg2 arg3 value) (syscallHandlerC k dev num arg1 arg2 arg3).kernel

/-! ## Back in the kernel -/

/-- A program ends with system call 60, or the processor raises an exception in ring 3; then there
are its vector and the contents of `%rip` and CR2. -/
inductive Ending where
  | exit
  | exception (vector rip cr2 : Word)
  deriving DecidableEq

def Ending.isException : Ending → Bool
  | .exit => false
  | .exception .. => true

/-- What `exception_handler` shows for ring 3. -/
def Ending.shows : Ending → List Op
  | .exit => []
  | .exception vector rip cr2 =>
      .print (kernelText "\n[!] Falha de Seguranca: Processo Ring 3 abortado (Excecao ") ::
        (vgaPrintHex vector ++ .print (kernelText ") no RIP: ") ::
          (vgaPrintHex rip ++ .print (kernelText " - CR2: 0x") ::
            (vgaPrintHex cr2 ++ [.print (kernelText "\n")])))

/-- The kernel after the jump back of `asm_return_to_kernel`. `exception_handler` only prints a
message before it. -/
def Ending.handle (k : Kernel) : Ending → Kernel
  | .exit => (sysExit k).kernel
  | .exception vector rip cr2 => (k.showAll (Ending.shows (.exception vector rip cr2))).kernel

/-- A call of the shell. -/
structure Request where
  ramdisk : Option Tarfs.Ramdisk
  filename : List UInt8
  args : Option (List UInt8)

def Request.files (q : Request) (k : Kernel) : Files := ⟨k.bpb, k.disk, q.ramdisk⟩

/-- The call of `process_exec` itself. -/
def Request.exec (q : Request) (k : Kernel) : ExecExit × Raw.Loader :=
  Raw.processExec (q.files k) q.filename q.args k.machine

/-- The message of an end of `process_exec`, if it has one. -/
def execShows (exit : ExecExit) : List Op :=
  if exit.message = "" then [] else [.print (kernelText exit.message)]

/-- The kernel at an end of `process_exec`. Its message is shown last. -/
def afterExec (k : Kernel) (exit : ExecExit) (l : Raw.Loader) : Kernel :=
  ({ k with machine := l.machine }.showAll (execShows exit)).kernel

/-- A call from the shell and back: `process_exec` returns early, or the program is entered and
runs until it ends. -/
inductive Round (k : Kernel) (q : Request) : List UserEvent → Option Ending → Kernel → Prop where
  | returned (exit : ExecExit) (l : Raw.Loader) (call : q.exec k = (exit, l))
      (hangs : exit ≠ .readHangs) (faults : exit ≠ .copyFaults)
      (enters : ∀ map entry stack, exit ≠ .entered map entry stack) :
      Round k q [] none (afterExec k exit l)
  | ran (map entry stack : Word) (l : Raw.Loader) (call : q.exec k = (.entered map entry stack, l))
      (events : List UserEvent) (u : Kernel)
      (steps : Run UserStep { afterExec k (.entered map entry stack) l with cr3 := map } events u)
      (ending : Ending) : Round k q events (some ending) (ending.handle u)

/-- A call in a session: what the kernel was before and after it, what the program did, and how it
ended, if it was entered. -/
structure Call where
  before : Kernel
  request : Request
  events : List UserEvent
  ending : Option Ending
  after : Kernel

/-- Between two calls the shell neither switches page maps nor frees page 0, the kernel's PML4 or a
page of the bitmap, and it leaves the cursor on the screen. -/
structure Idle (k k' : Kernel) : Prop where
  cr3 : k'.cr3 = k.cr3
  kernel : k'.machine.kernelPml4 = k.machine.kernelPml4
  bitmap : k'.machine.pmmBitmap = k.machine.pmmBitmap
  highest : k'.machine.pmmHighestPage = k.machine.pmmHighestPage
  used : ∀ t, t = 0 ∨ t = k.machine.kernelPml4 ∨ k.machine.Stores t →
    t ∉ clearPages k.machine.bitmap k.machine.pmmHighestPage →
    t ∉ clearPages k'.machine.bitmap k'.machine.pmmHighestPage
  fb : k'.display.fb = k.display.fb
  cursor : OnScreen k.display.fb k.display.terminal.row k.display.terminal.column →
    OnScreen k.display.fb k'.display.terminal.row k'.display.terminal.column

/-- The calls that the shell makes, one after the other. -/
inductive Session : Kernel → List Call → Prop where
  | done (k : Kernel) : Session k []
  | call (k : Kernel) (c : Call) (rest : List Call) (idle : Idle k c.before)
      (round : Round c.before c.request c.events c.ending c.after) (next : Session c.after rest) :
      Session k (c :: rest)

end LispDos.Process
