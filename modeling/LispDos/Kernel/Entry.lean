import LispDos.Foundation.Assembly
import LispDos.Kernel.Lifecycle

/-! # Entry to the kernel and return from it

The assembly code of `syscall_asm.S`, `jump_usermode` of `process.c`, and the stubs of
`interrupts.S`. Each piece is the row of its instructions up to the next transfer of control. -/

namespace LispDos.Entry

open Foundation.Assembly

/-! ## Variables of the kernel -/

/-- The addresses of `current_user_rsp`, `current_kernel_stack`, `kernel_saved_rsp` and of the array
`kstack` of `jump_usermode`, which is 4096 bytes long. They lie in the upper half and do not
overlap. -/
structure Layout where
  currentUserRsp : Word
  currentKernelStack : Word
  kernelSavedRsp : Word
  kstack : Word
  user_apart_stack : WordsApart currentUserRsp currentKernelStack
  user_apart_saved : WordsApart currentUserRsp kernelSavedRsp
  stack_apart_saved : WordsApart currentKernelStack kernelSavedRsp
  kstack_user : 4096 ≤ (currentUserRsp - kstack).toNat ∧ (currentUserRsp - kstack).toNat ≤ 2 ^ 64 - 8
  kstack_stack : 4096 ≤ (currentKernelStack - kstack).toNat ∧
    (currentKernelStack - kstack).toNat ≤ 2 ^ 64 - 8
  kstack_saved : 4096 ≤ (kernelSavedRsp - kstack).toNat ∧
    (kernelSavedRsp - kstack).toNat ≤ 2 ^ 64 - 8
  aligned : kstack % 16#64 = 0#64
  upper : ∀ a ∈ [currentUserRsp, currentKernelStack, kernelSavedRsp],
    2 ^ 47 ≤ a.toNat ∧ a.toNat ≤ 2 ^ 64 - 8
  kstack_upper : 2 ^ 47 ≤ kstack.toNat ∧ kstack.toNat ≤ 2 ^ 64 - 4096

/-- The value of `tss.rsp0` and of `current_kernel_stack` while a program runs. -/
def Layout.stackTop (L : Layout) : Word := L.kstack + 4096#64

/-- The values that `syscall_init` stores in the registers `STAR` and `FMASK`. -/
def star : Word := 0x10#64 <<< 48 ||| 0x08#64 <<< 32

def fmask : Word := 0x200#64

/-! ## `syscall_asm.S` -/

def pushes (rs : List Reg) : List Instr := rs.map .push

def pops (rs : List Reg) : List Instr := rs.map .pop

/-- The registers that `syscall_entry` saves. -/
def syscallSaved : List Reg := [.rcx, .r11, .r10, .r9, .r8, .rdx, .rsi, .rdi, .rax]

/-- `syscall_entry` up to the call of `syscall_handler_c`. -/
def syscallEntry (L : Layout) : List Instr :=
  [.storeVar .rsp L.currentUserRsp, .loadVar L.currentKernelStack .rsp] ++
    pushes syscallSaved ++
    [.mov .rax .rdi, .load 8#64 .rsp .rsi, .load 16#64 .rsp .rdx, .load 24#64 .rsp .rcx]

/-- `syscall_entry` from the call to `sysretq`. -/
def syscallExit (L : Layout) : List Instr :=
  [.addImm 8#64 .rsp] ++ pops [.rdi, .rsi, .rdx, .r8, .r9, .r10, .r11, .rcx] ++
    [.loadVar L.currentUserRsp .rsp]

/-- The registers that `asm_jump_usermode` saves. -/
def jumpSaved : List Reg := [.rbp, .rbx, .r12, .r13, .r14, .r15]

/-- `asm_jump_usermode` up to `sysretq`. -/
def asmJumpUsermode (L : Layout) : List Instr :=
  pushes jumpSaved ++ [.storeVar .rsp L.kernelSavedRsp, .mov .rdi .rcx, .mov .rsi .rsp, .mov .rdx .rdi,
    .movImm 0x202#64 .r11]

/-- `asm_return_to_kernel` up to `sti`. -/
def asmReturnToKernel (L : Layout) : List Instr :=
  [.loadVar L.kernelSavedRsp .rsp] ++ pops [.r15, .r14, .r13, .r12, .rbx, .rbp]

/-! ## `interrupts.S` -/

/-- The registers that `isr_keyboard` saves. -/
def keyboardSaved : List Reg := [.rax, .rcx, .rdx, .rdi, .rsi, .r8, .r9, .r10, .r11]

/-- The stubs from `isr_err_stub`. -/
def isrErrStubs : List ℕ := [8, 10, 11, 12, 13, 14, 17]

/-- `isr0` to `isr31`. -/
def isrStub (num : ℕ) : List Instr :=
  (if num ∈ isrErrStubs then [] else [.pushImm 0]) ++ [.pushImm (BitVec.ofNat 64 num)]

/-- The registers that `isr_common_stub` saves. -/
def isrSaved : List Reg :=
  [.r15, .r14, .r13, .r12, .r11, .r10, .r9, .r8, .rbp, .rdi, .rsi, .rdx, .rcx, .rbx, .rax]

/-- `isr_common_stub` up to the call of `exception_handler`. -/
def isrCommonStub : List Instr :=
  pushes isrSaved ++ [.fromSeg .ds .rax, .push .rax, .movImm16 0x10#16 .rax, .toSeg .rax .ds,
    .toSeg .rax .es, .toSeg .rax .fs, .toSeg .rax .gs, .mov .rsp .rdi]

/-- `struct registers` of `idt.c`. -/
structure Registers where
  ds : Word
  rax : Word
  rbx : Word
  rcx : Word
  rdx : Word
  rsi : Word
  rdi : Word
  rbp : Word
  r8 : Word
  r9 : Word
  r10 : Word
  r11 : Word
  r12 : Word
  r13 : Word
  r14 : Word
  r15 : Word
  intNo : Word
  errCode : Word
  rip : Word
  cs : Word
  rflags : Word
  rsp : Word
  ss : Word

/-- What `exception_handler` reads through its argument. -/
def registersAt (m : Memory) (regs : Word) : Registers :=
  let field (i : ℕ) : Word := load m (regs + BitVec.ofNat 64 (8 * i))
  { ds := field 0, rax := field 1, rbx := field 2, rcx := field 3, rdx := field 4, rsi := field 5,
    rdi := field 6, rbp := field 7, r8 := field 8, r9 := field 9, r10 := field 10, r11 := field 11,
    r12 := field 12, r13 := field 13, r14 := field 14, r15 := field 15, intNo := field 16,
    errCode := field 17, rip := field 18, cs := field 19, rflags := field 20, rsp := field 21,
    ss := field 22 }

/-- `(regs->cs & 3) == 3`: the exception comes from ring 3. -/
def Registers.fromUser (regs : Registers) : Bool := regs.cs &&& 3#64 == 3#64

/-! ## A program in user mode -/

open Syscall Process

structure State where
  core : Core
  kernel : Kernel

/-- What the kernel needs to get back: the variables that the entry code does not store to, and what
`asm_jump_usermode` has saved at `boot`. -/
def Fixed (L : Layout) (boot b : Word) : Prop :=
  Within L.currentKernelStack 8 b ∨ Within L.kernelSavedRsp 8 b ∨ Within boot 56 b

/-- The bytes that the functions of the kernel leave alone while a program runs: these, the stack
pointer of the program, and the frame of the caller at `sp`. -/
def Layout.Kept (L : Layout) (boot sp : Word) (b : Word) : Prop :=
  Fixed L boot b ∨ Within L.currentUserRsp 8 b ∨ Within sp (L.stackTop - sp).toNat b

/-- `syscall_handler_c` with its arguments in the registers. -/
def handlerRun (k : Kernel) (dev : Devices) (c : Cpu) : SyscallRun :=
  syscallHandlerC k dev (c.reg .rdi) (c.reg .rsi) (c.reg .rdx) (c.reg .rcx)

/-- A call of `syscall_handler_c` that comes back. What it stores through pointers, to the program
and to the framebuffer, can be anywhere. -/
structure HandlerCall (L : Layout) (boot : Word) (dev : Devices) (k : Kernel) (c c' : Cpu)
    (k' : Kernel) : Prop where
  keeps : Keeps (fun b => L.Kept boot (c.reg .rsp) b ∧ .write b ∉ (handlerRun k dev c).log) c c'
  returns : (handlerRun k dev c).ending = .returns (c'.reg .rax)
  kernel : (handlerRun k dev c).kernel = k'

/-- A system call in front of the address `next`, and back. -/
inductive SystemCall (L : Layout) (boot lstar next : Word) : State → State → Prop where
  | intro (s : State) (dev : Devices) (c : Cpu) (k : Kernel) (user : s.core.isUser = true)
      (call : HandlerCall L boot dev s.kernel
        (run (syscallEntry L) (s.core.syscall next lstar star fmask).toCpu) c k) :
      SystemCall L boot lstar next s ⟨(run (syscallExit L) c).sysret star, k⟩

/-- An interrupt of the keyboard while the program runs, and back. -/
inductive KeyboardInterrupt (L : Layout) (boot handler : Word) (forUser : BitVec 16 → Bool) :
    State → State → Prop where
  | intro (s : State) (c : Cpu) (user : s.core.isUser = true)
      (call : Keeps (L.Kept boot
        (run (pushes keyboardSaved) (s.core.interrupt L.stackTop handler 0x08 []).toCpu |>.reg .rsp))
        (run (pushes keyboardSaved) (s.core.interrupt L.stackTop handler 0x08 []).toCpu) c) :
      KeyboardInterrupt L boot handler forUser s
        ⟨(run (pops keyboardSaved.reverse) c).iret forUser, s.kernel⟩

/-- The processor in ring 0. -/
def inKernel (c : Cpu) (rip rflags : Word) : Core :=
  { toCpu := c, rip := rip, rflags := rflags, cs := 0x08, ss := 0x10 }

/-- An interrupt of the keyboard in front of the `sysretq` of `syscall_entry`, where the stack pointer
is the program's again. Under it `keyboard_handler` takes `depth` bytes. -/
inductive LateInterrupt (L : Layout) (boot handler : Word) (depth : ℕ)
    (forUser : BitVec 16 → Bool) : Cpu → Cpu → Prop where
  | intro (c d : Cpu) (rip rflags sp : Word)
      (stack : sp = (run (pushes keyboardSaved)
        ((inKernel c rip rflags).interrupt L.stackTop handler 0x08 []).toCpu).reg .rsp)
      (call : Keeps (fun b => Within sp 112 b ∨
          ¬ Within (sp - BitVec.ofNat 64 depth) depth b ∧ Fixed L boot b)
        (run (pushes keyboardSaved) ((inKernel c rip rflags).interrupt L.stackTop handler 0x08 []).toCpu)
        d) :
      LateInterrupt L boot handler depth forUser c
        ((run (pops keyboardSaved.reverse) d).iret forUser).toCpu

/-- System call 7 with such an interrupt: `keyboard_getchar` comes back with `IF` set. -/
inductive LateCall (L : Layout) (boot lstar handler next : Word) (depth : ℕ)
    (forUser : BitVec 16 → Bool) : State → State → Prop where
  | intro (s s₁ : State) (c : Cpu) (getchar : s.core.reg .rax = 7#64)
      (call : SystemCall L boot lstar next s s₁)
      (late : LateInterrupt L boot handler depth forUser s₁.core.toCpu c) :
      LateCall L boot lstar handler next depth forUser s ⟨c.sysret star, s₁.kernel⟩

/-- Instructions of the program. They store to pages that are open to user mode, which are all in the
lower half. -/
structure ProgramMoves (s s' : State) : Prop where
  user : s.core.isUser = true
  stays : s'.core.isUser = true
  mem : ∀ b, 2 ^ 47 ≤ b.toNat → s'.core.mem b = s.core.mem b
  kernel : s'.kernel = s.kernel ∨ ∃ v x, UserStep s.kernel (.store v x) s'.kernel

/-- The steps of a program that sets the cursor on the screen only, and whose stack is in the lower
half when a late interrupt comes, with the bytes that the interrupt takes. -/
inductive Step (L : Layout) (boot lstar handler : Word) (depth : ℕ) (forUser : BitVec 16 → Bool) :
    State → State → Prop where
  | program (s s' : State) (moves : ProgramMoves s s') :
      Step L boot lstar handler depth forUser s s'
  | systemCall (s s' : State) (next : Word) (call : SystemCall L boot lstar next s s')
      (aimed : s.core.reg .rax = 3#64 →
        Console.OnScreen s.kernel.display.fb (s.core.reg .rdi) (s.core.reg .rsi)) :
      Step L boot lstar handler depth forUser s s'
  | keyboard (s s' : State) (interrupt : KeyboardInterrupt L boot handler forUser s s') :
      Step L boot lstar handler depth forUser s s'
  | late (s s' : State) (next : Word) (call : LateCall L boot lstar handler next depth forUser s s')
      (low : depth + 127 ≤ (s.core.reg .rsp).toNat) (high : (s.core.reg .rsp).toNat ≤ 2 ^ 47) :
      Step L boot lstar handler depth forUser s s'

/-- The kernel comes to `asm_return_to_kernel` in system call 60 or in `exception_handler`, which has
shown its message, with whatever is in the registers. -/
inductive Leaves (L : Layout) (boot lstar : Word) (s : State) : Cpu → Prop where
  | exit (c : Cpu) (next : Word) (user : s.core.isUser = true) (num : s.core.reg .rax = 60#64)
      (keeps : ∀ b, L.Kept boot
        (run (syscallEntry L) (s.core.syscall next lstar star fmask).toCpu |>.reg .rsp) b →
          c.mem b = (run (syscallEntry L) (s.core.syscall next lstar star fmask).toCpu).mem b) :
      Leaves L boot lstar s c
  | exception (c : Cpu) (vector : ℕ) (handler cr2 : Word) (err : List Word)
      (user : s.core.isUser = true) (one : err.length ≤ 1)
      (keeps : ∀ b, L.Kept boot
        (run (isrStub vector ++ isrCommonStub)
          (s.core.interrupt L.stackTop handler 0x08 err).toCpu |>.reg .rsp) b →
        .write b ∉ (s.kernel.showAll
          (Ending.shows (.exception (BitVec.ofNat 64 vector) s.core.rip cr2))).log →
          c.mem b = (run (isrStub vector ++ isrCommonStub)
            (s.core.interrupt L.stackTop handler 0x08 err).toCpu).mem b) :
      Leaves L boot lstar s c

end LispDos.Entry
