import LispDos.Foundation.Simulation
import LispDos.Kernel.Fat16Dir
import LispDos.Kernel.Lifecycle
import LispDos.Kernel.Shell
import LispDos.Kernel.TarfsWalk

/-! # The loop of the shell

The body of the loop of `_start` behind the reading of a line: the chain of comparisons with
`cmd_name`, what each command does, and the programs that it starts. A round is described by what
it shows on the screen and by the files that programs write in it. -/

namespace LispDos.Shell

open Console Foundation Memory Process Syscall

/-! ## What is seen -/

/-- A file that has been written: its name, and the volume after it. -/
structure Save where
  filename : List UInt8
  volume : Disk

/-- A call of `process_exec`, and the kernel before it. -/
structure Start where
  kernel : Kernel
  request : Process.Request

/-- What is seen of a part of a session. -/
structure Seen where
  shown : List Op
  events : List UserEvent

structure Effects extends Seen where
  saves : List Save
  starts : List Start

/-- A part of a session that is only seen. -/
def Effects.only (shown : List Op) : Effects := ⟨⟨shown, []⟩, [], []⟩

/-! ## Programs -/

/-- The files that `syscall_handler_c` writes. -/
def callSaves (k : Kernel) (num arg1 arg2 arg3 : Word) : List Save :=
  if num = 9#64 then
    if (k.checkString arg1).1 = false then []
    else if k.checkPtr arg2 (BitVec.ofNat 64 (UInt32.ofNat arg3.toNat).toNat) false = false then []
    else [⟨k.string arg1, (sysFat16WriteFile k arg1 arg2 arg3).kernel.disk⟩]
  else []

/-- A step of a program, with what it shows and writes. -/
inductive ProgramStep (k : Kernel) : Effects → Kernel → Prop where
  | store (v : Word) (x : UInt8) (k' : Kernel) (step : UserStep k (.store v x) k') :
      ProgramStep k ⟨⟨[], [.store v x]⟩, [], []⟩ k'
  | call (dev : Devices) (num arg1 arg2 arg3 value : Word)
      (returns : (syscallHandlerC k dev num arg1 arg2 arg3).ending = .returns value) :
      ProgramStep k
        ⟨⟨(syscallHandlerC k dev num arg1 arg2 arg3).shown, [.call num arg1 arg2 arg3 value]⟩,
          callSaves k num arg1 arg2 arg3, []⟩
        (syscallHandlerC k dev num arg1 arg2 arg3).kernel

/-- `process_exec` returns to the shell, at once or when the program has ended. -/
inductive Exec (q : Process.Request) (k : Kernel) : Effects → Kernel → Prop where
  | returned (exit : ExecExit) (l : Raw.Loader) (call : q.exec k = (exit, l))
      (hangs : exit ≠ .readHangs) (faults : exit ≠ .copyFaults)
      (enters : ∀ map entry stack, exit ≠ .entered map entry stack) :
      Exec q k ⟨⟨execShows exit, []⟩, [], [⟨k, q⟩]⟩ (afterExec k exit l)
  | ran (map entry stack : Word) (l : Raw.Loader) (call : q.exec k = (.entered map entry stack, l))
      (es : List Effects) (u : Kernel)
      (steps : Run ProgramStep { afterExec k (.entered map entry stack) l with cr3 := map } es u)
      (ending : Ending) :
      Exec q k
        ⟨⟨execShows (.entered map entry stack) ++ (es.flatMap (·.shown) ++ ending.shows),
          es.flatMap (·.events)⟩, es.flatMap (·.saves), [⟨k, q⟩]⟩
        (ending.handle u)

/-! ## Commands -/

/-- `strcmp`, which reads both arrays up to the first difference or the terminator. -/
def strcmp : List UInt8 → List UInt8 → Option ℤ
  | c :: s1, d :: s2 => if c ≠ 0 ∧ c = d then strcmp s1 s2 else some ((c.toNat : ℤ) - d.toNat)
  | _, _ => none

inductive Builtin where
  | echo
  | clear
  | dir
  | edit
  | lisp
  | type
  | exec
  | rm
  | poweroff
  | reboot
  | invalid
  deriving DecidableEq

/-- The comparisons in their order. -/
def comparisons : List (String × Builtin) :=
  [("echo", .echo), ("cls", .clear), ("clear", .clear), ("dir", .dir), ("edit", .edit),
    ("lisp", .lisp), ("type", .type), ("exec", .exec), ("rm", .rm), ("poweroff", .poweroff),
    ("exit", .poweroff), ("reboot", .reboot)]

/-- The chain of comparisons of `cmd_name`. -/
def select (cmdName : List UInt8) : List (String × Builtin) → Option Builtin
  | [] => some .invalid
  | (name, builtin) :: rest => do
      if (← strcmp cmdName (kernelText name ++ [0])) = 0 then some builtin
      else select cmdName rest

/-- The loop goes on after the command. -/
def Builtin.goesOn : Builtin → Bool
  | .poweroff | .reboot => false
  | _ => true

/-- `tarfs_dir` with or without a ramdisk. -/
def RamdiskDir : Option Tarfs.Ramdisk → List Op → Prop
  | none, printed => printed = [.print (kernelText "Volume sem formato ou sem disco.\n")]
  | some r, printed => Tarfs.TarfsDir r printed

/-- `tarfs_type` with or without a ramdisk. -/
def RamdiskType (filename : List UInt8) : Option Tarfs.Ramdisk → List Op → Prop
  | none, printed => printed = [.print (kernelText "Volume sem formato ou sem disco.\n")]
  | some r, printed => Tarfs.TarfsType r filename printed

/-- What `rm` shows for the result of `fat16_delete_file`. -/
def removed (result : ℤ) : List Op :=
  if result = 1 then [.print (kernelText "Arquivo removido.\n")]
  else [.print (kernelText "Arquivo nao encontrado ou erro ao remover.\n")]

/-- What the commands show that do nothing else. -/
inductive Shows (ramdisk : Option Tarfs.Ramdisk) (k : Kernel) (args : List UInt8) :
    Builtin → List Op → Prop where
  | echo : Shows ramdisk k args .echo [.print args, .print (kernelText "\n")]
  | clear : Shows ramdisk k args .clear [.clear]
  | dir (printed : List Op) (tarfs : RamdiskDir ramdisk printed) :
      Shows ramdisk k args .dir (printed ++ fat16Dir k.bpb k.disk)
  | type (printed : List Op) (tarfs : RamdiskType args ramdisk printed) :
      Shows ramdisk k args .type printed
  | usage (empty : args = []) :
      Shows ramdisk k args .rm [.print (kernelText "Sintaxe: rm <arquivo>\n")]
  | poweroff :
      Shows ramdisk k args .poweroff
        [.print (kernelText "Sincronizando discos e buffers na RAM...\n"),
          .print (kernelText "Sincronizacao completa.\n"),
          .print (kernelText "Desligando o sistema...\n")]
  | reboot : Shows ramdisk k args .reboot [.print (kernelText "Reiniciando o sistema...\n")]
  | invalid :
      Shows ramdisk k args .invalid
        [.print (kernelText "Comando invalido ou nome de arquivo incorreto\n")]

/-- What a command does with the string in `args`. -/
inductive Does (ramdisk : Option Tarfs.Ramdisk) (k : Kernel) (args : List UInt8) :
    Builtin → Effects → Kernel → Prop where
  | shows (builtin : Builtin) (printed : List Op) (shows : Shows ramdisk k args builtin printed) :
      Does ramdisk k args builtin (.only printed) (k.showAll printed).kernel
  | edit (e : Effects) (k' : Kernel)
      (exec : Exec ⟨ramdisk, kernelText "bin/editor.elf", some args⟩ k e k') :
      Does ramdisk k args .edit e k'
  | lisp (e : Effects) (k' : Kernel)
      (exec : Exec ⟨ramdisk, kernelText "bin/lisp.elf", some args⟩ k e k') :
      Does ramdisk k args .lisp e k'
  | exec (e : Effects) (k' : Kernel) (exec : Exec ⟨ramdisk, args, none⟩ k e k') :
      Does ramdisk k args .exec e k'
  | rm (given : args ≠ []) :
      Does ramdisk k args .rm (.only (removed (fat16DeleteFile k.bpb k.disk args).1))
        ({ k with disk := (fat16DeleteFile k.bpb k.disk args).2 }.showAll
          (removed (fat16DeleteFile k.bpb k.disk args).1)).kernel

/-! ## Rounds -/

/-- A round of the loop: the keys of the line without the newline, its effects, and whether the
loop goes on after it. -/
structure Turn where
  keys : List UInt8
  effects : Effects
  goesOn : Bool

/-- The prompt, and a line that is read into `command` behind it. -/
def Arrays.reads (a : Arrays) (keys : List UInt8) (l : Line) : Prop :=
  Line.read ⟨a.command, 0, [.print (kernelText "C:\\> ")]⟩ (keys ++ [0x0A]) = some (some l)

/-- A round of the loop, whatever is in the arrays before it. -/
inductive Round (ramdisk : Option Tarfs.Ramdisk) (k : Kernel) : Turn → Kernel → Prop where
  | empty (a : Arrays) (keys : List UInt8) (hkeys : 0x0A ∉ keys) (l : Line) (read : a.reads keys l)
      (len : l.cmdLen = 0) :
      Round ramdisk k ⟨keys, .only l.screen, true⟩ (k.showAll l.screen).kernel
  | command (a : Arrays) (keys : List UInt8) (hkeys : 0x0A ∉ keys) (l : Line)
      (read : a.reads keys l) (len : l.cmdLen ≠ 0) (cmdName args : List UInt8)
      (words : split l.command l.cmdLen a.cmdName a.args = some (cmdName, args))
      (builtin : Builtin) (chosen : select cmdName comparisons = some builtin) (e : Effects)
      (k' : Kernel)
      (does : Does ramdisk (k.showAll l.screen).kernel (cString args) builtin e k') :
      Round ramdisk k
        ⟨keys, ⟨⟨l.screen ++ e.shown, e.events⟩, e.saves, e.starts⟩, builtin.goesOn⟩ k'

/-- The rounds up to some moment between two rounds, or up to the end of the loop. -/
structure Session (ramdisk : Option Tarfs.Ramdisk) (k : Kernel) (turns : List Turn) (k' : Kernel) :
    Prop where
  run : Run (Round ramdisk) k turns k'
  goesOn : ∀ t ∈ turns.dropLast, t.goesOn = true

end LispDos.Shell
