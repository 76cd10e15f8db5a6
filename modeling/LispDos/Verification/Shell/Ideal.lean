import LispDos.Kernel.ShellLoop
import LispDos.Verification.Fat16.FileStore
import LispDos.Verification.Shell.Lines
import LispDos.Verification.Tarfs.Shown

/-! # The ideal system

What the shell and the programs under it are for: files are the contents of a store and of an
archive, and there are no sectors, clusters or headers. A write that would tear a file is not
part of it. -/

namespace LispDos.Shell

open Console Foundation Memory Process Syscall

/-- The machine over a store of files, of the size of a volume, and a screen of so many rows. -/
structure Ideal (b : Bpb) where
  machine : Raw.Machine
  cr3 : Word
  maxRows : Word
  store : FileStore (List UInt8) UInt8 (Fat16.slots b)

namespace Ideal

/-- The system without files on the machine of a kernel. -/
def empty (k : Kernel) : Ideal k.bpb :=
  ⟨k.machine, k.cr3, vgaGetMaxRows k.display.fb, FileStore.empty⟩

variable {b : Bpb} (i : Ideal b)

def root : ℕ := i.cr3.toNat / 4096

/-- The contents of a file of the store; those of a file that is not there are empty. -/
def contents (filename : List UInt8) : List UInt8 :=
  (i.store.get (formatFatName filename)).getD []

/-- The string at an address of the program, if it is all in pages of the program. -/
def string (v : Word) : Option (List UInt8) :=
  if (vmmCheckUserString i.machine.mem i.root v).1 then
    some (Memory.cString i.machine.mem i.root v)
  else none

/-- A call with a string of the program, which fails if there is none. -/
def withString (v : Word) (f : List UInt8 → Option (Word × List Op × Ideal b)) :
    Option (Word × List Op × Ideal b) :=
  match i.string v with
  | none => some (failed, [], i)
  | some data => f data

def setMem (mem : PhysMem) : Ideal b := { i with machine := { i.machine with mem := mem } }

/-! ## System calls -/

/-- The data at an address of the program. -/
def load (v : Word) (size : ℕ) : List UInt8 :=
  (List.range size).map fun x => loadVirt i.machine.mem i.root (v + BitVec.ofNat 64 x)

/-- Data is stored at an address of the program. -/
def storeData (v : Word) (data : List UInt8) : Ideal b :=
  i.setMem ((Fat16.readAnswer data).2.foldl
    (fun mem s => storeVirt mem i.root (v + BitVec.ofNat 64 s.1) s.2) i.machine.mem)

/-- A file is read into the memory of the program. -/
def readFile (filename : List UInt8) (v : Word) : Word × List Op × Ideal b :=
  let data := i.contents filename
  if data = [] then (0#64, [], i)
  else if vmmCheckUserPtr i.machine.mem i.root v (BitVec.ofNat 64 data.length) true = false then
    (failed, refusedRead v data.length, i)
  else (BitVec.ofInt 64 (toInt32 data.length), [], i.storeData v data)

/-- A file is stored, or there is no room for it. -/
def putFile (filename data : List UInt8) : Option (Word × List Op × Ideal b) :=
  match i.store.put (Fat16.need b) (Fat16.clusters b - 2) (formatFatName filename) data with
  | .done s => some (0#64, [], { i with store := s })
  | .refused => some (0#64, [], i)
  | .torn => none

/-- A file is written from the memory of the program. -/
def writeFile (filename : List UInt8) (v : Word) (size : ℕ) : Option (Word × List Op × Ideal b) :=
  if vmmCheckUserPtr i.machine.mem i.root v (BitVec.ofNat 64 size) false = false then
    some (failed, [], i)
  else i.putFile filename (i.load v size)

/-- A system call that comes back: the value, what it shows, and the system after it. -/
def call (dev : Devices) (num arg1 arg2 arg3 : Word) : Option (Word × List Op × Ideal b) :=
  if num = 1#64 then i.withString arg2 fun data => some (0#64, [.print data], i)
  else if num = 2#64 then some (0#64, [.clear], i)
  else if num = 3#64 then some (0#64, [.setCursor arg1 arg2], i)
  else if num = 4#64 then some (0#64, [.putchar (UInt8.ofNat arg1.toNat)], i)
  else if num = 5#64 then
    some (0#64, [.setColor (UInt8.ofNat arg1.toNat) (UInt8.ofNat arg2.toNat)], i)
  else if num = 6#64 then some (i.maxRows, [], i)
  else if num = 7#64 then some (dev.char, [], i)
  else if num = 8#64 then i.withString arg1 fun filename => some (i.readFile filename arg2)
  else if num = 9#64 then
    i.withString arg1 fun filename => i.writeFile filename arg2 (UInt32.ofNat arg3.toNat).toNat
  else if num = 10#64 then
    i.withString arg1 fun filename =>
      some (BitVec.ofNat 64 (i.contents filename).length, [], i)
  else if num = 60#64 then none
  else some (0#64, [], i)

/-- A step of a program. -/
inductive ProgramStep : Seen → Ideal b → Prop where
  | store (v : Word) (p : ℕ × Word) (x : UInt8) (low : v.toNat < 2 ^ 47)
      (walk : userWalk i.machine.mem i.root v = some p)
      (writable : PageWritable i.machine.mem i.root v) :
      ProgramStep ⟨[], [.store v x]⟩ (i.setMem (storeByte i.machine.mem (physAddr p.1 p.2 v) x))
  | call (dev : Devices) (num arg1 arg2 arg3 value : Word) (shown : List Op) (i' : Ideal b)
      (returns : i.call dev num arg1 arg2 arg3 = some (value, shown, i')) :
      ProgramStep ⟨shown, [.call num arg1 arg2 arg3 value]⟩ i'

/-! ## Programs -/

/-- The data of a file of the archive. -/
def archived (es : Option (List Tarfs.Entry)) (filename : List UInt8) : List UInt8 :=
  ((es.getD []).find? fun e => e.name = filename).elim [] (·.data)

/-- The program under a name: a file of the store, or else one of the archive. -/
def image (es : Option (List Tarfs.Entry)) (filename : List UInt8) : List UInt8 :=
  if i.contents filename = [] then archived es filename else i.contents filename

/-- The call of `process_exec` for a program with these contents. -/
def start (image : List UInt8) (args : Option (List UInt8)) (m : Raw.Machine) :
    ExecExit × Raw.Loader :=
  if image = [] then (.notFound, ⟨m, []⟩)
  else
    let buf := Raw.pmmAllocPages m (BitVec.ofNat 64 (filePages image.length))
    if buf.1 = 0#64 then (.noFileMemory, ⟨buf.2, []⟩)
    else
      let m := { buf.2 with mem := storeAt buf.2.mem buf.1 (Fat16.readAnswer image).2 }
      if toInt32 image.length ≤ 0 then
        (.readFailed, ⟨Raw.freeFile buf.1 (filePages image.length) m, []⟩)
      else Raw.execElf buf.1 image.length args m

/-- The system after a program has ended. -/
def ended (ending : Ending) : Ideal b :=
  match ending with
  | .exit => { i with
      machine := Raw.vmmFreePagemap i.machine i.cr3
      cr3 := pageAddr i.machine.kernelPml4 }
  | .exception .. => i

/-- A program is started, and runs until it ends. -/
inductive Exec (es : Option (List Tarfs.Entry)) (filename : List UInt8) (args : Option (List UInt8)) :
    Seen → Ideal b → Prop where
  | returned (exit : ExecExit) (l : Raw.Loader)
      (call : start (i.image es filename) args i.machine = (exit, l))
      (faults : exit ≠ .copyFaults) (enters : ∀ map entry stack, exit ≠ .entered map entry stack) :
      Exec es filename args ⟨execShows exit, []⟩ { i with machine := l.machine }
  | ran (map entry stack : Word) (l : Raw.Loader)
      (call : start (i.image es filename) args i.machine = (.entered map entry stack, l))
      (seen : List Seen) (u : Ideal b)
      (steps : Run ProgramStep { i with machine := l.machine, cr3 := map } seen u)
      (ending : Ending) :
      Exec es filename args
        ⟨execShows (.entered map entry stack) ++ (seen.flatMap (·.shown) ++ ending.shows),
          seen.flatMap (·.events)⟩ (u.ended ending)

/-! ## Commands -/

def noArchive : List Op := [.print (kernelText "Volume sem formato ou sem disco.\n")]

/-- What a command does. -/
inductive Does (es : Option (List Tarfs.Entry)) (args : List UInt8) :
    Builtin → Seen → Ideal b → Prop where
  | echo : Does es args .echo ⟨[.print args, .print (kernelText "\n")], []⟩ i
  | clear : Does es args .clear ⟨[.clear], []⟩ i
  | dir : Does es args .dir ⟨es.elim noArchive Tarfs.listing ++ Fat16.storeDir i.store, []⟩ i
  | edit (seen : Seen) (i' : Ideal b)
      (exec : i.Exec es (kernelText "bin/editor.elf") (some args) seen i') :
      Does es args .edit seen i'
  | lisp (seen : Seen) (i' : Ideal b)
      (exec : i.Exec es (kernelText "bin/lisp.elf") (some args) seen i') :
      Does es args .lisp seen i'
  | type : Does es args .type ⟨es.elim noArchive fun es => Tarfs.typing es args, []⟩ i
  | exec (seen : Seen) (i' : Ideal b) (exec : i.Exec es args none seen i') :
      Does es args .exec seen i'
  | usage (empty : args = []) :
      Does es args .rm ⟨[.print (kernelText "Sintaxe: rm <arquivo>\n")], []⟩ i
  | rm (given : args ≠ []) :
      Does es args .rm
        ⟨if (i.store.find (formatFatName args)).isSome then
            [.print (kernelText "Arquivo removido.\n")]
          else [.print (kernelText "Arquivo nao encontrado ou erro ao remover.\n")], []⟩
        { i with store := i.store.delete (formatFatName args) }
  | poweroff :
      Does es args .poweroff
        ⟨[.print (kernelText "Sincronizando discos e buffers na RAM...\n"),
          .print (kernelText "Sincronizacao completa.\n"),
          .print (kernelText "Desligando o sistema...\n")], []⟩ i
  | reboot : Does es args .reboot ⟨[.print (kernelText "Reiniciando o sistema...\n")], []⟩ i
  | invalid :
      Does es args .invalid
        ⟨[.print (kernelText "Comando invalido ou nome de arquivo incorreto\n")], []⟩ i

/-! ## Rounds -/

/-- What is shown for a key behind a line. -/
def echoKey (line : List UInt8) (c : UInt8) : List Op :=
  if c = 0x08 ∧ line = [] then [] else [.putchar c]

/-- What is shown for keys behind a line. -/
def echoKeys : List UInt8 → List UInt8 → List Op
  | _, [] => []
  | line, c :: keys => echoKey line c ++ echoKeys (editKey line c) keys

/-- What is shown while a line is typed. -/
def typed (keys : List UInt8) : List Op :=
  .print (kernelText "C:\\> ") :: (echoKeys [] keys ++ [.putchar 0x0A])

/-- The word that a line starts with, as far as it is compared. -/
def commandWord (line : List UInt8) : List UInt8 :=
  Shell.cString ((line.takeWhile (· ≠ 0x20)).take 31)

/-- What stands behind the first space of a line. -/
def argument (line : List UInt8) : List UInt8 :=
  Shell.cString ((line.dropWhile (· ≠ 0x20)).drop 1)

def builtin (word : List UInt8) : Builtin :=
  ((comparisons.find? fun c => kernelText c.1 = word).map Prod.snd).getD .invalid

/-- What is seen of a round: the keys, what is shown, and whether there is a next one. -/
structure Turn where
  keys : List UInt8
  seen : Seen
  goesOn : Bool

/-- A round of the shell. -/
inductive Round (es : Option (List Tarfs.Entry)) : Turn → Ideal b → Prop where
  | empty (keys : List UInt8) (hkeys : 0x0A ∉ keys) (line : editLine keys = []) :
      Round es ⟨keys, ⟨typed keys, []⟩, true⟩ i
  | command (keys : List UInt8) (hkeys : 0x0A ∉ keys) (line : editLine keys ≠ []) (seen : Seen)
      (i' : Ideal b)
      (does : i.Does es (argument (editLine keys)) (builtin (commandWord (editLine keys))) seen i') :
      Round es ⟨keys, ⟨typed keys ++ seen.shown, seen.events⟩,
        (builtin (commandWord (editLine keys))).goesOn⟩ i'

/-- The rounds up to some moment between two rounds, or up to the end of the loop. -/
structure Session (es : Option (List Tarfs.Entry)) (turns : List Turn) (i' : Ideal b) : Prop where
  run : Run (fun i => i.Round es) i turns i'
  goesOn : ∀ t ∈ turns.dropLast, t.goesOn = true

end Ideal

end LispDos.Shell
