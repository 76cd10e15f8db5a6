import LispDos.Foundation.Ports
import LispDos.Hal.Vga
import LispDos.Kernel.Ata

/-! # The ATA driver at its ports

`hal/ata.c` over any device behind the ports of the primary channel. The functions return if their
waits do. -/

namespace LispDos.Ata

open Foundation Console

/-! ## Ports and commands -/

def primaryData : UInt16 := 0x1F0
def primarySeccount : UInt16 := 0x1F2
def primaryLbaLo : UInt16 := 0x1F3
def primaryLbaMid : UInt16 := 0x1F4
def primaryLbaHi : UInt16 := 0x1F5
def primaryDrvHead : UInt16 := 0x1F6
def primaryStatus : UInt16 := 0x1F7
def primaryCommand : UInt16 := 0x1F7

def cmdReadPio : UInt8 := 0x20
def cmdWritePio : UInt8 := 0x30
def cmdCacheFlush : UInt8 := 0xE7

/-! ## The words of a buffer -/

/-- The 256 words that `rep outsw` takes from a buffer of 512 bytes. -/
def sectorWords (s : Sector) : List UInt16 :=
  (List.range 256).map fun i => UInt16.ofNat (s.le16 (2 * i))

/-- The buffer after `rep insw`. -/
def ofWords (ws : List UInt16) : Sector := fun i =>
  UInt8.ofNat ((ws[i.val / 2]?.getD 0).toNat / 256 ^ (i.val % 2))

/-! ## The driver -/

variable {σ : Type*} (bus : Bus σ)

/-- One round of `ata_wait_ready`. -/
def waitRound (s : σ) : LoopStep σ (List Op × σ) :=
  let r := bus.inb primaryStatus s
  if r.1 &&& 0x80 = 0 ∧ r.1 &&& 0x40 ≠ 0 then .leave ([], r.2)
  else if r.1 &&& 0x01 ≠ 0 then
    .leave ([.print (kernelText "ATA: Erro de Hardware ou I/O invalido detectado.\n")], r.2)
  else .next r.2

/-- `ata_wait_ready` returns, with what it has printed. -/
def AtaWaitReady (s : σ) (r : List Op × σ) : Prop := LoopReturns (waitRound bus) s r

/-- The address of a sector and a command, as both functions send them. -/
def sendCommand (lba : UInt32) (command : UInt8) (s : σ) : σ :=
  let s := bus.outb primaryDrvHead ((0xE0 : UInt8) ||| ((lba >>> 24) &&& 0x0F).toUInt8) s
  let s := bus.outb primarySeccount 1 s
  let s := bus.outb primaryLbaLo lba.toUInt8 s
  let s := bus.outb primaryLbaMid (lba >>> 8).toUInt8 s
  let s := bus.outb primaryLbaHi (lba >>> 16).toUInt8 s
  bus.outb primaryCommand command s

/-- `ata_read_sector` returns: the buffer, and what has been printed. -/
inductive AtaReadSector (lba : UInt32) (s : σ) : Sector → List Op → σ → Prop where
  | intro (s₁ s₂ : σ) (out₁ out₂ : List Op) (ready : AtaWaitReady bus s (out₁, s₁))
      (answer : AtaWaitReady bus (sendCommand bus lba cmdReadPio s₁) (out₂, s₂)) :
      AtaReadSector lba s (ofWords (bus.insw primaryData 256 s₂).1) (out₁ ++ out₂)
        (bus.insw primaryData 256 s₂).2

/-- `ata_write_sector` returns. -/
inductive AtaWriteSector (lba : UInt32) (buffer : Sector) (s : σ) : List Op → σ → Prop where
  | intro (s₁ s₂ s₃ : σ) (out₁ out₂ out₃ : List Op) (ready : AtaWaitReady bus s (out₁, s₁))
      (answer : AtaWaitReady bus (sendCommand bus lba cmdWritePio s₁) (out₂, s₂))
      (flushed : AtaWaitReady bus (bus.outb primaryCommand cmdCacheFlush
        (bus.outsw primaryData (sectorWords buffer) s₂)) (out₃, s₃)) :
      AtaWriteSector lba buffer s (out₁ ++ out₂ ++ out₃) s₃

/-! ## Code that uses the driver -/

/-- Code like that of `fat16.c`: what it reads may decide what it does. -/
inductive Client (α : Type*) where
  | done (a : α)
  | read (lba : UInt32) (next : Sector → Client α)
  | write (lba : UInt32) (buffer : Sector) (next : Client α)

/-- One piece of code and then another. -/
def Client.bind {α β : Type*} : Client α → (α → Client β) → Client β
  | .done a, f => f a
  | .read lba next, f => .read lba fun s => (next s).bind f
  | .write lba buffer next, f => .write lba buffer (next.bind f)

instance : Monad Client where
  pure := .done
  bind := .bind

/-- A run of the code with the driver. -/
inductive Client.Runs {α : Type*} : Client α → σ → α → List Op → σ → Prop where
  | done (a : α) (s : σ) : Runs (.done a) s a [] s
  | read {lba next s buffer out s' a out' s''} (call : AtaReadSector bus lba s buffer out s')
      (others : Runs (next buffer) s' a out' s'') : Runs (.read lba next) s a (out ++ out') s''
  | write {lba buffer next s out s' a out' s''} (call : AtaWriteSector bus lba buffer s out s')
      (others : Runs next s' a out' s'') : Runs (.write lba buffer next) s a (out ++ out') s''

end LispDos.Ata
