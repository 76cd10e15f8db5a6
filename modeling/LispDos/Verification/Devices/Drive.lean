import LispDos.Hal.Ata
import Mathlib.Data.List.Basic
import Mathlib.Tactic.Ring

/-! # The driver and a drive

Any drive that keeps to the PIO protocol. Code that uses the driver sees the disk that
`ataReadSector` and `ataWriteSector` describe, with addresses of 28 bits. -/

namespace LispDos.Ata

open Foundation Console

/-! ## The registers of a drive -/

/-- The registers for the parameters of a command. -/
structure TaskFile where
  drvHead : UInt8
  seccount : UInt8
  lbaLo : UInt8
  lbaMid : UInt8
  lbaHi : UInt8

namespace TaskFile

/-- The address, when `drvHead` says that it is in LBA form. -/
def lba (f : TaskFile) : ℕ :=
  f.lbaLo.toNat + 2 ^ 8 * f.lbaMid.toNat + 2 ^ 16 * f.lbaHi.toNat + 2 ^ 24 * (f.drvHead &&& 0x0F).toNat

/-- The command is for the first drive, with an address in LBA form, for one sector that it has. -/
def Valid (capacity : ℕ) (f : TaskFile) : Prop :=
  f.drvHead &&& 0x50 = 0x40 ∧ f.seccount = 1 ∧ f.lba < capacity

instance (capacity : ℕ) (f : TaskFile) : Decidable (f.Valid capacity) :=
  inferInstanceAs (Decidable (_ ∧ _ ∧ _))

def set (port : UInt16) (v : UInt8) (f : TaskFile) : TaskFile :=
  if port = primaryDrvHead then { f with drvHead := v }
  else if port = primarySeccount then { f with seccount := v }
  else if port = primaryLbaLo then { f with lbaLo := v }
  else if port = primaryLbaMid then { f with lbaMid := v }
  else if port = primaryLbaHi then { f with lbaHi := v }
  else f

/-- The registers as the driver sets them. -/
def addressed (lba : UInt32) : TaskFile where
  drvHead := (0xE0 : UInt8) ||| ((lba >>> 24) &&& 0x0F).toUInt8
  seccount := 1
  lbaLo := lba.toUInt8
  lbaMid := (lba >>> 8).toUInt8
  lbaHi := (lba >>> 16).toUInt8

end TaskFile

/-- The ports of the parameters. -/
def parameterPorts : List UInt16 :=
  [primaryDrvHead, primarySeccount, primaryLbaLo, primaryLbaMid, primaryLbaHi]

/-- What the drive expects at its data port. -/
inductive Transfer where
  | idle
  | toHost (ws : List UInt16)
  | toDrive (lba : ℕ) (ws : List UInt16)
deriving DecidableEq

/-- The data is at an end with its last word. -/
def Transfer.giving : List UInt16 → Transfer
  | [] => .idle
  | ws => .toHost ws

/-- What there is to say about a drive that is not busy. -/
structure View where
  disk : Disk
  file : TaskFile
  transfer : Transfer

/-! ## The protocol -/

/-- The device behind the ports is a drive of `capacity` sectors: what the driver relies on. A
command, and the end of the data, may leave the drive busy or not, and it is busy for any time. -/
structure Pio {σ : Type*} (bus : Bus σ) (capacity : ℕ) where
  view : σ → View
  Busy : σ → Prop
  /-- `BSY`, and no `ERR` -/
  busy_status : ∀ s, Busy s → (bus.inb primaryStatus s).1 &&& 0x80 ≠ 0 ∧
    (bus.inb primaryStatus s).1 &&& 0x01 = 0
  /-- No `BSY`, and `DRDY` -/
  ready_status : ∀ s, ¬ Busy s → (bus.inb primaryStatus s).1 &&& 0x80 = 0 ∧
    (bus.inb primaryStatus s).1 &&& 0x40 ≠ 0
  status_ready : ∀ s, ¬ Busy s → ¬ Busy (bus.inb primaryStatus s).2
  status_view : ∀ s, view (bus.inb primaryStatus s).2 = view s
  /-- The drive gets ready some time. -/
  settles : ∀ s, ∃ n, ¬ Busy ((fun s => (bus.inb primaryStatus s).2)^[n] s)
  parameter : ∀ port v s, port ∈ parameterPorts → ¬ Busy s → (view s).transfer = .idle →
    view (bus.outb port v s) = { view s with file := (view s).file.set port v } ∧
      ¬ Busy (bus.outb port v s)
  /-- From the command on the drive is busy, or it has the sector for the host. -/
  read : ∀ s, ¬ Busy s → (view s).transfer = .idle → (view s).file.Valid capacity →
    view (bus.outb primaryCommand cmdReadPio s) =
      { view s with transfer := .giving (sectorWords ((view s).disk (view s).file.lba)) }
  /-- From the command on the drive is busy, or it asks for the sector. -/
  write : ∀ s, ¬ Busy s → (view s).transfer = .idle → (view s).file.Valid capacity →
    view (bus.outb primaryCommand cmdWritePio s) =
      { view s with transfer := .toDrive (view s).file.lba [] }
  gives : ∀ w ws s, ¬ Busy s → (view s).transfer = .giving (w :: ws) →
    (bus.inw primaryData s).1 = w ∧
      view (bus.inw primaryData s).2 = { view s with transfer := .giving ws } ∧
      (ws ≠ [] → ¬ Busy (bus.inw primaryData s).2)
  takes : ∀ lba ws w s, ¬ Busy s → (view s).transfer = .toDrive lba ws → ws.length < 255 →
    view (bus.outw primaryData w s) = { view s with transfer := .toDrive lba (ws ++ [w]) } ∧
      ¬ Busy (bus.outw primaryData w s)
  /-- The last word of a sector -/
  stores : ∀ lba ws w s, ¬ Busy s → (view s).transfer = .toDrive lba ws → ws.length = 255 →
    view (bus.outw primaryData w s) =
      { view s with
        disk := ataWriteSector (view s).disk lba (ofWords (ws ++ [w]))
        transfer := .idle }
  /-- A drive that is busy takes no notice of the command, and another one writes its cache back. -/
  flush : ∀ s, (view s).transfer = .idle → view (bus.outb primaryCommand cmdCacheFlush s) = view s

variable {σ : Type*} {bus : Bus σ} {capacity : ℕ} (pio : Pio bus capacity) {s : σ} {lba : UInt32}
  {α : Type}

/-! ## Words and bytes -/

theorem length_sectorWords (s : Sector) : (sectorWords s).length = 256 := by
  rw [sectorWords, List.length_map, List.length_range]

theorem sectorWords_getElem? (s : Sector) {i : ℕ} (hi : i < 256) :
    (sectorWords s)[i]? = some (UInt16.ofNat (s.le16 (2 * i))) := by
  rw [sectorWords, List.getElem?_map, List.getElem?_range hi]
  rfl

theorem ofWords_sectorWords (s : Sector) : ofWords (sectorWords s) = s := by
  funext ⟨i, hi⟩
  have hlo := (s.byte (2 * (i / 2))).toNat_lt
  have hhi := (s.byte (2 * (i / 2) + 1)).toNat_lt
  have hle : s.le16 (2 * (i / 2)) < 2 ^ 16 := by
    rw [Sector.le16]
    omega
  have hbyte : s ⟨i, hi⟩ = s.byte i := by rw [Sector.byte, dif_pos hi]
  apply UInt8.toNat_inj.mp
  rw [ofWords, sectorWords_getElem? s (show i / 2 < 256 by omega), Option.getD_some,
    UInt16.toNat_ofNat', Nat.mod_eq_of_lt hle, UInt8.toNat_ofNat', hbyte, Sector.le16]
  show ((s.byte (2 * (i / 2))).toNat + 256 * (s.byte (2 * (i / 2) + 1)).toNat) / 256 ^ (i % 2) % _ = _
  rcases Nat.mod_two_eq_zero_or_one i with heven | hodd
  · have hi2 : 2 * (i / 2) = i := by omega
    rw [hi2] at hlo hhi ⊢
    rw [heven, Nat.pow_zero, Nat.div_one]
    omega
  · have hi2 : 2 * (i / 2) + 1 = i := by omega
    rw [hi2] at hhi ⊢
    rw [hodd, Nat.pow_one]
    omega

/-! ## The address -/

/-- The driver sends 28 bits of the address. -/
theorem addressed_lba (lba : UInt32) : (TaskFile.addressed lba).lba = lba.toNat % 2 ^ 28 := by
  have hhead : ((((0xE0 : UInt8) ||| ((lba >>> 24) &&& 0x0F).toUInt8) &&& 0x0F).toNat : ℕ) =
      lba.toNat / 2 ^ 24 % 2 ^ 4 := by
    have hand : ∀ x : UInt8, (((0xE0 : UInt8) ||| x) &&& 0x0F).toNat = x.toNat % 2 ^ 4 := by
      intro x
      rw [UInt8.toNat_and, UInt8.toNat_or, Nat.and_or_distrib_right]
      show 0 ||| x.toNat &&& 15 = _
      rw [Nat.zero_or]
      exact Nat.and_two_pow_sub_one_eq_mod _ 4
    have hmask : (lba.toNat >>> 24 &&& 0x0F) = lba.toNat / 2 ^ 24 % 2 ^ 4 := by
      rw [Nat.shiftRight_eq_div_pow]
      exact Nat.and_two_pow_sub_one_eq_mod _ 4
    rw [hand, UInt32.toNat_toUInt8, UInt32.toNat_and, UInt32.toNat_shiftRight]
    show (lba.toNat >>> 24 &&& 0x0F) % 2 ^ 8 % 2 ^ 4 = _
    rw [hmask]
    omega
  have hlo : lba.toUInt8.toNat = lba.toNat % 2 ^ 8 := UInt32.toNat_toUInt8 lba
  have hmid : (lba >>> 8).toUInt8.toNat = lba.toNat / 2 ^ 8 % 2 ^ 8 := by
    rw [UInt32.toNat_toUInt8, UInt32.toNat_shiftRight, Nat.shiftRight_eq_div_pow]
    rfl
  have hhi : (lba >>> 16).toUInt8.toNat = lba.toNat / 2 ^ 16 % 2 ^ 8 := by
    rw [UInt32.toNat_toUInt8, UInt32.toNat_shiftRight, Nat.shiftRight_eq_div_pow]
    rfl
  show lba.toUInt8.toNat + 2 ^ 8 * (lba >>> 8).toUInt8.toNat + 2 ^ 16 * (lba >>> 16).toUInt8.toNat +
    2 ^ 24 * (((0xE0 : UInt8) ||| ((lba >>> 24) &&& 0x0F).toUInt8) &&& 0x0F).toNat = _
  rw [hhead, hlo, hmid, hhi]
  omega

theorem addressed_valid (lba : UInt32) :
    (TaskFile.addressed lba).Valid capacity ↔ lba.toNat % 2 ^ 28 < capacity := by
  have hhead : (TaskFile.addressed lba).drvHead &&& 0x50 = 0x40 := by
    show ((0xE0 : UInt8) ||| ((lba >>> 24) &&& 0x0F).toUInt8) &&& 0x50 = 0x40
    apply UInt8.toNat_inj.mp
    rw [UInt32.toUInt8_and, UInt8.toNat_and, UInt8.toNat_or, UInt8.toNat_and, Nat.and_or_distrib_right,
      Nat.and_assoc]
    show 0x40 ||| (lba >>> 24).toUInt8.toNat &&& 0 = 0x40
    rw [Nat.and_zero]
    rfl
  rw [TaskFile.Valid, addressed_lba, and_iff_right hhead]
  exact and_iff_right rfl

/-! ## Waiting -/

theorem waitRound_busy (hbusy : pio.Busy s) :
    waitRound bus s = .next (bus.inb primaryStatus s).2 := by
  obtain ⟨hbsy, herr⟩ := pio.busy_status s hbusy
  rw [waitRound]
  exact (if_neg fun h => hbsy h.1).trans (if_neg fun h => h herr)

theorem waitRound_ready (hready : ¬ pio.Busy s) :
    waitRound bus s = .leave ([], (bus.inb primaryStatus s).2) := by
  rw [waitRound]
  exact if_pos (pio.ready_status s hready)

/-- A wait ends without a message, when the drive is ready. -/
theorem ataWaitReady_pio (s : σ) :
    ∃ t, AtaWaitReady bus s ([], t) ∧ ¬ pio.Busy t ∧ pio.view t = pio.view s := by
  obtain ⟨n, hn⟩ := pio.settles s
  obtain ⟨u, hview, hready, hreturns⟩ := loopReturns_of_poll
    (f := fun s => (([] : List Op), (bus.inb primaryStatus s).2))
    (P := fun u => pio.view u = pio.view s)
    (fun _ h => waitRound_busy pio h) (fun _ h => waitRound_ready pio h)
    (fun u hu => (pio.status_view u).trans hu) n hn rfl
  exact ⟨_, hreturns, pio.status_ready u hready, (pio.status_view u).trans hview⟩

/-! ## Commands -/

/-- A drive that takes commands, with its contents and its registers. -/
structure Pio.Ready (disk : Disk) (file : TaskFile) (s : σ) : Prop where
  ready : ¬ pio.Busy s
  view : pio.view s = ⟨disk, file, .idle⟩

/-- The drive is between two calls of the driver: it may be busy, but it waits for nothing. -/
def Pio.Idle (s : σ) : Prop := (pio.view s).transfer = .idle

variable {pio} {disk : Disk} {file : TaskFile}

/-- A byte for a register. -/
theorem Pio.Ready.set (h : pio.Ready disk file s) {port : UInt16} (v : UInt8)
    (hport : port ∈ parameterPorts) : pio.Ready disk (file.set port v) (bus.outb port v s) := by
  have hidle : (pio.view s).transfer = .idle := by rw [h.view]
  obtain ⟨hview, hready⟩ := pio.parameter port v s hport h.ready hidle
  rw [h.view] at hview
  exact ⟨hready, hview⟩

/-- All registers get their values: only the command itself is left. -/
theorem sendCommand_addressed (h : pio.Ready disk file s) (lba : UInt32) (c : UInt8) :
    ∃ u, sendCommand bus lba c s = bus.outb primaryCommand c u ∧
      pio.Ready disk (.addressed lba) u := by
  have h₁ := h.set ((0xE0 : UInt8) ||| ((lba >>> 24) &&& 0x0F).toUInt8)
    (show primaryDrvHead ∈ parameterPorts by decide)
  have h₂ := h₁.set 1 (show primarySeccount ∈ parameterPorts by decide)
  have h₃ := h₂.set lba.toUInt8 (show primaryLbaLo ∈ parameterPorts by decide)
  have h₄ := h₃.set (lba >>> 8).toUInt8 (show primaryLbaMid ∈ parameterPorts by decide)
  have h₅ := h₄.set (lba >>> 16).toUInt8 (show primaryLbaHi ∈ parameterPorts by decide)
  exact ⟨_, rfl, h₅⟩

theorem sendCommand_read (h : pio.Ready disk file s) (hlba : lba.toNat % 2 ^ 28 < capacity) :
    pio.view (sendCommand bus lba cmdReadPio s) =
      ⟨disk, .addressed lba, .giving (sectorWords (disk (lba.toNat % 2 ^ 28)))⟩ := by
  obtain ⟨u, hsend, hu⟩ := sendCommand_addressed h lba cmdReadPio
  have hidle : (pio.view u).transfer = .idle := by rw [hu.view]
  have hvalid : (pio.view u).file.Valid capacity := by
    rw [hu.view]
    exact (addressed_valid lba).mpr hlba
  have hview := pio.read u hu.ready hidle hvalid
  rw [hu.view, addressed_lba] at hview
  rw [hsend]
  exact hview

theorem sendCommand_write (h : pio.Ready disk file s) (hlba : lba.toNat % 2 ^ 28 < capacity) :
    pio.view (sendCommand bus lba cmdWritePio s) =
      ⟨disk, .addressed lba, .toDrive (lba.toNat % 2 ^ 28) []⟩ := by
  obtain ⟨u, hsend, hu⟩ := sendCommand_addressed h lba cmdWritePio
  have hidle : (pio.view u).transfer = .idle := by rw [hu.view]
  have hvalid : (pio.view u).file.Valid capacity := by
    rw [hu.view]
    exact (addressed_valid lba).mpr hlba
  have hview := pio.write u hu.ready hidle hvalid
  rw [hu.view, addressed_lba] at hview
  rw [hsend]
  exact hview

/-! ## Data -/

/-- The words of a sector for the host. -/
theorem insw_sector {sector : Sector} (hready : ¬ pio.Busy s)
    (hview : pio.view s = ⟨disk, file, .giving (sectorWords sector)⟩) :
    (bus.insw primaryData 256 s).1 = sectorWords sector ∧
      pio.view (bus.insw primaryData 256 s).2 = ⟨disk, file, .idle⟩ := by
  have hgive := Bus.insw_eq bus primaryData
    (P := fun ws u => pio.view u = ⟨disk, file, .giving ws⟩ ∧ (ws ≠ [] → ¬ pio.Busy u)) ?_
    (sectorWords sector) ⟨hview, fun _ => hready⟩
  · rw [length_sectorWords] at hgive
    exact ⟨hgive.1, hgive.2.1⟩
  · intro w ws u ⟨hu, hu'⟩
    have htransfer : (pio.view u).transfer = .giving (w :: ws) := by rw [hu]
    obtain ⟨hword, hnext, hbusy⟩ := pio.gives w ws u (hu' (List.cons_ne_nil w ws)) htransfer
    rw [hu] at hnext
    exact ⟨hword, hnext, hbusy⟩

/-- The words of a sector for the drive. -/
theorem outsw_sector {n : ℕ} (hready : ¬ pio.Busy s)
    (hview : pio.view s = ⟨disk, file, .toDrive n []⟩) (sector : Sector) :
    pio.view (bus.outsw primaryData (sectorWords sector) s) =
      ⟨ataWriteSector disk n sector, file, .idle⟩ := by
  obtain ⟨ws, w, hwords⟩ : ∃ ws w, sectorWords sector = ws ++ [w] := by
    have hne : sectorWords sector ≠ [] := by
      rw [← List.length_pos_iff, length_sectorWords]
      decide
    exact ⟨_, _, (List.dropLast_append_getLast hne).symm⟩
  have hlen : ws.length = 255 := by
    have hlen := length_sectorWords sector
    rw [hwords, List.length_append, List.length_singleton] at hlen
    omega
  have htake := Bus.outsw_of_takes bus primaryData
    (P := fun ws u => pio.view u = ⟨disk, file, .toDrive n ws⟩ ∧ ¬ pio.Busy u) 255 ?_
    ws (by rw [List.length_nil, hlen]) ⟨hview, hready⟩
  · obtain ⟨htaken, htaken'⟩ := htake
    rw [List.nil_append] at htaken
    have htransfer : (pio.view (bus.outsw primaryData ws s)).transfer = .toDrive n ws := by rw [htaken]
    have hstore := pio.stores n ws w _ htaken' htransfer hlen
    rw [htaken, ← hwords, ofWords_sectorWords] at hstore
    rw [hwords, Bus.outsw_append]
    exact hstore
  · intro ws w u hws ⟨hu, hu'⟩
    have htransfer : (pio.view u).transfer = .toDrive n ws := by rw [hu]
    obtain ⟨hnext, hbusy⟩ := pio.takes n ws w u hu' htransfer hws
    rw [hu] at hnext
    exact ⟨hnext, hbusy⟩

/-! ## Calls of the driver -/

/-- Before a command the driver waits. -/
theorem Pio.Idle.ready (hidle : pio.Idle s) : ∃ t, AtaWaitReady bus s ([], t) ∧
    pio.Ready (pio.view s).disk (pio.view s).file t := by
  obtain ⟨t, hwait, hready, hview⟩ := ataWaitReady_pio pio s
  refine ⟨t, hwait, hready, hview.trans ?_⟩
  rw [← show (pio.view s).transfer = .idle from hidle]

theorem ataReadSector_pio (hidle : pio.Idle s) (hlba : lba.toNat % 2 ^ 28 < capacity) :
    ∃ t, AtaReadSector bus lba s (ataReadSector (pio.view s).disk (lba.toNat % 2 ^ 28)) [] t ∧
      pio.Idle t ∧ (pio.view t).disk = (pio.view s).disk := by
  obtain ⟨s₁, hwait₁, hready₁⟩ := hidle.ready
  have hsent := sendCommand_read hready₁ hlba
  obtain ⟨s₂, hwait₂, hready₂, hview₂⟩ := ataWaitReady_pio pio (sendCommand bus lba cmdReadPio s₁)
  obtain ⟨hwords, hend⟩ := insw_sector hready₂ (hview₂.trans hsent)
  have hread : AtaReadSector bus lba s _ _ _ := .intro s₁ s₂ [] [] hwait₁ hwait₂
  rw [hwords, ofWords_sectorWords] at hread
  refine ⟨_, hread, ?_, ?_⟩
  · rw [Pio.Idle, hend]
  · rw [hend]

theorem ataWriteSector_pio (hidle : pio.Idle s) (hlba : lba.toNat % 2 ^ 28 < capacity)
    (buffer : Sector) :
    ∃ t, AtaWriteSector bus lba buffer s [] t ∧ pio.Idle t ∧
      (pio.view t).disk = ataWriteSector (pio.view s).disk (lba.toNat % 2 ^ 28) buffer := by
  obtain ⟨s₁, hwait₁, hready₁⟩ := hidle.ready
  have hsent := sendCommand_write hready₁ hlba
  obtain ⟨s₂, hwait₂, hready₂, hview₂⟩ := ataWaitReady_pio pio (sendCommand bus lba cmdWritePio s₁)
  have hdata := outsw_sector hready₂ (hview₂.trans hsent) buffer
  have hflush := pio.flush (bus.outsw primaryData (sectorWords buffer) s₂) (by rw [hdata])
  obtain ⟨s₃, hwait₃, -, hview₃⟩ := ataWaitReady_pio pio
    (bus.outb primaryCommand cmdCacheFlush (bus.outsw primaryData (sectorWords buffer) s₂))
  have hend := (hview₃.trans hflush).trans hdata
  refine ⟨s₃, .intro s₁ s₂ s₃ [] [] [] hwait₁ hwait₂ hwait₃, ?_, ?_⟩
  · rw [Pio.Idle, hend]
  · rw [hend]

/-! ## Code over the driver -/

/-- The calls of the driver return in one way only. -/
theorem AtaReadSector.unique {x x' : Sector} {out out' : List Op} {t t' : σ}
    (h : AtaReadSector bus lba s x out t) (h' : AtaReadSector bus lba s x' out' t') :
    x = x' ∧ out = out' ∧ t = t' := by
  obtain ⟨s₁, s₂, out₁, out₂, ready, answer⟩ := h
  obtain ⟨s₁', s₂', out₁', out₂', ready', answer'⟩ := h'
  obtain ⟨rfl, rfl⟩ := Prod.mk.inj (ready.unique ready')
  obtain ⟨rfl, rfl⟩ := Prod.mk.inj (answer.unique answer')
  exact ⟨rfl, rfl, rfl⟩

theorem AtaWriteSector.unique {x : Sector} {out out' : List Op} {t t' : σ}
    (h : AtaWriteSector bus lba x s out t) (h' : AtaWriteSector bus lba x s out' t') :
    out = out' ∧ t = t' := by
  obtain ⟨s₁, s₂, s₃, out₁, out₂, out₃, ready, answer, flushed⟩ := h
  obtain ⟨s₁', s₂', s₃', out₁', out₂', out₃', ready', answer', flushed'⟩ := h'
  obtain ⟨rfl, rfl⟩ := Prod.mk.inj (ready.unique ready')
  obtain ⟨rfl, rfl⟩ := Prod.mk.inj (answer.unique answer')
  obtain ⟨rfl, rfl⟩ := Prod.mk.inj (flushed.unique flushed')
  exact ⟨rfl, rfl⟩

/-- What the code computes on a disk, and the disk in the end. -/
def Client.onDisk : Client α → Disk → α × Disk
  | .done a, disk => (a, disk)
  | .read lba next, disk => (next (ataReadSector disk (lba.toNat % 2 ^ 28))).onDisk disk
  | .write lba buffer next, disk => next.onDisk (ataWriteSector disk (lba.toNat % 2 ^ 28) buffer)

/-- All addresses that the code comes to are those of sectors. -/
def Client.Inside (capacity : ℕ) : Client α → Disk → Prop
  | .done _, _ => True
  | .read lba next, disk =>
      lba.toNat % 2 ^ 28 < capacity ∧
        (next (ataReadSector disk (lba.toNat % 2 ^ 28))).Inside capacity disk
  | .write lba buffer next, disk =>
      lba.toNat % 2 ^ 28 < capacity ∧
        next.Inside capacity (ataWriteSector disk (lba.toNat % 2 ^ 28) buffer)

variable {p : Client α} {a a' : α} {out out' : List Op} {t t' : σ}

theorem Client.Runs.unique (h : p.Runs bus s a out t) (h' : p.Runs bus s a' out' t') :
    a = a' ∧ out = out' ∧ t = t' := by
  induction h generalizing out' with
  | done a s =>
      cases h'
      exact ⟨rfl, rfl, rfl⟩
  | read call others ih =>
      cases h' with
      | read call' others' =>
          obtain ⟨rfl, rfl, rfl⟩ := call.unique call'
          obtain ⟨rfl, rfl, rfl⟩ := ih others'
          exact ⟨rfl, rfl, rfl⟩
  | write call others ih =>
      cases h' with
      | write call' others' =>
          obtain ⟨rfl, rfl⟩ := call.unique call'
          obtain ⟨rfl, rfl, rfl⟩ := ih others'
          exact ⟨rfl, rfl, rfl⟩

/-- Code over the driver runs to its end on an idle drive, and computes what it computes on the
disk. -/
theorem Client.exists_runs (p : Client α) {s : σ} (hidle : pio.Idle s)
    (hinside : p.Inside capacity (pio.view s).disk) :
    ∃ t, p.Runs bus s (p.onDisk (pio.view s).disk).1 [] t ∧
      (pio.view t).disk = (p.onDisk (pio.view s).disk).2 ∧ pio.Idle t := by
  induction p generalizing s with
  | done a => exact ⟨s, .done a s, rfl, hidle⟩
  | read lba next ih =>
      obtain ⟨hlba, hinside⟩ := hinside
      obtain ⟨s₁, hcall, hidle₁, hdisk₁⟩ := ataReadSector_pio hidle hlba
      rw [← hdisk₁] at hinside
      obtain ⟨t, hruns, hdisk, hidle'⟩ := ih _ hidle₁ hinside
      rw [hdisk₁] at hruns hdisk
      exact ⟨t, .read hcall hruns, hdisk, hidle'⟩
  | write lba buffer next ih =>
      obtain ⟨hlba, hinside⟩ := hinside
      obtain ⟨s₁, hcall, hidle₁, hdisk₁⟩ := ataWriteSector_pio hidle hlba buffer
      rw [← hdisk₁] at hinside
      obtain ⟨t, hruns, hdisk, hidle'⟩ := ih hidle₁ hinside
      rw [hdisk₁] at hruns hdisk
      exact ⟨t, .write hcall hruns, hdisk, hidle'⟩

/-- A drive that is busy for a number of reads of the status after each command and each sector. -/
structure Drive extends View where
  busy : ℕ
  waits : ℕ

namespace Drive

variable (capacity : ℕ) (latency : ℕ → ℕ)

def wait (d : Drive) (v : View) : Drive := ⟨v, latency d.waits, d.waits + 1⟩

def command (c : UInt8) (d : Drive) : Drive :=
  if c = cmdReadPio ∧ d.file.Valid capacity then
    d.wait latency { d.toView with transfer := .giving (sectorWords (d.disk d.file.lba)) }
  else if c = cmdWritePio ∧ d.file.Valid capacity then
    d.wait latency { d.toView with transfer := .toDrive d.file.lba [] }
  else d.wait latency d.toView

/-- While the drive is busy or waits for data it takes no command and no parameters. -/
def outb (port : UInt16) (v : UInt8) (d : Drive) : Drive :=
  if d.busy ≠ 0 ∨ d.transfer ≠ .idle then d
  else if port = primaryCommand then d.command capacity latency v
  else { d with file := d.file.set port v }

/-- The status: `BSY`, or `DRDY` with `DRQ`. -/
def inb (port : UInt16) (d : Drive) : UInt8 × Drive :=
  if port = primaryStatus then
    (if d.busy ≠ 0 then 0x80 else if d.transfer = .idle then 0x40 else 0x48,
      { d with busy := d.busy - 1 })
  else (0, d)

def inw (_port : UInt16) (d : Drive) : UInt16 × Drive :=
  match d.transfer with
  | .toHost (w :: ws) => (w, { d with transfer := .giving ws })
  | _ => (0xFFFF, d)

def outw (_port : UInt16) (w : UInt16) (d : Drive) : Drive :=
  match d.transfer with
  | .toDrive lba ws =>
      if ws.length = 255 then
        d.wait latency { d.toView with
          disk := ataWriteSector d.disk lba (ofWords (ws ++ [w]))
          transfer := .idle }
      else { d with transfer := .toDrive lba (ws ++ [w]) }
  | _ => d

end Drive

def driveBus (capacity : ℕ) (latency : ℕ → ℕ) : Bus Drive :=
  ⟨Drive.inb, Drive.outb capacity latency, Drive.inw, Drive.outw latency⟩

section Drive

variable {latency : ℕ → ℕ} {d : Drive}

theorem outb_idle (hbusy : ¬ d.busy ≠ 0) (hidle : d.transfer = .idle) (port : UInt16) (v : UInt8) :
    d.outb capacity latency port v = if port = primaryCommand then d.command capacity latency v
      else { d with file := d.file.set port v } :=
  if_neg fun h => h.elim hbusy fun h => h hidle

theorem command_read (h : d.file.Valid capacity) : d.command capacity latency cmdReadPio =
    d.wait latency { d.toView with transfer := .giving (sectorWords (d.disk d.file.lba)) } :=
  if_pos ⟨rfl, h⟩

theorem command_write (h : d.file.Valid capacity) : d.command capacity latency cmdWritePio =
    d.wait latency { d.toView with transfer := .toDrive d.file.lba [] } :=
  (if_neg fun h => absurd h.1 (by decide)).trans (if_pos ⟨rfl, h⟩)

theorem command_flush : d.command capacity latency cmdCacheFlush = d.wait latency d.toView :=
  (if_neg fun h => absurd h.1 (by decide)).trans (if_neg fun h => absurd h.1 (by decide))

end Drive

/-- The drive keeps to the protocol. -/
def drivePio (capacity : ℕ) (latency : ℕ → ℕ) : Pio (driveBus capacity latency) capacity where
  view := Drive.toView
  Busy d := d.busy ≠ 0
  busy_status d hbusy := by
    have hstatus : (Drive.inb primaryStatus d).1 = 0x80 := if_pos hbusy
    show (Drive.inb primaryStatus d).1 &&& 0x80 ≠ 0 ∧ (Drive.inb primaryStatus d).1 &&& 0x01 = 0
    rw [hstatus]
    decide
  ready_status d hready := by
    have hstatus : (Drive.inb primaryStatus d).1 = if d.transfer = .idle then 0x40 else 0x48 :=
      if_neg hready
    show (Drive.inb primaryStatus d).1 &&& 0x80 = 0 ∧ (Drive.inb primaryStatus d).1 &&& 0x40 ≠ 0
    rw [hstatus]
    split_ifs <;> decide
  status_ready d hready := by
    show ¬ d.busy - 1 ≠ 0
    omega
  status_view _ := rfl
  settles d := (exists_countdown (g := Drive.busy) (fun _ => rfl) d).imp fun _ h => not_not.mpr h
  parameter port v d hport hready hidle := by
    have hne : port ≠ primaryCommand := fun h => absurd hport (by rw [h]; decide)
    have hset : d.outb capacity latency port v = _ := outb_idle hready hidle port v
    rw [if_neg hne] at hset
    show (d.outb capacity latency port v).toView = _ ∧ ¬ (d.outb capacity latency port v).busy ≠ 0
    rw [hset]
    exact ⟨rfl, hready⟩
  read d hready hidle hvalid := by
    show (d.outb capacity latency primaryCommand cmdReadPio).toView = _
    rw [outb_idle hready hidle, if_pos rfl, command_read hvalid]
    rfl
  write d hready hidle hvalid := by
    show (d.outb capacity latency primaryCommand cmdWritePio).toView = _
    rw [outb_idle hready hidle, if_pos rfl, command_write hvalid]
    rfl
  gives w ws d hready htransfer := by
    have hgive : Drive.inw primaryData d = (w, { d with transfer := .giving ws }) := by
      rw [Drive.inw, htransfer]
      rfl
    show (Drive.inw primaryData d).1 = w ∧ (Drive.inw primaryData d).2.toView = _ ∧
      (ws ≠ [] → ¬ (Drive.inw primaryData d).2.busy ≠ 0)
    rw [hgive]
    exact ⟨rfl, rfl, fun _ => hready⟩
  takes lba ws w d hready htransfer hlen := by
    have htake : Drive.outw latency primaryData w d =
        { d with transfer := .toDrive lba (ws ++ [w]) } := by
      rw [Drive.outw, htransfer]
      exact if_neg (by omega)
    show (Drive.outw latency primaryData w d).toView = _ ∧
      ¬ (Drive.outw latency primaryData w d).busy ≠ 0
    rw [htake]
    exact ⟨rfl, hready⟩
  stores lba ws w d hready htransfer hlen := by
    have hstore : Drive.outw latency primaryData w d = d.wait latency { d.toView with
        disk := ataWriteSector d.disk lba (ofWords (ws ++ [w]))
        transfer := .idle } := by
      rw [Drive.outw, htransfer]
      exact if_pos hlen
    show (Drive.outw latency primaryData w d).toView = _
    rw [hstore]
    rfl
  flush d hidle := by
    show (d.outb capacity latency primaryCommand cmdCacheFlush).toView = d.toView
    by_cases hbusy : d.busy ≠ 0
    · rw [Drive.outb, if_pos (.inl hbusy)]
    · rw [outb_idle hbusy hidle, if_pos rfl, command_flush]
      rfl

/-- A drive that has just got a command. -/
def slowDrive : Drive where
  disk _ := Sector.zero
  file := ⟨0, 0, 0, 0, 0⟩
  transfer := .idle
  busy := 4
  waits := 0

/-- The sector 2^28 + 1 is the sector 1. -/
def wrappedClient : Client UInt8 :=
  .write 1 (fun _ => 7) (.read 0x10000001 fun s => .done (s.byte 0))

end LispDos.Ata
