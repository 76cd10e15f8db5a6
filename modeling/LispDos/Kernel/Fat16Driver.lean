import LispDos.Hal.Ata
import LispDos.Kernel.Fat16Dir

/-! # The FAT16 file system over the driver

The functions of `kernel/fat16.c` as code over `ata_read_sector` and `ata_write_sector`, which they
call in the order of the source. -/

namespace LispDos.Driven

open Ata Console

def ataReadSector (lba : ℕ) : Client Sector := .read (UInt32.ofNat lba) .done

def ataWriteSector (lba : ℕ) (buffer : Sector) : Client Unit :=
  .write (UInt32.ofNat lba) buffer (.done ())

variable (b : Bpb)

/-! ## The allocation table -/

def fat16GetFatEntry (cluster : ℕ) : Client ℕ := do
  let fatOffset := cluster * 2
  let sector ← ataReadSector (b.reserved + fatOffset / 512)
  return sector.le16 (fatOffset % 512)

def fat16SetFatEntry (cluster value : ℕ) : Client Unit := do
  let fatOffset := cluster * 2
  let fatSector := b.reserved + fatOffset / 512
  let sector ← ataReadSector fatSector
  let sector := sector.setLe16 (fatOffset % 512) value
  ataWriteSector fatSector sector
  if b.tables > 1 then ataWriteSector (fatSector + b.tableSize) sector else return ()

/-- The loop of `fat16_alloc_cluster` over the clusters that are left. -/
def allocScan : List ℕ → Client ℕ
  | [] => return 0
  | i :: is => do
      let entry ← fat16GetFatEntry b i
      if entry = 0 then
        fat16SetFatEntry b i 0xFFFF
        return i
      else allocScan is

def fat16AllocCluster : Client (Option ℕ) :=
  match b.totalClusters with
  | none => return none
  | some totalClusters => some <$> allocScan b (List.range' 2 (min totalClusters 0xFFF0 - 2))

/-- The loop that frees a chain, with a bound on its rounds. -/
def freeRounds : ℕ → ℕ → Client Unit
  | 0, _ => return ()
  | n + 1, c =>
      if IsCluster c then do
        let next ← fat16GetFatEntry b c
        fat16SetFatEntry b c 0
        freeRounds n next
      else return ()

/-- More rounds than there are tables of entries that are clear or not. -/
def maxRounds : ℕ := 2 ^ 0x10000

def freeChain (c : ℕ) : Client Unit := freeRounds b maxRounds c

/-! ## Looking up a name -/

/-- An entry of the root directory in the sector that has been read. -/
structure Found where
  rootSec : Sector
  sec : ℕ
  index : ℕ

def Found.entry (f : Found) : DirEntry := dirEntryAt f.rootSec f.index

/-- The body of the loops that look for a file: they are left at the end of the directory, or with
the entry. -/
def matchEntry (targetName : List UInt8) (rootSec : Sector) (sec i : ℕ) : Option (Option Found) :=
  let e := dirEntryAt rootSec i
  if e.mark = 0 then some none
  else if e.mark = 0xE5 then none
  else if e.name = targetName ∧ e.attributes &&& 0x10 = 0 then some (some ⟨rootSec, sec, i⟩)
  else none

def findSectors (targetName : List UInt8) : List ℕ → Client (Option Found)
  | [] => return none
  | sec :: secs => do
      let rootSec ← ataReadSector (b.rootDirSector + sec)
      match (List.range 16).findSome? (matchEntry targetName rootSec sec) with
      | some found => return found
      | none => findSectors targetName secs

def findFile (filename : List UInt8) : Client (Option Found) :=
  findSectors b (formatFatName filename) (List.range b.rootDirSize)

def fat16GetFileSize (filename : List UInt8) : Client ℕ := do
  let found ← findFile b filename
  return found.elim 0 fun f => f.entry.fileSize

/-! ## Reading -/

/-- The sector loop of one cluster in `fat16_read_file`. -/
def readSectors (size : ℕ) : ℕ → ℕ → ℕ → Client (List Store × ℕ)
  | 0, _, bytesRead => return ([], bytesRead)
  | n + 1, sector, bytesRead => do
      let tempSec ← ataReadSector sector
      let toCopy := min (size - bytesRead) 512
      let stores := (List.range toCopy).map fun k => (bytesRead + k, tempSec.byte k)
      if size ≤ bytesRead + toCopy then return (stores, bytesRead + toCopy)
      else
        let rest ← readSectors size n (sector + 1) (bytesRead + toCopy)
        return (stores ++ rest.1, rest.2)

/-- The chain loop of `fat16_read_file`. Nothing when the iterations run out. -/
def readLoop (size : ℕ) : ℕ → ℕ → ℕ → Client (Option (List Store))
  | 0, _, _ => return none
  | fuel + 1, cluster, bytesRead =>
      if IsCluster cluster then do
        let copied ← readSectors size b.spc (b.clusterSector cluster) bytesRead
        if size ≤ copied.2 then return some copied.1
        else
          let next ← fat16GetFatEntry b cluster
          let rest ← readLoop size fuel next copied.2
          return rest.map (copied.1 ++ ·)
      else return some []

def fat16ReadFile (filename : List UInt8) : Client (Option (ℤ × List Store)) := do
  let found ← findFile b filename
  match found with
  | none => return some (0, [])
  | some f => do
      let size := f.entry.fileSize
      let stores ← readLoop b size (size + 0x10001) f.entry.firstCluster 0
      return stores.map fun stores => (toInt32 size, stores)

/-! ## Writing -/

/-- The slot search of `fat16_write_file`, with the first cluster of the entry that it has found. -/
def searchSectors (targetName : List UInt8) : List ℕ → Option (ℕ × ℕ) → Client (WriteSlot × ℕ)
  | [], target => return (.free target, 0)
  | sec :: secs, target => do
      let rootSec ← ataReadSector (b.rootDirSector + sec)
      match searchSlots rootSec targetName sec (List.range 16) target with
      | .existing sec i => return (.existing sec i, (dirEntryAt rootSec i).firstCluster)
      | .free target => searchSectors targetName secs target

/-- The sector loop of one cluster in `fat16_write_file`. -/
def writeSectors (buffer : ℕ → UInt8) (size : ℕ) : ℕ → ℕ → ℕ → Client ℕ
  | 0, _, written => return written
  | n + 1, sector, written => do
      let filled := fillBuf buffer size 512 Sector.zero written
      ataWriteSector sector filled.1
      writeSectors buffer size n (sector + 1) filled.2

/-- `if (first_cluster != 0)`: the rollback of a write on a full disk. -/
def rollBack (first : ℕ) : Client Unit := if first ≠ 0 then freeChain b first else return ()

/-- The new cluster is the first one, or it is linked to the one before. -/
def linkCluster (first current newC : ℕ) : Client ℕ :=
  if first = 0 then return newC
  else do
    fat16SetFatEntry b current newC
    return first

/-- The allocation loop of `fat16_write_file`, with a bound on its rounds. -/
def writeLoop (buffer : ℕ → UInt8) (size : ℕ) : ℕ → ℕ → ℕ → ℕ → Client (WriteExit × ℕ)
  | 0, first, _, _ => return (.done, first)
  | n + 1, first, current, written =>
      if written < size ∨ (size = 0 ∧ first = 0) then do
        let allocated ← fat16AllocCluster b
        match allocated with
        | none => return (.divideError, first)
        | some newC =>
            if newC = 0 then do
              rollBack b first
              return (.diskFull, first)
            else do
              let first ← linkCluster b first current newC
              let written ← writeSectors buffer size b.spc (b.clusterSector newC) written
              if size = 0 then return (.done, first)
              else writeLoop buffer size n first newC written
      else return (.done, first)

/-- Steps 2 and 3 of `fat16_write_file`. -/
def writeAtSlot (targetName : List UInt8) (buffer : ℕ → UInt8) (size sec idx : ℕ) :
    Client WriteExit := do
  let loop ← writeLoop b buffer size (size + 2) 0 0 0
  if loop.1 = .done then
    let rootSec ← ataReadSector (b.rootDirSector + sec)
    let e := { name := targetName, attributes := 0x20, firstCluster := loop.2, fileSize := size }
    ataWriteSector (b.rootDirSector + sec) (storeDirEntry rootSec idx e)
    return .done
  else return loop.1

def fat16WriteFile (filename : List UInt8) (buffer : ℕ → UInt8) (size : UInt32) :
    Client (Option ℤ) := do
  let targetName := formatFatName filename
  let slot ← searchSectors b targetName (List.range b.rootDirSize) none
  match slot with
  | (.existing sec idx, firstCluster) => do
      freeChain b firstCluster
      let exit ← writeAtSlot b targetName buffer size.toNat sec idx
      return exit.result size.toNat
  | (.free (some (sec, idx)), _) => do
      let exit ← writeAtSlot b targetName buffer size.toNat sec idx
      return exit.result size.toNat
  | (.free none, _) => return WriteExit.rootFull.result size.toNat

/-! ## Deleting and listing -/

def fat16DeleteFile (filename : List UInt8) : Client ℤ := do
  let found ← findFile b filename
  match found with
  | none => return 0
  | some f => do
      freeChain b f.entry.firstCluster
      ataWriteSector (b.rootDirSector + f.sec) (f.rootSec.setByte (32 * f.index) 0xE5)
      return 1

/-- The loops of `fat16_dir`: the entries that are printed. They are left at the end of the
directory. -/
def dirSectors : List ℕ → Client (List DirEntry)
  | [] => return []
  | sec :: secs => do
      let rootSec ← ataReadSector (b.rootDirSector + sec)
      let entries := (List.range 16).map (dirEntryAt rootSec)
      if entries.any fun e => e.mark = 0 then return dirLoop entries
      else
        let rest ← dirSectors secs
        return dirLoop entries ++ rest

def fat16Dir : Client (List Op) := do
  let entries ← dirSectors b (List.range b.rootDirSize)
  return .print (kernelText "\n Pasta do HD (FAT16):\n\n") :: (entries.flatMap dirLine ++
    ((if entries.length = 0 then
        [.print (kernelText "Nenhum arquivo encontrado no HD.\n")] else []) ++
      [.print (kernelText "\n")]))

end LispDos.Driven
