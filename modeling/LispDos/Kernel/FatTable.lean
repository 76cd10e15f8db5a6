import LispDos.Kernel.Ata

/-! # The boot sector and the allocation table

The BIOS parameter block of `struct fat_BS` with the sector numbers `fat16_init`
derives from it, and the two accessors of the allocation table. -/

namespace LispDos

/-- The fields of `struct fat_BS` that `fat16.c` uses. -/
structure Bpb where
  bytesPerSector : UInt16
  sectorsPerCluster : UInt8
  reservedSectorCount : UInt16
  tableCount : UInt8
  rootEntryCount : UInt16
  totalSectors16 : UInt16
  tableSize16 : UInt16
  totalSectors32 : UInt32
  deriving DecidableEq, Repr

namespace Bpb

/-- `bpb.sectors_per_cluster` in the arithmetic of `fat16.c`. -/
def spc (b : Bpb) : ℕ := b.sectorsPerCluster.toNat

def reserved (b : Bpb) : ℕ := b.reservedSectorCount.toNat

def tables (b : Bpb) : ℕ := b.tableCount.toNat

def tableSize (b : Bpb) : ℕ := b.tableSize16.toNat

def rootEntries (b : Bpb) : ℕ := b.rootEntryCount.toNat

/-- The static `root_dir_sector`. -/
def rootDirSector (b : Bpb) : ℕ := b.reserved + b.tables * b.tableSize

/-- The static `root_dir_size`, in sectors. -/
def rootDirSize (b : Bpb) : ℕ := b.rootEntries * 32 / 512

/-- The static `data_sector`. -/
def dataSector (b : Bpb) : ℕ := b.rootDirSector + b.rootDirSize

/-- The first sector of a cluster, `data_sector + ((cluster - 2) * sectors_per_cluster)`. -/
def clusterSector (b : Bpb) (cluster : ℕ) : ℕ := b.dataSector + (cluster - 2) * b.spc

/-- `total_clusters` of `fat16_alloc_cluster`, with its 32-bit wrap-around. There is
no value when one of the two divisors is zero: the processor traps. -/
def totalClusters (b : Bpb) : Option ℕ :=
  let totalSectors :=
    if b.totalSectors16 = 0 then b.totalSectors32.toNat else b.totalSectors16.toNat
  if b.bytesPerSector = 0 then none
  else
    let rootDirSectors :=
      (b.rootEntries * 32 + (b.bytesPerSector.toNat - 1)) / b.bytesPerSector.toNat
    let dataSectors :=
      (totalSectors + 2 ^ 32 - (b.reserved + b.tables * b.tableSize + rootDirSectors)) % 2 ^ 32
    if b.sectorsPerCluster = 0 then none else some (dataSectors / b.spc)

end Bpb

/-- `fat16_init`: the new `bpb`, or the message printed when sector 0 has no
signature and the statics stay as they were. -/
def fat16Init (d : Disk) : Except String Bpb :=
  let buffer := ataReadSector d 0
  if buffer.le16 510 ≠ 0xAA55 then
    .error "FAT16: Assinatura 0xAA55 nao encontrada no setor 0.\n"
  else
    .ok {
      bytesPerSector := UInt16.ofNat (buffer.le16 11)
      sectorsPerCluster := buffer.byte 13
      reservedSectorCount := UInt16.ofNat (buffer.le16 14)
      tableCount := buffer.byte 16
      rootEntryCount := UInt16.ofNat (buffer.le16 17)
      totalSectors16 := UInt16.ofNat (buffer.le16 19)
      tableSize16 := UInt16.ofNat (buffer.le16 22)
      totalSectors32 := UInt32.ofNat (buffer.le32 32) }

/-- `fat16_get_fat_entry`. -/
def fat16GetFatEntry (b : Bpb) (d : Disk) (cluster : ℕ) : ℕ :=
  let fatOffset := cluster * 2
  let fatSector := b.reserved + fatOffset / 512
  let entOffset := fatOffset % 512
  (ataReadSector d fatSector).le16 entOffset

/-- `fat16_set_fat_entry`: the sector goes to the second table as well when there is one. -/
def fat16SetFatEntry (b : Bpb) (d : Disk) (cluster value : ℕ) : Disk :=
  let fatOffset := cluster * 2
  let fatSector := b.reserved + fatOffset / 512
  let entOffset := fatOffset % 512
  let sector := (ataReadSector d fatSector).setLe16 entOffset value
  let d := ataWriteSector d fatSector sector
  if b.tables > 1 then ataWriteSector d (fatSector + b.tableSize) sector else d

/-! ## Addresses fit the driver -/

/-- Every sector address computed from a 16-bit cluster number fits the 28 address
bits of the driver, whatever the boot sector holds. -/
theorem clusterSector_lt (b : Bpb) {cluster i : ℕ} (hc : cluster < 65536) (hi : i < b.spc) :
    b.clusterSector cluster + i < 2 ^ 28 := by
  have hspc : b.spc < 256 := b.sectorsPerCluster.toNat_lt
  have hres : b.reserved < 65536 := b.reservedSectorCount.toNat_lt
  have htab : b.tables < 256 := b.tableCount.toNat_lt
  have hsize : b.tableSize < 65536 := b.tableSize16.toNat_lt
  have hroot : b.rootEntries < 65536 := b.rootEntryCount.toNat_lt
  have hfat : b.tables * b.tableSize ≤ 255 * 65535 := Nat.mul_le_mul (by omega) (by omega)
  have hdata : (cluster - 2) * b.spc ≤ 65533 * 255 := Nat.mul_le_mul (by omega) (by omega)
  unfold Bpb.clusterSector Bpb.dataSector Bpb.rootDirSector Bpb.rootDirSize
  omega

/-! ## Reading the table back -/

/-- The sectors that storing an entry writes, both with the same contents. -/
theorem fat16SetFatEntry_apply (b : Bpb) (d : Disk) (c v s : ℕ) :
    fat16SetFatEntry b d c v s =
      if s = b.reserved + c * 2 / 512 ∨ 1 < b.tables ∧ s = b.reserved + c * 2 / 512 + b.tableSize
      then (d (b.reserved + c * 2 / 512)).setLe16 (c * 2 % 512) v
      else d s := by
  unfold fat16SetFatEntry ataReadSector ataWriteSector
  by_cases ht : 1 < b.tables
  · rw [if_pos (show b.tables > 1 from ht)]
    by_cases h₁ : s = b.reserved + c * 2 / 512 + b.tableSize
    · rw [if_pos h₁, if_pos (.inr ⟨ht, h₁⟩)]
    · rw [if_neg h₁]
      simp [h₁]
  · rw [if_neg (show ¬ b.tables > 1 from ht)]
    simp [ht]

/-- Storing an entry leaves another one alone, unless this one is read from the mirrored
sector. -/
theorem fat16GetFatEntry_set_of_ne (b : Bpb) (d : Disk) {c x : ℕ} (v : ℕ) (hne : x ≠ c)
    (hread : x * 2 / 512 = c * 2 / 512 ∨ b.tables ≤ 1 ∨
      x * 2 / 512 ≠ c * 2 / 512 + b.tableSize) :
    fat16GetFatEntry b (fat16SetFatEntry b d c v) x = fat16GetFatEntry b d x := by
  unfold fat16GetFatEntry ataReadSector
  dsimp only
  rw [fat16SetFatEntry_apply]
  by_cases hs : x * 2 / 512 = c * 2 / 512
  · rw [if_pos (.inl (by omega)), Sector.le16_setLe16_of_disjoint _ (by omega) (by omega), hs]
  · rw [if_neg (by omega)]

/-- Storing an entry leaves every lower entry alone, even where the mirrored sector
overlaps the first table. -/
theorem fat16GetFatEntry_set_of_lt (b : Bpb) (d : Disk) {c x : ℕ} (v : ℕ) (hx : x < c) :
    fat16GetFatEntry b (fat16SetFatEntry b d c v) x = fat16GetFatEntry b d x := by
  apply fat16GetFatEntry_set_of_ne b d v (Nat.ne_of_lt hx)
  omega

theorem fat16GetFatEntry_set_self (b : Bpb) (d : Disk) (c : ℕ) {v : ℕ} (hv : v < 65536) :
    fat16GetFatEntry b (fat16SetFatEntry b d c v) c = v := by
  unfold fat16GetFatEntry ataReadSector
  dsimp only
  rw [fat16SetFatEntry_apply, if_pos (.inl rfl), Sector.le16_setLe16_self _ (by omega) hv]

/-! ## Releasing entries makes progress

Clearing an entry may, through the mirrored sector, bring back entries with larger
numbers. Read as a binary numeral whose leading digit belongs to cluster 0, the table
nevertheless decreases. -/

/-- The occupied entries below `n` as a binary numeral, entry 0 leading. -/
def occupied (b : Bpb) (d : Disk) : ℕ → ℕ
  | 0 => 0
  | n + 1 => 2 * occupied b d n + if fat16GetFatEntry b d n = 0 then 0 else 1

theorem occupied_congr (b : Bpb) {d d' : Disk} {n : ℕ}
    (h : ∀ x < n, fat16GetFatEntry b d' x = fat16GetFatEntry b d x) :
    occupied b d' n = occupied b d n := by
  induction n with
  | zero => rfl
  | succ n ih =>
      unfold occupied
      rw [h n (Nat.lt_succ_self n), ih (fun x hx => h x (Nat.lt_succ_of_lt hx))]

theorem occupied_lt_of_clear (b : Bpb) (d : Disk) {c n : ℕ} (hc : c < n)
    (h : fat16GetFatEntry b d c ≠ 0) :
    occupied b (fat16SetFatEntry b d c 0) n < occupied b d n := by
  induction n with
  | zero => omega
  | succ n ih =>
      unfold occupied
      rcases Nat.lt_succ_iff_lt_or_eq.mp hc with hlt | rfl
      · have := ih hlt
        split <;> split <;> omega
      · rw [occupied_congr b (fun x hx => fat16GetFatEntry_set_of_lt b d 0 hx),
          fat16GetFatEntry_set_self b d c (by omega), if_pos rfl, if_neg h]
        omega

end LispDos
