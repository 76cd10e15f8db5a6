import LispDos.Kernel.Fat16
import LispDos.Foundation.Chain

/-! # Volume geometry and the allocation table

What a valid boot sector says about the regions of the disk, and what storing an
entry does to a table that has room for every data cluster. -/

namespace LispDos.Fat16

open Foundation

/-- The sector count of the volume, as `fat16_alloc_cluster` reads it. -/
def totalSectors (b : Bpb) : ℕ :=
  if b.totalSectors16 = 0 then b.totalSectors32.toNat else b.totalSectors16.toNat

/-- The number `N` of data clusters; they are numbered `2` to `N + 1`. -/
def clusters (b : Bpb) : ℕ := (totalSectors b - b.dataSector) / b.spc

/-- The bytes of one cluster. -/
def clusterBytes (b : Bpb) : ℕ := 512 * b.spc

/-- The number of entries of the root directory. -/
def slots (b : Bpb) : ℕ := 16 * b.rootDirSize

/-- A valid boot sector: 512-byte sectors, one or two tables with an entry for every
data cluster, a root directory of whole sectors, and regions that fit the volume. The
boot sector itself is the first reserved sector. -/
structure Geometry (b : Bpb) : Prop where
  bytes : b.bytesPerSector = 512
  spc : 1 ≤ b.spc
  tables : b.tables = 1 ∨ b.tables = 2
  root : 16 ∣ b.rootEntries
  boot : 1 ≤ b.reserved
  fits : b.dataSector ≤ totalSectors b
  entries : clusters b + 2 ≤ 256 * b.tableSize
  last : clusters b + 1 ≤ 0xFFEF

/-- The sectors of the tables. -/
def InFat (b : Bpb) (s : ℕ) : Prop := b.reserved ≤ s ∧ s < b.rootDirSector

/-- The sectors of a data cluster. -/
def InCluster (b : Bpb) (c s : ℕ) : Prop := b.clusterSector c ≤ s ∧ s < b.clusterSector c + b.spc

/-- The copies of the table are identical. -/
def Mirror (b : Bpb) (d : Disk) : Prop :=
  b.tables = 2 → ∀ s < b.tableSize, d (b.reserved + b.tableSize + s) = d (b.reserved + s)

theorem totalSectors_lt (b : Bpb) : totalSectors b < 2 ^ 32 := by
  unfold totalSectors
  split
  · exact b.totalSectors32.toNat_lt
  · exact b.totalSectors16.toNat_lt.trans (by decide)

theorem rootDirSector_le_dataSector (b : Bpb) : b.rootDirSector ≤ b.dataSector :=
  Nat.le_add_right _ _

theorem dataSector_le_clusterSector (b : Bpb) (c : ℕ) : b.dataSector ≤ b.clusterSector c :=
  Nat.le_add_right _ _

section Regions

variable {b : Bpb}

theorem Geometry.totalClusters_eq (hg : Geometry b) : b.totalClusters = some (clusters b) := by
  obtain ⟨m, hm⟩ := hg.root
  have hroot : (b.rootEntries * 32 + 511) / 512 = b.rootDirSize := by
    unfold Bpb.rootDirSize
    omega
  have hbps : b.bytesPerSector.toNat = 512 := by
    rw [hg.bytes]
    rfl
  have hspc : b.sectorsPerCluster ≠ 0 := by
    intro hz
    have := hg.spc
    simp [Bpb.spc, hz] at this
  have hlt := totalSectors_lt b
  have hfits := hg.fits
  have hdata : (totalSectors b + 2 ^ 32 - (b.reserved + b.tables * b.tableSize + b.rootDirSize)) %
      2 ^ 32 = totalSectors b - b.dataSector := by
    unfold Bpb.dataSector Bpb.rootDirSector at *
    omega
  unfold Bpb.totalClusters
  rw [if_neg (by rw [hg.bytes]; decide), if_neg hspc, hbps]
  simp only [Nat.add_one_sub_one]
  rw [hroot, ← totalSectors, hdata]
  rfl

/-- The first table lies in the table region, and so does a second one. -/
theorem Geometry.tables_mul (hg : Geometry b) :
    b.tableSize ≤ b.tables * b.tableSize ∧
      (1 < b.tables → 2 * b.tableSize = b.tables * b.tableSize) := by
  rcases hg.tables with h | h <;> rw [h] <;> omega

/-- Sectors of distinct clusters are distinct. -/
theorem InCluster.unique {c c' s : ℕ} (h : InCluster b c s) (h' : InCluster b c' s)
    (hc : 2 ≤ c) (hc' : 2 ≤ c') : c = c' := by
  obtain ⟨h₁, h₂⟩ := h
  obtain ⟨h₁', h₂'⟩ := h'
  unfold Bpb.clusterSector at *
  have hlt : c - 2 < c' - 2 + 1 := by
    by_contra hge
    have := Nat.mul_le_mul_right b.spc (Nat.le_of_not_lt hge)
    rw [Nat.add_mul] at this
    omega
  have hlt' : c' - 2 < c - 2 + 1 := by
    by_contra hge
    have := Nat.mul_le_mul_right b.spc (Nat.le_of_not_lt hge)
    rw [Nat.add_mul] at this
    omega
  omega

theorem InCluster.dataSector_le {c s : ℕ} (h : InCluster b c s) : b.dataSector ≤ s :=
  (dataSector_le_clusterSector b c).trans h.1

theorem InCluster.not_inFat {c s : ℕ} (h : InCluster b c s) : ¬ InFat b s := by
  intro hf
  have h₁ := h.dataSector_le
  have h₂ := rootDirSector_le_dataSector b
  exact absurd hf.2 (by omega)

end Regions

theorem Mirror.congr {b : Bpb} {d d' : Disk} (h : Mirror b d)
    (hfat : ∀ s, InFat b s → d' s = d s) : Mirror b d' := by
  intro ht s hs
  have hmul : b.rootDirSector = b.reserved + 2 * b.tableSize := by
    rw [Bpb.rootDirSector, ht]
  rw [hfat _ ⟨by omega, by omega⟩, hfat _ ⟨by omega, by omega⟩]
  exact h ht s hs

/-! ## Storing an entry -/

section Table

variable {b : Bpb} {d : Disk} {c x v : ℕ}

/-- The disk keeps everything outside the tables, and identical tables stay identical. -/
structure FatEdit (b : Bpb) (d d' : Disk) : Prop where
  outside : ∀ s, ¬ InFat b s → d' s = d s
  mirror : Mirror b d → Mirror b d'

theorem FatEdit.refl (b : Bpb) (d : Disk) : FatEdit b d d :=
  ⟨fun _ _ => rfl, id⟩

theorem FatEdit.trans {d₁ d₂ d₃ : Disk} (h : FatEdit b d₁ d₂) (h' : FatEdit b d₂ d₃) :
    FatEdit b d₁ d₃ :=
  ⟨fun s hs => (h'.outside s hs).trans (h.outside s hs), fun hm => h'.mirror (h.mirror hm)⟩

/-- Storing an entry changes no other one, except where the second table would be read as an
entry. -/
theorem fatEntry_set_of_readable (hx : b.tables ≤ 1 ∨ x < 256 * b.tableSize) (hv : v < 65536) :
    fat16GetFatEntry b (fat16SetFatEntry b d c v) x =
      if x = c then v else fat16GetFatEntry b d x := by
  by_cases hxc : x = c
  · subst x
    rw [if_pos rfl, fat16GetFatEntry_set_self b d c hv]
  · rw [if_neg hxc]
    apply fat16GetFatEntry_set_of_ne b d v hxc
    omega

/-- In a table with room for both entries, storing one changes that one only. -/
theorem fatEntry_set (hx : x < 256 * b.tableSize) (hv : v < 65536) :
    fat16GetFatEntry b (fat16SetFatEntry b d c v) x =
      if x = c then v else fat16GetFatEntry b d x :=
  fatEntry_set_of_readable (.inr hx) hv

theorem fatEdit_set (hg : Geometry b) (hc : c < 256 * b.tableSize) (v : ℕ) :
    FatEdit b d (fat16SetFatEntry b d c v) := by
  have hsec : c * 2 / 512 < b.tableSize := by omega
  obtain ⟨hone, htwo⟩ := hg.tables_mul
  constructor
  · intro s hs
    rw [fat16SetFatEntry_apply, if_neg]
    rintro (rfl | ⟨ht, rfl⟩)
    · exact hs ⟨by omega, by unfold Bpb.rootDirSector; omega⟩
    · have := htwo ht
      exact hs ⟨by omega, by unfold Bpb.rootDirSector; omega⟩
  · intro hm ht s hs
    rw [fat16SetFatEntry_apply, fat16SetFatEntry_apply]
    by_cases he : s = c * 2 / 512
    · rw [if_pos (.inr ⟨by omega, by omega⟩), if_pos (.inl (by omega))]
    · rw [if_neg (by omega), if_neg (by omega), hm ht s hs]

/-- A table is determined by its entries, sector by sector. -/
theorem fatSector_eq_of_entries {d' : Disk} {s : ℕ} (hs : s < b.tableSize)
    (h : ∀ x < 256 * b.tableSize, fat16GetFatEntry b d' x = fat16GetFatEntry b d x) :
    d' (b.reserved + s) = d (b.reserved + s) := by
  apply Sector.ext
  intro i hi
  have hx := h (256 * s + i / 2) (by omega)
  unfold fat16GetFatEntry ataReadSector at hx
  have hsec : (256 * s + i / 2) * 2 / 512 = s := by omega
  have hoff : (256 * s + i / 2) * 2 % 512 = 2 * (i / 2) := by omega
  simp only [hsec, hoff, Sector.le16] at hx
  have h₀ := (Sector.byte (d' (b.reserved + s)) (2 * (i / 2))).toNat_lt
  have h₁ := (Sector.byte (d (b.reserved + s)) (2 * (i / 2))).toNat_lt
  apply UInt8.toNat_inj.mp
  rcases Nat.mod_two_eq_zero_or_one i with hpar | hpar
  · have : i = 2 * (i / 2) := by omega
    rw [this]
    omega
  · have : i = 2 * (i / 2) + 1 := by omega
    rw [this]
    omega

/-- Equal entries and identical tables give equal tables, bit for bit. -/
theorem inFat_eq_of_entries (hg : Geometry b) {d' : Disk} (hm : Mirror b d) (hm' : Mirror b d')
    (h : ∀ x < 256 * b.tableSize, fat16GetFatEntry b d' x = fat16GetFatEntry b d x)
    {s : ℕ} (hs : InFat b s) : d' s = d s := by
  obtain ⟨hlo, hhi⟩ := hs
  unfold Bpb.rootDirSector at hhi
  by_cases hfirst : s < b.reserved + b.tableSize
  · have := fatSector_eq_of_entries (s := s - b.reserved) (by omega) h
    rwa [Nat.add_sub_cancel' hlo] at this
  · have ht : b.tables = 2 := by
      rcases hg.tables with ht | ht
      · rw [ht] at hhi
        omega
      · exact ht
    rw [ht] at hhi
    have hsplit : s = b.reserved + b.tableSize + (s - b.reserved - b.tableSize) := by omega
    rw [hsplit, hm' ht _ (by omega), hm ht _ (by omega)]
    exact fatSector_eq_of_entries (by omega) h

end Table

end LispDos.Fat16
