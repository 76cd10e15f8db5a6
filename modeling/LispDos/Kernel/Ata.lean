import Mathlib.Algebra.Order.BigOperators.Group.Finset
import Mathlib.Tactic.Linarith
import Mathlib.Tactic.Ring

/-! # Sectors and the ATA disk

`hal/ata.c` moves one 512-byte sector at a time. The disk is the map from sector
addresses to sectors that `ata_read_sector` and `ata_write_sector` see; status
polling and the port transfer are not modelled. Multi-byte fields are read and
stored in the little-endian order of x86. -/

namespace LispDos

/-- The buffer type `uint8_t[512]`. -/
def Sector : Type := Fin 512 → UInt8

namespace Sector

/-- The byte at an offset; offsets past the sector are never used by the driver. -/
def byte (s : Sector) (i : ℕ) : UInt8 :=
  if h : i < 512 then s ⟨i, h⟩ else 0

def setByte (s : Sector) (i : ℕ) (x : UInt8) : Sector :=
  fun j => if j.val = i then x else s j

/-- A sector of zero bytes, as in `uint8_t write_buf[512] = {0}`. -/
def zero : Sector := fun _ => 0

/-- `*(uint16_t*)&s[i]`. -/
def le16 (s : Sector) (i : ℕ) : ℕ :=
  (s.byte i).toNat + 256 * (s.byte (i + 1)).toNat

/-- `*(uint16_t*)&s[i] = v`. -/
def setLe16 (s : Sector) (i v : ℕ) : Sector :=
  (s.setByte i (UInt8.ofNat v)).setByte (i + 1) (UInt8.ofNat (v / 256))

/-- `*(uint32_t*)&s[i]`. -/
def le32 (s : Sector) (i : ℕ) : ℕ :=
  s.le16 i + 65536 * s.le16 (i + 2)

/-- `*(uint32_t*)&s[i] = v`. -/
def setLe32 (s : Sector) (i v : ℕ) : Sector :=
  (s.setLe16 i v).setLe16 (i + 2) (v / 65536)

/-! ## Reading back what was stored -/

@[ext] theorem ext {s t : Sector} (h : ∀ i < 512, s.byte i = t.byte i) : s = t := by
  funext j
  have hj := h j.val j.isLt
  simpa [byte, j.isLt] using hj

theorem byte_setByte (s : Sector) {i : ℕ} (hi : i < 512) (x : UInt8) (j : ℕ) :
    (s.setByte i x).byte j = if j = i then x else s.byte j := by
  unfold byte setByte
  by_cases hj : j < 512
  · simp [hj]
  · have hne : j ≠ i := by omega
    simp [hj, hne]

theorem byte_zero (i : ℕ) : zero.byte i = 0 := by
  unfold byte zero
  split <;> rfl

theorem byte_setLe16 (s : Sector) {i : ℕ} (hi : i + 1 < 512) (v j : ℕ) :
    (s.setLe16 i v).byte j =
      if j = i + 1 then UInt8.ofNat (v / 256) else if j = i then UInt8.ofNat v else s.byte j := by
  unfold setLe16
  rw [byte_setByte _ hi, byte_setByte _ (by omega)]

/-- A 16-bit field reads back what was stored in it; fields that do not overlap it
keep their value. -/
theorem le16_setLe16_self (s : Sector) {i v : ℕ} (hi : i + 1 < 512) (hv : v < 65536) :
    (s.setLe16 i v).le16 i = v := by
  unfold le16
  rw [byte_setLe16 s hi, byte_setLe16 s hi]
  simp only [Nat.left_eq_add, one_ne_zero, if_false, if_true, UInt8.toNat_ofNat']
  omega

theorem le16_setLe16_of_disjoint (s : Sector) {i j v : ℕ} (hi : i + 1 < 512)
    (hij : j + 1 < i ∨ i + 1 < j) : (s.setLe16 i v).le16 j = s.le16 j := by
  unfold le16
  rw [byte_setLe16 s hi, byte_setLe16 s hi, if_neg (by omega), if_neg (by omega),
    if_neg (by omega), if_neg (by omega)]

theorem byte_setLe32 (s : Sector) {i j v : ℕ} (hi : i + 3 < 512) (hij : j < i ∨ i + 3 < j) :
    (s.setLe32 i v).byte j = s.byte j := by
  unfold setLe32
  rw [byte_setLe16 _ (by omega), byte_setLe16 _ (by omega), if_neg (by omega),
    if_neg (by omega), if_neg (by omega), if_neg (by omega)]

theorem le32_setLe32_self (s : Sector) {i v : ℕ} (hi : i + 3 < 512) (hv : v < 2 ^ 32) :
    (s.setLe32 i v).le32 i = v := by
  unfold le32 setLe32
  rw [le16_setLe16_self _ (by omega) (by omega), le16_setLe16_of_disjoint _ (by omega) (by omega)]
  have hlow : (s.setLe16 i v).le16 i = v % 65536 := by
    unfold le16
    rw [byte_setLe16 s (by omega), byte_setLe16 s (by omega)]
    simp only [Nat.left_eq_add, one_ne_zero, if_false, if_true, UInt8.toNat_ofNat']
    omega
  rw [hlow]
  omega

theorem le16_congr {s t : Sector} {i : ℕ} (h₀ : s.byte i = t.byte i)
    (h₁ : s.byte (i + 1) = t.byte (i + 1)) : s.le16 i = t.le16 i := by
  unfold le16
  rw [h₀, h₁]

end Sector

/-! ## The disk -/

/-- The sectors of the disk by their address. The driver sends 28 address bits;
every address that `fat16.c` computes is below that limit. -/
abbrev Disk : Type := ℕ → Sector

def ataReadSector (d : Disk) (lba : ℕ) : Sector := d lba

def ataWriteSector (d : Disk) (lba : ℕ) (s : Sector) : Disk :=
  fun a => if a = lba then s else d a

end LispDos
