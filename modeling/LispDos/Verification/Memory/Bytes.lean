import LispDos.Kernel.Bytes
import LispDos.Verification.Memory.Mapping

/-! # Byte accesses

Loads and stores of bytes against the words that hold them. -/

namespace LispDos.Memory

variable {mem mem' : PhysMem} {a b : ℕ}

/-! ## Bytes of a word -/

theorem getLsbD_wordByte (w : Word) (k i : ℕ) :
    (wordByte w k).toBitVec.getLsbD i = (decide (i < 8) && w.getLsbD (8 * k + i)) := by
  simp only [wordByte, UInt8.toBitVec_ofBitVec, BitVec.getLsbD_setWidth, BitVec.getLsbD_ushiftRight]

theorem getLsbD_byteMask (j i : ℕ) (hi : i < 64) :
    (0xFF#64 <<< (8 * j)).getLsbD i = decide (8 * j ≤ i ∧ i < 8 * j + 8) := by
  have hmask : ∀ p, (0xFF#64 : Word).getLsbD p = decide (p < 8) := by
    intro p
    have hones : (0xFF#64 : Word).toNat = 2 ^ 8 - 1 := by decide
    rw [BitVec.getLsbD, hones, Nat.testBit_two_pow_sub_one]
  rw [BitVec.getLsbD_shiftLeft, hmask]
  by_cases hle : 8 * j ≤ i
  · by_cases hlt : i < 8 * j + 8
    · simp [hi, hle, hlt, Nat.not_lt.mpr hle, show i - 8 * j < 8 by omega]
    · simp [hle, hlt, Nat.not_lt.mpr hle, show ¬ i - 8 * j < 8 by omega]
  · simp [hle, Nat.not_le.mp hle]

theorem getLsbD_setWordByte (w : Word) (j : ℕ) (x : UInt8) (i : ℕ) (hi : i < 64) :
    (setWordByte w j x).getLsbD i =
      if 8 * j ≤ i ∧ i < 8 * j + 8 then x.toBitVec.getLsbD (i - 8 * j) else w.getLsbD i := by
  rw [setWordByte, BitVec.getLsbD_or, BitVec.getLsbD_and, BitVec.getLsbD_not, getLsbD_byteMask j i hi,
    BitVec.getLsbD_shiftLeft, BitVec.getLsbD_setWidth]
  by_cases hin : 8 * j ≤ i ∧ i < 8 * j + 8
  · simp [hin, hi, Nat.not_lt.mpr hin.1, show i - 8 * j < 64 by omega]
  · rw [if_neg hin]
    by_cases hle : 8 * j ≤ i
    · have hbig : 8 ≤ i - 8 * j := by omega
      simp [hin, hi, BitVec.getLsbD_of_ge x.toBitVec _ hbig]
    · simp [hin, hi, Nat.not_le.mp hle]

theorem wordByte_setWordByte (w : Word) {j k : ℕ} (hk : k < 8) (x : UInt8) :
    wordByte (setWordByte w j x) k = if k = j then x else wordByte w k := by
  apply UInt8.eq_of_toBitVec_eq
  apply BitVec.eq_of_getLsbD_eq
  intro i hi
  rw [getLsbD_wordByte, getLsbD_setWordByte w j x _ (by omega)]
  by_cases hkj : k = j
  · subst hkj
    rw [if_pos ⟨by omega, by omega⟩, if_pos rfl]
    simp [hi]
  · rw [if_neg (by omega), if_neg hkj, getLsbD_wordByte]

/-! ## Bytes of memory -/

theorem loadByte_storeByte (mem : PhysMem) (a : ℕ) (x : UInt8) (b : ℕ) :
    loadByte (storeByte mem a x) b = if b = a then x else loadByte mem b := by
  simp only [loadByte, storeByte, writeWord_apply]
  by_cases hword : b / 4096 = a / 4096 ∧ b % 4096 / 8 = a % 4096 / 8
  · rw [if_pos hword, wordByte_setWordByte _ (Nat.mod_lt b (by decide)), hword.1, hword.2]
    by_cases hb : b = a
    · rw [hb, if_pos rfl, if_pos rfl]
    · rw [if_neg (by omega), if_neg hb]
  · rw [if_neg hword, if_neg]
    rintro rfl
    exact hword ⟨rfl, rfl⟩

/-- A store leaves the other pages alone. -/
theorem storeByte_other (mem : PhysMem) (x : UInt8) {t : ℕ} (ht : t ≠ a / 4096) :
    storeByte mem a x t = mem t := by
  funext j
  rw [storeByte, writeWord_apply, if_neg (fun h => ht h.1)]

theorem loadByte_congr {t : ℕ} (h : mem' t = mem t) (ha : a / 4096 = t) :
    loadByte mem' a = loadByte mem a := by
  rw [loadByte, loadByte, ha, h]

theorem loadByte_clearTable (mem : PhysMem) (n a : ℕ) :
    loadByte (clearTable mem n) a = if a / 4096 = n then 0 else loadByte mem a := by
  rw [loadByte, clearTable_apply]
  split
  · apply UInt8.eq_of_toBitVec_eq
    apply BitVec.eq_of_getLsbD_eq
    intro i hi
    rw [getLsbD_wordByte]
    simp
  · rfl

/-! ## Copies -/

theorem toNat_add_ofNat {w : Word} {i : ℕ} (h : w.toNat + i < 2 ^ 64) :
    (w + BitVec.ofNat 64 i).toNat = w.toNat + i := by
  rw [BitVec.toNat_add, BitVec.toNat_ofNat, Nat.mod_eq_of_lt (by omega : i < 2 ^ 64),
    Nat.mod_eq_of_lt h]

theorem memcpy_zero (mem : PhysMem) (dest src : Word) : memcpy mem dest src 0 = mem := rfl

theorem memcpy_succ (mem : PhysMem) (dest src : Word) (n : ℕ) :
    memcpy mem dest src (n + 1) = storeByte (memcpy mem dest src n)
      (dest + BitVec.ofNat 64 n).toNat (byteAt (memcpy mem dest src n) src n) := by
  simp only [memcpy, List.range_succ, List.foldl_append, List.foldl_cons, List.foldl_nil]

section Copy

variable {t : ℕ} {dest src : Word} {n : ℕ}

theorem page_of_offset (hdest : dest.toNat / 4096 = t) {i : ℕ} (hi : dest.toNat % 4096 + i < 4096) :
    (dest + BitVec.ofNat 64 i).toNat = dest.toNat + i ∧ (dest.toNat + i) / 4096 = t := by
  have hlt := dest.isLt
  exact ⟨toNat_add_ofNat (by omega), by omega⟩

/-- A copy into a page leaves the other pages alone. -/
theorem memcpy_other (mem : PhysMem) (src : Word) (hdest : dest.toNat / 4096 = t)
    (hfit : dest.toNat % 4096 + n ≤ 4096) {s : ℕ} (hs : s ≠ t) :
    memcpy mem dest src n s = mem s := by
  induction n with
  | zero => rfl
  | succ n ih =>
      obtain ⟨haddr, hpage⟩ := page_of_offset hdest (show dest.toNat % 4096 + n < 4096 by omega)
      rw [memcpy_succ, storeByte_other _ _ (by rwa [haddr, hpage]), ih (by omega)]

/-- A copy into one page from bytes outside of it. -/
theorem loadByte_memcpy (mem : PhysMem) (hdest : dest.toNat / 4096 = t)
    (hfit : dest.toNat % 4096 + n ≤ 4096)
    (hsrc : ∀ i < n, (src + BitVec.ofNat 64 i).toNat / 4096 ≠ t) (a : ℕ) :
    loadByte (memcpy mem dest src n) a =
      if dest.toNat ≤ a ∧ a < dest.toNat + n then byteAt mem src (a - dest.toNat)
      else loadByte mem a := by
  induction n with
  | zero =>
      rw [if_neg (by omega)]
      rfl
  | succ n ih =>
      have ih := ih (by omega) (fun i hi => hsrc i (by omega))
      obtain ⟨haddr, hpage⟩ := page_of_offset hdest (show dest.toNat % 4096 + n < 4096 by omega)
      have hread : byteAt (memcpy mem dest src n) src n = byteAt mem src n := by
        have hother := memcpy_other mem src hdest (show dest.toNat % 4096 + n ≤ 4096 by omega)
          (hsrc n (by omega))
        exact loadByte_congr hother rfl
      rw [memcpy_succ, loadByte_storeByte, haddr, hread, ih]
      by_cases ha : a = dest.toNat + n
      · rw [if_pos ha, if_pos (by omega), ha, Nat.add_sub_cancel_left]
      · rw [if_neg ha]
        by_cases hin : dest.toNat ≤ a ∧ a < dest.toNat + n
        · rw [if_pos hin, if_pos (by omega)]
        · rw [if_neg hin, if_neg (by omega)]

end Copy

/-! ## Stores at offsets -/

/-- Stores through a pointer change the pages of the addresses stored to. -/
theorem storeAt_other (mem : PhysMem) (base : Word) (stores : List Store) {t : ℕ}
    (ht : ∀ s ∈ stores, (base + BitVec.ofNat 64 s.1).toNat / 4096 ≠ t) :
    storeAt mem base stores t = mem t := by
  induction stores generalizing mem with
  | nil => rfl
  | cons s stores ih =>
      obtain ⟨hs, hrest⟩ := List.forall_mem_cons.mp ht
      simp only [storeAt, List.foldl_cons] at ih ⊢
      rw [ih _ hrest, storeByte_other mem s.2 (Ne.symm hs)]

theorem loadByte_storeAt_other (mem : PhysMem) (base : Word) (stores : List Store) {a : ℕ}
    (ha : ∀ s ∈ stores, (base + BitVec.ofNat 64 s.1).toNat ≠ a) :
    loadByte (storeAt mem base stores) a = loadByte mem a := by
  induction stores generalizing mem with
  | nil => rfl
  | cons s stores ih =>
      obtain ⟨hs, hrest⟩ := List.forall_mem_cons.mp ha
      simp only [storeAt, List.foldl_cons] at ih ⊢
      rw [ih _ hrest, loadByte_storeByte, if_neg (Ne.symm hs)]

theorem applyStores_congr {f g : ℕ → UInt8} (stores : List Store) {i : ℕ} (h : f i = g i) :
    applyStores f stores i = applyStores g stores i := by
  induction stores generalizing f g with
  | nil => exact h
  | cons s stores ih =>
      simp only [applyStores, List.foldl_cons] at ih ⊢
      apply ih
      simp only [Function.update_apply, h]

/-- Stores through a pointer are stores into the buffer it points to. -/
theorem byteAt_storeAt (mem : PhysMem) (base : Word) (stores : List Store)
    (hfit : ∀ s ∈ stores, base.toNat + s.1 < 2 ^ 64) {i : ℕ} (hi : base.toNat + i < 2 ^ 64) :
    byteAt (storeAt mem base stores) base i = applyStores (byteAt mem base) stores i := by
  induction stores generalizing mem with
  | nil => rfl
  | cons s stores ih =>
      obtain ⟨hs, hrest⟩ := List.forall_mem_cons.mp hfit
      have hstore : byteAt (storeByte mem (base + BitVec.ofNat 64 s.1).toNat s.2) base i =
          Function.update (byteAt mem base) s.1 s.2 i := by
        rw [byteAt, loadByte_storeByte, toNat_add_ofNat hs, toNat_add_ofNat hi,
          Function.update_apply, byteAt, toNat_add_ofNat hi]
        by_cases his : i = s.1
        · rw [if_pos (by omega), if_pos his]
        · rw [if_neg (by omega), if_neg his]
      have htail := ih (storeByte mem (base + BitVec.ofNat 64 s.1).toNat s.2) hrest
      simp only [storeAt, List.foldl_cons] at htail ⊢
      rw [htail]
      exact applyStores_congr stores hstore

/-! ## Fields -/

theorem leField_congr {f g : ℕ → UInt8} (n : ℕ) (h : ∀ i < n, f i = g i) :
    leField f n = leField g n := by
  induction n generalizing f g with
  | zero => rfl
  | succ n ih =>
      rw [leField, leField, h 0 (by omega), ih (fun i hi => h (i + 1) (by omega))]

theorem leField_lt (f : ℕ → UInt8) {n : ℕ} (hn : n ≤ 8) : (leField f n).toNat < 2 ^ (8 * n) := by
  induction n generalizing f with
  | zero => exact Nat.one_pos
  | succ n ih =>
      have hhead : ((f 0).toBitVec.setWidth 64).toNat < 2 ^ (8 * (n + 1)) := by
        have hbyte := (f 0).toBitVec.isLt
        have hpow : 2 ^ 8 ≤ 2 ^ (8 * (n + 1)) := Nat.pow_le_pow_right (by decide) (by omega)
        rw [BitVec.toNat_setWidth]
        exact (Nat.mod_le _ _).trans_lt (hbyte.trans_le hpow)
      have htail : (leField (fun i => f (i + 1)) n <<< 8).toNat < 2 ^ (8 * (n + 1)) := by
        have ih := ih (fun i => f (i + 1)) (by omega)
        rw [BitVec.toNat_shiftLeft, Nat.shiftLeft_eq]
        refine (Nat.mod_le _ _).trans_lt ?_
        have hpow : 2 ^ (8 * (n + 1)) = 2 ^ (8 * n) * 2 ^ 8 := by rw [← Nat.pow_add]; rfl
        rw [hpow]
        exact Nat.mul_lt_mul_of_pos_right ih (by decide)
      rw [leField, BitVec.toNat_or]
      exact Nat.or_lt_two_pow hhead htail

end LispDos.Memory
