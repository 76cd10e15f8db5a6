import LispDos.Kernel.Vmm

/-! # Page table entries

The bit operations of the source on entries and addresses, as arithmetic. -/

namespace LispDos.Memory

/-! ## Reading entries -/

theorem present_iff (e : Word) : present e = true ↔ e.toNat % 2 = 1 := by
  have hand : (e &&& 1#64).toNat = e.toNat % 2 := by
    rw [BitVec.toNat_and]
    exact Nat.and_one_is_mod _
  have hne : e &&& 1#64 = 0#64 ↔ e.toNat % 2 = 0 := by
    rw [← BitVec.toNat_inj, hand]
    rfl
  rw [present, bne_iff_ne, ne_eq, hne]
  omega

/-- A mask of the high bits keeps a multiple of a power of two. -/
theorem toNat_and_highMask (e : Word) {mask : Word} {k : ℕ} (hk : k ≤ 64)
    (hmask : mask.toNat = 2 ^ k * (2 ^ (64 - k) - 1)) :
    (e &&& mask).toNat = 2 ^ k * (e.toNat / 2 ^ k) := by
  have hpos : 0 < 2 ^ k := Nat.two_pow_pos k
  have hlt : e.toNat / 2 ^ k < 2 ^ (64 - k) := by
    rw [Nat.div_lt_iff_lt_mul hpos, ← Nat.pow_add, Nat.sub_add_cancel hk]
    exact e.isLt
  rw [BitVec.toNat_and, hmask]
  have hdiv : (e.toNat &&& 2 ^ k * (2 ^ (64 - k) - 1)) / 2 ^ k = e.toNat / 2 ^ k := by
    rw [Nat.and_div_two_pow, Nat.mul_div_cancel_left _ hpos, Nat.and_two_pow_sub_one_eq_mod]
    exact Nat.mod_eq_of_lt hlt
  have hmod : (e.toNat &&& 2 ^ k * (2 ^ (64 - k) - 1)) % 2 ^ k = 0 := by
    rw [Nat.and_mod_two_pow, Nat.mul_mod_right, Nat.and_zero]
  rw [← Nat.div_add_mod (e.toNat &&& 2 ^ k * (2 ^ (64 - k) - 1)) (2 ^ k), hdiv, hmod, Nat.add_zero]

theorem toNat_pageMask (e : Word) : (e &&& ~~~0xFFF#64).toNat = 4096 * (e.toNat / 4096) :=
  toNat_and_highMask e (k := 12) (by decide) (by decide)

theorem tableOf_eq (e : Word) : tableOf e = e.toNat / 4096 := by
  rw [tableOf, toNat_pageMask]
  omega

/-- The address of an entry is that of its page. -/
theorem pageMask_eq (e : Word) : e &&& ~~~0xFFF#64 = pageAddr (tableOf e) := by
  have hlt := e.isLt
  apply BitVec.eq_of_toNat_eq
  rw [toNat_pageMask, tableOf_eq, pageAddr_toNat (by omega), Nat.mul_comm]

theorem tableIndex_eq (v : Word) (shift : ℕ) :
    tableIndex v shift = v.toNat / 2 ^ shift % 512 := by
  have hones : (0x1FF#64 : Word).toNat = 2 ^ 9 - 1 := by decide
  rw [tableIndex, BitVec.toNat_and, hones, Nat.and_two_pow_sub_one_eq_mod,
    BitVec.toNat_ushiftRight, Nat.shiftRight_eq_div_pow]

theorem tableIndex_lt (v : Word) (shift : ℕ) : tableIndex v shift < 512 := by
  rw [tableIndex_eq]
  exact Nat.mod_lt _ (by decide)

/-! ## Writing entries -/

/-- Flags below the page size do not disturb the address. -/
theorem toNat_pageAddr_or {n : ℕ} (hn : n < 2 ^ 52) {f : Word} (hf : f.toNat < 4096) :
    (pageAddr n ||| f).toNat = n * 4096 + f.toNat := by
  rw [BitVec.toNat_or, pageAddr_toNat hn]
  have hshift : n * 4096 = n <<< 12 := by
    rw [Nat.shiftLeft_eq]
  rw [hshift, Nat.shiftLeft_add_eq_or_of_lt (by omega)]

/-- The entry for a table on page `n`. -/
def tableEntry (n : ℕ) : Word := pageAddr n ||| 1#64 ||| 2#64 ||| 4#64

theorem toNat_tableEntry {n : ℕ} (hn : n < 2 ^ 52) : (tableEntry n).toNat = n * 4096 + 7 := by
  have hflags : tableEntry n = pageAddr n ||| 7#64 := by
    rw [tableEntry, BitVec.or_assoc, BitVec.or_assoc]
    rfl
  rw [hflags, toNat_pageAddr_or hn (by decide)]
  rfl

theorem present_tableEntry {n : ℕ} (hn : n < 2 ^ 52) : present (tableEntry n) = true := by
  rw [present_iff, toNat_tableEntry hn]
  omega

theorem tableOf_tableEntry {n : ℕ} (hn : n < 2 ^ 52) : tableOf (tableEntry n) = n := by
  rw [tableOf_eq, toNat_tableEntry hn]
  omega

/-- The entry that maps the frame of `paddr`. -/
def leafEntry (paddr flags : Word) : Word := paddr &&& ~~~0xFFF#64 ||| flags ||| 1#64

theorem toNat_or_one_lt {f : Word} (hf : f.toNat < 4096) : (f ||| 1#64).toNat < 4096 := by
  rw [BitVec.toNat_or]
  exact Nat.or_lt_two_pow (n := 12) hf (by decide)

theorem present_or_one (e : Word) : present (e ||| 1#64) = true := by
  rw [present_iff, BitVec.toNat_or]
  simp

theorem present_leafEntry (paddr flags : Word) : present (leafEntry paddr flags) = true :=
  present_or_one _

/-- With flags below the page size an entry splits into the frame and the flags. -/
theorem leafEntry_split (paddr : Word) {flags : Word} (hf : flags.toNat < 4096) :
    leafEntry paddr flags &&& ~~~0xFFF#64 = paddr &&& ~~~0xFFF#64 ∧
      leafEntry paddr flags &&& 0xFFF#64 = flags ||| 1#64 := by
  have hlt := paddr.isLt
  have hflags := toNat_or_one_lt hf
  have hval : (leafEntry paddr flags).toNat =
      paddr.toNat / 4096 * 4096 + (flags ||| 1#64).toNat := by
    rw [leafEntry, BitVec.or_assoc, pageMask_eq, toNat_pageAddr_or _ hflags, tableOf_eq]
    rw [tableOf_eq]
    omega
  constructor
  · apply BitVec.eq_of_toNat_eq
    rw [toNat_pageMask, toNat_pageMask, hval]
    omega
  · have hones : (0xFFF#64 : Word).toNat = 2 ^ 12 - 1 := by decide
    apply BitVec.eq_of_toNat_eq
    rw [BitVec.toNat_and, hones, Nat.and_two_pow_sub_one_eq_mod, hval]
    omega

theorem tableOf_leafEntry {n : ℕ} (hn : n < 2 ^ 52) {flags : Word} (hf : flags.toNat < 4096) :
    tableOf (leafEntry (pageAddr n) flags) = n := by
  rw [tableOf, (leafEntry_split _ hf).1, toNat_pageMask, pageAddr_div hn]
  omega

end LispDos.Memory
