import LispDos.Kernel.Heap
import LispDos.Verification.Memory.Entries

/-! # What one call of `kmalloc` does

A call returns null and leaves the heap alone, or it moves on in the current page, in a new page,
or returns new pages of its own. -/

namespace LispDos.Memory

variable {h : Heap} {size address : Word} {i n : ℕ}

/-! ## Sizes -/

theorem toNat_roundSize (size : Word) :
    (roundSize size).toNat = 8 * ((size.toNat + 7) % 2 ^ 64 / 8) := by
  have hmask : (~~~7#64 : Word).toNat = 2 ^ 3 * (2 ^ (64 - 3) - 1) := by decide
  have hround := toNat_and_highMask (size + 7#64) (by decide) hmask
  rw [BitVec.toNat_add] at hround
  exact hround

/-- A size rounds up, unless it is one of the last seven. -/
theorem le_toNat_roundSize (hsize : size.toNat ≤ 2 ^ 64 - 8) :
    size.toNat ≤ (roundSize size).toNat := by
  rw [toNat_roundSize]
  omega

theorem roundSize_of_gt (hsize : 2 ^ 64 - 8 < size.toNat) : roundSize size = 0#64 := by
  have hlt := size.isLt
  apply BitVec.eq_of_toNat_eq
  rw [toNat_roundSize]
  show _ = 0
  omega

/-! ## Addresses -/

/-- The bytes at a pointer. -/
def span (ptr : Word) (n : ℕ) : Set Word := {address | (address - ptr).toNat < n}

/-- The physical page of an address. -/
def Heap.pageOf (h : Heap) (address : Word) : ℕ := (address - h.hhdmOffset).toNat / 4096

/-- The part of the current page that is still to be handed out. -/
def Heap.spare (h : Heap) : Set Word :=
  {address | h.currentPage ≠ 0#64 ∧ h.currentPageOffset.toNat ≤ (address - h.currentPage).toNat ∧
    (address - h.currentPage).toNat < 4096}

theorem mem_span_pages (h : Heap) (hrow : i + n ≤ 2 ^ 52) :
    address ∈ span (h.phystokv (pageAddr i)) (n * 4096) ↔
      i ≤ h.pageOf address ∧ h.pageOf address < i + n := by
  have hpage : (pageAddr i).toNat = i * 4096 ∨ 2 ^ 52 ≤ i := by
    by_cases hi : i < 2 ^ 52
    · exact .inl (pageAddr_toNat hi)
    · exact .inr (by omega)
  have hsub : address - h.phystokv (pageAddr i) = address - h.hhdmOffset - pageAddr i := by
    apply BitVec.eq_of_toNat_eq
    simp only [Heap.phystokv, BitVec.toNat_sub, BitVec.toNat_add]
    omega
  have hx := (address - h.hhdmOffset).isLt
  show (address - h.phystokv (pageAddr i)).toNat < n * 4096 ↔ _
  rw [hsub, BitVec.toNat_sub]
  unfold Heap.pageOf
  omega

/-! ## Calls -/

/-- The outcomes of a call. -/
inductive KmallocCase (h : Heap) (size : Word) : Word × Heap → Prop where
  | null (h' : Heap) (hhdm : h'.hhdmOffset = h.hhdmOffset)
      (hbits : ∀ i, bitmapTest h.pmm.bitmap i = true → bitmapTest h'.pmm.bitmap i = true)
      (hnew : ∀ i, bitmapTest h'.pmm.bitmap i = true →
        bitmapTest h.pmm.bitmap i = true ∨ i < h.pmm.highestPage)
      (hmemory : h'.memory = h.memory) (hpage : h'.currentPage = h.currentPage)
      (hoffset : h'.currentPageOffset = h.currentPageOffset) : KmallocCase h size (0#64, h')
  | current (hpage : h.currentPage ≠ 0#64)
      (hroom : h.currentPageOffset + roundSize size ≤ 4096#64) (hsize : roundSize size ≤ 4096#64) :
      KmallocCase h size (h.bump (roundSize size))
  | fresh (i : ℕ) (h' : Heap) (hi : i ≠ 0) (takes : Takes h.pmm h'.pmm (Finset.Ico i (i + 1)))
      (hhdm : h'.hhdmOffset = h.hhdmOffset)
      (hsize : roundSize size ≤ 4096#64)
      (hmemory : h'.memory = zeroBytes h.memory (h.phystokv (pageAddr i)) 4096)
      (hpage : h'.currentPage = h.phystokv (pageAddr i))
      (hoffset : h'.currentPageOffset = roundSize size) :
      KmallocCase h size (h.phystokv (pageAddr i), h')
  | large (i n : ℕ) (h' : Heap) (hi : i ≠ 0) (takes : Takes h.pmm h'.pmm (Finset.Ico i (i + n)))
      (hhdm : h'.hhdmOffset = h.hhdmOffset) (hsize : (roundSize size).toNat ≤ n * 4096)
      (hlarge : 4096#64 < roundSize size)
      (hmemory : h'.memory = zeroBytes h.memory (h.phystokv (pageAddr i)) (n * 4096))
      (hpage : h'.currentPage = h.currentPage)
      (hoffset : h'.currentPageOffset = h.currentPageOffset) :
      KmallocCase h size (h.phystokv (pageAddr i), h')

theorem AllocCase.keeps_bits {p : Pmm} {r : Word × Pmm} (hcase : AllocCase p n r)
    (hi : bitmapTest p.bitmap i = true) : bitmapTest r.2.bitmap i = true := by
  cases hcase with
  | failed => exact hi
  | taken j p' hn takes => rw [takes.bits, hi, Bool.or_true]

theorem AllocCase.bits_new {p : Pmm} {r : Word × Pmm} (hcase : AllocCase p n r)
    (hi : bitmapTest r.2.bitmap i = true) : bitmapTest p.bitmap i = true ∨ i < p.highestPage := by
  cases hcase with
  | failed => exact .inl hi
  | taken j p' hn takes =>
      rw [takes.bits, Bool.or_eq_true, decide_eq_true_eq] at hi
      exact hi.symm.imp_right takes.lt

theorem AllocCase.row {p : Pmm} {r : Word × Pmm} (hcase : AllocCase p n r) (hr : r.1 ≠ 0#64) :
    ∃ i, 0 < n ∧ i ≠ 0 ∧ r.1 = pageAddr i ∧ Takes p r.2 (Finset.Ico i (i + n)) := by
  cases hcase with
  | failed => exact absurd rfl hr
  | taken i p' hn takes =>
      refine ⟨i, hn, ?_, rfl, takes⟩
      rintro rfl
      exact hr rfl

/-- The number of pages is enough, unless it is none. -/
theorem le_pages {rounded : Word} (hpages : 0 < ((rounded + 4095#64) / 4096#64).toNat) :
    rounded.toNat ≤ ((rounded + 4095#64) / 4096#64).toNat * 4096 ∧
      ((rounded + 4095#64) / 4096#64 * 4096#64).toNat =
        ((rounded + 4095#64) / 4096#64).toNat * 4096 := by
  have hlt := rounded.isLt
  have hcount : ((rounded + 4095#64) / 4096#64).toNat = (rounded.toNat + 4095) % 2 ^ 64 / 4096 := by
    rw [BitVec.toNat_udiv, BitVec.toNat_add]
    rfl
  have hpage : (4096#64 : Word).toNat = 4096 := rfl
  rw [hcount] at hpages
  rw [BitVec.toNat_mul, hcount, hpage]
  omega

theorem kmalloc_cases (h : Heap) (size : Word) : KmallocCase h size (kmalloc h size) := by
  have hone := pmmAllocPage_cases h.cursor
  have hrow := pmmAllocPages_cases h.cursor ((roundSize size + 4095#64) / 4096#64)
  simp only [kmalloc]
  split_ifs with hzero hlarge hnull hneed hnull
  · exact .null h rfl (fun _ => id) (fun _ => .inl) rfl rfl rfl
  · exact .null _ rfl (fun _ => hrow.keeps_bits) (fun _ => hrow.bits_new) rfl rfl rfl
  · obtain ⟨i, hn, hi, haddr, takes⟩ := hrow.row hnull
    obtain ⟨hsize, hbytes⟩ := le_pages hn
    have hphys : (h.allocPages ((roundSize size + 4095#64) / 4096#64)).1 = pageAddr i := haddr
    rw [hbytes, hphys]
    exact .large i _ _ hi takes rfl hsize hlarge rfl rfl rfl
  · exact .null _ rfl (fun _ => hone.keeps_bits) (fun _ => hone.bits_new) rfl rfl rfl
  · obtain ⟨i, hn, hi, haddr, takes⟩ := hone.row hnull
    have hphys : h.allocPage.1 = pageAddr i := haddr
    rw [hphys]
    have hptr : h.phystokv (pageAddr i) + 0#64 = h.phystokv (pageAddr i) := BitVec.add_zero _
    show KmallocCase h size (h.phystokv (pageAddr i) + 0#64, _)
    rw [hptr]
    exact .fresh i _ hi takes rfl (BitVec.not_lt.mp hlarge) rfl rfl (BitVec.zero_add _)
  · rw [not_or] at hneed
    exact .current hneed.1 (BitVec.not_lt.mp hneed.2) (BitVec.not_lt.mp hlarge)

end LispDos.Memory
