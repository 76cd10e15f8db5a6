import LispDos.Verification.Memory.Bitmap

/-! # What one call of the allocator does

Both allocation functions either leave the allocator alone and return the null address,
or take a row of clear pages. -/

namespace LispDos.Memory

variable {p p' : Pmm} {S : Finset ℕ} {i : ℕ}

/-- The allocator after it has handed out the pages of `S`. -/
structure Takes (p p' : Pmm) (S : Finset ℕ) : Prop where
  clear : S ⊆ clearPages p.bitmap p.highestPage
  bits : ∀ i, bitmapTest p'.bitmap i = (decide (i ∈ S) || bitmapTest p.bitmap i)
  free : p'.freeMemory = p.freeMemory - 4096#64 * BitVec.ofNat 64 S.card
  highest : p'.highestPage = p.highestPage
  cursor : p'.lastAllocatedIndex ≤ p'.highestPage

/-- The outcomes of an allocation of `n` pages. -/
inductive AllocCase (p : Pmm) (n : ℕ) : Word × Pmm → Prop where
  | failed : AllocCase p n (0#64, p)
  | taken (i : ℕ) (p' : Pmm) (hn : 0 < n) (takes : Takes p p' (Finset.Ico i (i + n))) :
      AllocCase p n (pageAddr i, p')

theorem AllocCase.highest {n : ℕ} {r : Word × Pmm} (h : AllocCase p n r) :
    p.highestPage = r.2.highestPage := by
  cases h with
  | failed => rfl
  | taken i p' hn takes => exact takes.highest.symm

theorem AllocCase.cursor {n : ℕ} {r : Word × Pmm} (h : AllocCase p n r)
    (hcur : p.lastAllocatedIndex ≤ p.highestPage) :
    r.2.lastAllocatedIndex ≤ r.2.highestPage := by
  cases h with
  | failed => exact hcur
  | taken i p' hn takes => exact takes.cursor

theorem pageAddr_toNat (h : i < 2 ^ 52) : (pageAddr i).toNat = i * 4096 := by
  rw [pageAddr, BitVec.toNat_ofNat, Nat.mod_eq_of_lt (by omega)]

theorem pageAddr_div (h : i < 2 ^ 52) : (pageAddr i).toNat / 4096 = i := by
  rw [pageAddr_toNat h, Nat.mul_div_cancel _ (by decide)]

theorem Takes.lt (h : Takes p p' S) (hi : i ∈ S) : i < p.highestPage :=
  (mem_clearPages.mp (h.clear hi)).1

theorem Takes.lt_pages (h : Takes p p' S) (hi : i ∈ S) : i < 2 ^ 52 :=
  (h.lt hi).trans p.highest_lt

theorem Takes.test_eq_false (h : Takes p p' S) (hi : i ∈ S) : bitmapTest p.bitmap i = false :=
  (mem_clearPages.mp (h.clear hi)).2

/-! ## One page -/

theorem findPage_some (hcur : p.lastAllocatedIndex ≤ p.highestPage) (h : findPage p = some i) :
    i ∈ clearPages p.bitmap p.highestPage := by
  rw [findPage, Option.or_eq_some_iff] at h
  rcases h with h | ⟨_, h⟩
  · have hmem := List.mem_range'_1.mp (List.mem_of_find?_eq_some h)
    have hclear := List.find?_some h
    exact mem_clearPages.mpr ⟨by omega, by simpa using hclear⟩
  · have hmem := List.mem_range.mp (List.mem_of_find?_eq_some h)
    have hclear := List.find?_some h
    exact mem_clearPages.mpr ⟨by omega, by simpa using hclear⟩

theorem pmmAllocPage_cases (hcur : p.lastAllocatedIndex ≤ p.highestPage) :
    AllocCase p 1 (pmmAllocPage p) := by
  simp only [pmmAllocPage]
  cases h : findPage p with
  | none => exact .failed
  | some i =>
      have hclear := findPage_some hcur h
      refine .taken i _ Nat.one_pos ⟨?_, ?_, ?_, rfl, ?_⟩
      · simpa using hclear
      · simp [takePage]
      · simp [takePage]
      · exact (mem_clearPages.mp hclear).1.le

/-! ## Rows of pages -/

/-- A row that the scan reports lies in the scanned range, is `count` long and clear. The
bits counted so far are the clear ones just before the next index. -/
theorem scanPages_some {bitmap : Bitmap} {count s : ℕ} (n a contiguous startIndex : ℕ)
    (hcounted : contiguous = 0 ∨ (startIndex + contiguous = a ∧
      ∀ j, startIndex ≤ j → j < a → bitmapTest bitmap j = false))
    (h : scanPages bitmap count (List.range' a n) contiguous startIndex = some s) :
    s + count ≤ a + n ∧ ∀ j, s ≤ j → j < s + count → bitmapTest bitmap j = false := by
  induction n generalizing a contiguous startIndex with
  | zero => simp [scanPages] at h
  | succ n ih =>
      rw [List.range'_succ] at h
      simp only [scanPages] at h
      split at h
      · obtain ⟨hle, hclear⟩ := ih (a + 1) 0 startIndex (.inl rfl) h
        exact ⟨by omega, hclear⟩
      · rename_i hset
        have ha : bitmapTest bitmap a = false := by simpa using hset
        -- the row now ends just after the clear bit `a`
        have hrow : (if contiguous = 0 then a else startIndex) + (contiguous + 1) = a + 1 ∧
            ∀ j, (if contiguous = 0 then a else startIndex) ≤ j → j < a + 1 →
              bitmapTest bitmap j = false := by
          by_cases hz : contiguous = 0
          · rw [if_pos hz, hz]
            refine ⟨rfl, ?_⟩
            intro j h₁ h₂
            have hj : j = a := by omega
            rw [hj]
            exact ha
          · rw [if_neg hz]
            obtain ⟨hsum, hclear⟩ := hcounted.resolve_left hz
            refine ⟨by omega, ?_⟩
            intro j h₁ h₂
            by_cases hj : j = a
            · rw [hj]
              exact ha
            · exact hclear j h₁ (by omega)
        split at h
        · rename_i hcount
          obtain ⟨hsum, hclear⟩ := hrow
          rw [Option.some_inj.mp h] at hsum hclear
          exact ⟨by omega, fun j h₁ h₂ => hclear j h₁ (by omega)⟩
        · obtain ⟨hle, hclear⟩ := ih (a + 1) _ _ (.inr hrow) h
          exact ⟨by omega, hclear⟩

theorem findPages_some {count : ℕ} (hcur : p.lastAllocatedIndex ≤ p.highestPage)
    (h : findPages p count = some i) :
    i + count ≤ p.highestPage ∧ ∀ j, i ≤ j → j < i + count → bitmapTest p.bitmap j = false := by
  rw [findPages, Option.or_eq_some_iff] at h
  rcases h with h | ⟨_, h⟩
  · obtain ⟨hle, hclear⟩ := scanPages_some _ _ _ _ (.inl rfl) h
    exact ⟨by omega, hclear⟩
  · rw [List.range_eq_range'] at h
    obtain ⟨hle, hclear⟩ := scanPages_some _ _ _ _ (.inl rfl) h
    exact ⟨by omega, hclear⟩

theorem pmmAllocPages_cases (hcur : p.lastAllocatedIndex ≤ p.highestPage) (count : Word) :
    AllocCase p count.toNat (pmmAllocPages p count) := by
  simp only [pmmAllocPages]
  split
  · exact .failed
  · rename_i hzero
    have hpos : 0 < count.toNat := by
      rw [Nat.pos_iff_ne_zero]
      intro hz
      exact hzero (BitVec.eq_of_toNat_eq (by simpa using hz))
    split
    · rename_i hone
      rw [hone]
      exact pmmAllocPage_cases hcur
    · cases h : findPages p count.toNat with
      | none => exact .failed
      | some i =>
          obtain ⟨hle, hclear⟩ := findPages_some hcur h
          refine .taken i _ hpos ⟨?_, ?_, ?_, rfl, hle⟩
          · intro j hj
            obtain ⟨h₁, h₂⟩ := Finset.mem_Ico.mp hj
            exact mem_clearPages.mpr ⟨by omega, hclear j h₁ h₂⟩
          · exact bitmapTest_setRange _ _ _
          · simp [takePages]

/-! ## Freeing -/

/-- Freeing a page clears its bit and no other. -/
theorem pmmFreePage_bits (p : Pmm) (page : Word) (i : ℕ) :
    bitmapTest (pmmFreePage p page).bitmap i =
      (!decide (i = page.toNat / 4096) && bitmapTest p.bitmap i) := by
  simp only [pmmFreePage]
  split
  · exact bitmapTest_clear _ _ _
  · rename_i hset
    by_cases hi : i = page.toNat / 4096
    · rw [hi]
      simpa using hset
    · simp [hi]

@[simp] theorem pmmFreePage_highestPage (p : Pmm) (page : Word) :
    (pmmFreePage p page).highestPage = p.highestPage := by
  simp only [pmmFreePage]
  split <;> rfl

@[simp] theorem pmmFreePage_cursor (p : Pmm) (page : Word) :
    (pmmFreePage p page).lastAllocatedIndex = p.lastAllocatedIndex := by
  simp only [pmmFreePage]
  split <;> rfl

theorem pmmFreePage_freeMemory (p : Pmm) (page : Word) :
    (pmmFreePage p page).freeMemory =
      if bitmapTest p.bitmap (page.toNat / 4096) then p.freeMemory + 4096#64
      else p.freeMemory := by
  simp only [pmmFreePage]
  split <;> rfl

/-! ## A small allocator -/

/-- Eight pages, of which only page 0 is used. -/
def eightPages : Pmm where
  bitmap := fun i => if i = 0 then 1#8 else 0#8
  freeMemory := 28672#64
  highestPage := 8
  lastAllocatedIndex := 0
  highest_lt := by decide

end LispDos.Memory
