import LispDos.Verification.Memory.PageRuns

/-! # What the searches of the allocator find

The search for one page passes every bit below the highest page, wherever the cursor
stands. The search for a row counts anew at the cursor, so it misses the rows that the
cursor divides. -/

namespace LispDos.Memory

variable {p : Pmm} {bitmap : Bitmap} {i : ℕ}

theorem pageAddr_eq_zero_iff (h : i < 2 ^ 52) : pageAddr i = 0#64 ↔ i = 0 := by
  constructor
  · intro hz
    have haddr := pageAddr_toNat h
    rw [hz] at haddr
    have hzero : (0#64 : Word).toNat = 0 := rfl
    omega
  · rintro rfl
    rfl

/-! ## Rows of pages -/

/-- The `count` bits from `i` on are clear and lie in the range. -/
structure ClearRow (bitmap : Bitmap) (lo hi count i : ℕ) : Prop where
  lo : lo ≤ i
  hi : i + count ≤ hi
  clear : ∀ j, i ≤ j → j < i + count → bitmapTest bitmap j = false

/-- A scan that reports nothing passes a set bit in every row that begins with the bits
counted so far, or later. -/
theorem scanPages_none {count : ℕ} (n a contiguous startIndex : ℕ) (hlt : contiguous < count)
    (h : scanPages bitmap count (List.range' a n) contiguous startIndex = none)
    (hi : a ≤ i + contiguous) (hle : i + count ≤ a + n) :
    ∃ j, i ≤ j ∧ j < i + count ∧ bitmapTest bitmap j = true := by
  induction n generalizing a contiguous startIndex with
  | zero => omega
  | succ n ih =>
      rw [List.range'_succ] at h
      simp only [scanPages] at h
      split at h
      · rename_i hset
        by_cases hia : i ≤ a
        · exact ⟨a, hia, by omega, hset⟩
        · exact ih (a + 1) 0 startIndex (by omega) h (by omega) (by omega)
      · split at h
        · cases h
        · exact ih (a + 1) _ _ (by omega) h (by omega) (by omega)

/-- A row that the scan reports begins in the scanned range, unless it was begun before. -/
theorem scanPages_lo {count s lo : ℕ} (n a contiguous startIndex : ℕ) (ha : lo ≤ a)
    (hstart : contiguous = 0 ∨ lo ≤ startIndex)
    (h : scanPages bitmap count (List.range' a n) contiguous startIndex = some s) : lo ≤ s := by
  induction n generalizing a contiguous startIndex with
  | zero => cases h
  | succ n ih =>
      rw [List.range'_succ] at h
      simp only [scanPages] at h
      have hbegin : lo ≤ if contiguous = 0 then a else startIndex := by
        split
        · exact ha
        · rename_i hne
          exact hstart.resolve_left hne
      split at h
      · exact ih (a + 1) 0 startIndex (by omega) (.inl rfl) h
      · split at h
        · rwa [← Option.some_inj.mp h]
        · exact ih (a + 1) _ _ (by omega) (.inr hbegin) h

theorem not_clearRow_of_scan {count lo n : ℕ} {startIndex : ℕ} (hcount : 0 < count)
    (h : scanPages bitmap count (List.range' lo n) 0 startIndex = none) (i : ℕ) :
    ¬ ClearRow bitmap lo (lo + n) count i := by
  intro hrow
  obtain ⟨j, h₁, h₂, hset⟩ := scanPages_none n lo 0 startIndex hcount h hrow.lo hrow.hi
  rw [hrow.clear j h₁ h₂] at hset
  cases hset

/-- The two scans see the rows on either side of the cursor. -/
theorem findPages_none {count : ℕ} (hcur : p.lastAllocatedIndex ≤ p.highestPage)
    (hcount : 0 < count) (h : findPages p count = none) (i : ℕ) :
    ¬ ClearRow p.bitmap p.lastAllocatedIndex p.highestPage count i ∧
      ¬ ClearRow p.bitmap 0 p.lastAllocatedIndex count i := by
  rw [findPages, Option.or_eq_none_iff] at h
  constructor
  · have hrow := not_clearRow_of_scan hcount h.1 i
    rwa [Nat.add_sub_cancel' hcur] at hrow
  · have hrow := h.2
    rw [List.range_eq_range'] at hrow
    simpa using not_clearRow_of_scan hcount hrow i

/-! ## One page -/

theorem findPage_none_iff (hcur : p.lastAllocatedIndex ≤ p.highestPage) :
    findPage p = none ↔ ∀ i < p.highestPage, bitmapTest p.bitmap i = true := by
  rw [findPage, Option.or_eq_none_iff, List.find?_eq_none, List.find?_eq_none]
  constructor
  · intro h i hi
    rcases h with ⟨hafter, hbefore⟩
    by_cases hic : i < p.lastAllocatedIndex
    · simpa using hbefore i (List.mem_range.mpr hic)
    · simpa using hafter i (List.mem_range'_1.mpr (by omega))
  · intro h
    constructor
    · intro i hi
      have := List.mem_range'_1.mp hi
      simpa using h i (by omega)
    · intro i hi
      have := List.mem_range.mp hi
      simpa using h i (by omega)

/-- The next page that is handed out is page 0, whose address is the null address. -/
structure ZeroNext (p : Pmm) : Prop where
  pos : 0 < p.highestPage
  clear : bitmapTest p.bitmap 0 = false
  first : p.lastAllocatedIndex = 0 ∨
    ∀ i, p.lastAllocatedIndex ≤ i → i < p.highestPage → bitmapTest p.bitmap i = true

theorem findPage_zero_iff (hcur : p.lastAllocatedIndex ≤ p.highestPage) :
    findPage p = some 0 ↔ ZeroNext p := by
  constructor
  · intro h
    have hclear := mem_clearPages.mp (findPage_some hcur h)
    refine ⟨hclear.1, hclear.2, ?_⟩
    rw [findPage, Option.or_eq_some_iff] at h
    rcases h with h | ⟨h, _⟩
    · have hmem := List.mem_range'_1.mp (List.mem_of_find?_eq_some h)
      exact .inl (Nat.le_zero.mp hmem.1)
    · refine .inr ?_
      intro i h₁ h₂
      simpa using List.find?_eq_none.mp h i (List.mem_range'_1.mpr (by omega))
  · intro h
    rcases h with ⟨hpos, hclear, hfirst⟩
    rw [findPage, Option.or_eq_some_iff]
    by_cases hzero : p.lastAllocatedIndex = 0
    · left
      obtain ⟨n, hn⟩ := Nat.exists_eq_add_of_lt hpos
      rw [hzero, hn]
      simp [List.range'_succ, hclear]
    · right
      obtain ⟨n, hn⟩ := Nat.exists_eq_succ_of_ne_zero hzero
      constructor
      · rw [List.find?_eq_none]
        intro i hi
        have := List.mem_range'_1.mp hi
        simpa using hfirst.resolve_left hzero i this.1 (by omega)
      · rw [List.range_eq_range', hn]
        simp [List.range'_succ, hclear]

/-- A failure means that no page is free. -/
def PageFound (p : Pmm) : Prop :=
  (pmmAllocPage p).1 = 0#64 ↔ ∀ i < p.highestPage, bitmapTest p.bitmap i = true

/-- A failure is reported truthfully unless page 0 is what the search finds. -/
theorem pageFound_iff (hcur : p.lastAllocatedIndex ≤ p.highestPage) :
    PageFound p ↔ ¬ ZeroNext p := by
  rw [PageFound, pmmAllocPage, ← findPage_none_iff hcur, ← findPage_zero_iff hcur]
  cases h : findPage p with
  | none => simp
  | some i =>
      have hlt := (mem_clearPages.mp (findPage_some hcur h)).1.trans p.highest_lt
      simp [pageAddr_eq_zero_iff hlt]

/-! ## Rows that the cursor divides -/

/-- An allocation fails only if there is no row, and otherwise returns the start of one. -/
structure RowFound (p : Pmm) (count : Word) : Prop where
  failed : (pmmAllocPages p count).1 = 0#64 →
    ¬ ∃ i, ClearRow p.bitmap 0 p.highestPage count.toNat i
  found : (pmmAllocPages p count).1 ≠ 0#64 →
    ∃ i, (pmmAllocPages p count).1 = pageAddr i ∧
      ClearRow p.bitmap 0 p.highestPage count.toNat i

/-- A row that the cursor does not divide. -/
def OneSided (p : Pmm) (count i : ℕ) : Prop :=
  ClearRow p.bitmap p.lastAllocatedIndex p.highestPage count i ∨
    ClearRow p.bitmap 0 p.lastAllocatedIndex count i

theorem oneSided_one_iff (hcur : p.lastAllocatedIndex ≤ p.highestPage) :
    OneSided p 1 i ↔ i < p.highestPage ∧ bitmapTest p.bitmap i = false := by
  constructor
  · intro h
    rcases h with hrow | hrow
    · exact ⟨hrow.hi, hrow.clear i le_rfl (Nat.lt_succ_self i)⟩
    · exact ⟨Nat.lt_of_lt_of_le hrow.hi hcur, hrow.clear i le_rfl (Nat.lt_succ_self i)⟩
  · intro h
    rcases h with ⟨hlt, hclear⟩
    have honly : ∀ j, i ≤ j → j < i + 1 → bitmapTest p.bitmap j = false := by
      intro j h₁ h₂
      obtain rfl : j = i := by omega
      exact hclear
    by_cases hic : i < p.lastAllocatedIndex
    · exact .inr ⟨Nat.zero_le _, hic, honly⟩
    · exact .inl ⟨by omega, hlt, honly⟩

theorem findPages_oneSided {count : ℕ} (hcur : p.lastAllocatedIndex ≤ p.highestPage)
    (h : findPages p count = some i) : OneSided p count i := by
  rw [findPages, Option.or_eq_some_iff] at h
  rcases h with h | ⟨_, h⟩
  · obtain ⟨hle, hclear⟩ := scanPages_some _ _ _ _ (.inl rfl) h
    exact .inl ⟨scanPages_lo _ _ _ _ le_rfl (.inl rfl) h, by omega, hclear⟩
  · rw [List.range_eq_range'] at h
    obtain ⟨hle, hclear⟩ := scanPages_some _ _ _ _ (.inl rfl) h
    exact .inr ⟨Nat.zero_le _, by omega, hclear⟩

/-- An allocation fails exactly if every row is divided. -/
theorem pmmAllocPages_null_iff (hcur : p.lastAllocatedIndex ≤ p.highestPage)
    (hzero : bitmapTest p.bitmap 0 = true) {count : Word} (hcount : 1 ≤ count.toNat) :
    (pmmAllocPages p count).1 = 0#64 ↔ ¬ ∃ i, OneSided p count.toNat i := by
  have hne : count ≠ 0#64 := by
    rintro rfl
    simp at hcount
  rw [pmmAllocPages, if_neg hne]
  split
  · rename_i hone
    have hfound : PageFound p := by
      rw [pageFound_iff hcur]
      intro hz
      rw [hz.clear] at hzero
      cases hzero
    have hsize : count.toNat = 1 := by
      rw [hone]
      rfl
    refine hfound.trans ?_
    rw [hsize]
    simp [oneSided_one_iff hcur]
  · cases h : findPages p count.toNat with
    | none =>
        refine iff_of_true rfl ?_
        intro hex
        rcases hex with ⟨i, hrow⟩
        have hnot := findPages_none hcur hcount h i
        exact hrow.elim hnot.1 hnot.2
    | some s =>
        refine iff_of_false ?_ (not_not_intro ⟨s, findPages_oneSided hcur h⟩)
        obtain ⟨hle, hclear⟩ := findPages_some hcur h
        have hlt := p.highest_lt
        change ¬ pageAddr s = 0#64
        rw [pageAddr_eq_zero_iff (by omega)]
        rintro rfl
        rw [hclear 0 le_rfl (by omega)] at hzero
        cases hzero

/-- What a successful allocation returns. -/
theorem AllocCase.clearRow {n : ℕ} {r : Word × Pmm} (h : AllocCase p n r) (hne : r.1 ≠ 0#64) :
    ∃ i, r.1 = pageAddr i ∧ ClearRow p.bitmap 0 p.highestPage n i := by
  cases h with
  | failed => exact (hne rfl).elim
  | taken i p' hn takes =>
      have hlast := takes.lt (Finset.mem_Ico.mpr ⟨Nat.le_add_right i (n - 1), by omega⟩)
      refine ⟨i, rfl, Nat.zero_le _, by omega, ?_⟩
      intro j h₁ h₂
      exact takes.test_eq_false (Finset.mem_Ico.mpr ⟨h₁, h₂⟩)

/-- The search for a row is complete exactly if no row is free, or one lies on one side of the
cursor. -/
theorem alloc_pages_complete_iff (p : Pmm) (hcur : p.lastAllocatedIndex ≤ p.highestPage)
    (hzero : bitmapTest p.bitmap 0 = true) (count : Word) (hcount : 1 ≤ count.toNat) :
    RowFound p count ↔
      ((∃ i, ClearRow p.bitmap 0 p.highestPage count.toNat i) → ∃ i, OneSided p count.toNat i) := by
  have hnull := pmmAllocPages_null_iff hcur hzero hcount
  constructor
  · intro h hex
    by_contra hno
    exact h.failed (hnull.mpr hno) hex
  · intro h
    refine ⟨fun hfail hex => hnull.mp hfail (h hex), ?_⟩
    exact (pmmAllocPages_cases hcur count).clearRow

theorem alloc_pages_complete_iff_eightPages : RowFound eightPages 2#64 ↔
    ((∃ i, ClearRow eightPages.bitmap 0 eightPages.highestPage (2#64 : Word).toNat i) →
      ∃ i, OneSided eightPages (2#64 : Word).toNat i) :=
  alloc_pages_complete_iff eightPages (by decide) (by decide) 2#64 (by decide)

/-- Eight pages, of which only the pages 3 and 4 are clear, with the cursor between them. -/
def dividedPages : Pmm :=
  { eightPages with
    bitmap := fun i => if i = 0 then 0xE7#8 else 0xFF#8
    freeMemory := 8192#64
    lastAllocatedIndex := 4 }

/-- Two pages in a row are not found. -/
theorem divided_row_missed :
    (pmmAllocPages dividedPages 2#64).1 = 0#64 ∧ ClearRow dividedPages.bitmap 0 8 2 3 ∧
      ¬ RowFound dividedPages 2#64 := by
  have hnull : (pmmAllocPages dividedPages 2#64).1 = 0#64 := by decide
  have hrow : ClearRow dividedPages.bitmap 0 8 2 3 := by
    refine ⟨by decide, by decide, ?_⟩
    intro j h₁ h₂
    have hj : j = 3 ∨ j = 4 := by omega
    rcases hj with rfl | rfl <;> decide
  exact ⟨hnull, hrow, fun h => h.failed hnull ⟨3, hrow⟩⟩

/-! ## Runs -/

/-- The request frees no address in page 0. -/
def Request.SparesZero : Request → Prop
  | .free address => 4096 ≤ address.toNat
  | _ => True

variable {h : Holding}

/-- Every request leaves the cursor at a page or just behind the last one. -/
theorem Holding.perform_cursor (hcur : h.pmm.lastAllocatedIndex ≤ h.pmm.highestPage)
    (request : Request) :
    (h.perform request).pmm.lastAllocatedIndex ≤ (h.perform request).pmm.highestPage := by
  cases request with
  | page => exact (pmmAllocPage_cases hcur).cursor hcur
  | pages count => exact (pmmAllocPages_cases hcur count).cursor hcur
  | free page => simpa [Holding.perform] using hcur

theorem AllocCase.zero_used {n : ℕ} {r : Word × Pmm} (hcase : AllocCase p n r)
    (hzero : bitmapTest p.bitmap 0 = true) : bitmapTest r.2.bitmap 0 = true := by
  cases hcase with
  | failed => exact hzero
  | taken i p' hn takes =>
      rw [takes.bits, hzero]
      exact Bool.or_true _

theorem Holding.perform_zero_used (hcur : h.pmm.lastAllocatedIndex ≤ h.pmm.highestPage)
    (hzero : bitmapTest h.pmm.bitmap 0 = true) {request : Request} (hspares : request.SparesZero) :
    bitmapTest (h.perform request).pmm.bitmap 0 = true := by
  cases request with
  | page => exact (pmmAllocPage_cases hcur).zero_used hzero
  | pages count => exact (pmmAllocPages_cases hcur count).zero_used hzero
  | free page =>
      have hpage : 4096 ≤ page.toNat := hspares
      have hne : 0 ≠ page.toNat / 4096 := by omega
      change bitmapTest (pmmFreePage h.pmm page).bitmap 0 = true
      rw [pmmFreePage_bits]
      simp [hne, hzero]

theorem Holding.run_cursor (hcur : h.pmm.lastAllocatedIndex ≤ h.pmm.highestPage)
    (requests : List Request) :
    (h.run requests).pmm.lastAllocatedIndex ≤ (h.run requests).pmm.highestPage := by
  induction requests generalizing h with
  | nil => exact hcur
  | cons request requests ih => exact ih (h.perform_cursor hcur request)

theorem Holding.run_zero_used (hcur : h.pmm.lastAllocatedIndex ≤ h.pmm.highestPage)
    (hzero : bitmapTest h.pmm.bitmap 0 = true) {requests : List Request}
    (hspare : ∀ request ∈ requests, request.SparesZero) :
    bitmapTest (h.run requests).pmm.bitmap 0 = true := by
  induction requests generalizing h with
  | nil => exact hzero
  | cons request requests ih =>
      exact ih (h.perform_cursor hcur request)
        (h.perform_zero_used hcur hzero (hspare request (by simp)))
        (fun r hr => hspare r (by simp [hr]))

/-- In every run in which page 0 is never freed the search for a page is complete at every
point. In any run it is complete unless it finds page 0. -/
theorem alloc_page_complete (p : Pmm) (hcur : p.lastAllocatedIndex ≤ p.highestPage)
    (hzero : bitmapTest p.bitmap 0 = true) (requests : List Request) :
    ((∀ request ∈ requests, request.SparesZero) →
      PageFound ((Holding.start p).run requests).pmm) ∧
    (PageFound ((Holding.start p).run requests).pmm ↔
      ¬ ZeroNext ((Holding.start p).run requests).pmm) := by
  have hcur' := (Holding.start p).run_cursor hcur requests
  have hiff := pageFound_iff hcur'
  refine ⟨?_, hiff⟩
  intro hspare
  have hused := (Holding.start p).run_zero_used hcur hzero hspare
  rw [hiff]
  intro hz
  rw [hz.clear] at hused
  cases hused

theorem alloc_page_complete_eightPages :
    ((∀ request ∈ [Request.page, .free (pageAddr 1)], request.SparesZero) →
      PageFound ((Holding.start eightPages).run [.page, .free (pageAddr 1)]).pmm) ∧
    (PageFound ((Holding.start eightPages).run [.page, .free (pageAddr 1)]).pmm ↔
      ¬ ZeroNext ((Holding.start eightPages).run [.page, .free (pageAddr 1)]).pmm) :=
  alloc_page_complete eightPages (by decide) (by decide) [.page, .free (pageAddr 1)]

/-- After the null address is freed the allocator fails although every page is clear. -/
theorem null_page_freed :
    (pmmAllocPage ((Holding.start eightPages).run [.free 0#64]).pmm).1 = 0#64 ∧
      bitmapTest ((Holding.start eightPages).run [.free 0#64]).pmm.bitmap 1 = false ∧
      ¬ PageFound ((Holding.start eightPages).run [.free 0#64]).pmm := by
  have hnull : (pmmAllocPage ((Holding.start eightPages).run [.free 0#64]).pmm).1 = 0#64 := by
    decide
  have hclear : bitmapTest ((Holding.start eightPages).run [.free 0#64]).pmm.bitmap 1 = false := by
    decide
  refine ⟨hnull, hclear, fun h => ?_⟩
  have hset := h.mp hnull 1 (by decide)
  rw [hclear] at hset
  cases hset

end LispDos.Memory
