import LispDos.Kernel.Raw
import LispDos.Verification.Memory.Harmless

/-! # The bitmap taken apart

A machine whose bitmap lies on pages in use behaves like one whose allocator is no part of
memory, as long as nothing else is read or written on these pages. -/

namespace LispDos.Raw

open Memory

variable {H : Set ℕ} {r r' : Machine} {m : Memory.Machine} {p : Pmm} {t i : ℕ}

/-! ## The bytes of the bitmap -/

theorem Machine.bitmap_setBitmap (r : Machine) (i : ℕ) (x : BitVec 8) :
    (r.setBitmap i x).bitmap = Function.update r.bitmap i x := by
  funext j
  simp only [Machine.bitmap, Machine.setBitmap, loadByte_storeByte, Function.update_apply,
    Nat.add_left_cancel_iff]
  split <;> rfl

@[simp] theorem bitmap_bitmapSet (r : Machine) (i : ℕ) :
    (bitmapSet r i).bitmap = Memory.bitmapSet r.bitmap i := r.bitmap_setBitmap _ _

@[simp] theorem bitmap_bitmapClear (r : Machine) (i : ℕ) :
    (bitmapClear r i).bitmap = Memory.bitmapClear r.bitmap i := r.bitmap_setBitmap _ _

/-- Storing a byte of the bitmap leaves the pages without one alone. -/
theorem Machine.setBitmap_mem (r : Machine) (x : BitVec 8) (hi : i < r.bitmapBytes)
    (ht : ¬ r.Stores t) : (r.setBitmap i x).mem t = r.mem t :=
  storeByte_other _ _ fun h => ht ⟨i, hi, h.symm⟩

theorem bit_lt {n : ℕ} (hi : i < n) : i / 8 < (n + 7) / 8 := by omega

theorem bitmapSet_mem (hi : i < r.pmmHighestPage) (ht : ¬ r.Stores t) :
    (bitmapSet r i).mem t = r.mem t := r.setBitmap_mem _ (bit_lt hi) ht

theorem bitmapClear_mem (hi : i < r.pmmHighestPage) (ht : ¬ r.Stores t) :
    (bitmapClear r i).mem t = r.mem t := r.setBitmap_mem _ (bit_lt hi) ht

theorem bitmap_congr (hmem : r'.mem = r.mem) (hbase : r'.pmmBitmap = r.pmmBitmap) :
    r'.bitmap = r.bitmap := by
  funext i
  simp only [Machine.bitmap, hmem, hbase]

theorem takePage_bitmap (r : Machine) (i : ℕ) (hi : i ≤ r.pmmHighestPage) :
    (takePage r i hi).bitmap = Memory.bitmapSet r.bitmap i := by
  have hmem : (takePage r i hi).mem = (bitmapSet r i).mem := rfl
  rw [bitmap_congr hmem rfl, bitmap_bitmapSet]

/-- The calls of `bitmap_set` for a row. -/
theorem setPages_succ (r : Machine) (start n : ℕ) :
    setPages r start (n + 1) = bitmapSet (setPages r start n) (start + n) := by
  rw [setPages, List.range_succ, List.foldl_append]
  rfl

theorem setPages_bitmap (r : Machine) (start n : ℕ) : (setPages r start n).bitmap =
    (List.range n).foldl (fun bm j => Memory.bitmapSet bm (start + j)) r.bitmap := by
  induction n with
  | zero => rfl
  | succ n ih =>
      rw [setPages_succ, bitmap_bitmapSet, ih, List.range_succ, List.foldl_append]
      rfl

theorem takePages_bitmap (r : Machine) (i : ℕ) (count : Word)
    (hi : i + count.toNat ≤ (setPages r i count.toNat).pmmHighestPage) :
    (takePages r i count hi).bitmap =
      (List.range count.toNat).foldl (fun bm j => Memory.bitmapSet bm (i + j)) r.bitmap := by
  have hmem : (takePages r i count hi).mem = (setPages r i count.toNat).mem := rfl
  rw [bitmap_congr hmem rfl, setPages_bitmap]

theorem releasePage_bitmap (r : Machine) (i : ℕ) :
    (releasePage r i).bitmap = Memory.bitmapClear r.bitmap i := by
  have hmem : (releasePage r i).mem = (bitmapClear r i).mem := rfl
  rw [bitmap_congr hmem rfl, bitmap_bitmapClear]

/-! ## The calls of the allocator -/

theorem pmmAllocPage_of_some (h : findPage r.pmm = some i) :
    pmmAllocPage r = (pageAddr i, takePage r i (findPage_le h)) := by
  rw [pmmAllocPage]
  split
  · rename_i j hj
    obtain rfl : j = i := Option.some_inj.mp (hj.symm.trans h)
    rfl
  · rename_i hnone
    rw [h] at hnone
    cases hnone

theorem pmmAllocPage_of_none (h : findPage r.pmm = none) : pmmAllocPage r = (0#64, r) := by
  rw [pmmAllocPage]
  split
  · rename_i j hj
    rw [h] at hj
    cases hj
  · rfl

theorem pmmAllocPages_of_some {count : Word} (hzero : count ≠ 0#64) (hone : count ≠ 1#64)
    (h : findPages r.pmm count.toNat = some i) :
    pmmAllocPages r count = (pageAddr i, takePages r i count (findPages_le h)) := by
  rw [pmmAllocPages, if_neg hzero, if_neg hone]
  split
  · rename_i j hj
    obtain rfl : j = i := Option.some_inj.mp (hj.symm.trans h)
    rfl
  · rename_i hnone
    rw [h] at hnone
    cases hnone

theorem pmmAllocPages_of_none {count : Word} (hzero : count ≠ 0#64) (hone : count ≠ 1#64)
    (h : findPages r.pmm count.toNat = none) : pmmAllocPages r count = (0#64, r) := by
  rw [pmmAllocPages, if_neg hzero, if_neg hone]
  split
  · rename_i j hj
    rw [h] at hj
    cases hj
  · rfl

/-- What the functions of `pmm.c` leave alone: everything but the bitmap and the variables of the
allocator. -/
structure Kept (r r' : Machine) : Prop where
  base : r'.pmmBitmap = r.pmmBitmap
  highest : r'.pmmHighestPage = r.pmmHighestPage
  kernel : r'.kernelPml4 = r.kernelPml4
  mem : ∀ t, ¬ r.Stores t → r'.mem t = r.mem t

theorem Kept.refl (r : Machine) : Kept r r := ⟨rfl, rfl, rfl, fun _ _ => rfl⟩

theorem Kept.stores_iff (h : Kept r r') : r'.Stores t ↔ r.Stores t := by
  rw [Machine.Stores, Machine.Stores, Machine.bitmapBytes, Machine.bitmapBytes, h.base, h.highest]

theorem setPages_kept {start n : ℕ} (hn : start + n ≤ r.pmmHighestPage) :
    Kept r (setPages r start n) := by
  induction n with
  | zero => exact .refl r
  | succ n ih =>
      have hkept := ih (by omega)
      rw [setPages_succ]
      refine ⟨hkept.base, hkept.highest, hkept.kernel, ?_⟩
      intro t ht
      rw [bitmapSet_mem (by rw [hkept.highest]; omega) (fun hs => ht (hkept.stores_iff.mp hs)),
        hkept.mem t ht]

theorem pmmAllocPage_kept (r : Machine) : Kept r (pmmAllocPage r).2 := by
  cases hi : findPage r.pmm with
  | none => simpa only [pmmAllocPage_of_none hi] using Kept.refl r
  | some i =>
      rw [pmmAllocPage_of_some hi]
      have hlt := (mem_clearPages.mp (findPage_some r.cursor hi)).1
      exact ⟨rfl, rfl, rfl, fun t ht => bitmapSet_mem hlt ht⟩

theorem pmmAllocPages_kept (r : Machine) (count : Word) : Kept r (pmmAllocPages r count).2 := by
  by_cases hzero : count = 0#64
  · rw [pmmAllocPages, if_pos hzero]
    exact .refl r
  by_cases hone : count = 1#64
  · rw [pmmAllocPages, if_neg hzero, if_pos hone]
    exact pmmAllocPage_kept r
  cases hi : findPages r.pmm count.toNat with
  | none => simpa only [pmmAllocPages_of_none hzero hone hi] using Kept.refl r
  | some i =>
      have hkept := setPages_kept (findPages_some r.cursor hi).1
      rw [pmmAllocPages_of_some hzero hone hi]
      exact ⟨hkept.base, hkept.highest, hkept.kernel, hkept.mem⟩

theorem pmmFreePage_kept {page : Word} (hpage : page.toNat / 4096 < r.pmmHighestPage) :
    Kept r (pmmFreePage r page) := by
  simp only [pmmFreePage]
  generalize page.toNat / 4096 = bit at hpage ⊢
  split
  · refine ⟨rfl, rfl, rfl, ?_⟩
    intro t ht
    have hmem : (releasePage r bit).mem = (bitmapClear r bit).mem := rfl
    rw [hmem, bitmapClear_mem hpage ht]
  · exact .refl r

/-! ## The allocator apart -/

/-- The variables of the allocator, and the bits of the pages. -/
structure Alike (r : Machine) (p : Pmm) : Prop where
  bits : ∀ i < r.pmmHighestPage, bitmapTest r.bitmap i = bitmapTest p.bitmap i
  free : r.pmmFreeMemory = p.freeMemory
  highest : r.pmmHighestPage = p.highestPage
  last : r.pmmLastAllocatedIndex = p.lastAllocatedIndex

theorem getLsbD_bitsAbove (n i : ℕ) : (bitsAbove n (i / 8)).getLsbD (i % 8) = decide (n ≤ i) := by
  have hlt : i % 8 < 8 := Nat.mod_lt i (by decide)
  rw [bitsAbove, BitVec.getLsbD_not, BitVec.getLsbD_ofNat, Nat.testBit_two_pow_sub_one]
  by_cases hn : n ≤ i
  · simp [hlt, hn, show ¬ i % 8 < n - 8 * (i / 8) by omega]
  · simp [hlt, hn, show i % 8 < n - 8 * (i / 8) by omega]

theorem Machine.test_apart (r : Machine) (i : ℕ) : bitmapTest r.apart.pmm.bitmap i =
    (bitmapTest r.bitmap i || decide (r.pmmHighestPage ≤ i)) := by
  rw [bitmapTest_eq, bitmapTest_eq, Machine.apart, BitVec.getLsbD_or, getLsbD_bitsAbove]

/-- Pages without a bit count as used. -/
theorem used_apart (hused : i ∉ clearPages r.bitmap r.pmmHighestPage) :
    bitmapTest r.apart.pmm.bitmap i = true := by
  rw [r.test_apart, Bool.or_eq_true, decide_eq_true_iff]
  by_cases hi : i < r.pmmHighestPage
  · refine .inl ?_
    by_contra hclear
    exact hused (mem_clearPages.mpr ⟨hi, by simpa using hclear⟩)
  · exact .inr (Nat.not_lt.mp hi)

theorem clear_apart (hused : bitmapTest r.apart.pmm.bitmap i = true) :
    i ∉ clearPages r.bitmap r.pmmHighestPage := by
  rw [r.test_apart, Bool.or_eq_true, decide_eq_true_iff] at hused
  rw [mem_clearPages]
  rintro ⟨hlt, hclear⟩
  rcases hused with hused | hused
  · rw [hused] at hclear
    cases hclear
  · omega

theorem Alike.self (r : Machine) : Alike r r.apart.pmm := by
  refine ⟨?_, rfl, rfl, rfl⟩
  intro i hi
  rw [r.test_apart, decide_eq_false (Nat.not_le.mpr hi), Bool.or_false]

theorem Alike.mem_clearPages (h : Alike r p) :
    i ∈ clearPages r.bitmap r.pmmHighestPage ↔ i ∈ clearPages p.bitmap p.highestPage := by
  rw [Memory.mem_clearPages, Memory.mem_clearPages, h.highest]
  exact and_congr_right fun hi => by rw [h.bits i (h.highest ▸ hi)]

theorem find?_congr {f g : ℕ → Bool} (is : List ℕ) (h : ∀ i ∈ is, f i = g i) :
    is.find? f = is.find? g := by
  induction is with
  | nil => rfl
  | cons i is ih =>
      rw [List.find?_cons, List.find?_cons, h i List.mem_cons_self,
        ih fun j hj => h j (List.mem_cons_of_mem i hj)]

theorem Alike.below_cursor (h : Alike r p) (hi : i < p.lastAllocatedIndex) :
    i < r.pmmHighestPage := lt_of_lt_of_le (h.last ▸ hi) r.cursor

theorem Alike.below_end (h : Alike r p) {a : ℕ}
    (hi : i ∈ List.range' a (p.highestPage - a)) : i < r.pmmHighestPage := by
  have hin := List.mem_range'_1.mp hi
  rw [h.highest]
  omega

theorem Alike.findPage_eq (h : Alike r p) : findPage r.pmm = findPage p := by
  have hlast : r.pmm.lastAllocatedIndex = p.lastAllocatedIndex := h.last
  have hhighest : r.pmm.highestPage = p.highestPage := h.highest
  rw [findPage, findPage, hlast, hhighest]
  congr 1
  · exact find?_congr _ fun i hi => congrArg not (h.bits i (h.below_end hi))
  · exact find?_congr _ fun i hi => congrArg not (h.bits i (h.below_cursor (List.mem_range.mp hi)))

theorem scanPages_congr {bitmap bitmap' : Bitmap} {count : ℕ} (is : List ℕ) (c s : ℕ)
    (h : ∀ i ∈ is, bitmapTest bitmap i = bitmapTest bitmap' i) :
    scanPages bitmap count is c s = scanPages bitmap' count is c s := by
  induction is generalizing c s with
  | nil => rfl
  | cons i is ih =>
      rw [scanPages, scanPages, h i List.mem_cons_self]
      simp only [ih _ _ fun j hj => h j (List.mem_cons_of_mem i hj)]

theorem Alike.findPages_eq (h : Alike r p) (count : ℕ) :
    findPages r.pmm count = findPages p count := by
  have hlast : r.pmm.lastAllocatedIndex = p.lastAllocatedIndex := h.last
  have hhighest : r.pmm.highestPage = p.highestPage := h.highest
  rw [findPages, findPages, hlast, hhighest]
  congr 1
  · exact scanPages_congr _ _ _ fun i hi => h.bits i (h.below_end hi)
  · exact scanPages_congr _ _ _ fun i hi => h.bits i (h.below_cursor (List.mem_range.mp hi))

theorem Alike.allocPage (h : Alike r p) :
    (pmmAllocPage r).1 = (Memory.pmmAllocPage p).1 ∧
      Alike (pmmAllocPage r).2 (Memory.pmmAllocPage p).2 := by
  have hfind := h.findPage_eq
  cases hi : findPage p with
  | none =>
      rw [pmmAllocPage_of_none (hfind.trans hi)]
      simpa only [Memory.pmmAllocPage, hi] using ⟨trivial, h⟩
  | some i =>
      rw [pmmAllocPage_of_some (hfind.trans hi)]
      simp only [Memory.pmmAllocPage, hi]
      refine ⟨trivial, ?_, ?_, h.highest, rfl⟩
      · intro j hj
        rw [takePage_bitmap, Memory.takePage, bitmapTest_set, bitmapTest_set, h.bits j hj]
      · exact congrArg (· - 4096#64) h.free

theorem Alike.allocPages (h : Alike r p) (count : Word) :
    (pmmAllocPages r count).1 = (Memory.pmmAllocPages p count).1 ∧
      Alike (pmmAllocPages r count).2 (Memory.pmmAllocPages p count).2 := by
  by_cases hzero : count = 0#64
  · rw [pmmAllocPages, Memory.pmmAllocPages, if_pos hzero, if_pos hzero]
    exact ⟨rfl, h⟩
  by_cases hone : count = 1#64
  · rw [pmmAllocPages, Memory.pmmAllocPages, if_neg hzero, if_neg hzero, if_pos hone, if_pos hone]
    exact h.allocPage
  have hfind := h.findPages_eq count.toNat
  cases hi : findPages p count.toNat with
  | none =>
      rw [pmmAllocPages_of_none hzero hone (hfind.trans hi)]
      simpa only [Memory.pmmAllocPages, if_neg hzero, if_neg hone, hi] using ⟨trivial, h⟩
  | some i =>
      rw [pmmAllocPages_of_some hzero hone (hfind.trans hi)]
      simp only [Memory.pmmAllocPages, if_neg hzero, if_neg hone, hi]
      refine ⟨trivial, ?_, ?_, ?_, rfl⟩
      · intro j hj
        have hhighest := setPages_pmmHighestPage r i count.toNat
        rw [takePages_bitmap, Memory.takePages, bitmapTest_setRange, bitmapTest_setRange,
          h.bits j (lt_of_lt_of_eq hj hhighest)]
      · exact congrArg (· - 4096#64 * count) h.free
      · exact (setPages_pmmHighestPage r i count.toNat).trans h.highest

theorem Alike.freePage (h : Alike r p) {page : Word} (hpage : page.toNat / 4096 < r.pmmHighestPage) :
    Alike (pmmFreePage r page) (Memory.pmmFreePage p page) := by
  simp only [pmmFreePage, Memory.pmmFreePage, h.bits _ hpage]
  generalize page.toNat / 4096 = bit
  split
  · refine ⟨?_, congrArg (· + 4096#64) h.free, h.highest, h.last⟩
    intro j hj
    rw [releasePage_bitmap, bitmapTest_clear, bitmapTest_clear, h.bits j hj]
  · exact h

/-! ## Agreement -/

/-- The machine `r` and one whose allocator lies apart: the same allocator, and the same
memory except on the pages `H`. These include the pages of the bitmap, which are not handed
out. -/
structure Sim (H : Set ℕ) (r : Machine) (m : Memory.Machine) : Prop where
  stores : ∀ t, r.Stores t → t ∈ H
  above : 4096 ≤ r.pmmBitmap
  used : ∀ t, r.Stores t → t ∉ clearPages m.pmm.bitmap m.pmm.highestPage
  mem : ∀ t ∉ H, r.mem t = m.mem t
  alike : Alike r m.pmm
  kernel : r.kernelPml4 = m.kernelPml4

/-- A machine whose bitmap is in use agrees with itself taken apart. -/
theorem BitmapInUse.sim (h : BitmapInUse r) : Sim {t | r.Stores t} r r.apart :=
  ⟨fun _ ht => ht, h.above, fun t ht hclear => h.used t ht ((Alike.self r).mem_clearPages.mpr hclear),
    fun _ _ => rfl, .self r, rfl⟩

theorem Sim.not_stores (h : Sim H r m) (ht : t ∉ H) : ¬ r.Stores t := fun hs => ht (h.stores t hs)

theorem Sim.zero (h : Sim H r m) : ¬ r.Stores 0 := by
  rintro ⟨i, _, hi⟩
  have := h.above
  omega

/-- A page that is handed out holds no part of the bitmap. -/
theorem Sim.clear (h : Sim H r m) (ht : t ∈ clearPages m.pmm.bitmap m.pmm.highestPage) :
    ¬ r.Stores t := fun hs => h.used t hs ht

theorem Sim.bitmapInUse (h : Sim H r m) : BitmapInUse r :=
  ⟨fun t ht hclear => h.used t ht (h.alike.mem_clearPages.mp hclear), h.above⟩

theorem Sim.mono {H' : Set ℕ} (h : Sim H r m) (hsub : H ⊆ H') : Sim H' r m :=
  { h with
    stores := fun t ht => hsub (h.stores t ht)
    mem := fun t ht => h.mem t fun hin => ht (hsub hin) }

/-- Stores that leave the bitmap alone and do the same outside of `H`. -/
theorem Sim.withMem (h : Sim H r m) {mem mem' : PhysMem}
    (hstores : ∀ t, r.Stores t → mem t = r.mem t) (hsame : ∀ t ∉ H, mem t = mem' t) :
    Sim H { r with mem := mem } { m with mem := mem' } := by
  refine { h with mem := hsame, alike := { h.alike with bits := ?_ } }
  intro i hi
  have hbyte : Machine.bitmap { r with mem := mem } (i / 8) = r.bitmap (i / 8) :=
    congrArg UInt8.toBitVec (loadByte_congr (hstores _ ⟨i / 8, bit_lt hi, rfl⟩) rfl)
  rw [bitmapTest, hbyte]
  exact h.alike.bits i hi

theorem Sim.writeWord (h : Sim H r m) (ht : t ∉ H) (i : ℕ) (w : Word) :
    Sim H { r with mem := writeWord r.mem t i w } { m with mem := writeWord m.mem t i w } := by
  apply h.withMem
  · intro s hs
    refine Function.update_of_ne ?_ _ _
    rintro rfl
    exact ht (h.stores _ hs)
  · intro s hs
    rw [Memory.writeWord, Memory.writeWord, Function.update_apply, Function.update_apply,
      h.mem s hs, h.mem t ht]

theorem Sim.clearTable (h : Sim H r m) (ht : ¬ r.Stores t) :
    Sim H { r with mem := clearTable r.mem t } { m with mem := clearTable m.mem t } := by
  apply h.withMem
  · intro s hs
    refine Function.update_of_ne ?_ _ _
    rintro rfl
    exact ht hs
  · intro s hs
    rw [Memory.clearTable, Memory.clearTable, Function.update_apply, Function.update_apply,
      h.mem s hs]

/-- A step of the allocator that hands out no page of the bitmap twice. -/
theorem Sim.step {r' : Machine} {m' : Memory.Machine} (h : Sim H r m) (hkept : Kept r r')
    (halike : Alike r' m'.pmm) (hmem : m'.mem = m.mem) (hkernel : m'.kernelPml4 = m.kernelPml4)
    (hused : ∀ t, r.Stores t → t ∉ clearPages m'.pmm.bitmap m'.pmm.highestPage) : Sim H r' m' := by
  refine ⟨?_, hkept.base ▸ h.above, ?_, ?_, halike, by rw [hkept.kernel, hkernel, h.kernel]⟩
  · exact fun t ht => h.stores t (hkept.stores_iff.mp ht)
  · exact fun t ht => hused t (hkept.stores_iff.mp ht)
  · intro t ht
    rw [hkept.mem t (h.not_stores ht), hmem, h.mem t ht]

/-- Allocations only mark pages. -/
theorem clearPages_sub {n : ℕ} {a : Word × Pmm} (h : AllocCase p n a)
    (ht : t ∈ clearPages a.2.bitmap a.2.highestPage) : t ∈ clearPages p.bitmap p.highestPage := by
  cases h with
  | failed => exact ht
  | taken i p' hn takes =>
      obtain ⟨hlt, hbit⟩ := mem_clearPages.mp ht
      rw [takes.bits, Bool.or_eq_false_iff] at hbit
      exact mem_clearPages.mpr ⟨takes.highest ▸ hlt, hbit.2⟩

theorem Sim.allocPage (h : Sim H r m) :
    (pmmAllocPage r).1 = m.allocPage.1 ∧ Sim H (pmmAllocPage r).2 m.allocPage.2 := by
  obtain ⟨hfst, halike⟩ := h.alike.allocPage
  exact ⟨hfst, h.step (pmmAllocPage_kept r) halike rfl rfl fun t ht hclear =>
    h.used t ht (clearPages_sub (pmmAllocPage_cases m.cursor) hclear)⟩

theorem Sim.allocPages (h : Sim H r m) (count : Word) :
    (pmmAllocPages r count).1 = (m.allocPages count).1 ∧
      Sim H (pmmAllocPages r count).2 (m.allocPages count).2 := by
  obtain ⟨hfst, halike⟩ := h.alike.allocPages count
  exact ⟨hfst, h.step (pmmAllocPages_kept r count) halike rfl rfl fun t ht hclear =>
    h.used t ht (clearPages_sub (pmmAllocPages_cases m.cursor count) hclear)⟩

/-- Freeing a page that holds no part of the bitmap. -/
theorem Sim.freePage (h : Sim H r m) {page : Word} (hpage : page.toNat / 4096 < r.pmmHighestPage)
    (hstores : ¬ r.Stores (page.toNat / 4096)) : Sim H (pmmFreePage r page) (m.freePage page) := by
  refine h.step (pmmFreePage_kept hpage) (h.alike.freePage hpage) rfl rfl ?_
  intro t ht hclear
  obtain ⟨hlt, hbit⟩ := mem_clearPages.mp hclear
  have hne : t ≠ page.toNat / 4096 := by
    rintro rfl
    exact hstores ht
  have hbits : bitmapTest (m.freePage page).pmm.bitmap t =
      (!decide (t = page.toNat / 4096) && bitmapTest m.pmm.bitmap t) := pmmFreePage_bits m.pmm page t
  rw [hbits, decide_eq_false hne] at hbit
  have hhighest : (m.freePage page).pmm.highestPage = m.pmm.highestPage :=
    pmmFreePage_highestPage m.pmm page
  exact h.used t ht (mem_clearPages.mpr ⟨hhighest ▸ hlt, by simpa using hbit⟩)

end LispDos.Raw
