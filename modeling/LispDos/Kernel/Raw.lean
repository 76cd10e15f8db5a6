import LispDos.Kernel.Bytes

/-! # The bitmap in memory

The functions of `pmm.c` and `vmm.c` on one memory. The bitmap is a row of bytes in the
memory that the allocator manages: `bitmap_set` and `bitmap_clear` store into it, and so
does everything that writes to its pages. -/

namespace LispDos.Raw

open Memory

/-- Physical memory, the variables of `pmm.c` and the page of the kernel's PML4. The bitmap
starts at the physical address `pmmBitmap`. Physical addresses have at most 52 bits, and the
cursor of the allocator stays in range. -/
structure Machine where
  mem : PhysMem
  pmmBitmap : ℕ
  pmmFreeMemory : Word
  pmmHighestPage : ℕ
  pmmLastAllocatedIndex : ℕ
  kernelPml4 : ℕ
  cursor : pmmLastAllocatedIndex ≤ pmmHighestPage
  physical : pmmHighestPage ≤ 2 ^ 40

/-- The bytes from `pmm_bitmap` on. -/
def Machine.bitmap (m : Machine) : Bitmap := fun i => (loadByte m.mem (m.pmmBitmap + i)).toBitVec

/-- The allocator as it is found in memory. -/
def Machine.pmm (m : Machine) : Pmm where
  bitmap := m.bitmap
  freeMemory := m.pmmFreeMemory
  highestPage := m.pmmHighestPage
  lastAllocatedIndex := m.pmmLastAllocatedIndex
  highest_lt := m.physical.trans_lt (by decide)

/-- The store of a byte of the bitmap. -/
def Machine.setBitmap (m : Machine) (i : ℕ) (x : BitVec 8) : Machine :=
  { m with mem := storeByte m.mem (m.pmmBitmap + i) (UInt8.ofBitVec x) }

def bitmapSet (m : Machine) (bit : ℕ) : Machine :=
  m.setBitmap (bit / 8) (m.bitmap (bit / 8) ||| 1#8 <<< (bit % 8))

def bitmapClear (m : Machine) (bit : ℕ) : Machine :=
  m.setBitmap (bit / 8) (m.bitmap (bit / 8) &&& ~~~(1#8 <<< (bit % 8)))

/-! ## Pages -/

/-- The body of the allocation loops for a clear bit. -/
def takePage (m : Machine) (i : ℕ) (hi : i ≤ m.pmmHighestPage) : Machine :=
  { bitmapSet m i with
    pmmLastAllocatedIndex := i
    pmmFreeMemory := m.pmmFreeMemory - 4096#64
    cursor := hi }

theorem findPage_le {m : Machine} {i : ℕ} (h : findPage m.pmm = some i) : i ≤ m.pmmHighestPage :=
  (mem_clearPages.mp (findPage_some m.cursor h)).1.le

/-- `pmm_alloc_page`. The loops only read until they find a clear bit. -/
def pmmAllocPage (m : Machine) : Word × Machine :=
  match h : findPage m.pmm with
  | some i => (pageAddr i, takePage m i (findPage_le h))
  | none => (0#64, m)

/-- The calls of `bitmap_set` for a row of pages. -/
def setPages (m : Machine) (startIndex count : ℕ) : Machine :=
  (List.range count).foldl (fun m j => bitmapSet m (startIndex + j)) m

/-- The stores for a row of clear bits. -/
def takePages (m : Machine) (startIndex : ℕ) (count : Word)
    (hi : startIndex + count.toNat ≤ (setPages m startIndex count.toNat).pmmHighestPage) :
    Machine :=
  { setPages m startIndex count.toNat with
    pmmLastAllocatedIndex := startIndex + count.toNat
    pmmFreeMemory := m.pmmFreeMemory - 4096#64 * count
    cursor := hi }

@[simp] theorem setPages_pmmHighestPage (m : Machine) (startIndex count : ℕ) :
    (setPages m startIndex count).pmmHighestPage = m.pmmHighestPage := by
  induction count with
  | zero => rfl
  | succ count ih =>
      rw [setPages, List.range_succ, List.foldl_append]
      exact ih

theorem findPages_le {m : Machine} {i : ℕ} {count : Word} (h : findPages m.pmm count.toNat = some i) :
    i + count.toNat ≤ (setPages m i count.toNat).pmmHighestPage := by
  rw [setPages_pmmHighestPage]
  exact (findPages_some m.cursor h).1

/-- `pmm_alloc_pages`. -/
def pmmAllocPages (m : Machine) (count : Word) : Word × Machine :=
  if count = 0#64 then (0#64, m)
  else if count = 1#64 then pmmAllocPage m
  else
    match h : findPages m.pmm count.toNat with
    | some i => (pageAddr i, takePages m i count (findPages_le h))
    | none => (0#64, m)

/-- The body of `pmm_free_page` for a bit that is set. -/
def releasePage (m : Machine) (bit : ℕ) : Machine :=
  { bitmapClear m bit with pmmFreeMemory := m.pmmFreeMemory + 4096#64 }

/-- `pmm_free_page`. -/
def pmmFreePage (m : Machine) (page : Word) : Machine :=
  let bit := page.toNat / 4096
  if bitmapTest m.bitmap bit then releasePage m bit else m

/-! ## Page maps -/

/-- `vmm_new_pagemap`. -/
def vmmNewPagemap (m : Machine) : Word × Machine :=
  let r := pmmAllocPage m
  if r.1 = 0#64 then (0#64, r.2)
  else
    let pml4 := r.1.toNat / 4096
    (r.1, { r.2 with mem := copyUpperHalf (clearTable r.2.mem pml4) pml4 r.2.kernelPml4 })

/-- One level of `vmm_map_page`. The result is the page of the table. -/
def openTable (m : Machine) (table idx : ℕ) : ℕ × Machine :=
  let m :=
    if present (m.mem table idx) then m
    else
      let r := pmmAllocPage m
      let mem := clearTable r.2.mem (r.1.toNat / 4096)
      { r.2 with mem := writeWord mem table idx (r.1 ||| 1#64 ||| 2#64 ||| 4#64) }
  (tableOf (m.mem table idx), m)

/-- `vmm_map_page`. -/
def vmmMapPage (m : Machine) (map vaddr paddr flags : Word) : Machine :=
  let pdpt := openTable m (map.toNat / 4096) (tableIndex vaddr 39)
  let pd := openTable pdpt.2 pdpt.1 (tableIndex vaddr 30)
  let pt := openTable pd.2 pd.1 (tableIndex vaddr 21)
  { pt.2 with
    mem := writeWord pt.2.mem pt.1 (tableIndex vaddr 12) (paddr &&& ~~~0xFFF#64 ||| flags ||| 1#64) }

/-- One of the nested loops of `vmm_free_pagemap`. The entry is read again once what is below
it has been freed. -/
def freeLoop (count table : ℕ) (below : ℕ → Machine → Machine) (m : Machine) : Machine :=
  (List.range count).foldl (fun m idx =>
    if present (m.mem table idx) then
      let m := below (tableOf (m.mem table idx)) m
      pmmFreePage m (m.mem table idx &&& ~~~0xFFF#64)
    else m) m

def freePt (pt : ℕ) : Machine → Machine := freeLoop 512 pt fun _ m => m

def freePd (pd : ℕ) : Machine → Machine := freeLoop 512 pd freePt

def freePdpt (pdpt : ℕ) : Machine → Machine := freeLoop 512 pdpt freePd

/-- `vmm_free_pagemap`. -/
def vmmFreePagemap (m : Machine) (map : Word) : Machine :=
  if map = 0#64 then m else pmmFreePage (freeLoop 256 (map.toNat / 4096) freePdpt m) map

/-! ## The bitmap's pages -/

/-- The number of bytes with a bit of a page. -/
def Machine.bitmapBytes (m : Machine) : ℕ := (m.pmmHighestPage + 7) / 8

/-- Page `t` holds a byte of the bitmap. -/
def Machine.Stores (m : Machine) (t : ℕ) : Prop :=
  ∃ i < m.bitmapBytes, (m.pmmBitmap + i) / 4096 = t

/-- The pages of the bitmap are not handed out, and it does not lie on page 0. -/
structure BitmapInUse (m : Machine) : Prop where
  used : ∀ t, m.Stores t → t ∉ clearPages m.bitmap m.pmmHighestPage
  above : 4096 ≤ m.pmmBitmap

/-- The bits of byte `j` that belong to no page, when there are `n` pages. -/
def bitsAbove (n j : ℕ) : BitVec 8 := ~~~BitVec.ofNat 8 (2 ^ (n - 8 * j) - 1)

/-- The same allocator and the same memory, taken apart. Pages without a bit count as used. -/
def Machine.apart (m : Machine) : Memory.Machine where
  pmm := { m.pmm with bitmap := fun j => m.bitmap j ||| bitsAbove m.pmmHighestPage j }
  mem := m.mem
  kernelPml4 := m.kernelPml4
  cursor := m.cursor
  physical := m.physical

end LispDos.Raw
