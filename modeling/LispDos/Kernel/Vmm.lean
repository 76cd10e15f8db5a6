import LispDos.Verification.Memory.Pages

/-! # Address spaces

The page tables of `vmm.c`. Physical memory is read as pages of 512 words; the higher
half direct map makes each of them accessible, and distinct pages stay distinct there. -/

namespace LispDos.Memory

/-- Word `i` of the page with number `f`. -/
abbrev PhysMem := ℕ → ℕ → Word

/-- The allocator, physical memory and the page of the kernel's PML4. Physical addresses
have at most 52 bits, and the cursor of the allocator stays in range. -/
structure Machine where
  pmm : Pmm
  mem : PhysMem
  kernelPml4 : ℕ
  cursor : pmm.lastAllocatedIndex ≤ pmm.highestPage
  physical : pmm.highestPage ≤ 2 ^ 40

/-- The call `pmm_alloc_page()`. -/
def Machine.allocPage (m : Machine) : Word × Machine :=
  ((pmmAllocPage m.pmm).1,
    { m with
      pmm := (pmmAllocPage m.pmm).2
      cursor := (pmmAllocPage_cases m.cursor).cursor m.cursor
      physical := (pmmAllocPage_cases m.cursor).highest ▸ m.physical })

@[simp] theorem Machine.allocPage_pmm (m : Machine) :
    m.allocPage.2.pmm = (pmmAllocPage m.pmm).2 := rfl

@[simp] theorem Machine.allocPage_mem (m : Machine) : m.allocPage.2.mem = m.mem := rfl

@[simp] theorem Machine.allocPage_kernelPml4 (m : Machine) :
    m.allocPage.2.kernelPml4 = m.kernelPml4 := rfl

/-- The call `pmm_free_page(page)`. -/
def Machine.freePage (m : Machine) (page : Word) : Machine :=
  { m with
    pmm := pmmFreePage m.pmm page
    cursor := by simpa using m.cursor
    physical := by simpa using m.physical }

/-! ## Entries -/

/-- The test `entry & PAGE_PRESENT`. -/
def present (entry : Word) : Bool := entry &&& 1#64 != 0#64

/-- The test `entry & PAGE_USER`. -/
def user (entry : Word) : Bool := entry &&& 4#64 != 0#64

/-- The test `entry & PAGE_WRITE`. -/
def writable (entry : Word) : Bool := entry &&& 2#64 != 0#64

/-- The page of the address `entry & ~0xFFF`. -/
def tableOf (entry : Word) : ℕ := (entry &&& ~~~0xFFF#64).toNat / 4096

/-- The index `(vaddr >> shift) & 0x1FF`. -/
def tableIndex (vaddr : Word) (shift : ℕ) : ℕ := (vaddr >>> shift &&& 0x1FF#64).toNat

/-- The call `memset(table, 0, 4096)`. -/
def clearTable (mem : PhysMem) (table : ℕ) : PhysMem := Function.update mem table fun _ => 0#64

/-- The assignment `table[idx] = word`. -/
def writeWord (mem : PhysMem) (table idx : ℕ) (word : Word) : PhysMem :=
  Function.update mem table (Function.update (mem table) idx word)

/-! ## Building -/

/-- The loop that copies the upper half of the kernel's PML4. -/
def copyUpperHalf (mem : PhysMem) (pml4 kernelPml4 : ℕ) : PhysMem :=
  (List.range 256).foldl (fun mem i =>
    writeWord mem pml4 (256 + i) (mem kernelPml4 (256 + i))) mem

/-- `vmm_new_pagemap`. -/
def vmmNewPagemap (m : Machine) : Word × Machine :=
  let r := m.allocPage
  if r.1 = 0#64 then (0#64, r.2)
  else
    let pml4 := r.1.toNat / 4096
    (r.1, { r.2 with mem := copyUpperHalf (clearTable r.2.mem pml4) pml4 r.2.kernelPml4 })

/-- One level of `vmm_map_page`: a missing table is allocated, cleared and entered with
the flags present, write and user. The result is the page of the table. -/
def openTable (m : Machine) (table idx : ℕ) : ℕ × Machine :=
  let m :=
    if present (m.mem table idx) then m
    else
      let r := m.allocPage
      let mem := clearTable r.2.mem (r.1.toNat / 4096)
      { r.2 with mem := writeWord mem table idx (r.1 ||| 1#64 ||| 2#64 ||| 4#64) }
  (tableOf (m.mem table idx), m)

/-- `vmm_map_page`. -/
def vmmMapPage (m : Machine) (map vaddr paddr flags : Word) : Machine :=
  let pdpt := openTable m (map.toNat / 4096) (tableIndex vaddr 39)
  let pd := openTable pdpt.2 pdpt.1 (tableIndex vaddr 30)
  let pt := openTable pd.2 pd.1 (tableIndex vaddr 21)
  { pt.2 with
    mem := writeWord pt.2.mem pt.1 (tableIndex vaddr 12) (paddr &&& ~~~0xFFF#64 ||| flags ||| 1#64) }

/-! ## Tearing down -/

/-- One of the nested loops of `vmm_free_pagemap`: for each present entry, first what is
below it and then its page. -/
def freeLoop (count table : ℕ) (below : ℕ → Machine → Machine) (m : Machine) : Machine :=
  (List.range count).foldl (fun m idx =>
    if present (m.mem table idx) then
      (below (tableOf (m.mem table idx)) m).freePage (m.mem table idx &&& ~~~0xFFF#64)
    else m) m

def freePt (pt : ℕ) : Machine → Machine := freeLoop 512 pt fun _ m => m

def freePd (pd : ℕ) : Machine → Machine := freeLoop 512 pd freePt

def freePdpt (pdpt : ℕ) : Machine → Machine := freeLoop 512 pdpt freePd

/-- `vmm_free_pagemap`; only the lower half of the PML4 belongs to the user. -/
def vmmFreePagemap (m : Machine) (map : Word) : Machine :=
  if map = 0#64 then m else (freeLoop 256 (map.toNat / 4096) freePdpt m).freePage map

end LispDos.Memory
