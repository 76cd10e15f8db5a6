import LispDos.Verification.Memory.Pages

/-! # The kernel heap

The bump allocator of `heap.c`. It reads and writes physical memory through the higher half direct
map, so its memory is the bytes at the addresses of that. -/

namespace LispDos.Memory

/-- The variables of the heap, over those of the page allocator. The boot loader maps whole pages,
and the map of the physical memory ends below the end of the address space. -/
structure Heap where
  pmm : Pmm
  hhdmOffset : Word
  memory : Word → UInt8
  currentPage : Word
  currentPageOffset : Word
  cursor : pmm.lastAllocatedIndex ≤ pmm.highestPage
  aligned : hhdmOffset.toNat % 4096 = 0
  mapped : hhdmOffset.toNat + pmm.highestPage * 4096 < 2 ^ 64

/-- `phystokv`. -/
def Heap.phystokv (h : Heap) (phys : Word) : Word := phys + h.hhdmOffset

/-- The call `pmm_alloc_page()`. -/
def Heap.allocPage (h : Heap) : Word × Heap :=
  ((pmmAllocPage h.pmm).1,
    { h with
      pmm := (pmmAllocPage h.pmm).2
      cursor := (pmmAllocPage_cases h.cursor).cursor h.cursor
      mapped := (pmmAllocPage_cases h.cursor).highest ▸ h.mapped })

/-- The call `pmm_alloc_pages(count)`. -/
def Heap.allocPages (h : Heap) (count : Word) : Word × Heap :=
  ((pmmAllocPages h.pmm count).1,
    { h with
      pmm := (pmmAllocPages h.pmm count).2
      cursor := (pmmAllocPages_cases h.cursor count).cursor h.cursor
      mapped := (pmmAllocPages_cases h.cursor count).highest ▸ h.mapped })

/-- The loop `for (i = 0; i < n; i++) ptr[i] = 0`. -/
def zeroBytes (memory : Word → UInt8) (ptr : Word) (n : ℕ) : Word → UInt8 :=
  fun address => if (address - ptr).toNat < n then 0 else memory address

/-- The size `(size + 7) & ~7`. -/
def roundSize (size : Word) : Word := (size + 7#64) &&& ~~~7#64

/-- The end of `kmalloc`: the pointer into the current page moves on. -/
def Heap.bump (h : Heap) (size : Word) : Word × Heap :=
  (h.currentPage + h.currentPageOffset,
    { h with currentPageOffset := h.currentPageOffset + size })

/-- `kmalloc`. -/
def kmalloc (h : Heap) (size : Word) : Word × Heap :=
  if size = 0#64 then (0#64, h)
  else
    let size := roundSize size
    if 4096#64 < size then
      let pages := (size + 4095#64) / 4096#64
      let r := h.allocPages pages
      if r.1 = 0#64 then (0#64, r.2)
      else
        let ptr := r.2.phystokv r.1
        (ptr, { r.2 with memory := zeroBytes r.2.memory ptr (pages * 4096#64).toNat })
    else if h.currentPage = 0#64 ∨ 4096#64 < h.currentPageOffset + size then
      let r := h.allocPage
      if r.1 = 0#64 then (0#64, r.2)
      else
        let page := r.2.phystokv r.1
        { r.2 with
          currentPage := page
          currentPageOffset := 0#64
          memory := zeroBytes r.2.memory page 4096 : Heap }.bump size
    else h.bump size

end LispDos.Memory
