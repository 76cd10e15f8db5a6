import Mathlib.Logic.Function.Basic
import Mathlib.Tactic.Ring

/-! # Physical pages

The bitmap allocator of `pmm.c`. The bitmap is read as the sequence of bytes at
`pmm_bitmap`; bit `i` stands for the page at address `4096 * i`. -/

namespace LispDos

/-- A `uint64_t`. -/
abbrev Word := BitVec 64

namespace Memory

/-! ## The bitmap -/

abbrev Bitmap := ℕ → BitVec 8

def bitmapSet (bitmap : Bitmap) (bit : ℕ) : Bitmap :=
  Function.update bitmap (bit / 8) (bitmap (bit / 8) ||| 1#8 <<< (bit % 8))

def bitmapClear (bitmap : Bitmap) (bit : ℕ) : Bitmap :=
  Function.update bitmap (bit / 8) (bitmap (bit / 8) &&& ~~~(1#8 <<< (bit % 8)))

def bitmapTest (bitmap : Bitmap) (bit : ℕ) : Bool :=
  bitmap (bit / 8) &&& 1#8 <<< (bit % 8) != 0#8

/-- The variables of the allocator. The highest page is a 64-bit address divided by the
page size. -/
structure Pmm where
  bitmap : Bitmap
  freeMemory : Word
  highestPage : ℕ
  lastAllocatedIndex : ℕ
  highest_lt : highestPage < 2 ^ 52

/-- The address `i * PAGE_SIZE`. -/
def pageAddr (i : ℕ) : Word := BitVec.ofNat 64 (i * 4096)

/-! ## One page -/

/-- The body of the allocation loops for a clear bit. -/
def takePage (p : Pmm) (i : ℕ) : Pmm :=
  { p with
    bitmap := bitmapSet p.bitmap i
    lastAllocatedIndex := i
    freeMemory := p.freeMemory - 4096#64 }

/-- The first clear bit from the cursor on, then the first one before it. -/
def findPage (p : Pmm) : Option ℕ :=
  ((List.range' p.lastAllocatedIndex (p.highestPage - p.lastAllocatedIndex)).find?
      fun i => !bitmapTest p.bitmap i).or
    ((List.range p.lastAllocatedIndex).find? fun i => !bitmapTest p.bitmap i)

/-- `pmm_alloc_page`; a failure returns the null address. -/
def pmmAllocPage (p : Pmm) : Word × Pmm :=
  match findPage p with
  | some i => (pageAddr i, takePage p i)
  | none => (0#64, p)

/-! ## Contiguous pages -/

/-- The scan for `count` clear bits in a row, from the bits already counted. It returns
the index at which the row starts. -/
def scanPages (bitmap : Bitmap) (count : ℕ) : List ℕ → ℕ → ℕ → Option ℕ
  | [], _, _ => none
  | i :: is, contiguous, startIndex =>
      if bitmapTest bitmap i then scanPages bitmap count is 0 startIndex
      else
        let startIndex := if contiguous = 0 then i else startIndex
        if contiguous + 1 = count then some startIndex
        else scanPages bitmap count is (contiguous + 1) startIndex

/-- The stores for a row of clear bits. -/
def takePages (p : Pmm) (startIndex : ℕ) (count : Word) : Pmm :=
  { p with
    bitmap := (List.range count.toNat).foldl (fun bm j => bitmapSet bm (startIndex + j)) p.bitmap
    lastAllocatedIndex := startIndex + count.toNat
    freeMemory := p.freeMemory - 4096#64 * count }

/-- The start of the row that the two scans find. Each scan counts from zero, so it sets
the start index before it uses it. -/
def findPages (p : Pmm) (count : ℕ) : Option ℕ :=
  (scanPages p.bitmap count
      (List.range' p.lastAllocatedIndex (p.highestPage - p.lastAllocatedIndex)) 0
      p.lastAllocatedIndex).or
    (scanPages p.bitmap count (List.range p.lastAllocatedIndex) 0 p.lastAllocatedIndex)

/-- `pmm_alloc_pages`. -/
def pmmAllocPages (p : Pmm) (count : Word) : Word × Pmm :=
  if count = 0#64 then (0#64, p)
  else if count = 1#64 then pmmAllocPage p
  else
    match findPages p count.toNat with
    | some i => (pageAddr i, takePages p i count)
    | none => (0#64, p)

/-! ## Freeing -/

/-- `pmm_free_page`. -/
def pmmFreePage (p : Pmm) (page : Word) : Pmm :=
  let bit := page.toNat / 4096
  if bitmapTest p.bitmap bit then
    { p with
      bitmap := bitmapClear p.bitmap bit
      freeMemory := p.freeMemory + 4096#64 }
  else p

/-! ## Initialisation -/

/-- The types of the entries of the memory map. -/
inductive MemmapType where
  | usable
  | reserved
  | acpiReclaimable
  | acpiNvs
  | badMemory
  | bootloaderReclaimable
  | executableAndModules
  | framebuffer
deriving DecidableEq, Repr

structure MemmapEntry where
  base : Word
  length : Word
  type : MemmapType
deriving DecidableEq, Repr

/-- The body of the loop that looks for the highest address. -/
def raiseHighest (highest : Word) (entry : MemmapEntry) : Word :=
  if entry.type = .usable then
    let top := entry.base + entry.length
    if highest < top then top else highest
  else highest

def highestAddress (entries : List MemmapEntry) : Word := entries.foldl raiseHighest 0#64

/-- The size of the bitmap in bytes. -/
def bitmapSize (highestPage : ℕ) : ℕ :=
  if highestPage / 8 = 0 then 1 else highestPage / 8

/-- The first usable entry that can hold the bitmap gives up its first bytes. -/
def placeBitmap (size : ℕ) : List MemmapEntry → Option (Word × List MemmapEntry)
  | [] => none
  | entry :: entries =>
      if entry.type = .usable ∧ size ≤ entry.length.toNat then
        some (entry.base,
          { entry with
            base := entry.base + BitVec.ofNat 64 size
            length := entry.length - BitVec.ofNat 64 size } :: entries)
      else (placeBitmap size entries).map fun r => (r.1, entry :: r.2)

/-- The loop over the pages of one entry: `j` runs over the multiples of the page size
below the length. -/
def freeEntry (s : Bitmap × Word) (entry : MemmapEntry) : Bitmap × Word :=
  if entry.type = .usable then
    (List.range ((entry.length.toNat + 4095) / 4096)).foldl (fun s k =>
      (bitmapClear s.1 ((entry.base + BitVec.ofNat 64 (k * 4096)).toNat / 4096),
        s.2 + 4096#64)) s
  else s

/-- What `pmm_init` leaves: the allocator and the place of its bitmap. -/
structure Boot where
  pmm : Pmm
  bitmapBase : Word
  bitmapBytes : ℕ

theorem highestPage_lt (highest : Word) : highest.toNat / 4096 < 2 ^ 52 := by
  have := highest.isLt
  omega

/-- The loops that fill the bitmap, whose storage held the given bytes, and free the
usable pages. -/
def markMemory (stale : Bitmap) (highest base : Word) (entries : List MemmapEntry) : Boot :=
  let highestPage := highest.toNat / 4096
  let size := bitmapSize highestPage
  let filled : Bitmap := fun i => if i < size then 0xFF#8 else stale i
  let freed := entries.foldl freeEntry (filled, 0#64)
  { pmm :=
      { bitmap := freed.1
        freeMemory := freed.2
        highestPage := highestPage
        lastAllocatedIndex := 0
        highest_lt := highestPage_lt _ }
    bitmapBase := base
    bitmapBytes := size }

/-- `pmm_init` once the bootloader has answered both requests. It does not return when no
entry can hold the bitmap, or when the page loop wraps around in an entry of almost the
whole address space. -/
def pmmInit (stale : Bitmap) (entries : List MemmapEntry) : Option Boot :=
  let highest := highestAddress entries
  (placeBitmap (bitmapSize (highest.toNat / 4096)) entries).bind fun (base, entries) =>
    if ∃ entry ∈ entries, entry.type = .usable ∧ 2 ^ 64 - 4096 < entry.length.toNat then none
    else some (markMemory stale highest base entries)

end Memory

end LispDos
