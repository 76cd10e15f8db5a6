import LispDos.Verification.Memory.Bytes
import LispDos.Verification.Memory.UserAccess

/-! # Pointers of programs

The checks of `vmm.c` for pointers that a program passes to the kernel, and accesses of
the kernel through such pointers. These go through the tables of the active address
space, with the rights of the kernel. -/

namespace LispDos.Memory

/-! ## Accesses -/

/-- The byte at a virtual address. An address that is not mapped reads as zero here; the
kernel would stop with an exception. -/
def loadVirt (mem : PhysMem) (root : ℕ) (v : Word) : UInt8 :=
  ((walk mem root v).map fun p => loadByte mem (physAddr p.1 p.2 v)).getD 0

/-- A store to a virtual address. -/
def storeVirt (mem : PhysMem) (root : ℕ) (v : Word) (x : UInt8) : PhysMem :=
  (walk mem root v).elim mem fun p => storeByte mem (physAddr p.1 p.2 v) x

/-- `0x0000800000000000`. -/
def lowerLimit : Word := 0x0000800000000000#64

/-- There are fewer addresses behind the next byte. -/
theorem rest_lt {v : Word} (hv : v < lowerLimit) : 2 ^ 64 - (v + 1#64).toNat < 2 ^ 64 - v.toNat := by
  rw [BitVec.lt_def] at hv
  have hlimit : lowerLimit.toNat = 2 ^ 47 := by decide
  have hone : (1#64 : Word).toNat = 1 := rfl
  rw [BitVec.toNat_add, hone]
  omega

/-- The bytes of the string at an address, up to its terminator. -/
def cString (mem : PhysMem) (root : ℕ) (v : Word) : List UInt8 :=
  if _hv : v < lowerLimit then
    let c := loadVirt mem root v
    if c = 0 then [] else c :: cString mem root (v + 1#64)
  else []
termination_by 2 ^ 64 - v.toNat
decreasing_by exact rest_lt _hv

/-! ## Checks -/

/-- The page of an address, `vaddr & ~0xFFF`. -/
def pageStart (v : Word) : Word := v &&& ~~~0xFFF#64

/-- The tests of one entry, `PAGE_PRESENT` and `PAGE_USER`. -/
def userEntry (e : Word) : Bool := present e && user e

/-- The tests of a page at the four levels. Only the last is tested for `PAGE_WRITE`. -/
def checkPage (mem : PhysMem) (root : ℕ) (page : Word) (writeRequired : Bool) : Bool :=
  let pml4e := mem root (tableIndex page 39)
  if userEntry pml4e then
    let pdpte := mem (tableOf pml4e) (tableIndex page 30)
    if userEntry pdpte then
      let pde := mem (tableOf pdpte) (tableIndex page 21)
      if userEntry pde then
        let pte := mem (tableOf pde) (tableIndex page 12)
        userEntry pte && !(writeRequired && !writable pte)
      else false
    else false
  else false

/-- `vmm_check_user_ptr`. -/
def vmmCheckUserPtr (mem : PhysMem) (root : ℕ) (vaddr size : Word) (writeRequired : Bool) : Bool :=
  if size = 0#64 then true
  else if lowerLimit ≤ vaddr then false
  else if vaddr + size < vaddr then false
  else if lowerLimit ≤ vaddr + size then false
  else
    let startPage := pageStart vaddr
    let endPage := pageStart (vaddr + size - 1#64)
    (List.range ((endPage.toNat - startPage.toNat) / 4096 + 1)).all fun k =>
      checkPage mem root (startPage + BitVec.ofNat 64 (k * 4096)) writeRequired

/-- The addresses `v`, `v + 1`, …, `v + (n - 1)`. -/
def addresses (v : Word) (n : ℕ) : List Word := (List.range n).map fun i => v + BitVec.ofNat 64 i

/-- The address `page + 4096`. -/
def nextPage (v : Word) : Word := pageStart v + 4096#64

/-- The number of bytes from an address to the end of its page. -/
def restOfPage (v : Word) : ℕ := (nextPage v - v).toNat

/-- The loop that looks for a terminator in the rest of a page. -/
def findTerminator (mem : PhysMem) (root : ℕ) (current : Word) : Option ℕ :=
  (List.range (restOfPage current)).find? fun i =>
    loadVirt mem root (current + BitVec.ofNat 64 i) = 0

theorem nextPage_toNat {v : Word} (hv : v < lowerLimit) :
    (nextPage v).toNat = 4096 * (v.toNat / 4096) + 4096 := by
  have hlimit : lowerLimit.toNat = 2 ^ 47 := by decide
  rw [BitVec.lt_def, hlimit] at hv
  have hpage : (pageStart v).toNat = 4096 * (v.toNat / 4096) := toNat_pageMask v
  rw [nextPage, toNat_add_ofNat (by omega), hpage]

theorem nextPage_lt {v : Word} (hv : v < lowerLimit) :
    2 ^ 64 - (nextPage v).toNat < 2 ^ 64 - v.toNat := by
  have hnext := nextPage_toNat hv
  have hlt := v.isLt
  omega

/-- `vmm_check_user_string`, with the addresses it reads. -/
def vmmCheckUserString (mem : PhysMem) (root : ℕ) (current : Word) : Bool × List Word :=
  if _hcurrent : current < lowerLimit then
    if checkPage mem root (pageStart current) false then
      let found := findTerminator mem root current
      if found.isSome then (true, addresses current (found.getD 0 + 1))
      else
        let rest := vmmCheckUserString mem root (nextPage current)
        (rest.1, addresses current (restOfPage current) ++ rest.2)
    else (false, [])
  else (false, [])
termination_by 2 ^ 64 - current.toNat
decreasing_by exact nextPage_lt _hcurrent

end LispDos.Memory
