import LispDos.Verification.Fat16.AnyDisk
import LispDos.Verification.Memory.PageSearch
import LispDos.Verification.Process.Delivery

/-! # The size of the file buffer

The buffer is sized by a 32-bit variable. The FAT16 reader stays within that size; the
ramdisk reader copies the size of the header, which can be larger. -/

namespace LispDos.Process

open Memory

variable {fs : Files} {filename : List UInt8} {m : Machine} {size : ℕ}

/-- If the call comes to reading the file, the read ends, and it fills the buffer from the
front without leaving it. -/
def BufferFits (fs : Files) (filename : List UInt8) (m : Machine) : Prop :=
  (fileSize fs filename).1 ≠ 0 →
    (m.allocPages (BitVec.ofNat 64 (filePages (fileSize fs filename).1))).1 ≠ 0#64 →
      ∃ result stores, readFile fs filename (fileSize fs filename).2 = some (result, stores) ∧
        stores.map Prod.fst = List.range stores.length ∧
        stores.length ≤ filePages (fileSize fs filename).1 * 4096

/-- The volume has no file of that name with a size, and the size field in the ramdisk does
not fit in 32 bits, while its low 32 bits are the size of a file of `pages` pages. -/
def SizeCut (fs : Files) (filename : List UInt8) (pages : ℕ) : Prop :=
  fat16GetFileSize fs.bpb fs.disk filename = 0 ∧ 0 < pages ∧ pages < 2 ^ 20 ∧
    ∃ offset size, Tarfs.lookup fs.ramdisk filename = some (offset, size) ∧
      2 ^ 32 ≤ size ∧ pages = (size % 2 ^ 32 + 4095) / 4096

/-! ## The two readers -/

theorem length_of_offsets {stores : List Store} {n : ℕ}
    (h : stores.map Prod.fst = List.range n) : stores.length = n := by
  have hlength := congrArg List.length h
  rwa [List.length_map, List.length_range] at hlength

/-- The ramdisk reader copies the whole size of the header. -/
theorem tarfsReadFile_filled (ramdisk : Option Tarfs.Ramdisk) (filename : List UInt8) :
    (Tarfs.tarfsReadFile ramdisk filename).2.map Prod.fst =
      List.range (Tarfs.tarfsGetFileSize ramdisk filename) := by
  rw [Tarfs.tarfsGetFileSize]
  cases ramdisk with
  | none => rfl
  | some r =>
      unfold Tarfs.tarfsReadFile
      cases hlookup : Tarfs.lookup (some r) filename with
      | none => rfl
      | some entry =>
          simp only [List.map_map]
          exact List.map_id _

/-- The buffer of a FAT16 file takes all that the reader stores. -/
theorem fat16_fits (hspc : 1 ≤ fs.bpb.spc)
    (hpages : 0 < filePages (fat16GetFileSize fs.bpb fs.disk filename)) :
    ∃ result stores, fat16ReadFile fs.bpb fs.disk filename = some (result, stores) ∧
      stores.map Prod.fst = List.range stores.length ∧
      stores.length ≤ filePages (fat16GetFileSize fs.bpb fs.disk filename) * 4096 := by
  obtain ⟨⟨result, stores⟩, hread⟩ :=
    Option.isSome_iff_exists.mp (Fat16.fat16ReadFile_isSome (d := fs.disk) hspc filename)
  obtain ⟨n, hfilled, hle⟩ := Fat16.fat16ReadFile_filled hread
  obtain rfl := length_of_offsets hfilled
  have hroom := (filePages_bounds (Fat16.fat16GetFileSize_lt fs.bpb fs.disk filename)).2 hpages
  refine ⟨result, stores, hread, hfilled, ?_⟩
  omega

/-! ## When the buffer is large enough -/

/-- A buffer that has been allocated has pages. -/
theorem filePages_pos_of_alloc
    (h : (m.allocPages (BitVec.ofNat 64 (filePages size))).1 ≠ 0#64) : 0 < filePages size := by
  rw [Nat.pos_iff_ne_zero]
  intro hzero
  apply h
  rw [hzero]
  rfl

/-- A buffer can be allocated exactly if there is a row of pages that the search finds. -/
theorem allocPages_ne_zero_iff (hzero : bitmapTest m.pmm.bitmap 0 = true) {pages : ℕ}
    (hpos : 0 < pages) (hlt : pages < 2 ^ 20) :
    (m.allocPages (BitVec.ofNat 64 pages)).1 ≠ 0#64 ↔ ∃ i, OneSided m.pmm pages i := by
  have hcount : (BitVec.ofNat 64 pages).toNat = pages := by
    rw [BitVec.toNat_ofNat, Nat.mod_eq_of_lt (hlt.trans (by decide))]
  have hcount_pos : 0 < (BitVec.ofNat 64 pages).toNat := by omega
  have hnull := pmmAllocPages_null_iff m.cursor hzero hcount_pos
  rw [hcount] at hnull
  rw [Ne, ← not_not (a := ∃ i, OneSided m.pmm pages i)]
  exact not_congr hnull

theorem fileSize_of_fat16 (h : fat16GetFileSize fs.bpb fs.disk filename ≠ 0) :
    fileSize fs filename = (fat16GetFileSize fs.bpb fs.disk filename, false) := by
  simp only [fileSize, if_neg h]

theorem fileSize_of_tarfs (h : fat16GetFileSize fs.bpb fs.disk filename = 0) :
    fileSize fs filename = (Tarfs.tarfsGetFileSize fs.ramdisk filename % 2 ^ 32, true) := by
  simp only [fileSize, if_pos h]

/-- Where the size is not cut, the buffer is large enough. -/
theorem bufferFits_of_not_cut (hspc : 1 ≤ fs.bpb.spc)
    (hcut : ∀ pages, SizeCut fs filename pages →
      (m.allocPages (BitVec.ofNat 64 pages)).1 = 0#64) : BufferFits fs filename m := by
  intro hsize halloc
  have hpos := filePages_pos_of_alloc halloc
  by_cases hfat : fat16GetFileSize fs.bpb fs.disk filename = 0
  · have hfilled := tarfsReadFile_filled fs.ramdisk filename
    have hlength := length_of_offsets hfilled
    rw [fileSize_of_tarfs hfat] at hsize halloc hpos ⊢
    simp only at hsize halloc hpos ⊢
    refine ⟨(Tarfs.tarfsReadFile fs.ramdisk filename).1,
      (Tarfs.tarfsReadFile fs.ramdisk filename).2, rfl, ?_, ?_⟩
    · rw [hlength]
      exact hfilled
    · rw [hlength]
      by_cases hsmall : Tarfs.tarfsGetFileSize fs.ramdisk filename < 2 ^ 32
      · rw [Nat.mod_eq_of_lt hsmall] at hpos ⊢
        have hroom := (filePages_bounds hsmall).2 hpos
        omega
      -- a larger size would leave no buffer
      · apply absurd (hcut _ ⟨hfat, hpos, ?_, ?_⟩) halloc
        · exact (filePages_bounds (Nat.mod_lt _ (by decide))).1
        · rw [Tarfs.tarfsGetFileSize] at hsmall hpos ⊢
          cases hlookup : Tarfs.lookup fs.ramdisk filename with
          | none =>
              rw [hlookup] at hsmall
              exact absurd (by decide) hsmall
          | some entry =>
              rw [hlookup] at hsmall hpos
              simp only [Option.map_some, Option.getD_some] at hsmall hpos ⊢
              refine ⟨entry.1, entry.2, rfl, by omega, ?_⟩
              simp only [filePages] at hpos ⊢
              omega
  · rw [fileSize_of_fat16 hfat] at hpos ⊢
    exact fat16_fits hspc hpos

/-- A size that is cut leaves the buffer too small, if there is one. -/
theorem SizeCut.overflows {pages : ℕ} (h : SizeCut fs filename pages)
    (halloc : (m.allocPages (BitVec.ofNat 64 pages)).1 ≠ 0#64) : ¬ BufferFits fs filename m := by
  intro hfits
  obtain ⟨hfat, hpos, hlt, offset, size, hlookup, hlarge, hpages⟩ := h
  have hsize : Tarfs.tarfsGetFileSize fs.ramdisk filename = size := by
    rw [Tarfs.tarfsGetFileSize, hlookup, Option.map_some, Option.getD_some]
  have hfile : fileSize fs filename = (size % 2 ^ 32, true) := by
    rw [fileSize_of_tarfs hfat, hsize]
  have hcount : filePages (fileSize fs filename).1 = pages := by
    rw [hfile, filePages]
    omega
  have hne : (fileSize fs filename).1 ≠ 0 := by
    rw [hfile]
    show size % 2 ^ 32 ≠ 0
    omega
  obtain ⟨result, stores, hread, _, hle⟩ := hfits hne (by rwa [hcount])
  rw [hcount] at hle
  rw [hfile, readFile, if_pos rfl, Option.some.injEq] at hread
  have hfilled := length_of_offsets (tarfsReadFile_filled fs.ramdisk filename)
  rw [hread, hsize] at hfilled
  simp only at hfilled
  omega

/-- Memory of `2 ^ 20` free pages from page 1 on. -/
def roomyMachine : Machine where
  pmm :=
    { bitmap := fun i => if i = 0 then 0x01#8 else 0x00#8
      freeMemory := 4294967296#64
      highestPage := 2 ^ 20 + 1
      lastAllocatedIndex := 0
      highest_lt := by decide }
  mem := fun _ _ => 0#64
  kernelPml4 := 0
  cursor := by decide
  physical := by decide

theorem roomyMachine_zero : bitmapTest roomyMachine.pmm.bitmap 0 = true := by decide

theorem roomyMachine_alloc {pages : ℕ} (hpos : 0 < pages) (hlt : pages < 2 ^ 20) :
    (roomyMachine.allocPages (BitVec.ofNat 64 pages)).1 ≠ 0#64 := by
  rw [allocPages_ne_zero_iff roomyMachine_zero hpos hlt]
  refine ⟨1, .inl ⟨Nat.zero_le _, ?_, ?_⟩⟩
  · show 1 + pages ≤ 2 ^ 20 + 1
    omega
  · intro j hj _
    by_cases hfirst : j / 8 = 0
    · have hsmall : ∀ j < 8, 1 ≤ j → bitmapTest roomyMachine.pmm.bitmap j = false := by decide
      exact hsmall j (by omega) hj
    · simp [bitmapTest, roomyMachine, hfirst]

/-- The buffer takes whatever a reader stores, for every state of memory, exactly if the size
is not cut; on one state of memory, a size that is cut does no harm exactly if there is no
row of pages for the buffer. -/
theorem exec_buffer_fits_iff (fs : Files) (filename : List UInt8) (hspc : 1 ≤ fs.bpb.spc) :
    ((∀ m, BufferFits fs filename m) ↔ ¬ ∃ pages, SizeCut fs filename pages) ∧
      ∀ m, bitmapTest m.pmm.bitmap 0 = true →
        (BufferFits fs filename m ↔
          ¬ ∃ pages, SizeCut fs filename pages ∧ ∃ i, OneSided m.pmm pages i) := by
  refine ⟨⟨?_, ?_⟩, fun m hzero => ⟨?_, ?_⟩⟩
  · intro h hcut
    rcases hcut with ⟨pages, hcut⟩
    exact hcut.overflows (roomyMachine_alloc hcut.2.1 hcut.2.2.1) (h roomyMachine)
  · intro h m
    exact bufferFits_of_not_cut hspc fun pages hcut => absurd ⟨pages, hcut⟩ h
  · intro h hcut
    rcases hcut with ⟨pages, hcut, hrow⟩
    exact hcut.overflows ((allocPages_ne_zero_iff hzero hcut.2.1 hcut.2.2.1).mpr hrow) h
  · intro h
    apply bufferFits_of_not_cut hspc
    intro pages hcut
    by_contra halloc
    exact h ⟨pages, hcut, (allocPages_ne_zero_iff hzero hcut.2.1 hcut.2.2.1).mp halloc⟩

/-- An archive with the header of a file `a` whose size field is `40000000001`. -/
def largeArchive : Tarfs.Ramdisk where
  bytes k :=
    if k = 0 then 0x61
    else if k = Tarfs.sizeField then 0x34
    else if k = Tarfs.sizeField + 10 then 0x31
    else if Tarfs.sizeField < k ∧ k < Tarfs.sizeField + 10 then 0x30
    else 0
  size := 2048
  physical := by decide

/-- An empty volume, and the archive. -/
def largeFiles : Files where
  bpb := emptyBpb
  disk := fun _ => Sector.zero
  ramdisk := some largeArchive

theorem largeFiles_cut : SizeCut largeFiles [0x61] 1 :=
  ⟨emptyBpb_finds_nothing _ _, by decide, by decide, 0, 2 ^ 32 + 1, by decide, by decide, by decide⟩

/-- One page is allocated, and `2 ^ 32 + 1` bytes are stored. -/
theorem buffer_overflows : ¬ ∀ (fs : Files) (filename : List UInt8) (m : Machine),
    1 ≤ fs.bpb.spc → BufferFits fs filename m := by
  intro h
  exact largeFiles_cut.overflows (roomyMachine_alloc (by decide) (by decide))
    (h largeFiles [0x61] roomyMachine (by decide))

theorem exec_buffer_fits_iff_large :
    ((∀ m, BufferFits largeFiles [0x61] m) ↔ ¬ ∃ pages, SizeCut largeFiles [0x61] pages) ∧
      (BufferFits largeFiles [0x61] roomyMachine ↔
        ¬ ∃ pages, SizeCut largeFiles [0x61] pages ∧ ∃ i, OneSided roomyMachine.pmm pages i) := by
  obtain ⟨hall, hone⟩ := exec_buffer_fits_iff largeFiles [0x61] (by decide)
  exact ⟨hall, hone roomyMachine roomyMachine_zero⟩

end LispDos.Process
