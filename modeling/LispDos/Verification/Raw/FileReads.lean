import LispDos.Verification.Raw.KernelHalf

/-! # File accesses beside the bitmap

While the pages of the bitmap are in use, the accesses of a call to the file buffer are those of
the call on the machine that is taken apart. -/

namespace LispDos.Raw

open Foundation Memory Process

variable {r : Machine} {m : Memory.Machine} {size : ℕ} {fs : Files} {filename : List UInt8}
  {args : Option (List UInt8)} {Before : Word → Machine → Memory.Machine → Prop}

/-- Every byte that is read has an offset below the size of the file. -/
def Event.inFile (size : ℕ) : Event → Prop
  | .field offset n => ∀ i < n, (offset + BitVec.ofNat 64 i).toNat < size
  | .copy offset n => ∀ i < n, (offset + BitVec.ofNat 64 i).toNat < size
  | .map _ _ _ => True

theorem EventAlike.inFile_iff {e : Event} {e' : Process.Event} (h : EventAlike Before e e') :
    e.inFile size ↔ e'.inFile size := by
  cases h with
  | field offset n => exact .rfl
  | copy offset n => exact .rfl
  | map before before' map v hbefore => exact .rfl

theorem LogAlike.inFile_iff {log : List Event} {log' : List Process.Event}
    (h : LogAlike Before log log') :
    (∀ e ∈ log, e.inFile size) ↔ ∀ e' ∈ log', e'.inFile size := by
  constructor
  · intro hall e' he'
    obtain ⟨e, he, halike⟩ := h.right e' he'
    exact halike.inFile_iff.mp (hall e he)
  · intro hall e he
    obtain ⟨e', he', halike⟩ := h.left e he
    exact halike.inFile_iff.mpr (hall e' he')

/-- While the pages of the bitmap are in use, the accesses of a call that stays in the lower half
to the file buffer stay in the file exactly if the file is long enough for its header and for the
segments that are loaded. -/
theorem exec_reads_within_file (fs : Files) (filename : List UInt8) (args : Option (List UInt8))
    (r : Machine) (hsafe : BitmapSafe r) (hzero : bitmapTest r.bitmap 0 = true)
    (hfits : RamdiskFits fs filename) (hargs : ArgsFit args) (hlow : LoadsLow fs filename r.apart) :
    (∀ e ∈ (processExec fs filename args r).2.log, e.inFile (fileSize fs filename).1) ↔
      ReadsFile fs filename r.apart := by
  have hreads := exec_reads_file fs filename args r.apart (zero_apart hzero)
  rw [(exec_logs hsafe hzero hfits.storesFit hargs hlow).inFile_iff]
  exact ⟨hreads.1, fun h => hreads.2 ⟨hlow, h⟩⟩

/-! ## A file without a header -/

/-- A file that is too short for a program header has no segments. -/
theorem loadsLow_of_short (hshort : (fileSize fs filename).1 < 56) : LoadsLow fs filename m := by
  intro c hcontext haccepted
  have hsize : c.size < 56 := by rwa [(context_of hcontext).2]
  obtain ⟨-, -, htable⟩ := headerResult_ok (headerResult_accepted haccepted) (by omega)
  have hnone : (phnum c.buf).toNat = 0 := by omega
  have hplan : c.plan = [] := by simp [Context.plan, segments, hnone, pagesOf]
  rw [Context.reached, hplan]
  simp [reached]

theorem magicFile_fits : RamdiskFits (sampleFiles magicFile) [0x61] := by
  unfold RamdiskFits
  decide +kernel

theorem magicFile_low : LoadsLow (sampleFiles magicFile) [0x61] sampleMachine.apart :=
  loadsLow_of_short (by rw [magicFile_delivers.size]; decide)

theorem exec_reads_within_file_magicFile :
    (∀ e ∈ (processExec (sampleFiles magicFile) [0x61] none sampleMachine).2.log,
        e.inFile (fileSize (sampleFiles magicFile) [0x61]).1) ↔
      ReadsFile (sampleFiles magicFile) [0x61] sampleMachine.apart :=
  exec_reads_within_file _ _ _ _ sampleMachine_safe (by decide) magicFile_fits
    (by simp [ArgsFit]) magicFile_low

/-- The field `e_phoff` of a file of four bytes is read. -/
theorem magicFile_read_outside :
    (fileSize (sampleFiles magicFile) [0x61]).1 = 4 ∧
      .field 32#64 8 ∈ (processExec (sampleFiles magicFile) [0x61] none sampleMachine).2.log ∧
      ¬ (Event.field 32#64 8).inFile (fileSize (sampleFiles magicFile) [0x61]).1 := by
  have hsize : (fileSize (sampleFiles magicFile) [0x61]).1 = 4 := magicFile_delivers.size
  obtain ⟨c, hcontext, hholds⟩ := magicFile_delivers.context (m := sampleMachine.apart) (by decide)
    (by decide +kernel)
  have hlength : c.size = 4 := hholds.size
  have hmagic : Magic c.buf := by
    have hbytes := hholds.bytes
    rw [hlength] at hbytes
    have hfile : Magic (fileByte magicFile) := by decide
    intro e he
    rw [field_congr hbytes _ _ (elfMagic_lt e he)]
    exact hfile e he
  obtain ⟨i, hfetched⟩ := hholds.fetched
  have hread : Process.Event.field 32#64 8 ∈
      (Process.processExec (sampleFiles magicFile) [0x61] none sampleMachine.apart).2.log := by
    rw [processExec_of_context hcontext]
    refine execElf_headerLog (hfetched.ready (by decide)) none _ ?_
    rw [show byteAt c.machine.mem c.phys = c.buf from (congrArg Context.buf hholds.of).symm]
    simp [headerLog, headerReads, hmagic]
  refine ⟨hsize, ?_, ?_⟩
  · obtain ⟨e, he, halike⟩ := (exec_logs sampleMachine_safe (by decide) magicFile_fits.storesFit
      (by simp [ArgsFit]) magicFile_low).right _ hread
    cases halike with
    | field _ _ => exact he
  · rw [hsize]
    exact fun h => absurd ((field_inFile_iff (by decide) 32#64 (by decide)).mp h) (by decide)

end LispDos.Raw
