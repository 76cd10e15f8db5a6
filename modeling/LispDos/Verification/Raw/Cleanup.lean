import LispDos.Verification.Raw.KernelHalf

/-! # Failed calls beside the bitmap

With the pages of the bitmap in use, a call that does not enter user mode gives back what it has
allocated, provided that its loading is clean. -/

namespace LispDos.Raw

open Foundation Memory Process

variable {H : Set ℕ} {r r' : Machine} {m m' : Memory.Machine} {c : Context} {P : Prop}
  {fs : Files} {filename : List UInt8} {args : Option (List UInt8)} {x : ExecExit × Loader}
  {x' : ExecExit × Process.Loader}

/-- The bits of the pages and the count of free memory are as they were. -/
def Restored (r r' : Machine) : Prop :=
  (∀ i < r.pmmHighestPage, bitmapTest r'.bitmap i = bitmapTest r.bitmap i) ∧
    r'.pmmFreeMemory = r.pmmFreeMemory

/-- The bits of the machine and those that are taken apart. -/
theorem Sim.test_eq (h : Sim H r' m') (hhighest : m'.pmm.highestPage = r.pmmHighestPage) {i : ℕ}
    (hi : i < r.pmmHighestPage) : bitmapTest r'.bitmap i = bitmapTest m'.pmm.bitmap i :=
  h.alike.bits i (by rw [h.alike.highest, hhighest]; exact hi)

theorem Sim.restored (h : Sim H r' m') (hhighest : m'.pmm.highestPage = r.pmmHighestPage)
    (hrestored : Memory.Restored r.apart m') : Restored r r' := by
  obtain ⟨hbits, hfree⟩ := hrestored
  refine ⟨fun i hi => ?_, h.alike.free.trans hfree⟩
  rw [h.test_eq hhighest hi, hbits, (Alike.self r).bits i hi]

theorem Sim.sameBits (h : Sim H r' m') (hhighest : m'.pmm.highestPage = r.pmmHighestPage)
    (hrestored : Restored r r') : SameBits r.apart m' := by
  intro i hi
  rw [← h.test_eq hhighest hi, hrestored.1 i hi]
  exact (Alike.self r).bits i hi

/-- A call whose machine agrees with one that gives back what it has allocated. -/
theorem Sim.givesBack (hsim : Sim H r' m') (h : GivesBack r.apart m' P) :
    (P → Restored r r') ∧ (Restored r r' → P) :=
  ⟨fun hp => hsim.restored h.highest (h.all hp), fun hr => h.bits (hsim.sameBits h.highest hr)⟩

/-- A clean loading finds all its tables. -/
theorem tablesFound_of_clean (h : LoadsClean fs filename m) : TablesFound fs filename m :=
  fun c hcontext hheader => (h c hcontext hheader).starves

/-- The two calls end in the same way, unless the lower half is left. -/
theorem ExecAlike.exit_eq (h : ExecAlike fs filename args r x x') (hargs : ArgsFit args)
    (hlow : ∀ before map v, .map before map v ∈ x'.2.log → v.toNat < 2 ^ 47) : x.1 = x'.1 := by
  cases h with
  | early exit r' m' hexit hfetch sim => rfl
  | elf r₁ c i hcontext hfetched hfilled hin x x' halike =>
      cases halike with
      | returned exit l l' D hexit logs sim dirty => rfl
      | torn exit l l' hexit hheader hstarves logs => rfl
      | faults l l' hheader hloaded logs => rfl
      | strayed x x' h h' =>
          obtain ⟨before, map, v, hin, hv⟩ := h'
          exact absurd (hlow before map v hin) (by omega)
      | entered l l' pages S D hheader hc going hok hloaded logs clean =>
          have hjumped := going.jumped hin hc hargs hok logs
          exact hjumped.exit.trans hjumped.exit'.symm

/-- The two calls end on machines that agree, but for the pages of the bitmap and pages that were
free, unless a table was missing. -/
theorem ExecAlike.returned_sim (h : ExecAlike fs filename args r x x')
    (hlow : ∀ before map v, .map before map v ∈ x'.2.log → v.toNat < 2 ^ 47)
    (htables : TablesFound fs filename r.apart) (hreturns : x'.1.returns = true) (hargs : ArgsFit args) :
    ∃ D, Sim ({t | r.Stores t} ∪ D) x.2.machine x'.2.machine ∧
      ∀ y ∈ D, bitmapTest r.apart.pmm.bitmap y = false := by
  cases h with
  | early exit r' m' hexit hfetch sim => exact ⟨∅, sim.mono Set.subset_union_left, by simp⟩
  | elf r₁ c i hcontext hfetched hfilled hin x x' halike =>
      have hfree : ∀ y, bitmapTest c.machine.pmm.bitmap y = false →
          bitmapTest r.apart.pmm.bitmap y = false := by
        intro y hy
        rw [hfetched.took.bits, Bool.or_eq_false_iff] at hy
        exact hy.2
      cases halike with
      | returned exit l l' D hexit logs sim dirty => exact ⟨D, sim, fun y hy => hfree y (dirty y hy)⟩
      | torn exit l l' hexit hheader hstarves logs =>
          rw [htables c hcontext hheader] at hstarves
          cases hstarves
      | faults l l' hheader hloaded logs => cases hreturns
      | strayed x x' h h' =>
          obtain ⟨before, map, v, hin, hv⟩ := h'
          exact absurd (hlow before map v hin) (by omega)
      | entered l l' pages S D hheader hc going hok hloaded logs clean =>
          refine ⟨D, (going.jumped hin hc hargs hok logs).sim, fun y hy => hfree y ?_⟩
          exact going.half.took.clear y (going.dirty y hy).1

/-- With the pages of the bitmap in use, a call that returns without having entered user mode
leaves the allocator as it was if its loading is clean, and only then when no table is missing. -/
theorem failed_exec_gives_back (fs : Files) (filename : List UInt8) (args : Option (List UInt8))
    (r : Machine) (hsafe : BitmapSafe r) (hzero : bitmapTest r.bitmap 0 = true)
    (hfits : RamdiskFits fs filename) (hargs : ArgsFit args) (hlow : LoadsLow fs filename r.apart)
    (hreturns : (processExec fs filename args r).1.returns = true) :
    (LoadsClean fs filename r.apart → Restored r (processExec fs filename args r).2.machine) ∧
      (TablesFound fs filename r.apart →
        Restored r (processExec fs filename args r).2.machine → LoadsClean fs filename r.apart) := by
  have hmaps := maps_of_loadsLow (zero_apart hzero) hlow args
  have halike := processExec_alike hsafe hzero hfits.storesFit args
  rw [halike.exit_eq hargs hmaps] at hreturns
  have hends : TablesFound fs filename r.apart →
      (LoadsClean fs filename r.apart → Restored r (processExec fs filename args r).2.machine) ∧
        (Restored r (processExec fs filename args r).2.machine → LoadsClean fs filename r.apart) := by
    intro htables
    obtain ⟨D, hsim, -⟩ := halike.returned_sim hmaps htables hreturns hargs
    exact hsim.givesBack (givesBack_loadsClean (processExec_call fs filename args r.apart
      (zero_apart hzero)) (zero_apart hzero) hlow hreturns)
  exact ⟨fun hclean => (hends (tablesFound_of_clean hclean)).1 hclean, fun htables => (hends htables).2⟩

/-! ## A page that is mapped twice -/

theorem sharedFile_loadable : Loadable sharedFile sampleMachine.apart where
  size := by decide +kernel
  accepted := ⟨by decide +kernel, by decide +kernel, by decide +kernel, by decide +kernel⟩
  room := by decide +kernel
  all := by decide +kernel
  starves := by decide +kernel
  place := by decide +kernel

theorem sharedFile_fits : RamdiskFits (sampleFiles sharedFile) [0x61] := by
  unfold RamdiskFits
  decide +kernel

theorem sharedFile_room :
    (sampleMachine.apart.allocPages (BitVec.ofNat 64 (filePages sharedFile.length))).1 ≠ 0#64 := by
  decide +kernel

theorem sharedFile_low : LoadsLow (sampleFiles sharedFile) [0x61] sampleMachine.apart :=
  sharedFile_loadable.loadsLow sharedFile_delivers (by decide) sharedFile_room

/-- The third segment is refused. -/
theorem sharedFile_exit (args : Option (List UInt8)) (hargs : ArgsFit args) :
    (processExec (sampleFiles sharedFile) [0x61] args sampleMachine).1 = .kernelSegment := by
  have hmaps := maps_of_loadsLow (by decide) sharedFile_low args
  rw [(processExec_alike sampleMachine_safe (by decide) sharedFile_fits.storesFit args).exit_eq hargs
    hmaps]
  obtain ⟨c, l, pages, S, _, _, _, _, _, _, hcall⟩ := sharedFile_loadable.call sharedFile_delivers
    (by decide) sharedFile_room args
  have hrefused : refused (segments (fileByte sharedFile)) = true := by decide +kernel
  rw [hcall, if_pos hrefused]

theorem failed_exec_gives_back_sharedFile :
    (LoadsClean (sampleFiles sharedFile) [0x61] sampleMachine.apart →
        Restored sampleMachine
          (processExec (sampleFiles sharedFile) [0x61] none sampleMachine).2.machine) ∧
      (TablesFound (sampleFiles sharedFile) [0x61] sampleMachine.apart →
        Restored sampleMachine
          (processExec (sampleFiles sharedFile) [0x61] none sampleMachine).2.machine →
        LoadsClean (sampleFiles sharedFile) [0x61] sampleMachine.apart) := by
  refine failed_exec_gives_back _ _ _ _ sampleMachine_safe (by decide) sharedFile_fits
    (by simp [ArgsFit]) sharedFile_low ?_
  rw [sharedFile_exit none (by simp [ArgsFit])]
  rfl

/-- The call for the file is refused, and a page stays allocated. -/
theorem sharedFile_loses_page :
    (processExec (sampleFiles sharedFile) [0x61] none sampleMachine).1 = .kernelSegment ∧
      ¬ Restored sampleMachine
        (processExec (sampleFiles sharedFile) [0x61] none sampleMachine).2.machine := by
  have hargs : ArgsFit none := by simp [ArgsFit]
  have hexit := sharedFile_exit none hargs
  refine ⟨hexit, fun hrestored => ?_⟩
  obtain ⟨c, hcontext, hholds⟩ := sharedFile_delivers.context (m := sampleMachine.apart) (by decide)
    sharedFile_room
  obtain ⟨hreached, haccepted⟩ := sharedFile_loadable.reached_of_context sharedFile_delivers
    (by decide) sharedFile_room hcontext
  have hmaps := maps_of_loadsLow (by decide) sharedFile_low none
  have halike := processExec_alike sampleMachine_safe (by decide) sharedFile_fits.storesFit none
  have hreturns : (Process.processExec (sampleFiles sharedFile) [0x61] none
      sampleMachine.apart).1.returns = true := by
    rw [← halike.exit_eq hargs hmaps, hexit]
    rfl
  -- no table was missing, but two pages have the same number
  have htables : TablesFound (sampleFiles sharedFile) [0x61] sampleMachine.apart := by
    intro c' hcontext' _
    rw [hcontext] at hcontext'
    obtain rfl := Option.some_inj.mp hcontext'
    rw [Context.starves, hholds.plan_eq sharedFile_loadable.size sharedFile_loadable.accepted,
      hholds.free_eq]
    exact sharedFile_loadable.starves
  obtain ⟨D, hsim, -⟩ := halike.returned_sim hmaps htables hreturns hargs
  have hback := givesBack_loadsClean (processExec_call (sampleFiles sharedFile) [0x61] none
    sampleMachine.apart (by decide)) (by decide) sharedFile_low hreturns
  have hnodup := ((hsim.givesBack hback).2 hrestored c hcontext haccepted).nodup
  rw [hreached] at hnodup
  exact absurd hnodup (by decide +kernel)

end LispDos.Raw
