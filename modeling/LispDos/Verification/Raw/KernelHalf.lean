import LispDos.Verification.Raw.Calls

/-! # The kernel's half beside the bitmap

With the pages of the bitmap in use, a call maps nothing into the kernel's half exactly if the
pages of its file lie below that half. -/

namespace LispDos.Raw

open Foundation Memory Process

variable {H D : Set ℕ} {r r' : Machine} {m' : Memory.Machine} {c : Context} {i root : ℕ} {fs : Files}
  {filename : List UInt8} {args : Option (List UInt8)} {x : ExecExit × Loader}
  {x' : ExecExit × Process.Loader}

/-! ## The logs of whole calls -/

/-- The file is in the buffer, and what was in use has been left alone. -/
structure AfterRead (r : Machine) (c : Context) : Prop where
  used : ∀ t, bitmapTest r.apart.pmm.bitmap t = true → bitmapTest c.machine.pmm.bitmap t = true
  mem : ∀ t, bitmapTest r.apart.pmm.bitmap t = true → c.machine.mem t = r.apart.mem t
  kernel : c.machine.kernelPml4 = r.apart.kernelPml4

/-- What the read functions leave alone. -/
theorem afterRead (hcontext : contextOf fs filename r.apart = some c)
    (hfetched : Fetched r.apart c.machine c.phys c.size i)
    (hfilled : Filled fs filename r.apart c.machine c.phys) (hfits : StoresFit fs filename) :
    AfterRead r c := by
  rw [(context_of hcontext).2] at hfetched
  refine ⟨?_, fun t ht => hfilled.frame hfetched hfits ht, hfetched.kernel⟩
  intro t ht
  rw [hfetched.took.bits, ht, Bool.or_true]

/-- Mappings of a call are made on machines that differ only in the bitmap and in new pages. -/
def CallMaps (fs : Files) (filename : List UInt8) (r : Machine) (map : Word) (before : Machine)
    (before' : Memory.Machine) : Prop :=
  ∃ c, contextOf fs filename r.apart = some c ∧ AfterRead r c ∧
    Ground {t | r.Stores t} c.machine c.phys c.limit c.buf ∧
    MapsOn {t | r.Stores t} c.machine map before before'

theorem LogAlike.imp {Before Before' : Word → Machine → Memory.Machine → Prop} {log : List Event}
    {log' : List Process.Event} (h : LogAlike Before log log')
    (himp : ∀ map r m, Before map r m → Before' map r m) : LogAlike Before' log log' := by
  have hevent : ∀ e e', EventAlike Before e e' → EventAlike Before' e e' := by
    intro e e' he
    cases he with
    | field offset n => exact .field offset n
    | copy offset n => exact .copy offset n
    | map before before' map v hbefore => exact .map before before' map v (himp _ _ _ hbefore)
  constructor
  · intro e he
    obtain ⟨e', he', halike⟩ := h.left e he
    exact ⟨e', he', hevent e e' halike⟩
  · intro e' he'
    obtain ⟨e, he, halike⟩ := h.right e' he'
    exact ⟨e, he, hevent e e' halike⟩

/-- The logs of the two calls agree, unless both have left the lower half. -/
theorem ExecAlike.logs (h : ExecAlike fs filename args r x x') (hfits : StoresFit fs filename)
    (hargs : ArgsFit args) :
    LogAlike (CallMaps fs filename r) x.2.log x'.2.log ∨ Strays x.2.log ∧ Strays' x'.2.log := by
  cases h with
  | early exit r' m' hexit hfetch sim => exact .inl .nil
  | elf r₁ c i hcontext hfetched hfilled hin x x' halike =>
      have hlogs : ∀ {log log'}, LogAlike (MapsOn {t | r.Stores t} c.machine) log log' →
          LogAlike (CallMaps fs filename r) log log' :=
        fun h => h.imp fun map before before' hmap =>
          ⟨c, hcontext, afterRead hcontext hfetched hfilled hfits, hin.ground, hmap⟩
      cases halike with
      | returned exit l l' D hexit logs sim dirty => exact .inl (hlogs logs)
      | torn exit l l' hexit hheader hstarves logs => exact .inl (hlogs logs)
      | faults l l' hheader hloaded logs => exact .inl (hlogs logs)
      | strayed x x' h h' => exact .inr ⟨h, h'⟩
      | entered l l' pages S D hheader hc going hok hloaded logs clean =>
          exact .inl (hlogs (going.jumped hin hc hargs hok logs).logs)

/-- The logs of the two calls agree when the lower half is not left. -/
theorem exec_logs (hsafe : BitmapSafe r) (hzero : bitmapTest r.bitmap 0 = true)
    (hfits : StoresFit fs filename) (hargs : ArgsFit args) (hlow : LoadsLow fs filename r.apart) :
    LogAlike (CallMaps fs filename r) (processExec fs filename args r).2.log
      (Process.processExec fs filename args r.apart).2.log := by
  refine ((processExec_alike hsafe hzero hfits args).logs hfits hargs).resolve_right ?_
  rintro ⟨-, before, map, v, hmap, hv⟩
  exact absurd (maps_of_loadsLow (zero_apart hzero) hlow args before map v hmap) (by omega)

/-- A call that maps only pages of the lower half loads only such pages. -/
theorem loadsLow_of_maps (hsafe : BitmapSafe r) (hzero : bitmapTest r.bitmap 0 = true)
    (hfits : StoresFit fs filename) (hargs : ArgsFit args)
    (hmaps : ∀ before map v, .map before map v ∈ (processExec fs filename args r).2.log →
      v.toNat < 2 ^ 47) : LoadsLow fs filename r.apart := by
  rcases (processExec_alike hsafe hzero hfits args).logs hfits hargs with hlogs | ⟨hstrays, -⟩
  · have hmodel : ∀ before map v, .map before map v ∈
        (Process.processExec fs filename args r.apart).2.log → v.toNat < 2 ^ 47 := by
      intro before map v hin
      obtain ⟨e, he, halike⟩ := hlogs.right _ hin
      cases halike with
      | map before' _ _ _ _ => exact hmaps before' map v he
    exact Process.loadsLow_of_maps (zero_apart hzero) hmodel
  · obtain ⟨before, map, v, hin, hv⟩ := hstrays
    exact absurd (hmaps before map v hin) (by omega)

/-! ## The kernel's half -/

/-- The kernel's PML4 and the tables below its upper half have their old contents. -/
def TablesKept (r r' : Machine) : Prop := ∀ t, IsKernelTable r.apart t → r'.mem t = r.mem t

/-- Every address of the upper half is translated as the kernel's page map does. -/
def UpperKept (r r' : Machine) (map : Word) : Prop :=
  ∀ u : Word, 2 ^ 64 - 2 ^ 47 ≤ u.toNat →
    walk r'.mem (map.toNat / 4096) u = walk r.mem r.kernelPml4 u

/-- A call maps no page at or above the limit of the lower half. Before each mapping and at
its end the kernel's tables and the upper half are as they were. -/
structure KernelHalfKept (r : Machine) (x : ExecExit × Loader) : Prop where
  maps : ∀ before map v, .map before map v ∈ x.2.log →
    v.toNat < 2 ^ 47 ∧ TablesKept r before ∧ UpperKept r before map
  tables : TablesKept r x.2.machine
  entered : ∀ map entry stack, x.1 = .entered map entry stack → UpperKept r x.2.machine map

/-- If the file of the call is accepted, no table is missing for its pages. -/
def TablesFound (fs : Files) (filename : List UInt8) (m : Memory.Machine) : Prop :=
  ∀ c, contextOf fs filename m = some c → HeaderAccepted c.buf c.size → c.starves = false

section Kept

variable (happart : BitmapApart r) (hplaced : KernelPlaced r.apart) (hread : AfterRead r c)

include happart hplaced hread

/-- The kernel's tables are none of the pages that differ. -/
theorem kernelTable_apart (hdirty : ∀ y ∈ D, bitmapTest c.machine.pmm.bitmap y = false) {t : ℕ}
    (ht : IsKernelTable r.apart t) : t ∉ {t | r.Stores t} ∪ D := by
  rintro (hin | hin)
  · exact happart.kernel t ht hin
  · have hclear := hdirty t hin
    rw [hread.used t (hplaced t ht).1] at hclear
    cases hclear

theorem Sim.tablesKept (h : Sim ({t | r.Stores t} ∪ D) r' m')
    (hdirty : ∀ y ∈ D, bitmapTest c.machine.pmm.bitmap y = false)
    (hkept : Process.TablesKept r.apart m') : TablesKept r r' := by
  intro t ht
  rw [h.mem t (kernelTable_apart happart hplaced hread hdirty ht)]
  exact hkept t ht

omit happart in
theorem TablesKept.upperKept {map : Word} (h : TablesKept r r')
    (hguarded : Guarded c.machine m' (map.toNat / 4096))
    (hrow : r'.mem (map.toNat / 4096) = m'.mem (map.toNat / 4096)) : UpperKept r r' map := by
  have hbit := (hplaced _ (isKernelTable_self r.apart)).1
  refine walk_upper (m := r.apart) (fun j hj hlt => ?_) h
  rw [hrow, hguarded.upper (by rw [hread.kernel]; exact hread.used _ hbit) j hj hlt, hread.kernel,
    hread.mem _ hbit]

/-- The kernel's half on a machine on which the loading goes on. -/
theorem Rounded.kernelKept (h : Rounded {t | r.Stores t} c.machine root D r' m')
    (hground : Ground {t | r.Stores t} c.machine c.phys c.limit c.buf) {map : Word}
    (hroot : map.toNat / 4096 = root) : TablesKept r r' ∧ UpperKept r r' map := by
  have htables : TablesKept r r' := by
    refine h.sim.tablesKept happart hplaced hread h.dirty ?_
    exact Guarded.tablesKept hplaced hread.mem hread.used h.guarded
  refine ⟨htables, htables.upperKept hplaced hread (hroot.symm ▸ h.guarded) ?_⟩
  rw [hroot]
  exact h.sim.mem root (h.root_not_mem hground)

end Kept

/-- Copies that stay in their pages end. -/
theorem not_copyFaults {l' : Process.Loader} (h : Loaded c (some .copyFaults) l')
    (hlow : ∀ s ∈ c.reached, s.vaddr.toNat < 2 ^ 47) (hfit : ∀ s ∈ c.reached, s.faults = false) :
    False := by
  generalize hexit : some ExecExit.copyFaults = e at h
  cases h with
  | high _ _ _ _ _ _ hreached _ => exact not_high hlow hreached
  | faults _ _ hfaults => exact not_faults hfit hfaults
  | full _ _ _ _ _ _ _ _ => cases hexit
  | starved _ _ _ _ hcases _ _ _ _ _ _ _ =>
      subst hexit
      rcases hcases with h | h | h <;> cases h
  | complete _ _ _ _ _ _ _ _ => split at hexit <;> cases hexit

/-- A call that maps no page at or above the limit, with no copy that leaves its page and no table
missing. -/
theorem kernelHalfKept_of_low (happart : BitmapApart r) (hzero : bitmapTest r.bitmap 0 = true)
    (hplaced : KernelPlaced r.apart) (hfits : StoresFit fs filename) (hargs : ArgsFit args)
    (hlow : LoadsLow fs filename r.apart) (hcopies : CopiesFit fs filename r.apart)
    (htables : TablesFound fs filename r.apart) :
    KernelHalfKept r (processExec fs filename args r) := by
  have hkept := Process.kernelHalfKept_of_low (zero_apart hzero) hplaced hfits hargs hlow hcopies
  have hlogs := exec_logs happart.safe hzero hfits hargs hlow
  have hmaps : ∀ before map v, .map before map v ∈ (processExec fs filename args r).2.log →
      v.toNat < 2 ^ 47 ∧ TablesKept r before ∧ UpperKept r before map := by
    intro before map v hin
    obtain ⟨e, he, halike⟩ := hlogs.left _ hin
    cases halike with
    | map _ before' _ _ hbefore =>
        obtain ⟨c, hcontext, hread, hground, pages, S, D, going⟩ := hbefore
        exact ⟨maps_of_loadsLow (zero_apart hzero) hlow args before' map v he,
          (Rounded.going pages S going).kernelKept happart hplaced hread hground rfl⟩
  have hstrays : ¬ Strays' (Process.processExec fs filename args r.apart).2.log := by
    rintro ⟨before, map, v, hmap, hv⟩
    exact absurd (maps_of_loadsLow (zero_apart hzero) hlow args before map v hmap) (by omega)
  have halike := processExec_alike happart.safe hzero hfits args
  generalize processExec fs filename args r = x at hmaps halike ⊢
  generalize Process.processExec fs filename args r.apart = x' at hkept hstrays halike
  cases halike with
  | early exit r' m' hexit hfetch sim =>
      refine ⟨hmaps, fun t ht => ?_, fun map entry stack h => (hexit map entry stack h).elim⟩
      exact (sim.mem t (happart.kernel t ht)).trans (hkept.tables t ht)
  | elf r₁ c i hcontext hfetched hfilled hin x x' halike =>
      have hread := afterRead hcontext hfetched hfilled hfits
      cases halike with
      | returned exit l l' D hexit logs sim dirty =>
          exact ⟨hmaps, sim.tablesKept happart hplaced hread dirty hkept.tables,
            fun map entry stack h => (hexit map entry stack h).elim⟩
      | torn exit l l' hexit hheader hstarves logs =>
          rw [htables c hcontext hheader] at hstarves
          cases hstarves
      | faults l l' hheader hloaded logs =>
          exact (not_copyFaults hloaded (hlow c hcontext hheader) (hcopies c hcontext hheader)).elim
      | strayed x x' h h' => exact (hstrays h').elim
      | entered l l' pages S D hheader hc going hok hloaded logs clean =>
          obtain ⟨hexit, _, hsim, _, r₂, m₂, hrounded, _, hmachine⟩ :=
            going.jumped hin hc hargs hok logs
          have hfinal := hsim.tablesKept happart hplaced hread hrounded.dirty hkept.tables
          refine ⟨hmaps, hfinal, ?_⟩
          intro map entry stack h
          obtain ⟨rfl, _⟩ := ExecExit.entered.inj (hexit.symm.trans h)
          have hroot := Context.map_div hc
          have hguarded : Guarded c.machine m₂ (c.map.toNat / 4096) := by
            rw [hroot]
            exact hrounded.guarded
          refine hfinal.upperKept hplaced hread hguarded ?_
          rw [hroot, hsim.mem _ (hrounded.root_not_mem hin.ground), hmachine, freeFile_mem]

/-- While the pages of the bitmap are in use, a call keeps the kernel's half only if every page
that it maps lies in the lower half, and it does if moreover no copy leaves its page and no table
is missing. -/
theorem exec_spares_kernel_half (fs : Files) (filename : List UInt8) (args : Option (List UInt8))
    (r : Machine) (happart : BitmapApart r) (hzero : bitmapTest r.bitmap 0 = true)
    (hplaced : KernelPlaced r.apart) (hfits : RamdiskFits fs filename) (hargs : ArgsFit args) :
    (KernelHalfKept r (processExec fs filename args r) → LoadsLow fs filename r.apart) ∧
      (LoadsLow fs filename r.apart ∧ CopiesFit fs filename r.apart ∧
          TablesFound fs filename r.apart →
        KernelHalfKept r (processExec fs filename args r)) :=
  ⟨fun h => loadsLow_of_maps happart.safe hzero hfits.storesFit hargs
      fun before map v hin => (h.maps before map v hin).1,
    fun ⟨hlow, hcopies, htables⟩ =>
      kernelHalfKept_of_low happart hzero hplaced hfits.storesFit hargs hlow hcopies htables⟩

/-! ## A segment that begins below the limit -/

/-- Seventeen pages. Page 0, page 15 with the kernel's PML4 and page 16 with the bitmap are in
use. -/
def sampleMachine : Machine where
  mem := writeWord (fun _ _ => 0#64) 16 0 0x18001#64
  pmmBitmap := 16 * 4096
  pmmFreeMemory := 57344#64
  pmmHighestPage := 17
  pmmLastAllocatedIndex := 0
  kernelPml4 := 15
  cursor := by decide
  physical := by decide

theorem sampleMachine_stores {t : ℕ} (ht : sampleMachine.Stores t) : t = 16 := by
  obtain ⟨i, hi, rfl⟩ := ht
  have hbytes : sampleMachine.bitmapBytes = 3 := rfl
  have hbase : sampleMachine.pmmBitmap = 16 * 4096 := rfl
  rw [hbytes] at hi
  rw [hbase]
  omega

theorem isKernelTable_sampleMachine {t : ℕ} (ht : IsKernelTable sampleMachine.apart t) : t = 15 := by
  obtain ⟨q, -, -, hq⟩ := ht
  cases q with
  | nil => exact (Option.some_inj.mp hq).symm
  | cons i q =>
      have hentry : sampleMachine.apart.mem sampleMachine.apart.kernelPml4 i = 0#64 := rfl
      rw [descend, hentry, hwTable_of_not_present not_present_zero] at hq
      cases hq

theorem sampleMachine_bitmapApart : BitmapApart sampleMachine where
  used := by
    intro t ht
    obtain rfl := sampleMachine_stores ht
    rw [mem_clearPages]
    decide
  above := by decide
  kernel := by
    intro t ht hs
    obtain rfl := isKernelTable_sampleMachine ht
    exact absurd (sampleMachine_stores hs) (by decide)

theorem sampleMachine_safe : BitmapSafe sampleMachine := sampleMachine_bitmapApart.safe

theorem sampleMachine_kernelPlaced : KernelPlaced sampleMachine.apart := by
  intro t ht
  obtain rfl := isKernelTable_sampleMachine ht
  decide

theorem exec_spares_kernel_half_borderFile :
    (KernelHalfKept sampleMachine
          (processExec (sampleFiles borderFile) [0x61] none sampleMachine) →
        LoadsLow (sampleFiles borderFile) [0x61] sampleMachine.apart) ∧
      (LoadsLow (sampleFiles borderFile) [0x61] sampleMachine.apart ∧
          CopiesFit (sampleFiles borderFile) [0x61] sampleMachine.apart ∧
          TablesFound (sampleFiles borderFile) [0x61] sampleMachine.apart →
        KernelHalfKept sampleMachine
          (processExec (sampleFiles borderFile) [0x61] none sampleMachine)) :=
  exec_spares_kernel_half _ _ _ _ sampleMachine_bitmapApart (by decide) sampleMachine_kernelPlaced
    borderFile_fits (by simp [ArgsFit])

/-- The second page of the segment is mapped, and it belongs to the kernel's half. -/
theorem borderFile_enters_kernel_half :
    ∃ before map v, .map before map v ∈
      (processExec (sampleFiles borderFile) [0x61] none sampleMachine).2.log ∧
        ¬ v.toNat < 2 ^ 47 := by
  by_contra hnone
  simp only [not_exists, not_and, not_not] at hnone
  have hlow : LoadsLow (sampleFiles borderFile) [0x61] sampleMachine.apart :=
    loadsLow_of_maps sampleMachine_safe (by decide) borderFile_fits.storesFit (by simp [ArgsFit]) hnone
  obtain ⟨c, hcontext, hholds⟩ := borderFile_delivers.context (m := sampleMachine.apart) (by decide)
    (by decide +kernel)
  have hsize : 58 ≤ borderFile.length := by decide +kernel
  have haccepted : HeaderAccepted (fileByte borderFile) borderFile.length :=
    ⟨by decide +kernel, by decide +kernel, by decide +kernel, by decide +kernel⟩
  have hreached := hlow c hcontext ((hholds.accepted_iff hsize).mpr haccepted)
  rw [hholds.reached_eq hsize haccepted] at hreached
  exact absurd hreached (by decide +kernel)

end LispDos.Raw
