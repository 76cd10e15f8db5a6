import LispDos.Verification.Process.FileReads
import LispDos.Verification.Process.Stack

/-! # The kernel's half

The segments of a program are checked by their first address only. As long as all of
their pages lie in the lower half, the kernel's tables and its half of every address
space stay as they are. -/

namespace LispDos.Process

open Memory Foundation

variable {m m₁ m' : Machine} {c : Context} {l : Loader} {root : ℕ} {fs : Files}
  {filename : List UInt8} {args : Option (List UInt8)}

/-! ## What is to be kept -/

/-- The kernel's tables lie on pages that are in use, and none of them on page 0. -/
def KernelPlaced (m : Machine) : Prop :=
  ∀ t, IsKernelTable m t → bitmapTest m.pmm.bitmap t = true ∧ t ≠ 0

/-- The kernel's PML4 and the tables below its upper half have their old contents. -/
def TablesKept (m m' : Machine) : Prop := ∀ t, IsKernelTable m t → m'.mem t = m.mem t

/-- Every address of the upper half is translated as the kernel's page map does. -/
def UpperKept (m m' : Machine) (map : Word) : Prop :=
  ∀ u : Word, 2 ^ 64 - 2 ^ 47 ≤ u.toNat →
    walk m'.mem (map.toNat / 4096) u = walk m.mem m.kernelPml4 u

/-- A call maps no page at or above the limit of the lower half. Before each mapping and at
its end the kernel's tables and the upper half are as they were. -/
structure KernelHalfKept (m : Machine) (r : ExecExit × Loader) : Prop where
  maps : ∀ before map v, .map before map v ∈ r.2.log →
    v.toNat < 2 ^ 47 ∧ TablesKept m before ∧ UpperKept m before map
  tables : TablesKept m r.2.machine
  entered : ∀ map entry stack, r.1 = .entered map entry stack → UpperKept m r.2.machine map

theorem tableIndex_upper {u : Word} (hu : 2 ^ 64 - 2 ^ 47 ≤ u.toNat) : 256 ≤ tableIndex u 39 := by
  have hlt := u.isLt
  rw [tableIndex_eq]
  omega

theorem isKernelTable_self (m : Machine) : IsKernelTable m m.kernelPml4 :=
  ⟨[], ⟨by simp, by simp⟩, by simp, rfl⟩

/-- The upper half below a root with the kernel's entries. -/
theorem walk_upper {mem : PhysMem}
    (hrow : ∀ i, 256 ≤ i → i < 512 → mem root i = m.mem m.kernelPml4 i)
    (htables : ∀ t, IsKernelTable m t → mem t = m.mem t) (u : Word) (hu : 2 ^ 64 - 2 ^ 47 ≤ u.toNat) :
    walk mem root u = walk m.mem m.kernelPml4 u := by
  have hindex := tableIndex_upper hu
  rw [walk, walk, indices]
  refine resolve_cons_congr (hrow _ hindex (tableIndex_lt u 39)) ?_
  intro s hs
  refine resolve_congr _ s ?_
  intro q j r t hq ht
  -- the tables on the way are tables of the kernel
  refine congrFun (htables t ⟨tableIndex u 39 :: q, ?_, ?_, ?_⟩) j
  · exact path_of_indices (v := u) (r := r) (j := j) (by rw [indices, List.cons_append, ← hq])
  · simpa using hindex
  · rw [descend, hs, Option.bind_some, ht]

section Kept

variable (hplaced : KernelPlaced m)
  (hbefore : ∀ t, bitmapTest m.pmm.bitmap t = true → m₁.mem t = m.mem t)
  (hused : ∀ t, bitmapTest m.pmm.bitmap t = true → bitmapTest m₁.pmm.bitmap t = true)
  (hkernel : m₁.kernelPml4 = m.kernelPml4)

include hplaced hbefore hused

theorem Guarded.tablesKept (h : Guarded m₁ m' root) : TablesKept m m' := by
  intro t ht
  obtain ⟨hbit, hne⟩ := hplaced t ht
  rw [h.frame t (hused t hbit) hne, hbefore t hbit]

include hkernel

theorem Guarded.upperKept (h : Guarded m₁ m' root) {map : Word} (hroot : map.toNat / 4096 = root) :
    UpperKept m m' map := by
  obtain ⟨hbit, _⟩ := hplaced m.kernelPml4 (isKernelTable_self m)
  rw [UpperKept, hroot]
  refine walk_upper ?_ (Guarded.tablesKept hplaced hbefore hused h)
  intro i hi hlt
  rw [h.upper (by rw [hkernel]; exact hused _ hbit) i hi hlt, hkernel, hbefore _ hbit]

end Kept

/-! ## Whole calls -/

/-- If the file of the call is accepted, every copy of its segments stays in its page. -/
def CopiesFit (fs : Files) (filename : List UInt8) (m : Machine) : Prop :=
  ∀ c, contextOf fs filename m = some c → HeaderAccepted c.buf c.size →
    ∀ s ∈ c.reached, s.faults = false

theorem Loaded.guarded {exit : Option ExecExit} (h : Loaded c exit l)
    (hlow : ∀ s ∈ c.reached, s.vaddr.toNat < 2 ^ 47) (hfit : ∀ s ∈ c.reached, s.faults = false) :
    Guarded c.machine l.machine c.root := by
  cases h with
  | high exit l before v hmap hv hreached hcopies =>
      exact (not_high hlow hreached).elim
  | faults l hlogged hfaults =>
      exact (not_faults hfit hfaults).elim
  | starved exit l pages S hexit hstarves hlogged before v hmap hzero hstarved =>
      exact hstarved.guarded
  | full l pages S hstarves hmore hlogged hfull hp => exact hp.half.guarded
  | complete l pages S hstarves hall hleft hlogged hp => exact hp.half.guarded

/-- A loading that stops does not enter user mode. -/
theorem Loaded.not_entered {exit : Option ExecExit} (h : Loaded c exit l)
    (hlow : ∀ s ∈ c.reached, s.vaddr.toNat < 2 ^ 47) (map entry stack : Word) :
    exit ≠ some (.entered map entry stack) := by
  cases h with
  | high exit l before v hmap hv hreached hcopies =>
      exact (not_high hlow hreached).elim
  | faults l hlogged hfaults => simp
  | starved exit l pages S hexit hstarves hlogged before v hmap hzero hstarved =>
      rcases hexit with rfl | rfl | rfl
      all_goals simp
  | full l pages S hstarves hmore hlogged hfull hp => simp
  | complete l pages S hstarves hall hleft hlogged hp =>
      split
      · simp
      · simp

theorem enter_entered {phys map map' entry stack : Word} {count : ℕ}
    (h : (enter phys count map args l).1 = .entered map' entry stack) :
    map' = map ∧ stack = stackPointer args := by
  simp only [enter] at h
  split at h
  · cases h
  · obtain ⟨hmap, _, hstack⟩ := ExecExit.entered.inj h
    exact ⟨hmap.symm, hstack.symm⟩

/-- The machine once the stack has been mapped, or the failure to do so. -/
theorem Loaded.enter_guarded (h : Loaded c none l) (hc : c.Accepted)
    (hlow : ∀ s ∈ c.reached, s.vaddr.toNat < 2 ^ 47) (hargs : ArgsFit args) :
    ∃ m', Guarded c.machine m' c.root ∧
      (enter c.phys (filePages c.size) c.map args l).2.machine.mem = m'.mem ∧
      ((enter c.phys (filePages c.size) c.map args l).2.log = l.log ∨
        ((enter c.phys (filePages c.size) c.map args l).2.log =
          stackLog l c.map ++ [.field 24#64 8])) := by
  generalize hexit : (none : Option ExecExit) = exit at h
  have hrelease : ∀ l : Loader, freePages l.machine = 0 →
      bitmapTest l.machine.pmm.bitmap 0 = true →
      enter c.phys (filePages c.size) c.map args l = (.noStack, { l with
        machine := vmmFreePagemap (freeFile c.phys (filePages c.size) l.machine) c.map }) := by
    intro l hfull hused
    obtain ⟨hfail, hsame⟩ := Machine.allocPage_full hused hfull
    simp only [enter, if_pos hfail, hsame]
  cases h with
  | high exit l before v hmap hv hreached hcopies =>
      exact (not_high hlow hreached).elim
  | faults l hlogged hfaults => cases hexit
  | starved exit l pages S _ hstarves hlogged before v hmap hzero hstarved =>
      rw [hrelease l hstarved.full hstarved.zero_used]
      exact ⟨l.machine, hstarved.guarded, release_mem _ _ _ _, .inl rfl⟩
  | full l pages S hstarves hmore hlogged hfull hp => cases hexit
  | complete l pages S hstarves hall hleft hlogged hp =>
      have hcase := hp.toPlaced.enter_case (Context.map_div hc) hargs c.phys (filePages c.size)
      generalize enter c.phys (filePages c.size) c.map args l = r at hcase
      cases hcase with
      | full hfull => exact ⟨l.machine, hp.half.guarded, release_mem _ _ _ _, .inl rfl⟩
      | starved m' pages S hpos hzero hshort hstarved =>
          exact ⟨m', hstarved.guarded, freeFile_mem _ _ _, .inr rfl⟩
      | stacked m' pages S n hallocs hroom hstacked =>
          exact ⟨m', hstacked.placed.half.guarded, freeFile_mem _ _ _, .inr rfl⟩

section Calls

variable {phys : Word} {size : ℕ} {r : ExecExit × Loader}

theorem TablesKept.of_mem (h : TablesKept m m₁) (hmem : m'.mem = m₁.mem) : TablesKept m m' := by
  intro t ht
  rw [hmem, h t ht]

theorem UpperKept.of_mem {map : Word} (h : UpperKept m m₁ map) (hmem : m'.mem = m₁.mem) :
    UpperKept m m' map := by
  intro u hu
  rw [hmem, h u hu]

/-- The calls that end before the file is loaded. -/
theorem kernelHalfKept_of_early {exit : ExecExit} {log : List Event}
    (hmaps : ∀ before map v, .map before map v ∉ log) (htables : TablesKept m m')
    (hexit : ∀ map entry stack, exit ≠ .entered map entry stack) :
    KernelHalfKept m (exit, ⟨m', log⟩) :=
  ⟨fun before map v hmem => (hmaps before map v hmem).elim, htables,
    fun map entry stack h => (hexit map entry stack h).elim⟩

theorem headerLog_no_maps (buf : ℕ → UInt8) (size : ℕ) (before : Machine) (map v : Word) :
    .map before map v ∉ headerLog buf size := by
  simp [headerLog]

theorem ElfCall.kernelHalfKept (hcall : ElfCall m₁ phys size args r) (hplaced : KernelPlaced m)
    (hbefore : ∀ t, bitmapTest m.pmm.bitmap t = true → m₁.mem t = m.mem t)
    (hused : ∀ t, bitmapTest m.pmm.bitmap t = true → bitmapTest m₁.pmm.bitmap t = true)
    (hkernel : m₁.kernelPml4 = m.kernelPml4) (hargs : ArgsFit args)
    (hlow : HeaderAccepted (byteAt m₁.mem phys) size →
      ∀ s ∈ (Context.of m₁ phys size).reached, s.vaddr.toNat < 2 ^ 47)
    (hfit : HeaderAccepted (byteAt m₁.mem phys) size →
      ∀ s ∈ (Context.of m₁ phys size).reached, s.faults = false) : KernelHalfKept m r := by
  have htables : TablesKept m m₁ := fun t ht => hbefore t (hplaced t ht).1
  have hkept : ∀ m' : Machine, Guarded m₁ m' (Context.of m₁ phys size).root → TablesKept m m' :=
    fun m' h => Guarded.tablesKept hplaced hbefore hused h
  have hupper : (Context.of m₁ phys size).Accepted → ∀ m' : Machine,
      Guarded m₁ m' (Context.of m₁ phys size).root →
        UpperKept m m' (Context.of m₁ phys size).map :=
    fun hc m' h => Guarded.upperKept hplaced hbefore hused hkernel h (Context.map_div hc)
  have hmaps : (Context.of m₁ phys size).Accepted → ∀ l : Loader,
      HeaderAccepted (byteAt m₁.mem phys) size →
      Logged (Context.of m₁ phys size) (Context.of m₁ phys size).reached l.log →
      ∀ before map v, .map before map v ∈ l.log →
        v.toNat < 2 ^ 47 ∧ TablesKept m before ∧ UpperKept m before map := by
    intro hc l haccepted hlogged before map v hin
    obtain ⟨rfl, ⟨s, hs, rfl⟩, hguarded⟩ := hlogged.maps before map v hin
    exact ⟨hlow haccepted s hs, hkept _ hguarded, hupper hc _ hguarded⟩
  cases hcall with
  | rejected exit hheader =>
      refine kernelHalfKept_of_early (headerLog_no_maps _ _)
        (htables.of_mem (freeFile_mem _ _ _)) ?_
      rintro map entry stack rfl
      obtain ⟨_, h | h | h⟩ := headerResult_error hheader
      all_goals cases h
  | noPagemap haccepted hfull =>
      exact kernelHalfKept_of_early (headerLog_no_maps _ _)
        (htables.of_mem (freeFile_mem _ _ _)) (by simp)
  | stopped exit l hexit haccepted hc hpos hloaded =>
      have hguarded := hloaded.guarded (hlow haccepted) (hfit haccepted)
      refine ⟨hmaps hc l haccepted (hloaded.logged (hlow haccepted)),
        (hkept _ hguarded).of_mem (release_mem _ _ _ _), ?_⟩
      rintro map entry stack rfl
      exact (hloaded.not_entered (hlow haccepted) map entry stack rfl).elim
  | faulted l haccepted hc hpos hloaded =>
      have hguarded := hloaded.guarded (hlow haccepted) (hfit haccepted)
      exact ⟨hmaps hc l haccepted (hloaded.logged (hlow haccepted)), hkept _ hguarded, by simp⟩
  | entering l haccepted hc hpos hloaded =>
      have hguarded := hloaded.guarded (hlow haccepted) (hfit haccepted)
      have hlogged := hmaps hc l haccepted (hloaded.logged (hlow haccepted))
      obtain ⟨m', hguarded', hmem', hlog⟩ := hloaded.enter_guarded hc (hlow haccepted) hargs
      rw [Context.of_phys, Context.of_size] at hmem' hlog
      refine ⟨?_, (hkept _ hguarded').of_mem hmem', ?_⟩
      · intro before map v hin
        rcases hlog with hlog | hlog
        · rw [hlog] at hin
          exact hlogged before map v hin
        · rw [hlog, stackLog] at hin
          simp only [List.mem_append, List.mem_singleton, reduceCtorEq, or_false] at hin
          rcases hin with hin | hin
          · exact hlogged before map v hin
          · obtain ⟨rfl, rfl, rfl⟩ := Event.map.inj hin
            exact ⟨by decide, (hkept _ hguarded).of_mem rfl, (hupper hc _ hguarded).of_mem rfl⟩
      · intro map entry stack hexit
        obtain ⟨rfl, _⟩ := enter_entered hexit
        exact (hupper hc _ hguarded').of_mem hmem'

/-- A page at or above the limit that is reached has been mapped. -/
theorem Loaded.low_of_maps {exit : Option ExecExit} (h : Loaded c exit l)
    (hmaps : ∀ before map v, .map before map v ∈ l.log → v.toNat < 2 ^ 47) :
    ∀ s ∈ c.reached, s.vaddr.toNat < 2 ^ 47 := by
  have hlogged : Logged c c.reached l.log → ∀ s ∈ c.reached, s.vaddr.toNat < 2 ^ 47 := by
    intro hlogged s hs
    obtain ⟨before, hmap⟩ := hlogged.mapped s hs
    exact hmaps before c.map s.vaddr hmap
  cases h with
  | high exit l before v hmap hv hreached hcopies =>
      exact absurd (hmaps before c.map v hmap) (by omega)
  | faults l hl hfaults => exact hlogged hl
  | starved exit l pages S hexit hstarves hl before v hmap hzero hstarved => exact hlogged hl
  | full l pages S hstarves hmore hl hfull hp => exact hlogged hl
  | complete l pages S hstarves hall hleft hl hp => exact hlogged hl

theorem ElfCall.low_of_maps (hcall : ElfCall m₁ phys size args r)
    (hmaps : ∀ before map v, .map before map v ∈ r.2.log → v.toNat < 2 ^ 47)
    (haccepted : HeaderAccepted (byteAt m₁.mem phys) size) :
    ∀ s ∈ (Context.of m₁ phys size).reached, s.vaddr.toNat < 2 ^ 47 := by
  cases hcall with
  | rejected exit hheader => exact ((headerResult_error hheader).1 haccepted).elim
  | noPagemap _ hfull =>
      have hfree : (Context.of m₁ phys size).free = 0 := by
        rw [Context.free, Context.of_machine, hfull]
      rw [Context.reached, reached_full hfree]
      simp
  | stopped exit l hexit _ hc hpos hloaded => exact hloaded.low_of_maps hmaps
  | faulted l _ hc hpos hloaded => exact hloaded.low_of_maps hmaps
  | entering l _ hc hpos hloaded =>
      refine hloaded.low_of_maps fun before map v hin => hmaps before map v ?_
      simp only [enter]
      split
      · exact hin
      · exact List.mem_append_left _ (List.mem_append_left _ hin)

/-- The pages that are mapped are those that are reached, and that of the stack. -/
theorem ElfCall.maps_low (hcall : ElfCall m₁ phys size args r)
    (hlow : HeaderAccepted (byteAt m₁.mem phys) size →
      ∀ s ∈ (Context.of m₁ phys size).reached, s.vaddr.toNat < 2 ^ 47) :
    ∀ before map v, .map before map v ∈ r.2.log → v.toNat < 2 ^ 47 := by
  have hlogged : HeaderAccepted (byteAt m₁.mem phys) size → ∀ l : Loader,
      Logged (Context.of m₁ phys size) (Context.of m₁ phys size).reached l.log →
      ∀ before map v, .map before map v ∈ l.log → v.toNat < 2 ^ 47 := by
    intro haccepted l hlogged before map v hin
    obtain ⟨_, ⟨s, hs, rfl⟩, _⟩ := hlogged.maps before map v hin
    exact hlow haccepted s hs
  cases hcall with
  | rejected exit hheader => exact fun before map v hin => (headerLog_no_maps _ _ _ _ _ hin).elim
  | noPagemap _ hfull => exact fun before map v hin => (headerLog_no_maps _ _ _ _ _ hin).elim
  | stopped exit l hexit haccepted hc hpos hloaded =>
      exact hlogged haccepted l (hloaded.logged (hlow haccepted))
  | faulted l haccepted hc hpos hloaded =>
      exact hlogged haccepted l (hloaded.logged (hlow haccepted))
  | entering l haccepted hc hpos hloaded =>
      intro before map v hin
      have hloop := hlogged haccepted l (hloaded.logged (hlow haccepted)) before map v
      simp only [enter] at hin
      split at hin
      · exact hloop hin
      · simp only [Loader.field, List.mem_append, List.mem_singleton, reduceCtorEq, or_false] at hin
        rcases hin with hin | hin
        · exact hloop hin
        · obtain ⟨-, -, rfl⟩ := Event.map.inj hin
          decide

end Calls

/-- The machine and the address of the buffer determine the context. -/
theorem context_of (h : contextOf fs filename m = some c) :
    c = Context.of c.machine c.phys c.size ∧ c.size = (fileSize fs filename).1 := by
  obtain ⟨x, _, rfl⟩ := Option.map_eq_some_iff.mp h
  exact ⟨rfl, rfl⟩

theorem maps_of_loadsLow (hzero : bitmapTest m.pmm.bitmap 0 = true) (hlow : LoadsLow fs filename m)
    (args : Option (List UInt8)) :
    ∀ before map v, .map before map v ∈ (processExec fs filename args m).2.log →
      v.toNat < 2 ^ 47 := by
  have hcall := processExec_call fs filename args m hzero
  generalize processExec fs filename args m = r at hcall
  cases hcall with
  | early exit hexit hfetch => simp
  | hangs m' hfetch hread hmem => simp
  | readFailed m₁ phys i hfetch hfetched hfilled => simp
  | elf m₁ phys i hfetch hfetched hfilled r hcall =>
      exact hcall.maps_low fun haccepted => hlow _ (by rw [contextOf, hfetch]; rfl) haccepted

theorem loadsLow_of_maps (hzero : bitmapTest m.pmm.bitmap 0 = true)
    (hmaps : ∀ before map v, .map before map v ∈ (processExec fs filename args m).2.log →
      v.toNat < 2 ^ 47) : LoadsLow fs filename m := by
  intro c hcontext haccepted
  have hcall := processExec_call fs filename args m hzero
  generalize processExec fs filename args m = r at hcall hmaps
  cases hcall with
  | early exit hexit hfetch => simp [contextOf, hfetch] at hcontext
  | hangs m' hfetch hread hmem => simp [contextOf, hfetch] at hcontext
  | readFailed m₁ phys i hfetch hfetched hfilled => simp [contextOf, hfetch] at hcontext
  | elf m₁ phys i hfetch hfetched hfilled r hcall =>
      rw [contextOf, hfetch, Option.map_some, Option.some_inj] at hcontext
      subst hcontext
      exact hcall.low_of_maps hmaps haccepted

theorem kernelHalfKept_of_low (hzero : bitmapTest m.pmm.bitmap 0 = true)
    (hplaced : KernelPlaced m) (hfits : StoresFit fs filename) (hargs : ArgsFit args)
    (hlow : LoadsLow fs filename m) (hcopies : CopiesFit fs filename m) :
    KernelHalfKept m (processExec fs filename args m) := by
  have hcall := processExec_call fs filename args m hzero
  generalize processExec fs filename args m = r at hcall
  cases hcall with
  | early exit hexit hfetch =>
      refine kernelHalfKept_of_early (by simp) (fun t _ => rfl) ?_
      rintro map entry stack rfl
      rcases hexit with h | h
      all_goals cases h
  | hangs m' hfetch hread hmem =>
      exact kernelHalfKept_of_early (by simp) (fun t _ => by rw [hmem]) (by simp)
  | readFailed m₁ phys i hfetch hfetched hfilled =>
      refine kernelHalfKept_of_early (by simp) (fun t ht => ?_) (by simp)
      rw [freeFile_mem, hfilled.frame hfetched hfits (hplaced t ht).1]
  | elf m₁ phys i hfetch hfetched hfilled r hcall =>
      have hcontext : contextOf fs filename m =
          some (Context.of m₁ phys (fileSize fs filename).1) := by
        rw [contextOf, hfetch, Option.map_some]
      refine hcall.kernelHalfKept hplaced (fun t ht => hfilled.frame hfetched hfits ht) ?_
        hfetched.kernel hargs (hlow _ hcontext) (hcopies _ hcontext)
      intro t ht
      rw [hfetched.took.bits, ht, Bool.or_true]

/-! ## A segment that begins below the limit -/

/-- One segment of two pages, the first of which is the last page of the lower half. -/
def borderFile : List UInt8 := elfFile 0x400000 [⟨0x7FFFFFFFF000#64, 0x2000#64, 0#64, 0#64⟩]

theorem borderFile_delivers : Delivers (sampleFiles borderFile) [0x61] borderFile :=
  sample_delivers (by decide +kernel) (by decide +kernel) (by decide +kernel)

theorem borderFile_fits : RamdiskFits (sampleFiles borderFile) [0x61] := by
  unfold RamdiskFits
  decide +kernel

end LispDos.Process
