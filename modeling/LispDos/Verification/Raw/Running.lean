import LispDos.Verification.Process.Launch
import LispDos.Verification.Raw.Entered
import LispDos.Verification.Syscall.Isolation

/-! # Programs at work beside the bitmap

While a program runs, the two machines also differ in the pages of its address space that are no
tables. Its stores, and those that the kernel makes for it, stay in these pages. So its address
space is taken down in the same way on both machines. -/

namespace LispDos.Raw

open Foundation Memory Process Syscall

variable {r r' : Machine} {c : Context} {D : Set ℕ} {m' : Memory.Machine} {pages S : List ℕ}
  {v : Word} {n t i root : ℕ} {u u' : Kernel} {fs : Files} {filename : List UInt8}
  {args : Option (List UInt8)} {x : ExecExit × Loader} {x' : ExecExit × Process.Loader}

/-! ## What a call leaves -/

/-- Page 0, the kernel's PML4 and the pages of the bitmap are in use. -/
structure Anchored (r : Machine) : Prop extends BitmapSafe r where
  pages : 0 < r.pmmHighestPage
  zero : 0 ∉ clearPages r.bitmap r.pmmHighestPage
  pml4 : r.kernelPml4 ∉ clearPages r.bitmap r.pmmHighestPage

theorem Anchored.zero_test (h : Anchored r) : bitmapTest r.bitmap 0 = true := by
  have hzero := h.zero
  rw [mem_clearPages, not_and, Bool.not_eq_false] at hzero
  exact hzero h.pages

theorem Anchored.pml4_test (h : Anchored r) :
    bitmapTest r.apart.pmm.bitmap r.kernelPml4 = true := used_apart h.pml4

/-- The pages in use are still in use. Those that hold no byte of the bitmap are as they were;
page 0 stands in for a table that is missing. -/
structure Retains (r r' : Machine) : Prop where
  highest : r'.pmmHighestPage = r.pmmHighestPage
  kernel : r'.kernelPml4 = r.kernelPml4
  safe : BitmapSafe r'
  stores : ∀ t, r'.Stores t → r.Stores t
  used : ∀ t ∉ clearPages r.bitmap r.pmmHighestPage, t ∉ clearPages r'.bitmap r'.pmmHighestPage
  frame : ∀ t ∉ clearPages r.bitmap r.pmmHighestPage, t ≠ 0 → ¬ r.Stores t → r'.mem t = r.mem t

theorem Anchored.retains (h : Anchored r) : Retains r r :=
  ⟨rfl, rfl, h.toBitmapSafe, fun _ ht => ht, fun _ ht => ht, fun _ _ _ _ => rfl⟩

theorem Retains.trans {r'' : Machine} (h : Retains r r') (h' : Retains r' r'') : Retains r r'' where
  highest := h'.highest.trans h.highest
  kernel := h'.kernel.trans h.kernel
  safe := h'.safe
  stores t ht := h.stores t (h'.stores t ht)
  used t ht := h'.used t (h.used t ht)
  frame t ht hne hst :=
    (h'.frame t (h.used t ht) hne fun hs => hst (h.stores t hs)).trans (h.frame t ht hne hst)

theorem Retains.anchored (h : Retains r r') (hr : Anchored r) : Anchored r' :=
  ⟨h.safe, h.highest ▸ hr.pages, h.used 0 hr.zero, h.kernel ▸ h.used _ hr.pml4⟩

/-- The allocator is as it was, and so is all that was in use before. -/
structure Ended (r r' : Machine) : Prop where
  restored : Restored r r'
  retains : Retains r r'

/-- A call that agrees with one that gives back what it has allocated. -/
theorem Sim.ended {H : Set ℕ} (h : Sim H r' m') (hkernel : r.kernelPml4 ∉ H)
    (hhighest : m'.pmm.highestPage = r.pmmHighestPage) (hsame : m'.kernelPml4 = r.kernelPml4)
    (hrestored : Memory.Restored r.apart m')
    (hframe : ∀ t, bitmapTest r.apart.pmm.bitmap t = true → t ≠ 0 → ¬ r.Stores t →
      t ∉ H ∧ m'.mem t = r.mem t) : Ended r r' := by
  have hback := h.restored hhighest hrestored
  have hhighest' : r'.pmmHighestPage = r.pmmHighestPage := h.alike.highest.trans hhighest
  have hfree : clearPages r'.bitmap r'.pmmHighestPage = clearPages r.bitmap r.pmmHighestPage := by
    ext i
    rw [mem_clearPages, mem_clearPages, hhighest']
    refine and_congr_right fun hi => ?_
    rw [hback.1 i hi]
  have hinuse := h.bitmapInUse
  have hkernel' : r'.kernelPml4 = r.kernelPml4 := h.kernel.trans hsame
  refine ⟨hback, hhighest', hkernel', ⟨hinuse, fun hs => hkernel ?_⟩, ?_, ?_, ?_⟩
  · rw [hkernel'] at hs
    exact h.stores _ hs
  · intro t ht
    by_contra hst
    have hne : t ≠ 0 := by
      rintro rfl
      exact h.zero ht
    exact (hframe t (used_apart (hfree ▸ hinuse.used t ht)) hne hst).1 (h.stores t ht)
  · intro t ht
    rwa [hfree]
  · intro t ht hne hst
    obtain ⟨hout, hmem⟩ := hframe t (used_apart ht) hne hst
    rw [h.mem t hout, hmem]

/-- A call that returns without having entered user mode, after a clean loading. -/
theorem exec_ended (hr : Anchored r) (hfits : StoresFit fs filename)
    (hargs : ArgsFit args) (hlow : LoadsLow fs filename r.apart)
    (hclean : LoadsClean fs filename r.apart)
    (hreturns : (processExec fs filename args r).1.returns = true) :
    Ended r (processExec fs filename args r).2.machine := by
  have hsafe := hr.toBitmapSafe
  have hzero := hr.zero_test
  have hmaps := maps_of_loadsLow (zero_apart hzero) hlow args
  have halike := processExec_alike hsafe hzero hfits args
  rw [halike.exit_eq hargs hmaps] at hreturns
  obtain ⟨D, hsim, hfree⟩ := halike.returned_sim hmaps (tablesFound_of_clean hclean) hreturns hargs
  have hback := givesBack_loadsClean (processExec_call fs filename args r.apart (zero_apart hzero))
    (zero_apart hzero) hlow hreturns
  have hapart : ∀ t, bitmapTest r.apart.pmm.bitmap t = true → ¬ r.Stores t →
      t ∉ {t | r.Stores t} ∪ D := by
    rintro t ht hst (hin | hin)
    · exact hst hin
    · exact ne_of_used ht (hfree t hin) rfl
  refine hsim.ended (hapart _ hr.pml4_test hsafe.kernel) hback.highest
    (processExec_kernelPml4 _ _ _ _) (hback.all hclean) fun t ht hne hst => ?_
  exact ⟨hapart t ht hst, processExec_frame (zero_apart hzero) hfits hargs hlow hreturns ht hne⟩

/-! ## Programs at work -/

/-- The pages to which addresses of the lower half are mapped. -/
def Leaves (mem : PhysMem) (root : ℕ) : Set ℕ :=
  {n | ∃ v : Word, v.toNat < 2 ^ 47 ∧ descend codeNext mem root (indices v) = some n}

/-- A program that has been launched on the machine `r`; on the other machine it was `m'` before the
file buffer was freed. The pages `D` were filled from outside of the file. -/
structure Launch (r : Machine) (c : Context) (D : Set ℕ) (m' : Memory.Machine)
    (pages S : List ℕ) : Prop where
  fetched : ∃ i, Fetched r.apart c.machine c.phys c.size i
  read : AfterRead r c
  ground : Ground {t | r.Stores t} c.machine c.phys c.limit c.buf
  accepted : c.Accepted
  pos : 0 < c.root
  half : Half c.machine m' c.root pages S
  all : ∀ x ∈ pages, x ∈ S
  dirty : ∀ x ∈ D, bitmapTest c.machine.pmm.bitmap x = false
  tables : ∀ q t, LowerPath 3 q → descend codeNext m'.mem c.root q = some t →
    t ∉ {t | r.Stores t} ∪ D

/-- The machine while the program runs. -/
structure Running (r : Machine) (c : Context) (D : Set ℕ) (m' : Memory.Machine) (r' : Machine) :
    Prop where
  sim : Sim ({t | r.Stores t} ∪ D ∪ Leaves m'.mem c.root) r'
    (Process.freeFile c.phys (filePages c.size) m')
  stores : ∀ t, r'.Stores t → r.Stores t

theorem Running.mem (hrun : Running r c D m' r')
    (ht : t ∉ {t | r.Stores t} ∪ D ∪ Leaves m'.mem c.root) : r'.mem t = m'.mem t := by
  rw [hrun.sim.mem t ht, freeFile_mem]

section Launch

variable (h : Launch r c D m' pages S)

include h

theorem Launch.leaf_mem (hn : n ∈ Leaves m'.mem c.root) : n ∈ pages := by
  obtain ⟨v, hv, hleaf⟩ := hn
  exact h.half.mem_pages (lowerPath_indices hv) hleaf

/-- The pages of the program hold no part of the bitmap. -/
theorem Launch.leaf_not_stores (hn : n ∈ Leaves m'.mem c.root) : ¬ r.Stores n :=
  h.ground.not_mem h.half.took (h.leaf_mem hn)

theorem Launch.table_apart {q : List ℕ} (hq : LowerPath 3 q)
    (ht : descend codeNext m'.mem c.root q = some t) :
    t ∉ {t | r.Stores t} ∪ D ∪ Leaves m'.mem c.root := by
  rintro (hin | ⟨v, hv, hleaf⟩)
  · exact h.tables q t hq ht hin
  · exact Half.leaf_not_table h.half hv hleaf hq ht

/-- The processor walks through the tables as they were made. -/
theorem Running.sameTables (hrun : Running r c D m' r') : SameTables m' r'.mem c.root :=
  fun _ _ hq ht => hrun.mem (h.table_apart hq ht)

/-! ## Stores -/

/-- A store to a page of the program. -/
theorem Running.storeLeaf (hrun : Running r c D m' r') (hn : n ∈ Leaves m'.mem c.root)
    {mem : PhysMem} (hmem : ∀ t, t ≠ n → mem t = r'.mem t) :
    Running r c D m' { r' with mem := mem } := by
  have hstores : ∀ t, r'.Stores t → mem t = r'.mem t := by
    intro t ht
    refine hmem t ?_
    rintro rfl
    exact h.leaf_not_stores hn (hrun.stores t ht)
  have hsame : ∀ t ∉ {t | r.Stores t} ∪ D ∪ Leaves m'.mem c.root,
      mem t = (Process.freeFile c.phys (filePages c.size) m').mem t := by
    intro t ht
    rw [hmem t ?_, hrun.sim.mem t ht]
    rintro rfl
    exact ht (.inr hn)
  exact ⟨hrun.sim.withMem hstores hsame, hrun.stores⟩

theorem Running.store (hrun : Running r c D m' r') (hv : v.toNat < 2 ^ 47) {p : ℕ × Word}
    (hwalk : userWalk r'.mem c.root v = some p) (x : UInt8) :
    Running r c D m' { r' with mem := storeByte r'.mem (physAddr p.1 p.2 v) x } := by
  rw [h.half.userWalk_same (hrun.sameTables h) hv, h.half.userWalk_eq hv,
    Option.map_eq_some_iff] at hwalk
  obtain ⟨n, hleaf, rfl⟩ := hwalk
  have hn : n < 2 ^ 40 := h.half.small (p := tablePath v) (lowerPath_indices hv) hleaf
  have haddr : physAddr 0 (tableEntry n) v / 4096 = n := by
    rw [physAddr_tableEntry hn]
    omega
  refine hrun.storeLeaf h ⟨v, hv, hleaf⟩ fun t ht => ?_
  exact storeByte_other r'.mem x (by rwa [haddr])

/-- A store of the kernel through a pointer of the program. -/
theorem Running.storeVirt (hrun : Running r c D m' r') (hv : v.toNat < 2 ^ 47) (x : UInt8) :
    Running r c D m' { r' with mem := Memory.storeVirt r'.mem c.root v x } := by
  have hsame : userWalk r'.mem c.root v = walk r'.mem c.root v := by
    rw [h.half.userWalk_same (hrun.sameTables h) hv, h.half.walk_same (hrun.sameTables h) hv,
      h.half.userWalk_eq hv, h.half.walk_eq hv]
  unfold Memory.storeVirt
  cases hwalk : walk r'.mem c.root v with
  | none => exact hrun
  | some p => exact hrun.store h hv (hsame.trans hwalk) x

theorem Running.storeVirts (hrun : Running r c D m' r') (stores : List (ℕ × UInt8))
    (hlow : ∀ s ∈ stores, (v + BitVec.ofNat 64 s.1).toNat < 2 ^ 47) :
    Running r c D m' { r' with mem := stores.foldl (fun mem s =>
      Memory.storeVirt mem c.root (v + BitVec.ofNat 64 s.1) s.2) r'.mem } := by
  induction stores generalizing r' with
  | nil => exact hrun
  | cons s stores ih =>
      obtain ⟨hs, hrest⟩ := List.forall_mem_cons.mp hlow
      exact ih (hrun.storeVirt h hs s.2) hrest

/-! ## The end -/

/-- The tables and pages of the program can be freed. -/
theorem Running.removable (hrun : Running r c D m' r') :
    Removable ({t | r.Stores t} ∪ D ∪ Leaves m'.mem c.root) r' m'.mem c.root := by
  constructor
  · exact fun q t hq ht => h.table_apart hq ht
  · intro q y hq hy
    have hpage := h.half.mem_pages hq hy
    obtain ⟨i, hfetched⟩ := h.fetched
    refine ⟨?_, fun hs => h.ground.not_mem h.half.took hpage (hrun.stores y hs)⟩
    have hhighest : r'.pmmHighestPage = m'.pmm.highestPage := by
      rw [hrun.sim.alike.highest, hfetched.addr, Process.freeFile_eq _ _ hfetched.bound,
        foldl_freePage_highest]
    rw [hhighest, h.half.took.highest]
    exact h.half.took.below y hpage

/-- What was in use holds no page of the program. -/
theorem Launch.used_apart (hused : bitmapTest r.apart.pmm.bitmap t = true) (ht : ¬ r.Stores t) :
    t ∉ {t | r.Stores t} ∪ D ∪ Leaves m'.mem c.root := by
  have hnow := h.read.used t hused
  rintro ((hin | hin) | hin)
  · exact ht hin
  · exact ne_of_used hnow (h.dirty t hin) rfl
  · exact ne_of_used hnow (h.half.took.clear t (h.leaf_mem hin)) rfl

theorem Running.kernel (hrun : Running r c D m' r') : r'.kernelPml4 = r.kernelPml4 := by
  rw [hrun.sim.kernel, freeFile_kernelPml4, h.half.kernel, h.read.kernel]
  rfl

/-- The address space is taken down as on the other machine, and what the program had is given
back. -/
theorem Running.ended (hrun : Running r c D m' r') (hr : Anchored r) :
    Ended r (vmmFreePagemap r' c.map) := by
  obtain ⟨i, hfetched⟩ := h.fetched
  have hremovable : Removable ({t | r.Stores t} ∪ D ∪ Leaves m'.mem c.root) r'
      (Process.freeFile c.phys (filePages c.size) m').mem (c.map.toNat / 4096) := by
    rw [Context.map_div h.accepted, freeFile_mem]
    exact hrun.removable h
  have hsim := hrun.sim.freePagemap hremovable
  have hrestored := half_restored h.pos h.accepted.root_lt hfetched.bound hfetched.took h.half h.all
  rw [← hfetched.addr] at hrestored
  refine hsim.ended (h.used_apart hr.pml4_test hr.kernel) ?_ ?_ hrestored fun t ht hne hst => ?_
  · rw [Memory.vmmFreePagemap_eq, foldl_freePage_highest, hfetched.addr,
      Process.freeFile_eq _ _ hfetched.bound, foldl_freePage_highest, h.half.took.highest,
      hfetched.took.highest]
    rfl
  · rw [vmmFreePagemap_kernelPml4, freeFile_kernelPml4, h.half.kernel, h.read.kernel]
    rfl
  · refine ⟨h.used_apart ht hst, ?_⟩
    rw [release_mem, h.half.frame_used (h.read.used t ht) hne, h.read.mem t ht]
    rfl

/-- Whenever the program is stopped, what was in use before it is as it was. -/
theorem Running.retains (hrun : Running r c D m' r') (hr : Anchored r) : Retains r r' := by
  obtain ⟨i, hfetched⟩ := h.fetched
  have hkernel := hrun.kernel h
  refine ⟨?_, hkernel, ⟨hrun.sim.bitmapInUse, fun hs => hr.kernel ?_⟩, hrun.stores, ?_, ?_⟩
  · rw [hrun.sim.alike.highest, hfetched.addr, Process.freeFile_eq _ _ hfetched.bound,
      foldl_freePage_highest, h.half.took.highest, hfetched.took.highest]
    rfl
  · rw [hkernel] at hs
    exact hrun.stores _ hs
  · intro t ht
    have hused := used_apart ht
    rw [hrun.sim.alike.mem_clearPages, mem_clearPages, hfetched.addr, freeFile_test hfetched.bound,
      h.half.took.bits, h.read.used t hused, Bool.or_true, Bool.and_true, Bool.not_eq_false',
      decide_eq_true_iff]
    rintro ⟨_, hin⟩
    exact ne_of_used hused (hfetched.took.clear t hin) rfl
  · intro t ht hne hst
    have hused := used_apart ht
    rw [hrun.mem (h.used_apart hused hst), h.half.frame_used (h.read.used t hused) hne,
      h.read.mem t hused]
    rfl

end Launch

/-! ## Entering user mode -/

/-- A call that enters user mode after a clean loading has launched a program. -/
theorem exec_launch (hr : Anchored r) (hfits : StoresFit fs filename) (hargs : ArgsFit args)
    (hlow : LoadsLow fs filename r.apart) (hclean : LoadsClean fs filename r.apart)
    (hstack : StackClean fs filename r.apart) {map entry stack : Word}
    (hexit : (processExec fs filename args r).1 = .entered map entry stack) :
    ∃ c D m' pages S, map = c.map ∧ Launch r c D m' pages S ∧
      Running r c D m' (processExec fs filename args r).2.machine := by
  have hsafe := hr.toBitmapSafe
  have hzero := hr.zero_test
  have hmaps := maps_of_loadsLow (zero_apart hzero) hlow args
  obtain ⟨c, l', D, hentry⟩ := (processExec_alike hsafe hzero hfits args).entry hargs hmaps hexit
  obtain ⟨c', m', pages, S, hlaunched⟩ := exec_launched (Prod.ext hentry.jumped.exit' rfl)
    (zero_apart hzero) hargs hlow hclean hstack
  obtain rfl : c' = c := Option.some_inj.mp (hlaunched.context.symm.trans hentry.context)
  obtain ⟨i, r₁, hfetched, hfilled, hin⟩ := hentry.read
  obtain ⟨r₂, pages', S', going⟩ := hentry.going
  obtain ⟨r₃, m₃, hrounded, hr₃, _⟩ := hentry.jumped.rounded
  have hmap : map = c'.map := by
    have heq := hexit.symm.trans hentry.jumped.exit
    simp only [ExecExit.entered.injEq] at heq
    exact heq.1
  refine ⟨c', D, m', pages, S, hmap, ?_, ?_⟩
  · exact ⟨⟨i, hfetched⟩, afterRead hentry.context hfetched hfilled hfits, hentry.ground,
      hlaunched.accepted, hlaunched.pos, hlaunched.half, hlaunched.all,
      fun y hy => going.half.took.clear y (going.dirty y hy).1,
      fun q t hq ht => hentry.table_apart hlaunched.machine hlaunched.half hq ht⟩
  · refine ⟨?_, ?_⟩
    · rw [← hlaunched.machine]
      exact hentry.jumped.sim.mono Set.subset_union_left
    · intro t ht
      obtain ⟨pages'', took, -⟩ := hrounded.took
      have hkept := (hin.freed hrounded.sim hrounded.stores took.highest).2
      rw [hr₃, hkept.stores_iff] at ht
      exact hrounded.stores t ht

/-- The address space of a program lies on a page that was free, and the kernel's page map is where
it was. -/
theorem entered_maps (hr : Anchored r) (hfits : StoresFit fs filename) (hargs : ArgsFit args)
    (hlow : LoadsLow fs filename r.apart) {map entry stack : Word}
    (hexit : (processExec fs filename args r).1 = .entered map entry stack) :
    (∃ n < 2 ^ 40, map = pageAddr n ∧ bitmapTest r.apart.pmm.bitmap n = false) ∧
      (processExec fs filename args r).2.machine.kernelPml4 = r.kernelPml4 := by
  have hsafe := hr.toBitmapSafe
  have hzero := hr.zero_test
  have hmaps := maps_of_loadsLow (zero_apart hzero) hlow args
  have halike := processExec_alike hsafe hzero hfits args
  have hexit' := (halike.exit_eq hargs hmaps).symm.trans hexit
  obtain ⟨c, l', D, hentry⟩ := halike.entry hargs hmaps hexit
  refine ⟨processExec_entered (Prod.ext hexit' rfl) (zero_apart hzero), ?_⟩
  rw [hentry.jumped.sim.kernel, processExec_kernelPml4]
  rfl

end LispDos.Raw
