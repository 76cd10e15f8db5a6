import LispDos.Verification.Raw.PageMaps

/-! # Mapping a page beside the bitmap

While the pages of the bitmap are in use and hold no table, `vmm_map_page` changes the
translation of the one page it is called for. -/

namespace LispDos.Raw

open Foundation Memory

variable {r r' : Machine} {t i root : ℕ} {p : List ℕ} {map v : Word}

/-! ## Where the bitmap lies -/

/-- The bitmap is where it was. -/
structure SameBitmap (r r' : Machine) : Prop where
  base : r'.pmmBitmap = r.pmmBitmap
  highest : r'.pmmHighestPage = r.pmmHighestPage

theorem SameBitmap.stores_iff (h : SameBitmap r r') : r'.Stores t ↔ r.Stores t := by
  rw [Machine.Stores, Machine.Stores, Machine.bitmapBytes, Machine.bitmapBytes, h.base, h.highest]

theorem SameBitmap.trans {r'' : Machine} (h : SameBitmap r r') (h' : SameBitmap r' r'') :
    SameBitmap r r'' := ⟨h'.base.trans h.base, h'.highest.trans h.highest⟩

theorem Kept.sameBitmap (h : Kept r r') : SameBitmap r r' := ⟨h.base, h.highest⟩

theorem openTable_sameBitmap (r : Machine) (t i : ℕ) : SameBitmap r (openTable r t i).2 := by
  simp only [openTable]
  split
  · exact ⟨rfl, rfl⟩
  · exact ⟨(pmmAllocPage_kept r).base, (pmmAllocPage_kept r).highest⟩

theorem openPath_sameBitmap (r : Machine) (t : ℕ) (is : List ℕ) :
    SameBitmap r (openPath r t is).2 := by
  induction is generalizing r t with
  | nil => exact ⟨rfl, rfl⟩
  | cons i is ih => exact (openTable_sameBitmap r t i).trans (ih _ _)

theorem vmmMapPage_sameBitmap (r : Machine) (map v paddr flags : Word) :
    SameBitmap r (vmmMapPage r map v paddr flags) := by
  have hpath := openPath_sameBitmap r (map.toNat / 4096) (tablePath v)
  rw [vmmMapPage_eq]
  exact ⟨hpath.base, hpath.highest⟩

theorem vmmNewPagemap_sameBitmap (r : Machine) : SameBitmap r (vmmNewPagemap r).2 := by
  have hkept := pmmAllocPage_kept r
  simp only [vmmNewPagemap]
  split
  · exact ⟨hkept.base, hkept.highest⟩
  · exact ⟨hkept.base, hkept.highest⟩

/-! ## The invariant -/

/-- The pages of the bitmap are in use, and none of them holds a table of the address space,
whose lower half is a tree. -/
structure Tabled (r : Machine) (root : ℕ) : Prop where
  inUse : BitmapInUse r
  space : AddressSpace r.mem root
  tables : ∀ t, IsTable r.mem root t → ¬ r.Stores t

/-- If the entry is missing, the allocation succeeds with a page that is no table of the
address space yet. -/
def FreshFor (r : Machine) (root t i : ℕ) : Prop :=
  present (r.mem t i) = false →
    (pmmAllocPage r).1 ≠ 0#64 ∧ ¬ IsTable r.mem root ((pmmAllocPage r).1.toNat / 4096)

/-- The allocations of `vmm_map_page` all succeed with pages that are fresh. -/
def TablesFresh (r : Machine) (map v : Word) : Prop :=
  let pdpt := openTable r (map.toNat / 4096) (tableIndex v 39)
  let pd := openTable pdpt.2 pdpt.1 (tableIndex v 30)
  FreshFor r (map.toNat / 4096) (map.toNat / 4096) (tableIndex v 39) ∧
    FreshFor pdpt.2 (map.toNat / 4096) pdpt.1 (tableIndex v 30) ∧
    FreshFor pd.2 (map.toNat / 4096) pd.1 (tableIndex v 21)

/-- The state after one level of `vmm_map_page`. -/
structure Opened (r r' : Machine) (root : ℕ) (p : List ℕ) (i n : ℕ) : Prop where
  tabled : Tabled r' root
  reach : descend hwTable r'.mem root (p ++ [i]) = some n
  walks : ∀ u, walk r'.mem root u = walk r.mem root u
  free : ∀ x, IsTable r'.mem root x → x ∈ clearPages r'.bitmap r'.pmmHighestPage →
    IsTable r.mem root x ∧ x ∈ clearPages r.bitmap r.pmmHighestPage

section Congruence

variable {mem mem' : PhysMem} (hsame : ∀ t, IsTable mem root t → mem' t = mem t)

include hsame

theorem walk_congr (u : Word) : walk mem' root u = walk mem root u := by
  apply resolve_congr
  intro q j rest s hq hs
  rw [hsame s ⟨q, path_of_indices hq, hs⟩]

theorem descend_tables_congr {q : List ℕ} (hq : Memory.Path 3 q) :
    descend hwTable mem' root q = descend hwTable mem root q :=
  descend_congr Memory.Path.init
    (fun q j s hq hs => by rw [hsame s ⟨q, Memory.Path.init q j hq, hs⟩]) hq

theorem isTable_congr : IsTable mem' root t ↔ IsTable mem root t :=
  exists_congr fun _ => and_congr_right fun hq => by rw [descend_tables_congr hsame hq]

end Congruence

/-- The tables after one level of `vmm_map_page` are those before it and a page that was clear. -/
theorem Tabled.tables_openTable (h : Tabled r root) (hpath : LowerPath 3 (p ++ [i]))
    (hreach : descend hwTable r.mem root p = some t)
    (hfresh : Memory.FreshFor r.apart root t i) {s : ℕ}
    (hs : IsTable (Memory.openTable r.apart t i).2.mem root s) : ¬ r.Stores s := by
  by_cases hpres : present (r.apart.mem t i) = true
  · rw [openTable_of_present hpres] at hs
    exact h.tables s hs
  · have hmissing : present (r.apart.mem t i) = false := by simpa using hpres
    obtain ⟨n, hn, halloc, takes⟩ := r.apart.allocPage_some (hfresh hmissing).1
    obtain ⟨hfst, -, -⟩ := openTable_of_missing hmissing hn halloc
    have hopened := h.space.openTable (m := r.apart) hpath hreach hfresh
    rcases hopened.tables s hs with hs | rfl
    · exact h.tables s hs
    · rw [hfst]
      exact h.inUse.sim.clear (takes.clear (Finset.mem_singleton_self n))

/-- A table that is free was one before, and free. -/
theorem openTable_free {m : Memory.Machine} (h : Memory.Opened m.mem (Memory.openTable m t i).2.mem
      root p i (Memory.openTable m t i).1) (hfresh : Memory.FreshFor m root t i) {x : ℕ}
    (hx : IsTable (Memory.openTable m t i).2.mem root x)
    (hclear : x ∈ clearPages (Memory.openTable m t i).2.pmm.bitmap
      (Memory.openTable m t i).2.pmm.highestPage) :
    IsTable m.mem root x ∧ x ∈ clearPages m.pmm.bitmap m.pmm.highestPage := by
  by_cases hpres : present (m.mem t i) = true
  · rw [openTable_of_present hpres] at hx hclear
    exact ⟨hx, hclear⟩
  · have hmissing : present (m.mem t i) = false := by simpa using hpres
    obtain ⟨n, hn, halloc, takes⟩ := m.allocPage_some (hfresh hmissing).1
    obtain ⟨hfst, hpmm, -⟩ := openTable_of_missing hmissing hn halloc
    obtain ⟨hlt, hbit⟩ := mem_clearPages.mp hclear
    rw [hpmm, takes.bits, Bool.or_eq_false_iff, decide_eq_false_iff_not, Finset.mem_singleton] at hbit
    rw [hpmm, takes.highest] at hlt
    refine ⟨(h.tables x hx).resolve_right ?_, mem_clearPages.mpr ⟨hlt, hbit.2⟩⟩
    rw [hfst]
    exact hbit.1

theorem Tabled.openTable (h : Tabled r root) (hpath : LowerPath 3 (p ++ [i]))
    (hreach : descend hwTable r.mem root p = some t) (hfresh : FreshFor r root t i) :
    Opened r (openTable r t i).2 root p i (openTable r t i).1 := by
  have hsim := h.inUse.sim
  have ht : t ∉ {t | r.Stores t} := h.tables t ⟨p, (LowerPath.init p i hpath).1, hreach⟩
  have hfresh' : Memory.FreshFor r.apart root t i := by
    intro hmissing
    have hboth := hfresh hmissing
    rwa [hsim.allocPage.1] at hboth
  have hopened := h.space.openTable (m := r.apart) hpath hreach hfresh'
  have htables := fun s hs => h.tables_openTable hpath hreach hfresh' (s := s) hs
  obtain ⟨hfst, hafter⟩ := hsim.openTable ht i
  have hsame := fun s hs => hafter.mem s (htables s hs)
  refine ⟨⟨hafter.bitmapInUse, hopened.space.congr hsame, ?_⟩, ?_, ?_, ?_⟩
  · intro s hs
    rw [(openTable_sameBitmap r t i).stores_iff]
    exact htables s ((isTable_congr hsame).mp hs)
  · rw [hfst, descend_tables_congr hsame hpath.1, hopened.reach]
  · intro u
    rw [walk_congr hsame, hopened.walks]
    rfl
  · intro x hx hclear
    rw [isTable_congr hsame] at hx
    rw [hafter.alike.mem_clearPages] at hclear
    rw [(Alike.self r).mem_clearPages]
    exact openTable_free hopened hfresh' hx hclear

/-- The state after a call of `vmm_map_page` whose last store is `w`. -/
structure MappedPage (r r' : Machine) (root : ℕ) (v w : Word) : Prop where
  tabled : Tabled r' root
  walks : ∀ u, walk r'.mem root u =
    if indices u = indices v then hwLeaf 0 w else walk r.mem root u
  free : ∀ x, IsTable r'.mem root x → x ∈ clearPages r'.bitmap r'.pmmHighestPage →
    IsTable r.mem root x ∧ x ∈ clearPages r.bitmap r.pmmHighestPage

/-- One call keeps the invariant and sets the walks of one page. -/
theorem Tabled.mapPage (h : Tabled r (map.toNat / 4096)) (hv : v.toNat < 2 ^ 47)
    (hfresh : TablesFresh r map v) (paddr flags : Word) :
    MappedPage r (vmmMapPage r map v paddr flags) (map.toNat / 4096) v
      (leafEntry paddr flags) := by
  obtain ⟨hp₁, hp₂, hp₃⟩ := lowerPath_prefix le_rfl hv
  obtain ⟨hf₁, hf₂, hf₃⟩ := hfresh
  have ho₁ := h.openTable (p := []) hp₁ rfl hf₁
  have ho₂ := ho₁.tabled.openTable (p := [tableIndex v 39]) hp₂ ho₁.reach hf₂
  have ho₃ := ho₂.tabled.openTable (p := [tableIndex v 39, tableIndex v 30]) hp₃ ho₂.reach hf₃
  have ht₃ := ho₃.tabled.tables _ ⟨_, hp₃.1, ho₃.reach⟩
  obtain ⟨hspace, hwalk⟩ := ho₃.tabled.space.storeLeaf (i := tableIndex v 12) hp₃ rfl ho₃.reach
    (leafEntry paddr flags)
  have hsim := ho₃.tabled.inUse.sim.writeWord ht₃ (tableIndex v 12) (leafEntry paddr flags)
  have hold : ∀ s, IsTable (vmmMapPage r map v paddr flags).mem (map.toNat / 4096) s →
      IsTable (Raw.openPath r (map.toNat / 4096) (tablePath v)).2.mem (map.toNat / 4096) s := by
    rintro s ⟨q, hq, hs⟩
    have hs' := (ho₃.tabled.space.storeLeaf_descend hp₃ rfl ho₃.reach _ hq).symm.trans hs
    exact ⟨q, hq, hs'⟩
  refine ⟨⟨hsim.bitmapInUse, hspace, fun s hs => ho₃.tabled.tables s (hold s hs)⟩, ?_, ?_⟩
  · intro u
    rw [← ho₁.walks u, ← ho₂.walks u, ← ho₃.walks u]
    exact hwalk u
  · intro x hx hclear
    have hclear₃ := hsim.alike.mem_clearPages.mp hclear
    obtain ⟨hx₂, hclear₂⟩ := ho₃.free x (hold x hx) ((Alike.self _).mem_clearPages.mpr hclear₃)
    obtain ⟨hx₁, hclear₁⟩ := ho₂.free x hx₂ hclear₂
    exact ho₁.free x hx₁ hclear₁

/-! ## Tables in use -/

/-- No table of the address space is free. -/
def TablesUsed (r : Machine) (root : ℕ) : Prop :=
  ∀ t, IsTable r.mem root t → t ∉ clearPages r.bitmap r.pmmHighestPage

/-- The page that an allocation returns was free. -/
theorem pmmAllocPage_clear (hok : (pmmAllocPage r).1 ≠ 0#64) :
    ∃ n < 2 ^ 40, (pmmAllocPage r).1 = pageAddr n ∧ n ∈ clearPages r.bitmap r.pmmHighestPage := by
  have hfst : (pmmAllocPage r).1 = r.apart.allocPage.1 := (Alike.self r).allocPage.1
  rw [hfst] at hok ⊢
  obtain ⟨n, hn, haddr, takes⟩ := r.apart.allocPage_some hok
  exact ⟨n, hn, haddr,
    (Alike.self r).mem_clearPages.mpr (takes.clear (Finset.mem_singleton_self n))⟩

theorem TablesUsed.freshFor (h : TablesUsed r root) (hallocs : ∀ a ∈ openAllocs r t i, a ≠ 0#64) :
    FreshFor r root t i := by
  intro hmissing
  have hok : (pmmAllocPage r).1 ≠ 0#64 := hallocs _ (by simp [openAllocs, hmissing])
  obtain ⟨n, hn, haddr, hclear⟩ := pmmAllocPage_clear hok
  refine ⟨hok, ?_⟩
  rw [haddr, pageAddr_div (hn.trans (by decide))]
  exact fun ht => h n ht hclear

/-- Allocations that succeed find pages that are fresh when no table is free. -/
theorem Tabled.tablesFresh (h : Tabled r (map.toNat / 4096)) (hused : TablesUsed r (map.toNat / 4096))
    (hv : v.toNat < 2 ^ 47) (hallocs : ∀ a ∈ mapAllocs r map v, a ≠ 0#64) : TablesFresh r map v := by
  obtain ⟨hp₁, hp₂, hp₃⟩ := lowerPath_prefix le_rfl hv
  simp only [mapAllocs, List.mem_append, or_imp, forall_and] at hallocs
  obtain ⟨⟨ha₁, ha₂⟩, ha₃⟩ := hallocs
  have hf₁ := hused.freshFor ha₁
  have ho₁ := h.openTable (p := []) hp₁ rfl hf₁
  have hused₁ : TablesUsed _ _ := fun t ht hclear =>
    hused t (ho₁.free t ht hclear).1 (ho₁.free t ht hclear).2
  have hf₂ := hused₁.freshFor ha₂
  have ho₂ := ho₁.tabled.openTable (p := [tableIndex v 39]) hp₂ ho₁.reach hf₂
  have hused₂ : TablesUsed _ _ := fun t ht hclear =>
    hused₁ t (ho₂.free t ht hclear).1 (ho₂.free t ht hclear).2
  exact ⟨hf₁, hf₂, hused₂.freshFor ha₃⟩

/-! ## Whole runs -/

/-- The address spaces that a run can build: a new one on a page the kernel's half does not
use, calls of `vmm_map_page` in the lower half with fresh tables, and anything that leaves
its tables alone. The machines on which the rest of the kernel leaves off are `Good`. -/
inductive Built (Good : Machine → Prop) : Machine → Word → Prop where
  | new (m : Machine) (good : Good m) (hok : (vmmNewPagemap m).1 ≠ 0#64)
      (hfresh : ¬ IsKernelTable m.apart ((vmmNewPagemap m).1.toNat / 4096)) :
      Built Good (vmmNewPagemap m).2 (vmmNewPagemap m).1
  | map (m : Machine) (map v paddr flags : Word) (built : Built Good m map) (hv : v.toNat < 2 ^ 47)
      (hfresh : TablesFresh m map v) : Built Good (vmmMapPage m map v paddr flags) map
  | other (m m' : Machine) (map : Word) (built : Built Good m map) (good : Good m')
      (same : SameBitmap m m')
      (hsame : ∀ t, IsTable m.mem (map.toNat / 4096) t → m'.mem t = m.mem t) : Built Good m' map

/-- The pages of the bitmap are in use, and they hold none of the kernel's tables. -/
structure BitmapApart (m : Machine) : Prop extends BitmapInUse m where
  kernel : ∀ t, IsKernelTable m.apart t → ¬ m.Stores t

theorem BitmapApart.tabled (h : BitmapApart r) (hok : (vmmNewPagemap r).1 ≠ 0#64)
    (hfresh : ¬ IsKernelTable r.apart ((vmmNewPagemap r).1.toNat / 4096)) :
    Tabled (vmmNewPagemap r).2 ((vmmNewPagemap r).1.toNat / 4096) := by
  have hself : IsKernelTable r.apart r.kernelPml4 := ⟨[], ⟨by simp, by simp⟩, by simp, rfl⟩
  obtain ⟨hfst, hsim⟩ := h.toBitmapInUse.sim.newPagemap (h.kernel _ hself)
  rw [hfst] at hok hfresh ⊢
  obtain ⟨n, hn, haddr, hmem, -, takes⟩ := vmmNewPagemap_mem hok
  rw [haddr, pageAddr_div (hn.trans (by decide))] at hfresh ⊢
  have htables : ∀ s, IsTable (Memory.vmmNewPagemap r.apart).2.mem n s → ¬ r.Stores s := by
    intro s hs
    rw [hmem] at hs
    rcases isTable_new hfresh hs with rfl | hs
    · exact h.toBitmapInUse.sim.clear (takes.clear (Finset.mem_singleton_self s))
    · exact h.kernel s hs
  have hsame := fun s hs => hsim.mem s (htables s hs)
  refine ⟨hsim.bitmapInUse, (hmem ▸ addressSpace_new hfresh).congr hsame, ?_⟩
  intro s hs
  rw [(vmmNewPagemap_sameBitmap r).stores_iff]
  exact htables s ((isTable_congr hsame).mp hs)

/-- The invariant holds in every state of a run. -/
theorem Built.tabled (h : Built BitmapApart r map) : Tabled r (map.toNat / 4096) := by
  induction h with
  | new m good hok hfresh => exact good.tabled hok hfresh
  | map m map v paddr flags built hv hfresh ih => exact (ih.mapPage hv hfresh paddr flags).tabled
  | other m m' map built good same hsame ih =>
      refine ⟨good.toBitmapInUse, ih.space.congr hsame, ?_⟩
      intro s hs
      rw [same.stores_iff]
      exact ih.tables s ((isTable_congr hsame).mp hs)

/-- In a run on whose machines the pages of the bitmap are in use, mapping a page makes every
address of the page resolve to the frame and the flags given, and leaves every address of
every other page as it was. -/
theorem mapping_correct_and_local (h : Built BitmapApart r map) (hv : v.toNat < 2 ^ 47)
    (hfresh : TablesFresh r map v) (paddr flags : Word) :
    (∀ u, SamePage u v → walk (vmmMapPage r map v paddr flags).mem (map.toNat / 4096) u =
      some (0, paddr &&& ~~~0xFFF#64 ||| flags ||| 1#64)) ∧
    (frame flags = 0 →
      frame (paddr &&& ~~~0xFFF#64 ||| flags ||| 1#64) = frame paddr) ∧
    ∀ u, Canonical u → ¬ SamePage u v →
      walk (vmmMapPage r map v paddr flags).mem (map.toNat / 4096) u =
        walk r.mem (map.toNat / 4096) u := by
  have hwalk := (h.tabled.mapPage hv hfresh paddr flags).walks
  refine ⟨?_, frame_leafEntry paddr, ?_⟩
  · intro u hu
    rw [hwalk u, if_pos (indices_of_samePage hu), hwLeaf, present_leafEntry]
    rfl
  · intro u hcanon hu
    rw [hwalk u, if_neg (fun hi => hu (samePage_of_indices hcanon hv hi))]

/-! ## Eight pages -/

/-- A missing table that can be allocated. -/
theorem openTable_of_missing {n : ℕ} (hmissing : present (r.mem t i) = false) (hn : n < 2 ^ 40)
    (halloc : pmmAllocPage r = (pageAddr n, r')) :
    openTable r t i =
      (n, { r' with mem := writeWord (clearTable r'.mem n) t i (tableEntry n) }) := by
  have hlt : n < 2 ^ 52 := hn.trans (by decide)
  simp only [openTable, hmissing, Bool.false_eq_true, if_false, halloc, pageAddr_div hlt]
  refine Prod.ext ?_ rfl
  simp only [writeWord_apply, and_self, if_true]
  exact tableOf_tableEntry hlt

theorem openTable_of_present (hpres : present (r.mem t i) = true) :
    openTable r t i = (tableOf (r.mem t i), r) := by
  simp only [openTable, hpres, if_true]

/-- Tables whose entries lead to tables of the list only. -/
theorem isTable_closed {mem : PhysMem} {L : List ℕ}
    (hclosed : ∀ x ∈ L, ∀ i s, hwTable (mem x i) = some s → s ∈ L) (hroot : root ∈ L)
    (ht : IsTable mem root t) : t ∈ L := by
  obtain ⟨q, -, hq⟩ := ht
  induction q generalizing root with
  | nil => exact Option.some_inj.mp hq ▸ hroot
  | cons i q ih =>
      rw [descend] at hq
      obtain ⟨s, hs, hrest⟩ := Option.bind_eq_some_iff.mp hq
      exact ih (hclosed root hroot i s hs) hrest

theorem pageAddr_ne_zero {n : ℕ} (hlt : n < 2 ^ 52) (hpos : 0 < n) : pageAddr n ≠ 0#64 := by
  intro hz
  have hval := congrArg BitVec.toNat hz
  rw [pageAddr_toNat hlt, show (0#64 : Word).toNat = 0 from rfl] at hval
  omega

/-- Eight pages with the bitmap in the first byte of page `b`. Pages 0 and 4 are in use, and
page 4 is the kernel's PML4. -/
def eightPages (b : ℕ) (mem : PhysMem) (last : ℕ) (freeMemory : Word) (hlast : last ≤ 8) :
    Machine where
  mem := mem
  pmmBitmap := b * 4096
  pmmFreeMemory := freeMemory
  pmmHighestPage := 8
  pmmLastAllocatedIndex := last
  kernelPml4 := 4
  cursor := hlast
  physical := by decide

/-- Memory that is clear but for the words of a list, the last ones first. -/
def wordsAt : List (ℕ × ℕ × Word) → PhysMem
  | [] => fun _ _ => 0#64
  | e :: ws => writeWord (wordsAt ws) e.1 e.2.1 e.2.2

theorem wordsAt_cases (ws : List (ℕ × ℕ × Word)) (x i : ℕ) :
    wordsAt ws x i = 0#64 ∨ ∃ e ∈ ws, e.1 = x ∧ wordsAt ws x i = e.2.2 := by
  induction ws with
  | nil => exact .inl rfl
  | cons e ws ih =>
      rw [wordsAt, writeWord_apply]
      split
      · rename_i h
        exact .inr ⟨e, List.mem_cons_self, h.1.symm, rfl⟩
      · refine ih.imp_right ?_
        rintro ⟨e', he', hx⟩
        exact ⟨e', List.mem_cons_of_mem e he', hx⟩

theorem clearTable_wordsAt (ws : List (ℕ × ℕ × Word)) (n : ℕ) :
    clearTable (wordsAt ws) n = wordsAt (ws.filter fun e => e.1 ≠ n) := by
  funext x i
  rw [clearTable_apply]
  induction ws with
  | nil => exact ite_self _
  | cons e ws ih =>
      by_cases he : e.1 = n
      · rw [List.filter_cons_of_neg (by simpa using he), ← ih, wordsAt, writeWord_apply]
        by_cases hx : x = n
        · rw [if_pos hx, if_pos hx]
        · rw [if_neg hx, if_neg hx, if_neg (fun h => hx (h.1.trans he))]
      · rw [List.filter_cons_of_pos (by simpa using he), wordsAt, wordsAt, writeWord_apply,
          writeWord_apply, ← ih]
        by_cases hx : x = n
        · rw [if_pos hx, if_pos hx, if_neg (fun h => he (h.1.symm.trans hx))]
        · rw [if_neg hx, if_neg hx]

/-- The tables of memory of this kind are found among its words. -/
theorem isTable_wordsAt {ws : List (ℕ × ℕ × Word)} {L : List ℕ} (hroot : root ∈ L)
    (hws : ∀ e ∈ ws, e.1 ∈ L → ∀ s ∈ hwTable e.2.2, s ∈ L) (ht : IsTable (wordsAt ws) root t) :
    t ∈ L := by
  refine isTable_closed ?_ hroot ht
  intro x hx i s hs
  rcases wordsAt_cases ws x i with hz | ⟨e, he, rfl, hval⟩
  · rw [hz, hwTable_of_not_present not_present_zero] at hs
    cases hs
  · exact hws e he hx s (hval ▸ hs)

theorem eight_lt : 8 < 2 ^ 52 := by decide

/-- The allocator of eight pages whose bits are those of a byte. -/
def eightBits (x : BitVec 8) (last : ℕ) : Pmm where
  bitmap := fun _ => x
  freeMemory := 0#64
  highestPage := 8
  lastAllocatedIndex := last
  highest_lt := eight_lt

section

variable {b last : ℕ} {mem : PhysMem} {free : Word} {hlast : last ≤ 8}

theorem eightPages_bitmap {w : Word} (hw : mem b 0 = w) :
    (eightPages b mem last free hlast).bitmap 0 = (wordByte w 0).toBitVec := by
  have hdiv : b * 4096 / 4096 = b := Nat.mul_div_cancel b (by decide)
  have hmod : b * 4096 % 4096 = 0 := Nat.mul_mod_left b 4096
  have hoffset : b * 4096 % 8 = 0 := by omega
  simp only [Machine.bitmap, eightPages, loadByte, Nat.add_zero, hdiv, hmod, hoffset, Nat.zero_div,
    hw]

/-- The scans for a page see the bits of one byte. -/
theorem eightPages_find {w : Word} (hw : mem b 0 = w) :
    findPage (eightPages b mem last free hlast).pmm =
      findPage (eightBits (wordByte w 0).toBitVec last) := by
  have halike : Alike (eightPages b mem last free hlast)
      { eightBits (wordByte w 0).toBitVec last with freeMemory := free } := by
    refine ⟨?_, rfl, rfl, rfl⟩
    intro i hi
    have hzero : i / 8 = 0 := Nat.div_eq_of_lt hi
    rw [bitmapTest, bitmapTest, hzero, eightPages_bitmap hw]
    rfl
  exact halike.findPage_eq

theorem eightPages_alloc (n : ℕ) {w w' : Word} (hw : mem b 0 = w)
    (hfind : findPage (eightBits (wordByte w 0).toBitVec last) = some n) (hn : n < 8)
    (hw' : setWordByte w 0 (UInt8.ofBitVec ((wordByte w 0).toBitVec ||| 1#8 <<< n)) = w') :
    pmmAllocPage (eightPages b mem last free hlast) =
      (pageAddr n, eightPages b (writeWord mem b 0 w') n (free - 4096#64) hn.le) := by
  rw [pmmAllocPage_of_some ((eightPages_find hw).trans hfind)]
  refine Prod.ext rfl ?_
  have hdiv : b * 4096 / 4096 = b := Nat.mul_div_cancel b (by decide)
  have hmod : b * 4096 % 4096 = 0 := Nat.mul_mod_left b 4096
  have hoffset : b * 4096 % 8 = 0 := by omega
  have hn0 : n / 8 = 0 := Nat.div_eq_of_lt hn
  have hn1 : n % 8 = n := Nat.mod_eq_of_lt hn
  have hstore : (bitmapSet (eightPages b mem last free hlast) n).mem = writeWord mem b 0 w' := by
    rw [bitmapSet, hn0, hn1, eightPages_bitmap hw, ← hw']
    simp only [Machine.setBitmap, eightPages, storeByte, Nat.add_zero, hdiv, hmod, hoffset,
      Nat.zero_div, hw]
  simp only [takePage, hstore]
  rfl

/-- A table that is missing on eight pages. -/
theorem eightPages_open (n : ℕ) (w w' : Word) {ws : List (ℕ × ℕ × Word)} {t i : ℕ}
    (hmissing : present (wordsAt ws t i) = false) (hw : wordsAt ws b 0 = w)
    (hfind : findPage (eightBits (wordByte w 0).toBitVec last) = some n) (hn : n < 8)
    (hw' : setWordByte w 0 (UInt8.ofBitVec ((wordByte w 0).toBitVec ||| 1#8 <<< n)) = w') :
    openTable (eightPages b (wordsAt ws) last free hlast) t i =
      (n, eightPages b (wordsAt ((t, i, tableEntry n) ::
        ((b, 0, w') :: ws).filter fun e => e.1 ≠ n)) n (free - 4096#64) hn.le) := by
  rw [openTable_of_missing hmissing (hn.trans (by decide)) (eightPages_alloc n hw hfind hn hw')]
  have hmem := clearTable_wordsAt ((b, 0, w') :: ws) n
  rw [wordsAt, ← hmem]
  rfl

theorem eightPages_fresh (n : ℕ) (w : Word) {ws : List (ℕ × ℕ × Word)} {L : List ℕ} {t i : ℕ}
    (hw : wordsAt ws b 0 = w)
    (hfind : findPage (eightBits (wordByte w 0).toBitVec last) = some n) (hn : n < 8) (hpos : 0 < n)
    (hroot : root ∈ L) (hws : ∀ e ∈ ws, e.1 ∈ L → ∀ s ∈ hwTable e.2.2, s ∈ L) (hnew : n ∉ L) :
    FreshFor (eightPages b (wordsAt ws) last free hlast) root t i := by
  intro _
  have hlt : n < 2 ^ 52 := hn.trans (by decide)
  rw [eightPages_alloc n hw hfind hn rfl, pageAddr_div hlt]
  exact ⟨pageAddr_ne_zero hlt hpos, fun ht => hnew (isTable_wordsAt hroot hws ht)⟩

theorem eightPages_allocs (n : ℕ) (w : Word) {t i : ℕ} (hw : mem b 0 = w)
    (hfind : findPage (eightBits (wordByte w 0).toBitVec last) = some n) (hn : n < 8)
    (hpos : 0 < n) : ∀ a ∈ openAllocs (eightPages b mem last free hlast) t i, a ≠ 0#64 := by
  intro a ha
  rw [openAllocs, eightPages_alloc n hw hfind hn rfl] at ha
  split at ha
  · cases ha
  · rw [List.mem_singleton.mp ha]
    exact pageAddr_ne_zero (hn.trans (by decide)) hpos

/-- A new address space on eight pages. -/
theorem eightPages_new (n : ℕ) (w w' : Word) {ws : List (ℕ × ℕ × Word)} (hw : wordsAt ws b 0 = w)
    (hfind : findPage (eightBits (wordByte w 0).toBitVec last) = some n) (hn : n < 8) (hpos : 0 < n)
    (hw' : setWordByte w 0 (UInt8.ofBitVec ((wordByte w 0).toBitVec ||| 1#8 <<< n)) = w')
    (hkernel : ∀ e ∈ ((b, 0, w') :: ws).filter fun e => e.1 ≠ n, e.1 ≠ 4) :
    vmmNewPagemap (eightPages b (wordsAt ws) last free hlast) =
      (pageAddr n, eightPages b (wordsAt (((b, 0, w') :: ws).filter fun e => e.1 ≠ n)) n
        (free - 4096#64) hn.le) := by
  have hlt : n < 2 ^ 52 := hn.trans (by decide)
  have hcopy : copyUpperHalf (clearTable (wordsAt ((b, 0, w') :: ws)) n) n 4 =
      wordsAt (((b, 0, w') :: ws).filter fun e => e.1 ≠ n) := by
    rw [clearTable_wordsAt]
    funext x i
    rw [copyUpperHalf_apply]
    split
    · rename_i h
      have hzero : ∀ y, (∀ e ∈ ((b, 0, w') :: ws).filter fun e => e.1 ≠ n, e.1 ≠ y) →
          wordsAt (((b, 0, w') :: ws).filter fun e => e.1 ≠ n) y i = 0#64 := by
        intro y hy
        refine (wordsAt_cases _ y i).resolve_right ?_
        rintro ⟨e, he, hey, -⟩
        exact hy e he hey
      rw [hzero 4 hkernel, h.1, hzero n fun e he => by simpa using (List.mem_filter.mp he).2]
    · rfl
  rw [vmmNewPagemap, eightPages_alloc n hw hfind hn hw', if_neg (pageAddr_ne_zero hlt hpos),
    pageAddr_div hlt]
  refine Prod.ext rfl ?_
  exact congrArg (fun mem => eightPages b mem n (free - 4096#64) hn.le) hcopy

end

/-- The machine with the bitmap on page 1, which `pmm_init` leaves free, and the cursor at
page 5. -/
def bootMachine : Machine := eightPages 1 (wordsAt [(1, 0, 0x11#64)]) 5 24576#64 (by decide)

/-- Its memory with a new address space on page 5. -/
def bootWords : List (ℕ × ℕ × Word) := [(1, 0, 0x31#64), (1, 0, 0x11#64)]

/-- The memory once an address has been mapped: the tables are on the pages 6, 7 and 1. -/
def crampedWords : List (ℕ × ℕ × Word) :=
  [(1, 0, 0x5007#64), (7, 2, tableEntry 1), (6, 0, tableEntry 7), (5, 0, tableEntry 6)]

def crampedMachine : Machine := eightPages 1 (wordsAt crampedWords) 1 8192#64 (by decide)

theorem bootMachine_new : vmmNewPagemap bootMachine =
    (pageAddr 5, eightPages 1 (wordsAt bootWords) 5 20480#64 (by decide)) :=
  eightPages_new 5 0x11#64 0x31#64 (by decide) (by decide) (by decide) (by decide) (by decide) (by decide)

theorem bootMachine_maps : TablesFresh (vmmNewPagemap bootMachine).2 (pageAddr 5) 0x400000#64 ∧
    vmmMapPage (vmmNewPagemap bootMachine).2 (pageAddr 5) 0x400000#64 0x5000#64 6#64 =
      crampedMachine := by
  have hroot : (pageAddr 5).toNat / 4096 = 5 := by decide
  have hindices : tableIndex 0x400000#64 39 = 0 ∧ tableIndex 0x400000#64 30 = 0 ∧
      tableIndex 0x400000#64 21 = 2 ∧ tableIndex 0x400000#64 12 = 0 := by decide
  obtain ⟨h₁, h₂, h₃, h₄⟩ := hindices
  have ho₁ : openTable (eightPages 1 (wordsAt bootWords) 5 20480#64 (by decide)) 5 0 =
      (6, eightPages 1 (wordsAt [(5, 0, tableEntry 6), (1, 0, 0x71#64), (1, 0, 0x31#64),
        (1, 0, 0x11#64)]) 6 16384#64 (by decide)) :=
    eightPages_open 6 0x31#64 0x71#64 (by decide) (by decide) (by decide) (by decide) (by decide)
  have ho₂ : openTable (eightPages 1 (wordsAt [(5, 0, tableEntry 6), (1, 0, 0x71#64),
        (1, 0, 0x31#64), (1, 0, 0x11#64)]) 6 16384#64 (by decide)) 6 0 =
      (7, eightPages 1 (wordsAt [(6, 0, tableEntry 7), (1, 0, 0xF1#64), (5, 0, tableEntry 6),
        (1, 0, 0x71#64), (1, 0, 0x31#64), (1, 0, 0x11#64)]) 7 12288#64 (by decide)) :=
    eightPages_open 7 0x71#64 0xF1#64 (by decide) (by decide) (by decide) (by decide) (by decide)
  have ho₃ : openTable (eightPages 1 (wordsAt [(6, 0, tableEntry 7), (1, 0, 0xF1#64),
        (5, 0, tableEntry 6), (1, 0, 0x71#64), (1, 0, 0x31#64), (1, 0, 0x11#64)]) 7 12288#64
        (by decide)) 7 2 =
      (1, eightPages 1 (wordsAt [(7, 2, tableEntry 1), (6, 0, tableEntry 7),
        (5, 0, tableEntry 6)]) 1 8192#64 (by decide)) :=
    eightPages_open 1 0xF1#64 0xF3#64 (by decide) (by decide) (by decide) (by decide) (by decide)
  rw [bootMachine_new]
  simp only [TablesFresh, vmmMapPage, hroot, h₁, h₂, h₃, h₄, ho₁, ho₂, ho₃]
  refine ⟨⟨?_, ?_, ?_⟩, rfl⟩
  · exact eightPages_fresh 6 0x31#64 (L := [5]) (by decide) (by decide) (by decide) (by decide)
      (by decide) (by decide) (by decide)
  · exact eightPages_fresh 7 0x71#64 (L := [5, 6]) (by decide) (by decide) (by decide) (by decide)
      (by decide) (by decide) (by decide)
  · exact eightPages_fresh 1 0xF1#64 (L := [5, 6, 7]) (by decide) (by decide) (by decide)
      (by decide) (by decide) (by decide) (by decide)

theorem isKernelTable_eightPages {b last : ℕ} {ws : List (ℕ × ℕ × Word)} {free : Word}
    {hlast : last ≤ 8} (hkernel : ∀ e ∈ ws, e.1 ≠ 4)
    (ht : IsKernelTable (eightPages b (wordsAt ws) last free hlast).apart t) : t = 4 := by
  obtain ⟨q, hq, -, hreach⟩ := ht
  have htable : IsTable (wordsAt ws) 4 t := ⟨q, hq, hreach⟩
  refine List.mem_singleton.mp (isTable_wordsAt (List.mem_singleton_self 4) ?_ htable)
  exact fun e he h4 => absurd (List.mem_singleton.mp h4) (hkernel e he)

/-- A page of the bitmap becomes a page table. The next mapping marks page 3 in it, and thereby
changes the flags of an address that is already mapped. -/
theorem mapping_changes_other_page : ∃ m,
    Built (fun _ => True) m (pageAddr 5) ∧ TablesFresh m (pageAddr 5) 0x600000#64 ∧
      walk m.mem 5 0x400000#64 = some (0, 0x5007#64) ∧
      walk (vmmMapPage m (pageAddr 5) 0x600000#64 0x6000#64 6#64).mem 5 0x400000#64 =
        some (0, 0x500F#64) := by
  obtain ⟨hfresh, hmapped⟩ := bootMachine_maps
  have hroot : (pageAddr 5).toNat / 4096 = 5 := by decide
  have hnew : Built (fun _ => True) (vmmNewPagemap bootMachine).2 (pageAddr 5) := by
    have hbuilt := @Built.new (fun _ => True) bootMachine trivial
    rw [bootMachine_new] at hbuilt ⊢
    refine hbuilt (show pageAddr 5 ≠ 0#64 by decide) ?_
    intro ht
    rw [hroot] at ht
    exact absurd (isKernelTable_eightPages (by decide) ht) (by decide)
  have hbuilt := Built.map _ _ 0x400000#64 0x5000#64 6#64 hnew (by decide) hfresh
  rw [hmapped] at hbuilt
  have hindices : tableIndex 0x600000#64 39 = 0 ∧ tableIndex 0x600000#64 30 = 0 ∧
      tableIndex 0x600000#64 21 = 3 ∧ tableIndex 0x600000#64 12 = 0 := by decide
  obtain ⟨h₁, h₂, h₃, h₄⟩ := hindices
  have ho₁ : openTable crampedMachine 5 0 = (6, crampedMachine) := openTable_of_present (by decide)
  have ho₂ : openTable crampedMachine 6 0 = (7, crampedMachine) := openTable_of_present (by decide)
  have ho₃ : openTable crampedMachine 7 3 =
      (3, eightPages 1 (wordsAt ((7, 3, tableEntry 3) :: (1, 0, 0x500F#64) :: crampedWords)) 3
        4096#64 (by decide)) :=
    eightPages_open 3 0x5007#64 0x500F#64 (by decide) (by decide) (by decide) (by decide)
      (by decide)
  refine ⟨crampedMachine, hbuilt, ?_, by decide, ?_⟩
  · simp only [TablesFresh, hroot, h₁, h₂, h₃, ho₁, ho₂]
    have hclosed : ∀ t i, FreshFor crampedMachine 5 t i := fun t i =>
      eightPages_fresh 3 0x5007#64 (L := [5, 6, 7, 1, 0]) (by decide) (by decide) (by decide)
        (by decide) (by decide) (by decide) (by decide)
    exact ⟨hclosed _ _, hclosed _ _, hclosed _ _⟩
  · simp only [vmmMapPage, hroot, h₁, h₂, h₃, h₄, ho₁, ho₂, ho₃]
    decide

/-- The same machine with the bitmap on page 7, which is in use. -/
def safeMachine : Machine := eightPages 7 (wordsAt [(7, 0, 0x91#64)]) 0 20480#64 (by decide)

theorem safeMachine_new : vmmNewPagemap safeMachine =
    (pageAddr 1, eightPages 7 (wordsAt [(7, 0, 0x93#64), (7, 0, 0x91#64)]) 1 16384#64
      (by decide)) :=
  eightPages_new 1 0x91#64 0x93#64 (by decide) (by decide) (by decide) (by decide) (by decide)
    (by decide)

theorem safeMachine_stores (ht : safeMachine.Stores t) : t = 7 := by
  obtain ⟨i, hi, rfl⟩ := ht
  have hbytes : safeMachine.bitmapBytes = 1 := rfl
  have hbase : safeMachine.pmmBitmap = 7 * 4096 := rfl
  rw [hbytes] at hi
  rw [hbase]
  omega

theorem safeMachine_bitmapApart : BitmapApart safeMachine where
  used := by
    intro t ht
    obtain rfl := safeMachine_stores ht
    rw [mem_clearPages]
    decide
  above := by decide
  kernel := by
    intro t ht hs
    obtain rfl := isKernelTable_eightPages (by decide) ht
    exact absurd (safeMachine_stores hs) (by decide)

theorem safeMachine_built : Built BitmapApart (vmmNewPagemap safeMachine).2 (pageAddr 1) := by
  have hbuilt := Built.new safeMachine safeMachine_bitmapApart
  rw [safeMachine_new] at hbuilt ⊢
  refine hbuilt (show pageAddr 1 ≠ 0#64 by decide) ?_
  intro ht
  exact absurd (isKernelTable_eightPages (by decide) ht) (by decide)

theorem safeMachine_fresh :
    TablesFresh (vmmNewPagemap safeMachine).2 (pageAddr 1) 0x1000#64 := by
  have hroot : (pageAddr 1).toNat / 4096 = 1 := by decide
  have hindices : tableIndex 0x1000#64 39 = 0 ∧ tableIndex 0x1000#64 30 = 0 ∧
      tableIndex 0x1000#64 21 = 0 := by decide
  obtain ⟨h₁, h₂, h₃⟩ := hindices
  have ho₁ : openTable (eightPages 7 (wordsAt [(7, 0, 0x93#64), (7, 0, 0x91#64)]) 1 16384#64
        (by decide)) 1 0 =
      (2, eightPages 7 (wordsAt [(1, 0, tableEntry 2), (7, 0, 0x97#64), (7, 0, 0x93#64),
        (7, 0, 0x91#64)]) 2 12288#64 (by decide)) :=
    eightPages_open 2 0x93#64 0x97#64 (by decide) (by decide) (by decide) (by decide) (by decide)
  have ho₂ : openTable (eightPages 7 (wordsAt [(1, 0, tableEntry 2), (7, 0, 0x97#64),
        (7, 0, 0x93#64), (7, 0, 0x91#64)]) 2 12288#64 (by decide)) 2 0 =
      (3, eightPages 7 (wordsAt [(2, 0, tableEntry 3), (7, 0, 0x9F#64), (1, 0, tableEntry 2),
        (7, 0, 0x97#64), (7, 0, 0x93#64), (7, 0, 0x91#64)]) 3 8192#64 (by decide)) :=
    eightPages_open 3 0x97#64 0x9F#64 (by decide) (by decide) (by decide) (by decide) (by decide)
  rw [safeMachine_new]
  simp only [TablesFresh, hroot, h₁, h₂, h₃, ho₁, ho₂]
  refine ⟨?_, ?_, ?_⟩
  · exact eightPages_fresh 2 0x93#64 (L := [1]) (by decide) (by decide) (by decide) (by decide)
      (by decide) (by decide) (by decide)
  · exact eightPages_fresh 3 0x97#64 (L := [1, 2]) (by decide) (by decide) (by decide) (by decide)
      (by decide) (by decide) (by decide)
  · exact eightPages_fresh 5 0x9F#64 (L := [1, 2, 3]) (by decide) (by decide) (by decide)
      (by decide) (by decide) (by decide) (by decide)

theorem mapping_correct_and_local_safe :
    walk (vmmMapPage (vmmNewPagemap safeMachine).2 (pageAddr 1) 0x1000#64 0x5000#64 7#64).mem 1
      0x1234#64 = some (0, 0x5007#64) := by
  have hwalk := (mapping_correct_and_local safeMachine_built (by decide) safeMachine_fresh
    0x5000#64 7#64).1 0x1234#64 rfl
  rwa [pageAddr_div (by decide)] at hwalk

end LispDos.Raw
