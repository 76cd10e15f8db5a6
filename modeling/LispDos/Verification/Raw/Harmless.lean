import LispDos.Verification.Raw.Sessions

/-! # Harmless mappings beside the bitmap

While the pages of the bitmap are in use, a mapping stays within its address space exactly if
there are pages for the tables that it needs. -/

namespace LispDos.Raw

open Foundation Memory

variable {H : Set ℕ} {r r' : Machine} {m : Memory.Machine} {t i k n x root : ℕ} {is pages : List ℕ}
  {map v flags : Word} {taken : List Word}

/-! ## Pages for the tables -/

/-- The next `k` calls of `pmm_alloc_page` do not return NULL. -/
def HasPages : ℕ → Machine → Prop
  | 0, _ => True
  | k + 1, r => (pmmAllocPage r).1 ≠ 0#64 ∧ HasPages k (pmmAllocPage r).2

theorem Sim.hasPages_iff (h : Sim H r m) : HasPages k r ↔ Memory.HasPages k m := by
  induction k generalizing r m with
  | zero => rfl
  | succ k ih =>
      obtain ⟨hfst, hsim⟩ := h.allocPage
      rw [HasPages, Memory.HasPages, hfst, ih hsim]

/-! ## Stores -/

/-- The page of the bitmap that an allocation stores into. -/
def allocStores (r : Machine) : List ℕ :=
  match findPage r.pmm with
  | some i => [(r.pmmBitmap + i / 8) / 4096]
  | none => []

/-- The pages that one level of `vmm_map_page` stores into. -/
def openStores (r : Machine) (table idx : ℕ) : List ℕ :=
  if present (r.mem table idx) then []
  else allocStores r ++ [(pmmAllocPage r).1.toNat / 4096, table]

def pathStores : Machine → ℕ → List ℕ → List ℕ
  | _, _, [] => []
  | r, t, i :: is => openStores r t i ++ pathStores (openTable r t i).2 (openTable r t i).1 is

/-- The pages that `vmm_map_page` stores into, the last one for the page itself. -/
def mapStores (r : Machine) (map vaddr : Word) : List ℕ :=
  pathStores r (map.toNat / 4096) (tablePath vaddr) ++
    [(openPath r (map.toNat / 4096) (tablePath vaddr)).1]

theorem allocStores_stores (hx : x ∈ allocStores r) : r.Stores x := by
  rw [allocStores] at hx
  split at hx
  · rename_i i hi
    rw [List.mem_singleton] at hx
    exact ⟨i / 8, bit_lt (mem_clearPages.mp (findPage_some r.cursor hi)).1, hx.symm⟩
  · cases hx

theorem Sim.mem_openStores (h : Sim H r m) (ht : t ∉ H) (i : ℕ) :
    (∀ x ∈ Memory.openStores m t i, x ∈ openStores r t i) ∧
      ∀ x ∈ openStores r t i, x ∈ Memory.openStores m t i ∨ r.Stores x := by
  rw [openStores, Memory.openStores, h.mem t ht, h.allocPage.1]
  split
  · exact ⟨fun _ hx => hx, fun _ hx => .inl hx⟩
  · refine ⟨fun _ hx => List.mem_append_right _ hx, fun x hx => ?_⟩
    exact (List.mem_append.mp hx).symm.imp_right allocStores_stores

theorem Sim.mem_pathStores (h : Sim H r m) (is : List ℕ) (htables : ∀ s ∈ pathTables m t is, s ∉ H) :
    (∀ x ∈ Memory.pathStores m t is, x ∈ pathStores r t is) ∧
      ∀ x ∈ pathStores r t is, x ∈ Memory.pathStores m t is ∨ r.Stores x := by
  induction is generalizing r m t with
  | nil => exact ⟨fun _ hx => hx, fun _ hx => .inl hx⟩
  | cons i is ih =>
      have ht := htables t List.mem_cons_self
      obtain ⟨hfst, hsim⟩ := h.openTable ht i
      obtain ⟨hsub, hsup⟩ := h.mem_openStores ht i
      have hrest := ih hsim fun s hs => htables s (List.mem_cons_of_mem t hs)
      rw [← hfst] at hrest
      rw [pathStores, Memory.pathStores, ← hfst]
      constructor
      · intro x hx
        exact List.mem_append.mpr ((List.mem_append.mp hx).imp (hsub x) (hrest.1 x))
      · intro x hx
        rcases List.mem_append.mp hx with hx | hx
        · exact (hsup x hx).imp_left (List.mem_append_left _)
        · refine (hrest.2 x hx).imp (List.mem_append_right _) ?_
          exact (openTable_sameBitmap r t i).stores_iff.mp

theorem Sim.mem_mapStores (h : Sim H r m) (htables : ∀ s ∈ mapTables m map v, s ∉ H) :
    (∀ x ∈ Memory.mapStores m map v, x ∈ mapStores r map v) ∧
      ∀ x ∈ mapStores r map v, x ∈ Memory.mapStores m map v ∨ r.Stores x := by
  obtain ⟨hsub, hsup⟩ := h.mem_pathStores (tablePath v) htables
  have hfst := (h.openPath (tablePath v) htables).1
  rw [mapStores, Memory.mapStores, hfst]
  constructor
  · intro x hx
    exact List.mem_append.mpr ((List.mem_append.mp hx).imp_left (hsub x))
  · intro x hx
    rcases List.mem_append.mp hx with hx | hx
    · exact (hsup x hx).imp_left (List.mem_append_left _)
    · exact .inl (List.mem_append_right _ hx)

/-! ## The invariant -/

/-- The pages of the bitmap are in use and hold no table, and the pages that the address space
owns may be freed. -/
structure Housed (r : Machine) (root : ℕ) (pages : List ℕ) : Prop where
  tabled : Tabled r root
  owns : Owns r.apart root pages
  pages : ∀ x ∈ pages, Freeable r x

/-- Ownership on a machine that agrees. -/
theorem Sim.owns (h : Sim {t | r.Stores t} r m) (htabled : Tabled r root) (howns : Owns m root pages) :
    Owns r.apart root pages := by
  have hsame : ∀ t, IsTable r.mem root t → m.mem t = r.mem t := fun t ht =>
    (h.mem t (htabled.tables t ht)).symm
  have htables : ∀ t, IsTable m.mem root t → IsTable r.mem root t := fun t ht =>
    (isTable_congr hsame).mp ht
  refine howns.other ?_ fun t ht => (hsame t (htables t ht)).symm
  intro x hx
  have hbit : bitmapTest m.pmm.bitmap x = true := hx.elim (howns.used x) (howns.kernel x)
  apply used_apart
  rw [h.alike.mem_clearPages, mem_clearPages, hbit]
  exact fun hboth => absurd hboth.2 (by decide)

theorem Housed.tablesUsed (h : Housed r root pages) : TablesUsed r root :=
  fun t ht => clear_apart (h.owns.kernel t ht)

/-- The tables that a mapping goes through hold no part of the bitmap. -/
theorem Housed.mapTables_off (h : Housed r root pages) (hv : v.toNat < 2 ^ 47)
    (hroot : map.toNat / 4096 = root) : ∀ x ∈ mapTables r.apart map v, x ∉ {t | r.Stores t} := by
  have hsim := h.tabled.inUse.sim
  apply Raw.mapTables_off
  · exact fun x hx => ⟨fun h0 => hsim.zero (h0 ▸ hx), hsim.used x hx⟩
  · intro q s hq hs
    have hpath := lowerPath_tablePath hv hq
    rw [hroot, h.owns.codeNext_eq hpath] at hs
    have htable : IsTable r.mem root s := ⟨q, hpath.1, hs⟩
    refine ⟨h.owns.ne_zero hpath hs, ?_, h.tabled.tables s htable⟩
    rw [← (Alike.self r).mem_clearPages]
    exact h.tablesUsed s htable

/-! ## Steps -/

theorem Tabled.freeable_openAllocs (h : Tabled r root) {a : Word} (ha : a ∈ openAllocs r t i)
    (hok : a ≠ 0#64) : Freeable r (a.toNat / 4096) := by
  rw [openAllocs] at ha
  split at ha
  · cases ha
  · rw [List.mem_singleton.mp ha] at hok ⊢
    obtain ⟨n, hn, haddr, hclear⟩ := pmmAllocPage_clear hok
    rw [haddr, pageAddr_div (hn.trans (by decide))]
    exact ⟨(mem_clearPages.mp hclear).1, fun hs => h.inUse.used n hs hclear⟩

/-- The pages that a mapping allocates for its tables may be freed. -/
theorem Tabled.freeable_mapAllocs (h : Tabled r (map.toNat / 4096)) (hv : v.toNat < 2 ^ 47)
    (hfresh : TablesFresh r map v) {a : Word} (ha : a ∈ mapAllocs r map v) (hok : a ≠ 0#64) :
    Freeable r (a.toNat / 4096) := by
  obtain ⟨hp₁, hp₂, hp₃⟩ := lowerPath_prefix le_rfl hv
  obtain ⟨hf₁, hf₂, -⟩ := hfresh
  have ho₁ := h.openTable (p := []) hp₁ rfl hf₁
  have ho₂ := ho₁.tabled.openTable (p := [tableIndex v 39]) hp₂ ho₁.reach hf₂
  have hs₁ := openTable_sameBitmap r (map.toNat / 4096) (tableIndex v 39)
  have hback : ∀ {r' : Machine}, SameBitmap r r' → Freeable r' (a.toNat / 4096) →
      Freeable r (a.toNat / 4096) := by
    intro r' hsame hfree
    exact ⟨hsame.highest ▸ hfree.1, fun hs => hfree.2 (hsame.stores_iff.mpr hs)⟩
  simp only [mapAllocs, List.mem_append] at ha
  rcases ha with (ha | ha) | ha
  · exact h.freeable_openAllocs ha hok
  · exact hback hs₁ (ho₁.tabled.freeable_openAllocs ha hok)
  · exact hback (hs₁.trans (openTable_sameBitmap _ _ _)) (ho₂.tabled.freeable_openAllocs ha hok)

/-- An allocation for the address space. -/
theorem Housed.take (h : Housed r root pages) (hok : (pmmAllocPage r).1 ≠ 0#64) :
    ∃ n, (pmmAllocPage r).1 = pageAddr n ∧ Housed (pmmAllocPage r).2 root (pages ++ [n]) := by
  obtain ⟨hfst, hsim⟩ := h.tabled.inUse.sim.allocPage
  have hkept := pmmAllocPage_kept r
  obtain ⟨n, haddr, htake⟩ := h.owns.take (hfst ▸ hok)
  have hsame : ∀ t, IsTable r.mem root t → (pmmAllocPage r).2.mem t = r.mem t :=
    fun t ht => hkept.mem t (h.tabled.tables t ht)
  have htabled : Tabled (pmmAllocPage r).2 root := by
    refine ⟨hsim.bitmapInUse, h.tabled.space.congr hsame, ?_⟩
    intro t ht
    rw [hkept.stores_iff]
    exact h.tabled.tables t ((isTable_congr hsame).mp ht)
  have hstores : {t | (pmmAllocPage r).2.Stores t} = {t | r.Stores t} :=
    Set.ext fun t => hkept.stores_iff
  refine ⟨n, hfst.trans haddr, htabled, (hstores ▸ hsim).owns htabled htake, ?_⟩
  intro x hx
  rw [hkept.freeable_iff]
  rcases List.mem_append.mp hx with hx | hx
  · exact h.pages x hx
  · obtain ⟨n', hn', haddr', hclear⟩ := pmmAllocPage_clear hok
    have hn : n < 2 ^ 40 := htake.small n (List.mem_append_right _ (List.mem_singleton_self n))
    obtain rfl : n' = n := pageAddr_injOn (hn'.trans (by decide)) (hn.trans (by decide))
      (haddr'.symm.trans (hfst.trans haddr))
    rw [List.mem_singleton.mp hx]
    exact ⟨(mem_clearPages.mp hclear).1, fun hs => h.tabled.inUse.used n' hs hclear⟩

/-- A call that finds pages for its tables. -/
theorem Housed.mapPage (h : Housed r root pages) (hn : n ∈ pages) (hv : v.toNat < 2 ^ 47)
    (hflags : flags.toNat < 4096)
    (hpages : HasPages (missingTables r.mem root [] (tablePath v)) r) :
    ∃ new : List ℕ, mapAllocs r (pageAddr root) v = new.map pageAddr ∧
      0 ∉ mapStores r (pageAddr root) v ∧
      Housed (vmmMapPage r (pageAddr root) v (pageAddr n) flags) root (pages ++ new) ∧
      ∀ u, walk (vmmMapPage r (pageAddr root) v (pageAddr n) flags).mem root u =
        if indices u = indices v then hwLeaf 0 (leafEntry (pageAddr n) flags)
        else walk r.mem root u := by
  have hsim := h.tabled.inUse.sim
  have hroot := h.owns.root_div
  have hoff := h.mapTables_off hv hroot
  obtain ⟨new, hallocs, hstores, howns, -⟩ :=
    h.owns.mapPage hn hv hflags (hsim.hasPages_iff.mp hpages)
  rw [← hsim.mapAllocs_eq hoff] at hallocs
  have hnew : ∀ x ∈ new, pageAddr x ≠ 0#64 := fun x hx =>
    pageAddr_ne_zero ((howns.small x (List.mem_append_right _ hx)).trans (by decide))
      (Nat.pos_of_ne_zero fun h0 => howns.not_zero (h0 ▸ List.mem_append_right _ hx))
  have hok : ∀ a ∈ mapAllocs r (pageAddr root) v, a ≠ 0#64 := by
    rw [hallocs]
    intro a ha
    obtain ⟨x, hx, rfl⟩ := List.mem_map.mp ha
    exact hnew x hx
  have htabled : Tabled r ((pageAddr root).toNat / 4096) := hroot.symm ▸ h.tabled
  have hfresh := htabled.tablesFresh (hroot.symm ▸ h.tablesUsed) hv hok
  have hmapped := htabled.mapPage hv hfresh (pageAddr n) flags
  have hsame := vmmMapPage_sameBitmap r (pageAddr root) v (pageAddr n) flags
  have hafter := hsim.mapPage hoff (pageAddr n) flags
  rw [hroot] at hmapped
  have hset : {t | r.Stores t} =
      {t | (vmmMapPage r (pageAddr root) v (pageAddr n) flags).Stores t} :=
    Set.ext fun t => hsame.stores_iff.symm
  refine ⟨new, hallocs, ?_, ⟨hmapped.tabled, ?_, ?_⟩, hmapped.walks⟩
  · intro hzero
    rcases (hsim.mem_mapStores hoff).2 0 hzero with hzero | hzero
    · exact hstores hzero
    · exact hsim.zero hzero
  · rw [hset] at hafter
    exact hafter.owns hmapped.tabled howns
  · intro x hx
    have hfree : Freeable r x := by
      rcases List.mem_append.mp hx with hx | hx
      · exact h.pages x hx
      · have ha : pageAddr x ∈ mapAllocs r (pageAddr root) v := by
          rw [hallocs]
          exact List.mem_map_of_mem hx
        have hfreeable := htabled.freeable_mapAllocs hv hfresh ha (hnew x hx)
        rwa [pageAddr_div ((howns.small x (List.mem_append_right _ hx)).trans (by decide))]
          at hfreeable
    exact ⟨hsame.highest ▸ hfree.1, fun hs => hfree.2 (hsame.stores_iff.mp hs)⟩

/-- What `vmm_free_pagemap` frees is owned. -/
theorem Housed.freed (h : Housed r root pages) : ∃ freed : List Word,
    vmmFreePagemap r (pageAddr root) = freed.foldl pmmFreePage r ∧
      ∀ a ∈ freed, a ≠ 0#64 ∧ a ∈ pages.map pageAddr := by
  have hsim := h.tabled.inUse.sim
  have hremovable : Removable {t | r.Stores t} r r.apart.mem ((pageAddr root).toNat / 4096) := by
    rw [h.owns.root_div]
    constructor
    · intro q t hq ht
      rw [h.owns.codeNext_eq hq] at ht
      exact h.tabled.tables t ⟨q, hq.1, ht⟩
    · exact fun q x hq hx => h.pages x (h.owns.reach_mem hq hx)
  exact ⟨_, (hremovable.freePagemap hsim).calls r (.refl r), h.owns.freed⟩

/-! ## Harmless calls -/

/-- A call of `vmm_map_page` for the page at `v`, when the pages `taken` have been allocated
for the address space: it does not store into page 0, afterwards no entry leads to page 0,
all other translations are as before, and `vmm_free_pagemap` would free pages allocated for
the address space only. -/
structure Harmless (r : Machine) (map v page flags : Word) (taken : List Word) : Prop where
  unwritten : 0 ∉ mapStores r map v
  no_entry : ∀ q, LowerPath 4 q →
    descend codeNext (vmmMapPage r map v page flags).mem (map.toNat / 4096) q ≠ some 0
  others : ∀ u, Canonical u → ¬ SamePage u v →
    walk (vmmMapPage r map v page flags).mem (map.toNat / 4096) u = walk r.mem (map.toNat / 4096) u
  frees : ∃ freed : List Word,
    vmmFreePagemap (vmmMapPage r map v page flags) map =
        freed.foldl pmmFreePage (vmmMapPage r map v page flags) ∧
      ∀ a ∈ freed, a ≠ 0#64 ∧ a ∈ taken ++ mapAllocs r map v

theorem Housed.harmless_iff (h : Housed r root pages) (hn : n ∈ pages) (hv : v.toNat < 2 ^ 47)
    (hflags : flags.toNat < 4096) :
    Harmless r (pageAddr root) v (pageAddr n) flags (pages.map pageAddr) ↔
      HasPages (missingTables r.mem root [] (tablePath v)) r := by
  have hsim := h.tabled.inUse.sim
  have hroot := h.owns.root_div
  constructor
  · intro hharmless
    by_contra hfail
    rw [hsim.hasPages_iff] at hfail
    have hzero := (h.owns.mapPage_fails (pageAddr n) flags hv hfail).1
    exact hharmless.unwritten ((hsim.mem_mapStores (h.mapTables_off hv hroot)).1 0 hzero)
  · intro hpages
    obtain ⟨new, hallocs, hstores, hhoused, hwalks⟩ := h.mapPage hn hv hflags hpages
    refine ⟨hstores, ?_, ?_, ?_⟩
    · intro q hq hzero
      rw [hroot] at hzero
      exact hhoused.owns.not_zero (hhoused.owns.reach_mem hq hzero)
    · intro u hu hother
      rw [hroot, hwalks u, if_neg]
      exact fun hsame => hother (samePage_of_indices hu hv hsame)
    · rw [hallocs, ← List.map_append]
      exact hhoused.freed

/-! ## Whole runs -/

/-- The address spaces that a run can build, with the results of all calls of
`pmm_alloc_page` made for them: a new one, when the tables of the kernel are in use; calls of
`vmm_map_page` for the lower half, each with a page allocated for it, for whose tables there
are pages; and anything that leaves its tables alone and its pages in use. The pages of the
bitmap are in use at its start and whenever the rest of the kernel leaves off. -/
inductive Space : Machine → Word → List Word → Prop where
  | new (m : Machine) (bitmap : BitmapApart m)
      (hkernel : ∀ t, IsKernelTable m.apart t → t ∉ clearPages m.bitmap m.pmmHighestPage)
      (hok : (vmmNewPagemap m).1 ≠ 0#64) :
      Space (vmmNewPagemap m).2 (vmmNewPagemap m).1 [(vmmNewPagemap m).1]
  | map (m : Machine) (map v flags : Word) (taken : List Word) (space : Space m map taken)
      (hv : v.toNat < 2 ^ 47) (hflags : flags.toNat < 4096) (hleaf : (pmmAllocPage m).1 ≠ 0#64)
      (hpages : HasPages (missingTables m.mem (map.toNat / 4096) [] (tablePath v))
        (pmmAllocPage m).2) :
      Space (vmmMapPage (pmmAllocPage m).2 map v (pmmAllocPage m).1 flags) map
        (taken ++ [(pmmAllocPage m).1] ++ mapAllocs (pmmAllocPage m).2 map v)
  | other (m m' : Machine) (map : Word) (taken : List Word) (space : Space m map taken)
      (bitmap : BitmapInUse m') (same : SameBitmap m m')
      (hused : ∀ x, pageAddr x ∈ taken ∨ IsTable m.mem (map.toNat / 4096) x →
        x ∉ clearPages m'.bitmap m'.pmmHighestPage)
      (hsame : ∀ t, IsTable m.mem (map.toNat / 4096) t → m'.mem t = m.mem t) : Space m' map taken

/-- The levels that are missing do not depend on the pages of the bitmap. -/
theorem Housed.missing_congr (h : Housed r root pages) (hv : v.toNat < 2 ^ 47) (hkept : Kept r r') :
    missingTables r'.mem root [] (tablePath v) = missingTables r.mem root [] (tablePath v) := by
  apply missingTables_congr
  intro q _ hq
  refine descend_congr (V := fun q => q <+: tablePath v)
    (fun q j hq => (List.prefix_append q [j]).trans hq) ?_ hq
  intro q j s hq hs
  have hpath := lowerPath_tablePath hv ((List.prefix_append q [j]).trans hq)
  have hs' : descend codeNext r.apart.mem root q = some s := hs
  rw [h.owns.codeNext_eq hpath] at hs'
  rw [hkept.mem s (h.tabled.tables s ⟨q, hpath.1, hs'⟩)]

theorem BitmapApart.housed (h : BitmapApart r)
    (hkernel : ∀ t, IsKernelTable r.apart t → t ∉ clearPages r.bitmap r.pmmHighestPage)
    (hok : (vmmNewPagemap r).1 ≠ 0#64) :
    ∃ n, (vmmNewPagemap r).1 = pageAddr n ∧ Housed (vmmNewPagemap r).2 n [n] := by
  have hself : IsKernelTable r.apart r.kernelPml4 := ⟨[], ⟨by simp, by simp⟩, by simp, rfl⟩
  obtain ⟨hfst, hsim⟩ := h.toBitmapInUse.sim.newPagemap (h.kernel _ hself)
  have hok' : (Memory.vmmNewPagemap r.apart).1 ≠ 0#64 := hfst ▸ hok
  obtain ⟨n, haddr, howns⟩ := owns_new (fun t ht => used_apart (hkernel t ht)) hok'
  have hdiv : (vmmNewPagemap r).1.toNat / 4096 = n := by rw [hfst, haddr, howns.root_div]
  have hsame := vmmNewPagemap_sameBitmap r
  obtain ⟨n', hn', haddr', -, -, takes⟩ := vmmNewPagemap_mem hok'
  obtain rfl : n' = n := by
    rw [← howns.root_div, ← haddr, haddr', pageAddr_div (hn'.trans (by decide))]
  have hclear := takes.clear (Finset.mem_singleton_self n')
  have hfree : n' ∈ clearPages r.bitmap r.pmmHighestPage := (Alike.self r).mem_clearPages.mpr hclear
  have htabled := h.tabled hok (by rw [hdiv]; exact fun ht => hkernel n' ht hfree)
  rw [hdiv] at htabled
  have hset : {t | r.Stores t} = {t | (vmmNewPagemap r).2.Stores t} :=
    Set.ext fun t => hsame.stores_iff.symm
  rw [hset] at hsim
  refine ⟨n', hfst.trans haddr, htabled, hsim.owns htabled howns, ?_⟩
  intro x hx
  rw [List.mem_singleton.mp hx]
  refine ⟨hsame.highest ▸ (mem_clearPages.mp hfree).1, ?_⟩
  exact fun hs => h.used n' (hsame.stores_iff.mp hs) hfree

/-- The invariant holds in every state of a run. -/
theorem Space.housed (h : Space r map taken) :
    ∃ root pages, map = pageAddr root ∧ taken = pages.map pageAddr ∧ Housed r root pages := by
  induction h with
  | new m bitmap hkernel hok =>
      obtain ⟨n, haddr, hhoused⟩ := bitmap.housed hkernel hok
      exact ⟨n, [n], haddr, by rw [haddr]; rfl, hhoused⟩
  | map m map v flags taken space hv hflags hleaf hpages ih =>
      obtain ⟨root, pages, rfl, rfl, hhoused⟩ := ih
      obtain ⟨n, haddr, htake⟩ := hhoused.take hleaf
      rw [hhoused.owns.root_div, ← hhoused.missing_congr hv (pmmAllocPage_kept m)] at hpages
      have hin : n ∈ pages ++ [n] := List.mem_append_right pages (List.mem_singleton_self n)
      obtain ⟨new, hallocs, _, hmapped, _⟩ := htake.mapPage hin hv hflags hpages
      refine ⟨root, pages ++ [n] ++ new, rfl, ?_, ?_⟩
      · rw [haddr, hallocs, List.map_append, List.map_append]
        rfl
      · rw [haddr]
        exact hmapped
  | other m m' map taken space bitmap same hused hsame ih =>
      obtain ⟨root, pages, rfl, rfl, hhoused⟩ := ih
      rw [hhoused.owns.root_div] at hused hsame
      refine ⟨root, pages, rfl, rfl, ⟨bitmap, hhoused.tabled.space.congr hsame, ?_⟩, ?_, ?_⟩
      · intro t ht
        rw [same.stores_iff]
        exact hhoused.tabled.tables t ((isTable_congr hsame).mp ht)
      · refine hhoused.owns.other ?_ hsame
        exact fun x hx => used_apart (hused x (hx.imp_left fun hx => List.mem_map_of_mem hx))
      · intro x hx
        obtain ⟨hlt, hstores⟩ := hhoused.pages x hx
        exact ⟨same.highest ▸ hlt, fun hs => hstores (same.stores_iff.mp hs)⟩

/-- A state in a run of which every call found pages for its tables, with the pages of the
bitmap in use: `vmm_free_pagemap` frees pages allocated for the address space only, and a
further call, with a page allocated for it, is harmless exactly if there are pages for the
tables that are missing. -/
theorem mapping_harmless_iff (h : Space r map taken) :
    (∃ freed : List Word, vmmFreePagemap r map = freed.foldl pmmFreePage r ∧
      ∀ a ∈ freed, a ≠ 0#64 ∧ a ∈ taken) ∧
    ∀ v flags : Word, v.toNat < 2 ^ 47 → flags.toNat < 4096 → (pmmAllocPage r).1 ≠ 0#64 →
      (Harmless (pmmAllocPage r).2 map v (pmmAllocPage r).1 flags (taken ++ [(pmmAllocPage r).1]) ↔
        HasPages (missingTables r.mem (map.toNat / 4096) [] (tablePath v)) (pmmAllocPage r).2) := by
  obtain ⟨root, pages, rfl, rfl, hhoused⟩ := h.housed
  refine ⟨hhoused.freed, ?_⟩
  intro v flags hv hflags hleaf
  obtain ⟨n, haddr, htake⟩ := hhoused.take hleaf
  have hiff := htake.harmless_iff (List.mem_append_right pages (List.mem_singleton_self n)) hv hflags
  rw [List.map_append, List.map_singleton, ← haddr,
    hhoused.missing_congr hv (pmmAllocPage_kept r)] at hiff
  rw [hhoused.owns.root_div]
  exact hiff

/-! ## Eight pages without room for tables -/

theorem cursor_zero : 0 ≤ 8 := by decide

/-- The safe machine with only the pages 1 and 2 free. -/
def shortMachine : Machine := eightPages 7 (wordsAt [(7, 0, 0xF9#64)]) 0 8192#64 cursor_zero

theorem shortMachine_new : vmmNewPagemap shortMachine =
    (pageAddr 1, eightPages 7 (wordsAt [(7, 0, 0xFB#64), (7, 0, 0xF9#64)]) 1 4096#64 (by decide)) :=
  eightPages_new 1 0xF9#64 0xFB#64 (by decide) (by decide) (by decide) (by decide) (by decide)
    (by decide)

theorem shortMachine_leaf : pmmAllocPage (vmmNewPagemap shortMachine).2 =
    (pageAddr 2, eightPages 7 (wordsAt [(7, 0, 0xFF#64), (7, 0, 0xFB#64), (7, 0, 0xF9#64)]) 2
      0#64 (by decide)) := by
  rw [shortMachine_new]
  exact eightPages_alloc 2 (w := 0xFB#64) (by decide) (by decide) (by decide) (by decide)

theorem shortMachine_space : Space (vmmNewPagemap shortMachine).2 (pageAddr 1) [pageAddr 1] := by
  have hstores : ∀ t, shortMachine.Stores t → t = 7 := fun t ht => safeMachine_stores ht
  have hapart : BitmapApart shortMachine := by
    refine ⟨⟨?_, by decide⟩, ?_⟩
    · intro t ht
      obtain rfl := hstores t ht
      rw [mem_clearPages]
      decide
    · intro t ht hs
      obtain rfl := isKernelTable_eightPages (by decide) ht
      exact absurd (hstores _ hs) (by decide)
  have hnew := Space.new shortMachine hapart
  have hmap : (vmmNewPagemap shortMachine).1 = pageAddr 1 := by rw [shortMachine_new]
  rw [hmap] at hnew
  refine hnew ?_ (by decide)
  intro t ht
  obtain rfl := isKernelTable_eightPages (by decide) ht
  rw [mem_clearPages]
  decide

theorem mapping_harmless_iff_short :
    Harmless (pmmAllocPage (vmmNewPagemap shortMachine).2).2 (pageAddr 1) 0x1000#64
        (pmmAllocPage (vmmNewPagemap shortMachine).2).1 6#64
        ([pageAddr 1] ++ [(pmmAllocPage (vmmNewPagemap shortMachine).2).1]) ↔
      HasPages (missingTables (vmmNewPagemap shortMachine).2.mem ((pageAddr 1).toNat / 4096) []
        (tablePath 0x1000#64)) (pmmAllocPage (vmmNewPagemap shortMachine).2).2 :=
  (mapping_harmless_iff shortMachine_space).2 0x1000#64 6#64 (by decide) (by decide)
    (by rw [shortMachine_leaf]; decide)

/-- The page at 0x1000 is mapped, and no page is left for the tables. -/
theorem starved_call_harms : ¬ ∀ m map taken v flags, Space m map taken → v.toNat < 2 ^ 47 →
    flags.toNat < 4096 → (pmmAllocPage m).1 ≠ 0#64 →
    Harmless (pmmAllocPage m).2 map v (pmmAllocPage m).1 flags (taken ++ [(pmmAllocPage m).1]) := by
  intro h
  have hharmless := h _ _ _ 0x1000#64 6#64 shortMachine_space (by decide) (by decide)
    (by rw [shortMachine_leaf]; decide)
  apply hharmless.unwritten
  have hroot : (pageAddr 1).toNat / 4096 = 1 := by decide
  have hmissing : present ((pmmAllocPage (vmmNewPagemap shortMachine).2).2.mem 1
      (tableIndex 0x1000#64 39)) = false := by
    rw [shortMachine_leaf]
    decide
  have hnull : (pmmAllocPage (pmmAllocPage (vmmNewPagemap shortMachine).2).2).1 = 0#64 := by
    rw [shortMachine_leaf, pmmAllocPage_of_none ((eightPages_find rfl).trans (by decide))]
  rw [mapStores, hroot, tablePath, pathStores, openStores, hmissing, hnull]
  simp

end LispDos.Raw
