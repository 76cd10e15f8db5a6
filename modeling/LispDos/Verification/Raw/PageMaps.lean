import LispDos.Verification.Raw.Simulation

/-! # Page maps beside the bitmap

The functions of `vmm.c` keep the agreement when the tables that they go through lie
outside of the pages that differ. -/

namespace LispDos.Raw

open Foundation Memory

variable {H : Set ℕ} {r r' : Machine} {m m' : Memory.Machine} {t i n root : ℕ} {map v : Word}

/-! ## Building -/

/-- The page that an allocation returns holds no part of the bitmap, nor does page 0, which
stands for a failure. -/
theorem Sim.page_not_stores (h : Sim H r m) : ¬ r.Stores (m.allocPage.1.toNat / 4096) := by
  by_cases hok : m.allocPage.1 = 0#64
  · rw [hok]
    exact h.zero
  · obtain ⟨n, hn, haddr, takes⟩ := m.allocPage_some hok
    rw [haddr, pageAddr_div (hn.trans (by decide))]
    exact h.clear (takes.clear (Finset.mem_singleton_self n))

theorem stores_alloc : (pmmAllocPage r).2.Stores t ↔ r.Stores t := (pmmAllocPage_kept r).stores_iff

theorem Sim.newPagemap (h : Sim H r m) (hkernel : m.kernelPml4 ∉ H) :
    (vmmNewPagemap r).1 = (Memory.vmmNewPagemap m).1 ∧
      Sim H (vmmNewPagemap r).2 (Memory.vmmNewPagemap m).2 := by
  obtain ⟨hfst, halloc⟩ := h.allocPage
  simp only [vmmNewPagemap, Memory.vmmNewPagemap, hfst]
  by_cases hok : m.allocPage.1 = 0#64
  · rw [if_pos hok, if_pos hok]
    exact ⟨rfl, halloc⟩
  · rw [if_neg hok, if_neg hok]
    refine ⟨rfl, ?_⟩
    have hnot : ¬ (pmmAllocPage r).2.Stores (m.allocPage.1.toNat / 4096) :=
      fun hs => h.page_not_stores (stores_alloc.mp hs)
    generalize m.allocPage.1.toNat / 4096 = n at hnot
    have hk : (pmmAllocPage r).2.kernelPml4 = m.kernelPml4 := halloc.kernel
    apply halloc.withMem
    · intro s hs
      have hsn : s ≠ n := by
        rintro rfl
        exact hnot hs
      funext j
      rw [copyUpperHalf_apply, if_neg (fun hboth => hsn hboth.1), clearTable_apply, if_neg hsn]
    · intro s hs
      funext j
      simp only [copyUpperHalf_apply, clearTable_apply, hk, Memory.Machine.allocPage_kernelPml4,
        halloc.mem s hs, halloc.mem _ hkernel]

theorem Sim.openTable (h : Sim H r m) (ht : t ∉ H) (i : ℕ) :
    (openTable r t i).1 = (Memory.openTable m t i).1 ∧
      Sim H (openTable r t i).2 (Memory.openTable m t i).2 := by
  have hentry := congrFun (h.mem t ht) i
  by_cases hpres : present (m.mem t i) = true
  · simp only [Raw.openTable, Memory.openTable, hentry, hpres, if_true]
    exact ⟨trivial, h⟩
  · obtain ⟨hfst, halloc⟩ := h.allocPage
    simp only [Raw.openTable, Memory.openTable, hentry, if_neg hpres, hfst]
    have hnot : ¬ (pmmAllocPage r).2.Stores (m.allocPage.1.toNat / 4096) :=
      fun hs => h.page_not_stores (stores_alloc.mp hs)
    have hsim := (halloc.clearTable hnot).writeWord ht i
      (m.allocPage.1 ||| 1#64 ||| 2#64 ||| 4#64)
    have hword := congrFun (hsim.mem t ht) i
    exact ⟨congrArg tableOf hword, hsim⟩

/-- The levels of `vmm_map_page` along a path. -/
def openPath : Machine → ℕ → List ℕ → ℕ × Machine
  | r, t, [] => (t, r)
  | r, t, i :: is => openPath (openTable r t i).2 (openTable r t i).1 is

theorem vmmMapPage_eq (r : Machine) (map v paddr flags : Word) :
    vmmMapPage r map v paddr flags =
      { (openPath r (map.toNat / 4096) (tablePath v)).2 with
        mem := writeWord (openPath r (map.toNat / 4096) (tablePath v)).2.mem
          (openPath r (map.toNat / 4096) (tablePath v)).1 (tableIndex v 12)
          (leafEntry paddr flags) } := rfl

/-- The tables that are read and entered along a path. -/
def pathTables : Memory.Machine → ℕ → List ℕ → List ℕ
  | _, t, [] => [t]
  | m, t, i :: is =>
      t :: pathTables (Memory.openTable m t i).2 (Memory.openTable m t i).1 is

/-- The tables of a call of `vmm_map_page`. -/
def mapTables (m : Memory.Machine) (map v : Word) : List ℕ :=
  pathTables m (map.toNat / 4096) (tablePath v)

theorem mem_pathTables_bottom (m : Memory.Machine) (t : ℕ) (is : List ℕ) :
    (Memory.openPath m t is).1 ∈ pathTables m t is := by
  induction is generalizing m t with
  | nil => exact List.mem_singleton_self t
  | cons i is ih => exact List.mem_cons_of_mem t (ih _ _)

theorem Sim.openPath (h : Sim H r m) (is : List ℕ) (htables : ∀ s ∈ pathTables m t is, s ∉ H) :
    (openPath r t is).1 = (Memory.openPath m t is).1 ∧
      Sim H (openPath r t is).2 (Memory.openPath m t is).2 := by
  induction is generalizing r m t with
  | nil => exact ⟨rfl, h⟩
  | cons i is ih =>
      obtain ⟨hfst, hsim⟩ := h.openTable (htables t List.mem_cons_self) i
      rw [Raw.openPath, Memory.openPath, hfst]
      exact ih hsim fun s hs => htables s (List.mem_cons_of_mem t hs)

theorem Sim.mapPage (h : Sim H r m) (htables : ∀ s ∈ mapTables m map v, s ∉ H)
    (paddr flags : Word) :
    Sim H (vmmMapPage r map v paddr flags) (Memory.vmmMapPage m map v paddr flags) := by
  obtain ⟨hfst, hsim⟩ := h.openPath (tablePath v) htables
  rw [vmmMapPage_eq, Memory.vmmMapPage_eq, hfst]
  exact hsim.writeWord (htables _ (mem_pathTables_bottom m _ _)) _ _

/-- The results of `pmm_alloc_page` in one level of `vmm_map_page`. -/
def openAllocs (r : Machine) (table idx : ℕ) : List Word :=
  if present (r.mem table idx) then [] else [(pmmAllocPage r).1]

/-- The results of `pmm_alloc_page` in `vmm_map_page`, in order. -/
def mapAllocs (r : Machine) (map vaddr : Word) : List Word :=
  let pdpt := openTable r (map.toNat / 4096) (tableIndex vaddr 39)
  let pd := openTable pdpt.2 pdpt.1 (tableIndex vaddr 30)
  openAllocs r (map.toNat / 4096) (tableIndex vaddr 39) ++
    openAllocs pdpt.2 pdpt.1 (tableIndex vaddr 30) ++
    openAllocs pd.2 pd.1 (tableIndex vaddr 21)

theorem Sim.openAllocs_eq (h : Sim H r m) (ht : t ∉ H) (i : ℕ) :
    openAllocs r t i = Memory.openAllocs m t i := by
  rw [openAllocs, Memory.openAllocs, h.mem t ht, h.allocPage.1]

theorem Sim.mapAllocs_eq (h : Sim H r m) (htables : ∀ s ∈ mapTables m map v, s ∉ H) :
    mapAllocs r map v = Memory.mapAllocs m map v := by
  simp only [mapTables, tablePath, pathTables, List.forall_mem_cons] at htables
  obtain ⟨hpml4, hpdpt, hpd, _⟩ := htables
  obtain ⟨hfst₁, h₁⟩ := h.openTable hpml4 (tableIndex v 39)
  obtain ⟨hfst₂, h₂⟩ := h₁.openTable hpdpt (tableIndex v 30)
  simp only [mapAllocs, Memory.mapAllocs, hfst₁, hfst₂, h.openAllocs_eq hpml4,
    h₁.openAllocs_eq hpdpt, h₂.openAllocs_eq hpd]

/-! ## Tearing down -/

theorem Kept.trans {r'' : Machine} (h : Kept r r') (h' : Kept r' r'') : Kept r r'' := by
  refine ⟨h'.base.trans h.base, h'.highest.trans h.highest, h'.kernel.trans h.kernel, ?_⟩
  intro t ht
  rw [h'.mem t fun hs => ht (h.stores_iff.mp hs), h.mem t ht]

/-- A page that may be freed: it has a bit, and holds no part of the bitmap. -/
def Freeable (r : Machine) (x : ℕ) : Prop := x < r.pmmHighestPage ∧ ¬ r.Stores x

theorem Kept.freeable_iff (h : Kept r r') {x : ℕ} : Freeable r' x ↔ Freeable r x := by
  rw [Freeable, Freeable, h.highest, h.stores_iff]

theorem kept_foldl {ws : List Word} (hws : ∀ w ∈ ws, Freeable r (w.toNat / 4096)) :
    Kept r (ws.foldl pmmFreePage r) := by
  induction ws generalizing r with
  | nil => exact .refl r
  | cons w ws ih =>
      have hkept := pmmFreePage_kept (hws w List.mem_cons_self).1
      rw [List.foldl_cons]
      exact hkept.trans (ih fun w' hw' => hkept.freeable_iff.mpr (hws w' (List.mem_cons_of_mem w hw')))

theorem Sim.freePages (h : Sim H r m) {ws : List Word}
    (hws : ∀ w ∈ ws, Freeable r (w.toNat / 4096)) :
    Sim H (ws.foldl pmmFreePage r) (ws.foldl Memory.Machine.freePage m) := by
  induction ws generalizing r m with
  | nil => exact h
  | cons w ws ih =>
      obtain ⟨hlt, hstores⟩ := hws w List.mem_cons_self
      have hkept := pmmFreePage_kept hlt
      exact ih (h.freePage hlt hstores)
        fun w' hw' => hkept.freeable_iff.mpr (hws w' (List.mem_cons_of_mem w hw'))

/-- During a teardown that began on the machine `r`, the function makes the calls of
`pmm_free_page` for `ws`. -/
structure Frees (r : Machine) (f : Machine → Machine) (ws : List Word) : Prop where
  calls : ∀ r', Kept r r' → f r' = ws.foldl pmmFreePage r'
  pages : ∀ w ∈ ws, Freeable r (w.toNat / 4096)

theorem Frees.kept {f : Machine → Machine} {ws : List Word} (h : Frees r f ws) (hkept : Kept r r') :
    Kept r (f r') := by
  rw [h.calls r' hkept]
  exact hkept.trans (kept_foldl fun w hw => hkept.freeable_iff.mpr (h.pages w hw))

theorem Frees.loop {mem : PhysMem} {below : ℕ → Machine → Machine} {freed : ℕ → List Word}
    (ht : ¬ r.Stores t) (hmem : r.mem t = mem t) (count : ℕ)
    (hfree : ∀ i < count, present (mem t i) = true → Freeable r (tableOf (mem t i)))
    (hbelow : ∀ i < count, present (mem t i) = true →
      Frees r (below (tableOf (mem t i))) (freed (tableOf (mem t i)))) :
    Frees r (freeLoop count t below) (freedLoop mem count t freed) := by
  induction count with
  | zero => exact ⟨fun _ _ => rfl, fun w hw => by cases hw⟩
  | succ count ih =>
      have ih := ih (fun i hi => hfree i (by omega)) (fun i hi => hbelow i (by omega))
      have hlast : count < count + 1 := Nat.lt_succ_self count
      have hsplit : freedLoop mem (count + 1) t freed = freedLoop mem count t freed ++
          if present (mem t count) then
            freed (tableOf (mem t count)) ++ [mem t count &&& ~~~0xFFF#64]
          else [] := by
        simp [freedLoop, List.range_succ]
      rw [hsplit]
      constructor
      · intro r' hkept
        have hkept' := ih.kept hkept
        have hword : (freeLoop count t below r').mem t count = mem t count := by
          rw [hkept'.mem t ht, hmem]
        have hstep : freeLoop (count + 1) t below r' =
            if present ((freeLoop count t below r').mem t count) then
              pmmFreePage
                (below (tableOf ((freeLoop count t below r').mem t count)) (freeLoop count t below r'))
                ((below (tableOf ((freeLoop count t below r').mem t count))
                  (freeLoop count t below r')).mem t count &&& ~~~0xFFF#64)
            else freeLoop count t below r' := by
          simp only [freeLoop, List.range_succ, List.foldl_append, List.foldl_cons, List.foldl_nil]
        rw [hstep, hword, List.foldl_append, ← ih.calls r' hkept]
        by_cases hpres : present (mem t count) = true
        · have hnext := hbelow count hlast hpres
          have hword' : (below (tableOf (mem t count)) (freeLoop count t below r')).mem t count =
              mem t count := by rw [(hnext.kept hkept').mem t ht, hmem]
          rw [if_pos hpres, if_pos hpres, hword', hnext.calls _ hkept', List.foldl_append]
          rfl
        · rw [if_neg hpres, if_neg hpres]
          rfl
      · intro w hw
        rcases List.mem_append.mp hw with hw | hw
        · exact ih.pages w hw
        · by_cases hpres : present (mem t count) = true
          · rw [if_pos hpres, List.mem_append, List.mem_singleton] at hw
            rcases hw with hw | rfl
            · exact (hbelow count hlast hpres).pages w hw
            · rw [pageMask_eq, pageAddr_div]
              · exact hfree count hlast hpres
              · exact (hfree count hlast hpres).1.trans (r.physical.trans_lt (by decide))
          · rw [if_neg hpres] at hw
            cases hw

/-- The tables below the lower half of a root lie outside of `H`, and its tables and pages may
be freed. -/
structure Removable (H : Set ℕ) (r : Machine) (mem : PhysMem) (root : ℕ) : Prop where
  tables : ∀ q t, LowerPath 3 q → descend codeNext mem root q = some t → t ∉ H
  pages : ∀ q x, LowerPath 4 q → descend codeNext mem root q = some x → Freeable r x

section Teardown

variable {p : List ℕ} (hr : Removable H r m.mem root) (hsim : Sim H r m)

include hr hsim

theorem Removable.level {below : ℕ → Machine → Machine} {freed : ℕ → List Word}
    (hp : LowerPath 3 p) (hreach : descend codeNext m.mem root p = some t) {count : ℕ}
    (hcount : ∀ i < count, LowerPath 4 (p ++ [i]))
    (hbelow : ∀ i s, LowerPath 4 (p ++ [i]) → descend codeNext m.mem root (p ++ [i]) = some s →
      Frees r (below s) (freed s)) :
    Frees r (freeLoop count t below) (freedLoop m.mem count t freed) := by
  have hnext : ∀ i, present (m.mem t i) = true →
      descend codeNext m.mem root (p ++ [i]) = some (tableOf (m.mem t i)) := by
    intro i hpres
    rw [descend_snoc, hreach, Option.bind_some, codeNext, if_pos hpres]
  have ht := hr.tables p t hp hreach
  refine Frees.loop (hsim.not_stores ht) (hsim.mem t ht) count ?_ ?_
  · exact fun i hi hpres => hr.pages _ _ (hcount i hi) (hnext i hpres)
  · exact fun i hi hpres => hbelow i _ (hcount i hi) (hnext i hpres)

omit hr hsim in
theorem lowerPath_snoc (hp : LowerPath 4 p) (hpos : 0 < p.length) (hlen : p.length < 4) :
    ∀ i < 512, LowerPath 4 (p ++ [i]) := by
  intro i hi
  refine ⟨⟨by rw [List.length_append, List.length_singleton]; omega, ?_⟩, ?_⟩
  · intro j hj
    rcases List.mem_append.mp hj with hj | hj
    · exact hp.1.2 j hj
    · rw [List.mem_singleton.mp hj]
      exact hi
  · cases p with
    | nil => cases hpos
    | cons k p => exact hp.2

theorem Removable.freePt (hp : LowerPath 4 p) (hlen : p.length = 3)
    (hreach : descend codeNext m.mem root p = some t) : Frees r (freePt t) (freedPt m.mem t) := by
  refine hr.level hsim (hp.of_le hlen.le) hreach (lowerPath_snoc hp (by omega) (by omega)) ?_
  exact fun _ _ _ _ => ⟨fun _ _ => rfl, fun w hw => by cases hw⟩

theorem Removable.freePd (hp : LowerPath 4 p) (hlen : p.length = 2)
    (hreach : descend codeNext m.mem root p = some t) : Frees r (freePd t) (freedPd m.mem t) := by
  refine hr.level hsim (hp.of_le (by omega)) hreach (lowerPath_snoc hp (by omega) (by omega)) ?_
  exact fun i s hq hs => hr.freePt hsim hq (by simp [hlen]) hs

theorem Removable.freePdpt (hp : LowerPath 4 p) (hlen : p.length = 1)
    (hreach : descend codeNext m.mem root p = some t) :
    Frees r (freePdpt t) (freedPdpt m.mem t) := by
  refine hr.level hsim (hp.of_le (by omega)) hreach (lowerPath_snoc hp (by omega) (by omega)) ?_
  exact fun i s hq hs => hr.freePd hsim hq (by simp [hlen]) hs

end Teardown

/-- A teardown whose tables and pages have nothing to do with the bitmap is the sequence of its
calls of `pmm_free_page`. -/
theorem Removable.freePagemap (hr : Removable H r m.mem (map.toNat / 4096)) (hsim : Sim H r m) :
    Frees r (fun r => vmmFreePagemap r map) (freedPages m map) := by
  by_cases hmap : map = 0#64
  · simp only [vmmFreePagemap, freedPages, if_pos hmap]
    exact ⟨fun _ _ => rfl, fun w hw => by cases hw⟩
  · have hcount : ∀ i < 256, LowerPath 4 ([] ++ [i]) := by
      intro i hi
      exact ⟨⟨by simp, by simpa using hi.trans (by decide)⟩, by simpa using hi⟩
    have hloop := hr.level hsim (lowerPath_nil 3) rfl hcount
      fun i s hq hs => hr.freePdpt hsim hq rfl hs
    simp only [vmmFreePagemap, freedPages, if_neg hmap]
    constructor
    · intro r' hkept
      rw [hloop.calls r' hkept, List.foldl_append]
      rfl
    · intro w hw
      rcases List.mem_append.mp hw with hw | hw
      · exact hloop.pages w hw
      · rw [List.mem_singleton.mp hw]
        exact hr.pages [] _ (lowerPath_nil 4) rfl

/-- The two machines after a teardown. -/
theorem Sim.freePagemap (h : Sim H r m) (hr : Removable H r m.mem (map.toNat / 4096)) :
    Sim H (vmmFreePagemap r map) (Memory.vmmFreePagemap m map) := by
  have hfrees := hr.freePagemap h
  rw [hfrees.calls r (.refl r), Memory.vmmFreePagemap_eq]
  exact h.freePages hfrees.pages

end LispDos.Raw
