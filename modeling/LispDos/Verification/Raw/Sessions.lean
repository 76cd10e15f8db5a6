import LispDos.Verification.Raw.Mapping

/-! # Tearing down beside the bitmap

While the pages of the bitmap are in use, the teardown of an address space returns what was
taken for it. -/

namespace LispDos.Raw

open Foundation Memory

variable {H : Set ℕ} {m₀ r r' : Machine} {m : Memory.Machine} {t n root : ℕ} {is L pages : List ℕ}
  {map v : Word} {taken : List Word} {mapped : List ℕ}

/-! ## The tables on the way -/

/-- The page that an allocation returns is free, or it is page 0. -/
theorem allocPage_page (m : Memory.Machine) : ∃ n < 2 ^ 40, m.allocPage.1 = pageAddr n ∧
    (n = 0 ∨ n ∈ clearPages m.pmm.bitmap m.pmm.highestPage) := by
  by_cases hok : m.allocPage.1 = 0#64
  · exact ⟨0, by decide, hok, .inl rfl⟩
  · obtain ⟨n, hn, haddr, takes⟩ := m.allocPage_some hok
    exact ⟨n, hn, haddr, .inr (takes.clear (Finset.mem_singleton_self n))⟩

theorem clearPages_openTable {m : Memory.Machine} {i x : ℕ}
    (hmissing : present (m.mem t i) = false)
    (hx : x ∈ clearPages (Memory.openTable m t i).2.pmm.bitmap
      (Memory.openTable m t i).2.pmm.highestPage) :
    x ∈ clearPages m.pmm.bitmap m.pmm.highestPage := by
  have hpmm : (Memory.openTable m t i).2.pmm = (Memory.pmmAllocPage m.pmm).2 := by
    simp [Memory.openTable, hmissing]
  rw [hpmm] at hx
  exact clearPages_sub (pmmAllocPage_cases m.cursor) hx

/-- Levels that begin in closed pages go through these, through page 0 and through pages that
were free. -/
theorem pathTables_closed (hclosed : Closed m.mem L) (ht : t ∈ L) :
    ∀ x ∈ pathTables m t is, x ∈ L ∨ x = 0 ∨ x ∈ clearPages m.pmm.bitmap m.pmm.highestPage := by
  induction is generalizing m t L with
  | nil =>
      intro x hx
      rw [pathTables, List.mem_singleton] at hx
      exact .inl (hx ▸ ht)
  | cons i is ih =>
      intro x hx
      rcases List.mem_cons.mp hx with rfl | hx
      · exact .inl ht
      by_cases hpres : present (m.mem t i) = true
      · rw [Memory.openTable_of_present hpres] at hx
        exact ih hclosed (hclosed t ht i hpres) x hx
      · have hmissing : present (m.mem t i) = false := by simpa using hpres
        obtain ⟨n, hn, haddr, hfree⟩ := allocPage_page m
        obtain ⟨hfst, -, hmem⟩ := Memory.openTable_of_missing hmissing hn haddr
        have hclosed' : Closed (Memory.openTable m t i).2.mem (n :: L) := by
          rw [hmem]
          exact hclosed.attach hn
        rw [hfst] at hx
        rcases ih hclosed' List.mem_cons_self x hx with hx | hx | hx
        · rcases List.mem_cons.mp hx with rfl | hx
          · exact .inr hfree
          · exact .inl hx
        · exact .inr (.inl hx)
        · exact .inr (.inr (clearPages_openTable hmissing hx))

/-- The tables that a mapping goes through are those on its way, page 0, and pages that were
free. -/
theorem mem_pathTables (hused : ∀ q s, q <+: is → descend codeNext m.mem t q = some s →
      s ≠ 0 ∧ s ∉ clearPages m.pmm.bitmap m.pmm.highestPage) :
    ∀ x ∈ pathTables m t is, (∃ q, q <+: is ∧ descend codeNext m.mem t q = some x) ∨ x = 0 ∨
      x ∈ clearPages m.pmm.bitmap m.pmm.highestPage := by
  induction is generalizing t with
  | nil =>
      intro x hx
      rw [pathTables, List.mem_singleton] at hx
      exact .inl ⟨[], List.nil_prefix, hx ▸ rfl⟩
  | cons i is ih =>
      intro x hx
      rcases List.mem_cons.mp hx with rfl | hx
      · exact .inl ⟨[], List.nil_prefix, rfl⟩
      by_cases hpres : present (m.mem t i) = true
      · have hnext : ∀ q, descend codeNext m.mem t (i :: q) =
            descend codeNext m.mem (tableOf (m.mem t i)) q := by
          intro q
          rw [descend, codeNext, if_pos hpres, Option.bind_some]
        have hpre : ∀ {q : List ℕ}, q <+: is → i :: q <+: i :: is :=
          fun hq => List.cons_prefix_cons.mpr ⟨rfl, hq⟩
        rw [Memory.openTable_of_present hpres] at hx
        have hrest := ih (fun q s hq hs => hused _ s (hpre hq) ((hnext q).trans hs)) x hx
        refine hrest.imp_left ?_
        rintro ⟨q, hq, hs⟩
        exact ⟨i :: q, hpre hq, (hnext q).trans hs⟩
      · have hmissing : present (m.mem t i) = false := by simpa using hpres
        obtain ⟨n, hn, haddr, hfree⟩ := allocPage_page m
        obtain ⟨hfst, -, hmem⟩ := Memory.openTable_of_missing hmissing hn haddr
        obtain ⟨ht0, htused⟩ := hused [] t List.nil_prefix rfl
        have hnt : n ≠ t := by
          rintro rfl
          exact hfree.elim ht0 htused
        have hclosed : Closed (Memory.openTable m t i).2.mem [n] := by
          intro y hy j hpres'
          rw [List.mem_singleton.mp hy, hmem, writeWord_clearTable _ _ _ hnt, not_present_zero] at hpres'
          cases hpres'
        rw [hfst] at hx
        right
        rcases pathTables_closed hclosed (List.mem_singleton_self n) x hx with hx | hx | hx
        · rwa [List.mem_singleton.mp hx]
        · exact .inl hx
        · exact .inr (clearPages_openTable hmissing hx)

/-- The paths to the tables on the way to an address of the lower half. -/
theorem lowerPath_tablePath {q : List ℕ} (hv : v.toNat < 2 ^ 47) (hq : q <+: tablePath v) :
    LowerPath 3 q := by
  have hpath := (lowerPath_indices hv)
  rw [indices_eq] at hpath
  obtain ⟨rest, hrest⟩ := hq
  have hlen := congrArg List.length hrest
  rw [List.length_append] at hlen
  exact (hrest ▸ hpath.of_append : LowerPath 4 (q ++ rest)).of_append.of_le
    (show q.length ≤ 3 from (Nat.le_add_right _ _).trans hlen.le)

/-- The tables that a mapping goes through lie outside of `H` when those on its way do, and no
page of `H` can be allocated. -/
theorem mapTables_off (hbad : ∀ x ∈ H, x ≠ 0 ∧ x ∉ clearPages m.pmm.bitmap m.pmm.highestPage)
    (htables : ∀ q s, q <+: tablePath v → descend codeNext m.mem (map.toNat / 4096) q = some s →
      s ≠ 0 ∧ s ∉ clearPages m.pmm.bitmap m.pmm.highestPage ∧ s ∉ H) :
    ∀ x ∈ mapTables m map v, x ∉ H := by
  intro x hx
  have hused := fun q s hq hs => (htables q s hq hs).imp_right And.left
  rcases mem_pathTables hused x hx with ⟨q, hq, hs⟩ | rfl | hclear
  · exact (htables q x hq hs).2.2
  · exact fun hin => (hbad 0 hin).1 rfl
  · exact fun hin => (hbad x hin).2 hclear

/-! ## Whole runs -/

/-- The machines that a session on the machine `m₀` can reach with all its allocations
successful: `vmm_new_pagemap`, and then pages that are allocated and mapped at pages of
the lower half that were not mapped before. The lists hold the results of all calls of
`pmm_alloc_page` and the numbers of the mapped pages. -/
inductive Session (m₀ : Machine) : Machine → Word → List Word → List ℕ → Prop where
  | new (hok : (vmmNewPagemap m₀).1 ≠ 0#64) :
      Session m₀ (vmmNewPagemap m₀).2 (vmmNewPagemap m₀).1 [(vmmNewPagemap m₀).1] []
  | map (m : Machine) (map v flags : Word) (taken : List Word) (mapped : List ℕ)
      (session : Session m₀ m map taken mapped) (hv : v.toNat < 2 ^ 47)
      (hnew : v.toNat / 4096 ∉ mapped) (hflags : flags.toNat < 4096)
      (hleaf : (pmmAllocPage m).1 ≠ 0#64)
      (htables : ∀ a ∈ mapAllocs (pmmAllocPage m).2 map v, a ≠ 0#64) :
      Session m₀ (vmmMapPage (pmmAllocPage m).2 map v (pmmAllocPage m).1 flags) map
        (taken ++ (pmmAllocPage m).1 :: mapAllocs (pmmAllocPage m).2 map v)
        (v.toNat / 4096 :: mapped)

theorem Session.sameBitmap (h : Session m₀ r map taken mapped) : SameBitmap m₀ r := by
  induction h with
  | new => exact vmmNewPagemap_sameBitmap m₀
  | map r map v flags taken mapped session hv hnew hflags hleaf htables ih =>
      exact ih.trans ((pmmAllocPage_kept r).sameBitmap.trans (vmmMapPage_sameBitmap _ _ _ _ _))

/-- Pages taken since a machine whose bitmap is in use hold no part of the bitmap. -/
theorem BitmapInUse.not_stores {p : Pmm} (h : BitmapInUse m₀) (took : Took m₀.apart.pmm p pages)
    {x : ℕ} (hx : x ∈ pages) : ¬ m₀.Stores x :=
  h.sim.clear (mem_clearPages.mpr ⟨took.below x hx, took.clear x hx⟩)

/-- A page that has been taken is not free. -/
theorem took_not_clear {p₀ p : Pmm} (took : Took p₀ p pages) {x : ℕ} (hx : x ∈ pages) :
    x ∉ clearPages p.bitmap p.highestPage := by
  rw [mem_clearPages, took.bits, decide_eq_true hx, Bool.true_or]
  exact fun h => absurd h.2 (by decide)

/-- A session goes on as one on the machine with its allocator apart. -/
theorem Session.sim (h : Session m₀ r map taken mapped) (hbitmap : BitmapApart m₀) :
    ∃ m, Sim {t | m₀.Stores t} r m ∧ Memory.Session m₀.apart m map taken mapped := by
  induction h with
  | new hok =>
      have hself : IsKernelTable m₀.apart m₀.kernelPml4 := ⟨[], ⟨by simp, by simp⟩, by simp, rfl⟩
      obtain ⟨hfst, hsim⟩ := hbitmap.toBitmapInUse.sim.newPagemap (hbitmap.kernel _ hself)
      rw [hfst] at hok ⊢
      exact ⟨_, hsim, .new hok⟩
  | map r map v flags taken mapped session hv hnew hflags hleaf htables ih =>
      obtain ⟨m, hsim, hsession⟩ := ih
      obtain ⟨hmap0, haddr, pages, rfl, hinv⟩ := hsession.inv
      obtain ⟨hfst, halloc⟩ := hsim.allocPage
      have hoff : ∀ s ∈ mapTables m.allocPage.2 map v, s ∉ {t | m₀.Stores t} := by
        apply mapTables_off
        · intro x hx
          have hx' := (session.sameBitmap.trans (pmmAllocPage_kept r).sameBitmap).stores_iff.mpr hx
          exact ⟨fun h0 => halloc.zero (h0 ▸ hx'), halloc.used x hx'⟩
        · intro q s hq hs
          have hpath := lowerPath_tablePath hv hq
          have hin := (hinv.tree.reach s).mp ⟨q, hpath.of_le (hpath.1.1.trans (by decide)), hs⟩
          refine ⟨?_, ?_, hbitmap.toBitmapInUse.not_stores hinv.took hin⟩
          · rintro rfl
            exact hsession.taken_ne_zero _ (List.mem_map_of_mem hin) rfl
          · exact fun hclear =>
              took_not_clear hinv.took hin (clearPages_sub (pmmAllocPage_cases m.cursor) hclear)
      have hallocs := halloc.mapAllocs_eq hoff
      have hmapped := halloc.mapPage hoff m.allocPage.1 flags
      rw [hallocs] at htables ⊢
      rw [hfst] at hleaf ⊢
      exact ⟨_, hmapped, .map m map v flags _ mapped hsession hv hnew hflags hleaf htables⟩

/-- While the pages of the bitmap are in use, tearing an address space down frees each page that
the session allocated once and no other, and it brings the bitmap and the counter back to
where they were. -/
theorem teardown_returns_taken (hbitmap : BitmapApart m₀) (h : Session m₀ r map taken mapped) :
    (∃ freed : List Word, vmmFreePagemap r map = freed.foldl pmmFreePage r ∧ freed.Perm taken) ∧
      taken.Nodup ∧
      (∀ i < m₀.pmmHighestPage, pageAddr i ∉ taken →
        bitmapTest r.bitmap i = bitmapTest m₀.bitmap i ∧
        bitmapTest (vmmFreePagemap r map).bitmap i = bitmapTest r.bitmap i) ∧
      (∀ i < m₀.pmmHighestPage,
        bitmapTest (vmmFreePagemap r map).bitmap i = bitmapTest m₀.bitmap i) ∧
      (vmmFreePagemap r map).pmmFreeMemory = m₀.pmmFreeMemory := by
  obtain ⟨m, hsim, hsession⟩ := h.sim hbitmap
  obtain ⟨-, hperm, hnodup, hothers, hrestored, hcounter⟩ := Memory.teardown_returns_all hsession
  obtain ⟨-, -, pages, -, hinv⟩ := hsession.inv
  have hsame := h.sameBitmap
  have hpages : ∀ q x, LowerPath 4 q → descend codeNext m.mem (map.toNat / 4096) q = some x →
      x ∈ pages := fun q x hq hx => (hinv.tree.reach x).mp ⟨q, hq, hx⟩
  have hremovable : Removable {t | m₀.Stores t} r m.mem (map.toNat / 4096) := by
    constructor
    · intro q t hq ht
      exact hbitmap.toBitmapInUse.not_stores hinv.took
        (hpages q t (hq.of_le (hq.1.1.trans (by decide))) ht)
    · intro q x hq hx
      have hin := hpages q x hq hx
      refine ⟨hsame.highest ▸ hinv.took.below x hin, ?_⟩
      exact fun hs => hbitmap.toBitmapInUse.not_stores hinv.took hin (hsame.stores_iff.mp hs)
  have hfrees := hremovable.freePagemap hsim
  have hafter := hsim.freePagemap hremovable
  have hkept := (hfrees.kept (.refl r)).sameBitmap
  have hbefore : ∀ i < m₀.pmmHighestPage,
      bitmapTest r.bitmap i = bitmapTest m.pmm.bitmap i :=
    fun i hi => hsim.alike.bits i (hsame.highest ▸ hi)
  have hlater : ∀ i < m₀.pmmHighestPage, bitmapTest (vmmFreePagemap r map).bitmap i =
      bitmapTest (Memory.vmmFreePagemap m map).pmm.bitmap i := by
    intro i hi
    exact hafter.alike.bits i (by rwa [hkept.highest, hsame.highest])
  refine ⟨⟨freedPages m map, hfrees.calls r (.refl r), hperm⟩, hnodup, ?_, ?_, ?_⟩
  · intro i hi hout
    rw [hbefore i hi, hlater i hi, (Alike.self m₀).bits i hi]
    exact hothers i hout
  · intro i hi
    rw [hlater i hi, hrestored, (Alike.self m₀).bits i hi]
  · rw [hafter.alike.free, hcounter]
    rfl

/-! ## A session on a free bitmap -/

/-- Nothing is freed below an empty table. -/
theorem freeLoop_empty {count : ℕ} {below : ℕ → Machine → Machine}
    (hempty : ∀ i, present (r.mem t i) = false) : freeLoop count t below r = r := by
  rw [freeLoop]
  induction List.range count with
  | nil => rfl
  | cons i is ih => simp only [List.foldl_cons, hempty i, Bool.false_eq_true, if_false, ih]

/-- The first allocation after `pmm_init` takes the page of the bitmap. `vmm_new_pagemap` clears
it, so nothing is in use any more, and the teardown frees nothing. -/
theorem session_loses_page : ∃ m₀ m map taken mapped, Session m₀ m map taken mapped ∧
    m₀.pmmFreeMemory = 24576#64 ∧ (vmmFreePagemap m map).pmmFreeMemory = 20480#64 := by
  have hnew : vmmNewPagemap (eightPages 1 (wordsAt [(1, 0, 0x11#64)]) 0 24576#64 (by decide)) =
      (pageAddr 1, eightPages 1 (wordsAt []) 1 20480#64 (by decide)) :=
    eightPages_new 1 0x11#64 0x13#64 (by decide) (by decide) (by decide) (by decide) (by decide)
      (by decide)
  have hsession := @Session.new (eightPages 1 (wordsAt [(1, 0, 0x11#64)]) 0 24576#64 (by decide))
  rw [hnew] at hsession
  refine ⟨_, _, _, _, _, hsession (show pageAddr 1 ≠ 0#64 by decide), rfl, ?_⟩
  have hroot : (pageAddr 1).toNat / 4096 = 1 := by decide
  rw [vmmFreePagemap, if_neg (by decide), hroot, freeLoop_empty fun _ => not_present_zero,
    pmmFreePage, hroot]
  have hclear : bitmapTest
      (eightPages 1 (wordsAt []) 1 20480#64 (by decide)).bitmap 1 = false := by decide
  simp only [hclear, Bool.false_eq_true, if_false]
  rfl

/-- A page of the safe machine, allocated for the new address space. -/
theorem safeMachine_leaf : pmmAllocPage (vmmNewPagemap safeMachine).2 =
    (pageAddr 2, eightPages 7 (wordsAt [(7, 0, 0x97#64), (7, 0, 0x93#64), (7, 0, 0x91#64)]) 2
      12288#64 (by decide)) := by
  rw [safeMachine_new]
  exact eightPages_alloc 2 (w := 0x93#64) (by decide) (by decide) (by decide) (by decide)

theorem safeMachine_session : Session safeMachine
    (vmmMapPage (pmmAllocPage (vmmNewPagemap safeMachine).2).2 (pageAddr 1) 0x1000#64
      (pmmAllocPage (vmmNewPagemap safeMachine).2).1 6#64) (pageAddr 1)
    ([pageAddr 1] ++ (pmmAllocPage (vmmNewPagemap safeMachine).2).1 ::
      mapAllocs (pmmAllocPage (vmmNewPagemap safeMachine).2).2 (pageAddr 1) 0x1000#64) [1] := by
  have hmap : (vmmNewPagemap safeMachine).1 = pageAddr 1 := by rw [safeMachine_new]
  have hnew := @Session.new safeMachine (by rw [hmap]; decide)
  rw [hmap] at hnew
  refine Session.map _ _ _ _ _ _ hnew (by decide) (by simp) (by decide) ?_ ?_
  · rw [safeMachine_leaf]
    decide
  · have hroot : (pageAddr 1).toNat / 4096 = 1 := by decide
    have hindices : tableIndex 0x1000#64 39 = 0 ∧ tableIndex 0x1000#64 30 = 0 ∧
        tableIndex 0x1000#64 21 = 0 := by decide
    obtain ⟨h₁, h₂, h₃⟩ := hindices
    have ho₁ : openTable (eightPages 7 (wordsAt [(7, 0, 0x97#64), (7, 0, 0x93#64),
          (7, 0, 0x91#64)]) 2 12288#64 (by decide)) 1 0 =
        (3, eightPages 7 (wordsAt [(1, 0, tableEntry 3), (7, 0, 0x9F#64), (7, 0, 0x97#64),
          (7, 0, 0x93#64), (7, 0, 0x91#64)]) 3 8192#64 (by decide)) :=
      eightPages_open 3 0x97#64 0x9F#64 (by decide) (by decide) (by decide) (by decide) (by decide)
    have ho₂ : openTable (eightPages 7 (wordsAt [(1, 0, tableEntry 3), (7, 0, 0x9F#64),
          (7, 0, 0x97#64), (7, 0, 0x93#64), (7, 0, 0x91#64)]) 3 8192#64 (by decide)) 3 0 =
        (5, eightPages 7 (wordsAt [(3, 0, tableEntry 5), (7, 0, 0xBF#64), (1, 0, tableEntry 3),
          (7, 0, 0x9F#64), (7, 0, 0x97#64), (7, 0, 0x93#64), (7, 0, 0x91#64)]) 5 4096#64
          (by decide)) :=
      eightPages_open 5 0x9F#64 0xBF#64 (by decide) (by decide) (by decide) (by decide) (by decide)
    rw [safeMachine_leaf]
    simp only [mapAllocs, hroot, h₁, h₂, h₃, ho₁, ho₂, List.mem_append]
    rintro a ((ha | ha) | ha)
    · exact eightPages_allocs 3 0x97#64 (by decide) (by decide) (by decide) (by decide) a ha
    · exact eightPages_allocs 5 0x9F#64 (by decide) (by decide) (by decide) (by decide) a ha
    · exact eightPages_allocs 6 0xBF#64 (by decide) (by decide) (by decide) (by decide) a ha

theorem teardown_returns_taken_safe :
    (vmmFreePagemap (vmmMapPage (pmmAllocPage (vmmNewPagemap safeMachine).2).2 (pageAddr 1)
      0x1000#64 (pmmAllocPage (vmmNewPagemap safeMachine).2).1 6#64) (pageAddr 1)).pmmFreeMemory =
      20480#64 :=
  (teardown_returns_taken safeMachine_bitmapApart safeMachine_session).2.2.2.2

end LispDos.Raw
