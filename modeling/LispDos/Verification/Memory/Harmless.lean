import LispDos.Verification.Memory.Placement

/-! # Harmless mappings

A mapping stays within its address space exactly if there are pages for the tables that it
needs. -/

namespace LispDos.Memory

open Foundation

variable {m m' : Machine} {mem : PhysMem} {root t i k n s : ℕ} {p is pages L : List ℕ}
  {map v page flags : Word} {taken : List Word}

/-! ## Pages for the tables -/

/-- The next `k` calls of `pmm_alloc_page` do not return NULL. -/
def HasPages : ℕ → Machine → Prop
  | 0, _ => True
  | k + 1, m => m.allocPage.1 ≠ 0#64 ∧ HasPages k m.allocPage.2

theorem Machine.allocPage_congr (h : m'.pmm = m.pmm) :
    m'.allocPage.1 = m.allocPage.1 ∧ m'.allocPage.2.pmm = m.allocPage.2.pmm :=
  ⟨congrArg (fun p => (pmmAllocPage p).1) h, congrArg (fun p => (pmmAllocPage p).2) h⟩

theorem hasPages_congr (h : m'.pmm = m.pmm) : HasPages k m' ↔ HasPages k m := by
  induction k generalizing m m' with
  | zero => rfl
  | succ k ih =>
      obtain ⟨hfst, hpmm⟩ := Machine.allocPage_congr h
      rw [HasPages, HasPages, hfst, ih hpmm]

theorem HasPages.ne_zero (h : HasPages (1 + k) m) : m.allocPage.1 ≠ 0#64 := by
  rw [Nat.add_comm, HasPages] at h
  exact h.1

/-- With page 0 in use this is a matter of counting. -/
theorem hasPages_iff (hzero : bitmapTest m.pmm.bitmap 0 = true) :
    HasPages k m ↔ k ≤ freePages m := by
  induction k generalizing m with
  | zero => simp [HasPages]
  | succ k ih =>
      rw [HasPages]
      obtain ⟨hfail, _, hfull⟩ | ⟨n, _, _, _, hok, takes, hleft⟩ := m.allocPage_cases hzero
      · rw [hfail, hfull]
        simp
      · have hzero' : bitmapTest m.allocPage.2.pmm.bitmap 0 = true := by
          rw [takes.bits, hzero, Bool.or_true]
        rw [ih hzero', and_iff_right hok]
        omega

/-- An allocation marks a page that was clear, or returns NULL. What was in use stays so. -/
theorem Machine.allocPage_used (m : Machine) (hs : bitmapTest m.pmm.bitmap s = true) :
    bitmapTest m.allocPage.2.pmm.bitmap s = true := by
  have hcase := pmmAllocPage_cases m.cursor
  rw [Machine.allocPage_pmm]
  generalize pmmAllocPage m.pmm = r at hcase ⊢
  cases hcase with
  | failed => exact hs
  | taken n p' _ takes => rw [takes.bits, hs, Bool.or_true]

/-! ## Stores -/

/-- The pages that one level of `vmm_map_page` stores into. -/
def openStores (m : Machine) (table idx : ℕ) : List ℕ :=
  if present (m.mem table idx) then [] else [m.allocPage.1.toNat / 4096, table]

def pathStores : Machine → ℕ → List ℕ → List ℕ
  | _, _, [] => []
  | m, t, i :: is => openStores m t i ++ pathStores (openTable m t i).2 (openTable m t i).1 is

/-- The pages that `vmm_map_page` stores into, the last one for the page itself. -/
def mapStores (m : Machine) (map vaddr : Word) : List ℕ :=
  pathStores m (map.toNat / 4096) (tablePath vaddr) ++
    [(openPath m (map.toNat / 4096) (tablePath vaddr)).1]

theorem openTable_frame (hs : s ∉ openStores m t i) : (openTable m t i).2.mem s = m.mem s := by
  by_cases hpres : present (m.mem t i) = true
  · rw [openTable_of_present hpres]
  · rw [openStores, if_neg hpres, List.mem_cons, List.mem_singleton, not_or] at hs
    funext j
    simp only [openTable, if_neg hpres, writeWord_apply, clearTable_apply, if_neg hs.1,
      if_neg (fun hboth : s = t ∧ j = i => hs.2 hboth.1), Machine.allocPage_mem]

theorem openPath_frame (hs : s ∉ pathStores m t is) : (openPath m t is).2.mem s = m.mem s := by
  induction is generalizing m t with
  | nil => rfl
  | cons i is ih =>
      rw [pathStores, List.mem_append, not_or] at hs
      rw [openPath, ih hs.2, openTable_frame hs.1]

/-- The other pages stay as they are. -/
theorem vmmMapPage_frame (hs : s ∉ mapStores m map v) :
    (vmmMapPage m map v page flags).mem s = m.mem s := by
  rw [mapStores, List.mem_append, List.mem_singleton, not_or] at hs
  rw [vmmMapPage_eq, ← openPath_frame hs.1]
  funext j
  simp only [writeWord_apply, if_neg (fun hboth : s = _ ∧ j = _ => hs.2 hboth.1)]

/-! ## Levels below page 0 -/

/-- The page that an allocation returns, page 0 if it returns NULL. -/
theorem Machine.allocPage_page (m : Machine) : ∃ n < 2 ^ 40, m.allocPage.1 = pageAddr n ∧
    (n = 0 ∨ bitmapTest m.pmm.bitmap n = false) := by
  by_cases hok : m.allocPage.1 = 0#64
  · exact ⟨0, by decide, hok, .inl rfl⟩
  · obtain ⟨n, hn, haddr, takes⟩ := m.allocPage_some hok
    exact ⟨n, hn, haddr, .inr (takes.test_eq_false (Finset.mem_singleton_self n))⟩

/-- Entries of the pages `L` lead to pages of `L` only. -/
def Closed (mem : PhysMem) (L : List ℕ) : Prop :=
  ∀ x ∈ L, ∀ j, present (mem x j) = true → tableOf (mem x j) ∈ L

/-- Entering a cleared page into a closed one. -/
theorem Closed.attach (h : Closed mem L) (hn : n < 2 ^ 40) :
    Closed (writeWord (clearTable mem n) s i (tableEntry n)) (n :: L) := by
  intro x hx j hpres
  rw [writeWord_apply, clearTable_apply] at hpres ⊢
  split
  · rw [tableOf_tableEntry (hn.trans (by decide))]
    exact List.mem_cons_self
  · rename_i hother
    rw [if_neg hother] at hpres
    split
    · rename_i hxn
      rw [if_pos hxn, not_present_zero] at hpres
      cases hpres
    · rename_i hxn
      rw [if_neg hxn] at hpres
      have hxL := (List.mem_cons.mp hx).resolve_left hxn
      exact List.mem_cons_of_mem _ (h x hxL j hpres)

/-- Levels that begin in closed pages only store into these, into page 0 and into pages
that were free. -/
theorem openPath_closed (is : List ℕ) (hclosed : Closed m.mem L) (hs : s ∈ L) :
    ∃ L' : List ℕ, (openPath m s is).1 ∈ L' ∧ (∀ x ∉ L', (openPath m s is).2.mem x = m.mem x) ∧
      ∀ x ∈ L', x ∈ L ∨ x = 0 ∨ bitmapTest m.pmm.bitmap x = false := by
  induction is generalizing m s L with
  | nil => exact ⟨L, hs, fun _ _ => rfl, fun _ hx => .inl hx⟩
  | cons i is ih =>
      by_cases hpres : present (m.mem s i) = true
      · rw [openPath, openTable_of_present hpres]
        exact ih hclosed (hclosed s hs i hpres)
      · have hmissing : present (m.mem s i) = false := by simpa using hpres
        obtain ⟨n, hn, haddr, hfree⟩ := m.allocPage_page
        obtain ⟨hfst, hpmm, hmem⟩ := openTable_of_missing hmissing hn haddr
        have hclosed' : Closed (openTable m s i).2.mem (n :: L) := by
          rw [hmem]
          exact hclosed.attach hn
        rw [openPath, hfst]
        obtain ⟨L', hbottom, hframe, hfrom⟩ := ih hclosed' List.mem_cons_self
        refine ⟨n :: s :: L', List.mem_cons_of_mem _ (List.mem_cons_of_mem _ hbottom), ?_, ?_⟩
        · intro x hx
          rw [List.mem_cons, List.mem_cons, not_or, not_or] at hx
          rw [hframe x hx.2.2, hmem]
          funext j
          rw [writeWord_apply, if_neg (fun hboth => hx.2.1 hboth.1), clearTable_apply, if_neg hx.1]
        · intro x hx
          rcases List.mem_cons.mp hx with rfl | hx
          · exact .inr hfree
          rcases List.mem_cons.mp hx with rfl | hx
          · exact .inl hs
          rcases hfrom x hx with hx | hx | hx
          · rcases List.mem_cons.mp hx with rfl | hx
            · exact .inr hfree
            · exact .inl hx
          · exact .inr (.inl hx)
          · right
            right
            by_contra hused
            have hused' := m.allocPage_used (s := x) (by simpa using hused)
            rw [hpmm, hused'] at hx
            cases hx

/-! ## Owned pages -/

/-- The tables of the lower half and the pages that they map are among `pages`, and these
and the tables of the upper half are in use. -/
structure Owns (m : Machine) (root : ℕ) (pages : List ℕ) : Prop where
  space : AddressSpace m.mem root
  tables : ∀ q x, LowerPath 3 q → descend hwTable m.mem root q = some x → x ∈ pages
  leaves : ∀ q t i, LowerPath 4 (q ++ [i]) → q.length = 3 →
    descend hwTable m.mem root q = some t → present (m.mem t i) = true → tableOf (m.mem t i) ∈ pages
  used : ∀ x ∈ pages, bitmapTest m.pmm.bitmap x = true
  kernel : ∀ x, IsTable m.mem root x → bitmapTest m.pmm.bitmap x = true
  not_zero : 0 ∉ pages
  small : ∀ x ∈ pages, x < 2 ^ 40

/-- The loops of the source and the processor find the same tables. -/
theorem Owns.codeNext_eq (h : Owns m root pages) {q : List ℕ} (hq : LowerPath 3 q) :
    descend codeNext m.mem root q = descend hwTable m.mem root q := by
  refine descend_congr LowerPath.init ?_ hq
  intro q j s hq hs
  by_cases hpres : present (m.mem s j) = true
  · obtain ⟨n, hn, hentry⟩ := h.space.entries q s j hq hs hpres
    rw [hentry, hwTable_tableEntry hn, codeNext_tableEntry (hn.trans (by decide))]
  · have hmissing : present (m.mem s j) = false := by simpa using hpres
    rw [hwTable_of_not_present hmissing, codeNext_of_not_present hmissing]

/-- A page that is allocated is none of the address space. -/
theorem Owns.fresh (h : Owns m root pages) (hclear : bitmapTest m.pmm.bitmap n = false) :
    n ∉ pages ∧ ¬ IsTable m.mem root n := by
  constructor
  · intro hn
    rw [h.used n hn] at hclear
    cases hclear
  · intro hn
    rw [h.kernel n hn] at hclear
    cases hclear

theorem Owns.ne_zero (h : Owns m root pages) (hp : LowerPath 3 p)
    (hreach : descend hwTable m.mem root p = some t) : t ≠ 0 := by
  rintro rfl
  exact h.not_zero (h.tables p 0 hp hreach)

/-- The address space after one level whose table is there or could be allocated. -/
structure Grows (m m' : Machine) (root : ℕ) (pages new p : List ℕ) (i table : ℕ) : Prop where
  owns : Owns m' root (pages ++ new)
  reach : descend hwTable m'.mem root (p ++ [i]) = some table
  paths : ∀ q, Path 3 q → q ≠ p ++ [i] →
    descend hwTable m'.mem root q = descend hwTable m.mem root q
  walks : ∀ u, walk m'.mem root u = walk m.mem root u

/-- A missing table is made on a page that was free. -/
theorem Owns.openLevel_new (h : Owns m root pages) (hpath : LowerPath 3 (p ++ [i]))
    (hreach : descend hwTable m.mem root p = some t) (hmissing : present (m.mem t i) = false)
    (hok : m.allocPage.1 ≠ 0#64) (hn : n < 2 ^ 40) (halloc : m.allocPage.1 = pageAddr n)
    (takes : Takes m.pmm m.allocPage.2.pmm {n}) :
    Grows m (openTable m t i).2 root pages [n] p i (openTable m t i).1 := by
  have hp := LowerPath.init p i hpath
  have hclear := takes.test_eq_false (Finset.mem_singleton_self n)
  obtain ⟨_, hnot⟩ := h.fresh hclear
  obtain ⟨hfst, hpmm, hmem⟩ := openTable_of_missing hmissing hn halloc
  have hdiv : m.allocPage.1.toNat / 4096 = n := by
    rw [halloc, pageAddr_div (hn.trans (by decide))]
  have hopened := h.space.openTable hpath hreach (fun _ => ⟨hok, by rwa [hdiv]⟩)
  have hfree : ∀ q, Path 3 q → descend hwTable m.mem root q ≠ some n :=
    fun q hq hs => hnot ⟨q, hq, hs⟩
  have hatt := attached_table (fun _ => hwTable_of_not_present) (hwTable_tableEntry hn) hp.1
    hreach hmissing hfree
  have hpaths : ∀ q, Path 3 q → q ≠ p ++ [i] →
      descend hwTable (openTable m t i).2.mem root q = descend hwTable m.mem root q := by
    intro q hq hne
    rw [hmem, hatt.descend_eq h.space.unshared Path.init hp hq, if_neg hne]
  have hused : ∀ x, bitmapTest m.pmm.bitmap x = true ∨ x = n →
      bitmapTest (openTable m t i).2.pmm.bitmap x = true := by
    intro x hx
    rw [hpmm, takes.bits]
    rcases hx with hx | rfl
    · rw [hx, Bool.or_true]
    · simp
  refine ⟨⟨hopened.space, ?_, ?_, ?_, ?_, ?_, ?_⟩, hopened.reach, hpaths, hopened.walks⟩
  · intro q x hq hx
    rw [List.mem_append, List.mem_singleton]
    by_cases heq : q = p ++ [i]
    · rw [heq, hopened.reach, hfst] at hx
      exact .inr (Option.some_inj.mp hx).symm
    · rw [hpaths q hq.1 heq] at hx
      exact .inl (h.tables q x hq hx)
  · intro q s j hq hlen hs hpres'
    have hq3 : LowerPath 3 q := (LowerPath.init q j hq).of_le (by omega)
    rw [List.mem_append]
    by_cases heq : q = p ++ [i]
    -- the new table is empty
    · have hnt : n ≠ t := fun heq => hnot ⟨p, hp.1, heq ▸ hreach⟩
      rw [heq, hopened.reach, hfst] at hs
      obtain rfl := Option.some_inj.mp hs
      rw [hmem, writeWord_clearTable _ _ _ hnt, not_present_zero] at hpres'
      cases hpres'
    · rw [hpaths q hq3.1 heq] at hs
      have hsn : s ≠ n := fun hsn => hfree q hq3.1 (hsn ▸ hs)
      have hst : s ≠ t := by
        rintro rfl
        obtain rfl := h.space.unshared p q s hp hq3.1 hreach hs
        have := hpath.1.1
        simp at this
        omega
      rw [hmem, writeWord_apply, if_neg (fun hboth => hst hboth.1), clearTable_apply,
        if_neg hsn] at hpres' ⊢
      exact .inl (h.leaves q s j hq hlen hs hpres')
  · intro x hx
    rw [List.mem_append, List.mem_singleton] at hx
    exact hused x (hx.imp_left (h.used x))
  · intro x hx
    rcases hopened.tables x hx with hx | rfl
    · exact hused x (.inl (h.kernel x hx))
    · exact hused _ (.inr hfst)
  · rw [List.mem_append, List.mem_singleton, not_or]
    refine ⟨h.not_zero, ?_⟩
    rintro rfl
    exact hok halloc
  · intro x hx
    rcases List.mem_append.mp hx with hx | hx
    · exact h.small x hx
    · rwa [List.mem_singleton.mp hx]

theorem Owns.openLevel (h : Owns m root pages) (hpath : LowerPath 3 (p ++ [i]))
    (hreach : descend hwTable m.mem root p = some t)
    (hok : present (m.mem t i) = false → m.allocPage.1 ≠ 0#64) :
    ∃ new : List ℕ, openAllocs m t i = new.map pageAddr ∧ 0 ∉ openStores m t i ∧
      Grows m (openTable m t i).2 root pages new p i (openTable m t i).1 := by
  by_cases hpres : present (m.mem t i) = true
  · refine ⟨[], by simp [openAllocs, hpres], by simp [openStores, hpres], ?_⟩
    obtain ⟨n, hn, hentry⟩ := h.space.entries p t i hpath hreach hpres
    rw [openTable_of_present hpres, hentry, tableOf_tableEntry (hn.trans (by decide))]
    refine ⟨by simpa using h, ?_, fun _ _ _ => rfl, fun _ => rfl⟩
    rw [descend_snoc, hreach, Option.bind_some, hentry, hwTable_tableEntry hn]
  · have hmissing : present (m.mem t i) = false := by simpa using hpres
    obtain ⟨n, hn, halloc, takes⟩ := m.allocPage_some (hok hmissing)
    have hdiv : m.allocPage.1.toNat / 4096 = n := by
      rw [halloc, pageAddr_div (hn.trans (by decide))]
    have ht0 := h.ne_zero (LowerPath.init p i hpath) hreach
    have hn0 : n ≠ 0 := by
      rintro rfl
      exact hok hmissing halloc
    refine ⟨[n], by simp [openAllocs, hmissing, halloc], ?_,
      h.openLevel_new hpath hreach hmissing (hok hmissing) hn halloc takes⟩
    simp [openStores, hmissing, hdiv, ht0.symm, hn0.symm]

/-! ## The levels above the last -/

theorem hasPages_openTable : HasPages ((if present (m.mem t i) then 0 else 1) + k) m ↔
    (present (m.mem t i) = false → m.allocPage.1 ≠ 0#64) ∧ HasPages k (openTable m t i).2 := by
  by_cases hpres : present (m.mem t i) = true
  · rw [if_pos hpres, Nat.zero_add, openTable_of_present hpres, hpres]
    simp
  · have hmissing : present (m.mem t i) = false := by simpa using hpres
    have hpmm : (openTable m t i).2.pmm = m.allocPage.2.pmm := by simp [openTable, hmissing]
    rw [if_neg hpres, Nat.add_comm, HasPages, hasPages_congr hpmm]
    simp [hmissing]

theorem lowerPath_assoc {d : ℕ} (hpath : LowerPath d (p ++ i :: is)) :
    LowerPath d (p ++ [i] ++ is) ∧ LowerPath d (p ++ [i]) := by
  have hsplit : p ++ i :: is = p ++ [i] ++ is := by simp
  rw [hsplit] at hpath
  exact ⟨hpath, hpath.of_append⟩

/-- A level needs a page for its table, and those below it need what they needed. -/
theorem Owns.missing_cons {new : List ℕ} {table : ℕ} (h : Owns m root pages)
    (hpath : LowerPath 3 (p ++ i :: is)) (hreach : descend hwTable m.mem root p = some t)
    (hgrows : Grows m m' root pages new p i table) :
    missingTables m.mem root p (i :: is) =
      (if present (m.mem t i) then 0 else 1) + missingTables m'.mem root (p ++ [i]) is := by
  obtain ⟨hassoc, hlevel⟩ := lowerPath_assoc hpath
  have hbelow : missingTables m'.mem root (p ++ [i]) is = missingTables m.mem root (p ++ [i]) is := by
    apply missingTables_congr
    intro r hr hpre
    have hr3 : LowerPath 3 (p ++ [i] ++ r) := by
      obtain ⟨rest, rfl⟩ := hpre
      rw [← List.append_assoc] at hassoc
      exact hassoc.of_append
    rw [hgrows.owns.codeNext_eq hr3, h.codeNext_eq hr3, hgrows.paths _ hr3.1 (by simpa using hr)]
  have hnext : (descend codeNext m.mem root (p ++ [i])).isSome = present (m.mem t i) := by
    have hp := LowerPath.init p i hlevel
    rw [descend_snoc, h.codeNext_eq hp, hreach, Option.bind_some, codeNext]
    split <;> simp [*]
  rw [hbelow, missingTables, hnext]

/-- The address space after the levels along a path, when there were pages for the tables. -/
structure GrowsPath (m m' : Machine) (root : ℕ) (pages new p is : List ℕ) (table : ℕ) : Prop where
  owns : Owns m' root (pages ++ new)
  reach : descend hwTable m'.mem root (p ++ is) = some table
  walks : ∀ u, walk m'.mem root u = walk m.mem root u

theorem Owns.openLevels (h : Owns m root pages) (is : List ℕ) (hpath : LowerPath 3 (p ++ is))
    (hreach : descend hwTable m.mem root p = some t)
    (hpages : HasPages (missingTables m.mem root p is) m) :
    ∃ new : List ℕ, pathAllocs m t is = new.map pageAddr ∧ 0 ∉ pathStores m t is ∧
      GrowsPath m (openPath m t is).2 root pages new p is (openPath m t is).1 := by
  induction is generalizing m p t pages with
  | nil =>
      refine ⟨[], rfl, by simp [pathStores], ?_, ?_, fun _ => rfl⟩
      · simpa [openPath] using h
      · simpa [openPath] using hreach
  | cons i is ih =>
      obtain ⟨hassoc, hlevel⟩ := lowerPath_assoc hpath
      have hok : present (m.mem t i) = false → m.allocPage.1 ≠ 0#64 := by
        intro hmissing
        have hnone : descend codeNext m.mem root (p ++ [i]) = none := by
          rw [descend_snoc, h.codeNext_eq (LowerPath.init p i hlevel), hreach, Option.bind_some,
            codeNext_of_not_present hmissing]
        rw [missingTables, hnone, Option.isSome_none, if_neg (by simp)] at hpages
        exact hpages.ne_zero
      obtain ⟨new, hallocs, hstores, hgrows⟩ := h.openLevel hlevel hreach hok
      rw [h.missing_cons hpath hreach hgrows, hasPages_openTable] at hpages
      obtain ⟨new', hallocs', hstores', hpath'⟩ := ih hgrows.owns hassoc hgrows.reach hpages.2
      refine ⟨new ++ new', by rw [pathAllocs, hallocs, hallocs', List.map_append], ?_, ?_, ?_, ?_⟩
      · rw [pathStores, List.mem_append, not_or]
        exact ⟨hstores, hstores'⟩
      · rw [openPath, ← List.append_assoc]
        exact hpath'.owns
      · have hreach' := hpath'.reach
        rwa [List.append_assoc, List.singleton_append] at hreach'
      · intro u
        rw [openPath, hpath'.walks, hgrows.walks]

/-- The first level that finds no page for its table enters page 0, and nothing that follows
changes this. -/
theorem Owns.fails (h : Owns m root pages) (hpath : LowerPath 3 (p ++ i :: is))
    (hreach : descend hwTable m.mem root p = some t) (hmissing : present (m.mem t i) = false)
    (hnull : m.allocPage.1 = 0#64)
    (hsame : ∀ x, x ≠ (openPath m t (i :: is)).1 → mem x = (openPath m t (i :: is)).2.mem x) :
    descend codeNext mem root (p ++ [i]) = some 0 := by
  obtain ⟨_, hlevel⟩ := lowerPath_assoc hpath
  have hp := LowerPath.init p i hlevel
  obtain ⟨hfst, hpmm, hmem⟩ := openTable_of_missing hmissing (n := 0) (by decide) hnull
  have ht0 := h.ne_zero hp hreach
  rw [openPath, hfst] at hsame
  have hclosed : Closed (openTable m t i).2.mem [0] := by
    intro x hx j hpres
    rw [List.mem_singleton.mp hx, hmem, writeWord_clearTable _ _ _ ht0.symm, not_present_zero] at hpres
    cases hpres
  obtain ⟨L, hbottom, hframe, hfrom⟩ := openPath_closed is hclosed (List.mem_singleton_self 0)
  -- the tables on the way are in use
  have hway : ∀ x ∈ pages, mem x = (openTable m t i).2.mem x := by
    intro x hx
    have hxL : x ∉ L := by
      intro hxL
      have hused := m.allocPage_used (h.used x hx)
      rcases hfrom x hxL with hz | rfl | hclear
      · exact h.not_zero (List.mem_singleton.mp hz ▸ hx)
      · exact h.not_zero hx
      · rw [hpmm, hused] at hclear
        cases hclear
    rw [hsame x (fun heq => hxL (heq ▸ hbottom)), hframe x hxL]
  have hdown : descend codeNext mem root p = descend codeNext m.mem root p := by
    refine descend_congr (V := fun q => q <+: p)
      (fun q j hq => (List.prefix_append q [j]).trans hq) ?_ (List.prefix_refl p)
    intro q j s hq hs
    have hq3 := hp.of_snoc_prefix hq
    rw [h.codeNext_eq hq3] at hs
    have hst : s ≠ t := by
      rintro rfl
      obtain rfl := h.space.unshared p q s hp hq3.1 hreach hs
      have hlong := hq.length_le
      rw [List.length_append, List.length_singleton] at hlong
      omega
    rw [hway s (h.tables q s hq3 hs), hmem, writeWord_apply, if_neg (fun hboth => hst hboth.1),
      clearTable_apply, if_neg (h.ne_zero hq3 hs)]
  rw [descend_snoc, hdown, h.codeNext_eq hp, hreach, Option.bind_some,
    hway t (h.tables p t hp hreach), hmem, writeWord_apply, if_pos ⟨rfl, rfl⟩,
    codeNext_tableEntry (by decide)]

theorem Owns.openLevels_fail (h : Owns m root pages) (is : List ℕ) (hpath : LowerPath 3 (p ++ is))
    (hreach : descend hwTable m.mem root p = some t)
    (hfail : ¬ HasPages (missingTables m.mem root p is) m) :
    0 ∈ pathStores m t is ∧ ∃ q, LowerPath 3 q ∧
      ∀ mem : PhysMem, (∀ x, x ≠ (openPath m t is).1 → mem x = (openPath m t is).2.mem x) →
        descend codeNext mem root q = some 0 := by
  induction is generalizing m p t pages with
  | nil => exact (hfail trivial).elim
  | cons i is ih =>
      obtain ⟨hassoc, hlevel⟩ := lowerPath_assoc hpath
      by_cases hok : present (m.mem t i) = false → m.allocPage.1 ≠ 0#64
      · obtain ⟨new, _, _, hgrows⟩ := h.openLevel hlevel hreach hok
        rw [h.missing_cons hpath hreach hgrows, hasPages_openTable] at hfail
        obtain ⟨hstores, hleads⟩ := ih hgrows.owns hassoc hgrows.reach (fun hb => hfail ⟨hok, hb⟩)
        exact ⟨List.mem_append_right _ hstores, hleads⟩
      · rw [Classical.not_imp, not_not] at hok
        obtain ⟨hmissing, hnull⟩ := hok
        refine ⟨?_, p ++ [i], hlevel, fun mem => h.fails hpath hreach hmissing hnull⟩
        rw [pathStores, openStores, if_neg (by simpa using hmissing), hnull]
        simp

/-! ## The last store -/

theorem Owns.storeLeaf (h : Owns m root pages) (hpath : LowerPath 4 (p ++ [i])) (hlen : p.length = 3)
    (hreach : descend hwTable m.mem root p = some t) (w : Word) (hin : tableOf w ∈ pages) :
    Owns { m with mem := writeWord m.mem t i w } root pages ∧
      ∀ u, walk (writeWord m.mem t i w) root u =
        if indices u = p ++ [i] then hwLeaf 0 w else walk m.mem root u := by
  have hp3 : LowerPath 3 p := (LowerPath.init p i hpath).of_le hlen.le
  obtain ⟨hspace, hwalks⟩ := h.space.storeLeaf (i := i) hp3 hlen hreach w
  have hdescend : ∀ q, Path 3 q →
      descend hwTable (writeWord m.mem t i w) root q = descend hwTable m.mem root q := by
    intro q hq
    refine descend_congr Path.init ?_ hq
    intro r j s hr hs
    have hst : s ≠ t := by
      rintro rfl
      obtain rfl := h.space.unshared p r s hp3 (Path.init r j hr) hreach hs
      have := hr.1
      simp at this
      omega
    rw [writeWord_apply, if_neg (fun hboth => hst hboth.1)]
  refine ⟨⟨hspace, ?_, ?_, h.used, ?_, h.not_zero, h.small⟩, hwalks⟩
  · intro q x hq hx
    exact h.tables q x hq ((hdescend q hq.1).symm.trans hx)
  · intro q s j hq hlenq hs hpres
    rw [hdescend q (LowerPath.init q j hq |>.of_le hlenq.le).1] at hs
    simp only [writeWord_apply] at hpres ⊢
    split
    · exact hin
    · rename_i hother
      rw [if_neg hother] at hpres
      exact h.leaves q s j hq hlenq hs hpres
  · rintro x ⟨q, hq, hx⟩
    exact h.kernel x ⟨q, hq, (hdescend q hq).symm.trans hx⟩

/-- What the loops of `vmm_free_pagemap` free is owned. -/
theorem Owns.reach_mem (h : Owns m root pages) {q : List ℕ} (hq : LowerPath 4 q)
    (hn : descend codeNext m.mem root q = some n) : n ∈ pages := by
  by_cases hlen : q.length ≤ 3
  · have hq3 := hq.of_le hlen
    exact h.tables q n hq3 ((h.codeNext_eq hq3).symm.trans hn)
  · induction q using List.reverseRecOn with
    | nil => exact (hlen (by simp)).elim
    | append_singleton q j _ =>
        have hfour := hq.1.1
        rw [List.length_append, List.length_singleton] at hlen hfour
        have hq3 : LowerPath 3 q := (LowerPath.init q j hq).of_le (by omega)
        rw [descend_snoc, h.codeNext_eq hq3] at hn
        obtain ⟨s, hs, hnext⟩ := Option.bind_eq_some_iff.mp hn
        rw [codeNext] at hnext
        split at hnext
        · rename_i hpres
          rw [← Option.some_inj.mp hnext]
          exact h.leaves q s j hq (by omega) hs hpres
        · cases hnext

theorem Owns.root_mem (h : Owns m root pages) : root ∈ pages :=
  h.tables [] root (lowerPath_nil 3) rfl

theorem Owns.root_div (h : Owns m root pages) : (pageAddr root).toNat / 4096 = root :=
  pageAddr_div ((h.small root h.root_mem).trans (by decide))

theorem Owns.addr_ne_zero (h : Owns m root pages) (hn : n ∈ pages) : pageAddr n ≠ 0#64 := by
  intro hz
  have hdiv := pageAddr_div ((h.small n hn).trans (by decide))
  rw [hz] at hdiv
  obtain rfl : 0 = n := hdiv
  exact h.not_zero hn

theorem Owns.freed (h : Owns m root pages) :
    ∀ a ∈ freedPages m (pageAddr root), a ≠ 0#64 ∧ a ∈ pages.map pageAddr := by
  have hpages : ∀ n ∈ pages, pageAddr n ≠ 0#64 ∧ pageAddr n ∈ pages.map pageAddr :=
    fun n hn => ⟨h.addr_ne_zero hn, List.mem_map_of_mem hn⟩
  intro a ha
  rw [freedPages_eq (h.addr_ne_zero h.root_mem), h.root_div, List.mem_append,
    List.mem_singleton] at ha
  rcases ha with ha | rfl
  · obtain ⟨n, hn, rfl⟩ := List.mem_map.mp ha
    obtain ⟨j, q, hq, hdesc⟩ := (mem_subtables 4 256 root n).mp hn
    exact hpages n (h.reach_mem (below_iff_lowerPath.mp hq) hdesc)
  · exact hpages root h.root_mem

/-! ## Harmless calls -/

/-- A call of `vmm_map_page` for the page at `v`, when the pages `taken` have been allocated
for the address space: it does not store into page 0, afterwards no entry leads to page 0,
all other translations are as before, and `vmm_free_pagemap` would free pages allocated for
the address space only. -/
structure Harmless (m : Machine) (map v page flags : Word) (taken : List Word) : Prop where
  unwritten : 0 ∉ mapStores m map v
  no_entry : ∀ q, LowerPath 4 q →
    descend codeNext (vmmMapPage m map v page flags).mem (map.toNat / 4096) q ≠ some 0
  others : ∀ u, Canonical u → ¬ SamePage u v →
    walk (vmmMapPage m map v page flags).mem (map.toNat / 4096) u = walk m.mem (map.toNat / 4096) u
  frees : ∀ a ∈ freedPages (vmmMapPage m map v page flags) map,
    a ≠ 0#64 ∧ a ∈ taken ++ mapAllocs m map v

/-- A call that finds pages for its tables keeps the invariant and changes the translations of
one page. -/
theorem Owns.mapPage (h : Owns m root pages) (hn : n ∈ pages) (hv : v.toNat < 2 ^ 47)
    (hflags : flags.toNat < 4096)
    (hpages : HasPages (missingTables m.mem root [] (tablePath v)) m) :
    ∃ new : List ℕ, mapAllocs m (pageAddr root) v = new.map pageAddr ∧
      0 ∉ mapStores m (pageAddr root) v ∧
      Owns (vmmMapPage m (pageAddr root) v (pageAddr n) flags) root (pages ++ new) ∧
      ∀ u, walk (vmmMapPage m (pageAddr root) v (pageAddr n) flags).mem root u =
        if indices u = indices v then hwLeaf 0 (leafEntry (pageAddr n) flags)
        else walk m.mem root u := by
  have hindices := lowerPath_indices hv
  rw [indices_eq] at hindices
  have htables : LowerPath 3 ([] ++ tablePath v) := hindices.of_append.of_le (by simp [tablePath])
  obtain ⟨new, hallocs, hstores, hpath⟩ := h.openLevels (tablePath v) htables rfl hpages
  have hin : tableOf (leafEntry (pageAddr n) flags) ∈ pages ++ new := by
    rw [tableOf_leafEntry ((h.small n hn).trans (by decide)) hflags]
    exact List.mem_append_left new hn
  obtain ⟨howns, hwalks⟩ := hpath.owns.storeLeaf hindices rfl hpath.reach _ hin
  rw [mapAllocs_eq, mapStores, vmmMapPage_eq, h.root_div]
  refine ⟨new, hallocs, ?_, howns, ?_⟩
  · rw [List.mem_append, List.mem_singleton, not_or]
    exact ⟨hstores, (hpath.owns.ne_zero htables hpath.reach).symm⟩
  · intro u
    rw [indices_eq v, ← hpath.walks u]
    exact hwalks u

/-- A call that does not find them leaves an entry for page 0. -/
theorem Owns.mapPage_fails (h : Owns m root pages) (page flags : Word) (hv : v.toNat < 2 ^ 47)
    (hfail : ¬ HasPages (missingTables m.mem root [] (tablePath v)) m) :
    0 ∈ mapStores m (pageAddr root) v ∧ ∃ q, LowerPath 4 q ∧
      descend codeNext (vmmMapPage m (pageAddr root) v page flags).mem root q = some 0 := by
  have hindices := lowerPath_indices hv
  rw [indices_eq] at hindices
  have htables : LowerPath 3 ([] ++ tablePath v) := hindices.of_append.of_le (by simp [tablePath])
  obtain ⟨hstores, q, hq, hleads⟩ := h.openLevels_fail (tablePath v) htables rfl hfail
  rw [mapStores, vmmMapPage_eq, h.root_div]
  refine ⟨List.mem_append_left _ hstores, q, hq.of_le (hq.1.1.trans (by decide)), hleads _ ?_⟩
  intro x hx
  funext j
  simp only [writeWord_apply, if_neg (fun hboth : x = _ ∧ _ => hx hboth.1)]

theorem Owns.harmless_iff (h : Owns m root pages) (hn : n ∈ pages) (hv : v.toNat < 2 ^ 47)
    (hflags : flags.toNat < 4096) :
    Harmless m (pageAddr root) v (pageAddr n) flags (pages.map pageAddr) ↔
      HasPages (missingTables m.mem root [] (tablePath v)) m := by
  constructor
  · intro hharmless
    by_contra hfail
    obtain ⟨_, q, hq, hzero⟩ := h.mapPage_fails (pageAddr n) flags hv hfail
    refine hharmless.no_entry q hq ?_
    rwa [h.root_div]
  · intro hpages
    obtain ⟨new, hallocs, hstores, howns, hwalks⟩ := h.mapPage hn hv hflags hpages
    refine ⟨hstores, ?_, ?_, ?_⟩
    · intro q hq hzero
      rw [h.root_div] at hzero
      exact howns.not_zero (howns.reach_mem hq hzero)
    · intro u hu hother
      rw [h.root_div, hwalks u, if_neg]
      exact fun hsame => hother (samePage_of_indices hu hv hsame)
    · rw [hallocs, ← List.map_append]
      exact howns.freed

/-! ## Whole runs -/

/-- The address spaces that a run can build, with the results of all calls of
`pmm_alloc_page` made for them: a new one, when the tables of the kernel are in use; calls of
`vmm_map_page` for the lower half, each with a page allocated for it, for whose tables there
are pages; and anything that leaves its tables alone and its pages in use. -/
inductive Space : Machine → Word → List Word → Prop where
  | new (m : Machine) (hkernel : ∀ t, IsKernelTable m t → bitmapTest m.pmm.bitmap t = true)
      (hok : (vmmNewPagemap m).1 ≠ 0#64) :
      Space (vmmNewPagemap m).2 (vmmNewPagemap m).1 [(vmmNewPagemap m).1]
  | map (m : Machine) (map v flags : Word) (taken : List Word) (space : Space m map taken)
      (hv : v.toNat < 2 ^ 47) (hflags : flags.toNat < 4096) (hleaf : m.allocPage.1 ≠ 0#64)
      (hpages : HasPages (missingTables m.mem (map.toNat / 4096) [] (tablePath v)) m.allocPage.2) :
      Space (vmmMapPage m.allocPage.2 map v m.allocPage.1 flags) map
        (taken ++ [m.allocPage.1] ++ mapAllocs m.allocPage.2 map v)
  | other (m m' : Machine) (map : Word) (taken : List Word) (space : Space m map taken)
      (hused : ∀ x, pageAddr x ∈ taken ∨ IsTable m.mem (map.toNat / 4096) x →
        bitmapTest m'.pmm.bitmap x = true)
      (hsame : ∀ t, IsTable m.mem (map.toNat / 4096) t → m'.mem t = m.mem t) : Space m' map taken

theorem Owns.take (h : Owns m root pages) (hok : m.allocPage.1 ≠ 0#64) :
    ∃ n, m.allocPage.1 = pageAddr n ∧ Owns m.allocPage.2 root (pages ++ [n]) := by
  obtain ⟨n, hn, haddr, takes⟩ := m.allocPage_some hok
  refine ⟨n, haddr, h.space, ?_, ?_, ?_, fun x hx => m.allocPage_used (h.kernel x hx), ?_, ?_⟩
  · exact fun q x hq hx => List.mem_append_left _ (h.tables q x hq hx)
  · exact fun q t i hq hlen ht hpres => List.mem_append_left _ (h.leaves q t i hq hlen ht hpres)
  · intro x hx
    rcases List.mem_append.mp hx with hx | hx
    · exact m.allocPage_used (h.used x hx)
    · rw [takes.bits, List.mem_singleton.mp hx]
      simp
  · rw [List.mem_append, List.mem_singleton, not_or]
    refine ⟨h.not_zero, ?_⟩
    rintro rfl
    exact hok haddr
  · intro x hx
    rcases List.mem_append.mp hx with hx | hx
    · exact h.small x hx
    · rwa [List.mem_singleton.mp hx]

theorem Owns.other (h : Owns m root pages)
    (hused : ∀ x, x ∈ pages ∨ IsTable m.mem root x → bitmapTest m'.pmm.bitmap x = true)
    (hsame : ∀ x, IsTable m.mem root x → m'.mem x = m.mem x) : Owns m' root pages := by
  have hdescend : ∀ q, Path 3 q → descend hwTable m'.mem root q = descend hwTable m.mem root q :=
    fun q hq => descend_congr Path.init
      (fun r j s hr hs => by rw [hsame s ⟨r, Path.init r j hr, hs⟩]) hq
  refine ⟨h.space.congr hsame, ?_, ?_, fun x hx => hused x (.inl hx), ?_, h.not_zero, h.small⟩
  · intro q x hq hx
    exact h.tables q x hq ((hdescend q hq.1).symm.trans hx)
  · intro q t i hq hlen ht hpres
    have hq3 : LowerPath 3 q := (LowerPath.init q i hq).of_le hlen.le
    rw [hdescend q hq3.1] at ht
    rw [hsame t ⟨q, hq3.1, ht⟩] at hpres ⊢
    exact h.leaves q t i hq hlen ht hpres
  · rintro x ⟨q, hq, hx⟩
    rw [hdescend q hq] at hx
    exact hused x (.inr ⟨q, hq, hx⟩)

theorem owns_new (hkernel : ∀ t, IsKernelTable m t → bitmapTest m.pmm.bitmap t = true)
    (hok : (vmmNewPagemap m).1 ≠ 0#64) :
    ∃ n, (vmmNewPagemap m).1 = pageAddr n ∧ Owns (vmmNewPagemap m).2 n [n] := by
  obtain ⟨n, hn, haddr, hmem, hpmm, takes⟩ := vmmNewPagemap_mem hok
  have hclear := takes.test_eq_false (Finset.mem_singleton_self n)
  have hfresh : ¬ IsKernelTable m n := by
    intro hin
    rw [hkernel n hin] at hclear
    cases hclear
  have hlower : ∀ i q, i < 256 → descend hwTable (vmmNewPagemap m).2.mem n (i :: q) = none := by
    intro i q hi
    simp only [hmem, descend, new_lower m n hi, hwTable_of_not_present not_present_zero,
      Option.bind_none]
  have hused : ∀ x, bitmapTest m.pmm.bitmap x = true ∨ x = n →
      bitmapTest (vmmNewPagemap m).2.pmm.bitmap x = true := by
    intro x hx
    rw [hpmm, takes.bits]
    rcases hx with hx | rfl
    · rw [hx, Bool.or_true]
    · simp
  refine ⟨n, haddr, by rw [hmem]; exact addressSpace_new hfresh, ?_, ?_, ?_, ?_, ?_, ?_⟩
  · intro q x hq hx
    cases q with
    | nil =>
        rw [← Option.some_inj.mp hx]
        exact List.mem_singleton_self n
    | cons i q =>
        rw [hlower i q (hq.2 i (by simp))] at hx
        cases hx
  · intro q t j hq hlen ht
    cases q with
    | nil => cases hlen
    | cons i q =>
        rw [hlower i q (hq.2 i (by simp))] at ht
        cases ht
  · intro x hx
    exact hused x (.inr (List.mem_singleton.mp hx))
  · intro x hx
    rw [hmem] at hx
    exact hused x ((isTable_new hfresh hx).symm.imp_left (hkernel x))
  · rw [List.mem_singleton]
    rintro rfl
    exact hok haddr
  · intro x hx
    rwa [List.mem_singleton.mp hx]

/-- The invariant holds in every state of a run. -/
theorem Space.owns (h : Space m map taken) :
    ∃ root pages, map = pageAddr root ∧ taken = pages.map pageAddr ∧ Owns m root pages := by
  induction h with
  | new m hkernel hok =>
      obtain ⟨n, haddr, howns⟩ := owns_new hkernel hok
      exact ⟨n, [n], haddr, by rw [haddr]; rfl, howns⟩
  | map m map v flags taken space hv hflags hleaf hpages ih =>
      obtain ⟨root, pages, rfl, rfl, howns⟩ := ih
      obtain ⟨n, haddr, htake⟩ := howns.take hleaf
      rw [howns.root_div] at hpages
      have hin : n ∈ pages ++ [n] := List.mem_append_right pages (List.mem_singleton_self n)
      obtain ⟨new, hallocs, _, howns', _⟩ := htake.mapPage hin hv hflags hpages
      refine ⟨root, pages ++ [n] ++ new, rfl, ?_, ?_⟩
      · rw [haddr, hallocs, List.map_append, List.map_append]
        rfl
      · rw [haddr]
        exact howns'
  | other m m' map taken space hused hsame ih =>
      obtain ⟨root, pages, rfl, rfl, howns⟩ := ih
      rw [howns.root_div] at hused hsame
      refine ⟨root, pages, rfl, rfl, howns.other ?_ hsame⟩
      intro x hx
      exact hused x (hx.imp_left fun hx => List.mem_map_of_mem hx)

theorem Space.harmless_iff (h : Space m map taken) (hv : v.toNat < 2 ^ 47)
    (hflags : flags.toNat < 4096) (hleaf : m.allocPage.1 ≠ 0#64) :
    Harmless m.allocPage.2 map v m.allocPage.1 flags (taken ++ [m.allocPage.1]) ↔
      HasPages (missingTables m.mem (map.toNat / 4096) [] (tablePath v)) m.allocPage.2 := by
  obtain ⟨root, pages, rfl, rfl, howns⟩ := h.owns
  obtain ⟨n, haddr, htake⟩ := howns.take hleaf
  have hiff := htake.harmless_iff (List.mem_append_right pages (List.mem_singleton_self n)) hv hflags
  rw [List.map_append, List.map_singleton, ← haddr] at hiff
  rw [howns.root_div]
  exact hiff

/-- A state in a run of which every call found pages for its tables: `vmm_free_pagemap` frees
pages allocated for the address space only, and a further call, with a page allocated for
it, is harmless exactly if there are pages for the tables that are missing. -/
theorem map_page_harmless_iff (h : Space m map taken) :
    (vmmFreePagemap m map = (freedPages m map).foldl Machine.freePage m ∧
      ∀ a ∈ freedPages m map, a ≠ 0#64 ∧ a ∈ taken) ∧
    ∀ v flags : Word, v.toNat < 2 ^ 47 → flags.toNat < 4096 → m.allocPage.1 ≠ 0#64 →
      (Harmless m.allocPage.2 map v m.allocPage.1 flags (taken ++ [m.allocPage.1]) ↔
        HasPages (missingTables m.mem (map.toNat / 4096) [] (tablePath v)) m.allocPage.2) := by
  refine ⟨⟨vmmFreePagemap_eq m map, ?_⟩, fun v flags hv hflags hleaf => h.harmless_iff hv hflags hleaf⟩
  obtain ⟨root, pages, rfl, rfl, howns⟩ := h.owns
  exact howns.freed

end LispDos.Memory
