import LispDos.Verification.Memory.AddressSpaces
import LispDos.Verification.Memory.Teardown

/-! # The life of an address space

From `vmm_new_pagemap` over any number of mappings to `vmm_free_pagemap`: the pages that
the lower half leads to are exactly those that were allocated, so the teardown restores
the allocator. -/

namespace LispDos.Memory

open Foundation

variable {m m₀ : Machine} {mem : PhysMem} {root t i n : ℕ} {p pages S : List ℕ} {p₀ : Pmm}

/-! ## Allocations -/

/-- The pages taken from the allocator since it was in the state `p₀`. -/
structure Took (p₀ p : Pmm) (pages : List ℕ) : Prop where
  nodup : pages.Nodup
  below : ∀ i ∈ pages, i < p₀.highestPage
  clear : ∀ i ∈ pages, bitmapTest p₀.bitmap i = false
  bits : ∀ i, bitmapTest p.bitmap i = (decide (i ∈ pages) || bitmapTest p₀.bitmap i)
  counter : p.freeMemory = p₀.freeMemory - 4096#64 * BitVec.ofNat 64 pages.length
  highest : p.highestPage = p₀.highestPage

theorem Took.small {p : Pmm} (h : Took p₀ p pages) : ∀ i ∈ pages, i < 2 ^ 52 :=
  fun i hi => (h.below i hi).trans p₀.highest_lt

theorem Took.refl (p₀ : Pmm) : Took p₀ p₀ [] :=
  ⟨List.nodup_nil, by simp, by simp, by simp, by simp, rfl⟩

/-- The next page is none of those already taken. -/
theorem Took.snoc {p p' : Pmm} (h : Took p₀ p pages) (takes : Takes p p' {n}) :
    n ∉ pages ∧ Took p₀ p' (pages ++ [n]) := by
  have hclear := takes.test_eq_false (Finset.mem_singleton_self n)
  rw [h.bits, Bool.or_eq_false_iff, decide_eq_false_iff_not] at hclear
  obtain ⟨hnot, hclear⟩ := hclear
  refine ⟨hnot, ?_, ?_, ?_, ?_, ?_, takes.highest.trans h.highest⟩
  · rw [List.nodup_append]
    refine ⟨h.nodup, List.nodup_singleton n, ?_⟩
    intro x hx y hy
    rw [List.mem_singleton] at hy
    rintro rfl
    exact hnot (hy ▸ hx)
  · intro x hx
    rcases List.mem_append.mp hx with hx | hx
    · exact h.below x hx
    · rw [List.mem_singleton.mp hx, ← h.highest]
      exact takes.lt (Finset.mem_singleton_self n)
  · intro x hx
    rcases List.mem_append.mp hx with hx | hx
    · exact h.clear x hx
    · rw [List.mem_singleton.mp hx]
      exact hclear
  · intro x
    rw [takes.bits, h.bits, ← Bool.or_assoc, ← Bool.decide_or]
    have hiff : x ∈ ({n} : Finset ℕ) ∨ x ∈ pages ↔ x ∈ pages ++ [n] := by
      rw [Finset.mem_singleton, List.mem_append, List.mem_singleton, or_comm]
    rw [decide_eq_decide.mpr hiff]
  · have hone : 4096#64 * BitVec.ofNat 64 1 = 4096#64 := by decide
    rw [takes.free, h.counter, Finset.card_singleton, List.length_append, List.length_singleton,
      hone, BitVec.sub_sub, pageBytes_succ, BitVec.add_comm 4096#64]

/-! ## The tree of allocated pages -/

/-- The lower half is a tree of tables and mapped pages, and `S` lists them. -/
structure Tree (mem : PhysMem) (root : ℕ) (S : List ℕ) : Prop where
  unshared : Unshared codeNext (LowerPath 4) (LowerPath 4) mem root
  reach : ∀ x, (∃ q, LowerPath 4 q ∧ descend codeNext mem root q = some x) ↔ x ∈ S

theorem Tree.of_mem_iff {S' : List ℕ} (h : Tree mem root S) (hiff : ∀ x, x ∈ S ↔ x ∈ S') :
    Tree mem root S' :=
  ⟨h.unshared, fun x => (h.reach x).trans (hiff x)⟩

/-- Attaching a page adds it to the tree. -/
theorem Tree.attach {mem' : PhysMem} (h : Tree mem root S) (hpath : LowerPath 4 (p ++ [i]))
    (hatt : Attached codeNext (LowerPath 4) mem mem' root p t i n) :
    Tree mem' root (S ++ [n]) ∧ ∀ {q}, LowerPath 4 q → descend codeNext mem' root q =
      if q = p ++ [i] then some n else descend codeNext mem root q := by
  have hp := LowerPath.init p i hpath
  have hdescend : ∀ {q}, LowerPath 4 q → descend codeNext mem' root q =
      if q = p ++ [i] then some n else descend codeNext mem root q :=
    fun hq => hatt.descend_eq h.unshared LowerPath.init hp hq
  refine ⟨⟨hatt.unshared h.unshared LowerPath.init hp (fun _ hq => hq), ?_⟩, hdescend⟩
  intro x
  rw [List.mem_append, List.mem_singleton, ← h.reach]
  constructor
  · rintro ⟨q, hq, hx⟩
    rw [hdescend hq] at hx
    split at hx
    · exact .inr (Option.some_inj.mp hx).symm
    · exact .inl ⟨q, hq, hx⟩
  · rintro (⟨q, hq, hx⟩ | rfl)
    · refine ⟨q, hq, ?_⟩
      rw [hdescend hq, if_neg, hx]
      -- the entry had no page before
      rintro rfl
      rw [descend_snoc, hatt.reach, Option.bind_some, hatt.old] at hx
      cases hx
    · exact ⟨p ++ [i], hpath, by rw [hdescend hpath, if_pos rfl]⟩

/-- The results of `pmm_alloc_page` in one level of `vmm_map_page`. -/
def openAllocs (m : Machine) (table idx : ℕ) : List Word :=
  if present (m.mem table idx) then [] else [m.allocPage.1]

/-- The results of `pmm_alloc_page` in `vmm_map_page`, in order. -/
def mapAllocs (m : Machine) (map vaddr : Word) : List Word :=
  let pdpt := openTable m (map.toNat / 4096) (tableIndex vaddr 39)
  let pd := openTable pdpt.2 pdpt.1 (tableIndex vaddr 30)
  openAllocs m (map.toNat / 4096) (tableIndex vaddr 39) ++
    openAllocs pdpt.2 pdpt.1 (tableIndex vaddr 30) ++
    openAllocs pd.2 pd.1 (tableIndex vaddr 21)

/-- One level of `vmm_map_page` takes the pages `new`. -/
structure Grown (p₀ : Pmm) (m m' : Machine) (root : ℕ) (pages S new : List ℕ) : Prop where
  took : Took p₀ m'.pmm (pages ++ new)
  tree : Tree m'.mem root (S ++ new)
  leaves : ∀ q, LowerPath 4 q → q.length = 4 →
    descend codeNext m'.mem root q = descend codeNext m.mem root q

theorem Tree.openTable (h : Tree m.mem root S) (htook : Took p₀ m.pmm pages)
    (hsub : ∀ x ∈ S, x ∈ pages) (hpath : LowerPath 4 (p ++ [i])) (hlen : p.length < 3)
    (hreach : descend codeNext m.mem root p = some t)
    (hok : ∀ a ∈ openAllocs m t i, a ≠ 0#64) :
    ∃ new : List ℕ, openAllocs m t i = new.map pageAddr ∧
      Grown p₀ m (openTable m t i).2 root pages S new ∧
      descend codeNext (openTable m t i).2.mem root (p ++ [i]) = some (openTable m t i).1 := by
  by_cases hpres : present (m.mem t i) = true
  · refine ⟨[], by simp [openAllocs, hpres], ?_, ?_⟩
    · rw [openTable_of_present hpres]
      exact ⟨by simpa using htook, by simpa using h, fun _ _ _ => rfl⟩
    · rw [openTable_of_present hpres, descend_snoc, hreach, Option.bind_some, codeNext,
        if_pos hpres]
  · have hmissing : present (m.mem t i) = false := by simpa using hpres
    have hallocs : openAllocs m t i = [m.allocPage.1] := by simp [openAllocs, hmissing]
    obtain ⟨n, hn, halloc, takes⟩ := m.allocPage_some (hok _ (by simp [hallocs]))
    obtain ⟨hfst, hpmm, hmem⟩ := openTable_of_missing hmissing hn halloc
    obtain ⟨hnot, htook'⟩ := htook.snoc takes
    have hfresh : ∀ q, LowerPath 4 q → descend codeNext m.mem root q ≠ some n :=
      fun q hq hs => hnot (hsub n ((h.reach n).mp ⟨q, hq, hs⟩))
    have hatt := attached_table (fun _ => codeNext_of_not_present)
      (codeNext_tableEntry (hn.trans (by decide))) (LowerPath.init p i hpath) hreach hmissing hfresh
    obtain ⟨htree, hdescend⟩ := h.attach hpath hatt
    refine ⟨[n], by rw [hallocs, halloc]; rfl, ?_, ?_⟩
    · refine ⟨by rwa [hpmm], by rwa [hmem], ?_⟩
      intro q hq hq4
      have hne : q ≠ p ++ [i] := by
        rintro rfl
        simp at hq4
        omega
      rw [hmem, hdescend hq, if_neg hne]
    · rw [hmem, hfst, hdescend hpath, if_pos rfl]

/-! ## One mapping -/

/-- The pages taken since `p₀` are those of the lower half, and its leaves are the pages
mapped so far. -/
structure SessionInv (p₀ : Pmm) (m : Machine) (root : ℕ) (pages mapped : List ℕ) : Prop where
  took : Took p₀ m.pmm pages
  tree : Tree m.mem root pages
  leaves : ∀ u : Word, u.toNat < 2 ^ 47 → descend codeNext m.mem root (indices u) ≠ none →
    u.toNat / 4096 ∈ mapped

/-- The three levels above the last store. -/
theorem Tree.openTables {map v : Word} (h : Tree m.mem (map.toNat / 4096) S)
    (htook : Took p₀ m.pmm pages) (hsub : ∀ x ∈ S, x ∈ pages) (hv : v.toNat < 2 ^ 47)
    (hok : ∀ a ∈ mapAllocs m map v, a ≠ 0#64) :
    let pdpt := LispDos.Memory.openTable m (map.toNat / 4096) (tableIndex v 39)
    let pd := LispDos.Memory.openTable pdpt.2 pdpt.1 (tableIndex v 30)
    let pt := LispDos.Memory.openTable pd.2 pd.1 (tableIndex v 21)
    ∃ new : List ℕ, mapAllocs m map v = new.map pageAddr ∧
      Grown p₀ m pt.2 (map.toNat / 4096) pages S new ∧
      descend codeNext pt.2.mem (map.toNat / 4096)
        [tableIndex v 39, tableIndex v 30, tableIndex v 21] = some pt.1 := by
  intro pdpt pd pt
  obtain ⟨hp₁, hp₂, hp₃⟩ := lowerPath_prefix (show 3 ≤ 4 by decide) hv
  simp only [mapAllocs, List.mem_append] at hok
  obtain ⟨new₁, hnew₁, hg₁, hr₁⟩ := h.openTable htook hsub (p := []) hp₁ (by simp) rfl
    (fun a ha => hok a (.inl (.inl ha)))
  have hsub₁ : ∀ x ∈ S ++ new₁, x ∈ pages ++ new₁ :=
    fun x hx => List.mem_append.mpr ((List.mem_append.mp hx).imp_left (hsub x))
  obtain ⟨new₂, hnew₂, hg₂, hr₂⟩ := hg₁.tree.openTable hg₁.took hsub₁
    (p := [tableIndex v 39]) hp₂ (by simp) hr₁ (fun a ha => hok a (.inl (.inr ha)))
  have hsub₂ : ∀ x ∈ S ++ new₁ ++ new₂, x ∈ pages ++ new₁ ++ new₂ :=
    fun x hx => List.mem_append.mpr ((List.mem_append.mp hx).imp_left (hsub₁ x))
  obtain ⟨new₃, hnew₃, hg₃, hr₃⟩ := hg₂.tree.openTable hg₂.took hsub₂
    (p := [tableIndex v 39, tableIndex v 30]) hp₃ (by simp) hr₂ (fun a ha => hok a (.inr ha))
  refine ⟨new₁ ++ new₂ ++ new₃, ?_, ⟨?_, ?_, ?_⟩, hr₃⟩
  · simp only [mapAllocs, hnew₁, hnew₂, hnew₃, List.map_append]
  · simpa only [List.append_assoc] using hg₃.took
  · simpa only [List.append_assoc] using hg₃.tree
  · intro q hq hlen
    rw [hg₃.leaves q hq hlen, hg₂.leaves q hq hlen, hg₁.leaves q hq hlen]

/-- The last store enters the page allocated for the leaf. -/
theorem attached_leaf {v flags : Word} (hn : n < 2 ^ 52) (hflags : flags.toNat < 4096)
    (hreach : descend codeNext mem root
      [tableIndex v 39, tableIndex v 30, tableIndex v 21] = some t)
    (hunmapped : descend codeNext mem root (indices v) = none)
    (hfresh : ∀ q, LowerPath 4 q → descend codeNext mem root q ≠ some n) :
    Attached codeNext (LowerPath 4) mem
      (writeWord mem t (tableIndex v 12) (leafEntry (pageAddr n) flags)) root
      [tableIndex v 39, tableIndex v 30, tableIndex v 21] t (tableIndex v 12) n where
  reach := hreach
  fresh := hfresh
  old := by
    have hsplit : indices v =
        [tableIndex v 39, tableIndex v 30, tableIndex v 21] ++ [tableIndex v 12] := rfl
    rwa [hsplit, descend_snoc, hreach, Option.bind_some] at hunmapped
  new := by rw [writeWord_apply, if_pos ⟨rfl, rfl⟩, codeNext_leafEntry hn hflags]
  same := by
    intro s j _ hother
    rw [writeWord_apply, if_neg (by tauto)]
  empty := by
    -- a path ends at the leaf, so what the page holds does not matter
    intro j hlong
    have hlen := hlong.1.1
    simp at hlen

/-- One allocation and mapping keeps the invariant. -/
theorem SessionInv.map {map v flags : Word} {mapped : List ℕ}
    (h : SessionInv p₀ m (map.toNat / 4096) pages mapped) (hv : v.toNat < 2 ^ 47)
    (hnew : v.toNat / 4096 ∉ mapped) (hflags : flags.toNat < 4096)
    (hleaf : m.allocPage.1 ≠ 0#64) (htables : ∀ a ∈ mapAllocs m.allocPage.2 map v, a ≠ 0#64) :
    ∃ new : List ℕ, m.allocPage.1 :: mapAllocs m.allocPage.2 map v = new.map pageAddr ∧
      SessionInv p₀ (vmmMapPage m.allocPage.2 map v m.allocPage.1 flags) (map.toNat / 4096)
        (pages ++ new) (v.toNat / 4096 :: mapped) := by
  obtain ⟨n, hn, halloc, takes⟩ := m.allocPage_some hleaf
  obtain ⟨hnot, htook⟩ := h.took.snoc takes
  have htree : Tree m.allocPage.2.mem (map.toNat / 4096) pages := by
    rw [Machine.allocPage_mem]
    exact h.tree
  obtain ⟨new, hallocs, grown, hreach⟩ := htree.openTables htook (by simp +contextual) hv htables
  have hunmapped : descend codeNext m.mem (map.toNat / 4096) (indices v) = none := by
    by_contra hne
    exact hnew (h.leaves v hv hne)
  have hindices := lowerPath_indices hv
  rw [← Machine.allocPage_mem, ← grown.leaves _ hindices rfl] at hunmapped
  -- the page of the leaf was allocated before the tables, so it is none of them
  have hout : n ∉ pages ++ new := by
    have hnodup := grown.took.nodup
    rw [List.append_assoc, List.singleton_append, List.nodup_middle] at hnodup
    exact (List.nodup_cons.mp hnodup).1
  have hatt := attached_leaf (hn.trans (by decide)) hflags hreach hunmapped
    (fun q hq hs => hout ((grown.tree.reach n).mp ⟨q, hq, hs⟩))
  obtain ⟨htree', hdescend⟩ := grown.tree.attach hindices hatt
  refine ⟨n :: new, by rw [halloc, hallocs, List.map_cons], ?_⟩
  rw [halloc]
  refine ⟨?_, ?_, ?_⟩
  · have hpages : pages ++ n :: new = pages ++ [n] ++ new := by simp
    rw [hpages]
    exact grown.took
  · refine htree'.of_mem_iff ?_
    intro x
    simp only [List.mem_append, List.mem_cons]
    tauto
  · intro u hu hne
    have hwalk := hdescend (lowerPath_indices hu)
    by_cases hsame : indices u = indices v
    · exact List.mem_cons.mpr (.inl (samePage_of_indices (.inl hu) hv hsame))
    · refine List.mem_cons_of_mem _ (h.leaves u hu ?_)
      have hold := hwalk.trans (if_neg hsame)
      rw [grown.leaves _ (lowerPath_indices hu) rfl] at hold
      intro hz
      exact hne (hold.trans hz)

/-! ## Whole sessions -/

/-- The machines that a session on the machine `m₀` can reach with all its allocations
successful: `vmm_new_pagemap`, and then pages that are allocated and mapped at pages of
the lower half that were not mapped before. The lists hold the results of all calls of
`pmm_alloc_page` and the numbers of the mapped pages. Flags stay below the frame number
of an entry. -/
inductive Session (m₀ : Machine) : Machine → Word → List Word → List ℕ → Prop where
  | new (hok : (vmmNewPagemap m₀).1 ≠ 0#64) :
      Session m₀ (vmmNewPagemap m₀).2 (vmmNewPagemap m₀).1 [(vmmNewPagemap m₀).1] []
  | map (m : Machine) (map v flags : Word) (taken : List Word) (mapped : List ℕ)
      (session : Session m₀ m map taken mapped) (hv : v.toNat < 2 ^ 47)
      (hnew : v.toNat / 4096 ∉ mapped) (hflags : flags.toNat < 4096)
      (hleaf : m.allocPage.1 ≠ 0#64)
      (htables : ∀ a ∈ mapAllocs m.allocPage.2 map v, a ≠ 0#64) :
      Session m₀ (vmmMapPage m.allocPage.2 map v m.allocPage.1 flags) map
        (taken ++ m.allocPage.1 :: mapAllocs m.allocPage.2 map v) (v.toNat / 4096 :: mapped)

theorem Session.taken_ne_zero {map : Word} {taken : List Word} {mapped : List ℕ}
    (h : Session m₀ m map taken mapped) : ∀ a ∈ taken, a ≠ 0#64 := by
  induction h with
  | new hok => simpa using hok
  | map m map v flags taken mapped session hv hnew hflags hleaf htables ih =>
      intro a ha
      rcases List.mem_append.mp ha with ha | ha
      · exact ih a ha
      · rcases List.mem_cons.mp ha with rfl | ha
        · exact hleaf
        · exact htables a ha

theorem sessionInv_new (hok : (vmmNewPagemap m).1 ≠ 0#64) :
    ∃ n < 2 ^ 40, (vmmNewPagemap m).1 = pageAddr n ∧
      SessionInv m.pmm (vmmNewPagemap m).2 n [n] [] := by
  obtain ⟨n, hn, haddr, hmem, hpmm, takes⟩ := vmmNewPagemap_mem hok
  refine ⟨n, hn, haddr, ?_⟩
  have hempty : ∀ i q, i < 256 →
      descend codeNext (vmmNewPagemap m).2.mem n (i :: q) = none := by
    intro i q hi
    rw [hmem]
    simp only [descend, new_lower m n hi, codeNext_of_not_present not_present_zero,
      Option.bind_none]
  have hroot : ∀ q x, LowerPath 4 q → descend codeNext (vmmNewPagemap m).2.mem n q = some x →
      q = [] ∧ x = n := by
    intro q x hq hx
    cases q with
    | nil => exact ⟨rfl, (Option.some_inj.mp hx).symm⟩
    | cons i q =>
        rw [hempty i q (hq.2 i (by simp))] at hx
        cases hx
  refine ⟨?_, ⟨?_, ?_⟩, ?_⟩
  · rw [hpmm]
    exact ((Took.refl m.pmm).snoc takes).2
  · intro p q t hp hq hpt hqt
    rw [(hroot p t hp hpt).1, (hroot q t hq hqt).1]
  · intro x
    rw [List.mem_singleton]
    constructor
    · rintro ⟨q, hq, hx⟩
      exact (hroot q x hq hx).2
    · rintro rfl
      exact ⟨[], lowerPath_nil 4, rfl⟩
  · intro u hu hne
    exact (hne (hempty _ _ ((lowerPath_indices hu).2 _ rfl))).elim

/-- The invariant holds in every state of a session. -/
theorem Session.inv {map : Word} {taken : List Word} {mapped : List ℕ}
    (h : Session m₀ m map taken mapped) :
    map ≠ 0#64 ∧ map = pageAddr (map.toNat / 4096) ∧
      ∃ pages : List ℕ, taken = pages.map pageAddr ∧
        SessionInv m₀.pmm m (map.toNat / 4096) pages mapped := by
  induction h with
  | new hok =>
      obtain ⟨n, hn, haddr, hinv⟩ := sessionInv_new hok
      have hdiv := pageAddr_div (i := n) (hn.trans (by decide))
      refine ⟨hok, by rw [haddr, hdiv], [n], by rw [haddr]; rfl, ?_⟩
      rwa [haddr, hdiv]
  | map m map v flags taken mapped session hv hnew hflags hleaf htables ih =>
      obtain ⟨hmap, haddr, pages, htaken, hinv⟩ := ih
      obtain ⟨new, hallocs, hinv'⟩ := hinv.map hv hnew hflags hleaf htables
      exact ⟨hmap, haddr, pages ++ new, by rw [htaken, hallocs, List.map_append], hinv'⟩

/-! ## Teardown -/

theorem below_iff_lowerPath {q : List ℕ} : Below 512 4 256 i q ↔ LowerPath 4 (i :: q) := by
  simp only [Below, LowerPath, Path, List.length_cons, List.forall_mem_cons, List.head?_cons,
    Option.mem_def, Option.some.injEq, forall_eq']
  constructor
  · rintro ⟨hi, hq, hlen⟩
    exact ⟨⟨hlen, by omega, hq⟩, hi⟩
  · rintro ⟨⟨hlen, _, hq⟩, hi⟩
    exact ⟨hi, hq, hlen⟩

/-- The loops visit every page of the tree below its root once. -/
theorem Tree.subtables_perm (h : Tree mem root S) (hnodup : S.Nodup) :
    (subtables codeNext mem 512 4 256 root ++ [root]).Perm S := by
  have hmem : ∀ x, x ∈ subtables codeNext mem 512 4 256 root ↔
      ∃ i q, LowerPath 4 (i :: q) ∧ descend codeNext mem root (i :: q) = some x := by
    intro x
    simp only [mem_subtables, below_iff_lowerPath]
  refine (List.perm_ext_iff_of_nodup ?_ hnodup).mpr ?_
  · rw [List.nodup_append]
    refine ⟨?_, List.nodup_singleton root, ?_⟩
    · apply nodup_subtables
      intro i q j r x hq hr hqx hrx
      exact h.unshared _ _ x (below_iff_lowerPath.mp hq) (below_iff_lowerPath.mp hr) hqx hrx
    · intro x hx y hy
      rw [List.mem_singleton] at hy
      rintro rfl
      obtain ⟨i, q, hq, hx⟩ := (hmem x).mp hx
      rw [hy] at hx
      have heq := h.unshared _ [] root hq (lowerPath_nil 4) hx rfl
      cases heq
  · intro x
    rw [List.mem_append, List.mem_singleton, hmem, ← h.reach]
    constructor
    · rintro (⟨i, q, hq, hx⟩ | rfl)
      · exact ⟨i :: q, hq, hx⟩
      · exact ⟨[], lowerPath_nil 4, rfl⟩
    · rintro ⟨q, hq, hx⟩
      cases q with
      | nil => exact .inr (Option.some_inj.mp hx).symm
      | cons i q => exact .inl ⟨i, q, hq, hx⟩

theorem pageAddr_injOn {j : ℕ} (hi : i < 2 ^ 52) (hj : j < 2 ^ 52)
    (h : pageAddr i = pageAddr j) : i = j := by
  rw [← pageAddr_div hi, h, pageAddr_div hj]

/-- Tearing an address space down frees each page that the session allocated once and no
other, and it brings the bitmap and the counter back to where they were. -/
theorem teardown_returns_all {map : Word} {taken : List Word} {mapped : List ℕ}
    (h : Session m₀ m map taken mapped) :
    vmmFreePagemap m map = (freedPages m map).foldl Machine.freePage m ∧
      (freedPages m map).Perm taken ∧ taken.Nodup ∧
      (∀ i, pageAddr i ∉ taken →
        bitmapTest m.pmm.bitmap i = bitmapTest m₀.pmm.bitmap i ∧
        bitmapTest (vmmFreePagemap m map).pmm.bitmap i = bitmapTest m.pmm.bitmap i) ∧
      (vmmFreePagemap m map).pmm.bitmap = m₀.pmm.bitmap ∧
      (vmmFreePagemap m map).pmm.freeMemory = m₀.pmm.freeMemory := by
  obtain ⟨hmap, haddr, pages, rfl, inv⟩ := h.inv
  have hperm := inv.tree.subtables_perm inv.took.nodup
  have hfreed : freedPages m map =
      (subtables codeNext m.mem 512 4 256 (map.toNat / 4096) ++ [map.toNat / 4096]).map
        pageAddr := by
    rw [freedPages_eq hmap, List.map_append, List.map_singleton, ← haddr]
  have hset : ∀ i ∈ pages, bitmapTest m.pmm.bitmap i = true := by
    intro i hi
    rw [inv.took.bits, decide_eq_true hi, Bool.true_or]
  obtain ⟨hbits, hcount⟩ := foldl_freePage_bits _ m (hperm.nodup_iff.mpr inv.took.nodup)
    (fun i hi => inv.took.small i (hperm.mem_iff.mp hi)) (fun i hi => hset i (hperm.mem_iff.mp hi))
  rw [← hfreed, ← vmmFreePagemap_eq] at hbits hcount
  have hbitmap : (vmmFreePagemap m map).pmm.bitmap = m₀.pmm.bitmap := by
    apply bitmap_ext
    intro i
    simp only [hbits, inv.took.bits, hperm.mem_iff]
    by_cases hi : i ∈ pages
    · simp [hi, inv.took.clear i hi]
    · simp [hi]
  refine ⟨vmmFreePagemap_eq m map, ?_, ?_, ?_, hbitmap, ?_⟩
  · rw [hfreed]
    exact hperm.map pageAddr
  · refine inv.took.nodup.map_on ?_
    intro i hi j hj
    exact pageAddr_injOn (inv.took.small i hi) (inv.took.small j hj)
  · intro i hi
    have hnot : i ∉ pages := fun hmem => hi (List.mem_map_of_mem hmem)
    have hsame : bitmapTest m.pmm.bitmap i = bitmapTest m₀.pmm.bitmap i := by
      rw [inv.took.bits, decide_eq_false hnot, Bool.false_or]
    exact ⟨hsame, by rw [hbitmap, hsame]⟩
  · rw [hcount, inv.took.counter, hperm.length_eq, BitVec.sub_add_cancel]

end LispDos.Memory
