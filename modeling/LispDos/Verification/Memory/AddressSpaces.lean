import LispDos.Verification.Memory.Mapping

/-! # Address spaces built call by call

Every address space that starts with `vmm_new_pagemap` and grows by `vmm_map_page` keeps
the tree invariant, so each further mapping is local. -/

namespace LispDos.Memory

open Foundation

variable {m : Machine} {mem : PhysMem} {map v : Word} {n : ℕ}

/-! ## A new PML4 -/

theorem copyUpperHalf_apply (mem : PhysMem) (pml4 kernelPml4 s j : ℕ) :
    copyUpperHalf mem pml4 kernelPml4 s j =
      if s = pml4 ∧ 256 ≤ j ∧ j < 512 then mem kernelPml4 j else mem s j := by
  have hloop : ∀ k s j, (List.range k).foldl (fun mem i =>
      writeWord mem pml4 (256 + i) (mem kernelPml4 (256 + i))) mem s j =
        if s = pml4 ∧ 256 ≤ j ∧ j < 256 + k then mem kernelPml4 j else mem s j := by
    intro k
    induction k with
    | zero =>
        intro s j
        rw [if_neg (by omega)]
        rfl
    | succ k ih =>
        intro s j
        rw [List.range_succ, List.foldl_append, List.foldl_cons, List.foldl_nil, writeWord_apply,
          ih, ih]
        -- the word that is read has not been written yet, even when the pages coincide
        by_cases hlast : s = pml4 ∧ j = 256 + k
        · rw [if_pos hlast, if_neg (by omega), if_pos (by omega), hlast.2]
        · rw [if_neg hlast]
          by_cases hin : s = pml4 ∧ 256 ≤ j ∧ j < 256 + k
          · rw [if_pos hin, if_pos (by omega)]
          · rw [if_neg hin, if_neg (by omega)]
  exact hloop 256 s j

/-- The pages of the kernel's half: its PML4 and every table of the upper half. -/
def IsKernelTable (m : Machine) (t : ℕ) : Prop :=
  ∃ q, Path 3 q ∧ (∀ i ∈ q.head?, 256 ≤ i) ∧ descend hwTable m.mem m.kernelPml4 q = some t

/-- The memory of a new address space with its PML4 on page `n`. -/
theorem vmmNewPagemap_mem (hok : (vmmNewPagemap m).1 ≠ 0#64) :
    ∃ n < 2 ^ 40, (vmmNewPagemap m).1 = pageAddr n ∧
      (vmmNewPagemap m).2.mem = copyUpperHalf (clearTable m.mem n) n m.kernelPml4 ∧
      (vmmNewPagemap m).2.pmm = m.allocPage.2.pmm ∧ Takes m.pmm m.allocPage.2.pmm {n} := by
  have halloc : m.allocPage.1 ≠ 0#64 := by
    intro hz
    simp [vmmNewPagemap, hz] at hok
  obtain ⟨n, hn, haddr, takes⟩ := m.allocPage_some halloc
  have hdiv : m.allocPage.1.toNat / 4096 = n := by
    rw [haddr, pageAddr_div (hn.trans (by decide))]
  refine ⟨n, hn, ?_, ?_, ?_, takes⟩
  · rw [← haddr, vmmNewPagemap, if_neg halloc]
  · simp only [vmmNewPagemap, if_neg halloc, hdiv, Machine.allocPage_mem,
      Machine.allocPage_kernelPml4]
  · rw [vmmNewPagemap, if_neg halloc]

theorem new_lower (m : Machine) (n : ℕ) {i : ℕ} (hi : i < 256) :
    copyUpperHalf (clearTable m.mem n) n m.kernelPml4 n i = 0#64 := by
  rw [copyUpperHalf_apply, if_neg (by omega), clearTable_apply, if_pos rfl]

theorem new_other (m : Machine) {n s : ℕ} (hs : s ≠ n) (j : ℕ) :
    copyUpperHalf (clearTable m.mem n) n m.kernelPml4 s j = m.mem s j := by
  rw [copyUpperHalf_apply, if_neg (fun h => hs h.1), clearTable_apply, if_neg hs]

section New

variable (hfresh : ¬ IsKernelTable m n)

include hfresh

theorem new_upper {i : ℕ} (hi : 256 ≤ i) (hi' : i < 512) :
    copyUpperHalf (clearTable m.mem n) n m.kernelPml4 n i = m.mem m.kernelPml4 i := by
  have hne : m.kernelPml4 ≠ n := by
    rintro rfl
    exact hfresh ⟨[], ⟨by simp, by simp⟩, by simp, rfl⟩
  rw [copyUpperHalf_apply, if_pos ⟨rfl, hi, hi'⟩, clearTable_apply, if_neg hne]

/-- The upper half of the new address space is the kernel's. -/
theorem descend_new {q : List ℕ} (hq : Path 3 q) (hne : q ≠ []) (hup : ∀ i ∈ q.head?, 256 ≤ i) :
    descend hwTable (copyUpperHalf (clearTable m.mem n) n m.kernelPml4) n q =
      descend hwTable m.mem m.kernelPml4 q := by
  induction q using List.reverseRecOn with
  | nil => exact (hne rfl).elim
  | append_singleton q j ih =>
      cases q with
      | nil =>
          have hj : 256 ≤ j := hup j (by simp)
          have hj' : j < 512 := hq.2 j (by simp)
          simp only [List.nil_append, descend, new_upper hfresh hj hj']
      | cons i q =>
          have hinit := Path.init (i :: q) j hq
          have hup' : ∀ k ∈ (i :: q).head?, 256 ≤ k := by simpa using hup
          rw [descend_snoc, descend_snoc, ih hinit (by simp) hup']
          cases hs : descend hwTable m.mem m.kernelPml4 (i :: q) with
          | none => rw [Option.bind_none, Option.bind_none]
          | some s =>
              have hsn : s ≠ n := by
                rintro rfl
                exact hfresh ⟨i :: q, hinit, hup', hs⟩
              simp only [Option.bind_some, new_other m hsn]

theorem addressSpace_new :
    AddressSpace (copyUpperHalf (clearTable m.mem n) n m.kernelPml4) n := by
  have hlower : ∀ i q, i < 256 →
      descend hwTable (copyUpperHalf (clearTable m.mem n) n m.kernelPml4) n (i :: q) = none := by
    intro i q hi
    simp only [descend, new_lower m n hi, hwTable_of_not_present not_present_zero,
      Option.bind_none]
  constructor
  · intro p q t hp hq hpt hqt
    cases p with
    | cons i p =>
        rw [hlower i p (hp.2 i (by simp))] at hpt
        cases hpt
    | nil =>
        obtain rfl := Option.some_inj.mp hpt
        cases q with
        | nil => rfl
        | cons i q =>
            by_cases hi : i < 256
            · rw [hlower i q hi] at hqt
              cases hqt
            · have hup : ∀ k ∈ (i :: q).head?, 256 ≤ k := by simpa using hi
              rw [descend_new hfresh hq (by simp) hup] at hqt
              exact (hfresh ⟨i :: q, hq, hup, hqt⟩).elim
  · intro p t i hp ht hpres
    cases p with
    | cons k p =>
        rw [hlower k p (hp.2 k (by simp))] at ht
        cases ht
    | nil =>
        obtain rfl := Option.some_inj.mp ht
        rw [new_lower m _ (hp.2 i (by simp)), not_present_zero] at hpres
        cases hpres

/-- The tables of a new address space are its PML4 and those of the kernel's half. -/
theorem isTable_new {s : ℕ} (hs : IsTable (copyUpperHalf (clearTable m.mem n) n m.kernelPml4) n s) :
    s = n ∨ IsKernelTable m s := by
  obtain ⟨q, hq, hs⟩ := hs
  cases q with
  | nil => exact .inl (Option.some_inj.mp hs).symm
  | cons i q =>
      by_cases hi : i < 256
      · simp only [descend, new_lower m n hi, hwTable_of_not_present not_present_zero,
          Option.bind_none, reduceCtorEq] at hs
      · have hup : ∀ k ∈ (i :: q).head?, 256 ≤ k := by simpa using hi
        rw [descend_new hfresh hq (by simp) hup] at hs
        exact .inr ⟨i :: q, hq, hup, hs⟩

end New

/-! ## Whole runs -/

/-- The address spaces that a run can build: a new one on a page the kernel's half does
not use, calls of `vmm_map_page` in the lower half with fresh tables, and anything that
leaves its tables alone. -/
inductive Built : Machine → Word → Prop where
  | new (m : Machine) (hok : (vmmNewPagemap m).1 ≠ 0#64)
      (hfresh : ¬ IsKernelTable m ((vmmNewPagemap m).1.toNat / 4096)) :
      Built (vmmNewPagemap m).2 (vmmNewPagemap m).1
  | map (m : Machine) (map v paddr flags : Word) (built : Built m map) (hv : v.toNat < 2 ^ 47)
      (hfresh : TablesFresh m map v) : Built (vmmMapPage m map v paddr flags) map
  | other (m m' : Machine) (map : Word) (built : Built m map)
      (hsame : ∀ t, IsTable m.mem (map.toNat / 4096) t → m'.mem t = m.mem t) : Built m' map

theorem AddressSpace.congr {mem' : PhysMem} {root : ℕ} (h : AddressSpace mem root)
    (hsame : ∀ t, IsTable mem root t → mem' t = mem t) : AddressSpace mem' root := by
  have hdescend : ∀ {q}, Path 3 q → descend hwTable mem' root q = descend hwTable mem root q :=
    fun hq => descend_congr Path.init
      (fun q j s hq hs => by rw [hsame s ⟨q, Path.init q j hq, hs⟩]) hq
  constructor
  · intro p q t hp hq hpt hqt
    rw [hdescend hp.1] at hpt
    rw [hdescend hq] at hqt
    exact h.unshared p q t hp hq hpt hqt
  · intro p t i hp ht hpres
    have hinit := Path.init p i hp.1
    rw [hdescend hinit] at ht
    rw [hsame t ⟨p, hinit, ht⟩] at hpres ⊢
    exact h.entries p t i hp ht hpres

/-- Every address space that a run builds has the tree invariant. -/
theorem Built.addressSpace (h : Built m map) : AddressSpace m.mem (map.toNat / 4096) := by
  induction h with
  | new m hok hfresh =>
      obtain ⟨n, hn, haddr, hmem, _⟩ := vmmNewPagemap_mem hok
      rw [haddr, pageAddr_div (hn.trans (by decide))] at hfresh ⊢
      rw [hmem]
      exact addressSpace_new hfresh
  | map m map v paddr flags built hv hfresh ih => exact (ih.mapPage hv hfresh paddr flags).1
  | other m m' map built hsame ih => exact ih.congr hsame

theorem frame_leafEntry (paddr : Word) {flags : Word} (hf : frame flags = 0) :
    frame (leafEntry paddr flags) = frame paddr := by
  have hone : (1#64 : Word).toNat / 2 ^ 12 = 0 := by decide
  have hpage : 4096 * (paddr.toNat / 4096) / 2 ^ 12 = paddr.toNat / 4096 := by omega
  have hflags : flags.toNat / 2 ^ 12 % 2 ^ 40 = 0 :=
    (frame_eq flags).symm.trans hf
  have hor :
      (4096 * (paddr.toNat / 4096) ||| flags.toNat ||| (1#64 : Word).toNat) / 2 ^ 12 % 2 ^ 40 =
        paddr.toNat / 4096 % 2 ^ 40 := by
    rw [Nat.or_div_two_pow, Nat.or_div_two_pow, hone, Nat.or_zero, Nat.or_mod_two_pow, hflags,
      Nat.or_zero, hpage]
  rw [frame_eq, frame_eq, leafEntry, BitVec.toNat_or, BitVec.toNat_or, toNat_pageMask]
  exact hor

/-- Mapping a page makes every address of the page resolve to the frame and the flags
given, and leaves every address of every other page as it was. -/
theorem map_page_correct_and_local (h : Built m map) (hv : v.toNat < 2 ^ 47)
    (hfresh : TablesFresh m map v) (paddr flags : Word) :
    (∀ u, SamePage u v → walk (vmmMapPage m map v paddr flags).mem (map.toNat / 4096) u =
      some (0, paddr &&& ~~~0xFFF#64 ||| flags ||| 1#64)) ∧
    (frame flags = 0 →
      frame (paddr &&& ~~~0xFFF#64 ||| flags ||| 1#64) = frame paddr) ∧
    ∀ u, Canonical u → ¬ SamePage u v →
      walk (vmmMapPage m map v paddr flags).mem (map.toNat / 4096) u =
        walk m.mem (map.toNat / 4096) u := by
  have hwalk := (h.addressSpace.mapPage hv hfresh paddr flags).2
  refine ⟨?_, frame_leafEntry paddr, ?_⟩
  · intro u hu
    rw [hwalk u, if_pos (indices_of_samePage hu), hwLeaf, present_leafEntry]
    rfl
  · intro u hcanon hu
    rw [hwalk u, if_neg (fun hi => hu (samePage_of_indices hcanon hv hi))]

end LispDos.Memory
