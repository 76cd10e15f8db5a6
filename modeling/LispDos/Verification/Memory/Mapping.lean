import LispDos.Verification.Memory.PageTables

/-! # Mapping a page

`vmm_map_page` changes the translation of the one page it is called for. -/

namespace LispDos.Memory

open Foundation

variable {m : Machine} {mem : PhysMem} {root t i n : ℕ} {p : List ℕ} {map v paddr flags : Word}

/-! ## Stores -/

theorem writeWord_apply (mem : PhysMem) (t i : ℕ) (w : Word) (s j : ℕ) :
    writeWord mem t i w s j = if s = t ∧ j = i then w else mem s j := by
  simp only [writeWord, Function.update_apply]
  by_cases hs : s = t
  · subst s
    by_cases hj : j = i
    · simp [hj]
    · simp [hj]
  · simp [hs]

theorem clearTable_apply (mem : PhysMem) (n s j : ℕ) :
    clearTable mem n s j = if s = n then 0#64 else mem s j := by
  simp only [clearTable, Function.update_apply]
  split <;> rfl

/-- A cleared table stays empty when another one is written. -/
theorem writeWord_clearTable (mem : PhysMem) {t : ℕ} (i : ℕ) (w : Word) {n : ℕ} (hnt : n ≠ t)
    (j : ℕ) : writeWord (clearTable mem n) t i w n j = 0#64 := by
  rw [writeWord_apply, if_neg (fun h => hnt h.1), clearTable_apply, if_pos rfl]

/-- A page that `pmm_alloc_page` returns. -/
theorem Machine.allocPage_some (h : m.allocPage.1 ≠ 0#64) :
    ∃ n < 2 ^ 40, m.allocPage.1 = pageAddr n ∧ Takes m.pmm m.allocPage.2.pmm {n} := by
  have hcase := pmmAllocPage_cases m.cursor
  simp only [Machine.allocPage] at *
  generalize pmmAllocPage m.pmm = r at hcase h
  cases hcase with
  | failed => exact (h rfl).elim
  | taken n p' hn takes =>
      rw [Nat.Ico_succ_singleton] at takes
      exact ⟨n, (takes.lt (by simp)).trans_le m.physical, rfl, takes⟩

/-! ## One level -/

theorem openTable_of_present (h : present (m.mem t i) = true) :
    openTable m t i = (tableOf (m.mem t i), m) := by
  simp only [openTable, h, if_true]

theorem openTable_of_missing (h : present (m.mem t i) = false) (hn : n < 2 ^ 40)
    (halloc : m.allocPage.1 = pageAddr n) :
    (openTable m t i).1 = n ∧ (openTable m t i).2.pmm = m.allocPage.2.pmm ∧
      (openTable m t i).2.mem = writeWord (clearTable m.mem n) t i (tableEntry n) := by
  have hlt : n < 2 ^ 52 := hn.trans (by decide)
  have hmem : (openTable m t i).2.mem = writeWord (clearTable m.mem n) t i (tableEntry n) := by
    simp only [openTable, h, Bool.false_eq_true, if_false, halloc, pageAddr_div hlt]
    rfl
  refine ⟨?_, by simp [openTable, h], hmem⟩
  have hfst : (openTable m t i).1 = tableOf ((openTable m t i).2.mem t i) := rfl
  rw [hfst, hmem, writeWord_apply, if_pos ⟨rfl, rfl⟩, tableOf_tableEntry hlt]

/-- Entering a fresh cleared table. -/
theorem attached_table {next : Word → Option ℕ} {V : List ℕ → Prop}
    (hnext : ∀ e, present e = false → next e = none) (hentry : next (tableEntry n) = some n)
    (hp : V p) (hreach : descend next mem root p = some t) (hmissing : present (mem t i) = false)
    (hfresh : ∀ q, V q → descend next mem root q ≠ some n) :
    Attached next V mem (writeWord (clearTable mem n) t i (tableEntry n)) root p t i n where
  reach := hreach
  fresh := hfresh
  old := hnext _ hmissing
  new := by rw [writeWord_apply, if_pos ⟨rfl, rfl⟩, hentry]
  same := by
    intro s j hsn hother
    rw [writeWord_apply, if_neg (by tauto), clearTable_apply, if_neg hsn]
  empty := by
    intro j _
    have hnt : n ≠ t := by
      rintro rfl
      exact hfresh p hp hreach
    rw [writeWord_clearTable mem i _ hnt]
    exact hnext _ not_present_zero

/-! ## The invariant -/

/-- The lower half is a tree of tables that occur nowhere else in the address space, and
its entries are those that `vmm_map_page` makes. -/
structure AddressSpace (mem : PhysMem) (root : ℕ) : Prop where
  unshared : Unshared hwTable (LowerPath 3) (Path 3) mem root
  entries : ∀ p t i, LowerPath 3 (p ++ [i]) → descend hwTable mem root p = some t →
    present (mem t i) = true → ∃ n < 2 ^ 40, mem t i = tableEntry n

/-- The page holds a table of the address space. -/
def IsTable (mem : PhysMem) (root t : ℕ) : Prop :=
  ∃ q, Path 3 q ∧ descend hwTable mem root q = some t

/-- If the entry is missing, the allocation succeeds with a page that is no table of the
address space yet. -/
def FreshFor (m : Machine) (root t i : ℕ) : Prop :=
  present (m.mem t i) = false →
    m.allocPage.1 ≠ 0#64 ∧ ¬ IsTable m.mem root (m.allocPage.1.toNat / 4096)

/-- The allocations of `vmm_map_page` all succeed with pages that are fresh. -/
def TablesFresh (m : Machine) (map v : Word) : Prop :=
  let pdpt := openTable m (map.toNat / 4096) (tableIndex v 39)
  let pd := openTable pdpt.2 pdpt.1 (tableIndex v 30)
  FreshFor m (map.toNat / 4096) (map.toNat / 4096) (tableIndex v 39) ∧
    FreshFor pdpt.2 (map.toNat / 4096) pdpt.1 (tableIndex v 30) ∧
    FreshFor pd.2 (map.toNat / 4096) pd.1 (tableIndex v 21)

/-- The state after one level of `vmm_map_page`. -/
structure Opened (mem mem' : PhysMem) (root : ℕ) (p : List ℕ) (i n : ℕ) : Prop where
  space : AddressSpace mem' root
  reach : descend hwTable mem' root (p ++ [i]) = some n
  walks : ∀ u, walk mem' root u = walk mem root u
  tables : ∀ s, IsTable mem' root s → IsTable mem root s ∨ s = n

theorem AddressSpace.openTable (h : AddressSpace m.mem root) (hpath : LowerPath 3 (p ++ [i]))
    (hreach : descend hwTable m.mem root p = some t) (hfresh : FreshFor m root t i) :
    Opened m.mem (openTable m t i).2.mem root p i (openTable m t i).1 := by
  by_cases hpres : present (m.mem t i) = true
  · obtain ⟨n, hn, hentry⟩ := h.entries p t i hpath hreach hpres
    rw [openTable_of_present hpres, hentry, tableOf_tableEntry (hn.trans (by decide))]
    refine ⟨h, ?_, fun _ => rfl, fun _ hs => .inl hs⟩
    rw [descend_snoc, hreach, Option.bind_some, hentry, hwTable_tableEntry hn]
  · have hmissing : present (m.mem t i) = false := by simpa using hpres
    obtain ⟨hok, hnot⟩ := hfresh hmissing
    obtain ⟨n, hn, halloc, _⟩ := m.allocPage_some hok
    obtain ⟨hfst, _, hmem⟩ := openTable_of_missing hmissing hn halloc
    rw [halloc, pageAddr_div (hn.trans (by decide))] at hnot
    have hfree : ∀ q, Path 3 q → descend hwTable m.mem root q ≠ some n :=
      fun q hq hs => hnot ⟨q, hq, hs⟩
    have hp : LowerPath 3 p := LowerPath.init p i hpath
    have hatt := attached_table (fun _ => hwTable_of_not_present) (hwTable_tableEntry hn) hp.1
      hreach hmissing hfree
    have hnt : n ≠ t := by
      rintro rfl
      exact hfree p hp.1 hreach
    have hcleared := writeWord_clearTable m.mem i (tableEntry n) hnt
    rw [hfst, hmem]
    refine ⟨⟨hatt.unshared h.unshared Path.init hp (fun q hq => hq.1), ?_⟩, ?_, ?_, ?_⟩
    · intro q s j hq hs hpres'
      rw [hatt.descend_eq h.unshared Path.init hp (Path.init q j hq.1)] at hs
      split at hs
      · obtain rfl := Option.some_inj.mp hs
        rw [hcleared, not_present_zero] at hpres'
        cases hpres'
      · have hsn : s ≠ n := by
          rintro rfl
          exact hfree q (Path.init q j hq.1) hs
        by_cases hsame : s = t ∧ j = i
        · exact ⟨n, hn, by rw [writeWord_apply, if_pos hsame]⟩
        · rw [writeWord_apply, if_neg hsame, clearTable_apply, if_neg hsn] at hpres' ⊢
          exact h.entries q s j hq hs hpres'
    · rw [hatt.descend_eq h.unshared Path.init hp hpath.1, if_pos rfl]
    · intro u
      apply hatt.resolve_eq h.unshared Path.init hp hp.1 (hwLeaf_of_not_present hmissing)
      · intro j
        rw [hcleared]
        exact ⟨hwTable_of_not_present not_present_zero, hwLeaf_of_not_present not_present_zero⟩
      · exact fun q j r hq => path_of_indices hq
      · have hlen := hpath.1.1
        simp only [List.length_append, List.length_singleton] at hlen
        simp only [indices, List.length_cons, List.length_nil]
        omega
    · rintro s ⟨q, hq, hs⟩
      rw [hatt.descend_eq h.unshared Path.init hp hq] at hs
      split at hs
      · exact .inr (Option.some_inj.mp hs).symm
      · exact .inl ⟨q, hq, hs⟩

section StoreLeaf

variable (h : AddressSpace mem root) (hpath : LowerPath 3 p) (hlen : p.length = 3)
  (hreach : descend hwTable mem root p = some t)

include h hpath hlen hreach

/-- No path to a table passes through the last level. -/
theorem AddressSpace.storeLeaf_above (w : Word) {q : List ℕ} {j s : ℕ} (hq : Path 3 (q ++ [j]))
    (hs : descend hwTable mem root q = some s) : writeWord mem t i w s j = mem s j := by
  rw [writeWord_apply, if_neg]
  rintro ⟨rfl, -⟩
  obtain rfl := h.unshared p q s hpath (Path.init q j hq) hreach hs
  have := hq.1
  simp at this
  omega

theorem AddressSpace.storeLeaf_descend (w : Word) {q : List ℕ} (hq : Path 3 q) :
    descend hwTable (writeWord mem t i w) root q = descend hwTable mem root q :=
  descend_congr Path.init
    (fun q j s hq hs => by rw [h.storeLeaf_above hpath hlen hreach w hq hs]) hq

/-- The last store of `vmm_map_page` changes one walk. -/
theorem AddressSpace.storeLeaf (w : Word) :
    AddressSpace (writeWord mem t i w) root ∧
      ∀ u, walk (writeWord mem t i w) root u =
        if indices u = p ++ [i] then hwLeaf 0 w else walk mem root u := by
  have hdescend := fun {q} (hq : Path 3 q) =>
    h.storeLeaf_descend (i := i) hpath hlen hreach w hq
  have hsame : ∀ s j, s ≠ t ∨ j ≠ i → writeWord mem t i w s j = mem s j := by
    intro s j hne
    rw [writeWord_apply, if_neg (by tauto)]
  refine ⟨⟨?_, ?_⟩, ?_⟩
  · intro q r s hq hr hqs hrs
    rw [hdescend hq.1] at hqs
    rw [hdescend hr] at hrs
    exact h.unshared q r s hq hr hqs hrs
  · intro q s j hq hs hpres
    rw [hdescend (Path.init q j hq.1)] at hs
    rw [h.storeLeaf_above hpath hlen hreach w hq.1 hs] at hpres ⊢
    exact h.entries q s j hq hs hpres
  · intro u
    have hnew : writeWord mem t i w t i = w := by rw [writeWord_apply, if_pos ⟨rfl, rfl⟩]
    have hreach' : descend hwTable (writeWord mem t i w) root p = some t := by
      rw [hdescend hpath.1, hreach]
    have hend : (indices u).length = p.length + 1 := by
      rw [hlen]
      rfl
    rw [walk, walk, resolve_store h.unshared hpath hreach hreach' hsame
      (fun q j r hq => path_of_indices hq) hend, hnew]

end StoreLeaf

/-- The paths to the tables that the walk of an address passes. -/
theorem lowerPath_prefix {d : ℕ} (hd : 3 ≤ d) (hv : v.toNat < 2 ^ 47) :
    LowerPath d [tableIndex v 39] ∧ LowerPath d [tableIndex v 39, tableIndex v 30] ∧
      LowerPath d [tableIndex v 39, tableIndex v 30, tableIndex v 21] := by
  have h₄ := lowerPath_indices hv
  have h₃ : LowerPath d [tableIndex v 39, tableIndex v 30, tableIndex v 21] :=
    ⟨⟨hd, (LowerPath.init _ (tableIndex v 12) h₄).1.2⟩, h₄.2⟩
  have h₂ : LowerPath d [tableIndex v 39, tableIndex v 30] :=
    LowerPath.init _ (tableIndex v 21) h₃
  have h₁ : LowerPath d [tableIndex v 39] := LowerPath.init _ (tableIndex v 30) h₂
  exact ⟨h₁, h₂, h₃⟩

/-- One call keeps the invariant and sets the walks of one page. -/
theorem AddressSpace.mapPage (h : AddressSpace m.mem (map.toNat / 4096)) (hv : v.toNat < 2 ^ 47)
    (hfresh : TablesFresh m map v) (paddr flags : Word) :
    AddressSpace (vmmMapPage m map v paddr flags).mem (map.toNat / 4096) ∧
      ∀ u, walk (vmmMapPage m map v paddr flags).mem (map.toNat / 4096) u =
        if indices u = indices v then hwLeaf 0 (leafEntry paddr flags)
        else walk m.mem (map.toNat / 4096) u := by
  obtain ⟨hp₁, hp₂, hp₃⟩ := lowerPath_prefix le_rfl hv
  obtain ⟨hf₁, hf₂, hf₃⟩ := hfresh
  have ho₁ := h.openTable (p := []) hp₁ rfl hf₁
  have ho₂ := ho₁.space.openTable (p := [tableIndex v 39]) hp₂ ho₁.reach hf₂
  have ho₃ := ho₂.space.openTable (p := [tableIndex v 39, tableIndex v 30]) hp₃ ho₂.reach hf₃
  obtain ⟨hspace, hwalk⟩ := ho₃.space.storeLeaf (i := tableIndex v 12) hp₃ rfl ho₃.reach
    (leafEntry paddr flags)
  refine ⟨hspace, ?_⟩
  intro u
  rw [← ho₁.walks u, ← ho₂.walks u, ← ho₃.walks u]
  exact hwalk u

end LispDos.Memory
