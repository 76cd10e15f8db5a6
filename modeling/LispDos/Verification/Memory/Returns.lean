import LispDos.Kernel.Bytes
import LispDos.Verification.Memory.Sessions

/-! # Giving pages back

Pages taken in rows or in stages, and what it takes to restore the allocator. -/

namespace LispDos.Memory

open Foundation

variable {m m' : Machine} {mem : PhysMem} {root i n : ℕ} {pages S : List ℕ}

/-! ## Taking -/

/-- With page 0 in use the allocation of a buffer fails without effect or takes a row of
other pages. -/
theorem Machine.allocPages_cases (m : Machine) (hzero : bitmapTest m.pmm.bitmap 0 = true) (count : Word) :
    ((m.allocPages count).1 = 0#64 ∧ (m.allocPages count).2 = m) ∨
      ∃ i, 0 < i ∧ (m.allocPages count).1 = pageAddr i ∧ (m.allocPages count).1 ≠ 0#64 ∧
        0 < count.toNat ∧ i + count.toNat ≤ 2 ^ 40 ∧
        Takes m.pmm (m.allocPages count).2.pmm (Finset.Ico i (i + count.toNat)) := by
  have hcase := pmmAllocPages_cases m.cursor count
  by_cases hok : (m.allocPages count).1 = 0#64
  · left
    refine ⟨hok, ?_⟩
    have hpmm : (pmmAllocPages m.pmm count).2 = m.pmm := by
      simp only [Machine.allocPages] at hok
      generalize pmmAllocPages m.pmm count = r at hcase hok
      cases hcase with
      | failed => rfl
      | taken i p' hn takes =>
          have hmem : i ∈ Finset.Ico i (i + count.toNat) := Finset.mem_Ico.mpr ⟨le_rfl, by omega⟩
          have hi : i = 0 := by
            have hdiv := pageAddr_div (takes.lt_pages hmem)
            have haddr : pageAddr i = 0#64 := hok
            rw [haddr] at hdiv
            exact hdiv.symm
          have hclear := takes.test_eq_false hmem
          rw [hi, hzero] at hclear
          cases hclear
    cases m
    simp only [Machine.allocPages] at hpmm ⊢
    congr
  · right
    simp only [Machine.allocPages] at hok ⊢
    generalize pmmAllocPages m.pmm count = r at hcase hok
    cases hcase with
    | failed => exact (hok rfl).elim
    | taken i p' hn takes =>
        have hlast := takes.lt (Finset.mem_Ico.mpr
          ⟨by omega, by omega⟩ : i + (count.toNat - 1) ∈ Finset.Ico i (i + count.toNat))
        have hphysical := m.physical
        refine ⟨i, Nat.pos_of_ne_zero ?_, rfl, hok, hn, by omega, takes⟩
        rintro rfl
        exact hok rfl

/-- A row of pages as a list of taken pages. -/
theorem Took.of_row {p p' : Pmm} (takes : Takes p p' (Finset.Ico i (i + n))) :
    Took p p' (List.range' i n) := by
  have hmem : ∀ x, x ∈ List.range' i n ↔ x ∈ Finset.Ico i (i + n) := by
    intro x
    rw [List.mem_range'_1, Finset.mem_Ico]
  refine ⟨List.nodup_range', ?_, ?_, ?_, ?_, takes.highest⟩
  · intro x hx
    exact takes.lt ((hmem x).mp hx)
  · intro x hx
    exact takes.test_eq_false ((hmem x).mp hx)
  · intro x
    rw [takes.bits, decide_eq_decide.mpr (hmem x)]
  · rw [takes.free, Nat.card_Ico, List.length_range', Nat.add_sub_cancel_left]

/-- Pages taken in two stages. -/
theorem Took.trans {p₀ p₁ p₂ : Pmm} {pages' : List ℕ} (h : Took p₀ p₁ pages)
    (h' : Took p₁ p₂ pages') : Took p₀ p₂ (pages ++ pages') := by
  have hclear : ∀ i ∈ pages', i ∉ pages ∧ bitmapTest p₀.bitmap i = false := by
    intro i hi
    have hbit := h'.clear i hi
    rw [h.bits, Bool.or_eq_false_iff, decide_eq_false_iff_not] at hbit
    exact hbit
  refine ⟨?_, ?_, ?_, ?_, ?_, h'.highest.trans h.highest⟩
  · rw [List.nodup_append]
    refine ⟨h.nodup, h'.nodup, ?_⟩
    rintro x hx y hy rfl
    exact (hclear x hy).1 hx
  · intro i hi
    exact (List.mem_append.mp hi).elim (h.below i) (fun hi => h.highest ▸ h'.below i hi)
  · intro i hi
    exact (List.mem_append.mp hi).elim (h.clear i) (fun hi => (hclear i hi).2)
  · intro i
    rw [h'.bits, h.bits, ← Bool.or_assoc, ← Bool.decide_or]
    have hiff : i ∈ pages' ∨ i ∈ pages ↔ i ∈ pages ++ pages' := by
      rw [List.mem_append, or_comm]
    rw [decide_eq_decide.mpr hiff]
  · rw [h'.counter, h.counter, List.length_append, BitVec.sub_sub, BitVec.ofNat_add,
      BitVec.mul_add]

/-! ## Freeing -/

/-- Freeing clears the bits of the freed pages and no other. -/
theorem foldl_freePage_test (ws : List Word) (m : Machine) (i : ℕ) :
    bitmapTest (ws.foldl Machine.freePage m).pmm.bitmap i =
      (!decide (i ∈ ws.map fun w => w.toNat / 4096) && bitmapTest m.pmm.bitmap i) := by
  induction ws generalizing m with
  | nil => simp
  | cons w ws ih =>
      have hfree : bitmapTest (m.freePage w).pmm.bitmap i =
          (!decide (i = w.toNat / 4096) && bitmapTest m.pmm.bitmap i) := pmmFreePage_bits m.pmm w i
      rw [List.foldl_cons, ih, hfree]
      by_cases hi : i = w.toNat / 4096
      · simp [hi]
      · simp [hi]

/-- The allocator is as it was. -/
def Restored (m m' : Machine) : Prop :=
  m'.pmm.bitmap = m.pmm.bitmap ∧ m'.pmm.freeMemory = m.pmm.freeMemory

/-- Giving back all pages that were taken restores the allocator. -/
theorem Took.restored (h : Took m.pmm m'.pmm pages) {freed : List ℕ}
    (hperm : freed.Perm pages) :
    Restored m ((freed.map pageAddr).foldl Machine.freePage m') := by
  obtain ⟨hbits, hcount⟩ := foldl_freePage_bits freed m' (hperm.nodup_iff.mpr h.nodup)
    (fun i hi => h.small i (hperm.mem_iff.mp hi))
    (fun i hi => by rw [h.bits, decide_eq_true (hperm.mem_iff.mp hi), Bool.true_or])
  constructor
  · apply bitmap_ext
    intro i
    simp only [hbits, h.bits, hperm.mem_iff]
    by_cases hi : i ∈ pages
    · simp [hi, h.clear i hi]
    · simp [hi]
  · rw [hcount, h.counter, hperm.length_eq, BitVec.sub_add_cancel]

/-- The loops over an address space visit the pages of its tree. -/
theorem Tree.mem_freed (h : Tree mem root S) (x : ℕ) :
    x ∈ subtables codeNext mem 512 4 256 root ++ [root] ↔ x ∈ S := by
  rw [← h.reach, List.mem_append, List.mem_singleton, mem_subtables]
  simp only [below_iff_lowerPath]
  constructor
  · rintro (⟨i, q, hq, hx⟩ | rfl)
    · exact ⟨i :: q, hq, hx⟩
    · exact ⟨[], lowerPath_nil 4, rfl⟩
  · rintro ⟨q, hq, hx⟩
    cases q with
    | nil => exact .inr (Option.some_inj.mp hx).symm
    | cons i q => exact .inl ⟨i, q, hq, hx⟩

end LispDos.Memory
