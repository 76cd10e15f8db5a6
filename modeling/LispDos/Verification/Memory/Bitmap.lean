import LispDos.Kernel.Pmm
import Mathlib.Data.Finset.Card
import Mathlib.Data.Finset.Range
import Mathlib.Order.Interval.Finset.Nat
import Mathlib.Tactic.Common

/-! # Bits of the page bitmap

The byte operations of the source act on single bits, and a bitmap is determined by its
bits. -/

namespace LispDos.Memory

variable {bitmap bitmap' : Bitmap} {S : Finset ℕ}

/-! ## Single bits -/

theorem bitmapTest_eq (bitmap : Bitmap) (i : ℕ) :
    bitmapTest bitmap i = (bitmap (i / 8)).getLsbD (i % 8) := by
  have hlt : i % 8 < 8 := Nat.mod_lt _ (by decide)
  simp only [bitmapTest, ← BitVec.twoPow_eq, BitVec.and_twoPow]
  split
  · rename_i h
    have hne : BitVec.twoPow 8 (i % 8) ≠ 0#8 := by
      intro hz
      have hbit := congrArg (fun x => x.getLsbD (i % 8)) hz
      simp [hlt] at hbit
    simp [hne, h]
  · rename_i h
    simp [h]

@[simp] theorem bitmapTest_set (bitmap : Bitmap) (i j : ℕ) :
    bitmapTest (bitmapSet bitmap i) j = (decide (j = i) || bitmapTest bitmap j) := by
  simp only [bitmapTest_eq, bitmapSet, ← BitVec.twoPow_eq]
  by_cases hbyte : j / 8 = i / 8
  · have hiff : i % 8 = j % 8 ↔ j = i := by omega
    have hlt : i % 8 < 8 := Nat.mod_lt _ (by decide)
    rw [hbyte, Function.update_self, BitVec.getLsbD_or, BitVec.getLsbD_twoPow, Bool.or_comm]
    simp [hlt, hiff]
  · have hne : j ≠ i := by
      rintro rfl
      exact hbyte rfl
    rw [Function.update_of_ne hbyte]
    simp [hne]

@[simp] theorem bitmapTest_clear (bitmap : Bitmap) (i j : ℕ) :
    bitmapTest (bitmapClear bitmap i) j = (!decide (j = i) && bitmapTest bitmap j) := by
  simp only [bitmapTest_eq, bitmapClear, ← BitVec.twoPow_eq]
  by_cases hbyte : j / 8 = i / 8
  · have hiff : i % 8 = j % 8 ↔ j = i := by omega
    have hi : i % 8 < 8 := Nat.mod_lt _ (by decide)
    have hj : j % 8 < 8 := Nat.mod_lt _ (by decide)
    rw [hbyte, Function.update_self, BitVec.getLsbD_and, BitVec.getLsbD_not,
      BitVec.getLsbD_twoPow, Bool.and_comm]
    simp [hi, hj, hiff]
  · have hne : j ≠ i := by
      rintro rfl
      exact hbyte rfl
    rw [Function.update_of_ne hbyte]
    simp [hne]

/-- Bitmaps with the same bits have the same bytes. -/
theorem bitmap_ext (h : ∀ i, bitmapTest bitmap i = bitmapTest bitmap' i) : bitmap = bitmap' := by
  funext k
  apply BitVec.eq_of_getLsbD_eq
  intro n hn
  have hbit := h (8 * k + n)
  have hdiv : (8 * k + n) / 8 = k := by omega
  have hmod : (8 * k + n) % 8 = n := by omega
  rwa [bitmapTest_eq, bitmapTest_eq, hdiv, hmod] at hbit

theorem bitmapTest_setRange (bitmap : Bitmap) (a n j : ℕ) :
    bitmapTest ((List.range n).foldl (fun bm k => bitmapSet bm (a + k)) bitmap) j =
      (decide (j ∈ Finset.Ico a (a + n)) || bitmapTest bitmap j) := by
  induction n with
  | zero => simp
  | succ n ih =>
      rw [List.range_succ, List.foldl_append, List.foldl_cons, List.foldl_nil, bitmapTest_set, ih,
        ← Bool.or_assoc, ← Bool.decide_or]
      have hiff : j = a + n ∨ j ∈ Finset.Ico a (a + n) ↔ j ∈ Finset.Ico a (a + (n + 1)) := by
        simp only [Finset.mem_Ico]
        omega
      rw [decide_eq_decide.mpr hiff]

/-! ## Clear pages -/

/-- The clear bits below `n`. -/
def clearPages (bitmap : Bitmap) (n : ℕ) : Finset ℕ :=
  (Finset.range n).filter fun i => bitmapTest bitmap i = false

theorem mem_clearPages {i n : ℕ} :
    i ∈ clearPages bitmap n ↔ i < n ∧ bitmapTest bitmap i = false := by
  simp [clearPages]

/-- Setting clear bits takes them out of the count. -/
theorem card_clearPages_take {n : ℕ}
    (h : ∀ i, bitmapTest bitmap' i = (decide (i ∈ S) || bitmapTest bitmap i))
    (hsub : S ⊆ clearPages bitmap n) :
    (clearPages bitmap' n).card + S.card = (clearPages bitmap n).card := by
  have heq : clearPages bitmap' n = clearPages bitmap n \ S := by
    ext i
    simp only [Finset.mem_sdiff, mem_clearPages, h, Bool.or_eq_false_iff, decide_eq_false_iff_not]
    exact ⟨fun ⟨a, b, c⟩ => ⟨⟨a, c⟩, b⟩, fun ⟨⟨a, c⟩, b⟩ => ⟨a, b, c⟩⟩
  rw [heq, Finset.card_sdiff_add_card_eq_card hsub]

/-- Clearing a set bit puts it back. -/
theorem card_clearPages_release {n x : ℕ}
    (h : ∀ i, bitmapTest bitmap' i = (!decide (i = x) && bitmapTest bitmap i)) (hx : x < n)
    (hset : bitmapTest bitmap x = true) :
    (clearPages bitmap' n).card = (clearPages bitmap n).card + 1 := by
  have heq : clearPages bitmap' n = insert x (clearPages bitmap n) := by
    ext i
    simp only [Finset.mem_insert, mem_clearPages, h]
    by_cases hi : i = x
    · subst i
      simp [hx]
    · simp [hi]
  have hnot : x ∉ clearPages bitmap n := by
    rw [mem_clearPages, hset]
    simp
  rw [heq, Finset.card_insert_of_notMem hnot]

end LispDos.Memory
