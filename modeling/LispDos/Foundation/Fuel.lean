import Mathlib.Logic.Basic
import Mathlib.Order.Basic
import Mathlib.Order.Lattice

/-! # Bounded computations

A computation with a bound on its depth is cut off when the bound is too small. If a larger
bound never changes a result, the results have a limit: the result without a bound. -/

namespace LispDos.Foundation

variable {α : Type*} {cut a : α} {x : ℕ → α} {n m : ℕ}

/-- Once the computation is not cut off, a larger bound gives the same. -/
def Settles (cut : α) (x : ℕ → α) : Prop := ∀ n, x n ≠ cut → x (n + 1) = x n

open Classical in
/-- What the computation gives without a bound. -/
noncomputable def limit (cut : α) (x : ℕ → α) : α :=
  if h : ∃ n, x n ≠ cut then x h.choose else cut

namespace Settles

theorem eq_of_le (h : Settles cut x) (hn : x n ≠ cut) (hm : n ≤ m) : x m = x n := by
  induction m, hm using Nat.le_induction with
  | base => rfl
  | succ m _ ih =>
      have hcut : x m ≠ cut := by rwa [ih]
      rw [h m hcut, ih]

theorem limit_eq (h : Settles cut x) (hn : x n ≠ cut) : limit cut x = x n := by
  have hex : ∃ n, x n ≠ cut := ⟨n, hn⟩
  rw [limit, dif_pos hex]
  rcases Nat.le_total n hex.choose with hle | hle
  · exact h.eq_of_le hn hle
  · exact (h.eq_of_le hex.choose_spec hle).symm

theorem limit_eq_iff (h : Settles cut x) (ha : a ≠ cut) : limit cut x = a ↔ ∃ n, x n = a := by
  constructor
  · rintro rfl
    by_cases hex : ∃ n, x n ≠ cut
    · obtain ⟨n, hn⟩ := hex
      exact ⟨n, (h.limit_eq hn).symm⟩
    · exact (ha (dif_neg hex)).elim
  · rintro ⟨n, rfl⟩
    exact h.limit_eq ha

/-- From some bound on the results are the limit. -/
theorem exists_eq_limit (h : Settles cut x) : ∃ N, ∀ n, N ≤ n → x n = limit cut x := by
  by_cases hex : ∃ n, x n ≠ cut
  · obtain ⟨N, hN⟩ := hex
    refine ⟨N, fun n hn => ?_⟩
    rw [h.eq_of_le hN hn, h.limit_eq hN]
  · refine ⟨0, fun n _ => ?_⟩
    rw [limit, dif_neg hex]
    by_contra hn
    exact hex ⟨n, hn⟩

end Settles

/-- A value that is reached and kept is the limit. -/
theorem limit_eq_of_eventually (h : Settles cut x) (hN : ∀ n, m ≤ n → x n = a) :
    limit cut x = a := by
  obtain ⟨N, hlimit⟩ := h.exists_eq_limit
  rw [← hlimit (max N m) (le_max_left _ _), hN _ (le_max_right _ _)]

end LispDos.Foundation
