import LispDos.Kernel.Fat16
import LispDos.Foundation.Loop

/-! # Releasing a chain ends

The loop that frees a chain is written out in the overwrite and the rollback of
`fat16_write_file` and in `fat16_delete_file`. It reads the next link before it clears the
entry, so on a damaged table it may visit an entry more than once: a cleared entry of the
second table can come back through the mirrored sector of a link past the end of the
first. -/

namespace LispDos.Fat16

open Foundation

variable {b : Bpb} {d : Disk} {c : ℕ}

/-- One round of the loop, from the disk and the cluster. -/
def freeStep (b : Bpb) (s : Disk × ℕ) : LoopStep (Disk × ℕ) Disk :=
  if IsCluster s.2 then .next (fat16SetFatEntry b s.1 s.2 0, fat16GetFatEntry b s.1 s.2)
  else .leave s.1

theorem freeStep_next (hc : IsCluster c) :
    freeStep b (d, c) = .next (fat16SetFatEntry b d c 0, fat16GetFatEntry b d c) :=
  if_pos hc

theorem freeStep_leave (hc : ¬ IsCluster c) : freeStep b (d, c) = .leave d :=
  if_neg hc

/-- The occupied entries, read as a numeral whose leading digit belongs to cluster 0, decrease
with every entry that is cleared. A round that finds its entry clear is the last. -/
def freeMeasure (b : Bpb) (s : Disk × ℕ) : ℕ :=
  if IsCluster s.2 then occupied b s.1 0x10000 + 1 else 0

theorem freeMeasure_decreases (s t : Disk × ℕ) (h : freeStep b s = .next t) :
    freeMeasure b t < freeMeasure b s := by
  obtain ⟨d, c⟩ := s
  by_cases hc : IsCluster c
  · rw [freeStep_next hc] at h
    obtain rfl := LoopStep.next.inj h
    have hbefore : freeMeasure b (d, c) = occupied b d 0x10000 + 1 := if_pos hc
    rw [hbefore]
    by_cases hnext : IsCluster (fat16GetFatEntry b d c)
    · have hafter : freeMeasure b (fat16SetFatEntry b d c 0, fat16GetFatEntry b d c) =
          occupied b (fat16SetFatEntry b d c 0) 0x10000 + 1 := if_pos hnext
      have hne : fat16GetFatEntry b d c ≠ 0 := by
        have := hnext.1
        omega
      have hlt : c < 0x10000 := by
        have := hc.2
        omega
      have := occupied_lt_of_clear b d hlt hne
      omega
    · have hafter : freeMeasure b (fat16SetFatEntry b d c 0, fat16GetFatEntry b d c) = 0 :=
        if_neg hnext
      omega
  · rw [freeStep_leave hc] at h
    cases h

/-- `freeChain` is what the loop returns. -/
theorem freeChain_eq_of_returns {s : Disk × ℕ} {r : Disk} (h : LoopReturns (freeStep b) s r) :
    r = freeChain b s.1 s.2 := by
  induction h with
  | @leave s r hs =>
      obtain ⟨d, c⟩ := s
      by_cases hc : IsCluster c
      · rw [freeStep_next hc] at hs
        cases hs
      · rw [freeStep_leave hc] at hs
        rw [freeChain, if_neg hc]
        exact (LoopStep.leave.inj hs).symm
  | @next s t r hs _ ih =>
      obtain ⟨d, c⟩ := s
      by_cases hc : IsCluster c
      · rw [freeStep_next hc] at hs
        rw [freeChain, if_pos hc, ih, ← LoopStep.next.inj hs]
      · rw [freeStep_leave hc] at hs
        cases hs

/-- The loop that frees a chain ends on every disk, from every cluster. -/
theorem release_ends (b : Bpb) (d : Disk) (c : ℕ) :
    LoopReturns (freeStep b) (d, c) (freeChain b d c) ∧
      ¬ ∃ run : ℕ → Disk × ℕ, run 0 = (d, c) ∧
        ∀ i, freeStep b (run i) = .next (run (i + 1)) := by
  obtain ⟨r, hr⟩ := exists_loopReturns (freeMeasure b) freeMeasure_decreases (d, c)
  obtain rfl := freeChain_eq_of_returns hr
  refine ⟨hr, ?_⟩
  intro hinfinite
  rcases hinfinite with ⟨run, hstart, hrun⟩
  exact hr.no_infinite_run run hstart hrun

end LispDos.Fat16
