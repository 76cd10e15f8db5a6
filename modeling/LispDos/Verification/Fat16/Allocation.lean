import LispDos.Verification.Fat16.Geometry
import Mathlib.Order.Interval.Finset.Nat

/-! # Freeing, allocating and filling chains

The specification of the loops over the allocation table: freeing clears exactly the
visited entries, allocating takes the lowest free cluster of the scan, and the write
loop links fresh clusters into one chain whose sectors hold the buffer. -/

namespace LispDos.Fat16

open Foundation

section

variable {b : Bpb} {d d₀ : Disk} {buffer : ℕ → UInt8} {size : ℕ} {l : List ℕ}

/-- The chain of clusters that starts at `c`, ending with the value `e`. -/
abbrev ClusterChain (b : Bpb) (d : Disk) (c : ℕ) (l : List ℕ) (e : ℕ) : Prop :=
  Chain (fat16GetFatEntry b d) IsCluster c l e

theorem Geometry.isCluster (hg : Geometry b) {c : ℕ} (h : 2 ≤ c) (h' : c ≤ clusters b + 1) :
    IsCluster c :=
  ⟨h, h'.trans hg.last⟩

theorem Geometry.lt_entries (hg : Geometry b) {c : ℕ} (h : c ≤ clusters b + 1) :
    c < 256 * b.tableSize := by
  have := hg.entries
  omega

/-- Entries depend on the sectors of the first table only. -/
theorem fatEntry_congr (hg : Geometry b) {d' : Disk} (h : ∀ s, InFat b s → d' s = d s) {x : ℕ}
    (hx : x < 256 * b.tableSize) : fat16GetFatEntry b d' x = fat16GetFatEntry b d x := by
  have hin : InFat b (b.reserved + x * 2 / 512) := by
    have := hg.tables_mul.1
    exact ⟨Nat.le_add_right _ _, by simp only [Bpb.rootDirSector]; omega⟩
  simp only [fat16GetFatEntry, ataReadSector, h _ hin]

/-! ## Freeing -/

/-- Freeing a chain clears the entries of its clusters and no others. -/
theorem freeChain_spec (hg : Geometry b) {c e : ℕ} (h : ClusterChain b d c l e)
    (hr : ∀ x ∈ l, x < 256 * b.tableSize) :
    FatEdit b d (freeChain b d c) ∧
      ∀ x < 256 * b.tableSize,
        fat16GetFatEntry b (freeChain b d c) x = if x ∈ l then 0 else fat16GetFatEntry b d x := by
  induction l generalizing d c with
  | nil =>
      have hc : ¬ IsCluster c := h.nil_iff.mp rfl
      rw [freeChain, if_neg hc]
      exact ⟨FatEdit.refl b d, by simp⟩
  | cons a l ih =>
      have hnodup := List.nodup_cons.mp h.nodup
      cases h with
      | step hc h =>
          have har := hr a (by simp)
          have hrest : ClusterChain b (fat16SetFatEntry b d a 0) (fat16GetFatEntry b d a) l e := by
            apply h.congr
            intro x hx
            have hne : x ≠ a := by
              rintro rfl
              exact hnodup.1 hx
            rw [fatEntry_set (hr x (by simp [hx])) (by omega), if_neg hne]
          obtain ⟨hedit, hentry⟩ := ih hrest (fun x hx => hr x (by simp [hx]))
          rw [freeChain, if_pos hc]
          refine ⟨(fatEdit_set hg har 0).trans hedit, ?_⟩
          intro x hx
          rw [hentry x hx, fatEntry_set hx (by omega)]
          by_cases hxa : x = a
          · simp [hxa]
          · simp [hxa]

/-! ## Allocating -/

/-- The clusters of the allocator's scan that are free. -/
def freeClusters (b : Bpb) (d : Disk) : Finset ℕ :=
  (Finset.Ico 2 (clusters b)).filter fun c => fat16GetFatEntry b d c = 0

theorem mem_freeClusters {c : ℕ} :
    c ∈ freeClusters b d ↔ (2 ≤ c ∧ c < clusters b) ∧ fat16GetFatEntry b d c = 0 := by
  simp [freeClusters]

/-- The allocator reports a full disk, or takes the lowest free cluster of its scan. -/
inductive AllocCase (b : Bpb) (d : Disk) : Option (ℕ × Disk) → Prop where
  | full (h : freeClusters b d = ∅) : AllocCase b d (some (0, d))
  | taken (c : ℕ) (hc : c ∈ freeClusters b d) (hmin : ∀ x ∈ freeClusters b d, c ≤ x) :
      AllocCase b d (some (c, fat16SetFatEntry b d c 0xFFFF))

theorem fat16AllocCluster_cases (hg : Geometry b) (d : Disk) :
    AllocCase b d (fat16AllocCluster b d) := by
  have hlast := hg.last
  have hlimit : min (clusters b) 0xFFF0 = clusters b := by omega
  simp only [fat16AllocCluster, hg.totalClusters_eq, Option.map_some, hlimit]
  cases hf : (List.range' 2 (clusters b - 2)).find? fun i => fat16GetFatEntry b d i = 0 with
  | none =>
      apply AllocCase.full
      rw [Finset.eq_empty_iff_forall_notMem]
      intro c hc
      obtain ⟨⟨h₁, h₂⟩, h₃⟩ := mem_freeClusters.mp hc
      have := List.find?_eq_none.mp hf c (List.mem_range'_1.mpr ⟨h₁, by omega⟩)
      simp [h₃] at this
  | some c =>
      obtain ⟨hzero, as, bs, hsplit, hbefore⟩ := List.find?_eq_some_iff_append.mp hf
      have hmem := List.mem_range'_1.mp (List.mem_of_find?_eq_some hf)
      have hc : c ∈ freeClusters b d :=
        mem_freeClusters.mpr ⟨⟨hmem.1, by omega⟩, by simpa using hzero⟩
      refine AllocCase.taken c hc ?_
      intro x hx
      obtain ⟨⟨h₁, h₂⟩, h₃⟩ := mem_freeClusters.mp hx
      have hxin : x ∈ as ++ c :: bs := by
        rw [← hsplit]
        exact List.mem_range'_1.mpr ⟨h₁, by omega⟩
      have hsorted : (as ++ c :: bs).Pairwise (· < ·) := by
        rw [← hsplit]
        exact List.pairwise_lt_range'
      rcases List.mem_append.mp hxin with hxa | hxb
      · have := hbefore x hxa
        simp [h₃] at this
      · rcases List.mem_cons.mp hxb with rfl | hxb
        · exact le_rfl
        · have htail := (List.pairwise_append.mp hsorted).2.1
          exact (List.rel_of_pairwise_cons htail hxb).le

/-! ## The sectors of a cluster -/

/-- The sector contents written from offset `w` on: the buffer, then zeros. -/
def chunk (buffer : ℕ → UInt8) (size w : ℕ) : Sector :=
  fun k => if w + k.val < size then buffer (w + k.val) else 0

theorem byte_chunk {w k : ℕ} (hk : k < 512) :
    (chunk buffer size w).byte k = if w + k < size then buffer (w + k) else 0 := by
  simp [Sector.byte, chunk, hk]

theorem chunk_min (w : ℕ) : chunk buffer size (min size w) = chunk buffer size w := by
  apply Sector.ext
  intro k hk
  rw [byte_chunk hk, byte_chunk hk]
  rcases Nat.le_total size w with h | h
  · rw [if_neg (by omega), if_neg (by omega)]
  · rw [Nat.min_eq_right h]

theorem byte_fillBuf (n : ℕ) (hn : n ≤ 512) (buf : Sector) (w p : ℕ) (hp : p < 512) :
    (fillBuf buffer size n buf w).1.byte p =
      if 512 - n ≤ p ∧ w + (p - (512 - n)) < size then buffer (w + (p - (512 - n)))
      else buf.byte p := by
  induction n generalizing buf w with
  | zero => rw [fillBuf, if_neg (by omega)]
  | succ n ih =>
      rw [fillBuf]
      split
      · rename_i hw
        rw [ih (by omega), Sector.byte_setByte _ (by omega)]
        by_cases hfirst : p = 511 - n
        · subst p
          rw [if_neg (by omega), if_pos rfl, if_pos (by omega)]
          congr 1
          omega
        · rw [if_neg hfirst]
          by_cases hlater : 512 - n ≤ p
          · have hshift : w + 1 + (p - (512 - n)) = w + (p - (512 - (n + 1))) := by omega
            rw [hshift]
            by_cases hin : w + (p - (512 - (n + 1))) < size
            · rw [if_pos ⟨hlater, hin⟩, if_pos (by omega)]
            · rw [if_neg (by omega), if_neg (by omega)]
          · rw [if_neg (by omega), if_neg (by omega)]
      · rw [if_neg (by omega)]

theorem fillBuf_eq_chunk (w : ℕ) :
    (fillBuf buffer size 512 Sector.zero w).1 = chunk buffer size w := by
  apply Sector.ext
  intro k hk
  rw [byte_fillBuf 512 le_rfl _ _ _ hk, byte_chunk hk, Sector.byte_zero]
  simp

/-- The sector loop stores consecutive chunks of the buffer and nothing else. -/
theorem writeSectors_apply (n sector : ℕ) (d : Disk) (w : ℕ) (hw : w ≤ size) (s : ℕ) :
    (writeSectors buffer size n sector d w).1 s =
      if sector ≤ s ∧ s < sector + n then chunk buffer size (w + 512 * (s - sector)) else d s := by
  induction n generalizing sector d w with
  | zero => rw [writeSectors, if_neg (by omega)]
  | succ n ih =>
      simp only [writeSectors]
      have hsnd := fillBuf_snd buffer size 512 Sector.zero w hw
      rw [ih _ _ _ (by omega), fillBuf_eq_chunk, hsnd]
      simp only [ataWriteSector]
      by_cases hfirst : s = sector
      · subst s
        rw [if_neg (by omega), if_pos rfl, if_pos (by omega)]
        simp
      · by_cases hin : sector ≤ s ∧ s < sector + (n + 1)
        · rw [if_pos (by omega), if_pos hin, ← chunk_min]
          have hmin : min size (min size (w + 512) + 512 * (s - (sector + 1))) =
              min size (w + 512 * (s - sector)) := by omega
          rw [hmin, chunk_min]
        · rw [if_neg (by omega), if_neg hfirst, if_neg hin]

end

end LispDos.Fat16
