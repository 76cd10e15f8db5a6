import LispDos.Verification.Fat16.Consistency

/-! # What the cluster allocator misses

The scan of `fat16_alloc_cluster` ends at the number of clusters, but the clusters are
numbered from 2, so the last two are never taken. -/

namespace LispDos.Fat16

variable {b : Bpb} {d d' : Disk} {c : ℕ}

/-- The cluster is free and no cluster with a smaller number is. -/
structure LowestFree (b : Bpb) (d : Disk) (c : ℕ) : Prop where
  two_le : 2 ≤ c
  free : fat16GetFatEntry b d c = 0
  lowest : ∀ x, 2 ≤ x → x < c → fat16GetFatEntry b d x ≠ 0

theorem LowestFree.unique {c' : ℕ} (h : LowestFree b d c) (h' : LowestFree b d c') : c = c' := by
  rcases Nat.lt_trichotomy c c' with hlt | heq | hlt
  · exact (h'.lowest c h.two_le hlt h.free).elim
  · exact heq
  · exact (h.lowest c' h'.two_le hlt h'.free).elim

/-- The sector with the entry of a cluster in copy `t` of the table. -/
def tableSector (b : Bpb) (t c : ℕ) : ℕ := b.reserved + t * b.tableSize + c * 2 / 512

/-- The entry of a cluster is marked in all copies of the table, and nothing else changes. -/
structure Marks (b : Bpb) (d d' : Disk) (c : ℕ) : Prop where
  copies : ∀ t < b.tables,
    d' (tableSector b t c) = (d (tableSector b t c)).setLe16 (c * 2 % 512) 0xFFFF
  others : ∀ s, (∀ t < b.tables, s ≠ tableSector b t c) → d' s = d s

/-- The sector of the entry is the same in both copies, apart from the entry. -/
def CopiesAgree (b : Bpb) (d : Disk) (c : ℕ) : Prop :=
  b.tables = 2 → ∀ i < 512, i ≠ c * 2 % 512 → i ≠ c * 2 % 512 + 1 →
    (d (tableSector b 1 c)).byte i = (d (tableSector b 0 c)).byte i

/-- The sector that is written to the second copy is the one of the first. -/
theorem marks_iff (hg : Geometry b) :
    Marks b d (fat16SetFatEntry b d c 0xFFFF) c ↔ CopiesAgree b d c := by
  have hfirst : tableSector b 0 c = b.reserved + c * 2 / 512 := by simp [tableSector]
  have hsecond : tableSector b 1 c = b.reserved + c * 2 / 512 + b.tableSize := by
    simp only [tableSector]
    omega
  constructor
  · intro h ht i hi h₁ h₂
    have hcopy := h.copies 1 (by omega)
    rw [fat16SetFatEntry_apply, if_pos (.inr ⟨by omega, hsecond⟩), ← hfirst] at hcopy
    have hbyte := congrArg (fun s => Sector.byte s i) hcopy
    simp only [Sector.byte_setLe16 _ (show c * 2 % 512 + 1 < 512 by omega), h₁, h₂,
      if_false] at hbyte
    exact hbyte.symm
  · intro h
    constructor
    · intro t ht
      rw [fat16SetFatEntry_apply]
      have hcase : t = 0 ∨ (t = 1 ∧ b.tables = 2) := by
        have := hg.tables
        omega
      rcases hcase with rfl | ⟨rfl, htwo⟩
      · rw [if_pos (.inl hfirst), hfirst]
      · rw [if_pos (.inr ⟨by omega, hsecond⟩), ← hfirst]
        apply Sector.ext
        intro i hi
        rw [Sector.byte_setLe16 _ (by omega), Sector.byte_setLe16 _ (by omega)]
        by_cases h₁ : i = c * 2 % 512
        · subst h₁
          simp
        by_cases h₂ : i = c * 2 % 512 + 1
        · simp [h₂]
        · rw [if_neg h₂, if_neg h₁, if_neg h₂, if_neg h₁, h htwo i hi h₁ h₂]
    · intro s hs
      rw [fat16SetFatEntry_apply, if_neg]
      intro hwritten
      rcases hwritten with rfl | ⟨ht, rfl⟩
      · have := hg.tables
        exact hs 0 (by omega) hfirst.symm
      · exact hs 1 ht hsecond.symm

/-- The allocator reports a full disk only if every data cluster is occupied, and otherwise
marks the lowest free one. -/
inductive Allocated (b : Bpb) (d : Disk) : Option (ℕ × Disk) → Prop where
  | full (hfull : ∀ x, 2 ≤ x → x ≤ clusters b + 1 → fat16GetFatEntry b d x ≠ 0) :
      Allocated b d (some (0, d))
  | taken (c : ℕ) (d' : Disk) (hc : LowestFree b d c) (hle : c ≤ clusters b + 1)
      (marks : Marks b d d' c) : Allocated b d (some (c, d'))

/-- The allocator is complete exactly if there is no free cluster, or the lowest is one of the
scan and its sector is the same in both copies. -/
theorem alloc_complete_iff (hg : Geometry b) (d : Disk) :
    Allocated b d (fat16AllocCluster b d) ↔
      (∀ x, 2 ≤ x → x ≤ clusters b + 1 → fat16GetFatEntry b d x ≠ 0) ∨
        ∃ c < clusters b, LowestFree b d c ∧ CopiesAgree b d c := by
  have hcase := fat16AllocCluster_cases hg d
  generalize fat16AllocCluster b d = r at hcase
  cases hcase with
  | full hnone =>
      have hscan : ∀ c < clusters b, ¬ LowestFree b d c := by
        intro c hlt hc
        have hmem := mem_freeClusters.mpr ⟨⟨hc.two_le, hlt⟩, hc.free⟩
        simp [hnone] at hmem
      constructor
      · intro h
        cases h with
        | full hfull => exact .inl hfull
        | taken c d' hc => exact absurd hc.two_le (by decide)
      · intro hcond
        rcases hcond with hfull | ⟨c, hlt, hc, _⟩
        · exact .full hfull
        · exact (hscan c hlt hc).elim
  | taken c hc hmin =>
      obtain ⟨⟨htwo, hlt⟩, hfree⟩ := mem_freeClusters.mp hc
      have hlowest : LowestFree b d c := by
        refine ⟨htwo, hfree, ?_⟩
        intro x h₁ h₂ hx
        have := hmin x (mem_freeClusters.mpr ⟨⟨h₁, by omega⟩, hx⟩)
        omega
      have hmarks := marks_iff (d := d) (c := c) hg
      generalize fat16SetFatEntry b d c 0xFFFF = d' at hmarks
      constructor
      · intro h
        cases h with
        | full => exact absurd htwo (by decide)
        | taken _ _ _ _ marks => exact .inr ⟨c, hlt, hlowest, hmarks.mp marks⟩
      · intro hcond
        rcases hcond with hfull | ⟨c', _, hc', hagree⟩
        · exact (hfull c htwo (by omega) hfree).elim
        · obtain rfl := hlowest.unique hc'
          exact .taken c _ hlowest (by omega) (hmarks.mpr hagree)

/-- The blank small volume. -/
theorem alloc_complete_iff_small :
    Allocated (smallBpb 6) blankDisk (fat16AllocCluster (smallBpb 6) blankDisk) ↔
      (∀ x, 2 ≤ x → x ≤ clusters (smallBpb 6) + 1 →
        fat16GetFatEntry (smallBpb 6) blankDisk x ≠ 0) ∨
      ∃ c < clusters (smallBpb 6), LowestFree (smallBpb 6) blankDisk c ∧
        CopiesAgree (smallBpb 6) blankDisk c :=
  alloc_complete_iff smallBpb_six blankDisk

/-- The small volume, of which one of the three clusters is occupied. -/
def oneTakenDisk : Disk := fat16SetFatEntry (smallBpb 6) blankDisk 2 0xFFFF

/-- The disk is reported as full although cluster 3 is free. -/
theorem last_clusters_missed :
    fat16AllocCluster (smallBpb 6) oneTakenDisk = some (0, oneTakenDisk) ∧
      fat16GetFatEntry (smallBpb 6) oneTakenDisk 3 = 0 ∧
      ¬ Allocated (smallBpb 6) oneTakenDisk (fat16AllocCluster (smallBpb 6) oneTakenDisk) := by
  have hentry : ∀ x < 256, fat16GetFatEntry (smallBpb 6) oneTakenDisk x =
      if x = 2 then 0xFFFF else 0 := by
    intro x hx
    rw [oneTakenDisk, fatEntry_set (hx.trans_le (by decide)) (by decide), fatEntry_blankDisk]
  have hfree : fat16GetFatEntry (smallBpb 6) oneTakenDisk 3 = 0 := by
    rw [hentry 3 (by decide)]
    rfl
  have hcount : clusters (smallBpb 6) = 3 := by decide
  have hnone : freeClusters (smallBpb 6) oneTakenDisk = ∅ := by
    rw [Finset.eq_empty_iff_forall_notMem]
    intro c hc
    obtain ⟨⟨h₁, h₂⟩, h₃⟩ := mem_freeClusters.mp hc
    obtain rfl : c = 2 := by omega
    rw [hentry 2 (by decide)] at h₃
    cases h₃
  have hcase := fat16AllocCluster_cases smallBpb_six oneTakenDisk
  generalize fat16AllocCluster (smallBpb 6) oneTakenDisk = r at hcase
  cases hcase with
  | full =>
      refine ⟨rfl, hfree, fun h => ?_⟩
      cases h with
      | full hfull => exact hfull 3 (by decide) (by omega) hfree
      | taken c d' hc => exact absurd hc.two_le (by decide)
  | taken c hc => simp [hnone] at hc

end LispDos.Fat16
