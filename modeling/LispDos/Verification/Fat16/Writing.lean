import LispDos.Verification.Fat16.Allocation

/-! # The allocation loop of the writer

The invariant of the loop is the list of clusters it has linked so far. The loop ends
with as many clusters as the size needs, or it runs out of free clusters and the
rollback gives back exactly the ones it took. -/

namespace LispDos.Fat16

open Foundation

variable {b : Bpb} {d d₀ : Disk} {buffer : ℕ → UInt8} {size : ℕ} {l : List ℕ}

/-- The number of clusters for a file of the given size; an empty file takes one. -/
def need (b : Bpb) (size : ℕ) : ℕ := max 1 ((size + clusterBytes b - 1) / clusterBytes b)

/-- The loop guard, in terms of the number of clusters linked. -/
theorem lt_need_iff (hg : Geometry b) (size n : ℕ) :
    n < need b size ↔ clusterBytes b * n < size ∨ (size = 0 ∧ n = 0) := by
  have hspc := hg.spc
  have hpos : 0 < clusterBytes b := by
    simp only [clusterBytes]
    omega
  have hdiv : n < (size + clusterBytes b - 1) / clusterBytes b ↔ clusterBytes b * n < size := by
    rw [← Nat.succ_le_iff, Nat.le_div_iff_mul_le hpos, Nat.succ_mul, Nat.mul_comm]
    omega
  rw [need, lt_max_iff, hdiv]
  constructor
  · rintro (h | h)
    · rcases Nat.eq_zero_or_pos size with hs | hs
      · exact .inr ⟨hs, by omega⟩
      · have hn : n = 0 := by omega
        subst n
        exact .inl (by omega)
    · exact .inl h
  · rintro (h | ⟨_, h⟩)
    · exact .inr h
    · exact .inl (by omega)

theorem size_le_need_mul (hg : Geometry b) : size ≤ clusterBytes b * need b size := by
  by_contra h
  have := (lt_need_iff hg size (need b size)).mpr (.inl (by omega))
  omega

/-- `d` comes from `d₀` by linking the free clusters `l` into a chain and filling their
sectors with the buffer. -/
structure Writing (b : Bpb) (buffer : ℕ → UInt8) (size : ℕ) (d₀ d : Disk) (l : List ℕ) :
    Prop where
  free : ∀ c ∈ l, c ∈ freeClusters b d₀
  chain : l ≠ [] → ClusterChain b d (l.headD 0) l 0xFFFF
  other : ∀ x < 256 * b.tableSize, x ∉ l → fat16GetFatEntry b d x = fat16GetFatEntry b d₀ x
  outside : ∀ s, ¬ InFat b s → (∀ c ∈ l, ¬ InCluster b c s) → d s = d₀ s
  mirror : Mirror b d₀ → Mirror b d
  data : ∀ j c, l[j]? = some c → ∀ i < b.spc,
    d (b.clusterSector c + i) = chunk buffer size (clusterBytes b * j + 512 * i)

namespace Writing

theorem nil (b : Bpb) (buffer : ℕ → UInt8) (size : ℕ) (d : Disk) :
    Writing b buffer size d d [] where
  free := by simp
  chain := by simp
  other := fun _ _ _ => rfl
  outside := fun _ _ _ => rfl
  mirror := id
  data := by simp

theorem nodup (h : Writing b buffer size d₀ d l) : l.Nodup := by
  by_cases hl : l = []
  · simp [hl]
  · exact (h.chain hl).nodup

theorem two_le (h : Writing b buffer size d₀ d l) {c : ℕ} (hc : c ∈ l) : 2 ≤ c :=
  (mem_freeClusters.mp (h.free c hc)).1.1

theorem le_last (h : Writing b buffer size d₀ d l) {c : ℕ} (hc : c ∈ l) : c ≤ clusters b + 1 := by
  have := (mem_freeClusters.mp (h.free c hc)).1.2
  omega

theorem lt_entries (h : Writing b buffer size d₀ d l) (hg : Geometry b) {c : ℕ} (hc : c ∈ l) :
    c < 256 * b.tableSize :=
  hg.lt_entries (h.le_last hc)

theorem headD_eq_zero_iff (h : Writing b buffer size d₀ d l) : l.headD 0 = 0 ↔ l = [] := by
  cases l with
  | nil => simp
  | cons c l =>
      have := h.two_le (c := c) (by simp)
      simp
      omega

theorem headD_lt (h : Writing b buffer size d₀ d l) (hg : Geometry b) : l.headD 0 < 65536 := by
  cases l with
  | nil => simp
  | cons c l =>
      have := h.le_last (c := c) (by simp)
      have := hg.last
      simp only [List.headD_cons]
      omega

/-- The linked clusters are occupied. -/
theorem entry_ne_zero (h : Writing b buffer size d₀ d l) {c : ℕ} (hc : c ∈ l) :
    fat16GetFatEntry b d c ≠ 0 := by
  have hne : l ≠ [] := List.ne_nil_of_mem hc
  rcases (h.chain hne).next_mem_or_end hc with hnext | hend
  · have := h.two_le hnext
    omega
  · rw [hend]
    decide

/-- A cluster that is free now was free at the start and is not in the chain. -/
theorem free_of_free (h : Writing b buffer size d₀ d l) (hg : Geometry b) {c : ℕ}
    (hc : c ∈ freeClusters b d) : c ∉ l ∧ c ∈ freeClusters b d₀ := by
  obtain ⟨hrange, hzero⟩ := mem_freeClusters.mp hc
  have hnot : c ∉ l := fun hin => h.entry_ne_zero hin hzero
  refine ⟨hnot, mem_freeClusters.mpr ⟨hrange, ?_⟩⟩
  rw [← h.other c (hg.lt_entries (by omega)) hnot]
  exact hzero

/-- The clusters still free are the initial ones less the chain. -/
theorem freeClusters_eq (h : Writing b buffer size d₀ d l) (hg : Geometry b) :
    freeClusters b d = freeClusters b d₀ \ l.toFinset := by
  ext c
  rw [Finset.mem_sdiff, List.mem_toFinset]
  constructor
  · intro hc
    obtain ⟨hnot, hfree⟩ := h.free_of_free hg hc
    exact ⟨hfree, hnot⟩
  · rintro ⟨hfree, hnot⟩
    obtain ⟨hrange, hzero⟩ := mem_freeClusters.mp hfree
    refine mem_freeClusters.mpr ⟨hrange, ?_⟩
    rw [h.other c (hg.lt_entries (by omega)) hnot]
    exact hzero

theorem card_freeClusters (h : Writing b buffer size d₀ d l) (hg : Geometry b) :
    (freeClusters b d).card + l.length = (freeClusters b d₀).card := by
  have hsub : l.toFinset ⊆ freeClusters b d₀ := by
    intro c hc
    exact h.free c (List.mem_toFinset.mp hc)
  rw [h.freeClusters_eq hg, Finset.card_sdiff_of_subset hsub, List.toFinset_card_of_nodup h.nodup]
  have := Finset.card_le_card hsub
  rw [List.toFinset_card_of_nodup h.nodup] at this
  omega

/-! ## One round of the loop -/

/-- The table after one round: the new cluster ends the chain, and the last cluster so
far leads to it. -/
def linkNew (b : Bpb) (d : Disk) (l : List ℕ) (c : ℕ) : Disk :=
  let d' := fat16SetFatEntry b d c 0xFFFF
  if l.headD 0 = 0 then d' else fat16SetFatEntry b d' (l.getLastD 0) c

theorem linkNew_edit (h : Writing b buffer size d₀ d l) (hg : Geometry b) {c : ℕ}
    (hc : c ∈ freeClusters b d) : FatEdit b d (linkNew b d l c) := by
  have hcr := hg.lt_entries (c := c) (by have := (mem_freeClusters.mp hc).1; omega)
  simp only [linkNew]
  split
  · exact fatEdit_set hg hcr _
  · rename_i hne
    have hl : l ≠ [] := fun hl => hne (h.headD_eq_zero_iff.mpr hl)
    have hlast : l.getLastD 0 ∈ l := by
      rw [List.getLastD_eq_getLast?, List.getLast?_eq_some_getLast hl]
      exact List.getLast_mem hl
    exact (fatEdit_set hg hcr _).trans (fatEdit_set hg (h.lt_entries hg hlast) _)

theorem linkNew_other (h : Writing b buffer size d₀ d l) (hg : Geometry b) {c x : ℕ}
    (hc : c ∈ freeClusters b d) (hx : x < 256 * b.tableSize) (hxc : x ≠ c)
    (hxl : l ≠ [] → x ≠ l.getLastD 0) :
    fat16GetFatEntry b (linkNew b d l c) x = fat16GetFatEntry b d x := by
  have hclt : c < 65536 := by
    have := (mem_freeClusters.mp hc).1
    have := hg.last
    omega
  simp only [linkNew]
  split
  · rw [fatEntry_set hx (by decide), if_neg hxc]
  · rename_i hne
    have hl : l ≠ [] := fun hl => hne (h.headD_eq_zero_iff.mpr hl)
    rw [fatEntry_set hx hclt, if_neg (hxl hl), fatEntry_set hx (by decide), if_neg hxc]

theorem linkNew_chain (h : Writing b buffer size d₀ d l) (hg : Geometry b) {c : ℕ}
    (hc : c ∈ freeClusters b d) :
    ClusterChain b (linkNew b d l c) ((l ++ [c]).headD 0) (l ++ [c]) 0xFFFF := by
  obtain ⟨hrange, _⟩ := mem_freeClusters.mp hc
  have hlast := hg.last
  have hclt : c < 65536 := by omega
  have hcr : c < 256 * b.tableSize := hg.lt_entries (by omega)
  have hgo : IsCluster c := hg.isCluster hrange.1 (by omega)
  have hend : ¬ IsCluster 0xFFFF := by decide
  by_cases hl : l = []
  · subst l
    have hself : fat16GetFatEntry b (fat16SetFatEntry b d c 0xFFFF) c = 0xFFFF :=
      fat16GetFatEntry_set_self b d c (by decide)
    refine .step hgo ?_
    simp only [linkNew, List.headD_nil, if_true, List.nil_append, List.headD_cons, hself]
    exact .stop hend
  · have hnot := (h.free_of_free hg hc).1
    obtain ⟨init, z, rfl⟩ : ∃ init z, l = init ++ [z] :=
      ⟨l.dropLast, l.getLast hl, (List.dropLast_append_getLast hl).symm⟩
    have hzl : (init ++ [z]).getLastD 0 = z := by simp
    have hhead : (init ++ [z] ++ [c]).headD 0 = (init ++ [z]).headD 0 := by
      cases init <;> rfl
    have hzmem : z ∈ init ++ [z] := by simp
    have hzr : z < 256 * b.tableSize := h.lt_entries hg hzmem
    have hzc : c ≠ z := by
      rintro rfl
      exact hnot hzmem
    have hnz : ¬ (init ++ [z]).headD 0 = 0 := fun hz => hl (h.headD_eq_zero_iff.mp hz)
    rw [hhead]
    refine (h.chain hl).extend hgo hend ?_ ?_ ?_
    · intro x hx
      have hxmem : x ∈ init ++ [z] := by simp [hx]
      refine linkNew_other h hg hc (h.lt_entries hg hxmem) ?_ ?_
      · rintro rfl
        exact hnot hxmem
      · intro _
        rw [hzl]
        rintro rfl
        have := List.disjoint_of_nodup_append h.nodup hx
        simp at this
    · simp only [linkNew, hnz, if_false, hzl]
      rw [fat16GetFatEntry_set_self _ _ _ hclt]
    · simp only [linkNew, hnz, if_false, hzl]
      rw [fatEntry_set hcr hclt, if_neg hzc, fat16GetFatEntry_set_self _ _ _ (by decide)]

/-- One round of the loop links the new cluster and fills its sectors. -/
theorem step (h : Writing b buffer size d₀ d l) (hg : Geometry b) {c w : ℕ}
    (hc : c ∈ freeClusters b d) (hw : w = min size (clusterBytes b * l.length)) :
    Writing b buffer size d₀
      (writeSectors buffer size b.spc (b.clusterSector c) (linkNew b d l c) w).1 (l ++ [c]) := by
  obtain ⟨hnot, hfree⟩ := h.free_of_free hg hc
  have hedit := h.linkNew_edit hg hc
  have hrange := (mem_freeClusters.mp hc).1
  have hfat : ∀ s, InFat b s →
      (writeSectors buffer size b.spc (b.clusterSector c) (linkNew b d l c) w).1 s =
        linkNew b d l c s := by
    intro s hs
    rw [writeSectors_apply _ _ _ _ (by omega), if_neg]
    intro hin
    exact InCluster.not_inFat (b := b) (c := c) hin hs
  have hentry : ∀ x < 256 * b.tableSize, fat16GetFatEntry b
      (writeSectors buffer size b.spc (b.clusterSector c) (linkNew b d l c) w).1 x =
        fat16GetFatEntry b (linkNew b d l c) x :=
    fun x hx => fatEntry_congr hg hfat hx
  have hlt : ∀ x ∈ l ++ [c], x < 256 * b.tableSize := by
    intro x hx
    rcases List.mem_append.mp hx with hx | hx
    · exact h.lt_entries hg hx
    · rw [List.mem_singleton.mp hx]
      exact hg.lt_entries (by omega)
  constructor
  · intro x hx
    rcases List.mem_append.mp hx with hx | hx
    · exact h.free x hx
    · rw [List.mem_singleton.mp hx]
      exact hfree
  · intro _
    exact (h.linkNew_chain hg hc).congr (fun x hx => hentry x (hlt x hx))
  · intro x hx hxl
    have hxl' : x ∉ l := fun hin => hxl (by simp [hin])
    rw [hentry x hx, h.linkNew_other hg hc hx (fun he => hxl (by simp [he])), h.other x hx hxl']
    intro hl he
    apply hxl'
    rw [he, List.getLastD_eq_getLast?, List.getLast?_eq_some_getLast hl]
    exact List.getLast_mem hl
  · intro s hs hout
    rw [writeSectors_apply _ _ _ _ (by omega), if_neg, hedit.outside s hs]
    · exact h.outside s hs (fun x hx => hout x (by simp [hx]))
    · intro hin
      exact hout c (by simp) hin
  · exact fun hm => (hedit.mirror (h.mirror hm)).congr hfat
  · intro j x hj i hi
    rw [writeSectors_apply _ _ _ _ (by omega)]
    by_cases hlast : j < l.length
    · rw [List.getElem?_append_left hlast] at hj
      have hx : x ∈ l := List.mem_of_getElem? hj
      have hin : InCluster b x (b.clusterSector x + i) := ⟨by omega, by omega⟩
      rw [if_neg, hedit.outside _ hin.not_inFat]
      · exact h.data j x hj i hi
      · intro hinc
        have := InCluster.unique hin hinc (h.two_le hx) hrange.1
        exact hnot (this ▸ hx)
    · have hj' : j = l.length ∧ x = c := by
        rw [List.getElem?_append_right (by omega)] at hj
        have hidx : j - l.length = 0 := by
          by_contra hne
          rw [List.getElem?_singleton, if_neg hne] at hj
          cases hj
        rw [hidx] at hj
        simp at hj
        exact ⟨by omega, hj.symm⟩
      obtain ⟨rfl, rfl⟩ := hj'
      rw [if_pos (by omega), Nat.add_sub_cancel_left, ← chunk_min, hw]
      have hmin : min size (min size (clusterBytes b * l.length) + 512 * i) =
          min size (clusterBytes b * l.length + 512 * i) := by omega
      rw [hmin, chunk_min]

/-- The rollback restores every entry of the table. -/
theorem rollback (h : Writing b buffer size d₀ d l) (hg : Geometry b) {r : Disk}
    (hr : r = if l.headD 0 ≠ 0 then freeChain b d (l.headD 0) else d) :
    (∀ x < 256 * b.tableSize, fat16GetFatEntry b r x = fat16GetFatEntry b d₀ x) ∧
      (∀ s, ¬ InFat b s → (∀ c ∈ l, ¬ InCluster b c s) → r s = d₀ s) ∧
      (Mirror b d₀ → Mirror b r) := by
  by_cases hl : l = []
  · rw [if_neg (by simp [hl])] at hr
    subst hr
    exact ⟨fun x hx => h.other x hx (by simp [hl]), h.outside, h.mirror⟩
  · rw [if_pos (fun hz => hl (h.headD_eq_zero_iff.mp hz))] at hr
    obtain ⟨hedit, hentry⟩ := freeChain_spec hg (h.chain hl) (fun x hx => h.lt_entries hg hx)
    rw [← hr] at hedit hentry
    refine ⟨?_, ?_, fun hm => hedit.mirror (h.mirror hm)⟩
    · intro x hx
      rw [hentry x hx]
      split
      · rename_i hin
        exact (mem_freeClusters.mp (h.free x hin)).2.symm
      · rename_i hout
        exact h.other x hx hout
    · intro s hs hout
      rw [hedit.outside s hs, h.outside s hs hout]

end Writing

/-! ## The whole loop -/

/-- The loop fills the clusters the size needs, or runs out of free clusters first and
rolls back. -/
inductive LoopCase (b : Bpb) (buffer : ℕ → UInt8) (size : ℕ) (d₀ : Disk) :
    WriteExit × Disk × ℕ → Prop where
  | done (l : List ℕ) (d : Disk) (h : Writing b buffer size d₀ d l)
      (hlen : l.length = need b size) : LoopCase b buffer size d₀ (.done, d, l.headD 0)
  | full (l : List ℕ) (d r : Disk) (h : Writing b buffer size d₀ d l)
      (hlen : l.length < need b size) (hnone : freeClusters b d = ∅)
      (hr : r = if l.headD 0 ≠ 0 then freeChain b d (l.headD 0) else d) :
      LoopCase b buffer size d₀ (.diskFull, r, l.headD 0)

theorem writeLoop_cases_of_writing (hg : Geometry b) (m : ℕ) :
    ∀ (l : List ℕ) (d : Disk) (w : ℕ), Writing b buffer size d₀ d l →
      need b size = l.length + m → w = min size (clusterBytes b * l.length) →
      LoopCase b buffer size d₀
        (writeLoop b buffer size d (l.headD 0) (l.getLastD 0) w) := by
  induction m with
  | zero =>
      intro l d w h hm hw
      have hguard : ¬ (w < size ∨ (size = 0 ∧ l.headD 0 = 0)) := by
        have hnot := mt (lt_need_iff hg size l.length).mpr (by omega)
        rw [h.headD_eq_zero_iff, ← List.length_eq_zero_iff]
        omega
      rw [writeLoop, if_neg hguard]
      exact .done l d h (by omega)
  | succ m ih =>
      intro l d w h hm hw
      have hlt := (lt_need_iff hg size l.length).mp (by omega)
      have hguard : w < size ∨ (size = 0 ∧ l.headD 0 = 0) := by
        rw [h.headD_eq_zero_iff, ← List.length_eq_zero_iff]
        omega
      rw [writeLoop, if_pos hguard]
      have hcases := fat16AllocCluster_cases hg d
      split
      · rename_i halloc
        rw [halloc] at hcases
        cases hcases
      · rename_i newC d' halloc
        rw [halloc] at hcases
        cases hcases with
        | full hnone =>
            rw [if_pos rfl]
            exact .full l d _ h (by omega) hnone rfl
        | taken _ hc _ =>
            have hrange := (mem_freeClusters.mp hc).1
            rw [if_neg (by omega)]
            have hstep := h.step hg hc hw
            have hfirst : (if l.headD 0 = 0 then newC else l.headD 0) = (l ++ [newC]).headD 0 := by
              cases l with
              | nil => simp
              | cons a l =>
                  have := h.two_le (c := a) (by simp)
                  simp
                  omega
            have hlen : (l ++ [newC]).length = l.length + 1 := by simp
            have hlast : newC = (l ++ [newC]).getLastD 0 := by simp
            have hw' := writeSectors_snd buffer size b.spc (b.clusterSector newC)
              (Writing.linkNew b d l newC) w (by omega)
            rw [hfirst]
            change LoopCase b buffer size d₀ (if size = 0
              then (.done, (writeSectors buffer size b.spc (b.clusterSector newC)
                (Writing.linkNew b d l newC) w).1, (l ++ [newC]).headD 0)
              else writeLoop b buffer size (writeSectors buffer size b.spc (b.clusterSector newC)
                (Writing.linkNew b d l newC) w).1 ((l ++ [newC]).headD 0) newC
                (writeSectors buffer size b.spc (b.clusterSector newC)
                  (Writing.linkNew b d l newC) w).2)
            by_cases hzero : size = 0
            · rw [if_pos hzero]
              refine .done (l ++ [newC]) _ hstep ?_
              have hn := (lt_need_iff hg size (l.length + 1)).not.mpr (by omega)
              omega
            · rw [if_neg hzero]
              have hnext := ih (l ++ [newC]) _ (min size (w + 512 * b.spc)) hstep (by omega)
                (by rw [hlen, Nat.mul_succ, hw]; simp only [clusterBytes]; omega)
              rw [← hw', ← hlast] at hnext
              exact hnext

theorem writeLoop_cases (hg : Geometry b) (buffer : ℕ → UInt8) (size : ℕ) (d : Disk) :
    LoopCase b buffer size d (writeLoop b buffer size d 0 0 0) := by
  have h := writeLoop_cases_of_writing hg (need b size) [] d 0 (Writing.nil b buffer size d)
    (by simp) (by simp)
  exact h

/-- The loop completes exactly when there are enough free clusters. -/
theorem LoopCase.done_iff (hg : Geometry b) {r : WriteExit × Disk × ℕ}
    (h : LoopCase b buffer size d₀ r) :
    r.1 = .done ↔ need b size ≤ (freeClusters b d₀).card := by
  cases h with
  | done l d h hlen =>
      have := h.card_freeClusters hg
      simp only [true_iff]
      omega
  | full l d r h hlen hnone hr =>
      have := h.card_freeClusters hg
      rw [hnone, Finset.card_empty] at this
      simp only [reduceCtorEq, false_iff]
      omega

end LispDos.Fat16
